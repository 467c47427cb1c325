import TCore.Lib.Arr
import TCore.Lib.LittleEndian
import TCore.Lib.Prog
import TCore.Lib.Utf8
import TCore.EasyFs.Block
import TCore.EasyFs.DiskLayout
import TCore.EasyFs.BlockCache
import TCore.EasyFs.CacheProofs
import TCore.EasyFs.CacheRun
import TCore.EasyFs.Bitmap
import TCore.EasyFs.DiskInode
import TCore.EasyFs.InodeTree
import TCore.EasyFs.InodeGrow
import TCore.EasyFs.InodeClear
import TCore.EasyFs.InodeData
import TCore.EasyFs.Efs
import TCore.EasyFs.Vfs
import TCore.EasyFs.Volume
import TCore.EasyFs.VolumeAlloc
import TCore.EasyFs.VolumeGrow
import TCore.EasyFs.VolumeWrite
import TCore.EasyFs.Directory
import TCore.EasyFs.VolumeCreate
import TCore.EasyFs.Mkfs
import TCore.EasyFs.DataArea
import TCore.EasyFs.Locks
import TCore.EasyFs.Mount
import TCore.EasyFs.Files
import TCore.EasyFs.Remount
import TCore.EasyFs.Tree
import TCore.Lib.Machine
import TCore.Kernel.Signal
import TCore.Kernel.SignalPass
import TCore.Lib.Ring
import TCore.Kernel.Pipe
import TCore.Kernel.PipeRun
import TCore.Kernel.Eventfd
import TCore.Kernel.Sync
import TCore.Kernel.Paths
import TCore.Kernel.Tasks
import TCore.Kernel.Sound
import TCore.Kernel.Borrows
import TCore.Kernel.Conserve
import TCore.Kernel.Tables
import TCore.Kernel.Locality
import TCore.Kernel.Exited
import TCore.Kernel.Reap
import TCore.Kernel.BlockIo
import TCore.Kernel.Uart
import TCore.Kernel.Handlers
import TCore.Kernel.Join
import TCore.Kernel.ProcessTree
import TCore.EasyFs.Names
import TCore.Kernel.OpenFile
import TCore.Lib.Trie
import TCore.Mm.Address
import TCore.Mm.Frames
import TCore.Mm.PageTable
import TCore.Mm.PageMap
import TCore.Mm.UserPointer
import TCore.EasyFs.Areas
import TCore.EasyFs.BitmapSet
import TCore.Kernel.Timer
import TCore.EasyFs.Growth
import TCore.EasyFs.GrowthSplit
import TCore.EasyFs.WriteBlocks
import TCore.EasyFs.FailedCalls
import TCore.EasyFs.SpareBits
import TCore.EasyFs.StoredNames
import TCore.EasyFs.CacheLocks
import TCore.EasyFs.SelfDeadlock
import TCore.Mm.Mappings
import TCore.Mm.MemorySet
import TCore.Mm.BufferTurns
import TCore.Mm.UserObjects
import TCore.EasyFs.CacheDevices
import TCore.Kernel.FileIo
import TCore.Mm.Fork
import TCore.Mm.Bytes
import TCore.Mm.Elf
import TCore.Mm.View
import TCore.Kernel.UserRes
import TCore.Kernel.ExecArgs
import TCore.Kernel.Exec
import TCore.Mm.Noalloc
import TCore.Mm.Remove
import TCore.Kernel.Process
import TCore.Kernel.Framebuffer
import TCore.Kernel.Layout
import TCore.Kernel.Ids
import TCore.Kernel.Dma
import TCore.Kernel.Kill
import TCore.Kernel.Faults
import TCore.Kernel.FdTable
import TCore.Kernel.Input
import TCore.User.Arguments
import TCore.User.Shell
import TCore.Mm.KernelSpace
import TCore.Kernel.KernelStack
import TCore.Kernel.Isolation
import TCore.Kernel.Masking
import TCore.User.Peterson
import TCore.Kernel.Trampoline
