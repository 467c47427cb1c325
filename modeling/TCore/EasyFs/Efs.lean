/-
  TCore.EasyFs.Efs — the file system on a device (efs.rs).

  `create` divides the device into the super block, the inode bitmap, the inode area, the data
  bitmap and the data area, clears every block, and makes the root directory; `open` computes
  the same division again from the super block. Block numbers are `u32` and wrap as the
  release build's do.
-/

import TCore.EasyFs.DiskInode

namespace TCore.EasyFs

open TCore.Lib

def blockCacheSyncAll : Fs Unit := .sync (.ret ())

structure EasyFileSystem where
  inodeBitmap : Bitmap
  dataBitmap : Bitmap
  inodeAreaStartBlock : UInt32
  dataAreaStartBlock : UInt32
  deriving DecidableEq

/-- Clear `n` blocks from block `i` on. -/
def clearBlocks : Nat → Nat → Fs Unit
  | 0, _ => pure ()
  | n + 1, i => do
    Prog.modify i fun _ => pure ((), Block.zero)
    clearBlocks n (i + 1)

namespace EasyFileSystem

/-- The block an inode lies in, and its offset there. -/
def getDiskInodePos (fs : EasyFileSystem) (inodeId : UInt32) : UInt32 × Nat :=
  (fs.inodeAreaStartBlock + inodeId / 4, (inodeId % 4).toNat * 128)

def allocInode (fs : EasyFileSystem) : Fs UInt32 := do
  let k ← fs.inodeBitmap.alloc
  let k ← Prog.unwrap k
  pure (UInt32.ofNat k)

def allocData (fs : EasyFileSystem) : Fs UInt32 := do
  let k ← fs.dataBitmap.alloc
  let k ← Prog.unwrap k
  pure (UInt32.ofNat k + fs.dataAreaStartBlock)

def deallocData (fs : EasyFileSystem) (blockId : UInt32) : Fs Unit := do
  Prog.modify blockId.toNat fun _ => pure ((), Block.zero)
  fs.dataBitmap.dealloc (blockId - fs.dataAreaStartBlock).toNat

def inodeAreaBlocksFor (inodeBitmapBlocks : UInt32) : UInt32 :=
  UInt32.ofNat (((⟨1, inodeBitmapBlocks.toNat⟩ : Bitmap).maximum * 128 + 512 - 1) / 512)

def dataTotalBlocksFor (totalBlocks inodeBitmapBlocks : UInt32) : UInt32 :=
  totalBlocks - 1 - (inodeBitmapBlocks + inodeAreaBlocksFor inodeBitmapBlocks)

def dataBitmapBlocksFor (totalBlocks inodeBitmapBlocks : UInt32) : UInt32 :=
  (dataTotalBlocksFor totalBlocks inodeBitmapBlocks + 4096) / 4097

/-- The numbers `create` writes into the super block. -/
def superBlockFor (totalBlocks inodeBitmapBlocks : UInt32) : SuperBlock :=
  ⟨efsMagic, totalBlocks, inodeBitmapBlocks, inodeAreaBlocksFor inodeBitmapBlocks,
    dataBitmapBlocksFor totalBlocks inodeBitmapBlocks,
    dataTotalBlocksFor totalBlocks inodeBitmapBlocks - dataBitmapBlocksFor totalBlocks inodeBitmapBlocks⟩

/-- The file system `create` answers. -/
def efsFor (totalBlocks inodeBitmapBlocks : UInt32) : EasyFileSystem :=
  { inodeBitmap := ⟨1, inodeBitmapBlocks.toNat⟩
    dataBitmap := ⟨(1 + inodeBitmapBlocks + inodeAreaBlocksFor inodeBitmapBlocks).toNat,
      (dataBitmapBlocksFor totalBlocks inodeBitmapBlocks).toNat⟩
    inodeAreaStartBlock := 1 + inodeBitmapBlocks
    dataAreaStartBlock := 1 + (inodeBitmapBlocks + inodeAreaBlocksFor inodeBitmapBlocks) +
      dataBitmapBlocksFor totalBlocks inodeBitmapBlocks }

def create (totalBlocks inodeBitmapBlocks : UInt32) : Fs EasyFileSystem := do
  let efs := efsFor totalBlocks inodeBitmapBlocks
  clearBlocks totalBlocks.toNat 0
  Prog.modify 0 fun b => pure ((), b.setSuperBlock (superBlockFor totalBlocks inodeBitmapBlocks))
  let rootId ← efs.allocInode
  Prog.assert (rootId = 0)
  let pos := efs.getDiskInodePos 0
  Prog.modify pos.1.toNat fun b => pure ((), b.setInode pos.2 (DiskInode.reset .directory))
  blockCacheSyncAll
  pure efs

def «open» : Fs EasyFileSystem :=
  Prog.read 0 fun b => do
    let superBlock := b.superBlock
    Prog.assert (superBlock.isValid = true)
    let inodeTotalBlocks := superBlock.inodeBitmapBlocks + superBlock.inodeAreaBlocks
    pure
      { inodeBitmap := ⟨1, superBlock.inodeBitmapBlocks.toNat⟩
        dataBitmap := ⟨(1 + inodeTotalBlocks).toNat, superBlock.dataBitmapBlocks.toNat⟩
        inodeAreaStartBlock := 1 + superBlock.inodeBitmapBlocks
        dataAreaStartBlock := 1 + inodeTotalBlocks + superBlock.dataBitmapBlocks }

end EasyFileSystem

end TCore.EasyFs
