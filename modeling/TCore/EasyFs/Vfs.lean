/-
  TCore.EasyFs.Vfs — inode handles (vfs.rs).

  A handle is the place of an inode on the disk. `create`, `write_at` and `clear` end with a
  flush of the cache. Names and paths are byte strings; the directory search reads one 32-byte
  entry after the other, into a buffer it fills completely each time.
-/

import TCore.EasyFs.Efs

namespace TCore.EasyFs

open TCore.Lib Prog

structure Inode where
  blockId : Nat
  blockOffset : Nat
  deriving DecidableEq

/-- The handle of inode number `id`. -/
def EasyFileSystem.inodeAt (fs : EasyFileSystem) (id : UInt32) : Inode :=
  ⟨(fs.getDiskInodePos id).1.toNat, (fs.getDiskInodePos id).2⟩

def EasyFileSystem.rootInode (fs : EasyFileSystem) : Inode := fs.inodeAt 0

/-- Entry `i` of a directory. -/
def readDirent (diskInode : DiskInode) (i : Nat) : Fs DirEntry := do
  let r ← diskInode.readAt (32 * i) (List.replicate 32 0)
  assert (r.1 = 32)
  pure (DirEntry.ofBytes r.2)

/-- The search among `n` entries from entry `i` on. -/
def findDirent (diskInode : DiskInode) (name : List UInt8) : Nat → Nat → Fs (Option UInt32)
  | 0, _ => pure none
  | n + 1, i => do
    let dirent ← readDirent diskInode i
    let found ← unwrap dirent.nameOf
    if found = name then pure (some dirent.inodeNumber) else findDirent diskInode name n (i + 1)

def findInodeId (name : List UInt8) (diskInode : DiskInode) : Fs (Option UInt32) := do
  assert (diskInode.isDir = true)
  findDirent diskInode name (diskInode.size.toNat / 32) 0

/-- The names of `n` entries from entry `i` on. -/
def listDirents (diskInode : DiskInode) : Nat → Nat → Fs (List (List UInt8))
  | 0, _ => pure []
  | n + 1, i => do
    let dirent ← readDirent diskInode i
    let name ← unwrap dirent.nameOf
    let rest ← listDirents diskInode n (i + 1)
    pure (name :: rest)

/-- `path.split('/').filter(|s| !s.is_empty())`. -/
def components (path : List UInt8) : List (List UInt8) := (path.splitOn 47).filter fun s => !s.isEmpty

/-- `n` turns of `v.push(fs.alloc_data())`. -/
def allocBlocks (fs : EasyFileSystem) : Nat → Fs (List UInt32)
  | 0 => pure []
  | n + 1 => do
    let x ← fs.allocData
    let rest ← allocBlocks fs n
    pure (x :: rest)

def deallocBlocks (fs : EasyFileSystem) : List UInt32 → Fs Unit
  | [] => pure ()
  | x :: rest => do
    fs.deallocData x
    deallocBlocks fs rest

/-- `increase_size` of vfs.rs: allocate what the new size takes, then grow the disk inode. -/
def increaseSize (fs : EasyFileSystem) (newSize : UInt32) (diskInode : DiskInode) : Fs DiskInode :=
  if newSize < diskInode.size then pure diskInode
  else do
    let blocksNeeded ← diskInode.blocksNumNeeded newSize
    let v ← allocBlocks fs blocksNeeded
    diskInode.increaseSize newSize v

namespace Inode

variable {α : Type}

def readDiskInode (self : Inode) (f : DiskInode → Fs α) : Fs α :=
  read self.blockId fun b => f (b.inode self.blockOffset)

def modifyDiskInode (self : Inode) (f : DiskInode → Fs (α × DiskInode)) : Fs α :=
  modify self.blockId fun b => do
    let r ← f (b.inode self.blockOffset)
    pure (r.1, b.setInode self.blockOffset r.2)

/-- The loop of `find`, from the inode reached so far. -/
def findFrom (fs : EasyFileSystem) (self : Inode) : List (List UInt8) → Fs (Option Inode)
  | [] => pure (some self)
  | name :: rest => do
    let inodeId ← self.readDiskInode fun diskInode =>
      if diskInode.isFile = true then pure none else findInodeId name diskInode
    match inodeId with
    | none => pure none
    | some id => findFrom fs (fs.inodeAt id) rest

def find (fs : EasyFileSystem) (self : Inode) (path : List UInt8) : Fs (Option Inode) :=
  self.findFrom fs (components path)

/-- `create_inode` once no entry of that name is found. -/
def addInode (fs : EasyFileSystem) (self : Inode) (name : List UInt8) (inodeType : DiskInodeType) : Fs Inode := do
  let newInodeId ← fs.allocInode
  (fs.inodeAt newInodeId).modifyDiskInode fun _ => pure ((), DiskInode.reset inodeType)
  self.modifyDiskInode fun rootInode => do
    let fileCount := rootInode.size.toNat / 32
    let grown ← increaseSize fs (UInt32.ofNat (32 * (fileCount + 1))) rootInode
    let dirent ← unwrap (DirEntry.new name newInodeId)
    let _ ← grown.writeAt (32 * fileCount) dirent.asBytes
    pure ((), grown)
  blockCacheSyncAll
  pure (fs.inodeAt newInodeId)

def createInode (fs : EasyFileSystem) (self : Inode) (name : List UInt8) (inodeType : DiskInodeType) :
    Fs (Option Inode) := do
  let found ← self.readDiskInode fun rootInode => do
    assert (rootInode.isDir = true)
    findInodeId name rootInode
  if found.isSome then pure none
  else do
    let inode ← self.addInode fs name inodeType
    pure (some inode)

def create (fs : EasyFileSystem) (self : Inode) (name : List UInt8) : Fs (Option Inode) :=
  self.createInode fs name .file

def createDir (fs : EasyFileSystem) (self : Inode) (name : List UInt8) : Fs (Option Inode) :=
  self.createInode fs name .directory

def ls (self : Inode) : Fs (List (List UInt8)) :=
  self.readDiskInode fun diskInode =>
    if diskInode.isFile = true then pure [] else listDirents diskInode (diskInode.size.toNat / 32) 0

def readAt (self : Inode) (offset : Nat) (buf : List UInt8) : Fs (Nat × List UInt8) :=
  self.readDiskInode fun diskInode => diskInode.readAt offset buf

def writeAt (fs : EasyFileSystem) (self : Inode) (offset : Nat) (buf : List UInt8) : Fs Nat := do
  let size ← self.modifyDiskInode fun diskInode => do
    assert (diskInode.isFile = true)
    let grown ← increaseSize fs (UInt32.ofNat (offset + buf.length)) diskInode
    let size ← grown.writeAt offset buf
    pure (size, grown)
  blockCacheSyncAll
  pure size

def clear (fs : EasyFileSystem) (self : Inode) : Fs Unit := do
  self.modifyDiskInode fun diskInode => do
    assert (diskInode.isFile = true)
    let r ← diskInode.clearSize
    assert (r.1.length = DiskInode.totalBlocks diskInode.size)
    deallocBlocks fs r.1
    pure ((), r.2)
  blockCacheSyncAll

/-- The closure of `modify_disk_inode` only reads. -/
def getInodeSize (self : Inode) : Fs UInt32 :=
  modify self.blockId fun b => pure ((b.inode self.blockOffset).size, b)

end Inode

end TCore.EasyFs
