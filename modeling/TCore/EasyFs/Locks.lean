/-
  TCore.EasyFs.Locks — how many blocks the file-system code holds at once.

  Every operation holds the block of its inode, at most an index block and one of its rows
  beside it, and drops what it took: never more than three, so the cache always finds a buffer to
  reuse. `find`, `ls` and `read_at` contain no write.
-/

import TCore.EasyFs.Vfs

namespace TCore.EasyFs

open TCore.Lib

section

open Fits

variable {c h : Nat}

/-! ## Disk inodes -/

theorem nextBlock_fits (l : List UInt32) : Fits c h (nextBlock l) h := by
  cases l with
  | nil => exact panic
  | cons x xs => exact ret _

theorem takeIndex_fits (current : Nat) (x : UInt32) (l : List UInt32) : Fits c h (takeIndex current x l) h :=
  ite (nextBlock_fits l) (ret _)

theorem openRow_fits (a0 b0 : Nat) (b : Block) (l : List UInt32) : Fits c h (openRow a0 b0 b l) h :=
  ite (bind (nextBlock_fits l) fun _ => ret _) (ret _)

theorem fill_fits {α : Type} (put : α → Nat → UInt32 → α) (n current : Nat) (a : α) (l : List UInt32) :
    Fits c h (fill put n current a l) h := by
  induction n generalizing current a l with
  | zero => exact ret _
  | succ n ih => exact bind (nextBlock_fits l) fun _ => ih _ _ _

theorem fillRows_fits (hh : h < c) (n a0 b0 : Nat) (b : Block) (l : List UInt32) : Fits c h (fillRows n a0 b0 b l) h := by
  induction n generalizing a0 b0 b l with
  | zero => exact ret _
  | succ n ih =>
    refine bind (assert _) fun _ => bind (openRow_fits _ _ _ _) fun r => ?_
    refine bind (modify hh fun _ => bind (nextBlock_fits _) fun _ => ret _) fun _ => ?_
    exact ite (ih _ _ _ _) (ih _ _ _ _)

theorem clearRows_fits (hh : h < c) (b : Block) (n r : Nat) (v : List UInt32) : Fits c h (clearRows b n r v) h := by
  induction n generalizing r v with
  | zero => exact ret _
  | succ n ih => exact bind (modify hh fun _ => ret _) fun _ => ih _ _

namespace DiskInode

variable (ino : DiskInode)

theorem getBlockId_fits (hh : h < c) (k : Nat) : Fits c h (ino.getBlockId k) h := by
  refine ite (ret _) (ite (read hh fun _ => ret _) ?_)
  exact bind (read hh fun _ => bind (assert _) fun _ => ret _) fun _ =>
    read hh fun _ => ret _

theorem increaseRows_fits (hh : h + 1 < c) (current total : Nat) (l : List UInt32) :
    Fits c h (ino.increaseRows current total l) h :=
  bind (takeIndex_fits _ _ _) fun _ =>
    bind (modify (by omega) fun _ => bind (fillRows_fits (by omega) _ _ _ _ _) fun _ => ret _) fun _ =>
      ret _

theorem increaseIndirect_fits (hh : h + 1 < c) (current total : Nat) (l : List UInt32) :
    Fits c h (ino.increaseIndirect current total l) h := by
  refine bind (takeIndex_fits _ _ _) fun _ =>
    bind (modify (by omega) fun _ => bind (fill_fits _ _ _ _ _) fun _ => ret _) fun _ => ?_
  exact ite (increaseRows_fits _ hh _ _ _) (ret _)

theorem increaseSize_fits (hh : h + 1 < c) (newSize : UInt32) (l : List UInt32) : Fits c h (ino.increaseSize newSize l) h :=
  bind (fill_fits _ _ _ _ _) fun _ => ite (increaseIndirect_fits _ hh _ _ _) (ret _)

theorem clearIndirect2_fits (hh : h + 1 < c) (n : Nat) (v : List UInt32) : Fits c h (ino.clearIndirect2 n v) h := by
  refine bind (assert _) fun _ => modify (by omega) fun _ =>
    bind (clearRows_fits (by omega) _ _ _ _) fun _ => ite ?_ (ret _)
  exact bind (modify (by omega) fun _ => ret _) fun _ => ret _

theorem clearIndirect1_fits (hh : h + 1 < c) (n : Nat) (v : List UInt32) : Fits c h (ino.clearIndirect1 n v) h := by
  refine bind (modify (by omega) fun _ => ret _) fun _ => ?_
  exact ite (bind (clearIndirect2_fits _ hh _ _) fun _ => ret _) (ret _)

theorem clearSize_fits (hh : h + 1 < c) : Fits c h ino.clearSize h :=
  ite (clearIndirect1_fits _ hh _ _) (ret _)

theorem readLoop_fits (hh : h < c) (stop fuel start : Nat) : Fits c h (ino.readLoop stop fuel start) h := by
  induction fuel generalizing start with
  | zero => exact panic
  | succ fuel ih =>
    exact bind (getBlockId_fits _ hh _) fun _ => bind (read hh fun _ => ret _) fun _ =>
      ite (ret _) (bind (ih _) fun _ => ret _)

theorem readAt_fits (hh : h < c) (offset : Nat) (buf : List UInt8) : Fits c h (ino.readAt offset buf) h :=
  ite (ret _) (bind (readLoop_fits _ hh _ _ _) fun _ => ret _)

theorem writeLoop_fits (hh : h < c) (stop fuel start : Nat) (buf : List UInt8) :
    Fits c h (ino.writeLoop stop fuel start buf) h := by
  induction fuel generalizing start buf with
  | zero => exact panic
  | succ fuel ih =>
    exact bind (getBlockId_fits _ hh _) fun _ => bind (modify hh fun _ => ret _) fun _ =>
      ite (ret _) (bind (ih _ _) fun _ => ret _)

theorem writeAt_fits (hh : h < c) (offset : Nat) (buf : List UInt8) : Fits c h (ino.writeAt offset buf) h :=
  bind (assert _) fun _ => writeLoop_fits _ hh _ _ _ _

end DiskInode

/-! ## The file system -/

variable (fs : EasyFileSystem)

theorem allocData_fits (hh : h < c) : Fits c h fs.allocData h :=
  bind (Bitmap.alloc_fits _ hh) fun k => bind (unwrap k) fun _ => ret _

theorem allocInode_fits (hh : h < c) : Fits c h fs.allocInode h :=
  bind (Bitmap.alloc_fits _ hh) fun k => bind (unwrap k) fun _ => ret _

theorem deallocData_fits (hh : h < c) (x : UInt32) : Fits c h (fs.deallocData x) h :=
  bind (modify hh fun _ => ret _) fun _ => Bitmap.dealloc_fits _ hh _

theorem clearBlocks_fits (hh : h < c) (n i : Nat) : Fits c h (clearBlocks n i) h := by
  induction n generalizing i with
  | zero => exact ret _
  | succ n ih => exact bind (modify hh fun _ => ret _) fun _ => ih _

theorem sync_fits : Fits c h blockCacheSyncAll h := sync (ret ())

theorem create_fits (totalBlocks inodeBitmapBlocks : UInt32) :
    Fits 3 0 (EasyFileSystem.create totalBlocks inodeBitmapBlocks) 0 := by
  refine bind (clearBlocks_fits (by omega) _ _) fun _ => bind (modify (by omega) fun _ => ret _) fun _ => ?_
  refine bind (allocInode_fits _ (by omega)) fun _ => bind (assert _) fun _ => ?_
  exact bind (modify (by omega) fun _ => ret _) fun _ => bind sync_fits fun _ => ret _

theorem open_fits : Fits 3 0 EasyFileSystem.open 0 :=
  read (by omega) fun _ => bind (assert _) fun _ => ret _

/-! ## Inodes -/

theorem allocBlocks_fits (hh : h < c) (n : Nat) : Fits c h (allocBlocks fs n) h := by
  induction n with
  | zero => exact ret _
  | succ n ih => exact bind (allocData_fits fs hh) fun _ => bind ih fun _ => ret _

theorem deallocBlocks_fits (hh : h < c) (v : List UInt32) : Fits c h (deallocBlocks fs v) h := by
  induction v with
  | nil => exact ret _
  | cons x v ih => exact bind (deallocData_fits fs hh x) fun _ => ih

theorem increaseSize_fits (hh : h + 1 < c) (newSize : UInt32) (ino : DiskInode) : Fits c h (increaseSize fs newSize ino) h :=
  ite (ret _) <| bind (bind (assert _) fun _ => ret _) fun _ =>
    bind (allocBlocks_fits fs (by omega) _) fun _ => ino.increaseSize_fits hh _ _

theorem readDirent_fits (hh : h < c) (ino : DiskInode) (i : Nat) : Fits c h (readDirent ino i) h :=
  bind (ino.readAt_fits hh _ _) fun _ => bind (assert _) fun _ => ret _

theorem findDirent_fits (hh : h < c) (ino : DiskInode) (name : List UInt8) (n i : Nat) :
    Fits c h (findDirent ino name n i) h := by
  induction n generalizing i with
  | zero => exact ret _
  | succ n ih =>
    exact bind (readDirent_fits hh ino i) fun _ => bind (unwrap _) fun _ => ite (ret _) (ih _)

theorem findInodeId_fits (hh : h < c) (name : List UInt8) (ino : DiskInode) : Fits c h (findInodeId name ino) h :=
  bind (assert _) fun _ => findDirent_fits hh ino name _ _

theorem listDirents_fits (hh : h < c) (ino : DiskInode) (n i : Nat) : Fits c h (listDirents ino n i) h := by
  induction n generalizing i with
  | zero => exact ret _
  | succ n ih =>
    exact bind (readDirent_fits hh ino i) fun _ => bind (unwrap _) fun _ => bind (ih _) fun _ => ret _

namespace Inode

variable (self : Inode)

theorem modifyDiskInode_fits {α : Type} {f : DiskInode → Fs (α × DiskInode)} (hh : h < c)
    (hf : ∀ ino, Fits c (h + 1) (f ino) (h + 1)) : Fits c h (self.modifyDiskInode f) h :=
  modify hh fun _ => bind (hf _) fun _ => ret _

theorem findFrom_fits (p : List (List UInt8)) : Fits 3 0 (self.findFrom fs p) 0 := by
  induction p generalizing self with
  | nil => exact ret _
  | cons name rest ih =>
    refine bind (read (by omega) fun _ => ite (ret _) (findInodeId_fits (by omega) _ _)) fun r => ?_
    cases r with
    | none => exact ret _
    | some id => exact ih _

theorem find_fits (path : List UInt8) : Fits 3 0 (self.find fs path) 0 := findFrom_fits _ _ _

theorem ls_fits : Fits 3 0 self.ls 0 :=
  read (by omega) fun _ => ite (ret _) (listDirents_fits (by omega) _ _ _)

theorem readAt_fits (offset : Nat) (buf : List UInt8) : Fits 3 0 (self.readAt offset buf) 0 :=
  read (by omega) fun _ => DiskInode.readAt_fits _ (by omega) _ _

theorem addInode_fits (name : List UInt8) (ty : DiskInodeType) : Fits 3 0 (self.addInode fs name ty) 0 := by
  refine bind (allocInode_fits fs (by omega)) fun _ => bind (modifyDiskInode_fits _ (by omega) fun _ => ret _) fun _ => ?_
  refine bind (modifyDiskInode_fits _ (by omega) fun _ => ?_) fun _ => bind sync_fits fun _ => ret _
  exact bind (increaseSize_fits fs (by omega) _ _) fun _ => bind (unwrap _) fun _ =>
    bind (DiskInode.writeAt_fits _ (by omega) _ _) fun _ => ret _

theorem createInode_fits (name : List UInt8) (ty : DiskInodeType) : Fits 3 0 (self.createInode fs name ty) 0 := by
  refine bind (read (by omega) fun _ => bind (assert _) fun _ =>
    findInodeId_fits (by omega) _ _) fun _ => ?_
  exact ite (ret _) (bind (addInode_fits fs self name ty) fun _ => ret _)

theorem writeAt_fits (offset : Nat) (buf : List UInt8) : Fits 3 0 (self.writeAt fs offset buf) 0 := by
  refine bind (modifyDiskInode_fits _ (by omega) fun _ => ?_) fun _ => bind sync_fits fun _ => ret _
  exact bind (assert _) fun _ => bind (increaseSize_fits fs (by omega) _ _) fun _ =>
    bind (DiskInode.writeAt_fits _ (by omega) _ _) fun _ => ret _

theorem clear_fits : Fits 3 0 (self.clear fs) 0 := by
  refine bind (modifyDiskInode_fits _ (by omega) fun _ => ?_) fun _ => sync_fits
  exact bind (assert _) fun _ => bind (DiskInode.clearSize_fits _ (by omega)) fun _ =>
    bind (assert _) fun _ => bind (deallocBlocks_fits fs (by omega) _) fun _ => ret _

end Inode

end

/-! ## Code without a write -/

open NoStore

theorem DiskInode.getBlockId_noStore (ino : DiskInode) (k : Nat) : NoStore (ino.getBlockId k) := by
  refine ite (ret _) (ite (read _ fun _ => ret _) ?_)
  exact bind (read _ fun _ => bind (assert _) fun _ => ret _) fun _ =>
    read _ fun _ => ret _

theorem DiskInode.readAt_noStore (ino : DiskInode) (offset : Nat) (buf : List UInt8) : NoStore (ino.readAt offset buf) := by
  have hloop : ∀ stop fuel start, NoStore (ino.readLoop stop fuel start) := by
    intro stop fuel
    induction fuel with
    | zero => exact fun _ => panic
    | succ fuel ih =>
      intro start
      exact bind (ino.getBlockId_noStore _) fun _ => bind (read _ fun _ => ret _) fun _ =>
        ite (ret _) (bind (ih _) fun _ => ret _)
  exact ite (ret _) (bind (hloop _ _ _) fun _ => ret _)

theorem readDirent_noStore (ino : DiskInode) (i : Nat) : NoStore (readDirent ino i) :=
  bind (ino.readAt_noStore _ _) fun _ => bind (assert _) fun _ => ret _

theorem findInodeId_noStore (name : List UInt8) (ino : DiskInode) : NoStore (findInodeId name ino) := by
  have hloop : ∀ n i, NoStore (findDirent ino name n i) := by
    intro n
    induction n with
    | zero => exact fun _ => ret _
    | succ n ih =>
      intro i
      exact bind (readDirent_noStore ino i) fun _ => bind (unwrap _) fun _ =>
        ite (ret _) (ih _)
  exact bind (assert _) fun _ => hloop _ _

theorem Inode.find_noStore (fs : EasyFileSystem) (self : Inode) (path : List UInt8) : NoStore (self.find fs path) := by
  unfold find
  induction components path generalizing self with
  | nil => exact ret _
  | cons name rest ih =>
    refine bind (read _ fun _ => ite (ret _) (findInodeId_noStore _ _)) fun r => ?_
    cases r with
    | none => exact ret _
    | some id => exact ih _

end TCore.EasyFs
