/-
  TCore.EasyFs.WriteBlocks — which blocks `write_at` asks the inode for.

  `writeAtTraced` is `write_at` with the indices it gives to `get_block_id` and the blocks it gets
  (`writeAtTraced_fst`: it is the same code otherwise). The loop asks for a block before it looks at
  how many bytes are left, so an empty write asks for one too. Where the file ends at a block boundary
  that one is past its last data block: on an empty file it is entry 0 of `direct`, and block 0, the super
  block, is opened for writing (`empty_write_opens_super_block`).
-/

import TCore.EasyFs.Files

namespace TCore.EasyFs

open TCore.Lib
open Role (data)
open Prog Runs EasyFs.Geometry DiskInode Geometry

def DiskInode.writeAtTraced (ino : DiskInode) (offset : Nat) (buf : List UInt8) : Fs (Nat × List (Nat × UInt32)) := do
  let stop := min ((offset + buf.length) % 2 ^ 64) ino.size.toNat
  Prog.assert (offset ≤ stop)
  ino.writeLoopTraced stop (stop - offset + 1) offset buf

def Inode.writeAtTraced (fs : EasyFileSystem) (self : Inode) (offset : Nat) (buf : List UInt8) :
    Fs (Nat × List (Nat × UInt32)) := do
  let r ← self.modifyDiskInode fun diskInode => do
    Prog.assert (diskInode.isFile = true)
    let grown ← increaseSize fs (UInt32.ofNat (offset + buf.length)) diskInode
    let r ← grown.writeAtTraced offset buf
    pure (r, grown)
  blockCacheSyncAll
  pure r

/-- The write returns, and every block it asks for is the data block of that index of the inode. -/
def WritesOwnBlocks (g : Geometry) (d : Disk) (t offset : Nat) (buf : List UInt8) : Prop :=
  ∃ d' trace, Runs ((g.handle t).writeAtTraced g.efs offset buf) [] d (buf.length, trace) d' ∧
    ∀ p ∈ trace, p.1 < (g.inodeOf d' t).dataBlocks ∧ p.2.toNat = g.blockAt d' t (data p.1)

/-! ## The trace changes nothing -/

theorem Inode.modifyDiskInode_fst {α γ : Type} (self : Inode) {f : DiskInode → Fs (α × DiskInode)}
    {f' : DiskInode → Fs (γ × DiskInode)} {e : α → γ} (h : ∀ ino, (f ino >>= fun r => pure (e r.1, r.2)) = f' ino) :
    (self.modifyDiskInode f >>= fun a => pure (e a)) = self.modifyDiskInode f' := by
  show lock self.blockId _ = lock self.blockId _
  congr 1
  funext b
  show ((f (b.inode self.blockOffset) >>= fun r => pure (r.1, b.setInode self.blockOffset r.2)) >>= fun r =>
      store self.blockId r.2 (unlock self.blockId (ret r.1))) >>= (fun a => pure (e a)) =
    (f' (b.inode self.blockOffset) >>= fun r => pure (r.1, b.setInode self.blockOffset r.2)) >>= fun r =>
      store self.blockId r.2 (unlock self.blockId (ret r.1))
  rw [← h]
  simp only [bind_assoc]
  rfl

theorem DiskInode.writeAtTraced_fst (ino : DiskInode) (offset : Nat) (buf : List UInt8) :
    (ino.writeAtTraced offset buf >>= fun r => pure r.1) = ino.writeAt offset buf := by
  simp only [writeAtTraced, writeAt, bind_assoc, writeLoopTraced_fst]

theorem Inode.writeAtTraced_fst (fs : EasyFileSystem) (self : Inode) (offset : Nat) (buf : List UInt8) :
    (self.writeAtTraced fs offset buf >>= fun r => pure r.1) = self.writeAt fs offset buf := by
  have hclosure : ∀ ino : DiskInode, ((do
        assert (ino.isFile = true)
        let grown ← increaseSize fs (UInt32.ofNat (offset + buf.length)) ino
        let r ← grown.writeAtTraced offset buf
        pure (r, grown) : Fs ((Nat × List (Nat × UInt32)) × DiskInode)) >>= fun r => pure (r.1.1, r.2)) = (do
      assert (ino.isFile = true)
      let grown ← increaseSize fs (UInt32.ofNat (offset + buf.length)) ino
      let size ← grown.writeAt offset buf
      pure (size, grown) : Fs (Nat × DiskInode)) := by
    intro ino
    simp only [bind_assoc, ← DiskInode.writeAtTraced_fst]
    rfl
  unfold Inode.writeAt Inode.writeAtTraced
  rw [← self.modifyDiskInode_fst hclosure]
  simp only [bind_assoc]
  rfl

/-! ## One write -/

section
variable {g : Geometry} {d d' : Disk} {m t offset : Nat} {buf : List UInt8}

/-- A write whose first byte, or whose place, lies in a data block of the grown inode. -/
theorem writesOwnBlocks (h : FsInv g d m) (ht : t < m) (hfile : (g.inodeOf d t).isFile = true)
    (hroom : g.RoomFor d (g.inodeOf d t) (offset + buf.length))
    (hin : offset / 512 < (max (g.inodeOf d t).size.toNat (offset + buf.length) + 511) / 512) :
    WritesOwnBlocks g d t offset buf := by
  have hend := hroom.file
  have hnew : (UInt32.ofNat (offset + buf.length)).toNat = offset + buf.length :=
    UInt32.toNat_ofNat_of_lt' (by simp only [UInt32.size]; omega)
  obtain ⟨ks, ino', d1, hrun1, hsize, hg⟩ := increaseSize_grew _ h ht (by rw [hnew]; exact hend) hroom.blocks
  rw [hnew] at hsize
  have hblocks : ino'.dataBlocks = (ino'.size.toNat + 511) / 512 := dataBlocksOf_eq hg.size
  have hstop : min ((offset + buf.length) % 2 ^ 64) ino'.size.toNat = offset + buf.length := by omega
  obtain ⟨d2, trace, hloop, hw, htrace⟩ := writeLoopTraced_runs (hg.placed h ht) (offset + buf.length - offset + 1) offset
    (offset + buf.length) (by omega) (by omega) (by omega) (by omega) (show buf.length = _ by omega)
  have hrun2 : Runs (ino'.writeAtTraced offset buf) [(g.handle t).blockId] d1 (buf.length, trace) d2 := by
    refine bind (assert (by omega)) ?_
    rw [hstop]
    rw [Nat.add_sub_cancel_left] at hloop ⊢
    exact hloop
  refine ⟨g.setInodeOf d2 t ino', trace, ?_, fun p hp => ?_⟩
  · refine bind (modifyDiskInode_runs ?_ (hg.slot_kept h ht hw)) (bind (sync (ret _)) (ret _))
    exact bind (assert hfile) (bind hrun1 (bind hrun2 (ret _)))
  · obtain ⟨hp1, hp2⟩ := htrace p hp
    rw [blockAt, inodeOf_setInodeOf, hg.blockOf_finish h ht hw _ (data_mem_roles hp1), hp2]
    exact ⟨hp1, rfl⟩

/-- The first block the loop asks for. -/
theorem writeLoopTraced_first {ino : DiskInode} {stop fuel start n : Nat} {trace : List (Nat × UInt32)} {s s' : Cells Nat Block}
    (h : exec (ino.writeLoopTraced stop fuel start buf) s = some ((n, trace), s')) : ∃ x, (start / 512, x) ∈ trace := by
  cases fuel with
  | zero => cases h
  | succ fuel =>
    obtain ⟨x, u, -, h⟩ := exec_bind_some h
    obtain ⟨_, v, -, h⟩ := exec_bind_some h
    refine ⟨x, ?_⟩
    split at h
    · cases h
      exact List.mem_singleton_self _
    · obtain ⟨r, w, -, h⟩ := exec_bind_some h
      cases h
      exact List.mem_cons_self

/-- What a write that has returned asked for first, and the inode it left. -/
theorem writeAtTraced_inv {n : Nat} {trace : List (Nat × UInt32)} (hfile : (g.inodeOf d t).isFile = true)
    (hrun : Runs ((g.handle t).writeAtTraced g.efs offset buf) [] d (n, trace) d') {ino' : DiskInode} {d1 : Disk}
    (hgrow : Runs (increaseSize g.efs (UInt32.ofNat (offset + buf.length)) (g.inodeOf d t)) [(g.handle t).blockId] d ino' d1) :
    g.inodeOf d' t = ino' ∧ ∃ x, (offset / 512, x) ∈ trace := by
  obtain ⟨r, u, hmod, hret⟩ := exec_bind_some hrun
  obtain ⟨rfl, rfl⟩ := exec_syncAll_some hret
  obtain ⟨ino'', w, hclosure, hleft, -⟩ := exec_modifyDiskInode_some hmod
  rw [(assert hfile).exec_bind, hgrow.exec_bind] at hclosure
  obtain ⟨r, v, hwrite, hpair⟩ := exec_bind_some hclosure
  cases hpair
  obtain ⟨_, x, -, hloop⟩ := exec_bind_some hwrite
  exact ⟨hleft, writeLoopTraced_first hloop⟩

end

section
variable {dev : Nat} {g : Geometry} {calls : FsOp → Prop} {s : Mount}

/-- Inside the capacity every write keeps to the blocks of its inode, but for an empty one at a block boundary
at or past the end of the file. -/
theorem writes_own_blocks_iff (hs : Reachable dev g calls s) (t : Nat) (ht : t < 4096 * g.inodeBitmapBlocks)
    (hbit : g.inodeBitmap.bit (s.disk dev) t = true) (hfile : (g.inodeOf (s.disk dev) t).isFile = true) (offset : Nat)
    (buf : List UInt8) (hroom : g.RoomFor (s.disk dev) (g.inodeOf (s.disk dev) t) (offset + buf.length)) :
    WritesOwnBlocks g (s.disk dev) t offset buf ↔
      buf ≠ [] ∨ offset % 512 ≠ 0 ∨ offset < (g.inodeOf (s.disk dev) t).size.toNat := by
  obtain ⟨m, hm⟩ := hs.mounted
  have htm := (hm.inv.allocated ht).mp hbit
  have hend := hroom.file
  refine ⟨fun ⟨d', trace, hrun, htrace⟩ => ?_, fun hcond => writesOwnBlocks hm.inv htm hfile hroom ?_⟩
  · by_contra hcond
    rw [not_or, not_or, not_not, not_not, not_lt] at hcond
    obtain ⟨rfl, hoff, hsize⟩ := hcond
    rw [List.length_nil, Nat.add_zero] at hend
    have hnew : (UInt32.ofNat (offset + ([] : List UInt8).length)).toNat = offset := by
      rw [List.length_nil, Nat.add_zero]
      exact UInt32.toNat_ofNat_of_lt' (by simp only [UInt32.size]; omega)
    obtain ⟨ks, ino', d1, hgrow, hgrown, hg⟩ := increaseSize_grew _ hm.inv htm (by rw [hnew]; exact hend) hroom.blocks
    obtain ⟨hleft, x, hx⟩ := writeAtTraced_inv hfile hrun hgrow
    have hindex : offset / 512 < (g.inodeOf d' t).dataBlocks := (htrace _ hx).1
    rw [hleft, DiskInode.dataBlocks, dataBlocksOf_eq hg.size, hgrown, hnew, max_eq_right hsize] at hindex
    omega
  · have hlen : buf ≠ [] → 0 < buf.length := List.length_pos_iff.mpr
    rcases hcond with hb | hoff | hin
    · have := hlen hb
      omega
    · omega
    · omega

end

/-! ## The first file of a small device -/

/-- A one-byte write to the empty file. -/
theorem writes_own_blocks_5123 : ∃ (h : Accepted 5123 1) (s : Mount),
    Reachable 0 (ofSizes 5123 1 h) (fun _ => True) s ∧
      WritesOwnBlocks (ofSizes 5123 1 h) (s.disk 0) 1 0 [7] := by
  have h := small_accepted
  obtain ⟨s, hf⟩ := small_file h
  have hroom := hf.room (small_area h) (show 0 + [7].length ≤ 8468480 by decide) (by decide)
  exact ⟨h, s, hf.reach, (writes_own_blocks_iff hf.reach 1 hf.lt hf.bit hf.isFile 0 [7] hroom).mpr (Or.inl (by simp))⟩

/-- An empty write to an empty file asks for index 0, which the file does not have, and gets block 0. -/
theorem empty_write_first_block {g : Geometry} {d : Disk} {m t : Nat} (h : FsInv g d m) (ht : t < m)
    (hfile : g.inodeOf d t = reset .file) :
    ∃ d', Runs ((g.handle t).writeAtTraced g.efs 0 []) [] d (0, [(0, 0)]) d' ∧ (g.inodeOf d' t).dataBlocks = 0 := by
  have hgrow : Runs (increaseSize g.efs (UInt32.ofNat 0) (g.inodeOf d t)) [(g.handle t).blockId] d (g.inodeOf d t) d :=
    increaseSize_noop g.efs (h.placed_self ht) (h.size t ht) (Nat.zero_le _)
  have hzero : ((reset .file).direct.get 0).toNat = 0 := by
    rw [reset, Arr.get_replicate 0 (by omega)]
    rfl
  have hwrite : Runs ((g.inodeOf d t).writeAtTraced 0 []) [(g.handle t).blockId] d (0, [(0, 0)]) d := by
    rw [hfile]
    refine bind (assert (Nat.zero_le _)) (bind (ret _)
      (bind (modify_same (a := ()) ?_ ?_) (ret _)))
    · rw [hzero, List.mem_singleton]
      simp only [handle, inodeStart]
      omega
    · rw [List.take_nil, Block.copyFrom_nil]
      exact ret _
  refine ⟨g.setInodeOf d t (g.inodeOf d t), ?_, ?_⟩
  · refine bind (modifyDiskInode_runs ?_ rfl) (bind (sync (ret _)) (ret _))
    exact bind (assert (by rw [hfile]; rfl)) (bind hgrow (bind hwrite (ret _)))
  · rw [inodeOf_setInodeOf, hfile]
    show dataBlocksOf 0 = 0
    decide

theorem empty_write_opens_super_block : ∃ (h : Accepted 5123 1) (s : Mount) (d' : Disk),
    Reachable 0 (ofSizes 5123 1 h) (fun _ => True) s ∧
      (ofSizes 5123 1 h).inodeOf (s.disk 0) 1 = DiskInode.reset .file ∧
      (ofSizes 5123 1 h).RoomFor (s.disk 0) ((ofSizes 5123 1 h).inodeOf (s.disk 0) 1) 0 ∧
      Runs (((ofSizes 5123 1 h).handle 1).writeAtTraced s.fs 0 []) [] (s.disk 0) (0, [(0, 0)]) d' ∧
      ((ofSizes 5123 1 h).inodeOf d' 1).dataBlocks = 0 ∧
      ¬WritesOwnBlocks (ofSizes 5123 1 h) (s.disk 0) 1 0 [] := by
  have h := small_accepted
  obtain ⟨s, hf⟩ := small_file h
  obtain ⟨d', hrun, hnone⟩ := empty_write_first_block hf.mounted.inv Nat.one_lt_two hf.file
  have hroom := hf.room (small_area h) (Nat.zero_le _) (by decide)
  refine ⟨h, s, d', hf.reach, hf.file, hroom, by rw [hf.mounted.fs]; exact hrun, hnone, fun ⟨d2, trace, hrun2, htrace⟩ => ?_⟩
  obtain ⟨hpair, rfl⟩ := hrun.det hrun2
  have hmem : (0, 0) ∈ trace := by
    rw [← (Prod.mk.inj hpair).2]
    exact List.mem_singleton_self _
  have hindex := (htrace _ hmem).1
  rw [hnone] at hindex
  omega

end TCore.EasyFs
