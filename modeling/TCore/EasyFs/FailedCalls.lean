/-
  TCore.EasyFs.FailedCalls — writes and creations there is no room for.

  Neither `write_at` nor `create_inode` looks at the free blocks, the free inodes or the largest size of
  a file before it starts: `alloc_data` and `alloc_inode` unwrap, and `increase_size` runs out of rows. A
  call that cannot be carried out panics, or takes what it gets; it answers neither fewer bytes nor `None`.

  - `write_past_largest_file`: one byte past 16540 blocks.
-/

import TCore.EasyFs.Files

namespace TCore.EasyFs

open TCore.Lib
open Role (data)
open List UInt32 DiskInode EasyFs.Geometry Prog Geometry

/-- Bitmaps, inodes and contents are as before. -/
structure Unchanged (g : Geometry) (d d' : Disk) : Prop where
  inodeBits : ∀ i < 4096 * g.inodeBitmapBlocks, g.inodeBitmap.bit d' i = g.inodeBitmap.bit d i
  dataBits : ∀ k < 4096 * g.dataBitmapBlocks, g.used d' k = g.used d k
  inodes : ∀ i < 4096 * g.inodeBitmapBlocks, g.inodeBitmap.bit d i = true → g.inodeOf d' i = g.inodeOf d i
  contents : ∀ i < 4096 * g.inodeBitmapBlocks, g.inodeBitmap.bit d i = true → g.contents d' i = g.contents d i

/-- If there is no room, the write returns less than the length and changes nothing. -/
def WriteFailsCleanly (g : Geometry) (d : Disk) (t offset : Nat) (buf : List UInt8) : Prop :=
  ¬g.RoomFor d (g.inodeOf d t) (offset + buf.length) →
    ∃ n d', Runs ((g.handle t).writeAt g.efs offset buf) [] d n d' ∧ n < buf.length ∧ Unchanged g d d'

/-- If there is no inode or no room for another entry, the call returns `None` and changes nothing. -/
def CreateFailsCleanly (g : Geometry) (d : Disk) (t : Nat) (name : List UInt8) (ty : DiskInodeType) : Prop :=
  ¬(g.InodeLeft d ∧ g.RoomFor d (g.inodeOf d t) ((g.contents d t).length + 32)) →
    ∃ d', Runs ((g.handle t).createInode g.efs name ty) [] d none d' ∧ Unchanged g d d'

/-- The end of the write, cut to 32 bits, lies inside the file, and the file has the bytes of the buffer already. At
    the very end of the file `get_block_id` has to answer a block that is not locked. -/
structure WrapsOnto (g : Geometry) (d : Disk) (t offset : Nat) (buf : List UInt8) : Prop where
  wraps : 2 ^ 32 ≤ offset + buf.length
  inside : (offset + buf.length) % 2 ^ 32 ≤ (g.inodeOf d t).size.toNat
  start : offset ≤ (g.inodeOf d t).size.toNat
  same : (g.contents d t).drop offset = buf.take ((g.inodeOf d t).size.toNat - offset)
  atEnd : offset = (g.inodeOf d t).size.toNat →
    ∃ x, Runs ((g.inodeOf d t).getBlockId (offset / 512)) [(g.handle t).blockId] d x d ∧ x.toNat ≠ (g.handle t).blockId

section
variable {g : Geometry} {d d' : Disk} {m t offset : Nat} {buf : List UInt8}

theorem Unchanged.refl (g : Geometry) (d : Disk) : Unchanged g d d :=
  ⟨fun _ _ => rfl, fun _ _ => rfl, fun _ _ _ => rfl, fun _ _ _ => rfl⟩

/-! ## A write that has to grow the file -/

variable {ino : DiskInode}

/-- The inode after `increase_size` has the new size, if that is larger. -/
theorem exec_increaseSize_size {fs : EasyFileSystem} {newSize : UInt32} {ino' : DiskInode} {s u : Cells Nat Block}
    (h : exec (increaseSize fs newSize ino) s = some (ino', u)) (hlt : ino.size.toNat < newSize.toNat) : ino'.size = newSize := by
  unfold increaseSize at h
  rw [if_neg (by rw [lt_iff_toNat_lt]; omega)] at h
  obtain ⟨_, v, -, h⟩ := exec_bind_some h
  obtain ⟨_, w, -, h⟩ := exec_bind_some h
  exact increaseSize_size h

variable {n : Nat}

/-- The parts of a write that has returned. -/
theorem writeAt_inv (hrun : Runs ((g.handle t).writeAt g.efs offset buf) [] d n d') :
    ∃ u v, exec (increaseSize g.efs (ofNat (offset + buf.length)) (g.inodeOf d t)) ⟨d, [(g.handle t).blockId]⟩ =
        some (g.inodeOf d' t, u) ∧ exec ((g.inodeOf d' t).writeAt offset buf) u = some (n, v) := by
  have hfile := isFile_of_writeAt hrun
  obtain ⟨k, u, hmod, hret⟩ := exec_bind_some hrun
  obtain ⟨rfl, rfl⟩ := exec_syncAll_some hret
  obtain ⟨ino', w, hclosure, hleft, -⟩ := exec_modifyDiskInode_some hmod
  rw [(Runs.assert hfile).exec_bind] at hclosure
  obtain ⟨grown, u, hgrow, hclosure⟩ := exec_bind_some hclosure
  obtain ⟨size, v, hwrite, hpair⟩ := exec_bind_some hclosure
  cases hpair
  rw [hleft]
  exact ⟨u, w, hgrow, hwrite⟩

theorem exec_writeAt_some {s u : Cells Nat Block} (h : exec (ino.writeAt offset buf) s = some (n, u)) :
    offset ≤ min ((offset + buf.length) % 2 ^ 64) ino.size.toNat ∧
      n = min ((offset + buf.length) % 2 ^ 64) ino.size.toNat - offset := by
  obtain ⟨_, v, hassert, hloop⟩ := exec_bind_some h
  have hle : offset ≤ min ((offset + buf.length) % 2 ^ 64) ino.size.toNat := by
    by_contra hn
    rw [assert, if_neg hn] at hassert
    cases hassert
  exact ⟨hle, exec_writeLoop_some hle hloop⟩

/-- The first block a write that has returned has asked for. -/
theorem writeAt_first_block {k : Nat} {u : Cells Nat Block}
    (h : exec (ino.writeAt offset buf) ⟨d, [k]⟩ = some (n, u)) :
    ∃ x, Runs (ino.getBlockId (offset / 512)) [k] d x d ∧ x.toNat ≠ k := by
  obtain ⟨_, v, hassert, hloop⟩ := exec_bind_some h
  rw [assert, if_pos (exec_writeAt_some h).1] at hassert
  cases hassert
  obtain ⟨x, w, hid, hloop⟩ := exec_bind_some hloop
  have hw := getBlockId_readOnly ino _ _ _ _ hid
  subst hw
  obtain ⟨_, w, hmod, -⟩ := exec_bind_some hloop
  have hfree := unlocked_of_modify hmod
  rw [mem_singleton] at hfree
  exact ⟨x, hid, hfree⟩

/-- A size that is not larger than the file's has room. -/
theorem roomFor_of_le (h : FsInv g d m) (ht : t < m) {size : Nat} (hle : size ≤ (g.inodeOf d t).size.toNat) :
    g.RoomFor d (g.inodeOf d t) size := by
  have hmax := h.size t ht
  have hnew : (UInt32.ofNat size).toNat = size := UInt32.toNat_ofNat_of_lt' (by simp only [UInt32.size]; omega)
  have hmono : totalBlocks (ofNat size) ≤ totalBlocks (g.inodeOf d t).size := by
    unfold DiskInode.totalBlocks
    rw [dataBlocksOf_eq hmax, dataBlocksOf_eq (by omega)]
    exact totalBlocks_mono (by omega)
  exact ⟨by omega, by omega⟩

/-- A write that has to grow the file answers the whole length, if anything. -/
theorem grow_answers_all (hend : offset + buf.length < 2 ^ 32) (hlt : (g.inodeOf d t).size.toNat < offset + buf.length)
    (hrun : Runs ((g.handle t).writeAt g.efs offset buf) [] d n d') : n = buf.length := by
  have hnew : (ofNat (offset + buf.length)).toNat = offset + buf.length := toNat_ofNat_of_lt' hend
  obtain ⟨u, v, hgrow, hwrite⟩ := writeAt_inv hrun
  obtain ⟨hle, hn⟩ := exec_writeAt_some hwrite
  rw [exec_increaseSize_size hgrow (by rw [hnew]; exact hlt), hnew] at hn
  omega

/-- There is no row for the blocks past the largest file. -/
theorem write_too_large (h : FsInv g d m) (ht : t < m) (hfile : (g.inodeOf d t).isFile = true)
    (hlarge : 8468480 < offset + buf.length) (hend : offset + buf.length + 511 < 2 ^ 32) :
    exec ((g.handle t).writeAt g.efs offset buf) ⟨d, []⟩ = none := by
  have hsize := h.size t ht
  have hnew : (ofNat (offset + buf.length)).toNat = offset + buf.length := toNat_ofNat_of_lt' (by
    simp only [UInt32.size]
    omega)
  have hblocks : 16540 < dataBlocksOf (ofNat (offset + buf.length)) := by
    rw [dataBlocksOf, hnew, Nat.mod_eq_of_lt hend]
    omega
  have hgrow : ∀ s, exec (increaseSize g.efs (ofNat (offset + buf.length)) (g.inodeOf d t)) s = none := by
    intro s
    rw [increaseSize, if_neg (by rw [lt_iff_toNat_lt, hnew]; omega)]
    exact exec_bind_none (fun _ u => exec_bind_none (fun v u => increaseSize_overflows _ (h.dataBlocks_le ht) hblocks v u) u) s
  have hclosure : exec ((g.handle t).modifyDiskInode fun diskInode => do
      assert (diskInode.isFile = true)
      let grown ← increaseSize g.efs (ofNat (offset + buf.length)) diskInode
      let size ← grown.writeAt offset buf
      pure (size, grown)) ⟨d, []⟩ = none := by
    refine exec_modify_none (by simp) ?_
    show exec ((assert ((g.inodeOf d t).isFile = true) >>= fun _ =>
      increaseSize g.efs (ofNat (offset + buf.length)) (g.inodeOf d t) >>= _) >>= _) _ = none
    rw [exec_bind, (Runs.assert hfile).exec_bind, exec_bind, hgrow]
    rfl
  rw [Inode.writeAt, exec_bind, hclosure]
  rfl

/-! ## A write whose end wraps around -/

/-- Nothing has grown. -/
theorem FsInv.grew_nothing (h : FsInv g d m) (ht : t < m) : Grew g d t [] (g.inodeOf d t) d := by
  refine ⟨rfl, le_rfl, h.size t ht, by simp, nodup_nil, ?_, fun _ _ _ => rfl, by simp⟩
  rw [map_nil, append_nil]
  rfl

theorem overwrite_inside {old l : List UInt8} (hlen : offset + l.length = old.length) :
    overwrite old offset l = old ↔ old.drop offset = l := by
  have hpad : offset - old.length = 0 := by omega
  rw [overwrite, hpad, replicate_zero, append_nil, hlen, drop_length, append_nil]
  constructor
  · intro heq
    have hsplit := heq.trans (take_append_drop offset old).symm
    exact (append_cancel_left hsplit).symm
  · intro heq
    rw [← heq, take_append_drop]

variable (h : FsInv g d m) (ht : t < m)
include h ht

/-- The part of the buffer that lies inside the file is written. -/
theorem inside_write (hwraps : 2 ^ 32 ≤ offset + buf.length) (hlen : buf.length < 2 ^ 63)
    (hstart : offset ≤ (g.inodeOf d t).size.toNat)
    (hend : offset = (g.inodeOf d t).size.toNat →
      ∃ x, Runs ((g.inodeOf d t).getBlockId (offset / 512)) [(g.handle t).blockId] d x d ∧ x.toNat ≠ (g.handle t).blockId) :
    ∃ d2, Runs ((g.inodeOf d t).writeAt offset buf) [(g.handle t).blockId] d ((g.inodeOf d t).size.toNat - offset) d2 ∧
      Written d (g.inodeOf d t) (g.inodeOf d t).dataBlocks offset (buf.take ((g.inodeOf d t).size.toNat - offset)) d2 := by
  have hsize := h.size t ht
  have hblocks := h.dataBlocks_eq ht
  have hstop : min ((offset + buf.length) % 2 ^ 64) (g.inodeOf d t).size.toNat = (g.inodeOf d t).size.toNat := by omega
  by_cases hlt : offset < (g.inodeOf d t).size.toNat
  · obtain ⟨d2, hloop, hw⟩ := writeLoop_runs (h.placed_self ht) ((g.inodeOf d t).size.toNat - offset + 1) offset _ hstart
      (by omega) (by omega) (by omega)
      (show (buf.take ((g.inodeOf d t).size.toNat - offset)).length = _ by rw [length_take]; omega)
    rw [writeLoop_take _ _ hstart] at hloop
    refine ⟨d2, Runs.bind (Runs.assert (by rw [hstop]; exact hstart)) ?_, hw⟩
    rw [hstop]
    exact hloop
  · have heq : offset = (g.inodeOf d t).size.toNat := by omega
    obtain ⟨x, hblock, hne⟩ := hend heq
    refine ⟨d, Runs.bind (Runs.assert (by rw [hstop]; exact hstart)) ?_, ?_⟩
    · rw [hstop, ← heq, Nat.sub_self]
      refine Runs.bind hblock (Runs.bind (Runs.modify_same (a := ()) ?_ ?_) ?_)
      · rw [mem_singleton]
        exact hne
      · rw [show min (512 * (offset / 512 + 1)) offset - offset = 0 by omega, take_zero, Block.copyFrom_nil]
        exact Runs.ret _
      · rw [if_pos (by omega), show min (512 * (offset / 512 + 1)) offset - offset = 0 by omega]
        exact Runs.ret _
    · rw [← heq, Nat.sub_self, take_zero]
      exact Written.nil _ _ _ _

theorem wraps_noop (hinside : (offset + buf.length) % 2 ^ 32 ≤ (g.inodeOf d t).size.toNat) :
    Runs (increaseSize g.efs (ofNat (offset + buf.length)) (g.inodeOf d t)) [(g.handle t).blockId] d (g.inodeOf d t) d := by
  refine increaseSize_noop g.efs (h.placed_self ht) (h.size t ht) ?_
  rw [toNat_ofNat']
  exact hinside

/-- The bytes inside the file are then those of the buffer. -/
theorem wraps_contents {d2 : Disk} (hwraps : 2 ^ 32 ≤ offset + buf.length)
    (hstart : offset ≤ (g.inodeOf d t).size.toNat)
    (hw : Written d (g.inodeOf d t) (g.inodeOf d t).dataBlocks offset (buf.take ((g.inodeOf d t).size.toNat - offset)) d2) :
    (g.contents (g.setInodeOf d2 t (g.inodeOf d t)) t = g.contents d t ↔
      (g.contents d t).drop offset = buf.take ((g.inodeOf d t).size.toNat - offset)) := by
  have hsize := h.size t ht
  have hlen : offset + (buf.take ((g.inodeOf d t).size.toNat - offset)).length = (g.inodeOf d t).size.toNat := by
    rw [length_take]
    omega
  rw [(h.grew_nothing ht).contents_finish h ht hw (by rw [hlen, max_self])]
  refine overwrite_inside ?_
  rw [hlen, contents, contentsOf_length]

theorem wraps_unchanged {d2 : Disk} {l : List UInt8}
    (hend : offset + l.length ≤ (g.inodeOf d t).size.toNat) (hw : Written d (g.inodeOf d t) (g.inodeOf d t).dataBlocks offset l d2)
    (hsame : g.contents (g.setInodeOf d2 t (g.inodeOf d t)) t = g.contents d t) :
    Unchanged g d (g.setInodeOf d2 t (g.inodeOf d t)) := by
  have hgrew := h.grew_nothing ht
  obtain ⟨hr, -⟩ := hgrew.finish h ht hw hend
  have halloc : ∀ i < 4096 * g.inodeBitmapBlocks, g.inodeBitmap.bit d i = true → i < m := by
    intro i hi hbit
    rw [h.inodes i hi] at hbit
    exact of_decide_eq_true hbit
  refine ⟨hr.inodes, fun k hk => ?_, fun i hi hbit => ?_, fun i hi hbit => ?_⟩
  · have hroom := h.room
    rw [used_setInodeOf _ (by omega) hk]
    refine used_congr (fun x hx => hw.other x fun j hj e => ?_) hk
    obtain ⟨k', -, hb, -⟩ := hgrew.owned h ht (data_mem_roles hj)
    have := hx.2
    omega
  · by_cases hit : i = t
    · rw [hit, inodeOf_setInodeOf]
    · exact hr.slots i (halloc i hi hbit) hit
  · by_cases hit : i = t
    · rw [hit, hsame]
    · exact hr.contents_other h ht (halloc i hi hbit) hit

theorem write_clean_iff (hfile : (g.inodeOf d t).isFile = true) (hlen : buf.length < 2 ^ 63) :
    WriteFailsCleanly g d t offset buf ↔ g.RoomFor d (g.inodeOf d t) (offset + buf.length) ∨ WrapsOnto g d t offset buf := by
  have hsize := h.size t ht
  have hroom := h.room
  have hbit : g.inodeBitmap.bit d t = true := by
    rw [h.inodes t (by omega)]
    exact decide_eq_true ht
  constructor
  · intro hclean
    by_cases hfits : g.RoomFor d (g.inodeOf d t) (offset + buf.length)
    · exact Or.inl hfits
    · obtain ⟨n, d', hrun, hn, hsame⟩ := hclean hfits
      have hkept := hsame.inodes t (by omega) hbit
      have hgrows : (g.inodeOf d t).size.toNat < offset + buf.length := by
        by_contra hle
        exact hfits (roomFor_of_le h ht (by omega))
      by_cases hwraps : 2 ^ 32 ≤ offset + buf.length
      · obtain ⟨u, v, hgrow, hwrite⟩ := writeAt_inv hrun
        have hinside : (offset + buf.length) % 2 ^ 32 ≤ (g.inodeOf d t).size.toNat := by
          by_contra hgt
          have hnew := exec_increaseSize_size hgrow (by rw [toNat_ofNat']; omega)
          have := congrArg toNat hnew
          rw [hkept, toNat_ofNat'] at this
          omega
        have hnoop := wraps_noop h ht hinside
        obtain ⟨-, rfl⟩ := Prod.mk.inj (Option.some.inj (hgrow.symm.trans hnoop))
        rw [hkept] at hwrite
        have hstart := (exec_writeAt_some hwrite).1
        have hatEnd : offset = (g.inodeOf d t).size.toNat → _ := fun _ => writeAt_first_block hwrite
        obtain ⟨d2, hwrite2, hw⟩ := inside_write h ht hwraps hlen (by omega) hatEnd
        obtain ⟨-, rfl⟩ := hrun.det ((h.grew_nothing ht).writeAt_runs h ht hfile hnoop hwrite2 hw)
        refine Or.inr ⟨hwraps, hinside, by omega, ?_, hatEnd⟩
        exact (wraps_contents h ht hwraps (by omega) hw).mp (hsame.contents t (by omega) hbit)
      · have := grow_answers_all (by omega) hgrows hrun
        omega
  · intro hcond hfits
    rcases hcond with hfits' | hwrap
    · exact absurd hfits' hfits
    · obtain ⟨d2, hwrite, hw⟩ := inside_write h ht hwrap.wraps hlen hwrap.start hwrap.atEnd
      have hrun := (h.grew_nothing ht).writeAt_runs h ht hfile (wraps_noop h ht hwrap.inside) hwrite hw
      refine ⟨_, _, hrun, ?_, wraps_unchanged h ht ?_ hw ((wraps_contents h ht hwrap.wraps hwrap.start hw).mpr hwrap.same)⟩
      · have := hwrap.wraps
        have := hwrap.start
        omega
      · have := hwrap.start
        rw [length_take]
        omega

/-! ## Creation -/

/-- Once the name is not found, the call answers an inode or nothing at all. -/
theorem createInode_none {name : List UInt8} {ty : DiskInodeType}
    (hrun : Runs ((g.handle t).createInode g.efs name ty) [] d none d') :
    ∃ id, findIn name (g.direntsAt d t) = some (some id) := by
  obtain ⟨found, u, hsearch, hrest⟩ := exec_bind_some hrun
  rw [exec_createSearch h ht] at hsearch
  obtain ⟨r, hr, heq⟩ := Option.map_eq_some_iff.mp hsearch
  cases heq
  obtain ⟨-, hr⟩ := Option.ite_none_right_eq_some.mp hr
  cases found with
  | some id => exact ⟨id, hr⟩
  | none =>
    obtain ⟨inode, v, -, hret⟩ := exec_bind_some hrest
    cases hret

theorem create_clean_iff (hdir : (g.inodeOf d t).isDir = true) {name : List UInt8}
    {ty : DiskInodeType} : CreateFailsCleanly g d t name ty ↔
      (g.InodeLeft d ∧ g.RoomFor d (g.inodeOf d t) ((g.contents d t).length + 32)) ∨
        ∃ id, findIn name (g.direntsAt d t) = some (some id) := by
  constructor
  · intro hclean
    by_cases hfits : g.InodeLeft d ∧ g.RoomFor d (g.inodeOf d t) ((g.contents d t).length + 32)
    · exact Or.inl hfits
    · obtain ⟨d', hrun, -⟩ := hclean hfits
      exact Or.inr (createInode_none h ht hrun)
  · intro hcond hfits
    rcases hcond with hfits' | ⟨id, hid⟩
    · exact absurd hfits' hfits
    · exact ⟨d, createInode_taken h ht hdir hid, Unchanged.refl g d⟩

end

section
variable {dev : Nat} {g : Geometry} {calls : FsOp → Prop} {s : Mount}

/-- It fails cleanly only where nothing is left to do: `create_inode` when the name is taken, `write_at` when
`offset + buf.len()` does not fit 32 bits, what is left of it lies inside the file, and the bytes there are those of the buffer. -/
theorem failed_calls_clean_iff (hs : Reachable dev g calls s) (t : Nat) (ht : t < 4096 * g.inodeBitmapBlocks)
    (hbit : g.inodeBitmap.bit (s.disk dev) t = true) :
    (∀ (offset : Nat) (buf : List UInt8), (g.inodeOf (s.disk dev) t).isFile = true → buf.length < 2 ^ 63 →
      (WriteFailsCleanly g (s.disk dev) t offset buf ↔
        g.RoomFor (s.disk dev) (g.inodeOf (s.disk dev) t) (offset + buf.length) ∨ WrapsOnto g (s.disk dev) t offset buf)) ∧
    ∀ (name : List UInt8) (ty : DiskInodeType), (g.inodeOf (s.disk dev) t).isDir = true →
      (CreateFailsCleanly g (s.disk dev) t name ty ↔
        (g.InodeLeft (s.disk dev) ∧
          g.RoomFor (s.disk dev) (g.inodeOf (s.disk dev) t) ((g.contents (s.disk dev) t).length + 32)) ∨
        ∃ id, findIn name (g.direntsAt (s.disk dev) t) = some (some id)) := by
  obtain ⟨m, hm⟩ := hs.mounted
  have htm := (hm.inv.allocated ht).mp hbit
  refine ⟨fun offset buf hfile hlen => write_clean_iff hm.inv htm hfile hlen, fun name ty hdir => ?_⟩
  exact create_clean_iff hm.inv htm hdir

end

/-- On a device of 5123 blocks 4 GiB are written to an empty file: there is no room, the answer is less than the length
    and nothing changes. -/
theorem failed_calls_clean_5123 : ∃ (h : Accepted 5123 1) (s : Mount) (n : Nat) (d' : Disk),
    Reachable 0 (ofSizes 5123 1 h) (fun _ => True) s ∧
      Runs (((ofSizes 5123 1 h).handle 1).writeAt (ofSizes 5123 1 h).efs 0 (replicate (2 ^ 32) 7)) [] (s.disk 0) n d' ∧
      n < 2 ^ 32 ∧ Unchanged (ofSizes 5123 1 h) (s.disk 0) d' := by
  have h := small_accepted
  obtain ⟨s, hf⟩ := small_file h
  have hlen : (replicate (2 ^ 32) (7 : UInt8)).length = 2 ^ 32 := length_replicate
  have hsize : ((ofSizes 5123 1 h).inodeOf (s.disk 0) 1).size.toNat = 0 := by rw [hf.file]; rfl
  have hwraps : WrapsOnto (ofSizes 5123 1 h) (s.disk 0) 1 0 (replicate (2 ^ 32) 7) := by
    refine ⟨by omega, by rw [hlen]; exact Nat.zero_le _, Nat.zero_le _, ?_, fun _ => ⟨0, ?_, ?_⟩⟩
    · rw [hsize, contents_reset hf.file, take_zero, drop_nil]
    · rw [hf.file]
      rfl
    · simp only [handle, inodeStart, UInt32.toNat_zero]
      omega
  have hclean := ((failed_calls_clean_iff hf.reach 1 hf.lt hf.bit).1 0 _ hf.isFile (by rw [hlen]; decide)).mpr (Or.inr hwraps)
  obtain ⟨n, d', hrun, hn, hsame⟩ := hclean fun hroom => by
    have hmax := hroom.file
    omega
  exact ⟨h, s, n, d', hf.reach, hrun, hlen ▸ hn, hsame⟩

theorem write_past_largest_file : ∃ (h : Accepted 5123 1) (s : Mount),
    Reachable 0 (ofSizes 5123 1 h) (fun _ => True) s ∧
      (ofSizes 5123 1 h).inodeOf (s.disk 0) 1 = DiskInode.reset .file ∧
      ¬(ofSizes 5123 1 h).RoomFor (s.disk 0) ((ofSizes 5123 1 h).inodeOf (s.disk 0) 1) (8468480 + [7].length) ∧
      exec (((ofSizes 5123 1 h).handle 1).writeAt s.fs 8468480 [7]) ⟨s.disk 0, []⟩ = none := by
  have h := small_accepted
  obtain ⟨s, hf⟩ := small_file h
  refine ⟨h, s, hf.reach, hf.file, fun hroom => ?_, ?_⟩
  · have := hroom.file
    simp at this
  · rw [hf.mounted.fs]
    exact write_too_large hf.mounted.inv Nat.one_lt_two hf.isFile (by simp) (by simp)

end TCore.EasyFs
