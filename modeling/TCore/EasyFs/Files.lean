/-
  TCore.EasyFs.Files — block ownership and file contents over whole runs.
-/

import TCore.EasyFs.Mount

namespace TCore.EasyFs

open TCore.Lib
open DiskInode EasyFs.Geometry Geometry

section
variable {dev : Nat} {g : Geometry} {d : Disk} {m i : Nat} {s : Mount} {calls : FsOp → Prop}

theorem FsInv.allocated (h : FsInv g d m) (hi : i < 4096 * g.inodeBitmapBlocks) :
    g.inodeBitmap.bit d i = true ↔ i < m := by
  rw [h.inodes i hi, decide_eq_true_eq]

/-- Every block of an inode in use is a data block with its bit set, and each set bit belongs to one role of one inode. -/
theorem blocks_owned_once (hs : Reachable dev g calls s) :
    (∀ i < 4096 * g.inodeBitmapBlocks, g.inodeBitmap.bit (s.disk dev) i = true → ∀ r ∈ g.rolesAt (s.disk dev) i,
      ∃ k < g.dataAreaBlocks, g.blockAt (s.disk dev) i r = g.dataStart + k ∧ g.used (s.disk dev) k = true) ∧
    ∀ k < 4096 * g.dataBitmapBlocks, g.used (s.disk dev) k = true → ∃! p : Nat × Role,
      p.1 < 4096 * g.inodeBitmapBlocks ∧ g.inodeBitmap.bit (s.disk dev) p.1 = true ∧
        p.2 ∈ g.rolesAt (s.disk dev) p.1 ∧ g.blockAt (s.disk dev) p.1 p.2 = g.dataStart + k := by
  obtain ⟨m, hm⟩ := hs.mounted
  have h := hm.inv
  have hroom := h.room
  refine ⟨fun i hi hbit r hr => h.owned i ((h.allocated hi).mp hbit) r hr, fun k hk hu => ?_⟩
  obtain ⟨i, hi, r, hr, hb⟩ := h.cover k hk hu
  refine ⟨(i, r), ⟨by omega, (h.allocated (by omega)).mpr hi, hr, hb⟩, ?_⟩
  rintro ⟨j, s⟩ ⟨hj, hbit, hs, hb'⟩
  obtain ⟨rfl, rfl⟩ := h.inj j ((h.allocated hj).mp hbit) i hi s hs r hr (by rw [hb', hb])
  rfl

/-! ## A small run -/

/-- A fresh volume has all its data blocks free. -/
theorem fresh_free (h : FsInv g d 1) (hroot : g.inodeOf d 0 = reset .directory) : g.free d = g.dataAreaBlocks := by
  have hcov := g.covered
  have : g.freeBlocks d = Finset.range g.dataAreaBlocks := by
    ext k
    rw [mem_freeBlocks, Finset.mem_range]
    exact and_iff_left_of_imp fun hk => fresh_used h hroot k (by omega)
  rw [free, this, Finset.card_range]

/-- What a fresh volume has room for: an entry in its empty root directory. -/
structure FreshRoom (g : Geometry) (d : Disk) : Prop where
  inode : g.InodeLeft d
  entry : g.RoomFor d (g.inodeOf d 0) ((g.contents d 0).length + 32)
  empty : g.direntsAt d 0 = []

theorem fresh_room (h : FsInv g d 1) (hroot : g.inodeOf d 0 = reset .directory) (hroom : 0 < g.dataAreaBlocks) :
    FreshRoom g d := by
  have hsome := g.some_inode
  refine ⟨⟨1, by omega, by omega, by rw [h.inodes 1 (by omega)]; rfl⟩, ?_, ?_⟩
  · rw [contents_reset hroot, hroot]
    exact ⟨by decide, by rw [fresh_free h hroot]; exact hroom⟩
  · rw [direntsAt, contents_reset hroot]
    rfl

variable (dev calls) in
/-- The start of every run. -/
theorem fresh_reachable {totalBlocks inodeBitmapBlocks : UInt32} (h : Accepted totalBlocks inodeBitmapBlocks) :
    ∃ s, Reachable dev (ofSizes totalBlocks inodeBitmapBlocks h) calls s ∧
      Mounted dev (ofSizes totalBlocks inodeBitmapBlocks h) s (s.disk dev) 1 ∧
      (ofSizes totalBlocks inodeBitmapBlocks h).inodeOf (s.disk dev) 0 = reset .directory ∧
      s.inodes = [(ofSizes totalBlocks inodeBitmapBlocks h).handle 0] := by
  obtain ⟨c, -, hcreate, -, -, -⟩ := create_run h dev fun _ _ => Block.zero
  obtain ⟨d, hm, hroot⟩ := mkfs_mounted h rfl hcreate
  refine ⟨_, Reachable.mkfs h rfl hcreate, ?_⟩
  rw [hm.disk]
  exact ⟨hm, hroot, congrArg (fun x => [x]) (rootInode_efs _)⟩

/-- The volume has one file, which is empty. -/
structure FirstFile (dev : Nat) (g : Geometry) (calls : FsOp → Prop) (s : Mount) : Prop where
  reach : Reachable dev g calls s
  mounted : Mounted dev g s (s.disk dev) 2
  inode : s.inodes[1]? = some (g.handle 1)
  file : g.inodeOf (s.disk dev) 1 = reset .file
  root : (g.contents (s.disk dev) 0).length = 32

namespace FirstFile

section
variable (h : FirstFile dev g calls s)
include h

theorem lt : 1 < 4096 * g.inodeBitmapBlocks := Nat.lt_of_lt_of_le Nat.one_lt_two h.mounted.inv.room

theorem bit : g.inodeBitmap.bit (s.disk dev) 1 = true := (h.mounted.inv.allocated h.lt).mpr Nat.one_lt_two

theorem isFile : (g.inodeOf (s.disk dev) 1).isFile = true := by
  rw [h.file]
  rfl

/-- One of the first two data blocks is free, since the root directory has only one. -/
theorem free (harea : 2 ≤ g.dataAreaBlocks) : 0 < g.free (s.disk dev) := by
  have hsize : (g.inodeOf (s.disk dev) 0).dataBlocks = 1 := by
    rw [h.mounted.inv.dataBlocks_eq Nat.two_pos, ← contentsOf_length (s.disk dev)]
    show ((g.contents (s.disk dev) 0).length + 511) / 512 = 1
    rw [h.root]
  have hone : (g.rolesAt (s.disk dev) 0).length = 1 := by
    rw [rolesAt, hsize, roles_length]
    rfl
  have hnone : (g.rolesAt (s.disk dev) 1).length = 0 := by
    rw [rolesAt_length, h.file]
    rfl
  have hall := h.mounted.inv.free_add_roles
  rw [Finset.sum_range_succ, Finset.sum_range_one, hone, hnone] at hall
  omega

theorem room (harea : 2 ≤ g.dataAreaBlocks) {size : Nat} (hsize : size ≤ 8468480)
    (hone : totalBlocks (UInt32.ofNat size) ≤ 1) : g.RoomFor (s.disk dev) (g.inodeOf (s.disk dev) 1) size :=
  ⟨hsize, (Nat.sub_le _ _).trans (hone.trans (h.free harea))⟩

end

variable (dev calls) in
/-- The run that makes the first file of a fresh volume. -/
theorem exists_run {totalBlocks inodeBitmapBlocks : UInt32} (h : Accepted totalBlocks inodeBitmapBlocks)
    (hroom : 0 < (ofSizes totalBlocks inodeBitmapBlocks h).dataAreaBlocks) {name : List UInt8}
    (hname : name.length ≤ 28) (hcall : calls (.create 0 name .file)) :
    ∃ s, FirstFile dev (ofSizes totalBlocks inodeBitmapBlocks h) calls s := by
  obtain ⟨s0, hs0, hm, hroot, hsingle⟩ := fresh_reachable dev calls h
  generalize ofSizes totalBlocks inodeBitmapBlocks h = g at *
  have hfresh := fresh_room hm.inv hroot hroom
  have hnone : findIn name (g.direntsAt (s0.disk dev) 0) = some none := by
    rw [hfresh.empty]
    rfl
  obtain ⟨s, d', hs, hm', hc, hinodes⟩ := hs0.create hm Nat.one_pos (h := 0) (by rw [hsingle]; rfl) (by rw [hroot]; rfl) hcall hnone hfresh.inode
    hfresh.entry (e := ⟨Arr.ofFn fun i => name.getD i 0, UInt32.ofNat 1⟩) (by rw [DirEntry.new, if_pos hname])
  obtain rfl := hm'.disk
  refine ⟨s, hs, hm', ?_, hc.new, ?_⟩
  · rw [hinodes, hsingle]
    rfl
  · rw [hc.contents, List.length_append, DirEntry.asBytes_length, contents_reset hroot]
    rfl

end FirstFile

theorem small_area (h : Accepted 5123 1) : 2 ≤ (ofSizes 5123 1 h).dataAreaBlocks := by
  show 2 ≤ min (dataTotalBlocks 5123 1 - dataBitmapBlocks 5123 1) (4096 * dataBitmapBlocks 5123 1)
  decide

theorem small_room (h : Accepted 5123 1) : 0 < (ofSizes 5123 1 h).dataAreaBlocks :=
  lt_of_lt_of_le Nat.two_pos (small_area h)

theorem small_accepted : Accepted 5123 1 := ⟨by decide, by decide⟩

/-- A device of 5123 blocks with one file. -/
theorem small_file (h : Accepted 5123 1) : ∃ s, FirstFile 0 (ofSizes 5123 1 h) (fun _ => True) s :=
  FirstFile.exists_run 0 (fun _ => True) h (small_room h) (show ([97] : List UInt8).length ≤ 28 by decide) trivial

/-- The state after the first `create` on a device of 5123 blocks. -/
theorem blocks_owned_once_5123 : ∃ (h : Accepted 5123 1) (s : Mount),
    Reachable 0 (ofSizes 5123 1 h) (fun _ => True) s ∧
      ∀ k < 4096 * (ofSizes 5123 1 h).dataBitmapBlocks, (ofSizes 5123 1 h).used (s.disk 0) k = true →
        ∃! p : Nat × Role, p.1 < 4096 * (ofSizes 5123 1 h).inodeBitmapBlocks ∧
          (ofSizes 5123 1 h).inodeBitmap.bit (s.disk 0) p.1 = true ∧
          p.2 ∈ (ofSizes 5123 1 h).rolesAt (s.disk 0) p.1 ∧
          (ofSizes 5123 1 h).blockAt (s.disk 0) p.1 p.2 = (ofSizes 5123 1 h).dataStart + k := by
  have h := small_accepted
  obtain ⟨s, hf⟩ := small_file h
  exact ⟨h, s, hf.reach, (blocks_owned_once hf.reach).2⟩

/-! ## Contents -/

/-- Every inode but `t` is as it was. -/
def OthersKept (g : Geometry) (d d' : Disk) (t : Nat) : Prop :=
  ∀ j < 4096 * g.inodeBitmapBlocks, g.inodeBitmap.bit d j = true → j ≠ t →
    (g.inodeOf d' j).size = (g.inodeOf d j).size ∧ g.contents d' j = g.contents d j

theorem Wrote.othersKept {t : Nat} {l : List UInt8} {d' : Disk} (hw : Wrote g d m t l d') (h : FsInv g d m) :
    OthersKept g d d' t := by
  intro j hj hbit hne
  obtain ⟨h1, h2⟩ := hw.other j ((h.allocated hj).mp hbit) hne
  exact ⟨by rw [h1], h2⟩

/-- After every run, `write_at`, `clear` and `read_at` on any file do what they would do on a plain byte array,
and leave every other inode alone. A slice has at most `isize::MAX` bytes and an offset is a `usize`;
`read_at` needs no more. -/
theorem file_contents_refine (hs : Reachable dev g calls s) (t : Nat) (ht : t < 4096 * g.inodeBitmapBlocks)
    (hbit : g.inodeBitmap.bit (s.disk dev) t = true) (hfile : (g.inodeOf (s.disk dev) t).isFile = true) :
    (∀ (offset : Nat) (buf : List UInt8), buf ≠ [] → offset + buf.length ≤ 16540 * 512 →
      DiskInode.totalBlocks (UInt32.ofNat (offset + buf.length)) -
        DiskInode.totalBlocks (g.inodeOf (s.disk dev) t).size ≤ g.free (s.disk dev) →
      ∃ c, runCache dev ((g.handle t).writeAt s.fs offset buf) s.session = some (buf.length, c) ∧
        g.contents (c.mgr.view dev) t = overwrite (g.contents (s.disk dev) t) offset buf ∧
        OthersKept g (s.disk dev) (c.mgr.view dev) t) ∧
    (∃ c, runCache dev ((g.handle t).clear s.fs) s.session = some ((), c) ∧ g.contents (c.mgr.view dev) t = [] ∧
      OthersKept g (s.disk dev) (c.mgr.view dev) t) ∧
    ∀ (offset : Nat) (b : List UInt8), offset < 2 ^ 64 → b.length < 2 ^ 63 →
      ∃ c, runCache dev ((g.handle t).readAt offset b) s.session =
          some ((min b.length ((g.contents (s.disk dev) t).length - offset),
            ((g.contents (s.disk dev) t).drop offset).take b.length ++
              b.drop (min b.length ((g.contents (s.disk dev) t).length - offset))), c) ∧
        c.mgr.view dev = s.disk dev := by
  obtain ⟨m, hm⟩ := hs.mounted
  have htm := (hm.inv.allocated ht).mp hbit
  rw [hm.fs]
  refine ⟨fun offset buf hb hend hfree => ?_, ?_, fun offset b ho hb => ?_⟩
  · obtain ⟨d', hrun, hw⟩ := writeAt_wrote hm.inv htm hfile hb ⟨hend, hfree⟩
    obtain ⟨c, hc, hidle⟩ := hm.idle.run (Inode.writeAt_fits _ _ _ _) hrun
    exact ⟨c, hc, by rw [hidle.view]; exact hw.contents, by rw [hidle.view]; exact hw.othersKept hm.inv⟩
  · obtain ⟨d', hrun, hw⟩ := clear_wrote hm.inv htm hfile
    obtain ⟨c, hc, hidle⟩ := hm.idle.run (Inode.clear_fits _ _) hrun
    exact ⟨c, hc, by rw [hidle.view]; exact hw.contents, by rw [hidle.view]; exact hw.othersKept hm.inv⟩
  · obtain ⟨c, hc, hidle⟩ := hm.idle.run (Inode.readAt_fits _ _ _) (readAt_volume hm.inv htm ho hb)
    exact ⟨c, hc, hidle.view⟩

/-- On a device of 5123 blocks three bytes are written behind the end of the first file, and read back. -/
theorem file_contents_refine_5123 : ∃ (h : Accepted 5123 1) (s s' : Mount) (c : Session),
    Reachable 0 (ofSizes 5123 1 h) (fun _ => True) s' ∧
      runCache 0 (((ofSizes 5123 1 h).handle 1).writeAt s.fs 2 [7, 8, 9]) s.session = some (3, s'.session) ∧
      runCache 0 (((ofSizes 5123 1 h).handle 1).readAt 1 [0, 0, 0]) s'.session = some ((3, [0, 7, 8]), c) := by
  have h := small_accepted
  obtain ⟨s, hf⟩ := small_file h
  have hroom := hf.room (small_area h) (show 5 ≤ 8468480 by decide) (by decide)
  obtain ⟨c, hwrite, hcontents, -⟩ := (file_contents_refine hf.reach 1 hf.lt hf.bit hf.isFile).1 2 [7, 8, 9] (by simp)
    (by decide) hroom.blocks
  let s' : Mount := { s with session := c }
  have hself : s.inodes[(FsOp.writeAt 1 2 [7, 8, 9]).self]? = some ((ofSizes 5123 1 h).handle 1) := hf.inode
  have hret : runCache 0 (pure none : Fs (Option Inode)) c = some (none, c) := rfl
  have hstep : s.step 0 (.writeAt 1 2 [7, 8, 9]) = some s' := by
    rw [Mount.step, hself, Option.bind_some, FsOp.prog, runCache_bind, hwrite]
    simp [s', hret]
  obtain ⟨r, d', m', ho, hm, -⟩ := hf.mounted.step Nat.one_lt_two hself hroom hstep
  obtain rfl := hm.disk
  have hs' : Reachable 0 (ofSizes 5123 1 h) (fun _ => True) s' := hf.reach.step trivial hself hroom hstep
  obtain ⟨hfile, hm⟩ : ((ofSizes 5123 1 h).inodeOf (s'.disk 0) 1).isFile = true ∧ Mounted 0 (ofSizes 5123 1 h) s' (s'.disk 0) 2 := by
    cases ho with
    | wrote hfile hw => exact ⟨by rw [isFile, hw.kind]; exact hfile, hm⟩
  obtain ⟨c', hread, -⟩ := (file_contents_refine hs' 1 hf.lt ((hm.inv.allocated hf.lt).mpr Nat.one_lt_two) hfile).2.2 1 [0, 0, 0]
    (by decide) (by decide)
  have hbytes : (ofSizes 5123 1 h).contents (s'.disk 0) 1 = [0, 0, 7, 8, 9] := by
    rw [contents_reset hf.file] at hcontents
    exact hcontents
  rw [hbytes] at hread
  exact ⟨h, s, s', c', hs', hwrite, hread⟩

end

end TCore.EasyFs
