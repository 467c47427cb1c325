/-
  TCore.EasyFs.DataArea — does every data block handed out exist?

  The data bitmap comes in whole blocks of 4096 bits while the data area is what is left, so
  the bitmap usually has more bits than there are data blocks, and `alloc` takes any clear bit
  of it. A session here makes a file system and then calls `alloc_data` and `dealloc_data` in
  any order, by way of the block cache.

  - `allocData_lt`: a block handed out has a bit of the bitmap.
-/

import TCore.EasyFs.Mkfs
import TCore.EasyFs.Locks

namespace TCore.EasyFs

open TCore.Lib
open Runs EasyFs.Geometry EasyFileSystem Bitmap UInt32 Geometry

inductive DataOp where
  | alloc
  | dealloc (blockId : UInt32)

/-- A sequence of calls, answering the blocks handed out. -/
def runDataOps (dev : Nat) (fs : EasyFileSystem) : List DataOp → Session → Option (List UInt32 × Session)
  | [], s => some ([], s)
  | .alloc :: ops, s =>
    (runCache dev fs.allocData s).bind fun r => (runDataOps dev fs ops r.2).map fun q => (r.1 :: q.1, q.2)
  | .dealloc blockId :: ops, s => (runCache dev (fs.deallocData blockId) s).bind fun r => runDataOps dev fs ops r.2

section
variable {dev : Nat} {g : Geometry} {d : Disk}

/-! ## Which blocks are handed out -/

theorem allocData_lt {x : UInt32} {d' : Disk} (h : Runs g.efs.allocData [] d x d') :
    ∃ k < 4096 * g.dataBitmapBlocks, x = g.blockId k := by
  rcases allocBit_cases (g := g) (d := d) (L := []) (by simp) with ⟨k, hk, -, -, halloc⟩ | ⟨-, hfull⟩
  · exact ⟨k, hk, ((allocData_takes halloc).det h).1.symm⟩
  · have hnone : exec g.efs.allocData ⟨d, []⟩ = none := by
      rw [allocData]
      exact (exec_bind hfull _).trans rfl
    rw [Runs, hnone] at h
    cases h

theorem runDataOps_mem {P : UInt32 → Prop} (hP : ∀ k < 4096 * g.dataBitmapBlocks, P (g.blockId k)) (ops : List DataOp)
    {s s' : Session} {ids : List UInt32} (hs : Idle dev s d) (hr : runDataOps dev g.efs ops s = some (ids, s')) :
    ∀ x ∈ ids, P x := by
  induction ops generalizing s d ids with
  | nil =>
    cases hr
    simp
  | cons op ops ih =>
    cases op with
    | alloc =>
      obtain ⟨⟨x, s1⟩, h1, h2⟩ := Option.bind_eq_some_iff.mp hr
      obtain ⟨⟨xs, s2⟩, h3, h4⟩ := Option.map_eq_some_iff.mp h2
      obtain ⟨d1, hrun, hs1⟩ := hs.exec (allocData_fits (c := 3) _ (by omega)) h1
      cases h4
      intro y hy
      rcases List.mem_cons.mp hy with rfl | hy
      · obtain ⟨k, hk, rfl⟩ := allocData_lt hrun
        exact hP k hk
      · exact ih hs1 h3 y hy
    | dealloc b =>
      obtain ⟨⟨_, s1⟩, h1, h2⟩ := Option.bind_eq_some_iff.mp hr
      obtain ⟨d1, -, hs1⟩ := hs.exec (deallocData_fits (c := 3) _ (by omega) b) h1
      exact ih hs1 h2

/-- Calls of `alloc_data` alone, on a bitmap whose first `k` bits are set. -/
theorem allocs_run (n : Nat) {k : Nat} {s : Session} (hs : Idle dev s d) (hk : k + n ≤ 4096 * g.dataBitmapBlocks)
    (hbits : ∀ i < 4096 * g.dataBitmapBlocks, g.used d i = decide (i < k)) :
    ∃ s', runDataOps dev g.efs (List.replicate n .alloc) s =
      some ((List.range n).map fun i => g.blockId (k + i), s') := by
  induction n generalizing k s d with
  | zero => exact ⟨s, rfl⟩
  | succ n ih =>
    have halloc : Runs g.dataBitmap.alloc [] d (some k) (g.dataBitmap.put d k true) := by
      refine alloc_runs _ (by simp) (show k < 4096 * g.dataBitmapBlocks by omega) ?_ fun i hi => ?_
      · exact (hbits k (by omega)).trans (by simp)
      · exact (hbits i (by omega)).trans (by simp [hi])
    have hrun : Runs g.efs.allocData [] d (g.blockId k) (g.dataBitmap.put d k true) := by
      refine bind halloc (bind (unwrap _) ?_)
      rw [blockId, Nat.add_comm, ofNat_add]
      exact ret _
    obtain ⟨s1, h1, hs1⟩ := hs.run (allocData_fits (c := 3) _ (by omega)) hrun
    obtain ⟨s', h2⟩ := ih hs1 (k := k + 1) (by omega) fun i hi => by
      rw [used_put k true (by simp), hbits i hi]
      by_cases hik : i = k
      · simp [hik]
      · rw [if_neg hik, decide_eq_decide]
        omega
    refine ⟨s', ?_⟩
    rw [List.replicate_succ, runDataOps, h1, Option.bind_some, h2, List.range_succ_eq_map, List.map_cons, List.map_map]
    simp only [Option.map_some, Nat.add_zero, Function.comp_def, Nat.add_assoc, Nat.add_comm 1]

end

/-! ## The sizes -/

section
variable {totalBlocks inodeBitmapBlocks : UInt32}

/-- The data bitmap has no more bits than the data area has blocks only when the blocks left for
    both divide evenly, or there are so many that the bitmap's size wraps to zero. -/
theorem bits_le_iff (h : Accepted totalBlocks inodeBitmapBlocks) :
    4096 * dataBitmapBlocks totalBlocks inodeBitmapBlocks ≤
        dataTotalBlocks totalBlocks inodeBitmapBlocks - dataBitmapBlocks totalBlocks inodeBitmapBlocks ↔
      dataTotalBlocks totalBlocks inodeBitmapBlocks % 4097 = 0 ∨ 2 ^ 32 ≤ dataTotalBlocks totalBlocks inodeBitmapBlocks + 4096 := by
  have h1 := h.fits
  have h2 := totalBlocks.toNat_lt
  have h3 := h.some_inode
  have h4 : dataTotalBlocks totalBlocks inodeBitmapBlocks < 2 ^ 32 - 1026 := by unfold dataTotalBlocks; omega
  unfold dataBitmapBlocks
  generalize dataTotalBlocks totalBlocks inodeBitmapBlocks = n at h4
  by_cases hw : 2 ^ 32 ≤ n + 4096
  · have : (n + 4096) % 2 ^ 32 / 4097 = 0 := by omega
    rw [this]
    omega
  · rw [Nat.mod_eq_of_lt (by omega)]
    omega

/-- `create` by way of the cache, on any device. -/
theorem create_run (h : Accepted totalBlocks inodeBitmapBlocks) (dev : Nat) (devices : Nat → Nat → Block) :
    ∃ s d, runCache dev (create totalBlocks inodeBitmapBlocks) ⟨Manager.empty devices, []⟩ =
        some ((ofSizes totalBlocks inodeBitmapBlocks h).efs, s) ∧ Idle dev s d ∧
      FsInv (ofSizes totalBlocks inodeBitmapBlocks h) d 1 ∧
      (ofSizes totalBlocks inodeBitmapBlocks h).inodeOf d 0 = DiskInode.reset .directory := by
  obtain ⟨d, hrun, hinv, hroot⟩ := create_runs h (devices dev)
  obtain ⟨s, hs, hidle⟩ := (idle_start devices).run (create_fits _ _) hrun
  exact ⟨s, d, hs, hidle, hinv, hroot⟩

/-- A fresh volume has no data block in use. -/
theorem fresh_used {g : Geometry} {d : Disk} (hinv : FsInv g d 1) (hroot : g.inodeOf d 0 = DiskInode.reset .directory) :
    ∀ k < 4096 * g.dataBitmapBlocks, g.used d k = false := by
  intro k hk
  by_contra hu
  rw [Bool.not_eq_false] at hu
  obtain ⟨i, hi, r, hr, -⟩ := hinv.cover k hk hu
  rw [show i = 0 by omega, rolesAt, hroot, dataBlocks_reset] at hr
  cases hr

/-- All the blocks handed out exist exactly for the sizes at which the rounding of the bitmap comes out even, or its sum overflows. -/
theorem handed_out_blocks_exist_iff (dev : Nat) (devices : Nat → Nat → Block) (totalBlocks inodeBitmapBlocks : UInt32)
    (h : Accepted totalBlocks inodeBitmapBlocks) :
    (∀ (ops : List DataOp) (fs : EasyFileSystem) (s s' : Session) (ids : List UInt32),
        runCache dev (EasyFileSystem.create totalBlocks inodeBitmapBlocks) ⟨Manager.empty devices, []⟩ = some (fs, s) →
        runDataOps dev fs ops s = some (ids, s') →
        ∀ x ∈ ids, fs.dataAreaStartBlock.toNat ≤ x.toNat ∧ x.toNat < totalBlocks.toNat) ↔
      dataTotalBlocks totalBlocks inodeBitmapBlocks % 4097 = 0 ∨
        2 ^ 32 ≤ dataTotalBlocks totalBlocks inodeBitmapBlocks + 4096 := by
  have hT := totalBlocks.toNat_lt
  have hfit := h.fits
  have hdbm := dataBitmapBlocks_le totalBlocks inodeBitmapBlocks
  obtain ⟨s, d, hcreate, hidle, hinv, hroot⟩ := create_run h dev devices
  have hstart : (ofSizes totalBlocks inodeBitmapBlocks h).dataStart =
      1 + 1025 * inodeBitmapBlocks.toNat + dataBitmapBlocks totalBlocks inodeBitmapBlocks := rfl
  have hbits : (ofSizes totalBlocks inodeBitmapBlocks h).dataBitmapBlocks =
      dataBitmapBlocks totalBlocks inodeBitmapBlocks := rfl
  have hnum := (ofSizes totalBlocks inodeBitmapBlocks h).numbered
  generalize ofSizes totalBlocks inodeBitmapBlocks h = g at *
  have htot : totalBlocks.toNat = g.dataStart +
      (dataTotalBlocks totalBlocks inodeBitmapBlocks - dataBitmapBlocks totalBlocks inodeBitmapBlocks) := by
    rw [hstart]
    unfold dataTotalBlocks at *
    omega
  have hefs : g.efs.dataAreaStartBlock.toNat = g.dataStart :=
    UInt32.toNat_ofNat_of_lt' (by simp only [UInt32.size, dataStart]; omega)
  rw [← bits_le_iff h]
  constructor
  · -- with a bit to spare, one allocation more than there are blocks hands out the block past the end
    intro hall
    by_contra hlt
    obtain ⟨s', hrun⟩ := allocs_run (g := g) (dataTotalBlocks totalBlocks inodeBitmapBlocks -
      dataBitmapBlocks totalBlocks inodeBitmapBlocks + 1) (k := 0) hidle (by omega)
      fun i hi => by rw [fresh_used hinv hroot i hi]; simp
    have hlast := hall _ _ _ _ _ hcreate hrun (g.blockId (dataTotalBlocks totalBlocks inodeBitmapBlocks -
      dataBitmapBlocks totalBlocks inodeBitmapBlocks)) (by
        rw [List.range_succ, List.map_append]
        simp)
    have hid : (g.blockId (dataTotalBlocks totalBlocks inodeBitmapBlocks -
        dataBitmapBlocks totalBlocks inodeBitmapBlocks)).toNat = totalBlocks.toNat := by
      rw [blockId, ← htot]
      exact UInt32.toNat_ofNat_of_lt' hT
    omega
  · intro hle ops fs s1 s' ids hc hr
    rw [hcreate] at hc
    cases hc
    refine runDataOps_mem (P := fun x => g.efs.dataAreaStartBlock.toNat ≤ x.toNat ∧ x.toNat < totalBlocks.toNat)
      (fun k hk => ?_) ops hidle hr
    have hid : (g.blockId k).toNat = g.dataStart + k :=
      UInt32.toNat_ofNat_of_lt' (by simp only [UInt32.size]; omega)
    omega

/-- 4097 blocks for data: one block of bitmap and its 4096 data blocks. -/
theorem handed_out_blocks_exist_5123 : Accepted 5123 1 ∧
    ∀ (ops : List DataOp) (fs : EasyFileSystem) (s s' : Session) (ids : List UInt32),
      runCache 0 (EasyFileSystem.create 5123 1) ⟨Manager.empty fun _ _ => Block.zero, []⟩ = some (fs, s) →
      runDataOps 0 fs ops s = some (ids, s') →
      ∀ x ∈ ids, fs.dataAreaStartBlock.toNat ≤ x.toNat ∧ x.toNat < (5123 : UInt32).toNat :=
  have h : Accepted 5123 1 := ⟨by decide, by decide⟩
  ⟨h, (handed_out_blocks_exist_iff 0 (fun _ _ => Block.zero) 5123 1 h).mpr (Or.inl (by decide))⟩

/-- A device of 1028 blocks has one data block, 1027; the second call hands out block 1028. -/
theorem second_block_is_past_the_end :
    ∃ (fs : EasyFileSystem) (s s' : Session),
      runCache 0 (EasyFileSystem.create 1028 1) ⟨Manager.empty fun _ _ => Block.zero, []⟩ = some (fs, s) ∧
      runDataOps 0 fs [.alloc, .alloc] s = some ([1027, 1028], s') := by
  have h : Accepted 1028 1 := ⟨by decide, by decide⟩
  obtain ⟨s, d, hcreate, hidle, hinv, hroot⟩ := create_run h 0 fun _ _ => Block.zero
  have hbits : dataBitmapBlocks 1028 1 = 1 := by decide
  obtain ⟨s', hrun⟩ := allocs_run (g := ofSizes 1028 1 h) 2 (k := 0) hidle
    (by show 0 + 2 ≤ 4096 * dataBitmapBlocks 1028 1; rw [hbits]; decide)
    fun i hi => by rw [fresh_used hinv hroot i hi]; simp
  exact ⟨_, s, s', hcreate, hrun⟩

end

end TCore.EasyFs
