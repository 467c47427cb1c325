/-
  TCore.EasyFs.Growth — the life of a disk inode between `initialize` and `clear_size`.

  `Grows L s` are the states of an inode that was initialized and then grown any number of times, each
  time by as many new blocks as `blocks_num_needed` asks for, while the blocks `L` are locked. Other
  blocks, the inode's own data blocks too, are written in between. `taken` is the list of all block ids
  the calls were given.
-/

import TCore.EasyFs.Mount
import TCore.EasyFs.InodeClear

namespace TCore.EasyFs

open TCore.Lib
open Role (data ind1 ind2 row)
open List DiskInode Function

structure Growth where
  disk : Disk
  ino : DiskInode
  /-- The ids given to `increase_size` so far. -/
  taken : List UInt32

/-- A call `increase_size(newSize, v)` with fresh blocks: as many as needed, all different, none of them
    given before and none of them locked. -/
structure FreshCall (L : List Nat) (s : Growth) (newSize : UInt32) (v : List UInt32) : Prop where
  size : s.ino.size ≤ newSize
  max : newSize.toNat ≤ 16540 * 512
  asked : Runs (s.ino.blocksNumNeeded newSize) L s.disk v.length s.disk
  distinct : v.Nodup
  fresh : ∀ x ∈ v, x ∉ s.taken ∧ x.toNat ∉ L

inductive Grows (L : List Nat) : Growth → Prop where
  | reset (d : Disk) (ty : DiskInodeType) : Grows L ⟨d, DiskInode.reset ty, []⟩
  | increaseSize {s : Growth} {newSize : UInt32} {v : List UInt32} {ino' : DiskInode} {d' : Disk} (hs : Grows L s)
    (hcall : FreshCall L s newSize v) (hrun : Runs (s.ino.increaseSize newSize v) L s.disk ino' d') :
    Grows L ⟨d', ino', s.taken ++ v⟩
  | write {s : Growth} (hs : Grows L s) (x : Nat) (b : Block)
    (hx : ∀ r ∈ roles s.ino.dataBlocks, r.isIndex = true → (blockOf s.disk s.ino r).toNat ≠ x) :
    Grows L { s with disk := Function.update s.disk x b }

/-- The inode has exactly the blocks it was given, in the order of `roles`, and 0 in the places that are not
    in use. -/
structure GrowthInv (L : List Nat) (s : Growth) : Prop where
  size : s.ino.size.toNat ≤ 16540 * 512
  blocks : (roles s.ino.dataBlocks).map (blockOf s.disk s.ino) = s.taken
  nodup : s.taken.Nodup
  unlocked : ∀ x ∈ s.taken, x.toNat ∉ L
  unused : ∀ r : Role, r.parent = none → s.ino.dataBlocks ≤ r.since → s.ino.rootOf r = 0

section
variable {L : List Nat} {s : Growth} {newSize : UInt32} {v : List UInt32}

/-! ## What stays 0 -/

theorem data_root {k : Nat} (h : (data k).parent = none) : k < 28 := by
  by_contra hk
  rw [Role.parent_data, if_neg hk] at h
  split at h <;> cases h

theorem fill_get {c cur : Nat} {a a' : Arr UInt32 28} {rest : List UInt32} {t t' : Cells Nat Block}
    (h : exec (fill Arr.set c cur a v) t = some ((a', rest), t')) {k : Nat} (hk : cur + c ≤ k) : a'.get k = a.get k := by
  induction c generalizing cur a v with
  | zero =>
    cases h
    rfl
  | succ c ih =>
    obtain ⟨⟨x, xs⟩, u, h1, h2⟩ := exec_bind_some h
    cases v with
    | nil => cases h1
    | cons y ys =>
      cases h1
      rw [ih h2 (by omega), Arr.get_set_ne _ _ (by omega)]

/-- Places of the inode past the new number of data blocks are left alone. -/
theorem increaseSize_unused {ino ino' : DiskInode} {t t' : Cells Nat Block}
    (h : exec (ino.increaseSize newSize v) t = some (ino', t')) (hle : ino.dataBlocks ≤ dataBlocksOf newSize) {r : Role}
    (hp : r.parent = none) (hr : dataBlocksOf newSize ≤ r.since) : ino'.rootOf r = ino.rootOf r := by
  obtain ⟨⟨direct, rest⟩, u, hfill, h⟩ := exec_bind_some h
  dsimp only at h
  have hdirect : ∀ k, dataBlocksOf newSize ≤ k → k < 28 → direct.get k = ino.direct.get k :=
    fun k h1 h2 => fill_get hfill (by omega)
  cases r with
  | row i => cases hp
  | data k =>
    have hk := data_root hp
    simp only [Role.since] at hr
    rw [if_neg (by omega)] at h
    cases h
    exact hdirect k hr hk
  | ind1 =>
    simp only [Role.since] at hr
    rw [if_neg (by omega)] at h
    cases h
    rfl
  | ind2 =>
    simp only [Role.since] at hr
    split at h
    · obtain ⟨⟨i1, rest1⟩, u1, -, h⟩ := exec_bind_some h
      obtain ⟨rest2, u2, -, h⟩ := exec_bind_some h
      rw [if_neg (by omega)] at h
      cases h
      rfl
    · cases h
      rfl

/-! ## One call -/

theorem GrowthInv.dataBlocks_eq (h : GrowthInv L s) : s.ino.dataBlocks = (s.ino.size.toNat + 511) / 512 :=
  dataBlocksOf_eq h.size

theorem GrowthInv.placed (h : GrowthInv L s) : Placed L s.disk s.ino s.ino.dataBlocks := by
  have hsize := h.size
  have hmem : ∀ r ∈ roles s.ino.dataBlocks, blockOf s.disk s.ino r ∈ s.taken := by
    intro r hr
    rw [← h.blocks]
    exact mem_map_of_mem hr
  refine ⟨by rw [h.dataBlocks_eq]; omega, fun r hr r' hr' e => ?_, fun r hr => h.unlocked _ (hmem r hr)⟩
  have hnd := h.nodup
  rw [← h.blocks] at hnd
  exact inj_on_of_nodup_map hnd hr hr' e

/-- What a call with fresh blocks does. -/
structure GrownBy (L : List Nat) (s : Growth) (newSize : UInt32) (v : List UInt32) (ino' : DiskInode) (d' : Disk) : Prop where
  runs : Runs (s.ino.increaseSize newSize v) L s.disk ino' d'
  size : ino'.size = newSize
  more : s.ino.dataBlocks ≤ ino'.dataBlocks
  blocks : (roles ino'.dataBlocks).map (blockOf d' ino') = (roles s.ino.dataBlocks).map (blockOf s.disk s.ino) ++ v
  inv : GrowthInv L ⟨d', ino', s.taken ++ v⟩

theorem GrowthInv.increaseSize (h : GrowthInv L s) (hcall : FreshCall L s newSize v) :
    ∃ ino' d', GrownBy L s newSize v ino' d' := by
  have hle := UInt32.le_iff_toNat_le.mp hcall.size
  have hmax := hcall.max
  have hn := h.dataBlocks_eq
  have hm : dataBlocksOf newSize = (newSize.toNat + 511) / 512 := dataBlocksOf_eq hmax
  have hlen : v.length = (roles (dataBlocksOf newSize)).length - (roles s.ino.dataBlocks).length := by
    rw [roles_length, roles_length]
    exact ((blocksNumNeeded_runs hle hmax).det hcall.asked).1.symm
  have hnd : (s.taken ++ v).Nodup := h.nodup.append hcall.distinct fun x hx hv => (hcall.fresh x hv).1 hx
  have hL : ∀ x ∈ s.taken ++ v, x.toNat ∉ L := by
    intro x hx
    rcases mem_append.mp hx with hx | hx
    · exact h.unlocked x hx
    · exact (hcall.fresh x hx).2
  obtain ⟨ino', d', hrun, hsize, -, hblocks, -⟩ := increaseSize_runs s.ino rfl rfl (by omega) (by omega) hlen
    (by rw [h.blocks]; exact hnd) (by rw [h.blocks]; exact hL)
  have hblocks' : ino'.dataBlocks = dataBlocksOf newSize := by rw [dataBlocks, hsize]
  rw [← hblocks'] at hblocks
  refine ⟨ino', d', hrun, hsize, by omega, hblocks, ⟨by rw [hsize]; exact hmax, ?_, hnd, hL, fun r hp hr => ?_⟩⟩
  · rw [hblocks, h.blocks]
  · rw [hblocks'] at hr
    rw [increaseSize_unused hrun (by omega) hp hr]
    exact h.unused r hp (by omega)

theorem GrowthInv.write (h : GrowthInv L s) {x : Nat} {b : Block}
    (hx : ∀ r ∈ roles s.ino.dataBlocks, r.isIndex = true → (blockOf s.disk s.ino r).toNat ≠ x) :
    GrowthInv L { s with disk := update s.disk x b } := by
  have hsame : ∀ r ∈ roles s.ino.dataBlocks, blockOf (update s.disk x b) s.ino r = blockOf s.disk s.ino r :=
    blockOf_frame (fun _ _ _ => rfl) fun r hr hi => update_of_ne (hx r hr hi) _ _
  refine ⟨h.size, ?_, h.nodup, h.unlocked, h.unused⟩
  show (roles s.ino.dataBlocks).map (blockOf (update s.disk x b) s.ino) = s.taken
  rw [map_congr_left hsame, h.blocks]

theorem growthInv_reset (d : Disk) (ty : DiskInodeType) : GrowthInv L ⟨d, reset ty, []⟩ := by
  have hnone : (reset ty).dataBlocks = 0 := by
    show dataBlocksOf 0 = 0
    decide
  refine ⟨Nat.zero_le _, ?_, nodup_nil, by simp, fun r hp _ => ?_⟩
  · rw [hnone]
    rfl
  cases r with
  | data k => exact Arr.get_replicate 0 (data_root hp)
  | ind1 => rfl
  | ind2 => rfl
  | row i => cases hp

theorem Grows.inv (hs : Grows L s) : GrowthInv L s := by
  induction hs with
  | reset d ty => exact growthInv_reset d ty
  | increaseSize hs hcall hrun ih =>
    obtain ⟨ino', d', hg⟩ := ih.increaseSize hcall
    obtain ⟨rfl, rfl⟩ := hrun.det hg.runs
    exact hg.inv
  | write hs x b hx ih => exact ih.write hx

/-! ## Growing -/

/-- The call returns; every block of the list has a place, the old data blocks are where they were, and the
new ones are different blocks of the list none of which became an index block. -/
theorem growth_uses_new_blocks (hs : Grows L s) (hcall : FreshCall L s newSize v) :
    ∃ ino' d', Runs (s.ino.increaseSize newSize v) L s.disk ino' d' ∧ ino'.size = newSize ∧
      (roles ino'.dataBlocks).map (blockOf d' ino') = (roles s.ino.dataBlocks).map (blockOf s.disk s.ino) ++ v ∧
      (∀ i < s.ino.dataBlocks, ∃ x, Runs (s.ino.getBlockId i) L s.disk x s.disk ∧ Runs (ino'.getBlockId i) L d' x d') ∧
      ∃ f : Nat → UInt32, (∀ i, s.ino.dataBlocks ≤ i → i < ino'.dataBlocks → Runs (ino'.getBlockId i) L d' (f i) d' ∧ f i ∈ v ∧
          ∀ r ∈ roles ino'.dataBlocks, r.isIndex = true → blockOf d' ino' r ≠ f i) ∧
        ∀ i j, s.ino.dataBlocks ≤ i → i < ino'.dataBlocks → s.ino.dataBlocks ≤ j → j < ino'.dataBlocks → f i = f j → i = j := by
  have hinv := hs.inv
  obtain ⟨ino', d', hg⟩ := hinv.increaseSize hcall
  have hplaced := hg.inv.placed
  obtain ⟨S, hS⟩ := roles_initial hg.more
  have hblocks := hg.blocks
  rw [← hS, map_append] at hblocks
  obtain ⟨hold, hnew⟩ := append_inj hblocks (by rw [length_map, length_map])
  refine ⟨ino', d', hg.runs, hg.size, hg.blocks, fun i hi => ?_, fun i => blockOf d' ino' (data i), fun i h1 h2 => ⟨?_, ?_, ?_⟩, ?_⟩
  · have hsame : blockOf d' ino' (data i) = blockOf s.disk s.ino (data i) :=
      map_inj_left.mp hold _ (data_mem_roles hi)
    refine ⟨blockOf s.disk s.ino (data i), hinv.placed.getBlockId_runs hi, ?_⟩
    rw [← hsame]
    exact hplaced.getBlockId_runs (by have := hg.more; simp only; omega)
  · exact hplaced.getBlockId_runs h2
  · rw [← hnew]
    refine mem_map_of_mem ?_
    have hmem : data i ∈ roles ino'.dataBlocks := data_mem_roles h2
    rw [← hS] at hmem
    refine (mem_append.mp hmem).resolve_left fun h => ?_
    have := mem_roles.mp h
    simp only [Role.since] at this
    omega
  · intro r hr hi e
    rw [hplaced.inj r hr _ (data_mem_roles h2) e] at hi
    cases hi
  · intro i j _ hi _ hj e
    have := hplaced.inj _ (data_mem_roles hi) _ (data_mem_roles hj) e
    exact Role.data.inj this

end

/-- 29 data blocks and `indirect1` for an empty inode. -/
theorem firstCall_fresh : FreshCall [] ⟨fun _ => Block.zero, reset .file, []⟩ 14848 ((List.range 30).map UInt32.ofNat) := by
  refine ⟨by decide, by decide, ?_, by decide, fun x _ => ⟨by simp, by simp⟩⟩
  exact blocksNumNeeded_runs (by decide) (by decide)

theorem growth_uses_new_blocks_29 :
    ∃ ino' d', Runs ((DiskInode.reset .file).increaseSize 14848 ((List.range 30).map UInt32.ofNat)) []
      (fun _ => Block.zero) ino' d' ∧ ino'.size = 14848 := by
  obtain ⟨ino', d', hrun, hsize, -⟩ := growth_uses_new_blocks (.reset (fun _ => Block.zero) .file) firstCall_fresh
  exact ⟨ino', d', hrun, hsize⟩

/-! ## Clearing -/

section
variable {L : List Nat} {s : Growth} {v : List UInt32}

/-- `clear_size` puts 0 in every place in use. -/
theorem clearSize_zeroes {ino ino' : DiskInode} {t t' : Cells Nat Block} (h : exec ino.clearSize t = some ((v, ino'), t'))
    (hunused : ∀ r : Role, r.parent = none → ino.dataBlocks ≤ r.since → ino.rootOf r = 0) :
    (∀ k < 28, ino'.direct.get k = 0) ∧ ino'.indirect1 = 0 ∧ ino'.indirect2 = 0 := by
  have hz : ∀ k < 28, (Arr.ofFn fun i => if i < min ino.dataBlocks 28 then 0 else ino.direct.get i : Arr UInt32 28).get k = 0 := by
    intro k hk
    rw [Arr.get_ofFn_lt _ hk]
    split
    · rfl
    · refine hunused (data k) (by rw [Role.parent_data, if_pos hk]) ?_
      simp only [Role.since]
      omega
  unfold clearSize at h
  dsimp only at h
  split at h
  · obtain ⟨v1, t1, -, h⟩ := exec_bind_some h
    dsimp only at h
    split at h
    · obtain ⟨v2, t2, -, h⟩ := exec_bind_some h
      cases h
      exact ⟨hz, rfl, rfl⟩
    · cases h
      exact ⟨hz, rfl, hunused ind2 rfl (by simp only [Role.since]; omega)⟩
  · cases h
    exact ⟨hz, hunused ind1 rfl (by simp only [Role.since]; omega), hunused ind2 rfl (by simp only [Role.since]; omega)⟩

/-- Ids of data blocks whose bits are set can be given back. -/
theorem deallocBlocks_taken {g : Geometry} {d : Disk} (hL : ∀ x ∈ L, x < 1 + 1025 * g.inodeBitmapBlocks) (hnd : v.Nodup)
    (hv : ∀ x ∈ v, ∃ k < g.dataAreaBlocks, x = g.blockId k ∧ g.used d k = true) :
    ∃ d', Runs (deallocBlocks g.efs v) L d () d' := by
  choose! k hk using hv
  have hmap : (v.map k).map g.blockId = v := by
    rw [map_map]
    exact (map_congr_left fun x hx => (hk x hx).2.1.symm).trans (map_id v)
  have hnd' : (v.map k).Nodup := by
    rw [← hmap] at hnd
    exact hnd.of_map
  have hks : ∀ i ∈ v.map k, i < g.dataAreaBlocks ∧ g.used d i = true := by
    intro i hi
    obtain ⟨x, hx, rfl⟩ := mem_map.mp hi
    exact ⟨(hk x hx).1, (hk x hx).2.2⟩
  obtain ⟨d', hrun, -⟩ := deallocBlocks_runs hL (v.map k) hnd' hks
  rw [hmap] at hrun
  exact ⟨d', hrun⟩

/-- `clear_size` gives back the ids that the calls were given, and leaves an empty inode. Nothing in `clear`
can then fail. -/
theorem clear_undoes_growth (hs : Grows L s) :
    (∃ v ino', Runs s.ino.clearSize L s.disk (v, ino') s.disk ∧ v.Perm s.taken ∧ v.Nodup ∧
      v.length = DiskInode.totalBlocks s.ino.size ∧ ino'.size = 0 ∧ (∀ k < 28, ino'.direct.get k = 0) ∧ ino'.indirect1 = 0 ∧
      ino'.indirect2 = 0 ∧
      ∀ g : Geometry, (∀ x ∈ L, x < 1 + 1025 * g.inodeBitmapBlocks) →
        (∀ x ∈ s.taken, ∃ k < g.dataAreaBlocks, x = g.blockId k ∧ g.used s.disk k = true) →
        ∃ d', Runs (deallocBlocks g.efs v) L s.disk () d') ∧
    ∀ (dev : Nat) (g : Geometry) (calls : FsOp → Prop) (mount : Mount), Reachable dev g calls mount →
      ∀ self ∈ mount.inodes, (self.on (mount.disk dev)).isFile = true →
        ∃ d', Runs (self.clear mount.fs) [] (mount.disk dev) () d' := by
  refine ⟨?_, fun dev g calls mount hm self hself hfile => ?_⟩
  · have hinv := hs.inv
    obtain ⟨ino', hrun, hsize, -⟩ := clearSize_runs rfl hinv.placed
    obtain ⟨hdirect, h1, h2⟩ := clearSize_zeroes hrun hinv.unused
    rw [hinv.blocks] at hrun
    refine ⟨s.taken, ino', hrun, Perm.refl _, hinv.nodup, ?_, hsize, hdirect, h1, h2, fun g hL => ?_⟩
    · rw [← hinv.blocks, length_map, roles_length]
      rfl
    · exact deallocBlocks_taken hL hinv.nodup
  · obtain ⟨m, hmounted⟩ := hm.mounted
    obtain ⟨t, ht, rfl⟩ := hmounted.handles self hself
    rw [hmounted.fs]
    obtain ⟨d', hrun, -⟩ := clear_wrote hmounted.inv ht hfile
    exact ⟨d', hrun⟩

end

theorem clear_undoes_growth_29 : ∃ s, Grows [] s ∧ s.taken = (List.range 30).map UInt32.ofNat ∧
    ∃ v ino', Runs s.ino.clearSize [] s.disk (v, ino') s.disk ∧ v.Perm s.taken := by
  have hstart : Grows [] ⟨fun _ => Block.zero, DiskInode.reset .file, []⟩ := .reset _ _
  obtain ⟨ino', d', hg⟩ := hstart.inv.increaseSize firstCall_fresh
  have hs := hstart.increaseSize firstCall_fresh hg.runs
  obtain ⟨⟨v, ino'', hrun, hperm, -⟩, -⟩ := clear_undoes_growth hs
  exact ⟨_, hs, rfl, v, ino'', hrun, hperm⟩

end TCore.EasyFs
