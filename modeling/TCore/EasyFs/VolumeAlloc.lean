/-
  TCore.EasyFs.VolumeAlloc — taking and giving back blocks and inodes of a volume.

  - `deallocBlocks_runs`: `dealloc_data` clears the blocks given back and their bits.
  - `allocInode_runs`: `alloc_inode` answers the first inode number not in use.
-/

import TCore.EasyFs.Volume

namespace TCore.EasyFs

open TCore.Lib
open List UInt32 Bitmap EasyFs.Geometry EasyFileSystem Finset Function

variable {k : Nat}

namespace Geometry

variable (g : Geometry)

/-- A block of the data bitmap. -/
def inDataBitmap (x : Nat) : Prop := 1 + 1025 * g.inodeBitmapBlocks ≤ x ∧ x < g.dataStart

/-- The free blocks of the data area. -/
def freeBlocks (d : Disk) : Finset Nat := (Finset.range g.dataAreaBlocks).filter fun k => g.used d k = false

/-- How many data blocks are free. -/
def free (d : Disk) : Nat := (g.freeBlocks d).card

/-- The number of data block `k`. -/
def blockId (k : Nat) : UInt32 := UInt32.ofNat (g.dataStart + k)

variable {g} {d d' : Disk} {L : List Nat}

theorem blockId_toNat (hk : k < g.dataAreaBlocks) : (g.blockId k).toNat = g.dataStart + k := by
  have := g.numbered
  refine toNat_ofNat_of_lt' ?_
  simp only [dataStart, size]
  omega

/-- The bits just past those of the data area stand for blocks past the end of the device, or, when
    the number wraps around, for the first two blocks. -/
theorem blockId_spare (hk : g.dataAreaBlocks ≤ k) (hnear : k < g.dataAreaBlocks + 3) :
    g.totalBlocks ≤ (g.blockId k).toNat ∨ (g.blockId k).toNat < 2 := by
  have := g.numbered
  rw [blockId, toNat_ofNat']
  simp only [totalBlocks, dataStart]
  omega

theorem blockId_inj {k' : Nat} (hk : k < g.dataAreaBlocks + 3) (hk' : k' < g.dataAreaBlocks + 3)
    (h : g.blockId k = g.blockId k') : k = k' := by
  have hnum := g.numbered
  have := congrArg toNat h
  rw [blockId, blockId, toNat_ofNat', toNat_ofNat'] at this
  have hsome := g.some_inode
  omega

theorem mem_freeBlocks : k ∈ g.freeBlocks d ↔ k < g.dataAreaBlocks ∧ g.used d k = false := by
  rw [freeBlocks, Finset.mem_filter, Finset.mem_range]

theorem inDataBitmap_of_lt (hk : k < 4096 * g.dataBitmapBlocks) :
    g.inDataBitmap (g.dataBitmap.startBlockId + k / 4096) := by
  simp only [inDataBitmap, dataBitmap, dataStart]
  omega

theorem used_congr (h : ∀ x, g.inDataBitmap x → d' x = d x) (hk : k < 4096 * g.dataBitmapBlocks) :
    g.used d' k = g.used d k := by
  unfold used bit
  rw [h _ (inDataBitmap_of_lt hk)]

/-- Writing a data block leaves the bitmap alone. -/
theorem used_update (hk : k < 4096 * g.dataBitmapBlocks) (b : Block) (i : Nat) :
    g.used (update d (g.dataStart + i) b) k = g.used d k := by
  have hne : ∀ x, g.inDataBitmap x → update d (g.dataStart + i) b x = d x := by
    intro x hx
    have := hx.2
    rw [update_of_ne (by omega)]
  exact used_congr hne hk

theorem used_put (k : Nat) (v : Bool) (hk : v = false → g.used d k = true) (n : Nat) :
    g.used (g.dataBitmap.put d k v) n = if n = k then v else g.used d n := bit_put _ _ _ hk n

theorem put_outside (hk : k < 4096 * g.dataBitmapBlocks) (v : Bool) {x : Nat} (hx : ¬g.inDataBitmap x) :
    g.dataBitmap.put d k v x = d x := by
  refine put_ne _ _ _ fun e => hx ?_
  rw [e]
  exact inDataBitmap_of_lt hk

end Geometry

section
variable {g : Geometry} {d : Disk} {L : List Nat}

/-! ## Data blocks -/

/-- The bits `ks` are set now; they were the first ones that were clear. -/
structure Took (g : Geometry) (d : Disk) (ks : List Nat) (d' : Disk) : Prop where
  nodup : ks.Nodup
  clear : ∀ k ∈ ks, k < 4096 * g.dataBitmapBlocks ∧ g.used d k = false
  first : ∀ k ∈ ks, ∀ j < k, g.used d j = false → j ∈ ks
  outside : ∀ x, ¬g.inDataBitmap x → d' x = d x
  bits : ∀ k, g.used d' k = (g.used d k || decide (k ∈ ks))

theorem dataBitmap_unlocked (hL : ∀ x ∈ L, ¬g.inDataBitmap x) :
    ∀ i < g.dataBitmap.blocks, g.dataBitmap.startBlockId + i ∉ L := by
  intro i hi hmem
  refine hL _ hmem ?_
  simp only [Geometry.dataBitmap] at hi
  simp only [Geometry.inDataBitmap, Geometry.dataBitmap, Geometry.dataStart]
  omega

/-- The data bitmap answers its first clear bit, or `None` if there is none. -/
theorem allocBit_cases (hL : ∀ x ∈ L, ¬g.inDataBitmap x) :
    (∃ k < 4096 * g.dataBitmapBlocks, g.used d k = false ∧ (∀ j < k, g.used d j = true) ∧
      Runs g.dataBitmap.alloc L d (some k) (g.dataBitmap.put d k true)) ∨
    (∀ k < 4096 * g.dataBitmapBlocks, g.used d k = true) ∧ Runs g.dataBitmap.alloc L d none d :=
  (alloc_cases _ (dataBitmap_unlocked hL)).symm

theorem allocData_takes {d' : Disk} (halloc : Runs g.dataBitmap.alloc L d (some k) d') :
    Runs g.efs.allocData L d (g.blockId k) d' := by
  refine Runs.bind halloc (Runs.bind (Runs.unwrap _) ?_)
  rw [blockId, Nat.add_comm, ofNat_add]
  exact Runs.ret _

theorem allocData_out {d' : Disk} (halloc : Runs g.dataBitmap.alloc L d none d') :
    exec g.efs.allocData ⟨d, L⟩ = none := by
  have halloc : Runs g.efs.dataBitmap.alloc L d none d' := halloc
  rw [allocData, halloc.exec_bind]
  rfl

theorem free_put : g.free d ≤ g.free (g.dataBitmap.put d k true) + 1 := by
  have hset : g.freeBlocks (g.dataBitmap.put d k true) = (g.freeBlocks d).erase k := by
    ext n
    rw [mem_erase, mem_freeBlocks, mem_freeBlocks, used_put _ _ (by simp)]
    by_cases hn : n = k
    · simp [hn]
    · simp [hn]
  have := pred_card_le_card_erase (s := g.freeBlocks d) (a := k)
  rw [free, free, hset]
  omega

namespace Took

variable {ks : List Nat} {d' : Disk} {k : Nat}

theorem nil (g : Geometry) (d : Disk) : Took g d [] d := ⟨nodup_nil, by simp, by simp, fun _ _ => rfl, by simp⟩

theorem cons (h : Took g (g.dataBitmap.put d k true) ks d') (hk : k < 4096 * g.dataBitmapBlocks)
    (hclear : g.used d k = false) (hset : ∀ j < k, g.used d j = true) : Took g d (k :: ks) d' := by
  have hused : ∀ i, g.used (g.dataBitmap.put d k true) i = if i = k then true else g.used d i :=
    used_put k true (by simp)
  have hold : ∀ i ∈ ks, i ≠ k ∧ g.used d i = false := by
    intro i hi
    have := (h.clear i hi).2
    rw [hused, Bool.ite_eq_false_distrib] at this
    by_cases hik : i = k
    · simp [hik] at this
    · rw [if_neg hik] at this
      exact ⟨hik, this⟩
  refine ⟨nodup_cons.mpr ⟨fun hmem => (hold k hmem).1 rfl, h.nodup⟩, ?_, ?_, ?_, ?_⟩
  · intro i hi
    rcases mem_cons.mp hi with rfl | hi
    · exact ⟨hk, hclear⟩
    · exact ⟨(h.clear i hi).1, (hold i hi).2⟩
  · intro i hi j hj hclear'
    rcases mem_cons.mp hi with rfl | hi
    · rw [hset j hj] at hclear'
      cases hclear'
    · by_cases hjk : j = k
      · rw [hjk]
        exact mem_cons_self
      · refine mem_cons_of_mem _ (h.first i hi j hj ?_)
        rw [hused, if_neg hjk, hclear']
  · intro x hx
    rw [h.outside x hx, put_outside hk true hx]
  · intro i
    rw [h.bits, hused]
    by_cases hik : i = k
    · simp [hik]
    · simp [hik]

/-- The bits taken all stand for blocks of the data area exactly when that many blocks were free. -/
theorem lt_iff (h : Took g d ks d') : (∀ k ∈ ks, k < g.dataAreaBlocks) ↔ ks.length ≤ g.free d := by
  rw [← toFinset_card_of_nodup h.nodup, free]
  constructor
  · intro hlt
    refine card_le_card fun k hk => ?_
    rw [mem_toFinset] at hk
    exact mem_freeBlocks.mpr ⟨hlt k hk, (h.clear k hk).2⟩
  · intro hle k hk
    -- otherwise every free block was taken before bit `k`
    by_contra hn
    have hsub : insert k (g.freeBlocks d) ⊆ ks.toFinset := by
      intro j hj
      rw [mem_toFinset]
      rcases mem_insert.mp hj with rfl | hj
      · exact hk
      · obtain ⟨hj, hclear⟩ := mem_freeBlocks.mp hj
        exact h.first k hk j (by omega) hclear
    have hcard := card_le_card hsub
    rw [card_insert_of_notMem fun hmem => hn (mem_freeBlocks.mp hmem).1] at hcard
    omega

end Took

/-- `n` turns of `alloc_data` take the first `n` clear bits, or there are not that many. -/
theorem allocBlocks_cases (n : Nat) (hL : ∀ x ∈ L, ¬g.inDataBitmap x) :
    (∃ ks d', Runs (allocBlocks g.efs n) L d (ks.map g.blockId) d' ∧ ks.length = n ∧ Took g d ks d') ∨
      exec (allocBlocks g.efs n) ⟨d, L⟩ = none ∧ g.free d < n := by
  induction n generalizing d with
  | zero => exact Or.inl ⟨[], d, Runs.ret _, rfl, Took.nil g d⟩
  | succ n ih =>
    rcases allocBit_cases (d := d) hL with ⟨k, hk, hclear, hset, halloc⟩ | ⟨hset, halloc⟩
    · rcases ih (d := g.dataBitmap.put d k true) with ⟨ks, d', hruns, hlen, htook⟩ | ⟨hnone, hfew⟩
      · refine Or.inl ⟨k :: ks, d', Runs.bind (allocData_takes halloc) (Runs.bind hruns (Runs.ret _)), ?_,
          htook.cons hk hclear hset⟩
        rw [length_cons, hlen]
      · refine Or.inr ⟨?_, ?_⟩
        · rw [allocBlocks, (allocData_takes halloc).exec_bind, exec_bind, hnone]
          rfl
        · have := free_put (g := g) (d := d) (k := k)
          omega
    · refine Or.inr ⟨?_, ?_⟩
      · rw [allocBlocks, exec_bind, allocData_out halloc]
        rfl
      · have hfree : g.freeBlocks d = ∅ := by
          refine eq_empty_of_forall_notMem fun k hk => ?_
          obtain ⟨hk, hclear⟩ := mem_freeBlocks.mp hk
          have hcov := g.covered
          rw [hset k (by omega)] at hclear
          cases hclear
        rw [free, hfree, card_empty]
        omega

theorem allocBlocks_runs (n : Nat) (hL : ∀ x ∈ L, ¬g.inDataBitmap x) (hfree : n ≤ g.free d) :
    ∃ (ks : List Nat) (d' : Disk), Runs (allocBlocks g.efs n) L d (ks.map g.blockId) d' ∧ ks.length = n ∧ Took g d ks d' ∧
      ∀ k ∈ ks, k < g.dataAreaBlocks := by
  rcases allocBlocks_cases (d := d) n hL with ⟨ks, d', hruns, hlen, htook⟩ | ⟨-, hfew⟩
  · exact ⟨ks, d', hruns, hlen, htook, htook.lt_iff.mpr (by omega)⟩
  · omega

theorem deallocData_runs (hL : ∀ x ∈ L, x < 1 + 1025 * g.inodeBitmapBlocks) (hk : k < g.dataAreaBlocks)
    (hu : g.used d k = true) : Runs (g.efs.deallocData (g.blockId k)) L d ()
      (g.dataBitmap.put (update d (g.dataStart + k) Block.zero) k false) := by
  have hcov := g.covered
  have hnum := g.numbered
  have hsub : (g.blockId k - g.efs.dataAreaStartBlock).toNat = k := by
    have h1 := blockId_toNat hk
    have h2 : g.efs.dataAreaStartBlock.toNat = g.dataStart := by
      have := blockId_toNat (g := g) (k := 0) (by omega)
      exact this
    rw [UInt32.toNat_sub_of_le _ _ (by rw [UInt32.le_iff_toNat_le]; omega)]
    omega
  refine Runs.bind (Runs.modify (fun hmem => ?_) (Runs.ret _)) ?_
  · have := hL _ hmem
    rw [blockId_toNat hk] at this
    simp only [dataStart] at this
    omega
  · rw [hsub, blockId_toNat hk]
    refine dealloc_runs _ (fun hmem => ?_) ?_
    · have := hL _ hmem
      simp only [Geometry.efs, Geometry.dataBitmap] at this
      omega
    · exact (used_update (by omega) _ k).trans hu

theorem deallocBlocks_runs (hL : ∀ x ∈ L, x < 1 + 1025 * g.inodeBitmapBlocks) (ks : List Nat) (hnd : ks.Nodup)
    (hks : ∀ k ∈ ks, k < g.dataAreaBlocks ∧ g.used d k = true) :
    ∃ d', Runs (deallocBlocks g.efs (ks.map g.blockId)) L d () d' ∧
      (∀ x, ¬g.inDataBitmap x → (∀ k ∈ ks, x ≠ g.dataStart + k) → d' x = d x) ∧
      (∀ k ∈ ks, d' (g.dataStart + k) = Block.zero) ∧
      ∀ k < 4096 * g.dataBitmapBlocks, g.used d' k = (g.used d k && decide (k ∉ ks)) := by
  induction ks generalizing d with
  | nil => exact ⟨d, Runs.ret _, fun _ _ _ => rfl, by simp, by simp⟩
  | cons k ks ih =>
    obtain ⟨hk, hu⟩ := hks k mem_cons_self
    obtain ⟨hnot, hnd'⟩ := nodup_cons.mp hnd
    have hfar : ∀ i, ¬g.inDataBitmap (g.dataStart + i) := fun i h => by have := h.2; omega
    generalize hd1 : update d (g.dataStart + k) Block.zero = d1
    have hu1 : ∀ i < 4096 * g.dataBitmapBlocks, g.used d1 i = g.used d i := by
      intro i hi
      rw [← hd1]
      exact used_update hi _ k
    have hcov := g.covered
    have hu2 : ∀ i, g.used (g.dataBitmap.put d1 k false) i = if i = k then false else g.used d1 i :=
      used_put k false fun _ => by rw [hu1 k (by omega), hu]
    have hrun := deallocData_runs hL hk hu
    rw [hd1] at hrun
    obtain ⟨d', hruns, hout, hzero, hbits⟩ := ih (d := g.dataBitmap.put d1 k false) hnd' fun i hi => by
      obtain ⟨h1, h2⟩ := hks i (mem_cons_of_mem _ hi)
      refine ⟨h1, ?_⟩
      rw [hu2, if_neg (show ¬i = k from fun e => hnot (e ▸ hi)), hu1 i (by omega), h2]
    refine ⟨d', Runs.bind hrun hruns, ?_, ?_, ?_⟩
    · intro x hx hne
      rw [hout x hx fun i hi => hne i (mem_cons_of_mem _ hi), put_outside (by omega) _ hx, ← hd1,
        update_of_ne (hne k mem_cons_self)]
    · intro i hi
      rcases mem_cons.mp hi with rfl | hi
      · rw [hout _ (hfar i) fun j hj e => hnot (by rwa [show i = j by omega]), put_outside (by omega) _ (hfar i), ← hd1,
          update_self]
      · exact hzero i hi
    · intro i hi
      rw [hbits i hi, hu2, hu1 i hi]
      by_cases hik : i = k
      · simp [hik]
      · simp [hik]

/-! ## Inodes -/

variable {m : Nat}

theorem allocInode_runs (h : FsInv g d m) (hroom : m < 4096 * g.inodeBitmapBlocks) :
    Runs g.efs.allocInode [] d (ofNat m) (g.inodeBitmap.put d m true) := by
  have halloc : Runs g.inodeBitmap.alloc [] d (some m) (g.inodeBitmap.put d m true) := by
    refine alloc_runs _ (by simp) hroom ?_ fun i hi => ?_
    · rw [h.inodes m hroom]; simp
    · rw [h.inodes i (by omega)]; simp [hi]
  exact Runs.bind halloc (Runs.bind (Runs.unwrap _) (Runs.ret _))

theorem inodeAt_ofNat {i : Nat} (hi : i < 4096 * g.inodeBitmapBlocks) (h32 : i < 2 ^ 32) :
    g.efs.inodeAt (UInt32.ofNat i) = g.handle i := by
  have hnum := g.numbered
  simp only [inodeAt, getDiskInodePos, handle, efs, inodeStart]
  have h1 : (ofNat i).toNat = i := toNat_ofNat_of_lt' h32
  have h2 : (ofNat (1 + g.inodeBitmapBlocks)).toNat = 1 + g.inodeBitmapBlocks :=
    toNat_ofNat_of_lt' (by simp only [size]; omega)
  rw [UInt32.toNat_add, UInt32.toNat_div, UInt32.toNat_mod, h1, h2, show UInt32.toNat 4 = 4 from rfl]
  congr 1
  omega

end

end TCore.EasyFs
