/-
  TCore.EasyFs.Bitmap — the on-disk bitmaps (bitmap.rs).

  A bitmap is a run of blocks, 4096 bits each, kept as 64 words of 64 bits. `alloc` takes the
  first word that is not all ones, sets its lowest clear bit and answers the bit's number;
  `dealloc` clears a bit that must be set.

  - `dealloc_runs`: `dealloc` of a set bit clears that bit alone.
-/

import TCore.EasyFs.CacheRun

namespace TCore.EasyFs

open TCore.Lib
open Block Runs Fits Function

/-- The blocks of a device. -/
abbrev Disk := Nat → Block

structure Bitmap where
  startBlockId : Nat
  blocks : Nat
  deriving DecidableEq

/-- `u64::MAX`. -/
def u64Max : Nat := 2 ^ 64 - 1

/-- `u64::trailing_ones`. -/
def trailingOnes (v : Nat) : Nat := ((List.range 64).find? fun i => !v.testBit i).getD 64

/-- Decompose a bit into (block_pos, bits64_pos, inner_pos). -/
def decomposition (bit : Nat) : Nat × Nat × Nat := (bit / 4096, bit % 4096 / 64, bit % 4096 % 64)

namespace Bitmap

/-- The first word of the block that is not all ones. -/
def freeWord (b : Block) : Option Nat := (List.range 64).find? fun j => b.u64 j != u64Max

def allocWord (blockId : Nat) (b : Block) : Option Nat → Option Nat × Block
  | some j =>
    (some (4096 * blockId + 64 * j + trailingOnes (b.u64 j)), b.setU64 j (b.u64 j ||| 1 <<< trailingOnes (b.u64 j)))
  | none => (none, b)

/-- The closure of `alloc` on the bitmap's block number `blockId`. -/
def allocIn (blockId : Nat) (b : Block) : Option Nat × Block := allocWord blockId b (freeWord b)

/-- `n` more blocks to look at, the next of them `blockId`. -/
def allocFrom (bm : Bitmap) : Nat → Nat → Fs (Option Nat)
  | 0, _ => pure none
  | n + 1, blockId => do
    let pos ← Prog.modify (blockId + bm.startBlockId) fun b => pure (allocIn blockId b)
    if pos.isSome then pure pos else allocFrom bm n (blockId + 1)

def alloc (bm : Bitmap) : Fs (Option Nat) := bm.allocFrom bm.blocks 0

def dealloc (bm : Bitmap) (bit : Nat) : Fs Unit :=
  Prog.modify ((decomposition bit).1 + bm.startBlockId) fun b => do
    let j := (decomposition bit).2.1
    let i := (decomposition bit).2.2
    Prog.assert (0 < b.u64 j &&& 1 <<< i)
    pure ((), b.setU64 j (b.u64 j - 1 <<< i))

def maximum (bm : Bitmap) : Nat := 4096 * bm.blocks

/-- Bit `k` of the bitmap as the disk holds it. -/
def bit (bm : Bitmap) (d : Disk) (k : Nat) : Bool := (d (bm.startBlockId + k / 4096)).bit (k % 4096)

/-- The disk with one bit of the bitmap changed. -/
def put (bm : Bitmap) (d : Disk) (k : Nat) (v : Bool) : Disk :=
  let b := d (bm.startBlockId + k / 4096)
  let j := k % 4096 / 64
  Function.update d (bm.startBlockId + k / 4096)
    (b.setU64 j (if v then b.u64 j ||| 1 <<< (k % 64) else b.u64 j - 1 <<< (k % 64)))

end Bitmap

/-! ## One word -/

/-- Subtracting a power of two whose bit is set clears that bit. -/
theorem testBit_sub_two_pow {x i : Nat} (h : x.testBit i = true) (j : Nat) :
    (x - 2 ^ i).testBit j = (x.testBit j && decide (j ≠ i)) := by
  induction i generalizing x j with
  | zero =>
    rw [Nat.testBit_zero, decide_eq_true_eq] at h
    cases j with
    | zero => simp [Nat.testBit_zero]; omega
    | succ j =>
      rw [Nat.testBit_succ, Nat.testBit_succ, pow_zero, show (x - 1) / 2 = x / 2 by omega]
      simp
  | succ i ih =>
    have hge : 2 ^ (i + 1) ≤ x := Nat.ge_two_pow_of_testBit h
    rw [Nat.testBit_succ] at h
    cases j with
    | zero =>
      rw [Nat.testBit_zero, Nat.testBit_zero, pow_succ, show (x - 2 ^ i * 2) % 2 = x % 2 by omega]
      simp
    | succ j =>
      rw [Nat.testBit_succ, Nat.testBit_succ, pow_succ, show (x - 2 ^ i * 2) / 2 = x / 2 - 2 ^ i by omega, ih h j]
      simp

theorem and_one_shiftLeft_pos {x i : Nat} : 0 < x &&& 1 <<< i ↔ x.testBit i = true := by
  rw [Nat.one_shiftLeft, Nat.and_two_pow]
  cases x.testBit i <;> simp

theorem trailingOnes_spec {v : Nat} (hv : v < 2 ^ 64) (hne : v ≠ u64Max) :
    trailingOnes v < 64 ∧ v.testBit (trailingOnes v) = false ∧ ∀ i < trailingOnes v, v.testBit i = true := by
  unfold trailingOnes
  cases hf : (List.range 64).find? fun i => !v.testBit i with
  | none =>
    exfalso
    apply hne
    apply Nat.eq_of_testBit_eq
    intro i
    rw [u64Max, Nat.testBit_two_pow_sub_one]
    by_cases hi : i < 64
    · have := List.find?_range_eq_none.mp hf i hi
      simpa [hi] using this
    · rw [Nat.testBit_lt_two_pow (lt_of_lt_of_le hv (Nat.pow_le_pow_right (by omega) (by omega)))]
      simp [hi]
  | some i =>
    obtain ⟨h1, h2, h3⟩ := List.find?_range_eq_some.mp hf
    exact ⟨by simpa using h2, by simpa using h1, fun j hj => by simpa using h3 j hj⟩

variable {k : Nat}

theorem bit_of_u64_max {b : Block} {j : Nat} (h : b.u64 j = u64Max) (hk : k / 64 = j) : b.bit k = true := by
  have := testBit_u64 b j (k % 64)
  rw [h, u64Max, Nat.testBit_two_pow_sub_one, decide_eq_true (Nat.mod_lt k (by omega)), Bool.true_and,
    show 64 * j + k % 64 = k by omega] at this
  exact this.symm

/-! ## One block -/

theorem bit_setU64_or (b : Block) {n : Nat} (hn : n < 4096) :
    (b.setU64 (k / 64) (b.u64 (k / 64) ||| 1 <<< (k % 64))).bit n = (b.bit n || decide (n = k)) := by
  rw [bit_setU64 b _ hn]
  split
  · rename_i h
    rw [Nat.testBit_or, Nat.one_shiftLeft, Nat.testBit_two_pow, testBit_u64,
      decide_eq_true (Nat.mod_lt n (by omega)), Bool.true_and, show 64 * (k / 64) + n % 64 = n by omega]
    congr 1
    rw [decide_eq_decide]
    omega
  · rw [decide_eq_false (by intro e; subst e; contradiction), Bool.or_false]

theorem bit_setU64_sub (b : Block) {n : Nat} (hn : n < 4096) (hk : b.bit k = true) :
    (b.setU64 (k / 64) (b.u64 (k / 64) - 1 <<< (k % 64))).bit n = (b.bit n && decide (n ≠ k)) := by
  have htb : (b.u64 (k / 64)).testBit (k % 64) = true := by
    rw [testBit_u64, decide_eq_true (Nat.mod_lt k (by omega)), Bool.true_and,
      show 64 * (k / 64) + k % 64 = k by omega, hk]
  rw [bit_setU64 b _ hn]
  split
  · rename_i h
    rw [Nat.one_shiftLeft, testBit_sub_two_pow htb, testBit_u64, decide_eq_true (Nat.mod_lt n (by omega)),
      Bool.true_and, show 64 * (k / 64) + n % 64 = n by omega]
    congr 1
    rw [decide_eq_decide]
    omega
  · rw [decide_eq_true (by intro e; subst e; contradiction), Bool.and_true]

/-- The lowest clear bit of the first word that has one is the block's least clear bit. -/
theorem leastClear_bit {b : Block} {j : Nat} (hne : b.u64 j ≠ u64Max)
    (hmax : ∀ i < j, b.u64 i = u64Max) :
    b.bit (64 * j + trailingOnes (b.u64 j)) = false ∧ ∀ i < 64 * j + trailingOnes (b.u64 j), b.bit i = true := by
  obtain ⟨t1, t2, t3⟩ := trailingOnes_spec (u64_lt b j) hne
  generalize trailingOnes (b.u64 j) = t at t1 t2 t3 ⊢
  refine ⟨?_, fun i hi => ?_⟩
  · rwa [testBit_u64, decide_eq_true t1, Bool.true_and] at t2
  · by_cases hij : i / 64 = j
    · have := t3 (i % 64) (by omega)
      rwa [testBit_u64, decide_eq_true (Nat.mod_lt i (by omega)), Bool.true_and,
        show 64 * j + i % 64 = i by omega] at this
    · exact bit_of_u64_max (hmax (i / 64) (by omega)) rfl

namespace Bitmap

/-- One block of `alloc`: all its bits are set, or its least clear bit is taken. -/
theorem allocIn_cases (blockId : Nat) (b : Block) :
    (allocIn blockId b = (none, b) ∧ ∀ k < 4096, b.bit k = true) ∨
    ∃ k < 4096, b.bit k = false ∧ (∀ i < k, b.bit i = true) ∧
      allocIn blockId b = (some (4096 * blockId + k), b.setU64 (k / 64) (b.u64 (k / 64) ||| 1 <<< (k % 64))) := by
  cases hf : freeWord b with
  | none =>
    left
    refine ⟨by rw [allocIn, hf, allocWord], fun k hk => bit_of_u64_max (j := k / 64) ?_ rfl⟩
    simpa using List.find?_range_eq_none.mp hf (k / 64) (by omega)
  | some j =>
    right
    obtain ⟨h1, h2, h3⟩ := List.find?_range_eq_some.mp hf
    have hj : j < 64 := by simpa using h2
    have hne : b.u64 j ≠ u64Max := by simpa using h1
    obtain ⟨hc, hs⟩ := leastClear_bit hne fun i hi => by simpa using h3 i hi
    have ht := (trailingOnes_spec (u64_lt b j) hne).1
    have hin : allocIn blockId b = (some (4096 * blockId + 64 * j + trailingOnes (b.u64 j)),
        b.setU64 j (b.u64 j ||| 1 <<< trailingOnes (b.u64 j))) := by rw [allocIn, hf, allocWord]
    rw [hin]
    generalize trailingOnes (b.u64 j) = t at ht hc hs ⊢
    refine ⟨64 * j + t, by omega, hc, hs, ?_⟩
    rw [show (64 * j + t) / 64 = j by omega, show (64 * j + t) % 64 = t by omega, Nat.add_assoc]

/-! ## The bitmap -/

theorem bit_put (bm : Bitmap) (d : Disk) (v : Bool) (hk : v = false → bm.bit d k = true) (n : Nat) :
    bm.bit (bm.put d k v) n = if n = k then v else bm.bit d n := by
  unfold put bit
  by_cases hb : bm.startBlockId + n / 4096 = bm.startBlockId + k / 4096
  · simp only [hb, update_self]
    have e1 : k % 64 = k % 4096 % 64 := by omega
    have e2 : (n = k) ↔ n % 4096 = k % 4096 := by omega
    rw [e1]
    cases v with
    | true =>
      rw [if_pos rfl, bit_setU64_or _ (by omega)]
      by_cases e : n % 4096 = k % 4096
      · rw [if_pos (e2.mpr e)]; simp [e]
      · rw [if_neg (fun h => e (e2.mp h))]; simp [e]
    | false =>
      rw [if_neg (by simp), bit_setU64_sub _ (by omega) (hk rfl)]
      by_cases e : n % 4096 = k % 4096
      · rw [if_pos (e2.mpr e)]; simp [e]
      · rw [if_neg (fun h => e (e2.mp h))]; simp [e]
  · have hne : n ≠ k := by intro e; subst e; exact hb rfl
    simp only [update_of_ne hb, if_neg hne]

theorem put_ne (bm : Bitmap) (d : Disk) (v : Bool) {b : Nat} (h : b ≠ bm.startBlockId + k / 4096) :
    bm.put d k v b = d b := by
  unfold put
  exact update_of_ne h _ _

variable {L : List Nat} {d : Disk}

section

variable (bm : Bitmap)
include bm

/-- The turn of `alloc` for one block of the bitmap. -/
theorem allocIn_runs {blockId : Nat} (hL : blockId + bm.startBlockId ∉ L) {r : Option Nat} {b : Block}
    (h : allocIn blockId (d (blockId + bm.startBlockId)) = (r, b)) :
    Runs (Prog.modify (blockId + bm.startBlockId) fun b => pure (allocIn blockId b)) L d r
      (update d (blockId + bm.startBlockId) b) := by
  refine modify hL ?_
  show Runs (pure (allocIn blockId (d (blockId + bm.startBlockId)))) _ _ _ _
  rw [h]
  exact ret _

theorem bit_block {blockId i : Nat} (hi : i < 4096) : bm.bit d (4096 * blockId + i) = (d (blockId + bm.startBlockId)).bit i := by
  rw [bit, show (4096 * blockId + i) / 4096 = blockId by omega, show (4096 * blockId + i) % 4096 = i by omega, Nat.add_comm]

theorem put_block {blockId t : Nat} (ht : t < 4096) : bm.put d (4096 * blockId + t) true =
    update d (blockId + bm.startBlockId) ((d (blockId + bm.startBlockId)).setU64 (t / 64)
      ((d (blockId + bm.startBlockId)).u64 (t / 64) ||| 1 <<< (t % 64))) := by
  unfold put
  rw [show bm.startBlockId + (4096 * blockId + t) / 4096 = blockId + bm.startBlockId by omega,
    show (4096 * blockId + t) % 4096 = t by omega, show (4096 * blockId + t) % 64 = t % 64 by omega]
  simp

/-- `n` blocks of `alloc`: all their bits are set, or their least clear bit is taken. -/
theorem allocFrom_cases (n : Nat) {blockId : Nat} (hL : ∀ i < n, blockId + i + bm.startBlockId ∉ L) :
    ((∀ i, 4096 * blockId ≤ i → i < 4096 * (blockId + n) → bm.bit d i = true) ∧
      Runs (bm.allocFrom n blockId) L d none d) ∨
    ∃ k < 4096 * (blockId + n), bm.bit d k = false ∧ (∀ i, 4096 * blockId ≤ i → i < k → bm.bit d i = true) ∧
      Runs (bm.allocFrom n blockId) L d (some k) (bm.put d k true) := by
  induction n generalizing blockId with
  | zero => exact .inl ⟨fun i h1 h2 => by omega, ret _⟩
  | succ n ih =>
    have hnl : blockId + bm.startBlockId ∉ L := hL 0 (by omega)
    unfold allocFrom
    rcases allocIn_cases blockId (d (blockId + bm.startBlockId)) with ⟨hin, hall⟩ | ⟨t, ht, hc, hs, hin⟩
    · -- a full block: the least clear bit lies further on
      have hsame := allocIn_runs bm hnl hin
      rw [update_eq_self] at hsame
      have hfull : ∀ i, 4096 * blockId ≤ i → i < 4096 * (blockId + 1) → bm.bit d i = true := by
        intro i h1 h2
        rw [show i = 4096 * blockId + (i - 4096 * blockId) by omega, bit_block bm (by omega)]
        exact hall _ (by omega)
      have hL' : ∀ i < n, blockId + 1 + i + bm.startBlockId ∉ L := fun i hi => by
        rw [show blockId + 1 + i = blockId + (i + 1) by omega]
        exact hL (i + 1) (by omega)
      rcases ih hL' with ⟨hrest, hrun⟩ | ⟨k, hk, hclear, hset, hrun⟩
      · refine .inl ⟨fun i h1 h2 => ?_, bind hsame ?_⟩
        · by_cases hi : i < 4096 * (blockId + 1)
          · exact hfull i h1 hi
          · exact hrest i (by omega) (by omega)
        · rwa [if_neg (by simp)]
      · refine .inr ⟨k, by omega, hclear, fun i h1 h2 => ?_, bind hsame ?_⟩
        · by_cases hi : i < 4096 * (blockId + 1)
          · exact hfull i h1 hi
          · exact hset i (by omega) h2
        · rwa [if_neg (by simp)]
    · refine .inr ⟨4096 * blockId + t, by omega, by rwa [bit_block bm ht], fun i h1 h2 => ?_, ?_⟩
      · rw [show i = 4096 * blockId + (i - 4096 * blockId) by omega, bit_block bm (by omega)]
        exact hs _ (by omega)
      · rw [put_block bm ht]
        refine bind (allocIn_runs bm hnl hin) ?_
        rw [if_pos (by simp)]
        exact ret _

section

variable (hL : ∀ i < bm.blocks, bm.startBlockId + i ∉ L)
include hL

theorem alloc_cases : ((∀ i < bm.maximum, bm.bit d i = true) ∧ Runs bm.alloc L d none d) ∨
    ∃ k < bm.maximum, bm.bit d k = false ∧ (∀ i < k, bm.bit d i = true) ∧ Runs bm.alloc L d (some k) (bm.put d k true) := by
  have hcases := allocFrom_cases (d := d) (L := L) bm bm.blocks  fun i hi => by
    rw [Nat.zero_add, Nat.add_comm]
    exact hL i hi
  simp only [Nat.mul_zero, Nat.zero_le, true_imp_iff, Nat.zero_add] at hcases
  exact hcases

/-- `alloc` takes the least clear bit. -/
theorem alloc_runs (hk : k < bm.maximum) (hclear : bm.bit d k = false) (hset : ∀ i < k, bm.bit d i = true) :
    Runs bm.alloc L d (some k) (bm.put d k true) := by
  rcases alloc_cases bm (d := d) hL with ⟨hall, -⟩ | ⟨k', -, hclear', hset', hrun⟩
  · rw [hall k hk] at hclear
    cases hclear
  · rcases Nat.lt_trichotomy k k' with hlt | rfl | hgt
    · rw [hset' k hlt] at hclear
      cases hclear
    · exact hrun
    · rw [hset k' hgt] at hclear'
      cases hclear'

theorem alloc_full (hset : ∀ i < bm.maximum, bm.bit d i = true) : Runs bm.alloc L d none d := by
  rcases alloc_cases bm (d := d) hL with ⟨-, hrun⟩ | ⟨k, hk, hclear, -⟩
  · exact hrun
  · rw [hset k hk] at hclear
    cases hclear

end

theorem dealloc_runs (hL : bm.startBlockId + k / 4096 ∉ L)
    (hset : bm.bit d k = true) : Runs (bm.dealloc k) L d () (bm.put d k false) := by
  have hadr : (decomposition k).1 + bm.startBlockId = bm.startBlockId + k / 4096 := Nat.add_comm _ _
  have hput : bm.put d k false = update d ((decomposition k).1 + bm.startBlockId)
      ((d ((decomposition k).1 + bm.startBlockId)).setU64 (decomposition k).2.1
        ((d ((decomposition k).1 + bm.startBlockId)).u64 (decomposition k).2.1 - 1 <<< (decomposition k).2.2)) := by
    unfold put
    rw [hadr]
    simp only [decomposition, Bool.false_eq_true, if_false]
    rw [show k % 4096 % 64 = k % 64 by omega]
  rw [hput]
  refine modify (by rw [hadr]; exact hL) (bind (assert ?_) (ret _))
  rw [and_one_shiftLeft_pos, hadr, decomposition, testBit_u64, decide_eq_true (Nat.mod_lt _ (by omega)),
    Bool.true_and, show 64 * (k % 4096 / 64) + k % 4096 % 64 = k % 4096 by omega]
  exact hset

/-! ## Locks -/

theorem allocFrom_fits {c h : Nat} (hc : h < c) (n blockId : Nat) :
    Fits c h (bm.allocFrom n blockId) h := by
  induction n generalizing blockId with
  | zero => exact ret _
  | succ n ih =>
    refine bind (modify hc fun b => ret _) fun pos => ?_
    split
    · exact ret _
    · exact ih _

theorem alloc_fits {c h : Nat} (hc : h < c) : Fits c h bm.alloc h := allocFrom_fits bm hc _ _

theorem dealloc_fits {c h : Nat} (hc : h < c) (k : Nat) : Fits c h (bm.dealloc k) h :=
  modify hc fun _ => bind (assert _) fun _ => ret _

end

end Bitmap

end TCore.EasyFs
