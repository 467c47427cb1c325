/-
  TCore.EasyFs.BitmapSet — a bitmap is a set of ids in use.

  The live ids of a bitmap are its set bits. `BitmapOp` are the calls, `liveStep` says what a call does
  to the set: `alloc` takes the least id that is free, `dealloc` gives back one that is in use and panics
  on any other.
-/

import TCore.EasyFs.Bitmap

namespace TCore.EasyFs

open TCore.Lib
open Option Bitmap

inductive BitmapOp where
  | alloc
  | dealloc (bit : Nat)

/-- A call, answering what `alloc` gives. -/
def BitmapOp.prog (bm : Bitmap) : BitmapOp → Fs (Option Nat)
  | .alloc => bm.alloc
  | .dealloc bit => do
    bm.dealloc bit
    pure none

/-- The answers of a sequence of calls, and the disk after it. -/
def Bitmap.runOps (bm : Bitmap) : List BitmapOp → Disk → Option (List (Option Nat) × Disk)
  | [], d => some ([], d)
  | op :: ops, d =>
    (exec (op.prog bm) ⟨d, []⟩).bind fun (a, s) => (bm.runOps ops s.val).map fun (as, d') => (a :: as, d')

/-! ## The set -/

/-- The bits that are set. -/
def Bitmap.live (bm : Bitmap) (d : Disk) : Finset Nat := (Finset.range bm.maximum).filter fun k => bm.bit d k = true

def leastFree (n : Nat) (live : Finset Nat) : Option Nat := (List.range n).find? fun k => k ∉ live

def liveStep (n : Nat) : BitmapOp → Finset Nat → Option (Option Nat × Finset Nat)
  | .alloc, live => some (leastFree n live, (leastFree n live).elim live (insert · live))
  | .dealloc bit, live => if bit ∈ live then some (none, live.erase bit) else none

def liveRun (n : Nat) : List BitmapOp → Finset Nat → Option (List (Option Nat) × Finset Nat)
  | [], live => some ([], live)
  | op :: ops, live => (liveStep n op live).bind fun (a, live) => (liveRun n ops live).map fun (as, live') => (a :: as, live')

/-- From `d` to `d'` one bit has changed and is now `v`. -/
structure OnlyBit (bm : Bitmap) (d : Disk) (k : Nat) (v : Bool) (d' : Disk) : Prop where
  changed : bm.bit d k = !v
  now : bm.bit d' k = v
  bits : ∀ i, i ≠ k → bm.bit d' i = bm.bit d i
  blocks : ∀ x, x ≠ bm.startBlockId + k / 4096 → d' x = d x

variable {bm : Bitmap} {d d' : Disk} {k n : Nat} {live : Finset Nat}

theorem mem_live : k ∈ bm.live d ↔ k < bm.maximum ∧ bm.bit d k = true := by
  rw [live, Finset.mem_filter, Finset.mem_range]

theorem leastFree_eq_some : leastFree n live = some k ↔ k < n ∧ k ∉ live ∧ ∀ i < k, i ∈ live := by
  rw [leastFree, List.find?_range_eq_some]
  simp only [decide_eq_true_eq, List.mem_range, Bool.not_eq_eq_eq_not, Bool.not_true, decide_eq_false_iff_not, not_not]
  tauto

theorem leastFree_eq_none : leastFree n live = none ↔ ∀ i < n, i ∈ live := by
  rw [leastFree, List.find?_range_eq_none]
  simp

theorem put_onlyBit {v : Bool} (h : bm.bit d k = !v) : OnlyBit bm d k v (bm.put d k v) := by
  have hk : v = false → bm.bit d k = true := by
    rintro rfl
    exact h
  refine ⟨h, ?_, ?_, ?_⟩
  · rw [bit_put bm d v hk, if_pos rfl]
  · intro i hi
    rw [bit_put bm d v hk, if_neg hi]
  · intro x hx
    exact put_ne bm d v hx

theorem OnlyBit.live_set (h : OnlyBit bm d k true d') (hk : k < bm.maximum) : bm.live d' = insert k (bm.live d) := by
  ext i
  rw [Finset.mem_insert, mem_live, mem_live]
  by_cases hi : i = k
  · subst hi
    simp [hk, h.now]
  · rw [h.bits i hi]
    simp [hi]

theorem OnlyBit.live_clear (h : OnlyBit bm d k false d') : bm.live d' = (bm.live d).erase k := by
  ext i
  rw [Finset.mem_erase, mem_live, mem_live]
  by_cases hi : i = k
  · subst hi
    simp [h.now]
  · rw [h.bits i hi]
    simp [hi]

/-! ## The calls -/

theorem alloc_some (h : leastFree bm.maximum (bm.live d) = some k) :
    ∃ d', Runs bm.alloc [] d (some k) d' ∧ OnlyBit bm d k true d' := by
  obtain ⟨hk, hfree, hbelow⟩ := leastFree_eq_some.mp h
  have hclear : bm.bit d k = false := by
    rw [mem_live] at hfree
    simpa [hk] using hfree
  refine ⟨_, bm.alloc_runs (by simp) hk hclear ?_, put_onlyBit hclear⟩
  intro i hi
  exact (mem_live.mp (hbelow i hi)).2

theorem alloc_none (h : leastFree bm.maximum (bm.live d) = none) : Runs bm.alloc [] d none d := by
  apply bm.alloc_full (by simp)
  intro i hi
  exact (mem_live.mp (leastFree_eq_none.mp h i hi)).2

theorem dealloc_set (h : bm.bit d k = true) : ∃ d', Runs (bm.dealloc k) [] d () d' ∧ OnlyBit bm d k false d' :=
  ⟨_, bm.dealloc_runs (by simp) h, put_onlyBit h⟩

theorem dealloc_panics (h : bm.bit d k = false) : exec (bm.dealloc k) ⟨d, []⟩ = none := by
  have hadr : (decomposition k).1 + bm.startBlockId = bm.startBlockId + k / 4096 := Nat.add_comm _ _
  apply exec_modify_none (by simp)
  have hbit : ¬0 < (d ((decomposition k).1 + bm.startBlockId)).u64 (decomposition k).2.1 &&& 1 <<< (decomposition k).2.2 := by
    have hsplit : 64 * (k % 4096 / 64) + k % 4096 % 64 = k % 4096 := Nat.div_add_mod _ _
    rw [and_one_shiftLeft_pos, hadr, decomposition, Block.testBit_u64, hsplit]
    rw [bit] at h
    simp [h]
  rw [exec_bind, Prog.assert, if_neg hbit]
  rfl

/-- One call does to the disk what it does to the set. -/
theorem op_live (op : BitmapOp) (hop : ∀ bit, op = .dealloc bit → bit < bm.maximum) :
    (exec (op.prog bm) ⟨d, []⟩).map (fun r => (r.1, bm.live r.2.val)) = liveStep bm.maximum op (bm.live d) := by
  cases op with
  | alloc =>
    rw [liveStep]
    cases hfree : leastFree bm.maximum (bm.live d) with
    | none =>
      have hrun : exec (BitmapOp.alloc.prog bm) ⟨d, []⟩ = some (none, ⟨d, []⟩) := alloc_none hfree
      rw [hrun]
      rfl
    | some k =>
      obtain ⟨d', halloc, hbit⟩ := alloc_some hfree
      have hrun : exec (BitmapOp.alloc.prog bm) ⟨d, []⟩ = some (some k, ⟨d', []⟩) := halloc
      rw [hrun, map_some, hbit.live_set (leastFree_eq_some.mp hfree).1]
      rfl
  | dealloc bit =>
    have hlt := hop bit rfl
    rw [liveStep]
    by_cases hset : bm.bit d bit = true
    · obtain ⟨d', hdealloc, hbit⟩ := dealloc_set hset
      have hrun : exec ((BitmapOp.dealloc bit).prog bm) ⟨d, []⟩ = some (none, ⟨d', []⟩) := Runs.bind hdealloc (Runs.ret _)
      rw [hrun, map_some, hbit.live_clear, if_pos (mem_live.mpr ⟨hlt, hset⟩)]
    · have hclear : bm.bit d bit = false := by simpa using hset
      have hrun : exec ((BitmapOp.dealloc bit).prog bm) ⟨d, []⟩ = none := by
        rw [BitmapOp.prog, exec_bind, dealloc_panics hclear]
        rfl
      rw [hrun, if_neg fun hmem => hset (mem_live.mp hmem).2]
      rfl

theorem runOps_live (ops : List BitmapOp) (hops : ∀ bit, .dealloc bit ∈ ops → bit < bm.maximum) :
    (bm.runOps ops d).map (fun r => (r.1, bm.live r.2)) = liveRun bm.maximum ops (bm.live d) := by
  induction ops generalizing d with
  | nil => rfl
  | cons op ops ih =>
    have hstep := op_live (d := d) op fun bit h => hops bit (h ▸ List.mem_cons_self)
    rw [runOps, liveRun, ← hstep]
    cases exec (op.prog bm) ⟨d, []⟩ with
    | none => rfl
    | some r =>
      obtain ⟨a, s⟩ := r
      rw [bind_some, map_some, bind_some]
      dsimp only
      rw [← ih fun bit h => hops bit (List.mem_cons_of_mem _ h)]
      cases bm.runOps ops s.val <;> rfl

/-- `alloc` takes the least clear bit, or answers `None` if there is none; `dealloc` clears a set bit and
panics on a clear one; and a sequence of calls is a run of the set of live ids. -/
theorem bitmap_exact (bm : Bitmap) (d : Disk) :
    (∀ k, leastFree bm.maximum (bm.live d) = some k ↔
      k < bm.maximum ∧ bm.bit d k = false ∧ ∀ i < k, bm.bit d i = true) ∧
    (∀ k, leastFree bm.maximum (bm.live d) = some k →
      ∃ d', Runs bm.alloc [] d (some k) d' ∧ OnlyBit bm d k true d' ∧ k ∉ bm.live d) ∧
    (Runs bm.alloc [] d none d ↔ ∀ k < bm.maximum, bm.bit d k = true) ∧
    (∀ k, bm.bit d k = true → ∃ d', Runs (bm.dealloc k) [] d () d' ∧ OnlyBit bm d k false d') ∧
    (∀ k, bm.bit d k = false → exec (bm.dealloc k) ⟨d, []⟩ = none) ∧
    (∀ ops, (∀ bit, .dealloc bit ∈ ops → bit < bm.maximum) →
      (bm.runOps ops d).map (fun r => (r.1, bm.live r.2)) = liveRun bm.maximum ops (bm.live d)) := by
  refine ⟨?_, ?_, ?_, fun k => dealloc_set, fun k => dealloc_panics, fun ops => runOps_live ops⟩
  · intro k
    rw [leastFree_eq_some, mem_live]
    refine ⟨fun ⟨hk, hfree, hbelow⟩ => ⟨hk, by simpa [hk] using hfree, fun i hi => (mem_live.mp (hbelow i hi)).2⟩, ?_⟩
    intro ⟨hk, hfree, hbelow⟩
    exact ⟨hk, by simp [hfree], fun i hi => mem_live.mpr ⟨hi.trans hk, hbelow i hi⟩⟩
  · intro k hk
    obtain ⟨d', hrun, hbit⟩ := alloc_some hk
    exact ⟨d', hrun, hbit, (leastFree_eq_some.mp hk).2.1⟩
  · refine ⟨?_, fun hset => bm.alloc_full (by simp) hset⟩
    intro hrun k hk
    by_contra hclear
    cases hfree : leastFree bm.maximum (bm.live d) with
    | none => exact hclear (mem_live.mp (leastFree_eq_none.mp hfree k hk)).2
    | some j =>
      obtain ⟨d', hrun', -⟩ := alloc_some hfree
      have := (hrun.det hrun').1
      cases this

/-- Two ids taken, the first given back and taken again. -/
theorem bitmap_exact_again : (Bitmap.runOps ⟨0, 1⟩ [.alloc, .alloc, .dealloc 0, .alloc] fun _ => Block.zero).map (·.1) =
    some [some 0, some 1, none, some 0] := by
  obtain ⟨-, -, -, -, -, hops⟩ := bitmap_exact ⟨0, 1⟩ fun _ => Block.zero
  have hlive : Bitmap.live ⟨0, 1⟩ (fun _ => Block.zero) = ∅ := by
    ext k
    simp [mem_live, Bitmap.bit, Block.bit_zero]
  have hrun := hops [.alloc, .alloc, .dealloc 0, .alloc] (by simp [Bitmap.maximum])
  rw [hlive] at hrun
  have hset : liveRun (Bitmap.maximum ⟨0, 1⟩) [.alloc, .alloc, .dealloc 0, .alloc] ∅ =
      some ([some 0, some 1, none, some 0], {0, 1}) := by decide +kernel
  rw [hset] at hrun
  obtain ⟨r, hr, heq⟩ := map_eq_some_iff.mp hrun
  rw [hr, map_some, (Prod.mk.inj heq).1]

end TCore.EasyFs
