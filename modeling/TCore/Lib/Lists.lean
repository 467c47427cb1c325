/-
  TCore.Lib.Lists — lists that are changed at one place, or compared element by element.

  A table of calls or of processes is a list: a step sets one entry or adds one at the end, and
  a history is read off by filtering it. Two lists in step are `Forall₂`.
-/

import Mathlib.Data.List.Forall2

namespace TCore.Lib

open List Option

variable {α β : Type} {l : List α}

/-! ## One place -/

theorem getElem?_set_cases {c i : Nat} {a b : α} (h : (l.set c a)[i]? = some b) :
    i = c ∧ a = b ∨ i ≠ c ∧ l[i]? = some b := by
  by_cases e : i = c
  · subst e
    rw [getElem?_set_self'] at h
    obtain ⟨x, -, rfl⟩ := map_eq_some_iff.mp h
    exact Or.inl ⟨rfl, rfl⟩
  · rw [getElem?_set_ne (Ne.symm e)] at h
    exact Or.inr ⟨e, h⟩

theorem getElem?_snoc_cases {i : Nat} {a b : α} (h : (l ++ [a])[i]? = some b) :
    i = l.length ∧ a = b ∨ i < l.length ∧ l[i]? = some b := by
  rcases Nat.lt_trichotomy i l.length with hi | rfl | hi
  · rw [getElem?_append_left hi] at h
    exact Or.inr ⟨hi, h⟩
  · rw [getElem?_concat_length, some.injEq] at h
    exact Or.inl ⟨rfl, h⟩
  · rw [getElem?_append_right (by omega), getElem?_eq_none (by simp; omega)] at h
    cases h

theorem count_map_erase [BEq α] [LawfulBEq α] [DecidableEq β] {x : α} (f : α → β) (hx : x ∈ l) (b : β) :
    (l.map f).count b = ((l.erase x).map f).count b + [f x].count b := by
  rw [((perm_cons_erase hx).map f).count_eq, map_cons, count_cons, count_singleton]

/-! ## Histories -/

theorem filter_other (l m : List α) (f : α → Nat) {c c' : Nat} (hm : ∀ e ∈ m, f e = c) (hne : c' ≠ c) :
    (l ++ m).filter (fun e => f e = c') = l.filter fun e => f e = c' := by
  have hnone : m.filter (fun e => f e = c') = [] := by
    refine filter_eq_nil_iff.mpr fun e he => ?_
    rw [decide_eq_true_eq, hm e he]
    exact fun e => hne e.symm
  rw [filter_append, hnone, append_nil]

theorem filter_fresh {f : α → Nat} {n : Nat} (h : ∀ e ∈ l, f e < n) : l.filter (fun e => f e = n) = [] := by
  refine filter_eq_nil_iff.mpr fun e he => ?_
  rw [decide_eq_true_eq]
  exact Nat.ne_of_lt (h e he)

/-- In an ascending list the first one found is the smallest that passes. -/
theorem find?_sorted {l : List Nat} (hl : l.Pairwise (· < ·)) {f : Nat → Bool} {a : Nat} :
    l.find? f = some a ↔ a ∈ l ∧ f a = true ∧ ∀ i ∈ l, i < a → f i = false := by
  rw [find?_eq_some_iff_append]
  constructor
  · rintro ⟨hfa, as, bs, rfl, has⟩
    refine ⟨by simp, hfa, fun i hi hlt => ?_⟩
    rcases mem_append.mp hi with hi | hi
    · exact Bool.not_eq_true' _ ▸ has i hi
    · rcases mem_cons.mp hi with rfl | hi
      · omega
      · have := rel_of_pairwise_cons (pairwise_append.mp hl).2.1 hi
        omega
  · rintro ⟨ha, hfa, hall⟩
    obtain ⟨as, bs, rfl⟩ := append_of_mem ha
    refine ⟨hfa, as, bs, rfl, fun i hi => ?_⟩
    rw [hall i (by simp [hi]) ((pairwise_append.mp hl).2.2 i hi a mem_cons_self)]
    rfl

/-! ## Lists in step -/

variable {R : α → β → Prop} {xs : List α} {ys : List β}

theorem forall₂_of_map_eq {γ : Type} {f : α → γ} {g : β → γ} (h : xs.map f = ys.map g)
    (hR : ∀ x ∈ xs, ∀ y ∈ ys, f x = g y → R x y) : List.Forall₂ R xs ys := by
  induction xs generalizing ys with
  | nil =>
    obtain rfl := map_eq_nil_iff.mp h.symm
    exact .nil
  | cons x xs ih =>
    obtain ⟨y, ys, rfl, hy, hys⟩ := map_eq_cons_iff.mp h.symm
    refine .cons (hR x mem_cons_self y mem_cons_self hy.symm) (ih hys.symm ?_)
    exact fun x' hx' y' hy' => hR x' (mem_cons_of_mem _ hx') y' (mem_cons_of_mem _ hy')

theorem exists_of_forall₂ {α β : Type} {R : α → β → Prop} {xs : List α} {ys : List β} (h : List.Forall₂ R xs ys) :
    ∀ x ∈ xs, ∃ y ∈ ys, R x y := by
  induction h with
  | nil => exact fun x hx => absurd hx not_mem_nil
  | @cons x y xs ys hxy _ ih =>
    intro x' hx'
    rcases mem_cons.mp hx' with rfl | hx'
    · exact ⟨y, mem_cons_self, hxy⟩
    · obtain ⟨y', hy', hR⟩ := ih x' hx'
      exact ⟨y', mem_cons_of_mem _ hy', hR⟩

theorem exists_left_of_forall₂ (h : List.Forall₂ R xs ys) : ∀ y ∈ ys, ∃ x ∈ xs, R x y := exists_of_forall₂ h.flip

end TCore.Lib
