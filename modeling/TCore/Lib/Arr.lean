/-
  TCore.Lib.Arr — arrays of a fixed length, read and written at `Nat` indices.

  `Arr α n` holds exactly `n` values. `get` outside the array answers the default and
  `set` outside it changes nothing: code that indexes out of range panics before it
  reads, so no proof rests on those values. Two arrays are equal when they agree below
  `n` (`ext_get`).
-/

import Mathlib.Tactic

namespace TCore.Lib

def Arr (α : Type) (n : Nat) : Type := Fin n → α

namespace Arr

variable {α : Type} [Inhabited α] {n : Nat}

def get (a : Arr α n) (i : Nat) : α := if h : i < n then a ⟨i, h⟩ else default

def ofFn (f : Nat → α) : Arr α n := fun i => f i

def set (a : Arr α n) (i : Nat) (v : α) : Arr α n := ofFn fun j => if j = i then v else a.get j

def replicate (v : α) : Arr α n := ofFn fun _ => v

instance : Inhabited (Arr α n) := ⟨replicate default⟩

variable {i : Nat}

theorem get_of_lt (a : Arr α n) (h : i < n) : a.get i = a ⟨i, h⟩ := dif_pos h

theorem get_of_not_lt (a : Arr α n) (h : ¬i < n) : a.get i = default := dif_neg h

theorem get_ofFn (f : Nat → α) (i : Nat) : (ofFn f : Arr α n).get i = if i < n then f i else default := by
  unfold get ofFn
  split <;> rfl

@[simp] theorem get_ofFn_lt (f : Nat → α) (h : i < n) : (ofFn f : Arr α n).get i = f i := by
  rw [get_ofFn, if_pos h]

theorem ext_get {a b : Arr α n} (h : ∀ i < n, a.get i = b.get i) : a = b := by
  funext i
  have := h i i.isLt
  rwa [get_of_lt a i.isLt, get_of_lt b i.isLt] at this

@[simp] theorem get_set_same (a : Arr α n) (v : α) (h : i < n) : (a.set i v).get i = v := by
  simp [set, h]

@[simp] theorem get_set_ne (a : Arr α n) {j : Nat} (v : α) (h : j ≠ i) : (a.set i v).get j = a.get j := by
  rw [set, get_ofFn]
  by_cases hj : j < n
  · rw [if_pos hj, if_neg h]
  · rw [if_neg hj, get_of_not_lt a hj]

theorem get_set (a : Arr α n) {j : Nat} (v : α) (hi : i < n) :
    (a.set i v).get j = if j = i then v else a.get j := by
  split
  · subst j; exact get_set_same a v hi
  · exact get_set_ne a v ‹_›

@[simp] theorem get_replicate (v : α) (h : i < n) : (replicate v : Arr α n).get i = v := by
  simp [replicate, h]

end Arr

end TCore.Lib
