/-
  TCore.Lib.Ring — windows of a circular array.

  `window f n h len` are the `len` values from place `h` on, in an array of `n` places that
  starts again at 0 behind its end. Writing behind a window's end makes it one longer, leaving
  its first place makes it one shorter; a place outside the window does not matter to it.
-/

import Mathlib.Tactic

namespace TCore.Lib

open List

variable {α : Type} {f g : Nat → α} {n h len : Nat}

def window (f : Nat → α) (n h len : Nat) : List α := (List.range len).map fun i => f ((h + i) % n)

@[simp] theorem window_length (f : Nat → α) (n h len : Nat) : (window f n h len).length = len := by
  rw [window, length_map, length_range]

theorem window_snoc (f : Nat → α) (n h len : Nat) : window f n h (len + 1) = window f n h len ++ [f ((h + len) % n)] := by
  rw [window, range_succ, map_append, map_singleton, window]

theorem window_cons (f : Nat → α) (n h len : Nat) : window f n h (len + 1) = f (h % n) :: window f n ((h + 1) % n) len := by
  rw [window, range_succ_eq_map, map_cons, map_map, Nat.add_zero, window]
  refine congrArg _ (map_congr_left fun i _ => ?_)
  show f ((h + (i + 1)) % n) = f (((h + 1) % n + i) % n)
  rw [Nat.mod_add_mod, Nat.add_assoc, Nat.add_comm 1 i]

/-- Two places of a window that is no longer than the array are different. -/
theorem place_inj {i j : Nat} (hi : i < n) (hj : j < n) (e : (h + i) % n = (h + j) % n) : i = j := by
  have := Nat.ModEq.add_left_cancel' h e
  rwa [Nat.ModEq, Nat.mod_eq_of_lt hi, Nat.mod_eq_of_lt hj] at this

theorem window_congr (hfg : ∀ i < len, f ((h + i) % n) = g ((h + i) % n)) : window f n h len = window g n h len :=
  map_congr_left fun i hi => hfg i (mem_range.mp hi)

/-- A value written behind the window. -/
theorem window_write (hlen : len < n) (hsame : ∀ i, i ≠ (h + len) % n → g i = f i) :
    window g n h (len + 1) = window f n h len ++ [g ((h + len) % n)] := by
  rw [window_snoc]
  refine congrArg (· ++ _) (window_congr fun i hi => hsame _ fun e => ?_)
  have := place_inj (by omega) hlen e
  omega

end TCore.Lib
