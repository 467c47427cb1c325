/-
  TCore.Lib.Fifo — wait queues and who is in them.

  A queue for each key, a history of who entered it and who left it, and a state for each waiter
  that says which queue it is in. The queues hold the waiters, once each, in the order of arrival.
-/

import Mathlib.Data.List.Nodup
import Mathlib.Logic.Function.Basic

namespace TCore.Lib

open Function (update update_apply)

variable {κ τ α : Type}

/-- `key` tells from the state of a waiter which queue it is in. -/
structure Fifo (key : α → Option κ) (queue arrived left : κ → List τ) (state : τ → α) : Prop where
  mem_iff : ∀ t k, t ∈ queue k ↔ key (state t) = some k
  nodup : ∀ k, (queue k).Nodup
  order : ∀ k, arrived k = left k ++ queue k

namespace Fifo

variable [DecidableEq κ] [DecidableEq τ] {key : α → Option κ} {queue arrived left : κ → List τ} {state : τ → α}
  {t : τ} {a : α} {k : κ} {rest : List τ}

omit [DecidableEq κ] in
/-- A waiter whose queue is the same. -/
theorem stay (h : Fifo key queue arrived left state) (ha : key a = key (state t)) :
    Fifo key queue arrived left (update state t a) := by
  refine ⟨?_, h.nodup, h.order⟩
  intro u j
  rw [update_apply, h.mem_iff]
  split
  · subst u
    rw [ha]
  · rfl

theorem enter (h : Fifo key queue arrived left state) (ht : key (state t) = none) (ha : key a = some k) :
    Fifo key (update queue k (queue k ++ [t])) (update arrived k (arrived k ++ [t])) left (update state t a) := by
  have hnew : ∀ j, t ∉ queue j := by
    intro j hmem
    rw [h.mem_iff, ht] at hmem
    cases hmem
  constructor
  · intro u j
    have hj := h.mem_iff u j
    simp only [update_apply]
    grind
  · intro j
    have hj := h.nodup j
    simp only [update_apply]
    grind
  · intro j
    have hj := h.order j
    simp only [update_apply]
    grind

/-- The first one leaves. -/
theorem leave (h : Fifo key queue arrived left state) (hq : queue k = t :: rest) (ha : key a = none) :
    Fifo key (update queue k rest) arrived (update left k (left k ++ [t])) (update state t a) := by
  have ht : key (state t) = some k := (h.mem_iff t k).mp (by simp [hq])
  have hnd := h.nodup k
  rw [hq] at hnd
  constructor
  · intro u j
    have hj := h.mem_iff u j
    simp only [update_apply]
    grind
  · intro j
    have hj := h.nodup j
    simp only [update_apply]
    grind
  · intro j
    have hj := h.order j
    simp only [update_apply]
    grind

end Fifo

end TCore.Lib
