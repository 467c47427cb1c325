/-
  TCore.Lib.Careful — programs that never wait for themselves.

  A program that locks a cell it has locked already, or flushes the store while it holds a lock, waits for
  itself and never goes on. `Careful n p s`: started in `s`, `p` does neither, and never has more than `n`
  cells locked; it may panic on the way. A program is careful along the run it really takes, so there are
  rules for a program that follows one that has returned, and for one that is never reached.

  - `Careful.of_exec`: a program that returns and fits in `n` locks is careful.
  - `Careful.bind`, `Careful.after`, `Careful.stops`: one program after another.
  - `Careful.read`, `Careful.modify`: a closure under a lock.
-/

import TCore.Lib.Prog

namespace TCore.Lib

open Prog

variable {κ β α γ : Type} [DecidableEq κ]

inductive Careful (n : Nat) : Prog κ β α → Cells κ β → Prop where
  | ret (a : α) {s : Cells κ β} : Careful n (.ret a) s
  | panic {s : Cells κ β} : Careful n .panic s
  | lock {k : κ} {f : β → Prog κ β α} {s : Cells κ β} (hk : k ∉ s.locked) (hn : s.locked.length < n)
    (hf : Careful n (f (s.val k)) { s with locked := k :: s.locked }) : Careful n (.lock k f) s
  | store {k : κ} {b : β} {p : Prog κ β α} {s : Cells κ β} (hk : k ∈ s.locked)
    (hp : Careful n p { s with val := Function.update s.val k b }) : Careful n (.store k b p) s
  | unlock {k : κ} {p : Prog κ β α} {s : Cells κ β} (hk : k ∈ s.locked)
    (hp : Careful n p { s with locked := s.locked.erase k }) : Careful n (.unlock k p) s
  | sync {p : Prog κ β α} {s : Cells κ β} (hnil : s.locked = []) (hp : Careful n p s) : Careful n (.sync p) s

namespace Careful

variable {n : Nat} {s : Cells κ β} {L : List κ} {d d' : κ → β} {p : Prog κ β α} {g : α → Prog κ β γ}

theorem bind (hp : Careful n p s)
    (hg : ∀ a t, exec p s = some (a, t) → Careful n (g a) t) : Careful n (p >>= g) s := by
  show Careful n (p.bind g) s
  induction hp with
  | ret a => exact hg a _ rfl
  | panic => exact panic
  | lock hk hn hf ih =>
    refine lock hk hn (ih fun a t ht => hg a t ?_)
    rw [exec_lock, if_neg hk]
    exact ht
  | store hk hp ih =>
    refine store hk (ih fun a t ht => hg a t ?_)
    rw [exec_store, if_pos hk]
    exact ht
  | unlock hk hp ih =>
    refine unlock hk (ih fun a t ht => hg a t ?_)
    rw [exec_unlock, if_pos hk]
    exact ht
  | sync hnil hp ih =>
    refine sync hnil (ih fun a t ht => hg a t ?_)
    rw [exec_sync, if_pos hnil]
    exact ht

variable {a : α}

/-- What follows a program whose run is known. -/
theorem after (hp : Careful n p ⟨d, L⟩) (hrun : Runs p L d a d')
    (hg : Careful n (g a) ⟨d', L⟩) : Careful n (p >>= g) ⟨d, L⟩ := by
  refine bind hp fun b t ht => ?_
  obtain ⟨rfl, rfl⟩ := Prod.mk.inj (Option.some.inj (hrun.symm.trans ht))
  exact hg

/-- What follows a program that does not return is never reached. -/
theorem stops (g : α → Prog κ β γ) (hp : Careful n p s) (hnone : exec p s = none) :
    Careful n (p >>= g) s := by
  refine bind hp fun b t ht => ?_
  rw [hnone] at ht
  cases ht

theorem assert {c : Prop} [Decidable c] {g : Unit → Prog κ β γ} (hg : c → Careful n (g ()) s) :
    Careful n (assert c >>= g) s := by
  unfold Prog.assert
  by_cases hc : c
  · rw [if_pos hc]
    exact hg hc
  · rw [if_neg hc]
    exact panic

theorem assert_not {c : Prop} [Decidable c] (hc : ¬c) (g : Unit → Prog κ β γ) : Careful n (Prog.assert c >>= g) s := by
  rw [Prog.assert, if_neg hc]
  exact panic

theorem unwrap {o : Option α} (hg : ∀ a, o = some a → Careful n (g a) s) :
    Careful n (unwrap o >>= g) s := by
  cases o with
  | none => exact panic
  | some a => exact hg a rfl

theorem read {k : κ} {f : β → Prog κ β α} (hk : k ∉ L) (hn : L.length < n) (hf : Careful n (f (d k)) ⟨d, k :: L⟩)
    (hkeep : ∀ a t, exec (f (d k)) ⟨d, k :: L⟩ = some (a, t) → k ∈ t.locked) : Careful n (read k f) ⟨d, L⟩ :=
  lock hk hn (bind hf fun a t ht => unlock (hkeep a t ht) (ret a))

theorem modify {k : κ} {f : β → Prog κ β (α × β)} (hk : k ∉ L) (hn : L.length < n) (hf : Careful n (f (d k)) ⟨d, k :: L⟩)
    (hkeep : ∀ a t, exec (f (d k)) ⟨d, k :: L⟩ = some (a, t) → k ∈ t.locked) : Careful n (modify k f) ⟨d, L⟩ :=
  lock hk hn (bind hf fun r t ht => store (hkeep r t ht) (unlock (hkeep r t ht) (ret r.1)))

theorem of_exec {t : Cells κ β} {h' : Nat} (hf : Fits n s.locked.length p h')
    (hr : exec p s = some (a, t)) : Careful n p s := by
  generalize hl : s.locked.length = l at hf
  induction hf generalizing s with
  | ret b => exact ret b
  | panic => exact panic
  | lock hn hf ih =>
    rw [exec_lock] at hr
    split at hr
    · cases hr
    · rename_i hk
      exact lock hk (by omega) (ih _ hr (congrArg (· + 1) hl))
  | store hp ih =>
    rw [exec_store] at hr
    split at hr
    · rename_i hk
      exact store hk (ih hr hl)
    · cases hr
  | unlock hh hp ih =>
    rw [exec_unlock] at hr
    split at hr
    · rename_i hk
      exact unlock hk (ih hr (by rw [List.length_erase_of_mem hk, hl]))
    · cases hr
  | sync hp ih =>
    rw [exec_sync] at hr
    split at hr
    · rename_i hnil
      exact sync hnil (ih hr hl)
    · cases hr

theorem of_runs {h' : Nat} (hf : Fits n L.length p h') (hr : Runs p L d a d') :
    Careful n p ⟨d, L⟩ := of_exec (s := ⟨d, L⟩) hf hr

end Careful

end TCore.Lib
