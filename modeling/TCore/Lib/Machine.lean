/-
  TCore.Lib.Machine — state machines and what holds of their runs.

  A machine has initial states and a step function; an event says which of the possible steps is
  taken, and `none` that it is not possible. `Reach` are the states of its runs.

  - `Reach.inv`: what holds at the start and is kept by every step holds of every run; `Reach.inv_reach` for
    steps that keep it in the states of runs.
  - `only ok`: the machine whose runs take the steps that satisfy `ok`.
  - `recording start note`: the machine with a history beside its state.
-/

import Mathlib.Tactic

namespace TCore.Lib

structure Machine (σ ε : Type) where
  init : σ → Prop
  step : σ → ε → Option σ

namespace Machine

variable {σ ε : Type}

/-- The state after a sequence of events. -/
def run (M : Machine σ ε) (s : σ) : List ε → Option σ
  | [] => some s
  | e :: es => (M.step s e).bind fun t => M.run t es

inductive Reach (M : Machine σ ε) : σ → Prop where
  | init {s : σ} (h : M.init s) : Reach M s
  | step {s t : σ} {e : ε} (hs : Reach M s) (h : M.step s e = some t) : Reach M t

variable {M : Machine σ ε} {s t : σ}

theorem Reach.inv_reach (Inv : σ → Prop) (hinit : ∀ s, M.init s → Inv s)
    (hstep : ∀ s e t, M.Reach s → Inv s → M.step s e = some t → Inv t) (h : M.Reach s) : Inv s := by
  induction h with
  | init h => exact hinit _ h
  | step hs h ih => exact hstep _ _ _ hs ih h

theorem Reach.inv (Inv : σ → Prop) (hinit : ∀ s, M.init s → Inv s)
    (hstep : ∀ s e t, Inv s → M.step s e = some t → Inv t) (h : M.Reach s) : Inv s :=
  h.inv_reach Inv hinit fun s e t _ => hstep s e t

variable {es : List ε}

theorem Reach.run (hs : M.Reach s) (h : M.run s es = some t) : M.Reach t := by
  induction es generalizing s with
  | nil => cases h; exact hs
  | cons e es ih =>
    obtain ⟨u, hu, hrest⟩ := Option.bind_eq_some_iff.mp h
    exact ih (hs.step hu) hrest

theorem Reach.exists_run {P : σ → Prop} (hs : M.Reach s) (h : ∃ t ∈ M.run s es, P t) :
    ∃ t, M.Reach t ∧ P t := by
  obtain ⟨t, ht, hP⟩ := h
  exact ⟨t, hs.run ht, hP⟩

open Classical in
/-- The machine restricted to the steps that satisfy `ok`. -/
noncomputable def only (M : Machine σ ε) (ok : σ → ε → Prop) : Machine σ ε where
  init := M.init
  step s e := if ok s e then M.step s e else none

variable {ok : σ → ε → Prop}

theorem only_step {e : ε} : (M.only ok).step s e = some t ↔ ok s e ∧ M.step s e = some t := by
  simp only [only]
  by_cases h : ok s e
  · rw [if_pos h]
    exact (and_iff_right h).symm
  · simp [h]

theorem Reach.onlyStep (hs : (M.only ok).Reach s) (e : ε) (hok : ok s e) (h : M.step s e = some t) :
    (M.only ok).Reach t := hs.step (Machine.only_step.mpr ⟨hok, h⟩)

/-- The state after a sequence of events each of which satisfies `ok`. -/
def runOnly (M : Machine σ ε) (ok : σ → ε → Prop) [∀ s e, Decidable (ok s e)] (s : σ) : List ε → Option σ
  | [] => some s
  | e :: es => if ok s e then (M.step s e).bind fun t => M.runOnly ok t es else none

theorem Reach.exists_runOnly [∀ s e, Decidable (ok s e)] {P : σ → Prop}
    (hs : (M.only ok).Reach s) (h : ∃ t ∈ M.runOnly ok s es, P t) : ∃ t, (M.only ok).Reach t ∧ P t := by
  obtain ⟨t, ht, hP⟩ := h
  refine ⟨t, ?_, hP⟩
  induction es generalizing s with
  | nil => cases ht; exact hs
  | cons e es ih =>
    obtain ⟨hok, ht⟩ := Option.ite_none_right_eq_some.mp ht
    obtain ⟨u, hu, hrest⟩ := Option.bind_eq_some_iff.mp ht
    exact ih (hs.onlyStep e hok hu) hrest

theorem Reach.of_only (h : (M.only ok).Reach s) : M.Reach s := by
  induction h with
  | init h => exact .init h
  | step _ h ih => exact ih.step (only_step.mp h).2

theorem Reach.only_imp {ok' : σ → ε → Prop} (himp : ∀ s e, ok s e → ok' s e) (h : (M.only ok).Reach s) :
    (M.only ok').Reach s := by
  induction h with
  | init h => exact .init h
  | step _ h ih => exact ih.onlyStep _ (himp _ _ (only_step.mp h).1) (only_step.mp h).2

/-- The machine with a history beside its state: `start` at first, and what `note` makes of it at each step. -/
def recording {η : Type} (M : Machine σ ε) (start : η) (note : σ → ε → η → η) : Machine (σ × η) ε where
  init x := M.init x.1 ∧ x.2 = start
  step x e := (M.step x.1 e).map fun t => (t, note x.1 e x.2)

section Recording

variable {η : Type} {start : η} {note : σ → ε → η → η}

theorem recording_step {x y : σ × η} {e : ε} :
    (M.recording start note).step x e = some y ↔ M.step x.1 e = some y.1 ∧ y.2 = note x.1 e x.2 := by
  rcases y with ⟨t, h⟩
  simp only [recording, Option.map_eq_some_iff, Prod.mk.injEq]
  constructor
  · rintro ⟨t, hs, rfl, rfl⟩
    exact ⟨hs, rfl⟩
  · rintro ⟨hs, rfl⟩
    exact ⟨t, hs, rfl, rfl⟩

/-- A history leaves no run out and adds none. -/
theorem reach_recording : M.Reach s ↔ ∃ h, (M.recording start note).Reach (s, h) := by
  constructor
  · intro hs
    induction hs with
    | init h => exact ⟨start, .init ⟨h, rfl⟩⟩
    | step _ hst ih =>
      obtain ⟨h, hr⟩ := ih
      exact ⟨_, hr.step (recording_step.mpr ⟨hst, rfl⟩)⟩
  · rintro ⟨h, hr⟩
    refine Reach.inv (M := M.recording start note) (fun x => M.Reach x.1) (fun x hx => .init hx.1) ?_ hr
    intro x e y hx hst
    exact hx.step (recording_step.mp hst).1

end Recording

end Machine

end TCore.Lib
