/-
  TCore.Kernel.SignalPass — what a pass of `check_pending_signals` does.

  A pass handles the deliverable signals in the order of their numbers and stops at the first one
  that is not the kernel's own (`stopsAt`). Signals it has not reached stay as they are, so an
  unhandled signal with a small number keeps all others from being handled, in this pass and in
  every later one.
-/

import TCore.Kernel.Signal

namespace TCore.Kernel

open TCore.Lib SignalFlags
open Option Proc Procs

variable {s : SignalFlags} {i j : Nat}

namespace SignalFlags

theorem getLsbD_bit (hj : j < 32) : (bit i).getLsbD j = decide (j = i) := by
  simp only [bit, BitVec.getLsbD_shiftLeft, BitVec.getLsbD_one, hj, decide_true, Bool.true_and]
  by_cases h : j < i
  · simp [h]; omega
  · simp [h]; omega

theorem contains_bit (s : SignalFlags) (hi : i < 32) : contains s (bit i) = s.getLsbD i := by
  rw [contains, Bool.eq_iff_iff, beq_iff_eq]
  constructor
  · intro h
    have := congrArg (fun v => v.getLsbD i) h
    simpa [getLsbD_bit hi] using this
  · intro h
    apply BitVec.eq_of_getLsbD_eq
    intro j hj
    rw [BitVec.getLsbD_and, getLsbD_bit hj]
    by_cases e : j = i
    · subst e
      simp [h]
    · simp [e]

theorem bit_inj (hi : i < 32) (h : bit i = bit j) : i = j := by
  have := congrArg (fun v => v.getLsbD i) h
  simpa [getLsbD_bit hi] using this

theorem contains_xor (s : SignalFlags) (hi : i < 32) (hne : i ≠ j) :
    contains (s ^^^ bit j) (bit i) = contains s (bit i) := by
  rw [contains_bit _ hi, contains_bit _ hi, BitVec.getLsbD_xor, getLsbD_bit hi]
  simp [hne]

theorem contains_xor_self (hi : i < 32) (h : contains s (bit i) = true) :
    contains (s ^^^ bit i) (bit i) = false := by
  rw [contains_bit _ hi] at h ⊢
  rw [BitVec.getLsbD_xor, getLsbD_bit hi, h]
  simp

end SignalFlags

namespace Proc

/-- The signal is pending, not masked by the process and not by the handler being executed. -/
def deliverable (p : Proc) (sig : Nat) : Bool :=
  contains p.signals (bit sig) && !contains p.signalMask (bit sig) && !p.masked (bit sig)

theorem pending_of_deliverable {p : Proc} {sig : Nat} (h : p.deliverable sig = true) : contains p.signals (bit sig) = true := by
  rw [deliverable, Bool.and_eq_true, Bool.and_eq_true] at h
  exact h.1.1

/-- A deliverable signal that is not the kernel's own ends the pass. -/
def stops (p : Proc) (sig : Nat) : Bool := p.deliverable sig && !isKernel (bit sig)

/-- The signal a pass stops at. -/
def stopsAt (p : Proc) : Option Nat := (List.range 32).find? p.stops

def handled (p : Proc) (sig : Nat) : Prop := (p.signalActions.get sig).handler ≠ 0

instance (p : Proc) (sig : Nat) : Decidable (p.handled sig) := inferInstanceAs (Decidable (_ ≠ _))

theorem isKernel_bit {sig : Nat} (h : sig < 32) :
    isKernel (bit sig) = true ↔ sig = 0 ∨ sig = 9 ∨ sig = 18 ∨ sig = 19 := by
  have hb : ∀ j, (bit sig == bit j) = true ↔ sig = j := fun j => by
    rw [beq_iff_eq]
    exact ⟨bit_inj h, fun e => by rw [e]⟩
  simp only [isKernel, sigkill, sigstop, sigcont, sigdef, Bool.or_eq_true, hb]
  tauto

/-- Signal `j` is deliverable and has its turn before `sig`. -/
def before (p : Proc) (sig j : Nat) : Bool := p.deliverable j && decide (j < sig)

section
variable {p q : Proc} {sig j : Nat}

theorem before_succ_ne (h : j ≠ sig) : p.before (sig + 1) j = p.before sig j := by
  have : decide (j < sig + 1) = decide (j < sig) := decide_eq_decide.mpr (by omega)
  rw [before, before, this]

theorem before_skip (hd : p.deliverable sig = false) : p.before (sig + 1) j = p.before sig j := by
  by_cases h : j = sig
  · rw [h, before, before, hd]
    rfl
  · exact before_succ_ne h

theorem before_succ_self (hd : p.deliverable sig = true) : p.before (sig + 1) sig = true := by
  rw [before, hd]
  simp

theorem before_zero : p.before 0 j = false := by
  rw [before, decide_eq_false (Nat.not_lt_zero j), Bool.and_false]

/-- `q` is `p` after the deliverable kernel signals below `sig` have been handled. -/
structure Upto (p q : Proc) (sig : Nat) : Prop where
  frozen : q.frozen = if p.before sig 19 = true then true else if p.before sig 18 = true then false else p.frozen
  killed : q.killed = (p.killed || p.before sig 0 || p.before sig 9)
  /-- SIGCONT and SIGSTOP are taken away in their turn. -/
  signals : ∀ i < 32, contains q.signals (bit i) =
    (contains p.signals (bit i) && !(decide (i = 18 ∨ i = 19) && p.before sig i))
  rest : q = { p with frozen := q.frozen, killed := q.killed, signals := q.signals }

theorem Upto.zero (p : Proc) : Upto p p 0 := by
  refine ⟨?_, ?_, fun i _ => ?_, rfl⟩ <;> simp [before_zero]

section

variable (h : Upto p q sig)
include h

theorem Upto.mask : q.signalMask = p.signalMask := by rw [h.rest]

theorem Upto.actions : q.signalActions = p.signalActions := by rw [h.rest]

theorem Upto.masked (s : SignalFlags) : q.masked s = p.masked s := by
  rw [h.rest]
  rfl

/-- The signals still to come are as deliverable as they were. -/
theorem Upto.deliverable (hs : sig < 32) : q.deliverable sig = p.deliverable sig := by
  have hsame : contains q.signals (bit sig) = contains p.signals (bit sig) := by
    rw [h.signals sig hs]
    simp [before]
  rw [Proc.deliverable, h.masked, h.mask, hsame, Proc.deliverable]

theorem Upto.skip (hd : p.deliverable sig = false) : Upto p q (sig + 1) := by
  refine ⟨?_, ?_, fun i hi => ?_, h.rest⟩
  · rw [before_skip hd, before_skip hd]
    exact h.frozen
  · rw [before_skip hd, before_skip hd]
    exact h.killed
  · rw [before_skip hd]
    exact h.signals i hi

section

variable (hd : p.deliverable sig = true)
include hd

theorem Upto.pending (hs : sig < 32) : contains q.signals (bit sig) = true :=
  pending_of_deliverable ((h.deliverable hs).trans hd)

/-- SIGDEF and SIGKILL. -/
theorem Upto.kill (hsig : sig = 0 ∨ sig = 9) : Upto p { q with killed := true } (sig + 1) := by
  refine ⟨?_, ?_, fun i hi => ?_, ?_⟩
  · rw [before_succ_ne (by omega), before_succ_ne (by omega)]
    exact h.frozen
  · rcases hsig with rfl | rfl <;> simp [before_succ_self hd]
  · rw [h.signals i hi]
    by_cases hcs : i = 18 ∨ i = 19
    · rw [before_succ_ne (by omega)]
    · simp [hcs]
  · rw [h.rest]

/-- SIGCONT and SIGSTOP. -/
theorem Upto.take (hsig : sig = 18 ∨ sig = 19) {f : Bool}
    (hf : f = if p.before (sig + 1) 19 = true then true else if p.before (sig + 1) 18 = true then false else p.frozen) :
    Upto p { q with frozen := f, signals := q.signals ^^^ bit sig } (sig + 1) := by
  refine ⟨hf, ?_, fun i hi => ?_, ?_⟩
  · rw [before_succ_ne (by omega), before_succ_ne (by omega)]
    exact h.killed
  · by_cases hi' : i = sig
    · subst hi'
      rw [contains_xor_self hi (h.pending hd hi), before_succ_self hd, decide_eq_true hsig]
      simp
    · rw [contains_xor _ hi hi', h.signals i hi, before_succ_ne hi']
  · rw [h.rest]

end

end

theorem callKernel_kill (q : Proc) (h : bit sig ≠ sigstop) (h' : bit sig ≠ sigcont) :
    q.callKernelSignalHandler (bit sig) = { q with killed := true } := by
  rw [callKernelSignalHandler, if_neg h, if_neg h']

/-- A deliverable kernel signal is handled and the pass goes on. -/
theorem Upto.kernel (h : Upto p q sig) (hd : p.deliverable sig = true) (hk : isKernel (bit sig) = true) (hs : sig < 32) :
    Upto p (q.callKernelSignalHandler (bit sig)) (sig + 1) := by
  rcases (isKernel_bit hs).mp hk with rfl | rfl | rfl | rfl
  · rw [callKernel_kill q (by decide) (by decide)]
    exact h.kill hd (.inl rfl)
  · rw [callKernel_kill q (by decide) (by decide)]
    exact h.kill hd (.inr rfl)
  · have hq : contains q.signals sigcont = true := h.pending hd hs
    rw [callKernelSignalHandler, if_neg (by decide), if_pos (by decide), if_pos hq]
    have h19 : p.before (18 + 1) 19 = false := by simp [before]
    exact h.take hd (.inl rfl) (by simp [h19, before_succ_self hd])
  · rw [callKernelSignalHandler, if_pos (by decide)]
    exact h.take hd (.inr rfl) (by simp [before_succ_self hd])

/-- One turn of the loop, by the three things it can do. -/
theorem checkPendingFrom_succ (n : Nat) (h : Upto p q sig) (hs : sig < 32) :
    checkPendingFrom (n + 1) sig q =
      if p.deliverable sig = true then
        if isKernel (bit sig) = true then checkPendingFrom n (sig + 1) (q.callKernelSignalHandler (bit sig))
        else q.callUserSignalHandler sig (bit sig)
      else checkPendingFrom n (sig + 1) q := by
  rw [← h.deliverable hs, checkPendingFrom, deliverable]
  cases contains q.signals (bit sig) && !contains q.signalMask (bit sig) <;> cases q.masked (bit sig) <;> rfl

/-- The loop from `sig` on runs to its end, or stops at a user signal `u`. -/
theorem checkPendingFrom_cases (n : Nat) (h : Upto p q sig) (hs : sig + n = 32) :
    ((List.range' sig n).find? p.stops = none ∧ Upto p (checkPendingFrom n sig q) 32) ∨
    ∃ u r, (List.range' sig n).find? p.stops = some u ∧ Upto p r u ∧
      checkPendingFrom n sig q = r.callUserSignalHandler u (bit u) := by
  induction n generalizing sig q with
  | zero =>
    obtain rfl : sig = 32 := hs
    exact .inl ⟨rfl, h⟩
  | succ n ih =>
    have hlt : sig < 32 := by omega
    rw [checkPendingFrom_succ n h hlt, List.range'_succ, List.find?_cons, stops]
    cases hd : p.deliverable sig with
    | false => exact ih (h.skip hd) (by omega)
    | true =>
      cases hk : isKernel (bit sig) with
      | true => exact ih (h.kernel hd hk hlt) (by omega)
      | false => exact .inr ⟨sig, q, rfl, h, rfl⟩

/-- The state after a pass. -/
theorem pass_cases (p : Proc) :
    (p.stopsAt = none ∧ Upto p p.checkPendingSignals 32) ∨
    ∃ u q, p.stopsAt = some u ∧ Upto p q u ∧ p.checkPendingSignals = q.callUserSignalHandler u (bit u) := by
  rw [stopsAt, List.range_eq_range']
  exact checkPendingFrom_cases 32 (Upto.zero p) rfl

variable {u : Nat}

theorem stopsAt_spec (h : p.stopsAt = some u) : u < 32 ∧ p.deliverable u = true ∧ isKernel (bit u) = false := by
  rw [stopsAt, List.find?_range_eq_some, stops, Bool.and_eq_true, Bool.not_eq_true'] at h
  exact ⟨List.mem_range.mp h.2.1, h.1⟩

theorem stopsAt_ne_of_kernel (hk : isKernel (bit j) = true) : p.stopsAt ≠ some j := by
  intro hs
  rw [(stopsAt_spec hs).2.2] at hk
  cases hk

/-- Kernel signal `j` has its turn in the next pass. -/
def turn (p : Proc) (j : Nat) : Bool := p.before (p.stopsAt.getD 32) j

theorem callUser_handled (h : q.handled u) (f : SignalFlags) :
    q.callUserSignalHandler u f =
      { q with
        handlingSig := u
        signals := q.signals ^^^ f
        trapCtxBackup := some q.trapCx
        trapCx := { q.trapCx with
          sepc := (q.signalActions.get u).handler
          x := q.trapCx.x.set 10 (UInt64.ofNat u) } } := if_pos h

theorem callUser_unhandled (h : ¬q.handled u) (f : SignalFlags) : q.callUserSignalHandler u f = q := if_neg h

theorem Upto.handled (h : Upto p q sig) (u : Nat) : q.handled u ↔ p.handled u := by
  rw [Proc.handled, h.actions, Proc.handled]

theorem callUser_rest (q : Proc) (u : Nat) (f : SignalFlags) :
    (q.callUserSignalHandler u f).frozen = q.frozen ∧ (q.callUserSignalHandler u f).killed = q.killed := by
  rw [callUserSignalHandler]
  split <;> exact ⟨rfl, rfl⟩

theorem pass_frozen (p : Proc) : p.checkPendingSignals.frozen =
    if p.turn 19 = true then true else if p.turn 18 = true then false else p.frozen := by
  rcases pass_cases p with ⟨hs, hup⟩ | ⟨u, q, hs, hup, hq⟩
  · rw [hup.frozen, turn, turn, hs, getD_none]
  · rw [hq, (callUser_rest q u _).1, hup.frozen, turn, turn, hs, getD_some]

theorem pass_killed (p : Proc) : p.checkPendingSignals.killed = (p.killed || p.turn 0 || p.turn 9) := by
  rcases pass_cases p with ⟨hs, hup⟩ | ⟨u, q, hs, hup, hq⟩
  · rw [hup.killed, turn, turn, hs, getD_none]
  · rw [hq, (callUser_rest q u _).2, hup.killed, turn, turn, hs, getD_some]

theorem turn_of_none (h : p.stopsAt = none) (hj : j < 32) : p.turn j = p.deliverable j := by
  rw [turn, h, getD_none, before, decide_eq_true hj, Bool.and_true]

theorem turn_of_some (h : p.stopsAt = some u) : p.turn j = (p.deliverable j && decide (j < u)) := by
  rw [turn, h, getD_some, before]

theorem not_deliverable_turn (h : p.deliverable j = false) : p.turn j = false := by
  rw [turn, before, h]
  rfl

/-- Which signals a pass takes away: SIGCONT and SIGSTOP in their turn, and the one it delivers to a handler. -/
theorem pass_pending (hi : i < 32) : contains p.checkPendingSignals.signals (bit i) =
    (contains p.signals (bit i) && !(decide (i = 18 ∨ i = 19) && p.turn i) && !decide (p.stopsAt = some i ∧ p.handled i)) := by
  rcases pass_cases p with ⟨hs, hup⟩ | ⟨u, q, hs, hup, hq⟩
  · rw [hup.signals i hi, turn, hs]
    simp
  · have hold := hup.signals i hi
    rw [hq, turn, hs, getD_some, ← hold]
    by_cases hh : p.handled u
    · rw [callUser_handled ((hup.handled u).mpr hh)]
      by_cases hu : u = i
      · subst hu
        simp [hh, contains_xor_self hi (hup.pending (stopsAt_spec hs).2.1 hi)]
      · simp [contains_xor _ hi (Ne.symm hu), hu]
    · rw [callUser_unhandled ((hup.handled u).not.mpr hh)]
      by_cases hu : u = i
      · subst hu
        simp [hh]
      · simp [hu]

/-- The other signals stay, but for the one that is delivered. -/
theorem pass_left (hi : i < 32 ∧ i ≠ 18 ∧ i ≠ 19) : contains p.checkPendingSignals.signals (bit i) =
    (contains p.signals (bit i) && !decide (p.stopsAt = some i ∧ p.handled i)) := by
  rw [pass_pending hi.1]
  simp [hi.2]

theorem pass_undelivered (hi : i < 32) (hd : p.deliverable i = false) :
    contains p.checkPendingSignals.signals (bit i) = contains p.signals (bit i) := by
  have hs : p.stopsAt ≠ some i := by
    intro hs
    rw [(stopsAt_spec hs).2.1] at hd
    cases hd
  rw [pass_pending hi, not_deliverable_turn hd]
  simp [hs]

/-- SIGCONT and SIGSTOP are taken away when they have their turn. -/
theorem pass_taken (hi : i = 18 ∨ i = 19) (hd : p.deliverable i = true) :
    contains p.checkPendingSignals.signals (bit i) = !p.turn i := by
  have hlt : i < 32 := by omega
  rw [pass_pending hlt, pending_of_deliverable hd]
  simp [hi, stopsAt_ne_of_kernel ((isKernel_bit hlt).mpr (by omega))]

/-! ## Nobody starves -/

/-- The pass enters the handler of signal `s`. -/
structure Delivered (p : Proc) (s : Nat) : Prop where
  handling : p.checkPendingSignals.handlingSig = s
  entry : p.checkPendingSignals.trapCx.sepc = (p.signalActions.get s).handler
  argument : p.checkPendingSignals.trapCx.x.get 10 = UInt64.ofNat s
  backup : p.checkPendingSignals.trapCtxBackup = some p.trapCx
  cleared : contains p.checkPendingSignals.signals (bit s) = false

/-- The kernel has handled its own signal `s`: SIGCONT and SIGSTOP are taken away, the other two kill. -/
def TakenUp (p : Proc) (s : Nat) : Prop :=
  if s = 18 ∨ s = 19 then contains p.checkPendingSignals.signals (bit s) = false else p.checkPendingSignals.killed = true

/-- No deliverable signal is kept from its effect by a pass that ends early. A pass ends for the handler that it enters, and
otherwise not before every signal of the kernel's own has been handled. -/
structure NotStarved (p : Proc) : Prop where
  whole : (∃ s < 32, Delivered p s ∧ p.deliverable s = true) ∨
    ∀ s < 32, p.deliverable s = true → isKernel (bit s) = true → p.TakenUp s
  cont : p.deliverable 18 = true → contains p.signals sigstop = false → p.checkPendingSignals.frozen = false
  stop : p.deliverable 19 = true → p.checkPendingSignals.frozen = true
  user : (∃ s < 32, p.deliverable s = true ∧ p.handled s) → ∃ s < 32, p.deliverable s = true ∧ p.handled s ∧ Delivered p s

theorem delivered_of_stopsAt (hs : p.stopsAt = some u) (hh : p.handled u) : Delivered p u := by
  rcases pass_cases p with ⟨hs', -⟩ | ⟨v, q, hs', hup, hq⟩
  · rw [hs] at hs'
    cases hs'
  · rw [hs] at hs'
    cases hs'
    have hcx : q.trapCx = p.trapCx := by rw [hup.rest]
    have hcleared : contains p.checkPendingSignals.signals (bit u) = false := by
      rw [pass_pending (stopsAt_spec hs).1]
      simp [hs, hh]
    rw [callUser_handled ((hup.handled u).mpr hh)] at hq
    refine ⟨by rw [hq], by rw [hq, ← hup.actions], ?_, by rw [hq, hcx], hcleared⟩
    rw [hq]
    exact Arr.get_set_same _ _ (by decide)

/-- No signal of the kernel's own is ever being handled by user code. -/
def HandlingOk (p : Proc) : Prop := p.handlingSig = -1 ∨ ∃ s : Nat, s < 32 ∧ p.handlingSig = s ∧ isKernel (bit s) = false

theorem handlingOk_pass (h : HandlingOk p) : HandlingOk p.checkPendingSignals := by
  rcases pass_cases p with ⟨-, hup⟩ | ⟨u, q, hs, hup, hq⟩
  · have : p.checkPendingSignals.handlingSig = p.handlingSig := by rw [hup.rest]
    rwa [HandlingOk, this]
  · have hold : q.handlingSig = p.handlingSig := by rw [hup.rest]
    rw [hq, callUserSignalHandler]
    split
    · obtain ⟨hu, -, hk⟩ := stopsAt_spec hs
      exact Or.inr ⟨u, hu, rfl, hk⟩
    · rwa [HandlingOk, hold]

/-- A pass delivers only the signal it stops at. -/
theorem stopsAt_of_delivered {s : Nat} (h : HandlingOk p) (hs : s < 32) (hd : p.deliverable s = true)
    (hdel : Delivered p s) : p.stopsAt = some s ∧ p.handled s := by
  have hk : isKernel (bit s) = false := by
    rcases handlingOk_pass h with h1 | ⟨t, ht, h1, h2⟩
    · rw [hdel.handling] at h1
      omega
    · rw [hdel.handling] at h1
      rwa [show s = t by omega]
  have hne : s ≠ 18 ∧ s ≠ 19 := by
    constructor <;> rintro rfl <;> cases hk
  have hpend := pass_left (p := p) ⟨hs, hne⟩
  rw [hdel.cleared, pending_of_deliverable hd] at hpend
  simpa using hpend.symm

/-- Signals in whose way no other stands: behind an unhandled one there is none of the kernel's own, but for SIGKILL to a
    process that is killed already; a handled one is the first to stop a pass, and SIGCONT and SIGSTOP have nothing to
    change where they have no turn. -/
structure Unhindered (p : Proc) : Prop where
  unhandledLast : ∀ u, p.stopsAt = some u → ¬p.handled u → ∀ s < 32, u < s → p.deliverable s = true →
    isKernel (bit s) = true → s = 9 ∧ (p.killed = true ∨ p.deliverable 0 = true)
  handledFirst : (∃ s < 32, p.deliverable s = true ∧ p.handled s) → ∃ u, p.stopsAt = some u ∧ p.handled u
  cont : p.deliverable 18 = true → contains p.signals sigstop = false → (∃ u < 18, p.stopsAt = some u) → p.frozen = false
  stop : p.deliverable 19 = true → (∃ u < 19, p.stopsAt = some u) → p.frozen = true

/-- Where the pass ends before signal `j`. -/
theorem turn_or (hj : j < 32) (hk : isKernel (bit j) = true) (hd : p.deliverable j = true) :
    p.turn j = true ∧ (¬∃ u < j, p.stopsAt = some u) ∨ p.turn j = false ∧ ∃ u < j, p.stopsAt = some u := by
  cases hs : p.stopsAt with
  | none => exact Or.inl ⟨by rw [turn_of_none hs hj, hd], by simp⟩
  | some u =>
    have hne : u ≠ j := by
      rintro rfl
      exact stopsAt_ne_of_kernel hk hs
    rw [turn_of_some hs, hd]
    by_cases hlt : j < u
    · refine Or.inl ⟨by simp [hlt], ?_⟩
      rintro ⟨v, hv, e⟩
      cases e
      omega
    · exact Or.inr ⟨by simp [hlt], u, by omega, rfl⟩

theorem not_pending_turn (h : contains p.signals (bit j) = false) : p.turn j = false :=
  not_deliverable_turn (by rw [deliverable, h]; rfl)

theorem takenUp_of_turn (hj : j < 32) (hk : isKernel (bit j) = true) (hd : p.deliverable j = true) (ht : p.turn j = true) :
    p.TakenUp j := by
  unfold TakenUp
  split
  · rename_i hj
    rw [pass_taken hj hd, ht]
    rfl
  · have hcase : j = 0 ∨ j = 9 := by
      have := (isKernel_bit hj).mp hk
      omega
    rw [pass_killed]
    rcases hcase with rfl | rfl <;> simp [ht]

/-- What the kernel has handled although it has had no turn. -/
theorem takenUp_iff (hd : p.deliverable j = true) (hs : p.stopsAt = some u) (hlt : u < j) (hj : j = 9 ∨ j = 18 ∨ j = 19) :
    p.TakenUp j ↔ j = 9 ∧ (p.killed = true ∨ p.deliverable 0 = true) := by
  have ht : p.turn j = false := by
    rw [turn_of_some hs, decide_eq_false (by omega), Bool.and_false]
  rcases hj with rfl | hj
  · have hu : 0 < u := by
      refine Nat.pos_of_ne_zero ?_
      rintro rfl
      exact stopsAt_ne_of_kernel (by decide) hs
    have h0 : p.turn 0 = p.deliverable 0 := by rw [turn_of_some hs, decide_eq_true hu, Bool.and_true]
    rw [TakenUp, if_neg (by decide), pass_killed, ht, h0]
    simp
  · rw [TakenUp, if_pos hj, pass_taken hj hd, ht]
    constructor
    · intro hno
      cases hno
    · rintro ⟨rfl, -⟩
      omega

/-- The pass goes to its end exactly if no signal without a handler keeps it from one. -/
theorem whole_iff (h : HandlingOk p) :
    ((∃ s < 32, Delivered p s ∧ p.deliverable s = true) ∨
      ∀ s < 32, p.deliverable s = true → isKernel (bit s) = true → p.TakenUp s) ↔
    ∀ u, p.stopsAt = some u → ¬p.handled u → ∀ s < 32, u < s → p.deliverable s = true →
      isKernel (bit s) = true → s = 9 ∧ (p.killed = true ∨ p.deliverable 0 = true) := by
  have hkernel : ∀ u s, s < 32 → u < s → isKernel (bit s) = true → s = 9 ∨ s = 18 ∨ s = 19 := by
    intro u s hs hlt hk
    have := (isKernel_bit hs).mp hk
    omega
  constructor
  · intro hwhole u hu hno s hs hlt hd hk
    rcases hwhole with ⟨v, hv, hdel, hvd⟩ | htaken
    · obtain ⟨hv', hh⟩ := stopsAt_of_delivered h hv hvd hdel
      rw [hu] at hv'
      cases hv'
      exact absurd hh hno
    · exact (takenUp_iff hd hu hlt (hkernel u s hs hlt hk)).mp (htaken s hs hd hk)
  · intro hlast
    cases hu : p.stopsAt with
    | none => exact .inr fun s hs hd hk => takenUp_of_turn hs hk hd (by rw [turn_of_none hu hs, hd])
    | some u =>
      obtain ⟨hu32, hud, -⟩ := stopsAt_spec hu
      by_cases hh : p.handled u
      · exact .inl ⟨u, hu32, delivered_of_stopsAt hu hh, hud⟩
      · refine .inr fun s hs hd hk => ?_
        have hne : s ≠ u := by
          rintro rfl
          exact stopsAt_ne_of_kernel hk hu
        by_cases hlt : s < u
        · exact takenUp_of_turn hs hk hd (by rw [turn_of_some hu, hd, decide_eq_true hlt]; rfl)
        · have hlt : u < s := by omega
          exact (takenUp_iff hd hu hlt (hkernel u s hs hlt hk)).mpr (hlast u hu hh s hs hlt hd hk)

theorem notStarved_iff (h : HandlingOk p) : NotStarved p ↔ Unhindered p := by
  constructor
  · intro hn
    refine ⟨(whole_iff h).mp hn.whole, fun hex => ?_, fun hd hstop hex => ?_, fun hd hex => ?_⟩
    · obtain ⟨s, hs, hd, hh, hdel⟩ := hn.user hex
      exact ⟨s, stopsAt_of_delivered h hs hd hdel⟩
    · have hfrozen := hn.cont hd hstop
      rcases turn_or (by decide) (by decide) hd with ⟨-, hno⟩ | ⟨ht, -⟩
      · exact absurd hex hno
      · rwa [pass_frozen, not_pending_turn hstop, ht, if_neg (by simp), if_neg (by simp)] at hfrozen
    · have hfrozen := hn.stop hd
      rcases turn_or (by decide) (by decide) hd with ⟨-, hno⟩ | ⟨ht, u, hu, hs⟩
      · exact absurd hex hno
      · -- a pass that stops before SIGSTOP and after SIGCONT is none: it would stop in between
        have h18 : p.turn 18 = true → p.frozen = true := by
          intro h18
          rw [turn_of_some hs, Bool.and_eq_true, decide_eq_true_eq] at h18
          omega
        rw [pass_frozen, ht, if_neg (by simp)] at hfrozen
        by_cases h18' : p.turn 18 = true
        · exact h18 h18'
        · rwa [if_neg h18'] at hfrozen
  · intro hu
    refine ⟨(whole_iff h).mpr hu.unhandledLast, fun hd hstop => ?_, fun hd => ?_, fun hex => ?_⟩
    · rw [pass_frozen, not_pending_turn hstop, if_neg (by simp)]
      rcases turn_or (by decide) (by decide) hd with ⟨ht, -⟩ | ⟨ht, hex⟩
      · rw [ht, if_pos rfl]
      · rw [ht, if_neg (by simp)]
        exact hu.cont hd hstop hex
    · rw [pass_frozen]
      rcases turn_or (by decide) (by decide) hd with ⟨ht, -⟩ | ⟨ht, u, hlt, hs⟩
      · rw [ht, if_pos rfl]
      · have h18 : p.turn 18 = false := by
          rw [turn_of_some hs, decide_eq_false (by omega), Bool.and_false]
        rw [ht, h18, if_neg (by simp), if_neg (by simp)]
        exact hu.stop hd ⟨u, hlt, hs⟩
    · obtain ⟨u, hs, hh⟩ := hu.handledFirst hex
      obtain ⟨hlt, hd, -⟩ := stopsAt_spec hs
      exact ⟨u, hlt, hd, hh, delivered_of_stopsAt hs hh⟩

end

end Proc

/-! ## Runs -/

variable {w w' : Procs} {e : SignalEvent}

theorem Procs.on_some {pid : Nat} {ok : MainAt → Bool} {f : Proc → Option (Option Proc)} (h : w.on pid ok f = some w') :
    ∃ p r, w pid = some p ∧ f p = some r ∧ w' = Function.update w pid r := by
  rw [on] at h
  split at h
  · rename_i p hp
    obtain ⟨-, h⟩ := ite_none_right_eq_some.mp h
    obtain ⟨r, hr, rfl⟩ := map_eq_some_iff.mp h
    exact ⟨p, r, hp, hr, rfl⟩
  · cases h

/-- The process whose thread takes the step, or to which a signal is sent. -/
def SignalEvent.pid : SignalEvent → Nat
  | .kill pid _ | .sigprocmask pid _ | .sigaction pid _ _ _ | .fault pid _ | .trap pid _ | .sigreturn pid | .exec pid _
  | .fork pid _ _ | .exit pid | .finish pid | .resume pid => pid

/-- What an event makes of its process; `none` when the process ends. -/
inductive Proc.Next (p : Proc) : SignalEvent → Option Proc → Prop where
  | kill {pid : Nat} {signum : Int32} :
    Next p (.kill pid signum) (some { p with signals := p.signals ||| bit (signum.toBitVec.toNat % 32) })
  | sigprocmask {pid : Nat} {mask : SignalFlags} : Next p (.sigprocmask pid mask) (some { p with signalMask := mask })
  | sigaction {pid : Nat} {signum : Int32} {action : Option SignalAction} {oldAction : Bool} :
    Next p (.sigaction pid signum action oldAction) (some (p.sysSigaction signum action oldAction).2)
  | fault {pid : Nat} {illegal : Bool} :
    Next p (.fault pid illegal) (some { p with signals := p.signals ||| if illegal then sigill else sigsegv })
  | trap {pid : Nat} {cx : TrapContext} : Next p (.trap pid cx) (some { p with trapCx := cx, main := .trap })
  | sigreturn {pid : Nat} {a : UInt64} {q : Proc} (ret : p.sysSigreturn = some (a, q)) : Next p (.sigreturn pid) (some q)
  | exec {pid : Nat} {cx : TrapContext} : Next p (.exec pid cx) (some { p with trapCx := cx })
  | exit {pid : Nat} : Next p (.exit pid) none
  | finish {pid : Nat} {r : Option Proc} (finished : p.finished = r) : Next p (.finish pid) r
  | resume {pid : Nat} {r : Option Proc} (finished : p.finished = r) : Next p (.resume pid) r

/-- The one process that an event changes: its own, or the child of a `fork`. -/
inductive Procs.Changed (w : Procs) : SignalEvent → Nat → Option Proc → Prop where
  | refused {pid : Nat} {signum : Int32} {r : Option Proc} (same : w pid = r) : Changed w (.kill pid signum) pid r
  | own {e : SignalEvent} {p : Proc} {r : Option Proc} (at_ : w e.pid = some p) (next : p.Next e r) : Changed w e e.pid r
  | child {pid child : Nat} {kernelSp : UInt64} {p : Proc} (free : w child = none) :
    Changed w (.fork pid child kernelSp) child (some (p.forked kernelSp))

theorem Procs.step_some (hw : w.step e = some w') : ∃ pid r, w' = Function.update w pid r ∧ w.Changed e pid r := by
  cases e with
  | kill pid signum =>
    rw [step, some.injEq, sysKill] at hw
    have hsame : ∃ i r, w = Function.update w i r ∧ w.Changed (.kill pid signum) i r :=
      ⟨pid, w pid, (Function.update_eq_self pid w).symm, .refused rfl⟩
    split at hw
    · cases hw
      exact hsame
    · rename_i p hp
      dsimp only at hw
      split at hw
      · cases hw
        exact hsame
      · exact ⟨pid, _, hw.symm, .own hp .kill⟩
  | fork pid child kernelSp =>
    rw [step] at hw
    split at hw
    · rename_i hchild
      obtain ⟨-, heq⟩ := ite_none_right_eq_some.mp hw
      exact ⟨child, _, (some.inj heq).symm, .child hchild⟩
    · cases hw
  | sigreturn pid =>
    rw [step] at hw
    obtain ⟨p, r, hp, hr, rfl⟩ := on_some hw
    obtain ⟨⟨a, q⟩, hret, rfl⟩ := map_eq_some_iff.mp hr
    exact ⟨pid, _, rfl, .own hp (.sigreturn hret)⟩
  | finish pid =>
    rw [step] at hw
    obtain ⟨p, r, hp, hr, rfl⟩ := on_some hw
    exact ⟨pid, r, rfl, .own hp (.finish (some.inj hr))⟩
  | resume pid =>
    rw [step] at hw
    obtain ⟨p, r, hp, hr, rfl⟩ := on_some hw
    exact ⟨pid, r, rfl, .own hp (.resume (some.inj hr))⟩
  | sigprocmask pid _ | sigaction pid _ _ _ | fault pid _ | trap pid _ | exec pid _ | exit pid =>
    rw [step] at hw
    obtain ⟨p, r, hp, ⟨⟩, rfl⟩ := on_some hw
    exact ⟨pid, _, rfl, .own hp (by constructor)⟩

/-- `sigaction` sets one action, or changes nothing. -/
theorem Proc.sysSigaction_cases (p : Proc) (signum : Int32) (action : Option SignalAction) (oldAction : Bool) :
    (p.sysSigaction signum action oldAction).2 = p ∨ ∃ a, action = some a ∧ signum.toInt.toNat < 32 ∧
      (p.sysSigaction signum action oldAction).2 = { p with signalActions := p.signalActions.set signum.toInt.toNat a } := by
  unfold sysSigaction
  split
  · exact .inl rfl
  · split
    · exact .inl rfl
    · split
      · exact .inl rfl
      · exact .inr ⟨_, rfl, by omega, rfl⟩

/-- A property of every process. -/
def Procs.All (P : Proc → Prop) (w : Procs) : Prop := ∀ pid p, w pid = some p → P p

section

variable {P : Proc → Prop}

theorem Procs.All.update (h : w.All P) (pid : Nat) {r : Option Proc} (hr : ∀ p, r = some p → P p) :
    Procs.All P (Function.update w pid r) := by
  intro i p hi
  by_cases e : i = pid
  · subst e
    rw [Function.update_self] at hi
    exact hr p hi
  · rw [Function.update_of_ne e] at hi
    exact h i p hi

/-- What new processes have and every event keeps, all processes have. -/
theorem Procs.All.reach (hnew : ∀ cx, P (Proc.new cx)) (hchild : ∀ p kernelSp, P (forked p kernelSp))
    (hnext : ∀ p e q, P p → p.Next e (some q) → P q) (h : signals.Reach w) : w.All P := by
  refine h.inv (Procs.All P) ?_ ?_
  · rintro w ⟨cx, rfl⟩
    refine Procs.All.update (fun pid p hp => by cases hp) 0 fun p hp => ?_
    cases hp
    exact hnew cx
  · intro w e w' h hw
    obtain ⟨pid, r, rfl, hc⟩ := step_some hw
    refine h.update pid fun q hq => ?_
    subst hq
    cases hc with
    | refused same => exact h _ q same
    | own at_ next => exact hnext _ e q (h _ _ at_) next
    | child => exact hchild _ _

end

/-- A process that does not exit at the end of its trap is as the pass has left it. -/
theorem finished_some {p q : Proc} (hq : p.finished = some q) : q = { p.checkPendingSignals with main := q.main } := by
  rw [finished, handleSignals] at hq
  by_cases hgo : (!p.checkPendingSignals.frozen || p.checkPendingSignals.killed) = true
  · simp only [if_pos hgo] at hq
    cases herr : p.checkPendingSignals.signals.checkError with
    | none => rw [herr] at hq; cases hq; rfl
    | some e => rw [herr] at hq; cases hq
  · simp only [if_neg hgo] at hq
    cases hq
    rfl

theorem handlingOk_next {p q : Proc} (h : p.HandlingOk) (hq : p.Next e (some q)) : q.HandlingOk := by
  cases hq with
  | sigreturn ret =>
    obtain ⟨cx, -, hq⟩ := map_eq_some_iff.mp ret
    cases hq
    exact .inl rfl
  | finish hq | resume hq =>
    have hpass := handlingOk_pass h
    rwa [finished_some hq]
  | @sigaction _ signum action oldAction =>
    rcases p.sysSigaction_cases signum action oldAction with heq | ⟨a, -, -, heq⟩ <;> rw [heq] <;> exact h
  | kill | sigprocmask | fault | trap | exec => exact h

theorem handlingOk_reach (h : signals.Reach w) : w.All Proc.HandlingOk :=
  .reach (fun _ => .inl rfl) (fun _ _ => .inl rfl) (fun _ _ _ => handlingOk_next) h

/-- A child of the first process, with an empty trap context. -/
def child (es : List SignalEvent) : Option Procs :=
  signals.run (Function.update (fun _ => none) 0 (some (Proc.new default)))
    ([.trap 0 default, .fork 0 1 0, .finish 0] ++ es)

theorem exists_child (es : List SignalEvent) {Q : Proc → Prop} (h : ∃ w ∈ child es, ∃ p ∈ w 1, Q p) :
    ∃ w p, signals.Reach w ∧ w 1 = some p ∧ Q p := by
  obtain ⟨w, hw, p, hp, hq⟩ := h
  exact ⟨w, p, Machine.Reach.run (.init ⟨default, rfl⟩) hw, hp, hq⟩

/-- The signals `check_error` ends a process for. -/
def fatal : List Nat := [2, 4, 6, 8, 9, 11]

theorem fatal_lt (hi : i ∈ fatal) : i < 32 ∧ i ≠ 18 ∧ i ≠ 19 := by
  simp only [fatal, List.mem_cons, List.not_mem_nil, or_false] at hi
  omega

theorem checkError_cons {f : Nat → Bool} {l : List Nat} {rest : Option (Int × String)} (i : Nat) (msg : String)
    (h : rest.map Prod.fst = (l.find? f).map fun i : Nat => -(i : Int)) :
    (if f i = true then some (-(i : Int), msg) else rest).map Prod.fst =
      ((i :: l).find? f).map fun i : Nat => -(i : Int) := by
  rw [List.find?_cons]
  cases f i
  · exact h
  · rfl

/-- `check_error` reports the first fatal signal of the set. -/
theorem checkError_eq (s : SignalFlags) :
    s.checkError.map Prod.fst = (fatal.find? fun i => contains s (bit i)).map fun i : Nat => -(i : Int) := by
  have hnil : (none : Option (Int × String)).map Prod.fst =
      (([] : List Nat).find? fun i => contains s (bit i)).map fun i : Nat => -(i : Int) := rfl
  have h11 := checkError_cons 11 "Segmentation Fault, SIGSEGV=11" hnil
  have h9 := checkError_cons 9 "Killed, SIGKILL=9" h11
  have h8 := checkError_cons 8 "Erroneous Arithmetic Operation, SIGFPE=8" h9
  have h6 := checkError_cons 6 "Aborted, SIGABRT=6" h8
  exact checkError_cons 2 "Killed, SIGINT=2" (checkError_cons 4 "Illegal Instruction, SIGILL=4" h6)

theorem checkError_fatal {code : Int} {msg : String} (h : s.checkError = some (code, msg)) :
    ∃ i ∈ fatal, contains s (bit i) = true ∧ code = -(i : Int) := by
  have heq := checkError_eq s
  rw [h] at heq
  obtain ⟨i, hi, hcode⟩ := map_eq_some_iff.mp heq.symm
  have hpend := List.find?_some hi
  exact ⟨i, List.mem_of_find?_eq_some hi, hpend, hcode.symm⟩

theorem checkError_of_fatal (hi : i ∈ fatal) (h : contains s (bit i) = true) : ∃ e, s.checkError = some e := by
  rw [← isSome_iff_exists, ← isSome_map (f := Prod.fst), checkError_eq, isSome_map, List.find?_isSome]
  exact ⟨i, hi, h⟩

theorem checkError_sigkill (h : contains s sigkill = true) : ∃ e, s.checkError = some e :=
  checkError_of_fatal (i := 9) (by decide) h

namespace Proc

variable {p : Proc}

/-- The process exits at the end of its trap, for a fatal signal that is pending. -/
def Dies (p : Proc) : Prop :=
  ∃ code msg q, p.handleSignals = (.exits code msg, q) ∧ ∃ i ∈ fatal, contains p.signals (bit i) = true ∧ code = -(i : Int)

/-- A pass takes no fatal signal away but the one it delivers, and adds none. -/
theorem fatal_pending (hi : i ∈ fatal) : contains p.checkPendingSignals.signals (bit i) = true ↔
    contains p.signals (bit i) = true ∧ ¬(p.stopsAt = some i ∧ p.handled i) := by
  rw [pass_left (fatal_lt hi), Bool.and_eq_true, Bool.not_eq_true', decide_eq_false_iff_not]

/-- Neither SIGDEF nor SIGKILL is taken away. -/
theorem kernel_pending {j : Nat} (hj : j = 0 ∨ j = 9) :
    contains p.checkPendingSignals.signals (bit j) = contains p.signals (bit j) := by
  rw [pass_left (by omega)]
  simp [stopsAt_ne_of_kernel ((isKernel_bit (by omega)).mpr (by omega : j = 0 ∨ j = 9 ∨ j = 18 ∨ j = 19))]

theorem sigkill_pending (h : contains p.signals sigkill = true) : contains p.checkPendingSignals.signals sigkill = true :=
  (kernel_pending (.inr rfl)).trans h

/-- The loop of `handle_signals` ends with the next pass. -/
def leaves (p : Proc) : Bool :=
  p.killed || p.turn 0 || p.turn 9 || !p.turn 19 && (p.turn 18 || !p.frozen)

theorem leaves_eq (p : Proc) : (!p.checkPendingSignals.frozen || p.checkPendingSignals.killed) = p.leaves := by
  rw [pass_frozen, pass_killed, leaves]
  cases p.killed <;> cases p.turn 0 <;> cases p.turn 9 <;> cases p.turn 19 <;> cases p.turn 18 <;> cases p.frozen <;> rfl

/-- It ends the process exactly when the loop of `handle_signals` ends. -/
theorem dies_iff (h : contains p.signals sigkill = true) : p.Dies ↔ p.leaves = true := by
  obtain ⟨⟨code, msg⟩, herr⟩ := checkError_sigkill (sigkill_pending h)
  constructor
  · rintro ⟨code', msg', q, hrun, -⟩
    by_contra hgo
    rw [handleSignals] at hrun
    simp only [leaves_eq, if_neg hgo] at hrun
    cases hrun
  · intro hgo
    obtain ⟨i, hi, hpend, hcode⟩ := checkError_fatal herr
    refine ⟨code, msg, p.checkPendingSignals, ?_, i, hi, ((fatal_pending hi).mp hpend).1, hcode⟩
    rw [handleSignals]
    simp only [leaves_eq, if_pos hgo, herr]

end Proc

/-- A pending SIGKILL ends the process at the end of its trap exactly if the pass sets `killed` or leaves the process not
frozen. -/
theorem sigkill_ends_iff {p : Proc} (h : contains p.signals sigkill = true) :
    p.Dies ↔ p.killed = true ∨ p.turn 0 = true ∨ p.turn 9 = true ∨
      p.turn 19 = false ∧ (p.turn 18 = true ∨ p.frozen = false) := by
  rw [Proc.dies_iff h, Proc.leaves]
  simp only [Bool.or_eq_true, Bool.and_eq_true, Bool.not_eq_true']
  tauto

/-- A stopped process that does not mask SIGKILL and has nothing else pending. -/
theorem sigkill_ends_frozen : ∃ w p, signals.Reach w ∧ w 1 = some p ∧ p.frozen = true ∧ p.Dies := by
  obtain ⟨w, p, hw, hp, hfrozen, hpend, hturn⟩ : ∃ w p, signals.Reach w ∧ w 1 = some p ∧ p.frozen = true ∧
      contains p.signals sigkill = true ∧ p.turn 9 = true :=
    exists_child [.kill 1 19, .trap 1 default, .finish 1, .kill 1 9] (by decide +kernel)
  exact ⟨w, p, hw, hp, hfrozen, (sigkill_ends_iff hpend).mpr (.inr (.inr (.inl hturn)))⟩

/-- `sigprocmask` takes SIGKILL too: a process that has masked it and is stopped waits forever. -/
theorem sigkill_escaped : ∃ w p, signals.Reach w ∧ w 1 = some p ∧ p.main = .trap ∧ contains p.signals sigkill = true ∧
    p.handleSignals.1 = .yields :=
  exists_child [.trap 1 default, .sigprocmask 1 sigkill, .finish 1, .kill 1 19, .kill 1 9, .trap 1 default]
    (by decide +kernel)

end TCore.Kernel
