/-
  TCore.Kernel.Handlers — what a program sees of its signals: which of them end it, and what is left
  of it after its handlers have returned.

  `check_error` looks at all pending signals. It knows neither the mask of the process nor the handlers,
  so a signal that is blocked, or whose handler has to wait for the next pass, ends the process
  (`blocked_sigint_ends`).

  A handler that is entered saves the trap context and the signal being handled in one place each, so a
  handler that is entered while another one runs overwrites what the first one has to return to
  (`nested_handler_loses`).
-/

import TCore.Lib.Lists
import TCore.Kernel.SignalPass

namespace TCore.Kernel

open TCore.Lib SignalFlags
open List Option Proc Procs Function

/-! ## Fatal signals -/

namespace Proc

variable {p q : Proc} {sig u : Nat}

def pending (p : Proc) (sig : Nat) : Bool := contains p.signals (bit sig)

def blocked (p : Proc) (sig : Nat) : Bool := contains p.signalMask (bit sig)

/-- The signal is pending and the next pass does not deliver it. -/
def remains (p : Proc) (sig : Nat) : Bool := p.pending sig && !decide (p.stopsAt = some sig ∧ p.handled sig)

/-- `check_signals_error_of_current` ends the process because of signal `sig`. -/
def EndedBy (p : Proc) (sig : Nat) : Prop := ∃ msg q, p.handleSignals = (.exits (-(sig : Int)) msg, q)

theorem handleSignals_state (p : Proc) : p.handleSignals.2.signals = p.checkPendingSignals.signals := by
  rw [handleSignals]
  split
  · split <;> rfl
  · rfl

/-- What the last pass leaves of the fatal signals decides. -/
theorem endedBy_iff : p.EndedBy sig ↔ p.leaves = true ∧ fatal.find? p.remains = some sig := by
  have hremains : fatal.find? (fun i => contains p.checkPendingSignals.signals (bit i)) = fatal.find? p.remains := by
    apply find?_congr
    exact fun i hi => pass_left (fatal_lt hi)
  have hcode := checkError_eq p.checkPendingSignals.signals
  rw [hremains] at hcode
  rw [EndedBy, handleSignals]
  simp only [leaves_eq]
  by_cases hleaves : p.leaves = true
  · rw [if_pos hleaves]
    cases herr : p.checkPendingSignals.signals.checkError with
    | none =>
      rw [herr] at hcode
      have hnone : fatal.find? p.remains = none := by simpa using hcode.symm
      simp [hnone]
    | some e =>
      rw [herr] at hcode
      obtain ⟨i, hi, hcode⟩ := map_eq_some_iff.mp hcode.symm
      rw [hi]
      constructor
      · rintro ⟨msg, q, h⟩
        have : e.1 = -(sig : Int) := by
          rcases e with ⟨code, text⟩
          simp only [Prod.mk.injEq, TrapEnd.exits.injEq] at h
          exact h.1.1
        exact ⟨hleaves, by rw [show i = sig by omega]⟩
      · rintro ⟨-, h⟩
        cases h
        rcases e with ⟨code, text⟩
        refine ⟨text, p.checkPendingSignals, ?_⟩
        rw [hcode]
  · rw [if_neg hleaves]
    constructor
    · rintro ⟨msg, q, h⟩
      cases h
    · rintro ⟨h, -⟩
      exact absurd h hleaves

/-- The signals behind the one a pass stops at are as they were. -/
theorem pass_above (hs : p.stopsAt = some u) (hlt : u < sig) (hsig : sig < 32) :
    p.checkPendingSignals.pending sig = p.pending sig := by
  rw [pending, pass_pending hsig, turn_of_some hs, decide_eq_false hlt.not_gt, hs]
  simp [pending, hlt.ne]

/-- Blocked and handled signals at the end of a trap. SIGINT and SIGABRT end the process only where they are neither;
    a blocked signal stays pending; a handled one is delivered, or stays pending while one with a smaller number is. -/
structure Heeded (p : Proc) : Prop where
  fatal : ∀ sig ∈ [2, 6], p.EndedBy sig → p.pending sig = true ∧ p.blocked sig = false ∧ ¬p.handled sig
  blocked : ∀ sig < 32, p.pending sig = true → p.blocked sig = true → p.handleSignals.2.pending sig = true
  handled : ∀ sig < 32, p.deliverable sig = true → p.handled sig →
    Delivered p sig ∨
      p.handleSignals.2.pending sig = true ∧ ∃ u < sig, p.deliverable u = true ∧ p.handled u ∧ Delivered p u

/-- A pending SIGINT or SIGABRT that `check_error` would be the first to see is not blocked, and the next pass stops
    at it if it is handled; a pass that has a handled signal to deliver stops at it or at a handled one before it. -/
structure Spared (p : Proc) : Prop where
  fatal : ∀ sig ∈ [2, 6], p.leaves = true → p.pending sig = true → (∀ i ∈ fatal, i < sig → p.remains i = false) →
    p.blocked sig = false ∧ (p.handled sig → p.stopsAt = some sig)
  handled : ∀ sig < 32, p.deliverable sig = true → p.handled sig → ∃ u ≤ sig, p.stopsAt = some u ∧ p.handled u

theorem deliverable_iff :
    p.deliverable sig = true ↔ p.pending sig = true ∧ p.blocked sig = false ∧ p.masked (bit sig) = false := by
  rw [deliverable, pending, blocked, Bool.and_eq_true, Bool.and_eq_true, Bool.not_eq_true', Bool.not_eq_true', and_assoc]

theorem remains_iff : p.remains sig = true ↔ p.pending sig = true ∧ ¬(p.stopsAt = some sig ∧ p.handled sig) := by
  rw [remains, Bool.and_eq_true, Bool.not_eq_true', decide_eq_false_iff_not]

/-- `sig` is the first fatal signal that a pass leaves. -/
theorem first_fatal (h : sig ∈ [2, 6]) :
    fatal.find? p.remains = some sig ↔ p.remains sig = true ∧ ∀ i ∈ fatal, i < sig → p.remains i = false := by
  have hmem : sig ∈ fatal := by
    simp only [mem_cons, not_mem_nil, or_false] at h
    rcases h with rfl | rfl <;> decide
  rw [find?_sorted (by decide)]
  exact and_iff_right hmem

theorem heeded_iff (h : HandlingOk p) : Heeded p ↔ Spared p := by
  constructor
  · intro hh
    refine ⟨fun sig hsig hleaves hpend hfirst => ?_, fun sig hsig hd hhan => ?_⟩
    · by_cases hstop : p.stopsAt = some sig ∧ p.handled sig
      · exact ⟨(deliverable_iff.mp (stopsAt_spec hstop.1).2.1).2.1, fun _ => hstop.1⟩
      · have hended : p.EndedBy sig :=
          endedBy_iff.mpr ⟨hleaves, (first_fatal hsig).mpr ⟨remains_iff.mpr ⟨hpend, hstop⟩, hfirst⟩⟩
        obtain ⟨-, hb, hnot⟩ := hh.fatal sig hsig hended
        exact ⟨hb, fun hhan => absurd hhan hnot⟩
    · rcases hh.handled sig hsig hd hhan with hdel | ⟨-, u, hu, hdu, -, hdel⟩
      · exact ⟨sig, le_refl sig, stopsAt_of_delivered h hsig hd hdel⟩
      · exact ⟨u, hu.le, stopsAt_of_delivered h (by omega) hdu hdel⟩
  · intro hs
    refine ⟨fun sig hsig hended => ?_, fun sig hsig hp hb => ?_, fun sig hsig hd hhan => ?_⟩
    · obtain ⟨hleaves, hfind⟩ := endedBy_iff.mp hended
      obtain ⟨hrem, hfirst⟩ := (first_fatal hsig).mp hfind
      obtain ⟨hpend, hstop⟩ := remains_iff.mp hrem
      obtain ⟨hb, hat⟩ := hs.fatal sig hsig hleaves hpend hfirst
      exact ⟨hpend, hb, fun hhan => hstop ⟨hat hhan, hhan⟩⟩
    · rw [pending, handleSignals_state]
      exact (pass_undelivered hsig (by rw [deliverable, show contains p.signalMask (bit sig) = true from hb]; simp)).trans hp
    · obtain ⟨u, hle, hstop, hu⟩ := hs.handled sig hsig hd hhan
      rcases Nat.eq_or_lt_of_le hle with rfl | hlt
      · exact .inl (delivered_of_stopsAt hstop hu)
      · refine .inr ⟨?_, u, hlt, (stopsAt_spec hstop).2.1, hu, delivered_of_stopsAt hstop hu⟩
        rw [pending, handleSignals_state]
        exact (pass_above hstop hlt hsig).trans (deliverable_iff.mp hd).1

end Proc

/-- Blocked and handled signals do not end the process exactly if the first error that `check_error` finds is none of them, and
no handler has to wait behind a signal without one. -/
theorem signals_heeded_iff {w : Procs} (hw : signals.Reach w) {pid : Nat} {p : Proc} (hp : w pid = some p) :
    p.Heeded ↔ p.Spared := Proc.heeded_iff (handlingOk_reach hw pid p hp)

/-- SIGUSR1 and SIGUSR2 are pending for a process that has handlers for both. -/
theorem signals_heeded_two : ∃ w p, signals.Reach w ∧ w 1 = some p ∧ p.pending 10 = true ∧ p.pending 12 = true ∧
    p.Heeded := by
  obtain ⟨w, p, hw, hp, h10, h12, hfatal, hfirst, hstop, hhan⟩ : ∃ w p, signals.Reach w ∧ w 1 = some p ∧
      p.pending 10 = true ∧ p.pending 12 = true ∧ (∀ sig ∈ [2, 6], p.pending sig = false) ∧
      (∀ sig < 10, p.deliverable sig = false) ∧ p.stopsAt = some 10 ∧ p.handled 10 :=
    exists_child [.trap 1 default, .sigaction 1 10 (some ⟨64, 0⟩) true, .sigaction 1 12 (some ⟨128, 0⟩) true, .kill 1 10,
      .kill 1 12] (by decide +kernel)
  have hspared : p.Spared := by
    refine ⟨fun sig hsig _ hpend _ => ?_, fun sig _ hd _ => ⟨10, ?_, hstop, hhan⟩⟩
    · rw [hfatal sig hsig] at hpend
      cases hpend
    · by_contra hlt
      rw [hfirst sig (by omega)] at hd
      cases hd
  exact ⟨w, p, hw, hp, h10, h12, (signals_heeded_iff hw hp).mpr hspared⟩

/-- A process masks SIGINT; then somebody sends it one. -/
theorem blocked_sigint_ends : ∃ w p, signals.Reach w ∧ w 1 = some p ∧ p.main = .trap ∧ p.pending 2 = true ∧
    p.blocked 2 = true ∧ p.EndedBy 2 := by
  obtain ⟨w, p, hw, hp, hmain, hpend, hblocked, hended⟩ : ∃ w p, signals.Reach w ∧ w 1 = some p ∧ p.main = .trap ∧
      p.pending 2 = true ∧ p.blocked 2 = true ∧ p.leaves = true ∧ fatal.find? p.remains = some 2 :=
    exists_child [.trap 1 default, .sigprocmask 1 sigint, .finish 1, .kill 1 2, .trap 1 default] (by decide +kernel)
  exact ⟨w, p, hw, hp, hmain, hpend, hblocked, Proc.endedBy_iff.mpr hended⟩

/-! ## Handlers that return -/

/-- What a handler has interrupted. -/
structure Frame where
  cx : TrapContext
  handling : Int

/-- The handlers each process is in, the innermost first. -/
abbrev Frames := Nat → List Frame

/-- The process goes on, in a handler. -/
def Proc.enters (p : Proc) : Bool := p.finished.isSome && p.stopsAt.any fun u => decide (p.handled u)

/-- The handlers the process is in after the end of its trap. -/
def Proc.framesAfter (p : Proc) (frames : List Frame) : List Frame :=
  if p.enters then ⟨p.trapCx, p.handlingSig⟩ :: frames else frames

/-- The process that enters a handler. -/
def entering (w : Procs) : SignalEvent → Option Nat
  | .finish pid | .resume pid => if (w pid).any Proc.enters then some pid else none
  | _ => none

def noteHandlers (w : Procs) (e : SignalEvent) (frames : Frames) : Frames :=
  match e with
  | .finish pid | .resume pid =>
    Function.update frames pid ((w pid).elim (frames pid) fun p => p.framesAfter (frames pid))
  | .sigreturn pid => Function.update frames pid (frames pid).tail
  | .fork _ child _ => Function.update frames child []
  | _ => frames

def handlers : Machine (Procs × Frames) SignalEvent := signals.recording (fun _ => []) noteHandlers

/-- `sys_sigreturn` is called in a handler. -/
def inHandler (x : Procs × Frames) : SignalEvent → Bool
  | .sigreturn pid => !(x.2 pid).isEmpty
  | _ => true

/-- No handler is entered in another one. -/
def unnested (x : Procs × Frames) (e : SignalEvent) : Bool := (entering x.1 e).all fun pid => (x.2 pid).isEmpty

/-- The handlers return, one after the other: each `sys_sigreturn` restores what its handler has interrupted, and
    returns the interrupted a0, which is then written to a0. -/
def Proc.Unwinds (p : Proc) : List Frame → Prop
  | [] => True
  | f :: frames => ∃ q, p.sysSigreturn = some (f.cx.x.get 10, q) ∧ q.trapCx = f.cx ∧ q.handlingSig = f.handling ∧
      q.Unwinds frames

/-- A property of every process and the handlers it is in. -/
def Framed (P : Proc → List Frame → Prop) (x : Procs × Frames) : Prop := ∀ pid p, x.1 pid = some p → P p (x.2 pid)

section
variable {w w' : Procs} {frames frames' : Frames} {e : SignalEvent} {p q : Proc} {pid : Nat} {fs : List Frame}

theorem Framed.update {P : Proc → List Frame → Prop} (h : Framed P (w, frames)) {r : Option Proc}
    (hr : ∀ q, r = some q → P q fs) : Framed P (update w pid r, update frames pid fs) := by
  intro i q hi
  by_cases he : i = pid
  · subst he
    simp only [update_self] at hi ⊢
    exact hr q hi
  · simp only [update_of_ne he] at hi ⊢
    exact h i q hi

/-- What a step does to the saved context of a process, and to the handlers it is in. -/
inductive FrameStep (w : Procs) (frames : Frames) : SignalEvent → Nat → Proc → List Frame → Prop where
  | keep {e : SignalEvent} {pid : Nat} {p q : Proc} (at_ : w pid = some p) (no : entering w e = none)
    (backup : q.trapCtxBackup = p.trapCtxBackup) (handling : q.handlingSig = p.handlingSig) :
    FrameStep w frames e pid q (frames pid)
  | new {e : SignalEvent} {pid : Nat} {q : Proc} (no : entering w e = none) (handling : q.handlingSig = -1) :
    FrameStep w frames e pid q []
  | leave {pid : Nat} {p q : Proc} {a : UInt64} (at_ : w pid = some p) (ret : p.sysSigreturn = some (a, q)) :
    FrameStep w frames (.sigreturn pid) pid q (frames pid).tail
  | enter {e : SignalEvent} {pid u : Nat} {p q : Proc} (at_ : w pid = some p) (yes : entering w e = some pid)
    (backup : q.trapCtxBackup = some p.trapCx) (handling : q.handlingSig = u) :
    FrameStep w frames e pid q (⟨p.trapCx, p.handlingSig⟩ :: frames pid)

/-- A pass that enters no handler keeps the saved context. -/
theorem pass_keeps (h : ¬∃ u, p.stopsAt = some u ∧ p.handled u) :
    p.checkPendingSignals.trapCtxBackup = p.trapCtxBackup ∧ p.checkPendingSignals.handlingSig = p.handlingSig := by
  rcases pass_cases p with ⟨-, hup⟩ | ⟨u, q, hs, hup, hq⟩
  · rw [hup.rest]
    exact ⟨rfl, rfl⟩
  · rw [hq, callUser_unhandled fun hu => h ⟨u, hs, (hup.handled u).mp hu⟩, hup.rest]
    exact ⟨rfl, rfl⟩

theorem enters_iff (hq : p.finished = some q) : p.enters = true ↔ ∃ u, p.stopsAt = some u ∧ p.handled u := by
  rw [enters, hq, isSome_some, Bool.true_and, Option.any_eq_true]
  simp

/-- The end of a trap, for `finish` and `resume`. -/
theorem frameStep_finished (hp : w pid = some p) (hq : p.finished = some q)
    (he : entering w e = if p.enters then some pid else none) :
    FrameStep w frames e pid q (p.framesAfter (frames pid)) := by
  rw [framesAfter]
  have hstate := finished_some hq
  by_cases hent : p.enters = true
  · obtain ⟨u, hs, hu⟩ := (enters_iff hq).mp hent
    have hdel := delivered_of_stopsAt hs hu
    rw [if_pos hent] at he ⊢
    refine .enter hp he ?_ (u := u) ?_
    · rw [hstate]
      exact hdel.backup
    · rw [hstate]
      exact hdel.handling
  · obtain ⟨hb, hh⟩ := pass_keeps fun hex => hent ((enters_iff hq).mpr hex)
    rw [if_neg hent] at he ⊢
    refine .keep hp he ?_ ?_
    · rw [hstate]
      exact hb
    · rw [hstate]
      exact hh

/-- The step changes one process and the handlers it is in; one that ends it enters no handler. -/
def Changes (w w' : Procs) (frames frames' : Frames) (e : SignalEvent) : Prop :=
  ∃ pid r fs, w' = Function.update w pid r ∧ frames' = Function.update frames pid fs ∧
    (r = none → entering w e = none) ∧ ∀ q, r = some q → FrameStep w frames e pid q fs

theorem changes_keep (hp : w pid = some p) (he : entering w e = none) (hb : q.trapCtxBackup = p.trapCtxBackup)
    (hh : q.handlingSig = p.handlingSig) : Changes w (update w pid (some q)) frames frames e := by
  refine ⟨pid, _, frames pid, rfl, by simp, fun _ => he, ?_⟩
  rintro _ ⟨⟩
  exact .keep hp he hb hh

theorem changes_finish {r : Option Proc} (hp : w pid = some p) (hr : p.finished = r)
    (he : entering w e = if p.enters then some pid else none) :
    Changes w (update w pid r) frames
      (update frames pid ((w pid).elim (frames pid) fun p => p.framesAfter (frames pid))) e := by
  refine ⟨pid, r, p.framesAfter (frames pid), rfl, by rw [hp]; rfl, fun hnone => ?_, fun q hq => ?_⟩
  · rw [he, enters, hr, hnone]
    rfl
  · exact frameStep_finished hp (hr.trans hq) he

theorem handlers_changes (h : handlers.step (w, frames) e = some (w', frames')) : Changes w w' frames frames' e := by
  obtain ⟨hw, rfl⟩ := Machine.recording_step.mp h
  obtain ⟨pid, r, rfl, hc⟩ := step_some hw
  cases hc with
  | refused same =>
    exact ⟨_, _, frames _, rfl, by simp [noteHandlers], fun _ => rfl, fun q hq => .keep (same.trans hq) rfl rfl rfl⟩
  | child =>
    refine ⟨_, _, [], rfl, rfl, fun _ => rfl, ?_⟩
    rintro q ⟨⟩
    exact .new rfl rfl
  | @own _ p _ at_ next =>
    cases next with
    | sigreturn ret =>
      refine ⟨_, _, _, rfl, rfl, fun _ => rfl, ?_⟩
      rintro q ⟨⟩
      exact .leave at_ ret
    | @finish pid _ hr | @resume pid _ hr =>
      have hp : w pid = some p := at_
      exact changes_finish hp hr (by rw [entering, hp]; rfl)
    | @exit pid => exact ⟨pid, none, frames pid, rfl, by simp [noteHandlers], fun _ => rfl, nofun⟩
    | @sigaction pid signum action oldAction =>
      rcases p.sysSigaction_cases signum action oldAction with heq | ⟨a, -, -, heq⟩ <;> rw [heq] <;>
        exact changes_keep at_ rfl rfl rfl
    | kill | sigprocmask | fault | trap | exec => exact changes_keep at_ rfl rfl rfl

/-- A process is in one handler at most, and what the handler has interrupted is what is saved. -/
inductive Single (p : Proc) : List Frame → Prop where
  | outside (handling : p.handlingSig = -1) : Single p []
  | inside {f : Frame} (outer : f.handling = -1) (backup : p.trapCtxBackup = some f.cx) (handling : p.handlingSig ≠ -1) :
    Single p [f]

theorem sysSigreturn_of_backup {cx : TrapContext} (h : p.trapCtxBackup = some cx) :
    p.sysSigreturn = some (cx.x.get 10, { p with handlingSig := -1, trapCx := cx }) := by
  rw [sysSigreturn, h]
  rfl

theorem Single.unwinds (h : Single p fs) : p.Unwinds fs := by
  cases h with
  | outside => trivial
  | inside outer backup _ => exact ⟨_, sysSigreturn_of_backup backup, rfl, outer.symm, trivial⟩

theorem Single.step (h : Framed Single (w, frames)) (hin : inHandler (w, frames) e = true)
    (hok : unnested (w, frames) e = true) (hs : FrameStep w frames e pid q fs) : Single q fs := by
  cases hs with
  | @keep _ _ p _ at_ _ backup handling =>
    have hp : Single p (frames pid) := h pid p at_
    generalize frames pid = old at hp ⊢
    cases hp with
    | outside hh => exact .outside (by rw [handling, hh])
    | inside outer hb hh => exact .inside outer (by rw [backup, hb]) (by rwa [handling])
  | new _ handling => exact .outside handling
  | @leave _ p _ a at_ ret =>
    have hp : Single p (frames pid) := h pid p at_
    obtain ⟨cx, -, hq⟩ := map_eq_some_iff.mp ret
    cases hq
    have hin : (frames pid).isEmpty = false := by simpa [inHandler] using hin
    generalize frames pid = old at hp hin ⊢
    cases hp with
    | outside => cases hin
    | inside => exact .outside rfl
  | @enter _ _ u p _ at_ yes backup handling =>
    have hp : Single p (frames pid) := h pid p at_
    rw [unnested, yes, all_some, List.isEmpty_iff] at hok
    simp only at hok
    rw [hok] at hp ⊢
    cases hp with
    | outside hh => exact .inside hh backup (by omega)

/-- A handler that is entered in another one: when it returns, the signal being handled is forgotten. -/
theorem Single.nested (h : Framed Single (w, frames)) (hno : unnested (w, frames) e = false)
    (hs : FrameStep w frames e pid q fs) : ¬q.Unwinds fs := by
  cases hs with
  | keep _ no _ _ =>
    rw [unnested, no] at hno
    cases hno
  | new no _ =>
    rw [unnested, no] at hno
    cases hno
  | leave => cases hno
  | @enter _ _ u p _ at_ yes backup handling =>
    have hp : Single p (frames pid) := h pid p at_
    rw [unnested, yes, all_some] at hno
    simp only at hno
    generalize frames pid = old at hp hno ⊢
    cases hp with
    | outside => cases hno
    | inside outer _ hh =>
      rintro ⟨r, hret, -, hr, -⟩
      rw [sysSigreturn_of_backup backup] at hret
      cases hret
      exact hh hr.symm

end

/-- In every run in which no handler is entered in another one, the handlers return to what they have interrupted;
    and the first entry of a handler in another one is a step after which they do not. -/
theorem handlers_transparent {x : Procs × Frames}
    (h : (handlers.only fun x e => inHandler x e = true ∧ unnested x e = true).Reach x) :
    Framed Proc.Unwinds x ∧
    ∀ e y, inHandler x e = true → handlers.step x e = some y → (Framed Proc.Unwinds y ↔ unnested x e = true) := by
  have hstep : ∀ x e y, Framed Single x → inHandler x e = true → unnested x e = true → handlers.step x e = some y →
      Framed Single y := by
    rintro ⟨w, frames⟩ e ⟨w', frames'⟩ hx hin hok hy
    obtain ⟨pid, r, fs, rfl, rfl, -, hr⟩ := handlers_changes hy
    exact hx.update fun q hq => Single.step hx hin hok (hr q hq)
  have hinv : Framed Single x := by
    refine Machine.Reach.inv (M := handlers.only _) (Framed Single) ?_ ?_ h
    · rintro ⟨w, frames⟩ ⟨⟨cx, rfl⟩, rfl⟩ pid p hp
      by_cases hpid : pid = 0
      · subst hpid
        cases hp
        exact .outside rfl
      · simp only [Function.update_of_ne hpid] at hp
        cases hp
    · intro x e y hx hy
      obtain ⟨⟨hin, hok⟩, hy⟩ := Machine.only_step.mp hy
      exact hstep x e y hx hin hok hy
  refine ⟨fun pid p hp => (hinv pid p hp).unwinds, fun e y hin hy => ⟨fun hun => ?_, fun hok pid p hp => ?_⟩⟩
  · by_contra hno
    rcases x with ⟨w, frames⟩
    rcases y with ⟨w', frames'⟩
    obtain ⟨pid, r, fs, rfl, rfl, hnone, hr⟩ := handlers_changes hy
    cases r with
    | none => exact hno (by rw [unnested, hnone rfl]; rfl)
    | some q =>
      have hq : q.Unwinds fs := by simpa using hun pid q (by simp)
      exact Single.nested hinv (by simpa using hno) (hr q rfl) hq
  · exact (hstep x e y hinv hin hok hy pid p hp).unwinds

/-- The first process, before its first trap. -/
def firstProc : Procs × Frames := (Function.update (fun _ => none) 0 (some (Proc.new default)), fun _ => [])

def handlerContext (sepc : UInt64) : TrapContext := { (default : TrapContext) with sepc := sepc }

/-- SIGUSR1 and SIGUSR2, each with a handler; the second one is sent when the handler of the first has returned. -/
theorem handlers_transparent_twice : ∃ x p f,
    (handlers.only fun x e => inHandler x e = true ∧ unnested x e = true).Reach x ∧
    x.1 1 = some p ∧ x.2 1 = [f] ∧ f.cx.sepc = 4 ∧ p.handlingSig = 12 ∧ p.Unwinds [f] := by
  have hinit : (handlers.only fun x e => inHandler x e = true ∧ unnested x e = true).Reach firstProc :=
    .init ⟨⟨default, rfl⟩, rfl⟩
  have hrun : ∃ x ∈ handlers.runOnly (fun x e => inHandler x e = true ∧ unnested x e = true) firstProc
      [.trap 0 default, .fork 0 1 0, .finish 0, .sigaction 1 10 (some ⟨64, 0⟩) true, .sigaction 1 12 (some ⟨128, 0⟩) true,
        .kill 1 10, .trap 1 (handlerContext 4), .finish 1, .trap 1 (handlerContext 68), .sigreturn 1, .finish 1,
        .kill 1 12, .trap 1 (handlerContext 4), .finish 1],
      (∃ p ∈ x.1 1, p.handlingSig = 12) ∧ (x.2 1).map (fun f => f.cx.sepc) = [4] := by decide +kernel
  obtain ⟨x, hx, ⟨p, hp, hsig⟩, hf⟩ := hinit.exists_runOnly hrun
  obtain ⟨f, hf, hsepc⟩ := map_eq_singleton_iff.mp hf
  refine ⟨x, p, f, hx, hp, hf, hsepc, hsig, ?_⟩
  rw [← hf]
  exact (handlers_transparent hx).1 1 p hp

/-- SIGUSR2 arrives in the handler of SIGUSR1, which has been entered at the context with sepc 4. The handler of SIGUSR2
    returns to the other one; that returns to itself, at the place where it was interrupted. -/
theorem nested_handler_loses : ∃ x, (handlers.only fun x e => inHandler x e = true).Reach x ∧ ∃ p f,
    x.1 1 = some p ∧ x.2 1 = [f] ∧ p.main = .trap ∧ f.cx.sepc = 4 ∧
    ∃ a q, p.sysSigreturn = some (a, q) ∧ q.trapCx.sepc = 68 := by
  have hinit : (handlers.only fun x e => inHandler x e = true).Reach firstProc := .init ⟨⟨default, rfl⟩, rfl⟩
  have hrun : ∃ x ∈ handlers.runOnly (fun x e => inHandler x e = true) firstProc
      [.trap 0 default, .fork 0 1 0, .finish 0, .sigaction 1 10 (some ⟨64, 0⟩) true, .sigaction 1 12 (some ⟨128, 0⟩) true,
        .kill 1 10, .trap 1 (handlerContext 4), .finish 1, .kill 1 12, .trap 1 (handlerContext 68), .finish 1,
        .trap 1 (handlerContext 132), .sigreturn 1, .finish 1, .trap 1 (handlerContext 72)],
      (∃ p ∈ x.1 1, p.main = .trap ∧ ∃ r ∈ p.sysSigreturn, r.2.trapCx.sepc = 68) ∧
        (x.2 1).map (fun f => f.cx.sepc) = [4] := by decide +kernel
  obtain ⟨x, hx, ⟨p, hp, hmain, ⟨a, q⟩, hret, hq⟩, hf⟩ := hinit.exists_runOnly hrun
  obtain ⟨f, hf, hsepc⟩ := map_eq_singleton_iff.mp hf
  exact ⟨x, hx, p, f, hp, hf, hmain, hsepc, a, q, hret, hq⟩

end TCore.Kernel
