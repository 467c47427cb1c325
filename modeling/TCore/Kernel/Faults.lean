/-
  TCore.Kernel.Faults — a thread that faults (trap/mod.rs).

  A fault adds SIGSEGV or SIGILL to the signals of the process, and `trap_handler` goes on to its end. There only
  the main thread looks at the signals. Another thread goes straight to `trap_return`, with the `sepc` of the
  fault in its trap context: it executes the same instruction again, until the main thread traps next.

  `faults` follows one thread from its fault on, through everything other threads and processes do.
-/

import TCore.Kernel.Kill

namespace TCore.Kernel

open TCore.Lib SignalFlags
open Function (update_of_ne update_self update)
open Option Procs

inductive FaultedAt where
  /-- In `trap_handler`, with the signal added. -/
  | trap
  /-- Suspended in the loop of `handle_signals`. -/
  | looping
  | user
  /-- The process has been terminated. -/
  | ended
  deriving DecidableEq

/-- The processes and the thread that has faulted, with its trap context. -/
structure Faulted where
  procs : Procs
  thread : FaultedAt
  cx : TrapContext

inductive FaultEvent where
  | other (e : SignalEvent)
  /-- The thread goes on to the end of `trap_handler`. -/
  | goOn

/-- The number of the signal of a fault. -/
def faultSignal (illegal : Bool) : Nat := if illegal then 4 else 11

namespace SignalEvent

/-- A step of the main thread of a process. -/
def ofMain (pid : Nat) : SignalEvent → Bool
  | .trap q _ | .sigreturn q | .exec q _ | .fork q _ _ | .exit q | .finish q | .resume q => q == pid
  | .kill _ _ | .sigprocmask _ _ | .sigaction _ _ _ _ | .fault _ _ => false

/-- No handler is set for this signal of the process. -/
def setsNoHandler (pid n : Nat) : SignalEvent → Prop
  | .sigaction q signum action _ => q = pid → signum.toInt.toNat = n → ∀ a, action = some a → a.handler = 0
  | _ => True

end SignalEvent

/-- The end of `trap_handler`, of thread `tid`. -/
def Procs.trapEnd (w : Procs) (pid tid : Nat) : Option (Procs × FaultedAt) :=
  (w pid).map fun p =>
    if tid = 0 then
      match p.handleSignals with
      | (.exits _ _, _) => (Function.update w pid none, .ended)
      | (.returns, q) => (Function.update w pid (some q), .user)
      | (.yields, q) => (Function.update w pid (some q), .looping)
    else (w, .user)

namespace Faulted

/-- Thread `tid` of a process traps with a fault. -/
def start (w : Procs) (p : Proc) (pid tid : Nat) (illegal : Bool) (cx : TrapContext) : Faulted :=
  ⟨Function.update w pid (some { p with
    signals := p.signals ||| bit (faultSignal illegal)
    main := if tid = 0 then .trap else p.main }), .trap, cx⟩

def step (pid tid : Nat) (s : Faulted) : FaultEvent → Option Faulted
  | .other e =>
    if tid = 0 ∧ s.thread ≠ .ended ∧ e.ofMain pid = true then none
    else (s.procs.step e).map fun w => ⟨w, if (w pid).isNone then .ended else s.thread, s.cx⟩
  | .goOn =>
    if s.thread = .trap ∨ s.thread = .looping then (s.procs.trapEnd pid tid).map fun (w, thread) => ⟨w, thread, s.cx⟩ else none

end Faulted

/-- What can happen after a fault. -/
def faults (w : Procs) (p : Proc) (pid tid : Nat) (illegal : Bool) (cx : TrapContext) : Machine Faulted FaultEvent where
  init s := s = .start w p pid tid illegal cx
  step := Faulted.step pid tid

/-- No thread sets a handler for the signal meanwhile. -/
def faultOk (pid : Nat) (illegal : Bool) (_ : Faulted) : FaultEvent → Prop
  | .other e => e.setsNoHandler pid (faultSignal illegal)
  | .goOn => True

/-! ## The main thread -/

namespace Proc

variable {p q : Proc} {n : Nat}

/-- The signal is pending, and there is no handler for it. -/
def Doomed (n : Nat) (p : Proc) : Prop := contains p.signals (bit n) = true ∧ ¬p.handled n

theorem pass_handled (p : Proc) (n : Nat) : p.checkPendingSignals.handled n ↔ p.handled n := by
  rcases pass_cases p with ⟨-, hup⟩ | ⟨u, q, -, hup, hq⟩
  · exact hup.handled n
  · rw [hq, ← hup.handled n]
    unfold callUserSignalHandler
    split <;> exact Iff.rfl

theorem Doomed.pass (hn : n ∈ fatal) (h : p.Doomed n) : p.checkPendingSignals.Doomed n :=
  ⟨(fatal_pending hn).mpr ⟨h.1, fun hstop => h.2 hstop.2⟩, fun hh => h.2 ((pass_handled p n).mp hh)⟩

/-- The loop of `handle_signals` goes on, or the process ends. -/
theorem Doomed.handleSignals (hn : n ∈ fatal) (h : p.Doomed n) :
    (p.leaves = true ∧ ∃ code msg q, p.handleSignals = (.exits code msg, q)) ∨
      p.leaves = false ∧ ∃ q, p.handleSignals = (.yields, q) ∧ q.Doomed n := by
  rw [Proc.handleSignals, leaves_eq]
  split
  · rename_i hleaves
    obtain ⟨⟨code, msg⟩, herr⟩ := checkError_of_fatal hn (h.pass hn).1
    rw [herr]
    exact .inl ⟨hleaves, code, msg, _, rfl⟩
  · rename_i hleaves
    exact .inr ⟨Bool.not_eq_true _ ▸ hleaves, _, rfl, h.pass hn⟩

theorem Doomed.sigaction {signum : Int32} {action : Option SignalAction} {oldAction : Bool} (h : p.Doomed n)
    (hno : signum.toInt.toNat = n → ∀ a, action = some a → a.handler = 0) : (p.sysSigaction signum action oldAction).2.Doomed n := by
  rcases p.sysSigaction_cases signum action oldAction with heq | ⟨a, ha, hlt, heq⟩
  · rwa [heq]
  · rw [heq]
    refine ⟨h.1, ?_⟩
    unfold Proc.handled
    dsimp only
    rw [Arr.get_set _ _ hlt]
    split
    · rename_i hn
      rw [hno hn.symm a ha]
      exact not_not.mpr rfl
    · exact h.2

end Proc

section step

variable {w w' : Procs} {pid n : Nat} {p : Proc} {e : SignalEvent}

/-- What the other threads do leaves the signal pending, and the process where it is. -/
theorem Procs.step_doomed (hn : n < 32) (hp : w pid = some p) (hd : p.Doomed n) (hmain : e.ofMain pid = false)
    (hno : e.setsNoHandler pid n) (h : w.step e = some w') : ∃ p', w' pid = some p' ∧ p'.Doomed n := by
  obtain ⟨q, r, rfl, hc⟩ := step_some h
  by_cases hq : pid = q
  · subst hq
    rw [update_self]
    cases hc with
    | refused same => exact ⟨p, same.symm.trans hp, hd⟩
    | child free =>
      rw [hp] at free
      cases free
    | own at_ next =>
      cases hp.symm.trans at_
      cases next with
      | kill | fault => exact ⟨_, rfl, contains_of_or _ hn hd.1, hd.2⟩
      | sigprocmask => exact ⟨_, rfl, hd⟩
      | sigaction => exact ⟨_, rfl, hd.sigaction (hno rfl)⟩
      | trap | sigreturn _ | exec | exit | finish _ | resume _ => simp [SignalEvent.ofMain, SignalEvent.pid] at hmain
  · exact ⟨p, (update_of_ne hq _ _).trans hp, hd⟩

end step

namespace Faulted

variable {w : Procs} {p : Proc} {pid : Nat} {illegal : Bool} {cx : TrapContext} {s s' : Faulted} {e : FaultEvent}

theorem faultSignal_fatal (illegal : Bool) : faultSignal illegal ∈ fatal := by
  cases illegal <;> decide

/-- The main thread stays in the kernel with its signal pending. -/
def Held (pid : Nat) (illegal : Bool) (s : Faulted) : Prop :=
  s.thread = .ended ∨ s.thread ≠ .user ∧ ∃ p, s.procs pid = some p ∧ p.Doomed (faultSignal illegal)

theorem held_start (hh : ¬p.handled (faultSignal illegal)) : Held pid illegal (start w p pid 0 illegal cx) := by
  have hlt : faultSignal illegal < 32 := by cases illegal <;> decide
  refine .inr ⟨FaultedAt.noConfusion, _, update_self _ _ _, ?_, hh⟩
  dsimp only
  rw [contains_or _ hlt]
  simp

theorem not_ended {tid : Nat} (hstep : s.step pid tid .goOn = some s') : s.thread ≠ .ended := by
  obtain ⟨hat, -⟩ := ite_none_right_eq_some.mp hstep
  rcases hat with hat | hat <;> rw [hat] <;> exact FaultedAt.noConfusion

/-- The end of the trap. -/
theorem goOn_doomed (hp : s.procs pid = some p) (hd : p.Doomed (faultSignal illegal)) (hstep : s.step pid 0 .goOn = some s') :
    (p.leaves = true ∧ s'.thread = .ended) ∨
      p.leaves = false ∧ s'.thread = .looping ∧ ∃ q, s'.procs pid = some q ∧ q.Doomed (faultSignal illegal) := by
  obtain ⟨-, hstep⟩ := ite_none_right_eq_some.mp hstep
  obtain ⟨⟨w', thread⟩, hend, rfl⟩ := map_eq_some_iff.mp hstep
  unfold trapEnd at hend
  rw [hp, map_some, if_pos rfl] at hend
  rcases hd.handleSignals (faultSignal_fatal illegal) with ⟨hl, code, msg, q, hrun⟩ | ⟨hl, q, hrun, hq⟩
  · rw [hrun] at hend
    cases hend
    exact .inl ⟨hl, rfl⟩
  · rw [hrun] at hend
    cases hend
    exact .inr ⟨hl, rfl, q, update_self _ _ _, hq⟩

theorem Held.step (h : Held pid illegal s) (hok : faultOk pid illegal s e) (hstep : s.step pid 0 e = some s') : Held pid illegal s' := by
  have hlt : faultSignal illegal < 32 := by cases illegal <;> decide
  cases e with
  | other e =>
    obtain ⟨hmain, hstep⟩ := ite_none_left_eq_some.mp hstep
    obtain ⟨w', hw, rfl⟩ := map_eq_some_iff.mp hstep
    rcases h with hended | ⟨huser, p, hp, hd⟩
    · left
      dsimp only
      rw [hended, ite_self]
    · by_cases hended : s.thread = .ended
      · left
        dsimp only
        rw [hended, ite_self]
      · have hmain : e.ofMain pid = false := by
          rw [← Bool.not_eq_true]
          exact fun hm => hmain ⟨rfl, hended, hm⟩
        obtain ⟨p', hp', hd'⟩ := step_doomed hlt hp hd hmain hok hw
        refine .inr ⟨?_, p', hp', hd'⟩
        dsimp only
        rw [hp']
        exact huser
  | goOn =>
    obtain ⟨-, p, hp, hd⟩ := h.resolve_left (not_ended hstep)
    rcases goOn_doomed hp hd hstep with ⟨-, hended⟩ | ⟨-, hloop, q, hq, hdq⟩
    · exact .inl hended
    · exact .inr ⟨by rw [hloop]; exact FaultedAt.noConfusion, q, hq, hdq⟩

theorem held_reach (hh : ¬p.handled (faultSignal illegal))
    (hs : ((faults w p pid 0 illegal cx).only (faultOk pid illegal)).Reach s) : Held pid illegal s := by
  refine hs.inv (Held pid illegal) ?_ ?_
  · rintro s rfl
    exact held_start hh
  · intro s e s' h hstep
    obtain ⟨hok, hstep⟩ := Machine.only_step.mp hstep
    exact h.step hok hstep

end Faulted

/-! ## Any thread -/

/-- A thread that has faulted with no handler for the signal. Only the main thread stays in the kernel, and there until an end
of its trap with the process not frozen, which ends the process. -/
theorem fault_never_resumes_iff {w : Procs} {p : Proc} {pid : Nat} {illegal : Bool} (tid : Nat) (cx : TrapContext)
    (hhandler : ¬p.handled (faultSignal illegal)) :
    ((∀ s, ((faults w p pid tid illegal cx).only (faultOk pid illegal)).Reach s → s.thread ≠ .user) ↔ tid = 0) ∧
      (tid = 0 → ∀ s s' q, ((faults w p pid tid illegal cx).only (faultOk pid illegal)).Reach s → s.procs pid = some q →
        s.step pid tid .goOn = some s' → (s'.thread = .ended ↔ q.leaves = true)) := by
  refine ⟨⟨?_, ?_⟩, ?_⟩
  · intro hnever
    by_contra htid
    have hinit : ((faults w p pid tid illegal cx).only (faultOk pid illegal)).Reach (.start w p pid tid illegal cx) := .init rfl
    have hgo : Faulted.step pid tid (.start w p pid tid illegal cx) .goOn =
        some ⟨(Faulted.start w p pid tid illegal cx).procs, .user, cx⟩ := by
      unfold Faulted.step Procs.trapEnd Faulted.start
      dsimp only
      rw [if_pos (.inl rfl), update_self, map_some, if_neg htid, map_some]
    exact hnever _ (hinit.onlyStep .goOn trivial hgo) rfl
  · intro htid
    subst htid
    intro s hs
    rcases Faulted.held_reach hhandler hs with hended | ⟨huser, -⟩
    · rw [hended]
      exact FaultedAt.noConfusion
    · exact huser
  · intro htid
    subst htid
    intro s s' q hs hq hstep
    obtain ⟨-, q', hq', hd⟩ := (Faulted.held_reach hhandler hs).resolve_left (Faulted.not_ended hstep)
    cases hq.symm.trans hq'
    rcases Faulted.goOn_doomed hq hd hstep with ⟨hl, hended⟩ | ⟨hl, hloop, -⟩
    · exact iff_of_true hended hl
    · rw [hl, hloop]
      decide

/-- The main thread of the first process. -/
theorem fault_never_resumes_main : ¬(Proc.new default).handled (faultSignal false) ∧
    (∀ s, ((faults (fun _ => none) (Proc.new default) 0 0 false default).only (faultOk 0 false)).Reach s → s.thread ≠ .user) ∧
    ∃ s, ((faults (fun _ => none) (Proc.new default) 0 0 false default).only (faultOk 0 false)).Reach s ∧ s.thread = .ended := by
  obtain ⟨hnever, hends⟩ := @fault_never_resumes_iff (fun _ => none) (.new default) 0 false 0 default (by decide)
  have hinit : ((faults (fun _ => none) (Proc.new default) 0 0 false default).only (faultOk 0 false)).Reach
      (.start _ _ 0 0 false default) := .init rfl
  have hstep := hinit.onlyStep .goOn trivial rfl
  exact ⟨by decide, hnever.mpr rfl, _, hstep, (hends rfl _ _ _ hinit rfl rfl).mpr (by decide +kernel)⟩

/-- Thread 1 loads from a bad address: it is in user mode again with the same context, and SIGSEGV is pending. -/
theorem thread_resumes_fault : ∃ w p s, signals.Reach w ∧ w 0 = some p ∧ ¬p.handled 11 ∧
    contains p.signalMask (bit 11) = false ∧ (faults w p 0 1 false default).Reach s ∧ s.thread = .user ∧ s.cx = default ∧
    ∃ q, s.procs 0 = some q ∧ contains q.signals sigsegv = true := by
  have hinit : (faults (update (fun _ => none) 0 (some (Proc.new default))) (Proc.new default) 0 1 false default).Reach
      (.start _ _ 0 1 false default) := .init rfl
  have hgone := hinit.step (e := .goOn) rfl
  refine ⟨_, Proc.new default, _, .init ⟨default, rfl⟩, rfl, by decide, by decide, hgone, rfl, rfl, _, rfl, ?_⟩
  decide

end TCore.Kernel
