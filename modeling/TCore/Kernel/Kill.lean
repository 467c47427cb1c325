/-
  TCore.Kernel.Kill — what `sys_kill` accepts, and what becomes of a process that is `killed`.

  (1) The number of a signal is an `i32` that goes into `1 << signum` unchecked. In the release build the shift
  takes it modulo 32, and `SignalFlags` has all 32 bits, so `from_bits` refuses nothing: an invalid number
  sends the signal it is congruent to.
  - `kill_takes_32`: number 32 sends signal 0.

  (2) `call_kernel_signal_handler` sets `killed` for SIGKILL and for signal 0, SIGDEF, and takes neither out of
  `signals`. `check_error`, which ends the process, knows SIGKILL alone.
-/

import TCore.Kernel.ProcessTree
import TCore.Kernel.SignalPass

namespace TCore.Kernel

open TCore.Lib SignalFlags
open Option Function

/-! ## Signal numbers -/

namespace TreeState

variable {s : TreeState} {pid p : Nat} {signum : Int32} {sig : Nat → Proc}

/-- The processes of `PID2PCB` with their signals; `sig` has those of every process. -/
def signalled (s : TreeState) (sig : Nat → Proc) : Procs := fun pid => (s.pid2pcb pid).map sig

/-- Process `p` has this id and is not a zombie. -/
def Named (s : TreeState) (pid p : Nat) : Prop := s.running p = true ∧ (s.pcb p).pid = pid

/-- A signal with this number can be sent. -/
def Sendable (sig : Nat → Proc) (p : Nat) (signum : Int32) : Prop :=
  0 ≤ signum.toInt ∧ signum.toInt ≤ 31 ∧ contains (sig p).signals (bit signum.toInt.toNat) = false

/-- `sys_kill` returns 0 and adds the signal to the pending ones exactly when it can be sent to the process, and
    returns -1 and changes nothing otherwise. -/
def Validated (s : TreeState) (sig : Nat → Proc) (pid : Nat) (signum : Int32) : Prop :=
  (∃ p, s.Named pid p ∧ Sendable sig p signum ∧ sysKill (s.signalled sig) pid signum =
      (0, s.signalled (Function.update sig p { sig p with signals := (sig p).signals ||| bit signum.toInt.toNat }))) ∨
    (¬∃ p, s.Named pid p ∧ Sendable sig p signum) ∧ sysKill (s.signalled sig) pid signum = (-1, s.signalled sig)

theorem shift_of_valid (h : 0 ≤ signum.toInt) (h' : signum.toInt ≤ 31) : signum.toBitVec.toNat % 32 = signum.toInt.toNat := by
  have hint : signum.toInt = signum.toBitVec.toInt := rfl
  rw [hint, BitVec.toInt] at h h' ⊢
  split at h
  · rename_i hpos
    rw [if_pos hpos] at h' ⊢
    omega
  · rename_i hneg
    rw [if_neg hneg] at h' ⊢
    omega

section

variable (h : Tree s) (hp : s.Named pid p)
include h hp

/-- Two processes do not have one id. -/
theorem signalled_update (x : Proc) :
    update (s.signalled sig) pid (some x) = s.signalled (update sig p x) := by
  have hpid := (h.pid2pcb pid p).mpr hp
  funext q
  by_cases hq : q = pid
  · subst hq
    rw [update_self, signalled, hpid, map_some, update_self]
  · rw [update_of_ne hq, signalled, signalled]
    cases hcase : s.pid2pcb q with
    | none => rfl
    | some p' =>
      have hne : p' ≠ p := by
        rintro rfl
        exact hq (((h.pid2pcb q p').mp hcase).2.symm.trans hp.2)
      rw [map_some, map_some, update_of_ne hne]

theorem named_inj {q : Nat} (hq : s.Named pid q) : q = p := by
  have hpid := (h.pid2pcb pid p).mpr hp
  rw [(h.pid2pcb pid q).mpr hq] at hpid
  exact some.inj hpid

theorem signalled_named : s.signalled sig pid = some (sig p) := by
  rw [signalled, (h.pid2pcb pid p).mpr hp, map_some]

theorem sysKill_pending (hpend : contains (sig p).signals (bit (signum.toBitVec.toNat % 32)) = true) :
    sysKill (s.signalled sig) pid signum = (-1, s.signalled sig) := by
  rw [sysKill, signalled_named h hp]
  exact if_pos hpend

theorem sysKill_sent (hfree : contains (sig p).signals (bit (signum.toBitVec.toNat % 32)) = false) :
    sysKill (s.signalled sig) pid signum = (0, s.signalled (update sig p
      { sig p with signals := (sig p).signals ||| bit (signum.toBitVec.toNat % 32) })) := by
  rw [sysKill, signalled_named h hp, ← signalled_update h hp]
  exact if_neg (by rw [hfree]; exact Bool.false_ne_true)

end

end TreeState

open TreeState in
/-- `sys_kill` does what it should unless the process is there, the number is not one of a signal and the signal it is
congruent to is not pending. -/
theorem kill_validated_iff {s : TreeState} (hs : processes.Reach s) (sig : Nat → Proc) (pid : Nat) (signum : Int32) :
    s.Validated sig pid signum ↔ ¬∃ p, s.Named pid p ∧ (signum.toInt < 0 ∨ 31 < signum.toInt) ∧
      contains (sig p).signals (bit (signum.toBitVec.toNat % 32)) = false := by
  have h := tree_reach hs
  constructor
  · rintro (⟨p, hp, hsend, -⟩ | ⟨-, hkill⟩) ⟨q, hq, hout, hfree⟩
    · obtain ⟨h0, h31, -⟩ := hsend
      omega
    · rw [sysKill_sent h hq hfree] at hkill
      cases hkill
  · intro hgood
    by_cases hnamed : ∃ p, s.Named pid p
    · obtain ⟨p, hp⟩ := hnamed
      by_cases hpend : contains (sig p).signals (bit (signum.toBitVec.toNat % 32)) = true
      · refine .inr ⟨?_, sysKill_pending h hp hpend⟩
        rintro ⟨q, hq, h0, h31, hfree⟩
        rw [named_inj h hp hq, ← shift_of_valid h0 h31, hpend] at hfree
        cases hfree
      · rw [Bool.not_eq_true] at hpend
        have hin : 0 ≤ signum.toInt ∧ signum.toInt ≤ 31 := by
          by_contra hout
          exact hgood ⟨p, hp, by omega, hpend⟩
        have hshift := shift_of_valid hin.1 hin.2
        refine .inl ⟨p, hp, ⟨hin.1, hin.2, hshift ▸ hpend⟩, ?_⟩
        rw [sysKill_sent h hp hpend, hshift]
    · refine .inr ⟨fun ⟨p, hp, _⟩ => hnamed ⟨p, hp⟩, ?_⟩
      have hnone : s.signalled sig pid = none := by
        rw [signalled, map_eq_none_iff, eq_none_iff_forall_ne_some]
        exact fun p hp => hnamed ⟨p, (h.pid2pcb pid p).mp hp⟩
      rw [sysKill, hnone]

/-- SIGKILL for the first process. -/
theorem kill_validated_nine : TreeState.start.Validated (fun _ => Proc.new default) 0 9 := by
  refine (kill_validated_iff (.init rfl) _ 0 9).mpr ?_
  rintro ⟨p, -, hout, -⟩
  revert hout
  decide

theorem kill_takes_32 : processes.Reach .start ∧
    (sysKill (TreeState.start.signalled fun _ => Proc.new default) 0 32).1 = 0 ∧
    ∃ p, (sysKill (TreeState.start.signalled fun _ => Proc.new default) 0 32).2 0 = some p ∧ p.signals = sigdef :=
  ⟨.init rfl, by decide, _, rfl, by decide⟩

/-! ## The killed flag -/

namespace SignalFlags

theorem contains_or (s : SignalFlags) {i j : Nat} (hi : i < 32) :
    contains (s ||| bit j) (bit i) = (contains s (bit i) || decide (i = j)) := by
  rw [contains_bit _ hi, contains_bit _ hi, BitVec.getLsbD_or, getLsbD_bit hi]

theorem contains_of_or {s : SignalFlags} {i : Nat} (f : SignalFlags) (hi : i < 32) (h : contains s (bit i) = true) :
    contains (s ||| f) (bit i) = true := by
  rw [contains_bit _ hi] at h ⊢
  rw [BitVec.getLsbD_or, h, Bool.true_or]

end SignalFlags

namespace Proc

variable {p q : Proc}

theorem turn_pending {j : Nat} (h : p.turn j = true) : contains p.signals (bit j) = true := by
  by_contra hnot
  rw [not_pending_turn (Bool.not_eq_true _ ▸ hnot)] at h
  cases h

/-- What made the process killed is still pending, and only SIGDEF lets it live. -/
structure KilledBy (p : Proc) : Prop where
  pending : p.killed = true → contains p.signals (bit 0) = true ∨ contains p.signals (bit 9) = true
  user : p.main = .user → p.killed = true → contains p.signals (bit 0) = true

theorem KilledBy.of_alive (h : p.killed = false) : p.KilledBy :=
  ⟨fun hk => absurd hk (by simp [h]), fun _ hk => absurd hk (by simp [h])⟩

theorem KilledBy.mono (h : p.KilledBy) (hkilled : q.killed = p.killed) (hmain : q.main = .user → p.main = .user)
    (hsig : ∀ j, j = 0 ∨ j = 9 → contains p.signals (bit j) = true → contains q.signals (bit j) = true) : q.KilledBy := by
  refine ⟨?_, ?_⟩
  · intro hk
    rcases h.pending (hkilled ▸ hk) with h0 | h9
    · exact .inl (hsig 0 (.inl rfl) h0)
    · exact .inr (hsig 9 (.inr rfl) h9)
  · exact fun hu hk => hsig 0 (.inl rfl) (h.user (hmain hu) (hkilled ▸ hk))

theorem KilledBy.pass (h : p.KilledBy) (hk : p.checkPendingSignals.killed = true) :
    contains p.signals (bit 0) = true ∨ contains p.signals (bit 9) = true := by
  rw [pass_killed, Bool.or_eq_true, Bool.or_eq_true] at hk
  rcases hk with (hk | h0) | h9
  · exact h.pending hk
  · exact .inl (turn_pending h0)
  · exact .inr (turn_pending h9)

theorem KilledBy.finished (h : p.KilledBy) (hq : p.finished = some q) : q.KilledBy := by
  have heq := finished_some hq
  have hsig : ∀ j, j = 0 ∨ j = 9 → contains q.signals (bit j) = contains p.signals (bit j) := by
    intro j hj
    rw [heq]
    exact kernel_pending hj
  have hkilled : q.killed = p.checkPendingSignals.killed := by rw [heq]
  refine ⟨?_, ?_⟩
  · intro hk
    rw [hsig 0 (.inl rfl), hsig 9 (.inr rfl)]
    exact h.pass (hkilled ▸ hk)
  · intro hu hk
    rw [hsig 0 (.inl rfl)]
    refine (h.pass (hkilled ▸ hk)).resolve_right fun h9 => ?_
    -- With SIGKILL pending the loop ends, and the process with it.
    obtain ⟨e, herr⟩ := checkError_sigkill (sigkill_pending h9)
    rw [Proc.finished, handleSignals, if_pos (by rw [← hkilled, hk, Bool.or_true]), herr] at hq
    cases hq

end Proc

theorem Proc.KilledBy.next {p q : Proc} {e : SignalEvent} (h : p.KilledBy) (hq : p.Next e (some q)) : q.KilledBy := by
  cases hq with
  | kill | fault => exact h.mono rfl id fun j hj hc => contains_of_or _ (by omega) hc
  | trap => exact h.mono rfl (fun hu => by cases hu) fun _ _ hc => hc
  | sigreturn ret =>
    obtain ⟨cx, -, hq⟩ := map_eq_some_iff.mp ret
    cases hq
    exact h.mono rfl id fun _ _ hc => hc
  | @sigaction _ signum action oldAction =>
    rcases p.sysSigaction_cases signum action oldAction with heq | ⟨a, -, -, heq⟩
    · rwa [heq]
    · rw [heq]
      exact h.mono rfl id fun _ _ hc => hc
  | finish hq | resume hq => exact h.finished hq
  | sigprocmask | exec => exact h.mono rfl id fun _ _ hc => hc

theorem killedBy_reach {w : Procs} (hw : signals.Reach w) : w.All Proc.KilledBy :=
  .reach (fun _ => .of_alive rfl) (fun _ _ => .of_alive rfl) (fun _ _ _ h => h.next) hw

/-- A process that is killed exits at the end of the trap exactly if a signal of `check_error` is pending that the pass does
not deliver to a handler. SIGKILL is one, and it is pending unless signal 0 is. -/
theorem killed_dies_iff {w : Procs} (hw : signals.Reach w) {pid : Nat} {p : Proc} (hp : w pid = some p) :
    (p.checkPendingSignals.killed = true →
      ((∃ code msg, p.handleSignals = (.exits code msg, p.checkPendingSignals)) ↔ contains p.signals sigkill = true ∨
        ∃ i ∈ fatal, contains p.signals (bit i) = true ∧ ¬(p.stopsAt = some i ∧ p.handled i)) ∧
      (contains p.signals sigdef = false → contains p.signals sigkill = true)) ∧
      (p.main = .user → contains p.signals sigdef = false → p.killed = false) := by
  have h := killedBy_reach hw pid p hp
  refine ⟨?_, ?_⟩
  · intro hk
    have hgo : (!p.checkPendingSignals.frozen || p.checkPendingSignals.killed) = true := by rw [hk, Bool.or_true]
    refine ⟨⟨?_, ?_⟩, fun hno => (h.pass hk).resolve_left (ne_true_of_eq_false hno)⟩
    · rintro ⟨code, msg, hexit⟩
      cases herr : p.checkPendingSignals.signals.checkError with
      | none =>
        rw [Proc.handleSignals, if_pos hgo, herr] at hexit
        cases hexit
      | some e =>
        obtain ⟨i, hi, hpend, -⟩ := checkError_fatal herr
        exact .inr ⟨i, hi, (Proc.fatal_pending hi).mp hpend⟩
    · intro hcause
      have hsome : ∃ e, p.checkPendingSignals.signals.checkError = some e := by
        rcases hcause with h9 | ⟨i, hi, hpend⟩
        · exact checkError_sigkill (Proc.sigkill_pending h9)
        · exact checkError_of_fatal hi ((Proc.fatal_pending hi).mpr hpend)
      obtain ⟨⟨code, msg⟩, herr⟩ := hsome
      refine ⟨code, msg, ?_⟩
      rw [Proc.handleSignals, if_pos hgo, herr]
  · intro hu hno
    by_contra hk
    rw [Bool.not_eq_false] at hk
    exact ne_true_of_eq_false hno (h.user hu hk)

/-- A process that has got SIGKILL. -/
theorem killed_dies_sigkill : ∃ w p, signals.Reach w ∧ w 1 = some p ∧ p.checkPendingSignals.killed = true ∧
    ∃ code msg, p.handleSignals = (.exits code msg, p.checkPendingSignals) := by
  obtain ⟨w, p, hw, hp, hkilled, h9⟩ : ∃ w p, signals.Reach w ∧ w 1 = some p ∧ p.checkPendingSignals.killed = true ∧
      contains p.signals sigkill = true := exists_child [.kill 1 9, .trap 1 default] (by decide +kernel)
  exact ⟨w, p, hw, hp, hkilled, ((killed_dies_iff hw hp).1 hkilled).1.mpr (.inl h9)⟩

/-- Signal 0 sets the flag, and the process is in user mode again. -/
theorem sigdef_survived : ∃ w p, signals.Reach w ∧ w 1 = some p ∧ p.main = .user ∧ p.killed = true :=
  exists_child [.kill 1 0, .trap 1 default, .finish 1] (by decide +kernel)

end TCore.Kernel
