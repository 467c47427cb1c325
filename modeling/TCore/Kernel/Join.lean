/-
  TCore.Kernel.Join — the threads of a process and `sys_waittid` (syscall/thread.rs, task/id.rs).

  A thread id goes back to the process when the thread exits; its slot in `tasks`, with the exit
  code, stays until `sys_waittid` takes it. The next `sys_thread_create` gets the same id again and
  overwrites the slot: the exit code is gone (`exit_code_lost`). And `tasks[tid]` panics on an id
  beyond the table.

  Threads are numbered in the order of their creation, the main thread is 0; its exit ends the
  process and is not a step here. `joined` are the threads whose exit code a `sys_waittid` has
  returned.
-/

import TCore.Kernel.Tables

namespace TCore.Kernel

open TCore.Lib
open Function (update update_apply)
open List Option

structure Thread where
  tid : Nat
  /-- `inner.res.is_some()`. -/
  res : Bool
  exitCode : Option Int

structure JoinState where
  tids : RecycleAllocator
  tasks : List (Option Nat)
  thread : Nat → Thread
  nthreads : Nat
  joined : List Nat
  /-- What the last call has returned. -/
  answer : Int

inductive JoinEvent where
  | create (t : Nat)
  | exit (t : Nat) (code : Int)
  | waittid (t tid : Nat)

namespace JoinState

def start : JoinState := ⟨⟨1, []⟩, [some 0], fun _ => ⟨0, true, none⟩, 1, [], 0⟩

def alive (s : JoinState) (t : Nat) : Bool := t < s.nthreads && (s.thread t).res

/-- `sys_thread_create`. -/
def create (s : JoinState) : JoinState :=
  { s with
    tids := s.tids.alloc.2
    tasks := Sys.insertTask s.tasks s.tids.alloc.1 s.nthreads
    thread := update s.thread s.nthreads ⟨s.tids.alloc.1, true, none⟩
    nthreads := s.nthreads + 1
    answer := s.tids.alloc.1 }

/-- `exit_current_and_run_next` of a thread that is not the main thread. -/
def exit (s : JoinState) (t : Nat) (code : Int) : Option JoinState :=
  (s.tids.dealloc (s.thread t).tid).map fun tids =>
    { s with tids := tids, thread := update s.thread t { s.thread t with res := false, exitCode := some code } }

/-- `sys_waittid` by thread `t`; `none` is an index out of range. -/
def waittid (s : JoinState) (t tid : Nat) : Option JoinState :=
  if (s.thread t).tid = tid then some { s with answer := -1 }
  else
    match s.tasks[tid]? with
    | none => none
    | some none => some { s with answer := -1 }
    | some (some w) =>
      match (s.thread w).exitCode with
      | some code => some { s with answer := code, tasks := s.tasks.set tid none, joined := s.joined ++ [w] }
      | none => some { s with answer := -2 }

def step (s : JoinState) : JoinEvent → Option JoinState
  | .create t => if s.alive t then some s.create else none
  | .exit t code => if s.alive t ∧ (s.thread t).tid ≠ 0 then s.exit t code else none
  | .waittid t tid => if s.alive t then s.waittid t tid else none

end JoinState

def threads : Machine JoinState JoinEvent where
  init s := s = JoinState.start
  step := JoinState.step

namespace JoinState

variable {s s' : JoinState} {t w : Nat}

/-! ## What holds of every run -/

structure Slots (s : JoinState) : Prop where
  entry : ∀ k w, s.tasks[k]? = some (some w) → w < s.nthreads ∧ (s.thread w).tid = k ∧ w ∉ s.joined
  live : ∀ w, w < s.nthreads → (s.thread w).res = true → s.tasks[(s.thread w).tid]? = some (some w)
  inUse : ∀ w, w < s.nthreads → (s.thread w).res = true →
    (s.thread w).tid < s.tids.current ∧ (s.thread w).tid ∉ s.tids.recycled
  free : s.tids.recycled.Nodup ∧ ∀ id ∈ s.tids.recycled, id < s.tids.current
  exited : ∀ w, w < s.nthreads → ((s.thread w).res = false ↔ (s.thread w).exitCode.isSome = true)
  joined : s.joined.Nodup ∧ ∀ w ∈ s.joined, w < s.nthreads ∧ (s.thread w).exitCode.isSome = true

theorem slots_start : Slots start := by
  constructor <;> simp only [start] <;> grind

theorem Slots.create (h : Slots s) : Slots s.create := by
  obtain ⟨hentry, hlive, hinUse, hfree, hexited, hjoined⟩ := h
  obtain ⟨hnew, hold, hnodup, hlt⟩ := Sys.alloc_spec s.tids hfree.1 hfree.2
  have hget := Sys.getElem?_insertTask s.tasks s.tids.alloc.1 s.nthreads
  have hsome := Sys.insertTask_some s.tasks s.tids.alloc.1 s.nthreads
  constructor <;> simp only [JoinState.create, update_apply] <;> grind

theorem Slots.exit {code : Int} (h : Slots s) (ht : s.alive t = true) (hs : s.exit t code = some s') : Slots s' := by
  obtain ⟨tids, hd, rfl⟩ := map_eq_some_iff.mp hs
  obtain ⟨⟨hlt, hnot⟩, ⟨⟩⟩ := ite_none_right_eq_some.mp hd
  obtain ⟨hentry, hlive, hinUse, hfree, hexited, hjoined⟩ := h
  simp only [alive, Bool.and_eq_true, decide_eq_true_eq] at ht
  have hinj : ∀ w, w < s.nthreads → (s.thread w).res = true → (s.thread w).tid = (s.thread t).tid → w = t := by
    intro w hw hr heq
    have hslot := hlive w hw hr
    rw [heq, hlive t ht.1 ht.2] at hslot
    simpa using hslot.symm
  constructor <;> simp only [update_apply] <;> grind

variable {tid : Nat}

theorem Slots.waittid (h : Slots s) (hs : s.waittid t tid = some s') : Slots s' := by
  have hsame : ∀ a, Slots { s with answer := a } := fun a => ⟨h.entry, h.live, h.inUse, h.free, h.exited, h.joined⟩
  unfold JoinState.waittid at hs
  split at hs
  · cases hs
    exact hsame _
  split at hs
  · cases hs
  · cases hs
    exact hsame _
  rename_i w hslot
  split at hs
  · rename_i code hcode
    cases hs
    obtain ⟨hentry, hlive, hinUse, hfree, hexited, hjoined⟩ := h
    constructor <;> simp only [getElem?_set] <;> grind
  · cases hs
    exact hsame _

theorem Slots.step {e : JoinEvent} (h : Slots s) (hs : s.step e = some s') : Slots s' := by
  cases e with
  | create t =>
    obtain ⟨-, ⟨⟩⟩ := ite_none_right_eq_some.mp hs
    exact h.create
  | exit t code =>
    obtain ⟨⟨ht, -⟩, hs⟩ := ite_none_right_eq_some.mp hs
    exact h.exit ht hs
  | waittid t tid =>
    obtain ⟨-, hs⟩ := ite_none_right_eq_some.mp hs
    exact h.waittid hs

theorem slots_reach (h : threads.Reach s) : Slots s := by
  refine h.inv Slots ?_ fun s e t hi hs => hi.step hs
  rintro s rfl
  exact slots_start

/-! ## Joining -/

/-- Every thread that is not joined is in the slot of its id. -/
def Kept (s : JoinState) : Prop := ∀ w, w < s.nthreads → w ∉ s.joined → s.tasks[(s.thread w).tid]? = some (some w)

/-- The id given out is not one of a thread that is still to be joined; the id asked for is the caller's own or
    within the table. -/
def Joinable (s : JoinState) : JoinEvent → Prop
  | .create _ => ∀ w, s.tasks[s.tids.alloc.1]? ≠ some (some w)
  | .exit _ _ => True
  | .waittid t tid => (s.thread t).tid = tid ∨ tid < s.tasks.length

/-- The unjoined thread that `sys_waittid(tid)` by thread `t` is about. -/
def joinTarget (s : JoinState) (t tid : Nat) : Option Nat :=
  if (s.thread t).tid = tid then none
  else (List.range s.nthreads).find? fun w => (s.thread w).tid == tid && !s.joined.contains w

/-- -1 without such a thread, -2 while it has not exited, and its exit code then. -/
def joinAnswer (s : JoinState) (t tid : Nat) : Int :=
  match s.joinTarget t tid with
  | none => -1
  | some w => (s.thread w).exitCode.getD (-2)

/-- The threads that the call joins. -/
def joins (s : JoinState) (t tid : Nat) : List Nat :=
  (s.joinTarget t tid).toList.filter fun w => (s.thread w).exitCode.isSome

theorem joinTarget_eq_some (h : Slots s) (hk : Kept s) :
    s.joinTarget t tid = some w ↔ (s.thread t).tid ≠ tid ∧ s.tasks[tid]? = some (some w) := by
  unfold joinTarget
  split
  · simp_all
  rename_i hne
  constructor
  · intro hfind
    have hmem := mem_of_find?_eq_some hfind
    have hsel := find?_some hfind
    simp only [Bool.and_eq_true, beq_iff_eq, Bool.not_eq_true', contains_eq_mem, decide_eq_false_iff_not] at hsel
    obtain ⟨rfl, hnot⟩ := hsel
    exact ⟨hne, hk w (mem_range.mp hmem) hnot⟩
  · rintro ⟨-, hslot⟩
    obtain ⟨hw, htid, hnot⟩ := h.entry tid w hslot
    cases hfind : (range s.nthreads).find? fun w => (s.thread w).tid == tid && !s.joined.contains w with
    | none =>
      have hall := find?_eq_none.mp hfind w (mem_range.mpr hw)
      simp [htid, hnot] at hall
    | some v =>
      have hmem := mem_of_find?_eq_some hfind
      have hsel := find?_some hfind
      simp only [Bool.and_eq_true, beq_iff_eq, Bool.not_eq_true', contains_eq_mem, decide_eq_false_iff_not] at hsel
      have hv := hk v (mem_range.mp hmem) hsel.2
      rw [hsel.1, hslot] at hv
      simpa using hv.symm

theorem waittid_answers (h : Slots s) (hk : Kept s) (hs : s.waittid t tid = some s') :
    s'.answer = s.joinAnswer t tid ∧ s'.joined = s.joined ++ s.joins t tid := by
  have htarget : ∀ w, s.joinTarget t tid = some w ↔ _ := fun w => joinTarget_eq_some h hk
  have hnone : (∀ w, s.tasks[tid]? ≠ some (some w)) ∨ (s.thread t).tid = tid → s.joinTarget t tid = none := by
    intro hor
    rw [eq_none_iff_forall_ne_some]
    intro w hw
    obtain ⟨hne, hslot⟩ := (htarget w).mp hw
    rcases hor with hall | hown
    · exact hall w hslot
    · exact hne hown
  unfold waittid at hs
  unfold joinAnswer joins
  split at hs
  · rename_i hown
    cases hs
    simp [hnone (.inr hown)]
  rename_i hne
  split at hs
  · cases hs
  · rename_i hslot
    cases hs
    simp [hnone (.inl (by simp [hslot]))]
  · rename_i w hslot
    rw [(htarget w).mpr ⟨hne, hslot⟩]
    split at hs
    · rename_i code hcode
      cases hs
      simp [hcode]
    · rename_i hcode
      cases hs
      simp [hcode]

theorem waittid_isSome : (s.waittid t tid).isSome = true ↔ (s.thread t).tid = tid ∨ tid < s.tasks.length := by
  unfold waittid
  split
  · simp_all
  rename_i hne
  rw [or_iff_right hne]
  split
  · rename_i hslot
    simpa using getElem?_eq_none_iff.mp hslot
  · rename_i hslot
    simpa using (List.getElem?_eq_some_iff.mp hslot).1
  · rename_i w hslot
    have hlt := (List.getElem?_eq_some_iff.mp hslot).1
    split <;> simpa using hlt

theorem kept_create (h : Slots s) (hk : Kept s) : Kept s.create ↔ ∀ w, s.tasks[s.tids.alloc.1]? ≠ some (some w) := by
  have hget := Sys.getElem?_insertTask s.tasks s.tids.alloc.1 s.nthreads
  have hsome := Sys.insertTask_some s.tasks s.tids.alloc.1 s.nthreads
  constructor
  · intro hk' w hslot
    obtain ⟨hw, htid, hnot⟩ := h.entry _ w hslot
    have hkept := hk' w (Nat.lt_succ_of_lt hw) hnot
    simp only [create, update_apply, Nat.ne_of_lt hw, if_false, htid] at hkept
    rw [hget, if_pos rfl] at hkept
    simp only [some.injEq] at hkept
    omega
  · intro hempty w hw hnot
    simp only [create, update_apply] at hw hnot ⊢
    split
    · rename_i hwn
      rw [hget, if_pos rfl, hwn]
    · rename_i hwn
      have hslot := hk w (by omega) hnot
      rw [hsome _ _ fun htid => hempty w (htid ▸ hslot)]
      exact hslot

theorem Kept.exit {code : Int} (hk : Kept s) (hs : s.exit t code = some s') : Kept s' := by
  obtain ⟨tids, -, rfl⟩ := map_eq_some_iff.mp hs
  intro w hw hnot
  have hslot := hk w hw hnot
  simp only [update_apply]
  split
  · rename_i hwt
    subst hwt
    exact hslot
  · exact hslot

theorem Kept.waittid (hk : Kept s) (hs : s.waittid t tid = some s') : Kept s' := by
  unfold JoinState.waittid at hs
  split at hs
  · cases hs
    exact hk
  split at hs
  · cases hs
  · cases hs
    exact hk
  rename_i v hslot
  split at hs
  · cases hs
    intro w hw hnot
    simp only [mem_append, mem_singleton, not_or] at hnot
    have hw' := hk w hw hnot.1
    simp only
    rw [getElem?_set_ne]
    · exact hw'
    · rintro rfl
      rw [hw'] at hslot
      exact hnot.2 (by simpa using hslot)
  · cases hs
    exact hk

theorem kept_reach (h : (threads.only Joinable).Reach s) : Kept s := by
  have hboth : Slots s ∧ Kept s := by
    refine h.inv (fun s => Slots s ∧ Kept s) ?_ ?_
    · rintro s rfl
      refine ⟨slots_start, ?_⟩
      intro w hw _
      obtain rfl : w = 0 := Nat.lt_one_iff.mp hw
      rfl
    · rintro s e s' ⟨hsl, hk⟩ hst
      obtain ⟨hok, hst⟩ := Machine.only_step.mp hst
      refine ⟨hsl.step hst, ?_⟩
      cases e with
      | create t =>
        obtain ⟨-, ⟨⟩⟩ := ite_none_right_eq_some.mp hst
        exact (kept_create hsl hk).mpr hok
      | exit t code =>
        obtain ⟨-, hst⟩ := ite_none_right_eq_some.mp hst
        exact hk.exit hst
      | waittid t tid =>
        obtain ⟨-, hst⟩ := ite_none_right_eq_some.mp hst
        exact hk.waittid hst
  exact hboth.2

end JoinState

open JoinState in
/-- In the runs whose steps are `Joinable` every unjoined thread is in the slot of its id, `sys_waittid` answers -1, -2 or
    the exit code of the unjoined thread with that id, and each thread is joined at most once. Of any run:
    `sys_waittid` panics exactly when it is not `Joinable`, and `sys_thread_create` loses a thread exactly when it is
    not. -/
theorem thread_join (s : JoinState) :
    ((threads.only Joinable).Reach s → Kept s ∧ s.joined.Nodup ∧
      ∀ t tid s', s.step (.waittid t tid) = some s' →
        s'.answer = s.joinAnswer t tid ∧ s'.joined = s.joined ++ s.joins t tid) ∧
    (∀ t tid, threads.Reach s → s.alive t = true →
      ((s.step (.waittid t tid)).isSome = true ↔ Joinable s (.waittid t tid))) ∧
    ∀ t, threads.Reach s → Kept s → (Kept s.create ↔ Joinable s (.create t)) := by
  refine ⟨fun h => ?_, fun t tid _ ht => ?_, fun t h hk => kept_create (slots_reach h) hk⟩
  · have hsl := slots_reach h.of_only
    have hk := kept_reach h
    refine ⟨hk, hsl.joined.1, fun t tid s' hs => ?_⟩
    obtain ⟨-, hs⟩ := ite_none_right_eq_some.mp hs
    exact waittid_answers hsl hk hs
  · rw [step, if_pos ht]
    exact waittid_isSome

open JoinState in
/-- An id that is used again: both threads that had it are joined, each with its own exit code. -/
theorem thread_join_again : ∃ s₁ s s', (threads.only Joinable).Reach s₁ ∧ s₁.answer = 7 ∧ s₁.joined = [1] ∧
    (threads.only Joinable).Reach s ∧ (s.thread 2).tid = (s.thread 1).tid ∧
    s.step (.waittid 0 1) = some s' ∧ s'.answer = 9 ∧ s'.joined = [1, 2] := by
  have hinit : (threads.only Joinable).Reach .start := .init rfl
  have hfirst := ((hinit.onlyStep (.create 0) nofun rfl).onlyStep (.exit 1 7) trivial rfl).onlyStep (.waittid 0 1)
    (Or.inr (by decide)) rfl
  have hs := (hfirst.onlyStep (.create 0) nofun rfl).onlyStep (.exit 2 9) trivial rfl
  obtain ⟨-, -, hwait⟩ := (thread_join _).1 hs
  obtain ⟨hanswer, hjoined⟩ := hwait 0 1 _ rfl
  exact ⟨_, _, _, hfirst, rfl, rfl, hs, rfl, rfl, hanswer, hjoined⟩

/-- A thread exits with 7 and is not joined; the next one gets its id, exits with 9, and is the one that is joined.
    An id that was never given out makes the kernel panic. -/
theorem exit_code_lost : (∃ s, threads.Reach s ∧ (s.thread 1).tid = 1 ∧ (s.thread 1).exitCode = some 7 ∧ 1 ∉ s.joined ∧
      s.tasks[1]? = some none ∧ s.answer = 9) ∧
    (JoinState.start.step (.waittid 0 5)).isNone = true := by
  refine ⟨?_, by decide⟩
  have hrun : ∃ s ∈ threads.run .start [.create 0, .exit 1 7, .create 0, .exit 2 9, .waittid 0 1],
      (s.thread 1).tid = 1 ∧ (s.thread 1).exitCode = some 7 ∧ 1 ∉ s.joined ∧ s.tasks[1]? = some none ∧ s.answer = 9 := by
    decide +kernel
  have hinit : threads.Reach .start := .init rfl
  exact hinit.exists_run hrun

end TCore.Kernel
