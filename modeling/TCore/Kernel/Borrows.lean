/-
  TCore.Kernel.Borrows — what is borrowed at a context switch and at an interrupt.

  A flow that has left the processor keeps what it has borrowed. Every call of `schedule` leaves
  nothing borrowed but the one in the driver of the disk: `read_block` and `write_block` block
  under the locks of the file that is read (`nothing_borrowed_at_schedule_iff`), and the next
  task that opens a file spins on them for ever (`disk_wait_keeps_locks`).

  So a cell that is not of the file system is borrowed by the flow on the processor or by nobody
  (`Sound.borrowed_iff`). `check_timer` runs on top of that flow. It takes `TIMERS`, and for a
  deadline that is reached the task's inner cell and `TASK_MANAGER`; none of them masks
  interrupts. `timer_cells_free_iff` says where in the kernel's code the interrupt does no harm:
  not in `add_timer` or `remove_timer`, and with a deadline reached not in `add_task`,
  `remove_task` or `fetch_task` and not where the inner cell of that task is borrowed.
-/

import TCore.Kernel.Sound

namespace TCore.Kernel

open TCore.Lib
open List Cell

/-! ## Points in the code -/

/-- In `add_timer`, which looks at the task first (`sys_sleep`), or in `remove_timer` (the end of a process). -/
def inTimers : List Instr → Bool
  | .addTimer _ :: _ | .removeTimer _ :: _ | .release .timers :: _ => true
  | .borrow (.task _) :: rest | .release (.task _) :: rest => inTimers rest
  | _ => false

/-- In `add_task` (a yield, a wakeup, a new task), in `remove_task` or in `fetch_task`. -/
def inTaskManager : List Instr → Bool
  | .yield :: _ | .popWake _ :: _ | .fork :: _ | .spawn :: _ | .removeReady _ :: _ | .fetch :: _ | .release .taskManager :: _ => true
  | _ => false

/-- The tasks whose inner cell is given back by what is left of a path, and was borrowed before. -/
def inTasks : List Instr → List Nat
  | .release (.task u) :: rest => u :: inTasks rest
  | .borrow (.task _) :: rest => (inTasks rest).tail
  | _ :: rest => inTasks rest
  | [] => []

/-- The task whose inner cell it is. -/
def Cell.task? : Cell → Option Nat
  | task u => some u
  | _ => none

namespace Point

variable {p p' q : Point} {i : Instr} {code : List Instr}

/-- What an instruction does to the cells that concern `check_timer`. -/
theorem next_cells (h : p.next i = some p') :
    (∃ c, i = .borrow c ∧ p'.cells = c :: p.cells) ∨ (∃ c, i = .release c ∧ p.cells = c :: p'.cells) ∨
      ((∀ c, i ≠ .borrow c ∧ i ≠ .release c) ∧ ofTimer p'.cells = ofTimer p.cells) := by
  rcases p with ⟨φ, a, H⟩
  cases i with
  | borrow c =>
    cases h
    exact .inl ⟨c, rfl, rfl⟩
  | release c =>
    obtain ⟨⟨hhead, -⟩, ⟨⟩⟩ := Option.ite_none_right_eq_some.mp h
    exact .inr (.inl ⟨c, rfl, (cons_head?_tail hhead).symm⟩)
  | schedule site => cases site <;> simp [next] at h <;> grind
  | _ => simp [next, inCell] at h <;> grind [ofTimer_cons, ofTimer_nil, isOfTimer]

/-! What is left of a path that ends with nothing borrowed tells which of the cells are borrowed now. -/

variable (h : p.after code = some q) (hq : q.cells = [])
include h hq

theorem timers_iff :
    timers ∈ ofTimer p.cells ↔ inTimers code = true := by
  induction code generalizing p with
  | nil =>
    cases h
    simp [hq, inTimers, ofTimer_nil]
  | cons i code ih =>
    rw [after_cons] at h
    obtain ⟨p', hstep, h⟩ := Option.bind_eq_some_iff.mp h
    obtain ⟨hfits, hn⟩ := step_some hstep
    have hrest := ih h
    rcases next_cells hn with ⟨c, rfl, hc⟩ | ⟨c, rfl, hc⟩ | ⟨hne, hc⟩
    · cases c <;> simp [hc, ofTimer_cons, isOfTimer, inTimers, Instr.fits] at * <;> grind
    · cases c <;> simp [hc, ofTimer_cons, isOfTimer, inTimers, Instr.fits] at * <;> grind
    · cases i <;> simp [inTimers, Instr.fits] at * <;> grind

theorem taskManager_iff :
    taskManager ∈ ofTimer p.cells ↔ inTaskManager code = true := by
  cases code with
  | nil =>
    cases h
    simp [hq, inTaskManager, ofTimer_nil]
  | cons i code =>
    rw [after_cons] at h
    obtain ⟨p', hstep, -⟩ := Option.bind_eq_some_iff.mp h
    obtain ⟨hfits, hn⟩ := step_some hstep
    cases i with
    | release c => cases c <;> simp [inTaskManager, Instr.fits] at * <;> grind
    | borrow c => cases c <;> simp [inTaskManager, Instr.fits] at * <;> grind
    | fetch | switchTo _ => cases hn
    | _ =>
      simp [inTaskManager, Instr.fits] at *
      grind

theorem tasks_eq :
    (ofTimer p.cells).filterMap task? = inTasks code := by
  induction code generalizing p with
  | nil =>
    cases h
    simp [hq, inTasks, ofTimer_nil]
  | cons i code ih =>
    rw [after_cons] at h
    obtain ⟨p', hstep, h⟩ := Option.bind_eq_some_iff.mp h
    have hrest := ih h
    rcases next_cells (step_some hstep).2 with ⟨c, rfl, hc⟩ | ⟨c, rfl, hc⟩ | ⟨hne, hc⟩
    · rw [hc] at hrest
      cases c <;> simp [ofTimer_cons, isOfTimer, inTasks, task?, filterMap_cons, ← hrest]
    · rw [hc]
      cases c <;> simp [ofTimer_cons, isOfTimer, inTasks, task?, filterMap_cons, ← hrest]
    · rw [← hc, hrest]
      cases i <;> first | rfl | simp at hne
end Point

namespace Sys

variable {s s' : Sys}

/-! ## Context switches -/

/-- The call of `schedule` that the flow on the processor makes next. -/
def schedules (s : Sys) : Option Site :=
  match (s.flow s.cpu).code with
  | .schedule site :: _ => some site
  | _ => none

variable {site : Site}

theorem schedules_some (h : s.schedules = some site) : ∃ rest, (s.flow s.cpu).code = .schedule site :: rest := by
  unfold schedules at h
  split at h
  · cases h
    exact ⟨_, ‹_›⟩
  · cases h

/-- `run_tasks` does not call `schedule`. -/
theorem IdleAt.not_schedule {f : Flow} {c : Option Nat} {rest : List Instr} (h : IdleAt f c) :
    f.code ≠ .schedule site :: rest := by
  cases h <;> simp

theorem Sound.held_at_schedule (h : Sound s) (hs : s.schedules = some site) :
    (s.flow s.cpu).held = [] ↔ site ≠ .disk := by
  obtain ⟨rest, hcode⟩ := schedules_some hs
  cases hc : s.cpu with
  | none =>
    rw [hc] at hcode
    exact absurd hcode (h.off hc).turn.not_schedule
  | some t =>
    rw [hc] at hcode
    obtain ⟨φ, hon⟩ := h.on hc
    obtain ⟨p', hn, -⟩ := hon.next hcode
    cases site with
    | exit =>
      obtain ⟨hp, -⟩ := Option.ite_none_right_eq_some.mp hn
      injection hp with _ _ hheld
      simp [hheld]
    | disk =>
      obtain ⟨⟨-, hmem, -⟩, -⟩ := Option.ite_none_right_eq_some.mp hn
      simpa using ne_nil_of_mem hmem
    | suspend | block | uart =>
      obtain ⟨⟨-, hheld⟩, -⟩ := Option.ite_none_right_eq_some.mp hn
      simpa using hheld

/-! ## Interrupts -/

/-- The timers whose deadline is reached, in the order in which `check_timer` takes them. -/
def expired (s : Sys) (now : Nat) : List TimerCondVar := s.timers.takeWhile fun x => x.expireMs ≤ now

/-- The cells that `check_timer` borrows. -/
def timerCells (s : Sys) (now : Nat) : List Cell :=
  .timers :: (s.expired now).flatMap fun x => [.task x.task, .taskManager]

variable {c : Cell}

theorem borrowed_eq_true :
    s.borrowed c = true ↔ c ∈ (s.flow none).held ∨ ∃ t, t < s.ntasks ∧ c ∈ (s.flow (some t)).held := by
  simp [borrowed]

/-- Only the flow on the processor has cells that are not of the file system. -/
theorem Sound.borrowed_iff (h : Sound s) (hfs : c.inFs = false) :
    s.borrowed c = true ↔ c ∈ (s.flow s.cpu).held := by
  have hrests : ∀ f, Rests f → c ∉ f.held := by
    intro f hf hmem
    rw [hf.cells c hmem] at hfs
    cases hfs
  rw [borrowed_eq_true]
  cases hc : s.cpu with
  | some t =>
    obtain ⟨φ, hon⟩ := h.on hc
    constructor
    · rintro (hidle | ⟨u, hu, hmem⟩)
      · simp [hon.idle] at hidle
      · by_cases hut : u = t
        · rw [← hut]
          exact hmem
        · exact absurd hmem (hrests _ (hon.rest u hu hut).flow)
    · intro hmem
      exact .inr ⟨t, hon.lt, hmem⟩
  | none =>
    constructor
    · rintro (hidle | ⟨u, hu, hmem⟩)
      · exact hidle
      · exact absurd hmem (hrests _ ((h.off hc).rest u hu).flow)
    · exact .inl

/-- What is left to do tells what the flow on the processor has borrowed. -/
theorem Sound.cells_iff (h : Sound s) :
    (.timers ∈ (s.flow s.cpu).held ↔ inTimers (s.flow s.cpu).code = true) ∧
      (.taskManager ∈ (s.flow s.cpu).held ↔ inTaskManager (s.flow s.cpu).code = true) ∧
      ∀ u, .task u ∈ (s.flow s.cpu).held ↔ u ∈ inTasks (s.flow s.cpu).code := by
  cases hc : s.cpu with
  | some t =>
    obtain ⟨φ, hon⟩ := h.on hc
    have htasks := Point.tasks_eq hon.path rfl
    have htask : ∀ u (c : Cell), c.task? = some u → c = .task u := by
      intro u c hu
      cases c <;> simp_all [task?]
    refine ⟨?_, ?_, ?_⟩
    · rw [← Point.timers_iff hon.path rfl, mem_ofTimer rfl]
    · rw [← Point.taskManager_iff hon.path rfl, mem_ofTimer rfl]
    · intro u
      rw [← htasks, mem_filterMap, ← mem_ofTimer (c := .task u) rfl]
      exact ⟨fun hmem => ⟨_, hmem, rfl⟩, fun ⟨c, hmem, hu⟩ => htask u c hu ▸ hmem⟩
  | none =>
    have hturn := (h.off hc).turn
    generalize s.flow none = f at hturn ⊢
    generalize s.current = current at hturn
    cases hturn <;> simp [inTimers, inTaskManager, inTasks, eq_comm]

variable {now : Nat}

/-- The points of the code at which a timer interrupt at time `now` meets no cell that it needs. -/
def Harmless (s : Sys) (now : Nat) : Prop :=
  inTimers (s.flow s.cpu).code = false ∧
    ∀ x ∈ s.expired now, inTaskManager (s.flow s.cpu).code = false ∧ x.task ∉ inTasks (s.flow s.cpu).code

theorem Sound.timerCells_free (h : Sound s) : (∀ c ∈ s.timerCells now, s.borrowed c = false) ↔ s.Harmless now := by
  obtain ⟨htimers, hmanager, htasks⟩ := h.cells_iff
  have hfree : ∀ c, c.inFs = false → (s.borrowed c = false ↔ c ∉ (s.flow s.cpu).held) := fun c hc => by
    rw [← h.borrowed_iff hc, Bool.not_eq_true]
  simp only [timerCells, Harmless, forall_mem_cons, forall_mem_flatMap, not_mem_nil, false_imp_iff, implies_true, and_true]
  rw [hfree _ rfl, htimers, Bool.not_eq_true]
  refine and_congr_right fun _ => forall₂_congr fun x _ => ?_
  rw [hfree _ rfl, hfree _ rfl, hmanager, htasks, Bool.not_eq_true, and_comm]

/-- `check_timer` comes to its end if no cell it takes is borrowed and every task it wakes has its resources. -/
theorem checkTimerFrom_isSome (l : List TimerCondVar) :
    (checkTimerFrom now l s).isSome = true ↔
      ∀ x ∈ l.takeWhile fun x => x.expireMs ≤ now, s.borrowed (.task x.task) = false ∧ s.borrowed .taskManager = false ∧
        (s.task x.task).res = true := by
  induction l generalizing s with
  | nil => simp [checkTimerFrom]
  | cons x l ih =>
    unfold checkTimerFrom
    split
    · rename_i hx
      rw [takeWhile_cons_of_pos (by simpa using hx), forall_mem_cons]
      have hwake : ∀ u, ((s.wakeup x.task).task u).res = (s.task u).res := fun u => res_setStatus _ u
      split
      · rename_i hbad
        simp only [Bool.or_eq_true, Bool.not_eq_true'] at hbad
        simp only [Option.isSome_none, Bool.false_eq_true, false_iff]
        rintro ⟨⟨h1, h2, h3⟩, -⟩
        simp [h1, h2, h3] at hbad
      · rename_i hgood
        simp only [Bool.or_eq_true, Bool.not_eq_true', not_or, Bool.not_eq_true, Bool.not_eq_false] at hgood
        rw [ih]
        simp only [hwake]
        exact (and_iff_right ⟨hgood.1.1, hgood.1.2, hgood.2⟩).symm
    · rename_i hx
      rw [takeWhile_cons_of_neg (by simpa using hx)]
      simp

theorem checkTimer_isSome :
    (s.checkTimer now).isSome = true ↔
      (∀ c ∈ s.timerCells now, s.borrowed c = false) ∧ ∀ x ∈ s.expired now, (s.task x.task).res = true := by
  unfold checkTimer
  split
  · rename_i hb
    simp [timerCells, hb]
  · rename_i hb
    rw [checkTimerFrom_isSome]
    simp only [timerCells, expired, forall_mem_cons, forall_mem_flatMap]
    constructor
    · intro h
      refine ⟨⟨by simpa using hb, ?_⟩, fun x hx => (h x hx).2.2⟩
      intro x hx
      simp [(h x hx).1, (h x hx).2.1]
    · rintro ⟨⟨-, hcells⟩, hres⟩ x hx
      exact ⟨(hcells x hx).1, (hcells x hx).2.1, hres x hx⟩

end Sys

/-- A context switch with nothing borrowed: every one but those of the disk driver. -/
theorem nothing_borrowed_at_schedule_iff {s : Sys} {site : Site} (h : kernel.Reach s) (hs : s.schedules = some site) :
    (s.flow s.cpu).held = [] ↔ site ≠ .disk := (Sys.sound_reach h).held_at_schedule hs

theorem nothing_borrowed_at_yield : ∃ s : Sys, kernel.Reach s ∧ s.schedules = some .suspend ∧ (s.flow s.cpu).held = [] := by
  have hrun : ∃ s ∈ kernel.run bootSpin
      (List.flatten [loopFor 7, callFor .yield 5]),
      s.schedules = some .suspend := by decide +kernel
  obtain ⟨s, hreach, hsite⟩ := (boot_reach _ _).exists_run hrun
  exact ⟨s, hreach, hsite, (nothing_borrowed_at_schedule_iff hreach hsite).mpr (by decide)⟩

/-- Task 0 reads a file and waits for the disk with the file, the file system and the block cache locked. Task 1,
    which it has forked, opens a file meanwhile and cannot go on. -/
theorem disk_wait_keeps_locks :
    (∃ s : Sys, kernel.Reach s ∧ s.schedules = some .disk ∧ (s.flow s.cpu).held = [.cacheManager, .fs, .file 0]) ∧
      ∃ s : Sys, kernel.Reach s ∧ s.cpu = some 1 ∧ fs ∈ (s.flow (some 0)).held ∧ kernel.step s .exec = none := by
  let miss : InodeCall := ⟨⟨0, none, some 0⟩, [], none⟩
  let events : List KernelEvent := List.flatten [loopFor 7, callFor .fork 9, callFor (.file 0 [miss]) 14]
  constructor
  · have hrun : ∃ s ∈ kernel.run bootSpin events,
        s.schedules = some .disk ∧ (s.flow s.cpu).held = [.cacheManager, .fs, .file 0] := by decide +kernel
    obtain ⟨s, hreach, hsite⟩ := (boot_reach _ _).exists_run hrun
    exact ⟨s, hreach, hsite⟩
  · have hrun : ∃ s ∈ kernel.run bootSpin
        (List.flatten [events, .exec :: loopFor 7, [.call (.open_ [miss]) 0 ⟨0, none⟩, .exec]]),
        s.cpu = some 1 ∧ fs ∈ (s.flow (some 0)).held ∧ (kernel.step s .exec).isNone = true := by decide +kernel
    obtain ⟨s, hreach, hcpu, hmem, hnone⟩ := (boot_reach _ _).exists_run hrun
    exact ⟨s, hreach, hcpu, hmem, Option.isNone_iff_eq_none.mp hnone⟩

end TCore.Kernel
