/-
  TCore.Kernel.Sound — every task is somewhere, once.

  `Sound` ties the text of the paths to the state: the rest of every path fits the cells and `Arc`s
  its flow has, the task on the processor is where its path says, and every other task is in exactly
  one place or has exited. Nothing the kernel does breaks it, interrupts at any point included
  (`sound_reach`).
-/

import TCore.Kernel.Tasks

namespace TCore.Kernel

open TCore.Lib
open Function (update update_apply)
open List Option Point Sys Phase

/-- The instructions that leave every task where it is. -/
def Instr.isQuiet : Instr → Bool
  | .yield | .enqueue _ | .addTimer _ | .block | .schedule _ | .popWake _ | .fork | .spawn | .exit _ | .removeReady _
  | .removeTimer _ | .takeRes _ | .fetch | .switchTo _ => false
  | _ => true

/-- The instructions about an object with a wait queue, and the others that go on with code of their own. -/
def Instr.goesOn : Instr → Bool
  | .tryLock _ | .unlock _ | .up _ | .down _ | .signal _ | .signalAll _ | .readEventfd _ | .writeEventfd _ _ | .readUart
  | .waittid _ | .trapEnd _ => true
  | _ => false

/-- The wait queue that an instruction is about. -/
def Instr.queue : Instr → Option Queue
  | .enqueue q | .popWake q | .tryLock q | .unlock q | .up q | .down q | .signal q | .signalAll q => some q
  | .readEventfd e | .writeEventfd e _ => some (.eventfd e)
  | .readUart => some .uart
  | _ => none

/-- The phase after an instruction. -/
def Phase.after (φ : Phase) : Instr → Phase
  | .yield | .block => .parked
  | .enqueue _ | .addTimer _ => .queued
  | .exit _ | .takeRes _ => .gone []
  | .removeReady u | .removeTimer u => .gone [u]
  | _ => φ

/-- The phase in which a path comes to the instruction, where only one will do. -/
def Instr.phase : Instr → Option Phase
  | .yield | .enqueue _ | .addTimer _ | .popWake _ | .fork | .spawn | .exit _ => some .run
  | .block => some .queued
  | .leavePid | .becomeZombie | .clearTasks | .removeReady _ => some (.gone [])
  | .removeTimer u | .takeRes u => some (.gone [u])
  | _ => none

variable {i : Instr}

theorem Point.phase_of_next {p p' : Point} {φ : Phase} (hn : p.next i = some p') (hi : i.phase = some φ) :
    p.phase = φ := by
  cases i with
  | enqueue q => exact (ite_none_right_eq_some.mp hn).1.1.trans (some.inj hi)
  | exit code => exact (congrArg phase (ite_none_right_eq_some.mp hn).1).trans (some.inj hi)
  | yield | addTimer _ | popWake _ | fork | spawn | block | leavePid | becomeZombie | clearTasks | removeReady _ | removeTimer _
  | takeRes _ => exact (ite_none_right_eq_some.mp hn).1.trans (some.inj hi)
  | _ => cases hi

theorem Phase.after_quiet {φ : Phase} (hq : i.isQuiet = true) : φ.after i = φ := by
  cases i <;> first | rfl | cases hq

namespace Sys

variable {s s' : Sys} {t : Nat} {φ : Phase}

/-- The flow on the processor has `rest` left to do. -/
abbrev pop (s : Sys) (rest : List Instr) : Sys := s.onFlow fun f => { f with code := rest }

/-- Task `t` is on the processor and takes instruction `i`. -/
structure Takes (s : Sys) (t : Nat) (i : Instr) (rest : List Instr) (s' : Sys) : Prop where
  cpu : s.cpu = some t
  code : (s.flow (some t)).code = i :: rest
  effect : (s.pop rest).taskEffect t i = some s'

/-- Where the text of the path of flow `f` is. -/
abbrev point (s : Sys) (f : Option Nat) (φ : Phase) : Point := ⟨φ, (s.flow f).arcs, (s.flow f).held⟩

/-! ## The invariant -/

/-- The path of a flow that is not on the processor begins where it gets the processor back, and it has nothing
    borrowed but what belongs to the file system. -/
structure Rests (f : Flow) : Prop where
  path : Point.after ⟨.run, f.arcs, f.held⟩ f.code = some ⟨.run, 0, []⟩
  cells : ∀ c ∈ f.held, c.inFs

structure Resting (s : Sys) (doomed : List Nat) (u : Nat) : Prop where
  flow : Rests (s.flow (some u))
  place : s.places u = 1 ∨ s.places u = 0 ∧ ((s.task u).res = false ∨ u ∈ doomed)

/-- Where the task on the processor is. -/
def At (s : Sys) (t : Nat) : Phase → Prop
  | .run => s.current = some t ∧ s.places t = 1
  | .queued => s.current = some t ∧ s.places t = 2
  | .parked => s.current = none ∧ s.places t = 1
  | .gone _ => s.current = none ∧ s.places t = 0 ∧ (s.task t).res = false

structure OnTask (s : Sys) (t : Nat) (φ : Phase) : Prop where
  lt : t < s.ntasks
  idle : s.flow none = ⟨[], [], 0⟩
  path : Point.after ⟨φ, (s.flow (some t)).arcs, (s.flow (some t)).held⟩ (s.flow (some t)).code = some ⟨.run, 0, []⟩
  place : At s t φ
  rest : ∀ u, u < s.ntasks → u ≠ t → Resting s φ.doomed u
  fresh : ∀ u, s.ntasks ≤ u → s.places u = 0

/-- The turns of `run_tasks`: what is left to do, with which cells, and the task that is current meanwhile. -/
inductive IdleAt : Flow → Option Nat → Prop where
  | loop : IdleAt ⟨[], [], 0⟩ none
  | start : IdleAt ⟨[.borrow .taskManager, .fetch], [], 0⟩ none
  | fetch : IdleAt ⟨[.fetch], [.taskManager], 0⟩ none
  | none : IdleAt ⟨[.release .taskManager], [.taskManager], 0⟩ none
  | fetched (t : Nat) :
    IdleAt ⟨[.release .taskManager, .borrow (.task t), .release (.task t), .switchTo t], [.taskManager], 0⟩ (some t)
  | access (t : Nat) : IdleAt ⟨[.borrow (.task t), .release (.task t), .switchTo t], [], 0⟩ (some t)
  | accessed (t : Nat) : IdleAt ⟨[.release (.task t), .switchTo t], [.task t], 0⟩ (some t)
  | switch (t : Nat) : IdleAt ⟨[.switchTo t], [], 0⟩ (some t)

structure OnIdle (s : Sys) : Prop where
  turn : IdleAt (s.flow none) s.current
  rest : ∀ u, u < s.ntasks → Resting s [] u
  fresh : ∀ u, s.ntasks ≤ u → s.places u = 0

def Sound (s : Sys) : Prop :=
  match s.cpu with
  | some t => ∃ φ, OnTask s t φ
  | none => OnIdle s

theorem Sound.task (hc : s.cpu = some t) (h : ∃ φ, OnTask s t φ) : Sound s := by
  rw [Sound, hc]
  exact h

theorem Sound.idle (hc : s.cpu = none) (h : OnIdle s) : Sound s := by
  rw [Sound, hc]
  exact h

theorem Sound.on (h : Sound s) (hc : s.cpu = some t) : ∃ φ, OnTask s t φ := by
  rwa [Sound, hc] at h

theorem Sound.off (h : Sound s) (hc : s.cpu = none) : OnIdle s := by
  rwa [Sound, hc] at h

variable {u : Nat}

theorem Sound.fresh (h : Sound s) (hu : s.ntasks ≤ u) : s.places u = 0 := by
  cases hc : s.cpu with
  | some t =>
    obtain ⟨φ, hon⟩ := h.on hc
    exact hon.fresh u hu
  | none => exact (h.off hc).fresh u hu

/-! ## Places -/

theorem count_insertTimer (x : TimerCondVar) (l : List TimerCondVar) (u : Nat) :
    ((insertTimer x l).map (·.task)).count u = (l.map (·.task)).count u + [x.task].count u := by
  induction l with
  | nil => simp [insertTimer]
  | cons y l ih =>
    unfold insertTimer
    split
    · rw [map_cons, count_cons]
      simp only [count_cons, count_nil]
      omega
    · simp only [map_cons, count_cons, ih]
      omega

variable {l : List TimerCondVar}

theorem mem_insertTimer {x : TimerCondVar} (h : u ∈ (insertTimer x l).map (·.task)) :
    u ∈ l.map (·.task) ∨ u = x.task := by
  have hpos := count_pos_iff.mpr h
  rw [count_insertTimer, count_singleton] at hpos
  split at hpos
  · rename_i hx
    exact .inr (beq_iff_eq.mp hx).symm
  · exact .inl (count_pos_iff.mp hpos)

theorem count_removeTimer {v : Nat} (h : v ≠ u) (l : List TimerCondVar) :
    ((l.filter fun x => x.task != u).map (·.task)).count v = (l.map (·.task)).count v := by
  induction l with
  | nil => rfl
  | cons x l ih =>
    by_cases hx : x.task = u
    · rw [filter_cons_of_neg (by simp [hx]), ih, map_cons, count_cons_of_ne (by rw [hx]; exact h.symm)]
    · rw [filter_cons_of_pos (by simp [hx]), map_cons, map_cons, count_cons, count_cons, ih]

variable {q : Queue} {w : Nat}

theorem mem_of_front (h : s.front q = some w) : (q, w) ∈ s.waits := by
  obtain ⟨⟨q', w'⟩, hfind, rfl⟩ := map_eq_some_iff.mp h
  have hq : q' = q := by simpa using find?_some hfind
  rw [← hq]
  exact mem_of_find?_eq_some hfind

/-- A task leaves a wait queue for the ready queue. -/
theorem places_popWake (h : (q, w) ∈ s.waits) (u : Nat) :
    (wakeup { s with waits := s.waits.erase (q, w) } w).places u = s.places u := by
  have hperm := ((perm_cons_erase h).map (·.2)).count_eq u
  simp only [places, wakeup, setTask, count_append, map_cons, count_cons, count_nil] at hperm ⊢
  omega

/-! ## What the instructions with a choice do -/

theorem popWake_some (hs : s.taskEffect t (.popWake q) = some s') :
    s' = s ∨ ∃ w, s.front q = some w ∧ s' = wakeup { s with waits := s.waits.erase (q, w) } w := by
  simp only [taskEffect] at hs
  split at hs
  · rename_i w hfront
    exact .inr ⟨w, hfront, (some.inj hs).symm⟩
  · exact .inl (some.inj hs).symm

theorem waitpid_some {p : Nat} {pid : Option Nat} (hs : s.waitpid p pid = some s') :
    s' = s ∨ ∃ c, s' = s.setProc p fun b => { b with children := b.children.erase c } := by
  unfold waitpid at hs
  split at hs
  · exact .inl (some.inj hs).symm
  · obtain ⟨-, ⟨⟩⟩ := ite_none_right_eq_some.mp hs
    exact .inr ⟨_, rfl⟩

theorem reap_cases (s : Sys) (p tid : Nat) : s.reap p tid = s ∨ ∃ w, (s.proc p).tasks[tid]? = some (some w) ∧
    (s.task w).exitCode.isSome = true ∧ s.reap p tid = s.setProc p fun b => { b with tasks := b.tasks.set tid none } := by
  unfold reap
  split
  · rename_i w hw
    split
    · exact .inr ⟨w, hw, ‹_›, rfl⟩
    · exact .inl rfl
  · exact .inl rfl

/-! ## Steps that leave every task where it is -/

/-- Nobody comes or goes, and the other flows are as they were. -/
structure Keeps (s s' : Sys) : Prop where
  cpu : s'.cpu = s.cpu
  current : s'.current = s.current
  ntasks : s'.ntasks = s.ntasks
  places : ∀ u, s'.places u = s.places u
  res : ∀ u, (s'.task u).res = (s.task u).res
  flow : ∀ f, f ≠ s.cpu → s'.flow f = s.flow f

variable {s₂ : Sys}

namespace Keeps

theorem refl : Keeps s s := ⟨rfl, rfl, rfl, fun _ => rfl, fun _ => rfl, fun _ _ => rfl⟩

theorem trans (h : Keeps s s') (h' : Keeps s' s₂) : Keeps s s₂ where
  cpu := h'.cpu.trans h.cpu
  current := h'.current.trans h.current
  ntasks := h'.ntasks.trans h.ntasks
  places u := (h'.places u).trans (h.places u)
  res u := (h'.res u).trans (h.res u)
  flow f hf := (h'.flow f (by rw [h.cpu]; exact hf)).trans (h.flow f hf)

end Keeps

/-- Nothing changes that concerns where a task is. -/
structure Still (s s' : Sys) : Prop where
  cpu : s'.cpu = s.cpu
  current : s'.current = s.current
  readyQueue : s'.readyQueue = s.readyQueue
  timers : s'.timers = s.timers
  waits : s'.waits = s.waits
  task : s'.task = s.task
  ntasks : s'.ntasks = s.ntasks
  flow : ∀ f, f ≠ s.cpu → s'.flow f = s.flow f

namespace Still

theorem keeps (h : Still s s') : Keeps s s' where
  cpu := h.cpu
  current := h.current
  ntasks := h.ntasks
  places u := by simp only [places, h.current, h.readyQueue, h.timers, h.waits]
  res u := by rw [h.task]
  flow := h.flow

theorem refl : Still s s := ⟨rfl, rfl, rfl, rfl, rfl, rfl, rfl, fun _ _ => rfl⟩

theorem trans (h : Still s s') (h' : Still s' s₂) : Still s s₂ where
  cpu := h'.cpu.trans h.cpu
  current := h'.current.trans h.current
  readyQueue := h'.readyQueue.trans h.readyQueue
  timers := h'.timers.trans h.timers
  waits := h'.waits.trans h.waits
  task := h'.task.trans h.task
  ntasks := h'.ntasks.trans h.ntasks
  flow f hf := (h'.flow f (by rw [h.cpu]; exact hf)).trans (h.flow f hf)

theorem onFlow (f : Flow → Flow) : Still s (s.onFlow f) :=
  ⟨rfl, rfl, rfl, rfl, rfl, rfl, rfl, fun g hg => by simp [Sys.onFlow, hg]⟩

theorem setProc (p : Nat) (f : ProcessControlBlock → ProcessControlBlock) : Still s (s.setProc p f) :=
  ⟨rfl, rfl, rfl, rfl, rfl, rfl, rfl, fun _ _ => rfl⟩

theorem hold (c : Cell) : Still s (s.hold c) :=
  ⟨rfl, rfl, rfl, rfl, rfl, rfl, rfl, fun f hf => by simp [Sys.hold, Sys.onFlow, hf]⟩

theorem letGo (c : Cell) : Still s (s.letGo c) :=
  ⟨rfl, rfl, rfl, rfl, rfl, rfl, rfl, fun f hf => by simp [Sys.letGo, Sys.onFlow, hf]⟩

theorem push (code : List Instr) : Still s (s.push code) := .onFlow _

end Still

theorem At.keeps (h : At s t φ) (hk : Keeps s s') : At s' t φ := by
  cases φ <;> simpa only [At, hk.current, hk.places, hk.res] using h

theorem Resting.keeps {doomed : List Nat} (h : Resting s doomed u) (hk : Keeps s s') (hu : some u ≠ s.cpu) :
    Resting s' doomed u := by
  constructor
  · rw [hk.flow _ hu]
    exact h.flow
  · rw [hk.places, hk.res]
    exact h.place

theorem OnTask.keeps (h : OnTask s t φ) (hc : s.cpu = some t) (hk : Keeps s s')
    (hpath : after (s'.point (some t) φ) (s'.flow (some t)).code = some ⟨.run, 0, []⟩) : OnTask s' t φ where
  lt := by rw [hk.ntasks]; exact h.lt
  idle := by rw [hk.flow none (by simp [hc])]; exact h.idle
  path := hpath
  place := h.place.keeps hk
  rest u hu hne := (h.rest u (by rw [← hk.ntasks]; exact hu) hne).keeps hk (by simpa [hc] using hne)
  fresh u hu := by rw [hk.places]; exact h.fresh u (by rw [← hk.ntasks]; exact hu)

/-- The instruction leaves every task where it is, and what the flow has to do after it leads to the point
    after the instruction. -/
structure Quiet (s s' : Sys) (φ : Phase) (i : Instr) : Prop where
  still : Still s s'
  lands : ∃ code, (s'.flow s.cpu).code = code ++ (s.flow s.cpu).code ∧
    Point.after ⟨φ, (s'.flow s.cpu).arcs, (s'.flow s.cpu).held⟩ code =
      Point.next ⟨φ, (s.flow s.cpu).arcs, (s.flow s.cpu).held⟩ i

variable {rest : List Instr}

theorem OnTask.quiet (h : OnTask s t φ) (hc : s.cpu = some t)
    (hcode : (s.flow (some t)).code = i :: rest) (hq : Quiet (s.pop rest) s' φ i) : OnTask s' t φ := by
  refine h.keeps hc ((Still.onFlow _).trans hq.still).keeps ?_
  obtain ⟨code, hcode', hafter⟩ := hq.lands
  simp only [onFlow, hc, Function.update_self] at hcode' hafter
  have hpath := h.path
  rw [hcode, after_cons] at hpath
  obtain ⟨p', hstep, hpath⟩ := bind_eq_some_iff.mp hpath
  rw [hcode', after_append, hafter, (step_some hstep).2, bind_some, hpath]

namespace Quiet

variable {i : Instr} {p' : Point}

/-- The flow goes on with `code`. -/
theorem of_push (code : List Instr) (hk : Still s s')
    (hf : s'.flow s.cpu = { s.flow s.cpu with code := code ++ (s.flow s.cpu).code })
    (h : after (s.point s.cpu φ) code = next (s.point s.cpu φ) i) : Quiet s s' φ i := by
  refine ⟨hk, code, ?_, ?_⟩
  · rw [hf]
  · rw [hf]
    exact h

/-- The flow goes on with the rest. -/
theorem of_keeps (hk : Still s s') (hf : s'.flow s.cpu = s.flow s.cpu)
    (h : next (s.point s.cpu φ) i = some (s.point s.cpu φ)) : Quiet s s' φ i :=
  of_push [] hk hf h.symm

/-- The instruction leads nowhere else. -/
theorem of_stays {C : Prop} [Decidable C] (hk : Still s s') (hf : s'.flow s.cpu = s.flow s.cpu)
    (hn : (if C then some (s.point s.cpu φ) else none) = some p')
    (h : next (s.point s.cpu φ) i = if C then some (s.point s.cpu φ) else none) : Quiet s s' φ i :=
  of_keeps hk hf (h.trans (if_pos (ite_none_right_eq_some.mp hn).1))

theorem borrow (c : Cell) : Quiet s (s.hold c) φ (.borrow c) := by
  refine ⟨.hold c, [], ?_, ?_⟩
  · simp [hold, onFlow]
  · simp [hold, onFlow, Point.next]

theorem release {c : Cell} (hn : next (s.point s.cpu φ) (.release c) = some p') :
    Quiet s (s.letGo c) φ (.release c) := by
  refine ⟨.letGo c, [], ?_, ?_⟩
  · simp [letGo, onFlow]
  · simp only [Point.next, ite_none_right_eq_some] at hn ⊢
    cases hh : (s.flow s.cpu).held with
    | nil => simp [hh] at hn
    | cons c' held =>
      simp only [hh, head?_cons, some.injEq] at hn
      simpa [letGo, onFlow, hh, hn.1.1] using hn.1.2

theorem upgrade (hn : next (s.point s.cpu φ) .upgrade = some p') :
    Quiet s (s.onFlow fun f => { f with arcs := f.arcs + 1 }) φ .upgrade := by
  simp only [Point.next, ite_none_right_eq_some] at hn
  refine ⟨.onFlow _, [], ?_, ?_⟩
  · simp [onFlow]
  · simp [onFlow, Point.next, hn.1]

theorem dropProcess (hn : next (s.point s.cpu φ) .dropProcess = some p') :
    Quiet s (s.onFlow fun f => { f with arcs := f.arcs - 1 }) φ .dropProcess := by
  simp only [Point.next, ite_none_right_eq_some] at hn
  refine ⟨.onFlow _, [], ?_, ?_⟩
  · simp [onFlow]
  · simp [onFlow, Point.next, hn.1]

/-! ### Processes -/

theorem reap {p tid : Nat} (hn : next (s.point s.cpu φ) (.reap tid) = some p') :
    Quiet s (s.reap p tid) φ (.reap tid) := by
  rcases s.reap_cases p tid with h | ⟨w, -, -, h⟩ <;> rw [h]
  · exact of_stays .refl rfl hn rfl
  · exact of_stays (.setProc _ _) rfl hn rfl

theorem waitpid {p : Nat} {pid : Option Nat}
    (hn : next (s.point s.cpu φ) (.waitpid pid) = some p')
    (hs : s.waitpid p pid = some s') : Quiet s s' φ (.waitpid pid) := by
  rcases waitpid_some hs with rfl | ⟨c, rfl⟩
  · exact of_stays .refl rfl hn rfl
  · exact of_stays (.setProc _ _) rfl hn rfl

end Quiet

/-! ### Objects with a wait queue -/

attribute [local simp] Point.after_append Point.after_cons Point.step Point.next Point.inCell Point.after_block Point.after_suspend
  Point.after_wakeup Instr.fits Cell.isOfTimer ofTimer_cons ofTimer_nil Instr.queue

theorem push_nil : s.push [] = s := by simp [push, onFlow]

/-- The code is about queue `o`, or about none. -/
def About (o : Option Queue) (code : List Instr) : Prop := ∀ j ∈ code, j.queue = none ∨ j.queue = o

theorem about_wakeFront (q : Queue) : About (some q) (s.wakeFront q) := by
  unfold wakeFront
  split <;> simp [About, wakeupTask]

theorem about_append {o : Option Queue} {xs ys : List Instr} (h : About o xs) (h' : About o ys) : About o (xs ++ ys) := by
  intro j hj
  exact (mem_append.mp hj).elim (h j) (h' j)

/-- Nothing changes but the objects, and the flow goes on with code about the queue of the instruction. -/
inductive GoesOn (s s' : Sys) (φ : Phase) (i : Instr) : Prop where
  | intro (code : List Instr) {locked : Queue → Bool} {count : Queue → Int} {event : Nat → EventCounter} {uart : Nat}
    (hs : s' = { s.push code with locked := locked, count := count, event := event, uart := uart })
    (about : About i.queue code) (lands : after (s.point s.cpu φ) code = Point.next (s.point s.cpu φ) i)

namespace GoesOn

variable {p' : Point}

theorem quiet {i : Instr} (h : GoesOn s s' φ i) : Quiet s s' φ i := by
  obtain ⟨code, rfl, -, hlands⟩ := h
  exact .of_push code ⟨rfl, rfl, rfl, rfl, rfl, rfl, rfl, (Still.push _).flow⟩ (by simp [push, onFlow]) hlands

theorem after_wakeFront (q : Queue) (a : Nat) :
    after ⟨.run, a, [.queue q]⟩ (s.wakeFront q) = some ⟨.run, a, [.queue q]⟩ := by
  unfold wakeFront
  split
  · exact after_wakeup _ q rfl
  · rfl

theorem tryLock (hn : next (s.point s.cpu φ) (.tryLock q) = some p') :
    GoesOn s (s.tryLock t q) φ (.tryLock q) := by
  obtain ⟨hg, hn⟩ := ite_none_right_eq_some.mp hn
  obtain ⟨rfl, hH⟩ := inCell_some hn
  unfold tryLock
  split
  · split
    · exact .intro _ rfl (by simp [About, suspendCurrentAndRunNext, lockMutex]) (by simp [hH, hg, lockMutex])
    · exact .intro _ rfl (by simp [About, blockCurrentAndRunNext]) (by simp [hH, hg])
  · exact .intro _ rfl (by simp [About]) (by simp [hH, hg])

theorem unlock (hn : next (s.point s.cpu φ) (.unlock q) = some p')
    (hs : s.unlock q = some s') : GoesOn s s' φ (.unlock q) := by
  obtain ⟨rfl, hH⟩ := inCell_some hn
  unfold unlock at hs
  split at hs
  · cases hs
    exact .intro _ rfl (by simp [About]) (by simp [hH])
  · obtain ⟨-, hs⟩ := ite_none_right_eq_some.mp hs
    split at hs
    · cases hs
      exact .intro _ rfl (by simp [About, wakeupTask]) (by simp [hH])
    · cases hs
      exact .intro _ rfl (by simp [About]) (by simp [hH])

theorem up (hn : next (s.point s.cpu φ) (.up q) = some p') :
    GoesOn s (s.up q) φ (.up q) := by
  obtain ⟨rfl, hH⟩ := inCell_some hn
  refine .intro _ rfl (about_append ?_ (by simp [About])) ?_
  · split
    · exact about_wakeFront q
    · simp [About]
  · split <;> simp [point, hH, after_wakeFront]

theorem down (hn : next (s.point s.cpu φ) (.down q) = some p') :
    GoesOn s (s.down t q) φ (.down q) := by
  obtain ⟨hg, hn⟩ := ite_none_right_eq_some.mp hn
  obtain ⟨rfl, hH⟩ := inCell_some hn
  refine .intro _ rfl ?_ ?_
  · split <;> simp [About, blockCurrentAndRunNext]
  · split <;> simp [hH, hg]

theorem signal (hn : next (s.point s.cpu φ) (.signal q) = some p') :
    GoesOn s (s.push (s.wakeFront q ++ [.release (.queue q)])) φ (.signal q) := by
  obtain ⟨rfl, hH⟩ := inCell_some hn
  exact .intro _ rfl (about_append (about_wakeFront q) (by simp [About])) (by simp [point, hH, after_wakeFront])

theorem signalAll (hn : next (s.point s.cpu φ) (.signalAll q) = some p') :
    GoesOn s (s.signalAll q) φ (.signalAll q) := by
  obtain ⟨rfl, hH⟩ := inCell_some hn
  unfold signalAll
  split
  · exact .intro _ rfl (by simp [About, wakeupTask]) (by simp [hH])
  · exact .intro _ rfl (by simp [About]) (by simp [hH])

theorem readEventfd {p e : Nat} (hn : next (s.point s.cpu φ) (.readEventfd e) = some p') :
    GoesOn s (s.readEventfd t p e) φ (.readEventfd e) := by
  obtain ⟨rfl, hH⟩ := inCell_some hn
  unfold readEventfd
  split
  · exact .intro _ rfl (by simp [About]) (by simp [hH])
  · split
    · split
      · exact .intro _ rfl (by simp [About]) (by simp [hH])
      · exact .intro _ rfl (by simp [About, blockCurrentAndRunNext]) (by simp [hH, Queue.guard])
    · exact .intro _ rfl (by simp [About]) (by simp [hH])

theorem writeEventfd {p e : Nat} {v : UInt32} (hn : next (s.point s.cpu φ) (.writeEventfd e v) = some p') :
    GoesOn s (s.writeEventfd p e v) φ (.writeEventfd e v) := by
  obtain ⟨rfl, hH⟩ := inCell_some hn
  unfold writeEventfd
  split
  · exact .intro _ rfl (by simp [About]) (by simp [hH])
  · exact .intro _ rfl (about_append (about_wakeFront _) (by simp [About])) (by simp [point, hH, after_wakeFront])

theorem readUart (hn : next (s.point s.cpu φ) .readUart = some p') :
    GoesOn s (s.readUart t) φ .readUart := by
  obtain ⟨rfl, hH⟩ := inCell_some hn
  unfold readUart
  split
  · exact .intro _ rfl (by simp [About]) (by simp [hH])
  · exact .intro _ rfl (by simp [About, waitUart]) (by simp [hH, waitUart, Queue.guard])

theorem waittid {tid : Nat} (hn : next (s.point s.cpu φ) (.waittid tid) = some p')
    (hfits : Instr.fits (.waittid tid) (ofTimer (s.flow s.cpu).held) = true) (hs : s.waittid t tid = some s') :
    GoesOn s s' φ (.waittid tid) := by
  obtain ⟨hrun, -⟩ := ite_none_right_eq_some.mp hn
  have hstays : GoesOn s s φ (.waittid tid) := .intro [] push_nil.symm (by simp [About]) (if_pos hrun).symm
  unfold Sys.waittid at hs
  split at hs
  · cases hs
    exact hstays
  · split at hs
    · cases hs
    · cases hs
      exact hstays
    · cases hs
      simp only at hrun
      simp only [Instr.fits, decide_eq_true_eq] at hfits
      exact .intro _ rfl (by simp [About]) (by simp [hrun, hfits])

theorem trapEnd {sig : Signals} (hn : next (s.point s.cpu φ) (.trapEnd sig) = some p')
    (hs : s.trapEnd t sig = some s') : GoesOn s s' φ (.trapEnd sig) := by
  obtain ⟨hp, -⟩ := ite_none_right_eq_some.mp hn
  obtain ⟨-, hs⟩ := ite_none_right_eq_some.mp hs
  have hfrozen : after ⟨.run, 0, []⟩ ((range sig.frozen).flatMap fun _ => suspendCurrentAndRunNext t) =
      some ⟨.run, 0, []⟩ := after_flatMap _ fun _ _ => after_suspend t
  split at hs
  · cases hs
    refine .intro _ rfl (about_append (about_append ?_ ?_) (by simp [About])) ?_
    · intro j hj
      obtain ⟨_, -, hj⟩ := mem_flatMap.mp hj
      exact (show About _ (suspendCurrentAndRunNext t) by simp [About, suspendCurrentAndRunNext]) j hj
    · cases sig.fatal <;> simp [About]
    · rw [hp]
      cases sig.fatal <;> simp [hfrozen]
  · cases hs
    exact .intro _ rfl (by simp [About]) (by rw [hp]; simp)

end GoesOn

section

variable {p' : Point} (hn : next (s.point s.cpu φ) i = some p') (hfits : i.fits (ofTimer (s.flow s.cpu).held) = true)
  (hs : s.taskEffect t i = some s')
include hn hfits hs

theorem taskEffect_goesOn (hgo : i.goesOn = true) : GoesOn s s' φ i := by
  cases i with
  | tryLock q => cases hs; exact .tryLock hn
  | unlock q => exact .unlock hn hs
  | up q => cases hs; exact .up hn
  | down q => cases hs; exact .down hn
  | signal q => cases hs; exact .signal hn
  | signalAll q => cases hs; exact .signalAll hn
  | readEventfd e => cases hs; exact .readEventfd hn
  | writeEventfd e v => cases hs; exact .writeEventfd hn
  | readUart => cases hs; exact .readUart hn
  | waittid tid => exact .waittid hn hfits hs
  | trapEnd sig => exact .trapEnd hn hs
  | _ => cases hgo

theorem taskEffect_quiet (hq : i.isQuiet = true) : Quiet s s' φ i := by
  cases hgo : i.goesOn with
  | true => exact (taskEffect_goesOn hn hfits hs hgo).quiet
  | false =>
    cases i with
    | borrow c =>
      obtain ⟨-, ⟨⟩⟩ := ite_none_left_eq_some.mp hs
      exact .borrow c
    | release c => cases hs; exact .release hn
    | upgrade => cases hs; exact .upgrade hn
    | dropProcess => cases hs; exact .dropProcess hn
    | createEventfd initval nonBlock semaphore =>
      cases hs
      exact .of_stays ⟨rfl, rfl, rfl, rfl, rfl, rfl, rfl, fun _ _ => rfl⟩ rfl hn rfl
    | reap tid => cases hs; exact .reap hn
    | waitpid pid => exact .waitpid hn hs
    | exec =>
      obtain ⟨-, ⟨⟩⟩ := ite_none_right_eq_some.mp hs
      exact .of_stays .refl rfl hn rfl
    | leavePid =>
      obtain ⟨-, ⟨⟩⟩ := ite_none_right_eq_some.mp hs
      exact .of_stays ⟨rfl, rfl, rfl, rfl, rfl, rfl, rfl, fun _ _ => rfl⟩ rfl hn rfl
    | becomeZombie =>
      cases hs
      exact .of_stays (.trans (.setProc _ _) (.setProc _ _)) rfl hn rfl
    | clearTasks =>
      cases hs
      exact .of_stays (.setProc _ _) rfl hn rfl
    | trapReturn =>
      cases hs
      exact .of_stays ⟨rfl, rfl, rfl, rfl, rfl, rfl, rfl, fun _ _ => rfl⟩ rfl hn rfl
    | yield | enqueue _ | addTimer _ | block | schedule _ | popWake _ | fork | spawn | exit _ | removeReady _
    | removeTimer _ | takeRes _ | fetch | switchTo _ => cases hq
    | _ => cases hgo

end

/-! ## Steps that move a task -/

section Moves

variable {i : Instr} {rest : List Instr} {φ' : Phase}

theorem OnTask.steps (h : OnTask s t φ) (hcode : (s.flow (some t)).code = i :: rest) :
    ∃ p', (s.point (some t) φ).step i = some p' ∧ p'.after rest = some ⟨.run, 0, []⟩ := by
  have hpath := h.path
  rw [hcode, after_cons] at hpath
  exact bind_eq_some_iff.mp hpath

theorem OnTask.next (h : OnTask s t φ) (hcode : (s.flow (some t)).code = i :: rest) :
    ∃ p', next (s.point (some t) φ) i = some p' ∧ p'.after rest = some ⟨.run, 0, []⟩ := by
  obtain ⟨p', hstep, hpath⟩ := h.steps hcode
  exact ⟨p', (step_some hstep).2, hpath⟩

section

variable (h : OnTask s t φ) (hk : s.Takes t i rest s')
include h hk

theorem OnTask.phase (hi : i.phase = some φ') : φ = φ' := by
  obtain ⟨p', hn, -⟩ := h.next hk.code
  exact phase_of_next hn hi

theorem OnTask.runs (hi : i.phase = some .run) : s.current = some t := by
  obtain rfl := h.phase hk hi
  exact h.place.1

section

variable (hn : Point.next (s.point (some t) φ) i = some (s.point (some t) φ'))
include hn

/-- The task on the processor moves on along its path. -/
theorem OnTask.advance (hf : s'.flow = (s.pop rest).flow)
    (hnt : s'.ntasks = s.ntasks) (hat : At s' t φ') (hfresh : ∀ u, s.ntasks ≤ u → s'.places u = 0)
    (hplace : ∀ u, u ≠ t → Resting s φ.doomed u →
      s'.places u = 1 ∨ s'.places u = 0 ∧ ((s'.task u).res = false ∨ u ∈ φ'.doomed)) : OnTask s' t φ' where
  lt := by rw [hnt]; exact h.lt
  idle := by rw [hf, (Still.onFlow _).flow none (by simp [hk.cpu])]; exact h.idle
  path := by
    obtain ⟨p', hnext, hpath⟩ := h.next hk.code
    obtain rfl := some.inj (hn.symm.trans hnext)
    simpa [hf, onFlow, hk.cpu] using hpath
  place := hat
  rest u hu hne := by
    have hr := h.rest u (by rw [← hnt]; exact hu) hne
    refine ⟨?_, hplace u hne hr⟩
    rw [hf, (Still.onFlow _).flow (some u) (by simpa [hk.cpu] using hne)]
    exact hr.flow
  fresh u hu := hfresh u (by rw [← hnt]; exact hu)

/-- Nobody else moves. -/
theorem OnTask.moves (hd : φ'.doomed = φ.doomed)
    (hf : s'.flow = (s.pop rest).flow) (hnt : s'.ntasks = s.ntasks) (hpl : ∀ u, u ≠ t → s'.places u = s.places u)
    (hres : ∀ u, u ≠ t → (s'.task u).res = (s.task u).res) (hat : At s' t φ') : OnTask s' t φ' := by
  refine h.advance hk hn hf hnt hat ?_ ?_
  · intro u hu
    have hlt := h.lt
    rw [hpl u (by omega)]
    exact h.fresh u hu
  · intro u hne hr
    rw [hpl u hne, hres u hne, hd]
    exact hr.place

end

end

theorem res_setStatus (st : TaskStatus) (u : Nat) : ((s.setTask t fun b => { b with status := st }).task u).res = (s.task u).res := by
  simp only [setTask, update_apply]
  split
  · subst u
    rfl
  · rfl

theorem OnTask.yield (h : OnTask s t φ) (hk : s.Takes t .yield rest s') : OnTask s' t .parked := by
  obtain rfl := h.phase hk rfl
  cases hk.effect
  have hpl : ∀ u, places { (s.pop rest).setTask t (fun b => { b with status := .ready }) with
      current := none, readyQueue := s.readyQueue ++ [t] } u = s.places u := by
    intro u
    simp only [places, h.place.1, toList_none, toList_some, count_append, count_nil, onFlow, setTask]
    omega
  refine h.moves hk (by simp [Point.next]) rfl rfl rfl (fun u _ => hpl u) (fun u _ => res_setStatus _ u) ⟨rfl, ?_⟩
  rw [← h.place.2]
  exact hpl t

/-- The task enters a wait queue or the timers. -/
theorem OnTask.enter (h : OnTask s t .run) (hk : s.Takes t i rest s')
    (hn : Point.next (s.point (some t) .run) i = some (s.point (some t) .queued)) (hf : s'.flow = (s.pop rest).flow)
    (hcur : s'.current = s.current) (hnt : s'.ntasks = s.ntasks) (htask : s'.task = s.task)
    (hpl : ∀ u, s'.places u = s.places u + [t].count u) : OnTask s' t .queued := by
  refine h.moves hk hn rfl hf hnt ?_ (fun u _ => by rw [htask]) ⟨by rw [hcur]; exact h.place.1, ?_⟩
  · intro u hne
    rw [hpl u, count_singleton, if_neg (by simpa using hne.symm), Nat.add_zero]
  · rw [hpl t, h.place.2, count_singleton, if_pos (by simp)]

section

variable (h : OnTask s t φ)
include h

theorem OnTask.enqueue (hk : s.Takes t (.enqueue q) rest s') : OnTask s' t .queued := by
  obtain rfl := h.phase hk rfl
  cases hk.effect
  obtain ⟨p', hn, -⟩ := h.next hk.code
  refine h.enter hk (if_pos (ite_none_right_eq_some.mp hn).1) rfl rfl rfl rfl ?_
  intro u
  simp only [places, onFlow, map_append, map_cons, map_nil, count_append]
  omega

theorem OnTask.addTimer {expire : Nat} (hk : s.Takes t (.addTimer expire) rest s') :
    OnTask s' t .queued := by
  obtain rfl := h.phase hk rfl
  cases hk.effect
  refine h.enter hk (by simp [Point.next]) rfl rfl rfl rfl ?_
  intro u
  simp only [places, onFlow, count_insertTimer]
  omega

theorem OnTask.block (hk : s.Takes t .block rest s') : OnTask s' t .parked := by
  obtain rfl := h.phase hk rfl
  cases hk.effect
  have hpl : ∀ u, s.places u = places { (s.pop rest).setTask t
      (fun b => { b with status := .blocked }) with current := none } u + [t].count u := by
    intro u
    simp only [places, h.place.1, toList_none, toList_some, count_nil, onFlow, setTask]
    omega
  refine h.moves hk (by simp [Point.next]) rfl rfl rfl ?_ (fun u _ => res_setStatus _ u) ⟨rfl, ?_⟩
  · intro u hne
    rw [hpl u, count_singleton, if_neg (by simpa using hne.symm), Nat.add_zero]
  · have ht := hpl t
    rw [h.place.2, count_singleton, if_pos (by simp)] at ht
    omega

theorem OnTask.schedule {site : Site} (hk : s.Takes t (.schedule site) rest s') : OnIdle s' := by
  obtain ⟨hc, hcode, ⟨⟩⟩ := hk
  obtain ⟨p', hn, hafter⟩ := h.next hcode
  have hp : p' = s.point (some t) .run ∧ φ.doomed = [] ∧ s.current = none ∧
      (s.places t = 1 ∨ s.places t = 0 ∧ (s.task t).res = false) ∧ ∀ c ∈ (s.flow (some t)).held, c.inFs := by
    cases site with
    | exit =>
      obtain ⟨hp, ⟨⟩⟩ := ite_none_right_eq_some.mp hn
      injection hp with h1 h2 h3
      subst h1
      exact ⟨by simp only [point, h2, h3], rfl, h.place.1, .inr h.place.2, by simp [h3]⟩
    | disk =>
      obtain ⟨⟨hφ, -, hfs⟩, ⟨⟩⟩ := ite_none_right_eq_some.mp hn
      obtain rfl : φ = .parked := hφ
      exact ⟨rfl, rfl, h.place.1, .inl h.place.2, hfs⟩
    | suspend | block | uart =>
      obtain ⟨⟨hφ, hheld⟩, ⟨⟩⟩ := ite_none_right_eq_some.mp hn
      obtain rfl : φ = .parked := hφ
      have hheld : (s.flow (some t)).held = [] := hheld
      exact ⟨rfl, rfl, h.place.1, .inl h.place.2, by simp [hheld]⟩
  obtain ⟨rfl, hd, hcur, hpl, hfs⟩ := hp
  refine ⟨?_, ?_, h.fresh⟩
  · show IdleAt ((s.pop rest).flow none) s.current
    rw [(Still.onFlow _).flow none (by simp [hc]), h.idle, hcur]
    exact .loop
  · intro u hu
    by_cases hne : u = t
    · subst hne
      refine ⟨⟨?_, ?_⟩, ?_⟩
      · simpa [onFlow, hc] using hafter
      · simpa [onFlow, hc] using hfs
      · exact hpl.imp id fun h => ⟨h.1, .inl h.2⟩
    · have hr := h.rest u hu hne
      rw [hd] at hr
      have hr' : Resting (s.pop rest) [] u := hr.keeps (Still.onFlow _).keeps (by simpa [hc] using hne)
      exact ⟨hr'.flow, hr'.place⟩

/-- An instruction of a running task that leaves it where it is. -/
theorem OnTask.popped (hk : s.Takes t i rest s')
    (hrun : Point.next (s.point (some t) φ) i = some (s.point (some t) φ)) : OnTask (s.pop rest) t φ :=
  h.quiet hk.cpu hk.code (.of_keeps .refl rfl (by simpa [point, onFlow, hk.cpu] using hrun))

end

theorem OnTask.popWake (h : OnTask s t φ) (hk : s.Takes t (.popWake q) rest s') : OnTask s' t φ := by
  have h1 := h.popped hk (if_pos (h.phase hk rfl))
  rcases popWake_some hk.effect with rfl | ⟨w, hfront, rfl⟩
  · exact h1
  · have hplaces := places_popWake (mem_of_front hfront)
    exact h1.keeps hk.cpu ⟨rfl, rfl, rfl, hplaces, fun u => res_setStatus _ u, fun _ _ => rfl⟩ h1.path

/-- A new task in the ready queue. -/
theorem OnTask.addTask {p tid : Nat} (h : OnTask s t φ) : OnTask (s.addTask p tid) t φ := by
  have hpl : ∀ u, (s.addTask p tid).places u = s.places u + [s.ntasks].count u := by
    intro u
    simp only [places, Sys.addTask, count_append]
    omega
  have hold : ∀ u, u < s.ntasks → (s.addTask p tid).places u = s.places u ∧
      (s.addTask p tid).flow (some u) = s.flow (some u) ∧ (s.addTask p tid).task u = s.task u := by
    intro u hu
    have hne : u ≠ s.ntasks := by omega
    refine ⟨?_, ?_, ?_⟩
    · rw [hpl, count_singleton, if_neg (by simpa using hne.symm), Nat.add_zero]
    · simp [Sys.addTask, hne]
    · simp [Sys.addTask, hne]
  obtain ⟨hplt, hflow, htask⟩ := hold t h.lt
  constructor
  case lt => exact Nat.lt_succ_of_lt h.lt
  case idle =>
    rw [← h.idle]
    simp [Sys.addTask]
  case path =>
    rw [hflow]
    exact h.path
  case place =>
    have hat := h.place
    cases φ <;> simpa only [At, hplt, htask, show (s.addTask p tid).current = s.current from rfl] using hat
  case rest =>
    intro u hu hne
    rcases Nat.lt_succ_iff_lt_or_eq.mp hu with hlt | rfl
    · obtain ⟨hplu, hflow, htask⟩ := hold u hlt
      have hr := h.rest u hlt hne
      constructor
      · rw [hflow]
        exact hr.flow
      · rw [hplu, htask]
        exact hr.place
    · constructor
      · exact ⟨by simp [Sys.addTask, Point.after_cons, Point.step, Point.next, Instr.fits, ofTimer_nil], by simp [Sys.addTask]⟩
      · rw [hpl, h.fresh _ le_rfl, count_singleton, if_pos (by simp)]
        exact .inl rfl
  case fresh =>
    intro u hu
    have hu' : s.ntasks + 1 ≤ u := hu
    have hne : s.ntasks ≠ u := by omega
    rw [hpl, h.fresh u (by omega), count_singleton, if_neg (by simpa using hne)]

theorem OnTask.fork (h : OnTask s t φ) (hk : s.Takes t .fork rest s') : OnTask s' t φ := by
  have h1 := h.popped hk (if_pos (h.phase hk rfl))
  obtain ⟨-, ⟨⟩⟩ := ite_none_right_eq_some.mp hk.effect
  exact .addTask (h1.keeps hk.cpu ⟨rfl, rfl, rfl, fun _ => rfl, fun _ => rfl, fun _ _ => rfl⟩ h1.path)

theorem OnTask.spawn (h : OnTask s t φ) (hk : s.Takes t .spawn rest s') : OnTask s' t φ := by
  have h1 := h.popped hk (if_pos (h.phase hk rfl))
  cases hk.effect
  exact .addTask (h1.keeps hk.cpu (Still.setProc _ _).keeps h1.path)

theorem dropRes_some (hs : s.dropRes t = some s') : ∃ tids, s' = (s.setTask t fun b => { b with res := false }).setProc
    (s.task t).proc fun b => { b with tids := tids } := by
  obtain ⟨tids, -, rfl⟩ := map_eq_some_iff.mp hs
  exact ⟨tids, rfl⟩

theorem exit_some {code : Int} (hs : s.exit t code = some s') : (s.task t).res = true ∧ ∃ s₁ tids,
    s₁ = (setTask { s with current := none } t fun b => { b with res := false }).setProc (s.task t).proc
      (fun b => { b with tids := tids }) ∧
    dropRes { s with current := none } t = some s₁ ∧
    s' = (s₁.setTask t fun b => { b with exitCode := some code }).onFlow fun f =>
      { f with
        arcs := f.arcs + 1
        code := if (s₁.task t).tid = 0 then exitProcess (s.task t).proc ((s₁.proc (s.task t).proc).tasks.filterMap id)
          else exitThread } := by
  obtain ⟨hok, hs⟩ := ite_none_left_eq_some.mp hs
  obtain ⟨s₁, hdrop, rfl⟩ := map_eq_some_iff.mp hs
  obtain ⟨tids, hs₁⟩ := dropRes_some hdrop
  simp only [Bool.or_eq_true, Bool.not_eq_true', not_or] at hok
  exact ⟨by simpa using hok.1, s₁, tids, hs₁, hdrop, rfl⟩

/-- A thread without resources has none to take. -/
theorem takeRes_some (hs : s.taskEffect t (.takeRes u) = some s') : ∃ tids, s' =
    (s.setTask u fun b => { b with res := false }).setProc (s.task u).proc fun b => { b with tids := tids } := by
  simp only [taskEffect] at hs
  split at hs
  · exact dropRes_some hs
  · rename_i hres
    cases hs
    refine ⟨(s.proc (s.task u).proc).tids, ?_⟩
    have hsame : { s.task u with res := false } = s.task u := by
      rw [← Bool.eq_false_of_not_eq_true hres]
    simp only [setTask, setProc, hsame, Function.update_eq_self]

theorem OnTask.exit {code : Int} (h : OnTask s t φ) (hk : s.Takes t (.exit code) rest s') : OnTask s' t (.gone []) := by
  obtain ⟨hc, hcode, hs⟩ := hk
  obtain ⟨p', hn, -⟩ := h.next hcode
  obtain ⟨hp, -⟩ := ite_none_right_eq_some.mp hn
  injection hp with hφ harcs hheld
  subst hφ
  obtain ⟨-, s₁, tids, rfl, -, rfl⟩ := exit_some hs
  have hpl : ∀ u, s.places u = places { s with current := none } u + [t].count u := by
    intro u
    simp only [places, h.place.1, toList_none, toList_some, count_nil]
    omega
  constructor
  case lt => exact h.lt
  case idle =>
    rw [← h.idle]
    simp [onFlow, setTask, setProc, hc]
  case path =>
    simp only [onFlow, setTask, setProc, hc, Function.update_self, harcs, hheld, Nat.zero_add]
    split
    · exact after_exitProcess _ _
    · exact after_exitThread
  case place =>
    refine ⟨rfl, ?_, by simp [onFlow, setTask, setProc]⟩
    have ht := hpl t
    rw [h.place.2, count_singleton, if_pos (by simp)] at ht
    exact (Nat.succ.inj ht).symm
  case rest =>
    intro u hu hne
    have hr := h.rest u hu hne
    constructor
    · simpa [onFlow, setTask, setProc, hc, hne] using hr.flow
    · have hplu := hpl u
      rw [count_singleton, if_neg (by simpa using hne.symm), Nat.add_zero] at hplu
      have hplace := hr.place
      rw [hplu] at hplace
      refine hplace.imp id fun hz => ⟨hz.1, ?_⟩
      simpa [onFlow, setTask, setProc, hne, doomed] using hz.2
  case fresh =>
    intro u hu
    have hfr := h.fresh u hu
    rw [hpl] at hfr
    exact (Nat.add_eq_zero_iff.mp hfr).1

/-- The exiting task takes thread `u` out of a queue. -/
theorem OnTask.remove {doomed : List Nat} (h : OnTask s t (.gone doomed)) (hk : s.Takes t i rest s')
    (hn : Point.next (s.point (some t) (.gone doomed)) i = some (s.point (some t) (.gone [u])))
    (hd : ∀ v, v ∈ doomed → v = u) (hf : s'.flow = (s.pop rest).flow) (hcur : s'.current = s.current)
    (hnt : s'.ntasks = s.ntasks) (htask : s'.task = s.task) (hle : ∀ v, s'.places v ≤ s.places v)
    (hne : ∀ v, v ≠ u → s'.places v = s.places v) : OnTask s' t (.gone [u]) := by
  obtain ⟨hcur', hpl, hres⟩ := h.place
  refine h.advance hk hn hf hnt ⟨hcur.trans hcur', Nat.le_zero.mp (hpl ▸ hle t), by rw [htask]; exact hres⟩ ?_ ?_
  · intro v hv
    exact Nat.le_zero.mp (h.fresh v hv ▸ hle v)
  · intro v _ hr
    by_cases hvu : v = u
    · subst hvu
      have hlev := hle v
      have hcases : s'.places v = 1 ∨ s'.places v = 0 := by
        have := hr.place
        omega
      exact hcases.imp id fun h => ⟨h, .inr (by simp [Phase.doomed])⟩
    · rw [hne v hvu, htask]
      exact hr.place.imp id fun ⟨h0, hor⟩ => ⟨h0, .inl (hor.resolve_right fun hmem => hvu (hd v hmem))⟩

theorem OnTask.removeReady (h : OnTask s t φ) (hk : s.Takes t (.removeReady u) rest s') :
    OnTask s' t (.gone [u]) := by
  obtain rfl := h.phase hk rfl
  cases hk.effect
  refine h.remove hk (by simp [Point.next]) (by simp) rfl rfl rfl rfl ?_ ?_
  · intro v
    have hle : (s.readyQueue.erase u).count v ≤ s.readyQueue.count v := erase_sublist.count_le v
    simp only [places, onFlow]
    omega
  · intro v hvu
    have heq : (s.readyQueue.erase u).count v = s.readyQueue.count v := count_erase_of_ne hvu
    simp only [places, onFlow, heq]

theorem OnTask.removeTimer (h : OnTask s t φ) (hk : s.Takes t (.removeTimer u) rest s') :
    OnTask s' t (.gone [u]) := by
  obtain rfl := h.phase hk rfl
  cases hk.effect
  refine h.remove hk (by simp [Point.next]) (by simp) rfl rfl rfl rfl ?_ ?_
  · intro v
    have hle : ((s.timers.filter fun x => x.task != u).map (·.task)).count v ≤ (s.timers.map (·.task)).count v :=
      (filter_sublist.map _).count_le v
    simp only [places, onFlow]
    omega
  · intro v hvu
    simp only [places, onFlow, count_removeTimer hvu]

theorem OnTask.takeRes (h : OnTask s t φ) (hk : s.Takes t (.takeRes u) rest s') : OnTask s' t (.gone []) := by
  obtain rfl := h.phase hk rfl
  obtain ⟨tids, rfl⟩ := takeRes_some hk.effect
  have hres : ∀ v, (((s.pop rest).setTask u fun b => { b with res := false }).task v).res =
      if v = u then false else (s.task v).res := by
    intro v
    simp only [setTask, onFlow, update_apply]
    split <;> rfl
  obtain ⟨hcur, hpl, hresT⟩ := h.place
  refine h.advance hk (by simp [Point.next]) rfl rfl ⟨hcur, hpl, (hres t).trans (by rw [hresT, ite_self])⟩ h.fresh ?_
  intro v _ hr
  refine hr.place.imp id fun ⟨h0, hor⟩ => ⟨h0, .inl ((hres v).trans ?_)⟩
  split
  · rfl
  · rename_i hvu
    exact hor.resolve_right (by simpa [doomed] using hvu)

end Moves

/-! ## Every step -/

theorem execNext_task (hc : s.cpu = some t) (hs : s.execNext = some s') : ∃ i rest, s.Takes t i rest s' := by
  unfold execNext at hs
  rw [hc] at hs
  split at hs
  · cases hs
  · rename_i i rest hcode
    rw [effect, show (s.pop rest).cpu = some t from hc] at hs
    exact ⟨i, rest, hc, hcode, hs⟩

section

variable (h : OnTask s t φ) (hk : s.Takes t i rest s')
include h hk

theorem OnTask.fits : i.fits (ofTimer ((s.pop rest).flow (s.pop rest).cpu).held) = true ∧
    ∃ p', Point.next ((s.pop rest).point (s.pop rest).cpu φ) i = some p' := by
  obtain ⟨p', hstep, -⟩ := h.steps hk.code
  obtain ⟨hfits, hn⟩ := step_some hstep
  exact ⟨by simpa [onFlow, hk.cpu] using hfits, p', by simpa [point, onFlow, hk.cpu] using hn⟩

theorem OnTask.goesOn (hgo : i.goesOn = true) : GoesOn (s.pop rest) s' φ i := by
  obtain ⟨hfits, p', hn⟩ := h.fits hk
  exact taskEffect_goesOn hn hfits hk.effect hgo

theorem OnTask.takesQuiet (hq : i.isQuiet = true) : Quiet (s.pop rest) s' φ i := by
  obtain ⟨hfits, p', hn⟩ := h.fits hk
  exact taskEffect_quiet hn hfits hk.effect hq

/-- The task on the processor takes an instruction: it leaves the processor, or it is in the next phase. -/
theorem OnTask.effect :
    (∃ site, i = .schedule site ∧ s'.cpu = none ∧ OnIdle s') ∨ s'.cpu = some t ∧ OnTask s' t (φ.after i) := by
  obtain ⟨hc, hcode, hs⟩ := id hk
  cases hq : i.isQuiet with
  | true =>
    have hquiet := h.takesQuiet hk hq
    rw [after_quiet hq]
    exact .inr ⟨hquiet.still.cpu.trans hc, h.quiet hc hcode hquiet⟩
  | false =>
    cases i with
    | schedule site => exact .inl ⟨site, rfl, by cases hs; rfl, h.schedule hk⟩
    | yield => exact .inr ⟨by cases hs; exact hc, h.yield hk⟩
    | enqueue q => exact .inr ⟨by cases hs; exact hc, h.enqueue hk⟩
    | addTimer expire => exact .inr ⟨by cases hs; exact hc, h.addTimer hk⟩
    | block => exact .inr ⟨by cases hs; exact hc, h.block hk⟩
    | popWake q => exact .inr ⟨by obtain rfl | ⟨w, -, rfl⟩ := popWake_some hs <;> exact hc, h.popWake hk⟩
    | fork => exact .inr ⟨by obtain ⟨-, ⟨⟩⟩ := ite_none_right_eq_some.mp hs; exact hc, h.fork hk⟩
    | spawn => exact .inr ⟨by cases hs; exact hc, h.spawn hk⟩
    | exit code => exact .inr ⟨by obtain ⟨-, s₁, tids, rfl, -, rfl⟩ := exit_some hs; exact hc, h.exit hk⟩
    | removeReady u => exact .inr ⟨by cases hs; exact hc, h.removeReady hk⟩
    | removeTimer u => exact .inr ⟨by cases hs; exact hc, h.removeTimer hk⟩
    | takeRes u => exact .inr ⟨by obtain ⟨tids, rfl⟩ := takeRes_some hs; exact hc, h.takeRes hk⟩
    | fetch | switchTo t => cases hs
    | _ => cases hq

/-- Nobody else gets the processor. -/
theorem OnTask.stays {v : Nat}
    (hv : s'.cpu = some v) : t = v := by
  rcases h.effect hk with ⟨site, -, hnone, -⟩ | ⟨hcpu, -⟩
  · rw [hnone] at hv
    cases hv
  · exact some.inj (hcpu.symm.trans hv)

theorem OnTask.exec : Sound s' := by
  rcases h.effect hk with ⟨site, -, hnone, hidle⟩ | ⟨hcpu, hon⟩
  · exact .idle hnone hidle
  · exact .task hcpu ⟨_, hon⟩

end

/-- Where a task can be after an instruction of `t`. -/
structure Shift (s s' : Sys) (t : Nat) (i : Instr) : Prop where
  current : ∀ u, s'.current = some u → s.current = some u
  ready : ∀ u ∈ s'.readyQueue, u ∈ s.readyQueue ∨ u = t ∧ i = .yield ∨ u = s.ntasks ∨ ∃ q, i = .popWake q ∧ (q, u) ∈ s.waits
  timers : ∀ u ∈ s'.timers.map (·.task), u ∈ s.timers.map (·.task) ∨ u = t ∧ ∃ expire, i = .addTimer expire
  waits : ∀ q u, (q, u) ∈ s'.waits → (q, u) ∈ s.waits ∨ u = t ∧ i = .enqueue q

theorem Shift.of_eq (hcur : s'.current = s.current) (hready : s'.readyQueue = s.readyQueue) (htimers : s'.timers = s.timers)
    (hwaits : s'.waits = s.waits) : Shift s s' t i := by
  constructor
  · intro u hu
    rwa [hcur] at hu
  · intro u hu
    rw [hready] at hu
    exact .inl hu
  · intro u hu
    rw [htimers] at hu
    exact .inl hu
  · intro q u hu
    rw [hwaits] at hu
    exact .inl hu

/-- Where an instruction of the task on the processor can take a task. -/
theorem OnTask.shift (h : OnTask s t φ) (hk : s.Takes t i rest s') : Shift s s' t i := by
  have hs := hk.effect
  cases hq : i.isQuiet with
  | true =>
    have hstill := (h.takesQuiet hk hq).still
    exact .of_eq hstill.current hstill.readyQueue hstill.timers hstill.waits
  | false =>
    cases i with
    | yield =>
      cases hs
      refine ⟨?_, ?_, fun _ => .inl, fun _ _ => .inl⟩
      · intro u hu
        cases hu
      · intro u hu
        exact (mem_append.mp hu).imp id fun hu => .inl ⟨by simpa using hu, rfl⟩
    | enqueue q =>
      cases hs
      refine ⟨fun _ => id, fun _ => .inl, fun _ => .inl, ?_⟩
      intro q' u hu
      refine (mem_append.mp hu).imp id fun hu => ?_
      obtain ⟨rfl, rfl⟩ : q' = q ∧ u = t := by simpa using hu
      exact ⟨rfl, rfl⟩
    | addTimer expire =>
      cases hs
      refine ⟨fun _ => id, fun _ => .inl, ?_, fun _ _ => .inl⟩
      intro u hu
      exact (mem_insertTimer hu).imp id fun hu => ⟨hu, expire, rfl⟩
    | block =>
      cases hs
      refine ⟨?_, fun _ => .inl, fun _ => .inl, fun _ _ => .inl⟩
      intro u hu
      cases hu
    | schedule site =>
      cases hs
      exact .of_eq rfl rfl rfl rfl
    | popWake q =>
      rcases popWake_some hs with rfl | ⟨w, hfront, rfl⟩
      · exact .of_eq rfl rfl rfl rfl
      · refine ⟨fun _ => id, ?_, fun _ => .inl, fun _ _ hu => .inl (mem_of_mem_erase hu)⟩
        intro u hu
        refine (mem_append.mp hu).imp id fun hu => .inr (.inr ⟨q, rfl, ?_⟩)
        obtain rfl : u = w := by simpa using hu
        exact mem_of_front hfront
    | fork =>
      obtain ⟨-, ⟨⟩⟩ := ite_none_right_eq_some.mp hs
      refine ⟨fun _ => id, ?_, fun _ => .inl, fun _ _ => .inl⟩
      intro u hu
      exact (mem_append.mp hu).imp id fun hu => .inr (.inl (mem_singleton.mp hu))
    | spawn =>
      cases hs
      refine ⟨fun _ => id, ?_, fun _ => .inl, fun _ _ => .inl⟩
      intro u hu
      exact (mem_append.mp hu).imp id fun hu => .inr (.inl (mem_singleton.mp hu))
    | exit code =>
      obtain ⟨-, s₁, tids, rfl, -, rfl⟩ := exit_some hs
      refine ⟨?_, fun _ => .inl, fun _ => .inl, fun _ _ => .inl⟩
      intro u hu
      cases hu
    | removeReady v =>
      cases hs
      exact ⟨fun _ => id, fun _ hu => .inl (mem_of_mem_erase hu), fun _ => .inl, fun _ _ => .inl⟩
    | removeTimer v =>
      cases hs
      exact ⟨fun _ => id, fun _ => .inl, fun _ hu => .inl (map_subset _ filter_sublist.subset hu), fun _ _ => .inl⟩
    | takeRes v =>
      obtain ⟨tids, rfl⟩ := takeRes_some hs
      exact .of_eq rfl rfl rfl rfl
    | fetch | switchTo _ => cases hs
    | _ => cases hq

theorem OnIdle.keeps (h : OnIdle s) (hc : s.cpu = none) (hk : Keeps s s') (hturn : IdleAt (s'.flow none) s'.current) : OnIdle s' where
  turn := hturn
  rest u hu := (h.rest u (by rw [← hk.ntasks]; exact hu)).keeps hk (by simp [hc])
  fresh u hu := by rw [hk.places]; exact h.fresh u (by rw [← hk.ntasks]; exact hu)

/-- What `run_tasks` can do with its next instruction. -/
inductive IdleMove (s s' : Sys) : Prop where
  | still (hs : Still s s') (turn : IdleAt (s'.flow none) s'.current)
  | fetch (t : Nat) (rest : List Nat) (ready : s.readyQueue = t :: rest) (none : s.current = none)
    (hs : s' = { s.setTask t (fun b => { b with status := .running }) with
      readyQueue := rest
      current := some t
      flow := update s.flow .none
        ⟨[.release .taskManager, .borrow (.task t), .release (.task t), .switchTo t], [.taskManager], 0⟩ })
  | switch (t : Nat) (current : s.current = some t)
    (hs : s' = { s with cpu := some t, flow := update s.flow none ⟨[], [], 0⟩ })

section

variable (h : OnIdle s) (hc : s.cpu = none) (hs : s.execNext = some s')
include h hc hs

theorem OnIdle.move : IdleMove s s' := by
  have hturn := h.turn
  generalize hf : s.flow none = f at hturn
  generalize hcur : s.current = c at hturn
  have hpop : ∀ rest, (s.pop rest).cpu = none := fun _ => hc
  simp only [execNext, hc, hf, effect, hpop] at hs
  cases hturn with
  | loop => cases hs
  | start =>
    obtain ⟨-, ⟨⟩⟩ := ite_none_left_eq_some.mp hs
    refine .still ((Still.onFlow _).trans (.hold _)) ?_
    simpa [hold, onFlow, hc, hf, hcur] using IdleAt.fetch
  | none =>
    cases hs
    refine .still ((Still.onFlow _).trans (.letGo _)) ?_
    simpa [letGo, onFlow, hc, hf, hcur] using IdleAt.loop
  | fetched t =>
    cases hs
    refine .still ((Still.onFlow _).trans (.letGo _)) ?_
    simpa [letGo, onFlow, hc, hf, hcur] using IdleAt.access t
  | access t =>
    obtain ⟨-, ⟨⟩⟩ := ite_none_left_eq_some.mp hs
    refine .still ((Still.onFlow _).trans (.hold _)) ?_
    simpa [hold, onFlow, hc, hf, hcur] using IdleAt.accessed t
  | accessed t =>
    cases hs
    refine .still ((Still.onFlow _).trans (.letGo _)) ?_
    simpa [letGo, onFlow, hc, hf, hcur] using IdleAt.switch t
  | switch t =>
    cases hs
    exact .switch t hcur (by simp [onFlow, hc, hf])
  | fetch =>
    cases hs
    unfold fetch
    split
    · refine .still ((Still.onFlow _).trans (.onFlow _)) ?_
      simpa [push, onFlow, hc, hf, hcur] using IdleAt.none
    · rename_i t rest hready
      exact .fetch t rest hready hcur (by simp [push, onFlow, setTask, hc, hf])

/-- `run_tasks` switches to the task that is current. -/
theorem OnIdle.runs (hcpu : s'.cpu = some t) :
    s.current = some t ∧ s' = { s with cpu := some t, flow := update s.flow none ⟨[], [], 0⟩ } := by
  rcases h.move hc hs with ⟨hstill, -⟩ | ⟨u, rest, -, -, rfl⟩ | ⟨u, hcur, rfl⟩
  · simp [hstill.cpu, hc] at hcpu
  · simp [setTask, hc] at hcpu
  · obtain rfl : u = t := some.inj hcpu
    exact ⟨hcur, rfl⟩

theorem OnIdle.exec : Sound s' := by
  rcases h.move hc hs with ⟨hstill, hturn⟩ | ⟨t, rest, hready, hcur, rfl⟩ | ⟨t, hcur, rfl⟩
  · exact .idle (hstill.cpu.trans hc) (h.keeps hc hstill.keeps hturn)
  · have hpl : ∀ u, places { s with readyQueue := rest, current := some t } u = s.places u := by
      intro u
      simp only [places, hready, hcur, toList_none, toList_some, count_cons, count_nil]
      omega
    refine .idle hc ⟨?_, ?_, ?_⟩
    · simpa using IdleAt.fetched t
    · intro u hu
      constructor
      · simpa using (h.rest u hu).flow
      · have hplace := (h.rest u hu).place
        rw [← hpl u, ← res_setStatus (t := t) .running u] at hplace
        exact hplace
    · intro u hu
      rw [← h.fresh u hu]
      exact hpl u
  · have hpos : 1 ≤ s.places t := by
      simp only [places, hcur, toList_some, count_singleton, beq_self_eq_true, if_true]
      omega
    have hlt : t < s.ntasks := by
      by_contra hge
      have := h.fresh t (by omega)
      omega
    refine ⟨.run, hlt, by simp, ?_, ⟨hcur, ?_⟩, ?_, h.fresh⟩
    · simpa using (h.rest t hlt).flow.path
    · rcases (h.rest t hlt).place with h1 | h0
      · exact h1
      · omega
    · intro u hu _
      have hr := h.rest u hu
      exact ⟨by simpa using hr.flow, hr.place⟩

end

/-! ## Interrupts -/

/-- An interrupt handler wakes tasks and touches nothing else of theirs. -/
structure Wakes (s s' : Sys) : Prop extends Keeps s s' where
  flows : s'.flow = s.flow
  waits : s'.waits ⊆ s.waits
  timers : s'.timers ⊆ s.timers
  status : ∀ u, ∃ st, s'.task u = { s.task u with status := st }
  proc : s'.proc = s.proc
  nprocs : s'.nprocs = s.nprocs
  pid2pcb : s'.pid2pcb = s.pid2pcb

namespace Wakes

theorem trans (h : Wakes s s') (h' : Wakes s' s₂) : Wakes s s₂ where
  toKeeps := h.toKeeps.trans h'.toKeeps
  flows := h'.flows.trans h.flows
  waits := Subset.trans h'.waits h.waits
  timers := Subset.trans h'.timers h.timers
  status u := by
    obtain ⟨st, h₁⟩ := h.status u
    obtain ⟨st', h₂⟩ := h'.status u
    exact ⟨st', by rw [h₂, h₁]⟩
  proc := h'.proc.trans h.proc
  nprocs := h'.nprocs.trans h.nprocs
  pid2pcb := h'.pid2pcb.trans h.pid2pcb

theorem refl : Wakes s s :=
  ⟨.refl, rfl, Subset.refl _, Subset.refl _, fun u => ⟨(s.task u).status, rfl⟩, rfl, rfl, rfl⟩

theorem wakeup_status (w u : Nat) : ∃ st, (s.wakeup w).task u = { s.task u with status := st } := by
  simp only [wakeup, setTask, update_apply]
  split
  · subst u
    exact ⟨_, rfl⟩
  · exact ⟨_, rfl⟩

theorem timer {x : TimerCondVar} :
    Wakes { s with timers := x :: l } { s.wakeup x.task with timers := l } := by
  refine ⟨⟨rfl, rfl, rfl, ?_, fun u => res_setStatus _ u, fun _ _ => rfl⟩, rfl, Subset.refl _,
    subset_cons_self _ _, wakeup_status x.task, rfl, rfl, rfl⟩
  intro u
  simp only [places, wakeup, setTask, count_append, map_cons, count_cons, count_nil]
  omega

theorem checkTimerFrom {now : Nat} (hs : checkTimerFrom now l s = some s') :
    Wakes { s with timers := l } s' := by
  induction l generalizing s with
  | nil =>
    cases hs
    exact .refl
  | cons x l ih =>
    unfold checkTimerFrom at hs
    split at hs
    · obtain ⟨-, hs⟩ := ite_none_left_eq_some.mp hs
      exact timer.trans (ih hs)
    · cases hs
      exact .refl

theorem checkTimer {now : Nat} (hs : s.checkTimer now = some s') : Wakes s s' := by
  obtain ⟨-, hs⟩ := ite_none_left_eq_some.mp hs
  exact checkTimerFrom hs

theorem popWake (h : (q, w) ∈ s.waits) : Wakes s (wakeup { s with waits := s.waits.erase (q, w) } w) :=
  ⟨⟨rfl, rfl, rfl, places_popWake h, fun u => res_setStatus _ u, fun _ _ => rfl⟩, rfl, erase_subset,
    Subset.refl _, wakeup_status w, rfl, rfl, rfl⟩

theorem signalIrq (hs : s.signalIrq q = some s') : Wakes s s' := by
  obtain ⟨-, hs⟩ := ite_none_left_eq_some.mp hs
  split at hs
  · cases hs
    exact .refl
  · obtain ⟨-, ⟨⟩⟩ := ite_none_left_eq_some.mp hs
    exact popWake (mem_of_front ‹_›)

/-- Bytes come into the buffer of the UART. -/
theorem receive (n : Nat) : Wakes s { s with uart := n } :=
  ⟨⟨rfl, rfl, rfl, fun _ => rfl, fun _ => rfl, fun _ _ => rfl⟩, rfl, Subset.refl _, Subset.refl _,
    fun u => ⟨(s.task u).status, rfl⟩, rfl, rfl, rfl⟩

theorem irqHandler {d : Device} (hs : s.irqHandler d = some s') : Wakes s s' := by
  cases d with
  | uart bytes =>
    obtain ⟨-, hs⟩ := ite_none_left_eq_some.mp hs
    split at hs
    · cases hs
      exact .refl
    · exact (receive _).trans (signalIrq hs)
  | disk token =>
    obtain ⟨-, hs⟩ := ite_none_left_eq_some.mp hs
    exact signalIrq hs

theorem sound (h : Wakes s s') (hs : Sound s) : Sound s' := by
  cases hc : s.cpu with
  | some t =>
    obtain ⟨φ, hon⟩ := hs.on hc
    refine .task (h.cpu.trans hc) ⟨φ, hon.keeps hc h.toKeeps ?_⟩
    rw [point, h.flows]
    exact hon.path
  | none =>
    refine .idle (h.cpu.trans hc) ((hs.off hc).keeps hc h.toKeeps ?_)
    rw [h.flows, h.current]
    exact (hs.off hc).turn

end Wakes

/-! ## Every step -/

theorem inUser_some (h : s.inUser = some t) : s.cpu = some t ∧ (s.flow (some t)).code = [] := by
  unfold inUser at h
  split at h
  · rename_i u hc
    split at h
    · cases h
      exact ⟨hc, ‹_›⟩
    · cases h
  · cases h

theorem Sound.user (hs : Sound s) (hu : s.inUser = some t) :
    s.cpu = some t ∧ s.flow (some t) = ⟨[], [], 0⟩ ∧ OnTask s t .run := by
  obtain ⟨hc, hcode⟩ := inUser_some hu
  obtain ⟨φ, hon⟩ := hs.on hc
  have hpath := hon.path
  rw [hcode, after_nil] at hpath
  injection hpath with hp
  injection hp with hφ harcs hheld
  subst hφ
  refine ⟨hc, ?_, hon⟩
  rcases hfl : s.flow (some t) with ⟨code, held, arcs⟩
  rw [hfl] at hcode harcs hheld
  rw [show code = [] from hcode, show held = [] from hheld, show arcs = 0 from harcs]

variable {code : List Instr}

/-- A task in user mode traps and begins a path. -/
theorem Sound.trap (hs : Sound s) (hu : s.inUser = some t) (hk : Wakes s s')
    (hpath : after ⟨.run, 0, []⟩ code = some ⟨.run, 0, []⟩) : Sound (s'.push code) := by
  obtain ⟨hc, hfl, hon⟩ := hs.user hu
  have hc' : s'.cpu = some t := hk.cpu.trans hc
  have hon' : OnTask s' t .run := hon.keeps hc hk.toKeeps (by rw [point, hk.flows]; exact hon.path)
  refine .task hc' ⟨.run, hon'.keeps hc' (Still.onFlow _).keeps ?_⟩
  simpa [point, push, onFlow, hc', hk.flows, hfl] using hpath

theorem after_trapEnd (sig : Signals) (h : after ⟨.run, 0, []⟩ code = some ⟨.run, 0, []⟩) :
    Point.after ⟨.run, 0, []⟩ (code ++ [.trapEnd sig]) = some ⟨.run, 0, []⟩ := by
  simp [Point.after_append, h, Point.after_cons, Point.step, Point.next, Instr.fits, ofTimer_nil]

/-- What the processor does about an event before the trapped task or `run_tasks` goes on. -/
def handle (s : Sys) : KernelEvent → Option Sys
  | .timer now _ => s.checkTimer now
  | .device d _ => s.irqHandler d
  | .call _ _ _ => some { s with intr := { s.intr with sie := true } }
  | .fault _ | .loop | .exec => some s

/-- The path that begins with a trap; an interrupt in the kernel begins none. -/
inductive Entry (s : Sys) : List Instr → Prop where
  | kernel : Entry s []
  | loop (hc : s.cpu = none) (hcode : (s.flow none).code = []) : Entry s [.borrow .taskManager, .fetch]
  | call {t : Nat} (hu : s.inUser = some t) (c : Call) (now : Nat) (sig : Signals) :
    Entry s (c.path t (s.task t).proc now ++ [.trapEnd sig])
  | yield {t : Nat} (hu : s.inUser = some t) (sig : Signals) : Entry s (suspendCurrentAndRunNext t ++ [.trapEnd sig])
  | trap {t : Nat} (hu : s.inUser = some t) (sig : Signals) : Entry s [.trapEnd sig]

variable {e : KernelEvent}

/-- A step is an instruction of the flow on the processor, or a trap. -/
theorem step_cases (hs : s.step e = some s') :
    (e = .exec ∧ s.execNext = some s') ∨ ∃ s₁ code, s.handle e = some s₁ ∧ Entry s code ∧ s' = s₁.push code := by
  cases e with
  | exec => exact .inl ⟨rfl, hs⟩
  | loop =>
    simp only [step] at hs
    split at hs
    · cases hs
      exact .inr ⟨s, _, rfl, .loop ‹_› ‹_›, rfl⟩
    · cases hs
  | call c now sig =>
    simp only [step] at hs
    split at hs
    · cases hs
      exact .inr ⟨_, _, rfl, .call ‹_› c now sig, rfl⟩
    · cases hs
  | fault sig =>
    simp only [step] at hs
    split at hs
    · cases hs
      exact .inr ⟨s, _, rfl, .trap ‹_› sig, rfl⟩
    · cases hs
  | timer now sig =>
    simp only [step] at hs
    split at hs
    · obtain ⟨s₁, hcheck, rfl⟩ := map_eq_some_iff.mp hs
      exact .inr ⟨s₁, _, hcheck, .yield ‹_› sig, rfl⟩
    · obtain ⟨-, hs⟩ := ite_none_right_eq_some.mp hs
      exact .inr ⟨s', [], hs, .kernel, push_nil.symm⟩
  | device d sig =>
    simp only [step] at hs
    split at hs
    · obtain ⟨s₁, hirq, rfl⟩ := map_eq_some_iff.mp hs
      exact .inr ⟨s₁, _, hirq, .trap ‹_› sig, rfl⟩
    · obtain ⟨-, hs⟩ := ite_none_right_eq_some.mp hs
      exact .inr ⟨s', [], hs, .kernel, push_nil.symm⟩

theorem Wakes.handle (hs : s.handle e = some s') : Wakes s s' := by
  cases e with
  | timer now sig => exact .checkTimer hs
  | device d sig => exact .irqHandler hs
  | call c now sig =>
    cases hs
    exact ⟨⟨rfl, rfl, rfl, fun _ => rfl, fun _ => rfl, fun _ _ => rfl⟩, rfl, Subset.refl _, Subset.refl _,
      fun u => ⟨(s.task u).status, rfl⟩, rfl, rfl, rfl⟩
  | fault sig | loop | exec =>
    cases hs
    exact .refl

theorem Sound.entry (h : Sound s) (hk : Wakes s s') (he : Entry s code) : Sound (s'.push code) := by
  cases he with
  | kernel =>
    rw [push_nil]
    exact hk.sound h
  | loop hc hcode =>
    have hc' := hk.cpu.trans hc
    have h' := (hk.sound h).off hc'
    refine .idle hc' (h'.keeps hc' (Still.onFlow _).keeps ?_)
    rw [← hk.flows] at hcode
    have hturn := h'.turn
    generalize hf : s'.flow none = f at hturn hcode
    generalize hcur : s'.current = c at hturn
    cases hturn with
    | loop => simpa [push, onFlow, hc', hf, hcur] using IdleAt.start
    | _ => cases hcode
  | call hu c now sig => exact h.trap hu hk (after_trapEnd sig (after_call _ _ _ c))
  | yield hu sig => exact h.trap hu hk (after_trapEnd sig (after_suspend _))
  | trap hu sig => exact h.trap hu hk (@after_trapEnd [] sig rfl)

/-- A trap comes where nobody is exiting, or nothing is begun. -/
theorem Sound.entry_cases (h : Sound s) (hk : Wakes s s') (he : Entry s code) :
    code = [] ∨ ∀ t, s'.cpu = some t → s'.places t ≠ 0 := by
  have huser : ∀ v, s.inUser = some v → ∀ t, s'.cpu = some t → s'.places t ≠ 0 := by
    intro v hu t hc hpl
    obtain ⟨hv, -, hon⟩ := h.user hu
    obtain rfl : v = t := some.inj (hv.symm.trans (hk.cpu ▸ hc))
    rw [hk.places] at hpl
    have := hon.place.2
    omega
  cases he with
  | kernel => exact .inl rfl
  | loop hc _ =>
    refine .inr fun t hcpu => ?_
    rw [hk.cpu, hc] at hcpu
    cases hcpu
  | call hu | yield hu | trap hu => exact .inr (huser _ hu)

/-- What a step can be: an instruction of a task, a turn of `run_tasks`, or a trap. -/
theorem Sound.cases_step {P : Prop} (h : Sound s) (hs : s.step e = some s')
    (htask : ∀ {t φ i rest}, e = .exec → OnTask s t φ → s.Takes t i rest s' → P)
    (hidle : OnIdle s → s.cpu = none → s.execNext = some s' → P)
    (htrap : ∀ {s₁ code}, s.handle e = some s₁ → Entry s code → s' = s₁.push code → P) : P := by
  rcases step_cases hs with ⟨rfl, hs⟩ | ⟨s₁, code, hhandle, hentry, rfl⟩
  · cases hc : s.cpu with
    | some t =>
      obtain ⟨φ, hon⟩ := h.on hc
      obtain ⟨i, rest, hk⟩ := execNext_task hc hs
      exact htask rfl hon hk
    | none => exact hidle (h.off hc) hc hs
  · exact htrap hhandle hentry rfl

theorem Sound.step (h : Sound s) (hs : s.step e = some s') : Sound s' := by
  apply h.cases_step hs
  · exact fun _ hon hk => hon.exec hk
  · exact fun hon hc hs => hon.exec hc hs
  · rintro s₁ code hhandle hentry rfl
    exact h.entry (.handle hhandle) hentry

theorem sound_boot (kind : Queue → MutexKind) (count : Queue → Int) : Sound (boot kind count) := by
  refine .idle rfl ⟨.loop, ?_, ?_⟩
  · intro u hu
    obtain rfl : u = 0 := Nat.lt_one_iff.mp hu
    exact ⟨⟨by simp [boot, Point.after_cons, Point.step, Point.next, Instr.fits, ofTimer_nil], by simp [boot]⟩, .inl rfl⟩
  · intro u hu
    have hne : 0 ≠ u := by
      have : 1 ≤ u := hu
      omega
    simp [places, boot, hne]

theorem sound_reach (h : kernel.Reach s) : Sound s := by
  refine h.inv Sound ?_ fun s e s' hs hstep => hs.step hstep
  rintro s ⟨kind, count, rfl⟩
  exact sound_boot kind count

end Sys

end TCore.Kernel
