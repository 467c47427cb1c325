/-
  TCore.Kernel.Tables — the thread tables of the processes, and how long a kernel stack lives.

  A kernel stack goes with the last reference to the task's control block (`strongTask`). The
  table of the process has a thread from its creation to `sys_waittid`, and no other process has
  it (`Tables`). So the table keeps the stack while `exit_current_and_run_next` still runs on it,
  for a thread other than the main thread. For the main thread it does not: the process clears
  its table before the last `schedule`, and what follows runs on a stack that is gone
  (`kernel_stack_kept_iff`, `main_thread_loses_stack`).

  `Exits` is what the rest of the path of an exiting task promises: `takeRes` for every thread
  that still has its resources, before the table is cleared.
-/

import TCore.Kernel.Sound

namespace TCore.Kernel

open TCore.Lib
open Function (update update_apply)
open List Option Point Sys

/-- `x` comes in the list before any `y` does. -/
def Before {α : Type} (x y : α) : List α → Prop
  | [] => True
  | z :: l => z = x ∨ z ≠ y ∧ Before x y l

section Before

variable {α : Type} {x y z : α} {l l' : List α}

theorem Before.tail (h : Before x y (z :: l)) (hz : z ≠ x) : Before x y l := (h.resolve_left hz).2

theorem Before.not_head (hne : x ≠ y) : ¬ Before x y (y :: l) := by
  rintro (h | ⟨h, -⟩)
  · exact hne h.symm
  · exact h rfl

theorem Before.append (h : Before x y l) (h' : x ∈ l ∨ Before x y l') : Before x y (l ++ l') := by
  induction l with
  | nil => simpa using h'
  | cons z l ih =>
    rcases h with rfl | ⟨hz, h⟩
    · exact .inl rfl
    · by_cases hx : z = x
      · exact .inl hx
      · exact .inr ⟨hz, ih h (h'.imp_left fun hm => (mem_cons.mp hm).resolve_left (Ne.symm hx))⟩

theorem Before.of_not_mem (h : y ∉ l) : Before x y l := by
  induction l with
  | nil => trivial
  | cons z l ih =>
    rw [mem_cons, not_or] at h
    exact .inr ⟨Ne.symm h.1, ih h.2⟩

end Before

variable {i : Instr}

/-- What is left for a task that has exited. -/
theorem Point.next_gone {d : List Nat} {a : Nat} {H : List Cell} {p' : Point}
    (hn : next ⟨.gone d, a, H⟩ i = some p') :
    (∃ c, i = .borrow c) ∨ (∃ c, i = .release c) ∨ i = .dropProcess ∨ i = .schedule .exit ∨ i = .leavePid ∨
      i = .becomeZombie ∨ i = .clearTasks ∨ (∃ u, i = .removeReady u) ∨ (∃ u, i = .removeTimer u) ∨ ∃ u, i = .takeRes u := by
  cases i with
  | schedule site => cases site <;> simp [next] at hn ⊢
  | _ => simp [next, inCell] at hn ⊢

/-- The instructions that change the thread table of a process, or the thread ids in use. -/
def Instr.changesTable : Instr → Bool
  | .fork | .spawn | .reap _ | .exit _ | .takeRes _ | .clearTasks => true
  | _ => false

/-- The instructions that leave every flow as it is. -/
def Instr.keepsFlows : Instr → Bool
  | .yield | .enqueue _ | .addTimer _ | .block | .schedule _ | .popWake _ | .createEventfd _ _ _ | .reap _ | .waitpid _ | .exec
  | .leavePid | .becomeZombie | .removeReady _ | .removeTimer _ | .takeRes _ | .clearTasks | .trapReturn => true
  | _ => false

/-- The instructions that change what processes know of each other. -/
def Instr.changesProcs : Instr → Bool
  | .fork | .spawn | .waitpid _ | .reap _ | .exit _ | .leavePid | .becomeZombie | .takeRes _ | .clearTasks => true
  | _ => false

namespace Sys

variable {s s' : Sys} {t u : Nat} {φ : Phase} {rest : List Instr}

/-! ## The invariant -/

structure Tables (s : Sys) : Prop where
  procs : ∀ u, u < s.ntasks → (s.task u).proc < s.nprocs
  listed : ∀ u, u < s.ntasks → (s.task u).res = true →
    (s.proc (s.task u).proc).tasks[(s.task u).tid]? = some (some u)
  entry : ∀ p i u, p < s.nprocs → (s.proc p).tasks[i]? = some (some u) →
    u < s.ntasks ∧ (s.task u).proc = p ∧ (s.task u).tid = i
  exited : ∀ u, u < s.ntasks → (s.task u).exitCode.isSome = true → (s.task u).res = false
  inUse : ∀ u, u < s.ntasks → (s.task u).res = true →
    (s.task u).tid < (s.proc (s.task u).proc).tids.current ∧ (s.task u).tid ∉ (s.proc (s.task u).proc).tids.recycled
  free : ∀ p, p < s.nprocs → (s.proc p).tids.recycled.Nodup ∧ ∀ id ∈ (s.proc p).tids.recycled, id < (s.proc p).tids.current

/-- What the thread tables say is the same. -/
structure SameTables (s s' : Sys) : Prop where
  ntasks : s'.ntasks = s.ntasks
  nprocs : s'.nprocs = s.nprocs
  proc : ∀ u, (s'.task u).proc = (s.task u).proc
  tid : ∀ u, (s'.task u).tid = (s.task u).tid
  res : ∀ u, (s'.task u).res = (s.task u).res
  exitCode : ∀ u, (s'.task u).exitCode = (s.task u).exitCode
  tasks : ∀ p, (s'.proc p).tasks = (s.proc p).tasks
  tids : ∀ p, (s'.proc p).tids = (s.proc p).tids

theorem Tables.same (h : Tables s) (hs : SameTables s s') : Tables s' := by
  constructor
  · simpa only [hs.ntasks, hs.nprocs, hs.proc] using h.procs
  · simpa only [hs.ntasks, hs.proc, hs.tid, hs.res, hs.tasks] using h.listed
  · simpa only [hs.ntasks, hs.nprocs, hs.proc, hs.tid, hs.tasks] using h.entry
  · simpa only [hs.ntasks, hs.res, hs.exitCode] using h.exited
  · simpa only [hs.ntasks, hs.proc, hs.tid, hs.res, hs.tids] using h.inUse
  · simpa only [hs.nprocs, hs.tids] using h.free

namespace SameTables

theorem trans {s₂ : Sys} (h : SameTables s s') (h' : SameTables s' s₂) : SameTables s s₂ where
  ntasks := h'.ntasks.trans h.ntasks
  nprocs := h'.nprocs.trans h.nprocs
  proc u := (h'.proc u).trans (h.proc u)
  tid u := (h'.tid u).trans (h.tid u)
  res u := (h'.res u).trans (h.res u)
  exitCode u := (h'.exitCode u).trans (h.exitCode u)
  tasks p := (h'.tasks p).trans (h.tasks p)
  tids p := (h'.tids p).trans (h.tids p)

/-- A change of a process outside its thread table. -/
theorem setProc (p : Nat) (f : ProcessControlBlock → ProcessControlBlock) (htasks : ∀ b, (f b).tasks = b.tasks)
    (htids : ∀ b, (f b).tids = b.tids) : SameTables s (s.setProc p f) := by
  constructor <;> simp only [Sys.setProc, update_apply] <;> grind

end SameTables

/-- Nor does anything else change that processes know of each other. -/
structure SameProcs (s s' : Sys) : Prop extends SameTables s s' where
  isZombie : ∀ p, (s'.proc p).isZombie = (s.proc p).isZombie
  children : ∀ p, (s'.proc p).children = (s.proc p).children
  pid2pcb : s'.pid2pcb = s.pid2pcb

namespace SameProcs

theorem trans {s₂ : Sys} (h : SameProcs s s') (h' : SameProcs s' s₂) : SameProcs s s₂ where
  toSameTables := h.toSameTables.trans h'.toSameTables
  isZombie p := (h'.isZombie p).trans (h.isZombie p)
  children p := (h'.children p).trans (h.children p)
  pid2pcb := h'.pid2pcb.trans h.pid2pcb

theorem of_eq (hn : s'.ntasks = s.ntasks) (hp : s'.nprocs = s.nprocs) (hpid : s'.pid2pcb = s.pid2pcb)
    (htask : s'.task = s.task) (hproc : s'.proc = s.proc) : SameProcs s s' := by
  refine ⟨⟨hn, hp, ?_, ?_, ?_, ?_, ?_, ?_⟩, ?_, ?_, hpid⟩ <;> simp [htask, hproc]

theorem refl : SameProcs s s := of_eq rfl rfl rfl rfl rfl

theorem onFlow (f : Flow → Flow) : SameProcs s (s.onFlow f) := of_eq rfl rfl rfl rfl rfl

theorem pop (rest : List Instr) : SameProcs s (s.pop rest) := onFlow _

/-- Only the status of tasks changes. -/
theorem of_status (hn : s'.ntasks = s.ntasks) (hp : s'.nprocs = s.nprocs) (hpid : s'.pid2pcb = s.pid2pcb)
    (hproc : s'.proc = s.proc) (hst : ∀ u, ∃ st, s'.task u = { s.task u with status := st }) : SameProcs s s' := by
  refine ⟨⟨hn, hp, ?_, ?_, ?_, ?_, ?_, ?_⟩, ?_, ?_, hpid⟩
  case refine_5 | refine_6 | refine_7 | refine_8 => simp [hproc]
  all_goals
    intro u
    obtain ⟨st, hu⟩ := hst u
    rw [hu]

theorem of_wakes (h : Wakes s s') : SameProcs s s' := of_status h.ntasks h.nprocs h.pid2pcb h.proc h.status

theorem setStatus (st : TaskStatus) : SameProcs s (s.setTask t fun b => { b with status := st }) := by
  refine of_status rfl rfl rfl rfl ?_
  intro u
  simp only [setTask, update_apply]
  split
  · subst u
    exact ⟨st, rfl⟩
  · exact ⟨_, rfl⟩

theorem setEventfds (p : Nat) (f : List Nat → List Nat) :
    SameProcs s (s.setProc p fun b => { b with eventfds := f b.eventfds }) := by
  refine ⟨.setProc p _ (fun _ => rfl) fun _ => rfl, ?_, ?_, rfl⟩ <;> simp only [setProc, update_apply] <;> grind

end SameProcs

/-! ## Instructions that leave the tables alone -/

open SameProcs

theorem OnTask.sameProcs (h : OnTask s t φ) (hk : s.Takes t i rest s') (hi : i.changesProcs = false) : SameProcs s s' := by
  refine (SameProcs.pop rest).trans ?_
  have hs := hk.effect
  cases hgo : i.goesOn with
  | true =>
    obtain ⟨code, rfl, -, -⟩ := h.goesOn hk hgo
    exact .of_eq rfl rfl rfl rfl rfl
  | false =>
    cases i with
    | fork | spawn | waitpid _ | reap _ | exit _ | leavePid | becomeZombie | takeRes _ | clearTasks => cases hi
    | borrow c =>
      obtain ⟨-, ⟨⟩⟩ := ite_none_left_eq_some.mp hs
      exact .of_eq rfl rfl rfl rfl rfl
    | yield =>
      cases hs
      exact (setStatus .ready).trans (.of_eq rfl rfl rfl rfl rfl)
    | block =>
      cases hs
      exact (setStatus .blocked).trans (.of_eq rfl rfl rfl rfl rfl)
    | popWake q =>
      rcases popWake_some hs with rfl | ⟨w, hfront, rfl⟩
      · exact .refl
      · exact .of_wakes (.popWake (mem_of_front hfront))
    | createEventfd initval nonBlock semaphore =>
      cases hs
      exact (setEventfds _ fun l => l ++ [s.nevents]).trans (.of_eq rfl rfl rfl rfl rfl)
    | exec =>
      obtain ⟨-, ⟨⟩⟩ := ite_none_right_eq_some.mp hs
      exact .refl
    | release _ | upgrade | dropProcess | enqueue _ | addTimer _ | schedule _ | removeReady _ | removeTimer _ | trapReturn =>
      cases hs
      exact .of_eq rfl rfl rfl rfl rfl
    | fetch | switchTo _ => cases hs
    | _ => cases hgo

theorem OnTask.sameTables (h : OnTask s t φ) (hk : s.Takes t i rest s') (hi : i.changesTable = false) : SameTables s s' := by
  cases hp : i.changesProcs with
  | false => exact (h.sameProcs hk hp).toSameTables
  | true =>
    refine (SameProcs.pop rest).toSameTables.trans ?_
    have hs := hk.effect
    cases i with
    | waitpid pid =>
      rcases waitpid_some hs with rfl | ⟨c, rfl⟩
      · exact refl.toSameTables
      · exact .setProc _ _ (fun _ => rfl) fun _ => rfl
    | leavePid =>
      obtain ⟨-, ⟨⟩⟩ := ite_none_right_eq_some.mp hs
      exact ⟨rfl, rfl, fun _ => rfl, fun _ => rfl, fun _ => rfl, fun _ => rfl, fun _ => rfl, fun _ => rfl⟩
    | becomeZombie =>
      cases hs
      exact (SameTables.setProc 0 (fun b => { b with children := b.children ++ (s.proc (s.task t).proc).children })
        (fun _ => rfl) fun _ => rfl).trans (.setProc _ _ (fun _ => rfl) fun _ => rfl)
    | fork | spawn | reap _ | exit _ | takeRes _ | clearTasks => cases hi
    | _ => cases hp

theorem idleEffect_sameProcs (hs : s.idleEffect i = some s') : SameProcs s s' := by
  cases i with
  | borrow c =>
    obtain ⟨-, ⟨⟩⟩ := ite_none_left_eq_some.mp hs
    exact .of_eq rfl rfl rfl rfl rfl
  | release _ | switchTo _ =>
    cases hs
    exact .of_eq rfl rfl rfl rfl rfl
  | fetch =>
    cases hs
    unfold fetch
    split
    · exact .of_eq rfl rfl rfl rfl rfl
    · exact (setStatus .running).trans (.of_eq rfl rfl rfl rfl rfl)
  | _ => cases hs

theorem idle_sameProcs (hc : s.cpu = none) (hs : s.execNext = some s') : SameProcs s s' := by
  unfold execNext at hs
  split at hs
  · cases hs
  · rw [effect, show ∀ f, (s.onFlow f).cpu = none from fun _ => hc] at hs
    exact (SameProcs.onFlow _).trans (idleEffect_sameProcs hs)

/-- A step changes nothing about processes, or it is an instruction of a task. -/
theorem Sound.step_procs {e : KernelEvent} (h : Sound s) (hs : s.step e = some s') :
    SameProcs s s' ∨ ∃ t φ i rest, OnTask s t φ ∧ s.Takes t i rest s' := by
  apply h.cases_step hs
  · exact fun _ hon hk => .inr ⟨_, _, _, _, hon, hk⟩
  · exact fun _ hc hs => .inl (idle_sameProcs hc hs)
  · rintro s₁ code hhandle - rfl
    exact .inl ((of_wakes (.handle hhandle)).trans (.onFlow _))

/-! ## Instructions that change a table -/

theorem Tables.dropRes (h : Tables s) (hu : u < s.ntasks) (hres : (s.task u).res = true) (hs : s.dropRes u = some s') :
    Tables s' := by
  obtain ⟨tids, hdealloc, rfl⟩ := map_eq_some_iff.mp hs
  obtain ⟨⟨hlt, hnot⟩, ⟨⟩⟩ := ite_none_right_eq_some.mp hdealloc
  obtain ⟨hprocs, hlisted, hentry, hexited, hinUse, hfree⟩ := h
  constructor <;> simp only [setTask, setProc, update_apply] <;> grind

/-- The exit code of a thread without resources. -/
theorem Tables.setExitCode (h : Tables s) (hres : (s.task u).res = false) (code : Int) :
    Tables (s.setTask u fun b => { b with exitCode := some code }) := by
  obtain ⟨hprocs, hlisted, hentry, hexited, hinUse, hfree⟩ := h
  constructor <;> simp only [setTask, update_apply] <;> grind

variable {p : Nat}

/-- A thread table loses entries, none of them of a thread with resources. -/
theorem Tables.setTasks {tasks : List (Option Nat)} (h : Tables s)
    (hsub : ∀ (i u : Nat), tasks[i]? = some (some u) → (s.proc p).tasks[i]? = some (some u))
    (hkeep : ∀ u, u < s.ntasks → (s.task u).res = true → (s.task u).proc = p → tasks[(s.task u).tid]? = some (some u)) :
    Tables (s.setProc p fun b => { b with tasks := tasks }) := by
  obtain ⟨hprocs, hlisted, hentry, hexited, hinUse, hfree⟩ := h
  constructor <;> simp only [setProc, update_apply] <;> grind

theorem getElem?_insertTask (tasks : List (Option Nat)) (tid v i : Nat) :
    (insertTask tasks tid v)[i]? = if i = tid then some (some v) else (tasks ++ replicate (tid + 1 - tasks.length) none)[i]? := by
  unfold insertTask
  by_cases h : i = tid
  · subst h
    rw [if_pos rfl, getElem?_set_self]
    simp only [length_append, length_replicate]
    omega
  · rw [if_neg h, getElem?_set_ne (Ne.symm h)]

/-- The other entries stay as they were. -/
theorem insertTask_some (tasks : List (Option Nat)) (tid v i w : Nat) (hne : i ≠ tid) :
    (insertTask tasks tid v)[i]? = some (some w) ↔ tasks[i]? = some (some w) := by
  rw [getElem?_insertTask, if_neg hne, getElem?_append]
  split
  · rfl
  · rename_i hlen
    have hnone : tasks[i]? = none := getElem?_eq_none (by omega)
    rw [hnone, getElem?_replicate]
    split <;> simp

/-- A fresh thread id is not one in use, and stays in use after that. -/
theorem alloc_spec (a : RecycleAllocator) (hnodup : a.recycled.Nodup) (hlt : ∀ id ∈ a.recycled, id < a.current) :
    (a.alloc.1 < a.alloc.2.current ∧ a.alloc.1 ∉ a.alloc.2.recycled) ∧
      (∀ id, id < a.current → id ∉ a.recycled → id ≠ a.alloc.1 ∧ id < a.alloc.2.current ∧ id ∉ a.alloc.2.recycled) ∧
      a.alloc.2.recycled.Nodup ∧ ∀ id ∈ a.alloc.2.recycled, id < a.alloc.2.current := by
  unfold RecycleAllocator.alloc
  split
  · rename_i id rest hrec
    rw [hrec] at hnodup hlt ⊢
    obtain ⟨hid, hrest⟩ := nodup_cons.mp hnodup
    obtain ⟨hidlt, hrestlt⟩ := forall_mem_cons.mp hlt
    refine ⟨⟨hidlt, hid⟩, ?_, hrest, hrestlt⟩
    intro x hx hnot
    rw [mem_cons, not_or] at hnot
    exact ⟨hnot.1, hx, hnot.2⟩
  · rename_i hrec
    simp only [hrec]
    grind

theorem Tables.spawn (h : Tables s) (hp : p < s.nprocs) : Tables (s.spawn p) := by
  obtain ⟨hprocs, hlisted, hentry, hexited, hinUse, hfree⟩ := h
  obtain ⟨hnew, hold, hnodup, hlt⟩ := alloc_spec (s.proc p).tids (hfree p hp).1 (hfree p hp).2
  have hget := getElem?_insertTask (s.proc p).tasks (s.proc p).tids.alloc.1 s.ntasks
  have hsome := insertTask_some (s.proc p).tasks (s.proc p).tids.alloc.1 s.ntasks
  constructor <;> simp only [Sys.spawn, Sys.addTask, setProc, update_apply] <;> grind

theorem Tables.fork (h : Tables s) (hp : p < s.nprocs) (hs : s.fork p = some s') : Tables s' := by
  obtain ⟨-, ⟨⟩⟩ := ite_none_right_eq_some.mp hs
  obtain ⟨hprocs, hlisted, hentry, hexited, hinUse, hfree⟩ := h
  constructor <;> simp only [addTask, setProc, update_apply] <;> grind

/-- `inner.res = None` changes the resources of one thread and nothing else in the tables but the thread ids. -/
structure DropsRes (s s' : Sys) (u : Nat) : Prop where
  ntasks : s'.ntasks = s.ntasks
  nprocs : s'.nprocs = s.nprocs
  proc : ∀ v, (s'.task v).proc = (s.task v).proc
  tid : ∀ v, (s'.task v).tid = (s.task v).tid
  res : ∀ v, (s'.task v).res = if v = u then false else (s.task v).res
  tasks : ∀ p, (s'.proc p).tasks = (s.proc p).tasks

theorem takeRes_drops (hs : s.taskEffect t (.takeRes u) = some s') : DropsRes s s' u := by
  obtain ⟨tids, rfl⟩ := takeRes_some hs
  constructor <;> simp only [setTask, setProc, update_apply] <;> grind

/-! ## The path of an exiting task -/

structure Exits (s : Sys) (t : Nat) : Prop where
  own : ∀ u, .takeRes u ∈ (s.flow (some t)).code → u < s.ntasks ∧ (s.task u).proc = (s.task t).proc
  takes : ∀ u, u < s.ntasks → (s.task u).res = true → (s.task u).proc = (s.task t).proc →
    Before (.takeRes u) .clearTasks (s.flow (some t)).code
  main : .clearTasks ∈ (s.flow (some t)).code → (s.task t).tid = 0
  kept : (s.task t).tid = 0 ∧ (s.proc (s.task t).proc).tasks = [] ∨
    (s.proc (s.task t).proc).tasks[(s.task t).tid]? = some (some t)

theorem mem_exitProcess {threads : List Nat} : Instr.takeRes u ∈ exitProcess p threads ↔ u ∈ threads := by
  simp [exitProcess, exitThread, recycleThread]

/-- The threads of the table are taken care of before the table is cleared. -/
theorem before_exitProcess {threads : List Nat} (h : u ∈ threads) :
    Before (.takeRes u) .clearTasks (exitProcess p threads) := by
  have hmem : Instr.takeRes u ∈ threads.flatMap recycleThread := by simp [recycleThread, h]
  have hnot : Instr.clearTasks ∉ threads.flatMap recycleThread := by simp [recycleThread]
  unfold exitProcess
  rw [append_assoc, append_assoc]
  refine Before.append (.of_not_mem (by simp)) (.inr ?_)
  exact Before.append (.of_not_mem hnot) (.inl hmem)

/-- The task goes on, and no thread gets resources. -/
theorem Exits.pop (h : Exits s t) (hnt : s'.ntasks = s.ntasks) (hproc : ∀ u, (s'.task u).proc = (s.task u).proc)
    (htid : ∀ u, (s'.task u).tid = (s.task u).tid) (htasks : ∀ p, (s'.proc p).tasks = (s.proc p).tasks)
    (hres : ∀ u, (s'.task u).res = true → (s.task u).res = true ∧ i ≠ .takeRes u)
    (hcode : (s.flow (some t)).code = i :: rest) (hrest : (s'.flow (some t)).code = rest) : Exits s' t := by
  constructor
  · intro u hu
    rw [hnt, hproc, hproc]
    exact h.own u (by rw [hcode]; exact mem_cons_of_mem _ (hrest ▸ hu))
  · intro u hu hr hp
    rw [hnt] at hu
    rw [hproc, hproc] at hp
    have hbefore := h.takes u hu (hres u hr).1 hp
    rw [hcode] at hbefore
    rw [hrest]
    exact hbefore.tail (hres u hr).2
  · intro hmem
    rw [htid]
    exact h.main (by rw [hcode]; exact mem_cons_of_mem _ (hrest ▸ hmem))
  · rw [htid, hproc, htasks]
    exact h.kept

section

variable (h : Exits s t) (hcode : (s.flow (some t)).code = .clearTasks :: rest)
include h hcode

/-- When the table is cleared no thread of the process has resources any more. -/
theorem Exits.none_left (hu : u < s.ntasks)
    (hp : (s.task u).proc = (s.task t).proc) : (s.task u).res = false := by
  by_contra hres
  have hbefore := h.takes u hu (by simpa using hres) hp
  rw [hcode] at hbefore
  exact Before.not_head (by simp) hbefore

theorem Exits.clearTasks (hc : s.cpu = some t) :
    Exits ((s.pop rest).setProc (s.task t).proc fun b => { b with tasks := [] }) t := by
  have hrest : (((s.pop rest).setProc (s.task t).proc fun b => { b with tasks := [] }).flow (some t)).code = rest := by
    simp [setProc, onFlow, hc]
  constructor
  · intro u hu
    exact h.own u (by rw [hcode]; exact mem_cons_of_mem _ (hrest ▸ hu))
  · intro u hu hres hp
    have hnone := h.none_left hcode hu hp
    rw [show (s.task u).res = true from hres] at hnone
    cases hnone
  · intro _
    exact h.main (by simp [hcode])
  · exact .inl ⟨h.main (by simp [hcode]), by simp [setProc, onFlow]⟩

end

variable {code : Int}

theorem exit_drops (hc : s.cpu = some t) (hs : s.exit t code = some s') :
    DropsRes s s' t ∧ (s'.flow (some t)).code = if (s.task t).tid = 0 then
      exitProcess (s.task t).proc ((s.proc (s.task t).proc).tasks.filterMap id) else exitThread := by
  obtain ⟨-, s₁, tids, rfl, -, rfl⟩ := exit_some hs
  constructor
  · constructor <;> simp only [onFlow, setTask, setProc, update_apply] <;> grind
  · simp [onFlow, setTask, setProc, hc]

theorem Tables.exit (h : Tables s) (ht : t < s.ntasks) (hs : s.exit t code = some s') : Tables s' := by
  obtain ⟨hres, s₁, tids, hs₁, hdrop, rfl⟩ := exit_some hs
  have h0 : Tables { s with current := none } := h.same { (refl (s := s)).toSameTables with }
  have h1 := h0.dropRes ht hres hdrop
  have hres1 : (s₁.task t).res = false := by simp [hs₁, setTask, setProc]
  exact (h1.setExitCode hres1 code).same (SameProcs.onFlow _).toSameTables

theorem Exits.exit (h : Tables s) (ht : t < s.ntasks) (hc : s.cpu = some t) (hs : s.exit t code = some s') :
    Exits s' t := by
  have hres := (exit_some hs).1
  obtain ⟨hd, hcode⟩ := exit_drops hc hs
  have hp := h.procs t ht
  constructor
  · intro u hu
    rw [hd.ntasks, hd.proc, hd.proc]
    rw [hcode] at hu
    split at hu
    · rw [mem_exitProcess, mem_filterMap] at hu
      obtain ⟨x, hx, rfl⟩ := hu
      obtain ⟨i, hi⟩ := mem_iff_getElem?.mp hx
      have hentry := h.entry _ i u hp hi
      exact ⟨hentry.1, hentry.2.1⟩
    · simp [exitThread] at hu
  · intro u hu hru hpu
    rw [hd.ntasks] at hu
    rw [hd.proc, hd.proc] at hpu
    obtain ⟨-, hru⟩ : u ≠ t ∧ (s.task u).res = true := by simpa [hd.res] using hru
    rw [hcode]
    split
    · have hlisted := h.listed u hu hru
      rw [hpu] at hlisted
      exact before_exitProcess (mem_filterMap.mpr ⟨some u, mem_of_getElem? hlisted, rfl⟩)
    · exact .of_not_mem (by simp [exitThread])
  · intro hmem
    rw [hd.tid]
    rw [hcode] at hmem
    split at hmem
    · assumption
    · simp [exitThread] at hmem
  · rw [hd.tid, hd.proc, hd.tasks]
    exact .inr (h.listed t ht hres)

/-! ## Every step -/

structure Ledger (s : Sys) : Prop where
  tables : Tables s
  exits : ∀ t, s.cpu = some t → s.places t = 0 → Exits s t

theorem Tables.effect (h : Ledger s) (hon : OnTask s t φ) (hk : s.Takes t i rest s') : Tables s' := by
  obtain ⟨hc, hcode, hs⟩ := id hk
  have h0 : Tables (s.pop rest) := h.tables.same (SameProcs.pop rest).toSameTables
  have hp := h0.procs t hon.lt
  cases i with
  | fork => exact h0.fork hp hs
  | spawn =>
    cases hs
    exact h0.spawn hp
  | reap tid =>
    cases hs
    rcases (s.pop rest).reap_cases ((s.pop rest).task t).proc tid with heq | ⟨w, hw, hexit, heq⟩ <;> rw [heq]
    · exact h0
    · refine h0.setTasks ?_ ?_
      · intro j u hj
        rw [getElem?_set] at hj
        split at hj
        · split at hj <;> simp at hj
        · exact hj
      · intro u hu hres hpu
        have hlisted := h0.listed u hu hres
        rw [hpu] at hlisted
        rw [getElem?_set_ne ?_]
        · exact hlisted
        · -- The slot that is emptied belongs to a thread that has exited.
          rintro rfl
          obtain rfl : u = w := by simpa using hlisted.symm.trans hw
          rw [h0.exited u hu hexit] at hres
          cases hres
  | exit code => exact h0.exit hon.lt hs
  | takeRes u =>
    simp only [taskEffect] at hs
    split at hs
    · rename_i hres
      obtain rfl := hon.phase hk rfl
      have hu := ((h.exits t hc hon.place.2.1).own u (by simp [hcode])).1
      exact h0.dropRes hu hres hs
    · cases hs
      exact h0
  | clearTasks =>
    cases hs
    obtain rfl := hon.phase hk rfl
    refine h0.setTasks (by simp) ?_
    intro u hu hres hpu
    have hnone := (h.exits t hc hon.place.2.1).none_left hcode hu hpu
    rw [show (s.task u).res = true from hres] at hnone
    cases hnone
  | _ => exact h.tables.same (hon.sameTables hk rfl)

theorem At.gone (h : At s t φ) (hpl : s.places t = 0) : ∃ d, φ = .gone d := by
  cases φ with
  | gone d => exact ⟨d, rfl⟩
  | run | queued | parked => simp [At, hpl] at h

theorem taskEffect_flow (hi : i.keepsFlows = true) (hs : s.taskEffect t i = some s') :
    s'.flow = s.flow ∧ s'.ntasks = s.ntasks := by
  cases i with
  | popWake q => rcases popWake_some hs with rfl | ⟨w, -, rfl⟩ <;> exact ⟨rfl, rfl⟩
  | reap tid =>
    cases hs
    rcases s.reap_cases (s.task t).proc tid with heq | ⟨w, -, -, heq⟩ <;> simp [heq, setProc]
  | waitpid pid => rcases waitpid_some hs with rfl | ⟨c, rfl⟩ <;> exact ⟨rfl, rfl⟩
  | exec | leavePid =>
    obtain ⟨-, ⟨⟩⟩ := ite_none_right_eq_some.mp hs
    exact ⟨rfl, rfl⟩
  | takeRes u =>
    obtain ⟨tids, rfl⟩ := takeRes_some hs
    exact ⟨rfl, rfl⟩
  | yield | enqueue _ | addTimer _ | block | schedule _ | createEventfd _ _ _ | becomeZombie | removeReady _ | removeTimer _
  | clearTasks | trapReturn =>
    cases hs
    exact ⟨rfl, rfl⟩
  | _ => cases hi

/-- A task that has exited goes straight on. -/
theorem taskEffect_gone {d : List Nat} {a : Nat} {H : List Cell} {p' : Point} (hn : next ⟨.gone d, a, H⟩ i = some p')
    (hs : s.taskEffect t i = some s') : (s'.flow s.cpu).code = (s.flow s.cpu).code := by
  rcases next_gone hn with ⟨c, rfl⟩ | ⟨c, rfl⟩ | rfl | rfl | rfl | rfl | rfl | ⟨u, rfl⟩ | ⟨u, rfl⟩ | ⟨u, rfl⟩
  · obtain ⟨-, ⟨⟩⟩ := ite_none_left_eq_some.mp hs
    simp [hold, onFlow]
  · cases hs
    simp [letGo, onFlow]
  · cases hs
    simp [onFlow]
  all_goals rw [(taskEffect_flow rfl hs).1]

/-- A task that has exited has just done so, or goes straight on. -/
theorem OnTask.gone_cases (hon : OnTask s t φ) (hk : s.Takes t i rest s') (hcpu : s'.cpu = some t) (hpl : s'.places t = 0) :
    (∃ code, i = .exit code) ∨ (∃ d, φ = .gone d) ∧ (s'.flow (some t)).code = rest := by
  obtain ⟨p', hn, -⟩ := hon.next hk.code
  rcases hon.effect hk with ⟨site, -, hnone, -⟩ | ⟨-, hon'⟩
  · rw [hnone] at hcpu
    cases hcpu
  obtain ⟨d', hd'⟩ := hon'.place.gone hpl
  cases φ with
  | run | queued | parked =>
    cases i with
    | exit code => exact .inl ⟨code, rfl⟩
    | _ => simp [Phase.after, Point.next] at hd' hn
  | gone d =>
    refine .inr ⟨⟨d, rfl⟩, ?_⟩
    simpa [onFlow, hk.cpu] using taskEffect_gone hn hk.effect

theorem Exits.effect (h : Ledger s) (hon : OnTask s t φ) (hk : s.Takes t i rest s') (hcpu : s'.cpu = some t)
    (hpl : s'.places t = 0) : Exits s' t := by
  obtain ⟨hc, hcode, hs⟩ := id hk
  obtain ⟨p', hn, -⟩ := hon.next hcode
  have hexit : ∀ code, i = .exit code → Exits s' t := by
    rintro code rfl
    exact .exit (h.tables.same (SameProcs.onFlow _).toSameTables) hon.lt hc hs
  rcases hon.gone_cases hk hcpu hpl with ⟨code, hi⟩ | ⟨⟨d, rfl⟩, hrest⟩
  · exact hexit code hi
  · have hx := h.exits t hc hon.place.2.1
    cases hi : i.changesTable with
    | false =>
      have hsame := hon.sameTables hk hi
      refine hx.pop hsame.ntasks hsame.proc hsame.tid hsame.tasks ?_ hcode hrest
      intro u hr
      rw [hsame.res] at hr
      refine ⟨hr, ?_⟩
      rintro rfl
      cases hi
    | true =>
      cases i with
      | exit code => exact hexit code rfl
      | clearTasks =>
        cases hs
        exact hx.clearTasks hcode hc
      | takeRes u =>
        have hd := takeRes_drops hs
        refine hx.pop hd.ntasks hd.proc hd.tid hd.tasks ?_ hcode hrest
        intro v hr
        obtain ⟨hne, hr⟩ : v ≠ u ∧ ((s.pop rest).task v).res = true := by simpa [hd.res] using hr
        exact ⟨hr, by simpa using hne.symm⟩
      | fork | spawn | reap _ => simp [Point.next] at hn
      | _ => cases hi

/-- An interrupt handler does not touch the path of an exiting task. -/
theorem Exits.wakes (h : Exits s t) (hk : Wakes s s') : Exits s' t := by
  have hs := of_wakes hk
  constructor
  · simpa only [hs.ntasks, hs.proc, hk.flows] using h.own
  · simpa only [hs.ntasks, hs.proc, hs.res, hk.flows] using h.takes
  · simpa only [hs.tid, hk.flows] using h.main
  · simpa only [hs.tid, hs.proc, hs.tasks] using h.kept

theorem Ledger.step {e : KernelEvent} (h : Ledger s) (hsound : Sound s) (hs : s.step e = some s') : Ledger s' := by
  have hsound' := hsound.step hs
  refine ⟨?_, ?_⟩
  · rcases hsound.step_procs hs with hsame | ⟨t, φ, i, rest, hon, hk⟩
    · exact h.tables.same hsame.toSameTables
    · exact Tables.effect h hon hk
  · intro t hcpu hpl
    apply hsound.cases_step hs
    · intro v φ i rest _ hon hk
      obtain rfl := hon.stays hk hcpu
      exact Exits.effect h hon hk hcpu hpl
    · -- A task that gets the processor is current.
      intro hidle hc hs
      obtain ⟨hcur, rfl⟩ := hidle.runs hc hs hcpu
      simp [places, hcur] at hpl
    · rintro s₁ code hhandle hentry rfl
      have hk := Wakes.handle hhandle
      have hpl' : s.places t = 0 := by rw [← hk.places]; exact hpl
      have hx := (h.exits t (hk.cpu ▸ hcpu) hpl').wakes hk
      rcases hsound.entry_cases hk hentry with rfl | hpos
      · rw [push_nil]
        exact hx
      · exact absurd hpl (hpos t hcpu)

theorem ledger_boot (kind : Queue → MutexKind) (count : Queue → Int) : Ledger (boot kind count) := by
  refine ⟨?_, ?_⟩
  · constructor <;> simp only [boot] <;> grind
  · intro t hc
    cases hc

theorem ledger_reach (h : kernel.Reach s) : Ledger s := by
  refine h.inv_reach Ledger ?_ fun s e s' hreach hl hs => hl.step (sound_reach hreach) hs
  rintro s ⟨kind, count, rfl⟩
  exact ledger_boot kind count

/-! ## References -/

/-- A main thread that has left `PROCESSOR.current` and has cleared the thread table of its process. -/
def ClearedTasks (s : Sys) (t : Nat) : Prop :=
  s.places t = 0 ∧ (s.task t).tid = 0 ∧ (s.proc (s.task t).proc).tasks = []

theorem count_pos_of_listed {i : Nat} (hp : p < s.nprocs) (h : (s.proc p).tasks[i]? = some (some t)) : 0 < s.strongTask t := by
  have hmem : (s.proc p).tasks.count (some t) ∈ (range s.nprocs).map fun p => (s.proc p).tasks.count (some t) :=
    mem_map.mpr ⟨p, mem_range.mpr hp, rfl⟩
  have hpos := count_pos_iff.mpr (mem_of_getElem? h)
  have hle := le_sum_of_mem hmem
  unfold strongTask
  omega

theorem strongTask_of_cleared (h : Tables s) (hc : ClearedTasks s t) : s.strongTask t = 0 := by
  obtain ⟨hpl, -, htasks⟩ := hc
  unfold strongTask
  rw [hpl, Nat.zero_add, sum_eq_zero]
  intro n hn
  obtain ⟨p, hp, rfl⟩ := mem_map.mp hn
  rw [count_eq_zero]
  intro hmem
  obtain ⟨i, hi⟩ := mem_iff_getElem?.mp hmem
  obtain ⟨-, rfl, -⟩ := h.entry p i t (mem_range.mp hp) hi
  rw [htasks] at hi
  simp at hi

theorem Ledger.strong_iff (h : Ledger s) (hsound : Sound s) (hc : s.cpu = some t) : 0 < s.strongTask t ↔ ¬ ClearedTasks s t := by
  constructor
  · intro hpos hcl
    rw [strongTask_of_cleared h.tables hcl] at hpos
    cases hpos
  · intro hcl
    by_cases hpl : s.places t = 0
    · obtain ⟨φ, hon⟩ := hsound.on hc
      rcases (h.exits t hc hpl).kept with ⟨htid, htasks⟩ | hlisted
      · exact absurd ⟨hpl, htid, htasks⟩ hcl
      · exact count_pos_of_listed (h.tables.procs t hon.lt) hlisted
    · unfold strongTask
      omega

end Sys

/-- The control block of the task on the processor, and with it the kernel stack, is kept exactly until a main thread
    has cleared the thread table of its process. -/
theorem kernel_stack_kept_iff {s : Sys} {t : Nat} (h : kernel.Reach s) (hc : s.cpu = some t) :
    0 < s.strongTask t ↔ ¬ s.ClearedTasks t := (Sys.ledger_reach h).strong_iff (Sys.sound_reach h) hc

instance (s : Sys) (t : Nat) : Decidable (s.ClearedTasks t) :=
  inferInstanceAs (Decidable (s.places t = 0 ∧ (s.task t).tid = 0 ∧ (s.proc (s.task t).proc).tasks = []))

/-- A thread other than the main thread, before its last `schedule`. -/
theorem kernel_stack_kept_thread : ∃ s : Sys, kernel.Reach s ∧ s.cpu = some 1 ∧ (s.task 1).res = false ∧
    (s.flow (some 1)).code.length = 1 ∧ 0 < s.strongTask 1 := by
  have hrun : ∃ s ∈ kernel.run bootSpin
      (List.flatten [loopFor 7, callFor .threadCreate 9, callFor .yield 6, loopFor 7, callFor (.exit 0) 2]),
      s.cpu = some 1 ∧ (s.task 1).res = false ∧ (s.flow (some 1)).code.length = 1 ∧ ¬ s.ClearedTasks 1 := by decide +kernel
  obtain ⟨s, hreach, hcpu, hres, hcode, hcl⟩ := (boot_reach _ _).exists_run hrun
  exact ⟨s, hreach, hcpu, hres, hcode, (kernel_stack_kept_iff hreach hcpu).mpr hcl⟩

/-- A child process exits: its main thread still has three instructions to go when nothing refers to it any more. -/
theorem main_thread_loses_stack : ∃ s : Sys, kernel.Reach s ∧ s.cpu = some 1 ∧ (s.flow (some 1)).code.length = 3 ∧
    s.strongTask 1 = 0 := by
  have hrun : ∃ s ∈ kernel.run bootSpin
      (List.flatten [loopFor 7, callFor .fork 9, callFor .yield 6, loopFor 7, callFor (.exit 0) 18]),
      s.cpu = some 1 ∧ (s.flow (some 1)).code.length = 3 ∧ s.strongTask 1 = 0 := by decide +kernel
  exact (boot_reach _ _).exists_run hrun

end TCore.Kernel
