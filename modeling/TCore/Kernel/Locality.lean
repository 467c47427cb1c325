/-
  TCore.Kernel.Locality — which flows touch what.

  The wait queues of mutexes, semaphores and condition variables belong to a process, and every
  path uses those of its own process only (`Inside`, `inside_call`, `OnTask.code`). So a task
  in such a queue is a thread of the process the queue belongs to (`local_reach`).

  `Shift` and `Census` say once what an instruction can do to the places of tasks and to who is
  alive.
-/

import TCore.Kernel.Tables

namespace TCore.Kernel

open TCore.Lib
open Function (update update_apply)
open List Option

/-- The process that a wait queue belongs to. -/
def Queue.owner : Queue → Option Nat
  | mutex p _ | semaphore p _ | condvar p _ => some p
  | eventfd _ | uart | disk _ => none

/-- The instruction is about no wait queue of a process other than `p`. -/
def Instr.Within (p : Nat) (i : Instr) : Prop := ∀ q, i.queue = some q → ∀ o, q.owner = some o → o = p

namespace Sys

variable {s s' : Sys} {t u : Nat} {φ : Phase} {i : Instr} {rest : List Instr}

/-! ## Paths stay within the process -/

attribute [local simp] Instr.queue Instr.Within Queue.owner

theorem mem_addTask {p tid : Nat} {f : Option Nat} {j : Instr} (h : j ∈ ((s.addTask p tid).flow f).code) :
    j ∈ (s.flow f).code ∨ j.queue = none := by
  simp only [addTask, update_apply] at h
  split at h
  · obtain rfl : j = .trapReturn := by simpa using h
    exact .inr rfl
  · exact .inl h

theorem queue_exitProcess {p : Nat} {threads : List Nat} {j : Instr} (h : j ∈ exitProcess p threads) : j.queue = none := by
  simp only [exitProcess, exitThread, recycleThread, mem_append, mem_flatMap, mem_cons, not_mem_nil, or_false] at h
  rcases h with ((h | ⟨u, -, h⟩) | h) | h <;> aesop

/-- What an instruction adds to a path is about its own queue. -/
theorem OnTask.code (h : OnTask s t φ) (hk : s.Takes t i rest s') :
    ∀ j ∈ (s'.flow (some t)).code, j ∈ rest ∨ j.queue = none ∨ j.queue = i.queue := by
  intro j hj
  have hs := hk.effect
  have hpop : ((s.pop rest).flow (some t)).code = rest := by simp [onFlow, hk.cpu]
  cases hgo : i.goesOn with
  | true =>
    obtain ⟨code, rfl, habout, -⟩ := h.goesOn hk hgo
    simp only [push, onFlow, hk.cpu, Function.update_self] at hj
    exact (mem_append.mp hj).symm.imp id (habout j)
  | false =>
    cases hf : i.keepsFlows with
    | true =>
      rw [(taskEffect_flow hf hs).1, hpop] at hj
      exact .inl hj
    | false =>
      cases i with
      | borrow c =>
        obtain ⟨-, ⟨⟩⟩ := ite_none_left_eq_some.mp hs
        exact .inl (by simpa [hold, onFlow, hk.cpu] using hj)
      | release _ | upgrade | dropProcess =>
        cases hs
        exact .inl (by simpa [letGo, onFlow, hk.cpu] using hj)
      | fork =>
        obtain ⟨-, ⟨⟩⟩ := ite_none_right_eq_some.mp hs
        exact hpop ▸ (mem_addTask hj).imp id .inl
      | spawn =>
        cases hs
        exact hpop ▸ (mem_addTask hj).imp id .inl
      | exit code =>
        rw [(exit_drops (s := s.pop rest) hk.cpu hs).2] at hj
        split at hj
        · exact .inr (.inl (queue_exitProcess hj))
        · exact .inr (.inl (@queue_exitProcess 0 [] j (mem_append_right _ hj)))
      | fetch | switchTo _ => cases hs
      | _ => simp [Instr.goesOn, Instr.keepsFlows] at hgo hf

/-- Every instruction of the path is about queues of process `p`, or about queues of no process. -/
def Inside (p : Nat) (code : List Instr) : Prop := ∀ j ∈ code, j.Within p

section Inside

variable {p : Nat}

theorem Inside.append {xs ys : List Instr} (h : Inside p xs) (h' : Inside p ys) : Inside p (xs ++ ys) := by
  intro j hj
  exact (mem_append.mp hj).elim (h j) (h' j)

theorem Inside.flatMap {α : Type} {f : α → List Instr} {l : List α} (h : ∀ x, Inside p (f x)) : Inside p (l.flatMap f) := by
  intro j hj
  obtain ⟨x, -, hj⟩ := mem_flatMap.mp hj
  exact h x j hj

theorem Inside.getD {α : Type} {f : α → List Instr} {o : Option α} (h : ∀ x, Inside p (f x)) :
    Inside p ((o.map f).getD []) := by
  cases o with
  | none => simp [Inside]
  | some x => exact h x

theorem inside_suspend : Inside p (suspendCurrentAndRunNext t) := by
  simp [Inside, suspendCurrentAndRunNext]

theorem inside_block : Inside p (blockCurrentAndRunNext t) := by
  simp [Inside, blockCurrentAndRunNext]

theorem inside_accessDevice (token : Nat) : Inside p (accessDevice t token) := by
  simp [Inside, accessDevice]

theorem inside_getBlockCache (x : Access) : Inside p (getBlockCache t x) := by
  refine .append (.append (.append ?_ ?_) ?_) ?_
  · simp [Inside]
  · exact .getD inside_accessDevice
  · exact .getD inside_accessDevice
  · simp [Inside]

theorem inside_inodeCall (c : InodeCall) : Inside p (c.path t) := by
  have hone : ∀ c, Inside p [.borrow c] ∧ Inside p [.release c] := by simp [Inside]
  have huse : ∀ x, Inside p (useBlock t x) := by
    intro x
    exact .append (inside_getBlockCache x) (by simp [Inside])
  have hsync : ∀ blocks, Inside p (blockCacheSyncAll t blocks) := by
    intro blocks
    refine .append (.append (hone _).1 (.flatMap ?_)) (hone _).2
    intro b
    exact .append (.append (hone _).1 (inside_accessDevice b.2)) (hone _).2
  refine .append (.append (.append (.append (.append (.append (hone _).1 ?_) (hone _).1) ?_) (hone _).2) ?_) (hone _).2
  · exact inside_getBlockCache c.inode
  · exact .flatMap huse
  · exact .getD hsync

theorem inside_withProcess {op : List Instr} (h : Inside p op) : Inside p (withProcess p op) := by
  refine .append (.append ?_ h) ?_
  · simp [Inside]
  · simp [Inside]

/-- A system call uses the wait queues of its own process. -/
theorem inside_call (now : Nat) (c : Call) : Inside p (c.path t p now) := by
  cases c with
  | yield => exact inside_suspend
  | sleep ms => exact .append (by simp [Inside]) inside_block
  | exec f search content =>
    refine .append (.append (.append (.flatMap inside_inodeCall) ?_) (.flatMap inside_inodeCall)) ?_
    · simp [Inside]
    · simp [Inside]
  | condvarWait c m =>
    refine inside_withProcess (.append (.append (.append ?_ ?_) inside_block) ?_)
    · simp [Inside, unlockMutex]
    · simp [Inside]
    · simp [Inside, lockMutex]
  | pipe i waits =>
    refine inside_withProcess (.append (.flatMap fun _ => .append ?_ inside_suspend) ?_)
    · simp [Inside]
    · simp [Inside]
  | file f calls =>
    refine inside_withProcess (.append (.append ?_ (.flatMap inside_inodeCall)) ?_)
    · simp [Inside]
    · simp [Inside]
  | open_ calls =>
    refine .append (.append ?_ (.flatMap inside_inodeCall)) ?_
    · simp [Inside]
    · simp [Inside]
  | listApps calls => exact .flatMap inside_inodeCall
  | semaphoreUp m | semaphoreDown m | condvarSignal c | condvarSignalAll c | readEventfd e | writeEventfd e v | readStdin =>
    apply inside_withProcess
    simp [Inside]
  | mutexLock m => simp [Inside, Call.path, lockMutex]
  | mutexUnlock m => simp [Inside, Call.path, unlockMutex]
  | exit _ | fork | waitpid _ | threadCreate | waittid _ | eventfd _ _ _ =>
    simp [Inside, Call.path]

end Inside

/-! ## The other flows -/

/-- Flow `v` is as it was, or it is that of a new task. -/
def Untouched (s s' : Sys) (v : Nat) : Prop :=
  v < s.ntasks ∧ s'.flow (some v) = s.flow (some v) ∨ v = s.ntasks ∧ s'.flow (some v) = ⟨[.trapReturn], [], 0⟩

/-- An instruction leaves the other flows alone; a new task has one of its own. -/
theorem OnTask.others (h : OnTask s t φ) (hk : s.Takes t i rest s') {v : Nat} (hv : v ≠ t) (hlt : v < s'.ntasks) :
    Untouched s s' v := by
  have hs := hk.effect
  have hpop : (s.pop rest).flow (some v) = s.flow (some v) := (Still.onFlow _).flow _ (by simpa [hk.cpu] using hv)
  have hadd : ∀ (s₁ : Sys) (p tid : Nat), s' = s₁.addTask p tid → s₁.ntasks = s.ntasks →
      s₁.flow = (s.pop rest).flow → Untouched s s' v := by
    rintro s₁ p tid rfl hnt hflow
    rcases Nat.lt_succ_iff_lt_or_eq.mp (show v < s₁.ntasks + 1 from hlt) with hlt' | rfl
    · refine .inl ⟨by omega, ?_⟩
      have hne : v ≠ s₁.ntasks := by omega
      simp [Sys.addTask, hne, hflow, hpop]
    · exact .inr ⟨hnt, by simp [Sys.addTask]⟩
  cases hq : i.isQuiet with
  | true =>
    have hstill := (h.takesQuiet hk hq).still
    refine .inl ⟨by rw [← show s'.ntasks = s.ntasks from hstill.ntasks]; exact hlt, ?_⟩
    rw [hstill.flow _ (by simpa [onFlow, hk.cpu] using hv), hpop]
  | false =>
    cases hf : i.keepsFlows with
    | true =>
      obtain ⟨hflow, hnt⟩ := taskEffect_flow hf hs
      exact .inl ⟨by rw [← show s'.ntasks = s.ntasks from hnt]; exact hlt, by rw [hflow, hpop]⟩
    | false =>
      cases i with
      | fork =>
        obtain ⟨-, hs⟩ := ite_none_right_eq_some.mp hs
        exact hadd _ _ _ (some.inj hs).symm rfl rfl
      | spawn => exact hadd _ _ _ (some.inj hs).symm rfl rfl
      | exit code =>
        obtain ⟨-, s₁, tids, rfl, -, rfl⟩ := exit_some hs
        refine .inl ⟨hlt, ?_⟩
        rw [← hpop]
        simp [onFlow, setTask, setProc, hk.cpu, hv]
      | fetch | switchTo _ => cases hs
      | _ => simp [Instr.isQuiet, Instr.keepsFlows] at hq hf

/-! ## What an instruction does to tasks -/

/-- Who lives after an instruction of `t`. -/
structure Census (s s' : Sys) (t : Nat) (i : Instr) : Prop where
  ntasks : s.ntasks ≤ s'.ntasks
  proc : ∀ u, u < s.ntasks → (s'.task u).proc = (s.task u).proc
  dead : ∀ u, u < s.ntasks → (s.task u).res = false → (s'.task u).res = false
  taken : ∀ u, i = .takeRes u → (s'.task u).res = false
  dies : ∀ u, u < s.ntasks → (s.task u).res = true → (s'.task u).res = false → i = .takeRes u ∨ u = t ∧ ∃ code, i = .exit code
  zombie : ∀ p, p < s.nprocs → (s.proc p).isZombie = true → (s'.proc p).isZombie = true
  alive : ∀ p, p < s.nprocs → (s'.proc p).isZombie = true →
    (s.proc p).isZombie = true ∨ i = .becomeZombie ∧ p = (s.task t).proc
  new : ∀ u, s.ntasks ≤ u → u < s'.ntasks → (s'.task u).res = true ∧
    (i = .spawn ∧ (s'.task u).proc = (s.task t).proc ∨ (s'.proc (s'.task u).proc).isZombie = false)

theorem SameProcs.census (h : SameProcs s s') (hi : i.changesProcs = false) : Census s s' t i where
  ntasks := h.ntasks.ge
  proc u _ := h.proc u
  dead u _ hd := by rw [h.res]; exact hd
  taken u hu := by rw [hu] at hi; cases hi
  dies u _ hr hd := by rw [h.res, hr] at hd; cases hd
  zombie p _ hz := by rw [h.isZombie]; exact hz
  alive p _ hz := by rw [h.isZombie] at hz; exact .inl hz
  new u hge hlt := by rw [h.ntasks] at hlt; omega

theorem DropsRes.census (h : DropsRes s s' u) (hz : ∀ p, (s'.proc p).isZombie = (s.proc p).isZombie)
    (hi : i = .takeRes u ∨ u = t ∧ ∃ code, i = .exit code) : Census s s' t i where
  ntasks := h.ntasks.ge
  proc v _ := h.proc v
  dead v _ hd := by simp [h.res, hd]
  taken v hv := by
    rcases hi with rfl | ⟨-, code, rfl⟩
    · obtain rfl : u = v := by simpa using hv
      simp [h.res]
    · cases hv
  dies v _ hr hd := by
    obtain rfl : v = u := by simpa [h.res, hr] using hd
    exact hi
  zombie p _ hz' := by rw [hz]; exact hz'
  alive p _ hz' := by rw [hz] at hz'; exact .inl hz'
  new v hge hlt := by rw [h.ntasks] at hlt; omega

theorem taskEffect_census (hc : s.cpu = some t) (hi : i.changesProcs = true) (hs : s.taskEffect t i = some s') :
    Census s s' t i := by
  cases i with
  | fork =>
    obtain ⟨-, ⟨⟩⟩ := ite_none_right_eq_some.mp hs
    constructor <;> simp only [addTask, setProc, update_apply] <;> grind
  | spawn =>
    cases hs
    constructor <;> simp only [spawn, addTask, setProc, update_apply] <;> grind
  | waitpid pid =>
    rcases waitpid_some hs with rfl | ⟨c, rfl⟩
    · constructor <;> grind
    · constructor <;> simp only [setProc, update_apply] <;> grind
  | reap tid =>
    cases hs
    rcases s.reap_cases (s.task t).proc tid with heq | ⟨w, -, -, heq⟩ <;> rw [heq]
    · constructor <;> grind
    · constructor <;> simp only [setProc, update_apply] <;> grind
  | exit code =>
    refine (exit_drops hc hs).1.census ?_ (.inr ⟨rfl, code, rfl⟩)
    obtain ⟨-, s₁, tids, rfl, -, rfl⟩ := exit_some hs
    simp only [onFlow, setTask, setProc, update_apply]
    grind
  | leavePid =>
    obtain ⟨-, ⟨⟩⟩ := ite_none_right_eq_some.mp hs
    constructor <;> grind
  | becomeZombie =>
    cases hs
    constructor <;> simp only [becomeZombie, setProc, update_apply] <;> grind
  | takeRes v =>
    refine (takeRes_drops hs).census ?_ (.inl rfl)
    obtain ⟨tids, rfl⟩ := takeRes_some hs
    simp only [setTask, setProc, update_apply]
    grind
  | clearTasks =>
    cases hs
    constructor <;> simp only [setProc, update_apply] <;> grind
  | _ => cases hi

theorem OnTask.census (h : OnTask s t φ) (hk : s.Takes t i rest s') : Census s s' t i := by
  cases hi : i.changesProcs with
  | false => exact (h.sameProcs hk hi).census hi
  | true =>
    have hcensus := taskEffect_census (s := s.pop rest) hk.cpu hi hk.effect
    exact ⟨hcensus.ntasks, hcensus.proc, hcensus.dead, hcensus.taken, hcensus.dies, hcensus.zombie, hcensus.alive, hcensus.new⟩

/-! ## Interrupts -/

/-- A handler wakes tasks from the timers and from the queues of devices. -/
theorem handle_ready {e : KernelEvent} (hs : s.handle e = some s') :
    ∀ u ∈ s'.readyQueue, u ∈ s.readyQueue ∨ u ∈ s.timers.map (·.task) ∨ ∃ q, q.owner = none ∧ (q, u) ∈ s.waits := by
  have hirq : ∀ {s : Sys} {q : Queue}, q.owner = none → s.signalIrq q = some s' →
      ∀ u ∈ s'.readyQueue, u ∈ s.readyQueue ∨ ∃ q, q.owner = none ∧ (q, u) ∈ s.waits := by
    intro s q hq hs u hu
    obtain ⟨-, hs⟩ := ite_none_left_eq_some.mp hs
    split at hs
    · cases hs
      exact .inl hu
    · rename_i w hfront
      obtain ⟨-, ⟨⟩⟩ := ite_none_left_eq_some.mp hs
      refine (mem_append.mp hu).imp id fun hu => ⟨q, hq, ?_⟩
      rw [mem_singleton.mp hu]
      exact mem_of_front hfront
  have htimer : ∀ {l : List TimerCondVar} {s : Sys} {now : Nat}, checkTimerFrom now l s = some s' →
      ∀ u ∈ s'.readyQueue, u ∈ s.readyQueue ∨ u ∈ l.map (·.task) := by
    intro l
    induction l with
    | nil =>
      intro s now hs u hu
      cases hs
      exact .inl hu
    | cons x l ih =>
      intro s now hs u hu
      unfold checkTimerFrom at hs
      split at hs
      · obtain ⟨-, hs⟩ := ite_none_left_eq_some.mp hs
        rcases ih hs u hu with hu | hu
        · refine (mem_append.mp hu).imp id fun hu => ?_
          rw [mem_singleton.mp hu]
          simp
        · exact .inr (mem_cons_of_mem _ hu)
      · cases hs
        exact .inl hu
  intro u hu
  cases e with
  | timer now sig =>
    obtain ⟨-, hs⟩ := ite_none_left_eq_some.mp hs
    exact (htimer hs u hu).imp id .inl
  | device d sig =>
    cases d with
    | uart bytes =>
      obtain ⟨-, hs⟩ := ite_none_left_eq_some.mp hs
      split at hs
      · cases hs
        exact .inl hu
      · exact (hirq (s := { s with uart := s.uart + bytes }) rfl hs u hu).imp id .inr
    | disk token =>
      obtain ⟨-, hs⟩ := ite_none_left_eq_some.mp hs
      exact (hirq rfl hs u hu).imp id .inr
  | call c now sig | fault sig | loop | exec =>
    cases hs
    exact .inl hu

/-! ## The invariant -/

structure Local (s : Sys) : Prop where
  code : ∀ v, v < s.ntasks → Inside (s.task v).proc (s.flow (some v)).code
  waits : ∀ q u, (q, u) ∈ s.waits → ∀ o, q.owner = some o → o = (s.task u).proc

theorem Sound.lt_of_places (h : Sound s) (hu : 0 < s.places u) : u < s.ntasks := by
  by_contra hge
  have hfresh := h.fresh (u := u) (by omega)
  omega

theorem places_of_waits {q : Queue} (h : (q, u) ∈ s.waits) : 0 < s.places u := by
  have hpos : 0 < (s.waits.map (·.2)).count u := count_pos_iff.mpr (List.mem_map_of_mem h)
  unfold places
  omega

theorem Inside.mono {p p' : Nat} {code code' : List Instr} (h : Inside p code) (hp : p' = p) (hsub : code' ⊆ code) :
    Inside p' code' := fun j hj => hp ▸ h j (hsub hj)

/-- An instruction that is about a queue of the process leads to such instructions only. -/
theorem Inside.effect {p : Nat} (h : Inside p (s.flow (some t)).code) (hon : OnTask s t φ) (hk : s.Takes t i rest s') :
    Inside p (s'.flow (some t)).code := by
  rw [hk.code] at h
  intro j hj q hq
  rcases hon.code hk j hj with hmem | hnone | hqueue
  · exact h j (mem_cons_of_mem _ hmem) q hq
  · rw [hnone] at hq
    cases hq
  · exact h i mem_cons_self q (hqueue ▸ hq)

section

variable (h : Local s)
include h

theorem Local.exec (hon : OnTask s t φ) (hk : s.Takes t i rest s') : Local s' := by
  have hcensus := hon.census hk
  have hshift := hon.shift hk
  constructor
  · intro v hv
    by_cases hvt : v = t
    · subst hvt
      exact ((h.code v hon.lt).effect hon hk).mono (hcensus.proc v hon.lt) (Subset.refl _)
    · rcases hon.others hk hvt hv with ⟨hlt, hflow⟩ | ⟨-, hflow⟩
      · rw [hflow]
        exact (h.code v hlt).mono (hcensus.proc v hlt) (Subset.refl _)
      · rw [hflow]
        simp [Inside]
  · intro q u hmem o ho
    rcases hshift.waits q u hmem with hmem | ⟨rfl, rfl⟩
    · have hlt := (Sound.task hk.cpu ⟨φ, hon⟩).lt_of_places (places_of_waits hmem)
      rw [hcensus.proc u hlt]
      exact h.waits q u hmem o ho
    · rw [hcensus.proc u hon.lt]
      have hin := h.code u hon.lt
      rw [hk.code] at hin
      exact hin _ mem_cons_self q rfl o ho

theorem Local.wakes (hk : Wakes s s') : Local s' := by
  have hp := (SameProcs.of_wakes hk).proc
  constructor
  · intro v hv
    rw [hk.flows, hp]
    exact h.code v (by rw [← hk.ntasks]; exact hv)
  · intro q u hmem o ho
    rw [hp]
    exact h.waits q u (hk.waits hmem) o ho

/-- A trap begins a path of the task's own process. -/
theorem Local.entry {code : List Instr} (hk : Wakes s s') (he : Entry s code) : Local (s'.push code) := by
  have h' := h.wakes hk
  have hp := (SameProcs.of_wakes hk).proc
  have hpush : ∀ t, s.inUser = some t → Inside (s.task t).proc code → Local (s'.push code) := by
    intro t hu hin
    have hc : s'.cpu = some t := hk.cpu.trans (inUser_some hu).1
    refine ⟨?_, h'.waits⟩
    intro v hv
    by_cases hvt : v = t
    · subst hvt
      have hold := h'.code v hv
      simp only [push, onFlow, hc, Function.update_self]
      exact .append (hin.mono (hp v) (Subset.refl _)) hold
    · rw [(Still.push _).flow _ (by simpa [hc] using hvt)]
      exact h'.code v hv
  cases he with
  | kernel =>
    rw [push_nil]
    exact h'
  | loop hc _ =>
    have hc' : s'.cpu = none := hk.cpu.trans hc
    refine ⟨?_, h'.waits⟩
    intro v hv
    rw [(Still.push _).flow _ (by simp [hc'])]
    exact h'.code v hv
  | call hu c now sig => exact hpush _ hu (.append (inside_call now c) (by simp [Inside]))
  | yield hu sig => exact hpush _ hu (.append inside_suspend (by simp [Inside]))
  | trap hu sig => exact hpush _ hu (by simp [Inside])

theorem Local.idle (hon : OnIdle s) (hc : s.cpu = none) (hs : s.execNext = some s') : Local s' := by
  have hkeep : ∀ s', s'.ntasks = s.ntasks → s'.waits = s.waits → (∀ u, (s'.task u).proc = (s.task u).proc) →
      (∀ v, s'.flow (some v) = s.flow (some v)) → Local s' := by
    intro s' hnt hwaits hp hflow
    constructor
    · intro v hv
      rw [hflow, hp]
      exact h.code v (by rw [← hnt]; exact hv)
    · intro q u hmem o ho
      rw [hp]
      exact h.waits q u (by rw [← hwaits]; exact hmem) o ho
  rcases hon.move hc hs with ⟨hstill, -⟩ | ⟨t, rest, -, -, rfl⟩ | ⟨t, -, rfl⟩
  · exact hkeep _ hstill.ntasks hstill.waits (fun u => by rw [hstill.task]) fun v => hstill.flow _ (by simp [hc])
  · exact hkeep _ rfl rfl (SameProcs.setStatus .running).proc fun v => by simp
  · exact hkeep _ rfl rfl (fun _ => rfl) fun v => by simp

theorem Local.step {e : KernelEvent} (hsound : Sound s) (hs : s.step e = some s') : Local s' := by
  apply hsound.cases_step hs
  · exact fun _ hon hk => h.exec hon hk
  · exact fun hon hc hs => h.idle hon hc hs
  · rintro s₁ code hhandle hentry rfl
    exact h.entry (.handle hhandle) hentry

end

theorem local_boot (kind : Queue → MutexKind) (count : Queue → Int) : Local (boot kind count) := by
  constructor
  · intro v hv
    obtain rfl : v = 0 := Nat.lt_one_iff.mp hv
    simp [boot, Inside]
  · intro q u hmem
    cases hmem

theorem local_reach (h : kernel.Reach s) : Local s := by
  refine h.inv_reach Local ?_ fun s e s' hreach hl hs => hl.step (sound_reach hreach) hs
  rintro s ⟨kind, count, rfl⟩
  exact local_boot kind count

end Sys

end TCore.Kernel
