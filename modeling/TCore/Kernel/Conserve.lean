/-
  TCore.Kernel.Conserve — the scheduler loses no task and queues none twice.

  At a schedule point every task that has not exited is in one place, once, and its status says
  which. The places hold of every run (`Sound`). The status does not: `sys_sleep` puts the task
  into `TIMERS` first and marks it blocked afterwards, with interrupts on in between. A timer
  interrupt there that finds the deadline reached wakes a task that is still running, and the
  task then marks itself blocked while it is in the ready queue (`sleeper_left_blocked`).
-/

import TCore.Kernel.Sound

namespace TCore.Kernel

open TCore.Lib
open Function (update update_apply)
open List Option Point Sys

/-- What a task does between entering a queue and blocking. -/
theorem Point.next_queued {a : Nat} {H : List Cell} {i : Instr} {p' : Point}
    (hn : next ⟨.queued, a, H⟩ i = some p') :
    (∃ c, i = .borrow c) ∨ (∃ c, i = .release c ∧ c ≠ .uart ∧ c ≠ .blk) ∨ i = .block := by
  cases i with
  | borrow c => exact .inl ⟨c, rfl⟩
  | release c =>
    obtain ⟨⟨-, hc⟩, -⟩ := ite_none_right_eq_some.mp hn
    exact .inr (.inl ⟨c, rfl, hc rfl⟩)
  | block => exact .inr (.inr rfl)
  | schedule site => cases site <;> simp [next] at hn
  | _ => simp [next, inCell] at hn

variable {q : Queue}

theorem Queue.guard_cases {c : Cell} (h : c ∈ q.guard) : c = .uart ∨ c = .blk := by
  cases q <;> simp [Queue.guard] at h <;> simp [h]

namespace Sys

variable {s s' : Sys} {t u : Nat} {φ : Phase}

/-- Task `t` is in the timers or in a wait queue. -/
def Waits (s : Sys) (t : Nat) : Prop := t ∈ s.timers.map (·.task) ∨ t ∈ s.waits.map (·.2)

structure Conserved (s : Sys) : Prop where
  once : ∀ t, t < s.ntasks → (s.task t).res = true → s.places t = 1
  running : ∀ t, s.current = some t → (s.task t).status = .running
  ready : ∀ t ∈ s.readyQueue, (s.task t).status = .ready
  blocked : ∀ t, s.Waits t → (s.task t).status = .blocked

/-! ## Once -/

/-- A task in the kernel can be current and in one queue; any other task is in one place at most. -/
theorem Sound.once (h : Sound s) (hne : s.current ≠ some u) : s.places u ≤ 1 := by
  by_cases hu : s.ntasks ≤ u
  · rw [h.fresh hu]
    omega
  · cases hc : s.cpu with
    | some t =>
      obtain ⟨φ, hon⟩ := h.on hc
      by_cases hut : u = t
      · subst hut
        have hat := hon.place
        cases φ with
        | run | queued => exact absurd hat.1 hne
        | parked => exact hat.2.le
        | gone doomed => exact hat.2.1.le.trans zero_le_one
      · have := (hon.rest u (by omega) hut).place
        omega
    | none =>
      have := ((h.off hc).rest u (by omega)).place
      omega

theorem one_le_of_current (h : s.current = some t) : s.current.toList.count t = 1 := by
  simp [h]

theorem Waits.pos (h : s.Waits t) : 1 ≤ (s.timers.map (·.task)).count t + (s.waits.map (·.2)).count t := by
  rcases h with h | h
  · have := count_pos_iff.mpr h
    omega
  · have := count_pos_iff.mpr h
    omega

/-- A task in the ready queue is in no other queue. -/
theorem not_waits_of_ready (hr : t ∈ s.readyQueue) (hpl : s.places t ≤ 1) : ¬ s.Waits t := by
  intro hw
  have hpos := hw.pos
  have hready := count_pos_iff.mpr hr
  simp only [places] at hpl
  omega

theorem not_waits_of_current (hc : s.current = some t) (hpl : s.places t = 1) : ¬ s.Waits t := by
  intro hw
  have hpos := hw.pos
  have hcur := one_le_of_current hc
  simp only [places] at hpl
  omega

theorem not_ready_of_current (hc : s.current = some t) (hpl : s.places t = 1) : t ∉ s.readyQueue := by
  intro hr
  have hready := count_pos_iff.mpr hr
  have hcur := one_le_of_current hc
  simp only [places] at hpl
  omega

/-! ## The status of a task -/

structure Fits (s : Sys) (t : Nat) : Prop where
  running : s.current = some t → (s.task t).status = .running
  ready : t ∈ s.readyQueue → (s.task t).status = .ready
  waiting : s.current ≠ some t → s.Waits t → (s.task t).status = .blocked

def Marked (s : Sys) : Prop := ∀ t, Fits s t

/-- A task that does not move. -/
theorem Fits.same (h : Fits s u) (hst : (s'.task u).status = (s.task u).status)
    (hcur : s'.current = some u ↔ s.current = some u) (hready : u ∈ s'.readyQueue → u ∈ s.readyQueue)
    (hw : s'.Waits u → s.Waits u) : Fits s' u where
  running hc := by
    rw [hst]
    exact h.running (hcur.mp hc)
  ready hr := by
    rw [hst]
    exact h.ready (hready hr)
  waiting hc hwait := by
    rw [hst]
    exact h.waiting (fun h => hc (hcur.mpr h)) (hw hwait)

theorem Marked.still (h : Marked s) (hs : Still s s') : Marked s' := by
  intro u
  refine (h u).same (by rw [hs.task]) (by rw [hs.current]) (by rw [hs.readyQueue]; exact id) ?_
  rw [Waits, hs.timers, hs.waits]
  exact id

/-- Task `w`, which is not current, goes from the queue it is in to the ready queue. -/
theorem Marked.wake {w : Nat} {ts : List TimerCondVar} {ws : List (Queue × Nat)} (h : Marked s)
    (hne : s.current ≠ some w) (hts : ts ⊆ s.timers) (hws : ws ⊆ s.waits)
    (hout : places { s.wakeup w with timers := ts, waits := ws } w ≤ 1) :
    Marked { s.wakeup w with timers := ts, waits := ws } := by
  intro u
  by_cases hu : u = w
  · subst hu
    refine ⟨fun hc => absurd hc hne, ?_, ?_⟩
    · intro _
      simp [wakeup, setTask]
    · intro _ hwait
      exact absurd hwait (not_waits_of_ready (by simp [wakeup]) hout)
  · refine (h u).same ?_ Iff.rfl ?_ (Or.imp (map_subset _ hts ·) (map_subset _ hws ·))
    · simp [wakeup, setTask, hu]
    · simp [wakeup, hu]

/-! ## Interrupts -/

theorem Marked.popWake {w : Nat} (h : Marked s) (hfront : s.front q = some w)
    (hne : s.current ≠ some w) (honce : s.places w ≤ 1) :
    Marked (wakeup { s with waits := s.waits.erase (q, w) } w) := by
  have hpl := places_popWake (mem_of_front hfront) w
  exact Marked.wake h hne (Subset.refl _) erase_subset (hpl.le.trans honce)

theorem Marked.checkTimerFrom {now : Nat} {l : List TimerCondVar} (h : Marked { s with timers := l })
    (honce : ∀ u, s.current ≠ some u → places { s with timers := l } u ≤ 1)
    (hok : ∀ x ∈ l, x.expireMs ≤ now → s.current ≠ some x.task)
    (hs : checkTimerFrom now l s = some s') : Marked s' := by
  induction l generalizing s with
  | nil =>
    cases hs
    exact h
  | cons x l ih =>
    unfold checkTimerFrom at hs
    split at hs
    · obtain ⟨-, hs⟩ := ite_none_left_eq_some.mp hs
      have hx := hok x (by simp) ‹_›
      have hpl := (Wakes.timer (s := s) (x := x) (l := l)).places
      refine ih (s := s.wakeup x.task) ?_ ?_ (fun y hy => hok y (by simp [hy])) hs
      · exact Marked.wake (s := { s with timers := x :: l }) h hx (subset_cons_self _ _) (Subset.refl _)
          ((hpl _).le.trans (honce _ hx))
      · intro v hv
        exact (hpl v).le.trans (honce v hv)
    · cases hs
      exact h

theorem Marked.checkTimer {now : Nat} (h : Marked s) (hsound : Sound s)
    (hok : ∀ x ∈ s.timers, x.expireMs ≤ now → s.current ≠ some x.task) (hs : s.checkTimer now = some s') :
    Marked s' := by
  obtain ⟨-, hs⟩ := ite_none_left_eq_some.mp hs
  exact Marked.checkTimerFrom h (fun _ hne => hsound.once hne) hok hs

/-! ## Devices -/

/-- A task that has entered the queue of a device and is still current has the device borrowed, so no interrupt of
the device can wake it. -/
def Guarded (s : Sys) : Prop :=
  ∀ t q, s.cpu = some t → s.current = some t → (q, t) ∈ s.waits → ∀ c ∈ q.guard, c ∈ (s.flow (some t)).held

theorem waits_of_mem (h : (q, t) ∈ s.waits) : s.Waits t := .inr (List.mem_map_of_mem h)

/-- A current task in a queue is on the processor and about to block. -/
theorem Sound.queued (h : Sound s) (hcur : s.current = some t) (hw : s.Waits t) : s.cpu = some t ∧ OnTask s t .queued := by
  cases hc : s.cpu with
  | some v =>
    obtain ⟨φ, hon⟩ := h.on hc
    have hat := hon.place
    cases φ with
    | run =>
      obtain rfl : v = t := some.inj (hat.1.symm.trans hcur)
      exact absurd hw (not_waits_of_current hcur hat.2)
    | queued =>
      obtain rfl : v = t := some.inj (hat.1.symm.trans hcur)
      exact ⟨rfl, hon⟩
    | parked | gone _ => simp [hat.1] at hcur
  | none =>
    have hcount := one_le_of_current hcur
    have hlt : t < s.ntasks := by
      by_contra hge
      have hfresh := h.fresh (u := t) (by omega)
      simp only [places] at hfresh
      omega
    have hpl := ((h.off hc).rest t hlt).place
    refine absurd hw (not_waits_of_current hcur ?_)
    simp only [places] at hpl ⊢
    omega

theorem Marked.signalIrq {c : Cell} (h : Marked s) (hsound : Sound s) (hg : Guarded s)
    (hq : q.guard = some c) (hfree : s.borrowed c = false) (hs : s.signalIrq q = some s') : Marked s' := by
  obtain ⟨-, hs⟩ := ite_none_left_eq_some.mp hs
  split at hs
  · cases hs
    exact h
  · rename_i w hfront
    obtain ⟨-, ⟨⟩⟩ := ite_none_left_eq_some.mp hs
    have hne : s.current ≠ some w := by
      intro hcur
      have hmem := mem_of_front hfront
      obtain ⟨hc, hon⟩ := hsound.queued hcur (waits_of_mem hmem)
      have hheld := hg w q hc hcur hmem c (by simp [hq])
      have hb : s.borrowed c = true := by
        simp only [borrowed, Bool.or_eq_true, List.any_eq_true, mem_range, contains_iff_mem]
        exact .inr ⟨w, hon.lt, hheld⟩
      rw [hfree] at hb
      cases hb
    exact Marked.popWake h hfront hne (hsound.once hne)

theorem Marked.irqHandler {d : Device} (h : Marked s) (hsound : Sound s) (hg : Guarded s)
    (hs : s.irqHandler d = some s') : Marked s' := by
  cases d with
  | uart bytes =>
    obtain ⟨hfree, hs⟩ := ite_none_left_eq_some.mp hs
    split at hs
    · cases hs
      exact h
    · exact Marked.signalIrq (s := { s with uart := s.uart + bytes }) (fun v => (h v).same rfl Iff.rfl id id)
        ((Wakes.receive _).sound hsound) hg rfl (Bool.eq_false_of_not_eq_true hfree) hs
  | disk token =>
    obtain ⟨hfree, hs⟩ := ite_none_left_eq_some.mp hs
    exact Marked.signalIrq h hsound hg rfl (Bool.eq_false_of_not_eq_true hfree) hs

/-! ## Instructions of a task -/

section Exec

variable {i : Instr} {rest : List Instr}

/-- The task on the processor moves, and nobody else does. -/
theorem Marked.moves (t : Nat) (h : Marked s) (ht : Fits s' t)
    (hst : ∀ u, u ≠ t → (s'.task u).status = (s.task u).status)
    (hcur : ∀ u, u ≠ t → (s'.current = some u ↔ s.current = some u))
    (hready : ∀ u, u ≠ t → u ∈ s'.readyQueue → u ∈ s.readyQueue)
    (hw : ∀ u, u ≠ t → s'.Waits u → s.Waits u) : Marked s' := by
  intro u
  by_cases hu : u = t
  · rw [hu]
    exact ht
  · exact (h u).same (hst u hu) (hcur u hu) (hready u hu) (hw u hu)

theorem Marked.yield (h : Marked s) (hcur : s.current = some t) (hpl : s.places t = 1) :
    Marked { s.setTask t (fun b => { b with status := .ready }) with current := none, readyQueue := s.readyQueue ++ [t] } := by
  have hw := not_waits_of_current hcur hpl
  refine Marked.moves t h ⟨?_, ?_, ?_⟩ ?_ ?_ ?_ (fun _ _ => id)
  · intro hnone
    cases hnone
  · intro _
    simp [setTask]
  · intro _ hwait
    exact absurd hwait hw
  · intro v hv
    simp [setTask, hv]
  · intro v hv
    simpa [hcur] using hv.symm
  · intro v hv
    simp [hv]

theorem Marked.block (h : Marked s) (hcur : s.current = some t) :
    Marked { s.setTask t (fun b => { b with status := .blocked }) with current := none } := by
  refine Marked.moves t h ⟨?_, ?_, ?_⟩ ?_ ?_ (fun _ _ => id) (fun _ _ => id)
  · intro hnone
    cases hnone
  · intro hr
    -- A task in the ready queue would not be marked running.
    have hrun := (h t).running hcur
    rw [(h t).ready hr] at hrun
    cases hrun
  · intro _ _
    simp [setTask]
  · intro v hv
    simp [setTask, hv]
  · intro v hv
    simpa [hcur] using hv.symm

theorem Marked.addTask {p tid : Nat} (h : Marked s) (hfresh : s.places s.ntasks = 0) :
    Marked (s.addTask p tid) := by
  refine Marked.moves s.ntasks h ⟨?_, ?_, ?_⟩ ?_ (fun _ _ => Iff.rfl) ?_ (fun _ _ => id)
  · intro hcur
    have := one_le_of_current (show s.current = some s.ntasks from hcur)
    simp only [places] at hfresh
    omega
  · intro _
    simp [Sys.addTask]
  · intro _ hwait
    have := Waits.pos (show s.Waits s.ntasks from hwait)
    simp only [places] at hfresh
    omega
  · intro v hv
    simp [Sys.addTask, hv]
  · intro v hv
    simp [Sys.addTask, hv]

theorem Marked.exit {code : Int} (h : Marked s) (hcur : s.current = some t) (hpl : s.places t = 1)
    (hs : s.exit t code = some s') : Marked s' := by
  have hw := not_waits_of_current hcur hpl
  have hr := not_ready_of_current hcur hpl
  obtain ⟨-, s₁, tids, rfl, -, rfl⟩ := exit_some hs
  refine Marked.moves t h ⟨?_, fun hready => absurd hready hr, fun _ hwait => absurd hwait hw⟩ ?_ ?_
    (fun _ _ => id) (fun _ _ => id)
  · intro hnone
    cases hnone
  · intro v hv
    simp [onFlow, setTask, setProc, hv]
  · intro v hv
    simpa [onFlow, setTask, setProc, hcur] using hv.symm

theorem Marked.takeRes (h : Marked s) {v : Nat} (hs : s.taskEffect t (.takeRes v) = some s') :
    Marked s' := by
  obtain ⟨tids, rfl⟩ := takeRes_some hs
  intro u
  refine (h u).same ?_ Iff.rfl id id
  simp only [setTask, setProc, update_apply]
  split
  · subst u
    rfl
  · rfl

theorem Marked.exec (h : Marked s) (hon : OnTask s t φ) (hk : s.Takes t i rest s') : Marked s' := by
  have hs := hk.effect
  have hpop : Marked (s.pop rest) := h.still (.onFlow _)
  have hat := hon.place
  cases hq : i.isQuiet with
  | true => exact hpop.still (hon.takesQuiet hk hq).still
  | false =>
    cases i with
    | yield =>
      obtain rfl := hon.phase hk rfl
      cases hs
      exact Marked.yield hpop hat.1 hat.2
    | enqueue q =>
      obtain rfl := hon.phase hk rfl
      cases hs
      refine Marked.moves t hpop ⟨(h t).running, (h t).ready, fun hne _ => absurd hat.1 hne⟩ (fun _ _ => rfl)
        (fun _ _ => Iff.rfl) (fun _ _ => id) ?_
      intro v hv hwait
      exact hwait.imp id fun hmem => by simpa [onFlow, hv] using hmem
    | addTimer expire =>
      obtain rfl := hon.phase hk rfl
      cases hs
      refine Marked.moves t hpop ⟨(h t).running, (h t).ready, fun hne _ => absurd hat.1 hne⟩ (fun _ _ => rfl)
        (fun _ _ => Iff.rfl) (fun _ _ => id) ?_
      intro v hv hwait
      exact hwait.imp (fun hmem => (mem_insertTimer hmem).resolve_right hv) id
    | block =>
      obtain rfl := hon.phase hk rfl
      cases hs
      exact Marked.block hpop hat.1
    | schedule site =>
      cases hs
      exact fun u => (hpop u).same rfl Iff.rfl id id
    | popWake q =>
      obtain rfl := hon.phase hk rfl
      rcases popWake_some hs with rfl | ⟨w, hfront, rfl⟩
      · exact hpop
      · have hne : s.current ≠ some w := by
          intro hcur
          obtain rfl : t = w := some.inj (hat.1.symm.trans hcur)
          exact not_waits_of_current hat.1 hat.2 (waits_of_mem (mem_of_front hfront))
        exact Marked.popWake hpop hfront hne ((Sound.task hk.cpu ⟨_, hon⟩).once hne)
    | fork =>
      obtain ⟨-, ⟨⟩⟩ := ite_none_right_eq_some.mp hs
      exact Marked.addTask (fun u => (hpop u).same rfl Iff.rfl id id) (hon.fresh _ le_rfl)
    | spawn =>
      cases hs
      exact Marked.addTask (hpop.still (.setProc _ _)) (hon.fresh _ le_rfl)
    | exit code =>
      obtain rfl := hon.phase hk rfl
      exact Marked.exit hpop hat.1 hat.2 hs
    | removeReady v =>
      cases hs
      exact fun u => (hpop u).same rfl Iff.rfl mem_of_mem_erase id
    | removeTimer v =>
      cases hs
      exact fun u => (hpop u).same rfl Iff.rfl id (Or.imp (map_subset _ filter_sublist.subset ·) id)
    | takeRes v => exact Marked.takeRes hpop hs
    | fetch | switchTo v => cases hs
    | _ => cases hq

/-- A device stays borrowed until the task has blocked. -/
theorem Guarded.exec (h : Guarded s) (hon : OnTask s t φ) (hk : s.Takes t i rest s') : Guarded s' := by
  intro v q hcpu hcur hmem c hguard
  obtain ⟨hc, hcode, hs⟩ := id hk
  obtain ⟨p', hn, -⟩ := hon.next hcode
  have hshift := hon.shift hk
  have hcur' := hshift.current v hcur
  rcases hshift.waits q v hmem with hmem | ⟨rfl, rfl⟩
  · -- A task in a queue that is still current only borrows and releases cells.
    obtain ⟨hv, hon'⟩ := (Sound.task hc ⟨_, hon⟩).queued hcur' (waits_of_mem hmem)
    obtain rfl : t = v := some.inj (hc.symm.trans hv)
    obtain ⟨p', hn, -⟩ := hon'.next hcode
    have hheld := h t q hc hcur' hmem c hguard
    rcases next_queued hn with ⟨c', rfl⟩ | ⟨c', rfl, hu, hblk⟩ | rfl
    · obtain ⟨-, ⟨⟩⟩ := ite_none_left_eq_some.mp hs
      simp [hold, onFlow, hc, hheld]
    · cases hs
      have hne : c ≠ c' := by
        rcases Queue.guard_cases hguard with rfl | rfl
        · exact hu.symm
        · exact hblk.symm
      simpa [letGo, onFlow, hc] using (mem_erase_of_ne hne).mpr hheld
    · cases hs
      cases hcur
  · obtain ⟨⟨-, hg⟩, -⟩ := ite_none_right_eq_some.mp hn
    cases hs
    simpa [onFlow, hc] using hg c hguard

end Exec

/-! ## Every step -/

theorem Guarded.wakes (h : Guarded s) (hk : Wakes s s') : Guarded s' := by
  intro t q hc hcur hmem c hguard
  rw [hk.flows]
  exact h t q (hk.cpu ▸ hc) (hk.current ▸ hcur) (hk.waits hmem) c hguard

theorem Guarded.push {code : List Instr} (h : Guarded s) : Guarded (s.push code) := by
  intro t q hc hcur hmem c hguard
  have hheld := h t q hc hcur hmem c hguard
  have hc' : s.cpu = some t := hc
  simpa [Sys.push, onFlow, hc'] using hheld

theorem Marked.idle (h : Marked s) (hon : OnIdle s) (hc : s.cpu = none) (hs : s.execNext = some s') : Marked s' := by
  rcases hon.move hc hs with ⟨hstill, -⟩ | ⟨t, rest, hready, hcur, rfl⟩ | ⟨t, hcur, rfl⟩
  · exact h.still hstill
  · have honce : s.places t ≤ 1 := (Sound.idle hc hon).once (by simp [hcur])
    have hcount : s.readyQueue.count t = rest.count t + 1 := by rw [hready, count_cons_self]
    refine Marked.moves t h ⟨?_, ?_, ?_⟩ ?_ ?_ ?_ (fun _ _ => id)
    · intro _
      simp [setTask]
    · intro hmem
      have hpos := count_pos_iff.mpr (show t ∈ rest from hmem)
      simp only [places] at honce
      omega
    · intro hne
      exact absurd rfl hne
    · intro u hu
      simp [setTask, hu]
    · intro u hu
      simpa [hcur] using hu.symm
    · intro u _ hmem
      rw [hready]
      exact mem_cons_of_mem _ hmem
  · exact fun u => (h u).same rfl Iff.rfl id id

/-- No timer interrupt finds the deadline of the task that is still running reached. -/
def wakesOthers (s : Sys) : KernelEvent → Prop
  | .timer now _ => ∀ x ∈ s.timers, x.expireMs ≤ now → s.current ≠ some x.task
  | _ => True

structure Marks (s : Sys) : Prop where
  sound : Sound s
  marked : Marked s
  guarded : Guarded s

theorem Marked.handle {e : KernelEvent} (h : Marks s) (hok : s.wakesOthers e) (hs : s.handle e = some s') : Marked s' := by
  cases e with
  | timer now sig => exact Marked.checkTimer h.marked h.sound hok hs
  | device d sig => exact Marked.irqHandler h.marked h.sound h.guarded hs
  | call c now sig =>
    cases hs
    exact fun u => (h.marked u).same rfl Iff.rfl id id
  | fault sig | loop | exec =>
    cases hs
    exact h.marked

theorem Marks.step {e : KernelEvent} (h : Marks s) (hok : s.wakesOthers e) (hs : s.step e = some s') : Marks s' := by
  refine ⟨h.sound.step hs, ?_, ?_⟩
  · apply h.sound.cases_step hs
    · exact fun _ hon hk => h.marked.exec hon hk
    · exact fun hon hc hs => h.marked.idle hon hc hs
    · rintro s₁ code hhandle - rfl
      exact (Marked.handle h hok hhandle).still (.push _)
  · apply h.sound.cases_step hs
    · exact fun _ hon hk => h.guarded.exec hon hk
    · -- A task that is about to get the processor is in no queue.
      intro hidle hc hs t q hcpu hcur hmem
      obtain ⟨-, rfl⟩ := hidle.runs hc hs hcpu
      have hq := h.sound.queued hcur (waits_of_mem hmem)
      rw [hc] at hq
      cases hq.1
    · rintro s₁ code hhandle - rfl
      exact (h.guarded.wakes (.handle hhandle)).push

theorem marks_boot (kind : Queue → MutexKind) (count : Queue → Int) : Marks (boot kind count) := by
  refine ⟨sound_boot kind count, ?_, ?_⟩
  · intro t
    refine ⟨?_, fun _ => rfl, ?_⟩
    · intro h
      cases h
    · rintro - (h | h) <;> cases h
  · intro t q hc
    cases hc

/-- At a schedule point the running task is in no queue, and no thread is half removed. -/
theorem Sound.atSchedulePoint (h : Sound s) (hp : s.SchedulePoint) :
    (∀ t, s.current = some t → ¬ s.Waits t) ∧ ∀ t, t < s.ntasks → (s.task t).res = true → s.places t = 1 := by
  cases hc : s.cpu with
  | some t =>
    rw [SchedulePoint, hc] at hp
    obtain ⟨-, -, hon⟩ := h.user (t := t) (by rw [inUser, hc]; simp only [hp])
    refine ⟨?_, ?_⟩
    · intro u hcur
      obtain rfl : t = u := some.inj (hon.place.1.symm.trans hcur)
      exact not_waits_of_current hcur hon.place.2
    · intro u hu hres
      by_cases hut : u = t
      · rw [hut]
        exact hon.place.2
      · simpa [hres, Phase.doomed] using (hon.rest u hu hut).place
  | none =>
    rw [SchedulePoint, hc] at hp
    have hidle := h.off hc
    have hcur : s.current = none := by
      have hturn := hidle.turn
      generalize s.flow none = f at hturn hp
      generalize s.current = c at hturn
      cases hturn with
      | loop => rfl
      | _ => cases hp
    refine ⟨?_, ?_⟩
    · intro u hu
      rw [hcur] at hu
      cases hu
    · intro u hu hres
      simpa [hres] using (hidle.rest u hu).place

theorem Marks.conserved (h : Marks s) (hp : s.SchedulePoint) : Conserved s := by
  obtain ⟨hwait, honce⟩ := h.sound.atSchedulePoint hp
  refine ⟨honce, fun t => (h.marked t).running, fun t => (h.marked t).ready, ?_⟩
  intro t hw
  exact (h.marked t).waiting (fun hcur => hwait t hcur hw) hw

end Sys

instance : ∀ (s : Sys) (e : KernelEvent), Decidable (s.wakesOthers e)
  | s, .timer now _ => inferInstanceAs (Decidable (∀ x ∈ s.timers, x.expireMs ≤ now → s.current ≠ some x.task))
  | _, .exec | _, .loop | _, .call _ _ _ | _, .fault _ | _, .device _ _ => inferInstanceAs (Decidable True)

end TCore.Kernel
