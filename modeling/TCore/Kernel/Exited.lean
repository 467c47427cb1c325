/-
  TCore.Kernel.Exited — threads of a process that has exited.

  `exit_current_and_run_next` of a main thread takes its sibling threads out of the ready queue
  and out of the timers, and relies on the other wait queues to belong to the process. Those of
  mutexes, semaphores and condition variables do. Those of eventfds, of the console and of the
  disk do not: another process or an interrupt wakes a thread there that has no resources any
  more (`exited_thread_is_woken`). The ready queue comes first, so a timer interrupt between the
  two removals can put a sleeping thread back into it.
-/

import TCore.Kernel.Locality

namespace TCore.Kernel

open TCore.Lib
open List Option Before Point

/-! ## Paths -/

theorem Before.mem {α : Type} {x y : α} {l : List α} (h : Before x y l) (hy : y ∈ l) : x ∈ l := by
  induction l with
  | nil => cases hy
  | cons z l ih =>
    rcases h with rfl | ⟨hz, h⟩
    · exact mem_cons_self
    · exact mem_cons_of_mem _ (ih h ((mem_cons.mp hy).resolve_left (Ne.symm hz)))

theorem before_recycle (u : Nat) (threads : List Nat) :
    Before (.removeTimer u) (.takeRes u) (threads.flatMap recycleThread) := by
  induction threads with
  | nil => trivial
  | cons w threads ih =>
    rw [flatMap_cons]
    by_cases hw : w = u
    · subst hw
      refine append ?_ (.inl (by simp [recycleThread]))
      simp [recycleThread, Before]
    · exact append (.of_not_mem (by simp [recycleThread, Ne.symm hw])) (.inr ih)

theorem before_exitProcess_timer (u p : Nat) (threads : List Nat) :
    Before (.removeTimer u) (.takeRes u) (exitProcess p threads) := by
  unfold exitProcess
  rw [append_assoc, append_assoc]
  refine append (.of_not_mem (by simp)) (.inr (append (before_recycle u threads) (.inr ?_)))
  exact .of_not_mem (by simp [exitThread])

theorem before_exitProcess_zombie (p : Nat) (threads : List Nat) (i : Instr)
    (hi : i = .clearTasks ∨ ∃ u, i = .takeRes u) : Before .becomeZombie i (exitProcess p threads) := by
  unfold exitProcess
  rw [append_assoc, append_assoc]
  refine append (.of_not_mem ?_) (.inl (by simp))
  rcases hi with rfl | ⟨u, rfl⟩ <;> simp

namespace Point

/-- The text of a path never leads to an exited task, but from one. -/
theorem next_not_gone {p p' : Point} {i : Instr} (hp : ∀ d, p.phase ≠ .gone d) (hn : p.next i = some p') :
    (∀ d, p'.phase ≠ .gone d) ∧ ∀ u, i ≠ .takeRes u := by
  rcases p with ⟨φ, a, H⟩
  cases i with
  | schedule site => cases site <;> simp [next] at hn <;> grind
  | _ => simp [next, inCell] at hn hp <;> grind

theorem after_not_takeRes {p q : Point} {code : List Instr} {u : Nat} (hp : ∀ d, p.phase ≠ .gone d)
    (h : p.after code = some q) : .takeRes u ∉ code := by
  induction code generalizing p with
  | nil => simp
  | cons i code ih =>
    rw [after_cons] at h
    obtain ⟨p', hstep, h⟩ := bind_eq_some_iff.mp h
    obtain ⟨hp', hi⟩ := next_not_gone hp (step_some hstep).2
    rw [mem_cons, not_or]
    exact ⟨Ne.symm (hi u), ih hp' h⟩

end Point

namespace Sys

variable {s s' : Sys} {t u : Nat} {φ : Phase} {i : Instr} {rest : List Instr}

/-! ## The invariant -/

/-- Task `u`, without resources, is at most in a wait queue of its own process, which is a zombie. -/
structure Gone (s : Sys) (u : Nat) : Prop where
  current : s.current ≠ some u
  ready : u ∉ s.readyQueue
  timers : u ∉ s.timers.map (·.task)
  waits : ∀ q, (q, u) ∈ s.waits → q.owner = some (s.task u).proc ∧ (s.proc (s.task u).proc).isZombie = true

/-- What is still to come on the path of an exiting task. -/
structure Dies (s : Sys) (t : Nat) : Prop where
  timers : ∀ u, u < s.ntasks → (s.task u).res = true →
    Before (.removeTimer u) (.takeRes u) (s.flow (some t)).code ∨ u ∉ s.timers.map (·.task)
  stage : (s.proc (s.task t).proc).isZombie = true ∨
    Before .becomeZombie .clearTasks (s.flow (some t)).code ∧
      (.becomeZombie ∈ (s.flow (some t)).code → .clearTasks ∈ (s.flow (some t)).code) ∧
      ∀ u, Before .becomeZombie (.takeRes u) (s.flow (some t)).code

/-- No thread without resources can be woken, and a thread of a zombie with resources is about to lose them. -/
structure Buried (s : Sys) : Prop where
  gone : ∀ u, u < s.ntasks → (s.task u).res = false → Gone s u
  /-- A thread of a zombie that has resources loses them before the next schedule point. -/
  doomed : ∀ u, u < s.ntasks → (s.task u).res = true → (s.proc (s.task u).proc).isZombie = true →
    ∃ t, s.cpu = some t ∧ s.places t = 0 ∧ .takeRes u ∈ (s.flow (some t)).code
  dies : ∀ t, s.cpu = some t → s.places t = 0 → Dies s t

/-- No thread loses its resources in the ready queue or in a wait queue that is not of its process. -/
def recyclesCleanly (s : Sys) : KernelEvent → Prop
  | .exec => ∀ u, (s.flow s.cpu).code.head? = some (.takeRes u) → (s.task u).res = true →
      u ∉ s.readyQueue ∧ ∀ x ∈ s.waits, x.2 = u → x.1.owner ≠ none
  | _ => True

theorem places_of_timers (h : u ∈ s.timers.map (·.task)) : 0 < s.places u := by
  have hpos : 0 < (s.timers.map (·.task)).count u := count_pos_iff.mpr h
  unfold places
  omega

theorem Gone.of_places (h : s.places u = 0) : Gone s u := by
  simp only [places, Nat.add_eq_zero_iff, count_eq_zero] at h
  obtain ⟨⟨⟨hcur, hready⟩, htimers⟩, hwaits⟩ := h
  refine ⟨?_, hready, htimers, ?_⟩
  · intro hc
    simp [hc] at hcur
  · intro q hq
    exact absurd (List.mem_map_of_mem hq) hwaits

/-- A task that is current has resources, and its process is no zombie. -/
theorem Buried.runs (h : Buried s) (hon : OnTask s t φ) (hc : s.cpu = some t) (hcur : s.current = some t) :
    (s.task t).res = true ∧ (s.proc (s.task t).proc).isZombie = false := by
  have hres : (s.task t).res = true := by
    by_contra hres
    exact (h.gone t hon.lt (by simpa using hres)).current hcur
  refine ⟨hres, ?_⟩
  by_contra hz
  obtain ⟨v, hv, hpl, -⟩ := h.doomed t hon.lt hres (by simpa using hz)
  obtain rfl : t = v := some.inj (hc.symm.trans hv)
  simp [places, hcur] at hpl

/-! ## Instructions -/

/-- An exiting task goes on along its path to the last `schedule`. -/
theorem OnTask.gone_exec (hon : OnTask s t φ) (hk : s.Takes t i rest s') (hpl : s.places t = 0) :
    (i = .schedule .exit ∧ ∀ u, .takeRes u ∉ rest) ∨
      s'.cpu = some t ∧ s'.places t = 0 ∧ (s'.flow (some t)).code = rest := by
  obtain ⟨d, rfl⟩ := hon.place.gone hpl
  obtain ⟨p', hn, hafter⟩ := hon.next hk.code
  have hrest : (s'.flow (some t)).code = rest := by
    simpa [onFlow, hk.cpu] using taskEffect_gone hn hk.effect
  rcases hon.effect hk with ⟨site, rfl, -⟩ | ⟨hcpu, hon'⟩
  · cases site with
    | exit =>
      obtain ⟨-, ⟨⟩⟩ := ite_none_right_eq_some.mp hn
      exact .inl ⟨rfl, fun u => after_not_takeRes (by simp) hafter⟩
    | suspend | block | uart | disk => simp [Point.next] at hn
  · refine .inr ⟨hcpu, ?_, hrest⟩
    have hgone : ∃ d', (Phase.gone d).after i = .gone d' := by
      rcases next_gone hn with ⟨c, rfl⟩ | ⟨c, rfl⟩ | rfl | rfl | rfl | rfl | rfl | ⟨u, rfl⟩ | ⟨u, rfl⟩ | ⟨u, rfl⟩ <;>
        exact ⟨_, rfl⟩
    obtain ⟨d', hd'⟩ := hgone
    rw [hd'] at hon'
    exact hon'.place.2.1

/-- Nothing is taken back before the timers are clear and the process is a zombie. -/
theorem Dies.exit {code : Int} (hc : s.cpu = some t) (hs : s.exit t code = some s') : Dies s' t := by
  obtain ⟨-, hcode⟩ := exit_drops hc hs
  constructor
  · intro u _ _
    rw [hcode]
    split
    · exact .inl (before_exitProcess_timer _ _ _)
    · exact .inl (.of_not_mem (by simp [exitThread]))
  · right
    rw [hcode]
    split
    · refine ⟨before_exitProcess_zombie _ _ _ (.inl rfl), ?_, fun u => before_exitProcess_zombie _ _ _ (.inr ⟨u, rfl⟩)⟩
      intro _
      simp [exitProcess]
    · exact ⟨.of_not_mem (by simp [exitThread]), by simp [exitThread], fun u => .of_not_mem (by simp [exitThread])⟩

section Exec

variable (h : Buried s) (hl : Ledger s) (hloc : Local s) (hon : OnTask s t φ) (hk : s.Takes t i rest s')
include h hl hloc hon hk

/-- A thread without resources stays where nobody wakes it. -/
theorem Gone.exec (hu : u < s.ntasks) (hd : (s.task u).res = false) : Gone s' u := by
  have hgone := h.gone u hu hd
  have hcensus := hon.census hk
  have hshift := hon.shift hk
  have hne : s.current = some t → u ≠ t := by
    rintro hcur rfl
    exact hgone.current hcur
  refine ⟨fun hcur => hgone.current (hshift.current u hcur), ?_, ?_, ?_⟩
  · intro hready
    rcases hshift.ready u hready with hr | ⟨rfl, rfl⟩ | rfl | ⟨q, rfl, hq⟩
    · exact hgone.ready hr
    · exact hne (hon.runs hk rfl) rfl
    · exact lt_irrefl _ hu
    · -- Whoever wakes it runs in its process, which is a zombie.
      have hrun := h.runs hon hk.cpu (hon.runs hk rfl)
      obtain ⟨howner, hz⟩ := hgone.waits q hq
      have hin := hloc.code t hon.lt
      rw [hk.code] at hin
      have hp := hin _ mem_cons_self q rfl _ howner
      rw [hp, hrun.2] at hz
      cases hz
  · intro htimer
    rcases hshift.timers u htimer with ht | ⟨rfl, x, rfl⟩
    · exact hgone.timers ht
    · exact hne (hon.runs hk rfl) rfl
  · intro q hq
    rcases hshift.waits q u hq with hw | ⟨rfl, rfl⟩
    · rw [hcensus.proc u hu]
      obtain ⟨howner, hz⟩ := hgone.waits q hw
      exact ⟨howner, hcensus.zombie _ (hl.tables.procs u hu) hz⟩
    · exact absurd rfl (hne (hon.runs hk rfl))

/-- A thread that loses its resources is where nobody wakes it. -/
theorem Gone.taken (hok : s.recyclesCleanly .exec) (hu : u < s.ntasks) (hr : (s.task u).res = true)
    (hd : (s'.task u).res = false) : Gone s' u := by
  have hcensus := hon.census hk
  have hshift := hon.shift hk
  rcases hcensus.dies u hu hr hd with rfl | ⟨rfl, code, rfl⟩
  · obtain rfl := hon.phase hk rfl
    have hpl := hon.place.2.1
    obtain ⟨hready, hwaits⟩ := hok u (by simp [hk.cpu, hk.code]) hr
    have hown := (hl.exits t hk.cpu hpl).own u (by simp [hk.code])
    have hdies := h.dies t hk.cpu hpl
    refine ⟨?_, ?_, ?_, ?_⟩
    · intro hcur
      have hcur := hshift.current u hcur
      rw [hon.place.1] at hcur
      cases hcur
    · intro hmem
      rcases hshift.ready u hmem with hr | ⟨-, hi⟩ | rfl | ⟨q, hi, -⟩
      · exact hready hr
      · cases hi
      · exact lt_irrefl _ hu
      · cases hi
    · intro hmem
      rcases hshift.timers u hmem with ht | ⟨-, x, hi⟩
      · rcases hdies.timers u hu hr with hb | hnot
        · rw [hk.code] at hb
          exact not_head (by simp) hb
        · exact hnot ht
      · cases hi
    · intro q hq
      rcases hshift.waits q u hq with hw | ⟨-, hi⟩
      · obtain ⟨o, ho⟩ := ne_none_iff_exists'.mp (hwaits _ hw rfl)
        rw [hcensus.proc u hu, ho, hloc.waits q u hw o ho]
        refine ⟨rfl, hcensus.zombie _ (hl.tables.procs u hu) ?_⟩
        rcases hdies.stage with hz | ⟨-, -, hb⟩
        · rw [hown.2]
          exact hz
        · have hb := hb u
          rw [hk.code] at hb
          exact absurd hb (not_head (by simp))
      · cases hi
  · rcases hon.effect hk with ⟨site, hi, -⟩ | ⟨-, hon'⟩
    · cases hi
    · exact .of_places hon'.place.2.1

omit hloc in
theorem Buried.doomed_exec (hu : u < s'.ntasks) (hr : (s'.task u).res = true)
    (hz : (s'.proc (s'.task u).proc).isZombie = true) :
    ∃ v, s'.cpu = some v ∧ s'.places v = 0 ∧ .takeRes u ∈ (s'.flow (some v)).code := by
  have hcensus := hon.census hk
  by_cases hlt : u < s.ntasks
  · have hr₀ : (s.task u).res = true := by
      by_contra hd
      rw [hcensus.dead u hlt (by simpa using hd)] at hr
      cases hr
    rw [hcensus.proc u hlt] at hz
    have hmem : s.places t = 0 ∧ .takeRes u ∈ (s.flow (some t)).code := by
      rcases hcensus.alive _ (hl.tables.procs u hlt) hz with hz | ⟨rfl, hp⟩
      · obtain ⟨v, hv, hpl, hmem⟩ := h.doomed u hlt hr₀ hz
        obtain rfl : t = v := some.inj (hk.cpu.symm.trans hv)
        exact ⟨hpl, hmem⟩
      · obtain rfl := hon.phase hk rfl
        have hpl := hon.place.2.1
        refine ⟨hpl, ?_⟩
        rcases (h.dies t hk.cpu hpl).stage with hz | ⟨-, hclear, -⟩
        · obtain ⟨v, hv, -, hmem⟩ := h.doomed u hlt hr₀ (by rw [hp]; exact hz)
          obtain rfl : t = v := some.inj (hk.cpu.symm.trans hv)
          exact hmem
        · exact ((hl.exits t hk.cpu hpl).takes u hlt hr₀ hp).mem (hclear (by simp [hk.code]))
    have hne : i ≠ .takeRes u := by
      intro hi
      rw [hcensus.taken u hi] at hr
      cases hr
    have hmem' : .takeRes u ∈ rest := by
      have hmem := hmem.2
      rw [hk.code] at hmem
      exact (mem_cons.mp hmem).resolve_left (Ne.symm hne)
    rcases hon.gone_exec hk hmem.1 with ⟨-, hnot⟩ | ⟨hcpu, hpl, hrest⟩
    · exact absurd hmem' (hnot u)
    · exact ⟨t, hcpu, hpl, by rw [hrest]; exact hmem'⟩
  · -- A new task is no thread of a zombie.
    exfalso
    rcases (hcensus.new u (by omega) hu).2 with ⟨rfl, hp⟩ | hnz
    · have hrun := h.runs hon hk.cpu (hon.runs hk rfl)
      rw [hp] at hz
      rcases hcensus.alive _ (hl.tables.procs t hon.lt) hz with hz | ⟨hi, -⟩
      · rw [hrun.2] at hz
        cases hz
      · cases hi
    · rw [hnz] at hz
      cases hz

omit hloc in
theorem Dies.exec (hcpu : s'.cpu = some t) (hpl : s'.places t = 0) : Dies s' t := by
  have hcensus := hon.census hk
  have hshift := hon.shift hk
  rcases hon.gone_cases hk hcpu hpl with ⟨code, rfl⟩ | ⟨⟨d, rfl⟩, hrest⟩
  · exact .exit (s := s.pop rest) hk.cpu hk.effect
  · have hdies := h.dies t hk.cpu hon.place.2.1
    obtain ⟨p', hn, -⟩ := hon.next hk.code
    constructor
    · intro u hu hr
      rw [hrest]
      by_cases hi : i = .removeTimer u
      · subst hi
        cases hk.effect
        right
        simp [onFlow]
      have hshift := hshift.timers u
      by_cases hlt : u < s.ntasks
      · have hr₀ : (s.task u).res = true := by
          by_contra hdead
          rw [hcensus.dead u hlt (by simpa using hdead)] at hr
          cases hr
        refine (hdies.timers u hlt hr₀).imp ?_ ?_
        · intro hb
          rw [hk.code] at hb
          exact hb.tail hi
        · intro hnot hmem
          rcases hshift hmem with ht | ⟨-, x, rfl⟩
          · exact hnot ht
          · simp [Point.next] at hn
      · right
        intro hmem
        rcases hshift hmem with ht | ⟨rfl, -⟩
        · exact hlt ((Sound.task hk.cpu ⟨_, hon⟩).lt_of_places (places_of_timers ht))
        · exact hlt hon.lt
    · rw [hcensus.proc t hon.lt]
      by_cases hi : i = .becomeZombie
      · subst hi
        cases hk.effect
        left
        simp [becomeZombie, setProc, onFlow]
      · rcases hdies.stage with hz | ⟨hb, hclear, htake⟩
        · exact .inl (hcensus.zombie _ (hl.tables.procs t hon.lt) hz)
        · right
          rw [hrest]
          rw [hk.code] at hb hclear htake
          refine ⟨hb.tail hi, ?_, fun u => (htake u).tail hi⟩
          intro hmem
          refine (mem_cons.mp (hclear (mem_cons_of_mem _ hmem))).resolve_left ?_
          rintro rfl
          exact not_head (by simp) hb

theorem Buried.exec (hok : s.recyclesCleanly .exec) : Buried s' := by
  have hcensus := hon.census hk
  refine ⟨?_, ?_, ?_⟩
  · intro u hu hd
    by_cases hlt : u < s.ntasks
    · cases hr : (s.task u).res with
      | false => exact Gone.exec h hl hloc hon hk hlt hr
      | true => exact Gone.taken h hl hloc hon hk hok hlt hr hd
    · rw [(hcensus.new u (by omega) hu).1] at hd
      cases hd
  · intro u hu hr hz
    exact Buried.doomed_exec h hl hon hk hu hr hz
  · intro v hv hpl
    obtain rfl := hon.stays hk hv
    exact Dies.exec h hl hon hk hv hpl

end Exec

/-! ## Interrupts and `run_tasks` -/

variable {e : KernelEvent}

/-- An interrupt handler finds no thread without resources. -/
theorem Buried.wakes (h : Buried s) (hs : s.handle e = some s') : Buried s' := by
  have hk := Wakes.handle hs
  have hsame := SameProcs.of_wakes hk
  constructor
  · intro u hu hd
    rw [hk.ntasks] at hu
    rw [hk.res] at hd
    have hgone := h.gone u hu hd
    refine ⟨?_, ?_, ?_, ?_⟩
    · rw [hk.current]
      exact hgone.current
    · intro hmem
      rcases handle_ready hs u hmem with hr | ht | ⟨q, hq, hw⟩
      · exact hgone.ready hr
      · exact hgone.timers ht
      · rw [(hgone.waits q hw).1] at hq
        cases hq
    · intro hmem
      obtain ⟨x, hx, rfl⟩ := List.mem_map.mp hmem
      exact hgone.timers (List.mem_map_of_mem (hk.timers hx))
    · intro q hq
      rw [hsame.proc, hsame.isZombie]
      exact hgone.waits q (hk.waits hq)
  · simpa only [hk.ntasks, hk.res, hsame.proc, hsame.isZombie, hk.cpu, hk.places, hk.flows] using h.doomed
  · intro t hc hpl
    rw [hk.cpu] at hc
    rw [hk.places] at hpl
    have hdies := h.dies t hc hpl
    constructor
    · intro u hu hr
      rw [hk.ntasks] at hu
      rw [hk.res] at hr
      rw [hk.flows]
      refine (hdies.timers u hu hr).imp id ?_
      intro hnot hmem
      obtain ⟨x, hx, rfl⟩ := List.mem_map.mp hmem
      exact hnot (List.mem_map_of_mem (hk.timers hx))
    · simpa only [hsame.proc, hsame.isZombie, hk.flows] using hdies.stage

theorem Buried.entry {code : List Instr} (h : Buried s) (hsound : Sound s) (hs : s.handle e = some s')
    (he : Entry s code) : Buried (s'.push code) := by
  have h' := h.wakes hs
  rcases hsound.entry_cases (.handle hs) he with rfl | hpos
  · rw [push_nil]
    exact h'
  · refine ⟨fun u hu hd => ?_, fun u hu hr hz => ?_, fun t hc hpl => absurd hpl (hpos t hc)⟩
    · have hgone := h'.gone u hu hd
      exact ⟨hgone.current, hgone.ready, hgone.timers, hgone.waits⟩
    · obtain ⟨t, hc, hpl, -⟩ := h'.doomed u hu hr hz
      exact absurd hpl (hpos t hc)

theorem Buried.idle (h : Buried s) (hon : OnIdle s) (hc : s.cpu = none) (hs : s.execNext = some s') : Buried s' := by
  have hsame := idle_sameProcs hc hs
  have hkeep : (∀ u, s'.current = some u → s.current = some u ∨ u ∈ s.readyQueue) → s'.readyQueue ⊆ s.readyQueue →
      s'.timers = s.timers → s'.waits = s.waits → Buried s' := by
    intro hcur hready htimers hwaits
    refine ⟨fun u hu hd => ?_, fun u hu hr hz => ?_, fun t ht hpl => ?_⟩
    · rw [hsame.ntasks] at hu
      rw [hsame.res] at hd
      have hgone := h.gone u hu hd
      refine ⟨fun hu => (hcur u hu).elim hgone.current hgone.ready, fun hu => hgone.ready (hready hu), ?_, ?_⟩
      · rw [htimers]
        exact hgone.timers
      · rw [hwaits, hsame.proc, hsame.isZombie]
        exact hgone.waits
    · rw [hsame.ntasks] at hu
      rw [hsame.res] at hr
      rw [hsame.proc, hsame.isZombie] at hz
      obtain ⟨t, ht, -⟩ := h.doomed u hu hr hz
      rw [hc] at ht
      cases ht
    · obtain ⟨hrun, rfl⟩ := hon.runs hc hs ht
      simp [places, hrun] at hpl
  rcases hon.move hc hs with ⟨hstill, -⟩ | ⟨t, rest, hready, -, rfl⟩ | ⟨t, -, rfl⟩
  · refine hkeep ?_ ?_ hstill.timers hstill.waits
    · rw [hstill.current]
      exact fun u hu => .inl hu
    · rw [hstill.readyQueue]
      exact Subset.refl _
  · refine hkeep ?_ ?_ rfl rfl
    · intro u hu
      obtain rfl : t = u := some.inj hu
      simp [hready]
    · rw [hready]
      exact subset_cons_self _ _
  · exact hkeep (fun u hu => .inl hu) (Subset.refl _) rfl rfl

theorem Buried.step (h : Buried s) (hsound : Sound s) (hl : Ledger s) (hloc : Local s)
    (hok : s.recyclesCleanly e) (hs : s.step e = some s') : Buried s' := by
  apply hsound.cases_step hs
  · rintro t φ i rest rfl hon hk
    exact Buried.exec h hl hloc hon hk hok
  · exact fun hon hc hs => h.idle hon hc hs
  · rintro s₁ code hhandle hentry rfl
    exact h.entry hsound hhandle hentry

theorem buried_boot (kind : Queue → MutexKind) (count : Queue → Int) : Buried (boot kind count) := by
  refine ⟨?_, ?_, ?_⟩
  · intro u _ hd
    cases hd
  · intro u _ _ hz
    cases hz
  · intro t hc
    cases hc

theorem buried_reach (h : (kernel.only recyclesCleanly).Reach s) : Buried s := by
  refine h.inv_reach Buried ?_ ?_
  · rintro s ⟨kind, count, rfl⟩
    exact buried_boot kind count
  · intro s e s' hreach hb hs
    obtain ⟨hok, hs⟩ := Machine.only_step.mp hs
    have hkernel := hreach.of_only
    exact hb.step (sound_reach hkernel) (ledger_reach hkernel) (local_reach hkernel) hok hs

end Sys

/-- While no thread loses its resources in the ready queue or in a wait queue that others can wake it from, a task in
    the ready queue or on the processor has its resources. Its process is no zombie, but for the time in which
    `exit_current_and_run_next` has not reached it yet. -/
theorem exited_tasks_never_run {s : Sys} {u : Nat} (h : (kernel.only Sys.recyclesCleanly).Reach s)
    (hu : u ∈ s.readyQueue ∨ s.current = some u) :
    (s.task u).res = true ∧
      ((s.proc (s.task u).proc).isZombie = true →
        ∃ t, s.cpu = some t ∧ s.places t = 0 ∧ .takeRes u ∈ (s.flow (some t)).code) ∧
      (s.SchedulePoint → (s.proc (s.task u).proc).isZombie = false) := by
  have hb := Sys.buried_reach h
  have hlt : u < s.ntasks := by
    refine (Sys.sound_reach h.of_only).lt_of_places ?_
    rcases hu with hu | hu
    · have hpos := count_pos_iff.mpr hu
      unfold Sys.places
      omega
    · simp [Sys.places, hu]
  have hres : (s.task u).res = true := by
    by_contra hd
    have hgone := hb.gone u hlt (by simpa using hd)
    exact hu.elim hgone.ready hgone.current
  refine ⟨hres, hb.doomed u hlt hres, ?_⟩
  intro hpoint
  by_contra hz
  obtain ⟨t, hc, -, hmem⟩ := hb.doomed u hlt hres (by simpa using hz)
  rw [Sys.SchedulePoint, hc] at hpoint
  rw [hpoint] at hmem
  cases hmem

/-- The thread that an instruction takes the resources from. -/
def Instr.victim : Instr → Option Nat
  | .takeRes u => some u
  | _ => none

theorem Instr.victim_eq_some {i : Instr} {u : Nat} : i.victim = some u ↔ i = .takeRes u := by
  cases i <;> simp [victim]

instance (s : Sys) : (e : KernelEvent) → Decidable (s.recyclesCleanly e)
  | .exec =>
    decidable_of_iff (∀ u ∈ (s.flow s.cpu).code.head?.bind Instr.victim, (s.task u).res = true →
        u ∉ s.readyQueue ∧ ∀ x ∈ s.waits, x.2 = u → x.1.owner ≠ none) <| by
      simp [Sys.recyclesCleanly, Option.bind_eq_some_iff, Instr.victim_eq_some]
  | .loop | .call .. | .fault _ | .timer .. | .device .. => .isTrue trivial

/-- The first process forks, and the child creates a thread, which gets the processor. -/
def childThread : List KernelEvent :=
  List.flatten [loopFor 7, callFor .fork 9, callFor .yield 6, loopFor 7, callFor .threadCreate 9, callFor .yield 6, loopFor 8,
    callFor .yield 6, loopFor 7]

/-- A main thread exits while another thread of its process waits for a semaphore. -/
theorem exited_tasks_never_run_semaphore : ∃ s : Sys, kernel.Reach s ∧ s.SchedulePoint ∧ s.waits.map (·.2) = [2] ∧
    (s.task 2).res = false ∧ (s.proc (s.task 2).proc).isZombie = true ∧ s.readyQueue = [0] ∧
    (s.task 0).res = true ∧ (s.proc (s.task 0).proc).isZombie = false := by
  have hrun : ∃ s ∈ kernel.runOnly Sys.recyclesCleanly bootSpin
      (List.flatten [childThread, callFor (.semaphoreDown 0) 11, loopFor 8, callFor (.exit 0) 30]),
      s.SchedulePoint ∧ s.waits.map (·.2) = [2] ∧ (s.task 2).res = false ∧
        (s.proc (s.task 2).proc).isZombie = true ∧ s.readyQueue = [0] := by decide +kernel
  obtain ⟨s, hreach, hpoint, hwaits, hres, hz, hready⟩ := (boot_reach_only _ _).exists_runOnly hrun
  have hzero := exited_tasks_never_run hreach (u := 0) (.inl (by simp [hready]))
  exact ⟨s, hreach.of_only, hpoint, hwaits, hres, hz, hready, hzero.1, hzero.2.2 hpoint⟩

/-- Parent and child share an eventfd. A thread of the child waits for it when the main thread of the child exits;
    the parent writes, and the thread is in the ready queue. -/
theorem exited_thread_is_woken : ∃ s : Sys, kernel.Reach s ∧ s.SchedulePoint ∧ s.readyQueue = [2] ∧
    (s.task 2).res = false ∧ (s.proc (s.task 2).proc).isZombie = true := by
  have hrun : ∃ s ∈ kernel.run bootSpin
      (List.flatten [loopFor 7, callFor (.eventfd 0 false false) 7,
        callFor .fork 9, callFor .yield 6, loopFor 7, callFor .threadCreate 9, callFor .yield 6, loopFor 8, callFor .yield 6,
        loopFor 7, callFor (.readEventfd 0) 11, loopFor 8, callFor (.exit 0) 30, loopFor 8, callFor (.writeEventfd 0 1) 14]),
      s.SchedulePoint ∧ s.readyQueue = [2] ∧ (s.task 2).res = false ∧ (s.proc (s.task 2).proc).isZombie = true := by
    decide +kernel
  exact (boot_reach _ _).exists_run hrun

end TCore.Kernel
