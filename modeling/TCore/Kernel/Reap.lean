/-
  TCore.Kernel.Reap — `sys_waitpid` and the last reference to a process.

  Strong references to a process control block are in the `children` of its parent, in `PID2PCB`
  and in local variables of the system calls of its own threads. `sys_waitpid` asserts that the
  one it takes out of `children` is the last. A thread that is blocked in a system call when its
  main thread exits keeps its local variables for ever. `sys_sleep` and `sys_mutex_lock` have
  dropped `process` by then; `sys_semaphore_down`, `sys_condvar_wait`, `sys_read` and `sys_write`
  have not (`waitpid_panics`).

  - `Family`: every process is the child of at most one other, once, and has at most one pid.
  - `Released`: a process that is a zombie has left `PID2PCB`, and threads without resources have
    no reference to it.
-/

import TCore.Kernel.Exited

namespace TCore.Kernel

open TCore.Lib
open Function (update update_apply)
open List Option Sys

theorem before_exitProcess_pid (p : Nat) (threads : List Nat) :
    Before .leavePid .becomeZombie (exitProcess p threads) := by
  unfold exitProcess
  simp [Before]

/-- The instructions that change the process tree or `PID2PCB`. -/
def Instr.changesFamily : Instr → Bool
  | .fork | .waitpid _ | .leavePid | .becomeZombie => true
  | _ => false

namespace Sys

variable {s s' : Sys} {t u : Nat} {φ : Phase} {i : Instr} {rest : List Instr}

/-! ## The process tree -/

structure Family (s : Sys) : Prop where
  initproc : 0 < s.nprocs
  pids : s.pid2pcb.Nodup
  pid : ∀ p ∈ s.pid2pcb, p < s.nprocs
  child : ∀ q c, q < s.nprocs → c ∈ (s.proc q).children → c < s.nprocs
  once : ∀ q, q < s.nprocs → (s.proc q).children.Nodup
  parent : ∀ q r c, q < s.nprocs → r < s.nprocs → c ∈ (s.proc q).children → c ∈ (s.proc r).children → q = r

structure SameFamily (s s' : Sys) : Prop where
  nprocs : s'.nprocs = s.nprocs
  children : ∀ p, (s'.proc p).children = (s.proc p).children
  pid2pcb : s'.pid2pcb = s.pid2pcb

theorem SameProcs.family (h : SameProcs s s') : SameFamily s s' := ⟨h.nprocs, h.children, h.pid2pcb⟩

theorem Family.same (h : Family s) (hs : SameFamily s s') : Family s' := by
  constructor
  · rw [hs.nprocs]
    exact h.initproc
  · rw [hs.pid2pcb]
    exact h.pids
  · rw [hs.pid2pcb, hs.nprocs]
    exact h.pid
  · simpa only [hs.nprocs, hs.children] using h.child
  · simpa only [hs.nprocs, hs.children] using h.once
  · simpa only [hs.nprocs, hs.children] using h.parent

variable {p : Nat}

/-- One process changes, and keeps its children. -/
theorem SameFamily.update {b : ProcessControlBlock} (hn : s'.nprocs = s.nprocs) (hpid : s'.pid2pcb = s.pid2pcb)
    (hp : s'.proc = Function.update s.proc p b) (hb : b.children = (s.proc p).children) : SameFamily s s' := by
  refine ⟨hn, fun q => ?_, hpid⟩
  rw [hp, update_apply]
  split
  · rename_i hq
    rw [hq, hb]
  · rfl

theorem OnTask.sameFamily (h : OnTask s t φ) (hk : s.Takes t i rest s') (hi : i.changesFamily = false) : SameFamily s s' := by
  have hs := hk.effect
  cases hp : i.changesProcs with
  | false => exact (h.sameProcs hk hp).family
  | true =>
    cases i with
    | spawn =>
      cases hs
      exact .update rfl rfl rfl rfl
    | reap tid =>
      cases hs
      rcases (s.pop rest).reap_cases ((s.pop rest).task t).proc tid with heq | ⟨w, -, -, heq⟩ <;> rw [heq]
      · exact ⟨rfl, fun _ => rfl, rfl⟩
      · exact .update rfl rfl rfl rfl
    | exit code =>
      obtain ⟨-, s₁, tids, rfl, -, rfl⟩ := exit_some hs
      exact .update rfl rfl rfl rfl
    | takeRes u =>
      obtain ⟨tids, rfl⟩ := takeRes_some hs
      exact .update rfl rfl rfl rfl
    | clearTasks =>
      cases hs
      exact .update rfl rfl rfl rfl
    | fork | waitpid _ | leavePid | becomeZombie => cases hi
    | _ => cases hp

theorem Family.fork (h : Family s) (hp : p < s.nprocs) (hs : s.fork p = some s') : Family s' := by
  obtain ⟨-, ⟨⟩⟩ := ite_none_right_eq_some.mp hs
  obtain ⟨hroot, hpids, hpid, hchild, honce, hparent⟩ := h
  have hfresh : ∀ q, q < s.nprocs → s.nprocs ∉ (s.proc q).children := fun q hq hmem => lt_irrefl _ (hchild q _ hq hmem)
  have hfresh' : s.nprocs ∉ s.pid2pcb := fun hmem => lt_irrefl _ (hpid _ hmem)
  have happend : (s.proc p).children.Nodup → ((s.proc p).children ++ [s.nprocs]).Nodup := by
    intro hnd
    exact nodup_append'.mpr ⟨hnd, nodup_singleton _, by simpa using hfresh p hp⟩
  constructor <;> simp only [addTask, setProc, update_apply]
  · omega
  · exact nodup_append'.mpr ⟨hpids, nodup_singleton _, by simpa using hfresh'⟩
  · intro q hq
    rcases mem_append.mp hq with hq | hq
    · exact (hpid q hq).trans (Nat.lt_succ_self _)
    · rw [mem_singleton.mp hq]
      exact Nat.lt_succ_self _
  · grind
  · grind
  · grind

theorem Family.becomeZombie (h : Family s) (hp : p < s.nprocs) : Family (s.becomeZombie p) := by
  obtain ⟨hroot, hpids, hpid, hchild, honce, hparent⟩ := h
  have happend : p ≠ 0 → ((s.proc 0).children ++ (s.proc p).children).Nodup := by
    intro hne
    refine nodup_append'.mpr ⟨honce 0 hroot, honce p hp, ?_⟩
    intro c h0 hc
    exact hne (hparent p 0 c hp hroot hc h0)
  constructor <;> simp only [Sys.becomeZombie, setProc, update_apply]
  · exact hroot
  · exact hpids
  · exact hpid
  · grind
  · grind
  · grind

theorem Family.effect (h₀ : Family s) (hp : (s.task t).proc < s.nprocs) (hon : OnTask s t φ) (hk : s.Takes t i rest s') :
    Family s' := by
  have hs := hk.effect
  cases hi : i.changesFamily with
  | false => exact h₀.same (hon.sameFamily hk hi)
  | true =>
    have h : Family (s.pop rest) := h₀.same (SameProcs.pop rest).family
    cases i with
    | fork => exact h.fork hp hs
    | becomeZombie =>
      cases hs
      exact h.becomeZombie hp
    | leavePid =>
      obtain ⟨-, ⟨⟩⟩ := ite_none_right_eq_some.mp hs
      exact ⟨h.initproc, h.pids.erase _, fun p hmem => h.pid p (mem_of_mem_erase hmem), h.child, h.once, h.parent⟩
    | waitpid pid =>
      rcases waitpid_some hs with rfl | ⟨c, rfl⟩
      · exact h
      · obtain ⟨hroot, hpids, hpid, hchild, honce, hparent⟩ := h
        constructor <;> simp only [setProc, update_apply]
        · exact hroot
        · exact hpids
        · exact hpid
        · grind [mem_of_mem_erase]
        · grind
        · grind [mem_of_mem_erase]
    | _ => cases hi

/-- Only `fork` adds a process. -/
theorem OnTask.pids (h : OnTask s t φ) (hk : s.Takes t i rest s') :
    i = .fork ∨ s'.nprocs = s.nprocs ∧ s'.pid2pcb ⊆ s.pid2pcb := by
  have hs := hk.effect
  cases hi : i.changesFamily with
  | false =>
    have hsame := h.sameFamily hk hi
    exact .inr ⟨hsame.nprocs, by rw [hsame.pid2pcb]; exact Subset.refl _⟩
  | true =>
    cases i with
    | fork => exact .inl rfl
    | waitpid pid => rcases waitpid_some hs with rfl | ⟨c, rfl⟩ <;> exact .inr ⟨rfl, Subset.refl _⟩
    | leavePid =>
      obtain ⟨-, ⟨⟩⟩ := ite_none_right_eq_some.mp hs
      exact .inr ⟨rfl, erase_subset⟩
    | becomeZombie =>
      cases hs
      exact .inr ⟨rfl, Subset.refl _⟩
    | _ => cases hi

/-! ## References of threads that have exited -/

structure Released (s : Sys) : Prop where
  zombie : ∀ p, p < s.nprocs → (s.proc p).isZombie = true → p ∉ s.pid2pcb
  leaves : ∀ t, s.cpu = some t → s.places t = 0 →
    Before .leavePid .becomeZombie (s.flow (some t)).code ∨ (s.task t).proc ∉ s.pid2pcb
  exiting : ∀ t, s.cpu = some t → (s.task t).res = false → s.places t = 0
  arcs : ∀ u, u < s.ntasks → (s.task u).res = false → s.cpu ≠ some u → (s.flow (some u)).arcs = 0

/-- No thread loses its resources where others can wake it, or while it has a reference to its process. -/
def releasesProcess (s : Sys) : KernelEvent → Prop
  | .exec => s.recyclesCleanly .exec ∧ ∀ u, (s.flow s.cpu).code.head? = some (.takeRes u) → (s.task u).res = true →
      (s.flow (some u)).arcs = 0
  | _ => True

variable {e : KernelEvent}

theorem releasesProcess.cleanly (h : s.releasesProcess e) : s.recyclesCleanly e := by
  cases e with
  | exec => exact h.1
  | loop | call _ _ _ | fault _ | timer _ _ | device _ _ => trivial

section Exec

variable (h : Released s) (hf : Family s) (hon : OnTask s t φ) (hk : s.Takes t i rest s')
include h hon hk

theorem Released.zombie_exec (hp : p < s'.nprocs) (hz : (s'.proc p).isZombie = true) : p ∉ s'.pid2pcb := by
  have hcensus := hon.census hk
  rcases hon.pids hk with rfl | ⟨hn, hsub⟩
  · obtain ⟨-, ⟨⟩⟩ := ite_none_right_eq_some.mp hk.effect
    simp only [addTask, setProc, onFlow, update_apply] at hp hz ⊢
    have hzombie := h.zombie p
    grind
  · rw [hn] at hp
    intro hmem
    rcases hcensus.alive p hp hz with hz | ⟨rfl, rfl⟩
    · exact h.zombie p hp hz (hsub hmem)
    · obtain rfl := hon.phase hk rfl
      rcases h.leaves t hk.cpu hon.place.2.1 with hb | hnot
      · rw [hk.code] at hb
        exact Before.not_head (by simp) hb
      · exact hnot (hsub hmem)

include hf in
theorem Released.leaves_exec (hcpu : s'.cpu = some t) (hpl : s'.places t = 0) :
    Before .leavePid .becomeZombie (s'.flow (some t)).code ∨ (s'.task t).proc ∉ s'.pid2pcb := by
  have hcensus := hon.census hk
  rcases hon.gone_cases hk hcpu hpl with ⟨code, rfl⟩ | ⟨⟨d, rfl⟩, hrest⟩
  · obtain ⟨-, hk.code'⟩ := exit_drops (s := s.pop rest) hk.cpu hk.effect
    rw [hk.code']
    split
    · exact .inl (before_exitProcess_pid _ _)
    · exact .inl (.of_not_mem (by simp [exitThread]))
  · obtain ⟨p', hn, -⟩ := hon.next hk.code
    rw [hrest, hcensus.proc t hon.lt]
    by_cases hi : i = .leavePid
    · subst hi
      obtain ⟨-, ⟨⟩⟩ := ite_none_right_eq_some.mp hk.effect
      exact .inr (hf.pids.not_mem_erase)
    · refine (h.leaves t hk.cpu hon.place.2.1).imp ?_ ?_
      · intro hb
        rw [hk.code] at hb
        exact hb.tail hi
      · intro hnot hmem
        rcases hon.pids hk with rfl | ⟨-, hsub⟩
        · simp [Point.next] at hn
        · exact hnot (hsub hmem)

theorem Released.exiting_exec (hcpu : s'.cpu = some t) (hd : (s'.task t).res = false) : s'.places t = 0 := by
  have hcensus := hon.census hk
  have hgone : s.places t = 0 → s'.places t = 0 := by
    intro hpl
    rcases hon.gone_exec hk hpl with ⟨rfl, -⟩ | ⟨-, hpl', -⟩
    · cases hk.effect
      cases hcpu
    · exact hpl'
  cases hr : (s.task t).res with
  | false => exact hgone (h.exiting t hk.cpu hr)
  | true =>
    rcases hcensus.dies t hon.lt hr hd with rfl | ⟨-, code, rfl⟩
    · obtain rfl := hon.phase hk rfl
      exact hgone hon.place.2.1
    · rcases hon.effect hk with ⟨site, hi, -⟩ | ⟨-, hon'⟩
      · cases hi
      · exact hon'.place.2.1

theorem Released.arcs_exec (hok : s.releasesProcess .exec) (hu : u < s'.ntasks) (hd : (s'.task u).res = false)
    (hcpu : s'.cpu ≠ some u) : (s'.flow (some u)).arcs = 0 := by
  have hcensus := hon.census hk
  by_cases hut : u = t
  · -- The last `schedule` of a thread that has exited.
    subst hut
    rcases hon.effect hk with ⟨site, rfl, -⟩ | ⟨hcpu', -⟩
    · cases hk.effect
      obtain ⟨p', hn, -⟩ := hon.next hk.code
      obtain ⟨d, rfl⟩ := hon.place.gone (h.exiting u hk.cpu hd)
      cases site with
      | exit =>
        obtain ⟨hp, -⟩ := ite_none_right_eq_some.mp hn
        have harcs := (Point.mk.injEq ..).mp hp
        simpa [onFlow, hk.cpu] using harcs.2.1
      | suspend | block | uart | disk => simp [Point.next] at hn
    · exact absurd hcpu' hcpu
  · rcases hon.others hk hut hu with ⟨hlt, hflow⟩ | ⟨-, hflow⟩
    · rw [hflow]
      cases hr : (s.task u).res with
      | false => exact h.arcs u hlt hr (by rw [hk.cpu]; simpa using Ne.symm hut)
      | true =>
        rcases hcensus.dies u hlt hr hd with rfl | ⟨rfl, -⟩
        · exact hok.2 u (by simp [hk.cpu, hk.code]) hr
        · exact absurd rfl hut
    · rw [hflow]

include hf in
theorem Released.exec (hok : s.releasesProcess .exec) : Released s' := by
  refine ⟨fun p hp hz => h.zombie_exec hon hk hp hz, ?_, ?_,
    fun u hu hd hcpu => h.arcs_exec hon hk hok hu hd hcpu⟩
  · intro v hv hpl
    obtain rfl := hon.stays hk hv
    exact h.leaves_exec hf hon hk hv hpl
  · intro v hv hd
    obtain rfl := hon.stays hk hv
    exact h.exiting_exec hon hk hv hd

end Exec

/-! ## Every step -/

theorem Released.wakes (h : Released s) (hk : Wakes s s') : Released s' := by
  have hsame := SameProcs.of_wakes hk
  constructor
  · simpa only [hsame.nprocs, hsame.isZombie, hsame.pid2pcb] using h.zombie
  · simpa only [hk.cpu, hk.places, hk.flows, hsame.proc, hsame.pid2pcb] using h.leaves
  · simpa only [hk.cpu, hk.places, hk.res] using h.exiting
  · simpa only [hk.ntasks, hk.res, hk.cpu, hk.flows] using h.arcs

theorem Released.entry {code : List Instr} (h : Released s) (hsound : Sound s) (hs : s.handle e = some s')
    (he : Entry s code) : Released (s'.push code) := by
  have h' := h.wakes (.handle hs)
  rcases hsound.entry_cases (.handle hs) he with rfl | hpos
  · rw [push_nil]
    exact h'
  · refine ⟨h'.zombie, fun t hc hpl => absurd hpl (hpos t hc), h'.exiting, ?_⟩
    intro u hu hd hcpu
    rw [(Still.push (s := s') code).flow (some u) (Ne.symm hcpu)]
    exact h'.arcs u hu hd hcpu

theorem Released.idle (h : Released s) (hb : Buried s) (hon : OnIdle s) (hc : s.cpu = none) (hs : s.execNext = some s') :
    Released s' := by
  have hsame := idle_sameProcs hc hs
  have hflow : ∀ u, s'.flow (some u) = s.flow (some u) := by
    intro u
    rcases hon.move hc hs with ⟨hstill, -⟩ | ⟨t, rest, -, -, rfl⟩ | ⟨t, -, rfl⟩
    · exact hstill.flow _ (by simp [hc])
    · simp
    · simp
  refine ⟨?_, ?_, ?_, ?_⟩
  · simpa only [hsame.nprocs, hsame.isZombie, hsame.pid2pcb] using h.zombie
  · intro t ht hpl
    obtain ⟨hcur, rfl⟩ := hon.runs hc hs ht
    simp [places, hcur] at hpl
  · intro t ht hd
    have hcur := (hon.runs hc hs ht).1
    have hlt : t < s.ntasks := (Sound.idle hc hon).lt_of_places (by simp [places, hcur])
    rw [hsame.res] at hd
    exact absurd hcur (hb.gone t hlt hd).current
  · intro u hu hd _
    rw [hflow]
    exact h.arcs u (hsame.ntasks ▸ hu) (hsame.res u ▸ hd) (by simp [hc])

theorem Family.step (h : Family s) (hl : Ledger s) (hsound : Sound s) (hs : s.step e = some s') :
    Family s' := by
  rcases hsound.step_procs hs with hsame | ⟨t, φ, i, rest, hon, hk⟩
  · exact h.same hsame.family
  · exact h.effect (hl.tables.procs t hon.lt) hon hk

theorem Released.step (h : Released s) (hf : Family s) (hb : Buried s) (hsound : Sound s)
    (hok : s.releasesProcess e) (hs : s.step e = some s') : Released s' := by
  apply hsound.cases_step hs
  · rintro t φ i rest rfl hon hk
    exact h.exec hf hon hk hok
  · exact fun hon hc hs => h.idle hb hon hc hs
  · rintro s₁ code hhandle hentry rfl
    exact h.entry hsound hhandle hentry

theorem family_boot (kind : Queue → MutexKind) (count : Queue → Int) : Family (boot kind count) := by
  constructor <;> simp [boot]

theorem family_reach (h : kernel.Reach s) : Family s := by
  refine h.inv_reach Family ?_ fun s e s' hreach hf hs => hf.step (ledger_reach hreach) (sound_reach hreach) hs
  rintro s ⟨kind, count, rfl⟩
  exact family_boot kind count

theorem released_boot (kind : Queue → MutexKind) (count : Queue → Int) : Released (boot kind count) := by
  constructor <;> simp [boot]

structure Reapable (s : Sys) : Prop where
  sound : Sound s
  ledger : Ledger s
  buried : Buried s
  family : Family s
  released : Released s

theorem reapable_reach (h : (kernel.only releasesProcess).Reach s) : Reapable s := by
  have hcleanly := h.only_imp fun s e hok => hok.cleanly
  refine ⟨sound_reach h.of_only, ledger_reach h.of_only, buried_reach hcleanly, family_reach h.of_only, ?_⟩
  refine h.inv_reach Released ?_ ?_
  · rintro s ⟨kind, count, rfl⟩
    exact released_boot kind count
  · intro s e s' hreach hr hs
    obtain ⟨hok, hs⟩ := Machine.only_step.mp hs
    have hb := buried_reach (hreach.only_imp fun s e hok => hok.cleanly)
    exact hr.step (family_reach hreach.of_only) hb (sound_reach hreach.of_only) hok hs

/-! ## The references to a zombie -/

theorem Family.count_children {q c : Nat} (h : Family s) (hq : q < s.nprocs) (hc : c ∈ (s.proc q).children) :
    ((List.range s.nprocs).map fun r => (s.proc r).children.count c).sum = 1 := by
  have hcount : (List.range s.nprocs).map (fun r => (s.proc r).children.count c) =
      (List.range s.nprocs).map fun r => if r = q then 1 else 0 := by
    refine map_congr_left fun r hr => ?_
    split
    · subst r
      exact count_eq_one_of_mem (h.once q hq) hc
    · rename_i hne
      exact count_eq_zero.mpr fun hmem => hne (h.parent r q c (mem_range.mp hr) hq hmem hc)
  rw [hcount]
  change ∑ r ∈ Finset.range s.nprocs, (if r = q then 1 else 0) = 1
  simp [hq]

theorem Reapable.arcs (h : Reapable s) (hc : s.cpu = some t) (hcur : s.current = some t)
    (hz : (s.proc p).isZombie = true) :
    ((List.range s.ntasks).map fun u => if (s.task u).proc = p then (s.flow (some u)).arcs else 0).sum = 0 := by
  rw [sum_eq_zero]
  intro n hn
  obtain ⟨u, hu, rfl⟩ := List.mem_map.mp hn
  have hu := mem_range.mp hu
  split
  · rename_i hp
    obtain ⟨φ, hon⟩ := h.sound.on hc
    obtain ⟨hres, hlive⟩ := h.buried.runs hon hc hcur
    have hd : (s.task u).res = false := by
      by_contra hr
      obtain ⟨v, hv, hpl, -⟩ := h.buried.doomed u hu (by simpa using hr) (by rw [hp]; exact hz)
      obtain rfl : t = v := some.inj (hc.symm.trans hv)
      simp [places, hcur] at hpl
    refine h.released.arcs u hu hd ?_
    rw [hc]
    rintro ⟨⟩
    rw [hres] at hd
    cases hd
  · rfl

end Sys

/-- While no thread loses its resources where others can wake it, or with a reference to its process in a local
    variable, the reference that `sys_waitpid` takes out of `children` is the last one. -/
theorem reap_takes_last_reference {s : Sys} {t c : Nat} {pid : Option Nat} {rest : List Instr}
    (h : (kernel.only Sys.releasesProcess).Reach s) (hc : s.cpu = some t)
    (hcode : (s.flow (some t)).code = .waitpid pid :: rest) (hz : s.zombieChild (s.task t).proc pid = some c) :
    s.strongProc c = 1 := by
  have hr := Sys.reapable_reach h
  obtain ⟨φ, hon⟩ := hr.sound.on hc
  have hcur : s.current = some t := by
    obtain ⟨p', hn, -⟩ := hon.next hcode
    obtain ⟨hφ, -⟩ := ite_none_right_eq_some.mp hn
    obtain rfl : φ = .run := hφ
    exact hon.place.1
  have hp := hr.ledger.tables.procs t hon.lt
  have hchild := mem_of_find?_eq_some hz
  have hzombie : (s.proc c).isZombie = true := by
    have hsel := find?_some hz
    simp only [Bool.and_eq_true] at hsel
    exact hsel.1
  have hpid := hr.released.zombie c (hr.family.child _ c hp hchild) hzombie
  rw [Sys.strongProc, hr.family.count_children hp hchild, hr.arcs hc hcur hzombie, count_eq_zero.mpr hpid]

instance (s : Sys) : (e : KernelEvent) → Decidable (s.releasesProcess e)
  | .exec =>
    decidable_of_iff (s.recyclesCleanly .exec ∧ ∀ u ∈ (s.flow s.cpu).code.head?.bind Instr.victim,
        (s.task u).res = true → (s.flow (some u)).arcs = 0) <| by
      simp [Sys.releasesProcess, Option.bind_eq_some_iff, Instr.victim_eq_some]
  | .loop | .call .. | .fault _ | .timer .. | .device .. => .isTrue trivial

/-- The task on the processor is about to look for a zombie child. -/
def Sys.atWaitpid (s : Sys) (t : Nat) : Bool :=
  match (s.flow (some t)).code with
  | .waitpid none :: _ => s.cpu == some t
  | _ => false

theorem Sys.atWaitpid_eq_true {s : Sys} {t : Nat} (h : s.atWaitpid t = true) :
    s.cpu = some t ∧ ∃ rest, (s.flow (some t)).code = .waitpid none :: rest := by
  unfold atWaitpid at h
  split at h
  · rename_i rest hcode
    exact ⟨by simpa using h, rest, hcode⟩
  · cases h

/-- A main thread exits while another thread of its process sleeps, and the parent waits for it. -/
theorem reap_takes_last_reference_sleeper : ∃ s : Sys, kernel.Reach s ∧ s.atWaitpid 0 = true ∧ (s.task 2).proc = 1 ∧
    (s.task 2).res = false ∧ s.zombieChild (s.task 0).proc none = some 1 ∧ s.strongProc 1 = 1 := by
  have hrun : ∃ s ∈ kernel.runOnly Sys.releasesProcess bootSpin
      (List.flatten [childThread, callFor (.sleep 10) 9, loopFor 8, callFor (.exit 0) 30, loopFor 8, callFor (.waitpid none) 2]),
      s.atWaitpid 0 = true ∧ (s.task 2).proc = 1 ∧ (s.task 2).res = false ∧
        s.zombieChild (s.task 0).proc none = some 1 := by decide +kernel
  obtain ⟨s, hreach, hat, hp, hres, hz⟩ := (boot_reach_only _ _).exists_runOnly hrun
  obtain ⟨hcpu, rest, hcode⟩ := Sys.atWaitpid_eq_true hat
  exact ⟨s, hreach.of_only, hat, hp, hres, hz, reap_takes_last_reference hreach hcpu hcode hz⟩

/-- The other thread waits for a semaphore, with `process` still in a variable of `sys_semaphore_down`: the assertion
    of `sys_waitpid` fails. -/
theorem waitpid_panics : ∃ s : Sys, kernel.Reach s ∧ s.atWaitpid 0 = true ∧
    s.zombieChild (s.task 0).proc none = some 1 ∧ s.strongProc 1 = 2 ∧ (kernel.step s .exec).isNone = true := by
  have hrun : ∃ s ∈ kernel.run bootSpin
      (List.flatten [childThread, callFor (.semaphoreDown 0) 11, loopFor 8, callFor (.exit 0) 30, loopFor 8, callFor (.waitpid none) 2]),
      s.atWaitpid 0 = true ∧ s.zombieChild (s.task 0).proc none = some 1 ∧ s.strongProc 1 = 2 ∧
        (kernel.step s .exec).isNone = true := by decide +kernel
  exact (boot_reach _ _).exists_run hrun

end TCore.Kernel
