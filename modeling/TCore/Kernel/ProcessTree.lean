/-
  TCore.Kernel.ProcessTree — process ids, parents and children (task/process.rs, task/mod.rs,
  syscall/process.rs).

  The operations are `fork`, the exit of a main thread and a `sys_waitpid` whose assertion holds;
  each runs without a schedule point. A process that exits leaves `PID2PCB` and hands its children
  to the initial process; `sys_waitpid` takes a zombie out of `children`, and with the last
  reference to it the process id goes back to `PID_ALLOCATOR`.

  Processes are numbered in the order of their creation and the initial process is 0. `reaped`
  keeps the history: who was waited for by whom, with the exit code that was returned.
-/

import TCore.Kernel.Tables

namespace TCore.Kernel

open TCore.Lib
open Function (update update_apply)
open List Option

structure Pcb where
  pid : Nat
  isZombie : Bool
  exitCode : Int
  parent : Option Nat
  children : List Nat

structure Reaped where
  waiter : Nat
  child : Nat
  exitCode : Int
  deriving DecidableEq

structure TreeState where
  pids : RecycleAllocator
  pcb : Nat → Pcb
  nprocs : Nat
  pid2pcb : Nat → Option Nat
  reaped : List Reaped

inductive TreeEvent where
  | fork (p : Nat)
  | exit (p : Nat) (code : Int)
  | waitpid (p : Nat) (pid : Int)

namespace TreeState

/-- `INITPROC`. -/
def start : TreeState := ⟨⟨1, []⟩, fun _ => ⟨0, false, 0, none, []⟩, 1, update (fun _ => none) 0 (some 0), []⟩

/-- The process has been created and not been reaped. -/
def exists_ (s : TreeState) (p : Nat) : Bool := p < s.nprocs && !(s.reaped.map (·.child)).contains p

def running (s : TreeState) (p : Nat) : Bool := s.exists_ p && !(s.pcb p).isZombie

def setPcb (s : TreeState) (p : Nat) (f : Pcb → Pcb) : TreeState := { s with pcb := update s.pcb p (f (s.pcb p)) }

def fork (s : TreeState) (p : Nat) : TreeState :=
  { s with
    pids := s.pids.alloc.2
    pcb := update (update s.pcb p { s.pcb p with children := (s.pcb p).children ++ [s.nprocs] }) s.nprocs
      ⟨s.pids.alloc.1, false, 0, some p, []⟩
    nprocs := s.nprocs + 1
    pid2pcb := update s.pid2pcb s.pids.alloc.1 (some s.nprocs) }

/-- A child goes to the initial process. -/
def adopt (s : TreeState) (c : Nat) : TreeState :=
  (s.setPcb c fun b => { b with parent := some 0 }).setPcb 0 fun b => { b with children := b.children ++ [c] }

/-- `exit_current_and_run_next` of a main thread; `none` is the panic of `remove_from_pid2process` or, for the initial
    process, the end of the machine. -/
def exit (s : TreeState) (p : Nat) (code : Int) : Option TreeState :=
  if (s.pcb p).pid = 0 then none
  else
    match s.pid2pcb (s.pcb p).pid with
    | none => none
    | some _ =>
      let s := { s with pid2pcb := update s.pid2pcb (s.pcb p).pid none }
      let s := s.setPcb p fun b => { b with isZombie := true, exitCode := code }
      let s := (s.pcb p).children.foldl adopt s
      some (s.setPcb p fun b => { b with children := [] })

/-- `pid == -1 || pid as usize == p.getpid()`. -/
def selects (s : TreeState) (pid : Int) (c : Nat) : Bool := pid = -1 || pid % 2 ^ 64 = (s.pcb c).pid

/-- A zombie is taken out of the children of `p`, and its id goes back. -/
def reap (s : TreeState) (p c : Nat) (pids : RecycleAllocator) : TreeState :=
  { s.setPcb p (fun b => { b with children := b.children.erase c }) with
    pids := pids, reaped := s.reaped ++ [⟨p, c, (s.pcb c).exitCode⟩] }

/-- `sys_waitpid` by process `p`, with what it returns; `none` is a panic of `PidHandle::drop`. -/
def waitpid (s : TreeState) (p : Nat) (pid : Int) : Option (TreeState × Int) :=
  if !(s.pcb p).children.any (s.selects pid) then some (s, -1)
  else
    match (s.pcb p).children.find? fun c => (s.pcb c).isZombie && s.selects pid c with
    | none => some (s, -2)
    | some c => (s.pids.dealloc (s.pcb c).pid).map fun pids => (s.reap p c pids, (s.pcb c).pid)

def step (s : TreeState) : TreeEvent → Option TreeState
  | .fork p => if s.running p then some (s.fork p) else none
  | .exit p code => if s.running p then s.exit p code else none
  | .waitpid p pid => if s.running p then (s.waitpid p pid).map (·.1) else none

end TreeState

def processes : Machine TreeState TreeEvent where
  init s := s = TreeState.start
  step := TreeState.step

namespace TreeState

variable {s s' : TreeState} {p c : Nat}

/-! ## The invariant -/

structure Tree (s : TreeState) : Prop where
  initproc : 0 < s.nprocs ∧ s.running 0 = true ∧ (s.pcb 0).pid = 0
  /-- Two processes that have not been reaped have different ids. -/
  distinct : ∀ p q, s.exists_ p = true → s.exists_ q = true → (s.pcb p).pid = (s.pcb q).pid → p = q
  inUse : ∀ p, s.exists_ p = true → (s.pcb p).pid < s.pids.current ∧ (s.pcb p).pid ∉ s.pids.recycled
  free : s.pids.recycled.Nodup ∧ ∀ id ∈ s.pids.recycled, id < s.pids.current
  pid2pcb : ∀ pid p, s.pid2pcb pid = some p ↔ s.running p = true ∧ (s.pcb p).pid = pid
  /-- Every process but the initial one has a parent, which is running and has it among its children. -/
  parent : ∀ c, s.exists_ c = true → c ≠ 0 →
    ∃ p, (s.pcb c).parent = some p ∧ s.running p = true ∧ c ∈ (s.pcb p).children
  children : ∀ p, s.exists_ p = true → (s.pcb p).children.Nodup ∧
    ∀ c ∈ (s.pcb p).children, s.exists_ c = true ∧ c ≠ 0 ∧ (s.pcb c).parent = some p
  zombie : ∀ p, s.exists_ p = true → (s.pcb p).isZombie = true → (s.pcb p).children = []
  reaped : (s.reaped.map (·.child)).Nodup ∧ ∀ r ∈ s.reaped, r.child < s.nprocs ∧ (s.pcb r.child).isZombie = true ∧
    (s.pcb r.child).parent = some r.waiter ∧ (s.pcb r.child).exitCode = r.exitCode

theorem exists_iff : s.exists_ p = true ↔ p < s.nprocs ∧ p ∉ s.reaped.map (·.child) := by
  simp [exists_]

theorem running_iff : s.running p = true ↔ s.exists_ p = true ∧ (s.pcb p).isZombie = false := by
  simp [running]

theorem tree_start : Tree start := by
  constructor <;> simp only [start, exists_iff, running_iff, update_apply] <;> grind

variable {q : Nat}

theorem Tree.lt_of_reaped (h : Tree s) (hq : q ∈ s.reaped.map (·.child)) : q < s.nprocs := by
  obtain ⟨r, hr, rfl⟩ := mem_map.mp hq
  exact (h.reaped.2 r hr).1

/-! ## `fork` -/

open TreeState

theorem fork_pcb_new : (s.fork p).pcb s.nprocs = ⟨s.pids.alloc.1, false, 0, some p, []⟩ := by
  simp [fork]

theorem fork_pcb_old (hq : q < s.nprocs) :
    (s.fork p).pcb q = { s.pcb q with children := (s.pcb q).children ++ if q = p then [s.nprocs] else [] } := by
  simp only [fork, update_apply, Nat.ne_of_lt hq, if_false]
  by_cases hqp : q = p
  · simp [hqp]
  · simp [hqp]

theorem Tree.fork_exists (h : Tree s) :
    (s.fork p).exists_ q = true ↔ s.exists_ q = true ∨ q = s.nprocs := by
  have hnew : s.nprocs ∉ s.reaped.map (·.child) := fun hmem => lt_irrefl _ (h.lt_of_reaped hmem)
  simp only [exists_iff, fork]
  by_cases hq : q = s.nprocs
  · simp [hq, hnew]
  · simp only [hq, or_false]
    refine and_congr_left fun _ => ?_
    omega

theorem Tree.fork_running (h : Tree s) :
    (s.fork p).running q = true ↔ s.running q = true ∨ q = s.nprocs := by
  rw [running_iff, h.fork_exists, running_iff]
  constructor
  · rintro ⟨hex | rfl, hz⟩
    · rw [fork_pcb_old (exists_iff.mp hex).1] at hz
      exact .inl ⟨hex, hz⟩
    · exact .inr rfl
  · rintro (⟨hex, hz⟩ | rfl)
    · rw [fork_pcb_old (exists_iff.mp hex).1]
      exact ⟨.inl hex, hz⟩
    · rw [fork_pcb_new]
      exact ⟨.inr rfl, rfl⟩

theorem Tree.fork (h : Tree s) (hp : s.running p = true) : Tree (s.fork p) := by
  obtain ⟨hnew, hold, hnodup, hlt⟩ := Sys.alloc_spec s.pids h.free.1 h.free.2
  have hltp : ∀ {q}, s.exists_ q = true → q < s.nprocs := fun hq => (exists_iff.mp hq).1
  have hpex := (running_iff.mp hp).1
  -- The id of the child is not that of another process.
  have hid : ∀ q, s.exists_ q = true → ((s.fork p).pcb q).pid = (s.pcb q).pid ∧ (s.pcb q).pid ≠ s.pids.alloc.1 := by
    intro q hq
    rw [fork_pcb_old (hltp hq)]
    have hin := h.inUse q hq
    exact ⟨rfl, (hold _ hin.1 hin.2).1⟩
  have hidn : ((s.fork p).pcb s.nprocs).pid = s.pids.alloc.1 := by rw [fork_pcb_new]
  refine ⟨⟨Nat.succ_pos _, h.fork_running.mpr (.inl h.initproc.2.1), ?_⟩, ?_, ?_, ⟨hnodup, hlt⟩, ?_, ?_, ?_, ?_, ?_⟩
  · rw [fork_pcb_old h.initproc.1]
    exact h.initproc.2.2
  · intro a b ha hb heq
    rcases h.fork_exists.mp ha with ha | rfl <;> rcases h.fork_exists.mp hb with hb | rfl
    · rw [(hid a ha).1, (hid b hb).1] at heq
      exact h.distinct a b ha hb heq
    · rw [(hid a ha).1, hidn] at heq
      exact absurd heq (hid a ha).2
    · rw [(hid b hb).1, hidn] at heq
      exact absurd heq.symm (hid b hb).2
    · rfl
  · intro q hq
    rcases h.fork_exists.mp hq with hq | rfl
    · rw [(hid q hq).1]
      have hin := h.inUse q hq
      exact (hold _ hin.1 hin.2).2
    · rw [hidn]
      exact hnew
  · intro pid q
    have hmap : (s.fork p).pid2pcb pid = if pid = s.pids.alloc.1 then some s.nprocs else s.pid2pcb pid := update_apply ..
    rw [hmap, h.fork_running]
    split
    · rename_i hpid
      rw [some.injEq]
      constructor
      · rintro rfl
        exact ⟨.inr rfl, hidn.trans hpid.symm⟩
      · rintro ⟨hq | rfl, heq⟩
        · have hqe := (running_iff.mp hq).1
          rw [(hid q hqe).1, hpid] at heq
          exact absurd heq (hid q hqe).2
        · rfl
    · rename_i hpid
      rw [h.pid2pcb]
      constructor
      · rintro ⟨hq, heq⟩
        exact ⟨.inl hq, (hid q (running_iff.mp hq).1).1.trans heq⟩
      · rintro ⟨hq | rfl, heq⟩
        · exact ⟨hq, (hid q (running_iff.mp hq).1).1.symm.trans heq⟩
        · exact absurd (heq.symm.trans hidn) hpid
  · intro c hc h0
    rcases h.fork_exists.mp hc with hc | rfl
    · obtain ⟨q, hpar, hq, hmem⟩ := h.parent c hc h0
      refine ⟨q, ?_, h.fork_running.mpr (.inl hq), ?_⟩
      · rw [fork_pcb_old (hltp hc)]
        exact hpar
      · rw [fork_pcb_old (hltp (running_iff.mp hq).1)]
        exact mem_append_left _ hmem
    · refine ⟨p, by rw [fork_pcb_new], h.fork_running.mpr (.inl hp), ?_⟩
      rw [fork_pcb_old (hltp hpex)]
      simp
  · intro q hq
    rcases h.fork_exists.mp hq with hq | rfl
    · obtain ⟨hnd, hall⟩ := h.children q hq
      rw [fork_pcb_old (hltp hq)]
      have hfresh : s.nprocs ∉ (s.pcb q).children := fun hmem => lt_irrefl _ (hltp (hall _ hmem).1)
      refine ⟨?_, fun c hc => ?_⟩
      · split
        · exact nodup_append'.mpr ⟨hnd, nodup_singleton _, by simpa using hfresh⟩
        · simpa using hnd
      · rcases mem_append.mp hc with hc | hc
        · obtain ⟨hce, hc0, hpar⟩ := hall c hc
          refine ⟨h.fork_exists.mpr (.inl hce), hc0, ?_⟩
          rw [fork_pcb_old (hltp hce)]
          exact hpar
        · split at hc
          · rename_i hqp
            obtain rfl := mem_singleton.mp hc
            refine ⟨h.fork_exists.mpr (.inr rfl), Nat.ne_of_gt h.initproc.1, ?_⟩
            rw [fork_pcb_new, hqp]
          · cases hc
    · rw [fork_pcb_new]
      simp
  · intro q hq hz
    rcases h.fork_exists.mp hq with hq | rfl
    · rw [fork_pcb_old (hltp hq)] at hz ⊢
      have hne : q ≠ p := by
        rintro rfl
        rw [(running_iff.mp hp).2] at hz
        cases hz
      simp [hne, h.zombie q hq hz]
    · rw [fork_pcb_new] at hz
      cases hz
  · refine ⟨h.reaped.1, fun r hr => ?_⟩
    obtain ⟨hr1, hr2⟩ := h.reaped.2 r hr
    rw [fork_pcb_old hr1]
    exact ⟨Nat.lt_succ_of_lt hr1, hr2⟩

/-- What the loop over the children does. -/
theorem adopt_all (cs : List Nat) (s : TreeState) : cs.foldl adopt s =
    { s with pcb := fun i => { s.pcb i with
      parent := if i ∈ cs then some 0 else (s.pcb i).parent
      children := if i = 0 then (s.pcb i).children ++ cs else (s.pcb i).children } } := by
  induction cs generalizing s with
  | nil => simp
  | cons c cs ih =>
    rw [foldl_cons, ih]
    simp only [adopt, setPcb, update_apply]
    congr 1
    funext i
    grind

/-! ## Exit -/

/-- The processes after the exit of `p`. -/
def exitPcb (s : TreeState) (p : Nat) (code : Int) (i : Nat) : Pcb :=
  { pid := (s.pcb i).pid
    isZombie := if i = p then true else (s.pcb i).isZombie
    exitCode := if i = p then code else (s.pcb i).exitCode
    parent := if i ∈ (s.pcb p).children then some 0 else (s.pcb i).parent
    children := if i = p then [] else if i = 0 then (s.pcb i).children ++ (s.pcb p).children else (s.pcb i).children }

theorem exit_eq_some {code : Int} : s.exit p code = some s' ↔
    (s.pcb p).pid ≠ 0 ∧ (s.pid2pcb (s.pcb p).pid).isSome = true ∧
      s' = { s with pcb := s.exitPcb p code, pid2pcb := update s.pid2pcb (s.pcb p).pid none } := by
  unfold exit
  split
  · simp_all
  rename_i hpid
  split
  · simp_all
  rename_i q hq
  simp only [hq, isSome_some, true_and, ne_eq, hpid, not_false_eq_true, some.injEq]
  rw [eq_comm]
  have heq : ∀ s₁ : TreeState,
      s₁ = { s with pcb := s.exitPcb p code, pid2pcb := update s.pid2pcb (s.pcb p).pid none } →
      (s' = s₁ ↔ s' = { s with pcb := s.exitPcb p code, pid2pcb := update s.pid2pcb (s.pcb p).pid none }) := by
    rintro s₁ rfl
    rfl
  apply heq
  rw [adopt_all]
  simp only [setPcb]
  congr 1
  funext i
  simp only [update_apply, exitPcb]
  grind

section

variable (h : Tree s) (hp : s.running p = true)
include h hp

theorem Tree.exit {code : Int} (hs : s.exit p code = some s') : Tree s' := by
  obtain ⟨hpid, -, rfl⟩ := exit_eq_some.mp hs
  have hpex := (running_iff.mp hp).1
  have hp0 : p ≠ 0 := by
    rintro rfl
    exact hpid h.initproc.2.2
  have hkids := h.children p hpex
  have hex : ∀ {q},
      exists_ { s with pcb := s.exitPcb p code, pid2pcb := update s.pid2pcb (s.pcb p).pid none } q = true ↔
      s.exists_ q = true := Iff.rfl
  have hrun : ∀ {q},
      running { s with pcb := s.exitPcb p code, pid2pcb := update s.pid2pcb (s.pcb p).pid none } q = true ↔
      s.running q = true ∧ q ≠ p := by
    intro q
    rw [running_iff, running_iff, hex]
    simp only [exitPcb]
    by_cases hq : q = p <;> simp [hq]
  refine ⟨⟨h.initproc.1, hrun.mpr ⟨h.initproc.2.1, Ne.symm hp0⟩, h.initproc.2.2⟩, h.distinct, h.inUse, h.free, ?_, ?_, ?_, ?_, ?_⟩
  · intro pid q
    rw [hrun]
    simp only [update_apply, exitPcb]
    split
    · rename_i hpe
      simp only [false_iff, not_and, reduceCtorEq]
      rintro ⟨hq, hne⟩ heq
      exact hne (h.distinct q p (running_iff.mp hq).1 hpex (heq.trans hpe))
    · rename_i hpe
      rw [h.pid2pcb]
      constructor
      · rintro ⟨hq, heq⟩
        refine ⟨⟨hq, ?_⟩, heq⟩
        rintro rfl
        exact hpe heq.symm
      · rintro ⟨⟨hq, -⟩, heq⟩
        exact ⟨hq, heq⟩
  · intro c hc h0
    simp only [exitPcb]
    by_cases hcp : c ∈ (s.pcb p).children
    · refine ⟨0, by rw [if_pos hcp], hrun.mpr ⟨h.initproc.2.1, Ne.symm hp0⟩, ?_⟩
      rw [if_neg (Ne.symm hp0), if_pos rfl]
      exact mem_append_right _ hcp
    · obtain ⟨q, hpar, hq, hmem⟩ := h.parent c hc h0
      have hqp : q ≠ p := by
        rintro rfl
        exact hcp hmem
      refine ⟨q, by rw [if_neg hcp]; exact hpar, hrun.mpr ⟨hq, hqp⟩, ?_⟩
      rw [if_neg hqp]
      split
      · exact mem_append_left _ hmem
      · exact hmem
  · intro q hq
    obtain ⟨hnd, hall⟩ := h.children q hq
    simp only [exitPcb]
    by_cases hqp : q = p
    · rw [if_pos hqp]
      simp
    rw [if_neg hqp]
    by_cases hq0 : q = 0
    · subst hq0
      rw [if_pos rfl]
      refine ⟨nodup_append'.mpr ⟨hnd, hkids.1, fun c h1 h2 => ?_⟩, fun c hc => ?_⟩
      · have heq := (hall c h1).2.2.symm.trans (hkids.2 c h2).2.2
        exact hqp (some.inj heq)
      · rcases mem_append.mp hc with hc | hc
        · refine ⟨(hall c hc).1, (hall c hc).2.1, ?_⟩
          split
          · rfl
          · exact (hall c hc).2.2
        · exact ⟨(hkids.2 c hc).1, (hkids.2 c hc).2.1, by rw [if_pos hc]⟩
    · rw [if_neg hq0]
      refine ⟨hnd, fun c hc => ⟨(hall c hc).1, (hall c hc).2.1, ?_⟩⟩
      rw [if_neg]
      · exact (hall c hc).2.2
      · intro hcp
        have heq := (hall c hc).2.2.symm.trans (hkids.2 c hcp).2.2
        exact hqp (some.inj heq)
  · intro q hq hz
    simp only [exitPcb] at hz ⊢
    by_cases hqp : q = p
    · rw [if_pos hqp]
    · rw [if_neg hqp] at hz ⊢
      have hq0 : q ≠ 0 := by
        rintro rfl
        rw [(running_iff.mp h.initproc.2.1).2] at hz
        cases hz
      rw [if_neg hq0]
      exact h.zombie q hq hz
  · refine ⟨h.reaped.1, fun r hr => ?_⟩
    obtain ⟨hlt, hz, hpar, hcode⟩ := h.reaped.2 r hr
    have hgone : ∀ {q}, s.exists_ q = true → r.child ≠ q := by
      rintro q hq rfl
      exact (exists_iff.mp hq).2 (mem_map_of_mem hr)
    have hnot : r.child ∉ (s.pcb p).children := fun hmem => hgone (hkids.2 _ hmem).1 rfl
    simp only [exitPcb]
    rw [if_neg (hgone hpex), if_neg (hgone hpex), if_neg hnot]
    exact ⟨hlt, hz, hpar, hcode⟩

/-! ## `sys_waitpid` -/

theorem Tree.reap (hc : c ∈ (s.pcb p).children)
    (hz : (s.pcb c).isZombie = true) :
    Tree (s.reap p c { s.pids with recycled := (s.pcb c).pid :: s.pids.recycled }) := by
  have hpex := (running_iff.mp hp).1
  obtain ⟨hnd, hall⟩ := h.children p hpex
  obtain ⟨hce, hc0, hcpar⟩ := hall c hc
  have hcp : c ≠ p := by
    rintro rfl
    rw [(running_iff.mp hp).2] at hz
    cases hz
  generalize hs' : s.reap p c { s.pids with recycled := (s.pcb c).pid :: s.pids.recycled } = s'
  have hpcb : ∀ q, s'.pcb q =
      { s.pcb q with children := if q = p then (s.pcb q).children.erase c else (s.pcb q).children } := by
    intro q
    simp only [← hs', TreeState.reap, setPcb, update_apply]
    split
    · rename_i hq
      simp [hq]
    · rfl
  have hex : ∀ {q}, s'.exists_ q = true ↔ s.exists_ q = true ∧ q ≠ c := by
    intro q
    simp only [← hs', TreeState.reap, setPcb, exists_iff, map_append, mem_append, map_cons, map_nil,
      mem_singleton, not_or]
    exact and_assoc.symm
  have hrun : ∀ {q}, s'.running q = true ↔ s.running q = true := by
    intro q
    rw [running_iff, running_iff, hex, hpcb]
    refine ⟨fun hq => ⟨hq.1.1, hq.2⟩, fun hq => ⟨⟨hq.1, ?_⟩, hq.2⟩⟩
    rintro rfl
    rw [hq.2] at hz
    cases hz
  have hin := h.inUse c hce
  refine ⟨⟨?_, hrun.mpr h.initproc.2.1, ?_⟩, ?_, ?_, ?_, ?_, ?_, ?_, ?_, ?_⟩
  · rw [← hs']
    exact h.initproc.1
  · rw [hpcb]
    exact h.initproc.2.2
  · intro a b ha hb heq
    rw [hpcb, hpcb] at heq
    exact h.distinct a b (hex.mp ha).1 (hex.mp hb).1 heq
  · intro q hq
    obtain ⟨hq, hqc⟩ := hex.mp hq
    rw [hpcb, ← hs']
    refine ⟨(h.inUse q hq).1, ?_⟩
    simp only [TreeState.reap, mem_cons, not_or]
    exact ⟨fun heq => hqc (h.distinct q c hq hce heq), (h.inUse q hq).2⟩
  · rw [← hs']
    refine ⟨nodup_cons.mpr ⟨hin.2, h.free.1⟩, fun id hid => ?_⟩
    rcases mem_cons.mp hid with rfl | hid
    · exact hin.1
    · exact h.free.2 id hid
  · intro pid q
    rw [hrun, hpcb]
    rw [← hs']
    exact h.pid2pcb pid q
  · intro d hd h0
    obtain ⟨hd, hdc⟩ := hex.mp hd
    obtain ⟨q, hpar, hq, hmem⟩ := h.parent d hd h0
    refine ⟨q, by rw [hpcb]; exact hpar, hrun.mpr hq, ?_⟩
    rw [hpcb]
    simp only
    split
    · exact (mem_erase_of_ne hdc).mpr hmem
    · exact hmem
  · intro q hq
    obtain ⟨hq, hqc⟩ := hex.mp hq
    obtain ⟨hqnd, hqall⟩ := h.children q hq
    have hsub : (s'.pcb q).children ⊆ (s.pcb q).children := by
      rw [hpcb]
      simp only
      split
      · exact erase_subset
      · exact Subset.refl _
    refine ⟨?_, fun d hd => ?_⟩
    · rw [hpcb]
      simp only
      split
      · exact hqnd.erase c
      · exact hqnd
    · obtain ⟨hde, hd0, hdpar⟩ := hqall d (hsub hd)
      refine ⟨hex.mpr ⟨hde, ?_⟩, hd0, by rw [hpcb]; exact hdpar⟩
      rintro rfl
      obtain rfl : p = q := some.inj (hcpar.symm.trans hdpar)
      rw [hpcb] at hd
      simp only [if_true] at hd
      exact hqnd.not_mem_erase hd
  · intro q hq hqz
    obtain ⟨hq, -⟩ := hex.mp hq
    rw [hpcb] at hqz ⊢
    have hnil := h.zombie q hq hqz
    simp [hnil]
  · have hfresh := (exists_iff.mp hce).2
    rw [← hs']
    refine ⟨?_, fun r hr => ?_⟩
    · simp only [TreeState.reap, map_append, map_cons, map_nil]
      exact nodup_append'.mpr ⟨h.reaped.1, nodup_singleton _, by simpa using hfresh⟩
    · rw [hs', hpcb]
      rcases mem_append.mp hr with hr | hr
      · have hold := h.reaped.2 r hr
        rw [← hs']
        exact hold
      · obtain rfl := mem_singleton.mp hr
        rw [← hs']
        exact ⟨(exists_iff.mp hce).1, hz, hcpar, rfl⟩

/-- `sys_waitpid` changes nothing, or takes a zombie child; it does not panic. -/
theorem Tree.waitpid_cases (pid : Int) :
    (∃ r, s.waitpid p pid = some (s, r) ∧ (r = -1 ∨ r = -2)) ∨
      ∃ c, c ∈ (s.pcb p).children ∧ (s.pcb c).isZombie = true ∧ s.selects pid c = true ∧
        s.waitpid p pid =
          some (s.reap p c { s.pids with recycled := (s.pcb c).pid :: s.pids.recycled }, ((s.pcb c).pid : Int)) := by
  unfold waitpid
  split
  · exact .inl ⟨-1, rfl, .inl rfl⟩
  split
  · exact .inl ⟨-2, rfl, .inr rfl⟩
  · rename_i c hfind
    have hmem := mem_of_find?_eq_some hfind
    have hsel := find?_some hfind
    simp only [Bool.and_eq_true] at hsel
    have hin := h.inUse c ((h.children p (running_iff.mp hp).1).2 c hmem).1
    refine .inr ⟨c, hmem, hsel.1, hsel.2, ?_⟩
    simp [RecycleAllocator.dealloc, hin]

theorem Tree.exit_isSome (hp0 : p ≠ 0) (code : Int) :
    (s.exit p code).isSome = true := by
  rw [isSome_iff_exists]
  have hpex := (running_iff.mp hp).1
  refine ⟨_, exit_eq_some.mpr ⟨?_, ?_, rfl⟩⟩
  · intro hpid
    exact hp0 (h.distinct p 0 hpex (running_iff.mp h.initproc.2.1).1 (hpid.trans h.initproc.2.2.symm))
  · rw [(h.pid2pcb _ p).mpr ⟨hp, rfl⟩]
    rfl

end

theorem Tree.step {e : TreeEvent} (h : Tree s) (hs : s.step e = some s') : Tree s' := by
  cases e with
  | fork p =>
    obtain ⟨hp, ⟨⟩⟩ := ite_none_right_eq_some.mp hs
    exact h.fork hp
  | exit p code =>
    obtain ⟨hp, hs⟩ := ite_none_right_eq_some.mp hs
    exact h.exit hp hs
  | waitpid p pid =>
    obtain ⟨hp, hs⟩ := ite_none_right_eq_some.mp hs
    rcases h.waitpid_cases hp pid with ⟨r, heq, -⟩ | ⟨c, hc, hz, -, heq⟩
    · rw [heq] at hs
      cases hs
      exact h
    · rw [heq] at hs
      cases hs
      exact h.reap hp hc hz

theorem tree_reach (h : processes.Reach s) : Tree s := by
  refine h.inv Tree ?_ fun s e t ht hs => ht.step hs
  rintro s rfl
  exact tree_start

/-- The exit code of a zombie never changes. -/
theorem exitCode_step {e : TreeEvent} (h : Tree s) (hs : s.step e = some s') (hq : q < s.nprocs)
    (hz : (s.pcb q).isZombie = true) : (s'.pcb q).isZombie = true ∧ (s'.pcb q).exitCode = (s.pcb q).exitCode := by
  cases e with
  | fork p =>
    obtain ⟨hp, ⟨⟩⟩ := ite_none_right_eq_some.mp hs
    rw [fork_pcb_old hq]
    exact ⟨hz, rfl⟩
  | exit p code =>
    obtain ⟨hp, hs⟩ := ite_none_right_eq_some.mp hs
    obtain ⟨-, -, rfl⟩ := exit_eq_some.mp hs
    have hqp : q ≠ p := by
      rintro rfl
      rw [(running_iff.mp hp).2] at hz
      cases hz
    simp [exitPcb, hqp, hz]
  | waitpid p pid =>
    obtain ⟨hp, hs⟩ := ite_none_right_eq_some.mp hs
    rcases h.waitpid_cases hp pid with ⟨r, heq, -⟩ | ⟨c, -, -, -, heq⟩
    · rw [heq] at hs
      cases hs
      exact ⟨hz, rfl⟩
    · rw [heq] at hs
      cases hs
      simp only [reap, setPcb, update_apply]
      split
      · rename_i hqp
        subst hqp
        exact ⟨hz, rfl⟩
      · exact ⟨hz, rfl⟩

end TreeState

open TreeState in
/-- Of every run: the tree and the ids are as `Tree` says; the exit of a process other than the initial one and
    `sys_waitpid` do not panic; `sys_waitpid` returns the id of a zombie child of the caller, with its exit code in
    `reaped`, or -1 or -2; and the exit code of a zombie is the one it has exited with for ever. -/
theorem process_tree {s : TreeState} (h : processes.Reach s) :
    Tree s ∧
    (∀ p code, s.running p = true → p ≠ 0 → (s.exit p code).isSome = true) ∧
    (∀ p pid, s.running p = true → ∃ s' r, s.waitpid p pid = some (s', r) ∧
      (s'.reaped = s.reaped ∧ (r = -1 ∨ r = -2) ∨
        ∃ c, (s.pcb c).parent = some p ∧ (s.pcb c).isZombie = true ∧ r = (s.pcb c).pid ∧
          s'.reaped = s.reaped ++ [⟨p, c, (s.pcb c).exitCode⟩])) ∧
    ∀ e s' q, s.step e = some s' → q < s.nprocs → (s.pcb q).isZombie = true →
      (s'.pcb q).isZombie = true ∧ (s'.pcb q).exitCode = (s.pcb q).exitCode := by
  have ht := tree_reach h
  refine ⟨ht, fun p code hp hp0 => ht.exit_isSome hp hp0 code, fun p pid hp => ?_,
    fun e s' q hs hq hz => exitCode_step ht hs hq hz⟩
  rcases ht.waitpid_cases hp pid with ⟨r, heq, hr⟩ | ⟨c, hc, hz, -, heq⟩
  · exact ⟨s, r, heq, .inl ⟨rfl, hr⟩⟩
  · have hchild := (ht.children p (running_iff.mp hp).1).2 c hc
    exact ⟨_, _, heq, .inr ⟨c, hchild.2.2, hz, rfl, rfl⟩⟩

/-- A process forks, its child forks too and exits before the grandchild; the initial process waits for both, and the
    next fork gets the last id that was returned. -/
theorem process_tree_orphan :
    ∃ s, processes.Reach s ∧ s.reaped = [⟨0, 1, 7⟩, ⟨0, 2, 8⟩] ∧ (s.pcb 3).pid = 2 ∧ s.Tree := by
  have hrun : ∃ s ∈ processes.run .start
      [.fork 0, .fork 1, .exit 1 7, .waitpid 0 (-1), .exit 2 8, .waitpid 0 2, .fork 0],
      s.reaped = [⟨0, 1, 7⟩, ⟨0, 2, 8⟩] ∧ (s.pcb 3).pid = 2 := by decide +kernel
  have hinit : processes.Reach .start := .init rfl
  obtain ⟨s, hreach, hreaped, hpid⟩ := hinit.exists_run hrun
  exact ⟨s, hreach, hreaped, hpid, (process_tree hreach).1⟩

end TCore.Kernel
