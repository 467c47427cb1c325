/-
  TCore.Kernel.Masking — the guards of UPIntrFreeCell and `sstatus.SIE` (sync/up.rs, trap_from_kernel in trap/mod.rs).

  A flow of control in the kernel creates and drops guards, in any order. `enter` reads SIE, clears it, saves what
  it read if `nested_level` is 0, and counts; the cell is borrowed after that. `drop` gives the cell back, counts
  down, and sets SIE if no guard is left and it was set before. A step is one statement of these. An interrupt comes
  between two steps while SIE is set; its handler is a flow of its own, and its return sets SIE again. So a handler
  that comes between the read of SIE and its clearing finds `nested_level` 0 and overwrites `sie_before_masking`.

  No context is switched while a guard is alive, and flows without a guard are alike: a switch is no step here.
-/

import TCore.Kernel.Tasks

namespace TCore.Kernel.Masking

open TCore.Lib
open Option List Intr

/-- A `RefCell` has a borrow counter of 8 bytes and is aligned to it: its address, in such words. -/
abbrev CellAddr := Fin (2 ^ 61)

/-- What a flow does next. -/
inductive Pc where
  /-- Outside of `exclusive_access` and `drop`. -/
  | run
  /-- `sstatus::clear_sie()`, after `sie` was read. -/
  | clear (c : CellAddr) (sie : Bool)
  /-- `if self.nested_level == 0 { self.sie_before_masking = sie; }` -/
  | save (c : CellAddr) (sie : Bool)
  /-- `self.nested_level += 1`. -/
  | count (c : CellAddr)
  /-- `self.inner.borrow_mut()`. -/
  | borrow (c : CellAddr)
  /-- `self.nested_level -= 1`. -/
  | uncount
  /-- `if self.nested_level == 0 && self.sie_before_masking`. -/
  | check
  /-- `sstatus::set_sie()`. -/
  | set
  deriving DecidableEq

structure Flow where
  pc : Pc
  /-- The cells its guards have borrowed. -/
  guards : List CellAddr
  /-- History: SIE when the first of its guards was created. -/
  sieAtFirst : Bool

def Flow.new : Flow := ⟨.run, [], false⟩

structure State where
  sie : Bool
  nestedLevel : BitVec 64
  sieBeforeMasking : Bool
  flow : Flow
  /-- The flows that wait for the return of a handler. -/
  interrupted : List Flow

namespace State

def guards (s : State) : List CellAddr := s.flow.guards ++ s.interrupted.flatMap Flow.guards

def goto (s : State) (pc : Pc) : State := { s with flow := { s.flow with pc := pc } }

end State

/-- The flow is outside of `exclusive_access` and `drop` and has no guard. -/
def Flow.Idle (f : Flow) : Prop := f.pc = .run ∧ f.guards = []

instance (f : Flow) : Decidable f.Idle := inferInstanceAs (Decidable (_ ∧ _))

inductive Event where
  /-- `exclusive_access`, up to `sstatus::read().sie()`. -/
  | exclusiveAccess (c : CellAddr)
  /-- `drop` of a guard, up to `self.0 = None`. -/
  | drop (c : CellAddr)
  /-- The next statement of the two. -/
  | next
  | interrupt
  /-- The handler returns. -/
  | sret
  /-- `enable_supervisor_interrupt`, `disable_supervisor_interrupt`. -/
  | setSie (b : Bool)

def next (s : State) : Option State :=
  match s.flow.pc with
  | .run => none
  | .clear c sie => some { s.goto (.save c sie) with sie := false }
  | .save c sie =>
    some { s.goto (.count c) with sieBeforeMasking := if s.nestedLevel = 0 then sie else s.sieBeforeMasking }
  | .count c => some { s.goto (.borrow c) with nestedLevel := s.nestedLevel + 1 }
  | .borrow c =>
    -- a cell that is borrowed already is a panic
    if c ∈ s.guards then none else some { s with flow := { s.flow with pc := .run, guards := c :: s.flow.guards } }
  | .uncount => some { s.goto .check with nestedLevel := s.nestedLevel - 1 }
  | .check => some (s.goto (if s.nestedLevel = 0 ∧ s.sieBeforeMasking = true then .set else .run))
  | .set => some { s.goto .run with sie := true }

def step (s : State) : Event → Option State
  | .exclusiveAccess c =>
    if s.flow.pc = .run then
      some { s with flow := ⟨.clear c s.sie, s.flow.guards, if s.flow.guards = [] then s.sie else s.flow.sieAtFirst⟩ }
    else none
  | .drop c =>
    if s.flow.pc = .run ∧ c ∈ s.flow.guards then
      some { s with flow := { s.flow with pc := .uncount, guards := s.flow.guards.erase c } }
    else none
  | .next => next s
  | .interrupt =>
    if s.sie = true then some { s with sie := false, flow := .new, interrupted := s.flow :: s.interrupted } else none
  | .sret =>
    match s.interrupted with
    | [] => none
    | f :: rest => if s.flow.Idle then some { s with sie := true, flow := f, interrupted := rest } else none
  | .setSie b => if s.flow.Idle ∧ s.interrupted = [] then some { s with sie := b } else none

/-- A flow starts with `nested_level` 0; SIE and what was saved last are arbitrary. -/
def machine : Machine State Event where
  init s := s.nestedLevel = 0 ∧ s.flow = .new ∧ s.interrupted = []
  step := step

/-! ## A flow -/

/-- From `clear_sie` to the end of `exclusive_access`, and in `drop`. -/
def Pc.masked : Pc → Bool
  | .run | .clear _ _ => false
  | _ => true

/-- As `masked`, and `sie_before_masking` has been written. -/
def Pc.saved : Pc → Bool
  | .run | .clear _ _ | .save _ _ => false
  | _ => true

/-- What the flow adds to `nested_level`. -/
def Flow.level (f : Flow) : Nat :=
  f.guards.length + match f.pc with
    | .borrow _ | .uncount => 1
    | _ => 0

/-- What holds of the flow that runs; SIE, `sie_before_masking` and `nested_level` are the arguments. -/
structure Flow.Ok (f : Flow) (sie before : Bool) (level : BitVec 64) : Prop where
  nodup : f.guards.Nodup
  level : level.toNat = f.level
  masked : f.guards ≠ [] ∨ f.pc.masked = true → sie = false
  read : ∀ c b, f.pc = .clear c b → f.guards = [] → b = sie ∧ b = f.sieAtFirst
  kept : ∀ c b, f.pc = .save c b → f.guards = [] → b = f.sieAtFirst
  saved : f.guards ≠ [] ∨ f.pc.saved = true → before = f.sieAtFirst
  set : f.pc = .set → f.guards = [] ∧ before = true

/-- A flow that an interrupt has stopped: whatever the handler saves, it goes on with SIE set. -/
def Flow.Stopped (f : Flow) : Prop := ∀ before, f.Ok true before 0

structure Inv (s : State) : Prop where
  flow : s.flow.Ok s.sie s.sieBeforeMasking s.nestedLevel
  interrupted : s.interrupted = [] ∨ ∃ f, s.interrupted = [f] ∧ f.Stopped ∧ s.sie = false ∧ s.flow.sieAtFirst = false

section flow

variable {s t : State} {f : Flow} {sie before : Bool} {level : BitVec 64} {c : CellAddr} {b : Bool}

theorem length_guards_le (h : f.guards.Nodup) : f.guards.length ≤ 2 ^ 61 := by
  simpa using h.length_le_card

open Masking.Flow

theorem Flow.level_run (hpc : f.pc = .run) : f.level = f.guards.length := by
  rw [level, hpc]
  rfl

theorem Flow.Idle.ok (hf : f.Idle) : f.Ok sie before 0 := by
  obtain ⟨hpc, hguards⟩ := hf
  constructor <;> simp [hpc, hguards, level, Pc.masked, Pc.saved]

theorem Flow.Ok.stopped (h : f.Ok true before level) : f.Stopped ∧ level = 0 := by
  have hguards : f.guards = [] := by
    by_contra hne
    exact absurd (h.masked (.inl hne)) (by simp)
  have hpc : f.pc.masked = false := by
    by_contra hne
    exact absurd (h.masked (.inr (by simpa using hne))) (by simp)
  have hsaved : f.pc.saved = false := by
    cases hpc' : f.pc <;> simp_all [Pc.masked, Pc.saved]
  have hlevel : f.level = 0 := by
    cases hpc' : f.pc <;> simp_all [Pc.masked, Flow.level]
  refine ⟨fun before => ⟨h.nodup, ?_, h.masked, h.read, h.kept, ?_, ?_⟩, ?_⟩
  · rw [hlevel]
    rfl
  · simp [hguards, hsaved]
  · intro hset
    simp [hset, Pc.masked] at hpc
  · apply BitVec.eq_of_toNat_eq
    rw [h.level, hlevel]
    rfl

theorem Flow.Ok.level_eq_zero (h : f.Ok sie before level) : level = 0 ↔ f.level = 0 := by
  rw [← h.level]
  bv_omega

/-- A flow with SIE clear, after `sie_before_masking` was written. -/
theorem Flow.ok_saved (hpc : f.pc.saved = true ∨ f.pc = .run) (hnodup : f.guards.Nodup) (hlevel : level.toNat = f.level)
    (hsie : sie = false) (hsaved : before = f.sieAtFirst) (hset : f.pc = .set → f.guards = [] ∧ before = true) :
    f.Ok sie before level where
  nodup := hnodup
  level := hlevel
  masked _ := hsie
  read c b hclear := by simp [hclear, Pc.saved] at hpc
  kept c b hsave := by simp [hsave, Pc.saved] at hpc
  saved _ := hsaved
  set := hset

/-- The statements of `enter` and `exit` keep what holds of the flow. -/
theorem next_ok (h : s.flow.Ok s.sie s.sieBeforeMasking s.nestedLevel) (hs : next s = some t) :
    t.flow.Ok t.sie t.sieBeforeMasking t.nestedLevel := by
  have hlen := length_guards_le h.nodup
  have hlevel := h.level
  have hzero := h.level_eq_zero
  have hmasked := h.masked
  have hsaved := h.saved
  unfold next at hs
  unfold level at hlevel hzero
  cases hpc : s.flow.pc <;> simp only [hpc, some.injEq, reduceCtorEq] at hs <;>
    rw [hpc] at hlevel hzero hmasked hsaved
  case clear c b =>
    subst hs
    refine ⟨h.nodup, hlevel, fun _ => rfl, by simp [State.goto], ?_, ?_, by simp [State.goto]⟩
    · intro c' b' hpc' hguards
      cases hpc'
      exact (h.read c b hpc hguards).2
    · simpa [State.goto, Pc.saved] using hsaved
  case save c b =>
    subst hs
    refine ok_saved (.inl rfl) h.nodup hlevel (hmasked (.inr rfl)) ?_ nofun
    dsimp only
    by_cases hguards : s.flow.guards = []
    · -- the first guard: what was read is written
      rw [if_pos (hzero.mpr (by simp [hguards]))]
      exact h.kept c b hpc hguards
    · rw [if_neg (by rw [hzero]; simpa using hguards)]
      exact hsaved (.inl hguards)
  case count c =>
    subst hs
    refine ok_saved (.inl rfl) h.nodup ?_ (hmasked (.inr rfl)) (hsaved (.inr rfl)) nofun
    -- the guards are on different cells, so the counter does not wrap
    simp only [State.goto, level]
    bv_omega
  case borrow c =>
    obtain ⟨hfree, hs⟩ := ite_none_left_eq_some.mp hs
    cases hs
    refine ok_saved (.inr rfl) ?_ ?_ (hmasked (.inr rfl)) (hsaved (.inr rfl)) nofun
    · apply nodup_cons.mpr
      exact ⟨fun hc => hfree (mem_append_left _ hc), h.nodup⟩
    · simpa [level] using hlevel
  case uncount =>
    subst hs
    refine ok_saved (.inl rfl) h.nodup ?_ (hmasked (.inr rfl)) (hsaved (.inr rfl)) nofun
    simp only [State.goto, level]
    bv_omega
  case check =>
    subst hs
    split
    · rename_i hset
      have hguards : s.flow.guards = [] := by simpa using hzero.mp hset.1
      exact ok_saved (.inl rfl) h.nodup hlevel (hmasked (.inr rfl)) (hsaved (.inr rfl)) fun _ => ⟨hguards, hset.2⟩
    · exact ok_saved (.inr rfl) h.nodup hlevel (hmasked (.inr rfl)) (hsaved (.inr rfl)) nofun
  case set =>
    subst hs
    have hguards : s.flow.guards = [] := (h.set hpc).1
    have hidle : Flow.Idle { s.flow with pc := .run } := ⟨rfl, hguards⟩
    have hnone : s.nestedLevel = 0 := hzero.mpr (by simp [hguards])
    simp only [State.goto, hnone]
    exact hidle.ok

end flow

/-! ## Runs -/

section runs

variable {s t : State} {e : Event}

/-- What the statements leave alone. SIE is set by the last one only. -/
theorem next_frame (hs : next s = some t) :
    t.interrupted = s.interrupted ∧ t.flow.sieAtFirst = s.flow.sieAtFirst ∧
      (t.sie = true → s.sie = true ∨ s.flow.pc = .set) := by
  unfold next at hs
  cases hpc : s.flow.pc <;> simp only [hpc, some.injEq, reduceCtorEq, ite_none_left_eq_some] at hs
  case borrow =>
    obtain ⟨-, rfl⟩ := hs
    exact ⟨rfl, rfl, .inl⟩
  all_goals
    subst hs
    refine ⟨rfl, rfl, ?_⟩
    simp [State.goto]

theorem Inv.next (h : Inv s) (hs : next s = some t) : Inv t := by
  obtain ⟨hinterrupted, hfirst, hsie⟩ := next_frame hs
  refine ⟨next_ok h.flow hs, ?_⟩
  rw [hinterrupted, hfirst]
  rcases h.interrupted with hnone | ⟨f, hf, hstopped, hclear, hfalse⟩
  · exact .inl hnone
  · refine .inr ⟨f, hf, hstopped, ?_, hfalse⟩
    by_contra hset
    rcases hsie (by simpa using hset) with hold | hpc
    · simp [hclear] at hold
    · -- a handler would set SIE only if it had found it set
      have hbefore : s.sieBeforeMasking = s.flow.sieAtFirst := h.flow.saved (.inr (by rw [hpc]; rfl))
      simp [(h.flow.set hpc).2, hfalse] at hbefore

theorem Inv.level_idle (h : Inv s) (hidle : s.flow.Idle) : s.nestedLevel = 0 := by
  rw [h.flow.level_eq_zero, Flow.level_run hidle.1, hidle.2, length_nil]

theorem Inv.step (h : Inv s) (hs : step s e = some t) : Inv t := by
  cases e with
  | next => exact h.next hs
  | exclusiveAccess c =>
    obtain ⟨hpc, hs⟩ := ite_none_right_eq_some.mp hs
    cases hs
    have hlevel : s.nestedLevel.toNat = s.flow.guards.length := h.flow.level.trans (Flow.level_run hpc)
    refine ⟨⟨h.flow.nodup, hlevel, ?_, ?_, nofun, ?_, nofun⟩, ?_⟩
    · intro hguards
      exact h.flow.masked (.inl (by simpa [Pc.masked] using hguards))
    · intro c' b hread hguards
      cases hread
      exact ⟨rfl, (if_pos hguards).symm⟩
    · intro hguards
      have hguards : s.flow.guards ≠ [] := by simpa [Pc.saved] using hguards
      dsimp only
      rw [if_neg hguards]
      exact h.flow.saved (.inl hguards)
    · rcases h.interrupted with hnone | ⟨f, hf, hstopped, hclear, hfalse⟩
      · exact .inl hnone
      · exact .inr ⟨f, hf, hstopped, hclear, by simp [hclear, hfalse]⟩
  | drop c =>
    obtain ⟨⟨hpc, hc⟩, hs⟩ := ite_none_right_eq_some.mp hs
    cases hs
    have hguards : s.flow.guards ≠ [] := ne_nil_of_mem hc
    have hlevel : s.nestedLevel.toNat = s.flow.guards.length := h.flow.level.trans (Flow.level_run hpc)
    refine ⟨Flow.ok_saved (.inl rfl) (h.flow.nodup.erase c) ?_ ?_ (h.flow.saved (.inl hguards)) nofun, h.interrupted⟩
    · have hpos := length_pos_of_mem hc
      simp only [Flow.level, length_erase_of_mem hc]
      omega
    · exact h.flow.masked (.inl hguards)
  | interrupt =>
    obtain ⟨hsie, hs⟩ := ite_none_right_eq_some.mp hs
    cases hs
    have hflow := h.flow
    rw [hsie] at hflow
    obtain ⟨hstopped, hlevel⟩ := hflow.stopped
    have hnone : s.interrupted = [] := by
      rcases h.interrupted with hnone | ⟨f, -, -, hclear, -⟩
      · exact hnone
      · simp [hsie] at hclear
    refine ⟨?_, .inr ⟨s.flow, by rw [hnone], hstopped, rfl, rfl⟩⟩
    dsimp only
    rw [hlevel]
    exact Flow.Idle.ok ⟨rfl, rfl⟩
  | sret =>
    simp only [Masking.step] at hs
    rcases h.interrupted with hnone | ⟨f, hf, hstopped, -, -⟩
    · simp [hnone] at hs
    · rw [hf] at hs
      obtain ⟨hidle, hs⟩ := ite_none_right_eq_some.mp hs
      cases hs
      refine ⟨?_, .inl rfl⟩
      dsimp only
      rw [h.level_idle hidle]
      exact hstopped _
  | setSie b =>
    obtain ⟨⟨hidle, hnone⟩, hs⟩ := ite_none_right_eq_some.mp hs
    cases hs
    refine ⟨?_, .inl hnone⟩
    dsimp only
    rw [h.level_idle hidle]
    exact hidle.ok

theorem inv_reach (hs : machine.Reach s) : Inv s := by
  apply hs.inv
  · intro s ⟨hlevel, hflow, hnone⟩
    refine ⟨?_, .inl hnone⟩
    rw [hlevel, hflow]
    exact Flow.Idle.ok ⟨rfl, rfl⟩
  · intro s e t h hs
    exact h.step hs

/-- In `drop`, after the borrow of the guard has ended. -/
def Pc.dropping : Pc → Bool
  | .uncount | .check | .set => true
  | _ => false

/-- The statement with which the drop of the last guard ends leaves SIE as it was before the first. -/
theorem Inv.sie_restored (h : Inv s) (hs : Masking.next s = some t) (hdrop : s.flow.pc.dropping = true)
    (hidle : t.flow.Idle) : t.sie = t.flow.sieAtFirst := by
  have hfirst := (next_frame hs).2.1
  have hlevel := (h.next hs).level_idle hidle
  have hpcrun := hidle.1
  have hmasked := h.flow.masked
  have hsaved := h.flow.saved
  rw [hfirst]
  unfold Masking.next at hs
  cases hpc : s.flow.pc <;> rw [hpc] at hdrop hmasked hsaved <;> simp only [Pc.dropping, Bool.false_eq_true] at hdrop <;>
    simp only [hpc, some.injEq] at hs <;> subst hs
  case uncount => simp [State.goto] at hpcrun
  case check =>
    rw [← hsaved (.inr rfl)]
    have hzero : s.nestedLevel = 0 := hlevel
    have hbefore : s.sieBeforeMasking = false := by
      by_contra hset
      simp [State.goto, hzero, Bool.eq_true_of_not_eq_false hset] at hpcrun
    rw [hbefore]
    exact hmasked (.inr rfl)
  case set =>
    rw [← hsaved (.inr rfl)]
    exact (h.flow.set hpc).2.symm

end runs

/-- Whatever guards the flows of the kernel create and drop, in whatever order, and wherever interrupts come: SIE is
    clear while a guard is alive, so that no interrupt comes; and when the drop of the last guard of a flow ends,
    `nested_level` is 0 and SIE is what it was before the first was created. -/
theorem masking_nests {s : State} (hs : machine.Reach s) :
    ((∃ c, c ∈ s.guards) → s.sie = false ∧ machine.step s .interrupt = none) ∧
      ∀ t, machine.step s .next = some t → s.flow.pc.dropping = true → t.flow.Idle →
        t.nestedLevel = 0 ∧ t.sie = t.flow.sieAtFirst := by
  have h := inv_reach hs
  constructor
  · intro ⟨c, hc⟩
    have hsie : s.sie = false := by
      rcases h.interrupted with hnone | ⟨f, -, -, hclear, -⟩
      · simp only [State.guards, hnone, List.flatMap_nil, List.append_nil] at hc
        exact h.flow.masked (.inl (List.ne_nil_of_mem hc))
      · exact hclear
    exact ⟨hsie, by simp [machine, step, hsie]⟩
  · intro t hstep hdrop hidle
    exact ⟨(h.next hstep).level_idle hidle, h.sie_restored hstep hdrop hidle⟩

/-- An interrupt comes between the read of SIE and its clearing, and its handler uses a cell. Then two guards are
    alive. -/
def interruptedRun : List Event :=
  [.exclusiveAccess 0, .interrupt, .exclusiveAccess 1, .next, .next, .next, .next, .drop 1, .next, .next, .sret,
    .next, .next, .next, .next, .exclusiveAccess 2, .next, .next, .next, .next]

/-- The guard that was created first is dropped first, and the other one up to `set_sie`. -/
def dropsRun : List Event := [.drop 0, .next, .next, .drop 2, .next, .next]

theorem masking_nests_interrupted :
    (∃ s, machine.Reach s ∧ s.guards = [2, 0] ∧ s.sie = false ∧ machine.step s .interrupt = none) ∧
      ∃ s t, machine.Reach s ∧ s.flow.pc = .set ∧ machine.step s .next = some t ∧ t.nestedLevel = 0 ∧ t.sie = true := by
  have hinit : machine.Reach ⟨true, 0, false, .new, []⟩ := .init ⟨rfl, rfl, rfl⟩
  have htwo : ∃ s ∈ machine.run ⟨true, 0, false, .new, []⟩ interruptedRun, s.guards = [2, 0] := by decide +kernel
  have hlast : ∃ s ∈ machine.run ⟨true, 0, false, .new, []⟩ (interruptedRun ++ dropsRun),
      s.flow.pc = .set ∧ s.flow.guards = [] ∧ s.flow.sieAtFirst = true := by decide +kernel
  obtain ⟨s, hs, hguards⟩ := hinit.exists_run htwo
  obtain ⟨u, hu, hpc, hnone, hfirst⟩ := hinit.exists_run hlast
  have halive : ∃ c, c ∈ s.guards := ⟨2, by rw [hguards]; decide⟩
  refine ⟨⟨s, hs, hguards, (masking_nests hs).1 halive⟩, u, { u.goto .run with sie := true }, hu, hpc, ?_⟩
  have hstep : machine.step u .next = some { u.goto .run with sie := true } := by simp [machine, step, next, hpc]
  obtain ⟨hlevel, hsie⟩ := (masking_nests hu).2 _ hstep (by rw [hpc]; rfl) ⟨rfl, hnone⟩
  exact ⟨hstep, hlevel, hsie.trans hfirst⟩

/-! ## As one step -/

section intr

variable {s t : State} {e : Event}

/-- The masking of the processor: `enter` takes effect when SIE is cleared, `exit` at the end of the drop. -/
def State.intr (s : State) : Intr :=
  match s.flow.pc with
  | .run | .clear _ _ | .borrow _ | .uncount => ⟨s.sie, s.nestedLevel.toNat, s.sieBeforeMasking⟩
  | .save _ sie => ⟨s.sie, s.nestedLevel.toNat + 1, if s.nestedLevel = 0 then sie else s.sieBeforeMasking⟩
  | .count _ | .check | .set => ⟨s.sie, s.nestedLevel.toNat + 1, s.sieBeforeMasking⟩

/-- What a step does to it. -/
def State.effect (s : State) : Event → Intr → Intr
  | .next =>
    match s.flow.pc with
    | .clear _ _ => Intr.enter
    | .check => if s.nestedLevel = 0 ∧ s.sieBeforeMasking = true then id else Intr.exit
    | .set => Intr.exit
    | _ => id
  | .interrupt => fun i => { i with sie := false }
  | .sret => fun i => { i with sie := true }
  | .setSie b => fun i => { i with sie := b }
  | .exclusiveAccess _ | .drop _ => id

theorem Inv.toNat_eq_zero (h : Inv s) : s.nestedLevel.toNat = 0 ↔ s.nestedLevel = 0 := by
  rw [h.flow.level_eq_zero, h.flow.level]

theorem next_intr (h : Inv s) (hs : next s = some t) : t.intr = s.effect .next s.intr := by
  have hlevel := h.flow.level
  have hlen := length_guards_le h.flow.nodup
  have hmasked := h.flow.masked
  unfold next at hs
  unfold Flow.level at hlevel
  cases hpc : s.flow.pc <;> rw [hpc] at hmasked hlevel <;>
    simp only [hpc, some.injEq, reduceCtorEq, ite_none_left_eq_some] at hs <;>
    simp only [State.effect, hpc, State.intr, id_eq]
  case clear c b =>
    subst hs
    change mk false (s.nestedLevel.toNat + 1) (if s.nestedLevel = 0 then b else s.sieBeforeMasking) =
      ⟨false, s.nestedLevel.toNat + 1, if s.nestedLevel.toNat = 0 then s.sie else s.sieBeforeMasking⟩
    by_cases hzero : s.nestedLevel = 0
    · -- what was read is still what SIE is
      have hguards : s.flow.guards = [] := length_eq_zero_iff.mp (hlevel.symm.trans (h.toNat_eq_zero.mpr hzero))
      rw [if_pos hzero, if_pos (h.toNat_eq_zero.mpr hzero), (h.flow.read c b hpc hguards).1]
    · rw [if_neg hzero, if_neg (mt h.toNat_eq_zero.mp hzero)]
  case save c b =>
    subst hs
    rfl
  case count c =>
    subst hs
    simp only [State.goto, mk.injEq, true_and, and_true]
    bv_omega
  case borrow c =>
    obtain ⟨-, rfl⟩ := hs
    rfl
  case uncount =>
    subst hs
    simp only [State.goto, mk.injEq, true_and, and_true]
    bv_omega
  case check =>
    subst hs
    have hclear : s.sie = false := hmasked (.inr rfl)
    by_cases hset : s.nestedLevel = 0 ∧ s.sieBeforeMasking = true
    · simp only [if_pos hset, State.goto, id_eq]
    · have hkeep : (s.nestedLevel.toNat == 0 && s.sieBeforeMasking) = false := by
        rw [← h.toNat_eq_zero] at hset
        simpa using hset
      simp only [if_neg hset, State.goto, exit, hclear, Nat.add_sub_cancel, hkeep, Bool.false_or]
  case set =>
    subst hs
    obtain ⟨hguards, hbefore⟩ := h.flow.set hpc
    have hzero : s.nestedLevel.toNat = 0 := by simpa [hguards] using hlevel
    simp [State.goto, exit, hbefore, hzero]

/-- A flow outside of its critical sections, which an interrupt may stop. -/
theorem Flow.Stopped.intr (h : s.flow.Stopped) : s.intr = ⟨s.sie, s.nestedLevel.toNat, s.sieBeforeMasking⟩ := by
  have hmasked := (h true).masked
  unfold State.intr
  cases hpc : s.flow.pc <;> simp_all [Pc.masked]

/-- `Intr.enter` and `Intr.exit` are what the statements of `enter` and `drop` amount to; an interrupt clears SIE and
    its return sets it. -/
theorem step_intr (hs : machine.Reach s) (hstep : step s e = some t) : t.intr = s.effect e s.intr := by
  have h := inv_reach hs
  cases e with
  | next => exact next_intr h hstep
  | exclusiveAccess c =>
    obtain ⟨hpc, hstep⟩ := ite_none_right_eq_some.mp hstep
    cases hstep
    simp [State.intr, State.effect, hpc]
  | drop c =>
    obtain ⟨⟨hpc, -⟩, hstep⟩ := ite_none_right_eq_some.mp hstep
    cases hstep
    simp [State.intr, State.effect, hpc]
  | interrupt =>
    obtain ⟨hsie, hstep⟩ := ite_none_right_eq_some.mp hstep
    cases hstep
    have hflow := h.flow
    rw [hsie] at hflow
    rw [State.effect, hflow.stopped.1.intr]
    rfl
  | sret =>
    simp only [step] at hstep
    rcases h.interrupted with hnone | ⟨f, hf, hstopped, -, -⟩
    · simp [hnone] at hstep
    · rw [hf] at hstep
      obtain ⟨hidle, hstep⟩ := ite_none_right_eq_some.mp hstep
      cases hstep
      rw [Flow.Stopped.intr hstopped]
      simp [State.intr, State.effect, hidle.1]
  | setSie b =>
    obtain ⟨⟨hidle, -⟩, hstep⟩ := ite_none_right_eq_some.mp hstep
    cases hstep
    simp [State.intr, State.effect, hidle.1]

end intr

end TCore.Kernel.Masking
