/-
  TCore.Kernel.BlockIo — block I/O by interrupts (drivers/block/virtio_blk.rs, sync/up.rs).

  `read_block` and `write_block` submit a request, enter the wait queue of its token and mark the
  task blocked, all in one session with the device's cell; `schedule` follows after the session.
  The cells of the device and of its condition variables mask interrupts (`Intr`), so a handler
  runs before the session or after it. It takes the tokens of all completed requests from the used
  ring and signals their condition variables.

  Of the virtio driver the model takes what it promises: tokens of requests that are not done are
  distinct and below the size of the queue, and each completed token is popped once. A request it
  refuses panics (`unwrap`) and is not one of the steps here.

  `wakeup_task` borrows the task and `TASK_MANAGER`, whose cells mask nothing: a handler that finds
  one of them borrowed by the code it interrupted panics (`completion_panics`, while `run_tasks`
  looks for a task).

  The task of a request beside its token is not read by the handler. `requests`, `completions`
  and `wakeups` count for each task.
-/

import TCore.Lib.Lists
import TCore.Kernel.Tasks

namespace TCore.Kernel

open TCore.Lib
open Function (update update_apply)
open List Option Intr

/-- Where a task is in `read_block` or `write_block`, with the token of its request. -/
inductive BlkStage where
  /-- In the session. -/
  | session
  | submitted (k : Nat)
  /-- In the inner session, with the condition variable. -/
  | locked (k : Nat)
  | pushed (k : Nat)
  /-- The inner session is over. -/
  | unlocked (k : Nat)
  /-- No longer `PROCESSOR.current`. -/
  | blocked (k : Nat)
  /-- The session is over, `schedule` comes next. -/
  | left (k : Nat)
  deriving DecidableEq

/-- What `wakeup_task` borrows. -/
inductive WakeCell (τ : Type) where
  | taskManager
  | inner (t : τ)
  deriving DecidableEq

structure BlkState (τ : Type) where
  size : Nat
  intr : Intr
  /-- The task on the processor that is in a `read_block` or `write_block`. -/
  cpu : Option (τ × BlkStage)
  /-- What other code on the processor has borrowed. -/
  held : List (WakeCell τ)
  inFlight : List (Nat × τ)
  used : List (Nat × τ)
  queue : Nat → List τ
  status : τ → TaskStatus
  requests : τ → Nat
  completions : τ → Nat
  wakeups : τ → Nat

inductive BlkEvent (τ : Type) where
  | start (t : τ)
  /-- The driver answers with token `k`. -/
  | submit (k : Nat)
  /-- The call goes on to its next step. -/
  | next
  /-- The device is done with request `k`. -/
  | complete (k : Nat)
  | irq
  /-- A woken task gets the processor back. -/
  | resume (t : τ)
  /-- Other code sets `sstatus.SIE`. -/
  | setSie (b : Bool)
  | hold (c : WakeCell τ)
  | release (c : WakeCell τ)

namespace BlkState

variable {τ : Type} [DecidableEq τ]

def boot (size : Nat) (sie : Bool) : BlkState τ :=
  ⟨size, ⟨sie, 0, false⟩, none, [], [], [], fun _ => [], fun _ => .running, fun _ => 0, fun _ => 0, fun _ => 0⟩

def pending (s : BlkState τ) : List (Nat × τ) := s.inFlight ++ s.used

/-- The device's cell is borrowed. -/
def inSession (s : BlkState τ) : Bool :=
  match s.cpu with
  | none | some (_, .left _) => false
  | _ => true

/-- A session begins. -/
def start (s : BlkState τ) (t : τ) : BlkState τ := { s with cpu := some (t, .session), intr := s.intr.enter }

/-- The driver takes the request and answers with token `k`. -/
def submit (s : BlkState τ) (t : τ) (k : Nat) : BlkState τ :=
  { s with
    cpu := some (t, .submitted k), inFlight := s.inFlight ++ [(k, t)], requests := update s.requests t (s.requests t + 1) }

/-- The device puts a request into the used ring. -/
def complete (s : BlkState τ) (x : Nat × τ) : BlkState τ :=
  { s with
    inFlight := s.inFlight.erase x, used := s.used ++ [x]
    completions := update s.completions x.2 (s.completions x.2 + 1) }

/-- The steps of a call after the driver's answer. -/
def next (s : BlkState τ) (t : τ) : BlkStage → Option (BlkState τ)
  | .session => none
  | .submitted k => some { s with cpu := some (t, .locked k), intr := s.intr.enter }
  | .locked k => some { s with cpu := some (t, .pushed k), queue := update s.queue k (s.queue k ++ [t]) }
  | .pushed k => some { s with cpu := some (t, .unlocked k), intr := s.intr.exit }
  | .unlocked k => some { s with cpu := some (t, .blocked k), status := update s.status t .blocked }
  | .blocked k => some { s with cpu := some (t, .left k), intr := s.intr.exit }
  | .left _ => some { s with cpu := none }

/-- The first task of the queue of token `k` is woken, the others stay. -/
def wake (s : BlkState τ) (k : Nat) (w : τ) (rest : List τ) : BlkState τ :=
  { s with
    queue := update s.queue k rest, status := update s.status w .ready, wakeups := update s.wakeups w (s.wakeups w + 1) }

/-- `Condvar::signal`; `none` is a cell that is borrowed already. -/
def signal (s : BlkState τ) (k : Nat) : Option (BlkState τ) :=
  match s.queue k with
  | [] => some s
  | w :: rest => if .inner w ∈ s.held ∨ .taskManager ∈ s.held then none else some (s.wake k w rest)

/-- `while let Ok(token) = blk.pop_used()`. -/
def drain : List (Nat × τ) → BlkState τ → Option (BlkState τ)
  | [], s => some s
  | (k, _) :: rest, s => (signal { s with used := rest } k).bind (drain rest)

def handleIrq (s : BlkState τ) : Option (BlkState τ) := if s.inSession then none else drain s.used s

def step (s : BlkState τ) : BlkEvent τ → Option (BlkState τ)
  | .start t => if s.cpu = none ∧ s.held = [] ∧ s.status t = .running then some (s.start t) else none
  | .submit k =>
    match s.cpu with
    | some (t, .session) => if k < s.size ∧ k ∉ s.pending.map (·.1) then some (s.submit t k) else none
    | _ => none
  | .next => s.cpu.bind fun x => s.next x.1 x.2
  | .complete k => (s.inFlight.find? fun x => x.1 = k).map s.complete
  | .irq => if s.intr.sie then s.handleIrq else none
  | .resume t =>
    if s.cpu = none ∧ s.held = [] ∧ s.status t = .ready then some { s with status := update s.status t .running } else none
  | .setSie b => if s.inSession then none else some { s with intr := { s.intr with sie := b } }
  | .hold c => if s.cpu = none ∧ c ∉ s.held then some { s with held := c :: s.held } else none
  | .release c => if s.cpu = none then some { s with held := s.held.erase c } else none

end BlkState

def blockIo (τ : Type) [DecidableEq τ] : Machine (BlkState τ) (BlkEvent τ) where
  init s := ∃ size sie, s = BlkState.boot size sie
  step := BlkState.step

namespace BlkStage

/-- How deep the sessions are nested. -/
def level : BlkStage → Nat
  | session | submitted _ | unlocked _ | blocked _ => 1
  | locked _ | pushed _ => 2
  | left _ => 0

/-- The token of a request whose task is not marked blocked yet. -/
def awake : BlkStage → Option Nat
  | submitted k | locked k | pushed k | unlocked k => some k
  | session | blocked _ | left _ => none

/-- The request is submitted and its task is not in the wait queue yet. -/
def unqueued : BlkStage → Bool
  | submitted _ | locked _ => true
  | _ => false

end BlkStage

namespace BlkState

variable {τ : Type} [DecidableEq τ] {s s' : BlkState τ} {t : τ} {k : Nat}

/-! ## The invariant -/

def level (s : BlkState τ) : Nat := (s.cpu.map fun x => x.2.level).getD 0

/-- The request of the call whose task is not marked blocked yet. -/
def awake (s : BlkState τ) : Option (Nat × τ) := s.cpu.bind fun x => x.2.awake.map fun k => (k, x.1)

/-- The task of the call that has submitted its request and is not in the wait queue yet. -/
def unqueued (s : BlkState τ) : Option τ := s.cpu.bind fun x => if x.2.unqueued then some x.1 else none

structure Inv (s : BlkState τ) : Prop where
  tokens : (s.pending.map (·.1)).Nodup
  tasks : (s.pending.map (·.2)).Nodup
  queue : ∀ k t, t ∈ s.queue k ↔ (k, t) ∈ s.pending ∧ s.unqueued ≠ some t
  once : ∀ k, (s.queue k).Nodup
  requests : ∀ t, s.requests t = s.completions t + (s.inFlight.map (·.2)).count t
  completions : ∀ t, s.completions t = s.wakeups t + (s.used.map (·.2)).count t
  owner : ∀ k t, (k, t) ∈ s.pending → s.status t = .blocked ∨ s.awake = some (k, t)
  session : ∀ t, s.cpu = some (t, .session) → s.status t = .running
  token : ∀ k t, s.awake = some (k, t) → (k, t) ∈ s.pending ∧ s.status t = .running
  masked : s.intr.nestedLevel = s.level ∧ (0 < s.level → s.intr.sie = false)

theorem Inv.token_inj (h : Inv s) {u : τ} (ht : (k, t) ∈ s.pending) (hu : (k, u) ∈ s.pending) : t = u := by
  have heq := inj_on_of_nodup_map h.tokens ht hu rfl
  exact congrArg Prod.snd heq

theorem Inv.task_inj (h : Inv s) {l : Nat} (hk : (k, t) ∈ s.pending) (hl : (l, t) ∈ s.pending) : k = l := by
  have heq := inj_on_of_nodup_map h.tasks hk hl rfl
  exact congrArg Prod.fst heq

theorem inv_boot (size : Nat) (sie : Bool) : Inv (boot size sie : BlkState τ) := by
  constructor <;> simp [boot, pending, level, awake]

/-! ## The steps of a call -/

open BlkState

open BlkStage

/-- A step that moves nothing but the call itself. -/
theorem Inv.move {cpu : Option (τ × BlkStage)} {i : Intr} (h : Inv s)
    (hu : unqueued { s with cpu := cpu, intr := i } = s.unqueued) (ha : awake { s with cpu := cpu, intr := i } = s.awake)
    (hsession : ∀ t, cpu = some (t, .session) → s.status t = .running)
    (hm : i.nestedLevel = level { s with cpu := cpu } ∧ (0 < level { s with cpu := cpu } → i.sie = false)) :
    Inv { s with cpu := cpu, intr := i } := by
  refine ⟨h.tokens, h.tasks, fun k t => ?_, h.once, h.requests, h.completions, fun k t hk => ?_, hsession, fun k t hk => ?_, hm⟩
  · rw [hu]
    exact h.queue k t
  · rw [ha]
    exact h.owner k t hk
  · rw [ha] at hk
    exact h.token k t hk

theorem Inv.start (h : Inv s) (hc : s.cpu = none) (ht : s.status t = .running) : Inv (s.start t) := by
  have hlevel : s.intr.nestedLevel = 0 := by simpa [level, hc] using h.masked.1
  refine h.move (by simp [unqueued, hc, BlkStage.unqueued]) (by simp [awake, hc, BlkStage.awake]) ?_ ?_
  · rintro u ⟨⟩
    exact ht
  · simp [level, BlkStage.level, enter, hlevel]

/-- A task that begins a request has none that is not done. -/
theorem Inv.free (h : Inv s) (hc : s.cpu = some (t, .session)) : t ∉ s.pending.map (·.2) := by
  intro hmem
  obtain ⟨⟨l, u⟩, hm, rfl⟩ := mem_map.mp hmem
  have hrun := h.session u hc
  rcases h.owner l u hm with hb | ha
  · rw [hb] at hrun
    cases hrun
  · rw [awake, hc] at ha
    cases ha

variable {x : Nat × τ}

theorem mem_pending_submit : x ∈ (s.submit t k).pending ↔ x = (k, t) ∨ x ∈ s.pending := by
  simp only [submit, pending, mem_append, mem_singleton]
  tauto

theorem nodup_map_submit {β : Type} [DecidableEq β] {f : Nat × τ → β} (h : (s.pending.map f).Nodup)
    (hk : f (k, t) ∉ s.pending.map f) : ((s.submit t k).pending.map f).Nodup := by
  rw [nodup_iff_count_le_one] at h ⊢
  intro a
  have ha := h a
  have hzero := count_eq_zero.mpr hk
  simp only [submit, pending, map_append, count_append, map_cons, map_nil] at ha hzero ⊢
  rw [count_singleton]
  split
  · rename_i heq
    rw [beq_iff_eq.mp heq] at hzero
    omega
  · omega

theorem Inv.submit (h : Inv s) (hc : s.cpu = some (t, .session)) (hk : k ∉ s.pending.map (·.1)) : Inv (s.submit t k) := by
  have hfree := h.free hc
  refine ⟨nodup_map_submit h.tokens hk, nodup_map_submit h.tasks hfree, fun l u => ?_, h.once, fun u => ?_, h.completions,
    fun l u hm => ?_, nofun, ?_, ?_⟩
  · have hqueue : u ∈ (s.submit t k).queue l ↔ _ := h.queue l u
    rw [hqueue, mem_pending_submit]
    have hnow : (s.submit t k).unqueued = some t := rfl
    have hold : s.unqueued = none := by rw [unqueued, hc]; rfl
    rw [hnow, hold]
    by_cases hu : u = t
    · subst hu
      have hnot : (l, u) ∉ s.pending := fun hm => hfree (mem_map_of_mem hm)
      simp [hnot]
    · simp [hu, Ne.symm hu]
  · simp only [BlkState.submit, map_append, count_append, update_apply, map_cons, map_nil]
    rw [count_singleton]
    have hreq := h.requests u
    by_cases hu : u = t
    · subst hu
      simp only [if_true, beq_self_eq_true]
      omega
    · rw [if_neg hu, if_neg (by simpa using Ne.symm hu)]
      omega
  · rcases mem_pending_submit.mp hm with heq | hm
    · cases heq
      exact .inr rfl
    · refine .inl ((h.owner l u hm).resolve_right fun ha => ?_)
      rw [awake, hc] at ha
      cases ha
  · rintro l u ⟨⟩
    exact ⟨mem_pending_submit.mpr (.inl rfl), h.session t hc⟩
  · have hm := h.masked
    simp only [level, hc, map_some, getD_some, level] at hm
    simpa [BlkState.submit, level, BlkStage.level] using hm

variable {st : BlkStage}

theorem Inv.push (h : Inv s) (hc : s.cpu = some (t, .locked k)) :
    Inv { s with cpu := some (t, .pushed k), queue := update s.queue k (s.queue k ++ [t]) } := by
  have hawake : s.awake = some (k, t) := by rw [awake, hc]; rfl
  have hpend := (h.token k t hawake).1
  have hqueue : ∀ l u, u ∈ s.queue l ↔ (l, u) ∈ s.pending ∧ u ≠ t := by
    intro l u
    have hwaits : s.unqueued = some t := by rw [unqueued, hc]; rfl
    rw [h.queue, hwaits, ne_eq, some.injEq, eq_comm]
  have hm := h.masked
  simp only [level, hc, map_some, getD_some, level] at hm
  refine ⟨h.tokens, h.tasks, fun l u => ?_, fun l => ?_, h.requests, h.completions, fun l u hmem => ?_, nofun, ?_, hm⟩
  · -- nobody but `t` comes into the queue, and only into the one of its token
    refine Iff.trans ?_ (and_iff_left (some_ne_none u).symm).symm
    have hiff : u ∈ update s.queue k (s.queue k ++ [t]) l ↔ u ∈ s.queue l ∨ l = k ∧ u = t := by
      rw [update_apply]
      split
      · rename_i hl
        simp [hl]
      · rename_i hl
        simp [hl]
    rw [hiff, hqueue]
    constructor
    · rintro (⟨hmem, -⟩ | ⟨rfl, rfl⟩)
      · exact hmem
      · exact hpend
    · intro hmem
      by_cases hu : u = t
      · subst hu
        exact .inr ⟨h.task_inj hmem hpend, rfl⟩
      · exact .inl ⟨hmem, hu⟩
  · simp only [update_apply]
    split
    · simpa [nodup_append] using ⟨h.once k, fun u hu hut => ((hqueue k u).mp hu).2 hut⟩
    · exact h.once l
  · exact (h.owner l u hmem).imp_right fun ha => hawake.symm.trans ha
  · exact fun l u ha => h.token l u (hawake.trans ha)

theorem Inv.block (h : Inv s) (hc : s.cpu = some (t, .unlocked k)) :
    Inv { s with cpu := some (t, .blocked k), status := update s.status t .blocked } := by
  have hm := h.masked
  simp only [level, hc, map_some, getD_some, level] at hm
  refine ⟨h.tokens, h.tasks, fun l u => ?_, h.once, h.requests, h.completions, fun l u hmem => ?_, nofun, nofun, hm⟩
  · have hqueue := h.queue l u
    rwa [unqueued, hc] at hqueue
  · left
    simp only [update_apply]
    split
    · rfl
    · rename_i hu
      refine (h.owner l u hmem).resolve_right fun ha => ?_
      rw [awake, hc] at ha
      cases ha
      exact hu rfl

theorem Inv.next (h : Inv s) (hc : s.cpu = some (t, st)) (hs : s.next t st = some s') : Inv s' := by
  have hm := h.masked
  simp only [level, hc, map_some, getD_some] at hm
  cases st with
  | session => cases hs
  | submitted k =>
    cases hs
    refine h.move (by rw [unqueued, unqueued, hc]; rfl) (by rw [awake, awake, hc]; rfl) nofun ?_
    simpa [enter, level, BlkStage.level] using hm.1
  | locked k =>
    cases hs
    exact h.push hc
  | pushed k =>
    cases hs
    refine h.move (by rw [unqueued, unqueued, hc]; rfl) (by rw [awake, awake, hc]; rfl) nofun ?_
    obtain ⟨hnest, hsie⟩ := hm
    simp only [BlkStage.level] at hnest hsie
    simp [exit, level, BlkStage.level, hnest, hsie]
  | unlocked k =>
    cases hs
    exact h.block hc
  | blocked k =>
    cases hs
    refine h.move (by rw [unqueued, unqueued, hc]; rfl) (by rw [awake, awake, hc]; rfl) nofun ?_
    simp only [BlkStage.level] at hm
    simp [exit, level, BlkStage.level, hm.1]
  | left k =>
    cases hs
    exact h.move (by rw [unqueued, unqueued, hc]; rfl) (by rw [awake, awake, hc]; rfl) nofun hm

/-! ## The device and its interrupts -/

theorem mem_pending_complete {y : Nat × τ} (hx : x ∈ s.inFlight) (hnodup : (s.pending.map (·.1)).Nodup) :
    y ∈ (s.complete x).pending ↔ y ∈ s.pending := by
  have hnd : s.inFlight.Nodup := (Nodup.of_map _ hnodup).of_append_left
  simp only [complete, pending, mem_append, hnd.mem_erase_iff, mem_singleton]
  by_cases hy : y = x
  · simp [hy, hx]
  · simp [hy]

theorem count_map_complete {β : Type} [DecidableEq β] (f : Nat × τ → β) (hx : x ∈ s.inFlight) (b : β) :
    ((s.complete x).pending.map f).count b = (s.pending.map f).count b := by
  have herase := count_map_erase f hx b
  simp only [complete, pending, map_append, count_append, map_cons, map_nil]
  omega

theorem Inv.complete (h : Inv s) (hx : x ∈ s.inFlight) : Inv (s.complete x) := by
  have hmem : ∀ {y}, y ∈ (s.complete x).pending ↔ y ∈ s.pending := mem_pending_complete hx h.tokens
  have herase := count_map_erase (·.2) hx
  refine ⟨?_, ?_, fun l u => ?_, h.once, fun u => ?_, fun u => ?_, fun l u hy => h.owner l u (hmem.mp hy), h.session,
    fun l u ha => ⟨hmem.mpr (h.token l u ha).1, (h.token l u ha).2⟩, h.masked⟩
  · rw [nodup_iff_count_le_one]
    intro b
    rw [count_map_complete _ hx]
    exact nodup_iff_count_le_one.mp h.tokens b
  · rw [nodup_iff_count_le_one]
    intro b
    rw [count_map_complete _ hx]
    exact nodup_iff_count_le_one.mp h.tasks b
  · rw [hmem]
    exact h.queue l u
  · have hreq := h.requests u
    have hcount := herase u
    rw [count_singleton] at hcount
    simp only [BlkState.complete, update_apply]
    by_cases hu : u = x.2
    · subst hu
      rw [if_pos (by simp)] at hcount
      rw [if_pos rfl]
      omega
    · rw [if_neg (by simpa using Ne.symm hu)] at hcount
      rw [if_neg hu]
      omega
  · have hcomp := h.completions u
    simp only [BlkState.complete, map_append, count_append, map_cons, map_nil, update_apply]
    rw [count_singleton]
    by_cases hu : u = x.2
    · subst hu
      rw [if_pos rfl, if_pos (by simp)]
      omega
    · rw [if_neg hu, if_neg (by simpa using Ne.symm hu)]
      omega

omit [DecidableEq τ] in
theorem inSession_iff : s.inSession = true ↔ 0 < s.level := by
  rw [inSession, level]
  rcases s.cpu with _ | ⟨t, st⟩
  · simp
  · cases st <;> simp [BlkStage.level]

omit [DecidableEq τ] in
/-- Outside a session no call is between its request and the wait. -/
theorem outside_session (hs : s.inSession = false) : s.unqueued = none ∧ s.awake = none ∧ s.level = 0 := by
  rw [← Bool.not_eq_true, inSession_iff, level] at hs
  rw [unqueued, awake, level]
  rcases hc : s.cpu with _ | ⟨t, st⟩
  · simp
  · rw [hc] at hs
    cases st <;> simp_all [BlkStage.level, BlkStage.unqueued, BlkStage.awake]

/-- Outside a session the queue of a completed request holds its task and nobody else. -/
theorem Inv.queue_eq (h : Inv s) (hs : s.inSession = false) (hm : (k, t) ∈ s.pending) : s.queue k = [t] := by
  have ht : t ∈ s.queue k := (h.queue k t).mpr ⟨hm, by rw [(outside_session hs).1]; exact (some_ne_none t).symm⟩
  have hall : ∀ u ∈ s.queue k, u = t := by
    intro u hu
    exact h.token_inj ((h.queue k u).mp hu).1 hm
  have honce := h.once k
  cases hq : s.queue k with
  | nil => simp [hq] at ht
  | cons a l =>
    rw [hq] at hall honce
    obtain rfl := hall a mem_cons_self
    cases l with
    | nil => rfl
    | cons b l =>
      obtain rfl := hall b (by simp)
      simp at honce

variable {rest : List (Nat × τ)}

theorem Inv.mem_popped (h : Inv s) (hused : s.used = (k, t) :: rest) {y : Nat × τ} :
    y ∈ s.inFlight ++ rest ↔ y ∈ s.pending ∧ y ≠ (k, t) := by
  have hperm : s.pending.Perm ((k, t) :: (s.inFlight ++ rest)) := by
    rw [pending, hused]
    exact perm_middle
  have hnd := hperm.nodup_iff.mp (Nodup.of_map _ h.tokens)
  rw [hperm.mem_iff, mem_cons]
  constructor
  · intro hy
    refine ⟨.inr hy, ?_⟩
    rintro rfl
    exact (nodup_cons.mp hnd).1 hy
  · rintro ⟨rfl | hy, hne⟩
    · exact absurd rfl hne
    · exact hy

/-- The handler pops a token and wakes the task of its request. -/
theorem Inv.pop (h : Inv s) (hs : s.inSession = false) (hused : s.used = (k, t) :: rest) :
    Inv ({ s with used := rest }.wake k t []) := by
  have hmem : (k, t) ∈ s.pending := by simp [pending, hused]
  have hpop : ∀ {y}, y ∈ ({ s with used := rest }.wake k t []).pending ↔ _ := h.mem_popped hused
  have hsub : (s.inFlight ++ rest).Sublist s.pending := by
    rw [pending, hused]
    exact Sublist.append (Sublist.refl _) (sublist_cons_self _ _)
  refine ⟨h.tokens.sublist (hsub.map _), h.tasks.sublist (hsub.map _), fun l u => ?_, fun l => ?_, h.requests, fun u => ?_,
    fun l u hy => ?_, fun u hc => ?_, fun l u ha => ?_, h.masked⟩
  · rw [hpop]
    simp only [wake, update_apply]
    split
    · rename_i hl
      subst hl
      simp only [not_mem_nil, false_iff]
      rintro ⟨⟨hm, hne⟩, -⟩
      exact hne (by rw [h.token_inj hm hmem])
    · rename_i hl
      rw [h.queue]
      simp [hl, unqueued]
  · simp only [wake, update_apply]
    split
    · exact nodup_nil
    · exact h.once l
  · have hcomp := h.completions u
    rw [hused, map_cons, count_cons] at hcomp
    simp only [wake, update_apply]
    by_cases hu : u = t
    · subst hu
      rw [if_pos (by simp)] at hcomp
      rw [if_pos rfl]
      omega
    · rw [if_neg (by simpa using Ne.symm hu)] at hcomp
      rw [if_neg hu]
      omega
  · obtain ⟨hm, hne⟩ := hpop.mp hy
    have hu : u ≠ t := by
      rintro rfl
      exact hne (by rw [h.task_inj hm hmem])
    simp only [wake, update_apply]
    rw [if_neg hu]
    exact h.owner l u hm
  · rw [inSession, show s.cpu = _ from hc] at hs
    cases hs
  · cases (outside_session hs).2.1.symm.trans ha

/-- Nobody has what the handler needs to wake the tasks of the completed requests. -/
def Free (s : BlkState τ) : Prop := ∀ x ∈ s.used, .inner x.2 ∉ s.held ∧ .taskManager ∉ s.held

theorem Inv.signal (h : Inv s) (hs : s.inSession = false) (hused : s.used = (k, t) :: rest) :
    signal { s with used := rest } k =
      if .inner t ∈ s.held ∨ .taskManager ∈ s.held then none else some ({ s with used := rest }.wake k t []) := by
  have hq : { s with used := rest }.queue k = [t] := h.queue_eq hs (by simp [pending, hused])
  rw [BlkState.signal, hq]

/-- The loop of the handler wakes the task of every completed request, or panics. -/
theorem Inv.drain {l : List (Nat × τ)} (h : Inv s) (hs : s.inSession = false) (hused : s.used = l) :
    (Free s → ∃ s', drain l s = some s' ∧ Inv s' ∧ s'.used = [] ∧ s'.completions = s.completions ∧
      s'.inSession = false) ∧ (¬ Free s → drain l s = none) := by
  induction l generalizing s with
  | nil =>
    refine ⟨fun _ => ⟨s, rfl, h, hused, rfl, hs⟩, fun hfree => absurd ?_ hfree⟩
    simp [Free, hused]
  | cons x rest ih =>
    rcases x with ⟨k, t⟩
    rw [drain, h.signal hs hused]
    have hnext := ih (h.pop hs hused) hs rfl
    have hfree : Free s ↔ ¬ (.inner t ∈ s.held ∨ .taskManager ∈ s.held) ∧ Free ({ s with used := rest }.wake k t []) := by
      simp [Free, hused, wake, not_or]
    constructor
    · intro hf
      obtain ⟨hhead, htail⟩ := hfree.mp hf
      rw [if_neg hhead, bind_some]
      exact hnext.1 htail
    · intro hf
      split
      · rfl
      · rename_i hhead
        rw [bind_some]
        exact hnext.2 fun htail => hf (hfree.mpr ⟨hhead, htail⟩)

/-- With interrupts on nobody is in a session. -/
theorem Inv.not_inSession (h : Inv s) (hsie : s.intr.sie = true) : s.inSession = false := by
  rw [← Bool.not_eq_true, inSession_iff]
  intro hpos
  rw [h.masked.2 hpos] at hsie
  cases hsie

theorem Inv.step {e : BlkEvent τ} (h : Inv s) (hs : s.step e = some s') : Inv s' := by
  cases e with
  | start t =>
    obtain ⟨⟨hc, -, ht⟩, ⟨⟩⟩ := ite_none_right_eq_some.mp hs
    exact h.start hc ht
  | submit k =>
    simp only [BlkState.step] at hs
    split at hs
    · rename_i t hc
      obtain ⟨⟨-, hk⟩, ⟨⟩⟩ := ite_none_right_eq_some.mp hs
      exact h.submit hc hk
    · cases hs
  | next =>
    obtain ⟨⟨t, st⟩, hc, hs⟩ := bind_eq_some_iff.mp hs
    exact h.next hc hs
  | complete k =>
    obtain ⟨x, hx, rfl⟩ := map_eq_some_iff.mp hs
    exact h.complete (mem_of_find?_eq_some hx)
  | irq =>
    obtain ⟨hsie, hs⟩ := ite_none_right_eq_some.mp hs
    obtain ⟨hin, hs⟩ := ite_none_left_eq_some.mp hs
    have hdrain := h.drain (by simpa using hin) rfl
    by_cases hf : Free s
    · obtain ⟨s₁, hs₁, hinv, -⟩ := hdrain.1 hf
      rw [hs] at hs₁
      cases hs₁
      exact hinv
    · rw [hdrain.2 hf] at hs
      cases hs
  | resume t =>
    obtain ⟨⟨hc, -, ht⟩, ⟨⟩⟩ := ite_none_right_eq_some.mp hs
    have hother : ∀ {u st}, s.status u = st → st ≠ .ready → update s.status t .running u = st := by
      intro u st hu hne
      rw [update_apply, if_neg, hu]
      rintro rfl
      exact hne (hu.symm.trans ht)
    refine ⟨h.tokens, h.tasks, h.queue, h.once, h.requests, h.completions, fun k u hm => ?_, fun u hu => ?_, fun k u ha => ?_,
      h.masked⟩
    · exact (h.owner k u hm).imp_left fun hb => hother hb (by decide)
    · exact hother (h.session u hu) (by decide)
    · exact ⟨(h.token k u ha).1, hother (h.token k u ha).2 (by decide)⟩
  | setSie b =>
    obtain ⟨hin, ⟨⟩⟩ := ite_none_left_eq_some.mp hs
    refine h.move rfl rfl h.session ⟨h.masked.1, fun hpos => ?_⟩
    rw [show level _ = 0 from (outside_session (by simpa using hin)).2.2] at hpos
    cases hpos
  | hold c =>
    obtain ⟨-, ⟨⟩⟩ := ite_none_right_eq_some.mp hs
    exact ⟨h.tokens, h.tasks, h.queue, h.once, h.requests, h.completions, h.owner, h.session, h.token, h.masked⟩
  | release c =>
    obtain ⟨-, ⟨⟩⟩ := ite_none_right_eq_some.mp hs
    exact ⟨h.tokens, h.tasks, h.queue, h.once, h.requests, h.completions, h.owner, h.session, h.token, h.masked⟩

theorem inv_reach (h : (blockIo τ).Reach s) : Inv s := by
  refine h.inv Inv ?_ fun s e t hi hs => hi.step hs
  rintro s ⟨size, sie, rfl⟩
  exact inv_boot size sie

theorem Inv.count_pending (h : Inv s) (t : τ) :
    s.requests t = s.wakeups t + (s.pending.map (·.2)).count t ∧ (s.pending.map (·.2)).count t ≤ 1 := by
  have hreq := h.requests t
  have hcomp := h.completions t
  have hle := nodup_iff_count_le_one.mp h.tasks t
  rw [pending, map_append, count_append] at hle ⊢
  omega

end BlkState

open BlkState in
/-- Any number of tasks, any order of completions, interrupts at any time. A task has been woken at most as often as its
    requests have completed, and for all its requests but at most the last one. Outside a call it waits exactly until it
    has been woken for its last request. An interrupt wakes the tasks of all completed requests exactly when nobody has
    borrowed one of them or `TASK_MANAGER`; otherwise it panics. -/
theorem block_io_wakes {τ : Type} [DecidableEq τ] {s : BlkState τ} (h : (blockIo τ).Reach s) :
    (∀ t, s.wakeups t ≤ s.completions t ∧ s.completions t ≤ s.requests t ∧ s.requests t ≤ s.wakeups t + 1) ∧
    (s.cpu = none → ∀ t, (∃ k, t ∈ s.queue k) ↔ s.wakeups t < s.requests t) ∧
    (s.intr.sie = true →
      ((∃ s', s.handleIrq = some s' ∧ s'.used = [] ∧ ∀ t, s'.wakeups t = s.completions t) ↔ Free s)) := by
  have hi := inv_reach h
  refine ⟨fun t => ?_, fun hc t => ?_, fun hsie => ?_⟩
  · have hreq := hi.requests t
    have hcomp := hi.completions t
    have hle := hi.count_pending t
    omega
  · obtain ⟨hreq, -⟩ := hi.count_pending t
    have hmem : (∃ k, t ∈ s.queue k) ↔ t ∈ s.pending.map (·.2) := by
      simp only [hi.queue, unqueued, hc, List.mem_map, Prod.exists]
      simp
    rw [hmem, ← count_pos_iff]
    omega
  · have hin := hi.not_inSession hsie
    have hdrain := hi.drain hin rfl
    rw [handleIrq, hin]
    constructor
    · rintro ⟨s', hs', -⟩
      by_contra hf
      rw [if_neg (by simp), hdrain.2 hf] at hs'
      cases hs'
    · intro hf
      obtain ⟨s', hs', hinv, hused, hcomp, -⟩ := hdrain.1 hf
      refine ⟨s', hs', hused, fun t => ?_⟩
      have hwake := hinv.completions t
      rw [hcomp, hused] at hwake
      simpa using hwake.symm

/-- Two tasks wait, the device has completed both requests, the second one first, and the interrupt comes. -/
theorem block_io_wakes_two : ∃ s : BlkState Nat, (blockIo Nat).Reach s ∧ s.used = [(5, 1), (3, 0)] ∧ s.queue 3 = [0] ∧
    s.queue 5 = [1] ∧ ∃ s', s.handleIrq = some s' ∧ s'.used = [] ∧ ∀ t, s'.wakeups t = s.completions t := by
  have hrun : ∃ s ∈ (blockIo Nat).run (.boot 16 true)
      [.start 0, .submit 3, .next, .next, .next, .next, .next, .next, .start 1, .submit 5, .next, .next, .complete 5, .next,
        .next, .next, .next, .complete 3],
      s.used = [(5, 1), (3, 0)] ∧ s.queue 3 = [0] ∧ s.queue 5 = [1] ∧ s.intr.sie = true ∧ s.held = [] := by decide +kernel
  have hinit : (blockIo Nat).Reach (.boot 16 true) := .init ⟨16, true, rfl⟩
  obtain ⟨s, hreach, hused, hq3, hq5, hsie, hheld⟩ := hinit.exists_run hrun
  exact ⟨s, hreach, hused, hq3, hq5, ((block_io_wakes hreach).2.2 hsie).mpr (by simp [BlkState.Free, hheld])⟩

/-- The interrupt comes while `run_tasks` looks into the ready queue, and `wakeup_task` panics. -/
theorem completion_panics : ∃ s : BlkState Nat, (blockIo Nat).Reach s ∧ s.intr.sie = true ∧ s.cpu = none ∧
    s.used = [(3, 0)] ∧ s.queue 3 = [0] ∧ s.handleIrq.isNone = true := by
  have hrun : ∃ s ∈ (blockIo Nat).run (.boot 16 true)
      [.start 0, .submit 3, .next, .next, .next, .next, .next, .next, .complete 3, .hold .taskManager],
      s.intr.sie = true ∧ s.cpu = none ∧ s.used = [(3, 0)] ∧ s.queue 3 = [0] ∧ s.handleIrq.isNone = true := by
    decide +kernel
  have hinit : (blockIo Nat).Reach (.boot 16 true) := .init ⟨16, true, rfl⟩
  exact hinit.exists_run hrun

end TCore.Kernel
