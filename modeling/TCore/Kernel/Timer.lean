/-
  TCore.Kernel.Timer — sleeping tasks and their timers (timer.rs, sys_sleep).

  The timers are a max-heap ordered by the negated expiry, taken as `isize`; `check_timer` wakes the
  task of the greatest timer as long as that one has expired. Among equal timers the heap may give any:
  a check is told which one it gives (`picks`), and the theorems hold for every choice.

  The expiry is an unchecked sum. A sleep that ends at or after 2^64 wraps around and is over at once, and
  the timer of one that ends between 2^63 and 2^64 is greater than every other one: nobody is woken while
  it is there (`long_sleep_stops_timers`). `due` keeps the time at which a sleep should end.
-/

import TCore.Lib.Machine
import TCore.Kernel.Semaphore

namespace TCore.Kernel.Timer

open TCore.Lib
open List Option Pairwise

def CLOCK_FREQ : Nat := 12500000
def MSEC_PER_SEC : Nat := 1000

def getTimeMs (time : Nat) : Nat := time / (CLOCK_FREQ / MSEC_PER_SEC)

structure TimerCondVar (τ : Type) where
  expireMs : Nat
  task : τ
  /-- The start of the sleep and its length, added up. -/
  due : Nat
  deriving DecidableEq

/-- `-(expire_ms as isize)`, by which the timers are compared. -/
def TimerCondVar.order {τ : Type} (t : TimerCondVar τ) : Int := wrapIsize (-wrapIsize t.expireMs)

structure SleepState (τ : Type) where
  /-- The clock register. -/
  time : Nat
  timers : List (TimerCondVar τ)

inductive SleepEvent (τ : Type) where
  /-- The clock goes on; it does not wrap around. -/
  | tick (n : Nat)
  | sleep (task : τ) (ms : Fin (2 ^ 64))
  | checkTimer (picks : List Nat)
  | removeTimer (task : τ)

section
variable {τ : Type}

/-- `peek`, when it gives the timer in place `i`. -/
def peek (timers : List (TimerCondVar τ)) (i : Nat) : Option (TimerCondVar τ) :=
  timers[i]?.filter fun t => timers.all fun u => u.order ≤ t.order

/-- The timers whose tasks `check_timer` wakes, in this order, and those it leaves. -/
def checkTimer (currentMs : Nat) : List Nat → List (TimerCondVar τ) → Option (List (TimerCondVar τ) × List (TimerCondVar τ))
  | _, [] => some ([], [])
  | [], _ :: _ => none
  | i :: picks, t :: rest =>
    (peek (t :: rest) i).bind fun timer =>
      if timer.expireMs ≤ currentMs then
        (checkTimer currentMs picks ((t :: rest).eraseIdx i)).map fun (woken, left) => (timer :: woken, left)
      else some ([], t :: rest)

end

namespace SleepState

variable {τ : Type} [DecidableEq τ]

def now {τ : Type} (s : SleepState τ) : Nat := getTimeMs s.time

/-- A task that sleeps makes no calls. -/
def step (s : SleepState τ) : SleepEvent τ → Option (SleepState τ)
  | .tick n => if s.time + n < 2 ^ 64 then some { s with time := s.time + n } else none
  | .sleep task ms =>
    if task ∈ s.timers.map TimerCondVar.task then none
    else some { s with timers := s.timers ++ [⟨(s.now + ms) % 2 ^ 64, task, s.now + ms⟩] }
  | .checkTimer picks => (checkTimer s.now picks s.timers).map fun r => { s with timers := r.2 }
  | .removeTimer task => some { s with timers := s.timers.filter fun t => t.task ≠ task }

end SleepState

def sleepers (τ : Type) [DecidableEq τ] : Machine (SleepState τ) (SleepEvent τ) where
  init s := s = ⟨0, []⟩
  step := SleepState.step

section
variable {τ : Type}

/-- The timers that are due at `now` are those of the tasks woken, each once and in order. -/
structure Fired (now : Nat) (timers woken left : List (TimerCondVar τ)) : Prop where
  split : (woken ++ left).Perm timers
  due : ∀ t ∈ woken, t.due ≤ now
  later : ∀ t ∈ left, now < t.due
  ordered : woken.Pairwise fun t u => t.due ≤ u.due
  once : (woken.map TimerCondVar.task).Nodup

/-- No sleep wraps around or lies above 2^63, or nobody is due while one does. -/
def Timely (now : Nat) (timers : List (TimerCondVar τ)) : Prop :=
  (∀ t ∈ timers, t.expireMs ≤ 2 ^ 63 ∧ t.due < 2 ^ 64) ∨
    (∃ t ∈ timers, 2 ^ 63 < t.expireMs) ∧ ∀ t ∈ timers, now < t.due

/-! ## One check -/

/-- What the loop of `check_timer` does, in the order of the heap. -/
structure Checked (now : Nat) (timers woken left : List (TimerCondVar τ)) : Prop where
  split : (woken ++ left).Perm timers
  expired : ∀ t ∈ woken, t.expireMs ≤ now
  ordered : woken.Pairwise fun t u => u.order ≤ t.order
  before : ∀ t ∈ woken, ∀ u ∈ left, u.order ≤ t.order
  stopped : left = [] ∨ ∃ t ∈ left, now < t.expireMs ∧ ∀ u ∈ left, u.order ≤ t.order

variable {now : Nat} {picks : List Nat} {timers woken left : List (TimerCondVar τ)} {t : TimerCondVar τ} {i : Nat}

theorem peek_spec (h : peek timers i = some t) : timers[i]? = some t ∧ ∀ u ∈ timers, u.order ≤ t.order := by
  obtain ⟨hget, hall⟩ := filter_eq_some_iff.mp h
  refine ⟨hget, ?_⟩
  intro u hu
  simpa using List.all_eq_true.mp hall u hu

theorem checkTimer_checked (h : checkTimer now picks timers = some (woken, left)) : Checked now timers woken left := by
  induction picks generalizing timers woken left with
  | nil =>
    cases timers with
    | nil =>
      cases h
      exact ⟨Perm.nil, by simp, nil, by simp, .inl rfl⟩
    | cons t rest => cases h
  | cons i picks ih =>
    cases timers with
    | nil =>
      cases h
      exact ⟨Perm.nil, by simp, nil, by simp, .inl rfl⟩
    | cons t rest =>
      obtain ⟨timer, hpeek, hrest⟩ := bind_eq_some_iff.mp h
      obtain ⟨hget, hmax⟩ := peek_spec hpeek
      have hmem : timer ∈ t :: rest := mem_of_getElem? hget
      split at hrest
      · rename_i hexp
        obtain ⟨⟨woken', left'⟩, hloop, heq⟩ := map_eq_some_iff.mp hrest
        cases heq
        have hc := ih hloop
        have hold : ∀ u, u ∈ woken' ∨ u ∈ left → u.order ≤ timer.order := by
          intro u hu
          apply hmax
          exact mem_of_mem_eraseIdx (hc.split.subset (mem_append.mpr hu))
        refine ⟨?_, ?_, ?_, ?_, hc.stopped⟩
        · obtain ⟨hlt, hi⟩ := List.getElem?_eq_some_iff.mp hget
          rw [← hi]
          exact (hc.split.cons _).trans (getElem_cons_eraseIdx_perm hlt)
        · intro u hu
          rcases mem_cons.mp hu with rfl | hu
          · exact hexp
          · exact hc.expired u hu
        · exact pairwise_cons.mpr ⟨fun u hu => hold u (.inl hu), hc.ordered⟩
        · intro u hu v hv
          rcases mem_cons.mp hu with rfl | hu
          · exact hold v (.inr hv)
          · exact hc.before u hu v hv
      · rename_i hexp
        cases hrest
        exact ⟨Perm.refl _, by simp, nil, by simp, .inr ⟨timer, hmem, not_le.mp hexp, hmax⟩⟩

/-- Some choice of the heap is possible. -/
theorem checkTimer_total (timers : List (TimerCondVar τ)) : ∃ picks r, checkTimer now picks timers = some r := by
  induction hn : timers.length generalizing timers with
  | zero =>
    rw [eq_nil_of_length_eq_zero hn]
    exact ⟨[], _, rfl⟩
  | succ n ih =>
    cases timers with
    | nil => cases hn
    | cons t rest =>
      obtain ⟨m, hm, hmax⟩ := Set.exists_max_image _ TimerCondVar.order (finite_toSet (t :: rest))
        ⟨t, mem_cons_self⟩
      obtain ⟨i, hi, hget⟩ := mem_iff_getElem.mp hm
      have hpeek : peek (t :: rest) i = some m := by
        rw [peek, getElem?_eq_getElem hi, hget, filter_some, if_pos]
        simpa using hmax
      obtain ⟨picks, r, hr⟩ := ih ((t :: rest).eraseIdx i) (by rw [length_eraseIdx_of_lt hi, hn]; rfl)
      refine ⟨i :: picks, ?_⟩
      rw [checkTimer, hpeek, bind_some]
      by_cases hexp : m.expireMs ≤ now
      · rw [if_pos hexp, hr]
        exact ⟨_, rfl⟩
      · rw [if_neg hexp]
        exact ⟨_, rfl⟩

/-! ## The order of the heap -/

theorem order_small (h : t.expireMs ≤ 2 ^ 63) : t.order = -(t.expireMs : Int) := by
  rw [TimerCondVar.order]
  rcases Nat.lt_or_eq_of_le h with hlt | heq
  · rw [wrapIsize_eq (x := t.expireMs) (by omega) (by omega), wrapIsize_eq (by omega) (by omega)]
  · rw [heq]
    decide +kernel

/-- A timer above 2^63 goes before all others. -/
theorem order_large (h : 2 ^ 63 < t.expireMs) (hlt : t.expireMs < 2 ^ 64) : 0 < t.order := by
  have hcast : wrapIsize t.expireMs = t.expireMs - 2 ^ 64 := by
    rw [← wrapIsize_eq (x := t.expireMs - 2 ^ 64) (by omega) (by omega), wrapIsize, wrapIsize]
    exact (Int.sub_bmod_right t.expireMs (2 ^ 64)).symm
  rw [TimerCondVar.order, hcast, wrapIsize_eq (by omega) (by omega)]
  omega

/-- What holds of the timers of every run. -/
structure TimersInv (s : SleepState τ) : Prop where
  clock : s.time < 2 ^ 64
  expiry : ∀ t ∈ s.timers, t.expireMs = t.due % 2 ^ 64 ∧ t.due < s.now + 2 ^ 64
  tasks : (s.timers.map TimerCondVar.task).Nodup

theorem TimersInv.now_lt {s : SleepState τ} (h : TimersInv s) : s.now < 2 ^ 63 := by
  have := h.clock
  simp only [SleepState.now, getTimeMs, CLOCK_FREQ, MSEC_PER_SEC]
  omega

theorem Checked.woken_nil (h : Checked now timers woken left) (hnow : now < 2 ^ 63) (ht : t ∈ timers)
    (hlarge : 2 ^ 63 < t.expireMs) (hlt : t.expireMs < 2 ^ 64) : woken = [] := by
  have htl : t ∈ left := by
    rcases mem_append.mp (h.split.symm.subset ht) with hw | hl
    · have := h.expired t hw
      omega
    · exact hl
  apply eq_nil_iff_forall_not_mem.mpr
  intro u hu
  have hbefore := h.before u hu t htl
  have hexp := h.expired u hu
  have hpos := order_large hlarge hlt
  rw [order_small (t := u) (by omega)] at hbefore
  omega

theorem Checked.left_later (h : Checked now timers woken left) (hsmall : ∀ t ∈ timers, t.expireMs ≤ 2 ^ 63) :
    ∀ t ∈ left, now < t.expireMs := by
  intro u hu
  have hmem : ∀ t ∈ left, t ∈ timers := fun t ht => h.split.subset (mem_append_right _ ht)
  rcases h.stopped with rfl | ⟨t, ht, hlater, hmax⟩
  · cases hu
  · have hord := hmax u hu
    rw [order_small (hsmall u (hmem u hu)), order_small (hsmall t (hmem t ht))] at hord
    omega

theorem Checked.fired_iff {s : SleepState τ} (h : Checked s.now s.timers woken left) (hinv : TimersInv s) :
    Fired s.now s.timers woken left ↔ Timely s.now s.timers := by
  have hnow := hinv.now_lt
  have hlt : ∀ t ∈ s.timers, t.expireMs < 2 ^ 64 := by
    intro t ht
    rw [(hinv.expiry t ht).1]
    omega
  have honce : (woken.map TimerCondVar.task).Nodup := by
    have hperm := (h.split.map TimerCondVar.task).nodup_iff.mpr hinv.tasks
    rw [map_append] at hperm
    exact hperm.of_append_left
  have hwoken : ∀ t ∈ woken, t ∈ s.timers := fun t ht => h.split.subset (mem_append_left _ ht)
  have hleft : ∀ t ∈ left, t ∈ s.timers := fun t ht => h.split.subset (mem_append_right _ ht)
  by_cases hlarge : ∃ t ∈ s.timers, 2 ^ 63 < t.expireMs
  · -- nobody is woken
    obtain ⟨b, hb, hbl⟩ := hlarge
    have hnil := h.woken_nil hnow hb hbl (hlt b hb)
    subst hnil
    refine ⟨fun hf => .inr ⟨⟨b, hb, hbl⟩, ?_⟩, ?_⟩
    · intro t ht
      exact hf.later t (h.split.symm.subset ht)
    · intro ht
      rcases ht with hsmall | ⟨-, hlater⟩
      · have := (hsmall b hb).1
        omega
      · exact ⟨h.split, by simp, fun t ht => hlater t (hleft t ht), nil, honce⟩
  · have hsmall : ∀ t ∈ s.timers, t.expireMs ≤ 2 ^ 63 := by
      intro t ht
      by_contra hgt
      exact hlarge ⟨t, ht, not_le.mp hgt⟩
    have hlater := h.left_later hsmall
    refine ⟨fun hf => .inl fun t ht => ⟨hsmall t ht, ?_⟩, ?_⟩
    · -- a sleep that has wrapped around is over already
      by_contra hge
      obtain ⟨hexp, hdue⟩ := hinv.expiry t ht
      rcases mem_append.mp (h.split.symm.subset ht) with hw | hl
      · have := hf.due t hw
        omega
      · have := hlater t hl
        omega
    · intro ht
      rcases ht with hall | ⟨hex, -⟩
      · have hdue : ∀ t ∈ s.timers, t.expireMs = t.due := by
          intro t ht
          rw [(hinv.expiry t ht).1]
          exact Nat.mod_eq_of_lt (hall t ht).2
        refine ⟨h.split, ?_, ?_, ?_, honce⟩
        · intro t ht
          rw [← hdue t (hwoken t ht)]
          exact h.expired t ht
        · intro t ht
          rw [← hdue t (hleft t ht)]
          exact hlater t ht
        · apply h.ordered.imp_of_mem
          intro t u ht hu hord
          rw [order_small (hsmall u (hwoken u hu)), order_small (hsmall t (hwoken t ht))] at hord
          rw [← hdue t (hwoken t ht), ← hdue u (hwoken u hu)]
          omega
      · exact absurd hex hlarge

end

/-! ## Runs -/

section
variable {τ : Type} [DecidableEq τ] {s : SleepState τ}

theorem sleep_step {u : SleepState τ} (e : SleepEvent τ) (h : TimersInv s) (hst : s.step e = some u) : TimersInv u := by
  have hold : ∀ (u : SleepState τ), s.time ≤ u.time → ∀ t ∈ s.timers, t.expireMs = t.due % 2 ^ 64 ∧ t.due < u.now + 2 ^ 64 := by
    intro u hu t ht
    obtain ⟨hexp, hdue⟩ := h.expiry t ht
    have : s.now ≤ u.now := Nat.div_le_div_right hu
    exact ⟨hexp, by omega⟩
  cases e with
  | tick n =>
    obtain ⟨hn, heq⟩ := ite_none_right_eq_some.mp hst
    cases heq
    exact ⟨hn, hold _ (Nat.le_add_right _ _), h.tasks⟩
  | sleep task ms =>
    obtain ⟨hnew, heq⟩ := ite_none_left_eq_some.mp hst
    cases heq
    refine ⟨h.clock, ?_, ?_⟩
    · intro t ht
      rcases mem_append.mp ht with ht | ht
      · exact h.expiry t ht
      · rw [mem_singleton.mp ht]
        have := ms.isLt
        exact ⟨rfl, by simp only [SleepState.now] at *; omega⟩
    · rw [map_append]
      exact Nodup.append h.tasks (nodup_singleton _) (by simpa using hnew)
  | checkTimer picks =>
    obtain ⟨⟨woken, left⟩, hcheck, rfl⟩ := map_eq_some_iff.mp hst
    have hc := checkTimer_checked hcheck
    refine ⟨h.clock, ?_, ?_⟩
    · intro t ht
      exact h.expiry t (hc.split.subset (mem_append_right _ ht))
    · have hperm := (hc.split.map TimerCondVar.task).nodup_iff.mpr h.tasks
      rw [map_append] at hperm
      exact hperm.of_append_right
  | removeTimer task =>
    cases hst
    refine ⟨h.clock, ?_, ?_⟩
    · intro t ht
      exact h.expiry t (mem_of_mem_filter ht)
    · exact h.tasks.sublist (filter_sublist.map _)

theorem reach_timersInv (h : (sleepers τ).Reach s) : TimersInv s := by
  refine h.inv TimersInv ?_ ?_
  · rintro s rfl
    exact ⟨Nat.two_pow_pos 64, by simp, nodup_nil⟩
  · intro s e u hs hst
    exact sleep_step e hs hst

/-- A check ends, and wakes exactly the tasks that are due if and only if the sleeps are `Timely`; sleeps
that end by 2^63 are. -/
theorem timers_fire_iff (s : SleepState τ) (h : (sleepers τ).Reach s) :
    (∃ picks r, checkTimer s.now picks s.timers = some r) ∧
    (∀ picks woken left, checkTimer s.now picks s.timers = some (woken, left) →
      (Fired s.now s.timers woken left ↔ Timely s.now s.timers)) ∧
    ((∀ t ∈ s.timers, t.due ≤ 2 ^ 63) → Timely s.now s.timers) := by
  have hinv := reach_timersInv h
  refine ⟨checkTimer_total s.timers, ?_, ?_⟩
  · intro picks woken left hcheck
    exact (checkTimer_checked hcheck).fired_iff hinv
  · intro hall
    refine .inl fun t ht => ?_
    have := hall t ht
    rw [(hinv.expiry t ht).1]
    omega

end

/-- Two tasks sleep for 10 ms and 30 ms; after 20 ms the first is woken. -/
theorem timers_fire_two : ∃ s woken left, (sleepers Nat).Reach s ∧ checkTimer s.now [0, 0] s.timers = some (woken, left) ∧
    woken.map TimerCondVar.task = [0] ∧ Fired s.now s.timers woken left := by
  have hinit : (sleepers Nat).Reach ⟨0, []⟩ := .init rfl
  have hrun : ∃ s ∈ (sleepers Nat).run ⟨0, []⟩ [.sleep 0 10, .sleep 1 30, .tick 250000],
      checkTimer s.now [0, 0] s.timers = some ([⟨10, 0, 10⟩], [⟨30, 1, 30⟩]) ∧ ∀ t ∈ s.timers, t.due ≤ 2 ^ 63 := by
    decide +kernel
  obtain ⟨s, hs, hcheck, hdue⟩ := hinit.exists_run hrun
  obtain ⟨-, hiff, htimely⟩ := timers_fire_iff s hs
  exact ⟨s, _, _, hs, hcheck, rfl, (hiff _ _ _ hcheck).mpr (htimely hdue)⟩

/-- A task sleeps for 10 ms and another one for 2^63 + 1 ms; after 20 ms nobody is woken. -/
theorem long_sleep_stops_timers : ∃ s, (sleepers Nat).Reach s ∧ checkTimer s.now [1] s.timers = some ([], s.timers) ∧
    (∃ t ∈ s.timers, t.due ≤ s.now) ∧ ¬Fired s.now s.timers [] s.timers := by
  have hinit : (sleepers Nat).Reach ⟨0, []⟩ := .init rfl
  have hrun : ∃ s ∈ (sleepers Nat).run ⟨0, []⟩ [.sleep 0 10, .sleep 1 (2 ^ 63 + 1), .tick 250000],
      checkTimer s.now [1] s.timers = some ([], s.timers) ∧ ∃ t ∈ s.timers, t.due ≤ s.now := by decide +kernel
  obtain ⟨s, hs, hcheck, t, ht, hdue⟩ := hinit.exists_run hrun
  refine ⟨s, hs, hcheck, ⟨t, ht, hdue⟩, ?_⟩
  intro hf
  have := hf.later t ht
  omega

end TCore.Kernel.Timer
