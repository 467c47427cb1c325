/-
  TCore.Kernel.Semaphore — counting semaphores (sync/semaphore.rs).

  The count is an `isize`: below zero it is the number of threads in the wait queue. `down`
  decrements it first and blocks when it is negative then; `up` increments it and wakes the first
  thread of the queue while it is not positive. Neither looks for an overflow, and a release
  build wraps around: a semaphore of `isize::MAX` units has a negative count after one `up`
  (`full_semaphore_blocks`).

  A call runs in turns as in `TCore.Kernel.Sync`. `ups`, `downs`, `passed`, `arrived` and `woken`
  keep the history: the calls of `up`, the calls of `down` that have begun, those that have
  returned or been woken, and who entered and left the wait queue, in that order.
-/

import TCore.Lib.Machine

namespace TCore.Kernel

open TCore.Lib
open Function (update update_apply)
open List

/-- The value of an `isize` after arithmetic without overflow checks. -/
def wrapIsize (x : Int) : Int := x.bmod (2 ^ 64)

theorem wrapIsize_eq {x : Int} (hlo : -2 ^ 63 ≤ x) (hhi : x < 2 ^ 63) : wrapIsize x = x :=
  Int.bmod_eq_of_le (by omega) (by omega)

theorem wrapIsize_bounds (x : Int) : -2 ^ 63 ≤ wrapIsize x ∧ wrapIsize x < 2 ^ 63 := by
  have hle := Int.le_bmod (x := x) (m := 2 ^ 64) (by decide)
  have hlt := Int.bmod_lt (x := x) (m := 2 ^ 64) (by decide)
  unfold wrapIsize
  omega

inductive DownAt where
  /-- In user mode. -/
  | user
  /-- In the wait queue. -/
  | waiting
  /-- Woken from there, in the ready queue. -/
  | woken
  deriving DecidableEq

structure SemaphoreState (τ : Type) where
  count : Int
  waitQueue : List τ
  at_ : τ → DownAt
  resCount : Nat
  ups : Nat
  downs : Nat
  passed : Nat
  arrived : List τ
  woken : List τ

inductive SemaphoreEvent (τ : Type) where
  | up (t : τ)
  | down (t : τ)
  /-- Thread `t` gets the processor back. -/
  | resume (t : τ)

namespace SemaphoreState

variable {τ : Type} [DecidableEq τ]

/-- `Semaphore::new`. -/
def new (resCount : Nat) : SemaphoreState τ := ⟨wrapIsize resCount, [], fun _ => .user, resCount, 0, 0, 0, [], []⟩

def up (s : SemaphoreState τ) : SemaphoreState τ :=
  let s := { s with count := wrapIsize (s.count + 1), ups := s.ups + 1 }
  if s.count ≤ 0 then
    match s.waitQueue with
    | w :: rest =>
      { s with waitQueue := rest, at_ := update s.at_ w .woken, passed := s.passed + 1, woken := s.woken ++ [w] }
    | [] => s
  else s

def down (s : SemaphoreState τ) (t : τ) : SemaphoreState τ :=
  let s := { s with count := wrapIsize (s.count - 1), downs := s.downs + 1 }
  if s.count < 0 then
    { s with waitQueue := s.waitQueue ++ [t], at_ := update s.at_ t .waiting, arrived := s.arrived ++ [t] }
  else { s with passed := s.passed + 1 }

def step (s : SemaphoreState τ) : SemaphoreEvent τ → Option (SemaphoreState τ)
  | .up t => if s.at_ t = .user then some s.up else none
  | .down t => if s.at_ t = .user then some (s.down t) else none
  | .resume t => if s.at_ t = .woken then some { s with at_ := update s.at_ t .user } else none

end SemaphoreState

def semaphore (τ : Type) [DecidableEq τ] : Machine (SemaphoreState τ) (SemaphoreEvent τ) where
  init s := ∃ resCount < 2 ^ 64, s = SemaphoreState.new resCount
  step := SemaphoreState.step

namespace SemaphoreState

variable {τ : Type} [DecidableEq τ] {s t : SemaphoreState τ} {e : SemaphoreEvent τ}

/-- The count has room for what the call does to it. -/
def InRange (s : SemaphoreState τ) : SemaphoreEvent τ → Prop
  | .up _ => s.count < 2 ^ 63 - 1
  | .down _ => -2 ^ 63 < s.count
  | .resume _ => True

/-! ## The wait queue -/

/-- Whatever the count is, the queue is in the order of arrival and holds the threads that wait. -/
structure Queued (s : SemaphoreState τ) : Prop where
  bounds : -2 ^ 63 ≤ s.count ∧ s.count < 2 ^ 63
  order : s.arrived = s.woken ++ s.waitQueue
  begun : s.passed + s.waitQueue.length = s.downs
  nodup : s.waitQueue.Nodup
  waiting : ∀ t, s.at_ t = .waiting ↔ t ∈ s.waitQueue

omit [DecidableEq τ] in
theorem Queued.new (resCount : Nat) : Queued (new resCount : SemaphoreState τ) := by
  constructor
  · have hbounds := wrapIsize_bounds resCount
    simpa [SemaphoreState.new] using hbounds
  · simp [SemaphoreState.new]
  · simp [SemaphoreState.new]
  · exact nodup_nil
  · simp [SemaphoreState.new]

theorem Queued.up (h : Queued s) : Queued s.up := by
  obtain ⟨-, horder, hbegun, hnodup, hwaiting⟩ := h
  unfold SemaphoreState.up
  have hbounds := wrapIsize_bounds (s.count + 1)
  simp only
  split
  · split
    · rename_i w rest hq
      rw [hq] at hnodup
      obtain ⟨hnot, hnodup⟩ := nodup_cons.mp hnodup
      refine ⟨hbounds, ?_, ?_, hnodup, fun t => ?_⟩
      · simp [horder, hq]
      · simp only [hq, length_cons] at hbegun
        simp only
        omega
      · simp only [update_apply]
        by_cases ht : t = w
        · subst ht
          simp [hnot]
        · rw [if_neg ht, hwaiting, hq]
          simp [ht]
    · exact ⟨hbounds, horder, hbegun, hnodup, hwaiting⟩
  · exact ⟨hbounds, horder, hbegun, hnodup, hwaiting⟩

theorem Queued.down (h : Queued s) {u : τ} (hu : s.at_ u = .user) : Queued (s.down u) := by
  obtain ⟨-, horder, hbegun, hnodup, hwaiting⟩ := h
  have hnot : u ∉ s.waitQueue := by
    intro hmem
    rw [(hwaiting u).mpr hmem] at hu
    cases hu
  unfold SemaphoreState.down
  have hbounds := wrapIsize_bounds (s.count - 1)
  simp only
  split
  · refine ⟨hbounds, ?_, ?_, ?_, fun t => ?_⟩
    · simp [horder]
    · simp only [length_append, length_singleton]
      omega
    · simpa [nodup_append] using ⟨hnodup, fun t ht htu => hnot (htu ▸ ht)⟩
    · simp only [update_apply]
      by_cases ht : t = u
      · simp [ht]
      · rw [if_neg ht, hwaiting]
        simp [ht]
  · refine ⟨hbounds, horder, ?_, hnodup, hwaiting⟩
    simp only
    omega

theorem Queued.resume (h : Queued s) {u : τ} (hu : s.at_ u = .woken) : Queued { s with at_ := update s.at_ u .user } := by
  obtain ⟨hbounds, horder, hbegun, hnodup, hwaiting⟩ := h
  refine ⟨hbounds, horder, hbegun, hnodup, fun t => ?_⟩
  simp only [update_apply]
  by_cases ht : t = u
  · subst ht
    have hnot : t ∉ s.waitQueue := by
      rw [← hwaiting, hu]
      simp
    simp [hnot]
  · rw [if_neg ht]
    exact hwaiting t

/-- A step is a call of `up` or `down` by a thread in user mode, or a woken thread goes on. -/
theorem step_cases (h : s.step e = some t) :
    (∃ u, e = .up u ∧ t = s.up) ∨ (∃ u, e = .down u ∧ s.at_ u = .user ∧ t = s.down u) ∨
      ∃ u, e = .resume u ∧ s.at_ u = .woken ∧ t = { s with at_ := update s.at_ u .user } := by
  cases e with
  | up u =>
    obtain ⟨-, ⟨⟩⟩ := Option.ite_none_right_eq_some.mp h
    exact .inl ⟨u, rfl, rfl⟩
  | down u =>
    obtain ⟨hu, ⟨⟩⟩ := Option.ite_none_right_eq_some.mp h
    exact .inr (.inl ⟨u, rfl, hu, rfl⟩)
  | resume u =>
    obtain ⟨hu, ⟨⟩⟩ := Option.ite_none_right_eq_some.mp h
    exact .inr (.inr ⟨u, rfl, hu, rfl⟩)

theorem Queued.step (h : Queued s) (hs : s.step e = some t) : Queued t := by
  rcases step_cases hs with ⟨u, -, rfl⟩ | ⟨u, -, hu, rfl⟩ | ⟨u, -, hu, rfl⟩
  · exact h.up
  · exact h.down hu
  · exact h.resume hu

theorem queued_reach (h : (semaphore τ).Reach s) : Queued s := by
  refine h.inv Queued ?_ fun s e t hq hs => hq.step hs
  rintro s ⟨resCount, -, rfl⟩
  exact .new resCount

/-! ## The count -/

/-- The count is what the calls make it, the queue is as long as the count is below zero, and no more calls of `down`
    have passed than there were units. -/
structure Accounts (s : SemaphoreState τ) : Prop where
  count : s.count = s.resCount + s.ups - s.downs
  queue : (s.waitQueue.length : Int) = max 0 (-s.count)
  passed : s.passed ≤ s.resCount + s.ups
  none : 0 ≤ s.count → s.waitQueue = []

omit [DecidableEq τ] in
/-- The count and the length of the queue imply the rest. -/
theorem Queued.accounts (h : Queued s) (hcount : s.count = s.resCount + s.ups - s.downs)
    (hqueue : (s.waitQueue.length : Int) = max 0 (-s.count)) : Accounts s := by
  have hbegun := h.begun
  refine ⟨hcount, hqueue, by omega, fun h0 => ?_⟩
  exact length_eq_zero_iff.mp (by omega)

theorem up_count (s : SemaphoreState τ) : s.up.count = wrapIsize (s.count + 1) ∧ s.up.ups = s.ups + 1 ∧
    s.up.downs = s.downs ∧ s.up.resCount = s.resCount := by
  unfold up
  simp only
  split
  · split <;> exact ⟨rfl, rfl, rfl, rfl⟩
  · exact ⟨rfl, rfl, rfl, rfl⟩

theorem down_count (s : SemaphoreState τ) (u : τ) : (s.down u).count = wrapIsize (s.count - 1) ∧
    (s.down u).ups = s.ups ∧ (s.down u).downs = s.downs + 1 ∧ (s.down u).resCount = s.resCount := by
  unfold down
  simp only
  split <;> exact ⟨rfl, rfl, rfl, rfl⟩

section

variable (hs : Queued s) (h : Accounts s)
include hs h

/-- `up` with threads waiting wakes the first of them. -/
theorem up_wakes {w : τ} {rest : List τ} (hq : s.waitQueue = w :: rest) :
    s.up = { s with
      count := s.count + 1, ups := s.ups + 1, waitQueue := rest, at_ := update s.at_ w .woken, passed := s.passed + 1
      woken := s.woken ++ [w] } := by
  have hlen := h.queue
  rw [hq, length_cons] at hlen
  have hbounds := hs.bounds
  have hwrap : wrapIsize (s.count + 1) = s.count + 1 := wrapIsize_eq (by omega) (by omega)
  simp only [up, hwrap]
  rw [if_pos (by omega), hq]

theorem accounts_up : Accounts s.up ↔ s.count < 2 ^ 63 - 1 := by
  obtain ⟨hcount, hups, hdowns, hres⟩ := up_count s
  have hbounds := hs.bounds
  have hold := h.count
  constructor
  · intro h'
    by_contra hge
    have hnew := h'.count
    have hwrap := wrapIsize_bounds (s.count + 1)
    rw [hcount, hups, hdowns, hres] at hnew
    push_cast at hnew
    omega
  · intro hlt
    have hwrap : wrapIsize (s.count + 1) = s.count + 1 := wrapIsize_eq (by omega) (by omega)
    refine hs.up.accounts ?_ ?_
    · rw [hcount, hups, hdowns, hres, hwrap]
      push_cast
      omega
    · have hlen := h.queue
      cases hq : s.waitQueue with
      | nil =>
        rw [hq] at hlen
        simp only [length_nil] at hlen
        simp only [up, hwrap]
        rw [if_neg (by omega), hq]
        simp only [length_nil]
        omega
      | cons w rest =>
        rw [up_wakes hs h hq]
        rw [hq, length_cons] at hlen
        simp only
        omega

theorem accounts_down {u : τ} (hu : s.at_ u = .user) :
    Accounts (s.down u) ↔ -2 ^ 63 < s.count := by
  obtain ⟨hcount, hups, hdowns, hres⟩ := down_count s u
  have hbounds := hs.bounds
  have hold := h.count
  constructor
  · intro h'
    by_contra hge
    have hnew := h'.count
    have hwrap := wrapIsize_bounds (s.count - 1)
    rw [hcount, hups, hdowns, hres] at hnew
    push_cast at hnew
    omega
  · intro hlt
    have hwrap : wrapIsize (s.count - 1) = s.count - 1 := wrapIsize_eq (by omega) (by omega)
    refine (hs.down hu).accounts ?_ ?_
    · rw [hcount, hups, hdowns, hres, hwrap]
      push_cast
      omega
    · have hlen := h.queue
      simp only [down, hwrap]
      split
      · simp only [length_append, length_singleton]
        omega
      · simp only
        omega

theorem accounts_step (hst : s.step e = some t) : Accounts t ↔ InRange s e := by
  rcases step_cases hst with ⟨u, rfl, rfl⟩ | ⟨u, rfl, hu, rfl⟩ | ⟨u, rfl, hu, rfl⟩
  · exact accounts_up hs h
  · exact accounts_down hs h hu
  · exact ⟨fun _ => trivial, fun _ => ⟨h.count, h.queue, h.passed, h.none⟩⟩

end

omit [DecidableEq τ] in
theorem accounts_new {resCount : Nat} (h : resCount < 2 ^ 63) : Accounts (new resCount : SemaphoreState τ) := by
  have hwrap : wrapIsize resCount = resCount := wrapIsize_eq (by omega) (by omega)
  refine (Queued.new resCount).accounts ?_ ?_
  · simp [new, hwrap]
  · simp [new, hwrap]

theorem step_resCount (h : s.step e = some t) : t.resCount = s.resCount := by
  rcases step_cases h with ⟨u, -, rfl⟩ | ⟨u, -, -, rfl⟩ | ⟨u, -, -, rfl⟩
  · exact (up_count s).2.2.2
  · exact (down_count s u).2.2.2
  · rfl

theorem accounts_reach (h : ((semaphore τ).only InRange).Reach s) (hres : s.resCount < 2 ^ 63) : Accounts s := by
  have hboth : Queued s ∧ (s.resCount < 2 ^ 63 → Accounts s) := by
    refine h.inv (fun s => Queued s ∧ (s.resCount < 2 ^ 63 → Accounts s)) ?_ ?_
    · rintro s ⟨resCount, -, rfl⟩
      exact ⟨.new resCount, accounts_new⟩
    · rintro s e t ⟨hq, ha⟩ hst
      obtain ⟨hok, hst⟩ := Machine.only_step.mp hst
      refine ⟨hq.step hst, fun hlt => ?_⟩
      rw [step_resCount hst] at hlt
      exact (accounts_step hq (ha hlt) hst).mpr hok
  exact hboth.2 hres

end SemaphoreState

open SemaphoreState in
/-- Any number of threads, a semaphore of at most `isize::MAX` units. In every run without an overflow of the count the
    books are right, the queue is in the order of arrival, and an `up` with threads waiting wakes exactly the first of
    them. A step from right books leads to wrong ones exactly when the count overflows. -/
theorem semaphore_accounts (τ : Type) [DecidableEq τ] :
    (∀ s : SemaphoreState τ, ((semaphore τ).only InRange).Reach s → s.resCount < 2 ^ 63 →
      Accounts s ∧ s.arrived = s.woken ++ s.waitQueue ∧
      ∀ u w rest t, s.waitQueue = w :: rest → s.step (.up u) = some t →
        t.waitQueue = rest ∧ t.woken = s.woken ++ [w] ∧ t.at_ = update s.at_ w .woken) ∧
    ∀ (s : SemaphoreState τ) e t, (semaphore τ).Reach s → Accounts s → s.step e = some t → (Accounts t ↔ InRange s e) := by
  refine ⟨fun s h hres => ?_, fun s e t h ha hst => accounts_step (queued_reach h) ha hst⟩
  have hq := queued_reach h.of_only
  have ha := accounts_reach h hres
  refine ⟨ha, hq.order, fun u w rest t hw hst => ?_⟩
  obtain ⟨-, ⟨⟩⟩ := Option.ite_none_right_eq_some.mp hst
  rw [up_wakes hq ha hw]
  exact ⟨rfl, rfl, rfl⟩

instance {τ : Type} [DecidableEq τ] (s : SemaphoreState τ) : (e : SemaphoreEvent τ) → Decidable (s.InRange e)
  | .up _ => inferInstanceAs (Decidable (s.count < 2 ^ 63 - 1))
  | .down _ => inferInstanceAs (Decidable (-2 ^ 63 < s.count))
  | .resume _ => .isTrue trivial

/-- One unit, three threads that take it, and one `up`: two threads wait, then one. -/
theorem semaphore_accounts_three : ∃ s : SemaphoreState Nat, (semaphore Nat).Reach s ∧ s.waitQueue = [2] ∧ s.woken = [1] ∧
    s.Accounts := by
  have hrun : ∃ s ∈ (semaphore Nat).runOnly SemaphoreState.InRange (.new 1) [.down 0, .down 1, .down 2, .up 3],
      s.resCount < 2 ^ 63 ∧ s.waitQueue = [2] ∧ s.woken = [1] := by decide +kernel
  have hinit : ((semaphore Nat).only SemaphoreState.InRange).Reach (.new 1) := .init ⟨1, by decide, rfl⟩
  obtain ⟨s, hreach, hres, hq, hw⟩ := hinit.exists_runOnly hrun
  exact ⟨s, hreach.of_only, hq, hw, ((semaphore_accounts Nat).1 s hreach hres).1⟩

/-- `isize::MAX` units, and `up` twice: the next `down` blocks. -/
theorem full_semaphore_blocks : ∃ s : SemaphoreState Nat, (semaphore Nat).Reach s ∧ s.resCount < 2 ^ 63 ∧ s.ups = 2 ∧
    s.downs = 1 ∧ s.count = -2 ^ 63 ∧ s.waitQueue = [1] := by
  have hrun : ∃ s ∈ (semaphore Nat).run (.new (2 ^ 63 - 1)) [.up 0, .up 0, .down 1],
      s.resCount < 2 ^ 63 ∧ s.ups = 2 ∧ s.downs = 1 ∧ s.count = -2 ^ 63 ∧ s.waitQueue = [1] := by decide +kernel
  have hinit : (semaphore Nat).Reach (.new (2 ^ 63 - 1)) := .init ⟨2 ^ 63 - 1, by decide, rfl⟩
  exact hinit.exists_run hrun

end TCore.Kernel
