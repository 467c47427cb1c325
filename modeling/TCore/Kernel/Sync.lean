/-
  TCore.Kernel.Sync — mutexes and condition variables (sync/mutex.rs, sync/condvar.rs).

  Any number of threads of a process call `lock`, `unlock`, `wait`, `signal` and `signal_all`.
  The kernel switches at schedule points only, so a call runs in turns: from its start, or from
  where it gave up the processor, to its end or to the next schedule point. A turn is one step.

  `MutexSpin` tries again each time it gets the processor. `MutexBlocking` puts the thread into
  the wait queue; `unlock` then leaves `locked` set and wakes the first one, which owns the mutex
  from there on (`granted`). `wait` unlocks, enters the queue of the condition variable and, when
  woken, locks the mutex again.

  `holds t m` says that thread `t` is between a returned `lock` or `wait` on `m` and its next
  `unlock` or `wait`. `signals`, `arrived`, `handed`, `waited` and `woken` keep the history: the
  calls of `signal` and `signal_all`, and who entered and left each queue, in that order.
-/

import TCore.Lib.Fifo
import TCore.Lib.Machine

namespace TCore.Kernel

open TCore.Lib
open Option

inductive MutexKind where
  | spin
  | blocking
  deriving DecidableEq

/-- The call that locks a mutex: `lock` itself, or a `wait` on `c` that began after `began` signals. -/
inductive LockFor where
  | lock
  | wait (c began : Nat)

/-- Where a thread is. -/
inductive ThreadAt where
  /-- In user mode. -/
  | user
  /-- In the loop of `MutexSpin::lock`, in the ready queue. -/
  | spinning (m : Nat) (why : LockFor)
  /-- In the wait queue of a `MutexBlocking`. -/
  | queued (m : Nat) (why : LockFor)
  /-- Woken from there, in the ready queue. -/
  | granted (m : Nat) (why : LockFor)
  /-- In the wait queue of a condition variable. -/
  | waiting (c m began : Nat)
  /-- Woken from there, in the ready queue. -/
  | signalled (c m began : Nat)

/-- A `MutexBlocking` is handed to the thread. -/
def ThreadAt.grant : ThreadAt → ThreadAt
  | queued m why => granted m why
  | p => p

/-- The thread is woken from the queue of a condition variable. -/
def ThreadAt.wake : ThreadAt → ThreadAt
  | waiting c m n => signalled c m n
  | p => p

structure SyncState (τ : Type) where
  kind : Nat → MutexKind
  locked : Nat → Bool
  mutexQueue : Nat → List τ
  condQueue : Nat → List τ
  at_ : τ → ThreadAt
  holds : τ → Nat → Bool
  signals : Nat → Nat
  arrived : Nat → List τ
  handed : Nat → List τ
  waited : Nat → List τ
  woken : Nat → List τ

inductive SyncEvent (τ : Type) where
  | lock (t : τ) (m : Nat)
  | unlock (t : τ) (m : Nat)
  | wait (t : τ) (c m : Nat)
  | signal (t : τ) (c : Nat)
  | signalAll (t : τ) (c : Nat)
  /-- Thread `t` gets the processor back. -/
  | resume (t : τ)

open Function (update)

namespace SyncState

variable {τ : Type} [DecidableEq τ] (s : SyncState τ)

def start (kind : Nat → MutexKind) : SyncState τ :=
  ⟨kind, fun _ => false, fun _ => [], fun _ => [], fun _ => .user, fun _ _ => false, fun _ => 0, fun _ => [], fun _ => [],
    fun _ => [], fun _ => []⟩

def setHolds (t : τ) (m : Nat) (b : Bool) : SyncState τ := { s with holds := update s.holds t (update (s.holds t) m b) }

def move (t : τ) (p : ThreadAt) : SyncState τ := { s with at_ := update s.at_ t p }

/-- The thread's call returns with the mutex locked. -/
def acquire (t : τ) (m : Nat) : SyncState τ :=
  { s.setHolds t m true with locked := update s.locked m true, at_ := update s.at_ t .user }

/-- The call of a thread that was handed the mutex returns. -/
def return_ (t : τ) (m : Nat) : SyncState τ := { s.setHolds t m true with at_ := update s.at_ t .user }

/-- The thread enters the wait queue of a `MutexBlocking`. -/
def enterMutex (t : τ) (m : Nat) (why : LockFor) : SyncState τ :=
  { s with
    mutexQueue := update s.mutexQueue m (s.mutexQueue m ++ [t])
    arrived := update s.arrived m (s.arrived m ++ [t])
    at_ := update s.at_ t (.queued m why) }

/-- `mutex.lock()` up to its end or its next schedule point. -/
def lockTurn (t : τ) (m : Nat) (why : LockFor) : SyncState τ :=
  match s.kind m with
  | .spin => if s.locked m then s.move t (.spinning m why) else s.acquire t m
  | .blocking => if s.locked m then s.enterMutex t m why else s.acquire t m

/-- `unlock` of a mutex nobody is queued for. -/
def free (t : τ) (m : Nat) : SyncState τ := { s.setHolds t m false with locked := update s.locked m false }

/-- `unlock` of a `MutexBlocking` that leaves the queue to `rest` and wakes `w`. -/
def handOver (t : τ) (m : Nat) (w : τ) (rest : List τ) : SyncState τ :=
  { s.setHolds t m false with
    mutexQueue := update s.mutexQueue m rest
    handed := update s.handed m (s.handed m ++ [w])
    at_ := update s.at_ w (s.at_ w).grant }

/-- `mutex.unlock()` by thread `t`; `none` is a failed `assert!`. -/
def unlockTurn (t : τ) (m : Nat) : Option (SyncState τ) :=
  match s.kind m with
  | .spin => some (s.free t m)
  | .blocking =>
    if s.locked m then
      match s.mutexQueue m with
      | w :: rest => some (s.handOver t m w rest)
      | [] => some (s.free t m)
    else none

/-- `w` leaves the queue of condition variable `c` to `rest` and is woken. -/
def wakeFront (c : Nat) (w : τ) (rest : List τ) : SyncState τ :=
  { s with
    condQueue := update s.condQueue c rest
    woken := update s.woken c (s.woken c ++ [w])
    at_ := update s.at_ w (s.at_ w).wake }

/-- `if let Some(task) = wait_queue.pop_front() { wakeup_task(task) }`. -/
def popWake (c : Nat) : SyncState τ :=
  match s.condQueue c with
  | w :: rest => s.wakeFront c w rest
  | [] => s

/-- `while let Some(task) = wait_queue.pop_front()`, for as many turns as the queue has threads. -/
def popWakeAll (c : Nat) : Nat → SyncState τ → SyncState τ
  | 0, s => s
  | n + 1, s => popWakeAll c n (s.popWake c)

def countSignal (c : Nat) : SyncState τ := { s with signals := update s.signals c (s.signals c + 1) }

/-- The thread enters the queue of condition variable `c`. -/
def enterCond (t : τ) (c m : Nat) : SyncState τ :=
  { s with
    condQueue := update s.condQueue c (s.condQueue c ++ [t])
    waited := update s.waited c (s.waited c ++ [t])
    at_ := update s.at_ t (.waiting c m (s.signals c)) }

def isUser (t : τ) : Bool :=
  match s.at_ t with
  | .user => true
  | _ => false

def step : SyncEvent τ → Option (SyncState τ)
  | .lock t m => if s.isUser t then some (s.lockTurn t m .lock) else none
  | .unlock t m => if s.isUser t then s.unlockTurn t m else none
  | .wait t c m => if s.isUser t then (s.unlockTurn t m).map fun s => s.enterCond t c m else none
  | .signal t c => if s.isUser t then some ((s.countSignal c).popWake c) else none
  | .signalAll t c => if s.isUser t then some ((s.countSignal c).popWakeAll c (s.condQueue c).length) else none
  | .resume t =>
    match s.at_ t with
    | .spinning m why => some (s.lockTurn t m why)
    | .granted m _ => some (s.return_ t m)
    | .signalled c m began => some (s.lockTurn t m (.wait c began))
    | _ => none

end SyncState

def sync (τ : Type) [DecidableEq τ] : Machine (SyncState τ) (SyncEvent τ) where
  init s := ∃ kind, s = SyncState.start kind
  step s e := s.step e

namespace ThreadAt

/-- The mutex the thread is queued for. -/
def mutex : ThreadAt → Option Nat
  | queued m _ => some m
  | _ => none

/-- The mutex the thread has been handed and not yet returned with. -/
def owned : ThreadAt → Option Nat
  | granted m _ => some m
  | _ => none

/-- The condition variable the thread is queued for. -/
def cond : ThreadAt → Option Nat
  | waiting c _ _ => some c
  | _ => none

/-- The `wait` the thread is in: the condition variable, the mutex and the signals there were when it began. -/
def wait : ThreadAt → Option (Nat × Nat × Nat)
  | user => none
  | spinning m (.wait c n) | queued m (.wait c n) | granted m (.wait c n) => some (c, m, n)
  | waiting c m n | signalled c m n => some (c, m, n)
  | _ => none

end ThreadAt

/-- Only the thread that holds the mutex calls `unlock` and `wait`. -/
def Disciplined {τ : Type} (s : SyncState τ) : SyncEvent τ → Prop
  | .unlock t m => s.holds t m = true
  | .wait t _ m => s.holds t m = true
  | _ => True

/-- Thread `t` owns mutex `m`: it holds it, or it has been handed it. -/
def SyncState.Owns {τ : Type} (s : SyncState τ) (t : τ) (m : Nat) : Prop :=
  s.holds t m = true ∨ (s.at_ t).owned = some m

/-- A mutex has one owner, and is locked while it has one. -/
structure OwnInv {τ : Type} (s : SyncState τ) : Prop where
  one_owner : ∀ t u m, s.Owns t m → s.Owns u m → t = u
  locked_iff : ∀ m, s.locked m = true ↔ ∃ t, s.Owns t m

/-- The queues hold the threads that wait, once each, and lose and reorder none. -/
structure QueueInv {τ : Type} (s : SyncState τ) : Prop where
  mutex_iff : ∀ t m, t ∈ s.mutexQueue m ↔ (s.at_ t).mutex = some m
  mutex_nodup : ∀ m, (s.mutexQueue m).Nodup
  cond_iff : ∀ t c, t ∈ s.condQueue c ↔ (s.at_ t).cond = some c
  cond_nodup : ∀ c, (s.condQueue c).Nodup
  arrived_eq : ∀ m, s.arrived m = s.handed m ++ s.mutexQueue m
  waited_eq : ∀ c, s.waited c = s.woken c ++ s.condQueue c

/-- The `wait` a thread is in began before some signal, or the thread is still in the queue. -/
def ThreadAt.Began (signals : Nat → Nat) (p : ThreadAt) : Prop :=
  ∀ c m n, p.wait = some (c, m, n) → n ≤ signals c ∧ (p.cond = none → n < signals c)

structure SyncInv {τ : Type} (s : SyncState τ) : Prop where
  own : OwnInv s
  queues : QueueInv s
  waits : ∀ t, (s.at_ t).Began s.signals
  quiet : ∀ m, s.locked m = false ∨ s.kind m = .spin → s.mutexQueue m = []

/-- The thread is in no queue and has not been handed a mutex. -/
def ThreadAt.Idle (p : ThreadAt) : Prop := p.mutex = none ∧ p.owned = none ∧ p.cond = none

open ThreadAt

theorem ThreadAt.grant_of_queued {p : ThreadAt} {m : Nat} (h : p.mutex = some m) :
    ∃ why, p = .queued m why ∧ p.grant = .granted m why := by
  cases p with
  | queued k why => cases h; exact ⟨why, rfl, rfl⟩
  | _ => cases h

theorem ThreadAt.wake_of_waiting {p : ThreadAt} {c : Nat} (h : p.cond = some c) :
    ∃ m n, p = .waiting c m n ∧ p.wake = .signalled c m n := by
  cases p with
  | waiting k m n => cases h; exact ⟨m, n, rfl, rfl⟩
  | _ => cases h

section Inv

open Function (update_apply)

variable {τ : Type} [DecidableEq τ] {s : SyncState τ} {t w : τ} {m c : Nat} {p : ThreadAt} {rest : List τ}

/-! ## ownership -/

open SyncState

variable {u : τ} {k : Nat}

section

variable (ht : (s.at_ t).owned = none)
include ht

theorem owns_acquire :
    (s.acquire t m).Owns u k ↔ s.Owns u k ∨ u = t ∧ k = m := by
  simp only [SyncState.Owns, acquire, setHolds, update_apply]
  grind [owned]

theorem owns_free :
    (s.free t m).Owns u k ↔ s.Owns u k ∧ ¬ (u = t ∧ k = m) := by
  simp only [SyncState.Owns, free, setHolds, update_apply]
  grind

theorem owns_handOver (hw : (s.at_ w).mutex = some m) :
    (s.handOver t m w rest).Owns u k ↔ s.Owns u k ∧ ¬ (u = t ∧ k = m) ∨ u = w ∧ k = m := by
  obtain ⟨why, hq, hg⟩ := grant_of_queued hw
  simp only [SyncState.Owns, handOver, setHolds, update_apply, hg]
  grind [owned]

end

theorem owns_move (hp : p.owned = (s.at_ t).owned) : (s.move t p).Owns u k ↔ s.Owns u k := by
  simp only [SyncState.Owns, move, update_apply]
  grind

/-- A thread that was handed the mutex returns with it. -/
theorem owns_return (ht : (s.at_ t).owned = some m) : (s.return_ t m).Owns u k ↔ s.Owns u k := by
  simp only [SyncState.Owns, return_, setHolds, update_apply]
  grind [owned]

variable {s' : SyncState τ}

namespace OwnInv

theorem acquire (hi : OwnInv s) (hfree : s.locked m = false) (ho : (s.at_ t).owned = none) : OwnInv (s.acquire t m) := by
  have hno : ∀ u, ¬ s.Owns u m := by
    intro u hu
    simp [(hi.locked_iff m).mpr ⟨u, hu⟩] at hfree
  constructor
  · intro u v k hu hv
    rw [owns_acquire ho] at hu hv
    grind [hi.one_owner u v k]
  · intro k
    have hk := hi.locked_iff k
    simp only [owns_acquire ho]
    simp only [SyncState.acquire, update_apply]
    grind

section

variable (hi : OwnInv s) (ht : s.holds t m = true) (ho : (s.at_ t).owned = none)
include hi ht ho

theorem free : OwnInv (s.free t m) := by
  have hno : ∀ u, s.Owns u m → u = t := fun u hu => hi.one_owner u t m hu (.inl ht)
  constructor
  · intro u v k hu hv
    rw [owns_free ho] at hu hv
    exact hi.one_owner u v k hu.1 hv.1
  · intro k
    have hk := hi.locked_iff k
    simp only [owns_free ho]
    simp only [SyncState.free, update_apply]
    grind

theorem handOver
    (hw : (s.at_ w).mutex = some m) : OwnInv (s.handOver t m w rest) := by
  have hno : ∀ u, s.Owns u m → u = t := fun u hu => hi.one_owner u t m hu (.inl ht)
  constructor
  · intro u v k hu hv
    rw [owns_handOver ho hw] at hu hv
    grind [hi.one_owner u v k]
  · intro k
    have hk := hi.locked_iff k
    simp only [owns_handOver ho hw]
    simp only [SyncState.handOver, SyncState.setHolds]
    have hl : s.locked m = true := (hi.locked_iff m).mpr ⟨t, .inl ht⟩
    grind

end

omit [DecidableEq τ] in
theorem of_owns (hi : OwnInv s) (hl : s'.locked = s.locked) (ho : ∀ u k, s'.Owns u k ↔ s.Owns u k) :
    OwnInv s' := by
  constructor
  · intro u v k hu hv
    rw [ho] at hu hv
    exact hi.one_owner u v k hu hv
  · intro k
    simp only [ho, hl]
    exact hi.locked_iff k

end OwnInv

/-! ## the queues -/

namespace QueueInv

omit [DecidableEq τ] in
theorem fifo_mutex (hi : QueueInv s) : Fifo mutex s.mutexQueue s.arrived s.handed s.at_ :=
  ⟨hi.mutex_iff, hi.mutex_nodup, hi.arrived_eq⟩

omit [DecidableEq τ] in
theorem fifo_cond (hi : QueueInv s) : Fifo cond s.condQueue s.waited s.woken s.at_ :=
  ⟨hi.cond_iff, hi.cond_nodup, hi.waited_eq⟩

omit [DecidableEq τ] in
theorem of_fifo (hm : Fifo mutex s.mutexQueue s.arrived s.handed s.at_)
    (hc : Fifo cond s.condQueue s.waited s.woken s.at_) : QueueInv s :=
  ⟨hm.mem_iff, hm.nodup, hc.mem_iff, hc.nodup, hm.order, hc.order⟩

section

variable (hi : QueueInv s)
include hi

/-- A thread outside the queues goes somewhere outside the queues. -/
theorem move (ht : (s.at_ t).mutex = none ∧ (s.at_ t).cond = none)
    (hp : p.mutex = none ∧ p.cond = none) : QueueInv (s.move t p) :=
  of_fifo (hi.fifo_mutex.stay (hp.1.trans ht.1.symm)) (hi.fifo_cond.stay (hp.2.trans ht.2.symm))

theorem enterMutex (ht : (s.at_ t).mutex = none ∧ (s.at_ t).cond = none) (why : LockFor) :
    QueueInv (s.enterMutex t m why) :=
  of_fifo (hi.fifo_mutex.enter ht.1 rfl) (hi.fifo_cond.stay ht.2.symm)

theorem handOver (hq : s.mutexQueue m = w :: rest) : QueueInv (s.handOver t m w rest) := by
  have hw : (s.at_ w).mutex = some m := (hi.mutex_iff w m).mp (by simp [hq])
  obtain ⟨why, hp, hg⟩ := grant_of_queued hw
  apply of_fifo
  · exact hi.fifo_mutex.leave hq (by rw [hg]; rfl)
  · exact hi.fifo_cond.stay (by rw [hg, hp]; rfl)

theorem enterCond (ht : (s.at_ t).mutex = none ∧ (s.at_ t).cond = none) :
    QueueInv (s.enterCond t c m) :=
  of_fifo (hi.fifo_mutex.stay ht.1.symm) (hi.fifo_cond.enter ht.2 rfl)

theorem wakeFront (hq : s.condQueue c = w :: rest) : QueueInv (s.wakeFront c w rest) := by
  have hw : (s.at_ w).cond = some c := (hi.cond_iff w c).mp (by simp [hq])
  obtain ⟨k, n, hp, hg⟩ := wake_of_waiting hw
  apply of_fifo
  · exact hi.fifo_mutex.stay (by rw [hg, hp]; rfl)
  · exact hi.fifo_cond.leave hq (by rw [hg]; rfl)

end

end QueueInv

/-! ## every operation -/

variable {why : LockFor}

namespace SyncInv

theorem began_update (hi : SyncInv s) (hp : p.Began s.signals) (u : τ) : (update s.at_ t p u).Began s.signals := by
  rw [update_apply]
  split
  · exact hp
  · exact hi.waits u

theorem began_user {signals : Nat → Nat} : user.Began signals := by
  intro c m n h
  cases h

theorem move (hi : SyncInv s) (ht : (s.at_ t).Idle) (hp : p.Idle) (hb : p.Began s.signals) : SyncInv (s.move t p) where
  own := hi.own.of_owns rfl fun _ _ => owns_move (hp.2.1.trans ht.2.1.symm)
  queues := hi.queues.move ⟨ht.1, ht.2.2⟩ ⟨hp.1, hp.2.2⟩
  waits := hi.began_update hb
  quiet := hi.quiet

theorem acquire (hi : SyncInv s) (hfree : s.locked m = false) (ht : (s.at_ t).Idle) : SyncInv (s.acquire t m) where
  own := hi.own.acquire hfree ht.2.1
  queues := .of_fifo (hi.queues.fifo_mutex.stay ht.1.symm) (hi.queues.fifo_cond.stay ht.2.2.symm)
  waits := hi.began_update began_user
  quiet := by
    intro k hk
    have hq := hi.quiet k
    simp only [SyncState.acquire, SyncState.setHolds, update_apply] at hk ⊢
    grind

theorem return_ (hi : SyncInv s) (ht : (s.at_ t).owned = some m) (hm : (s.at_ t).mutex = none) (hc : (s.at_ t).cond = none) :
    SyncInv (s.return_ t m) where
  own := hi.own.of_owns rfl fun _ _ => owns_return ht
  queues := .of_fifo (hi.queues.fifo_mutex.stay hm.symm) (hi.queues.fifo_cond.stay hc.symm)
  waits := hi.began_update began_user
  quiet := hi.quiet

theorem enterMutex (hi : SyncInv s) (ht : (s.at_ t).Idle) (hb : (queued m why).Began s.signals)
    (hl : s.locked m = true) (hk : s.kind m = .blocking) : SyncInv (s.enterMutex t m why) where
  own := hi.own.of_owns rfl fun _ _ => owns_move (p := .queued m why) ht.2.1.symm
  queues := hi.queues.enterMutex ⟨ht.1, ht.2.2⟩ why
  waits := hi.began_update hb
  quiet := by
    intro k hk
    have hq := hi.quiet k
    simp only [SyncState.enterMutex, update_apply] at hk ⊢
    grind

theorem enterCond (hi : SyncInv s) (ht : (s.at_ t).Idle) : SyncInv (s.enterCond t c m) where
  own := hi.own.of_owns rfl fun _ _ => owns_move (p := .waiting c m (s.signals c)) ht.2.1.symm
  queues := hi.queues.enterCond ⟨ht.1, ht.2.2⟩
  waits := by
    apply hi.began_update
    intro k l n h
    cases h
    exact ⟨le_rfl, fun h => by cases h⟩
  quiet := hi.quiet

theorem free (hi : SyncInv s) (ht : s.holds t m = true) (hu : s.at_ t = .user) (hq : s.mutexQueue m = []) :
    SyncInv (s.free t m) where
  own := hi.own.free ht (by rw [hu]; rfl)
  queues := .of_fifo hi.queues.fifo_mutex hi.queues.fifo_cond
  waits := hi.waits
  quiet := by
    intro k hk
    have hq := hi.quiet k
    simp only [SyncState.free, SyncState.setHolds, update_apply] at hk ⊢
    grind

theorem handOver (hi : SyncInv s) (ht : s.holds t m = true) (hu : s.at_ t = .user) (hq : s.mutexQueue m = w :: rest) :
    SyncInv (s.handOver t m w rest) := by
  have hw : (s.at_ w).mutex = some m := (hi.queues.mutex_iff w m).mp (by simp [hq])
  obtain ⟨why, hp, hg⟩ := grant_of_queued hw
  refine ⟨hi.own.handOver ht (by rw [hu]; rfl) hw, hi.queues.handOver hq, ?_, ?_⟩
  · apply hi.began_update
    have hb := hi.waits w
    rw [hp] at hb
    rw [hg]
    cases why <;> exact hb
  · intro k hk
    have hq' := hi.quiet k hk
    simp only [SyncState.handOver, SyncState.setHolds, update_apply] at hk ⊢
    grind

omit [DecidableEq τ] in
theorem countSignal (hi : SyncInv s) : SyncInv (s.countSignal c) where
  own := ⟨hi.own.one_owner, hi.own.locked_iff⟩
  queues := .of_fifo hi.queues.fifo_mutex hi.queues.fifo_cond
  waits := by
    intro u k m n h
    have hb := hi.waits u k m n h
    simp only [SyncState.countSignal, update_apply] at hb ⊢
    grind
  quiet := hi.quiet

/-- Every thread in the queue of `c` began its `wait` before some signal. -/
def Signalled (s : SyncState τ) (c : Nat) : Prop := ∀ t m n, s.at_ t = .waiting c m n → n < s.signals c

theorem wakeFront (hi : SyncInv s) (hs : Signalled s c) (hq : s.condQueue c = w :: rest) :
    SyncInv (s.wakeFront c w rest) ∧ Signalled (s.wakeFront c w rest) c := by
  have hw : (s.at_ w).cond = some c := (hi.queues.cond_iff w c).mp (by simp [hq])
  obtain ⟨m, n, hp, hg⟩ := wake_of_waiting hw
  refine ⟨⟨?_, hi.queues.wakeFront hq, ?_, hi.quiet⟩, ?_⟩
  · exact hi.own.of_owns rfl fun _ _ => owns_move (by rw [hg, hp]; rfl)
  · apply hi.began_update
    rw [hg]
    intro k l i h
    cases h
    exact ⟨(hs w m n hp).le, fun _ => hs w m n hp⟩
  · intro u l i h
    simp only [SyncState.wakeFront, update_apply, hg] at h ⊢
    split at h
    · cases h
    · exact hs u l i h

theorem popWake (hi : SyncInv s) (hs : Signalled s c) : SyncInv (s.popWake c) ∧ Signalled (s.popWake c) c := by
  unfold SyncState.popWake
  split
  case h_1 w rest hq => exact hi.wakeFront hs hq
  case h_2 => exact ⟨hi, hs⟩

theorem popWakeAll (hi : SyncInv s) (hs : Signalled s c) (n : Nat) : SyncInv (s.popWakeAll c n) := by
  induction n generalizing s with
  | zero => exact hi
  | succ n ih =>
    obtain ⟨hi', hs'⟩ := hi.popWake hs
    exact ih hi' hs'

omit [DecidableEq τ] in
theorem signalled_countSignal (hi : SyncInv s) (c : Nat) : Signalled (s.countSignal c) c := by
  intro u m n h
  have hb := (hi.waits u c m n (by rw [show s.at_ u = _ from h]; rfl)).1
  simp only [SyncState.countSignal, update_apply, if_true]
  omega

theorem lockTurn (hi : SyncInv s) (ht : (s.at_ t).Idle) (hb : (queued m why).Began s.signals) :
    SyncInv (s.lockTurn t m why) := by
  have hb' : (spinning m why).Began s.signals := by cases why <;> exact hb
  unfold SyncState.lockTurn
  cases hl : s.locked m
  case false => split <;> exact hi.acquire hl ht
  case true =>
    split
    case h_1 => exact hi.move ht ⟨rfl, rfl, rfl⟩ hb'
    case h_2 hk => exact hi.enterMutex ht hb hl hk

/-- `unlock` by the thread that holds the mutex: no panic, and the thread is still in user mode after it. -/
theorem unlockTurn (hi : SyncInv s) (ht : s.holds t m = true) (hu : s.at_ t = .user) :
    ∃ s', s.unlockTurn t m = some s' ∧ SyncInv s' ∧ s'.at_ t = .user := by
  have hl : s.locked m = true := (hi.own.locked_iff m).mpr ⟨t, .inl ht⟩
  unfold SyncState.unlockTurn
  split
  case h_1 hk => exact ⟨_, rfl, hi.free ht hu (hi.quiet m (.inr hk)), hu⟩
  case h_2 hk =>
    rw [if_pos hl]
    split
    case h_1 w rest hq =>
      refine ⟨_, rfl, hi.handOver ht hu hq, ?_⟩
      have hw : (s.at_ w).mutex = some m := (hi.queues.mutex_iff w m).mp (by simp [hq])
      have hne : t ≠ w := by
        rintro rfl
        rw [hu] at hw
        cases hw
      simp [SyncState.handOver, hne, hu]
    case h_2 hq => exact ⟨_, rfl, hi.free ht hu hq, hu⟩

omit [DecidableEq τ] in
theorem isUser_iff : s.isUser t = true ↔ s.at_ t = .user := by
  unfold isUser
  split <;> simp_all

theorem step {e : SyncEvent τ} (hi : SyncInv s) (hd : Disciplined s e) (hs : s.step e = some s') :
    SyncInv s' := by
  cases e with
  | lock t m =>
    obtain ⟨hu, ⟨⟩⟩ := ite_none_right_eq_some.mp hs
    rw [isUser_iff] at hu
    exact hi.lockTurn (by rw [hu]; exact ⟨rfl, rfl, rfl⟩) (by intro c k n h; cases h)
  | unlock t m =>
    obtain ⟨hu, hs⟩ := ite_none_right_eq_some.mp hs
    obtain ⟨v, hv, hi', -⟩ := hi.unlockTurn hd (isUser_iff.mp hu)
    cases hv.symm.trans hs
    exact hi'
  | wait t c m =>
    obtain ⟨hu, hs⟩ := ite_none_right_eq_some.mp hs
    obtain ⟨v, hv, hi', hu'⟩ := hi.unlockTurn hd (isUser_iff.mp hu)
    rw [hv] at hs
    cases hs
    exact hi'.enterCond (by rw [hu']; exact ⟨rfl, rfl, rfl⟩)
  | signal t c =>
    obtain ⟨-, ⟨⟩⟩ := ite_none_right_eq_some.mp hs
    exact (hi.countSignal.popWake (hi.signalled_countSignal c)).1
  | signalAll t c =>
    obtain ⟨-, ⟨⟩⟩ := ite_none_right_eq_some.mp hs
    exact hi.countSignal.popWakeAll (hi.signalled_countSignal c) _
  | resume t =>
    have hb := hi.waits t
    simp only [SyncState.step] at hs
    split at hs
    case h_1 m why ht =>
      cases hs
      rw [ht] at hb
      exact hi.lockTurn (by rw [ht]; exact ⟨rfl, rfl, rfl⟩) (by cases why <;> exact hb)
    case h_2 m why ht =>
      cases hs
      exact hi.return_ (by rw [ht]; rfl) (by rw [ht]; rfl) (by rw [ht]; rfl)
    case h_3 c m n ht =>
      cases hs
      rw [ht] at hb
      exact hi.lockTurn (by rw [ht]; exact ⟨rfl, rfl, rfl⟩) hb
    case h_4 => cases hs

theorem reach (h : ((sync τ).only Disciplined).Reach s) : SyncInv s := by
  refine h.inv SyncInv ?_ ?_
  · rintro s ⟨kind, rfl⟩
    constructor
    case own => constructor <;> simp [SyncState.Owns, start, owned]
    case queues => constructor <;> simp [start, ThreadAt.mutex, ThreadAt.cond]
    case waits => exact fun _ => began_user
    case quiet => simp [start]
  · intro s e s' hi hs
    obtain ⟨hd, hs⟩ := Machine.only_step.mp hs
    exact hi.step hd hs

end SyncInv

/-! ## what one call does -/

theorem popWake_cons (hq : s.condQueue c = w :: rest) : s.popWake c = s.wakeFront c w rest := by
  unfold popWake
  rw [hq]

theorem popWakeAll_spec {queue : List τ} (hq : s.condQueue c = queue) (hnd : queue.Nodup) :
    (s.popWakeAll c queue.length).condQueue c = [] ∧
      ∀ u, (s.popWakeAll c queue.length).at_ u = if u ∈ queue then (s.at_ u).wake else s.at_ u := by
  induction queue generalizing s with
  | nil => exact ⟨hq, fun u => by simp [popWakeAll]⟩
  | cons w rest ih =>
    obtain ⟨hw, hrest⟩ := List.nodup_cons.mp hnd
    obtain ⟨h0, hat⟩ := ih (s := s.wakeFront c w rest) (by simp [wakeFront]) hrest
    simp only [List.length_cons, popWakeAll, popWake_cons hq]
    refine ⟨h0, ?_⟩
    intro u
    rw [hat u]
    simp only [wakeFront, update_apply]
    grind

theorem signalAll_at (hi : SyncInv s) (u : τ) :
    ((s.countSignal c).popWakeAll c (s.condQueue c).length).at_ u =
      if u ∈ s.condQueue c then (s.at_ u).wake else s.at_ u :=
  (popWakeAll_spec (s := s.countSignal c) rfl (hi.queues.cond_nodup c)).2 u

theorem grant_ne_user (h : p ≠ .user) : p.grant ≠ .user := by
  cases p <;> simp_all [grant]

theorem wake_ne_user (h : p ≠ .user) : p.wake ≠ .user := by
  cases p <;> simp_all [wake]

theorem unlockTurn_ne_user (hs : s.unlockTurn t m = some s') (h : s.at_ u ≠ .user) :
    s'.at_ u ≠ .user := by
  unfold unlockTurn at hs
  split at hs
  · cases hs
    exact h
  · obtain ⟨-, hs⟩ := ite_none_right_eq_some.mp hs
    split at hs
    case h_1 w rest hq =>
      cases hs
      simp only [handOver, update_apply]
      split
      · exact grant_ne_user (by subst u; exact h)
      · exact h
    case h_2 =>
      cases hs
      exact h

theorem lockTurn_other (h : u ≠ t) : (s.lockTurn t m why).at_ u = s.at_ u := by
  unfold lockTurn
  split <;> split <;> simp [move, acquire, enterMutex, h]

/-- A call returns in a turn of the thread that made it. -/
theorem resume_of_return {e : SyncEvent τ} (hi : SyncInv s) (hs : s.step e = some s')
    (h : s.at_ u ≠ .user) (hu : s'.at_ u = .user) : e = .resume u := by
  cases e with
  | lock t m =>
    obtain ⟨ht, ⟨⟩⟩ := ite_none_right_eq_some.mp hs
    rw [SyncInv.isUser_iff] at ht
    have hne : u ≠ t := by rintro rfl; exact h ht
    exact absurd ((lockTurn_other hne).symm.trans hu) h
  | unlock t m =>
    obtain ⟨-, hs⟩ := ite_none_right_eq_some.mp hs
    exact absurd hu (unlockTurn_ne_user hs h)
  | wait t c m =>
    obtain ⟨ht, hs⟩ := ite_none_right_eq_some.mp hs
    obtain ⟨v, hv, rfl⟩ := map_eq_some_iff.mp hs
    simp only [enterCond, update_apply] at hu
    split at hu
    · cases hu
    · exact absurd hu (unlockTurn_ne_user hv h)
  | signal t c =>
    obtain ⟨-, ⟨⟩⟩ := ite_none_right_eq_some.mp hs
    unfold popWake at hu
    split at hu
    · simp only [wakeFront, update_apply] at hu
      split at hu
      · subst u
        exact absurd hu (wake_ne_user h)
      · exact absurd hu h
    · exact absurd hu h
  | signalAll t c =>
    obtain ⟨-, ⟨⟩⟩ := ite_none_right_eq_some.mp hs
    rw [signalAll_at hi] at hu
    split at hu
    · exact absurd hu (wake_ne_user h)
    · exact absurd hu h
  | resume t =>
    by_cases hne : u = t
    · rw [hne]
    · simp only [step] at hs
      split at hs <;> cases hs
      · exact absurd ((lockTurn_other hne).symm.trans hu) h
      · simp only [return_, update_apply, if_neg hne] at hu
        exact absurd hu h
      · exact absurd ((lockTurn_other hne).symm.trans hu) h

/-- A turn of `lock` that returns locks the mutex. -/
theorem lockTurn_returns (h : (s.lockTurn t m why).at_ t = .user) : s.lockTurn t m why = s.acquire t m := by
  unfold lockTurn at h ⊢
  split at h <;> split at h
  all_goals simp_all [move, enterMutex]

theorem resume_returns {n : Nat} (hi : SyncInv s) (hs : s.step (.resume t) = some s')
    (hw : (s.at_ t).wait = some (c, k, n)) (hu : s'.at_ t = .user) : s'.holds t k = true ∧ n < s'.signals c := by
  have hb := hi.waits t c k n hw
  simp only [step] at hs
  split at hs
  case h_1 m why ht =>
    cases hs
    rw [ht] at hb hw
    cases why <;> cases hw
    rw [lockTurn_returns hu]
    exact ⟨by simp [acquire, setHolds], hb.2 rfl⟩
  case h_2 m why ht =>
    cases hs
    rw [ht] at hb hw
    cases why <;> cases hw
    exact ⟨by simp [return_, setHolds], hb.2 rfl⟩
  case h_3 d m i ht =>
    cases hs
    rw [ht] at hb hw
    cases hw
    rw [lockTurn_returns hu]
    exact ⟨by simp [acquire, setHolds], hb.2 rfl⟩
  case h_4 => cases hs

end Inv

/-- What threads can rely on. -/
structure SyncContract {τ : Type} [DecidableEq τ] (s : SyncState τ) : Prop where
  /-- At most one thread is between a returned `lock` or `wait` and its next `unlock` or `wait`. -/
  exclusive : ∀ t u m, s.holds t m = true → s.holds u m = true → t = u
  /-- `unlock` by that thread does not panic. -/
  unlocks : ∀ t m, s.at_ t = .user → s.holds t m = true → (s.step (.unlock t m)).isSome
  /-- A `wait` returns with the mutex held, and after a signal that came after it began. -/
  wait_returns : ∀ e s' t c m n, Disciplined s e → s.step e = some s' → (s.at_ t).wait = some (c, m, n) →
    s'.at_ t = .user → s'.holds t m = true ∧ n < s'.signals c
  /-- Whoever has released its mutex in `wait` is in the queue, behind those that came before. -/
  waiting_iff : ∀ t c, t ∈ s.condQueue c ↔ ∃ m n, s.at_ t = .waiting c m n
  waited_eq : ∀ c, s.waited c = s.woken c ++ s.condQueue c
  /-- `signal` wakes the first of them. -/
  signal_wakes : ∀ t c w rest s', s.condQueue c = w :: rest → s.step (.signal t c) = some s' →
    s'.condQueue c = rest ∧ ∃ m n, s.at_ w = .waiting c m n ∧ s'.at_ w = .signalled c m n
  /-- `signal_all` wakes them all. -/
  signalAll_wakes : ∀ t c s', s.step (.signalAll t c) = some s' →
    s'.condQueue c = [] ∧ ∀ w m n, s.at_ w = .waiting c m n → s'.at_ w = .signalled c m n
  /-- A thread that is woken or handed the mutex goes on when it gets the processor. -/
  resumes : ∀ t, (∃ c m n, s.at_ t = .signalled c m n) ∨ (∃ m why, s.at_ t = .granted m why) →
    (s.step (.resume t)).isSome
  /-- A mutex is locked exactly while some thread owns it. -/
  locked_iff : ∀ m, s.locked m = true ↔ ∃ t, s.Owns t m
  /-- Nobody queues for a mutex that is not locked, and a `MutexBlocking` is handed over in the order of arrival. -/
  quiet : ∀ m, s.locked m = false → s.mutexQueue m = []
  arrived_eq : ∀ m, s.arrived m = s.handed m ++ s.mutexQueue m
  hands_over : ∀ t m w rest s', s.holds t m = true → s.mutexQueue m = w :: rest → s.step (.unlock t m) = some s' →
    s'.mutexQueue m = rest ∧ s'.Owns w m

/-- In every run in which only the thread that holds a mutex unlocks it or waits with it. -/
theorem sync_contract {τ : Type} [DecidableEq τ] {s : SyncState τ} (h : ((sync τ).only Disciplined).Reach s) :
    SyncContract s := by
  have hi := SyncInv.reach h
  constructor
  case exclusive => exact fun t u m ht hu => hi.own.one_owner t u m (.inl ht) (.inl hu)
  case unlocks =>
    intro t m hu ht
    obtain ⟨s', hs', -⟩ := hi.unlockTurn ht hu
    rw [SyncState.step, if_pos (SyncInv.isUser_iff.mpr hu), hs']
    rfl
  case wait_returns =>
    intro e s' t c m n _ hs hw hu
    have hne : s.at_ t ≠ .user := by
      intro h
      rw [h] at hw
      cases hw
    cases resume_of_return hi hs hne hu
    exact resume_returns hi hs hw hu
  case waiting_iff =>
    intro t c
    rw [hi.queues.cond_iff]
    constructor
    · intro h
      obtain ⟨m, n, hp, -⟩ := ThreadAt.wake_of_waiting h
      exact ⟨m, n, hp⟩
    · rintro ⟨m, n, hp⟩
      rw [hp]
      rfl
  case waited_eq => exact hi.queues.waited_eq
  case signal_wakes =>
    intro t c w rest s' hq hs
    obtain ⟨-, ⟨⟩⟩ := ite_none_right_eq_some.mp hs
    have hw : (s.at_ w).cond = some c := (hi.queues.cond_iff w c).mp (by simp [hq])
    obtain ⟨m, n, hp, hg⟩ := ThreadAt.wake_of_waiting hw
    rw [popWake_cons (s := s.countSignal c) hq]
    exact ⟨by simp [SyncState.wakeFront], m, n, hp, by simpa [SyncState.wakeFront, SyncState.countSignal] using hg⟩
  case signalAll_wakes =>
    intro t c s' hs
    obtain ⟨-, ⟨⟩⟩ := ite_none_right_eq_some.mp hs
    refine ⟨(popWakeAll_spec (s := s.countSignal c) rfl (hi.queues.cond_nodup c)).1, ?_⟩
    intro w m n hw
    rw [signalAll_at hi, if_pos ((hi.queues.cond_iff w c).mpr (by rw [hw]; rfl)), hw]
    rfl
  case resumes =>
    rintro t (⟨c, m, n, ht⟩ | ⟨m, why, ht⟩)
    · simp [SyncState.step, ht]
    · simp [SyncState.step, ht]
  case locked_iff => exact hi.own.locked_iff
  case quiet => exact fun m hm => hi.quiet m (.inl hm)
  case arrived_eq => exact hi.queues.arrived_eq
  case hands_over =>
    intro t m w rest s' ht hq hs
    obtain ⟨hu, hs⟩ := ite_none_right_eq_some.mp hs
    have hk : s.kind m = .blocking := by
      cases hk : s.kind m with
      | blocking => rfl
      | spin => rw [hi.quiet m (.inr hk)] at hq; cases hq
    have hl : s.locked m = true := (hi.own.locked_iff m).mpr ⟨t, .inl ht⟩
    have ho : (s.at_ t).owned = none := by rw [SyncInv.isUser_iff.mp hu]; rfl
    have hw : (s.at_ w).mutex = some m := (hi.queues.mutex_iff w m).mp (by simp [hq])
    simp only [SyncState.unlockTurn, hk, hl, hq, if_true, some.injEq] at hs
    subst hs
    exact ⟨by simp [SyncState.handOver], (owns_handOver ho hw).mpr (.inr ⟨rfl, rfl⟩)⟩

/-- Thread 0 waits on condition variable 0; thread 1 takes the mutex, signals and unlocks; 0 is handed the mutex. -/
theorem sync_contract_handed : ∃ s : SyncState Nat, ((sync Nat).only Disciplined).Reach s ∧ s.holds 0 0 = true ∧
    s.handed 0 = [0] ∧ s.woken 0 = [0] ∧ SyncContract s := by
  have h0 : ((sync Nat).only Disciplined).Reach (SyncState.start fun _ => .blocking) := .init ⟨_, rfl⟩
  have h1 := h0.onlyStep (.lock 0 0) trivial rfl
  have h2 := h1.onlyStep (.wait 0 0 0) rfl rfl
  have h3 := h2.onlyStep (.lock 1 0) trivial rfl
  have h4 := h3.onlyStep (.signal 1 0) trivial rfl
  have h5 := h4.onlyStep (.resume 0) trivial rfl
  have h6 := h5.onlyStep (.unlock 1 0) rfl rfl
  have h7 := h6.onlyStep (.resume 0) trivial rfl
  exact ⟨_, h7, rfl, rfl, rfl, sync_contract h7⟩

end TCore.Kernel
