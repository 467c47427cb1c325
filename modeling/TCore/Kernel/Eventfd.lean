/-
  TCore.Kernel.Eventfd — event counters (fs/eventfd.rs).

  The count is a `usize`. A `read` looks at its low 32 bits only: when they are zero it waits (or
  answers 0, without blocking), otherwise it takes them, as four big-endian bytes of which its
  buffer may hold fewer, and sets the count to 0. Between two schedule points nothing else runs,
  so a turn of a call is one step; a reader in the wait queue gets its next turn after a `write`
  has woken it. `written` and `delivered` keep the history of the amounts.
-/

import TCore.Lib.LittleEndian
import TCore.Lib.Machine

namespace TCore.Kernel

open TCore.Lib
open List

/-- `EventfdFlags`, as a system call passes them. -/
structure EventfdFlags where
  nonblock : Bool
  semaphore : Bool

/-- The mode `(non_block, semaphore)`: a non-blocking counter is never a semaphore. -/
def EventfdFlags.nonblockSemaphore (f : EventfdFlags) : Bool × Bool :=
  if f.nonblock then (true, false) else if f.semaphore then (false, true) else (false, false)

/-- `u32::to_be_bytes`. -/
def toBeBytes (v : Nat) : List UInt8 := [leByte v 3, leByte v 2, leByte v 1, leByte v 0]

/-- What four big-endian bytes are worth; bytes that are missing at the end count as zero. -/
def beValue (bytes : List UInt8) : Nat :=
  (bytes.getD 0 0).toNat * 256 ^ 3 + (bytes.getD 1 0).toNat * 256 ^ 2 + (bytes.getD 2 0).toNat * 256 + (bytes.getD 3 0).toNat

/-- A `read` with a buffer of `len` bytes: about to run, in the wait queue, or returned with its
    result and the bytes it has stored. -/
inductive EventfdCall where
  | ready (len : Nat)
  | waiting (len : Nat)
  | returned (len result : Nat) (bytes : List UInt8)

structure EventfdState where
  nonBlock : Bool
  semaphore : Bool
  count : Nat
  waitQueue : List Nat
  calls : List EventfdCall
  initval : Nat
  written : Nat
  delivered : Nat

inductive EventfdEvent where
  | read (len : Nat)
  /-- Call number `c` gets the processor. -/
  | turn (c : Nat)
  | write (v : UInt32)

namespace EventfdState

/-- `eventfd_create`. -/
def create (initval : UInt32) (flags : EventfdFlags) : EventfdState :=
  ⟨flags.nonblockSemaphore.1, flags.nonblockSemaphore.2, initval.toNat, [], [], initval.toNat, 0, 0⟩

/-- `wakeup_task` on a call that waits. -/
def wakeup (calls : List EventfdCall) (c : Nat) : List EventfdCall :=
  match calls[c]? with
  | some (.waiting len) => calls.set c (.ready len)
  | _ => calls

/-- What a `write` of `v` adds. -/
def amount (s : EventfdState) (v : UInt32) : Nat := if s.semaphore then 1 else v.toNat

def write (s : EventfdState) (v : UInt32) : EventfdState :=
  { s with
    count := (s.count + s.amount v) % 2 ^ 64
    written := s.written + s.amount v
    waitQueue := s.waitQueue.tail
    calls := match s.waitQueue with | [] => s.calls | c :: _ => wakeup s.calls c }

/-- The four bytes a `read` answers, and the count it leaves. -/
def taken (s : EventfdState) : List UInt8 × Nat :=
  if s.semaphore then (toBeBytes 1, s.count - 1) else (toBeBytes (s.count % 2 ^ 32), 0)

/-- A turn of call `c`, a `read` into `len` bytes. -/
def readTurn (s : EventfdState) (c len : Nat) : EventfdState :=
  if s.count % 2 ^ 32 = 0 then
    if s.nonBlock then { s with calls := s.calls.set c (.returned len 0 []) }
    else { s with waitQueue := s.waitQueue ++ [c], calls := s.calls.set c (.waiting len) }
  else
    { s with
      count := s.taken.2
      calls := s.calls.set c (.returned len 4 (s.taken.1.take len))
      delivered := s.delivered + beValue (s.taken.1.take len) }

def step (s : EventfdState) : EventfdEvent → Option EventfdState
  | .read len => some { s with calls := s.calls ++ [.ready len] }
  | .turn c =>
    match s.calls[c]? with
    | some (.ready len) => some (s.readTurn c len)
    | _ => none
  | .write v => some (s.write v)

end EventfdState

def eventfd : Machine EventfdState EventfdEvent where
  init s := ∃ initval flags, s = EventfdState.create initval flags
  step := EventfdState.step

/-! ## Amounts -/

/-- The bytes that fit into a buffer are worth the amount without its low bytes. -/
theorem beValue_take (v len : Nat) : beValue ((toBeBytes v).take len) = v % 2 ^ 32 - v % 256 ^ (4 - len) := by
  rcases len with _ | _ | _ | _ | len
  · simp [beValue]
  · simp [beValue, toBeBytes]
    omega
  · simp [beValue, toBeBytes]
    omega
  · simp [beValue, toBeBytes]
    omega
  · simp [beValue, toBeBytes, show 4 - (len + 1 + 1 + 1 + 1) = 0 by omega, Nat.mod_one]
    omega

variable {calls : List EventfdCall} {c : Nat}

namespace EventfdState

/-- What was put in and is neither in the count nor delivered. -/
def balance (s : EventfdState) : Int := s.initval + s.written - s.count - s.delivered

/-- The step loses no amount, and if a `read` finds nothing in it then the count is 0. -/
def Kept (s : EventfdState) (e : EventfdEvent) (t : EventfdState) : Prop :=
  t.balance = s.balance ∧
    ∀ c, e = .turn c → (∃ len, t.calls[c]? = some (.waiting len) ∨ t.calls[c]? = some (.returned len 0 [])) → s.count = 0

/-- The count has room for what is written; a `read` finds 0, or a count below 2^32 whose low bytes,
    those the buffer has no place for, are zero. -/
def Lossless (s : EventfdState) : EventfdEvent → Prop
  | .read _ => True
  | .write v => s.count + s.amount v < 2 ^ 64
  | .turn c => ∀ len, s.calls[c]? = some (.ready len) → s.count = 0 ∨ s.count < 2 ^ 32 ∧ s.count % 256 ^ (4 - len) = 0

variable {s t : EventfdState}

theorem kept_write (v : UInt32) : Kept s (.write v) (s.write v) ↔ s.count + s.amount v < 2 ^ 64 := by
  have hbal : (s.write v).balance = s.balance ↔ (s.count + s.amount v) % 2 ^ 64 = s.count + s.amount v := by
    simp only [balance, write]
    omega
  constructor
  · rintro ⟨h, -⟩
    have := hbal.mp h
    omega
  · intro h
    exact ⟨hbal.mpr (Nat.mod_eq_of_lt h), fun c hc => by cases hc⟩

/-- The state of the call whose turn it was. -/
theorem calls_set {x : EventfdCall} (hc : calls[c]? = some x) (y : EventfdCall) :
    (calls.set c y)[c]? = some y := getElem?_set_self (List.getElem?_eq_some_iff.mp hc).1

theorem kept_readTurn {len : Nat} (hc : s.calls[c]? = some (.ready len)) (hs : s.semaphore = false) :
    Kept s (.turn c) (s.readTurn c len) ↔ s.count = 0 ∨ s.count < 2 ^ 32 ∧ s.count % 256 ^ (4 - len) = 0 := by
  by_cases h0 : s.count % 2 ^ 32 = 0
  · -- the call waits or answers 0, and the balance is what it was
    have hfinds : ∃ len', (s.readTurn c len).calls[c]? = some (.waiting len') ∨
        (s.readTurn c len).calls[c]? = some (.returned len' 0 []) := by
      rw [readTurn, if_pos h0]
      split
      · exact ⟨len, Or.inr (calls_set hc _)⟩
      · exact ⟨len, Or.inl (calls_set hc _)⟩
    have hbal : (s.readTurn c len).balance = s.balance := by
      rw [readTurn, if_pos h0]
      split <;> rfl
    constructor
    · rintro ⟨-, h⟩
      exact Or.inl (h c rfl hfinds)
    · intro h
      refine ⟨hbal, fun c' _ _ => ?_⟩
      rcases h with h | ⟨h, -⟩
      · exact h
      · omega
  · have hcalls : (s.readTurn c len).calls[c]? = some (.returned len 4 (s.taken.1.take len)) := by
      rw [readTurn, if_neg h0]
      exact calls_set hc _
    have hbal : (s.readTurn c len).balance = s.balance ↔
        s.count = s.count % 2 ^ 32 - s.count % 2 ^ 32 % 256 ^ (4 - len) := by
      have hd : (s.readTurn c len).delivered = s.delivered + (s.count % 2 ^ 32 - s.count % 2 ^ 32 % 256 ^ (4 - len)) := by
        rw [readTurn, if_neg h0, taken, hs]
        simp only [Bool.false_eq_true, if_false]
        rw [beValue_take, Nat.mod_mod]
      have hcount : (s.readTurn c len).count = 0 := by
        rw [readTurn, if_neg h0, taken, hs]
        rfl
      have hsame : (s.readTurn c len).initval = s.initval ∧ (s.readTurn c len).written = s.written := by
        rw [readTurn, if_neg h0]
        exact ⟨rfl, rfl⟩
      rw [balance, balance, hd, hcount, hsame.1, hsame.2]
      omega
    constructor
    · rintro ⟨h, -⟩
      have := hbal.mp h
      refine Or.inr ⟨by omega, ?_⟩
      rw [show s.count % 2 ^ 32 = s.count by omega] at this
      have := Nat.mod_le s.count (256 ^ (4 - len))
      omega
    · intro h
      refine ⟨hbal.mpr ?_, ?_⟩
      · rcases h with h | ⟨h, h'⟩
        · omega
        · rw [show s.count % 2 ^ 32 = s.count by omega, h']
          rfl
      · intro c' e hex
        cases e
        rw [hcalls] at hex
        obtain ⟨len', hex | hex⟩ := hex <;> cases hex

theorem kept_iff {e : EventfdEvent} (hs : s.semaphore = false) (h : s.step e = some t) : Kept s e t ↔ Lossless s e := by
  cases e with
  | read len =>
    cases h
    exact ⟨fun _ => trivial, fun _ => ⟨rfl, fun c hc => by cases hc⟩⟩
  | write v =>
    cases h
    exact kept_write v
  | turn c =>
    rw [step] at h
    split at h
    · rename_i len hc
      cases h
      rw [kept_readTurn hc hs]
      constructor
      · intro hl len' hc'
        rw [hc] at hc'
        cases hc'
        exact hl
      · exact fun hl => hl len hc
    · cases h

theorem step_mode {e : EventfdEvent} (h : s.step e = some t) : t.semaphore = s.semaphore := by
  cases e with
  | read len => cases h; rfl
  | write v => cases h; rfl
  | turn c =>
    rw [step] at h
    split at h
    · cases h
      unfold readTurn
      split
      · split <;> rfl
      · rfl
    · cases h

end EventfdState

open EventfdState in
/-- What was there and what was written is in the counter or was read, in the runs of `Lossless` steps and of no others. -/
theorem eventfd_conserves (s : EventfdState) :
    ((eventfd.only Lossless).Reach s → s.semaphore = false → s.initval + s.written = s.count + s.delivered) ∧
    ∀ e t, eventfd.Reach s → s.semaphore = false → eventfd.step s e = some t → (Kept s e t ↔ Lossless s e) := by
  refine ⟨fun h => ?_, fun e t _ hs h => kept_iff hs h⟩
  have hinv : s.semaphore = false → s.balance = 0 := by
    refine Machine.Reach.inv (fun s => s.semaphore = false → s.balance = 0) (fun s hs hm => ?_) (fun s e t hi hst hm => ?_) h
    · obtain ⟨initval, flags, rfl⟩ := hs
      simp [balance, create]
    · obtain ⟨hok, hst⟩ := Machine.only_step.mp hst
      have hm' : s.semaphore = false := by rw [← step_mode hst, hm]
      rw [((kept_iff hm' hst).mpr hok).1]
      exact hi hm'
  intro hm
  have := hinv hm
  rw [balance] at this
  omega

open EventfdState in
/-- A counter of 3, read into four bytes. -/
theorem eventfd_conserves_three : ∃ s, (eventfd.only Lossless).Reach s ∧ s.delivered = 3 ∧
    s.initval + s.written = s.count + s.delivered := by
  have h0 : (eventfd.only Lossless).Reach (create 3 ⟨false, false⟩) := .init ⟨3, ⟨false, false⟩, rfl⟩
  have h1 := h0.onlyStep (.read 4) trivial rfl
  have h2 := h1.onlyStep (.turn 0) (fun len hlen => by cases hlen; decide) rfl
  exact ⟨_, h2, by decide, (eventfd_conserves _).1 h2 rfl⟩

/-- A counter of 2^32 - 1 and 2 more: the reader gets 1, and 2^32 is gone. -/
theorem eventfd_loses : ∃ s, eventfd.Reach s ∧ s.semaphore = false ∧ s.initval + s.written ≠ s.count + s.delivered := by
  obtain ⟨s, hs⟩ : ∃ s, eventfd.run (.create 4294967295 ⟨false, false⟩) [.write 2, .read 4, .turn 0] = some s := ⟨_, rfl⟩
  have hlost : s.semaphore = false ∧ s.initval + s.written ≠ s.count + s.delivered := by
    cases hs
    exact ⟨rfl, by decide⟩
  exact ⟨s, Machine.Reach.run (.init ⟨_, _, rfl⟩) hs, hlost⟩

/-! ## Wakeups -/

/-- A `read` that has taken something. -/
def EventfdCall.succeeded : EventfdCall → Bool
  | returned _ result _ => result == 4
  | _ => false

/-- The calls that a `write` has woken and that have not had the processor since. -/
def EventfdState.noteWoken (s : EventfdState) (e : EventfdEvent) (woken : List Nat) : List Nat :=
  match e with
  | .read _ => woken
  | .turn c => woken.erase c
  | .write _ => woken ++ s.waitQueue.take 1

def eventfdRuns : Machine (EventfdState × List Nat) EventfdEvent := eventfd.recording [] EventfdState.noteWoken

theorem eventfd_reach_iff {s : EventfdState} : eventfd.Reach s ↔ ∃ woken, eventfdRuns.Reach (s, woken) :=
  Machine.reach_recording

namespace EventfdState

/-- The count stays below 2^32. -/
def Below (x : EventfdState × List Nat) (e : EventfdEvent) : Prop := ∀ t, x.1.step e = some t → t.count < 2 ^ 32

/-- The calls of the list are all in a state of this kind. -/
def AllAre (kind : Nat → EventfdCall) (calls : List EventfdCall) (l : List Nat) : Prop :=
  l.Nodup ∧ ∀ c ∈ l, ∃ len, calls[c]? = some (kind len)

section

variable {kind : Nat → EventfdCall} {l : List Nat} {x : EventfdCall} (h : AllAre kind calls l)
include h

theorem AllAre.not_mem (hx : calls[c]? = some x) (hne : ∀ len, x ≠ kind len) : c ∉ l := by
  intro hc
  obtain ⟨len, hlen⟩ := h.2 c hc
  exact hne len (Option.some.inj (hx.symm.trans hlen))

theorem AllAre.read (x : EventfdCall) : AllAre kind (calls ++ [x]) l := by
  refine ⟨h.1, fun c hc => ?_⟩
  obtain ⟨len, hlen⟩ := h.2 c hc
  exact ⟨len, (getElem?_append_left (List.getElem?_eq_some_iff.mp hlen).1).trans hlen⟩

theorem AllAre.set (hc : c ∉ l) (x : EventfdCall) : AllAre kind (calls.set c x) l := by
  refine ⟨h.1, fun d hd => ?_⟩
  have hne : c ≠ d := fun hcd => hc (hcd ▸ hd)
  rw [getElem?_set_ne hne]
  exact h.2 d hd

theorem AllAre.snoc (hc : c ∉ l) (hx : calls[c]? = some x) (len : Nat) : AllAre kind (calls.set c (kind len)) (l ++ [c]) := by
  refine ⟨by simpa [nodup_append] using ⟨h.1, fun d hd hdc => hc (hdc ▸ hd)⟩, fun d hd => ?_⟩
  rcases mem_append.mp hd with hd | hd
  · exact (h.set hc _).2 d hd
  · obtain rfl := mem_singleton.mp hd
    exact ⟨len, calls_set hx _⟩

end

structure Awake (s : EventfdState) (woken : List Nat) : Prop where
  small : s.count < 2 ^ 32
  queued : AllAre .waiting s.calls s.waitQueue
  ready : AllAre .ready s.calls woken
  semaphore : s.semaphore = true → s.waitQueue ≠ [] → s.count ≤ woken.length
  counter : s.semaphore = false → s.waitQueue ≠ [] → 0 < s.count → woken ≠ []
  reads : s.semaphore = true → s.initval + s.written = s.count + s.calls.countP EventfdCall.succeeded

theorem wakeup_waiting {len : Nat} (h : calls[c]? = some (.waiting len)) :
    wakeup calls c = calls.set c (.ready len) := by
  rw [wakeup, h]

/-- A call that changes its state from one that has taken nothing. -/
theorem countP_set {x y : EventfdCall} (hc : calls[c]? = some x)
    (hx : x.succeeded = false) :
    (calls.set c y).countP EventfdCall.succeeded = calls.countP EventfdCall.succeeded + if y.succeeded then 1 else 0 := by
  obtain ⟨hlt, rfl⟩ := List.getElem?_eq_some_iff.mp hc
  rw [List.countP_set hlt]
  simp [hx]

variable {woken : List Nat}

theorem Awake.read (h : Awake s woken) (len : Nat) : Awake { s with calls := s.calls ++ [.ready len] } woken := by
  refine ⟨h.small, h.queued.read _, h.ready.read _, h.semaphore, h.counter, fun hsem => ?_⟩
  rw [countP_append]
  exact h.reads hsem

theorem Awake.write (h : Awake s woken) (v : UInt32) (hsmall : (s.write v).count < 2 ^ 32) :
    Awake (s.write v) (woken ++ s.waitQueue.take 1) := by
  have hv := v.toNat_lt
  have hamount : s.amount v < 2 ^ 32 := by
    unfold amount
    split <;> omega
  have hcount : (s.write v).count = s.count + s.amount v := Nat.mod_eq_of_lt (by have := h.small; omega)
  have hreads : s.semaphore = true →
      s.initval + (s.write v).written = (s.write v).count + s.calls.countP EventfdCall.succeeded := by
    intro hsem
    rw [hcount]
    have hold := h.reads hsem
    simp only [EventfdState.write]
    omega
  cases hq : s.waitQueue with
  | nil =>
    have hq' : (s.write v).waitQueue = [] := by simp [EventfdState.write, hq]
    have hcalls : (s.write v).calls = s.calls := by simp [EventfdState.write, hq]
    refine ⟨hsmall, ?_, ?_, by simp [hq'], by simp [hq'], ?_⟩
    · rw [hq']
      exact ⟨nodup_nil, nofun⟩
    · rw [hcalls]
      simpa using h.ready
    · rw [hcalls]
      exact hreads
  | cons c rest =>
    have hqueued := h.queued
    rw [hq] at hqueued
    obtain ⟨hnot, hnd⟩ := nodup_cons.mp hqueued.1
    obtain ⟨len, hlen⟩ := hqueued.2 c mem_cons_self
    have hcalls : (s.write v).calls = s.calls.set c (.ready len) := by
      simp [EventfdState.write, hq, wakeup_waiting hlen]
    have hq' : (s.write v).waitQueue = rest := by simp [EventfdState.write, hq]
    have hrest : AllAre .waiting s.calls rest := ⟨hnd, fun d hd => hqueued.2 d (mem_cons_of_mem _ hd)⟩
    refine ⟨hsmall, ?_, ?_, fun hsem _ => ?_, fun _ _ _ => by simp, ?_⟩
    · rw [hcalls, hq']
      exact hrest.set hnot _
    · rw [hcalls]
      exact h.ready.snoc (h.ready.not_mem hlen nofun) hlen len
    · have hle := h.semaphore hsem (by simp [hq])
      rw [hcount, length_append, amount, if_pos (show s.semaphore = true from hsem)]
      simpa using hle
    · rw [hcalls, countP_set hlen rfl]
      exact hreads

theorem Awake.turn {len : Nat} (h : Awake s woken) (hc : s.calls[c]? = some (.ready len)) :
    Awake (s.readTurn c len) (woken.erase c) := by
  have hnotq := h.queued.not_mem hc nofun
  have hready : ∀ y, AllAre .ready (s.calls.set c y) (woken.erase c) := by
    have herase : AllAre .ready s.calls (woken.erase c) := ⟨h.ready.1.erase c, fun d hd => h.ready.2 d (mem_of_mem_erase hd)⟩
    exact herase.set h.ready.1.not_mem_erase
  have hmod : s.count % 2 ^ 32 = s.count := Nat.mod_eq_of_lt h.small
  unfold readTurn
  rw [hmod]
  split
  · rename_i h0
    have hreads : ∀ y : EventfdCall, y.succeeded = false → s.semaphore = true →
        s.initval + s.written = s.count + (s.calls.set c y).countP EventfdCall.succeeded := by
      intro y hy hsem
      rw [countP_set hc rfl, hy]
      exact h.reads hsem
    have hnone : ∀ {n : Nat}, s.count ≤ n := fun {n} => h0 ▸ Nat.zero_le n
    split
    · exact ⟨h.small, h.queued.set hnotq _, hready _, fun _ _ => hnone, fun _ _ hpos => absurd h0 hpos.ne', hreads _ rfl⟩
    · exact ⟨h.small, h.queued.snoc hnotq hc len, hready _, fun _ _ => hnone, fun _ _ hpos => absurd h0 hpos.ne',
        hreads _ rfl⟩
  · rename_i h0
    refine ⟨?_, h.queued.set hnotq _, hready _, ?_, ?_, ?_⟩
    · have hsmall := h.small
      simp only [taken]
      split <;> omega
    · intro hsem hne
      have hle := h.semaphore hsem hne
      have hlen : woken.length ≤ (woken.erase c).length + 1 := by
        rw [length_erase]
        split <;> omega
      simp only [taken, show s.semaphore = true from hsem, if_true]
      omega
    · intro hsem _ hpos
      simp [taken, show s.semaphore = false from hsem] at hpos
    · intro hsem
      have hreads := h.reads hsem
      simp only [taken, show s.semaphore = true from hsem, if_true]
      rw [countP_set hc rfl]
      simp only [EventfdCall.succeeded, beq_self_eq_true, if_true]
      omega

end EventfdState

open EventfdState in
/-- While the count stays below 2^32: the calls in `woken` are calls that are ready to run. In semaphore mode, if
    anybody waits then as many of them are awake as the counter has units, and no unit is taken twice. In the other
    mode, if anybody waits and there is something to take then somebody is awake. -/
theorem eventfd_no_lost_wakeup {s : EventfdState} {woken : List Nat} (h : (eventfdRuns.only Below).Reach (s, woken)) :
    (woken.Nodup ∧ ∀ c ∈ woken, ∃ len, s.calls[c]? = some (.ready len)) ∧
    (s.semaphore = true → s.waitQueue ≠ [] → s.count ≤ woken.length) ∧
    (s.semaphore = false → s.waitQueue ≠ [] → 0 < s.count → woken ≠ []) ∧
    (s.semaphore = true → s.initval + s.written = s.count + s.calls.countP EventfdCall.succeeded) := by
  have hawake : Awake s woken := by
    refine Machine.Reach.inv (M := eventfdRuns.only Below) (fun x => Awake x.1 x.2) ?_ ?_ h
    · rintro ⟨s, woken⟩ ⟨⟨initval, flags, rfl⟩, rfl⟩
      exact ⟨initval.toNat_lt, ⟨nodup_nil, nofun⟩, ⟨nodup_nil, nofun⟩, by simp [create], by simp [create], fun _ => rfl⟩
    · rintro ⟨s, woken⟩ e ⟨t, woken'⟩ ha hst
      obtain ⟨hok, hst⟩ := Machine.only_step.mp hst
      obtain ⟨hst, rfl⟩ := Machine.recording_step.mp hst
      have hsmall := hok t hst
      cases e with
      | read len =>
        cases hst
        exact ha.read len
      | write v =>
        cases hst
        exact ha.write v hsmall
      | turn c =>
        simp only [eventfd, step] at hst
        split at hst
        · rename_i len hc
          cases hst
          exact ha.turn hc
        · cases hst
  exact ⟨hawake.ready, hawake.semaphore, hawake.counter, hawake.reads⟩

open EventfdState in
/-- Two readers wait, one unit is written and the first of them is awake. -/
theorem eventfd_no_lost_wakeup_two : ∃ s woken, (eventfdRuns.only Below).Reach (s, woken) ∧ s.semaphore = true ∧
    s.waitQueue = [1] ∧ woken = [0] ∧ s.count ≤ woken.length := by
  have h0 : (eventfdRuns.only Below).Reach (create 0 ⟨false, true⟩, []) := .init ⟨⟨0, ⟨false, true⟩, rfl⟩, rfl⟩
  have h1 := h0.onlyStep (.read 4) (fun t ht => by cases ht; decide) rfl
  have h2 := h1.onlyStep (.turn 0) (fun t ht => by cases ht; decide) rfl
  have h3 := h2.onlyStep (.read 4) (fun t ht => by cases ht; decide) rfl
  have h4 := h3.onlyStep (.turn 1) (fun t ht => by cases ht; decide) rfl
  have h5 := h4.onlyStep (.write 7) (fun t ht => by cases ht; decide) rfl
  exact ⟨_, _, h5, rfl, rfl, rfl, (eventfd_no_lost_wakeup h5).2.1 rfl (by decide)⟩

end TCore.Kernel
