/-
  TCore.Kernel.Uart — reading from the console (drivers/chardev/ns16550a.rs).

  A `read` takes the first byte of the read buffer, or waits on the condition variable and tries
  again when it gets the processor back. The interrupt handler puts all bytes of the device's
  FIFO into the buffer and then signals the condition variable once, however many they were: with
  two bytes and two readers waiting, the second reader sleeps on beside a byte it could have
  (`reader_sleeps_on_input`).

  The cell of the buffer masks interrupts from the look into the buffer to the entry into the wait
  queue, so a turn of a `read` is one step, and so is the handler. `received` and `returned` keep
  the history of the bytes.
-/

import TCore.Lib.Machine

namespace TCore.Kernel

open TCore.Lib
open Function (update update_apply)
open List

inductive ReadAt where
  /-- In user mode. -/
  | user
  /-- In the wait queue of the condition variable. -/
  | waiting
  /-- Woken from there, in the ready queue. -/
  | woken
  deriving DecidableEq

structure UartState (τ : Type) where
  readBuffer : List UInt8
  waitQueue : List τ
  /-- The readers in the ready queue that a signal has put there. -/
  woken : List τ
  at_ : τ → ReadAt
  received : List UInt8
  returned : List (τ × UInt8)

inductive UartEvent (τ : Type) where
  | read (t : τ)
  /-- Reader `t` gets the processor back. -/
  | resume (t : τ)
  /-- An interrupt with these bytes in the FIFO. -/
  | irq (bytes : List UInt8)

namespace UartState

variable {τ : Type} [DecidableEq τ]

def start : UartState τ := ⟨[], [], [], fun _ => .user, [], []⟩

/-- A turn of the loop of `read`. -/
def turn (s : UartState τ) (t : τ) : UartState τ :=
  match s.readBuffer with
  | ch :: rest => { s with readBuffer := rest, at_ := update s.at_ t .user, returned := s.returned ++ [(t, ch)] }
  | [] => { s with waitQueue := s.waitQueue ++ [t], at_ := update s.at_ t .waiting }

/-- `Condvar::signal`. -/
def signal (s : UartState τ) : UartState τ :=
  match s.waitQueue with
  | w :: rest => { s with waitQueue := rest, woken := s.woken ++ [w], at_ := update s.at_ w .woken }
  | [] => s

def handleIrq (s : UartState τ) (bytes : List UInt8) : UartState τ :=
  let s := { s with readBuffer := s.readBuffer ++ bytes, received := s.received ++ bytes }
  if 0 < bytes.length then s.signal else s

def step (s : UartState τ) : UartEvent τ → Option (UartState τ)
  | .read t => if s.at_ t = .user then some (s.turn t) else none
  | .resume t => if s.at_ t = .woken then some ({ s with woken := s.woken.erase t }.turn t) else none
  | .irq bytes => some (s.handleIrq bytes)

end UartState

def uart (τ : Type) [DecidableEq τ] : Machine (UartState τ) (UartEvent τ) where
  init s := s = UartState.start
  step := UartState.step

namespace UartState

variable {τ : Type} [DecidableEq τ] {s t : UartState τ} {e : UartEvent τ}

/-- If anybody waits, as many readers are awake as there are bytes. -/
def Served (s : UartState τ) : Prop := s.waitQueue ≠ [] → s.readBuffer.length ≤ s.woken.length

/-- An interrupt that brings something leaves nobody waiting, or no more bytes than readers that are awake. -/
def Serves (s : UartState τ) : UartEvent τ → Prop
  | .irq bytes => bytes = [] ∨ s.waitQueue.length ≤ 1 ∨ s.readBuffer.length + bytes.length ≤ s.woken.length + 1
  | _ => True

/-- Who is where, and the bytes that have come. -/
structure Books (s : UartState τ) : Prop where
  bytes : s.received = s.returned.map (·.2) ++ s.readBuffer
  nodup : s.waitQueue.Nodup ∧ s.woken.Nodup
  waiting : ∀ t, s.at_ t = .waiting ↔ t ∈ s.waitQueue
  woken : ∀ t, s.at_ t = .woken ↔ t ∈ s.woken

/-- Reader `u` is nowhere but on the processor. -/
theorem Books.turn {u : τ} (hbytes : s.received = s.returned.map (·.2) ++ s.readBuffer)
    (hnodup : s.waitQueue.Nodup ∧ s.woken.Nodup) (hqueue : u ∉ s.waitQueue) (hwoken : u ∉ s.woken)
    (hat : ∀ v, v ≠ u → (s.at_ v = .waiting ↔ v ∈ s.waitQueue) ∧ (s.at_ v = .woken ↔ v ∈ s.woken)) : Books (s.turn u) := by
  unfold UartState.turn
  split
  · rename_i ch rest hb
    refine ⟨?_, hnodup, fun v => ?_, fun v => ?_⟩
    · simp [hbytes, hb]
    all_goals
      simp only [update_apply]
      by_cases hv : v = u
      · subst hv
        simp [hqueue, hwoken]
      · simp [hv, hat v hv]
  · refine ⟨hbytes, ⟨?_, hnodup.2⟩, fun v => ?_, fun v => ?_⟩
    · simpa [nodup_append] using ⟨hnodup.1, fun v hv hvu => hqueue (hvu ▸ hv)⟩
    all_goals
      simp only [update_apply]
      by_cases hv : v = u
      · subst hv
        simp [hwoken]
      · simp [hv, hat v hv]

theorem Books.signal (h : Books s) : Books s.signal := by
  obtain ⟨hbytes, ⟨hqueue, hwoken⟩, hwaiting, hawake⟩ := h
  unfold UartState.signal
  split
  · rename_i w rest hq
    rw [hq] at hqueue
    obtain ⟨hnot, hqueue⟩ := nodup_cons.mp hqueue
    have hw : w ∉ s.woken := by
      intro hmem
      have hat := (hwaiting w).mpr (by simp [hq])
      rw [(hawake w).mpr hmem] at hat
      cases hat
    refine ⟨hbytes, ⟨hqueue, ?_⟩, fun v => ?_, fun v => ?_⟩
    · simpa [nodup_append] using ⟨hwoken, fun v hv hvw => hw (hvw ▸ hv)⟩
    all_goals
      simp only [update_apply]
      by_cases hv : v = w
      · subst hv
        simp [hnot]
      · rw [if_neg hv]
        simp [hwaiting, hawake, hq, hv]
  · exact ⟨hbytes, ⟨hqueue, hwoken⟩, hwaiting, hawake⟩

theorem Books.step (h : Books s) (hs : s.step e = some t) : Books t := by
  cases e with
  | read u =>
    obtain ⟨hu, ⟨⟩⟩ := Option.ite_none_right_eq_some.mp hs
    refine .turn h.bytes h.nodup ?_ ?_ fun v _ => ⟨h.waiting v, h.woken v⟩
    · rw [← h.waiting, hu]
      simp
    · rw [← h.woken, hu]
      simp
  | resume u =>
    obtain ⟨hu, ⟨⟩⟩ := Option.ite_none_right_eq_some.mp hs
    refine .turn h.bytes ⟨h.nodup.1, h.nodup.2.erase u⟩ ?_ h.nodup.2.not_mem_erase fun v hv => ⟨h.waiting v, ?_⟩
    · rw [← h.waiting, hu]
      simp
    · rw [mem_erase_of_ne hv]
      exact h.woken v
  | irq bytes =>
    cases hs
    have h' : Books { s with readBuffer := s.readBuffer ++ bytes, received := s.received ++ bytes } :=
      ⟨by simp [h.bytes], h.nodup, h.waiting, h.woken⟩
    unfold handleIrq
    simp only
    split
    · exact h'.signal
    · exact h'

theorem books_reach (h : (uart τ).Reach s) : Books s := by
  refine h.inv Books ?_ fun s e t hb hs => hb.step hs
  rintro s rfl
  refine ⟨rfl, ⟨nodup_nil, nodup_nil⟩, ?_, ?_⟩ <;> simp [start]

/-! ## Sleeping readers -/

/-- The lengths after a turn: a byte is taken, or there was none. -/
theorem turn_lengths (s : UartState τ) (u : τ) : (s.turn u).woken = s.woken ∧
    ((s.turn u).waitQueue = s.waitQueue ∧ (s.turn u).readBuffer.length + 1 = s.readBuffer.length ∨
      (s.turn u).readBuffer = []) := by
  unfold turn
  split
  · rename_i ch rest hb
    exact ⟨rfl, .inl ⟨rfl, by simp [hb]⟩⟩
  · rename_i hb
    exact ⟨rfl, .inr hb⟩

theorem served_read (h : Served s) (u : τ) : Served (s.turn u) := by
  intro hne
  obtain ⟨hw, ⟨hq, hlen⟩ | hb⟩ := turn_lengths s u
  · have hle := h (hq ▸ hne)
    rw [hw]
    omega
  · simp [hb]

theorem served_resume (h : Served s) (u : τ) : Served ({ s with woken := s.woken.erase u }.turn u) := by
  intro hne
  obtain ⟨hw, ⟨hq, hlen⟩ | hb⟩ := turn_lengths { s with woken := s.woken.erase u } u
  · have hle := h (hq ▸ hne)
    have herase : s.woken.length ≤ (s.woken.erase u).length + 1 := by
      rw [length_erase]
      split <;> omega
    rw [hw]
    simp only at hlen ⊢
    omega
  · simp [hb]

theorem served_irq (h : Served s) (bytes : List UInt8) : Served (s.handleIrq bytes) ↔ Serves s (.irq bytes) := by
  unfold handleIrq Serves
  simp only
  split
  · rename_i hpos
    have hne : bytes ≠ [] := length_pos_iff.mp hpos
    cases hq : s.waitQueue with
    | nil => simp [Served, signal]
    | cons w rest =>
      have hrest : rest ≠ [] ↔ ¬ rest.length ≤ 0 := by
        rw [← length_pos_iff]
        omega
      simp only [Served, signal, length_append, length_cons, length_nil, hrest, hne, false_or]
      omega
  · rename_i hpos
    have hnil : bytes = [] := length_eq_zero_iff.mp (by omega)
    subst hnil
    simpa [Served] using h

theorem served_step (h : Served s) (hs : s.step e = some t) : Served t ↔ Serves s e := by
  cases e with
  | read u =>
    obtain ⟨-, ⟨⟩⟩ := Option.ite_none_right_eq_some.mp hs
    exact ⟨fun _ => trivial, fun _ => served_read h u⟩
  | resume u =>
    obtain ⟨-, ⟨⟩⟩ := Option.ite_none_right_eq_some.mp hs
    exact ⟨fun _ => trivial, fun _ => served_resume h u⟩
  | irq bytes =>
    cases hs
    exact served_irq h bytes

end UartState

open UartState in
/-- In every run the bytes are returned once each in the order of their arrival, and the readers in `woken` are awake.
    In the runs whose interrupts meet `Serves`, whenever a reader waits as many readers are awake as there are bytes in
    the buffer; a step leads out of this exactly when it does not meet `Serves`. -/
theorem uart_serves (τ : Type) [DecidableEq τ] :
    (∀ s : UartState τ, (uart τ).Reach s → s.received = s.returned.map (·.2) ++ s.readBuffer ∧ s.woken.Nodup ∧
      ∀ t, s.at_ t = .woken ↔ t ∈ s.woken) ∧
    (∀ s : UartState τ, ((uart τ).only Serves).Reach s → Served s) ∧
    ∀ (s : UartState τ) e t, Served s → s.step e = some t → (Served t ↔ Serves s e) := by
  refine ⟨fun s h => ?_, fun s h => ?_, fun s e t h hs => served_step h hs⟩
  · have hb := books_reach h
    exact ⟨hb.bytes, hb.nodup.2, hb.woken⟩
  · refine h.inv Served ?_ ?_
    · rintro s rfl
      simp [Served, start]
    · intro s e t hserved hst
      obtain ⟨hok, hst⟩ := Machine.only_step.mp hst
      exact (served_step hserved hst).mpr hok

open UartState in
/-- Three readers wait and two interrupts bring a byte each: two of them are awake. -/
theorem uart_serves_three : ∃ s : UartState Nat, ((uart Nat).only Serves).Reach s ∧ s.waitQueue = [2] ∧
    s.readBuffer = [65, 66] ∧ s.received = [65, 66] ∧ s.readBuffer.length ≤ s.woken.length := by
  have hinit : ((uart Nat).only Serves).Reach .start := .init rfl
  have hwait := ((hinit.onlyStep (.read 0) trivial rfl).onlyStep (.read 1) trivial rfl).onlyStep (.read 2) trivial rfl
  have hs := (hwait.onlyStep (.irq [65]) (Or.inr (Or.inr (by decide))) rfl).onlyStep (.irq [66])
    (Or.inr (Or.inr (by decide))) rfl
  obtain ⟨hbytes, hserved, -⟩ := uart_serves Nat
  exact ⟨_, hs, rfl, rfl, (hbytes _ hs.of_only).1, hserved _ hs (by decide)⟩

/-- Two readers wait and an interrupt brings two bytes: the first reader takes one, and the second sleeps on beside the
    other one with nobody awake. -/
theorem reader_sleeps_on_input : ∃ s : UartState Nat, (uart Nat).Reach s ∧ s.waitQueue = [1] ∧ s.readBuffer = [66] ∧
    s.woken = [] := by
  have hrun : ∃ s ∈ (uart Nat).run .start [.read 0, .read 1, .irq [65, 66], .resume 0],
      s.waitQueue = [1] ∧ s.readBuffer = [66] ∧ s.woken = [] := by decide +kernel
  have hinit : (uart Nat).Reach .start := .init rfl
  exact hinit.exists_run hrun

end TCore.Kernel
