/-
  TCore.Kernel.Pipe — pipes (fs/pipe.rs).

  The ring buffer has 32 places; head and tail meet when it is empty and when it is full, and the
  status says which. `read` and `write` work in turns: a call that finds nothing to read, or no
  room, gives up the processor and starts its loop again when it gets it back. Between two
  schedule points nothing else runs, so a turn is one step.

  A call's buffer lies in user memory, which other threads may change between two turns: a turn
  of a writer has the bytes as they are then. The strong references to the write end are the
  descriptors and one more for every `write` under way.

  - `PipeRingBuffer.contents_writeByte`, `contents_readByte`: the ring buffer is a queue.
-/

import TCore.Lib.Arr
import TCore.Lib.Ring
import TCore.Lib.Machine

namespace TCore.Kernel

open TCore.Lib
open List

inductive RingBufferStatus where
  | full
  | empty
  | normal
  deriving DecidableEq

structure PipeRingBuffer where
  arr : Arr UInt8 32
  head : Nat
  tail : Nat
  status : RingBufferStatus
  head_lt : head < 32
  tail_lt : tail < 32
  apart : status = .normal ↔ head ≠ tail

namespace PipeRingBuffer

def new : PipeRingBuffer := ⟨Arr.replicate 0, 0, 0, .empty, by decide, by decide, by decide⟩

def writeByte (b : PipeRingBuffer) (byte : UInt8) : PipeRingBuffer where
  arr := b.arr.set b.tail byte
  head := b.head
  tail := (b.tail + 1) % 32
  status := if (b.tail + 1) % 32 = b.head then .full else .normal
  head_lt := b.head_lt
  tail_lt := Nat.mod_lt _ (by decide)
  apart := by split <;> simp_all [eq_comm]

def readByte (b : PipeRingBuffer) : UInt8 × PipeRingBuffer :=
  (b.arr.get b.head,
    { arr := b.arr
      head := (b.head + 1) % 32
      tail := b.tail
      status := if (b.head + 1) % 32 = b.tail then .empty else .normal
      head_lt := Nat.mod_lt _ (by decide)
      tail_lt := b.tail_lt
      apart := by split <;> simp_all })

def availableRead (b : PipeRingBuffer) : Nat :=
  if b.status = .empty then 0 else if b.tail > b.head then b.tail - b.head else b.tail + 32 - b.head

def availableWrite (b : PipeRingBuffer) : Nat := if b.status = .full then 0 else 32 - b.availableRead

/-! ## The queue -/

/-- The bytes in the buffer, the oldest first. -/
def contents (b : PipeRingBuffer) : List UInt8 := window b.arr.get 32 b.head b.availableRead

@[simp] theorem contents_length (b : PipeRingBuffer) : b.contents.length = b.availableRead := window_length _ _ _ _

@[simp] theorem contents_new : new.contents = [] := rfl

section

variable (b : PipeRingBuffer)
include b

theorem status_cases :
    b.status = .empty ∧ b.head = b.tail ∨ b.status = .full ∧ b.head = b.tail ∨ b.status = .normal ∧ b.head ≠ b.tail := by
  have h := b.apart
  rcases hs : b.status with _ | _ | _
  · rw [hs] at h
    exact Or.inr (Or.inl ⟨rfl, by_contra fun hne => by cases h.mpr hne⟩)
  · rw [hs] at h
    exact Or.inl ⟨rfl, by_contra fun hne => by cases h.mpr hne⟩
  · exact Or.inr (Or.inr ⟨rfl, h.mp hs⟩)

theorem availableRead_spec :
    b.availableRead ≤ 32 ∧ b.tail = (b.head + b.availableRead) % 32 ∧ (b.availableRead = 0 ↔ b.status = .empty) ∧
      (b.availableRead = 32 ↔ b.status = .full) := by
  have hh := b.head_lt
  have ht := b.tail_lt
  rcases b.status_cases with ⟨hs, e⟩ | ⟨hs, e⟩ | ⟨hs, hne⟩
  · rw [availableRead, if_pos hs, hs]
    exact ⟨by omega, by omega, by simp, by simp⟩
  · rw [availableRead, if_neg (by simp [hs]), if_neg (by omega), hs]
    exact ⟨by omega, by omega, by simp; omega, by simp; omega⟩
  · rw [availableRead, if_neg (by simp [hs]), hs]
    split
    · exact ⟨by omega, by omega, by simp; omega, by simp; omega⟩
    · exact ⟨by omega, by omega, by simp; omega, by simp; omega⟩

/-- The places and the status say how many bytes there are. -/
theorem availableRead_eq {len : Nat} (hlen : len ≤ 32) (htail : b.tail = (b.head + len) % 32)
    (hempty : b.status = .empty ↔ len = 0) : b.availableRead = len := by
  obtain ⟨hle, ht, he, -⟩ := b.availableRead_spec
  rw [hempty] at he
  omega

theorem available_sum : b.availableRead + b.availableWrite = 32 := by
  obtain ⟨hle, -, -, hfull⟩ := b.availableRead_spec
  rw [availableWrite]
  split
  · have := hfull.mpr ‹_›
    omega
  · omega

theorem contents_writeByte (byte : UInt8) (h : 0 < b.availableWrite) :
    (b.writeByte byte).contents = b.contents ++ [byte] := by
  have hsum := b.available_sum
  obtain ⟨-, htail, -, -⟩ := b.availableRead_spec
  have htl := b.tail_lt
  have hlen : (b.writeByte byte).availableRead = b.availableRead + 1 := by
    refine availableRead_eq _ (by omega) ?_ ?_
    · show (b.tail + 1) % 32 = (b.head + (b.availableRead + 1)) % 32
      omega
    · simp only [writeByte]
      split <;> simp
  rw [contents, hlen]
  show window (b.arr.set b.tail byte).get 32 b.head (b.availableRead + 1) = _
  rw [window_write (by omega) fun i hi => Arr.get_set_ne _ _ (by rw [htail]; exact hi), ← htail,
    Arr.get_set_same _ _ htl, contents]

theorem contents_readByte (h : 0 < b.availableRead) :
    b.contents = b.readByte.1 :: b.readByte.2.contents := by
  obtain ⟨hle, htail, hempty, -⟩ := b.availableRead_spec
  have hhead := b.head_lt
  have htl := b.tail_lt
  have hlen : b.readByte.2.availableRead = b.availableRead - 1 := by
    refine availableRead_eq _ (by omega) ?_ ?_
    · show b.tail = ((b.head + 1) % 32 + (b.availableRead - 1)) % 32
      omega
    · simp only [readByte]
      split
      · simp only [true_iff]
        omega
      · simp only [reduceCtorEq, false_iff]
        omega
  have hlen : b.availableRead = b.readByte.2.availableRead + 1 := by omega
  rw [contents, hlen, window_cons, Nat.mod_eq_of_lt hhead]
  rfl

end

end PipeRingBuffer

/-! ## The loops of `write` and `read` -/

/-- `for _ in 0..n` of `write`, with `already` bytes written and `mem` the caller's buffer of `want`
    bytes; answers the bytes written so far and whether the call returns. -/
def writeChunk (mem : Nat → UInt8) (want : Nat) : Nat → PipeRingBuffer → Nat → PipeRingBuffer × Nat × Bool
  | 0, b, already => (b, already, false)
  | n + 1, b, already =>
    if already < want then
      if already + 1 = want then (b.writeByte (mem already), already + 1, true)
      else writeChunk mem want n (b.writeByte (mem already)) (already + 1)
    else (b, already, true)

/-- The loop of `write` up to its next schedule point; `fuel` bounds its turns. -/
def writeLoop (mem : Nat → UInt8) (want : Nat) : Nat → PipeRingBuffer → Nat → Option (PipeRingBuffer × Nat × Bool)
  | 0, _, _ => none
  | fuel + 1, b, already =>
    if b.availableWrite = 0 then some (b, already, false)
    else
      match writeChunk mem want b.availableWrite b already with
      | (b, already, true) => some (b, already, true)
      | (b, already, false) => writeLoop mem want fuel b already

/-- `for _ in 0..n` of `read`, with the bytes `got` read so far. -/
def readChunk (want : Nat) : Nat → PipeRingBuffer → List UInt8 → PipeRingBuffer × List UInt8 × Bool
  | 0, b, got => (b, got, false)
  | n + 1, b, got =>
    if got.length < want then
      if got.length + 1 = want then (b.readByte.2, got ++ [b.readByte.1], true)
      else readChunk want n b.readByte.2 (got ++ [b.readByte.1])
    else (b, got, true)

/-- The loop of `read` up to its next schedule point; `closed` is `all_write_ends_closed`. -/
def readLoop (want : Nat) (closed : Bool) : Nat → PipeRingBuffer → List UInt8 → Option (PipeRingBuffer × List UInt8 × Bool)
  | 0, _, _ => none
  | fuel + 1, b, got =>
    if b.availableRead = 0 then some (b, got, closed)
    else
      match readChunk want b.availableRead b got with
      | (b, got, true) => some (b, got, true)
      | (b, got, false) => readLoop want closed fuel b got

/-- The bytes from `k` up to `k'` of a buffer in memory. -/
def bytesFrom (mem : Nat → UInt8) (k k' : Nat) : List UInt8 := (List.range (k' - k)).map fun i => mem (k + i)

theorem bytesFrom_self (mem : Nat → UInt8) (k : Nat) : bytesFrom mem k k = [] := by
  rw [bytesFrom, Nat.sub_self]
  rfl

theorem bytesFrom_cons (mem : Nat → UInt8) {k k' : Nat} (h : k < k') : bytesFrom mem k k' = mem k :: bytesFrom mem (k + 1) k' := by
  rw [bytesFrom, show k' - k = k' - (k + 1) + 1 by omega, range_succ_eq_map, map_cons, map_map, bytesFrom]
  refine congrArg _ (map_congr_left fun i _ => ?_)
  show mem (k + (i + 1)) = mem (k + 1 + i)
  congr 1
  omega

theorem bytesFrom_append (mem : Nat → UInt8) {k k' k'' : Nat} (h : k ≤ k') (h' : k' ≤ k'') :
    bytesFrom mem k k' ++ bytesFrom mem k' k'' = bytesFrom mem k k'' := by
  rw [bytesFrom, bytesFrom, bytesFrom, show k'' - k = (k' - k) + (k'' - k') by omega, range_add, map_append,
    map_map]
  refine congrArg _ (map_congr_left fun i _ => ?_)
  show mem (k' + i) = mem (k + (k' - k + i))
  congr 1
  omega

variable {want : Nat}

theorem writeChunk_spec (mem : Nat → UInt8) (n : Nat) {b : PipeRingBuffer} {k : Nat} (hn : n ≤ b.availableWrite)
    (hk : k ≤ want) :
    ∃ b' k' r, writeChunk mem want n b k = (b', k', r) ∧ k ≤ k' ∧ k' ≤ want ∧
      b'.contents = b.contents ++ bytesFrom mem k k' ∧ (r = true → k' = want) ∧ (r = false → k' = k + n) := by
  induction n generalizing b k with
  | zero => exact ⟨b, k, false, rfl, le_refl k, hk, by rw [bytesFrom_self, append_nil], by simp, fun _ => rfl⟩
  | succ n ih =>
    rw [writeChunk]
    by_cases hlt : k < want
    · have hcon := b.contents_writeByte (mem k) (by omega)
      rw [if_pos hlt]
      by_cases hlast : k + 1 = want
      · rw [if_pos hlast]
        refine ⟨_, _, _, rfl, by omega, by omega, ?_, fun _ => hlast, by simp⟩
        rw [hcon, bytesFrom_cons mem (by omega), bytesFrom_self]
      · rw [if_neg hlast]
        have hroom : n ≤ (b.writeByte (mem k)).availableWrite := by
          have h1 := (b.writeByte (mem k)).available_sum
          have h2 := b.available_sum
          have h3 := congrArg List.length hcon
          simp only [PipeRingBuffer.contents_length, length_append, length_singleton] at h3
          omega
        obtain ⟨b', k', r, hrun, h1, h2, h3, h4, h5⟩ := ih hroom hlt
        refine ⟨b', k', r, hrun, by omega, h2, ?_, h4, fun hr => by have := h5 hr; omega⟩
        rw [h3, hcon, append_assoc, bytesFrom_cons mem (k := k) (by omega)]
        rfl
    · rw [if_neg hlt]
      exact ⟨b, k, true, rfl, le_refl k, hk, by rw [bytesFrom_self, append_nil], fun _ => by omega, by simp⟩

/-- A turn of `write`: the next bytes of the buffer go to the end of the queue, in order. -/
theorem writeLoop_spec (mem : Nat → UInt8) (fuel : Nat) (b : PipeRingBuffer) {k : Nat} (hk : k ≤ want)
    (hfuel : want - k < fuel) :
    ∃ b' k' r, writeLoop mem want fuel b k = some (b', k', r) ∧ k ≤ k' ∧ k' ≤ want ∧
      b'.contents = b.contents ++ bytesFrom mem k k' ∧ (r = true → k' = want) := by
  induction fuel generalizing b k with
  | zero => omega
  | succ fuel ih =>
    rw [writeLoop]
    by_cases hfull : b.availableWrite = 0
    · rw [if_pos hfull]
      exact ⟨b, k, false, rfl, le_refl k, hk, by rw [bytesFrom_self, append_nil], by simp⟩
    · rw [if_neg hfull]
      obtain ⟨b1, k1, r, hrun, h1, h2, h3, h4, h5⟩ := writeChunk_spec mem b.availableWrite (le_refl _) hk
      rw [hrun]
      cases r with
      | true => exact ⟨b1, k1, true, rfl, h1, h2, h3, h4⟩
      | false =>
        have := h5 rfl
        obtain ⟨b2, k2, r, hrun', h1', h2', h3', h4'⟩ := ih b1 h2 (by omega)
        refine ⟨b2, k2, r, hrun', by omega, h2', ?_, h4'⟩
        rw [h3', h3, append_assoc, bytesFrom_append mem h1 h1']

theorem readChunk_spec (n : Nat) {b : PipeRingBuffer} {got : List UInt8} (hn : n ≤ b.availableRead)
    (hg : got.length ≤ want) :
    ∃ b' bytes r, readChunk want n b got = (b', got ++ bytes, r) ∧ b.contents = bytes ++ b'.contents ∧
      (got ++ bytes).length ≤ want ∧ (r = true → (got ++ bytes).length = want) ∧ (r = false → bytes.length = n) := by
  induction n generalizing b got with
  | zero => exact ⟨b, [], false, by rw [append_nil]; rfl, rfl, by simpa using hg, by simp, fun _ => rfl⟩
  | succ n ih =>
    rw [readChunk]
    by_cases hlt : got.length < want
    · have hcon := b.contents_readByte (by omega)
      rw [if_pos hlt]
      by_cases hlast : got.length + 1 = want
      · rw [if_pos hlast]
        refine ⟨_, [b.readByte.1], _, rfl, hcon, ?_, fun _ => ?_, by simp⟩
        · rw [length_append, length_singleton, hlast]
        · rw [length_append, length_singleton, hlast]
      · rw [if_neg hlast]
        have hlen := congrArg List.length hcon
        rw [PipeRingBuffer.contents_length, length_cons, PipeRingBuffer.contents_length] at hlen
        have hlt' : (got ++ [b.readByte.1]).length ≤ want := by
          rw [length_append, length_singleton]
          omega
        obtain ⟨b', bytes, r, hrun, h1, h2, h3, h4⟩ := ih (b := b.readByte.2) (by omega) hlt'
        rw [append_assoc, singleton_append] at hrun h2 h3
        refine ⟨b', b.readByte.1 :: bytes, r, hrun, by rw [hcon, h1, cons_append], h2, h3, fun hr => ?_⟩
        rw [length_cons, h4 hr]
    · rw [if_neg hlt]
      refine ⟨b, [], true, by rw [append_nil], rfl, by simpa using hg, fun _ => ?_, by simp⟩
      rw [append_nil]
      omega

/-- A turn of `read`: bytes from the front of the queue, in order. It returns with the whole buffer
    filled, or with the queue empty and the write end gone. -/
theorem readLoop_spec (closed : Bool) (fuel : Nat) (b : PipeRingBuffer) {got : List UInt8}
    (hg : got.length ≤ want) (hfuel : want - got.length < fuel) :
    ∃ b' bytes r, readLoop want closed fuel b got = some (b', got ++ bytes, r) ∧ b.contents = bytes ++ b'.contents ∧
      (got ++ bytes).length ≤ want ∧ (r = true → (got ++ bytes).length = want ∨ b'.contents = [] ∧ closed = true) := by
  induction fuel generalizing b got with
  | zero => omega
  | succ fuel ih =>
    rw [readLoop]
    by_cases hempty : b.availableRead = 0
    · rw [if_pos hempty]
      refine ⟨b, [], closed, by rw [append_nil], rfl, by simpa using hg, fun hr => Or.inr ⟨?_, hr⟩⟩
      exact eq_nil_of_length_eq_zero (by rw [PipeRingBuffer.contents_length, hempty])
    · rw [if_neg hempty]
      obtain ⟨b1, bytes, r, hrun, h1, h2, h3, h4⟩ := readChunk_spec b.availableRead (le_refl _) hg
      rw [hrun]
      cases r with
      | true => exact ⟨b1, bytes, true, rfl, h1, h2, fun hr => Or.inl (h3 hr)⟩
      | false =>
        have hprog := h4 rfl
        have hlen : (got ++ bytes).length = got.length + bytes.length := length_append
        obtain ⟨b2, more, r, hrun', h1', h2', h3'⟩ := ih b1 h2 (by omega)
        rw [append_assoc] at hrun' h2' h3'
        exact ⟨b2, bytes ++ more, r, hrun', by rw [h1, h1', append_assoc], h2', h3'⟩

end TCore.Kernel
