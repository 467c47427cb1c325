/-
  TCore.Kernel.PipeRun — a pipe shared by any number of readers and writers.

  The machine starts with a fresh pipe and one descriptor for each end. Descriptors are
  duplicated and closed, `read` and `write` are called through them and take their turns, all in
  any order. `inserted` and `removed` keep the history of the bytes: which call put or took
  them, and for a writer at which place of its buffer they were.
-/

import TCore.Lib.Lists
import TCore.Kernel.Pipe

namespace TCore.Kernel

open TCore.Lib
open List Option

/-- A call, under way or `returned`, with what it has done so far. -/
inductive PipeCall where
  | write (want already : Nat) (returned : Bool)
  | read (want : Nat) (got : List UInt8) (returned : Bool)
deriving DecidableEq

/-- The call holds a reference to the write end. -/
def PipeCall.isWriting : PipeCall → Bool
  | .write _ _ returned => !returned
  | .read _ _ _ => false

structure Inserted where
  call : Nat
  place : Nat
  byte : UInt8

structure PipeState where
  buffer : PipeRingBuffer
  writeFds : Nat
  readFds : Nat
  calls : List PipeCall
  inserted : List Inserted
  removed : List (Nat × UInt8)

namespace PipeState

/-- The strong count of the write end. -/
def writeEnds (s : PipeState) : Nat := s.writeFds + s.calls.countP PipeCall.isWriting

def allWriteEndsClosed (s : PipeState) : Bool := s.writeEnds = 0

end PipeState

inductive PipeEvent where
  /-- `dup` or `fork` copies a descriptor of the write end. -/
  | dupWrite
  | closeWrite
  | dupRead
  | closeRead
  | write (want : Nat)
  | read (want : Nat)
  /-- Call number `c` gets the processor; `mem` is the caller's buffer at that time. -/
  | turn (c : Nat) (mem : Nat → UInt8)

/-- The history of the bytes from `k` up to `k'` of call `c`. -/
def insertions (c : Nat) (mem : Nat → UInt8) (k k' : Nat) : List Inserted :=
  (List.range (k' - k)).map fun i => ⟨c, k + i, mem (k + i)⟩

def PipeState.step (s : PipeState) : PipeEvent → Option PipeState
  | .dupWrite => if 0 < s.writeFds then some { s with writeFds := s.writeFds + 1 } else none
  | .closeWrite => if 0 < s.writeFds then some { s with writeFds := s.writeFds - 1 } else none
  | .dupRead => if 0 < s.readFds then some { s with readFds := s.readFds + 1 } else none
  | .closeRead => if 0 < s.readFds then some { s with readFds := s.readFds - 1 } else none
  | .write want => if 0 < s.writeFds then some { s with calls := s.calls ++ [.write want 0 false] } else none
  | .read want => if 0 < s.readFds then some { s with calls := s.calls ++ [.read want [] false] } else none
  | .turn c mem =>
    match s.calls[c]? with
    | some (.write want already false) =>
      (writeLoop mem want (want - already + 1) s.buffer already).map fun (b, k, returned) =>
        { s with
          buffer := b
          calls := s.calls.set c (.write want k returned)
          inserted := s.inserted ++ insertions c mem already k }
    | some (.read want got false) =>
      (readLoop want s.allWriteEndsClosed (want - got.length + 1) s.buffer got).map fun (b, got', returned) =>
        { s with
          buffer := b
          calls := s.calls.set c (.read want got' returned)
          removed := s.removed ++ (got'.drop got.length).map fun byte => (c, byte) }
    | _ => none

def pipe : Machine PipeState PipeEvent where
  init s := s = ⟨.new, 1, 1, [], [], []⟩
  step := PipeState.step

/-- What the histories and the buffer say of call number `c`. -/
def PipeState.Accounts (s : PipeState) (c : Nat) : PipeCall → Prop
  | .write want k r =>
    k ≤ want ∧ (r = true → k = want) ∧ (s.inserted.filter (·.call = c)).map Inserted.place = List.range k
  | .read want got r =>
    got.length ≤ want ∧ (s.removed.filter (·.1 = c)).map Prod.snd = got ∧
      (r = true → got.length < want → s.buffer.contents = [] ∧ s.writeEnds = 0)

structure PipeInv (s : PipeState) : Prop where
  order : s.removed.map Prod.snd ++ s.buffer.contents = s.inserted.map Inserted.byte
  puts : ∀ e ∈ s.inserted, e.call < s.calls.length
  takes : ∀ e ∈ s.removed, e.1 < s.calls.length
  calls : ∀ c call, s.calls[c]? = some call → s.Accounts c call

section
variable {s t s' : PipeState} {c : Nat}

/-! ## The histories -/

theorem insertions_byte (c : Nat) (mem : Nat → UInt8) (k k' : Nat) :
    (insertions c mem k k').map Inserted.byte = bytesFrom mem k k' := by
  rw [insertions, List.map_map, bytesFrom]
  rfl

theorem insertions_call {mem : Nat → UInt8} {k k' : Nat} {e : Inserted} (he : e ∈ insertions c mem k k') :
    e.call = c := by
  obtain ⟨i, -, rfl⟩ := mem_map.mp he
  rfl

/-- The places a call has put bytes from, one turn later. -/
theorem places_insertions (l : List Inserted) (c : Nat) (mem : Nat → UInt8) {k k' : Nat} (h : k ≤ k')
    (hl : (l.filter (·.call = c)).map Inserted.place = range k) :
    ((l ++ insertions c mem k k').filter (·.call = c)).map Inserted.place = List.range k' := by
  have hall : (insertions c mem k k').filter (·.call = c) = insertions c mem k k' :=
    filter_eq_self.mpr fun e he => decide_eq_true (insertions_call he)
  rw [filter_append, map_append, hl, hall, insertions, List.map_map, ← Nat.add_sub_cancel' h, range_add,
    Nat.add_sub_cancel_left]
  rfl

/-- A step that adds nothing to the histories of a call and leaves a pipe that is empty for good so. -/
theorem PipeState.Accounts.keep {call : PipeCall} (h : s.Accounts c call)
    (hputs : t.inserted.filter (·.call = c) = s.inserted.filter (·.call = c))
    (htakes : t.removed.filter (·.1 = c) = s.removed.filter (·.1 = c))
    (hempty : s.buffer.contents = [] → s.writeEnds = 0 → t.buffer.contents = [] ∧ t.writeEnds = 0) :
    t.Accounts c call := by
  cases call with
  | write want k r =>
    obtain ⟨h1, h2, h3⟩ := h
    exact ⟨h1, h2, by rw [hputs, h3]⟩
  | read want got r =>
    obtain ⟨h1, h2, h3⟩ := h
    refine ⟨h1, by rw [htakes, h2], fun hr hlt => ?_⟩
    obtain ⟨h4, h5⟩ := h3 hr hlt
    exact hempty h4 h5

/-! ## The write end -/

theorem writeEnds_eq_zero : s.writeEnds = 0 ↔ s.writeFds = 0 ∧ ∀ c ∈ s.calls, c.isWriting = false := by
  rw [PipeState.writeEnds, Nat.add_eq_zero_iff, countP_eq_zero]
  simp

/-- Calls that do not write leave a closed write end closed. -/
theorem writeEnds_of_calls (h : s.writeEnds = 0) (hf : t.writeFds = s.writeFds)
    (hc : ∀ x ∈ t.calls, x ∈ s.calls ∨ x.isWriting = false) : t.writeEnds = 0 := by
  rw [writeEnds_eq_zero] at h ⊢
  refine ⟨hf.trans h.1, fun x hx => ?_⟩
  exact (hc x hx).elim (h.2 x) id

/-! ## The invariant -/

section

variable (h : PipeInv s)
include h

theorem PipeInv.ends {writeFds : Nat} (readFds : Nat) (hw : s.writeFds = 0 → writeFds = 0) :
    PipeInv { s with writeFds := writeFds, readFds := readFds } := by
  refine ⟨h.order, h.puts, h.takes, fun c call hc => (h.calls c call hc).keep rfl rfl fun hempty hclosed => ⟨hempty, ?_⟩⟩
  rw [writeEnds_eq_zero] at hclosed ⊢
  exact ⟨hw hclosed.1, hclosed.2⟩

theorem PipeInv.start {call : PipeCall} {want : Nat}
    (hcall : call = .write want 0 false ∧ 0 < s.writeFds ∨ call = .read want [] false) :
    PipeInv { s with calls := s.calls ++ [call] } := by
  have hlen : s.calls.length ≤ (s.calls ++ [call]).length := by simp
  refine ⟨h.order, fun e he => (h.puts e he).trans_le hlen, fun e he => (h.takes e he).trans_le hlen, fun c x hx => ?_⟩
  rcases getElem?_snoc_cases hx with ⟨rfl, rfl⟩ | ⟨-, hx⟩
  · rcases hcall with ⟨rfl, -⟩ | rfl
    · refine ⟨Nat.zero_le _, by simp, ?_⟩
      simp only
      rw [filter_fresh h.puts]
      rfl
    · refine ⟨Nat.zero_le _, ?_, by simp⟩
      simp only
      rw [filter_fresh h.takes]
      rfl
  · refine (h.calls c x hx).keep rfl rfl fun hempty hclosed => ⟨hempty, ?_⟩
    rcases hcall with ⟨-, hw⟩ | rfl
    · have := (writeEnds_eq_zero.mp hclosed).1
      omega
    · refine writeEnds_of_calls hclosed rfl fun x hx => (mem_append.mp hx).imp id fun hx => ?_
      rw [mem_singleton.mp hx]
      rfl

/-- A turn of a `write`: the bytes from `k` up to `k'` go in. -/
theorem PipeInv.put {want k k' : Nat} {r : Bool} {mem : Nat → UInt8} {b : PipeRingBuffer}
    (hc : s.calls[c]? = some (.write want k false)) (hk : k ≤ k') (hle : k' ≤ want)
    (hb : b.contents = s.buffer.contents ++ bytesFrom mem k k') (hr : r = true → k' = want) :
    PipeInv { s with
      buffer := b, calls := s.calls.set c (.write want k' r), inserted := s.inserted ++ insertions c mem k k' } := by
  have hcl : c < s.calls.length := (List.getElem?_eq_some_iff.mp hc).1
  refine ⟨?_, fun e he => ?_, fun e he => ?_, fun c' call hc' => ?_⟩
  · simp only
    rw [hb, map_append, insertions_byte, ← append_assoc, h.order]
  · rw [length_set]
    rcases mem_append.mp he with he | he
    · exact h.puts e he
    · rw [insertions_call he]
      exact hcl
  · rw [length_set]
    exact h.takes e he
  · rcases getElem?_set_cases hc' with ⟨rfl, rfl⟩ | ⟨hne, hc'⟩
    · exact ⟨hle, hr, places_insertions _ _ _ hk (h.calls _ _ hc).2.2⟩
    · refine (h.calls c' call hc').keep (filter_other _ _ Inserted.call (fun e he => insertions_call he) hne) rfl ?_
      intro _ hclosed
      -- a call that writes holds the write end open
      have := (writeEnds_eq_zero.mp hclosed).2 _ (mem_of_getElem? hc)
      cases this

/-- A turn of a `read`: `bytes` come out. -/
theorem PipeInv.take {want : Nat} {got bytes : List UInt8} {r : Bool} {b : PipeRingBuffer}
    (hc : s.calls[c]? = some (.read want got false)) (hb : s.buffer.contents = bytes ++ b.contents)
    (hle : (got ++ bytes).length ≤ want)
    (hr : r = true → (got ++ bytes).length = want ∨ b.contents = [] ∧ s.writeEnds = 0) :
    PipeInv { s with
      buffer := b, calls := s.calls.set c (.read want (got ++ bytes) r),
      removed := s.removed ++ bytes.map fun byte => (c, byte) } := by
  have hcl : c < s.calls.length := (List.getElem?_eq_some_iff.mp hc).1
  have hcall : ∀ e ∈ bytes.map fun byte => (c, byte), Prod.fst e = c := by
    intro e he
    obtain ⟨byte, -, rfl⟩ := mem_map.mp he
    rfl
  have hbytes : (bytes.map fun byte => (c, byte)).map Prod.snd = bytes := by
    rw [List.map_map]
    exact map_id' bytes
  have hclosed : s.writeEnds = 0 → PipeState.writeEnds { s with
      buffer := b, calls := s.calls.set c (.read want (got ++ bytes) r),
      removed := s.removed ++ bytes.map fun byte => (c, byte) } = 0 := by
    refine fun hclosed => writeEnds_of_calls hclosed rfl fun x hx => (mem_or_eq_of_mem_set hx).imp id ?_
    rintro rfl
    rfl
  refine ⟨?_, fun e he => ?_, fun e he => ?_, fun c' call hc' => ?_⟩
  · simp only
    rw [← h.order, hb, map_append, hbytes, append_assoc]
  · rw [length_set]
    exact h.puts e he
  · rw [length_set]
    rcases mem_append.mp he with he | he
    · exact h.takes e he
    · rw [hcall e he]
      exact hcl
  · rcases getElem?_set_cases hc' with ⟨rfl, rfl⟩ | ⟨hne, hc'⟩
    · refine ⟨hle, ?_, fun hr' hlt => ?_⟩
      · have hall : (bytes.map fun byte => (c', byte)).filter (fun e => e.1 = c') = bytes.map fun byte => (c', byte) :=
          filter_eq_self.mpr fun e he => decide_eq_true (hcall e he)
        simp only
        rw [filter_append, map_append, (h.calls _ _ hc).2.1, hall, hbytes]
      · rcases hr hr' with hfull | ⟨hempty, hends⟩
        · omega
        · exact ⟨hempty, hclosed hends⟩
    · refine (h.calls c' call hc').keep rfl (filter_other _ _ Prod.fst hcall hne) fun hempty hends => ?_
      rw [hempty] at hb
      exact ⟨(append_eq_nil_iff.mp hb.symm).2, hclosed hends⟩

theorem pipeInv_step {e : PipeEvent} (hs : s.step e = some s') : PipeInv s' := by
  cases e with
  | dupWrite =>
    obtain ⟨h0, ⟨⟩⟩ := ite_none_right_eq_some.mp hs
    exact h.ends _ fun e => by omega
  | closeWrite =>
    obtain ⟨h0, ⟨⟩⟩ := ite_none_right_eq_some.mp hs
    exact h.ends _ fun e => by omega
  | dupRead =>
    obtain ⟨-, ⟨⟩⟩ := ite_none_right_eq_some.mp hs
    exact h.ends _ id
  | closeRead =>
    obtain ⟨-, ⟨⟩⟩ := ite_none_right_eq_some.mp hs
    exact h.ends _ id
  | write want =>
    obtain ⟨h0, ⟨⟩⟩ := ite_none_right_eq_some.mp hs
    exact h.start (Or.inl ⟨rfl, h0⟩)
  | read want =>
    obtain ⟨-, ⟨⟩⟩ := ite_none_right_eq_some.mp hs
    exact h.start (Or.inr rfl)
  | turn c mem =>
    rw [PipeState.step] at hs
    split at hs
    · rename_i want k hc
      obtain ⟨b, k', r, hrun, h1, h2, h3, h4⟩ := writeLoop_spec mem (want - k + 1) s.buffer (h.calls c _ hc).1
        (Nat.lt_succ_self _)
      rw [hrun] at hs
      cases hs
      exact h.put hc h1 h2 h3 h4
    · rename_i want got hc
      obtain ⟨b, bytes, r, hrun, h1, h2, h3⟩ := readLoop_spec s.allWriteEndsClosed (want - got.length + 1) s.buffer
        (h.calls c _ hc).1 (Nat.lt_succ_self _)
      simp only [hrun, map_some, drop_left, some.injEq] at hs
      subst hs
      exact h.take hc h1 h2 fun hr => (h3 hr).imp id fun ⟨hempty, hclosed⟩ => ⟨hempty, of_decide_eq_true hclosed⟩
    · cases hs

end

theorem pipeInv_reach (h : pipe.Reach s) : PipeInv s := by
  refine Machine.Reach.inv PipeInv (fun s hs => ?_) (fun s e s' hi hs => pipeInv_step hi hs) h
  cases hs
  exact ⟨rfl, by simp, by simp, by simp⟩

/-- The bytes taken and the bytes left are the bytes put in, in their order. A `write` returns with its whole buffer written,
and a `read` with less than it wants only when the pipe is empty for good. -/
theorem pipe_delivers (h : pipe.Reach s) :
    s.removed.map Prod.snd ++ s.buffer.contents = s.inserted.map Inserted.byte ∧
    s.buffer.contents.length ≤ 32 ∧ s.buffer.availableRead = s.buffer.contents.length ∧
    s.buffer.availableRead + s.buffer.availableWrite = 32 ∧
    (∀ c want k r, s.calls[c]? = some (.write want k r) →
      (s.inserted.filter (·.call = c)).map Inserted.place = List.range k ∧ (r = true → k = want)) ∧
    ∀ c want got r, s.calls[c]? = some (.read want got r) →
      (s.removed.filter (·.1 = c)).map Prod.snd = got ∧ got.length ≤ want ∧
        (r = true → got.length < want → s.buffer.contents = [] ∧ s.writeEnds = 0) := by
  have hi := pipeInv_reach h
  have hsum := s.buffer.available_sum
  refine ⟨hi.order, ?_, s.buffer.contents_length.symm, hsum, fun c want k r hc => ?_, fun c want got r hc => ?_⟩
  · rw [PipeRingBuffer.contents_length]
    omega
  · obtain ⟨-, h2, h3⟩ := hi.calls c _ hc
    exact ⟨h3, h2⟩
  · obtain ⟨h1, h2, h3⟩ := hi.calls c _ hc
    exact ⟨h2, h1, h3⟩

/-- More bytes than the ring holds: the writer waits for a first reader, and a second one gets what is left. -/
theorem pipe_delivers_forty : ∃ s, pipe.Reach s ∧
    s.calls = [.write 40 40 true, .read 10 ((List.range 10).map UInt8.ofNat) true,
      .read 40 ((List.range' 10 30).map UInt8.ofNat) true] ∧
    (s.inserted.filter (·.call = 0)).map Inserted.place = List.range 40 ∧ s.buffer.contents = [] ∧ s.writeEnds = 0 := by
  let es : List PipeEvent := [.dupWrite, .write 40, .turn 0 UInt8.ofNat, .read 10, .closeWrite, .turn 1 fun _ => 0,
    .turn 0 UInt8.ofNat, .closeWrite, .read 40, .turn 2 fun _ => 0]
  have hcalls : (pipe.run ⟨.new, 1, 1, [], [], []⟩ es).map PipeState.calls = some [.write 40 40 true,
      .read 10 ((List.range 10).map UInt8.ofNat) true, .read 40 ((List.range' 10 30).map UInt8.ofNat) true] := by
    decide +kernel
  obtain ⟨s, hs, hcalls⟩ := map_eq_some_iff.mp hcalls
  have hreach : pipe.Reach s := Machine.Reach.run (.init rfl) hs
  obtain ⟨-, -, -, -, hwrites, hreads⟩ := pipe_delivers hreach
  rw [hcalls] at hwrites hreads
  exact ⟨s, hreach, hcalls, (hwrites 0 40 40 true rfl).1, (hreads 2 40 _ true rfl).2.2 rfl (by decide)⟩

end

end TCore.Kernel
