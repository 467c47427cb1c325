/-
  TCore.Mm.UserBuffer — a user's range as slices of physical memory, and the iteration over them
  (mm/page_table.rs, `translated_byte_buffer` and `UserBuffer`).

  The items of a `UserBuffer` are places of physical memory. The iterator indexes the slice it is in, so
  an empty slice would be an index out of range.
-/

import TCore.Mm.UserPointer

namespace TCore.Mm

open PageTable
open List Option VirtAddr PageTableEntry

structure UserBuffer (α : Type) where
  buffers : List (List α)

structure UserBufferIterator (α : Type) where
  buffers : List (List α)
  currentBuffer : Nat
  currentIdx : Nat

namespace UserBuffer

variable {α : Type}

def len (u : UserBuffer α) : Nat := u.buffers.foldl (fun total b => total + b.length) 0

def intoIter (u : UserBuffer α) : UserBufferIterator α := ⟨u.buffers, 0, 0⟩

theorem len_eq (u : UserBuffer α) : u.len = u.buffers.flatten.length := by
  have hfold : ∀ (bs : List (List α)) (n : Nat), bs.foldl (fun total b => total + b.length) n = n + bs.flatten.length := by
    intro bs
    induction bs with
    | nil => exact fun n => rfl
    | cons b bs ih =>
      intro n
      rw [foldl_cons, ih, flatten_cons, length_append, Nat.add_assoc]
  rw [len, hfold, Nat.zero_add]

end UserBuffer

namespace UserBufferIterator

variable {α : Type}

/-- `none` is the panic of an index out of range. -/
def next (it : UserBufferIterator α) : Option (Option α × UserBufferIterator α) :=
  if it.buffers.length ≤ it.currentBuffer then some (none, it)
  else
    it.buffers[it.currentBuffer]?.bind fun b =>
      b[it.currentIdx]?.map fun r =>
        (some r,
          if it.currentIdx + 1 = b.length then { it with currentIdx := 0, currentBuffer := it.currentBuffer + 1 }
          else { it with currentIdx := it.currentIdx + 1 })

/-- The iterator gives these items, then `None`, and does not panic. -/
inductive Yields : UserBufferIterator α → List α → Prop where
  | done {it it' : UserBufferIterator α} (h : it.next = some (none, it')) : Yields it []
  | item {it it' : UserBufferIterator α} {x : α} {xs : List α} (h : it.next = some (some x, it')) (rest : Yields it' xs) :
      Yields it (x :: xs)

theorem next_item {pre post : List (List α)} {b : List α} {idx : Nat} (h : idx < b.length) :
    (⟨pre ++ b :: post, pre.length, idx⟩ : UserBufferIterator α).next = some (some b[idx],
      if idx + 1 = b.length then ⟨pre ++ b :: post, pre.length + 1, 0⟩ else ⟨pre ++ b :: post, pre.length, idx + 1⟩) := by
  have hlt : ¬(pre ++ b :: post).length ≤ pre.length := by simp
  rw [next, if_neg hlt, getElem?_append_right (Nat.le_refl _), Nat.sub_self, getElem?_cons_zero,
    bind_some, getElem?_eq_getElem h, map_some]

/-- The rest of the slice the iterator is in, once the slices behind it are known to be given. -/
theorem yields_slice {pre post : List (List α)} {b xs : List α}
    (hrest : Yields ⟨pre ++ b :: post, pre.length + 1, 0⟩ xs) {idx : Nat} (h : idx < b.length) :
    Yields ⟨pre ++ b :: post, pre.length, idx⟩ (b.drop idx ++ xs) := by
  obtain ⟨n, hn⟩ : ∃ n, b.length = idx + 1 + n := ⟨b.length - (idx + 1), by omega⟩
  induction n generalizing idx with
  | zero =>
    have hdrop : b.drop idx = [b[idx]] := by
      rw [drop_eq_getElem_cons h, drop_eq_nil_of_le (by omega)]
    rw [hdrop, singleton_append]
    refine .item (next_item h) ?_
    rw [if_pos (by omega)]
    exact hrest
  | succ n ih =>
    rw [drop_eq_getElem_cons h, cons_append]
    refine .item (next_item h) ?_
    rw [if_neg (by omega)]
    exact ih (by omega) (by omega)

theorem yields_from {pre post : List (List α)} (hne : ∀ b ∈ post, b ≠ []) :
    Yields ⟨pre ++ post, pre.length, 0⟩ post.flatten := by
  induction post generalizing pre with
  | nil =>
    have hdone : (⟨pre ++ [], pre.length, 0⟩ : UserBufferIterator α).next = some (none, ⟨pre ++ [], pre.length, 0⟩) := by
      rw [next, if_pos (by simp)]
    exact .done hdone
  | cons b post ih =>
    have hrest : Yields ⟨(pre ++ [b]) ++ post, (pre ++ [b]).length, 0⟩ post.flatten :=
      ih fun c hc => hne c (mem_cons_of_mem _ hc)
    rw [append_assoc, singleton_append, length_append, length_singleton] at hrest
    exact yields_slice hrest (length_pos_iff.mpr (hne b mem_cons_self))

end UserBufferIterator

/-! ## Mapped ranges -/

/-- The physical byte that the valid entries assign to a virtual address. -/
def PageTable.physical (pt : PageTable) (mem : Memory) (va : Nat) : Option Nat :=
  (pt.leaf mem (floor va)).map fun pte => pte.ppn * PAGE_SIZE + pageOffset va

variable {mem : Memory} {pt : PageTable} {fuel token ptr len start end_ next : Nat} {given : List Given}
  {slices : List (List Given)}

/-- A byte that a walk has found is the byte of its address, if the page is mapped. -/
theorem Given.Walked.physical {g : Given} (h : g.Walked pt mem) (hmapped : pt.leaf mem (floor g.va) ≠ none) :
    pt.physical mem g.va = some g.pa := by
  obtain ⟨pte, hpte, hpa⟩ := h
  obtain ⟨pte', hleaf⟩ := ne_none_iff_exists'.mp hmapped
  have heq := (leaf_eq_some.mp hleaf).1
  rw [hpte, some.injEq] at heq
  rw [PageTable.physical, hleaf, ← heq, hpa]
  rfl

/-- A range whose pages are mapped is given whole, a turn for every page. -/
theorem bufferLoop_mapped (hle : start ≤ end_) (hrange : Canonical start end_) (hfuel : end_ ≤ start + fuel)
    (hmapped : ∀ va, start ≤ va → va < end_ → pt.leaf mem (va % 2 ^ 39 / 4096) ≠ none) :
    ∃ slices, bufferLoop mem pt fuel start end_ = some slices ∧ ∀ s ∈ slices, s ≠ [] := by
  induction fuel generalizing start with
  | zero => exact ⟨[], bufferLoop_done (by omega), by simp⟩
  | succ fuel ih =>
    by_cases hlt : start < end_
    · have hsome : (bufferTurn mem pt start end_).isSome := by
        obtain ⟨pte, hleaf⟩ := ne_none_iff_exists'.mp (hmapped start (Nat.le_refl _) hlt)
        rw [bufferTurn_isSome_iff, (leaf_eq_some.mp hleaf).1]
        exact ⟨rfl, .inl ((hrange.turnEnd hlt).1.le.trans (Nat.min_le_right _ _))⟩
      obtain ⟨⟨slice, next⟩, hturn⟩ := isSome_iff_exists.mp hsome
      obtain ⟨stop, hstop, hstop', hslice, hnext⟩ := bufferTurn_range hlt hrange hturn
      have hne : slice ≠ [] := by
        rintro rfl
        have hlen := congrArg length hslice
        rw [map_nil, length_nil, length_range'] at hlen
        omega
      obtain ⟨rest, hrest, hall⟩ : ∃ rest, bufferLoop mem pt fuel next end_ = some rest ∧ ∀ s ∈ rest, s ≠ [] := by
        rcases hnext with rfl | ⟨-, hdone⟩
        · exact ih hstop' (hrange.mono hstop.le) (by omega) fun va hva => hmapped va (by omega)
        · exact ⟨[], bufferLoop_done hdone, by simp⟩
      refine ⟨slice :: rest, ?_, ?_⟩
      · rw [bufferLoop, if_pos hlt, hturn, bind_some]
        dsimp only
        rw [hrest, map_some]
      · intro s hs
        rcases mem_cons.mp hs with rfl | hs
        · exact hne
        · exact hall s hs
    · exact ⟨[], bufferLoop_done (by omega), by simp⟩

theorem bufferLoop_mono {fuel' : Nat} (hfuel : fuel ≤ fuel') (h : bufferLoop mem pt fuel start end_ = some slices) :
    bufferLoop mem pt fuel' start end_ = some slices := by
  induction fuel generalizing fuel' start slices with
  | zero =>
    obtain ⟨hnot, heq⟩ := ite_none_left_eq_some.mp h
    cases heq
    exact bufferLoop_done (not_lt.mp hnot)
  | succ fuel ih =>
    obtain ⟨n, rfl⟩ : ∃ n, fuel' = n + 1 := ⟨fuel' - 1, by omega⟩
    rw [bufferLoop] at h ⊢
    split at h
    · rename_i hlt
      obtain ⟨⟨slice, next⟩, hturn, hloop⟩ := bind_eq_some_iff.mp h
      obtain ⟨rest, hrest, rfl⟩ := map_eq_some_iff.mp hloop
      rw [if_pos hlt, hturn, bind_some]
      dsimp only
      rw [ih (by omega) hrest, map_some]
    · rename_i hnot
      rw [if_neg hnot]
      exact h

/-- Root table 16, with the pages 1 and 2 mapped to the frames 40 and 50. -/
def twoPages : Memory := fun ppn i =>
  if ppn = 16 ∧ i = 0 then new 17 .V
  else if ppn = 17 ∧ i = 0 then new 18 .V
  else if ppn = 18 ∧ i = 1 then new 40 (.R ||| .W ||| .U ||| .V)
  else if ppn = 18 ∧ i = 2 then new 50 (.R ||| .W ||| .U ||| .V)
  else 0

/-- `translated_byte_buffer` of a range whose pages are mapped: the physical bytes of its addresses. -/
theorem translatedByteBuffer_mapped (hrange : Canonical ptr (ptr + len)) (hwrap : ptr + len < 2 ^ 64)
    (hmapped : ∀ va, ptr ≤ va → va < ptr + len → (fromToken token).leaf mem (va % 2 ^ 39 / 4096) ≠ none) :
    ∃ slices, (∀ fuel, len ≤ fuel → translatedByteBuffer mem fuel token ptr len = some slices) ∧ (∀ s ∈ slices, s ≠ []) ∧
      slices.flatten.length = len ∧
      slices.flatten.map (fun g => some g.pa) = (range' (ptr % 2 ^ 39) len).map ((fromToken token).physical mem) := by
  obtain ⟨slices, hslices, hne⟩ := bufferLoop_mapped (Nat.le_add_right ptr len) hrange (Nat.le_refl _) hmapped
  have hva := bufferLoop_range (Nat.le_add_right ptr len) hrange hslices
  rw [Nat.add_sub_cancel_left] at hva
  refine ⟨slices, ?_, hne, ?_, ?_⟩
  · intro fuel hfuel
    rw [translatedByteBuffer, Nat.mod_eq_of_lt hwrap]
    exact bufferLoop_mono hfuel hslices
  · have hlen := congrArg length hva
    rwa [length_map, length_range'] at hlen
  · rw [← hva, List.map_map]
    apply map_congr_left
    intro g hg
    have hg' : g.va ∈ range' (ptr % 2 ^ 39) len := hva ▸ mem_map_of_mem hg
    rw [mem_range'_1] at hg'
    have hpage := hmapped (ptr + (g.va - ptr % 2 ^ 39)) (by omega) (by omega)
    have heq : (ptr + (g.va - ptr % 2 ^ 39)) % 2 ^ 39 = g.va := by
      rcases hrange with h | ⟨h, h'⟩ <;> omega
    rw [heq] at hpage
    exact ((bufferLoop_walked hslices g hg).physical hpage).symm

/-- `translated_byte_buffer` of a mapped range, the `UserBuffer` and its iterator: each byte of the range,
once and in order. The loop makes a turn for at least one byte each time. -/
theorem byte_buffer_denotes (mem : Memory) (token ptr len : Nat) (hend : ptr + len ≤ 2 ^ 38)
    (hmapped : ∀ va, ptr ≤ va → va < ptr + len → (fromToken token).leaf mem (floor va) ≠ none) :
    ∃ slices : List (List Given), (∀ fuel, len ≤ fuel → translatedByteBuffer mem fuel token ptr len = some slices) ∧
      (∀ s ∈ slices, s ≠ []) ∧ (slices.map List.length).sum = len ∧
      slices.flatten.map (fun g => some g.pa) = (List.range' ptr len).map ((fromToken token).physical mem) ∧
      (⟨slices⟩ : UserBuffer Given).len = len ∧
      (⟨slices⟩ : UserBuffer Given).intoIter.Yields slices.flatten := by
  have hmod : ptr % 2 ^ 39 = ptr := Nat.mod_eq_of_lt (by omega)
  have hmapped' : ∀ va, ptr ≤ va → va < ptr + len → (fromToken token).leaf mem (va % 2 ^ 39 / 4096) ≠ none := by
    intro va hva hva'
    rw [Nat.mod_eq_of_lt (by omega)]
    exact hmapped va hva hva'
  obtain ⟨slices, hslices, hne, hlen, hphysical⟩ := translatedByteBuffer_mapped (.inl hend) (by omega) hmapped'
  rw [hmod] at hphysical
  refine ⟨slices, hslices, hne, ?_, hphysical, ?_, ?_⟩
  · rw [← length_flatten]
    exact hlen
  · rw [UserBuffer.len_eq]
    exact hlen
  · have hyields : UserBufferIterator.Yields ⟨[] ++ slices, ([] : List (List Given)).length, 0⟩ slices.flatten :=
      UserBufferIterator.yields_from hne
    exact hyields

/-- Two user pages that are mapped to frames which are not adjacent, and a range across their border. -/
theorem byte_buffer_denotes_border : ∃ slices : List (List Given),
    translatedByteBuffer twoPages 4 (8 <<< 60 ||| 16) 8190 4 = some slices ∧
      (⟨slices⟩ : UserBuffer Given).intoIter.Yields slices.flatten ∧
      slices.flatten.map (fun g => some g.pa) = [some 167934, some 167935, some 204800, some 204801] := by
  have hmapped : ∀ va, 8190 ≤ va → va < 8190 + 4 → (fromToken (8 <<< 60 ||| 16)).leaf twoPages (floor va) ≠ none := by
    intro va hva hva'
    have hpage : floor va = 1 ∨ floor va = 2 := by
      simp only [floor, PAGE_SIZE]
      omega
    rcases hpage with h | h <;> rw [h] <;> decide +kernel
  obtain ⟨slices, hslices, -, -, hphysical, -, hyields⟩ :=
    byte_buffer_denotes twoPages (8 <<< 60 ||| 16) 8190 4 (by decide) hmapped
  refine ⟨slices, hslices 4 (Nat.le_refl _), hyields, hphysical.trans ?_⟩
  decide +kernel

end TCore.Mm
