/-
  TCore.Mm.UserObjects — objects and strings of a user program (mm/page_table.rs, `translated_ref`,
  `translated_refmut`, `translated_str`).

  `translated_ref` translates the first address of an object and goes on from there in physical memory.
  `translated_str` translates every address, and pushes each byte as a character of its own: U+0080 to
  U+00FF are two bytes in a `String`.
-/

import TCore.Mm.UserBuffer
import TCore.Lib.Utf8

namespace TCore.Mm

open PageTable
open List Option PageTableEntry VirtAddr

variable {mem : Memory} {pt : PageTable} {fuel token ptr va pa size : Nat}

/-- `translate_va(..).unwrap()` of a mapped address, and the refusal of the null pointer. -/
theorem translatedPa_of_physical (h : pt.physical mem (ptr % 2 ^ 39) = some pa) :
    translatedPa mem pt ptr = if pa = 0 then none else some pa := by
  obtain ⟨pte, hleaf, rfl⟩ := map_eq_some_iff.mp h
  obtain ⟨place, hplace, rfl⟩ := map_eq_some_iff.mp (leaf_eq_some.mp hleaf).1
  have hppn := ppn_lt (mem place.1 place.2)
  have hoff : pageOffset (ptr % 2 ^ 39) < 4096 := Nat.mod_lt _ (by decide)
  have hpa : PhysAddr.fromUsize (PhysAddr.ofPageNum (ppn (mem place.1 place.2)) + pageOffset (ptr % 2 ^ 39)) =
      ppn (mem place.1 place.2) * PAGE_SIZE + pageOffset (ptr % 2 ^ 39) := by
    rw [ofPageNum_eq hppn, PhysAddr.fromUsize]
    simp only [PAGE_SIZE]
    omega
  rw [translatedPa, translateVa, fromUsize, hplace, map_some, bind_some]
  dsimp only
  rw [hpa]

/-! ## Objects -/

/-- The pages under `size` bytes at `va` are mapped to consecutive frames. -/
def Adjacent (pt : PageTable) (mem : Memory) (va size : Nat) : Prop :=
  ∃ ppn, ∀ i < size, ∃ pte, pt.leaf mem (floor (va + i)) = some pte ∧
    pte.ppn = ppn + (floor (va + i) - floor va)

/-- What does not cross the end of its page lies in one frame. -/
theorem adjacent_of_page {pte : PageTableEntry} (hleaf : pt.leaf mem (floor va) = some pte)
    (hfit : pageOffset va + size ≤ PAGE_SIZE) : Adjacent pt mem va size := by
  refine ⟨pte.ppn, ?_⟩
  intro i hi
  have hpage : floor (va + i) = floor va := by
    simp only [floor, pageOffset, PAGE_SIZE] at hfit ⊢
    omega
  rw [hpage]
  exact ⟨pte, hleaf, by rw [Nat.sub_self, Nat.add_zero]⟩

/-- A run of physical bytes is that of the addresses if their pages lie in consecutive frames. -/
theorem run_physical_iff (hsize : 0 < size) (h : pt.physical mem va = some pa) :
    (givenRun va pa size).map (fun g => some g.pa) = (List.range' va size).map (pt.physical mem) ↔
      Adjacent pt mem va size := by
  obtain ⟨pte, hleaf, hpa⟩ := map_eq_some_iff.mp h
  rw [givenRun, List.map_map, range'_eq_map_range, List.map_map, map_inj_left]
  refine ⟨fun hall => ⟨pte.ppn, ?_⟩, ?_⟩
  · intro i hi
    have hi' : some (pa + i) = pt.physical mem (va + i) := hall i (mem_range.mpr hi)
    obtain ⟨pte', hleaf', hpa'⟩ := map_eq_some_iff.mp hi'.symm
    refine ⟨pte', hleaf', ?_⟩
    simp only [pageOffset, floor, PAGE_SIZE] at hpa hpa' ⊢
    omega
  · intro hadjacent i hi
    obtain ⟨ppn, hpages⟩ := hadjacent
    obtain ⟨pte₀, hleaf₀, hppn₀⟩ := hpages 0 hsize
    obtain ⟨pte', hleaf', hppn'⟩ := hpages i (mem_range.mp hi)
    rw [Nat.add_zero, hleaf, some.injEq] at hleaf₀
    subst hleaf₀
    have hphysical : pt.physical mem (va + i) = some (pte'.ppn * PAGE_SIZE + pageOffset (va + i)) := by
      rw [PageTable.physical, hleaf']
      rfl
    refine Eq.trans ?_ hphysical.symm
    simp only [Function.comp_apply, some.injEq, pageOffset, floor, PAGE_SIZE] at hpa hppn₀ hppn' ⊢
    omega

/-- An object has the bytes of its addresses exactly when its pages lie in consecutive frames. The pointer is an
address and the pages under the object are mapped; the other conditions are the null pointer and the end of
the range, which wraps to 0. -/
theorem typed_access_agrees_iff (mem : Memory) (token ptr size : Nat) (hsize : 0 < size)
    (hptr : ptr + size ≤ 2 ^ 38 ∨ 2 ^ 64 - 2 ^ 38 ≤ ptr ∧ ptr + size ≤ 2 ^ 64)
    (hmapped : ∀ va, ptr ≤ va → va < ptr + size →
      (fromToken token).leaf mem (floor (fromUsize va)) ≠ none) :
    (∃ given slices, translatedRef mem size token ptr = some given ∧
      (∀ fuel, size ≤ fuel → translatedByteBuffer mem fuel token ptr size = some slices) ∧
      given.map (fun g => some g.pa) =
        (List.range' (fromUsize ptr) size).map ((fromToken token).physical mem) ∧
      given.map Given.pa = slices.flatten.map Given.pa) ↔
    (fromToken token).physical mem (fromUsize ptr) ≠ some 0 ∧ ptr + size ≠ 2 ^ 64 ∧
      Adjacent (fromToken token) mem (fromUsize ptr) size := by
  obtain ⟨pte, hleaf⟩ := ne_none_iff_exists'.mp (hmapped ptr (Nat.le_refl _) (by omega))
  have hpa : (fromToken token).physical mem (ptr % 2 ^ 39) = some (pte.ppn * PAGE_SIZE + pageOffset (ptr % 2 ^ 39)) :=
    map_eq_some_iff.mpr ⟨pte, hleaf, rfl⟩
  have hrun := run_physical_iff hsize hpa
  generalize pte.ppn * PAGE_SIZE + pageOffset (ptr % 2 ^ 39) = pa at hpa hrun
  have href : translatedRef mem size token ptr = if pa = 0 then none else some (givenRun (ptr % 2 ^ 39) pa size) := by
    rw [translatedRef, translatedPa_of_physical hpa]
    split <;> rfl
  simp only [fromUsize, hpa, ne_eq, some.injEq]
  refine ⟨?_, ?_⟩
  · intro hgives
    obtain ⟨given, slices, hgiven, hslices, hphysical, hsame⟩ := hgives
    obtain ⟨hne, heq⟩ := ite_none_left_eq_some.mp (href.symm.trans hgiven)
    cases heq
    refine ⟨hne, ?_, hrun.mp hphysical⟩
    -- the end of the range has wrapped, and the buffer is empty
    intro hwrap
    have hempty := hslices size (Nat.le_refl _)
    rw [translatedByteBuffer, hwrap, Nat.mod_self, bufferLoop_done (Nat.zero_le _)] at hempty
    cases hempty
    have hlen := congrArg List.length hsame
    simp only [givenRun, length_map, length_range, flatten_nil, length_nil] at hlen
    omega
  · intro hcond
    obtain ⟨hne, hwrap, hadjacent⟩ := hcond
    have hrange : Canonical ptr (ptr + size) := by
      rcases hptr with h | ⟨h, h'⟩
      · exact .inl h
      · exact .inr ⟨h, by omega⟩
    have hmapped' : ∀ va, ptr ≤ va → va < ptr + size → (fromToken token).leaf mem (va % 2 ^ 39 / 4096) ≠ none := hmapped
    obtain ⟨slices, hslices, -, -, hphysical⟩ := translatedByteBuffer_mapped hrange (by omega) hmapped'
    have hgiven := hrun.mpr hadjacent
    refine ⟨_, slices, by rw [href, if_neg hne], hslices, hgiven, ?_⟩
    have hsame := hgiven.trans hphysical.symm
    have hsome : ∀ l : List Given, l.map (fun g => some g.pa) = (l.map Given.pa).map some := by simp
    rw [hsome, hsome] at hsame
    exact map_injective_iff.mpr (some_injective _) hsame

/-- An `i32` that ends with its page. -/
theorem typed_access_agrees_page : ∃ given slices,
    translatedRef twoPages 4 (8 <<< 60 ||| 16) 8188 = some given ∧
      translatedByteBuffer twoPages 4 (8 <<< 60 ||| 16) 8188 4 = some slices ∧
      given.map Given.pa = slices.flatten.map Given.pa := by
  have hmapped : ∀ va, 8188 ≤ va → va < 8188 + 4 →
      (fromToken (8 <<< 60 ||| 16)).leaf twoPages (floor (fromUsize va)) ≠ none := by
    intro va hva hva'
    have hpage : floor (fromUsize va) = 1 := by
      simp only [floor, fromUsize, PAGE_SIZE]
      omega
    rw [hpage]
    decide +kernel
  have hleaf : (fromToken (8 <<< 60 ||| 16)).leaf twoPages (floor (fromUsize 8188)) =
      some (.new 40 (.R ||| .W ||| .U ||| .V)) := by decide +kernel
  obtain ⟨given, slices, hgiven, hslices, -, hsame⟩ :=
    (typed_access_agrees_iff twoPages (8 <<< 60 ||| 16) 8188 4 (by decide) (.inl (by decide)) hmapped).mpr
      ⟨by decide +kernel, by decide, adjacent_of_page hleaf (by decide)⟩
  exact ⟨given, slices, hgiven, hslices 4 (Nat.le_refl _), hsame⟩

/-- An `i32` across the border of two pages whose frames are not adjacent: the reference goes on in frame 41. -/
theorem typed_access_leaves_frame :
    (translatedRef twoPages 4 (8 <<< 60 ||| 16) 8190).map (List.map Given.pa) = some [167934, 167935, 167936, 167937] ∧
      (translatedByteBuffer twoPages 4 (8 <<< 60 ||| 16) 8190 4).map (fun slices => slices.flatten.map Given.pa) =
        some [167934, 167935, 204800, 204801] := by
  decide +kernel

/-! ## Strings -/

/-- The NUL-terminated string at `ptr`, in mapped memory. -/
structure StringAt (pt : PageTable) (mem : Memory) (ptr : Nat) (bytes : List (BitVec 8)) : Prop where
  text : ∀ b ∈ bytes, b ≠ 0
  placed : ∀ i ≤ bytes.length, ∃ pa, pt.physical mem (fromUsize ((ptr + i) % 2 ^ 64)) = some pa ∧
    mem.byte pa = bytes.getD i 0

/-- The bytes of the `String` that `push(ch as char)` makes of `chs`. -/
def stringBytes (chs : List (BitVec 8)) : List UInt8 := chs.flatMap fun ch => String.utf8EncodeChar (Char.ofNat ch.toNat)

theorem stringBytes_char (ch : BitVec 8) :
    if ch < 0x80 then stringBytes [ch] = [UInt8.ofBitVec ch] else (stringBytes [ch]).length = 2 := by
  revert ch
  decide +kernel

theorem stringBytes_cons (ch : BitVec 8) (chs : List (BitVec 8)) : stringBytes (ch :: chs) = stringBytes [ch] ++ stringBytes chs := by
  simp [stringBytes]

theorem length_le_stringBytes (chs : List (BitVec 8)) : chs.length ≤ (stringBytes chs).length := by
  induction chs with
  | nil => exact Nat.le_refl 0
  | cons ch chs ih =>
    have hchar := stringBytes_char ch
    rw [stringBytes_cons, length_append, length_cons]
    split at hchar
    · rw [hchar, length_singleton]
      omega
    · omega

/-- ASCII characters are their own bytes; any other is one more. -/
theorem stringBytes_eq_iff (chs : List (BitVec 8)) :
    stringBytes chs = chs.map UInt8.ofBitVec ↔ ∀ ch ∈ chs, ch < 0x80 := by
  induction chs with
  | nil => simp [stringBytes]
  | cons ch chs ih =>
    have hchar := stringBytes_char ch
    rw [stringBytes_cons, map_cons, forall_mem_cons, ← ih]
    by_cases hascii : ch < 0x80
    · rw [if_pos hascii] at hchar
      rw [hchar, singleton_append, cons_inj_right, and_iff_right hascii]
    · rw [if_neg hascii] at hchar
      refine iff_of_false ?_ fun h => hascii h.1
      intro heq
      have hlen := congrArg List.length heq
      rw [length_append, hchar, length_cons, length_map] at hlen
      have hle := length_le_stringBytes chs
      omega

variable {b : BitVec 8} {bytes : List (BitVec 8)}

theorem StringAt.tail (h : StringAt pt mem ptr (b :: bytes)) : StringAt pt mem ((ptr + 1) % 2 ^ 64) bytes := by
  refine ⟨fun c hc => h.text c (mem_cons_of_mem _ hc), ?_⟩
  intro i hi
  obtain ⟨pa, hpa, hbyte⟩ := h.placed (i + 1) (Nat.succ_le_succ hi)
  have hnext : ((ptr + 1) % 2 ^ 64 + i) % 2 ^ 64 = (ptr + (i + 1)) % 2 ^ 64 := by omega
  rw [hnext]
  exact ⟨pa, hpa, hbyte⟩

section

variable (h : StringAt pt mem ptr bytes)
include h

/-- The byte at the pointer, and what the loop reads for it. -/
theorem StringAt.first :
    ∃ pa, pt.physical mem (fromUsize (ptr % 2 ^ 64)) = some pa ∧ mem.byte pa = bytes.getD 0 0 ∧
      translatedPa mem pt ptr = if pa = 0 then none else some pa := by
  obtain ⟨pa, hpa, hbyte⟩ := h.placed 0 (Nat.zero_le _)
  have hva : fromUsize (ptr % 2 ^ 64) = ptr % 2 ^ 39 := by
    rw [fromUsize]
    omega
  refine ⟨pa, hpa, hbyte, translatedPa_of_physical ?_⟩
  rw [← hva]
  exact hpa

theorem strLoop_kept
    (hnull : ∀ i ≤ bytes.length, pt.physical mem (fromUsize ((ptr + i) % 2 ^ 64)) ≠ some 0) :
    ∃ given, ∀ fuel, bytes.length < fuel → strLoop mem pt fuel ptr = some (bytes, given) := by
  induction bytes generalizing ptr with
  | nil =>
    obtain ⟨pa, hpa, hbyte, hptr⟩ := h.first
    have hne : pa ≠ 0 := by
      rintro rfl
      exact hnull 0 (Nat.zero_le _) hpa
    refine ⟨[⟨fromUsize ptr, pa⟩], ?_⟩
    intro fuel hfuel
    obtain ⟨n, rfl⟩ : ∃ n, fuel = n + 1 := ⟨fuel - 1, by omega⟩
    rw [strLoop, hptr, if_neg hne, bind_some]
    exact if_pos hbyte
  | cons b bytes ih =>
    obtain ⟨pa, hpa, hbyte, hptr⟩ := h.first
    have hne : pa ≠ 0 := by
      rintro rfl
      exact hnull 0 (Nat.zero_le _) hpa
    have hb : mem.byte pa = b := hbyte
    have hnull' : ∀ i ≤ bytes.length, pt.physical mem (fromUsize (((ptr + 1) % 2 ^ 64 + i) % 2 ^ 64)) ≠ some 0 := by
      intro i hi
      have hnext : ((ptr + 1) % 2 ^ 64 + i) % 2 ^ 64 = (ptr + (i + 1)) % 2 ^ 64 := by omega
      rw [hnext]
      exact hnull (i + 1) (Nat.succ_le_succ hi)
    obtain ⟨given, hgiven⟩ := ih h.tail hnull'
    refine ⟨⟨fromUsize ptr, pa⟩ :: given, ?_⟩
    intro fuel hfuel
    obtain ⟨n, rfl⟩ : ∃ n, fuel = n + 1 := ⟨fuel - 1, by omega⟩
    rw [strLoop, hptr, if_neg hne, bind_some]
    dsimp only
    rw [if_neg (hb ▸ h.text b mem_cons_self), hgiven n (Nat.lt_of_succ_lt_succ hfuel), map_some, hb]

/-- The loop does not get past a null pointer. -/
theorem strLoop_null {i : Nat} (hi : i ≤ bytes.length)
    (hnull : pt.physical mem (fromUsize ((ptr + i) % 2 ^ 64)) = some 0) : strLoop mem pt fuel ptr = none := by
  induction bytes generalizing ptr fuel i with
  | nil =>
    obtain ⟨pa, hpa, -, hptr⟩ := h.first
    obtain rfl : i = 0 := Nat.le_zero.mp hi
    rw [Nat.add_zero, hpa, some.injEq] at hnull
    cases fuel with
    | zero => rfl
    | succ fuel => rw [strLoop, hptr, if_pos hnull, bind_none]
  | cons b bytes ih =>
    obtain ⟨pa, hpa, hbyte, hptr⟩ := h.first
    have hb : mem.byte pa = b := hbyte
    cases fuel with
    | zero => rfl
    | succ fuel =>
      by_cases hzero : pa = 0
      · rw [strLoop, hptr, if_pos hzero, bind_none]
      · rw [strLoop, hptr, if_neg hzero, bind_some]
        dsimp only
        rw [if_neg (hb ▸ h.text b mem_cons_self)]
        cases i with
        | zero =>
          rw [Nat.add_zero, hpa, some.injEq] at hnull
          exact absurd hnull hzero
        | succ i =>
          have hnext : (ptr + (i + 1)) % 2 ^ 64 = ((ptr + 1) % 2 ^ 64 + i) % 2 ^ 64 := by omega
          rw [hnext] at hnull
          rw [ih h.tail (Nat.le_of_succ_le_succ hi) hnull, map_none]

end

/-- `translated_str` of a string in mapped memory: a `String` with the same bytes exactly when they are ASCII. -/
theorem string_kept_iff (mem : Memory) (token ptr : Nat) (bytes : List (BitVec 8))
    (h : StringAt (fromToken token) mem ptr bytes) :
    (∃ string given, (∀ fuel, bytes.length < fuel → translatedStr mem fuel token ptr = some (string, given)) ∧
      stringBytes string = bytes.map UInt8.ofBitVec) ↔
    (∀ i ≤ bytes.length, (fromToken token).physical mem (fromUsize ((ptr + i) % 2 ^ 64)) ≠ some 0) ∧
      ∀ b ∈ bytes, b < 0x80 := by
  refine ⟨?_, ?_⟩
  · intro ⟨string, given, hstr, hsame⟩
    have hnull : ∀ i ≤ bytes.length, (fromToken token).physical mem (fromUsize ((ptr + i) % 2 ^ 64)) ≠ some 0 := by
      intro i hi hzero
      have hsome := hstr _ (Nat.lt_succ_self _)
      rw [translatedStr, strLoop_null h hi hzero] at hsome
      cases hsome
    obtain ⟨given', hstr'⟩ := strLoop_kept h hnull
    have heq := (hstr _ (Nat.lt_succ_self _)).symm.trans (hstr' _ (Nat.lt_succ_self _))
    cases heq
    exact ⟨hnull, (stringBytes_eq_iff _).mp hsame⟩
  · intro ⟨hnull, hascii⟩
    obtain ⟨given, hstr⟩ := strLoop_kept h hnull
    exact ⟨bytes, given, hstr, (stringBytes_eq_iff bytes).mpr hascii⟩

/-- The pages of `twoPages`, with a text in frame 40. -/
def textPage (text : BitVec 64) : Memory := fun ppn i => if ppn = 40 ∧ i = 0 then text else twoPages ppn i

/-- The two letters `hi`. -/
theorem string_kept_ascii : ∃ string given, translatedStr (textPage 0x6968) 3 (8 <<< 60 ||| 16) 4096 = some (string, given) ∧
    stringBytes string = [0x68, 0x69] := by
  have hplaced : ∀ i ≤ 2, ∃ pa ∈ (fromToken (8 <<< 60 ||| 16)).physical (textPage 0x6968) (fromUsize ((4096 + i) % 2 ^ 64)),
      (textPage 0x6968).byte pa = [0x68#8, 0x69#8].getD i 0 := by decide +kernel
  have hnull : ∀ i ≤ 2,
      (fromToken (8 <<< 60 ||| 16)).physical (textPage 0x6968) (fromUsize ((4096 + i) % 2 ^ 64)) ≠ some 0 := by
    decide +kernel
  obtain ⟨string, given, hstr, hsame⟩ :=
    (string_kept_iff (textPage 0x6968) (8 <<< 60 ||| 16) 4096 [0x68, 0x69] ⟨by decide, hplaced⟩).mpr ⟨hnull, by decide⟩
  exact ⟨string, given, hstr 3 (by decide), hsame⟩

/-- The letter `é`, C3 A9, becomes the two letters `Ã©`. -/
theorem string_not_kept :
    StringAt (fromToken (8 <<< 60 ||| 16)) (textPage 0xa9c3) 4096 [0xc3, 0xa9] ∧ Lib.utf8 [0xc3, 0xa9] = true ∧
      (translatedStr (textPage 0xa9c3) 3 (8 <<< 60 ||| 16) 4096).map (fun x => stringBytes x.1) =
        some [0xc3, 0x83, 0xc2, 0xa9] := by
  have hplaced : ∀ i ≤ 2, ∃ pa ∈ (fromToken (8 <<< 60 ||| 16)).physical (textPage 0xa9c3) (fromUsize ((4096 + i) % 2 ^ 64)),
      (textPage 0xa9c3).byte pa = [0xc3#8, 0xa9#8].getD i 0 := by decide +kernel
  exact ⟨⟨by decide, hplaced⟩, by decide +kernel, by decide +kernel⟩

end TCore.Mm
