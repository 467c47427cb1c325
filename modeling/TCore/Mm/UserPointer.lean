/-
  TCore.Mm.UserPointer — the kernel's access to user memory (mm/page_table.rs, translated_*).

  The functions walk the page table of a token and give the kernel physical bytes. None of them looks
  at the flags of the entry, not even at V: a page that is mapped for the kernel only (a trap context,
  the trampoline) is given like a user page, and a page without mapping in an existing table is given
  as physical page 0 (`kernel_pages_given`). A `T` that crosses a page boundary goes on in the next
  physical frame, whatever the next page is mapped to.

  An access is the list of the bytes given, each with the virtual address it is given for. `none` is a
  panic, or a loop that has not ended within `fuel` turns.
-/

import TCore.Mm.PageTable

namespace TCore.Mm

open PageTable
open Option VirtAddr List PageTableEntry

/-- A byte of physical memory. -/
def Memory.byte (mem : Memory) (pa : Nat) : BitVec 8 :=
  (mem (pa / PAGE_SIZE) (Fin.ofNat 512 (pa % PAGE_SIZE / 8)) >>> (8 * (pa % 8))).setWidth 8

/-- A byte that the kernel is given. -/
structure Given where
  va : Nat
  pa : Nat
  deriving DecidableEq

/-- The bytes from `va` on, which lie one after the other from `pa` on. -/
def givenRun (va pa n : Nat) : List Given := (List.range n).map fun i => ⟨va + i, pa + i⟩

/-- The offset at which the slice of a turn ends. -/
def sliceEnd (endVa : Nat) : Nat := if pageOffset endVa = 0 then PAGE_SIZE else pageOffset endVa

/-- A turn of the loop of `translated_byte_buffer`: the slice and the next `start`. Slicing panics when
the end lies before the start. -/
def bufferTurn (mem : Memory) (pt : PageTable) (start end_ : Nat) : Option (List Given × Nat) :=
  let startVa := fromUsize start
  let vpn := floor startVa
  (pt.translate mem vpn).bind fun pte =>
    let endVa := min (ofPageNum (vpn + 1)) (fromUsize end_)
    if sliceEnd endVa < pageOffset startVa then none
    else some (givenRun startVa (PhysAddr.ofPageNum pte.ppn + pageOffset startVa) (sliceEnd endVa - pageOffset startVa),
      toUsize endVa)

def bufferLoop (mem : Memory) (pt : PageTable) : Nat → Nat → Nat → Option (List (List Given))
  | 0, start, end_ => if start < end_ then none else some []
  | fuel + 1, start, end_ =>
    if start < end_ then
      (bufferTurn mem pt start end_).bind fun (slice, start) =>
        (bufferLoop mem pt fuel start end_).map (slice :: ·)
    else some []

/-- The slices of `translated_byte_buffer`; `start + len` wraps. -/
def translatedByteBuffer (mem : Memory) (fuel token ptr len : Nat) : Option (List (List Given)) :=
  bufferLoop mem (fromToken token) fuel ptr ((ptr + len) % 2 ^ 64)

/-- `translate_va(..).unwrap()` and `as_ref().unwrap()`, which refuses the null pointer. -/
def translatedPa (mem : Memory) (pt : PageTable) (ptr : Nat) : Option Nat :=
  (pt.translateVa mem (fromUsize ptr)).bind fun pa => if pa = 0 then none else some pa

/-- The loop of `translated_str`: the characters, and the bytes that were read for them. -/
def strLoop (mem : Memory) (pt : PageTable) : Nat → Nat → Option (List (BitVec 8) × List Given)
  | 0, _ => none
  | fuel + 1, va =>
    (translatedPa mem pt va).bind fun pa =>
      let given : Given := ⟨fromUsize va, pa⟩
      if mem.byte pa = 0 then some ([], [given])
      else (strLoop mem pt fuel ((va + 1) % 2 ^ 64)).map fun (string, rest) => (mem.byte pa :: string, given :: rest)

def translatedStr (mem : Memory) (fuel token ptr : Nat) : Option (List (BitVec 8) × List Given) :=
  strLoop mem (fromToken token) fuel ptr

/-- `translated_ref` and `translated_refmut` of a `T` of `size` bytes. -/
def translatedRef (mem : Memory) (size token ptr : Nat) : Option (List Given) :=
  (translatedPa mem (fromToken token) ptr).map fun pa => givenRun (fromUsize ptr) pa size

/-! ## User pages -/

/-- The leaf entry of the page is valid and user-accessible. -/
def UserPage (pt : PageTable) (mem : Memory) (vpn : Nat) : Prop :=
  ∃ pte, pt.leaf mem vpn = some pte ∧ pte.flags &&& .U ≠ 0

/-- The byte at `va` of a user page. -/
def Given.OfUser (pt : PageTable) (mem : Memory) (g : Given) : Prop :=
  ∃ pte, pt.leaf mem (floor g.va) = some pte ∧ pte.flags &&& .U ≠ 0 ∧
    g.pa = pte.ppn * PAGE_SIZE + pageOffset g.va

variable {mem : Memory} {pt : PageTable} {fuel token ptr va pa len size start end_ next : Nat} {given : List Given}
  {slices : List (List Given)} {string : List (BitVec 8)}

theorem Given.OfUser.userPage {g : Given} (h : g.OfUser pt mem) : UserPage pt mem (floor g.va) := by
  obtain ⟨pte, hleaf, hu, -⟩ := h
  exact ⟨pte, hleaf, hu⟩

theorem PageTableEntry.ppn_lt (pte : PageTableEntry) : pte.ppn < 2 ^ 44 := Nat.mod_lt _ (by decide)

theorem ofPageNum_eq {ppn : Nat} (h : ppn < 2 ^ 44) : PhysAddr.ofPageNum ppn = ppn * PAGE_SIZE := by
  rw [PhysAddr.ofPageNum, PAGE_SIZE]
  omega

/-- A byte of the page that the walk found for its address. -/
def Given.Walked (pt : PageTable) (mem : Memory) (g : Given) : Prop :=
  ∃ pte, pt.translate mem (floor g.va) = some pte ∧ g.pa = pte.ppn * PAGE_SIZE + pageOffset g.va

/-- Such a byte is a user's if the page is one. -/
theorem Given.Walked.ofUser_iff {g : Given} (h : g.Walked pt mem) :
    g.OfUser pt mem ↔ UserPage pt mem (floor g.va) := by
  refine ⟨Given.OfUser.userPage, ?_⟩
  intro ⟨pte, hleaf, hu⟩
  obtain ⟨pte', hpte', hpa⟩ := h
  have hpte := (leaf_eq_some.mp hleaf).1
  rw [hpte', some.injEq] at hpte
  subst hpte
  exact ⟨_, hleaf, hu, hpa⟩

theorem ofUser_iff_pages (h : ∀ g ∈ given, g.Walked pt mem) :
    (∀ g ∈ given, g.OfUser pt mem) ↔ ∀ va ∈ given.map Given.va, UserPage pt mem (floor va) := by
  rw [List.forall_mem_map]
  exact forall₂_congr fun g hg => (h g hg).ofUser_iff

theorem mem_givenRun {g : Given} : g ∈ givenRun va pa size ↔ ∃ i < size, g = ⟨va + i, pa + i⟩ := by
  simp only [givenRun, List.mem_map, List.mem_range, eq_comm]

/-! ## Byte buffers -/

/-- Where a turn ends, in 39 bits. -/
def turnEnd (start end_ : Nat) : Nat := min ((start % 2 ^ 39 / 4096 + 1) * 4096) (end_ % 2 ^ 39)

theorem toUsize_low {va : Nat} (h : va < 2 ^ 38) : toUsize va = va := by
  rw [toUsize, if_neg (by omega)]

theorem toUsize_high {va : Nat} (h : 2 ^ 38 ≤ va) (h' : va < 2 ^ 39) : toUsize va = va + (2 ^ 64 - 2 ^ 39) := by
  have hor := Nat.two_pow_add_eq_or_of_lt h' (2 ^ 25 - 1)
  rw [toUsize, if_pos h, Nat.or_comm, show 2 ^ 64 - 2 ^ 39 = 2 ^ 39 * (2 ^ 25 - 1) by norm_num, ← hor, Nat.add_comm]

theorem turnEnd_lt : turnEnd start end_ < 2 ^ 39 := lt_of_le_of_lt (Nat.min_le_right _ _) (Nat.mod_lt _ (by decide))

theorem bufferTurn_eq : bufferTurn mem pt start end_ = (pt.translate mem (start % 2 ^ 39 / 4096)).bind fun pte =>
    if sliceEnd (turnEnd start end_) < pageOffset (start % 2 ^ 39) then none
    else some (givenRun (start % 2 ^ 39) (PhysAddr.ofPageNum pte.ppn + pageOffset (start % 2 ^ 39))
      (sliceEnd (turnEnd start end_) - pageOffset (start % 2 ^ 39)), toUsize (turnEnd start end_)) := by
  have hpage : ofPageNum (floor (start % 2 ^ 39) + 1) = (start % 2 ^ 39 / 4096 + 1) * 4096 := by
    simp only [ofPageNum, floor, PAGE_SIZE]
    omega
  simp only [bufferTurn, fromUsize, hpage]
  rfl

theorem bufferTurn_next (h : bufferTurn mem pt start end_ = some (slice, next)) :
    next = toUsize (turnEnd start end_) := by
  rw [bufferTurn_eq] at h
  obtain ⟨pte, -, hturn⟩ := bind_eq_some_iff.mp h
  obtain ⟨-, heq⟩ := ite_none_left_eq_some.mp hturn
  cases heq
  rfl

/-- In 39 bits the end does not lie before the start, or in its page it does not. -/
def Forward (start end_ : Nat) : Prop := start % 2 ^ 39 ≤ end_ % 2 ^ 39 ∨ end_ % 4096 = 0 ∨ start % 4096 ≤ end_ % 4096

theorem forward_iff : Forward start end_ ↔ ¬sliceEnd (turnEnd start end_) < pageOffset (start % 2 ^ 39) := by
  unfold Forward sliceEnd
  by_cases hzero : pageOffset (turnEnd start end_) = 0
  · rw [if_pos hzero]
    simp only [turnEnd, pageOffset, PAGE_SIZE] at hzero ⊢
    omega
  · rw [if_neg hzero]
    simp only [turnEnd, pageOffset, PAGE_SIZE] at hzero ⊢
    omega

theorem bufferTurn_isSome_iff :
    (bufferTurn mem pt start end_).isSome ↔ (pt.translate mem (start % 2 ^ 39 / 4096)).isSome ∧ Forward start end_ := by
  rw [bufferTurn_eq, forward_iff]
  cases pt.translate mem (start % 2 ^ 39 / 4096) with
  | none => simp
  | some pte =>
    by_cases hslice : sliceEnd (turnEnd start end_) < pageOffset (start % 2 ^ 39)
    · rw [bind_some, if_pos hslice]
      exact iff_of_false (by simp) fun h => h.2 hslice
    · rw [bind_some, if_neg hslice]
      exact iff_of_true rfl ⟨rfl, hslice⟩

/-- The addresses from `start` up to `end_` are sign extended from 39 bits. -/
def Canonical (start end_ : Nat) : Prop := end_ ≤ 2 ^ 38 ∨ 2 ^ 64 - 2 ^ 38 ≤ start ∧ end_ < 2 ^ 64

theorem Canonical.mono {stop : Nat} (h : Canonical start end_) (hle : start ≤ stop) : Canonical stop end_ := by
  rcases h with h | ⟨h, h'⟩
  · exact .inl h
  · exact .inr ⟨by omega, h'⟩

/-- Such a turn ends within the page and the range. -/
theorem Canonical.turnEnd (h : Canonical start end_) (hlt : start < end_) :
    start % 2 ^ 39 < turnEnd start end_ ∧ turnEnd start end_ ≤ (start % 2 ^ 39 / 4096 + 1) * 4096 ∧
      start + (turnEnd start end_ - start % 2 ^ 39) ≤ end_ := by
  unfold Mm.turnEnd
  rcases h with h | ⟨h, h'⟩ <;> omega

theorem sliceEnd_le (endVa : Nat) : sliceEnd endVa ≤ PAGE_SIZE := by
  rw [sliceEnd]
  by_cases h : pageOffset endVa = 0
  · rw [if_pos h]
  · rw [if_neg h]
    exact (Nat.mod_lt endVa (by decide)).le

/-- The slice of a turn ends where the turn ends. -/
theorem sliceEnd_sub {stop : Nat} (hlt : start < stop) (hle : stop ≤ (start / 4096 + 1) * 4096) :
    sliceEnd stop - pageOffset start = stop - start := by
  rw [sliceEnd]
  by_cases h : pageOffset stop = 0
  · rw [if_pos h]
    simp only [pageOffset, PAGE_SIZE] at h ⊢
    omega
  · rw [if_neg h]
    simp only [pageOffset, PAGE_SIZE] at h ⊢
    omega

theorem bufferLoop_done (h : end_ ≤ start) : bufferLoop mem pt fuel start end_ = some [] := by
  cases fuel <;> rw [bufferLoop, if_neg (not_lt.mpr h)]

theorem bufferTurn_walked (h : bufferTurn mem pt start end_ = some (given, next)) : ∀ g ∈ given, g.Walked pt mem := by
  obtain ⟨pte, hpte, hturn⟩ := bind_eq_some_iff.mp h
  obtain ⟨-, heq⟩ := ite_none_left_eq_some.mp hturn
  cases heq
  intro g hg
  obtain ⟨i, hi, rfl⟩ := mem_givenRun.mp hg
  have hppn := pte.ppn_lt
  have hend := sliceEnd_le
    (min (ofPageNum (floor (fromUsize start) + 1)) (fromUsize end_))
  have hoff : pageOffset (fromUsize start) + i < PAGE_SIZE := by omega
  simp only [pageOffset, PAGE_SIZE] at hoff
  refine ⟨pte, ?_, ?_⟩
  · rw [← hpte]
    congr 1
    simp only [floor, PAGE_SIZE]
    omega
  · rw [ofPageNum_eq hppn]
    simp only [pageOffset, PAGE_SIZE]
    omega

theorem bufferLoop_walked (h : bufferLoop mem pt fuel start end_ = some slices) :
    ∀ g ∈ slices.flatten, g.Walked pt mem := by
  induction fuel generalizing start slices with
  | zero =>
    obtain ⟨-, heq⟩ := ite_none_left_eq_some.mp h
    cases heq
    simp
  | succ fuel ih =>
    rw [bufferLoop] at h
    split at h
    · obtain ⟨⟨given, next⟩, hturn, hloop⟩ := bind_eq_some_iff.mp h
      obtain ⟨rest, hrest, rfl⟩ := map_eq_some_iff.mp hloop
      intro g hg
      rcases mem_append.mp hg with hg | hg
      · exact bufferTurn_walked hturn g hg
      · exact ih hrest g hg
    · cases h
      simp

/-- A turn of a range of addresses: the bytes up to the end of the page or of the range. -/
theorem bufferTurn_range (hlt : start < end_) (hrange : Canonical start end_)
    (h : bufferTurn mem pt start end_ = some (given, next)) :
    ∃ stop, start < stop ∧ stop ≤ end_ ∧ given.map Given.va = range' (start % 2 ^ 39) (stop - start) ∧
      (next = stop ∨ stop = end_ ∧ end_ ≤ next) := by
  obtain ⟨hstop, hpage, hend⟩ := hrange.turnEnd hlt
  have hnext := bufferTurn_next h
  rw [bufferTurn_eq] at h
  obtain ⟨pte, -, hturn⟩ := bind_eq_some_iff.mp h
  obtain ⟨-, heq⟩ := ite_none_left_eq_some.mp hturn
  cases heq
  refine ⟨start + (turnEnd start end_ - start % 2 ^ 39), by omega, hend, ?_, ?_⟩
  · rw [sliceEnd_sub hstop hpage, givenRun, List.map_map, List.range'_eq_map_range, Nat.add_sub_cancel_left]
    rfl
  · have hlt39 : turnEnd start end_ < 2 ^ 39 := turnEnd_lt
    by_cases hhigh : 2 ^ 38 ≤ turnEnd start end_
    · rw [toUsize_high hhigh hlt39]
      rcases hrange with h | ⟨h, h'⟩
      · exact .inr ⟨by omega, by omega⟩
      · exact .inl (by omega)
    · rw [toUsize_low (not_le.mp hhigh)]
      rcases hrange with h | ⟨h, h'⟩
      · exact .inl (by omega)
      · omega

/-- The addresses that the loop comes to depend on the range only. -/
def bufferAddresses : Nat → Nat → Nat → List Nat
  | 0, _, _ => []
  | fuel + 1, start, end_ =>
    if start < end_ then
      range' (start % 2 ^ 39) (sliceEnd (turnEnd start end_) - pageOffset (start % 2 ^ 39)) ++
        bufferAddresses fuel (toUsize (turnEnd start end_)) end_
    else []

theorem bufferLoop_addresses (h : bufferLoop mem pt fuel start end_ = some slices) :
    slices.flatten.map Given.va = bufferAddresses fuel start end_ := by
  induction fuel generalizing start slices with
  | zero =>
    obtain ⟨-, heq⟩ := ite_none_left_eq_some.mp h
    cases heq
    rfl
  | succ fuel ih =>
    rw [bufferLoop] at h
    rw [bufferAddresses]
    split at h
    · rename_i hlt
      obtain ⟨⟨given, next⟩, hturn, hloop⟩ := bind_eq_some_iff.mp h
      obtain ⟨rest, hrest, rfl⟩ := map_eq_some_iff.mp hloop
      rw [if_pos hlt, ← bufferTurn_next hturn, flatten_cons, map_append, ih hrest]
      rw [bufferTurn_eq] at hturn
      obtain ⟨pte, -, hturn⟩ := bind_eq_some_iff.mp hturn
      obtain ⟨-, heq⟩ := ite_none_left_eq_some.mp hturn
      cases heq
      rw [givenRun, List.map_map, List.range'_eq_map_range]
      rfl
    · rename_i hnot
      cases h
      rw [if_neg hnot]
      rfl

/-- The slices are the bytes of the range, in order. -/
theorem bufferLoop_range (hle : start ≤ end_) (hrange : Canonical start end_)
    (h : bufferLoop mem pt fuel start end_ = some slices) :
    slices.flatten.map Given.va = range' (start % 2 ^ 39) (end_ - start) := by
  induction fuel generalizing start slices with
  | zero =>
    obtain ⟨hnot, heq⟩ := ite_none_left_eq_some.mp h
    cases heq
    rw [Nat.sub_eq_zero_of_le (not_lt.mp hnot)]
    rfl
  | succ fuel ih =>
    rw [bufferLoop] at h
    split at h
    · rename_i hlt
      obtain ⟨⟨given, next⟩, hturn, hloop⟩ := bind_eq_some_iff.mp h
      obtain ⟨rest, hrest, rfl⟩ := map_eq_some_iff.mp hloop
      obtain ⟨stop, hstop, hstop', hgiven, hnext⟩ := bufferTurn_range hlt hrange hturn
      have hmid : start % 2 ^ 39 + 1 * (stop - start) = stop % 2 ^ 39 := by
        rcases hrange with h | ⟨h, h'⟩ <;> omega
      have hrange' : rest.flatten.map Given.va = range' (start % 2 ^ 39 + 1 * (stop - start)) (end_ - stop) := by
        rcases hnext with rfl | ⟨rfl, hnext⟩
        · rw [hmid]
          exact ih hstop' (hrange.mono hstop.le) hrest
        · rw [bufferLoop_done hnext] at hrest
          cases hrest
          simp
      have hsum : end_ - start = (stop - start) + (end_ - stop) := by omega
      rw [flatten_cons, map_append, hgiven, hrange', hsum, ← range'_append]
    · rename_i hnot
      cases h
      rw [Nat.sub_eq_zero_of_le (not_lt.mp hnot)]
      rfl

/-! ## Strings and references -/

theorem translatedPa_walked (h : translatedPa mem pt ptr = some pa) : (⟨fromUsize ptr, pa⟩ : Given).Walked pt mem := by
  obtain ⟨pa', hva, hne⟩ := bind_eq_some_iff.mp h
  obtain ⟨-, heq⟩ := ite_none_left_eq_some.mp hne
  cases heq
  obtain ⟨place, hplace, rfl⟩ := map_eq_some_iff.mp hva
  refine ⟨mem place.1 place.2, ?_, ?_⟩
  · rw [PageTable.translate, hplace]
    rfl
  · have hppn := ppn_lt (mem place.1 place.2)
    have hoff : pageOffset (fromUsize ptr) < 4096 := Nat.mod_lt _ (by decide)
    dsimp only
    rw [ofPageNum_eq hppn, PhysAddr.fromUsize]
    simp only [PAGE_SIZE]
    omega

theorem strLoop_walked (h : strLoop mem pt fuel ptr = some (string, given)) : ∀ g ∈ given, g.Walked pt mem := by
  induction fuel generalizing ptr string given with
  | zero => cases h
  | succ fuel ih =>
    obtain ⟨pa, hpa, hrest⟩ := bind_eq_some_iff.mp h
    have hwalked := translatedPa_walked hpa
    dsimp only at hrest
    split at hrest
    · cases hrest
      intro g hg
      rw [mem_singleton.mp hg]
      exact hwalked
    · obtain ⟨⟨string', given'⟩, hloop, heq⟩ := map_eq_some_iff.mp hrest
      cases heq
      intro g hg
      rcases mem_cons.mp hg with rfl | hg
      · exact hwalked
      · exact ih hloop g hg

/-- The bytes of a string are read one after the other, up to the `NUL`. -/
theorem strLoop_addresses (h : strLoop mem pt fuel ptr = some (string, given)) :
    given.map Given.va = (List.range (string.length + 1)).map fun i => fromUsize (ptr + i) := by
  induction fuel generalizing ptr string given with
  | zero => cases h
  | succ fuel ih =>
    obtain ⟨pa, -, hrest⟩ := bind_eq_some_iff.mp h
    dsimp only at hrest
    split at hrest
    · cases hrest
      rfl
    · obtain ⟨⟨string', given'⟩, hloop, heq⟩ := map_eq_some_iff.mp hrest
      cases heq
      rw [map_cons, ih hloop, length_cons, range_succ_eq_map (n := string'.length + 1), map_cons, List.map_map]
      refine congrArg (fromUsize ptr :: ·) (map_congr_left fun i _ => ?_)
      simp only [Function.comp_apply, fromUsize]
      omega

/-- The pages under `size` bytes at `va` are user pages and mapped to consecutive frames. -/
def Contiguous (pt : PageTable) (mem : Memory) (va size : Nat) : Prop :=
  ∃ ppn, ∀ i < size, ∃ pte, pt.leaf mem (floor (va + i)) = some pte ∧ pte.flags &&& .U ≠ 0 ∧
    pte.ppn = ppn + (floor (va + i) - floor va)

/-- One user page is enough for what does not cross its end. -/
theorem contiguous_of_page {pte : PageTableEntry} (hleaf : pt.leaf mem (floor va) = some pte)
    (hu : pte.flags &&& .U ≠ 0) (hfit : pageOffset va + size ≤ PAGE_SIZE) : Contiguous pt mem va size := by
  refine ⟨pte.ppn, ?_⟩
  intro i hi
  have hpage : floor (va + i) = floor va := by
    simp only [floor, pageOffset, PAGE_SIZE] at hfit ⊢
    omega
  rw [hpage]
  exact ⟨pte, hleaf, hu, by rw [Nat.sub_self, Nat.add_zero]⟩

theorem run_ofUser_iff (h : (⟨va, pa⟩ : Given).Walked pt mem) :
    (∀ g ∈ givenRun va pa size, g.OfUser pt mem) ↔ Contiguous pt mem va size := by
  obtain ⟨pte, hpte, hpa⟩ := h
  simp only [pageOffset, PAGE_SIZE] at hpa
  refine ⟨fun h => ⟨pte.ppn, ?_⟩, ?_⟩
  · intro i hi
    obtain ⟨pte', hleaf, hu, hpa'⟩ := h _ (mem_givenRun.mpr ⟨i, hi, rfl⟩)
    refine ⟨pte', hleaf, hu, ?_⟩
    simp only [pageOffset, floor, PAGE_SIZE] at hpa' ⊢
    omega
  · intro ⟨ppn, hpages⟩ g hg
    obtain ⟨i, hi, rfl⟩ := mem_givenRun.mp hg
    -- the first page fixes the frame
    obtain ⟨pte₀, hleaf₀, -, hppn₀⟩ := hpages 0 (by omega)
    obtain ⟨pte', hleaf, hu, hppn⟩ := hpages i hi
    have heq := (leaf_eq_some.mp hleaf₀).1
    rw [Nat.add_zero] at heq hppn₀
    rw [hpte, some.injEq] at heq
    subst heq
    refine ⟨pte', hleaf, hu, ?_⟩
    simp only [pageOffset, floor, PAGE_SIZE] at hppn hppn₀ ⊢
    omega

/-- The upper end of a user address space with root table 16, as `map_trampoline` and `alloc_user_res`
leave it: the trampoline, and below it the trap context of the main thread, both without `U`. -/
def kernelPages : Memory := fun ppn i =>
  if ppn = 16 ∧ i = 511 then new 17 .V
  else if ppn = 17 ∧ i = 511 then new 18 .V
  else if ppn = 18 ∧ i = 511 then new 10 (.R ||| .X ||| .V)
  else if ppn = 18 ∧ i = 510 then new 19 (.R ||| .W ||| .V)
  else 0

end TCore.Mm
