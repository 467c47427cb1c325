/-
  TCore.Mm.Elf — the address space of a program (mm/memory_set.rs, from_elf).

  A segment is mapped with frames that are clear and then its bytes are copied page by page through the new
  entries. A turn of the copy finds its frame as it was cleared, because the pages of an area have frames
  of their own; what is copied later goes to other frames.
-/

import TCore.Mm.Fork
import TCore.Mm.Bytes
import TCore.Mm.UserBuffer

namespace TCore.Mm

open TCore.Lib PageTable
open List Option Mapping VirtAddr MapArea ProgramHeader Function

/-! ## The bytes of a segment -/

namespace MapArea

variable {low n : Nat} {a a' : MapArea} {pt pt' : PageTable} {r r' : Ram} {ms : List Mapping} {frames : List Nat}
  {data : List (BitVec 8)}

/-- The frame with the `i`-th piece of the data. -/
def filled (data : List (BitVec 8)) (i : Nat) : Frame := Frame.copyFromSlice 0 ((data.drop (i * PAGE_SIZE)).take PAGE_SIZE)

theorem byte_filled {i off : Nat} (hoff : off < PAGE_SIZE) :
    (filled data i).byte off = (data[i * PAGE_SIZE + off]?).getD 0 := by
  rw [filled, Frame.byte_copyFromSlice hoff (length_take_le _ _), Frame.byte_zero, getElem?_take_of_lt hoff,
    getElem?_drop]

/-- Behind the data the frames stay clear. -/
theorem filled_eq_zero {i : Nat} (h : data.length ≤ i * PAGE_SIZE) : filled data i = 0 := by
  rw [filled, drop_eq_nil_of_le h]
  rfl

theorem Wf.mapping_inj (hwf : a.Wf) {m m' : Mapping} (hm : m ∈ a.mappings) (hm' : m' ∈ a.mappings) (h : m.vpn = m'.vpn) : m = m' := by
  have hnodup : (a.mappings.map vpn).Nodup := by
    rw [hwf.vpns]
    exact nodup_vpnRange
  exact inj_on_of_nodup_map hnodup hm hm' h

theorem Wf.exists_mapping (hwf : a.Wf) {v : Nat} (hv : v ∈ a.vpnRange) : ∃ m ∈ a.mappings, m.vpn = v := by
  rw [← hwf.vpns] at hv
  exact mem_map.mp hv

/-- The first `n` turns of the copy. -/
theorem copyTurns_spec (data : List (BitVec 8)) (hs : Space low pt r ms frames) (hwf : a.Wf)
    (hin : ∀ m ∈ a.mappings, m ∈ ms ∧ m.ppn ∈ frames)
    (hnodup : (a.mappings.map ppn).Nodup) (hzero : ∀ m ∈ a.mappings, r.mem m.ppn = 0) (hn : n ≤ a.end_ - a.start) :
    ∃ r', (range n).foldlM (a.copyTurn low pt data) r = some r' ∧ Ram.Wrote (· ∈ a.mappings.map ppn) r r' ∧
      ∀ m ∈ a.mappings, r'.mem m.ppn = if m.vpn < a.start + n then filled data (m.vpn - a.start) else 0 := by
  have hinto : ∀ f ∈ a.mappings.map ppn, f ∈ frames := by
    intro f hf
    obtain ⟨m, hm, rfl⟩ := mem_map.mp hf
    exact (hin m hm).2
  induction n with
  | zero =>
    refine ⟨r, rfl, .refl, ?_⟩
    intro m hm
    have hge : a.start ≤ m.vpn := (mem_vpnRange.mp (hwf.vpns ▸ mem_map_of_mem hm)).1
    rw [if_neg (by omega), hzero m hm]
  | succ n ih =>
    obtain ⟨r₁, hloop, hwrote, hfilled⟩ := ih (by omega)
    obtain ⟨m₀, hm₀, hvpn⟩ := hwf.exists_mapping (v := a.start + n) (mem_vpnRange.mpr (by omega))
    have hs₁ := hs.wrote hwrote fun f hf => hs.not_table (hinto f hf)
    obtain ⟨pte, htrans, hppn⟩ := hs₁.translate_mapping (hin m₀ hm₀).1
    obtain ⟨hlow, hend⟩ := hs₁.data_range (hin m₀ hm₀).2
    have hclear : r₁.mem m₀.ppn = 0 := by
      rw [hfilled m₀ hm₀, if_neg (by omega)]
    have hturn : a.copyTurn low pt data r₁ n =
        some { r₁ with mem := update r₁.mem m₀.ppn (filled data n) } := by
      rw [copyTurn, ← hvpn, htrans, bind_some]
      dsimp only
      split
      · rename_i hnil
        have hsame : update r₁.mem m₀.ppn (filled data n) = r₁.mem := by
          rw [filled, hnil, ← hclear]
          exact Function.update_eq_self _ _
        rw [hsame]
      · rw [hppn, Ram.store, if_pos ⟨hlow, hend⟩, hclear, filled]
    refine ⟨{ r₁ with mem := update r₁.mem m₀.ppn (filled data n) }, ?_, hwrote.trans ⟨rfl, ?_⟩, ?_⟩
    · rw [range_succ, foldlM_append, hloop]
      exact congrArg (· >>= _) hturn
    · intro f hf
      refine update_of_ne ?_ _ _
      intro heq
      exact hf (heq ▸ mem_map_of_mem hm₀)
    · intro m hm
      dsimp only
      by_cases hsame : m.vpn = a.start + n
      · obtain rfl := hwf.mapping_inj hm hm₀ (hsame.trans hvpn.symm)
        rw [update_self, if_pos (by omega), hsame, Nat.add_sub_cancel_left]
      · have hne : m.ppn ≠ m₀.ppn := by
          intro heq
          rw [inj_on_of_nodup_map hnodup hm hm₀ heq] at hsame
          exact hsame hvpn
        have hiff : m.vpn < a.start + (n + 1) ↔ m.vpn < a.start + n := by omega
        rw [update_of_ne hne, hfilled m hm]
        simp only [hiff]

/-- The loop makes a turn for each page of data, and at least one. -/
theorem copyData_spec (hs : Space low pt r ms frames) (hwf : a.Wf) (hframed : a.mapType = .framed)
    (hin : ∀ m ∈ a.mappings, m ∈ ms ∧ m.ppn ∈ frames) (hnodup : (a.mappings.map ppn).Nodup)
    (hzero : ∀ m ∈ a.mappings, r.mem m.ppn = 0) (hpages : a.start < a.end_) (hdata : data.length ≤ (a.end_ - a.start) * PAGE_SIZE) :
    ∃ r', a.copyData low pt r data = some r' ∧ Ram.Wrote (· ∈ a.mappings.map ppn) r r' ∧
      ∀ m ∈ a.mappings, r'.mem m.ppn = filled data (m.vpn - a.start) := by
  have hturns : max 1 ((data.length + (PAGE_SIZE - 1)) / PAGE_SIZE) ≤ a.end_ - a.start := by
    simp only [PAGE_SIZE] at hdata ⊢
    omega
  obtain ⟨r', hloop, hwrote, hfilled⟩ := copyTurns_spec data hs hwf hin hnodup hzero hturns
  refine ⟨r', by rw [copyData, if_pos hframed, hloop], hwrote, ?_⟩
  intro m hm
  rw [hfilled m hm]
  have hge : a.start ≤ m.vpn := (mem_vpnRange.mp (hwf.vpns ▸ mem_map_of_mem hm)).1
  split
  · rfl
  · rename_i hnot
    refine (filled_eq_zero ?_).symm
    simp only [PAGE_SIZE] at hnot ⊢
    omega

end MapArea

/-! ## Segments -/

namespace ProgramHeader

def startVpn (ph : ProgramHeader) : Nat := ph.virtualAddr / PAGE_SIZE

def endVpn (ph : ProgramHeader) : Nat := (ph.virtualAddr + ph.memSize + (PAGE_SIZE - 1)) / PAGE_SIZE

/-- The bytes of the segment in the file. -/
def bytes (ph : ProgramHeader) (input : List (BitVec 8)) : List (BitVec 8) := (input.drop ph.offset).take ph.fileSize

/-- A segment as the linker makes it, in the lower half of the address space and within the file. -/
structure Ok (input : List (BitVec 8)) (ph : ProgramHeader) : Prop where
  aligned : ph.virtualAddr % PAGE_SIZE = 0
  nonempty : 0 < ph.memSize
  fileSize_le : ph.fileSize ≤ ph.memSize
  lower : ph.virtualAddr + ph.memSize ≤ 2 ^ 38
  inFile : ph.offset + ph.fileSize ≤ input.length

variable {input : List (BitVec 8)} {ph : ProgramHeader}

theorem Ok.pages (h : ph.Ok input) : ph.startVpn < ph.endVpn ∧ ph.endVpn ≤ 2 ^ 26 := by
  have hnonempty := h.nonempty
  have hlower := h.lower
  simp only [startVpn, endVpn, PAGE_SIZE]
  omega

theorem Ok.mapArea_eq (h : ph.Ok input) : ph.mapArea = some ⟨ph.startVpn, ph.endVpn, [], .framed, ph.mapPerm⟩ := by
  have hlower := h.lower
  have hpages := h.pages
  have hstart : VirtAddr.floor (VirtAddr.fromUsize ph.virtualAddr) = ph.startVpn := by
    simp only [floor, fromUsize, startVpn, PAGE_SIZE]
    omega
  have hend : ceil (fromUsize (ph.virtualAddr + ph.memSize)) = ph.endVpn := by
    simp only [ceil, fromUsize, endVpn, PAGE_SIZE]
    omega
  rw [mapArea, MapArea.new, hstart, hend]
  exact if_pos hpages.1.le

theorem Ok.data_eq (h : ph.Ok input) (hinput : input.length < 2 ^ 64) : ph.data input = some (ph.bytes input) := by
  have hfile := h.inFile
  have hstop : (ph.offset + ph.fileSize) % 2 ^ 64 = ph.offset + ph.fileSize := Nat.mod_eq_of_lt (by omega)
  rw [data, hstop, if_pos (by omega), Nat.add_sub_cancel_left, bytes]

theorem Ok.length_bytes (h : ph.Ok input) : (ph.bytes input).length ≤ (ph.endVpn - ph.startVpn) * PAGE_SIZE := by
  have hle : (ph.bytes input).length ≤ ph.fileSize := length_take_le _ _
  have hsize := h.fileSize_le
  have haligned := h.aligned
  simp only [startVpn, endVpn, PAGE_SIZE] at haligned ⊢
  omega

end ProgramHeader

namespace MemorySet

variable {low strampoline : Nat} {ms ms' : MemorySet} {r₀ r r₁ r' : Ram} {a a' : MapArea} {pt' : PageTable}

theorem push_data_spec {data : List (BitVec 8)} (h : ms.Wf low strampoline r) (hframed : a.mapType = .framed)
    (hempty : a.dataFrames = []) (hend : a.end_ ≤ 2 ^ 27) (hpages : a.start < a.end_)
    (hdata : data.length ≤ (a.end_ - a.start) * PAGE_SIZE)
    (hnew : ∀ v ∈ a.vpnRange, v ∉ (trampoline strampoline :: ms.mappings).map vpn)
    (hfree : 3 * (a.end_ - a.start) ≤ r.free.length) :
    ∃ a' ms' r', ms.push low r a (some data) = some (ms', r') ∧
      Inserted low strampoline ms r a.start a.end_ a.mapPerm a' ms' r' ∧
      ∀ m ∈ a'.mappings, r'.mem m.ppn = filled data (m.vpn - a.start) := by
  obtain ⟨⟨ms₁, r₁⟩, hpush⟩ := isSome_iff_exists.mp (push_isSome h hframed hend hnew hfree)
  obtain ⟨a', hmap, hms₁⟩ := push_none hpush
  have hp := map_spec hframed hempty h.space (vpnRange_lt hend) hmap
  have hi := h.inserted hframed hp
  have hstart : a'.start = a.start := by
    rw [hp.same]
  have hend' : a'.end_ = a.end_ := by
    rw [hp.same]
  have hframed' : a'.mapType = .framed := by
    rw [hp.same]
    exact hframed
  have hframes := hp.wf.frames_eq hframed'
  have hin : ∀ m ∈ a'.mappings, m ∈ trampoline strampoline :: ms.mappings ++ a'.mappings ∧ m.ppn ∈ ms.data ++ a'.frames := by
    intro m hm
    refine ⟨mem_append_right _ hm, mem_append_right _ ?_⟩
    rw [hframes]
    exact mem_map_of_mem hm
  have hnodup : (a'.mappings.map ppn).Nodup := by
    rw [← hframes]
    exact (nodup_append'.mp hp.space.data_nodup).2.1
  have hzero : ∀ m ∈ a'.mappings, r₁.mem m.ppn = 0 := by
    intro m hm
    refine hp.zero _ ?_
    rw [hframes]
    exact mem_map_of_mem hm
  obtain ⟨r', hcopy, hwrote, hfilled⟩ := copyData_spec hp.space hp.wf hframed' hin hnodup hzero
    (by omega) (by rw [hstart, hend']; exact hdata)
  rw [← hframes] at hwrote
  refine ⟨a', _, r', ?_, hi.wrote hwrote, hstart ▸ hfilled⟩
  rw [push, hmap, bind_some]
  dsimp only
  rw [hcopy, map_some]

/-- The area of a segment: its pages, with the bytes of the file and zeros behind them. -/
structure Loaded (input : List (BitVec 8)) (mem : Memory) (frames : List Nat) (ph : ProgramHeader) (a : MapArea) : Prop where
  wf : a.Wf
  area : a = ⟨ph.startVpn, ph.endVpn, a.dataFrames, .framed, ph.mapPerm⟩
  frames : ∀ m ∈ a.mappings, m.ppn ∈ frames
  filled : ∀ m ∈ a.mappings, mem m.ppn = MapArea.filled (ph.bytes input) (m.vpn - ph.startVpn)

/-- The segments `done` have been loaded. `r₀` is the memory before. -/
structure Loading (low strampoline : Nat) (input : List (BitVec 8)) (r₀ : Ram) (done : List ProgramHeader) (ms : MemorySet)
    (r : Ram) : Prop where
  wf : ms.Wf low strampoline r
  trade : Ram.Trade [] r₀ ms.frames r
  segments : List.Forall₂ (Loaded input r.mem ms.data) done ms.areas

section loading

variable {input : List (BitVec 8)} {done rest : List ProgramHeader} {ph : ProgramHeader} {v : Nat}

theorem Loaded.vpns (h : Loaded input r.mem ms.data ph a) : v ∈ a.mappings.map vpn ↔ ph.startVpn ≤ v ∧ v < ph.endVpn := by
  rw [h.wf.vpns, mem_vpnRange, h.area]

theorem Loading.vpns (h : Loading low strampoline input r₀ done ms r) :
    v ∈ ms.mappings.map vpn ↔ ∃ ph ∈ done, ph.startVpn ≤ v ∧ v < ph.endVpn := by
  rw [mappings, map_flatMap, mem_flatMap]
  refine ⟨?_, ?_⟩
  · rintro ⟨a, ha, hv⟩
    obtain ⟨ph, hph, hloaded⟩ := exists_left_of_forall₂ h.segments a ha
    exact ⟨ph, hph, hloaded.vpns.mp hv⟩
  · rintro ⟨ph, hph, hv⟩
    obtain ⟨a, ha, hloaded⟩ := exists_of_forall₂ h.segments ph hph
    exact ⟨a, ha, hloaded.vpns.mpr hv⟩

theorem loadSegment_spec (maxEnd : Nat) (h : Loading low strampoline input r₀ done ms r) (hinput : input.length < 2 ^ 64)
    (hload : ph.load = true) (hok : ph.Ok input) (hapart : ∀ q ∈ done, q.endVpn ≤ ph.startVpn ∨ ph.endVpn ≤ q.startVpn)
    (hfree : 3 * (ph.endVpn - ph.startVpn) ≤ r.free.length) :
    ∃ ms' r', loadSegment low input (ms, r, maxEnd) ph = some (ms', r', ph.endVpn) ∧
      Loading low strampoline input r₀ (done ++ [ph]) ms' r' ∧
      r.free.length ≤ r'.free.length + 3 * (ph.endVpn - ph.startVpn) := by
  obtain ⟨hpages, hend⟩ := hok.pages
  have hnew : ∀ v ∈ (⟨ph.startVpn, ph.endVpn, [], .framed, ph.mapPerm⟩ : MapArea).vpnRange,
      v ∉ (trampoline strampoline :: ms.mappings).map vpn := by
    intro v hv hmem
    obtain ⟨hge, hlt⟩ := mem_vpnRange.mp hv
    dsimp only at hge hlt
    rcases mem_cons.mp hmem with heq | hmem
    · have htop : (trampoline strampoline).vpn = 2 ^ 27 - 1 := trampolineVpn_eq
      omega
    · obtain ⟨q, hq, hqge, hqlt⟩ := h.vpns.mp hmem
      rcases hapart q hq with hle | hle <;> omega
  obtain ⟨a, ms', r', hpush, hi, hfilled⟩ :=
    push_data_spec (a := ⟨ph.startVpn, ph.endVpn, [], .framed, ph.mapPerm⟩) h.wf rfl rfl (by dsimp only; omega) hpages hok.length_bytes
      hnew hfree
  have hdata := hi.data
  have hwfa : a.Wf := hi.wf.areas a (hi.areas ▸ mem_append_right _ (mem_singleton_self a))
  have hframed : a.mapType = .framed := by
    rw [hi.area]
  refine ⟨ms', r', ?_, ⟨hi.wf, h.trade.trans hi.trade, ?_⟩, hi.cost⟩
  · rw [loadSegment, if_pos hload, hok.mapArea_eq, bind_some, hok.data_eq hinput, bind_some, hpush, map_some]
  · rw [hi.areas]
    refine rel_append (h.segments.imp ?_) (.cons ⟨hwfa, hi.area, ?_, hfilled⟩ .nil)
    · intro q b hb
      refine ⟨hb.wf, hb.area, ?_, ?_⟩
      · intro m hm
        rw [hdata]
        exact mem_append_left _ (hb.frames m hm)
      · intro m hm
        rw [hi.kept _ (hb.frames m hm), hb.filled m hm]
    · intro m hm
      rw [hdata, hwfa.frames_eq hframed]
      exact mem_append_right _ (mem_map_of_mem hm)

/-- Headers that are not loaded are skipped. -/
theorem foldlM_loadSegment (phs : List ProgramHeader) (x : MemorySet × Ram × Nat) :
    phs.foldlM (loadSegment low input) x = (phs.filter load).foldlM (loadSegment low input) x := by
  induction phs generalizing x with
  | nil => rfl
  | cons ph phs ih =>
    rw [foldlM_cons]
    cases hload : ph.load with
    | false =>
      have hskip : loadSegment low input x ph = some x := by
        rw [loadSegment, hload]
        rfl
      rw [filter_cons_of_neg (by rw [hload]; exact Bool.false_ne_true), hskip, ← ih x]
      rfl
    | true =>
      rw [filter_cons_of_pos hload, foldlM_cons]
      exact congrArg _ (funext ih)

/-- The page number of the last segment's end, which the loop keeps. -/
def lastEnd (maxEnd : Nat) (phs : List ProgramHeader) : Nat := (phs.getLast?.map endVpn).getD maxEnd

theorem loadSegments_spec (maxEnd : Nat) (h : Loading low strampoline input r₀ done ms r) (hinput : input.length < 2 ^ 64)
    (hload : ∀ ph ∈ rest, ph.load = true) (hok : ∀ ph ∈ rest, ph.Ok input)
    (hapart : (done ++ rest).Pairwise fun p q => p.endVpn ≤ q.startVpn ∨ q.endVpn ≤ p.startVpn)
    (hfree : 3 * (rest.map fun ph => ph.endVpn - ph.startVpn).sum ≤ r.free.length) :
    ∃ ms' r', rest.foldlM (loadSegment low input) (ms, r, maxEnd) = some (ms', r', lastEnd maxEnd rest) ∧
      Loading low strampoline input r₀ (done ++ rest) ms' r' ∧
      r.free.length ≤ r'.free.length + 3 * (rest.map fun ph => ph.endVpn - ph.startVpn).sum := by
  induction rest generalizing done ms r maxEnd with
  | nil =>
    rw [append_nil]
    exact ⟨ms, r, rfl, h, Nat.le_refl _⟩
  | cons ph rest ih =>
    rw [map_cons, sum_cons] at hfree ⊢
    have hfirst : ∀ q ∈ done, q.endVpn ≤ ph.startVpn ∨ ph.endVpn ≤ q.startVpn :=
      fun q hq => (pairwise_append.mp hapart).2.2 q hq ph mem_cons_self
    obtain ⟨ms₁, r₁, hstep, h₁, hcost⟩ := loadSegment_spec maxEnd h hinput (hload ph mem_cons_self)
      (hok ph mem_cons_self) hfirst (by omega)
    obtain ⟨ms', r', hloop, h', hcost'⟩ := ih ph.endVpn h₁ (fun q hq => hload q (mem_cons_of_mem _ hq))
      (fun q hq => hok q (mem_cons_of_mem _ hq)) (by rw [append_assoc]; exact hapart) (by omega)
    refine ⟨ms', r', ?_, by rwa [append_assoc] at h', by omega⟩
    rw [foldlM_cons, hstep]
    refine hloop.trans ?_
    cases rest with
    | nil => rfl
    | cons q rest =>
      rw [lastEnd, lastEnd, getLast?_cons_cons]
      rw [getLast?_eq_some_getLast (cons_ne_nil q rest)]
      rfl

end loading

end MemorySet

/-! ## The whole file -/

/-- The headers of the segments to load. -/
def ElfFile.loads (elf : ElfFile) : List ProgramHeader := elf.programHeaders.filter load

structure ElfFile.Ok (elf : ElfFile) : Prop where
  input : elf.input.length < 2 ^ 64
  segments : ∀ ph ∈ elf.loads, ph.Ok elf.input
  ascending : elf.loads.Pairwise fun p q => p.virtualAddr + p.memSize ≤ q.virtualAddr

/-- A file that can be loaded: no two segments have a page in common. -/
structure ElfFile.Loadable (elf : ElfFile) : Prop where
  input : elf.input.length < 2 ^ 64
  segments : ∀ ph ∈ elf.loads, ph.Ok elf.input
  apart : elf.loads.Pairwise fun p q => p.endVpn ≤ q.startVpn ∨ q.endVpn ≤ p.startVpn

theorem ElfFile.Ok.loadable {elf : ElfFile} (h : elf.Ok) : elf.Loadable := by
  refine ⟨h.input, h.segments, h.ascending.imp_of_mem ?_⟩
  intro p q hp hq hle
  have haligned := (h.segments q hq).aligned
  simp only [startVpn, endVpn, PAGE_SIZE] at haligned ⊢
  omega

/-- The frames that the pages of the segments can take, with those of the tables. -/
def ElfFile.cost (elf : ElfFile) : Nat := 3 + 3 * (elf.loads.map fun ph => ph.endVpn - ph.startVpn).sum

namespace MemorySet

section elf

variable {low strampoline v : Nat} {elf : ElfFile} {ms : MemorySet} {r r' : Ram} {ph : ProgramHeader} {done : List ProgramHeader}
  {input : List (BitVec 8)}

theorem fromElf_spec (hs : r.allocator.Sound) (howned : Ram.Owned low [] r)
    (haligned : pageOffset (PhysAddr.fromUsize strampoline) = 0) (hkernel : (trampoline strampoline).ppn < low) (hok : elf.Loadable)
    (hfree : elf.cost ≤ r.free.length) :
    ∃ ms r', fromElf low strampoline elf r = some ((ms, userStackBase (lastEnd 0 elf.loads), elf.entryPoint), r') ∧
      Loading low strampoline elf.input r elf.loads ms r' ∧ r.free.length ≤ r'.free.length + elf.cost := by
  rw [ElfFile.cost] at hfree ⊢
  obtain ⟨ms₀, r₀, ms₁, r₁, hnew, htramp⟩ := bare_isSome hs howned haligned (by omega)
  obtain ⟨hareas, hwf, htrade, hcost⟩ := bare_spec hs howned hkernel hnew htramp
  have hstart : Loading low strampoline elf.input r [] ms₁ r₁ := ⟨hwf, htrade, hareas ▸ .nil⟩
  have hload : ∀ ph ∈ elf.loads, ph.load = true := fun ph hph => (mem_filter.mp hph).2
  obtain ⟨ms', r', hloop, h', hcost'⟩ := loadSegments_spec 0 hstart hok.input hload hok.segments hok.apart (by omega)
  refine ⟨ms', r', ?_, h', by omega⟩
  rw [fromElf, hnew, bind_some]
  dsimp only
  rw [htramp, bind_some]
  dsimp only
  rw [foldlM_loadSegment]
  exact congrArg (Option.map _) hloop

/-- The bytes of a segment, as they are found through the page table. -/
theorem Loading.byte {k : Nat} (h : Loading low strampoline input r done ms r') (hph : ph ∈ done) (hok : ph.Ok input)
    (hk : k < ph.memSize) :
    (ms.pageTable.physical r'.mem (ph.virtualAddr + k)).map r'.mem.byte = some (((ph.bytes input)[k]?).getD 0) := by
  obtain ⟨a, ha, hloaded⟩ := exists_of_forall₂ h.segments ph hph
  have haligned := hok.aligned
  have hrange : ph.startVpn ≤ floor (ph.virtualAddr + k) ∧ floor (ph.virtualAddr + k) < ph.endVpn := by
    simp only [startVpn, endVpn, floor, PAGE_SIZE]
    omega
  obtain ⟨m, hm, hvpn⟩ := mem_map.mp (hloaded.vpns.mpr hrange)
  have hmem : m ∈ trampoline strampoline :: ms.mappings := mem_cons_of_mem _ (mem_flatMap.mpr ⟨a, ha, hm⟩)
  have hleaf := h.wf.space.shows.leaf hmem
  have hppn := ppn_pte (h.wf.space.shows.bounds m hmem).2
  have hoff : pageOffset (ph.virtualAddr + k) < PAGE_SIZE := Nat.mod_lt _ (by decide)
  have hindex : (m.vpn - ph.startVpn) * PAGE_SIZE + pageOffset (ph.virtualAddr + k) = k := by
    simp only [hvpn, startVpn, floor, pageOffset, PAGE_SIZE] at haligned ⊢
    omega
  rw [physical, ← hvpn, hleaf, map_some, map_some, hppn, Memory.byte_eq hoff, hloaded.filled m hm,
    byte_filled hoff, hindex]

theorem Loading.flags_iff {fl : PTEFlags} (h : Loading low strampoline input r done ms r') (hv : v < 2 ^ 27) :
    (ms.pageTable.leaf r'.mem v).map PageTableEntry.flags = some fl ↔
      (v = trampolineVpn ∧ fl = .R ||| .X ||| .V) ∨ ∃ ph ∈ done, (ph.startVpn ≤ v ∧ v < ph.endVpn) ∧ fl = ph.mapPerm ||| .V := by
  refine ⟨?_, ?_⟩
  · intro hflags
    obtain ⟨pte, hleaf, rfl⟩ := map_eq_some_iff.mp hflags
    obtain ⟨m, hm, rfl, rfl⟩ := (h.wf.space.shows.entries v hv pte).mp hleaf
    rw [flags_pte]
    rcases mem_cons.mp hm with rfl | hm
    · exact .inl ⟨rfl, rfl⟩
    · obtain ⟨a, ha, hm⟩ := mem_flatMap.mp hm
      obtain ⟨ph, hph, hloaded⟩ := exists_left_of_forall₂ h.segments a ha
      refine .inr ⟨ph, hph, hloaded.vpns.mp (mem_map_of_mem hm), ?_⟩
      rw [flags_mappings hm, hloaded.area]
  · intro hcases
    rcases hcases with ⟨hvpn, rfl⟩ | ⟨ph, hph, hrange, rfl⟩
    · have hvpn : v = (trampoline strampoline).vpn := hvpn
      have hleaf := h.wf.space.shows.leaf (m := trampoline strampoline) mem_cons_self
      rw [hvpn, hleaf, map_some, flags_pte]
      rfl
    · obtain ⟨a, ha, hloaded⟩ := exists_of_forall₂ h.segments ph hph
      obtain ⟨m, hm, rfl⟩ := mem_map.mp (hloaded.vpns.mpr hrange)
      rw [h.wf.space.shows.leaf (mem_cons_of_mem _ (mem_flatMap.mpr ⟨a, ha, hm⟩)), map_some, flags_pte,
        flags_mappings hm, hloaded.area]

/-- The segments ascend, so that the last one ends last. -/
theorem lastEnd_spec {phs : List ProgramHeader} (hok : ∀ ph ∈ phs, ph.Ok input)
    (hascending : phs.Pairwise fun p q => p.virtualAddr + p.memSize ≤ q.virtualAddr) :
    lastEnd 0 phs ≤ 2 ^ 26 ∧ (∀ ph ∈ phs, ph.endVpn ≤ lastEnd 0 phs) ∧ (lastEnd 0 phs = 0 ∨ ∃ ph ∈ phs, lastEnd 0 phs = ph.endVpn) := by
  rcases eq_nil_or_concat phs with rfl | ⟨front, last, rfl⟩
  · exact ⟨Nat.zero_le _, fun ph hph => absurd hph not_mem_nil, .inl rfl⟩
  have hlast : lastEnd 0 (front.concat last) = last.endVpn := by
    rw [lastEnd, concat_eq_append, getLast?_append_of_ne_nil _ (cons_ne_nil _ _)]
    rfl
  rw [hlast]
  rw [concat_eq_append] at *
  have hmem : last ∈ front ++ [last] := mem_append_right _ (mem_singleton_self last)
  refine ⟨(hok last hmem).pages.2, ?_, .inr ⟨last, hmem, rfl⟩⟩
  intro ph hph
  rcases mem_append.mp hph with hph | hph
  · have hle := (pairwise_append.mp hascending).2.2 ph hph last (mem_singleton_self last)
    simp only [endVpn, PAGE_SIZE]
    omega
  · rw [mem_singleton] at hph
    exact le_of_eq (congrArg endVpn hph)

/-- The page above `max_end_vpn`, in 39 bits. -/
theorem fromUsize_userStackBase (e : Nat) : fromUsize (userStackBase e) = (e + 1) % 2 ^ 27 * PAGE_SIZE := by
  have hmod : toUsize (ofPageNum e) % 2 ^ 39 = ofPageNum e % 2 ^ 39 := by
    rw [toUsize]
    split
    · rw [Nat.or_mod_two_pow, show (2 ^ 64 - 2 ^ 39) % 2 ^ 39 = 0 by decide, Nat.or_zero]
    · rfl
  have hpage : ofPageNum e % 2 ^ 39 = e % 2 ^ 27 * 2 ^ 12 := by
    rw [ofPageNum]
    omega
  rw [fromUsize, userStackBase, PAGE_SIZE]
  omega

theorem userStackBase_aligned (e : Nat) : userStackBase e % PAGE_SIZE = 0 ∧ userStackBase e < 2 ^ 64 := by
  have hbase := fromUsize_userStackBase e
  rw [fromUsize] at hbase
  refine ⟨?_, Nat.mod_lt _ (by decide)⟩
  rw [PAGE_SIZE] at hbase ⊢
  omega

theorem userStackBase_spec {e : Nat} (he : e ≤ 2 ^ 26) :
    fromUsize (userStackBase e) = (e + 1) * PAGE_SIZE ∧ (e < 2 ^ 26 → userStackBase e = (e + 1) * PAGE_SIZE) := by
  refine ⟨by rw [fromUsize_userStackBase, Nat.mod_eq_of_lt (by omega)], ?_⟩
  intro hlt
  have hpage : ofPageNum e = e * 4096 := by
    rw [ofPageNum]
    omega
  rw [userStackBase, hpage, toUsize, if_neg (by omega), PAGE_SIZE]
  omega

end elf

/-- A file whose segments are as the linker makes them is loaded as it is. -/
theorem elf_loaded_faithfully {low strampoline : Nat} {elf : ElfFile} {r : Ram} (hs : r.allocator.Sound)
    (howned : Ram.Owned low [] r) (haligned : pageOffset (PhysAddr.fromUsize strampoline) = 0)
    (hkernel : (trampoline strampoline).ppn < low) (hok : elf.Ok) (hfree : elf.cost ≤ r.free.length) :
    ∃ ms base r', fromElf low strampoline elf r = some ((ms, base, elf.entryPoint), r') ∧ ms.Wf low strampoline r' ∧
      (∀ ph ∈ elf.loads, ∀ k < ph.fileSize,
        (ms.pageTable.physical r'.mem (ph.virtualAddr + k)).map r'.mem.byte = elf.input[ph.offset + k]?) ∧
      (∀ ph ∈ elf.loads, ∀ k, ph.fileSize ≤ k → k < ph.memSize →
        (ms.pageTable.physical r'.mem (ph.virtualAddr + k)).map r'.mem.byte = some 0) ∧
      (∀ v < 2 ^ 27, ∀ fl, (ms.pageTable.leaf r'.mem v).map PageTableEntry.flags = some fl ↔
        (v = trampolineVpn ∧ fl = .R ||| .X ||| .V) ∨ ∃ ph ∈ elf.loads,
          (ph.virtualAddr < (v + 1) * PAGE_SIZE ∧ v * PAGE_SIZE < ph.virtualAddr + ph.memSize) ∧ fl = ph.mapPerm ||| .V) ∧
      ∃ e, (∀ ph ∈ elf.loads, ph.virtualAddr + ph.memSize ≤ e * PAGE_SIZE) ∧
        (∀ e', (∀ ph ∈ elf.loads, ph.virtualAddr + ph.memSize ≤ e' * PAGE_SIZE) → e ≤ e') ∧
        ms.pageTable.leaf r'.mem e = none ∧
        VirtAddr.fromUsize base = (e + 1) * PAGE_SIZE ∧ (e < 2 ^ 26 → base = (e + 1) * PAGE_SIZE) := by
  obtain ⟨ms, r', helf, hl, -⟩ := fromElf_spec hs howned haligned hkernel hok.loadable hfree
  obtain ⟨hle, hall, hleast⟩ := lastEnd_spec hok.segments hok.ascending
  refine ⟨ms, _, r', helf, hl.wf, ?_, ?_, ?_, lastEnd 0 elf.loads, ?_, ?_, ?_, userStackBase_spec hle⟩
  · intro ph hph k hk
    have hph' := hok.segments ph hph
    rw [hl.byte hph hph' (lt_of_lt_of_le hk hph'.fileSize_le), bytes, getElem?_take_of_lt hk, getElem?_drop]
    have hfile := hph'.inFile
    rw [getElem?_eq_getElem (by omega)]
    rfl
  · intro ph hph k hge hlt
    have hshort : (ph.bytes elf.input).length ≤ k := le_trans (length_take_le _ _) hge
    rw [hl.byte hph (hok.segments ph hph) hlt, getElem?_eq_none hshort]
    rfl
  · intro v hv fl
    rw [hl.flags_iff hv]
    refine or_congr_right (exists_congr fun ph => and_congr_right fun hph => and_congr_left fun _ => ?_)
    have hph' := (hok.segments ph hph).aligned
    simp only [startVpn, endVpn, PAGE_SIZE] at hph' ⊢
    omega
  · intro ph hph
    have hend := hall ph hph
    simp only [endVpn, PAGE_SIZE] at hend ⊢
    omega
  · intro e' he'
    rcases hleast with hzero | ⟨ph, hph, heq⟩
    · omega
    · have hend := he' ph hph
      rw [heq]
      simp only [endVpn, PAGE_SIZE] at hend ⊢
      omega
  · rw [hl.wf.space.shows.leaf_eq_none (by omega)]
    intro hmem
    rcases mem_cons.mp hmem with heq | hmem
    · have htop : (trampoline strampoline).vpn = 2 ^ 27 - 1 := trampolineVpn_eq
      omega
    · obtain ⟨ph, hph, -, hlt⟩ := hl.vpns.mp hmem
      have hend := hall ph hph
      omega

/-- A text segment of two pages, a header that is not loaded, and a data segment. -/
def smallElf : ElfFile where
  input := [1, 2, 3, 4, 5]
  programHeaders := [⟨true, 0x10000, 5000, 1, 3, true, false, true⟩, ⟨false, 0, 0, 0, 0, false, false, false⟩,
    ⟨true, 0x12000, 10, 0, 5, true, true, false⟩]
  entryPoint := 0x10000

theorem smallElf_ok : smallElf.Ok := by
  refine ⟨by decide, ?_, by decide⟩
  intro ph hph
  rcases mem_cons.mp hph with rfl | hph
  · exact ⟨by decide, by decide, by decide, by decide, by decide⟩
  · rw [mem_singleton.mp hph]
    exact ⟨by decide, by decide, by decide, by decide, by decide⟩

theorem elf_loaded_small : ∃ ms base r', fromElf 0x80400 0x80200000 smallElf ⟨.init 0x80400 0x80500, 0⟩ =
    some ((ms, base, 0x10000), r') ∧ base = 0x14000 ∧ ms.pageTable.leaf r'.mem 0x13 = none ∧
      (ms.pageTable.physical r'.mem 0x10001).map r'.mem.byte = some 3 := by
  have hlen : (⟨.init 0x80400 0x80500, 0⟩ : Ram).free.length = 256 := length_range'
  have hcost : smallElf.cost ≤ 256 := by decide
  have haligned : pageOffset (PhysAddr.fromUsize 0x80200000) = 0 := by decide
  obtain ⟨ms, base, r', helf, -, hbytes, -, -, e, hend, hleast, hguard, -, hbase⟩ :=
    elf_loaded_faithfully (StackFrameAllocator.sound_init (by decide) (by decide)) Ram.owned_init haligned (by decide) smallElf_ok
      (hlen ▸ hcost)
  have hdata := hend ⟨true, 0x12000, 10, 0, 5, true, true, false⟩ (mem_cons_of_mem _ mem_cons_self)
  have he := hleast 0x13 (by decide)
  simp only [PAGE_SIZE] at hdata
  obtain rfl : e = 0x13 := by omega
  exact ⟨ms, base, r', helf, hbase (by decide), hguard, hbytes ⟨true, 0x10000, 5000, 1, 3, true, false, true⟩ mem_cons_self 1
    (by decide)⟩

end MemorySet

/-! ## Any file

The data of a segment can be longer than the segment: the copy then goes on in the pages behind it. It
stays in frames of the memory set, because a page that is not mapped leads to frame 0. -/

theorem MapArea.copyTurns_wrote {low : Nat} {a : MapArea} {pt : PageTable} {r r' : Ram} {ms : List Mapping} {frames is : List Nat}
    {data : List (BitVec 8)} (hs : Space low pt r ms frames) (hlow : ∀ m ∈ ms, low ≤ m.ppn → m.ppn ∈ frames) (hpos : 0 < low)
    (h : is.foldlM (a.copyTurn low pt data) r = some r') : Ram.Wrote (· ∈ frames) r r' := by
  induction is generalizing r with
  | nil =>
    cases h
    exact .refl
  | cons i is ih =>
    rw [foldlM_cons] at h
    obtain ⟨r₁, hturn, hrest⟩ := bind_eq_some_iff.mp h
    obtain ⟨pte, hpte, hstore⟩ := bind_eq_some_iff.mp hturn
    have hw₁ : Ram.Wrote (· ∈ frames) r r₁ := by
      dsimp only at hstore
      split at hstore
      · cases hstore
        exact .refl
      · obtain ⟨hge, hwrote⟩ := Ram.store_wrote hstore
        refine hwrote.mono fun f hf => hf ▸ ?_
        rcases hs.shows.translate hpte with ⟨m, hm, -, rfl⟩ | rfl
        · have hppn := ppn_pte (hs.shows.bounds m hm).2
          rw [hppn] at hge ⊢
          exact hlow m hm hge
        · have hzero : PageTableEntry.ppn .empty = 0 := by decide
          omega
    exact hw₁.trans (ih (hs.wrote hw₁ fun f hf => hs.not_table hf) hrest)

/-- The area that a header stands for, before it is mapped. -/
def ProgramHeader.Gives (ph : ProgramHeader) (a : MapArea) : Prop := ph.load = true ∧ ph.mapArea = some a

namespace MemorySet

variable {low strampoline : Nat} {ms ms' : MemorySet} {r r' : Ram} {a : MapArea} {data : List (BitVec 8)} {elf : ElfFile}

/-- Framed areas have been added behind the others, and frames of the memory set may have been written to. -/
structure Grown (low strampoline : Nat) (new : MapArea → Prop) (ms : MemorySet) (r : Ram) (ms' : MemorySet) (r' : Ram) : Prop where
  framed : ∀ a ∈ ms'.areas, a.mapType = .framed
  wf : ms'.Wf low strampoline r'
  trade : Ram.Trade ms.frames r ms'.frames r'
  areas : ∀ a ∈ ms'.areas, a ∈ ms.areas ∨ new a

theorem push_data_grown (h : ms.Wf low strampoline r) (hframed : ∀ a ∈ ms.areas, a.mapType = .framed) (ha : a.mapType = .framed)
    (hempty : a.dataFrames = []) (hend : a.end_ ≤ 2 ^ 27) (hpush : ms.push low r a (some data) = some (ms', r')) :
    Grown low strampoline (fun b => b.start = a.start ∧ b.end_ = a.end_) ms r ms' r' := by
  obtain ⟨⟨a', pt', r₁⟩, hmap, hrest⟩ := bind_eq_some_iff.mp hpush
  obtain ⟨r₂, hcopy, heq⟩ := map_eq_some_iff.mp hrest
  cases heq
  have hi := h.inserted ha (map_spec ha hempty h.space (vpnRange_lt hend) hmap)
  have hall := hi.framed hframed
  have hlow : ∀ m ∈ trampoline strampoline :: (⟨pt', ms.areas ++ [a']⟩ : MemorySet).mappings, low ≤ m.ppn →
      m.ppn ∈ (⟨pt', ms.areas ++ [a']⟩ : MemorySet).data := by
    intro m hm hge
    rcases mem_cons.mp hm with rfl | hm
    · exact absurd h.kernel (not_lt.mpr hge)
    · rw [hi.wf.data_eq hall]
      exact mem_map_of_mem hm
  obtain ⟨-, hloop⟩ := ite_none_right_eq_some.mp hcopy
  have hw := copyTurns_wrote hi.wf.space hlow (lt_of_le_of_lt (Nat.zero_le _) h.kernel) hloop
  refine ⟨hall, ⟨h.aligned, h.kernel, hi.wf.areas, hi.wf.space.wrote hw fun f hf => hi.wf.space.not_table hf⟩, ?_, ?_⟩
  · exact hi.trade.trans ((hw.mono fun f hf => mem_append_left _ hf).trade hi.trade.sound)
  · intro b hb
    rcases mem_append.mp hb with hb | hb
    · exact .inl hb
    · rw [mem_singleton] at hb
      rw [hb, hi.area]
      exact .inr ⟨rfl, rfl⟩

/-- What `max_end_vpn` is after the headers: the end of the last one that is loaded. -/
def EndOf (phs : List ProgramHeader) (e e' : Nat) : Prop :=
  (phs.filter load = [] ∧ e' = e) ∨
    ∃ last a, (phs.filter load).getLast? = some last ∧ last.Gives a ∧ e' = a.end_

theorem EndOf.append {phs phs' : List ProgramHeader} {e e₁ e' : Nat} (h : EndOf phs e e₁) (h' : EndOf phs' e₁ e') :
    EndOf (phs ++ phs') e e' := by
  rcases h' with ⟨hnone, rfl⟩ | ⟨last, a, hlast, hgives⟩
  · rw [EndOf, filter_append, hnone, append_nil]
    exact h
  · refine .inr ⟨last, a, ?_, hgives⟩
    rw [filter_append, getLast?_append, hlast, some_or]

/-- Some header stands for an area with the pages of this one. -/
def OfHeader (phs : List ProgramHeader) (b : MapArea) : Prop :=
  ∃ ph ∈ phs, ∃ a, ph.Gives a ∧ b.start = a.start ∧ b.end_ = a.end_

section

variable (h : ms.Wf low strampoline r) (hframed : ∀ a ∈ ms.areas, a.mapType = .framed)
include h hframed

theorem loadSegment_grown {input : List (BitVec 8)} {ph : ProgramHeader} {e e' : Nat} (hload : loadSegment low input (ms, r, e) ph = some (ms', r', e')) :
    Grown low strampoline (OfHeader [ph]) ms r ms' r' ∧ EndOf [ph] e e' := by
  rw [loadSegment] at hload
  split at hload
  · rename_i hyes
    obtain ⟨a, harea, hrest⟩ := bind_eq_some_iff.mp hload
    obtain ⟨data, -, hrest⟩ := bind_eq_some_iff.mp hrest
    obtain ⟨⟨ms₁, r₁⟩, hpush, heq⟩ := map_eq_some_iff.mp hrest
    cases heq
    have hgives : ph.Gives a := ⟨hyes, harea⟩
    obtain ⟨-, heq⟩ := ite_none_right_eq_some.mp harea
    cases heq
    have hgrown := push_data_grown h hframed rfl rfl (ceil_le (Nat.mod_lt _ (by decide))) hpush
    refine ⟨{ hgrown with areas := fun b hb => (hgrown.areas b hb).imp id fun hb => ?_ }, .inr ⟨ph, _, ?_, hgives, rfl⟩⟩
    · exact ⟨ph, mem_singleton_self ph, _, hgives, hb⟩
    · rw [filter_singleton, hyes]
      rfl
  · rename_i hno
    cases hload
    exact ⟨⟨hframed, h, .refl h.space.sound, fun a ha => .inl ha⟩, .inl ⟨filter_cons_of_neg hno, rfl⟩⟩

theorem loadSegments_grown {input : List (BitVec 8)} {phs : List ProgramHeader} {e e' : Nat}
    (hload : phs.foldlM (loadSegment low input) (ms, r, e) = some (ms', r', e')) :
    Grown low strampoline (OfHeader phs) ms r ms' r' ∧ EndOf phs e e' := by
  induction phs generalizing ms r e with
  | nil =>
    cases hload
    exact ⟨⟨hframed, h, .refl h.space.sound, fun a ha => .inl ha⟩, .inl ⟨rfl, rfl⟩⟩
  | cons ph phs ih =>
    rw [foldlM_cons] at hload
    obtain ⟨⟨ms₁, r₁, e₁⟩, hstep, hrest⟩ := bind_eq_some_iff.mp hload
    obtain ⟨h₁, he₁⟩ := loadSegment_grown h hframed hstep
    obtain ⟨h₂, he₂⟩ := ih h₁.wf h₁.framed hrest
    refine ⟨⟨h₂.framed, h₂.wf, h₁.trade.trans h₂.trade, ?_⟩, he₁.append he₂⟩
    intro b hb
    rcases h₂.areas b hb with hb | ⟨q, hq, hgives⟩
    · rcases h₁.areas b hb with hb | ⟨q, hq, hgives⟩
      · exact .inl hb
      · exact .inr ⟨q, mem_singleton.mp hq ▸ mem_cons_self, hgives⟩
    · exact .inr ⟨q, mem_cons_of_mem _ hq, hgives⟩

end

/-- What `from_elf` returns, whatever the file is. -/
structure OfFile (low strampoline : Nat) (elf : ElfFile) (r : Ram) (ms : MemorySet) (base : Nat) (r' : Ram) : Prop where
  framed : ∀ a ∈ ms.areas, a.mapType = .framed
  wf : ms.Wf low strampoline r'
  trade : Ram.Trade [] r ms.frames r'
  areas : ∀ a ∈ ms.areas, OfHeader elf.programHeaders a
  base : ∃ e, base = userStackBase e ∧ EndOf elf.programHeaders 0 e

theorem fromElf_ofFile {base entry : Nat} (hs : r.allocator.Sound) (howned : Ram.Owned low [] r)
    (hkernel : (trampoline strampoline).ppn < low) (h : fromElf low strampoline elf r = some ((ms, base, entry), r')) :
    OfFile low strampoline elf r ms base r' := by
  obtain ⟨⟨ms₀, r₀⟩, hnew, hrest⟩ := bind_eq_some_iff.mp h
  obtain ⟨⟨ms₁, r₁⟩, htramp, hrest⟩ := bind_eq_some_iff.mp hrest
  obtain ⟨⟨ms₂, r₂, e⟩, hloop, heq⟩ := map_eq_some_iff.mp hrest
  simp only [Prod.mk.injEq] at heq
  obtain ⟨⟨rfl, hbase, -⟩, rfl⟩ := heq
  obtain ⟨hareas, hwf, htrade, -⟩ := bare_spec hs howned hkernel hnew htramp
  obtain ⟨hgrown, he⟩ := loadSegments_grown hwf (fun a ha => absurd (hareas ▸ ha) not_mem_nil) hloop
  refine ⟨hgrown.framed, hgrown.wf, htrade.trans hgrown.trade, ?_, e, hbase.symm, he⟩
  intro a ha
  rcases hgrown.areas a ha with hmem | hheader
  · rw [hareas] at hmem
    cases hmem
  · exact hheader

theorem OfFile.aligned {base : Nat} (h : OfFile low strampoline elf r ms base r') : base % PAGE_SIZE = 0 ∧ base < 2 ^ 64 := by
  obtain ⟨e, hbase, -⟩ := h.base
  rw [hbase]
  exact userStackBase_aligned e

end MemorySet

end TCore.Mm
