/-
  TCore.Mm.KernelSpace — the address space of the kernel (mm/memory_set.rs, linker-qemu.ld).

  `new_kernel` maps the sections of the kernel, the memory behind it and the registers of the devices each page
  to the frame of the same number, and the trampoline to the last page.
-/

import TCore.Mm.Space

namespace TCore.Mm

open TCore.Lib PageTable
open List Option Mapping VirtAddr MapArea MemorySet PhysAddr

def MEMORY_END : Nat := 0x88000000
def BASE_ADDRESS : Nat := 0x80200000
def MMIO : List (Nat × Nat) := [(0x100000, 0x2000), (0x2000000, 0x10000), (0xc000000, 0x210000), (0x10000000, 0x9000)]

/-- The symbols of the linker script. -/
structure KernelImage where
  strampoline : Nat
  etext : Nat
  erodata : Nat
  edata : Nat
  ebss : Nat
  sorted : BASE_ADDRESS ≤ strampoline ∧ strampoline + PAGE_SIZE ≤ etext ∧ etext ≤ erodata ∧ erodata ≤ edata ∧ edata ≤ ebss ∧
    ebss ≤ MEMORY_END
  aligned : strampoline % PAGE_SIZE = 0 ∧ etext % PAGE_SIZE = 0 ∧ erodata % PAGE_SIZE = 0 ∧ edata % PAGE_SIZE = 0 ∧ ebss % PAGE_SIZE = 0

namespace KernelImage

def stext (_ : KernelImage) : Nat := BASE_ADDRESS
def srodata (k : KernelImage) : Nat := k.etext
def sdata (k : KernelImage) : Nat := k.erodata
def sbssWithStack (k : KernelImage) : Nat := k.edata
def ekernel (k : KernelImage) : Nat := k.ebss

/-- The first frame that `init_frame_allocator` hands out. -/
def low (k : KernelImage) : Nat := (PhysAddr.fromUsize k.ekernel - 1 + PAGE_SIZE) / PAGE_SIZE

end KernelImage

/-- A range of addresses that the kernel maps, and its permissions. -/
structure Part where
  start : Nat
  end_ : Nat
  perm : PTEFlags

def KernelImage.parts (k : KernelImage) : List Part :=
  [⟨k.stext, k.etext, .R ||| .X⟩, ⟨k.srodata, k.erodata, .R⟩, ⟨k.sdata, k.edata, .R ||| .W⟩, ⟨k.sbssWithStack, k.ebss, .R ||| .W⟩,
    ⟨k.ekernel, MEMORY_END, .R ||| .W⟩] ++ MMIO.map fun pair => ⟨pair.1, pair.1 + pair.2, .R ||| .W⟩

namespace MemorySet

def pushPart (low : Nat) (x : MemorySet × Ram) (p : Part) : Option (MemorySet × Ram) :=
  (MapArea.new (VirtAddr.fromUsize p.start) (VirtAddr.fromUsize p.end_) .identical p.perm).bind fun area => x.1.push low x.2 area none

def newKernel (k : KernelImage) (r : Ram) : Option (MemorySet × Ram) :=
  (newBare r).bind fun (ms, r) =>
    (ms.mapTrampoline k.strampoline r).bind fun (ms, r) => k.parts.foldlM (pushPart k.low) (ms, r)

end MemorySet

/-! ## Areas of the kernel -/

namespace MapArea

/-- Each page is mapped to the frame of its number. -/
def identicalMappings (a : MapArea) : List Mapping := a.vpnRange.map fun v => ⟨v, v, a.mapPerm⟩

variable {low start n w : Nat} {a a' : MapArea} {pt pt' : PageTable} {r r' : Ram} {ms : List Mapping} {data vs : List Nat}

section

variable (hid : a.mapType = .identical)
include hid

theorem mapOne_identical {v : Nat} :
    a.mapOne pt r v = (pt.map r v v a.mapPerm).map fun (pt, r) => (a, pt, r) := by
  unfold mapOne
  rw [hid]

theorem mapPages_identical (hs : Space low pt r ms data) (hv : ∀ v ∈ vs, v < 2 ^ 27)
    (h : a.mapPages pt r vs = some (a', pt', r')) :
    a' = a ∧ Space low pt' r' (ms ++ vs.map fun v => ⟨v, v, a.mapPerm⟩) data ∧ Ram.Trade (data ++ pt.frames) r (data ++ pt'.frames) r' := by
  induction vs generalizing pt r ms with
  | nil =>
    cases h
    rw [map_nil, append_nil]
    exact ⟨rfl, hs, .refl hs.sound⟩
  | cons v vs ih =>
    obtain ⟨⟨a₁, pt₁, r₁⟩, hone, hrest⟩ := bind_eq_some_iff.mp h
    rw [mapOne_identical hid] at hone
    obtain ⟨⟨pt₂, r₂⟩, hmap, heq⟩ := map_eq_some_iff.mp hone
    cases heq
    have hv₁ := hv v mem_cons_self
    obtain ⟨hs₁, htrade₁, -, -⟩ := hs.map hv₁ (hv₁.trans (by decide)) hmap
    obtain ⟨heq, hs', htrade'⟩ := ih hs₁ (fun u hu => hv u (mem_cons_of_mem _ hu)) hrest
    refine ⟨heq, ?_, htrade₁.trans htrade'⟩
    rw [append_assoc] at hs'
    exact hs'

/-- Where the page before is mapped, only a page that begins a block of 512 needs tables. -/
theorem mapPages_isSome_of_prev {extra : Nat} (hs : Space low pt r ms data) (hend : start + n ≤ 2 ^ 27)
    (hnew : ∀ v, start ≤ v → v < start + n → v ∉ ms.map vpn) (hprev : pt.leaf r.mem (start - 1) ≠ none ∨ extra = 2)
    (hfree : 2 * ((start + n - 1) / 512 - (start - 1) / 512) + extra ≤ r.free.length) :
    ∃ pt' r', a.mapPages pt r (range' start n) = some (a, pt', r') ∧
      r.free.length ≤ r'.free.length + (2 * ((start + n - 1) / 512 - (start - 1) / 512) + extra) := by
  induction n generalizing start pt r ms extra with
  | zero => exact ⟨pt, r, rfl, by omega⟩
  | succ n ih =>
    have hstart : start < 2 ^ 27 := by omega
    have hleaf : pt.leaf r.mem start = none := (hs.shows.leaf_eq_none hstart).mpr (hnew start (Nat.le_refl _) (by omega))
    have hone : ∃ pt₁ r₁, pt.map r start start a.mapPerm = some (pt₁, r₁) ∧
        r.free.length ≤ r₁.free.length + (2 * (start / 512 - (start - 1) / 512) + extra) := by
      by_cases hblock : start / 512 = (start - 1) / 512 ∧ pt.leaf r.mem (start - 1) ≠ none
      · obtain ⟨r₁, hmap, halloc⟩ : ∃ r₁, pt.map r start start a.mapPerm = some (pt, r₁) ∧ r₁.allocator = r.allocator :=
          map_of_find (findPte_of_block hblock.1 hblock.2) hleaf
        refine ⟨pt, r₁, hmap, ?_⟩
        rw [Ram.free, Ram.free, halloc]
        omega
      · have htwo : 2 ≤ 2 * (start / 512 - (start - 1) / 512) + extra := by
          rcases hprev with hprev | hextra
          · have hne : start / 512 ≠ (start - 1) / 512 := fun heq => hblock ⟨heq, hprev⟩
            omega
          · omega
        have hsome : (pt.map r start start a.mapPerm).isSome := map_isSome hs.table hs.sound (by omega) hleaf
        obtain ⟨⟨pt₁, r₁⟩, hmap⟩ := isSome_iff_exists.mp hsome
        have hcost : r.free.length ≤ r₁.free.length + 2 := map_cost hs.sound hmap
        exact ⟨pt₁, r₁, hmap, by omega⟩
    obtain ⟨pt₁, r₁, hmap, hcost⟩ := hone
    obtain ⟨hs₁, -, -, -⟩ := hs.map hstart (hstart.trans (by decide)) hmap
    have hmapped : pt₁.leaf r₁.mem (start + 1 - 1) ≠ none := by
      have hleaf₁ := hs₁.shows.leaf (mem_append_right _ (mem_singleton_self _))
      rw [Nat.add_sub_cancel, hleaf₁]
      exact some_ne_none _
    have hnew₁ : ∀ v, start + 1 ≤ v → v < start + 1 + n → v ∉ (ms ++ [(⟨start, start, a.mapPerm⟩ : Mapping)]).map vpn := by
      intro v hge hlt hmem
      rw [map_append, mem_append, map_singleton, mem_singleton] at hmem
      rcases hmem with hmem | heq
      · exact hnew v (by omega) (by omega) hmem
      · dsimp only at heq
        omega
    have hfree₁ : 2 * ((start + 1 + n - 1) / 512 - (start + 1 - 1) / 512) + 0 ≤ r₁.free.length := by omega
    obtain ⟨pt', r', hrest, hcost'⟩ := ih hs₁ (by omega) hnew₁ (.inl hmapped) hfree₁
    refine ⟨pt', r', ?_, by omega⟩
    rw [range'_succ, mapPages, mapOne_identical hid, hmap, map_some, bind_some]
    exact hrest

end

/-- The tables that mapping `n` consecutive pages takes at most. -/
def tablesFor (n : Nat) : Nat := 4 + 2 * (n / 512)

theorem map_identical_isSome (hid : a.mapType = .identical) (hs : Space low pt r ms data) (hend : a.end_ ≤ 2 ^ 27) (hle : a.start ≤ a.end_)
    (hnew : ∀ v ∈ a.vpnRange, v ∉ ms.map vpn) (hfree : tablesFor (a.end_ - a.start) ≤ r.free.length) :
    ∃ pt' r', a.map pt r = some (a, pt', r') ∧ r.free.length ≤ r'.free.length + tablesFor (a.end_ - a.start) := by
  unfold tablesFor at hfree ⊢
  have hrange : ∀ v, a.start ≤ v → v < a.start + (a.end_ - a.start) → v ∉ ms.map vpn := by
    intro v hge hlt
    exact hnew v (mem_vpnRange.mpr ⟨hge, by omega⟩)
  obtain ⟨pt', r', hmap, hcost⟩ := mapPages_isSome_of_prev hid hs (by omega) hrange (.inr rfl) (by omega)
  exact ⟨pt', r', hmap, by omega⟩

end MapArea

/-! ## The memory set of the kernel -/

/-- The area of a part. -/
def Part.area (p : Part) : MapArea :=
  ⟨VirtAddr.floor (VirtAddr.fromUsize p.start), VirtAddr.ceil (VirtAddr.fromUsize p.end_), [], .identical, p.perm⟩

/-- A part of whole pages. -/
structure Part.Ok (p : Part) : Prop where
  aligned : p.start % PAGE_SIZE = 0 ∧ p.end_ % PAGE_SIZE = 0
  le : 0 < p.start ∧ p.start ≤ p.end_
  bound : p.end_ ≤ MEMORY_END

namespace Part

variable {p : Part}

theorem Ok.start_eq (h : p.Ok) : p.area.start = p.start / PAGE_SIZE := by
  have hle := h.le
  have hbound := h.bound
  simp only [area, VirtAddr.floor, VirtAddr.fromUsize, PAGE_SIZE, MEMORY_END] at hbound ⊢
  omega

theorem Ok.end_eq (h : p.Ok) : p.area.end_ = p.end_ / PAGE_SIZE := by
  have hle := h.le
  have hbound := h.bound
  have haligned := h.aligned
  simp only [area, VirtAddr.ceil, VirtAddr.fromUsize, PAGE_SIZE, MEMORY_END] at haligned hbound ⊢
  omega

theorem Ok.area_le (h : p.Ok) : p.area.start ≤ p.area.end_ := by
  rw [h.start_eq, h.end_eq]
  exact Nat.div_le_div_right h.le.2

theorem Ok.area_end (h : p.Ok) : p.area.end_ ≤ MEMORY_END / PAGE_SIZE := by
  rw [h.end_eq]
  exact Nat.div_le_div_right h.bound

theorem Ok.new (h : p.Ok) : MapArea.new (VirtAddr.fromUsize p.start) (VirtAddr.fromUsize p.end_) .identical p.perm = some p.area :=
  if_pos h.area_le

end Part

namespace KernelImage

variable (k : KernelImage)

def areas : List MapArea := k.parts.map Part.area

/-- What the kernel maps for good. -/
def mappings : List Mapping := MemorySet.trampoline k.strampoline :: k.areas.flatMap MapArea.identicalMappings

theorem parts_ok : ∀ p ∈ k.parts, p.Ok := by
  have hsorted := k.sorted
  have haligned := k.aligned
  simp only [BASE_ADDRESS, MEMORY_END, PAGE_SIZE] at hsorted haligned
  intro p hp
  simp only [parts, MMIO, stext, srodata, sdata, sbssWithStack, ekernel, BASE_ADDRESS, MEMORY_END, map_cons, map_nil,
    cons_append, nil_append, mem_cons, not_mem_nil, or_false] at hp
  rcases hp with rfl | rfl | rfl | rfl | rfl | rfl | rfl | rfl | rfl
  all_goals refine ⟨?_, ?_, ?_⟩ <;> dsimp only [PAGE_SIZE, MEMORY_END] <;> omega

theorem parts_apart : k.parts.Pairwise fun p q => p.end_ ≤ q.start ∨ q.end_ ≤ p.start := by
  have hsorted := k.sorted
  simp only [BASE_ADDRESS, MEMORY_END, PAGE_SIZE] at hsorted
  simp only [parts, MMIO, stext, srodata, sdata, sbssWithStack, ekernel, BASE_ADDRESS, MEMORY_END, map_cons, map_nil,
    cons_append, nil_append, pairwise_cons, mem_cons, not_mem_nil, or_false, forall_eq_or_imp, forall_eq,
    IsEmpty.forall_iff, implies_true, Pairwise.nil, and_true]
  omega

/-- The kernel's own mappings are in the lower half, but for the trampoline. -/
theorem mappings_vpn : ∀ m ∈ k.mappings, m.vpn < 2 ^ 26 ∨ m.vpn = 2 ^ 27 - 1 := by
  intro m hm
  rcases mem_cons.mp hm with rfl | hm
  · exact .inr trampolineVpn_eq
  · obtain ⟨a, ha, hm⟩ := mem_flatMap.mp hm
    obtain ⟨p, hp, rfl⟩ := mem_map.mp ha
    obtain ⟨v, hv, rfl⟩ := mem_map.mp hm
    have hlt := (mem_vpnRange.mp hv).2.trans_le (k.parts_ok p hp).area_end
    exact .inl (hlt.trans (by decide))

theorem areas_start : ∀ a ∈ k.areas, a.start < 2 ^ 26 := by
  intro a ha
  obtain ⟨p, hp, rfl⟩ := mem_map.mp ha
  have hle := (k.parts_ok p hp).area_le.trans (k.parts_ok p hp).area_end
  exact hle.trans_lt (by decide)

theorem low_eq : k.low = k.ebss / PAGE_SIZE := by
  have hsorted := k.sorted
  have haligned := k.aligned
  simp only [low, ekernel, PhysAddr.fromUsize, BASE_ADDRESS, MEMORY_END, PAGE_SIZE] at hsorted haligned ⊢
  omega

theorem trampoline_aligned : pageOffset (PhysAddr.fromUsize k.strampoline) = 0 := by
  have haligned := k.aligned.1
  simp only [pageOffset, PhysAddr.fromUsize, PAGE_SIZE] at haligned ⊢
  omega

/-- The trampoline is a page of the kernel. -/
theorem trampoline_low : (trampoline k.strampoline).ppn < k.low := by
  have hsorted := k.sorted
  rw [low_eq]
  simp only [MemorySet.trampoline, PhysAddr.fromUsize, BASE_ADDRESS, MEMORY_END, PAGE_SIZE] at hsorted ⊢
  omega

end KernelImage

namespace MemorySet

variable {low : Nat} {ms ms' : MemorySet} {r r' : Ram} {maps : List Mapping} {data : List Nat} {p : Part} {parts : List Part}
  {k : KernelImage}

theorem pushPart_spec (hp : p.Ok) (hs : Space low ms.pageTable r maps data) (h : pushPart low (ms, r) p = some (ms', r')) :
    ms'.areas = ms.areas ++ [p.area] ∧ Space low ms'.pageTable r' (maps ++ p.area.identicalMappings) data := by
  unfold pushPart at h
  rw [hp.new, bind_some] at h
  obtain ⟨a', hmap, hms'⟩ := push_none h
  have hbound : ∀ v ∈ p.area.vpnRange, v < 2 ^ 27 := by
    intro v hv
    exact ((mem_vpnRange.mp hv).2.trans_le hp.area_end).trans (by decide)
  obtain ⟨rfl, hs', -⟩ := mapPages_identical rfl hs hbound hmap
  refine ⟨?_, hs'⟩
  rw [hms']

theorem pushParts_spec (hok : ∀ p ∈ parts, p.Ok) (hs : Space low ms.pageTable r maps data)
    (h : parts.foldlM (pushPart low) (ms, r) = some (ms', r')) :
    ms'.areas = ms.areas ++ parts.map Part.area ∧
      Space low ms'.pageTable r' (maps ++ (parts.map Part.area).flatMap identicalMappings) data := by
  induction parts generalizing ms r maps with
  | nil =>
    cases h
    rw [map_nil, append_nil, flatMap_nil, append_nil]
    exact ⟨rfl, hs⟩
  | cons p parts ih =>
    obtain ⟨⟨ms₁, r₁⟩, hone, hrest⟩ := bind_eq_some_iff.mp h
    obtain ⟨hareas, hs₁⟩ := pushPart_spec (hok p mem_cons_self) hs hone
    obtain ⟨hareas', hs'⟩ := ih (fun q hq => hok q (mem_cons_of_mem _ hq)) hs₁ hrest
    refine ⟨?_, ?_⟩
    · rw [hareas', hareas, append_assoc]
      rfl
    · rw [append_assoc] at hs'
      exact hs'

/-- What the kernel has mapped at boot. -/
theorem newKernel_spec (hs : r.allocator.Sound) (howned : Ram.Owned k.low [] r) (h : newKernel k r = some (ms, r')) :
    ms.areas = k.areas ∧ Space k.low ms.pageTable r' k.mappings [] := by
  obtain ⟨⟨ms₀, r₀⟩, hnew, h⟩ := bind_eq_some_iff.mp h
  obtain ⟨⟨ms₁, r₁⟩, htramp, h⟩ := bind_eq_some_iff.mp h
  obtain ⟨hareas, hwf, -, -⟩ := bare_spec hs howned k.trampoline_low hnew htramp
  have hspace := hwf.space
  rw [mappings, data, hareas, flatMap_nil, flatMap_nil] at hspace
  obtain ⟨hareas', hspace'⟩ := pushParts_spec k.parts_ok hspace h
  refine ⟨?_, hspace'⟩
  rw [hareas', hareas, nil_append]
  rfl

/-- The tables for all the parts. -/
def tablesForParts (parts : List Part) : Nat := (parts.map fun p => MapArea.tablesFor (p.area.end_ - p.area.start)).sum

theorem pushParts_isSome (hok : ∀ p ∈ parts, p.Ok) (hapart : parts.Pairwise fun p q => p.end_ ≤ q.start ∨ q.end_ ≤ p.start)
    (hs : Space low ms.pageTable r maps data) (hnew : ∀ p ∈ parts, ∀ v ∈ p.area.vpnRange, v ∉ maps.map vpn)
    (hfree : tablesForParts parts ≤ r.free.length) :
    ∃ ms' r', parts.foldlM (pushPart low) (ms, r) = some (ms', r') ∧ r.free.length ≤ r'.free.length + tablesForParts parts := by
  induction parts generalizing ms r maps with
  | nil => exact ⟨ms, r, rfl, Nat.le_add_right _ _⟩
  | cons p parts ih =>
    have hp := hok p mem_cons_self
    have hsum : tablesForParts (p :: parts) = tablesFor (p.area.end_ - p.area.start) + tablesForParts parts := sum_cons
    obtain ⟨pt', r₁, hmap, hcost⟩ := map_identical_isSome rfl hs (hp.area_end.trans (by decide)) hp.area_le
      (hnew p mem_cons_self) (by omega)
    have hone : pushPart low (ms, r) p = some (⟨pt', ms.areas ++ [p.area]⟩, r₁) := by
      unfold pushPart
      rw [hp.new, bind_some]
      exact push_of_map hmap
    obtain ⟨-, hs₁⟩ := pushPart_spec hp hs hone
    obtain ⟨hfirst, hapart⟩ := pairwise_cons.mp hapart
    have hnew₁ : ∀ q ∈ parts, ∀ v ∈ q.area.vpnRange, v ∉ (maps ++ p.area.identicalMappings).map vpn := by
      intro q hq v hv hmem
      rw [map_append, mem_append] at hmem
      rcases hmem with hmem | hmem
      · exact hnew q (mem_cons_of_mem _ hq) v hv hmem
      · obtain ⟨m, hm, rfl⟩ := mem_map.mp hmem
        obtain ⟨w, hw, rfl⟩ := mem_map.mp hm
        have hqok := hok q (mem_cons_of_mem _ hq)
        have hv' := mem_vpnRange.mp hv
        have hw' := mem_vpnRange.mp hw
        rw [hqok.start_eq, hqok.end_eq] at hv'
        rw [hp.start_eq, hp.end_eq] at hw'
        dsimp only at hv'
        simp only [PAGE_SIZE] at hv' hw'
        rcases hfirst q hq with hle | hle <;> omega
    obtain ⟨ms', r', hrest, hcost'⟩ := ih (fun q hq => hok q (mem_cons_of_mem _ hq)) hapart hs₁ hnew₁ (by omega)
    refine ⟨ms', r', ?_, by omega⟩
    rw [foldlM_cons, hone]
    exact hrest

theorem tablesForParts_le (k : KernelImage) : tablesForParts k.parts ≤ 164 := by
  have hsorted := k.sorted
  have haligned := k.aligned
  have hsum : tablesForParts k.parts = (k.parts.map fun p => tablesFor (p.end_ / PAGE_SIZE - p.start / PAGE_SIZE)).sum := by
    unfold tablesForParts
    refine congrArg sum (map_congr_left ?_)
    intro p hp
    rw [(k.parts_ok p hp).start_eq, (k.parts_ok p hp).end_eq]
  rw [hsum]
  simp only [KernelImage.parts, MMIO, KernelImage.stext, KernelImage.srodata, KernelImage.sdata, KernelImage.sbssWithStack,
    KernelImage.ekernel, BASE_ADDRESS, MEMORY_END, PAGE_SIZE, tablesFor, map_cons, map_nil, cons_append,
    nil_append, sum_cons, sum_nil] at hsorted haligned ⊢
  omega

/-- A kernel that leaves 167 frames free can build its address space: consecutive pages share their tables. -/
theorem newKernel_isSome (hs : r.allocator.Sound) (howned : Ram.Owned k.low [] r) (hfree : 167 ≤ r.free.length) :
    ∃ ms r', newKernel k r = some (ms, r') ∧ r.free.length ≤ r'.free.length + 167 := by
  obtain ⟨ms₀, r₀, ms₁, r₁, hnew, htramp⟩ := bare_isSome hs howned k.trampoline_aligned (by omega)
  obtain ⟨hareas, hwf, -, hcost⟩ := bare_spec hs howned k.trampoline_low hnew htramp
  have htables := tablesForParts_le k
  have hspace := hwf.space
  rw [mappings, hareas, flatMap_nil] at hspace
  have hfresh : ∀ p ∈ k.parts, ∀ v ∈ p.area.vpnRange, v ∉ [trampoline k.strampoline].map Mapping.vpn := by
    intro p hp v hv hmem
    have hlt := (mem_vpnRange.mp hv).2.trans_le (k.parts_ok p hp).area_end
    rw [map_singleton, mem_singleton] at hmem
    have hlast : v = 2 ^ 27 - 1 := hmem.trans trampolineVpn_eq
    rw [hlast] at hlt
    exact absurd hlt (by decide)
  obtain ⟨ms', r', hparts, hcost'⟩ := pushParts_isSome k.parts_ok k.parts_apart hspace hfresh (by omega)
  refine ⟨ms', r', ?_, by omega⟩
  unfold newKernel
  rw [hnew, bind_some]
  dsimp only
  rw [htramp, bind_some]
  exact hparts

end MemorySet

end TCore.Mm
