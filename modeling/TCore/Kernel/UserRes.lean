/-
  TCore.Kernel.UserRes — what a thread has of its process's address space: a user stack and a page for its
  trap context (task/id.rs, TaskUserRes).

  Both places are computed from the tid. The stacks go up from `ustack_base` with a page between them, the
  trap contexts go down from below the trampoline.
-/

import TCore.Mm.Remove

namespace TCore.Kernel

open TCore.Mm TCore.Lib
open List VirtAddr MemorySet Option Mapping MapArea

/-- `usize` subtraction; the kernel is built for release, where it wraps. -/
def wrappingSub (a b : Nat) : Nat := (a + (2 ^ 64 - b % 2 ^ 64)) % 2 ^ 64

theorem wrappingSub_of_le {a b : Nat} (h : b ≤ a) (ha : a < 2 ^ 64) : wrappingSub a b = a - b := by
  rw [wrappingSub]
  omega

def trapCxBottomFromTid (tid : Nat) : Nat := wrappingSub TRAP_CONTEXT_BASE (tid * PAGE_SIZE)

def ustackBottomFromTid (ustackBase tid : Nat) : Nat := (ustackBase + tid * (PAGE_SIZE + USER_STACK_SIZE)) % 2 ^ 64

/-- `TaskUserRes::ustack_top`. -/
def ustackTop (ustackBase tid : Nat) : Nat := (ustackBottomFromTid ustackBase tid + USER_STACK_SIZE) % 2 ^ 64

def allocUserRes (low ustackBase tid : Nat) (ms : MemorySet) (r : Ram) : Option (MemorySet × Ram) :=
  (ms.insertFramedArea low r (fromUsize (ustackBottomFromTid ustackBase tid)) (fromUsize (ustackTop ustackBase tid))
    (.R ||| .W ||| .U)).bind fun (ms, r) =>
      ms.insertFramedArea low r (fromUsize (trapCxBottomFromTid tid))
        (fromUsize ((trapCxBottomFromTid tid + PAGE_SIZE) % 2 ^ 64)) (.R ||| .W)

/-- The conversion of a `VirtAddr` to a page number asserts that it is aligned. -/
def alignedVpn (va : Nat) : Option Nat := if pageOffset va = 0 then some (floor va) else none

def trapCxPpn (tid : Nat) (ms : MemorySet) (r : Ram) : Option Nat :=
  (alignedVpn (fromUsize (trapCxBottomFromTid tid))).bind fun vpn =>
    (ms.pageTable.translate r.mem vpn).map PageTableEntry.ppn

/-- The areas are found by their first pages. -/
def deallocUserRes (ustackBase tid : Nat) (ms : MemorySet) (r : Ram) : Option (MemorySet × Ram) :=
  (alignedVpn (fromUsize (ustackBottomFromTid ustackBase tid))).bind fun vpn =>
    (ms.removeAreaWithStartVpn r vpn).bind fun (ms, r) =>
      (alignedVpn (fromUsize (trapCxBottomFromTid tid))).bind fun vpn => ms.removeAreaWithStartVpn r vpn

section alloc

variable {low strampoline ustackBase tid : Nat} {ms ms' : MemorySet} {r r' : Ram}

/-- The pages of the user stack, and the page of the trap context. -/
def ustackVpn (ustackBase tid : Nat) : Nat := floor (fromUsize (ustackBottomFromTid ustackBase tid))

def ustackEndVpn (ustackBase tid : Nat) : Nat := ceil (fromUsize (ustackTop ustackBase tid))

def trapCxVpn (tid : Nat) : Nat := floor (fromUsize (trapCxBottomFromTid tid))

def trapCxEndVpn (tid : Nat) : Nat := ceil (fromUsize ((trapCxBottomFromTid tid + PAGE_SIZE) % 2 ^ 64))

/-- A stack that would reach the end of the address space is refused by `VPNRange::new`. -/
theorem ustackEndVpn_eq (haligned : ustackBase % PAGE_SIZE = 0)
    (hle : ustackVpn ustackBase tid ≤ ustackEndVpn ustackBase tid) : ustackEndVpn ustackBase tid = ustackVpn ustackBase tid + 2 := by
  have hbottom : ustackBottomFromTid ustackBase tid % 4096 = 0 := by
    simp only [ustackBottomFromTid, PAGE_SIZE, USER_STACK_SIZE] at haligned ⊢
    omega
  simp only [ustackVpn, ustackEndVpn, ustackTop, floor, ceil, fromUsize, PAGE_SIZE, USER_STACK_SIZE]
    at hle ⊢
  omega

theorem trapCxBottom_aligned (tid : Nat) : trapCxBottomFromTid tid % 4096 = 0 := by
  simp only [trapCxBottomFromTid, wrappingSub, TRAP_CONTEXT_BASE, TRAMPOLINE, PAGE_SIZE]
  omega

theorem trapCxEndVpn_eq (hle : trapCxVpn tid ≤ trapCxEndVpn tid) : trapCxEndVpn tid = trapCxVpn tid + 1 := by
  have hbottom := trapCxBottom_aligned tid
  simp only [trapCxVpn, trapCxEndVpn, floor, ceil, fromUsize, PAGE_SIZE] at hle ⊢
  omega

theorem alignedVpn_trapCx : alignedVpn (fromUsize (trapCxBottomFromTid tid)) = some (trapCxVpn tid) := by
  have hbottom := trapCxBottom_aligned tid
  rw [alignedVpn, if_pos, trapCxVpn]
  simp only [pageOffset, fromUsize, PAGE_SIZE]
  omega

theorem alignedVpn_ustack (haligned : ustackBase % PAGE_SIZE = 0) :
    alignedVpn (fromUsize (ustackBottomFromTid ustackBase tid)) = some (ustackVpn ustackBase tid) := by
  rw [alignedVpn, if_pos, ustackVpn]
  simp only [pageOffset, fromUsize, ustackBottomFromTid, PAGE_SIZE, USER_STACK_SIZE] at haligned ⊢
  omega

/-- A user stack and a page for the trap context have been added. -/
theorem allocUserRes_spec (h : ms.Wf low strampoline r) (halloc : allocUserRes low ustackBase tid ms r = some (ms', r')) :
    ∃ stack ms₁ r₁ trapCx, ustackVpn ustackBase tid ≤ ustackEndVpn ustackBase tid ∧ trapCxVpn tid ≤ trapCxEndVpn tid ∧
      MemorySet.Inserted low strampoline ms r (ustackVpn ustackBase tid) (ustackEndVpn ustackBase tid) (.R ||| .W ||| .U)
        stack ms₁ r₁ ∧
      MemorySet.Inserted low strampoline ms₁ r₁ (trapCxVpn tid) (trapCxEndVpn tid) (.R ||| .W) trapCx ms' r' := by
  obtain ⟨⟨ms₁, r₁⟩, hstack, htrap⟩ := bind_eq_some_iff.mp halloc
  obtain ⟨hle, stack, h₁⟩ := insertFramedArea_spec h (Nat.mod_lt _ (by decide)) hstack
  obtain ⟨hle', trapCx, h₂⟩ := insertFramedArea_spec h₁.wf (Nat.mod_lt _ (by decide)) htrap
  exact ⟨stack, ms₁, r₁, trapCx, hle, hle', h₁, h₂⟩

/-- Resources can be allocated in pages that are not mapped, with three frames for each. -/
theorem allocUserRes_isSome (h : ms.Wf low strampoline r) (hstack : ustackVpn ustackBase tid ≤ ustackEndVpn ustackBase tid)
    (htrap : trapCxVpn tid ≤ trapCxEndVpn tid)
    (hnew : ∀ v ∈ (trampoline strampoline :: ms.mappings).map vpn,
      (v < ustackVpn ustackBase tid ∨ ustackEndVpn ustackBase tid ≤ v) ∧ (v < trapCxVpn tid ∨ trapCxEndVpn tid ≤ v))
    (hapart : ustackEndVpn ustackBase tid ≤ trapCxVpn tid ∨ trapCxEndVpn tid ≤ ustackVpn ustackBase tid)
    (hfree : 3 * (ustackEndVpn ustackBase tid - ustackVpn ustackBase tid) + 3 * (trapCxEndVpn tid - trapCxVpn tid) ≤ r.free.length) :
    (allocUserRes low ustackBase tid ms r).isSome := by
  have hfirst : (ms.insertFramedArea low r (fromUsize (ustackBottomFromTid ustackBase tid))
      (fromUsize (ustackTop ustackBase tid)) (.R ||| .W ||| .U)).isSome := by
    refine insertFramedArea_isSome h (Nat.mod_lt _ (by decide)) hstack ?_ (le_trans (Nat.le_add_right _ _) hfree)
    intro v hge hlt hmem
    rcases (hnew v hmem).1 with hv | hv
    · exact absurd hge (not_le.mpr hv)
    · exact absurd hlt (not_lt.mpr hv)
  obtain ⟨⟨ms₁, r₁⟩, hfirst⟩ := isSome_iff_exists.mp hfirst
  obtain ⟨-, stack, h₁⟩ := insertFramedArea_spec h (Nat.mod_lt _ (by decide)) hfirst
  rw [allocUserRes, hfirst, bind_some]
  have hcost : r.free.length ≤ r₁.free.length + 3 * (ustackEndVpn ustackBase tid - ustackVpn ustackBase tid) := h₁.cost
  refine insertFramedArea_isSome h₁.wf (Nat.mod_lt _ (by decide)) htrap ?_
    (show 3 * (trapCxEndVpn tid - trapCxVpn tid) ≤ r₁.free.length by omega)
  intro v hge hlt hmem
  have hge : trapCxVpn tid ≤ v := hge
  have hlt : v < trapCxEndVpn tid := hlt
  rw [h₁.mappings, ← cons_append, map_append, mem_append] at hmem
  rcases hmem with hmem | hmem
  · have hout := (hnew v hmem).2
    omega
  · have hin : ustackVpn ustackBase tid ≤ v ∧ v < ustackEndVpn ustackBase tid := h₁.mem_vpns.mp hmem
    omega

/-- The two areas of a thread, and the frame of its trap context. -/
def ustackArea (ustackBase tid : Nat) (frames : List (Nat × FrameTracker)) : MapArea :=
  ⟨ustackVpn ustackBase tid, ustackVpn ustackBase tid + 2, frames, .framed, .R ||| .W ||| .U⟩

def trapCxArea (tid ppn : Nat) : MapArea := ⟨trapCxVpn tid, trapCxVpn tid + 1, [(trapCxVpn tid, ⟨ppn, false⟩)], .framed, .R ||| .W⟩

/-- The page of an area of one page. -/
theorem dataFrames_singleton {a : MapArea} (h : a.Wf) (hframed : a.mapType = .framed) (hone : a.end_ = a.start + 1) :
    ∃ ppn, a.dataFrames = [(a.start, ⟨ppn, false⟩)] := by
  have hrange : a.vpnRange = [a.start] := by
    rw [vpnRange, hone, Nat.add_sub_cancel_left]
    rfl
  have hpages := h.pages
  rw [hrange] at hpages
  obtain ⟨x, hx, hfst⟩ := map_eq_singleton_iff.mp hpages
  have hdrop := h.tracked x (hx ▸ mem_singleton_self x)
  rw [hframed] at hdrop
  obtain ⟨v, ppn, nodrop⟩ := x
  dsimp only at hfst hdrop
  subst hfst hdrop
  exact ⟨ppn, hx⟩

theorem trapCxPpn_area {ppn : Nat} (h : ms.Wf low strampoline r) (ha : trapCxArea tid ppn ∈ ms.areas) : trapCxPpn tid ms r = some ppn := by
  have hm : ⟨trapCxVpn tid, ppn, .R ||| .W⟩ ∈ ms.mappings := mem_flatMap.mpr ⟨_, ha, mem_singleton_self _⟩
  obtain ⟨pte, htrans, hppn⟩ := h.space.translate_mapping (mem_cons_of_mem _ hm)
  rw [trapCxPpn, alignedVpn_trapCx, bind_some, htrans, map_some, hppn]

/-- What a thread gets. -/
structure Allocated (low strampoline ustackBase tid : Nat) (ms : MemorySet) (r : Ram) (frames : List (Nat × FrameTracker)) (ppn : Nat)
    (ms' : MemorySet) (r' : Ram) : Prop where
  areas : ms'.areas = ms.areas ++ [ustackArea ustackBase tid frames, trapCxArea tid ppn]
  wf : ms'.Wf low strampoline r'
  trade : Ram.Trade ms.frames r ms'.frames r'
  root : ms'.pageTable.rootPpn = ms.pageTable.rootPpn
  stackEnd : ustackEndVpn ustackBase tid = ustackVpn ustackBase tid + 2
  trapCxEnd : trapCxEndVpn tid = trapCxVpn tid + 1
  cost : r.free.length ≤ r'.free.length + 9

theorem allocUserRes_allocated (h : ms.Wf low strampoline r) (haligned : ustackBase % PAGE_SIZE = 0)
    (halloc : allocUserRes low ustackBase tid ms r = some (ms', r')) :
    ∃ frames ppn, Allocated low strampoline ustackBase tid ms r frames ppn ms' r' := by
  obtain ⟨stack, ms₁, r₁, trapCx, hle, hle', h₁, h₂⟩ := allocUserRes_spec h halloc
  have hstack := ustackEndVpn_eq haligned hle
  have htrap := trapCxEndVpn_eq hle'
  have hareas : ms'.areas = ms.areas ++ [stack, trapCx] := by
    rw [h₂.areas, h₁.areas, append_assoc]
    rfl
  have hwf : trapCx.Wf := h₂.wf.areas trapCx (h₂.areas ▸ mem_append_right _ (mem_singleton_self _))
  have harea := h₂.area
  obtain ⟨ppn, hppn⟩ := dataFrames_singleton hwf (by rw [harea]) (by rw [harea]; exact htrap)
  rw [hppn, htrap] at harea
  have hstart : trapCx.start = trapCxVpn tid := by rw [harea]
  refine ⟨stack.dataFrames, ppn, ?_, h₂.wf, h₁.trade.trans h₂.trade, h₂.root.trans h₁.root, hstack, htrap, ?_⟩
  · rw [hareas, ustackArea, ← hstack, ← h₁.area, trapCxArea, ← hstart]
    rw [hstart] at harea
    rw [hstart, ← harea]
  · have hcost₁ := h₁.cost
    have hcost₂ := h₂.cost
    omega

theorem mem_ustackArea {frames : List (Nat × FrameTracker)} {v : Nat} :
    v ∈ (ustackArea ustackBase tid frames).vpnRange ↔ ustackVpn ustackBase tid ≤ v ∧ v < ustackVpn ustackBase tid + 2 :=
  mem_vpnRange

theorem mem_trapCxArea {ppn v : Nat} : v ∈ (trapCxArea tid ppn).vpnRange ↔ v = trapCxVpn tid := by
  rw [mem_vpnRange, trapCxArea]
  dsimp only
  omega

section

variable {frames : List (Nat × FrameTracker)} {ppn : Nat} (h : Allocated low strampoline ustackBase tid ms r frames ppn ms' r')
include h

/-- The pages were not mapped before. -/
theorem Allocated.fresh {a : MapArea} (ha : a ∈ ms.areas) :
    ustackVpn ustackBase tid ∉ a.vpnRange ∧ trapCxVpn tid ∉ a.vpnRange := by
  have hdisj := h.wf.areas_disjoint
  rw [h.areas, pairwise_append] at hdisj
  have hstack := hdisj.2.2 a ha _ mem_cons_self
  have htrap := hdisj.2.2 a ha _ (mem_cons_of_mem _ mem_cons_self)
  exact ⟨fun hv => hstack hv (mem_ustackArea.mpr (by omega)), fun hv => htrap hv (mem_trapCxArea.mpr rfl)⟩

theorem Allocated.framed (hframed : ∀ a ∈ ms.areas, a.mapType = .framed) :
    ∀ a ∈ ms'.areas, a.mapType = .framed := by
  intro a ha
  rw [h.areas, mem_append] at ha
  rcases ha with ha | ha
  · exact hframed a ha
  · rcases mem_pair.mp ha with rfl | rfl <;> rfl

theorem Allocated.mappings :
    ms'.mappings = ms.mappings ++ ((ustackArea ustackBase tid frames).mappings ++ (trapCxArea tid ppn).mappings) := by
  rw [MemorySet.mappings, h.areas, flatMap_append, flatMap_cons, flatMap_singleton]
  rfl

/-- The pages that are mapped afterwards. -/
theorem Allocated.mem_vpns {v : Nat} :
    v ∈ ms'.mappings.map vpn ↔ v ∈ ms.mappings.map vpn ∨
      (ustackVpn ustackBase tid ≤ v ∧ v < ustackVpn ustackBase tid + 2) ∨ v = trapCxVpn tid := by
  have hmem₁ : ustackArea ustackBase tid frames ∈ ms'.areas := h.areas ▸ mem_append_right _ mem_cons_self
  have hmem₂ : trapCxArea tid ppn ∈ ms'.areas := h.areas ▸ mem_append_right _ (mem_cons_of_mem _ mem_cons_self)
  rw [h.mappings, map_append, map_append, (h.wf.areas _ hmem₁).vpns, (h.wf.areas _ hmem₂).vpns, mem_append,
    mem_append, mem_ustackArea, mem_trapCxArea]

end

/-- The places of a thread are proper and its pages are not mapped. -/
structure Room (ustackBase tid : Nat) (ms : MemorySet) (r : Ram) : Prop where
  stack : ustackVpn ustackBase tid ≤ ustackEndVpn ustackBase tid
  trapCx : trapCxVpn tid ≤ trapCxEndVpn tid
  apart : ustackEndVpn ustackBase tid ≤ trapCxVpn tid ∨ trapCxEndVpn tid ≤ ustackVpn ustackBase tid
  unmapped : ∀ v, (ustackVpn ustackBase tid ≤ v ∧ v < ustackEndVpn ustackBase tid) ∨ (trapCxVpn tid ≤ v ∧ v < trapCxEndVpn tid) →
    ms.pageTable.leaf r.mem v = none

theorem Room.isSome (h : ms.Wf low strampoline r) (haligned : ustackBase % PAGE_SIZE = 0) (hroom : Room ustackBase tid ms r)
    (hfree : 9 ≤ r.free.length) : (allocUserRes low ustackBase tid ms r).isSome := by
  have hstack := ustackEndVpn_eq haligned hroom.stack
  have htrap := trapCxEndVpn_eq hroom.trapCx
  refine allocUserRes_isSome h hroom.stack hroom.trapCx ?_ hroom.apart (by omega)
  intro v hv
  obtain ⟨m, hm, rfl⟩ := mem_map.mp hv
  have hmapped := h.space.shows.leaf hm
  refine ⟨?_, ?_⟩
  · by_contra hin
    rw [hroom.unmapped m.vpn (.inl (by omega))] at hmapped
    cases hmapped
  · by_contra hin
    rw [hroom.unmapped m.vpn (.inr (by omega))] at hmapped
    cases hmapped

theorem Allocated.room {frames : List (Nat × FrameTracker)} {ppn : Nat} (h : ms.Wf low strampoline r)
    (ha : Allocated low strampoline ustackBase tid ms r frames ppn ms' r') : Room ustackBase tid ms r := by
  have hstack := ha.stackEnd
  have htrap := ha.trapCxEnd
  have hmem₁ : ustackArea ustackBase tid frames ∈ ms'.areas := ha.areas ▸ mem_append_right _ mem_cons_self
  have hmem₂ : trapCxArea tid ppn ∈ ms'.areas := ha.areas ▸ mem_append_right _ (mem_cons_of_mem _ mem_cons_self)
  have hnodup := ha.wf.space.shows.nodup
  rw [ha.mappings, ← cons_append, map_append, map_append, (ha.wf.areas _ hmem₁).vpns, (ha.wf.areas _ hmem₂).vpns] at hnodup
  obtain ⟨-, hnew, hout⟩ := nodup_append'.mp hnodup
  refine ⟨by omega, by omega, ?_, ?_⟩
  · by_contra hin
    have hboth : trapCxVpn tid ∈ (ustackArea ustackBase tid frames).vpnRange := mem_ustackArea.mpr (by omega)
    exact (nodup_append'.mp hnew).2.2 hboth (mem_trapCxArea.mpr rfl)
  · intro v hv
    have hmem : v ∈ (ustackArea ustackBase tid frames).vpnRange ++ (trapCxArea tid ppn).vpnRange := by
      rw [mem_append, mem_ustackArea, mem_trapCxArea]
      omega
    have hlt : v < 2 ^ 27 := by
      rcases mem_append.mp hmem with hmem | hmem
      · exact ha.wf.vpn_lt hmem₁ v hmem
      · exact ha.wf.vpn_lt hmem₂ v hmem
    exact (h.space.shows.leaf_eq_none hlt).mpr fun hold => hout hold hmem

end alloc

end TCore.Kernel
