/-
  TCore.Mm.Noalloc — areas over frames that are not the allocator's (mm/memory_set.rs, push_noalloc).

  The trackers of such an area say that the frames do not go back, so the space owns none of them. A page
  that is mapped already is the assertion of `PageTable::map`; an area of this kind that `map` is called on,
  as `from_existed_user` does, is the panic of `map_one`.
-/

import TCore.Mm.Fork

namespace TCore.Mm

open TCore.Lib PageTable
open List Option MapArea

def PhysAddr.floor (pa : Nat) : Nat := pa / PAGE_SIZE

def PhysAddr.ceil (pa : Nat) : Nat := (pa + (2 ^ 64 - 1) + PAGE_SIZE) % 2 ^ 64 / PAGE_SIZE

namespace MapArea

/-- The loop of `map_noalloc`. -/
def mapNoallocPages (a : MapArea) (pt : PageTable) (r : Ram) : List (Nat × Nat) → Option (MapArea × PageTable × Ram)
  | [] => some (a, pt, r)
  | (vpn, ppn) :: rest =>
    (pt.map r vpn ppn a.mapPerm).bind fun (pt, r) =>
      mapNoallocPages { a with dataFrames := a.dataFrames ++ [(vpn, ⟨ppn, true⟩)] } pt r rest

/-- The two ranges are gone through together, to the end of the shorter one. -/
def mapNoalloc (a : MapArea) (pt : PageTable) (r : Ram) (ppnRange : List Nat) : Option (MapArea × PageTable × Ram) :=
  a.mapNoallocPages pt r (a.vpnRange.zip ppnRange)

variable {low : Nat} {a a' : MapArea} {pt pt' : PageTable} {r r' : Ram} {ms : List Mapping} {data ppns : List Nat}
  {pairs : List (Nat × Nat)}

def noallocMappings (pairs : List (Nat × Nat)) (perm : PTEFlags) : List Mapping := pairs.map fun x => ⟨x.1, x.2, perm⟩

/-- The pages lead to the given frames, and the space has taken no frame but for its tables. -/
structure MappedNoalloc (low : Nat) (a : MapArea) (pt : PageTable) (r : Ram) (ms : List Mapping) (data : List Nat)
    (pairs : List (Nat × Nat)) (a' : MapArea) (pt' : PageTable) (r' : Ram) : Prop where
  area : a' = { a with dataFrames := a.dataFrames ++ pairs.map fun x => (x.1, ⟨x.2, true⟩) }
  space : Space low pt' r' (ms ++ noallocMappings pairs a.mapPerm) data
  trade : Ram.Trade (data ++ pt.frames) r (data ++ pt'.frames) r'
  cost : r.free.length ≤ r'.free.length + 2 * pairs.length

section

variable (hs : Space low pt r ms data) (hbound : ∀ x ∈ pairs, x.1 < 2 ^ 27 ∧ x.2 < 2 ^ 44)
include hs hbound

theorem mapNoallocPages_spec
    (h : a.mapNoallocPages pt r pairs = some (a', pt', r')) : MappedNoalloc low a pt r ms data pairs a' pt' r' := by
  induction pairs generalizing a pt r ms with
  | nil =>
    cases h
    refine ⟨?_, ?_, .refl hs.sound, Nat.le_refl _⟩
    · rw [map_nil, append_nil]
    · rw [noallocMappings, map_nil, append_nil]
      exact hs
  | cons x pairs ih =>
    obtain ⟨⟨pt₁, r₁⟩, hmap, hrest⟩ := bind_eq_some_iff.mp h
    obtain ⟨hv, hp⟩ := hbound x mem_cons_self
    obtain ⟨hs₁, htrade₁, -, -⟩ := hs.map hv hp hmap
    have h₂ := ih (a := { a with dataFrames := a.dataFrames ++ [(x.1, ⟨x.2, true⟩)] }) hs₁
      (fun y hy => hbound y (mem_cons_of_mem _ hy)) hrest
    refine ⟨?_, ?_, htrade₁.trans h₂.trade, ?_⟩
    · rw [h₂.area, map_cons, append_assoc]
      rfl
    · have hspace := h₂.space
      rw [append_assoc] at hspace
      exact hspace
    · have hcost₁ : r.free.length ≤ r₁.free.length + 2 := map_cost hs.sound hmap
      have hcost₂ := h₂.cost
      rw [length_cons]
      omega

/-- Pages that are not mapped can be, with two frames for the tables of each. -/
theorem mapNoallocPages_isSome
    (hnodup : (pairs.map Prod.fst).Nodup) (hnew : ∀ x ∈ pairs, x.1 ∉ ms.map Mapping.vpn)
    (hfree : 2 * pairs.length ≤ r.free.length) : (a.mapNoallocPages pt r pairs).isSome := by
  induction pairs generalizing a pt r ms with
  | nil => rfl
  | cons x pairs ih =>
    rw [length_cons] at hfree
    obtain ⟨hv, hp⟩ := hbound x mem_cons_self
    have hleaf : pt.leaf r.mem x.1 = none := (hs.shows.leaf_eq_none hv).mpr (hnew x mem_cons_self)
    have hmapped : (pt.map r x.1 x.2 a.mapPerm).isSome := map_isSome hs.table hs.sound (by omega) hleaf
    obtain ⟨⟨pt₁, r₁⟩, hmap⟩ := isSome_iff_exists.mp hmapped
    obtain ⟨hs₁, -, -, -⟩ := hs.map hv hp hmap
    have hcost : r.free.length ≤ r₁.free.length + 2 := map_cost hs.sound hmap
    rw [mapNoallocPages, hmap, bind_some]
    obtain ⟨hnot, hnodup'⟩ := nodup_cons.mp hnodup
    refine ih hs₁ (fun y hy => hbound y (mem_cons_of_mem _ hy)) hnodup' ?_ (by omega)
    intro y hy hmem
    rw [map_append, mem_append] at hmem
    rcases hmem with hmem | hmem
    · exact hnew y (mem_cons_of_mem _ hy) hmem
    · have heq : y.1 = x.1 := mem_singleton.mp hmem
      exact hnot (heq ▸ mem_map_of_mem hy)

end

/-- An area over frames that are not the allocator's owns none. -/
theorem frames_noalloc (h : a.Wf) (hnoalloc : a.mapType = .noalloc) : a.frames = [] := by
  rw [frames, FrameTracker.owned, map_eq_nil_iff, filter_eq_nil_iff]
  intro t ht
  obtain ⟨x, hx, rfl⟩ := mem_map.mp ht
  rw [h.tracked x hx, hnoalloc]
  decide

theorem mapNoalloc_spec (hnoalloc : a.mapType = .noalloc) (hempty : a.dataFrames = []) (hlen : a.vpnRange.length ≤ ppns.length)
    (hs : Space low pt r ms data) (hv : ∀ v ∈ a.vpnRange, v < 2 ^ 27) (hp : ∀ p ∈ ppns, p < 2 ^ 44)
    (h : a.mapNoalloc pt r ppns = some (a', pt', r')) :
    a'.Wf ∧ a' = { a with dataFrames := a'.dataFrames } ∧ Space low pt' r' (ms ++ a'.mappings) (data ++ a'.frames) ∧
      Ram.Trade (data ++ pt.frames) r (data ++ pt'.frames) r' ∧ r.free.length ≤ r'.free.length + 2 * a.vpnRange.length := by
  have hbound : ∀ x ∈ a.vpnRange.zip ppns, x.1 < 2 ^ 27 ∧ x.2 < 2 ^ 44 :=
    fun x hx => ⟨hv x.1 (of_mem_zip hx).1, hp x.2 (of_mem_zip hx).2⟩
  have hm := mapNoallocPages_spec hs hbound h
  have harea := hm.area
  rw [hempty, nil_append] at harea
  have hwf : a'.Wf := by
    rw [harea]
    refine ⟨?_, ?_, ?_⟩
    · dsimp only
      rw [List.map_map]
      exact map_fst_zip hlen
    · intro x hx
      obtain ⟨y, -, rfl⟩ := mem_map.mp hx
      dsimp only
      rw [hnoalloc]
      rfl
    · dsimp only
      rw [hnoalloc]
      decide
  have hnoalloc' : a'.mapType = .noalloc := by
    rw [harea]
    exact hnoalloc
  have hmappings : a'.mappings = noallocMappings (a.vpnRange.zip ppns) a.mapPerm := by
    rw [mappings, harea, noallocMappings, List.map_map]
    rfl
  have hcost := hm.cost
  rw [length_zip, Nat.min_eq_left hlen] at hcost
  refine ⟨hwf, by rw [harea], ?_, hm.trade, hcost⟩
  rw [hmappings, frames_noalloc hwf hnoalloc', append_nil]
  exact hm.space

end MapArea

namespace MemorySet

def pushNoalloc (ms : MemorySet) (r : Ram) (area : MapArea) (ppnRange : List Nat) : Option (MemorySet × Ram) :=
  (area.mapNoalloc ms.pageTable r ppnRange).map fun (area, pt, r) => (⟨pt, ms.areas ++ [area]⟩, r)

variable {low strampoline : Nat} {ms ms' : MemorySet} {r r' : Ram} {a : MapArea} {ppns : List Nat}

/-- An area over frames of another owner has been added behind the others. -/
structure PushedNoalloc (low strampoline : Nat) (ms : MemorySet) (r : Ram) (a a' : MapArea) (ms' : MemorySet) (r' : Ram) :
    Prop where
  area : a' = { a with dataFrames := a'.dataFrames }
  areas : ms'.areas = ms.areas ++ [a']
  wf : ms'.Wf low strampoline r'
  trade : Ram.Trade ms.frames r ms'.frames r'
  cost : r.free.length ≤ r'.free.length + 2 * a.vpnRange.length

section

variable (h : ms.Wf low strampoline r) (hnoalloc : a.mapType = .noalloc) (hempty : a.dataFrames = [])
include h hnoalloc hempty

theorem pushNoalloc_spec
    (hlen : a.vpnRange.length ≤ ppns.length) (hend : a.end_ ≤ 2 ^ 27) (hp : ∀ p ∈ ppns, p < 2 ^ 44)
    (hpush : ms.pushNoalloc r a ppns = some (ms', r')) : ∃ a', PushedNoalloc low strampoline ms r a a' ms' r' := by
  obtain ⟨⟨a', pt', r₁⟩, hmap, heq⟩ := map_eq_some_iff.mp hpush
  cases heq
  obtain ⟨hwf, hsame, hspace, htrade, hcost⟩ := mapNoalloc_spec hnoalloc hempty hlen h.space (vpnRange_lt hend) hp hmap
  have hnoalloc' : a'.mapType = .noalloc := by
    rw [hsame]
    exact hnoalloc
  refine ⟨a', hsame, rfl, ⟨h.aligned, h.kernel, ?_, ?_⟩, ?_, hcost⟩
  · intro b hb
    rcases mem_append.mp hb with hb | hb
    · exact h.areas b hb
    · rw [mem_singleton] at hb
      exact hb ▸ hwf
  · rw [mappings_push, data_push]
    exact hspace
  · rw [frames, frames, data_push, frames_noalloc hwf hnoalloc', append_nil]
    exact htrade

/-- The assertion of `PageTable::map` is the only thing that can fail, with two frames for each page. -/
theorem pushNoalloc_isSome_iff
    (hlen : a.vpnRange.length ≤ ppns.length) (hend : a.end_ ≤ 2 ^ 27) (hp : ∀ p ∈ ppns, p < 2 ^ 44)
    (hfree : 2 * (a.end_ - a.start) ≤ r.free.length) :
    (ms.pushNoalloc r a ppns).isSome ↔ ∀ v ∈ a.vpnRange, ms.pageTable.leaf r.mem v = none := by
  have hbound := vpnRange_lt hend
  constructor
  · intro hsome v hv
    obtain ⟨⟨ms', r'⟩, hpush⟩ := isSome_iff_exists.mp hsome
    obtain ⟨a', hpushed⟩ := pushNoalloc_spec h hnoalloc hempty hlen hend hp hpush
    -- Two entries for one page could not both be seen afterwards.
    have hnodup := hpushed.wf.space.shows.nodup
    have hwf : a'.Wf := hpushed.wf.areas a' (hpushed.areas ▸ mem_append_right _ (mem_singleton_self a'))
    have hvpns : a'.mappings.map Mapping.vpn = a.vpnRange := by
      rw [hwf.vpns, hpushed.area]
      rfl
    rw [mappings, hpushed.areas, flatMap_append, flatMap_singleton, ← cons_append, map_append, hvpns] at hnodup
    refine (h.space.shows.leaf_eq_none (hbound v hv)).mpr ?_
    exact fun hmem => (nodup_append'.mp hnodup).2.2 hmem hv
  · intro hnew
    have hlen' : (a.vpnRange.zip ppns).length = a.end_ - a.start := by
      rw [length_zip, Nat.min_eq_left hlen, vpnRange, length_range']
    have hsome : (a.mapNoalloc ms.pageTable r ppns).isSome := by
      refine mapNoallocPages_isSome h.space ?_ ?_ ?_ (hlen' ▸ hfree)
      · exact fun x hx => ⟨hbound x.1 (of_mem_zip hx).1, hp x.2 (of_mem_zip hx).2⟩
      · rw [map_fst_zip hlen]
        exact nodup_vpnRange
      · intro x hx
        have hx := (of_mem_zip hx).1
        exact (h.space.shows.leaf_eq_none (hbound x.1 hx)).mp (hnew x.1 hx)
    obtain ⟨x, hx⟩ := isSome_iff_exists.mp hsome
    rw [pushNoalloc, hx]
    rfl

end

/-! ## Copying -/

theorem copyArea_noalloc {user : MemorySet} (hnoalloc : a.mapType = .noalloc) (hpages : a.vpnRange ≠ []) :
    copyArea low user (ms, r) a = none := by
  have hmap : (fromAnother a).map ms.pageTable r = none := by
    obtain ⟨v, vs, hvs⟩ := exists_cons_of_ne_nil hpages
    have hrange : (fromAnother a).vpnRange = v :: vs := hvs
    have hone : (fromAnother a).mapOne ms.pageTable r v = none := by
      rw [mapOne, show (fromAnother a).mapType = .noalloc from hnoalloc]
    rw [MapArea.map, hrange, MapArea.mapPages, hone]
    rfl
  rw [copyArea, push, hmap]
  rfl

/-- `from_existed_user` reaches the panic of `map_one` for an area over frames that are not the allocator's. -/
theorem fromExistedUser_noalloc {user : MemorySet} (ha : a ∈ user.areas) (hnoalloc : a.mapType = .noalloc) (hpages : a.vpnRange ≠ []) :
    fromExistedUser low strampoline user r = none := by
  have hloop : ∀ x : MemorySet × Ram, ∀ areas : List MapArea, a ∈ areas → areas.foldlM (copyArea low user) x = none := by
    intro x areas hmem
    induction areas generalizing x with
    | nil => cases hmem
    | cons b areas ih =>
      rw [foldlM_cons]
      rcases mem_cons.mp hmem with rfl | hmem
      · rw [copyArea_noalloc hnoalloc hpages]
        rfl
      · cases copyArea low user x b with
        | none => rfl
        | some y => exact ih y hmem
  simp only [fromExistedUser, hloop _ _ ha, bind_fun_none]

end MemorySet

end TCore.Mm
