/-
  TCore.Mm.Remove — taking an area out of a memory set (mm/memory_set.rs, remove_area_with_start_vpn).

  The frame of a page goes back before its entry is cleared. In between the page table has an entry for a
  free frame; nothing is allocated there.
-/

import TCore.Mm.Noalloc

namespace TCore.Mm

open TCore.Lib PageTable
open List Option

namespace MapArea

variable {low : Nat} {a : MapArea} {pt : PageTable} {r : Ram} {ms : List Mapping} {data : List Nat}
  {xs : List (Nat × FrameTracker)}

/-- The loop of `unmap` over a framed area: the first tracker is that of the page whose turn it is. -/
theorem unmapPages_framed (hframed : a.mapType = .framed) (hxs : a.dataFrames = xs) (hdrop : ∀ x ∈ xs, x.2.nodrop = false)
    (hs : Space low pt r (xs.map (fun x => ⟨x.1, x.2.ppn, a.mapPerm⟩) ++ ms) (xs.map (fun x => x.2.ppn) ++ data)) :
    ∃ r', a.unmapPages pt r (xs.map Prod.fst) = some ({ a with dataFrames := [] }, r') ∧ Space low pt r' ms data ∧
      Ram.Trade (xs.map (fun x => x.2.ppn) ++ data ++ pt.frames) r (data ++ pt.frames) r' ∧ ∀ f ∈ data, r'.mem f = r.mem f := by
  induction xs generalizing a r with
  | nil =>
    refine ⟨r, ?_, hs, .refl hs.sound, fun _ _ => rfl⟩
    rw [map_nil, unmapPages, ← hxs]
  | cons x xs ih =>
    obtain ⟨r₁, hdealloc, hs₁, htrade₁, -, hmem₁⟩ := Space.dealloc hs
    obtain ⟨r₂, hunmap, hs₂, htrade₂, -, hkept₂⟩ := Space.unmap hs₁
    have hfind : a.dataFrames.find? (fun y => y.1 == x.1) = some x := by
      rw [hxs]
      exact find?_cons_of_pos (p := fun y : Nat × FrameTracker => y.1 == x.1) (beq_self_eq_true x.1)
    have herase : a.dataFrames.eraseP (fun y => y.1 == x.1) = xs := by
      rw [hxs]
      exact eraseP_cons_of_pos (p := fun y : Nat × FrameTracker => y.1 == x.1) (beq_self_eq_true x.1)
    have hremove : a.removeFrame r x.1 = some ({ a with dataFrames := xs }, r₁) := by
      rw [removeFrame, hfind]
      dsimp only
      rw [FrameTracker.drop, hdrop x mem_cons_self, if_neg Bool.false_ne_true, hdealloc, map_some, herase]
    have hone : a.unmapOne pt r x.1 = some ({ a with dataFrames := xs }, r₂) := by
      rw [unmapOne, if_pos hframed, hremove, bind_some]
      dsimp only
      rw [hunmap, map_some]
    obtain ⟨r', hrest, hs', htrade', hkept'⟩ :=
      ih (a := { a with dataFrames := xs }) hframed rfl (fun y hy => hdrop y (mem_cons_of_mem _ hy)) hs₂
    refine ⟨r', ?_, hs', (htrade₁.trans htrade₂).trans htrade', ?_⟩
    · rw [map_cons, unmapPages, hone, bind_some]
      exact hrest
    · intro f hf
      rw [hkept' f hf, hkept₂ f (mem_append_right _ hf), hmem₁]

/-- The trackers of the other areas stay until the area is dropped. -/
theorem unmapPages_noalloc (hnoalloc : a.mapType = .noalloc)
    (hs : Space low pt r (xs.map (fun x => ⟨x.1, x.2.ppn, a.mapPerm⟩) ++ ms) data) :
    ∃ r', a.unmapPages pt r (xs.map Prod.fst) = some (a, r') ∧ Space low pt r' ms data ∧
      Ram.Trade (data ++ pt.frames) r (data ++ pt.frames) r' ∧ ∀ f ∈ data, r'.mem f = r.mem f := by
  have hnot : a.mapType ≠ .framed := by
    rw [hnoalloc]
    decide
  induction xs generalizing r with
  | nil => exact ⟨r, rfl, hs, .refl hs.sound, fun _ _ => rfl⟩
  | cons x xs ih =>
    obtain ⟨r₁, hunmap, hs₁, htrade₁, -, hkept₁⟩ := Space.unmap hs
    obtain ⟨r', hrest, hs', htrade', hkept'⟩ := ih hs₁
    have hone : a.unmapOne pt r x.1 = some (a, r₁) := by
      rw [unmapOne, if_neg hnot, bind_some]
      dsimp only
      rw [hunmap, map_some]
    refine ⟨r', ?_, hs', htrade₁.trans htrade', ?_⟩
    · rw [map_cons, unmapPages, hone, bind_some]
      exact hrest
    · intro f hf
      rw [hkept' f hf, hkept₁ f hf]

/-- The pages of an area are unmapped and its frames given back. -/
theorem unmap_drop (hwf : a.Wf) (hs : Space low pt r (a.mappings ++ ms) (a.frames ++ data)) :
    ∃ a' r₁ r', a.unmap pt r = some (a', r₁) ∧ a'.drop r₁ = some r' ∧ Space low pt r' ms data ∧
      Ram.Trade (a.frames ++ data ++ pt.frames) r (data ++ pt.frames) r' ∧ ∀ f ∈ data, r'.mem f = r.mem f := by
  cases htype : a.mapType with
  | identical => exact absurd htype hwf.notIdentical
  | framed =>
    have hframes : a.frames = a.dataFrames.map fun x => x.2.ppn := by
      rw [hwf.frames_eq htype, mappings, List.map_map]
      rfl
    rw [hframes] at hs ⊢
    have hdrop : ∀ x ∈ a.dataFrames, x.2.nodrop = false := by
      intro x hx
      rw [hwf.tracked x hx, htype]
      rfl
    obtain ⟨r', hunmap, hs', htrade, hkept⟩ := unmapPages_framed htype rfl hdrop hs
    rw [hwf.pages] at hunmap
    exact ⟨_, r', r', hunmap, rfl, hs', htrade, hkept⟩
  | noalloc =>
    have hframes := frames_noalloc hwf htype
    rw [hframes] at hs ⊢
    obtain ⟨r', hunmap, hs', htrade, hkept⟩ := unmapPages_noalloc htype hs
    rw [hwf.pages] at hunmap
    have hnone : ∀ t ∈ a.dataFrames.map Prod.snd, t.nodrop = true := by
      intro t ht
      obtain ⟨x, hx, rfl⟩ := List.mem_map.mp ht
      rw [hwf.tracked x hx, htype]
      rfl
    have hdrop : a.drop r' = some r' := by
      rw [drop, FrameTracker.dropAll]
      generalize a.dataFrames.map Prod.snd = ts at hnone
      induction ts with
      | nil => rfl
      | cons t ts ih =>
        rw [foldlM_cons, FrameTracker.drop, hnone t mem_cons_self, if_pos rfl]
        exact ih fun u hu => hnone u (mem_cons_of_mem _ hu)
    exact ⟨a, r', r', hunmap, hdrop, hs', htrade, hkept⟩

end MapArea

namespace MemorySet

variable {low strampoline startVpn : Nat} {ms : MemorySet} {r : Ram} {a b : MapArea}

section

variable (h : ms.Wf low strampoline r)
include h

theorem Wf.areas_disjoint : ms.areas.Pairwise fun a b => a.vpnRange.Disjoint b.vpnRange := by
  have hnodup := (nodup_cons.mp h.space.shows.nodup).2
  rw [mappings, map_flatMap, nodup_flatMap] at hnodup
  refine hnodup.2.imp_of_mem ?_
  intro a b ha hb hdisj
  rw [← (h.areas a ha).vpns, ← (h.areas b hb).vpns]
  exact hdisj

theorem Wf.exists_area {v : Nat} (hv : v ∈ ms.mappings.map Mapping.vpn) :
    ∃ a ∈ ms.areas, v ∈ a.vpnRange := by
  rw [mappings, map_flatMap, mem_flatMap] at hv
  obtain ⟨a, ha, hv⟩ := hv
  exact ⟨a, ha, (h.areas a ha).vpns ▸ hv⟩

/-- No two areas have a page in common. -/
theorem Wf.area_inj {v : Nat} (ha : a ∈ ms.areas) (hb : b ∈ ms.areas)
    (hva : v ∈ a.vpnRange) (hvb : v ∈ b.vpnRange) : a = b := by
  by_contra hne
  have : Std.Symm fun a b : MapArea => a.vpnRange.Disjoint b.vpnRange := ⟨fun _ _ => List.Disjoint.symm⟩
  exact h.areas_disjoint.forall ha hb hne hva hvb

/-- An area with pages is found once by its first page, if no other area begins there. -/
theorem Wf.filter_start (ha : a ∈ ms.areas) (hpages : a.vpnRange ≠ [])
    (honly : ∀ b ∈ ms.areas, b.start = a.start → b = a) : ms.areas.filter (fun b => b.start = a.start) = [a] := by
  obtain ⟨v, hv⟩ := exists_mem_of_ne_nil _ hpages
  obtain ⟨before, after, hareas⟩ := append_of_mem ha
  have hdisj := h.areas_disjoint
  rw [hareas, pairwise_append, pairwise_cons] at hdisj
  rw [hareas] at honly
  have hbefore : before.filter (fun b => b.start = a.start) = [] := by
    rw [filter_eq_nil_iff]
    intro b hb hstart
    rw [honly b (mem_append_left _ hb) (of_decide_eq_true hstart)] at hb
    exact hdisj.2.2 a hb a mem_cons_self hv hv
  have hafter : after.filter (fun b => b.start = a.start) = [] := by
    rw [filter_eq_nil_iff]
    intro b hb hstart
    rw [honly b (mem_append_right _ (mem_cons_of_mem _ hb)) (of_decide_eq_true hstart)] at hb
    exact hdisj.2.1.1 a hb hv hv
  have hself : decide (a.start = a.start) = true := decide_eq_true rfl
  rw [hareas, filter_append, filter_cons, hself, if_pos rfl, hbefore, hafter, nil_append]

end

/-- The area has been taken out, its pages are not mapped any more, and its frames are free. -/
structure Removed (low strampoline : Nat) (ms : MemorySet) (r : Ram) (a : MapArea) (ms' : MemorySet) (r' : Ram) : Prop where
  areas : ∃ before after, ms.areas = before ++ a :: after ∧ ms'.areas = before ++ after
  table : ms'.pageTable = ms.pageTable
  wf : ms'.Wf low strampoline r'
  trade : Ram.Trade ms.frames r ms'.frames r'
  mappings : ms.mappings.Perm (a.mappings ++ ms'.mappings)
  data : ms.data.Perm (a.frames ++ ms'.data)
  kept : ∀ f ∈ ms'.data, r'.mem f = r.mem f

theorem removeAreaWithStartVpn_spec (h : ms.Wf low strampoline r)
    (hfind : ms.areas.find? (fun area => area.start == startVpn) = some a) :
    ∃ ms' r', ms.removeAreaWithStartVpn r startVpn = some (ms', r') ∧ Removed low strampoline ms r a ms' r' := by
  obtain ⟨hstart, before, after, hareas, hbefore⟩ := find?_eq_some_iff_append.mp hfind
  have hwf : a.Wf := h.areas a (hareas ▸ mem_append_right _ mem_cons_self)
  have herase : ms.areas.eraseP (fun area => area.start == startVpn) = before ++ after := by
    rw [hareas, eraseP_append_right _ fun b hb => by simpa using hbefore b hb,
      eraseP_cons_of_pos (p := fun area : MapArea => area.start == startVpn) hstart]
  have hmappings : ms.mappings.Perm (a.mappings ++ (before ++ after).flatMap MapArea.mappings) := by
    rw [MemorySet.mappings, hareas, flatMap_append, flatMap_cons, flatMap_append, ← append_assoc,
      ← append_assoc]
    exact perm_append_comm.append_right _
  have hdata : ms.data.Perm (a.frames ++ (before ++ after).flatMap MapArea.frames) := by
    rw [MemorySet.data, hareas, flatMap_append, flatMap_cons, flatMap_append, ← append_assoc,
      ← append_assoc]
    exact perm_append_comm.append_right _
  have hspace : Space low ms.pageTable r
      (a.mappings ++ trampoline strampoline :: (before ++ after).flatMap MapArea.mappings)
      (a.frames ++ (before ++ after).flatMap MapArea.frames) :=
    h.space.perm (perm_middle.trans (hmappings.symm.cons _)) hdata.symm
  obtain ⟨a', r₁, r', hunmap, hdrop, hspace', htrade, hkept⟩ := MapArea.unmap_drop hwf hspace
  refine ⟨{ ms with areas := before ++ after }, r', ?_,
    ⟨before, after, hareas, rfl⟩, rfl, ⟨h.aligned, h.kernel, ?_, hspace'⟩, ?_, hmappings, hdata, hkept⟩
  · rw [removeAreaWithStartVpn, hfind]
    dsimp only
    rw [hunmap, bind_some]
    dsimp only
    rw [hdrop, map_some, herase]
  · intro b hb
    refine h.areas b (hareas ▸ ?_)
    rcases mem_append.mp hb with hb | hb
    · exact mem_append_left _ hb
    · exact mem_append_right _ (mem_cons_of_mem _ hb)
  · exact htrade.congr (hdata.append_right _) (.refl _)

/-- The first area with the start page is taken. -/
theorem removeAreaWithStartVpn_of_mem (h : ms.Wf low strampoline r) (hb : b ∈ ms.areas) (hstart : b.start = startVpn) :
    ∃ a ms' r', a ∈ ms.areas ∧ a.start = startVpn ∧ ms.removeAreaWithStartVpn r startVpn = some (ms', r') ∧
      Removed low strampoline ms r a ms' r' := by
  have hsome : (ms.areas.find? fun area => area.start == startVpn).isSome :=
    find?_isSome.mpr ⟨b, hb, beq_iff_eq.mpr hstart⟩
  obtain ⟨a, hfind⟩ := isSome_iff_exists.mp hsome
  obtain ⟨ms', r', hremove, hremoved⟩ := removeAreaWithStartVpn_spec h hfind
  have ha : (a.start == startVpn) = true := find?_some (p := fun area : MapArea => area.start == startVpn) hfind
  exact ⟨a, ms', r', mem_of_find?_eq_some hfind, beq_iff_eq.mp ha, hremove, hremoved⟩

variable {ms' : MemorySet} {r' : Ram}

section

variable (h : Removed low strampoline ms r a ms' r')
include h

theorem Removed.mem (hb : b ∈ ms.areas) (hne : b ≠ a) : b ∈ ms'.areas := by
  obtain ⟨before, after, hareas, hareas'⟩ := h.areas
  rw [hareas, mem_append, mem_cons] at hb
  rw [hareas', mem_append]
  rcases hb with hb | hb | hb
  · exact .inl hb
  · exact absurd hb hne
  · exact .inr hb

theorem Removed.subset : ms'.areas.Sublist ms.areas := by
  obtain ⟨before, after, hareas, hareas'⟩ := h.areas
  rw [hareas, hareas']
  exact (sublist_cons_self a after).append_left before

/-- An area with pages is listed once. -/
theorem Removed.not_mem (hwf : ms.Wf low strampoline r) (hpages : a.vpnRange ≠ []) :
    a ∉ ms'.areas := by
  obtain ⟨before, after, hareas, hareas'⟩ := h.areas
  obtain ⟨v, hv⟩ := exists_mem_of_ne_nil _ hpages
  have hdisj := hwf.areas_disjoint
  rw [hareas, pairwise_append, pairwise_cons] at hdisj
  rw [hareas', mem_append, not_or]
  refine ⟨?_, ?_⟩
  · intro hmem
    exact hdisj.2.2 a hmem a mem_cons_self hv hv
  · intro hmem
    exact hdisj.2.1.1 a hmem hv hv

/-- Exactly the pages of the area are not mapped any more. -/
theorem Removed.leaf {v : Nat} (hwf : ms.Wf low strampoline r) (ha : a.Wf)
    (hv : v < 2 ^ 27) :
    ms'.pageTable.leaf r'.mem v = if v ∈ a.vpnRange then none else ms.pageTable.leaf r.mem v := by
  have hperm : (trampoline strampoline :: ms.mappings).Perm (a.mappings ++ trampoline strampoline :: ms'.mappings) :=
    (h.mappings.cons _).trans perm_middle.symm
  have hleaf := (hwf.space.shows.perm hperm.symm).leaf_rest h.wf.space.shows hv
  rw [ha.vpns] at hleaf
  exact hleaf

/-- Exactly the frames of the area have become free. -/
theorem Removed.free : r'.free.Perm (a.frames ++ r.free) := by
  have hperm := h.trade.perm
  rw [frames, frames, h.table, append_assoc, append_assoc] at hperm
  have hsplit : (ms.data ++ (ms.pageTable.frames ++ r.free)).Perm
      (ms'.data ++ (ms.pageTable.frames ++ (a.frames ++ r.free))) := by
    refine (h.data.append_right _).trans ?_
    rw [append_assoc]
    refine (perm_append_comm_assoc _ _ _).trans (Perm.append_left _ ?_)
    exact perm_append_comm_assoc _ _ _
  have hcancel := hperm.trans hsplit
  exact (perm_append_left_iff _).mp ((perm_append_left_iff _).mp hcancel)

end

end MemorySet

end TCore.Mm
