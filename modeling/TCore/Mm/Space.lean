/-
  TCore.Mm.Space — what the operations on an address space keep (mm/memory_set.rs).

  `Space` is an address space as its parts: a page table whose valid entries are known, and data frames.
  It owns both. Whatever another owner does, and whatever is written to the data frames, the entries stay
  as they are. `MemorySet.Wf` is that of a user memory set: framed areas, each with a frame for each of
  its pages, and the trampoline.

  - One lemma for each operation: what it makes of the space, and that it touches no frame of another owner.
-/

import TCore.Mm.MemorySet

namespace TCore.Mm

open TCore.Lib PageTable
open List Option Ram Mapping FrameTracker VirtAddr MapArea

structure Space (low : Nat) (pt : PageTable) (r : Ram) (ms : List Mapping) (data : List Nat) : Prop where
  sound : r.allocator.Sound
  built : Trie.Built next 3 r.mem pt.rootPpn (· ∈ pt.frames)
  owned : Ram.Owned low (data ++ pt.frames) r
  shows : Shows pt r.mem ms

namespace Space

variable {low v p f : Nat} {pt pt' : PageTable} {r r' : Ram} {ms ms' : List Mapping} {m : Mapping} {data data' own own' : List Nat}
  {fl : PTEFlags}

section

variable (h : Space low pt r ms data)
include h

theorem table : pt.Table r := by
  have howned := h.owned.right
  refine ⟨h.built, (nodup_append'.mp howned.nodup).1, ?_, fun f => howned.not_free⟩
  intro f hf
  exact (howned.range f (mem_append_left _ hf)).2

/-- A data frame is no table. -/
theorem not_table (hf : f ∈ data) : f ∉ pt.frames := by
  have hnodup := (nodup_append'.mp h.owned.nodup).1
  exact fun hf' => (nodup_append'.mp hnodup).2.2 hf hf'

theorem not_free (hf : f ∈ data ++ pt.frames) : f ∉ r.free := h.owned.not_free hf

theorem data_range (hf : f ∈ data) : low ≤ f ∧ f < r.allocator.end_ :=
  h.owned.range f (mem_append_left _ (mem_append_left _ hf))

theorem data_nodup : data.Nodup :=
  (nodup_append'.mp (nodup_append'.mp h.owned.nodup).1).1

theorem perm (hms : ms'.Perm ms) (hdata : data'.Perm data) : Space low pt r ms' data' :=
  ⟨h.sound, h.built, h.owned.perm (hdata.append_right _), h.shows.perm hms⟩

/-- The entries are in the tables: they stay as they are where the tables do. -/
theorem congr (hsound : r'.allocator.Sound)
    (howned : Ram.Owned low (data' ++ pt.frames) r') (hmem : ∀ f ∈ pt.frames, r'.mem f = r.mem f) :
    Space low pt r' ms data' :=
  ⟨hsound, h.built.congr hmem, howned, h.shows.congr fun _ => translate_congr h.built hmem⟩

/-- Another owner trades its frames. -/
theorem other (ht : Ram.Trade own r own' r') (hlow : ∀ f ∈ own, low ≤ f ∧ f < r.allocator.end_)
    (hdisj : ∀ f ∈ data ++ pt.frames, f ∉ own) :
    Space low pt r' ms data ∧ ∀ f ∈ data ++ pt.frames, r'.mem f = r.mem f := by
  have hout : ∀ f ∈ data ++ pt.frames, f ∉ own ++ r.free := by
    intro f hf hmem
    rcases mem_append.mp hmem with hmem | hmem
    · exact hdisj f hf hmem
    · exact h.not_free hf hmem
  have hmem : ∀ f ∈ data ++ pt.frames, r'.mem f = r.mem f := fun f hf => ht.elsewhere f (hout f hf)
  refine ⟨h.congr ht.sound ⟨?_, ?_⟩ fun f hf => hmem f (mem_append_right _ hf), hmem⟩
  · refine nodup_append'.mpr ⟨(nodup_append'.mp h.owned.nodup).1, ht.sound.nodup, ?_⟩
    intro f hf hfree
    exact hout f hf (ht.perm.subset (mem_append_right _ hfree))
  · intro f hf
    rw [ht.end_]
    rcases mem_append.mp hf with hf | hf
    · exact h.owned.range f (mem_append_left _ hf)
    · rcases mem_append.mp (ht.perm.subset (mem_append_right _ hf)) with hown | hfree
      · exact hlow f hown
      · exact h.owned.range f (mem_append_right _ hfree)

/-- Writes, the owner's or another's, that leave the tables as they are. -/
theorem wrote {into : Nat → Prop} (hw : Ram.Wrote into r r') (hinto : ∀ f, into f → f ∉ pt.frames) :
    Space low pt r' ms data := by
  refine h.congr (hw.allocator ▸ h.sound) ⟨?_, ?_⟩ fun f hf => hw.elsewhere f fun hf' => hinto f hf' hf
  · rw [free, hw.allocator]
    exact h.owned.nodup
  · rw [free, hw.allocator]
    exact h.owned.range

theorem map (hv : v < 2 ^ 27) (hp : p < 2 ^ 44) (hmap : pt.map r v p fl = some (pt', r')) :
    Space low pt' r' (ms ++ [⟨v, p, fl⟩]) data ∧ Ram.Trade (data ++ pt.frames) r (data ++ pt'.frames) r' ∧
      pt'.rootPpn = pt.rootPpn ∧ ∀ f ∈ data, r'.mem f = r.mem f := by
  have hmapped := map_spec h.table h.sound hmap
  have htrade := hmapped.toKept.trade.frame data
  have howned := htrade.owned h.owned
  refine ⟨⟨hmapped.sound, hmapped.table.built, howned, ?_⟩, htrade, hmapped.root, ?_⟩
  · exact (hmapped.shows h.shows hv hp).perm (perm_append_singleton _ _)
  · intro f hf
    refine hmapped.elsewhere f ?_
    exact fun hf' => (nodup_append'.mp (nodup_append'.mp howned.nodup).1).2.2 hf hf'

theorem alloc (halloc : r.frameAlloc = some (f, r')) :
    Space low pt r' ms (data ++ [f]) ∧ Ram.Trade (data ++ pt.frames) r (data ++ [f] ++ pt.frames) r' ∧ r'.mem f = 0 ∧
      ∀ g ∈ data ++ pt.frames, r'.mem g = r.mem g := by
  have hspec := frameAlloc_spec h.sound halloc
  have hmem : ∀ g ∈ data ++ pt.frames, r'.mem g = r.mem g := by
    intro g hg
    rw [hspec.mem, Function.update_of_ne]
    intro heq
    subst heq
    exact h.not_free hg (hspec.free ▸ mem_cons_self)
  have htrade : Ram.Trade (data ++ pt.frames) r (data ++ [f] ++ pt.frames) r' := by
    refine (hspec.trade.frame (data ++ pt.frames)).congr ?_ ?_
    · rw [append_nil]
    · rw [append_assoc, append_assoc]
      exact perm_append_comm.append_left data
  refine ⟨h.congr hspec.sound (htrade.owned h.owned) fun g hg => hmem g (mem_append_right _ hg), htrade, ?_, hmem⟩
  rw [hspec.mem, Function.update_self]

theorem alloc_lt (halloc : r.frameAlloc = some (f, r')) : f < 2 ^ 44 :=
  lt_of_lt_of_le (frameAlloc_spec h.sound halloc).lt_end h.sound.end_le

end

theorem dealloc (h : Space low pt r ms (f :: data)) : ∃ r', r.frameDealloc f = some r' ∧ Space low pt r' ms data ∧
    Ram.Trade (f :: data ++ pt.frames) r (data ++ pt.frames) r' ∧ r'.free = f :: r.free ∧ r'.mem = r.mem := by
  obtain ⟨r', hr', htrade, hfree, hmem⟩ := frameDealloc_spec h.sound h.owned
  exact ⟨r', hr', h.congr htrade.sound (htrade.owned h.owned) fun g _ => by rw [hmem], htrade, hfree, hmem⟩

theorem unmap (h : Space low pt r (m :: ms) data) : ∃ r', pt.unmap r m.vpn = some r' ∧ Space low pt r' ms data ∧
    Ram.Trade (data ++ pt.frames) r (data ++ pt.frames) r' ∧ r'.free = r.free ∧ ∀ f ∈ data, r'.mem f = r.mem f := by
  have hleaf := h.shows.leaf (mem_cons_self (a := m) (l := ms))
  cases hun : pt.unmap r m.vpn with
  | none =>
    rw [unmap_eq_none.mp hun] at hleaf
    cases hleaf
  | some r' =>
    have hspec := unmap_spec h.table h.sound hun
    have htrade := hspec.toKept.trade.frame data
    obtain ⟨fs, hfs, hfree⟩ := hspec.taken
    obtain rfl : fs = [] := append_right_eq_self.mp hfs.symm
    refine ⟨r', rfl, ⟨hspec.sound, hspec.table.built, htrade.owned h.owned, hspec.shows h.shows⟩, htrade, hfree.symm, ?_⟩
    intro f hf
    exact hspec.elsewhere f (h.not_table hf)

end Space

/-! ## Areas -/

namespace MapArea

def mappings (a : MapArea) : List Mapping := a.dataFrames.map fun x => ⟨x.1, x.2.ppn, a.mapPerm⟩

/-- The frames of the pages that go back with the area. -/
def frames (a : MapArea) : List Nat := FrameTracker.owned (a.dataFrames.map Prod.snd)

/-- An area of a user as it has been mapped: each page has its tracker. -/
structure Wf (a : MapArea) : Prop where
  pages : a.dataFrames.map Prod.fst = a.vpnRange
  tracked : ∀ x ∈ a.dataFrames, x.2.nodrop = (a.mapType == .noalloc)
  notIdentical : a.mapType ≠ .identical

variable {low : Nat} {a a' : MapArea} {pt pt' : PageTable} {r r' : Ram} {ms : List Mapping} {data vs : List Nat}

theorem mem_vpnRange {v : Nat} : v ∈ a.vpnRange ↔ a.start ≤ v ∧ v < a.end_ := by
  rw [vpnRange, mem_range'_1]
  omega

theorem vpnRange_lt (hend : a.end_ ≤ 2 ^ 27) : ∀ v ∈ a.vpnRange, v < 2 ^ 27 :=
  fun _ hv => (mem_vpnRange.mp hv).2.trans_le hend

theorem nodup_vpnRange : a.vpnRange.Nodup := nodup_range'

theorem Wf.vpns (h : a.Wf) : a.mappings.map vpn = a.vpnRange := by
  rw [mappings, List.map_map, ← h.pages]
  rfl

theorem Wf.frames_eq (h : a.Wf) (hframed : a.mapType = .framed) : a.frames = a.mappings.map Mapping.ppn := by
  rw [frames, FrameTracker.owned, filter_eq_self.mpr, List.map_map, mappings, List.map_map]
  · rfl
  · intro t ht
    obtain ⟨x, hx, rfl⟩ := mem_map.mp ht
    rw [h.tracked x hx, hframed]
    rfl

/-- The trackers of newly allocated frames. -/
def trackers (vs fs : List Nat) : List (Nat × FrameTracker) := vs.zip (fs.map fun f => ⟨f, false⟩)

def newMappings (vs fs : List Nat) (perm : PTEFlags) : List Mapping :=
  (trackers vs fs).map fun x => ⟨x.1, x.2.ppn, perm⟩

theorem fst_trackers {fs : List Nat} (h : fs.length = vs.length) : (trackers vs fs).map Prod.fst = vs := by
  rw [trackers, map_fst_zip]
  rw [length_map, h]

theorem snd_trackers {fs : List Nat} (h : fs.length = vs.length) : (trackers vs fs).map Prod.snd = fs.map fun f => ⟨f, false⟩ := by
  rw [trackers, map_snd_zip]
  rw [length_map, h]

theorem owned_new (fs : List Nat) : owned (fs.map fun f => ⟨f, false⟩) = fs := by
  rw [owned, filter_eq_self.mpr, List.map_map]
  · exact map_id fs
  · intro t ht
    obtain ⟨f, -, rfl⟩ := mem_map.mp ht
    rfl

/-- A frame for each of the pages, cleared, and an entry that leads to it. -/
structure MappedPages (low : Nat) (a : MapArea) (pt : PageTable) (r : Ram) (ms : List Mapping) (data vs fs : List Nat) (a' : MapArea)
    (pt' : PageTable) (r' : Ram) : Prop where
  length : fs.length = vs.length
  area : a' = { a with dataFrames := a.dataFrames ++ trackers vs fs }
  space : Space low pt' r' (ms ++ newMappings vs fs a.mapPerm) (data ++ fs)
  trade : Ram.Trade (data ++ pt.frames) r (data ++ fs ++ pt'.frames) r'
  root : pt'.rootPpn = pt.rootPpn
  kept : ∀ f ∈ data, r'.mem f = r.mem f
  zero : ∀ f ∈ fs, r'.mem f = 0
  cost : r.free.length ≤ r'.free.length + 3 * vs.length

section

variable (hframed : a.mapType = .framed) (hs : Space low pt r ms data)
include hframed hs

theorem mapOne_spec {v : Nat} (hv : v < 2 ^ 27)
    (h : a.mapOne pt r v = some (a', pt', r')) : ∃ f, MappedPages low a pt r ms data [v] [f] a' pt' r' := by
  simp only [mapOne, hframed] at h
  obtain ⟨⟨f, r₁⟩, halloc, hrest⟩ := bind_eq_some_iff.mp h
  obtain ⟨⟨pt₂, r₂⟩, hmap, heq⟩ := map_eq_some_iff.mp hrest
  cases heq
  obtain ⟨hs₁, htrade₁, hzero, hkept₁⟩ := hs.alloc halloc
  obtain ⟨hs₂, htrade₂, hroot, hkept₂⟩ := hs₁.map hv (hs.alloc_lt halloc) hmap
  refine ⟨f, rfl, by rw [hframed]; rfl, hs₂, htrade₁.trans htrade₂, hroot, ?_, ?_, ?_⟩
  · intro g hg
    rw [hkept₂ g (mem_append_left _ hg), hkept₁ g (mem_append_left _ hg)]
  · intro g hg
    rw [mem_singleton] at hg
    subst hg
    rw [hkept₂ g (mem_append_right _ (mem_singleton_self g)), hzero]
  · have hfree := (frameAlloc_spec hs.sound halloc).free
    have hcost : r₁.free.length ≤ r₂.free.length + 2 := map_cost hs₁.sound hmap
    dsimp only
    rw [hfree, length_cons, length_singleton]
    omega

theorem mapPages_spec (hv : ∀ v ∈ vs, v < 2 ^ 27)
    (h : a.mapPages pt r vs = some (a', pt', r')) : ∃ fs, MappedPages low a pt r ms data vs fs a' pt' r' := by
  induction vs generalizing a pt r ms data with
  | nil =>
    cases h
    refine ⟨[], rfl, by simp [trackers], by simpa [newMappings, trackers] using hs, ?_, rfl, fun _ _ => rfl, by simp, Nat.le_refl _⟩
    rw [append_nil]
    exact .refl hs.sound
  | cons v vs ih =>
    obtain ⟨⟨a₁, pt₁, r₁⟩, hone, hrest⟩ := bind_eq_some_iff.mp h
    obtain ⟨f, h₁⟩ := mapOne_spec hframed hs (hv v mem_cons_self) hone
    have harea := h₁.area
    subst harea
    obtain ⟨fs, h₂⟩ := ih (a := { a with dataFrames := a.dataFrames ++ trackers [v] [f] }) hframed h₁.space
      (fun w hw => hv w (mem_cons_of_mem _ hw)) hrest
    refine ⟨f :: fs, ?_, ?_, ?_, ?_, h₂.root.trans h₁.root, ?_, ?_, ?_⟩
    · rw [length_cons, length_cons, h₂.length]
    · rw [h₂.area]
      simp [trackers]
    · have hspace := h₂.space
      simpa [newMappings, trackers] using hspace
    · have htrade := h₁.trade.trans h₂.trade
      simpa using htrade
    · intro g hg
      rw [h₂.kept g (mem_append_left _ hg), h₁.kept g hg]
    · intro g hg
      rcases mem_cons.mp hg with rfl | hg
      · rw [h₂.kept g (mem_append_right _ (mem_singleton_self g)), h₁.zero g (mem_singleton_self g)]
      · exact h₂.zero g hg
    · have hcost₁ := h₁.cost
      have hcost₂ := h₂.cost
      rw [length_singleton] at hcost₁
      rw [length_cons]
      omega

/-- Pages that are not mapped can be, with three frames for each. -/
theorem mapPages_isSome (hv : ∀ v ∈ vs, v < 2 ^ 27)
    (hnodup : vs.Nodup) (hnew : ∀ v ∈ vs, v ∉ ms.map vpn) (hfree : 3 * vs.length ≤ r.free.length) :
    (a.mapPages pt r vs).isSome := by
  induction vs generalizing a pt r ms data with
  | nil => rfl
  | cons v vs ih =>
    rw [length_cons] at hfree
    have hv₁ := hv v mem_cons_self
    obtain ⟨⟨f, r₁⟩, halloc⟩ := isSome_iff_exists.mp (frameAlloc_isSome hs.sound (ne_nil_of_length_pos (by omega)))
    obtain ⟨hs₁, -, -, -⟩ := hs.alloc halloc
    have hlen := congrArg length (frameAlloc_spec hs.sound halloc).free
    rw [length_cons] at hlen
    have hleaf : pt.leaf r₁.mem v = none := (hs₁.shows.leaf_eq_none hv₁).mpr (hnew v mem_cons_self)
    have hmapped : (pt.map r₁ v f a.mapPerm).isSome := map_isSome hs₁.table hs₁.sound (by omega) hleaf
    obtain ⟨⟨pt₁, r₂⟩, hmap⟩ := isSome_iff_exists.mp hmapped
    have hone : a.mapOne pt r v = some ({ a with dataFrames := a.dataFrames ++ [(v, ⟨f, false⟩)] }, pt₁, r₂) := by
      simp only [mapOne, hframed, halloc, bind_some, hmap, map_some]
    obtain ⟨g, h₁⟩ := mapOne_spec hframed hs hv₁ hone
    have hcost := h₁.cost
    rw [length_singleton] at hcost
    rw [mapPages, hone, bind_some]
    refine ih (a := { a with dataFrames := a.dataFrames ++ [(v, ⟨f, false⟩)] }) hframed h₁.space
      (fun w hw => hv w (mem_cons_of_mem _ hw)) (nodup_cons.mp hnodup).2 ?_ (by omega)
    intro w hw hmem
    rw [map_append, mem_append] at hmem
    rcases hmem with hmem | hmem
    · exact hnew w (mem_cons_of_mem _ hw) hmem
    · have hmem : w ∈ [v] := hmem
      rw [mem_singleton] at hmem
      subst hmem
      exact (nodup_cons.mp hnodup).1 hw

end

/-- An area without frames has been mapped. -/
structure Placed (low : Nat) (a : MapArea) (pt : PageTable) (r : Ram) (ms : List Mapping) (data : List Nat) (a' : MapArea)
    (pt' : PageTable) (r' : Ram) : Prop where
  wf : a'.Wf
  same : a' = { a with dataFrames := a'.dataFrames }
  space : Space low pt' r' (ms ++ a'.mappings) (data ++ a'.frames)
  trade : Ram.Trade (data ++ pt.frames) r (data ++ a'.frames ++ pt'.frames) r'
  root : pt'.rootPpn = pt.rootPpn
  kept : ∀ f ∈ data, r'.mem f = r.mem f
  zero : ∀ f ∈ a'.frames, r'.mem f = 0
  cost : r.free.length ≤ r'.free.length + 3 * a.vpnRange.length

theorem map_spec (hframed : a.mapType = .framed) (hempty : a.dataFrames = []) (hs : Space low pt r ms data)
    (hv : ∀ v ∈ a.vpnRange, v < 2 ^ 27) (h : a.map pt r = some (a', pt', r')) : Placed low a pt r ms data a' pt' r' := by
  obtain ⟨fs, hpages⟩ := mapPages_spec hframed hs hv h
  have harea := hpages.area
  rw [hempty, nil_append] at harea
  subst harea
  have hframes : owned ((trackers a.vpnRange fs).map Prod.snd) = fs := by
    rw [snd_trackers hpages.length, owned_new]
  refine ⟨⟨?_, ?_, ?_⟩, rfl, ?_, ?_, hpages.root, hpages.kept, ?_, hpages.cost⟩
  · exact fst_trackers hpages.length
  · intro x hx
    have hsnd := mem_map_of_mem (f := Prod.snd) hx
    rw [snd_trackers hpages.length] at hsnd
    obtain ⟨f, -, hf⟩ := mem_map.mp hsnd
    rw [← hf, hframed]
    rfl
  · intro hid
    rw [hframed] at hid
    cases hid
  · rw [frames, hframes]
    exact hpages.space
  · rw [frames, hframes]
    exact hpages.trade
  · rw [frames, hframes]
    exact hpages.zero

end MapArea

/-! ## Memory sets -/

namespace MemorySet

def mappings (ms : MemorySet) : List Mapping := ms.areas.flatMap MapArea.mappings

def data (ms : MemorySet) : List Nat := ms.areas.flatMap MapArea.frames

/-- All the frames that go back with the memory set. -/
def frames (ms : MemorySet) : List Nat := ms.data ++ ms.pageTable.frames

def trampoline (strampoline : Nat) : Mapping := ⟨trampolineVpn, PhysAddr.fromUsize strampoline / PAGE_SIZE, .R ||| .X⟩

theorem trampolineVpn_eq : trampolineVpn = 2 ^ 27 - 1 := by decide

/-- The memory set of a user: its areas and the trampoline, which is in the kernel. -/
structure Wf (low strampoline : Nat) (ms : MemorySet) (r : Ram) : Prop where
  aligned : pageOffset (PhysAddr.fromUsize strampoline) = 0
  kernel : (trampoline strampoline).ppn < low
  areas : ∀ a ∈ ms.areas, a.Wf
  space : Space low ms.pageTable r (trampoline strampoline :: ms.mappings) ms.data

variable {low strampoline : Nat} {ms ms₁ ms' : MemorySet} {r r₁ r' : Ram} {a a' : MapArea} {pt' : PageTable}

theorem mappings_push : (⟨pt', ms.areas ++ [a]⟩ : MemorySet).mappings = ms.mappings ++ a.mappings := by
  rw [mappings, flatMap_append, flatMap_singleton]
  rfl

theorem data_push : (⟨pt', ms.areas ++ [a]⟩ : MemorySet).data = ms.data ++ a.frames := by
  rw [data, flatMap_append, flatMap_singleton]
  rfl

theorem push_none (h : ms.push low r a none = some (ms', r')) :
    ∃ a', a.map ms.pageTable r = some (a', ms'.pageTable, r') ∧ ms' = ⟨ms'.pageTable, ms.areas ++ [a']⟩ := by
  obtain ⟨⟨a', pt', r''⟩, hmap, hrest⟩ := bind_eq_some_iff.mp h
  cases hrest
  exact ⟨a', hmap, rfl⟩

theorem push_of_map (h : a.map ms.pageTable r = some (a', pt', r')) :
    ms.push low r a none = some (⟨pt', ms.areas ++ [a']⟩, r') := by
  rw [push, h]
  rfl

theorem Wf.vpn_lt (h : ms.Wf low strampoline r) (ha : a ∈ ms.areas) : ∀ v ∈ a.vpnRange, v < 2 ^ 27 := by
  intro v hv
  rw [← (h.areas a ha).vpns] at hv
  obtain ⟨m, hm, rfl⟩ := mem_map.mp hv
  exact (h.space.shows.bounds m (mem_cons_of_mem _ (mem_flatMap.mpr ⟨a, ha, hm⟩))).1

theorem Wf.push (h : ms.Wf low strampoline r)
    (hp : MapArea.Placed low a ms.pageTable r (trampoline strampoline :: ms.mappings) ms.data a' pt' r') :
    (⟨pt', ms.areas ++ [a']⟩ : MemorySet).Wf low strampoline r' := by
  refine ⟨h.aligned, h.kernel, ?_, ?_⟩
  · intro b hb
    rcases mem_append.mp hb with hb | hb
    · exact h.areas b hb
    · rw [mem_singleton] at hb
      exact hb ▸ hp.wf
  · rw [mappings_push, data_push]
    exact hp.space

theorem newBare_spec (hs : r.allocator.Sound) (howned : Ram.Owned low [] r) (h : newBare r = some (ms, r')) :
    ms.areas = [] ∧ Space low ms.pageTable r' [] [] ∧ Ram.Trade [] r ms.pageTable.frames r' ∧
      r.free.length = r'.free.length + 1 := by
  obtain ⟨⟨pt, r₁⟩, hnew, heq⟩ := map_eq_some_iff.mp h
  cases heq
  have htrade := new_trade hs hnew
  refine ⟨rfl, ⟨htrade.sound, (new_spec hs hnew).1.built, htrade.owned howned, shows_new fun v => new_translate hnew⟩, htrade, ?_⟩
  obtain ⟨⟨f, r₂⟩, halloc, heq⟩ := map_eq_some_iff.mp hnew
  cases heq
  exact congrArg length (frameAlloc_spec hs halloc).free

theorem trampoline_ppn_lt : (trampoline strampoline).ppn < 2 ^ 44 := by
  simp only [trampoline, PhysAddr.fromUsize, PAGE_SIZE]
  omega

/-- A memory set with the trampoline alone. -/
theorem bare_spec (hs : r.allocator.Sound) (howned : Ram.Owned low [] r) (hkernel : (trampoline strampoline).ppn < low)
    (hnew : newBare r = some (ms, r₁)) (htramp : ms.mapTrampoline strampoline r₁ = some (ms', r')) :
    ms'.areas = [] ∧ ms'.Wf low strampoline r' ∧ Ram.Trade [] r ms'.frames r' ∧ r.free.length ≤ r'.free.length + 3 := by
  obtain ⟨hareas, hspace, htrade, hfree⟩ := newBare_spec hs howned hnew
  obtain ⟨haligned, hmap⟩ := ite_none_right_eq_some.mp htramp
  obtain ⟨⟨pt', r₂⟩, hmap, heq⟩ := map_eq_some_iff.mp hmap
  cases heq
  obtain ⟨hspace', htrade', -, -⟩ := hspace.map (by decide) trampoline_ppn_lt hmap
  have hcost : r₁.free.length ≤ r'.free.length + 2 := map_cost hspace.sound hmap
  have hdata : ({ ms with pageTable := pt' } : MemorySet).data = [] := by
    rw [data, hareas, flatMap_nil]
  have hmappings : ({ ms with pageTable := pt' } : MemorySet).mappings = [] := by
    rw [mappings, hareas, flatMap_nil]
  refine ⟨hareas, ⟨haligned, hkernel, ?_, ?_⟩, ?_, by omega⟩
  · rw [hareas]
    intro a ha
    cases ha
  · rw [hdata, hmappings]
    exact hspace'
  · rw [frames, hdata]
    exact htrade.trans htrade'

theorem bare_isSome (hs : r.allocator.Sound) (howned : Ram.Owned low [] r)
    (haligned : pageOffset (PhysAddr.fromUsize strampoline) = 0) (hfree : 3 ≤ r.free.length) :
    ∃ ms r₁ ms' r', newBare r = some (ms, r₁) ∧ ms.mapTrampoline strampoline r₁ = some (ms', r') := by
  obtain ⟨⟨f, r₀⟩, halloc⟩ :=
    isSome_iff_exists.mp (frameAlloc_isSome hs (ne_nil_of_length_pos (by omega)))
  have hnew : newBare r = some (⟨⟨f, [f]⟩, []⟩, r₀) := by
    rw [newBare, PageTable.new, halloc]
    rfl
  obtain ⟨-, hspace, -, hcost⟩ := newBare_spec hs howned hnew
  have hleaf := (hspace.shows.leaf_eq_none (v := trampolineVpn) (by decide)).mpr not_mem_nil
  have hmapped : (map ⟨f, [f]⟩ r₀ trampolineVpn (PhysAddr.fromUsize strampoline / PAGE_SIZE) (.R ||| .X)).isSome :=
    map_isSome hspace.table hspace.sound (by omega) hleaf
  obtain ⟨⟨pt', r'⟩, hmap⟩ := isSome_iff_exists.mp hmapped
  refine ⟨_, _, ⟨pt', []⟩, r', hnew, ?_⟩
  rw [mapTrampoline, if_pos haligned, hmap, map_some]

theorem ceil_le {va : Nat} (h : va < 2 ^ 39) : ceil va ≤ 2 ^ 27 := by
  simp only [ceil, PAGE_SIZE]
  omega

/-- A framed area with the given bounds and permissions has been added behind the others. -/
structure Inserted (low strampoline : Nat) (ms : MemorySet) (r : Ram) (start end_ : Nat) (perm : PTEFlags) (a : MapArea)
    (ms' : MemorySet) (r' : Ram) : Prop where
  area : a = ⟨start, end_, a.dataFrames, .framed, perm⟩
  areas : ms'.areas = ms.areas ++ [a]
  wf : ms'.Wf low strampoline r'
  trade : Ram.Trade ms.frames r ms'.frames r'
  root : ms'.pageTable.rootPpn = ms.pageTable.rootPpn
  kept : ∀ f ∈ ms.data, r'.mem f = r.mem f
  cost : r.free.length ≤ r'.free.length + 3 * (end_ - start)

section insert

variable {startVa endVa : Nat} {permission : PTEFlags}

theorem Wf.inserted (h : ms.Wf low strampoline r) (hframed : a.mapType = .framed)
    (hp : MapArea.Placed low a ms.pageTable r (trampoline strampoline :: ms.mappings) ms.data a' pt' r') :
    Inserted low strampoline ms r a.start a.end_ a.mapPerm a' ⟨pt', ms.areas ++ [a']⟩ r' := by
  have hlen : a.vpnRange.length = a.end_ - a.start := length_range'
  refine ⟨?_, rfl, h.push hp, ?_, hp.root, hp.kept, hlen ▸ hp.cost⟩
  · rw [← hframed]
    exact hp.same
  · rw [frames, frames, data_push]
    exact hp.trade

theorem Inserted.data {start end_ : Nat} {perm : PTEFlags} (h : Inserted low strampoline ms r start end_ perm a ms' r') :
    ms'.data = ms.data ++ a.frames := by
  rw [MemorySet.data, h.areas, flatMap_append, flatMap_singleton]
  rfl

/-- The frames of the new area are written to. -/
theorem Inserted.wrote {start end_ : Nat} {perm : PTEFlags} (h : Inserted low strampoline ms r start end_ perm a ms' r₁)
    (hw : Ram.Wrote (· ∈ a.frames) r₁ r') : Inserted low strampoline ms r start end_ perm a ms' r' := by
  have hdata := h.data
  have hinto : ∀ f ∈ a.frames, f ∈ ms'.data := fun f hf => hdata ▸ mem_append_right _ hf
  have hspace := h.wf.space.wrote hw fun f hf => h.wf.space.not_table (hinto f hf)
  refine ⟨h.area, h.areas, ⟨h.wf.aligned, h.wf.kernel, h.wf.areas, hspace⟩, ?_, h.root, ?_, ?_⟩
  · exact h.trade.trans ((hw.mono fun f hf => mem_append_left _ (hinto f hf)).trade h.trade.sound)
  · intro f hf
    rw [hw.elsewhere f, h.kept f hf]
    have hnodup := h.wf.space.data_nodup
    rw [hdata] at hnodup
    exact fun hf' => (nodup_append'.mp hnodup).2.2 hf hf'
  · have hfree : r'.free = r₁.free := by
      rw [free, hw.allocator]
    rw [hfree]
    exact h.cost

theorem push_spec (h : ms.Wf low strampoline r) (hframed : a.mapType = .framed) (hempty : a.dataFrames = [])
    (hend : a.end_ ≤ 2 ^ 27) (hpush : ms.push low r a none = some (ms', r')) :
    ∃ a', Inserted low strampoline ms r a.start a.end_ a.mapPerm a' ms' r' := by
  obtain ⟨a', hmap, hms'⟩ := push_none hpush
  rw [hms']
  exact ⟨a', h.inserted hframed (map_spec hframed hempty h.space (vpnRange_lt hend) hmap)⟩

theorem insertFramedArea_spec (h : ms.Wf low strampoline r) (hend : endVa < 2 ^ 39)
    (hins : ms.insertFramedArea low r startVa endVa permission = some (ms', r')) :
    floor startVa ≤ ceil endVa ∧
      ∃ a, Inserted low strampoline ms r (floor startVa) (ceil endVa) permission a ms' r' := by
  obtain ⟨a, hnew, hpush⟩ := bind_eq_some_iff.mp hins
  obtain ⟨hle, heq⟩ := ite_none_right_eq_some.mp hnew
  cases heq
  exact ⟨hle, push_spec h rfl rfl (ceil_le hend) hpush⟩

section inserted

variable {start end_ v : Nat} {perm : PTEFlags}

variable (h : Inserted low strampoline ms r start end_ perm a ms' r')
include h

theorem Inserted.framed (hframed : ∀ b ∈ ms.areas, b.mapType = .framed) :
    ∀ b ∈ ms'.areas, b.mapType = .framed := by
  intro b hb
  rw [h.areas, mem_append, mem_singleton] at hb
  rcases hb with hb | rfl
  · exact hframed b hb
  · rw [h.area]

theorem Inserted.mappings : ms'.mappings = ms.mappings ++ a.mappings := by
  rw [MemorySet.mappings, h.areas, flatMap_append, flatMap_singleton]
  rfl

/-- The pages of the new area. -/
theorem Inserted.mem_vpns :
    v ∈ a.mappings.map vpn ↔ start ≤ v ∧ v < end_ := by
  have hwf : a.Wf := h.wf.areas a (h.areas ▸ mem_append_right _ (mem_singleton_self a))
  rw [hwf.vpns, mem_vpnRange, h.area]

theorem Inserted.exists_mapping (hstart : start ≤ v) (hend : v < end_) :
    ∃ m ∈ ms'.mappings, m.vpn = v ∧ m.flags = perm := by
  obtain ⟨m, hm, hvpn⟩ := mem_map.mp (h.mem_vpns.mpr ⟨hstart, hend⟩)
  refine ⟨m, h.mappings ▸ mem_append_right _ hm, hvpn, ?_⟩
  obtain ⟨x, -, rfl⟩ := mem_map.mp hm
  dsimp only
  rw [h.area]

end inserted

theorem push_isSome (h : ms.Wf low strampoline r) (hframed : a.mapType = .framed) (hend : a.end_ ≤ 2 ^ 27)
    (hnew : ∀ v ∈ a.vpnRange, v ∉ (trampoline strampoline :: ms.mappings).map vpn)
    (hfree : 3 * (a.end_ - a.start) ≤ r.free.length) : (ms.push low r a none).isSome := by
  have hlen : a.vpnRange.length = a.end_ - a.start := length_range'
  obtain ⟨⟨a', pt', r'⟩, hmap⟩ := isSome_iff_exists.mp
    (mapPages_isSome hframed h.space (vpnRange_lt hend) nodup_vpnRange hnew (hlen ▸ hfree))
  rw [push_of_map hmap]
  rfl

theorem insertFramedArea_isSome (h : ms.Wf low strampoline r) (hend : endVa < 2 ^ 39)
    (hle : floor startVa ≤ ceil endVa)
    (hnew : ∀ v, floor startVa ≤ v → v < ceil endVa →
      v ∉ (trampoline strampoline :: ms.mappings).map vpn)
    (hfree : 3 * (VirtAddr.ceil endVa - VirtAddr.floor startVa) ≤ r.free.length) :
    (ms.insertFramedArea low r startVa endVa permission).isSome := by
  rw [insertFramedArea, MapArea.new, if_pos hle, bind_some]
  refine push_isSome h rfl (ceil_le hend) ?_ hfree
  intro v hv
  obtain ⟨hge, hlt⟩ := mem_vpnRange.mp hv
  exact hnew v hge hlt

end insert

/-! ## Dropping -/

section drop

variable {own fs : List Nat} {areas : List MapArea}

theorem deallocAll_spec (hs : r.allocator.Sound) (ho : Ram.Owned low (fs ++ own) r) :
    ∃ r', fs.foldlM frameDealloc r = some r' ∧ Ram.Trade (fs ++ own) r own r' ∧ r'.mem = r.mem := by
  induction fs generalizing r with
  | nil => exact ⟨r, rfl, .refl hs, rfl⟩
  | cons f fs ih =>
    obtain ⟨r₁, hr₁, htrade₁, -, hmem₁⟩ := frameDealloc_spec hs ho
    obtain ⟨r', hr', htrade', hmem'⟩ := ih htrade₁.sound (htrade₁.owned ho)
    refine ⟨r', ?_, htrade₁.trans htrade', hmem'.trans hmem₁⟩
    rw [foldlM_cons, hr₁]
    exact hr'

theorem dropAreas_spec (hs : r.allocator.Sound) (ho : Ram.Owned low (areas.flatMap MapArea.frames ++ own) r) :
    ∃ r', MapArea.dropAreas areas r = some r' ∧ Ram.Trade (areas.flatMap MapArea.frames ++ own) r own r' ∧ r'.mem = r.mem := by
  induction areas generalizing r with
  | nil => exact ⟨r, rfl, .refl hs, rfl⟩
  | cons a areas ih =>
    rw [flatMap_cons, append_assoc] at ho ⊢
    obtain ⟨r₁, hr₁, htrade₁, -, hmem₁⟩ := dropAll_spec hs ho
    obtain ⟨r', hr', htrade', hmem'⟩ := ih htrade₁.sound (htrade₁.owned ho)
    refine ⟨r', ?_, htrade₁.trans htrade', hmem'.trans hmem₁⟩
    rw [MapArea.dropAreas, foldlM_cons, MapArea.drop, hr₁]
    exact hr'

/-- A dropped memory set gives back its frames and writes nothing. -/
theorem drop_spec (hs : r.allocator.Sound) (ho : Ram.Owned low (ms.frames ++ own) r) :
    ∃ r', ms.drop r = some r' ∧ Ram.Trade (ms.frames ++ own) r own r' ∧ r'.mem = r.mem := by
  have hperm : (ms.pageTable.frames ++ (ms.data ++ own)).Perm (ms.frames ++ own) := by
    rw [frames, ← append_assoc]
    exact perm_append_comm.append_right own
  obtain ⟨r₁, hr₁, htrade₁, hmem₁⟩ := deallocAll_spec hs (ho.perm hperm)
  obtain ⟨r', hr', htrade', hmem'⟩ := dropAreas_spec htrade₁.sound (htrade₁.owned (ho.perm hperm))
  refine ⟨r', ?_, (htrade₁.congr hperm.symm (.refl _)).trans htrade', hmem'.trans hmem₁⟩
  rw [drop, hr₁]
  exact hr'

end drop

end MemorySet

end TCore.Mm
