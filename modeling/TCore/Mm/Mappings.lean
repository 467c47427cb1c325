/-
  TCore.Mm.Mappings — what a page table maps, as a list.

  `Shows` lists the valid entries of a page table, in no particular order; its other entries are empty.
  `map` adds one, `unmap` takes one away, and writes to frames that are no tables change none.

  A `map` takes at most two frames for tables, and none for a page whose neighbour in the same block of
  512 pages is mapped.
-/

import TCore.Mm.PageTable

namespace TCore.Mm

open TCore.Lib PageTable
open List Option PageTableEntry

structure Mapping where
  vpn : Nat
  ppn : Nat
  flags : PTEFlags

def Mapping.pte (m : Mapping) : PageTableEntry := .new m.ppn (m.flags ||| .V)

variable {m : Mapping}

theorem Mapping.ppn_pte (h : m.ppn < 2 ^ 44) : m.pte.ppn = m.ppn := ppn_new h

theorem Mapping.flags_pte : m.pte.flags = m.flags ||| .V := flags_new

theorem Mapping.isValid_pte : m.pte.isValid = true := isValid_new_or

/-- The valid entries of a page table are those of `ms`, and the others are empty. -/
structure Shows (pt : PageTable) (mem : Memory) (ms : List Mapping) : Prop where
  nodup : (ms.map Mapping.vpn).Nodup
  bounds : ∀ m ∈ ms, m.vpn < 2 ^ 27 ∧ m.ppn < 2 ^ 44
  entries : ∀ v < 2 ^ 27, ∀ pte, pt.leaf mem v = some pte ↔ ∃ m ∈ ms, m.vpn = v ∧ m.pte = pte
  others : ∀ v < 2 ^ 27, ∀ pte, pt.translate mem v = some pte → pte.isValid = true ∨ pte = .empty

section Shows

variable {pt pt' : PageTable} {mem mem' : Memory} {r r' : Ram} {ms ms' : List Mapping} {m : Mapping} {v w p : Nat}
  {fl : PTEFlags} {pte : PageTableEntry}

theorem Shows.leaf (h : Shows pt mem ms) (hm : m ∈ ms) : pt.leaf mem m.vpn = some m.pte :=
  (h.entries _ (h.bounds m hm).1 _).mpr ⟨m, hm, rfl, rfl⟩

theorem Shows.leaf_eq_none (h : Shows pt mem ms) (hv : v < 2 ^ 27) : pt.leaf mem v = none ↔ v ∉ ms.map Mapping.vpn := by
  rw [eq_none_iff_forall_ne_some]
  refine ⟨?_, ?_⟩
  · intro hnone hmem
    obtain ⟨m, hm, rfl⟩ := mem_map.mp hmem
    exact hnone _ (h.leaf hm)
  · intro hnot pte hpte
    obtain ⟨m, hm, rfl, -⟩ := (h.entries v hv pte).mp hpte
    exact hnot (mem_map_of_mem hm)

/-- Where the mappings of `own` have gone and the others stay. -/
theorem Shows.leaf_rest {own : List Mapping} (h : Shows pt mem (own ++ ms)) (h' : Shows pt' mem' ms) (hv : v < 2 ^ 27) :
    pt'.leaf mem' v = if v ∈ own.map Mapping.vpn then none else pt.leaf mem v := by
  have hnodup := h.nodup
  rw [map_append] at hnodup
  split
  · rename_i hown
    exact (h'.leaf_eq_none hv).mpr fun hmem => (nodup_append'.mp hnodup).2.2 hown hmem
  · rename_i hother
    refine ext fun pte => ?_
    rw [h'.entries v hv pte, h.entries v hv pte]
    refine ⟨?_, ?_⟩
    · intro ⟨m, hm, hvpn, hpte⟩
      exact ⟨m, mem_append_right _ hm, hvpn, hpte⟩
    · intro ⟨m, hm, hvpn, hpte⟩
      rcases mem_append.mp hm with hm | hm
      · exact absurd (hvpn ▸ mem_map_of_mem hm) hother
      · exact ⟨m, hm, hvpn, hpte⟩

theorem Shows.perm (h : Shows pt mem ms) (hp : ms'.Perm ms) : Shows pt mem ms' := by
  refine ⟨(hp.map _).nodup_iff.mpr h.nodup, fun m hm => h.bounds m (hp.subset hm), ?_, h.others⟩
  intro v hv pte
  rw [h.entries v hv pte]
  exact exists_congr fun m => and_congr_left fun _ => hp.mem_iff.symm

theorem Shows.congr (h : Shows pt mem ms) (heq : ∀ v, pt'.translate mem' v = pt.translate mem v) : Shows pt' mem' ms := by
  refine ⟨h.nodup, h.bounds, ?_, ?_⟩
  · intro v hv pte
    rw [PageTable.leaf, heq]
    exact h.entries v hv pte
  · intro v hv pte hpte
    rw [heq] at hpte
    exact h.others v hv pte hpte

theorem shows_new (hnone : ∀ v, pt.translate mem v = none) : Shows pt mem [] := by
  refine ⟨nodup_nil, fun m hm => absurd hm not_mem_nil, ?_, ?_⟩
  · intro v hv pte
    rw [leaf, hnone]
    simp
  · intro v hv pte hpte
    rw [hnone] at hpte
    cases hpte

/-- A walk uses the 27 bits of a page number. -/
theorem PageTable.translate_mod : pt.translate mem (v % 2 ^ 27) = pt.translate mem v := by
  have hidx : indexes (v % 2 ^ 27) = indexes v := by
    simp only [indexes, cons.injEq, Fin.ext_iff, Fin.val_ofNat, and_true]
    omega
  rw [translate, translate, findPte, findPte, hidx]

/-- What a walk can find: a mapping or an empty entry. -/
theorem Shows.translate (h : Shows pt mem ms) (hpte : pt.translate mem v = some pte) :
    (∃ m ∈ ms, m.vpn = v % 2 ^ 27 ∧ m.pte = pte) ∨ pte = .empty := by
  rw [← translate_mod] at hpte
  have hv : v % 2 ^ 27 < 2 ^ 27 := Nat.mod_lt _ (by decide)
  rcases h.others _ hv pte hpte with hvalid | hempty
  · exact .inl ((h.entries _ hv pte).mp (leaf_eq_some.mpr ⟨hpte, hvalid⟩))
  · exact .inr hempty

theorem leaf_of_translate (h : pt'.translate mem' w = pt.translate mem w ∨
    pt.translate mem w = none ∧ pt'.translate mem' w = some .empty) : pt'.leaf mem' w = pt.leaf mem w := by
  rw [leaf, leaf]
  rcases h with heq | ⟨hnone, hempty⟩
  · rw [heq]
  · rw [hnone, hempty]
    rfl

theorem PageTable.Mapped.leaf_other (h : Mapped pt r v p fl pt' r') (hv : v < 2 ^ 27) (hw : w < 2 ^ 27) (hne : w ≠ v) :
    pt'.leaf r'.mem w = pt.leaf r.mem w :=
  leaf_of_translate (h.others w fun heq => hne (indexes_inj hw hv heq))

theorem PageTable.Mapped.shows (h : Mapped pt r v p fl pt' r') (hs : Shows pt r.mem ms) (hv : v < 2 ^ 27) (hp : p < 2 ^ 44) :
    Shows pt' r'.mem (⟨v, p, fl⟩ :: ms) := by
  have hnew : v ∉ ms.map Mapping.vpn := (hs.leaf_eq_none hv).mp h.unmapped
  refine ⟨nodup_cons.mpr ⟨hnew, hs.nodup⟩, ?_, ?_, ?_⟩
  · intro m hm
    rcases mem_cons.mp hm with rfl | hm
    · exact ⟨hv, hp⟩
    · exact hs.bounds m hm
  · intro w hw pte
    by_cases hwv : w = v
    · subst hwv
      have hleaf : pt'.leaf r'.mem w = some (Mapping.pte ⟨w, p, fl⟩) :=
        leaf_eq_some.mpr ⟨h.entry, Mapping.isValid_pte⟩
      rw [hleaf, some.injEq]
      refine ⟨fun heq => ⟨_, mem_cons_self, rfl, heq⟩, ?_⟩
      intro ⟨m, hm, hmv, hpte⟩
      rcases mem_cons.mp hm with rfl | hm
      · exact hpte
      · exact absurd (hmv ▸ mem_map_of_mem hm) hnew
    · rw [h.leaf_other hv hw hwv, hs.entries w hw pte]
      refine exists_congr fun m => ⟨fun ⟨hm, hrest⟩ => ⟨mem_cons_of_mem _ hm, hrest⟩, ?_⟩
      intro ⟨hm, hmv, hpte⟩
      rcases mem_cons.mp hm with rfl | hm
      · exact absurd hmv.symm hwv
      · exact ⟨hm, hmv, hpte⟩
  · intro w hw pte hpte
    by_cases hwv : w = v
    · rw [hwv, h.entry, some.injEq] at hpte
      exact .inl (hpte ▸ isValid_new_or)
    · rcases h.others w fun heq => hwv (indexes_inj hw hv heq) with heq | ⟨-, hempty⟩
      · exact hs.others w hw pte (heq ▸ hpte)
      · rw [hempty, some.injEq] at hpte
        exact .inr hpte.symm

theorem PageTable.Unmapped.shows (h : Unmapped pt r m.vpn r') (hs : Shows pt r.mem (m :: ms)) : Shows pt r'.mem ms := by
  obtain ⟨hnot, hnodup⟩ := nodup_cons.mp hs.nodup
  have hidx : ∀ w < 2 ^ 27, w ≠ m.vpn → indexes w ≠ indexes m.vpn :=
    fun w hw hwm heq => hwm (indexes_inj hw (hs.bounds m mem_cons_self).1 heq)
  refine ⟨hnodup, fun m' hm => hs.bounds m' (mem_cons_of_mem _ hm), ?_, ?_⟩
  · intro w hw pte
    by_cases hwm : w = m.vpn
    · subst hwm
      have hleaf : pt.leaf r'.mem m.vpn = none := by
        rw [leaf, h.entry]
        rfl
      rw [hleaf]
      refine ⟨fun hnone => (some_ne_none _ hnone.symm).elim, ?_⟩
      intro hm
      obtain ⟨m', hm', hv, -⟩ := hm
      exact absurd (hv ▸ mem_map_of_mem hm') hnot
    · rw [leaf, h.others w (hidx w hw hwm), ← leaf, hs.entries w hw pte]
      refine exists_congr fun m' => ⟨?_, fun hm => ⟨mem_cons_of_mem _ hm.1, hm.2⟩⟩
      intro hm
      obtain ⟨hm', hv, hpte⟩ := hm
      rcases mem_cons.mp hm' with rfl | hm'
      · exact absurd hv.symm hwm
      · exact ⟨hm', hv, hpte⟩
  · intro w hw pte hpte
    by_cases hwm : w = m.vpn
    · rw [hwm, h.entry, some.injEq] at hpte
      exact .inr hpte.symm
    · rw [h.others w (hidx w hw hwm)] at hpte
      exact hs.others w hw pte hpte

end Shows

/-! ## Frames for tables -/

namespace PageTable

variable {pt pt' : PageTable} {r r' : Ram} {v w k p : Nat} {fl : PTEFlags} {idxs : List (Fin 512)} {i : Fin 512}
  {place : Nat × Fin 512}

theorem new_translate (h : new r = some (pt, r')) : pt.translate r'.mem v = none := by
  obtain ⟨⟨f, r₁⟩, hf, heq⟩ := map_eq_some_iff.mp h
  cases heq
  obtain ⟨⟨g, a⟩, -, heq⟩ := map_eq_some_iff.mp hf
  cases heq
  rw [translate_eq]
  have hnode : ∀ i p, Trie.node next (Function.update r.mem f 0) f (i :: p) = none := by
    intro i p
    rw [Trie.node, Function.update_self]
    exact congrArg (bind · _) next_empty
  exact congrArg (Option.map _) (hnode _ _)

theorem new_trade (hs : r.allocator.Sound) (h : new r = some (pt, r')) : Ram.Trade [] r pt.frames r' := by
  obtain ⟨⟨f, r₁⟩, hf, heq⟩ := map_eq_some_iff.mp h
  cases heq
  exact (Ram.frameAlloc_spec hs hf).trade

theorem Kept.trade (h : Kept pt r pt' r') : Ram.Trade pt.frames r pt'.frames r' := by
  obtain ⟨fs, hframes, hfree⟩ := h.taken
  refine ⟨h.sound, h.end_, ?_, ?_⟩
  · rw [hframes, hfree, append_assoc]
  · intro f hf
    apply h.elsewhere
    intro hf'
    rw [hfree, ← append_assoc, ← hframes] at hf
    exact hf (mem_append_left _ hf')

theorem findPteCreateFrom_cost (hs : r.allocator.Sound)
    (h : findPteCreateFrom pt r k (idxs ++ [i]) = some (place, pt', r')) :
    r.free.length ≤ r'.free.length + idxs.length := by
  induction idxs generalizing pt r k with
  | nil =>
    cases h
    exact Nat.le_refl _
  | cons idx rest ih =>
    rw [cons_append, findPteCreateFrom_cons (by simp)] at h
    rw [length_cons]
    split at h
    · obtain ⟨⟨f, r₁⟩, hf, hloop⟩ := bind_eq_some_iff.mp h
      have hspec := Ram.frameAlloc_spec hs hf
      have hle := ih (r := r₁.write k idx (PageTableEntry.new f .V)) hspec.sound hloop
      have hlen : r.free.length = r₁.free.length + 1 := by rw [hspec.free, length_cons]
      have hsame : (r₁.write k idx (PageTableEntry.new f .V)).free = r₁.free := rfl
      rw [hsame] at hle
      omega
    · have hle := ih hs h
      omega

theorem map_cost (hs : r.allocator.Sound) (h : pt.map r v p fl = some (pt', r')) : r.free.length ≤ r'.free.length + 2 := by
  obtain ⟨⟨place, pt₁, r₁⟩, hfind, hwrite⟩ := bind_eq_some_iff.mp h
  obtain ⟨-, heq⟩ := ite_none_left_eq_some.mp hwrite
  cases heq
  rw [findPteCreate, indexes_eq] at hfind
  exact findPteCreateFrom_cost hs hfind

theorem map_isSome (ht : pt.Table r) (hs : r.allocator.Sound) (hfree : 2 ≤ r.free.length) (hleaf : pt.leaf r.mem v = none) :
    (pt.map r v p fl).isSome := by
  rw [isSome_iff_ne_none, ne_eq, map_eq_none ht hs (findPteCreate_isSome hs hfree), hleaf]
  simp

theorem findPteCreateFrom_of_find (h : findPteFrom r.mem k idxs = some place) :
    findPteCreateFrom pt r k idxs = some (place, pt, r) := by
  induction idxs generalizing k with
  | nil => cases h
  | cons idx rest ih =>
    cases rest with
    | nil =>
      cases h
      rfl
    | cons j rest =>
      rw [findPteFrom_cons (by simp)] at h
      rw [findPteCreateFrom_cons (by simp)]
      obtain ⟨hvalid, h⟩ := ite_none_left_eq_some.mp h
      rw [if_neg hvalid]
      exact ih h

/-- The tables for a page are there if a page of the same block is mapped. -/
theorem findPte_of_block (hblock : v / 512 = w / 512) (hw : pt.leaf r.mem w ≠ none) : (pt.findPte r.mem v).isSome := by
  have hpath : path v = path w := by
    have h18 : ∀ u : Nat, u / 2 ^ 18 = u / 512 / 512 := fun u => by omega
    have h9 : ∀ u : Nat, u / 2 ^ 9 = u / 512 := fun u => by omega
    simp only [path, indexes, dropLast, h18, h9, hblock]
  have hfind : pt.findPte r.mem w ≠ none := by
    intro hnone
    rw [leaf, translate, hnone] at hw
    exact hw rfl
  rw [findPte_eq, isSome_map, hpath]
  rw [findPte_eq, ne_eq, map_eq_none_iff] at hfind
  exact isSome_iff_ne_none.mpr hfind

/-- Such a `map` takes no frame. -/
theorem map_of_find (hfind : (pt.findPte r.mem v).isSome) (hleaf : pt.leaf r.mem v = none) :
    ∃ r', pt.map r v p fl = some (pt, r') ∧ r'.allocator = r.allocator := by
  obtain ⟨place, hplace⟩ := isSome_iff_exists.mp hfind
  have hvalid : ¬isValid (r.mem place.1 place.2) = true := by
    intro hvalid
    rw [leaf, translate, hplace] at hleaf
    simp [hvalid] at hleaf
  refine ⟨r.write place.1 place.2 (PageTableEntry.new p (fl ||| .V)), ?_, rfl⟩
  rw [map, findPteCreate, findPteCreateFrom_of_find hplace, bind_some]
  dsimp only
  exact if_neg hvalid

end PageTable

end TCore.Mm
