/-
  TCore.Mm.Fork — the address space of a forked process (mm/memory_set.rs, from_existed_user).

  The areas of the user are mapped again one after the other, and the pages of each are copied through
  both page tables. The user's tables and frames are none of the new memory set's, so the copies made
  before stay what they are while frames are taken and tables grow.
-/

import TCore.Lib.Lists
import TCore.Mm.Space

namespace TCore.Mm

open TCore.Lib PageTable
open List Option Mapping MapArea StackFrameAllocator Ram

/-- What can be seen at a page: the flags and the contents of the frame. -/
def PageTable.page (pt : PageTable) (mem : Memory) (vpn : Nat) : Option (PTEFlags × Frame) :=
  (pt.leaf mem vpn).map fun pte => (pte.flags, mem pte.ppn)

section Space

variable {low v : Nat} {pt : PageTable} {r : Ram} {ms : List Mapping} {m : Mapping} {data : List Nat}

section

variable (h : Space low pt r ms data)
include h

theorem Space.translate_mapping (hm : m ∈ ms) :
    ∃ pte, pt.translate r.mem m.vpn = some pte ∧ pte.ppn = m.ppn :=
  ⟨m.pte, (leaf_eq_some.mp (h.shows.leaf hm)).1, ppn_pte (h.shows.bounds m hm).2⟩

theorem Space.page_mapping (hm : m ∈ ms) :
    pt.page r.mem m.vpn = some (m.flags ||| .V, r.mem m.ppn) := by
  rw [page, h.shows.leaf hm, map_some, flags_pte, ppn_pte (h.shows.bounds m hm).2]

theorem Space.page_eq_none (hv : v < 2 ^ 27) (hnone : v ∉ ms.map vpn) :
    pt.page r.mem v = none := by
  rw [page, (h.shows.leaf_eq_none hv).mpr hnone, map_none]

end

end Space

namespace MemorySet

/-! ## The copies of the pages -/

/-- `y` is the page `x` of a memory set, in a frame of another. -/
def SamePage (data : List Nat) (x y : Mapping) : Prop := y.vpn = x.vpn ∧ y.flags = x.flags ∧ y.ppn ∈ data

section copy

variable {low : Nat} {user ms : MemorySet} {r r' : Ram} {us ns : List Mapping} {xs ys : List Mapping} {mem : Memory}

section

variable (hu : Space low user.pageTable r us user.data) (hn : Space low ms.pageTable r ns ms.data)
include hu hn

theorem copyPage_spec {x y : Mapping} (hx : x ∈ us) (hy : y ∈ ns) (hxy : SamePage ms.data x y) :
    ∃ r', copyPage low user ms r x.vpn = some r' ∧ Ram.Wrote (· = y.ppn) r r' ∧ r'.mem y.ppn = r.mem x.ppn := by
  obtain ⟨hvpn, -, hdata⟩ := hxy
  obtain ⟨src, hsrc, hsrcppn⟩ := hu.translate_mapping hx
  obtain ⟨dst, hdst, hdstppn⟩ := hn.translate_mapping hy
  rw [hvpn] at hdst
  obtain ⟨hlow, hend⟩ := hn.data_range hdata
  obtain ⟨r', hstore⟩ := isSome_iff_exists.mp (store_isSome (g := fun _ => r.mem x.ppn) hlow hend)
  refine ⟨r', ?_, (store_wrote hstore).2, ?_⟩
  · rw [copyPage, hsrc, bind_some, hdst, bind_some, hsrcppn, hdstppn, hstore]
  · rw [store, if_pos ⟨hlow, hend⟩] at hstore
    cases hstore
    exact Function.update_self ..

/-- The loop over the pages of an area. The sources stay as they are, and a copy that has been made. -/
theorem copyPages_spec
    (hdisj : ∀ f ∈ user.frames, f ∉ ms.data) (hmem : ∀ f ∈ user.data, r.mem f = mem f)
    (hpairs : List.Forall₂ (SamePage ms.data) xs ys) (hx : ∀ x ∈ xs, x ∈ us ∧ x.ppn ∈ user.data) (hy : ∀ y ∈ ys, y ∈ ns)
    (hnodup : (ys.map ppn).Nodup) :
    ∃ r', (xs.map vpn).foldlM (copyPage low user ms) r = some r' ∧ Ram.Wrote (· ∈ ys.map ppn) r r' ∧
      List.Forall₂ (fun x y => SamePage ms.data x y ∧ r'.mem y.ppn = mem x.ppn) xs ys := by
  induction hpairs generalizing r with
  | nil => exact ⟨r, rfl, .refl, .nil⟩
  | @cons x y xs ys hxy _ ih =>
    obtain ⟨hxu, hxdata⟩ := hx x mem_cons_self
    have hydata := hxy.2.2
    obtain ⟨r₁, hcopy, hwrote, hcopied⟩ := copyPage_spec hu hn hxu (hy y mem_cons_self) hxy
    have hu₁ := hu.wrote hwrote fun f hf hf' => hdisj f (mem_append_right _ hf') (hf ▸ hydata)
    have hn₁ := hn.wrote hwrote fun f hf => hf ▸ hn.not_table hydata
    have hmem₁ : ∀ f ∈ user.data, r₁.mem f = mem f := by
      intro f hf
      rw [hwrote.elsewhere f fun heq => hdisj f (mem_append_left _ hf) (heq ▸ hydata), hmem f hf]
    obtain ⟨hnot, hnodup'⟩ := nodup_cons.mp hnodup
    obtain ⟨r', hloop, hwrote', hcopies⟩ := ih hu₁ hn₁ hmem₁ (fun x' hx' => hx x' (mem_cons_of_mem _ hx'))
      (fun y' hy' => hy y' (mem_cons_of_mem _ hy')) hnodup'
    refine ⟨r', ?_, (hwrote.mono ?_).trans (hwrote'.mono ?_), .cons ⟨hxy, ?_⟩ hcopies⟩
    · rw [map_cons, foldlM_cons, hcopy]
      exact hloop
    · intro f hf
      exact hf ▸ mem_cons_self
    · intro f hf
      exact mem_cons_of_mem _ hf
    · rw [hwrote'.elsewhere _ hnot, hcopied, hmem _ hxdata]

end

end copy

/-! ## The loop over the areas -/

theorem flags_mappings {a : MapArea} {m : Mapping} (h : m ∈ a.mappings) : m.flags = a.mapPerm := by
  obtain ⟨x, -, rfl⟩ := mem_map.mp h
  rfl

variable {ms : MemorySet}

theorem mappings_mem_data {a : MapArea} (ha : a ∈ ms.areas) (hwf : a.Wf) (hframed : a.mapType = .framed) :
    ∀ m ∈ a.mappings, m ∈ ms.mappings ∧ m.ppn ∈ ms.data := by
  intro m hm
  refine ⟨mem_flatMap.mpr ⟨a, ha, hm⟩, mem_flatMap.mpr ⟨a, ha, ?_⟩⟩
  rw [hwf.frames_eq hframed]
  exact mem_map_of_mem hm

/-- The areas `done` of the user have been copied. `r₀` is the memory before the fork. -/
structure Copying (low strampoline : Nat) (r₀ : Ram) (done : List MapArea) (ms : MemorySet) (r : Ram) : Prop where
  wf : ms.Wf low strampoline r
  trade : Ram.Trade [] r₀ ms.frames r
  shape : ms.areas.map MapArea.fromAnother = done.map MapArea.fromAnother
  copies : List.Forall₂ (fun x y => SamePage ms.data x y ∧ r.mem y.ppn = r₀.mem x.ppn) (done.flatMap MapArea.mappings) ms.mappings

variable {own : List Nat}

section areas

variable {low strampoline : Nat} {user ms ms' : MemorySet} {r₀ r r₁ r' : Ram} {a a' : MapArea} {pt' : PageTable}
  {done rest : List MapArea}

section

variable (hu : user.Wf low strampoline r₀)
include hu

/-- The frames of the new memory set were free, so they are none of the user's. -/
theorem Wf.frames_not_free (ht : Ram.Trade [] r₀ own r) :
    ∀ f ∈ user.frames, f ∉ own := by
  intro f hf hown
  exact hu.space.not_free hf (ht.perm.subset (mem_append_left _ hown))

theorem Wf.other (ht : Ram.Trade [] r₀ own r) :
    user.Wf low strampoline r ∧ ∀ f ∈ user.frames, r.mem f = r₀.mem f := by
  obtain ⟨hspace, hmem⟩ := hu.space.other ht (fun f hf => absurd hf not_mem_nil) fun f _ => not_mem_nil
  exact ⟨⟨hu.aligned, hu.kernel, hu.areas, hspace⟩, hmem⟩

theorem copyArea_spec (ha : a ∈ user.areas) (hframed : a.mapType = .framed)
    (hc : Copying low strampoline r₀ done ms r) (hmap : (fromAnother a).map ms.pageTable r = some (a', pt', r₁)) :
    ∃ r', copyArea low user (ms, r) a = some (⟨pt', ms.areas ++ [a']⟩, r') ∧
      Copying low strampoline r₀ (done ++ [a]) ⟨pt', ms.areas ++ [a']⟩ r' ∧ r'.free = r₁.free := by
  have hwfa := hu.areas a ha
  have hin := mappings_mem_data ha hwfa hframed
  have hbound : ∀ v ∈ (fromAnother a).vpnRange, v < 2 ^ 27 := fun v hv => hu.vpn_lt ha v hv
  have hp := map_spec (a := fromAnother a) hframed rfl hc.wf.space hbound hmap
  have hperm : a'.mapPerm = a.mapPerm := by
    rw [hp.same]
    rfl
  have hframed' : a'.mapType = .framed := by
    rw [hp.same]
    exact hframed
  have hwf₁ : (⟨pt', ms.areas ++ [a']⟩ : MemorySet).Wf low strampoline r₁ := hc.wf.push hp
  have htrade₁ : Ram.Trade [] r₀ (⟨pt', ms.areas ++ [a']⟩ : MemorySet).frames r₁ := by
    rw [frames, data_push]
    exact hc.trade.trans hp.trade
  generalize hms₁ : (⟨pt', ms.areas ++ [a']⟩ : MemorySet) = ms₁ at hwf₁ htrade₁ ⊢
  obtain ⟨hu₁, hmem₁⟩ := hu.other htrade₁
  have hdisj : ∀ f ∈ user.frames, f ∉ ms₁.data :=
    fun f hf hd => hu.frames_not_free htrade₁ f hf (mem_append_left _ hd)
  have hin' : ∀ m ∈ a'.mappings, m ∈ ms₁.mappings ∧ m.ppn ∈ ms₁.data := by
    refine mappings_mem_data ?_ hp.wf hframed'
    rw [← hms₁]
    exact mem_append_right _ (mem_singleton_self a')
  have hpairs : List.Forall₂ (SamePage ms₁.data) a.mappings a'.mappings := by
    refine forall₂_of_map_eq (f := vpn) (g := vpn) ?_ ?_
    · rw [hwfa.vpns, hp.wf.vpns, hp.same]
      rfl
    · intro x hx y hy heq
      exact ⟨heq.symm, by rw [flags_mappings hx, flags_mappings hy, hperm], (hin' y hy).2⟩
  have hnodup : (a'.mappings.map ppn).Nodup := by
    rw [← hp.wf.frames_eq hframed']
    exact (nodup_append'.mp hp.space.data_nodup).2.1
  obtain ⟨r', hloop, hwrote, hcopies⟩ := copyPages_spec hu₁.space hwf₁.space hdisj
    (fun f hf => hmem₁ f (mem_append_left _ hf)) hpairs
    (fun x hx => ⟨mem_cons_of_mem _ (hin x hx).1, (hin x hx).2⟩) (fun y hy => mem_cons_of_mem _ (hin' y hy).1) hnodup
  have hinto : ∀ f ∈ a'.mappings.map ppn, f ∈ ms₁.data := by
    intro f hf
    obtain ⟨m, hm, rfl⟩ := mem_map.mp hf
    exact (hin' m hm).2
  refine ⟨r', ?_, ⟨⟨hu.aligned, hu.kernel, hwf₁.areas, ?_⟩, ?_, ?_, ?_⟩, by rw [Ram.free, hwrote.allocator]⟩
  · rw [hwfa.vpns] at hloop
    rw [copyArea, push_of_map hmap, bind_some, hms₁]
    dsimp only
    rw [hloop, map_some]
  · exact hwf₁.space.wrote hwrote fun f hf => hwf₁.space.not_table (hinto f hf)
  · exact htrade₁.trans ((hwrote.mono fun f hf => mem_append_left _ (hinto f hf)).trade htrade₁.sound)
  · rw [← hms₁, map_append, map_append, hc.shape, map_singleton, map_singleton, hp.same]
    rfl
  · have hmappings : ms₁.mappings = ms.mappings ++ a'.mappings := by
      rw [← hms₁, mappings_push]
    have hdata : ms₁.data = ms.data ++ a'.frames := by
      rw [← hms₁, data_push]
    rw [flatMap_append, flatMap_singleton, hmappings]
    refine rel_append (hc.copies.imp ?_) hcopies
    rintro x y ⟨⟨hvpn, hflags, hppn⟩, hcopy⟩
    refine ⟨⟨hvpn, hflags, hdata ▸ mem_append_left _ hppn⟩, ?_⟩
    rw [hwrote.elsewhere, hp.kept _ hppn, hcopy]
    rw [← hp.wf.frames_eq hframed']
    exact fun hf => (nodup_append'.mp hp.space.data_nodup).2.2 hppn hf

theorem copyAreas_spec (hrest : ∀ a ∈ rest, a ∈ user.areas ∧ a.mapType = .framed)
    (hc : Copying low strampoline r₀ done ms r) (h : rest.foldlM (copyArea low user) (ms, r) = some (ms', r')) :
    Copying low strampoline r₀ (done ++ rest) ms' r' := by
  induction rest generalizing done ms r with
  | nil =>
    cases h
    rw [append_nil]
    exact hc
  | cons a rest ih =>
    obtain ⟨ha, hframed⟩ := hrest a mem_cons_self
    rw [foldlM_cons] at h
    obtain ⟨⟨ms₁, r₁⟩, hstep, hloop⟩ := bind_eq_some_iff.mp h
    obtain ⟨⟨ms₂, r₂⟩, hpush, -⟩ := bind_eq_some_iff.mp hstep
    obtain ⟨a', hmap, -⟩ := push_none hpush
    obtain ⟨r₃, hstep', hc', -⟩ := copyArea_spec hu ha hframed hc hmap
    rw [hstep] at hstep'
    cases hstep'
    have hloop' := ih (fun b hb => hrest b (mem_cons_of_mem _ hb)) hc' hloop
    rwa [append_assoc] at hloop'

end

/-- The pages of the areas that have not been copied yet are not mapped in the new memory set. -/
theorem Copying.vpns (hc : Copying low strampoline r₀ done ms r) :
    (trampoline strampoline :: ms.mappings).map Mapping.vpn = trampolineVpn :: (done.flatMap MapArea.mappings).map Mapping.vpn := by
  rw [map_cons]
  refine congrArg _ (forall₂_eq_eq_eq ▸ ?_)
  rw [forall₂_map_left_iff, forall₂_map_right_iff]
  exact (hc.copies.imp fun x y h => h.1.1).flip

theorem copyAreas_isSome (hu : user.Wf low strampoline r₀) (hframed : ∀ a ∈ user.areas, a.mapType = .framed)
    (hareas : user.areas = done ++ rest) (hc : Copying low strampoline r₀ done ms r)
    (hfree : 3 * (rest.flatMap MapArea.mappings).length ≤ r.free.length) :
    (rest.foldlM (copyArea low user) (ms, r)).isSome := by
  induction rest generalizing done ms r with
  | nil => rfl
  | cons a rest ih =>
    have ha : a ∈ user.areas := hareas ▸ mem_append_right _ mem_cons_self
    have hvpns := (hu.areas a ha).vpns
    have hlen : a.mappings.length = a.vpnRange.length := by
      rw [← hvpns, length_map]
    rw [flatMap_cons, length_append, hlen] at hfree
    have hnodup := hu.space.shows.nodup
    rw [mappings, hareas, flatMap_append, flatMap_cons, map_cons, map_append, map_append, hvpns] at hnodup
    have hnew : ∀ v ∈ a.vpnRange, v ∉ (trampoline strampoline :: ms.mappings).map vpn := by
      intro v hv hmem
      rw [hc.vpns] at hmem
      rcases mem_cons.mp hmem with rfl | hmem
      · exact (nodup_cons.mp hnodup).1 (mem_append_right _ (mem_append_left _ hv))
      · exact (nodup_append'.mp (nodup_cons.mp hnodup).2).2.2 hmem (mem_append_left _ hv)
    have hbound : ∀ v ∈ (fromAnother a).vpnRange, v < 2 ^ 27 := fun v hv => hu.vpn_lt ha v hv
    have hmapped : ((fromAnother a).map ms.pageTable r).isSome :=
      mapPages_isSome (a := fromAnother a) (hframed a ha) hc.wf.space hbound nodup_vpnRange hnew
        (le_trans (Nat.mul_le_mul_left 3 (Nat.le_add_right _ _)) hfree)
    obtain ⟨⟨a', pt', r₁⟩, hmap⟩ := isSome_iff_exists.mp hmapped
    have hcost : r.free.length ≤ r₁.free.length + 3 * a.vpnRange.length :=
      (map_spec (a := fromAnother a) (hframed a ha) rfl hc.wf.space hbound hmap).cost
    obtain ⟨r', hstep, hc', hfree'⟩ := copyArea_spec hu ha (hframed a ha) hc hmap
    rw [foldlM_cons, hstep]
    refine ih (by rw [hareas, append_assoc]; rfl) hc' ?_
    rw [hfree']
    omega

end areas

variable {strampoline : Nat}

/-- The memory set with the trampoline alone, before the loop. -/
theorem copying_nil {low : Nat} {r₀ r : Ram} (hareas : ms.areas = []) (hwf : ms.Wf low strampoline r)
    (htrade : Ram.Trade [] r₀ ms.frames r) : Copying low strampoline r₀ [] ms r := by
  refine ⟨hwf, htrade, ?_, ?_⟩
  · rw [hareas]
  · rw [mappings, hareas]
    exact .nil

theorem fromExistedUser_spec {low : Nat} {user : MemorySet} {r r' : Ram} (hu : user.Wf low strampoline r)
    (hframed : ∀ a ∈ user.areas, a.mapType = .framed) (h : fromExistedUser low strampoline user r = some (ms, r')) :
    Copying low strampoline r user.areas ms r' := by
  obtain ⟨⟨ms₀, r₀⟩, hnew, hrest⟩ := bind_eq_some_iff.mp h
  obtain ⟨⟨ms₁, r₁⟩, htramp, hloop⟩ := bind_eq_some_iff.mp hrest
  obtain ⟨hareas, hwf, htrade, -⟩ := bare_spec hu.space.sound hu.space.owned.nil hu.kernel hnew htramp
  exact copyAreas_spec hu (fun a ha => ⟨ha, hframed a ha⟩) (copying_nil hareas hwf htrade) hloop

/-- A frame for the root and two for the tables to the trampoline; a page takes as many. -/
theorem fromExistedUser_isSome {low : Nat} {user : MemorySet} {r : Ram} (hu : user.Wf low strampoline r)
    (hframed : ∀ a ∈ user.areas, a.mapType = .framed) (hfree : 3 + 3 * user.mappings.length ≤ r.free.length) :
    (fromExistedUser low strampoline user r).isSome := by
  obtain ⟨ms₀, r₀, ms₁, r₁, hnew, htramp⟩ := bare_isSome hu.space.sound hu.space.owned.nil hu.aligned (by omega)
  obtain ⟨hareas, hwf, htrade, hcost⟩ := bare_spec hu.space.sound hu.space.owned.nil hu.kernel hnew htramp
  rw [fromExistedUser, hnew, bind_some]
  dsimp only
  rw [htramp, bind_some]
  have hleft : 3 * (user.areas.flatMap MapArea.mappings).length ≤ r₁.free.length := by
    rw [mappings] at hfree
    omega
  exact copyAreas_isSome hu hframed rfl (copying_nil hareas hwf htrade) hleft

/-! ## What is seen through the page tables -/

/-- Only frames of pages of the memory set have been written to. The trampoline is not writable. -/
def WroteThrough (ms : MemorySet) (r r' : Ram) : Prop :=
  Ram.Wrote (fun f => ∃ v < 2 ^ 27, v ≠ trampolineVpn ∧ ∃ pte, ms.pageTable.leaf r.mem v = some pte ∧ pte.ppn = f) r r'

section seen

variable {low strampoline v w : Nat} {user ms : MemorySet} {r r' r'' : Ram} {pte pte' : PageTableEntry}

section

variable (h : ms.Wf low strampoline r) (hframed : ∀ a ∈ ms.areas, a.mapType = .framed)
include h hframed

theorem Wf.data_eq :
    ms.data = ms.mappings.map ppn := by
  rw [data, mappings, map_flatMap]
  exact flatMap_congr fun a ha => (h.areas a ha).frames_eq (hframed a ha)

theorem Wf.leaf_cases (hv : v < 2 ^ 27)
    (hleaf : ms.pageTable.leaf r.mem v = some pte) :
    (v = trampolineVpn ∧ pte.ppn = (trampoline strampoline).ppn) ∨
      (v ≠ trampolineVpn ∧ ∃ m ∈ ms.mappings, m.vpn = v ∧ m.ppn = pte.ppn ∧ m.ppn ∈ ms.data) := by
  obtain ⟨m, hm, rfl, rfl⟩ := (h.space.shows.entries v hv pte).mp hleaf
  have hppn := ppn_pte (h.space.shows.bounds m hm).2
  rcases mem_cons.mp hm with rfl | hm
  · exact .inl ⟨rfl, hppn⟩
  · refine .inr ⟨?_, m, hm, rfl, hppn.symm, ?_⟩
    · intro heq
      have hvpn : m.vpn = (trampoline strampoline).vpn := heq
      exact (nodup_cons.mp h.space.shows.nodup).1 (hvpn ▸ mem_map_of_mem hm)
    · rw [h.data_eq hframed]
      exact mem_map_of_mem hm

end

theorem WroteThrough.wrote (hw : ms.WroteThrough r r') (h : ms.Wf low strampoline r)
    (hframed : ∀ a ∈ ms.areas, a.mapType = .framed) : Ram.Wrote (· ∈ ms.data) r r' := by
  refine hw.mono ?_
  rintro f ⟨v, hv, hne, pte, hleaf, rfl⟩
  rcases h.leaf_cases hframed hv hleaf with ⟨heq, -⟩ | ⟨-, m, -, -, hppn, hdata⟩
  · exact absurd heq hne
  · exact hppn ▸ hdata

section

variable (h : ms.Wf low strampoline r) (hframed : ∀ a ∈ ms.areas, a.mapType = .framed)
include h hframed

/-- A memory set shows the same pages as long as its frames and the kernel's are as they were. -/
theorem Wf.page_congr
    (hmem : ∀ f ∈ ms.frames, r'.mem f = r.mem f) (hkernel : r'.mem (trampoline strampoline).ppn = r.mem (trampoline strampoline).ppn)
    (hv : v < 2 ^ 27) : ms.pageTable.page r'.mem v = ms.pageTable.page r.mem v := by
  have htrans := translate_congr (v := v) h.space.built fun f hf => hmem f (mem_append_right _ hf)
  have hleaf : ms.pageTable.leaf r'.mem v = ms.pageTable.leaf r.mem v := by
    rw [leaf, htrans]
    rfl
  rw [page, page, hleaf]
  refine map_congr fun pte hpte => ?_
  rcases h.leaf_cases hframed hv hpte with ⟨-, hppn⟩ | ⟨-, m, -, -, hppn, hdata⟩
  · rw [hppn, hkernel]
  · rw [← hppn, hmem _ (mem_append_left _ hdata)]

theorem Wf.ppn_inj (hv : v < 2 ^ 27)
    (hw : w < 2 ^ 27) (hvt : v ≠ trampolineVpn) (hleaf : ms.pageTable.leaf r.mem v = some pte)
    (hleaf' : ms.pageTable.leaf r.mem w = some pte') (hppn : pte'.ppn = pte.ppn) : w = v := by
  rcases h.leaf_cases hframed hv hleaf with ⟨heq, -⟩ | ⟨-, m, hm, rfl, hmppn, hdata⟩
  · exact absurd heq hvt
  rcases h.leaf_cases hframed hw hleaf' with ⟨-, hkernel⟩ | ⟨-, m', hm', rfl, hmppn', -⟩
  · have hlow := (h.space.data_range hdata).1
    have htramp := h.kernel
    omega
  · have hnodup := h.space.data_nodup
    rw [h.data_eq hframed] at hnodup
    rw [inj_on_of_nodup_map hnodup hm' hm (by omega)]

end

theorem Copying.framed (hc : Copying low strampoline r user.areas ms r') (hframed : ∀ a ∈ user.areas, a.mapType = .framed) :
    ∀ a ∈ ms.areas, a.mapType = .framed := by
  intro a ha
  have hmem := mem_map_of_mem (f := fromAnother) ha
  rw [hc.shape] at hmem
  obtain ⟨b, hb, heq⟩ := mem_map.mp hmem
  have htype : (fromAnother b).mapType = (fromAnother a).mapType := by
    rw [heq]
  exact htype.symm.trans (hframed b hb)

/-- The kernel's frames are not free. -/
theorem Wf.kernel_kept (hu : user.Wf low strampoline r) (ht : Ram.Trade [] r own r') :
    r'.mem (trampoline strampoline).ppn = r.mem (trampoline strampoline).ppn := by
  refine ht.elsewhere _ fun hfree => ?_
  have hlow := (hu.space.owned.range _ (mem_append_right _ hfree)).1
  have htramp := hu.kernel
  omega

theorem Wf.kernel_wrote (h : ms.Wf low strampoline r) (hw : Ram.Wrote (· ∈ ms.data) r r') :
    r'.mem (trampoline strampoline).ppn = r.mem (trampoline strampoline).ppn := by
  refine hw.elsewhere _ fun hdata => ?_
  have hlow := (h.space.data_range hdata).1
  have htramp := h.kernel
  omega

section

variable (hc : Copying low strampoline r user.areas ms r') (hu : user.Wf low strampoline r)
include hc hu

/-- A page of the copy is in a frame that was free, so in none of the user's. -/
theorem Copying.fresh
    (hframed : ∀ a ∈ user.areas, a.mapType = .framed) (hv : v < 2 ^ 27) (hne : v ≠ trampolineVpn)
    (hleaf : ms.pageTable.leaf r'.mem v = some pte) :
    pte.ppn ∈ r.free ∧ ∀ w < 2 ^ 27, ∀ pte', user.pageTable.leaf r.mem w = some pte' → pte'.ppn ≠ pte.ppn := by
  rcases hc.wf.leaf_cases (hc.framed hframed) hv hleaf with ⟨heq, -⟩ | ⟨-, m, -, -, hppn, hdata⟩
  · exact absurd heq hne
  have hfree : pte.ppn ∈ r.free := by
    rw [← hppn]
    exact hc.trade.perm.subset (mem_append_left _ (mem_append_left _ hdata))
  refine ⟨hfree, ?_⟩
  intro w hw pte' hleaf' heq
  rw [← heq] at hfree
  rcases hu.leaf_cases hframed hw hleaf' with ⟨-, hkernel⟩ | ⟨-, m', -, -, hppn', hdata'⟩
  · have hlow := (hu.space.owned.range _ (mem_append_right _ hfree)).1
    have htramp := hu.kernel
    omega
  · rw [← hppn'] at hfree
    exact hu.space.not_free (mem_append_left _ hdata') hfree

theorem Copying.page (hv : v < 2 ^ 27) :
    ms.pageTable.page r'.mem v = user.pageTable.page r.mem v := by
  have hvpns := hc.vpns
  by_cases hmem : v ∈ (trampoline strampoline :: user.mappings).map vpn
  · obtain ⟨x, hx, rfl⟩ := mem_map.mp hmem
    rw [hu.space.page_mapping hx]
    rcases mem_cons.mp hx with rfl | hx
    · rw [hc.wf.space.page_mapping mem_cons_self, hu.kernel_kept hc.trade]
    · obtain ⟨y, hy, ⟨hvpn, hflags, -⟩, hcopy⟩ := exists_of_forall₂ hc.copies x hx
      rw [← hvpn, hc.wf.space.page_mapping (mem_cons_of_mem _ hy), hflags, hcopy]
  · rw [hu.space.page_eq_none hv hmem, hc.wf.space.page_eq_none hv]
    rw [hvpns]
    exact hmem

end

end seen

/-- The child sees what the user sees, in frames of its own, and the user what it saw; what either of them writes from then
on the other does not see. -/
theorem fork_copies_pages {low strampoline : Nat} {user : MemorySet} {r : Ram} (hu : user.Wf low strampoline r)
    (hframed : ∀ a ∈ user.areas, a.mapType = .framed) :
    (3 + 3 * user.mappings.length ≤ r.free.length → (fromExistedUser low strampoline user r).isSome) ∧
    ∀ ms r', fromExistedUser low strampoline user r = some (ms, r') →
      ms.Wf low strampoline r' ∧ user.Wf low strampoline r' ∧
      (∀ v < 2 ^ 27, ms.pageTable.page r'.mem v = user.pageTable.page r.mem v) ∧
      ms.pageTable.leaf r'.mem trampolineVpn = user.pageTable.leaf r.mem trampolineVpn ∧
      (∀ v < 2 ^ 27, v ≠ trampolineVpn → ∀ pte, ms.pageTable.leaf r'.mem v = some pte → pte.ppn ∈ r.free ∧
        (∀ w < 2 ^ 27, w ≠ v → ∀ pte', ms.pageTable.leaf r'.mem w = some pte' → pte'.ppn ≠ pte.ppn) ∧
        ∀ w < 2 ^ 27, ∀ pte', user.pageTable.leaf r.mem w = some pte' → pte'.ppn ≠ pte.ppn) ∧
      (∀ v, user.pageTable.translate r'.mem v = user.pageTable.translate r.mem v) ∧
      (∀ v < 2 ^ 27, user.pageTable.page r'.mem v = user.pageTable.page r.mem v) ∧
      (∀ r'', ms.WroteThrough r' r'' → ∀ v < 2 ^ 27, user.pageTable.page r''.mem v = user.pageTable.page r'.mem v) ∧
      ∀ r'', user.WroteThrough r' r'' → ∀ v < 2 ^ 27, ms.pageTable.page r''.mem v = ms.pageTable.page r'.mem v := by
  refine ⟨fromExistedUser_isSome hu hframed, ?_⟩
  intro ms r' h
  have hc := fromExistedUser_spec hu hframed h
  have hframed' := hc.framed hframed
  obtain ⟨hu', hmem⟩ := hu.other hc.trade
  have hdisj := hu.frames_not_free hc.trade
  refine ⟨hc.wf, hu', fun v hv => hc.page hu hv, ?_, ?_, ?_, ?_, ?_, ?_⟩
  · have hleaf := hc.wf.space.shows.leaf (mem_cons_self)
    have hleaf' := hu.space.shows.leaf (mem_cons_self)
    exact hleaf.trans hleaf'.symm
  · intro v hv hne pte hleaf
    obtain ⟨hfree, huser⟩ := hc.fresh hu hframed hv hne hleaf
    refine ⟨hfree, ?_, huser⟩
    intro w hw hwv pte' hleaf' heq
    exact hwv (hc.wf.ppn_inj hframed' hv hw hne hleaf hleaf' heq)
  · intro v
    exact translate_congr hu.space.built fun f hf => hmem f (mem_append_right _ hf)
  · intro v hv
    exact hu.page_congr hframed hmem (hu.kernel_kept hc.trade) hv
  · intro r'' hw v hv
    have hwrote := hw.wrote hc.wf hframed'
    refine hu'.page_congr hframed ?_ ?_ hv
    · intro f hf
      exact hwrote.elsewhere f fun hd => hdisj f hf (mem_append_left _ hd)
    · exact hc.wf.kernel_wrote hwrote
  · intro r'' hw v hv
    have hwrote := hw.wrote hu' hframed
    refine hc.wf.page_congr hframed' ?_ ?_ hv
    · intro f hf
      exact hwrote.elsewhere f fun hd => hdisj f (mem_append_left _ hd) hf
    · exact hu'.kernel_wrote hwrote

/-- A memory set with a stack of two pages. -/
theorem exists_stack : ∃ (ms : MemorySet) (r : Ram), ms.Wf 0x80400 0x80200000 r ∧ (∀ a ∈ ms.areas, a.mapType = .framed) ∧
    ms.mappings.map vpn = [16, 17] ∧ 100 ≤ r.free.length := by
  have hsound : (init 0x80400 0x80500).Sound := sound_init (by decide) (by decide)
  have howned : Ram.Owned 0x80400 [] ⟨.init 0x80400 0x80500, 0⟩ := owned_init
  have hlen : (⟨.init 0x80400 0x80500, 0⟩ : Ram).free.length = 256 := length_range'
  have haligned : pageOffset (PhysAddr.fromUsize 0x80200000) = 0 := by decide
  obtain ⟨ms₀, r₀, ms₁, r₁, hnew, htramp⟩ := bare_isSome hsound howned haligned (by omega)
  obtain ⟨hareas, hwf, -, hcost⟩ := bare_spec hsound howned (by decide) hnew htramp
  have hmappings : ms₁.mappings = [] := by
    rw [mappings, hareas, flatMap_nil]
  have hpages : VirtAddr.ceil 0x12000 - VirtAddr.floor 0x10000 = 2 := by decide
  have hinsert : (ms₁.insertFramedArea 0x80400 r₁ 0x10000 0x12000 (.R ||| .W ||| .U)).isSome := by
    refine insertFramedArea_isSome hwf (by decide) (by decide) ?_ (by omega)
    intro v hge hlt
    have hlt : v < 18 := hlt
    rw [hmappings, map_singleton, mem_singleton]
    exact fun heq => absurd (heq ▸ hlt) (by decide)
  obtain ⟨⟨ms₂, r₂⟩, hinsert⟩ := isSome_iff_exists.mp hinsert
  obtain ⟨-, a, hi⟩ := insertFramedArea_spec hwf (by decide) hinsert
  have hcost₂ := hi.cost
  refine ⟨ms₂, r₂, hi.wf, hi.framed (by simp [hareas]), ?_, by omega⟩
  have ha : a.Wf := hi.wf.areas a (hi.areas ▸ mem_append_right _ (mem_singleton_self a))
  rw [hi.mappings, hmappings, nil_append, ha.vpns, hi.area]
  rfl

/-- Both have the first page of the stack, in frames of their own. -/
theorem fork_copies_stack : ∃ (user child : MemorySet) (r r' : Ram) (pte pte' : PageTableEntry), user.Wf 0x80400 0x80200000 r ∧
    user.mappings.length = 2 ∧ fromExistedUser 0x80400 0x80200000 user r = some (child, r') ∧
    user.pageTable.leaf r.mem 16 = some pte ∧ child.pageTable.leaf r'.mem 16 = some pte' ∧
    pte'.ppn ∈ r.free ∧ pte.ppn ≠ pte'.ppn ∧ pte'.flags = pte.flags ∧ r'.mem pte'.ppn = r.mem pte.ppn := by
  obtain ⟨user, r, hwf, hframed, hvpns, hfree⟩ := exists_stack
  have hlen : user.mappings.length = 2 := by
    rw [← length_map vpn, hvpns]
    rfl
  obtain ⟨hsome, hall⟩ := fork_copies_pages hwf hframed
  obtain ⟨⟨child, r'⟩, hfork⟩ := isSome_iff_exists.mp (hsome (by omega))
  obtain ⟨-, -, hpage, -, hown, -⟩ := hall child r' hfork
  obtain ⟨m, hm, hvpn⟩ := mem_map.mp (show 16 ∈ user.mappings.map vpn by rw [hvpns]; decide)
  have hleaf : user.pageTable.leaf r.mem 16 = some m.pte := hvpn ▸ hwf.space.shows.leaf (mem_cons_of_mem _ hm)
  have hpage := hpage 16 (by decide)
  rw [page, page, hleaf, map_some, map_eq_some_iff] at hpage
  obtain ⟨pte', hleaf', heq⟩ := hpage
  obtain ⟨hflags, hmem⟩ := Prod.mk.inj heq
  obtain ⟨hnew, -, hother⟩ := hown 16 (by decide) (by decide) pte' hleaf'
  exact ⟨user, child, r, r', m.pte, pte', hwf, hlen, hfork, hleaf, hleaf', hnew, hother 16 (by decide) _ hleaf, hflags, hmem⟩

end MemorySet

end TCore.Mm
