/-
  TCore.Mm.PageMap — a page table is a finite map from pages to frames with flags.

  Runs start with `PageTable::new()` and take `map`, `unmap` and, between them, whatever the rest of
  the kernel does with other frames. The history of the calls that returned is the map.

  A `map` can give another page an entry that is not valid where it had no table: `translate` is then
  `Some` of the empty entry where it was `None`.
-/

import TCore.Lib.Machine
import TCore.Mm.PageTable

namespace TCore.Mm

open TCore.Lib PageTable
open Option PageTableEntry

structure PageMapState where
  pt : PageTable
  ram : Ram

inductive PageMapEvent where
  | map (vpn : Fin (2 ^ 27)) (ppn : Fin (2 ^ 44)) (flags : PTEFlags)
  | unmap (vpn : Fin (2 ^ 27))
  /-- The rest of the kernel runs. -/
  | other (ram : Ram)

/-- The page that a call is about. -/
def PageMapEvent.page : PageMapEvent → Option (Fin (2 ^ 27))
  | .map vpn _ _ | .unmap vpn => some vpn
  | .other _ => none

/-- The rest of the kernel allocates and frees other frames and writes to other frames. -/
def Elsewhere (pt : PageTable) (r r' : Ram) : Prop :=
  r'.allocator.Sound ∧ ∀ f ∈ pt.frames, r'.mem f = r.mem f ∧ f < r'.allocator.end_ ∧ f ∉ r'.free

instance (a : StackFrameAllocator) : Decidable a.Sound :=
  decidable_of_iff (a.free.Nodup ∧ a.current ≤ a.end_ ∧ (∀ f ∈ a.recycled, f < a.current) ∧ a.end_ ≤ 2 ^ 44)
    ⟨fun ⟨h, h', h'', h'''⟩ => ⟨h, h', h'', h'''⟩, fun ⟨h, h', h'', h'''⟩ => ⟨h, h', h'', h'''⟩⟩

instance (pt : PageTable) (r r' : Ram) : Decidable (Elsewhere pt r r') := inferInstanceAs (Decidable (_ ∧ _))

def PageMapState.step (s : PageMapState) : PageMapEvent → Option PageMapState
  | .map vpn ppn flags => (s.pt.map s.ram vpn ppn flags).map fun (pt, ram) => ⟨pt, ram⟩
  | .unmap vpn => (s.pt.unmap s.ram vpn).map fun ram => ⟨s.pt, ram⟩
  | .other ram => if Elsewhere s.pt s.ram ram then some ⟨s.pt, ram⟩ else none

def pageMap : Machine PageMapState PageMapEvent where
  init s := ∃ r : Ram, r.allocator.Sound ∧ PageTable.new r = some (s.pt, s.ram)
  step := PageMapState.step

/-! ## The map -/

abbrev Mappings := Fin (2 ^ 27) → Option (Fin (2 ^ 44) × PTEFlags)

def Mappings.note (_ : PageMapState) (e : PageMapEvent) (m : Mappings) : Mappings :=
  match e with
  | .map vpn ppn flags => Function.update m vpn (some (ppn, flags))
  | .unmap vpn => Function.update m vpn none
  | .other _ => m

/-- Page tables with the calls that have returned. -/
def mappings : Machine (PageMapState × Mappings) PageMapEvent := pageMap.recording (fun _ => none) Mappings.note

/-- The valid entry of a page is the one of its last `map`. -/
structure PageMapInv (s : PageMapState) (m : Mappings) : Prop where
  table : s.pt.Table s.ram
  sound : s.ram.allocator.Sound
  entries : ∀ v : Fin (2 ^ 27), s.pt.leaf s.ram.mem v = (m v).map fun (ppn, flags) => new ppn (flags ||| .V)

variable {s t : PageMapState} {m : Mappings} {e : PageMapEvent} {v : Fin (2 ^ 27)}

theorem indexes_ne {v w : Fin (2 ^ 27)} (h : v ≠ w) : indexes v ≠ indexes w :=
  fun heq => h (Fin.ext (indexes_inj v.isLt w.isLt heq))

section

variable (h : PageMapInv s m) (hst : s.step e = some t)
include h hst

/-- What a step does to the entry of another page. -/
theorem PageMapInv.others (hv : e.page ≠ some v) :
    t.pt.translate t.ram.mem v = s.pt.translate s.ram.mem v ∨
      s.pt.translate s.ram.mem v = none ∧ t.pt.translate t.ram.mem v = some .empty := by
  cases e with
  | map w p fl =>
    obtain ⟨⟨pt, ram⟩, hmap, rfl⟩ := map_eq_some_iff.mp hst
    exact (map_spec h.table h.sound hmap).others v (indexes_ne fun heq => hv (congrArg some heq.symm))
  | unmap w =>
    obtain ⟨ram, hunmap, rfl⟩ := map_eq_some_iff.mp hst
    exact .inl ((unmap_spec h.table h.sound hunmap).others v (indexes_ne fun heq => hv (congrArg some heq.symm)))
  | other r =>
    obtain ⟨hr, heq⟩ := ite_none_right_eq_some.mp hst
    cases heq
    exact .inl (translate_congr h.table.built fun f hf => (hr.2 f hf).1)

theorem PageMapInv.leaf_others (hv : e.page ≠ some v) :
    t.pt.leaf t.ram.mem v = s.pt.leaf s.ram.mem v := by
  rw [PageTable.leaf, PageTable.leaf]
  rcases h.others hst hv with heq | ⟨hnone, hsome⟩
  · rw [heq]
  · rw [hnone, hsome]
    rfl

theorem PageMapInv.note : PageMapInv t (Mappings.note s e m) := by
  have hothers := fun v => h.leaf_others (v := v) hst
  cases e with
  | map w p fl =>
    obtain ⟨⟨pt, ram⟩, hmap, rfl⟩ := map_eq_some_iff.mp hst
    have hspec := map_spec h.table h.sound hmap
    refine ⟨hspec.table, hspec.sound, ?_⟩
    intro v
    by_cases hvw : v = w
    · subst hvw
      have hleaf := leaf_eq_some.mpr ⟨hspec.entry, isValid_new_or⟩
      simpa [Mappings.note] using hleaf
    · rw [hothers v (fun heq => hvw (some.inj heq).symm), h.entries, Mappings.note, Function.update_of_ne hvw]
  | unmap w =>
    obtain ⟨ram, hunmap, rfl⟩ := map_eq_some_iff.mp hst
    have hspec := unmap_spec h.table h.sound hunmap
    refine ⟨hspec.table, hspec.sound, ?_⟩
    intro v
    by_cases hvw : v = w
    · subst hvw
      rw [PageTable.leaf, hspec.entry]
      simp [Mappings.note]
    · rw [hothers v (fun heq => hvw (some.inj heq).symm), h.entries, Mappings.note, Function.update_of_ne hvw]
  | other r =>
    obtain ⟨hr, heq⟩ := ite_none_right_eq_some.mp hst
    cases heq
    refine ⟨⟨h.table.built.congr fun f hf => (hr.2 f hf).1, h.table.nodup, fun f hf => (hr.2 f hf).2.1,
      fun f hf => (hr.2 f hf).2.2⟩, hr.1, ?_⟩
    intro v
    rw [hothers v (fun heq => by cases heq), h.entries]
    rfl

end

theorem pageMapInv_init (h : pageMap.init s) : PageMapInv s fun _ => none := by
  obtain ⟨r, hs, hnew⟩ := h
  obtain ⟨ht, hsound, hleaf⟩ := new_spec hs hnew
  exact ⟨ht, hsound, fun v => hleaf v⟩

theorem reach_pageMapInv (h : mappings.Reach (s, m)) : PageMapInv s m := by
  refine Machine.Reach.inv (M := mappings) (fun x => PageMapInv x.1 x.2) ?_ ?_ h
  · intro x hx
    rw [hx.2]
    exact pageMapInv_init hx.1
  · intro x e y hx hst
    obtain ⟨hstep, hnote⟩ := Machine.recording_step.mp hst
    rw [hnote]
    exact hx.note hstep

/-- A page table refines a finite map: `map` panics on the mapped pages, `unmap` on the others, and no call
changes the entry of another page. A `map` finds the frames for its tables if two are free. -/
theorem page_table_refines (h : mappings.Reach (s, m)) :
    (∀ v ppn flags, (s.pt.findPteCreate s.ram v.val).isSome → (s.step (.map v ppn flags) = none ↔ m v ≠ none)) ∧
    (∀ v, 2 ≤ s.ram.free.length → (s.pt.findPteCreate s.ram v).isSome) ∧
    (∀ v, s.step (.unmap v) = none ↔ m v = none) ∧
    (∀ v : Fin (2 ^ 27), (∃ pte, s.pt.translate s.ram.mem v = some pte ∧ pte.isValid = true) ↔ m v ≠ none) ∧
    (∀ v ppn flags, m v = some (ppn, flags) → ∃ pte, s.pt.translate s.ram.mem v = some pte ∧
      pte.isValid = true ∧ pte.ppn = ppn ∧ pte.flags = flags ||| .V) ∧
    (∀ e t (v : Fin (2 ^ 27)), s.step e = some t → e.page ≠ some v →
      t.pt.leaf t.ram.mem v = s.pt.leaf s.ram.mem v ∧
      (t.pt.translate t.ram.mem v = s.pt.translate s.ram.mem v ∨
        s.pt.translate s.ram.mem v = none ∧ t.pt.translate t.ram.mem v = some .empty)) := by
  have hinv := reach_pageMapInv h
  refine ⟨?_, ?_, ?_, ?_, ?_, ?_⟩
  · intro v ppn flags hcreate
    rw [PageMapState.step, map_eq_none_iff, map_eq_none hinv.table hinv.sound hcreate, hinv.entries,
      isSome_map, isSome_iff_ne_none]
  · intro v hfree
    exact findPteCreate_isSome hinv.sound hfree
  · intro v
    rw [PageMapState.step, map_eq_none_iff, unmap_eq_none, hinv.entries, map_eq_none_iff]
  · intro v
    simp only [← leaf_eq_some, hinv.entries]
    rw [← isSome_iff_exists, isSome_map, isSome_iff_ne_none]
  · intro v ppn flags hm
    have hleaf := hinv.entries v
    rw [hm] at hleaf
    obtain ⟨htranslate, hvalid⟩ := leaf_eq_some.mp hleaf
    exact ⟨_, htranslate, hvalid, ppn_new ppn.isLt, flags_new⟩
  · intro e t v hst hv
    exact ⟨hinv.leaf_others hst hv, hinv.others hst hv⟩

/-- Sixteen free frames and a fresh page table, in which two pages of one table are mapped and one is
unmapped again. -/
theorem page_table_refines_two : ∃ s m, mappings.Reach (s, m) ∧ m 7 = none ∧ s.step (.unmap 7) = none ∧
    ∃ pte, s.pt.translate s.ram.mem 8 = some pte ∧ pte.ppn = 41 ∧ pte.flags = .U ||| .V := by
  let r : Ram := ⟨⟨16, 32, []⟩, fun _ => 0⟩
  obtain ⟨pt, ram, hnew⟩ : ∃ pt ram, PageTable.new r = some (pt, ram) := ⟨_, _, rfl⟩
  have hinit : mappings.Reach (⟨pt, ram⟩, fun _ => none) := .init ⟨⟨r, by decide, hnew⟩, rfl⟩
  have hrun : ∃ x ∈ mappings.run (⟨pt, ram⟩, fun _ => none) [.map 7 40 .U, .map 8 41 .U, .unmap 7],
      x.2 7 = none ∧ x.2 8 = some (41, .U) := by
    cases hnew
    decide +kernel
  obtain ⟨⟨s, m⟩, hreach, h7, h8⟩ := hinit.exists_run hrun
  obtain ⟨-, -, hunmap, -, hentry, -⟩ := page_table_refines hreach
  obtain ⟨pte, htranslate, -, hppn, hflags⟩ := hentry 8 41 .U h8
  exact ⟨s, m, hreach, h7, (hunmap 7).mpr h7, pte, htranslate, hppn, hflags⟩

end TCore.Mm
