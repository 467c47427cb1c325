/-
  TCore.Mm.View — a user memory set as the bytes at its virtual addresses.

  `overlay` is a byte function after some bytes have been written. A store of the kernel to the frame of a
  page shows at that page alone, since no frame is mapped twice.
-/

import TCore.Mm.Fork
import TCore.Mm.Bytes
import TCore.Mm.UserObjects

namespace TCore.Mm

open TCore.Lib PageTable
open List VirtAddr Mapping Function

/-! ## Bytes written over others -/

/-- `f` after `bs` has been written from `start` on. -/
def overlay (f : Nat → Option (BitVec 8)) (start : Nat) (bs : List (BitVec 8)) (va : Nat) : Option (BitVec 8) :=
  if start ≤ va ∧ va < start + bs.length then bs[va - start]? else f va

/-- `bs` stands from `start` on. -/
def Stands (f : Nat → Option (BitVec 8)) (start : Nat) (bs : List (BitVec 8)) : Prop :=
  ∀ i < bs.length, f (start + i) = bs[i]?

section overlay

variable {f g : Nat → Option (BitVec 8)} {start va n : Nat} {b : BitVec 8} {bs bs' : List (BitVec 8)}

theorem overlay_nil : overlay f start [] va = f va := if_neg (by rw [length_nil]; omega)

theorem overlay_outside (h : va < start ∨ start + bs.length ≤ va) : overlay f start bs va = f va := if_neg (by omega)

theorem overlay_cons : overlay f start (b :: bs) va = overlay (fun va => if va = start then some b else f va) (start + 1) bs va := by
  rw [overlay, overlay, length_cons]
  rcases Nat.lt_trichotomy va start with hlt | rfl | hgt
  · rw [if_neg (by omega), if_neg (by omega), if_neg (by omega)]
  · rw [if_pos (by omega), if_neg (by omega), if_pos rfl, Nat.sub_self]
    rfl
  · by_cases hin : va < start + (bs.length + 1)
    · have hsub : va - start = va - (start + 1) + 1 := by omega
      rw [if_pos (by omega), if_pos (by omega), hsub, getElem?_cons_succ]
    · rw [if_neg (by omega), if_neg (by omega), if_neg (by omega)]

theorem overlay_congr (h : f va = g va) : overlay f start bs va = overlay g start bs va := by
  rw [overlay, overlay, h]

/-- The same bytes seen from another place. -/
theorem overlay_shift : overlay f (n + start) bs (n + va) = overlay (fun va => f (n + va)) start bs va := by
  have hsub : n + va - (n + start) = va - start := by omega
  have hiff : (n + start ≤ n + va ∧ n + va < n + start + bs.length) ↔ (start ≤ va ∧ va < start + bs.length) := by omega
  rw [overlay, overlay, hsub]
  simp only [hiff]

theorem stands_overlay : Stands (overlay f start bs) start bs := by
  intro i hi
  rw [overlay, if_pos (by omega), Nat.add_sub_cancel_left]

theorem Stands.head (h : Stands f start (b :: bs)) : f start = some b := h 0 (Nat.succ_pos _)

theorem Stands.tail (h : Stands f start (b :: bs)) : Stands f (start + 1) bs := by
  intro i hi
  have hi' := h (i + 1) (Nat.succ_lt_succ hi)
  rw [getElem?_cons_succ] at hi'
  rw [← hi', Nat.add_assoc, Nat.add_comm 1 i]

theorem Stands.congr (h : Stands f start bs) (heq : ∀ va, start ≤ va → va < start + bs.length → g va = f va) : Stands g start bs := by
  intro i hi
  rw [heq (start + i) (by omega) (by omega), h i hi]

end overlay

/-! ## Stores -/

/-- The byte at a virtual address. -/
def PageTable.view (pt : PageTable) (mem : Memory) (va : Nat) : Option (BitVec 8) := (pt.physical mem va).map mem.byte

namespace MemorySet

variable {low strampoline off ptr : Nat} {ms : MemorySet} {r r' : Ram} {m : Mapping} {bs : List (BitVec 8)} {b : BitVec 8}

section

variable (h : ms.Wf low strampoline r)
include h

theorem Wf.low_pos : 0 < low := lt_of_le_of_lt (Nat.zero_le _) h.kernel

theorem Wf.wrote (hw : Ram.Wrote (· ∈ ms.data) r r') : ms.Wf low strampoline r' :=
  ⟨h.aligned, h.kernel, h.areas, h.space.wrote hw fun _ hf => h.space.not_table hf⟩

theorem Wf.leaf_wrote (hw : Ram.Wrote (· ∈ ms.data) r r') (v : Nat) :
    ms.pageTable.leaf r'.mem v = ms.pageTable.leaf r.mem v := by
  have htrans := translate_congr (v := v) h.space.built fun f hf => hw.elsewhere f fun hdata => h.space.not_table hdata hf
  rw [leaf, htrans]
  rfl

/-- The walk from the token finds the entries of the page table. -/
theorem Wf.translate_token (mem : Memory) (v : Nat) :
    (fromToken ms.token).translate mem v = ms.pageTable.translate mem v := by
  apply translate_root
  have hroot := h.space.built.root_used (by decide)
  have hlt := lt_of_lt_of_le (h.space.table.lt_end _ hroot) h.space.sound.end_le
  have hmod : (8 <<< 60 ||| ms.pageTable.rootPpn) % 2 ^ 44 = ms.pageTable.rootPpn := by
    rw [Nat.or_mod_two_pow, Nat.mod_eq_of_lt hlt]
    exact Nat.zero_or _
  rw [fromToken, token, PageTable.token, PhysPageNum.fromUsize]
  dsimp only
  rw [hmod, Nat.mod_eq_of_lt hlt]

theorem Wf.physical_mapping (hm : m ∈ ms.mappings) (hoff : off < PAGE_SIZE) :
    ms.pageTable.physical r.mem (m.vpn * PAGE_SIZE + off) = some (m.ppn * PAGE_SIZE + off) := by
  have hmem : m ∈ trampoline strampoline :: ms.mappings := mem_cons_of_mem _ hm
  have hfloor : floor (m.vpn * PAGE_SIZE + off) = m.vpn := page_div hoff
  have hpage : pageOffset (m.vpn * PAGE_SIZE + off) = off := page_mod hoff
  rw [physical, hfloor, hpage, h.space.shows.leaf hmem, Option.map_some, ppn_pte (h.space.shows.bounds m hmem).2]

/-- `translated_refmut` of a pointer into a page of the memory set. -/
theorem Wf.translatedPa_mapping (hframed : ∀ a ∈ ms.areas, a.mapType = .framed) (hm : m ∈ ms.mappings)
    (hoff : off < PAGE_SIZE) (hptr : ptr % 2 ^ 39 = m.vpn * PAGE_SIZE + off) :
    translatedPa r.mem (fromToken ms.token) ptr = some (m.ppn * PAGE_SIZE + off) := by
  have hphysical : (fromToken ms.token).physical r.mem (ptr % 2 ^ 39) = some (m.ppn * PAGE_SIZE + off) := by
    rw [hptr, ← h.physical_mapping hm hoff, physical, physical, leaf, h.translate_token]
    rfl
  have hdata : m.ppn ∈ ms.data := by
    rw [h.data_eq hframed]
    exact mem_map_of_mem hm
  have hlow := (h.space.data_range hdata).1
  have hpos := h.low_pos
  rw [translatedPa_of_physical hphysical, if_neg]
  simp only [PAGE_SIZE]
  omega

theorem Wf.vpn_inj {m' : Mapping} (hm : m ∈ ms.mappings) (hm' : m' ∈ ms.mappings)
    (heq : m'.vpn = m.vpn) : m' = m :=
  inj_on_of_nodup_map (nodup_cons.mp h.space.shows.nodup).2 hm' hm heq

theorem Wf.mem_data (hframed : ∀ a ∈ ms.areas, a.mapType = .framed) (hm : m ∈ ms.mappings) :
    m.ppn ∈ ms.data := by
  rw [h.data_eq hframed]
  exact mem_map_of_mem hm

end

theorem view_of_leaf {pt : PageTable} {mem : Memory} {va : Nat} {pte : PageTableEntry}
    (h : pt.leaf mem (floor va) = some pte) : pt.view mem va = some ((mem pte.ppn).byte (pageOffset va)) := by
  have hoff : pageOffset va < PAGE_SIZE := Nat.mod_lt _ (by decide)
  rw [view, physical, h, Option.map_some, Option.map_some, Memory.byte_eq hoff]

section

variable (h : ms.Wf low strampoline r) (hframed : ∀ a ∈ ms.areas, a.mapType = .framed) (hm : m ∈ ms.mappings)
include h hframed hm

/-- A write to the frame of a page shows at the page and nowhere else. -/
theorem Wf.view_write {f : Frame} {va : Nat} (hva : va < 2 ^ 39) :
    ms.pageTable.view (update r.mem m.ppn f) va =
      if floor va = m.vpn then some (f.byte (pageOffset va)) else ms.pageTable.view r.mem va := by
  have hdata := h.mem_data hframed hm
  have hw : Ram.Wrote (· ∈ ms.data) r { r with mem := update r.mem m.ppn f } := by
    refine ⟨rfl, fun g hg => update_of_ne ?_ _ _⟩
    intro heq
    exact hg (heq ▸ hdata)
  have hleaf : ms.pageTable.leaf (update r.mem m.ppn f) (floor va) = ms.pageTable.leaf r.mem (floor va) :=
    h.leaf_wrote hw _
  have hvpn : floor va < 2 ^ 27 := by
    simp only [floor, PAGE_SIZE]
    omega
  have hself := h.space.shows.leaf (mem_cons_of_mem (trampoline strampoline) hm)
  cases hpte : ms.pageTable.leaf r.mem (floor va) with
  | none =>
    rw [hpte] at hleaf
    rw [if_neg, view, view, physical, physical, hleaf, hpte]
    · rfl
    · intro heq
      rw [heq, hself] at hpte
      cases hpte
  | some pte =>
    rw [view_of_leaf (hleaf.trans hpte), view_of_leaf hpte]
    by_cases hsame : floor va = m.vpn
    · rw [hsame, hself, Option.some.injEq] at hpte
      rw [if_pos hsame, ← hpte, ppn_pte (h.space.shows.bounds m (mem_cons_of_mem _ hm)).2, update_self]
    · rw [if_neg hsame, update_of_ne]
      intro heq
      rcases h.leaf_cases hframed hvpn hpte with ⟨-, hkernel⟩ | ⟨-, m', hm', hfloor, hppn, -⟩
      · have hlow := (h.space.data_range hdata).1
        have htramp := h.kernel
        omega
      · have hnodup := h.space.data_nodup
        rw [h.data_eq hframed] at hnodup
        rw [← hfloor, inj_on_of_nodup_map hnodup hm' hm (hppn.trans heq)] at hsame
        exact hsame rfl

/-- A byte is stored in a page. -/
theorem Wf.store_byte
    (hoff : off < PAGE_SIZE) (b : BitVec 8) :
    ∃ r', r.store low m.ppn (Frame.setByte · off b) = some r' ∧ Ram.Wrote (· ∈ ms.data) r r' ∧
      ∀ va < 2 ^ 39, ms.pageTable.view r'.mem va =
        if va = m.vpn * PAGE_SIZE + off then some b else ms.pageTable.view r.mem va := by
  have hdata := h.mem_data hframed hm
  obtain ⟨hlow, hend⟩ := h.space.data_range hdata
  refine ⟨_, if_pos ⟨hlow, hend⟩, ⟨rfl, fun g hg => update_of_ne ?_ _ _⟩, ?_⟩
  · intro heq
    exact hg (heq ▸ hdata)
  · intro va hva
    dsimp only
    rw [h.view_write hframed hm hva]
    by_cases hpage : floor va = m.vpn
    · have hleaf := h.space.shows.leaf (mem_cons_of_mem (trampoline strampoline) hm)
      rw [← hpage] at hleaf
      have hiff : pageOffset va = off ↔ va = m.vpn * PAGE_SIZE + off := by
        simp only [pageOffset, floor, PAGE_SIZE] at hpage hoff ⊢
        omega
      have hoff' : pageOffset va < PAGE_SIZE := Nat.mod_lt _ (by decide)
      rw [if_pos hpage, Frame.byte_setByte hoff' hoff, view_of_leaf hleaf,
        ppn_pte (h.space.shows.bounds m (mem_cons_of_mem _ hm)).2]
      simp only [hiff]
      split <;> rfl
    · rw [if_neg hpage, if_neg]
      intro heq
      apply hpage
      simp only [floor, PAGE_SIZE] at heq hoff ⊢
      omega

/-- Bytes are stored in a page, one after the other. -/
theorem Wf.store_bytes
    (hfit : off + bs.length ≤ PAGE_SIZE) :
    ∃ r', r.storeBytes low (m.ppn * PAGE_SIZE + off) bs = some r' ∧ Ram.Wrote (· ∈ ms.data) r r' ∧
      ∀ va < 2 ^ 39, ms.pageTable.view r'.mem va = overlay (ms.pageTable.view r.mem) (m.vpn * PAGE_SIZE + off) bs va := by
  induction bs generalizing r off with
  | nil => exact ⟨r, rfl, .refl, fun va _ => overlay_nil.symm⟩
  | cons b bs ih =>
    rw [length_cons] at hfit
    have hoff : off < PAGE_SIZE := by omega
    have hfit' : off + 1 + bs.length ≤ PAGE_SIZE := by omega
    obtain ⟨r₁, hstore, hw₁, hview₁⟩ := h.store_byte hframed hm hoff b
    obtain ⟨r', hrest, hw', hview'⟩ := ih (h.wrote hw₁) hfit'
    rw [← Nat.add_assoc] at hrest hview'
    refine ⟨r', ?_, hw₁.trans hw', ?_⟩
    · rw [Ram.storeBytes, page_div hoff, page_mod hoff, hstore]
      exact hrest
    · intro va hva
      rw [hview' va hva, overlay_cons]
      exact overlay_congr (hview₁ va hva)

end

/-- The bytes from a physical address on are in pages of the memory set, or in frames that the kernel cannot write to. -/
def Into (low : Nat) (ms : MemorySet) (pa n : Nat) : Prop := ∀ i < n, (pa + i) / PAGE_SIZE ∈ ms.data ∨ (pa + i) / PAGE_SIZE < low

theorem Into.wrote {pa : Nat} (h : ms.Into low pa bs.length) (hstore : r.storeBytes low pa bs = some r') :
    Ram.Wrote (· ∈ ms.data) r r' := by
  refine (Ram.storeBytes_wrote hstore).mono ?_
  rintro f ⟨hlow, i, hi, rfl⟩
  rcases h i hi with hdata | hlt
  · exact hdata
  · exact absurd hlow (not_le.mpr hlt)

/-- What a pointer is translated to, whatever it points to. -/
theorem Wf.translated_into {pa n : Nat} (h : ms.Wf low strampoline r) (hframed : ∀ a ∈ ms.areas, a.mapType = .framed)
    (hpa : translatedPa r.mem (fromToken ms.token) ptr = some pa) (hfit : ptr % PAGE_SIZE + n ≤ PAGE_SIZE) : ms.Into low pa n := by
  obtain ⟨pte, htrans, hpa⟩ := translatedPa_walked hpa
  dsimp only at htrans hpa
  rw [h.translate_token] at htrans
  have hppn : pte.ppn ∈ ms.data ∨ pte.ppn < low := by
    rcases h.space.shows.translate htrans with ⟨m, hm, -, rfl⟩ | rfl
    · rw [ppn_pte (h.space.shows.bounds m hm).2]
      rcases mem_cons.mp hm with rfl | hm
      · exact .inr h.kernel
      · exact .inl (h.mem_data hframed hm)
    · exact .inr h.low_pos
  intro i hi
  have hpage : (pa + i) / PAGE_SIZE = pte.ppn := by
    simp only [pageOffset, fromUsize, PAGE_SIZE] at hpa hfit ⊢
    omega
  rw [hpage]
  exact hppn

end MemorySet

end TCore.Mm
