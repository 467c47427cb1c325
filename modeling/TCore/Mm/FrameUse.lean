/-
  TCore.Mm.FrameUse — the frames over whole runs: who has them, and which of them can be given back.

  The allocator knows the frames it can hand out, not those in use. `Users` has the trackers beside it,
  `Handed` the page numbers that `alloc` has returned and `dealloc` has not taken back yet. The bounds of
  the allocator are page numbers, of 44 bits.

  - `Handed.inv_reach`: in every run of `alloc` and `dealloc`, whatever page numbers `dealloc` gets, those
    from `l` up to `current` are in use or recycled. Below `l` it also takes page numbers that nobody has.
-/

import TCore.Lib.Machine
import TCore.Mm.Frames

namespace TCore.Mm

open TCore.Lib
open List Option StackFrameAllocator FrameTracker

/-! ## Trackers -/

/-- The memory and the trackers that have not been dropped. -/
structure Users where
  ram : Ram
  live : List FrameTracker

inductive FrameEvent where
  | frameAlloc
  /-- `FrameTracker::new_noalloc`. -/
  | newNoalloc (ppn : Nat)
  /-- The tracker at a place of `live` is dropped. -/
  | drop (i : Nat)
  /-- The memory is written to, wherever. -/
  | write (mem : Memory)

/-- The allocator was given the frames from `l` to `r`. -/
def users (l r : Nat) : Machine Users FrameEvent where
  init s := s.ram.allocator = .init l r ∧ s.live = []
  step s
    | .frameAlloc =>
      match s.ram.frameAlloc with
      | some (ppn, ram) => some ⟨ram, ⟨ppn, false⟩ :: s.live⟩
      | none => some s
    | .newNoalloc ppn => some ⟨s.ram, ⟨ppn, true⟩ :: s.live⟩
    | .drop i => s.live[i]?.bind fun t => (t.drop s.ram).map fun ram => ⟨ram, s.live.eraseIdx i⟩
    | .write mem => some ⟨⟨s.ram.allocator, mem⟩, s.live⟩

namespace FrameTracker

variable {t : FrameTracker} {ts us : List FrameTracker} {i : Nat}

theorem owned_perm (h : ts.Perm us) : (owned ts).Perm (owned us) := (h.filter _).map _

theorem owned_cons_of_drop (h : t.nodrop = false) : owned (t :: ts) = t.ppn :: owned ts := by simp [owned, h]

theorem owned_cons_of_nodrop (h : t.nodrop = true) : owned (t :: ts) = owned ts := by simp [owned, h]

theorem owned_eraseIdx (h : ts[i]? = some t) : (owned ts).Perm (owned (t :: ts.eraseIdx i)) := by
  obtain ⟨hi, rfl⟩ := List.getElem?_eq_some_iff.mp h
  exact owned_perm (getElem_cons_eraseIdx_perm hi).symm

end FrameTracker

namespace Users

open FrameTracker (owned)

variable {l r i : Nat} {s s' : Users} {t : FrameTracker} {e : FrameEvent}

/-- The frames of the allocator are in use or free, each once. -/
structure Inv (l r : Nat) (s : Users) : Prop where
  sound : s.ram.allocator.Sound
  end_ : s.ram.allocator.end_ = r
  perm : (owned s.live ++ s.ram.free).Perm (List.range' l (r - l))

theorem Inv.owned (h : Inv l r s) : Ram.Owned l (owned s.live) s.ram := by
  refine ⟨h.perm.nodup_iff.mpr nodup_range', ?_⟩
  intro f hf
  have hrange := mem_range'_1.mp (h.perm.subset hf)
  rw [h.end_]
  omega

theorem Inv.trade {live : List FrameTracker} {ram : Ram} (h : Inv l r s)
    (ht : Ram.Trade (FrameTracker.owned s.live) s.ram (FrameTracker.owned live) ram) : Inv l r ⟨ram, live⟩ :=
  ⟨ht.sound, ht.end_.trans h.end_, ht.perm.trans h.perm⟩

theorem Inv.drop (h : Inv l r s) (hi : s.live[i]? = some t) :
    ∃ ram, t.drop s.ram = some ram ∧ Inv l r ⟨ram, s.live.eraseIdx i⟩ := by
  have hperm := owned_eraseIdx hi
  rw [FrameTracker.drop]
  cases hn : t.nodrop with
  | true =>
    rw [owned_cons_of_nodrop hn] at hperm
    exact ⟨s.ram, rfl, h.sound, h.end_, (hperm.symm.append_right _).trans h.perm⟩
  | false =>
    rw [owned_cons_of_drop hn] at hperm
    obtain ⟨ram, hram, htrade, -, -⟩ := Ram.frameDealloc_spec h.sound (h.owned.perm hperm.symm)
    exact ⟨ram, hram, h.trade (htrade.congr hperm (.refl _))⟩

theorem Inv.step (h : Inv l r s) (hstep : (users l r).step s e = some s') : Inv l r s' := by
  cases e with
  | frameAlloc =>
    simp only [users] at hstep
    split at hstep
    · rename_i ppn ram halloc
      cases hstep
      have ha := Ram.frameAlloc_spec h.sound halloc
      refine ⟨ha.sound, ha.end_.trans h.end_, ?_⟩
      rw [owned_cons_of_drop rfl]
      refine Perm.trans ?_ h.perm
      rw [ha.free]
      exact perm_middle.symm
    · cases hstep
      exact h
  | newNoalloc ppn =>
    cases hstep
    refine ⟨h.sound, h.end_, ?_⟩
    rw [owned_cons_of_nodrop rfl]
    exact h.perm
  | drop i =>
    obtain ⟨t, hi, hstep⟩ := bind_eq_some_iff.mp hstep
    obtain ⟨ram, hdrop, hinv⟩ := h.drop hi
    rw [hdrop] at hstep
    cases hstep
    exact hinv
  | write mem =>
    cases hstep
    exact ⟨h.sound, h.end_, h.perm⟩

theorem inv_reach (hle : l ≤ r) (hr : r ≤ 2 ^ 44) (hs : (users l r).Reach s) : Inv l r s := by
  refine hs.inv (Inv l r) ?_ fun s e s' h hstep => h.step hstep
  rintro s ⟨halloc, hlive⟩
  refine ⟨?_, ?_, ?_⟩
  · rw [halloc]
    exact sound_init hle hr
  · rw [halloc]
    rfl
  · rw [hlive, Ram.free, halloc]
    exact .refl _

/-- What is not in use below `current` is recycled. -/
theorem Inv.mem_iff {f : Nat} (h : Inv l r s) :
    f ∈ FrameTracker.owned s.live ∨ f ∈ s.ram.allocator.recycled ↔ l ≤ f ∧ f < s.ram.allocator.current := by
  have hmem : f ∈ FrameTracker.owned s.live ++ s.ram.free ↔ l ≤ f ∧ f < r := by
    rw [h.perm.mem_iff, mem_range'_1]
    omega
  have hend := h.end_
  have hcur := h.sound.current_le
  rw [mem_append, mem_free, hend] at hmem
  constructor
  · rintro (hf | hf)
    · have hrange := hmem.mp (.inl hf)
      refine ⟨hrange.1, ?_⟩
      by_contra hge
      exact h.owned.not_free hf (mem_free.mpr (.inr (by omega)))
    · exact ⟨(hmem.mp (.inr (.inl hf))).1, h.sound.recycled_lt f hf⟩
  · rintro ⟨hl, hlt⟩
    rcases hmem.mpr ⟨hl, by omega⟩ with hf | hf | hf
    · exact .inl hf
    · exact .inr hf
    · omega

/-- No frame is left exactly when all are in use. -/
theorem Inv.frameAlloc_eq_none (h : Inv l r s) :
    s.ram.frameAlloc = none ↔ (FrameTracker.owned s.live).Perm (List.range' l (r - l)) := by
  have hsome : s.ram.frameAlloc = none ↔ s.ram.free = [] := by
    rw [Ram.frameAlloc, map_eq_none_iff, ← not_isSome_iff_eq_none, alloc_isSome h.sound, not_not]
  rw [hsome]
  constructor
  · intro hfree
    have hperm := h.perm
    rwa [hfree, append_nil] at hperm
  · intro hperm
    have hlen := h.perm.length_eq.trans hperm.length_eq.symm
    rw [length_append] at hlen
    exact eq_nil_of_length_eq_zero (by omega)

end Users

/-- In every run of allocations and drops the frames in use and the free ones are those of the allocator, each
once; a drop does not panic, and a new frame is clear. -/
theorem frames_partitioned {l r : Nat} {s : Users} (hle : l ≤ r) (hr : r ≤ 2 ^ 44) (hs : (users l r).Reach s) :
    s.ram.allocator.recycled.Nodup ∧ (FrameTracker.owned s.live).Nodup ∧
      (FrameTracker.owned s.live).Disjoint s.ram.allocator.recycled ∧
      (∀ f, f ∈ FrameTracker.owned s.live ∨ f ∈ s.ram.allocator.recycled ↔ l ≤ f ∧ f < s.ram.allocator.current) ∧
      (∀ f ram, s.ram.frameAlloc = some (f, ram) → f ∉ FrameTracker.owned s.live ∧ l ≤ f ∧ f < r ∧ ram.mem f = 0) ∧
      (s.ram.frameAlloc = none ↔ (FrameTracker.owned s.live).Perm (List.range' l (r - l))) ∧
      ∀ t ∈ s.live, (t.drop s.ram).isSome := by
  have h := Users.inv_reach hle hr hs
  have hnodup := nodup_append'.mp h.owned.nodup
  have hrec := nodup_append'.mp (show (s.ram.allocator.recycled ++ _).Nodup from hnodup.2.1)
  refine ⟨hrec.1, hnodup.1, ?_, fun f => h.mem_iff, ?_, h.frameAlloc_eq_none, ?_⟩
  · intro f hf hf'
    exact hnodup.2.2 hf (mem_append_left _ hf')
  · intro f ram halloc
    have ha := Ram.frameAlloc_spec h.sound halloc
    have hfree : f ∈ s.ram.free := ha.free ▸ mem_cons_self
    have hrange := h.owned.range f (mem_append_right _ hfree)
    rw [h.end_] at hrange
    refine ⟨fun hf => hnodup.2.2 hf hfree, hrange.1, hrange.2, ?_⟩
    rw [ha.mem, Function.update_self]
  · intro t ht
    obtain ⟨i, hi⟩ := mem_iff_getElem?.mp ht
    obtain ⟨ram, hdrop, -⟩ := h.drop hi
    exact isSome_of_eq_some hdrop

/-- Two frames are taken and the first is given back. -/
theorem frames_partitioned_two : ∃ s, (users 1 3).Reach s ∧ owned s.live = [2] ∧ s.ram.allocator.recycled = [1] ∧
    (owned s.live).Disjoint s.ram.allocator.recycled ∧
    ∀ f, f ∈ owned s.live ∨ f ∈ s.ram.allocator.recycled ↔ 1 ≤ f ∧ f < s.ram.allocator.current := by
  have hinit : (users 1 3).Reach ⟨⟨.init 1 3, 0⟩, []⟩ := .init ⟨rfl, rfl⟩
  have hrun : ∃ s ∈ (users 1 3).run ⟨⟨.init 1 3, 0⟩, []⟩ [.frameAlloc, .frameAlloc, .drop 1],
      owned s.live = [2] ∧ s.ram.allocator.recycled = [1] := by decide +kernel
  obtain ⟨s, hs, hlive, hrecycled⟩ := hinit.exists_run hrun
  obtain ⟨-, -, hdisj, hmem, -⟩ := frames_partitioned (by decide) (by decide) hs
  exact ⟨s, hs, hlive, hrecycled, hdisj, hmem⟩

/-! ## Page numbers -/

namespace StackFrameAllocator

variable {a b : StackFrameAllocator} {f : Nat}

/-- `dealloc` panics at the end of the memory and for free frames. -/
theorem Sound.dealloc_eq_none (h : a.Sound) : a.dealloc f = none ↔ a.end_ ≤ f ∨ f ∈ a.free := by
  have hcur := h.current_le
  have hnone : a.dealloc f = none ↔ a.current ≤ f ∨ f ∈ a.recycled := by
    rw [dealloc]
    split
    · rename_i hbad
      exact iff_of_true rfl hbad
    · rename_i hgood
      exact iff_of_false (some_ne_none _) hgood
  rw [hnone, mem_free]
  constructor
  · rintro (hge | hf)
    · by_cases hlt : f < a.end_
      · exact .inr (.inr ⟨hge, hlt⟩)
      · exact .inl (not_lt.mp hlt)
    · exact .inr (.inl hf)
  · rintro (hge | hf | hf)
    · exact .inl (hcur.trans hge)
    · exact .inr hf
    · exact .inl hf.1

/-- Any page number that `dealloc` takes is then the first of the free ones. -/
theorem Sound.dealloc_free (h : a.Sound) (hd : a.dealloc f = some b) : f ∉ a.free ∧ b.free = f :: a.free ∧ b.Sound ∧ b.end_ = a.end_ := by
  have hnone : ¬(a.end_ ≤ f ∨ f ∈ a.free) := by
    rw [← h.dealloc_eq_none, hd]
    exact some_ne_none b
  rw [not_or, not_le] at hnone
  obtain ⟨c, hc, hfree⟩ := h.dealloc_eq hnone.1 hnone.2
  rw [hd] at hc
  cases hc
  exact ⟨hnone.2, hfree⟩

end StackFrameAllocator

/-- The allocator, and what it has handed out and not been given back. -/
structure Handed where
  allocator : StackFrameAllocator
  inUse : List Nat

inductive AllocCall where
  | alloc
  | dealloc (ppn : Nat)

def handed (l r : Nat) : Machine Handed AllocCall where
  init s := s.allocator = .init l r ∧ s.inUse = []
  step s
    | .alloc =>
      match s.allocator.alloc with
      | some (ppn, a) => some ⟨a, ppn :: s.inUse⟩
      | none => some s
    | .dealloc ppn => (s.allocator.dealloc ppn).map fun a => ⟨a, s.inUse.erase ppn⟩

namespace Handed

variable {l r f : Nat} {s s' : Handed} {e : AllocCall}

structure Inv (l r : Nat) (s : Handed) : Prop where
  sound : s.allocator.Sound
  end_ : s.allocator.end_ = r
  first : l ≤ s.allocator.current
  nodup : (s.inUse ++ s.allocator.free).Nodup
  lt : ∀ f ∈ s.inUse, f < r
  all : ∀ f, l ≤ f → f < r → f ∈ s.inUse ∨ f ∈ s.allocator.free

theorem current_alloc {a b : StackFrameAllocator} (h : a.alloc = some (f, b)) : a.current ≤ b.current := by
  unfold alloc at h
  split at h
  · cases h
    exact Nat.le_refl _
  · obtain ⟨-, heq⟩ := ite_none_left_eq_some.mp h
    cases heq
    exact Nat.le_succ _

theorem current_dealloc {a b : StackFrameAllocator} (h : a.dealloc f = some b) : b.current = a.current := by
  obtain ⟨-, heq⟩ := ite_none_left_eq_some.mp h
  cases heq
  rfl

theorem Inv.step (h : Inv l r s) (hstep : (handed l r).step s e = some s') : Inv l r s' := by
  cases e with
  | alloc =>
    simp only [handed] at hstep
    split at hstep
    · rename_i ppn a halloc
      cases hstep
      obtain ⟨hfree, hsound, hend⟩ := h.sound.alloc_eq halloc
      have hlt := h.sound.lt_end (hfree ▸ mem_cons_self)
      rw [h.end_] at hlt
      refine ⟨hsound, hend.trans h.end_, h.first.trans (current_alloc halloc), ?_, ?_, ?_⟩
      · have hnodup := h.nodup
        rw [hfree] at hnodup
        exact perm_middle.nodup_iff.mp hnodup
      · intro f hf
        rcases mem_cons.mp hf with rfl | hf
        · exact hlt
        · exact h.lt f hf
      · intro f hl hr
        rcases h.all f hl hr with hf | hf
        · exact .inl (mem_cons_of_mem _ hf)
        · rw [hfree] at hf
          rcases mem_cons.mp hf with rfl | hf
          · exact .inl mem_cons_self
          · exact .inr hf
    · cases hstep
      exact h
  | dealloc ppn =>
    obtain ⟨a, hd, heq⟩ := map_eq_some_iff.mp hstep
    cases heq
    obtain ⟨hnot, hfree, hsound, hend⟩ := h.sound.dealloc_free hd
    have hnodup := nodup_append'.mp h.nodup
    refine ⟨hsound, hend.trans h.end_, current_dealloc hd ▸ h.first, ?_, fun f hf => h.lt f (mem_of_mem_erase hf), ?_⟩
    · rw [hfree, nodup_append']
      refine ⟨hnodup.1.erase ppn, nodup_cons.mpr ⟨hnot, hnodup.2.1⟩, ?_⟩
      intro f hf hf'
      rcases mem_cons.mp hf' with rfl | hf'
      · exact hnodup.1.not_mem_erase hf
      · exact hnodup.2.2 (mem_of_mem_erase hf) hf'
    · intro f hl hr
      rw [hfree]
      by_cases heq : f = ppn
      · exact .inr (heq ▸ mem_cons_self)
      · rcases h.all f hl hr with hf | hf
        · exact .inl ((mem_erase_of_ne heq).mpr hf)
        · exact .inr (mem_cons_of_mem _ hf)

theorem inv_reach (hle : l ≤ r) (hr : r ≤ 2 ^ 44) (hs : (handed l r).Reach s) : Inv l r s := by
  refine hs.inv (Inv l r) ?_ fun s e s' h hstep => h.step hstep
  rintro ⟨a, inUse⟩ ⟨rfl, rfl⟩
  refine ⟨sound_init hle hr, rfl, Nat.le_refl l, nodup_range', fun f hf => absurd hf not_mem_nil, ?_⟩
  intro f hl hlt
  exact .inr (mem_free.mpr (.inr ⟨hl, hlt⟩))

/-- A panic for what is in use never happens; for what is not, it is missed below `l`. -/
theorem Inv.dealloc_eq_none (h : Inv l r s) :
    s.allocator.dealloc f = none ↔ f ∉ s.inUse ∧ (l ≤ f ∨ f ∈ s.allocator.recycled) := by
  rw [h.sound.dealloc_eq_none, h.end_]
  constructor
  · rintro (hge | hf)
    · have hfirst := h.first
      have hcur := h.sound.current_le
      rw [h.end_] at hcur
      exact ⟨fun hf => absurd (h.lt f hf) (not_lt.mpr hge), .inl (by omega)⟩
    · refine ⟨fun hf' => (nodup_append'.mp h.nodup).2.2 hf' hf, ?_⟩
      rcases mem_free.mp hf with hf | hf
      · exact .inr hf
      · exact .inl (h.first.trans hf.1)
  · rintro ⟨hnot, hl | hrec⟩
    · by_cases hlt : f < r
      · exact .inr ((h.all f hl hlt).resolve_left hnot)
      · exact .inl (not_lt.mp hlt)
    · exact .inr (mem_free.mpr (.inl hrec))

/-- What is in use can be given back, and is then free once. -/
theorem Inv.dealloc_inUse (h : Inv l r s) (hf : f ∈ s.inUse) :
    ∃ a, s.allocator.dealloc f = some a ∧ f ∉ s.allocator.free ∧ a.free.count f = 1 := by
  cases hd : s.allocator.dealloc f with
  | none => exact absurd hf (h.dealloc_eq_none.mp hd).1
  | some a =>
    obtain ⟨hnot, hfree, -⟩ := h.sound.dealloc_free hd
    refine ⟨a, rfl, hnot, ?_⟩
    rw [hfree, count_cons_self, count_eq_zero_of_not_mem hnot]

end Handed

end TCore.Mm
