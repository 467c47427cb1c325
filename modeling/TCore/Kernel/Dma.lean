/-
  TCore.Kernel.Dma — the frames of the virtio drivers (drivers/bus/virtio.rs).

  `dma_alloc` takes frames one after the other, asserts that they are consecutive and keeps their trackers in
  `QUEUE_FRAMES`. `dma_dealloc` gives the page numbers back to the allocator and leaves the trackers where
  they are: the frames are free, or somebody else's, and still in the list.

  - `freed_frame_in_queue`: after one `dma_dealloc` a frame is free and in the list.
-/

import TCore.Mm.FrameUse

namespace TCore.Kernel

open TCore.Lib TCore.Mm
open List Option Ram FrameTracker PhysAddr

/-- The memory and `QUEUE_FRAMES`. -/
structure VirtioHal where
  ram : Ram
  queueFrames : List FrameTracker

namespace VirtioHal

/-- `n` more turns of the loop in `dma_alloc`, from turn `i` on. -/
def dmaAllocFrom : Nat → Nat → Nat → VirtioHal → Option (Nat × VirtioHal)
  | 0, _, ppnBase, h => some (ppnBase, h)
  | n + 1, i, ppnBase, h =>
    h.ram.frameAlloc.bind fun (ppn, ram) =>
      let ppnBase := if i = 0 then ppn else ppnBase
      if ppn = ppnBase + i then dmaAllocFrom n (i + 1) ppnBase ⟨ram, h.queueFrames ++ [⟨ppn, false⟩]⟩ else none

/-- `none` is a panic: no frame is left, or they are not consecutive. -/
def dmaAlloc (pages : Nat) (h : VirtioHal) : Option (Nat × VirtioHal) :=
  (dmaAllocFrom pages 0 0 h).map fun (ppnBase, h) => (PhysAddr.ofPageNum ppnBase, h)

def deallocFrom : Nat → Nat → Ram → Option Ram
  | 0, _, ram => some ram
  | n + 1, ppnBase, ram => (ram.frameDealloc ppnBase).bind fun ram => deallocFrom n (ppnBase + 1) ram

def dmaDealloc (paddr pages : Nat) (h : VirtioHal) : Option VirtioHal :=
  if pageOffset (PhysAddr.fromUsize paddr) = 0 then
    (deallocFrom pages (PhysAddr.fromUsize paddr / PAGE_SIZE) h.ram).map fun ram => ⟨ram, h.queueFrames⟩
  else none

/-- The frames in `QUEUE_FRAMES`. -/
def frames (h : VirtioHal) : List Nat := h.queueFrames.map FrameTracker.ppn

end VirtioHal

structure Drivers where
  hal : VirtioHal
  /-- The other trackers. -/
  live : List FrameTracker
  /-- The regions the drivers have, and the page numbers of those they have given back. -/
  regions : List (Nat × Nat)
  returned : List Nat

inductive DmaEvent where
  | frameAlloc
  | drop (i : Nat)
  | dmaAlloc (pages : Nat)
  /-- The region at a place of `regions` is given back. -/
  | dmaDealloc (i : Nat)

namespace Drivers

/-- Every frame as often as it is in `QUEUE_FRAMES`, has another tracker or is free. -/
def owners (s : Drivers) : List Nat := s.hal.frames ++ FrameTracker.owned s.live ++ s.hal.ram.free

def step (s : Drivers) : DmaEvent → Option Drivers
  | .frameAlloc =>
    match s.hal.ram.frameAlloc with
    | some (ppn, ram) => some { s with hal := ⟨ram, s.hal.queueFrames⟩, live := ⟨ppn, false⟩ :: s.live }
    | none => some s
  | .drop i =>
    s.live[i]?.bind fun t => (t.drop s.hal.ram).map fun ram => { s with hal := ⟨ram, s.hal.queueFrames⟩, live := s.live.eraseIdx i }
  | .dmaAlloc pages => (s.hal.dmaAlloc pages).map fun (pa, hal) => { s with hal := hal, regions := (pa, pages) :: s.regions }
  | .dmaDealloc i =>
    s.regions[i]?.bind fun (pa, pages) => (s.hal.dmaDealloc pa pages).map fun hal =>
      { s with hal := hal, regions := s.regions.eraseIdx i, returned := List.range' (pa / PAGE_SIZE) pages ++ s.returned }

end Drivers

def drivers (l r : Nat) : Machine Drivers DmaEvent where
  init s := s.hal.ram.allocator = .init l r ∧ s.hal.queueFrames = [] ∧ s.live = [] ∧ s.regions = [] ∧ s.returned = []
  step := Drivers.step

/-! ## The two operations -/

namespace VirtioHal

variable {n i b ppnBase pages pa : Nat} {h h' : VirtioHal} {ram ram' : Ram}

/-- The frames have gone from the free ones to the list. -/
structure Moved (h : VirtioHal) (frames : List Nat) (h' : VirtioHal) : Prop where
  sound : h'.ram.allocator.Sound
  queue : h'.frames = h.frames ++ frames
  free : h.ram.free = frames ++ h'.ram.free

theorem Moved.cons {ppn : Nat} {frames : List Nat} {ram : Ram} (ha : h.ram.Allocated ppn ram)
    (hm : Moved ⟨ram, h.queueFrames ++ [⟨ppn, false⟩]⟩ frames h') : Moved h (ppn :: frames) h' := by
  refine ⟨hm.sound, ?_, ?_⟩
  · rw [hm.queue, VirtioHal.frames, map_append, append_assoc]
    rfl
  · have hfree := hm.free
    dsimp only at hfree
    rw [ha.free, hfree, cons_append]

section

variable (hs : h.ram.allocator.Sound)
include hs

theorem dmaAllocFrom_later (hi : i ≠ 0) (ha : dmaAllocFrom n i ppnBase h = some (b, h')) :
    b = ppnBase ∧ Moved h (range' (ppnBase + i) n) h' := by
  induction n generalizing i h with
  | zero =>
    cases ha
    exact ⟨rfl, hs, (append_nil _).symm, rfl⟩
  | succ n ih =>
    obtain ⟨⟨ppn, ram⟩, halloc, hrest⟩ := bind_eq_some_iff.mp ha
    dsimp only at hrest
    rw [if_neg hi] at hrest
    obtain ⟨rfl, hrest⟩ := ite_none_right_eq_some.mp hrest
    have hspec := frameAlloc_spec hs halloc
    obtain ⟨hb, hm⟩ := ih hspec.sound (Nat.succ_ne_zero i) hrest
    exact ⟨hb, hm.cons hspec⟩

theorem dmaAllocFrom_spec (ha : dmaAllocFrom n 0 0 h = some (b, h')) : Moved h (range' b n) h' := by
  cases n with
  | zero =>
    cases ha
    exact ⟨hs, (append_nil _).symm, rfl⟩
  | succ n =>
    obtain ⟨⟨ppn, ram⟩, halloc, hrest⟩ := bind_eq_some_iff.mp ha
    obtain ⟨-, hrest⟩ := ite_none_right_eq_some.mp hrest
    have hspec := frameAlloc_spec hs halloc
    obtain ⟨rfl, hm⟩ := dmaAllocFrom_later hspec.sound Nat.one_ne_zero hrest
    exact hm.cons hspec

theorem dmaAlloc_spec (ha : h.dmaAlloc pages = some (pa, h')) :
    ∃ b, b < 2 ^ 44 ∧ pa = b * PAGE_SIZE ∧ Moved h (range' b pages) h' := by
  obtain ⟨⟨b, h₁⟩, hfrom, heq⟩ := map_eq_some_iff.mp ha
  cases heq
  have hm := dmaAllocFrom_spec hs hfrom
  have hlt : b < 2 ^ 44 := by
    cases pages with
    | zero =>
      cases hfrom
      decide
    | succ n =>
      have hfree : b ∈ h.ram.free := hm.free ▸ mem_append_left _ (mem_range'_1.mpr (by omega))
      exact (hs.lt_end hfree).trans_le hs.end_le
  refine ⟨b, hlt, ?_, hm⟩
  rw [ofPageNum, PAGE_SIZE]
  omega

end

theorem deallocFrom_spec (hs : ram.allocator.Sound) (hd : deallocFrom n b ram = some ram') :
    ram'.allocator.Sound ∧ ram'.free.Perm (range' b n ++ ram.free) := by
  induction n generalizing b ram with
  | zero =>
    cases hd
    exact ⟨hs, .refl _⟩
  | succ n ih =>
    obtain ⟨ram₁, hfirst, hrest⟩ := bind_eq_some_iff.mp hd
    obtain ⟨a, ha, heq⟩ := map_eq_some_iff.mp hfirst
    cases heq
    obtain ⟨-, hfree, hsound, -⟩ := hs.dealloc_free ha
    obtain ⟨hsound', hperm⟩ := ih hsound hrest
    refine ⟨hsound', hperm.trans ?_⟩
    rw [show free { ram with allocator := a } = b :: ram.free from hfree]
    exact perm_middle

theorem dmaDealloc_spec (hs : h.ram.allocator.Sound) (hb : b < 2 ^ 44) (hd : h.dmaDealloc (b * PAGE_SIZE) pages = some h') :
    h'.ram.allocator.Sound ∧ h'.frames = h.frames ∧ h'.ram.free.Perm (range' b pages ++ h.ram.free) := by
  obtain ⟨-, hd⟩ := ite_none_right_eq_some.mp hd
  have hbase : fromUsize (b * PAGE_SIZE) / PAGE_SIZE = b := by
    simp only [fromUsize, PAGE_SIZE]
    omega
  rw [hbase] at hd
  obtain ⟨ram, hfrom, heq⟩ := map_eq_some_iff.mp hd
  cases heq
  obtain ⟨hsound, hperm⟩ := deallocFrom_spec hs hfrom
  exact ⟨hsound, rfl, hperm⟩

end VirtioHal

/-! ## Runs -/

namespace Drivers

variable {l r : Nat} {s s' : Drivers} {e : DmaEvent}

structure Inv (s : Drivers) : Prop where
  sound : s.hal.ram.allocator.Sound
  regions : ∀ x ∈ s.regions, ∃ b, b < 2 ^ 44 ∧ x.1 = b * PAGE_SIZE ∧ ∀ f ∈ List.range' b x.2, f ∈ s.hal.frames
  /-- `QUEUE_FRAMES` still has what was given back. -/
  twice : ∀ f ∈ s.returned, 2 ≤ s.owners.count f
  once : s.returned = [] → s.owners.Nodup

/-- A step that moves frames between their owners. -/
theorem Inv.moved (h : Inv s) (hsound : s'.hal.ram.allocator.Sound) (hperm : s'.owners.Perm s.owners)
    (hreturned : s'.returned = s.returned)
    (hregions : ∀ x ∈ s'.regions, ∃ b, b < 2 ^ 44 ∧ x.1 = b * PAGE_SIZE ∧ ∀ f ∈ range' b x.2, f ∈ s'.hal.frames) : Inv s' := by
  refine ⟨hsound, hregions, ?_, ?_⟩
  · intro f hf
    rw [hperm.count_eq]
    exact h.twice f (hreturned ▸ hf)
  · intro hnil
    exact hperm.nodup_iff.mpr (h.once (hreturned ▸ hnil))

theorem Inv.frameAlloc (h : Inv s) (hstep : s.step .frameAlloc = some s') : Inv s' := by
  simp only [step] at hstep
  split at hstep
  · rename_i ppn ram halloc
    cases hstep
    have ha := frameAlloc_spec h.sound halloc
    refine h.moved ha.sound ?_ rfl h.regions
    rw [owners, owners, owned_cons_of_drop rfl, ha.free, append_assoc, append_assoc]
    exact perm_middle.symm.append_left _
  · cases hstep
    exact h

theorem Inv.drop {i : Nat} (h : Inv s) (hstep : s.step (.drop i) = some s') : Inv s' := by
  obtain ⟨t, hi, hstep⟩ := bind_eq_some_iff.mp hstep
  obtain ⟨ram, hdrop, heq⟩ := map_eq_some_iff.mp hstep
  cases heq
  have hperm := FrameTracker.owned_eraseIdx hi
  rw [FrameTracker.drop] at hdrop
  cases hn : t.nodrop with
  | true =>
    rw [hn, if_pos rfl] at hdrop
    cases hdrop
    rw [owned_cons_of_nodrop hn] at hperm
    exact h.moved h.sound ((hperm.symm.append_left _).append_right _) rfl h.regions
  | false =>
    rw [hn, if_neg Bool.false_ne_true] at hdrop
    obtain ⟨a, ha, heq⟩ := map_eq_some_iff.mp hdrop
    cases heq
    obtain ⟨-, hfree, hsound, -⟩ := h.sound.dealloc_free ha
    rw [owned_cons_of_drop hn] at hperm
    refine h.moved hsound ?_ rfl h.regions
    have hfree : free { s.hal.ram with allocator := a } = t.ppn :: s.hal.ram.free := hfree
    rw [owners, owners, hfree, append_assoc, append_assoc]
    exact (perm_middle.trans (hperm.symm.append_right _)).append_left _

theorem Inv.dmaAlloc {pages : Nat} (h : Inv s) (hstep : s.step (.dmaAlloc pages) = some s') : Inv s' := by
  obtain ⟨⟨pa, hal⟩, halloc, heq⟩ := map_eq_some_iff.mp hstep
  cases heq
  obtain ⟨b, hb, hpa, hm⟩ := VirtioHal.dmaAlloc_spec h.sound halloc
  refine h.moved hm.sound ?_ rfl ?_
  · rw [owners, owners, hm.queue, hm.free, append_assoc, append_assoc, append_assoc]
    exact (perm_append_comm_assoc _ _ _).append_left _
  · intro x hx
    rcases mem_cons.mp hx with rfl | hx
    · refine ⟨b, hb, hpa, fun f hf => ?_⟩
      rw [hm.queue]
      exact mem_append_right _ hf
    · obtain ⟨c, hc, hx₁, hall⟩ := h.regions x hx
      refine ⟨c, hc, hx₁, fun f hf => ?_⟩
      rw [hm.queue]
      exact mem_append_left _ (hall f hf)

/-- The frames of a region get one more owner. -/
theorem Inv.dmaDealloc {i : Nat} (h : Inv s) (hstep : s.step (.dmaDealloc i) = some s') : Inv s' := by
  obtain ⟨⟨pa, pages⟩, hi, hstep⟩ := bind_eq_some_iff.mp hstep
  obtain ⟨hal, hdealloc, heq⟩ := map_eq_some_iff.mp hstep
  cases heq
  obtain ⟨b, hb, hpa, hall⟩ := h.regions _ (mem_of_getElem? hi)
  dsimp only at hpa hall
  subst hpa
  obtain ⟨hsound, hframes, hfree⟩ := VirtioHal.dmaDealloc_spec h.sound hb hdealloc
  have hbase : b * PAGE_SIZE / PAGE_SIZE = b := Nat.mul_div_cancel b (by decide)
  have hperm : (hal.frames ++ owned s.live ++ hal.ram.free).Perm (range' b pages ++ s.owners) := by
    rw [hframes]
    refine (hfree.append_left _).trans ?_
    rw [owners]
    exact perm_append_comm_assoc _ _ _
  refine ⟨hsound, ?_, ?_, ?_⟩
  · intro x hx
    dsimp only
    rw [hframes]
    exact h.regions x (mem_of_mem_eraseIdx hx)
  · intro f hf
    dsimp only at hf
    rw [hbase, mem_append] at hf
    rw [owners, hperm.count_eq, count_append]
    rcases hf with hf | hf
    · have hnew := count_pos_iff.mpr hf
      have hqueue : f ∈ s.owners := mem_append_left _ (mem_append_left _ (hall f hf))
      have hold := count_pos_iff.mpr hqueue
      omega
    · have hold := h.twice f hf
      omega
  · intro hnil
    dsimp only at hnil
    rw [hbase, append_eq_nil_iff] at hnil
    have hperm := hperm
    rw [hnil.1, nil_append] at hperm
    exact hperm.nodup_iff.mpr (h.once hnil.2)

theorem inv_reach (hle : l ≤ r) (hr : r ≤ 2 ^ 44) (hs : (drivers l r).Reach s) : Inv s := by
  refine hs.inv Inv ?_ ?_
  · rintro ⟨⟨ram, queue⟩, live, regions, returned⟩ ⟨halloc, rfl, rfl, rfl, rfl⟩
    dsimp only at halloc
    refine ⟨halloc ▸ StackFrameAllocator.sound_init hle hr, fun x hx => absurd hx not_mem_nil,
      fun f hf => absurd hf not_mem_nil, fun _ => ?_⟩
    show (free ram).Nodup
    rw [free, halloc]
    exact nodup_range'
  · intro s e s' h hstep
    cases e with
    | frameAlloc => exact h.frameAlloc hstep
    | drop i => exact h.drop hstep
    | dmaAlloc pages => exact h.dmaAlloc hstep
    | dmaDealloc i => exact h.dmaDealloc hstep

end Drivers

/-- No frame is owned twice exactly if `dma_dealloc` has not given back any page; a region that `dma_alloc` returns is
consecutive and in the list. -/
theorem dma_owned_once_iff {l r : Nat} {s : Drivers} (hle : l ≤ r) (hr : r ≤ 2 ^ 44) (hs : (drivers l r).Reach s) :
    (s.owners.Nodup ↔ s.returned = []) ∧
      ∀ pages pa hal, s.hal.dmaAlloc pages = some (pa, hal) →
        ∃ b, pa = b * PAGE_SIZE ∧ hal.frames = s.hal.frames ++ List.range' b pages := by
  have h := Drivers.inv_reach hle hr hs
  refine ⟨⟨?_, h.once⟩, ?_⟩
  · intro hnodup
    by_contra hne
    obtain ⟨f, hf⟩ := exists_mem_of_ne_nil _ hne
    have htwice := h.twice f hf
    have honce := nodup_iff_count_le_one.mp hnodup f
    omega
  · intro pages pa hal halloc
    obtain ⟨b, -, hpa, hm⟩ := VirtioHal.dmaAlloc_spec h.sound halloc
    exact ⟨b, hpa, hm.queue⟩

/-- What is so behind some events. -/
theorem exists_drivers {l r : Nat} (es : List DmaEvent) {Q : Drivers → Prop}
    (h : ∃ s ∈ (drivers l r).run ⟨⟨⟨.init l r, 0⟩, []⟩, [], [], []⟩ es, Q s) : ∃ s, (drivers l r).Reach s ∧ Q s :=
  Machine.Reach.exists_run (.init ⟨rfl, rfl, rfl, rfl, rfl⟩) h

/-- Two drivers, with a frame between their pages that is given back. -/
theorem dma_owned_once_three : ∃ s, (drivers 1 9).Reach s ∧ s.hal.frames = [1, 2, 4] ∧ s.hal.ram.free.head? = some 3 ∧
    s.owners.Nodup := by
  obtain ⟨s, hs, hframes, hfree, hnone⟩ : ∃ s, (drivers 1 9).Reach s ∧ s.hal.frames = [1, 2, 4] ∧
      s.hal.ram.free.head? = some 3 ∧ s.returned = [] :=
    exists_drivers [.dmaAlloc 2, .frameAlloc, .dmaAlloc 1, .drop 0] (by decide +kernel)
  exact ⟨s, hs, hframes, hfree, (dma_owned_once_iff (by decide) (by decide) hs).1.mpr hnone⟩

theorem freed_frame_in_queue : ∃ s, (drivers 1 3).Reach s ∧ 1 ∈ s.hal.frames ∧ 1 ∈ s.hal.ram.free :=
  exists_drivers [.dmaAlloc 1, .dmaDealloc 0] (by decide +kernel)

end TCore.Kernel
