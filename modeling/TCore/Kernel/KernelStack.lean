/-
  TCore.Kernel.KernelStack — the stacks of the kernel (task/id.rs).

  The place of a kernel stack is computed from its id: stacks go down from the trampoline, with a page between
  them. The ids come from an allocator of their own and are used again; the pages are an area of the kernel's
  memory set, which is found by its first page when the stack is dropped. Between the calls others take and give
  back frames and write to theirs.
-/

import TCore.Kernel.Ids
import TCore.Kernel.UserRes
import TCore.Mm.KernelSpace

namespace TCore.Kernel

open TCore.Lib TCore.Mm
open Function (update update_of_ne update_self)
open List Option VirtAddr MemorySet MapArea StackFrameAllocator Mapping

/-- The bottom and the top of a stack. -/
def kernelStackPosition (kstackId : Nat) : Nat × Nat :=
  let top := wrappingSub TRAMPOLINE (kstackId * (KERNEL_STACK_SIZE + PAGE_SIZE))
  (wrappingSub top KERNEL_STACK_SIZE, top)

structure KernelStacks where
  /-- `KSTACK_ALLOCATOR`. -/
  allocator : RecycleAllocator
  /-- `KERNEL_SPACE`. -/
  space : MemorySet
  ram : Ram
  /-- The values of type `KernelStack`. -/
  live : List Nat
  /-- The frames that others have. -/
  others : List Nat

namespace KernelStacks

def kstackAlloc (low : Nat) (s : KernelStacks) : Option KernelStacks :=
  let kstackId := s.allocator.alloc.1
  (s.space.insertFramedArea low s.ram (fromUsize (kernelStackPosition kstackId).1)
    (fromUsize (kernelStackPosition kstackId).2) (.R ||| .W)).map fun (ms, r) =>
      { s with allocator := s.allocator.alloc.2, space := ms, ram := r, live := s.live ++ [kstackId] }

/-- The drop of a `KernelStack`. -/
def dropStack (s : KernelStacks) (id : Nat) : Option KernelStacks :=
  (alignedVpn (fromUsize (kernelStackPosition id).1)).bind fun vpn =>
    (s.space.removeAreaWithStartVpn s.ram vpn).bind fun (ms, r) =>
      (s.allocator.dealloc id).map fun a => { s with allocator := a, space := ms, ram := r, live := s.live.erase id }

end KernelStacks

inductive StackEvent where
  | alloc
  | drop (id : Nat)
  /-- Someone else takes a frame, gives one back, or writes to one. -/
  | otherAlloc
  | otherDealloc (f : Nat)
  | otherWrite (f : Nat) (write : Mm.Frame → Mm.Frame)

def KernelStacks.step (low : Nat) (s : KernelStacks) : StackEvent → Option KernelStacks
  | .alloc => s.kstackAlloc low
  | .drop id => if id ∈ s.live then s.dropStack id else none
  | .otherAlloc => s.ram.frameAlloc.map fun (f, r) => { s with ram := r, others := f :: s.others }
  | .otherDealloc f =>
    if f ∈ s.others then (s.ram.frameDealloc f).map fun r => { s with ram := r, others := s.others.erase f } else none
  | .otherWrite f write =>
    if f ∈ s.others then some { s with ram := { s.ram with mem := Function.update s.ram.mem f (write (s.ram.mem f)) } } else none

/-- From the moment at which the kernel has built its address space. -/
def kernelStacks (k : KernelImage) : Machine KernelStacks StackEvent where
  init s := ∃ mem, MemorySet.newKernel k ⟨.init k.low (MEMORY_END / PAGE_SIZE), mem⟩ = some (s.space, s.ram) ∧
    s.allocator = ⟨0, []⟩ ∧ s.live = [] ∧ s.others = []
  step := KernelStacks.step k.low

/-- The stack of an id is in the upper half of the address space. -/
def UpperHalf (id : Nat) : Prop := (id + 1) * (KERNEL_STACK_SIZE + PAGE_SIZE) ≤ 2 ^ 38

def StackEvent.Upper (s : KernelStacks) (e : StackEvent) : Prop := e = .alloc → UpperHalf s.allocator.alloc.1

/-- The first page of a stack. -/
def stackVpn (id : Nat) : Nat := floor (fromUsize (kernelStackPosition id).1)

/-! ## Places -/

section places

variable {id id' : Nat}

section

variable (h : UpperHalf id)
include h

theorem kernelStackPosition_eq :
    kernelStackPosition id = (2 ^ 64 - 12288 * (id + 1), 2 ^ 64 - 12288 * id - 4096) := by
  unfold UpperHalf at h
  simp only [kernelStackPosition, wrappingSub, TRAMPOLINE, KERNEL_STACK_SIZE, PAGE_SIZE, Prod.mk.injEq] at h ⊢
  omega

theorem stackVpn_eq : stackVpn id = 2 ^ 27 - 3 * (id + 1) ∧ 3 * (id + 1) ≤ 2 ^ 26 := by
  unfold stackVpn
  rw [kernelStackPosition_eq h]
  unfold UpperHalf at h
  simp only [floor, fromUsize, KERNEL_STACK_SIZE, PAGE_SIZE] at h ⊢
  omega

theorem stackVpn_end : ceil (fromUsize (kernelStackPosition id).2) = stackVpn id + 2 := by
  obtain ⟨hvpn, hle⟩ := stackVpn_eq h
  have hmod : (2 ^ 64 - 12288 * id - 4096) % 2 ^ 39 = 2 ^ 39 - 12288 * id - 4096 := by omega
  rw [hvpn, kernelStackPosition_eq h]
  simp only [ceil, fromUsize, PAGE_SIZE, hmod]
  omega

theorem stack_aligned : alignedVpn (fromUsize (kernelStackPosition id).1) = some (stackVpn id) := by
  refine if_pos ?_
  rw [kernelStackPosition_eq h]
  unfold UpperHalf at h
  simp only [pageOffset, fromUsize, KERNEL_STACK_SIZE, PAGE_SIZE] at h ⊢
  omega

theorem stackVpn_inj (h' : UpperHalf id') (heq : stackVpn id = stackVpn id') : id = id' := by
  obtain ⟨hid, hle⟩ := stackVpn_eq h
  obtain ⟨hid', hle'⟩ := stackVpn_eq h'
  omega

end

end places

/-! ## The invariant -/

/-- The area of a live stack. -/
structure IsStack (id : Nat) (a : MapArea) : Prop where
  area : a = ⟨stackVpn id, stackVpn id + 2, a.dataFrames, .framed, .R ||| .W⟩
  wf : a.Wf

namespace KernelStacks

/-- The frames of the stacks. -/
def stackFrames (s : KernelStacks) (areaOf : Nat → MapArea) : List Nat := (s.live.map areaOf).flatMap MapArea.frames

def stackMappings (s : KernelStacks) (areaOf : Nat → MapArea) : List Mapping := (s.live.map areaOf).flatMap MapArea.mappings

structure Inv (k : KernelImage) (s : KernelStacks) (areaOf : Nat → MapArea) : Prop where
  ids : s.allocator.Split s.live
  upper : ∀ id ∈ s.live, UpperHalf id
  areas : s.space.areas = k.areas ++ s.live.map areaOf
  stack : ∀ id ∈ s.live, IsStack id (areaOf id)
  space : Space k.low s.space.pageTable s.ram (k.mappings ++ s.stackMappings areaOf) (s.stackFrames areaOf)
  owned : Ram.Owned k.low (s.others ++ (s.stackFrames areaOf ++ s.space.pageTable.frames)) s.ram

variable {k : KernelImage} {s s' : KernelStacks} {areaOf : Nat → MapArea} {id v : Nat}

theorem inv_init (h : (kernelStacks k).init s) : s.Inv k areaOf := by
  obtain ⟨mem, hnew, halloc, hlive, hothers⟩ := h
  have hsorted := k.sorted
  have hlow := k.low_eq
  have hsound : (init k.low (MEMORY_END / PAGE_SIZE)).Sound := by
    refine sound_init ?_ (by decide)
    rw [hlow]
    exact Nat.div_le_div_right hsorted.2.2.2.2.2
  obtain ⟨hareas, hspace⟩ := newKernel_spec (k := k) hsound Ram.owned_init hnew
  have hframes : s.stackFrames areaOf = [] := by
    unfold stackFrames
    rw [hlive]
    rfl
  have hmappings : s.stackMappings areaOf = [] := by
    unfold stackMappings
    rw [hlive]
    rfl
  refine ⟨?_, ?_, ?_, ?_, ?_, ?_⟩
  · rw [halloc, hlive]
    exact RecycleAllocator.split_new
  · rw [hlive]
    intro id hid
    cases hid
  · rw [hareas, hlive, map_nil, append_nil]
  · rw [hlive]
    intro id hid
    cases hid
  · rw [hframes, hmappings, append_nil]
    exact hspace
  · rw [hothers, hframes]
    exact hspace.owned

theorem Inv.other {own : List Nat} {r : Ram} (h : s.Inv k areaOf) (ht : Ram.Trade s.others s.ram own r) :
    Inv k { s with ram := r, others := own } areaOf := by
  have hdisj : ∀ f ∈ s.stackFrames areaOf ++ s.space.pageTable.frames, f ∉ s.others := by
    intro f hf hother
    exact (nodup_append'.mp (nodup_append'.mp h.owned.nodup).1).2.2 hother hf
  have hrange : ∀ f ∈ s.others, k.low ≤ f ∧ f < s.ram.allocator.end_ := fun f hf =>
    h.owned.range f (mem_append_left _ (mem_append_left _ hf))
  refine ⟨h.ids, h.upper, h.areas, h.stack, (h.space.other ht hrange hdisj).1, ?_⟩
  have htrade := (ht.frame (s.stackFrames areaOf ++ s.space.pageTable.frames)).congr perm_append_comm perm_append_comm
  exact htrade.owned h.owned

/-- In the upper half exactly the pages of the live stacks are mapped. -/
theorem Inv.mapped_iff (h : s.Inv k areaOf) (hge : 2 ^ 26 ≤ v) (hlt : v < 2 ^ 27 - 1) :
    s.space.pageTable.leaf s.ram.mem v ≠ none ↔ ∃ id ∈ s.live, v = stackVpn id ∨ v = stackVpn id + 1 := by
  have hiff := h.space.shows.leaf_eq_none (v := v) (by omega)
  rw [ne_eq, hiff, not_not, map_append, mem_append]
  have hnot : v ∉ k.mappings.map vpn := by
    intro hmem
    obtain ⟨m, hm, rfl⟩ := mem_map.mp hmem
    rcases k.mappings_vpn m hm with hlow | hlast
    · omega
    · omega
  rw [or_iff_right hnot]
  unfold stackMappings
  rw [map_flatMap, mem_flatMap]
  constructor
  · intro hmem
    obtain ⟨a, ha, hv⟩ := hmem
    obtain ⟨id, hid, rfl⟩ := mem_map.mp ha
    have hstack := h.stack id hid
    rw [hstack.wf.vpns, mem_vpnRange, hstack.area] at hv
    exact ⟨id, hid, by dsimp only at hv; omega⟩
  · intro hmem
    obtain ⟨id, hid, hv⟩ := hmem
    have hstack := h.stack id hid
    refine ⟨areaOf id, mem_map_of_mem hid, ?_⟩
    rw [hstack.wf.vpns, mem_vpnRange, hstack.area]
    dsimp only
    omega

theorem map_update_of_not_mem {l : List Nat} {a : MapArea} (hid : id ∉ l) : l.map (update areaOf id a) = l.map areaOf := by
  refine map_congr_left ?_
  intro x hx
  exact update_of_ne (ne_of_mem_of_not_mem hx hid) _ _

theorem Inv.alloc (h : s.Inv k areaOf) (hupper : UpperHalf s.allocator.alloc.1) (hs : s.kstackAlloc k.low = some s') :
    ∃ areaOf', s'.Inv k areaOf' := by
  obtain ⟨⟨ms, r⟩, hins, rfl⟩ := map_eq_some_iff.mp hs
  obtain ⟨hsplit, hfresh⟩ := h.ids.alloc
  obtain ⟨a, hnew, hpush⟩ := bind_eq_some_iff.mp hins
  obtain ⟨-, heq⟩ := ite_none_right_eq_some.mp hnew
  cases heq
  obtain ⟨a, hmap, hms⟩ := push_none hpush
  have hend := stackVpn_end hupper
  obtain ⟨hvpn, hle⟩ := stackVpn_eq hupper
  generalize s.allocator.alloc.1 = id at hupper hfresh hsplit hmap hend hvpn hle ⊢
  have hplaced : MapArea.Placed k.low _ s.space.pageTable s.ram _ _ a ms.pageTable r := map_spec rfl rfl h.space (by
    intro v hv
    have hlt := (mem_vpnRange.mp hv).2
    dsimp only at hlt
    omega) hmap
  have hlive : (s.live ++ [id]).map (update areaOf id a) = s.live.map areaOf ++ [a] := by
    rw [map_append, map_update_of_not_mem hfresh, map_singleton, update_self]
  have hframes : ((s.live ++ [id]).map (update areaOf id a)).flatMap MapArea.frames = s.stackFrames areaOf ++ a.frames := by
    rw [hlive, flatMap_append, flatMap_singleton]
    rfl
  have hmappings : ((s.live ++ [id]).map (update areaOf id a)).flatMap MapArea.mappings =
      s.stackMappings areaOf ++ a.mappings := by
    rw [hlive, flatMap_append, flatMap_singleton]
    rfl
  refine ⟨update areaOf id a, ⟨?_, ?_, ?_, ?_, ?_, ?_⟩⟩
  · exact hsplit.perm (perm_append_singleton _ _)
  · intro x hx
    rcases mem_append.mp hx with hx | hx
    · exact h.upper x hx
    · exact mem_singleton.mp hx ▸ hupper
  · dsimp only
    rw [hms, h.areas, hlive, append_assoc]
  · intro x hx
    rcases mem_append.mp hx with hx | hx
    · rw [update_of_ne (ne_of_mem_of_not_mem hx hfresh)]
      exact h.stack x hx
    · rw [mem_singleton.mp hx, update_self]
      have hsame := hplaced.same
      rw [hend] at hsame
      exact ⟨hsame, hplaced.wf⟩
  · unfold stackFrames stackMappings
    dsimp only
    rw [hframes, hmappings, ← append_assoc]
    exact hplaced.space
  · unfold stackFrames
    dsimp only
    rw [hframes]
    exact (hplaced.trade.frame s.others).owned h.owned

/-- The stack of an id is found by its first page. -/
theorem Inv.find (h : s.Inv k areaOf) (hid : id ∈ s.live) :
    ∃ before after, s.live = before ++ id :: after ∧ s.live.erase id = before ++ after ∧
    s.space.areas.find? (fun area => area.start == stackVpn id) = some (areaOf id) ∧
    s.space.areas.eraseP (fun area => area.start == stackVpn id) = k.areas ++ (before ++ after).map areaOf := by
  obtain ⟨before, after, hlive, hfirst⟩ := eq_append_cons_of_mem hid
  have hstart : ∀ x ∈ s.live, (areaOf x).start = stackVpn x := fun x hx => by rw [(h.stack x hx).area]
  have hother : ∀ b ∈ k.areas ++ before.map areaOf, ¬(b.start == stackVpn id) = true := by
    intro b hb hbeq
    have heq := beq_iff_eq.mp hbeq
    rcases mem_append.mp hb with hb | hb
    · have hlow := k.areas_start b hb
      obtain ⟨hvpn, hle⟩ := stackVpn_eq (h.upper id hid)
      omega
    · obtain ⟨x, hx, rfl⟩ := mem_map.mp hb
      have hx' : x ∈ s.live := hlive ▸ mem_append_left _ hx
      rw [hstart x hx'] at heq
      exact hfirst (stackVpn_inj (h.upper x hx') (h.upper id hid) heq ▸ hx)
  have hself : ((areaOf id).start == stackVpn id) = true := beq_iff_eq.mpr (hstart id hid)
  have hareas : s.space.areas = (k.areas ++ before.map areaOf) ++ areaOf id :: after.map areaOf := by
    rw [h.areas, hlive, map_append, map_cons, append_assoc]
  refine ⟨before, after, hlive, ?_, ?_, ?_⟩
  · rw [hlive, erase_append_right _ hfirst, erase_cons_head]
  · rw [hareas, find?_append, find?_eq_none.mpr hother, none_or]
    exact find?_cons_of_pos (p := fun area : MapArea => area.start == stackVpn id) hself
  · rw [hareas, eraseP_append_right _ hother, eraseP_cons_of_pos (p := fun area : MapArea => area.start == stackVpn id) hself,
      map_append, append_assoc]

/-- What the drop of a live stack does. -/
structure Dropped (k : KernelImage) (s : KernelStacks) (areaOf : Nat → MapArea) (id : Nat) (s' : KernelStacks) : Prop where
  inv : s'.Inv k areaOf
  live : s'.live = s.live.erase id
  leaf : ∀ v < 2 ^ 27, s'.space.pageTable.leaf s'.ram.mem v =
    if v = stackVpn id ∨ v = stackVpn id + 1 then none else s.space.pageTable.leaf s.ram.mem v

theorem Inv.drop (h : s.Inv k areaOf) (hid : id ∈ s.live) : ∃ s', s.dropStack id = some s' ∧ Dropped k s areaOf id s' := by
  obtain ⟨before, after, hlive, herase, hfind, heraseP⟩ := h.find hid
  have hstack := h.stack id hid
  obtain ⟨allocator, hdealloc, hsplit, -⟩ := h.ids.dealloc hid
  -- The area and its frames come first in the lists of mappings and of frames.
  have hmappings : (k.mappings ++ s.stackMappings areaOf).Perm
      ((areaOf id).mappings ++ (k.mappings ++ ((before ++ after).map areaOf).flatMap MapArea.mappings)) := by
    unfold stackMappings
    rw [hlive, map_append, map_cons, flatMap_append, flatMap_cons, map_append, flatMap_append]
    refine (Perm.append_left _ (perm_append_comm_assoc _ _ _)).trans ?_
    exact perm_append_comm_assoc _ _ _
  have hframes : (s.stackFrames areaOf).Perm ((areaOf id).frames ++ ((before ++ after).map areaOf).flatMap MapArea.frames) := by
    unfold stackFrames
    rw [hlive, map_append, map_cons, flatMap_append, flatMap_cons, map_append, flatMap_append]
    exact perm_append_comm_assoc _ _ _
  have hspace := h.space.perm hmappings.symm hframes.symm
  obtain ⟨a', r₁, r', hunmap, hdrop, hspace', htrade, -⟩ := unmap_drop hstack.wf hspace
  have hremove : s.space.removeAreaWithStartVpn s.ram (stackVpn id) =
      some ({ s.space with areas := k.areas ++ (before ++ after).map areaOf }, r') := by
    unfold removeAreaWithStartVpn
    rw [hfind]
    dsimp only
    rw [hunmap, bind_some]
    dsimp only
    rw [hdrop, map_some, heraseP]
  refine ⟨⟨allocator, { s.space with areas := k.areas ++ (before ++ after).map areaOf }, r', s.live.erase id, s.others⟩,
    ?_, ⟨?_, ?_, ?_, ?_, ?_, ?_⟩, rfl, ?_⟩
  · unfold dropStack
    rw [stack_aligned (h.upper id hid), bind_some, hremove, bind_some]
    dsimp only
    rw [hdealloc, map_some]
  · exact hsplit
  · intro x hx
    exact h.upper x (mem_of_mem_erase hx)
  · dsimp only
    rw [herase]
  · intro x hx
    exact h.stack x (mem_of_mem_erase hx)
  · unfold stackMappings stackFrames
    dsimp only
    rw [herase]
    exact hspace'
  · unfold stackFrames
    dsimp only
    rw [herase]
    have htrade' := htrade.congr (hframes.append_right _) (.refl _)
    exact (htrade'.frame s.others).owned h.owned
  · intro v hv
    have hleaf := (h.space.shows.perm hmappings.symm).leaf_rest hspace'.shows hv
    have hmem : v ∈ (areaOf id).mappings.map vpn ↔ v = stackVpn id ∨ v = stackVpn id + 1 := by
      rw [hstack.wf.vpns, mem_vpnRange, hstack.area]
      dsimp only
      omega
    rw [if_congr hmem rfl rfl] at hleaf
    exact hleaf

theorem Inv.step {e : StackEvent} (h : s.Inv k areaOf) (hok : e.Upper s) (hs : s.step k.low e = some s') :
    ∃ areaOf', s'.Inv k areaOf' := by
  cases e with
  | alloc => exact h.alloc (hok rfl) hs
  | drop id =>
    obtain ⟨hid, hs⟩ := ite_none_right_eq_some.mp hs
    obtain ⟨s₁, hs₁, hdropped⟩ := h.drop hid
    rw [hs] at hs₁
    cases hs₁
    exact ⟨areaOf, hdropped.inv⟩
  | otherAlloc =>
    obtain ⟨⟨f, r⟩, halloc, rfl⟩ := map_eq_some_iff.mp hs
    exact ⟨areaOf, h.other (Ram.frameAlloc_trade h.space.sound halloc)⟩
  | otherDealloc f =>
    obtain ⟨hf, hs⟩ := ite_none_right_eq_some.mp hs
    obtain ⟨r, hdealloc, rfl⟩ := map_eq_some_iff.mp hs
    exact ⟨areaOf, h.other (Ram.frameDealloc_trade h.space.sound h.owned.left hf hdealloc)⟩
  | otherWrite f write =>
    obtain ⟨hf, hs⟩ := ite_none_right_eq_some.mp hs
    cases hs
    have hw := (s.ram.update_wrote f write).mono fun g hg => hg ▸ hf
    exact ⟨areaOf, h.other (hw.trade h.space.sound)⟩

theorem exists_inv (hs : ((kernelStacks k).only fun s e => e.Upper s).Reach s) : ∃ areaOf, s.Inv k areaOf := by
  refine hs.inv (fun s => ∃ areaOf, s.Inv k areaOf) ?_ ?_
  · intro s hinit
    exact ⟨fun _ => ⟨0, 0, [], .framed, 0⟩, inv_init hinit⟩
  · intro s e t h hstep
    obtain ⟨areaOf, h⟩ := h
    obtain ⟨hok, hstep⟩ := Machine.only_step.mp hstep
    exact h.step hok hstep

/-- The page below the place of a stack is never mapped. -/
theorem Inv.below (h : s.Inv k areaOf) (hupper : UpperHalf id) : s.space.pageTable.leaf s.ram.mem (stackVpn id - 1) = none := by
  obtain ⟨hvpn, hle⟩ := stackVpn_eq hupper
  by_contra hmapped
  obtain ⟨x, hx, hpage⟩ := (h.mapped_iff (by omega) (by omega)).mp hmapped
  obtain ⟨hvpn', hle'⟩ := stackVpn_eq (h.upper x hx)
  -- Every third page, counted from the trampoline.
  omega

/-- The page above a stack is the one below the place of the next. -/
theorem Inv.above (h : s.Inv k areaOf) (hupper : UpperHalf id) (hpos : 0 < id) :
    s.space.pageTable.leaf s.ram.mem (floor (fromUsize (kernelStackPosition id).2)) = none := by
  obtain ⟨hvpn, hle⟩ := stackVpn_eq hupper
  have hprev : UpperHalf (id - 1) := by
    unfold UpperHalf at hupper ⊢
    refine le_trans (Nat.mul_le_mul_right _ ?_) hupper
    omega
  have hbelow := h.below hprev
  rw [(stackVpn_eq hprev).1] at hbelow
  have hpage : floor (fromUsize (kernelStackPosition id).2) = 2 ^ 27 - 3 * (id - 1 + 1) - 1 := by
    rw [kernelStackPosition_eq hupper]
    simp only [floor, fromUsize, PAGE_SIZE]
    omega
  rw [hpage]
  exact hbelow

/-- With six free frames a stack can be allocated. -/
theorem Inv.alloc_isSome (h : s.Inv k areaOf) (hupper : UpperHalf s.allocator.alloc.1) (hfree : 6 ≤ s.ram.free.length) :
    ∃ s', s.kstackAlloc k.low = some s' ∧ s'.live = s.live ++ [s.allocator.alloc.1] ∧ s'.allocator = s.allocator.alloc.2 ∧
      s.ram.free.length ≤ s'.ram.free.length + 6 := by
  obtain ⟨-, hfresh⟩ := h.ids.alloc
  have hend := stackVpn_end hupper
  obtain ⟨hvpn, hle⟩ := stackVpn_eq hupper
  let a : MapArea := ⟨stackVpn s.allocator.alloc.1, stackVpn s.allocator.alloc.1 + 2, [], .framed, .R ||| .W⟩
  have hnew : ∀ v ∈ a.vpnRange, v ∉ (k.mappings ++ s.stackMappings areaOf).map vpn := by
    intro v hv
    obtain ⟨hge, hlt⟩ := mem_vpnRange.mp hv
    dsimp only [a] at hge hlt
    rw [← h.space.shows.leaf_eq_none (by omega)]
    by_contra hmapped
    obtain ⟨x, hx, hpage⟩ := (h.mapped_iff (by omega) (by omega)).mp hmapped
    obtain ⟨hvpn', hle'⟩ := stackVpn_eq (h.upper x hx)
    have heq : x = s.allocator.alloc.1 := by omega
    exact hfresh (heq ▸ hx)
  have hbound : ∀ v ∈ a.vpnRange, v < 2 ^ 27 := by
    intro v hv
    have hlt := (mem_vpnRange.mp hv).2
    dsimp only [a] at hlt
    omega
  have hlen : a.vpnRange.length = 2 := by
    unfold vpnRange
    rw [length_range', Nat.add_sub_cancel_left]
  obtain ⟨⟨a', pt', r'⟩, hmap⟩ := isSome_iff_exists.mp
    (mapPages_isSome (a := a) rfl h.space hbound nodup_vpnRange hnew (by omega))
  have hcost := (map_spec (a := a) rfl rfl h.space hbound hmap).cost
  refine ⟨⟨s.allocator.alloc.2, ⟨pt', s.space.areas ++ [a']⟩, r', s.live ++ [s.allocator.alloc.1], s.others⟩, ?_, rfl, rfl,
    by simp only; omega⟩
  unfold kstackAlloc insertFramedArea new
  dsimp only
  rw [hend]
  have hplace : floor (fromUsize (kernelStackPosition s.allocator.alloc.1).1) = stackVpn s.allocator.alloc.1 := rfl
  rw [hplace, if_pos (Nat.le_add_right _ _), bind_some, push_of_map hmap, map_some]

end KernelStacks

/-- While the ids stay small enough for the upper half of the address space, exactly the pages of the live stacks
are mapped there, no two of them are next to each other, and a drop unmaps the pages of its own stack. -/
theorem kernel_stacks_apart {k : KernelImage} {s : KernelStacks} (hs : ((kernelStacks k).only fun s e => e.Upper s).Reach s) :
    s.live.Nodup ∧
    (∀ id ∈ s.live, (kernelStackPosition id).1 + KERNEL_STACK_SIZE = (kernelStackPosition id).2 ∧ (kernelStackPosition id).2 ≤ TRAMPOLINE ∧
      s.space.pageTable.leaf s.ram.mem (stackVpn id - 1) = none) ∧
    (∀ id ∈ s.live, ∀ id' ∈ s.live, id < id' → (kernelStackPosition id').2 + PAGE_SIZE ≤ (kernelStackPosition id).1 ∧
      s.space.pageTable.leaf s.ram.mem (floor (fromUsize (kernelStackPosition id').2)) = none) ∧
    (∀ v, 2 ^ 26 ≤ v → v < MemorySet.trampolineVpn →
      (s.space.pageTable.leaf s.ram.mem v ≠ none ↔ ∃ id ∈ s.live, v = stackVpn id ∨ v = stackVpn id + 1)) ∧
    ∀ id ∈ s.live, ∃ s', (kernelStacks k).step s (.drop id) = some s' ∧ s'.live = s.live.erase id ∧
      ∀ v < 2 ^ 27, s'.space.pageTable.leaf s'.ram.mem v =
        if v = stackVpn id ∨ v = stackVpn id + 1 then none else s.space.pageTable.leaf s.ram.mem v := by
  obtain ⟨areaOf, h⟩ := KernelStacks.exists_inv hs
  refine ⟨(nodup_append'.mp h.ids.nodup).1, ?_, ?_, ?_, ?_⟩
  · intro id hid
    have hupper := h.upper id hid
    obtain ⟨hvpn, hle⟩ := stackVpn_eq hupper
    refine ⟨?_, ?_, h.below hupper⟩
    · rw [kernelStackPosition_eq hupper]
      simp only [KERNEL_STACK_SIZE]
      omega
    · rw [kernelStackPosition_eq hupper]
      simp only [TRAMPOLINE]
      omega
  · intro id hid id' hid' hlt
    obtain ⟨hvpn, hle⟩ := stackVpn_eq (h.upper id' hid')
    refine ⟨?_, h.above (h.upper id' hid') (by omega)⟩
    rw [kernelStackPosition_eq (h.upper id hid), kernelStackPosition_eq (h.upper id' hid')]
    simp only [PAGE_SIZE]
    omega
  · intro v hge hlt
    rw [MemorySet.trampolineVpn_eq] at hlt
    exact h.mapped_iff hge hlt
  · intro id hid
    obtain ⟨s', hs', hdropped⟩ := h.drop hid
    exact ⟨s', (if_pos hid).trans hs', hdropped.live, hdropped.leaf⟩

/-- A kernel of five pages and its first two stacks, the first of which is dropped. -/
theorem kernel_stacks_apart_two : ∃ (k : KernelImage) (s s' : KernelStacks), ((kernelStacks k).only fun s e => e.Upper s).Reach s ∧
    s.live = [0, 1] ∧ s.space.pageTable.leaf s.ram.mem (2 ^ 27 - 2) ≠ none ∧ (kernelStacks k).step s (.drop 0) = some s' ∧
    s'.live = [1] ∧ s'.space.pageTable.leaf s'.ram.mem (2 ^ 27 - 2) = none ∧
    s'.space.pageTable.leaf s'.ram.mem (2 ^ 27 - 5) ≠ none := by
  let k : KernelImage := ⟨0x80201000, 0x80202000, 0x80203000, 0x80204000, 0x80205000, by decide, by decide⟩
  let r : Ram := ⟨.init k.low (MEMORY_END / PAGE_SIZE), fun _ => 0⟩
  have hlow : k.low = 0x80205 := k.low_eq.trans (by decide)
  have hsound : r.allocator.Sound := StackFrameAllocator.sound_init (by rw [hlow]; decide) (by decide)
  have hlen : r.free.length = MEMORY_END / PAGE_SIZE - k.low := length_range'
  have hfree : 32000 ≤ r.free.length := by
    rw [hlen, hlow]
    decide
  obtain ⟨ms, r₁, hnew, hcost⟩ := MemorySet.newKernel_isSome (k := k) hsound Ram.owned_init (by omega)
  let s₀ : KernelStacks := ⟨⟨0, []⟩, ms, r₁, [], []⟩
  have hinit : (kernelStacks k).init s₀ := ⟨_, hnew, rfl, rfl, rfl⟩
  have hupper : UpperHalf 0 ∧ UpperHalf 1 := by
    unfold UpperHalf
    decide
  have hinv : s₀.Inv k fun _ => ⟨0, 0, [], .framed, 0⟩ := KernelStacks.inv_init hinit
  obtain ⟨s₁, hs₁, hlive₁, halloc₁, hcost₁⟩ := hinv.alloc_isSome hupper.1 (show 6 ≤ r₁.free.length by omega)
  have hnext : s₁.allocator.alloc.1 = 1 := by rw [halloc₁]; rfl
  have hstart : ((kernelStacks k).only fun s e => e.Upper s).Reach s₀ := .init hinit
  have hreach₁ := hstart.onlyStep .alloc (fun _ => hupper.1) hs₁
  obtain ⟨areaOf, hinv₁⟩ := KernelStacks.exists_inv hreach₁
  obtain ⟨s, hs, hlive, -⟩ := hinv₁.alloc_isSome (by rw [hnext]; exact hupper.2) (by simp only [s₀] at hcost₁; omega)
  have hreach := hreach₁.onlyStep .alloc (fun _ => by rw [hnext]; exact hupper.2) hs
  rw [hlive₁, hnext] at hlive
  have hlive : s.live = [0, 1] := hlive
  have hpages : stackVpn 0 = 2 ^ 27 - 3 ∧ stackVpn 1 = 2 ^ 27 - 6 := by decide
  obtain ⟨-, -, -, hmapped, hdrop⟩ := kernel_stacks_apart hreach
  obtain ⟨s', hs', hlive', hleaf⟩ := hdrop 0 (by simp [hlive])
  rw [hpages.1] at hleaf
  refine ⟨k, s, s', hreach, hlive, (hmapped (2 ^ 27 - 2) (by decide) (by decide)).mpr ⟨0, by simp [hlive], by omega⟩, hs', ?_, ?_, ?_⟩
  · rw [hlive', hlive]
    rfl
  · rw [hleaf _ (by decide), if_pos (by decide)]
  · rw [hleaf _ (by decide), if_neg (by decide)]
    exact (hmapped (2 ^ 27 - 5) (by decide) (by decide)).mpr ⟨1, by simp [hlive], by omega⟩

end TCore.Kernel
