/-
  TCore.Kernel.Process — a process as its address space and its threads (task/process.rs, task/task.rs,
  task/id.rs): creation, fork, exec, the creation and the exit of a thread, the exit of the process.

  `Process.Inv` ties the threads to the areas: each has its stack and its trap context in the memory set, at
  the places computed from its tid, and `trap_cx_ppn` of its control block is the frame that is mapped there.
  Every operation keeps it, and touches no frame of another owner but the free ones.

  `none` is a panic. The kernel stack of a thread is in the kernel's address space and not part of its process.
-/

import TCore.Kernel.Exec
import TCore.Kernel.Tables

namespace TCore.Kernel

open TCore.Mm TCore.Lib PageTable
open List Option MapArea MemorySet Ram

/-- A thread that has its user resources, with `trap_cx_ppn` of its control block. -/
structure UserThread where
  tid : Nat
  trapCxPpn : Nat

structure Process where
  memorySet : MemorySet
  /-- The same for all its threads. -/
  ustackBase : Nat
  taskResAllocator : RecycleAllocator
  /-- `tasks.len()`, which `thread_count` returns. -/
  taskCount : Nat
  /-- The threads whose `res` has not been dropped. -/
  threads : List UserThread

namespace Process

/-- `TaskControlBlock::new` with new user resources. -/
def newTask (low : Nat) (p : Process) (r : Ram) : Option ((UserThread × Process) × Ram) :=
  let tid := p.taskResAllocator.alloc.1
  (allocUserRes low p.ustackBase tid p.memorySet r).bind fun (ms, r) =>
    (Kernel.trapCxPpn tid ms r).map fun ppn =>
      ((⟨tid, ppn⟩, ⟨ms, p.ustackBase, p.taskResAllocator.alloc.2, max p.taskCount (tid + 1), p.threads ++ [⟨tid, ppn⟩]⟩), r)

/-- The trap context of a new thread. -/
def startThread (low : Nat) (kernel : KernelSide) (p : Process) (t : UserThread) (entry arg : Nat) (r : Ram) : Option Ram :=
  let cx := TrapContext.appInitContext (.ofNat entry) (.ofNat (ustackTop p.ustackBase t.tid)) kernel.kernelSatp kernel.kernelSp
    kernel.trapHandler kernel.sstatus
  r.store low t.trapCxPpn { cx with x := cx.x.set 10 (.ofNat arg) }.store

/-- `sys_thread_create`. -/
def threadCreate (low : Nat) (kernel : KernelSide) (entry arg : Nat) (p : Process) (r : Ram) : Option (Process × Ram) :=
  (p.newTask low r).bind fun ((t, p), r) => (startThread low kernel p t entry arg r).map fun r => (p, r)

/-- `ProcessControlBlock::new`. -/
def new (low strampoline : Nat) (kernel : KernelSide) (elf : ElfFile) (r : Ram) : Option (Process × Ram) :=
  (MemorySet.fromElf low strampoline elf r).bind fun ((ms, ustackBase, entryPoint), r) =>
    (newTask low ⟨ms, ustackBase, ⟨0, []⟩, 0, []⟩ r).bind fun ((t, p), r) =>
      let cx := TrapContext.appInitContext (.ofNat entryPoint) (.ofNat (ustackTop p.ustackBase t.tid)) kernel.kernelSatp
        kernel.kernelSp kernel.trapHandler kernel.sstatus
      (r.store low t.trapCxPpn cx.store).map fun r => (p, r)

/-- The child of a fork, whose main thread takes over the copies of the parent's resources. -/
def forkTask (low strampoline : Nat) (p : Process) (r : Ram) : Option ((UserThread × Process) × Ram) :=
  if p.taskCount = 1 then
    (MemorySet.fromExistedUser low strampoline p.memorySet r).bind fun (ms, r) =>
      (Kernel.trapCxPpn 0 ms r).map fun ppn => ((⟨0, ppn⟩, ⟨ms, p.ustackBase, ⟨1, []⟩, 1, [⟨0, ppn⟩]⟩), r)
  else none

/-- `kernel_sp` of the child's trap context, and `fork` returns 0 there. -/
def startChild (low kernelSp : Nat) (t : UserThread) (r : Ram) : Option Ram :=
  r.store low t.trapCxPpn fun f => Function.update (Function.update f 35 (.ofNat 64 kernelSp)) 10 0

/-- `sys_fork`: the child. -/
def fork (low strampoline kernelSp : Nat) (p : Process) (r : Ram) : Option (Process × Ram) :=
  (p.forkTask low strampoline r).bind fun ((t, child), r) => (startChild low kernelSp t r).map fun r => (child, r)

def exec (low strampoline : Nat) (kernel : KernelSide) (elf : ElfFile) (args : List (List (BitVec 8))) (p : Process) (r : Ram) :
    Option (Process × Ram) :=
  if p.taskCount = 1 then
    (Kernel.exec low strampoline kernel p.memorySet elf args r).map fun ((ms, ustackBase, ppn), r) =>
      ({ p with memorySet := ms, ustackBase := ustackBase, threads := p.threads.map fun t => if t.tid = 0 then ⟨0, ppn⟩ else t }, r)
  else none

/-- `TaskUserRes::drop`. -/
def dropRes (tid : Nat) (p : Process) (r : Ram) : Option (Process × Ram) :=
  (p.taskResAllocator.dealloc tid).bind fun allocator =>
    (deallocUserRes p.ustackBase tid p.memorySet r).map fun (ms, r) =>
      ({ p with memorySet := ms, taskResAllocator := allocator, threads := p.threads.filter fun t => t.tid ≠ tid }, r)

/-- The resources of the main thread are dropped first, then those of the others in the order of `tasks`. -/
def exitOrder (p : Process) : List Nat :=
  0 :: (List.range p.taskCount).filter fun tid => tid ≠ 0 ∧ tid ∈ p.threads.map UserThread.tid

/-- What the exit of the main thread does to the address space. -/
def exit (p : Process) (r : Ram) : Option (Process × Ram) :=
  (p.exitOrder.foldlM (fun (x : Process × Ram) tid => x.1.dropRes tid x.2) (p, r)).bind fun (p, r) =>
    (p.memorySet.recycleDataPages r).map fun (ms, r) => ({ p with memorySet := ms }, r)

/-! ## Threads and areas -/

structure Inv (low strampoline : Nat) (p : Process) (r : Ram) : Prop where
  wf : p.memorySet.Wf low strampoline r
  aligned : p.ustackBase % PAGE_SIZE = 0
  nodup : p.taskResAllocator.recycled.Nodup
  recycled : ∀ id ∈ p.taskResAllocator.recycled, id < p.taskResAllocator.current
  inUse : ∀ t ∈ p.threads, t.tid < p.taskResAllocator.current ∧ t.tid ∉ p.taskResAllocator.recycled
  counted : ∀ t ∈ p.threads, t.tid < p.taskCount
  tids : (p.threads.map UserThread.tid).Nodup
  ustacks : ∀ t ∈ p.threads, ∃ frames, ustackArea p.ustackBase t.tid frames ∈ p.memorySet.areas
  trapCxs : ∀ t ∈ p.threads, trapCxArea t.tid t.trapCxPpn ∈ p.memorySet.areas
  apart : p.threads.Pairwise fun t u => ustackVpn p.ustackBase t.tid ≠ ustackVpn p.ustackBase u.tid ∧ trapCxVpn t.tid ≠ trapCxVpn u.tid
  /-- Only an area with pages stands in the way of a fork. -/
  pages : ∀ a ∈ p.memorySet.areas, a.mapType = .noalloc → a.vpnRange ≠ []

section threads

variable {low strampoline : Nat} {p p' child : Process} {t u : UserThread} {r r' : Ram} {own own' : List Nat}

section

variable (h : p.Inv low strampoline r)
include h

theorem Inv.wrote (hw : Ram.Wrote (· ∈ p.memorySet.data) r r') : p.Inv low strampoline r' :=
  { h with wf := h.wf.wrote hw }

theorem Inv.other (ht : Ram.Trade own r own' r') (hlow : ∀ f ∈ own, low ≤ f ∧ f < r.allocator.end_)
    (hdisj : ∀ f ∈ p.memorySet.frames, f ∉ own) : p.Inv low strampoline r' :=
  { h with wf := ⟨h.wf.aligned, h.wf.kernel, h.wf.areas, (h.wf.space.other ht hlow hdisj).1⟩ }

section

variable (ht : t ∈ p.threads)
include ht

theorem Inv.trapCx_data : t.trapCxPpn ∈ p.memorySet.data :=
  mem_flatMap.mpr ⟨_, h.trapCxs t ht, mem_singleton_self _⟩

/-- The kernel reaches the trap context of a thread by its frame. -/
theorem Inv.store_trapCx {g : Mm.Frame → Mm.Frame} :
    ∃ r', r.store low t.trapCxPpn g = some r' ∧ Ram.Wrote (· ∈ p.memorySet.data) r r' := by
  have hdata := h.trapCx_data ht
  obtain ⟨hlow, hend⟩ := h.wf.space.data_range hdata
  obtain ⟨r', hstore⟩ := isSome_iff_exists.mp (store_isSome (g := g) hlow hend)
  exact ⟨r', hstore, (store_wrote hstore).2.mono fun f hf => hf ▸ hdata⟩

/-- A stack and a trap context have no page in common. -/
theorem Inv.stack_ne_trapCx (hu : u ∈ p.threads) :
    ustackVpn p.ustackBase t.tid ≠ trapCxVpn u.tid := by
  intro heq
  obtain ⟨frames, hstack⟩ := h.ustacks t ht
  have harea := h.wf.area_inj hstack (h.trapCxs u hu) (mem_ustackArea.mpr (by omega)) (mem_trapCxArea.mpr heq)
  have hperm : (.R ||| .W ||| .U : PTEFlags) = .R ||| .W := congrArg mapPerm harea
  exact absurd hperm (by decide)

/-- Of two threads with different tids, the places are different. -/
theorem Inv.apart_of_ne (hu : u ∈ p.threads) (hne : t.tid ≠ u.tid) :
    ustackVpn p.ustackBase t.tid ≠ ustackVpn p.ustackBase u.tid ∧ trapCxVpn t.tid ≠ trapCxVpn u.tid := by
  have : Std.Symm fun t u : UserThread =>
      ustackVpn p.ustackBase t.tid ≠ ustackVpn p.ustackBase u.tid ∧ trapCxVpn t.tid ≠ trapCxVpn u.tid :=
    ⟨fun _ _ h => ⟨h.1.symm, h.2.symm⟩⟩
  exact h.apart.forall ht hu fun heq => hne (congrArg UserThread.tid heq)

end

end

/-! ## New threads -/

/-- A thread has been added behind the others. -/
structure Added (low strampoline : Nat) (p : Process) (r : Ram) (t : UserThread) (p' : Process) (r' : Ram) : Prop where
  inv : p'.Inv low strampoline r'
  tid : t.tid = p.taskResAllocator.alloc.1
  process : p' = ⟨p'.memorySet, p.ustackBase, p.taskResAllocator.alloc.2, max p.taskCount (t.tid + 1), p.threads ++ [t]⟩
  allocated : ∃ frames, Allocated low strampoline p.ustackBase t.tid p.memorySet r frames t.trapCxPpn p'.memorySet r'

theorem Added.mem (h : Added low strampoline p r t p' r') : t ∈ p'.threads := by
  rw [h.process]
  exact mem_append_right _ (mem_singleton_self t)

/-- The main thread stays. -/
theorem Added.main (h : Added low strampoline p r t p' r') (hmain : 0 ∈ p.threads.map UserThread.tid) :
    0 ∈ p'.threads.map UserThread.tid := by
  rw [h.process, map_append]
  exact mem_append_left _ hmain

variable {ms : MemorySet} {base : Nat}

/-- The first thread is the main one. -/
theorem Added.main_first (h : Added low strampoline ⟨ms, base, ⟨0, []⟩, 0, []⟩ r t p' r') :
    0 ∈ p'.threads.map UserThread.tid := by
  rw [h.process, nil_append, map_singleton, h.tid]
  exact mem_singleton_self 0

section

variable (h : p.Inv low strampoline r)
include h

theorem newTask_spec (hnew : p.newTask low r = some ((t, p'), r')) :
    Added low strampoline p r t p' r' := by
  obtain ⟨⟨ms, r₁⟩, halloc, hrest⟩ := bind_eq_some_iff.mp hnew
  obtain ⟨ppn, htrap, heq⟩ := map_eq_some_iff.mp hrest
  cases heq
  obtain ⟨frames, ppn', ha⟩ := allocUserRes_allocated h.wf h.aligned halloc
  have hold : ∀ a ∈ p.memorySet.areas, a ∈ ms.areas := fun a hmem => ha.areas ▸ mem_append_left _ hmem
  have hstack : ustackArea p.ustackBase p.taskResAllocator.alloc.1 frames ∈ ms.areas :=
    ha.areas ▸ mem_append_right _ mem_cons_self
  have htrapCx : trapCxArea p.taskResAllocator.alloc.1 ppn' ∈ ms.areas :=
    ha.areas ▸ mem_append_right _ (mem_cons_of_mem _ mem_cons_self)
  rw [trapCxPpn_area ha.wf htrapCx] at htrap
  cases htrap
  obtain ⟨⟨hcurrent, hfresh⟩, hothers, hnodup, hrecycled⟩ := Sys.alloc_spec p.taskResAllocator h.nodup h.recycled
  refine ⟨⟨ha.wf, h.aligned, hnodup, hrecycled, ?_, ?_, ?_, ?_, ?_, ?_, ?_⟩, rfl, rfl, ⟨frames, ha⟩⟩
  · intro u hu
    rcases mem_append.mp hu with hu | hu
    · exact (hothers u.tid (h.inUse u hu).1 (h.inUse u hu).2).2
    · rw [mem_singleton] at hu
      subst hu
      exact ⟨hcurrent, hfresh⟩
  · intro u hu
    rcases mem_append.mp hu with hu | hu
    · exact lt_of_lt_of_le (h.counted u hu) (Nat.le_max_left _ _)
    · rw [mem_singleton] at hu
      subst hu
      exact lt_of_lt_of_le (Nat.lt_succ_self _) (Nat.le_max_right _ _)
  · rw [map_append, map_singleton]
    refine nodup_append'.mpr ⟨h.tids, nodup_singleton _, ?_⟩
    rw [disjoint_singleton]
    intro hmem
    obtain ⟨u, hu, heq⟩ := mem_map.mp hmem
    exact (hothers u.tid (h.inUse u hu).1 (h.inUse u hu).2).1 heq
  · intro u hu
    rcases mem_append.mp hu with hu | hu
    · obtain ⟨frames', hmem⟩ := h.ustacks u hu
      exact ⟨frames', hold _ hmem⟩
    · rw [mem_singleton] at hu
      subst hu
      exact ⟨frames, hstack⟩
  · intro u hu
    rcases mem_append.mp hu with hu | hu
    · exact hold _ (h.trapCxs u hu)
    · rw [mem_singleton] at hu
      subst hu
      exact htrapCx
  · refine pairwise_append.mpr ⟨h.apart, pairwise_singleton _ _, ?_⟩
    intro u hu t ht
    rw [mem_singleton] at ht
    subst ht
    obtain ⟨frames', hmem⟩ := h.ustacks u hu
    refine ⟨?_, ?_⟩
    · intro heq
      exact (ha.fresh hmem).1 (mem_ustackArea.mpr (by dsimp only at heq; omega))
    · intro heq
      exact (ha.fresh (h.trapCxs u hu)).2 (mem_trapCxArea.mpr heq.symm)
  · intro a hmem hnoalloc
    rw [ha.areas, mem_append] at hmem
    rcases hmem with hmem | hmem
    · exact h.pages a hmem hnoalloc
    · rcases mem_pair.mp hmem with rfl | rfl <;> cases hnoalloc

theorem threadCreate_spec {kernel : KernelSide} {entry arg : Nat}
    (hcreate : p.threadCreate low kernel entry arg r = some (p', r')) :
    ∃ t r₁, Added low strampoline p r t p' r₁ ∧ Ram.Wrote (· ∈ p'.memorySet.data) r₁ r' := by
  obtain ⟨⟨⟨t, p₁⟩, r₁⟩, hnew, hrest⟩ := bind_eq_some_iff.mp hcreate
  obtain ⟨r₂, hstore, heq⟩ := map_eq_some_iff.mp hrest
  cases heq
  have ha := newTask_spec h hnew
  exact ⟨t, r₁, ha, (store_wrote hstore).2.mono fun f hf => hf ▸ ha.inv.trapCx_data ha.mem⟩

theorem newTask_isSome (hroom : Room p.ustackBase p.taskResAllocator.alloc.1 p.memorySet r)
    (hfree : 9 ≤ r.free.length) : (p.newTask low r).isSome := by
  obtain ⟨⟨ms, r₁⟩, halloc⟩ := isSome_iff_exists.mp (hroom.isSome h.wf h.aligned hfree)
  obtain ⟨frames, ppn, ha⟩ := allocUserRes_allocated h.wf h.aligned halloc
  have htrap := trapCxPpn_area ha.wf (ha.areas ▸ mem_append_right _ (mem_cons_of_mem _ mem_cons_self))
  rw [newTask]
  dsimp only
  rw [halloc, bind_some]
  dsimp only
  rw [htrap]
  rfl

end

theorem threadCreate_isSome (kernel : KernelSide) (entry arg : Nat) (h : p.Inv low strampoline r)
    (hroom : Room p.ustackBase p.taskResAllocator.alloc.1 p.memorySet r) (hfree : 9 ≤ r.free.length) :
    (p.threadCreate low kernel entry arg r).isSome := by
  obtain ⟨⟨⟨t, p'⟩, r'⟩, hnew⟩ := isSome_iff_exists.mp (newTask_isSome h hroom hfree)
  have ha := newTask_spec h hnew
  rw [threadCreate, hnew, bind_some]
  dsimp only
  rw [startThread]
  obtain ⟨r'', hstore, -⟩ := ha.inv.store_trapCx ha.mem
  rw [hstore]
  rfl

/-! ## Fork and exec -/

theorem fromAnother_ustackArea {frames : List (Nat × FrameTracker)} {a : MapArea} {tid : Nat}
    (h : fromAnother a = fromAnother (ustackArea base tid frames)) : a = ustackArea base tid a.dataFrames := by
  obtain ⟨start, end_, dataFrames, mapType, mapPerm⟩ := a
  simp only [MapArea.fromAnother, ustackArea, MapArea.mk.injEq] at h ⊢
  exact ⟨h.1, h.2.1, trivial, h.2.2.2⟩

theorem fromAnother_trapCxArea {ppn tid : Nat} {a : MapArea} (hwf : a.Wf)
    (h : fromAnother a = fromAnother (trapCxArea tid ppn)) : ∃ ppn', a = trapCxArea tid ppn' := by
  obtain ⟨start, end_, dataFrames, mapType, mapPerm⟩ := a
  simp only [fromAnother, trapCxArea, MapArea.mk.injEq] at h
  obtain ⟨rfl, rfl, -, rfl, rfl⟩ := h
  obtain ⟨ppn', hppn⟩ := dataFrames_singleton hwf rfl rfl
  dsimp only at hppn
  exact ⟨ppn', by rw [hppn, trapCxArea]⟩

/-- The child has a copy of the memory set, and its main thread the resources of the parent's. -/
structure Forked (low strampoline : Nat) (p : Process) (r : Ram) (t : UserThread) (child : Process) (r' : Ram) : Prop where
  inv : child.Inv low strampoline r'
  count : p.taskCount = 1
  framed : ∀ a ∈ p.memorySet.areas, a.mapType = .framed
  process : child = ⟨child.memorySet, p.ustackBase, ⟨1, []⟩, 1, [t]⟩
  tid : t.tid = 0
  copied : MemorySet.Copying low strampoline r p.memorySet.areas child.memorySet r'

theorem Forked.main (h : Forked low strampoline p r t child r') : 0 ∈ child.threads.map UserThread.tid := by
  rw [h.process, map_singleton, h.tid]
  exact mem_singleton_self 0

theorem framed_of_fork (h : p.Inv low strampoline r) (hfork : (fromExistedUser low strampoline p.memorySet r).isSome) :
    ∀ a ∈ p.memorySet.areas, a.mapType = .framed := by
  intro a ha
  cases htype : a.mapType with
  | framed => rfl
  | identical => exact absurd htype (h.wf.areas a ha).notIdentical
  | noalloc =>
    rw [fromExistedUser_noalloc ha htype (h.pages a ha htype)] at hfork
    cases hfork

/-- The resources of the main thread are copied with the other areas. -/
theorem Inv.copied (h : p.Inv low strampoline r) (hmain : 0 ∈ p.threads.map UserThread.tid)
    (hc : MemorySet.Copying low strampoline r p.memorySet.areas ms r') :
    ∃ frames ppn, ustackArea p.ustackBase 0 frames ∈ ms.areas ∧ trapCxArea 0 ppn ∈ ms.areas := by
  obtain ⟨main, hmem, hzero⟩ := mem_map.mp hmain
  have hcopied : ∀ a ∈ p.memorySet.areas, ∃ b ∈ ms.areas, fromAnother b = fromAnother a := by
    intro a ha
    have ha' : fromAnother a ∈ ms.areas.map fromAnother := hc.shape ▸ mem_map_of_mem ha
    exact mem_map.mp ha'
  obtain ⟨frames, hstack⟩ := h.ustacks main hmem
  obtain ⟨stack, hstack', hsame⟩ := hcopied _ hstack
  obtain ⟨trap, htrap', hsame'⟩ := hcopied _ (h.trapCxs main hmem)
  rw [hzero] at hsame hsame'
  have harea := fromAnother_ustackArea hsame
  obtain ⟨ppn, harea'⟩ := fromAnother_trapCxArea (hc.wf.areas trap htrap') hsame'
  exact ⟨stack.dataFrames, ppn, harea ▸ hstack', harea' ▸ htrap'⟩

/-- A process whose only thread is the main one. -/
theorem inv_single {count ppn : Nat} {allocator : RecycleAllocator} {frames : List (Nat × FrameTracker)}
    (hwf : ms.Wf low strampoline r) (haligned : base % PAGE_SIZE = 0) (hnodup : allocator.recycled.Nodup)
    (hrecycled : ∀ id ∈ allocator.recycled, id < allocator.current) (hinUse : 0 < allocator.current ∧ 0 ∉ allocator.recycled)
    (hcount : 0 < count) (hstack : ustackArea base 0 frames ∈ ms.areas) (htrap : trapCxArea 0 ppn ∈ ms.areas)
    (hframed : ∀ a ∈ ms.areas, a.mapType = .framed) :
    (⟨ms, base, allocator, count, [⟨0, ppn⟩]⟩ : Process).Inv low strampoline r := by
  refine ⟨hwf, haligned, hnodup, hrecycled, ?_, ?_, nodup_singleton _, ?_, ?_, pairwise_singleton _ _, ?_⟩
  · exact forall_mem_singleton.mpr hinUse
  · exact forall_mem_singleton.mpr hcount
  · exact forall_mem_singleton.mpr ⟨frames, hstack⟩
  · exact forall_mem_singleton.mpr htrap
  · intro a ha hnoalloc
    rw [hframed a ha] at hnoalloc
    cases hnoalloc

section

variable (h : p.Inv low strampoline r) (hmain : 0 ∈ p.threads.map UserThread.tid)
include h hmain

theorem forkTask_spec
    (hfork : p.forkTask low strampoline r = some ((t, child), r')) : Forked low strampoline p r t child r' := by
  obtain ⟨hcount, hfork⟩ := ite_none_right_eq_some.mp hfork
  obtain ⟨⟨ms, r₁⟩, hcopy, hrest⟩ := bind_eq_some_iff.mp hfork
  obtain ⟨ppn, htrap, heq⟩ := map_eq_some_iff.mp hrest
  cases heq
  have hframed := framed_of_fork h (isSome_of_eq_some hcopy)
  have hc := fromExistedUser_spec h.wf hframed hcopy
  obtain ⟨frames, ppn', hstack', htrap'⟩ := h.copied hmain hc
  rw [trapCxPpn_area hc.wf htrap'] at htrap
  cases htrap
  have hnone : ∀ id ∈ (⟨1, []⟩ : RecycleAllocator).recycled, id < 1 := fun id hid => absurd hid not_mem_nil
  have hinv := inv_single hc.wf h.aligned nodup_nil hnone ⟨Nat.zero_lt_one, not_mem_nil⟩ Nat.zero_lt_one hstack' htrap'
    (hc.framed hframed)
  exact ⟨hinv, hcount, hframed, rfl, rfl, hc⟩

theorem fork_spec {kernelSp : Nat}
    (hfork : p.fork low strampoline kernelSp r = some (child, r')) :
    ∃ t r₁, Forked low strampoline p r t child r₁ ∧ Ram.Wrote (· ∈ child.memorySet.data) r₁ r' := by
  obtain ⟨⟨⟨t, child'⟩, r₁⟩, hnew, hrest⟩ := bind_eq_some_iff.mp hfork
  obtain ⟨r₂, hstore, heq⟩ := map_eq_some_iff.mp hrest
  cases heq
  have hf := forkTask_spec h hmain hnew
  have hmem : t ∈ child.threads := by
    rw [hf.process]
    exact mem_singleton_self t
  exact ⟨t, r₁, hf, (store_wrote hstore).2.mono fun f heq => heq ▸ hf.inv.trapCx_data hmem⟩

end

/-- A frame for the root and two for the tables to the trampoline; a page takes as many. -/
theorem fork_isSome (kernelSp : Nat) (h : p.Inv low strampoline r) (hmain : 0 ∈ p.threads.map UserThread.tid)
    (hcount : p.taskCount = 1) (hframed : ∀ a ∈ p.memorySet.areas, a.mapType = .framed)
    (hfree : 3 + 3 * p.memorySet.mappings.length ≤ r.free.length) : (p.fork low strampoline kernelSp r).isSome := by
  obtain ⟨⟨ms, r₁⟩, hcopy⟩ := isSome_iff_exists.mp (fromExistedUser_isSome h.wf hframed hfree)
  have hc := fromExistedUser_spec h.wf hframed hcopy
  obtain ⟨frames, ppn, hstack, htrap⟩ := h.copied hmain hc
  have hfork : p.forkTask low strampoline r = some ((⟨0, ppn⟩, ⟨ms, p.ustackBase, ⟨1, []⟩, 1, [⟨0, ppn⟩]⟩), r₁) := by
    rw [forkTask, if_pos hcount, hcopy, bind_some]
    dsimp only
    rw [trapCxPpn_area hc.wf htrap, map_some]
  have hf := forkTask_spec h hmain hfork
  obtain ⟨r', hstore, -⟩ := hf.inv.store_trapCx (t := ⟨0, ppn⟩) (mem_singleton_self _)
  rw [fork, hfork, bind_some]
  dsimp only
  rw [startChild, hstore]
  rfl

/-- A process that may fork or exec has its main thread alone. -/
theorem Inv.single (h : p.Inv low strampoline r) (hcount : p.taskCount = 1) (ht : t ∈ p.threads) : t.tid = 0 ∧ p.threads = [t] := by
  have hall : ∀ u ∈ p.threads, u.tid = 0 := by
    intro u hu
    have hlt := h.counted u hu
    omega
  refine ⟨hall t ht, ?_⟩
  have hreplicate : p.threads.map UserThread.tid = replicate p.threads.length 0 := by
    rw [eq_replicate_iff]
    refine ⟨length_map _, ?_⟩
    intro tid htid
    obtain ⟨u, hu, rfl⟩ := mem_map.mp htid
    exact hall u hu
  have hlen := h.tids
  rw [hreplicate, nodup_replicate] at hlen
  obtain ⟨u, hu⟩ := length_eq_one_iff.mp (Nat.le_antisymm hlen (length_pos_of_mem ht))
  rw [hu, mem_singleton] at ht
  rw [hu, ht]

/-- The memory set of the file, with the resources of the main thread. -/
structure Execed (low strampoline : Nat) (elf : ElfFile) (p : Process) (r : Ram) (ppn : Nat) (p' : Process) (r' : Ram) : Prop where
  inv : p'.Inv low strampoline r'
  process : p' = ⟨p'.memorySet, p'.ustackBase, p.taskResAllocator, p.taskCount, [⟨0, ppn⟩]⟩
  replaced : Replaced low strampoline p.memorySet elf r p'.memorySet p'.ustackBase ppn r'

theorem Execed.main {elf : ElfFile} {ppn : Nat} (h : Execed low strampoline elf p r ppn p' r') :
    0 ∈ p'.threads.map UserThread.tid := by
  rw [h.process]
  exact mem_singleton_self 0

theorem exec_spec {kernel : KernelSide} {elf : ElfFile} {args : List (List (BitVec 8))} (h : p.Inv low strampoline r)
    (hmain : 0 ∈ p.threads.map UserThread.tid) (hexec : p.exec low strampoline kernel elf args r = some (p', r')) :
    ∃ ppn, Execed low strampoline elf p r ppn p' r' := by
  obtain ⟨hcount, hmap⟩ := ite_none_right_eq_some.mp hexec
  obtain ⟨⟨⟨ms, base, ppn⟩, r₁⟩, hkernel, heq⟩ := map_eq_some_iff.mp hmap
  simp only [Prod.mk.injEq] at heq
  obtain ⟨rfl, rfl⟩ := heq
  obtain ⟨main, hmem, hzero⟩ := mem_map.mp hmain
  have hthreads : (p.threads.map fun t => if t.tid = 0 then ⟨0, ppn⟩ else t) = [⟨0, ppn⟩] := by
    rw [(h.single hcount hmem).2, map_singleton, if_pos hzero]
  rw [hthreads]
  have hr := exec_replaced h.wf hkernel
  obtain ⟨ms₀, r₂, r₃, r₄, frames, -, -, -, ha, hw⟩ := hr.loaded
  have hinUse := h.inUse main hmem
  rw [hzero] at hinUse
  have hstack : ustackArea base 0 frames ∈ ms.areas := ha.areas ▸ mem_append_right _ mem_cons_self
  have htrap : trapCxArea 0 ppn ∈ ms.areas := ha.areas ▸ mem_append_right _ (mem_cons_of_mem _ mem_cons_self)
  have hinv := inv_single (ha.wf.wrote hw) hr.aligned h.nodup h.recycled hinUse (hcount ▸ Nat.zero_lt_one) hstack htrap hr.framed
  exact ⟨ppn, hinv, rfl, hr⟩

/-- A process before its main thread is made. -/
theorem inv_loaded (hwf : ms.Wf low strampoline r) (haligned : base % PAGE_SIZE = 0)
    (hframed : ∀ a ∈ ms.areas, a.mapType = .framed) : (⟨ms, base, ⟨0, []⟩, 0, []⟩ : Process).Inv low strampoline r := by
  refine ⟨hwf, haligned, nodup_nil, ?_, ?_, ?_, nodup_nil, ?_, ?_, .nil, ?_⟩
  · exact fun id hid => absurd hid not_mem_nil
  · exact fun t ht => absurd ht not_mem_nil
  · exact fun t ht => absurd ht not_mem_nil
  · exact fun t ht => absurd ht not_mem_nil
  · exact fun t ht => absurd ht not_mem_nil
  · intro a ha hnoalloc
    rw [hframed a ha] at hnoalloc
    cases hnoalloc

section new

variable {kernel : KernelSide} {elf : ElfFile}

theorem new_spec (hs : r.allocator.Sound) (howned : Ram.Owned low [] r)
    (hkernel : (trampoline strampoline).ppn < low) (hnew : new low strampoline kernel elf r = some (p, r')) :
    ∃ ms base entryPoint r₁ t r₂, fromElf low strampoline elf r = some ((ms, base, entryPoint), r₁) ∧
      MemorySet.OfFile low strampoline elf r ms base r₁ ∧
      Added low strampoline ⟨ms, base, ⟨0, []⟩, 0, []⟩ r₁ t p r₂ ∧ Ram.Wrote (· ∈ p.memorySet.data) r₂ r' ∧
      (∀ a ∈ p.memorySet.areas, a.mapType = .framed) ∧ Ram.Trade [] r p.memorySet.frames r' := by
  obtain ⟨⟨⟨ms, base, entryPoint⟩, r₁⟩, helf, hrest⟩ := bind_eq_some_iff.mp hnew
  obtain ⟨⟨⟨t, p₁⟩, r₂⟩, htask, hrest⟩ := bind_eq_some_iff.mp hrest
  obtain ⟨r₃, hstore, heq⟩ := map_eq_some_iff.mp hrest
  cases heq
  have hfile := fromElf_ofFile hs howned hkernel helf
  have ha := newTask_spec (inv_loaded hfile.wf hfile.aligned.1 hfile.framed) htask
  have hw : Ram.Wrote (· ∈ p.memorySet.data) r₂ r' := (store_wrote hstore).2.mono fun f hf => hf ▸ ha.inv.trapCx_data ha.mem
  obtain ⟨frames, hallocated⟩ := ha.allocated
  refine ⟨ms, base, entryPoint, r₁, t, r₂, helf, hfile, ha, hw, hallocated.framed hfile.framed, ?_⟩
  have hkept := (hw.mono fun f hf => mem_append_left p.memorySet.pageTable.frames hf).trade hallocated.trade.sound
  exact (hfile.trade.trans hallocated.trade).trans hkept

/-- A process has been made of what was loaded, with its main thread only. -/
structure Made (low strampoline : Nat) (ms : MemorySet) (base : Nat) (r₁ : Ram) (p : Process) (r' : Ram) : Prop where
  inv : p.Inv low strampoline r'
  process : ∃ ppn, p = ⟨p.memorySet, base, ⟨1, []⟩, 1, [⟨0, ppn⟩]⟩
  vpns : ∀ v, v ∈ p.memorySet.mappings.map Mapping.vpn ↔ v ∈ ms.mappings.map Mapping.vpn ∨
    (ustackVpn base 0 ≤ v ∧ v < ustackVpn base 0 + 2) ∨ v = trapCxVpn 0
  cost : r₁.free.length ≤ r'.free.length + 9

/-- A process can be made of what has been loaded, if there is room for the stack of its main thread. -/
theorem exists_new_of_room {entryPoint : Nat} {r₁ : Ram} (kernel : KernelSide) (hs : r.allocator.Sound)
    (howned : Ram.Owned low [] r) (hkernel : (trampoline strampoline).ppn < low)
    (helf : fromElf low strampoline elf r = some ((ms, base, entryPoint), r₁)) (hroom : Room base 0 ms r₁)
    (hfree : 9 ≤ r₁.free.length) :
    ∃ p r', new low strampoline kernel elf r = some (p, r') ∧ Made low strampoline ms base r₁ p r' := by
  have hfile := fromElf_ofFile hs howned hkernel helf
  have hloaded := inv_loaded hfile.wf hfile.aligned.1 hfile.framed
  obtain ⟨⟨⟨t, p⟩, r₂⟩, htask⟩ := isSome_iff_exists.mp (newTask_isSome hloaded hroom hfree)
  have ha := newTask_spec hloaded htask
  obtain ⟨frames, hallocated⟩ := ha.allocated
  have hcost := hallocated.cost
  have htid : t.tid = 0 := ha.tid
  rw [new, helf, bind_some]
  dsimp only
  rw [htask, bind_some]
  dsimp only
  obtain ⟨r', hstore, hw⟩ := ha.inv.store_trapCx ha.mem
  refine ⟨p, r', ?_, ha.inv.wrote hw, ⟨t.trapCxPpn, ?_⟩, ?_, ?_⟩
  · rw [hstore]
    rfl
  · obtain ⟨tid, ppn⟩ := t
    obtain rfl : tid = 0 := htid
    exact ha.process
  · intro v
    have hvpns := hallocated.mem_vpns (v := v)
    rw [htid] at hvpns
    exact hvpns
  · have hsame : r'.free = r₂.free := by rw [free, hw.allocator]
    rw [hsame]
    exact hcost

/-- A file as the linker makes it gives a process; the pages between the main stack and its trap context are free. -/
theorem exists_new (kernel : KernelSide) (hs : r.allocator.Sound) (howned : Ram.Owned low [] r)
    (haligned : pageOffset (PhysAddr.fromUsize strampoline) = 0) (hkernel : (trampoline strampoline).ppn < low)
    (hok : elf.Ok) (hfree : elf.cost + 9 ≤ r.free.length) :
    ∃ p r', new low strampoline kernel elf r = some (p, r') ∧ p.Inv low strampoline r' ∧
      (∃ ppn, p = ⟨p.memorySet, userStackBase (lastEnd 0 elf.loads), ⟨1, []⟩, 1, [⟨0, ppn⟩]⟩) ∧
      (∀ v, lastEnd 0 elf.loads + 3 ≤ v → v < trapCxVpn 0 → p.memorySet.pageTable.leaf r'.mem v = none) ∧
      r.free.length ≤ r'.free.length + (elf.cost + 9) := by
  obtain ⟨ms, r₁, helf, hl, hcost⟩ := fromElf_spec hs howned haligned hkernel hok.loadable (by omega)
  obtain ⟨hle, hmapped⟩ := loaded_le hok hl
  obtain ⟨p, r', hnew, hmade⟩ := exists_new_of_room kernel hs howned hkernel helf (room_of_mapped hle hmapped hl.wf) (by omega)
  have hcost' := hmade.cost
  refine ⟨p, r', hnew, hmade.inv, hmade.process, ?_, by omega⟩
  intro v hge hlt
  have htrap : trapCxVpn 0 = 2 ^ 27 - 2 := by decide
  have htop : (trampoline strampoline).vpn = 2 ^ 27 - 1 := trampolineVpn_eq
  have hstack := (mainStack_vpns hle).1
  refine (hmade.inv.wf.space.shows.leaf_eq_none (by omega)).mpr ?_
  rw [map_cons, mem_cons, hmade.vpns]
  rintro (hv | hv | hv | hv)
  · omega
  · have hle := hmapped v hv
    omega
  · omega
  · omega

end new

/-! ## Exits -/

/-- The resources of a thread have been dropped. -/
structure Dropped (low strampoline : Nat) (p : Process) (r : Ram) (t : UserThread) (p' : Process) (r' : Ram) : Prop where
  inv : p'.Inv low strampoline r'
  process : p' = ⟨p'.memorySet, p.ustackBase, ⟨p.taskResAllocator.current, t.tid :: p.taskResAllocator.recycled⟩, p.taskCount,
    p.threads.filter fun u => u.tid ≠ t.tid⟩
  removed : ∃ a ms r₁ b, a ∈ p.memorySet.areas ∧ a.start = ustackVpn p.ustackBase t.tid ∧
    MemorySet.Removed low strampoline p.memorySet r a ms r₁ ∧ b ∈ ms.areas ∧ b.start = trapCxVpn t.tid ∧
    MemorySet.Removed low strampoline ms r₁ b p'.memorySet r'

section

variable (h : Dropped low strampoline p r t p' r')
include h

theorem Dropped.trade : Ram.Trade p.memorySet.frames r p'.memorySet.frames r' := by
  obtain ⟨a, ms, r₁, b, -, -, h₁, -, -, h₂⟩ := h.removed
  exact h₁.trade.trans h₂.trade

theorem Dropped.main (hne : t.tid ≠ 0) (hmain : 0 ∈ p.threads.map UserThread.tid) :
    0 ∈ p'.threads.map UserThread.tid := by
  obtain ⟨main, hmem, hzero⟩ := mem_map.mp hmain
  refine mem_map.mpr ⟨main, ?_, hzero⟩
  rw [h.process]
  exact mem_filter.mpr ⟨hmem, decide_eq_true (hzero ▸ hne.symm)⟩

theorem Dropped.framed (hframed : ∀ a ∈ p.memorySet.areas, a.mapType = .framed) :
    ∀ a ∈ p'.memorySet.areas, a.mapType = .framed := by
  obtain ⟨a, ms, r₁, b, -, -, h₁, -, -, h₂⟩ := h.removed
  intro c hc
  exact hframed c (h₁.subset.subset (h₂.subset.subset hc))

end

section

variable (h : p.Inv low strampoline r)
include h

theorem dropRes_spec (ht : t ∈ p.threads) :
    ∃ p' r', p.dropRes t.tid r = some (p', r') ∧ Dropped low strampoline p r t p' r' := by
  obtain ⟨frames, hstack⟩ := h.ustacks t ht
  obtain ⟨a, ms₁, r₁, hmem₁, hstart₁, hremove₁, h₁⟩ := removeAreaWithStartVpn_of_mem h.wf hstack rfl
  have htrap : trapCxArea t.tid t.trapCxPpn ∈ ms₁.areas := by
    refine h₁.mem (h.trapCxs t ht) ?_
    intro heq
    rw [← heq] at hstart₁
    exact h.stack_ne_trapCx ht ht hstart₁.symm
  obtain ⟨b, ms₂, r₂, hmem₂, hstart₂, hremove₂, h₂⟩ := removeAreaWithStartVpn_of_mem h₁.wf htrap rfl
  obtain ⟨hcurrent, hnot⟩ := h.inUse t ht
  -- Another area is there afterwards, as it begins at another page.
  have hkept : ∀ c ∈ p.memorySet.areas, c.start ≠ ustackVpn p.ustackBase t.tid → c.start ≠ trapCxVpn t.tid → c ∈ ms₂.areas := by
    intro c hc hne₁ hne₂
    refine h₂.mem (h₁.mem hc ?_) ?_
    · exact fun heq => hne₁ (heq ▸ hstart₁)
    · exact fun heq => hne₂ (heq ▸ hstart₂)
  refine ⟨⟨ms₂, p.ustackBase, ⟨p.taskResAllocator.current, t.tid :: p.taskResAllocator.recycled⟩, p.taskCount,
    p.threads.filter fun u => u.tid ≠ t.tid⟩, r₂, ?_, ⟨h₂.wf, h.aligned, ?_, ?_, ?_, ?_, ?_, ?_, ?_, ?_, ?_⟩, rfl,
    ⟨a, ms₁, r₁, b, hmem₁, hstart₁, h₁, hmem₂, hstart₂, h₂⟩⟩
  · rw [dropRes, RecycleAllocator.dealloc, if_pos ⟨hcurrent, hnot⟩, bind_some, deallocUserRes, alignedVpn_ustack h.aligned,
      bind_some, show p.memorySet.removeAreaWithStartVpn r (ustackVpn p.ustackBase t.tid) = some (ms₁, r₁) from hremove₁,
      bind_some]
    dsimp only
    rw [alignedVpn_trapCx, bind_some,
      show ms₁.removeAreaWithStartVpn r₁ (trapCxVpn t.tid) = some (ms₂, r₂) from hremove₂, map_some]
  · exact nodup_cons.mpr ⟨hnot, h.nodup⟩
  · exact forall_mem_cons.mpr ⟨hcurrent, h.recycled⟩
  · intro u hu
    obtain ⟨hu, hne⟩ := mem_filter.mp hu
    exact ⟨(h.inUse u hu).1, not_mem_cons_of_ne_of_not_mem (of_decide_eq_true hne) (h.inUse u hu).2⟩
  · exact fun u hu => h.counted u (mem_filter.mp hu).1
  · exact h.tids.sublist (filter_sublist.map _)
  · intro u hu
    obtain ⟨hu, hne⟩ := mem_filter.mp hu
    obtain ⟨frames', hmem⟩ := h.ustacks u hu
    exact ⟨frames', hkept _ hmem (h.apart_of_ne hu ht (of_decide_eq_true hne)).1 (h.stack_ne_trapCx hu ht)⟩
  · intro u hu
    obtain ⟨hu, hne⟩ := mem_filter.mp hu
    exact hkept _ (h.trapCxs u hu) (h.stack_ne_trapCx ht hu).symm (h.apart_of_ne hu ht (of_decide_eq_true hne)).2
  · exact h.apart.filter _
  · exact fun c hc => h.pages c (h₁.subset.subset (h₂.subset.subset hc))

theorem dropAll_spec {tids : List Nat} (hnodup : tids.Nodup)
    (hlive : ∀ tid ∈ tids, tid ∈ p.threads.map UserThread.tid) :
    ∃ p' r', tids.foldlM (fun (x : Process × Ram) tid => x.1.dropRes tid x.2) (p, r) = some (p', r') ∧
      p'.Inv low strampoline r' ∧ Ram.Trade p.memorySet.frames r p'.memorySet.frames r' := by
  induction tids generalizing p r with
  | nil => exact ⟨p, r, rfl, h, .refl h.wf.space.sound⟩
  | cons tid tids ih =>
    obtain ⟨t, ht, rfl⟩ := mem_map.mp (hlive tid mem_cons_self)
    obtain ⟨p₁, r₁, hdrop, h₁⟩ := dropRes_spec h ht
    obtain ⟨hnot, hnodup'⟩ := nodup_cons.mp hnodup
    have hlive' : ∀ tid ∈ tids, tid ∈ p₁.threads.map UserThread.tid := by
      intro tid htid
      obtain ⟨u, hu, rfl⟩ := mem_map.mp (hlive tid (mem_cons_of_mem _ htid))
      rw [h₁.process]
      refine mem_map_of_mem (mem_filter.mpr ⟨hu, decide_eq_true ?_⟩)
      exact fun heq => hnot (heq ▸ htid)
    obtain ⟨p', r', hrest, h', htrade⟩ := ih h₁.inv hnodup' hlive'
    refine ⟨p', r', ?_, h', h₁.trade.trans htrade⟩
    rw [foldlM_cons, hdrop]
    exact hrest

/-- The process has its page table only, the entries of which are left as they are. -/
theorem exit_spec (hmain : 0 ∈ p.threads.map UserThread.tid) :
    ∃ p' r', p.exit r = some (p', r') ∧ p'.memorySet.areas = [] ∧ Ram.Trade p.memorySet.frames r p'.memorySet.frames r' ∧
      Trie.Built next 3 r'.mem p'.memorySet.pageTable.rootPpn (· ∈ p'.memorySet.pageTable.frames) := by
  have hnodup : p.exitOrder.Nodup := by
    refine nodup_cons.mpr ⟨?_, nodup_range.filter _⟩
    intro hmem
    have hzero := of_decide_eq_true (mem_filter.mp hmem).2
    exact hzero.1 rfl
  have hlive : ∀ tid ∈ p.exitOrder, tid ∈ p.threads.map UserThread.tid := by
    refine forall_mem_cons.mpr ⟨hmain, ?_⟩
    intro tid hmem
    exact (of_decide_eq_true (mem_filter.mp hmem).2).2
  obtain ⟨p₁, r₁, hdrop, h₁, htrade₁⟩ := dropAll_spec h hnodup hlive
  obtain ⟨r', hareas, htrade', hmem'⟩ := dropAreas_spec h₁.wf.space.sound h₁.wf.space.owned
  refine ⟨{ p₁ with memorySet := { p₁.memorySet with areas := [] } }, r', ?_, rfl, htrade₁.trans htrade', hmem' ▸ h₁.wf.space.built⟩
  rw [exit, hdrop, bind_some]
  dsimp only
  rw [recycleDataPages, hareas, map_some]
  rfl

end

end threads

end Process

end TCore.Kernel
