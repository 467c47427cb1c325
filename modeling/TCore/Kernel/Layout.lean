/-
  TCore.Kernel.Layout — where the threads of a process have their stacks and trap contexts.

  From `ustack_base` on the stacks go up, three pages for a thread of which the last stays free; from below
  the trampoline the trap contexts go down. An exiting thread's areas are found by their first pages.
-/

import TCore.Kernel.Calls

namespace TCore.Kernel

open TCore.Mm TCore.Lib PageTable
open List Option VirtAddr Process MapArea MemorySet

/-- The page of `ustack_base`. -/
def baseVpn (ustackBase : Nat) : Nat := ustackVpn ustackBase 0

/-- The segments of a file lie below a page. -/
def LiesBelow (elf : ElfFile) (vpn : Nat) : Prop := ∀ ph ∈ elf.programHeaders, ∀ a, ph.Gives a → a.end_ ≤ vpn

/-- No header that is loaded ends above the last one. -/
def LastHighest (elf : ElfFile) : Prop :=
  ∀ last, elf.loads.getLast? = some last → ∀ b, last.Gives b → ∀ ph ∈ elf.programHeaders, ∀ a, ph.Gives a → a.end_ ≤ b.end_

/-- The stack of a thread ends below its trap context. -/
def Small (ustackBase tid : Nat) : Prop := baseVpn ustackBase + 3 * tid + 2 ≤ 2 ^ 27 - 2 - tid

section runs

variable (low strampoline : Nat)

def threadRuns : Machine Caller ProcCall where
  init s := ∃ elf, s.New low strampoline elf ∧ LiesBelow elf (baseVpn s.process.ustackBase) ∧ LastHighest elf
  step := Caller.step low strampoline

/-- The segments of the files lie below the stacks, the last one highest, and the tids are small enough. -/
def Caller.layoutOk (s : Caller) : ProcCall → Prop
  | .threadCreate _ _ _ => Small s.process.ustackBase s.process.taskResAllocator.alloc.1
  | .exec kernel elf args =>
    LastHighest elf ∧
      ∀ s', s.step low strampoline (.exec kernel elf args) = some s' → LiesBelow elf (baseVpn s'.process.ustackBase)
  | e => s.allowed low e

end runs

/-! ## The places -/

variable {frames : List (Nat × FrameTracker)}

section places

variable {ustackBase tid : Nat}

theorem Small.ustackVpn_eq (h : Small ustackBase tid) : ustackVpn ustackBase tid = baseVpn ustackBase + 3 * tid := by
  simp only [Small, baseVpn, ustackVpn, ustackBottomFromTid, floor, fromUsize, PAGE_SIZE, USER_STACK_SIZE] at h ⊢
  omega

theorem Small.trapCxVpn_eq (h : Small ustackBase tid) : trapCxVpn tid = 2 ^ 27 - 2 - tid := by
  simp only [Small] at h
  simp only [trapCxVpn, trapCxBottomFromTid, wrappingSub, TRAP_CONTEXT_BASE, TRAMPOLINE, floor, fromUsize, PAGE_SIZE]
  omega

/-- The first stack ends below the first trap context, if they could be mapped. -/
theorem small_zero {low strampoline ppn : Nat} {ms ms' : MemorySet} {r r' : Ram}
    (h : ms.Wf low strampoline r) (ha : Allocated low strampoline ustackBase 0 ms r frames ppn ms' r') : Small ustackBase 0 := by
  have hroom := ha.room h
  have hend := ha.stackEnd
  have htrap : trapCxVpn 0 = 2 ^ 27 - 2 ∧ trapCxEndVpn 0 = 2 ^ 27 - 1 := by decide
  have hmem : ustackArea ustackBase 0 frames ∈ ms'.areas := ha.areas ▸ mem_append_right _ mem_cons_self
  have hlt := ha.wf.vpn_lt hmem (ustackVpn ustackBase 0 + 1) (mem_ustackArea.mpr (by omega))
  have hapart := hroom.apart
  rw [Small, baseVpn]
  omega

end places

/-! ## The invariant -/

/-- An area of a thread. -/
def UserThread.Owns (ustackBase : Nat) (t : UserThread) (a : MapArea) : Prop :=
  (∃ frames, a = ustackArea ustackBase t.tid frames) ∨ a = trapCxArea t.tid t.trapCxPpn

structure LaidOut (low strampoline : Nat) (s : Caller) : Prop where
  inv : s.Inv low strampoline
  small : ∀ t ∈ s.process.threads, Small s.process.ustackBase t.tid
  pos : 0 < baseVpn s.process.ustackBase
  areas : ∀ a ∈ s.process.memorySet.areas, (a.start ≤ a.end_ ∧ a.end_ < baseVpn s.process.ustackBase) ∨
    ∃ t ∈ s.process.threads, t.Owns s.process.ustackBase a

section invariant

variable {low strampoline base : Nat} {elf : ElfFile} {ms : MemorySet} {r r' : Ram} {s s' : Caller} {a : MapArea} {t u : UserThread}

/-- The area of a segment that is as it should be. -/
theorem gives_end {ph : ProgramHeader} (hok : ∀ ph ∈ elf.loads, ph.Ok elf.input) (hph : ph ∈ elf.programHeaders) (h : ph.Gives a) :
    ph ∈ elf.loads ∧ a.end_ = ph.endVpn := by
  have hloads : ph ∈ elf.loads := mem_filter.mpr ⟨hph, h.1⟩
  have harea := h.2
  rw [(hok ph hloads).mapArea_eq] at harea
  cases harea
  exact ⟨hloads, rfl⟩

theorem gives_le {ph : ProgramHeader} (h : ph.Gives a) : a.start ≤ a.end_ := by
  obtain ⟨hle, heq⟩ := ite_none_right_eq_some.mp h.2
  cases heq
  exact hle

theorem baseVpn_userStackBase (e : Nat) : baseVpn (userStackBase e) = (e + 1) % 2 ^ 27 := by
  have hbase := fromUsize_userStackBase e
  simp only [baseVpn, ustackVpn, ustackBottomFromTid, floor, fromUsize, PAGE_SIZE] at hbase ⊢
  omega

/-- A page stays free between the areas of the file and the stacks. -/
theorem segments_below (hfile : MemorySet.OfFile low strampoline elf r ms base r') (hbelow : LiesBelow elf (baseVpn base))
    (hlast : LastHighest elf) : 0 < baseVpn base ∧ ∀ a ∈ ms.areas, a.start ≤ a.end_ ∧ a.end_ < baseVpn base := by
  obtain ⟨e, hbase, he⟩ := hfile.base
  have hvpn := baseVpn_userStackBase e
  rw [← hbase] at hvpn
  rcases he with ⟨hnone, he⟩ | ⟨last, b, hmem, hgives, he⟩
  · refine ⟨by omega, fun a ha => ?_⟩
    obtain ⟨ph, hph, b, hb, -⟩ := hfile.areas a ha
    exact absurd hb.1 (filter_eq_nil_iff.mp hnone ph hph)
  · -- The segment of the last header lies below the stacks, so that the sum has not wrapped.
    have hle := hbelow last (mem_filter.mp (mem_of_getLast? hmem)).1 b hgives
    refine ⟨by omega, fun a ha => ?_⟩
    obtain ⟨ph, hph, c, hc, hstart, hend⟩ := hfile.areas a ha
    have hle' := hlast last hmem b hgives ph hph c hc
    rw [hstart, hend]
    exact ⟨gives_le hc, by omega⟩

/-- After a file has been loaded, the main thread has the only stack. -/
theorem laidOut_loaded {ms₀ : MemorySet} {r₂ r₃ : Ram} (hinv : s.Inv low strampoline)
    (hfile : MemorySet.OfFile low strampoline elf r ms₀ base r') (hwf : ms₀.Wf low strampoline r₂)
    (ha : Allocated low strampoline base t.tid ms₀ r₂ frames t.trapCxPpn s.process.memorySet r₃) (htid : t.tid = 0)
    (hthreads : s.process.threads = [t]) (hbase : s.process.ustackBase = base)
    (hbelow : LiesBelow elf (baseVpn s.process.ustackBase)) (hlast : LastHighest elf) : LaidOut low strampoline s := by
  rw [hbase] at hbelow
  obtain ⟨hpos, hsegments⟩ := segments_below hfile hbelow hlast
  refine ⟨hinv, ?_, hbase ▸ hpos, ?_⟩
  · intro u hu
    rw [hthreads, mem_singleton] at hu
    rw [hu, htid, hbase]
    rw [htid] at ha
    exact small_zero hwf ha
  · intro a hmem
    rw [ha.areas, mem_append] at hmem
    rw [hbase, hthreads]
    rcases hmem with hmem | hmem
    · exact .inl (hsegments a hmem)
    · refine .inr ⟨t, mem_singleton_self t, ?_⟩
      rcases mem_pair.mp hmem with rfl | rfl
      · exact .inl ⟨frames, rfl⟩
      · exact .inr rfl

theorem laidOut_new (hkernel : (trampoline strampoline).ppn < low) (h : s.New low strampoline elf)
    (hbelow : LiesBelow elf (baseVpn s.process.ustackBase)) (hlast : LastHighest elf) : LaidOut low strampoline s := by
  have hinv := Caller.inv_new hkernel h
  obtain ⟨kernel, r, hsound, howned, hnew⟩ := h
  obtain ⟨ms, base, entryPoint, r₁, t, r₂, -, hfile, ha, -, -, -⟩ := new_spec hsound howned hkernel hnew
  obtain ⟨frames, hallocated⟩ := ha.allocated
  have hbase : s.process.ustackBase = base := by rw [ha.process]
  have hthreads : s.process.threads = [t] := by rw [ha.process]; rfl
  exact laidOut_loaded hinv hfile hfile.wf hallocated ha.tid hthreads hbase hbelow hlast

section

variable (h : LaidOut low strampoline s) (ht : t ∈ s.process.threads) (ha : a ∈ s.process.memorySet.areas)
include h ht ha

/-- The area that begins where a thread's stack does is this stack. -/
theorem LaidOut.stack_of_start
    (hstart : a.start = ustackVpn s.process.ustackBase t.tid) : ∃ frames, a = ustackArea s.process.ustackBase t.tid frames := by
  have hvpn := (h.small t ht).ustackVpn_eq
  rcases h.areas a ha with ⟨hle, hlt⟩ | ⟨u, hu, ⟨frames, rfl⟩ | rfl⟩
  · omega
  · have hvpn' := (h.small u hu).ustackVpn_eq
    have hstart : ustackVpn s.process.ustackBase u.tid = ustackVpn s.process.ustackBase t.tid := hstart
    have htid : u.tid = t.tid := by omega
    exact ⟨frames, by rw [htid]⟩
  · exact absurd hstart.symm (h.inv.inv.stack_ne_trapCx ht hu)

theorem LaidOut.trapCx_of_start
    (hstart : a.start = trapCxVpn t.tid) : a = trapCxArea t.tid t.trapCxPpn := by
  have hsmall := h.small t ht
  have hvpn := hsmall.trapCxVpn_eq
  rw [Small] at hsmall
  rcases h.areas a ha with ⟨hle, hlt⟩ | ⟨u, hu, ⟨frames, rfl⟩ | rfl⟩
  · omega
  · exact absurd hstart (h.inv.inv.stack_ne_trapCx hu ht)
  · refine h.inv.inv.wf.area_inj ha (h.inv.inv.trapCxs t ht) (mem_trapCxArea.mpr rfl) (mem_trapCxArea.mpr hstart)

end

theorem LaidOut.threadCreate {kernel : KernelSide} {entry arg : Nat} (h : LaidOut low strampoline s)
    (hsmall : Small s.process.ustackBase s.process.taskResAllocator.alloc.1)
    (hstep : s.step low strampoline (.threadCreate kernel entry arg) = some s') : LaidOut low strampoline s' := by
  have hok : s.allowed low (.threadCreate kernel entry arg) := trivial
  have hinv := h.inv.step hok hstep
  obtain ⟨⟨p, r⟩, hcreate, rfl⟩ := map_eq_some_iff.mp hstep
  obtain ⟨t, r₁, ha, -⟩ := threadCreate_spec h.inv.inv hcreate
  obtain ⟨frames, hallocated⟩ := ha.allocated
  have hbase : p.ustackBase = s.process.ustackBase := by rw [ha.process]
  have hthreads : p.threads = s.process.threads ++ [t] := by rw [ha.process]
  refine ⟨hinv, ?_, ?_, ?_⟩
  · intro u hu
    dsimp only at hu ⊢
    rw [hthreads, mem_append, mem_singleton] at hu
    rw [hbase]
    rcases hu with hu | rfl
    · exact h.small u hu
    · rw [ha.tid]
      exact hsmall
  · dsimp only
    rw [hbase]
    exact h.pos
  · intro a hmem
    dsimp only at hmem ⊢
    rw [hallocated.areas, mem_append] at hmem
    rw [hbase, hthreads]
    rcases hmem with hmem | hmem
    · rcases h.areas a hmem with hseg | ⟨u, hu, howns⟩
      · exact .inl hseg
      · exact .inr ⟨u, mem_append_left _ hu, howns⟩
    · refine .inr ⟨t, mem_append_right _ (mem_singleton_self t), ?_⟩
      rcases mem_pair.mp hmem with rfl | rfl
      · exact .inl ⟨frames, rfl⟩
      · exact .inr rfl

/-- The areas that a thread's exit takes out are its own. -/
structure OwnRemoved (low strampoline : Nat) (s : Caller) (t : UserThread) (p' : Process) (r' : Ram) : Prop where
  dropped : Process.Dropped low strampoline s.process s.ram t p' r'
  removed : ∃ frames ms r₁, ustackArea s.process.ustackBase t.tid frames ∈ s.process.memorySet.areas ∧
    MemorySet.Removed low strampoline s.process.memorySet s.ram (ustackArea s.process.ustackBase t.tid frames) ms r₁ ∧
    trapCxArea t.tid t.trapCxPpn ∈ ms.areas ∧ MemorySet.Removed low strampoline ms r₁ (trapCxArea t.tid t.trapCxPpn) p'.memorySet r'

variable (h : LaidOut low strampoline s)
include h

theorem LaidOut.dropRes (ht : t ∈ s.process.threads) :
    ∃ p' r', s.process.dropRes t.tid s.ram = some (p', r') ∧ OwnRemoved low strampoline s t p' r' := by
  obtain ⟨p', r', hdrop, hd⟩ := dropRes_spec h.inv.inv ht
  obtain ⟨a, ms, r₁, b, ha, hstart₁, h₁, hb, hstart₂, h₂⟩ := hd.removed
  obtain ⟨frames, rfl⟩ := h.stack_of_start ht ha hstart₁
  obtain rfl := h.trapCx_of_start ht (h₁.subset.subset hb) hstart₂
  exact ⟨p', r', hdrop, hd, frames, ms, r₁, ha, h₁, hb, h₂⟩

theorem LaidOut.threadExit {tid : Nat} (hstep : s.step low strampoline (.threadExit tid) = some s') :
    LaidOut low strampoline s' := by
  have hok : s.allowed low (.threadExit tid) := trivial
  have hinv := h.inv.step hok hstep
  obtain ⟨⟨-, hlive⟩, hstep⟩ := ite_none_right_eq_some.mp hstep
  obtain ⟨t, ht, rfl⟩ := mem_map.mp hlive
  obtain ⟨p', r', hdrop, hown⟩ := h.dropRes ht
  rw [hdrop] at hstep
  cases hstep
  obtain ⟨frames, ms, r₁, hmine, h₁, hmine', h₂⟩ := hown.removed
  have hbase : p'.ustackBase = s.process.ustackBase := by rw [hown.dropped.process]
  have hthreads : p'.threads = s.process.threads.filter fun u => u.tid ≠ t.tid := by rw [hown.dropped.process]
  have hfirst : ustackVpn s.process.ustackBase t.tid ∈ (ustackArea s.process.ustackBase t.tid frames).vpnRange :=
    mem_ustackArea.mpr ⟨Nat.le_refl _, by omega⟩
  have hstack := h₁.not_mem h.inv.inv.wf (ne_nil_of_mem hfirst)
  have htrap := h₂.not_mem h₁.wf (ne_nil_of_mem (mem_trapCxArea.mpr rfl))
  refine ⟨hinv, ?_, ?_, ?_⟩
  · intro u hu
    dsimp only at hu ⊢
    rw [hthreads] at hu
    rw [hbase]
    exact h.small u (mem_filter.mp hu).1
  · dsimp only
    rw [hbase]
    exact h.pos
  · intro a hmem
    dsimp only at hmem ⊢
    rw [hbase, hthreads]
    have hmem₁ := h₂.subset.subset hmem
    have hmem₀ := h₁.subset.subset hmem₁
    rcases h.areas a hmem₀ with hseg | ⟨u, hu, howns⟩
    · exact .inl hseg
    refine .inr ⟨u, mem_filter.mpr ⟨hu, decide_eq_true ?_⟩, howns⟩
    -- The thread's own areas are gone.
    intro htid
    rcases howns with ⟨frames', rfl⟩ | rfl
    · have hfirst' : ustackVpn s.process.ustackBase t.tid ∈ (ustackArea s.process.ustackBase u.tid frames').vpnRange :=
        mem_ustackArea.mpr (by rw [htid]; omega)
      exact hstack (h.inv.inv.wf.area_inj hmem₀ hmine hfirst' hfirst ▸ hmem₁)
    · have heq := h₁.wf.area_inj hmem₁ hmine' (mem_trapCxArea.mpr (by rw [htid])) (mem_trapCxArea.mpr rfl)
      exact htrap (heq ▸ hmem)

/-- The child has the areas of the parent, whose main thread is alone. -/
theorem LaidOut.forked {c : Process} (hf : Process.Forked low strampoline s.process s.ram t c r)
    (hinv : (⟨c, r'⟩ : Caller).Inv low strampoline) : LaidOut low strampoline ⟨c, r'⟩ := by
  obtain ⟨main, hmem, hzero⟩ := mem_map.mp h.inv.main
  have hbase : c.ustackBase = s.process.ustackBase := by rw [hf.process]
  have hthreads : c.threads = [t] := by rw [hf.process]
  have ht : t ∈ c.threads := hthreads ▸ mem_singleton_self t
  have hsingle := (h.inv.inv.single hf.count hmem).2
  refine ⟨hinv, ?_, ?_, ?_⟩
  · intro u hu
    dsimp only at hu ⊢
    rw [hthreads, mem_singleton] at hu
    rw [hu, hf.tid, hbase, ← hzero]
    exact h.small main hmem
  · dsimp only
    rw [hbase]
    exact h.pos
  · intro b hb
    dsimp only at hb ⊢
    have hb' : fromAnother b ∈ s.process.memorySet.areas.map fromAnother := hf.copied.shape ▸ mem_map_of_mem hb
    obtain ⟨a, ha, hsame⟩ := mem_map.mp hb'
    have hstart : (MapArea.fromAnother a).start = (MapArea.fromAnother b).start := congrArg MapArea.start hsame
    have hend : (fromAnother a).end_ = (fromAnother b).end_ := congrArg end_ hsame
    simp only [fromAnother] at hstart hend
    rw [hbase]
    rcases h.areas a ha with hseg | ⟨u, hu, howns⟩
    · left
      rw [← hstart, ← hend]
      exact hseg
    refine .inr ⟨t, ht, ?_⟩
    rw [hsingle, mem_singleton] at hu
    have htid : u.tid = t.tid := by rw [hu, hzero, hf.tid]
    rcases howns with ⟨frames, rfl⟩ | rfl
    · rw [htid] at hsame
      exact .inl ⟨_, fromAnother_ustackArea hsame.symm⟩
    · rw [htid] at hsame
      obtain ⟨ppn, hb₁⟩ := fromAnother_trapCxArea (hf.inv.wf.areas b hb) hsame.symm
      refine .inr (hf.inv.wf.area_inj hb (hf.inv.trapCxs t ht) ?_ (mem_trapCxArea.mpr rfl))
      rw [hb₁]
      exact mem_trapCxArea.mpr rfl

theorem LaidOut.fork {kernelSp : Nat} {child : Bool}
    (hstep : s.step low strampoline (.fork kernelSp child) = some s') : LaidOut low strampoline s' := by
  have hok : s.allowed low (.fork kernelSp child) := trivial
  have hinv := h.inv.step hok hstep
  obtain ⟨⟨c, r⟩, hfork, rfl⟩ := map_eq_some_iff.mp hstep
  cases child with
  | false => exact ⟨hinv, h.small, h.pos, h.areas⟩
  | true =>
    obtain ⟨t, r₁, hf, -⟩ := fork_spec h.inv.inv h.inv.main hfork
    exact h.forked hf hinv

theorem LaidOut.exec {kernel : KernelSide} {args : List (List (BitVec 8))}
    (hstep : s.step low strampoline (.exec kernel elf args) = some s') (hbelow : LiesBelow elf (baseVpn s'.process.ustackBase))
    (hlast : LastHighest elf) : LaidOut low strampoline s' := by
  have hok : s.allowed low (.exec kernel elf args) := trivial
  have hinv := h.inv.step hok hstep
  obtain ⟨⟨p, r⟩, hexec, rfl⟩ := map_eq_some_iff.mp hstep
  obtain ⟨ppn, hx⟩ := Process.exec_spec h.inv.inv h.inv.main hexec
  obtain ⟨ms₀, r₁, r₂, r₃, frames, hfile, hwf, -, ha, -⟩ := hx.replaced.loaded
  have hthreads : p.threads = [⟨0, ppn⟩] := by rw [hx.process]
  exact laidOut_loaded (t := ⟨0, ppn⟩) hinv hfile hwf ha rfl hthreads rfl hbelow hlast

theorem LaidOut.step {e : ProcCall} (hok : s.layoutOk low strampoline e)
    (hstep : s.step low strampoline e = some s') : LaidOut low strampoline s' := by
  cases e with
  | fork kernelSp child => exact h.fork hstep
  | threadCreate kernel entry arg => exact h.threadCreate hok hstep
  | threadExit tid => exact h.threadExit hstep
  | exec kernel elf args => exact h.exec hstep (hok.2 s' hstep) hok.1
  | between ram =>
    cases hstep
    exact ⟨h.inv.elsewhere hok, h.small, h.pos, h.areas⟩

end invariant

/-! ## The threads -/

/-- The thread has its stack in two frames, with nothing mapped below it, and its trap context. -/
structure UserThread.Placed (s : Caller) (t : UserThread) (f₁ f₂ : Nat) : Prop where
  stack : s.process.memorySet.areas.filter (fun a => a.start = ustackVpn s.process.ustackBase t.tid) =
    [ustackArea s.process.ustackBase t.tid
      [(ustackVpn s.process.ustackBase t.tid, ⟨f₁, false⟩), (ustackVpn s.process.ustackBase t.tid + 1, ⟨f₂, false⟩)]]
  lowPage : s.process.memorySet.pageTable.leaf s.ram.mem (ustackVpn s.process.ustackBase t.tid) =
    some (.new f₁ (.R ||| .W ||| .U ||| .V))
  highPage : s.process.memorySet.pageTable.leaf s.ram.mem (ustackVpn s.process.ustackBase t.tid + 1) =
    some (.new f₂ (.R ||| .W ||| .U ||| .V))
  guard : 0 < ustackVpn s.process.ustackBase t.tid ∧
    s.process.memorySet.pageTable.leaf s.ram.mem (ustackVpn s.process.ustackBase t.tid - 1) = none
  trapCx : s.process.memorySet.areas.filter (fun a => a.start = trapCxVpn t.tid) = [trapCxArea t.tid t.trapCxPpn]
  trapCxPage : s.process.memorySet.pageTable.leaf s.ram.mem (trapCxVpn t.tid) = some (.new t.trapCxPpn (.R ||| .W ||| .V))
  walk : TCore.Kernel.trapCxPpn t.tid s.process.memorySet s.ram = some t.trapCxPpn

/-- The pages of the thread are not mapped any more, the others as before; its frames are free. -/
structure UserThread.Gone (s : Caller) (t : UserThread) (f₁ f₂ : Nat) (p' : Process) (r' : Ram) : Prop where
  leaf : ∀ v < 2 ^ 27, p'.memorySet.pageTable.leaf r'.mem v =
    if v = ustackVpn s.process.ustackBase t.tid ∨ v = ustackVpn s.process.ustackBase t.tid + 1 ∨ v = trapCxVpn t.tid then none
    else s.process.memorySet.pageTable.leaf s.ram.mem v
  free : r'.free.Perm (f₁ :: f₂ :: t.trapCxPpn :: s.ram.free)

section threads

variable {low strampoline : Nat} {s : Caller} {a : MapArea} {t : UserThread}

/-- The pages of an area of two pages. -/
theorem dataFrames_pair (h : a.Wf) (hframed : a.mapType = .framed) (htwo : a.end_ = a.start + 2) :
    ∃ f₁ f₂, a.dataFrames = [(a.start, ⟨f₁, false⟩), (a.start + 1, ⟨f₂, false⟩)] := by
  have hrange : a.vpnRange = [a.start, a.start + 1] := by
    rw [vpnRange, htwo, Nat.add_sub_cancel_left]
    rfl
  have hpages := h.pages
  rw [hrange] at hpages
  obtain ⟨x, xs, hx, hfst, hrest⟩ := map_eq_cons_iff.mp hpages
  obtain ⟨y, rfl, hsnd⟩ := map_eq_singleton_iff.mp hrest
  have hdrop₁ := h.tracked x (hx ▸ mem_cons_self)
  have hdrop₂ := h.tracked y (hx ▸ mem_cons_of_mem _ mem_cons_self)
  rw [hframed] at hdrop₁ hdrop₂
  obtain ⟨v, f₁, nodrop₁⟩ := x
  obtain ⟨w, f₂, nodrop₂⟩ := y
  dsimp only at hfst hsnd hdrop₁ hdrop₂
  subst hfst hsnd hdrop₁ hdrop₂
  exact ⟨f₁, f₂, hx⟩

section

variable (h : LaidOut low strampoline s) (ht : t ∈ s.process.threads)
include h ht

/-- The page below a stack is neither of a segment nor of a thread. -/
theorem LaidOut.guard :
    0 < ustackVpn s.process.ustackBase t.tid ∧
      s.process.memorySet.pageTable.leaf s.ram.mem (ustackVpn s.process.ustackBase t.tid - 1) = none := by
  have hsmall := h.small t ht
  have hvpn := hsmall.ustackVpn_eq
  have hpos := h.pos
  rw [Small] at hsmall
  refine ⟨by omega, (h.inv.inv.wf.space.shows.leaf_eq_none (by omega)).mpr ?_⟩
  intro hmem
  rcases mem_cons.mp hmem with hmem | hmem
  · have htop : trampolineVpn = 2 ^ 27 - 1 := by decide
    have hmem : ustackVpn s.process.ustackBase t.tid - 1 = trampolineVpn := hmem
    omega
  obtain ⟨a, ha, hv⟩ := h.inv.inv.wf.exists_area hmem
  rcases h.areas a ha with ⟨hle, hlt⟩ | ⟨u, hu, howns⟩
  · rw [mem_vpnRange] at hv
    omega
  have hsmall' := h.small u hu
  have hvpn' := hsmall'.ustackVpn_eq
  have htrap := hsmall'.trapCxVpn_eq
  rw [Small] at hsmall'
  rcases howns with ⟨frames, rfl⟩ | rfl
  · rw [mem_ustackArea] at hv
    omega
  · rw [mem_trapCxArea] at hv
    omega

theorem LaidOut.placed
    (hstack : ustackArea s.process.ustackBase t.tid frames ∈ s.process.memorySet.areas) :
    ∃ f₁ f₂, frames = [(ustackVpn s.process.ustackBase t.tid, ⟨f₁, false⟩), (ustackVpn s.process.ustackBase t.tid + 1, ⟨f₂, false⟩)] ∧
      t.Placed s f₁ f₂ := by
  have hwf := h.inv.inv.wf
  have htrap := h.inv.inv.trapCxs t ht
  obtain ⟨f₁, f₂, hframes⟩ := dataFrames_pair (hwf.areas _ hstack) rfl rfl
  have hframes : frames = [(ustackVpn s.process.ustackBase t.tid, ⟨f₁, false⟩), (ustackVpn s.process.ustackBase t.tid + 1, ⟨f₂, false⟩)] :=
    hframes
  refine ⟨f₁, f₂, hframes, ?_⟩
  rw [hframes] at hstack
  have hlow : ⟨ustackVpn s.process.ustackBase t.tid, f₁, .R ||| .W ||| .U⟩ ∈ s.process.memorySet.mappings :=
    mem_flatMap.mpr ⟨_, hstack, mem_cons_self⟩
  have hhigh : ⟨ustackVpn s.process.ustackBase t.tid + 1, f₂, .R ||| .W ||| .U⟩ ∈ s.process.memorySet.mappings :=
    mem_flatMap.mpr ⟨_, hstack, mem_cons_of_mem _ mem_cons_self⟩
  have hcx : ⟨trapCxVpn t.tid, t.trapCxPpn, .R ||| .W⟩ ∈ s.process.memorySet.mappings :=
    mem_flatMap.mpr ⟨_, htrap, mem_cons_self⟩
  refine ⟨?_, ?_, ?_, h.guard ht, ?_, ?_, trapCxPpn_area hwf htrap⟩
  · refine hwf.filter_start hstack (ne_nil_of_mem (mem_ustackArea.mpr ⟨Nat.le_refl _, by omega⟩)) ?_
    intro b hb hstart
    obtain ⟨frames', rfl⟩ := h.stack_of_start ht hb hstart
    exact hwf.area_inj hb hstack (mem_ustackArea.mpr ⟨Nat.le_refl _, by omega⟩) (mem_ustackArea.mpr ⟨Nat.le_refl _, by omega⟩)
  · have hleaf := hwf.space.shows.leaf (mem_cons_of_mem _ hlow)
    exact hleaf
  · have hleaf := hwf.space.shows.leaf (mem_cons_of_mem _ hhigh)
    exact hleaf
  · refine hwf.filter_start htrap (ne_nil_of_mem (mem_trapCxArea.mpr rfl)) ?_
    exact fun b hb hstart => h.trapCx_of_start ht hb hstart
  · have hleaf := hwf.space.shows.leaf (mem_cons_of_mem _ hcx)
    exact hleaf

theorem LaidOut.gone :
    ∃ f₁ f₂ p' r', t.Placed s f₁ f₂ ∧ s.process.dropRes t.tid s.ram = some (p', r') ∧ t.Gone s f₁ f₂ p' r' := by
  obtain ⟨p', r', hdrop, hown⟩ := h.dropRes ht
  obtain ⟨frames, ms, r₁, hmem, h₁, hmem', h₂⟩ := hown.removed
  obtain ⟨f₁, f₂, rfl, hplaced⟩ := h.placed ht hmem
  have hwf := h.inv.inv.wf
  refine ⟨f₁, f₂, p', r', hplaced, hdrop, ?_, ?_⟩
  · intro v hv
    rw [h₂.leaf h₁.wf (h₁.wf.areas _ hmem') hv, h₁.leaf hwf (hwf.areas _ hmem) hv]
    simp only [mem_ustackArea, mem_trapCxArea]
    split_ifs <;> first | rfl | omega
  · exact h₂.free.trans ((h₁.free.cons _).trans (@List.perm_middle _ _ [f₁, f₂] _).symm)

end

/-- In every run of thread creations and exits, forks and execs, if the segments of the files lie below
`ustack_base` and none ends above the last: every thread has its stack with an unmapped page below it, and its
trap context in the frame its control block names; its exit unmaps just these and frees just their frames. -/
theorem threads_laid_out (hkernel : (trampoline strampoline).ppn < low)
    (hs : ((threadRuns low strampoline).only (Caller.layoutOk low strampoline)).Reach s) :
    (s.process.memorySet.areas.Pairwise fun a b => a.vpnRange.Disjoint b.vpnRange) ∧
      (∀ a ∈ s.process.memorySet.areas, a.end_ < baseVpn s.process.ustackBase ∨ ∃ t ∈ s.process.threads, t.Owns s.process.ustackBase a) ∧
      ∀ t ∈ s.process.threads, ∃ f₁ f₂ p' r',
        t.Placed s f₁ f₂ ∧ s.process.dropRes t.tid s.ram = some (p', r') ∧ t.Gone s f₁ f₂ p' r' := by
  have h : LaidOut low strampoline s := by
    refine hs.inv (LaidOut low strampoline) ?_ ?_
    · rintro s ⟨elf, hnew, hbelow, hlast⟩
      exact laidOut_new hkernel hnew hbelow hlast
    · intro s e s' hinv hstep
      rw [Machine.only_step] at hstep
      exact hinv.step hstep.1 hstep.2
  refine ⟨h.inv.inv.wf.areas_disjoint, ?_, fun t ht => h.gone ht⟩
  intro a ha
  rcases h.areas a ha with hseg | howned
  · exact .inl hseg.2
  · exact .inr howned

/-- The small program has started a second thread. -/
theorem threads_laid_out_small : ∃ s : Caller,
    ((threadRuns 0x80400 0x80200000).only (Caller.layoutOk 0x80400 0x80200000)).Reach s ∧ s.process.threads.map UserThread.tid = [0, 1] ∧
    ∀ t ∈ s.process.threads, ∃ f₁ f₂, t.Placed s f₁ f₂ := by
  have hsound : (StackFrameAllocator.init 0x80400 0x80500).Sound := StackFrameAllocator.sound_init (by decide) (by decide)
  have howned : Ram.Owned 0x80400 [] ⟨.init 0x80400 0x80500, 0⟩ := Ram.owned_init
  have hlen : (⟨.init 0x80400 0x80500, 0⟩ : Ram).free.length = 256 := length_range'
  have hcost : smallElf.cost = 12 := by decide
  have hkernel : (trampoline 0x80200000).ppn < 0x80400 := by decide
  obtain ⟨p, r, hnew, hinv, ⟨ppn, hprocess⟩, hunmapped, hfree⟩ :=
    Process.exists_new ⟨0, 0, 0, 0⟩ hsound howned (by decide) hkernel smallElf_ok (by omega)
  rw [show userStackBase (lastEnd 0 smallElf.loads) = 0x14000 by decide] at hprocess
  have hbase : p.ustackBase = 0x14000 := congrArg Process.ustackBase hprocess
  have halloc : p.taskResAllocator.alloc = (1, ⟨2, []⟩) := congrArg (fun p => p.taskResAllocator.alloc) hprocess
  have hend : ∀ ph ∈ smallElf.loads, ph.endVpn ≤ 0x13 := by decide
  have hinit : ((threadRuns 0x80400 0x80200000).only (Caller.layoutOk 0x80400 0x80200000)).Reach ⟨p, r⟩ := by
    refine .init ⟨smallElf, ⟨⟨0, 0, 0, 0⟩, _, hsound, howned, hnew⟩, ?_, ?_⟩
    · intro ph hph a ha
      obtain ⟨hmem, hend'⟩ := gives_end smallElf_ok.segments hph ha
      have hle := hend ph hmem
      have hvpn : baseVpn 0x14000 = 0x14 := by decide
      dsimp only
      rw [hbase, hvpn]
      omega
    · intro last hlast b hb ph hph a ha
      have hmax : ∀ last, smallElf.loads.getLast? = some last → last.endVpn = 0x13 := by decide
      obtain ⟨hmem, hend'⟩ := gives_end smallElf_ok.segments hph ha
      have hlast' := (gives_end smallElf_ok.segments (mem_filter.mp (mem_of_getLast? hlast)).1 hb).2
      rw [hend', hlast', hmax last hlast]
      exact hend ph hmem
  have hroom : Room p.ustackBase p.taskResAllocator.alloc.1 p.memorySet r := by
    rw [hbase, halloc]
    refine ⟨by decide, by decide, by decide, ?_⟩
    intro v hv
    dsimp only at hv
    have hplaces : ustackVpn 0x14000 1 = 0x17 ∧ ustackEndVpn 0x14000 1 = 0x19 ∧ trapCxVpn 1 = 2 ^ 27 - 3 ∧ trapCxEndVpn 1 = 2 ^ 27 - 2 ∧
      lastEnd 0 smallElf.loads = 0x13 ∧ trapCxVpn 0 = 2 ^ 27 - 2 := by decide
    exact hunmapped v (by omega) (by omega)
  obtain ⟨⟨p', r'⟩, hcreate⟩ := isSome_iff_exists.mp (threadCreate_isSome ⟨0, 0, 0, 0⟩ 0 0 hinv hroom (by omega))
  have hstep : (⟨p, r⟩ : Caller).step 0x80400 0x80200000 (.threadCreate ⟨0, 0, 0, 0⟩ 0 0) = some ⟨p', r'⟩ := by
    rw [Caller.step, hcreate]
    rfl
  have hsmall : Small p.ustackBase p.taskResAllocator.alloc.1 := by
    have hvpn : baseVpn 0x14000 = 0x14 := by decide
    rw [hbase, halloc, Small, hvpn]
    decide
  obtain ⟨t, r₂, ha, -⟩ := threadCreate_spec hinv hcreate
  have hs := hinit.onlyStep (.threadCreate ⟨0, 0, 0, 0⟩ 0 0) hsmall hstep
  refine ⟨⟨p', r'⟩, hs, ?_, ?_⟩
  · dsimp only
    rw [ha.process, hprocess, map_append, map_singleton, map_singleton, ha.tid, halloc]
    rfl
  · intro t ht
    obtain ⟨f₁, f₂, -, -, hplaced, -, -⟩ := (threads_laid_out hkernel hs).2.2 t ht
    exact ⟨f₁, f₂, hplaced⟩

end threads

/-- Two segments of a page each, the higher one first. -/
def swappedElf : ElfFile where
  input := [1, 2]
  programHeaders := [⟨true, 0x11000, 10, 0, 2, true, false, true⟩, ⟨true, 0x10000, 10, 0, 2, true, true, false⟩]
  entryPoint := 0x11000

theorem swappedElf_loadable : swappedElf.Loadable := by
  refine ⟨by decide, ?_, by decide⟩
  intro ph hph
  rcases mem_cons.mp hph with rfl | hph
  · exact ⟨by decide, by decide, by decide, by decide, by decide⟩
  · rw [mem_singleton.mp hph]
    exact ⟨by decide, by decide, by decide, by decide, by decide⟩

/-- The end of the last header is not that of the highest segment: the main stack has no free page below it. -/
theorem stack_without_guard : ∃ s : Caller, s.New 0x80400 0x80200000 swappedElf ∧
    LiesBelow swappedElf (baseVpn s.process.ustackBase) ∧
    ∃ t ∈ s.process.threads, s.process.memorySet.pageTable.leaf s.ram.mem (ustackVpn s.process.ustackBase t.tid - 1) ≠ none := by
  have hsound : (StackFrameAllocator.init 0x80400 0x80500).Sound := StackFrameAllocator.sound_init (by decide) (by decide)
  have howned : Ram.Owned 0x80400 [] ⟨.init 0x80400 0x80500, 0⟩ := Ram.owned_init
  have hlen : (⟨.init 0x80400 0x80500, 0⟩ : Ram).free.length = 256 := length_range'
  have hcost : swappedElf.cost = 9 := by decide
  have hlast : lastEnd 0 swappedElf.loads = 0x11 := by decide
  obtain ⟨ms, r₁, helf, hl, hfree⟩ :=
    fromElf_spec hsound howned (by decide) (by decide : (trampoline 0x80200000).ppn < 0x80400)
      swappedElf_loadable (by omega)
  rw [hlast] at helf
  have hmapped : ∀ v ∈ ms.mappings.map Mapping.vpn, v ≤ 0x11 := by
    intro v hv
    obtain ⟨ph, hph, -, hlt⟩ := hl.vpns.mp hv
    have hend : ∀ ph ∈ swappedElf.loads, ph.endVpn ≤ 0x12 := by decide
    exact Nat.le_of_lt_succ (hlt.trans_le (hend ph hph))
  obtain ⟨p, r, hnew, hmade⟩ :=
    Process.exists_new_of_room ⟨0, 0, 0, 0⟩ hsound howned (by decide) helf (room_of_mapped (by decide) hmapped hl.wf) (by omega)
  rw [show userStackBase 0x11 = 0x12000 by decide] at hmade
  obtain ⟨ppn, hprocess⟩ := hmade.process
  have hbase : p.ustackBase = 0x12000 := congrArg Process.ustackBase hprocess
  have hthreads : p.threads = [⟨0, ppn⟩] := congrArg Process.threads hprocess
  have hpage : 0x11 ∈ ms.mappings.map Mapping.vpn := hl.vpns.mpr ⟨_, mem_cons_self, by decide, by decide⟩
  refine ⟨⟨p, r⟩, ⟨⟨0, 0, 0, 0⟩, _, hsound, howned, hnew⟩, ?_, ⟨0, ppn⟩, ?_, ?_⟩
  · intro ph hph a hgives
    have hend : ∀ ph ∈ swappedElf.loads, ph.endVpn ≤ baseVpn 0x12000 := by decide
    obtain ⟨hmem, hend'⟩ := gives_end swappedElf_loadable.segments hph hgives
    dsimp only
    rw [hbase, hend']
    exact hend ph hmem
  · exact hthreads ▸ mem_singleton_self _
  · have hguard : ustackVpn 0x12000 0 - 1 = 0x11 := by decide
    dsimp only
    rw [hbase, hguard, ne_eq, hmade.inv.wf.space.shows.leaf_eq_none (by decide), not_not]
    exact mem_cons_of_mem _ ((hmade.vpns _).mpr (.inl hpage))

end TCore.Kernel
