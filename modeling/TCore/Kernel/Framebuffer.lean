/-
  TCore.Kernel.Framebuffer — `sys_framebuffer` (syscall/gui.rs) among the calls that map and copy areas.

  The frame buffer is mapped with an area over frames that are not the allocator's. `from_existed_user` hands
  every area to `map_one`, which panics for one of that kind, and nothing keeps a process from mapping the
  frame buffer a second time.

  `none` is a panic.
-/

import TCore.Kernel.Calls

namespace TCore.Kernel

open TCore.Mm TCore.Lib PageTable
open List Option VirtAddr MemorySet PhysAddr MapArea StackFrameAllocator Process Caller

def FB_VADDR : Nat := 0x10000000

/-- The frame buffer of the graphics device: a slice of physical memory. -/
structure FrameBuffer where
  ptr : Nat
  len : Nat
  pos : 0 < len
  physical : ptr + len < 2 ^ 56
  virtual : FB_VADDR + len < 2 ^ 39

namespace FrameBuffer

/-- `PPNRange::new` asserts that the range is one. -/
def ppnRange (fb : FrameBuffer) : Option (List Nat) :=
  let start := PhysAddr.floor (PhysAddr.fromUsize fb.ptr)
  let end_ := PhysAddr.ceil (PhysAddr.fromUsize ((fb.ptr + fb.len) % 2 ^ 64))
  if start ≤ end_ then some (List.range' start (end_ - start)) else none

def startVpn : Nat := VirtAddr.floor (VirtAddr.fromUsize FB_VADDR)

def endVpn (fb : FrameBuffer) : Nat := VirtAddr.ceil (VirtAddr.fromUsize ((FB_VADDR + fb.len) % 2 ^ 64))

/-- `sys_framebuffer`. -/
def map (fb : FrameBuffer) (ms : MemorySet) (r : Ram) : Option (MemorySet × Ram) :=
  (MapArea.new (VirtAddr.fromUsize FB_VADDR) (VirtAddr.fromUsize ((FB_VADDR + fb.len) % 2 ^ 64)) .noalloc (.R ||| .W ||| .U)).bind
    fun area => fb.ppnRange.bind fun ppns => ms.pushNoalloc r area ppns

end FrameBuffer

inductive MapCall where
  | framebuffer
  | call (c : ProcCall)

section calls

variable (low strampoline : Nat) (fb : FrameBuffer)

def Caller.mapStep (s : Caller) : MapCall → Option Caller
  | .framebuffer => (fb.map s.process.memorySet s.ram).map fun (ms, r) => ⟨{ s.process with memorySet := ms }, r⟩
  | .call c => s.step low strampoline c

/-- The runs of a process, from its creation on. -/
def mapCalls : Machine Caller MapCall where
  init s := ∃ elf, s.New low strampoline elf
  step := mapStep low strampoline fb

def Caller.mapAllowed (s : Caller) : MapCall → Prop
  | .framebuffer => True
  | .call c => s.allowed low c

end calls

/-! ## The pages of the frame buffer -/

section framebuffer

variable {low strampoline : Nat} {fb : FrameBuffer} {ms ms' : MemorySet} {r r' : Ram}

open FrameBuffer

theorem FrameBuffer.startVpn_lt (fb : FrameBuffer) : startVpn < fb.endVpn := by
  have hpos := fb.pos
  have hvirtual := fb.virtual
  simp only [FB_VADDR] at hvirtual
  simp only [startVpn, endVpn, VirtAddr.floor, VirtAddr.ceil, VirtAddr.fromUsize, FB_VADDR, PAGE_SIZE]
  omega

theorem FrameBuffer.endVpn_le (fb : FrameBuffer) : fb.endVpn ≤ 2 ^ 27 := ceil_le (Nat.mod_lt _ (by decide))

/-- There is a frame for every page. -/
theorem FrameBuffer.ppnRange_spec (fb : FrameBuffer) :
    ∃ ppns, fb.ppnRange = some ppns ∧ fb.endVpn - startVpn ≤ ppns.length ∧ ∀ p ∈ ppns, p < 2 ^ 44 := by
  have hphysical := fb.physical
  have hvirtual := fb.virtual
  simp only [FB_VADDR] at hvirtual
  have hle : PhysAddr.floor (PhysAddr.fromUsize fb.ptr) ≤ PhysAddr.ceil (PhysAddr.fromUsize ((fb.ptr + fb.len) % 2 ^ 64)) := by
    simp only [PhysAddr.floor, PhysAddr.ceil, PhysAddr.fromUsize, PAGE_SIZE]
    omega
  refine ⟨_, if_pos hle, ?_, ?_⟩
  · rw [length_range']
    simp only [startVpn, endVpn, VirtAddr.floor, VirtAddr.ceil, VirtAddr.fromUsize, FB_VADDR,
      PhysAddr.floor, PhysAddr.ceil, PhysAddr.fromUsize, PAGE_SIZE]
    omega
  · intro p hp
    rw [mem_range'_1] at hp
    simp only [PhysAddr.floor, PhysAddr.ceil, PhysAddr.fromUsize, PAGE_SIZE] at hp
    omega

def FrameBuffer.area (fb : FrameBuffer) : MapArea := ⟨FrameBuffer.startVpn, fb.endVpn, [], .noalloc, .R ||| .W ||| .U⟩

theorem FrameBuffer.map_eq (fb : FrameBuffer) :
    ∃ ppns, fb.area.vpnRange.length ≤ ppns.length ∧ (∀ p ∈ ppns, p < 2 ^ 44) ∧ ∀ ms r, fb.map ms r = ms.pushNoalloc r fb.area ppns := by
  obtain ⟨ppns, hppns, hlen, hbound⟩ := fb.ppnRange_spec
  refine ⟨ppns, ?_, hbound, ?_⟩
  · rw [vpnRange, length_range']
    exact hlen
  · intro ms r
    have hle : VirtAddr.floor (VirtAddr.fromUsize FB_VADDR) ≤ VirtAddr.ceil (VirtAddr.fromUsize ((FB_VADDR + fb.len) % 2 ^ 64)) :=
      fb.startVpn_lt.le
    rw [map, MapArea.new, if_pos hle, bind_some, hppns, bind_some]
    rfl

theorem FrameBuffer.map_spec {p : Process} (h : p.Inv low strampoline r) (hmap : fb.map p.memorySet r = some (ms', r')) :
    ({ p with memorySet := ms' } : Process).Inv low strampoline r' := by
  obtain ⟨ppns, hlen, hbound, heq⟩ := fb.map_eq
  rw [heq] at hmap
  obtain ⟨a, ha⟩ := pushNoalloc_spec h.wf rfl rfl hlen fb.endVpn_le hbound hmap
  have hold : ∀ b ∈ p.memorySet.areas, b ∈ ms'.areas := fun b hb => ha.areas ▸ mem_append_left _ hb
  refine { h with wf := ha.wf, ustacks := ?_, trapCxs := fun t ht => hold _ (h.trapCxs t ht), pages := ?_ }
  · intro t ht
    obtain ⟨frames, hmem⟩ := h.ustacks t ht
    exact ⟨frames, hold _ hmem⟩
  · intro b hb hnoalloc
    rw [ha.areas, mem_append, mem_singleton] at hb
    rcases hb with hb | rfl
    · exact h.pages b hb hnoalloc
    · have hlt := fb.startVpn_lt
      rw [ha.area]
      exact ne_nil_of_mem (mem_vpnRange.mpr ⟨Nat.le_refl _, hlt⟩)

theorem FrameBuffer.map_isSome_iff (h : ms.Wf low strampoline r) (hfree : 2 * (fb.endVpn - startVpn) ≤ r.free.length) :
    (fb.map ms r).isSome ↔ ∀ v, startVpn ≤ v → v < fb.endVpn → ms.pageTable.leaf r.mem v = none := by
  obtain ⟨ppns, hlen, hbound, heq⟩ := fb.map_eq
  rw [heq, pushNoalloc_isSome_iff h rfl rfl hlen fb.endVpn_le hbound hfree]
  refine ⟨fun hall v hge hlt => hall v (mem_vpnRange.mpr ⟨hge, hlt⟩), ?_⟩
  intro hall v hv
  obtain ⟨hge, hlt⟩ := mem_vpnRange.mp hv
  exact hall v hge hlt

end framebuffer

/-! ## Runs -/

section runs

variable {low strampoline : Nat} {fb : FrameBuffer} {s s' : Caller} {e : MapCall}

theorem Caller.Inv.mapStep (h : s.Inv low strampoline) (hok : s.mapAllowed low e)
    (hstep : s.mapStep low strampoline fb e = some s') : s'.Inv low strampoline := by
  cases e with
  | framebuffer =>
    obtain ⟨⟨ms, r⟩, hmap, rfl⟩ := map_eq_some_iff.mp hstep
    exact ⟨FrameBuffer.map_spec h.inv hmap, h.main⟩
  | call c => exact h.step hok hstep

theorem mapCalls_inv (hkernel : (trampoline strampoline).ppn < low)
    (h : ((mapCalls low strampoline fb).only (mapAllowed low)).Reach s) : s.Inv low strampoline := by
  refine h.inv (Caller.Inv low strampoline) ?_ ?_
  · intro s hinit
    obtain ⟨elf, hnew⟩ := hinit
    exact inv_new hkernel hnew
  · intro s e t hs hstep
    obtain ⟨hok, hstep⟩ := Machine.only_step.mp hstep
    exact hs.mapStep hok hstep

end runs

/-- At any point of a run, with frames enough: `sys_framebuffer` returns exactly when its pages are not mapped,
`sys_fork` exactly when the frame buffer is not, `sys_thread_create` exactly when the pages of the new thread
are not; `sys_exec` of a well-formed file returns. -/
theorem map_panics_iff {low strampoline : Nat} {fb : FrameBuffer} {s : Caller} (hkernel : (MemorySet.trampoline strampoline).ppn < low)
    (hs : ((mapCalls low strampoline fb).only (mapAllowed low)).Reach s) :
    (2 * (fb.endVpn - FrameBuffer.startVpn) ≤ s.ram.free.length →
      ((s.mapStep low strampoline fb .framebuffer).isSome ↔
        ∀ v, FrameBuffer.startVpn ≤ v → v < fb.endVpn → s.process.memorySet.pageTable.leaf s.ram.mem v = none)) ∧
    (∀ kernelSp child, s.process.taskCount = 1 → 3 + 3 * s.process.memorySet.mappings.length ≤ s.ram.free.length →
      ((s.mapStep low strampoline fb (.call (.fork kernelSp child))).isSome ↔ ∀ a ∈ s.process.memorySet.areas, a.mapType = .framed)) ∧
    (∀ kernel entry arg, 9 ≤ s.ram.free.length →
      ((s.mapStep low strampoline fb (.call (.threadCreate kernel entry arg))).isSome ↔
        Room s.process.ustackBase s.process.taskResAllocator.alloc.1 s.process.memorySet s.ram)) ∧
    (∀ kernel elf args, s.process.taskCount = 1 → elf.Ok → (args.length + 1) * 8 + argsSize args ≤ USER_STACK_SIZE →
      elf.cost + 9 ≤ s.ram.free.length → (s.mapStep low strampoline fb (.call (.exec kernel elf args))).isSome) ∧
    ∀ tid, tid ≠ 0 → tid ∈ s.process.threads.map UserThread.tid → (s.mapStep low strampoline fb (.call (.threadExit tid))).isSome := by
  have h := mapCalls_inv hkernel hs
  refine ⟨?_, ?_, ?_, ?_, ?_⟩
  · intro hfree
    rw [mapStep, isSome_map]
    exact FrameBuffer.map_isSome_iff h.inv.wf hfree
  · intro kernelSp child hcount hfree
    rw [mapStep, step, isSome_map]
    exact fork_isSome_iff h kernelSp hcount hfree
  · intro kernel entry arg hfree
    rw [mapStep, step, isSome_map]
    exact threadCreate_isSome_iff h kernel entry arg hfree
  · intro kernel elf args hcount hok hfit hfree
    have hfit' : 8 * (args.length + 1) + argsSize args ≤ 8192 := by
      simp only [USER_STACK_SIZE] at hfit
      omega
    rw [mapStep, step, isSome_map, Process.exec, if_pos hcount, isSome_map]
    exact exec_isSome kernel h.inv.wf hfit' hok hfree
  · intro tid hne hlive
    obtain ⟨t, ht, rfl⟩ := List.mem_map.mp hlive
    obtain ⟨p', r', hdrop, -⟩ := Process.dropRes_spec h.inv ht
    rw [mapStep, step, if_pos ⟨hne, hlive⟩, hdrop]
    rfl

/-! ## The calls that panic -/

/-- A screen of 1280 times 800 pixels, in the first frames behind the kernel. -/
def screen : FrameBuffer := ⟨0x80400000, 4096000, by decide, by decide, by decide⟩

/-- A small program has been started behind the frame buffer. -/
theorem exists_started : ∃ s : Caller, ((mapCalls 0x80400 0x80200000 screen).only (mapAllowed 0x80400)).Reach s ∧
    s.process.taskCount = 1 ∧ s.process.memorySet.mappings.length ≤ 21 ∧ 30000 ≤ s.ram.free.length ∧
    (∀ a ∈ s.process.memorySet.areas, a.mapType = .framed) ∧
    ∀ v, FrameBuffer.startVpn ≤ v → v < screen.endVpn → s.process.memorySet.pageTable.leaf s.ram.mem v = none := by
  have hsound : (init 0x807E8 0x88000).Sound := sound_init (by decide) (by decide)
  have howned : Ram.Owned 0x80400 [] ⟨.init 0x807E8 0x88000, 0⟩ := by
    have hfrom : Ram.Owned 0x807E8 [] ⟨.init 0x807E8 0x88000, 0⟩ := Ram.owned_init
    refine ⟨hfrom.nodup, fun f hf => ⟨le_trans (by decide) (hfrom.range f hf).1, (hfrom.range f hf).2⟩⟩
  have hlen : (⟨.init 0x807E8 0x88000, 0⟩ : Ram).free.length = 30744 := length_range'
  have haligned : pageOffset (PhysAddr.fromUsize 0x80200000) = 0 := by decide
  have hcost : smallElf.cost = 12 := by decide
  obtain ⟨p, r, hnew, hinv, ⟨ppn, hprocess⟩, hunmapped, hfree⟩ :=
    exists_new ⟨0, 0, 0, 0⟩ hsound howned haligned (by decide) MemorySet.smallElf_ok (by omega)
  obtain ⟨-, -, -, -, -, -, -, -, -, -, hframed, htrade⟩ := new_spec hsound howned (by decide) hnew
  refine ⟨⟨p, r⟩, .init ⟨smallElf, ⟨0, 0, 0, 0⟩, _, hsound, howned, hnew⟩, ?_, ?_, by dsimp only; omega, hframed, ?_⟩
  · exact congrArg taskCount hprocess
  · have hframes := htrade.perm.length_eq
    rw [length_append, nil_append, MemorySet.frames, length_append, hinv.wf.data_eq hframed, length_map, hlen]
      at hframes
    dsimp only
    omega
  · intro v hge hlt
    have hge : 0x10000 ≤ v := hge
    have hlt : v < 0x103E8 := hlt
    have hplaces : lastEnd 0 smallElf.loads = 0x13 ∧ trapCxVpn 0 = 2 ^ 27 - 2 := by decide
    exact hunmapped v (by omega) (by omega)

/-- After `sys_framebuffer` both `sys_fork` and another `sys_framebuffer` panic, with frames enough for them. -/
theorem framebuffer_panics : ∃ s s' : Caller, ((mapCalls 0x80400 0x80200000 screen).only (mapAllowed 0x80400)).Reach s ∧
    s.mapStep 0x80400 0x80200000 screen .framebuffer = some s' ∧ s'.process.taskCount = 1 ∧
    3 + 3 * s'.process.memorySet.mappings.length ≤ s'.ram.free.length ∧
    2 * (screen.endVpn - FrameBuffer.startVpn) ≤ s'.ram.free.length ∧
    (∀ kernelSp child, s'.mapStep 0x80400 0x80200000 screen (.call (.fork kernelSp child)) = none) ∧
    s'.mapStep 0x80400 0x80200000 screen .framebuffer = none := by
  obtain ⟨s, hs, hcount, hlen, hfree, -, hunmapped⟩ := exists_started
  have h := mapCalls_inv (by decide) hs
  have hpages : screen.endVpn - FrameBuffer.startVpn = 1000 := by decide
  have hsome : (screen.map s.process.memorySet s.ram).isSome := (FrameBuffer.map_isSome_iff h.inv.wf (by omega)).mpr hunmapped
  obtain ⟨⟨ms, r⟩, hmap⟩ := isSome_iff_exists.mp hsome
  obtain ⟨ppns, hppns, hbound, heq⟩ := screen.map_eq
  obtain ⟨a, ha⟩ := MemorySet.pushNoalloc_spec h.inv.wf rfl rfl hppns screen.endVpn_le hbound (heq _ _ ▸ hmap)
  have hstep : s.mapStep 0x80400 0x80200000 screen .framebuffer = some ⟨{ s.process with memorySet := ms }, r⟩ := by
    rw [mapStep, hmap]
    rfl
  have hok : s.mapAllowed 0x80400 .framebuffer := trivial
  have h' := h.mapStep hok hstep
  have hmem : a ∈ ms.areas := ha.areas ▸ mem_append_right _ (mem_singleton_self a)
  have hvpns : a.mappings.map Mapping.vpn = screen.area.vpnRange := by
    rw [(ha.wf.areas a hmem).vpns, ha.area]
    rfl
  have hrange : screen.area.vpnRange.length = 1000 := by
    rw [MapArea.vpnRange, length_range']
    exact hpages
  have hmappings : ms.mappings.length ≤ 1021 := by
    have hlen' := congrArg List.length hvpns
    rw [length_map, hrange] at hlen'
    rw [MemorySet.mappings, ha.areas, flatMap_append, flatMap_singleton, length_append, hlen']
    exact Nat.add_le_add_right hlen 1000
  have hcost := ha.cost
  rw [hrange] at hcost
  have hforkFree : 3 + 3 * ms.mappings.length ≤ r.free.length := by omega
  refine ⟨s, ⟨{ s.process with memorySet := ms }, r⟩, hs, hstep, hcount, hforkFree, by dsimp only; omega, ?_, ?_⟩
  · intro kernelSp child
    rw [mapStep, step, map_eq_none_iff, ← not_isSome_iff_eq_none,
      fork_isSome_iff h' kernelSp hcount hforkFree]
    intro hframed
    have htype := hframed a hmem
    rw [ha.area] at htype
    cases htype
  · have hleaf : FrameBuffer.startVpn ∈ a.mappings.map Mapping.vpn := by
      rw [hvpns]
      exact MapArea.mem_vpnRange.mpr ⟨Nat.le_refl _, screen.startVpn_lt⟩
    obtain ⟨m, hm, hvpn⟩ := List.mem_map.mp hleaf
    have hmapped := ha.wf.space.shows.leaf (mem_cons_of_mem _ (mem_flatMap.mpr ⟨a, hmem, hm⟩))
    rw [mapStep, map_eq_none_iff, ← not_isSome_iff_eq_none,
      FrameBuffer.map_isSome_iff h'.inv.wf (by dsimp only; omega)]
    intro hall
    rw [hvpn, hall _ (Nat.le_refl _) screen.startVpn_lt] at hmapped
    cases hmapped

/-- Before that, the program can fork and map the frame buffer. -/
theorem map_panics_started : ∃ s : Caller, ((mapCalls 0x80400 0x80200000 screen).only (mapAllowed 0x80400)).Reach s ∧
    (s.mapStep 0x80400 0x80200000 screen .framebuffer).isSome ∧ (s.mapStep 0x80400 0x80200000 screen (.call (.fork 0 true))).isSome := by
  obtain ⟨s, hs, hcount, hlen, hfree, hframed, hunmapped⟩ := exists_started
  have hpages : screen.endVpn - FrameBuffer.startVpn = 1000 := by decide
  obtain ⟨hmap, hfork, -⟩ := map_panics_iff (by decide) hs
  exact ⟨s, hs, (hmap (by omega)).mpr hunmapped, (hfork 0 true hcount (by omega)).mpr hframed⟩

end TCore.Kernel
