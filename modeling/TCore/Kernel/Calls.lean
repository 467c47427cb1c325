/-
  TCore.Kernel.Calls — the runs of a process: fork, exec, and the creation and exit of threads.

  A run follows one process, at a fork either of the two. Between two calls the process writes to its pages,
  and the other owners of frames trade theirs and write to them.

  - `Caller.Inv.step`: what one call keeps of the process's invariant.
  - `Caller.inv_new`: it holds when the process has been made.
-/

import TCore.Kernel.Process

namespace TCore.Kernel

open TCore.Mm TCore.Lib PageTable
open Process Option

/-- A process at a point of its run. -/
structure Caller where
  process : Process
  ram : Ram

inductive ProcCall where
  /-- The run goes on with the child or with the parent. -/
  | fork (kernelSp : Nat) (child : Bool)
  | threadCreate (kernel : KernelSide) (entry arg : Nat)
  | threadExit (tid : Nat)
  | exec (kernel : KernelSide) (elf : ElfFile) (args : List (List (BitVec 8)))
  /-- What happens to the memory between two calls. -/
  | between (ram : Ram)

namespace Caller

section calls

variable (low strampoline : Nat)

def step (s : Caller) : ProcCall → Option Caller
  | .fork kernelSp child =>
    (s.process.fork low strampoline kernelSp s.ram).map fun (c, r) => ⟨if child then c else s.process, r⟩
  | .threadCreate kernel entry arg => (s.process.threadCreate low kernel entry arg s.ram).map fun (p, r) => ⟨p, r⟩
  | .threadExit tid =>
    if tid ≠ 0 ∧ tid ∈ s.process.threads.map UserThread.tid then (s.process.dropRes tid s.ram).map fun (p, r) => ⟨p, r⟩ else none
  | .exec kernel elf args => (s.process.exec low strampoline kernel elf args s.ram).map fun (p, r) => ⟨p, r⟩
  | .between ram => some ⟨s.process, ram⟩

/-- The process has just been made from a file. -/
def New (elf : ElfFile) (s : Caller) : Prop :=
  ∃ kernel r, r.allocator.Sound ∧ Ram.Owned low [] r ∧ Process.new low strampoline kernel elf r = some (s.process, s.ram)

/-- The process writes to its own pages; the others write to and trade frames that are not the process's. -/
def Elsewhere (s : Caller) (ram : Ram) : Prop :=
  Ram.Wrote (· ∈ s.process.memorySet.data) s.ram ram ∨
    ∃ own own', Ram.Trade own s.ram own' ram ∧ (∀ f ∈ own, low ≤ f ∧ f < s.ram.allocator.end_) ∧
      ∀ f ∈ s.process.memorySet.frames, f ∉ own

def allowed (s : Caller) : ProcCall → Prop
  | .between ram => s.Elsewhere low ram
  | _ => True

structure Inv (s : Caller) : Prop where
  inv : s.process.Inv low strampoline s.ram
  main : 0 ∈ s.process.threads.map UserThread.tid

end calls

variable {low strampoline : Nat} {elf : ElfFile} {s s' : Caller} {e : ProcCall} {ram : Ram}

theorem Inv.elsewhere (h : s.Inv low strampoline) (hok : s.Elsewhere low ram) : (⟨s.process, ram⟩ : Caller).Inv low strampoline := by
  rcases hok with hw | ⟨own, own', htrade, hlow, hdisj⟩
  · exact ⟨h.inv.wrote hw, h.main⟩
  · exact ⟨h.inv.other htrade hlow hdisj, h.main⟩

theorem Inv.step (h : s.Inv low strampoline) (hok : s.allowed low e) (hstep : s.step low strampoline e = some s') :
    s'.Inv low strampoline := by
  cases e with
  | fork kernelSp child =>
    obtain ⟨⟨c, r⟩, hfork, rfl⟩ := map_eq_some_iff.mp hstep
    obtain ⟨t, r₁, hf, hw⟩ := Process.fork_spec h.inv h.main hfork
    cases child with
    | true =>
      exact ⟨hf.inv.wrote hw, hf.main⟩
    | false =>
      have htrade := hf.copied.trade.trans ((hw.mono fun f hf => List.mem_append_left _ hf).trade hf.copied.trade.sound)
      exact ⟨h.inv.other htrade (fun f hf => absurd hf List.not_mem_nil) fun f _ => List.not_mem_nil, h.main⟩
  | threadCreate kernel entry arg =>
    obtain ⟨⟨p, r⟩, hcreate, rfl⟩ := map_eq_some_iff.mp hstep
    obtain ⟨t, r₁, ha, hw⟩ := Process.threadCreate_spec h.inv hcreate
    exact ⟨ha.inv.wrote hw, ha.main h.main⟩
  | threadExit tid =>
    obtain ⟨⟨hne, hlive⟩, hstep⟩ := ite_none_right_eq_some.mp hstep
    obtain ⟨t, ht, rfl⟩ := List.mem_map.mp hlive
    obtain ⟨p', r', hdrop, hd⟩ := Process.dropRes_spec h.inv ht
    rw [hdrop] at hstep
    cases hstep
    exact ⟨hd.inv, hd.main hne h.main⟩
  | exec kernel elf args =>
    obtain ⟨⟨p, r⟩, hexec, rfl⟩ := map_eq_some_iff.mp hstep
    obtain ⟨ppn, hx⟩ := Process.exec_spec h.inv h.main hexec
    exact ⟨hx.inv, hx.main⟩
  | between ram =>
    cases hstep
    exact h.elsewhere hok

theorem inv_new (hkernel : (MemorySet.trampoline strampoline).ppn < low) (h : s.New low strampoline elf) : s.Inv low strampoline := by
  obtain ⟨kernel, r, hsound, howned, hnew⟩ := h
  obtain ⟨ms, base, entryPoint, r₁, t, r₂, -, -, ha, hw, -, -⟩ := new_spec hsound howned hkernel hnew
  exact ⟨ha.inv.wrote hw, ha.main_first⟩

/-! ## When the calls return -/

theorem fork_isSome_iff (h : s.Inv low strampoline) (kernelSp : Nat) (hcount : s.process.taskCount = 1)
    (hfree : 3 + 3 * s.process.memorySet.mappings.length ≤ s.ram.free.length) :
    (s.process.fork low strampoline kernelSp s.ram).isSome ↔ ∀ a ∈ s.process.memorySet.areas, a.mapType = .framed := by
  constructor
  · intro hsome
    obtain ⟨⟨child, r⟩, hfork⟩ := isSome_iff_exists.mp hsome
    obtain ⟨t, r₁, hf, -⟩ := fork_spec h.inv h.main hfork
    exact hf.framed
  · exact fun hframed => fork_isSome kernelSp h.inv h.main hcount hframed hfree

theorem threadCreate_isSome_iff (h : s.Inv low strampoline) (kernel : KernelSide) (entry arg : Nat) (hfree : 9 ≤ s.ram.free.length) :
    (s.process.threadCreate low kernel entry arg s.ram).isSome ↔
      Room s.process.ustackBase s.process.taskResAllocator.alloc.1 s.process.memorySet s.ram := by
  constructor
  · intro hsome
    obtain ⟨⟨p, r⟩, hcreate⟩ := isSome_iff_exists.mp hsome
    obtain ⟨t, r₁, ha, -⟩ := threadCreate_spec h.inv hcreate
    obtain ⟨frames, hallocated⟩ := ha.allocated
    rw [ha.tid] at hallocated
    exact hallocated.room h.inv.wf
  · exact fun hroom => threadCreate_isSome kernel entry arg h.inv hroom hfree

end Caller

end TCore.Kernel
