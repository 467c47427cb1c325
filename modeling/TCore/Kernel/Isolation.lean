/-
  TCore.Kernel.Isolation — the address spaces of all processes (task/process.rs, syscall/process.rs).

  The processes share the frames: every one takes them from the same allocator, has its page table in some of
  them and its pages in others, and the kernel has frames of its own. What a call does is a trade of the frames
  of one process with the free ones, so that it is nothing to the others.

  The exit code that `sys_waitpid` stores is an exception. `translated_refmut` translates the first of its four
  bytes; from the end of a page on, the store goes on in the next frame.
-/

import TCore.Kernel.Calls
import TCore.Mm.KernelSpace

namespace TCore.Kernel

open TCore.Mm TCore.Lib PageTable
open List Option Ram StackFrameAllocator MemorySet Process PageTableEntry

/-- A process in the system. -/
inductive Slot where
  | running (p : Process)
  | zombie (p : Process) (exitCode : BitVec 32)
  | reaped

namespace Slot

def frames : Slot → List Nat
  | .running p | .zombie p _ => p.memorySet.frames
  | .reaped => []

/-- A frame of a page table that is still there: one of its frames, or one that the walk can get to. -/
def Node (mem : Memory) (f : Nat) : Slot → Prop
  | .running p | .zombie p _ => f ∈ p.memorySet.pageTable.frames ∨
      ∃ path : List (Fin 512), path.length < 3 ∧ Trie.node next mem p.memorySet.pageTable.rootPpn path = some f
  | .reaped => False

end Slot

structure Spaces where
  slots : List Slot
  ram : Ram
  /-- The frames that the kernel has for itself, those of its page table among them. -/
  others : List Nat

inductive SpaceEvent where
  | create (kernel : KernelSide) (elf : ElfFile)
  | fork (i kernelSp : Nat)
  | exec (i : Nat) (kernel : KernelSide) (elf : ElfFile) (args : List (List (BitVec 8)))
  | threadCreate (i : Nat) (kernel : KernelSide) (entry arg : Nat)
  | threadExit (i tid : Nat)
  | exit (i : Nat) (exitCode : BitVec 32)
  /-- Process `i` gets the exit code of `j`. -/
  | waitpid (i j exitCodePtr : Nat)
  /-- A process writes to a page of its own. -/
  | write (i f : Nat) (g : Mm.Frame → Mm.Frame)
  /-- The kernel takes a frame, gives one back, or writes to one. -/
  | otherAlloc
  | otherDealloc (f : Nat)
  | otherWrite (f : Nat) (g : Mm.Frame → Mm.Frame)

def i32Bytes (w : BitVec 32) : List (BitVec 8) := (List.range 4).map fun i => (w >>> (8 * i)).setWidth 8

/-- `*translated_refmut(token, exit_code_ptr) = exit_code`. -/
def storeExitCode (low token : Nat) (r : Ram) (exitCodePtr : Nat) (exitCode : BitVec 32) : Option Ram :=
  (translatedPa r.mem (fromToken token) exitCodePtr).bind fun pa => r.storeBytes low pa (i32Bytes exitCode)

namespace Spaces

def process? (s : Spaces) (i : Nat) : Option Process :=
  match s.slots[i]? with
  | some (.running p) => some p
  | _ => none

def put (s : Spaces) (i : Nat) (x : Slot) (r : Ram) : Spaces := { s with slots := s.slots.set i x, ram := r }

/-- Who is whose parent is left out: any process may wait for any other. -/
def step (k : KernelImage) (s : Spaces) : SpaceEvent → Option Spaces
  | .create kernel elf =>
    (Process.new k.low k.strampoline kernel elf s.ram).map fun (p, r) => { s with slots := s.slots ++ [.running p], ram := r }
  | .fork i kernelSp =>
    (s.process? i).bind fun p =>
      (p.fork k.low k.strampoline kernelSp s.ram).map fun (child, r) => { s with slots := s.slots ++ [.running child], ram := r }
  | .exec i kernel elf args =>
    (s.process? i).bind fun p => (p.exec k.low k.strampoline kernel elf args s.ram).map fun (p, r) => s.put i (.running p) r
  | .threadCreate i kernel entry arg =>
    (s.process? i).bind fun p => (p.threadCreate k.low kernel entry arg s.ram).map fun (p, r) => s.put i (.running p) r
  | .threadExit i tid =>
    (s.process? i).bind fun p =>
      if tid ≠ 0 ∧ tid ∈ p.threads.map UserThread.tid then (p.dropRes tid s.ram).map fun (p, r) => s.put i (.running p) r else none
  | .exit i exitCode =>
    (s.process? i).bind fun p => (p.exit s.ram).map fun (p, r) => s.put i (.zombie p exitCode) r
  | .waitpid i j exitCodePtr =>
    (s.process? i).bind fun p =>
      match s.slots[j]? with
      | some (.zombie child exitCode) =>
        (storeExitCode k.low p.memorySet.token s.ram exitCodePtr exitCode).bind fun r =>
          (child.memorySet.drop r).map fun r => s.put j .reaped r
      | _ => none
  | .write i f g =>
    (s.process? i).bind fun p =>
      if f ∈ p.memorySet.data then some (s.put i (.running p) { s.ram with mem := Function.update s.ram.mem f (g (s.ram.mem f)) })
      else none
  | .otherAlloc => s.ram.frameAlloc.map fun (f, r) => { s with ram := r, others := f :: s.others }
  | .otherDealloc f =>
    if f ∈ s.others then (s.ram.frameDealloc f).map fun r => { s with ram := r, others := s.others.erase f } else none
  | .otherWrite f g =>
    if f ∈ s.others then some { s with ram := { s.ram with mem := Function.update s.ram.mem f (g (s.ram.mem f)) } } else none

end Spaces

/-- From the moment at which the allocator of frames has been initialised. -/
def spaces (k : KernelImage) : Machine Spaces SpaceEvent where
  init s := s.slots = [] ∧ s.ram.allocator = .init k.low (MEMORY_END / PAGE_SIZE) ∧ s.others = []
  step := Spaces.step k

/-- The exit code is stored within a page. -/
def SpaceEvent.InPage : SpaceEvent → Prop
  | .waitpid _ _ exitCodePtr => exitCodePtr % PAGE_SIZE + 4 ≤ PAGE_SIZE
  | _ => True

/-! ## The invariant -/

structure Running (k : KernelImage) (p : Process) (r : Ram) : Prop where
  inv : p.Inv k.low k.strampoline r
  main : 0 ∈ p.threads.map UserThread.tid
  framed : ∀ a ∈ p.memorySet.areas, a.mapType = .framed

/-- The tables of a process that has exited are there until its parent has waited for it. -/
def Slot.Ok (k : KernelImage) (r : Ram) : Slot → Prop
  | .running p => Running k p r
  | .zombie p _ => Trie.Built next 3 r.mem p.memorySet.pageTable.rootPpn (· ∈ p.memorySet.pageTable.frames)
  | .reaped => True

variable {k : KernelImage} {r : Ram}

/-- A trade of others. -/
theorem Slot.Ok.other {r' : Ram} {own own' : List Nat} {x : Slot} (h : x.Ok k r) (hown : Ram.Owned k.low own r)
    (ht : Ram.Trade own r own' r') (hdisj : ∀ f ∈ x.frames, f ∉ own) (hfree : ∀ f ∈ x.frames, f ∉ r.free) : x.Ok k r' := by
  cases x with
  | running p =>
    refine ⟨h.inv.other ht ?_ hdisj, h.main, h.framed⟩
    exact fun f hf => hown.range f (mem_append_left _ hf)
  | zombie p exitCode =>
    refine Trie.Built.congr h ?_
    intro f hf
    have hmem : f ∈ p.memorySet.frames := mem_append_right _ hf
    refine ht.elsewhere f ?_
    rw [mem_append, not_or]
    exact ⟨hdisj f hmem, hfree f hmem⟩
  | reaped => trivial

variable {exitCode : BitVec 32}

namespace Spaces

/-- All frames that someone has. -/
def frames (s : Spaces) : List Nat := s.slots.flatMap Slot.frames ++ s.others

structure Inv (k : KernelImage) (s : Spaces) : Prop where
  sound : s.ram.allocator.Sound
  owned : Ram.Owned k.low s.frames s.ram
  slots : ∀ x ∈ s.slots, x.Ok k s.ram

variable {k : KernelImage} {s s' : Spaces} {r r' : Ram} {own own' : List Nat} {x y : Slot} {i j : Nat} {p p' : Process}

theorem inv_init (h : (spaces k).init s) : s.Inv k := by
  obtain ⟨hslots, halloc, hothers⟩ := h
  rcases s with ⟨slots, ⟨allocator, mem⟩, others⟩
  cases hslots
  cases halloc
  cases hothers
  refine ⟨?_, owned_init, fun x hx => absurd hx not_mem_nil⟩
  refine sound_init ?_ (by decide)
  rw [k.low_eq]
  exact Nat.div_le_div_right k.sorted.2.2.2.2.2

/-- One owner trades its frames, and the others keep theirs. -/
theorem Inv.traded {slots : List Slot} {others : List Nat} (rest : List Nat) (h : s.Inv k) (hown : s.frames.Perm (own ++ rest))
    (hown' : (slots.flatMap Slot.frames ++ others).Perm (own' ++ rest)) (ht : Ram.Trade own s.ram own' r)
    (hslots : ∀ x ∈ slots, x.Ok k r ∨ (x ∈ s.slots ∧ ∀ f ∈ x.frames, f ∈ rest)) : Inv k ⟨slots, r, others⟩ := by
  have howned := h.owned.perm hown.symm
  have htrade := (ht.frame rest).congr perm_append_comm perm_append_comm
  refine ⟨ht.sound, (htrade.owned howned).perm hown', ?_⟩
  intro x hx
  rcases hslots x hx with hok | ⟨hold, hrest⟩
  · exact hok
  · refine (h.slots x hold).other howned.left ht ?_ ?_
    · intro f hf hmem
      exact (nodup_append'.mp (nodup_append'.mp howned.nodup).1).2.2 hmem (hrest f hf)
    · intro f hf
      exact howned.not_free (mem_append_right _ (hrest f hf))

theorem mem_frames {slots : List Slot} (hx : x ∈ slots) : ∀ f ∈ x.frames, f ∈ slots.flatMap Slot.frames :=
  fun _ hf => mem_flatMap.mpr ⟨_, hx, hf⟩

/-- The frames of one process, and those of all others. -/
theorem frames_perm (hi : s.slots[i]? = some x) :
    s.frames.Perm (x.frames ++ ((s.slots.eraseIdx i).flatMap Slot.frames ++ s.others)) := by
  obtain ⟨hlt, rfl⟩ := List.getElem?_eq_some_iff.mp hi
  rw [← append_assoc]
  exact ((getElem_cons_eraseIdx_perm hlt).symm.flatMap_right _).append_right _

/-- A process trades its frames. -/
theorem Inv.put (h : s.Inv k) (hi : s.slots[i]? = some x) (ht : Ram.Trade x.frames s.ram y.frames r) (hy : y.Ok k r) :
    (s.put i y r).Inv k := by
  have hperm := set_perm_cons_eraseIdx (List.getElem?_eq_some_iff.mp hi).1 y
  refine h.traded _ (frames_perm hi) ?_ ht ?_
  · rw [← append_assoc]
    exact (hperm.flatMap_right _).append_right _
  · intro z hz
    rcases mem_cons.mp (hperm.subset hz) with rfl | hold
    · exact .inl hy
    · exact .inr ⟨mem_of_mem_eraseIdx hold, fun f hf => mem_append_left _ (mem_frames hold f hf)⟩

/-- There is a new process. -/
theorem Inv.add (h : s.Inv k) (ht : Ram.Trade [] s.ram x.frames r) (hx : x.Ok k r) :
    Inv k { s with slots := s.slots ++ [x], ram := r } := by
  refine h.traded s.frames (.refl _) ?_ ht ?_
  · rw [flatMap_append, flatMap_singleton, append_assoc]
    exact perm_append_comm_assoc _ _ _
  · intro y hy
    rcases mem_append.mp hy with hold | hnew
    · exact .inr ⟨hold, fun f hf => mem_append_left _ (mem_frames hold f hf)⟩
    · exact .inl (mem_singleton.mp hnew ▸ hx)

/-- The kernel trades its own frames. -/
theorem Inv.other (h : s.Inv k) (ht : Ram.Trade s.others s.ram own r) : Inv k { s with ram := r, others := own } := by
  refine h.traded (s.slots.flatMap Slot.frames) perm_append_comm perm_append_comm ht ?_
  intro x hx
  exact .inr ⟨hx, mem_frames hx⟩

theorem put_self (hi : s.slots[i]? = some x) : s.put i x r = { s with ram := r } := by
  obtain ⟨hlt, rfl⟩ := List.getElem?_eq_some_iff.mp hi
  rw [put, set_getElem_self]

theorem process?_eq_some : s.process? i = some p ↔ s.slots[i]? = some (.running p) := by
  unfold process?
  split
  · next q hq => rw [hq, some.injEq, some.injEq, Slot.running.injEq]
  · next hq =>
    constructor
    · intro h
      cases h
    · exact fun h => absurd h (hq p)

theorem Inv.process (h : s.Inv k) (hi : s.process? i = some p) : Running k p s.ram :=
  h.slots _ (mem_of_getElem? (process?_eq_some.mp hi))

/-- The parent has waited for the process. -/
theorem Inv.reap (h : s.Inv k) (hj : s.slots[j]? = some (.zombie p exitCode))
    (hdrop : p.memorySet.drop s.ram = some r) : (s.put j .reaped r).Inv k := by
  have howned : Ram.Owned k.low (p.memorySet.frames ++ []) s.ram := by
    rw [append_nil]
    exact (h.owned.perm (frames_perm hj).symm).left
  obtain ⟨r₁, hdrop₁, htrade, -⟩ := drop_spec h.sound howned
  rw [hdrop] at hdrop₁
  cases hdrop₁
  rw [append_nil] at htrade
  exact h.put hj htrade trivial

end Spaces

/-! ## One process -/

namespace Running

variable {k : KernelImage} {r r' : Ram} {p p' : Process} {kernel : KernelSide} {elf : ElfFile}

theorem wrote (h : Running k p r) (hw : Ram.Wrote (· ∈ p.memorySet.data) r r') :
    Running k p r' ∧ Ram.Trade p.memorySet.frames r p.memorySet.frames r' :=
  ⟨⟨h.inv.wrote hw, h.main, h.framed⟩, (hw.mono fun _ hf => mem_append_left _ hf).trade h.inv.wf.space.sound⟩

theorem new (hs : r.allocator.Sound) (howned : Ram.Owned k.low [] r)
    (hnew : new k.low k.strampoline kernel elf r = some (p, r')) :
    Running k p r' ∧ Ram.Trade [] r p.memorySet.frames r' := by
  obtain ⟨ms, base, entryPoint, r₁, t, r₂, -, -, ha, hw, hframed, htrade⟩ := new_spec hs howned k.trampoline_low hnew
  exact ⟨⟨ha.inv.wrote hw, ha.main_first, hframed⟩, htrade⟩

section

variable (h : Running k p r)
include h

theorem fork {kernelSp : Nat} (hfork : p.fork k.low k.strampoline kernelSp r = some (p', r')) :
    Running k p' r' ∧ Ram.Trade [] r p'.memorySet.frames r' := by
  obtain ⟨t, r₁, hf, hw⟩ := fork_spec h.inv h.main hfork
  have hchild : Running k p' r₁ := ⟨hf.inv, hf.main, hf.copied.framed hf.framed⟩
  obtain ⟨hrunning, htrade⟩ := hchild.wrote hw
  exact ⟨hrunning, hf.copied.trade.trans htrade⟩

theorem exec {args : List (List (BitVec 8))}
    (hexec : p.exec k.low k.strampoline kernel elf args r = some (p', r')) :
    Running k p' r' ∧ Ram.Trade p.memorySet.frames r p'.memorySet.frames r' := by
  obtain ⟨ppn, hx⟩ := Process.exec_spec h.inv h.main hexec
  exact ⟨⟨hx.inv, hx.main, hx.replaced.framed⟩, hx.replaced.trade⟩

theorem threadCreate {entry arg : Nat} (hcreate : p.threadCreate k.low kernel entry arg r = some (p', r')) :
    Running k p' r' ∧ Ram.Trade p.memorySet.frames r p'.memorySet.frames r' := by
  obtain ⟨t, r₁, ha, hw⟩ := threadCreate_spec h.inv hcreate
  obtain ⟨frames, hallocated⟩ := ha.allocated
  have hadded : Running k p' r₁ := ⟨ha.inv, ha.main h.main, hallocated.framed h.framed⟩
  obtain ⟨hrunning, htrade⟩ := hadded.wrote hw
  exact ⟨hrunning, hallocated.trade.trans htrade⟩

theorem threadExit {tid : Nat} (hlive : tid ≠ 0 ∧ tid ∈ p.threads.map UserThread.tid)
    (hdrop : p.dropRes tid r = some (p', r')) : Running k p' r' ∧ Ram.Trade p.memorySet.frames r p'.memorySet.frames r' := by
  obtain ⟨hne, hlive⟩ := hlive
  obtain ⟨t, ht, rfl⟩ := mem_map.mp hlive
  obtain ⟨p₁, r₁, hdrop₁, hd⟩ := dropRes_spec h.inv ht
  rw [hdrop] at hdrop₁
  cases hdrop₁
  exact ⟨⟨hd.inv, hd.main hne h.main, hd.framed h.framed⟩, hd.trade⟩

theorem exit (hexit : p.exit r = some (p', r')) :
    (Slot.zombie p' exitCode).Ok k r' ∧ Ram.Trade p.memorySet.frames r p'.memorySet.frames r' := by
  obtain ⟨p₁, r₁, hexit₁, -, htrade, hbuilt⟩ := exit_spec h.inv h.main
  rw [hexit] at hexit₁
  cases hexit₁
  exact ⟨hbuilt, htrade⟩

/-- The exit code goes to a page of the process. -/
theorem storeExitCode {exitCodePtr : Nat} (hfit : exitCodePtr % PAGE_SIZE + 4 ≤ PAGE_SIZE)
    (hstore : Kernel.storeExitCode k.low p.memorySet.token r exitCodePtr exitCode = some r') :
    Ram.Wrote (· ∈ p.memorySet.data) r r' := by
  obtain ⟨pa, hpa, hstore⟩ := bind_eq_some_iff.mp hstore
  have hinto : p.memorySet.Into k.low pa (i32Bytes exitCode).length := h.inv.wf.translated_into h.framed hpa hfit
  exact hinto.wrote hstore

end

end Running

/-! ## Runs -/

namespace Spaces

variable {k : KernelImage} {s s' : Spaces} {e : SpaceEvent}

theorem Inv.step (h : s.Inv k) (hs : s.step k e = some s') (hok : e.InPage) : s'.Inv k := by
  cases e with
  | create kernel elf =>
    obtain ⟨⟨p, r⟩, hnew, rfl⟩ := map_eq_some_iff.mp hs
    obtain ⟨hrunning, htrade⟩ := Running.new h.sound h.owned.nil hnew
    exact h.add htrade hrunning
  | fork i kernelSp =>
    obtain ⟨p, hi, hs⟩ := bind_eq_some_iff.mp hs
    obtain ⟨⟨child, r⟩, hfork, rfl⟩ := map_eq_some_iff.mp hs
    obtain ⟨hrunning, htrade⟩ := (h.process hi).fork hfork
    exact h.add htrade hrunning
  | exec i kernel elf args =>
    obtain ⟨p, hi, hs⟩ := bind_eq_some_iff.mp hs
    obtain ⟨⟨p', r⟩, hexec, rfl⟩ := map_eq_some_iff.mp hs
    obtain ⟨hrunning, htrade⟩ := (h.process hi).exec hexec
    exact h.put (process?_eq_some.mp hi) htrade hrunning
  | threadCreate i kernel entry arg =>
    obtain ⟨p, hi, hs⟩ := bind_eq_some_iff.mp hs
    obtain ⟨⟨p', r⟩, hcreate, rfl⟩ := map_eq_some_iff.mp hs
    obtain ⟨hrunning, htrade⟩ := (h.process hi).threadCreate hcreate
    exact h.put (process?_eq_some.mp hi) htrade hrunning
  | threadExit i tid =>
    obtain ⟨p, hi, hs⟩ := bind_eq_some_iff.mp hs
    obtain ⟨hlive, hs⟩ := ite_none_right_eq_some.mp hs
    obtain ⟨⟨p', r⟩, hdrop, rfl⟩ := map_eq_some_iff.mp hs
    obtain ⟨hrunning, htrade⟩ := (h.process hi).threadExit hlive hdrop
    exact h.put (process?_eq_some.mp hi) htrade hrunning
  | exit i exitCode =>
    obtain ⟨p, hi, hs⟩ := bind_eq_some_iff.mp hs
    obtain ⟨⟨p', r⟩, hexit, rfl⟩ := map_eq_some_iff.mp hs
    obtain ⟨hzombie, htrade⟩ := (h.process hi).exit hexit
    exact h.put (process?_eq_some.mp hi) htrade hzombie
  | waitpid i j exitCodePtr =>
    obtain ⟨p, hi, hs⟩ := bind_eq_some_iff.mp hs
    split at hs
    · next child exitCode hj =>
      obtain ⟨r, hstore, hs⟩ := bind_eq_some_iff.mp hs
      obtain ⟨r', hdrop, rfl⟩ := map_eq_some_iff.mp hs
      obtain ⟨hrunning, htrade⟩ := (h.process hi).wrote ((h.process hi).storeExitCode hok hstore)
      have h₁ : (s.put i (.running p) r).Inv k := h.put (process?_eq_some.mp hi) htrade hrunning
      rw [put_self (process?_eq_some.mp hi)] at h₁
      exact h₁.reap hj hdrop
    · cases hs
  | write i f g =>
    obtain ⟨p, hi, hs⟩ := bind_eq_some_iff.mp hs
    obtain ⟨hf, hs⟩ := ite_none_right_eq_some.mp hs
    cases hs
    obtain ⟨hrunning, htrade⟩ := (h.process hi).wrote ((s.ram.update_wrote f g).mono fun f' hf' => hf' ▸ hf)
    exact h.put (process?_eq_some.mp hi) htrade hrunning
  | otherAlloc =>
    obtain ⟨⟨f, r⟩, halloc, rfl⟩ := map_eq_some_iff.mp hs
    exact h.other (frameAlloc_trade h.sound halloc)
  | otherDealloc f =>
    obtain ⟨hf, hs⟩ := ite_none_right_eq_some.mp hs
    obtain ⟨r, hdealloc, rfl⟩ := map_eq_some_iff.mp hs
    exact h.other (frameDealloc_trade h.sound h.owned.right hf hdealloc)
  | otherWrite f g =>
    obtain ⟨hf, hs⟩ := ite_none_right_eq_some.mp hs
    cases hs
    have hw := (s.ram.update_wrote f g).mono fun f' hf' => hf' ▸ hf
    exact h.other (hw.trade h.sound)

theorem inv_reachable (hs : ((spaces k).only fun _ e => e.InPage).Reach s) : s.Inv k := by
  refine hs.inv (fun s => s.Inv k) ?_ ?_
  · intro s hinit
    exact inv_init hinit
  · intro s e s' h hstep
    obtain ⟨hok, hstep⟩ := Machine.only_step.mp hstep
    exact h.step hstep hok

/-! ## Frames -/

/-- A valid leaf entry of process `i` leads to the frame. -/
def Maps (s : Spaces) (i f : Nat) : Prop :=
  ∃ p, s.process? i = some p ∧ ∃ v < 2 ^ 27, ∃ pte, p.memorySet.pageTable.leaf s.ram.mem v = some pte ∧ pte.ppn = f

variable {i j f : Nat} {x y : Slot}

theorem Inv.maps (h : s.Inv k) (hf : s.Maps i f) :
    f = (trampoline k.strampoline).ppn ∨ ∃ p, s.slots[i]? = some (.running p) ∧ f ∈ p.memorySet.data := by
  obtain ⟨p, hi, v, hv, pte, hleaf, rfl⟩ := hf
  have hp := h.process hi
  rcases hp.inv.wf.leaf_cases hp.framed hv hleaf with ⟨-, hkernel⟩ | ⟨-, m, -, -, hppn, hdata⟩
  · exact .inl hkernel
  · exact .inr ⟨p, process?_eq_some.mp hi, hppn ▸ hdata⟩

section

variable (h : s.Inv k) (hi : s.slots[i]? = some x)
include h hi

theorem Inv.apart (hj : s.slots[j]? = some y) (hne : i ≠ j) (hf : f ∈ x.frames) :
    f ∉ y.frames := by
  have hnodup := (h.owned.perm (frames_perm hi).symm).nodup
  have hrest : y ∈ s.slots.eraseIdx i := mem_eraseIdx_iff_getElem?.mpr ⟨j, hne.symm, hj⟩
  intro hf'
  exact (nodup_append'.mp (nodup_append'.mp hnodup).1).2.2 hf (mem_append_left _ (mem_frames hrest f hf'))

theorem Inv.frame (hf : f ∈ x.frames) : k.low ≤ f ∧ f ∉ s.ram.free := by
  have howned := h.owned.perm (frames_perm hi).symm
  have hmem : f ∈ x.frames ++ ((s.slots.eraseIdx i).flatMap Slot.frames ++ s.others) := mem_append_left _ hf
  exact ⟨(howned.range f (mem_append_left _ hmem)).1, howned.not_free hmem⟩

theorem Inv.not_others (hf : f ∈ x.frames) : f ∉ s.others := by
  have hnodup := (h.owned.perm (frames_perm hi).symm).nodup
  intro hother
  exact (nodup_append'.mp (nodup_append'.mp hnodup).1).2.2 hf (mem_append_right _ hother)

/-- A node of a page table is one of its frames, and no page. -/
theorem Inv.node (hf : x.Node s.ram.mem f) :
    f ∈ x.frames ∧ ∀ p, x = .running p → f ∉ p.memorySet.data := by
  have hok := h.slots x (mem_of_getElem? hi)
  cases x with
  | running p =>
    have hspace := hok.inv.wf.space
    have htable : f ∈ p.memorySet.pageTable.frames := by
      rcases hf with hf | ⟨path, hlen, hpath⟩
      · exact hf
      · exact hspace.built.used path f hlen hpath
    refine ⟨mem_append_right _ htable, ?_⟩
    intro q hq hdata
    cases hq
    exact (nodup_append'.mp (nodup_append'.mp hspace.owned.nodup).1).2.2 hdata htable
  | zombie p exitCode =>
    refine ⟨mem_append_right _ ?_, fun q hq => by cases hq⟩
    rcases hf with hf | ⟨path, hlen, hpath⟩
    · exact hf
    · exact Trie.Built.used hok path f hlen hpath
  | reaped => exact hf.elim

end

end Spaces

/-- In every run in which no exit code crosses the end of a page, two processes have no frame in common but the
trampoline's, none of their frames, no table and no frame of the kernel is free, and no frame of a process is a table
or one of the kernel's. -/
theorem address_spaces_isolated {k : KernelImage} {s : Spaces} (hs : ((spaces k).only fun _ e => e.InPage).Reach s) :
    (∀ i j f, i ≠ j → s.Maps i f → s.Maps j f → f = (MemorySet.trampoline k.strampoline).ppn) ∧
      (∀ i f, s.Maps i f → f ∉ s.ram.free ∧ f ∉ s.others ∧ ∀ x ∈ s.slots, ¬x.Node s.ram.mem f) ∧
      (∀ x ∈ s.slots, ∀ f, x.Node s.ram.mem f → f ∉ s.ram.free) ∧ ∀ f ∈ s.others, f ∉ s.ram.free := by
  have h := Spaces.inv_reachable hs
  refine ⟨?_, ?_, ?_, fun f hf => h.owned.not_free (mem_append_right _ hf)⟩
  · intro i j f hne hf hf'
    rcases h.maps hf with hkernel | ⟨p, hi, hdata⟩
    · exact hkernel
    rcases h.maps hf' with hkernel | ⟨q, hj, hdata'⟩
    · exact hkernel
    exact absurd (mem_append_left _ hdata') (h.apart hi hj hne (mem_append_left _ hdata))
  · intro i f hf
    rcases h.maps hf with rfl | ⟨p, hi, hdata⟩
    · -- The trampoline is below the frames of the allocator.
      have hlow := k.trampoline_low
      refine ⟨?_, ?_, ?_⟩
      · intro hfree
        exact absurd (h.owned.range _ (mem_append_right _ hfree)).1 (not_le.mpr hlow)
      · intro hother
        exact absurd (h.owned.range _ (mem_append_left _ (mem_append_right _ hother))).1 (not_le.mpr hlow)
      · intro x hx hnode
        obtain ⟨j, hj⟩ := mem_iff_getElem?.mp hx
        exact absurd (h.frame hj (h.node hj hnode).1).1 (not_le.mpr hlow)
    · have hmem : f ∈ (Slot.running p).frames := mem_append_left _ hdata
      refine ⟨(h.frame hi hmem).2, h.not_others hi hmem, ?_⟩
      intro x hx hnode
      obtain ⟨j, hj⟩ := mem_iff_getElem?.mp hx
      obtain ⟨hframe, hnot⟩ := h.node hj hnode
      by_cases hne : i = j
      · subst hne
        rw [hi] at hj
        exact hnot p (some.inj hj).symm hdata
      · exact h.apart hi hj hne hmem hframe
  · intro x hx f hnode
    obtain ⟨j, hj⟩ := mem_iff_getElem?.mp hx
    exact (h.frame hj (h.node hj hnode).1).2

/-! ## An exit code at the end of a page -/

/-- A kernel of two megabytes. -/
def smallKernel : KernelImage := ⟨0x80201000, 0x80202000, 0x80203000, 0x80204000, 0x80400000, by decide, by decide⟩

theorem smallKernel_low : smallKernel.low = 0x80400 := by decide

/-- A page of data, which begins with an entry of a page table. -/
def pageElf : ElfFile where
  input := [0x01, 0x00, 0x10, 0x20]
  programHeaders := [⟨true, 0x10000, 10, 0, 4, true, true, false⟩]
  entryPoint := 0x10000

theorem pageElf_ok : pageElf.Ok := by
  refine ⟨by decide, ?_, by decide⟩
  intro ph hph
  rw [mem_singleton.mp hph]
  exact ⟨by decide, by decide, by decide, by decide, by decide⟩

def smallRam : Ram := ⟨.init 0x80400 0x88000, 0⟩

/-- The memory of the first process, before its trap context is written. -/
def pageSpace : Option (MemorySet × Ram) :=
  (MemorySet.fromElf 0x80400 0x80201000 pageElf smallRam).bind fun x => allocUserRes 0x80400 x.1.2.1 0 x.1.1 x.2

set_option maxRecDepth 100000 in
/-- The page of data is in frame 0x80403, and the two tables it needs are in the next frames. -/
theorem pageSpace_frames :
    (pageSpace.map fun y => (y.1.mappings.map fun m => (m.vpn, m.ppn), y.1.pageTable.rootPpn, y.1.pageTable.frames)) = some (
      [(0x10, 0x80403), (0x12, 0x80406), (0x13, 0x80407), (2 ^ 27 - 2, 0x80408)], 0x80400,
      [0x80400, 0x80401, 0x80402, 0x80404, 0x80405]) := by
  decide +kernel

set_option maxRecDepth 100000 in
theorem pageSpace_words :
    (pageSpace.map fun y => (y.2.mem 0x80400 0, y.2.mem 0x80404 0, y.2.mem 0x80403 0, y.2.allocator.current,
      y.2.allocator.end_)) = some (0x20101001, 0x20101401, 0x20100001, 0x80409, 0x88000) := by
  decide +kernel

/-- What the run starts from, and what is kept until the parent waits. -/
structure PageTables (p : Process) (mem : Memory) : Prop where
  page : (0x10, 0x80403) ∈ p.memorySet.mappings.map fun m => (m.vpn, m.ppn)
  length : p.memorySet.mappings.length = 4
  root : p.memorySet.pageTable.rootPpn = 0x80400
  frames : p.memorySet.pageTable.frames = [0x80400, 0x80401, 0x80402, 0x80404, 0x80405]
  rootWord : mem 0x80400 0 = 0x20101001
  tableWord : mem 0x80404 0 = 0x20101401
  entryWord : mem 0x80403 0 = 0x20100001

/-- The first process is made. -/
theorem exists_pageProcess : ∃ p r,
    Spaces.step smallKernel ⟨[], smallRam, []⟩ (.create ⟨0, 0, 0, 0⟩ pageElf) = some ⟨[.running p], r, []⟩ ∧
      p.taskCount = 1 ∧ r.allocator.end_ = 0x88000 ∧ 15 ≤ r.free.length ∧ PageTables p r.mem := by
  have hsound : smallRam.allocator.Sound := sound_init (by decide) (by decide)
  have howned : Ram.Owned 0x80400 [] smallRam := owned_init
  have hlen : smallRam.free.length = 0x7c00 := length_range'
  have hcost : pageElf.cost = 6 := by decide
  have haligned : pageOffset (PhysAddr.fromUsize 0x80201000) = 0 := by decide
  have hkernel : (trampoline 0x80201000).ppn < 0x80400 := by decide
  obtain ⟨p, r, hnew, -⟩ := exists_new ⟨0, 0, 0, 0⟩ hsound howned haligned hkernel pageElf_ok (by omega)
  refine ⟨p, r, ?_, ?_⟩
  · have hstrampoline : smallKernel.strampoline = 0x80201000 := rfl
    simp only [Spaces.step, smallKernel_low, hstrampoline, hnew, map_some, nil_append]
  obtain ⟨⟨⟨ms, base, entryPoint⟩, r₁⟩, helf, hrest⟩ := bind_eq_some_iff.mp hnew
  obtain ⟨⟨⟨t, p₁⟩, r₂⟩, htask, hrest⟩ := bind_eq_some_iff.mp hrest
  obtain ⟨r₃, hstore, heq⟩ := map_eq_some_iff.mp hrest
  cases heq
  have hfile := fromElf_ofFile hsound howned hkernel helf
  have ha := newTask_spec (inv_loaded hfile.wf hfile.aligned.1 hfile.framed) htask
  obtain ⟨⟨ms', r₂'⟩, halloc, hrest⟩ := bind_eq_some_iff.mp htask
  obtain ⟨ppn, -, heq⟩ := map_eq_some_iff.mp hrest
  cases heq
  have hspace : pageSpace = some (ms', r₂) := by
    rw [pageSpace, helf]
    exact halloc
  have hframes := pageSpace_frames
  have hwords := pageSpace_words
  rw [hspace, map_some, some.injEq] at hframes hwords
  simp only [Prod.mk.injEq] at hframes hwords
  obtain ⟨hmappings, hroot, htables⟩ := hframes
  obtain ⟨hrootWord, htableWord, hentryWord, hcurrent, hend⟩ := hwords
  have hw := (store_wrote hstore).2
  -- The trap context is in none of the frames.
  have htrapCx : (trapCxVpn 0, ppn) ∈ ms'.mappings.map fun m => (m.vpn, m.ppn) := by
    have hmapping : (⟨trapCxVpn 0, ppn, .R ||| .W⟩ : Mapping) ∈ (trapCxArea 0 ppn).mappings := mem_singleton_self _
    exact mem_map.mpr ⟨_, mem_flatMap.mpr ⟨_, ha.inv.trapCxs _ ha.mem, hmapping⟩, rfl⟩
  rw [hmappings] at htrapCx
  have hkept : ∀ f, (trapCxVpn 0, f) ∉ [(0x10, 0x80403), (0x12, 0x80406), (0x13, 0x80407), (2 ^ 27 - 2, 0x80408)] →
      r.mem f = r₂.mem f := by
    intro f hf
    refine hw.elsewhere f ?_
    rintro rfl
    exact hf htrapCx
  refine ⟨rfl, ?_, ?_, ?_, ?_, hroot, htables, ?_, ?_, ?_⟩
  · rw [hw.allocator, hend]
  · rw [Ram.free, hw.allocator, StackFrameAllocator.free, length_append, length_range', hcurrent, hend]
    omega
  · rw [hmappings]
    decide
  · rw [← length_map, hmappings]
    rfl
  · rw [hkept _ (by decide), hrootWord]
  · rw [hkept _ (by decide), htableWord]
  · rw [hkept _ (by decide), hentryWord]

/-- Three of the bytes go to the first entry of the table in the next frame. -/
theorem storeExitCode_next (hend : r.allocator.end_ = 0x88000) (hword : r.mem 0x80404 0 = 0x20101401) :
    ∃ r', r.storeBytes 0x80400 0x80403fff (i32Bytes 0x100C0100) = some r' ∧ r'.allocator = r.allocator ∧
      r'.mem 0x80400 = r.mem 0x80400 ∧ r'.mem 0x80404 0 = 0x20100C01 ∧ r'.mem 0x80403 0 = r.mem 0x80403 0 := by
  have hbytes : i32Bytes 0x100C0100 = [0x00, 0x01, 0x0C, 0x10] := by decide
  rw [hbytes]
  simp only [storeBytes, store, PAGE_SIZE, hend, Nat.reduceDiv, Nat.reduceMod, Nat.reduceAdd, Nat.reduceLeDiff, Nat.reduceLT,
    and_self, if_true, bind_some]
  refine ⟨_, rfl, rfl, ?_, ?_, ?_⟩
  · simp
  · simp [Mm.Frame.setByte, hword]
  · simp [Mm.Frame.setByte]

variable {mem : Memory}

theorem leaf_of_words {pt : PageTable} (hroot : pt.rootPpn = 0x80400) (h₀ : mem 0x80400 0 = 0x20101001)
    (h₁ : mem 0x80404 0 = 0x20100C01) (h₂ : mem 0x80403 0 = 0x20100001) : ∃ pte, pt.leaf mem 0 = some pte ∧ pte.ppn = 0x80400 := by
  have hidx : indexes 0 = [0, 0, 0] := by decide
  have hnext₀ : isValid 0x20101001 = true ∧ ppn 0x20101001 = 0x80404 := by decide
  have hnext₁ : isValid 0x20100C01 = true ∧ ppn 0x20100C01 = 0x80403 := by decide
  have hfind : pt.findPte mem 0 = some (0x80403, 0) := by
    simp only [findPte, hidx, hroot, findPteFrom, h₀, hnext₀, h₁, hnext₁, Bool.not_true, Bool.false_eq_true, if_false]
  refine ⟨0x20100001, ?_, by decide⟩
  rw [leaf, PageTable.translate, hfind, map_some, h₂]
  rfl

theorem PageTables.data_mem {p : Process} (h : PageTables p mem) (hp : Running k p r) :
    0x80403 ∈ p.memorySet.data := by
  obtain ⟨m, hm, hpage⟩ := mem_map.mp h.page
  rw [Prod.mk.injEq] at hpage
  exact hpage.2 ▸ hp.inv.wf.mem_data hp.framed hm

/-- The words are in frames of the process. -/
theorem PageTables.congr {p : Process} {mem' : Memory} (h : PageTables p mem) (hp : Running k p r)
    (hm : ∀ f ∈ p.memorySet.frames, mem' f = mem f) : PageTables p mem' := by
  have htable : ∀ f ∈ [0x80400, 0x80401, 0x80402, 0x80404, 0x80405], mem' f = mem f := by
    intro f hf
    exact hm f (mem_append_right _ (h.frames ▸ hf))
  refine { h with rootWord := ?_, tableWord := ?_, entryWord := ?_ }
  · rw [htable _ (by decide), h.rootWord]
  · rw [htable _ (by decide), h.tableWord]
  · rw [hm _ (mem_append_left _ (h.data_mem hp)), h.entryWord]

section runs

variable {k : KernelImage} {p : Process} {r : Ram}

theorem Spaces.Inv.kept {s : Spaces} {x y : Slot} {i j : Nat} {own : List Nat} (h : s.Inv k) (hi : s.slots[i]? = some x)
    (hj : s.slots[j]? = some y) (hne : i ≠ j) (ht : Ram.Trade y.frames s.ram own r) : ∀ f ∈ x.frames, r.mem f = s.ram.mem f := by
  intro f hf
  refine ht.elsewhere f ?_
  rw [mem_append, not_or]
  exact ⟨h.apart hi hj hne hf, (h.frame hi hf).2⟩

/-- The only process forks. -/
theorem Spaces.Inv.exists_fork (kernelSp : Nat) (h : Inv k ⟨[.running p], r, []⟩) (hcount : p.taskCount = 1)
    (hfree : 3 + 3 * p.memorySet.mappings.length ≤ r.free.length) :
    ∃ child r', Spaces.step k ⟨[.running p], r, []⟩ (.fork 0 kernelSp) = some ⟨[.running p, .running child], r', []⟩ ∧
      r'.allocator.end_ = r.allocator.end_ ∧ ∀ f ∈ p.memorySet.frames, r'.mem f = r.mem f := by
  have hp : Running k p r := h.slots _ mem_cons_self
  obtain ⟨⟨child, r'⟩, hfork⟩ := isSome_iff_exists.mp (fork_isSome kernelSp hp.inv hp.main hcount hp.framed hfree)
  have htrade := (hp.fork hfork).2
  refine ⟨child, r', ?_, htrade.end_, ?_⟩
  · simp only [Spaces.step, Spaces.process?, getElem?_cons_zero, bind_some, hfork, map_some]
    rfl
  · intro f hf
    exact htrade.elsewhere f (h.frame (i := 0) rfl hf).2

/-- The second process exits. -/
theorem Spaces.Inv.exists_exit {child : Process} (exitCode : BitVec 32) (h : Inv k ⟨[.running p, .running child], r, []⟩) :
    ∃ child' r', Spaces.step k ⟨[.running p, .running child], r, []⟩ (.exit 1 exitCode) =
        some ⟨[.running p, .zombie child' exitCode], r', []⟩ ∧
      r'.allocator.end_ = r.allocator.end_ ∧ ∀ f ∈ p.memorySet.frames, r'.mem f = r.mem f := by
  have hchild : Running k child r := h.slots _ (mem_cons_of_mem _ mem_cons_self)
  obtain ⟨child', r', hexit, -, htrade, -⟩ := exit_spec hchild.inv hchild.main
  refine ⟨child', r', ?_, htrade.end_, ?_⟩
  · simp only [Spaces.step, Spaces.process?, getElem?_cons_succ, getElem?_cons_zero, bind_some, hexit,
      map_some]
    rfl
  · have hkept := h.kept (i := 0) (j := 1) rfl rfl Nat.zero_ne_one htrade
    exact hkept

/-- The exit code is stored over the end of the page. -/
theorem Spaces.Inv.exists_waitpid {child : Process} (h : Inv smallKernel ⟨[.running p, .zombie child 0x100C0100], r, []⟩)
    (hpt : PageTables p r.mem) (hend : r.allocator.end_ = 0x88000) :
    ∃ r', Spaces.step smallKernel ⟨[.running p, .zombie child 0x100C0100], r, []⟩ (.waitpid 0 1 0x10fff) =
        some ⟨[.running p, .reaped], r', []⟩ ∧
      r'.mem 0x80400 = r.mem 0x80400 ∧ r'.mem 0x80404 0 = 0x20100C01 ∧ r'.mem 0x80403 0 = r.mem 0x80403 0 := by
  have hp : Running smallKernel p r := h.slots _ mem_cons_self
  obtain ⟨m, hm, hpage⟩ := mem_map.mp hpt.page
  rw [Prod.mk.injEq] at hpage
  have hpa : translatedPa r.mem (fromToken p.memorySet.token) 0x10fff = some 0x80403fff := by
    have hptr : 0x10fff % 2 ^ 39 = m.vpn * PAGE_SIZE + 0xfff := by
      rw [hpage.1]
      decide
    rw [hp.inv.wf.translatedPa_mapping hp.framed hm (by decide) hptr, hpage.2]
    rfl
  obtain ⟨r₁, hbytes, halloc, hroot, htable, hdata⟩ := storeExitCode_next hend hpt.tableWord
  have hstore : storeExitCode smallKernel.low p.memorySet.token r 0x10fff 0x100C0100 = some r₁ := by
    rw [storeExitCode, hpa, smallKernel_low, bind_some, hbytes]
  have howned : Ram.Owned smallKernel.low (child.memorySet.frames ++ []) r := by
    rw [append_nil]
    exact (h.owned.perm (frames_perm (i := 1) rfl).symm).left
  have howned₁ : Ram.Owned smallKernel.low (child.memorySet.frames ++ []) r₁ := by
    refine ⟨?_, ?_⟩
    · rw [Ram.free, halloc]
      exact howned.nodup
    · rw [Ram.free, halloc]
      exact howned.range
  obtain ⟨r', hdrop, -, hmem⟩ := drop_spec (halloc ▸ h.sound) howned₁
  refine ⟨r', ?_, ?_⟩
  · simp only [Spaces.step, Spaces.process?, getElem?_cons_succ, getElem?_cons_zero, bind_some, hstore, hdrop,
      map_some]
    rfl
  · rw [hmem]
    exact ⟨hroot, htable, hdata⟩

end runs

/-- A process, and the child it forks. -/
theorem address_spaces_isolated_forked : ∃ s : Spaces, ((spaces smallKernel).only fun _ e => e.InPage).Reach s ∧
    (∃ p child, s.slots = [.running p, .running child]) ∧
    ∀ f, s.Maps 0 f → s.Maps 1 f → f = (MemorySet.trampoline smallKernel.strampoline).ppn := by
  obtain ⟨p, r, hcreate, hcount, -, hfree, hpt⟩ := exists_pageProcess
  have hinit : ((spaces smallKernel).only fun _ e => e.InPage).Reach ⟨[], smallRam, []⟩ := .init ⟨rfl, rfl, rfl⟩
  have hreach := hinit.onlyStep (.create ⟨0, 0, 0, 0⟩ pageElf) trivial hcreate
  have hinv := Spaces.inv_reachable hreach
  obtain ⟨child, r', hfork, -⟩ := hinv.exists_fork 0 hcount (by rw [hpt.length]; exact hfree)
  have hreach' := hreach.onlyStep (.fork 0 0) trivial hfork
  exact ⟨_, hreach', ⟨p, child, rfl⟩, fun f => (address_spaces_isolated hreach').1 0 1 f Nat.zero_ne_one⟩

/-- A process forks and waits for the child: three bytes of the exit code go to a table that is in the frame after the
page. The table then leads to the page, as if it were a table, and by the entry there to the root of the page table. -/
theorem waitpid_maps_table : ∃ s₀ s : Spaces, (spaces smallKernel).init s₀ ∧
    (spaces smallKernel).run s₀ [.create ⟨0, 0, 0, 0⟩ pageElf, .fork 0 0, .exit 1 0x100C0100, .waitpid 0 1 0x10fff] = some s ∧
    ∃ f, s.Maps 0 f ∧ ∃ x ∈ s.slots, x.Node s.ram.mem f := by
  obtain ⟨p, r₁, hcreate, hcount, hend, hfree, hpt⟩ := exists_pageProcess
  have hinit : (spaces smallKernel).init ⟨[], smallRam, []⟩ := ⟨rfl, rfl, rfl⟩
  have h₁ := (Spaces.inv_init hinit).step hcreate trivial
  have hp : Running smallKernel p r₁ := h₁.slots _ mem_cons_self
  obtain ⟨child, r₂, hfork, hend₂, hkept₂⟩ := h₁.exists_fork 0 hcount (by rw [hpt.length]; exact hfree)
  have h₂ := h₁.step hfork trivial
  obtain ⟨child', r₃, hexit, hend₃, hkept₃⟩ := h₂.exists_exit 0x100C0100
  have h₃ := h₂.step hexit trivial
  have hpt₃ : PageTables p r₃.mem := hpt.congr hp fun f hf => (hkept₃ f hf).trans (hkept₂ f hf)
  obtain ⟨r₄, hwait, hroot, htable, hentry⟩ := h₃.exists_waitpid hpt₃ (hend₃.trans (hend₂.trans hend))
  obtain ⟨pte, hleaf, hppn⟩ := leaf_of_words hpt.root (hroot ▸ hpt₃.rootWord) htable (hentry.trans hpt₃.entryWord)
  refine ⟨_, ⟨[.running p, .reaped], r₄, []⟩, hinit, ?_, 0x80400, ⟨p, rfl, 0, by decide, pte, hleaf, hppn⟩, _, mem_cons_self, ?_⟩
  · simp only [Machine.run, spaces, hcreate, hfork, hexit, hwait, bind_some]
  · exact .inl (hpt.frames ▸ mem_cons_self)

end TCore.Kernel
