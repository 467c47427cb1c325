/-
  TCore.Kernel.Exec — `exec` (task/process.rs): a process takes a new address space, with the arguments on its
  stack and the registers for `_start` in its trap context.
-/

import TCore.Kernel.ExecArgs
import TCore.Kernel.Signal
import TCore.Mm.Elf

namespace TCore.Kernel

open TCore.Mm TCore.Lib PageTable
open List Option VirtAddr MemorySet TrapContext Function

namespace TrapContext

/-- `app_init_context`, with the value of `sstatus` that is read. -/
def appInitContext (entry sp kernelSatp kernelSp trapHandler sstatus : UInt64) : TrapContext :=
  ⟨(Arr.replicate 0).set 2 sp, sstatus, entry, kernelSatp, kernelSp, trapHandler⟩

/-- The words of a trap context, as they lie in its page. -/
def word (cx : TrapContext) (i : Nat) : Option UInt64 :=
  if i < 32 then some (cx.x.get i) else [cx.sstatus, cx.sepc, cx.kernelSatp, cx.kernelSp, cx.trapHandler][i - 32]?

def store (cx : TrapContext) (f : Mm.Frame) : Mm.Frame := fun i => ((cx.word i).map UInt64.toBitVec).getD (f i)

end TrapContext

/-- What the kernel gives a trap context besides the program's own. -/
structure KernelSide where
  kernelSatp : UInt64
  kernelSp : UInt64
  trapHandler : UInt64
  sstatus : UInt64

/-- The end of `exec`: the arguments, and the trap context with the registers for `_start`. -/
def storeContext (low token ustackTop entryPoint trapCxPpn : Nat) (kernel : KernelSide) (args : List (List (BitVec 8))) (r : Ram) :
    Option Ram :=
  (pushArgs low token ustackTop args r).bind fun (r, userSp, argvBase) =>
    let cx := TrapContext.appInitContext (.ofNat entryPoint) (.ofNat userSp) kernel.kernelSatp kernel.kernelSp kernel.trapHandler
      kernel.sstatus
    let cx := { cx with x := (cx.x.set 10 (.ofNat args.length)).set 11 (.ofNat argvBase) }
    r.store low trapCxPpn cx.store

/-- `exec` of a process with the main thread alone, whose tid is 0: the new memory set, the base of the user stacks and
the frame of the trap context. The old memory set is dropped when the new one takes its place. -/
def exec (low strampoline : Nat) (kernel : KernelSide) (old : MemorySet) (elf : ElfFile) (args : List (List (BitVec 8))) (r : Ram) :
    Option ((MemorySet × Nat × Nat) × Ram) :=
  (fromElf low strampoline elf r).bind fun ((ms, ustackBase, entryPoint), r) =>
    let newToken := ms.token
    (old.drop r).bind fun r =>
      (allocUserRes low ustackBase 0 ms r).bind fun (ms, r) =>
        (trapCxPpn 0 ms r).bind fun trapCxPpn =>
          (storeContext low newToken (ustackTop ustackBase 0) entryPoint trapCxPpn kernel args r).map fun r =>
            ((ms, ustackBase, trapCxPpn), r)

/-! ## The new address space -/

section space

variable {low strampoline base : Nat} {ms ms' : MemorySet} {r r' : Ram} {f : Mm.Frame} {m : Mapping}

/-- The stack that the main thread gets. A stack that would reach the end of the address space is refused by
`VPNRange::new`. -/
theorem allocUserRes_stack (h : ms.Wf low strampoline r) (hframed : ∀ a ∈ ms.areas, a.mapType = .framed)
    (haligned : base % PAGE_SIZE = 0) (hbase : base < 2 ^ 64) (halloc : allocUserRes low base 0 ms r = some (ms', r')) :
    Stack low strampoline base ms' r' ∧ ustackTop base 0 = base + 8192 ∧ ms'.token = ms.token ∧
      ∃ m ∈ ms'.mappings, m.vpn = 2 ^ 27 - 2 ∧ m.flags = .R ||| .W := by
  obtain ⟨stack, ms₁, r₁, trapCx, hle, -, h₁, h₂⟩ := allocUserRes_spec h halloc
  have hbottom : ustackBottomFromTid base 0 = base := by
    rw [ustackBottomFromTid]
    omega
  have hvpn : ustackVpn base 0 = base % 2 ^ 39 / PAGE_SIZE := by
    rw [ustackVpn, hbottom, fromUsize, floor]
  have hend : ustackEndVpn base 0 = (base % 2 ^ 39 + 8192) % 2 ^ 39 / PAGE_SIZE := by
    rw [ustackEndVpn, ustackTop, hbottom, fromUsize, ceil]
    simp only [USER_STACK_SIZE, PAGE_SIZE] at haligned ⊢
    omega
  rw [hvpn, hend] at hle
  have hinside : base % 2 ^ 39 + 8192 < 2 ^ 39 := by
    simp only [PAGE_SIZE] at hle haligned
    omega
  have hpages : (base % 2 ^ 39 + 8192) % 2 ^ 39 / PAGE_SIZE = base % 2 ^ 39 / PAGE_SIZE + 2 := by
    simp only [PAGE_SIZE]
    omega
  have htop : base + USER_STACK_SIZE < 2 ^ 64 := by
    simp only [USER_STACK_SIZE]
    omega
  refine ⟨⟨h₂.wf, h₂.framed (h₁.framed hframed), haligned, htop, hinside.le, ?_⟩, ?_, ?_, ?_⟩
  · intro v hge hlt
    obtain ⟨m, hm, hmv, hflags⟩ := h₁.exists_mapping (v := v) (by rw [hvpn]; exact hge) (by rw [hend, hpages]; exact hlt)
    exact ⟨m, h₂.mappings ▸ mem_append_left _ hm, hmv, hflags⟩
  · rw [ustackTop, hbottom, Nat.mod_eq_of_lt htop]
    rfl
  · rw [MemorySet.token, PageTable.token, h₂.root, h₁.root]
    rfl
  · exact h₂.exists_mapping (v := 2 ^ 27 - 2) (by decide) (by decide)

theorem trapCxPpn_mapping (h : ms.Wf low strampoline r) (hm : m ∈ ms.mappings) (hvpn : m.vpn = 2 ^ 27 - 2) :
    trapCxPpn 0 ms r = some m.ppn := by
  obtain ⟨pte, htrans, hppn⟩ := h.space.translate_mapping (mem_cons_of_mem _ hm)
  have hvpn₀ : alignedVpn (fromUsize (trapCxBottomFromTid 0)) = some m.vpn := by
    rw [hvpn]
    decide
  rw [trapCxPpn, hvpn₀, bind_some, htrans, map_some, hppn]

/-- A write to the page of the trap context leaves the stack as it is. -/
theorem stackByte_trapCx {q : Nat} (h : Stack low strampoline base ms r) (hm : m ∈ ms.mappings) (hflags : m.flags = .R ||| .W)
    (hq : q < 8192) : stackByte ms base { r with mem := update r.mem m.ppn f } q = stackByte ms base r q := by
  have hout : m.vpn < base % 2 ^ 39 / PAGE_SIZE ∨ base % 2 ^ 39 / PAGE_SIZE + 2 ≤ m.vpn := by
    by_contra hin
    obtain ⟨m', hm', hvpn, hflags'⟩ := h.mapped m.vpn (by omega) (by omega)
    rw [h.wf.vpn_inj hm hm' hvpn, hflags] at hflags'
    exact absurd hflags' (by decide)
  have hq39 : base % 2 ^ 39 + q < 2 ^ 39 := (h.ptr hq) ▸ Nat.mod_lt _ (by decide)
  have haligned := h.aligned
  rw [stackByte, h.wf.view_write h.framed hm hq39, if_neg, stackByte]
  simp only [floor, PAGE_SIZE] at hout haligned ⊢
  omega

end space

/-! ## The registers -/

section registers

variable {cx : TrapContext} {f : Mm.Frame} {i : Nat}

theorem TrapContext.store_x (hi : i < 32) : cx.store f (Fin.ofNat 512 i) = (cx.x.get i).toBitVec := by
  have hval : (Fin.ofNat 512 i : Fin 512).val = i := by
    rw [Fin.val_ofNat]
    omega
  rw [store, hval, word, if_pos hi]
  rfl

end registers

/-! ## The arguments after exec -/

section exec

variable {low strampoline base ppn : Nat} {kernel : KernelSide} {old ms : MemorySet} {elf : ElfFile} {args : List (List (BitVec 8))}
  {r r₁ r' : Ram}

/-- The old memory set is dropped: the new one has none of its frames. -/
theorem drop_old {new : MemorySet} (hold : old.Wf low strampoline r) (hnew : new.Wf low strampoline r₁)
    (htrade : Ram.Trade [] r new.frames r₁) :
    ∃ r', old.drop r₁ = some r' ∧ new.Wf low strampoline r' ∧ Ram.Trade old.frames r new.frames r' ∧
      r₁.free.length ≤ r'.free.length := by
  have hboth := htrade.frame old.frames
  rw [append_nil] at hboth
  have howned := hboth.owned hold.space.owned
  obtain ⟨r', hdrop, hfreed, hmem⟩ := drop_spec htrade.sound howned
  have hspace := hnew.space.congr hfreed.sound (hfreed.owned howned) fun f _ => by rw [hmem]
  refine ⟨r', hdrop, ⟨hnew.aligned, hnew.kernel, hnew.areas, hspace⟩, hboth.trans hfreed, ?_⟩
  have hlen := hfreed.perm.length_eq
  rw [length_append, length_append, length_append] at hlen
  omega

/-- What `exec` leaves behind. -/
structure Executed (low strampoline : Nat) (args : List (List (BitVec 8))) (ms : MemorySet) (ppn : Nat) (r : Ram) (base o : Nat) :
    Prop where
  stack : Stack low strampoline base ms r
  laid : Laid (stackByte ms base r) base (tableOffset args) (tableOffset args) args
  aligned : (base + o) % 8 = 0
  below : o + argsSize args ≤ tableOffset args
  trapCx : trapCxPpn 0 ms r = some ppn
  sp : r.mem ppn 2 = BitVec.ofNat 64 (base + o)
  a0 : r.mem ppn 10 = BitVec.ofNat 64 args.length
  a1 : r.mem ppn 11 = BitVec.ofNat 64 (base + tableOffset args)

theorem storeContext_spec {m : Mapping} {base : Nat} (entryPoint : Nat) (kernel : KernelSide) (h : Stack low strampoline base ms r)
    (hm : m ∈ ms.mappings) (hvpn : m.vpn = 2 ^ 27 - 2) (hflags : m.flags = .R ||| .W)
    (hfit : 8 * (args.length + 1) + argsSize args ≤ 8192) :
    ∃ r' o, storeContext low ms.token (base + 8192) entryPoint m.ppn kernel args r = some r' ∧
      Executed low strampoline args ms m.ppn r' base o := by
  obtain ⟨r₁, o, hpush, hw₁, hlaid, haligned, hbelow⟩ := pushArgs_spec h hfit
  have h₁ := h.wrote hw₁
  have hdata := h₁.wf.mem_data h₁.framed hm
  obtain ⟨hlow, hend⟩ := h₁.wf.space.data_range hdata
  rw [storeContext, hpush, bind_some]
  dsimp only
  generalize hcx : ({ appInitContext (.ofNat entryPoint) (.ofNat (base + o)) kernel.kernelSatp kernel.kernelSp
    kernel.trapHandler kernel.sstatus with x := _ } : TrapContext) = cx
  have hx2 : cx.x.get 2 = .ofNat (base + o) := by
    rw [← hcx]
    simp [appInitContext]
  have hx10 : cx.x.get 10 = .ofNat args.length := by
    rw [← hcx]
    simp [appInitContext]
  have hx11 : cx.x.get 11 = .ofNat (base + tableOffset args) := by
    rw [← hcx]
    simp [appInitContext]
  have hw₂ : Ram.Wrote (· ∈ ms.data) r₁ { r₁ with mem := update r₁.mem m.ppn (cx.store (r₁.mem m.ppn)) } := by
    refine ⟨rfl, fun g hg => update_of_ne ?_ _ _⟩
    intro heq
    exact hg (heq ▸ hdata)
  refine ⟨{ r₁ with mem := update r₁.mem m.ppn (cx.store (r₁.mem m.ppn)) }, o, ?_,
    ⟨h₁.wrote hw₂, ?_, haligned, hbelow, trapCxPpn_mapping (h₁.wf.wrote hw₂) hm hvpn, ?_, ?_, ?_⟩⟩
  · rw [Ram.store, if_pos ⟨hlow, hend⟩]
  · refine hlaid.congr (Nat.le_refl _) ?_ (by omega) fun q hq => stackByte_trapCx h₁ hm hflags hq
    rw [tableOffset]
    omega
  · dsimp only
    rw [update_self]
    exact (store_x (by decide)).trans (congrArg UInt64.toBitVec hx2)
  · dsimp only
    rw [update_self]
    exact (store_x (by decide)).trans (congrArg UInt64.toBitVec hx10)
  · dsimp only
    rw [update_self]
    exact (store_x (by decide)).trans (congrArg UInt64.toBitVec hx11)

theorem storeContext_wrote {ustackTop entryPoint : Nat} (h : ms.Wf low strampoline r)
    (hframed : ∀ a ∈ ms.areas, a.mapType = .framed) (haligned : ustackTop % 8 = 0) (hppn : ppn ∈ ms.data)
    (hstore : storeContext low ms.token ustackTop entryPoint ppn kernel args r = some r') : Ram.Wrote (· ∈ ms.data) r r' := by
  obtain ⟨⟨r₁, sp, argvBase⟩, hpush, hstore⟩ := bind_eq_some_iff.mp hstore
  have hw₁ := pushArgs_wrote h hframed haligned hpush
  exact hw₁.trans ((Ram.store_wrote hstore).2.mono fun f hf => hf ▸ hppn)

/-- The old memory set has been exchanged for that of the file, with the resources of the main thread. Whatever the
arguments are, they have gone to its pages. -/
structure Replaced (low strampoline : Nat) (old : MemorySet) (elf : ElfFile) (r : Ram) (ms : MemorySet) (base ppn : Nat) (r' : Ram) :
    Prop where
  loaded : ∃ ms₀ r₁ r₂ r₃ frames, MemorySet.OfFile low strampoline elf r ms₀ base r₁ ∧ ms₀.Wf low strampoline r₂ ∧
    Ram.Trade old.frames r ms₀.frames r₂ ∧ Allocated low strampoline base 0 ms₀ r₂ frames ppn ms r₃ ∧ Ram.Wrote (· ∈ ms.data) r₃ r'
  aligned : base % PAGE_SIZE = 0
  lt : base < 2 ^ 64

section

variable (h : Replaced low strampoline old elf r ms base ppn r')
include h

theorem Replaced.trade : Ram.Trade old.frames r ms.frames r' := by
  obtain ⟨ms₀, r₁, r₂, r₃, frames, -, -, htrade, ha, hw⟩ := h.loaded
  exact (htrade.trans ha.trade).trans ((hw.mono fun f hf => mem_append_left _ hf).trade ha.trade.sound)

theorem Replaced.framed : ∀ a ∈ ms.areas, a.mapType = .framed := by
  obtain ⟨ms₀, r₁, r₂, r₃, frames, hfile, -, -, ha, -⟩ := h.loaded
  exact ha.framed hfile.framed

end

theorem exec_replaced (hold : old.Wf low strampoline r) (h : exec low strampoline kernel old elf args r = some ((ms, base, ppn), r')) :
    Replaced low strampoline old elf r ms base ppn r' := by
  obtain ⟨⟨⟨ms₀, base', entryPoint⟩, r₁⟩, helf, h⟩ := bind_eq_some_iff.mp h
  obtain ⟨r₂, hdrop, h⟩ := bind_eq_some_iff.mp h
  obtain ⟨⟨ms₁, r₃⟩, halloc, h⟩ := bind_eq_some_iff.mp h
  obtain ⟨ppn', htrap, h⟩ := bind_eq_some_iff.mp h
  obtain ⟨r₄, hcontext, heq⟩ := map_eq_some_iff.mp h
  cases heq
  have hfile := fromElf_ofFile hold.space.sound hold.space.owned.nil hold.kernel helf
  obtain ⟨r₂', hdrop', hwf₂, htrade₂, -⟩ := drop_old hold hfile.wf hfile.trade
  rw [hdrop] at hdrop'
  cases hdrop'
  obtain ⟨haligned, hlt⟩ := hfile.aligned
  obtain ⟨frames, ppn', ha⟩ := allocUserRes_allocated hwf₂ haligned halloc
  have hmem : trapCxArea 0 ppn' ∈ ms.areas := ha.areas ▸ mem_append_right _ (mem_cons_of_mem _ mem_cons_self)
  rw [trapCxPpn_area ha.wf hmem] at htrap
  cases htrap
  have hframed := ha.framed hfile.framed
  have hppn : ppn ∈ ms.data := mem_flatMap.mpr ⟨_, hmem, mem_singleton_self _⟩
  have htop : ustackTop base 0 % 8 = 0 := by
    simp only [ustackTop, ustackBottomFromTid, PAGE_SIZE, USER_STACK_SIZE] at haligned ⊢
    omega
  have htoken : ms.token = ms₀.token := by
    rw [MemorySet.token, PageTable.token, ha.root]
    rfl
  rw [← htoken] at hcontext
  exact ⟨⟨ms₀, r₁, r₂, r₃, frames, hfile, hwf₂, htrade₂, ha, storeContext_wrote ha.wf hframed htop hppn hcontext⟩,
    haligned, hlt⟩

theorem exec_spec (hold : old.Wf low strampoline r) (hfit : 8 * (args.length + 1) + argsSize args ≤ 8192)
    (h : exec low strampoline kernel old elf args r = some ((ms, base, ppn), r')) :
    ∃ o, Executed low strampoline args ms ppn r' base o := by
  obtain ⟨⟨⟨ms₀, base', entryPoint⟩, r₁⟩, helf, h⟩ := bind_eq_some_iff.mp h
  obtain ⟨r₂, hdrop, h⟩ := bind_eq_some_iff.mp h
  obtain ⟨⟨ms₁, r₃⟩, halloc, h⟩ := bind_eq_some_iff.mp h
  obtain ⟨ppn', htrap, h⟩ := bind_eq_some_iff.mp h
  obtain ⟨r₄, hcontext, heq⟩ := map_eq_some_iff.mp h
  cases heq
  have hfile := fromElf_ofFile hold.space.sound hold.space.owned.nil hold.kernel helf
  obtain ⟨r₂', hdrop', hwf₂, -, -⟩ := drop_old hold hfile.wf hfile.trade
  rw [hdrop] at hdrop'
  cases hdrop'
  obtain ⟨haligned, hlt⟩ := hfile.aligned
  obtain ⟨hstack, htop, htoken, m, hm, hvpn, hflags⟩ := allocUserRes_stack hwf₂ hfile.framed haligned hlt halloc
  rw [trapCxPpn_mapping hstack.wf hm hvpn] at htrap
  cases htrap
  obtain ⟨r', o, hcontext', hexec⟩ := storeContext_spec entryPoint kernel hstack hm hvpn hflags hfit
  rw [← htoken, htop, hcontext'] at hcontext
  cases hcontext
  exact ⟨o, hexec⟩

/-- The stack of the main thread is in the two pages from `ustack_base` on. -/
theorem mainStack_vpns {e : Nat} (hle : e ≤ 2 ^ 26) : ustackVpn (userStackBase e) 0 = e + 1 ∧ ustackEndVpn (userStackBase e) 0 = e + 3 := by
  obtain ⟨hbase, -⟩ := userStackBase_spec hle
  generalize userStackBase e = base at hbase ⊢
  have hbottom : fromUsize (ustackBottomFromTid base 0) = (e + 1) * PAGE_SIZE := by
    rw [← hbase, ustackBottomFromTid, fromUsize, fromUsize]
    omega
  refine ⟨?_, ?_⟩
  · rw [ustackVpn, hbottom, floor, Nat.mul_div_cancel _ (by decide)]
  · simp only [ustackEndVpn, ustackTop, fromUsize, ceil, USER_STACK_SIZE, PAGE_SIZE] at hbottom ⊢
    omega

theorem room_of_mapped {e : Nat} (hle : e ≤ 2 ^ 26) (hmapped : ∀ v ∈ ms.mappings.map Mapping.vpn, v ≤ e) (hwf : ms.Wf low strampoline r') :
    Room (userStackBase e) 0 ms r' := by
  obtain ⟨hvpn, hend⟩ := mainStack_vpns hle
  have htrap : trapCxVpn 0 = 2 ^ 27 - 2 ∧ trapCxEndVpn 0 = 2 ^ 27 - 1 := by decide
  refine ⟨by omega, by omega, by omega, ?_⟩
  intro v hv
  refine (hwf.space.shows.leaf_eq_none (by omega)).mpr ?_
  intro hmem
  rcases mem_cons.mp hmem with rfl | hmem
  · have htop : (trampoline strampoline).vpn = 2 ^ 27 - 1 := trampolineVpn_eq
    omega
  · have hlt := hmapped v hmem
    omega

/-- Segments that ascend end below the last of them, and the page below the stack is free as well. -/
theorem loaded_le (hok : elf.Ok) (hl : MemorySet.Loading low strampoline elf.input r elf.loads ms r₁) :
    lastEnd 0 elf.loads ≤ 2 ^ 26 ∧ ∀ v ∈ ms.mappings.map Mapping.vpn, v ≤ lastEnd 0 elf.loads := by
  obtain ⟨hle, hall, -⟩ := lastEnd_spec hok.segments hok.ascending
  refine ⟨hle, ?_⟩
  intro v hv
  obtain ⟨ph, hph, -, hend⟩ := hl.vpns.mp hv
  exact hend.le.trans (hall ph hph)

theorem exec_isSome (kernel : KernelSide) (hold : old.Wf low strampoline r) (hfit : 8 * (args.length + 1) + argsSize args ≤ 8192)
    (hok : elf.Ok) (hfree : elf.cost + 9 ≤ r.free.length) : (exec low strampoline kernel old elf args r).isSome := by
  obtain ⟨ms, r₁, helf, hl, hcost⟩ :=
    fromElf_spec hold.space.sound hold.space.owned.nil hold.aligned hold.kernel hok.loadable (by omega)
  have hfile := fromElf_ofFile hold.space.sound hold.space.owned.nil hold.kernel helf
  obtain ⟨r₂, hdrop, hwf₂, -, hgrow⟩ := drop_old hold hl.wf hl.trade
  obtain ⟨haligned, hlt⟩ := userStackBase_aligned (lastEnd 0 elf.loads)
  obtain ⟨hle, hmapped⟩ := loaded_le hok hl
  have hroom := room_of_mapped hle hmapped hwf₂
  rw [exec, helf, bind_some]
  dsimp only
  rw [hdrop, bind_some]
  generalize userStackBase (lastEnd 0 elf.loads) = base at haligned hlt hroom ⊢
  obtain ⟨⟨ms₁, r₃⟩, halloc⟩ := isSome_iff_exists.mp (hroom.isSome hwf₂ haligned (by omega))
  obtain ⟨hstack, htop, htoken, m, hm, hvpn, hflags⟩ := allocUserRes_stack hwf₂ hfile.framed haligned hlt halloc
  obtain ⟨r', o, hcontext, -⟩ := storeContext_spec elf.entryPoint kernel hstack hm hvpn hflags hfit
  rw [halloc, bind_some]
  dsimp only
  rw [trapCxPpn_mapping hstack.wf hm hvpn, bind_some, ← htoken, htop, hcontext]
  rfl

end exec

/-- Where the `i`-th string begins. -/
def strStart (argvBase : Nat) (args : List (List (BitVec 8))) (i : Nat) : Nat := argvBase - argsSize (args.take (i + 1))

section sizes

variable {args : List (List (BitVec 8))} {arg : List (BitVec 8)} {i j : Nat}

theorem argsSize_append (xs ys : List (List (BitVec 8))) : argsSize (xs ++ ys) = argsSize xs + argsSize ys := by
  rw [argsSize, map_append, sum_append, argsSize, argsSize]

theorem argsSize_take_succ (h : args[i]? = some arg) : argsSize (args.take (i + 1)) = argsSize (args.take i) + (arg.length + 1) := by
  rw [take_add_one, h, argsSize_append, toList_some, argsSize_cons]
  rfl

theorem argsSize_take_le (args : List (List (BitVec 8))) (h : i ≤ j) : argsSize (args.take i) ≤ argsSize (args.take j) := by
  have hsplit := argsSize_append ((args.take j).take i) ((args.take j).drop i)
  rw [take_append_drop, take_take, Nat.min_eq_left h] at hsplit
  omega

theorem argsSize_take_le_self (args : List (List (BitVec 8))) (i : Nat) : argsSize (args.take i) ≤ argsSize args := by
  have hsplit := argsSize_append (args.take i) (args.drop i)
  rw [take_append_drop] at hsplit
  omega

end sizes

/-- `_start` finds the arguments of `exec` again. -/
theorem exec_args_round_trip {low strampoline : Nat} {old : MemorySet} {elf : ElfFile} {args : List (List (BitVec 8))} {r : Ram}
    (kernel : KernelSide) (hold : old.Wf low strampoline r) (hfit : (args.length + 1) * 8 + argsSize args ≤ USER_STACK_SIZE)
    (hutf8 : ∀ arg ∈ args, utf8 (arg.map .ofBitVec) = true) (hnul : ∀ arg ∈ args, 0 ∉ arg) :
    (elf.Ok → elf.cost + 9 ≤ r.free.length → (exec low strampoline kernel old elf args r).isSome) ∧
    ∀ ms base ppn r', exec low strampoline kernel old elf args r = some ((ms, base, ppn), r') →
      ∃ sp argvBase, trapCxPpn 0 ms r' = some ppn ∧ r'.mem ppn 2 = BitVec.ofNat 64 sp ∧
        r'.mem ppn 10 = BitVec.ofNat 64 args.length ∧ r'.mem ppn 11 = BitVec.ofNat 64 argvBase ∧
        (∀ fuel, USER_STACK_SIZE ≤ fuel → start ms.pageTable r'.mem fuel args.length argvBase = some args) ∧
        userUsize ms.pageTable r'.mem (argvBase + 8 * args.length) = some 0 ∧
        (∀ i < args.length, userUsize ms.pageTable r'.mem (argvBase + 8 * i) = some (strStart argvBase args i)) ∧
        (∀ i arg, args[i]? = some arg → strStart argvBase args i + (arg.length + 1) ≤ argvBase ∧
          ∀ j < i, strStart argvBase args i + (arg.length + 1) ≤ strStart argvBase args j) ∧
        (sp % 8 = 0 ∧ sp ≤ argvBase ∧ ∀ i < args.length, sp ≤ strStart argvBase args i) ∧
        (base ≤ sp ∧ argvBase + 8 * (args.length + 1) = base + USER_STACK_SIZE ∧ base + USER_STACK_SIZE < 2 ^ 64) ∧
        ∀ o < USER_STACK_SIZE, (userByte ms.pageTable r'.mem (base + o)).isSome := by
  have hfit' : 8 * (args.length + 1) + argsSize args ≤ 8192 := by
    simp only [USER_STACK_SIZE] at hfit
    omega
  refine ⟨fun hok hfree => exec_isSome kernel hold hfit' hok hfree, ?_⟩
  intro ms base ppn r' h
  obtain ⟨o, hx⟩ := exec_spec hold hfit' h
  have htable : tableOffset args + 8 * (args.length + 1) = 8192 := by
    rw [tableOffset]
    omega
  have hbelow := hx.below
  have htop := hx.stack.top
  simp only [USER_STACK_SIZE] at htop ⊢
  have hstart : ∀ i, strStart (base + tableOffset args) args i = base + (tableOffset args - argsSize (args.take (i + 1))) := by
    intro i
    have hle := argsSize_take_le_self args (i + 1)
    rw [strStart]
    omega
  refine ⟨base + o, base + tableOffset args, hx.trapCx, hx.sp, hx.a0, hx.a1, ?_, ?_, ?_, ?_, ⟨hx.aligned, by omega, ?_⟩,
    ⟨by omega, by omega, htop⟩, ?_⟩
  · intro fuel hfuel
    exact start_stack hx.stack hx.laid (Nat.le_refl _) (by omega) (by omega) hutf8 hnul hfuel
  · rw [Nat.add_assoc]
    exact userUsize_stack hx.stack hx.laid.zero (by omega) (by decide)
  · intro i hi
    rw [Nat.add_assoc, hstart]
    exact userUsize_stack hx.stack (hx.laid.word hi) (by omega) (by omega)
  · intro i arg harg
    have hsize := argsSize_take_succ harg
    have hle := argsSize_take_le_self args (i + 1)
    rw [hstart]
    refine ⟨by omega, ?_⟩
    intro j hj
    have hbefore : argsSize (args.take (j + 1)) ≤ argsSize (args.take i) := argsSize_take_le args hj
    rw [hstart]
    omega
  · intro i hi
    have hle := argsSize_take_le_self args (i + 1)
    rw [hstart]
    omega
  · intro q hq
    rw [userByte_stack hx.stack hq]
    obtain ⟨m, hm, hpage, -⟩ := hx.stack.page hq
    rw [stackByte, hpage, PageTable.view, hx.stack.wf.physical_mapping hm (Nat.mod_lt _ (by decide))]
    rfl

/-- `ls` and a character of three bytes. -/
theorem exec_two_args : ∃ (old ms : MemorySet) (r r' : Ram) (base ppn argvBase : Nat),
    exec 0x80400 0x80200000 ⟨0, 0, 0, 0⟩ old smallElf [[0x6c, 0x73], [0xe4, 0xb8, 0xad]] r = some ((ms, base, ppn), r') ∧
      r'.mem ppn 11 = BitVec.ofNat 64 argvBase ∧
      start ms.pageTable r'.mem 8192 2 argvBase = some [[0x6c, 0x73], [0xe4, 0xb8, 0xad]] := by
  obtain ⟨old, r, hold, -, -, hfree⟩ := exists_stack
  have hcost : smallElf.cost + 9 ≤ 100 := by decide
  have hfit : (([[0x6c, 0x73], [0xe4, 0xb8, 0xad]] : List (List (BitVec 8))).length + 1) * 8 +
      argsSize [[0x6c, 0x73], [0xe4, 0xb8, 0xad]] ≤ USER_STACK_SIZE := by decide
  obtain ⟨hsome, hall⟩ := exec_args_round_trip ⟨0, 0, 0, 0⟩ hold hfit (by decide) (by decide)
  obtain ⟨⟨⟨ms, base, ppn⟩, r'⟩, hexec⟩ := isSome_iff_exists.mp (hsome smallElf_ok (by omega))
  obtain ⟨-, argvBase, -, -, -, ha1, hstart, -⟩ := hall ms base ppn r' hexec
  exact ⟨old, ms, r, r', base, ppn, argvBase, hexec, ha1, hstart 8192 (by decide)⟩

end TCore.Kernel
