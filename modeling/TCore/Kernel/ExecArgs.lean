/-
  TCore.Kernel.ExecArgs — the arguments of a program, from `exec` (task/process.rs) to `_start`
  (user/src/lib.rs).

  The table of pointers lies at the top of the user stack, the strings go down from there. A word of the
  table is written through a reference that was taken before; every byte of a string is translated on its
  own. `_start` reads the words up and each string up to its zero byte. A string is its bytes.

  User code reads a page that is valid and readable for it; of an address the 39 bits count that the kernel
  uses too. The frame of `_start` itself, below the stack pointer, is not modelled.
-/

import TCore.Kernel.UserRes
import TCore.Mm.View
import TCore.Lib.LittleEndian

namespace TCore.Kernel

open TCore.Mm TCore.Lib PageTable
open List Option

/-! ## The kernel's side -/

/-- The bytes of a `usize`. -/
def usizeBytes (w : Nat) : List (BitVec 8) := (List.range 8).map fun k => (leByte w k).toBitVec

/-- `*translated_refmut(token, ptr as *mut u8) = b`. -/
def storeByte (low token : Nat) (r : Ram) (ptr : Nat) (b : BitVec 8) : Option Ram :=
  (translatedPa r.mem (fromToken token) ptr).bind fun pa => r.storeBytes low pa [b]

/-- The references `argv` to `n` words. -/
def argvRefs (token : Nat) (r : Ram) : Nat → Nat → Option (List Nat)
  | _, 0 => some []
  | ptr, n + 1 => (translatedPa r.mem (fromToken token) ptr).bind fun pa => (argvRefs token r (ptr + 8) n).map (pa :: ·)

/-- The bytes of a string from `ptr` on, and the zero byte. -/
def storeString (low token : Nat) (r : Ram) (ptr : Nat) : List (BitVec 8) → Option Ram
  | [] => storeByte low token r ptr 0
  | c :: cs => (storeByte low token r ptr c).bind fun r => storeString low token r (ptr + 1) cs

/-- The loop over the arguments: the memory and `user_sp`. -/
def storeArgs (low token : Nat) : List Nat → List (List (BitVec 8)) → Nat → Ram → Option (Ram × Nat)
  | _, [], userSp, r => some (r, userSp)
  | [], _ :: _, _, _ => none
  | ref :: argv, arg :: args, userSp, r =>
    let userSp := wrappingSub userSp (arg.length + 1)
    (r.storeBytes low ref (usizeBytes userSp)).bind fun r =>
      (storeString low token r userSp arg).bind fun r => storeArgs low token argv args userSp r

/-- The memory, the new `user_sp` and `argv_base`. -/
def pushArgs (low token userSp : Nat) (args : List (List (BitVec 8))) (r : Ram) : Option (Ram × Nat × Nat) :=
  let argvBase := wrappingSub userSp ((args.length + 1) * 8)
  (argvRefs token r argvBase (args.length + 1)).bind fun argv =>
    (argv[args.length]?).bind fun last =>
      (r.storeBytes low last (usizeBytes 0)).bind fun r =>
        (storeArgs low token argv args argvBase r).map fun (r, userSp) => (r, userSp - userSp % 8, argvBase)

/-! ## _start -/

/-- A load of user code. -/
def userByte (pt : PageTable) (mem : Memory) (ptr : Nat) : Option (BitVec 8) :=
  if (pt.leaf mem (VirtAddr.floor (ptr % 2 ^ 39))).any fun pte => pte.flags &&& (.R ||| .U) == (.R ||| .U) then
    pt.view mem (ptr % 2 ^ 39)
  else none

def userBytes (pt : PageTable) (mem : Memory) : Nat → Nat → Option (List (BitVec 8))
  | _, 0 => some []
  | ptr, n + 1 => (userByte pt mem ptr).bind fun b => (userBytes pt mem (ptr + 1) n).map (b :: ·)

def userUsize (pt : PageTable) (mem : Memory) (ptr : Nat) : Option Nat :=
  (userBytes pt mem ptr 8).map fun bs => leNat (fun k => .ofBitVec (bs.getD k 0)) 8

/-- `find`: the distance to the next zero byte. -/
def findZero (pt : PageTable) (mem : Memory) : Nat → Nat → Option Nat
  | 0, _ => none
  | fuel + 1, ptr => (userByte pt mem ptr).bind fun b => if b = 0 then some 0 else (findZero pt mem fuel (ptr + 1)).map (· + 1)

/-- `from_utf8(..).unwrap()`. -/
def fromUtf8 (bs : List (BitVec 8)) : Option (List (BitVec 8)) := if utf8 (bs.map .ofBitVec) then some bs else none

/-- The loop of `_start`: the strings of `argc` words from `argv` on. -/
def start (pt : PageTable) (mem : Memory) (fuel : Nat) : Nat → Nat → Option (List (List (BitVec 8)))
  | 0, _ => some []
  | argc + 1, argv =>
    (userUsize pt mem argv).bind fun strStart =>
      (findZero pt mem fuel strStart).bind fun len =>
        (userBytes pt mem strStart len).bind fun bs =>
          (fromUtf8 bs).bind fun arg => (start pt mem fuel argc (argv + 8)).map (arg :: ·)

/-! ## The bytes of the stack -/

/-- A memory set with a user stack from `base` on. -/
structure Stack (low strampoline base : Nat) (ms : MemorySet) (r : Ram) : Prop where
  wf : ms.Wf low strampoline r
  framed : ∀ a ∈ ms.areas, a.mapType = .framed
  aligned : base % PAGE_SIZE = 0
  top : base + USER_STACK_SIZE < 2 ^ 64
  inside : base % 2 ^ 39 + USER_STACK_SIZE ≤ 2 ^ 39
  mapped : ∀ v, base % 2 ^ 39 / PAGE_SIZE ≤ v → v < base % 2 ^ 39 / PAGE_SIZE + 2 →
    ∃ m ∈ ms.mappings, m.vpn = v ∧ m.flags = .R ||| .W ||| .U

/-- The byte at an offset from the bottom of the stack. -/
def stackByte (ms : MemorySet) (base : Nat) (r : Ram) (o : Nat) : Option (BitVec 8) := ms.pageTable.view r.mem (base % 2 ^ 39 + o)

section stack

variable {low strampoline base o t n : Nat} {ms : MemorySet} {r r' : Ram} {bs : List (BitVec 8)} {b : BitVec 8}

section

variable (h : Stack low strampoline base ms r)
include h

theorem Stack.wrote (hw : Ram.Wrote (· ∈ ms.data) r r') : Stack low strampoline base ms r' :=
  ⟨h.wf.wrote hw, h.framed, h.aligned, h.top, h.inside, h.mapped⟩

theorem Stack.ptr (ho : o < 8192) : (base + o) % 2 ^ 39 = base % 2 ^ 39 + o := by
  have hinside := h.inside
  simp only [USER_STACK_SIZE] at hinside
  omega

/-- The page that an offset lies in. -/
theorem Stack.page (ho : o < 8192) :
    ∃ m ∈ ms.mappings, base % 2 ^ 39 + o = m.vpn * PAGE_SIZE + o % PAGE_SIZE ∧ m.flags = .R ||| .W ||| .U := by
  have haligned := h.aligned
  obtain ⟨m, hm, hvpn, hflags⟩ := h.mapped (base % 2 ^ 39 / PAGE_SIZE + o / PAGE_SIZE) (Nat.le_add_right _ _)
    (by simp only [PAGE_SIZE]; omega)
  refine ⟨m, hm, ?_, hflags⟩
  rw [hvpn]
  simp only [PAGE_SIZE] at haligned ⊢
  omega

theorem storeByte_spec (ho : o < 8192) (b : BitVec 8) :
    ∃ r', storeByte low ms.token r (base + o) b = some r' ∧ Ram.Wrote (· ∈ ms.data) r r' ∧
      ∀ q < 8192, stackByte ms base r' q = overlay (stackByte ms base r) o [b] q := by
  obtain ⟨m, hm, hpage, -⟩ := h.page ho
  have hoff : o % PAGE_SIZE < PAGE_SIZE := Nat.mod_lt _ (by decide)
  have hfit : o % PAGE_SIZE + [b].length ≤ PAGE_SIZE := hoff
  obtain ⟨r', hstore, hwrote, hview⟩ := h.wf.store_bytes h.framed hm hfit
  have hpa := h.wf.translatedPa_mapping h.framed hm hoff ((h.ptr ho).trans hpage)
  refine ⟨r', ?_, hwrote, ?_⟩
  · rw [storeByte, hpa, bind_some, hstore]
  · intro q hq
    have hq39 : base % 2 ^ 39 + q < 2 ^ 39 := (h.ptr hq) ▸ Nat.mod_lt _ (by decide)
    rw [stackByte, hview _ hq39, ← hpage]
    exact overlay_shift

end

theorem storeString_spec (bs : List (BitVec 8)) (h : Stack low strampoline base ms r) (hfit : o + bs.length < 8192) :
    ∃ r', storeString low ms.token r (base + o) bs = some r' ∧ Ram.Wrote (· ∈ ms.data) r r' ∧
      ∀ q < 8192, stackByte ms base r' q = overlay (stackByte ms base r) o (bs ++ [0]) q := by
  induction bs generalizing r o with
  | nil => exact storeByte_spec h hfit 0
  | cons c cs ih =>
    rw [length_cons] at hfit
    obtain ⟨r₁, hstore, hw₁, hbyte₁⟩ := storeByte_spec h (o := o) (by omega) c
    obtain ⟨r', hrest, hw', hbyte'⟩ := ih (h.wrote hw₁) (o := o + 1) (by omega)
    refine ⟨r', ?_, hw₁.trans hw', ?_⟩
    · rw [storeString, hstore]
      exact hrest
    · intro q hq
      rw [hbyte' q hq, cons_append, overlay_cons]
      refine overlay_congr ?_
      rw [hbyte₁ q hq, overlay_cons, overlay_nil]

/-- A reference to the word at an offset. -/
def Ref (ms : MemorySet) (base o pa : Nat) : Prop :=
  ∃ m ∈ ms.mappings, ∃ off, off + 8 ≤ PAGE_SIZE ∧ base % 2 ^ 39 + o = m.vpn * PAGE_SIZE + off ∧ pa = m.ppn * PAGE_SIZE + off

theorem length_usizeBytes {w : Nat} : (usizeBytes w).length = 8 := by
  rw [usizeBytes, length_map, length_range]

theorem storeRef_spec {pa w : Nat} (h : Stack low strampoline base ms r) (href : Ref ms base o pa) :
    ∃ r', r.storeBytes low pa (usizeBytes w) = some r' ∧ Ram.Wrote (· ∈ ms.data) r r' ∧
      ∀ q < 8192, stackByte ms base r' q = overlay (stackByte ms base r) o (usizeBytes w) q := by
  obtain ⟨m, hm, off, hoff, hpage, rfl⟩ := href
  have hfit : off + (usizeBytes w).length ≤ PAGE_SIZE := by rwa [length_usizeBytes]
  obtain ⟨r', hstore, hwrote, hview⟩ := h.wf.store_bytes h.framed hm hfit
  refine ⟨r', hstore, hwrote, ?_⟩
  intro q hq
  have hq39 : base % 2 ^ 39 + q < 2 ^ 39 := (h.ptr hq) ▸ Nat.mod_lt _ (by decide)
  rw [stackByte, hview _ hq39, ← hpage]
  exact overlay_shift

/-- An aligned word does not cross the end of its page. -/
theorem argvRefs_spec (h : Stack low strampoline base ms r) (ht : t % 8 = 0) (hfit : t + 8 * n ≤ 8192) :
    ∃ argv, argvRefs ms.token r (base + t) n = some argv ∧ argv.length = n ∧
      ∀ i pa, argv[i]? = some pa → Ref ms base (t + 8 * i) pa := by
  induction n generalizing t with
  | zero => exact ⟨[], rfl, rfl, fun i pa hi => absurd hi (by simp)⟩
  | succ n ih =>
    obtain ⟨m, hm, hpage, -⟩ := h.page (o := t) (by omega)
    have hoff : t % PAGE_SIZE + 8 ≤ PAGE_SIZE := by
      simp only [PAGE_SIZE]
      omega
    have hpa := h.wf.translatedPa_mapping h.framed hm (by omega) ((h.ptr (by omega)).trans hpage)
    obtain ⟨argv, hrest, hlen, hrefs⟩ := ih (t := t + 8) (by omega) (by omega)
    refine ⟨(m.ppn * PAGE_SIZE + t % PAGE_SIZE) :: argv, ?_, by rw [length_cons, hlen], ?_⟩
    · rw [argvRefs, hpa, bind_some, Nat.add_assoc, hrest, map_some]
    · intro i pa hi
      cases i with
      | zero =>
        cases hi
        exact ⟨m, hm, _, hoff, hpage, rfl⟩
      | succ i =>
        have href := hrefs i pa hi
        have heq : t + 8 * (i + 1) = t + 8 + 8 * i := by omega
        rwa [heq]

end stack

/-! ## The layout of the arguments -/

/-- The bytes that the strings take. -/
def argsSize (args : List (List (BitVec 8))) : Nat := (args.map fun arg => arg.length + 1).sum

theorem argsSize_cons (arg : List (BitVec 8)) (args : List (List (BitVec 8))) :
    argsSize (arg :: args) = arg.length + 1 + argsSize args := by
  rw [argsSize, map_cons, sum_cons, argsSize]

/-- The words from `t` on point to the strings, which go down from `o`; a zero word ends them. -/
def Laid (f : Nat → Option (BitVec 8)) (base : Nat) : Nat → Nat → List (List (BitVec 8)) → Prop
  | t, _, [] => Stands f t (usizeBytes 0)
  | t, o, arg :: args =>
    Stands f t (usizeBytes (base + (o - (arg.length + 1)))) ∧ Stands f (o - (arg.length + 1)) (arg ++ [0]) ∧
      Laid f base (t + 8) (o - (arg.length + 1)) args

/-- The offset of the table. -/
def tableOffset (args : List (List (BitVec 8))) : Nat := 8192 - 8 * (args.length + 1)

section layout

variable {low strampoline base o t : Nat} {ms : MemorySet} {r r' : Ram} {args : List (List (BitVec 8))} {argv : List Nat}

section

variable (h : Stack low strampoline base ms r)
include h

/-- The strings go down and the table up, so that nothing is overwritten. -/
theorem storeArgs_spec (hrefs : ∀ i pa, argv[i]? = some pa → Ref ms base (t + 8 * i) pa)
    (hlen : args.length ≤ argv.length) (hot : o ≤ t) (htop : t + 8 * (args.length + 1) ≤ 8192) (hfit : argsSize args ≤ o)
    (hzero : Stands (stackByte ms base r) (t + 8 * args.length) (usizeBytes 0)) :
    ∃ r', storeArgs low ms.token argv args (base + o) r = some (r', base + (o - argsSize args)) ∧
      Ram.Wrote (· ∈ ms.data) r r' ∧ Laid (stackByte ms base r') base t o args ∧
      ∀ q < 8192, (q < o - argsSize args ∨ (o ≤ q ∧ q < t) ∨ t + 8 * args.length ≤ q) →
        stackByte ms base r' q = stackByte ms base r q := by
  induction args generalizing r argv t o with
  | nil => exact ⟨r, by rw [storeArgs]; rfl, .refl, hzero, fun q _ _ => rfl⟩
  | cons arg args ih =>
    have hsize := argsSize_cons arg args
    rw [hsize] at hfit
    rw [length_cons] at hlen htop hzero
    obtain ⟨ref, argv, rfl⟩ := exists_cons_of_length_pos (show 0 < argv.length by omega)
    have htop64 := h.top
    simp only [USER_STACK_SIZE] at htop64
    have hsp : wrappingSub (base + o) (arg.length + 1) = base + (o - (arg.length + 1)) := by
      rw [wrappingSub_of_le (by omega) (by omega)]
      omega
    have href : Ref ms base t ref := hrefs 0 ref rfl
    obtain ⟨r₁, hword, hw₁, hbyte₁⟩ := storeRef_spec (w := base + (o - (arg.length + 1))) h href
    obtain ⟨r₂, hstring, hw₂, hbyte₂⟩ := storeString_spec (o := o - (arg.length + 1)) arg (h.wrote hw₁) (by omega)
    have hlenWord := length_usizeBytes (w := base + (o - (arg.length + 1)))
    have hlenString : (arg ++ [0]).length = arg.length + 1 := length_append
    -- After the two stores: the word, the string, and what is neither of them.
    have hkept : ∀ q < 8192, (q < o - (arg.length + 1) ∨ (o ≤ q ∧ q < t) ∨ t + 8 ≤ q) →
        stackByte ms base r₂ q = stackByte ms base r q := by
      intro q hq hout
      rw [hbyte₂ q hq, overlay_outside (by omega), hbyte₁ q hq, overlay_outside (by omega)]
    have htable : ∀ i pa, argv[i]? = some pa → Ref ms base (t + 8 + 8 * i) pa := by
      intro i pa hi
      have href := hrefs (i + 1) pa hi
      have heq : t + 8 * (i + 1) = t + 8 + 8 * i := by omega
      rwa [heq] at href
    have hzero₂ : Stands (stackByte ms base r₂) (t + 8 + 8 * args.length) (usizeBytes 0) := by
      have heq : t + 8 * (args.length + 1) = t + 8 + 8 * args.length := by omega
      rw [heq] at hzero
      refine hzero.congr fun q hge hlt => hkept q ?_ (by omega)
      rw [length_usizeBytes] at hlt
      omega
    obtain ⟨r', hloop, hw', hlaid, hkeep⟩ := ih ((h.wrote hw₁).wrote hw₂) htable
      (by rw [length_cons] at hlen; omega) (show o - (arg.length + 1) ≤ t + 8 by omega) (by omega) (by omega) hzero₂
    refine ⟨r', ?_, (hw₁.trans hw₂).trans hw', ⟨?_, ?_, hlaid⟩, ?_⟩
    · rw [storeArgs, hsp, hword, bind_some, hstring, bind_some, hloop, hsize, Nat.sub_sub]
    · refine (stands_overlay (f := stackByte ms base r)).congr fun q hge hlt => ?_
      rw [hkeep q (by omega) (by omega), hbyte₂ q (by omega), overlay_outside (by omega), hbyte₁ q (by omega)]
    · refine (stands_overlay (f := stackByte ms base r₁)).congr fun q hge hlt => ?_
      rw [hkeep q (by omega) (by omega), hbyte₂ q (by omega)]
    · intro q hq hout
      rw [hsize, length_cons] at hout
      rw [hkeep q hq (by omega), hkept q hq (by omega)]

/-! ## What `_start` reads -/

theorem userByte_stack (ho : o < 8192) :
    userByte ms.pageTable r.mem (base + o) = stackByte ms base r o := by
  obtain ⟨m, hm, hpage, hflags⟩ := h.page ho
  have hfloor : VirtAddr.floor (base % 2 ^ 39 + o) = m.vpn := by
    rw [hpage]
    exact page_div (Nat.mod_lt _ (by decide))
  have hleaf := h.wf.space.shows.leaf (mem_cons_of_mem (MemorySet.trampoline strampoline) hm)
  rw [userByte, h.ptr ho, hfloor, hleaf, if_pos]
  · rfl
  · rw [any_some, Mapping.flags_pte, hflags]
    decide

theorem userBytes_stack {bs : List (BitVec 8)} (hstands : Stands (stackByte ms base r) o bs)
    (hfit : o + bs.length ≤ 8192) : userBytes ms.pageTable r.mem (base + o) bs.length = some bs := by
  induction bs generalizing o with
  | nil => rfl
  | cons b bs ih =>
    rw [length_cons] at hfit
    rw [length_cons, userBytes, userByte_stack h (by omega), hstands.head, bind_some, Nat.add_assoc,
      ih hstands.tail (by omega), map_some]

theorem userUsize_stack {w : Nat} (hstands : Stands (stackByte ms base r) o (usizeBytes w))
    (hfit : o + 8 ≤ 8192) (hw : w < 2 ^ 64) : userUsize ms.pageTable r.mem (base + o) = some w := by
  have hbytes := userBytes_stack h hstands (by rwa [length_usizeBytes])
  rw [length_usizeBytes] at hbytes
  rw [userUsize, hbytes, map_some, some.injEq]
  have hcongr : leNat (fun k => .ofBitVec ((usizeBytes w).getD k 0)) 8 = leNat (leByte w) 8 := by
    refine leNat_congr fun k hk => ?_
    rw [usizeBytes, getD_eq_getElem?_getD, getElem?_map, getElem?_range hk]
    rfl
  rw [hcongr, leNat_leByte]
  exact Nat.mod_eq_of_lt hw

theorem findZero_stack {bs : List (BitVec 8)} {fuel : Nat}
    (hstands : Stands (stackByte ms base r) o (bs ++ [0])) (hfit : o + bs.length < 8192) (hnul : 0 ∉ bs) (hfuel : bs.length < fuel) :
    findZero ms.pageTable r.mem fuel (base + o) = some bs.length := by
  induction bs generalizing o fuel with
  | nil =>
    obtain ⟨fuel, rfl⟩ := Nat.exists_eq_succ_of_ne_zero (Nat.pos_iff_ne_zero.mp hfuel)
    have ho : o < 8192 := hfit
    rw [findZero, userByte_stack h ho, hstands.head]
    rfl
  | cons b bs ih =>
    rw [length_cons] at hfit hfuel
    obtain ⟨fuel, rfl⟩ := Nat.exists_eq_succ_of_ne_zero (show fuel ≠ 0 by omega)
    rw [cons_append] at hstands
    rw [mem_cons, not_or] at hnul
    rw [findZero, userByte_stack h (by omega), hstands.head, bind_some, if_neg (Ne.symm hnul.1), Nat.add_assoc,
      ih hstands.tail (by omega) hnul.2 (by omega), map_some, length_cons]

theorem start_stack {fuel : Nat} (hlaid : Laid (stackByte ms base r) base t o args) (hot : o ≤ t)
    (htop : t + 8 * args.length ≤ 8192) (hfit : argsSize args ≤ o) (hutf8 : ∀ arg ∈ args, utf8 (arg.map .ofBitVec) = true)
    (hnul : ∀ arg ∈ args, 0 ∉ arg) (hfuel : 8192 ≤ fuel) : start ms.pageTable r.mem fuel args.length (base + t) = some args := by
  induction args generalizing t o with
  | nil => rfl
  | cons arg args ih =>
    have hsize := argsSize_cons arg args
    rw [hsize] at hfit
    rw [length_cons] at htop
    obtain ⟨hword, hstring, hrest⟩ := hlaid
    have htop64 := h.top
    simp only [USER_STACK_SIZE] at htop64
    have hbody : Stands (stackByte ms base r) (o - (arg.length + 1)) arg := by
      intro i hi
      rw [hstring i (by rw [length_append]; omega), getElem?_append_left hi]
    have hutf8' : fromUtf8 arg = some arg := if_pos (hutf8 arg mem_cons_self)
    rw [length_cons, start, userUsize_stack h hword (by omega) (by omega), bind_some,
      findZero_stack h hstring (by omega) (hnul arg mem_cons_self) (by omega), bind_some,
      userBytes_stack h hbody (by omega), bind_some, hutf8', bind_some, Nat.add_assoc,
      ih hrest (by omega) (by omega) (by omega) (fun a ha => hutf8 a (mem_cons_of_mem _ ha))
        (fun a ha => hnul a (mem_cons_of_mem _ ha)), map_some]

/-! ## The whole of it -/

theorem pushArgs_spec (hfit : 8 * (args.length + 1) + argsSize args ≤ 8192) :
    ∃ r' o, pushArgs low ms.token (base + 8192) args r = some (r', base + o, base + tableOffset args) ∧
      Ram.Wrote (· ∈ ms.data) r r' ∧ Laid (stackByte ms base r') base (tableOffset args) (tableOffset args) args ∧
      (base + o) % 8 = 0 ∧ o + argsSize args ≤ tableOffset args := by
  have htop64 := h.top
  have haligned := h.aligned
  simp only [USER_STACK_SIZE, PAGE_SIZE] at htop64 haligned
  have hbase : wrappingSub (base + 8192) ((args.length + 1) * 8) = base + tableOffset args := by
    rw [wrappingSub_of_le (by omega) (by omega), tableOffset]
    omega
  have htable : tableOffset args + 8 * (args.length + 1) = 8192 := by
    rw [tableOffset]
    omega
  have halign : tableOffset args % 8 = 0 := by
    rw [tableOffset]
    omega
  generalize tableOffset args = t at hbase htable halign ⊢
  obtain ⟨argv, hargv, hlen, hrefs⟩ := argvRefs_spec (n := args.length + 1) h halign (by omega)
  obtain ⟨last, hlast⟩ : ∃ last, argv[args.length]? = some last := ⟨_, getElem?_eq_getElem (by omega)⟩
  obtain ⟨r₁, hzero, hw₁, hbyte₁⟩ := storeRef_spec (w := 0) h (hrefs _ last hlast)
  have hlenZero := length_usizeBytes (w := 0)
  have hstands : Stands (stackByte ms base r₁) (t + 8 * args.length) (usizeBytes 0) :=
    (stands_overlay (f := stackByte ms base r)).congr fun q _ hlt => hbyte₁ q (by omega)
  obtain ⟨r', hloop, hw', hlaid, -⟩ := storeArgs_spec (o := t) (h.wrote hw₁) hrefs (by omega) (Nat.le_refl t) (by omega) (by omega) hstands
  have hround : base + (t - argsSize args) - (base + (t - argsSize args)) % 8 = base + (t - argsSize args - (t - argsSize args) % 8) := by
    omega
  refine ⟨r', t - argsSize args - (t - argsSize args) % 8, ?_, hw₁.trans hw', hlaid, by omega, by omega⟩
  rw [pushArgs, hbase]
  dsimp only
  rw [hargv, bind_some, hlast, bind_some, hzero, bind_some, hloop, map_some]
  dsimp only
  rw [hround]

end

variable {f : Nat → Option (BitVec 8)}

/-- The word of an argument. -/
theorem Laid.word {i : Nat} (h : Laid f base t o args) (hi : i < args.length) :
    Stands f (t + 8 * i) (usizeBytes (base + (o - argsSize (args.take (i + 1))))) := by
  induction args generalizing t o i with
  | nil => cases hi
  | cons arg args ih =>
    obtain ⟨hword, -, hrest⟩ := h
    cases i with
    | zero =>
      have hsize : argsSize ((arg :: args).take 1) = arg.length + 1 := by simp [argsSize]
      rw [hsize]
      exact hword
    | succ i =>
      have hsize : argsSize ((arg :: args).take (i + 1 + 1)) = arg.length + 1 + argsSize (args.take (i + 1)) := by
        simp [argsSize]
      have heq : t + 8 * (i + 1) = t + 8 + 8 * i := by omega
      rw [hsize, heq, ← Nat.sub_sub]
      exact ih hrest (Nat.lt_of_succ_lt_succ hi)

theorem Laid.zero (h : Laid f base t o args) : Stands f (t + 8 * args.length) (usizeBytes 0) := by
  induction args generalizing t o with
  | nil => exact h
  | cons arg args ih =>
    have heq : t + 8 * (args.length + 1) = t + 8 + 8 * args.length := by omega
    rw [length_cons, heq]
    exact ih h.2.2

theorem Laid.congr {g : Nat → Option (BitVec 8)} (h : Laid f base t o args) (hot : o ≤ t) (htop : t + 8 * (args.length + 1) ≤ 8192)
    (hfit : argsSize args ≤ o) (heq : ∀ q < 8192, g q = f q) : Laid g base t o args := by
  induction args generalizing t o with
  | nil =>
    refine Stands.congr h fun q _ hlt => heq q ?_
    rw [length_usizeBytes] at hlt
    rw [length_nil] at htop
    omega
  | cons arg args ih =>
    have hsize := argsSize_cons arg args
    rw [hsize] at hfit
    rw [length_cons] at htop
    obtain ⟨hword, hstring, hrest⟩ := h
    refine ⟨hword.congr fun q _ hlt => heq q ?_, hstring.congr fun q _ hlt => heq q ?_, ih hrest (by omega) (by omega) (by omega)⟩
    · rw [length_usizeBytes] at hlt
      omega
    · rw [length_append, length_singleton] at hlt
      omega

end layout

/-! ## Any arguments

Also arguments that do not fit go to pages of the memory set only. -/

section any

variable {low strampoline ptr n userSp : Nat} {ms : MemorySet} {r r' : Ram} {bs : List (BitVec 8)} {b : BitVec 8}
  {args : List (List (BitVec 8))} {argv : List Nat}

variable (h : ms.Wf low strampoline r) (hframed : ∀ a ∈ ms.areas, a.mapType = .framed)
include h hframed

theorem storeByte_wrote
    (hstore : storeByte low ms.token r ptr b = some r') : Ram.Wrote (· ∈ ms.data) r r' := by
  obtain ⟨pa, hpa, hstore⟩ := bind_eq_some_iff.mp hstore
  have hfit : ptr % PAGE_SIZE + [b].length ≤ PAGE_SIZE := Nat.mod_lt _ (by decide)
  exact (h.translated_into hframed hpa hfit).wrote hstore

theorem storeString_wrote
    (hstore : storeString low ms.token r ptr bs = some r') : Ram.Wrote (· ∈ ms.data) r r' := by
  induction bs generalizing r ptr with
  | nil => exact storeByte_wrote h hframed hstore
  | cons c cs ih =>
    obtain ⟨r₁, hone, hrest⟩ := bind_eq_some_iff.mp hstore
    have hw := storeByte_wrote h hframed hone
    exact hw.trans (ih (h.wrote hw) hrest)

theorem argvRefs_into (haligned : ptr % 8 = 0)
    (hrefs : argvRefs ms.token r ptr n = some argv) : ∀ pa ∈ argv, ms.Into low pa 8 := by
  induction n generalizing ptr argv with
  | zero =>
    cases hrefs
    exact fun pa hpa => absurd hpa not_mem_nil
  | succ n ih =>
    obtain ⟨pa, hpa, hmap⟩ := bind_eq_some_iff.mp hrefs
    obtain ⟨rest, hrest, rfl⟩ := map_eq_some_iff.mp hmap
    have hfit : ptr % PAGE_SIZE + 8 ≤ PAGE_SIZE := by
      simp only [PAGE_SIZE]
      omega
    exact forall_mem_cons.mpr ⟨h.translated_into hframed hpa hfit, ih (by omega) hrest⟩

theorem storeArgs_wrote
    (hrefs : ∀ pa ∈ argv, ms.Into low pa 8) {sp : Nat} (hstore : storeArgs low ms.token argv args userSp r = some (r', sp)) :
    Ram.Wrote (· ∈ ms.data) r r' := by
  induction args generalizing argv userSp r with
  | nil =>
    rw [storeArgs] at hstore
    cases hstore
    exact .refl
  | cons arg args ih =>
    cases argv with
    | nil => cases hstore
    | cons ref argv =>
      obtain ⟨r₁, hword, hrest⟩ := bind_eq_some_iff.mp hstore
      obtain ⟨r₂, hstring, hrest⟩ := bind_eq_some_iff.mp hrest
      obtain ⟨href, hrefs'⟩ := forall_mem_cons.mp hrefs
      have hw₁ : Ram.Wrote (· ∈ ms.data) r r₁ := MemorySet.Into.wrote (by rwa [length_usizeBytes]) hword
      have hw₂ := storeString_wrote (h.wrote hw₁) hframed hstring
      exact (hw₁.trans hw₂).trans (ih (h.wrote (hw₁.trans hw₂)) hrefs' hrest)

theorem pushArgs_wrote (haligned : userSp % 8 = 0)
    {sp argvBase : Nat} (hpush : pushArgs low ms.token userSp args r = some (r', sp, argvBase)) : Ram.Wrote (· ∈ ms.data) r r' := by
  obtain ⟨argv, hrefs, hrest⟩ := bind_eq_some_iff.mp hpush
  obtain ⟨last, hlast, hrest⟩ := bind_eq_some_iff.mp hrest
  obtain ⟨r₁, hzero, hrest⟩ := bind_eq_some_iff.mp hrest
  obtain ⟨⟨r₂, sp'⟩, hargs, heq⟩ := map_eq_some_iff.mp hrest
  cases heq
  have hbase : wrappingSub userSp ((args.length + 1) * 8) % 8 = 0 := by
    rw [wrappingSub]
    omega
  have hinto := argvRefs_into h hframed hbase hrefs
  have hw₁ : Ram.Wrote (· ∈ ms.data) r r₁ :=
    MemorySet.Into.wrote (by rw [length_usizeBytes]; exact hinto last (mem_of_getElem? hlast)) hzero
  exact hw₁.trans (storeArgs_wrote (h.wrote hw₁) hframed hinto hargs)

end any

end TCore.Kernel
