/-
  TCore.Kernel.Trampoline — the assembly of traps and of task switches (trap/trap.S, task/switch.S).

  A hart has its registers, the control registers that the routines use, and the words of each address space by the
  token in `satp`; `TCore.Kernel.Layout` says that the trap contexts are mapped. The instructions of a routine are run
  in order and the last one jumps. The trampoline is at one address in every address space, so a routine goes on after
  it has written `satp`.
-/

import TCore.Lib.Machine
import Mathlib.Data.BitVec
import Mathlib.Logic.Function.Basic

namespace TCore.Kernel.Trampoline

open TCore.Lib List
open Function (update update_self update_of_ne)

abbrev Word := BitVec 64
abbrev Reg := Fin 32

inductive Csr where
  | satp
  | sscratch
  | sstatus
  | sepc
  deriving DecidableEq

structure Hart where
  x : Reg → Word
  pc : Word
  user : Bool
  csr : Csr → Word
  mem : Word → Word → Word

inductive Instr where
  | sd (rs : Reg) (off : Nat) (base : Reg)
  | ld (rd : Reg) (off : Nat) (base : Reg)
  | addi (rd rs : Reg) (imm : Word)
  | mv (rd rs : Reg)
  | csrr (rd : Reg) (c : Csr)
  | csrw (c : Csr) (rs : Reg)
  | csrrw (rd : Reg) (c : Csr) (rs : Reg)
  | sfence
  | jr (rs : Reg)
  /-- `next` is the address behind the instruction. -/
  | jalr (rs : Reg) (next : Word)
  | sret

/-- The word `i` from `va` on. -/
def slot (va : Word) (i : Nat) : Word := va + .ofNat 64 (8 * i)

/-- The bits of `sstatus`. -/
def sie : Nat := 1
def spie : Nat := 5
def spp : Nat := 8

def setBit (w : Word) (i : Nat) (b : Bool) : Word := if b then w ||| 1#64 <<< i else w &&& ~~~(1#64 <<< i)

namespace Hart

def set (h : Hart) (rd : Reg) (v : Word) : Hart := { h with x := update h.x rd v }

def setCsr (h : Hart) (c : Csr) (v : Word) : Hart := { h with csr := update h.csr c v }

/-- The words of the address space in `satp`. -/
def view (h : Hart) : Word → Word := h.mem (h.csr .satp)

/-- The words of the trap context. -/
def cx (h : Hart) (i : Nat) : Word := h.view (slot (h.csr .sscratch) i)

/-- What the hart does on a trap to `stvec`. -/
def trap (h : Hart) (stvec : Word) : Hart :=
  let s := h.csr .sstatus
  { (h.setCsr .sepc h.pc).setCsr .sstatus (setBit (setBit (setBit s spie (s.getLsbD sie)) sie false) spp (!h.user)) with
    pc := stvec, user := false }

def sret (h : Hart) : Hart :=
  let s := h.csr .sstatus
  { h.setCsr .sstatus (setBit (setBit (setBit s sie (s.getLsbD spie)) spie true) spp false) with
    pc := h.csr .sepc, user := !s.getLsbD spp }

def exec (h : Hart) : Instr → Hart
  | .sd rs off base => { h with mem := update h.mem (h.csr .satp) (update h.view (slot (h.x base) off) (h.x rs)) }
  | .ld rd off base => h.set rd (h.view (slot (h.x base) off))
  | .addi rd rs imm => h.set rd (h.x rs + imm)
  | .mv rd rs => h.set rd (h.x rs)
  | .csrr rd c => h.set rd (h.csr c)
  | .csrw c rs => h.setCsr c (h.x rs)
  | .csrrw rd c rs => (h.set rd (h.csr c)).setCsr c (h.x rs)
  | .sfence => h
  | .jr rs => { h with pc := h.x rs }
  | .jalr rs next => { h.set 1 next with pc := h.x rs }
  | .sret => h.sret

def run (h : Hart) (code : List Instr) : Hart := code.foldl exec h

end Hart

/-! ## The routines -/

/-- `sd x, i*8(base)` for each register and its place. -/
def saves (l : List (Reg × Nat)) (base : Reg) : List Instr := l.map fun p => .sd p.1 p.2 base

def loads (l : List (Reg × Nat)) (base : Reg) : List Instr := l.map fun p => .ld p.1 p.2 base

/-- `x1`, `x3` and the 27 registers from `x5` on. -/
def gprs : List (Reg × Nat) := (1, 1) :: (3, 3) :: (List.range' 5 27).map fun n => (Fin.ofNat 32 n, n)

/-- `s0` and `s1` are `x8` and `x9`, the others `x18` to `x27`. -/
def sregs : List (Reg × Nat) := (List.range 12).map fun n => (Fin.ofNat 32 (if n < 2 then n + 8 else n + 16), n + 2)

/-- The part that the two entries share. -/
def saveRegs : List Instr := saves gprs 2 ++ [.csrr 5 .sstatus, .csrr 6 .sepc] ++ saves [(5, 32), (6, 33)] 2

def loadRegs : List Instr := loads [(5, 32), (6, 33)] 2 ++ [.csrw .sstatus 5, .csrw .sepc 6] ++ loads gprs 2

def alltraps : List Instr :=
  .csrrw 2 .sscratch 2 :: saveRegs ++ .csrr 7 .sscratch :: saves [(7, 2)] 2 ++ loads [(5, 34), (6, 36)] 2 ++
    [.ld 2 35 2, .csrw .satp 5, .sfence, .jr 6]

def restore : List Instr :=
  [.csrw .satp 11, .sfence, .csrw .sscratch 10, .mv 2 10] ++ loadRegs ++ [.ld 2 2 2, .sret]

/-- `restoreVa` is the address of `__restore_k`. -/
def alltrapsK (restoreVa : Word) : List Instr :=
  .addi 2 2 (-272) :: saveRegs ++ [.mv 10 2, .csrr 7 .sscratch, .jalr 7 restoreVa]

def restoreK : List Instr := loadRegs ++ [.addi 2 2 272, .sret]

/-- `__switch`. -/
def switch : List Instr := saves ((2, 1) :: (1, 0) :: sregs) 10 ++ loads ((1, 0) :: sregs ++ [(2, 1)]) 11 ++ [.jr 1]

/-! ## Running a routine -/

/-- `Q` holds at the end of the code. -/
def Wp (h : Hart) (code : List Instr) (Q : Hart → Prop) : Prop := Q (h.run code)

/-- The words are the same but for the places `l` from `va` on. -/
def Off (va : Word) (l : List Nat) (v v' : Word → Word) : Prop := ∀ a, (∀ i ∈ l, a ≠ slot va i) → v' a = v a

section wp

variable {h : Hart} {l : List (Reg × Nat)} {b : Reg} {Q : Hart → Prop} {e : Instr} {code : List Instr}

theorem Wp.nil (hQ : Q h) : Wp h [] Q := hQ

theorem Wp.cons (hk : Wp (h.exec e) code Q) : Wp h (e :: code) Q := hk

theorem Wp.append {c c' : List Instr} (hc : Wp h c fun k => Wp k c' Q) : Wp h (c ++ c') Q := by
  rw [Wp, Hart.run, foldl_append]
  exact hc

theorem slot_inj {va : Word} {i j : Nat} (hi : i < 2 ^ 60) (hj : j < 2 ^ 60) (heq : slot va i = slot va j) : i = j := by
  have heq := congrArg BitVec.toNat ((BitVec.add_right_inj va).mp heq)
  simp only [BitVec.toNat_ofNat] at heq
  omega

theorem Off.trans {va : Word} {l l' : List Nat} {v v' v'' : Word → Word} (ho : Off va l v v') (ho' : Off va l' v' v'') :
    Off va (l ++ l') v v'' := fun a ha =>
  (ho' a fun i hi => ha i (mem_append_right _ hi)).trans (ho a fun i hi => ha i (mem_append_left _ hi))

/-- A place that is not in the list. -/
theorem Off.kept {va : Word} {l : List Nat} {v v' : Word → Word} {i : Nat} (ho : Off va l v v') (hl : ∀ j ∈ l, j < 2 ^ 60)
    (hi : i < 2 ^ 60) (hout : i ∉ l) : v' (slot va i) = v (slot va i) :=
  ho _ fun j hj heq => hout (slot_inj hi (hl j hj) heq ▸ hj)

theorem exec_sd {r : Reg} {i : Nat} : (h.exec (.sd r i b)).view = update h.view (slot (h.x b) i) (h.x r) := update_self _ _ _

theorem Wp.saves (hlt : ∀ p ∈ l, p.2 < 2 ^ 60) (hnodup : (l.map Prod.snd).Nodup)
    (hQ : ∀ mem, Off (h.x b) (l.map Prod.snd) h.view (mem (h.csr .satp)) →
      (∀ p ∈ l, mem (h.csr .satp) (slot (h.x b) p.2) = h.x p.1) → Q { h with mem := mem }) : Wp h (saves l b) Q := by
  induction l generalizing h with
  | nil => exact hQ h.mem (fun _ _ => rfl) nofun
  | cons p l ih =>
    rw [map_cons, nodup_cons] at hnodup
    have hrest : ∀ q ∈ l, q.2 < 2 ^ 60 := fun q hq => hlt q (mem_cons_of_mem _ hq)
    refine .cons (ih hrest hnodup.2 fun mem hoff hsaved => hQ mem ?_ fun q hq => ?_)
    · rw [exec_sd] at hoff
      exact Off.trans (l := [p.2]) (fun a ha => update_of_ne (ha p.2 mem_cons_self) _ _) hoff
    · rcases mem_cons.mp hq with rfl | hq
      · refine (hoff.kept (forall_mem_map.mpr hrest) (hlt q mem_cons_self) hnodup.1).trans ?_
        rw [exec_sd]
        exact update_self _ _ _
      · exact hsaved q hq

theorem Wp.loads (hbase : ∀ p ∈ l, p.1 ≠ b) (hnodup : (l.map Prod.fst).Nodup)
    (hQ : ∀ x, (∀ r, r ∉ l.map Prod.fst → x r = h.x r) → (∀ p ∈ l, x p.1 = h.view (slot (h.x b) p.2)) → Q { h with x := x }) :
    Wp h (loads l b) Q := by
  induction l generalizing h with
  | nil => exact hQ h.x (fun _ _ => rfl) nofun
  | cons p l ih =>
    have hb : (h.exec (.ld p.1 p.2 b)).x b = h.x b := update_of_ne (hbase p mem_cons_self).symm _ _
    rw [map_cons, nodup_cons] at hnodup
    refine .cons (ih (fun q hq => hbase q (mem_cons_of_mem _ hq)) hnodup.2 fun x hkept hloaded =>
      hQ x (fun r hr => ?_) fun q hq => ?_)
    · rw [map_cons, mem_cons, not_or] at hr
      exact (hkept r hr.2).trans (update_of_ne hr.1 _ _)
    · rcases mem_cons.mp hq with rfl | hq
      · exact (hkept _ hnodup.1).trans (update_self _ _ _)
      · rw [hloaded q hq, hb]
        rfl

theorem gprs_lt : ∀ p ∈ gprs, p.2 < 32 ∧ p.1 ≠ 2 ∧ p.2 ≠ 2 := by decide

theorem gprs_nodup : (gprs.map Prod.fst).Nodup ∧ (gprs.map Prod.snd).Nodup := by decide

theorem mem_gprs {r : Reg} (h0 : r ≠ 0) (h2 : r ≠ 2) (h4 : r ≠ 4) : (r, r.val) ∈ gprs := by
  revert r
  decide

/-- The frame at `va` holds the registers of `h`, but for `sp`. -/
structure Saved (h : Hart) (va : Word) (view : Word → Word) : Prop where
  gprs : ∀ p ∈ gprs, view (slot va p.2) = h.x p.1
  sstatus : view (slot va 32) = h.csr .sstatus
  sepc : view (slot va 33) = h.csr .sepc

/-- The words that `saveRegs` stores. -/
def frameWords : List Nat := gprs.map Prod.snd ++ [32, 33]

theorem frameWords_lt : ∀ i ∈ frameWords, i < 34 := by decide

theorem Wp.saveRegs (hQ : ∀ x mem, x 2 = h.x 2 → Off (h.x 2) frameWords h.view (mem (h.csr .satp)) →
    Saved h (h.x 2) (mem (h.csr .satp)) → Q { h with x := x, mem := mem }) : Wp h saveRegs Q := by
  refine .append (.append ?_)
  refine .saves (by decide) gprs_nodup.2 fun mem hoff hsaved => ?_
  -- `sstatus` and `sepc` go through `x5` and `x6`
  iterate 2 refine .cons ?_
  refine .nil ?_
  refine .saves (by decide) (by decide) fun mem' hoff' hlast => ?_
  refine hQ _ mem' rfl (hoff.trans hoff') ⟨fun p hp => ?_, ?_, ?_⟩
  · have hlt := gprs_lt p hp
    refine (hoff'.kept (by decide) (by omega) ?_).trans (hsaved p hp)
    simp
    omega
  · exact hlast (5, 32) (by decide)
  · exact hlast (6, 33) (by decide)

theorem Wp.loadRegs (hQ : ∀ x, x 2 = h.x 2 → (∀ p ∈ gprs, x p.1 = h.view (slot (h.x 2) p.2)) →
    Q { h with x := x, csr := update (update h.csr .sstatus (h.view (slot (h.x 2) 32))) .sepc (h.view (slot (h.x 2) 33)) }) :
    Wp h loadRegs Q := by
  refine .append (.append ?_)
  refine .loads (by decide) (by decide) fun x hkept hloaded => ?_
  iterate 2 refine .cons ?_
  refine .nil ?_
  have h2 : x 2 = h.x 2 := hkept 2 (by decide)
  refine .loads (fun p hp => (gprs_lt p hp).2.1) gprs_nodup.1 fun x' hkept' hloaded' => ?_
  rw [← hloaded (5, 32) (by decide), ← hloaded (6, 33) (by decide), ← h2] at hQ
  exact hQ x' (hkept' 2 (by decide)) hloaded'

end wp

/-! ## Traps -/

section trap

variable {h k : Hart} {Q : Hart → Prop} {stvec restoreVa : Word}

theorem getLsbD_setBit {w : Word} {i j : Nat} {b : Bool} (hj : j < 64) :
    (setBit w i b).getLsbD j = if j = i then b else w.getLsbD j := by
  unfold setBit
  split <;> simp <;> grind

/-- A trap and the return from it, with `sstatus` kept in between. -/
theorem sret_trap (hs : k.csr .sstatus = (h.trap stvec).csr .sstatus) :
    k.sret.user = h.user ∧ (k.sret.csr .sstatus).getLsbD sie = (h.csr .sstatus).getLsbD sie := by
  have hbits : ¬sie = spie ∧ ¬sie = spp ∧ ¬spie = sie ∧ ¬spie = spp := by decide
  have htrap : k.csr .sstatus = setBit (setBit (setBit _ spie _) sie false) spp (!h.user) := hs
  simp (disch := decide) only [Hart.sret, Hart.setCsr, update_self, htrap, getLsbD_setBit, hbits, if_true, if_false, Bool.not_not, and_self]

theorem Wp.alltraps (hQ : ∀ k : Hart, k.csr .satp = h.cx 34 → k.x 2 = h.cx 35 → k.pc = h.cx 36 →
    Saved h (h.csr .sscratch) (k.mem (h.csr .satp)) → k.mem (h.csr .satp) (slot (h.csr .sscratch) 2) = h.x 2 → Q k) :
    Wp h alltraps Q := by
  refine .append (.append (.append (.cons ?_)))
  refine .saveRegs fun x mem h2 hoff hsaved => ?_
  have h2 : x 2 = h.csr .sscratch := h2
  -- the user's `sp` is in `sscratch`
  refine .cons ?_
  refine .saves (by decide) (by decide) fun mem' hoff' hsp => ?_
  refine .loads (by decide) (by decide) fun x' hkept hloaded => ?_
  have hoff' : Off (h.csr .sscratch) [2] (mem (h.csr .satp)) (mem' (h.csr .satp)) := h2 ▸ hoff'
  have hsp : mem' (h.csr .satp) (slot (x 2) 2) = h.x 2 := hsp (7, 2) (by decide)
  have hloaded : ∀ p ∈ [((5 : Reg), 34), (6, 36)], x' p.1 = mem' (h.csr .satp) (slot (x 2) p.2) := hloaded
  have h2' : x' 2 = x 2 := hkept 2 (by decide)
  rw [h2] at hsp hloaded h2'
  have hword : ∀ i, 33 < i → i < 37 → mem' (h.csr .satp) (slot (h.csr .sscratch) i) = h.cx i := by
    intro i hi hi'
    have hnot : i ∉ frameWords := fun hf => by have := frameWords_lt i hf; omega
    exact (hoff'.kept (by decide) (by omega) (by simp; omega)).trans
      (hoff.kept (fun j hj => by have := frameWords_lt j hj; omega) (by omega) hnot)
  iterate 4 refine .cons ?_
  refine hQ _ ?_ ?_ ?_ ⟨fun p hp => ?_, ?_, ?_⟩ hsp
  · exact (hloaded (5, 34) (by decide)).trans (hword 34 (by decide) (by decide))
  · refine Eq.trans ?_ (hword 35 (by decide) (by decide))
    rw [← h2']
    rfl
  · exact (hloaded (6, 36) (by decide)).trans (hword 36 (by decide) (by decide))
  · have hlt := gprs_lt p hp
    refine (hoff'.kept (by decide) (by omega) (by simpa using hlt.2.2)).trans ((hsaved.gprs p hp).trans ?_)
    exact update_of_ne hlt.2.1 _ _
  · exact (hoff'.kept (by decide) (by decide) (by decide)).trans hsaved.sstatus
  · exact (hoff'.kept (by decide) (by decide) (by decide)).trans hsaved.sepc

theorem Wp.restore (hQ : ∀ k : Hart, k.mem = h.mem → k.csr .satp = h.x 11 → k.csr .sscratch = h.x 10 →
    k.csr .sstatus = h.mem (h.x 11) (slot (h.x 10) 32) → k.csr .sepc = h.mem (h.x 11) (slot (h.x 10) 33) →
    (∀ r : Reg, r ≠ 0 → r ≠ 4 → k.x r = h.mem (h.x 11) (slot (h.x 10) r)) → Q k.sret) : Wp h restore Q := by
  refine .append (.append ?_)
  -- into the address space of `x11`, with the context at `x10`
  iterate 4 refine .cons ?_
  refine .nil ?_
  refine .loadRegs fun x h2 hloaded => ?_
  iterate 2 refine .cons ?_
  refine hQ _ rfl rfl rfl rfl rfl fun r h0 h4 => ?_
  by_cases hr : r = 2
  · subst hr
    exact congrArg (fun a => h.mem (h.x 11) (slot a 2)) h2
  · exact (update_of_ne hr _ _).trans (hloaded _ (mem_gprs h0 hr h4))

theorem Wp.alltrapsK (hQ : ∀ k : Hart, k.pc = h.csr .sscratch → k.x 1 = restoreVa → k.x 2 = h.x 2 + -272 → k.x 10 = k.x 2 →
    Off (h.x 2 + -272) frameWords h.view k.view → Saved h (h.x 2 + -272) k.view → Q k) :
    Wp h (alltrapsK restoreVa) Q := by
  refine .append (.cons ?_)
  refine .saveRegs fun x mem h2 hoff hsaved => ?_
  -- the handler's argument, its address, and the call
  iterate 3 refine .cons ?_
  refine hQ _ rfl rfl h2 rfl hoff ⟨fun p hp => ?_, hsaved.sstatus, hsaved.sepc⟩
  exact (hsaved.gprs p hp).trans (update_of_ne (gprs_lt p hp).2.1 _ _)

theorem Wp.restoreK (hQ : ∀ k : Hart, k.mem = h.mem → k.x 2 = h.x 2 + 272 → k.csr .sstatus = h.view (slot (h.x 2) 32) →
    k.csr .sepc = h.view (slot (h.x 2) 33) → (∀ p ∈ gprs, k.x p.1 = h.view (slot (h.x 2) p.2)) → Q k.sret) : Wp h restoreK Q := by
  refine .append ?_
  refine .loadRegs fun x h2 hloaded => ?_
  iterate 2 refine .cons ?_
  refine hQ _ rfl ?_ rfl rfl fun p hp => ?_
  · exact congrArg (· + 272) h2
  · exact (update_of_ne (gprs_lt p hp).2.1 _ _).trans (hloaded p hp)

/-- A thread traps in user mode, the kernel runs, and a thread `u` returns to user mode: where the words of its trap context
are those that the trap stored, it goes on as the first would have. -/
theorem trap_transparent (h : Hart) (stvec : Word) : Wp (h.trap stvec) alltraps fun k =>
    k.csr .satp = h.cx 34 ∧ k.x 2 = h.cx 35 ∧ k.pc = h.cx 36 ∧ ∀ u : Hart,
      let same (i : Nat) : Prop := u.mem (u.x 11) (slot (u.x 10) i) = k.mem (h.csr .satp) (slot (h.csr .sscratch) i)
      Wp u restore fun e => e.mem = u.mem ∧ e.csr .satp = u.x 11 ∧ e.csr .sscratch = u.x 10 ∧ (same 33 → e.pc = h.pc) ∧
        (same 32 → e.user = h.user ∧ (e.csr .sstatus).getLsbD sie = (h.csr .sstatus).getLsbD sie) ∧
        ∀ r : Reg, r ≠ 0 → r ≠ 4 → same r → e.x r = h.x r := by
  refine .alltraps fun k hsatp hsp hpc hsaved husersp => ⟨hsatp, hsp, hpc, fun u => ?_⟩
  refine Wp.restore fun e hmem hs hscratch hsstatus hsepc hregs => ⟨hmem, hs, hscratch, fun h33 => ?_, fun h32 => ?_, ?_⟩
  · exact hsepc.trans (h33.trans hsaved.sepc)
  · exact sret_trap (hsstatus.trans (h32.trans hsaved.sstatus))
  · intro r h0 h4 hr
    refine (hregs r h0 h4).trans (hr.trans ?_)
    by_cases h2 : r = 2
    · subst h2
      exact husersp
    · exact hsaved.gprs _ (mem_gprs h0 h2 h4)

/-- An interrupt in the kernel. The handler `trap_from_kernel` is called with its frame, and once it has returned with the
frame and `sp` as they were, the kernel goes on where it was. -/
theorem kernel_trap_transparent (h : Hart) (stvec restoreVa : Word) : Wp (h.trap stvec) (alltrapsK restoreVa) fun k =>
    k.pc = h.csr .sscratch ∧ k.x 1 = restoreVa ∧ k.x 10 = k.x 2 ∧ Off (h.x 2 + -272) frameWords h.view k.view ∧
    ∀ u : Hart, u.x 2 = k.x 2 → (∀ i < 34, u.view (slot (u.x 2) i) = k.view (slot (k.x 2) i)) →
      Wp u restoreK fun e => e.pc = h.pc ∧ e.user = h.user ∧ e.mem = u.mem ∧
        (e.csr .sstatus).getLsbD sie = (h.csr .sstatus).getLsbD sie ∧ ∀ r : Reg, r ≠ 0 → r ≠ 4 → e.x r = h.x r := by
  refine .alltrapsK fun k hpc hra hk2 hk10 hoff hsaved => ⟨hpc, hra, hk10, hoff, fun u hu2 hsame => ?_⟩
  rw [hk2] at hu2 hsame
  refine .restoreK fun e hmem he2 hsstatus hsepc hregs => ?_
  obtain ⟨huser, hsie⟩ := sret_trap (hsstatus.trans ((hsame 32 (by decide)).trans hsaved.sstatus))
  refine ⟨hsepc.trans ((hsame 33 (by decide)).trans hsaved.sepc), huser, hmem, hsie, fun r h0 h4 => ?_⟩
  by_cases h2 : r = 2
  · subst h2
    exact (he2.trans (congrArg (· + 272) hu2)).trans ((BitVec.add_assoc _ _ _).trans (BitVec.add_zero _))
  · have hr := mem_gprs h0 h2 h4
    exact (hregs _ hr).trans ((hsame _ (by have := gprs_lt _ hr; omega)).trans (hsaved.gprs _ hr))

end trap

/-! ## Task switches -/

/-- The hart with the task that it runs and the registers with which each task that can go on is to do so. The idle loop
counts as a task. -/
structure Cpu (ι : Type) where
  hart : Hart
  current : ι
  resume : ι → Option (Reg → Word)

inductive CpuEvent (ι : Type) where
  /-- The current task runs. -/
  | code (u : Hart)
  /-- `TaskContext::goto_trap_return` for a new task. -/
  | create (i : ι) (trapReturn kstackPtr : Word) (u : Hart)
  | switch (i : ι)
  /-- The current task ends. It calls `__switch` with the context `_unused` on its stack. -/
  | exit (unused : Word) (i : ι)

section tasks

variable {ι : Type} [DecidableEq ι]

/-- The registers of a task context. -/
def cxRegs : List (Reg × Nat) := (2, 1) :: (1, 0) :: sregs

def gotoTrapReturn (trapReturn kstackPtr : Word) : Reg → Word := update (update (fun _ => 0) 1 trapReturn) 2 kstackPtr

/-- The words of two contexts are different ones. -/
def Apart (va va' : Word) : Prop := ∀ a < 14, ∀ b < 14, slot va a ≠ slot va' b

/-- The context at `va` holds the registers. -/
def Holds (h : Hart) (va : Word) (x : Reg → Word) : Prop := ∀ p ∈ cxRegs, h.view (slot va p.2) = x p.1

variable (token : Word) (cx : ι → Word)

def Cpu.step (c : Cpu ι) : CpuEvent ι → Option (Cpu ι)
  | .code u => some { c with hart := u }
  | .create i trapReturn kstackPtr u => some { c with hart := u, resume := update c.resume i (some (gotoTrapReturn trapReturn kstackPtr)) }
  | .switch i =>
    if c.hart.x 10 = cx c.current ∧ c.hart.x 11 = cx i ∧ i ≠ c.current then
      some ⟨c.hart.run switch, i, update c.resume c.current (some c.hart.x)⟩
    else none
  | .exit unused i =>
    if c.hart.x 10 = unused ∧ c.hart.x 11 = cx i ∧ i ≠ c.current then
      some ⟨c.hart.run switch, i, update c.resume c.current none⟩
    else none

/-- The kernel's own code stays in its address space and writes no context but that of the current task. -/
def CpuEvent.Ok (c : Cpu ι) : CpuEvent ι → Prop
  | .code u => u.csr .satp = token ∧ ∀ i, i ≠ c.current → ∀ a < 14, u.view (slot (cx i) a) = c.hart.view (slot (cx i) a)
  | .create i trapReturn kstackPtr u => u.csr .satp = token ∧ Holds u (cx i) (gotoTrapReturn trapReturn kstackPtr) ∧
    ∀ j, j ≠ i → j ≠ c.current → ∀ a < 14, u.view (slot (cx j) a) = c.hart.view (slot (cx j) a)
  | .switch _ => True
  | .exit unused _ => ∀ j, j ≠ c.current → Apart (cx j) unused

structure Cpu.Inv (c : Cpu ι) : Prop where
  token : c.hart.csr .satp = token
  holds : ∀ i, i ≠ c.current → ∀ x ∈ c.resume i, Holds c.hart (cx i) x

def cpus : Machine (Cpu ι) (CpuEvent ι) := ⟨Cpu.Inv token cx, Cpu.step cx⟩

variable {token cx} {c c' : Cpu ι} {h u : Hart} {i j : ι} {e : CpuEvent ι} {Q : Hart → Prop} {x : Reg → Word}

theorem mem_update {f : ι → Option (Reg → Word)} {v : Option (Reg → Word)} (hx : x ∈ update f i v j) :
    j = i ∧ x ∈ v ∨ j ≠ i ∧ x ∈ f j := by
  by_cases hj : j = i
  · rw [hj, update_self] at hx
    exact Or.inl ⟨hj, hx⟩
  · rw [update_of_ne hj] at hx
    exact Or.inr ⟨hj, hx⟩

theorem cxRegs_lt : ∀ p ∈ cxRegs, p.2 < 14 := by decide

theorem Holds.congr {va : Word} (hx : Holds h va x) (hm : ∀ a < 14, u.view (slot va a) = h.view (slot va a)) :
    Holds u va x := fun p hp => (hm _ (cxRegs_lt p hp)).trans (hx p hp)

/-- What `__switch` does. -/
theorem Wp.switch (hQ : ∀ k : Hart, k.csr = h.csr → Holds k (h.x 10) h.x → Off (h.x 10) (List.range 14) h.view k.view →
    Holds k (h.x 11) k.x → k.pc = k.x 1 → (∀ r, r ∉ cxRegs.map Prod.fst → k.x r = h.x r) → Q k) : Wp h switch Q := by
  refine .append (.append ?_)
  refine .saves (by decide) (by decide) fun mem hoff hsaved => ?_
  refine .loads (by decide) (by decide) fun x hkept hloaded => ?_
  refine .cons (hQ _ rfl hsaved ?_ ?_ rfl ?_)
  · exact fun a ha => hoff a fun i hi => ha i (by revert i; decide)
  · exact fun p hp => (hloaded p (by revert p; decide)).symm
  · exact fun r hr => hkept r (by revert r; decide)

omit [DecidableEq ι] in
/-- The registers are stored where no other task has its context. -/
theorem Cpu.Inv.switched (hc : c.Inv token cx) (h10 : ∀ j, j ≠ c.current → Apart (cx j) (c.hart.x 10)) :
    Wp c.hart Trampoline.switch fun k => k.csr = c.hart.csr ∧ Holds k (c.hart.x 10) c.hart.x ∧
      (∀ j, j ≠ c.current → ∀ x ∈ c.resume j, Holds k (cx j) x) ∧ Holds k (c.hart.x 11) k.x ∧ k.pc = k.x 1 ∧
      ∀ r, r ∉ cxRegs.map Prod.fst → k.x r = c.hart.x r := by
  refine .switch fun k hcsr hsaved hoff hloaded hpc hkept => ?_
  refine ⟨hcsr, hsaved, fun j hj x hx => ?_, hloaded, hpc, hkept⟩
  exact (hc.holds j hj x hx).congr fun a ha => hoff _ fun b hb => h10 j hj a ha b (mem_range.mp hb)

section run

variable (hapart : ∀ i j, i ≠ j → Apart (cx i) (cx j))
include hapart

theorem Cpu.Inv.step (hc : c.Inv token cx) (hok : e.Ok token cx c) (hs : c.step cx e = some c') : c'.Inv token cx := by
  cases e with
  | code u =>
    cases hs
    exact ⟨hok.1, fun i hi x hx => (hc.holds i hi x hx).congr (hok.2 i hi)⟩
  | create i trapReturn kstackPtr u =>
    cases hs
    refine ⟨hok.1, fun j hj x hx => ?_⟩
    rcases mem_update hx with ⟨rfl, ⟨⟩⟩ | ⟨hji, hx⟩
    · exact hok.2.1
    · exact (hc.holds j hj x hx).congr (hok.2.2 j hji hj)
  | switch i =>
    obtain ⟨⟨h10, h11, hne⟩, hs⟩ := Option.ite_none_right_eq_some.mp hs
    cases hs
    obtain ⟨hcsr, hsaved, hothers, -⟩ := hc.switched fun j hj => h10 ▸ hapart j c.current hj
    refine ⟨(congrFun hcsr _).trans hc.token, fun j _ x hx => ?_⟩
    rcases mem_update hx with ⟨rfl, ⟨⟩⟩ | ⟨hj, hx⟩
    · exact h10 ▸ hsaved
    · exact hothers j hj x hx
  | exit unused i =>
    obtain ⟨⟨h10, h11, hne⟩, hs⟩ := Option.ite_none_right_eq_some.mp hs
    cases hs
    obtain ⟨hcsr, -, hothers, -⟩ := hc.switched fun j hj => h10 ▸ hok j hj
    refine ⟨(congrFun hcsr _).trans hc.token, fun j _ x hx => ?_⟩
    rcases mem_update hx with ⟨-, ⟨⟩⟩ | ⟨hj, hx⟩
    exact hothers j hj x hx

/-- A switch to a task goes on with the registers with which it last called `__switch`, or with those of its creation. The
caller gives its own context or, at its end, one that is no other task's. -/
theorem switch_resumes (hc : ((cpus token cx).only (CpuEvent.Ok token cx)).Reach c)
    (h10 : c.hart.x 10 = cx c.current ∨ ∀ j, j ≠ c.current → Apart (cx j) (c.hart.x 10)) (h11 : c.hart.x 11 = cx i)
    (hne : i ≠ c.current) (hx : c.resume i = some x) : Wp c.hart switch fun k => k.pc = x 1 ∧
      (∀ p ∈ cxRegs, k.x p.1 = x p.1) ∧ k.csr = c.hart.csr ∧ ∀ r, r ∉ cxRegs.map Prod.fst → k.x r = c.hart.x r := by
  have hinv : c.Inv token cx := by
    refine hc.inv (Cpu.Inv token cx) (fun c hinit => hinit) fun c e c' hinv hstep => ?_
    obtain ⟨hok, hstep⟩ := Machine.only_step.mp hstep
    exact hinv.step hapart hok hstep
  have h10 : ∀ j, j ≠ c.current → Apart (cx j) (c.hart.x 10) := h10.elim (fun h10 j hj => h10 ▸ hapart j c.current hj) id
  obtain ⟨hcsr, -, hothers, hloaded, hpc, hkept⟩ := hinv.switched h10
  have hregs : ∀ p ∈ cxRegs, (c.hart.run switch).x p.1 = x p.1 := by
    intro p hp
    rw [← hloaded p hp, h11]
    exact hothers i hne x hx p hp
  exact ⟨hpc.trans (hregs (1, 0) (by decide)), hregs, hcsr, hkept⟩

end run

/-- The idle loop makes a task and switches to it, and the task ends and switches back. -/
theorem switch_resumes_exited : ∃ (cx : Bool → Word) (c c' : Cpu Bool), ((cpus 0 cx).only (CpuEvent.Ok 0 cx)).Reach c ∧
    c.current = true ∧ c.step cx (.exit 0x80700000 false) = some c' ∧ c'.resume true = none ∧
    c'.hart.pc = 0x80200100 ∧ c'.hart.x 2 = 0x80500000 := by
  let cx (i : Bool) : Word := if i then 0x80400100 else 0x80400000
  let goto : Reg → Word := gotoTrapReturn 0xfffffffffffff000 0x80600000
  let mem (_ a : Word) : Word := if a = slot (cx true) 0 then goto 1 else if a = slot (cx true) 1 then goto 2 else 0
  let x : Reg → Word := update (update (update (update (fun _ => 0) 1 0x80200100) 2 0x80500000) 10 (cx false)) 11 (cx true)
  let idle : Hart := ⟨x, 0x80200000, false, fun _ => 0, mem⟩
  let task : Hart := idle.run switch
  let ending : Hart := { task with x := update (update task.x 10 0x80700000) 11 (cx false) }
  have hinit : ((cpus 0 cx).only (CpuEvent.Ok 0 cx)).Reach ⟨idle, false, fun _ => none⟩ := .init ⟨rfl, fun _ _ _ h => nomatch h⟩
  have hmade := hinit.onlyStep (.create true 0xfffffffffffff000 0x80600000 idle) ⟨rfl, by unfold Holds; decide, fun _ _ _ _ _ => rfl⟩ rfl
  have hswitched := hmade.onlyStep (.switch true) trivial rfl
  have hc := hswitched.onlyStep (.code ending) ⟨rfl, fun _ _ _ _ => rfl⟩ rfl
  have hapart : ∀ i j, i ≠ j → Apart (cx i) (cx j) := by unfold Apart; decide
  have hunused : ∀ j, j ≠ true → Apart (cx j) 0x80700000 := by unfold Apart; decide
  obtain ⟨hpc, hregs, -⟩ := switch_resumes (i := false) hapart hc (Or.inr hunused) rfl (by decide) rfl
  exact ⟨cx, _, _, hc, rfl, rfl, rfl, hpc, hregs (2, 1) (by decide)⟩

end tasks

end TCore.Kernel.Trampoline
