/-
  TCore.Mm.Address — addresses and page numbers of SV39 (mm/address.rs, config.rs).

  The four newtypes of the source are the `usize` they hold. A conversion from `usize` keeps the bits
  of the type's width; the conversion of a `VirtAddr` back to `usize` extends its sign.
-/

import Mathlib.Tactic
import Mathlib.Data.BitVec
import Mathlib.Data.UInt

namespace TCore.Mm

def PAGE_SIZE : Nat := 4096
def USER_STACK_SIZE : Nat := 8192
def KERNEL_STACK_SIZE : Nat := 8192
/-- `usize::MAX - PAGE_SIZE + 1`. -/
def TRAMPOLINE : Nat := 2 ^ 64 - 4096
def TRAP_CONTEXT_BASE : Nat := TRAMPOLINE - PAGE_SIZE

def PhysAddr.fromUsize (v : Nat) : Nat := v % 2 ^ 56
def PhysPageNum.fromUsize (v : Nat) : Nat := v % 2 ^ 44
def VirtAddr.fromUsize (v : Nat) : Nat := v % 2 ^ 39
def VirtPageNum.fromUsize (v : Nat) : Nat := v % 2 ^ 27

/-- `usize::from(VirtAddr)`: bits 39 to 63 are copies of bit 38. -/
def VirtAddr.toUsize (va : Nat) : Nat := if 2 ^ 38 ≤ va then va ||| (2 ^ 64 - 2 ^ 39) else va

def VirtAddr.floor (va : Nat) : Nat := va / PAGE_SIZE

/-- The subtraction wraps at `0`, and the addition back. -/
def VirtAddr.ceil (va : Nat) : Nat := (va + (2 ^ 64 - 1) + PAGE_SIZE) % 2 ^ 64 / PAGE_SIZE

def pageOffset (va : Nat) : Nat := va % PAGE_SIZE

def VirtAddr.ofPageNum (vpn : Nat) : Nat := vpn * 2 ^ 12 % 2 ^ 64
def PhysAddr.ofPageNum (ppn : Nat) : Nat := ppn * 2 ^ 12 % 2 ^ 64

/-- A page table has 512 entries. -/
instance instNeZeroEntries : NeZero 512 := ⟨by decide⟩

/-- `VirtPageNum::indexes`: the indexes of the three levels, the root's first. -/
def indexes (vpn : Nat) : List (Fin 512) := [Fin.ofNat 512 (vpn / 2 ^ 18), Fin.ofNat 512 (vpn / 2 ^ 9), Fin.ofNat 512 vpn]

/-- Nine bits for each level: a page number is determined by its indexes. -/
theorem indexes_inj {v w : Nat} (hv : v < 2 ^ 27) (hw : w < 2 ^ 27) (h : indexes v = indexes w) : v = w := by
  simp only [indexes, List.cons.injEq, Fin.ext_iff, Fin.val_ofNat, and_true] at h
  obtain ⟨h0, h1, h2⟩ := h
  omega

end TCore.Mm
