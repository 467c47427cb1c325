/-
  TCore.EasyFs.Block — a 512-byte block and the ways the file system reads one.

  A block cache hands out a block's bytes as a `DataBlock` (bytes), an `IndirectBlock`
  (128 words of 32 bits) or a `BitmapBlock` (64 words of 64 bits); on the target these are
  little-endian. `entry`/`setEntry` are the words of an indirect block, `u64`/`setU64` those
  of a bitmap block, `slice`/`copyFrom` the byte ranges that are copied in and out. `bit k`
  is bit `k` of a bitmap block, counted from its first byte.
-/

import TCore.Lib.Arr
import TCore.Lib.LittleEndian

namespace TCore.EasyFs

open TCore.Lib
open Arr

abbrev Block := Arr UInt8 512

namespace Block

def zero : Block := Arr.replicate 0

/-- The 32-bit word whose bytes start at `o`. -/
def u32 (b : Block) (o : Nat) : UInt32 := UInt32.ofNat (leNat (fun k => b.get (o + k)) 4)

def setU32 (b : Block) (o : Nat) (v : UInt32) : Block :=
  Arr.ofFn fun i => if o ≤ i ∧ i < o + 4 then leByte v.toNat (i - o) else b.get i

def entry (b : Block) (i : Nat) : UInt32 := b.u32 (4 * i)

def setEntry (b : Block) (i : Nat) (v : UInt32) : Block := b.setU32 (4 * i) v

def u64 (b : Block) (j : Nat) : Nat := leNat (fun k => b.get (8 * j + k)) 8

def setU64 (b : Block) (j : Nat) (v : Nat) : Block :=
  Arr.ofFn fun i => if i / 8 = j then leByte v (i % 8) else b.get i

def bit (b : Block) (k : Nat) : Bool := (b.get (k / 8)).toNat.testBit (k % 8)

def slice (b : Block) (s n : Nat) : List UInt8 := (List.range n).map fun i => b.get (s + i)

/-- `block[s..s + src.len()].copy_from_slice(src)`. -/
def copyFrom (b : Block) (s : Nat) (src : List UInt8) : Block :=
  Arr.ofFn fun i => if s ≤ i ∧ i < s + src.length then src.getD (i - s) 0 else b.get i

/-! ## Words -/

theorem u32_setU32_same (b : Block) {o : Nat} (v : UInt32) (h : o + 4 ≤ 512) : (b.setU32 o v).u32 o = v := by
  have hb : leNat (fun k => (b.setU32 o v).get (o + k)) 4 = leNat (leByte v.toNat) 4 := by
    apply leNat_congr
    intro k hk
    rw [setU32, get_ofFn_lt _ (by omega), if_pos (by omega)]
    congr 1
    omega
  rw [u32, hb, leNat_leByte, Nat.mod_eq_of_lt (by have := v.toNat_lt; omega), UInt32.ofNat_toNat]

theorem get_setU32_ne (b : Block) {o i : Nat} (v : UInt32) (h : ¬(o ≤ i ∧ i < o + 4)) :
    (b.setU32 o v).get i = b.get i := by
  rw [setU32, get_ofFn]
  by_cases hi : i < 512
  · rw [if_pos hi, if_neg h]
  · rw [if_neg hi, get_of_not_lt b hi]

theorem u32_congr {b c : Block} {o : Nat} (h : ∀ k < 4, b.get (o + k) = c.get (o + k)) : b.u32 o = c.u32 o := by
  rw [u32, u32, leNat_congr h]

theorem u32_setU32_ne (b : Block) {o p : Nat} (v : UInt32) (h : o + 4 ≤ p ∨ p + 4 ≤ o) :
    (b.setU32 o v).u32 p = b.u32 p :=
  u32_congr fun _ _ => get_setU32_ne b v (by omega)

@[simp] theorem entry_setEntry_same (b : Block) {i : Nat} (v : UInt32) (h : i < 128) :
    (b.setEntry i v).entry i = v :=
  u32_setU32_same b v (by omega)

@[simp] theorem entry_setEntry_ne (b : Block) {i j : Nat} (v : UInt32) (h : j ≠ i) :
    (b.setEntry i v).entry j = b.entry j :=
  u32_setU32_ne b v (by omega)

theorem u32_zero (o : Nat) (h : o + 4 ≤ 512) : zero.u32 o = 0 := by
  have hb : leNat (fun k => zero.get (o + k)) 4 = leNat (leByte 0) 4 := by
    apply leNat_congr
    intro k hk
    rw [zero, get_replicate _ (by omega)]
    simp [leByte]
  rw [u32, hb, leNat_leByte]
  rfl

/-! ## Bits -/

theorem testBit_u64 (b : Block) (j i : Nat) : (b.u64 j).testBit i = (decide (i < 64) && b.bit (64 * j + i)) := by
  rw [u64, testBit_leNat, bit]
  have h1 : (64 * j + i) / 8 = 8 * j + i / 8 := by omega
  have h2 : (64 * j + i) % 8 = i % 8 := by omega
  rw [h1, h2]

theorem u64_lt (b : Block) (j : Nat) : b.u64 j < 2 ^ 64 := by
  have := leNat_lt (fun k => b.get (8 * j + k)) 8
  rw [u64]
  omega

theorem bit_setU64 (b : Block) {j k : Nat} (v : Nat) (hk : k < 4096) :
    (b.setU64 j v).bit k = if k / 64 = j then v.testBit (k % 64) else b.bit k := by
  unfold bit setU64
  rw [get_ofFn_lt _ (by omega)]
  have h1 : k / 8 / 8 = k / 64 := by omega
  rw [h1]
  split
  · rw [leByte_toNat, show (256 : Nat) = 2 ^ 8 by norm_num, Nat.testBit_mod_two_pow, ← pow_mul,
      Nat.testBit_div_two_pow, decide_eq_true (Nat.mod_lt k (by omega)), Bool.true_and]
    congr 1
    omega
  · rfl

@[simp] theorem bit_zero (k : Nat) : zero.bit k = false := by
  rw [bit]
  by_cases h : k / 8 < 512
  · rw [zero, get_replicate _ h]; simp
  · rw [get_of_not_lt _ h]; simp [default]

/-! ## Byte ranges -/

@[simp] theorem slice_length (b : Block) (s n : Nat) : (b.slice s n).length = n := by simp [slice]

theorem get_copyFrom (b : Block) {s i : Nat} (src : List UInt8) (hi : i < 512) :
    (b.copyFrom s src).get i = if s ≤ i ∧ i < s + src.length then src.getD (i - s) 0 else b.get i := by
  rw [copyFrom, get_ofFn_lt _ hi]

theorem copyFrom_nil (b : Block) (s : Nat) : b.copyFrom s [] = b := by
  apply ext_get
  intro i hi
  rw [get_copyFrom b [] hi, List.length_nil, if_neg (by omega)]

end Block

end TCore.EasyFs
