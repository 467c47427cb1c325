/-
  TCore.Lib.LittleEndian — unsigned numbers as little-endian bytes.

  `leNat f n` is the number whose `n` low bytes are `f 0`, `f 1`, …; `leByte v k` is byte
  `k` of `v`. Each undoes the other (`leNat_leByte`, `leByte_leNat`), and a bit of the
  number is a bit of one of its bytes (`testBit_leNat`).
-/

import Mathlib.Tactic
import Mathlib.Data.BitVec
import Mathlib.Data.UInt
import Mathlib.Data.Nat.Bitwise

namespace TCore.Lib

def leNat (f : Nat → UInt8) : Nat → Nat
  | 0 => 0
  | n + 1 => leNat f n + (f n).toNat * 256 ^ n

def leByte (v k : Nat) : UInt8 := UInt8.ofNat (v / 256 ^ k)

theorem leNat_lt (f : Nat → UInt8) (n : Nat) : leNat f n < 256 ^ n := by
  induction n with
  | zero => simp [leNat]
  | succ n ih =>
    have hb : (f n).toNat < 256 := (f n).toNat_lt
    have : ((f n).toNat + 1) * 256 ^ n ≤ 256 * 256 ^ n := Nat.mul_le_mul_right _ (by omega)
    rw [leNat, pow_succ]
    rw [Nat.add_mul] at this
    omega

theorem leNat_congr {f g : Nat → UInt8} {n : Nat} (h : ∀ k < n, f k = g k) : leNat f n = leNat g n := by
  induction n with
  | zero => rfl
  | succ n ih => rw [leNat, leNat, ih fun k hk => h k (by omega), h n (by omega)]

@[simp] theorem leByte_toNat (v k : Nat) : (leByte v k).toNat = v / 256 ^ k % 256 := by
  simp [leByte]

theorem leNat_leByte (v n : Nat) : leNat (leByte v) n = v % 256 ^ n := by
  induction n with
  | zero => simp [leNat, Nat.mod_one]
  | succ n ih => rw [leNat, ih, leByte_toNat, pow_succ, Nat.mod_mul, Nat.mul_comm (256 ^ n)]

theorem leByte_leNat (f : Nat → UInt8) {n k : Nat} (hk : k < n) : leByte (leNat f n) k = f k := by
  induction n with
  | zero => omega
  | succ n ih =>
    apply UInt8.toNat_inj.mp
    rw [leByte_toNat, leNat]
    by_cases e : k = n
    · subst e
      rw [Nat.add_mul_div_right _ _ (by positivity), Nat.div_eq_of_lt (leNat_lt f k), Nat.zero_add,
        Nat.mod_eq_of_lt (f k).toNat_lt]
    · -- the bytes above `k` add a multiple of `256 ^ (k + 1)`
      have hpow : 256 ^ n = 256 ^ (n - (k + 1)) * 256 * 256 ^ k := by
        rw [← pow_succ, ← pow_add]; congr 1; omega
      have hsplit : (f n).toNat * 256 ^ n = (f n).toNat * 256 ^ (n - (k + 1)) * 256 * 256 ^ k := by
        rw [hpow]; ring
      have := congrArg UInt8.toNat (ih (by omega))
      rw [leByte_toNat] at this
      rw [hsplit, Nat.add_mul_div_right _ _ (by positivity), Nat.add_mul_mod_self_right, this]

theorem testBit_leNat (f : Nat → UInt8) (n i : Nat) :
    (leNat f n).testBit i = (decide (i < 8 * n) && (f (i / 8)).toNat.testBit (i % 8)) := by
  by_cases h : i < 8 * n
  · have hb := congrArg (fun x => x.toNat.testBit (i % 8)) (leByte_leNat f (show i / 8 < n by omega))
    simp only [leByte_toNat] at hb
    rw [← hb, decide_eq_true h, Bool.true_and]
    rw [show (256 : Nat) = 2 ^ 8 by norm_num, Nat.testBit_mod_two_pow, ← pow_mul, Nat.testBit_div_two_pow,
      decide_eq_true (Nat.mod_lt i (by omega)), Bool.true_and]
    congr 1
    omega
  · rw [decide_eq_false h, Bool.false_and]
    apply Nat.testBit_lt_two_pow
    calc leNat f n < 256 ^ n := leNat_lt f n
      _ = 2 ^ (8 * n) := by rw [pow_mul]; norm_num
      _ ≤ 2 ^ i := Nat.pow_le_pow_right (by omega) (by omega)

end TCore.Lib
