/-
  TCore.Mm.Bytes — the bytes of a frame.

  A frame is made of words, and the kernel's slices are bytes: what is read from a byte after others
  have been written.
-/

import TCore.Mm.UserPointer

namespace TCore.Mm

namespace Frame

def byte (f : Frame) (off : Nat) : BitVec 8 := (f (Fin.ofNat 512 (off / 8)) >>> (8 * (off % 8))).setWidth 8

variable {f : Frame} {b : BitVec 8} {off i : Nat}

theorem byte_zero : byte 0 off = 0 := by
  rw [byte]
  simp

/-- A byte of a word after the byte at `8 * k` has been replaced. -/
theorem word_byte {w : BitVec 64} {k j : Nat} (hk : k < 8) (hj : j < 8) :
    (((w &&& ~~~((255 : BitVec 64) <<< (8 * k))) ||| b.setWidth 64 <<< (8 * k)) >>> (8 * j)).setWidth 8 =
      if j = k then b else (w >>> (8 * j)).setWidth 8 := by
  have hmask : ∀ n < 64, (255 : BitVec 64).getLsbD n = decide (n < 8) := by decide
  ext n hn
  have hlt : 8 * j + n < 64 := by omega
  simp only [BitVec.getElem_setWidth, BitVec.getLsbD_ushiftRight, BitVec.getLsbD_or, BitVec.getLsbD_and, BitVec.getLsbD_not,
    BitVec.getLsbD_shiftLeft, BitVec.getLsbD_setWidth]
  by_cases hjk : j = k
  · subst hjk
    have hsub : 8 * j + n - 8 * j = n := by omega
    rw [if_pos rfl, hmask _ (by omega)]
    simp [hlt, hsub, hn]
    omega
  · rw [if_neg hjk]
    rcases Nat.lt_or_gt_of_ne hjk with hless | hgreater
    · have hbelow : 8 * j + n < 8 * k := by omega
      simp [hbelow, hlt]
    · have habove : 8 ≤ 8 * j + n - 8 * k := by omega
      rw [hmask _ (by omega)]
      simp [hlt, BitVec.getLsbD_of_ge b _ habove, not_lt.mpr habove]

theorem byte_setByte (hoff : off < PAGE_SIZE) (hi : i < PAGE_SIZE) :
    (f.setByte i b).byte off = if off = i then b else f.byte off := by
  simp only [PAGE_SIZE] at hoff hi
  rw [byte, byte, setByte]
  by_cases hword : off / 8 = i / 8
  · rw [hword, Function.update_self, word_byte (Nat.mod_lt _ (by decide)) (Nat.mod_lt _ (by decide))]
    have hiff : off % 8 = i % 8 ↔ off = i := by omega
    simp only [hiff]
  · rw [Function.update_of_ne, if_neg]
    · intro heq
      exact hword (by rw [heq])
    · intro heq
      have hval := congrArg Fin.val heq
      simp only [Fin.val_ofNat] at hval
      omega

theorem byte_foldl_setByte {src : List (BitVec 8)} {n : Nat} (hoff : off < PAGE_SIZE) (hfit : n + src.length ≤ PAGE_SIZE) :
    ((src.zipIdx n).foldl (fun f (b, i) => f.setByte i b) f).byte off =
      if n ≤ off then (src[off - n]?).getD (f.byte off) else f.byte off := by
  induction src generalizing f n with
  | nil => simp
  | cons b bs ih =>
    rw [List.length_cons] at hfit
    rw [List.zipIdx_cons, List.foldl_cons, ih (by omega)]
    dsimp only
    rw [byte_setByte hoff (by omega)]
    rcases Nat.lt_trichotomy off n with hlt | rfl | hgt
    · rw [if_neg (by omega), if_neg (by omega), if_neg (by omega)]
    · simp
    · have hsub : off - n = off - (n + 1) + 1 := by omega
      rw [if_pos (show n + 1 ≤ off by omega), if_pos (show n ≤ off by omega), if_neg (show off ≠ n by omega), hsub,
        List.getElem?_cons_succ]

/-- The bytes of the slice, and behind them those of the frame. -/
theorem byte_copyFromSlice {src : List (BitVec 8)} (hoff : off < PAGE_SIZE) (hfit : src.length ≤ PAGE_SIZE) :
    (f.copyFromSlice src).byte off = (src[off]?).getD (f.byte off) := by
  have hfit' : 0 + src.length ≤ PAGE_SIZE := by omega
  have hfold := byte_foldl_setByte (f := f) hoff hfit'
  rw [if_pos (Nat.zero_le off), Nat.sub_zero] at hfold
  exact hfold

end Frame

theorem page_div {n off : Nat} (h : off < PAGE_SIZE) : (n * PAGE_SIZE + off) / PAGE_SIZE = n := by
  simp only [PAGE_SIZE] at h ⊢
  omega

theorem page_mod {n off : Nat} (h : off < PAGE_SIZE) : (n * PAGE_SIZE + off) % PAGE_SIZE = off := by
  simp only [PAGE_SIZE] at h ⊢
  omega

theorem Memory.byte_eq {mem : Memory} {ppn off : Nat} (hoff : off < PAGE_SIZE) :
    mem.byte (ppn * PAGE_SIZE + off) = (mem ppn).byte off := by
  have hbyte : (ppn * PAGE_SIZE + off) % 8 = off % 8 := by
    simp only [PAGE_SIZE]
    omega
  rw [Memory.byte, Frame.byte, page_div hoff, page_mod hoff, hbyte]

end TCore.Mm
