/-
  TCore.Lib.Utf8 — which byte strings are UTF-8: a sequence of well-formed encodings, with
  no overlong form, no surrogate and nothing past U+10FFFF.
-/

import Mathlib.Tactic

namespace TCore.Lib

/-- A continuation byte, no smaller than `lo` and no larger than `hi`. -/
def cont (lo hi b : UInt8) : Bool := lo ≤ b && b ≤ hi

def utf8 : List UInt8 → Bool
  | [] => true
  | a :: b :: c :: d :: r =>
    if a ≤ 0x7f then utf8 (b :: c :: d :: r)
    else if 0xc2 ≤ a && a ≤ 0xdf then cont 0x80 0xbf b && utf8 (c :: d :: r)
    else if 0xe0 ≤ a && a ≤ 0xef then
      cont (if a = 0xe0 then 0xa0 else 0x80) (if a = 0xed then 0x9f else 0xbf) b && cont 0x80 0xbf c && utf8 (d :: r)
    else if 0xf0 ≤ a && a ≤ 0xf4 then
      cont (if a = 0xf0 then 0x90 else 0x80) (if a = 0xf4 then 0x8f else 0xbf) b && cont 0x80 0xbf c &&
        cont 0x80 0xbf d && utf8 r
    else false
  | [a, b, c] =>
    if a ≤ 0x7f then utf8 [b, c]
    else if 0xc2 ≤ a && a ≤ 0xdf then cont 0x80 0xbf b && utf8 [c]
    else 0xe0 ≤ a && a ≤ 0xef &&
      cont (if a = 0xe0 then 0xa0 else 0x80) (if a = 0xed then 0x9f else 0xbf) b && cont 0x80 0xbf c
  | [a, b] => if a ≤ 0x7f then utf8 [b] else 0xc2 ≤ a && a ≤ 0xdf && cont 0x80 0xbf b
  | [a] => a ≤ 0x7f

example : utf8 [0x61, 0xe4, 0xb8, 0xad] = true ∧ utf8 [0xc0, 0x80] = false ∧ utf8 [0xed, 0xa0, 0x80] = false := by
  decide

end TCore.Lib
