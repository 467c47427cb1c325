/-
  TCore.EasyFs.GrowthSplit — growing in two steps is growing in one.

  How many new blocks a part of `increase_size` takes depends on the block counts only, and its loops
  can be cut anywhere: `fill_append` and `fillRows_append` say where the second half starts. Between two
  calls the index blocks are stored and locked again, which makes no difference to the loops
  (`exec_modify_modify`).
-/

import TCore.EasyFs.Growth
import TCore.Lib.Frame

namespace TCore.EasyFs

open TCore.Lib
open List Framed Prog DiskInode Block

/-! ## The loops -/

theorem exists_append {α : Type} {c : Nat} {l : List α} (h : c ≤ l.length) : ∃ w v, l = w ++ v ∧ w.length = c :=
  ⟨l.take c, l.drop c, (take_append_drop c l).symm, by rw [length_take]; omega⟩

/-- The values `w` put at the places from `current` on. -/
def putAll {α : Type} (put : α → Nat → UInt32 → α) : Nat → α → List UInt32 → α
  | _, a, [] => a
  | current, a, x :: xs => putAll put (current + 1) (put a current x) xs

section
variable {α : Type} {put : α → Nat → UInt32 → α}

theorem fill_append (k cur : Nat) (a : α) (w v : List UInt32) :
    fill put (w.length + k) cur a (w ++ v) = fill put k (cur + w.length) (putAll put cur a w) v := by
  induction w generalizing cur a with
  | nil => rw [length_nil, Nat.zero_add, Nat.add_zero, nil_append, putAll]
  | cons x xs ih =>
    rw [length_cons, show xs.length + 1 + k = xs.length + k + 1 by omega, putAll,
      show cur + (xs.length + 1) = cur + 1 + xs.length by omega]
    exact ih (cur + 1) (put a cur x)

theorem fill_all (cur : Nat) (a : α) (w v : List UInt32) :
    fill put w.length cur a (w ++ v) = pure (putAll put cur a w, v) := fill_append 0 cur a w v

theorem fill_framed (c cur : Nat) (a : α) (v : List UInt32) : Framed (fill put c cur a v) := by
  induction c generalizing cur a v with
  | zero => exact ret _
  | succ c ih =>
    cases v with
    | nil => exact panic
    | cons x xs => exact ih (cur + 1) (put a cur x) xs

end

/-- The new blocks that `n` turns of the loop over the second-level cells take, from cell `cur` on. -/
def rowsTaken : Nat → Nat → Nat
  | 0, _ => 0
  | n + 1, cur => (if cur % 128 = 0 then 2 else 1) + rowsTaken n (cur + 1)

theorem rowsTaken_eq (n cur : Nat) : rowsTaken n cur = n + ((cur + n + 127) / 128 - (cur + 127) / 128) := by
  induction n generalizing cur with
  | zero => simp [rowsTaken]
  | succ n ih =>
    rw [rowsTaken, ih]
    split <;> omega

/-- One turn of the loop, which takes the blocks `w`. -/
theorem fillRows_turn (cur : Nat) (b : Block) (w : List UInt32) (hw : w.length = if cur % 128 = 0 then 2 else 1) :
    ∃ (b' : Block) (row : Nat) (x : UInt32), ∀ n v, fillRows (n + 1) (cur / 128) (cur % 128) b (w ++ v) =
      assert (cur / 128 < 128) >>= fun _ =>
        (modify row fun indirect1 => pure ((), indirect1.setEntry (cur % 128) x)) >>= fun _ =>
          fillRows n ((cur + 1) / 128) ((cur + 1) % 128) b' v := by
  have hnext : ∀ n b' v, fillRows n ((cur + 1) / 128) ((cur + 1) % 128) b' v =
      if cur % 128 + 1 = 128 then fillRows n (cur / 128 + 1) 0 b' v else fillRows n (cur / 128) (cur % 128 + 1) b' v := by
    intro n b' v
    split
    · rw [show (cur + 1) / 128 = cur / 128 + 1 by omega, show (cur + 1) % 128 = 0 by omega]
    · rw [show (cur + 1) / 128 = cur / 128 by omega, show (cur + 1) % 128 = cur % 128 + 1 by omega]
  by_cases h0 : cur % 128 = 0
  · rw [if_pos h0] at hw
    obtain ⟨x, y, rfl⟩ := length_eq_two.mp hw
    refine ⟨b.setEntry (cur / 128) x, ((b.setEntry (cur / 128) x).entry (cur / 128)).toNat, y, fun n v => ?_⟩
    simp only [fillRows, openRow, if_pos h0, hnext]
    rfl
  · rw [if_neg h0] at hw
    obtain ⟨y, rfl⟩ := length_eq_one_iff.mp hw
    refine ⟨b, (b.entry (cur / 128)).toNat, y, fun n v => ?_⟩
    simp only [fillRows, openRow, if_neg h0, hnext]
    rfl

theorem fillRows_append (n k cur : Nat) (b : Block) (w v : List UInt32) (hw : w.length = rowsTaken n cur) :
    fillRows (n + k) (cur / 128) (cur % 128) b (w ++ v) =
      fillRows n (cur / 128) (cur % 128) b w >>= fun r => fillRows k ((cur + n) / 128) ((cur + n) % 128) r.1 v := by
  induction n generalizing cur b w with
  | zero =>
    rw [eq_nil_of_length_eq_zero hw, Nat.zero_add, Nat.add_zero]
    rfl
  | succ n ih =>
    rw [rowsTaken] at hw
    obtain ⟨w1, w2, rfl, hw1⟩ := exists_append (show (if cur % 128 = 0 then 2 else 1) ≤ w.length by omega)
    have hw2 : w2.length = rowsTaken n (cur + 1) := by
      rw [length_append, hw1] at hw
      omega
    obtain ⟨b', row, x, hturn⟩ := fillRows_turn cur b w1 hw1
    rw [hturn n w2, show n + 1 + k = n + k + 1 by omega, append_assoc, hturn (n + k) (w2 ++ v), bind_assoc]
    simp only [bind_assoc]
    rw [ih (cur + 1) b' w2 hw2, show cur + (n + 1) = cur + 1 + n by omega]

theorem nextBlock_framed (v : List UInt32) : Framed (nextBlock v) := by
  cases v with
  | nil => exact panic
  | cons x xs => exact ret _

theorem fillRows_framed (n a0 b0 : Nat) (b : Block) (v : List UInt32) : Framed (fillRows n a0 b0 b v) := by
  induction n generalizing a0 b0 b v with
  | zero => exact ret _
  | succ n ih =>
    refine bind (assert _) fun _ => bind ?_ fun r => bind (modify _ fun _ => ?_) fun v => ?_
    · exact ite (bind (nextBlock_framed v) fun _ => ret _) (ret _)
    · exact bind (nextBlock_framed _) fun _ => ret _
    · exact ite (ih _ _ _ _) (ih _ _ _ _)

/-! ## The rows -/

section
variable {cur t1 t2 : Nat} {w v : List UInt32} {s : Cells Nat Block}

/-- The index block comes first in the list, if it is a new one. -/
theorem takeIndex_append (x : UInt32) (h : cur = 0 → w ≠ []) : ∃ (i : UInt32) (w' : List UInt32),
    w.length = (if cur = 0 then 1 else 0) + w'.length ∧ ∀ v, takeIndex cur x (w ++ v) = pure (i, w' ++ v) := by
  by_cases h0 : cur = 0
  · cases w with
    | nil => exact absurd rfl (h h0)
    | cons i w' =>
      refine ⟨i, w', by rw [if_pos h0, length_cons]; omega, fun v => ?_⟩
      rw [takeIndex, if_pos h0]
      rfl
  · refine ⟨x, w, by rw [if_neg h0]; omega, fun v => ?_⟩
    rw [takeIndex, if_neg h0]

theorem takeIndex_pos (h : 0 < cur) (x : UInt32) (v : List UInt32) : takeIndex cur x v = pure (x, v) := by
  rw [takeIndex, if_neg (by omega)]

/-- The new blocks the second level takes. -/
def rowsNeeded (cur total : Nat) : Nat := (if cur = 0 then 1 else 0) + rowsTaken (total - cur) cur

/-- The closure that `increaseRows` runs on the `indirect2` block. -/
def rowsClosure (cur total : Nat) (v : List UInt32) (b : Block) : Fs (Unit × Block) := do
  let r ← fillRows (total - cur) (cur / 128) (cur % 128) b v
  pure ((), r.1)

theorem rowsClosure_framed (cur total : Nat) (v : List UInt32) (b : Block) : Framed (rowsClosure cur total v b) :=
  bind (fillRows_framed _ _ _ _ _) fun _ => ret _

variable {total : Nat}

theorem increaseRows_eq (ino : DiskInode) {i2 : UInt32} {w' : List UInt32}
    (h : takeIndex cur ino.indirect2 w = pure (i2, w')) : ino.increaseRows cur total w =
      modify i2.toNat (rowsClosure cur total w') >>= fun _ => pure { ino with indirect2 := i2 } := by
  unfold increaseRows
  rw [h]
  rfl

theorem rowsClosure_append (h1 : cur ≤ t1) (h2 : t1 ≤ t2) (hw : w.length = rowsTaken (t1 - cur) cur) (b : Block) :
    (rowsClosure cur t1 w b >>= fun r => rowsClosure t1 t2 v r.2) = rowsClosure cur t2 (w ++ v) b := by
  unfold rowsClosure
  rw [show t2 - cur = (t1 - cur) + (t2 - t1) by omega, fillRows_append _ _ _ _ _ _ hw, bind_assoc, bind_assoc,
    show cur + (t1 - cur) = t1 by omega]
  rfl

/-- Two calls lock the `indirect1` block once more in between, and leave it as it is. -/
theorem increaseRows_split (ino : DiskInode) (size : UInt32) (h0 : 0 < t1) (h1 : cur ≤ t1) (h2 : t1 ≤ t2)
    (hw : w.length = rowsNeeded cur t1) (hi : ino.indirect1.toNat ∉ s.locked) :
    exec (ino.increaseRows cur t1 w >>= fun i => (modify i.indirect1.toNat fun b => pure (v, b)) >>= fun v =>
      increaseRows { i with size := size } t1 t2 v) s =
        exec (increaseRows { ino with size := size } cur t2 (w ++ v)) s := by
  have hne : cur = 0 → w ≠ [] := by
    intro h e
    rw [e, rowsNeeded, if_pos h, length_nil] at hw
    omega
  obtain ⟨i2, w', hlen, htake⟩ := takeIndex_append ino.indirect2 hne
  have hw' : w'.length = rowsTaken (t1 - cur) cur := by
    rw [rowsNeeded] at hw
    omega
  have hfirst := htake []
  rw [append_nil, append_nil] at hfirst
  rw [increaseRows_eq ino hfirst, increaseRows_eq { ino with size := size } (htake v), bind_assoc]
  calc exec (modify i2.toNat (rowsClosure cur t1 w') >>= fun _ =>
        (modify ino.indirect1.toNat fun b => pure (v, b)) >>= fun v =>
          increaseRows { ino with size := size, indirect2 := i2 } t1 t2 v) s
      = exec (modify i2.toNat (rowsClosure cur t1 w') >>= fun _ =>
          increaseRows { ino with size := size, indirect2 := i2 } t1 t2 v) s := by
        refine exec_bind_congr fun _ t ht => ?_
        have hl : t.locked = s.locked := (modify _ (rowsClosure_framed cur t1 w')).locked ht
        exact Runs.exec_bind (Runs.modify_same (by rw [hl]; exact hi) (Runs.ret _)) _
    _ = exec (modify i2.toNat (rowsClosure cur t1 w') >>= fun _ => modify i2.toNat (rowsClosure t1 t2 v) >>= fun _ =>
          pure { ino with size := size, indirect2 := i2 }) s := by
        rw [increaseRows_eq _ (takeIndex_pos h0 _ v)]
    _ = exec ((modify i2.toNat fun b => rowsClosure cur t1 w' b >>= fun r => rowsClosure t1 t2 v r.2) >>= fun _ =>
          pure { ino with size := size, indirect2 := i2 }) s :=
        exec_modify_modify (rowsClosure_framed cur t1 w') (fun _ => rowsClosure_framed t1 t2 v) _ s
    _ = _ := by
        rw [funext (rowsClosure_append (v := v) h1 h2 hw')]

/-! ## The first level -/

/-- The new blocks past the direct ones. -/
def indirectNeeded (cur total : Nat) : Nat :=
  (if cur = 0 then 1 else 0) + (min total 128 - cur) + if total > 128 then rowsNeeded (max cur 128 - 128) (total - 128) else 0

/-- The closure that `increaseIndirect` runs on the `indirect1` block. -/
def indirectClosure (cur total : Nat) (v : List UInt32) (b : Block) : Fs (List UInt32 × Block) := do
  let r ← fill Block.setEntry (min total 128 - cur) cur b v
  pure (r.2, r.1)

theorem indirectClosure_framed (cur total : Nat) (v : List UInt32) (b : Block) : Framed (indirectClosure cur total v b) :=
  bind (fill_framed _ _ _ _) fun _ => ret _

theorem indirectClosure_append (hw : w.length = t1 - cur) (h1 : cur ≤ t1) (h2 : t1 ≤ min t2 128) (b : Block) :
    indirectClosure cur t2 (w ++ v) b = indirectClosure t1 t2 v (putAll setEntry cur b w) := by
  unfold indirectClosure
  rw [show min t2 128 - cur = w.length + (min t2 128 - t1) by omega, fill_append, show cur + w.length = t1 by omega]

theorem indirectClosure_all (hw : w.length = min total 128 - cur) (b : Block) :
    indirectClosure cur total (w ++ v) b = pure (v, putAll setEntry cur b w) := by
  unfold indirectClosure
  rw [← hw, fill_all]
  rfl

theorem increaseIndirect_eq (ino : DiskInode) {i1 : UInt32} {w' : List UInt32}
    (h : takeIndex cur ino.indirect1 w = pure (i1, w')) : ino.increaseIndirect cur total w =
      modify i1.toNat (indirectClosure cur total w') >>= fun v =>
        if total > 128 then increaseRows { ino with indirect1 := i1 } (max cur 128 - 128) (total - 128) v
        else pure { ino with indirect1 := i1 } := by
  unfold increaseIndirect
  rw [h]
  rfl

theorem increaseIndirect_split (ino : DiskInode) (size : UInt32) (h0 : 0 < t1) (h1 : cur ≤ t1) (h2 : t1 ≤ t2)
    (hw : w.length = indirectNeeded cur t1) (s : Cells Nat Block) :
    exec (ino.increaseIndirect cur t1 w >>= fun i => increaseIndirect { i with size := size } t1 t2 v) s =
      exec (increaseIndirect { ino with size := size } cur t2 (w ++ v)) s := by
  have hne : cur = 0 → w ≠ [] := by
    intro h e
    rw [e, indirectNeeded, if_pos h, length_nil] at hw
    omega
  obtain ⟨i1, w', hlen, htake⟩ := takeIndex_append ino.indirect1 hne
  have hfirst := htake []
  rw [append_nil, append_nil] at hfirst
  rw [increaseIndirect_eq ino hfirst, increaseIndirect_eq { ino with size := size } (htake v), bind_assoc]
  rw [indirectNeeded] at hw
  by_cases h128 : t1 > 128
  · -- the first call is past this level: the second one finds nothing to do in the `indirect1` block
    rw [if_pos h128] at hw
    obtain ⟨w1, w2, rfl, hw1⟩ := exists_append (l := w') (c := min t1 128 - cur) (by omega)
    have hw2 : w2.length = rowsNeeded (max cur 128 - 128) (t1 - 128) := by
      rw [length_append] at hlen
      omega
    have hsame : ∀ b, indirectClosure t1 t2 v b = pure (v, b) := by
      intro b
      exact indirectClosure_all (w := []) (by rw [length_nil]; omega) b
    simp only [if_pos h128, if_pos (show t2 > 128 by omega), append_assoc]
    rw [funext (indirectClosure_all (v := w2) hw1),
      funext (indirectClosure_all (v := w2 ++ v) (show w1.length = min t2 128 - cur by omega))]
    show exec ((modify i1.toNat fun b => pure ((), putAll setEntry cur b w1)) >>= fun _ =>
        increaseRows { ino with indirect1 := i1 } (max cur 128 - 128) (t1 - 128) w2 >>= fun i =>
          increaseIndirect { i with size := size } t1 t2 v) s =
      exec ((modify i1.toNat fun b => pure ((), putAll setEntry cur b w1)) >>= fun _ =>
        increaseRows { ino with size := size, indirect1 := i1 } (max cur 128 - 128) (t2 - 128) (w2 ++ v)) s
    refine exec_bind_congr fun _ t ht => ?_
    have hfr : ∀ b : Block, Framed (pure ((), putAll setEntry cur b w1) : Fs (Unit × Block)) := fun b => ret _
    have hl : t.locked = s.locked := (modify _ hfr).locked ht
    rw [exec_modify_framed hfr] at ht
    have hi : i1.toNat ∉ t.locked := by
      rw [hl]
      exact (Option.ite_none_left_eq_some.mp ht).1
    have hle : max cur 128 - 128 ≤ t1 - 128 := by omega
    have hle' : t1 - 128 ≤ t2 - 128 := by omega
    rw [← increaseRows_split { ino with indirect1 := i1 } size (by omega) hle hle' hw2 hi]
    refine exec_bind_congr fun i u _ => ?_
    rw [increaseIndirect_eq _ (takeIndex_pos h0 _ v), funext hsame]
    simp only [if_pos (show t2 > 128 by omega), show max t1 128 - 128 = t1 - 128 by omega]
  · rw [if_neg h128] at hw
    have hw' : w'.length = min t1 128 - cur := by omega
    have hall := fun b => indirectClosure_all (v := []) hw' b
    simp only [append_nil] at hall
    have hrest : max cur 128 - 128 = max t1 128 - 128 := by omega
    calc exec (modify i1.toNat (indirectClosure cur t1 w') >>= fun _ =>
          (if t1 > 128 then _ else pure { ino with indirect1 := i1 }) >>= fun i =>
            increaseIndirect { i with size := size } t1 t2 v) s
        = exec (modify i1.toNat (indirectClosure cur t1 w') >>= fun _ =>
            modify i1.toNat (indirectClosure t1 t2 v) >>= fun v => if t2 > 128 then
              increaseRows { ino with size := size, indirect1 := i1 } (max t1 128 - 128) (t2 - 128) v
              else pure { ino with size := size, indirect1 := i1 }) s := by
          refine exec_bind_congr fun r t _ => ?_
          rw [if_neg h128]
          show exec (increaseIndirect { ino with size := size, indirect1 := i1 } t1 t2 v) t = _
          rw [increaseIndirect_eq _ (takeIndex_pos h0 _ v)]
      _ = exec ((modify i1.toNat fun b => indirectClosure cur t1 w' b >>= fun r => indirectClosure t1 t2 v r.2) >>= fun v =>
            if t2 > 128 then increaseRows { ino with size := size, indirect1 := i1 } (max t1 128 - 128) (t2 - 128) v
            else pure { ino with size := size, indirect1 := i1 }) s :=
          exec_modify_modify (indirectClosure_framed cur t1 w') (fun _ => indirectClosure_framed t1 t2 v) _ s
      _ = _ := by
          have hle : t1 ≤ min t2 128 := by omega
          rw [hrest, funext hall, funext (indirectClosure_append (v := v) (show w'.length = t1 - cur by omega) h1 hle)]
          rfl

end

/-! ## The whole of `increase_size` -/

theorem putAll_append {α : Type} (put : α → Nat → UInt32 → α) (cur : Nat) (a : α) (w v : List UInt32) :
    putAll put cur a (w ++ v) = putAll put (cur + w.length) (putAll put cur a w) v := by
  induction w generalizing cur a with
  | nil => rfl
  | cons x xs ih =>
    rw [cons_append, putAll, ih, putAll, length_cons, show cur + (xs.length + 1) = cur + 1 + xs.length by omega]

theorem totalFor_sub {n m : Nat} (h : n ≤ m) : totalFor m - totalFor n =
    (min m 28 - n) + if m > 28 then indirectNeeded (max n 28 - 28) (m - 28) else 0 := by
  simp only [totalFor, indirectNeeded, rowsNeeded, rowsTaken_eq]
  -- both counts lie among the direct blocks, in the first level or in the second
  have hcases : m ≤ 28 ∨ (28 < m ∧ m ≤ 156 ∧ n ≤ 28) ∨ (28 < m ∧ m ≤ 156 ∧ 28 < n) ∨ (156 < m ∧ n ≤ 28) ∨
      (156 < m ∧ 28 < n ∧ n ≤ 156) ∨ (156 < m ∧ 156 < n) := by omega
  rcases hcases with hm | ⟨hm, hm', hn⟩ | ⟨hm, hm', hn⟩ | ⟨hm, hn⟩ | ⟨hm, hn, hn'⟩ | ⟨hm, hn⟩ <;>
    simp (disch := omega) only [if_pos, if_neg, if_true, Nat.max_eq_left, Nat.max_eq_right, Nat.min_eq_left, Nat.min_eq_right] <;> omega

theorem increaseSize_eq (ino : DiskInode) (newSize : UInt32) {w v : List UInt32}
    (hw : w.length = min (dataBlocksOf newSize) 28 - ino.dataBlocks) : ino.increaseSize newSize (w ++ v) =
      if dataBlocksOf newSize > 28 then
        increaseIndirect { ino with size := newSize, direct := putAll Arr.set ino.dataBlocks ino.direct w }
          (max ino.dataBlocks 28 - 28) (dataBlocksOf newSize - 28) v
      else pure { ino with size := newSize, direct := putAll Arr.set ino.dataBlocks ino.direct w } := by
  unfold DiskInode.increaseSize
  dsimp only
  rw [← hw, fill_all]
  rfl

theorem increaseSize_split (ino : DiskInode) {s1 s2 : UInt32} {v1 v2 : List UInt32}
    (h1 : ino.dataBlocks ≤ dataBlocksOf s1) (h2 : dataBlocksOf s1 ≤ dataBlocksOf s2)
    (hv1 : v1.length = totalBlocks s1 - totalFor ino.dataBlocks)
    (hv2 : v2.length = totalBlocks s2 - totalBlocks s1) (s : Cells Nat Block) :
    exec (ino.increaseSize s1 v1 >>= fun i => i.increaseSize s2 v2) s = exec (ino.increaseSize s2 (v1 ++ v2)) s := by
  rw [totalBlocks, totalFor_sub h1] at hv1
  rw [totalBlocks, totalBlocks, totalFor_sub h2] at hv2
  by_cases h28 : dataBlocksOf s1 > 28
  · -- the second call adds no direct block
    rw [if_pos h28] at hv1
    obtain ⟨w, rest, rfl, hw⟩ := exists_append (l := v1) (c := min (dataBlocksOf s1) 28 - ino.dataBlocks) (by omega)
    rw [length_append] at hv1
    have hle : max ino.dataBlocks 28 - 28 ≤ dataBlocksOf s1 - 28 := by omega
    have hle' : dataBlocksOf s1 - 28 ≤ dataBlocksOf s2 - 28 := by omega
    rw [increaseSize_eq ino s1 hw, if_pos h28, append_assoc, increaseSize_eq ino s2 (by omega), if_pos (by omega),
      ← increaseIndirect_split { ino with size := s1, direct := putAll Arr.set ino.dataBlocks ino.direct w } s2 (by omega) hle hle'
        (by omega)]
    refine exec_bind_congr fun i t hi => ?_
    have hsize : i.dataBlocks = dataBlocksOf s1 := by rw [dataBlocks, increaseIndirect_size _ hi]
    have hsecond := increaseSize_eq i s2 (w := []) (v := v2) (by rw [length_nil, hsize]; omega)
    rw [nil_append] at hsecond
    rw [hsecond, if_pos (by omega), hsize, show max (dataBlocksOf s1) 28 - 28 = dataBlocksOf s1 - 28 by omega]
    rfl
  · rw [if_neg h28] at hv1
    obtain ⟨w, rest, rfl, hw⟩ := exists_append (l := v2) (c := min (dataBlocksOf s2) 28 - dataBlocksOf s1) (by omega)
    have hfirst := increaseSize_eq ino s1 (w := v1) (v := []) (by omega)
    rw [append_nil, if_neg h28] at hfirst
    rw [hfirst]
    have hsecond := increaseSize_eq { ino with size := s1, direct := putAll Arr.set ino.dataBlocks ino.direct v1 } s2 (v := rest) hw
    have hlen : ino.dataBlocks + v1.length = dataBlocksOf s1 := by omega
    rw [← append_assoc, increaseSize_eq ino s2 (by rw [length_append]; omega), putAll_append, hlen,
      show max ino.dataBlocks 28 - 28 = max (dataBlocksOf s1) 28 - 28 by omega]
    exact congrArg (exec · s) hsecond

section
variable {L : List Nat} {s : Growth} {s1 s2 : UInt32} {v1 v2 : List UInt32}

/-- The inode, every block and the locks are the same after two calls as after one, whatever the lists
hold; with fresh blocks both ways return. -/
theorem growth_path_independent (hs : Grows L s) (h1 : s.ino.size ≤ s1) (h2 : s1 ≤ s2) (hmax : s2.toNat ≤ 16540 * 512)
    (hv1 : Runs (s.ino.blocksNumNeeded s1) L s.disk v1.length s.disk)
    (hv2 : Runs (blocksNumNeeded { s.ino with size := s1 } s2) L s.disk v2.length s.disk) :
    exec (s.ino.increaseSize s1 v1 >>= fun i => i.increaseSize s2 v2) ⟨s.disk, L⟩ =
        exec (s.ino.increaseSize s2 (v1 ++ v2)) ⟨s.disk, L⟩ ∧
      ((v1 ++ v2).Nodup → (∀ x ∈ v1 ++ v2, x ∉ s.taken ∧ x.toNat ∉ L) →
        ∃ ino' d', Runs (s.ino.increaseSize s2 (v1 ++ v2)) L s.disk ino' d') := by
  have h1' := UInt32.le_iff_toNat_le.mp h1
  have h2' := UInt32.le_iff_toNat_le.mp h2
  have hn := hs.inv.dataBlocks_eq
  have hn1 : dataBlocksOf s1 = (s1.toNat + 511) / 512 := dataBlocksOf_eq (by omega)
  have hn2 : dataBlocksOf s2 = (s2.toNat + 511) / 512 := dataBlocksOf_eq hmax
  have hlen1 := ((blocksNumNeeded_runs h1' (by omega)).det hv1).1
  have hasked2 : Runs (blocksNumNeeded { s.ino with size := s1 } s2) L s.disk
      (totalBlocks s2 - totalBlocks s1) s.disk := blocksNumNeeded_runs h2' hmax
  have hlen2 := (hasked2.det hv2).1
  refine ⟨increaseSize_split s.ino (by omega) (by omega) hlen1.symm hlen2.symm _, fun hnd hfresh => ?_⟩
  have hmono1 : totalBlocks s.ino.size ≤ totalBlocks s1 :=
    totalBlocks_mono (show s.ino.dataBlocks ≤ _ by omega)
  have hmono2 : totalBlocks s1 ≤ totalBlocks s2 := totalBlocks_mono (by omega)
  have hasked : Runs (s.ino.blocksNumNeeded s2) L s.disk (v1 ++ v2).length s.disk := by
    rw [length_append, ← hlen1, ← hlen2]
    show Runs _ _ _ (totalBlocks s1 - totalBlocks s.ino.size +
      (totalBlocks s2 - totalBlocks s1)) _
    rw [show totalBlocks s1 - totalBlocks s.ino.size +
      (totalBlocks s2 - totalBlocks s1) = totalBlocks s2 - totalBlocks s.ino.size by omega]
    exact blocksNumNeeded_runs (by omega) hmax
  obtain ⟨ino', d', hg⟩ := hs.inv.increaseSize ⟨UInt32.le_iff_toNat_le.mpr (by omega), hmax, hasked, hnd, hfresh⟩
  exact ⟨ino', d', hg.runs⟩

end

/-- 20 data blocks and then 9 more with `indirect1`, or 29 at once. -/
theorem growth_path_independent_29 : exec ((reset .file).increaseSize 10240 ((List.range 20).map UInt32.ofNat) >>= fun i =>
      i.increaseSize 14848 ((List.range' 20 10).map UInt32.ofNat)) ⟨fun _ => Block.zero, []⟩ =
    exec ((reset .file).increaseSize 14848 ((List.range 30).map UInt32.ofNat)) ⟨fun _ => Block.zero, []⟩ := by
  have h1 : (reset .file).size ≤ 10240 := by decide
  have hv1 : Runs ((reset .file).blocksNumNeeded 10240) [] (fun _ => Block.zero)
      ((List.range 20).map UInt32.ofNat).length fun _ => Block.zero := blocksNumNeeded_runs (by decide) (by decide)
  have hv2 : Runs (blocksNumNeeded { reset .file with size := 10240 } 14848) [] (fun _ => Block.zero)
      ((List.range' 20 10).map UInt32.ofNat).length fun _ => Block.zero := blocksNumNeeded_runs (by decide) (by decide)
  exact (growth_path_independent (.reset (fun _ => Block.zero) .file) h1 (by decide) (by decide) hv1 hv2).1

end TCore.EasyFs
