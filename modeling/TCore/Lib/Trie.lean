/-
  TCore.Lib.Trie — tries whose nodes are the cells of a memory.

  A cell has a word for every index; `child` says which cell a word leads to. A path leads from the
  root to a node. `Built n` says that the nodes of the first `n` levels are among the cells in use and
  that no cell is two of them; the words of level `n - 1` are the leaves.

  - `Built.node_congr`: other cells do not matter.
  - `Built.node_leaf`: writing a leaf moves no node.
  - `Built.node_hang`: hanging a fresh cell under a node adds one node.
-/

import Mathlib.Tactic

namespace TCore.Lib.Trie

open Option
open Function (update update_of_ne update_self)
open List

variable {κ ι ω : Type} (child : ω → Option κ)

/-- The node a path leads to. -/
def node (mem : κ → ι → ω) : κ → List ι → Option κ
  | k, [] => some k
  | k, i :: p => (child (mem k i)).bind fun j => node mem j p

structure Built (n : Nat) (mem : κ → ι → ω) (root : κ) (used : κ → Prop) : Prop where
  used : ∀ p k, p.length < n → node child mem root p = some k → used k
  inj : ∀ p q k, p.length < n → q.length < n → node child mem root p = some k → node child mem root q = some k → p = q

variable {child} {n : Nat} {mem mem' : κ → ι → ω} {root k f : κ} {used used' : κ → Prop} {i : ι} {p q : List ι} {w : ω}

theorem node_append (p q : List ι) :
    node child mem root (p ++ q) = (node child mem root p).bind fun k => node child mem k q := by
  induction p generalizing root with
  | nil => rfl
  | cons i p ih =>
    rw [cons_append, node, node, bind_assoc]
    exact congrArg _ (funext fun j => ih)

theorem node_snoc (h : node child mem root p = some k) : node child mem root (p ++ [i]) = child (mem k i) := by
  rw [node_append, h, bind_some, node]
  cases child (mem k i) <;> rfl

/-- What a path can lead through: the words of the nodes before its end. -/
theorem node_eq (h : ∀ r j k, r ++ [j] <+: q → node child mem root r = some k → child (mem' k j) = child (mem k j)) :
    node child mem' root q = node child mem root q := by
  induction q using reverseRecOn with
  | nil => rfl
  | append_singleton q j ih =>
    have hq := ih fun r j' k hr => h r j' k (hr.trans (prefix_append q [j]))
    cases hk : node child mem root q with
    | none => rw [node_append, node_append, hq, hk, bind_none, bind_none]
    | some k =>
      rw [hk] at hq
      rw [node_snoc hk, node_snoc hq]
      exact h q j k prefix_rfl hk

theorem length_lt_of_snoc {r : List ι} {j : ι} (h : r ++ [j] <+: q) (hq : q.length ≤ n) : r.length < n := by
  have := h.length_le
  rw [length_append, length_singleton] at this
  omega

namespace Built

section

variable (h : Built child n mem root used)
include h

theorem root_used (hn : 0 < n) : used root := h.used [] root hn rfl

theorem node_congr (hm : ∀ k, used k → mem' k = mem k) (hq : q.length ≤ n) :
    node child mem' root q = node child mem root q := by
  apply node_eq
  intro r j k hr hk
  rw [hm k (h.used r k (length_lt_of_snoc hr hq) hk)]

theorem congr (hm : ∀ k, used k → mem' k = mem k) : Built child n mem' root used := by
  have heq : ∀ q, q.length < n → node child mem' root q = node child mem root q :=
    fun q hq => h.node_congr hm hq.le
  refine ⟨fun p k hp hk => ?_, fun p q k hp hq hk hk' => ?_⟩
  · rw [heq p hp] at hk
    exact h.used p k hp hk
  · rw [heq p hp] at hk
    rw [heq q hq] at hk'
    exact h.inj p q k hp hq hk hk'

theorem mono (hu : ∀ k, used k → used' k) : Built child n mem root used' :=
  ⟨fun p k hp hk => hu k (h.used p k hp hk), h.inj⟩

end

variable [DecidableEq κ] [DecidableEq ι]

/-! ## Leaves -/

section

variable (h : Built child n mem root used) (hp : p.length + 1 = n) (hk : node child mem root p = some k)
include h hp hk

theorem node_leaf
    (hq : q.length < n) :
    node child (update mem k (update (mem k) i w)) root q = node child mem root q := by
  apply node_eq
  intro r j k' hr hk'
  -- a node that a path goes on from is not one of the last level
  have hlen : r.length + 1 ≤ q.length := by simpa using hr.length_le
  have hne : k' ≠ k := by
    rintro rfl
    have := h.inj r p k' (by omega) (by omega) hk' hk
    subst this
    omega
  rw [update_of_ne hne]

theorem leaf :
    Built child n (update mem k (update (mem k) i w)) root used := by
  refine ⟨fun q j hq hj => ?_, fun q r j hq hr hj hj' => ?_⟩
  · rw [h.node_leaf hp hk hq] at hj
    exact h.used q j hq hj
  · rw [h.node_leaf hp hk hq] at hj
    rw [h.node_leaf hp hk hr] at hj'
    exact h.inj q r j hq hr hj hj'

end

/-! ## A new node -/

variable {zero : ι → ω}

/-- The memory with cell `f` cleared and the word `w`, which leads to it, at index `i` of cell `k`. -/
def hung (mem : κ → ι → ω) (zero : ι → ω) (k f : κ) (i : ι) (w : ω) : κ → ι → ω :=
  Function.update (Function.update mem f zero) k (Function.update (Function.update mem f zero k) i w)

section
variable (h : Built child n mem root used) (hp : p.length + 1 < n) (hk : node child mem root p = some k)
  (hi : child (mem k i) = none) (hf : ¬used f) (hw : child w = some f) (hz : ∀ j, child (zero j) = none)

include h hk hp hf

omit [DecidableEq κ] [DecidableEq ι] in
theorem fresh_ne : k ≠ f := by
  rintro rfl
  exact hf (h.used p k (by omega) hk)

theorem hung_self : hung mem zero k f i w f = zero := by
  rw [hung, update_of_ne (h.fresh_ne hp hk hf).symm, update_self]

theorem node_hung_old (hq : q.length < n) (hnot : ¬p ++ [i] <+: q) :
    node child (hung mem zero k f i w) root q = node child mem root q := by
  apply node_eq
  intro r j k' hr hk'
  have hlen : r.length + 1 ≤ q.length := by simpa using hr.length_le
  by_cases hkk : k' = k
  · subst hkk
    have hrp := h.inj r p k' (by omega) (by omega) hk' hk
    subst hrp
    have hji : j ≠ i := by
      rintro rfl
      exact hnot hr
    rw [hung, update_self, update_of_ne hji, update_of_ne (h.fresh_ne hp hk hf)]
  · have hkf : k' ≠ f := by
      rintro rfl
      exact hf (h.used r k' (by omega) hk')
    rw [hung, update_of_ne hkk, update_of_ne hkf]

include hw

theorem node_hung_new : node child (hung mem zero k f i w) root (p ++ [i]) = some f := by
  have hnot : ¬p ++ [i] <+: p := fun hpre => by simpa using hpre.length_le
  have hsame : node child (hung mem zero k f i w) root p = some k :=
    (h.node_hung_old hp hk hf (by omega) hnot).trans hk
  rw [node_snoc hsame, hung, update_self, update_self, hw]

include hz

theorem node_hung_below {j : ι} {r : List ι} : node child (hung mem zero k f i w) root (p ++ [i] ++ j :: r) = none := by
  rw [node_append, h.node_hung_new hp hk hf hw, bind_some, node, h.hung_self hp hk hf, hz j, bind_none]

include hi

/-- The paths after a new node has been hung: the one to it, and those there were before. -/
theorem node_hung (hq : q.length < n) : node child (hung mem zero k f i w) root q =
    if q = p ++ [i] then some f else node child mem root q := by
  by_cases hpre : p ++ [i] <+: q
  · obtain ⟨r, rfl⟩ := hpre
    cases r with
    | nil =>
      rw [append_nil, if_pos rfl]
      exact h.node_hung_new hp hk hf hw
    | cons j r =>
      rw [if_neg (by simp), h.node_hung_below hp hk hf hw hz, node_append, node_snoc hk, hi, bind_none]
  · have hne : q ≠ p ++ [i] := by
      rintro rfl
      exact hpre prefix_rfl
    rw [if_neg hne]
    exact h.node_hung_old hp hk hf hq hpre

theorem hang : Built child n (hung mem zero k f i w) root fun x => used x ∨ x = f := by
  refine ⟨fun q x hq hx => ?_, fun q r x hq hr hx hx' => ?_⟩
  · rw [h.node_hung hp hk hi hf hw hz hq] at hx
    split at hx
    · cases hx
      exact .inr rfl
    · exact .inl (h.used q x hq hx)
  · rw [h.node_hung hp hk hi hf hw hz hq] at hx
    rw [h.node_hung hp hk hi hf hw hz hr] at hx'
    by_cases hqp : q = p ++ [i]
    · by_cases hrp : r = p ++ [i]
      · rw [hqp, hrp]
      · rw [if_pos hqp, some.injEq] at hx
        rw [if_neg hrp] at hx'
        exact absurd (h.used r x hr hx') (hx ▸ hf)
    · rw [if_neg hqp] at hx
      by_cases hrp : r = p ++ [i]
      · rw [if_pos hrp, some.injEq] at hx'
        exact absurd (h.used q x hq hx) (hx' ▸ hf)
      · rw [if_neg hrp] at hx'
        exact h.inj q r x hq hr hx hx'

end

end Built

end TCore.Lib.Trie
