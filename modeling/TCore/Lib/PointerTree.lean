/-
  TCore.Lib.PointerTree — trees whose edges are pointers kept in a store.

  A node of the tree is reached from its parent: the parent's cell in the store holds, in the
  slot of the child, the child's address. Top nodes have a root pointer instead. `Shape` says
  which node hangs where, and `Follows` that a function gives every node the address one finds
  by walking down from the roots.

  - `eqOn`: addresses in a set of nodes closed under parents depend only on the roots and on
    the slots of that set.
  - `eqOn_hang`: hanging a new node under an old one moves no old node, as long as the old
    nodes lie in different cells.
-/

import Mathlib.Tactic

namespace TCore.Lib

open Function

variable {ρ κ β : Type}

structure Shape (ρ : Type) where
  parent : ρ → Option ρ
  slot : ρ → Nat
  depth : ρ → Nat
  depth_parent : ∀ {r p}, parent r = some p → depth p < depth r
  slot_inj : ∀ {r r' p}, parent r = some p → parent r' = some p → slot r = slot r' → r = r'

namespace Shape

variable (S : Shape ρ)

/-- With a node, its parent. -/
def Closed (R : ρ → Prop) : Prop := ∀ r p, R r → S.parent r = some p → R p

structure Follows (cell : β → Nat → κ) (root : ρ → κ) (d : κ → β) (ptr : ρ → κ) : Prop where
  root : ∀ r, S.parent r = none → ptr r = root r
  child : ∀ r p, S.parent r = some p → ptr r = cell (d (ptr p)) (S.slot r)

variable {S} {R : ρ → Prop} {cell : β → Nat → κ} {root root' : ρ → κ} {d d' : κ → β} {ptr ptr' : ρ → κ}

theorem Closed.push {n : ρ} (hR : S.Closed R) (hn : ∀ p, S.parent n = some p → R p) :
    S.Closed fun r => R r ∨ r = n := by
  rintro r p (hr | rfl) hp
  · exact Or.inl (hR r p hr hp)
  · exact Or.inl (hn p hp)

theorem Follows.eqOn (h : S.Follows cell root d ptr) (h' : S.Follows cell root' d' ptr') (hR : S.Closed R)
    (hroot : ∀ r, R r → S.parent r = none → root' r = root r)
    (hcell : ∀ r p, R r → S.parent r = some p → cell (d' (ptr p)) (S.slot r) = cell (d (ptr p)) (S.slot r))
    (r : ρ) (hr : R r) : ptr' r = ptr r := by
  -- induction on how deep the node hangs
  generalize hn : S.depth r = n
  induction n using Nat.strong_induction_on generalizing r with
  | _ n ih =>
    cases hp : S.parent r with
    | none => rw [h.root r hp, h'.root r hp, hroot r hr hp]
    | some p =>
      have hpp := ih _ (hn ▸ S.depth_parent hp) p (hR r p hr hp) rfl
      rw [h'.child r p hp, h.child r p hp, hpp, hcell r p hr hp]

variable [DecidableEq κ]

theorem Follows.eqOn_hang {n p : ρ} {b : β} (h : S.Follows cell root d ptr)
    (h' : S.Follows cell root (update d (ptr p) b) ptr') (hR : S.Closed R)
    (hinj : ∀ r r', R r → R r' → ptr r = ptr r' → r = r') (hn : ¬R n) (hp : S.parent n = some p) (hRp : R p)
    (hb : ∀ i ≠ S.slot n, cell b i = cell (d (ptr p)) i) (r : ρ) (hr : R r) : ptr' r = ptr r := by
  refine h.eqOn h' hR (fun _ _ _ => rfl) (fun s q hs hq => ?_) r hr
  by_cases hqp : q = p
  · subst hqp
    rw [update_self]
    refine hb _ fun e => hn ?_
    rwa [← S.slot_inj hq hp e]
  · rw [update_of_ne]
    exact fun e => hqp (hinj q p (hR s q hs hq) hRp e)

end Shape

end TCore.Lib
