/-
  TCore.Lib.Frame — programs that run while a cell is locked.

  A program that gives back the locks it takes and no others neither looks at a cell that is locked
  already nor writes it (`Framed`). What such a closure leaves in the cell can therefore be stored at
  once or later.

  - `exec_modify_modify`: two closures run one after the other on a cell are one closure.
-/

import TCore.Lib.Prog

namespace TCore.Lib

open Option Prog Cells Function

variable {κ β α γ : Type} [DecidableEq κ]

/-- The store with the value of one cell replaced. -/
def Cells.put (s : Cells κ β) (k : κ) (b : β) : Cells κ β := { s with val := Function.update s.val k b }

structure Framed (p : Prog κ β α) : Prop where
  locked : ∀ {s t : Cells κ β} {a : α}, exec p s = some (a, t) → t.locked = s.locked
  cell : ∀ {s : Cells κ β} {k : κ} (b : β), k ∈ s.locked →
    exec p (s.put k b) = (exec p s).map fun r => (r.1, r.2.put k b)

variable {f : β → Prog κ β (α × β)}

/-- A closure that gives back what it locks. -/
theorem exec_modify_framed {k : κ} (hf : ∀ b, Framed (f b)) (s : Cells κ β) :
    exec (Prog.modify k f) s = if k ∈ s.locked then none
      else (exec (f (s.val k)) ⟨s.val, k :: s.locked⟩).map fun r => (r.1.1, (⟨r.2.val, s.locked⟩ : Cells κ β).put k r.1.2) := by
  simp only [Prog.modify, exec, exec_bind]
  refine if_congr Iff.rfl rfl ?_
  cases hr : exec (f (s.val k)) ⟨s.val, k :: s.locked⟩ with
  | none => rfl
  | some r =>
    have hl : r.2.locked = k :: s.locked := (hf _).locked hr
    simp only [bind_some, map_some, hl, List.mem_cons_self, if_true, List.erase_cons_head, Cells.put]

variable {p : Prog κ β α}

namespace Framed

theorem ret (a : α) : Framed (pure a : Prog κ β α) where
  locked := by
    intro s t b h
    cases h
    rfl
  cell := by
    intro s k b hk
    rfl

theorem panic : Framed (.panic : Prog κ β α) where
  locked := by
    intro s t b h
    cases h
  cell := by
    intro s k b hk
    rfl

theorem bind {g : α → Prog κ β γ} (hp : Framed p) (hg : ∀ a, Framed (g a)) : Framed (p >>= g) where
  locked := by
    intro s t c h
    obtain ⟨a, u, h1, h2⟩ := exec_bind_some h
    rw [(hg a).locked h2, hp.locked h1]
  cell := by
    intro s k b hk
    rw [exec_bind, exec_bind, hp.cell b hk]
    cases hr : exec p s with
    | none => rfl
    | some r =>
      have hk' : k ∈ r.2.locked := by
        rw [hp.locked hr]
        exact hk
      exact (hg r.1).cell b hk'

theorem assert (c : Prop) [Decidable c] : Framed (Prog.assert c : Prog κ β Unit) := by
  unfold Prog.assert
  split
  · exact ret ()
  · exact panic

theorem ite {c : Prop} {_ : Decidable c} {q : Prog κ β α} (hp : Framed p) (hq : Framed q) :
    Framed (if c then p else q) := by
  split
  · exact hp
  · exact hq

theorem modify (k : κ) (hf : ∀ b, Framed (f b)) : Framed (modify k f) where
  locked := by
    intro s t a h
    rw [exec_modify_framed hf] at h
    obtain ⟨-, h⟩ := ite_none_left_eq_some.mp h
    obtain ⟨r, -, heq⟩ := map_eq_some_iff.mp h
    rw [← (Prod.mk.inj heq).2]
    rfl
  cell := by
    intro s j b hj
    rw [exec_modify_framed hf, exec_modify_framed hf]
    by_cases hk : k ∈ s.locked
    · rw [if_pos hk, if_pos (show k ∈ (s.put j b).locked from hk)]
      rfl
    · have hne : k ≠ j := fun e => hk (e ▸ hj)
      have hval : (s.put j b).val k = s.val k := update_of_ne hne _ _
      have hcell := (hf (s.val k)).cell (s := ⟨s.val, k :: s.locked⟩) b (List.mem_cons_of_mem k hj)
      rw [if_neg hk, if_neg (show k ∉ (s.put j b).locked from hk), hval]
      show (exec (f (s.val k)) (put ⟨s.val, k :: s.locked⟩ j b)).map _ = _
      rw [hcell, map_map, map_map]
      refine congrArg (Option.map · _) (funext fun r => ?_)
      simp only [comp_apply, put, update_comm hne]

end Framed

/-- What follows only has to be the same where the first program leads. -/
theorem exec_bind_congr {f g : α → Prog κ β γ} {s : Cells κ β}
    (h : ∀ a t, exec p s = some (a, t) → exec (f a) t = exec (g a) t) : exec (p >>= f) s = exec (p >>= g) s := by
  rw [exec_bind, exec_bind]
  cases hr : exec p s with
  | none => rfl
  | some r => exact h r.1 r.2 hr

theorem exec_modify_modify {δ : Type} {k : κ} {g : α → β → Prog κ β (γ × β)}
    (hf : ∀ b, Framed (f b)) (hg : ∀ a b, Framed (g a b)) (h : γ → Prog κ β δ) (s : Cells κ β) :
    exec (modify k f >>= fun a => modify k (g a) >>= h) s =
      exec ((modify k fun b => f b >>= fun r => g r.1 r.2) >>= h) s := by
  have hfg : ∀ b, Framed (f b >>= fun r => g r.1 r.2) := fun b => (hf b).bind fun r => hg r.1 r.2
  rw [exec_bind, exec_bind (modify k _) h, exec_modify_framed hf, exec_modify_framed hfg]
  by_cases hk : k ∈ s.locked
  · rw [if_pos hk, if_pos hk]
    rfl
  · rw [if_neg hk, if_neg hk, exec_bind]
    cases hr : exec (f (s.val k)) ⟨s.val, k :: s.locked⟩ with
    | none => rfl
    | some r =>
      obtain ⟨⟨a, b⟩, t⟩ := r
      have hl : t.locked = k :: s.locked := (hf _).locked hr
      have hval : (put ⟨t.val, s.locked⟩ k b).val k = b := update_self _ _ _
      have hcell := (hg a b).cell (s := t) (k := k) b (by rw [hl]; exact List.mem_cons_self)
      have ht : (⟨(put ⟨t.val, s.locked⟩ k b).val, k :: (put ⟨t.val, s.locked⟩ k b).locked⟩ : Cells κ β) =
          t.put k b := by
        rw [put, put, hl]
      simp only [map_some, bind_some]
      rw [exec_bind, exec_modify_framed (hg a), if_neg (show k ∉ (put ⟨t.val, s.locked⟩ k b).locked from hk), hval, ht, hcell]
      cases exec (g a b) t with
      | none => rfl
      | some q => simp only [map_some, bind_some, put, update_idem]

end TCore.Lib
