/-
  TCore.Lib.Prog — programs over a store of locked cells.

  A program locks a cell and sees its value, writes a locked cell, drops the lock, flushes
  the store, stops with a result, or panics. The program says nothing about how the store
  is kept: it is a tree that any store can run.

  `exec` runs it on the plain store (a value for every cell, and the cells locked now).
  Locking a locked cell never returns, and neither does flushing while a cell is locked;
  both are `none`, like a panic. Only a locked cell can be written or unlocked.

  - `Runs p L d a d'`: with the cells `L` locked, `p` turns the cells `d` into `d'`, answers
    `a` and drops every lock it took; one rule per way programs are built.
  - `ReadOnly`: a program that leaves every cell as it was, whatever it finds there.
  - `Fits n h p h'`: started with `h` locks held, `p` never holds more than `n` and ends with
    `h'`, whatever it finds in the cells. `NoStore`: no way through `p` writes a cell.
-/

import Mathlib.Tactic

namespace TCore.Lib

open Function List

inductive Prog (κ β α : Type) where
  | ret (a : α)
  | panic
  | lock (k : κ) (f : β → Prog κ β α)
  | store (k : κ) (b : β) (p : Prog κ β α)
  | unlock (k : κ) (p : Prog κ β α)
  | sync (p : Prog κ β α)

namespace Prog

variable {κ β α γ : Type}

def bind : Prog κ β α → (α → Prog κ β γ) → Prog κ β γ
  | .ret a, g => g a
  | .panic, _ => .panic
  | .lock k f, g => .lock k fun b => (f b).bind g
  | .store k b p, g => .store k b (p.bind g)
  | .unlock k p, g => .unlock k (p.bind g)
  | .sync p, g => .sync (p.bind g)

instance : Monad (Prog κ β) where
  pure := .ret
  bind := .bind

theorem bind_assoc {δ : Type} (p : Prog κ β α) (f : α → Prog κ β γ) (g : γ → Prog κ β δ) :
    p >>= f >>= g = p >>= fun a => f a >>= g := by
  show (p.bind f).bind g = p.bind fun a => (f a).bind g
  induction p with
  | ret a => rfl
  | panic => rfl
  | lock k f' ih => exact congrArg (lock k) (funext ih)
  | store k b p ih => exact congrArg (store k b) ih
  | unlock k p ih => exact congrArg (unlock k) ih
  | sync p ih => exact congrArg sync ih

/-- `assert!`. -/
def assert (c : Prop) [Decidable c] : Prog κ β Unit := if c then .ret () else .panic

/-- `unwrap`. -/
def unwrap : Option α → Prog κ β α
  | some a => .ret a
  | none => .panic

/-- Run `f` on a cell's value with the cell locked. -/
def read (k : κ) (f : β → Prog κ β α) : Prog κ β α :=
  .lock k fun b => do
    let a ← f b
    .unlock k (.ret a)

/-- Run `f` on a cell's value with the cell locked and keep the value it leaves. -/
def modify (k : κ) (f : β → Prog κ β (α × β)) : Prog κ β α :=
  .lock k fun b => do
    let r ← f b
    .store k r.2 (.unlock k (.ret r.1))

end Prog

/-- The plain store: every cell's value and the cells locked now, the newest first. -/
structure Cells (κ β : Type) where
  val : κ → β
  locked : List κ

variable {κ β α γ : Type} {f : β → Prog κ β (α × β)} {p : Prog κ β α} {g : α → Prog κ β γ} {k : κ} {c : Prop} {a : α}

section
variable [DecidableEq κ]

def exec : Prog κ β α → Cells κ β → Option (α × Cells κ β)
  | .ret a, s => some (a, s)
  | .panic, _ => none
  | .lock k f, s => if k ∈ s.locked then none else exec (f (s.val k)) { s with locked := k :: s.locked }
  | .store k b p, s => if k ∈ s.locked then exec p { s with val := Function.update s.val k b } else none
  | .unlock k p, s => if k ∈ s.locked then exec p { s with locked := s.locked.erase k } else none
  | .sync p, s => if s.locked = [] then exec p s else none

section
variable (s : Cells κ β) (k : κ) (p : Prog κ β α)

@[simp] theorem exec_ret (a : α) : exec (.ret a : Prog κ β α) s = some (a, s) := rfl

@[simp] theorem exec_pure (a : α) : exec (pure a : Prog κ β α) s = some (a, s) := rfl

@[simp] theorem exec_panic : exec (.panic : Prog κ β α) s = none := rfl

theorem exec_lock (f : β → Prog κ β α) :
    exec (.lock k f) s = if k ∈ s.locked then none else exec (f (s.val k)) { s with locked := k :: s.locked } := rfl

theorem exec_store (b : β) :
    exec (.store k b p) s = if k ∈ s.locked then exec p { s with val := update s.val k b } else none := rfl

theorem exec_unlock :
    exec (.unlock k p) s = if k ∈ s.locked then exec p { s with locked := s.locked.erase k } else none := rfl

theorem exec_sync : exec (.sync p) s = if s.locked = [] then exec p s else none := rfl

end

theorem exec_bind (p : Prog κ β α) (g : α → Prog κ β γ) (s : Cells κ β) :
    exec (p >>= g) s = (exec p s).bind fun r => exec (g r.1) r.2 := by
  show exec (p.bind g) s = _
  induction p generalizing s with
  | ret a => rfl
  | panic => rfl
  | lock k f ih =>
    show exec (.lock k fun b => (f b).bind g) s = _
    rw [exec_lock, exec_lock]
    split
    · rfl
    · exact ih _ _
  | store k b p ih =>
    show exec (.store k b (p.bind g)) s = _
    rw [exec_store, exec_store]
    split
    · exact ih _
    · rfl
  | unlock k p ih =>
    show exec (.unlock k (p.bind g)) s = _
    rw [exec_unlock, exec_unlock]
    split
    · exact ih _
    · rfl
  | sync p ih =>
    show exec (.sync (p.bind g)) s = _
    rw [exec_sync, exec_sync]
    split
    · exact ih _
    · rfl

theorem exec_bind_some {s t : Cells κ β} {c : γ}
    (h : exec (p >>= g) s = some (c, t)) : ∃ a u, exec p s = some (a, u) ∧ exec (g a) u = some (c, t) := by
  rw [exec_bind] at h
  obtain ⟨⟨a, u⟩, hp, hg⟩ := Option.bind_eq_some_iff.mp h
  exact ⟨a, u, hp, hg⟩

/-! ## Runs -/

/-- With `L` locked, `p` turns `d` into `d'`, answers `a`, and holds `L` again. -/
def Runs (p : Prog κ β α) (L : List κ) (d : κ → β) (a : α) (d' : κ → β) : Prop :=
  exec p ⟨d, L⟩ = some (a, ⟨d', L⟩)

namespace Runs

variable {L : List κ} {d d' d'' : κ → β} {a : α}

theorem ret (a : α) : Runs (pure a : Prog κ β α) L d a d := rfl

theorem bind {c : γ} (hp : Runs p L d a d')
    (hg : Runs (g a) L d' c d'') : Runs (p >>= g) L d c d'' := by
  unfold Runs at *
  rw [TCore.Lib.exec_bind, hp]
  exact hg

/-- What follows a program that has run. -/
theorem exec_bind (hp : Runs p L d a d') (g : α → Prog κ β γ) :
    exec (p >>= g) ⟨d, L⟩ = exec (g a) ⟨d', L⟩ := by
  rw [TCore.Lib.exec_bind, hp]
  rfl

theorem assert [Decidable c] (h : c) : Runs (Prog.assert c : Prog κ β Unit) L d () d := by
  unfold Prog.assert
  rw [if_pos h]
  exact ret ()

theorem unwrap (a : α) : Runs (Prog.unwrap (some a) : Prog κ β α) L d a d := ret a

theorem read {f : β → Prog κ β α} (hk : k ∉ L) (h : Runs (f (d k)) (k :: L) d a d') :
    Runs (Prog.read k f) L d a d' := by
  unfold Runs at *
  simp only [Prog.read, exec_lock, exec_unlock, exec_ret, if_neg hk, TCore.Lib.exec_bind, h, Option.bind_some,
    mem_cons_self, if_true, erase_cons_head]

theorem modify {b : β} (hk : k ∉ L)
    (h : Runs (f (d k)) (k :: L) d (a, b) d') : Runs (Prog.modify k f) L d a (update d' k b) := by
  unfold Runs at *
  simp only [Prog.modify, exec_lock, exec_store, exec_unlock, exec_ret, if_neg hk, TCore.Lib.exec_bind, h, Option.bind_some,
    mem_cons_self, if_true, erase_cons_head]

/-- A closure that puts the value back as it was. -/
theorem modify_same (hk : k ∉ L)
    (h : Runs (f (d k)) (k :: L) d (a, d k) d) : Runs (Prog.modify k f) L d a d := by
  have := modify hk h
  rwa [update_eq_self] at this

theorem sync (h : Runs p [] d a d') : Runs (.sync p) [] d a d' := by
  unfold Runs at *
  simpa only [exec_sync, if_true] using h

theorem det {b : α} (h : Runs p L d a d') (h' : Runs p L d b d'') : a = b ∧ d' = d'' := by
  unfold Runs at h h'
  rw [h] at h'
  simpa using h'

end Runs

/-- What a closure left in the cell is what the cell holds in the end. -/
theorem exec_modify_some {s t : Cells κ β}
    (h : exec (Prog.modify k f) s = some (a, t)) :
    ∃ b u, exec (f (s.val k)) ⟨s.val, k :: s.locked⟩ = some ((a, b), u) ∧
      t = ⟨update u.val k b, u.locked.erase k⟩ := by
  simp only [Prog.modify, exec_lock] at h
  split at h
  · cases h
  · obtain ⟨⟨a', b⟩, u, hf, h⟩ := exec_bind_some h
    simp only [exec_store, exec_unlock, exec_ret] at h
    split at h
    · cases h
      exact ⟨b, u, hf, rfl⟩
    · cases h

theorem unlocked_of_modify {s t : Cells κ β}
    (h : exec (Prog.modify k f) s = some (a, t)) : k ∉ s.locked := by
  intro hk
  simp only [Prog.modify, exec_lock, if_pos hk] at h
  cases h

/-- A closure that panics takes the locks with it. -/
theorem exec_modify_none {L : List κ} {d : κ → β} (hk : k ∉ L)
    (h : exec (f (d k)) ⟨d, k :: L⟩ = none) : exec (Prog.modify k f) ⟨d, L⟩ = none := by
  simp only [Prog.modify, exec_lock, if_neg hk, exec_bind, h, Option.bind_none]

/-- What comes before a panic does not matter. -/
theorem exec_bind_none (h : ∀ a t, exec (g a) t = none) (s : Cells κ β) :
    exec (p >>= g) s = none := by
  rw [exec_bind]
  cases exec p s with
  | none => rfl
  | some r => exact h r.1 r.2

theorem exec_modify_panics (h : ∀ b t, exec (f b) t = none) (s : Cells κ β) :
    exec (Prog.modify k f) s = none := by
  by_cases hk : k ∈ s.locked
  · simp only [Prog.modify, exec_lock, if_pos hk]
  · exact exec_modify_none hk (h _ _)

/-! ## Programs that only read -/

def ReadOnly (p : Prog κ β α) : Prop := ∀ s a t, exec p s = some (a, t) → t = s

namespace ReadOnly

theorem ret (a : α) : ReadOnly (pure a : Prog κ β α) := by
  intro s b t h
  cases h
  rfl

theorem panic : ReadOnly (.panic : Prog κ β α) := by
  intro s b t h
  cases h

theorem bind (hp : ReadOnly p) (hg : ∀ a, ReadOnly (g a)) :
    ReadOnly (p >>= g) := by
  intro s c t h
  obtain ⟨a, u, h1, h2⟩ := exec_bind_some h
  rw [hg a u c t h2, hp s a u h1]

theorem assert (c : Prop) [Decidable c] : ReadOnly (Prog.assert c : Prog κ β Unit) := by
  unfold Prog.assert
  split
  · exact ret ()
  · exact panic

theorem unwrap (o : Option α) : ReadOnly (Prog.unwrap o : Prog κ β α) := by
  cases o with
  | none => exact panic
  | some a => exact ret a

theorem read (k : κ) {f : β → Prog κ β α} (hf : ∀ b, ReadOnly (f b)) : ReadOnly (Prog.read k f) := by
  intro s a t h
  simp only [Prog.read, exec_lock] at h
  split at h
  · cases h
  · obtain ⟨b, u, h1, h2⟩ := exec_bind_some h
    have hu := hf _ _ _ _ h1
    subst hu
    simp only [exec_unlock, exec_ret, mem_cons_self, if_true, erase_cons_head] at h2
    cases h2
    rfl

end ReadOnly

end

/-! ## How many locks a program holds -/

inductive Fits (n : Nat) : Nat → Prog κ β α → Nat → Prop where
  | ret {h : Nat} (a : α) : Fits n h (.ret a) h
  | panic {h h' : Nat} : Fits n h .panic h'
  | lock {h h' : Nat} {k : κ} {f : β → Prog κ β α} (hn : h < n) (hf : ∀ b, Fits n (h + 1) (f b) h') :
    Fits n h (.lock k f) h'
  | store {h h' : Nat} {k : κ} {b : β} {p : Prog κ β α} (hp : Fits n h p h') : Fits n h (.store k b p) h'
  | unlock {h h' : Nat} {k : κ} {p : Prog κ β α} (hh : 0 < h) (hp : Fits n (h - 1) p h') : Fits n h (.unlock k p) h'
  | sync {h h' : Nat} {p : Prog κ β α} (hp : Fits n h p h') : Fits n h (.sync p) h'

namespace Fits

variable {n h h' h'' : Nat}

theorem bind (hp : Fits n h p h') (hg : ∀ a, Fits n h' (g a) h'') :
    Fits n h (p >>= g) h'' := by
  show Fits n h (p.bind g) h''
  induction hp with
  | ret a => exact hg a
  | panic => exact panic
  | lock hn hf ih => exact lock hn fun b => ih b hg
  | store hp ih => exact store (ih hg)
  | unlock hh hp ih => exact unlock hh (ih hg)
  | sync hp ih => exact sync (ih hg)

theorem assert (c : Prop) [Decidable c] : Fits n h (Prog.assert c : Prog κ β Unit) h := by
  unfold Prog.assert
  split
  · exact ret ()
  · exact panic

theorem unwrap (o : Option α) : Fits n h (Prog.unwrap o : Prog κ β α) h := by
  cases o with
  | none => exact panic
  | some a => exact ret a

theorem ite {_ : Decidable c} {q : Prog κ β α} (hp : Fits n h p h') (hq : Fits n h q h') :
    Fits n h (if c then p else q) h' := by
  split
  · exact hp
  · exact hq

theorem read {f : β → Prog κ β α} (hn : h < n) (hf : ∀ b, Fits n (h + 1) (f b) (h + 1)) :
    Fits n h (Prog.read k f) h :=
  lock hn fun b => bind (hf b) fun a => unlock (Nat.succ_pos h) (ret a)

theorem modify (hn : h < n) (hf : ∀ b, Fits n (h + 1) (f b) (h + 1)) :
    Fits n h (Prog.modify k f) h :=
  lock hn fun b => bind (hf b) fun r => store (unlock (Nat.succ_pos h) (ret r.1))

/-- A program that fits ends with as many locks as it says. -/
theorem locked_length [DecidableEq κ] {s t : Cells κ β} (hf : Fits n s.locked.length p h')
    (hr : exec p s = some (a, t)) : t.locked.length = h' := by
  generalize hl : s.locked.length = l at hf
  induction hf generalizing s with
  | ret b => cases hr; exact hl
  | panic => cases hr
  | lock hn hf ih =>
    rw [exec_lock] at hr
    split at hr
    · cases hr
    · exact ih _ hr (congrArg (· + 1) hl)
  | store hp ih =>
    rw [exec_store] at hr
    split at hr
    · exact ih hr hl
    · cases hr
  | unlock hh hp ih =>
    rw [exec_unlock] at hr
    split at hr
    · rename_i hk
      exact ih hr (by rw [length_erase_of_mem hk, hl])
    · cases hr
  | sync hp ih =>
    rw [exec_sync] at hr
    split at hr
    · exact ih hr hl
    · cases hr

end Fits

/-- A run of two programs in turn, where the first ends without locks. -/
theorem Runs.bind_inv [DecidableEq κ] {n : Nat} {d d'' : κ → β} {c : γ}
    (hf : Fits n 0 p 0) (h : Runs (p >>= g) [] d c d'') : ∃ a d', Runs p [] d a d' ∧ Runs (g a) [] d' c d'' := by
  obtain ⟨a, t, h1, h2⟩ := exec_bind_some h
  have hl := Fits.locked_length (s := ⟨d, []⟩) hf h1
  obtain ⟨d', locked⟩ := t
  cases eq_nil_of_length_eq_zero hl
  exact ⟨a, d', h1, h2⟩

/-! ## Programs that contain no write -/

inductive NoStore : Prog κ β α → Prop where
  | ret (a : α) : NoStore (.ret a)
  | panic : NoStore .panic
  | lock (k : κ) {f : β → Prog κ β α} (hf : ∀ b, NoStore (f b)) : NoStore (.lock k f)
  | unlock (k : κ) {p : Prog κ β α} (hp : NoStore p) : NoStore (.unlock k p)
  | sync {p : Prog κ β α} (hp : NoStore p) : NoStore (.sync p)

namespace NoStore

theorem bind (hp : NoStore p) (hg : ∀ a, NoStore (g a)) : NoStore (p >>= g) := by
  show NoStore (p.bind g)
  induction hp with
  | ret a => exact hg a
  | panic => exact panic
  | lock k hf ih => exact lock k ih
  | unlock k hp ih => exact unlock k ih
  | sync hp ih => exact sync ih

theorem assert (c : Prop) [Decidable c] : NoStore (Prog.assert c : Prog κ β Unit) := by
  unfold Prog.assert
  split
  · exact ret ()
  · exact panic

theorem unwrap (o : Option α) : NoStore (Prog.unwrap o : Prog κ β α) := by
  cases o with
  | none => exact panic
  | some a => exact ret a

theorem ite {_ : Decidable c} {q : Prog κ β α} (hp : NoStore p) (hq : NoStore q) :
    NoStore (if c then p else q) := by
  split
  · exact hp
  · exact hq

theorem read (k : κ) {f : β → Prog κ β α} (hf : ∀ b, NoStore (f b)) : NoStore (Prog.read k f) :=
  lock k fun b => bind (hf b) fun a => unlock k (ret a)

end NoStore

end TCore.Lib
