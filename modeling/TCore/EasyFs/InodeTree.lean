/-
  TCore.EasyFs.InodeTree — which block an inode uses for what.

  A block of an inode has a `Role`: data block `k`, one of the two index blocks, or a row of
  the second one. `blockOf` finds the block of a role from the inode by following the block
  ids on the disk, and `roles n` lists the roles of an inode with `n` data blocks, in the
  order in which `increase_size` takes new blocks and `clear_size` gives them back.

  - `mem_roles`, `roles_length`: the roles of `n` data blocks are `total_blocks` many.
  - `blockOf_frame`: the blocks of an inode only depend on its index blocks.
  - `Placed.getBlockId_runs`: `get_block_id` finds the block of a data role.
-/

import TCore.EasyFs.DiskInode
import TCore.Lib.PointerTree

namespace TCore.EasyFs

open TCore.Lib
open Runs DiskInode List

inductive Role where
  | data (k : Nat)
  | ind1
  | ind2
  | row (r : Nat)
  deriving DecidableEq

namespace Role

/-- The role of the index block a block's id is kept in; the inode itself keeps the others. -/
def parent : Role → Option Role
  | data k => if k < 28 then none else if k < 156 then some ind1 else some (row ((k - 156) / 128))
  | row _ => some ind2
  | ind1 => none
  | ind2 => none

def slot : Role → Nat
  | data k => if k < 156 then k - 28 else (k - 156) % 128
  | row r => r
  | ind1 => 0
  | ind2 => 0

def depth : Role → Nat
  | data _ => 2
  | row _ => 1
  | ind1 => 0
  | ind2 => 0

def isIndex : Role → Bool
  | data _ => false
  | _ => true

theorem parent_data (k : Nat) :
    parent (data k) = if k < 28 then none else if k < 156 then some ind1 else some (row ((k - 156) / 128)) := rfl

theorem parent_cases {r p : Role} (h : r.parent = some p) :
    (∃ k, r = data k ∧ 28 ≤ k ∧ k < 156 ∧ p = ind1) ∨ (∃ k, r = data k ∧ 156 ≤ k ∧ p = row ((k - 156) / 128)) ∨
      ∃ i, r = row i ∧ p = ind2 := by
  cases r with
  | data k =>
    rw [parent_data] at h
    by_cases h1 : k < 28
    · rw [if_pos h1] at h; cases h
    · rw [if_neg h1] at h
      by_cases h2 : k < 156
      · rw [if_pos h2] at h
        cases h
        exact Or.inl ⟨k, rfl, by omega, h2, rfl⟩
      · rw [if_neg h2] at h
        cases h
        exact Or.inr (Or.inl ⟨k, rfl, by omega, rfl⟩)
  | row i => cases h; exact Or.inr (Or.inr ⟨i, rfl, rfl⟩)
  | ind1 => cases h
  | ind2 => cases h

theorem isIndex_of_parent {r p : Role} (h : r.parent = some p) : p.isIndex = true := by
  rcases parent_cases h with ⟨k, -, -, -, rfl⟩ | ⟨k, -, -, rfl⟩ | ⟨i, -, rfl⟩ <;> rfl

def shape : Shape Role where
  parent := parent
  slot := slot
  depth := depth
  depth_parent := by
    intro r p h
    rcases parent_cases h with ⟨k, rfl, -, -, rfl⟩ | ⟨k, rfl, -, rfl⟩ | ⟨i, rfl, rfl⟩ <;> simp [depth]
  slot_inj := by
    intro r r' p h h' hs
    rcases parent_cases h with ⟨k, rfl, h1, h2, rfl⟩ | ⟨k, rfl, h1, rfl⟩ | ⟨i, rfl, rfl⟩
    · rcases parent_cases h' with ⟨k', rfl, h3, h4, -⟩ | ⟨k', rfl, h3, e⟩ | ⟨i', rfl, e⟩
      · simp only [slot, if_pos h2, if_pos h4] at hs
        rw [show k = k' by omega]
      · cases e
      · cases e
    · rcases parent_cases h' with ⟨k', rfl, h3, h4, e⟩ | ⟨k', rfl, h3, e⟩ | ⟨i', rfl, e⟩
      · cases e
      · have e' := Role.row.inj e
        simp only [slot, if_neg (show ¬k < 156 by omega), if_neg (show ¬k' < 156 by omega)] at hs
        rw [show k = k' by omega]
      · cases e
    · rcases parent_cases h' with ⟨k', rfl, h3, h4, e⟩ | ⟨k', rfl, h3, e⟩ | ⟨i', rfl, e⟩
      · cases e
      · cases e
      · have hs : i = i' := hs
        rw [hs]

end Role

open Role (data ind1 ind2 row)

/-- The roles data block `k` brings with it. -/
def rolesOf (k : Nat) : List Role :=
  (if k = 28 then [ind1] else []) ++ (if k = 156 then [ind2] else []) ++
    (if 156 ≤ k ∧ (k - 156) % 128 = 0 then [row ((k - 156) / 128)] else []) ++ [data k]

/-- The roles of an inode with `n` data blocks. -/
def roles : Nat → List Role
  | 0 => []
  | n + 1 => roles n ++ rolesOf n

def DiskInode.rootOf (ino : DiskInode) : Role → UInt32
  | data k => ino.direct.get k
  | ind1 => ino.indirect1
  | ind2 => ino.indirect2
  | row _ => 0

/-- The block an inode uses in a role, as the disk has it. -/
def blockOf (d : Disk) (ino : DiskInode) : Role → UInt32
  | data k =>
    if k < 28 then ino.direct.get k
    else if k < 156 then (d ino.indirect1.toNat).entry (k - 28)
    else (d ((d ino.indirect2.toNat).entry ((k - 156) / 128)).toNat).entry ((k - 156) % 128)
  | ind1 => ino.indirect1
  | ind2 => ino.indirect2
  | row r => (d ino.indirect2.toNat).entry r

theorem blockOf_data (d : Disk) (ino : DiskInode) (k : Nat) : blockOf d ino (data k) =
    if k < 28 then ino.direct.get k
    else if k < 156 then (d ino.indirect1.toNat).entry (k - 28)
    else (d ((d ino.indirect2.toNat).entry ((k - 156) / 128)).toNat).entry ((k - 156) % 128) := rfl

open Role

theorem blockOf_follows (d : Disk) (ino : DiskInode) :
    shape.Follows Block.entry ino.rootOf (fun x => d x.toNat) (blockOf d ino) where
  root := by
    intro r h
    cases r with
    | data k =>
      have h : parent (data k) = none := h
      rw [parent_data] at h
      by_cases hk : k < 28
      · simp only [blockOf, if_pos hk, rootOf]
      · rw [if_neg hk] at h
        split at h <;> cases h
    | row i => cases h
    | ind1 => rfl
    | ind2 => rfl
  child := by
    intro r p h
    rcases parent_cases h with ⟨k, rfl, h1, h2, rfl⟩ | ⟨k, rfl, h1, rfl⟩ | ⟨i, rfl, rfl⟩
    · simp only [blockOf, shape, slot, if_pos h2, if_neg (show ¬k < 28 by omega)]
    · simp only [blockOf, shape, slot, if_neg (show ¬k < 28 by omega), if_neg (show ¬k < 156 by omega)]
    · rfl

/-! ## The roles of `n` data blocks -/

/-- The number of data blocks from which on a role is used. -/
def Role.since : Role → Nat
  | data k => k
  | ind1 => 28
  | ind2 => 156
  | row r => 156 + 128 * r

theorem mem_rolesOf {k : Nat} {r : Role} : r ∈ rolesOf k ↔ r.since = k := by
  simp only [rolesOf, mem_append, mem_ite_nil_right, mem_singleton]
  cases r with
  | data j => simp [since]
  | ind1 => simp [since, eq_comm]
  | ind2 => simp [since, eq_comm]
  | row i =>
    simp only [since, row.injEq, reduceCtorEq, and_false, false_or, or_false]
    omega

theorem mem_roles {n : Nat} {r : Role} : r ∈ roles n ↔ r.since < n := by
  induction n with
  | zero => simp [roles]
  | succ n ih =>
    rw [roles, mem_append, ih, mem_rolesOf]
    omega

theorem nodup_rolesOf (k : Nat) : (rolesOf k).Nodup := by
  unfold rolesOf
  split <;> split <;> split <;> simp

theorem nodup_roles (n : Nat) : (roles n).Nodup := by
  induction n with
  | zero => exact nodup_nil
  | succ n ih =>
    refine List.Nodup.append ih (nodup_rolesOf n) fun r h1 h2 => ?_
    rw [mem_roles] at h1
    rw [mem_rolesOf] at h2
    omega

theorem roles_length (n : Nat) : (roles n).length = totalFor n := by
  induction n with
  | zero => rfl
  | succ n ih =>
    have h1 : (rolesOf n).length = (if n = 28 then 1 else 0) + (if n = 156 then 1 else 0) +
        (if 156 ≤ n ∧ (n - 156) % 128 = 0 then 1 else 0) + 1 := by
      unfold rolesOf
      split <;> split <;> split <;> simp
    rw [roles, length_append, ih, h1]
    unfold totalFor
    split <;> split <;> split <;> split <;> split <;> split <;> split <;> omega

theorem roles_initial {n m : Nat} (h : n ≤ m) : roles n <+: roles m := by
  induction m, h using Nat.le_induction with
  | base => exact prefix_refl _
  | succ m _ ih => exact ih.trans (prefix_append _ _)

theorem closed_roles (n : Nat) : shape.Closed (· ∈ roles n) := by
  intro r p hr hp
  rw [mem_roles] at hr ⊢
  rcases parent_cases hp with ⟨k, rfl, h1, h2, rfl⟩ | ⟨k, rfl, h1, rfl⟩ | ⟨i, rfl, rfl⟩ <;>
    simp only [since] at hr ⊢ <;> omega

/-! ## What the blocks depend on -/

theorem blockOf_frame {d d' : Disk} {ino ino' : DiskInode} {n : Nat}
    (hroot : ∀ r ∈ roles n, r.parent = none → ino'.rootOf r = ino.rootOf r)
    (h : ∀ r ∈ roles n, r.isIndex = true → d' (blockOf d ino r).toNat = d (blockOf d ino r).toNat) :
    ∀ r ∈ roles n, blockOf d' ino' r = blockOf d ino r := by
  refine (blockOf_follows d ino).eqOn (blockOf_follows d' ino') (closed_roles n) hroot fun r p hr hp => ?_
  simp only [h p (closed_roles n r p hr hp) (isIndex_of_parent hp)]

/-- An inode with `n` data blocks whose blocks are all different, none of them locked. -/
structure Placed (L : List Nat) (d : Disk) (ino : DiskInode) (n : Nat) : Prop where
  max : n ≤ 16540
  inj : ∀ r ∈ roles n, ∀ r' ∈ roles n, blockOf d ino r = blockOf d ino r' → r = r'
  unlocked : ∀ r ∈ roles n, (blockOf d ino r).toNat ∉ L

theorem Placed.getBlockId_runs {L : List Nat} {d : Disk} {ino : DiskInode} {n k : Nat} (h : Placed L d ino n)
    (hk : k < n) : Runs (ino.getBlockId k) L d (blockOf d ino (data k)) d := by
  have hmax := h.max
  rw [getBlockId, blockOf_data]
  by_cases h1 : k < 28
  · rw [if_pos h1, if_pos h1]
    exact ret _
  · rw [if_neg h1, if_neg h1]
    by_cases h2 : k < 156
    · rw [if_pos h2, if_pos h2]
      exact read (h.unlocked ind1 (mem_roles.mpr (by simp only [since]; omega))) (ret _)
    · rw [if_neg h2, if_neg h2]
      have hrow : Runs (Prog.read ino.indirect2.toNat fun b => do
          Prog.assert ((k - 156) / 128 < 128)
          pure (b.entry ((k - 156) / 128))) L d ((d ino.indirect2.toNat).entry ((k - 156) / 128)) d :=
        read (h.unlocked ind2 (mem_roles.mpr (by simp only [since]; omega)))
          (bind (assert (by omega)) (ret _))
      exact bind hrow (read
        (h.unlocked (row ((k - 156) / 128)) (mem_roles.mpr (by simp only [since]; omega))) (ret _))

end TCore.EasyFs
