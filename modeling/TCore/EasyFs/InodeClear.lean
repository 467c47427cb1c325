/-
  TCore.EasyFs.InodeClear — `clear_size` gives back every block of the inode.

  The loops of `clear_size` push block ids in the order of `roles`, so what it answers is the
  list of the inode's blocks: nothing is left out and nothing is given back twice. It writes no
  block.
-/

import TCore.EasyFs.InodeGrow

namespace TCore.EasyFs

open TCore.Lib
open Role (data ind1 ind2 row)
open List Runs Function

/-! ## The roles in the order of the loops -/

variable {c : Nat}

theorem roles_direct (h : c ≤ 28) : roles c = (List.range c).map data := by
  induction c with
  | zero => rfl
  | succ c ih =>
    rw [roles, ih (by omega), rolesOf_data (by omega) (by omega), range_succ, map_append]
    rfl

theorem roles_ind1 (h : c < 128) :
    roles (28 + (c + 1)) = roles 28 ++ ind1 :: (List.range (c + 1)).map fun i => data (28 + i) := by
  induction c with
  | zero => rw [roles]; rfl
  | succ c ih =>
    rw [← Nat.add_assoc, roles, ih (by omega), rolesOf_data (by omega) (by omega), range_succ (n := c + 1),
      map_append, append_assoc]
    rfl

theorem roles_row {r : Nat} (h : c < 128) : roles (156 + 128 * r + (c + 1)) =
    rolesFrom 156 ind2 (128 * r) ++ row r :: (List.range (c + 1)).map fun i => data (156 + 128 * r + i) := by
  induction c with
  | zero =>
    have := rolesFrom_row (show 128 * r % 128 = 0 by omega)
    rw [show 128 * r / 128 = r by omega] at this
    rw [← this, append_assoc]
    rfl
  | succ c ih =>
    rw [← Nat.add_assoc, roles, ih (by omega), rolesOf_data (by omega) (by omega), range_succ (n := c + 1),
      map_append, append_assoc]
    rfl

/-! ## The loops -/

section
variable {d : Disk} {ino : DiskInode} {L : List Nat} {n : Nat}

theorem map_blockOf_direct (h : c ≤ 28) :
    (roles c).map (blockOf d ino) = (List.range c).map ino.direct.get := by
  rw [roles_direct h, map_map]
  refine map_congr_left fun k hk => ?_
  rw [mem_range] at hk
  rw [comp_apply, blockOf_data, if_pos (by omega)]

theorem map_blockOf_ind1 (h1 : 0 < c) (h2 : c ≤ 128) : (roles (28 + c)).map (blockOf d ino) =
    (roles 28).map (blockOf d ino) ++ ino.indirect1 :: (List.range c).map (d ino.indirect1.toNat).entry := by
  obtain ⟨c, rfl⟩ := Nat.exists_eq_add_of_lt h1
  rw [Nat.zero_add, roles_ind1 (by omega), map_append, map_cons, map_map]
  congr 2
  refine map_congr_left fun k hk => ?_
  rw [mem_range] at hk
  rw [comp_apply, blockOf_data, if_neg (by omega), if_pos (by omega), show 28 + k - 28 = k by omega]

variable (d ino) in
theorem map_blockOf_row {r : Nat} (h1 : 0 < c) (h2 : c ≤ 128) : (roles (156 + 128 * r + c)).map (blockOf d ino) =
    (rolesFrom 156 ind2 (128 * r)).map (blockOf d ino) ++ (d ino.indirect2.toNat).entry r ::
      (List.range c).map (d ((d ino.indirect2.toNat).entry r).toNat).entry := by
  obtain ⟨c, rfl⟩ := Nat.exists_eq_add_of_lt h1
  rw [Nat.zero_add, roles_row (by omega), map_append, map_cons, map_map]
  congr 2
  refine map_congr_left fun k hk => ?_
  rw [mem_range] at hk
  rw [comp_apply, blockOf_data, if_neg (by omega), if_neg (by omega),
    show (156 + 128 * r + k - 156) / 128 = r by omega, show (156 + 128 * r + k - 156) % 128 = k by omega]

variable (d ino) in
theorem clearRows_runs (k : Nat) {r : Nat}
    (hL : ∀ i, r ≤ i → i < r + k → ((d ino.indirect2.toNat).entry i).toNat ∉ L) :
    Runs (clearRows (d ino.indirect2.toNat) k r ((rolesFrom 156 ind2 (128 * r)).map (blockOf d ino))) L d
      ((rolesFrom 156 ind2 (128 * (r + k))).map (blockOf d ino)) d := by
  induction k generalizing r with
  | zero => exact ret _
  | succ k ih =>
    have hrow := map_blockOf_row d ino (r := r) (c := 128) (by omega) (by omega)
    rw [show 156 + 128 * r + 128 = 156 + 128 * (r + 1) by omega, ← rolesFrom_pos (ρ := ind2) (by omega)] at hrow
    refine bind (modify_same (hL r (by omega) (by omega)) (ret _)) ?_
    rw [← hrow, show r + (k + 1) = r + 1 + k by omega]
    exact ih fun i h1 h2 => hL i (by omega) (by omega)

variable (d ino) in
theorem clearIndirect2_runs (hc : 0 < c) (hmax : c ≤ 16384) (hi : ino.indirect2.toNat ∉ L)
    (hL : ∀ i, 128 * i < c → ((d ino.indirect2.toNat).entry i).toNat ∉ ino.indirect2.toNat :: L) :
    Runs (ino.clearIndirect2 c ((roles 156).map (blockOf d ino))) L d ((roles (156 + c)).map (blockOf d ino)) d := by
  have hrows := clearRows_runs d ino (L := ino.indirect2.toNat :: L) (c / 128) (r := 0)
    fun i _ hi => hL i (by omega)
  rw [Nat.zero_add, Nat.mul_zero, rolesFrom, if_pos rfl, map_append] at hrows
  refine bind (assert hmax) (modify_same hi (bind hrows ?_))
  by_cases hb : c % 128 > 0
  · rw [if_pos hb]
    refine bind (modify_same (hL _ (by omega)) (ret _)) ?_
    rw [← map_blockOf_row _ _ (by omega) (by omega), show 156 + 128 * (c / 128) + c % 128 = 156 + c by omega]
    exact ret _
  · rw [if_neg hb, rolesFrom_pos (by omega), show 156 + 128 * (c / 128) = 156 + c by omega]
    exact ret _

end

theorem clearSize_runs {ino : DiskInode} {d : Disk} {L : List Nat} {n : Nat} (hn : ino.dataBlocks = n)
    (h : Placed L d ino n) :
    ∃ ino', Runs ino.clearSize L d ((roles n).map (blockOf d ino), ino') d ∧ ino'.size = 0 ∧ ino'.type_ = ino.type_ := by
  have hmax := h.max
  unfold DiskInode.clearSize
  rw [hn]
  simp only
  rw [← map_blockOf_direct (d := d) (min_le_right n 28)]
  generalize (Arr.ofFn fun i => if i < min n 28 then 0 else ino.direct.get i : Arr UInt32 28) = z
  by_cases h28 : n > 28
  · rw [if_pos h28, min_eq_right (by omega)]
    have hi1 : ino.indirect1.toNat ∉ L := h.unlocked ind1 (mem_roles.mpr h28)
    have hread : Runs (Prog.modify ino.indirect1.toNat fun b =>
          pure ((roles 28).map (blockOf d ino) ++ ino.indirect1 :: (List.range (min (n - 28) 128)).map b.entry, b)) L d
        ((roles (28 + min (n - 28) 128)).map (blockOf d ino)) d := by
      rw [map_blockOf_ind1 (by omega) (by omega)]
      exact modify_same hi1 (ret _)
    by_cases h128 : n - 28 > 128
    · have hi2 : ind2 ∈ roles n := mem_roles.mpr (by simp only [Role.since]; omega)
      have hrow : ∀ i, 128 * i < n - 156 → ((d ino.indirect2.toNat).entry i).toNat ∉ ino.indirect2.toNat :: L := by
        intro i hi
        have hri : row i ∈ roles n := mem_roles.mpr (by simp only [Role.since]; omega)
        rw [mem_cons, not_or]
        refine ⟨fun e => ?_, h.unlocked (row i) hri⟩
        have := h.inj _ hri _ hi2 (UInt32.toNat_inj.mp e)
        cases this
      have hclear := clearIndirect2_runs d ino (c := n - 156) (by omega) (by omega) (h.unlocked ind2 hi2) hrow
      rw [show 156 + (n - 156) = n by omega] at hclear
      rw [show 28 + min (n - 28) 128 = 156 by omega] at hread
      refine ⟨{ ino with size := 0, direct := z, indirect1 := 0, indirect2 := 0 }, bind hread ?_, rfl, rfl⟩
      show Runs (if n - 28 > 128 then _ else _) L d _ d
      rw [if_pos h128, show n - 28 - 128 = n - 156 by omega]
      exact bind hclear (ret _)
    · rw [show 28 + min (n - 28) 128 = n by omega] at hread
      refine ⟨{ ino with size := 0, direct := z, indirect1 := 0 }, bind hread ?_, rfl, rfl⟩
      show Runs (if n - 28 > 128 then _ else _) L d _ d
      rw [if_neg h128]
      exact ret _
  · rw [if_neg h28, min_eq_left (by omega)]
    exact ⟨_, ret _, rfl, rfl⟩

end TCore.EasyFs
