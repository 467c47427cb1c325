/-
  TCore.EasyFs.InodeGrow — `increase_size` hangs the new blocks into the inode's tree.

  The loops of `increase_size` take the new blocks one by one. Each one gets the next role of
  `roles`, in the inode itself (`Grown.root`) or in an index block (`Grown.hang`), and moves no
  block that was there before. A block being filled is kept outside the disk until its lock is
  dropped, so the loops' invariant is about the disk with that block put back.

  - `increaseSize_runs`: growing to `m` data blocks gives the roles `roles m` the old blocks and
    then the new ones, in order, and writes index blocks only.
  - `increaseSize_overflows`: there is no row for data block number 16541.
-/

import TCore.EasyFs.InodeTree

namespace TCore.EasyFs

open TCore.Lib
open Function (update update_self update_of_ne update_idem update_eq_self)
open Role (data ind1 ind2 row)
open List Block DiskInode Arr Role

/-- The inode with the id of a top role set. -/
def DiskInode.setRoot (ino : DiskInode) (r : Role) (x : UInt32) : DiskInode :=
  match r with
  | data k => { ino with direct := ino.direct.set k x }
  | ind1 => { ino with indirect1 := x }
  | ind2 => { ino with indirect2 := x }
  | row _ => ino

variable {ρ : Role}

theorem rootOf_setRoot_ne (ino : DiskInode) {r : Role} (x : UInt32) (h : r ≠ ρ) :
    (ino.setRoot ρ x).rootOf r = ino.rootOf r := by
  cases r with
  | data j =>
    cases ρ with
    | data k => exact get_set_ne _ _ fun e => h (by rw [e])
    | ind1 => rfl
    | ind2 => rfl
    | row i => rfl
  | ind1 => cases ρ <;> first | rfl | exact absurd rfl h
  | ind2 => cases ρ <;> first | rfl | exact absurd rfl h
  | row i => rfl

theorem rootOf_setRoot_same (ino : DiskInode) (x : UInt32) (h : ρ.parent = none) :
    (ino.setRoot ρ x).rootOf ρ = x := by
  cases ρ with
  | data k =>
    refine get_set_same _ _ ?_
    by_contra hk
    rw [parent_data, if_neg hk] at h
    split at h <;> cases h
  | ind1 => rfl
  | ind2 => rfl
  | row i => cases h

/-- The roles `R` have the first blocks of `W`, the others are `rest`, and no block other than an
    index block differs from `d₀`. -/
structure Grown (d₀ : Disk) (W : List UInt32) (R : List Role) (d : Disk) (ino : DiskInode) (rest : List UInt32) :
    Prop where
  closed : shape.Closed (· ∈ R)
  blocks : R.map (blockOf d ino) ++ rest = W
  frame : ∀ x, (∀ r ∈ R, r.isIndex = true → (blockOf d ino r).toNat ≠ x) → d x = d₀ x

namespace Grown

variable {d₀ d : Disk} {W rest : List UInt32} {R : List Role} {ino : DiskInode} {ρ p : Role} {x : UInt32} {m : Nat}

section

variable (h : Grown d₀ W R d ino rest)
include h

theorem mem {r : Role} (hr : r ∈ R) : blockOf d ino r ∈ W := by
  rw [← h.blocks]
  exact mem_append_left _ (mem_map_of_mem hr)

theorem inj (hW : W.Nodup) {r r' : Role} (hr : r ∈ R) (hr' : r' ∈ R)
    (e : blockOf d ino r = blockOf d ino r') : r = r' := by
  rw [← h.blocks] at hW
  exact inj_on_of_nodup_map hW.of_append_left hr hr' e

theorem next (hW : W.length = (roles m).length) {k : Nat} {S : List Role}
    (hr : R ++ ρ :: S = roles k) (hk : k ≤ m) : ∃ x xs, rest = x :: xs := by
  have h1 := (roles_initial hk).length_le
  have h2 := congrArg List.length h.blocks
  rw [length_append, length_map] at h2
  rw [← hr, length_append, length_cons] at h1
  cases rest with
  | nil => rw [length_nil] at h2; omega
  | cons x xs => exact ⟨x, xs, rfl⟩

theorem push_closed (hp : ∀ p, ρ.parent = some p → p ∈ R) :
    shape.Closed (· ∈ R ++ [ρ]) := by
  intro r q hr hq
  simp only [mem_append, mem_singleton] at hr ⊢
  exact h.closed.push hp r q hr hq

end

section

variable (h : Grown d₀ W R d ino (x :: rest))
include h

theorem push {d' : Disk} {ino' : DiskInode}
    (hp : ∀ p, ρ.parent = some p → p ∈ R) (hold : ∀ r ∈ R, blockOf d' ino' r = blockOf d ino r)
    (hnew : blockOf d' ino' ρ = x)
    (hframe : ∀ y, (∀ r ∈ R, r.isIndex = true → (blockOf d ino r).toNat ≠ y) → d' y = d y) :
    Grown d₀ W (R ++ [ρ]) d' ino' rest := by
  refine ⟨h.push_closed hp, ?_, fun y hy => ?_⟩
  · rw [map_append, map_singleton, hnew, map_congr_left hold, append_assoc]
    exact h.blocks
  · have hy' : ∀ r ∈ R, r.isIndex = true → (blockOf d ino r).toNat ≠ y := by
      intro r hr hi
      rw [← hold r hr]
      exact hy r (mem_append_left _ hr) hi
    rw [hframe y hy', h.frame y hy']

/-- A new block whose id the inode keeps. -/
theorem root (hρ : ρ ∉ R) (hp : ρ.parent = none) :
    Grown d₀ W (R ++ [ρ]) d (ino.setRoot ρ x) rest := by
  refine h.push (fun p e => by rw [hp] at e; cases e) ?_ ?_ fun _ _ => rfl
  · refine (blockOf_follows d ino).eqOn (blockOf_follows d _) h.closed (fun r hr _ => ?_) fun _ _ _ _ => rfl
    exact rootOf_setRoot_ne ino x fun e => hρ (e ▸ hr)
  · rw [(blockOf_follows d _).root ρ hp, rootOf_setRoot_same ino x hp]

/-- A new block whose id is kept in an index block that is there already. -/
theorem hang (hW : W.Nodup) (hρ : ρ ∉ R) (hp : ρ.parent = some p) (hpR : p ∈ R)
    (hs : ρ.slot < 128) :
    Grown d₀ W (R ++ [ρ]) (update d (blockOf d ino p).toNat
      ((d (blockOf d ino p).toNat).setEntry ρ.slot x)) ino rest := by
  have hstore : ∀ b, (fun y : UInt32 => update d (blockOf d ino p).toNat b y.toNat) =
      update (fun y : UInt32 => d y.toNat) (blockOf d ino p) b := by
    intro b
    funext y
    by_cases hy : y = blockOf d ino p
    · rw [hy, update_self, update_self]
    · rw [update_of_ne hy, update_of_ne fun e => hy (UInt32.toNat_inj.mp e)]
  have hfol := blockOf_follows (update d (blockOf d ino p).toNat
    ((d (blockOf d ino p).toNat).setEntry ρ.slot x)) ino
  rw [hstore] at hfol
  have hold := (blockOf_follows d ino).eqOn_hang hfol h.closed (fun r r' hr hr' e => h.inj hW hr hr' e) hρ hp hpR
    fun i hi => entry_setEntry_ne _ _ hi
  refine h.push (fun q e => by rw [hp] at e; cases e; exact hpR) hold ?_ fun y hy => ?_
  · rw [hfol.child ρ p hp, hold p hpR, update_self]
    exact entry_setEntry_same _ _ hs
  · exact update_of_ne (Ne.symm (hy p hpR (isIndex_of_parent hp))) _ _

end

end Grown

/-! ## The roles between two block counts -/

theorem rolesOf_data {k : Nat} (h1 : k ≠ 28) (h2 : k < 156 ∨ (k - 156) % 128 ≠ 0) : rolesOf k = [data k] := by
  unfold rolesOf
  rw [if_neg h1, if_neg (by omega), if_neg (by omega)]
  rfl

/-- The roles when `cur` blocks past `base` are there and the index block `ρ`, which the first of
    them brings, is there in any case. -/
def rolesFrom (base : Nat) (ρ : Role) (cur : Nat) : List Role := roles (base + cur) ++ if cur = 0 then [ρ] else []

variable {cur : Nat}

theorem rolesFrom_pos {base : Nat} (h : 0 < cur) : rolesFrom base ρ cur = roles (base + cur) := by
  rw [rolesFrom, if_neg (by omega), append_nil]

theorem rolesFrom_ind1 (h : cur < 128) : rolesFrom 28 ind1 cur ++ [data (28 + cur)] = roles (28 + cur + 1) := by
  have hro : rolesOf (28 + cur) = (if cur = 0 then [ind1] else []) ++ [data (28 + cur)] := by
    unfold rolesOf
    rw [if_neg (show ¬28 + cur = 156 by omega),
      if_neg (show ¬(156 ≤ 28 + cur ∧ (28 + cur - 156) % 128 = 0) by omega), append_nil, append_nil,
      if_congr (show 28 + cur = 28 ↔ cur = 0 by omega) rfl rfl]
  rw [roles, hro, rolesFrom, append_assoc]

theorem rolesFrom_row (h : cur % 128 = 0) :
    rolesFrom 156 ind2 cur ++ [row (cur / 128)] ++ [data (156 + cur)] = roles (156 + cur + 1) := by
  have hro : rolesOf (156 + cur) = (if cur = 0 then [ind2] else []) ++ [row (cur / 128)] ++ [data (156 + cur)] := by
    unfold rolesOf
    rw [if_neg (by omega), if_pos (show 156 ≤ 156 + cur ∧ (156 + cur - 156) % 128 = 0 by omega), nil_append,
      if_congr (show 156 + cur = 156 ↔ cur = 0 by omega) rfl rfl, show 156 + cur - 156 = cur by omega]
  rw [roles, hro, rolesFrom]
  simp only [append_assoc]

theorem rolesFrom_cell (h : cur % 128 ≠ 0) :
    rolesFrom 156 ind2 cur ++ [data (156 + cur)] = roles (156 + cur + 1) := by
  rw [rolesFrom_pos (by omega), roles, rolesOf_data (by omega) (by omega)]

theorem mem_rolesFrom {base : Nat} {r : Role} : r ∈ rolesFrom base ρ cur ↔ r.since < base + cur ∨ cur = 0 ∧ r = ρ := by
  rw [rolesFrom, mem_append, mem_roles, mem_ite_nil_right, mem_singleton]

/-! ## The loops -/

section
variable {d₀ d : Disk} {W rest : List UInt32} {ino : DiskInode} {L : List Nat} {m : Nat}

theorem nextBlock_runs (x : UInt32) (xs : List UInt32) : Runs (nextBlock (x :: xs)) L d (x, xs) d := Runs.ret _

variable (ino) in
theorem fillDirect_runs (c : Nat) (h28 : cur + c ≤ 28) (hm : cur + c ≤ m) (hW : W.length = (roles m).length)
    (h : Grown d₀ W (roles cur) d ino rest) :
    ∃ direct rest', Runs (fill Arr.set c cur ino.direct rest) L d (direct, rest') d ∧
      Grown d₀ W (roles (cur + c)) d { ino with direct := direct } rest' := by
  induction c generalizing cur ino rest with
  | zero => exact ⟨ino.direct, rest, Runs.ret _, h⟩
  | succ c ih =>
    have hr : roles cur ++ [data cur] = roles (cur + 1) := by rw [roles, rolesOf_data (by omega) (by omega)]
    obtain ⟨x, xs, rfl⟩ := h.next hW hr (by omega)
    have hroot := h.root (ρ := data cur) (by rw [mem_roles]; simp [since])
      (by rw [parent_data, if_pos (by omega)])
    rw [hr] at hroot
    obtain ⟨direct, rest', hrun, hg⟩ := ih _ (by omega) (by omega) hroot
    refine ⟨direct, rest', Runs.bind (nextBlock_runs x xs) hrun, ?_⟩
    rw [show cur + (c + 1) = cur + 1 + c by omega]
    exact hg

variable (ino) in
theorem fillIndirect1_runs (c : Nat) {b : Block} (h128 : cur + c ≤ 128) (hm : 28 + cur + c ≤ m)
    (hW : W.length = (roles m).length) (hnd : W.Nodup)
    (h : Grown d₀ W (rolesFrom 28 ind1 cur) (update d ino.indirect1.toNat b) ino rest) :
    ∃ b' rest', Runs (fill setEntry c cur b rest) L d (b', rest') d ∧
      Grown d₀ W (rolesFrom 28 ind1 (cur + c)) (update d ino.indirect1.toNat b') ino rest' := by
  induction c generalizing cur b rest with
  | zero => exact ⟨b, rest, Runs.ret _, h⟩
  | succ c ih =>
    have hr := rolesFrom_ind1 (show cur < 128 by omega)
    obtain ⟨x, xs, rfl⟩ := h.next hW hr (by omega)
    have hslot : (data (28 + cur)).slot = cur := by
      simp only [slot]
      rw [if_pos (by omega)]
      omega
    have hh := h.hang hnd (ρ := data (28 + cur)) (p := ind1)
      (by rw [mem_rolesFrom]; simp [since])
      (by rw [parent_data, if_neg (by omega), if_pos (by omega)])
      (by rw [mem_rolesFrom]; simp only [since, and_true]; omega) (by omega)
    rw [hr, hslot] at hh
    simp only [blockOf, update_self, update_idem] at hh
    rw [Nat.add_assoc, ← rolesFrom_pos (ρ := ind1) (Nat.succ_pos cur)] at hh
    obtain ⟨b', rest', hrun, hg⟩ := ih (by omega) (by omega) hh
    refine ⟨b', rest', Runs.bind (nextBlock_runs x xs) hrun, ?_⟩
    rw [show cur + (c + 1) = cur + 1 + c by omega]
    exact hg

/-- The row of cell `cur`: taken from the new blocks at the start of a row, there already otherwise. -/
theorem openRow_runs {b : Block} (hcur : cur < 16384) (hm : 156 + cur + 1 ≤ m)
    (hW : W.length = (roles m).length) (hnd : W.Nodup)
    (h : Grown d₀ W (rolesFrom 156 ind2 cur) (update d ino.indirect2.toNat b) ino rest) :
    ∃ b' R rest', Runs (openRow (cur / 128) (cur % 128) b rest) L d (b', rest') d ∧
      Grown d₀ W R (update d ino.indirect2.toNat b') ino rest' ∧
      R ++ [data (156 + cur)] = roles (156 + cur + 1) := by
  unfold openRow
  by_cases h0 : cur % 128 = 0
  · have hr := rolesFrom_row h0
    obtain ⟨x, xs, rfl⟩ := h.next hW (by rw [← hr, append_assoc]; rfl) hm
    have hh := h.hang hnd (ρ := row (cur / 128)) (p := ind2)
      (by rw [mem_rolesFrom]; simp only [since, reduceCtorEq, and_false, or_false]; omega) rfl
      (by rw [mem_rolesFrom]; simp only [since, and_true]; omega) (by simp only [slot]; omega)
    simp only [blockOf, update_self, update_idem, slot] at hh
    rw [if_pos h0]
    exact ⟨_, _, xs, Runs.bind (nextBlock_runs x xs) (Runs.ret _), hh, hr⟩
  · rw [if_neg h0]
    exact ⟨b, _, rest, Runs.ret _, h, rolesFrom_cell h0⟩

theorem fillRows_runs (n : Nat) {b : Block} (hcur : cur + n ≤ 16384) (hm : 156 + cur + n ≤ m)
    (hW : W.length = (roles m).length) (hnd : W.Nodup) (hL : ∀ x ∈ W, x.toNat ∉ L)
    (h : Grown d₀ W (rolesFrom 156 ind2 cur) (update d ino.indirect2.toNat b) ino rest) :
    ∃ b' rest' d', Runs (fillRows n (cur / 128) (cur % 128) b rest) (ino.indirect2.toNat :: L) d (b', rest') d' ∧
      Grown d₀ W (rolesFrom 156 ind2 (cur + n)) (update d' ino.indirect2.toNat b') ino rest' := by
  induction n generalizing cur b rest d with
  | zero => exact ⟨b, rest, d, Runs.ret _, h⟩
  | succ n ih =>
    obtain ⟨b1, R, rest1, hopen, hg, hr⟩ := openRow_runs (L := ino.indirect2.toNat :: L) (by omega) (by omega) hW hnd h
    obtain ⟨x, xs, rfl⟩ := hg.next hW hr (by omega)
    have hmem : ∀ r, r.since < 156 + cur + 1 → r ≠ data (156 + cur) → r ∈ R := by
      intro r h1 h2
      have := mem_roles.mpr h1
      rw [← hr, mem_append, mem_singleton] at this
      exact this.resolve_right h2
    have hrowR : row (cur / 128) ∈ R := hmem _ (by simp only [since]; omega) (by simp)
    have hind2R : ind2 ∈ R := hmem _ (by simp only [since]; omega) (by simp)
    have hnew : data (156 + cur) ∉ R := by
      intro hmem'
      have := nodup_roles (156 + cur + 1)
      rw [← hr] at this
      exact (disjoint_of_nodup_append this) hmem' (mem_singleton_self _)
    have hrow : blockOf (update d ino.indirect2.toNat b1) ino (row (cur / 128)) = b1.entry (cur / 128) := by
      simp only [blockOf, update_self]
    -- the row is another block than `indirect2`, so its lock is free and the disk has its contents
    have hne : (b1.entry (cur / 128)).toNat ≠ ino.indirect2.toNat := by
      intro e
      have := hg.inj hnd hrowR hind2R (by rw [hrow]; exact UInt32.toNat_inj.mp e)
      cases this
    have hnl : (b1.entry (cur / 128)).toNat ∉ ino.indirect2.toNat :: L := by
      rw [mem_cons, not_or]
      exact ⟨hne, hL _ (hrow ▸ hg.mem hrowR)⟩
    have hslot : (data (156 + cur)).slot = cur % 128 := by
      simp only [slot]
      rw [if_neg (by omega), show 156 + cur - 156 = cur by omega]
    have hh := hg.hang hnd hnew (p := row (cur / 128))
      (by rw [parent_data, if_neg (by omega), if_neg (by omega), show 156 + cur - 156 = cur by omega]) hrowR
      (by rw [hslot]; omega)
    rw [hr, hslot, hrow, update_of_ne hne, Function.update_comm hne.symm, Nat.add_assoc,
      ← rolesFrom_pos (ρ := ind2) (Nat.succ_pos cur)] at hh
    obtain ⟨b', rest', d', hrun, hgr⟩ := ih (by omega) (by omega) hh
    refine ⟨b', rest', d', ?_, ?_⟩
    · refine Runs.bind (Runs.assert (by omega)) (Runs.bind hopen ?_)
      refine Runs.bind (Runs.modify hnl (Runs.bind (nextBlock_runs x xs) (Runs.ret _))) ?_
      by_cases hend : cur % 128 + 1 = 128
      · rw [if_pos hend]
        rw [show (cur + 1) / 128 = cur / 128 + 1 by omega, show (cur + 1) % 128 = 0 by omega] at hrun
        exact hrun
      · rw [if_neg hend]
        rw [show (cur + 1) / 128 = cur / 128 by omega, show (cur + 1) % 128 = cur % 128 + 1 by omega] at hrun
        exact hrun
    · rw [show cur + (n + 1) = cur + 1 + n by omega]
      exact hgr

/-! ## The whole of `increase_size` -/

/-- `ρ` is the index block that the first data block past `base` brings. -/
theorem takeIndex_runs (base : Nat) {current : Nat} (ρ : Role) {S : List Role} (hr : roles base ++ ρ :: S = roles (base + 1))
    (hρ : ρ.parent = none) (hset : ino.setRoot ρ (ino.rootOf ρ) = ino) (hm : base + 1 ≤ m)
    (hW : W.length = (roles m).length) (h : Grown d₀ W (roles (base + current)) d ino rest) :
    ∃ x rest', Runs (takeIndex current (ino.rootOf ρ) rest) L d (x, rest') d ∧
      Grown d₀ W (rolesFrom base ρ current) d (ino.setRoot ρ x) rest' := by
  unfold takeIndex
  by_cases h0 : current = 0
  · subst h0
    obtain ⟨x, xs, rfl⟩ := h.next hW hr hm
    have hnew : ρ ∉ roles (base + 0) := by
      intro hmem
      have := nodup_roles (base + 1)
      rw [← hr] at this
      exact (disjoint_of_nodup_append this) hmem mem_cons_self
    exact ⟨x, xs, nextBlock_runs x xs, h.root hnew hρ⟩
  · rw [if_neg h0, rolesFrom_pos (Nat.pos_of_ne_zero h0)]
    exact ⟨_, rest, Runs.ret _, hset.symm ▸ h⟩

theorem increaseRows_runs (current total : Nat) (hct : current ≤ total) (htot : total ≤ 16384) (hm : 156 + total = m)
    (hpos : 0 < total) (hW : W.length = (roles m).length) (hnd : W.Nodup) (hL : ∀ x ∈ W, x.toNat ∉ L)
    (h : Grown d₀ W (roles (156 + current)) d ino rest) :
    ∃ ino' d' rest', Runs (ino.increaseRows current total rest) L d ino' d' ∧ Grown d₀ W (roles m) d' ino' rest' ∧
      ino'.size = ino.size ∧ ino'.type_ = ino.type_ := by
  obtain ⟨i2, rest1, htake, hg⟩ := takeIndex_runs (L := L) 156 ind2 (S := [row 0, data 156])
    (by rw [roles]; rfl) rfl rfl (by omega) hW h
  have hmem : ind2 ∈ rolesFrom 156 ind2 current := by rw [mem_rolesFrom]; simp only [since, and_true]; omega
  have hi2 : i2.toNat ∉ L := hL _ (hg.mem hmem)
  have hopen : Grown d₀ W (rolesFrom 156 ind2 current) (update d (ino.setRoot ind2 i2).indirect2.toNat (d i2.toNat))
      (ino.setRoot ind2 i2) rest1 := by
    show Grown d₀ W _ (update d i2.toNat (d i2.toNat)) _ _
    rwa [update_eq_self]
  obtain ⟨b', rest', d', hrun, hg'⟩ := fillRows_runs (m := m) (total - current) (by omega) (by omega) hW hnd hL hopen
  refine ⟨ino.setRoot ind2 i2, update d' i2.toNat b', rest', Runs.bind htake ?_, ?_, rfl, rfl⟩
  · exact Runs.bind (Runs.modify hi2 (Runs.bind hrun (Runs.ret _))) (Runs.ret _)
  · rw [rolesFrom_pos (by omega), show 156 + (current + (total - current)) = m by omega] at hg'
    exact hg'

theorem increaseIndirect_runs (current total : Nat) (hct : current ≤ total) (htot : total ≤ 16512) (hm : 28 + total = m)
    (hpos : 0 < total) (hW : W.length = (roles m).length) (hnd : W.Nodup) (hL : ∀ x ∈ W, x.toNat ∉ L)
    (h : Grown d₀ W (roles (28 + current)) d ino rest) :
    ∃ ino' d' rest', Runs (ino.increaseIndirect current total rest) L d ino' d' ∧ Grown d₀ W (roles m) d' ino' rest' ∧
      ino'.size = ino.size ∧ ino'.type_ = ino.type_ := by
  obtain ⟨i1, rest1, htake, hg⟩ := takeIndex_runs (L := L) 28 ind1 (S := [data 28])
    (by rw [roles]; rfl) rfl rfl (by omega) hW h
  have hmem : ind1 ∈ rolesFrom 28 ind1 current := by rw [mem_rolesFrom]; simp only [since, and_true]; omega
  have hi1 : i1.toNat ∉ L := hL _ (hg.mem hmem)
  obtain ⟨b', rest2, hfill, hg'⟩ : ∃ b' rest', Runs (fill setEntry (min total 128 - current) current (d i1.toNat) rest1)
      (i1.toNat :: L) d (b', rest') d ∧ Grown d₀ W (rolesFrom 28 ind1 (current + (min total 128 - current)))
        (update d i1.toNat b') { ino with indirect1 := i1 } rest' := by
    by_cases hc : current ≤ min total 128
    · exact fillIndirect1_runs { ino with indirect1 := i1 } (m := m) (min total 128 - current) (by omega) (by omega)
        hW hnd (by rw [update_eq_self]; exact hg)
    · rw [show min total 128 - current = 0 by omega]
      exact ⟨d i1.toNat, rest1, Runs.ret _, by rw [update_eq_self]; exact hg⟩
  rw [rolesFrom_pos (by omega)] at hg'
  have hmod := Runs.modify (d := d) (f := fun b => do
    let r ← fill setEntry (min total 128 - current) current b rest1
    pure (r.2, r.1)) hi1 (Runs.bind hfill (Runs.ret _))
  by_cases h128 : total > 128
  · rw [show 28 + (current + (min total 128 - current)) = 156 + (max current 128 - 128) by omega] at hg'
    obtain ⟨ino', d', rest', hrun, hres, hsz, hty⟩ := increaseRows_runs (L := L) (m := m) (max current 128 - 128)
      (total - 128) (by omega) (by omega) (by omega) (by omega) hW hnd hL hg'
    refine ⟨ino', d', rest', Runs.bind htake (Runs.bind hmod ?_), hres, hsz, hty⟩
    rw [if_pos h128]
    exact hrun
  · rw [show 28 + (current + (min total 128 - current)) = m by omega] at hg'
    refine ⟨_, _, rest2, Runs.bind htake (Runs.bind hmod ?_), hg', rfl, rfl⟩
    rw [if_neg h128]
    exact Runs.ret _

end

variable {newSize : UInt32} {v : List UInt32}

theorem increaseSize_runs (ino : DiskInode) {L : List Nat} {d : Disk} {n m : Nat}
    (hn : ino.dataBlocks = n) (hm : dataBlocksOf newSize = m) (hnm : n ≤ m) (hmax : m ≤ 16540)
    (hlen : v.length = (roles m).length - (roles n).length) (hnd : ((roles n).map (blockOf d ino) ++ v).Nodup)
    (hL : ∀ x ∈ (roles n).map (blockOf d ino) ++ v, x.toNat ∉ L) :
    ∃ ino' d', Runs (ino.increaseSize newSize v) L d ino' d' ∧ ino'.size = newSize ∧ ino'.type_ = ino.type_ ∧
      (roles m).map (blockOf d' ino') = (roles n).map (blockOf d ino) ++ v ∧
      ∀ x, (∀ r ∈ roles m, r.isIndex = true → (blockOf d' ino' r).toNat ≠ x) → d' x = d x := by
  generalize hWdef : (roles n).map (blockOf d ino) ++ v = W at *
  have hW : W.length = (roles m).length := by
    have := (roles_initial hnm).length_le
    rw [← hWdef, length_append, length_map, hlen]
    omega
  have hstart : Grown d W (roles n) d { ino with size := newSize } v := ⟨closed_roles n, hWdef, fun _ _ => rfl⟩
  -- all the new blocks are used when every role has one
  have hall : ∀ {ino' d' rest}, Grown d W (roles m) d' ino' rest → (roles m).map (blockOf d' ino') = W := by
    intro ino' d' rest hg
    have h1 := congrArg List.length hg.blocks
    rw [length_append, length_map] at h1
    have h2 : rest = [] := eq_nil_of_length_eq_zero (by omega)
    have h3 := hg.blocks
    rwa [h2, append_nil] at h3
  obtain ⟨direct, rest1, hfill, hg⟩ : ∃ direct rest', Runs (fill Arr.set (min m 28 - n) n ino.direct v) L d (direct, rest') d ∧
      Grown d W (roles (n + (min m 28 - n))) d { ino with size := newSize, direct := direct } rest' := by
    by_cases hc : n ≤ min m 28
    · exact fillDirect_runs { ino with size := newSize } (m := m) (min m 28 - n) (by omega) (by omega) hW hstart
    · rw [show min m 28 - n = 0 by omega]
      exact ⟨ino.direct, v, Runs.ret _, hstart⟩
  unfold increaseSize
  rw [hn, hm]
  by_cases h28 : m > 28
  · rw [show n + (min m 28 - n) = 28 + (max n 28 - 28) by omega] at hg
    obtain ⟨ino', d', rest', hrun, hres, hsz, hty⟩ := increaseIndirect_runs (L := L) (m := m) (max n 28 - 28)
      (m - 28) (by omega) (by omega) (by omega) (by omega) hW hnd hL hg
    refine ⟨ino', d', Runs.bind hfill ?_, hsz, hty, hall hres, hres.frame⟩
    show Runs (if m > 28 then _ else _) L d ino' d'
    rw [if_pos h28]
    exact hrun
  · rw [show n + (min m 28 - n) = m by omega] at hg
    refine ⟨{ ino with size := newSize, direct := direct }, d, Runs.bind hfill ?_, rfl, rfl, hall hg, fun _ _ => rfl⟩
    show Runs (if m > 28 then _ else _) L d _ d
    rw [if_neg h28]
    exact Runs.ret _

/-! ## The size of a grown inode -/

theorem increaseIndirect_size (ino : DiskInode) {i : DiskInode} {current total : Nat} {s t : Cells Nat Block}
    (h : exec (ino.increaseIndirect current total v) s = some (i, t)) : i.size = ino.size := by
  obtain ⟨r, u, -, h⟩ := exec_bind_some h
  obtain ⟨v1, u1, -, h⟩ := exec_bind_some h
  split at h
  · obtain ⟨r2, u2, -, h⟩ := exec_bind_some h
    obtain ⟨_, u3, -, h⟩ := exec_bind_some h
    cases h
    rfl
  · cases h
    rfl

theorem increaseSize_size {ino i : DiskInode} {s t : Cells Nat Block}
    (h : exec (ino.increaseSize newSize v) s = some (i, t)) : i.size = newSize := by
  obtain ⟨r, u, -, h⟩ := exec_bind_some h
  dsimp only at h
  split at h
  · rw [increaseIndirect_size _ h]
  · cases h
    rfl

/-! ## Growing to the same size -/

section
variable {ino : DiskInode} {L : List Nat} {d : Disk}

theorem takeIndex_same {current : Nat} (h : 0 < current) (x : UInt32) : Runs (takeIndex current x []) L d (x, []) d := by
  rw [takeIndex, if_neg (by omega)]
  exact Runs.ret _

theorem increaseRows_same {current : Nat} (h : 0 < current) (hi : ino.indirect2.toNat ∉ L) :
    Runs (ino.increaseRows current current []) L d ino d := by
  refine Runs.bind (takeIndex_same h _) (Runs.bind (Runs.modify_same (a := ()) hi ?_) (Runs.ret _))
  rw [Nat.sub_self]
  exact Runs.bind (Runs.ret _) (Runs.ret _)

theorem increaseIndirect_same {current : Nat} (h : 0 < current) (hi : ino.indirect1.toNat ∉ L)
    (hi' : current > 128 → ino.indirect2.toNat ∉ L) : Runs (ino.increaseIndirect current current []) L d ino d := by
  refine Runs.bind (takeIndex_same h _) (Runs.bind (Runs.modify_same (a := []) hi ?_) ?_)
  · rw [show min current 128 - current = 0 by omega]
    exact Runs.bind (Runs.ret _) (Runs.ret _)
  · by_cases h128 : current > 128
    · rw [if_pos h128, show max current 128 - 128 = current - 128 by omega]
      exact increaseRows_same (by omega) (hi' h128)
    · rw [if_neg h128]
      exact Runs.ret _

theorem increaseSize_same (h : Placed L d ino ino.dataBlocks) : Runs (ino.increaseSize ino.size []) L d ino d := by
  have hfill : Runs (fill Arr.set (min ino.dataBlocks 28 - ino.dataBlocks) ino.dataBlocks ino.direct []) L d (ino.direct, []) d := by
    rw [show min ino.dataBlocks 28 - ino.dataBlocks = 0 by omega]
    exact Runs.ret _
  refine Runs.bind hfill ?_
  show Runs (if ino.dataBlocks > 28 then ino.increaseIndirect (max ino.dataBlocks 28 - 28) (ino.dataBlocks - 28) [] else pure ino) L d
    ino d
  by_cases h28 : ino.dataBlocks > 28
  · rw [if_pos h28, show max ino.dataBlocks 28 - 28 = ino.dataBlocks - 28 by omega]
    refine increaseIndirect_same (by omega) (h.unlocked ind1 (mem_roles.mpr h28)) fun h128 => ?_
    exact h.unlocked ind2 (mem_roles.mpr (by simp only [since]; omega))
  · rw [if_neg h28]
    exact Runs.ret _

end

/-! ## Past the last row -/

theorem fillRows_overflows (n : Nat) {a0 b0 : Nat} (ha : 128 * a0 + b0 ≤ 16384) (hb : b0 < 128)
    (hn : 16384 < 128 * a0 + b0 + n) (b : Block) (v : List UInt32) (s : Cells Nat Block) :
    exec (fillRows n a0 b0 b v) s = none := by
  induction n generalizing a0 b0 b v s with
  | zero => omega
  | succ n ih =>
    rw [fillRows]
    by_cases hrow : a0 < 128
    · refine exec_bind_none (fun _ s => exec_bind_none (fun r s => exec_bind_none (fun v s => ?_) s) s) s
      split
      · exact ih (by omega) (by omega) (by omega) _ _ _
      · exact ih (by omega) (by omega) (by omega) _ _ _
    · rw [exec_bind, Prog.assert, if_neg hrow]
      rfl

theorem increaseRows_overflows (ino : DiskInode) {current total : Nat} (hc : current ≤ 16384) (ht : 16384 < total)
    (v : List UInt32) (s : Cells Nat Block) : exec (ino.increaseRows current total v) s = none := by
  refine exec_bind_none (fun r s => ?_) s
  rw [exec_bind, exec_modify_panics (fun b s => ?_)]
  · rfl
  · rw [exec_bind, fillRows_overflows _ (by omega) (by omega) (by omega)]
    rfl

theorem increaseSize_overflows (ino : DiskInode) (hc : ino.dataBlocks ≤ 16540)
    (ht : 16540 < dataBlocksOf newSize) (v : List UInt32) (s : Cells Nat Block) :
    exec (ino.increaseSize newSize v) s = none := by
  refine exec_bind_none (fun r s => ?_) s
  simp only [if_pos (show dataBlocksOf newSize > 28 by omega)]
  refine exec_bind_none (fun r s => exec_bind_none (fun v s => ?_) s) s
  rw [if_pos (show dataBlocksOf newSize - 28 > 128 by omega)]
  exact increaseRows_overflows _ (by omega) (by omega) _ _

end TCore.EasyFs
