/-
  TCore.EasyFs.VolumeGrow — growing an inode of a volume and writing into it.

  `increase_size` of vfs.rs allocates the blocks the new size takes and hangs them into the
  inode, with the lock of the inode's block held. `Grew` says what it leaves: the old blocks in
  their roles, the new ones after them, the data bitmap with the new bits, and nothing else
  changed but index blocks. What is written afterwards lies inside the new size, and then the
  inode goes back into its slot: `Grew.finish` is the whole step.
-/

import TCore.EasyFs.VolumeAlloc

namespace TCore.EasyFs

open TCore.Lib
open Role (data ind1 ind2 row)
open List Runs UInt32 DiskInode Function Block

/-! ## Inode slots -/

/-- The disk with inode `t` written. -/
def Geometry.setInodeOf (g : Geometry) (d : Disk) (t : Nat) (ino : DiskInode) : Disk :=
  Function.update d (g.handle t).blockId ((d (g.handle t).blockId).setInode (g.handle t).blockOffset ino)

variable {ino : DiskInode} {L : List Nat}

section
variable {g : Geometry} {d : Disk} {t : Nat}

theorem inodeOf_setInodeOf (ino : DiskInode) : g.inodeOf (g.setInodeOf d t ino) t = ino := by
  simp only [Geometry.inodeOf, Geometry.setInodeOf, Geometry.handle, update_self]
  exact inode_setInode _ _ (by omega)

theorem inodeOf_setInodeOf_ne (ino : DiskInode) {i : Nat} (hi : i ≠ t) :
    g.inodeOf (g.setInodeOf d t ino) i = g.inodeOf d i := by
  simp only [Geometry.inodeOf, Geometry.setInodeOf, Geometry.handle]
  by_cases hb : g.inodeStart + i / 4 = g.inodeStart + t / 4
  · rw [hb, update_self]
    exact inode_setInode_ne _ _ (by omega)
  · rw [update_of_ne hb]

theorem setInodeOf_ne (ino : DiskInode) {x : Nat} (hx : x ≠ (g.handle t).blockId) : g.setInodeOf d t ino x = d x :=
  update_of_ne hx _ _

variable {α : Type}

/-- Running a closure on inode `t` and writing back what it leaves. -/
theorem modifyDiskInode_runs {f : DiskInode → Fs (α × DiskInode)} {a : α} {d' : Disk}
    (hf : Runs (f (g.inodeOf d t)) [(g.handle t).blockId] d (a, ino) d')
    (hsame : d' (g.handle t).blockId = d (g.handle t).blockId) :
    Runs ((g.handle t).modifyDiskInode f) [] d a (g.setInodeOf d' t ino) := by
  rw [Geometry.setInodeOf, hsame]
  exact modify (by simp) (bind hf (ret _))

/-- The closure of an operation that has returned, and the inode it left in the slot. -/
theorem exec_modifyDiskInode_some {f : DiskInode → Fs (α × DiskInode)} {a : α} {u : Cells Nat Block}
    (h : exec ((g.handle t).modifyDiskInode f) ⟨d, L⟩ = some (a, u)) :
    ∃ ino' w, exec (f (g.inodeOf d t)) ⟨d, (g.handle t).blockId :: L⟩ = some ((a, ino'), w) ∧ g.inodeOf u.val t = ino' ∧
      ∀ x, x ≠ (g.handle t).blockId → u.val x = w.val x := by
  obtain ⟨b, w, hclosure, rfl⟩ := exec_modify_some h
  obtain ⟨⟨a', ino'⟩, w', hf, hput⟩ := exec_bind_some hclosure
  cases hput
  refine ⟨ino', w, hf, ?_, fun x hx => update_of_ne hx _ _⟩
  show inode (update w.val (g.handle t).blockId
    ((d (g.handle t).blockId).setInode (g.handle t).blockOffset ino') (g.handle t).blockId) (g.handle t).blockOffset = ino'
  rw [update_self, inode_setInode _ _ (by simp only [Geometry.handle]; omega)]

theorem exec_syncAll_some {a b : α} {s u : Cells Nat Block}
    (h : exec (blockCacheSyncAll >>= fun _ => pure a) s = some (b, u)) : b = a ∧ u = s := by
  obtain ⟨_, v, hsync, hret⟩ := exec_bind_some h
  simp only [blockCacheSyncAll, exec_sync, exec_ret] at hsync
  split at hsync
  · cases hsync
    cases hret
    exact ⟨rfl, rfl⟩
  · cases hsync

end

/-! ## Growing -/

/-- Inode `t` has become `ino'` and has taken the data blocks `ks`. -/
structure Grew (g : Geometry) (d : Disk) (t : Nat) (ks : List Nat) (ino' : DiskInode) (d' : Disk) : Prop where
  kind : ino'.type_ = (g.inodeOf d t).type_
  larger : (g.inodeOf d t).size.toNat ≤ ino'.size.toNat
  size : ino'.size.toNat ≤ 8468480
  fresh : ∀ k ∈ ks, k < g.dataAreaBlocks ∧ g.used d k = false
  nodup : ks.Nodup
  blocks : (roles ino'.dataBlocks).map (blockOf d' ino') =
    (g.rolesAt d t).map (blockOf d (g.inodeOf d t)) ++ ks.map g.blockId
  frame : ∀ x, ¬g.inDataBitmap x → (∀ r ∈ roles ino'.dataBlocks, r.isIndex = true → (blockOf d' ino' r).toNat ≠ x) →
    d' x = d x
  bits : ∀ k < 4096 * g.dataBitmapBlocks, g.used d' k = (g.used d k || decide (k ∈ ks))

/-- The blocks of an inode lie in the data area, their bits are set, and they are all different. -/
structure Holds (g : Geometry) (d : Disk) (ino : DiskInode) : Prop where
  size : ino.size.toNat ≤ 8468480
  owned : ∀ r ∈ roles ino.dataBlocks, ∃ k < g.dataAreaBlocks, (blockOf d ino r).toNat = g.dataStart + k ∧ g.used d k = true
  inj : ∀ r ∈ roles ino.dataBlocks, ∀ s ∈ roles ino.dataBlocks, blockOf d ino r = blockOf d ino s → r = s

section
variable {g : Geometry} {d : Disk} {m t : Nat}

theorem FsInv.holds (h : FsInv g d m) (ht : t < m) : Holds g d (g.inodeOf d t) :=
  ⟨h.size t ht, h.owned t ht, fun r hr s hs e => (h.inj t ht t ht r hr s hs (congrArg toNat e)).2⟩

namespace Holds

variable {ino : DiskInode} {ks : List Nat}

/-- The blocks of an inode and new ones are all different. -/
theorem nodup_blocks (h : Holds g d ino) (hnd : ks.Nodup) (hks : ∀ k ∈ ks, k < g.dataAreaBlocks + 3 ∧ g.used d k = false) :
    ((roles ino.dataBlocks).map (blockOf d ino) ++ ks.map g.blockId).Nodup := by
  refine Nodup.append ?_ ?_ ?_
  · exact Nodup.map_on (fun r hr s hs e => h.inj r hr s hs e) (nodup_roles _)
  · exact Nodup.map_on (fun k hk k' hk' e => Geometry.blockId_inj (hks k hk).1 (hks k' hk').1 e) hnd
  · intro x hx hx'
    obtain ⟨r, hr, rfl⟩ := mem_map.mp hx
    obtain ⟨k, hk, e⟩ := mem_map.mp hx'
    obtain ⟨k', hk', hb, hu⟩ := h.owned r hr
    obtain ⟨hnear, hclear⟩ := hks k hk
    have e := congrArg toNat e
    by_cases harea : k < g.dataAreaBlocks
    · rw [Geometry.blockId_toNat harea] at e
      rw [show k' = k by omega, hclear] at hu
      cases hu
    · have hspare := Geometry.blockId_spare (by omega) hnear
      have hsome := g.some_inode
      simp only [Geometry.totalBlocks, Geometry.dataStart] at hspare hb
      omega

/-- None of them lies in the bitmaps or among the inodes. -/
theorem far_blocks (h : Holds g d ino) (hks : ∀ k ∈ ks, k < g.dataAreaBlocks + 3) :
    ∀ x ∈ (roles ino.dataBlocks).map (blockOf d ino) ++ ks.map g.blockId, x.toNat < 2 ∨ g.dataStart ≤ x.toNat := by
  intro x hx
  rcases mem_append.mp hx with hx | hx
  · obtain ⟨r, hr, rfl⟩ := mem_map.mp hx
    obtain ⟨k, -, hb, -⟩ := h.owned r hr
    omega
  · obtain ⟨k, hk, rfl⟩ := mem_map.mp hx
    by_cases harea : k < g.dataAreaBlocks
    · rw [Geometry.blockId_toNat harea]
      omega
    · have hspare := Geometry.blockId_spare (by omega) (hks k hk)
      rw [Geometry.totalBlocks] at hspare
      omega

end Holds

theorem totalBlocks_mono {n n' : Nat} (h : n ≤ n') : totalFor n ≤ totalFor n' := by
  rw [← roles_length, ← roles_length]
  exact (roles_initial h).length_le

variable {newSize : UInt32}

theorem blocksNumNeeded_runs (hle : ino.size.toNat ≤ newSize.toNat)
    (hmax : newSize.toNat ≤ 8468480) : Runs (ino.blocksNumNeeded newSize) L d
      (totalBlocks newSize - totalBlocks ino.size) d := by
  have hmono : totalBlocks ino.size ≤ totalBlocks newSize := by
    unfold totalBlocks
    rw [dataBlocksOf_eq hmax, dataBlocksOf_eq (by omega)]
    exact totalBlocks_mono (by omega)
  have hlt : totalBlocks newSize < 2 ^ 32 := by
    unfold totalBlocks totalFor
    rw [dataBlocksOf_eq hmax]
    split <;> split <;> omega
  refine bind (assert (le_iff_toNat_le.mpr hle)) ?_
  rw [show (totalBlocks newSize + 2 ^ 32 - totalBlocks ino.size) % 2 ^ 32 =
    totalBlocks newSize - totalBlocks ino.size by omega]
  exact ret _

/-- A size that is not larger changes nothing. -/
theorem increaseSize_noop (fs : EasyFileSystem)
    (h : Placed L d ino ino.dataBlocks) (hmax : ino.size.toNat ≤ 8468480) (hle : newSize.toNat ≤ ino.size.toNat) :
    Runs (increaseSize fs newSize ino) L d ino d := by
  unfold increaseSize
  by_cases hlt : newSize < ino.size
  · rw [if_pos hlt]
    exact ret _
  · have heq : newSize = ino.size := by
      rw [lt_iff_toNat_lt] at hlt
      exact UInt32.toNat_inj.mp (by omega)
    rw [if_neg hlt, heq]
    refine bind (blocksNumNeeded_runs le_rfl hmax) ?_
    rw [Nat.sub_self]
    exact bind (ret _) (increaseSize_same h)

/-- The blocks that `alloc_data` answers are hung into the inode, also those past the end of the device. -/
theorem increaseSize_takes {ks : List Nat} {d1 : Disk} (h : Holds g d ino)
    (hle : ino.size.toNat ≤ newSize.toNat) (hmax : newSize.toNat ≤ 8468480)
    (halloc : Runs (allocBlocks g.efs (totalBlocks newSize - totalBlocks ino.size)) L d (ks.map g.blockId) d1)
    (hlen : ks.length = totalBlocks newSize - totalBlocks ino.size) (htook : Took g d ks d1)
    (hnear : ∀ k ∈ ks, k < g.dataAreaBlocks + 3) (hL : ∀ x ∈ L, 2 ≤ x ∧ x < 1 + 1025 * g.inodeBitmapBlocks) :
    ∃ ino' d', Runs (increaseSize g.efs newSize ino) L d ino' d' ∧ ino'.size = newSize ∧ ino'.type_ = ino.type_ ∧
      (roles ino'.dataBlocks).map (blockOf d' ino') = (roles ino.dataBlocks).map (blockOf d ino) ++ ks.map g.blockId ∧
      (∀ x, ¬g.inDataBitmap x → (∀ r ∈ roles ino'.dataBlocks, r.isIndex = true → (blockOf d' ino' r).toNat ≠ x) → d' x = d x) ∧
      ∀ k < 4096 * g.dataBitmapBlocks, g.used d' k = (g.used d k || decide (k ∈ ks)) := by
  -- allocation writes the data bitmap only, so the inode's blocks are where they were
  have hblk : ∀ r ∈ roles ino.dataBlocks, blockOf d1 ino r = blockOf d ino r := by
    refine blockOf_frame (fun _ _ _ => rfl) fun r hr _ => htook.outside _ fun hbm => ?_
    obtain ⟨k, -, hb, -⟩ := h.owned r hr
    have := hbm.2
    omega
  have hmap : (roles ino.dataBlocks).map (blockOf d1 ino) = (roles ino.dataBlocks).map (blockOf d ino) :=
    map_congr_left hblk
  have hW := h.nodup_blocks htook.nodup fun k hk => ⟨hnear k hk, (htook.clear k hk).2⟩
  have hfar := h.far_blocks hnear
  rw [← hmap] at hW hfar
  have hunlocked : ∀ x ∈ (roles ino.dataBlocks).map (blockOf d1 ino) ++ ks.map g.blockId, x.toNat ∉ L := by
    intro x hx hmem
    have h1 := hL _ hmem
    have h2 := hfar x hx
    rw [Geometry.dataStart] at h2
    omega
  have hn : ino.dataBlocks = (ino.size.toNat + 511) / 512 := dataBlocksOf_eq h.size
  have hm := dataBlocksOf_eq hmax
  have hnm : ino.dataBlocks ≤ (newSize.toNat + 511) / 512 := by rw [hn]; omega
  have hmm : (newSize.toNat + 511) / 512 ≤ 16540 := by omega
  have hlen' : (ks.map g.blockId).length =
      (roles ((newSize.toNat + 511) / 512)).length - (roles ino.dataBlocks).length := by
    rw [length_map, hlen, roles_length, roles_length, ← hm]
    rfl
  obtain ⟨ino', d2, hrun, hsz, hty, hblocks, hframe⟩ := increaseSize_runs ino (L := L) (d := d1) (v := ks.map g.blockId) rfl
    hm hnm hmm hlen' hW hunlocked
  have hnb : ino'.dataBlocks = (newSize.toNat + 511) / 512 := by rw [dataBlocks, hsz, hm]
  refine ⟨ino', d2, ?_, hsz, hty, by rw [hnb, hblocks, hmap], ?_, ?_⟩
  · rw [increaseSize, if_neg (by rw [lt_iff_toNat_lt]; omega)]
    exact bind (blocksNumNeeded_runs hle hmax) (bind halloc hrun)
  · intro x hx hidx
    rw [hframe x (hnb ▸ hidx), htook.outside x hx]
  · intro k hk
    rw [← htook.bits k]
    refine Geometry.used_congr (fun x hx => hframe x fun r hr _ e => ?_) hk
    have hmem : blockOf d2 ino' r ∈ (roles ((newSize.toNat + 511) / 512)).map (blockOf d2 ino') := mem_map_of_mem hr
    rw [hblocks] at hmem
    have h1 := hfar _ hmem
    have h2 := hx.1
    have h3 := hx.2
    have hsome := g.some_inode
    omega

/-- The lock that is held while an inode grows. -/
theorem FsInv.slot_low (h : FsInv g d m) (ht : t < m) :
    ∀ x ∈ [(g.handle t).blockId], 2 ≤ x ∧ x < 1 + 1025 * g.inodeBitmapBlocks := by
  intro x hx
  have hroom := h.room
  have hsome := g.some_inode
  rw [mem_singleton.mp hx]
  simp only [Geometry.handle, Geometry.inodeStart]
  omega

theorem increaseSize_grew (newSize : UInt32) (h : FsInv g d m) (ht : t < m) (hmax : newSize.toNat ≤ 8468480)
    (hfree : totalBlocks newSize - totalBlocks (g.inodeOf d t).size ≤ g.free d) :
    ∃ ks ino' d', Runs (increaseSize g.efs newSize (g.inodeOf d t)) [(g.handle t).blockId] d ino' d' ∧
      ino'.size.toNat = max (g.inodeOf d t).size.toNat newSize.toNat ∧ Grew g d t ks ino' d' := by
  by_cases hlt : newSize < (g.inodeOf d t).size
  · rw [increaseSize, if_pos hlt]
    rw [lt_iff_toNat_lt] at hlt
    refine ⟨[], g.inodeOf d t, d, ret _, by omega, rfl, le_refl _, h.size t ht, by simp, nodup_nil, ?_,
      fun _ _ _ => rfl, by simp⟩
    rw [map_nil, append_nil]
    rfl
  · have hle : (g.inodeOf d t).size.toNat ≤ newSize.toNat := by
      rw [lt_iff_toNat_lt] at hlt
      omega
    have hslot := h.slot_low ht
    obtain ⟨ks, d1, halloc, hlen, htook, hks⟩ := allocBlocks_runs (L := [(g.handle t).blockId]) _
      (fun x hx hbm => by have := hslot x hx; have := hbm.1; omega) hfree
    obtain ⟨ino', d2, hrun, hsz, hty, hblocks, hframe, hbits⟩ := increaseSize_takes (h.holds ht) hle hmax halloc hlen htook
      (fun k hk => by have := hks k hk; omega) hslot
    exact ⟨ks, ino', d2, hrun, by rw [hsz, max_eq_right hle], hty, hsz ▸ hle, hsz ▸ hmax,
      fun k hk => ⟨hks k hk, (htook.clear k hk).2⟩, htook.nodup, hblocks, hframe, hbits⟩

end

/-! ## What growing leaves -/

namespace Grew

variable {g : Geometry} {d d1 : Disk} {m t : Nat} {ks : List Nat} {ino' : DiskInode}

variable (hg : Grew g d t ks ino' d1)
include hg

variable {r : Role}

/-- A block of the grown inode is one of its old blocks or a new one. -/
theorem cases (hr : r ∈ roles ino'.dataBlocks) :
    (∃ s ∈ g.rolesAt d t, blockOf d1 ino' r = blockOf d (g.inodeOf d t) s) ∨ ∃ k ∈ ks, blockOf d1 ino' r = g.blockId k := by
  have hmem : blockOf d1 ino' r ∈ (roles ino'.dataBlocks).map (blockOf d1 ino') := mem_map_of_mem hr
  rw [hg.blocks] at hmem
  rcases mem_append.mp hmem with hmem | hmem
  · obtain ⟨s, hs, e⟩ := mem_map.mp hmem
    exact Or.inl ⟨s, hs, e.symm⟩
  · obtain ⟨k, hk, e⟩ := mem_map.mp hmem
    exact Or.inr ⟨k, hk, e.symm⟩

theorem exists_role {k : Nat} (hk : k ∈ ks) :
    ∃ r ∈ roles ino'.dataBlocks, blockOf d1 ino' r = g.blockId k := by
  have hmem : g.blockId k ∈ (roles ino'.dataBlocks).map (blockOf d1 ino') := by
    rw [hg.blocks]
    exact mem_append_right _ (mem_map_of_mem hk)
  exact mem_map.mp hmem

variable (h : FsInv g d m) (ht : t < m)
include h ht

theorem larger_blocks :
    (g.inodeOf d t).dataBlocks ≤ ino'.dataBlocks := by
  have h1 := hg.larger
  rw [h.dataBlocks_eq ht, dataBlocks, dataBlocksOf_eq hg.size]
  omega

/-- The old blocks keep their roles. -/
theorem kept (hr : r ∈ g.rolesAt d t) :
    r ∈ roles ino'.dataBlocks ∧ blockOf d1 ino' r = blockOf d (g.inodeOf d t) r := by
  obtain ⟨S, hS⟩ := roles_initial (hg.larger_blocks h ht)
  have hb := hg.blocks
  rw [← hS, map_append] at hb
  have hmap := (append_inj hb (by simp [Geometry.rolesAt])).1
  refine ⟨by rw [← hS]; exact mem_append_left _ hr, ?_⟩
  exact map_inj_left.mp hmap r hr

/-- Every block of the grown inode is a data block, marked in the bitmap, that was the inode's or
    free before. -/
theorem owned (hr : r ∈ roles ino'.dataBlocks) :
    ∃ k < g.dataAreaBlocks, (blockOf d1 ino' r).toNat = g.dataStart + k ∧ g.used d1 k = true ∧
      (g.used d k = false ∧ k ∈ ks ∨ ∃ s ∈ g.rolesAt d t, g.blockAt d t s = g.dataStart + k) := by
  have hcov := g.covered
  rcases hg.cases hr with ⟨s, hs, e⟩ | ⟨k, hk, e⟩
  · obtain ⟨k, hk, hb, hu⟩ := h.owned t ht s hs
    exact ⟨k, hk, by rw [e]; exact hb, by rw [hg.bits k (by omega), hu, Bool.true_or], Or.inr ⟨s, hs, hb⟩⟩
  · obtain ⟨h1, h2⟩ := hg.fresh k hk
    exact ⟨k, h1, by rw [e, Geometry.blockId_toNat h1], by rw [hg.bits k (by omega)]; simp [hk], Or.inl ⟨h2, hk⟩⟩

theorem inj {s : Role} (hr : r ∈ roles ino'.dataBlocks)
    (hs : s ∈ roles ino'.dataBlocks) (e : blockOf d1 ino' r = blockOf d1 ino' s) : r = s := by
  have hnd : ((g.rolesAt d t).map (blockOf d (g.inodeOf d t)) ++ ks.map g.blockId).Nodup :=
    (h.holds ht).nodup_blocks hg.nodup fun k hk => ⟨Nat.lt_add_right 3 (hg.fresh k hk).1, (hg.fresh k hk).2⟩
  rw [← hg.blocks] at hnd
  exact inj_on_of_nodup_map hnd hr hs e

theorem placed :
    Placed [(g.handle t).blockId] d1 ino' ino'.dataBlocks := by
  have hsz := hg.size
  refine ⟨?_, fun r hr s hs e => hg.inj h ht hr hs e, fun r hr hmem => ?_⟩
  · rw [dataBlocks, dataBlocksOf_eq hsz]
    omega
  · obtain ⟨k, -, hb, -⟩ := hg.owned h ht hr
    have := h.handle_lt ht
    rw [mem_singleton] at hmem
    omega

/-- Blocks outside the data area are untouched, the data bitmap apart. -/
theorem low {x : Nat} (hx : x < g.dataStart)
    (hb : ¬g.inDataBitmap x) : d1 x = d x := by
  refine hg.frame x hb fun r hr _ e => ?_
  obtain ⟨k, -, hk, -⟩ := hg.owned h ht hr
  omega

/-- A data block that is neither the inode's nor new is untouched. -/
theorem far {k : Nat} (hk : k ∉ ks)
    (hold : ∀ s ∈ g.rolesAt d t, g.blockAt d t s ≠ g.dataStart + k) (hr : r ∈ roles ino'.dataBlocks) :
    (blockOf d1 ino' r).toNat ≠ g.dataStart + k := by
  intro e
  obtain ⟨k', -, hb, -, hc⟩ := hg.owned h ht hr
  rw [show k' = k by omega] at hc
  rcases hc with ⟨-, hmem⟩ | ⟨s, hs, hb'⟩
  · exact hk hmem
  · exact hold s hs hb'

/-- The file is extended with zeros. -/
theorem bytes {o : Nat} (ho : o < 512 * ino'.dataBlocks) :
    byteAt d1 ino' o = if o < (g.inodeOf d t).size.toNat then byteAt d (g.inodeOf d t) o else 0 := by
  have hro := data_mem_roles (k := o / 512) (n := ino'.dataBlocks) (by omega)
  -- a data block is no index block, so growing has not written it
  have hsame : d1 (blockOf d1 ino' (data (o / 512))).toNat = d (blockOf d1 ino' (data (o / 512))).toNat := by
    obtain ⟨k, -, hb, -⟩ := hg.owned h ht hro
    refine hg.frame _ (fun hbm => by have := hbm.2; omega) fun r hr hi e => ?_
    have := hg.inj h ht hr hro (UInt32.toNat_inj.mp e)
    rw [this] at hi
    cases hi
  have hnb := h.dataBlocks_eq ht
  by_cases hold : o / 512 < (g.inodeOf d t).dataBlocks
  · have hk := (hg.kept h ht (data_mem_roles hold)).2
    rw [byteAt, hsame, hk]
    by_cases hlt : o < (g.inodeOf d t).size.toNat
    · rw [if_pos hlt]
      rfl
    · rw [if_neg hlt]
      exact h.tail t ht o (by omega) (by omega)
  · rw [if_neg (by omega), byteAt, hsame]
    rcases hg.cases hro with ⟨s, hs, e⟩ | ⟨k, hk, e⟩
    · exfalso
      have hks := hg.kept h ht hs
      have := hg.inj h ht hro hks.1 (by rw [e, hks.2])
      subst this
      exact hold (mem_roles.mp hs)
    · obtain ⟨h1, h2⟩ := hg.fresh k hk
      rw [e, Geometry.blockId_toNat h1, h.zero k h1 h2]
      simp [zero, Arr.replicate, Nat.mod_lt]

end Grew

end TCore.EasyFs
