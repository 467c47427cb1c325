/-
  TCore.EasyFs.SpareBits — a directory that grows by one entry, with free blocks or without.

  The data bitmap has a bit for every block of the data area and some more, and `alloc_data` does not
  know where the data area ends: when no block is free it goes on with the bits past it, whose blocks
  lie behind the device (or are blocks 0 and 1, when the number wraps around). An entry takes at most
  three blocks, so these are never blocks of the bitmaps or of the inodes, and the directory grows all
  the same. Only when the bitmap is full does `alloc_data` panic.

  - `growEntry_cases`: the directory grows by the first clear bits, or there are not enough of them.
-/

import TCore.EasyFs.VolumeCreate

namespace TCore.EasyFs

open TCore.Lib
open Role (data ind1 ind2 row)
open DiskInode UInt32 List Finset

/-! ## How many blocks an entry takes -/

theorem rolesOf_length_le (k : Nat) : (rolesOf k).length ≤ 3 := by
  unfold rolesOf
  by_cases h : k = 28
  · subst h
    decide
  · rw [if_neg h]
    split <;> split <;> simp

theorem totalFor_succ_le {n n' : Nat} (h : n' ≤ n + 1) : totalFor n' - totalFor n ≤ 3 := by
  have hmono := totalBlocks_mono h
  have hsucc : totalFor (n + 1) = totalFor n + (rolesOf n).length := by
    rw [← roles_length, ← roles_length, roles, length_append]
  have := rolesOf_length_le n
  omega

/-- The size of a directory with one entry more. -/
theorem entrySize_toNat {size : UInt32} (h : size.toNat ≤ 8468480) :
    (UInt32.ofNat (32 * (size.toNat / 32 + 1))).toNat = 32 * (size.toNat / 32 + 1) :=
  UInt32.toNat_ofNat_of_lt' (by simp only [UInt32.size]; omega)

theorem entryBlocks_le {size : UInt32} (h : size.toNat ≤ 8468480) :
    totalBlocks (ofNat (32 * (size.toNat / 32 + 1))) - totalBlocks size ≤ 3 := by
  refine totalFor_succ_le ?_
  rw [dataBlocksOf_eq h, dataBlocksOf, entrySize_toNat h, Nat.mod_eq_of_lt (by omega)]
  omega

/-! ## The bits taken -/

section
variable {g : Geometry} {d : Disk} {ino : DiskInode} {L : List Nat}

/-- Past the data area every bit is clear, so the bits taken there are the first ones. -/
theorem Took.near {ks : List Nat} {d' : Disk} (h : Took g d ks d')
    (hspare : ∀ k < 4096 * g.dataBitmapBlocks, g.used d k = true → k < g.dataAreaBlocks) :
    ∀ k ∈ ks, k < g.dataAreaBlocks + ks.length := by
  intro k hk
  by_contra hn
  have hbits := (h.clear k hk).1
  have hsub : insert k (Finset.Ico g.dataAreaBlocks (g.dataAreaBlocks + ks.length)) ⊆ ks.toFinset := by
    intro j hj
    rw [mem_toFinset]
    rcases mem_insert.mp hj with rfl | hj
    · exact hk
    · rw [mem_Ico] at hj
      refine h.first k hk j (by omega) ?_
      by_contra hset
      have := hspare j (by omega) (by simpa using hset)
      omega
  have hcard := card_le_card hsub
  rw [toFinset_card_of_nodup h.nodup, card_insert_of_notMem (by rw [mem_Ico]; omega), Nat.card_Ico] at hcard
  omega

theorem growEntry_cases (h : Holds g d ino) (hmax : 32 * (ino.size.toNat / 32 + 1) ≤ 8468480)
    (hspare : ∀ k < 4096 * g.dataBitmapBlocks, g.used d k = true → k < g.dataAreaBlocks)
    (hL : ∀ x ∈ L, 2 ≤ x ∧ x < 1 + 1025 * g.inodeBitmapBlocks) :
    (∃ ks d1 ino' d', Took g d ks d1 ∧
      ks.length = totalBlocks (ofNat (32 * (ino.size.toNat / 32 + 1))) - totalBlocks ino.size ∧
      Runs (increaseSize g.efs (ofNat (32 * (ino.size.toNat / 32 + 1))) ino) L d ino' d' ∧
      ino'.size.toNat = 32 * (ino.size.toNat / 32 + 1) ∧ Placed L d' ino' ino'.dataBlocks ∧
      (roles ino'.dataBlocks).map (blockOf d' ino') = (roles ino.dataBlocks).map (blockOf d ino) ++ ks.map g.blockId) ∨
    exec (allocBlocks g.efs (totalBlocks (ofNat (32 * (ino.size.toNat / 32 + 1))) -
      totalBlocks ino.size)) ⟨d, L⟩ = none := by
  have hnew := entrySize_toNat h.size
  have hfew := entryBlocks_le h.size
  rcases allocBlocks_cases (g := g) (d := d) (L := L) (totalBlocks (ofNat (32 * (ino.size.toNat / 32 + 1))) -
      totalBlocks ino.size) (fun x hx hbm => by have := hL x hx; have := hbm.1; omega)
    with ⟨ks, d1, halloc, hlen, htook⟩ | ⟨hnone, -⟩
  · have hnear : ∀ k ∈ ks, k < g.dataAreaBlocks + 3 := by
      intro k hk
      have := htook.near hspare k hk
      omega
    obtain ⟨ino', d2, hrun, hsize, -, hblocks, -, -⟩ := increaseSize_takes h (by rw [hnew]; omega) (by rw [hnew]; exact hmax)
      halloc hlen htook hnear hL
    refine Or.inl ⟨ks, d1, ino', d2, htook, hlen, hrun, by rw [hsize, hnew], ⟨?_, ?_, ?_⟩, hblocks⟩
    · rw [dataBlocks, dataBlocksOf_eq (by rw [hsize, hnew]; exact hmax), hsize, hnew]
      omega
    · intro r hr s hs e
      have hnd := h.nodup_blocks htook.nodup fun k hk => ⟨hnear k hk, (htook.clear k hk).2⟩
      rw [← hblocks] at hnd
      exact inj_on_of_nodup_map hnd hr hs e
    · intro r hr hmem
      have hfar := h.far_blocks hnear (blockOf d2 ino' r) (by rw [← hblocks]; exact mem_map_of_mem hr)
      have := hL _ hmem
      rw [Geometry.dataStart] at hfar
      omega
  · exact Or.inr hnone

/-- Without the blocks the directory does not grow. -/
theorem growEntry_none (h : ino.size.toNat ≤ 8468480) (hmax : 32 * (ino.size.toNat / 32 + 1) ≤ 8468480)
    (hnone : exec (allocBlocks g.efs (totalBlocks (ofNat (32 * (ino.size.toNat / 32 + 1))) -
      totalBlocks ino.size)) ⟨d, L⟩ = none) :
    exec (increaseSize g.efs (ofNat (32 * (ino.size.toNat / 32 + 1))) ino) ⟨d, L⟩ = none := by
  have hnew := entrySize_toNat h
  rw [increaseSize, if_neg (by rw [lt_iff_toNat_lt, hnew]; omega),
    (blocksNumNeeded_runs (by rw [hnew]; omega) (by rw [hnew]; exact hmax)).exec_bind, exec_bind, hnone]
  rfl

/-- Writing the entry and the inode leaves the blocks where growing has put them. -/
theorem addDirent_blocks {t : Nat} {d2 d3 d' : Disk} {ino' : DiskInode} {start : Nat} {l : List UInt8}
    (hp : Placed [(g.handle t).blockId] d2 ino' ino'.dataBlocks) (hw : Written d2 ino' ino'.dataBlocks start l d3)
    (hslot : ∀ x, x ≠ (g.handle t).blockId → d' x = d3 x) :
    ∀ r ∈ roles ino'.dataBlocks, blockOf d' ino' r = blockOf d2 ino' r := by
  intro r hr
  rw [← hw.kept r hr]
  refine blockOf_frame (fun _ _ _ => rfl) (fun s hs _ => hslot _ fun e => ?_) r hr
  rw [hw.kept s hs] at e
  exact hp.unlocked s hs (by rw [e]; exact List.mem_singleton_self _)

end

end TCore.EasyFs
