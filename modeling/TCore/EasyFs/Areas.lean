/-
  TCore.EasyFs.Areas — the areas of a volume are a partition of the device.

  `create` computes the sizes of the areas in `u32`. For up to 2^20 blocks of inode bitmap, and up to
  2^32 - 4097 blocks for data and its bitmap, they follow each other and fill the device, the data bitmap
  has a bit for every data block, and every inode has a slot of its own. Beyond, two ids of the inode
  bitmap are the same `u32` (`inode_slot_twice`), or `data_total_blocks + 4096` wraps around and there is
  no data bitmap at all.
-/

import TCore.EasyFs.Mkfs

namespace TCore.EasyFs

open TCore.Lib EasyFileSystem
open UInt32 Runs

/-- The subtractions in `create` do not underflow. -/
structure NoUnderflow (totalBlocks inodeBitmapBlocks : UInt32) : Prop where
  super : 1 ≤ totalBlocks
  inodes : inodeBitmapBlocks + inodeAreaBlocksFor inodeBitmapBlocks ≤ totalBlocks - 1
  data : dataBitmapBlocksFor totalBlocks inodeBitmapBlocks ≤ dataTotalBlocksFor totalBlocks inodeBitmapBlocks

/-- Start and length of the super block, the inode bitmap, the inode area, the data bitmap and the data area. -/
def areas (totalBlocks inodeBitmapBlocks : UInt32) : List (Nat × Nat) :=
  let fs := efsFor totalBlocks inodeBitmapBlocks
  let superBlock := superBlockFor totalBlocks inodeBitmapBlocks
  [(0, 1), (fs.inodeBitmap.startBlockId, fs.inodeBitmap.blocks),
    (fs.inodeAreaStartBlock.toNat, superBlock.inodeAreaBlocks.toNat),
    (fs.dataBitmap.startBlockId, fs.dataBitmap.blocks),
    (fs.dataAreaStartBlock.toNat, superBlock.dataAreaBlocks.toNat)]

/-- Each area begins where the one before it ends, from `start` to `stop`. -/
def Consecutive (start stop : Nat) : List (Nat × Nat) → Prop
  | [] => start = stop
  | a :: rest => a.1 = start ∧ Consecutive (a.1 + a.2) stop rest

/-- The slot of the id that bit `i` of the inode bitmap stands for. -/
def slotOf (fs : EasyFileSystem) (i : Nat) : UInt32 × Nat := fs.getDiskInodePos (UInt32.ofNat i)

structure Partition (totalBlocks inodeBitmapBlocks : UInt32) : Prop where
  consecutive : Consecutive 0 totalBlocks.toNat (areas totalBlocks inodeBitmapBlocks)
  disjoint : (areas totalBlocks inodeBitmapBlocks).Pairwise fun a b => a.1 + a.2 ≤ b.1
  sum : ((areas totalBlocks inodeBitmapBlocks).map Prod.snd).sum = totalBlocks.toNat
  bits : (superBlockFor totalBlocks inodeBitmapBlocks).dataAreaBlocks.toNat ≤
    (efsFor totalBlocks inodeBitmapBlocks).dataBitmap.maximum
  inside : ∀ i < (efsFor totalBlocks inodeBitmapBlocks).inodeBitmap.maximum,
    let fs := efsFor totalBlocks inodeBitmapBlocks
    fs.inodeAreaStartBlock.toNat ≤ (slotOf fs i).1.toNat ∧
      (slotOf fs i).1.toNat < fs.inodeAreaStartBlock.toNat + (superBlockFor totalBlocks inodeBitmapBlocks).inodeAreaBlocks.toNat ∧
      (slotOf fs i).2 % 128 = 0 ∧ (slotOf fs i).2 + 128 ≤ 512
  slots : ∀ i < (efsFor totalBlocks inodeBitmapBlocks).inodeBitmap.maximum,
    ∀ j < (efsFor totalBlocks inodeBitmapBlocks).inodeBitmap.maximum,
      slotOf (efsFor totalBlocks inodeBitmapBlocks) i = slotOf (efsFor totalBlocks inodeBitmapBlocks) j → i = j
  reopened : ∀ d : Disk, (d 0).superBlock = superBlockFor totalBlocks inodeBitmapBlocks →
    Runs EasyFileSystem.open [] d (efsFor totalBlocks inodeBitmapBlocks) d

/-! ## Consecutive areas -/

section
variable {start stop : Nat} {as : List (Nat × Nat)}

section

variable (h : Consecutive start stop as)
include h

theorem Consecutive.start_le : ∀ a ∈ as, start ≤ a.1 := by
  induction as generalizing start with
  | nil => simp
  | cons a rest ih =>
    intro b hb
    obtain ⟨ha, hrest⟩ := h
    rcases List.mem_cons.mp hb with rfl | hb
    · exact ha.ge
    · have := ih hrest b hb
      omega

theorem Consecutive.disjoint : as.Pairwise fun a b => a.1 + a.2 ≤ b.1 := by
  induction as generalizing start with
  | nil => exact List.Pairwise.nil
  | cons a rest ih => exact List.pairwise_cons.mpr ⟨h.2.start_le, ih h.2⟩

theorem Consecutive.sum : start + (as.map Prod.snd).sum = stop := by
  induction as generalizing start with
  | nil => exact h
  | cons a rest ih =>
    obtain ⟨ha, hrest⟩ := h
    have := ih hrest
    rw [List.map_cons, List.sum_cons]
    omega

end

end

/-! ## The computations of `create` -/

section
variable {totalBlocks inodeBitmapBlocks : UInt32}

/-- `open` puts the same numbers together. -/
theorem open_super {d : Disk} (h : (d 0).superBlock = superBlockFor totalBlocks inodeBitmapBlocks) :
    Runs EasyFileSystem.open [] d (efsFor totalBlocks inodeBitmapBlocks) d := by
  refine read (by simp) (bind (assert ?_) ?_)
  · rw [h]
    rfl
  · rw [h, efsFor, add_assoc]
    exact ret _

theorem NoUnderflow.fits (h : NoUnderflow totalBlocks inodeBitmapBlocks) (hib : inodeBitmapBlocks.toNat ≤ 2 ^ 20) :
    1 + 1025 * inodeBitmapBlocks.toNat ≤ totalBlocks.toNat := by
  have hsuper := UInt32.le_iff_toNat_le.mp h.super
  have hinodes := le_iff_toNat_le.mp h.inodes
  have harea : (inodeAreaBlocksFor inodeBitmapBlocks).toNat = 1024 * inodeBitmapBlocks.toNat := by
    unfold inodeAreaBlocksFor Bitmap.maximum
    rw [toNat_ofNat']
    simp only
    omega
  rw [UInt32.toNat_add, harea, UInt32.toNat_sub_of_le _ _ h.super] at hinodes
  rw [show toNat 1 = 1 from rfl] at hsuper hinodes
  omega

/-- Two bits 2^32 apart stand for the same `u32`. -/
theorem slotOf_wraps (fs : EasyFileSystem) : slotOf fs 0 = slotOf fs (2 ^ 32) := by
  rw [slotOf, slotOf]
  rfl

theorem partition_small (hfits : 1 + 1025 * inodeBitmapBlocks.toNat ≤ totalBlocks.toNat)
    (hib : inodeBitmapBlocks.toNat ≤ 2 ^ 20) (hdata : dataTotalBlocks totalBlocks inodeBitmapBlocks + 4096 < 2 ^ 32) :
    Partition totalBlocks inodeBitmapBlocks := by
  have harea := inodeAreaBlocksFor_toNat hfits
  have htotal := dataTotalBlocksFor_toNat hfits
  have hbitmap := dataBitmapBlocksFor_toNat hfits
  have hle := dataBitmapBlocks_le totalBlocks inodeBitmapBlocks
  have hone : toNat 1 = 1 := rfl
  have hinode : (efsFor totalBlocks inodeBitmapBlocks).inodeAreaStartBlock.toNat = 1 + inodeBitmapBlocks.toNat := by
    rw [efsFor, UInt32.toNat_add, hone]
    omega
  have hstart : (efsFor totalBlocks inodeBitmapBlocks).dataBitmap.startBlockId = 1 + 1025 * inodeBitmapBlocks.toNat := by
    rw [efsFor]
    simp only
    rw [UInt32.toNat_add, UInt32.toNat_add, harea, hone]
    omega
  have hsub : (superBlockFor totalBlocks inodeBitmapBlocks).dataAreaBlocks.toNat =
      dataTotalBlocks totalBlocks inodeBitmapBlocks - dataBitmapBlocks totalBlocks inodeBitmapBlocks := by
    rw [superBlockFor, UInt32.toNat_sub_of_le _ _ (by rw [UInt32.le_iff_toNat_le, hbitmap, htotal]; exact hle), htotal, hbitmap]
  have hblocks : dataBitmapBlocks totalBlocks inodeBitmapBlocks = (dataTotalBlocks totalBlocks inodeBitmapBlocks + 4096) / 4097 := by
    rw [dataBitmapBlocks, Nat.mod_eq_of_lt hdata]
  have hdt : dataTotalBlocks totalBlocks inodeBitmapBlocks = totalBlocks.toNat - 1 - 1025 * inodeBitmapBlocks.toNat := rfl
  have hdataStart : (efsFor totalBlocks inodeBitmapBlocks).dataAreaStartBlock.toNat =
      1 + 1025 * inodeBitmapBlocks.toNat + dataBitmapBlocks totalBlocks inodeBitmapBlocks := by
    rw [efsFor, UInt32.toNat_add, UInt32.toNat_add, UInt32.toNat_add, harea, hbitmap, hone]
    omega
  have hbb : (efsFor totalBlocks inodeBitmapBlocks).dataBitmap.blocks = dataBitmapBlocks totalBlocks inodeBitmapBlocks := hbitmap
  have hcons : Consecutive 0 totalBlocks.toNat (areas totalBlocks inodeBitmapBlocks) := by
    refine ⟨rfl, rfl, ?_, ?_, ?_, ?_⟩
    · rw [hinode]
      rfl
    · rw [hstart, hinode, superBlockFor, harea]
      omega
    · rw [hdataStart, hstart, hbb]
    · show (efsFor totalBlocks inodeBitmapBlocks).dataAreaStartBlock.toNat +
        (superBlockFor totalBlocks inodeBitmapBlocks).dataAreaBlocks.toNat = totalBlocks.toNat
      rw [hdataStart, hsub]
      omega
  have hslot : ∀ i < 4096 * inodeBitmapBlocks.toNat,
      (slotOf (efsFor totalBlocks inodeBitmapBlocks) i).1.toNat = 1 + inodeBitmapBlocks.toNat + i / 4 ∧
        (slotOf (efsFor totalBlocks inodeBitmapBlocks) i).2 = i % 4 * 128 := by
    intro i hi
    have hnat : (ofNat i).toNat = i := toNat_ofNat_of_lt' (by simp only [size]; omega)
    have hfour : toNat 4 = 4 := rfl
    refine ⟨?_, ?_⟩
    · rw [slotOf, getDiskInodePos, UInt32.toNat_add, hinode, UInt32.toNat_div, hnat, hfour]
      omega
    · rw [slotOf, getDiskInodePos, UInt32.toNat_mod, hnat, hfour]
  refine ⟨hcons, hcons.disjoint, by have := hcons.sum; omega, ?_, ?_, ?_, fun d => open_super⟩
  · rw [hsub, Bitmap.maximum, hbb]
    omega
  · intro i hi fs
    obtain ⟨hblock, hoff⟩ := hslot i hi
    have hi : i < 4096 * inodeBitmapBlocks.toNat := hi
    rw [hblock, hoff, hinode, superBlockFor, harea]
    omega
  · intro i hi j hj heq
    obtain ⟨hblock, hoff⟩ := hslot i hi
    obtain ⟨hblock', hoff'⟩ := hslot j hj
    rw [heq] at hblock hoff
    omega

/-- The areas are a partition, unless the inode bitmap has more bits than there are `u32`, or the blocks
for data are so many that rounding up their number wraps around. -/
theorem areas_partition_iff (h : NoUnderflow totalBlocks inodeBitmapBlocks) : Partition totalBlocks inodeBitmapBlocks ↔
    inodeBitmapBlocks.toNat ≤ 2 ^ 20 ∧ dataTotalBlocks totalBlocks inodeBitmapBlocks + 4096 < 2 ^ 32 := by
  refine ⟨fun hp => ?_, fun ⟨hib, hdata⟩ => partition_small (h.fits hib) hib hdata⟩
  have hib : inodeBitmapBlocks.toNat ≤ 2 ^ 20 := by
    by_contra hgt
    have hmax : ∀ i ≤ 2 ^ 32, i < (efsFor totalBlocks inodeBitmapBlocks).inodeBitmap.maximum := by
      intro i hi
      show i < 4096 * inodeBitmapBlocks.toNat
      omega
    have := hp.slots 0 (hmax 0 (by omega)) (2 ^ 32) (hmax _ le_rfl) (slotOf_wraps _)
    omega
  refine ⟨hib, ?_⟩
  by_contra hge
  -- no bitmap block is left for the data area
  have hfits := h.fits hib
  have hlt := totalBlocks.toNat_lt
  have hzero : dataBitmapBlocks totalBlocks inodeBitmapBlocks = 0 := by
    simp only [dataBitmapBlocks, dataTotalBlocks] at hge ⊢
    omega
  have hbits := hp.bits
  have hbb : (efsFor totalBlocks inodeBitmapBlocks).dataBitmap.blocks = 0 := (dataBitmapBlocksFor_toNat hfits).trans hzero
  rw [Bitmap.maximum, hbb, superBlockFor, UInt32.toNat_sub_of_le _ _ h.data, dataTotalBlocksFor_toNat hfits,
    dataBitmapBlocksFor_toNat hfits, hzero] at hbits
  omega

end

/-- The sizes of the image of the repository's tool. -/
theorem areas_partition_image : NoUnderflow 16384 1 ∧ Partition 16384 1 := by
  have h : NoUnderflow 16384 1 := ⟨by decide +kernel, by decide +kernel, by decide +kernel⟩
  exact ⟨h, (areas_partition_iff h).mpr (by decide +kernel)⟩

/-- With 2^20 + 1 blocks of inode bitmap, ids 0 and 2^32 have one slot. -/
theorem inode_slot_twice : NoUnderflow (2 ^ 32 - 1) (2 ^ 20 + 1) ∧ ¬Partition (2 ^ 32 - 1) (2 ^ 20 + 1) := by
  refine ⟨⟨by decide +kernel, by decide +kernel, by decide +kernel⟩, ?_⟩
  intro hp
  have := hp.slots 0 (by decide +kernel) (2 ^ 32) (by decide +kernel) (slotOf_wraps _)
  omega

end TCore.EasyFs
