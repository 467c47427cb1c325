/-
  TCore.EasyFs.Mkfs — `EasyFileSystem::create` makes a volume, and `open` finds it again.

  The sizes are `u32` computations in `create` and once more, from the super block, in `open`.
  When the device is large enough for the inode area (`data_area_blocks` does not underflow)
  both give the division `Geometry.ofSizes` states in plain numbers.

  - `create_runs`: `create` leaves a volume whose only inode is the empty root directory.
  - `open_runs`: on any volume `open` answers the file system `create` answered.
-/

import TCore.EasyFs.VolumeCreate

namespace TCore.EasyFs

open TCore.Lib
open EasyFileSystem UInt32 Block Runs EasyFs.Geometry Function

/-- The device has room for the inode area, and there is an inode for the root. -/
structure Accepted (totalBlocks inodeBitmapBlocks : UInt32) : Prop where
  some_inode : 0 < inodeBitmapBlocks.toNat
  fits : 1 + 1025 * inodeBitmapBlocks.toNat ≤ totalBlocks.toNat

/-- The blocks left for data and its bitmap. -/
def dataTotalBlocks (totalBlocks inodeBitmapBlocks : UInt32) : Nat :=
  totalBlocks.toNat - 1 - 1025 * inodeBitmapBlocks.toNat

/-- The data bitmap `create` makes for them; `data_total_blocks + 4096` wraps on the largest devices, which
    then get no data bitmap. -/
def dataBitmapBlocks (totalBlocks inodeBitmapBlocks : UInt32) : Nat :=
  (dataTotalBlocks totalBlocks inodeBitmapBlocks + 4096) % 2 ^ 32 / 4097

theorem dataBitmapBlocks_le (totalBlocks inodeBitmapBlocks : UInt32) :
    dataBitmapBlocks totalBlocks inodeBitmapBlocks ≤ dataTotalBlocks totalBlocks inodeBitmapBlocks := by
  unfold dataBitmapBlocks
  omega

/-- The division of a device `create` computes; a data block without a bit is not counted. -/
def Geometry.ofSizes (totalBlocks inodeBitmapBlocks : UInt32) (h : Accepted totalBlocks inodeBitmapBlocks) : Geometry where
  inodeBitmapBlocks := inodeBitmapBlocks.toNat
  dataBitmapBlocks := TCore.EasyFs.dataBitmapBlocks totalBlocks inodeBitmapBlocks
  dataAreaBlocks := min (dataTotalBlocks totalBlocks inodeBitmapBlocks - TCore.EasyFs.dataBitmapBlocks totalBlocks inodeBitmapBlocks)
    (4096 * TCore.EasyFs.dataBitmapBlocks totalBlocks inodeBitmapBlocks)
  some_inode := h.some_inode
  covered := min_le_right _ _
  numbered := by
    have h1 := h.fits
    have h2 := totalBlocks.toNat_lt
    have h3 := dataBitmapBlocks_le totalBlocks inodeBitmapBlocks
    simp only [dataTotalBlocks] at *
    omega

section
variable {totalBlocks inodeBitmapBlocks : UInt32}

theorem ofSizes_total_le (h : Accepted totalBlocks inodeBitmapBlocks) :
    (ofSizes totalBlocks inodeBitmapBlocks h).totalBlocks ≤ totalBlocks.toNat := by
  have h1 := h.fits
  have h2 := dataBitmapBlocks_le totalBlocks inodeBitmapBlocks
  simp only [Geometry.totalBlocks, Geometry.dataStart, Geometry.ofSizes]
  simp only [dataTotalBlocks] at *
  omega

/-! ## The `u32` computations -/

section

variable (h1 : 1 + 1025 * inodeBitmapBlocks.toNat ≤ totalBlocks.toNat)
include h1

theorem inodeAreaBlocksFor_toNat :
    (inodeAreaBlocksFor inodeBitmapBlocks).toNat = 1024 * inodeBitmapBlocks.toNat := by
  have h2 := totalBlocks.toNat_lt
  unfold inodeAreaBlocksFor Bitmap.maximum
  rw [toNat_ofNat']
  simp only
  omega

theorem dataTotalBlocksFor_toNat :
    (EasyFileSystem.dataTotalBlocksFor totalBlocks inodeBitmapBlocks).toNat = dataTotalBlocks totalBlocks inodeBitmapBlocks := by
  have h2 := totalBlocks.toNat_lt
  unfold dataTotalBlocksFor dataTotalBlocks
  rw [UInt32.toNat_sub, UInt32.toNat_sub, UInt32.toNat_add, inodeAreaBlocksFor_toNat h1, show UInt32.toNat 1 = 1 from rfl]
  omega

end

theorem dataBitmapBlocksFor_toNat (h : 1 + 1025 * inodeBitmapBlocks.toNat ≤ totalBlocks.toNat) :
    (EasyFileSystem.dataBitmapBlocksFor totalBlocks inodeBitmapBlocks).toNat = dataBitmapBlocks totalBlocks inodeBitmapBlocks := by
  unfold dataBitmapBlocksFor dataBitmapBlocks
  rw [UInt32.toNat_div, UInt32.toNat_add, dataTotalBlocksFor_toNat h, show UInt32.toNat 4096 = 4096 from rfl,
    show toNat 4097 = 4097 from rfl]

theorem superBlockFor_described (h : Accepted totalBlocks inodeBitmapBlocks) :
    (ofSizes totalBlocks inodeBitmapBlocks h).Described (superBlockFor totalBlocks inodeBitmapBlocks) :=
  ⟨rfl, rfl, inodeAreaBlocksFor_toNat h.fits, dataBitmapBlocksFor_toNat h.fits⟩

/-- A file system from the sizes of its areas, as `create` and `open` put it together. -/
theorem efs_eq (g : Geometry) {a b c : UInt32} (ha : a.toNat = g.inodeBitmapBlocks) (hb : b.toNat = 1024 * g.inodeBitmapBlocks)
    (hc : c.toNat = g.dataBitmapBlocks) :
    (⟨⟨1, a.toNat⟩, ⟨(1 + (a + b)).toNat, c.toNat⟩, 1 + a, 1 + (a + b) + c⟩ : EasyFileSystem) = g.efs := by
  have hnum := g.numbered
  have h1 : (1 + a).toNat = 1 + g.inodeBitmapBlocks := by
    rw [UInt32.toNat_add, ha, show UInt32.toNat 1 = 1 from rfl]
    omega
  have h2 : (1 + (a + b)).toNat = 1 + 1025 * g.inodeBitmapBlocks := by
    rw [UInt32.toNat_add, UInt32.toNat_add, ha, hb, show UInt32.toNat 1 = 1 from rfl]
    omega
  have h3 : (1 + (a + b) + c).toNat = 1 + 1025 * g.inodeBitmapBlocks + g.dataBitmapBlocks := by
    rw [UInt32.toNat_add, h2, hc]
    omega
  unfold Geometry.efs Geometry.inodeBitmap Geometry.dataBitmap Geometry.inodeStart Geometry.dataStart
  rw [h2, hc, ha, ← h1, ← h3, UInt32.ofNat_toNat, UInt32.ofNat_toNat]

theorem efsFor_eq (h : Accepted totalBlocks inodeBitmapBlocks) :
    efsFor totalBlocks inodeBitmapBlocks = (ofSizes totalBlocks inodeBitmapBlocks h).efs := by
  rw [← efs_eq (ofSizes totalBlocks inodeBitmapBlocks h) (a := inodeBitmapBlocks) rfl
    (inodeAreaBlocksFor_toNat h.fits) (dataBitmapBlocksFor_toNat h.fits)]
  unfold efsFor
  rw [add_assoc]

/-! ## `create` -/

variable {d : Disk}

theorem clearBlocks_runs (n : Nat) {i : Nat} :
    Runs (clearBlocks n i) [] d () (fun x => if i ≤ x ∧ x < i + n then zero else d x) := by
  induction n generalizing i d with
  | zero =>
    have : (fun x => if i ≤ x ∧ x < i + 0 then zero else d x) = d := by
      funext x
      rw [if_neg (by omega)]
    rw [this]
    exact ret _
  | succ n ih =>
    have : (fun x => if i ≤ x ∧ x < i + (n + 1) then zero else d x) =
        fun x => if i + 1 ≤ x ∧ x < i + 1 + n then zero else update d i zero x := by
      funext x
      by_cases hx : x = i
      · rw [hx, if_pos (by omega), if_neg (by omega), update_self]
      · rw [update_of_ne hx]
        by_cases hr : i ≤ x ∧ x < i + (n + 1)
        · rw [if_pos hr, if_pos (by omega)]
        · rw [if_neg hr, if_neg (by omega)]
    rw [this]
    exact bind (modify (by simp) (ret _)) ih

variable {g : Geometry}

/-- A cleared device with a super block has no inode yet. -/
theorem cleared_inv (hsuper : g.Described (d 0).superBlock)
    (hzero : ∀ x, 1 ≤ x → x < g.totalBlocks → d x = zero) : FsInv g d 0 := by
  have hbits : ∀ (bm : Bitmap) (i : Nat), 1 ≤ bm.startBlockId → bm.startBlockId + bm.blocks ≤ g.totalBlocks →
      i < 4096 * bm.blocks → bm.bit d i = false := by
    intro bm i h1 h2 hi
    rw [Bitmap.bit, hzero _ (by omega) (by omega), bit_zero]
  have hdata : ∀ k < 4096 * g.dataBitmapBlocks, g.used d k = false := fun k hk =>
    hbits g.dataBitmap k (by simp only [Geometry.dataBitmap]; omega)
      (by simp only [Geometry.dataBitmap, Geometry.totalBlocks, Geometry.dataStart]; omega) hk
  refine ⟨hsuper, Nat.zero_le _, Nat.zero_le _, ?_, by omega, by omega, by omega, ?_, ?_, by omega⟩
  · intro i hi
    rw [hbits g.inodeBitmap i (by simp only [Geometry.inodeBitmap]; omega)
      (by simp only [Geometry.inodeBitmap, Geometry.totalBlocks, Geometry.dataStart]; omega) hi]
    simp
  · intro k hk hu
    rw [hdata k hk] at hu
    cases hu
  · intro k hk _
    exact hzero _ (by simp only [dataStart]; omega) (by simp only [totalBlocks]; omega)

/-- The root inode, initialised on a volume without inodes. -/
theorem initRoot_runs (d : Disk) :
    Runs (Prog.modify (g.efs.getDiskInodePos 0).1.toNat fun b =>
        pure ((), b.setInode (g.efs.getDiskInodePos 0).2 (DiskInode.reset .directory))) []
      (g.inodeBitmap.put d 0 true) () (g.withInode d 0 .directory) := by
  have hsome := g.some_inode
  have hpos : g.efs.inodeAt 0 = g.handle 0 := inodeAt_ofNat (i := 0) (by omega) (by omega)
  have h1 : (g.efs.getDiskInodePos 0).1.toNat = (g.handle 0).blockId := congrArg Inode.blockId hpos
  have h2 : (g.efs.getDiskInodePos 0).2 = (g.handle 0).blockOffset := congrArg Inode.blockOffset hpos
  rw [h1, h2]
  exact modify (by simp) (ret _)

/-- `create` on a device that is divided as `g` says. -/
theorem create_geometry (d : Disk) (htotal : g.totalBlocks ≤ totalBlocks.toNat)
    (hdesc : g.Described (superBlockFor totalBlocks inodeBitmapBlocks))
    (hefs : efsFor totalBlocks inodeBitmapBlocks = g.efs) :
    ∃ d', Runs (create totalBlocks inodeBitmapBlocks) [] d g.efs d' ∧ FsInv g d' 1 ∧
      g.inodeOf d' 0 = DiskInode.reset .directory := by
  have hsome := g.some_inode
  have hclear := clearBlocks_runs totalBlocks.toNat (i := 0) (d := d)
  generalize hdz : (fun x => if 0 ≤ x ∧ x < 0 + totalBlocks.toNat then zero else d x) = dz at hclear
  have hinv : FsInv g (update dz 0
      ((dz 0).setSuperBlock (superBlockFor totalBlocks inodeBitmapBlocks))) 0 := by
    refine cleared_inv (by rw [update_self, superBlock_setSuperBlock]; exact hdesc) fun x h1 h2 => ?_
    rw [update_of_ne (by omega), ← hdz]
    exact if_pos (by omega)
  have hm : 0 < 4096 * g.inodeBitmapBlocks := by omega
  refine ⟨_, ?_, hinv.newInode .directory hm (by omega), inodeOf_withInode⟩
  unfold create
  rw [hefs]
  refine bind hclear (bind (modify (by simp) (ret _)) ?_)
  refine bind (allocInode_runs hinv hm) (bind (assert rfl) ?_)
  exact bind (initRoot_runs _) (bind (sync (ret _)) (ret _))

theorem create_runs (h : Accepted totalBlocks inodeBitmapBlocks) (d : Disk) :
    ∃ d', Runs (create totalBlocks inodeBitmapBlocks) [] d
        (ofSizes totalBlocks inodeBitmapBlocks h).efs d' ∧
      FsInv (ofSizes totalBlocks inodeBitmapBlocks h) d' 1 ∧
      (ofSizes totalBlocks inodeBitmapBlocks h).inodeOf d' 0 = DiskInode.reset .directory :=
  create_geometry d (ofSizes_total_le h) (superBlockFor_described h) (efsFor_eq h)

/-! ## `open` -/

theorem open_runs {m : Nat} (h : FsInv g d m) : Runs EasyFileSystem.open [] d g.efs d := by
  refine read (by simp) (bind (assert h.super.valid) ?_)
  rw [← efs_eq g h.super.inodeBitmap h.super.inodeArea h.super.dataBitmap]
  exact ret _

end

end TCore.EasyFs
