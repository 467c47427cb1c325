/-
  TCore.EasyFs.Volume — what holds of a volume between two operations.

  A `Geometry` is a division of the device into the five areas, with the facts that make it
  one: the areas follow each other, the data bitmap has a bit for every data block counted, and
  every block has a 32-bit number. `FsInv g d m` is the invariant of a disk with `m` inodes:

  - the inodes 0 … m-1 are allocated and no others;
  - every block of every inode is a data block whose bit is set, no two of them are the same
    block, and every set bit belongs to one of them;
  - free blocks, and the bytes of a file's last block past its size, are zero.

  An operation on one inode changes its slot, its blocks and the data bitmap. `Replaced` states
  that of two disks, and `Replaced.inv` that the invariant survives; `Replaced.other` that every
  other inode keeps its blocks and its bytes. `FsInv.addInode` is the same for a new inode.
-/

import TCore.EasyFs.Vfs
import TCore.EasyFs.InodeData

namespace TCore.EasyFs

open TCore.Lib
open Role (data ind1 ind2 row)
open DiskInode

structure Geometry where
  inodeBitmapBlocks : Nat
  dataBitmapBlocks : Nat
  dataAreaBlocks : Nat
  some_inode : 0 < inodeBitmapBlocks
  covered : dataAreaBlocks ≤ 4096 * dataBitmapBlocks
  numbered : 1 + 1025 * inodeBitmapBlocks + dataBitmapBlocks + dataAreaBlocks < 2 ^ 32

namespace Geometry

def inodeBitmap (g : Geometry) : Bitmap := ⟨1, g.inodeBitmapBlocks⟩

/-- The first block of the inode area. -/
def inodeStart (g : Geometry) : Nat := 1 + g.inodeBitmapBlocks

def dataBitmap (g : Geometry) : Bitmap := ⟨1 + 1025 * g.inodeBitmapBlocks, g.dataBitmapBlocks⟩

/-- The first block of the data area. -/
def dataStart (g : Geometry) : Nat := 1 + 1025 * g.inodeBitmapBlocks + g.dataBitmapBlocks

def totalBlocks (g : Geometry) : Nat := g.dataStart + g.dataAreaBlocks

def efs (g : Geometry) : EasyFileSystem :=
  ⟨g.inodeBitmap, g.dataBitmap, UInt32.ofNat g.inodeStart, UInt32.ofNat g.dataStart⟩

/-- What `open` reads from the super block. -/
structure Described (g : Geometry) (s : SuperBlock) : Prop where
  valid : s.isValid = true
  inodeBitmap : s.inodeBitmapBlocks.toNat = g.inodeBitmapBlocks
  inodeArea : s.inodeAreaBlocks.toNat = 1024 * g.inodeBitmapBlocks
  dataBitmap : s.dataBitmapBlocks.toNat = g.dataBitmapBlocks

/-- The place of inode `i`. -/
def handle (g : Geometry) (i : Nat) : Inode := ⟨g.inodeStart + i / 4, i % 4 * 128⟩

/-- Inode `i` as the disk has it. -/
def inodeOf (g : Geometry) (d : Disk) (i : Nat) : DiskInode := (d (g.inodeStart + i / 4)).inode (i % 4 * 128)

def rolesAt (g : Geometry) (d : Disk) (i : Nat) : List Role := roles (g.inodeOf d i).dataBlocks

/-- The number of the block inode `i` uses in a role. -/
def blockAt (g : Geometry) (d : Disk) (i : Nat) (r : Role) : Nat := (blockOf d (g.inodeOf d i) r).toNat

/-- Data block `k` is taken. -/
def used (g : Geometry) (d : Disk) (k : Nat) : Bool := g.dataBitmap.bit d k

end Geometry

structure FsInv (g : Geometry) (d : Disk) (m : Nat) : Prop where
  super : g.Described (d 0).superBlock
  room : m ≤ 4096 * g.inodeBitmapBlocks
  numbers : m ≤ 2 ^ 32
  inodes : ∀ i < 4096 * g.inodeBitmapBlocks, g.inodeBitmap.bit d i = decide (i < m)
  size : ∀ i < m, (g.inodeOf d i).size.toNat ≤ 8468480
  owned : ∀ i < m, ∀ r ∈ g.rolesAt d i, ∃ k < g.dataAreaBlocks, g.blockAt d i r = g.dataStart + k ∧ g.used d k = true
  inj : ∀ i < m, ∀ j < m, ∀ r ∈ g.rolesAt d i, ∀ s ∈ g.rolesAt d j, g.blockAt d i r = g.blockAt d j s → i = j ∧ r = s
  cover : ∀ k < 4096 * g.dataBitmapBlocks, g.used d k = true → ∃ i < m, ∃ r ∈ g.rolesAt d i, g.blockAt d i r = g.dataStart + k
  zero : ∀ k < g.dataAreaBlocks, g.used d k = false → d (g.dataStart + k) = Block.zero
  tail : ∀ i < m, ∀ o, (g.inodeOf d i).size.toNat ≤ o → o < 512 * (g.inodeOf d i).dataBlocks →
    byteAt d (g.inodeOf d i) o = 0

/-! ## Sizes -/

theorem dataBlocksOf_eq {size : UInt32} (h : size.toNat ≤ 8468480) :
    dataBlocksOf size = (size.toNat + 511) / 512 := by
  unfold dataBlocksOf
  rw [Nat.mod_eq_of_lt (by omega)]

theorem size_le_blocks {ino : DiskInode} (h : ino.size.toNat ≤ 8468480) : ino.size.toNat ≤ 512 * ino.dataBlocks := by
  rw [dataBlocks, dataBlocksOf_eq h]
  omega

section
variable {g : Geometry} {d d' : Disk} {m : Nat}

/-- Blocks in use belong to the data area. -/
theorem FsInv.used_lt (h : FsInv g d m) {k : Nat} (hk : k < 4096 * g.dataBitmapBlocks) (hu : g.used d k = true) :
    k < g.dataAreaBlocks := by
  obtain ⟨i, hi, r, hr, hb⟩ := h.cover k hk hu
  obtain ⟨k', hk', hb', -⟩ := h.owned i hi r hr
  omega

variable (h : FsInv g d m) {i : Nat} (hi : i < m)
include h hi

theorem FsInv.dataBlocks_eq :
    (g.inodeOf d i).dataBlocks = ((g.inodeOf d i).size.toNat + 511) / 512 := dataBlocksOf_eq (h.size i hi)

theorem FsInv.dataBlocks_le : (g.inodeOf d i).dataBlocks ≤ 16540 := by
  have := h.size i hi
  rw [h.dataBlocks_eq hi]
  omega

/-- The blocks of an inode with the locks of its own slot, or of no block, held. -/
theorem FsInv.placed {L : List Nat} (hL : ∀ x ∈ L, x < g.dataStart) :
    Placed L d (g.inodeOf d i) (g.inodeOf d i).dataBlocks := by
  refine ⟨h.dataBlocks_le hi, fun r hr s hs e => ?_, fun r hr hmem => ?_⟩
  · exact (h.inj i hi i hi r hr s hs (congrArg UInt32.toNat e)).2
  · obtain ⟨k, -, hk, -⟩ := h.owned i hi r hr
    have := hL _ hmem
    rw [Geometry.blockAt] at hk
    omega

theorem FsInv.handle_lt : (g.handle i).blockId < g.dataStart := by
  have := h.room
  simp only [Geometry.handle, Geometry.inodeStart, Geometry.dataStart]
  omega

/-- An inode of a volume with its own block locked. -/
theorem FsInv.placed_self :
    Placed [(g.handle i).blockId] d (g.inodeOf d i) (g.inodeOf d i).dataBlocks := by
  refine h.placed hi fun x hx => ?_
  rw [List.mem_singleton.mp hx]
  exact h.handle_lt hi

theorem FsInv.size_le_dataBlocks :
    (g.inodeOf d i).size.toNat ≤ 512 * (g.inodeOf d i).dataBlocks := size_le_blocks (h.size i hi)

end

/-! ## One inode replaced -/

/-- From `d` to `d'` only inode `t`, its blocks and the data bitmap have changed. -/
structure Replaced (g : Geometry) (d : Disk) (m t : Nat) (d' : Disk) : Prop where
  super : d' 0 = d 0
  inodes : ∀ i < 4096 * g.inodeBitmapBlocks, g.inodeBitmap.bit d' i = g.inodeBitmap.bit d i
  slots : ∀ i < m, i ≠ t → g.inodeOf d' i = g.inodeOf d i
  others : ∀ k < 4096 * g.dataBitmapBlocks, g.used d k = true → (∀ r ∈ g.rolesAt d t, g.blockAt d t r ≠ g.dataStart + k) →
    d' (g.dataStart + k) = d (g.dataStart + k) ∧ g.used d' k = true
  owned : ∀ r ∈ g.rolesAt d' t, ∃ k < g.dataAreaBlocks, g.blockAt d' t r = g.dataStart + k ∧ g.used d' k = true ∧
    (g.used d k = false ∨ ∃ s ∈ g.rolesAt d t, g.blockAt d t s = g.dataStart + k)
  inj : ∀ r ∈ g.rolesAt d' t, ∀ s ∈ g.rolesAt d' t, g.blockAt d' t r = g.blockAt d' t s → r = s
  cover : ∀ k < 4096 * g.dataBitmapBlocks, g.used d' k = true →
    (g.used d k = true ∧ ∀ r ∈ g.rolesAt d t, g.blockAt d t r ≠ g.dataStart + k) ∨
      ∃ r ∈ g.rolesAt d' t, g.blockAt d' t r = g.dataStart + k
  zero : ∀ k < g.dataAreaBlocks, g.used d' k = false → d' (g.dataStart + k) = Block.zero
  size : (g.inodeOf d' t).size.toNat ≤ 8468480
  tail : ∀ o, (g.inodeOf d' t).size.toNat ≤ o → o < 512 * (g.inodeOf d' t).dataBlocks → byteAt d' (g.inodeOf d' t) o = 0

namespace Replaced

variable {g : Geometry} {d d' : Disk} {m t : Nat}

variable (hr : Replaced g d m t d') (h : FsInv g d m) (ht : t < m)
include hr h ht

/-- A block of another inode is as it was. -/
theorem block_other {i : Nat} (hi : i < m) (hne : i ≠ t)
    {r : Role} (hri : r ∈ g.rolesAt d i) : d' (g.blockAt d i r) = d (g.blockAt d i r) ∧
      ∃ k < g.dataAreaBlocks, g.blockAt d i r = g.dataStart + k ∧ g.used d' k = true := by
  obtain ⟨k, hk, hb, hu⟩ := h.owned i hi r hri
  have hcov := g.covered
  obtain ⟨h1, h2⟩ := hr.others k (by omega) hu fun s hs e => hne (h.inj i hi t ht r hri s hs (by rw [hb, e])).1
  rw [hb]
  exact ⟨h1, k, hk, rfl, h2⟩

theorem blockAt_other {i : Nat} (hi : i < m) (hne : i ≠ t)
    {r : Role} (hri : r ∈ g.rolesAt d i) : blockOf d' (g.inodeOf d i) r = blockOf d (g.inodeOf d i) r :=
  blockOf_frame (fun _ _ _ => rfl) (fun _ hs _ => (hr.block_other h ht hi hne hs).1) r hri

/-- Every other inode keeps its blocks and its bytes. -/
theorem other {i : Nat} (hi : i < m) (hne : i ≠ t) :
    g.inodeOf d' i = g.inodeOf d i ∧ (∀ r ∈ g.rolesAt d i, g.blockAt d' i r = g.blockAt d i r) ∧
      ∀ o < 512 * (g.inodeOf d i).dataBlocks, byteAt d' (g.inodeOf d i) o = byteAt d (g.inodeOf d i) o := by
  have hslot := hr.slots i hi hne
  refine ⟨hslot, fun r hri => ?_, fun o ho => ?_⟩
  · rw [Geometry.blockAt, hslot, hr.blockAt_other h ht hi hne hri]
    rfl
  · have hri : data (o / 512) ∈ g.rolesAt d i := data_mem_roles (by omega)
    rw [byteAt, byteAt, hr.blockAt_other h ht hi hne hri]
    have := (hr.block_other h ht hi hne hri).1
    rw [Geometry.blockAt] at this
    rw [this]

theorem inv : FsInv g d' m := by
  have hroles : ∀ {i}, i < m → i ≠ t → g.rolesAt d' i = g.rolesAt d i := by
    intro i hi hne
    rw [Geometry.rolesAt, hr.slots i hi hne]
    rfl
  -- a block of `t` is never one of another inode: it was free or was already `t`'s
  have hapart : ∀ {i r s}, i < m → i ≠ t → r ∈ g.rolesAt d i → s ∈ g.rolesAt d' t →
      g.blockAt d i r ≠ g.blockAt d' t s := by
    intro i r s hi hne hri hst e
    obtain ⟨k, hk, hb, hu⟩ := h.owned i hi r hri
    obtain ⟨k', hk', hb', -, hold⟩ := hr.owned s hst
    have hkk : k' = k := by omega
    subst hkk
    rcases hold with hf | ⟨s', hs', hb''⟩
    · rw [hf] at hu; cases hu
    · exact hne (h.inj i hi t ht r hri s' hs' (by rw [hb, hb''])).1
  refine ⟨?_, h.room, h.numbers, ?_, ?_, ?_, ?_, ?_, hr.zero, ?_⟩
  · rw [hr.super]; exact h.super
  · intro i hi
    rw [hr.inodes i hi]
    exact h.inodes i hi
  · intro i hi
    by_cases hne : i = t
    · subst hne; exact hr.size
    · rw [hr.slots i hi hne]; exact h.size i hi
  · intro i hi r hri
    by_cases hne : i = t
    · subst hne
      obtain ⟨k, hk, hb, hu, -⟩ := hr.owned r hri
      exact ⟨k, hk, hb, hu⟩
    · rw [hroles hi hne] at hri
      rw [(hr.other h ht hi hne).2.1 r hri]
      exact (hr.block_other h ht hi hne hri).2
  · intro i hi j hj r hri s hsj e
    by_cases hit : i = t
    · by_cases hjt : j = t
      · subst hit; subst hjt
        exact ⟨rfl, hr.inj r hri s hsj e⟩
      · subst hit
        rw [hroles hj hjt] at hsj
        rw [(hr.other h ht hj hjt).2.1 s hsj] at e
        exact absurd e.symm (hapart hj hjt hsj hri)
    · rw [hroles hi hit] at hri
      rw [(hr.other h ht hi hit).2.1 r hri] at e
      by_cases hjt : j = t
      · subst hjt
        exact absurd e (hapart hi hit hri hsj)
      · rw [hroles hj hjt] at hsj
        rw [(hr.other h ht hj hjt).2.1 s hsj] at e
        exact h.inj i hi j hj r hri s hsj e
  · intro k hk hu
    rcases hr.cover k hk hu with ⟨hold, hnot⟩ | ⟨r, hrt, hb⟩
    · obtain ⟨i, hi, r, hri, hb⟩ := h.cover k hk hold
      have hne : i ≠ t := by
        rintro rfl
        exact hnot r hri hb
      exact ⟨i, hi, r, by rw [hroles hi hne]; exact hri, by rw [(hr.other h ht hi hne).2.1 r hri]; exact hb⟩
    · exact ⟨t, ht, r, hrt, hb⟩
  · intro i hi o h1 h2
    by_cases hne : i = t
    · subst hne; exact hr.tail o h1 h2
    · rw [hr.slots i hi hne] at h1 h2 ⊢
      rw [(hr.other h ht hi hne).2.2 o h2]
      exact h.tail i hi o h1 h2

end Replaced

end TCore.EasyFs
