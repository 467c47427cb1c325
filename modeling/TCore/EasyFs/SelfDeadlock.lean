/-
  TCore.EasyFs.SelfDeadlock — no call waits for a block it has locked itself.

  The closures of vfs.rs run with the block of an inode locked and go back to the cache for bitmaps, index
  blocks and data blocks. They never ask for a block that is locked: these all lie in different areas of the
  device, and the blocks of one inode are all different. At most three locks are held: the inode's block, its
  `indirect2` block and a row. A call that panics (a full bitmap, a full directory, an entry without a name, a
  name that is too long) is careful up to the panic, and so is a `create_inode` whose new inode number wraps
  around, or that is given blocks past the end of the device.

  - `addInode_careful`: `create_inode` once the name is not found, whatever room there is.
-/

import TCore.EasyFs.SpareBits
import TCore.EasyFs.CacheLocks
import TCore.EasyFs.Files

namespace TCore.EasyFs

open TCore.Lib
open Role (data ind1 ind2 row)
open List DiskInode Careful EasyFs.Geometry Fits UInt32 Option Bitmap Prog

/-- A call on an inode. -/
inductive FsCall where
  | create (name : List UInt8) (inodeType : DiskInodeType)
  | find (path : List UInt8)
  | ls
  | readAt (offset : Nat) (buf : List UInt8)
  | writeAt (offset : Nat) (buf : List UInt8)
  | clear
  | getInodeSize

namespace FsCall

def prog (fs : EasyFileSystem) (self : Inode) : FsCall → Fs Unit
  | .create name inodeType => do
    let _ ← self.createInode fs name inodeType
    pure ()
  | .find path => do
    let _ ← self.find fs path
    pure ()
  | .ls => do
    let _ ← self.ls
    pure ()
  | .readAt offset buf => do
    let _ ← self.readAt offset buf
    pure ()
  | .writeAt offset buf => do
    let _ ← self.writeAt fs offset buf
    pure ()
  | .clear => self.clear fs
  | .getInodeSize => do
    let _ ← self.getInodeSize
    pure ()

/-- A write writes something, and the volume can hold it. -/
def Within (g : Geometry) (d : Disk) (ino : DiskInode) : FsCall → Prop
  | .writeAt offset buf => buf ≠ [] ∧ g.RoomFor d ino (offset + buf.length)
  | _ => True

end FsCall

section
variable {g : Geometry} {d : Disk} {m t i : Nat} {L : List Nat} {ino : DiskInode}

/-! ## Reading -/

theorem readAt_careful (h : Placed L d ino ino.dataBlocks) (hsize : ino.size.toNat ≤ 512 * ino.dataBlocks) (hlen : L.length < 3)
    (offset : Nat) (buf : List UInt8) :
    ∃ r, Runs (ino.readAt offset buf) L d r d ∧ Careful 3 (ino.readAt offset buf) ⟨d, L⟩ := by
  obtain ⟨r, hrun⟩ : ∃ r, Runs (ino.readAt offset buf) L d r d := by
    unfold readAt
    by_cases hge : offset ≥ min ((offset + buf.length) % 2 ^ 64) ino.size.toNat
    · exact ⟨_, by simp only [if_pos hge]; exact Runs.ret _⟩
    · exact ⟨_, by
        simp only [if_neg hge]
        exact Runs.bind (readLoop_runs h _ (by omega) (le_refl _) (by omega)) (Runs.ret _)⟩
  exact ⟨r, hrun, of_runs (readAt_fits _ hlen _ _) hrun⟩

/-- A closure that reads inode `i` and leaves everything as it was. -/
theorem readDiskInode_careful {α : Type} {f : DiskInode → Fs α} {o : Option α}
    (hf : Careful 3 (f (g.inodeOf d i)) ⟨d, [(g.handle i).blockId]⟩)
    (hexec : exec (f (g.inodeOf d i)) ⟨d, [(g.handle i).blockId]⟩ = o.map fun r => (r, ⟨d, [(g.handle i).blockId]⟩)) :
    Careful 3 ((g.handle i).readDiskInode f) ⟨d, []⟩ := by
  refine read not_mem_nil (by decide) hf fun a u hu => ?_
  have hu : exec (f (g.inodeOf d i)) ⟨d, [(g.handle i).blockId]⟩ = some (a, u) := hu
  rw [hexec] at hu
  obtain ⟨r, -, heq⟩ := map_eq_some_iff.mp hu
  cases heq
  exact mem_cons_self

variable {j : Nat}

section

variable (h : FsInv g d m) (hi : i < m)
include h hi

theorem readDirent_careful (hj : j < (g.inodeOf d i).size.toNat / 32) :
    ∃ e, Runs (readDirent (g.inodeOf d i) j) [(g.handle i).blockId] d e d ∧
      Careful 3 (readDirent (g.inodeOf d i) j) ⟨d, [(g.handle i).blockId]⟩ := by
  obtain ⟨e, -, hrun⟩ := readDirent_runs h hi hj
  exact ⟨e, hrun, of_runs (readDirent_fits (by rw [length_singleton]; omega) _ _) hrun⟩

theorem findDirent_careful (name : List UInt8) (n : Nat)
    (hn : j + n = (g.inodeOf d i).size.toNat / 32) :
    Careful 3 (findDirent (g.inodeOf d i) name n j) ⟨d, [(g.handle i).blockId]⟩ := by
  induction n generalizing j with
  | zero => exact ret _
  | succ n ih =>
    obtain ⟨e, hrun, hread⟩ := readDirent_careful h hi (j := j) (by omega)
    refine after hread hrun (unwrap fun found _ => ?_)
    by_cases hf : found = name
    · rw [if_pos hf]
      exact ret _
    · rw [if_neg hf]
      exact ih (by omega)

theorem listDirents_careful (n : Nat)
    (hn : j + n = (g.inodeOf d i).size.toNat / 32) :
    Careful 3 (listDirents (g.inodeOf d i) n j) ⟨d, [(g.handle i).blockId]⟩ := by
  induction n generalizing j with
  | zero => exact ret _
  | succ n ih =>
    obtain ⟨e, hrun, hread⟩ := readDirent_careful h hi (j := j) (by omega)
    refine after hread hrun (unwrap fun name _ => ?_)
    exact bind (ih (by omega)) fun _ _ _ => ret _

theorem findInodeId_careful (name : List UInt8) :
    Careful 3 (findInodeId name (g.inodeOf d i)) ⟨d, [(g.handle i).blockId]⟩ :=
  assert fun _ => findDirent_careful h hi name _ (by omega)

theorem ls_careful : Careful 3 (g.handle i).ls ⟨d, []⟩ := by
  by_cases hf : (g.inodeOf d i).isFile = true
  · refine readDiskInode_careful (o := some []) ?_ ?_
    · rw [if_pos hf]
      exact ret _
    · rw [if_pos hf]
      rfl
  · refine readDiskInode_careful (o := namesIn (g.direntsAt d i)) ?_ ?_
    · rw [if_neg hf]
      exact listDirents_careful h hi _ (by omega)
    · rw [if_neg hf, exec_listDirents h hi _ (by omega), drop_zero]

end

theorem findFrom_careful (h : FsInv g d m) (hd : DirInv g d m) (p : List (List UInt8)) (hi : i < m) :
    Careful 3 ((g.handle i).findFrom g.efs p) ⟨d, []⟩ := by
  induction p generalizing i with
  | nil => exact ret _
  | cons name rest ih =>
    have hstep := exec_findStep h hi name
    by_cases hf : (g.inodeOf d i).isFile = true
    · rw [if_pos hf] at hstep
      refine after (a := none) (readDiskInode_careful (o := some none) ?_ ?_) hstep (ret _)
      · rw [if_pos hf]
        exact ret _
      · rw [if_pos hf]
        rfl
    · rw [if_neg hf] at hstep
      have hread : Careful 3 ((g.handle i).readDiskInode fun diskInode =>
          if diskInode.isFile = true then pure none else findInodeId name diskInode) ⟨d, []⟩ := by
        refine readDiskInode_careful
          (o := if (g.inodeOf d i).isDir = true then findIn name (g.direntsAt d i) else none) ?_ ?_
        · rw [if_neg hf]
          exact findInodeId_careful h hi name
        · rw [if_neg hf, exec_findInodeId h hi]
      refine bind hread fun found u hu => ?_
      rw [hstep] at hu
      obtain ⟨r, hr, heq⟩ := map_eq_some_iff.mp hu
      cases heq
      cases found with
      | none => exact ret _
      | some id =>
        obtain ⟨hid, hat⟩ := h.inodeAt_entry hd hi hf hr
        show Careful 3 ((g.efs.inodeAt id).findFrom g.efs rest) ⟨d, []⟩
        rw [hat]
        exact ih hid

/-! ## Growing a directory -/

theorem Holds.placed (h : Holds g d ino) (hL : ∀ x ∈ L, x < 1 + 1025 * g.inodeBitmapBlocks) : Placed L d ino ino.dataBlocks := by
  refine ⟨?_, h.inj, fun r hr hmem => ?_⟩
  · have := h.size
    rw [dataBlocks, dataBlocksOf_eq h.size]
    omega
  · obtain ⟨k, -, hb, -⟩ := h.owned r hr
    have := hL _ hmem
    rw [dataStart] at hb
    omega

/-- A change below the data bitmap leaves the blocks of an inode alone. -/
theorem Holds.congr {d1 : Disk} (h : Holds g d ino) (hd : ∀ x, 1 + 1025 * g.inodeBitmapBlocks ≤ x → d1 x = d x) :
    Holds g d1 ino := by
  have hcov := g.covered
  have hblk : ∀ r ∈ roles ino.dataBlocks, blockOf d1 ino r = blockOf d ino r := by
    refine blockOf_frame (fun _ _ _ => rfl) fun r hr _ => hd _ ?_
    obtain ⟨k, -, hb, -⟩ := h.owned r hr
    rw [hb, dataStart]
    omega
  refine ⟨h.size, fun r hr => ?_, fun r hr s hs e => ?_⟩
  · obtain ⟨k, hk, hb, hu⟩ := h.owned r hr
    exact ⟨k, hk, by rw [hblk r hr, hb], by rw [used_congr (fun x hx => hd x hx.1) (by omega), hu]⟩
  · rw [hblk r hr, hblk s hs] at e
    exact h.inj r hr s hs e

theorem allocBlocks_careful (n : Nat) (hL : ∀ x ∈ L, ¬g.inDataBitmap x) (hlen : L.length < 3) :
    Careful 3 (allocBlocks g.efs n) ⟨d, L⟩ := by
  induction n generalizing d with
  | zero => exact ret _
  | succ n ih =>
    rcases allocBit_cases (d := d) hL with ⟨k, hk, hclear, hset, halloc⟩ | ⟨hset, halloc⟩
    · have hrun := allocData_takes halloc
      exact after (of_runs (allocData_fits _ hlen) hrun) hrun (bind ih fun _ _ _ => ret _)
    · have hnone := allocData_out halloc
      have halloc : Runs g.efs.dataBitmap.alloc L d none d := halloc
      refine stops _ (after (of_runs (alloc_fits _ hlen) halloc) halloc ?_) hnone
      exact unwrap fun k hk => by cases hk

/-- With all the blocks a file can have, `increase_size` goes as far as the row that does not exist. -/
theorem increaseSize_full_careful {newSize : UInt32} (h : Placed L d ino ino.dataBlocks) (hold : ino.dataBlocks = 16540)
    (hnew : dataBlocksOf newSize = 16541) (hlen : L.length < 2) (v : List UInt32) :
    Careful 3 (ino.increaseSize newSize v) ⟨d, L⟩ := by
  have hi1 : ino.indirect1.toNat ∉ L := h.unlocked ind1 (mem_roles.mpr (by rw [hold]; decide))
  have hi2 : ino.indirect2.toNat ∉ L := h.unlocked ind2 (mem_roles.mpr (by rw [hold]; decide))
  have hfill : Runs (modify ino.indirect1.toNat fun b => do
      let r ← fill Block.setEntry (min (16541 - 28) 128 - (max 16540 28 - 28)) (max 16540 28 - 28) b v
      pure (r.2, r.1)) L d v d := Runs.modify_same hi1 (Runs.ret _)
  unfold DiskInode.increaseSize
  simp only [hold, hnew]
  refine after (ret _) (Runs.ret _) ?_
  rw [if_pos (by decide)]
  refine after (ret _) (Runs.ret _) ?_
  refine after (of_runs (modify (by omega) fun _ => bind (fill_fits _ _ _ _ _) fun _ => ret _) hfill)
    hfill ?_
  rw [if_pos (by decide)]
  refine after (ret _) (Runs.ret _) ?_
  refine stops _ (modify hi2 (by omega) ?_ ?_) ?_
  · exact bind (assert_not (by decide) _) fun _ _ _ => ret _
  · intro a u hu
    cases hu
  · exact exec_modify_none hi2 rfl

theorem addDirent_fits (fs : EasyFileSystem) (name : List UInt8) (id : UInt32) : Fits 3 1 (addDirent fs name id ino) 1 :=
  bind (increaseSize_fits fs (by omega) _ _) fun _ => bind (unwrap _) fun _ =>
    bind (writeAt_fits _ (by omega) _ _) fun _ => ret _

/-- A directory that fills all the blocks a file can have. -/
theorem growFull_careful {x : Nat} (h : Holds g d ino) (hfull : ino.size.toNat = 8468480)
    (hx : 2 ≤ x ∧ x < 1 + 1025 * g.inodeBitmapBlocks) :
    Careful 3 (increaseSize g.efs (ofNat (32 * (ino.size.toNat / 32 + 1))) ino) ⟨d, [x]⟩ ∧
      exec (increaseSize g.efs (ofNat (32 * (ino.size.toNat / 32 + 1))) ino) ⟨d, [x]⟩ = none := by
  have hnew := entrySize_toNat h.size
  have hold : ino.dataBlocks = 16540 := by
    rw [dataBlocks, dataBlocksOf_eq h.size, hfull]
  have hblocks : dataBlocksOf (ofNat (32 * (ino.size.toNat / 32 + 1))) = 16541 := by
    rw [dataBlocksOf, hnew, hfull]
    norm_num
  have hplaced : ∀ {d' : Disk}, (∀ y, ¬g.inDataBitmap y → d' y = d y) → Placed [x] d' ino ino.dataBlocks := by
    intro d' hout
    have hblk : ∀ r ∈ roles ino.dataBlocks, blockOf d' ino r = blockOf d ino r := by
      refine blockOf_frame (fun _ _ _ => rfl) fun r hr _ => hout _ fun hbm => ?_
      obtain ⟨k, -, hb, -⟩ := h.owned r hr
      have := hbm.2
      omega
    have hp := h.placed (L := [x]) fun y hy => by rw [mem_singleton.mp hy]; exact hx.2
    refine ⟨hp.max, fun r hr s hs e => ?_, fun r hr => ?_⟩
    · rw [hblk r hr, hblk s hs] at e
      exact hp.inj r hr s hs e
    · rw [hblk r hr]
      exact hp.unlocked r hr
  have hbits : ∀ y ∈ [x], ¬g.inDataBitmap y := by
    intro y hy hbm
    rw [mem_singleton.mp hy] at hbm
    have := hbm.1
    omega
  have hneeded : Runs (ino.blocksNumNeeded (ofNat (32 * (ino.size.toNat / 32 + 1)))) [x] d
      ((totalBlocks (ofNat (32 * (ino.size.toNat / 32 + 1))) + 2 ^ 32 - totalBlocks ino.size) %
        2 ^ 32) d := Runs.bind (Runs.assert (le_iff_toNat_le.mpr (by rw [hnew]; omega))) (Runs.ret _)
  rw [increaseSize, if_neg (by rw [lt_iff_toNat_lt, hnew]; omega)]
  refine ⟨?_, ?_⟩
  · refine after (of_runs (bind (assert _) fun _ => ret _) hneeded) hneeded ?_
    refine bind (allocBlocks_careful _ hbits (by rw [length_singleton]; omega)) fun v u hu => ?_
    rcases allocBlocks_cases (d := d) _ hbits with ⟨ks, d', halloc, -, htook⟩ | ⟨hnone, -⟩
    · obtain ⟨rfl, rfl⟩ := Prod.mk.inj (some.inj (halloc.symm.trans hu))
      exact increaseSize_full_careful (hplaced htook.outside) hold hblocks (by rw [length_singleton]; omega) _
    · rw [hnone] at hu
      cases hu
  · rw [exec_bind_none (fun _ u => exec_bind_none (fun v u => increaseSize_overflows _ (by omega) (by omega) v u) u)]

theorem addDirent_careful {x : Nat} (h : Holds g d ino)
    (hspare : ∀ k < 4096 * g.dataBitmapBlocks, g.used d k = true → k < g.dataAreaBlocks)
    (hx : 2 ≤ x ∧ x < 1 + 1025 * g.inodeBitmapBlocks) (name : List UInt8) (id : UInt32) :
    Careful 3 (addDirent g.efs name id ino) ⟨d, [x]⟩ ∧
      ∀ r u, exec (addDirent g.efs name id ino) ⟨d, [x]⟩ = some (r, u) → u.locked = [x] := by
  have hsize := h.size
  have hslot : ∀ y ∈ [x], 2 ≤ y ∧ y < 1 + 1025 * g.inodeBitmapBlocks := fun y hy => by rw [mem_singleton.mp hy]; exact hx
  by_cases hmax : 32 * (ino.size.toNat / 32 + 1) ≤ 8468480
  · have hnew := entrySize_toNat h.size
    rcases growEntry_cases h hmax hspare hslot with ⟨ks, d1, ino', d2, -, -, hgrow, hsize', hplaced, -⟩ | hnone
    · cases he : DirEntry.new name id with
      | some e =>
        obtain ⟨d3, hrun, -⟩ := addDirent_runs hgrow hplaced (by omega) hsize' he
        refine ⟨of_runs (addDirent_fits _ _ _) hrun, fun r u hu => ?_⟩
        obtain ⟨-, rfl⟩ := Prod.mk.inj (some.inj (hrun.symm.trans hu))
        rfl
      | none =>
        refine ⟨after (of_runs (increaseSize_fits _ (by rw [length_singleton]; omega) _ _) hgrow) hgrow ?_,
          fun r u hu => ?_⟩
        · rw [he]
          exact unwrap fun e h => by cases h
        · rw [addDirent, hgrow.exec_bind, he] at hu
          cases hu
    · have hgrow := growEntry_none h.size hmax hnone
      refine ⟨stops _ ?_ hgrow, fun r u hu => ?_⟩
      · have hneeded := blocksNumNeeded_runs (d := d) (L := [x]) (show ino.size.toNat ≤ _ by rw [hnew]; omega)
          (by rw [hnew]; exact hmax)
        rw [increaseSize, if_neg (by rw [lt_iff_toNat_lt, hnew]; omega)]
        refine after (of_runs (bind (assert _) fun _ => ret _) hneeded) hneeded ?_
        refine stops _ (allocBlocks_careful _ ?_ (by rw [length_singleton]; omega)) hnone
        intro y hy hbm
        have := hslot y hy
        have := hbm.1
        omega
      · rw [addDirent, exec_bind, hgrow] at hu
        cases hu
  · obtain ⟨hgrow, hnone⟩ := growFull_careful h (by omega) hx
    refine ⟨stops _ hgrow hnone, fun r u hu => ?_⟩
    rw [addDirent, exec_bind, hnone] at hu
    cases hu

/-! ## Creation -/

/-- The directory after a slot has been initialised, its own or another. -/
theorem FsInv.holds_reset (h : FsInv g d m) (ht : t < m) (hm : m < 4096 * g.inodeBitmapBlocks)
    (hj : j < 4096 * g.inodeBitmapBlocks) (ty : DiskInodeType) :
    let d1 := g.setInodeOf (g.inodeBitmap.put d m true) j (reset ty)
    Holds g d1 (g.inodeOf d1 t) ∧ ∀ k < 4096 * g.dataBitmapBlocks, g.used d1 k = true → k < g.dataAreaBlocks := by
  intro d1
  have hhigh : ∀ x, 1 + 1025 * g.inodeBitmapBlocks ≤ x → d1 x = d x := by
    intro x hx
    show g.setInodeOf _ _ _ x = d x
    rw [setInodeOf_ne _ (by simp only [handle, inodeStart]; omega), put_ne]
    simp only [inodeBitmap]
    omega
  refine ⟨?_, fun k hk hu => ?_⟩
  · by_cases hjt : t = j
    · have hino : g.inodeOf d1 t = reset ty := by
        rw [hjt]
        exact inodeOf_setInodeOf _
      have hroles : roles (g.inodeOf d1 t).dataBlocks = [] := by
        rw [hino, dataBlocks_reset]
        rfl
      refine ⟨by rw [hino]; exact Nat.zero_le _, fun r hr => ?_, fun r hr => ?_⟩
      · rw [hroles] at hr
        cases hr
      · rw [hroles] at hr
        cases hr
    · have hino : g.inodeOf d1 t = g.inodeOf d t := by
        show g.inodeOf (g.setInodeOf _ _ _) t = _
        rw [inodeOf_setInodeOf_ne _ hjt, inodeOf_put hm]
      rw [hino]
      exact (h.holds ht).congr hhigh
  · rw [used_congr (fun x hx => hhigh x hx.1) hk] at hu
    exact h.used_lt hk hu

theorem allocInode_full (h : FsInv g d m) (hm : ¬m < 4096 * g.inodeBitmapBlocks) :
    Careful 3 g.efs.allocInode ⟨d, []⟩ ∧ exec g.efs.allocInode ⟨d, []⟩ = none := by
  have hroom := h.room
  have halloc : Runs g.efs.inodeBitmap.alloc [] d none d := by
    refine alloc_full _ (fun _ _ => not_mem_nil) fun i hi => ?_
    have hi : i < 4096 * g.inodeBitmapBlocks := hi
    have hbit := h.inodes i hi
    rw [decide_eq_true (by omega)] at hbit
    exact hbit
  refine ⟨after (of_runs (alloc_fits _ (by decide)) halloc) halloc ?_, ?_⟩
  · exact unwrap fun k hk => by cases hk
  · rw [EasyFileSystem.allocInode, halloc.exec_bind]
    rfl

/-- The handle of a new inode number, cut to 32 bits. -/
theorem inodeAt_new (hm : m < 4096 * g.inodeBitmapBlocks) : g.efs.inodeAt (ofNat m) = g.handle (m % 2 ^ 32) := by
  have hcut : ofNat m = ofNat (m % 2 ^ 32) := by
    apply UInt32.toNat_inj.mp
    rw [UInt32.toNat_ofNat', UInt32.toNat_ofNat', Nat.mod_mod]
  rw [hcut]
  exact inodeAt_ofNat (lt_of_le_of_lt (Nat.mod_le _ _) hm) (Nat.mod_lt _ (by decide))

theorem addInode_careful (h : FsInv g d m) (ht : t < m) (name : List UInt8) (ty : DiskInodeType) :
    Careful 3 ((g.handle t).addInode g.efs name ty) ⟨d, []⟩ := by
  rw [addInode_eq]
  by_cases hm : m < 4096 * g.inodeBitmapBlocks
  · have halloc := allocInode_runs h hm
    refine after (of_runs (allocInode_fits _ (by decide)) halloc) halloc ?_
    have hinit : Runs ((g.efs.inodeAt (ofNat m)).modifyDiskInode fun _ => pure ((), reset ty)) []
        (g.inodeBitmap.put d m true) () (g.setInodeOf (g.inodeBitmap.put d m true) (m % 2 ^ 32) (reset ty)) := by
      rw [inodeAt_new hm]
      exact modifyDiskInode_runs (Runs.ret _) rfl
    refine after (of_runs (Inode.modifyDiskInode_fits _ (by decide) fun _ => ret _) hinit) hinit ?_
    obtain ⟨hholds, hspare⟩ := h.holds_reset ht hm (lt_of_le_of_lt (Nat.mod_le m (2 ^ 32)) hm) ty
    obtain ⟨hadd, hkeep⟩ := addDirent_careful hholds hspare (h.slot_low ht _ (mem_singleton_self _)) name (ofNat m)
    have hmod : Careful 3 ((g.handle t).modifyDiskInode (addDirent g.efs name (ofNat m)))
        ⟨g.setInodeOf (g.inodeBitmap.put d m true) (m % 2 ^ 32) (reset ty), []⟩ := by
      refine modify not_mem_nil (by decide) (bind hadd fun _ _ _ => ret _) fun a u hu => ?_
      obtain ⟨r, w, hclosure, hret⟩ := exec_bind_some hu
      cases hret
      rw [hkeep r _ hclosure]
      exact mem_singleton_self _
    refine bind hmod fun _ u hu => ?_
    obtain ⟨b, w, hclosure, rfl⟩ := exec_modify_some hu
    obtain ⟨r, w', hclosure, hret⟩ := exec_bind_some hclosure
    cases hret
    refine bind (sync ?_ (ret _)) fun _ _ _ => ret _
    rw [hkeep r _ hclosure]
    exact erase_cons_head (a := (g.handle t).blockId) (l := [])
  · obtain ⟨halloc, hnone⟩ := allocInode_full h hm
    exact stops _ halloc hnone

theorem createInode_careful (h : FsInv g d m) (ht : t < m) (name : List UInt8) (ty : DiskInodeType) :
    Careful 3 ((g.handle t).createInode g.efs name ty) ⟨d, []⟩ := by
  have hread : Careful 3 ((g.handle t).readDiskInode fun rootInode => do
      assert (rootInode.isDir = true)
      findInodeId name rootInode) ⟨d, []⟩ := by
    by_cases hdir : (g.inodeOf d t).isDir = true
    · refine readDiskInode_careful (o := findIn name (g.direntsAt d t)) ?_ ?_
      · exact assert fun _ => findInodeId_careful h ht name
      · rw [(Runs.assert hdir).exec_bind, exec_findInodeId h ht, if_pos hdir]
    · refine readDiskInode_careful (o := none) ?_ ?_
      · exact assert_not hdir _
      · rw [exec_bind, Prog.assert, if_neg hdir]
        rfl
  refine bind hread fun found u hu => ?_
  rw [exec_createSearch h ht] at hu
  obtain ⟨r, -, heq⟩ := map_eq_some_iff.mp hu
  cases heq
  cases found with
  | some id => exact ret _
  | none => exact bind (addInode_careful h ht name ty) fun _ _ _ => ret _

/-! ## All calls -/

/-- On a directory `write_at` and `clear` stop in their `assert`. -/
theorem modifyDir_careful {α : Type} {f : DiskInode → Fs (α × DiskInode)} (hn : ¬(g.inodeOf d t).isFile = true) :
    Careful 3 ((g.handle t).modifyDiskInode fun ino => do
      assert (ino.isFile = true)
      f ino) ⟨d, []⟩ := by
  have hn : ¬((d (g.handle t).blockId).inode (g.handle t).blockOffset).isFile = true := hn
  refine modify not_mem_nil (by decide) ?_ fun a u hu => ?_
  · refine bind ?_ fun _ _ _ => ret _
    exact assert_not hn _
  · rw [exec_bind, exec_bind, Prog.assert, if_neg hn] at hu
    cases hu

theorem call_careful (h : FsInv g d m) (hd : DirInv g d m) (ht : t < m) (call : FsCall)
    (hwithin : call.Within g d (g.inodeOf d t)) : Careful 3 (call.prog g.efs (g.handle t)) ⟨d, []⟩ := by
  cases call with
  | create name ty => exact bind (createInode_careful h ht name ty) fun _ _ _ => ret _
  | find path => exact bind (findFrom_careful h hd _ ht) fun _ _ _ => ret _
  | ls => exact bind (ls_careful h ht) fun _ _ _ => ret _
  | readAt offset buf =>
    obtain ⟨r, hrun, hread⟩ := readAt_careful (h.placed_self ht) (h.size_le_dataBlocks ht) (by rw [length_singleton]; omega)
      offset buf
    exact bind (readDiskInode_careful (o := some r) hread hrun) fun _ _ _ => ret _
  | writeAt offset buf =>
    obtain ⟨hb, hroom⟩ := hwithin
    refine bind ?_ fun _ _ _ => ret _
    by_cases hfile : (g.inodeOf d t).isFile = true
    · obtain ⟨d', hrun, -⟩ := writeAt_wrote h ht hfile hb hroom
      exact of_runs (Inode.writeAt_fits _ _ _ _) hrun
    · exact stops _ (modifyDir_careful hfile) (exec_modifyDir hfile)
  | clear =>
    by_cases hfile : (g.inodeOf d t).isFile = true
    · obtain ⟨d', hrun, -⟩ := clear_wrote h ht hfile
      exact of_runs (Inode.clear_fits _ _) hrun
    · exact stops _ (modifyDir_careful hfile) (exec_modifyDir hfile)
  | getInodeSize =>
    have hsize : Runs (g.handle t).getInodeSize [] d (g.inodeOf d t).size d :=
      Runs.modify_same not_mem_nil (Runs.ret _)
    refine bind (of_runs (modify (by decide) fun _ => ret _) hsize) fun _ _ _ => ret _

end

section
variable {dev : Nat} {g : Geometry} {calls : FsOp → Prop} {s : Mount}

/-- Whatever a call finds, it holds at most three different blocks, and neither waits for itself nor runs out of
    cache blocks. -/
theorem no_self_deadlock (hs : Reachable dev g calls s) (t : Nat) (ht : t < 4096 * g.inodeBitmapBlocks)
    (hbit : g.inodeBitmap.bit (s.disk dev) t = true) (call : FsCall)
    (hwithin : call.Within g (s.disk dev) (g.inodeOf (s.disk dev) t)) :
    (∀ L ∈ held dev (call.prog s.fs (g.handle t)) s.session, L.Nodup ∧ L.length ≤ 3) ∧
      fate dev (call.prog s.fs (g.handle t)) s.session ≠ .relocks ∧
      fate dev (call.prog s.fs (g.handle t)) s.session ≠ .runsOut := by
  obtain ⟨m, hm⟩ := hs.mounted
  have hcall := call_careful hm.inv hm.dirs ((hm.inv.allocated ht).mp hbit) call hwithin
  rw [hm.fs]
  exact ⟨careful_held hm.idle hcall (by decide) (by decide) (Nat.zero_le _), careful_fate hm.idle hcall (by decide)⟩

end

/-- Creating a file in the root of a fresh device of 5123 blocks. -/
theorem no_self_deadlock_5123 : ∃ (h : Accepted 5123 1) (s : Mount), Reachable 0 (Geometry.ofSizes 5123 1 h) (fun _ => True) s ∧
    fate 0 ((FsCall.create [97] .file).prog s.fs ((Geometry.ofSizes 5123 1 h).handle 0)) s.session ≠ .relocks := by
  have h := small_accepted
  obtain ⟨s, hs, hm, -, -⟩ := fresh_reachable 0 (fun _ => True) h
  have h0 : 0 < 4096 * (Geometry.ofSizes 5123 1 h).inodeBitmapBlocks := by
    have := (Geometry.ofSizes 5123 1 h).some_inode
    omega
  exact ⟨h, s, hs, (no_self_deadlock hs 0 h0 ((hm.inv.allocated h0).mpr Nat.one_pos) (.create [97] .file) trivial).2.1⟩

end TCore.EasyFs
