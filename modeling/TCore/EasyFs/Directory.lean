/-
  TCore.EasyFs.Directory — what the directory code computes from a directory's bytes.

  A directory is a file of 32-byte entries. `direntsOf` cuts its bytes into entries; looking a
  name up, listing the names and walking a path are then plain functions of the entries
  (`findIn`, `namesIn`, `resolve`), where `none` is a panic: an entry without a NUL among its 28
  name bytes, or one that is not UTF-8. `DirInv` says that every directory of a volume holds
  whole entries that name allocated inodes.

  - `exec_findInodeId`, `exec_ls`, `exec_find`: the code answers what these functions say, and
    leaves the disk as it was.
-/

import TCore.EasyFs.VolumeWrite

namespace TCore.EasyFs

open TCore.Lib
open List EasyFs.Geometry Option

/-- The entries of a directory, from its bytes. -/
def direntsOf (l : List UInt8) : List DirEntry :=
  (List.range (l.length / 32)).map fun j => DirEntry.ofBytes ((l.drop (32 * j)).take 32)

def findIn (name : List UInt8) : List DirEntry → Option (Option UInt32)
  | [] => some none
  | e :: es => e.nameOf.bind fun found => if found = name then some (some e.inodeNumber) else findIn name es

def namesIn : List DirEntry → Option (List (List UInt8))
  | [] => some []
  | e :: es => e.nameOf.bind fun name => (namesIn es).map fun rest => name :: rest

namespace Geometry

def direntsAt (g : Geometry) (d : Disk) (i : Nat) : List DirEntry := direntsOf (g.contents d i)

/-- Where a path leads from inode `i`. -/
def resolve (g : Geometry) (d : Disk) : Nat → List (List UInt8) → Option (Option Nat)
  | i, [] => some (some i)
  | i, name :: rest =>
    if (g.inodeOf d i).isFile = true then some none
    else (findIn name (g.direntsAt d i)).bind fun
      | none => some none
      | some id => resolve g d id.toNat rest

end Geometry

/-- Every directory holds whole entries, and each names an inode in use. -/
structure DirInv (g : Geometry) (d : Disk) (m : Nat) : Prop where
  some_inode : 0 < m
  root : (g.inodeOf d 0).isDir = true
  whole : ∀ i < m, (g.inodeOf d i).isDir = true → (g.contents d i).length % 32 = 0
  inUse : ∀ i < m, (g.inodeOf d i).isDir = true → ∀ e ∈ g.direntsAt d i, e.inodeNumber.toNat < m

theorem findIn_mem {name : List UInt8} {es : List DirEntry} {id : UInt32} (h : findIn name es = some (some id)) :
    ∃ e ∈ es, e.inodeNumber = id := by
  induction es with
  | nil => cases h
  | cons e es ih =>
    obtain ⟨found, -, hf⟩ := bind_eq_some_iff.mp h
    split at hf
    · exact ⟨e, mem_cons_self, by simpa using hf⟩
    · obtain ⟨e', he', hid⟩ := ih hf
      exact ⟨e', mem_cons_of_mem _ he', hid⟩

section
variable {g : Geometry} {d : Disk} {m i : Nat} {L : List Nat}

/-! ## One entry -/

theorem contents_length (g : Geometry) (d : Disk) (i : Nat) : (g.contents d i).length = (g.inodeOf d i).size.toNat :=
  contentsOf_length d _

theorem direntsAt_length : (g.direntsAt d i).length = (g.inodeOf d i).size.toNat / 32 := by
  simp [direntsAt, direntsOf, contents_length]

variable {j : Nat}

section

variable (h : FsInv g d m) (hi : i < m)
include h hi

theorem readDirent_runs (hj : j < (g.inodeOf d i).size.toNat / 32) :
    ∃ e, (g.direntsAt d i)[j]? = some e ∧ Runs (readDirent (g.inodeOf d i) j) [(g.handle i).blockId] d e d := by
  have hsz := h.size i hi
  have hread := readAt_runs (h.placed_self hi) (h.size_le_dataBlocks hi) (32 * j) (List.replicate 32 0) (by omega) (by simp)
  have hmin : min (List.replicate 32 (0 : UInt8)).length ((g.inodeOf d i).size.toNat - 32 * j) = 32 := by
    rw [length_replicate]
    omega
  rw [hmin] at hread
  refine ⟨DirEntry.ofBytes (((g.contents d i).drop (32 * j)).take 32), ?_, ?_⟩
  · simp [direntsAt, direntsOf, contents_length, hj]
  · refine Runs.bind hread (Runs.bind (Runs.assert rfl) ?_)
    simp only [length_replicate, drop_replicate, Nat.sub_self, replicate_zero, append_nil]
    exact Runs.ret _

/-! ## Searching and listing -/

theorem exec_findDirent (name : List UInt8) (n : Nat)
    (hn : j + n = (g.inodeOf d i).size.toNat / 32) :
    exec (findDirent (g.inodeOf d i) name n j) ⟨d, [(g.handle i).blockId]⟩ =
      (findIn name ((g.direntsAt d i).drop j)).map fun r => (r, ⟨d, [(g.handle i).blockId]⟩) := by
  induction n generalizing j with
  | zero =>
    rw [drop_of_length_le (by rw [direntsAt_length]; omega)]
    rfl
  | succ n ih =>
    obtain ⟨e, he, hrun⟩ := readDirent_runs h hi (j := j) (by omega)
    obtain ⟨hlt, he⟩ := List.getElem?_eq_some_iff.mp he
    rw [drop_eq_getElem_cons hlt, he, findIn, findDirent, hrun.exec_bind]
    cases hname : e.nameOf with
    | none => rfl
    | some found =>
      rw [(Runs.unwrap found).exec_bind, bind_some]
      by_cases hf : found = name
      · rw [if_pos hf, if_pos hf]
        rfl
      · rw [if_neg hf, if_neg hf]
        exact ih (by omega)

theorem exec_listDirents (n : Nat)
    (hn : j + n = (g.inodeOf d i).size.toNat / 32) :
    exec (listDirents (g.inodeOf d i) n j) ⟨d, [(g.handle i).blockId]⟩ =
      (namesIn ((g.direntsAt d i).drop j)).map fun r => (r, ⟨d, [(g.handle i).blockId]⟩) := by
  induction n generalizing j with
  | zero =>
    rw [drop_of_length_le (by rw [direntsAt_length]; omega)]
    rfl
  | succ n ih =>
    obtain ⟨e, he, hrun⟩ := readDirent_runs h hi (j := j) (by omega)
    obtain ⟨hlt, he⟩ := List.getElem?_eq_some_iff.mp he
    rw [drop_eq_getElem_cons hlt, he, namesIn, listDirents, hrun.exec_bind]
    cases hname : e.nameOf with
    | none => rfl
    | some name =>
      rw [(Runs.unwrap name).exec_bind, bind_some, exec_bind, ih (by omega)]
      cases namesIn ((g.direntsAt d i).drop (j + 1)) with
      | none => rfl
      | some rest => rfl

end

/-- A closure on inode `i` that only reads, run from outside. -/
theorem exec_readDiskInode {α : Type} {f : DiskInode → Fs α} {o : Option α}
    (hf : exec (f (g.inodeOf d i)) ⟨d, [(g.handle i).blockId]⟩ = o.map fun r => (r, ⟨d, [(g.handle i).blockId]⟩)) :
    exec ((g.handle i).readDiskInode f) ⟨d, []⟩ = o.map fun r => (r, ⟨d, []⟩) := by
  unfold Inode.readDiskInode Prog.read
  simp only [exec_lock, not_mem_nil, if_false]
  rw [exec_bind]
  have hf : exec (f ((d (g.handle i).blockId).inode (g.handle i).blockOffset)) ⟨d, [(g.handle i).blockId]⟩ = _ := hf
  rw [hf]
  cases o with
  | none => rfl
  | some r => simp [exec_unlock]

theorem exec_findInodeId (h : FsInv g d m) (hi : i < m) (name : List UInt8) :
    exec (findInodeId name (g.inodeOf d i)) ⟨d, [(g.handle i).blockId]⟩ =
      (if (g.inodeOf d i).isDir = true then findIn name (g.direntsAt d i) else none).map
        fun r => (r, ⟨d, [(g.handle i).blockId]⟩) := by
  unfold findInodeId
  by_cases hd : (g.inodeOf d i).isDir = true
  · rw [(Runs.assert hd).exec_bind, exec_findDirent h hi name _ (by omega), if_pos hd, drop_zero]
  · rw [exec_bind, Prog.assert, if_neg hd, if_neg hd]
    rfl

theorem isFile_iff (ino : DiskInode) : ino.isFile = true ↔ ¬ino.isDir = true := by
  unfold DiskInode.isFile DiskInode.isDir
  cases ino.type_ with
  | file => decide
  | directory => decide

theorem exec_ls (h : FsInv g d m) (hi : i < m) : exec (g.handle i).ls ⟨d, []⟩ =
    (if (g.inodeOf d i).isFile = true then some [] else namesIn (g.direntsAt d i)).map fun r => (r, ⟨d, []⟩) := by
  refine exec_readDiskInode ?_
  by_cases hf : (g.inodeOf d i).isFile = true
  · rw [if_pos hf, if_pos hf]
    rfl
  · rw [if_neg hf, if_neg hf, exec_listDirents h hi _ (by omega), drop_zero]

/-! ## Paths -/

theorem resolve_lt (hd : DirInv g d m) {p : List (List UInt8)} (hi : i < m)
    (hr : g.resolve d i p = some (some j)) : j < m := by
  induction p generalizing i with
  | nil => cases hr; exact hi
  | cons name rest ih =>
    rw [resolve] at hr
    split at hr
    · cases hr
    · rename_i hf
      obtain ⟨r, hr1, hr2⟩ := bind_eq_some_iff.mp hr
      cases r with
      | none => cases hr2
      | some id =>
        obtain ⟨e, he, rfl⟩ := findIn_mem hr1
        have hdir : (g.inodeOf d i).isDir = true := by
          by_contra hn
          exact hf ((isFile_iff _).mpr hn)
        exact ih (hd.inUse i hi hdir e he) hr2

/-- One turn of the loop of `find`. -/
theorem exec_findStep (h : FsInv g d m) (hi : i < m) (name : List UInt8) :
    exec ((g.handle i).readDiskInode fun diskInode =>
        if diskInode.isFile = true then pure none else findInodeId name diskInode) ⟨d, []⟩ =
      (if (g.inodeOf d i).isFile = true then some none else findIn name (g.direntsAt d i)).map fun r => (r, ⟨d, []⟩) := by
  refine exec_readDiskInode ?_
  by_cases hf : (g.inodeOf d i).isFile = true
  · rw [if_pos hf, if_pos hf]
    rfl
  · have hdir : (g.inodeOf d i).isDir = true := by
      by_contra hn
      exact hf ((isFile_iff _).mpr hn)
    rw [if_neg hf, if_neg hf, exec_findInodeId h hi, if_pos hdir]

section

variable (h : FsInv g d m) (hd : DirInv g d m)
include h hd

/-- The inode an entry leads to. -/
theorem FsInv.inodeAt_entry (hi : i < m) (hf : ¬(g.inodeOf d i).isFile = true)
    {name : List UInt8} {id : UInt32} (hfind : findIn name (g.direntsAt d i) = some (some id)) :
    id.toNat < m ∧ g.efs.inodeAt id = g.handle id.toNat := by
  obtain ⟨e, he, rfl⟩ := findIn_mem hfind
  have hdir : (g.inodeOf d i).isDir = true := by
    by_contra hn
    exact hf ((isFile_iff _).mpr hn)
  have hid := hd.inUse i hi hdir e he
  have hroom := h.room
  have hnum := e.inodeNumber.toNat_lt
  have hat := inodeAt_ofNat (g := g) (i := e.inodeNumber.toNat) (by omega) (by omega)
  rw [UInt32.ofNat_toNat] at hat
  exact ⟨hid, hat⟩

theorem exec_findFrom (p : List (List UInt8)) (hi : i < m) :
    exec ((g.handle i).findFrom g.efs p) ⟨d, []⟩ =
      (g.resolve d i p).map fun r => (r.map g.handle, ⟨d, []⟩) := by
  induction p generalizing i with
  | nil => rfl
  | cons name rest ih =>
    rw [Inode.findFrom, exec_bind, exec_findStep h hi, resolve]
    by_cases hf : (g.inodeOf d i).isFile = true
    · rw [if_pos hf, if_pos hf]
      rfl
    · rw [if_neg hf, if_neg hf]
      cases hfind : findIn name (g.direntsAt d i) with
      | none => rfl
      | some r =>
        cases r with
        | none => rfl
        | some id =>
          obtain ⟨hid, hat⟩ := h.inodeAt_entry hd hi hf hfind
          simp only [map_some, bind_some]
          rw [hat]
          exact ih hid

theorem exec_find (path : List UInt8) (hi : i < m) :
    exec ((g.handle i).find g.efs path) ⟨d, []⟩ =
      (g.resolve d i (components path)).map fun r => (r.map g.handle, ⟨d, []⟩) :=
  exec_findFrom h hd _ hi

end

end

end TCore.EasyFs
