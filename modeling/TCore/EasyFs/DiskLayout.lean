/-
  TCore.EasyFs.DiskLayout — the records easy-fs keeps on disk (layout.rs, the types).

  `SuperBlock`, `DiskInode` and `DirEntry` are `repr(C)`: their fields lie in the order of
  the source, each word little-endian. A disk inode is 128 bytes (31 words, the type's
  byte, three bytes of padding that no code writes); a directory entry is 32 bytes.

  Numbers of the source: INODE_DIRECT_COUNT 28, INODE_INDIRECT1_COUNT 128, INDIRECT1_BOUND
  156, NAME_LENGTH_LIMIT 27, DIRENT_SZ 32, EFS_MAGIC 0x3b800001.
-/

import TCore.EasyFs.Block
import TCore.Lib.Utf8

namespace TCore.EasyFs

open TCore.Lib
open Arr

/-! ## The superblock -/

structure SuperBlock where
  magic : UInt32
  totalBlocks : UInt32
  inodeBitmapBlocks : UInt32
  inodeAreaBlocks : UInt32
  dataBitmapBlocks : UInt32
  dataAreaBlocks : UInt32
  deriving DecidableEq

def efsMagic : UInt32 := 0x3b800001

def SuperBlock.isValid (s : SuperBlock) : Bool := s.magic == efsMagic

namespace Block

def superBlock (b : Block) : SuperBlock := ⟨b.u32 0, b.u32 4, b.u32 8, b.u32 12, b.u32 16, b.u32 20⟩

def setSuperBlock (b : Block) (s : SuperBlock) : Block :=
  (((((b.setU32 0 s.magic).setU32 4 s.totalBlocks).setU32 8 s.inodeBitmapBlocks).setU32 12 s.inodeAreaBlocks).setU32 16
    s.dataBitmapBlocks).setU32 20 s.dataAreaBlocks

theorem superBlock_setSuperBlock (b : Block) (s : SuperBlock) : (b.setSuperBlock s).superBlock = s := by
  simp only [superBlock, setSuperBlock]
  repeat' first | rw [u32_setU32_same _ _ (by omega)] | rw [u32_setU32_ne _ _ (by omega)]

end Block

/-! ## Disk inodes -/

inductive DiskInodeType where
  | file
  | directory
  deriving DecidableEq, Repr

structure DiskInode where
  size : UInt32
  direct : Arr UInt32 28
  indirect1 : UInt32
  indirect2 : UInt32
  type_ : DiskInodeType

namespace DiskInode

def isDir (d : DiskInode) : Bool := d.type_ == .directory

def isFile (d : DiskInode) : Bool := d.type_ == .file

/-- `DiskInode::initialize`. -/
def reset (t : DiskInodeType) : DiskInode := ⟨0, Arr.replicate 0, 0, 0, t⟩

/-- The record's words in the order of its fields. -/
def word (d : DiskInode) (w : Nat) : UInt32 :=
  if w = 0 then d.size else if w < 29 then d.direct.get (w - 1) else if w = 29 then d.indirect1 else d.indirect2

end DiskInode

def typeByte : DiskInodeType → UInt8
  | .file => 0
  | .directory => 1

/-- Only 0 and 1 are values of the type. -/
def typeOf (b : UInt8) : DiskInodeType := if b = 1 then .directory else .file

@[simp] theorem typeOf_typeByte (t : DiskInodeType) : typeOf (typeByte t) = t := by cases t <;> rfl

namespace Block

def inode (b : Block) (o : Nat) : DiskInode :=
  ⟨b.u32 o, Arr.ofFn fun i => b.u32 (o + 4 * (i + 1)), b.u32 (o + 116), b.u32 (o + 120), typeOf (b.get (o + 124))⟩

def setInode (b : Block) (o : Nat) (d : DiskInode) : Block :=
  Arr.ofFn fun i =>
    if o ≤ i ∧ i < o + 124 then leByte (d.word ((i - o) / 4)).toNat ((i - o) % 4)
    else if i = o + 124 then typeByte d.type_
    else b.get i

theorem get_setInode_ne (b : Block) {o i : Nat} (d : DiskInode) (h : ¬(o ≤ i ∧ i < o + 125)) :
    (b.setInode o d).get i = b.get i := by
  rw [setInode, get_ofFn]
  by_cases hi : i < 512
  · rw [if_pos hi, if_neg (by omega), if_neg (by omega)]
  · rw [if_neg hi, get_of_not_lt b hi]

theorem u32_setInode (b : Block) {o w : Nat} (d : DiskInode) (ho : o + 128 ≤ 512) (hw : w < 31) :
    (b.setInode o d).u32 (o + 4 * w) = d.word w := by
  have hb : leNat (fun k => (b.setInode o d).get (o + 4 * w + k)) 4 = leNat (leByte (d.word w).toNat) 4 := by
    apply leNat_congr
    intro k hk
    rw [setInode, get_ofFn_lt _ (by omega), if_pos (by omega)]
    have h1 : (o + 4 * w + k - o) / 4 = w := by omega
    have h2 : (o + 4 * w + k - o) % 4 = k := by omega
    rw [h1, h2]
  rw [u32, hb, leNat_leByte, Nat.mod_eq_of_lt (by have := (d.word w).toNat_lt; omega), UInt32.ofNat_toNat]

/-- What is written as an inode reads back as that inode. -/
theorem inode_setInode (b : Block) {o : Nat} (d : DiskInode) (ho : o + 128 ≤ 512) : (b.setInode o d).inode o = d := by
  have hsize : (b.setInode o d).u32 o = d.size := u32_setInode b (w := 0) d ho (by omega)
  have hdirect : (ofFn fun i => (b.setInode o d).u32 (o + 4 * (i + 1)) : Arr UInt32 28) = d.direct := by
    apply ext_get
    intro i hi
    rw [get_ofFn_lt _ hi, u32_setInode b d ho (by omega), DiskInode.word, if_neg (by omega), if_pos (by omega)]
    rfl
  have h1 : (b.setInode o d).u32 (o + 116) = d.indirect1 := u32_setInode b (w := 29) d ho (by omega)
  have h2 : (b.setInode o d).u32 (o + 120) = d.indirect2 := u32_setInode b (w := 30) d ho (by omega)
  have ht : typeOf ((b.setInode o d).get (o + 124)) = d.type_ := by
    rw [setInode, get_ofFn_lt _ (by omega), if_neg (by omega), if_pos rfl, typeOf_typeByte]
  simp only [inode, hsize, hdirect, h1, h2, ht]

theorem inode_congr {b c : Block} {o : Nat} (h : ∀ i, o ≤ i → i < o + 125 → b.get i = c.get i) :
    b.inode o = c.inode o := by
  have hw : ∀ p, o ≤ p → p + 4 ≤ o + 125 → b.u32 p = c.u32 p := fun p h1 h2 =>
    u32_congr fun k hk => h _ (by omega) (by omega)
  have hdirect : (ofFn fun i => b.u32 (o + 4 * (i + 1)) : Arr UInt32 28) =
      ofFn fun i => c.u32 (o + 4 * (i + 1)) := by
    apply ext_get
    intro i hi
    rw [get_ofFn_lt _ hi, get_ofFn_lt _ hi, hw _ (by omega) (by omega)]
  simp only [inode, hdirect, hw o (by omega) (by omega), hw (o + 116) (by omega) (by omega),
    hw (o + 120) (by omega) (by omega), h (o + 124) (by omega) (by omega)]

/-- Writing one inode of a block leaves the other inodes of the block alone. -/
theorem inode_setInode_ne (b : Block) {o p : Nat} (d : DiskInode) (h : o + 128 ≤ p ∨ p + 128 ≤ o) :
    (b.setInode o d).inode p = b.inode p :=
  inode_congr fun _ _ _ => get_setInode_ne b d (by omega)

end Block

/-! ## Directory entries -/

structure DirEntry where
  name : Arr UInt8 28
  inodeNumber : UInt32

namespace DirEntry

/-- `DirEntry::new`: the name is copied into 28 zeroed bytes; a longer one panics. -/
def new (name : List UInt8) (inodeNumber : UInt32) : Option DirEntry :=
  if name.length ≤ 28 then some ⟨Arr.ofFn fun i => name.getD i 0, inodeNumber⟩ else none

def asBytes (e : DirEntry) : List UInt8 :=
  (List.range 32).map fun i => if i < 28 then e.name.get i else leByte e.inodeNumber.toNat (i - 28)

/-- The entry whose bytes a read has filled in (`as_bytes_mut`). -/
def ofBytes (l : List UInt8) : DirEntry :=
  ⟨Arr.ofFn fun i => l.getD i 0, UInt32.ofNat (leNat (fun k => l.getD (28 + k) 0) 4)⟩

/-- `DirEntry::name`: the bytes before the first NUL. No NUL among the 28 bytes is an index
    out of range, and bytes that are not UTF-8 fail the `unwrap`. -/
def nameOf (e : DirEntry) : Option (List UInt8) :=
  match (List.range 28).find? fun i => e.name.get i == 0 with
  | some len =>
    let s := (List.range len).map e.name.get
    if utf8 s then some s else none
  | none => none

@[simp] theorem asBytes_length (e : DirEntry) : e.asBytes.length = 32 := by simp [asBytes]

theorem asBytes_getD (e : DirEntry) {i : Nat} (h : i < 32) :
    e.asBytes.getD i 0 = if i < 28 then e.name.get i else leByte e.inodeNumber.toNat (i - 28) := by
  simp [asBytes, List.getD, h]

theorem ofBytes_asBytes (e : DirEntry) : ofBytes e.asBytes = e := by
  have hname : (ofFn fun i => e.asBytes.getD i 0 : Arr UInt8 28) = e.name := by
    apply ext_get
    intro i hi
    rw [get_ofFn_lt _ hi, asBytes_getD e (by omega), if_pos hi]
  have hnum : leNat (fun k => e.asBytes.getD (28 + k) 0) 4 = leNat (leByte e.inodeNumber.toNat) 4 := by
    apply leNat_congr
    intro k hk
    rw [asBytes_getD e (by omega), if_neg (by omega), Nat.add_sub_cancel_left]
  rw [ofBytes, hname, hnum, leNat_leByte, Nat.mod_eq_of_lt (by have := e.inodeNumber.toNat_lt; omega),
    UInt32.ofNat_toNat]

/-- What `name` answers has at most 27 bytes and no NUL among them. -/
theorem nameOf_short {e : DirEntry} {name : List UInt8} (h : e.nameOf = some name) : name.length ≤ 27 ∧ 0 ∉ name := by
  unfold nameOf at h
  split at h
  · rename_i len hfind
    obtain ⟨-, hlt, hbefore⟩ := List.find?_range_eq_some.mp hfind
    obtain ⟨-, h⟩ := Option.ite_none_right_eq_some.mp h
    cases h
    refine ⟨by rw [List.length_map, List.length_range]; rw [List.mem_range] at hlt; omega, fun hmem => ?_⟩
    obtain ⟨i, hi, hzero⟩ := List.mem_map.mp hmem
    have := hbefore i (List.mem_range.mp hi)
    simp [hzero] at this
  · cases h

/-- A name of at most 27 bytes without NUL is read back as it was stored. -/
theorem nameOf_new {name : List UInt8} {n : UInt32} {e : DirEntry} (hl : name.length ≤ 27) (h0 : 0 ∉ name)
    (hu : utf8 name = true) (h : new name n = some e) : e.nameOf = some name := by
  rw [new, if_pos (by omega)] at h
  cases h
  have hget : ∀ i < 28, (ofFn fun i => name.getD i 0 : Arr UInt8 28).get i = name.getD i 0 :=
    fun i hi => get_ofFn_lt _ hi
  have hfind : (List.range 28).find? (fun i => (ofFn fun i => name.getD i 0 : Arr UInt8 28).get i == 0) =
      some name.length := by
    rw [List.find?_range_eq_some]
    refine ⟨?_, by simp; omega, fun i hi => ?_⟩
    · rw [hget _ (by omega)]; simp [List.getD]
    · rw [hget _ (by omega)]
      have : name.getD i 0 ∈ name := by simp [List.getD, hi]
      simp only [Bool.not_eq_true', beq_eq_false_iff_ne, ne_eq]
      intro e
      exact h0 (e ▸ this)
  have hs : (List.range name.length).map (ofFn fun i => name.getD i 0 : Arr UInt8 28).get = name := by
    apply List.ext_getElem (by simp)
    intro i h1 h2
    simp only [List.getElem_map, List.getElem_range]
    rw [hget i (by omega)]
    simp [List.getD, h2]
  simp only [nameOf, hfind, hs, hu, if_true]

end DirEntry

end TCore.EasyFs
