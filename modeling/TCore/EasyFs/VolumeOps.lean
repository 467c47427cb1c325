/-
  TCore.EasyFs.VolumeOps — what one call does to a volume, operation by operation.

  `Wrote` is the outcome of `write_at` and `clear`: one file has new contents. `Created` is the
  outcome of a `create` that found no entry: one inode more, empty, and one entry more in the
  directory. Everything else is as it was; both keep the invariants of the volume and of its
  directories.

  - `writeAt_wrote`, `clear_wrote`, `createInode_cases`: the code has these outcomes.
-/

import TCore.EasyFs.VolumeCreate

namespace TCore.EasyFs

open TCore.Lib
open List DirEntry DiskInode UInt32 EasyFs.Geometry

/-- File `t` has got the contents `l`. -/
structure Wrote (g : Geometry) (d : Disk) (m t : Nat) (l : List UInt8) (d' : Disk) : Prop where
  inv : FsInv g d' m
  kind : (g.inodeOf d' t).type_ = (g.inodeOf d t).type_
  contents : g.contents d' t = l
  other : ∀ i < m, i ≠ t → g.inodeOf d' i = g.inodeOf d i ∧ g.contents d' i = g.contents d i

/-- Inode `m`, of type `ty`, and the entry `e` of directory `t` are new. -/
structure Created (g : Geometry) (d : Disk) (m t : Nat) (ty : DiskInodeType) (e : DirEntry) (d' : Disk) : Prop where
  inv : FsInv g d' (m + 1)
  new : g.inodeOf d' m = DiskInode.reset ty
  kind : (g.inodeOf d' t).type_ = (g.inodeOf d t).type_
  contents : g.contents d' t = g.contents d t ++ e.asBytes
  other : ∀ i < m, i ≠ t → g.inodeOf d' i = g.inodeOf d i ∧ g.contents d' i = g.contents d i

/-- The volume can hold inode `ino` at a new size. -/
structure Geometry.RoomFor (g : Geometry) (d : Disk) (ino : DiskInode) (size : Nat) : Prop where
  file : size ≤ 8468480
  blocks : DiskInode.totalBlocks (UInt32.ofNat size) - DiskInode.totalBlocks ino.size ≤ g.free d

/-- There is an inode left, and a 32-bit number for it. -/
def Geometry.InodeLeft (g : Geometry) (d : Disk) : Prop :=
  ∃ i < 4096 * g.inodeBitmapBlocks, i < 2 ^ 32 ∧ g.inodeBitmap.bit d i = false

/-! ## Entries -/

theorem direntsOf_append {l : List UInt8} (h : l.length % 32 = 0) (e : DirEntry) :
    direntsOf (l ++ e.asBytes) = direntsOf l ++ [e] := by
  have hlen : (l ++ e.asBytes).length / 32 = l.length / 32 + 1 := by
    rw [length_append, asBytes_length]
    omega
  have hlast : ((l ++ e.asBytes).drop (32 * (l.length / 32))).take 32 = e.asBytes := by
    rw [show 32 * (l.length / 32) = l.length by omega, drop_left, take_of_length_le (by simp)]
  rw [direntsOf, hlen, range_succ, map_append, map_singleton, hlast, ofBytes_asBytes]
  refine congrArg (· ++ [e]) (map_congr_left fun j hj => ?_)
  have hj := mem_range.mp hj
  rw [drop_append_of_le_length (by omega), take_append_of_le_length (by rw [length_drop]; omega)]

theorem isDir_congr {a b : DiskInode} (h : a.type_ = b.type_) : a.isDir = b.isDir := by
  unfold isDir
  rw [h]

section
variable {g : Geometry} {d d' : Disk} {m t i : Nat} {l : List UInt8} {ty : DiskInodeType} {e : DirEntry}

theorem FsInv.inode_lt (h : FsInv g d m) (hl : g.InodeLeft d) : m < 4096 * g.inodeBitmapBlocks ∧ m < 2 ^ 32 := by
  obtain ⟨i, hi, h32, hb⟩ := hl
  rw [h.inodes i hi, decide_eq_false_iff_not] at hb
  omega

/-! ## The other inodes -/

theorem Replaced.contents_other (hr : Replaced g d m t d') (h : FsInv g d m) (ht : t < m) (hi : i < m) (hne : i ≠ t) :
    g.contents d' i = g.contents d i := by
  obtain ⟨hino, -, hbytes⟩ := hr.other h ht hi hne
  rw [contents, hino]
  refine contentsOf_eq (contentsOf_length d _) fun o ho => ?_
  rw [hbytes o (by rw [h.dataBlocks_eq hi]; omega), contents, contentsOf_getD, if_pos ho]

theorem Replaced.wrote (hr : Replaced g d m t d') (h : FsInv g d m) (ht : t < m)
    (hk : (g.inodeOf d' t).type_ = (g.inodeOf d t).type_) (hc : g.contents d' t = l) : Wrote g d m t l d' :=
  ⟨hr.inv h ht, hk, hc, fun _ hi hne => ⟨(hr.other h ht hi hne).1, hr.contents_other h ht hi hne⟩⟩

/-! ## Directories -/

theorem DirInv.dir_ne (hd : DirInv g d m) (hfile : (g.inodeOf d t).isFile = true) : 0 ≠ t := by
  rintro rfl
  exact (isFile_iff _).mp hfile hd.root

/-- The directories are those that were there, with their entries. -/
theorem Wrote.dir_kept (hw : Wrote g d m t l d') (hfile : (g.inodeOf d t).isFile = true) (hi : i < m)
    (hdir : (g.inodeOf d' i).isDir = true) : (g.inodeOf d i).isDir = true ∧ g.contents d' i = g.contents d i := by
  have hne : i ≠ t := by
    rintro rfl
    rw [isDir_congr hw.kind] at hdir
    exact (isFile_iff _).mp hfile hdir
  obtain ⟨h1, h2⟩ := hw.other i hi hne
  exact ⟨h1 ▸ hdir, h2⟩

theorem Wrote.dirInv (hw : Wrote g d m t l d') (hd : DirInv g d m) (hfile : (g.inodeOf d t).isFile = true) :
    DirInv g d' m := by
  refine ⟨hd.some_inode, ?_, fun i hi hdir => ?_, fun i hi hdir e he => ?_⟩
  · rw [(hw.other 0 hd.some_inode (hd.dir_ne hfile)).1]
    exact hd.root
  · obtain ⟨h1, h2⟩ := hw.dir_kept hfile hi hdir
    rw [h2]
    exact hd.whole i hi h1
  · obtain ⟨h1, h2⟩ := hw.dir_kept hfile hi hdir
    rw [direntsAt, h2] at he
    exact hd.inUse i hi h1 e he

theorem contents_reset (h : g.inodeOf d i = reset ty) : g.contents d i = [] := by
  rw [contents, h]
  rfl

section

variable (hc : Created g d m t ty e d') (hd : DirInv g d m) (ht : t < m)
include hc hd ht

theorem Created.dirents
    (hdir : (g.inodeOf d t).isDir = true) : g.direntsAt d' t = g.direntsAt d t ++ [e] := by
  rw [direntsAt, hc.contents, direntsOf_append (hd.whole t ht hdir), direntsAt]

theorem Created.dirInv
    (hdir : (g.inodeOf d t).isDir = true) (he : e.inodeNumber.toNat = m) : DirInv g d' (m + 1) := by
  have h0 := hd.some_inode
  have hold : ∀ i < m, (g.inodeOf d' i).isDir = (g.inodeOf d i).isDir := by
    intro i hi
    by_cases hit : i = t
    · rw [hit, isDir_congr hc.kind]
    · rw [(hc.other i hi hit).1]
  refine ⟨by omega, by rw [hold 0 h0]; exact hd.root, fun i hi hi' => ?_, fun i hi hi' e' he' => ?_⟩
  · by_cases him : i = m
    · rw [contents_reset (him ▸ hc.new)]
      rfl
    · by_cases hit : i = t
      · have := hd.whole t ht hdir
        rw [hit, hc.contents, length_append, asBytes_length]
        omega
      · rw [(hc.other i (by omega) hit).2]
        exact hd.whole i (by omega) (by rw [← hold i (by omega)]; exact hi')
  · by_cases him : i = m
    · rw [direntsAt, contents_reset (him ▸ hc.new)] at he'
      cases he'
    · by_cases hit : i = t
      · rw [hit, hc.dirents hd ht hdir] at he'
        rcases mem_append.mp he' with hmem | hmem
        · have := hd.inUse t ht hdir e' hmem
          omega
        · rw [mem_singleton.mp hmem, he]
          omega
      · rw [direntsAt, (hc.other i (by omega) hit).2] at he'
        have := hd.inUse i (by omega) (by rw [← hold i (by omega)]; exact hi') e' he'
        omega

end

/-! ## The calls -/

variable (h : FsInv g d m)
include h

section

variable (ht : t < m) (hfile : (g.inodeOf d t).isFile = true)
include ht hfile

theorem writeAt_wrote {offset : Nat}
    {buf : List UInt8} (hb : buf ≠ []) (hroom : g.RoomFor d (g.inodeOf d t) (offset + buf.length)) :
    ∃ d', Runs ((g.handle t).writeAt g.efs offset buf) [] d buf.length d' ∧
      Wrote g d m t (overwrite (g.contents d t) offset buf) d' := by
  obtain ⟨d', hrun, hr, hk, hc⟩ := writeAt_volume h ht hfile hb hroom.file hroom.blocks
  exact ⟨d', hrun, hr.wrote h ht hk hc⟩

theorem writeAt_wrote_nil {offset n : Nat}
    (hroom : g.RoomFor d (g.inodeOf d t) offset) (hrun : Runs ((g.handle t).writeAt g.efs offset []) [] d n d') :
    Wrote g d m t (overwrite (g.contents d t) offset []) d' := by
  obtain ⟨hr, hk, hc⟩ := writeAt_volume_nil h ht hfile hroom.file hroom.blocks hrun
  exact hr.wrote h ht hk hc

theorem clear_wrote :
    ∃ d', Runs ((g.handle t).clear g.efs) [] d () d' ∧ Wrote g d m t [] d' := by
  obtain ⟨d', hrun, hr, hk, hc⟩ := clear_volume h ht hfile
  exact ⟨d', hrun, hr.wrote h ht hk hc⟩

end

variable {name : List UInt8}

theorem addInode_created (hd : DirInv g d m) (ht : t < m) (hdir : (g.inodeOf d t).isDir = true)
    (hleft : g.InodeLeft d) (hroom : g.RoomFor d (g.inodeOf d t) ((g.contents d t).length + 32))
    (he : new name (ofNat m) = some e) :
    ∃ d', Runs ((g.handle t).addInode g.efs name ty) [] d (g.handle m) d' ∧ Created g d m t ty e d' := by
  obtain ⟨hm, h32⟩ := h.inode_lt hleft
  obtain ⟨d', hrun, hr, hk, hc⟩ := addInode_volume h ht hm h32 (hd.whole t ht hdir) hroom.file hroom.blocks he
  have h1 := h.newInode ty hm h32
  refine ⟨d', hrun, hr.inv h1 (by omega), ?_, hk, hc, fun i hi hne => ⟨?_, ?_⟩⟩
  · rw [(hr.other h1 (by omega) (Nat.lt_succ_self m) (by omega)).1, inodeOf_withInode]
  · rw [(hr.other h1 (by omega) (Nat.lt_succ_of_lt hi) hne).1, (withInode_kept ty h hm hi).1]
  · rw [hr.contents_other h1 (by omega) (Nat.lt_succ_of_lt hi) hne, contents_withInode ty h hm hi]

/-- The search at the start of `create_inode`. -/
theorem exec_createSearch (ht : t < m) (name : List UInt8) :
    exec ((g.handle t).readDiskInode fun rootInode => do
        Prog.assert (rootInode.isDir = true)
        findInodeId name rootInode) ⟨d, []⟩ =
      (if (g.inodeOf d t).isDir = true then findIn name (g.direntsAt d t) else none).map fun r => (r, ⟨d, []⟩) := by
  refine exec_readDiskInode ?_
  by_cases hdir : (g.inodeOf d t).isDir = true
  · rw [(Runs.assert hdir).exec_bind, exec_findInodeId h ht]
  · rw [exec_bind, Prog.assert, if_neg hdir, if_neg hdir]
    rfl

theorem createInode_runs (hd : DirInv g d m) (ht : t < m) (hdir : (g.inodeOf d t).isDir = true) (hnone : findIn name (g.direntsAt d t) = some none) (hleft : g.InodeLeft d)
    (hroom : g.RoomFor d (g.inodeOf d t) ((g.contents d t).length + 32)) (he : new name (ofNat m) = some e) :
    ∃ d', Runs ((g.handle t).createInode g.efs name ty) [] d (some (g.handle m)) d' ∧ Created g d m t ty e d' := by
  obtain ⟨d', hrun, hc⟩ := addInode_created h hd ht hdir hleft hroom he
  have hsearch := exec_createSearch h ht name
  rw [if_pos hdir, hnone] at hsearch
  exact ⟨d', Runs.bind hsearch (Runs.bind hrun (Runs.ret _)), hc⟩

/-- A directory with an entry in every place a file has cannot get another. -/
theorem createInode_full (ht : t < m)
    (hnone : findIn name (g.direntsAt d t) = some none) (hleft : g.InodeLeft d) (hfull : (g.contents d t).length = 8468480) :
    exec ((g.handle t).createInode g.efs name ty) ⟨d, []⟩ = none := by
  obtain ⟨hm, h32⟩ := h.inode_lt hleft
  rw [Inode.createInode, exec_bind, exec_createSearch h ht]
  by_cases hdir : (g.inodeOf d t).isDir = true
  · rw [if_pos hdir, hnone]
    show exec ((g.handle t).addInode g.efs name ty >>= fun inode => pure (some inode)) ⟨d, []⟩ = none
    rw [exec_bind, addInode_full h ht hm h32 hfull]
    rfl
  · rw [if_neg hdir]
    rfl

theorem createInode_taken (ht : t < m) (hdir : (g.inodeOf d t).isDir = true)
    {id : UInt32} (hid : findIn name (g.direntsAt d t) = some (some id)) :
    Runs ((g.handle t).createInode g.efs name ty) [] d none d := by
  have hsearch := exec_createSearch h ht name
  rw [if_pos hdir, hid] at hsearch
  exact Runs.bind hsearch (Runs.ret _)

theorem createInode_cases (hd : DirInv g d m) (ht : t < m)
    (hroom : findIn name (g.direntsAt d t) = some none →
      g.InodeLeft d ∧ g.RoomFor d (g.inodeOf d t) ((g.contents d t).length + 32))
    {r : Option Inode} (hrun : Runs ((g.handle t).createInode g.efs name ty) [] d r d') :
    (g.inodeOf d t).isDir = true ∧
      ((∃ id, findIn name (g.direntsAt d t) = some (some id)) ∧ r = none ∧ d' = d ∨
        ∃ e, findIn name (g.direntsAt d t) = some none ∧ new name (ofNat m) = some e ∧
          r = some (g.handle m) ∧ Created g d m t ty e d') := by
  have hx : exec ((g.handle t).createInode g.efs name ty) ⟨d, []⟩ = some (r, ⟨d', []⟩) := hrun
  rw [Inode.createInode, exec_bind, exec_createSearch h ht] at hx
  by_cases hdir : (g.inodeOf d t).isDir = true
  · refine ⟨hdir, ?_⟩
    rw [if_pos hdir] at hx
    cases hfind : findIn name (g.direntsAt d t) with
    | none => rw [hfind] at hx; cases hx
    | some found =>
      rw [hfind] at hx
      cases found with
      | some id => cases hx; exact Or.inl ⟨⟨id, rfl⟩, rfl, rfl⟩
      | none =>
        obtain ⟨hleft, hr⟩ := hroom hfind
        obtain ⟨hm, h32⟩ := h.inode_lt hleft
        have hx : exec ((g.handle t).addInode g.efs name ty >>= fun inode => pure (some inode)) ⟨d, []⟩ =
            some (r, ⟨d', []⟩) := hx
        cases he : new name (ofNat m) with
        | none =>
          rw [exec_bind, addInode_panics h ht hm h32 (hd.whole t ht hdir) hr.file hr.blocks he] at hx
          cases hx
        | some e =>
          obtain ⟨d1, hrun1, hc⟩ := addInode_created h hd ht hdir hleft hr he
          rw [hrun1.exec_bind] at hx
          cases hx
          exact Or.inr ⟨e, rfl, rfl, rfl, hc⟩
  · rw [if_neg hdir] at hx
    cases hx

end

/-! ## Free blocks -/

section
variable {g : Geometry} {d d' : Disk} {m t : Nat} {l l' : List UInt8}

/-- Every block of the data area is free or in one role of one inode. -/
theorem FsInv.free_add_roles (h : FsInv g d m) :
    g.free d + ∑ i ∈ Finset.range m, (g.rolesAt d i).length = g.dataAreaBlocks := by
  have hcov := g.covered
  have hsplit := Finset.card_filter_add_card_filter_not (s := Finset.range g.dataAreaBlocks) fun k => g.used d k = false
  have hused : (Finset.range g.dataAreaBlocks).filter (fun k => ¬g.used d k = false) =
      ((Finset.range m).sigma fun i => (g.rolesAt d i).toFinset).image fun p => g.blockAt d p.1 p.2 - g.dataStart := by
    ext k
    simp only [Finset.mem_filter, Finset.mem_range, Bool.not_eq_false, Finset.mem_image, Finset.mem_sigma, mem_toFinset]
    refine ⟨?_, ?_⟩
    · intro ⟨hk, hu⟩
      obtain ⟨i, hi, r, hr, hb⟩ := h.cover k (by omega) hu
      refine ⟨⟨i, r⟩, ⟨hi, hr⟩, ?_⟩
      dsimp only
      omega
    · intro ⟨⟨i, r⟩, ⟨hi, hr⟩, hb⟩
      obtain ⟨k', hk', hb', hu⟩ := h.owned i hi r hr
      dsimp only at hb
      obtain rfl : k' = k := by omega
      exact ⟨hk', hu⟩
  have hcard : (((Finset.range m).sigma fun i => (g.rolesAt d i).toFinset).image
      fun p => g.blockAt d p.1 p.2 - g.dataStart).card = ∑ i ∈ Finset.range m, (g.rolesAt d i).length := by
    rw [Finset.card_image_of_injOn, Finset.card_sigma]
    · refine Finset.sum_congr rfl fun i _ => ?_
      exact toFinset_card_of_nodup (nodup_roles _)
    · intro ⟨i, r⟩ hp ⟨j, s⟩ hq heq
      simp only [Finset.coe_sigma, Set.mem_sigma_iff, Finset.mem_coe, Finset.mem_range, mem_toFinset] at hp hq heq
      obtain ⟨k, -, hb, -⟩ := h.owned i hp.1 r hp.2
      obtain ⟨k', -, hb', -⟩ := h.owned j hq.1 s hq.2
      obtain ⟨rfl, rfl⟩ := h.inj i hp.1 j hq.1 r hp.2 s hq.2 (by omega)
      rfl
  rw [Finset.card_range, hused, hcard] at hsplit
  exact hsplit

theorem rolesAt_length (g : Geometry) (d : Disk) (i : Nat) :
    (g.rolesAt d i).length = totalBlocks (g.inodeOf d i).size := roles_length _

/-- The blocks a call takes for its file are the ones the volume has less. -/
theorem Wrote.free (hw : Wrote g d m t l d') (h : FsInv g d m) (ht : t < m) :
    g.free d' + totalBlocks (g.inodeOf d' t).size = g.free d + totalBlocks (g.inodeOf d t).size := by
  have hold := h.free_add_roles
  have hnew := hw.inv.free_add_roles
  have hmem := Finset.mem_range.mpr ht
  have hrest : ∑ i ∈ (Finset.range m).erase t, (g.rolesAt d' i).length =
      ∑ i ∈ (Finset.range m).erase t, (g.rolesAt d i).length := by
    refine Finset.sum_congr rfl ?_
    intro i hi
    obtain ⟨hne, hi⟩ := Finset.mem_erase.mp hi
    rw [rolesAt, rolesAt, (hw.other i (Finset.mem_range.mp hi) hne).1]
  rw [← Finset.add_sum_erase _ _ hmem] at hold hnew
  rw [hrest] at hnew
  rw [← rolesAt_length, ← rolesAt_length]
  omega

theorem Wrote.trans {d'' : Disk} (hw : Wrote g d m t l d') (hw' : Wrote g d' m t l' d'') : Wrote g d m t l' d'' := by
  refine ⟨hw'.inv, hw'.kind.trans hw.kind, hw'.contents, ?_⟩
  intro i hi hne
  obtain ⟨h₁, h₂⟩ := hw.other i hi hne
  obtain ⟨h₁', h₂'⟩ := hw'.other i hi hne
  exact ⟨h₁'.trans h₁, h₂'.trans h₂⟩

theorem Geometry.RoomFor.mono {ino : DiskInode} {size size' : Nat} (hroom : g.RoomFor d ino size') (hle : size ≤ size') :
    g.RoomFor d ino size := by
  have hfile := hroom.file
  have hblocks := hroom.blocks
  have hmono : DiskInode.totalBlocks (UInt32.ofNat size) ≤ DiskInode.totalBlocks (UInt32.ofNat size') := by
    have hto : ∀ n ≤ 8468480, (ofNat n).toNat = n := by
      intro n hn
      exact UInt32.toNat_ofNat_of_lt' (by simp only [UInt32.size]; omega)
    refine totalBlocks_mono ?_
    rw [dataBlocksOf_eq (by rw [hto size (by omega)]; omega), dataBlocksOf_eq (by rw [hto size' hfile]; exact hfile),
      hto size (by omega), hto size' hfile]
    omega
  exact ⟨by omega, by omega⟩

theorem Wrote.isFile (hw : Wrote g d m t l d') : (g.inodeOf d' t).isFile = (g.inodeOf d t).isFile := by
  unfold DiskInode.isFile
  rw [hw.kind]

/-- What the volume has room for stays so while a part of it is written. -/
theorem Wrote.roomFor (hw : Wrote g d m t l d') (h : FsInv g d m) (ht : t < m) {size : Nat}
    (hroom : g.RoomFor d (g.inodeOf d t) size) : g.RoomFor d' (g.inodeOf d' t) size := by
  have hfree := hw.free h ht
  have hblocks := hroom.blocks
  exact ⟨hroom.file, by omega⟩

end

end TCore.EasyFs
