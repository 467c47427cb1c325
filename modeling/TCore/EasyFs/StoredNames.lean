/-
  TCore.EasyFs.StoredNames — what `create_inode` makes of a name.

  A directory entry has 28 bytes for the name, and `name()` takes those before the first NUL. `create_inode`
  looks at none of this before it starts: a longer name panics in `DirEntry::new`, after an inode has been
  taken and the directory has grown; one of exactly 28 bytes is stored without a NUL, and `name()` panics on
  the entry from then on; of a name with a NUL inside only the first part comes back.
-/

import TCore.EasyFs.SpareBits
import TCore.EasyFs.FailedCalls

namespace TCore.EasyFs

open TCore.Lib
open List DirEntry EasyFs.Geometry Option Geometry

/-- The call returns inode `i`, which was not in use; the directory has the entry `e` more, with its number and
    the name; every entry can be read, from blocks of the data area. -/
structure Stores (g : Geometry) (d : Disk) (t : Nat) (name : List UInt8) (ty : DiskInodeType) (i : Nat) (e : DirEntry)
    (d' : Disk) : Prop where
  returns : Runs ((g.handle t).createInode g.efs name ty) [] d (some (g.handle i)) d'
  inode : i < 4096 * g.inodeBitmapBlocks ∧ g.inodeBitmap.bit d i = false
  number : e.inodeNumber.toNat = i
  entry : g.direntsAt d' t = g.direntsAt d t ++ [e]
  name : e.nameOf = some name
  readable : ∀ x ∈ g.direntsAt d' t, ∃ n, x.nameOf = some n
  stored : ∀ r ∈ g.rolesAt d' t, ∃ k < g.dataAreaBlocks, g.blockAt d' t r = g.dataStart + k

/-- The call returns `None`, with the inode bitmap and the directory as they were. -/
def Rejects (g : Geometry) (d : Disk) (t : Nat) (name : List UInt8) (ty : DiskInodeType) : Prop :=
  ∃ d', Runs ((g.handle t).createInode g.efs name ty) [] d none d' ∧
    (∀ i < 4096 * g.inodeBitmapBlocks, g.inodeBitmap.bit d' i = g.inodeBitmap.bit d i) ∧
    (g.inodeOf d' t).size = (g.inodeOf d t).size ∧ g.contents d' t = g.contents d t

def StoredOrRejected (g : Geometry) (d : Disk) (t : Nat) (name : List UInt8) (ty : DiskInodeType) : Prop :=
  (∃ i e d', Stores g d t name ty i e d') ∨ Rejects g d t name ty

/-- What it takes to store a name. -/
structure Storable (g : Geometry) (d : Disk) (t : Nat) (name : List UInt8) : Prop where
  readable : ∀ x ∈ g.direntsAt d t, ∃ n, x.nameOf = some n
  short : name.length ≤ 27
  noNul : 0 ∉ name
  inode : g.InodeLeft d
  room : g.RoomFor d (g.inodeOf d t) ((g.contents d t).length + 32)

/-! ## The search -/

theorem findIn_name {name : List UInt8} {es : List DirEntry} {id : UInt32} (h : findIn name es = some (some id)) :
    ∃ e ∈ es, e.nameOf = some name := by
  induction es with
  | nil => cases h
  | cons e es ih =>
    obtain ⟨found, hfound, hf⟩ := bind_eq_some_iff.mp h
    split at hf
    · rename_i heq
      exact ⟨e, mem_cons_self, by rw [hfound, heq]⟩
    · obtain ⟨e', he', hname⟩ := ih hf
      exact ⟨e', mem_cons_of_mem _ he', hname⟩

theorem findIn_absent {name : List UInt8} {es : List DirEntry} (hread : ∀ e ∈ es, ∃ n, e.nameOf = some n)
    (habsent : ∀ e ∈ es, e.nameOf ≠ some name) : findIn name es = some none := by
  induction es with
  | nil => rfl
  | cons e es ih =>
    obtain ⟨n, hn⟩ := hread e mem_cons_self
    have hne : n ≠ name := by
      intro heq
      exact habsent e mem_cons_self (by rw [hn, heq])
    rw [findIn, hn, bind_some, if_neg hne]
    exact ih (fun e' he' => hread e' (mem_cons_of_mem _ he')) fun e' he' => habsent e' (mem_cons_of_mem _ he')

section
variable {g : Geometry} {d d' : Disk} {m t : Nat} {name : List UInt8} {ty : DiskInodeType}

/-- The part of a call that has returned an inode which comes after the search. -/
theorem createInode_some (h : FsInv g d m) (ht : t < m) {x : Inode}
    (hrun : Runs ((g.handle t).createInode g.efs name ty) [] d (some x) d') :
    findIn name (g.direntsAt d t) = some none ∧ Runs ((g.handle t).addInode g.efs name ty) [] d x d' := by
  obtain ⟨found, u, hsearch, hrest⟩ := exec_bind_some hrun
  rw [exec_createSearch h ht] at hsearch
  obtain ⟨r, hr, heq⟩ := map_eq_some_iff.mp hsearch
  cases heq
  obtain ⟨-, hr⟩ := ite_none_right_eq_some.mp hr
  cases found with
  | some id => cases hrest
  | none =>
    obtain ⟨inode, v, hadd, hret⟩ := exec_bind_some hrest
    cases hret
    exact ⟨hr, hadd⟩

/-! ## The blocks of the entry -/

/-- If the directory's blocks end up in the data area, as many blocks were free as it has taken. -/
theorem room_of_stored (h : FsInv g d m) (hd : DirInv g d m) (ht : t < m) (hdir : (g.inodeOf d t).isDir = true)
    (hm : m < 4096 * g.inodeBitmapBlocks) (h32 : m < 2 ^ 32) (hmax : (g.contents d t).length + 32 ≤ 8468480) {x : Inode}
    (hrun : Runs ((g.handle t).addInode g.efs name ty) [] d x d')
    (hstored : ∀ r ∈ g.rolesAt d' t, ∃ k < g.dataAreaBlocks, g.blockAt d' t r = g.dataStart + k) :
    g.RoomFor d (g.inodeOf d t) ((g.contents d t).length + 32) := by
  have h1 := h.newInode ty hm h32
  have ht1 : t < m + 1 := by omega
  have hino := (withInode_kept ty h hm ht).1
  have hwhole := hd.whole t ht hdir
  have hlen := contents_length g d t
  have hcount : 32 * ((g.inodeOf d t).size.toNat / 32 + 1) = (g.contents d t).length + 32 := by omega
  -- what the call has done to the directory once the inode is there
  unfold Runs at hrun
  rw [addInode_eq, (allocInode_runs h hm).exec_bind, (initInode_runs ty hm h32).exec_bind] at hrun
  obtain ⟨_, u, hmod, hret⟩ := exec_bind_some hrun
  obtain ⟨-, rfl⟩ := exec_syncAll_some hret
  obtain ⟨ino'', w, hclosure, hleft, hslot⟩ := exec_modifyDiskInode_some hmod
  rw [hino] at hclosure
  have hholds := h1.holds ht1
  rw [hino] at hholds
  rcases growEntry_cases (L := [(g.handle t).blockId]) hholds (by omega) (fun k hk => h1.used_lt hk) (h1.slot_low ht1)
    with ⟨ks, d1, ino', d2, htook, hks, hgrow, hsize, hplaced, hblocks⟩ | hnone
  · obtain ⟨e, he⟩ : ∃ e, new name (UInt32.ofNat m) = some e := by
      cases hnew : new name (UInt32.ofNat m) with
      | some e => exact ⟨e, rfl⟩
      | none =>
        rw [addDirent, hgrow.exec_bind, hnew] at hclosure
        cases hclosure
    obtain ⟨d3, hadd, hw⟩ := addDirent_runs hgrow hplaced (by omega) hsize he
    obtain ⟨heq, rfl⟩ := Prod.mk.inj (some.inj (hclosure.symm.trans hadd))
    obtain ⟨-, rfl⟩ := Prod.mk.inj heq
    have hkept := addDirent_blocks hplaced hw hslot
    have hlt : ∀ k ∈ ks, k < g.dataAreaBlocks := by
      intro k hk
      have hmem : g.blockId k ∈ (roles ino''.dataBlocks).map (blockOf d2 ino'') := by
        rw [hblocks]
        exact mem_append_right _ (mem_map_of_mem hk)
      obtain ⟨r, hr, hb⟩ := mem_map.mp hmem
      obtain ⟨k', hk', hb'⟩ := hstored r (by rw [rolesAt, hleft]; exact hr)
      rw [blockAt, hleft, hkept r hr, hb] at hb'
      by_contra hn
      have hnear := htook.near (fun k hk => h1.used_lt hk) k hk
      have hfew := entryBlocks_le (h.size t ht)
      have hspare := blockId_spare (g := g) (k := k) (by omega) (by omega)
      have hsome := g.some_inode
      simp only [totalBlocks, dataStart] at hspare hb'
      omega
    have hfree := htook.lt_iff.mp hlt
    rw [hks, hcount, free_withInode hm] at hfree
    exact ⟨hmax, hfree⟩
  · exfalso
    rw [addDirent, exec_bind, growEntry_none (h.size t ht) (by omega) hnone] at hclosure
    cases hclosure

/-! ## Names -/

theorem stored_iff (h : FsInv g d m) (hd : DirInv g d m) (ht : t < m) (hdir : (g.inodeOf d t).isDir = true)
    (htext : utf8 name = true) (habsent : ∀ e ∈ g.direntsAt d t, e.nameOf ≠ some name) :
    StoredOrRejected g d t name ty ↔ Storable g d t name := by
  constructor
  · intro hout
    rcases hout with ⟨i, e, d', hst⟩ | ⟨d', hrun, -⟩
    · obtain ⟨hnone, hadd⟩ := createInode_some h ht hst.returns
      obtain ⟨hshort, hnul⟩ := nameOf_short hst.name
      have hleft : g.InodeLeft d := ⟨i, hst.inode.1, by rw [← hst.number]; exact e.inodeNumber.toNat_lt, hst.inode.2⟩
      obtain ⟨hm, h32⟩ := h.inode_lt hleft
      refine ⟨fun x hx => hst.readable x ?_, hshort, hnul, hleft, ?_⟩
      · rw [hst.entry]
        exact mem_append_left _ hx
      · have hsize := h.size t ht
        have hwhole := hd.whole t ht hdir
        have hlen := contents_length g d t
        by_cases hmax : (g.contents d t).length + 32 ≤ 8468480
        · exact room_of_stored h hd ht hdir hm h32 hmax hadd hst.stored
        · have hfull : exec ((g.handle t).createInode g.efs name ty) ⟨d, []⟩ = none := createInode_full h ht hnone hleft (by omega)
          rw [hst.returns] at hfull
          cases hfull
    · obtain ⟨id, hid⟩ := createInode_none h ht hrun
      obtain ⟨e, he, hname⟩ := findIn_name hid
      exact absurd hname (habsent e he)
  · intro hst
    obtain ⟨hm, h32⟩ := h.inode_lt hst.inode
    obtain ⟨e, he⟩ : ∃ e, new name (UInt32.ofNat m) = some e := by
      rw [new, if_pos (by have := hst.short; omega)]
      exact ⟨_, rfl⟩
    obtain ⟨d', hrun, hc⟩ : ∃ d', Runs ((g.handle t).createInode g.efs name ty) [] d (some (g.handle m)) d' ∧
        Created g d m t ty e d' :=
      createInode_runs h hd ht hdir (findIn_absent hst.readable habsent) hst.inode hst.room he
    have hname := nameOf_new hst.short hst.noNul htext he
    have hentry := hc.dirents hd ht hdir
    refine Or.inl ⟨m, e, d', hrun, ⟨hm, ?_⟩, entry_number he h32, hentry, hname, ?_, ?_⟩
    · rw [h.inodes m hm]
      simp
    · intro x hx
      rw [hentry] at hx
      rcases mem_append.mp hx with hx | hx
      · exact hst.readable x hx
      · rw [mem_singleton.mp hx]
        exact ⟨name, hname⟩
    · intro r hr
      obtain ⟨k, hk, hb, -⟩ := hc.inv.owned t (by omega) r hr
      exact ⟨k, hk, hb⟩

end

section
variable {dev : Nat} {g : Geometry} {calls : FsOp → Prop} {s : Mount}

/-- A new name is stored as it is exactly if it has at most 27 bytes, none of them NUL, and the entries, the inodes and the
blocks allow it; it is never rejected. -/
theorem names_stored_iff (hs : Reachable dev g calls s) (t : Nat) (ht : t < 4096 * g.inodeBitmapBlocks)
    (hbit : g.inodeBitmap.bit (s.disk dev) t = true) (hdir : (g.inodeOf (s.disk dev) t).isDir = true) (name : List UInt8)
    (htext : utf8 name = true) (habsent : ∀ e ∈ g.direntsAt (s.disk dev) t, e.nameOf ≠ some name) (ty : DiskInodeType) :
    StoredOrRejected g (s.disk dev) t name ty ↔ Storable g (s.disk dev) t name := by
  obtain ⟨m, hm⟩ := hs.mounted
  exact stored_iff hm.inv hm.dirs ((hm.inv.allocated ht).mp hbit) hdir htext habsent

end

/-- A name of 27 bytes in the root of a fresh device of 5123 blocks. -/
theorem names_stored_5123 : ∃ (h : Accepted 5123 1) (s : Mount), Reachable 0 (ofSizes 5123 1 h) (fun _ => True) s ∧
    StoredOrRejected (ofSizes 5123 1 h) (s.disk 0) 0 (List.replicate 27 97) .file := by
  have h := small_accepted
  obtain ⟨s, hs, hm, hroot, -⟩ := fresh_reachable 0 (fun _ => True) h
  have hfresh := fresh_room hm.inv hroot (small_room h)
  have h0 : 0 < 4096 * (ofSizes 5123 1 h).inodeBitmapBlocks := by
    have := (ofSizes 5123 1 h).some_inode
    omega
  refine ⟨h, s, hs, (names_stored_iff hs 0 h0 ((hm.inv.allocated h0).mpr Nat.one_pos) (by rw [hroot]; rfl)
    (List.replicate 27 97) (by decide) ?_ .file).mpr ⟨?_, by decide, by decide, hfresh.inode, hfresh.entry⟩⟩
  · rw [hfresh.empty]
    exact fun e he => absurd he not_mem_nil
  · rw [hfresh.empty]
    exact fun e he => absurd he not_mem_nil

/-- A name of 28 bytes: the call returns `Some`, and `ls` panics on what it has stored. -/
theorem name_of_28_bytes : ∃ (h : Accepted 5123 1) (s : Mount), Reachable 0 (ofSizes 5123 1 h) (fun _ => True) s ∧
    (ofSizes 5123 1 h).direntsAt (s.disk 0) 0 = [] ∧ utf8 (List.replicate 28 97) = true ∧
    ∃ e d', Runs (((ofSizes 5123 1 h).handle 0).createInode s.fs (List.replicate 28 97) .file) [] (s.disk 0)
        (some ((ofSizes 5123 1 h).handle 1)) d' ∧
      (ofSizes 5123 1 h).direntsAt d' 0 = [e] ∧ e.nameOf = none ∧
      exec ((ofSizes 5123 1 h).handle 0).ls ⟨d', []⟩ = none := by
  have h := small_accepted
  obtain ⟨s, hs, hm, hroot, -⟩ := fresh_reachable 0 (fun _ => True) h
  have hfresh := fresh_room hm.inv hroot (small_room h)
  have hdir : ((ofSizes 5123 1 h).inodeOf (s.disk 0) 0).isDir = true := by
    rw [hroot]
    rfl
  obtain ⟨e, he, hname⟩ : ∃ e, DirEntry.new (List.replicate 28 97) (UInt32.ofNat 1) = some e ∧ e.nameOf = none :=
    ⟨_, rfl, by decide⟩
  obtain ⟨d', hrun, hc⟩ : ∃ d', Runs (((ofSizes 5123 1 h).handle 0).createInode (ofSizes 5123 1 h).efs
        (List.replicate 28 97) .file) [] (s.disk 0) (some ((ofSizes 5123 1 h).handle 1)) d' ∧
      Created (ofSizes 5123 1 h) (s.disk 0) 1 0 .file e d' :=
    createInode_runs hm.inv hm.dirs Nat.one_pos hdir (by rw [hfresh.empty]; rfl) hfresh.inode hfresh.entry he
  have hentry := hc.dirents hm.dirs Nat.one_pos hdir
  rw [hfresh.empty, nil_append] at hentry
  refine ⟨h, s, hs, hfresh.empty, by decide, e, d', by rw [hm.fs]; exact hrun, hentry, hname, ?_⟩
  have hfile : ¬((ofSizes 5123 1 h).inodeOf d' 0).isFile = true := by
    rw [isFile_iff, isDir_congr hc.kind, not_not]
    exact hdir
  rw [exec_ls hc.inv (show 0 < 2 by omega), if_neg hfile, hentry, namesIn, hname]
  rfl

end TCore.EasyFs
