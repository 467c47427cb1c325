/-
  TCore.EasyFs.Tree — the directory layer as a tree.

  `Geometry.treeOf` is the tree a volume shows: a directory's children are its entries, in
  order. Names that are not empty, at most 27 bytes long and without '/' and NUL are stored and
  read back as they are; with only such names in use (`NameInv`) the directory code never
  panics and computes on the tree.

  - `findIn_eq`, `namesIn_eq`, `resolve_eq`: looking up, listing and walking are `child`, `names`
    and `walk` of the tree.
-/

import TCore.Lib.DirTree
import TCore.EasyFs.Files

namespace TCore.EasyFs

open TCore.Lib
open List Option UInt32 DirTree Node EasyFs.Geometry DiskInode DirEntry Function Geometry Inode

/-- The names of the directory layer; a Rust string is UTF-8. -/
structure ValidName (name : List UInt8) : Prop where
  nonempty : name ≠ []
  short : name.length ≤ 27
  noSlash : 47 ∉ name
  noNul : 0 ∉ name
  text : utf8 name = true

def FsOp.Named : FsOp → Prop
  | .create _ name _ => ValidName name
  | _ => True

def childOf (e : DirEntry) : List UInt8 × Nat := (e.nameOf.getD [], e.inodeNumber.toNat)

namespace Geometry

def treeOf (g : Geometry) (d : Disk) : DirTree (List UInt8) := fun i =>
  if (g.inodeOf d i).isFile = true then .file else .dir ((g.direntsAt d i).map childOf)

end Geometry

/-- What a new inode of a type is in the tree. -/
def newNode : DiskInodeType → Node (List UInt8)
  | .file => .file
  | .directory => .dir []

/-- Every entry has a name, and no directory has one twice. -/
structure NameInv (g : Geometry) (d : Disk) (m : Nat) : Prop where
  named : ∀ i < m, (g.inodeOf d i).isDir = true → ∀ e ∈ g.direntsAt d i, ∃ name, e.nameOf = some name
  distinct : ∀ i < m, (g.inodeOf d i).isDir = true → ((g.direntsAt d i).map fun e => (childOf e).1).Nodup

/-! ## Entries and children -/

theorem findIn_eq {es : List DirEntry} (h : ∀ e ∈ es, ∃ name, e.nameOf = some name) (name : List UInt8) :
    ∃ r : Option UInt32, findIn name es = some r ∧
      r.map toNat = ((es.map childOf).find? fun c => c.1 = name).map Prod.snd := by
  induction es with
  | nil => exact ⟨none, rfl, rfl⟩
  | cons e es ih =>
    obtain ⟨found, hfound⟩ := h e mem_cons_self
    obtain ⟨r, hr, hmap⟩ := ih fun e' he' => h e' (mem_cons_of_mem _ he')
    have hname : (childOf e).1 = found := by rw [childOf, hfound]; rfl
    rw [findIn, hfound, bind_some, map_cons]
    by_cases hf : found = name
    · rw [if_pos hf, find?_cons_of_pos (by simp [hname, hf])]
      exact ⟨some e.inodeNumber, rfl, rfl⟩
    · rw [if_neg hf, find?_cons_of_neg (by simp [hname, hf])]
      exact ⟨r, hr, hmap⟩

theorem namesIn_eq {es : List DirEntry} (h : ∀ e ∈ es, ∃ name, e.nameOf = some name) :
    namesIn es = some ((es.map childOf).map Prod.fst) := by
  induction es with
  | nil => rfl
  | cons e es ih =>
    obtain ⟨name, hname⟩ := h e mem_cons_self
    rw [namesIn, hname, ih fun e' he' => h e' (mem_cons_of_mem _ he')]
    simp [childOf, hname]

theorem components_slash (p q : List UInt8) : components (p ++ 47 :: q) = components p ++ components q := by
  rw [components, splitOn_append_cons_self, filter_append, components, components]

theorem findFrom_append (fs : EasyFileSystem) (self : Inode) (p q : List (List UInt8)) :
    self.findFrom fs (p ++ q) = self.findFrom fs p >>= fun r => r.elim (pure none) fun j => j.findFrom fs q := by
  induction p generalizing self with
  | nil => rfl
  | cons name rest ih =>
    rw [cons_append, findFrom, findFrom, Prog.bind_assoc]
    refine congrArg _ (funext fun id => ?_)
    cases id with
    | none => rfl
    | some id => exact ih (fs.inodeAt id)

section
variable {dev : Nat} {g : Geometry} {d d' : Disk} {m i t : Nat} {s : Mount}

theorem treeOf_file (h : (g.inodeOf d i).isFile = true) : g.treeOf d i = .file := if_pos h

theorem treeOf_dir (h : (g.inodeOf d i).isDir = true) : g.treeOf d i = .dir ((g.direntsAt d i).map childOf) :=
  if_neg fun hf => (isFile_iff _).mp hf h

theorem isDir_of_not_file (h : ¬(g.inodeOf d i).isFile = true) : (g.inodeOf d i).isDir = true := by
  by_contra hn
  exact h ((isFile_iff _).mpr hn)

theorem NameInv.find (hn : NameInv g d m) (hi : i < m) (hdir : (g.inodeOf d i).isDir = true) (name : List UInt8) :
    ∃ r : Option UInt32, findIn name (g.direntsAt d i) = some r ∧ r.map toNat = (g.treeOf d).child i name := by
  obtain ⟨r, hr, hmap⟩ := findIn_eq (hn.named i hi hdir) name
  exact ⟨r, hr, by rw [hmap, child, treeOf_dir hdir, children]⟩

theorem resolve_eq (hn : NameInv g d m) (hd : DirInv g d m) (p : List (List UInt8)) (hi : i < m) :
    g.resolve d i p = some ((g.treeOf d).walk i p) := by
  induction p generalizing i with
  | nil => rfl
  | cons name rest ih =>
    rw [resolve, walk]
    by_cases hf : (g.inodeOf d i).isFile = true
    · rw [if_pos hf, child, treeOf_file hf]
      rfl
    · have hdir := isDir_of_not_file hf
      obtain ⟨r, hr, hmap⟩ := hn.find hi hdir name
      rw [if_neg hf, hr, ← hmap]
      cases r with
      | none => rfl
      | some id =>
        obtain ⟨e, he, rfl⟩ := findIn_mem hr
        exact ih (hd.inUse i hi hdir e he)

theorem NameInv.ls (hn : NameInv g d m) (h : FsInv g d m) (hi : i < m) :
    exec (g.handle i).ls ⟨d, []⟩ = some ((g.treeOf d).names i, ⟨d, []⟩) := by
  rw [exec_ls h hi, names]
  by_cases hf : (g.inodeOf d i).isFile = true
  · rw [if_pos hf, treeOf_file hf, children, map_nil, map_some]
  · have hdir := isDir_of_not_file hf
    rw [if_neg hf, treeOf_dir hdir, namesIn_eq (hn.named i hi hdir), map_some, children]

/-! ## The names stay as they should be -/

theorem nameInv_fresh (hroot : g.inodeOf d 0 = reset .directory) : NameInv g d 1 := by
  have hempty : ∀ i < 1, g.direntsAt d i = [] := by
    intro i hi
    rw [show i = 0 by omega, direntsAt, contents_reset hroot]
    rfl
  refine ⟨fun i hi _ e he => ?_, fun i hi _ => ?_⟩
  · rw [hempty i hi] at he
    cases he
  · rw [hempty i hi]
    exact nodup_nil

theorem Wrote.nameInv {l : List UInt8} (hw : Wrote g d m t l d') (hn : NameInv g d m)
    (hfile : (g.inodeOf d t).isFile = true) : NameInv g d' m := by
  refine ⟨fun i hi hdir e he => ?_, fun i hi hdir => ?_⟩
  · obtain ⟨h1, h2⟩ := hw.dir_kept hfile hi hdir
    rw [direntsAt, h2] at he
    exact hn.named i hi h1 e he
  · obtain ⟨h1, h2⟩ := hw.dir_kept hfile hi hdir
    rw [direntsAt, h2]
    exact hn.distinct i hi h1

section
variable {ty : DiskInodeType} {name : List UInt8} {e : DirEntry}

/-- Files have no entries, so a write to one changes no tree. -/
theorem Wrote.tree {l : List UInt8} (hw : Wrote g d m t l d') (hfile : (g.inodeOf d t).isFile = true) :
    ∀ i < m, g.treeOf d' i = g.treeOf d i := by
  intro i hi
  by_cases hit : i = t
  · subst hit
    have hfile' : (g.inodeOf d' i).isFile = true := by
      rw [DiskInode.isFile, hw.kind]
      exact hfile
    rw [treeOf_file hfile, treeOf_file hfile']
  · obtain ⟨h1, h2⟩ := hw.other i hi hit
    rw [treeOf, h1, direntsAt, h2, treeOf, direntsAt]

theorem childOf_new (hv : ValidName name) (he : new name (ofNat m) = some e) (hm : m < 2 ^ 32) :
    e.nameOf = some name ∧ childOf e = (name, m) := by
  have hname := nameOf_new hv.short hv.noNul hv.text he
  exact ⟨hname, by rw [childOf, hname, entry_number he hm]; rfl⟩

theorem Created.tree (hc : Created g d m t ty e d') (hd : DirInv g d m) (ht : t < m) (hdir : (g.inodeOf d t).isDir = true)
    (hchild : childOf e = (name, m)) :
    ∀ i < m + 1, g.treeOf d' i = (g.treeOf d).add t name m (newNode ty) i := by
  intro i hi
  by_cases him : i = m
  · subst him
    rw [add, update_self]
    cases ty with
    | file => exact treeOf_file (by rw [hc.new]; rfl)
    | directory =>
      rw [treeOf_dir (by rw [hc.new]; rfl), direntsAt, contents_reset hc.new]
      rfl
  · rw [add, update_of_ne him]
    by_cases hit : i = t
    · subst hit
      have hdir' : (g.inodeOf d' i).isDir = true := by rw [isDir_congr hc.kind]; exact hdir
      rw [update_self, treeOf_dir hdir', hc.dirents hd ht hdir, treeOf_dir hdir, map_append,
        map_singleton, hchild, children]
    · obtain ⟨h1, h2⟩ := hc.other i (by omega) hit
      rw [update_of_ne hit, treeOf, h1, direntsAt, h2, treeOf, direntsAt]

theorem Created.nameInv (hc : Created g d m t ty e d') (hn : NameInv g d m) (hd : DirInv g d m) (ht : t < m)
    (hdir : (g.inodeOf d t).isDir = true) (hname : e.nameOf = some name) (hchild : childOf e = (name, m))
    (hnone : findIn name (g.direntsAt d t) = some none) : NameInv g d' (m + 1) := by
  have hold : ∀ i < m, i ≠ t → (g.inodeOf d' i).isDir = true →
      (g.inodeOf d i).isDir = true ∧ g.direntsAt d' i = g.direntsAt d i := by
    intro i hi hit hi'
    obtain ⟨h1, h2⟩ := hc.other i hi hit
    exact ⟨h1 ▸ hi', by rw [direntsAt, h2, direntsAt]⟩
  have hnew : g.direntsAt d' m = [] := by
    rw [direntsAt, contents_reset hc.new]
    rfl
  refine ⟨fun i hi hi' e' he' => ?_, fun i hi hi' => ?_⟩
  · by_cases him : i = m
    · rw [him, hnew] at he'
      cases he'
    · by_cases hit : i = t
      · rw [hit, hc.dirents hd ht hdir] at he'
        rcases mem_append.mp he' with he' | he'
        · exact hn.named t ht hdir e' he'
        · exact ⟨name, by rw [mem_singleton.mp he', hname]⟩
      · obtain ⟨h1, h2⟩ := hold i (by omega) hit hi'
        rw [h2] at he'
        exact hn.named i (by omega) h1 e' he'
  · by_cases him : i = m
    · rw [him, hnew]
      exact nodup_nil
    · by_cases hit : i = t
      · -- the new name is none of the old ones, or the search would have found it
        obtain ⟨r, hr, hmap⟩ := hn.find ht hdir name
        rw [hnone] at hr
        cases hr
        have hnot := child_eq_none_iff.mp hmap.symm
        rw [names, treeOf_dir hdir, children, List.map_map] at hnot
        rw [hit, hc.dirents hd ht hdir, map_append, map_singleton, hchild]
        exact (hn.distinct t ht hdir).append (nodup_singleton _) (disjoint_singleton.mpr hnot)
      · obtain ⟨h1, h2⟩ := hold i (by omega) hit hi'
        rw [h2]
        exact hn.distinct i (by omega) h1

theorem Outcome.nameInv {op : FsOp} {r : Option Inode} {m' : Nat} (ho : Outcome g d m t op r d' m') (hnamed : op.Named)
    (hn : NameInv g d m) (hd : DirInv g d m) (ht : t < m) : NameInv g d' m' := by
  cases ho with
  | find hr => exact hn
  | taken hdir hid => exact hn
  | created hdir hnone he hc =>
    obtain ⟨h1, h2⟩ := childOf_new hnamed he (by have := hc.inv.numbers; omega)
    exact hc.nameInv hn hd ht hdir h1 h2 hnone
  | wrote hfile hw => exact hw.nameInv hn hfile
  | cleared hfile hw => exact hw.nameInv hn hfile

end

theorem Reachable.named (hs : Reachable dev g FsOp.Named s) :
    ∃ m, Mounted dev g s (s.disk dev) m ∧ NameInv g (s.disk dev) m := by
  induction hs with
  | mkfs h hg hrun =>
    obtain ⟨d, hm, hroot⟩ := mkfs_mounted h hg hrun
    exact ⟨1, by rw [hm.disk]; exact ⟨hm, nameInv_fresh hroot⟩⟩
  | step hs hop hself hready hstep ih =>
    obtain ⟨m, hm, hn⟩ := ih
    obtain ⟨t, ht, rfl⟩ := hm.behind hself
    obtain ⟨r, d', m', ho, hm', -⟩ := hm.step ht hself hready hstep
    exact ⟨m', by rw [hm'.disk]; exact ⟨hm', ho.nameInv hop hn hm.dirs ht⟩⟩

/-! ## The directory layer -/

/-- Directory `t` has got the child `name`, a new inode `j` of type `ty` that was free before. -/
structure ChildAdded (g : Geometry) (d : Disk) (t : Nat) (name : List UInt8) (ty : DiskInodeType) (j : Nat) (d' : Disk) :
    Prop where
  fresh : j < 4096 * g.inodeBitmapBlocks ∧ g.inodeBitmap.bit d j = false
  inodes : ∀ i < 4096 * g.inodeBitmapBlocks, g.inodeBitmap.bit d' i = true ↔ g.inodeBitmap.bit d i = true ∨ i = j
  tree : ∀ i < 4096 * g.inodeBitmapBlocks, g.inodeBitmap.bit d' i = true →
    g.treeOf d' i = (g.treeOf d).add t name j (newNode ty) i
  empty : g.contents d' j = []
  files : ∀ i < 4096 * g.inodeBitmapBlocks, g.inodeBitmap.bit d i = true → i ≠ t → g.contents d' i = g.contents d i

theorem Created.childAdded {ty : DiskInodeType} {name : List UInt8} {e : DirEntry} (hc : Created g d m t ty e d')
    (h : FsInv g d m) (hd : DirInv g d m) (ht : t < m) (hdir : (g.inodeOf d t).isDir = true)
    (hchild : childOf e = (name, m)) : ChildAdded g d t name ty m d' := by
  have hroom := hc.inv.room
  refine ⟨⟨by omega, ?_⟩, fun i hi => ?_, fun i hi hbit => ?_, contents_reset hc.new, fun i hi hbit hne => ?_⟩
  · rw [h.inodes m (by omega)]
    exact decide_eq_false (Nat.lt_irrefl m)
  · rw [hc.inv.allocated hi, h.allocated hi]
    omega
  · exact hc.tree hd ht hdir hchild i ((hc.inv.allocated hi).mp hbit)
  · exact (hc.other i ((h.allocated hi).mp hbit) hne).2

/-- The tree is as it was. -/
def TreeKept (g : Geometry) (d d' : Disk) : Prop :=
  ∀ i < 4096 * g.inodeBitmapBlocks, g.inodeBitmap.bit d i = true → g.treeOf d' i = g.treeOf d i

theorem NameInv.names_nodup (hn : NameInv g d m) (hi : i < m) : ((g.treeOf d).names i).Nodup := by
  by_cases hf : (g.inodeOf d i).isFile = true
  · rw [names, treeOf_file hf]
    exact nodup_nil
  · have hdir := isDir_of_not_file hf
    rw [names, treeOf_dir hdir, children, List.map_map]
    exact hn.distinct i hi hdir

/-- The operations on a directory do to the volume what they do to its tree, and those on a file leave the tree as it is. -/
theorem directories_refine_tree (hs : Reachable dev g FsOp.Named s) (t : Nat) (ht : t < 4096 * g.inodeBitmapBlocks)
    (hbit : g.inodeBitmap.bit (s.disk dev) t = true) :
    (∀ (name : List UInt8) (ty : DiskInodeType), ValidName name → (g.inodeOf (s.disk dev) t).isDir = true →
      ((g.treeOf (s.disk dev)).child t name ≠ none →
        ∃ c, runCache dev ((g.handle t).createInode s.fs name ty) s.session = some (none, c) ∧
          c.mgr.view dev = s.disk dev) ∧
      ((g.treeOf (s.disk dev)).child t name = none → g.InodeLeft (s.disk dev) →
        g.RoomFor (s.disk dev) (g.inodeOf (s.disk dev) t) ((g.contents (s.disk dev) t).length + 32) →
        ∃ j c, runCache dev ((g.handle t).createInode s.fs name ty) s.session = some (some (g.handle j), c) ∧
          ChildAdded g (s.disk dev) t name ty j (c.mgr.view dev))) ∧
    (∃ c, runCache dev (g.handle t).ls s.session = some ((g.treeOf (s.disk dev)).names t, c) ∧
      c.mgr.view dev = s.disk dev) ∧
    ((g.treeOf (s.disk dev)).names t).Nodup ∧
    ((g.inodeOf (s.disk dev) t).isFile = true → (g.treeOf (s.disk dev)).names t = []) ∧
    (∀ path : List UInt8, ∃ c, runCache dev ((g.handle t).find s.fs path) s.session =
      some (((g.treeOf (s.disk dev)).walk t (components path)).map g.handle, c) ∧ c.mgr.view dev = s.disk dev) ∧
    ((g.inodeOf (s.disk dev) t).isFile = true →
      (∀ (offset : Nat) (buf : List UInt8), buf ≠ [] → g.RoomFor (s.disk dev) (g.inodeOf (s.disk dev) t) (offset + buf.length) →
        ∃ c, runCache dev ((g.handle t).writeAt s.fs offset buf) s.session = some (buf.length, c) ∧
          TreeKept g (s.disk dev) (c.mgr.view dev)) ∧
      ∃ c, runCache dev ((g.handle t).clear s.fs) s.session = some ((), c) ∧ TreeKept g (s.disk dev) (c.mgr.view dev)) ∧
    ∀ p q : List UInt8, (g.handle t).find s.fs (p ++ 47 :: q) =
      (g.handle t).find s.fs p >>= fun r => r.elim (pure none) fun j => j.find s.fs q := by
  obtain ⟨m, hm, hn⟩ := hs.named
  have htm := (hm.inv.allocated ht).mp hbit
  rw [hm.fs]
  refine ⟨fun name ty hv hdir => ⟨fun hsome => ?_, fun hnone hleft hroom => ?_⟩, ?_, hn.names_nodup htm, fun hfile => ?_,
    fun path => ?_, fun hfile => ⟨fun offset buf hb hroom => ?_, ?_⟩, fun p q => ?_⟩
  · obtain ⟨r, hr, hmap⟩ := hn.find htm hdir name
    cases r with
    | none => exact absurd hmap.symm hsome
    | some id =>
      obtain ⟨c, hc, hidle⟩ := hm.idle.run (createInode_fits _ _ _ _) (createInode_taken hm.inv htm hdir hr)
      exact ⟨c, hc, hidle.view⟩
  · obtain ⟨r, hr, hmap⟩ := hn.find htm hdir name
    rw [hnone, map_eq_none_iff] at hmap
    subst hmap
    have hlen := hv.short
    obtain ⟨-, h32⟩ := hm.inv.inode_lt hleft
    obtain ⟨e, he⟩ : ∃ e, DirEntry.new name (UInt32.ofNat m) = some e := ⟨_, if_pos (by omega)⟩
    obtain ⟨d', hrun, hc⟩ := createInode_runs hm.inv hm.dirs htm hdir hr hleft hroom he
    obtain ⟨c, hcr, hidle⟩ := hm.idle.run (createInode_fits _ _ _ _) hrun
    refine ⟨m, c, hcr, ?_⟩
    rw [hidle.view]
    exact hc.childAdded hm.inv hm.dirs htm hdir (childOf_new hv he h32).2
  · obtain ⟨c, hc, hidle⟩ := hm.idle.run (ls_fits _) (hn.ls hm.inv htm)
    exact ⟨c, hc, hidle.view⟩
  · rw [DirTree.names, treeOf_file hfile]
    rfl
  · have hx := exec_find hm.inv hm.dirs path htm
    rw [resolve_eq hn hm.dirs _ htm, map_some] at hx
    obtain ⟨c, hc, hidle⟩ := hm.idle.run (find_fits _ _ _) hx
    exact ⟨c, hc, hidle.view⟩
  · obtain ⟨d', hrun, hw⟩ := writeAt_wrote hm.inv htm hfile hb hroom
    obtain ⟨c, hc, hidle⟩ := hm.idle.run (Inode.writeAt_fits _ _ _ _) hrun
    refine ⟨c, hc, fun i hi hbit => ?_⟩
    rw [hidle.view, hw.tree hfile i ((hm.inv.allocated hi).mp hbit)]
  · obtain ⟨d', hrun, hw⟩ := clear_wrote hm.inv htm hfile
    obtain ⟨c, hc, hidle⟩ := hm.idle.run (clear_fits _ _) hrun
    refine ⟨c, hc, fun i hi hbit => ?_⟩
    rw [hidle.view, hw.tree hfile i ((hm.inv.allocated hi).mp hbit)]
  · rw [find, components_slash, findFrom_append]
    rfl

/-- The root of a device of 5123 blocks with one file in it can be listed. -/
theorem directories_refine_tree_5123 : ∃ (h : Accepted 5123 1) (s : Mount),
    Reachable 0 (ofSizes 5123 1 h) FsOp.Named s ∧
      ∃ c, runCache 0 ((ofSizes 5123 1 h).handle 0).ls s.session =
        some (((ofSizes 5123 1 h).treeOf (s.disk 0)).names 0, c) ∧ c.mgr.view 0 = s.disk 0 := by
  have h := small_accepted
  obtain ⟨s, hf⟩ := FirstFile.exists_run 0 FsOp.Named h (small_room h)
    (show ([97] : List UInt8).length ≤ 28 by decide) ⟨by decide, by decide, by decide, by decide, by decide⟩
  have h0 := Nat.zero_lt_of_lt hf.lt
  exact ⟨h, s, hf.reach, (directories_refine_tree hf.reach 0 h0 ((hf.mounted.inv.allocated h0).mpr (by decide))).2.1⟩

/-! ## A full directory -/

/-- With one inode in use, the volume has the other blocks left. -/
theorem free_ge (h : FsInv g d m) (honly : ∀ i < m, i ≠ t → g.rolesAt d i = []) :
    g.dataAreaBlocks ≤ g.free d + (g.rolesAt d t).length := by
  have hsum : ∑ i ∈ Finset.range m, (g.rolesAt d i).length ≤ (g.rolesAt d t).length := by
    have hzero : ∀ i ∈ Finset.range m, i ≠ t → (g.rolesAt d i).length = 0 := by
      intro i hi hne
      rw [honly i (Finset.mem_range.mp hi) hne, length_nil]
    by_cases ht : t ∈ Finset.range m
    · exact (Finset.sum_eq_single_of_mem t ht hzero).le
    · rw [Finset.sum_eq_zero fun i hi => hzero i hi fun heq => ht (heq ▸ hi)]
      exact Nat.zero_le _
  have hall := h.free_add_roles
  omega

/-- Five letters for a number below 16^5. -/
def letter (n : Nat) : UInt8 := UInt8.ofNat (65 + n % 16)

def fileName (n : Nat) : List UInt8 := [letter n, letter (n / 16), letter (n / 256), letter (n / 4096), letter (n / 65536)]

theorem letter_toNat (n : Nat) : (letter n).toNat = 65 + n % 16 :=
  UInt8.toNat_ofNat_of_lt' (by simp only [UInt8.size]; omega)

theorem letter_ne {n : Nat} {b : UInt8} (hb : b.toNat < 65) : b ≠ letter n := by
  rintro rfl
  rw [letter_toNat] at hb
  omega

theorem letter_ascii (n : Nat) : letter n ≤ 0x7f := by
  rw [UInt8.le_iff_toNat_le, letter_toNat]
  show _ ≤ 127
  omega

theorem fileName_valid (n : Nat) : ValidName (fileName n) := by
  refine ⟨cons_ne_nil _ _, by simp [fileName], ?_, ?_, ?_⟩
  · simp [fileName, letter_ne]
  · simp [fileName, letter_ne]
  · simp [fileName, utf8, letter_ascii]

theorem letter_inj {a b : Nat} (h : letter a = letter b) : a % 16 = b % 16 := by
  have := congrArg UInt8.toNat h
  rw [letter_toNat, letter_toNat] at this
  omega

theorem fileName_inj {a b : Nat} (ha : a < 1048576) (hb : b < 1048576) (h : fileName a = fileName b) : a = b := by
  simp only [fileName, cons.injEq, and_true] at h
  obtain ⟨h0, h1, h2, h3, h4⟩ := h
  have := letter_inj h0
  have := letter_inj h1
  have := letter_inj h2
  have := letter_inj h3
  have := letter_inj h4
  omega

/-- A run that has made `n` files in the root, and nothing else. -/
structure Filled (dev : Nat) (g : Geometry) (n : Nat) (s : Mount) (d : Disk) : Prop where
  run : Reachable dev g FsOp.Named s
  mounted : Mounted dev g s d (n + 1)
  named : NameInv g d (n + 1)
  root : s.inodes[0]? = some (g.handle 0)
  names : (g.treeOf d).names 0 = (List.range n).map fileName
  length : (g.contents d 0).length = 32 * n
  files : ∀ i < n + 1, i ≠ 0 → g.inodeOf d i = DiskInode.reset .file

namespace Filled

variable {n : Nat}

variable (h : Filled dev g n s d)
include h

theorem isDir : (g.inodeOf d 0).isDir = true := h.mounted.dirs.root

/-- The next name is free. -/
theorem next (hn : n < 1048576) :
    (g.treeOf d).child 0 (fileName n) = none ∧ findIn (fileName n) (g.direntsAt d 0) = some none := by
  have hnone : (g.treeOf d).child 0 (fileName n) = none := by
    rw [child_eq_none_iff, h.names, List.mem_map]
    rintro ⟨k, hk, he⟩
    have hk := mem_range.mp hk
    have := fileName_inj (by omega) hn he
    omega
  obtain ⟨r, hr, hmap⟩ := h.named.find (Nat.succ_pos n) h.isDir (fileName n)
  rw [hnone, map_eq_none_iff] at hmap
  exact ⟨hnone, by rw [hr, hmap]⟩

theorem left (hi : n + 1 < 4096 * g.inodeBitmapBlocks) (h32 : n + 1 < 2 ^ 32) : g.InodeLeft d :=
  ⟨n + 1, hi, h32, by rw [h.mounted.inv.inodes _ hi]; exact decide_eq_false (Nat.lt_irrefl _)⟩

/-- All blocks but those of the root are free. -/
theorem free :
    g.dataAreaBlocks ≤ g.free d + totalBlocks (g.inodeOf d 0).size := by
  have := free_ge (t := 0) h.mounted.inv fun i hi hne => by
    rw [rolesAt, h.files i hi hne, dataBlocks_reset]
    rfl
  rwa [rolesAt, roles_length] at this

theorem room (hn : 32 * n + 32 ≤ 8468480) (hd : 16671 ≤ g.dataAreaBlocks) :
    g.RoomFor d (g.inodeOf d 0) ((g.contents d 0).length + 32) := by
  have hfree := h.free
  refine ⟨by rw [h.length]; exact hn, ?_⟩
  have hmax : totalBlocks (ofNat ((g.contents d 0).length + 32)) ≤ 16671 := by
    have hto : (ofNat (32 * n + 32)).toNat = 32 * n + 32 :=
      UInt32.toNat_ofNat_of_lt' (by simp only [UInt32.size]; omega)
    have hle : dataBlocksOf (ofNat (32 * n + 32)) ≤ 16540 := by
      rw [dataBlocksOf_eq (by omega)]
      omega
    rw [h.length]
    exact (totalBlocks_mono hle).trans (by decide)
  omega

theorem step (hn : 32 * n + 32 ≤ 8468480) (hi : n + 1 < 4096 * g.inodeBitmapBlocks)
    (hd : 16671 ≤ g.dataAreaBlocks) : ∃ s' d', Filled dev g (n + 1) s' d' := by
  obtain ⟨-, hnone⟩ := h.next (by omega)
  have hv := fileName_valid n
  obtain ⟨e, he⟩ : ∃ e, new (fileName n) (ofNat (n + 1)) = some e := ⟨_, if_pos (by simp [fileName])⟩
  obtain ⟨hname, hchild⟩ := childOf_new hv he (by omega)
  obtain ⟨s', d', hs', hm', hc, hin⟩ := h.run.create h.mounted (Nat.succ_pos n) h.root h.isDir
    (show FsOp.Named (.create 0 (fileName n) .file) from hv) hnone (h.left hi (by omega)) (h.room hn hd) he
  have hdirs := h.mounted.dirs
  refine ⟨s', d', hs', hm', hc.nameInv h.named hdirs (Nat.succ_pos n) h.isDir hname hchild hnone, ?_, ?_, ?_, ?_⟩
  · have := h.root
    rw [hin]
    exact getElem?_append_left (List.getElem?_eq_some_iff.mp this).1 ▸ this
  · have hnames := h.names
    rw [DirTree.names] at hnames ⊢
    rw [hc.tree hdirs (Nat.succ_pos n) h.isDir hchild 0 (by omega), DirTree.add, update_of_ne (by omega),
      update_self, children, map_append, hnames, range_succ, map_append]
    rfl
  · rw [hc.contents, length_append, h.length, asBytes_length]
    omega
  · intro i hi' hne
    by_cases him : i = n + 1
    · rw [him]
      exact hc.new
    · rw [(hc.other i (by omega) hne).1]
      exact h.files i (by omega) hne

/-- When the root has no place left, `create_inode` stops. -/
theorem full (hn : 32 * n = 8468480) (hi : n + 1 < 4096 * g.inodeBitmapBlocks)
    (ty : DiskInodeType) : runCache dev ((g.handle 0).createInode s.fs (fileName n) ty) s.session = none := by
  obtain ⟨-, hnone⟩ := h.next (by omega)
  have hexec : exec ((g.handle 0).createInode g.efs (fileName n) ty) ⟨d, []⟩ = none :=
    createInode_full h.mounted.inv (Nat.succ_pos n) hnone (h.left hi (by omega)) (by rw [h.length, hn])
  rw [h.mounted.fs, eq_none_iff_forall_ne_some]
  rintro ⟨r, c⟩ hrun
  obtain ⟨d', hruns, -⟩ := h.mounted.idle.exec (createInode_fits _ _ _ _) hrun
  rw [Runs, hexec] at hruns
  cases hruns

end Filled

variable (dev) in
theorem filled {totalBlocks inodeBitmapBlocks : UInt32} (h : Accepted totalBlocks inodeBitmapBlocks)
    (hd : 16671 ≤ (ofSizes totalBlocks inodeBitmapBlocks h).dataAreaBlocks) (n : Nat) (hn : 32 * n ≤ 8468480)
    (hi : n < 4096 * (ofSizes totalBlocks inodeBitmapBlocks h).inodeBitmapBlocks) :
    ∃ s d, Filled dev (ofSizes totalBlocks inodeBitmapBlocks h) n s d := by
  induction n with
  | zero =>
    obtain ⟨c, -, hcreate, -, -, -⟩ := create_run h dev fun _ _ => Block.zero
    obtain ⟨d, hm, hroot⟩ := mkfs_mounted h rfl hcreate
    refine ⟨_, d, Reachable.mkfs h rfl hcreate, hm, nameInv_fresh hroot, by rw [rootInode_efs]; rfl, ?_, ?_, ?_⟩
    · rw [names, treeOf_dir hm.dirs.root, direntsAt, contents_reset hroot]
      rfl
    · rw [contents_reset hroot]
      rfl
    · intro i hi hne
      omega
  | succ n ih =>
    obtain ⟨s, d, hf⟩ := ih (by omega) (by omega)
    exact hf.step (by omega) hi hd

/-- On a device of 87111 blocks: the root has 264,640 entries, there are inodes and over 3000 data
    blocks left, and the next `create` panics. -/
theorem full_directory_panics : ∃ (h : Accepted 87111 65) (s : Mount) (name : List UInt8),
    Reachable 0 (ofSizes 87111 65 h) FsOp.Named s ∧ ValidName name ∧
      ((ofSizes 87111 65 h).inodeOf (s.disk 0) 0).isDir = true ∧
      ((ofSizes 87111 65 h).treeOf (s.disk 0)).child 0 name = none ∧
      (ofSizes 87111 65 h).InodeLeft (s.disk 0) ∧ 3000 ≤ (ofSizes 87111 65 h).free (s.disk 0) ∧
      ∀ ty, runCache 0 (((ofSizes 87111 65 h).handle 0).createInode s.fs name ty) s.session = none := by
  have h : Accepted 87111 65 := ⟨by decide, by decide⟩
  have hinodes : (ofSizes 87111 65 h).inodeBitmapBlocks = 65 := rfl
  have hdata : (ofSizes 87111 65 h).dataAreaBlocks = 20480 := by
    show min (dataTotalBlocks 87111 65 - dataBitmapBlocks 87111 65) (4096 * dataBitmapBlocks 87111 65) = 20480
    decide
  obtain ⟨s, d, hf⟩ := filled 0 h (by omega) 264640 (by omega) (by omega)
  have hsize : DiskInode.totalBlocks ((ofSizes 87111 65 h).inodeOf d 0).size ≤ 16671 :=
    (totalBlocks_mono (hf.mounted.inv.dataBlocks_le (Nat.succ_pos _))).trans (by decide)
  have hfree := hf.free
  refine ⟨h, s, fileName 264640, hf.run, fileName_valid _, ?_⟩
  rw [hf.mounted.disk]
  exact ⟨hf.isDir, (hf.next (by omega)).1, hf.left (by omega) (by omega), by omega, hf.full (by omega) (by omega)⟩

end

end TCore.EasyFs
