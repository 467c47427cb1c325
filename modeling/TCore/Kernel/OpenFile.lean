/-
  TCore.Kernel.OpenFile — opening and listing files by path (fs/inode.rs).

  `open_file` looks a path up component by component, but creates a file under the whole path, as one
  entry of the root. The two agree on the names of the directory layer only (`nested_path_is_lost`).
-/

import TCore.EasyFs.Names

namespace TCore.Kernel

open TCore.Lib TCore.EasyFs
open Option EasyFs.Geometry Fits DirEntry Runs List

abbrev OpenFlags := BitVec 32

namespace OpenFlags

def wronly : OpenFlags := 1

def create : OpenFlags := 1#32 <<< 9

def trunc : OpenFlags := 1#32 <<< 10

def contains (s f : OpenFlags) : Bool := s &&& f == f

/-- Readable and writable. -/
def readWrite (s : OpenFlags) : Bool × Bool :=
  if s = 0 then (true, false) else if s.contains wronly then (false, true) else (true, true)

end OpenFlags

structure OSInode where
  readable : Bool
  writable : Bool
  offset : Nat
  inode : Inode

def OSInode.new (flags : OpenFlags) (inode : Inode) : OSInode := ⟨flags.readWrite.1, flags.readWrite.2, 0, inode⟩

def openFile (fs : EasyFileSystem) (rootInode : Inode) (name : List UInt8) (flags : OpenFlags) : Fs (Option OSInode) :=
  if flags.contains .create then do
    match ← rootInode.find fs name with
    | some inode =>
      inode.clear fs
      pure (some (.new flags inode))
    | none =>
      let created ← rootInode.create fs name
      pure (created.map (.new flags))
  else do
    match ← rootInode.find fs name with
    | some inode =>
      if flags.contains .trunc then inode.clear fs
      pure (some (.new flags inode))
    | none => pure none

/-- The path of an entry of the directory `path`. -/
def pathFile (path fileName : List UInt8) : List UInt8 :=
  if path.getLast? = some 47 then path ++ fileName else path ++ 47 :: fileName

/-- The lines `list_files` prints: each name with the size of the file. -/
def listEntries (fs : EasyFileSystem) (rootInode : Inode) (path : List UInt8) :
    List (List UInt8) → Fs (List (List UInt8 × UInt32))
  | [] => pure []
  | fileName :: rest => do
    let found ← rootInode.find fs (pathFile path fileName)
    let file ← Prog.unwrap found
    let size ← file.getInodeSize
    let more ← listEntries fs rootInode path rest
    pure ((fileName, size) :: more)

def listFiles (fs : EasyFileSystem) (rootInode : Inode) (path : List UInt8) : Fs (List (List UInt8 × UInt32)) := do
  let found ← rootInode.find fs path
  let dir ← Prog.unwrap found
  let fileList ← dir.ls
  listEntries fs rootInode path (fileList.mergeSort fun a b => decide (a ≤ b))

/-! ## Paths -/

theorem components_pathFile (path fileName : List UInt8) :
    components (pathFile path fileName) = components path ++ components fileName := by
  rw [pathFile]
  split
  · rename_i h
    obtain ⟨q, rfl⟩ := getLast?_eq_some_iff.mp h
    rw [append_assoc, singleton_append, components_slash, components_slash q []]
    simp [components]
  · exact components_slash path fileName

section
variable {dev : Nat} {g : Geometry} {d d' : Disk} {m t i j : Nat} {s s' : Mount} {path : List UInt8} {flags : OpenFlags}
  {f : OSInode}

theorem resolve_append (p q : List (List UInt8)) :
    g.resolve d i (p ++ q) = (g.resolve d i p).bind fun r => r.elim (some none) fun j => g.resolve d j q := by
  induction p generalizing i with
  | nil => rfl
  | cons name rest ih =>
    rw [cons_append, resolve, resolve]
    split
    · rfl
    · cases findIn name (g.direntsAt d i) with
      | none => rfl
      | some found =>
        cases found with
        | none => rfl
        | some id => exact ih

/-! ## One call -/

theorem openFile_fits (fs : EasyFileSystem) (rootInode : Inode) : Fits 3 0 (openFile fs rootInode path flags) 0 := by
  unfold openFile
  split
  · refine bind (rootInode.find_fits fs path) fun r => ?_
    cases r with
    | some inode => exact bind (inode.clear_fits fs) fun _ => ret _
    | none => exact bind (rootInode.createInode_fits fs path .file) fun _ => ret _
  · refine bind (rootInode.find_fits fs path) fun r => ?_
    cases r with
    | some inode =>
      simp only
      split
      · exact bind (inode.clear_fits fs) fun _ => ret _
      · exact ret _
    | none => exact ret _

section

variable (h : FsInv g d m) (hd : DirInv g d m)
include h hd

theorem runs_find (hi : i < m) {r : Option Nat}
    (hr : g.resolve d i (components path) = some r) :
    Runs ((g.handle i).find g.efs path) [] d (r.map g.handle) d := by
  have := exec_find h hd path hi
  rwa [hr] at this

theorem find_inv (hi : i < m) {o : Option Inode}
    (hrun : Runs ((g.handle i).find g.efs path) [] d o d') :
    d' = d ∧ ∃ r, g.resolve d i (components path) = some r ∧ o = r.map g.handle := by
  have hx : exec ((g.handle i).find g.efs path) ⟨d, []⟩ = some (o, ⟨d', []⟩) := hrun
  rw [exec_find h hd path hi] at hx
  obtain ⟨r, hr, he⟩ := map_eq_some_iff.mp hx
  cases he
  exact ⟨rfl, r, hr, rfl⟩

/-- A call with CREATE that returns a file has found and cleared it, or has made it. -/
theorem openFile_create_cases (hflag : flags.contains .create = true)
    (hready : g.resolve d 0 (components path) = some none → FsOp.Ready g d (g.inodeOf d 0) (.create 0 path .file))
    (hrun : Runs (openFile g.efs (g.handle 0) path flags) [] d (some f) d') :
    (∃ j, f = .new flags (g.handle j) ∧ g.resolve d 0 (components path) = some (some j) ∧
      (g.inodeOf d j).isFile = true ∧ Wrote g d m j [] d') ∨
    ∃ e, f = .new flags (g.handle m) ∧ g.resolve d 0 (components path) = some none ∧
      findIn path (g.direntsAt d 0) = some none ∧ new path (UInt32.ofNat m) = some e ∧
      Created g d m 0 .file e d' := by
  have h0 := hd.some_inode
  rw [openFile, if_pos hflag] at hrun
  obtain ⟨o, d1, hfind, hrest⟩ := bind_inv ((g.handle 0).find_fits _ _) hrun
  obtain ⟨rfl, r, hr, rfl⟩ := find_inv h hd h0 hfind
  cases r with
  | some j =>
    obtain ⟨u, d2, hclear, hret⟩ := bind_inv ((g.handle j).clear_fits _) hrest
    cases hret
    have hfile := isFile_of_clear hclear
    obtain ⟨d3, hclear', hw⟩ := clear_wrote h (resolve_lt hd h0 hr) hfile
    obtain ⟨-, rfl⟩ := hclear'.det hclear
    exact .inl ⟨j, rfl, hr, hfile, hw⟩
  | none =>
    obtain ⟨created, d2, hcreate, hret⟩ := bind_inv ((g.handle 0).createInode_fits _ _ _) hrest
    obtain ⟨-, ⟨-, rfl, rfl⟩ | ⟨e, hnone, he, rfl, hc⟩⟩ := createInode_cases h hd h0 (hready hr) hcreate
    · cases hret
    · cases hret
      exact .inr ⟨e, rfl, hr, hnone, he, hc⟩

/-- Every call on the path of a file returns it. -/
theorem openFile_found (hr : g.resolve d 0 (components path) = some (some j))
    (hfile : (g.inodeOf d j).isFile = true) (flags : OpenFlags) :
    ∃ d', Runs (openFile g.efs (g.handle 0) path flags) [] d (some (.new flags (g.handle j))) d' := by
  have hfind : Runs ((g.handle 0).find g.efs path) [] d (some (g.handle j)) d := runs_find h hd hd.some_inode hr
  obtain ⟨d', hclear, -⟩ := clear_wrote h (resolve_lt hd hd.some_inode hr) hfile
  rw [openFile]
  split
  · exact ⟨d', bind hfind (bind hclear (ret _))⟩
  · by_cases ht : flags.contains .trunc = true
    · refine ⟨d', bind hfind ?_⟩
      simp only [ht, if_true]
      exact bind hclear (ret _)
    · refine ⟨d, bind hfind ?_⟩
      simp only [ht]
      exact ret _

end

/-- A new entry of the root changes no path that starts elsewhere. -/
theorem created_resolve_ne {e : DirEntry} (hd : DirInv g d m) (hroot : Rootless g d m) (hc : Created g d m 0 .file e d')
    {p : List (List UInt8)} (hi : i < m) (hi0 : i ≠ 0) : g.resolve d' i p = g.resolve d i p := by
  induction p generalizing i with
  | nil => rw [resolve, resolve]
  | cons name rest ih =>
    obtain ⟨hino, hcont⟩ := hc.other i hi hi0
    have hents : g.direntsAt d' i = g.direntsAt d i := by rw [direntsAt, hcont, direntsAt]
    rw [resolve, resolve, hino, hents]
    by_cases hf : (g.inodeOf d i).isFile = true
    · rw [if_pos hf, if_pos hf]
    · rw [if_neg hf, if_neg hf]
      have hdir := isDir_of_not_file hf
      cases hfound : findIn name (g.direntsAt d i) with
      | none => rw [bind_none, bind_none]
      | some found =>
        cases found with
        | none => rw [bind_some, bind_some]
        | some id =>
          obtain ⟨e', he', rfl⟩ := findIn_mem hfound
          simp only [bind_some]
          exact ih (hd.inUse i hi hdir e' he') (hroot i hi hdir e' he')

/-- Where the path of a new file leads: to the file exactly if the path is one of the names of the directory layer. -/
theorem created_resolve {e : DirEntry} (hd : DirInv g d m) (hroot : Rootless g d m)
    (hr : g.resolve d 0 (components path) = some none) (he : new path (UInt32.ofNat m) = some e)
    (hc : Created g d m 0 .file e d') : g.resolve d' 0 (components path) = some (some m) ↔ ValidName path := by
  have h0 := hd.some_inode
  have hnumber : e.inodeNumber.toNat = m := entry_number he (by have := hc.inv.numbers; omega)
  have hnew : (g.inodeOf d' m).isFile = true := by rw [hc.new]; rfl
  have hdir : ¬(g.inodeOf d 0).isFile = true := fun hf => (isFile_iff _).mp hf hd.root
  have hdir' : ¬(g.inodeOf d' 0).isFile = true := by
    rw [isFile_iff, not_not, isDir_congr hc.kind]
    exact hd.root
  have hone : ∀ c, findIn c [e] = e.nameOf.bind fun found => if found = c then some (some e.inodeNumber) else some none :=
    fun c => rfl
  constructor
  · intro hr'
    cases hcomp : components path with
    | nil =>
      rw [hcomp] at hr
      cases hr
    | cons c rest =>
      rw [hcomp, resolve, if_neg hdir] at hr
      rw [hcomp, resolve, if_neg hdir', hc.dirents hd h0 hd.root] at hr'
      obtain ⟨found, hfound, hrest⟩ := bind_eq_some_iff.mp hr
      cases found with
      | none =>
        rw [findIn_append_none hfound, hone] at hr'
        obtain ⟨id, hid, hlead⟩ := bind_eq_some_iff.mp hr'
        obtain ⟨name, hname, hif⟩ := bind_eq_some_iff.mp hid
        by_cases heq : name = c
        · rw [if_pos heq] at hif
          cases hif
          cases rest with
          | nil => exact validName_of_component hcomp he (by rw [hname, heq])
          | cons c' rest' =>
            -- the new inode is a file: no path goes on from it
            simp only [hnumber, resolve, if_pos hnew] at hlead
            cases hlead
        · rw [if_neg heq] at hif
          cases hif
          cases hlead
      | some id =>
        obtain ⟨e', he', rfl⟩ := findIn_mem hfound
        rw [findIn_append_some hfound, bind_some] at hr'
        have hsame := created_resolve_ne hd hroot hc (p := rest) (hd.inUse 0 h0 hd.root e' he') (hroot 0 h0 hd.root e' he')
        simp only at hr' hrest
        rw [hsame, hrest] at hr'
        cases hr'
  · intro hv
    have hcomp : components path = [path] := by rw [components_of_noSlash hv.noSlash, if_neg hv.nonempty]
    have hname := nameOf_new hv.short hv.noNul hv.text he
    rw [hcomp, resolve, if_neg hdir] at hr
    obtain ⟨found, hfound, hrest⟩ := bind_eq_some_iff.mp hr
    cases found with
    | some id => cases hrest
    | none =>
      rw [hcomp, resolve, if_neg hdir', hc.dirents hd h0 hd.root, findIn_append_none hfound, hone, hname]
      simp [resolve, hnumber]

end

/-! ## Calls on a mount -/

def findAt (dev : Nat) (s : Mount) (self : Inode) (path : List UInt8) : Option (Option Inode) :=
  (runCache dev (self.find s.fs path) s.session).map Prod.fst

def lsAt (dev : Nat) (s : Mount) (self : Inode) : Option (List (List UInt8)) :=
  (runCache dev self.ls s.session).map Prod.fst

def listAt (dev : Nat) (s : Mount) (path : List UInt8) : Option (List (List UInt8 × UInt32)) :=
  (runCache dev (listFiles s.fs s.fs.rootInode path) s.session).map Prod.fst

def openAt (dev : Nat) (s : Mount) (path : List UInt8) (flags : OpenFlags) : Option (Option OSInode × Mount) :=
  (runCache dev (openFile s.fs s.fs.rootInode path flags) s.session).map fun r =>
    (r.1, { s with session := r.2, inodes := s.inodes ++ (r.1.map OSInode.inode).toList })

/-- A call within the capacity of the volume. -/
def Calls (dev : Nat) (g : Geometry) (s s' : Mount) : Prop :=
  ∃ op self, s.inodes[op.self]? = some self ∧ op.Ready g (s.disk dev) (self.on (s.disk dev)) ∧ s.step dev op = some s'

/-- Now and after any further calls the path leads to the inode, and `open_file` returns it whatever the flags. -/
def Reopens (dev : Nat) (g : Geometry) (path : List UInt8) (inode : Inode) (s : Mount) : Prop :=
  ∀ s', Relation.ReflTransGen (Calls dev g) s s' →
    findAt dev s' s'.fs.rootInode path = some (some inode) ∧
    ∀ flags, ∃ f s'', openAt dev s' path flags = some (some f, s'') ∧ f.inode = inode

section
variable {dev : Nat} {g : Geometry} {d d' : Disk} {m m' t i j : Nat} {s s' : Mount} {path : List UInt8}
  {flags : OpenFlags} {f : OSInode}

theorem handle_inj (h : g.handle i = g.handle j) : i = j := by
  simp only [handle, Inode.mk.injEq] at h
  omega

theorem runCache_eq_none {α : Type} {p : Fs α} {c : Session} (h : Idle dev c d) (hf : Fits 3 0 p 0)
    (hr : exec p ⟨d, []⟩ = none) : runCache dev p c = none := by
  rw [eq_none_iff_forall_ne_some]
  intro r hrun
  obtain ⟨d', hruns, -⟩ := h.exec hf hrun
  rw [Runs, hr] at hruns
  cases hruns

section

variable (h : Mounted dev g s d m)
include h

theorem findAt_eq (hi : i < m) :
    findAt dev s (g.handle i) path = (g.resolve d i (components path)).map fun r => r.map g.handle := by
  have hx := exec_find h.inv h.dirs path hi
  rw [findAt, h.fs]
  cases hr : g.resolve d i (components path) with
  | none =>
    rw [hr] at hx
    rw [runCache_eq_none h.idle ((g.handle i).find_fits _ _) hx]
    rfl
  | some r =>
    obtain ⟨c, hc, -⟩ := h.idle.run ((g.handle i).find_fits _ _) (runs_find h.inv h.dirs hi hr)
    rw [hc]
    rfl

theorem lsAt_eq (hi : i < m) : lsAt dev s (g.handle i) =
    if (g.inodeOf d i).isFile = true then some [] else namesIn (g.direntsAt d i) := by
  have hx := exec_ls h.inv hi
  rw [lsAt]
  cases hr : if (g.inodeOf d i).isFile = true then some [] else namesIn (g.direntsAt d i) with
  | none =>
    rw [hr] at hx
    rw [runCache_eq_none h.idle (g.handle i).ls_fits hx]
    rfl
  | some names =>
    rw [hr] at hx
    obtain ⟨c, hc, -⟩ := h.idle.run (g.handle i).ls_fits hx
    rw [hc]
    rfl

theorem mounted_later (hl : Relation.ReflTransGen (Calls dev g) s s') :
    ∃ d' m', Mounted dev g s' d' m' ∧ m ≤ m' ∧ Extended g d m d' := by
  induction hl with
  | refl => exact ⟨d, m, h, le_refl m, .refl⟩
  | tail _ hcall ih =>
    obtain ⟨d1, m1, h1, hle, hext⟩ := ih
    obtain ⟨op, self, hself, hready, hstep⟩ := hcall
    obtain ⟨t, ht, rfl⟩ := h1.behind hself
    rw [h1.disk] at hready
    obtain ⟨r, d2, m2, ho, h2, -⟩ := h1.step ht hself hready hstep
    exact ⟨d2, m2, h2, hle.trans ho.grows, hext.trans (ho.extended h1.dirs ht) hle⟩

/-- The path of a file stays its path. -/
theorem reopens_of_resolve (hr : g.resolve d 0 (components path) = some (some j))
    (hfile : (g.inodeOf d j).isFile = true) : Reopens dev g path (g.handle j) s := by
  intro s' hl
  obtain ⟨d', m', h', hle, hext⟩ := mounted_later h hl
  have hj := resolve_lt h.dirs h.dirs.some_inode hr
  have hr' := hext.resolve h.dirs h.dirs.some_inode hr
  have hfile' : (g.inodeOf d' j).isFile = true := by
    rw [isFile_iff, hext.isDir hj, ← isFile_iff]
    exact hfile
  constructor
  · rw [h'.fs, rootInode_efs, findAt_eq h' h'.dirs.some_inode, hr']
    rfl
  · intro flags
    obtain ⟨d2, hrun⟩ := openFile_found h'.inv h'.dirs hr' hfile' flags
    obtain ⟨c, hc, -⟩ := h'.idle.run (openFile_fits _ _) hrun
    refine ⟨.new flags (g.handle j), { s' with session := c, inodes := s'.inodes ++ [g.handle j] }, ?_, rfl⟩
    rw [openAt, h'.fs, rootInode_efs, hc]
    rfl

end

theorem openFile_synced (fs : EasyFileSystem) (rootInode : Inode) (path : List UInt8) (flags : OpenFlags) :
    KeepsSynced dev (openFile fs rootInode path flags) := by
  have hclear : ∀ inode : Inode, KeepsSynced dev (inode.clear fs >>= fun _ => pure (some (OSInode.new flags inode))) :=
    fun inode => (Flushes.before (inode.clear_flushes fs) fun _ => .ret _).keeps
  have hfind : KeepsSynced dev (rootInode.find fs path) := .of_noStore (rootInode.find_noStore fs path)
  unfold openFile
  split
  · refine hfind.bind fun found => ?_
    cases found with
    | some inode => exact hclear inode
    | none => exact (rootInode.createInode_synced fs path .file).bind fun _ => .of_noStore (.ret _)
  · refine hfind.bind fun found => ?_
    cases found with
    | some inode =>
      dsimp only
      split
      · exact hclear inode
      · exact .of_noStore (.ret _)
    | none => exact .of_noStore (.ret _)

/-- A call of `open_file` on a mount is a call on its volume. -/
theorem openAt_inv (h : Mounted dev g s d m) (hopen : openAt dev s path flags = some (some f, s')) :
    ∃ d', Runs (openFile g.efs (g.handle 0) path flags) [] d (some f) d' ∧
      ∀ m', FsInv g d' m' → DirInv g d' m' → m ≤ m' → (∃ i < m', f.inode = g.handle i) → Mounted dev g s' d' m' := by
  rw [openAt, h.fs, rootInode_efs] at hopen
  obtain ⟨⟨r, c⟩, hrun, he⟩ := map_eq_some_iff.mp hopen
  cases he
  obtain ⟨d', hruns, hidle⟩ := h.idle.exec (openFile_fits _ _) hrun
  refine ⟨d', hruns, fun m' hinv hdirs hle hf => ⟨rfl, hidle, openFile_synced _ _ _ _ h.idle h.synced hrun, hinv, hdirs, ?_⟩⟩
  intro x hx
  rcases mem_append.mp hx with hx | hx
  · obtain ⟨i, hi, rfl⟩ := h.handles x hx
    exact ⟨i, by omega, rfl⟩
  · rw [mem_singleton.mp hx]
    exact hf

/-- A file opened with CREATE stays under its path exactly if it was there or the path is a name. -/
theorem reopens_iff (h : Mounted dev g s d m) (hroot : Rootless g d m) (hflag : flags.contains .create = true)
    (hready : findAt dev s (g.handle 0) path = some none → FsOp.Ready g d (g.inodeOf d 0) (.create 0 path .file))
    (hopen : openAt dev s path flags = some (some f, s')) :
    Reopens dev g path f.inode s' ↔ findAt dev s (g.handle 0) path ≠ some none ∨ ValidName path := by
  have h0 := h.dirs.some_inode
  obtain ⟨d', hrun, hmounted⟩ := openAt_inv h hopen
  rw [findAt_eq h h0] at hready ⊢
  rcases openFile_create_cases h.inv h.dirs hflag (fun hr => hready (by rw [hr]; rfl)) hrun with
    ⟨j, rfl, hr, hfile, hw⟩ | ⟨e, rfl, hr, hnone, he, hc⟩
  · have hj := resolve_lt h.dirs h0 hr
    have h' := hmounted m hw.inv (hw.dirInv h.dirs hfile) (le_refl m) ⟨j, hj, rfl⟩
    have hext := hw.extended hfile
    have hfile' : (g.inodeOf d' j).isFile = true := by
      rw [isFile_iff, hext.isDir hj, ← isFile_iff]
      exact hfile
    have hre : Reopens dev g path (g.handle j) s' := reopens_of_resolve h' (hext.resolve h.dirs h0 hr) hfile'
    rw [hr]
    exact iff_of_true hre (.inl (by simp))
  · have hnum : e.inodeNumber.toNat = m := entry_number he (by have := hc.inv.numbers; omega)
    have h' := hmounted (m + 1) hc.inv (hc.dirInv h.dirs h0 h.dirs.root hnum) (by omega) ⟨m, by omega, rfl⟩
    have hnew : (g.inodeOf d' m).isFile = true := by rw [hc.new]; rfl
    have hiff := created_resolve h.dirs hroot hr he hc
    rw [hr]
    constructor
    · intro hre
      obtain ⟨hfind, -⟩ := hre s' .refl
      rw [h'.fs, rootInode_efs, findAt_eq h' h'.dirs.some_inode] at hfind
      obtain ⟨r, hr', hmap⟩ := map_eq_some_iff.mp hfind
      obtain ⟨k, rfl, hk⟩ := map_eq_some_iff.mp hmap
      rw [handle_inj hk] at hr'
      exact .inr (hiff.mp hr')
    · rintro (hne | hv)
      · exact absurd rfl hne
      · exact reopens_of_resolve h' (hiff.mpr hv) hnew

/-! ## Listing -/

variable {names : List (List UInt8)}

theorem namesIn_mem {es : List DirEntry} (h : namesIn es = some names) :
    (∀ e ∈ es, ∃ name, e.nameOf = some name) ∧ names = (es.map childOf).map Prod.fst := by
  have hall : ∀ e ∈ es, ∃ name, e.nameOf = some name := by
    induction es generalizing names with
    | nil => simp
    | cons e es ih =>
      obtain ⟨name, hname, hrest⟩ := bind_eq_some_iff.mp h
      obtain ⟨rest, hrest, -⟩ := map_eq_some_iff.mp hrest
      intro e' he'
      rcases mem_cons.mp he' with rfl | he'
      · exact ⟨name, hname⟩
      · exact ih hrest e' he'
  refine ⟨hall, ?_⟩
  rw [namesIn_eq hall, some.injEq] at h
  exact h.symm

/-- A listed name without '/' leads to an inode. -/
theorem listed_resolves (h : Mounted dev g s d m) (ht : t < m)
    (hls : lsAt dev s (g.handle t) = some names) {name : List UInt8} (hname : name ∈ names) (hslash : 47 ∉ name) :
    ∃ j, g.resolve d t (components name) = some (some j) := by
  rw [lsAt_eq h ht] at hls
  by_cases hf : (g.inodeOf d t).isFile = true
  · rw [if_pos hf] at hls
    cases hls
    cases hname
  · rw [if_neg hf] at hls
    obtain ⟨hall, rfl⟩ := namesIn_mem hls
    rw [components_of_noSlash hslash]
    split
    · exact ⟨t, rfl⟩
    · obtain ⟨r, hr, hmap⟩ := findIn_eq hall name
      cases r with
      | none =>
        have hno := find?_eq_none.mp (map_eq_none_iff.mp hmap.symm)
        obtain ⟨c, hc, rfl⟩ := mem_map.mp hname
        exact absurd (decide_eq_true rfl) (hno c hc)
      | some id => exact ⟨id.toNat, by rw [resolve, if_neg hf, hr]; rfl⟩

/-- The path of an entry leads where its name leads from the directory. -/
theorem resolve_pathFile {name : List UInt8} (hp : g.resolve d 0 (components path) = some (some t)) :
    g.resolve d 0 (components (pathFile path name)) = g.resolve d t (components name) := by
  rw [components_pathFile, resolve_append, hp]
  rfl

theorem runs_getInodeSize (inode : Inode) : Runs inode.getInodeSize [] d (inode.on d).size d :=
  modify_same (by simp) (ret _)

theorem getInodeSize_fits (inode : Inode) : Fits 3 0 inode.getInodeSize 0 := modify (by omega) fun _ => ret _

theorem listEntries_fits (fs : EasyFileSystem) (rootInode : Inode) (names : List (List UInt8)) :
    Fits 3 0 (listEntries fs rootInode path names) 0 := by
  induction names with
  | nil => exact ret _
  | cons name rest ih =>
    exact bind (rootInode.find_fits fs _) fun _ => bind (unwrap _) fun file =>
      bind (getInodeSize_fits file) fun _ => bind ih fun _ => ret _

/-- The lines are printed exactly if every name leads to an inode. -/
theorem listEntries_runs (h : FsInv g d m) (hd : DirInv g d m) (hp : g.resolve d 0 (components path) = some (some t))
    (names : List (List UInt8)) :
    (∃ lines d', Runs (listEntries g.efs (g.handle 0) path names) [] d lines d') ↔
      ∀ name ∈ names, ∃ j, g.resolve d t (components name) = some (some j) := by
  induction names with
  | nil => exact iff_of_true ⟨[], d, ret _⟩ (by simp)
  | cons name rest ih =>
    rw [forall_mem_cons, ← ih]
    constructor
    · rintro ⟨lines, d', hrun⟩
      obtain ⟨found, d1, hfind, hrun⟩ := bind_inv ((g.handle 0).find_fits _ _) hrun
      obtain ⟨rfl, r, hr, rfl⟩ := find_inv h hd hd.some_inode hfind
      rw [resolve_pathFile hp] at hr
      cases r with
      | none => cases hrun
      | some j =>
        obtain ⟨size, d2, hsize, hlast⟩ := bind_inv (getInodeSize_fits _) hrun
        obtain ⟨-, rfl⟩ := hsize.det (runs_getInodeSize _)
        obtain ⟨more, d3, hmore, -⟩ := bind_inv (listEntries_fits _ _ _) hlast
        exact ⟨⟨j, hr⟩, more, d3, hmore⟩
    · rintro ⟨⟨j, hj⟩, more, d', hmore⟩
      have hfind := runs_find h hd hd.some_inode ((resolve_pathFile hp).trans hj)
      exact ⟨_, d', bind hfind (bind (unwrap _) (bind (runs_getInodeSize _)
        (bind hmore (ret _))))⟩

theorem listFiles_fits (fs : EasyFileSystem) (rootInode : Inode) : Fits 3 0 (listFiles fs rootInode path) 0 :=
  bind (rootInode.find_fits fs _) fun _ => bind (unwrap _) fun dir => bind dir.ls_fits fun names =>
    listEntries_fits fs rootInode (names.mergeSort fun a b => decide (a ≤ b))

/-- `list_files` does not panic on a directory exactly if every listed name leads to an inode. -/
theorem listAt_isSome (h : Mounted dev g s d m) (hp : g.resolve d 0 (components path) = some (some t)) (hls : lsAt dev s (g.handle t) = some names) :
    (listAt dev s path).isSome = true ↔ ∀ name ∈ names, ∃ j, g.resolve d t (components name) = some (some j) := by
  have h0 := h.dirs.some_inode
  have ht := resolve_lt h.dirs h0 hp
  have hfind := runs_find h.inv h.dirs h0 hp
  have hlist : Runs (g.handle t).ls [] d names d := by
    rw [lsAt_eq h ht] at hls
    have := exec_ls h.inv ht
    rwa [hls] at this
  have hsorted : (∀ name ∈ names, ∃ j, g.resolve d t (components name) = some (some j)) ↔
      ∀ name ∈ names.mergeSort fun a b => decide (a ≤ b), ∃ j, g.resolve d t (components name) = some (some j) := by
    simp only [mem_mergeSort]
  rw [hsorted, ← listEntries_runs h.inv h.dirs hp, listAt, isSome_map, h.fs, rootInode_efs]
  constructor
  · intro hsome
    obtain ⟨r, hrun⟩ := isSome_iff_exists.mp hsome
    obtain ⟨d', hruns, -⟩ := h.idle.exec (listFiles_fits _ _) hrun
    obtain ⟨o, d1, hfind', hrest⟩ := bind_inv ((g.handle 0).find_fits _ _) hruns
    obtain ⟨rfl, rfl⟩ := hfind'.det hfind
    obtain ⟨names', d2, hlist', hentries⟩ := bind_inv (g.handle t).ls_fits hrest
    obtain ⟨rfl, rfl⟩ := hlist'.det hlist
    exact ⟨r.1, d', hentries⟩
  · rintro ⟨lines, d', hruns⟩
    obtain ⟨c, hc, -⟩ := h.idle.run (listFiles_fits _ _)
      (bind hfind (bind (unwrap _) (bind hlist hruns)))
    rw [hc]
    rfl

variable (path) in
/-- On a fresh volume `open_file` makes a file under any path that is not too long. -/
theorem open_first (h : Mounted dev g s d 1) (hroot : g.inodeOf d 0 = DiskInode.reset .directory)
    (hroom : 0 < g.dataAreaBlocks) (hlen : path.length ≤ 28) (hcomp : components path ≠ []) :
    FsOp.Ready g d (g.inodeOf d 0) (.create 0 path .file) ∧ findAt dev s (g.handle 0) path = some none ∧
    ∃ e s' d', new path 1 = some e ∧ openAt dev s path .create = some (some (.new .create (g.handle 1)), s') ∧
      Mounted dev g s' d' 2 ∧ Created g d 1 0 .file e d' := by
  have hfresh := fresh_room h.inv hroot hroom
  have hnone : findIn path (g.direntsAt d 0) = some none := by rw [hfresh.empty]; rfl
  have hdir : ¬(g.inodeOf d 0).isFile = true := fun hf => (isFile_iff _).mp hf h.dirs.root
  have hr : g.resolve d 0 (components path) = some none := by
    cases hc : components path with
    | nil => exact absurd hc hcomp
    | cons c rest =>
      rw [resolve, if_neg hdir, hfresh.empty]
      rfl
  have he : new path (UInt32.ofNat 1) = some ⟨Arr.ofFn fun i => path.getD i 0, UInt32.ofNat 1⟩ := by
    rw [new, if_pos hlen]
  obtain ⟨d', hcreate, hc⟩ : ∃ d', Runs ((g.handle 0).createInode g.efs path .file) [] d (some (g.handle 1)) d' ∧
      Created g d 1 0 .file _ d' := createInode_runs h.inv h.dirs h.dirs.some_inode h.dirs.root hnone hfresh.inode hfresh.entry he
  have hrun : Runs (openFile g.efs (g.handle 0) path .create) [] d (some (.new .create (g.handle 1))) d' := by
    rw [openFile, if_pos (by decide)]
    exact bind (runs_find h.inv h.dirs h.dirs.some_inode hr) (bind hcreate (ret _))
  obtain ⟨c, hcache, -⟩ := h.idle.run (openFile_fits _ _) hrun
  have hopen : openAt dev s path .create = some (some (.new .create (g.handle 1)),
      { s with session := c, inodes := s.inodes ++ [g.handle 1] }) := by
    rw [openAt, h.fs, rootInode_efs, hcache]
    rfl
  obtain ⟨d2, hrun2, hmounted⟩ := openAt_inv h hopen
  obtain ⟨-, rfl⟩ := hrun2.det hrun
  have h' := hmounted 2 hc.inv (hc.dirInv h.dirs h.dirs.some_inode h.dirs.root (entry_number he (by decide))) (by omega)
    ⟨1, by omega, rfl⟩
  refine ⟨fun _ => ⟨hfresh.inode, hfresh.entry⟩, ?_, _, _, d2, he, hopen, h', hc⟩
  rw [findAt_eq h h.dirs.some_inode, hr]
  rfl

end

end TCore.Kernel
