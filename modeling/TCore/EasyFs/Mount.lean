/-
  TCore.EasyFs.Mount — a mounted file system over whole runs.

  A mount is the file system, the session with the block cache, and the inode handles the
  callers have got so far. A run starts with `EasyFileSystem::create` on any device and then
  calls `find`, `create`, `create_dir`, `write_at` and `clear` on these handles, in any order;
  every call goes by way of the block cache, and one that panics ends the run. `FsOp.Ready` is
  the capacity a call needs: data blocks, an inode, and no file past 16540 blocks.

  - `outcome`: everything a call can do.
  - `Reachable.mounted`: after every run the volume and its directories are as they should be,
    every handle is that of an inode in use, and the device holds what the cache shows.
-/

import TCore.EasyFs.VolumeOps
import TCore.EasyFs.DataArea

namespace TCore.EasyFs

open TCore.Lib
open Option NoStore EasyFileSystem UInt32 DirEntry Fits

structure Mount where
  fs : EasyFileSystem
  session : Session
  inodes : List Inode

/-- A call on handle number `self`; `create` is also `create_dir`. -/
inductive FsOp where
  | find (self : Nat) (path : List UInt8)
  | create (self : Nat) (name : List UInt8) (inodeType : DiskInodeType)
  | writeAt (self : Nat) (offset : Nat) (buf : List UInt8)
  | clear (self : Nat)

/-- The inode behind a handle. -/
def Inode.on (self : Inode) (d : Disk) : DiskInode := (d self.blockId).inode self.blockOffset

namespace FsOp

def self : FsOp → Nat
  | .find h _ => h
  | .create h _ _ => h
  | .writeAt h _ _ => h
  | .clear h => h

/-- The code of a call, answering the handle it gives out. -/
def prog (fs : EasyFileSystem) (self : Inode) : FsOp → Fs (Option Inode)
  | .find _ path => self.find fs path
  | .create _ name inodeType => self.createInode fs name inodeType
  | .writeAt _ offset buf => do
    let _ ← self.writeAt fs offset buf
    pure none
  | .clear _ => do
    self.clear fs
    pure none

/-- The call is within the capacity of the volume. -/
def Ready (g : Geometry) (d : Disk) (ino : DiskInode) : FsOp → Prop
  | .find _ _ => True
  | .create _ name _ => findIn name (direntsOf (contentsOf d ino)) = some none →
    g.InodeLeft d ∧ g.RoomFor d ino ((contentsOf d ino).length + 32)
  | .writeAt _ offset buf => g.RoomFor d ino (offset + buf.length)
  | .clear _ => True

end FsOp

namespace Mount

/-- What the cache shows of the device. -/
def disk (dev : Nat) (s : Mount) : Disk := s.session.mgr.view dev

def step (dev : Nat) (s : Mount) (op : FsOp) : Option Mount :=
  (s.inodes[op.self]?).bind fun self =>
    (runCache dev (op.prog s.fs self) s.session).map fun r => { s with session := r.2, inodes := s.inodes ++ r.1.toList }

end Mount

/-- The states of the runs on a device divided as `g` says, when all calls are among `calls`. -/
inductive Reachable (dev : Nat) (g : Geometry) (calls : FsOp → Prop) : Mount → Prop where
  | mkfs {devices : Nat → Nat → Block} {totalBlocks inodeBitmapBlocks : UInt32} {fs : EasyFileSystem} {c : Session}
    (h : Accepted totalBlocks inodeBitmapBlocks) (hg : g = Geometry.ofSizes totalBlocks inodeBitmapBlocks h)
    (hrun : runCache dev (EasyFileSystem.create totalBlocks inodeBitmapBlocks) ⟨Manager.empty devices, []⟩ = some (fs, c)) :
    Reachable dev g calls ⟨fs, c, [fs.rootInode]⟩
  | step {s s' : Mount} {op : FsOp} {self : Inode} (hs : Reachable dev g calls s) (hop : calls op)
    (hself : s.inodes[op.self]? = some self) (hready : op.Ready g (s.disk dev) (self.on (s.disk dev)))
    (hstep : s.step dev op = some s') : Reachable dev g calls s'

/-! ## What a call can do -/

/-- The outcomes of a call on inode `t` of a volume with `m` inodes: the handle given out, and the
    volume and its number of inodes afterwards. -/
inductive Outcome (g : Geometry) (d : Disk) (m t : Nat) : FsOp → Option Inode → Disk → Nat → Prop where
  | find {h : Nat} {path : List UInt8} {r : Option Nat} (hr : g.resolve d t (components path) = some r) :
    Outcome g d m t (.find h path) (r.map g.handle) d m
  | taken {h : Nat} {name : List UInt8} {ty : DiskInodeType} {id : UInt32} (hdir : (g.inodeOf d t).isDir = true)
    (hid : findIn name (g.direntsAt d t) = some (some id)) : Outcome g d m t (.create h name ty) none d m
  | created {h : Nat} {name : List UInt8} {ty : DiskInodeType} {e : DirEntry} {d' : Disk}
    (hdir : (g.inodeOf d t).isDir = true) (hnone : findIn name (g.direntsAt d t) = some none)
    (he : DirEntry.new name (UInt32.ofNat m) = some e) (hc : Created g d m t ty e d') :
    Outcome g d m t (.create h name ty) (some (g.handle m)) d' (m + 1)
  | wrote {h offset : Nat} {buf : List UInt8} {d' : Disk} (hfile : (g.inodeOf d t).isFile = true)
    (hw : Wrote g d m t (overwrite (g.contents d t) offset buf) d') : Outcome g d m t (.writeAt h offset buf) none d' m
  | cleared {h : Nat} {d' : Disk} (hfile : (g.inodeOf d t).isFile = true) (hw : Wrote g d m t [] d') :
    Outcome g d m t (.clear h) none d' m

theorem FsOp.prog_fits (fs : EasyFileSystem) (self : Inode) (op : FsOp) : Fits 3 0 (op.prog fs self) 0 := by
  cases op with
  | find h path => exact self.find_fits fs path
  | create h name ty => exact self.createInode_fits fs name ty
  | writeAt h offset buf => exact bind (self.writeAt_fits fs offset buf) fun _ => ret _
  | clear h => exact bind (self.clear_fits fs) fun _ => ret _

section
variable {g : Geometry} {d d' : Disk} {m m' t : Nat} {op : FsOp} {r : Option Inode}

/-- On a directory `write_at` and `clear` stop in their `assert`. -/
theorem exec_modifyDir {α : Type} {f : DiskInode → Fs (α × DiskInode)} (hn : ¬(g.inodeOf d t).isFile = true) :
    exec ((g.handle t).modifyDiskInode fun ino => do
      Prog.assert (ino.isFile = true)
      f ino) ⟨d, []⟩ = none := by
  refine exec_modify_none (by simp) ?_
  rw [exec_bind, exec_bind, Prog.assert, if_neg (show ¬(((d (g.handle t).blockId).inode (g.handle t).blockOffset).isFile = true) from hn)]
  rfl

theorem isFile_of_writeAt {offset n : Nat} {buf : List UInt8} (hrun : Runs ((g.handle t).writeAt g.efs offset buf) [] d n d') :
    (g.inodeOf d t).isFile = true := by
  by_contra hn
  unfold Runs Inode.writeAt at hrun
  rw [exec_bind, exec_modifyDir hn] at hrun
  cases hrun

theorem isFile_of_clear (hrun : Runs ((g.handle t).clear g.efs) [] d () d') : (g.inodeOf d t).isFile = true := by
  by_contra hn
  unfold Runs Inode.clear at hrun
  rw [exec_bind, exec_modifyDir hn] at hrun
  cases hrun

theorem outcome (h : FsInv g d m) (hd : DirInv g d m) (ht : t < m) (hready : op.Ready g d (g.inodeOf d t))
    (hrun : Runs (op.prog g.efs (g.handle t)) [] d r d') : ∃ m', Outcome g d m t op r d' m' := by
  cases op with
  | find i path =>
    have hx : exec ((g.handle t).find g.efs path) ⟨d, []⟩ = some (r, ⟨d', []⟩) := hrun
    rw [exec_find h hd path ht] at hx
    obtain ⟨r', hr', hx⟩ := map_eq_some_iff.mp hx
    cases hx
    exact ⟨m, .find hr'⟩
  | create i name ty =>
    obtain ⟨hdir, ⟨⟨id, hid⟩, rfl, rfl⟩ | ⟨e, hnone, he, rfl, hc⟩⟩ := createInode_cases h hd ht hready hrun
    · exact ⟨m, .taken hdir hid⟩
    · exact ⟨m + 1, .created hdir hnone he hc⟩
  | writeAt i offset buf =>
    obtain ⟨n, d1, hrun1, hret⟩ := Runs.bind_inv ((g.handle t).writeAt_fits _ _ _) hrun
    have hfile := isFile_of_writeAt hrun1
    cases hret
    by_cases hb : buf = []
    · rw [hb] at hrun1 hready ⊢
      exact ⟨m, .wrote hfile (writeAt_wrote_nil h ht hfile hready hrun1)⟩
    · obtain ⟨d2, hrun2, hw⟩ := writeAt_wrote h ht hfile hb hready
      obtain ⟨-, rfl⟩ := hrun2.det hrun1
      exact ⟨m, .wrote hfile hw⟩
  | clear i =>
    obtain ⟨a, d1, hrun1, hret⟩ := Runs.bind_inv ((g.handle t).clear_fits _) hrun
    obtain ⟨d2, hrun2, hw⟩ := clear_wrote h ht (isFile_of_clear hrun1)
    obtain ⟨-, rfl⟩ := hrun2.det hrun1
    cases hret
    exact ⟨m, .cleared (isFile_of_clear hrun1) hw⟩

end

/-! ## Every change is flushed -/

/-- After the program the device holds what the cache shows. -/
def Flushes (dev : Nat) {α : Type} (p : Fs α) : Prop :=
  ∀ ⦃c c' : Session⦄ ⦃s : Cells Nat Block⦄ ⦃a : α⦄, Sim dev c s → runCache dev p c = some (a, c') → Synced c'.mgr

variable {r : Option Inode} {name : List UInt8}

section
variable {dev : Nat} {α γ : Type} {p : Fs α} {k : α → Fs γ}

theorem flushes_sync : Flushes dev blockCacheSyncAll := fun _ _ _ _ h hr => runCache_sync h hr

theorem Flushes.after (hk : ∀ a, Flushes dev (k a)) : Flushes dev (p >>= k) := by
  intro c c' s b h hr
  rw [runCache_bind] at hr
  obtain ⟨⟨a, c1⟩, h1, h2⟩ := bind_eq_some_iff.mp hr
  obtain ⟨t, -, ht, -⟩ := exec_of_runCache h h1
  exact hk a ht h2

/-- The same of a device that holds what the cache shows before the program. -/
def KeepsSynced (dev : Nat) {α : Type} (p : Fs α) : Prop :=
  ∀ ⦃c c' : Session⦄ ⦃s : Cells Nat Block⦄ ⦃a : α⦄, Sim dev c s → Synced c.mgr → runCache dev p c = some (a, c') → Synced c'.mgr

theorem KeepsSynced.of_noStore (hn : NoStore p) : KeepsSynced dev p := by
  intro c c' s a h hs hr
  obtain ⟨t, -, -, hclean⟩ := exec_of_runCache h hr
  exact hclean hn hs

theorem KeepsSynced.bind (hp : KeepsSynced dev p) (hk : ∀ a, KeepsSynced dev (k a)) : KeepsSynced dev (p >>= k) := by
  intro c c' s b h hs hr
  rw [runCache_bind] at hr
  obtain ⟨⟨a, c1⟩, h1, h2⟩ := bind_eq_some_iff.mp hr
  obtain ⟨t, -, ht, -⟩ := exec_of_runCache h h1
  exact hk a ht (hp h hs h1) h2

theorem Flushes.before (hp : Flushes dev p) (hk : ∀ a, NoStore (k a)) : Flushes dev (p >>= k) := by
  intro c c' s b h hr
  rw [runCache_bind] at hr
  obtain ⟨⟨a, c1⟩, h1, h2⟩ := bind_eq_some_iff.mp hr
  obtain ⟨t, -, ht, -⟩ := exec_of_runCache h h1
  exact KeepsSynced.of_noStore (hk a) ht (hp h h1) h2

theorem Flushes.keeps (hp : Flushes dev p) : KeepsSynced dev p := fun _ _ _ _ h _ hr => hp h hr

variable (fs : EasyFileSystem) (self : Inode)

theorem create_flushes (totalBlocks inodeBitmapBlocks : UInt32) :
    Flushes dev (create totalBlocks inodeBitmapBlocks) :=
  Flushes.after fun _ => Flushes.after fun _ => Flushes.after fun _ => Flushes.after fun _ => Flushes.after fun _ =>
    Flushes.before flushes_sync fun _ => ret _

theorem Inode.addInode_flushes (name : List UInt8) (ty : DiskInodeType) : Flushes dev (self.addInode fs name ty) :=
  Flushes.after fun _ => Flushes.after fun _ => Flushes.after fun _ => Flushes.before flushes_sync fun _ => ret _

theorem Inode.writeAt_flushes (offset : Nat) (buf : List UInt8) : Flushes dev (self.writeAt fs offset buf) :=
  Flushes.after fun _ => Flushes.before flushes_sync fun _ => ret _

theorem Inode.clear_flushes : Flushes dev (self.clear fs) := Flushes.after fun _ => flushes_sync

/-- A `create` that finds its name taken flushes nothing, and has written nothing. -/
theorem Inode.createInode_synced (name : List UInt8) (ty : DiskInodeType) : KeepsSynced dev (self.createInode fs name ty) := by
  refine .bind (.of_noStore (read _ fun _ => bind (assert _) fun _ => findInodeId_noStore _ _)) fun found => ?_
  cases found with
  | some id => exact .of_noStore (ret _)
  | none => exact (Flushes.before (self.addInode_flushes fs name ty) fun _ => ret _).keeps

theorem FsOp.prog_synced (op : FsOp) : KeepsSynced dev (op.prog fs self) := by
  cases op with
  | find i path => exact .of_noStore (self.find_noStore fs path)
  | create i name ty => exact self.createInode_synced fs name ty
  | writeAt i offset buf => exact (Flushes.before (self.writeAt_flushes fs offset buf) fun _ => ret _).keeps
  | clear i => exact (Flushes.before (self.clear_flushes fs) fun _ => ret _).keeps

end

/-! ## Runs -/

/-- A mount shows the volume `d` with `m` inodes. -/
structure Mounted (dev : Nat) (g : Geometry) (s : Mount) (d : Disk) (m : Nat) : Prop where
  fs : s.fs = g.efs
  idle : Idle dev s.session d
  synced : Synced s.session.mgr
  inv : FsInv g d m
  dirs : DirInv g d m
  handles : ∀ self ∈ s.inodes, ∃ i < m, self = g.handle i

section
variable {dev : Nat} {g : Geometry} {d : Disk} {m : Nat} {s s' : Mount} {op : FsOp} {self : Inode} {t m' : Nat} {d' : Disk}

theorem Outcome.inv (ho : Outcome g d m t op r d' m')
    (h : FsInv g d m) : FsInv g d' m' := by
  cases ho with
  | find hr => exact h
  | taken hdir hid => exact h
  | created hdir hnone he hc => exact hc.inv
  | wrote hfile hw => exact hw.inv
  | cleared hfile hw => exact hw.inv

theorem entry_number {e : DirEntry} (he : new name (ofNat m) = some e)
    (hm : m < 2 ^ 32) : e.inodeNumber.toNat = m := by
  unfold new at he
  split at he
  · cases he
    exact toNat_ofNat_of_lt' (by simp only [size]; omega)
  · cases he

section

variable (ho : Outcome g d m t op r d' m')
include ho

theorem Outcome.dirInv
    (hd : DirInv g d m) (ht : t < m) : DirInv g d' m' := by
  cases ho with
  | find hr => exact hd
  | taken hdir hid => exact hd
  | created hdir hnone he hc => exact hc.dirInv hd ht hdir (entry_number he (by have := hc.inv.numbers; omega))
  | wrote hfile hw => exact hw.dirInv hd hfile
  | cleared hfile hw => exact hw.dirInv hd hfile

theorem Outcome.grows : m ≤ m' := by
  cases ho <;> omega

/-- A handle given out is that of an inode in use. -/
theorem Outcome.handle
    (hd : DirInv g d m) (ht : t < m) : ∀ self ∈ r.toList, ∃ i < m', self = g.handle i := by
  intro self hself
  cases ho with
  | find hr =>
    rename_i r
    cases r with
    | none => cases hself
    | some j => exact ⟨j, resolve_lt hd ht hr, List.mem_singleton.mp hself⟩
  | created hdir hnone he hc => exact ⟨m, Nat.lt_succ_self m, List.mem_singleton.mp hself⟩
  | taken hdir hid => cases hself
  | wrote hfile hw => cases hself
  | cleared hfile hw => cases hself

end

theorem Mounted.behind (h : Mounted dev g s d m) (hself : s.inodes[op.self]? = some self) : ∃ t < m, self = g.handle t :=
  h.handles self (List.mem_of_getElem? hself)

/-- One call on a mount: a call on the inode behind the handle. -/
theorem Mounted.step (h : Mounted dev g s d m) (ht : t < m) (hself : s.inodes[op.self]? = some (g.handle t))
    (hready : op.Ready g d (g.inodeOf d t)) (hstep : s.step dev op = some s') :
    ∃ r d' m', Outcome g d m t op r d' m' ∧ Mounted dev g s' d' m' ∧ s'.inodes = s.inodes ++ r.toList := by
  rw [Mount.step, hself, bind_some, h.fs] at hstep
  obtain ⟨⟨r, c⟩, hrun, rfl⟩ := map_eq_some_iff.mp hstep
  obtain ⟨d', hruns, hidle⟩ := h.idle.exec (op.prog_fits _ _) hrun
  obtain ⟨m', ho⟩ := outcome h.inv h.dirs ht hready hruns
  refine ⟨r, d', m', ho, ⟨rfl, hidle, FsOp.prog_synced _ _ op h.idle h.synced hrun, ho.inv h.inv,
    ho.dirInv h.dirs ht, fun x hx => ?_⟩, rfl⟩
  rcases List.mem_append.mp hx with hx | hx
  · obtain ⟨i, hi, rfl⟩ := h.handles x hx
    exact ⟨i, Nat.lt_of_lt_of_le hi ho.grows, rfl⟩
  · exact ho.handle h.dirs ht x hx

/-- A call whose code runs on the volume is one the mount can make. -/
theorem Mounted.call (h : Mounted dev g s d m)
    (hself : s.inodes[op.self]? = some (g.handle t)) (hrun : Runs (op.prog g.efs (g.handle t)) [] d r d') :
    ∃ s', s.step dev op = some s' ∧ s'.inodes = s.inodes ++ r.toList ∧ s'.disk dev = d' := by
  obtain ⟨c, hc, hidle⟩ := h.idle.run (op.prog_fits _ _) hrun
  refine ⟨{ s with session := c, inodes := s.inodes ++ r.toList }, ?_, rfl, hidle.view⟩
  rw [Mount.step, hself, bind_some, h.fs, hc]
  rfl

theorem dirInv_fresh (h : g.inodeOf d 0 = DiskInode.reset .directory) : DirInv g d 1 := by
  refine ⟨Nat.one_pos, by rw [h]; rfl, fun i hi _ => ?_, fun i hi _ e he => ?_⟩
  · rw [show i = 0 by omega, contents_reset h]
    rfl
  · rw [show i = 0 by omega, Geometry.direntsAt, contents_reset h] at he
    cases he

theorem rootInode_efs (g : Geometry) : g.efs.rootInode = g.handle 0 := by
  have := g.some_inode
  exact inodeAt_ofNat (i := 0) (by omega) (by omega)

/-- A fresh mount. -/
theorem mkfs_mounted {devices : Nat → Nat → Block} {totalBlocks inodeBitmapBlocks : UInt32} {fs : EasyFileSystem}
    {c : Session} (h : Accepted totalBlocks inodeBitmapBlocks) (hg : g = Geometry.ofSizes totalBlocks inodeBitmapBlocks h)
    (hrun : runCache dev (create totalBlocks inodeBitmapBlocks) ⟨Manager.empty devices, []⟩ = some (fs, c)) :
    ∃ d, Mounted dev g ⟨fs, c, [fs.rootInode]⟩ d 1 ∧ g.inodeOf d 0 = DiskInode.reset .directory := by
  obtain ⟨c1, d, hcreate, hidle, hinv, hroot⟩ := create_run h dev devices
  rw [hcreate] at hrun
  cases hrun
  rw [← hg] at hcreate hinv hroot ⊢
  refine ⟨d, ⟨rfl, hidle, create_flushes _ _ (idle_start devices) hcreate, hinv, dirInv_fresh hroot, fun x hx => ?_⟩, hroot⟩
  exact ⟨0, Nat.one_pos, by rw [List.mem_singleton.mp hx, rootInode_efs]⟩

theorem Mounted.disk (h : Mounted dev g s d m) : s.disk dev = d := h.idle.view

theorem Reachable.mounted {calls : FsOp → Prop} (hs : Reachable dev g calls s) : ∃ m, Mounted dev g s (s.disk dev) m := by
  induction hs with
  | mkfs h hg hrun =>
    obtain ⟨d, hm, -⟩ := mkfs_mounted h hg hrun
    exact ⟨1, by rw [hm.disk]; exact hm⟩
  | step hs hop hself hready hstep ih =>
    obtain ⟨m, hm⟩ := ih
    obtain ⟨t, ht, rfl⟩ := hm.behind hself
    obtain ⟨r, d', m', -, hm', -⟩ := hm.step ht hself hready hstep
    exact ⟨m', by rw [hm'.disk]; exact hm'⟩

/-- A run can go on with a `create` that has its room. -/
theorem Reachable.create {calls : FsOp → Prop} (hs : Reachable dev g calls s) (hm : Mounted dev g s d m) {h : Nat}
    (ht : t < m) (hself : s.inodes[h]? = some (g.handle t)) (hdir : (g.inodeOf d t).isDir = true)
    {ty : DiskInodeType} (hcall : calls (.create h name ty)) (hnone : findIn name (g.direntsAt d t) = some none)
    (hleft : g.InodeLeft d) (hroom : g.RoomFor d (g.inodeOf d t) ((g.contents d t).length + 32)) {e : DirEntry}
    (he : new name (ofNat m) = some e) :
    ∃ s' d', Reachable dev g calls s' ∧ Mounted dev g s' d' (m + 1) ∧ Created g d m t ty e d' ∧
      s'.inodes = s.inodes ++ [g.handle m] := by
  obtain ⟨d', hrun, hc⟩ := createInode_runs hm.inv hm.dirs ht hdir hnone hleft hroom he
  have hready : FsOp.Ready g d (g.inodeOf d t) (.create h name ty) := fun _ => ⟨hleft, hroom⟩
  have hself : s.inodes[(FsOp.create h name ty).self]? = some (g.handle t) := hself
  obtain ⟨s', hstep, hin, hd'⟩ := hm.call hself hrun
  obtain ⟨r, d2, m2, ho, hm2, -⟩ := hm.step ht hself hready hstep
  have hs' : Reachable dev g calls s' := hs.step hcall hself (by rw [hm.disk]; exact hready) hstep
  rw [← hm2.disk, hd'] at ho hm2
  cases ho with
  | taken hdir hid => rw [hnone] at hid; cases hid
  | created hdir hnone he' hc' => exact ⟨s', d', hs', hm2, hc, hin⟩

end

end TCore.EasyFs
