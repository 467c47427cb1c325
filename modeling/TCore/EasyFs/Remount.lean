/-
  TCore.EasyFs.Remount — the file system after its block cache is gone.

  A remount starts with an empty cache on the device as the last session left it, and calls
  `EasyFileSystem::open`. Nothing was dirty (`Mounted.synced`), so the device shows the volume
  the old session shows, and code that runs on the same volume by way of two caches answers the
  same (`Idle.same`).
-/

import TCore.EasyFs.Files

namespace TCore.EasyFs

open TCore.Lib
open Fits Prod

inductive AllocKind where
  | inode
  | data

/-- A sequence of `alloc_inode` and `alloc_data` calls, answering the ids. -/
def allocs (fs : EasyFileSystem) : List AllocKind → Fs (List UInt32)
  | [] => pure []
  | .inode :: rest => do
    let id ← fs.allocInode
    let ids ← allocs fs rest
    pure (id :: ids)
  | .data :: rest => do
    let id ← fs.allocData
    let ids ← allocs fs rest
    pure (id :: ids)

theorem allocs_fits (fs : EasyFileSystem) (kinds : List AllocKind) : Fits 3 0 (allocs fs kinds) 0 := by
  induction kinds with
  | nil => exact ret _
  | cons kind rest ih =>
    cases kind with
    | inode => exact bind (allocInode_fits fs (by omega)) fun _ => bind ih fun _ => ret _
    | data => exact bind (allocData_fits fs (by omega)) fun _ => bind ih fun _ => ret _

section
variable {dev : Nat} {g : Geometry} {d : Disk} {s : Mount} {calls : FsOp → Prop} {c c' : Session}

/-- Two sessions that show the same volume answer the same. -/
theorem Idle.same {α : Type} {p : Fs α} (h : Idle dev c d) (h' : Idle dev c' d) (hf : Fits 3 0 p 0) :
    (runCache dev p c).map fst = (runCache dev p c').map fst := by
  have hgo : ∀ {c1 c2 : Session}, Idle dev c1 d → Idle dev c2 d → ∀ a, (runCache dev p c1).map fst = some a →
      (runCache dev p c2).map fst = some a := by
    intro c1 c2 h1 h2 a ha
    obtain ⟨⟨a, c3⟩, hr, rfl⟩ := Option.map_eq_some_iff.mp ha
    obtain ⟨d', hrun, -⟩ := h1.exec hf hr
    obtain ⟨c4, hr4, -⟩ := h2.run hf hrun
    rw [hr4]
    rfl
  exact Option.ext fun a => ⟨hgo h h' a, hgo h' h a⟩

/-- The device opened again, with an empty cache, answers every call as the mount does. -/
theorem remount_equivalent (hs : Reachable dev g calls s) :
    ∃ fs c, runCache dev EasyFileSystem.open ⟨Manager.empty s.session.mgr.devices, []⟩ = some (fs, c) ∧ fs = s.fs ∧
      (∀ (self : Inode) (path : List UInt8), (runCache dev (self.find fs path) c).map fst =
        (runCache dev (self.find s.fs path) s.session).map fst) ∧
      (∀ self : Inode, (runCache dev self.ls c).map fst = (runCache dev self.ls s.session).map fst) ∧
      (∀ (self : Inode) (offset : Nat) (buf : List UInt8), (runCache dev (self.readAt offset buf) c).map fst =
        (runCache dev (self.readAt offset buf) s.session).map fst) ∧
      ∀ kinds : List AllocKind, (runCache dev (allocs fs kinds) c).map fst =
        (runCache dev (allocs s.fs kinds) s.session).map fst := by
  obtain ⟨m, hm⟩ := hs.mounted
  have hdev : s.session.mgr.devices dev = s.disk dev := devices_of_synced hm.idle.serves.toCacheInv hm.synced
  have hstart : Idle dev ⟨Manager.empty s.session.mgr.devices, []⟩ (s.disk dev) := hdev ▸ idle_start s.session.mgr.devices
  obtain ⟨c, hc, hidle⟩ := hstart.run open_fits (open_runs hm.inv)
  refine ⟨g.efs, c, hc, hm.fs.symm, fun self path => ?_, fun self => ?_, fun self offset buf => ?_, fun kinds => ?_⟩
  · rw [hm.fs]
    exact hidle.same hm.idle (self.find_fits _ _)
  · exact hidle.same hm.idle self.ls_fits
  · exact hidle.same hm.idle (self.readAt_fits _ _)
  · rw [hm.fs]
    exact hidle.same hm.idle (allocs_fits _ _)

/-- A device of 5123 blocks with one file, opened again. -/
theorem remount_equivalent_5123 : ∃ (h : Accepted 5123 1) (s : Mount),
    Reachable 0 (Geometry.ofSizes 5123 1 h) (fun _ => True) s ∧
      ∃ fs c, runCache 0 EasyFileSystem.open ⟨Manager.empty s.session.mgr.devices, []⟩ = some (fs, c) ∧ fs = s.fs := by
  have h := small_accepted
  obtain ⟨s, hf⟩ := small_file h
  obtain ⟨fs, c, hopen, hfs, -⟩ := remount_equivalent hf.reach
  exact ⟨h, s, hf.reach, fs, c, hopen, hfs⟩

end

end TCore.EasyFs
