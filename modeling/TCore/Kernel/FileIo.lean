/-
  TCore.Kernel.FileIo — reading and writing an open file (fs/inode.rs, `OSInode`).

  A user buffer comes as the slices `translated_byte_buffer` has cut it into at page ends. `read` and
  `write` call `read_at` and `write_at` for one slice after the other and move the offset; `read` stops
  at the first slice it gets nothing for.
-/

import TCore.Kernel.OpenFile
import TCore.Mm.UserBuffer
import TCore.EasyFs.WriteBlocks

namespace TCore.Kernel

open TCore.Lib TCore.EasyFs TCore.Mm
open List Fits Inode Geometry

namespace OSInode

def readSlices (f : OSInode) : List (List UInt8) → Fs (Nat × List (List UInt8) × OSInode)
  | [] => pure (0, [], f)
  | slice :: rest => do
    let (readSize, slice) ← f.inode.readAt f.offset slice
    if readSize = 0 then pure (0, slice :: rest, f)
    else do
      let (total, rest, f) ← readSlices { f with offset := f.offset + readSize } rest
      pure (readSize + total, slice :: rest, f)

/-- The number of bytes read, and what the slices then hold. -/
def read (f : OSInode) (buf : UserBuffer UInt8) : Fs (Nat × List (List UInt8) × OSInode) := f.readSlices buf.buffers

def writeSlices (fs : EasyFileSystem) (f : OSInode) : List (List UInt8) → Fs (Nat × OSInode)
  | [] => pure (0, f)
  | slice :: rest => do
    let writeSize ← f.inode.writeAt fs f.offset slice
    Prog.assert (writeSize = slice.length)
    let (total, f) ← writeSlices fs { f with offset := f.offset + writeSize } rest
    pure (writeSize + total, f)

def write (fs : EasyFileSystem) (f : OSInode) (buf : UserBuffer UInt8) : Fs (Nat × OSInode) := f.writeSlices fs buf.buffers

/-- The loop of `read_all`, which uses one buffer for all its reads; `fuel` bounds its turns. -/
def readAllLoop (f : OSInode) : Nat → List UInt8 → Fs (List UInt8 × OSInode)
  | 0, _ => .panic
  | fuel + 1, buffer => do
    let (len, buffer) ← f.inode.readAt f.offset buffer
    if len = 0 then pure ([], f)
    else do
      let (v, f) ← readAllLoop { f with offset := f.offset + len } fuel buffer
      pure (buffer.take len ++ v, f)

def readAll (f : OSInode) (fuel : Nat) : Fs (List UInt8 × OSInode) := f.readAllLoop fuel (List.replicate 512 0)

/-! ## Handles -/

theorem readSlices_fits (f : OSInode) (slices : List (List UInt8)) : Fits 3 0 (f.readSlices slices) 0 := by
  induction slices generalizing f with
  | nil => exact ret _
  | cons slice rest ih =>
    exact bind (readAt_fits _ _ _) fun _ => ite (ret _) (bind (ih _) fun _ => ret _)

theorem writeSlices_fits (fs : EasyFileSystem) (f : OSInode) (slices : List (List UInt8)) :
    Fits 3 0 (f.writeSlices fs slices) 0 := by
  induction slices generalizing f with
  | nil => exact ret _
  | cons slice rest ih =>
    exact bind (writeAt_fits _ _ _ _) fun _ => bind (assert _) fun _ => bind (ih _) fun _ => ret _

theorem readAllLoop_fits (f : OSInode) (fuel : Nat) (buffer : List UInt8) : Fits 3 0 (f.readAllLoop fuel buffer) 0 := by
  induction fuel generalizing f buffer with
  | zero => exact panic
  | succ fuel ih =>
    exact bind (readAt_fits _ _ _) fun _ => ite (ret _) (bind (ih _ _) fun _ => ret _)

end OSInode

section
variable {g : Geometry} {d d' : Disk} {m t : Nat} {f : OSInode} {slices : List (List UInt8)}

/-! ## Writing -/

theorem overwrite_append (old a b : List UInt8) (offset : Nat) :
    overwrite (overwrite old offset a) (offset + a.length) b = overwrite old offset (a ++ b) := by
  have hlen := overwrite_length old offset a
  have hfirst : ((old ++ List.replicate (offset - old.length) 0).take offset).length = offset := by
    rw [length_take, length_append, length_replicate]
    omega
  have htake : (overwrite old offset a).take (offset + a.length) =
      (old ++ List.replicate (offset - old.length) 0).take offset ++ a := by
    rw [overwrite, take_left']
    rw [length_append, hfirst]
  have hdrop : (overwrite old offset a).drop (offset + a.length + b.length) = old.drop (offset + (a ++ b).length) := by
    rw [overwrite, ← drop_drop, drop_left' (by rw [length_append, hfirst]), drop_drop, length_append,
      Nat.add_assoc]
  have hnone : offset + a.length - (overwrite old offset a).length = 0 := by omega
  rw [overwrite, hnone, replicate_zero, append_nil, htake, hdrop, overwrite, ← append_assoc]

/-- The contents after a write of slices that are not empty. -/
def written (old : List UInt8) (offset : Nat) (slices : List (List UInt8)) : List UInt8 :=
  if slices = [] then old else overwrite old offset slices.flatten

theorem written_cons (old slice : List UInt8) (offset : Nat) (rest : List (List UInt8)) :
    written (overwrite old offset slice) (offset + slice.length) rest = overwrite old offset (slice :: rest).flatten := by
  by_cases h : rest = []
  · rw [written, if_pos h, h, flatten_cons, flatten_nil, append_nil]
  · rw [written, if_neg h, overwrite_append, flatten_cons]

/-- Each slice is written where the one before ended, and the room for all of them is room for each. -/
theorem writeSlices_runs (h : FsInv g d m) (ht : t < m) (hfile : (g.inodeOf d t).isFile = true) (hf : f.inode = g.handle t)
    (hne : ∀ b ∈ slices, b ≠ []) (hroom : g.RoomFor d (g.inodeOf d t) (f.offset + slices.flatten.length)) :
    ∃ d', Runs (f.writeSlices g.efs slices) [] d
        (slices.flatten.length, { f with offset := f.offset + slices.flatten.length }) d' ∧
      Wrote g d m t (written (g.contents d t) f.offset slices) d' := by
  induction slices generalizing f d with
  | nil => exact ⟨d, Runs.ret _, h, rfl, rfl, fun i _ _ => ⟨rfl, rfl⟩⟩
  | cons slice rest ih =>
    rw [flatten_cons, length_append] at hroom ⊢
    have hpart := hroom.mono (Nat.add_le_add_left (Nat.le_add_right slice.length rest.flatten.length) f.offset)
    obtain ⟨d₁, hrun₁, hw₁⟩ := writeAt_wrote h ht hfile (hne slice mem_cons_self) hpart
    have hfile₁ : (g.inodeOf d₁ t).isFile = true := by
      rw [hw₁.isFile]
      exact hfile
    have hroom₁ : g.RoomFor d₁ (g.inodeOf d₁ t) (f.offset + slice.length + rest.flatten.length) := by
      rw [Nat.add_assoc]
      exact hw₁.roomFor h ht hroom
    have hne₁ : ∀ b ∈ rest, b ≠ [] := fun b hb => hne b (mem_cons_of_mem _ hb)
    obtain ⟨d₂, hrun₂, hw₂⟩ := ih (f := { f with offset := f.offset + slice.length }) hw₁.inv hfile₁ hf hne₁ hroom₁
    refine ⟨d₂, ?_, ?_⟩
    · rw [← hf] at hrun₁
      refine Runs.bind hrun₁ (Runs.bind (Runs.assert rfl) (Runs.bind hrun₂ ?_))
      dsimp only
      rw [Nat.add_assoc]
      exact Runs.ret _
    · rw [hw₁.contents, written_cons] at hw₂
      rw [written, if_neg (cons_ne_nil _ _)]
      exact hw₁.trans hw₂

/-- Only files can be written. -/
theorem exec_writeAt_dir {offset : Nat} {buf : List UInt8} (hdir : (g.inodeOf d t).isFile = false) :
    exec ((g.handle t).writeAt g.efs offset buf) ⟨d, []⟩ = none := by
  have hnot : ¬(g.inodeOf d t).isFile = true := by
    rw [hdir]
    exact Bool.false_ne_true
  rw [writeAt, exec_bind, exec_modifyDir hnot]
  rfl

/-! ## Reading -/

/-- What a buffer holds that was filled from `rest` as far as that goes. -/
def filledFrom (rest buf : List UInt8) : List UInt8 := rest.take buf.length ++ buf.drop (min buf.length rest.length)

theorem filledFrom_length (rest buf : List UInt8) : (filledFrom rest buf).length = buf.length := by
  rw [filledFrom, length_append, length_take, length_drop]
  omega

theorem filledFrom_nil (buf : List UInt8) : filledFrom [] buf = buf := by
  rw [filledFrom, take_nil, nil_append, length_nil, Nat.min_zero, drop_zero]

/-- Filling a buffer is filling its first part, and then the other from what is left. -/
theorem filledFrom_append (rest a b : List UInt8) :
    filledFrom rest (a ++ b) = filledFrom rest a ++ filledFrom (rest.drop (min a.length rest.length)) b := by
  rcases Nat.le_total a.length rest.length with h | h
  · have hmin : min (a.length + b.length) rest.length = a.length + min b.length (rest.length - a.length) := by omega
    rw [filledFrom, filledFrom, filledFrom, Nat.min_eq_left h, drop_length, append_nil, length_append, hmin,
      length_drop, take_add, drop_append, drop_of_length_le (Nat.le_add_right _ _), nil_append,
      Nat.add_sub_cancel_left, append_assoc]
  · have hmin : min (a.length + b.length) rest.length = rest.length := by omega
    rw [Nat.min_eq_right h, drop_length, filledFrom_nil, filledFrom, filledFrom, length_append, hmin, Nat.min_eq_right h,
      take_of_length_le (by omega), take_of_length_le h, drop_append_of_le_length h, append_assoc]

section

variable (h : FsInv g d m) (ht : t < m)
include h ht

theorem readAt_filled {offset : Nat} (buf : List UInt8) (hoffset : offset < 2 ^ 64)
    (hlen : buf.length < 2 ^ 63) : Runs ((g.handle t).readAt offset buf) [] d
      (min buf.length ((g.contents d t).drop offset).length, filledFrom ((g.contents d t).drop offset) buf) d := by
  rw [filledFrom, length_drop]
  exact readAt_volume h ht hoffset hlen

theorem contents_length_le : (g.contents d t).length ≤ 8468480 := by
  rw [contents, contentsOf_length]
  exact h.size t ht

/-- A slice is filled from where the one before ended, and the first one that gets nothing is the end. -/
theorem readSlices_runs (hf : f.inode = g.handle t) (hne : ∀ b ∈ slices, b ≠ [])
    (hoffset : f.offset < 2 ^ 64) (hlen : slices.flatten.length < 2 ^ 63) :
    ∃ filled n, Runs (f.readSlices slices) [] d (n, filled, { f with offset := f.offset + n }) d ∧
      n = min slices.flatten.length ((g.contents d t).drop f.offset).length ∧
      filled.map List.length = slices.map List.length ∧
      filled.flatten = filledFrom ((g.contents d t).drop f.offset) slices.flatten := by
  induction slices generalizing f with
  | nil => exact ⟨[], 0, Runs.ret _, by simp, rfl, by simp [filledFrom]⟩
  | cons slice rest ih =>
    rw [flatten_cons, length_append] at hlen ⊢
    have hslice : 0 < slice.length := length_pos_iff.mpr (hne slice mem_cons_self)
    have hread := readAt_filled h ht slice hoffset (by omega)
    have hmax := contents_length_le h ht
    have hleft : ((g.contents d t).drop f.offset).length = (g.contents d t).length - f.offset := length_drop
    rw [← hf] at hread
    by_cases hend : ((g.contents d t).drop f.offset).length = 0
    · rw [length_eq_zero_iff.mp hend, filledFrom_nil, length_nil, Nat.min_zero] at hread
      rw [length_eq_zero_iff.mp hend, filledFrom_nil, length_nil, Nat.min_zero]
      refine ⟨slice :: rest, 0, Runs.bind hread ?_, rfl, rfl, rfl⟩
      dsimp only
      rw [if_pos rfl]
      exact Runs.ret _
    · generalize hn : min slice.length ((g.contents d t).drop f.offset).length = n at hread
      have hpos : n ≠ 0 := by omega
      have hoffset' : f.offset + n < 2 ^ 64 := by omega
      obtain ⟨filled, k, hrun, hk, hlens, hflat⟩ := ih (f := { f with offset := f.offset + n }) hf
        (fun b hb => hne b (mem_cons_of_mem _ hb)) hoffset' (by omega)
      dsimp only at hk hflat
      rw [← drop_drop] at hk hflat
      refine ⟨filledFrom ((g.contents d t).drop f.offset) slice :: filled, n + k, Runs.bind hread ?_, ?_, ?_, ?_⟩
      · dsimp only
        rw [if_neg hpos]
        refine Runs.bind hrun ?_
        dsimp only
        rw [Nat.add_assoc]
        exact Runs.ret _
      · rw [hk, length_drop]
        omega
      · rw [map_cons, map_cons, hlens, filledFrom_length]
      · rw [flatten_cons, hflat, filledFrom_append, hn]

/-- `read_all` ends once its turns have covered the rest of the file. -/
theorem readAllLoop_runs (hf : f.inode = g.handle t) (hoffset : f.offset < 2 ^ 64)
    {fuel : Nat} (hfuel : ((g.contents d t).drop f.offset).length + 512 ≤ 512 * fuel) {buffer : List UInt8}
    (hbuffer : buffer.length = 512) :
    Runs (f.readAllLoop fuel buffer) [] d ((g.contents d t).drop f.offset,
      { f with offset := f.offset + ((g.contents d t).drop f.offset).length }) d := by
  induction fuel generalizing f buffer with
  | zero => omega
  | succ fuel ih =>
    have hread := readAt_filled h ht buffer hoffset (by omega)
    have hmax := contents_length_le h ht
    have hleft : ((g.contents d t).drop f.offset).length = (g.contents d t).length - f.offset := length_drop
    rw [← hf, hbuffer] at hread
    refine Runs.bind hread ?_
    dsimp only
    by_cases hend : ((g.contents d t).drop f.offset).length = 0
    · rw [hend, Nat.min_zero, if_pos rfl, length_eq_zero_iff.mp hend]
      exact Runs.ret _
    · generalize hn : min 512 ((g.contents d t).drop f.offset).length = n
      have hpos : n ≠ 0 := by omega
      have hrest : ((g.contents d t).drop (f.offset + n)).length = ((g.contents d t).drop f.offset).length - n := by
        rw [← drop_drop, length_drop]
      have hrun := ih (f := { f with offset := f.offset + n }) hf (by dsimp only; omega) (by rw [hrest]; omega)
        ((filledFrom_length ((g.contents d t).drop f.offset) buffer).trans hbuffer)
      have hfirst : (filledFrom ((g.contents d t).drop f.offset) buffer).take n = ((g.contents d t).drop f.offset).take n := by
        rw [filledFrom, hbuffer, take_append_of_le_length, take_take]
        · congr 1
          omega
        · rw [length_take]
          omega
      rw [if_neg hpos]
      refine Runs.bind hrun ?_
      dsimp only
      have hoff : f.offset + n + (((g.contents d t).drop f.offset).length - n) =
          f.offset + ((g.contents d t).drop f.offset).length := by omega
      rw [hrest, hoff, hfirst, ← drop_drop, take_append_drop]
      exact Runs.ret _

end

/-! ## Every open file -/

variable {dev : Nat} {calls : FsOp → Prop} {s : Mount}

/-- An open file at any offset, on any inode in use, and a buffer in slices that are not empty. A write of
more than nothing is one `write_at` of the whole, within capacity, and refused on a directory like that; a
read is one `read_at` into the whole; `read_all` gives the contents from the offset on. -/
theorem split_independent (hs : Reachable dev g calls s) (t : Nat) (ht : t < 4096 * g.inodeBitmapBlocks)
    (hbit : g.inodeBitmap.bit (s.disk dev) t = true) (f : OSInode) (hf : f.inode = g.handle t) (slices : List (List UInt8))
    (hne : ∀ b ∈ slices, b ≠ []) :
    (slices ≠ [] → (g.inodeOf (s.disk dev) t).isFile = true → f.offset + slices.flatten.length ≤ 16540 * 512 →
      DiskInode.totalBlocks (UInt32.ofNat (f.offset + slices.flatten.length)) -
        DiskInode.totalBlocks (g.inodeOf (s.disk dev) t).size ≤ g.free (s.disk dev) →
      ∃ c c', runCache dev (f.write s.fs ⟨slices⟩) s.session =
          some ((slices.flatten.length, { f with offset := f.offset + slices.flatten.length }), c) ∧
        runCache dev (f.inode.writeAt s.fs f.offset slices.flatten) s.session = some (slices.flatten.length, c') ∧
        g.contents (c.mgr.view dev) t = overwrite (g.contents (s.disk dev) t) f.offset slices.flatten ∧
        g.contents (c'.mgr.view dev) t = overwrite (g.contents (s.disk dev) t) f.offset slices.flatten ∧
        OthersKept g (s.disk dev) (c.mgr.view dev) t ∧ OthersKept g (s.disk dev) (c'.mgr.view dev) t) ∧
    (slices ≠ [] → (g.inodeOf (s.disk dev) t).isFile = false →
      runCache dev (f.write s.fs ⟨slices⟩) s.session = none ∧
        runCache dev (f.inode.writeAt s.fs f.offset slices.flatten) s.session = none) ∧
    runCache dev (f.write s.fs ⟨[]⟩) s.session = some ((0, f), s.session) ∧
    (f.offset < 2 ^ 64 → slices.flatten.length < 2 ^ 63 →
      ∃ n filled c c', runCache dev (f.read ⟨slices⟩) s.session = some ((n, filled, { f with offset := f.offset + n }), c) ∧
        runCache dev (f.inode.readAt f.offset slices.flatten) s.session = some ((n, filled.flatten), c') ∧
        filled.map List.length = slices.map List.length ∧
        c.mgr.view dev = s.disk dev ∧ c'.mgr.view dev = s.disk dev) ∧
    (f.offset < 2 ^ 64 → ∀ fuel, ((g.contents (s.disk dev) t).drop f.offset).length + 512 ≤ 512 * fuel →
      ∃ c, runCache dev (f.readAll fuel) s.session = some (((g.contents (s.disk dev) t).drop f.offset,
          { f with offset := f.offset + ((g.contents (s.disk dev) t).drop f.offset).length }), c) ∧
        c.mgr.view dev = s.disk dev) := by
  obtain ⟨m, hm⟩ := hs.mounted
  have htm := (hm.inv.allocated ht).mp hbit
  rw [hm.fs]
  refine ⟨?_, ?_, rfl, ?_, ?_⟩
  · intro hsome hfile hend hfree
    have hroom : g.RoomFor (s.disk dev) (g.inodeOf (s.disk dev) t) (f.offset + slices.flatten.length) := ⟨hend, hfree⟩
    obtain ⟨d₁, hrun₁, hw₁⟩ := writeSlices_runs hm.inv htm hfile hf hne hroom
    rw [written, if_neg hsome] at hw₁
    have hflat : slices.flatten ≠ [] := by
      obtain ⟨b, hb⟩ := exists_mem_of_ne_nil slices hsome
      intro hnil
      exact hne b hb (flatten_eq_nil_iff.mp hnil b hb)
    obtain ⟨d₂, hrun₂, hw₂⟩ := writeAt_wrote hm.inv htm hfile hflat hroom
    rw [← hf] at hrun₂
    obtain ⟨c, hc, hidle⟩ := hm.idle.run (OSInode.writeSlices_fits _ _ _) hrun₁
    obtain ⟨c', hc', hidle'⟩ := hm.idle.run (Inode.writeAt_fits _ _ _ _) hrun₂
    refine ⟨c, c', hc, hc', ?_⟩
    rw [hidle.view, hidle'.view]
    exact ⟨hw₁.contents, hw₂.contents, hw₁.othersKept hm.inv, hw₂.othersKept hm.inv⟩
  · intro hsome hdir
    have hexec : ∀ buf, exec (f.inode.writeAt g.efs f.offset buf) ⟨s.disk dev, []⟩ = none := by
      intro buf
      rw [hf]
      exact exec_writeAt_dir hdir
    refine ⟨?_, ?_⟩
    · cases hrun : runCache dev (f.write g.efs ⟨slices⟩) s.session with
      | none => rfl
      | some r =>
        obtain ⟨x, hx, -⟩ := exec_of_runCache hm.idle hrun
        obtain ⟨slice, rest, rfl⟩ := exists_cons_of_ne_nil hsome
        rw [OSInode.write, OSInode.writeSlices, exec_bind, hexec] at hx
        cases hx
    · cases hrun : runCache dev (f.inode.writeAt g.efs f.offset slices.flatten) s.session with
      | none => rfl
      | some r =>
        obtain ⟨x, hx, -⟩ := exec_of_runCache hm.idle hrun
        rw [hexec] at hx
        cases hx
  · intro hoffset hlen
    obtain ⟨filled, n, hrun, hn, hlens, hflat⟩ := readSlices_runs hm.inv htm hf hne hoffset hlen
    have hread := readAt_filled hm.inv htm slices.flatten hoffset hlen
    rw [← hf, ← hn, ← hflat] at hread
    obtain ⟨c, hc, hidle⟩ := hm.idle.run (OSInode.readSlices_fits _ _) hrun
    obtain ⟨c', hc', hidle'⟩ := hm.idle.run (Inode.readAt_fits _ _ _) hread
    exact ⟨n, filled, c, c', hc, hc', hlens, hidle.view, hidle'.view⟩
  · intro hoffset fuel hfuel
    obtain ⟨c, hc, hidle⟩ := hm.idle.run (OSInode.readAllLoop_fits _ _ _)
      (readAllLoop_runs hm.inv htm hf hoffset hfuel length_replicate)
    exact ⟨c, hc, hidle.view⟩

/-- Two bytes in two slices, to the first file of a device of 5123 blocks. -/
theorem split_independent_5123 : ∃ (h : Accepted 5123 1) (s : Mount) (f : OSInode) (c c' : Session),
    Reachable 0 (ofSizes 5123 1 h) (fun _ => True) s ∧ f.inode = (ofSizes 5123 1 h).handle 1 ∧
      runCache 0 (f.write s.fs ⟨[[7], [8]]⟩) s.session = some ((2, { f with offset := 2 }), c) ∧
      runCache 0 (f.inode.writeAt s.fs 0 [7, 8]) s.session = some (2, c') := by
  have h := small_accepted
  obtain ⟨s, hf⟩ := small_file h
  have hroom := hf.room (small_area h) (show 0 + 2 ≤ 8468480 by decide) (by decide)
  obtain ⟨hwrite, -⟩ := split_independent hf.reach 1 hf.lt hf.bit (.new 2 ((ofSizes 5123 1 h).handle 1)) rfl [[7], [8]] (by simp)
  obtain ⟨c, c', hc, hc', -⟩ := hwrite (by simp) hf.isFile (show 0 + 2 ≤ 16540 * 512 by decide) hroom.blocks
  exact ⟨h, s, _, c, c', hf.reach, rfl, hc, hc'⟩

/-- An empty write at offset 100 of the empty file: without slices nothing happens, and `write_at` makes the
file 100 bytes long. -/
theorem empty_write_differs : ∃ (h : Accepted 5123 1) (s : Mount) (f : OSInode) (c : Session),
    Reachable 0 (ofSizes 5123 1 h) (fun _ => True) s ∧ f.inode = (ofSizes 5123 1 h).handle 1 ∧ f.offset = 100 ∧
      runCache 0 (f.write s.fs ⟨[]⟩) s.session = some ((0, f), s.session) ∧
      (ofSizes 5123 1 h).contents (s.session.mgr.view 0) 1 = [] ∧
      runCache 0 (f.inode.writeAt s.fs f.offset []) s.session = some (0, c) ∧
      ((ofSizes 5123 1 h).contents (c.mgr.view 0) 1).length = 100 := by
  have h := small_accepted
  obtain ⟨s, hf⟩ := small_file h
  have hempty : (ofSizes 5123 1 h).contents (s.disk 0) 1 = [] := contents_reset hf.file
  have hm := hf.mounted
  have hroom := hf.room (small_area h) (show 100 ≤ 8468480 by decide) (by decide)
  have hown : WritesOwnBlocks (ofSizes 5123 1 h) (s.disk 0) 1 100 [] := by
    refine writesOwnBlocks hm.inv Nat.one_lt_two hf.isFile hroom ?_
    rw [hf.file]
    decide
  obtain ⟨d', trace, htraced, -⟩ := hown
  have hrun : Runs (((ofSizes 5123 1 h).handle 1).writeAt (ofSizes 5123 1 h).efs 100 []) [] (s.disk 0) 0 d' := by
    rw [← Inode.writeAtTraced_fst]
    exact Runs.bind htraced (Runs.ret _)
  have hw := writeAt_wrote_nil hm.inv Nat.one_lt_two hf.isFile hroom hrun
  obtain ⟨c, hc, hidle⟩ := hm.idle.run (Inode.writeAt_fits _ _ _ _) hrun
  refine ⟨h, s, { OSInode.new 2 ((ofSizes 5123 1 h).handle 1) with offset := 100 }, c, hf.reach, rfl, rfl, rfl, hempty, ?_, ?_⟩
  · rw [hm.fs]
    exact hc
  · rw [hidle.view, hw.contents, hempty]
    rfl

end

end TCore.Kernel
