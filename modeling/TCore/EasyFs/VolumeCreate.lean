/-
  TCore.EasyFs.VolumeCreate — new inodes: `create_inode` on a volume.

  - `FsInv.newInode`: taking the next inode and initialising its slot gives a volume with one
    inode more, which has no blocks; every other inode is as it was.
  - `addInode_volume`: `create_inode`, once the name is not found, also appends the entry to the
    directory, and gives back the new inode's handle.
-/

import TCore.EasyFs.Directory

namespace TCore.EasyFs

open TCore.Lib
open Role (data ind1 ind2 row)
open DiskInode UInt32 DirEntry EasyFs.Geometry List Inode Bitmap

/-- The disk after the next inode `m` is taken and initialised. -/
def Geometry.withInode (g : Geometry) (d : Disk) (m : Nat) (t : DiskInodeType) : Disk :=
  g.setInodeOf (g.inodeBitmap.put d m true) m (DiskInode.reset t)

section
variable {g : Geometry} {d : Disk} {m i : Nat} {ty : DiskInodeType}

theorem withInode_other (hm : m < 4096 * g.inodeBitmapBlocks) {x : Nat} (hx : x = 0 ∨ 1 + 1025 * g.inodeBitmapBlocks ≤ x) :
    g.withInode d m ty x = d x := by
  rw [withInode, setInodeOf_ne _ (by simp only [handle, inodeStart]; omega)]
  refine put_ne _ _ _ ?_
  simp only [inodeBitmap]
  omega

theorem inodeOf_withInode : g.inodeOf (g.withInode d m ty) m = reset ty := inodeOf_setInodeOf _

section

variable (hm : m < 4096 * g.inodeBitmapBlocks)
include hm

/-- Taking an inode leaves the slots alone. -/
theorem inodeOf_put (v : Bool) :
    g.inodeOf (g.inodeBitmap.put d m v) i = g.inodeOf d i := by
  rw [inodeOf, put_ne]
  · rfl
  · simp only [inodeBitmap, inodeStart]
    omega

theorem inodeOf_withInode_ne (hi : i ≠ m) :
    g.inodeOf (g.withInode d m ty) i = g.inodeOf d i := by
  rw [withInode, inodeOf_setInodeOf_ne _ hi, inodeOf_put hm]

theorem blockOf_withInode {ino : DiskInode} {n : Nat}
    (h : ∀ r ∈ roles n, g.dataStart ≤ (blockOf d ino r).toNat) :
    ∀ r ∈ roles n, blockOf (g.withInode d m ty) ino r = blockOf d ino r := by
  refine blockOf_frame (fun _ _ _ => rfl) fun r hr _ => withInode_other hm (Or.inr ?_)
  have := h r hr
  rw [dataStart] at this
  omega

end

theorem FsInv.block_ge (h : FsInv g d m) (hi : i < m) : ∀ r ∈ g.rolesAt d i, g.dataStart ≤ g.blockAt d i r := by
  intro r hr
  obtain ⟨k, -, hb, -⟩ := h.owned i hi r hr
  omega

variable (ty) in
/-- An inode that was there keeps its blocks and its bytes. -/
theorem withInode_kept (h : FsInv g d m) (hm : m < 4096 * g.inodeBitmapBlocks) (hi : i < m) :
    g.inodeOf (g.withInode d m ty) i = g.inodeOf d i ∧
      (∀ r ∈ g.rolesAt d i, g.blockAt (g.withInode d m ty) i r = g.blockAt d i r) ∧
      ∀ o < 512 * (g.inodeOf d i).dataBlocks, byteAt (g.withInode d m ty) (g.inodeOf d i) o = byteAt d (g.inodeOf d i) o := by
  have hino : g.inodeOf (g.withInode d m ty) i = g.inodeOf d i := inodeOf_withInode_ne hm (by omega)
  have hblk : ∀ r ∈ g.rolesAt d i, blockOf (g.withInode d m ty) (g.inodeOf d i) r = blockOf d (g.inodeOf d i) r :=
    blockOf_withInode hm (h.block_ge hi)
  refine ⟨hino, fun r hr => by rw [blockAt, hino, hblk r hr, blockAt], fun o ho => ?_⟩
  have hro : data (o / 512) ∈ g.rolesAt d i := data_mem_roles (by omega)
  have hge := h.block_ge hi _ hro
  rw [blockAt, dataStart] at hge
  rw [byteAt, hblk _ hro, withInode_other hm (by omega), byteAt]

variable (ty) in
theorem contents_withInode (h : FsInv g d m) (hm : m < 4096 * g.inodeBitmapBlocks) (hi : i < m) :
    g.contents (g.withInode d m ty) i = g.contents d i := by
  obtain ⟨hino, -, hbytes⟩ := withInode_kept ty h hm hi
  rw [contents, hino]
  refine contentsOf_eq (contentsOf_length d _) fun o ho => ?_
  rw [hbytes o (by rw [h.dataBlocks_eq hi]; omega), contents, contentsOf_getD, if_pos ho]

theorem used_withInode (hm : m < 4096 * g.inodeBitmapBlocks) {k : Nat} (hk : k < 4096 * g.dataBitmapBlocks) :
    g.used (g.withInode d m ty) k = g.used d k :=
  used_congr (fun _ hx => withInode_other hm (Or.inr hx.1)) hk

theorem inodeBit_withInode (hi : i < 4096 * g.inodeBitmapBlocks) :
    g.inodeBitmap.bit (g.withInode d m ty) i = if i = m then true else g.inodeBitmap.bit d i := by
  rw [← bit_put g.inodeBitmap d (k := m) true (by simp) i]
  refine inodeBitmap_congr (fun x _ h2 => setInodeOf_ne _ ?_) hi
  simp only [handle]
  omega

theorem dataBlocks_reset : (reset ty).dataBlocks = 0 := by
  show dataBlocksOf 0 = 0
  decide

variable (ty) in
theorem FsInv.newInode (h : FsInv g d m) (hm : m < 4096 * g.inodeBitmapBlocks) (h32 : m < 2 ^ 32) :
    FsInv g (g.withInode d m ty) (m + 1) := by
  have hnew : g.rolesAt (g.withInode d m ty) m = [] := by
    rw [rolesAt, inodeOf_withInode, dataBlocks_reset]
    rfl
  have hroles : ∀ {i}, i < m → g.rolesAt (g.withInode d m ty) i = g.rolesAt d i := by
    intro i hi
    rw [rolesAt, (withInode_kept ty h hm hi).1, rolesAt]
  have hcov := g.covered
  refine ⟨?_, hm, h32, ?_, ?_, ?_, ?_, ?_, ?_, ?_⟩
  · rw [withInode_other hm (Or.inl rfl)]
    exact h.super
  · intro i hi
    rw [inodeBit_withInode hi]
    by_cases him : i = m
    · simp [him]
    · rw [if_neg him, h.inodes i hi, decide_eq_decide]
      omega
  · intro i hi
    by_cases him : i = m
    · rw [him, inodeOf_withInode]
      exact Nat.zero_le _
    · rw [inodeOf_withInode_ne hm him]
      exact h.size i (by omega)
  · intro i hi r hr
    by_cases him : i = m
    · rw [him, hnew] at hr
      cases hr
    · have hi' : i < m := by omega
      rw [hroles hi'] at hr
      obtain ⟨k, hk, hb, hu⟩ := h.owned i hi' r hr
      exact ⟨k, hk, by rw [(withInode_kept ty h hm hi').2.1 r hr, hb], by rw [used_withInode hm (by omega), hu]⟩
  · intro i hi j hj r hr s hs e
    by_cases him : i = m
    · rw [him, hnew] at hr
      cases hr
    · by_cases hjm : j = m
      · rw [hjm, hnew] at hs
        cases hs
      · have hi' : i < m := by omega
        have hj' : j < m := by omega
        rw [hroles hi'] at hr
        rw [hroles hj'] at hs
        rw [(withInode_kept ty h hm hi').2.1 r hr, (withInode_kept ty h hm hj').2.1 s hs] at e
        exact h.inj i hi' j hj' r hr s hs e
  · intro k hk hu
    rw [used_withInode hm hk] at hu
    obtain ⟨i, hi, r, hr, hb⟩ := h.cover k hk hu
    exact ⟨i, by omega, r, by rw [hroles hi]; exact hr, by rw [(withInode_kept ty h hm hi).2.1 r hr, hb]⟩
  · intro k hk hu
    rw [used_withInode hm (by omega)] at hu
    rw [withInode_other hm (Or.inr (by simp only [dataStart]; omega)), h.zero k hk hu]
  · intro i hi o h1 h2
    by_cases him : i = m
    · rw [him, inodeOf_withInode, dataBlocks_reset] at h2
      omega
    · have hi' : i < m := by omega
      obtain ⟨hino, -, hbytes⟩ := withInode_kept ty h hm hi'
      rw [hino] at h1 h2 ⊢
      rw [hbytes o h2]
      exact h.tail i hi' o h1 h2

theorem free_withInode (hm : m < 4096 * g.inodeBitmapBlocks) : g.free (g.withInode d m ty) = g.free d := by
  have hcov := g.covered
  have : g.freeBlocks (g.withInode d m ty) = g.freeBlocks d := by
    ext k
    rw [mem_freeBlocks, mem_freeBlocks]
    refine and_congr_right fun hk => ?_
    rw [used_withInode hm (by omega)]
  rw [free, this, free]

variable (ty) in
/-- The slot of the new inode, initialised by way of its handle. -/
theorem initInode_runs (hm : m < 4096 * g.inodeBitmapBlocks) (h32 : m < 2 ^ 32) :
    Runs ((g.efs.inodeAt (ofNat m)).modifyDiskInode fun _ => pure ((), reset ty)) []
      (g.inodeBitmap.put d m true) () (g.withInode d m ty) := by
  rw [inodeAt_ofNat hm h32]
  exact modifyDiskInode_runs (Runs.ret _) rfl

variable {t : Nat} {name : List UInt8}

variable (ty) in
/-- The directory's inode grown by one entry, with the new inode already there. -/
theorem growDir (h : FsInv g d m) (ht : t < m) (hm : m < 4096 * g.inodeBitmapBlocks) (h32 : m < 2 ^ 32)
    (hmax : (g.contents d t).length + 32 ≤ 8468480)
    (hfree : totalBlocks (ofNat ((g.contents d t).length + 32)) -
      totalBlocks (g.inodeOf d t).size ≤ g.free d) :
    ∃ ks ino' d', Runs (increaseSize g.efs (ofNat ((g.contents d t).length + 32)) (g.inodeOf d t))
        [(g.handle t).blockId] (g.withInode d m ty) ino' d' ∧
      ino'.size.toNat = (g.contents d t).length + 32 ∧ Grew g (g.withInode d m ty) t ks ino' d' := by
  have hino := (withInode_kept ty h hm ht).1
  have hnew : (ofNat ((g.contents d t).length + 32)).toNat = (g.contents d t).length + 32 :=
    UInt32.toNat_ofNat_of_lt' (by simp only [UInt32.size]; omega)
  obtain ⟨ks, ino', d', hrun, hsize, hg⟩ := increaseSize_grew (ofNat ((g.contents d t).length + 32))
    (h.newInode ty hm h32) (show t < m + 1 by omega) (by rw [hnew]; exact hmax)
    (by rw [hino, free_withInode hm]; exact hfree)
  rw [hino] at hrun
  refine ⟨ks, ino', d', hrun, ?_, hg⟩
  rw [hsize, hnew, hino, contents_length]
  exact max_eq_right (by omega)

/-- The second closure of `create_inode`: the directory gets the entry. -/
def addDirent (fs : EasyFileSystem) (name : List UInt8) (newInodeId : UInt32) (rootInode : DiskInode) : Fs (Unit × DiskInode) := do
  let fileCount := rootInode.size.toNat / 32
  let grown ← increaseSize fs (UInt32.ofNat (32 * (fileCount + 1))) rootInode
  let dirent ← Prog.unwrap (DirEntry.new name newInodeId)
  let _ ← grown.writeAt (32 * fileCount) dirent.asBytes
  pure ((), grown)

theorem addInode_eq (fs : EasyFileSystem) (self : Inode) (name : List UInt8) (ty : DiskInodeType) :
    self.addInode fs name ty = (fs.allocInode >>= fun newInodeId =>
      (fs.inodeAt newInodeId).modifyDiskInode (fun _ => pure ((), reset ty)) >>= fun _ =>
        self.modifyDiskInode (addDirent fs name newInodeId) >>= fun _ =>
          blockCacheSyncAll >>= fun _ => pure (fs.inodeAt newInodeId)) := rfl

/-- Once the directory has grown, the entry is written behind the others. -/
theorem addDirent_runs {fs : EasyFileSystem} {ino ino' : DiskInode} {L : List Nat} {d1 d2 : Disk} {id : UInt32}
    (hgrow : Runs (increaseSize fs (ofNat (32 * (ino.size.toNat / 32 + 1))) ino) L d1 ino' d2)
    (hp : Placed L d2 ino' ino'.dataBlocks) (hmax : ino'.size.toNat ≤ 8468480)
    (hsize : ino'.size.toNat = 32 * (ino.size.toNat / 32 + 1)) {e : DirEntry} (he : new name id = some e) :
    ∃ d3, Runs (addDirent fs name id ino) L d1 ((), ino') d3 ∧
      Written d2 ino' ino'.dataBlocks (32 * (ino.size.toNat / 32)) e.asBytes d3 := by
  have hlen := asBytes_length e
  obtain ⟨d3, hwrite, hw⟩ := writeAt_runs hp (size_le_blocks hmax) (32 * (ino.size.toNat / 32))
    (show e.asBytes ≠ [] from ne_nil_of_length_pos (by omega)) (by omega)
  refine ⟨d3, ?_, hw⟩
  unfold addDirent
  simp only [he]
  exact Runs.bind hgrow (Runs.bind (Runs.unwrap e) (Runs.bind hwrite (Runs.ret _)))

section

variable (h : FsInv g d m) (ht : t < m) (hm : m < 4096 * g.inodeBitmapBlocks)
include h ht hm

section

variable (h32 : m < 2 ^ 32) (hwhole : (g.contents d t).length % 32 = 0) (hmax : (g.contents d t).length + 32 ≤ 8468480)
include h32 hwhole hmax

theorem addInode_volume
    (hfree : totalBlocks (ofNat ((g.contents d t).length + 32)) -
      totalBlocks (g.inodeOf d t).size ≤ g.free d) {e : DirEntry} (he : new name (ofNat m) = some e) :
    ∃ d', Runs ((g.handle t).addInode g.efs name ty) [] d (g.handle m) d' ∧
      Replaced g (g.withInode d m ty) (m + 1) t d' ∧ (g.inodeOf d' t).type_ = (g.inodeOf d t).type_ ∧
      g.contents d' t = g.contents d t ++ e.asBytes := by
  have h1 : FsInv g (g.withInode d m ty) (m + 1) := h.newInode ty hm h32
  have ht1 : t < m + 1 := by omega
  have hino := (withInode_kept ty h hm ht).1
  have hcon := contents_withInode ty h hm ht
  obtain ⟨ks, ino', d2, hrun1, hsize, hg⟩ := growDir ty h ht hm h32 hmax hfree
  rw [contents_length] at hwhole hmax hfree hrun1 hsize
  generalize hd1 : g.withInode d m ty = d1 at *
  have hcount : 32 * ((g.inodeOf d t).size.toNat / 32 + 1) = (g.inodeOf d t).size.toNat + 32 := by omega
  have hstart : 32 * ((g.inodeOf d t).size.toNat / 32) = (g.inodeOf d t).size.toNat := by omega
  have hlen := asBytes_length e
  obtain ⟨d3, hrun2, hw⟩ := addDirent_runs (by rw [hcount]; exact hrun1) (hg.placed h1 ht1) hg.size
    (by rw [hcount]; exact hsize) he
  rw [hstart] at hw
  have hsame : d3 (g.handle t).blockId = d1 (g.handle t).blockId := by
    rw [hw.other _ fun k hk e => ?_, hg.low h1 ht1 (h1.handle_lt ht1) (slot_not_inDataBitmap (by omega))]
    obtain ⟨k', -, hb', -⟩ := hg.owned h1 ht1 (data_mem_roles hk)
    have := h1.handle_lt ht1
    omega
  have hover : overwrite (g.contents d1 t) (g.inodeOf d t).size.toNat e.asBytes = g.contents d t ++ e.asBytes := by
    have hl := contents_length g d t
    rw [hcon, overwrite, ← hl, Nat.sub_self, replicate_zero, append_nil, take_length,
      drop_of_length_le (by omega), append_nil]
  refine ⟨g.setInodeOf d3 t ino', ?_, (hg.finish h1 ht1 hw (by omega)).1, ?_, ?_⟩
  · rw [addInode_eq]
    refine Runs.bind (allocInode_runs h hm) (Runs.bind (initInode_runs ty hm h32) ?_)
    rw [hd1, inodeAt_ofNat hm h32]
    refine Runs.bind (modifyDiskInode_runs (a := ()) ?_ hsame) (Runs.bind (Runs.sync (Runs.ret _)) (Runs.ret _))
    rw [hino]
    exact hrun2
  · rw [inodeOf_setInodeOf, hg.kind, hino]
  · refine (hg.contents_finish h1 ht1 hw ?_).trans hover
    rw [hino, hlen, hsize]
    exact (max_eq_right (by omega)).symm

/-- A name that does not fit into an entry stops `create_inode` in `DirEntry::new`. -/
theorem addInode_panics
    (hfree : totalBlocks (ofNat ((g.contents d t).length + 32)) -
      totalBlocks (g.inodeOf d t).size ≤ g.free d) (hname : new name (ofNat m) = none) :
    exec ((g.handle t).addInode g.efs name ty) ⟨d, []⟩ = none := by
  have hino := (withInode_kept ty h hm ht).1
  obtain ⟨ks, ino', d2, hrun1, -, -⟩ := growDir ty h ht hm h32 hmax hfree
  rw [contents_length] at hwhole hrun1
  have hcount : 32 * ((g.inodeOf d t).size.toNat / 32 + 1) = (g.inodeOf d t).size.toNat + 32 := by omega
  have hinner : exec (increaseSize g.efs (ofNat (32 * ((g.inodeOf d t).size.toNat / 32 + 1))) (g.inodeOf d t) >>=
      fun grown => Prog.unwrap (new name (ofNat m)) >>= fun dirent =>
        grown.writeAt (32 * ((g.inodeOf d t).size.toNat / 32)) dirent.asBytes >>= fun _ => pure ((), grown))
      ⟨g.withInode d m ty, [(g.handle t).blockId]⟩ = none := by
    rw [hcount, hrun1.exec_bind, hname]
    rfl
  rw [addInode, (allocInode_runs h hm).exec_bind, (initInode_runs ty hm h32).exec_bind, exec_bind,
    modifyDiskInode, exec_modify_none (by simp)]
  · rfl
  · rw [exec_bind]
    have hino' : (g.withInode d m ty (g.handle t).blockId).inode (g.handle t).blockOffset = g.inodeOf d t := hino
    rw [hino']
    exact (congrArg (fun o => Option.bind o _) hinner).trans rfl

end

/-- In a directory that fills all the blocks a file can have, `increase_size` stops. -/
theorem addInode_full (h32 : m < 2 ^ 32)
    (hfull : (g.contents d t).length = 8468480) : exec ((g.handle t).addInode g.efs name ty) ⟨d, []⟩ = none := by
  have hino : (g.withInode d m ty (g.handle t).blockId).inode (g.handle t).blockOffset = g.inodeOf d t :=
    (withInode_kept ty h hm ht).1
  have hold := h.dataBlocks_le ht
  rw [contents_length] at hfull
  rw [addInode, (allocInode_runs h hm).exec_bind, (initInode_runs ty hm h32).exec_bind, exec_bind,
    modifyDiskInode, exec_modify_none (by simp)]
  · rfl
  · rw [exec_bind, hino, exec_bind, hfull, increaseSize, if_neg (by rw [lt_iff_toNat_lt, hfull]; decide)]
    rw [exec_bind_none (fun n s => exec_bind_none (fun v s => increaseSize_overflows _ hold (by decide) v s) s)]
    rfl

end

end

end TCore.EasyFs
