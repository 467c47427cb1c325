/-
  TCore.EasyFs.VolumeWrite — `write_at` and `clear` on a volume.

  - `Grew.finish`: growing an inode, writing inside the new size and putting the inode back into
    its slot replaces that inode and nothing else.
  - `writeAt_volume`: `write_at` keeps the invariant, answers the length of the buffer and
    leaves the file with the buffer written over its old bytes, zeros filling a gap.
  - `clear_volume`: `clear` keeps the invariant and leaves the file empty.
-/

import TCore.EasyFs.VolumeGrow

namespace TCore.EasyFs

open TCore.Lib
open Role (data ind1 ind2 row)
open UInt32 DiskInode Runs List

namespace Geometry

/-- The bytes of inode `i`. -/
def contents (g : Geometry) (d : Disk) (i : Nat) : List UInt8 := contentsOf d (g.inodeOf d i)

variable {g : Geometry} {d d' : Disk} {t : Nat}

/-- The inode bitmap and the inode slots lie below the data bitmap. -/
theorem inodeBitmap_congr (h : ∀ x, 1 ≤ x → x < g.inodeStart → d' x = d x) {i : Nat}
    (hi : i < 4096 * g.inodeBitmapBlocks) : g.inodeBitmap.bit d' i = g.inodeBitmap.bit d i := by
  unfold Bitmap.bit
  have h1 : g.inodeBitmap.startBlockId + i / 4096 < g.inodeStart := by
    simp only [inodeBitmap, inodeStart]
    omega
  rw [h _ (by simp only [inodeBitmap]; omega) h1]

/-- An inode whose blocks a slot write does not touch. -/
theorem blockOf_setInodeOf {ino ino' : DiskInode} {n : Nat}
    (h : ∀ r ∈ roles n, (blockOf d ino r).toNat ≠ (g.handle t).blockId) :
    ∀ r ∈ roles n, blockOf (g.setInodeOf d t ino') ino r = blockOf d ino r :=
  blockOf_frame (fun _ _ _ => rfl) fun r hr _ => setInodeOf_ne ino' (h r hr)

theorem slot_not_inDataBitmap (ht : t < 4096 * g.inodeBitmapBlocks) : ¬g.inDataBitmap (g.handle t).blockId := by
  intro hb
  have := hb.1
  simp only [handle, inodeStart] at this
  omega

theorem used_setInodeOf {k : Nat} (ino : DiskInode) (ht : t < 4096 * g.inodeBitmapBlocks) (hk : k < 4096 * g.dataBitmapBlocks) :
    g.used (g.setInodeOf d t ino) k = g.used d k := by
  refine used_congr (fun x hx => setInodeOf_ne ino ?_) hk
  rintro rfl
  exact slot_not_inDataBitmap ht hx

/-- Writing slot `t` of a disk whose blocks below the data area have changed in the data bitmap only. -/
theorem setInodeOf_low (ino : DiskInode) (ht : t < 4096 * g.inodeBitmapBlocks)
    (hlow : ∀ x < g.dataStart, ¬g.inDataBitmap x → d' x = d x) :
    g.setInodeOf d' t ino 0 = d 0 ∧
      (∀ i < 4096 * g.inodeBitmapBlocks, g.inodeBitmap.bit (g.setInodeOf d' t ino) i = g.inodeBitmap.bit d i) ∧
      ∀ i < 4096 * g.inodeBitmapBlocks, i ≠ t → g.inodeOf (g.setInodeOf d' t ino) i = g.inodeOf d i := by
  refine ⟨?_, fun i hi => inodeBitmap_congr (fun x h1 h2 => ?_) hi, fun i hi hne => ?_⟩
  · rw [setInodeOf_ne _ (by simp only [handle, inodeStart]; omega)]
    refine hlow 0 (by simp only [dataStart]; omega) fun hb => ?_
    have := hb.1
    omega
  · simp only [inodeStart] at h2
    rw [setInodeOf_ne _ (by simp only [handle, inodeStart]; omega)]
    refine hlow x (by simp only [dataStart]; omega) fun hb => ?_
    have := hb.1
    omega
  · rw [inodeOf_setInodeOf_ne _ hne, inodeOf, hlow]
    · rfl
    · simp only [inodeStart, dataStart]; omega
    · exact slot_not_inDataBitmap hi

end Geometry

section
variable {g : Geometry} {d d1 d2 : Disk} {m t : Nat} {ks : List Nat} {ino' : DiskInode} {buf : List UInt8} {offset : Nat}

section

variable (hg : Grew g d t ks ino' d1) (h : FsInv g d m) (ht : t < m)
include hg h ht

section

variable (hw : Written d1 ino' ino'.dataBlocks offset buf d2)
include hw

/-- Writing data blocks and the slot moves no block of the inode. -/
theorem Grew.blockOf_finish :
    ∀ r ∈ roles ino'.dataBlocks, blockOf (g.setInodeOf d2 t ino') ino' r = blockOf d1 ino' r := by
  intro r hr
  have hslot := h.handle_lt ht
  rw [Geometry.blockOf_setInodeOf _ r hr, hw.kept r hr]
  intro s hs
  obtain ⟨k, -, hk, -⟩ := hg.owned h ht hs
  rw [hw.kept s hs]
  omega

/-- The slot is only written at the end. -/
theorem Grew.slot_kept : d2 (g.handle t).blockId = d (g.handle t).blockId := by
  have hslot := h.handle_lt ht
  have hroom := h.room
  rw [hw.other _ fun k hk e => ?_, hg.low h ht hslot (Geometry.slot_not_inDataBitmap (by omega))]
  obtain ⟨k', -, hb', -⟩ := hg.owned h ht (data_mem_roles hk)
  omega

theorem Grew.finish (hend : offset + buf.length ≤ ino'.size.toNat) :
    Replaced g d m t (g.setInodeOf d2 t ino') ∧
      ∀ o < 512 * ino'.dataBlocks, byteAt (g.setInodeOf d2 t ino') ino' o = (overwrite (g.contents d t) offset buf).getD o 0 := by
  have hslot := h.handle_lt ht
  have hroom := h.room
  have hblk := hg.blockOf_finish h ht hw
  generalize hd3 : g.setInodeOf d2 t ino' = d3 at *
  have hino : g.inodeOf d3 t = ino' := by rw [← hd3]; exact inodeOf_setInodeOf ino'
  have hroles : g.rolesAt d3 t = roles ino'.dataBlocks := by rw [Geometry.rolesAt, hino]
  have hat : ∀ r ∈ roles ino'.dataBlocks, g.blockAt d3 t r = (blockOf d1 ino' r).toNat := by
    intro r hr
    rw [Geometry.blockAt, hino, hblk r hr]
  -- below the data area only the slot and the data bitmap change
  have hdata : ∀ x < g.dataStart, d2 x = d1 x := by
    intro x hx
    refine hw.other x fun k hk e => ?_
    obtain ⟨k', -, hb, -⟩ := hg.owned h ht (data_mem_roles hk)
    omega
  have hlow : ∀ x < g.dataStart, ¬g.inDataBitmap x → d2 x = d x := fun x hx hb => by rw [hdata x hx, hg.low h ht hx hb]
  have hused : ∀ k < 4096 * g.dataBitmapBlocks, g.used d3 k = (g.used d k || decide (k ∈ ks)) := by
    intro k hk
    rw [← hg.bits k hk, ← hd3, Geometry.used_setInodeOf ino' (by omega) hk]
    exact Geometry.used_congr (fun x hx => hdata x hx.2) hk
  have hfar : ∀ k, k ∉ ks → (∀ s ∈ g.rolesAt d t, g.blockAt d t s ≠ g.dataStart + k) →
      d3 (g.dataStart + k) = d (g.dataStart + k) := by
    intro k hk hold
    have hne := fun {r} hr => hg.far h ht hk hold (r := r) hr
    rw [← hd3, setInodeOf_ne _ (by omega), hw.other _ fun i hi => hne (data_mem_roles hi)]
    exact hg.frame _ (fun hbm => by have := hbm.2; omega) fun r hr _ => hne hr
  have hbytes : ∀ o < 512 * ino'.dataBlocks, byteAt d3 ino' o = (overwrite (g.contents d t) offset buf).getD o 0 := by
    intro o ho
    have hro := data_mem_roles (k := o / 512) (n := ino'.dataBlocks) (by omega)
    have h2 : byteAt d3 ino' o = byteAt d2 ino' o := by
      obtain ⟨k, -, hk, -⟩ := hg.owned h ht hro
      rw [byteAt, byteAt, hblk _ hro, hw.kept _ hro, ← hd3, setInodeOf_ne _ (by omega)]
    rw [h2, hw.bytes o ho, hg.bytes h ht ho, overwrite_getD, Geometry.contents, contentsOf_getD]
  obtain ⟨hsuper, hinodes, hslots⟩ := Geometry.setInodeOf_low ino' (show t < 4096 * g.inodeBitmapBlocks by omega) hlow
  rw [hd3] at hsuper hinodes hslots
  refine ⟨⟨hsuper, hinodes, fun i hi hne => hslots i (by omega) hne, ?_, ?_, ?_, ?_, ?_, ?_, ?_⟩, hbytes⟩
  · intro k hk hu hold
    have hnot : k ∉ ks := fun hmem => by rw [(hg.fresh k hmem).2] at hu; cases hu
    exact ⟨hfar k hnot hold, by rw [hused k hk, hu, Bool.true_or]⟩
  · intro r hr
    rw [hroles] at hr
    obtain ⟨k, hk, hb, hu, hc⟩ := hg.owned h ht hr
    have hcov := g.covered
    refine ⟨k, hk, by rw [hat r hr]; exact hb, ?_, hc.imp And.left id⟩
    rw [hused k (by omega), ← hg.bits k (by omega), hu]
  · intro r hr s hs e
    rw [hroles] at hr hs
    rw [hat r hr, hat s hs] at e
    exact hg.inj h ht hr hs (UInt32.toNat_inj.mp e)
  · intro k hk hu
    rw [hused k hk, Bool.or_eq_true, decide_eq_true_eq] at hu
    rcases hu with hu | hmem
    · by_cases hold : ∀ s ∈ g.rolesAt d t, g.blockAt d t s ≠ g.dataStart + k
      · exact Or.inl ⟨hu, hold⟩
      · push Not at hold
        obtain ⟨s, hs, hb⟩ := hold
        obtain ⟨hs', hkept⟩ := hg.kept h ht hs
        exact Or.inr ⟨s, by rw [hroles]; exact hs', by rw [hat s hs', hkept]; exact hb⟩
    · obtain ⟨r, hr, hb⟩ := hg.exists_role hmem
      exact Or.inr ⟨r, by rw [hroles]; exact hr, by rw [hat r hr, hb, Geometry.blockId_toNat (hg.fresh k hmem).1]⟩
  · intro k hk hu
    have hcov := g.covered
    rw [hused k (by omega), Bool.or_eq_false_iff, decide_eq_false_iff_not] at hu
    rw [hfar k hu.2, h.zero k hk hu.1]
    intro s hs e
    obtain ⟨k', -, hb, hu'⟩ := h.owned t ht s hs
    rw [show k' = k by omega, hu.1] at hu'
    cases hu'
  · rw [hino]; exact hg.size
  · rw [hino]
    intro o h1 h2
    have := hg.larger
    rw [hbytes o h2, overwrite_getD, if_neg (by omega), Geometry.contents, contentsOf_getD, if_neg (by omega)]

/-- What a step on inode `t` leaves in it. -/
theorem Grew.contents_finish
    (hsize : ino'.size.toNat = max (g.inodeOf d t).size.toNat (offset + buf.length)) :
    g.contents (g.setInodeOf d2 t ino') t = overwrite (g.contents d t) offset buf := by
  have hbytes := (hg.finish h ht hw (by omega)).2
  have hmax := hg.size
  rw [Geometry.contents, inodeOf_setInodeOf]
  refine contentsOf_eq (by rw [overwrite_length, Geometry.contents, contentsOf_length, hsize]) fun o ho => hbytes o ?_
  rw [dataBlocks, dataBlocksOf_eq hmax]
  omega

end

/-- The three parts of `write_at`: grow, write, put the inode back. -/
theorem Grew.writeAt_runs {n : Nat} {l : List UInt8}
    (hfile : (g.inodeOf d t).isFile = true)
    (hrun1 : Runs (increaseSize g.efs (ofNat (offset + buf.length)) (g.inodeOf d t)) [(g.handle t).blockId] d ino' d1)
    (hrun2 : Runs (ino'.writeAt offset buf) [(g.handle t).blockId] d1 n d2) (hw : Written d1 ino' ino'.dataBlocks offset l d2) :
    Runs ((g.handle t).writeAt g.efs offset buf) [] d n (g.setInodeOf d2 t ino') := by
  refine bind (modifyDiskInode_runs ?_ (hg.slot_kept h ht hw)) (bind (sync (ret _)) (ret _))
  exact bind (assert hfile) (bind hrun1 (bind hrun2 (ret _)))

end

section

variable (h : FsInv g d m) (ht : t < m) (hfile : (g.inodeOf d t).isFile = true)
include h ht hfile

theorem writeAt_volume (hb : buf ≠ []) (hend : offset + buf.length ≤ 8468480)
    (hfree : totalBlocks (ofNat (offset + buf.length)) -
      totalBlocks (g.inodeOf d t).size ≤ g.free d) :
    ∃ d', Runs ((g.handle t).writeAt g.efs offset buf) [] d buf.length d' ∧ Replaced g d m t d' ∧
      (g.inodeOf d' t).type_ = (g.inodeOf d t).type_ ∧ g.contents d' t = overwrite (g.contents d t) offset buf := by
  have hnew : (ofNat (offset + buf.length)).toNat = offset + buf.length :=
    UInt32.toNat_ofNat_of_lt' (by simp only [UInt32.size]; omega)
  obtain ⟨ks, ino', d1, hrun1, hsize, hg⟩ := increaseSize_grew _ h ht (by rw [hnew]; exact hend) hfree
  rw [hnew] at hsize
  obtain ⟨d2, hrun2, hw⟩ := TCore.EasyFs.writeAt_runs (hg.placed h ht) (size_le_blocks hg.size) offset hb (by omega)
  refine ⟨g.setInodeOf d2 t ino', hg.writeAt_runs h ht hfile hrun1 hrun2 hw, (hg.finish h ht hw (by omega)).1, ?_,
    hg.contents_finish h ht hw hsize⟩
  rw [inodeOf_setInodeOf]
  exact hg.kind

/-- An empty `write_at` that returns has filled the file up to the offset, if anything. -/
theorem writeAt_volume_nil {n : Nat} {d' : Disk} (hend : offset ≤ 8468480)
    (hfree : totalBlocks (ofNat offset) - totalBlocks (g.inodeOf d t).size ≤ g.free d)
    (hrun : Runs ((g.handle t).writeAt g.efs offset []) [] d n d') :
    Replaced g d m t d' ∧ (g.inodeOf d' t).type_ = (g.inodeOf d t).type_ ∧
      g.contents d' t = overwrite (g.contents d t) offset [] := by
  have hnew : (UInt32.ofNat offset).toNat = offset := UInt32.toNat_ofNat_of_lt' (by simp only [UInt32.size]; omega)
  obtain ⟨ks, ino', d1, hrun1, hsize, hg⟩ := increaseSize_grew _ h ht (by rw [hnew]; exact hend) hfree
  rw [hnew] at hsize
  have hw := Written.nil d1 ino' ino'.dataBlocks offset
  -- the closure has run, and with it the empty write
  obtain ⟨k, u, hmod, -⟩ := exec_bind_some hrun
  obtain ⟨ino'', w, hclosure, -⟩ := exec_modifyDiskInode_some hmod
  rw [(assert hfile).exec_bind, length_nil, Nat.add_zero, hrun1.exec_bind] at hclosure
  obtain ⟨j, v, hwrite, -⟩ := exec_bind_some hclosure
  obtain ⟨rfl, rfl⟩ := exec_writeAt_nil hwrite
  obtain ⟨rfl, rfl⟩ := hrun.det (hg.writeAt_runs h ht hfile hrun1 hwrite hw)
  refine ⟨(hg.finish h ht hw (by rw [length_nil]; omega)).1, ?_, hg.contents_finish h ht hw hsize⟩
  rw [inodeOf_setInodeOf]
  exact hg.kind

end

theorem readAt_volume (h : FsInv g d m) (ht : t < m) (ho : offset < 2 ^ 64)
    (hb : buf.length < 2 ^ 63) : Runs ((g.handle t).readAt offset buf) [] d
      (min buf.length ((g.contents d t).length - offset), ((g.contents d t).drop offset).take buf.length ++
        buf.drop (min buf.length ((g.contents d t).length - offset))) d := by
  rw [Geometry.contents, contentsOf_length]
  exact read (by simp) (readAt_runs (h.placed_self ht) (h.size_le_dataBlocks ht) _ _ ho hb)

/-! ## Clearing -/

/-- The data blocks of inode `t`, numbered from the start of the data area. -/
def Geometry.blocksAt (g : Geometry) (d : Disk) (t : Nat) : List Nat :=
  (g.rolesAt d t).map fun r => g.blockAt d t r - g.dataStart

section

variable (h : FsInv g d m) (ht : t < m)
include h ht

theorem mem_blocksAt {k : Nat} :
    k ∈ g.blocksAt d t ↔ ∃ r ∈ g.rolesAt d t, g.blockAt d t r = g.dataStart + k := by
  unfold Geometry.blocksAt
  rw [mem_map]
  constructor
  · rintro ⟨r, hr, rfl⟩
    obtain ⟨k, -, hb, -⟩ := h.owned t ht r hr
    exact ⟨r, hr, by omega⟩
  · rintro ⟨r, hr, hb⟩
    exact ⟨r, hr, by omega⟩

theorem blocksAt_spec : (g.blocksAt d t).Nodup ∧
    (g.blocksAt d t).map g.blockId = (g.rolesAt d t).map (blockOf d (g.inodeOf d t)) ∧
    ∀ k ∈ g.blocksAt d t, k < g.dataAreaBlocks ∧ g.used d k = true := by
  refine ⟨?_, ?_, ?_⟩
  · refine List.Nodup.map_on (fun r hr s hs e => ?_) (nodup_roles _)
    obtain ⟨k, -, hb, -⟩ := h.owned t ht r hr
    obtain ⟨k', -, hb', -⟩ := h.owned t ht s hs
    exact (h.inj t ht t ht r hr s hs (by omega)).2
  · unfold Geometry.blocksAt
    rw [map_map]
    refine map_congr_left fun r hr => ?_
    obtain ⟨k, hk, hb, -⟩ := h.owned t ht r hr
    rw [Function.comp_apply, hb, Nat.add_sub_cancel_left]
    exact UInt32.toNat_inj.mp (by rw [Geometry.blockId_toNat hk, ← hb, Geometry.blockAt])
  · intro k hk
    obtain ⟨r, hr, hb⟩ := (mem_blocksAt h ht).mp hk
    obtain ⟨k', hk', hb', hu⟩ := h.owned t ht r hr
    rw [show k' = k by omega] at hk' hu
    exact ⟨hk', hu⟩

theorem clear_volume (hfile : (g.inodeOf d t).isFile = true) :
    ∃ d', Runs ((g.handle t).clear g.efs) [] d () d' ∧ Replaced g d m t d' ∧
      (g.inodeOf d' t).type_ = (g.inodeOf d t).type_ ∧ g.contents d' t = [] := by
  have hslot := h.handle_lt ht
  have hroom := h.room
  have hlow : ∀ x ∈ [(g.handle t).blockId], x < 1 + 1025 * g.inodeBitmapBlocks := by
    intro x hx
    rw [mem_singleton] at hx
    simp only [hx, Geometry.handle, Geometry.inodeStart]
    omega
  obtain ⟨hnd, hmap, hks⟩ := blocksAt_spec h ht
  obtain ⟨ino', hrun1, hsz, hty⟩ := clearSize_runs rfl (h.placed_self ht)
  obtain ⟨d1, hrun2, hout, hzero, hbits⟩ := deallocBlocks_runs hlow (g.blocksAt d t) hnd hks
  have hlow1 : ∀ x < g.dataStart, ¬g.inDataBitmap x → d1 x = d x := fun x hx hb =>
    hout x hb fun k _ => by omega
  have hslotbm := Geometry.slot_not_inDataBitmap (show t < 4096 * g.inodeBitmapBlocks by omega)
  generalize hd2 : g.setInodeOf d1 t ino' = d2
  have hino : g.inodeOf d2 t = ino' := by rw [← hd2]; exact inodeOf_setInodeOf ino'
  have hnb : (g.inodeOf d2 t).dataBlocks = 0 := by rw [hino, dataBlocks, hsz]; decide
  have hroles : g.rolesAt d2 t = [] := by rw [Geometry.rolesAt, hnb]; rfl
  have hused : ∀ k < 4096 * g.dataBitmapBlocks, g.used d2 k = (g.used d k && decide (k ∉ g.blocksAt d t)) := by
    intro k hk
    rw [← hbits k hk, ← hd2, Geometry.used_setInodeOf ino' (by omega) hk]
  obtain ⟨hsuper, hinodes, hslots⟩ := Geometry.setInodeOf_low ino' (show t < 4096 * g.inodeBitmapBlocks by omega) hlow1
  rw [hd2] at hsuper hinodes hslots
  refine ⟨d2, ?_, ⟨hsuper, hinodes, fun i hi hne => hslots i (by omega) hne, ?_, ?_, ?_, ?_, ?_, ?_, ?_⟩, ?_, ?_⟩
  · rw [← hd2]
    refine bind (modifyDiskInode_runs (a := ()) ?_ (hlow1 _ hslot hslotbm)) (sync (ret _))
    rw [hmap] at hrun2
    refine bind (assert hfile) (bind hrun1 (bind (assert ?_) (bind hrun2 (ret _))))
    simp only [length_map]
    rw [roles_length, dataBlocks, totalBlocks]
  · intro k hk hu hold
    have hnot : k ∉ g.blocksAt d t := fun hmem => by
      obtain ⟨r, hr, hb⟩ := (mem_blocksAt h ht).mp hmem
      exact hold r hr hb
    refine ⟨?_, by rw [hused k hk, hu]; simp [hnot]⟩
    rw [← hd2, setInodeOf_ne _ (by omega), hout _ (fun hbm => by have := hbm.2; omega)]
    intro k' hk' e
    exact hnot (by rwa [show k = k' by omega])
  · rw [hroles]; simp
  · rw [hroles]; simp
  · intro k hk hu
    rw [hused k hk, Bool.and_eq_true, decide_eq_true_eq] at hu
    exact Or.inl ⟨hu.1, fun r hr hb => hu.2 ((mem_blocksAt h ht).mpr ⟨r, hr, hb⟩)⟩
  · intro k hk hu
    rw [← hd2, setInodeOf_ne _ (by omega)]
    by_cases hmem : k ∈ g.blocksAt d t
    · exact hzero k hmem
    · have hcov := g.covered
      rw [hused k (by omega)] at hu
      simp only [hmem, not_false_eq_true, decide_true, Bool.and_true] at hu
      rw [hout _ (fun hbm => by have := hbm.2; omega), h.zero k hk hu]
      intro k' hk' e
      exact hmem (by rwa [show k = k' by omega])
  · rw [hino, hsz]; decide
  · intro o _ h2
    rw [hnb] at h2
    omega
  · rw [hino, hty]
  · rw [Geometry.contents, hino, contentsOf, hsz]
    rfl

end

end

end TCore.EasyFs
