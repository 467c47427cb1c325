/-
  TCore.EasyFs.InodeData — `read_at` and `write_at` of a disk inode, byte by byte.

  `byteAt` is the byte of a file at an offset: the byte at that place of the data block it lies
  in. The loops of `read_at` and `write_at` go block by block; every turn covers the bytes from
  `start` to the end of its block or to the end of the range.
-/

import TCore.EasyFs.InodeClear

namespace TCore.EasyFs

open TCore.Lib
open Role (data ind1 ind2 row)
open List Prog Runs ReadOnly Function DiskInode

def byteAt (d : Disk) (ino : DiskInode) (o : Nat) : UInt8 := (d (blockOf d ino (data (o / 512))).toNat).get (o % 512)

/-- The bytes of a file, as the disk has them. -/
def contentsOf (d : Disk) (ino : DiskInode) : List UInt8 := (List.range ino.size.toNat).map (byteAt d ino)

/-- A byte string with `buf` written at `offset`, a gap before it filled with zeros. -/
def overwrite (old : List UInt8) (offset : Nat) (buf : List UInt8) : List UInt8 :=
  (old ++ List.replicate (offset - old.length) 0).take offset ++ buf ++ old.drop (offset + buf.length)

theorem overwrite_length (old : List UInt8) (offset : Nat) (buf : List UInt8) :
    (overwrite old offset buf).length = max old.length (offset + buf.length) := by
  simp only [overwrite, length_append, length_take, length_replicate, length_drop]
  omega

theorem overwrite_getD (old : List UInt8) (offset : Nat) (buf : List UInt8) (o : Nat) :
    (overwrite old offset buf).getD o 0 =
      if offset ≤ o ∧ o < offset + buf.length then buf.getD (o - offset) 0 else old.getD o 0 := by
  have hlen : ((old ++ replicate (offset - old.length) 0).take offset).length = offset := by
    simp only [length_take, length_append, length_replicate]
    omega
  unfold overwrite
  by_cases h1 : o < offset
  · rw [if_neg (by omega), append_assoc, getD_append _ _ _ _ (by omega)]
    simp only [getD_eq_getElem?_getD, getElem?_take_of_lt h1]
    by_cases h2 : o < old.length
    · rw [getElem?_append_left h2]
    · rw [getElem?_append_right (by omega), getElem?_eq_none (l := old) (by omega),
        getElem?_replicate]
      split <;> rfl
  · by_cases h2 : o < offset + buf.length
    · rw [if_pos (by omega), getD_append _ _ _ _ (by rw [length_append]; omega),
        getD_append_right _ _ _ _ (by omega), hlen]
    · rw [if_neg (by omega), getD_append_right _ _ _ _ (by rw [length_append]; omega), length_append, hlen]
      simp only [getD_eq_getElem?_getD, getElem?_drop]
      rw [show offset + buf.length + (o - (offset + buf.length)) = o by omega]

theorem contentsOf_length (d : Disk) (ino : DiskInode) : (contentsOf d ino).length = ino.size.toNat := by
  simp [contentsOf]

theorem contentsOf_getD (d : Disk) (ino : DiskInode) (o : Nat) :
    (contentsOf d ino).getD o 0 = if o < ino.size.toNat then byteAt d ino o else 0 := by
  by_cases h : o < ino.size.toNat
  · simp [contentsOf, getD, h]
  · simp [contentsOf, getD, h]

/-- A file's bytes from its size and the bytes below it. -/
theorem contentsOf_eq {d : Disk} {ino : DiskInode} {l : List UInt8} (hlen : l.length = ino.size.toNat)
    (h : ∀ o < ino.size.toNat, byteAt d ino o = l.getD o 0) : contentsOf d ino = l := by
  refine ext_getElem (by rw [contentsOf_length, hlen]) fun o h1 h2 => ?_
  rw [contentsOf_length] at h1
  simp only [contentsOf, getElem_map, getElem_range, h o h1]
  simp [getD, h2]

theorem data_mem_roles {k n : Nat} (h : k < n) : data k ∈ roles n := mem_roles.mpr h

/-! ## Reading -/

variable {start : Nat}

section
variable {L : List Nat} {d : Disk} {ino : DiskInode} {n : Nat}

/-- One turn of the loops: the bytes of a range that lies in one block. -/
theorem slice_byteAt {k : Nat} (hk : start % 512 + k ≤ 512) :
    (d (blockOf d ino (data (start / 512))).toNat).slice (start % 512) k =
      (range k).map fun i => byteAt d ino (start + i) := by
  refine map_congr_left fun i hi => ?_
  rw [mem_range] at hi
  rw [byteAt, show (start + i) / 512 = start / 512 by omega, show (start + i) % 512 = start % 512 + i by omega]

theorem range_map_append {α : Type} (f : Nat → α) (s a b : Nat) :
    ((range a).map fun i => f (s + i)) ++ ((range b).map fun i => f (s + a + i)) =
      (range (a + b)).map fun i => f (s + i) := by
  rw [range_add, map_append, map_map]
  simp only [comp_def, Nat.add_assoc]

theorem readLoop_runs (h : Placed L d ino n) (fuel : Nat) {stop : Nat} (hlt : start < stop)
    (hfuel : stop - start ≤ fuel) (hn : stop ≤ 512 * n) :
    Runs (ino.readLoop stop fuel start) L d ((range (stop - start)).map fun i => byteAt d ino (start + i)) d := by
  -- every turn reads at least one byte, so the fuel lasts
  induction fuel generalizing start with
  | zero => omega
  | succ fuel ih =>
    generalize hcur : min (512 * (start / 512 + 1)) stop = cur
    have hread : Runs (read (blockOf d ino (data (start / 512))).toNat fun b =>
        pure (b.slice (start % 512) (cur - start))) L d ((range (cur - start)).map fun i => byteAt d ino (start + i)) d := by
      rw [← slice_byteAt (by omega)]
      exact read (h.unlocked _ (data_mem_roles (by omega))) (ret _)
    refine bind (h.getBlockId_runs (by omega)) ?_
    simp only [hcur]
    refine bind hread ?_
    by_cases hend : cur = stop
    · rw [if_pos hend, hend]
      exact ret _
    · rw [if_neg hend]
      have := bind (g := fun rest => pure (((range (cur - start)).map fun i => byteAt d ino (start + i)) ++ rest))
        (ih (show cur < stop by omega) (by omega)) (ret _)
      rw [show (fun i => byteAt d ino (cur + i)) = fun i => byteAt d ino (start + (cur - start) + i) by
        rw [show start + (cur - start) = cur by omega], range_map_append,
        show cur - start + (stop - cur) = stop - start by omega] at this
      exact this

/-- `read_at`: from the offset on, as many bytes as the buffer takes and the file has. -/
theorem readAt_runs (h : Placed L d ino n) (hn : ino.size.toNat ≤ 512 * n) (offset : Nat) (buf : List UInt8)
    (ho : offset < 2 ^ 64) (hb : buf.length < 2 ^ 63) :
    Runs (ino.readAt offset buf) L d (min buf.length (ino.size.toNat - offset),
      ((contentsOf d ino).drop offset).take buf.length ++ buf.drop (min buf.length (ino.size.toNat - offset))) d := by
  have hsz := ino.size.toNat_lt
  have hgot : ((contentsOf d ino).drop offset).take buf.length =
      (range (min buf.length (ino.size.toNat - offset))).map fun i => byteAt d ino (offset + i) := by
    refine ext_getElem (by simp [contentsOf]) fun i h1 h2 => ?_
    simp [contentsOf]
  unfold readAt
  simp only
  rw [hgot]
  by_cases hge : offset ≥ min ((offset + buf.length) % 2 ^ 64) ino.size.toNat
  · rw [if_pos hge, show min buf.length (ino.size.toNat - offset) = 0 by omega]
    exact ret _
  · rw [if_neg hge]
    have hstop : min ((offset + buf.length) % 2 ^ 64) ino.size.toNat - offset =
        min buf.length (ino.size.toNat - offset) := by omega
    refine bind (readLoop_runs h _ (by omega) (le_refl _) (by omega)) ?_
    rw [hstop, length_map, length_range]
    exact ret _

end

/-! ## Writing -/

/-- The disk `d'` is `d` with the bytes `l` of the file written from `start` on. -/
structure Written (d : Disk) (ino : DiskInode) (n start : Nat) (l : List UInt8) (d' : Disk) : Prop where
  other : ∀ x, (∀ k < n, (blockOf d ino (data k)).toNat ≠ x) → d' x = d x
  kept : ∀ r ∈ roles n, blockOf d' ino r = blockOf d ino r
  bytes : ∀ o < 512 * n, byteAt d' ino o = if start ≤ o ∧ o < start + l.length then l.getD (o - start) 0 else byteAt d ino o

namespace Written

variable {L : List Nat} {d d' d'' : Disk} {ino : DiskInode} {n start : Nat} {l l' : List UInt8}

theorem trans (h : Written d ino n start l d') (h' : Written d' ino n (start + l.length) l' d'') :
    Written d ino n start (l ++ l') d'' := by
  refine ⟨fun x hx => ?_, fun r hr => by rw [h'.kept r hr, h.kept r hr], fun o ho => ?_⟩
  · rw [h'.other x fun k hk => by rw [h.kept _ (data_mem_roles hk)]; exact hx k hk, h.other x hx]
  · rw [h'.bytes o ho, h.bytes o ho, length_append]
    by_cases h1 : start + l.length ≤ o
    · rw [getD_append_right _ _ _ _ (by omega), show o - (start + l.length) = o - start - l.length by omega]
      by_cases h2 : o < start + l.length + l'.length
      · rw [if_pos (by omega), if_pos (by omega)]
      · rw [if_neg (by omega), if_neg (by omega), if_neg (by omega)]
    · rw [if_neg (by omega)]
      by_cases h2 : start ≤ o
      · rw [if_pos (by omega), if_pos (by omega), getD_append _ _ _ _ (by omega)]
      · rw [if_neg (by omega), if_neg (by omega)]

theorem nil (d : Disk) (ino : DiskInode) (n start : Nat) : Written d ino n start [] d := by
  refine ⟨fun _ _ => rfl, fun _ _ => rfl, fun o _ => ?_⟩
  rw [length_nil, if_neg (by omega)]

/-- One turn of the loop of `write_at`. -/
theorem block (h : Placed L d ino n) (start : Nat) (hk : start / 512 < n) (hl : start % 512 + l.length ≤ 512) :
    Written d ino n start l (update d (blockOf d ino (data (start / 512))).toNat
      ((d (blockOf d ino (data (start / 512))).toNat).copyFrom (start % 512) l)) := by
  generalize hb : (d (blockOf d ino (data (start / 512))).toNat).copyFrom (start % 512) l = b
  have hne : ∀ r ∈ roles n, r ≠ data (start / 512) →
      (blockOf d ino r).toNat ≠ (blockOf d ino (data (start / 512))).toNat := fun r hr hrd e =>
    hrd (h.inj r hr _ (data_mem_roles hk) (UInt32.toNat_inj.mp e))
  have hkept : ∀ r ∈ roles n, blockOf (update d (blockOf d ino (data (start / 512))).toNat b) ino r =
      blockOf d ino r :=
    blockOf_frame (fun _ _ _ => rfl) fun r hr hi =>
      update_of_ne (hne r hr (by rintro rfl; cases hi)) _ _
  refine ⟨fun x hx => update_of_ne (Ne.symm (hx _ hk)) _ _, hkept, fun o ho => ?_⟩
  have hro := data_mem_roles (k := o / 512) (n := n) (by omega)
  rw [byteAt, hkept _ hro]
  by_cases hoo : o / 512 = start / 512
  · rw [hoo, update_self, ← hb, Block.get_copyFrom _ _ (by omega), byteAt, hoo,
      show o % 512 - start % 512 = o - start by omega]
    by_cases hin : start ≤ o ∧ o < start + l.length
    · rw [if_pos hin, if_pos (by omega)]
    · rw [if_neg hin, if_neg (by omega)]
  · rw [update_of_ne (hne _ hro fun e => hoo (Role.data.inj e)), if_neg (by omega), byteAt]

end Written

section
variable {L : List Nat} {d : Disk} {ino : DiskInode} {n : Nat}

theorem Placed.of_written {d' : Disk} {l : List UInt8} (h : Placed L d ino n)
    (hw : Written d ino n start l d') : Placed L d' ino n := by
  refine ⟨h.max, fun r hr r' hr' e => ?_, fun r hr => ?_⟩
  · rw [hw.kept r hr, hw.kept r' hr'] at e
    exact h.inj r hr r' hr' e
  · rw [hw.kept r hr]
    exact h.unlocked r hr

/-- The loop of `write_at` with the indices it gives to `get_block_id` and the blocks it gets for them. -/
def DiskInode.writeLoopTraced (ino : DiskInode) (stop : Nat) : Nat → Nat → List UInt8 → Fs (Nat × List (Nat × UInt32))
  | 0, _, _ => .panic
  | fuel + 1, start, buf => do
    let endCurrentBlock := min (512 * (start / 512 + 1)) stop
    let blockWriteSize := endCurrentBlock - start
    let blockId ← ino.getBlockId (start / 512)
    Prog.modify blockId.toNat fun b => pure ((), b.copyFrom (start % 512) (buf.take blockWriteSize))
    if endCurrentBlock = stop then pure (blockWriteSize, [(start / 512, blockId)])
    else do
      let rest ← ino.writeLoopTraced stop fuel endCurrentBlock (buf.drop blockWriteSize)
      pure (blockWriteSize + rest.1, (start / 512, blockId) :: rest.2)

theorem writeLoopTraced_fst (ino : DiskInode) (stop fuel start : Nat) (buf : List UInt8) :
    (ino.writeLoopTraced stop fuel start buf >>= fun r => pure r.1) = ino.writeLoop stop fuel start buf := by
  induction fuel generalizing start buf with
  | zero => rfl
  | succ fuel ih =>
    simp only [writeLoopTraced, writeLoop, bind_assoc]
    congr 1
    funext blockId
    congr 1
    funext _
    split
    · rfl
    · rw [← ih, bind_assoc, bind_assoc]
      rfl

variable {buf : List UInt8}

/-- Every turn writes a data block of the inode, also the only turn of an empty range that begins inside it. -/
theorem writeLoopTraced_runs (h : Placed L d ino n) (fuel start stop : Nat) (hle : start ≤ stop)
    (hk : start / 512 < n) (hfuel : stop - start < fuel) (hn : stop ≤ 512 * n) (hbuf : buf.length = stop - start) :
    ∃ d' trace, Runs (ino.writeLoopTraced stop fuel start buf) L d (stop - start, trace) d' ∧ Written d ino n start buf d' ∧
      ∀ p ∈ trace, p.1 < n ∧ p.2 = blockOf d ino (data p.1) := by
  induction fuel generalizing start buf d with
  | zero => omega
  | succ fuel ih =>
    generalize hcur : min (512 * (start / 512 + 1)) stop = cur
    have htake : (buf.take (cur - start)).length = cur - start := by rw [length_take]; omega
    have hw := Written.block h start (l := buf.take (cur - start)) hk (by omega)
    have hmod : Runs (modify (blockOf d ino (data (start / 512))).toNat fun b =>
        pure ((), b.copyFrom (start % 512) (buf.take (cur - start)))) L d () _ :=
      modify (h.unlocked _ (data_mem_roles hk)) (ret _)
    by_cases hend : cur = stop
    · rw [hend, ← hbuf, take_length] at hw hmod
      refine ⟨_, [(start / 512, blockOf d ino (data (start / 512)))], bind (h.getBlockId_runs hk) ?_, hw, fun p hp => ?_⟩
      · simp only [hcur, hend, ← hbuf, take_length, if_true]
        exact bind hmod (ret _)
      · rw [mem_singleton.mp hp]
        exact ⟨hk, rfl⟩
    · obtain ⟨d', trace, hrun, hw', htrace⟩ := ih (h.of_written hw) cur (by omega) (by omega) (by omega)
        (show (buf.drop (cur - start)).length = stop - cur by rw [length_drop]; omega)
      have hall : Written d ino n start (buf.take (cur - start) ++ buf.drop (cur - start)) d' :=
        hw.trans (by rw [htake, show start + (cur - start) = cur by omega]; exact hw')
      rw [take_append_drop] at hall
      refine ⟨d', (start / 512, blockOf d ino (data (start / 512))) :: trace, bind (h.getBlockId_runs hk) ?_, hall,
        fun p hp => ?_⟩
      · simp only [hcur, if_neg hend]
        rw [show stop - start = cur - start + (stop - cur) by omega]
        exact bind hmod (bind hrun (ret _))
      · rcases mem_cons.mp hp with rfl | hp
        · exact ⟨hk, rfl⟩
        · obtain ⟨hp1, hp2⟩ := htrace p hp
          exact ⟨hp1, by rw [hp2, hw.kept _ (data_mem_roles hp1)]⟩

theorem writeLoop_runs (h : Placed L d ino n) (fuel start stop : Nat) (hle : start ≤ stop)
    (hk : start / 512 < n) (hfuel : stop - start < fuel) (hn : stop ≤ 512 * n) (hbuf : buf.length = stop - start) :
    ∃ d', Runs (ino.writeLoop stop fuel start buf) L d (stop - start) d' ∧ Written d ino n start buf d' := by
  obtain ⟨d', trace, hrun, hw, -⟩ := writeLoopTraced_runs h fuel start stop hle hk hfuel hn hbuf
  rw [← writeLoopTraced_fst]
  exact ⟨d', bind hrun (ret _), hw⟩

/-- The loop looks at no byte past the end of the range. -/
theorem writeLoop_take (ino : DiskInode) {stop : Nat} (fuel : Nat) (hle : start ≤ stop) (buf : List UInt8) :
    ino.writeLoop stop fuel start (buf.take (stop - start)) = ino.writeLoop stop fuel start buf := by
  induction fuel generalizing start buf with
  | zero => rfl
  | succ fuel ih =>
    simp only [writeLoop]
    have hcur : start ≤ min (512 * (start / 512 + 1)) stop ∧ min (512 * (start / 512 + 1)) stop ≤ stop := by omega
    generalize min (512 * (start / 512 + 1)) stop = cur at hcur
    rw [take_take, min_eq_left (by omega : cur - start ≤ stop - start), drop_take,
      show stop - start - (cur - start) = stop - cur by omega, ih hcur.2]

theorem exec_writeLoop_some {stop fuel k : Nat} {s t : Cells Nat Block} (hle : start ≤ stop)
    (h : exec (ino.writeLoop stop fuel start buf) s = some (k, t)) : k = stop - start := by
  induction fuel generalizing start buf s k with
  | zero => cases h
  | succ fuel ih =>
    obtain ⟨x, u, -, h⟩ := exec_bind_some h
    obtain ⟨_, v, -, h⟩ := exec_bind_some h
    split at h
    · cases h
      omega
    · obtain ⟨rest, w, hrest, h⟩ := exec_bind_some h
      cases h
      rw [ih (min_le_right _ _) hrest]
      omega

/-- `write_at` of a range that lies inside the file changes exactly the bytes of the range. -/
theorem writeAt_runs (h : Placed L d ino n) (hn : ino.size.toNat ≤ 512 * n) (offset : Nat)
    (hb : buf ≠ []) (hend : offset + buf.length ≤ ino.size.toNat) :
    ∃ d', Runs (ino.writeAt offset buf) L d buf.length d' ∧ Written d ino n offset buf d' := by
  have hsz := ino.size.toNat_lt
  have hpos : 0 < buf.length := length_pos_iff.mpr hb
  have hstop : min ((offset + buf.length) % 2 ^ 64) ino.size.toNat = offset + buf.length := by omega
  obtain ⟨d', hrun, hw⟩ := writeLoop_runs h (offset + buf.length - offset + 1) offset
    (offset + buf.length) (by omega) (by omega) (by omega) (by omega) (show buf.length = _ by omega)
  refine ⟨d', bind (assert (by omega)) ?_, hw⟩
  rw [hstop]
  rw [Nat.add_sub_cancel_left] at hrun
  rw [Nat.add_sub_cancel_left]
  exact hrun

theorem getBlockId_readOnly (ino : DiskInode) (k : Nat) : ReadOnly (ino.getBlockId k) := by
  unfold getBlockId
  split
  · exact ret _
  · split
    · exact read _ fun _ => ret _
    · exact bind (read _ fun _ => bind (assert _) fun _ => ret _) fun _ =>
        read _ fun _ => ret _

/-- Whatever block an empty `write_at` asks for, it changes nothing. -/
theorem exec_writeAt_nil {offset k : Nat} {s t : Cells Nat Block} (h : exec (ino.writeAt offset []) s = some (k, t)) :
    k = 0 ∧ t = s := by
  obtain ⟨_, u, hassert, h⟩ := exec_bind_some h
  have hle : offset ≤ min ((offset + 0) % 2 ^ 64) ino.size.toNat := by
    by_contra hn
    rw [Prog.assert, length_nil, if_neg hn] at hassert
    cases hassert
  rw [Prog.assert, length_nil, if_pos hle] at hassert
  cases hassert
  rw [length_nil, show min ((offset + 0) % 2 ^ 64) ino.size.toNat = offset by omega, Nat.sub_self] at h
  obtain ⟨x, u, hid, h⟩ := exec_bind_some h
  obtain ⟨_, v, hmod, h⟩ := exec_bind_some h
  rw [getBlockId_readOnly ino _ s x u hid] at hmod
  simp only [show min (512 * (offset / 512 + 1)) offset = offset by omega, Nat.sub_self, if_true] at h
  cases h
  obtain ⟨b, w, hcopy, rfl⟩ := exec_modify_some hmod
  cases hcopy
  refine ⟨rfl, ?_⟩
  rw [take_nil, Block.copyFrom_nil, update_eq_self, erase_cons_head]

end

end TCore.EasyFs
