/-
  TCore.Mm.Frames — physical memory and its frames (mm/frame_allocator.rs).

  Memory is a frame of 512 words for every physical page number. `free` lists the frames that the
  allocator will hand out, in that order: it is a stack, whose first part are the recycled frames and
  whose second part those that were never used.

  `Owned` are the frames of one owner, `Trade` is what an operation of the owner can do with them: it
  exchanges frames for free ones and writes to its own. What it does is nothing to other owners.
-/

import TCore.Mm.Address

namespace TCore.Mm

open List Option Function

abbrev Frame := Fin 512 → BitVec 64
abbrev Memory := Nat → Frame

structure StackFrameAllocator where
  current : Nat
  end_ : Nat
  /-- The last element of the vector first. -/
  recycled : List Nat

namespace StackFrameAllocator

def alloc (a : StackFrameAllocator) : Option (Nat × StackFrameAllocator) :=
  match a.recycled with
  | ppn :: rest => some (PhysPageNum.fromUsize ppn, { a with recycled := rest })
  | [] =>
    if a.current = a.end_ then none
    else some (PhysPageNum.fromUsize a.current, { a with current := a.current + 1 })

/-- `none` is the panic "has not been allocated". -/
def dealloc (a : StackFrameAllocator) (ppn : Nat) : Option StackFrameAllocator :=
  if a.current ≤ ppn ∨ ppn ∈ a.recycled then none else some { a with recycled := ppn :: a.recycled }

def free (a : StackFrameAllocator) : List Nat := a.recycled ++ List.range' a.current (a.end_ - a.current)

/-- The frames are page numbers, and none is free twice. -/
structure Sound (a : StackFrameAllocator) : Prop where
  nodup : a.free.Nodup
  current_le : a.current ≤ a.end_
  recycled_lt : ∀ f ∈ a.recycled, f < a.current
  end_le : a.end_ ≤ 2 ^ 44

variable {a b : StackFrameAllocator} {f : Nat}

theorem mem_free : f ∈ a.free ↔ f ∈ a.recycled ∨ a.current ≤ f ∧ f < a.end_ := by
  have hrange : (a.current ≤ f ∧ f < a.current + (a.end_ - a.current)) ↔ (a.current ≤ f ∧ f < a.end_) := by omega
  rw [free, mem_append, mem_range'_1, hrange]

/-- `init`: the frames from `l` to `r` have not been allocated yet. -/
def init (l r : Nat) : StackFrameAllocator := ⟨l, r, []⟩

theorem sound_init {l r : Nat} (hle : l ≤ r) (hr : r ≤ 2 ^ 44) : (init l r).Sound :=
  ⟨nodup_range', hle, fun f hf => absurd hf not_mem_nil, hr⟩

theorem Sound.lt_end (h : a.Sound) (hf : f ∈ a.free) : f < a.end_ := by
  rcases mem_free.mp hf with hr | ⟨-, hlt⟩
  · exact (h.recycled_lt f hr).trans_le h.current_le
  · exact hlt

/-- `alloc` takes the first of the free frames. -/
theorem Sound.alloc_eq (h : a.Sound) (halloc : a.alloc = some (f, b)) :
    a.free = f :: b.free ∧ b.Sound ∧ b.end_ = a.end_ := by
  unfold alloc at halloc
  split at halloc
  · rename_i ppn rest hrec
    cases halloc
    have hfree : a.free = ppn :: { a with recycled := rest }.free := by
      simp only [free, hrec, cons_append]
    have hppn : PhysPageNum.fromUsize ppn = ppn := by
      have := h.lt_end (f := ppn) (by simp [hfree])
      exact Nat.mod_eq_of_lt (this.trans_le h.end_le)
    have hnodup := h.nodup
    rw [hfree] at hnodup
    refine ⟨by rw [hppn, hfree], ⟨(nodup_cons.mp hnodup).2, h.current_le, ?_, h.end_le⟩, rfl⟩
    intro f hf
    exact h.recycled_lt f (hrec ▸ mem_cons_of_mem _ hf)
  · rename_i hrec
    obtain ⟨hne, heq⟩ := ite_none_left_eq_some.mp halloc
    cases heq
    have hlt : a.current < a.end_ := lt_of_le_of_ne h.current_le hne
    have hppn : PhysPageNum.fromUsize a.current = a.current := Nat.mod_eq_of_lt (hlt.trans_le h.end_le)
    have hfree : a.free = a.current :: { a with current := a.current + 1 }.free := by
      have : a.end_ - a.current = (a.end_ - (a.current + 1)) + 1 := by omega
      simp only [free, hrec, nil_append, this, range'_succ]
    have hnodup := h.nodup
    rw [hfree] at hnodup
    refine ⟨by rw [hppn, hfree], ⟨(nodup_cons.mp hnodup).2, hlt, ?_, h.end_le⟩, rfl⟩
    intro f hf
    exact (h.recycled_lt f hf).trans (Nat.lt_succ_self _)

theorem alloc_isSome (h : a.Sound) : a.alloc.isSome ↔ a.free ≠ [] := by
  unfold alloc
  split
  · rename_i hrec
    simp [free, hrec]
  · rename_i hrec
    by_cases heq : a.current = a.end_
    · simp [free, hrec, heq]
    · have hlt : 0 < a.end_ - a.current := Nat.sub_pos_of_lt (lt_of_le_of_ne h.current_le heq)
      simp [free, hrec, heq, hlt.ne']

/-- A frame in use can be given back, and is then the first of the free ones. -/
theorem Sound.dealloc_eq (h : a.Sound) (hlt : f < a.end_) (hf : f ∉ a.free) :
    ∃ b, a.dealloc f = some b ∧ b.free = f :: a.free ∧ b.Sound ∧ b.end_ = a.end_ := by
  rw [mem_free, not_or, not_and, not_lt] at hf
  obtain ⟨hrec, hcur⟩ := hf
  have hfc : f < a.current := by
    by_contra hge
    exact absurd (hcur (not_lt.mp hge)) (not_le.mpr hlt)
  refine ⟨{ a with recycled := f :: a.recycled }, if_neg (by simp [hrec, hfc]), rfl, ⟨?_, h.current_le, ?_, h.end_le⟩, rfl⟩
  · refine nodup_cons.mpr ⟨?_, h.nodup⟩
    intro hmem
    rcases mem_free.mp hmem with hr | ⟨hge, -⟩
    · exact hrec hr
    · exact absurd hfc (not_lt.mpr hge)
  · intro g hg
    rcases mem_cons.mp hg with rfl | hg
    · exact hfc
    · exact h.recycled_lt g hg

end StackFrameAllocator

structure FrameTracker where
  ppn : Nat
  nodrop : Bool

structure Ram where
  allocator : StackFrameAllocator
  mem : Memory

namespace Ram

def write (r : Ram) (ppn : Nat) (i : Fin 512) (w : BitVec 64) : Ram :=
  { r with mem := Function.update r.mem ppn (Function.update (r.mem ppn) i w) }

/-- `frame_alloc`; `FrameTracker::new` clears the frame. -/
def frameAlloc (r : Ram) : Option (Nat × Ram) :=
  r.allocator.alloc.map fun (ppn, a) => (ppn, { allocator := a, mem := Function.update r.mem ppn 0 })

/-- `frame_dealloc`, when a `FrameTracker` is dropped. -/
def frameDealloc (r : Ram) (ppn : Nat) : Option Ram :=
  (r.allocator.dealloc ppn).map fun a => { r with allocator := a }

abbrev free (r : Ram) : List Nat := r.allocator.free

variable {r r' : Ram} {f : Nat}

/-- What a successful `frame_alloc` does. -/
structure Allocated (r : Ram) (f : Nat) (r' : Ram) : Prop where
  free : r.free = f :: r'.free
  fresh : f ∉ r'.free
  lt_end : f < r.allocator.end_
  sound : r'.allocator.Sound
  end_ : r'.allocator.end_ = r.allocator.end_
  mem : r'.mem = Function.update r.mem f 0

theorem frameAlloc_spec (h : r.allocator.Sound) (halloc : r.frameAlloc = some (f, r')) : r.Allocated f r' := by
  obtain ⟨⟨g, a⟩, ha, heq⟩ := map_eq_some_iff.mp halloc
  cases heq
  obtain ⟨hfree, hsound, hend⟩ := h.alloc_eq ha
  have hnodup := h.nodup
  rw [hfree] at hnodup
  exact ⟨hfree, (nodup_cons.mp hnodup).1, h.lt_end (hfree ▸ mem_cons_self), hsound, hend, rfl⟩

theorem frameAlloc_isSome (h : r.allocator.Sound) (hne : r.free ≠ []) : r.frameAlloc.isSome := by
  rw [frameAlloc, isSome_map]
  exact (StackFrameAllocator.alloc_isSome h).mpr hne

/-! ## Owners -/

variable {r'' : Ram} {low : Nat} {own own' own'' : List Nat}

/-- The frames in use by an owner: none of them is listed twice or free, and all frames are those of the
allocator from `low` on. -/
structure Owned (low : Nat) (own : List Nat) (r : Ram) : Prop where
  nodup : (own ++ r.free).Nodup
  range : ∀ f ∈ own ++ r.free, low ≤ f ∧ f < r.allocator.end_

/-- What the owner of `own` can do: exchange frames for free ones, and write to its own. -/
structure Trade (own : List Nat) (r : Ram) (own' : List Nat) (r' : Ram) : Prop where
  sound : r'.allocator.Sound
  end_ : r'.allocator.end_ = r.allocator.end_
  perm : (own' ++ r'.free).Perm (own ++ r.free)
  elsewhere : ∀ f, f ∉ own ++ r.free → r'.mem f = r.mem f

theorem Owned.perm (h : Owned low own r) (hp : own'.Perm own) : Owned low own' r :=
  ⟨(hp.append_right _).nodup_iff.mpr h.nodup, fun f hf => h.range f ((hp.append_right _).subset hf)⟩

theorem Owned.not_free (h : Owned low own r) (hf : f ∈ own) : f ∉ r.free :=
  fun hfree => (nodup_append'.mp h.nodup).2.2 hf hfree

theorem Owned.left (h : Owned low (own ++ own') r) : Owned low own r := by
  refine ⟨?_, ?_⟩
  · refine h.nodup.sublist ?_
    rw [append_assoc]
    exact (sublist_append_right own' r.free).append_left own
  · intro f hf
    apply h.range
    rcases mem_append.mp hf with hf | hf
    · exact mem_append_left _ (mem_append_left _ hf)
    · exact mem_append_right _ hf

theorem Owned.right (h : Owned low (own ++ own') r) : Owned low own' r := (h.perm perm_append_comm).left

theorem Owned.nil (h : Owned low own r) : Owned low [] r :=
  ⟨(nodup_append'.mp h.nodup).2.1, fun f hf => h.range f (mem_append_right own hf)⟩

/-- At the start all frames are free. -/
theorem owned_init {end_ : Nat} {mem : Memory} : Owned low [] ⟨.init low end_, mem⟩ := by
  refine ⟨nodup_range', ?_⟩
  intro f hf
  have hf : f ∈ List.range' low (end_ - low) := hf
  rw [mem_range'_1] at hf
  have hend : (⟨.init low end_, mem⟩ : Ram).allocator.end_ = end_ := rfl
  omega

theorem Trade.owned (h : Trade own r own' r') (ho : Owned low own r) : Owned low own' r' := by
  refine ⟨h.perm.nodup_iff.mpr ho.nodup, ?_⟩
  intro f hf
  rw [h.end_]
  exact ho.range f (h.perm.subset hf)

theorem Trade.refl (hs : r.allocator.Sound) : Trade own r own r := ⟨hs, rfl, .refl _, fun _ _ => rfl⟩

theorem Trade.trans (h : Trade own r own' r') (h' : Trade own' r' own'' r'') : Trade own r own'' r'' := by
  refine ⟨h'.sound, h'.end_.trans h.end_, h'.perm.trans h.perm, ?_⟩
  intro f hf
  rw [h'.elsewhere f fun hf' => hf (h.perm.subset hf'), h.elsewhere f hf]

/-- An operation on some of the owner's frames. -/
theorem Trade.frame (h : Trade own r own' r') (rest : List Nat) : Trade (rest ++ own) r (rest ++ own') r' := by
  refine ⟨h.sound, h.end_, ?_, ?_⟩
  · rw [append_assoc, append_assoc]
    exact h.perm.append_left rest
  · intro f hf
    apply h.elsewhere
    intro hf'
    rw [append_assoc] at hf
    exact hf (mem_append_right _ hf')

theorem Trade.congr {own₁ own₁' : List Nat} (h : Trade own r own' r') (hp : own₁.Perm own) (hp' : own₁'.Perm own') :
    Trade own₁ r own₁' r' := by
  refine ⟨h.sound, h.end_, (hp'.append_right _).trans (h.perm.trans (hp.append_right _).symm), ?_⟩
  intro f hf
  exact h.elsewhere f fun hf' => hf ((hp.append_right _).symm.subset hf')

theorem Allocated.trade (h : r.Allocated f r') : Trade [] r [f] r' := by
  refine ⟨h.sound, h.end_, ?_, ?_⟩
  · rw [h.free]
    exact .refl _
  · intro g hg
    rw [h.mem, update_of_ne]
    rintro rfl
    exact hg (h.free ▸ mem_cons_self)

/-- The owner of a frame can give it back. -/
theorem frameDealloc_spec (hs : r.allocator.Sound) (ho : Owned low (f :: own) r) :
    ∃ r', r.frameDealloc f = some r' ∧ Trade (f :: own) r own r' ∧ r'.free = f :: r.free ∧ r'.mem = r.mem := by
  have hlt := (ho.range f (mem_append_left _ mem_cons_self)).2
  obtain ⟨b, hb, hfree, hsound, hend⟩ := hs.dealloc_eq hlt (ho.not_free mem_cons_self)
  refine ⟨{ r with allocator := b }, ?_, ⟨hsound, hend, ?_, fun _ _ => rfl⟩, hfree, rfl⟩
  · rw [frameDealloc, hb, map_some]
  · rw [show Ram.free { r with allocator := b } = f :: r.free from hfree]
    exact perm_middle

end Ram

namespace FrameTracker

/-- `FrameTracker::drop`. -/
def drop (t : FrameTracker) (r : Ram) : Option Ram := if t.nodrop then some r else r.frameDealloc t.ppn

/-- A collection of trackers is dropped. -/
def dropAll (ts : List FrameTracker) (r : Ram) : Option Ram := ts.foldlM (fun r t => t.drop r) r

/-- The frames that go back with the trackers. -/
def owned (ts : List FrameTracker) : List Nat := (ts.filter fun t => !t.nodrop).map ppn

variable {r : Ram} {low : Nat} {own : List Nat} {ts : List FrameTracker}

theorem dropAll_spec (hs : r.allocator.Sound) (ho : Ram.Owned low (owned ts ++ own) r) :
    ∃ r', dropAll ts r = some r' ∧ Ram.Trade (owned ts ++ own) r own r' ∧ r'.free = (owned ts).reverse ++ r.free ∧
      r'.mem = r.mem := by
  induction ts generalizing r with
  | nil => exact ⟨r, rfl, .refl hs, rfl, rfl⟩
  | cons t ts ih =>
    rw [dropAll, foldlM_cons, drop]
    cases hn : t.nodrop with
    | true =>
      have howned : owned (t :: ts) = owned ts := by simp [owned, hn]
      rw [howned] at ho ⊢
      exact ih hs ho
    | false =>
      have howned : owned (t :: ts) = t.ppn :: owned ts := by simp [owned, hn]
      rw [howned] at ho ⊢
      obtain ⟨r₁, hr₁, htrade, hfree, hmem⟩ := Ram.frameDealloc_spec hs ho
      obtain ⟨r', hr', htrade', hfree', hmem'⟩ := ih htrade.sound (htrade.owned ho)
      refine ⟨r', ?_, htrade.trans htrade', ?_, hmem'.trans hmem⟩
      · rw [if_neg Bool.false_ne_true, hr₁]
        exact hr'
      · rw [hfree', hfree, reverse_cons, append_assoc]
        rfl

end FrameTracker

/-! ## Stores -/

namespace Frame

/-- A byte is written. -/
def setByte (f : Frame) (off : Nat) (b : BitVec 8) : Frame :=
  let i := Fin.ofNat 512 (off / 8)
  let shift := 8 * (off % 8)
  Function.update f i ((f i &&& ~~~((255 : BitVec 64) <<< shift)) ||| b.setWidth 64 <<< shift)

/-- The first bytes are overwritten with those of a slice. -/
def copyFromSlice (f : Frame) (src : List (BitVec 8)) : Frame := src.zipIdx.foldl (fun f (b, i) => f.setByte i b) f

end Frame

namespace Ram

/-- A store of the kernel to a physical frame. Of the frames that entries lead to, it has those from `low`
on mapped for writing. Physical page 0 and the trampoline are not: the kernel takes a page fault and panics. -/
def store (low : Nat) (r : Ram) (ppn : Nat) (f : Frame → Frame) : Option Ram :=
  if low ≤ ppn ∧ ppn < r.allocator.end_ then some { r with mem := Function.update r.mem ppn (f (r.mem ppn)) } else none

/-- Bytes are stored one after the other from the physical address `pa` on. -/
def storeBytes (low : Nat) (r : Ram) (pa : Nat) : List (BitVec 8) → Option Ram
  | [] => some r
  | b :: bs => (r.store low (pa / PAGE_SIZE) (Frame.setByte · (pa % PAGE_SIZE) b)).bind fun r => storeBytes low r (pa + 1) bs

/-- Only the frames in `into` have been written to. -/
structure Wrote (into : Nat → Prop) (r r' : Ram) : Prop where
  allocator : r'.allocator = r.allocator
  elsewhere : ∀ f, ¬into f → r'.mem f = r.mem f

variable {r r' r'' : Ram} {low ppn pa : Nat} {into into' : Nat → Prop} {own : List Nat} {bs : List (BitVec 8)}
  {g : Frame → Frame}

theorem Wrote.refl : Wrote into r r := ⟨rfl, fun _ _ => rfl⟩

theorem Wrote.trans (h : Wrote into r r') (h' : Wrote into r' r'') : Wrote into r r'' :=
  ⟨h'.allocator.trans h.allocator, fun f hf => (h'.elsewhere f hf).trans (h.elsewhere f hf)⟩

theorem Wrote.mono (h : Wrote into r r') (hsub : ∀ f, into f → into' f) : Wrote into' r r' :=
  ⟨h.allocator, fun f hf => h.elsewhere f fun hi => hf (hsub f hi)⟩

theorem Wrote.trade (h : Wrote (· ∈ own) r r') (hs : r.allocator.Sound) : Trade own r own r' := by
  refine ⟨h.allocator ▸ hs, by rw [h.allocator], ?_, ?_⟩
  · rw [Ram.free, h.allocator]
  · intro f hf
    exact h.elsewhere f fun hown => hf (mem_append_left _ hown)

theorem update_wrote (r : Ram) (f : Nat) (g : Frame → Frame) :
    Wrote (· = f) r { r with mem := update r.mem f (g (r.mem f)) } :=
  ⟨rfl, fun _ hf => update_of_ne hf _ _⟩

/-- The owner takes one more frame. -/
theorem frameAlloc_trade {f : Nat} (hs : r.allocator.Sound) (halloc : r.frameAlloc = some (f, r')) : Trade own r (f :: own) r' := by
  have htrade := (frameAlloc_spec hs halloc).trade.frame own
  rw [append_nil] at htrade
  exact htrade.congr (.refl _) (perm_append_singleton _ _).symm

/-- The owner gives one of the frames back. -/
theorem frameDealloc_trade {f : Nat} (hs : r.allocator.Sound) (ho : Owned low own r) (hf : f ∈ own)
    (hdealloc : r.frameDealloc f = some r') : Trade own r (own.erase f) r' := by
  have hperm : (f :: own.erase f).Perm own := (perm_cons_erase hf).symm
  obtain ⟨r₁, hr₁, htrade, -⟩ := frameDealloc_spec hs (ho.perm hperm)
  rw [hdealloc] at hr₁
  cases hr₁
  exact htrade.congr hperm.symm (.refl _)

theorem store_wrote (h : r.store low ppn g = some r') : low ≤ ppn ∧ Wrote (· = ppn) r r' := by
  obtain ⟨hlow, heq⟩ := ite_none_right_eq_some.mp h
  cases heq
  exact ⟨hlow.1, rfl, fun f hf => update_of_ne hf _ _⟩

theorem store_isSome (hlow : low ≤ ppn) (hend : ppn < r.allocator.end_) : (r.store low ppn g).isSome := by
  rw [store, if_pos ⟨hlow, hend⟩]
  rfl

theorem storeBytes_wrote (h : r.storeBytes low pa bs = some r') :
    Wrote (fun f => low ≤ f ∧ ∃ i < bs.length, f = (pa + i) / PAGE_SIZE) r r' := by
  induction bs generalizing r pa with
  | nil =>
    cases h
    exact .refl
  | cons b bs ih =>
    obtain ⟨r₁, hstore, hrest⟩ := bind_eq_some_iff.mp h
    obtain ⟨hlow, hwrote⟩ := store_wrote hstore
    refine Wrote.trans (hwrote.mono ?_) ((ih hrest).mono ?_)
    · rintro f rfl
      exact ⟨hlow, 0, by simp, by rw [Nat.add_zero]⟩
    · rintro f ⟨hf, i, hi, rfl⟩
      exact ⟨hf, i + 1, by simpa using hi, by rw [Nat.add_assoc, Nat.add_comm 1 i]⟩

end Ram

end TCore.Mm
