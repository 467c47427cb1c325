/-
  TCore.Mm.PageTable — page table entries and the three-level page table (mm/page_table.rs).

  `find_pte` and `find_pte_create` give a place in memory, the frame and the index of the entry; `map`
  and `unmap` write there. `none` of `map` and `unmap` is a panic.

  The tables of a page table are a trie (`TCore.Lib.Trie`) of three levels. `Table` says that they are
  the frames in `frames`; `Created` is what `find_pte_create` can do: it hangs cleared tables into the
  trie and leaves the entries of those that were there.
-/

import TCore.Lib.Trie
import TCore.Mm.Frames

namespace TCore.Mm

open TCore.Lib
open Function (update_self update_of_ne)
open List Option Trie Ram

/-! ## Entries -/

abbrev PTEFlags := BitVec 8

namespace PTEFlags

def V : PTEFlags := 1 <<< 0
def R : PTEFlags := 1 <<< 1
def W : PTEFlags := 1 <<< 2
def X : PTEFlags := 1 <<< 3
def U : PTEFlags := 1 <<< 4

end PTEFlags

abbrev PageTableEntry := BitVec 64

namespace PageTableEntry

def new (ppn : Nat) (flags : PTEFlags) : PageTableEntry := BitVec.ofNat 64 ppn <<< 10 ||| flags.setWidth 64

def empty : PageTableEntry := 0

def ppn (pte : PageTableEntry) : Nat := PhysPageNum.fromUsize (pte >>> 10 &&& (1 <<< 44 - 1)).toNat

/-- All eight bits are flags, so `from_bits` has no bit to refuse. -/
def flags (pte : PageTableEntry) : PTEFlags := pte.setWidth 8

def isValid (pte : PageTableEntry) : Bool := pte.flags &&& .V != 0

variable {p : Nat} {fl : PTEFlags}

theorem getLsbD_ppnMask (i : Nat) : (1 <<< 44 - 1 : BitVec 64).getLsbD i = decide (i < 44) := by
  have hmask : (1 <<< 44 - 1 : BitVec 64) = BitVec.ofNat 64 (2 ^ 44 - 1) := rfl
  rw [hmask, BitVec.getLsbD_ofNat, Nat.testBit_two_pow_sub_one]
  by_cases h : i < 44
  · simp [h]
    omega
  · simp [h]

@[simp] theorem flags_new : (new p fl).flags = fl := by
  apply BitVec.eq_of_getLsbD_eq
  intro i hi
  simp (disch := omega) [flags, new]

@[simp] theorem ppn_new (hp : p < 2 ^ 44) : (new p fl).ppn = p := by
  have hbits : (new p fl >>> 10 &&& (1 <<< 44 - 1)) = BitVec.ofNat 64 p := by
    apply BitVec.eq_of_getLsbD_eq
    intro i hi
    rw [BitVec.getLsbD_and, getLsbD_ppnMask, new]
    by_cases h : i < 44
    · simp (disch := omega) [h]
    · have hbit : p.testBit i = false :=
        Nat.testBit_lt_two_pow (hp.trans_le (Nat.pow_le_pow_right (by decide) (not_lt.mp h)))
      simp [h, hbit, BitVec.getLsbD_ofNat]
  rw [ppn, hbits, BitVec.toNat_ofNat, PhysPageNum.fromUsize]
  omega

@[simp] theorem isValid_empty : empty.isValid = false := rfl

@[simp] theorem isValid_new_or : (new p (fl ||| .V)).isValid = true := by
  rw [isValid, flags_new]
  revert fl
  decide

@[simp] theorem isValid_new_V : (new p .V).isValid = true := by
  rw [isValid, flags_new]
  rfl

end PageTableEntry

/-! ## The page table -/

structure PageTable where
  rootPpn : Nat
  /-- The frames of its tables. -/
  frames : List Nat

namespace PageTable

/-- `PageTable::new`, with the panic of the `unwrap`. -/
def new (r : Ram) : Option (PageTable × Ram) :=
  r.frameAlloc.map fun (frame, r) => (⟨frame, [frame]⟩, r)

def fromToken (satp : Nat) : PageTable := ⟨PhysPageNum.fromUsize (satp % 2 ^ 44), []⟩

def token (pt : PageTable) : Nat := 8 <<< 60 ||| pt.rootPpn

/-- The loop of `find_pte` from the table at `ppn` on. -/
def findPteFrom (mem : Memory) : Nat → List (Fin 512) → Option (Nat × Fin 512)
  | _, [] => none
  | ppn, [idx] => some (ppn, idx)
  | ppn, idx :: rest =>
    let pte : PageTableEntry := mem ppn idx
    if !pte.isValid then none else findPteFrom mem pte.ppn rest

def findPte (pt : PageTable) (mem : Memory) (vpn : Nat) : Option (Nat × Fin 512) :=
  findPteFrom mem pt.rootPpn (indexes vpn)

/-- The loop of `find_pte_create` from the table at `ppn` on. -/
def findPteCreateFrom (pt : PageTable) (r : Ram) : Nat → List (Fin 512) → Option ((Nat × Fin 512) × PageTable × Ram)
  | _, [] => none
  | ppn, [idx] => some ((ppn, idx), pt, r)
  | ppn, idx :: rest =>
    let pte : PageTableEntry := r.mem ppn idx
    if !pte.isValid then
      r.frameAlloc.bind fun (frame, r) =>
        let pte := PageTableEntry.new frame .V
        findPteCreateFrom { pt with frames := pt.frames ++ [frame] } (r.write ppn idx pte) pte.ppn rest
    else findPteCreateFrom pt r pte.ppn rest

def findPteCreate (pt : PageTable) (r : Ram) (vpn : Nat) : Option ((Nat × Fin 512) × PageTable × Ram) :=
  findPteCreateFrom pt r pt.rootPpn (indexes vpn)

def map (pt : PageTable) (r : Ram) (vpn ppn : Nat) (flags : PTEFlags) : Option (PageTable × Ram) :=
  (pt.findPteCreate r vpn).bind fun (place, pt, r) =>
    let pte : PageTableEntry := r.mem place.1 place.2
    if pte.isValid then none else some (pt, r.write place.1 place.2 (PageTableEntry.new ppn (flags ||| .V)))

def unmap (pt : PageTable) (r : Ram) (vpn : Nat) : Option Ram :=
  (pt.findPte r.mem vpn).bind fun place =>
    let pte : PageTableEntry := r.mem place.1 place.2
    if !pte.isValid then none else some (r.write place.1 place.2 PageTableEntry.empty)

def translate (pt : PageTable) (mem : Memory) (vpn : Nat) : Option PageTableEntry :=
  (pt.findPte mem vpn).map fun place => mem place.1 place.2

def translateVa (pt : PageTable) (mem : Memory) (va : Nat) : Option Nat :=
  (pt.findPte mem (VirtAddr.floor va)).map fun place =>
    let pte : PageTableEntry := mem place.1 place.2
    PhysAddr.fromUsize (PhysAddr.ofPageNum pte.ppn + pageOffset va)

/-- The valid entry of a page. -/
def leaf (pt : PageTable) (mem : Memory) (vpn : Nat) : Option PageTableEntry :=
  (pt.translate mem vpn).filter PageTableEntry.isValid

/-! ## The trie of the tables -/

/-- The table that an entry of the first two levels leads to. -/
def next (pte : PageTableEntry) : Option Nat := if pte.isValid then some pte.ppn else none

open PageTableEntry

theorem next_empty : next empty = none := by
  rw [next, isValid_empty, if_neg Bool.false_ne_true]

variable {mem : Memory}

theorem findPteFrom_cons {ppn : Nat} {idx : Fin 512} {rest : List (Fin 512)} (hrest : rest ≠ []) :
    findPteFrom mem ppn (idx :: rest) = if !isValid (mem ppn idx) then none
      else findPteFrom mem (PageTableEntry.ppn (mem ppn idx)) rest := by
  cases rest with
  | nil => exact absurd rfl hrest
  | cons j rest => rfl

theorem findPteFrom_eq {ppn : Nat} {idxs : List (Fin 512)} {i : Fin 512} :
    findPteFrom mem ppn (idxs ++ [i]) = (node next mem ppn idxs).map (·, i) := by
  induction idxs generalizing ppn with
  | nil => rfl
  | cons idx rest ih =>
    rw [cons_append, findPteFrom_cons (by simp), ih, node, next]
    cases isValid (mem ppn idx) <;> rfl

/-- The indexes of the tables on the way to a page's entry. -/
def path (vpn : Nat) : List (Fin 512) := (indexes vpn).dropLast

theorem length_path (vpn : Nat) : (path vpn).length = 2 := rfl

theorem length_path_lt (vpn : Nat) : (path vpn).length < 3 := by
  rw [length_path]
  decide

theorem indexes_eq (vpn : Nat) : indexes vpn = path vpn ++ [Fin.ofNat 512 vpn] := rfl

theorem findPte_eq {pt : PageTable} {vpn : Nat} :
    pt.findPte mem vpn = (node next mem pt.rootPpn (path vpn)).map (·, Fin.ofNat 512 vpn) := by
  rw [findPte, indexes_eq, findPteFrom_eq]

/-- The tables of `pt` are its frames, which are in use. -/
structure Table (pt : PageTable) (r : Ram) : Prop where
  built : Trie.Built next 3 r.mem pt.rootPpn (· ∈ pt.frames)
  nodup : pt.frames.Nodup
  lt_end : ∀ f ∈ pt.frames, f < r.allocator.end_
  used : ∀ f ∈ pt.frames, f ∉ r.free

section Reading

variable {pt pt' : PageTable} {mem mem' : Memory} {v w : Nat} {pte : PageTableEntry}

theorem translate_eq : pt.translate mem v =
    (node next mem pt.rootPpn (path v)).map fun k => mem k (Fin.ofNat 512 v) := by
  rw [translate, findPte_eq, Option.map_map]
  rfl

theorem leaf_eq_some : pt.leaf mem v = some pte ↔ pt.translate mem v = some pte ∧ pte.isValid = true :=
  filter_eq_some_iff

/-- Only the root matters for what a page table translates to. -/
theorem translate_root (h : pt'.rootPpn = pt.rootPpn) : pt'.translate mem v = pt.translate mem v := by
  rw [translate_eq, translate_eq, h]

/-- A translation reads the tables only. -/
theorem translate_congr {used : Nat → Prop} (h : Trie.Built next 3 mem pt.rootPpn used)
    (hm : ∀ f, used f → mem' f = mem f) : pt.translate mem' v = pt.translate mem v := by
  rw [translate_eq, translate_eq, h.node_congr hm (length_path_lt v).le]
  cases hk : node next mem pt.rootPpn (path v) with
  | none => rfl
  | some k => rw [map_some, map_some, hm k (h.used _ k (length_path_lt v) hk)]

end Reading

/-! ## Creating tables -/

/-- A new page table is one cleared table. -/
theorem new_spec {pt : PageTable} {r r' : Ram} (hs : r.allocator.Sound) (h : PageTable.new r = some (pt, r')) :
    pt.Table r' ∧ r'.allocator.Sound ∧ ∀ v, pt.leaf r'.mem v = none := by
  obtain ⟨⟨f, r1⟩, hf, heq⟩ := map_eq_some_iff.mp h
  cases heq
  obtain ⟨-, hfresh, hlt, hsound, hend, hmem⟩ := frameAlloc_spec hs hf
  have hnode : ∀ i p, node next r'.mem f (i :: p) = none := by
    intro i p
    rw [node, hmem, update_self]
    exact congrArg (bind · _) next_empty
  have hroot : ∀ p k, node next r'.mem f p = some k → p = [] ∧ f = k := by
    intro p k hp
    cases p with
    | nil => exact ⟨rfl, some.inj hp⟩
    | cons i p =>
      rw [hnode] at hp
      cases hp
  refine ⟨⟨⟨?_, ?_⟩, nodup_singleton f, ?_, ?_⟩, hsound, ?_⟩
  · intro p k _ hp
    rw [← (hroot p k hp).2]
    exact mem_cons_self
  · intro p q k _ _ hp hq
    rw [(hroot p k hp).1, (hroot q k hq).1]
  · intro g hg
    rw [mem_singleton.mp hg, hend]
    exact hlt
  · intro g hg
    rw [mem_singleton.mp hg]
    exact hfresh
  · intro v
    rw [PageTable.leaf, translate_eq]
    exact congrArg (fun o : Option Nat => (o.map fun k => r'.mem k (Fin.ofNat 512 v)).filter isValid) (hnode _ _)

/-- What every operation on a page table keeps: it takes frames for tables from the free ones and
writes to its tables only. -/
structure Kept (pt : PageTable) (r : Ram) (pt' : PageTable) (r' : Ram) : Prop where
  table : pt'.Table r'
  sound : r'.allocator.Sound
  root : pt'.rootPpn = pt.rootPpn
  end_ : r'.allocator.end_ = r.allocator.end_
  taken : ∃ fs, pt'.frames = pt.frames ++ fs ∧ r.free = fs ++ r'.free
  elsewhere : ∀ f, f ∉ pt'.frames → r'.mem f = r.mem f

/-- What hanging tables into a page table does. -/
structure Created (pt : PageTable) (r : Ram) (pt' : PageTable) (r' : Ram) : Prop extends Kept pt r pt' r' where
  entries : ∀ v, pt'.translate r'.mem v = pt.translate r.mem v ∨
    pt.translate r.mem v = none ∧ pt'.translate r'.mem v = some .empty

variable {place : Nat × Fin 512}

section Create

variable {pt pt' pt'' : PageTable} {r r' r'' : Ram} {v k f : Nat} {p idxs : List (Fin 512)} {i : Fin 512}

theorem Kept.refl (ht : pt.Table r) (hs : r.allocator.Sound) : Kept pt r pt r :=
  ⟨ht, hs, rfl, rfl, ⟨[], (append_nil _).symm, rfl⟩, fun _ _ => rfl⟩

theorem Kept.trans (h : Kept pt r pt' r') (h' : Kept pt' r' pt'' r'') : Kept pt r pt'' r'' := by
  obtain ⟨fs, hframes, hfree⟩ := h.taken
  obtain ⟨fs', hframes', hfree'⟩ := h'.taken
  refine ⟨h'.table, h'.sound, h'.root.trans h.root, h'.end_.trans h.end_, ⟨fs ++ fs', ?_, ?_⟩, ?_⟩
  · rw [hframes', hframes, append_assoc]
  · rw [hfree, hfree', append_assoc]
  · intro f hf
    rw [h'.elsewhere f hf]
    apply h.elsewhere
    intro hmem
    exact hf (hframes' ▸ mem_append_left _ hmem)

theorem Created.refl (ht : pt.Table r) (hs : r.allocator.Sound) : Created pt r pt r := ⟨.refl ht hs, fun _ => .inl rfl⟩

theorem Created.trans (h : Created pt r pt' r') (h' : Created pt' r' pt'' r'') : Created pt r pt'' r'' := by
  refine ⟨h.toKept.trans h'.toKept, ?_⟩
  intro v
  rcases h.entries v with heq | ⟨hnone, hsome⟩
  · rw [← heq]
    exact h'.entries v
  · rcases h'.entries v with heq' | ⟨hnone', -⟩
    · exact .inr ⟨hnone, heq'.trans hsome⟩
    · rw [hsome] at hnone'
      cases hnone'

theorem Created.leaf (h : Created pt r pt' r') : pt'.leaf r'.mem v = pt.leaf r.mem v := by
  rw [PageTable.leaf, PageTable.leaf]
  rcases h.entries v with heq | ⟨hnone, hsome⟩
  · rw [heq]
  · rw [hnone, hsome]
    rfl

/-- One new table, for an entry that is not valid. -/
theorem created_hang (ht : pt.Table r) (hs : r.allocator.Sound) (hk : node next r.mem pt.rootPpn p = some k)
    (hp : p.length + 1 < 3) (hi : isValid (r.mem k i) = false) (hf : r.frameAlloc = some (f, r')) :
    Created pt r { pt with frames := pt.frames ++ [f] } (r'.write k i (PageTableEntry.new f .V)) ∧
      node next (r'.write k i (PageTableEntry.new f .V)).mem pt.rootPpn (p ++ [i]) = some f := by
  obtain ⟨hfree, hfresh, hlt, hsound, hend, hmem⟩ := frameAlloc_spec hs hf
  have hfu : f ∉ pt.frames := fun hu => ht.used f hu (hfree ▸ mem_cons_self)
  have hnext : next (PageTableEntry.new f .V) = some f := by
    rw [next, isValid_new_V, if_pos rfl, ppn_new (hlt.trans_le hs.end_le)]
  have hnone : next (r.mem k i) = none := by
    rw [next, hi, if_neg Bool.false_ne_true]
  have hzero : ∀ j : Fin 512, next ((0 : Frame) j) = none := fun _ => next_empty
  have hhung : (r'.write k i (PageTableEntry.new f .V)).mem =
      Trie.Built.hung r.mem 0 k f i (PageTableEntry.new f .V) := by
    simp only [write, hmem, Trie.Built.hung]
  have hku : k ∈ pt.frames := ht.built.used p k (by omega) hk
  have hnode : ∀ q, q.length < 3 → node next (r'.write k i (PageTableEntry.new f .V)).mem pt.rootPpn q =
      if q = p ++ [i] then some f else node next r.mem pt.rootPpn q := by
    rw [hhung]
    exact fun q hq => ht.built.node_hung hp hk hnone hfu hnext hzero hq
  refine ⟨⟨⟨⟨?_, ?_, ?_, ?_⟩, hsound, rfl, hend, ⟨[f], rfl, hfree⟩, ?_⟩, ?_⟩, ?_⟩
  · rw [hhung]
    apply (ht.built.hang hp hk hnone hfu hnext hzero).mono
    intro g hg
    rcases hg with hg | rfl
    · exact mem_append_left _ hg
    · exact mem_append_right _ mem_cons_self
  · exact nodup_append.mpr ⟨ht.nodup, nodup_singleton f, fun g hg h hh => by
      rw [mem_singleton] at hh
      rintro rfl
      exact hfu (hh ▸ hg)⟩
  · intro g hg
    rcases mem_append.mp hg with hg | hg
    · exact (ht.lt_end g hg).trans_eq hend.symm
    · rw [mem_singleton.mp hg]
      exact hlt.trans_eq hend.symm
  · intro g hg hgf
    rcases mem_append.mp hg with hg | hg
    · exact ht.used g hg (hfree ▸ mem_cons_of_mem f hgf)
    · rw [mem_singleton.mp hg] at hgf
      exact hfresh hgf
  · intro g hg
    have hgk : g ≠ k := by
      rintro rfl
      exact hg (mem_append_left _ hku)
    have hgf : g ≠ f := by
      rintro rfl
      exact hg (mem_append_right _ mem_cons_self)
    rw [hhung, Trie.Built.hung, update_of_ne hgk, update_of_ne hgf]
  · intro v
    rw [translate_eq, translate_eq, hnode _ (length_path_lt v)]
    by_cases hpath : path v = p ++ [i]
    · rw [if_pos hpath, hpath, node_snoc hk, hnone]
      refine .inr ⟨rfl, ?_⟩
      rw [map_some, hhung, ht.built.hung_self hp hk hfu]
      rfl
    · rw [if_neg hpath]
      refine .inl ?_
      cases hkv : node next r.mem pt.rootPpn (path v) with
      | none => rfl
      | some kv =>
        -- the table of another path: not the one that was written to, nor the new one
        have hne : kv ≠ k := by
          rintro rfl
          have heq := ht.built.inj _ _ _ (length_path_lt v) (by omega) hkv hk
          have hlen := congrArg length heq
          rw [length_path] at hlen
          omega
        have hnf : kv ≠ f := by
          rintro rfl
          exact hfu (ht.built.used _ _ (length_path_lt v) hkv)
        rw [map_some, map_some, hhung, Trie.Built.hung, update_of_ne hne,
          update_of_ne hnf]
  · rw [hnode _ (by rw [length_append, length_singleton]; exact hp), if_pos rfl]

theorem findPteCreateFrom_cons (hidxs : idxs ≠ []) : findPteCreateFrom pt r k (i :: idxs) =
    if !isValid (r.mem k i) then
      r.frameAlloc.bind fun (frame, r) => findPteCreateFrom { pt with frames := pt.frames ++ [frame] }
        (r.write k i (PageTableEntry.new frame .V)) (PageTableEntry.new frame .V).ppn idxs
    else findPteCreateFrom pt r (ppn (r.mem k i)) idxs := by
  cases idxs with
  | nil => exact absurd rfl hidxs
  | cons j rest => rfl

theorem findPteCreateFrom_spec (ht : pt.Table r) (hs : r.allocator.Sound)
    (hk : node next r.mem pt.rootPpn p = some k) (hlen : p.length + idxs.length + 1 = 3)
    (h : findPteCreateFrom pt r k (idxs ++ [i]) = some (place, pt', r')) :
    Created pt r pt' r' ∧ node next r'.mem pt.rootPpn (p ++ idxs) = some place.1 ∧ place.2 = i := by
  induction idxs generalizing pt r k p with
  | nil =>
    cases h
    rw [append_nil]
    exact ⟨.refl ht hs, hk, rfl⟩
  | cons idx rest ih =>
    rw [length_cons] at hlen
    have hlen' : (p ++ [idx]).length + rest.length + 1 = 3 := by
      rw [length_append, length_singleton]
      omega
    have happ : p ++ idx :: rest = p ++ [idx] ++ rest := by simp
    rw [happ]
    rw [cons_append, findPteCreateFrom_cons (by simp)] at h
    by_cases hv : isValid (r.mem k idx) = true
    · rw [hv] at h
      have hnext : node next r.mem pt.rootPpn (p ++ [idx]) = some (ppn (r.mem k idx)) := by
        rw [node_snoc hk, next, if_pos hv]
      exact ih ht hs hnext hlen' h
    · rw [Bool.not_eq_true] at hv
      rw [hv] at h
      obtain ⟨⟨f, r1⟩, hf, hloop⟩ := bind_eq_some_iff.mp h
      obtain ⟨hcreated, hnode⟩ := created_hang ht hs hk (by omega) hv hf
      have hppn : (PageTableEntry.new f .V).ppn = f :=
        ppn_new ((frameAlloc_spec hs hf).lt_end.trans_le hs.end_le)
      dsimp only at hloop
      rw [hppn] at hloop
      obtain ⟨hrec, hplace, hidx⟩ := ih hcreated.table hcreated.sound hnode hlen' hloop
      exact ⟨hcreated.trans hrec, hplace, hidx⟩

theorem findPteCreate_spec (ht : pt.Table r) (hs : r.allocator.Sound)
    (h : pt.findPteCreate r v = some (place, pt', r')) :
    Created pt r pt' r' ∧ pt'.findPte r'.mem v = some place := by
  rw [findPteCreate, indexes_eq] at h
  obtain ⟨hcreated, hnode, hidx⟩ := findPteCreateFrom_spec (p := []) ht hs rfl rfl h
  refine ⟨hcreated, ?_⟩
  rw [findPte_eq, hcreated.root, ← nil_append (path v), hnode, map_some, ← hidx]

theorem findPteCreateFrom_isSome (hs : r.allocator.Sound) (hfree : idxs.length ≤ r.free.length) :
    (findPteCreateFrom pt r k (idxs ++ [i])).isSome := by
  induction idxs generalizing pt r k with
  | nil => rfl
  | cons idx rest ih =>
    rw [length_cons] at hfree
    rw [cons_append, findPteCreateFrom_cons (by simp)]
    cases isValid (r.mem k idx) with
    | true => exact ih hs (by omega)
    | false =>
      have hne : r.free ≠ [] := by
        rintro hnil
        rw [hnil, length_nil] at hfree
        omega
      obtain ⟨⟨f, r1⟩, hf⟩ := isSome_iff_exists.mp (frameAlloc_isSome hs hne)
      have hspec := frameAlloc_spec hs hf
      rw [hspec.free, length_cons] at hfree
      rw [hf]
      exact ih hspec.sound (by simpa [write] using hfree)

theorem findPteCreate_isSome (hs : r.allocator.Sound) (hfree : 2 ≤ r.free.length) : (pt.findPteCreate r v).isSome := by
  rw [findPteCreate, indexes_eq]
  exact findPteCreateFrom_isSome hs hfree

end Create

/-! ## Writing entries -/

section Write

variable {pt pt' : PageTable} {r r' : Ram} {v w k p : Nat} {fl : PTEFlags} {pte : PageTableEntry}

/-- Writing the entry of a page. -/
theorem kept_write (ht : pt.Table r) (hs : r.allocator.Sound)
    (hplace : pt.findPte r.mem v = some place) :
    Kept pt r pt (r.write place.1 place.2 pte) ∧ pt.translate (r.write place.1 place.2 pte).mem v = some pte ∧
      ∀ w, indexes w ≠ indexes v → pt.translate (r.write place.1 place.2 pte).mem w = pt.translate r.mem w := by
  rw [findPte_eq] at hplace
  obtain ⟨k, hk, rfl⟩ := map_eq_some_iff.mp hplace
  have hnode : ∀ w, node next (r.write k (Fin.ofNat 512 v) pte).mem pt.rootPpn (path w) =
      node next r.mem pt.rootPpn (path w) := fun w => ht.built.node_leaf rfl hk (length_path_lt w)
  have hku : k ∈ pt.frames := ht.built.used _ k (length_path_lt v) hk
  refine ⟨⟨⟨ht.built.leaf rfl hk, ht.nodup, ht.lt_end, ht.used⟩, hs, rfl, rfl, ⟨[], by simp, rfl⟩, ?_⟩, ?_, ?_⟩
  · intro f hf
    have hne : f ≠ k := by
      rintro rfl
      exact hf hku
    exact update_of_ne hne _ _
  · rw [translate_eq, hnode, hk]
    simp [write]
  · intro w hw
    rw [translate_eq, translate_eq, hnode]
    cases hkw : node next r.mem pt.rootPpn (path w) with
    | none => rfl
    | some kw =>
      rw [map_some, map_some, write]
      by_cases hkk : kw = k
      · -- the same table, so another index of it
        subst hkk
        have hpath := ht.built.inj _ _ _ (length_path_lt w) (length_path_lt v) hkw hk
        have hidx : Fin.ofNat 512 w ≠ Fin.ofNat 512 v := by
          intro heq
          apply hw
          rw [indexes_eq, indexes_eq, hpath, heq]
        dsimp only
        rw [update_self, update_of_ne hidx]
      · dsimp only
        rw [update_of_ne hkk]

/-- What a `map` that does not panic does. -/
structure Mapped (pt : PageTable) (r : Ram) (v p : Nat) (fl : PTEFlags) (pt' : PageTable) (r' : Ram) : Prop
    extends Kept pt r pt' r' where
  unmapped : pt.leaf r.mem v = none
  entry : pt'.translate r'.mem v = some (.new p (fl ||| .V))
  others : ∀ w, indexes w ≠ indexes v → pt'.translate r'.mem w = pt.translate r.mem w ∨
    pt.translate r.mem w = none ∧ pt'.translate r'.mem w = some .empty

theorem map_spec (ht : pt.Table r) (hs : r.allocator.Sound) (h : pt.map r v p fl = some (pt', r')) :
    Mapped pt r v p fl pt' r' := by
  obtain ⟨⟨place, pt1, r1⟩, hfind, hwrite⟩ := bind_eq_some_iff.mp h
  obtain ⟨hcreated, hplace⟩ := findPteCreate_spec ht hs hfind
  obtain ⟨hvalid, heq⟩ := ite_none_left_eq_some.mp hwrite
  cases heq
  obtain ⟨hkept, hentry, hothers⟩ := kept_write hcreated.table hcreated.sound hplace
  refine ⟨hcreated.toKept.trans hkept, ?_, hentry, ?_⟩
  · rw [← hcreated.leaf, PageTable.leaf, translate, hplace]
    simpa using hvalid
  · intro w hw
    rw [hothers w hw]
    exact hcreated.entries w

/-- `map` panics on a valid entry, and when it finds no frame for a table. -/
theorem map_eq_none (ht : pt.Table r) (hs : r.allocator.Sound) (hcreate : (pt.findPteCreate r v).isSome) :
    pt.map r v p fl = none ↔ (pt.leaf r.mem v).isSome := by
  obtain ⟨⟨place, pt1, r1⟩, hfind⟩ := isSome_iff_exists.mp hcreate
  obtain ⟨hcreated, hplace⟩ := findPteCreate_spec ht hs hfind
  rw [← hcreated.leaf, PageTable.leaf, translate, hplace, map, hfind]
  cases hv : isValid (r1.mem place.1 place.2) <;> simp [hv]

/-- What an `unmap` that does not panic does. -/
structure Unmapped (pt : PageTable) (r : Ram) (v : Nat) (r' : Ram) : Prop extends Kept pt r pt r' where
  entry : pt.translate r'.mem v = some .empty
  others : ∀ w, indexes w ≠ indexes v → pt.translate r'.mem w = pt.translate r.mem w

theorem unmap_spec (ht : pt.Table r) (hs : r.allocator.Sound) (h : pt.unmap r v = some r') : Unmapped pt r v r' := by
  obtain ⟨place, hplace, hwrite⟩ := bind_eq_some_iff.mp h
  obtain ⟨-, heq⟩ := ite_none_left_eq_some.mp hwrite
  cases heq
  obtain ⟨hkept, hentry, hothers⟩ := kept_write ht hs hplace
  exact ⟨hkept, hentry, hothers⟩

theorem unmap_eq_none : pt.unmap r v = none ↔ pt.leaf r.mem v = none := by
  rw [unmap, PageTable.leaf, translate]
  cases pt.findPte r.mem v with
  | none => simp
  | some place => cases hv : isValid (r.mem place.1 place.2) <;> simp [hv]

end Write

end PageTable

end TCore.Mm
