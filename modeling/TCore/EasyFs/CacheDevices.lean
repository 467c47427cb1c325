/-
  TCore.EasyFs.CacheDevices — several block devices behind the one cache manager (block_cache.rs).

  Every lookup names its device, and an object keeps the device it was loaded from; but the queue is
  searched by block id alone. A lookup for a block of one device is served the object of the block
  with the same id of another one, and changes made by way of it go to the other device.

  A run is an interleaving of operations, each for a device. `lookupsApart` says of a run that no lookup
  meets an object of another device, and that each finds its block, room in the queue or an object to drive out.
-/

import TCore.EasyFs.CacheProofs

namespace TCore.EasyFs

open Manager
open Function (update update_self update_of_ne update_eq_self)
open List Option Block Prod

/-- An operation of a client, or `BlockCache::sync` by way of its `i`-th handle. -/
inductive DeviceOp where
  | cache (o : CacheOp)
  | sync (i : Nat)

/-- The manager, and the handles held for each device. -/
structure Shared where
  mgr : Manager
  held : Nat → List (Nat × Nat)

namespace Shared

def step (s : Shared) (dev : Nat) : DeviceOp → Option (CacheOut × Shared)
  | .cache o => (Client.step dev ⟨s.mgr, s.held dev⟩ o).map fun r => (r.1, ⟨r.2.mgr, Function.update s.held dev r.2.held⟩)
  | .sync i => (s.held dev)[i]?.map fun h => (.done, { s with mgr := s.mgr.sync h.2 })

/-- The answers of an interleaving, each with the device it is for. -/
def run (s : Shared) : List (Nat × DeviceOp) → Option (List (Nat × CacheOut) × Shared)
  | [] => some ([], s)
  | e :: es => do
    let (x, s) ← s.step e.1 e.2
    let (xs, s) ← s.run es
    some ((e.1, x) :: xs, s)

/-- A lookup that meets no object of another device. -/
def lookupApart (s : Shared) (dev : Nat) : DeviceOp → Bool
  | .cache (.get id) => s.mgr.queue.all fun e => e.1 != id || (s.mgr.heap e.2).device == dev
  | _ => true

/-- The handle an operation names is there; a lookup finds the block in the queue, a queue that is not full, or an
object in it that nobody holds. -/
def hasRoom (s : Shared) (dev : Nat) : DeviceOp → Bool
  | .cache (.get id) => s.mgr.queue.any (fun e => e.1 == id) || s.mgr.queue.length != 16 || s.mgr.queue.any fun e => e.2 ∉ s.mgr.handles
  | .cache (.read i) | .cache (.modify i _) | .cache (.release i) | .sync i => i < (s.held dev).length
  | .cache .syncAll => true

def lookupsApart (s : Shared) : List (Nat × DeviceOp) → Bool
  | [] => true
  | e :: es => s.lookupApart e.1 e.2 && s.hasRoom e.1 e.2 && ((s.step e.1 e.2).all fun r => r.2.lookupsApart es)

/-- Nothing is cached or held. -/
def start (devices : Nat → Nat → Block) : Shared := ⟨empty devices, fun _ => []⟩

/-- What a device is to a client without a cache. -/
def plain (s : Shared) (dev : Nat) : Plain := ⟨s.mgr.contents dev, (s.held dev).map fst⟩

end Shared

/-- The reference for an operation; a `sync` changes nothing. -/
def Plain.deviceStep (r : Plain) : DeviceOp → Option (CacheOut × Plain)
  | .cache o => r.step o
  | .sync i => r.held[i]?.map fun _ => (.done, r)

/-! ## One operation -/

/-- The handles of a device are to objects of that device, and the manager counts the held ones. -/
structure SharedInv (s : Shared) : Prop where
  objects : ManagerInv s.mgr
  cached : ∀ d, ∀ h ∈ s.held d, h ∈ s.mgr.queue ∧ (s.mgr.heap h.2).device = d
  counted : ∀ p, s.mgr.handles.count p = ((s.held (s.mgr.heap p).device).map snd).count p

variable {s s' : Shared} {dev : Nat} {x : CacheOut}

open Shared

theorem start_shared (devices : Nat → Nat → Block) : SharedInv (start devices) :=
  ⟨empty_objects devices, by simp [start], by simp [start, empty]⟩

section

variable (h : SharedInv s)
include h

theorem SharedInv.handle {e : Nat × Nat} (he : e ∈ s.held dev) : e.2 ∈ s.mgr.handles := by
  rw [← count_pos_iff, h.counted, (h.cached dev e he).2]
  exact count_pos_iff.mpr (mem_map_of_mem he)

/-- An object that the manager has handed out is counted at its device. -/
theorem SharedInv.count_held {p : Nat} (hp : p ∈ s.mgr.handles → (s.mgr.heap p).device = dev) :
    s.mgr.handles.count p = ((s.held dev).map snd).count p := by
  by_cases hmem : p ∈ s.mgr.handles
  · rw [h.counted, hp hmem]
  · rw [count_eq_zero_of_not_mem hmem, count_eq_zero_of_not_mem]
    intro hheld
    obtain ⟨e, he, rfl⟩ := mem_map.mp hheld
    exact hmem (h.handle he)

/-- An operation that changes objects but no handles. -/
theorem SharedInv.congr {m : Manager} (hobjects : ManagerInv m) (hqueue : m.queue = s.mgr.queue)
    (hhandles : m.handles = s.mgr.handles) (hdev : ∀ q, (m.heap q).device = (s.mgr.heap q).device) :
    SharedInv { s with mgr := m } := by
  refine ⟨hobjects, ?_, ?_⟩
  · intro d e he
    dsimp only
    rw [hqueue, hdev]
    exact h.cached d e he
  · intro p
    dsimp only
    rw [hhandles, hdev]
    exact h.counted p

theorem get_shared {id p : Nat} {m : Manager} (hget : s.mgr.getBlockCache id dev = some (p, m))
    (hapart : s.lookupApart dev (.cache (.get id)) = true) :
    SharedInv ⟨m, update s.held dev (s.held dev ++ [(id, p)])⟩ ∧ ∀ d, m.contents d = s.mgr.contents d := by
  obtain ⟨hobjects, hcontents, hmem, hhandles, hkeep, hheap⟩ := getBlockCache_objects h.objects hget
  have hown : ∀ e ∈ s.mgr.queue, e.1 = id → (s.mgr.heap e.2).device = dev := by
    intro e he hid
    simpa [hid] using all_eq_true.mp hapart e he
  have hnew : (m.heap p).device = dev := by
    rcases hheap _ hmem with ⟨he, heq⟩ | ⟨-, heq⟩
    · rw [heq, hown _ he rfl]
    · rw [heq]
  -- a held object has kept its entry and its device
  have hkept : ∀ e ∈ s.mgr.queue, e.2 ∈ s.mgr.handles → e ∈ m.queue ∧ (m.heap e.2).device = (s.mgr.heap e.2).device := by
    intro e he hheld
    have he' := hkeep e he hheld
    refine ⟨he', ?_⟩
    rcases hheap e he' with ⟨-, heq⟩ | ⟨rfl, heq⟩
    · rw [heq]
    · rw [hown _ he rfl, hnew]
  have hdev : ∀ q ∈ s.mgr.handles, (s.mgr.heap q).device = (m.heap q).device := by
    intro q hq
    obtain ⟨e, he, rfl⟩ := mem_map.mp (h.objects.held q hq)
    exact (hkept e he hq).2.symm
  refine ⟨⟨hobjects, ?_, ?_⟩, hcontents⟩
  · have hold : ∀ d, ∀ e ∈ s.held d, e ∈ m.queue ∧ (m.heap e.2).device = d := by
      intro d e he
      obtain ⟨hq, rfl⟩ := h.cached d e he
      exact hkept e hq (h.handle he)
    intro d e he
    dsimp only at he ⊢
    by_cases hd : d = dev
    · subst hd
      rw [update_self] at he
      rcases mem_append.mp he with he | he
      · exact hold d e he
      · rw [mem_singleton.mp he]
        exact ⟨hmem, hnew⟩
    · rw [update_of_ne hd] at he
      exact hold d e he
  · intro q
    dsimp only
    rw [hhandles, count_cons, h.count_held (hdev q)]
    by_cases hq : p = q
    · subst hq
      rw [hnew, update_self, map_append, count_append]
      simp
    · by_cases hd : (m.heap q).device = dev
      · rw [hd, update_self, map_append, count_append]
        simp [hq]
      · rw [update_of_ne hd]
        simp [hq]

theorem release_shared {i : Nat} {e : Nat × Nat} (he : (s.held dev)[i]? = some e) :
    SharedInv ⟨s.mgr.release e.2, update s.held dev ((s.held dev).eraseIdx i)⟩ := by
  have hmem := mem_of_getElem? he
  have hobjects := release_objects h.objects (h.handle hmem)
  have hcount : ∀ q, ((s.held dev).map snd).count q =
      (((s.held dev).eraseIdx i).map snd).count q + if e.2 == q then 1 else 0 := by
    intro q
    obtain ⟨hlt, hget⟩ := List.getElem?_eq_some_iff.mp he
    have hperm := (getElem_cons_eraseIdx_perm hlt).symm.map snd
    rw [hget, map_cons] at hperm
    rw [hperm.count_eq, count_cons]
  rw [release_eq h.objects (h.handle hmem)] at hobjects ⊢
  refine ⟨hobjects, ?_, ?_⟩
  · intro d x hx
    dsimp only at hx ⊢
    by_cases hd : d = dev
    · subst hd
      rw [update_self] at hx
      exact h.cached d x (mem_of_mem_eraseIdx hx)
    · rw [update_of_ne hd] at hx
      exact h.cached d x hx
  · intro q
    dsimp only
    rw [count_erase, h.counted q]
    by_cases hd : (s.mgr.heap q).device = dev
    · rw [hd, update_self, hcount q]
      omega
    · have hne : e.2 ≠ q := by
        rintro rfl
        exact hd (h.cached dev e hmem).2
      rw [update_of_ne hd, if_neg (by simpa using hne), Nat.sub_zero]

end

variable {o : DeviceOp}

theorem SharedInv.step_isSome (h : SharedInv s) (hroom : s.hasRoom dev o = true) : (s.step dev o).isSome := by
  have hheld : ∀ i < (s.held dev).length, ((s.held dev)[i]?).isSome := fun i hi => by
    rw [getElem?_eq_getElem hi, isSome_some]
  cases o with
  | sync i =>
    rw [step, isSome_map]
    exact hheld i (of_decide_eq_true hroom)
  | cache o =>
    rw [step, isSome_map]
    cases o with
    | get id =>
      rw [Client.step, isSome_map]
      by_contra hnot
      obtain ⟨hid, hfull, hall⟩ := (getBlockCache_eq_none h.objects).mp (not_isSome_iff_eq_none.mp hnot)
      simp only [hasRoom, Bool.or_eq_true, List.any_eq_true, beq_iff_eq, bne_iff_ne, ne_eq, decide_eq_true_eq] at hroom
      rcases hroom with (⟨e, he, heq⟩ | hne) | ⟨e, he, hfree⟩
      · exact hid e he heq
      · exact hne hfull
      · exact hfree (hall e he)
    | syncAll => rfl
    | read i | modify i f | release i =>
      rw [Client.step, isSome_map]
      exact hheld i (of_decide_eq_true hroom)

/-- An operation whose lookup meets no object of another device: what it does to its own device is what
it does without a cache, and the other devices keep their contents and handles. -/
theorem shared_step (h : SharedInv s) (hapart : s.lookupApart dev o = true)
    (hstep : s.step dev o = some (x, s')) :
    SharedInv s' ∧ (s.plain dev).deviceStep o = some (x, s'.plain dev) ∧ ∀ d, d ≠ dev → s'.plain d = s.plain d := by
  cases o with
  | sync i =>
    obtain ⟨e, he, heq⟩ := map_eq_some_iff.mp hstep
    cases heq
    have hmem := (h.cached dev e (mem_of_getElem? he)).1
    obtain ⟨hobjects, hcontents⟩ := sync_objects h.objects hmem
    have hplain : ∀ d, plain { s with mgr := s.mgr.sync e.2 } d = s.plain d := by
      intro d
      rw [plain, hcontents]
      rfl
    refine ⟨h.congr hobjects (sync_queue _) (sync_handles _) (sync_device _), ?_, fun d _ => hplain d⟩
    rw [hplain, Plain.deviceStep, plain, getElem?_map, he]
    rfl
  | cache o =>
    obtain ⟨⟨y, c⟩, hclient, heq⟩ := map_eq_some_iff.mp hstep
    cases heq
    cases o with
    | get id =>
      obtain ⟨⟨p, m⟩, hget, heq⟩ := map_eq_some_iff.mp hclient
      cases heq
      obtain ⟨hinv, hcontents⟩ := get_shared h hget hapart
      refine ⟨hinv, ?_, ?_⟩
      · simp only [Plain.deviceStep, Plain.step, plain, hcontents, update_self, map_append,
          map_singleton]
      · intro d hd
        simp only [plain, hcontents, update_of_ne hd]
    | read i =>
      obtain ⟨e, he, heq⟩ := map_eq_some_iff.mp hclient
      cases heq
      obtain ⟨hmem, hown⟩ := h.cached dev e (mem_of_getElem? he)
      rw [update_eq_self]
      refine ⟨h, ?_, fun d _ => rfl⟩
      simp only [Plain.deviceStep, Plain.step, plain, getElem?_map, he, map_some,
        contents_of_mem h.objects hmem hown]
    | modify i f =>
      obtain ⟨e, he, heq⟩ := map_eq_some_iff.mp hclient
      cases heq
      obtain ⟨hmem, hown⟩ := h.cached dev e (mem_of_getElem? he)
      obtain ⟨hobjects, hcontents⟩ := modify_objects h.objects hmem (f (s.mgr.heap e.2).cache)
      rw [update_eq_self]
      refine ⟨h.congr hobjects rfl rfl (modify_device _ · _), ?_, ?_⟩
      · simp only [Plain.deviceStep, Plain.step, plain, getElem?_map, he, map_some, hcontents, if_pos hown,
          contents_of_mem h.objects hmem hown]
      · intro d hd
        have hne : (s.mgr.heap e.2).device ≠ d := hown ▸ hd.symm
        simp only [plain, hcontents, if_neg hne]
    | release i =>
      obtain ⟨e, he, heq⟩ := map_eq_some_iff.mp hclient
      cases heq
      have hinv := release_shared h he
      have hheld := h.handle (mem_of_getElem? he)
      have hcontents : ∀ d, (s.mgr.release e.2).contents d = s.mgr.contents d := by
        intro d
        rw [release_eq h.objects hheld]
        rfl
      refine ⟨hinv, ?_, ?_⟩
      · simp only [Plain.deviceStep, Plain.step, plain, getElem?_map, he, map_some, hcontents,
          update_self, eraseIdx_map]
      · intro d hd
        simp only [plain, hcontents, update_of_ne hd]
    | syncAll =>
      cases hclient
      obtain ⟨hobjects, hcontents, hqueue, hhandles, -, hdev⟩ := syncAll_objects h.objects
      rw [update_eq_self]
      refine ⟨h.congr hobjects hqueue hhandles hdev, ?_, ?_⟩
      · simp only [Plain.deviceStep, Plain.step, plain, hcontents]
      · intro d _
        simp only [plain, hcontents]

/-! ## A device alone -/

/-- The run so far, and the run of the operations on `dev` alone. -/
structure Alone (dev : Nat) (s c : Shared) : Prop where
  inv : SharedInv s
  solo : SharedInv c
  own : ∀ e ∈ c.mgr.queue, (c.mgr.heap e.2).device = dev
  same : c.plain dev = s.plain dev

variable {c c' : Shared}

section

variable (h : Alone dev s c)
include h

theorem Alone.ids : (c.held dev).map fst = (s.held dev).map fst := congrArg Plain.held h.same

theorem Alone.apart (o : DeviceOp) : c.lookupApart dev o = true := by
  cases o with
  | sync i => rfl
  | cache o =>
    cases o with
    | get id =>
      refine all_eq_true.mpr ?_
      intro e he
      rw [h.own e he]
      simp
    | _ => rfl

/-- Alone, a device finds room where it finds room among others: the objects it holds are those of the
same blocks. -/
theorem Alone.get_isSome {id : Nat} (hget : (s.mgr.getBlockCache id dev).isSome) :
    (c.mgr.getBlockCache id dev).isSome := by
  by_contra hnot
  rw [not_isSome_iff_eq_none, getBlockCache_eq_none h.solo.objects] at hnot
  obtain ⟨hid, hfull, hall⟩ := hnot
  -- each cached block is held alone, so it is held and cached among the others
  have hheld : ∀ e ∈ c.mgr.queue, e.1 ∈ (s.held dev).map fst := by
    intro e he
    have hpos := count_pos_iff.mpr (hall e he)
    rw [h.solo.counted, h.own e he] at hpos
    obtain ⟨x, hx, hxe⟩ := mem_map.mp (count_pos_iff.mp hpos)
    rw [eq_of_snd h.solo.objects.ptrs (h.solo.cached dev x hx).1 he hxe] at hx
    rw [← h.ids]
    exact mem_map_of_mem hx
  have hcached : ∀ j ∈ (s.held dev).map fst, ∃ e ∈ s.mgr.queue, e.1 = j ∧ e.2 ∈ s.mgr.handles := by
    intro j hj
    obtain ⟨e, he, rfl⟩ := mem_map.mp hj
    exact ⟨e, (h.inv.cached dev e he).1, rfl, h.inv.handle he⟩
  have hsub : c.mgr.queue.map fst ⊆ s.mgr.queue.map fst := by
    intro j hj
    obtain ⟨e, he, rfl⟩ := mem_map.mp hj
    obtain ⟨x, hx, hxe, -⟩ := hcached e.1 (hheld e he)
    exact mem_map.mpr ⟨x, hx, hxe⟩
  have hsubperm := subperm_of_subset h.solo.objects.ids hsub
  have hle := h.inv.objects.size
  have hperm : (c.mgr.queue.map fst).Perm (s.mgr.queue.map fst) := by
    refine hsubperm.perm_of_length_le ?_
    rw [length_map, length_map]
    omega
  have hback : ∀ e ∈ s.mgr.queue, ∃ x ∈ c.mgr.queue, x.1 = e.1 := by
    intro e he
    exact mem_map.mp (hperm.mem_iff.mpr (mem_map_of_mem he))
  have hnone : s.mgr.getBlockCache id dev = none := by
    refine (getBlockCache_eq_none h.inv.objects).mpr ⟨?_, ?_, ?_⟩
    · intro e he heq
      obtain ⟨x, hx, hxe⟩ := hback e he
      exact hid x hx (hxe.trans heq)
    · have hlen := hperm.length_eq
      rw [length_map, length_map] at hlen
      omega
    · intro e he
      obtain ⟨x, hx, hxe⟩ := hback e he
      obtain ⟨y, hy, hye, hyh⟩ := hcached x.1 (hheld x hx)
      rwa [eq_of_fst h.inv.objects.ids hy he (hye.trans hxe)] at hyh
  rw [hnone] at hget
  cases hget

theorem Alone.held_isSome {i : Nat} (hi : ((s.held dev)[i]?).isSome) : ((c.held dev)[i]?).isSome := by
  have hlen := congrArg length h.ids
  rw [length_map, length_map] at hlen
  obtain ⟨e, he⟩ := isSome_iff_exists.mp hi
  obtain ⟨hlt, -⟩ := List.getElem?_eq_some_iff.mp he
  rw [getElem?_eq_getElem (by omega), isSome_some]

theorem Alone.step_isSome (hstep : (s.step dev o).isSome) : (c.step dev o).isSome := by
  cases o with
  | sync i =>
    simp only [step, isSome_map] at hstep ⊢
    exact h.held_isSome hstep
  | cache o =>
    simp only [step, isSome_map] at hstep ⊢
    cases o with
    | get id =>
      simp only [Client.step, isSome_map] at hstep ⊢
      exact h.get_isSome hstep
    | syncAll => rfl
    | _ =>
      simp only [Client.step, isSome_map] at hstep ⊢
      exact h.held_isSome hstep

end

/-- Alone, a device's objects are all of that device. -/
theorem own_step (h : SharedInv c) (hown : ∀ e ∈ c.mgr.queue, (c.mgr.heap e.2).device = dev)
    (hstep : c.step dev o = some (x, c')) : ∀ e ∈ c'.mgr.queue, (c'.mgr.heap e.2).device = dev := by
  have hi : CacheInv dev c.mgr := ⟨h.objects, hown⟩
  cases o with
  | sync i =>
    obtain ⟨e, he, heq⟩ := map_eq_some_iff.mp hstep
    cases heq
    intro y hy
    rw [sync_device]
    exact hown y (sync_queue (m := c.mgr) e.2 ▸ hy)
  | cache o =>
    obtain ⟨⟨y, t⟩, hclient, heq⟩ := map_eq_some_iff.mp hstep
    cases heq
    have ht : CacheInv dev t.mgr := by
      cases o with
      | get id =>
        obtain ⟨⟨p, m⟩, hget, heq⟩ := map_eq_some_iff.mp hclient
        cases heq
        exact (getBlockCache_inv hi hget).1
      | read i =>
        obtain ⟨e, he, heq⟩ := map_eq_some_iff.mp hclient
        cases heq
        exact hi
      | modify i f =>
        obtain ⟨e, he, heq⟩ := map_eq_some_iff.mp hclient
        cases heq
        exact (modify_inv hi (h.cached dev e (mem_of_getElem? he)).1 _).1
      | release i =>
        obtain ⟨e, he, heq⟩ := map_eq_some_iff.mp hclient
        cases heq
        exact release_inv hi (h.handle (mem_of_getElem? he))
      | syncAll =>
        cases hclient
        exact (syncAll_inv hi).1
    exact ht.device

/-- An operation on the device itself: the same answer, and still the same. -/
theorem Alone.step (h : Alone dev s c) (hapart : s.lookupApart dev o = true)
    (hstep : s.step dev o = some (x, s')) : ∃ c', c.step dev o = some (x, c') ∧ Alone dev s' c' := by
  obtain ⟨⟨y, c'⟩, hc⟩ := isSome_iff_exists.mp (h.step_isSome (isSome_of_eq_some hstep))
  obtain ⟨hinv, hplain, -⟩ := shared_step h.inv hapart hstep
  obtain ⟨hsolo, hplain', -⟩ := shared_step h.solo (h.apart o) hc
  rw [h.same, hplain, some.injEq, Prod.mk.injEq] at hplain'
  obtain ⟨rfl, hsame⟩ := hplain'
  exact ⟨c', hc, hinv, hsolo, own_step h.solo h.own hc, hsame.symm⟩

theorem run_alone (es : List (Nat × DeviceOp)) (h : Alone dev s c) (hapart : s.lookupsApart es = true) :
    ∃ xs s' c', s.run es = some (xs, s') ∧ c.run (es.filter (·.1 == dev)) = some (xs.filter (·.1 == dev), c') ∧
      Alone dev s' c' := by
  induction es generalizing s c with
  | nil => exact ⟨[], s, c, rfl, rfl, h⟩
  | cons e es ih =>
    simp only [lookupsApart, Bool.and_eq_true] at hapart
    obtain ⟨⟨hown, hroom⟩, hapart⟩ := hapart
    obtain ⟨⟨x, s₁⟩, hstep⟩ := isSome_iff_exists.mp (h.inv.step_isSome hroom)
    rw [hstep, all_some] at hapart
    by_cases he : e.1 = dev
    · subst he
      obtain ⟨c₁, hc₁, h₁⟩ := h.step hown hstep
      obtain ⟨ys, s₂, c₂, hs₂, hc₂, h₂⟩ := ih h₁ hapart
      refine ⟨(e.1, x) :: ys, s₂, c₂, by simp only [run, hstep, hs₂, bind_eq_bind, bind_some], ?_, h₂⟩
      rw [filter_cons_of_pos (by simp), filter_cons_of_pos (by simp)]
      simp only [run, hc₁, hc₂, bind_eq_bind, bind_some]
    · obtain ⟨hinv, -, hother⟩ := shared_step h.inv hown hstep
      have h₁ : Alone dev s₁ c := ⟨hinv, h.solo, h.own, h.same.trans (hother dev (Ne.symm he)).symm⟩
      obtain ⟨ys, s₂, c₂, hs₂, hc₂, h₂⟩ := ih h₁ hapart
      refine ⟨(e.1, x) :: ys, s₂, c₂, by simp only [run, hstep, hs₂, bind_eq_bind, bind_some], ?_, h₂⟩
      rw [filter_cons_of_neg (by simpa using he), filter_cons_of_neg (by simpa using he)]
      exact hc₂

/-- An interleaving on any number of devices, from the empty cache on, in which no lookup meets an object of
another device or a queue full of held objects: it comes to its end. A device's own operations alone give the same
answers, leave the same contents, and the same bytes on the device once everything is flushed. -/
theorem devices_apart (devices : Nat → Nat → Block) (es : List (Nat × DeviceOp))
    (hapart : (start devices).lookupsApart es = true) (dev : Nat) :
    ∃ xs s c, (start devices).run es = some (xs, s) ∧
      (start devices).run (es.filter (·.1 == dev)) = some (xs.filter (·.1 == dev), c) ∧
      s.mgr.contents dev = c.mgr.contents dev ∧ s.mgr.syncAll.devices dev = c.mgr.syncAll.devices dev := by
  have h₀ : Alone dev (start devices) (start devices) :=
    ⟨start_shared devices, start_shared devices, by simp [start, empty], rfl⟩
  obtain ⟨xs, s, c, hs, hc, h⟩ := run_alone es h₀ hapart
  have hsame : s.mgr.contents dev = c.mgr.contents dev := congrArg Plain.blocks h.same.symm
  obtain ⟨hs', hscontents, -, -, hssync, -⟩ := syncAll_objects h.inv.objects
  obtain ⟨hc', hccontents, -, -, hcsync, -⟩ := syncAll_objects h.solo.objects
  refine ⟨xs, s, c, hs, hc, hsame, ?_⟩
  rw [contents_of_synced hs' hssync, contents_of_synced hc' hcsync, hscontents, hccontents, hsame]

/-- Device 0 changes its block 0 and device 1 its block 1. -/
theorem devices_apart_two : ∃ xs s c, (start fun _ _ => zero).run
    [(0, .cache (.get 0)), (1, .cache (.get 1)), (0, .cache (.modify 0 fun b => b.setEntry 0 5)),
      (1, .cache (.modify 0 fun b => b.setEntry 0 7)), (1, .sync 0), (0, .cache (.read 0))] = some (xs, s) ∧
    (start fun _ _ => zero).run
      [(0, .cache (.get 0)), (0, .cache (.modify 0 fun b => b.setEntry 0 5)), (0, .cache (.read 0))] =
        some (xs.filter (·.1 == 0), c) ∧ s.mgr.contents 0 = c.mgr.contents 0 := by
  obtain ⟨xs, s, c, hs, hc, hsame, -⟩ := devices_apart (fun _ _ => zero)
    [(0, .cache (.get 0)), (1, .cache (.get 1)), (0, .cache (.modify 0 fun b => b.setEntry 0 5)),
      (1, .cache (.modify 0 fun b => b.setEntry 0 7)), (1, .sync 0), (0, .cache (.read 0))] (by rfl) 0
  exact ⟨xs, s, c, hs, hc, hsame⟩

/-- Device 1 changes its block 0, and device 0 reads the change in its own block 0. -/
theorem devices_interfere :
    ((start fun _ _ => zero).run
      [(0, .cache (.get 0)), (1, .cache (.get 0)), (1, .cache (.modify 0 fun b => b.setEntry 0 7)), (0, .cache (.read 0))]).map
        (fun r => r.1.filter (·.1 == 0)) = some [(0, .done), (0, .bytes (zero.setEntry 0 7))] ∧
    ((start fun _ _ => zero).run [(0, .cache (.get 0)), (0, .cache (.read 0))]).map fst =
      some [(0, .done), (0, .bytes zero)] ∧
    zero.setEntry 0 7 ≠ zero := by
  refine ⟨rfl, rfl, ?_⟩
  intro heq
  have hentry : (zero.setEntry 0 7).entry 0 = zero.u32 0 := congrArg (u32 · 0) heq
  rw [entry_setEntry_same _ _ (by decide), u32_zero 0 (by decide)] at hentry
  exact absurd hentry (by decide)

end TCore.EasyFs
