/-
  TCore.EasyFs.CacheProofs — the block cache is transparent (see `TCore.EasyFs.BlockCache`).

  `CacheInv` says what the manager keeps when every lookup is for one device: `ManagerInv`, with
  all objects of that device. `view` is a block's logical contents: the cached bytes, or the
  device's.

  - One lemma for each operation: it keeps `CacheInv` and says what it does to `view`.
-/

import TCore.EasyFs.CacheObjects

namespace TCore.EasyFs

open List Option Client

namespace Manager

/-- A block's logical contents, when the cache serves one device. -/
def view (dev : Nat) (m : Manager) (id : Nat) : Block :=
  match m.queue.find? fun e => e.1 == id with
  | some e => (m.heap e.2).cache
  | none => m.devices dev id

end Manager

open Manager

structure CacheInv (dev : Nat) (m : Manager) : Prop extends ManagerInv m where
  device : ∀ e ∈ m.queue, (m.heap e.2).device = dev

variable {dev : Nat} {m : Manager} {e : Nat × Nat}

theorem view_eq_contents (hi : CacheInv dev m) : m.view dev = m.contents dev := by
  funext id
  unfold view contents
  cases hf : m.queue.find? fun x => x.1 == id with
  | none => rfl
  | some e => exact (if_pos (hi.device _ (mem_of_find?_eq_some hf))).symm

variable {m' : Manager}

/-- What keeps the contents of every device keeps those of the one. -/
theorem view_of_contents (hi : CacheInv dev m) (hi' : CacheInv dev m')
    (h : ∀ d, m'.contents d = m.contents d) : m'.view dev = m.view dev := by
  rw [view_eq_contents hi, view_eq_contents hi', h]

section

variable (hi : CacheInv dev m)
include hi

theorem view_of_mem (he : e ∈ m.queue) : m.view dev e.1 = (m.heap e.2).cache := by
  rw [view_eq_contents hi, contents_of_mem hi.toManagerInv he (hi.device e he)]

/-! ## The operations -/

theorem release_inv {p : Nat} (hp : p ∈ m.handles) : CacheInv dev (m.release p) := by
  refine ⟨release_objects hi.toManagerInv hp, ?_⟩
  rw [release_eq hi.toManagerInv hp]
  exact hi.device

theorem modify_inv (he : e ∈ m.queue) (b : Block) :
    CacheInv dev (m.modify e.2 b) ∧ (m.modify e.2 b).view dev = Function.update (m.view dev) e.1 b := by
  obtain ⟨hobjects, hcontents⟩ := modify_objects hi.toManagerInv he b
  have hinv : CacheInv dev (m.modify e.2 b) := by
    refine ⟨hobjects, fun x hx => ?_⟩
    rw [modify_device]
    exact hi.device _ hx
  refine ⟨hinv, ?_⟩
  rw [view_eq_contents hinv, view_eq_contents hi, hcontents, if_pos (hi.device e he)]

/-- A lookup that returns: the handle refers to the block's object in the queue, and no
    block's contents change. -/
theorem getBlockCache_inv {id p : Nat}
    (h : m.getBlockCache id dev = some (p, m')) :
    CacheInv dev m' ∧ m'.view dev = m.view dev ∧ (id, p) ∈ m'.queue ∧ m'.handles = p :: m.handles ∧
      ∀ e ∈ m.queue, e.2 ∈ m.handles → e ∈ m'.queue := by
  obtain ⟨hobjects, hcontents, hmem, hhandles, hkeep, hheap⟩ := getBlockCache_objects hi.toManagerInv h
  have hinv : CacheInv dev m' := by
    refine ⟨hobjects, fun e he => ?_⟩
    rcases hheap e he with ⟨hmem, heq⟩ | ⟨rfl, heq⟩
    · rw [heq]
      exact hi.device _ hmem
    · rw [heq]
  exact ⟨hinv, view_of_contents hi hinv hcontents, hmem, hhandles, hkeep⟩

/-- With at most 15 distinct objects held, a full queue has one that nobody holds. -/
theorem getBlockCache_progress (hh : m.handles.dedup.length ≤ 15) (id : Nat) :
    ∃ p m', m.getBlockCache id dev = some (p, m') := by
  cases hget : m.getBlockCache id dev with
  | some r => exact ⟨r.1, r.2, rfl⟩
  | none =>
    obtain ⟨-, hfull, hall⟩ := (getBlockCache_eq_none hi.toManagerInv).mp hget
    have hsub : m.queue.map Prod.snd ⊆ m.handles.dedup := by
      intro p hp
      obtain ⟨e, he, rfl⟩ := mem_map.mp hp
      exact mem_dedup.mpr (hall e he)
    have hle := (subperm_of_subset hi.ptrs hsub).length_le
    rw [length_map] at hle
    omega

theorem devices_of_synced (hs : Synced m) : m.devices dev = m.view dev := by
  rw [view_eq_contents hi, contents_of_synced hi.toManagerInv hs]

theorem syncAll_inv : CacheInv dev m.syncAll ∧ m.syncAll.view dev = m.view dev ∧
    m.syncAll.queue = m.queue ∧ m.syncAll.handles = m.handles ∧ Synced m.syncAll := by
  obtain ⟨hobjects, hcontents, hqueue, hhandles, hsync, hdev⟩ := syncAll_objects hi.toManagerInv
  have hinv : CacheInv dev m.syncAll := by
    refine ⟨hobjects, fun e he => ?_⟩
    rw [hqueue] at he
    rw [hdev]
    exact hi.device _ he
  exact ⟨hinv, view_of_contents hi hinv hcontents, hqueue, hhandles, hsync⟩

end

/-! ## Handles -/

/-- The cache and the handles to it: the block each was taken for, and its object. -/
structure Serves (dev : Nat) (m : Manager) (refs : List (Nat × Nat)) : Prop extends CacheInv dev m where
  cached : ∀ h ∈ refs, h ∈ m.queue
  handles : m.handles.Perm (refs.map Prod.snd)

namespace Serves

variable {refs refs' : List (Nat × Nat)}

theorem empty_serves (devices : Nat → Nat → Block) : Serves dev (empty devices) [] :=
  ⟨⟨empty_objects devices, by simp [empty]⟩, by simp, by simp [empty]⟩

theorem perm (h : Serves dev m refs) (hp : refs.Perm refs') : Serves dev m refs' :=
  ⟨h.toCacheInv, fun e he => h.cached e (hp.mem_iff.mpr he), h.handles.trans (hp.map _)⟩

theorem handle (h : Serves dev m refs) (he : e ∈ refs) : e.2 ∈ m.handles := h.handles.mem_iff.mpr (mem_map_of_mem he)

theorem get {id p : Nat} (h : Serves dev m refs) (hg : m.getBlockCache id dev = some (p, m')) :
    Serves dev m' ((id, p) :: refs) ∧ m'.view dev = m.view dev := by
  obtain ⟨hi, hv, hmem, hh, hkeep⟩ := getBlockCache_inv h.toCacheInv hg
  refine ⟨⟨hi, ?_, ?_⟩, hv⟩
  · intro e he
    rcases mem_cons.mp he with rfl | he
    · exact hmem
    · exact hkeep e (h.cached e he) (h.handle he)
  · rw [hh]
    exact h.handles.cons p

theorem modify (h : Serves dev m refs) (he : e ∈ m.queue) (b : Block) : Serves dev (m.modify e.2 b) refs :=
  ⟨(modify_inv h.toCacheInv he b).1, h.cached, h.handles⟩

theorem release (h : Serves dev m (e :: refs)) : Serves dev (m.release e.2) refs ∧ (m.release e.2).view dev = m.view dev := by
  have hp := h.handle mem_cons_self
  have hinv := release_inv h.toCacheInv hp
  rw [release_eq h.toManagerInv hp] at hinv ⊢
  refine ⟨⟨hinv, fun x hx => h.cached x (mem_cons_of_mem _ hx), ?_⟩, rfl⟩
  simpa using h.handles.erase e.2

theorem syncAll (h : Serves dev m refs) : Serves dev m.syncAll refs := by
  obtain ⟨hi, -, hq, hh, -⟩ := syncAll_inv h.toCacheInv
  exact ⟨hi, by rw [hq]; exact h.cached, by rw [hh]; exact h.handles⟩

/-- Objects and blocks correspond, so as many objects are refs as blocks. -/
theorem handles_dedup_le (h : Serves dev m refs) : m.handles.dedup.length ≤ (refs.map Prod.fst).dedup.length := by
  have himg : (refs.map Prod.snd).toFinset =
      (refs.map Prod.fst).toFinset.image fun id => ((m.queue.find? fun e => e.1 == id).map Prod.snd).getD 0 := by
    have hg : ∀ x ∈ refs, ((m.queue.find? fun e => e.1 == x.1).map Prod.snd).getD 0 = x.2 := by
      intro x hx
      cases hf : m.queue.find? fun e => e.1 == x.1 with
      | none => exact absurd (find?_eq_none.mp hf x (h.cached x hx)) (by simp)
      | some y =>
        have hy : y.1 = x.1 := by simpa using find?_some hf
        rw [eq_of_fst h.ids (mem_of_find?_eq_some hf) (h.cached x hx) hy]
        rfl
    ext p
    simp only [List.mem_toFinset, List.mem_map, Finset.mem_image]
    constructor
    · rintro ⟨x, hx, rfl⟩
      exact ⟨x.1, ⟨x, hx, rfl⟩, hg x hx⟩
    · rintro ⟨id, ⟨x, hx, rfl⟩, rfl⟩
      exact ⟨x, hx, (hg x hx).symm⟩
  rw [h.handles.dedup.length_eq, ← List.card_toFinset, ← List.card_toFinset, himg]
  exact Finset.card_image_le

end Serves

/-! ## Clients -/

/-- A client and the reference it agrees with: the same blocks, the same handles. -/
structure Agrees (dev : Nat) (c : Client) (r : Plain) : Prop where
  serves : Serves dev c.mgr c.held
  blocks : c.mgr.view dev = r.blocks
  ids : c.held.map Prod.fst = r.held

theorem step_agrees {c : Client} {r r' : Plain} {o : CacheOp} {x : CacheOut} (h : Agrees dev c r)
    (h15 : r.held.dedup.length ≤ 15) (hs : r.step o = some (x, r')) :
    ∃ c', c.step dev o = some (x, c') ∧ Agrees dev c' r' := by
  have hinv := h.serves.toCacheInv
  have hat : ∀ (i id : Nat), r.held[i]? = some id → ∃ p, c.held[i]? = some (id, p) ∧ (id, p) ∈ c.mgr.queue := by
    intro i id hid
    rw [← h.ids, getElem?_map] at hid
    obtain ⟨⟨id', p⟩, he, rfl⟩ := map_eq_some_iff.mp hid
    exact ⟨p, he, h.serves.cached _ (mem_of_getElem? he)⟩
  cases o with
  | get id =>
    cases hs
    have hd := h.serves.handles_dedup_le
    rw [h.ids] at hd
    obtain ⟨p, m', hg⟩ := getBlockCache_progress hinv (le_trans hd h15) id
    obtain ⟨hserves, hv⟩ := h.serves.get hg
    exact ⟨⟨m', c.held ++ [(id, p)]⟩, by simp [step, hg], hserves.perm (perm_append_singleton _ _).symm, hv.trans h.blocks,
      by simp [h.ids]⟩
  | read i =>
    obtain ⟨id, hid, hx⟩ := map_eq_some_iff.mp hs
    cases hx
    obtain ⟨p, hp, hm⟩ := hat i id hid
    refine ⟨c, ?_, h⟩
    simp only [step, hp, map_some]
    rw [← h.blocks, view_of_mem hinv hm]
  | modify i f =>
    obtain ⟨id, hid, hx⟩ := map_eq_some_iff.mp hs
    cases hx
    obtain ⟨p, hp, hm⟩ := hat i id hid
    refine ⟨{ c with mgr := c.mgr.modify p (f (c.mgr.heap p).cache) }, ?_, h.serves.modify hm _, ?_, h.ids⟩
    · simp only [step, hp, map_some]
    · rw [(modify_inv hinv hm _).2, h.blocks, ← view_of_mem hinv hm, h.blocks]
  | release i =>
    obtain ⟨id, hid, hx⟩ := map_eq_some_iff.mp hs
    cases hx
    obtain ⟨p, hp, hm⟩ := hat i id hid
    obtain ⟨hlt, hget⟩ := List.getElem?_eq_some_iff.mp hp
    have hperm := getElem_cons_eraseIdx_perm hlt
    rw [hget] at hperm
    obtain ⟨hserves, hv⟩ := (h.serves.perm hperm.symm).release
    refine ⟨⟨c.mgr.release p, c.held.eraseIdx i⟩, by simp only [step, hp, map_some], hserves, hv.trans h.blocks, ?_⟩
    show (c.held.eraseIdx i).map Prod.fst = r.held.eraseIdx i
    rw [← h.ids, eraseIdx_map]
  | syncAll =>
    cases hs
    exact ⟨{ c with mgr := c.mgr.syncAll }, rfl, h.serves.syncAll, (syncAll_inv hinv).2.1.trans h.blocks, h.ids⟩

theorem run_agrees (os : List CacheOp) {c : Client} {r r' : Plain} {xs : List CacheOut} (h : Agrees dev c r)
    (h15 : r.held.dedup.length ≤ 15) (hs : r.run os = some (xs, r')) :
    ∃ c', c.run dev os = some (xs, c') ∧ Agrees dev c' r' := by
  induction os generalizing c r xs with
  | nil => cases hs; exact ⟨c, rfl, h⟩
  | cons o os ih =>
    simp only [Plain.run, bind_eq_bind, bind_eq_some_iff] at hs
    obtain ⟨⟨x, r1⟩, hstep, hrest⟩ := hs
    split at hrest
    · rename_i hle
      obtain ⟨⟨ys, r2⟩, hrun, hout⟩ := bind_eq_some_iff.mp hrest
      cases hout
      obtain ⟨c1, hc1, h1⟩ := step_agrees h h15 hstep
      obtain ⟨c2, hc2, h2⟩ := ih h1 hle hrun
      exact ⟨c2, by simp only [run, hc1, hc2, bind_eq_bind, bind_some], h2⟩
    · cases hrest

/-- Any sequence of lookups, reads, changes, releases and flushes that holds at most 15
    distinct blocks at once runs through, never out of cache; it reads what it would read
    with no cache; the queue has one entry for each block in it and at most 16; and a flush
    leaves every block on the device as the client sees it. -/
theorem cache_transparent (dev : Nat) (devices : Nat → Nat → Block) (ops : List CacheOp) (outs : List CacheOut)
    (r : Plain) (h : Plain.run ⟨devices dev, []⟩ ops = some (outs, r)) :
    ∃ c, Client.run dev ⟨empty devices, []⟩ ops = some (outs, c) ∧ (c.mgr.queue.map Prod.fst).Nodup ∧
      c.mgr.queue.length ≤ 16 ∧
      ∃ c', c.step dev .syncAll = some (.done, c') ∧ ∀ id, c'.mgr.devices dev id = r.blocks id := by
  have h0 : Agrees dev ⟨empty devices, []⟩ ⟨devices dev, []⟩ :=
    ⟨.empty_serves devices, rfl, rfl⟩
  obtain ⟨c, hc, ha⟩ := run_agrees ops h0 (by simp) h
  obtain ⟨hi, hv, -, -, hsync⟩ := syncAll_inv ha.serves.toCacheInv
  refine ⟨c, hc, ha.serves.ids, ha.serves.size, _, rfl, fun id => ?_⟩
  rw [devices_of_synced hi hsync, hv, ha.blocks]

/-- A block is changed, read back and released. -/
theorem cache_transparent_modify : ∃ c, Client.run 0 ⟨empty fun _ _ => Block.zero, []⟩
    [.get 7, .modify 0 fun b => b.setEntry 0 5, .read 0, .release 0] =
      some ([.done, .done, .bytes (Block.zero.setEntry 0 5), .done], c) ∧ (c.mgr.queue.map Prod.fst).Nodup ∧
      c.mgr.queue.length ≤ 16 ∧
      ∃ c', c.step 0 .syncAll = some (.done, c') ∧
        ∀ id, c'.mgr.devices 0 id = Function.update (fun _ => Block.zero) 7 (Block.zero.setEntry 0 5) id :=
  cache_transparent 0 (fun _ _ => Block.zero) _ _ ⟨Function.update (fun _ => Block.zero) 7 (Block.zero.setEntry 0 5), []⟩
    (by simp [Plain.run, Plain.step])

end TCore.EasyFs
