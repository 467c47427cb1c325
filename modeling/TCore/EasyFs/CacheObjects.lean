/-
  TCore.EasyFs.CacheObjects — what the cache manager keeps, whatever devices its blocks are of
  (see `TCore.EasyFs.BlockCache`).

  `ManagerInv`: one object for each cached block id, at most 16 of them, every handle referring to
  an object of the queue, and a clean object holding what its own device holds. `contents dev` are
  the logical contents of a device: the cached bytes where the object of the id is of that device,
  the device's bytes elsewhere.

  - One lemma for each operation: it keeps `ManagerInv` and says what it does to the contents of
    every device.
-/

import TCore.EasyFs.BlockCache

namespace TCore.EasyFs

open List
open Function (update_of_ne update_self update)

namespace Manager

/-- A block's logical contents on a device. -/
def contents (dev : Nat) (m : Manager) (id : Nat) : Block :=
  match m.queue.find? fun e => e.1 == id with
  | some e => if (m.heap e.2).device = dev then (m.heap e.2).cache else m.devices dev id
  | none => m.devices dev id

end Manager

open Manager Prod

structure ManagerInv (m : Manager) : Prop where
  ids : (m.queue.map fst).Nodup
  ptrs : (m.queue.map snd).Nodup
  fresh : ∀ e ∈ m.queue, e.2 < m.next
  owner : ∀ e ∈ m.queue, (m.heap e.2).blockId = e.1
  clean : ∀ e ∈ m.queue, (m.heap e.2).modified = false → (m.heap e.2).cache = m.devices (m.heap e.2).device e.1
  held : ∀ p ∈ m.handles, p ∈ m.queue.map snd
  size : m.queue.length ≤ 16

variable {dev : Nat} {m : Manager}

theorem empty_objects (devices : Nat → Nat → Block) : ManagerInv (empty devices) :=
  ⟨by simp [empty], by simp [empty], by simp [empty], by simp [empty], by simp [empty], by simp [empty], by simp [empty]⟩

/-! ## Looking a block up -/

theorem eq_of_fst {l : List (Nat × Nat)} (h : (l.map fst).Nodup) {a b : Nat × Nat} (ha : a ∈ l) (hb : b ∈ l)
    (e : a.1 = b.1) : a = b :=
  inj_on_of_nodup_map h ha hb e

theorem eq_of_snd {l : List (Nat × Nat)} (h : (l.map snd).Nodup) {a b : Nat × Nat} (ha : a ∈ l) (hb : b ∈ l)
    (e : a.2 = b.2) : a = b :=
  inj_on_of_nodup_map h ha hb e

variable {e : Nat × Nat}

theorem contents_of_mem (hi : ManagerInv m) (he : e ∈ m.queue) (hd : (m.heap e.2).device = dev) :
    m.contents dev e.1 = (m.heap e.2).cache := by
  unfold contents
  cases hf : m.queue.find? fun x => x.1 == e.1 with
  | none => exact absurd (find?_eq_none.mp hf e he) (by simp)
  | some x =>
    have hx : x.1 = e.1 := by simpa using find?_some hf
    rw [eq_of_fst hi.ids (mem_of_find?_eq_some hf) he hx]
    exact if_pos hd

variable {id : Nat}

theorem contents_of_not_mem (h : ∀ e ∈ m.queue, e.1 = id → (m.heap e.2).device ≠ dev) :
    m.contents dev id = m.devices dev id := by
  unfold contents
  cases hf : m.queue.find? fun x => x.1 == id with
  | none => rfl
  | some x =>
    have hx : x.1 = id := by simpa using find?_some hf
    exact if_neg (h x (mem_of_find?_eq_some hf) hx)

variable {m' : Manager}

/-- Two managers with the same objects for the blocks of a device, and a device that agrees on the
    others, show the same contents. -/
theorem contents_ext (hi' : ManagerInv m')
    (hc : ∀ e ∈ m'.queue, (m'.heap e.2).device = dev → (m'.heap e.2).cache = m.contents dev e.1)
    (hd : ∀ id, (∀ e ∈ m'.queue, e.1 = id → (m'.heap e.2).device ≠ dev) → m'.devices dev id = m.contents dev id) :
    m'.contents dev = m.contents dev := by
  funext id
  by_cases h : ∀ e ∈ m'.queue, e.1 = id → (m'.heap e.2).device ≠ dev
  · rw [contents_of_not_mem h, hd id h]
  · push Not at h
    obtain ⟨e, he, rfl, hdev⟩ := h
    rw [contents_of_mem hi' he hdev, hc e he hdev]

/-! ## Writing back -/

@[simp] theorem sync_queue (p : Nat) : (m.sync p).queue = m.queue := by
  unfold sync; split <;> rfl

@[simp] theorem sync_handles (p : Nat) : (m.sync p).handles = m.handles := by
  unfold sync; split <;> rfl

@[simp] theorem sync_next (p : Nat) : (m.sync p).next = m.next := by
  unfold sync; split <;> rfl

variable {p : Nat}

theorem sync_heap_ne {q : Nat} (h : q ≠ p) : (m.sync p).heap q = m.heap q := by
  unfold sync writeBlock
  split
  · simp [update_of_ne h]
  · rfl

theorem sync_heap_same (p : Nat) : (m.sync p).heap p = { m.heap p with modified := false } := by
  unfold sync writeBlock
  split
  · simp
  · rename_i h
    cases hp : m.heap p with
    | mk c b d md => rw [hp] at h; simp_all

@[simp] theorem sync_cache (p q : Nat) : ((m.sync p).heap q).cache = (m.heap q).cache := by
  by_cases h : q = p
  · subst h; rw [sync_heap_same]
  · rw [sync_heap_ne h]

@[simp] theorem sync_blockId (p q : Nat) : ((m.sync p).heap q).blockId = (m.heap q).blockId := by
  by_cases h : q = p
  · subst h; rw [sync_heap_same]
  · rw [sync_heap_ne h]

@[simp] theorem sync_device (p q : Nat) : ((m.sync p).heap q).device = (m.heap q).device := by
  by_cases h : q = p
  · subst h; rw [sync_heap_same]
  · rw [sync_heap_ne h]

theorem sync_setQueue (p : Nat) (q : List (Nat × Nat)) : sync { m with queue := q } p = { m.sync p with queue := q } := by
  unfold sync writeBlock
  split <;> rfl

/-- What the devices hold after one object was written back. -/
theorem sync_devices (p d id : Nat) : (m.sync p).devices d id =
    if (m.heap p).modified = true ∧ d = (m.heap p).device ∧ id = (m.heap p).blockId then (m.heap p).cache
    else m.devices d id := by
  unfold sync writeBlock
  by_cases hm : (m.heap p).modified = true
  · simp only [hm, if_true, true_and]
    by_cases hd : d = (m.heap p).device
    · subst hd
      by_cases e : id = (m.heap p).blockId
      · subst e; simp
      · rw [if_neg (fun h => e h.2), update_self, update_of_ne e]
    · rw [if_neg (fun h => hd h.1), update_of_ne hd]
  · simp [hm]

theorem sync_objects (hi : ManagerInv m) (he : e ∈ m.queue) :
    ManagerInv (m.sync e.2) ∧ ∀ d, (m.sync e.2).contents d = m.contents d := by
  have hown := hi.owner e he
  have hinv : ManagerInv (m.sync e.2) := by
    refine ⟨by simpa using hi.ids, by simpa using hi.ptrs, by simpa using hi.fresh, by simpa using hi.owner, ?_,
      by simpa using hi.held, by simpa using hi.size⟩
    intro x hx hmod
    rw [sync_queue] at hx
    rw [sync_cache, sync_device, sync_devices, hown]
    by_cases hxe : x.2 = e.2
    · -- the object written back: its block now holds its bytes
      have := eq_of_snd hi.ptrs hx he hxe
      subst this
      by_cases hm : (m.heap x.2).modified = true
      · rw [if_pos ⟨hm, rfl, rfl⟩]
      · rw [if_neg (by simp [hm])]
        exact hi.clean x hx (by simpa using hm)
    · rw [sync_heap_ne hxe] at hmod
      rw [if_neg ?_]
      · exact hi.clean x hx hmod
      · intro ⟨_, _, h⟩
        exact hxe (congrArg snd (eq_of_fst hi.ids hx he h))
  refine ⟨hinv, fun d => contents_ext hinv ?_ ?_⟩
  · intro x hx hdev
    rw [sync_queue] at hx
    rw [sync_device] at hdev
    rw [sync_cache, contents_of_mem hi hx hdev]
  · intro id hid
    simp only [sync_queue, sync_device] at hid
    rw [sync_devices, if_neg, contents_of_not_mem hid]
    intro ⟨_, hd, h⟩
    exact hid e he (by rw [h, hown]) hd.symm

/-! ## Handles -/

/-- The queue still refers to the object of a handle, so dropping the handle does not drop it. -/
theorem release_eq (hi : ManagerInv m) (hp : p ∈ m.handles) :
    m.release p = { m with handles := m.handles.erase p } := by
  unfold release dropped
  have : 0 < (m.queue.map snd).count p := count_pos_iff.mpr (hi.held p hp)
  rw [if_neg (by simp only [strongCount]; omega)]

theorem release_objects (hi : ManagerInv m) (hp : p ∈ m.handles) : ManagerInv (m.release p) := by
  rw [release_eq hi hp]
  exact ⟨hi.ids, hi.ptrs, hi.fresh, hi.owner, hi.clean, fun q hq => hi.held q (mem_of_mem_erase hq), hi.size⟩

theorem modify_heap (p q : Nat) (b : Block) : (m.modify p b).heap q =
    if q = p then { m.heap p with cache := b, modified := true } else m.heap q := by
  simp only [Manager.modify, Function.update_apply]

@[simp] theorem modify_device (p q : Nat) (b : Block) : ((m.modify p b).heap q).device = (m.heap q).device := by
  rw [modify_heap]
  split
  · rename_i h; rw [h]
  · rfl

section

variable (hi : ManagerInv m)
include hi

theorem modify_objects (he : e ∈ m.queue) (b : Block) :
    ManagerInv (m.modify e.2 b) ∧ ∀ d, (m.modify e.2 b).contents d =
      if (m.heap e.2).device = d then update (m.contents d) e.1 b else m.contents d := by
  have hinv : ManagerInv (m.modify e.2 b) := by
    refine ⟨hi.ids, hi.ptrs, hi.fresh, fun x hx => ?_, fun x hx hmod => ?_, hi.held, hi.size⟩
    · rw [modify_heap]
      split
      · rename_i h
        have := eq_of_snd hi.ptrs hx he h
        subst this
        exact hi.owner x hx
      · exact hi.owner x hx
    · rw [modify_heap] at hmod ⊢
      split at hmod
      · cases hmod
      · rename_i h
        rw [if_neg h]
        exact hi.clean x hx hmod
  refine ⟨hinv, fun d => ?_⟩
  -- the objects of other blocks are as they were
  have hother : ∀ id, (id ≠ e.1 ∨ (m.heap e.2).device ≠ d) → (m.modify e.2 b).contents d id = m.contents d id := by
    intro id hid
    by_cases hm : ∀ x ∈ m.queue, x.1 = id → (m.heap x.2).device ≠ d
    · have hm' : ∀ x ∈ (m.modify e.2 b).queue, x.1 = id → ((m.modify e.2 b).heap x.2).device ≠ d := by
        intro x hx
        rw [modify_device]
        exact hm x hx
      rw [contents_of_not_mem hm, contents_of_not_mem hm']
      rfl
    · push Not at hm
      obtain ⟨x, hx, rfl, hdev⟩ := hm
      rw [contents_of_mem hinv hx (by simpa using hdev), contents_of_mem hi hx hdev, modify_heap, if_neg]
      intro h'
      have heq := eq_of_snd hi.ptrs hx he h'
      subst heq
      rcases hid with hid | hid
      · exact hid rfl
      · exact hid hdev
  by_cases hd : (m.heap e.2).device = d
  · rw [if_pos hd]
    funext id
    by_cases h : id = e.1
    · subst h
      rw [update_self, contents_of_mem hinv he (by simpa using hd), modify_heap, if_pos rfl]
    · rw [update_of_ne h, hother id (.inl h)]
  · rw [if_neg hd]
    funext id
    exact hother id (.inr hd)

/-! ## Making room -/

/-- Dropping a clean object that only the queue refers to loses nothing. -/
theorem evict_objects {i : Nat} (hlt : i < m.queue.length) (hu : m.queue[i].2 ∉ m.handles)
    (hclean : (m.heap m.queue[i].2).modified = false) :
    ManagerInv { m with queue := m.queue.eraseIdx i } ∧
      ∀ d, contents d { m with queue := m.queue.eraseIdx i } = m.contents d := by
  have hsub := eraseIdx_sublist m.queue i
  have hperm := getElem_cons_eraseIdx_perm hlt
  have hinv : ManagerInv { m with queue := m.queue.eraseIdx i } := by
    refine ⟨hi.ids.sublist (hsub.map _), hi.ptrs.sublist (hsub.map _), fun x hx => hi.fresh x (hsub.subset hx),
      fun x hx => hi.owner x (hsub.subset hx), fun x hx => hi.clean x (hsub.subset hx), ?_, hsub.length_le.trans hi.size⟩
    intro p hp
    rcases mem_cons.mp ((hperm.map snd).mem_iff.mpr (hi.held p hp)) with rfl | hmem
    · exact absurd hp hu
    · exact hmem
  refine ⟨hinv, fun d => contents_ext hinv ?_ ?_⟩
  · intro x hx hd
    exact (contents_of_mem hi (hsub.subset hx) hd).symm
  · intro id hid
    by_cases h : m.queue[i].1 = id ∧ (m.heap m.queue[i].2).device = d
    · obtain ⟨rfl, rfl⟩ := h
      rw [contents_of_mem hi (getElem_mem hlt) rfl, hi.clean _ (getElem_mem hlt) hclean]
    · rw [contents_of_not_mem]
      intro x hx hxid hxd
      rcases mem_cons.mp (hperm.mem_iff.mpr hx) with rfl | hx
      · exact h ⟨hxid, hxd⟩
      · exact hid x hx hxid hxd

/-- Making room writes back what goes, and leaves what stays as it is. -/
theorem substitute_objects (h : m.substitute = some m') :
    ManagerInv m' ∧ (∀ d, m'.contents d = m.contents d) ∧ m'.queue.length < 16 ∧ m'.queue.Sublist m.queue ∧
      m'.handles = m.handles ∧ ∀ e ∈ m'.queue, m'.heap e.2 = m.heap e.2 := by
  unfold substitute at h
  split at h
  · split at h
    · rename_i hfull _ i hf
      obtain ⟨hlt, hone, -⟩ := findIdx?_eq_some_iff_getElem.mp hf
      have hmem := getElem_mem hlt
      have hsub := eraseIdx_sublist m.queue i
      have hptrs := hi.ptrs
      have hcount := ((getElem_cons_eraseIdx_perm hlt).map snd).count_eq m.queue[i].2
      rw [← ((getElem_cons_eraseIdx_perm hlt).map snd).nodup_iff, map_cons, nodup_cons] at hptrs
      rw [map_cons, count_cons_self] at hcount
      simp only [strongCount, beq_iff_eq] at hone
      have hu : m.queue[i].2 ∉ m.handles := count_eq_zero.mp (by omega)
      obtain ⟨hi1, hv1⟩ := sync_objects hi hmem
      obtain ⟨hi2, hv2⟩ := evict_objects hi1 (i := i) (by simpa using hlt) (by simpa using hu)
        (by simp only [sync_queue, sync_heap_same])
      rw [show m.queue.getD i (0, 0) = m.queue[i] by simp [List.getD, hlt], dropped, if_pos (by simp only [strongCount]; omega),
        sync_setQueue] at h
      cases h
      simp only [sync_queue] at hi2 hv2
      refine ⟨hi2, fun d => (hv2 d).trans (hv1 d), ?_, hsub, sync_handles _, ?_⟩
      · rw [length_eraseIdx_of_lt hlt]
        omega
      · intro e he
        exact sync_heap_ne fun heq => hptrs.1 (heq ▸ mem_map_of_mem he)
    · cases h
  · rename_i hfull
    cases h
    exact ⟨hi, fun _ => rfl, by have := hi.size; omega, Sublist.refl _, rfl, fun _ _ => rfl⟩

/-- There is no room when each of the 16 objects is held. -/
theorem substitute_eq_none :
    m.substitute = none ↔ m.queue.length = 16 ∧ ∀ e ∈ m.queue, e.2 ∈ m.handles := by
  -- an object of the queue is held unless its strong count is one
  have hcount : ∀ e ∈ m.queue, (m.strongCount e.2 == 1) = false ↔ e.2 ∈ m.handles := by
    intro e he
    have hone := count_eq_one_of_mem hi.ptrs (mem_map_of_mem (f := snd) he)
    rw [beq_eq_false_iff_ne, strongCount, hone, ← count_pos_iff]
    omega
  unfold substitute
  by_cases hfull : m.queue.length = 16
  · rw [if_pos hfull, and_iff_right hfull]
    cases hf : m.queue.findIdx? fun e => m.strongCount e.2 == 1 with
    | some i =>
      obtain ⟨hlt, hone, -⟩ := findIdx?_eq_some_iff_getElem.mp hf
      refine iff_of_false (by simp) ?_
      intro hall
      have hmem := getElem_mem hlt
      rw [(hcount _ hmem).mpr (hall _ hmem)] at hone
      cases hone
    | none =>
      refine iff_of_true rfl ?_
      intro e he
      exact (hcount e he).mp (findIdx?_eq_none_iff.mp hf e he)
  · rw [if_neg hfull]
    exact iff_of_false (by simp) fun h => hfull h.1

theorem load_objects (hlen : m.queue.length < 16) (hid : ∀ e ∈ m.queue, e.1 ≠ id) :
    ManagerInv (m.load id dev).2 ∧ (∀ d, (m.load id dev).2.contents d = m.contents d) ∧
      (m.load id dev).2.heap m.next = ⟨m.devices dev id, id, dev, false⟩ ∧
      ∀ e ∈ m.queue, (m.load id dev).2.heap e.2 = m.heap e.2 := by
  have hheap : ∀ x ∈ m.queue, (m.load id dev).2.heap x.2 = m.heap x.2 := by
    intro x hx
    have : x.2 ≠ m.next := Nat.ne_of_lt (hi.fresh x hx)
    simp only [load, update_of_ne this]
  have hnew : (m.load id dev).2.heap m.next = ⟨m.devices dev id, id, dev, false⟩ := by
    simp only [load, update_self, readBlock]
  have hmem : ∀ x, x ∈ (m.load id dev).2.queue ↔ x ∈ m.queue ∨ x = (id, m.next) := by
    intro x
    simp only [load, mem_append, mem_singleton]
  have hinv : ManagerInv (m.load id dev).2 := by
    refine ⟨?_, ?_, ?_, ?_, ?_, ?_, ?_⟩
    · show ((m.queue ++ [(id, m.next)]).map fst).Nodup
      rw [map_append, nodup_append]
      refine ⟨hi.ids, by simp, fun a ha b hb => ?_⟩
      obtain ⟨x, hx, rfl⟩ := mem_map.mp ha
      simp at hb
      subst hb
      exact hid x hx
    · show ((m.queue ++ [(id, m.next)]).map snd).Nodup
      rw [map_append, nodup_append]
      refine ⟨hi.ptrs, by simp, fun a ha b hb => ?_⟩
      obtain ⟨x, hx, rfl⟩ := mem_map.mp ha
      simp at hb
      subst hb
      exact Nat.ne_of_lt (hi.fresh x hx)
    · intro x hx
      show x.2 < m.next + 1
      rcases (hmem x).mp hx with hx | rfl
      · have := hi.fresh x hx; omega
      · exact Nat.lt_succ_self _
    · intro x hx
      rcases (hmem x).mp hx with hx | rfl
      · rw [hheap x hx]; exact hi.owner x hx
      · rw [hnew]
    · intro x hx hmod
      rcases (hmem x).mp hx with hx | rfl
      · rw [hheap x hx] at hmod ⊢
        exact hi.clean x hx hmod
      · rw [hnew]; rfl
    · intro p hp
      show p ∈ (m.queue ++ [(id, m.next)]).map snd
      rw [map_append]
      rcases mem_cons.mp hp with rfl | hp
      · exact mem_append_right _ (by simp)
      · exact mem_append_left _ (hi.held p hp)
    · show (m.queue ++ [(id, m.next)]).length ≤ 16
      simp only [length_append, length_singleton]
      omega
  refine ⟨hinv, fun d => contents_ext hinv ?_ ?_, hnew, hheap⟩
  · intro x hx hd
    rcases (hmem x).mp hx with hx | rfl
    · rw [hheap x hx] at hd ⊢
      rw [contents_of_mem hi hx hd]
    · rw [hnew] at hd ⊢
      cases hd
      rw [contents_of_not_mem fun e he h => absurd h (hid e he)]
  · intro id' hid'
    rw [contents_of_not_mem fun e he h => ?_]
    · rfl
    · rw [← hheap e he]
      exact hid' e ((hmem e).mpr (Or.inl he)) h

/-- A lookup that returns: the handle refers to the block's object in the queue, and no block's
    contents change. The object was there before, or holds what the device that was asked for holds. -/
theorem getBlockCache_objects {id p : Nat} {m' : Manager}
    (h : m.getBlockCache id dev = some (p, m')) :
    ManagerInv m' ∧ (∀ d, m'.contents d = m.contents d) ∧ (id, p) ∈ m'.queue ∧ m'.handles = p :: m.handles ∧
      (∀ e ∈ m.queue, e.2 ∈ m.handles → e ∈ m'.queue) ∧
      (∀ e ∈ m'.queue, e ∈ m.queue ∧ m'.heap e.2 = m.heap e.2 ∨ e = (id, p) ∧
        m'.heap p = ⟨m'.devices dev id, id, dev, false⟩) := by
  unfold getBlockCache at h
  split at h
  · rename_i e hf
    cases h
    have he := mem_of_find?_eq_some hf
    have hid : e.1 = id := by simpa using find?_some hf
    refine ⟨⟨hi.ids, hi.ptrs, hi.fresh, hi.owner, hi.clean, fun q hq => ?_, hi.size⟩, fun _ => rfl, by rw [← hid]; exact he,
      rfl, fun e' he' _ => he', fun e' he' => .inl ⟨he', rfl⟩⟩
    rcases mem_cons.mp hq with rfl | hq
    · exact mem_map_of_mem he
    · exact hi.held q hq
  · rename_i hf
    have hid : ∀ e ∈ m.queue, e.1 ≠ id := fun e he => by simpa using find?_eq_none.mp hf e he
    obtain ⟨m1, hs, hl⟩ := Option.map_eq_some_iff.mp h
    obtain ⟨hi1, hv1, hlen, hsub, hh1, hheap⟩ := substitute_objects hi hs
    obtain ⟨hi2, hv2, hnew, hold⟩ := load_objects hi1 hlen fun e he => hid e (hsub.subset he)
    have hp : m1.next = p := congrArg fst hl
    have hm' : (m1.load id dev).2 = m' := congrArg snd hl
    subst hp hm'
    refine ⟨hi2, fun d => (hv2 d).trans (hv1 d), mem_append_right _ (by simp), ?_, ?_, ?_⟩
    · rw [← hh1]; rfl
    · -- what is held was not dropped to make room
      intro e he hheld
      obtain ⟨x, hx, hxe⟩ := mem_map.mp (hi1.held e.2 (by rw [hh1]; exact hheld))
      rw [eq_of_snd hi.ptrs (hsub.subset hx) he hxe] at hx
      exact mem_append_left _ hx
    · intro e he
      rcases mem_append.mp he with he | he
      · exact .inl ⟨hsub.subset he, by rw [hold e he, hheap e he]⟩
      · exact .inr ⟨mem_singleton.mp he, hnew⟩

/-- "Run out of BlockCache!": the block is not cached, and each of the 16 objects is held. -/
theorem getBlockCache_eq_none : m.getBlockCache id dev = none ↔
    (∀ e ∈ m.queue, e.1 ≠ id) ∧ m.queue.length = 16 ∧ ∀ e ∈ m.queue, e.2 ∈ m.handles := by
  unfold getBlockCache
  cases hf : m.queue.find? fun x => x.1 == id with
  | some x =>
    have hx : x.1 = id := by simpa using find?_some hf
    exact iff_of_false (by simp) fun h => h.1 x (mem_of_find?_eq_some hf) hx
  | none =>
    have hid : ∀ e ∈ m.queue, e.1 ≠ id := fun e he => by simpa using find?_eq_none.mp hf e he
    dsimp only
    rw [Option.map_eq_none_iff, substitute_eq_none hi, and_iff_right hid]

end

/-! ## Flushing -/

/-- Every cached object holds what its device holds. -/
def Synced (m : Manager) : Prop := ∀ e ∈ m.queue, (m.heap e.2).modified = false

theorem contents_of_synced (hi : ManagerInv m) (hs : Synced m) : m.devices dev = m.contents dev := by
  funext id
  by_cases h : ∀ e ∈ m.queue, e.1 = id → (m.heap e.2).device ≠ dev
  · rw [contents_of_not_mem h]
  · push Not at h
    obtain ⟨e, he, rfl, hd⟩ := h
    rw [contents_of_mem hi he hd, hi.clean e he (hs e he), hd]

theorem sync_modified {q : Nat} (h : ((m.sync p).heap q).modified = true) :
    (m.heap q).modified = true ∧ q ≠ p := by
  by_cases e : q = p
  · subst e; rw [sync_heap_same] at h; cases h
  · rw [sync_heap_ne e] at h; exact ⟨h, e⟩

/-- Flushing some of the queue's objects, one after the other. -/
theorem syncList_objects (l : List (Nat × Nat)) (hi : ManagerInv m) (hl : ∀ e ∈ l, e ∈ m.queue) :
    let m' := l.foldl (fun m e => m.sync e.2) m
    ManagerInv m' ∧ (∀ d, m'.contents d = m.contents d) ∧ m'.queue = m.queue ∧ m'.handles = m.handles ∧
      (∀ q, (m'.heap q).modified = true → (m.heap q).modified = true ∧ ∀ e ∈ l, q ≠ e.2) ∧
      ∀ q, (m'.heap q).device = (m.heap q).device := by
  induction l generalizing m with
  | nil => exact ⟨hi, fun _ => rfl, rfl, rfl, fun q h => ⟨h, by simp⟩, fun _ => rfl⟩
  | cons e l ih =>
    obtain ⟨hi1, hv1⟩ := sync_objects hi (hl e (by simp))
    obtain ⟨h1, h2, h3, h4, h5, h6⟩ := ih hi1 fun x hx => by rw [sync_queue]; exact hl x (by simp [hx])
    refine ⟨h1, fun d => (h2 d).trans (hv1 d), by simpa using h3, by simpa using h4, fun q hq => ?_, by simpa using h6⟩
    obtain ⟨hq1, hq2⟩ := h5 q hq
    obtain ⟨hq3, hq4⟩ := sync_modified hq1
    refine ⟨hq3, fun x hx => ?_⟩
    rcases mem_cons.mp hx with rfl | hx
    · exact hq4
    · exact hq2 x hx

theorem syncAll_objects (hi : ManagerInv m) : ManagerInv m.syncAll ∧ (∀ d, m.syncAll.contents d = m.contents d) ∧
    m.syncAll.queue = m.queue ∧ m.syncAll.handles = m.handles ∧ Synced m.syncAll ∧
    ∀ q, (m.syncAll.heap q).device = (m.heap q).device := by
  obtain ⟨h1, h2, h3, h4, h5, h6⟩ := syncList_objects m.queue hi fun _ h => h
  refine ⟨h1, h2, h3, h4, fun e he => ?_, h6⟩
  have he' : e ∈ m.queue := by rw [← h3]; exact he
  by_contra hn
  rw [Bool.not_eq_false] at hn
  exact (h5 e.2 hn).2 e he' rfl

end TCore.EasyFs
