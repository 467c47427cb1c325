/-
  TCore.EasyFs.CacheRun — file-system code run by way of the block cache.

  The code above the cache is a `Prog` over blocks: `get_block_cache(id).lock()` is `lock`,
  `modify` stores the block and marks it dirty, the temporary's end drops the guard and the
  handle together, `block_cache_sync_all` is `sync`. `runCache` runs such code on the manager;
  a guard remembers the object it locks, and locking a locked object (or flushing one) never
  returns.
-/

import TCore.Lib.Prog
import TCore.EasyFs.CacheProofs

namespace TCore.EasyFs

open TCore.Lib Manager
open List

abbrev Fs := Prog Nat Block

/-- The manager and the guards alive, newest first: each block and the object locked. -/
structure Session where
  mgr : Manager
  guards : List (Nat × Nat)

def guardOf (s : Session) (id : Nat) : Option Nat := (s.guards.find? fun g => g.1 == id).map Prod.snd

def runCache (dev : Nat) {α : Type} : Fs α → Session → Option (α × Session)
  | .ret a, s => some (a, s)
  | .panic, _ => none
  | .lock id f, s =>
    match s.mgr.getBlockCache id dev with
    | some (p, m) => if p ∈ s.guards.map Prod.snd then none else runCache dev (f (m.heap p).cache) ⟨m, (id, p) :: s.guards⟩
    | none => none
  | .store id b q, s =>
    match guardOf s id with
    | some p => runCache dev q { s with mgr := s.mgr.modify p b }
    | none => none
  | .unlock id q, s =>
    match guardOf s id with
    | some p => runCache dev q ⟨s.mgr.release p, s.guards.erase (id, p)⟩
    | none => none
  | .sync q, s =>
    if ∃ e ∈ s.mgr.queue, e.2 ∈ s.guards.map Prod.snd then none else runCache dev q { s with mgr := s.mgr.syncAll }

variable {dev : Nat} {α γ : Type}

theorem runCache_bind (p : Fs α) (g : α → Fs γ) (s : Session) :
    runCache dev (p >>= g) s = (runCache dev p s).bind fun r => runCache dev (g r.1) r.2 := by
  show runCache dev (p.bind g) s = _
  induction p generalizing s with
  | ret a => rfl
  | panic => rfl
  | lock id f ih =>
    simp only [Prog.bind, runCache]
    split
    · split
      · rfl
      · exact ih _ _
    · rfl
  | store id b q ih =>
    simp only [Prog.bind, runCache]
    split
    · exact ih _
    · rfl
  | unlock id q ih =>
    simp only [Prog.bind, runCache]
    split
    · exact ih _
    · rfl
  | sync q ih =>
    simp only [Prog.bind, runCache]
    split
    · rfl
    · exact ih _

/-- The cached session and the plain store it stands for. -/
structure Sim (dev : Nat) (c : Session) (s : Cells Nat Block) : Prop where
  serves : Serves dev c.mgr c.guards
  val : c.mgr.view dev = s.val
  locked : c.guards.map Prod.fst = s.locked
  nodup : s.locked.Nodup

variable {c : Session} {s : Cells Nat Block} {id : Nat}

theorem sim_guard (h : Sim dev c s) (hid : id ∈ s.locked) : ∃ p, guardOf c id = some p := by
  rw [← h.locked] at hid
  obtain ⟨g, hg, rfl⟩ := mem_map.mp hid
  cases hf : c.guards.find? fun x => x.1 == g.1 with
  | none => exact absurd (find?_eq_none.mp hf g hg) (by simp)
  | some x => exact ⟨x.2, by rw [guardOf, hf]; rfl⟩

theorem mem_of_guard {p : Nat} (hg : guardOf c id = some p) : (id, p) ∈ c.guards := by
  obtain ⟨g, hf, rfl⟩ := Option.map_eq_some_iff.mp hg
  have hid : g.1 = id := by simpa using find?_some hf
  rw [← hid]
  exact mem_of_find?_eq_some hf

theorem sim_of_guard (h : Sim dev c s) {p : Nat} (hg : guardOf c id = some p) : id ∈ s.locked := by
  rw [← h.locked]
  exact mem_map_of_mem (mem_of_guard hg)

variable {m : Manager}

/-- A lookup in a session: the object is locked exactly when the block is. -/
theorem sim_lock (h : Sim dev c s) {p : Nat} (hg : c.mgr.getBlockCache id dev = some (p, m)) :
    (p ∈ c.guards.map Prod.snd ↔ id ∈ s.locked) ∧ (m.heap p).cache = s.val id ∧
      (id ∉ s.locked → Sim dev ⟨m, (id, p) :: c.guards⟩ { s with locked := id :: s.locked }) := by
  obtain ⟨hserves, hv⟩ := h.serves.get hg
  have hmem := hserves.cached _ mem_cons_self
  have hcached : ∀ g ∈ c.guards, g ∈ m.queue := fun g hg => hserves.cached g (mem_cons_of_mem _ hg)
  refine ⟨⟨fun hp => ?_, fun hid => ?_⟩, ?_, fun hid => ⟨hserves, hv.trans h.val, ?_, nodup_cons.mpr ⟨hid, h.nodup⟩⟩⟩
  · obtain ⟨g, hmg, hgp⟩ := mem_map.mp hp
    rw [← h.locked]
    exact mem_map.mpr ⟨g, hmg, by rw [eq_of_snd hserves.ptrs (hcached g hmg) hmem hgp]⟩
  · rw [← h.locked] at hid
    obtain ⟨g, hg, hid⟩ := mem_map.mp hid
    exact mem_map.mpr ⟨g, hg, by rw [eq_of_fst hserves.ids (hcached g hg) hmem hid]⟩
  · rw [← view_of_mem hserves.toCacheInv hmem, hv, h.val]
  · rw [map_cons, h.locked]

theorem sim_store (h : Sim dev c s) {p : Nat} (hg : guardOf c id = some p) (b : Block) :
    Sim dev { c with mgr := c.mgr.modify p b } { s with val := Function.update s.val id b } := by
  have hq := h.serves.cached _ (mem_of_guard hg)
  exact ⟨h.serves.modify hq b, by rw [(modify_inv h.serves.toCacheInv hq b).2, h.val], h.locked, h.nodup⟩

/-- Dropping the guard on a block drops the block from the locked ones. -/
theorem map_fst_erase {l : List (Nat × Nat)} (hnd : (l.map Prod.fst).Nodup) {p : Nat} (hg : (id, p) ∈ l) :
    (l.erase (id, p)).map Prod.fst = (l.map Prod.fst).erase id := by
  induction l with
  | nil => cases hg
  | cons x l ih =>
    rw [map_cons, nodup_cons] at hnd
    by_cases e : x = (id, p)
    · subst e; simp
    · have hl : (id, p) ∈ l := by
        rcases mem_cons.mp hg with h | h
        · exact absurd h.symm e
        · exact h
      have hx : x.1 ≠ id := fun hx => hnd.1 (hx ▸ mem_map_of_mem hl)
      rw [erase_cons_tail (by simpa using e), map_cons, map_cons, erase_cons_tail (by simpa using hx),
        ih hnd.2 hl]

theorem sim_unlock (h : Sim dev c s) {p : Nat} (hg : guardOf c id = some p) :
    Sim dev ⟨c.mgr.release p, c.guards.erase (id, p)⟩ { s with locked := s.locked.erase id } := by
  have hmem := mem_of_guard hg
  obtain ⟨hserves, hv⟩ := (h.serves.perm (perm_cons_erase hmem)).release
  refine ⟨hserves, hv.trans h.val, ?_, h.nodup.erase _⟩
  have hnd := h.nodup
  rw [← h.locked] at hnd ⊢
  exact map_fst_erase hnd hmem

theorem sim_sync (h : Sim dev c s) : Sim dev { c with mgr := c.mgr.syncAll } s :=
  ⟨h.serves.syncAll, (syncAll_inv h.serves.toCacheInv).2.1.trans h.val, h.locked, h.nodup⟩

theorem sim_unlocked (h : Sim dev c s) : (∃ e ∈ c.mgr.queue, e.2 ∈ c.guards.map Prod.snd) ↔ s.locked ≠ [] := by
  rw [← h.locked]
  constructor
  · rintro ⟨e, -, he⟩ hnil
    rw [map_eq_nil_iff] at hnil
    simp [hnil] at he
  · intro hne
    obtain ⟨g, l, hg⟩ : ∃ g l, c.guards = g :: l := by
      cases hc : c.guards with
      | nil => simp [hc] at hne
      | cons g l => exact ⟨g, l, rfl⟩
    exact ⟨g, h.serves.cached g (by simp [hg]), by simp [hg]⟩

/-- A lookup in a clean cache writes nothing, not even to make room. -/
theorem getBlockCache_synced {m m' : Manager} (hi : ManagerInv m) (hs : Synced m) {p : Nat}
    (h : m.getBlockCache id dev = some (p, m')) : Synced m' := by
  obtain ⟨-, -, -, -, -, hheap⟩ := getBlockCache_objects hi h
  intro e he
  rcases hheap e he with ⟨hmem, heq⟩ | ⟨rfl, heq⟩
  · rw [heq]
    exact hs e hmem
  · rw [heq]

variable {p : Fs α} {c' : Session} {a : α}

/-- The plain store answers what a cached run answers. A run that writes nothing leaves a clean cache clean. -/
theorem exec_of_runCache (h : Sim dev c s) (hr : runCache dev p c = some (a, c')) :
    ∃ t, exec p s = some (a, t) ∧ Sim dev c' t ∧ (NoStore p → Synced c.mgr → Synced c'.mgr) := by
  induction p generalizing c s with
  | ret b => cases hr; exact ⟨s, rfl, h, fun _ hs => hs⟩
  | panic => cases hr
  | lock id f ih =>
    simp only [runCache] at hr
    split at hr
    · rename_i p m hg
      obtain ⟨hiff, hval, hsim⟩ := sim_lock h hg
      split at hr
      · cases hr
      · rename_i hp
        have hid : id ∉ s.locked := fun hid => hp (hiff.mpr hid)
        rw [hval] at hr
        obtain ⟨t, ht, hs, hclean⟩ := ih _ (hsim hid) hr
        refine ⟨t, by rw [exec_lock, if_neg hid]; exact ht, hs, ?_⟩
        intro hn hsync
        cases hn with
        | lock _ hf => exact hclean (hf _) (getBlockCache_synced h.serves.toManagerInv hsync hg)
    · cases hr
  | store id b q ih =>
    simp only [runCache] at hr
    split at hr
    · rename_i p hg
      obtain ⟨t, ht, hs, -⟩ := ih (sim_store h hg b) hr
      exact ⟨t, by rw [exec_store, if_pos (sim_of_guard h hg)]; exact ht, hs, nofun⟩
    · cases hr
  | unlock id q ih =>
    simp only [runCache] at hr
    split at hr
    · rename_i p hg
      obtain ⟨t, ht, hs, hclean⟩ := ih (sim_unlock h hg) hr
      refine ⟨t, by rw [exec_unlock, if_pos (sim_of_guard h hg)]; exact ht, hs, ?_⟩
      intro hn hsync
      cases hn with
      | unlock _ hq =>
        refine hclean hq ?_
        rw [release_eq h.serves.toManagerInv (h.serves.handle (mem_of_guard hg))]
        exact hsync
    · cases hr
  | sync q ih =>
    simp only [runCache] at hr
    split at hr
    · cases hr
    · rename_i hn
      have hnil : s.locked = [] := by
        by_contra hne
        exact hn ((sim_unlocked h).mpr hne)
      obtain ⟨t, ht, hs, hclean⟩ := ih (sim_sync h) hr
      refine ⟨t, by rw [exec_sync, if_pos hnil]; exact ht, hs, ?_⟩
      intro hn _
      cases hn with
      | sync hq => exact hclean hq (syncAll_inv h.serves.toCacheInv).2.2.2.2

/-- A session that holds fewer than 16 blocks finds room in the cache. -/
theorem sim_room (h : Sim dev c s) (hlen : s.locked.length ≤ 15) (id : Nat) :
    ∃ p m, c.mgr.getBlockCache id dev = some (p, m) := by
  have hle := h.serves.handles_dedup_le
  rw [h.locked] at hle
  exact getBlockCache_progress h.serves.toCacheInv (hle.trans ((dedup_sublist _).length_le.trans hlen)) id

/-- Code that never holds more than 15 blocks finds room in the cache at every lookup. -/
theorem runCache_of_exec {t : Cells Nat Block} {k n : Nat} (h : Sim dev c s)
    (hf : Fits k s.locked.length p n) (hr : exec p s = some (a, t)) (hk : k ≤ 15 := by decide) :
    ∃ c', runCache dev p c = some (a, c') ∧ Sim dev c' t := by
  generalize hl : s.locked.length = l at hf
  induction hf generalizing c s with
  | ret b => cases hr; exact ⟨c, rfl, h⟩
  | panic => cases hr
  | @lock _ _ id f hn hf ih =>
    rw [exec_lock] at hr
    split at hr
    · cases hr
    · rename_i hid
      obtain ⟨p, m, hg⟩ := sim_room h (by omega) id
      obtain ⟨hiff, hval, hsim⟩ := sim_lock h hg
      obtain ⟨c', hc', hs⟩ := ih _ (hsim hid) hr (congrArg (· + 1) hl)
      refine ⟨c', ?_, hs⟩
      rw [runCache, hg]
      simp only
      rw [if_neg (fun hp => hid (hiff.mp hp)), hval]
      exact hc'
  | @store _ _ id b q hp ih =>
    rw [exec_store] at hr
    split at hr
    · rename_i hid
      obtain ⟨p, hg⟩ := sim_guard h hid
      obtain ⟨c', hc', hs⟩ := ih (sim_store h hg b) hr hl
      exact ⟨c', by rw [runCache, hg]; exact hc', hs⟩
    · cases hr
  | @unlock _ _ id q hh hp ih =>
    rw [exec_unlock] at hr
    split at hr
    · rename_i hid
      obtain ⟨p, hg⟩ := sim_guard h hid
      obtain ⟨c', hc', hs⟩ := ih (sim_unlock h hg) hr (by rw [length_erase_of_mem hid, hl])
      exact ⟨c', by rw [runCache, hg]; exact hc', hs⟩
    · cases hr
  | sync hp ih =>
    rw [exec_sync] at hr
    split at hr
    · rename_i hnil
      obtain ⟨c', hc', hs⟩ := ih (sim_sync h) hr hl
      refine ⟨c', ?_, hs⟩
      rw [runCache, if_neg (fun hn => (sim_unlocked h).mp hn hnil)]
      exact hc'
    · cases hr

/-! ## Between two operations no block is locked -/

/-- A session between two operations, showing the blocks `d`. -/
def Idle (dev : Nat) (c : Session) (d : Nat → Block) : Prop := Sim dev c ⟨d, []⟩

variable {d : Nat → Block}

theorem Idle.view (h : Idle dev c d) : c.mgr.view dev = d := h.val

theorem Idle.exec {k : Nat} (h : Idle dev c d) (hf : Fits k 0 p 0)
    (hr : runCache dev p c = some (a, c')) : ∃ d', Runs p [] d a d' ∧ Idle dev c' d' := by
  obtain ⟨t, ht, hs, -⟩ := exec_of_runCache h hr
  have hl := Fits.locked_length (s := ⟨d, []⟩) hf ht
  obtain ⟨val, locked⟩ := t
  cases eq_nil_of_length_eq_zero hl
  exact ⟨val, ht, hs⟩

theorem Idle.run {d' : Nat → Block} {k : Nat} (h : Idle dev c d) (hf : Fits k 0 p 0)
    (hr : Runs p [] d a d') (hk : k ≤ 15 := by decide) : ∃ c', runCache dev p c = some (a, c') ∧ Idle dev c' d' :=
  runCache_of_exec h hf hr hk

/-! ## What the device holds -/

/-- After a final flush nothing is dirty. -/
theorem runCache_sync (h : Sim dev c s) (hr : runCache dev (.sync (.ret a)) c = some (a, c')) :
    Synced c'.mgr := by
  simp only [runCache] at hr
  split at hr
  · cases hr
  · cases hr
    exact (syncAll_inv h.serves.toCacheInv).2.2.2.2

/-- A session that has just started: the cache is empty and no guard is alive. -/
theorem idle_start (devices : Nat → Nat → Block) : Idle dev ⟨empty devices, []⟩ (devices dev) :=
  ⟨.empty_serves devices, rfl, rfl, nodup_nil⟩

end TCore.EasyFs
