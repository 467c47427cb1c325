/-
  TCore.EasyFs.CacheLocks — the locks of a call on the block cache, and how the call can end.

  Run by way of the cache, a call returns, panics in its own code, waits for a lock it holds itself, or
  meets `panic!("Run out of BlockCache!")` (`fate`). `held` lists the blocks whose locks it holds, from
  moment to moment, together with the one it is taking; `block_cache_sync_all` takes the lock of every
  cached block in turn.

  - `fate_returns`: a call returns exactly as `runCache` says.
  - `careful_held`, `careful_fate`: a careful call of at most 16 locks holds different blocks at every
    moment, and ends in one of the first two ways.
-/

import TCore.EasyFs.CacheRun
import TCore.Lib.Careful

namespace TCore.EasyFs

open TCore.Lib
open List Prod

/-- How a call ends. -/
inductive Fate (α : Type) where
  | returns (a : α) (s : Session)
  | panics
  | relocks
  | runsOut

variable {dev : Nat} {α γ : Type}

def fate (dev : Nat) : Fs α → Session → Fate α
  | .ret a, s => .returns a s
  | .panic, _ => .panics
  | .lock id f, s =>
    match s.mgr.getBlockCache id dev with
    | some (p, m) => if p ∈ s.guards.map snd then .relocks else fate dev (f (m.heap p).cache) ⟨m, (id, p) :: s.guards⟩
    | none => .runsOut
  | .store id b q, s =>
    match guardOf s id with
    | some p => fate dev q { s with mgr := s.mgr.modify p b }
    | none => .panics
  | .unlock id q, s =>
    match guardOf s id with
    | some p => fate dev q ⟨s.mgr.release p, s.guards.erase (id, p)⟩
    | none => .panics
  | .sync q, s =>
    if ∃ e ∈ s.mgr.queue, e.2 ∈ s.guards.map snd then .relocks else fate dev q { s with mgr := s.mgr.syncAll }

def held (dev : Nat) : Fs α → Session → List (List Nat)
  | .ret _, s => [s.guards.map fst]
  | .panic, s => [s.guards.map fst]
  | .lock id f, s =>
    (id :: s.guards.map fst) :: match s.mgr.getBlockCache id dev with
    | some (p, m) => if p ∈ s.guards.map snd then [] else held dev (f (m.heap p).cache) ⟨m, (id, p) :: s.guards⟩
    | none => []
  | .store id b q, s =>
    match guardOf s id with
    | some p => held dev q { s with mgr := s.mgr.modify p b }
    | none => []
  | .unlock id q, s =>
    match guardOf s id with
    | some p => held dev q ⟨s.mgr.release p, s.guards.erase (id, p)⟩
    | none => []
  | .sync q, s =>
    (s.mgr.queue.map fun e => e.1 :: s.guards.map fst) ++
      if ∃ e ∈ s.mgr.queue, e.2 ∈ s.guards.map snd then [] else held dev q { s with mgr := s.mgr.syncAll }

theorem fate_returns {p : Fs α} {c c' : Session} {a : α} : fate dev p c = .returns a c' ↔ runCache dev p c = some (a, c') := by
  induction p generalizing c with
  | ret b => simp [fate, runCache]
  | panic => simp [fate, runCache]
  | lock id f ih =>
    simp only [fate, runCache]
    cases hg : c.mgr.getBlockCache id dev with
    | none => simp
    | some r =>
      by_cases hp : r.1 ∈ c.guards.map snd
      · simp only [if_pos hp, reduceCtorEq]
      · simp only [if_neg hp]
        exact ih _
  | store id b q ih =>
    simp only [fate, runCache]
    cases guardOf c id with
    | none => simp
    | some p => exact ih
  | unlock id q ih =>
    simp only [fate, runCache]
    cases guardOf c id with
    | none => simp
    | some p => exact ih
  | sync q ih =>
    simp only [fate, runCache]
    by_cases hn : ∃ e ∈ c.mgr.queue, e.2 ∈ c.guards.map snd
    · simp only [if_pos hn, reduceCtorEq]
    · simp only [if_neg hn]
      exact ih

variable {c : Session} {s : Cells Nat Block} {n : Nat}

/-- What a careful lock finds: a block with room in the cache that is not locked yet. -/
theorem sim_careful_lock (h : Sim dev c s) {id : Nat} (hid : id ∉ s.locked) (hlen : s.locked.length ≤ 15) :
    ∃ p m, c.mgr.getBlockCache id dev = some (p, m) ∧ p ∉ c.guards.map snd ∧ (m.heap p).cache = s.val id ∧
      Sim dev ⟨m, (id, p) :: c.guards⟩ { s with locked := id :: s.locked } := by
  obtain ⟨p, m, hg⟩ := sim_room h hlen id
  obtain ⟨hiff, hval, hsim⟩ := sim_lock h hg
  exact ⟨p, m, hg, fun hp => hid (hiff.mp hp), hval, hsim hid⟩

theorem careful_fate {p : Fs α} (h : Sim dev c s) (hp : Careful n p s) (hn : n ≤ 16) :
    fate dev p c ≠ .relocks ∧ fate dev p c ≠ .runsOut := by
  induction hp generalizing c with
  | ret a => simp [fate]
  | panic => simp [fate]
  | lock hid hlen hf ih =>
    obtain ⟨p, m, hg, hfree, hval, hsim⟩ := sim_careful_lock h hid (by omega)
    rw [fate, hg]
    simp only [if_neg hfree, hval]
    exact ih hsim
  | store hid hp ih =>
    obtain ⟨p, hg⟩ := sim_guard h hid
    rw [fate, hg]
    exact ih (sim_store h hg _)
  | unlock hid hp ih =>
    obtain ⟨p, hg⟩ := sim_guard h hid
    rw [fate, hg]
    exact ih (sim_unlock h hg)
  | sync hnil hp ih =>
    rw [fate, if_neg fun hex => (sim_unlocked h).mp hex hnil]
    exact ih (sim_sync h)

/-- The locks held now are those of different blocks. -/
theorem sim_held (h : Sim dev c s) (hle : s.locked.length ≤ n) :
    (c.guards.map fst).Nodup ∧ (c.guards.map fst).length ≤ n := by
  rw [h.locked]
  exact ⟨h.nodup, hle⟩

theorem careful_held {p : Fs α} (h : Sim dev c s) (hp : Careful n p s) (hn : n ≤ 16) (hpos : 0 < n)
    (hle : s.locked.length ≤ n) : ∀ L ∈ held dev p c, L.Nodup ∧ L.length ≤ n := by
  induction hp generalizing c with
  | ret a =>
    intro L hL
    rw [mem_singleton.mp hL]
    exact sim_held h hle
  | panic =>
    intro L hL
    rw [mem_singleton.mp hL]
    exact sim_held h hle
  | lock hid hlen hf ih =>
    obtain ⟨p, m, hg, hfree, hval, hsim⟩ := sim_careful_lock h hid (by omega)
    intro L hL
    rw [held, hg] at hL
    simp only [if_neg hfree, hval] at hL
    rcases mem_cons.mp hL with rfl | hL
    · exact sim_held hsim hlen
    · exact ih hsim hlen L hL
  | store hid hp ih =>
    obtain ⟨p, hg⟩ := sim_guard h hid
    rw [held, hg]
    exact ih (sim_store h hg _) hle
  | unlock hid hp ih =>
    obtain ⟨p, hg⟩ := sim_guard h hid
    rw [held, hg]
    refine ih (sim_unlock h hg) ?_
    rw [length_erase_of_mem hid]
    omega
  | sync hnil hp ih =>
    intro L hL
    rw [held, if_neg fun hex => (sim_unlocked h).mp hex hnil] at hL
    rcases mem_append.mp hL with hL | hL
    · obtain ⟨e, -, rfl⟩ := mem_map.mp hL
      rw [h.locked, hnil]
      exact ⟨nodup_singleton _, hpos⟩
    · exact ih (sim_sync h) hle L hL

end TCore.EasyFs
