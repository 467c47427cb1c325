/-
  TCore.Kernel.Ids — ids and page numbers that are given back (task/id.rs, mm/frame_allocator.rs).

  `PID_ALLOCATOR`, `KSTACK_ALLOCATOR` and the thread ids of a process are a `RecycleAllocator` each. It starts
  at 0, so its check of an id against `current` and `recycled` misses nothing. `StackFrameAllocator` starts at
  the first frame behind the kernel and checks in the same way: a page number below it passes.
-/

import TCore.Kernel.Tasks
import TCore.Mm.FrameUse

namespace TCore.Kernel

open TCore.Lib TCore.Mm
open List RecycleAllocator

/-- An allocator of ids, and the ids that are in use. -/
structure Ids where
  allocator : RecycleAllocator
  inUse : List Nat

inductive IdCall where
  | alloc
  | dealloc (id : Nat)

def ids : Machine Ids IdCall where
  init s := s.allocator = ⟨0, []⟩ ∧ s.inUse = []
  step s
    | .alloc => some ⟨s.allocator.alloc.2, s.allocator.alloc.1 :: s.inUse⟩
    | .dealloc id => (s.allocator.dealloc id).map fun a => ⟨a, s.inUse.erase id⟩

namespace RecycleAllocator

variable {a b : RecycleAllocator} {used : List Nat} {id : Nat}

/-- The ids below `current` are in use or recycled, each once. -/
structure Split (a : RecycleAllocator) (used : List Nat) : Prop where
  nodup : (used ++ a.recycled).Nodup
  all : ∀ id, id ∈ used ++ a.recycled ↔ id < a.current

theorem split_new : Split ⟨0, []⟩ [] := ⟨nodup_nil, fun id => iff_of_false not_mem_nil (Nat.not_lt_zero id)⟩

section

variable (h : Split a used)
include h

theorem Split.perm {used' : List Nat} (hp : used'.Perm used) : Split a used' :=
  ⟨(hp.append_right _).nodup_iff.mpr h.nodup, fun id => (hp.append_right _).mem_iff.trans (h.all id)⟩

theorem Split.alloc : Split a.alloc.2 (a.alloc.1 :: used) ∧ a.alloc.1 ∉ used := by
  rw [RecycleAllocator.alloc]
  split
  · rename_i id rest hrec
    have hperm : (used ++ a.recycled).Perm (id :: used ++ rest) := by
      rw [hrec]
      exact perm_middle
    have hnodup := hperm.nodup_iff.mp h.nodup
    refine ⟨⟨hnodup, fun x => (hperm.mem_iff).symm.trans (h.all x)⟩, ?_⟩
    exact fun hmem => (nodup_cons.mp hnodup).1 (mem_append_left _ hmem)
  · rename_i hrec
    have hfresh : a.current ∉ used ++ a.recycled := fun hmem => absurd ((h.all _).mp hmem) (Nat.lt_irrefl _)
    refine ⟨⟨nodup_cons.mpr ⟨hfresh, h.nodup⟩, ?_⟩, fun hmem => hfresh (mem_append_left _ hmem)⟩
    intro x
    rw [cons_append, mem_cons, h.all x]
    dsimp only
    omega

theorem Split.dealloc_eq_none : a.dealloc id = none ↔ id ∉ used := by
  have hall := h.all id
  rw [mem_append] at hall
  rw [dealloc]
  split
  · rename_i hok
    exact iff_of_false (Option.some_ne_none _) fun hnot => hnot ((hall.mpr hok.1).resolve_right hok.2)
  · rename_i hbad
    refine iff_of_true rfl fun hmem => hbad ⟨hall.mp (.inl hmem), ?_⟩
    exact fun hrec => (nodup_append'.mp h.nodup).2.2 hmem hrec

/-- An id in use can be given back, and is then recycled once. -/
theorem Split.dealloc (hid : id ∈ used) :
    ∃ b, a.dealloc id = some b ∧ Split b (used.erase id) ∧ b.current = a.current ∧ b.recycled = id :: a.recycled ∧ id ∉ a.recycled := by
  cases hd : a.dealloc id with
  | none => exact absurd hid (h.dealloc_eq_none.mp hd)
  | some b =>
    obtain ⟨hok, heq⟩ := Option.ite_none_right_eq_some.mp hd
    cases heq
    have hperm : (used.erase id ++ id :: a.recycled).Perm (used ++ a.recycled) :=
      perm_middle.trans ((perm_cons_erase hid).symm.append_right _)
    refine ⟨_, rfl, ⟨hperm.nodup_iff.mpr h.nodup, ?_⟩, rfl, rfl, hok.2⟩
    intro x
    rw [hperm.mem_iff]
    exact h.all x

end

end RecycleAllocator

section runs

variable {u u' : Ids} {e : IdCall}

theorem ids_split (hu : ids.Reach u) : u.allocator.Split u.inUse := by
  refine hu.inv (fun u => u.allocator.Split u.inUse) ?_ ?_
  · rintro ⟨a, used⟩ ⟨rfl, rfl⟩
    exact split_new
  · intro u e u' h hstep
    cases e with
    | alloc =>
      cases hstep
      exact h.alloc.1
    | dealloc id =>
      obtain ⟨b, hd, heq⟩ := Option.map_eq_some_iff.mp hstep
      cases heq
      by_cases hid : id ∈ u.inUse
      · obtain ⟨b', hd', hsplit, -⟩ := h.dealloc hid
        rw [hd] at hd'
        cases hd'
        exact hsplit
      · rw [h.dealloc_eq_none.mpr hid] at hd
        cases hd

/-- What the two allocators make of a number that is given back. -/
theorem dealloc_exact_iff {l r : Nat} {s : Handed} (hle : l ≤ r) (hr : r ≤ 2 ^ 44) (hs : (handed l r).Reach s) (ppn : Nat)
    (hu : ids.Reach u) (id : Nat) :
    ((s.allocator.dealloc ppn = none ↔ ppn ∉ s.inUse) ↔ ¬(ppn < l ∧ ppn ∉ s.inUse ∧ ppn ∉ s.allocator.recycled)) ∧
      (ppn ∈ s.inUse → ∃ a, s.allocator.dealloc ppn = some a ∧ ppn ∉ s.allocator.free ∧ a.free.count ppn = 1) ∧
      (u.allocator.dealloc id = none ↔ id ∉ u.inUse) ∧
      (id ∈ u.inUse → ∃ a, u.allocator.dealloc id = some a ∧ id ∉ u.allocator.recycled ∧ id < a.current ∧ a.recycled.count id = 1) := by
  have h := Handed.inv_reach hle hr hs
  have hsplit := ids_split hu
  refine ⟨?_, h.dealloc_inUse, hsplit.dealloc_eq_none, ?_⟩
  · rw [h.dealloc_eq_none]
    by_cases hmem : ppn ∈ s.inUse
    · simp [hmem]
    · -- Not in use: a panic is due.
      by_cases hlow : l ≤ ppn
      · simp [hmem, hlow]
      · simp [hmem, hlow, not_le.mp hlow]
  · intro hid
    obtain ⟨a, hd, hsplit', hcur, hrec, hnot⟩ := hsplit.dealloc hid
    refine ⟨a, hd, hnot, ?_, ?_⟩
    · rw [hcur]
      exact (hsplit.all id).mp (mem_append_left _ hid)
    · rw [hrec, count_cons_self, count_eq_zero_of_not_mem hnot]

theorem dealloc_exact_iff_below : ∃ s, (handed 2 4).Reach s ∧ s.inUse = [2] ∧
    ((s.allocator.dealloc 1 = none ↔ 1 ∉ s.inUse) ↔ ¬(1 < 2 ∧ 1 ∉ s.inUse ∧ 1 ∉ s.allocator.recycled)) := by
  have hinit : (handed 2 4).Reach ⟨.init 2 4, []⟩ := .init ⟨rfl, rfl⟩
  have hs := hinit.step (e := .alloc) rfl
  exact ⟨_, hs, rfl, (dealloc_exact_iff (by decide) (by decide) hs 1 (u := ⟨⟨0, []⟩, []⟩) (.init ⟨rfl, rfl⟩) 0).1⟩

/-- Nobody has frame 1, below the first frame of the allocator: it is taken without a panic, and is the next
    frame that is handed out. -/
theorem kernel_frame_freed : ∃ s, (handed 2 4).Reach s ∧ 1 ∉ s.inUse ∧
    ∃ a b, s.allocator.dealloc 1 = some a ∧ a.alloc = some (1, b) :=
  ⟨⟨.init 2 4, []⟩, .init ⟨rfl, rfl⟩, List.not_mem_nil, _, _, rfl, rfl⟩

end runs

end TCore.Kernel
