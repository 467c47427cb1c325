/-
  TCore.Kernel.FdTable — the descriptors of a process (task/process.rs, syscall/fs.rs).

  `alloc_fd` returns the lowest descriptor that is not open and extends the table if there is none. `get` is what
  the table says of a descriptor; the lemmas give it after each call.
-/

import Mathlib.Tactic

namespace TCore.Kernel

open List Function

/-- `fd_table`; `α` are the open files. -/
abbrev FdTable (α : Type) := List (Option α)

namespace FdTable

variable {α : Type}

def allocFd (t : FdTable α) : Nat × FdTable α :=
  match t.findIdx? Option.isNone with
  | some fd => (fd, t)
  | none => (t.length, t ++ [none])

/-- A new descriptor for a file, as in `sys_open` once `open_file` has found it. -/
def install (t : FdTable α) (file : α) : Nat × FdTable α := (t.allocFd.1, t.allocFd.2.set t.allocFd.1 (some file))

def sysClose (t : FdTable α) (fd : Nat) : Int × FdTable α :=
  match t[fd]? with
  | some (some _) => (0, t.set fd none)
  | _ => (-1, t)

/-- `sys_pipe` with the ends of the new pipe; it stores the two descriptors in the caller's array. -/
def sysPipe (t : FdTable α) (pipeRead pipeWrite : α) : (Nat × Nat) × FdTable α :=
  let read := t.install pipeRead
  let write := read.2.install pipeWrite
  ((read.1, write.1), write.2)

def sysDup (t : FdTable α) (fd : Nat) : Int × FdTable α :=
  match t[fd]? with
  | some (some file) => ((t.install file).1, (t.install file).2)
  | _ => (-1, t)

/-- The file of a descriptor. -/
def get (t : FdTable α) (fd : Nat) : Option α := t[fd]?.join

variable {t : FdTable α} {fd k : Nat} {file : α}

theorem get_eq_some : t.get fd = some file ↔ t[fd]? = some (some file) := by
  unfold get
  rcases t[fd]? with _ | _ | f <;> simp

theorem some_mem_iff : some file ∈ t ↔ ∃ fd, t.get fd = some file := by
  simp only [get_eq_some]
  exact mem_iff_getElem?

theorem get_set {x : Option α} (h : fd < t.length) : get (t.set fd x) = update t.get fd x := by
  funext k
  unfold get
  by_cases hk : k = fd
  · subst hk
    rw [update_self, getElem?_set_self h]
    rfl
  · rw [update_of_ne hk, getElem?_set_ne (Ne.symm hk)]

/-- The lowest descriptor that is not open; the table has a place for it. -/
structure Lowest (t : FdTable α) (fd : Nat) : Prop where
  free : t.get fd = none
  below : ∀ k < fd, t.get k ≠ none

theorem Lowest.unique (h : t.Lowest fd) (h' : t.Lowest k) : fd = k := by
  rcases Nat.lt_trichotomy fd k with hlt | heq | hgt
  · exact absurd h.free (h'.below fd hlt)
  · exact heq
  · exact absurd h'.free (h.below k hgt)

theorem allocFd_spec (t : FdTable α) : t.Lowest t.allocFd.1 ∧ t.allocFd.2.get = t.get ∧ t.allocFd.1 < t.allocFd.2.length := by
  unfold allocFd
  cases hfind : t.findIdx? Option.isNone with
  | some fd =>
    rw [findIdx?_eq_some_iff_getElem] at hfind
    obtain ⟨hlt, hnone, hbelow⟩ := hfind
    refine ⟨⟨?_, ?_⟩, rfl, hlt⟩
    · unfold get
      rw [getElem?_eq_getElem hlt, Option.isNone_iff_eq_none.mp hnone]
      rfl
    · intro k hk
      have hk' := hbelow k hk
      unfold get
      rw [getElem?_eq_getElem (hk.trans hlt)]
      intro heq
      apply hk'
      rw [Option.isNone_iff_eq_none]
      exact heq
  | none =>
    rw [findIdx?_eq_none_iff] at hfind
    refine ⟨⟨?_, ?_⟩, ?_, by simp⟩
    · unfold get
      rw [getElem?_eq_none (Nat.le_refl _)]
      rfl
    · intro k hk heq
      have hk' := hfind t[k] (getElem_mem hk)
      unfold get at heq
      rw [getElem?_eq_getElem hk] at heq
      rw [show t[k] = none from heq] at hk'
      cases hk'
    · funext k
      unfold get
      dsimp only
      by_cases hk : k < t.length
      · rw [getElem?_append_left hk]
      · rw [getElem?_append_right (by omega), getElem?_eq_none (by omega : t.length ≤ k)]
        by_cases hlast : k - t.length = 0
        · rw [hlast]
          rfl
        · rw [getElem?_eq_none (by simp; omega)]

theorem lowest_install (t : FdTable α) (file : α) : t.Lowest (t.install file).1 := (allocFd_spec t).1

theorem get_install (t : FdTable α) (file : α) : (t.install file).2.get = update t.get (t.install file).1 (some file) := by
  obtain ⟨-, hget, hlt⟩ := allocFd_spec t
  unfold install
  rw [get_set hlt, hget]

theorem get_sysClose (t : FdTable α) (fd : Nat) : (t.sysClose fd).2.get = update t.get fd none := by
  unfold sysClose
  split
  · rename_i f hf
    obtain ⟨hlt, -⟩ := List.getElem?_eq_some_iff.mp hf
    exact get_set hlt
  · rename_i hno
    have hnone : t.get fd = none := by
      rw [Option.eq_none_iff_forall_ne_some]
      intro f hf
      exact hno f (get_eq_some.mp hf)
    rw [← hnone, update_eq_self]

theorem sysDup_of_some (h : t.get fd = some file) : t.sysDup fd = (((t.install file).1 : Int), (t.install file).2) := by
  unfold sysDup
  rw [get_eq_some.mp h]

end FdTable

end TCore.Kernel
