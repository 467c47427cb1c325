/-
  TCore.Lib.DirTree — directory trees.

  A tree gives every node number a file or a directory with its children, in the order they
  were made. `child` looks a name up, `walk` follows a path, `add` makes a new node under a
  directory.
-/

import Mathlib.Data.List.Nodup
import Mathlib.Logic.Function.Basic

namespace TCore.Lib

inductive Node (ν : Type) where
  | file
  | dir (children : List (ν × Nat))

abbrev DirTree (ν : Type) := Nat → Node ν

def Node.children {ν : Type} : Node ν → List (ν × Nat)
  | .file => []
  | .dir cs => cs

namespace DirTree

variable {ν : Type} [DecidableEq ν]

def names (τ : DirTree ν) (i : Nat) : List ν := (τ i).children.map Prod.fst

def child (τ : DirTree ν) (i : Nat) (name : ν) : Option Nat := ((τ i).children.find? fun c => c.1 = name).map Prod.snd

/-- Where a path leads. -/
def walk (τ : DirTree ν) : Nat → List ν → Option Nat
  | i, [] => some i
  | i, name :: rest => (τ.child i name).bind fun j => walk τ j rest

/-- The tree with node `j`, which is `new`, under directory `i`. -/
def add (τ : DirTree ν) (i : Nat) (name : ν) (j : Nat) (new : Node ν) : DirTree ν :=
  Function.update (Function.update τ i (.dir ((τ i).children ++ [(name, j)]))) j new

theorem child_eq_none_iff {τ : DirTree ν} {i : Nat} {name : ν} : τ.child i name = none ↔ name ∉ τ.names i := by
  simp only [child, names, Option.map_eq_none_iff, List.find?_eq_none, decide_eq_true_eq, List.mem_map, not_exists, not_and]

end DirTree

end TCore.Lib
