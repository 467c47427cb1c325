/-
  TCore.User.Arguments — the arguments of a command of the shell (user/src/bin/user_shell.rs).

  `ProcessArguments::new` cuts a command at its spaces, ends every token with a NUL, and takes the first "<" and
  then the first ">" out with the token behind it. It does not look whether there is one: `args_copy[idx + 1]`
  panics if the operator is the last token.
-/

import Mathlib.Tactic

namespace TCore.User

open List

abbrev Str := List Char

/-- `string.push('\0')`. -/
def terminated (s : Str) : Str := s ++ [Char.ofNat 0]

structure ProcessArguments where
  input : Str
  output : Str
  argsCopy : List Str
  /-- Pointers to arguments, and the null pointer. -/
  argsAddr : List (Option Str)
deriving DecidableEq

/-- The file behind the first `op` and the arguments without the two; `none` is the panic of the index. -/
def redirect (op : Str) (argsCopy : List Str) : Option (Str × List Str) :=
  match argsCopy.findIdx? (· == op) with
  | some idx => argsCopy[idx + 1]?.map fun file => (file, argsCopy.take idx ++ argsCopy.drop (idx + 2))
  | none => some ([], argsCopy)

/-- The tokens of a command. -/
def tokens (command : Str) : List Str := (command.splitOn ' ').filter fun arg => !arg.isEmpty

def ProcessArguments.new (command : Str) : Option ProcessArguments :=
  let argsCopy := (tokens command).map terminated
  (redirect (terminated ['<']) argsCopy).bind fun (input, argsCopy) =>
    (redirect (terminated ['>']) argsCopy).map fun (output, argsCopy) =>
      ⟨input, output, argsCopy, argsCopy.map some ++ [none]⟩

/-! ## What the shell should make of the tokens -/

/-- The file of an operator, if it is there, and the other tokens. -/
inductive Redirected (op : Str) : List Str → Option Str → List Str → Prop where
  | absent {t : List Str} (h : op ∉ t) : Redirected op t none t
  | file {before after : List Str} {file : Str} (h : op ∉ before) :
      Redirected op (before ++ op :: file :: after) (some file) (before ++ after)

/-- The operator is there, and no token behind it. -/
def Dangling (op : Str) (t : List Str) : Prop := ∃ before, op ∉ before ∧ t = before ++ [op]

/-- The arguments are those of the tokens `t`. -/
structure ProcessArguments.Exact (a : ProcessArguments) (t : List Str) : Prop where
  files : ∃ input rest output args, Redirected ['<'] t input rest ∧ Redirected ['>'] rest output args ∧
    a.input = (input.map terminated).getD [] ∧ a.output = (output.map terminated).getD [] ∧ a.argsCopy = args.map terminated
  addresses : a.argsAddr = a.argsCopy.map some ++ [none]

/-! ## One operator -/

section redirection

variable {op : Str} {t rest before after : List Str} {file : Option Str}

theorem terminated_injective : Function.Injective terminated := fun _ _ h => append_cancel_right h

theorem redirected_or_dangling (op : Str) (t : List Str) : Dangling op t ∨ ∃ file rest, Redirected op t file rest := by
  by_cases h : op ∈ t
  · obtain ⟨before, after, rfl, hfirst⟩ := eq_append_cons_of_mem h
    cases after with
    | nil => exact .inl ⟨before, hfirst, rfl⟩
    | cons file after => exact .inr ⟨some file, before ++ after, .file hfirst⟩
  · exact .inr ⟨none, t, .absent h⟩

theorem not_mem_terminated (h : op ∉ t) : terminated op ∉ t.map terminated := by
  rw [mem_map_of_injective terminated_injective]
  exact h

theorem findIdx?_first (h : op ∉ before) : (before ++ op :: after).findIdx? (· == op) = some before.length := by
  have hnone : before.findIdx? (· == op) = none := by
    rw [findIdx?_eq_none_iff]
    intro x hx
    rw [beq_eq_false_iff_ne]
    intro heq
    exact h (heq ▸ hx)
  rw [findIdx?_append, hnone, findIdx?_cons, beq_self_eq_true]
  simp

theorem redirect_redirected (h : Redirected op t file rest) :
    redirect (terminated op) (t.map terminated) = some ((file.map terminated).getD [], rest.map terminated) := by
  unfold redirect
  cases h with
  | absent h =>
    have hnone : (t.map terminated).findIdx? (· == terminated op) = none := by
      rw [findIdx?_eq_none_iff]
      intro x hx
      rw [beq_eq_false_iff_ne]
      intro heq
      exact not_mem_terminated h (heq ▸ hx)
    rw [hnone]
    rfl
  | @file before after file h =>
    rw [map_append, map_cons, findIdx?_first (not_mem_terminated h)]
    dsimp only
    rw [getElem?_append_right (by omega), take_left, drop_append]
    simp

/-- The tokens that are left are determined. -/
theorem Redirected.rest_unique {file' : Option Str} {rest' : List Str} (h : Redirected op t file rest)
    (h' : Redirected op t file' rest') : rest' = rest := by
  have heq := redirect_redirected h
  rw [redirect_redirected h', Option.some.injEq, Prod.mk.injEq] at heq
  exact map_injective_iff.mpr terminated_injective heq.2

theorem redirect_dangling (h : Dangling op t) : redirect (terminated op) (t.map terminated) = none := by
  obtain ⟨before, hfirst, rfl⟩ := h
  unfold redirect
  rw [map_append, map_singleton, findIdx?_first (not_mem_terminated hfirst)]
  dsimp only
  rw [getElem?_eq_none (by simp)]
  rfl

end redirection

/-! ## A command -/

/-- It returns, and exactly the tokens it should, if and only if no operator is left without a file. -/
theorem arguments_exact_iff (command : Str) :
    (∃ a, ProcessArguments.new command = some a ∧ a.Exact (tokens command)) ↔
      ¬(Dangling ['<'] (tokens command) ∨ ∃ input rest, Redirected ['<'] (tokens command) input rest ∧ Dangling ['>'] rest) := by
  unfold ProcessArguments.new
  dsimp only
  rcases redirected_or_dangling ['<'] (tokens command) with hin | ⟨input, rest, hin⟩
  · rw [redirect_dangling hin, Option.bind_none]
    refine iff_of_false ?_ (not_not.mpr (.inl hin))
    intro hsome
    obtain ⟨a, ha, -⟩ := hsome
    cases ha
  · rw [redirect_redirected hin, Option.bind_some]
    dsimp only
    rcases redirected_or_dangling ['>'] rest with hout | ⟨output, args, hout⟩
    · rw [redirect_dangling hout, Option.map_none]
      refine iff_of_false ?_ (not_not.mpr (.inr ⟨input, rest, hin, hout⟩))
      intro hsome
      obtain ⟨a, ha, -⟩ := hsome
      cases ha
    · rw [redirect_redirected hout, Option.map_some]
      refine iff_of_true ⟨_, rfl, ⟨input, rest, output, args, hin, hout, rfl, rfl, rfl⟩, rfl⟩ ?_
      intro hbad
      rcases hbad with hdangling | ⟨input', rest', hin', hdangling⟩
      · have hpanic := redirect_dangling hdangling
        rw [redirect_redirected hin] at hpanic
        cases hpanic
      · rw [hin.rest_unique hin'] at hdangling
        have hpanic := redirect_dangling hdangling
        rw [redirect_redirected hout] at hpanic
        cases hpanic

/-- "cat <": there is no token behind the operator. -/
theorem dangling_operator_panics : tokens ['c', 'a', 't', ' ', '<'] = [['c', 'a', 't'], ['<']] ∧
    ProcessArguments.new ['c', 'a', 't', ' ', '<'] = none := by
  have htokens : tokens ['c', 'a', 't', ' ', '<'] = [['c', 'a', 't'], ['<']] := by decide
  have hdangling : Dangling ['<'] [['c', 'a', 't'], ['<']] := ⟨[['c', 'a', 't']], by decide, rfl⟩
  refine ⟨htokens, ?_⟩
  unfold ProcessArguments.new
  rw [htokens]
  dsimp only
  rw [redirect_dangling hdangling, Option.bind_none]

end TCore.User
