/-
  TCore.User.Shell — a pipeline of the shell (user/src/bin/user_shell.rs).

  The shell makes a pipe between any two commands of the line, forks a child for each command and closes its own
  descriptors of the pipes. A child puts files and pipe ends at its descriptors 0 and 1 with close and dup, which
  is right as long as dup returns the lowest descriptor that is not open, closes all descriptors of the pipes
  and calls exec. The shell and its children interleave, and an open may fail.

  `Wp` are the tables from which the calls that a child has left go through; the whole of a child's invariant is
  that its table is one of them.
-/

import TCore.Lib.Lists
import TCore.Lib.Machine
import TCore.Kernel.FdTable
import TCore.User.Arguments

namespace TCore.User

open TCore.Kernel (FdTable)
open Function (update_self update_of_ne update update_idem update_comm)
open TCore.Lib (Machine getElem?_set_cases getElem?_snoc_cases)
open List Option

/-! ## The line -/

/-- What the shell asks of the files of command `i` of `n`. -/
def validAt (n i : Nat) (a : ProcessArguments) : Bool :=
  if i = 0 then a.output.isEmpty
  else if i = n - 1 then a.input.isEmpty
  else a.output.isEmpty && a.input.isEmpty

/-- The commands of a line that the shell runs; `none` also for the panic of `ProcessArguments.new`. -/
def pipelineOf (line : Str) : Option (List ProcessArguments) :=
  if ['c', 'd', ' '].isPrefixOf line || line.isEmpty then none
  else ((line.splitOn '|').mapM ProcessArguments.new).filter fun list =>
    list.length == 1 || list.zipIdx.all fun (a, i) => validAt list.length i a

/-! ## A child -/

inductive OpenFile where
  /-- What the shell has at its own descriptor. -/
  | inherited (fd : Nat)
  | file (path : Str) (flags : Nat)
  | readEnd (pipe : Nat)
  | writeEnd (pipe : Nat)
deriving DecidableEq

def OpenFile.isPipeEnd : OpenFile → Bool
  | .readEnd _ | .writeEnd _ => true
  | _ => false

abbrev Table := FdTable OpenFile

def RDONLY : Nat := 0
def WRONLY : Nat := 1
def CREATE : Nat := 512

/-- The calls of a child; `Opened` is the descriptor of its last open. -/
inductive Op where
  /-- The child returns -4 if it fails. -/
  | openFile (path : Str) (flags : Nat)
  | close (fd : Nat)
  | closeOpened
  /-- `assert_eq!(dup(fd), expected)`. -/
  | assertDup (fd expected : Nat)
  | assertDupOpened (expected : Nat)
  /-- The unwrap of a pipe that is not there. -/
  | panic
deriving DecidableEq

/-- A redirection of descriptor `std`, if the command has one. -/
def redirectOps (path : Str) (flags std : Nat) : List Op :=
  if path.isEmpty then [] else [.openFile path flags, .close std, .assertDupOpened std, .closeOpened]

/-- An end of pipe `k` to descriptor `std`. -/
def pipeOps (pipesFd : List (Nat × Nat)) (k : Nat) (side : Nat × Nat → Nat) (std : Nat) : List Op :=
  [.close std, match pipesFd[k]? with | some p => .assertDup (side p) std | none => .panic]

/-- The descriptors of the pipes, in the order in which they are closed. -/
def pipeFds (pipesFd : List (Nat × Nat)) : List Nat := pipesFd.flatMap fun p => [p.1, p.2]

/-- What child `i` of `n` does between fork and exec. -/
def childOps (n i : Nat) (pipesFd : List (Nat × Nat)) (a : ProcessArguments) : List Op :=
  redirectOps a.input RDONLY 0 ++ (redirectOps a.output (CREATE ||| WRONLY) 1 ++
    ((if 0 < i then pipeOps pipesFd (i - 1) Prod.fst 0 else []) ++
      ((if i < n - 1 then pipeOps pipesFd i Prod.snd 1 else []) ++ (pipeFds pipesFd).map .close)))

inductive ChildPhase where
  | wiring (ops : List Op)
  /-- Behind a successful exec. -/
  | program
  | exited
  | panicked
deriving DecidableEq

structure Child where
  table : Table
  opened : Nat
  phase : ChildPhase
deriving DecidableEq

def Child.exit (c : Child) : Child := { c with table := [], phase := .exited }

def Child.assertDup (c : Child) (fd expected : Nat) (ops : List Op) : Child :=
  if (c.table.sysDup fd).1 = expected then { c with table := (c.table.sysDup fd).2, phase := .wiring ops }
  else { c with phase := .panicked }

inductive ChildEvent where
  /-- The next call; `opens` is whether the kernel opens the file. -/
  | call (opens : Bool)
  | exec (loads : Bool)
  /-- What the program makes of its descriptors. -/
  | program (table : Table)
  | exit

def Child.step (c : Child) : ChildEvent → Option Child
  | .call opens => match c.phase with
    | .wiring (.openFile path flags :: ops) =>
      if opens then
        let r := c.table.install (.file path flags)
        some { table := r.2, opened := r.1, phase := .wiring ops }
      else some c.exit
    | .wiring (.close fd :: ops) => some { c with table := (c.table.sysClose fd).2, phase := .wiring ops }
    | .wiring (.closeOpened :: ops) => some { c with table := (c.table.sysClose c.opened).2, phase := .wiring ops }
    | .wiring (.assertDup fd expected :: ops) => some (c.assertDup fd expected ops)
    | .wiring (.assertDupOpened expected :: ops) => some (c.assertDup c.opened expected ops)
    | .wiring (.panic :: _) => some { c with phase := .panicked }
    | _ => none
  -- A child whose exec fails returns -4, one without a program to name panics there.
  | .exec loads => if c.phase = .wiring [] then some (if loads then { c with phase := .program } else c.exit) else none
  -- A program has no other way to an end of a pipe than a descriptor that it has.
  | .program table =>
    if c.phase = .program ∧ table.all fun x => x ∈ c.table || x.all fun f => !f.isPipeEnd then some { c with table }
    else none
  | .exit => if c.phase = .program then some c.exit else none

/-! ## The shell -/

inductive ShellPhase where
  | piping (left : Nat)
  | forking
  | closing (fds : List Nat)
  | waiting
deriving DecidableEq

structure Shell where
  args : List ProcessArguments
  table : Table
  pipesFd : List (Nat × Nat)
  children : List Child
  phase : ShellPhase
deriving DecidableEq

def Shell.start (args : List ProcessArguments) (table : Table) : Shell := ⟨args, table, [], [], .piping (args.length - 1)⟩

def Shell.goOn (s : Shell) : Option Shell :=
  match s.phase with
  | .piping 0 => some { s with phase := .forking }
  | .piping (left + 1) =>
    let r := s.table.sysPipe (.readEnd s.pipesFd.length) (.writeEnd s.pipesFd.length)
    some { s with table := r.2, pipesFd := s.pipesFd ++ [r.1], phase := .piping left }
  | .forking => match s.args[s.children.length]? with
    | some a =>
      let ops := childOps s.args.length s.children.length s.pipesFd a
      some { s with children := s.children ++ [⟨s.table, 0, .wiring ops⟩] }
    | none => some { s with phase := .closing (pipeFds s.pipesFd) }
  | .closing (fd :: fds) => some { s with table := (s.table.sysClose fd).2, phase := .closing fds }
  | .closing [] => some { s with phase := .waiting }
  | .waiting => none

inductive ShellEvent where
  | shell
  | child (i : Nat) (e : ChildEvent)

def Shell.step (s : Shell) : ShellEvent → Option Shell
  | .shell => s.goOn
  | .child i e => (s.children[i]?.bind (Child.step · e)).map fun c => { s with children := s.children.set i c }

/-- The shell runs a line. -/
def pipeline (line : Str) (table : Table) : Machine Shell ShellEvent where
  init s := ∃ args, pipelineOf line = some args ∧ s = .start args table
  step := Shell.step

/-- `all_write_ends_closed` of pipe `k`: no process has a descriptor of its write end. -/
def Shell.AllWriteEndsClosed (s : Shell) (k : Nat) : Prop :=
  (∀ fd, s.table.get fd ≠ some (.writeEnd k)) ∧ ∀ c ∈ s.children, ∀ fd, c.table.get fd ≠ some (.writeEnd k)

/-- The descriptors that child `i` of `n` should have. -/
def wired (n i : Nat) (a : ProcessArguments) : Nat → Option OpenFile
  | 0 => some (if 0 < i then .readEnd (i - 1) else if a.input.isEmpty then .inherited 0 else .file a.input RDONLY)
  | 1 => some (if i < n - 1 then .writeEnd i else if a.output.isEmpty then .inherited 1 else .file a.output (CREATE ||| WRONLY))
  | 2 => some (.inherited 2)
  | _ => none

/-! ## The calls of a child -/

/-- With every open that succeeds the calls go through and the table is then in `Q`. -/
def Wp (Q : Table → Prop) : List Op → Table → Nat → Prop
  | [], t, _ => Q t
  | .openFile path flags :: ops, t, _ => Wp Q ops (t.install (.file path flags)).2 (t.install (.file path flags)).1
  | .close fd :: ops, t, o => Wp Q ops (t.sysClose fd).2 o
  | .closeOpened :: ops, t, o => Wp Q ops (t.sysClose o).2 o
  | .assertDup fd expected :: ops, t, o => (t.sysDup fd).1 = expected ∧ Wp Q ops (t.sysDup fd).2 o
  | .assertDupOpened expected :: ops, t, o => (t.sysDup o).1 = expected ∧ Wp Q ops (t.sysDup o).2 o
  | .panic :: _, _, _ => False

section calls

variable {Q : Table → Prop} {ops : List Op} {t : Table} {o fd std : Nat} {f : OpenFile}

section

variable (h : ∀ k ≤ std, t.get k ≠ none)
include h

/-- Descriptor `std` is open and so is every one below it. -/
theorem lowest_sysClose : FdTable.Lowest (t.sysClose std).2 std := by
  constructor
  · rw [FdTable.get_sysClose, update_self]
  · intro k hk
    rw [FdTable.get_sysClose, update_of_ne (Nat.ne_of_lt hk)]
    exact h k hk.le

/-- A file moves to a standard descriptor. -/
theorem sysDup_sysClose (hf : t.get fd = some f) (hne : fd ≠ std) :
    ((t.sysClose std).2.sysDup fd).1 = std ∧ FdTable.get ((t.sysClose std).2.sysDup fd).2 = update t.get std (some f) := by
  have hget : FdTable.get (t.sysClose std).2 fd = some f := by
    rw [FdTable.get_sysClose, update_of_ne hne]
    exact hf
  have hlow := (FdTable.lowest_install (t.sysClose std).2 f).unique (lowest_sysClose h)
  rw [FdTable.sysDup_of_some hget]
  dsimp only
  rw [FdTable.get_install, hlow, FdTable.get_sysClose, update_idem]
  exact ⟨rfl, rfl⟩

theorem wp_assertDup (hf : t.get fd = some f) (hne : fd ≠ std)
    (hnext : ∀ t' : Table, t'.get = update t.get std (some f) → Wp Q ops t' o) :
    Wp Q (.close std :: .assertDup fd std :: ops) t o := by
  obtain ⟨hfd, hget⟩ := sysDup_sysClose h hf hne
  unfold Wp Wp
  exact ⟨hfd, hnext _ hget⟩

theorem wp_redirectOps {path : Str} {flags : Nat}
    (hnext : ∀ (t' : Table) (o' : Nat), t'.get = (if path.isEmpty then t.get else update t.get std (some (.file path flags))) →
      Wp Q ops t' o') : Wp Q (redirectOps path flags std ++ ops) t o := by
  unfold redirectOps
  by_cases hpath : path.isEmpty
  · rw [if_pos hpath, nil_append]
    exact hnext t o (by rw [if_pos hpath])
  · rw [if_neg hpath]
    have hlow := FdTable.lowest_install t (.file path flags)
    have hinstall := FdTable.get_install t (.file path flags)
    set opened := (t.install (.file path flags)).1
    set t₁ := (t.install (.file path flags)).2
    have hlt : std < opened := by
      by_contra hle
      exact h opened (Nat.le_of_not_lt hle) hlow.free
    have h₁ : ∀ k ≤ std, t₁.get k ≠ none := by
      intro k hk
      rw [hinstall, update_of_ne (by omega)]
      exact h k hk
    have hf : t₁.get opened = some (.file path flags) := by rw [hinstall, update_self]
    obtain ⟨hfd, hget⟩ := sysDup_sysClose h₁ hf hlt.ne'
    refine ⟨hfd, hnext _ _ ?_⟩
    -- The descriptor of the open is closed again, which leaves what there was.
    rw [FdTable.get_sysClose, hget, hinstall, if_neg hpath, update_comm hlt.ne', update_idem]
    rw [update_comm hlt.ne, ← hlow.free, Function.update_eq_self]

end

theorem wp_closes (fds : List Nat)
    (hnext : ∀ t' : Table, (∀ k, t'.get k = if k ∈ fds then none else t.get k) → Wp Q ops t' o) :
    Wp Q (fds.map .close ++ ops) t o := by
  induction fds generalizing t with
  | nil => exact hnext t fun k => by rw [if_neg not_mem_nil]
  | cons fd fds ih =>
    refine ih ?_
    intro t' ht'
    apply hnext
    intro k
    rw [ht', FdTable.get_sysClose]
    by_cases hk : k = fd
    · subst hk
      rw [update_self, if_pos mem_cons_self, ite_self]
    · rw [update_of_ne hk]
      simp only [mem_cons, hk, false_or]

end calls

/-! ## The descriptors of the pipes -/

/-- The shell's descriptors once it has made `m` pipes. -/
def shellFds (m fd : Nat) : Option OpenFile :=
  if fd < 3 then some (.inherited fd)
  else if fd < 3 + 2 * m then some (if (fd - 3) % 2 = 0 then .readEnd ((fd - 3) / 2) else .writeEnd ((fd - 3) / 2))
  else none

def shellPipes (m : Nat) : List (Nat × Nat) := (List.range m).map fun k => (3 + 2 * k, 4 + 2 * k)

theorem shellFds_ne_none {m fd : Nat} (h : fd < 3 + 2 * m) : shellFds m fd ≠ none := by
  unfold shellFds
  split_ifs <;> simp

theorem shellFds_eq_none {m fd : Nat} (h : 3 + 2 * m ≤ fd) : shellFds m fd = none := by
  unfold shellFds
  rw [if_neg (by omega), if_neg (by omega)]

variable {k : Nat}

theorem shellFds_read {m : Nat} (h : k < m) : shellFds m (3 + 2 * k) = some (.readEnd k) := by
  unfold shellFds
  rw [if_neg (by omega), if_pos (by omega), if_pos (by omega), show (3 + 2 * k - 3) / 2 = k by omega]

theorem shellFds_write {m : Nat} (h : k < m) : shellFds m (4 + 2 * k) = some (.writeEnd k) := by
  unfold shellFds
  rw [if_neg (by omega), if_pos (by omega), if_neg (by omega), show (4 + 2 * k - 3) / 2 = k by omega]

theorem shellFds_succ (m : Nat) :
    shellFds (m + 1) = update (update (shellFds m) (3 + 2 * m) (some (.readEnd m))) (4 + 2 * m) (some (.writeEnd m)) := by
  funext fd
  by_cases hw : fd = 4 + 2 * m
  · subst hw
    rw [update_self, shellFds_write (Nat.lt_succ_self m)]
  · rw [update_of_ne hw]
    by_cases hr : fd = 3 + 2 * m
    · subst hr
      rw [update_self, shellFds_read (Nat.lt_succ_self m)]
    · rw [update_of_ne hr]
      unfold shellFds
      split_ifs <;> first | rfl | omega

theorem shellPipes_getElem? {m : Nat} (h : k < m) : (shellPipes m)[k]? = some (3 + 2 * k, 4 + 2 * k) := by
  unfold shellPipes
  rw [getElem?_map, getElem?_range h]
  rfl

theorem mem_pipeFds {m fd : Nat} : fd ∈ pipeFds (shellPipes m) ↔ 3 ≤ fd ∧ fd < 3 + 2 * m := by
  simp only [pipeFds, shellPipes, mem_flatMap, List.mem_map, mem_range, mem_cons, not_mem_nil, or_false]
  constructor
  · intro h
    obtain ⟨p, ⟨k, hk, rfl⟩, rfl | rfl⟩ := h <;> exact ⟨by omega, by omega⟩
  · intro h
    refine ⟨_, ⟨(fd - 3) / 2, by omega, rfl⟩, ?_⟩
    dsimp only
    omega

/-- A pipe takes the next two descriptors. -/
theorem sysPipe_spec {t : Table} {m : Nat} (h : t.get = shellFds m) :
    (t.sysPipe (.readEnd m) (.writeEnd m)).1 = (3 + 2 * m, 4 + 2 * m) ∧
      FdTable.get (t.sysPipe (.readEnd m) (.writeEnd m)).2 = shellFds (m + 1) := by
  have hfirst : t.Lowest (3 + 2 * m) := by
    constructor
    · rw [h, shellFds_eq_none (Nat.le_refl _)]
    · intro k hk
      rw [h]
      exact shellFds_ne_none hk
  have hread := (FdTable.lowest_install t (.readEnd m)).unique hfirst
  have hget := FdTable.get_install t (.readEnd m)
  rw [hread, h] at hget
  have hsecond : FdTable.Lowest (t.install (.readEnd m)).2 (4 + 2 * m) := by
    constructor
    · rw [hget, update_of_ne (by omega), shellFds_eq_none (by omega)]
    · intro k hk
      rw [hget]
      by_cases hlast : k = 3 + 2 * m
      · rw [hlast, update_self]
        exact some_ne_none _
      · rw [update_of_ne hlast]
        exact shellFds_ne_none (by omega)
  have hwrite := (FdTable.lowest_install (t.install (.readEnd m)).2 (.writeEnd m)).unique hsecond
  unfold FdTable.sysPipe
  dsimp only
  rw [hread, hwrite, FdTable.get_install, hwrite, hget, shellFds_succ]
  exact ⟨rfl, rfl⟩

/-! ## From fork to exec -/

/-- The shell's descriptors but for 0 and 1, which are open. -/
structure Kept (m : Nat) (t : Table) : Prop where
  std : ∀ fd ≤ 1, t.get fd ≠ none
  other : ∀ fd, 1 < fd → t.get fd = shellFds m fd

theorem Kept.update {m std : Nat} {t t' : Table} {f : OpenFile} (h : Kept m t) (hstd : std ≤ 1)
    (ht' : t'.get = update t.get std (some f)) : Kept m t' := by
  constructor
  · intro fd hfd
    rw [ht']
    by_cases heq : fd = std
    · rw [heq, update_self]
      exact some_ne_none _
    · rw [update_of_ne heq]
      exact h.std fd hfd
  · intro fd hfd
    rw [ht', update_of_ne (by omega)]
    exact h.other fd hfd

variable {a : ProcessArguments}

section wiring

variable {Q : Table → Prop} {ops : List Op} {t : Table} {o m std : Nat}

theorem Kept.wp_redirectOps {path : Str} {flags : Nat} (h : Kept m t) (hstd : std ≤ 1)
    (hnext : ∀ (t' : Table) (o' : Nat), Kept m t' →
      t'.get = (if path.isEmpty then t.get else Function.update t.get std (some (.file path flags))) → Wp Q ops t' o') :
    Wp Q (redirectOps path flags std ++ ops) t o := by
  apply TCore.User.wp_redirectOps fun k hk => h.std k (hk.trans hstd)
  intro t' o' ht'
  refine hnext t' o' ?_ ht'
  by_cases hpath : path.isEmpty
  · rw [if_pos hpath] at ht'
    exact ⟨ht' ▸ h.std, ht' ▸ h.other⟩
  · rw [if_neg hpath] at ht'
    exact h.update hstd ht'

/-- One end of a pipe, if the child has that neighbour. -/
theorem Kept.wp_pipeOps {P : Prop} [Decidable P] {side : Nat × Nat → Nat} {f : OpenFile} (h : Kept m t) (hstd : std ≤ 1)
    (hend : P → k < m ∧ 1 < side (3 + 2 * k, 4 + 2 * k) ∧ shellFds m (side (3 + 2 * k, 4 + 2 * k)) = some f)
    (hnext : ∀ t' : Table, Kept m t' → t'.get = (if P then Function.update t.get std (some f) else t.get) → Wp Q ops t' o) :
    Wp Q ((if P then pipeOps (shellPipes m) k side std else []) ++ ops) t o := by
  by_cases hP : P
  · obtain ⟨hk, hfd, hf⟩ := hend hP
    rw [if_pos hP]
    unfold pipeOps
    rw [shellPipes_getElem? hk]
    refine wp_assertDup (fun k hk => h.std k (hk.trans hstd)) ((h.other _ hfd).trans hf) (by omega) ?_
    intro t' ht'
    exact hnext t' (h.update hstd ht') (by rw [if_pos hP, ht'])
  · rw [if_neg hP, nil_append]
    exact hnext t h (by rw [if_neg hP])

theorem wp_childOps {n i : Nat} (hi : i < n) (ht : t.get = shellFds (n - 1)) :
    Wp (fun t => t.get = wired n i a) (childOps n i (shellPipes (n - 1)) a) t o := by
  have hkept : Kept (n - 1) t := ⟨fun fd hfd => by rw [ht]; exact shellFds_ne_none (by omega), fun fd _ => by rw [ht]⟩
  unfold childOps
  apply hkept.wp_redirectOps (by omega)
  intro t₁ o₁ hkept₁ ht₁
  apply hkept₁.wp_redirectOps (by omega)
  intro t₂ o₂ hkept₂ ht₂
  refine hkept₂.wp_pipeOps (f := .readEnd (i - 1)) (by omega) ?_ ?_
  · intro hpos
    exact ⟨by omega, by omega, shellFds_read (by omega)⟩
  intro t₃ hkept₃ ht₃
  refine hkept₃.wp_pipeOps (f := .writeEnd i) (by omega) ?_ ?_
  · intro hlast
    exact ⟨hlast, by omega, shellFds_write hlast⟩
  intro t₄ hkept₄ ht₄
  rw [← append_nil ((pipeFds _).map _)]
  apply wp_closes
  intro t₅ ht₅
  funext fd
  rw [ht₅, if_congr mem_pipeFds rfl rfl]
  match fd with
  | 0 =>
    rw [if_neg (by omega), ht₄, ht₃, ht₂, ht₁, ht]
    unfold wired
    split_ifs <;> simp [shellFds]
  | 1 =>
    rw [if_neg (by omega), ht₄, ht₃, ht₂, ht₁, ht]
    unfold wired
    split_ifs <;> simp [shellFds]
  | 2 =>
    rw [if_neg (by omega), hkept₄.other 2 (by omega)]
    rfl
  | fd + 3 =>
    by_cases hfd : fd + 3 < 3 + 2 * (n - 1)
    · rw [if_pos ⟨by omega, hfd⟩]
      rfl
    · rw [if_neg (by omega), hkept₄.other _ (by omega), shellFds_eq_none (by omega)]
      rfl

end wiring

/-! ## The children in a run -/

/-- The ends of pipes in the table are those of child `i`. -/
def Own (i : Nat) (t : Table) : Prop := ∀ fd k, t.get fd = some (.writeEnd k) → k = i

theorem own_wired {n i : Nat} {t : Table} (h : t.get = wired n i a) : Own i t := by
  intro fd k hfd
  rw [h] at hfd
  match fd with
  | 0 => unfold wired at hfd; split_ifs at hfd <;> cases hfd
  | 1 => unfold wired at hfd; split_ifs at hfd <;> cases hfd <;> rfl
  | 2 => cases hfd
  | fd + 3 => cases hfd

def Child.Inv (n i : Nat) (a : ProcessArguments) (c : Child) : Prop :=
  match c.phase with
  | .wiring ops => Wp (fun t => t.get = wired n i a) ops c.table c.opened
  | .program => Own i c.table
  | .exited => ∀ fd, c.table.get fd = none
  | .panicked => False

section children

variable {n i : Nat} {a : ProcessArguments} {c c' : Child} {ops : List Op}

theorem Child.inv_exit (c : Child) : c.exit.Inv n i a := fun _ => rfl

theorem Child.inv_assertDup {fd expected : Nat}
    (h : (c.table.sysDup fd).1 = expected ∧ Wp (fun t => t.get = wired n i a) ops (c.table.sysDup fd).2 c.opened) :
    (c.assertDup fd expected ops).Inv n i a := by
  unfold Child.assertDup
  rw [if_pos h.1]
  exact h.2

theorem Child.inv_call {opens : Bool} (h : c.Inv n i a) (hs : c.step (.call opens) = some c') : c'.Inv n i a := by
  rcases c with ⟨t, o, _ | _ | _ | _⟩
  case wiring ops =>
    cases ops with
    | nil => cases hs
    | cons op ops =>
      cases op with
      | openFile path flags =>
        cases opens with
        | true => cases hs; exact h
        | false => cases hs; exact Child.inv_exit _
      | close fd => cases hs; exact h
      | closeOpened => cases hs; exact h
      | assertDup fd expected => cases hs; exact Child.inv_assertDup h
      | assertDupOpened expected => cases hs; exact Child.inv_assertDup h
      | panic => exact h.elim
  all_goals cases hs

theorem Child.inv_step {e : ChildEvent} (h : c.Inv n i a) (hs : c.step e = some c') : c'.Inv n i a := by
  cases e with
  | call opens => exact Child.inv_call h hs
  | exec loads =>
    obtain ⟨hphase, hs⟩ := ite_none_right_eq_some.mp hs
    rcases c with ⟨t, o, phase⟩
    cases hphase
    cases hs
    cases loads with
    | true => exact own_wired h
    | false => exact Child.inv_exit _
  | program table =>
    obtain ⟨⟨hphase, hall⟩, hs⟩ := ite_none_right_eq_some.mp hs
    rcases c with ⟨t, o, phase⟩
    cases hphase
    cases hs
    intro fd k hfd
    have hmem := List.all_eq_true.mp hall _ (FdTable.some_mem_iff.mpr ⟨fd, hfd⟩)
    rw [Bool.or_eq_true, decide_eq_true_iff] at hmem
    rcases hmem with hold | hother
    · obtain ⟨fd', hfd'⟩ := FdTable.some_mem_iff.mp hold
      exact h fd' k hfd'
    · cases hother
  | exit =>
    obtain ⟨hphase, hs⟩ := ite_none_right_eq_some.mp hs
    cases hs
    exact Child.inv_exit c

end children

/-! ## The shell in a run -/

def Shell.PhaseInv (s : Shell) : Prop :=
  match s.phase with
  | .piping left => left + s.pipesFd.length = s.args.length - 1 ∧ s.table.get = shellFds s.pipesFd.length
  | .forking => s.pipesFd.length = s.args.length - 1 ∧ s.table.get = shellFds (s.args.length - 1)
  | .closing fds => s.children.length = s.args.length ∧ (∀ fd ∈ fds, 3 ≤ fd) ∧
      ∀ fd ∉ fds, s.table.get fd = shellFds 0 fd
  | .waiting => s.children.length = s.args.length ∧ s.table.get = shellFds 0

structure Shell.Inv (s : Shell) : Prop where
  pipes : s.pipesFd = shellPipes s.pipesFd.length
  count : s.children.length ≤ s.args.length
  children : ∀ (i : Nat) (c : Child) (a : ProcessArguments), s.children[i]? = some c → s.args[i]? = some a → c.Inv s.args.length i a
  phase : s.PhaseInv

section run

variable {s s' : Shell}

theorem Shell.inv_start {args : List ProcessArguments} {table : Table} (h : table.get = shellFds 0) : (Shell.start args table).Inv where
  pipes := rfl
  count := Nat.zero_le _
  children _ _ _ hc _ := by cases hc
  phase := ⟨rfl, h⟩

theorem shellPipes_succ (m : Nat) : shellPipes (m + 1) = shellPipes m ++ [(3 + 2 * m, 4 + 2 * m)] := by
  unfold shellPipes
  rw [range_succ, map_append]
  rfl

section

variable (h : s.Inv)
include h

theorem Shell.Inv.pipe {left : Nat} (hphase : s.phase = .piping (left + 1)) (hs : s.goOn = some s') : s'.Inv := by
  have hinv := h.phase
  rcases s with ⟨args, t, pipesFd, children, phase⟩
  cases hphase
  obtain ⟨hcount, hget⟩ := hinv
  obtain ⟨hfds, hget'⟩ := sysPipe_spec hget
  cases hs
  refine ⟨?_, h.count, h.children, ?_, ?_⟩
  · dsimp only at hfds ⊢
    rw [hfds, length_append, length_singleton, shellPipes_succ, ← h.pipes]
  · dsimp only at hcount ⊢
    rw [length_append, length_singleton]
    omega
  · dsimp only at hget' ⊢
    rw [hget', length_append, length_singleton]

theorem Shell.Inv.fork (hphase : s.phase = .forking) (ha : s.args[s.children.length]? = some a) :
    Shell.Inv { s with children := s.children ++
      [⟨s.table, 0, .wiring (childOps s.args.length s.children.length s.pipesFd a)⟩] } := by
  have hinv := h.phase
  obtain ⟨hlt, -⟩ := List.getElem?_eq_some_iff.mp ha
  unfold Shell.PhaseInv at hinv
  rw [hphase] at hinv
  refine ⟨h.pipes, ?_, ?_, ?_⟩
  · dsimp only
    rw [length_append, length_singleton]
    exact hlt
  · intro i c b hc hb
    dsimp only at hc hb ⊢
    rcases getElem?_snoc_cases hc with ⟨rfl, rfl⟩ | ⟨-, hc⟩
    · rw [ha] at hb
      cases hb
      unfold Child.Inv
      dsimp only
      rw [h.pipes, hinv.1]
      exact wp_childOps hlt hinv.2
    · exact h.children i c b hc hb
  · unfold Shell.PhaseInv
    rw [hphase]
    exact hinv

theorem Shell.Inv.forked (hphase : s.phase = .forking) (ha : s.args[s.children.length]? = none) :
    Shell.Inv { s with phase := .closing (pipeFds s.pipesFd) } := by
  have hinv := h.phase
  unfold Shell.PhaseInv at hinv
  rw [hphase] at hinv
  have hmem : ∀ fd, fd ∈ pipeFds s.pipesFd ↔ 3 ≤ fd ∧ fd < 3 + 2 * (s.args.length - 1) := by
    intro fd
    rw [h.pipes, hinv.1]
    exact mem_pipeFds
  refine ⟨h.pipes, h.count, h.children, le_antisymm h.count (List.getElem?_eq_none_iff.mp ha), fun fd hfd => ((hmem fd).mp hfd).1, ?_⟩
  · intro fd hfd
    rw [hmem] at hfd
    rw [hinv.2]
    unfold shellFds
    split_ifs <;> first | rfl | omega

theorem Shell.Inv.close {fd : Nat} {fds : List Nat} (hphase : s.phase = .closing (fd :: fds)) :
    Shell.Inv { s with table := (s.table.sysClose fd).2, phase := .closing fds } := by
  have hinv := h.phase
  unfold Shell.PhaseInv at hinv
  rw [hphase] at hinv
  obtain ⟨hcount, hpipe, hget⟩ := hinv
  refine ⟨h.pipes, h.count, h.children, hcount, fun k hk => hpipe k (mem_cons_of_mem _ hk), ?_⟩
  intro k hk
  dsimp only
  rw [FdTable.get_sysClose]
  by_cases heq : k = fd
  · rw [heq, update_self, shellFds_eq_none (hpipe fd mem_cons_self)]
  · rw [update_of_ne heq]
    exact hget k fun hmem => (mem_cons.mp hmem).elim heq hk

theorem Shell.Inv.goOn (hs : s.goOn = some s') : s'.Inv := by
  have hinv := h.phase
  unfold Shell.PhaseInv at hinv
  cases hphase : s.phase with
  | piping left =>
    cases left with
    | zero =>
      rw [hphase] at hinv
      unfold Shell.goOn at hs
      rw [hphase] at hs
      cases hs
      have hlen : s.pipesFd.length = s.args.length - 1 := by rw [← hinv.1, Nat.zero_add]
      refine ⟨h.pipes, h.count, h.children, hlen, ?_⟩
      rw [← hlen]
      exact hinv.2
    | succ left => exact h.pipe hphase hs
  | forking =>
    unfold Shell.goOn at hs
    rw [hphase] at hs
    dsimp only at hs
    cases ha : s.args[s.children.length]? with
    | some a =>
      rw [ha] at hs
      cases hs
      have hfork := h.fork hphase ha
      rwa [hphase] at hfork
    | none =>
      rw [ha] at hs
      cases hs
      exact h.forked hphase ha
  | closing fds =>
    unfold Shell.goOn at hs
    rw [hphase] at hs
    cases fds with
    | nil =>
      rw [hphase] at hinv
      cases hs
      exact ⟨h.pipes, h.count, h.children, hinv.1, funext fun fd => hinv.2.2 fd not_mem_nil⟩
    | cons fd fds =>
      cases hs
      exact h.close hphase
  | waiting =>
    unfold Shell.goOn at hs
    rw [hphase] at hs
    cases hs

theorem Shell.Inv.step {e : ShellEvent} (hs : s.step e = some s') : s'.Inv := by
  cases e with
  | shell => exact h.goOn hs
  | child i e =>
    obtain ⟨c', hc', rfl⟩ := map_eq_some_iff.mp hs
    obtain ⟨c, hc, hstep⟩ := bind_eq_some_iff.mp hc'
    refine ⟨h.pipes, by rw [length_set]; exact h.count, ?_, ?_⟩
    · intro j d a hd ha
      rcases getElem?_set_cases hd with ⟨rfl, rfl⟩ | ⟨-, hd⟩
      · exact Child.inv_step (h.children j c a hc ha) hstep
      · exact h.children j d a hd ha
    · have hinv := h.phase
      unfold Shell.PhaseInv at hinv ⊢
      dsimp only
      rw [length_set]
      exact hinv

end

theorem Shell.inv_reach {line : Str} {table : Table} (htable : table.get = shellFds 0) (hs : (pipeline line table).Reach s) : s.Inv := by
  refine hs.inv Shell.Inv ?_ fun _ _ _ h hstep => h.step hstep
  intro s hinit
  obtain ⟨args, -, rfl⟩ := hinit
  exact Shell.inv_start htable

variable {c : Child}

/-- Every child has its arguments. -/
theorem Shell.Inv.exists_args {i : Nat} (h : s.Inv) (hc : s.children[i]? = some c) :
    ∃ a, s.args[i]? = some a ∧ c.Inv s.args.length i a := by
  obtain ⟨hi, -⟩ := List.getElem?_eq_some_iff.mp hc
  have ha := getElem?_eq_getElem (hi.trans_le h.count)
  exact ⟨_, ha, h.children i c _ hc ha⟩

theorem Shell.Inv.own {i : Nat} (h : s.Inv) (hc : s.children[i]? = some c) (hphase : c.phase = .program ∨ c.phase = .exited) :
    Own i c.table := by
  obtain ⟨a, -, hinv⟩ := h.exists_args hc
  unfold Child.Inv at hinv
  rcases hphase with hphase | hphase
  · rw [hphase] at hinv
    exact hinv
  · rw [hphase] at hinv
    intro fd k hfd
    rw [hinv fd] at hfd
    cases hfd

theorem Shell.Inv.allWriteEndsClosed_iff (h : s.Inv) (hwaiting : s.phase = .waiting)
    (hall : ∀ c ∈ s.children, c.phase = .program ∨ c.phase = .exited) (hc : s.children[k]? = some c) :
    s.AllWriteEndsClosed k ↔ ∀ fd, c.table.get fd ≠ some (.writeEnd k) := by
  have hinv := h.phase
  unfold Shell.PhaseInv at hinv
  rw [hwaiting] at hinv
  constructor
  · intro hclosed
    exact hclosed.2 c (mem_of_getElem? hc)
  · intro hnone
    constructor
    · intro fd hfd
      rw [hinv.2] at hfd
      unfold shellFds at hfd
      split_ifs at hfd
      cases hfd
    · intro d hd fd hfd
      obtain ⟨i, hi⟩ := getElem?_of_mem hd
      -- A process with a write end of this pipe is the child of that number.
      have heq : k = i := h.own hi (hall d hd) fd k hfd
      subst heq
      rw [hc] at hi
      cases hi
      exact hnone fd hfd

end run

/-- Over every interleaving no assertion of a child fails, and at its exec it has the descriptors of `wired`. When
the shell waits and the children run their programs, a pipe has no writer left exactly if the child that
writes to it has none. -/
theorem pipelines_wired {line : Str} {table : Table} {s : Shell}
    (htable : ∀ fd, table.get fd = if fd < 3 then some (.inherited fd) else none) (hs : (pipeline line table).Reach s) :
    (∀ i c, s.children[i]? = some c → c.phase ≠ .panicked ∧
      ∃ a, s.args[i]? = some a ∧ (c.phase = .wiring [] → ∀ fd, c.table.get fd = wired s.args.length i a fd)) ∧
    (s.phase = .waiting → s.children.length = s.args.length ∧
      (∀ fd, s.table.get fd = if fd < 3 then some (.inherited fd) else none) ∧
      ((∀ c ∈ s.children, c.phase = .program ∨ c.phase = .exited) → ∀ k c, s.children[k]? = some c →
        (s.AllWriteEndsClosed k ↔ ∀ fd, c.table.get fd ≠ some (.writeEnd k)))) := by
  have hfds : ∀ fd, shellFds 0 fd = if fd < 3 then some (.inherited fd) else none := by
    intro fd
    unfold shellFds
    split_ifs <;> rfl
  have h := Shell.inv_reach (funext fun fd => (htable fd).trans (hfds fd).symm) hs
  refine ⟨?_, ?_⟩
  · intro i c hc
    obtain ⟨a, ha, hinv⟩ := h.exists_args hc
    unfold Child.Inv at hinv
    refine ⟨?_, a, ha, ?_⟩
    · intro hphase
      rw [hphase] at hinv
      exact hinv
    · intro hphase
      rw [hphase] at hinv
      exact congrFun hinv
  · intro hwaiting
    have hinv := h.phase
    unfold Shell.PhaseInv at hinv
    rw [hwaiting] at hinv
    refine ⟨hinv.1, ?_, fun hall k c hc => h.allWriteEndsClosed_iff hwaiting hall hc⟩
    intro fd
    rw [hinv.2]
    exact hfds fd

/-- The line "a < f | b", with both children ready for their programs and then with "a" at its end. -/
theorem pipelines_wired_redirected :
    let run := pipeline ['a', ' ', '<', ' ', 'f', ' ', '|', ' ', 'b'] [some (.inherited 0), some (.inherited 1), some (.inherited 2)]
    ∃ s c d s', run.Reach s ∧ s.children = [c, d] ∧ c.phase = .wiring [] ∧ d.phase = .wiring [] ∧
      c.table.get 0 = some (.file ['f', '\x00'] RDONLY) ∧ c.table.get 1 = some (.writeEnd 0) ∧ c.table.get 3 = none ∧
      d.table.get 0 = some (.readEnd 0) ∧ d.table.get 1 = some (.inherited 1) ∧
      run.Reach s' ∧ s'.phase = .waiting ∧ s'.AllWriteEndsClosed 0 := by
  intro run
  let table : Table := [some (.inherited 0), some (.inherited 1), some (.inherited 2)]
  have htable : ∀ fd, table.get fd = if fd < 3 then some (.inherited fd) else none := by
    intro fd
    match fd with
    | 0 => rfl
    | 1 => rfl
    | 2 => rfl
    | fd + 3 => rfl
  let a : ProcessArguments := ⟨['f', '\x00'], [], [terminated ['a']], [some (terminated ['a']), none]⟩
  let b : ProcessArguments := ⟨[], [], [terminated ['b']], [some (terminated ['b']), none]⟩
  have hline : pipelineOf ['a', ' ', '<', ' ', 'f', ' ', '|', ' ', 'b'] = some [a, b] := rfl
  have hinit : run.Reach (.start [a, b] table) := .init ⟨_, hline, rfl⟩
  let c : Child := ⟨[some (.file ['f', '\x00'] RDONLY), some (.writeEnd 0), some (.inherited 2), none, none, none], 5, .wiring []⟩
  let d : Child := ⟨[some (.readEnd 0), some (.inherited 1), some (.inherited 2), none, none], 0, .wiring []⟩
  let s : Shell := ⟨[a, b], table ++ [none, none], [(3, 4)], [c, d], .waiting⟩
  have hrun : run.run (.start [a, b] table) (replicate 8 .shell ++ replicate 8 (.child 0 (.call true)) ++
      replicate 4 (.child 1 (.call true))) = some s := by decide +kernel
  have hs : run.Reach s := hinit.run hrun
  obtain ⟨hwired, -⟩ := pipelines_wired htable hs
  obtain ⟨-, _, ⟨⟩, hwired₀⟩ := hwired 0 c rfl
  obtain ⟨-, _, ⟨⟩, hwired₁⟩ := hwired 1 d rfl
  let s' : Shell := { s with children := [c.exit, { d with phase := .program }] }
  have hrun' : run.run s [.child 0 (.exec true), .child 1 (.exec true), .child 0 .exit] = some s' := by decide +kernel
  have hs' : run.Reach s' := hs.run hrun'
  have hclosed := ((pipelines_wired htable hs').2 rfl).2.2 (by simp [s', Child.exit]) 0 c.exit rfl
  refine ⟨s, c, d, s', hs, rfl, rfl, rfl, hwired₀ rfl 0, hwired₀ rfl 1, hwired₀ rfl 3, hwired₁ rfl 0, hwired₁ rfl 1, hs', rfl, ?_⟩
  exact hclosed.mpr fun fd hfd => by cases hfd

end TCore.User
