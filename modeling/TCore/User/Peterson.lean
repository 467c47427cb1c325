/-
  TCore.User.Peterson — two threads add to one counter under Peterson's lock (user/src/bin/adder_peterson_spin.rs).

  The two threads share A, FLAG, TURN and PER_THREAD; a step is one access of one thread, or the next call of
  main. The arithmetic is that of a release build: a usize wraps.

  `lock` writes TURN before it raises its flag. A thread that has written TURN and not yet its flag is invisible
  to the other one, which can write TURN, raise its flag and pass; the first then raises its own flag, finds TURN
  in its favour, and passes as well.

  - `Lock`: the lock alone, four stages a thread. If no thread writes TURN while the other one is between its two
    writes, at most one thread is inside (`Lock.Ok.exclusive`).
-/

import TCore.Lib.Machine

namespace TCore.User.Peterson

open TCore.Lib
open Function (update)

/-- `1 - id`. -/
def other (id : Fin 2) : Fin 2 := 1 - id

@[simp] theorem other_ne (id : Fin 2) : other id ≠ id := by revert id; decide

@[simp] theorem other_other (id : Fin 2) : other (other id) = id := by revert id; decide

theorem eq_or_other (id k : Fin 2) : k = id ∨ k = other id := by revert id k; decide

theorem ne_other_iff {id k : Fin 2} : k ≠ other id ↔ k = id := by revert id k; decide

/-! ## The lock -/

inductive Stage where
  | outside
  /-- TURN is written and FLAG is not. -/
  | turnSet
  | waiting
  | inside
  deriving DecidableEq

/-- FLAG of a thread. -/
def Stage.flagged : Stage → Bool
  | .outside | .turnSet => false
  | .waiting | .inside => true

structure Lock where
  stage : Fin 2 → Stage
  flag : Fin 2 → Bool
  turn : Fin 2

namespace Lock

def goto (l : Lock) (id : Fin 2) (st : Stage) : Lock := { l with stage := update l.stage id st }

/-- What thread `id` can do to the lock while it keeps the rule for TURN. -/
inductive Step (id : Fin 2) : Lock → Lock → Prop where
  | stay (l : Lock) : Step id l l
  | take {l : Lock} (h : l.stage id = .outside) (halone : l.stage (other id) ≠ .turnSet) :
      Step id l { l.goto id .turnSet with turn := other id }
  | raise {l : Lock} (h : l.stage id = .turnSet) : Step id l { l.goto id .waiting with flag := update l.flag id true }
  | pass {l : Lock} (h : l.stage id = .waiting) (hfree : l.flag (other id) = false ∨ l.turn = id) :
      Step id l (l.goto id .inside)
  | leave {l : Lock} (h : l.stage id = .inside) : Step id l { l.goto id .outside with flag := update l.flag id false }

structure Ok (l : Lock) : Prop where
  flag : ∀ k, l.flag k = (l.stage k).flagged
  window : ∀ k, l.stage k = .turnSet → l.turn = other k
  inside : ∀ k, l.stage k = .inside → l.stage (other k) ≠ .outside → l.turn = k

variable {l l' : Lock} {id : Fin 2}

theorem Ok.exclusive (h : l.Ok) (id : Fin 2) : ¬ (l.stage id = .inside ∧ l.stage (other id) = .inside) := by
  intro ⟨h₁, h₂⟩
  have hid : l.turn = id := h.inside id h₁ (by simp [h₂])
  have hother : l.turn = other id := h.inside (other id) h₂ (by simp [h₁])
  exact other_ne id (hother.symm.trans hid)

/-- A thread moves to `st`, and it is enough to look at the fields from its side and from the other's. -/
theorem Ok.goto (h : l.Ok) {st : Stage} {flag : Bool} {turn : Fin 2} (hflag : flag = st.flagged)
    (hwindow : st = .turnSet → turn = other id) (hother : l.stage (other id) = .turnSet → turn = id)
    (hinside : st = .inside → l.stage (other id) ≠ .outside → turn = id)
    (hout : l.stage (other id) = .inside → st ≠ .outside → turn = other id) :
    Ok ⟨update l.stage id st, update l.flag id flag, turn⟩ := by
  constructor
  · intro k
    rcases eq_or_other id k with rfl | rfl
    · simp [hflag]
    · simp [h.flag]
  · intro k
    rcases eq_or_other id k with rfl | rfl
    · simpa using hwindow
    · simpa using hother
  · intro k
    rcases eq_or_other id k with rfl | rfl
    · simpa using hinside
    · simpa using hout

theorem Ok.step (h : l.Ok) (hs : Step id l l') : l'.Ok := by
  have hwindow := h.window (other id)
  have hinside := h.inside (other id)
  rw [other_other] at hwindow hinside
  cases hs with
  | stay => exact h
  | take hst halone =>
    have hflag : l.flag = update l.flag id false := by
      rw [eq_comm, Function.update_eq_self_iff, h.flag, hst]
      rfl
    unfold Lock.goto
    rw [hflag]
    apply h.goto rfl (fun _ => rfl)
    · intro hturn
      exact absurd hturn halone
    · simp
    · simp
  | raise hst =>
    apply h.goto rfl (by simp) hwindow (by simp)
    intro hin _
    exact hinside hin (by simp [hst])
  | pass hst hfree =>
    have hflag : l.flag = update l.flag id true := by
      rw [eq_comm, Function.update_eq_self_iff, h.flag, hst]
      rfl
    unfold Lock.goto
    rw [hflag]
    apply h.goto rfl (by simp) hwindow
    · intro _ hout
      rcases hfree with hfree | hfree
      · -- the other flag is down: it can only be between its two writes
        rw [h.flag] at hfree
        apply hwindow
        cases hother : l.stage (other id) <;> simp_all [Stage.flagged]
      · exact hfree
    · intro hin _
      exact hinside hin (by simp [hst])
  | leave hst =>
    apply h.goto rfl (by simp) hwindow (by simp) (by simp)

end Lock

/-! ## The program -/

/-- What a thread does next. -/
inductive Pc where
  | notCreated
  /-- `f`: `0..PER_THREAD`. -/
  | start
  /-- `f`: the next round, or `exit`. -/
  | next
  /-- `lock`: `TURN = j`. -/
  | setTurn
  /-- `lock`: `FLAG[id] = true`. -/
  | setFlag
  /-- `lock`: `vload!(&FLAG[j])`. -/
  | loadFlag
  /-- `lock`: `vload!(&TURN) == j`. -/
  | loadTurn
  /-- `critical_section`: `a.read_volatile()`. -/
  | readA
  /-- `critical_section`: `a.write_volatile(cur + 1)`. -/
  | writeA (cur : BitVec 64)
  /-- `unlock`: `FLAG[id] = false`. -/
  | clearFlag
  | exited
  deriving DecidableEq

/-- Where a thread is with the lock: it is inside from the return of `lock` to the write of `unlock`. -/
def Pc.stage : Pc → Stage
  | .notCreated | .start | .next | .setTurn | .exited => .outside
  | .setFlag => .turnSet
  | .loadFlag | .loadTurn => .waiting
  | .readA | .writeA _ | .clearFlag => .inside

structure Thread where
  pc : Pc
  /-- The range of the loop: the rounds begun, and its end. -/
  i : Nat
  stop : BitVec 64
  /-- Its local `t`, and at last its exit code. -/
  t : Nat

def Thread.idle : Thread := ⟨.notCreated, 0, 0, 0⟩

/-- What main does next. -/
inductive MainPc where
  /-- `PER_THREAD = per_thread`. -/
  | store
  | create (id : Fin 2)
  | waittid (id : Fin 2)
  | println
  | assertEq
  | returned
  /-- "Peterson works when there are only 2 threads". -/
  | wrongCount
  /-- `assert_eq!(A, PER_THREAD * thread_count)`. -/
  | assertFailed
  deriving DecidableEq

structure State where
  a : BitVec 64
  flag : Fin 2 → Bool
  turn : Fin 2
  perThread : BitVec 64
  threads : Fin 2 → Thread
  main : MainPc
  /-- Expected and actual sum, as printed. -/
  printed : Option (BitVec 64 × BitVec 64)

def State.new : State := ⟨0, fun _ => false, 0, 0, fun _ => .idle, .store, none⟩

def State.put (s : State) (id : Fin 2) (th : Thread) : State := { s with threads := update s.threads id th }

def State.goto (s : State) (id : Fin 2) (pc : Pc) : State := s.put id { s.threads id with pc := pc }

/-- The loop of `critical_section`. -/
def squares (t : Nat) : Nat := (fun t => t * t % 10007)^[500] t

/-- One access of thread `id` in `f`. -/
def stepThread (s : State) (id : Fin 2) : Option State :=
  let th := s.threads id
  match th.pc with
  | .notCreated | .exited => none
  | .start => some (s.put id { th with pc := .next, stop := s.perThread, t := 2 })
  | .next =>
    some (s.put id (if th.i < th.stop.toNat then { th with pc := .setTurn, i := th.i + 1 } else { th with pc := .exited }))
  | .setTurn => some { s.goto id .setFlag with turn := other id }
  | .setFlag => some { s.goto id .loadFlag with flag := update s.flag id true }
  | .loadFlag => some (s.goto id (if s.flag (other id) then .loadTurn else .readA))
  | .loadTurn => some (s.goto id (if s.turn = other id then .loadFlag else .readA))
  | .readA => some (s.goto id (.writeA s.a))
  | .writeA cur => some { s.put id { th with pc := .clearFlag, t := squares th.t } with a := cur + 1 }
  | .clearFlag => some { s.goto id .next with flag := update s.flag id false }

/-- The next step of main, whose arguments are `threadCount` and `perThread`. -/
def stepMain (threadCount perThread : BitVec 64) (s : State) : Option State :=
  match s.main with
  | .store => some { s with perThread := perThread, main := if threadCount = 2 then .create 0 else .wrongCount }
  | .create id => some { s.put id { Thread.idle with pc := .start } with main := if id = 0 then .create 1 else .waittid 0 }
  | .waittid id =>
    if (s.threads id).pc = .exited then some { s with main := if id = 0 then .waittid 1 else .println } else none
  | .println => some { s with main := .assertEq, printed := some (s.perThread * threadCount, s.a) }
  | .assertEq => some { s with main := if s.a = s.perThread * threadCount then .returned else .assertFailed }
  | .returned | .wrongCount | .assertFailed => none

inductive Event where
  | main
  | thread (id : Fin 2)

def program (threadCount perThread : BitVec 64) : Machine State Event where
  init s := s = .new
  step s e :=
    match e with
    | .main => stepMain threadCount perThread s
    | .thread id => stepThread s id

/-- No thread writes TURN while the other one is between its writes of TURN and FLAG. -/
def TurnAlone (s : State) : Event → Prop
  | .main => True
  | .thread id => (s.threads id).pc = .setTurn → (s.threads (other id)).pc ≠ .setFlag

instance : ∀ s e, Decidable (TurnAlone s e)
  | _, .main => .isTrue trivial
  | _, .thread _ => inferInstanceAs (Decidable (_ → _))

/-! ## A thread's access is a step of the lock -/

section access

variable {s s' : State} {id k : Fin 2} {th : Thread} {pc : Pc}

def State.lock (s : State) : Lock := ⟨fun k => (s.threads k).pc.stage, s.flag, s.turn⟩

section

variable (h : s'.threads = update s.threads id th)
include h

/-- The lock after thread `id` has moved to `th`. -/
theorem lock_eq :
    s'.lock = ⟨update s.lock.stage id th.pc.stage, s'.flag, s'.turn⟩ := by
  unfold State.lock
  rw [h]
  congr 1
  funext k
  rcases eq_or_other id k with rfl | rfl <;> simp

section

variable (hstage : th.pc.stage = (s.threads id).pc.stage) (hflag : s'.flag = s.flag) (hturn : s'.turn = s.turn)
include hstage hflag hturn

theorem lock_same : s'.lock = s.lock := by
  rw [lock_eq h, hstage, hflag, hturn, Function.update_eq_self_iff.mpr] <;> rfl

theorem lockStep_stay : Lock.Step id s.lock s'.lock := by
  rw [lock_same h hstage hflag hturn]
  exact .stay _

end

theorem lockStep_move
    (hstep : Lock.Step id s.lock ⟨update s.lock.stage id th.pc.stage, s'.flag, s'.turn⟩) : Lock.Step id s.lock s'.lock := by
  rwa [lock_eq h]

end

theorem stage_setFlag (h : pc.stage = .turnSet) : pc = .setFlag := by
  cases pc <;> simp_all [Pc.stage]

theorem stepThread_lock (hok : TurnAlone s (.thread id)) (h : stepThread s id = some s') : Lock.Step id s.lock s'.lock := by
  have hstage : s.lock.stage id = (s.threads id).pc.stage := rfl
  unfold stepThread at h
  cases hpc : (s.threads id).pc <;> rw [hpc] at hstage <;> simp only [hpc, Option.some.injEq, reduceCtorEq] at h <;> subst h
  case start | readA | writeA =>
    refine lockStep_stay rfl ?_ rfl rfl
    rw [hpc]
    rfl
  case next =>
    refine lockStep_stay rfl ?_ rfl rfl
    rw [hpc]
    split <;> rfl
  case setTurn => exact lockStep_move rfl (.take hstage fun hother => hok hpc (stage_setFlag hother))
  case setFlag => exact lockStep_move rfl (.raise hstage)
  case loadFlag =>
    split
    · refine lockStep_stay rfl ?_ rfl rfl
      rw [hpc]
      rfl
    · rename_i hflag
      exact lockStep_move rfl (.pass hstage (.inl (Bool.eq_false_of_not_eq_true hflag)))
  case loadTurn =>
    split
    · refine lockStep_stay rfl ?_ rfl rfl
      rw [hpc]
      rfl
    · rename_i hturn
      exact lockStep_move rfl (.pass hstage (.inr (ne_other_iff.mp hturn)))
  case clearFlag => exact lockStep_move rfl (.leave hstage)

end access

/-! ## Rounds -/

/-- The thread has begun a round and not yet added to A in it. -/
def Pc.adding : Pc → Bool
  | .setTurn | .setFlag | .loadFlag | .loadTurn | .readA | .writeA _ => true
  | .notCreated | .start | .next | .clearFlag | .exited => false

/-- The additions of a thread. -/
def Thread.added (th : Thread) : Nat := if th.pc.adding then th.i - 1 else th.i

structure Thread.Ok (perThread : BitVec 64) (th : Thread) : Prop where
  fresh : th.pc = .notCreated ∨ th.pc = .start → th.i = 0
  stop : th.pc ≠ .notCreated → th.pc ≠ .start → th.stop = perThread
  begun : th.pc.adding = true → 0 < th.i
  le : th.i ≤ perThread.toNat
  exited : th.pc = .exited → th.i = perThread.toNat

/-- What an access of thread `id` leaves, apart from the lock: it moves to `th`, and A keeps its value or is what
    the thread read plus one. -/
structure Access (perThread : BitVec 64) (s : State) (id : Fin 2) (s' : State) (th : Thread) : Prop where
  ok : th.Ok perThread
  threads : s'.threads = update s.threads id th
  main : s'.main = s.main
  perThread : s'.perThread = s.perThread
  a : (s'.a = s.a ∧ th.added = (s.threads id).added ∧ ∀ cur, th.pc = .writeA cur → cur = s.a) ∨
    ∃ cur, (s.threads id).pc = .writeA cur ∧ s'.a = cur + 1 ∧ th.added = (s.threads id).added + 1 ∧ th.pc = .clearFlag

section rounds

variable {s s' : State} {id : Fin 2} {perThread : BitVec 64} {th : Thread} {pc : Pc}

/-- A move within a round. -/
theorem Thread.Ok.goto (h : th.Ok perThread) (hcreated : th.pc ≠ .notCreated) (hstart : th.pc ≠ .start)
    (hpc : pc ≠ .notCreated ∧ pc ≠ .start ∧ pc ≠ .exited) (hadding : pc.adding = true → th.pc.adding = true) (t : Nat) :
    Thread.Ok perThread { th with pc := pc, t := t } where
  fresh := by simp [hpc]
  stop _ _ := h.stop hcreated hstart
  begun hpc := h.begun (hadding hpc)
  le := h.le
  exited := by simp [hpc]

/-- A move that leaves A alone. -/
theorem access_goto (hth : (s.threads id).Ok perThread) (hcreated : (s.threads id).pc ≠ .notCreated)
    (hstart : (s.threads id).pc ≠ .start) (hpc : pc ≠ .notCreated ∧ pc ≠ .start ∧ pc ≠ .exited)
    (hadding : pc.adding = (s.threads id).pc.adding) (hcur : ∀ cur, pc = .writeA cur → cur = s.a)
    (hthreads : s'.threads = (s.goto id pc).threads) (hmain : s'.main = s.main) (hper : s'.perThread = s.perThread)
    (ha : s'.a = s.a) : Access perThread s id s' { s.threads id with pc := pc } where
  ok := hth.goto hcreated hstart hpc (by simp [hadding]) _
  threads := hthreads
  main := hmain
  perThread := hper
  a := .inl ⟨ha, by simp [Thread.added, hadding], hcur⟩

theorem stepThread_access (hth : (s.threads id).Ok perThread) (hstart : (s.threads id).pc = .start → s.perThread = perThread)
    (h : stepThread s id = some s') : ∃ th, Access perThread s id s' th := by
  unfold stepThread at h
  cases hpc : (s.threads id).pc <;> simp only [hpc, Option.some.injEq, reduceCtorEq] at h <;> subst h
  case start =>
    refine ⟨_, ?_, rfl, rfl, rfl, .inl ⟨rfl, ?_, by simp⟩⟩
    · exact ⟨by simp, fun _ _ => hstart hpc, by simp [Pc.adding], hth.le, by simp⟩
    · simp [Thread.added, hpc, Pc.adding]
  case next =>
    have hend : (s.threads id).stop = perThread := hth.stop (by simp [hpc]) (by simp [hpc])
    by_cases hlt : (s.threads id).i < (s.threads id).stop.toNat
    · rw [if_pos hlt]
      rw [hend] at hlt
      refine ⟨_, ?_, rfl, rfl, rfl, .inl ⟨rfl, ?_, by simp⟩⟩
      · exact ⟨by simp, fun _ _ => hend, fun _ => Nat.succ_pos _, hlt, by simp⟩
      · simp [Thread.added, hpc, Pc.adding]
    · rw [if_neg hlt]
      rw [hend] at hlt
      refine ⟨_, ?_, rfl, rfl, rfl, .inl ⟨rfl, ?_, by simp⟩⟩
      · exact ⟨by simp, fun _ _ => hend, by simp [Pc.adding], hth.le, fun _ => Nat.le_antisymm hth.le (Nat.le_of_not_lt hlt)⟩
      · simp [Thread.added, hpc, Pc.adding]
  case writeA cur =>
    have hbegun : 0 < (s.threads id).i := hth.begun (by simp [hpc, Pc.adding])
    refine ⟨{ s.threads id with pc := .clearFlag, t := squares (s.threads id).t }, ?_, rfl, rfl, rfl, .inr ?_⟩
    · apply hth.goto <;> simp [hpc, Pc.adding]
    · refine ⟨cur, hpc, rfl, ?_, rfl⟩
      simp [Thread.added, hpc, Pc.adding, Nat.sub_add_cancel hbegun]
  case loadFlag | loadTurn =>
    refine ⟨_, access_goto hth (by simp [hpc]) (by simp [hpc]) ?_ ?_ ?_ rfl rfl rfl rfl⟩ <;> split <;> simp [hpc, Pc.adding]
  all_goals
    exact ⟨_, access_goto hth (by simp [hpc]) (by simp [hpc]) (by simp) (by simp [hpc, Pc.adding]) (by simp) rfl rfl rfl rfl⟩

end rounds

/-! ## Runs -/

/-- The additions of both threads. -/
def State.added (s : State) : Nat := (s.threads 0).added + (s.threads 1).added

/-- Thread `k` does not exist yet. -/
def MainPc.before (k : Fin 2) : MainPc → Prop
  | .store | .wrongCount => True
  | .create id => id ≤ k
  | _ => False

/-- Thread `k` has been waited for. -/
def MainPc.joined (k : Fin 2) : MainPc → Prop
  | .waittid id => k < id
  | .println | .assertEq | .returned | .assertFailed => True
  | _ => False

structure Inv (threadCount perThread : BitVec 64) (s : State) : Prop where
  lock : s.lock.Ok
  ok : ∀ k, (s.threads k).Ok perThread
  cur : ∀ k cur, (s.threads k).pc = .writeA cur → s.a = cur
  sum : s.a = BitVec.ofNat 64 s.added
  before : ∀ k, s.main.before k → (s.threads k).pc = .notCreated
  joined : ∀ k, s.main.joined k → (s.threads k).pc = .exited
  perThread : s.main ≠ .store → s.perThread = perThread
  threadCount : s.main = .store ∨ s.main = .wrongCount ∨ threadCount = 2
  assertion : s.main ≠ .assertFailed

section runs

variable {s s' : State} {id : Fin 2} {threadCount perThread : BitVec 64} {th : Thread}

theorem added_update (h : s'.threads = update s.threads id th) :
    s'.added + (s.threads id).added = s.added + th.added := by
  unfold State.added
  rw [h]
  fin_cases id
  · simp
    omega
  · simp
    omega

theorem inv_new : Inv threadCount perThread .new where
  lock := ⟨fun _ => rfl, nofun, nofun⟩
  ok _ := ⟨fun _ => rfl, fun h => absurd rfl h, nofun, Nat.zero_le _, nofun⟩
  cur := nofun
  sum := rfl
  before _ _ := rfl
  joined _ h := h.elim
  perThread h := absurd rfl h
  threadCount := .inl rfl
  assertion := by decide

/-- Both threads have made all their additions. -/
theorem Inv.sum_exited (h : Inv threadCount perThread s) (hexited : ∀ k, (s.threads k).pc = .exited) :
    s.a = perThread * 2 := by
  have hadded (k : Fin 2) : (s.threads k).added = perThread.toNat := by
    rw [Thread.added, hexited, ← (h.ok k).exited (hexited k)]
    rfl
  rw [h.sum, State.added, hadded, hadded]
  bv_omega

theorem stepThread_live (h : stepThread s id = some s') :
    (s.threads id).pc ≠ .notCreated ∧ (s.threads id).pc ≠ .exited := by
  constructor <;> intro hpc <;> simp [stepThread, hpc] at h

section

variable (h : Inv threadCount perThread s)
include h

theorem Inv.access (hlock : s'.lock.Ok) (hacc : Access perThread s id s' th)
    (hbefore : ¬ s.main.before id) (hjoined : ¬ s.main.joined id) : Inv threadCount perThread s' := by
  have hthreads (P : Fin 2 → Thread → Prop) (hid : P id th) (hother : ∀ k ≠ id, P k (s.threads k)) (k : Fin 2) :
      P k (s'.threads k) := by
    rw [hacc.threads]
    exact (Function.forall_update_iff s.threads P).mpr ⟨hid, hother⟩ k
  have hadded := added_update hacc.threads
  refine ⟨hlock, hthreads (fun _ th => th.Ok perThread) hacc.ok fun k _ => h.ok k,
    hthreads (fun _ th => ∀ cur, th.pc = .writeA cur → s'.a = cur) ?_ ?_, ?_,
    hthreads (fun k th => s'.main.before k → th.pc = .notCreated) ?_ ?_,
    hthreads (fun k th => s'.main.joined k → th.pc = .exited) ?_ ?_, ?_, ?_, ?_⟩
  · intro cur hcur
    rcases hacc.a with ⟨ha, -, hread⟩ | ⟨_, -, -, -, hpc⟩
    · rw [ha, hread cur hcur]
    · simp [hpc] at hcur
  · intro k hk cur hcur
    rcases hacc.a with ⟨ha, -, -⟩ | ⟨c, hpc, -, -, -⟩
    · rw [ha]
      exact h.cur k cur hcur
    · -- both would be between the read and the write of A
      obtain rfl : k = other id := (eq_or_other id k).resolve_left hk
      refine absurd ⟨?_, ?_⟩ (h.lock.exclusive id)
      · simp [State.lock, hpc, Pc.stage]
      · simp [State.lock, hcur, Pc.stage]
  · rcases hacc.a with ⟨ha, hsame, -⟩ | ⟨c, hpc, ha, hmore, -⟩
    · rw [ha, h.sum]
      congr 1
      omega
    · rw [ha, ← h.cur id c hpc, h.sum, show s'.added = s.added + 1 by omega]
      bv_omega
  · rw [hacc.main]
    exact fun hk => absurd hk hbefore
  · rw [hacc.main]
    exact fun k _ => h.before k
  · rw [hacc.main]
    exact fun hk => absurd hk hjoined
  · rw [hacc.main]
    exact fun k _ => h.joined k
  · rw [hacc.main, hacc.perThread]
    exact h.perThread
  · rw [hacc.main]
    exact h.threadCount
  · rw [hacc.main]
    exact h.assertion

theorem Inv.thread (hok : TurnAlone s (.thread id)) (hs : stepThread s id = some s') :
    Inv threadCount perThread s' := by
  obtain ⟨hcreated, hexited⟩ := stepThread_live hs
  have hstored : s.main ≠ .store := by
    intro hmain
    exact hcreated (h.before id (by rw [hmain]; trivial))
  obtain ⟨th, hacc⟩ := stepThread_access (h.ok id) (fun _ => h.perThread hstored) hs
  apply h.access (h.lock.step (stepThread_lock hok hs)) hacc
  · exact fun hbefore => hcreated (h.before id hbefore)
  · exact fun hjoined => hexited (h.joined id hjoined)

/-- A step of main that leaves the threads alone. -/
theorem Inv.goMain {p : BitVec 64} {m : MainPc} {printed : Option (BitVec 64 × BitVec 64)}
    (hbefore : ∀ k, m.before k → s.main.before k) (hjoined : ∀ k, m.joined k → (s.threads k).pc = .exited)
    (hcount : m = .wrongCount ∨ threadCount = 2) (hassert : m ≠ .assertFailed) (hp : p = perThread) :
    Inv threadCount perThread { s with perThread := p, main := m, printed := printed } where
  lock := h.lock
  ok := h.ok
  cur := h.cur
  sum := h.sum
  before k hk := h.before k (hbefore k hk)
  joined := hjoined
  perThread _ := hp
  threadCount := .inr hcount
  assertion := hassert

theorem Inv.count (hstore : s.main ≠ .store) (hwrong : s.main ≠ .wrongCount) :
    threadCount = 2 := by
  rcases h.threadCount with hmain | hmain | hcount
  · exact absurd hmain hstore
  · exact absurd hmain hwrong
  · exact hcount

/-- `thread_create`: main has moved on, and the thread appears. -/
theorem Inv.create (hpc : (s.threads id).pc = .notCreated) (hbefore : ¬ s.main.before id)
    (hjoined : ¬ s.main.joined id) : Inv threadCount perThread (s.put id { Thread.idle with pc := .start }) := by
  have hlock : (s.put id { Thread.idle with pc := .start }).lock = s.lock := lock_same rfl (by rw [hpc]; rfl) rfl rfl
  refine h.access (hlock ▸ h.lock) ⟨?_, rfl, rfl, rfl, .inl ⟨rfl, ?_, by simp⟩⟩ hbefore hjoined
  · exact ⟨fun _ => rfl, fun _ hstart => absurd rfl hstart, nofun, Nat.zero_le _, nofun⟩
  · rw [Thread.added, Thread.added, hpc, (h.ok id).fresh (.inl hpc)]
    rfl

theorem Inv.main (hs : stepMain threadCount perThread s = some s') :
    Inv threadCount perThread s' := by
  have hjoined := h.joined
  have hper := h.perThread
  have hcount := h.count
  unfold stepMain at hs
  cases hmain : s.main <;> rw [hmain] at hjoined hper hcount <;>
    simp only [hmain, reduceCtorEq, Option.some.injEq, Option.ite_none_right_eq_some] at hs
  case store =>
    subst hs
    apply h.goMain _ _ _ _ rfl
    · intro k _
      rw [hmain]
      trivial
    · intro k hk
      split at hk <;> exact hk.elim
    · split
      · exact .inr ‹_›
      · exact .inl rfl
    · split <;> simp
  case create id =>
    subst hs
    have hpc : (s.threads id).pc = .notCreated := h.before id (by rw [hmain]; exact le_refl id)
    have hnext : Inv threadCount perThread { s with main := if id = 0 then .create 1 else .waittid 0 } := by
      refine h.goMain ?_ ?_ (.inr (hcount (by simp) (by simp))) ?_ (hper (by simp))
      · intro k hk
        rw [hmain]
        revert hk
        fin_cases id <;> fin_cases k <;> simp [MainPc.before]
      · intro k hk
        revert hk
        fin_cases id <;> simp [MainPc.joined]
      · split <;> simp
    apply hnext.create hpc
    · fin_cases id <;> simp [MainPc.before]
    · fin_cases id <;> simp [MainPc.joined]
  case waittid id =>
    obtain ⟨hexited, rfl⟩ := hs
    refine h.goMain ?_ ?_ (.inr (hcount (by simp) (by simp))) ?_ (hper (by simp))
    · intro k hk
      split at hk <;> exact hk.elim
    · intro k hk
      rcases eq_or_other id k with rfl | rfl
      · exact hexited
      · apply hjoined
        revert hk
        fin_cases id <;> simp [MainPc.joined, other]
    · split <;> simp
  case println =>
    subst hs
    refine h.goMain (fun _ hk => hk.elim) ?_ (.inr (hcount (by simp) (by simp))) (by simp) (hper (by simp))
    exact fun k _ => hjoined k trivial
  case assertEq =>
    subst hs
    have hsum : s.a = s.perThread * threadCount := by
      rw [hper (by simp), hcount (by simp) (by simp)]
      exact h.sum_exited fun k => hjoined k trivial
    rw [if_pos hsum]
    refine h.goMain (fun _ hk => hk.elim) ?_ (.inr (hcount (by simp) (by simp))) (by simp) (hper (by simp))
    exact fun k _ => hjoined k trivial

end

theorem inv_reach (hs : ((program threadCount perThread).only TurnAlone).Reach s) : Inv threadCount perThread s := by
  apply hs.inv
  · intro s hs
    cases hs
    exact inv_new
  · intro s e s' h hstep
    obtain ⟨hok, hstep⟩ := Machine.only_step.mp hstep
    cases e with
    | main => exact h.main hstep
    | thread id => exact h.thread hok hstep

end runs

/-- The threads that have returned from `lock` and not yet written in `unlock`. -/
def State.inside (s : State) (k : Fin 2) : Prop := (s.threads k).pc.stage = .inside

instance (s : State) (k : Fin 2) : Decidable (s.inside k) := inferInstanceAs (Decidable (_ = _))

/-- Whatever the order of the accesses and the number of rounds, as long as no thread writes TURN while the other
    one is between its writes of TURN and FLAG: the threads are never both inside, and when both have finished A
    is the sum that main asserts. -/
theorem peterson_mutual_exclusion (threadCount perThread : BitVec 64) {s : State}
    (hs : ((program threadCount perThread).only TurnAlone).Reach s) :
    ¬ (s.inside 0 ∧ s.inside 1) ∧
      ((∀ k, (s.threads k).pc = .exited) → s.a = 2 * perThread) ∧ s.main ≠ .assertFailed := by
  have h := inv_reach hs
  refine ⟨h.lock.exclusive 0, ?_, h.assertion⟩
  intro hexited
  rw [h.sum_exited hexited, BitVec.mul_comm]

/-- One round each, one after the other. -/
def inTurns : List Event :=
  List.replicate 3 Event.main ++ List.replicate 9 (Event.thread 0) ++ List.replicate 9 (Event.thread 1) ++
    List.replicate 4 Event.main

theorem peterson_mutual_exclusion_turns : ∃ s, ((program 2 1).only TurnAlone).Reach s ∧
    (∀ k, (s.threads k).pc = .exited) ∧ s.main = .returned ∧ s.a = 2 * 1 := by
  have hrun : ∃ s ∈ (program 2 1).runOnly TurnAlone .new inTurns,
      (∀ k, (s.threads k).pc = .exited) ∧ s.main = .returned := by decide +kernel
  have hinit : ((program 2 1).only TurnAlone).Reach .new := .init rfl
  obtain ⟨s, hs, hexited, hmain⟩ := hinit.exists_runOnly hrun
  exact ⟨s, hs, hexited, hmain, (peterson_mutual_exclusion 2 1 hs).2.1 hexited⟩

/-- The first thread stops between its two writes, the second passes on the flag that is down, and the first then
    passes on TURN. -/
def bothIn : List Event :=
  List.replicate 3 Event.main ++ List.replicate 3 (Event.thread 0) ++ List.replicate 5 (Event.thread 1) ++
    List.replicate 3 (Event.thread 0)

/-- Both threads read 0 and write 1. -/
def lostRound : List Event :=
  [Event.thread 0, Event.thread 1] ++ List.replicate 3 (Event.thread 0) ++ List.replicate 3 (Event.thread 1) ++
    List.replicate 4 Event.main

/-- One round each: both threads are inside, an addition is lost, and the assertion of main fails. -/
theorem turn_before_flag : (∃ s, (program 2 1).Reach s ∧ s.inside 0 ∧ s.inside 1) ∧
    ∃ s, (program 2 1).Reach s ∧ (∀ k, (s.threads k).pc = .exited) ∧ s.a = 1 ∧ s.main = .assertFailed := by
  have hinit : (program 2 1).Reach .new := .init rfl
  have hin : ∃ s ∈ (program 2 1).run .new bothIn, s.inside 0 ∧ s.inside 1 := by decide +kernel
  have hlost : ∃ s ∈ (program 2 1).run .new (bothIn ++ lostRound),
      (∀ k, (s.threads k).pc = .exited) ∧ s.a = 1 ∧ s.main = .assertFailed := by decide +kernel
  exact ⟨hinit.exists_run hin, hinit.exists_run hlost⟩

end TCore.User.Peterson
