/-
  TCore.Kernel.Paths — the steps of the system calls (syscall/*.rs, sync/*.rs, fs/*.rs, drivers).

  What the kernel does on behalf of a task is a list of instructions: the borrows of its cells,
  the moves of tasks between the ready queue, the timers and the wait queues, and the schedule
  points. An interrupt may come between any two of them. An instruction whose effect depends on
  the state (a lock that may be taken, a queue that may be empty) puts further instructions in
  front of the rest.

  Where the source takes a task out of one place and puts it into another with nothing in between
  that an interrupt could see, the move is one instruction: `task_status` and `PROCESSOR.current`
  are not read by any interrupt handler.

  `Point` is what the text of a path alone tells of a moment in it: where the running task is, how
  many `Arc`s of its process its local variables hold, and which cells are borrowed.
-/

import TCore.Kernel.Sync

namespace TCore.Kernel

/-- A wait queue. Those of mutexes, semaphores and condition variables belong to a process. -/
inductive Queue where
  | mutex (p m : Nat)
  | semaphore (p m : Nat)
  | condvar (p c : Nat)
  | eventfd (e : Nat)
  | uart
  | disk (token : Nat)
  deriving DecidableEq

/-- What a flow of control can have borrowed or locked. -/
inductive Cell where
  | taskManager
  | timers
  | pid2pcb
  /-- `TaskControlBlock.inner`. -/
  | task (t : Nat)
  /-- `ProcessControlBlock.inner`. -/
  | proc (p : Nat)
  /-- The cell around a wait queue and what belongs to it. -/
  | queue (q : Queue)
  | pipe (i : Nat)
  | uart
  | blk
  /-- `OSInode.inner`. -/
  | file (f : Nat)
  /-- The spin locks of easy-fs. -/
  | fs
  | cacheManager
  | blockCache (b : Nat)
  deriving DecidableEq

/-- The cells that are `UPIntrFreeCell`s. -/
def Cell.masks : Cell → Bool
  | queue (.condvar _ _) | queue .uart | queue (.disk _) | uart | blk => true
  | _ => false

/-- The cells that belong to files and to easy-fs. -/
def Cell.inFs : Cell → Bool
  | file _ | fs | cacheManager | blockCache _ => true
  | _ => false

/-- The cells of a kind that `check_timer` takes. -/
def Cell.isOfTimer : Cell → Bool
  | taskManager | timers | task _ => true
  | _ => false

def ofTimer (cells : List Cell) : List Cell := cells.filter Cell.isOfTimer

theorem ofTimer_cons (c : Cell) (cells : List Cell) :
    ofTimer (c :: cells) = if c.isOfTimer = true then c :: ofTimer cells else ofTimer cells := List.filter_cons

theorem ofTimer_nil : ofTimer [] = [] := rfl

theorem mem_ofTimer {c : Cell} {cells : List Cell} (hc : c.isOfTimer = true) : c ∈ ofTimer cells ↔ c ∈ cells := by
  rw [ofTimer, List.mem_filter, and_iff_left hc]

/-- The cell of the device that wakes the queue from its interrupt handler. -/
def Queue.guard : Queue → Option Cell
  | uart => some .uart
  | disk _ => some .blk
  | _ => none

/-- Where `schedule` is called. -/
inductive Site where
  | suspend
  | block
  | uart
  | disk
  | exit
  deriving DecidableEq

/-- What the main thread finds on the way back to user mode: how often `handle_signals` finds its
    process frozen, and the signal that then ends it, if any. -/
structure Signals where
  frozen : Nat
  fatal : Option Int

inductive Instr where
  | borrow (c : Cell)
  | release (c : Cell)
  /-- `let process = current_process()` and its drop. -/
  | upgrade
  | dropProcess
  /-- The current task goes to the ready queue. -/
  | yield
  /-- `wait_queue.push_back(current_task())`. -/
  | enqueue (q : Queue)
  | addTimer (expire : Nat)
  /-- `block_current_task`. -/
  | block
  | schedule (site : Site)
  /-- `wakeup_task` on the front of a wait queue. -/
  | popWake (q : Queue)
  | tryLock (q : Queue)
  | unlock (q : Queue)
  | up (q : Queue)
  | down (q : Queue)
  | signal (q : Queue)
  | signalAll (q : Queue)
  | createEventfd (initval : UInt32) (nonBlock semaphore : Bool)
  | readEventfd (e : Nat)
  | writeEventfd (e : Nat) (v : UInt32)
  | readUart
  | fork
  | spawn
  | waittid (tid : Nat)
  | reap (tid : Nat)
  | waitpid (pid : Option Nat)
  | exec
  | exit (code : Int)
  | leavePid
  | becomeZombie
  | removeReady (u : Nat)
  | removeTimer (u : Nat)
  | takeRes (u : Nat)
  | clearTasks
  | trapEnd (sig : Signals)
  | trapReturn
  /-- The two instructions of `run_tasks`. -/
  | fetch
  | switchTo (t : Nat)

/-! ## task/mod.rs -/

/-- `suspend_current_and_run_next` of task `t`. -/
def suspendCurrentAndRunNext (t : Nat) : List Instr :=
  [.borrow (.task t), .release (.task t), .borrow .taskManager, .yield, .release .taskManager, .schedule .suspend]

/-- `block_current_and_run_next` of task `t`, which has entered a queue. -/
def blockCurrentAndRunNext (t : Nat) : List Instr :=
  [.borrow (.task t), .block, .release (.task t), .schedule .block]

/-- `wakeup_task` on `w`, the front of queue `q`. -/
def wakeupTask (w : Nat) (q : Queue) : List Instr :=
  [.borrow (.task w), .release (.task w), .borrow .taskManager, .popWake q, .release .taskManager]

/-- The end of a thread other than the main thread, after its resources are gone. -/
def exitThread : List Instr := [.dropProcess, .schedule .exit]

/-- `remove_inactive_task` and `res.take()` for one thread of the process. -/
def recycleThread (u : Nat) : List Instr :=
  [.borrow .taskManager, .removeReady u, .release .taskManager, .borrow .timers, .removeTimer u, .release .timers,
    .borrow (.task u), .takeRes u, .release (.task u)]

/-- The end of process `p` with these threads. -/
def exitProcess (p : Nat) (threads : List Nat) : List Instr :=
  [.borrow .pid2pcb, .leavePid, .release .pid2pcb, .borrow (.proc p), .becomeZombie] ++ threads.flatMap recycleThread ++
    [.release (.proc p), .borrow (.proc p), .clearTasks, .release (.proc p)] ++ exitThread

/-! ## sync/*.rs -/

def lockMutex (q : Queue) : List Instr := [.borrow (.queue q), .tryLock q]

def unlockMutex (q : Queue) : List Instr := [.borrow (.queue q), .unlock q]

/-- `Condvar::wait`. -/
def waitCondvar (t : Nat) (c m : Queue) : List Instr :=
  unlockMutex m ++ [.borrow (.queue c), .enqueue c, .release (.queue c)] ++ blockCurrentAndRunNext t ++ lockMutex m

/-! ## Drivers and easy-fs -/

/-- A turn of `NS16550a::read` that finds no byte. -/
def waitUart (t : Nat) : List Instr :=
  [.borrow (.queue .uart), .enqueue .uart, .release (.queue .uart), .borrow (.task t), .block, .release (.task t),
    .release .uart, .schedule .uart, .borrow .uart, .readUart]

/-- `read_block` or `write_block` with `DEV_NON_BLOCKING_ACCESS` set. -/
def accessDevice (t token : Nat) : List Instr :=
  [.borrow .blk, .borrow (.queue (.disk token)), .enqueue (.disk token), .release (.queue (.disk token)),
    .borrow (.task t), .block, .release (.task t), .release .blk, .schedule .disk]

/-- A call of `get_block_cache`: the block, and the tokens of the requests for the write-back of
    the block it drives out and for the block itself, where they are made. -/
structure Access where
  block : Nat
  evict : Option Nat
  load : Option Nat

def getBlockCache (t : Nat) (a : Access) : List Instr :=
  [.borrow .cacheManager] ++ (a.evict.map (accessDevice t)).getD [] ++ (a.load.map (accessDevice t)).getD [] ++
    [.release .cacheManager]

/-- A call of a method of `Inode`: it locks the file system and the block of the inode, uses other
    blocks, and may end with `block_cache_sync_all` (the modified blocks, with tokens). -/
structure InodeCall where
  inode : Access
  blocks : List Access
  sync : Option (List (Nat × Nat))

def useBlock (t : Nat) (a : Access) : List Instr :=
  getBlockCache t a ++ [.borrow (.blockCache a.block), .release (.blockCache a.block)]

def syncBlock (t : Nat) (b : Nat × Nat) : List Instr :=
  [.borrow (.blockCache b.1)] ++ accessDevice t b.2 ++ [.release (.blockCache b.1)]

def blockCacheSyncAll (t : Nat) (blocks : List (Nat × Nat)) : List Instr :=
  [.borrow .cacheManager] ++ blocks.flatMap (syncBlock t) ++ [.release .cacheManager]

def InodeCall.path (t : Nat) (c : InodeCall) : List Instr :=
  [.borrow .fs] ++ getBlockCache t c.inode ++ [.borrow (.blockCache c.inode.block)] ++ c.blocks.flatMap (useBlock t) ++
    [.release (.blockCache c.inode.block)] ++ (c.sync.map (blockCacheSyncAll t)).getD [] ++ [.release .fs]

/-! ## syscall/*.rs -/

/-- The system calls that take part in scheduling, with their arguments. What the state of a pipe or of the
    file system decides is given with the call: how often a pipe has nothing to do, and which blocks are used. -/
inductive Call where
  | yield
  | exit (code : Int)
  | sleep (ms : Nat)
  | fork
  | exec (f : Nat) (search content : List InodeCall)
  | waitpid (pid : Option Nat)
  | threadCreate
  | waittid (tid : Nat)
  | mutexLock (m : Nat)
  | mutexUnlock (m : Nat)
  | semaphoreUp (m : Nat)
  | semaphoreDown (m : Nat)
  | condvarSignal (c : Nat)
  | condvarSignalAll (c : Nat)
  | condvarWait (c m : Nat)
  | eventfd (initval : UInt32) (nonBlock semaphore : Bool)
  | readEventfd (e : Nat)
  | writeEventfd (e : Nat) (v : UInt32)
  | pipe (i waits : Nat)
  | readStdin
  | file (f : Nat) (calls : List InodeCall)
  | open_ (calls : List InodeCall)
  | listApps (calls : List InodeCall)

/-- A call of process `p` that keeps `process` until the operation returns. -/
def withProcess (p : Nat) (op : List Instr) : List Instr :=
  [.upgrade, .borrow (.proc p), .release (.proc p)] ++ op ++ [.dropProcess]

/-- A turn of `Pipe::read` or `Pipe::write` that finds the ring buffer empty or full. -/
def waitPipe (t i : Nat) : List Instr := [.borrow (.pipe i), .release (.pipe i)] ++ suspendCurrentAndRunNext t

/-- The path of a call by task `t` of process `p` at time `now`. -/
def Call.path (t p now : Nat) : Call → List Instr
  | yield => suspendCurrentAndRunNext t
  | exit code => [.exit code]
  | sleep ms =>
    [.borrow .timers, .borrow (.task t), .release (.task t), .addTimer (now + ms), .release .timers] ++
      blockCurrentAndRunNext t
  | fork =>
    [.upgrade, .borrow (.proc p), .borrow .taskManager, .fork, .release .taskManager, .release (.proc p), .dropProcess]
  | exec f search content =>
    search.flatMap (InodeCall.path t) ++ [.borrow (.file f)] ++ content.flatMap (InodeCall.path t) ++
      [.release (.file f), .upgrade, .borrow (.proc p), .exec, .release (.proc p), .dropProcess]
  | waitpid pid => [.upgrade, .borrow (.proc p), .waitpid pid, .release (.proc p), .dropProcess]
  | threadCreate =>
    [.upgrade, .borrow .taskManager, .spawn, .release .taskManager, .borrow (.proc p), .release (.proc p), .dropProcess]
  | waittid tid =>
    [.upgrade, .borrow (.task t), .borrow (.proc p), .waittid tid, .release (.proc p), .release (.task t), .dropProcess]
  | mutexLock m => [.upgrade, .borrow (.proc p), .release (.proc p), .dropProcess] ++ lockMutex (.mutex p m)
  | mutexUnlock m => [.upgrade, .borrow (.proc p), .release (.proc p), .dropProcess] ++ unlockMutex (.mutex p m)
  | semaphoreUp m => withProcess p [.borrow (.queue (.semaphore p m)), .up (.semaphore p m)]
  | semaphoreDown m => withProcess p [.borrow (.queue (.semaphore p m)), .down (.semaphore p m)]
  | condvarSignal c => withProcess p [.borrow (.queue (.condvar p c)), .signal (.condvar p c)]
  | condvarSignalAll c => withProcess p [.borrow (.queue (.condvar p c)), .signalAll (.condvar p c)]
  | condvarWait c m => withProcess p (waitCondvar t (.condvar p c) (.mutex p m))
  | eventfd initval nonBlock semaphore =>
    [.upgrade, .borrow (.proc p), .createEventfd initval nonBlock semaphore, .release (.proc p), .dropProcess]
  | readEventfd e => withProcess p [.borrow (.queue (.eventfd e)), .readEventfd e]
  | writeEventfd e v => withProcess p [.borrow (.queue (.eventfd e)), .writeEventfd e v]
  | pipe i waits =>
    withProcess p ((List.range waits).flatMap (fun _ => waitPipe t i) ++ [.borrow (.pipe i), .release (.pipe i)])
  | readStdin => withProcess p [.borrow .uart, .readUart]
  | file f calls => withProcess p ([.borrow (.file f)] ++ calls.flatMap (InodeCall.path t) ++ [.release (.file f)])
  | open_ calls => [.upgrade] ++ calls.flatMap (InodeCall.path t) ++ [.borrow (.proc p), .release (.proc p), .dropProcess]
  | listApps calls => calls.flatMap (InodeCall.path t)

/-! ## Points -/

/-- Where the task a path belongs to is. -/
inductive Phase where
  /-- In `PROCESSOR.current` and nowhere else. -/
  | run
  /-- In `PROCESSOR.current` and in a wait queue or the timers. -/
  | queued
  /-- In the ready queue, a wait queue or the timers, and no longer current. -/
  | parked
  /-- Exited, with these threads of its process taken out of the ready queue and not yet out of their resources. -/
  | gone (doomed : List Nat)
  deriving DecidableEq

/-- The threads that lose their resources before the next schedule point. -/
def Phase.doomed : Phase → List Nat
  | gone doomed => doomed
  | _ => []

structure Point where
  phase : Phase
  arcs : Nat
  cells : List Cell
  deriving DecidableEq

/-- `TASK_MANAGER` is borrowed for a move of a task only, and `TIMERS` for one and for a look at the task: of the cells
    that `check_timer` takes, those that a flow has when it comes to the instruction. -/
def Instr.fits (i : Instr) (cells : List Cell) : Bool :=
  match i with
  | .yield | .popWake _ | .fork | .spawn | .removeReady _ | .release .taskManager => cells = [.taskManager]
  | .addTimer _ | .removeTimer _ | .release .timers => cells = [.timers]
  | .borrow (.task _) | .release (.task _) => Cell.taskManager ∉ cells
  | _ => Cell.taskManager ∉ cells ∧ Cell.timers ∉ cells

namespace Point

/-- An operation of the running task on what is in the cell it has borrowed; it ends with the release. -/
def inCell (p : Point) (c : Cell) : Option Point :=
  if p.phase = .run ∧ p.cells = [c] then some { p with cells := [] } else none

theorem inCell_some {φ : Phase} {a : Nat} {H : List Cell} {c : Cell} {p : Point} (h : inCell ⟨φ, a, H⟩ c = some p) :
    φ = .run ∧ H = [c] := (Option.ite_none_right_eq_some.mp h).1

/-- The point after an instruction; `none` where the instruction does not belong. -/
def next (p : Point) : Instr → Option Point
  | .borrow c => some { p with cells := c :: p.cells }
  | .release c =>
    if p.cells.head? = some c ∧ (p.phase = .queued → c ≠ .uart ∧ c ≠ .blk) then some { p with cells := p.cells.tail } else none
  | .upgrade => if p.phase = .run then some { p with arcs := p.arcs + 1 } else none
  | .dropProcess =>
    if (p.phase = .run ∨ p.phase = .gone []) ∧ 0 < p.arcs then some { p with arcs := p.arcs - 1 } else none
  | .yield => if p.phase = .run then some { p with phase := .parked } else none
  | .enqueue q => if p.phase = .run ∧ ∀ c ∈ q.guard, c ∈ p.cells then some { p with phase := .queued } else none
  | .addTimer _ => if p.phase = .run then some { p with phase := .queued } else none
  | .block => if p.phase = .queued then some { p with phase := .parked } else none
  | .schedule .exit => if p = ⟨.gone [], 0, []⟩ then some ⟨.run, 0, []⟩ else none
  | .schedule .disk =>
    if p.phase = .parked ∧ .cacheManager ∈ p.cells ∧ ∀ c ∈ p.cells, c.inFs then some { p with phase := .run } else none
  | .schedule _ => if p.phase = .parked ∧ p.cells = [] then some { p with phase := .run } else none
  | .tryLock q | .down q => if q.guard = none then p.inCell (.queue q) else none
  | .unlock q | .up q | .signal q | .signalAll q => p.inCell (.queue q)
  | .readEventfd e | .writeEventfd e _ => p.inCell (.queue (.eventfd e))
  | .readUart => p.inCell .uart
  | .popWake _ | .createEventfd _ _ _ | .fork | .spawn | .waittid _ | .reap _ | .waitpid _ | .exec =>
    if p.phase = .run then some p else none
  | .exit _ | .trapEnd _ | .trapReturn => if p = ⟨.run, 0, []⟩ then some p else none
  | .leavePid | .becomeZombie | .clearTasks => if p.phase = .gone [] then some p else none
  | .removeReady u => if p.phase = .gone [] then some { p with phase := .gone [u] } else none
  | .removeTimer u => if p.phase = .gone [u] then some p else none
  | .takeRes u => if p.phase = .gone [u] then some { p with phase := .gone [] } else none
  | .fetch | .switchTo _ => none

/-- The point after an instruction that comes with the cells it needs. -/
def step (p : Point) (i : Instr) : Option Point :=
  if i.fits (ofTimer p.cells) then p.next i else none

/-- The point after a path. -/
def after (p : Point) (code : List Instr) : Option Point := code.foldlM step p

@[simp] theorem after_nil (p : Point) : p.after [] = some p := rfl

theorem after_cons (p : Point) (i : Instr) (code : List Instr) :
    p.after (i :: code) = (p.step i).bind fun q => q.after code := rfl

theorem step_some {p p' : Point} {i : Instr} (h : p.step i = some p') :
    i.fits (ofTimer p.cells) = true ∧ p.next i = some p' := Option.ite_none_right_eq_some.mp h

theorem after_append (p : Point) (xs ys : List Instr) :
    p.after (xs ++ ys) = (p.after xs).bind fun q => q.after ys := List.foldlM_append

/-! ### The paths fit together -/

attribute [local simp] after_cons step next Instr.fits Cell.isOfTimer ofTimer_cons ofTimer_nil

variable {a : Nat} {H : List Cell}

theorem after_suspend (t : Nat) : after ⟨.run, a, []⟩ (suspendCurrentAndRunNext t) = some ⟨.run, a, []⟩ := by
  simp [suspendCurrentAndRunNext]

theorem after_block (t : Nat) : after ⟨.queued, a, []⟩ (blockCurrentAndRunNext t) = some ⟨.run, a, []⟩ := by
  simp [blockCurrentAndRunNext]

theorem after_wakeup (w : Nat) (q : Queue) (hH : ofTimer H = []) :
    after ⟨.run, a, H⟩ (wakeupTask w q) = some ⟨.run, a, H⟩ := by
  simp [wakeupTask, hH]

theorem after_exitThread : after ⟨.gone [], 1, []⟩ exitThread = some ⟨.run, 0, []⟩ := by
  simp [exitThread]

/-- Paths that come back to the same point can be put one after the other. -/
theorem after_flatMap {α : Type} {p : Point} {f : α → List Instr} (l : List α)
    (h : ∀ x ∈ l, p.after (f x) = some p) : p.after (l.flatMap f) = some p := by
  induction l with
  | nil => rfl
  | cons x l ih =>
    rw [List.flatMap_cons, after_append, h x (by simp)]
    exact ih fun y hy => h y (by simp [hy])

theorem after_exitProcess (p : Nat) (threads : List Nat) :
    after ⟨.gone [], 1, []⟩ (exitProcess p threads) = some ⟨.run, 0, []⟩ := by
  have hloop : after ⟨.gone [], 1, [.proc p]⟩ (threads.flatMap recycleThread) = some ⟨.gone [], 1, [.proc p]⟩ := by
    apply after_flatMap
    intro u _
    simp [recycleThread]
  simp [exitProcess, after_append, hloop, after_exitThread]

theorem ofTimer_inFs (hH : ∀ c ∈ H, c.inFs) : ofTimer H = [] := by
  refine List.filter_eq_nil_iff.mpr fun c hc => ?_
  have hfs := hH c hc
  cases c <;> simp [Cell.inFs] at hfs ⊢

theorem after_accessDevice (t token : Nat) (h : .cacheManager ∈ H) (hH : ∀ c ∈ H, c.inFs) :
    after ⟨.run, a, H⟩ (accessDevice t token) = some ⟨.run, a, H⟩ := by
  simpa [accessDevice, Queue.guard, h, ofTimer_inFs hH] using hH

section FileSystem

variable (hH : ∀ c ∈ H, c.inFs)
include hH

theorem after_getBlockCache (t : Nat) (x : Access) : after ⟨.run, a, H⟩ (getBlockCache t x) = some ⟨.run, a, H⟩ := by
  have hdev : ∀ o : Option Nat, after ⟨.run, a, .cacheManager :: H⟩ ((o.map (accessDevice t)).getD []) =
      some ⟨.run, a, .cacheManager :: H⟩ := by
    intro o
    cases o with
    | none => rfl
    | some token => exact after_accessDevice t token (by simp) (by simpa [Cell.inFs] using hH)
  simp [getBlockCache, after_append, hdev, ofTimer_inFs hH]

theorem after_useBlock (t : Nat) (x : Access) : after ⟨.run, a, H⟩ (useBlock t x) = some ⟨.run, a, H⟩ := by
  simp [useBlock, after_append, after_getBlockCache hH, ofTimer_inFs hH]

theorem after_blockCacheSyncAll (t : Nat) (blocks : List (Nat × Nat)) :
    after ⟨.run, a, H⟩ (blockCacheSyncAll t blocks) = some ⟨.run, a, H⟩ := by
  have hloop : after ⟨.run, a, .cacheManager :: H⟩ (blocks.flatMap (syncBlock t)) = some ⟨.run, a, .cacheManager :: H⟩ := by
    apply after_flatMap
    intro b _
    have hdev := after_accessDevice (a := a) t b.2 (H := .blockCache b.1 :: .cacheManager :: H) (by simp)
      (by simpa [Cell.inFs] using hH)
    simp [syncBlock, after_append, hdev, ofTimer_inFs hH]
  simp [blockCacheSyncAll, after_append, hloop, ofTimer_inFs hH]

theorem after_inodeCall (t : Nat) (c : InodeCall) : after ⟨.run, a, H⟩ (c.path t) = some ⟨.run, a, H⟩ := by
  have hfs : ∀ c ∈ Cell.fs :: H, c.inFs := by simpa [Cell.inFs] using hH
  have hinode : ∀ c' ∈ Cell.blockCache c.inode.block :: .fs :: H, c'.inFs := by simpa [Cell.inFs] using hH
  have hblocks := after_flatMap (p := ⟨.run, a, _⟩) c.blocks fun x _ => after_useBlock hinode t x
  have hsync : after ⟨.run, a, .fs :: H⟩ ((c.sync.map (blockCacheSyncAll t)).getD []) = some ⟨.run, a, .fs :: H⟩ := by
    cases c.sync with
    | none => rfl
    | some blocks => exact after_blockCacheSyncAll hfs t blocks
  simp [InodeCall.path, after_append, after_getBlockCache hfs, hblocks, hsync, ofTimer_inFs hH]

theorem after_inodeCalls (t : Nat) (calls : List InodeCall) :
    after ⟨.run, a, H⟩ (calls.flatMap (InodeCall.path t)) = some ⟨.run, a, H⟩ :=
  after_flatMap calls fun c _ => after_inodeCall hH t c

end FileSystem

theorem after_withProcess {op : List Instr} (p : Nat) (h : after ⟨.run, 1, []⟩ op = some ⟨.run, 1, []⟩) :
    after ⟨.run, 0, []⟩ (withProcess p op) = some ⟨.run, 0, []⟩ := by
  simp [withProcess, after_append, h]

theorem after_waitCondvar (t p c m : Nat) :
    after ⟨.run, a, []⟩ (waitCondvar t (.condvar p c) (.mutex p m)) = some ⟨.run, a, []⟩ := by
  simp [waitCondvar, unlockMutex, lockMutex, after_append, inCell, Queue.guard, after_block]

/-- Every system call starts in user mode and comes back to it, with nothing kept. -/
theorem after_call (t p now : Nat) (c : Call) : after ⟨.run, 0, []⟩ (c.path t p now) = some ⟨.run, 0, []⟩ := by
  have hcalls : ∀ (a : Nat) (calls : List InodeCall), after ⟨.run, a, []⟩ (calls.flatMap (InodeCall.path t)) =
      some ⟨.run, a, []⟩ := fun a => after_inodeCalls (by simp) t
  have hfile : ∀ (a f : Nat) (calls : List InodeCall), after ⟨.run, a, [.file f]⟩ (calls.flatMap (InodeCall.path t)) =
      some ⟨.run, a, [.file f]⟩ := fun a f => after_inodeCalls (by simp [Cell.inFs]) t
  cases c with
  | yield => exact after_suspend t
  | sleep ms => simp [Call.path, after_block]
  | exec f search content => simp [Call.path, after_append, hcalls, hfile]
  | condvarWait c m => exact after_withProcess p (after_waitCondvar t p c m)
  | pipe i waits =>
    have hloop : after ⟨.run, 1, []⟩ ((List.range waits).flatMap fun _ => waitPipe t i) = some ⟨.run, 1, []⟩ := by
      apply after_flatMap
      intro _ _
      simp [waitPipe, after_suspend]
    apply after_withProcess
    simp [after_append, hloop]
  | file f calls =>
    apply after_withProcess
    simp [after_append, hfile]
  | open_ calls => simp [Call.path, after_append, hcalls]
  | listApps calls => exact hcalls 0 calls
  | semaphoreUp m | semaphoreDown m | condvarSignal c | condvarSignalAll c | readEventfd e | writeEventfd e v | readStdin =>
    apply after_withProcess
    simp [inCell, Queue.guard]
  | exit code => simp [Call.path]
  | fork => simp [Call.path]
  | waitpid pid => simp [Call.path]
  | threadCreate => simp [Call.path]
  | waittid tid => simp [Call.path]
  | mutexLock m => simp [Call.path, lockMutex, inCell, Queue.guard]
  | mutexUnlock m => simp [Call.path, unlockMutex, inCell]
  | eventfd initval nonBlock semaphore => simp [Call.path]

end Point

end TCore.Kernel
