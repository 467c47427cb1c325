/-
  TCore.Kernel.Tasks — tasks, processes and the processor (task/*.rs, timer.rs, trap/mod.rs).

  One processor runs one flow of control at a time: `run_tasks` or a task, in user mode or in the
  kernel. A flow that calls `schedule` stays where it is until `run_tasks` switches to it again.
  Interrupts are taken in user mode, and in the kernel while `sstatus.SIE` is set; their handlers
  run with interrupts off, so a handler is one step.

  Tasks and processes are numbered in the order of their creation. A task that no container and no
  variable refers to any more has been dropped, and its kernel stack with it (`strongTask`); the
  same holds of a process (`strongProc`).

  A step is `none` when it is not possible: a panic, a spin lock held by a flow that does not run,
  the end of the machine.
-/

import TCore.Kernel.Paths
import TCore.Kernel.Semaphore

namespace TCore.Kernel

open TCore.Lib
open Function (update)

inductive TaskStatus where
  | ready
  | running
  | blocked
  deriving DecidableEq

/-- `RecycleAllocator`: the numbers below `current` are in use, but for the recycled ones. -/
structure RecycleAllocator where
  current : Nat
  recycled : List Nat

namespace RecycleAllocator

def alloc (a : RecycleAllocator) : Nat × RecycleAllocator :=
  match a.recycled with
  | id :: rest => (id, { a with recycled := rest })
  | [] => (a.current, { a with current := a.current + 1 })

def dealloc (a : RecycleAllocator) (id : Nat) : Option RecycleAllocator :=
  if id < a.current ∧ id ∉ a.recycled then some { a with recycled := id :: a.recycled } else none

end RecycleAllocator

structure TaskControlBlock where
  proc : Nat
  tid : Nat
  /-- `inner.res.is_some()`. -/
  res : Bool
  status : TaskStatus
  exitCode : Option Int

structure ProcessControlBlock where
  isZombie : Bool
  tasks : List (Option Nat)
  tids : RecycleAllocator
  children : List Nat
  /-- The eventfds its `fd_table` refers to. -/
  eventfds : List Nat

structure TimerCondVar where
  expireMs : Nat
  task : Nat

/-- A flow of control in the kernel: what it still has to do, the cells it has borrowed, and the `Arc`s of
    its own process in its local variables. -/
structure Flow where
  code : List Instr
  held : List Cell
  arcs : Nat

/-- `sstatus.SIE` and `IntrMaskingInfo`. -/
structure Intr where
  sie : Bool
  nestedLevel : Nat
  sieBeforeMasking : Bool

namespace Intr

def enter (i : Intr) : Intr :=
  ⟨false, i.nestedLevel + 1, if i.nestedLevel = 0 then i.sie else i.sieBeforeMasking⟩

def exit (i : Intr) : Intr :=
  ⟨i.sie || (i.nestedLevel - 1 == 0 && i.sieBeforeMasking), i.nestedLevel - 1, i.sieBeforeMasking⟩

end Intr

structure EventCounter where
  count : Nat
  nonBlock : Bool
  semaphore : Bool

namespace EventCounter

/-- The counter after a `read` that did not find it 0. -/
def read (c : EventCounter) : EventCounter := { c with count := if c.semaphore then c.count - 1 else 0 }

def write (c : EventCounter) (v : UInt32) : EventCounter :=
  { c with count := (c.count + if c.semaphore then 1 else v.toNat) % 2 ^ 64 }

end EventCounter

structure Sys where
  /-- The flow on the processor: a task, or `run_tasks`. -/
  cpu : Option Nat
  flow : Option Nat → Flow
  /-- `PROCESSOR.current`. -/
  current : Option Nat
  readyQueue : List Nat
  /-- `TIMERS`, the next one first. -/
  timers : List TimerCondVar
  /-- The wait queues, one behind the other: the queue of `q` are the entries of `q` in this order. -/
  waits : List (Queue × Nat)
  task : Nat → TaskControlBlock
  ntasks : Nat
  proc : Nat → ProcessControlBlock
  nprocs : Nat
  pid2pcb : List Nat
  intr : Intr
  kind : Queue → MutexKind
  locked : Queue → Bool
  count : Queue → Int
  event : Nat → EventCounter
  nevents : Nat
  /-- Bytes in the read buffer of the UART. -/
  uart : Nat

namespace Sys

variable (s : Sys)

/-! ## Flows and cells -/

def onFlow (f : Flow → Flow) : Sys := { s with flow := update s.flow s.cpu (f (s.flow s.cpu)) }

/-- The flow on the processor does `code` before the rest. -/
def push (code : List Instr) : Sys := s.onFlow fun f => { f with code := code ++ f.code }

/-- Some flow has the cell. -/
def borrowed (c : Cell) : Bool :=
  (s.flow none).held.contains c || (List.range s.ntasks).any fun t => (s.flow (some t)).held.contains c

def hold (c : Cell) : Sys :=
  { s.onFlow (fun f => { f with held := c :: f.held }) with intr := if c.masks then s.intr.enter else s.intr }

def letGo (c : Cell) : Sys :=
  { s.onFlow (fun f => { f with held := f.held.erase c }) with intr := if c.masks then s.intr.exit else s.intr }

/-! ## References -/

/-- How often task `t` is current, in the ready queue, in the timers and in a wait queue, together. -/
def places (t : Nat) : Nat :=
  s.current.toList.count t + s.readyQueue.count t + (s.timers.map (·.task)).count t + (s.waits.map (·.2)).count t

/-- Strong references to the control block of task `t`, outside local variables. -/
def strongTask (t : Nat) : Nat :=
  s.places t + ((List.range s.nprocs).map fun p => (s.proc p).tasks.count (some t)).sum

/-- Strong references to the control block of process `p`. -/
def strongProc (p : Nat) : Nat :=
  ((List.range s.nprocs).map fun q => (s.proc q).children.count p).sum + s.pid2pcb.count p +
    ((List.range s.ntasks).map fun t => if (s.task t).proc = p then (s.flow (some t)).arcs else 0).sum

/-! ## Queues -/

def setTask (t : Nat) (f : TaskControlBlock → TaskControlBlock) : Sys :=
  { s with task := update s.task t (f (s.task t)) }

def setProc (p : Nat) (f : ProcessControlBlock → ProcessControlBlock) : Sys :=
  { s with proc := update s.proc p (f (s.proc p)) }

/-- `wakeup_task`. -/
def wakeup (t : Nat) : Sys :=
  { s.setTask t (fun b => { b with status := .ready }) with readyQueue := s.readyQueue ++ [t] }

/-- The front of a wait queue. -/
def front (q : Queue) : Option Nat := (s.waits.find? fun x => x.1 = q).map (·.2)

/-- `if let Some(task) = wait_queue.pop_front() { wakeup_task(task) }`, with its borrows. -/
def wakeFront (q : Queue) : List Instr :=
  match s.front q with
  | some w => wakeupTask w q
  | none => []

def insertTimer (x : TimerCondVar) : List TimerCondVar → List TimerCondVar
  | [] => [x]
  | y :: ys => if x.expireMs < y.expireMs then x :: y :: ys else y :: insertTimer x ys

/-- The loop of `check_timer`; it panics on a cell that is borrowed, and on a task without resources. -/
def checkTimerFrom (now : Nat) : List TimerCondVar → Sys → Option Sys
  | [], s => some { s with timers := [] }
  | x :: rest, s =>
    if x.expireMs ≤ now then
      if s.borrowed (.task x.task) || s.borrowed .taskManager || !(s.task x.task).res then none
      else checkTimerFrom now rest (s.wakeup x.task)
    else some { s with timers := x :: rest }

def checkTimer (now : Nat) : Option Sys := if s.borrowed .timers then none else checkTimerFrom now s.timers s

/-- A new task of process `p` in the ready queue, about to return to user mode for the first time. -/
def addTask (p tid : Nat) : Sys :=
  { s with
    task := update s.task s.ntasks ⟨p, tid, true, .ready, none⟩
    flow := update s.flow (some s.ntasks) ⟨[.trapReturn], [], 0⟩
    ntasks := s.ntasks + 1
    readyQueue := s.readyQueue ++ [s.ntasks] }

/-- `tasks[tid] = Some(task)`, after `while tasks.len() < tid + 1 { tasks.push(None) }`. -/
def insertTask (tasks : List (Option Nat)) (tid t : Nat) : List (Option Nat) :=
  (tasks ++ List.replicate (tid + 1 - tasks.length) none).set tid (some t)

/-! ## What each instruction does -/

/-- `ProcessControlBlock::fork` by a task of process `p`. -/
def fork (p : Nat) : Option Sys :=
  if (s.proc p).tasks.length = 1 then
    let child : ProcessControlBlock := ⟨false, [some s.ntasks], ⟨1, []⟩, [], (s.proc p).eventfds⟩
    let s := s.setProc p fun b => { b with children := b.children ++ [s.nprocs] }
    some (addTask { s with proc := update s.proc s.nprocs child, nprocs := s.nprocs + 1, pid2pcb := s.pid2pcb ++ [s.nprocs] }
      s.nprocs 0)
  else none

/-- `sys_thread_create` by a task of process `p`. -/
def spawn (p : Nat) : Sys :=
  let (tid, tids) := (s.proc p).tids.alloc
  (s.setProc p fun b => { b with tids := tids, tasks := insertTask b.tasks tid s.ntasks }).addTask p tid

/-- `inner.res = None`: the thread id goes back to the process. -/
def dropRes (t : Nat) : Option Sys :=
  ((s.proc (s.task t).proc).tids.dealloc (s.task t).tid).map fun tids =>
    (s.setTask t fun b => { b with res := false }).setProc (s.task t).proc fun b => { b with tids := tids }

/-- `exit_current_and_run_next` of task `t` up to the first borrow after `drop(task)`. -/
def exit (t : Nat) (code : Int) : Option Sys :=
  let p := (s.task t).proc
  if !(s.task t).res || ((s.task t).tid == 0 && p == 0) then none
  else
    (dropRes { s with current := none } t).map fun s =>
      (s.setTask t fun b => { b with exitCode := some code }).onFlow fun f =>
        { f with
          arcs := f.arcs + 1
          code := if (s.task t).tid = 0 then exitProcess p ((s.proc p).tasks.filterMap id) else exitThread }

/-- The process becomes a zombie and its children go to `INITPROC`. -/
def becomeZombie (p : Nat) : Sys :=
  (s.setProc 0 fun b => { b with children := b.children ++ (s.proc p).children }).setProc p fun b =>
    { b with isZombie := true, children := [] }

/-- The zombie child that `sys_waitpid` of process `p` selects. -/
def zombieChild (p : Nat) (pid : Option Nat) : Option Nat :=
  (s.proc p).children.find? fun c => (s.proc c).isZombie && pid.all (· == c)

def waitpid (p : Nat) (pid : Option Nat) : Option Sys :=
  match s.zombieChild p pid with
  | none => some s
  | some c =>
    if s.strongProc c = 1 then some (s.setProc p fun b => { b with children := b.children.erase c }) else none

/-- `sys_waittid` by task `t`, up to the access to the thread waited for. -/
def waittid (t tid : Nat) : Option Sys :=
  if (s.task t).tid = tid then some s
  else
    match (s.proc (s.task t).proc).tasks[tid]? with
    | none => none
    | some none => some s
    | some (some w) => some (s.push [.borrow (.task w), .release (.task w), .reap tid])

/-- The end of `sys_waittid`: a thread that has exited leaves the table. -/
def reap (p tid : Nat) : Sys :=
  match (s.proc p).tasks[tid]? with
  | some (some w) =>
    if (s.task w).exitCode.isSome then s.setProc p fun b => { b with tasks := b.tasks.set tid none } else s
  | _ => s

/-- The end of `trap_handler` for task `t`. -/
def trapEnd (t : Nat) (sig : Signals) : Option Sys :=
  if (s.task t).res then
    if (s.task t).tid = 0 then
      some (s.push ((List.range sig.frozen).flatMap (fun _ => suspendCurrentAndRunNext t) ++
        (sig.fatal.map fun c => [.exit c]).getD [] ++ [.trapReturn]))
    else some (s.push [.trapReturn])
  else none

/-- A turn of `lock` by task `t`, with the cell of the mutex borrowed. -/
def tryLock (t : Nat) (q : Queue) : Sys :=
  if s.locked q then
    match s.kind q with
    | .spin => s.push ([.release (.queue q)] ++ suspendCurrentAndRunNext t ++ lockMutex q)
    | .blocking => s.push ([.enqueue q, .release (.queue q)] ++ blockCurrentAndRunNext t)
  else { s.push [.release (.queue q)] with locked := update s.locked q true }

def unlock (q : Queue) : Option Sys :=
  match s.kind q with
  | .spin => some { s.push [.release (.queue q)] with locked := update s.locked q false }
  | .blocking =>
    if s.locked q then
      match s.front q with
      | some w => some (s.push (wakeupTask w q ++ [.release (.queue q)]))
      | none => some { s.push [.release (.queue q)] with locked := update s.locked q false }
    else none

def up (q : Queue) : Sys :=
  { s.push ((if wrapIsize (s.count q + 1) ≤ 0 then s.wakeFront q else []) ++ [.release (.queue q)]) with
    count := update s.count q (wrapIsize (s.count q + 1)) }

def down (t : Nat) (q : Queue) : Sys :=
  { s.push (if wrapIsize (s.count q - 1) < 0 then [.enqueue q, .release (.queue q)] ++ blockCurrentAndRunNext t
      else [.release (.queue q)]) with
    count := update s.count q (wrapIsize (s.count q - 1)) }

/-- `Condvar::signal_all`: wake one, and go on if there was one. -/
def signalAll (q : Queue) : Sys :=
  match s.front q with
  | some w => s.push (wakeupTask w q ++ [.signalAll q])
  | none => s.push [.release (.queue q)]

/-- A turn of `Eventfd::read` by task `t` of process `p`. -/
def readEventfd (t p e : Nat) : Sys :=
  if e ∉ (s.proc p).eventfds then s.push [.release (.queue (.eventfd e))]
  else if (s.event e).count % 2 ^ 32 = 0 then
    if (s.event e).nonBlock then s.push [.release (.queue (.eventfd e))]
    else
      s.push ([.enqueue (.eventfd e), .release (.queue (.eventfd e))] ++ blockCurrentAndRunNext t ++
        [.borrow (.queue (.eventfd e)), .readEventfd e])
  else { s.push [.release (.queue (.eventfd e))] with event := update s.event e (s.event e).read }

def writeEventfd (p e : Nat) (v : UInt32) : Sys :=
  if e ∉ (s.proc p).eventfds then s.push [.release (.queue (.eventfd e))]
  else
    { s.push (s.wakeFront (.eventfd e) ++ [.release (.queue (.eventfd e))]) with
      event := update s.event e ((s.event e).write v) }

def createEventfd (p : Nat) (initval : UInt32) (nonBlock semaphore : Bool) : Sys :=
  { s.setProc p (fun b => { b with eventfds := b.eventfds ++ [s.nevents] }) with
    event := update s.event s.nevents ⟨initval.toNat, nonBlock, semaphore⟩, nevents := s.nevents + 1 }

/-- A turn of `NS16550a::read` by task `t`. -/
def readUart (t : Nat) : Sys :=
  if 0 < s.uart then { s.push [.release .uart] with uart := s.uart - 1 } else s.push (waitUart t)

/-- The task at the front of the ready queue becomes the current one. -/
def fetch : Sys :=
  match s.readyQueue with
  | [] => s.push [.release .taskManager]
  | t :: rest =>
    { s.setTask t (fun b => { b with status := .running }) with readyQueue := rest, current := some t }.push
      [.release .taskManager, .borrow (.task t), .release (.task t), .switchTo t]

/-- An instruction of the task `t` on the processor. -/
def taskEffect (t : Nat) : Instr → Option Sys
  | .borrow c => if s.borrowed c then none else some (s.hold c)
  | .release c => some (s.letGo c)
  | .upgrade => some (s.onFlow fun f => { f with arcs := f.arcs + 1 })
  | .dropProcess => some (s.onFlow fun f => { f with arcs := f.arcs - 1 })
  | .yield =>
    some { s.setTask t (fun b => { b with status := .ready }) with current := none, readyQueue := s.readyQueue ++ [t] }
  | .enqueue q => some { s with waits := s.waits ++ [(q, t)] }
  | .addTimer expire => some { s with timers := insertTimer ⟨expire, t⟩ s.timers }
  | .block => some { s.setTask t (fun b => { b with status := .blocked }) with current := none }
  | .schedule _ => some { s with cpu := none }
  | .popWake q =>
    match s.front q with
    | some w => some (wakeup { s with waits := s.waits.erase (q, w) } w)
    | none => some s
  | .tryLock q => some (s.tryLock t q)
  | .unlock q => s.unlock q
  | .up q => some (s.up q)
  | .down q => some (s.down t q)
  | .signal q => some (s.push (s.wakeFront q ++ [.release (.queue q)]))
  | .signalAll q => some (s.signalAll q)
  | .createEventfd initval nonBlock semaphore => some (s.createEventfd (s.task t).proc initval nonBlock semaphore)
  | .readEventfd e => some (s.readEventfd t (s.task t).proc e)
  | .writeEventfd e v => some (s.writeEventfd (s.task t).proc e v)
  | .readUart => some (s.readUart t)
  | .fork => s.fork (s.task t).proc
  | .spawn => some (s.spawn (s.task t).proc)
  | .waittid tid => s.waittid t tid
  | .reap tid => some (s.reap (s.task t).proc tid)
  | .waitpid pid => s.waitpid (s.task t).proc pid
  | .exec => if (s.proc (s.task t).proc).tasks.length = 1 then some s else none
  | .exit code => s.exit t code
  | .leavePid =>
    if (s.task t).proc ∈ s.pid2pcb then some { s with pid2pcb := s.pid2pcb.erase (s.task t).proc } else none
  | .becomeZombie => some (s.becomeZombie (s.task t).proc)
  | .removeReady u => some { s with readyQueue := s.readyQueue.erase u }
  | .removeTimer u => some { s with timers := s.timers.filter fun x => x.task != u }
  | .takeRes u => if (s.task u).res then s.dropRes u else some s
  | .clearTasks => some (s.setProc (s.task t).proc fun b => { b with tasks := [] })
  | .trapEnd sig => s.trapEnd t sig
  | .trapReturn => some { s with intr := { s.intr with sie := false } }
  | .fetch | .switchTo _ => none

/-- An instruction of `run_tasks`. -/
def idleEffect : Instr → Option Sys
  | .borrow c => if s.borrowed c then none else some (s.hold c)
  | .release c => some (s.letGo c)
  | .fetch => some s.fetch
  | .switchTo t => some { s with cpu := some t }
  | _ => none

def effect (i : Instr) : Option Sys :=
  match s.cpu with
  | some t => s.taskEffect t i
  | none => s.idleEffect i

/-- The flow on the processor takes its next instruction. -/
def execNext : Option Sys :=
  match (s.flow s.cpu).code with
  | [] => none
  | i :: rest => (s.onFlow fun f => { f with code := rest }).effect i

/-! ## Traps -/

inductive Device where
  | uart (bytes : Nat)
  | disk (token : Nat)

/-- `Condvar::signal` in an interrupt handler. -/
def signalIrq (q : Queue) : Option Sys :=
  if s.borrowed (.queue q) then none
  else
    match s.front q with
    | none => some s
    | some w =>
      if s.borrowed (.task w) || s.borrowed .taskManager then none
      else some (wakeup { s with waits := s.waits.erase (q, w) } w)

/-- `irq_handler`. -/
def irqHandler : Device → Option Sys
  | .uart bytes =>
    if s.borrowed .uart then none
    else if bytes = 0 then some s else { s with uart := s.uart + bytes }.signalIrq .uart
  | .disk token => if s.borrowed .blk then none else s.signalIrq (.disk token)

/-- The task in user mode. -/
def inUser : Option Nat :=
  match s.cpu with
  | some t => match (s.flow (some t)).code with
    | [] => some t
    | _ => none
  | none => none

/-- `run_tasks` is between two turns of its loop, or a task is in user mode. -/
def SchedulePoint : Prop := (s.flow s.cpu).code = []

instance : Decidable s.SchedulePoint := inferInstanceAs (Decidable ((s.flow s.cpu).code = []))

end Sys

inductive KernelEvent where
  /-- The next instruction of the flow on the processor. -/
  | exec
  /-- `run_tasks` begins a turn of its loop. -/
  | loop
  | call (c : Call) (now : Nat) (sig : Signals)
  /-- An exception in user mode. -/
  | fault (sig : Signals)
  | timer (now : Nat) (sig : Signals)
  | device (d : Sys.Device) (sig : Signals)

namespace Sys

def step (s : Sys) : KernelEvent → Option Sys
  | .exec => s.execNext
  | .loop =>
    match s.cpu, (s.flow none).code with
    | none, [] => some (s.push [.borrow .taskManager, .fetch])
    | _, _ => none
  | .call c now sig =>
    match s.inUser with
    | some t =>
      some (push { s with intr := { s.intr with sie := true } } (c.path t (s.task t).proc now ++ [.trapEnd sig]))
    | none => none
  | .fault sig =>
    match s.inUser with
    | some _ => some (s.push [.trapEnd sig])
    | none => none
  | .timer now sig =>
    match s.inUser with
    | some t => (s.checkTimer now).map fun s => s.push (suspendCurrentAndRunNext t ++ [.trapEnd sig])
    | none => if s.intr.sie then s.checkTimer now else none
  | .device d sig =>
    match s.inUser with
    | some _ => (s.irqHandler d).map fun s => s.push [.trapEnd sig]
    | none => if s.intr.sie then s.irqHandler d else none

/-- After boot: the main thread of the initial process is in the ready queue, the console and the disk work
    by interrupts (`DEV_NON_BLOCKING_ACCESS`). -/
def boot (kind : Queue → MutexKind) (count : Queue → Int) : Sys where
  cpu := none
  flow f := if f = some 0 then ⟨[.trapReturn], [], 0⟩ else ⟨[], [], 0⟩
  current := none
  readyQueue := [0]
  timers := []
  waits := []
  task _ := ⟨0, 0, true, .ready, none⟩
  ntasks := 1
  proc _ := ⟨false, [some 0], ⟨1, []⟩, [], []⟩
  nprocs := 1
  pid2pcb := [0]
  intr := ⟨false, 0, false⟩
  kind := kind
  locked _ := false
  count := count
  event _ := ⟨0, false, false⟩
  nevents := 0
  uart := 0

end Sys

def kernel : Machine Sys KernelEvent where
  init s := ∃ kind count, s = Sys.boot kind count
  step := Sys.step

theorem boot_reach (kind : Queue → MutexKind) (count : Queue → Int) : kernel.Reach (Sys.boot kind count) :=
  .init ⟨kind, count, rfl⟩

theorem boot_reach_only {ok : Sys → KernelEvent → Prop} (kind : Queue → MutexKind) (count : Queue → Int) :
    (kernel.only ok).Reach (Sys.boot kind count) := .init ⟨kind, count, rfl⟩

abbrev bootSpin : Sys := Sys.boot (fun _ => .spin) fun _ => 0

/-- `run_tasks` turns, with the `n` instructions that follow. -/
def loopFor (n : Nat) : List KernelEvent := .loop :: List.replicate n .exec

/-- A system call, with the `n` instructions that follow. -/
def callFor (c : Call) (n : Nat) : List KernelEvent := .call c 0 ⟨0, none⟩ :: List.replicate n .exec

end TCore.Kernel
