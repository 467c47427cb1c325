/-
  TCore.Kernel.Signal — signals: what a process keeps of them, and the code that sends, masks and
  handles them (task/mod.rs, task/signal.rs, task/action.rs, syscall/process.rs).

  A process is the signal part of its `ProcessControlBlockInner` and the trap context of its main
  thread, which alone handles signals, at the end of `trap_handler`. One turn of the loop in
  `handle_signals` is a pass of `check_pending_signals`; then the thread goes on if the process
  is not frozen or is killed, and gives up the processor otherwise.

  `signals` is the machine of all processes: any thread may send a signal or call
  `sigprocmask` and `sigaction` at any time; traps, passes, `sigreturn`, `fork` and `exec` are
  those of a main thread. The kernel is built for release, where a shift takes the amount
  modulo 32.
-/

import TCore.Lib.Arr
import TCore.Lib.Machine

namespace TCore.Kernel

open TCore.Lib

/-- `SignalFlags`: bit `i` is signal number `i`. -/
abbrev SignalFlags := BitVec 32

namespace SignalFlags

def contains (s f : SignalFlags) : Bool := s &&& f == f

/-- `1 << sig`. -/
def bit (sig : Nat) : SignalFlags := 1#32 <<< sig

def sigdef : SignalFlags := bit 0
def sigint : SignalFlags := bit 2
def sigill : SignalFlags := bit 4
def sigabrt : SignalFlags := bit 6
def sigfpe : SignalFlags := bit 8
def sigkill : SignalFlags := bit 9
def sigsegv : SignalFlags := bit 11
def sigcont : SignalFlags := bit 18
def sigstop : SignalFlags := bit 19

def checkError (s : SignalFlags) : Option (Int × String) :=
  if contains s sigint then some (-2, "Killed, SIGINT=2")
  else if contains s sigill then some (-4, "Illegal Instruction, SIGILL=4")
  else if contains s sigabrt then some (-6, "Aborted, SIGABRT=6")
  else if contains s sigfpe then some (-8, "Erroneous Arithmetic Operation, SIGFPE=8")
  else if contains s sigkill then some (-9, "Killed, SIGKILL=9")
  else if contains s sigsegv then some (-11, "Segmentation Fault, SIGSEGV=11")
  else none

end SignalFlags

open SignalFlags

structure SignalAction where
  handler : UInt64
  mask : SignalFlags

instance : Inhabited SignalAction := ⟨⟨0, 40⟩⟩

structure TrapContext where
  x : Arr UInt64 32
  sstatus : UInt64
  sepc : UInt64
  kernelSatp : UInt64
  kernelSp : UInt64
  trapHandler : UInt64
  deriving Inhabited

/-- Where the main thread is: in user mode, in `trap_handler` before its end, or suspended in the
    loop of `handle_signals`. -/
inductive MainAt where
  | user
  | trap
  | looping
  deriving DecidableEq

structure Proc where
  signals : SignalFlags
  signalMask : SignalFlags
  handlingSig : Int
  signalActions : Arr SignalAction 32
  killed : Bool
  frozen : Bool
  trapCx : TrapContext
  trapCtxBackup : Option TrapContext
  main : MainAt

namespace Proc

/-- The fields a new process starts with. -/
def new (trapCx : TrapContext) : Proc := ⟨0, 0, -1, Arr.replicate default, false, false, trapCx, none, .user⟩

def callKernelSignalHandler (p : Proc) (signal : SignalFlags) : Proc :=
  if signal = sigstop then { p with frozen := true, signals := p.signals ^^^ sigstop }
  else if signal = sigcont then
    if contains p.signals sigcont then { p with signals := p.signals ^^^ sigcont, frozen := false } else p
  else { p with killed := true }

def callUserSignalHandler (p : Proc) (sig : Nat) (signal : SignalFlags) : Proc :=
  if (p.signalActions.get sig).handler ≠ 0 then
    { p with
      handlingSig := sig
      signals := p.signals ^^^ signal
      trapCtxBackup := some p.trapCx
      trapCx := { p.trapCx with
        sepc := (p.signalActions.get sig).handler
        x := p.trapCx.x.set 10 (UInt64.ofNat sig) } }
  else p

/-- The signal is in the mask of the handler being executed. -/
def masked (p : Proc) (signal : SignalFlags) : Bool :=
  if p.handlingSig = -1 then false else contains (p.signalActions.get p.handlingSig.toNat).mask signal

/-- The signals only the kernel handles. -/
def isKernel (signal : SignalFlags) : Bool :=
  signal == sigkill || signal == sigstop || signal == sigcont || signal == sigdef

/-- `n` turns of the loop in `check_pending_signals`, from signal number `sig` on. -/
def checkPendingFrom : Nat → Nat → Proc → Proc
  | 0, _, p => p
  | n + 1, sig, p =>
    if contains p.signals (bit sig) && !contains p.signalMask (bit sig) then
      if !p.masked (bit sig) then
        if isKernel (bit sig) then checkPendingFrom n (sig + 1) (p.callKernelSignalHandler (bit sig))
        else p.callUserSignalHandler sig (bit sig)
      else checkPendingFrom n (sig + 1) p
    else checkPendingFrom n (sig + 1) p

def checkPendingSignals (p : Proc) : Proc := checkPendingFrom 32 0 p

end Proc

/-- How the end of `trap_handler` goes on. -/
inductive TrapEnd where
  | exits (code : Int) (msg : String)
  | returns
  | yields
  deriving DecidableEq

namespace Proc

/-- One turn of the loop of `handle_signals` and, when it is the last, what follows it. -/
def handleSignals (p : Proc) : TrapEnd × Proc :=
  let q := p.checkPendingSignals
  if !q.frozen || q.killed then
    match q.signals.checkError with
    | some (errno, msg) => (.exits errno msg, q)
    | none => (.returns, { q with main := .user })
  else (.yields, { q with main := .looping })

/-! ## System calls -/

def sysSigprocmask (p : Proc) (mask : SignalFlags) : Int × Proc := (p.signalMask.toNat, { p with signalMask := mask })

/-- `None` is the panic of `unwrap`. -/
def sysSigreturn (p : Proc) : Option (UInt64 × Proc) :=
  p.trapCtxBackup.map fun cx => (cx.x.get 10, { p with handlingSig := -1, trapCx := cx })

/-- A pointer argument is `none` when it is null; `action` is what it points to. -/
def sysSigaction (p : Proc) (signum : Int32) (action : Option SignalAction) (oldAction : Bool) : Int × Proc :=
  if signum.toInt < 0 ∨ 31 < signum.toInt then (-1, p)
  else
    match action with
    | none => (-1, p)
    | some a =>
      if !oldAction || bit signum.toInt.toNat == sigkill || bit signum.toInt.toNat == sigstop then (-1, p)
      else (0, { p with signalActions := p.signalActions.set signum.toInt.toNat a })

/-- What `fork` gives the child; the parent's trap context is copied with the address space. -/
def forked (p : Proc) (kernelSp : UInt64) : Proc :=
  { new { p.trapCx with x := p.trapCx.x.set 10 0, kernelSp := kernelSp } with
    signalMask := p.signalMask, signalActions := p.signalActions }

end Proc

/-- `PID2PCB`. -/
abbrev Procs := Nat → Option Proc

def sysKill (w : Procs) (pid : Nat) (signum : Int32) : Int × Procs :=
  match w pid with
  | none => (-1, w)
  | some p =>
    let flag := bit (signum.toBitVec.toNat % 32)
    if contains p.signals flag then (-1, w)
    else (0, Function.update w pid (some { p with signals := p.signals ||| flag }))

inductive SignalEvent where
  | kill (pid : Nat) (signum : Int32)
  | sigprocmask (pid : Nat) (mask : SignalFlags)
  | sigaction (pid : Nat) (signum : Int32) (action : Option SignalAction) (oldAction : Bool)
  /-- A store, load or instruction fault, or an illegal instruction. -/
  | fault (pid : Nat) (illegal : Bool)
  | trap (pid : Nat) (cx : TrapContext)
  | sigreturn (pid : Nat)
  | exec (pid : Nat) (cx : TrapContext)
  | fork (pid child : Nat) (kernelSp : UInt64)
  | exit (pid : Nat)
  /-- The main thread reaches the end of `trap_handler`. -/
  | finish (pid : Nat)
  /-- The main thread gets the processor back in the loop of `handle_signals`. -/
  | resume (pid : Nat)

/-- A step of process `pid`, if it is there and its main thread is where the step starts. -/
def Procs.on (w : Procs) (pid : Nat) (ok : MainAt → Bool) (f : Proc → Option (Option Proc)) : Option Procs :=
  match w pid with
  | some p => if ok p.main then (f p).map fun r => Function.update w pid r else none
  | none => none

/-- The process after the end of `trap_handler`: gone if it exits. -/
def Proc.finished (p : Proc) : Option Proc :=
  match p.handleSignals with
  | (.exits _ _, _) => none
  | (_, q) => some q

def Procs.step (w : Procs) : SignalEvent → Option Procs
  | .kill pid signum => some (sysKill w pid signum).2
  | .sigprocmask pid mask => w.on pid (fun _ => true) fun p => some (some (p.sysSigprocmask mask).2)
  | .sigaction pid signum action oldAction =>
    w.on pid (fun _ => true) fun p => some (some (p.sysSigaction signum action oldAction).2)
  | .fault pid illegal =>
    w.on pid (fun _ => true) fun p => some (some { p with signals := p.signals ||| if illegal then sigill else sigsegv })
  | .trap pid cx => w.on pid (· = .user) fun p => some (some { p with trapCx := cx, main := .trap })
  | .sigreturn pid => w.on pid (· = .trap) fun p => p.sysSigreturn.map fun r => some r.2
  | .exec pid cx => w.on pid (· = .trap) fun p => some (some { p with trapCx := cx })
  | .fork pid child kernelSp =>
    match w pid, w child with
    | some p, none => if p.main = .trap then some (Function.update w child (some (p.forked kernelSp))) else none
    | _, _ => none
  | .exit pid => w.on pid (· = .trap) fun _ => some none
  | .finish pid => w.on pid (· = .trap) fun p => some p.finished
  | .resume pid => w.on pid (· = .looping) fun p => some p.finished

/-- At the start there is the first process, in user mode. -/
def signals : Machine Procs SignalEvent where
  init w := ∃ cx, w = Function.update (fun _ => none) 0 (some (Proc.new cx))
  step := Procs.step

end TCore.Kernel
