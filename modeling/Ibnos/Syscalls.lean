import Ibnos.Lifetimes
import Ibnos.Runs

/-!
The system calls and interrupts, as far as they have an effect on the kernel
objects. A call names an object which the process of the caller has a handle of.
Any thread which can run may be the next one to make a call.
-/

namespace Ibnos.Syscalls

open Ibnos.AddressSpaces
open Ibnos.Lifetimes
open Ibnos.Objects
open Ibnos.Pipes
open Ibnos.Programs
open Ibnos.Runs

inductive Call
  | exitProcess (exitcode : Nat)
  | exitThread (exitcode : Nat)
  | getCurrentProcess
  | getCurrentThread
  /-- `load` fills the new address space with the program and its arguments. -/
  | executeProgram (load : Pages → Option Pages)
  | allocateMemory (length : Nat)
  | releaseMemory (addr length : Nat)
  | fork
  | createThread
  | createEvent (wakeupAll : Bool)
  | createSemaphore (value : Nat)
  | createPipe
  | createTimer (wakeupAll : Bool)
  /-- An object of the file system is found, created or opened. -/
  | openOther
  | dup (x : Nat)
  | dup2 (x : Nat) (old : Option Nat)
  | close (x : Nat)
  | shutdown (x mode : Nat)
  | wait (x mode : Nat)
  | signal (x result : Nat)
  | write (x : Nat) (buf : List UInt8)
  | writeTimer (x timeout interval : Nat)
  | read (x length : Nat)
  | attach (x y mode ident : Nat)
  | detach (x ident : Nat)

inductive Input
  | call (t : Nat) (c : Call)
  | timer
  | keyboard (buf : List UInt8)

/-- The handles of a process. -/
def getHandles (p : Nat) : Kernel (List Nat) := do
  let process ← getProcess p
  match process.handles with
  | none => throw .assertion
  | some handles => pure handles

def setHandles (p : Nat) (handles : List Nat) : Kernel Unit :=
  assign processFunctions p fun process => { process with handles := some handles }

def handleAllocate (p x : Nat) : Kernel Unit := do
  if ← request then
    let handles ← getHandles p
    objectAddRef x
    setHandles p (handles ++ [x])
  else pure ()

def handleRelease (p x : Nat) : Kernel Unit := do
  let handles ← getHandles p
  setHandles p (handles.erase x)
  objectRelease x

/-- `handleSet` on a slot which holds `old`. -/
def handleSet (p x : Nat) (old : Option Nat) : Kernel Unit := do
  let handles ← getHandles p
  objectAddRef x
  match old with
  | none => setHandles p (handles ++ [x])
  | some y =>
      setHandles p (x :: handles.erase y)
      objectRelease y

/-- A call which has created an object gives it to its caller. -/
def returnHandle (p : Nat) (create : Kernel (Option Nat)) : Kernel Unit := do
  match ← create with
  | none => pure ()
  | some x =>
      handleAllocate p x
      objectRelease x

/-- The first thread of a process which was forked. -/
def forkThread (t p newP : Nat) : Kernel Unit := do
  match ← threadCreate newP (some t) with
  | none => pure ()
  | some newT =>
      handleAllocate p newP
      objectRelease newT

/-- SYSCALL_FORK -/
def fork (t p : Nat) : Kernel Unit := do
  match ← processCreate (some p) with
  | none => pure ()
  | some newP =>
      forkThread t p newP
      objectRelease newP

def shutdownOther (t x : Nat) : Kernel Unit :=
  if x = t then pure () else threadShutdown x (WORD - 3)

/-- The loop of SYSCALL_EXECUTE_PROGRAM over the threads. -/
def otherThreadsLoop (t p : Nat) : Nat → Option Nat → Kernel Unit
  | _, none => pure ()
  | 0, some _ => throw .outOfFuel
  | fuel + 1, some x => do
      let next ← threadNext p x
      shutdownOther t x
      otherThreadsLoop t p fuel next

/-- SYSCALL_EXECUTE_PROGRAM. The old page table is released before the threads are
shut down. -/
def executeProgram (t p : Nat) (load : Pages → Option Pages) : Kernel Unit := do
  let s ← get
  match load (systemPages s.data) with
  | none => pure ()
  | some pages =>
      assign processFunctions p fun process => { process with pages := some pages }
      let process ← getProcess p
      otherThreadsLoop t p process.threads.length process.threads.head?
      let areas ← allocateAreas p t
      assign threadFunctions t areas

def allocateMemory (p length : Nat) : Kernel Unit := do
  let _ ← pagingTryAllocatePhysMem p length .memory
  pure ()

def releaseMemory (p addr length : Nat) : Kernel Unit := do
  let process ← getProcess p
  match process.pages with
  | none => throw .assertion
  | some pages =>
      let r := pagingTryReleaseUserMem pages (addr / PAGE_SIZE % PAGE_COUNT) length
      assign processFunctions p fun process => { process with pages := some r.2 }

/-- Accesses to the buffer of a pipe. -/
def liftPipe {α : Type} : Except Pipes.Fault α → Kernel α
  | .ok a => pure a
  | .error _ => throw .assertion

/-- `__pipeWrite` -/
def pipeWrite (x : Nat) (p : Pipe) (buf : List UInt8) : Kernel Unit := do
  let s ← get
  let (o, p) ← liftPipe (Pipes.pipeWrite p buf (s.data 0))
  assign pipeFunctions x fun _ => p
  match o.wakeup with
  | none => pure ()
  | some used => queueWakeup (.waiters x) true (.value used)

/-- `__pipeRead` -/
def pipeRead (x : Nat) (p : Pipe) (length : Nat) : Kernel Unit := do
  let (o, p) ← liftPipe (Pipes.pipeRead p length)
  assign pipeFunctions x fun _ => p
  match o.wakeup with
  | none => pure ()
  | some free => queueWakeup (.writeWaiters x) true (.value free)

/-- `__objectWrite`, where `write` is the one of a pipe. -/
def objectWrite (x : Nat) (buf : List UInt8) : Kernel Unit := do
  match ← getObject x with
  | .pipe p => pipeWrite x p buf
  | _ => pure ()

/-- `__timerWrite` -/
def timerWrite (x timeout interval : Nat) : Kernel Unit := do
  match ← getObject x with
  | .timer _ =>
      let s ← get
      assign timerFunctions x fun t => { t with
        timeout := (s.timestamp + timeout) % (WORD * WORD), interval := interval }
      timerUpdate x
  | _ => pure ()

/-- `__objectRead` -/
def objectRead (x length : Nat) : Kernel Unit := do
  match ← getObject x with
  | .pipe p => pipeRead x p length
  | _ => pure ()

/-- `__objectAttachObj` -/
def objectAttachObj (x y mode ident : Nat) : Kernel Unit := do
  match ← getObject x with
  | .event _ => eventAttachObj x y mode ident
  | _ => pure ()

/-- `__objectDetachObj` -/
def objectDetachObj (x ident : Nat) : Kernel Unit := do
  match ← getObject x with
  | .event _ => eventDetachObj x ident
  | _ => pure ()

/-- `interrupt_0x80`, and `__threadRun` for the calls which end a thread. The
thread `t` of the process `p` is running, which has the given handles. -/
def perform (t p : Nat) (handles : List Nat) : Call → Kernel Unit
  | .exitProcess exitcode => processShutdown p exitcode
  | .exitThread exitcode => threadShutdown t exitcode
  | .getCurrentProcess => handleAllocate p p
  | .getCurrentThread => handleAllocate p t
  | .executeProgram load => executeProgram t p load
  | .allocateMemory length => allocateMemory p (length % WORD)
  | .releaseMemory addr length => releaseMemory p addr (length % WORD)
  | .fork => fork t p
  | .createThread => returnHandle p (threadCreate p none)
  | .createEvent wakeupAll => returnHandle p (objectCreate (.event { wakeupAll := wakeupAll }))
  | .createSemaphore value => returnHandle p (objectCreate (.semaphore (value % WORD)))
  | .createPipe => returnHandle p pipeCreate
  | .createTimer wakeupAll => returnHandle p (objectCreate (.timer { wakeupAll := wakeupAll }))
  | .openOther => returnHandle p (objectCreate .other)
  | .dup x => if x ∈ handles then handleAllocate p x else pure ()
  | .dup2 x old =>
      if x ∈ handles ∧ ∀ y ∈ old, y ∈ handles then handleSet p x old else pure ()
  | .close x => if x ∈ handles then handleRelease p x else pure ()
  | .shutdown x mode => if x ∈ handles then objectShutdown x mode else pure ()
  | .wait x mode => if x ∈ handles then threadWait t x mode else pure ()
  | .signal x result => if x ∈ handles then objectSignal x (.value result) else pure ()
  | .write x buf => if x ∈ handles then objectWrite x buf else pure ()
  | .writeTimer x timeout interval =>
      if x ∈ handles then timerWrite x timeout interval else pure ()
  | .read x length => if x ∈ handles then objectRead x length else pure ()
  | .attach x y mode ident =>
      if x ∈ handles ∧ y ∈ handles then objectAttachObj x y mode ident else pure ()
  | .detach x ident => if x ∈ handles then objectDetachObj x ident else pure ()

/-- The process of a thread which can run. -/
def running (s : Store) (t : Nat) : Option Nat :=
  match s.objects t with
  | some (.thread thread) => if thread.blocked then none else thread.process
  | _ => none

def TIMER_INTERRUPT_DELTA : Nat := 12

/-- The part of `timer_irq` for one timer. -/
def expire (x : Nat) (t : Timer) (now : Nat) : Kernel Unit :=
  if t.interval ≠ 0 then do
    assign timerFunctions x fun t => advance t (eventCount now t)
    timerUpdate x
    queueWakeup (.waiters x) t.wakeupAll (.value (eventCount now t))
  else do
    timerDeactivate x
    queueWakeup (.waiters x) t.wakeupAll (.value 1)

/-- The loop of `timer_irq`. -/
def timerLoop : Nat → Kernel Unit
  | 0 => throw .outOfFuel
  | fuel + 1 => do
      let s ← get
      match (s.queues .timerList).head? with
      | none => pure ()
      | some x =>
          let t ← getTimer x
          if s.timestamp < t.timeout then pure ()
          else
            expire x t s.timestamp
            timerLoop fuel

/-- `timer_irq`. A timer whose timeout increases expires at most once for every
value of the time stamp. -/
def timerIrq : Kernel Unit := do
  modify fun s => { s with timestamp := (s.timestamp + TIMER_INTERRUPT_DELTA) % (WORD * WORD) }
  let s ← get
  timerLoop ((s.queues .timerList).length * (s.timestamp + 2) + 1)

/-- One input of the kernel. -/
def handle : Input → Kernel Unit
  | .call t c => do
      let s ← get
      match running s t with
      | none => pure ()
      | some p =>
          let handles ← getHandles p
          perform t p handles c
  | .timer => timerIrq
  | .keyboard buf => do
      let s ← get
      match s.stdin with
      | none => pure ()
      | some x => objectWrite x buf

def step (s : Store) (i : Input) : Except Objects.Fault (Store × Unit) := do
  let (u, s) ← handle i s
  return (s, u)

/-- The kernel cannot start without the object. -/
def demand (create : Kernel (Option Nat)) : Kernel Nat := do
  match ← create with
  | none => throw .systemFailure
  | some x => pure x

/-- `elfLoadBinary` into a new process -/
def loadBinary (p : Nat) (load : Pages → Option Pages) : Kernel Unit := do
  let process ← getProcess p
  match process.pages.bind load with
  | none => throw .assertion
  | some pages => assign processFunctions p fun process => { process with pages := some pages }

def loadELFModule (load : Pages → Option Pages) : Kernel Nat := do
  let p ← demand (processCreate none)
  loadBinary p load
  let t ← demand (threadCreate p none)
  objectRelease t
  objectRelease p
  pure p

/-- `kernel_main` until the threads are scheduled. -/
def kernelMain (load : Pages → Option Pages) : Kernel Unit := do
  let stdout ← demand (objectCreate .other)
  let stdin ← demand pipeCreate
  modify fun s => { s with stdin := some stdin }
  let p ← loadELFModule load
  handleSet p stdin none
  handleSet p stdout none
  handleSet p stdout none

def emptyStore (grants : Nat → Bool) (data : Nat → Nat → UInt8) : Store where
  objects := fun _ => none
  refcount := fun _ => 0
  queues := fun _ => []
  home := fun _ => none
  fresh := 0
  timestamp := 0
  stdin := none
  grants := grants
  requests := 0
  data := data
  log := []
  unmaps := []

/-- The state in which the first thread is scheduled. -/
def boot (grants : Nat → Bool) (data : Nat → Nat → UInt8) (load : Pages → Option Pages) :
    Except Objects.Fault (Store × Unit) := do
  let (u, s) ← kernelMain load (emptyStore grants data)
  return (s, u)

def Booted (s : Store) : Prop := ∃ grants data load u, boot grants data load = .ok (s, u)

/-- One input after the other leads from a state to another one. -/
def Reaches (s : Store) (is : List Input) (s' : Store) : Prop := ∃ os, run step s is = .ok (s', os)

/-- The state which is reached, if there is one. -/
def reached {α : Type} (s : Store) (r : Except Objects.Fault (Store × α)) : Store :=
  match r with
  | .ok (s', _) => s'
  | .error _ => s

theorem eq_ok_reached {α : Type} {s : Store} {r : Except Objects.Fault (Store × α)}
    (h : r.toOption.isSome = true) : ∃ a, r = .ok (reached s r, a) := by
  rcases r with e | ⟨s', a⟩
  · cases h
  · exact ⟨a, rfl⟩

def runStore (s : Store) (is : List Input) : Store := reached s (run step s is)

theorem reaches_runStore {s : Store} {is : List Input}
    (h : (run step s is).toOption.isSome = true) :
    Reaches s is (runStore s is) := eq_ok_reached h

/-- A state to begin with, where all requests for memory succeed. -/
def firstStore : Store :=
  reached (emptyStore (fun _ => true) fun _ _ => 0) (boot (fun _ => true) (fun _ _ => 0) some)

theorem booted_firstStore : Booted firstStore :=
  ⟨fun _ => true, fun _ _ => 0, some, eq_ok_reached (by decide +kernel)⟩

end Ibnos.Syscalls
