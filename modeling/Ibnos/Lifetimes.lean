import Ibnos.Objects

/-!
The beginning and the end of kernel objects. An object is destroyed together with
its last reference. Threads and processes are shut down before, where the last
thread of a process shuts down the process as well.
-/

namespace Ibnos.Lifetimes

open Ibnos.AddressSpaces
open Ibnos.Objects
open Ibnos.Pipes
open Ibnos.Programs

def forEach (body : Nat → Kernel Unit) : List Nat → Kernel Unit
  | [] => pure ()
  | x :: xs => do
      body x
      forEach body xs

/-- All waits for an object are aborted. -/
def abortWaits (q : Queue) : Kernel Unit := queueWakeup q true (.value MINUS_ONE)

def assertEmpty (q : Queue) : Kernel Unit := do
  let s ← get
  kernelAssert (s.queues q = [])

/-- `pagingReleaseProcessPageTable`, if it was not released before. -/
def releasePageTable (x : Nat) :
    Kernel Unit := assign processFunctions x fun p => { p with pages := none }

section

variable (release : Nat → Kernel Unit)

/-- `handleTableFree`, if it was not called before. -/
def handleTableFree (x : Nat) : Kernel Unit := do
  let p ← getProcess x
  match p.handles with
  | none => pure ()
  | some handles =>
      forEach release handles
      assign processFunctions x fun p => { p with handles := none }

/-- `__threadDestroy` -/
def threadDestroy (x : Nat) (t : Thread) : Kernel Unit := do
  assertEmpty (.waiters x)
  kernelAssert (t.process = none)
  heapFree x

/-- `__processDestroy` -/
def processDestroy (x : Nat) (p : Process) : Kernel Unit := do
  assertEmpty (.waiters x)
  kernelAssert (p.threads = [])
  releasePageTable x
  handleTableFree release x
  heapFree x

def unlinkSubEvent (y : Nat) (s : SubEvent) : Kernel Unit := do
  if s.blocked then
    let _ ← llRemove y
    pure ()
  else pure ()

/-- The subEvent `y` is taken from the event `x`. -/
def removeSubEvent (x y : Nat) : Kernel Unit := do
  let s ← getSubEvent y
  unlinkSubEvent y s
  assign eventFunctions x fun e => { e with subEvents := e.subEvents.erase y }
  release s.wait
  heapFree y

/-- `__eventDestroy` -/
def eventDestroy (x : Nat) : Kernel Unit := do
  abortWaits (.waiters x)
  assertEmpty (.waiters x)
  let e ← getEvent x
  forEach (removeSubEvent release x) e.subEvents
  heapFree x

/-- `__semaphoreDestroy` -/
def semaphoreDestroy (x : Nat) : Kernel Unit := do
  abortWaits (.waiters x)
  assertEmpty (.waiters x)
  heapFree x

/-- `__timerDestroy` -/
def timerDestroy (x : Nat) : Kernel Unit := do
  timerDeactivate x
  abortWaits (.waiters x)
  assertEmpty (.waiters x)
  heapFree x

/-- `__pipeDestroy` -/
def pipeDestroy (x : Nat) : Kernel Unit := do
  abortWaits (.writeWaiters x)
  abortWaits (.waiters x)
  assertEmpty (.writeWaiters x)
  assertEmpty (.waiters x)
  heapFree x

def objectDestroy (x : Nat) : Kernel Unit := do
  match ← getObject x with
  | .thread t => threadDestroy x t
  | .process p => processDestroy release x p
  | .event _ => eventDestroy release x
  | .subEvent _ => pure ()
  | .semaphore _ => semaphoreDestroy x
  | .timer _ => timerDestroy x
  | .pipe _ => pipeDestroy x
  | .other => heapFree x

end

/-- `--obj->refcount`. A count of zero wraps around. -/
def decrement (n : Nat) : Nat := if n = 0 then WORD - 1 else n - 1

/-- `__objectRelease`, nested in at most `fuel` others. -/
def releaseNested : Nat → Nat → Kernel Unit
  | 0, _ => throw .outOfFuel
  | fuel + 1, x => do
      let _ ← getObject x
      modify fun s => { s with refcount := Function.update s.refcount x (decrement (s.refcount x)) }
      let s ← get
      if s.refcount x = 0 then objectDestroy (releaseNested fuel) x else pure ()

/-- `__objectRelease`. Every destructor on the way is the one of another object. -/
def objectRelease (x : Nat) : Kernel Unit := fun s => releaseNested (s.fresh + 2) x s

def logUnmaps (t : Nat) (uses : List Use) : Kernel Unit :=
  modify fun s => { s with unmaps := uses.map (t, ·) ++ s.unmaps }

/-- `pagingReleasePhysMem` for the sake of the thread `t`. -/
def pagingReleasePhysMem (x t base length : Nat) : Kernel Unit := do
  let p ← getProcess x
  match p.pages with
  | none => throw .unmapped
  | some pages =>
      if (pagingTryReleasePhysMem pages base length).1 then
        assign processFunctions x fun p => { p with
          pages := some (pagingTryReleasePhysMem pages base length).2 }
        logUnmaps t (usesOf pages base length)
      else throw .unmapped

/-- `ll_remove(&t->entry_process)` -/
def unlinkThread (x t : Nat) : Kernel Unit :=
  assign processFunctions x fun p => { p with threads := p.threads.erase t }

/-- `t->entry_process.next`, none if that is the head of the list. -/
def threadNext (x t : Nat) : Kernel (Option Nat) := do
  let p ← getProcess x
  if t ∈ p.threads then pure (p.threads.dropWhile (· ≠ t)).tail.head?
  else throw .strayed

section

variable (shutdown : Nat → Nat → Kernel Unit)

/-- The special case of `__threadShutdown` that all threads are terminated. -/
def shutdownEmpty (x exitcode : Nat) : Kernel Unit := do
  let p ← getProcess x
  if p.threads = [] then shutdown x exitcode else pure ()

/-- `__threadShutdown`, where `shutdown` is the one of a process. -/
def threadShutdownWith (x exitcode : Nat) : Kernel Unit := do
  let t ← getThread x
  match t.process with
  | none => pure ()
  | some p =>
      kernelAssert (t.userThreadLocalBase ≠ 0)
      kernelAssert (t.userRing3StackBase ≠ 0)
      assign threadFunctions x fun t => { t with
        process := none, exitcode := exitcode, userThreadLocalBase := 0, userRing3StackBase := 0 }
      pagingReleasePhysMem p x t.userThreadLocalBase t.userThreadLocalLength
      pagingReleasePhysMem p x t.userRing3StackBase t.userRing3StackLength
      let _ ← llRemove x
      unlinkThread p x
      queueWakeup (.waiters x) true (.value exitcode)
      shutdownEmpty shutdown p exitcode
      objectRelease x
      objectRelease p

/-- The loop of `__processShutdown`, where `shutdown` is the one of a thread. -/
def shutdownLoop (x : Nat) : Nat → Option Nat → Kernel Unit
  | _, none => pure ()
  | 0, some _ => throw .outOfFuel
  | fuel + 1, some t => do
      let next ← threadNext x t
      let p ← getProcess x
      shutdown t p.exitcode
      shutdownLoop x fuel next

/-- `__processShutdown` -/
def processShutdownWith (x exitcode : Nat) : Kernel Unit := do
  assign processFunctions x fun p => { p with exitcode := exitcode }
  objectAddRef x
  queueWakeup (.waiters x) true (.value exitcode)
  let p ← getProcess x
  shutdownLoop shutdown x p.threads.length p.threads.head?
  releasePageTable x
  handleTableFree objectRelease x
  objectRelease x

end

/-- `__processShutdown`, nested in at most `fuel` others. -/
def processShutdownNested : Nat → Nat → Nat → Kernel Unit
  | 0, _, _ => throw .outOfFuel
  | fuel + 1, x, exitcode =>
      processShutdownWith (threadShutdownWith (processShutdownNested fuel)) x exitcode

/-- `__processShutdown`. The one of the last thread finds no threads. -/
def processShutdown (x exitcode : Nat) : Kernel Unit := processShutdownNested 2 x exitcode

/-- `__threadShutdown` -/
def threadShutdown (x exitcode : Nat) : Kernel Unit := threadShutdownWith processShutdown x exitcode

/-- `__pipeShutdown` -/
def pipeShutdown (x : Nat) (p : Pipe) (mode : Bool) : Kernel Unit := do
  assign pipeFunctions x fun _ => (PipeQueues.closePipe p mode)
  abortWaits (.writeWaiters x)
  if mode = true ∧ p.writePos ≠ p.readPos then pure () else abortWaits (.waiters x)

/-- `__objectShutdown` -/
def objectShutdown (x mode : Nat) : Kernel Unit := do
  match ← getObject x with
  | .thread _ => threadShutdown x mode
  | .process _ => processShutdown x mode
  | .event _ => abortWaits (.waiters x)
  | .semaphore _ => abortWaits (.waiters x)
  | .timer _ =>
      timerDeactivate x
      abortWaits (.waiters x)
  | .pipe p => pipeShutdown x p (mode ≠ 0)
  | _ => pure ()

def DEFAULT_STACK_LENGTH : Nat := 16

def DEFAULT_TLB_LENGTH : Nat := 1

/-- The assertion is that all pages of the area are unused. -/
def pagingTryAllocatePhysMem (x length : Nat) (use : Use) : Kernel (Option Nat) := do
  let p ← getProcess x
  let s ← get
  match p.pages with
  | none => throw .assertion
  | some pages =>
      match pagingTrySearchArea pages length with
      | none => pure none
      | some base =>
          kernelAssert (base + length ≤ USER_LIMIT)
          assign processFunctions x fun p => { p with
            pages := some (mapArea pages base length true use s.data) }
          pure (some base)

def pagingAllocatePhysMem (x length : Nat) (use : Use) : Kernel Nat := do
  match ← pagingTryAllocatePhysMem x length use with
  | none => throw .systemFailure
  | some base => pure base

/-- A new stack and a new thread local storage for the thread `t`. -/
def allocateAreas (x t : Nat) : Kernel (Thread → Thread) := do
  let stack ← pagingAllocatePhysMem x DEFAULT_STACK_LENGTH (.stack t)
  let storage ← pagingAllocatePhysMem x DEFAULT_TLB_LENGTH (.storage t)
  pure fun thread => { thread with
    eax := .value 0
    userRing3StackBase := stack
    userRing3StackLength := DEFAULT_STACK_LENGTH
    userThreadLocalBase := storage
    userThreadLocalLength := DEFAULT_TLB_LENGTH }

def newThread (x t : Nat) : Kernel Thread := do
  let areas ← allocateAreas x t
  pure (areas { process := some x
                userRing3StackBase := 0
                userRing3StackLength := 0
                userThreadLocalBase := 0
                userThreadLocalLength := 0 })

/-- What belongs to the thread `t` belongs to the thread `new` in another process. -/
def inherit (t new : Nat) (use : Use) : Use :=
  if use = .stack t then .stack new else if use = .storage t then .storage new else use

def inheritPages (t new : Nat) (pages : Pages) : Pages :=
  fun n => (pages n).map fun page => { page with use := inherit t new page.use }

/-- The copy of a thread for another process. -/
def forkedThread (x original new : Nat) : Kernel Thread := do
  let t ← getThread original
  kernelAssert (t.process ≠ none ∧ t.process ≠ some x)
  assign processFunctions x fun p => { p with pages := p.pages.map (inheritPages original new) }
  pure { t with process := some x, blocked := false, exitcode := MINUS_ONE }

def initialThread (x new : Nat) : Option Nat → Kernel Thread
  | none => newThread x new
  | some original => forkedThread x original new

def threadCreate (x : Nat) (original : Option Nat) : Kernel (Option Nat) := do
  if ← request then
    let s ← get
    let thread ← initialThread x s.fresh original
    let t ← objectInit (.thread thread)
    llAddTail .threadList t
    assign processFunctions x fun p => { p with threads := p.threads ++ [t] }
    objectAddRef t
    objectAddRef x
    pure (some t)
  else pure none

/-- `handleForkTable` and `pagingForkProcessPageTable` -/
def processFork (original : Nat) : Kernel Process := do
  let p ← getProcess original
  match p.handles with
  | none => throw .assertion
  | some handles =>
      forEach objectAddRef handles
      pure { pages := p.pages, handles := some handles }

def initialProcess : Option Nat → Kernel Process
  | none => do
      let s ← get
      pure { pages := some (systemPages s.data), handles := some [] }
  | some original => processFork original

def processCreate (original : Option Nat) : Kernel (Option Nat) := do
  if ← request then
    let process ← initialProcess original
    let x ← objectInit (.process process)
    pure (some x)
  else pure none

/-- `eventCreate`, `semaphoreCreate` or `timerCreate`. -/
def objectCreate (o : Object) : Kernel (Option Nat) := do
  if ← request then
    let x ← objectInit o
    pure (some x)
  else pure none

def pipeCreate : Kernel (Option Nat) := do
  if ← request then
    let s ← get
    objectCreate (.pipe (Pipes.pipeCreate (s.data 0)))
  else pure none

/-- `__eventAttachObj` -/
def eventAttachObj (x y mode ident : Nat) : Kernel Unit := do
  if ← request then
    let z ← objectInit (.subEvent { event := x, wait := y, waitMode := mode, identifier := ident })
    assign eventFunctions x fun e => { e with subEvents := e.subEvents ++ [z] }
    objectAddRef y
  else pure ()

/-- `__eventDetachObj` -/
def eventDetachObj (x ident : Nat) : Kernel Unit := do
  let e ← getEvent x
  forEach (fun y => do
    let s ← getSubEvent y
    if s.identifier = ident then removeSubEvent objectRelease x y else pure ()) e.subEvents

end Ibnos.Lifetimes
