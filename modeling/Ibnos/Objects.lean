import Ibnos.AddressSpaces
import Ibnos.PipeQueues
import Ibnos.Programs

/-!
The kernel objects and the threads which wait for them. The entry of an object is
in at most one list: the list of runnable threads, the list of timers or a wait
queue. The log of the waits which have returned is there for the specification.
-/

namespace Ibnos.Objects

open Ibnos.AddressSpaces
open Ibnos.Pipes
open Ibnos.Programs

/-- The heads of the lists. The queue `waiters` of a pipe is the one of its readers. -/
inductive Queue
  | threadList
  | timerList
  | waiters (x : Nat)
  | writeWaiters (x : Nat)
  deriving DecidableEq, Repr

def Queue.owner : Queue → Option Nat
  | .threadList => none
  | .timerList => none
  | .waiters x => some x
  | .writeWaiters x => some x

def MINUS_ONE : Nat := 0xFFFFFFFF

def WORD : Nat := 0x100000000

/-- A value in a register. The identifier of a subEvent is kept with the object
which the subEvent waits for. -/
inductive Result
  | value (n : Nat)
  | identifier (wait ident : Nat)
  deriving DecidableEq, Repr

structure Thread where
  process : Option Nat
  blocked : Bool := false
  exitcode : Nat := MINUS_ONE
  eax : Result := .value 0
  userRing3StackBase : Nat
  userRing3StackLength : Nat
  userThreadLocalBase : Nat
  userThreadLocalLength : Nat
  deriving DecidableEq, Repr

/-- The handles are the objects in the slots of the handle table. Both tables are
released when the process terminates. -/
structure Process where
  threads : List Nat := []
  exitcode : Nat := MINUS_ONE
  pages : Option Pages
  handles : Option (List Nat)

structure Event where
  subEvents : List Nat := []
  status : Result := .value 0
  wakeupAll : Bool
  deriving DecidableEq, Repr

structure SubEvent where
  blocked : Bool := false
  event : Nat
  wait : Nat
  waitMode : Nat
  identifier : Nat
  deriving DecidableEq, Repr

structure Timer where
  active : Bool := false
  timeout : Nat := 0
  interval : Nat := 0
  wakeupAll : Bool
  deriving DecidableEq, Repr

/-- An object with its type, as told by its `functions`. Nobody waits for the
objects of the file system and for the stdout object. -/
inductive Object
  | thread (t : Thread)
  | process (p : Process)
  | event (e : Event)
  | subEvent (s : SubEvent)
  | semaphore (value : Nat)
  | timer (t : Timer)
  | pipe (p : Pipe)
  | other

inductive Fault
  | assertion
  /-- The assertion of `pagingReleasePhysMem`. -/
  | unmapped
  | useAfterFree
  | outOfFuel
  /-- A loop goes on with an entry which has left the list. -/
  | strayed
  /-- An entry is removed which is in no list. -/
  | unlinked
  | systemFailure
  deriving DecidableEq, Repr

/-- A wait which has returned. -/
structure Return where
  thread : Nat
  object : Option Nat
  result : Result
  deriving DecidableEq, Repr

/-- `grants` tells which of the requests for heap memory or for a slot of a handle
table succeed, and `data` is what new pages hold. The pages which were unmapped at
the end of a thread are in `unmaps` with what they were mapped for. -/
structure Store where
  objects : Nat → Option Object
  refcount : Nat → Nat
  queues : Queue → List Nat
  home : Nat → Option Queue
  fresh : Nat
  timestamp : Nat
  stdin : Option Nat
  grants : Nat → Bool
  requests : Nat
  data : Nat → Nat → UInt8
  log : List Return
  unmaps : List (Nat × Use)

abbrev Kernel := Program Store Fault

def kernelAssert (c : Prop) [Decidable c] : Kernel Unit :=
  if c then pure () else throw .assertion

/-- A request for memory or for a slot. -/
def request : Kernel Bool :=
  fun s => .ok (s.grants s.requests, { s with requests := s.requests + 1 })

def getObject (x : Nat) : Kernel Object := fun s =>
  match s.objects x with
  | some o => .ok (o, s)
  | none => .error .useAfterFree

def setObject (x : Nat) (o : Object) : Kernel Unit :=
  modify fun s => { s with objects := Function.update s.objects x (some o) }

def heapFree (x : Nat) : Kernel Unit :=
  modify fun s => { s with objects := Function.update s.objects x none }

/-- The functions of an object tell its type. -/
structure Functions (α : Type) where
  whole : α → Object
  part : Object → Option α
  part_eq : ∀ {o a}, part o = some a ↔ o = whole a

def threadFunctions : Functions Thread where
  whole := .thread
  part := fun | .thread t => some t | _ => none
  part_eq := fun {o a} => by cases o <;> simp

def processFunctions : Functions Process where
  whole := .process
  part := fun | .process p => some p | _ => none
  part_eq := fun {o a} => by cases o <;> simp

def eventFunctions : Functions Event where
  whole := .event
  part := fun | .event e => some e | _ => none
  part_eq := fun {o a} => by cases o <;> simp

def subEventFunctions : Functions SubEvent where
  whole := .subEvent
  part := fun | .subEvent s => some s | _ => none
  part_eq := fun {o a} => by cases o <;> simp

def semaphoreFunctions : Functions Nat where
  whole := .semaphore
  part := fun | .semaphore value => some value | _ => none
  part_eq := fun {o a} => by cases o <;> simp

def timerFunctions : Functions Timer where
  whole := .timer
  part := fun | .timer t => some t | _ => none
  part_eq := fun {o a} => by cases o <;> simp

def pipeFunctions : Functions Pipe where
  whole := .pipe
  part := fun | .pipe p => some p | _ => none
  part_eq := fun {o a} => by cases o <;> simp

def objectContainer {α : Type} (functions : Functions α) (x : Nat) : Kernel α := do
  match functions.part (← getObject x) with
  | some a => pure a
  | none => throw .assertion

/-- Fields of an object are assigned. -/
def assign {α : Type} (functions : Functions α) (x : Nat) (f : α → α) : Kernel Unit := do
  let a ← objectContainer functions x
  setObject x (functions.whole (f a))

abbrev getThread (x : Nat) : Kernel Thread := objectContainer threadFunctions x

abbrev getProcess (x : Nat) : Kernel Process := objectContainer processFunctions x

abbrev getEvent (x : Nat) : Kernel Event := objectContainer eventFunctions x

abbrev getSubEvent (x : Nat) : Kernel SubEvent := objectContainer subEventFunctions x

abbrev getTimer (x : Nat) : Kernel Timer := objectContainer timerFunctions x

/-- `__objectInit` on memory which was allocated for it. -/
def objectInit (o : Object) : Kernel Nat := fun s =>
  .ok (s.fresh, { s with
    objects := Function.update s.objects s.fresh (some o)
    refcount := Function.update s.refcount s.fresh 1
    fresh := s.fresh + 1 })

/-- `__objectAddRef` -/
def objectAddRef (x : Nat) : Kernel Unit := do
  let _ ← getObject x
  modify fun s => { s with refcount := Function.update s.refcount x (s.refcount x + 1) }

/-- `ll_remove`. The list is told, although the code does not need to know it. -/
def llRemove (x : Nat) : Kernel Queue := fun s =>
  match s.home x with
  | none => .error .unlinked
  | some q => .ok (q, { s with
      queues := Function.update s.queues q ((s.queues q).erase x)
      home := Function.update s.home x none })

/-- The entry of `x` is put into a list of which the entries are `xs` then. -/
def llInsert (q : Queue) (x : Nat) (xs : List Nat) : Kernel Unit :=
  modify fun s => { s with
    queues := Function.update s.queues q xs
    home := Function.update s.home x (some q) }

/-- `ll_add_after` on the head of a list -/
def llAddAfter (q : Queue) (x : Nat) : Kernel Unit := do
  let s ← get
  llInsert q x (x :: s.queues q)

/-- `ll_add_tail` -/
def llAddTail (q : Queue) (x : Nat) : Kernel Unit := do
  let s ← get
  llInsert q x (s.queues q ++ [x])

/-- `obj->entry.next` of an entry of the list, none if that is the head. -/
def entryNext (q : Queue) (x : Nat) : Kernel (Option Nat) := do
  let s ← get
  if s.home x = some q then pure ((s.queues q).dropWhile (· ≠ x)).tail.head?
  else throw .strayed

def logReturn (r : Return) : Kernel Unit := modify fun s => { s with log := r :: s.log }

/-- `__threadSignal` -/
def threadSignal (x : Nat) (r : Result) : Kernel Unit := do
  let t ← getThread x
  if t.process = none ∨ t.blocked = false then pure ()
  else
    assign threadFunctions x fun t => { t with blocked := false, eax := r }
    let q ← llRemove x
    llAddTail .threadList x
    logReturn ⟨x, q.owner, r⟩

section

variable (signal : Nat → Result → Kernel Unit)

/-- The loop of `queueWakeup`. The next entry is read before the signal. -/
def wakeupLoop (q : Queue) (all : Bool) (r : Result) : Nat → Option Nat → Kernel Unit
  | _, none => pure ()
  | 0, some _ => throw .outOfFuel
  | fuel + 1, some x => do
      let next ← entryNext q x
      signal x r
      if all then wakeupLoop q all r fuel next else pure ()

def queueWakeupWith (q : Queue) (all : Bool) (r : Result) : Kernel Unit := do
  let s ← get
  wakeupLoop signal q all r (s.queues q).length (s.queues q).head?

/-- `__subEventSignal` -/
def subEventSignal (x : Nat) (r : Result) : Kernel Unit := do
  let s ← getSubEvent x
  if s.blocked = false then pure ()
  else
    assign subEventFunctions x fun s => { s with blocked := false }
    let _ ← llRemove x
    assign eventFunctions s.event fun e => { e with status := r }
    let e ← getEvent s.event
    queueWakeupWith signal (.waiters s.event) e.wakeupAll (.identifier s.wait s.identifier)

/-- `__eventSignal` -/
def eventSignal (x : Nat) (r : Result) : Kernel Unit := do
  assign eventFunctions x fun e => { e with status := .value 0 }
  let e ← getEvent x
  queueWakeupWith signal (.waiters x) e.wakeupAll r

/-- `__semaphoreSignal` -/
def semaphoreSignal (x value : Nat) : Kernel Unit := do
  let s ← get
  if s.queues (.waiters x) = [] then assign semaphoreFunctions x fun _ => ((value + 1) % WORD)
  else
    kernelAssert (value = 0)
    queueWakeupWith signal (.waiters x) false (.value 0)

end

/-- `__objectSignal`, nested in at most `fuel` others. -/
def signalNested : Nat → Nat → Result → Kernel Unit
  | 0, _, _ => throw .outOfFuel
  | fuel + 1, x, r => do
      match ← getObject x with
      | .thread _ => threadSignal x r
      | .subEvent _ => subEventSignal (signalNested fuel) x r
      | .event _ => eventSignal (signalNested fuel) x r
      | .semaphore value => semaphoreSignal (signalNested fuel) x value
      | .timer t => queueWakeupWith (signalNested fuel) (.waiters x) t.wakeupAll (.value 0)
      | _ => pure ()

/-- `__objectSignal`. Every subEvent on the way is not blocked anymore. -/
def objectSignal (x : Nat) (r : Result) : Kernel Unit := fun s => signalNested (s.fresh + 2) x r s

def queueWakeup (q : Queue) (all : Bool) (r : Result) : Kernel Unit :=
  fun s => queueWakeupWith (signalNested (s.fresh + 2)) q all r s

/-- `__timerDeactivate` -/
def timerDeactivate (x : Nat) : Kernel Unit := do
  let t ← getTimer x
  if t.active then
    let _ ← llRemove x
    assign timerFunctions x fun t => { t with active := false }
  else pure ()

/-- The position in front of the first timer which expires later. -/
def insertTimer (timeout : Nat → Nat) (x : Nat) : List Nat → List Nat
  | [] => [x]
  | y :: ys => if timeout x < timeout y then x :: y :: ys else y :: insertTimer timeout x ys

def timeoutOf (s : Store) (x : Nat) : Nat :=
  match s.objects x with
  | some (.timer t) => t.timeout
  | _ => 0

/-- `__timerActivate` -/
def timerActivate (x : Nat) : Kernel Unit := do
  let t ← getTimer x
  if t.active then pure ()
  else
    let s ← get
    llInsert .timerList x (insertTimer (timeoutOf s) x (s.queues .timerList))
    assign timerFunctions x fun t => { t with active := true }

/-- `__timerUpdate` -/
def timerUpdate (x : Nat) : Kernel Unit := do
  timerDeactivate x
  timerActivate x

/-- The number of times a periodic timer has expired. -/
def eventCount (now : Nat) (t : Timer) : Nat := ((now - t.timeout) / t.interval + 1) % WORD

/-- The product is one of 32 bit numbers. -/
def advance (t : Timer) (n : Nat) : Timer :=
  { t with timeout := (t.timeout + n * t.interval % WORD) % (WORD * WORD) }

/-- Either a queue to wait in or a result. -/
inductive Wait
  | queue (q : Queue)
  | result (r : Result)
  deriving DecidableEq, Repr

/-- `__timerWait` -/
def timerWait (x : Nat) (t : Timer) : Kernel Wait := do
  let s ← get
  if s.timestamp < t.timeout then
    timerActivate x
    pure (.queue (.waiters x))
  else if t.interval ≠ 0 then
    let n := eventCount s.timestamp t
    assign timerFunctions x fun t => advance t n
    timerUpdate x
    pure (.result (.value n))
  else
    timerDeactivate x
    pure (.result (.value (if t.active then 1 else 0)))

def ofInt (r : Int) : Nat := (r % WORD).toNat

/-- `__pipeWait` -/
def pipeWait (x : Nat) (p : Pipe) (mode : Bool) : Wait :=
  match PipeQueues.pipeWait p mode with
  | some r => .result (.value (ofInt r))
  | none => .queue (if mode then .writeWaiters x else .waiters x)

/-- The loop of `__eventWait`. -/
def eventWaitLoop (wait : Nat → Nat → Kernel Wait) (x : Nat) : List Nat → Kernel Wait
  | [] => pure (.queue (.waiters x))
  | y :: ys => do
      let s ← getSubEvent y
      if s.blocked then eventWaitLoop wait x ys
      else
        kernelAssert (s.event = x)
        assign eventFunctions x fun e => { e with status := .value 0 }
        match ← wait s.wait s.waitMode with
        | .queue q =>
            assign subEventFunctions y fun s => { s with blocked := true }
            llAddAfter q y
            eventWaitLoop wait x ys
        | .result r =>
            assign eventFunctions x fun e => { e with status := r }
            pure (.result (.identifier s.wait s.identifier))

/-- `__objectWait`, nested in at most `fuel` others. -/
def waitNested : Nat → Nat → Nat → Kernel Wait
  | 0, _, _ => throw .outOfFuel
  | fuel + 1, x, mode => do
      match ← getObject x with
      | .thread t =>
          pure (if t.process = none then .result (.value t.exitcode) else .queue (.waiters x))
      | .process p =>
          pure (if p.threads = [] then .result (.value p.exitcode) else .queue (.waiters x))
      | .semaphore value =>
          if value = 0 then pure (.queue (.waiters x))
          else
            assign semaphoreFunctions x fun _ => (value - 1)
            pure (.result (.value (value - 1)))
      | .timer t => timerWait x t
      | .pipe p => pure (pipeWait x p (mode ≠ 0))
      | .event e => eventWaitLoop (waitNested fuel) x e.subEvents
      | _ => pure (.result (.value 0))

/-- `__objectWait`. Without a circle every event is waited for in at most as many
others as there are. -/
def objectWait (x mode : Nat) : Kernel Wait := fun s => waitNested (s.fresh + 1) x mode s

/-- `__objectGetStatus`. There is no status of an object which does not exist. -/
def objectGetStatus (s : Store) (x mode : Nat) : Option Result :=
  (s.objects x).map fun
    | .thread t => .value (if t.process = none then t.exitcode else MINUS_ONE)
    | .process p => .value (if p.threads = [] then p.exitcode else MINUS_ONE)
    | .event e => e.status
    | .semaphore value => .value value
    | .timer t => .value (if t.interval ≠ 0 then MINUS_ONE else if t.active then 0 else 1)
    | .pipe p => .value (ofInt (PipeQueues.pipeGetStatus p (mode ≠ 0)))
    | _ => .value MINUS_ONE

def threadWait (t x mode : Nat) : Kernel Unit := do
  match ← objectWait x mode with
  | .queue q =>
      let thread ← getThread t
      kernelAssert (thread.blocked = false)
      assign threadFunctions t fun thread => { thread with blocked := true, eax := .value 0 }
      let _ ← llRemove t
      llAddAfter q t
  | .result r =>
      assign threadFunctions t fun thread => { thread with eax := r }
      logReturn ⟨t, some x, r⟩

end Ibnos.Objects
