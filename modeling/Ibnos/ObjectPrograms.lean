import Ibnos.Syscalls

/-!
What holds of the operations on the kernel objects and is kept by sequences of programs
holds of all functions on them. Waits and releases are not primitive: the list which a
thread is put into depends on what it waits for, and an object which has lost its last
reference is still there until it is destroyed.
-/

namespace Ibnos.ObjectPrograms

open Ibnos.AddressSpaces
open Ibnos.Lifetimes
open Ibnos.Objects
open Ibnos.Pipes
open Ibnos.Programs
open Ibnos.Syscalls

def isSubEvent : Object → Bool
  | .subEvent _ => true
  | _ => false

/-- A property of programs which all functions have if the operations on the objects do.
An assignment keeps the type of an object. -/
structure ObjectsClosed (C : (α : Type) → Kernel α → Prop) : Prop where
  pure : ∀ {α : Type} (a : α), C α (pure a)
  throw : ∀ {α : Type} (e : Objects.Fault), C α (throw e)
  bind : ∀ {α β : Type} {m : Kernel α} {f : α → Kernel β}, C α m → (∀ a, C β (f a)) → C β (m >>= f)
  get : C Store get
  request : C Bool request
  getObject : ∀ x, C Object (getObject x)
  assign : ∀ {α : Type} (functions : Functions α) x f,
    (∀ a b, isSubEvent (functions.whole a) = isSubEvent (functions.whole b)) →
      C Unit (assign functions x f)
  heapFree : ∀ x, C Unit (heapFree x)
  objectInit : ∀ o, C Nat (objectInit o)
  objectAddRef : ∀ x, C Unit (objectAddRef x)
  llRemove : ∀ x, C Queue (llRemove x)
  llInsertThread : ∀ x xs, C Unit (llInsert .threadList x xs)
  llInsertTimer : ∀ x xs, C Unit (llInsert .timerList x xs)
  setLog : ∀ f : Store → List Return, C Unit (modify fun s => { s with log := f s })
  setUnmaps : ∀ f : Store → List (Nat × Use), C Unit (modify fun s => { s with unmaps := f s })
  setTimestamp : ∀ f : Store → Nat, C Unit (modify fun s => { s with timestamp := f s })
  setStdin : ∀ x, C Unit (modify fun s => { s with stdin := x })

/-- `__objectRelease`, where `release` is the one of the objects it refers to. -/
def releaseWith (release : Nat → Kernel Unit) (x : Nat) : Kernel Unit := do
  let _ ← getObject x
  modify fun s => { s with refcount := Function.update s.refcount x (decrement (s.refcount x)) }
  let s ← get
  if s.refcount x = 0 then objectDestroy release x else pure ()

structure ReleasesClosed (C : (α : Type) → Kernel α → Prop) : Prop extends ObjectsClosed C where
  threadWait : ∀ t x mode, C Unit (threadWait t x mode)
  releaseWith : ∀ {release : Nat → Kernel Unit}, (∀ x, C Unit (release x)) →
    ∀ x, C Unit (releaseWith release x)

theorem closed_ite {C : (α : Type) → Kernel α → Prop} {α : Type} {c : Prop} {_ : Decidable c}
    {m m' : Kernel α} (hm : C _ m) (hm' : C _ m') : C _ (if c then m else m') := by
  split
  · exact hm
  · exact hm'

section

variable {C : (α : Type) → Kernel α → Prop} (h : ObjectsClosed C) {α : Type} {x : Nat}

include h

/-- A program which looks at the state before it starts. -/
theorem ObjectsClosed.ofState {m : Store → Kernel α} (hm : ∀ s, C _ (m s)) : C _ (fun s => m s s) :=
  h.bind h.get hm

theorem ObjectsClosed.kernelAssert (c : Prop) [Decidable c] : C _ (kernelAssert c) :=
  closed_ite (h.pure ()) (h.throw _)

theorem ObjectsClosed.objectContainer (functions : Functions α) (x : Nat) :
    C _ (objectContainer functions x) := by
  refine h.bind (h.getObject x) fun o => ?_
  split
  · exact h.pure _
  · exact h.throw _

theorem ObjectsClosed.llAddTailThread (x : Nat) : C _ (llAddTail .threadList x) :=
  h.bind h.get fun _ => h.llInsertThread x _

theorem ObjectsClosed.entryNext (q : Queue) (x : Nat) : C _ (entryNext q x) :=
  h.bind h.get fun _ => closed_ite (h.pure _) (h.throw _)

theorem ObjectsClosed.logReturn (r : Return) : C _ (logReturn r) := h.setLog _

theorem ObjectsClosed.threadSignal (x : Nat) (r : Result) : C _ (threadSignal x r) := by
  refine h.bind (h.objectContainer threadFunctions x) fun t => closed_ite (h.pure ()) ?_
  refine h.bind (h.assign _ _ _ fun _ _ => rfl) fun _ => h.bind (h.llRemove x) fun q => ?_
  exact h.bind (h.llAddTailThread x) fun _ => h.logReturn _

theorem ObjectsClosed.wakeupLoop {signal : Nat → Result → Kernel Unit}
    (hsignal : ∀ x r, C _ (signal x r))
    (q : Queue) (all : Bool) (r : Result) (fuel : Nat) (next : Option Nat) :
    C _ (wakeupLoop signal q all r fuel next) := by
  induction fuel generalizing next with
  | zero =>
      rcases next with _ | x
      · exact h.pure ()
      · exact h.throw _
  | succ fuel ih =>
      rcases next with _ | x
      · exact h.pure ()
      · refine h.bind (h.entryNext q x) fun next => h.bind (hsignal x r) fun _ => ?_
        exact closed_ite (ih next) (h.pure ())

theorem ObjectsClosed.queueWakeupWith {signal : Nat → Result → Kernel Unit}
    (hsignal : ∀ x r, C _ (signal x r)) (q : Queue) (all : Bool) (r : Result) :
    C _ (queueWakeupWith signal q all r) :=
  h.bind h.get fun _ => h.wakeupLoop hsignal q all r _ _

theorem ObjectsClosed.subEventSignal {signal : Nat → Result → Kernel Unit}
    (hsignal : ∀ x r, C _ (signal x r)) (x : Nat) (r : Result) :
      C _ (subEventSignal signal x r) := by
  refine h.bind (h.objectContainer subEventFunctions x) fun s => closed_ite (h.pure ()) ?_
  refine h.bind (h.assign _ _ _ fun _ _ => rfl) fun _ => h.bind (h.llRemove x) fun _ => ?_
  refine h.bind (h.assign _ _ _ fun _ _ => rfl) fun _ => h.bind (h.objectContainer eventFunctions _)
    fun e => ?_
  exact h.queueWakeupWith hsignal _ _ _

theorem ObjectsClosed.eventSignal {signal : Nat → Result → Kernel Unit}
    (hsignal : ∀ x r, C _ (signal x r)) (x : Nat) (r : Result) : C _ (eventSignal signal x r) := by
  refine h.bind (h.assign _ _ _ fun _ _ => rfl) fun _ => h.bind (h.objectContainer eventFunctions x)
    fun e => ?_
  exact h.queueWakeupWith hsignal _ _ _

theorem ObjectsClosed.semaphoreSignal {signal : Nat → Result → Kernel Unit}
    (hsignal : ∀ x r, C _ (signal x r)) (x value : Nat) : C _ (semaphoreSignal signal x value) := by
  refine h.bind h.get fun _ => closed_ite (h.assign _ _ _ fun _ _ => rfl) ?_
  exact h.bind (h.kernelAssert _) fun _ => h.queueWakeupWith hsignal _ _ _

theorem ObjectsClosed.signalNested (fuel x : Nat) (r : Result) : C _ (signalNested fuel x r) := by
  induction fuel generalizing x r with
  | zero => exact h.throw _
  | succ fuel ih =>
      refine h.bind (h.getObject x) fun o => ?_
      split
      · exact h.threadSignal x r
      · exact h.subEventSignal ih x r
      · exact h.eventSignal ih x r
      · exact h.semaphoreSignal ih x _
      · exact h.queueWakeupWith ih _ _ _
      · exact h.pure ()

theorem ObjectsClosed.objectSignal (x : Nat) (r : Result) : C _ (objectSignal x r) :=
  h.ofState (m := fun s => Objects.signalNested (s.fresh + 2) x r) fun _ => h.signalNested _ x r

theorem ObjectsClosed.queueWakeup (q : Queue) (all : Bool) (r : Result) :
    C _ (queueWakeup q all r) :=
  h.ofState (m := fun s => Objects.queueWakeupWith (Objects.signalNested (s.fresh + 2)) q all r)
    fun _ =>
    h.queueWakeupWith (h.signalNested _) q all r

theorem ObjectsClosed.timerDeactivate (x : Nat) : C _ (timerDeactivate x) := by
  refine h.bind (h.objectContainer timerFunctions x) fun t => closed_ite ?_ (h.pure ())
  exact h.bind (h.llRemove x) fun _ => h.assign _ _ _ fun _ _ => rfl

theorem ObjectsClosed.timerActivate (x : Nat) : C _ (timerActivate x) := by
  refine h.bind (h.objectContainer timerFunctions x) fun t => closed_ite (h.pure ()) ?_
  exact h.bind h.get fun s => h.bind (h.llInsertTimer x _) fun _ => h.assign _ _ _ fun _ _ => rfl

theorem ObjectsClosed.timerUpdate (x : Nat) : C _ (timerUpdate x) :=
  h.bind (h.timerDeactivate x) fun _ => h.timerActivate x

theorem ObjectsClosed.timerWait (x : Nat) (t : Timer) : C _ (timerWait x t) := by
  refine h.bind h.get fun s => closed_ite ?_ (closed_ite ?_ ?_)
  · exact h.bind (h.timerActivate x) fun _ => h.pure _
  · exact h.bind (h.assign _ _ _ fun _ _ => rfl) fun _ => h.bind (h.timerUpdate x) fun _ => h.pure _
  · exact h.bind (h.timerDeactivate x) fun _ => h.pure _

end

section

/-! Waits, where it does not matter which list a thread is in. -/

variable {C : (α : Type) → Kernel α → Prop} (h : ObjectsClosed C)
  (hinsert : ∀ q x xs, C _ (llInsert q x xs))

include h hinsert

theorem ObjectsClosed.eventWaitLoop {wait : Nat → Nat → Kernel Wait}
    (hwait : ∀ x mode, C _ (wait x mode))
    (x : Nat) (ys : List Nat) : C _ (eventWaitLoop wait x ys) := by
  induction ys with
  | nil => exact h.pure _
  | cons y ys ih =>
      refine h.bind (h.objectContainer subEventFunctions y) fun s => closed_ite ih ?_
      refine h.bind (h.kernelAssert _) fun _ => h.bind (h.assign _ _ _ fun _ _ => rfl) fun _ => ?_
      refine h.bind (hwait _ _) fun r => ?_
      rcases r with q | r
      · refine h.bind (h.assign _ _ _ fun _ _ => rfl) fun _ => h.bind ?_ fun _ => ih
        exact h.bind h.get fun _ => hinsert _ _ _
      · exact h.bind (h.assign _ _ _ fun _ _ => rfl) fun _ => h.pure _

theorem ObjectsClosed.waitNested (fuel x mode : Nat) : C _ (waitNested fuel x mode) := by
  induction fuel generalizing x mode with
  | zero => exact h.throw _
  | succ fuel ih =>
      refine h.bind (h.getObject x) fun o => ?_
      split
      · exact h.pure _
      · exact h.pure _
      · exact closed_ite (h.pure _) (h.bind (h.assign _ _ _ fun _ _ => rfl) fun _ => h.pure _)
      · exact h.timerWait x _
      · exact h.pure _
      · exact h.eventWaitLoop hinsert ih x _
      · exact h.pure _

theorem ObjectsClosed.threadWait (t x mode : Nat) : C _ (threadWait t x mode) := by
  have hwait : C _ (objectWait x mode) :=
    h.ofState (m := fun s => Objects.waitNested (s.fresh + 1) x mode) fun _ =>
      h.waitNested hinsert _ x mode
  refine h.bind hwait fun r => ?_
  rcases r with q | r
  · refine h.bind (h.objectContainer threadFunctions t) fun thread =>
      h.bind (h.kernelAssert _) fun _ => ?_
    refine h.bind (h.assign _ _ _ fun _ _ => rfl) fun _ => h.bind (h.llRemove t) fun _ => ?_
    exact h.bind h.get fun _ => hinsert _ _ _
  · exact h.bind (h.assign _ _ _ fun _ _ => rfl) fun _ => h.logReturn _

end

section

/-! The end of objects. -/

variable {C : (α : Type) → Kernel α → Prop} (h : ObjectsClosed C)

include h

theorem ObjectsClosed.forEach {body : Nat → Kernel Unit} (hbody : ∀ x, C _ (body x))
    (xs : List Nat) :
    C _ (forEach body xs) := by
  induction xs with
  | nil => exact h.pure ()
  | cons x xs ih => exact h.bind (hbody x) fun _ => ih

theorem ObjectsClosed.abortWaits (q : Queue) : C _ (abortWaits q) := h.queueWakeup q _ _

theorem ObjectsClosed.assertEmpty (q : Queue) : C _ (assertEmpty q) :=
  h.bind h.get fun _ => h.kernelAssert _

theorem ObjectsClosed.releasePageTable (x : Nat) :
    C _ (releasePageTable x) := h.assign _ _ _ fun _ _ => rfl

theorem ObjectsClosed.handleTableFree {release : Nat → Kernel Unit}
    (hrelease : ∀ x, C _ (release x))
    (x : Nat) : C _ (handleTableFree release x) := by
  refine h.bind (h.objectContainer processFunctions x) fun p => ?_
  split
  · exact h.pure ()
  · exact h.bind (h.forEach hrelease _) fun _ => h.assign _ _ _ fun _ _ => rfl

theorem ObjectsClosed.threadDestroy (x : Nat) (t : Thread) : C _ (threadDestroy x t) :=
  h.bind (h.assertEmpty _) fun _ => h.bind (h.kernelAssert _) fun _ => h.heapFree x

theorem ObjectsClosed.processDestroy {release : Nat → Kernel Unit} (hrelease : ∀ x, C _ (release x))
    (x : Nat) (p : Process) : C _ (processDestroy release x p) := by
  refine h.bind (h.assertEmpty _) fun _ => h.bind (h.kernelAssert _) fun _ => ?_
  refine h.bind (h.releasePageTable x) fun _ => h.bind (h.handleTableFree hrelease x) fun _ => ?_
  exact h.heapFree x

theorem ObjectsClosed.unlinkSubEvent (y : Nat) (s : SubEvent) : C _ (unlinkSubEvent y s) :=
  closed_ite (h.bind (h.llRemove y) fun _ => h.pure ()) (h.pure ())

theorem ObjectsClosed.removeSubEvent {release : Nat → Kernel Unit} (hrelease : ∀ x, C _ (release x))
    (x y : Nat) : C _ (removeSubEvent release x y) := by
  refine h.bind (h.objectContainer subEventFunctions y) fun s => h.bind (h.unlinkSubEvent y s)
    fun _ => ?_
  exact h.bind (h.assign _ _ _ fun _ _ => rfl) fun _ => h.bind (hrelease _) fun _ => h.heapFree y

theorem ObjectsClosed.eventDestroy {release : Nat → Kernel Unit} (hrelease : ∀ x, C _ (release x))
    (x : Nat) : C _ (eventDestroy release x) := by
  refine h.bind (h.abortWaits _) fun _ => h.bind (h.assertEmpty _) fun _ => ?_
  refine h.bind (h.objectContainer eventFunctions x) fun e => ?_
  exact h.bind (h.forEach (h.removeSubEvent hrelease x) _) fun _ => h.heapFree x

theorem ObjectsClosed.semaphoreDestroy (x : Nat) : C _ (semaphoreDestroy x) :=
  h.bind (h.abortWaits _) fun _ => h.bind (h.assertEmpty _) fun _ => h.heapFree x

theorem ObjectsClosed.timerDestroy (x : Nat) : C _ (timerDestroy x) := by
  refine h.bind (h.timerDeactivate x) fun _ => h.bind (h.abortWaits _) fun _ => ?_
  exact h.bind (h.assertEmpty _) fun _ => h.heapFree x

theorem ObjectsClosed.pipeDestroy (x : Nat) : C _ (pipeDestroy x) := by
  refine h.bind (h.abortWaits _) fun _ => h.bind (h.abortWaits _) fun _ => ?_
  exact h.bind (h.assertEmpty _) fun _ => h.bind (h.assertEmpty _) fun _ => h.heapFree x

theorem ObjectsClosed.objectDestroy {release : Nat → Kernel Unit} (hrelease : ∀ x, C _ (release x))
    (x : Nat) : C _ (objectDestroy release x) := by
  refine h.bind (h.getObject x) fun o => ?_
  split
  · exact h.threadDestroy x _
  · exact h.processDestroy hrelease x _
  · exact h.eventDestroy hrelease x
  · exact h.pure ()
  · exact h.semaphoreDestroy x
  · exact h.timerDestroy x
  · exact h.pipeDestroy x
  · exact h.heapFree x

end

section

variable {C : (α : Type) → Kernel α → Prop} (h : ReleasesClosed C)

include h

theorem ReleasesClosed.releaseNested (fuel x : Nat) : C _ (releaseNested fuel x) := by
  induction fuel generalizing x with
  | zero => exact h.throw _
  | succ fuel ih => exact h.releaseWith ih x

theorem ReleasesClosed.objectRelease (x : Nat) : C _ (objectRelease x) :=
  h.toObjectsClosed.ofState (m := fun s => Lifetimes.releaseNested (s.fresh + 2) x) fun _ =>
    h.releaseNested _ x

theorem ReleasesClosed.pagingReleasePhysMem (x t base length : Nat) :
    C _ (pagingReleasePhysMem x t base length) := by
  refine h.bind (h.objectContainer processFunctions x) fun p => ?_
  split
  · exact h.throw _
  · exact closed_ite (h.bind (h.assign _ _ _ fun _ _ => rfl) fun _ => h.setUnmaps _) (h.throw _)

theorem ReleasesClosed.threadNext (x t : Nat) : C _ (threadNext x t) :=
  h.bind (h.objectContainer processFunctions x) fun _ => closed_ite (h.pure _) (h.throw _)

theorem ReleasesClosed.threadShutdownWith {shutdown : Nat → Nat → Kernel Unit}
    (hshutdown : ∀ x exitcode, C _ (shutdown x exitcode)) (x exitcode : Nat) :
    C _ (threadShutdownWith shutdown x exitcode) := by
  refine h.bind (h.objectContainer threadFunctions x) fun t => ?_
  split
  · exact h.pure ()
  · refine h.bind (h.kernelAssert _) fun _ => h.bind (h.kernelAssert _) fun _ => ?_
    refine h.bind (h.assign _ _ _ fun _ _ => rfl) fun _ => h.bind (h.pagingReleasePhysMem _ _ _ _)
      fun _ => ?_
    refine h.bind (h.pagingReleasePhysMem _ _ _ _) fun _ => h.bind (h.llRemove x) fun _ => ?_
    refine h.bind (h.assign _ _ _ fun _ _ => rfl) fun _ => h.bind (h.queueWakeup _ _ _) fun _ => ?_
    refine h.bind ?_ fun _ => h.bind (h.objectRelease x) fun _ => h.objectRelease _
    exact h.bind (h.objectContainer processFunctions _) fun _ => closed_ite (hshutdown _ _)
      (h.pure ())

theorem ReleasesClosed.shutdownLoop {shutdown : Nat → Nat → Kernel Unit}
    (hshutdown : ∀ x exitcode, C _ (shutdown x exitcode)) (x fuel : Nat) (next : Option Nat) :
    C _ (shutdownLoop shutdown x fuel next) := by
  induction fuel generalizing next with
  | zero =>
      rcases next with _ | t
      · exact h.pure ()
      · exact h.throw _
  | succ fuel ih =>
      rcases next with _ | t
      · exact h.pure ()
      · refine h.bind (h.threadNext x t) fun next => ?_
        refine h.bind (h.objectContainer processFunctions x) fun p => ?_
        exact h.bind (hshutdown _ _) fun _ => ih next

theorem ReleasesClosed.processShutdownWith {shutdown : Nat → Nat → Kernel Unit}
    (hshutdown : ∀ x exitcode, C _ (shutdown x exitcode)) (x exitcode : Nat) :
    C _ (processShutdownWith shutdown x exitcode) := by
  refine h.bind (h.assign _ _ _ fun _ _ => rfl) fun _ => h.bind (h.objectAddRef x) fun _ => ?_
  refine h.bind (h.queueWakeup _ _ _) fun _ => h.bind (h.objectContainer processFunctions x)
    fun p => ?_
  refine h.bind (h.shutdownLoop hshutdown x _ _) fun _ => h.bind (h.releasePageTable x) fun _ => ?_
  exact h.bind (h.handleTableFree h.objectRelease x) fun _ => h.objectRelease x

theorem ReleasesClosed.processShutdownNested (fuel x exitcode : Nat) :
    C _ (processShutdownNested fuel x exitcode) := by
  induction fuel generalizing x exitcode with
  | zero => exact h.throw _
  | succ fuel ih => exact h.processShutdownWith (h.threadShutdownWith ih) x exitcode

theorem ReleasesClosed.processShutdown (x exitcode : Nat) : C _ (processShutdown x exitcode) :=
  h.processShutdownNested 2 x exitcode

theorem ReleasesClosed.threadShutdown (x exitcode : Nat) : C _ (threadShutdown x exitcode) :=
  h.threadShutdownWith h.processShutdown x exitcode

theorem ReleasesClosed.pipeShutdown (x : Nat) (p : Pipe) (mode : Bool) :
    C _ (pipeShutdown x p mode) := by
  refine h.bind (h.assign _ _ _ fun _ _ => rfl) fun _ => h.bind (h.abortWaits _) fun _ => ?_
  exact closed_ite (h.pure ()) (h.abortWaits _)

theorem ReleasesClosed.objectShutdown (x mode : Nat) : C _ (objectShutdown x mode) := by
  refine h.bind (h.getObject x) fun o => ?_
  split
  · exact h.threadShutdown x mode
  · exact h.processShutdown x mode
  · exact h.abortWaits _
  · exact h.abortWaits _
  · exact h.bind (h.timerDeactivate x) fun _ => h.abortWaits _
  · exact h.pipeShutdown x _ _
  · exact h.pure ()

end

section

/-! The beginning of objects. -/

variable {C : (α : Type) → Kernel α → Prop} (h : ReleasesClosed C)

include h

theorem ReleasesClosed.pagingTryAllocatePhysMem (x length : Nat) (use : Use) :
    C _ (Lifetimes.pagingTryAllocatePhysMem x length use) := by
  refine h.bind (h.objectContainer processFunctions x) fun p => h.bind h.get fun s => ?_
  split
  · exact h.throw _
  · split
    · exact h.pure _
    · exact h.bind (h.kernelAssert _) fun _ => h.bind (h.assign _ _ _ fun _ _ => rfl) fun _ =>
        h.pure _

theorem ReleasesClosed.pagingAllocatePhysMem (x length : Nat) (use : Use) :
    C _ (pagingAllocatePhysMem x length use) := by
  refine h.bind (h.pagingTryAllocatePhysMem x length use) fun r => ?_
  split
  · exact h.throw _
  · exact h.pure _

theorem ReleasesClosed.allocateAreas (x t : Nat) : C _ (allocateAreas x t) :=
  h.bind (h.pagingAllocatePhysMem x _ _) fun _ => h.bind (h.pagingAllocatePhysMem x _ _) fun _ =>
    h.pure _

theorem ReleasesClosed.initialThread (x new : Nat) (original : Option Nat) :
    C _ (initialThread x new original) := by
  rcases original with _ | t
  · exact h.bind (h.allocateAreas x new) fun _ => h.pure _
  · refine h.bind (h.objectContainer threadFunctions t) fun _ => h.bind (h.kernelAssert _) fun _ =>
      ?_
    exact h.bind (h.assign _ _ _ fun _ _ => rfl) fun _ => h.pure _

theorem ReleasesClosed.threadCreate (x : Nat) (original : Option Nat) :
    C _ (threadCreate x original) := by
  refine h.bind h.request fun _ => closed_ite ?_ (h.pure _)
  refine h.bind h.get fun s => h.bind (h.initialThread x _ original) fun thread => ?_
  refine h.bind (h.objectInit _) fun t => h.bind (h.llAddTailThread t) fun _ => ?_
  refine h.bind (h.assign _ _ _ fun _ _ => rfl) fun _ => h.bind (h.objectAddRef t) fun _ => ?_
  exact h.bind (h.objectAddRef x) fun _ => h.pure _

theorem ReleasesClosed.initialProcess (original : Option Nat) : C _ (initialProcess original) := by
  rcases original with _ | p
  · exact h.bind h.get fun _ => h.pure _
  · refine h.bind (h.objectContainer processFunctions p) fun process => ?_
    split
    · exact h.throw _
    · exact h.bind (h.forEach h.objectAddRef _) fun _ => h.pure _

theorem ReleasesClosed.processCreate (original : Option Nat) : C _ (processCreate original) := by
  refine h.bind h.request fun _ => closed_ite ?_ (h.pure _)
  exact h.bind (h.initialProcess original) fun _ => h.bind (h.objectInit _) fun _ => h.pure _

theorem ReleasesClosed.objectCreate (o : Object) : C _ (objectCreate o) :=
  h.bind h.request fun _ => closed_ite (h.bind (h.objectInit o) fun _ => h.pure _) (h.pure _)

theorem ReleasesClosed.pipeCreate : C _ Lifetimes.pipeCreate :=
  h.bind h.request fun _ => closed_ite (h.bind h.get fun _ => h.objectCreate _) (h.pure _)

theorem ReleasesClosed.eventAttachObj (x y mode ident : Nat) :
    C _ (eventAttachObj x y mode ident) := by
  refine h.bind h.request fun _ => closed_ite ?_ (h.pure ())
  exact h.bind (h.objectInit _) fun _ => h.bind (h.assign _ _ _ fun _ _ => rfl) fun _ =>
    h.objectAddRef y

theorem ReleasesClosed.eventDetachObj (x ident : Nat) : C _ (eventDetachObj x ident) := by
  refine h.bind (h.objectContainer eventFunctions x) fun e => h.forEach (fun y => ?_) _
  refine h.bind (h.objectContainer subEventFunctions y) fun s => ?_
  exact closed_ite (h.removeSubEvent h.objectRelease x y) (h.pure ())

end

section

/-! System calls and interrupts. -/

variable {C : (α : Type) → Kernel α → Prop} (h : ReleasesClosed C) {α : Type}

include h

theorem ReleasesClosed.getHandles (p : Nat) : C _ (getHandles p) := by
  refine h.bind (h.objectContainer processFunctions p) fun process => ?_
  split
  · exact h.throw _
  · exact h.pure _

theorem ReleasesClosed.handleAllocate (p x : Nat) : C _ (handleAllocate p x) := by
  refine h.bind h.request fun _ => closed_ite ?_ (h.pure ())
  exact h.bind (h.getHandles p) fun _ => h.bind (h.objectAddRef x) fun _ =>
    h.assign _ _ _ fun _ _ => rfl

theorem ReleasesClosed.handleRelease (p x : Nat) : C _ (handleRelease p x) :=
  h.bind (h.getHandles p) fun _ => h.bind (h.assign _ _ _ fun _ _ => rfl) fun _ => h.objectRelease x

theorem ReleasesClosed.handleSet (p x : Nat) (old : Option Nat) : C _ (handleSet p x old) := by
  refine h.bind (h.getHandles p) fun handles => h.bind (h.objectAddRef x) fun _ => ?_
  rcases old with _ | y
  · exact h.assign _ _ _ fun _ _ => rfl
  · exact h.bind (h.assign _ _ _ fun _ _ => rfl) fun _ => h.objectRelease y

theorem ReleasesClosed.returnHandle (p : Nat) {create : Kernel (Option Nat)}
    (hcreate : C _ create) :
    C _ (returnHandle p create) := by
  refine h.bind hcreate fun r => ?_
  split
  · exact h.pure ()
  · exact h.bind (h.handleAllocate p _) fun _ => h.objectRelease _

theorem ReleasesClosed.fork (t p : Nat) : C _ (fork t p) := by
  refine h.bind (h.processCreate (some p)) fun r => ?_
  split
  · exact h.pure ()
  · refine h.bind (h.bind (h.threadCreate _ (some t)) fun r => ?_) fun _ => h.objectRelease _
    split
    · exact h.pure ()
    · exact h.bind (h.handleAllocate p _) fun _ => h.objectRelease _

theorem ReleasesClosed.otherThreadsLoop (t p fuel : Nat) (next : Option Nat) :
    C _ (otherThreadsLoop t p fuel next) := by
  induction fuel generalizing next with
  | zero =>
      rcases next with _ | x
      · exact h.pure ()
      · exact h.throw _
  | succ fuel ih =>
      rcases next with _ | x
      · exact h.pure ()
      · refine h.bind (h.threadNext p x) fun next => h.bind ?_ fun _ => ih next
        exact closed_ite (h.pure ()) (h.threadShutdown x _)

theorem ReleasesClosed.executeProgram (t p : Nat) (load : Pages → Option Pages) :
    C _ (executeProgram t p load) := by
  refine h.bind h.get fun s => ?_
  split
  · exact h.pure ()
  · refine h.bind (h.assign _ _ _ fun _ _ => rfl) fun _ =>
      h.bind (h.objectContainer processFunctions p) fun process => ?_
    refine h.bind (h.otherThreadsLoop t p _ _) fun _ => ?_
    exact h.bind (h.allocateAreas p t) fun _ => h.assign _ _ _ fun _ _ => rfl

theorem ReleasesClosed.releaseMemory (p addr length : Nat) : C _ (releaseMemory p addr length) := by
  refine h.bind (h.objectContainer processFunctions p) fun process => ?_
  split
  · exact h.throw _
  · exact h.assign _ _ _ fun _ _ => rfl

theorem ReleasesClosed.liftPipe (r : Except Pipes.Fault α) : C _ (liftPipe r) := by
  rcases r with e | a
  · exact h.throw _
  · exact h.pure a

theorem ReleasesClosed.objectWrite (x : Nat) (buf : List UInt8) : C _ (objectWrite x buf) := by
  refine h.bind (h.getObject x) fun o => ?_
  split
  · refine h.bind h.get fun s => h.bind (h.liftPipe _) fun r =>
      h.bind (h.assign _ _ _ fun _ _ => rfl) fun _ => ?_
    split
    · exact h.pure ()
    · exact h.queueWakeup _ _ _
  · exact h.pure ()

theorem ReleasesClosed.timerWrite (x timeout interval : Nat) :
    C _ (timerWrite x timeout interval) := by
  refine h.bind (h.getObject x) fun o => ?_
  split
  · exact h.bind h.get fun _ => h.bind (h.assign _ _ _ fun _ _ => rfl) fun _ => h.timerUpdate x
  · exact h.pure ()

theorem ReleasesClosed.objectRead (x length : Nat) : C _ (objectRead x length) := by
  refine h.bind (h.getObject x) fun o => ?_
  split
  · refine h.bind (h.liftPipe _) fun r => h.bind (h.assign _ _ _ fun _ _ => rfl) fun _ => ?_
    split
    · exact h.pure ()
    · exact h.queueWakeup _ _ _
  · exact h.pure ()

theorem ReleasesClosed.objectAttachObj (x y mode ident : Nat) :
    C _ (objectAttachObj x y mode ident) := by
  refine h.bind (h.getObject x) fun o => ?_
  split
  · exact h.eventAttachObj x y mode ident
  · exact h.pure ()

theorem ReleasesClosed.objectDetachObj (x ident : Nat) : C _ (objectDetachObj x ident) := by
  refine h.bind (h.getObject x) fun o => ?_
  split
  · exact h.eventDetachObj x ident
  · exact h.pure ()

theorem ReleasesClosed.perform (t p : Nat) (handles : List Nat) (call : Call) :
    C _ (perform t p handles call) := by
  cases call with
  | exitProcess exitcode => exact h.processShutdown p exitcode
  | exitThread exitcode => exact h.threadShutdown t exitcode
  | getCurrentProcess => exact h.handleAllocate p p
  | getCurrentThread => exact h.handleAllocate p t
  | executeProgram load => exact h.executeProgram t p load
  | allocateMemory length => exact h.bind (h.pagingTryAllocatePhysMem p _ _) fun _ => h.pure ()
  | releaseMemory addr length => exact h.releaseMemory p addr _
  | fork => exact h.fork t p
  | createThread => exact h.returnHandle p (h.threadCreate p none)
  | createEvent wakeupAll => exact h.returnHandle p (h.objectCreate _)
  | createSemaphore value => exact h.returnHandle p (h.objectCreate _)
  | createPipe => exact h.returnHandle p h.pipeCreate
  | createTimer wakeupAll => exact h.returnHandle p (h.objectCreate _)
  | openOther => exact h.returnHandle p (h.objectCreate _)
  | dup x => exact closed_ite (h.handleAllocate p x) (h.pure ())
  | dup2 x old => exact closed_ite (h.handleSet p x old) (h.pure ())
  | close x => exact closed_ite (h.handleRelease p x) (h.pure ())
  | shutdown x mode => exact closed_ite (h.objectShutdown x mode) (h.pure ())
  | wait x mode => exact closed_ite (h.threadWait t x mode) (h.pure ())
  | signal x result => exact closed_ite (h.objectSignal x _) (h.pure ())
  | write x buf => exact closed_ite (h.objectWrite x buf) (h.pure ())
  | writeTimer x timeout interval => exact closed_ite (h.timerWrite x timeout interval) (h.pure ())
  | read x length => exact closed_ite (h.objectRead x length) (h.pure ())
  | attach x y mode ident => exact closed_ite (h.objectAttachObj x y mode ident) (h.pure ())
  | detach x ident => exact closed_ite (h.objectDetachObj x ident) (h.pure ())

theorem ReleasesClosed.expire (x : Nat) (t : Timer) (now : Nat) : C _ (expire x t now) := by
  refine closed_ite ?_ ?_
  · exact h.bind (h.assign _ _ _ fun _ _ => rfl) fun _ => h.bind (h.timerUpdate x) fun _ =>
      h.queueWakeup _ _ _
  · exact h.bind (h.timerDeactivate x) fun _ => h.queueWakeup _ _ _

theorem ReleasesClosed.timerLoop (fuel : Nat) : C _ (timerLoop fuel) := by
  induction fuel with
  | zero => exact h.throw _
  | succ fuel ih =>
      refine h.bind h.get fun s => ?_
      split
      · exact h.pure ()
      · refine h.bind (h.objectContainer timerFunctions _) fun t => closed_ite (h.pure ()) ?_
        exact h.bind (h.expire _ t _) fun _ => ih

theorem ReleasesClosed.timerIrq : C _ timerIrq :=
  h.bind (h.setTimestamp _) fun _ => h.bind h.get fun _ => h.timerLoop _

theorem ReleasesClosed.handle (i : Input) : C _ (handle i) := by
  cases i with
  | call t c =>
      refine h.bind h.get fun s => ?_
      split
      · exact h.pure ()
      · exact h.bind (h.getHandles _) fun handles => h.perform t _ handles c
  | timer => exact h.timerIrq
  | keyboard buf =>
      refine h.bind h.get fun s => ?_
      split
      · exact h.pure ()
      · exact h.objectWrite _ buf

theorem ReleasesClosed.demand {create : Kernel (Option Nat)} (hcreate : C _ create) :
    C _ (demand create) := by
  refine h.bind hcreate fun r => ?_
  split
  · exact h.throw _
  · exact h.pure _

theorem ReleasesClosed.loadELFModule (load : Pages → Option Pages) : C _ (loadELFModule load) := by
  refine h.bind (h.demand (h.processCreate none)) fun p => h.bind ?_ fun _ => ?_
  · refine h.bind (h.objectContainer processFunctions p) fun process => ?_
    split
    · exact h.throw _
    · exact h.assign _ _ _ fun _ _ => rfl
  · refine h.bind (h.demand (h.threadCreate p none)) fun t => h.bind (h.objectRelease t) fun _ => ?_
    exact h.bind (h.objectRelease p) fun _ => h.pure p

theorem ReleasesClosed.kernelMain (load : Pages → Option Pages) : C _ (kernelMain load) := by
  refine h.bind (h.demand (h.objectCreate _)) fun stdout => h.bind (h.demand h.pipeCreate)
    fun stdin => ?_
  refine h.bind (h.setStdin _) fun _ => h.bind (h.loadELFModule load) fun p => ?_
  refine h.bind (h.handleSet p _ none) fun _ => h.bind (h.handleSet p _ none) fun _ => ?_
  exact h.handleSet p _ none

end

section

/-! What every function keeps holds in every state which is reached. -/

variable {R : Store → Store → Prop} {I : Store → Prop} {s s' : Store}

theorem reaches_of_closed (h : ReleasesClosed fun _ m => Keeps R m)
    (hR : ∀ s s', R s s' → I s → I s')
    {is : List Input} (hs : I s) (hreaches : Reaches s is s') : I s' := by
  obtain ⟨os, hrun⟩ := hreaches
  refine Runs.run_invariant (fun s i s' o hs _ hstep => ?_) hs
    (Runs.along_true Syscalls.step s is) hrun
  obtain ⟨⟨u, s₁⟩, hhandle, hpure⟩ := Runs.bind_eq_ok.mp hstep
  cases hpure
  exact hR _ _ (h.handle i s _ _ hhandle) hs

theorem booted_of_closed (h : ReleasesClosed fun _ m => Keeps R m)
    (hR : ∀ s s', R s s' → I s → I s')
    (hempty : ∀ grants data, I (emptyStore grants data)) (hs : Booted s) : I s := by
  obtain ⟨grants, data, load, u, hboot⟩ := hs
  obtain ⟨⟨_, s₁⟩, hmain, hpure⟩ := Runs.bind_eq_ok.mp hboot
  cases hpure
  exact hR _ _ (h.kernelMain load _ _ _ hmain) (hempty grants data)

end

end Ibnos.ObjectPrograms
