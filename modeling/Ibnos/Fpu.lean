import Ibnos.Runs
import Mathlib.Data.Fintype.Basic

/-!
Lazy switching of the FPU context between threads: `interrupt_0x07`,
`interrupt_0x10` and the code which creates, forks, replaces and terminates
threads, as far as it touches the FPU.
-/

namespace Ibnos.Fpu

open Ibnos.Runs

abbrev ThreadId := Nat

abbrev ProcessId := Nat

/-- `struct fpuContext` without its reserved words. -/
structure FpuContext where
  controlWord : BitVec 16
  statusWord : BitVec 16
  tagWord : BitVec 16
  codePointer : BitVec 32
  codeSegment : BitVec 16
  dataPointer : BitVec 32
  dataSegment : BitVec 16
  registerArea : Fin 8 → BitVec 80
  deriving DecidableEq

/-- The state after `fninit`: all exceptions masked, all registers empty. -/
def FpuContext.initial : FpuContext :=
  { controlWord := 0x037f
    statusWord := 0
    tagWord := 0xffff
    codePointer := 0
    codeSegment := 0
    dataPointer := 0
    dataSegment := 0
    registerArea := fun _ => 0 }

/-- The fields of `struct thread` used here. The process is gone after a shutdown. -/
structure Thread where
  process : Option ProcessId
  fpuInitialized : Bool
  fpu : FpuContext
  deriving DecidableEq

structure System where
  /-- the registers of the FPU -/
  registers : FpuContext
  /-- `CR0.TS` -/
  taskSwitched : Bool
  lastFPUthread : Option ThreadId
  threads : ThreadId → Option Thread
  /-- the list `threads` of each process -/
  processThreads : ProcessId → List ThreadId
  /-- the thread which executes in user mode, if it is not the kernel -/
  running : Option ThreadId

inductive Stop
  /-- the action cannot take place in this state -/
  | impossible
  | assertion
  /-- access to a thread which was already freed -/
  | dangling
  /-- an FPU instruction while `CR0.TS` is set, where nothing handles it -/
  | deviceNotAvailable
  deriving DecidableEq, Repr

def fnsave (s : System) : Except Stop (FpuContext × System) :=
  if s.taskSwitched then .error .deviceNotAvailable
  else .ok (s.registers, { s with registers := .initial })

def frstor (s : System) (fpu : FpuContext) : Except Stop System :=
  if s.taskSwitched then .error .deviceNotAvailable else .ok { s with registers := fpu }

def fninit (s : System) : Except Stop System :=
  if s.taskSwitched then .error .deviceNotAvailable else .ok { s with registers := .initial }

def clts (s : System) : System := { s with taskSwitched := false }

def getThread (s : System) (t : ThreadId) : Except Stop Thread :=
  match s.threads t with
  | none => .error .dangling
  | some thread => .ok thread

def setThread (s : System) (t : ThreadId) (thread : Thread) : System :=
  { s with threads := Function.update s.threads t (some thread) }

/-- `fnsave` into the context of `lastFPUthread`. -/
def backup (s : System) (last : ThreadId) : Except Stop System := do
  let (fpu, s) ← fnsave s
  let thread ← getThread s last
  return setThread s last { thread with fpu := fpu }

/-- The exception flags of a context which is restored: unmasked ones are dropped. -/
def FpuContext.withoutUnmasked (fpu : FpuContext) : FpuContext :=
  { fpu with statusWord := fpu.statusWord &&& (fpu.controlWord ||| 0xff80) }

/-- The part of `interrupt_0x07` which loads the context of `t`. -/
def loadContext (s : System) (t : ThreadId) : Except Stop System := do
  let thread ← getThread s t
  if thread.fpuInitialized then
    frstor (setThread s t { thread with fpu := thread.fpu.withoutUnmasked })
      thread.fpu.withoutUnmasked
  else
    let s ← fninit s
    return setThread s t { thread with fpuInitialized := true }

/-- `interrupt_0x07` -/
def interrupt0x07 (s : System) (t : ThreadId) : Except Stop System :=
  match s.lastFPUthread with
  | none => do
      let s ← loadContext (clts s) t
      return { s with lastFPUthread := some t }
  | some last =>
      if last = t then .ok s
      else do
        let s ← backup (clts s) last
        let s ← loadContext s t
        return { s with lastFPUthread := some t }

/-- The part of `__threadShutdown` which concerns the thread itself. -/
def threadShutdown (s : System) (t : ThreadId) : Except Stop System := do
  let s := if s.lastFPUthread = some t then { s with lastFPUthread := none } else s
  let thread ← getThread s t
  match thread.process with
  | none => return s
  | some p =>
      return setThread { s with
          processThreads := Function.update s.processThreads p ((s.processThreads p).erase t) }
        t { thread with process := none }

/-- `objectShutdown` for threads one after the other. -/
def shutdownAll (s : System) : List ThreadId → Except Stop System
  | [] => .ok s
  | t :: ts => do
      let s ← threadShutdown s t
      shutdownAll s ts

/-- `__threadDestroy` -/
def threadDestroy (s : System) (t : ThreadId) : Except Stop System := do
  let s := if s.lastFPUthread = some t then { s with lastFPUthread := none } else s
  let thread ← getThread s t
  if thread.process = none then
    return { s with threads := Function.update s.threads t none }
  else .error .assertion

/-- Link a new thread object into its process. The heap hands out unused memory. -/
def addThread (s : System) (t : ThreadId) (p : ProcessId) (thread : Thread) :
    Except Stop System :=
  if s.threads t = none then
    .ok (setThread { s with
      processThreads := Function.update s.processThreads p (s.processThreads p ++ [t]) } t thread)
  else .error .impossible

/-- `threadCreate(p, NULL, eip)`. The memory of the context is not initialized. -/
def threadCreate (s : System) (t : ThreadId) (p : ProcessId) (fresh : FpuContext) :
    Except Stop System :=
  addThread s t p { process := some p, fpuInitialized := false, fpu := fresh }

/-- `threadCreate(p, original, NULL)` -/
def threadFork (s : System) (original t : ThreadId) (p : ProcessId) (fresh : FpuContext) :
    Except Stop System := do
  let thread ← getThread s original
  if thread.process = none ∨ thread.process = some p then .error .assertion
  else if thread.fpuInitialized then
    let s ← if s.lastFPUthread = some original then backup (clts s) original else .ok s
    let thread ← getThread s original
    addThread s t p { process := some p, fpuInitialized := true, fpu := thread.fpu }
  else
    addThread s t p { process := some p, fpuInitialized := false, fpu := fresh }

/-- A successful `SYSCALL_EXECUTE_PROGRAM` of the thread `t`. -/
def executeProgram (s : System) (t : ThreadId) : Except Stop System := do
  let thread ← getThread s t
  match thread.process with
  | none => .error .impossible
  | some p =>
      let s ← shutdownAll s ((s.processThreads p).filter (· ≠ t))
      let thread ← getThread s t
      return setThread s t { thread with fpuInitialized := false }

/-- `objectShutdown` of the process of `t`, for `INTERRUPT_EXIT_PROCESS`. -/
def exitProcess (s : System) (t : ThreadId) : Except Stop System := do
  let thread ← getThread s t
  match thread.process with
  | none => .error .impossible
  | some p => shutdownAll s (s.processThreads p)

/-- `interrupt_0x10`, which does not handle the exception, so the process is terminated. -/
def interrupt0x10 (s : System) (t : ThreadId) : Except Stop System :=
  if s.lastFPUthread = some t then do
    let s ← backup (clts s) t
    exitProcess s t
  else .error .assertion

/-- The first half of `tssRunUsermodeThread`: the task switch sets `CR0.TS`, and
the entry through `USERMODE_INTJMP_ENABLE_FPU` clears it. -/
def enterUsermode (s : System) (t : ThreadId) : Except Stop System := do
  let thread ← getThread s t
  if thread.process = none then .error .assertion
  else return { s with taskSwitched := s.lastFPUthread ≠ some t, running := some t }

/-- The task switch back to the kernel. -/
def leaveUsermode (s : System) : System := { s with taskSwitched := true, running := none }

/-- What happens before an FPU instruction of `t` is executed: with `CR0.TS` set it
raises interrupt 7, after which the thread continues with the same instruction. -/
def trapIfSwitched (s : System) (t : ThreadId) : Except Stop System :=
  if s.taskSwitched then do
    let s ← interrupt0x07 (leaveUsermode s) t
    enterUsermode s t
  else .ok s

/-- An FPU instruction with the effect `f`. The state it was executed on is returned. -/
def fpuInstruction (s : System) (t : ThreadId) (f : FpuContext → FpuContext) :
    Except Stop (System × FpuContext) := do
  let s ← trapIfSwitched s t
  if s.taskSwitched then .error .deviceNotAvailable
  else return ({ s with registers := f s.registers }, s.registers)

inductive Action
  | create (t : ThreadId) (p : ProcessId) (fresh : FpuContext)
  | fork (original t : ThreadId) (p : ProcessId) (fresh : FpuContext)
  | execute (t : ThreadId)
  | shutdown (t : ThreadId)
  | exitProcess (t : ThreadId)
  | destroy (t : ThreadId)
  | enter (t : ThreadId)
  | leave
  | instruction (t : ThreadId) (f : FpuContext → FpuContext)
  | mathFault (t : ThreadId)

/-- The thread of an executed FPU instruction, with the state it was executed on. -/
abbrev Observation := Option (ThreadId × FpuContext)

/-- An action of the kernel, which does not happen while a thread executes. -/
def inKernel (s : System) (action : System → Except Stop System) :
    Except Stop (System × Observation) :=
  if s.running = none then do
    let s ← action s
    return (s, none)
  else .error .impossible

def step (s : System) : Action → Except Stop (System × Observation)
  | .create t p fresh => inKernel s (threadCreate · t p fresh)
  | .fork original t p fresh => inKernel s (threadFork · original t p fresh)
  | .execute t => inKernel s (executeProgram · t)
  | .shutdown t => inKernel s (threadShutdown · t)
  | .exitProcess t => inKernel s (exitProcess · t)
  | .destroy t => inKernel s (threadDestroy · t)
  | .enter t => inKernel s (enterUsermode · t)
  | .leave => if s.running = none then .error .impossible else .ok (leaveUsermode s, none)
  | .instruction t f =>
      if s.running = some t then do
        let (s, fpu) ← fpuInstruction s t f
        return (s, some (t, fpu))
      else .error .impossible
  | .mathFault t =>
      if s.running = some t ∧ s.taskSwitched = false then do
        let s ← interrupt0x10 (leaveUsermode s) t
        return (s, none)
      else .error .impossible

/-- No thread exists yet. -/
def System.boot (registers : FpuContext) : System :=
  { registers := registers
    taskSwitched := true
    lastFPUthread := none
    threads := fun _ => none
    processThreads := fun _ => []
    running := none }

/-- Threads which have an FPU of their own each. -/
def ownStep (own : ThreadId → FpuContext) : Action → (ThreadId → FpuContext) × Observation
  | .create t _ _ => (Function.update own t .initial, none)
  | .fork original t _ _ => (Function.update own t (own original), none)
  | .execute t => (Function.update own t .initial, none)
  | .instruction t f => (Function.update own t (f (own t)), some (t, own t))
  | .shutdown _ | .exitProcess _ | .destroy _ | .enter _ | .leave | .mathFault _ => (own, none)

/-- The actions which keep the contexts of all threads apart: no fork and no
execute while the FPU belongs to the thread (a fork is harmless as long as the
FPU is in its initial state), and no restore of unmasked exception flags. -/
def Separates (s : System) : Action → Prop
  | .fork original _ _ _ => s.lastFPUthread = some original → s.registers = .initial
  | .execute t => s.lastFPUthread ≠ some t
  | .instruction t _ =>
      ∀ thread, s.threads t = some thread → s.lastFPUthread ≠ some t →
        thread.fpuInitialized = true → thread.fpu.withoutUnmasked = thread.fpu
  | .create _ _ _ | .shutdown _ | .exitProcess _ | .destroy _ | .enter _ | .leave
  | .mathFault _ => True

def Alive (s : System) (t : ThreadId) : Prop :=
  ∃ thread, s.threads t = some thread ∧ thread.process ≠ none

/-- The context of a living thread is in the FPU or in its saved area. -/
structure Simulates (s : System) (own : ThreadId → FpuContext) : Prop where
  owner : ∀ t thread, s.lastFPUthread = some t → s.threads t = some thread →
    thread.fpuInitialized = true ∧ own t = s.registers
  saved : ∀ t thread, s.threads t = some thread → thread.process ≠ none →
    s.lastFPUthread ≠ some t → own t = if thread.fpuInitialized then thread.fpu else .initial
  alive : ∀ t, s.lastFPUthread = some t → Alive s t
  listed : ∀ t thread p, s.threads t = some thread → thread.process = some p →
    t ∈ s.processThreads p
  running : ∀ t, s.running = some t →
    Alive s t ∧ (s.taskSwitched = true ↔ s.lastFPUthread ≠ some t)

theorem simulates_boot (registers : FpuContext) (own : ThreadId → FpuContext) :
    Simulates (System.boot registers) own where
  owner := nofun
  saved := nofun
  alive := nofun
  listed := nofun
  running := nofun

theorem getThread_eq_ok {s : System} {t : ThreadId} {thread : Thread} :
    getThread s t = .ok thread ↔ s.threads t = some thread := by
  rw [getThread]
  cases s.threads t <;> simp

theorem setThread_threads_self (s : System) (t : ThreadId) (thread : Thread) :
    (setThread s t thread).threads t = some thread :=
  Function.update_self t _ s.threads

theorem setThread_threads_of_ne {t u : ThreadId} (h : u ≠ t) (s : System) (thread : Thread) :
    (setThread s t thread).threads u = s.threads u :=
  Function.update_of_ne h _ s.threads

/-- Only the contexts of living threads matter. -/
theorem Simulates.congr {s : System} {own own' : ThreadId → FpuContext} (h : Simulates s own)
    (hown : ∀ t, Alive s t → own t = own' t) : Simulates s own' where
  owner := by
    intro t thread hlast hthread
    rw [← hown t (h.alive t hlast)]
    exact h.owner t thread hlast hthread
  saved := by
    intro t thread hthread hprocess hlast
    rw [← hown t ⟨thread, hthread, hprocess⟩]
    exact h.saved t thread hthread hprocess hlast
  alive := h.alive
  listed := h.listed
  running := h.running

/-- `threadShutdown` without the cases: the thread is dead and does not own the FPU. -/
theorem threadShutdown_eq_ok {s s' : System} {t : ThreadId} (h : threadShutdown s t = .ok s') :
    s'.running = s.running ∧ s'.registers = s.registers ∧
      s'.lastFPUthread = (if s.lastFPUthread = some t then none else s.lastFPUthread) ∧
      (∀ u, u ≠ t → s'.threads u = s.threads u) ∧
      (∀ thread, s'.threads t = some thread → thread.process = none) ∧
      (∀ p u, u ≠ t → u ∈ s.processThreads p → u ∈ s'.processThreads p) := by
  obtain ⟨thread, hthread, h⟩ := bind_eq_ok.mp h
  rw [getThread_eq_ok] at hthread
  have hsame : (if s.lastFPUthread = some t then { s with lastFPUthread := none } else s) =
      { s with lastFPUthread := if s.lastFPUthread = some t then none else s.lastFPUthread } := by
    split_ifs <;> rfl
  rw [hsame] at hthread h
  cases hprocess : thread.process with
  | none =>
      rw [hprocess] at h
      cases h
      refine ⟨rfl, rfl, rfl, fun _ _ => rfl, ?_, fun _ _ _ hu => hu⟩
      intro thread' hthread'
      cases hthread.symm.trans hthread'
      exact hprocess
  | some p =>
      rw [hprocess] at h
      cases h
      refine ⟨rfl, rfl, rfl, fun u hu => setThread_threads_of_ne hu _ _, ?_, ?_⟩
      · intro thread' hthread'
        cases (setThread_threads_self _ _ _).symm.trans hthread'
        rfl
      · intro q u hu hmem
        simp only [setThread]
        rcases eq_or_ne q p with rfl | hq
        · rw [Function.update_self]
          exact (List.mem_erase_of_ne hu).mpr hmem
        · rwa [Function.update_of_ne hq]

theorem threadShutdown_simulates {s s' : System} {t : ThreadId} {own : ThreadId → FpuContext}
    (h : Simulates s own) (hrunning : s.running = none) (hshutdown : threadShutdown s t = .ok s') :
    Simulates s' own ∧ s'.running = none ∧ ¬Alive s' t ∧ ∀ u, Alive s' u → Alive s u := by
  obtain ⟨hrun, hregs, hlast, hother, hdead, hlist⟩ := threadShutdown_eq_ok hshutdown
  have hne : ∀ u, s'.lastFPUthread = some u → u ≠ t ∧ s.lastFPUthread = some u := by
    intro u hu
    rw [hlast] at hu
    split_ifs at hu with hcase
    refine ⟨?_, hu⟩
    rintro rfl
    exact hcase hu
  have hnotAlive : ¬Alive s' t := by
    rintro ⟨thread, hthread, hprocess⟩
    exact hprocess (hdead thread hthread)
  have haliveNe : ∀ u, Alive s' u → u ≠ t := by
    rintro u hu rfl
    exact hnotAlive hu
  refine ⟨⟨?_, ?_, ?_, ?_, ?_⟩, hrun.trans hrunning, hnotAlive, ?_⟩
  · intro u thread hu hthread
    obtain ⟨hut, hu⟩ := hne u hu
    rw [hother u hut] at hthread
    rw [hregs]
    exact h.owner u thread hu hthread
  · intro u thread hthread hprocess hu
    have hut := haliveNe u ⟨thread, hthread, hprocess⟩
    rw [hother u hut] at hthread
    refine h.saved u thread hthread hprocess fun hcontra => hu ?_
    rw [hlast, if_neg, hcontra]
    rw [hcontra, Option.some.injEq]
    exact hut
  · intro u hu
    obtain ⟨hut, hu⟩ := hne u hu
    obtain ⟨thread, hthread, hprocess⟩ := h.alive u hu
    exact ⟨thread, (hother u hut).trans hthread, hprocess⟩
  · intro u thread p hthread hprocess
    have hut := haliveNe u ⟨thread, hthread, by simp [hprocess]⟩
    rw [hother u hut] at hthread
    exact hlist p u hut (h.listed u thread p hthread hprocess)
  · intro u hu
    rw [hrun, hrunning] at hu
    cases hu
  · rintro u ⟨thread, hthread, hprocess⟩
    rw [hother u (haliveNe u ⟨thread, hthread, hprocess⟩)] at hthread
    exact ⟨thread, hthread, hprocess⟩

theorem shutdownAll_simulates {s s' : System} {ts : List ThreadId} {own : ThreadId → FpuContext}
    (h : Simulates s own) (hrunning : s.running = none) (hshutdown : shutdownAll s ts = .ok s') :
    Simulates s' own ∧ s'.running = none ∧ (∀ t ∈ ts, ¬Alive s' t) ∧
      (∀ u, Alive s' u → Alive s u) := by
  induction ts generalizing s with
  | nil =>
      cases hshutdown
      exact ⟨h, hrunning, by simp, fun _ hu => hu⟩
  | cons t ts ih =>
      obtain ⟨s₁, hfirst, hrest⟩ := bind_eq_ok.mp hshutdown
      obtain ⟨h₁, hrunning₁, hdead, halive⟩ := threadShutdown_simulates h hrunning hfirst
      obtain ⟨h', hrunning', hdead', halive'⟩ := ih h₁ hrunning₁ hrest
      refine ⟨h', hrunning', ?_, fun u hu => halive u (halive' u hu)⟩
      rintro u (_ | ⟨_, hu⟩)
      · exact fun hcontra => hdead (halive' _ hcontra)
      · exact hdead' u hu

theorem shutdownAll_lastFPUthread_ne {s s' : System} {ts : List ThreadId} {t : ThreadId}
    (hshutdown : shutdownAll s ts = .ok s') (h : s.lastFPUthread ≠ some t) :
    s'.lastFPUthread ≠ some t := by
  induction ts generalizing s with
  | nil =>
      cases hshutdown
      exact h
  | cons u ts ih =>
      obtain ⟨s₁, hfirst, hrest⟩ := bind_eq_ok.mp hshutdown
      obtain ⟨-, -, hlast, -⟩ := threadShutdown_eq_ok hfirst
      refine ih hrest ?_
      rw [hlast]
      split_ifs
      · exact nofun
      · exact h

theorem threadDestroy_simulates {s s' : System} {t : ThreadId} {own : ThreadId → FpuContext}
    (h : Simulates s own) (hrunning : s.running = none) (hdestroy : threadDestroy s t = .ok s') :
    Simulates s' own := by
  obtain ⟨thread, hthread, hdestroy⟩ := bind_eq_ok.mp hdestroy
  rw [getThread_eq_ok] at hthread
  have hthread : s.threads t = some thread := by
    split_ifs at hthread <;> exact hthread
  split_ifs at hdestroy with hprocess hlast
  · -- a dead thread does not own the FPU
    obtain ⟨thread', hthread', hprocess'⟩ := h.alive t hlast
    cases hthread.symm.trans hthread'
    exact absurd hprocess hprocess'
  · cases hdestroy
    have hother : ∀ u thread', Function.update s.threads t none u = some thread' →
        u ≠ t ∧ s.threads u = some thread' := by
      intro u thread' hu
      rcases eq_or_ne u t with rfl | hut
      · rw [Function.update_self] at hu
        cases hu
      · rw [Function.update_of_ne hut] at hu
        exact ⟨hut, hu⟩
    refine ⟨?_, ?_, ?_, ?_, ?_⟩
    · intro u thread' hu hthread'
      exact h.owner u thread' hu (hother u thread' hthread').2
    · intro u thread' hthread' hprocess' hu
      exact h.saved u thread' (hother u thread' hthread').2 hprocess' hu
    · intro u hu
      obtain ⟨thread', hthread', hprocess'⟩ := h.alive u hu
      refine ⟨thread', ?_, hprocess'⟩
      refine (Function.update_of_ne ?_ _ _).trans hthread'
      rintro rfl
      exact hlast hu
    · intro u thread' p hthread' hprocess'
      exact h.listed u thread' p (hother u thread' hthread').2 hprocess'
    · intro u hu
      cases hrunning.symm.trans hu

/-- A new thread: its context is the saved one, or the initial one. -/
theorem addThread_simulates {s s' : System} {t : ThreadId} {p : ProcessId} {thread : Thread}
    {own : ThreadId → FpuContext} (h : Simulates s own) (hrunning : s.running = none)
    (hprocess : thread.process = some p) (hadd : addThread s t p thread = .ok s') :
    Simulates s' (Function.update own t
      (if thread.fpuInitialized then thread.fpu else .initial)) := by
  rw [addThread] at hadd
  split_ifs at hadd with hnone
  cases hadd
  have hne : ∀ u, Alive s u → u ≠ t := by
    rintro u ⟨thread', hthread', -⟩ rfl
    cases hnone.symm.trans hthread'
  refine ⟨?_, ?_, ?_, ?_, ?_⟩
  · intro u thread' hu hthread'
    have hut := hne u (h.alive u hu)
    rw [setThread_threads_of_ne hut] at hthread'
    rw [Function.update_of_ne hut]
    exact h.owner u thread' hu hthread'
  · intro u thread' hthread' hprocess' hu
    rcases eq_or_ne u t with rfl | hut
    · rw [setThread_threads_self, Option.some.injEq] at hthread'
      rw [Function.update_self, hthread']
    · rw [setThread_threads_of_ne hut] at hthread'
      rw [Function.update_of_ne hut]
      exact h.saved u thread' hthread' hprocess' hu
  · intro u hu
    obtain ⟨thread', hthread', hprocess'⟩ := h.alive u hu
    exact ⟨thread', (Function.update_of_ne (hne u (h.alive u hu)) _ _).trans hthread', hprocess'⟩
  · intro u thread' q hthread' hprocess'
    simp only [setThread] at hthread' ⊢
    rcases eq_or_ne u t with rfl | hut
    · rw [Function.update_self, Option.some.injEq] at hthread'
      subst hthread'
      cases hprocess.symm.trans hprocess'
      simp
    · rw [Function.update_of_ne hut] at hthread'
      have hmem := h.listed u thread' q hthread' hprocess'
      rcases eq_or_ne q p with rfl | hq
      · rw [Function.update_self]
        exact List.mem_append_left _ hmem
      · rwa [Function.update_of_ne hq]
  · intro u hu
    cases hrunning.symm.trans hu

/-- Saving the FPU moves the context of its owner `t` to the saved area. -/
theorem backup_eq_ok {s s' : System} {t : ThreadId} (h : backup (clts s) t = .ok s') :
    ∃ thread, s.threads t = some thread ∧
      s' = { s with
        registers := .initial
        taskSwitched := false
        threads := Function.update s.threads t (some { thread with fpu := s.registers }) } := by
  obtain ⟨⟨fpu, s₁⟩, hsave, h⟩ := bind_eq_ok.mp h
  cases hsave
  obtain ⟨thread, hthread, h⟩ := bind_eq_ok.mp h
  cases h
  exact ⟨thread, getThread_eq_ok.mp hthread, rfl⟩

/-- After `fnsave` the owner would continue on the initial state. -/
theorem backup_simulates {s s' : System} {t : ThreadId} {own : ThreadId → FpuContext}
    (h : Simulates s own) (hrunning : s.running = none) (hlast : s.lastFPUthread = some t)
    (hbackup : backup (clts s) t = .ok s') :
    Simulates s' (Function.update own t .initial) := by
  obtain ⟨thread, hthread, rfl⟩ := backup_eq_ok hbackup
  obtain ⟨hinit, -⟩ := h.owner t thread hlast hthread
  have hupdate : ∀ u thread',
      Function.update s.threads t (some { thread with fpu := s.registers }) u = some thread' →
      u ≠ t → s.threads u = some thread' := by
    intro u thread' hu hut
    rwa [Function.update_of_ne hut] at hu
  refine ⟨?_, ?_, ?_, ?_, ?_⟩
  · intro u thread' hu hthread'
    cases hlast.symm.trans hu
    simp only [Function.update_self, Option.some.injEq] at hthread'
    rw [← hthread', Function.update_self]
    exact ⟨hinit, rfl⟩
  · intro u thread' hthread' hprocess' hu
    have hut : u ≠ t := by
      rintro rfl
      exact hu hlast
    rw [Function.update_of_ne hut]
    exact h.saved u thread' (hupdate u thread' hthread' hut) hprocess' hu
  · intro u hu
    cases hlast.symm.trans hu
    obtain ⟨thread', hthread', hprocess'⟩ := h.alive t hlast
    cases hthread.symm.trans hthread'
    exact ⟨_, Function.update_self _ _ _, hprocess'⟩
  · intro u thread' p hthread' hprocess'
    rcases eq_or_ne u t with rfl | hut
    · simp only [Function.update_self, Option.some.injEq] at hthread'
      rw [← hthread'] at hprocess'
      exact h.listed u thread p hthread hprocess'
    · exact h.listed u thread' p (hupdate u thread' hthread' hut) hprocess'
  · intro u hu
    cases hrunning.symm.trans hu

theorem threadFork_simulates {s s' : System} {original t : ThreadId} {p : ProcessId}
    {fresh : FpuContext} {own : ThreadId → FpuContext} (h : Simulates s own)
    (hrunning : s.running = none)
    (hinitial : s.lastFPUthread = some original → s.registers = .initial)
    (hfork : threadFork s original t p fresh = .ok s') :
    Simulates s' (Function.update own t (own original)) := by
  obtain ⟨thread, hthread, hfork⟩ := bind_eq_ok.mp hfork
  rw [getThread_eq_ok] at hthread
  have hprocess : thread.process ≠ none := by
    intro hnone
    rw [if_pos (Or.inl hnone)] at hfork
    cases hfork
  split_ifs at hfork with hassert hinit hlast
  · -- the owner of the FPU forks: its context is the initial one
    obtain ⟨s₁, hbackup, hfork⟩ := bind_eq_ok.mp hfork
    obtain ⟨thread₁, hthread₁, hadd⟩ := bind_eq_ok.mp hfork
    have hown : own original = .initial := by
      rw [(h.owner original thread hlast hthread).2, hinitial hlast]
    have h₁ := backup_simulates h hrunning hlast hbackup
    rw [← hown, Function.update_eq_self] at h₁
    obtain ⟨thread', -, rfl⟩ := backup_eq_ok hbackup
    rw [getThread_eq_ok] at hthread₁
    simp only [Function.update_self, Option.some.injEq] at hthread₁
    have hfpu : thread₁.fpu = own original := by
      rw [← hthread₁, hown]
      exact hinitial hlast
    rw [← hfpu]
    exact addThread_simulates h₁ hrunning rfl hadd
  · obtain ⟨s₁, hsame, hfork⟩ := bind_eq_ok.mp hfork
    cases hsame
    obtain ⟨thread₁, hthread₁, hadd⟩ := bind_eq_ok.mp hfork
    cases hthread.symm.trans (getThread_eq_ok.mp hthread₁)
    have hfpu : own original = thread.fpu := by
      rw [h.saved original thread hthread hprocess hlast, if_pos hinit]
    rw [hfpu]
    exact addThread_simulates h hrunning rfl hadd
  · have hlast : s.lastFPUthread ≠ some original := by
      intro hlast
      exact hinit (h.owner original thread hlast hthread).1
    have hfpu : own original = .initial := by
      rw [h.saved original thread hthread hprocess hlast, if_neg hinit]
    rw [hfpu]
    exact addThread_simulates h hrunning rfl hfork

theorem executeProgram_simulates {s s' : System} {t : ThreadId} {own : ThreadId → FpuContext}
    (h : Simulates s own) (hrunning : s.running = none) (hlast : s.lastFPUthread ≠ some t)
    (hexecute : executeProgram s t = .ok s') :
    Simulates s' (Function.update own t .initial) := by
  obtain ⟨thread, hthread, hexecute⟩ := bind_eq_ok.mp hexecute
  cases hprocess : thread.process with
  | none =>
      rw [hprocess] at hexecute
      cases hexecute
  | some p =>
      rw [hprocess] at hexecute
      obtain ⟨s₁, hshutdown, hexecute⟩ := bind_eq_ok.mp hexecute
      obtain ⟨thread₁, hthread₁, hexecute⟩ := bind_eq_ok.mp hexecute
      cases hexecute
      rw [getThread_eq_ok] at hthread₁
      obtain ⟨h₁, hrunning₁, -, -⟩ := shutdownAll_simulates h hrunning hshutdown
      have hlast₁ : s₁.lastFPUthread ≠ some t :=
        shutdownAll_lastFPUthread_ne hshutdown hlast
      refine ⟨?_, ?_, ?_, ?_, ?_⟩
      · intro u thread' hu hthread'
        have hut : u ≠ t := by
          rintro rfl
          exact hlast₁ hu
        rw [setThread_threads_of_ne hut] at hthread'
        rw [Function.update_of_ne hut]
        exact h₁.owner u thread' hu hthread'
      · intro u thread' hthread' hprocess' hu
        rcases eq_or_ne u t with rfl | hut
        · cases (setThread_threads_self _ _ _).symm.trans hthread'
          rw [Function.update_self]
          rfl
        · rw [setThread_threads_of_ne hut] at hthread'
          rw [Function.update_of_ne hut]
          exact h₁.saved u thread' hthread' hprocess' hu
      · intro u hu
        have hut : u ≠ t := by
          rintro rfl
          exact hlast₁ hu
        obtain ⟨thread', hthread', hprocess'⟩ := h₁.alive u hu
        exact ⟨thread', (setThread_threads_of_ne hut _ _).trans hthread', hprocess'⟩
      · intro u thread' q hthread' hprocess'
        rcases eq_or_ne u t with rfl | hut
        · cases (setThread_threads_self _ _ _).symm.trans hthread'
          exact h₁.listed u thread₁ q hthread₁ hprocess'
        · rw [setThread_threads_of_ne hut] at hthread'
          exact h₁.listed u thread' q hthread' hprocess'
      · intro u hu
        cases hrunning₁.symm.trans hu

theorem exitProcess_simulates {s s' : System} {t : ThreadId} {own : ThreadId → FpuContext}
    (h : Simulates s own) (hrunning : s.running = none) (hexit : exitProcess s t = .ok s') :
    Simulates s' own ∧ ¬Alive s' t := by
  obtain ⟨thread, hthread, hexit⟩ := bind_eq_ok.mp hexit
  rw [getThread_eq_ok] at hthread
  cases hprocess : thread.process with
  | none =>
      rw [hprocess] at hexit
      cases hexit
  | some p =>
      rw [hprocess] at hexit
      obtain ⟨h', -, hdead, -⟩ := shutdownAll_simulates h hrunning hexit
      exact ⟨h', hdead t (h.listed t thread p hthread hprocess)⟩

theorem interrupt0x10_simulates {s s' : System} {t : ThreadId} {own : ThreadId → FpuContext}
    (h : Simulates s own) (hrunning : s.running = none) (hfault : interrupt0x10 s t = .ok s') :
    Simulates s' own := by
  rw [interrupt0x10] at hfault
  split_ifs at hfault with hlast
  obtain ⟨s₁, hbackup, hexit⟩ := bind_eq_ok.mp hfault
  have h₁ := backup_simulates h hrunning hlast hbackup
  have hrunning₁ : s₁.running = none := by
    obtain ⟨thread, -, rfl⟩ := backup_eq_ok hbackup
    exact hrunning
  obtain ⟨h', hdead⟩ := exitProcess_simulates h₁ hrunning₁ hexit
  refine h'.congr ?_
  intro u hu
  apply Function.update_of_ne
  rintro rfl
  exact hdead hu

theorem leaveUsermode_simulates {s : System} {own : ThreadId → FpuContext} (h : Simulates s own) :
    Simulates (leaveUsermode s) own where
  owner := h.owner
  saved := h.saved
  alive := h.alive
  listed := h.listed
  running := nofun

theorem enterUsermode_simulates {s s' : System} {t : ThreadId} {own : ThreadId → FpuContext}
    (h : Simulates s own) (henter : enterUsermode s t = .ok s') : Simulates s' own := by
  obtain ⟨thread, hthread, henter⟩ := bind_eq_ok.mp henter
  rw [getThread_eq_ok] at hthread
  split_ifs at henter with hprocess
  cases henter
  refine ⟨h.owner, h.saved, h.alive, h.listed, ?_⟩
  intro u hu
  cases hu
  exact ⟨⟨thread, hthread, hprocess⟩, by simp⟩

/-- `loadContext` for a thread with the context `own t`, while no thread owns the FPU. -/
theorem loadContext_simulates {s s' : System} {t : ThreadId} {own : ThreadId → FpuContext}
    (h : Simulates { s with lastFPUthread := none } own) (hrunning : s.running = none)
    (hflags : ∀ thread, s.threads t = some thread → thread.fpuInitialized = true →
      thread.fpu.withoutUnmasked = thread.fpu)
    (halive : Alive s t) (hload : loadContext s t = .ok s') :
    Simulates { s' with lastFPUthread := some t } own := by
  obtain ⟨thread, hthread, hload⟩ := bind_eq_ok.mp hload
  rw [getThread_eq_ok] at hthread
  obtain ⟨thread', hthread', hprocess⟩ := halive
  cases hthread.symm.trans hthread'
  have hown := h.saved t thread hthread hprocess nofun
  -- in both cases the thread gets a new record, and the FPU its context
  have hload : ∃ fpu ts, s' = setThread { s with registers := own t, taskSwitched := ts } t
      { thread with fpuInitialized := true, fpu := fpu } := by
    split_ifs at hload with hinit
    · rw [hflags thread hthread hinit, frstor] at hload
      split_ifs at hload
      cases hload
      rw [hown, if_pos hinit, ← hinit]
      exact ⟨_, _, rfl⟩
    · obtain ⟨s₁, hfninit, hload⟩ := bind_eq_ok.mp hload
      rw [fninit] at hfninit
      split_ifs at hfninit
      cases hfninit
      cases hload
      rw [hown, if_neg hinit]
      exact ⟨_, _, rfl⟩
  obtain ⟨fpu, ts, rfl⟩ := hload
  refine ⟨?_, ?_, ?_, ?_, ?_⟩
  · intro u thread' hu hthread'
    cases hu
    cases (setThread_threads_self _ _ _).symm.trans hthread'
    exact ⟨rfl, rfl⟩
  · intro u thread' hthread' hprocess' hu
    have hut : u ≠ t := by
      rintro rfl
      exact hu rfl
    rw [setThread_threads_of_ne hut] at hthread'
    exact h.saved u thread' hthread' hprocess' nofun
  · intro u hu
    cases hu
    exact ⟨_, setThread_threads_self _ _ _, hprocess⟩
  · intro u thread' p hthread' hprocess'
    rcases eq_or_ne u t with rfl | hut
    · cases (setThread_threads_self _ _ _).symm.trans hthread'
      exact h.listed u thread p hthread hprocess'
    · rw [setThread_threads_of_ne hut] at hthread'
      exact h.listed u thread' p hthread' hprocess'
  · intro u hu
    cases hrunning.symm.trans hu

/-- Saving the FPU, when its owner gives it up. -/
theorem backup_simulates_none {s s' : System} {t : ThreadId} {own : ThreadId → FpuContext}
    (h : Simulates s own) (hrunning : s.running = none) (hlast : s.lastFPUthread = some t)
    (hbackup : backup (clts s) t = .ok s') :
    Simulates { s' with lastFPUthread := none } own := by
  obtain ⟨thread, hthread, rfl⟩ := backup_eq_ok hbackup
  obtain ⟨hinit, hown⟩ := h.owner t thread hlast hthread
  refine ⟨nofun, ?_, nofun, ?_, ?_⟩
  · intro u thread' hthread' hprocess' hu
    rcases eq_or_ne u t with rfl | hut
    · simp only [Function.update_self, Option.some.injEq] at hthread'
      rw [← hthread', hown]
      exact (if_pos hinit).symm
    · simp only [Function.update_of_ne hut] at hthread'
      refine h.saved u thread' hthread' hprocess' ?_
      intro hcontra
      cases hlast.symm.trans hcontra
      exact hut rfl
  · intro u thread' p hthread' hprocess'
    rcases eq_or_ne u t with rfl | hut
    · simp only [Function.update_self, Option.some.injEq] at hthread'
      rw [← hthread'] at hprocess'
      exact h.listed u thread p hthread hprocess'
    · simp only [Function.update_of_ne hut] at hthread'
      exact h.listed u thread' p hthread' hprocess'
  · intro u hu
    cases hrunning.symm.trans hu

/-- After `interrupt_0x07` the FPU belongs to `t`. -/
theorem interrupt0x07_simulates {s s' : System} {t : ThreadId} {own : ThreadId → FpuContext}
    (h : Simulates s own) (hrunning : s.running = none) (halive : Alive s t)
    (hflags : ∀ thread, s.threads t = some thread → s.lastFPUthread ≠ some t →
      thread.fpuInitialized = true → thread.fpu.withoutUnmasked = thread.fpu)
    (hinterrupt : interrupt0x07 s t = .ok s') :
    Simulates s' own ∧ s'.lastFPUthread = some t := by
  rw [interrupt0x07] at hinterrupt
  cases hlast : s.lastFPUthread with
  | none =>
      rw [hlast] at hinterrupt
      obtain ⟨s₁, hload, hinterrupt⟩ := bind_eq_ok.mp hinterrupt
      cases hinterrupt
      have hnone : Simulates { clts s with lastFPUthread := none } own := by
        refine ⟨nofun, ?_, nofun, h.listed, ?_⟩
        · intro u thread hthread hprocess _
          exact h.saved u thread hthread hprocess (by simp [hlast])
        · intro u hu
          cases hrunning.symm.trans hu
      refine ⟨loadContext_simulates hnone hrunning ?_ halive hload, rfl⟩
      intro thread hthread
      exact hflags thread hthread (by simp [hlast])
  | some last =>
      rw [hlast] at hinterrupt
      simp only at hinterrupt
      split_ifs at hinterrupt with hsame
      · cases hinterrupt
        exact ⟨h, hsame ▸ hlast⟩
      · obtain ⟨s₁, hbackup, hinterrupt⟩ := bind_eq_ok.mp hinterrupt
        obtain ⟨s₂, hload, hinterrupt⟩ := bind_eq_ok.mp hinterrupt
        cases hinterrupt
        have h₁ := backup_simulates_none h hrunning hlast hbackup
        obtain ⟨thread, hthread, rfl⟩ := backup_eq_ok hbackup
        have hother : ∀ record : Option Thread,
            Function.update s.threads last record t = s.threads t :=
          fun record => Function.update_of_ne (Ne.symm hsame) _ _
        refine ⟨loadContext_simulates h₁ hrunning ?_ ?_ hload, rfl⟩
        · intro thread' hthread'
          exact hflags thread' ((hother _).symm.trans hthread') (by simpa [hlast] using hsame)
        · obtain ⟨thread', hthread', hprocess'⟩ := halive
          exact ⟨thread', (hother _).trans hthread', hprocess'⟩

/-- An instruction is executed on the context of its thread. -/
theorem fpuInstruction_simulates {s s' : System} {t : ThreadId} {f : FpuContext → FpuContext}
    {fpu : FpuContext} {own : ThreadId → FpuContext} (h : Simulates s own)
    (hrunning : s.running = some t) (hseparates : Separates s (.instruction t f))
    (hinstruction : fpuInstruction s t f = .ok (s', fpu)) :
    Simulates s' (Function.update own t (f (own t))) ∧ fpu = own t := by
  obtain ⟨halive, hswitched⟩ := h.running t hrunning
  have howner : ∃ s₁, Simulates s₁ own ∧ s₁.lastFPUthread = some t ∧ s₁.taskSwitched = false ∧
      s' = { s₁ with registers := f s₁.registers } ∧ fpu = s₁.registers := by
    obtain ⟨s₁, htrap, hinstruction⟩ := bind_eq_ok.mp hinstruction
    rw [trapIfSwitched] at htrap
    split_ifs at htrap hinstruction with htask htask₁
    · cases hinstruction
      obtain ⟨s₂, hinterrupt, henter⟩ := bind_eq_ok.mp htrap
      obtain ⟨h₂, hlast₂⟩ := interrupt0x07_simulates (leaveUsermode_simulates h) rfl halive
        hseparates hinterrupt
      refine ⟨s₁, enterUsermode_simulates h₂ henter, ?_, by simpa using htask₁, rfl, rfl⟩
      obtain ⟨thread, -, henter⟩ := bind_eq_ok.mp henter
      split_ifs at henter
      cases henter
      exact hlast₂
    · cases htrap
      cases hinstruction
      refine ⟨s, h, ?_, by simpa using htask, rfl, rfl⟩
      by_contra hlast
      exact htask (hswitched.mpr hlast)
  obtain ⟨s₁, h₁, hlast, htask, rfl, rfl⟩ := howner
  obtain ⟨thread, hthread, hprocess⟩ := h₁.alive t hlast
  obtain ⟨hinit, hown⟩ := h₁.owner t thread hlast hthread
  refine ⟨⟨?_, ?_, h₁.alive, h₁.listed, h₁.running⟩, hown.symm⟩
  · intro u thread' hu hthread'
    cases hlast.symm.trans hu
    cases hthread.symm.trans hthread'
    rw [Function.update_self, hown]
    exact ⟨hinit, rfl⟩
  · intro u thread' hthread' hprocess' hu
    have hut : u ≠ t := by
      rintro rfl
      exact hu hlast
    rw [Function.update_of_ne hut]
    exact h₁.saved u thread' hthread' hprocess' hu

theorem backup_ok {s : System} {t : ThreadId} {thread : Thread} (h : s.threads t = some thread) :
    ∃ s', backup (clts s) t = .ok s' := by
  let s₁ : System := { clts s with registers := .initial }
  exact ⟨setThread s₁ t { thread with fpu := s.registers }, bind_eq_ok.mpr
    ⟨(s.registers, s₁), rfl, bind_eq_ok.mpr ⟨thread, getThread_eq_ok.mpr h, rfl⟩⟩⟩

theorem loadContext_ok {s : System} {t : ThreadId} (h : Alive s t)
    (htask : s.taskSwitched = false) : ∃ s', loadContext s t = .ok s' ∧ Alive s' t := by
  obtain ⟨thread, hthread, hprocess⟩ := h
  rw [loadContext, getThread_eq_ok.mpr hthread]
  change ∃ s', (if thread.fpuInitialized = true then _ else _) = _ ∧ _
  split_ifs
  · refine ⟨_, if_neg (by simp [setThread, htask]), _, setThread_threads_self _ _ _, hprocess⟩
  · rw [fninit, if_neg (by simp [htask])]
    exact ⟨_, rfl, _, setThread_threads_self _ _ _, hprocess⟩

theorem interrupt0x07_ok {s : System} {t : ThreadId} {own : ThreadId → FpuContext}
    (h : Simulates s own) (halive : Alive s t) :
    ∃ s', interrupt0x07 s t = .ok s' ∧ Alive s' t ∧ s'.lastFPUthread = some t := by
  rw [interrupt0x07]
  cases hlast : s.lastFPUthread with
  | none =>
      obtain ⟨s₁, hload, halive₁⟩ := loadContext_ok (s := clts s) halive rfl
      simp only [hload]
      exact ⟨_, rfl, halive₁, rfl⟩
  | some last =>
      simp only
      split_ifs with hsame
      · exact ⟨s, rfl, halive, hsame ▸ hlast⟩
      · obtain ⟨thread, hthread, -⟩ := h.alive last hlast
        obtain ⟨s₁, hbackup⟩ := backup_ok hthread
        have halive₁ : Alive s₁ t ∧ s₁.taskSwitched = false := by
          obtain ⟨thread', -, rfl⟩ := backup_eq_ok hbackup
          obtain ⟨thread'', hthread'', hprocess⟩ := halive
          refine ⟨⟨thread'', ?_, hprocess⟩, rfl⟩
          exact (Function.update_of_ne (Ne.symm hsame) _ _).trans hthread''
        obtain ⟨s₂, hload, halive₂⟩ := loadContext_ok halive₁.1 halive₁.2
        exact ⟨{ s₂ with lastFPUthread := some t },
          bind_eq_ok.mpr ⟨s₁, hbackup, bind_eq_ok.mpr ⟨s₂, hload, rfl⟩⟩, halive₂, rfl⟩

/-- An FPU instruction is executed at the latest when it is retried. -/
theorem fpuInstruction_ok {s : System} {t : ThreadId} {own : ThreadId → FpuContext}
    (h : Simulates s own) (hrunning : s.running = some t) (f : FpuContext → FpuContext) :
    ∃ s' fpu, fpuInstruction s t f = .ok (s', fpu) := by
  have htrap : ∃ s₁, trapIfSwitched s t = .ok s₁ ∧ s₁.taskSwitched = false := by
    rw [trapIfSwitched]
    split_ifs with htask
    · obtain ⟨s₁, hinterrupt, ⟨thread, hthread, hprocess⟩, hlast⟩ :=
        interrupt0x07_ok (leaveUsermode_simulates h) (h.running t hrunning).1
      have henter : enterUsermode s₁ t =
          .ok { s₁ with taskSwitched := s₁.lastFPUthread ≠ some t, running := some t } :=
        bind_eq_ok.mpr ⟨thread, getThread_eq_ok.mpr hthread, if_neg hprocess⟩
      exact ⟨_, bind_eq_ok.mpr ⟨s₁, hinterrupt, henter⟩, by simp [hlast]⟩
    · exact ⟨s, rfl, by simpa using htask⟩
  obtain ⟨s₁, htrap, htask⟩ := htrap
  exact ⟨_, _, bind_eq_ok.mpr ⟨s₁, htrap, if_neg (by simp [htask])⟩⟩

theorem inKernel_eq_ok {s s' : System} {action : System → Except Stop System} {o : Observation}
    (h : inKernel s action = .ok (s', o)) : s.running = none ∧ action s = .ok s' ∧ o = none := by
  rw [inKernel] at h
  split_ifs at h with hrunning
  obtain ⟨s₁, haction, h⟩ := bind_eq_ok.mp h
  cases h
  exact ⟨hrunning, haction, rfl⟩

theorem step_simulates {s s' : System} {own : ThreadId → FpuContext} {a : Action}
    {o : Observation} (h : Simulates s own) (hseparates : Separates s a)
    (hstep : step s a = .ok (s', o)) :
    Simulates s' (ownStep own a).1 ∧ o = (ownStep own a).2 := by
  cases a with
  | create t p fresh =>
      rw [step] at hstep
      obtain ⟨hrunning, hcreate, rfl⟩ := inKernel_eq_ok hstep
      exact ⟨addThread_simulates h hrunning rfl hcreate, rfl⟩
  | fork original t p fresh =>
      rw [step] at hstep
      obtain ⟨hrunning, hfork, rfl⟩ := inKernel_eq_ok hstep
      exact ⟨threadFork_simulates h hrunning hseparates hfork, rfl⟩
  | execute t =>
      rw [step] at hstep
      obtain ⟨hrunning, hexecute, rfl⟩ := inKernel_eq_ok hstep
      exact ⟨executeProgram_simulates h hrunning hseparates hexecute, rfl⟩
  | shutdown t =>
      rw [step] at hstep
      obtain ⟨hrunning, hshutdown, rfl⟩ := inKernel_eq_ok hstep
      exact ⟨(threadShutdown_simulates h hrunning hshutdown).1, rfl⟩
  | exitProcess t =>
      rw [step] at hstep
      obtain ⟨hrunning, hexit, rfl⟩ := inKernel_eq_ok hstep
      exact ⟨(exitProcess_simulates h hrunning hexit).1, rfl⟩
  | destroy t =>
      rw [step] at hstep
      obtain ⟨hrunning, hdestroy, rfl⟩ := inKernel_eq_ok hstep
      exact ⟨threadDestroy_simulates h hrunning hdestroy, rfl⟩
  | enter t =>
      rw [step] at hstep
      obtain ⟨hrunning, henter, rfl⟩ := inKernel_eq_ok hstep
      exact ⟨enterUsermode_simulates h henter, rfl⟩
  | leave =>
      rw [step] at hstep
      split_ifs at hstep
      cases hstep
      exact ⟨leaveUsermode_simulates h, rfl⟩
  | instruction t f =>
      rw [step] at hstep
      split_ifs at hstep with hrunning
      obtain ⟨⟨s₁, fpu⟩, hinstruction, hstep⟩ := bind_eq_ok.mp hstep
      cases hstep
      obtain ⟨h', hfpu⟩ := fpuInstruction_simulates h hrunning hseparates hinstruction
      exact ⟨h', by rw [hfpu]; rfl⟩
  | mathFault t =>
      rw [step] at hstep
      split_ifs at hstep
      obtain ⟨s₁, hfault, hstep⟩ := bind_eq_ok.mp hstep
      cases hstep
      exact ⟨interrupt0x10_simulates (leaveUsermode_simulates h) rfl hfault, rfl⟩

/-- Lazy switching is transparent in every run which keeps the contexts apart:
the FPU instructions are executed on the same states as if every thread had an
FPU of its own, and none of them is refused. -/
theorem run_observations_eq_own (registers : FpuContext) (own : ThreadId → FpuContext)
    (actions : List Action) (s : System) (observations : List Observation)
    (hseparates : Along step Separates (System.boot registers) actions)
    (hrun : run step (System.boot registers) actions = .ok (s, observations)) :
    observations = (runTotal ownStep own actions).2 ∧
      ∀ t f, s.running = some t → Separates s (.instruction t f) →
        ∃ s', step s (.instruction t f) =
          .ok (s', some (t, (runTotal ownStep own actions).1 t)) := by
  have hstep : ∀ s own a s' o, Simulates s own → Separates s a → step s a = .ok (s', o) →
      Simulates s' (ownStep own a).1 ∧ o = (ownStep own a).2 :=
    fun _ _ _ _ _ => step_simulates
  obtain ⟨h, hobservations⟩ :=
    run_simulation hstep (simulates_boot registers own) hseparates hrun
  refine ⟨hobservations, ?_⟩
  intro t f hrunning hok
  obtain ⟨s', fpu, hinstruction⟩ := fpuInstruction_ok h hrunning f
  obtain ⟨-, hfpu⟩ := fpuInstruction_simulates h hrunning hok hinstruction
  refine ⟨s', ?_⟩
  rw [step, if_pos hrunning, hinstruction, ← hfpu]
  rfl

/-- `fldcw` of a control word. -/
def loadControlWord (w : BitVec 16) (fpu : FpuContext) : FpuContext :=
  { fpu with controlWord := w }

/-- Two threads which use the FPU in turns, and a fork of the one which does not own it. -/
def turns : List Action :=
  [.create 0 0 .initial, .create 1 1 .initial,
    .enter 0, .instruction 0 (loadControlWord 0x027f), .leave,
    .enter 1, .instruction 1 (loadControlWord 0x0c7f), .leave,
    .fork 0 2 2 .initial,
    .enter 2, .instruction 2 id, .leave,
    .enter 0]

theorem run_turns_observations :
    ∃ s observations, run step (System.boot .initial) turns = .ok (s, observations) ∧
      observations = (runTotal ownStep (fun _ => .initial) turns).2 ∧
      some (2, loadControlWord 0x027f .initial) ∈ observations := by
  have hseparates : Along step Separates (System.boot .initial) turns := by
    refine ⟨trivial, trivial, trivial, ?_, trivial, trivial, ?_, trivial, ?_, trivial, ?_, trivial,
      trivial, trivial⟩
    · rintro thread ⟨⟩ _ ⟨⟩
    · rintro thread ⟨⟩ _ ⟨⟩
    · rintro ⟨⟩
    · rintro thread ⟨⟩ _ _
      decide
  refine ⟨_, _, rfl, (run_observations_eq_own .initial (fun _ => .initial) turns _ _ hseparates
    rfl).1, ?_⟩
  decide

/-- The owner of the FPU forks and continues on the initial state. -/
theorem fork_loses_context :
    ¬∀ (registers : FpuContext) (own : ThreadId → FpuContext) (actions : List Action) (s : System)
      (observations : List Observation),
      run step (System.boot registers) actions = .ok (s, observations) →
      observations = (runTotal ownStep own actions).2 := by
  intro h
  have hrun := h .initial (fun _ => .initial)
    [.create 0 0 .initial, .enter 0, .instruction 0 (loadControlWord 0x027f), .leave,
      .fork 0 1 1 .initial, .enter 0, .instruction 0 id] _ _ rfl
  revert hrun
  decide

end Ibnos.Fpu
