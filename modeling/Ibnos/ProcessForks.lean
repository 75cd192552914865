import Ibnos.Fpu
import Ibnos.Handles
import Ibnos.PagingRuns

/-!
The fork of a process. What a process and its thread are is spread over the process
structure, the thread structure, the handle table, the page table and the FPU, and
each of them is copied by a function of its own.
-/

namespace Ibnos.ProcessForks

open Ibnos.Memory
open Ibnos.Paging
open Ibnos.Programs
open Ibnos.References
open Ibnos.PagingOperations
open Ibnos.Handles
open Ibnos.PagingRuns
open Ibnos.Runs

section

structure TaskContext where
  prevTask : BitVec 16 := 0
  esp0 : BitVec 32 := 0
  ss0 : BitVec 16 := 0
  esp1 : BitVec 32 := 0
  ss1 : BitVec 16 := 0
  esp2 : BitVec 32 := 0
  ss2 : BitVec 16 := 0
  cr3 : BitVec 32 := 0
  eip : BitVec 32 := 0
  eflags : BitVec 32 := 0
  eax : BitVec 32 := 0
  ecx : BitVec 32 := 0
  edx : BitVec 32 := 0
  ebx : BitVec 32 := 0
  esp : BitVec 32 := 0
  ebp : BitVec 32 := 0
  esi : BitVec 32 := 0
  edi : BitVec 32 := 0
  es : BitVec 16 := 0
  cs : BitVec 16 := 0
  ss : BitVec 16 := 0
  ds : BitVec 16 := 0
  fs : BitVec 16 := 0
  gs : BitVec 16 := 0
  ldt : BitVec 16 := 0
  iomap : BitVec 16 := 0
deriving DecidableEq

/-- The fields of `struct thread` which are not those of the FPU. -/
structure ThreadFields where
  user_ring3StackBase : BitVec 32
  user_ring3StackLength : BitVec 32
  user_threadLocalBase : BitVec 32
  user_threadLocalLength : BitVec 32
  task : TaskContext
deriving DecidableEq

/-- The fields of `struct process` which are not those of paging. An object is known by its
address, and so is the process. -/
structure ProcessFields where
  exitcode : BitVec 32
  entryPoint : BitVec 32
  user_programArgumentsBase : BitVec 32
  user_programArgumentsLength : BitVec 32
  user_environmentVariablesBase : BitVec 32
  user_environmentVariablesLength : BitVec 32
  handles : HandleTable Nat

structure System where
  machine : Machine
  fpu : Fpu.System
  process : Nat → Option ProcessFields
  thread : Nat → Option ThreadFields

inductive Failure where
  /-- the heap hands out unused memory, and the thread which calls exists -/
  | impossible
  | memory (stop : Stop)
  | handles (fault : Fault)
  | fpu (stop : Fpu.Stop)
deriving DecidableEq

abbrev Kernel := Program System Failure

def onMachine {α : Type} (m : M α) : Kernel α := fun s =>
  match m s.machine with
  | .ok (a, machine) => .ok (a, { s with machine := machine })
  | .error e => .error (.memory e)

def onFpu (f : Fpu.System → Except Fpu.Stop Fpu.System) : Kernel Unit := fun s =>
  match f s.fpu with
  | .ok fpu => .ok ((), { s with fpu := fpu })
  | .error e => .error (.fpu e)

def onHandles {α : Type} (r : Except Fault α) : Kernel α :=
  match r with
  | .ok a => pure a
  | .error e => throw (.handles e)

def getProcess (p : Nat) : Kernel ProcessFields := do
  match (← get).process p with
  | some fields => return fields
  | none => throw .impossible

def getThread (t : Nat) : Kernel ThreadFields := do
  match (← get).thread t with
  | some fields => return fields
  | none => throw .impossible

def setProcess (p : Nat) (fields : ProcessFields) : Kernel Unit :=
  modify fun s => { s with process := Function.update s.process p (some fields) }

def setThread (t : Nat) (fields : ThreadFields) : Kernel Unit :=
  modify fun s => { s with thread := Function.update s.thread t (some fields) }

/-- What `processCreate` initialises with the given handle table. -/
def childFields (handles : HandleTable Nat) : ProcessFields where
  exitcode := -1
  entryPoint := 0
  user_programArgumentsBase := 0
  user_programArgumentsLength := 0
  user_environmentVariablesBase := 0
  user_environmentVariablesLength := 0
  handles := handles

/-- `processCreate(original)` -/
def processCreate (original p : Nat) : Kernel Unit := do
  if (← get).process p ≠ none then throw .impossible
  else do
    let source ← getProcess original
    let handles ← onHandles (handleForkTable source.handles)
    onMachine (pagingForkProcessPageTable p original)
    setProcess p (childFields handles)

/-- `threadCreate(p, original, NULL)` -/
def threadCreate (p original t : Nat) (fresh : Fpu.FpuContext) : Kernel Unit := do
  let s ← get
  if s.thread t ≠ none ∨ s.fpu.lastFPUthread = some t then throw .impossible
  else do
    let source ← getThread original
    let pageDirectory := ((s.machine.process p).pageDirectory.getD 0) * PAGE_SIZE
    let frame ← onMachine (pagingGetPhysMem none pageDirectory)
    onFpu fun fpu => Fpu.threadFork fpu original t p fresh
    setThread t { source with task :=
      { source.task with cr3 := BitVec.ofNat 32 (frame * PAGE_SIZE) } }

/-- The result of `handleAllocate` as it is seen by the user. -/
def handleResult : Option Nat → BitVec 32
  | some handle => BitVec.ofNat 32 handle
  | none => -1

/-- `SYSCALL_FORK` of the thread `t` of the process `p` -/
def syscallFork (objectType : Nat → ObjectType) (p t new_p new_t : Nat) (fresh : Fpu.FpuContext) :
    Kernel (Option Nat) := do
  processCreate p new_p
  threadCreate new_p t new_t fresh
  let fields ← getProcess p
  let (handle, handles) ← onHandles (handleAllocate objectType fields.handles new_p)
  setProcess p { fields with handles := handles }
  let caller ← getThread t
  setThread t { caller with task := { caller.task with eax := handleResult handle } }
  let child ← getThread new_t
  setThread new_t { child with task := { child.task with eax := 0 } }
  return handle

/-- The context a thread has in the FPU or in its structure. -/
def fpuContext (s : Fpu.System) (t : Nat) : Option Fpu.FpuContext :=
  if s.lastFPUthread = some t then some s.registers
  else (s.threads t).map fun thread => if thread.fpuInitialized then thread.fpu else .initial

/-- The registers which a thread can see, apart from the one with the result of the fork. -/
def visible (task : TaskContext) : TaskContext := { task with eax := 0, cr3 := 0 }

/-- The child answers every query like its parent. -/
structure Identical (s : System) (p t new_p new_t : Nat) (handle : Option Nat) : Prop where
  registers : (s.thread new_t).map (fun thread => visible thread.task) =
    (s.thread t).map fun thread => visible thread.task
  pages : view s.machine new_p = view s.machine p
  handles : ∀ h, some h ≠ handle →
    (s.process new_p).map (fun process => handleGet process.handles h) =
      (s.process p).map fun process => handleGet process.handles h
  threadLocal : (s.thread new_t).map (fun thread =>
      (thread.user_threadLocalBase, thread.user_threadLocalLength)) =
    (s.thread t).map fun thread => (thread.user_threadLocalBase, thread.user_threadLocalLength)
  programArguments : (s.process new_p).map (fun process =>
      (process.user_programArgumentsBase, process.user_programArgumentsLength)) =
    (s.process p).map fun process =>
      (process.user_programArgumentsBase, process.user_programArgumentsLength)
  environmentVariables : (s.process new_p).map (fun process =>
      (process.user_environmentVariablesBase, process.user_environmentVariablesLength)) =
    (s.process p).map fun process =>
      (process.user_environmentVariablesBase, process.user_environmentVariablesLength)
  fpu : fpuContext s.fpu new_t = fpuContext s.fpu t

/-- The memory and the handle tables are as their own functions leave them. -/
structure Reachable (objectType : Nat → ObjectType) (s : System) : Prop where
  machine : Reached s.machine
  handles : ∀ p process, s.process p = some process →
    ∃ base tables maps, Handles.Reached objectType base tables maps ∧
      process.handles ∈ tables.tables

end

section

variable {s s' : Fpu.System} {t new_t p : Nat} {fresh : Fpu.FpuContext} {thread : Fpu.Thread}

theorem addThread_ok (h : Fpu.addThread s t p thread = .ok s') :
    s.threads t = none ∧ s'.lastFPUthread = s.lastFPUthread ∧ s'.registers = s.registers ∧
      s'.threads = Function.update s.threads t (some thread) := by
  rw [Fpu.addThread] at h
  split at h
  · rename_i hnone
    cases h
    exact ⟨hnone, rfl, rfl, rfl⟩
  · cases h

theorem fpuContext_self (h : s.lastFPUthread = some t) : fpuContext s t = some s.registers :=
  if_pos h

theorem fpuContext_saved (h : s.lastFPUthread ≠ some t) (hthread : s.threads t = some thread) :
    fpuContext s t = some (if thread.fpuInitialized then thread.fpu else .initial) := by
  rw [fpuContext, if_neg h, hthread]
  rfl

/-- A thread which has the FPU when it forks continues on the initial state, and its child on
the old one, or the other way round. -/
theorem threadFork_context (h : Fpu.threadFork s t new_t p fresh = .ok s')
    (hlast : s.lastFPUthread ≠ some new_t) :
    fpuContext s' new_t = fpuContext s' t ↔
      (s.lastFPUthread = some t → s.registers = .initial) := by
  obtain ⟨thread, hthread, h⟩ := bind_eq_ok.mp h
  rw [Fpu.getThread_eq_ok] at hthread
  split_ifs at h with hassert hinit howner
  · obtain ⟨s₁, hbackup, h⟩ := bind_eq_ok.mp h
    obtain ⟨thread₁, hthread₁, hadd⟩ := bind_eq_ok.mp h
    obtain ⟨_, -, rfl⟩ := Fpu.backup_eq_ok hbackup
    rw [Fpu.getThread_eq_ok] at hthread₁
    simp only [Function.update_self, Option.some.injEq] at hthread₁
    obtain ⟨-, hlast', hregisters, hthreads⟩ := addThread_ok hadd
    rw [fpuContext_saved (by rwa [hlast']) (by rw [hthreads, Function.update_self]),
      fpuContext_self (by rwa [hlast']), hregisters, if_pos rfl, ← hthread₁]
    simp [howner]
  · obtain ⟨s₁, hsame, h⟩ := bind_eq_ok.mp h
    cases hsame
    obtain ⟨thread₁, hthread₁, hadd⟩ := bind_eq_ok.mp h
    cases hthread.symm.trans (Fpu.getThread_eq_ok.mp hthread₁)
    obtain ⟨hnone, hlast', -, hthreads⟩ := addThread_ok hadd
    have hne : t ≠ new_t := by
      rintro rfl
      rw [hthread] at hnone
      cases hnone
    rw [fpuContext_saved (by rwa [hlast']) (by rw [hthreads, Function.update_self]),
      fpuContext_saved (by rwa [hlast']) (by rw [hthreads, Function.update_of_ne hne, hthread])]
    simp [howner, hinit]
  · obtain ⟨hnone, hlast', hregisters, hthreads⟩ := addThread_ok h
    have hne : t ≠ new_t := by
      rintro rfl
      rw [hthread] at hnone
      cases hnone
    rw [fpuContext_saved (by rwa [hlast']) (by rw [hthreads, Function.update_self])]
    rcases Classical.em (s.lastFPUthread = some t) with howner | howner
    · rw [fpuContext_self (by rwa [hlast']), hregisters]
      simp [howner, eq_comm]
    · rw [fpuContext_saved (by rwa [hlast']) (by rw [hthreads, Function.update_of_ne hne, hthread])]
      simp [howner, hinit]

end

section

variable {objectType : Nat → ObjectType} {s s' : System} {p t new_p new_t : Nat}
  {fresh : Fpu.FpuContext} {handle : Option Nat}

theorem onMachine_ok {α : Type} {m : M α} {a : α} (h : onMachine m s = .ok (a, s')) :
    ∃ machine, m s.machine = .ok (a, machine) ∧ s' = { s with machine := machine } := by
  rw [onMachine] at h
  split at h
  · rename_i hm
    cases h
    exact ⟨_, hm, rfl⟩
  · cases h

theorem onFpu_ok {f : Fpu.System → Except Fpu.Stop Fpu.System} {u : Unit}
    (h : onFpu f s = .ok (u, s')) :
    ∃ fpu, f s.fpu = .ok fpu ∧ s' = { s with fpu := fpu } := by
  rw [onFpu] at h
  split at h
  · rename_i hf
    cases h
    exact ⟨_, hf, rfl⟩
  · cases h

theorem onHandles_ok {α : Type} {r : Except Fault α} {a : α} (h : onHandles r s = .ok (a, s')) :
    r = .ok a ∧ s' = s := by
  rcases r with e | b
  · cases h
  · cases h
    exact ⟨rfl, rfl⟩

theorem getProcess_ok {fields : ProcessFields} (h : getProcess p s = .ok (fields, s')) :
    s.process p = some fields ∧ s' = s := by
  rw [getProcess, bind_apply, get_apply] at h
  rcases hp : s.process p with _ | process
  · simp only [hp] at h
    cases h
  · simp only [hp] at h
    cases h
    exact ⟨rfl, rfl⟩

theorem getThread_ok {fields : ThreadFields} (h : getThread t s = .ok (fields, s')) :
    s.thread t = some fields ∧ s' = s := by
  rw [getThread, bind_apply, get_apply] at h
  rcases ht : s.thread t with _ | thread
  · simp only [ht] at h
    cases h
  · simp only [ht] at h
    cases h
    exact ⟨rfl, rfl⟩

end

section

variable {objectType : Nat → ObjectType} {s s' : System} {p t new_p new_t : Nat}
  {fresh : Fpu.FpuContext} {handle : Option Nat}

theorem processCreate_ok {u : Unit} (h : processCreate p new_p s = .ok (u, s')) :
    ∃ source handles machine, s.process new_p = none ∧ s.process p = some source ∧
      handleForkTable source.handles = .ok handles ∧
      pagingForkProcessPageTable new_p p s.machine = .ok ((), machine) ∧
      s' = { s with
        machine := machine
        process := Function.update s.process new_p (some (childFields handles)) } := by
  rw [processCreate, bind_apply, get_apply] at h
  simp only at h
  split at h
  · cases h
  · rename_i hnone
    obtain ⟨source, s₁, hm₁, h₁⟩ := bind_ok.mp h
    obtain ⟨hsource, rfl⟩ := getProcess_ok hm₁
    obtain ⟨handles, s₂, hm₂, h₂⟩ := bind_ok.mp h₁
    obtain ⟨hhandles, rfl⟩ := onHandles_ok hm₂
    obtain ⟨_, s₃, hm₃, h₃⟩ := bind_ok.mp h₂
    obtain ⟨machine, hpages, rfl⟩ := onMachine_ok hm₃
    cases h₃
    exact ⟨source, handles, machine, not_not.mp hnone, hsource, hhandles, hpages, rfl⟩

theorem threadCreate_ok {u : Unit} (h : threadCreate new_p t new_t fresh s = .ok (u, s')) :
    ∃ source frame addr machine fpu, s.thread new_t = none ∧ s.fpu.lastFPUthread ≠ some new_t ∧
      s.thread t = some source ∧ pagingGetPhysMem none addr s.machine = .ok (frame, machine) ∧
      Fpu.threadFork s.fpu t new_t new_p fresh = .ok fpu ∧
      s' = { s with
        machine := machine
        fpu := fpu
        thread := Function.update s.thread new_t (some { source with
          task := { source.task with cr3 := BitVec.ofNat 32 (frame * PAGE_SIZE) } }) } := by
  rw [threadCreate, bind_apply, get_apply] at h
  simp only at h
  split at h
  · cases h
  · rename_i hnone
    obtain ⟨hthread, hlast⟩ := not_or.mp hnone
    obtain ⟨source, s₁, hm₁, h₁⟩ := bind_ok.mp h
    obtain ⟨hsource, rfl⟩ := getThread_ok hm₁
    obtain ⟨frame, s₂, hm₂, h₂⟩ := bind_ok.mp h₁
    obtain ⟨machine, hframe, rfl⟩ := onMachine_ok hm₂
    obtain ⟨_, s₃, hm₃, h₃⟩ := bind_ok.mp h₂
    obtain ⟨fpu, hfpu, rfl⟩ := onFpu_ok hm₃
    cases h₃
    exact ⟨source, frame, _, machine, fpu, not_not.mp hthread, hlast, hsource, hframe, hfpu, rfl⟩

/-- What a fork leaves, by the functions which copy its parts. -/
structure ForkResult (objectType : Nat → ObjectType) (p t new_p new_t : Nat)
    (fresh : Fpu.FpuContext) (s : System) (handle : Option Nat) (s' : System) : Prop where
  unused : s.process new_p = none ∧ s.thread new_t = none ∧ s.fpu.lastFPUthread ≠ some new_t
  process : ∃ source table handles, s.process p = some source ∧
    handleForkTable source.handles = .ok table ∧
    handleAllocate objectType source.handles new_p = .ok (handle, handles) ∧
    s'.process new_p = some (childFields table) ∧
    s'.process p = some { source with handles := handles }
  thread : ∃ source cr3, s.thread t = some source ∧
    s'.thread new_t = some { source with task := { source.task with cr3 := cr3, eax := 0 } } ∧
    s'.thread t = some { source with task := { source.task with eax := handleResult handle } }
  machine : ∃ machine frame addr, pagingForkProcessPageTable new_p p s.machine = .ok ((), machine) ∧
    pagingGetPhysMem none addr machine = .ok (frame, s'.machine)
  fpu : Fpu.threadFork s.fpu t new_t new_p fresh = .ok s'.fpu

theorem syscallFork_ok (h : syscallFork objectType p t new_p new_t fresh s = .ok (handle, s')) :
    ForkResult objectType p t new_p new_t fresh s handle s' := by
  rw [syscallFork] at h
  obtain ⟨_, s₁, hm₁, h₁⟩ := bind_ok.mp h
  obtain ⟨source, table, machine, hnone, hsource, htable, hpages, rfl⟩ := processCreate_ok hm₁
  obtain ⟨_, s₂, hm₂, h₂⟩ := bind_ok.mp h₁
  obtain ⟨thread, frame, addr, machine', fpu, hfree, hlast, hcaller, hframe, hfpu, rfl⟩ :=
    threadCreate_ok hm₂
  have hp : p ≠ new_p := by
    rintro rfl
    rw [hnone] at hsource
    cases hsource
  have ht : t ≠ new_t := by
    rintro rfl
    rw [show s.thread t = none from hfree] at hcaller
    cases hcaller
  obtain ⟨fields, s₃, hm₃, h₃⟩ := bind_ok.mp h₂
  obtain ⟨hfields, rfl⟩ := getProcess_ok hm₃
  simp only [Function.update_of_ne hp] at hfields
  cases hsource.symm.trans hfields
  obtain ⟨⟨handle', handles⟩, s₄, hm₄, h₄⟩ := bind_ok.mp h₃
  obtain ⟨hallocate, rfl⟩ := onHandles_ok hm₄
  obtain ⟨_, s₅, hm₅, h₅⟩ := bind_ok.mp h₄
  cases hm₅
  obtain ⟨caller, s₆, hm₆, h₆⟩ := bind_ok.mp h₅
  obtain ⟨hcaller', rfl⟩ := getThread_ok hm₆
  simp only [Function.update_of_ne ht] at hcaller'
  cases hcaller.symm.trans hcaller'
  obtain ⟨_, s₇, hm₇, h₇⟩ := bind_ok.mp h₆
  cases hm₇
  obtain ⟨child, s₈, hm₈, h₈⟩ := bind_ok.mp h₇
  obtain ⟨hchild, rfl⟩ := getThread_ok hm₈
  simp only [Function.update_of_ne ht.symm, Function.update_self, Option.some.injEq] at hchild
  obtain ⟨_, s₉, hm₉, h₉⟩ := bind_ok.mp h₈
  cases hm₉
  cases h₉
  refine ⟨⟨hnone, hfree, hlast⟩, ⟨source, table, handles, hsource, htable, hallocate, ?_, ?_⟩,
    ⟨thread, BitVec.ofNat 32 (frame * PAGE_SIZE), hcaller, ?_, ?_⟩, ⟨machine, frame, addr, hpages,
    hframe⟩, hfpu⟩
  · simp only [Function.update_of_ne hp.symm, Function.update_self]
  · simp only [Function.update_self]
  · simp only [Function.update_self, ← hchild]
  · simp only [Function.update_of_ne ht, Function.update_self]

end

section

variable {objectType : Nat → ObjectType} {s s' : System} {p t new_p new_t : Nat}
  {fresh : Fpu.FpuContext} {handle : Option Nat}

theorem ForkResult.pages (h : ForkResult objectType p t new_p new_t fresh s handle s')
    (hs : Reached s.machine) : view s'.machine new_p = view s'.machine p := by
  obtain ⟨machine, frame, addr, hfork, hframe⟩ := h.machine
  obtain ⟨source, _, _, hsource, -⟩ := h.process
  have hne : p ≠ new_p := by
    rintro rfl
    rw [h.unused.1] at hsource
    cases hsource
  obtain ⟨slack, hinv, hpriv⟩ := hs.inv
  obtain ⟨hinv', -, hview⟩ := (UserAccesses.fork_eager hinv hpriv new_p p).of_ok hfork
  obtain ⟨hsame, -⟩ := (KernelPages.getPhysMem_kernel hinv' addr).of_ok hframe
  rw [hsame, hview, Function.update_self, Function.update_of_ne hne]

theorem handleGet_forked {source table handles : HandleTable Nat} {o h : Nat}
    (hs : WellFormed source) (hfork : handleForkTable source = .ok table)
    (hallocate : handleAllocate objectType source o = .ok (handle, handles))
    (hne : some h ≠ handle) : handleGet table h = handleGet handles h := by
  obtain ⟨table', htable, hwf, heq⟩ := handleForkTable_eq hs
  cases hfork.symm.trans htable
  rcases handleAllocate_eq objectType hs o with ⟨i, handles', hok, hwf', -, heq'⟩ | hok
  · cases hallocate.symm.trans hok
    have hi : h ≠ i := fun hi => hne (congrArg some hi)
    rw [handleGet_eq hwf, handleGet_eq hwf', heq, heq', Function.update_of_ne hi]
  · cases hallocate.symm.trans hok
    rw [handleGet_eq hwf, handleGet_eq hs, heq]

theorem Reachable.wellFormed (hs : Reachable objectType s) {process : ProcessFields}
    (hp : s.process p = some process) : WellFormed process.handles := by
  obtain ⟨base, tables, maps, hreached, hmem⟩ := hs.handles p process hp
  exact hreached.consistent.wellFormed _ hmem

/-- The program arguments and the environment variables are forgotten by a fork, and so is one
of the two contexts of the FPU if the thread has it. -/
theorem fork_identical_iff {process : ProcessFields} (hs : Reachable objectType s)
    (hp : s.process p = some process)
    (hok : syscallFork objectType p t new_p new_t fresh s = .ok (handle, s')) :
    Identical s' p t new_p new_t handle ↔
      (process.user_programArgumentsBase = 0 ∧ process.user_programArgumentsLength = 0) ∧
      (process.user_environmentVariablesBase = 0 ∧ process.user_environmentVariablesLength = 0) ∧
      (s.fpu.lastFPUthread = some t → s.fpu.registers = .initial) := by
  have h := syscallFork_ok hok
  obtain ⟨source, table, handles, hsource, hfork, hallocate, hchild, hparent⟩ := h.process
  cases hp.symm.trans hsource
  obtain ⟨thread, cr3, -, hnew, hold⟩ := h.thread
  have hfpu := threadFork_context h.fpu h.unused.2.2
  constructor
  · intro hidentical
    have harguments := hidentical.programArguments
    have hvariables := hidentical.environmentVariables
    rw [hchild, hparent] at harguments hvariables
    simp only [Option.map_some, Option.some.injEq, Prod.mk.injEq,
      childFields] at harguments hvariables
    exact ⟨⟨harguments.1.symm, harguments.2.symm⟩, ⟨hvariables.1.symm, hvariables.2.symm⟩,
      hfpu.mp hidentical.fpu⟩
  · rintro ⟨⟨hbase, hlength⟩, ⟨hbase', hlength'⟩, hcontext⟩
    refine ⟨?_, h.pages hs.machine, fun i hi => ?_, ?_, ?_, ?_, hfpu.mpr hcontext⟩
    · rw [hnew, hold]
      rfl
    · rw [hchild, hparent]
      exact congrArg some (handleGet_forked (hs.wellFormed hp) hfork hallocate hi)
    · rw [hnew, hold]
      rfl
    · rw [hchild, hparent]
      simp only [Option.map_some, childFields, hbase, hlength]
    · rw [hchild, hparent]
      simp only [Option.map_some, childFields, hbase', hlength']

end

section

/-! A process whose thread has not used the FPU yet. -/

def sampleProcess (programArguments : BitVec 32) : ProcessFields :=
  { childFields handleTableInit with
    user_programArgumentsBase := programArguments
    user_programArgumentsLength := if programArguments = 0 then 0 else 1 }

def sampleFpu : Fpu.System :=
  { Fpu.System.boot .initial with
    threads := Function.update (fun _ => none) 0 (some ⟨some 0, false, .initial⟩)
    processThreads := Function.update (fun _ => []) 0 [0]
    running := some 0 }

def sampleSystem (programArguments : BitVec 32) (machine : Machine) : System where
  machine := machine
  fpu := sampleFpu
  process := Function.update (fun _ => none) 0 (some (sampleProcess programArguments))
  thread := Function.update (fun _ => none) 0 (some ⟨0, 0, 0, 0, {}⟩)

def sampleFork (programArguments : BitVec 32) (machine : Machine) : Option (Option Nat) :=
  (syscallFork (fun _ => .process) 0 0 1 1 .initial
    (sampleSystem programArguments machine)).toOption.map
    Prod.fst

theorem sampleFork_facts : ((pagingInit [] sampleMachine).toOption.bind fun r =>
    (run next r.2 sampleEvents).toOption.map fun r =>
      (sampleFork 0 r.1, sampleFork 0xFFBFE000 r.1)) = some (some (some 3), some (some 3)) := by
  decide +kernel

theorem reachable_sample {s : Machine} (programArguments : BitVec 32) (h : PagingRuns.Reached s) :
    Reachable (fun _ => .process) (sampleSystem programArguments s) := by
  refine ⟨h, fun p process hp => ?_⟩
  refine ⟨fun _ => 0, _, _, Handles.Reached.call .init .start trivial rfl, ?_⟩
  rcases eq_or_ne p 0 with rfl | hne
  · cases hp
    exact List.mem_singleton_self _
  · simp [sampleSystem, Function.update_of_ne hne] at hp

theorem sampleFork_eq {s : Machine} {programArguments : BitVec 32} {handle : Option Nat}
    (h : sampleFork programArguments s = some handle) :
    ∃ s', syscallFork (fun _ => .process) 0 0 1 1 .initial (sampleSystem programArguments s) =
      .ok (handle, s') := by
  obtain ⟨⟨handle', s'⟩, hok, rfl⟩ := Option.map_eq_some_iff.mp h
  exact ⟨s', toOption_eq_some hok⟩

theorem fork_identical_iff_sample : ∃ s s' handle, Reachable (fun _ => .process) s ∧
    syscallFork (fun _ => .process) 0 0 1 1 .initial s = .ok (handle, s') ∧
    Identical s' 0 0 1 1 handle := by
  obtain ⟨⟨_, s₀⟩, hinit, hfacts⟩ := Option.bind_eq_some_iff.mp sampleFork_facts
  obtain ⟨⟨s, _⟩, hrun, hfacts⟩ := Option.map_eq_some_iff.mp hfacts
  have hs := reachable_sample 0 (reached_sample (toOption_eq_some hinit) (toOption_eq_some hrun))
  obtain ⟨s', hok⟩ := sampleFork_eq (Prod.mk.inj hfacts).1
  refine ⟨_, s', _, hs, hok, ?_⟩
  exact (fork_identical_iff hs rfl hok).mpr ⟨⟨rfl, rfl⟩, ⟨rfl, rfl⟩, nofun⟩

/-- The child asks for its program arguments and gets no address. -/
theorem fork_not_identical : ∃ s s' handle, Reachable (fun _ => .process) s ∧
    syscallFork (fun _ => .process) 0 0 1 1 .initial s = .ok (handle, s') ∧
    (s'.process 0).map (·.user_programArgumentsBase) = some 0xFFBFE000 ∧
    (s'.process 1).map (·.user_programArgumentsBase) = some 0 ∧
    ¬Identical s' 0 0 1 1 handle := by
  obtain ⟨⟨_, s₀⟩, hinit, hfacts⟩ := Option.bind_eq_some_iff.mp sampleFork_facts
  obtain ⟨⟨s, _⟩, hrun, hfacts⟩ := Option.map_eq_some_iff.mp hfacts
  have hs := reachable_sample 0xFFBFE000
    (reached_sample (toOption_eq_some hinit) (toOption_eq_some hrun))
  obtain ⟨s', hok⟩ := sampleFork_eq (Prod.mk.inj hfacts).2
  obtain ⟨source, table, handles, hsource, -, -, hchild, hparent⟩ := (syscallFork_ok hok).process
  cases hsource
  refine ⟨_, s', _, hs, hok, ?_, ?_, fun hidentical => ?_⟩
  · rw [hparent]
    rfl
  · rw [hchild]
    rfl
  · have harguments := hidentical.programArguments
    rw [hparent, hchild] at harguments
    simp [sampleProcess, childFields] at harguments

end

end Ibnos.ProcessForks
