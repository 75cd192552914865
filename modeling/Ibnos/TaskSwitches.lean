import Ibnos.InterruptTables
import Ibnos.Runs

/-!
How the kernel lets a thread run: the processor switches to the task of the thread, and every
interrupt of the thread switches back.
-/

namespace Ibnos.TaskSwitches

open Ibnos.Instructions
open Ibnos.StackFrames
open Ibnos.InterruptStubs
open Ibnos.Runs

def PAGE_SIZE : Nat := 0x1000

def USERMODE_KERNELSTACK_ADDRESS : Address := 0xFF800000

def USERMODE_KERNELSTACK_LIMIT : Address :=
  USERMODE_KERNELSTACK_ADDRESS + BitVec.ofNat 32 PAGE_SIZE

def GDT_CPL_RING3 : BitVec 2 := 3

/-- The fields of `struct taskContext` which are used here. -/
structure Task extends TaskContext where
  esp0 : BitVec 32
  ss0 : BitVec 16
  deriving DecidableEq

/-- `gdtGetEntryOffset` of the entries for the kernel. -/
structure Selectors where
  codeRing0 : BitVec 16
  dataRing0 : BitVec 16
  kernelTask : BitVec 16

/-! The processor. -/

/-- The registers of a task. Every switch sets the flag `TS`. -/
def loadTask (task : Task) (m : Memory) : Cpu where
  register
    | .eax => task.eax
    | .ecx => task.ecx
    | .edx => task.edx
    | .ebx => task.ebx
    | .esp => task.esp
    | .ebp => task.ebp
    | .esi => task.esi
    | .edi => task.edi
  segment
    | .es => task.es
    | .cs => task.cs
    | .ss => task.ss
    | .ds => task.ds
    | .fs => task.fs
    | .gs => task.gs
  eip := task.eip
  eflags := task.eflags
  cr3 := task.cr3
  taskSwitched := true
  memory := m

/-- The processor does not write `cr3` and the stack for the kernel. -/
def saveTask (task : Task) (c : Cpu) : Task :=
  { task with
    eip := c.eip
    eflags := c.eflags
    eax := c.register .eax
    ecx := c.register .ecx
    edx := c.register .edx
    ebx := c.register .ebx
    esp := c.register .esp
    ebp := c.register .ebp
    esi := c.register .esi
    edi := c.register .edi
    es := c.segment .es
    cs := c.segment .cs
    ss := c.segment .ss
    ds := c.segment .ds
    fs := c.segment .fs
    gs := c.segment .gs }

/-- An interrupt of a process, on the stack which the task has for the kernel. Nothing is said
about the upper halves of what is pushed with `ss` and `cs`. -/
def userInterrupt (g : Gate) (task : Task) (pad pad' : BitVec 16) (error : Option (BitVec 32))
    (c : Cpu) : Cpu :=
  let c₀ := c.set .esp task.esp0
  let c₁ := ((c₀.push (pad ++ c.segment .ss)).push c.esp).push c.eflags
  let c₂ := (c₁.push (pad' ++ c.segment .cs)).push c.eip
  let c₃ := match error with
    | some e => c₂.push e
    | none => c₂
  { c₃ with
    eip := g.offset
    segment := Function.update (Function.update c.segment .ss task.ss0) .cs g.selector
    eflags := c.eflags &&& ~~~clearedFlags }

/-- The interrupt `i`, with the error code `e` if it has one. -/
def deliverUser (task : Task) (i : Nat) (e : BitVec 32) (pad pad' : BitVec 16) (c : Cpu) : Cpu :=
  userInterrupt (gate c.memory (USERMODE_IDT_ADDRESS + BitVec.ofNat 32 (8 * i))) task pad pad'
    (if isErrorCodeInterrupt i then some e else none) c

/-! The kernel. -/

/-- One word behind the other. -/
def storeWords (m : Memory) (a : Address) : List (BitVec 32) → Memory
  | [] => m
  | w :: ws => storeWords (store m a w) (a + 4#32) ws

/-- The memory `m`, where a page from `a` on is the page of `m'` from `b` on. -/
def shared (a : Address) (m' : Memory) (b : Address) (m : Memory) : Memory := fun x =>
  if (x - a).toNat < PAGE_SIZE then m' (b + (x - a)) else m x

/-- `tssRunUsermodeThread` in front of `__runUserModeTask`: `TSS_user` and the memory of the
kernel, with the page `kernelStack`. -/
def runUsermodeThread (s : Selectors) (kernelStack : Address) (task : Task) (isLastFPUthread : Bool)
    (k : Memory) : Task × Memory :=
  if isLastFPUthread then
    ({ task with
        eip := USERMODE_INTJMP_ENABLE_FPU
        cs := s.codeRing0
        eflags := 0
        esp := USERMODE_KERNELSTACK_LIMIT - 20#32
        ss := s.dataRing0 },
      storeWords k (kernelStack + BitVec.ofNat 32 PAGE_SIZE - 20#32)
        [task.eip, task.cs.setWidth 32, task.eflags, task.esp, task.ss.setWidth 32])
  else (task, k)

inductive Stop
  | assertion
  | usermodeInterruptInvalid
  /-- The processor does something else. -/
  | processor
  deriving DecidableEq, Repr

def argument (k : Memory) (args : Address) (n : Nat) : BitVec 32 :=
  load k (args + BitVec.ofNat 32 (4 * n))

/-- The task with the registers from `args[n]` on. -/
def interruptedTask (k : Memory) (args : Address) (tss : Task) (n : Nat) : Task :=
  { tss with
    eip := argument k args n
    cs := (argument k args (n + 1)).setWidth 16
    eflags := argument k args (n + 2)
    esp := argument k args (n + 3)
    ss := (argument k args (n + 4)).setWidth 16 }

/-- `tssRunUsermodeThread` behind it, up to the call of `dispatchInterrupt`: the arguments of the
call and the new `t->task`. -/
def dispatchThread (kernelStack : Address) (tss : Task) (k : Memory) :
    Except Stop (BitVec 32 × BitVec 32 × Task) := do
  if tss.ss ≠ tss.ss0 then throw .assertion
  let offset := tss.eip - (USERMODE_INTJMP_ADDRESS + 7#32)
  if offset &&& 7#32 ≠ 0 then throw .assertion
  let interrupt := offset >>> 3
  if interrupt &&& ~~~255#32 ≠ 0 then throw .assertion
  let args := kernelStack + tss.esp - USERMODE_KERNELSTACK_ADDRESS
  let (error, task) ←
    if tss.esp = USERMODE_KERNELSTACK_LIMIT - 24#32 then
      pure (argument k args 0, interruptedTask k args tss 1)
    else if tss.esp = USERMODE_KERNELSTACK_LIMIT - 20#32 then
      pure (0#32, interruptedTask k args tss 0)
    else throw .usermodeInterruptInvalid
  if privilege task.cs ≠ GDT_CPL_RING3 then throw .assertion
  if privilege task.ss ≠ GDT_CPL_RING3 then throw .assertion
  return (interrupt, error, task)

/-! Threads which take turns. -/

/-- What a far jump to the task `selector` saves. -/
def jumpToTask (selector : BitVec 16) (c : Cpu) : Option Cpu :=
  match decode (fetch c.memory c.eip) with
  | some (.jumpFar selector' _, n) =>
      if selector' = selector then some { c with eip := c.eip + BitVec.ofNat 32 n } else none
  | _ => none

/-- What a thread sees of the processor, besides the memory. -/
structure Registers where
  register : Register → BitVec 32
  segment : Segment → BitVec 16
  eip : Address
  eflags : BitVec 32
  cr3 : BitVec 32
  taskSwitched : Bool

def registers (c : Cpu) : Registers where
  register := c.register
  segment := c.segment
  eip := c.eip
  eflags := c.eflags
  cr3 := c.cr3
  taskSwitched := c.taskSwitched

/-- A thread runs up to an interrupt. The memories are those at the start of the turn. -/
structure Turn where
  thread : Nat
  isLastFPUthread : Bool
  kernel : Memory
  process : Memory
  /-- the processor when the interrupt comes -/
  interrupted : Cpu
  number : Nat
  error : BitVec 32
  pad : BitVec 16
  pad' : BitVec 16
  /-- what `dispatchInterrupt` does with the registers -/
  handler : BitVec 32 → BitVec 32 → Task → Task

/-- `tssRunUsermodeThread`, with the registers which the thread starts with. -/
def takeTurn (env : Environment) (s : Selectors) (kernelStack : Address) (tasks : Nat → Task)
    (turn : Turn) : Except Stop ((Nat → Task) × Registers) := do
  let (tss, k) := runUsermodeThread s kernelStack (tasks turn.thread) turn.isLastFPUthread
    turn.kernel
  let m := shared USERMODE_KERNELSTACK_ADDRESS k kernelStack turn.process
  match steps env (if turn.isLastFPUthread then 2 else 0) (loadTask tss m),
      jumpToTask s.kernelTask
        (deliverUser tss turn.number turn.error turn.pad turn.pad' turn.interrupted) with
  | some c, some c' =>
      let (interrupt, error, task) ← dispatchThread kernelStack (saveTask tss c')
        (shared kernelStack c'.memory USERMODE_KERNELSTACK_ADDRESS k)
      return (Function.update tasks turn.thread (turn.handler interrupt error task), registers c)
  | _, _ => throw .processor

section

variable {s : Selectors} {kernelStack a b x : Address} {task : Task} {k m p : Memory} {c : Cpu}
  {ws : List (BitVec 32)} {n j i : Nat} {e : BitVec 32} {pad pad' : BitVec 16}

theorem shared_apply (h : j < PAGE_SIZE) :
    shared a k b m (a + BitVec.ofNat 32 j) = k (b + BitVec.ofNat 32 j) := by
  rw [PAGE_SIZE] at h
  rw [shared, add_sub_cancel_left, if_pos (by rw [BitVec.toNat_ofNat, PAGE_SIZE]; omega)]

theorem load_shared (h : j + 3 < PAGE_SIZE) :
    load (shared a k b m) (a + BitVec.ofNat 32 j) = load k (b + BitVec.ofNat 32 j) := by
  have hbyte : ∀ i < 4, shared a k b m (a + BitVec.ofNat 32 j + BitVec.ofNat 32 i) =
      k (b + BitVec.ofNat 32 j + BitVec.ofNat 32 i) := by
    intro i hi
    rw [add_assoc, add_assoc, ← BitVec.ofNat_add]
    exact shared_apply (by omega)
  have h₀ := hbyte 0 (by decide)
  simp only [BitVec.add_zero] at h₀
  rw [load, load, h₀, hbyte 1 (by decide), hbyte 2 (by decide), hbyte 3 (by decide)]

theorem storeWords_frame (h : 4 * ws.length ≤ (x - a).toNat) : storeWords m a ws x = m x := by
  induction ws generalizing m a with
  | nil => rfl
  | cons w ws ih =>
      have hlt := (x - a).isLt
      rw [List.length_cons] at h
      rw [storeWords, ih, store, storeBytes_frame]
      · exact (show 4 ≤ 4 * (ws.length + 1) by omega).trans h
      · rw [sub_add_eq_sub_sub]
        bv_omega

theorem load_storeWords (hws : 4 * ws.length ≤ 2 ^ 32) (hj : j < ws.length) :
    load (storeWords m a ws) (a + BitVec.ofNat 32 (4 * j)) = ws[j] := by
  induction ws generalizing m a j with
  | nil => cases hj
  | cons w ws ih =>
      rw [List.length_cons] at hws hj
      rw [storeWords]
      cases j with
      | zero =>
          have hload : load (storeWords (store m a w) (a + 4#32) ws) a = load (store m a w) a := by
            apply load_congr
            intro i hi
            apply storeWords_frame
            bv_omega
          simpa using hload
      | succ j =>
          have hoffset : a + BitVec.ofNat 32 (4 * (j + 1)) =
              a + 4#32 + BitVec.ofNat 32 (4 * j) := by
            rw [Nat.mul_succ, Nat.add_comm, BitVec.ofNat_add, ← add_assoc]
          rw [hoffset, ih (by omega) (by omega)]
          rfl

/-! A thread starts. -/

/-- The code for threads which own the FPU. -/
theorem enableFpu_code (h : Installed (generateUserTable s.kernelTask) s.codeRing0 m) :
    CodeAt m USERMODE_INTJMP_ENABLE_FPU [0x0F, 0x06] ∧
      CodeAt m (USERMODE_INTJMP_ENABLE_FPU + 2#32) [0xCF] :=
  codeAt_append (h.code_behind (by decide))

theorem shared_installed (h : Installed (generateUserTable s.kernelTask) s.codeRing0 p) :
    Installed (generateUserTable s.kernelTask) s.codeRing0
      (shared USERMODE_KERNELSTACK_ADDRESS k kernelStack p) := by
  apply h.congr
  intro x hx
  rw [shared, if_neg]
  rw [IsTable, USERMODE_IDT_ADDRESS] at hx
  rw [USERMODE_KERNELSTACK_ADDRESS, PAGE_SIZE]
  bv_omega

/-- A task of user mode, which enters the kernel on the stack of the kernel. -/
structure UserTask (task : Task) : Prop where
  cs : privilege task.cs = GDT_CPL_RING3
  ss : privilege task.ss = GDT_CPL_RING3
  esp0 : task.esp0 = USERMODE_KERNELSTACK_LIMIT

theorem load_arguments (ws : List (BitVec 32)) (hws : ws.length = 5) (hj : j < 5) :
    load (shared USERMODE_KERNELSTACK_ADDRESS
        (storeWords k (kernelStack + BitVec.ofNat 32 PAGE_SIZE - 20#32) ws) kernelStack p)
      (USERMODE_KERNELSTACK_LIMIT - 20#32 + BitVec.ofNat 32 (4 * j)) = ws[j] := by
  have hoffset : ∀ a : Address, a + BitVec.ofNat 32 PAGE_SIZE - 20#32 + BitVec.ofNat 32 (4 * j) =
      a + BitVec.ofNat 32 (4076 + 4 * j) := by
    intro a
    rw [PAGE_SIZE]
    bv_omega
  have hload := load_shared (j := 4076 + 4 * j) (a := USERMODE_KERNELSTACK_ADDRESS)
    (b := kernelStack) (m := p)
    (k := storeWords k (kernelStack + BitVec.ofNat 32 PAGE_SIZE - 20#32) ws)
    (by rw [PAGE_SIZE]; omega)
  rw [USERMODE_KERNELSTACK_LIMIT, hoffset, hload, ← hoffset kernelStack]
  exact load_storeWords (by omega) (by omega)

theorem lower_setWidth (u : BitVec 16) : (u.setWidth 32).extractLsb' 0 16 = u := by
  apply BitVec.eq_of_getLsbD_eq
  intro i hi
  have hlt : i < 32 := by omega
  simp [hi, hlt]

/-- `iret` to another privilege level. -/
theorem iret_outer (h : privilege (loadHalf c.memory (c.esp + 4#32)) ≠ privilege (c.segment .cs)) :
    c.iret = { c with
      eip := load c.memory c.esp
      eflags := load c.memory (c.esp + 8#32)
      register := Function.update c.register .esp (load c.memory (c.esp + 12#32))
      segment := Function.update (Function.update c.segment .cs (loadHalf c.memory (c.esp + 4#32)))
        .ss (loadHalf c.memory (c.esp + 16#32)) } := by
  rw [Cpu.iret, if_neg h]
  rfl

/-- The instructions of the kernel end with the registers of the thread. -/
theorem iret_user (hring : privilege s.codeRing0 = 0) (huser : UserTask task)
    (hargument : ∀ j (hj : j < 5), load m (USERMODE_KERNELSTACK_LIMIT - 20#32 +
      BitVec.ofNat 32 (4 * j)) =
        [task.eip, task.cs.setWidth 32, task.eflags, task.esp, task.ss.setWidth 32][j])
    (a : Address) :
    Cpu.iret { loadTask { task with
        eip := USERMODE_INTJMP_ENABLE_FPU
        cs := s.codeRing0
        eflags := 0
        esp := USERMODE_KERNELSTACK_LIMIT - 20#32
        ss := s.dataRing0 } m with eip := a, taskSwitched := false } =
      { loadTask task m with taskSwitched := false } := by
  have heip : load m (USERMODE_KERNELSTACK_LIMIT - 20#32) = task.eip := by
    have hzero : USERMODE_KERNELSTACK_LIMIT - 20#32 =
        USERMODE_KERNELSTACK_LIMIT - 20#32 + BitVec.ofNat 32 (4 * 0) := by decide
    rw [hzero]
    exact hargument 0 (by decide)
  have hcs : loadHalf m (USERMODE_KERNELSTACK_LIMIT - 20#32 + 4#32) = task.cs := by
    rw [loadHalf_eq]
    exact (congrArg _ (hargument 1 (by decide))).trans (lower_setWidth _)
  have hss : loadHalf m (USERMODE_KERNELSTACK_LIMIT - 20#32 + 16#32) = task.ss := by
    rw [loadHalf_eq]
    exact (congrArg _ (hargument 4 (by decide))).trans (lower_setWidth _)
  have hprivilege : privilege task.cs ≠ privilege s.codeRing0 := by
    rw [huser.cs, hring]
    decide
  rw [iret_outer]
  · apply Cpu.ext
    · funext r
      cases r with
      | esp => exact hargument 3 (by decide)
      | _ => rfl
    · funext g
      cases g with
      | cs => exact hcs
      | ss => exact hss
      | _ => rfl
    · exact heip
    · exact hargument 2 (by decide)
    · rfl
    · rfl
    · rfl
  · intro h
    exact hprivilege ((congrArg privilege hcs).symm.trans h)

/-- The processor gets the registers of the thread. -/
theorem runUsermodeThread_starts (env : Environment) (kernelStack : Address) (k : Memory)
    (hinstalled : Installed (generateUserTable s.kernelTask) s.codeRing0 p)
    (hring : privilege s.codeRing0 = 0) (huser : UserTask task) (isLastFPUthread : Bool) :
    let (tss, k') := runUsermodeThread s kernelStack task isLastFPUthread k
    let m := shared USERMODE_KERNELSTACK_ADDRESS k' kernelStack p
    steps env (if isLastFPUthread then 2 else 0) (loadTask tss m) =
      some { loadTask task m with taskSwitched := !isLastFPUthread } := by
  cases isLastFPUthread with
  | false => rfl
  | true =>
      simp only [runUsermodeThread, if_true, Bool.not_true]
      generalize hm : shared USERMODE_KERNELSTACK_ADDRESS _ kernelStack p = m
      have hargument : ∀ j (hj : j < 5),
          load m (USERMODE_KERNELSTACK_LIMIT - 20#32 + BitVec.ofNat 32 (4 * j)) =
          [task.eip, task.cs.setWidth 32, task.eflags, task.esp, task.ss.setWidth 32][j] := by
        intro j hj
        rw [← hm]
        exact load_arguments _ rfl hj
      have hcode : Installed (generateUserTable s.kernelTask) s.codeRing0 m := by
        rw [← hm]
        exact shared_installed hinstalled
      obtain ⟨hclts, hiret⟩ := enableFpu_code hcode
      rw [steps, step_line (l := ([0x0F, 0x06], .clts)) env ⟨by decide, fun _ => rfl⟩ hclts,
        Option.bind_some, steps,
        step_line (l := ([0xCF], .iret)) env ⟨by decide, fun _ => rfl⟩ hiret, Option.bind_some,
        steps]
      exact congrArg some (iret_user hring huser hargument _)

/-! A thread is interrupted. -/

/-- The lowest address which an interrupt of a process writes. -/
def kernelFrame (task : Task) : Address := task.esp0 - 24#32

/-- What the processor pushes, and the registers. -/
structure Pushed (task : Task) (pad pad' : BitVec 16) (g : Gate) (c : Cpu) (f : Frame) : Prop where
  eip : f.eip = g.offset
  register : ∀ r, r ≠ .esp → f.register r = c.register r
  segment : f.segment = Function.update (Function.update c.segment .ss task.ss0) .cs g.selector
  pushedEip : f.cells 1 = c.eip
  pushedCs : f.cells 2 = pad' ++ c.segment .cs
  pushedEflags : f.cells 3 = c.eflags
  pushedEsp : f.cells 4 = c.esp
  pushedSs : f.cells 5 = pad ++ c.segment .ss

theorem shows_userInterrupt (g : Gate) (task : Task) (pad pad' : BitVec 16)
    (error : Option (BitVec 32)) (c : Cpu) :
    (∃ f, Pushed task pad pad' g c f ∧ match error with
      | some e => f.cells 0 = e ∧
          Shows (kernelFrame task) 6 0 f (userInterrupt g task pad pad' error c)
      | none => Shows (kernelFrame task) 6 4 f (userInterrupt g task pad pad' error c)) ∧
      ∀ x, Outside (kernelFrame task) 6 x →
        (userInterrupt g task pad pad' error c).memory x = c.memory x := by
  have hn : 4 * 6 ≤ 2 ^ 32 := by decide
  have hesp : (c.set .esp task.esp0).esp = kernelFrame task + BitVec.ofNat 32 24 := by
    rw [kernelFrame]
    exact (sub_add_cancel _ _).symm
  obtain ⟨h₁, hframe₁⟩ := (shows_frameAt hesp).push (n := 6) (v := pad ++ c.segment .ss) hn rfl
  obtain ⟨h₂, hframe₂⟩ := h₁.push (v := c.esp) hn rfl
  obtain ⟨h₃, hframe₃⟩ := h₂.push (v := c.eflags) hn rfl
  obtain ⟨h₄, hframe₄⟩ := h₃.push (v := pad' ++ c.segment .cs) hn rfl
  obtain ⟨h₅, hframe₅⟩ := h₄.push (v := c.eip) hn rfl
  have hframe := fun x hx => (hframe₅ x hx).trans ((hframe₄ x hx).trans
    ((hframe₃ x hx).trans ((hframe₂ x hx).trans (hframe₁ x hx))))
  cases error with
  | none =>
      refine ⟨⟨_, ?_, h₅.jump _ _ _⟩, hframe⟩
      refine ⟨rfl, ?_, rfl, ?_, ?_, ?_, ?_, ?_⟩
      · intro r hr
        simp [Frame.put, frameAt, Cpu.set, hr]
      all_goals simp [Frame.put]
  | some e =>
      obtain ⟨h₆, hframe₆⟩ := h₅.push (v := e) hn rfl
      refine ⟨⟨_, ?_, ?_, h₆.jump _ _ _⟩, fun x hx => (hframe₆ x hx).trans (hframe x hx)⟩
      · refine ⟨rfl, ?_, rfl, ?_, ?_, ?_, ?_, ?_⟩
        · intro r hr
          simp [Frame.put, frameAt, Cpu.set, hr]
        all_goals simp [Frame.put]
      · simp [Frame.put]

theorem userStub_encodes (kernelTask : BitVec 16) :
    Encodes (0xEA :: wordBytes 0 ++ halfBytes kernelTask, .jumpFar kernelTask 0) := by
  refine ⟨by simp [wordBytes, halfBytes, MAX_LENGTH], fun more => ?_⟩
  exact congrArg (fun selector => some (Instruction.jumpFar selector 0, 7))
    (append_half_bytes kernelTask)

theorem entry_offset (i : Nat) :
    entryAddress i + 7#32 - (USERMODE_INTJMP_ADDRESS + 7#32) = BitVec.ofNat 32 (8 * i) := by
  rw [add_sub_add_right_eq_sub, entryAddress, add_sub_cancel_left, INTJMP_ENTRY_SIZE]

/-- The kernel computes the number of the interrupt. -/
theorem interrupt_number (hi : i < IDT_MAX_COUNT) :
    BitVec.ofNat 32 (8 * i) &&& 7#32 = 0 ∧ BitVec.ofNat 32 (8 * i) >>> 3 = BitVec.ofNat 32 i ∧
      BitVec.ofNat 32 i &&& ~~~255#32 = 0 := by
  revert i
  decide +kernel

/-- The arguments which the kernel reads are those which the processor pushed. -/
theorem argument_eq (kernelStack : Address) (k : Memory) {f : Frame} {o : BitVec 32}
    (h : Shows (kernelFrame task) 6 j { f with eip := a } c)
    (hesp0 : task.esp0 = USERMODE_KERNELSTACK_LIMIT)
    (ho : c.esp = USERMODE_KERNELSTACK_LIMIT - o) (hn : n < 6)
    (hoffset : 24#32 - o + BitVec.ofNat 32 (4 * i) = BitVec.ofNat 32 (4 * n)) :
    argument (shared kernelStack c.memory USERMODE_KERNELSTACK_ADDRESS k)
      (kernelStack + c.esp - USERMODE_KERNELSTACK_ADDRESS) i = f.cells n := by
  have haddress : ∀ a : Address, a + BitVec.ofNat 32 (4072 + 4 * n) =
      a + BitVec.ofNat 32 PAGE_SIZE - 24#32 + BitVec.ofNat 32 (4 * n) := by
    intro a
    rw [PAGE_SIZE]
    bv_omega
  have hkernel : kernelStack + c.esp - USERMODE_KERNELSTACK_ADDRESS + BitVec.ofNat 32 (4 * i) =
      kernelStack + BitVec.ofNat 32 (4072 + 4 * n) := by
    rw [haddress, ho, USERMODE_KERNELSTACK_LIMIT, ← hoffset]
    generalize BitVec.ofNat 32 (4 * i) = d
    grind
  rw [argument, hkernel, load_shared (by rw [PAGE_SIZE]; omega), haddress]
  refine Eq.trans ?_ (h.cells n hn)
  rw [cell, kernelFrame, hesp0]
  rfl

/-- The task has all registers of the thread again. -/
theorem interruptedTask_eq {f : Frame} {g : Gate} {c' : Cpu} {args a : Address}
    (hpushed : Pushed task pad pad' g c f)
    (h : Shows (kernelFrame task) 6 j { f with eip := a } c')
    (hargument : ∀ i < 5, argument k args (n + i) = f.cells (i + 1)) :
    interruptedTask k args (saveTask task c') n = saveTask task c := by
  have hlower : ∀ u v : BitVec 16, (u ++ v).setWidth 16 = v := by
    intro u v
    apply BitVec.eq_of_getLsbD_eq
    intro i hi
    simp only [BitVec.getLsbD_setWidth, BitVec.getLsbD_append, hi, decide_true, Bool.true_and,
      if_true]
  have heip : argument k args n = c.eip := (hargument 0 (by decide)).trans hpushed.pushedEip
  have hcs : (argument k args (n + 1)).setWidth 16 = c.segment .cs := by
    rw [hargument 1 (by decide), hpushed.pushedCs, hlower]
  have heflags : argument k args (n + 2) = c.eflags :=
    (hargument 2 (by decide)).trans hpushed.pushedEflags
  have hesp : argument k args (n + 3) = c.esp := (hargument 3 (by decide)).trans hpushed.pushedEsp
  have hss : (argument k args (n + 4)).setWidth 16 = c.segment .ss := by
    rw [hargument 4 (by decide), hpushed.pushedSs, hlower]
  rw [interruptedTask, heip, hcs, heflags, hesp, hss]
  simp [saveTask, h.register, h.segment, hpushed.register, hpushed.segment]
  rfl

/-- The kernel finds out what was interrupted. -/
theorem dispatchThread_eq {f : Frame} {g : Gate} {c' : Cpu} {error : BitVec 32}
    (hpushed : Pushed task pad pad' g c f)
    (h : Shows (kernelFrame task) 6 j { f with eip := entryAddress i + 7#32 } c')
    (hi : i < IDT_MAX_COUNT) (hesp0 : task.esp0 = USERMODE_KERNELSTACK_LIMIT)
    (hcs : privilege (c.segment .cs) = GDT_CPL_RING3)
    (hss : privilege (c.segment .ss) = GDT_CPL_RING3)
    (htop : j = 0 ∧ f.cells 0 = error ∨ j = 4 ∧ error = 0) :
    dispatchThread kernelStack (saveTask task c')
        (shared kernelStack c'.memory USERMODE_KERNELSTACK_ADDRESS k) =
      .ok (BitVec.ofNat 32 i, error, saveTask task c) := by
  have hss0 : (saveTask task c').ss = (saveTask task c').ss0 := by
    simp [saveTask, h.segment, hpushed.segment]
  have heip : (saveTask task c').eip - (USERMODE_INTJMP_ADDRESS + 7#32) =
      BitVec.ofNat 32 (8 * i) :=
    (congrArg (· - (USERMODE_INTJMP_ADDRESS + 7#32)) h.eip).trans (entry_offset i)
  obtain ⟨hlow, hnumber, hrange⟩ := interrupt_number hi
  have hesp : c'.esp = USERMODE_KERNELSTACK_LIMIT - 24#32 + BitVec.ofNat 32 j := by
    rw [h.esp, kernelFrame, hesp0]
  have hesp' : (saveTask task c').esp = c'.esp := rfl
  have hcs' : privilege (saveTask task c).cs = GDT_CPL_RING3 := hcs
  have hss' : privilege (saveTask task c).ss = GDT_CPL_RING3 := hss
  rcases htop with ⟨rfl, rfl⟩ | ⟨rfl, rfl⟩
  · rw [BitVec.add_zero] at hesp
    have harguments : ∀ i < 5, argument
        (shared kernelStack c'.memory USERMODE_KERNELSTACK_ADDRESS k)
        (kernelStack + c'.esp - USERMODE_KERNELSTACK_ADDRESS) (1 + i) = f.cells (i + 1) := by
      intro i hi
      exact argument_eq kernelStack k h hesp0 hesp (by omega) (by rw [Nat.add_comm]; simp)
    have htask := interruptedTask_eq hpushed h harguments
    have herror := argument_eq kernelStack k h hesp0 hesp (n := 0) (i := 0) (by decide) (by decide)
    rw [hesp] at htask herror
    simp [dispatchThread, hss0, heip, hlow, hnumber, hesp', hesp, htask, herror, hcs', hss']
    exact if_pos hrange
  · have hesp₅ : c'.esp = USERMODE_KERNELSTACK_LIMIT - 20#32 := by
      rw [hesp]
      rfl
    have harguments : ∀ i < 5, argument
        (shared kernelStack c'.memory USERMODE_KERNELSTACK_ADDRESS k)
        (kernelStack + c'.esp - USERMODE_KERNELSTACK_ADDRESS) (0 + i) = f.cells (i + 1) := by
      intro i hi
      exact argument_eq kernelStack k h hesp0 hesp₅ (by omega) (by
        rw [Nat.zero_add, Nat.mul_succ, Nat.add_comm, BitVec.ofNat_add]
        rfl)
    have hne : USERMODE_KERNELSTACK_LIMIT - 20#32 ≠ USERMODE_KERNELSTACK_LIMIT - 24#32 := by decide
    have htask := interruptedTask_eq hpushed h harguments
    rw [hesp₅] at htask
    simp [dispatchThread, hss0, heip, hlow, hnumber, hesp', hesp₅, hne, htask, hcs', hss']
    exact if_pos hrange

/-- An interrupt of a thread comes to the kernel with its number and its error code, and with all
registers of the thread. -/
theorem thread_interrupted (kernelStack : Address) (k : Memory)
    (hinstalled : Installed (generateUserTable s.kernelTask) s.codeRing0 c.memory)
    (hesp0 : task.esp0 = USERMODE_KERNELSTACK_LIMIT) (hi : i < IDT_MAX_COUNT)
    (hcs : privilege (c.segment .cs) = GDT_CPL_RING3)
    (hss : privilege (c.segment .ss) = GDT_CPL_RING3) (e : BitVec 32) (pad pad' : BitVec 16) :
    ∃ c', jumpToTask s.kernelTask (deliverUser task i e pad pad' c) = some c' ∧
      dispatchThread kernelStack (saveTask task c')
          (shared kernelStack c'.memory USERMODE_KERNELSTACK_ADDRESS k) =
        .ok (BitVec.ofNat 32 i, if isErrorCodeInterrupt i then e else 0, saveTask task c) ∧
      ∀ x, Outside (kernelFrame task) 6 x → c'.memory x = c.memory x := by
  have hout : ∀ x, IsTable x → Outside (kernelFrame task) 6 x := by
    intro x hx
    rw [IsTable, USERMODE_IDT_ADDRESS] at hx
    rw [Outside, kernelFrame, hesp0, USERMODE_KERNELSTACK_LIMIT, USERMODE_KERNELSTACK_ADDRESS,
      PAGE_SIZE]
    bv_omega
  have hgate := hinstalled.gate hi
  obtain ⟨⟨f, hpushed, hshows⟩, hframe⟩ := shows_userInterrupt
    (gate c.memory (USERMODE_IDT_ADDRESS + BitVec.ofNat 32 (8 * i))) task pad pad'
    (if isErrorCodeInterrupt i then some e else none) c
  obtain ⟨j, hshows, htop⟩ : ∃ j, Shows (kernelFrame task) 6 j f (deliverUser task i e pad pad' c) ∧
      (j = 0 ∧ f.cells 0 = (if isErrorCodeInterrupt i then e else 0) ∨
        j = 4 ∧ (if isErrorCodeInterrupt i then e else 0) = 0) := by
    by_cases hcode : isErrorCodeInterrupt i = true
    · simp only [hcode, if_true] at hshows ⊢
      exact ⟨0, by simpa [deliverUser, hcode] using hshows.2, .inl ⟨rfl, hshows.1⟩⟩
    · simp only [hcode] at hshows ⊢
      exact ⟨4, by simpa [deliverUser, hcode] using hshows, .inr ⟨rfl, rfl⟩⟩
  have hcode : Installed (generateUserTable s.kernelTask) s.codeRing0
      (deliverUser task i e pad pad' c).memory :=
    hinstalled.congr fun x hx => hframe x (hout x hx)
  have heip : (deliverUser task i e pad pad' c).eip = entryAddress i :=
    congrArg Gate.offset hgate
  have hstub := (codeAt_append (hcode.stub_code (fun _ => rfl) (by decide) hi)).1
  rw [← heip] at hstub
  refine ⟨{ deliverUser task i e pad pad' c with eip := entryAddress i + 7#32 }, ?_, ?_, hframe⟩
  · obtain ⟨more, hmore⟩ := fetch_eq (userStub_encodes s.kernelTask).1 hstub
    rw [jumpToTask, hmore, (userStub_encodes s.kernelTask).2, ← heip]
    exact if_pos rfl
  · exact dispatchThread_eq hpushed ⟨rfl, hshows.esp, hshows.register, hshows.segment, hshows.cr3,
      hshows.cells⟩ hi hesp0 hcs hss htop

/-! Turns of the threads. -/

/-- What a thread should see: a processor of its own. -/
def ownTurn (own : Nat → Task) (turn : Turn) : (Nat → Task) × Registers :=
  (Function.update own turn.thread
      (turn.handler (BitVec.ofNat 32 turn.number)
        (if isErrorCodeInterrupt turn.number then turn.error else 0)
        (saveTask (own turn.thread) turn.interrupted)),
    { registers (loadTask (own turn.thread) turn.process) with
      taskSwitched := !turn.isLastFPUthread })

/-- The thread is interrupted in user mode, and stays there. -/
structure Valid (s : Selectors) (turn : Turn) : Prop where
  number : turn.number < IDT_MAX_COUNT
  process : Installed (generateUserTable s.kernelTask) s.codeRing0 turn.process
  interrupted : Installed (generateUserTable s.kernelTask) s.codeRing0 turn.interrupted.memory
  cs : privilege (turn.interrupted.segment .cs) = GDT_CPL_RING3
  ss : privilege (turn.interrupted.segment .ss) = GDT_CPL_RING3
  handler : ∀ interrupt error task, UserTask task → UserTask (turn.handler interrupt error task)

theorem runUsermodeThread_saves (kernelStack : Address) (task : Task) (isLastFPUthread : Bool)
    (k : Memory) (c : Cpu) :
    saveTask (runUsermodeThread s kernelStack task isLastFPUthread k).1 c = saveTask task c ∧
      (runUsermodeThread s kernelStack task isLastFPUthread k).1.esp0 = task.esp0 := by
  cases isLastFPUthread <;> exact ⟨rfl, rfl⟩

theorem takeTurn_eq (env : Environment) (kernelStack : Address) {tasks : Nat → Task} {turn : Turn}
    (hring : privilege s.codeRing0 = 0) (htasks : ∀ t, UserTask (tasks t)) (h : Valid s turn) :
    takeTurn env s kernelStack tasks turn = .ok (ownTurn tasks turn) := by
  have hstart := runUsermodeThread_starts env kernelStack turn.kernel h.process hring
    (htasks turn.thread) turn.isLastFPUthread
  have hesp0 := (runUsermodeThread_saves (s := s) kernelStack (tasks turn.thread)
    turn.isLastFPUthread turn.kernel turn.interrupted).2.trans (htasks turn.thread).esp0
  have hsave := (runUsermodeThread_saves (s := s) kernelStack (tasks turn.thread)
    turn.isLastFPUthread turn.kernel turn.interrupted).1
  obtain ⟨c', hjump, hdispatch, -⟩ := thread_interrupted kernelStack
    (runUsermodeThread s kernelStack (tasks turn.thread) turn.isLastFPUthread turn.kernel).2
    h.interrupted hesp0 h.number h.cs h.ss turn.error turn.pad turn.pad'
  rw [takeTurn]
  simp only at hstart ⊢
  rw [hstart, hjump]
  simp only
  rw [hdispatch, hsave]
  rfl

theorem ownTurn_keeps {tasks : Nat → Task} {turn : Turn} (htasks : ∀ t, UserTask (tasks t))
    (h : Valid s turn) (t : Nat) : UserTask ((ownTurn tasks turn).1 t) := by
  by_cases ht : t = turn.thread
  · subst ht
    simp only [ownTurn, Function.update_self]
    exact h.handler _ _ _ ⟨h.cs, h.ss, (htasks _).esp0⟩
  · simp only [ownTurn, Function.update_of_ne ht]
    exact htasks t

/-- All threads share one task of the processor and one page of stack. In every run, each of them
sees a processor of its own: it starts with the registers with which it was interrupted, and the
kernel is told which interrupt it was. -/
theorem run_turns (env : Environment) (kernelStack : Address) {tasks : Nat → Task}
    {turns : List Turn} (hring : privilege s.codeRing0 = 0) (htasks : ∀ t, UserTask (tasks t))
    (hturns : ∀ turn ∈ turns, Valid s turn) :
    run (takeTurn env s kernelStack) tasks turns = .ok (runTotal ownTurn tasks turns) := by
  induction turns generalizing tasks with
  | nil => rfl
  | cons turn turns ih =>
      have hvalid := hturns turn List.mem_cons_self
      have hturn := takeTurn_eq env kernelStack hring htasks hvalid
      have hrest := ih (ownTurn_keeps htasks hvalid) fun u hu =>
        hturns u (List.mem_cons_of_mem turn hu)
      exact bind_eq_ok.mpr ⟨_, hturn, bind_eq_ok.mpr ⟨_, hrest, rfl⟩⟩

/-- The descriptors of the kernel in the order of `gdtInit`. -/
def sampleSelectors : Selectors where
  codeRing0 := 8
  dataRing0 := 16
  kernelTask := 40

def sampleTask : Task where
  cr3 := 0x7000
  eip := 0x101000
  eflags := 0x202
  eax := 1
  ecx := 2
  edx := 3
  ebx := 4
  esp := 0x20000
  ebp := 5
  esi := 6
  edi := 7
  es := 35
  cs := 27
  ss := 35
  ds := 35
  fs := 35
  gs := 35
  esp0 := USERMODE_KERNELSTACK_LIMIT
  ss0 := 16

def sampleProcess : Memory :=
  installTables (generateUserTable sampleSelectors.kernelTask) sampleSelectors.codeRing0 fun _ => 0

/-- A thread which owns the FPU, and then makes a system call. -/
def sampleTurn (t : Nat) : Turn where
  thread := t
  isLastFPUthread := true
  kernel := fun _ => 0
  process := sampleProcess
  interrupted := loadTask { sampleTask with eip := 0x101234, eax := 17 } sampleProcess
  number := 0x80
  error := 0
  pad := 0
  pad' := 0
  handler _ _ task := { task with eax := 0 }

def sampleEnvironment : Environment where
  flags _ c := c.eflags
  switchTask _ c := c

theorem run_turns_sample :
    run (takeTurn sampleEnvironment sampleSelectors 0x5000) (fun _ => sampleTask)
        [sampleTurn 1, sampleTurn 2, sampleTurn 1] =
      .ok (runTotal ownTurn (fun _ => sampleTask) [sampleTurn 1, sampleTurn 2, sampleTurn 1]) := by
  have hinstalled : Installed (generateUserTable sampleSelectors.kernelTask)
      sampleSelectors.codeRing0 sampleProcess := by
    refine ⟨fun _ => 0, fun x _ => ?_⟩
    rw [sampleProcess]
  have hvalid : ∀ t, Valid sampleSelectors (sampleTurn t) := by
    intro t
    have hcs : privilege sampleTask.cs = GDT_CPL_RING3 := by decide
    have hss : privilege sampleTask.ss = GDT_CPL_RING3 := by decide
    refine ⟨?_, ?_, ?_, hcs, hss, ?_⟩
    · simp [sampleTurn, IDT_MAX_COUNT]
    · simpa only [sampleTurn] using hinstalled
    · simpa only [sampleTurn, loadTask] using hinstalled
    · intro interrupt error task h
      exact ⟨h.cs, h.ss, h.esp0⟩
  refine run_turns sampleEnvironment 0x5000 (by decide) (fun _ => ⟨by decide, by decide, rfl⟩) ?_
  simp [hvalid]

end

end Ibnos.TaskSwitches
