import Ibnos.DispatcherCode
import Ibnos.InterruptTables

/-!
Interrupts of the kernel: the kernel is called with the number of the interrupt and with the
registers, and behind the interrupt all registers are what they were.
-/

namespace Ibnos.InterruptStubs

open Ibnos.Instructions
open Ibnos.StackFrames

/-- The lowest address which an interrupt writes. -/
def stackFrame (c : Cpu) : Address := c.esp - 0x88#32

/-- The number of its cells. -/
def FRAME_CELLS : Nat := 0x22

/-- What the kernel sees of the interrupted code. The stack pointer is four bytes too high, because
`lea eax,[esp+0x80]` is behind the call of the dispatcher. -/
def interruptedContext (c : Cpu) : TaskContext where
  cr3 := c.cr3
  eip := c.eip
  eflags := c.eflags
  eax := c.register .eax
  ecx := c.register .ecx
  edx := c.register .edx
  ebx := c.register .ebx
  esp := c.esp + 4#32
  ebp := c.register .ebp
  esi := c.register .esi
  edi := c.register .edi
  es := c.segment .es
  cs := c.segment .cs
  ss := c.segment .ss
  ds := c.segment .ds
  fs := c.segment .fs
  gs := c.segment .gs

/-- The arguments of `__dispatchKernelInterrupt`. -/
def argument (c : Cpu) (k : Nat) : BitVec 32 := load c.memory (c.esp + BitVec.ofNat 32 (4 + 4 * k))

/-- `__dispatchKernelInterrupt` has returned: the context is changed, and the tables and the
segments are as before. -/
structure Returned (idleBegin idleEnd : Address) (status : Status) (c c' : Cpu) : Prop where
  eip : c'.eip = load c.memory c.esp
  esp : c'.esp = c.esp + 4#32
  segment : c'.segment = c.segment
  tables : ∀ x, IsTable x → c'.memory x = c.memory x
  context : dispatchKernelInterrupt idleBegin idleEnd status (taskContext c.memory (argument c 2)) =
    some (taskContext c'.memory (argument c 2))

/-- The interrupt `i`, with the error code `e` if it has one. -/
def deliver (i : Nat) (e : BitVec 32) (pad : BitVec 16) (c : Cpu) : Cpu :=
  interrupt (gate c.memory (USERMODE_IDT_ADDRESS + BitVec.ofNat 32 (8 * i))) pad
    (if isErrorCodeInterrupt i then some e else none) c

section

variable {env : Environment} {handler w a : Address} {codeRing0 pad : BitVec 16} {g : Gate}
  {e : BitVec 32} {error : Option (BitVec 32)} {c c' : Cpu} {f f' : Frame} {i n top : Nat}
  {s : Segment → BitVec 16} {v : BitVec 32}

/-- What the processor pushes, and the old contents of the other cells. -/
def entryFrame (c : Cpu) (pad : BitVec 16) (g : Gate) : Frame :=
  let f := frameAt (stackFrame c) c
  { ((f.put 33 c.eflags).put 32 (pad ++ c.segment .cs)).put 31 c.eip with
    eip := g.offset
    segment := Function.update c.segment .cs g.selector }

theorem shows_interrupt (error : Option (BitVec 32)) (g : Gate) (pad : BitVec 16) (c : Cpu) :
    (match error with
      | some e => Shows (stackFrame c) FRAME_CELLS 0x78 ((entryFrame c pad g).put 30 e)
          (interrupt g pad error c)
      | none => Shows (stackFrame c) FRAME_CELLS 0x7C (entryFrame c pad g)
          (interrupt g pad error c)) ∧
      ∀ x, Outside (stackFrame c) FRAME_CELLS x →
        (interrupt g pad error c).memory x = c.memory x := by
  have hn : 4 * FRAME_CELLS ≤ 2 ^ 32 := by decide
  have hesp : c.esp = stackFrame c + BitVec.ofNat 32 0x88 := by
    rw [stackFrame]
    bv_omega
  obtain ⟨h₁, hframe₁⟩ := (shows_frameAt hesp).push (n := FRAME_CELLS) (v := c.eflags) hn rfl
  obtain ⟨h₂, hframe₂⟩ := h₁.push (v := pad ++ c.segment .cs) hn rfl
  obtain ⟨h₃, hframe₃⟩ := h₂.push (v := c.eip) hn rfl
  cases error with
  | none =>
      refine ⟨h₃.jump _ _ _, fun x hx => ?_⟩
      exact (hframe₃ x hx).trans ((hframe₂ x hx).trans (hframe₁ x hx))
  | some e =>
      obtain ⟨h₄, hframe₄⟩ := h₃.push (v := e) hn rfl
      refine ⟨h₄.jump _ _ _, fun x hx => ?_⟩
      exact (hframe₄ x hx).trans ((hframe₃ x hx).trans ((hframe₂ x hx).trans (hframe₁ x hx)))

/-! The code up to the kernel. -/

theorem callBytes_encodes (cur target : Address) :
    Encodes (callBytes cur target, .call (target - (cur + 5#32))) := by
  refine ⟨by simp [callBytes, wordBytes, MAX_LENGTH], fun more => ?_⟩
  have himmediate : ∀ d, immediate (wordBytes d ++ more) = some d := fun d =>
    congrArg some (append_bytes d)
  show (immediate (wordBytes _ ++ more)).map (fun n => (Instruction.call n, 5)) = _
  rw [himmediate]
  rfl

/-- The size of the room in front of what the processor pushed. -/
def reserveSize (i : Nat) : BitVec 32 := if isErrorCodeInterrupt i then 0x68 else 0x6C

theorem reserveBytes_encodes (i : Nat) : Encodes (reserveBytes i, .sub .esp (reserveSize i)) := by
  rw [reserveBytes, reserveSize]
  split_ifs <;> exact ⟨by decide, fun _ => rfl⟩

theorem stub_runs (env : Environment)
    (hinstalled : Installed (generateKernelTable handler) codeRing0 c.memory)
    (hi : i < IDT_MAX_COUNT) (hout : ∀ x, IsTable x → Outside w n x) (hn : 4 * n ≤ 2 ^ 32)
    (hle : 4 ≤ n) (heip : c.eip = entryAddress i)
    (h : Shows w n (0x10 + (reserveSize i).toNat) f c) :
    ∃ c', steps env 2 c = some c' ∧
      Shows w n 0xC { f.put 3 (entryAddress i + 8#32) with eip := dispatcher } c' ∧
      ∀ x, Outside w n x → c'.memory x = c.memory x := by
  have hcode : CodeAt c.memory c.eip (bytesOf [(reserveBytes i, .sub .esp (reserveSize i))] ++
      callBytes (entryAddress i + 3#32) dispatcher) := by
    rw [heip]
    have hstub := hinstalled.stub_code kernelStub_length (by simp [dispatcherBytes_length]) hi
    simpa [kernelStub, bytesOf] using hstub
  have hlength : (reserveBytes i).length = 3 := by
    rw [reserveBytes]
    split_ifs <;> rfl
  have hreserve : f.performAll w n (0x10 + (reserveSize i).toNat)
      [(reserveBytes i, .sub .esp (reserveSize i))] =
        some (0x10, { f with eip := f.eip + 3#32 }) := by
    simp [Frame.performAll, Frame.perform, Frame.exec, hlength]
  have hcall : { f with eip := f.eip + 3#32 }.perform w n 0x10
      (callBytes (entryAddress i + 3#32) dispatcher,
        .call (dispatcher - (entryAddress i + 3#32 + 5#32))) =
        some (0xC, { f.put 3 (entryAddress i + 8#32) with eip := dispatcher }) := by
    have hbehind : f.eip + 3#32 + 5#32 = entryAddress i + 8#32 := by
      rw [← h.eip, heip, add_assoc]
      rfl
    have htarget : entryAddress i + 8#32 + (dispatcher - (entryAddress i + 8#32)) = dispatcher :=
      add_sub_cancel _ _
    have hindex : Frame.index n 12 = some 3 := by
      simp [Frame.index]
      omega
    simp [Frame.perform, Frame.exec, Frame.push, callBytes_length, hbehind, hindex, Frame.put,
      htarget, add_assoc]
  have hcalls := callBytes_encodes (entryAddress i + 3#32) dispatcher
  refine (run_call env ?_ ?_ hcalls hcode ?_ hn h hreserve hcall).2
  · simpa using reserveBytes_encodes i
  · exact List.forall_mem_singleton.mpr rfl
  · intro k hk
    have hlt : INTJMP_ENTRY_SIZE * i + k < 0x1000 := by
      rw [IDT_MAX_COUNT] at hi
      rw [INTJMP_ENTRY_SIZE]
      simp [bytesOf, hlength, callBytes_length] at hk
      omega
    rw [heip, entryAddress, add_assoc, ← BitVec.ofNat_add]
    exact hout _ (isTable_code hlt)

theorem saveLines_encode : ∀ l ∈ saveLines, Encodes l :=
  fun _ hl => (List.forall₂_iff_zip.mp saveBytes_encode).2 hl

theorem restoreLines_encode : ∀ l ∈ restoreLines, Encodes l :=
  fun _ hl => (List.forall₂_iff_zip.mp restoreBytes_encode).2 hl

/-- The three parts of the dispatcher. -/
theorem Installed.parts (h : Installed (generateKernelTable handler) codeRing0 c.memory) :
    CodeAt c.memory InterruptStubs.dispatcher
        (bytesOf saveLines ++ callBytes kernelCall handler) ∧
      CodeAt c.memory (kernelCall + 5#32) (bytesOf restoreLines) ∧
      CodeAt c.memory (kernelCall + 5#32 + 59#32) [0xCF] := by
  obtain ⟨h, hiret⟩ := codeAt_append (h.code_behind (by simp [dispatcherBytes_length]))
  obtain ⟨h, hrestore⟩ := codeAt_append h
  exact ⟨h, hrestore, hiret⟩

theorem dispatcher_runs (env : Environment)
    (hinstalled : Installed (generateKernelTable handler) codeRing0 c.memory)
    (hout : ∀ x, IsTable x → Outside w FRAME_CELLS x) (h : Shows w FRAME_CELLS 0xC f c)
    (heip : c.eip = dispatcher) :
    ∃ f' c', Saves w f f' ∧ steps env (saveLines.length + 1) c = some c' ∧
      Shows w FRAME_CELLS 0 { f'.put 0 (kernelCall + 5#32) with eip := handler } c' ∧
      ∀ x, Outside w FRAME_CELLS x → c'.memory x = c.memory x := by
  obtain ⟨f', hsave, hsaves⟩ := performAll_save w f
  obtain ⟨hcode, -, -⟩ := hinstalled.parts
  rw [← heip] at hcode
  have hcall : f'.perform w FRAME_CELLS 4
      (callBytes kernelCall handler, .call (handler - (kernelCall + 5#32))) =
        some (0, { f'.put 0 (f'.eip + 5#32) with
          eip := f'.eip + 5#32 + (handler - (kernelCall + 5#32)) }) := rfl
  have houtside : ∀ k < (bytesOf saveLines ++ callBytes kernelCall handler).length,
      Outside w FRAME_CELLS (c.eip + BitVec.ofNat 32 k) := by
    intro k hk
    have hlt : k < 112 := hk
    rw [heip, dispatcher, add_assoc, ← BitVec.ofNat_add]
    exact hout _ (isTable_code (by rw [INTJMP_ENTRY_SIZE, IDT_MAX_COUNT]; omega))
  obtain ⟨heip', c', hsteps, hshows, hframe⟩ := run_call env saveLines_encode (by decide)
    (callBytes_encodes _ _) hcode houtside (by decide) h hsave hcall
  have hkernel : f'.eip = kernelCall := by
    rw [heip', heip]
    rfl
  rw [hkernel, add_sub_cancel] at hshows
  exact ⟨f', c', hsaves, hsteps, hshows, hframe⟩

/-- The kernel is called for the interrupt `i` of the code which runs at `c`. -/
structure Called (handler : Address) (codeRing0 : BitVec 16) (i : Nat) (e : BitVec 32)
    (c c' : Cpu) : Prop where
  eip : c'.eip = handler
  esp : c'.esp = stackFrame c
  segment : c'.segment = Function.update c.segment .cs codeRing0
  cr3 : c'.cr3 = c.cr3
  behind : load c'.memory c'.esp = kernelCall + 5#32
  number : argument c' 0 = BitVec.ofNat 32 i
  error : isErrorCodeInterrupt i = true → argument c' 1 = e
  pointer : argument c' 2 = stackFrame c + 16#32
  context : taskContext c'.memory (argument c' 2) = interruptedContext c
  frame : ∀ x, Outside (stackFrame c) FRAME_CELLS x → c'.memory x = c.memory x

theorem argument_eq (h : Shows w n 0 f c) (hi : i + 1 < n) : argument c i = f.cells (i + 1) := by
  rw [argument, h.esp, ← h.cells _ hi, cell]
  congr 1
  bv_omega

theorem entry_number (hi : i < IDT_MAX_COUNT) :
    (entryAddress i + 8#32 - (USERMODE_INTJMP_ADDRESS + 8#32)) >>> 3 = BitVec.ofNat 32 i := by
  rw [IDT_MAX_COUNT] at hi
  rw [add_sub_add_right_eq_sub, entryAddress, add_sub_cancel_left, INTJMP_ENTRY_SIZE]
  apply BitVec.eq_of_toNat_eq
  rw [BitVec.toNat_ushiftRight, Nat.shiftRight_eq_div_pow, BitVec.toNat_ofNat, BitVec.toNat_ofNat]
  omega

theorem frameContext_call (f : Frame) (v : BitVec 32) (a : Address) :
    frameContext { f.put 0 v with eip := a } = frameContext f := by
  simp [frameContext, Frame.put]

/-- What the delivery of an interrupt leaves in the frame of the stub. -/
structure Delivered (i : Nat) (e : BitVec 32) (codeRing0 : BitVec 16) (c : Cpu) (f : Frame) :
    Prop where
  segment : f.segment = Function.update c.segment .cs codeRing0
  register : ∀ r, f.register r = c.register r
  cr3 : f.cr3 = c.cr3
  eip : f.cells 31 = c.eip
  cs : (f.cells 32).extractLsb' 0 16 = c.segment .cs
  eflags : f.cells 33 = c.eflags
  error : isErrorCodeInterrupt i = true → f.cells 30 = e

theorem deliver_frame (hinstalled : Installed (generateKernelTable handler) codeRing0 c.memory)
    (hi : i < IDT_MAX_COUNT)
    (e : BitVec 32) (pad : BitVec 16) :
    (deliver i e pad c).eip = entryAddress i ∧
      (∃ f, Delivered i e codeRing0 c f ∧
        Shows (stackFrame c) FRAME_CELLS (0x10 + (reserveSize i).toNat) f (deliver i e pad c)) ∧
      ∀ x, Outside (stackFrame c) FRAME_CELLS x → (deliver i e pad c).memory x = c.memory x := by
  obtain ⟨hshows, hframe⟩ := shows_interrupt (if isErrorCodeInterrupt i then some e else none)
    (gate c.memory (USERMODE_IDT_ADDRESS + BitVec.ofNat 32 (8 * i))) pad c
  rw [deliver]
  rw [hinstalled.gate hi] at hshows hframe ⊢
  refine ⟨rfl, ?_, hframe⟩
  by_cases hcode : isErrorCodeInterrupt i = true
  · rw [if_pos hcode] at hshows ⊢
    rw [reserveSize, if_pos hcode]
    refine ⟨_, ⟨rfl, fun _ => rfl, rfl, ?_, ?_, ?_, fun _ => ?_⟩, hshows⟩
    all_goals simp [entryFrame, Frame.put]
  · rw [if_neg hcode] at hshows ⊢
    rw [reserveSize, if_neg hcode]
    refine ⟨_, ⟨rfl, fun _ => rfl, rfl, ?_, ?_, ?_, (absurd · hcode)⟩, hshows⟩
    all_goals simp [entryFrame, Frame.put]

theorem kernel_called (env : Environment)
    (hinstalled : Installed (generateKernelTable handler) codeRing0 c.memory)
    (hi : i < IDT_MAX_COUNT) (hout : ∀ x, IsTable x → Outside (stackFrame c) FRAME_CELLS x)
    (e : BitVec 32) (pad : BitVec 16) :
    ∃ k c', steps env k (deliver i e pad c) = some c' ∧ Called handler codeRing0 i e c c' := by
  obtain ⟨heip, ⟨f, hdelivered, hshows⟩, hframe⟩ := deliver_frame hinstalled hi e pad
  have hkeep : ∀ c' : Cpu, (∀ x, Outside (stackFrame c) FRAME_CELLS x →
      c'.memory x = c.memory x) → Installed (generateKernelTable handler) codeRing0 c'.memory :=
    fun c' h => hinstalled.congr fun x hx => h x (hout x hx)
  obtain ⟨c₁, hsteps₁, hshows₁, hframe₁⟩ := stub_runs env (hkeep _ hframe) hi hout (by decide)
    (by decide) heip hshows
  have hframe₁ := fun x hx => (hframe₁ x hx).trans (hframe x hx)
  obtain ⟨f', c₂, hsaves, hsteps₂, hshows₂, hframe₂⟩ := dispatcher_runs env (hkeep _ hframe₁) hout
    hshows₁ hshows₁.eip
  have hframe₂ := fun x hx => (hframe₂ x hx).trans (hframe₁ x hx)
  have hcontext : taskContext c₂.memory (stackFrame c + 16#32) = interruptedContext c := by
    have hesp : stackFrame c + 140#32 = c.esp + 4#32 := by
      rw [stackFrame]
      bv_omega
    rw [taskContext_eq hshows₂ (by decide), frameContext_call, hsaves.context, hesp]
    simp [interruptedContext, Frame.put, hdelivered.register, hdelivered.segment, hdelivered.cr3,
      hdelivered.eip, hdelivered.cs, hdelivered.eflags]
  have hpointer : argument c₂ 2 = stackFrame c + 16#32 := by
    rw [argument_eq hshows₂ (by decide), ← hsaves.pointer]
    rfl
  have hesp : c₂.esp = stackFrame c := by simpa using hshows₂.esp
  refine ⟨2 + (saveLines.length + 1), c₂, ?_, ?_⟩
  · rw [steps_add, hsteps₁, Option.bind_some, hsteps₂]
  · refine ⟨hshows₂.eip, hesp, ?_, ?_, ?_, ?_, ?_, hpointer, ?_, hframe₂⟩
    · rw [hshows₂.segment, ← hdelivered.segment]
      exact hsaves.segment
    · rw [hshows₂.cr3, ← hdelivered.cr3]
      exact hsaves.cr3
    · have hcell := hshows₂.cells 0 (by decide)
      simp [cell, Frame.put] at hcell
      rwa [hesp]
    · rw [argument_eq hshows₂ (by decide), ← entry_number hi]
      simpa [Frame.put] using hsaves.number
    · intro hcode
      rw [argument_eq hshows₂ (by decide), ← hdelivered.error hcode]
      simpa [Frame.put] using hsaves.error
    · rw [hpointer, hcontext]

/-! The code behind the kernel. -/

/-- The code which was interrupted continues, where and with the flags that the context says. -/
structure Resumed (context : TaskContext) (c c₂ c₃ : Cpu) : Prop where
  register : c₃.register = c.register
  segment : c₃.segment = c.segment
  eip : c₃.eip = context.eip
  eflags : c₃.eflags = context.eflags
  cr3 : c₃.cr3 = c₂.cr3
  frame : ∀ x, Outside (stackFrame c) FRAME_CELLS x → c₃.memory x = c₂.memory x

/-- What the last instruction of the dispatcher does. -/
theorem iret_eq (h : Shows w FRAME_CELLS 0x7C f c)
    (hring : privilege ((f.cells 32).extractLsb' 0 16) = privilege (f.segment .cs)) :
    c.iret.eip = f.cells 31 ∧ c.iret.eflags = f.cells 33 ∧ c.iret.cr3 = f.cr3 ∧
      c.iret.segment = Function.update f.segment .cs ((f.cells 32).extractLsb' 0 16) ∧
      c.iret.register .esp = w + 0x88#32 ∧ (∀ r, r ≠ .esp → c.iret.register r = f.register r) ∧
      c.iret.memory = c.memory := by
  have heip : load c.memory c.esp = f.cells 31 := by
    rw [h.esp]
    exact h.cells 31 (by decide)
  have heflags : load c.memory (c.esp + 8#32) = f.cells 33 := by
    rw [h.esp, add_assoc]
    exact h.cells 33 (by decide)
  have hcs : loadHalf c.memory (c.esp + 4#32) = (f.cells 32).extractLsb' 0 16 := by
    rw [loadHalf_eq, h.esp, add_assoc]
    exact congrArg _ (h.cells 32 (by decide))
  rw [Cpu.iret, heip, heflags, hcs, if_pos (by rw [hring, h.segment])]
  refine ⟨rfl, rfl, h.cr3, ?_, ?_, ?_, rfl⟩
  · rw [← h.segment]
    rfl
  · simp [Cpu.set, h.esp, add_assoc]
  · intro r hr
    simp [Cpu.set, hr, h.register r hr]

theorem iret_encodes : Encodes ([0xCF], .iret) := ⟨by decide, fun _ => rfl⟩

/-- A context of the kernel changes in its instruction pointer and its flags only. -/
theorem dispatchKernelInterrupt_keeps {idleBegin idleEnd : Address} {status : Status}
    {context context' : TaskContext}
    (h : dispatchKernelInterrupt idleBegin idleEnd status context = some context') :
    context' = { context with eip := context'.eip, eflags := context'.eflags } := by
  simp only [dispatchKernelInterrupt] at h
  split_ifs at h <;> cases h <;> rfl

theorem kernel_resumes {idleBegin idleEnd : Address} {status : Status} {c₁ c₂ : Cpu}
    (env : Environment) (hinstalled : Installed (generateKernelTable handler) codeRing0 c.memory)
    (hout : ∀ x, IsTable x → Outside (stackFrame c) FRAME_CELLS x)
    (hring : privilege (c.segment .cs) = privilege codeRing0)
    (hcalled : Called handler codeRing0 i e c c₁)
    (hreturned : Returned idleBegin idleEnd status c₁ c₂) :
    ∃ context, dispatchKernelInterrupt idleBegin idleEnd status (interruptedContext c) =
        some context ∧
      ∃ k c₃, steps env k c₂ = some c₃ ∧ Resumed context c c₂ c₃ := by
  have hinstalled₂ : Installed (generateKernelTable handler) codeRing0 c₂.memory :=
    hinstalled.congr fun x hx => (hreturned.tables x hx).trans (hcalled.frame x (hout x hx))
  have hcontext := hreturned.context
  rw [hcalled.context, hcalled.pointer] at hcontext
  refine ⟨_, hcontext, ?_⟩
  have hkeeps := dispatchKernelInterrupt_keeps hcontext
  have hesp : c₂.esp = stackFrame c + BitVec.ofNat 32 4 := by
    rw [hreturned.esp, hcalled.esp]
  have heip : c₂.eip = kernelCall + 5#32 := by
    rw [hreturned.eip, hcalled.behind]
  have hshows := shows_frameAt (n := FRAME_CELLS) hesp
  rw [taskContext_eq hshows (by decide)] at hkeeps ⊢
  obtain ⟨f', hrestore, hrestores⟩ := performAll_restore (stackFrame c) (frameAt (stackFrame c) c₂)
  obtain ⟨-, hcode, hiret⟩ := hinstalled₂.parts
  rw [← heip] at hcode hiret
  have houtside : ∀ k < 60, Outside (stackFrame c) FRAME_CELLS (c₂.eip + BitVec.ofNat 32 k) := by
    intro k hk
    have hkernel : kernelCall + 5#32 = USERMODE_INTJMP_ADDRESS + BitVec.ofNat 32 2160 := by decide
    rw [heip, hkernel, add_assoc, ← BitVec.ofNat_add]
    exact hout _ (isTable_code (by omega))
  obtain ⟨c', hsteps, hshows', hframe, heip'⟩ := run_lines env restoreLines_encode (by decide) hcode
    (fun k hk => houtside k (Nat.lt_succ_of_lt hk)) (by decide) hshows hrestore
  have hiret' : CodeAt c'.memory c'.eip [0xCF] := by
    rw [heip']
    apply hiret.congr
    intro k hk
    apply hframe
    rw [add_assoc, ← BitVec.ofNat_add]
    have hlt : k < 1 := hk
    have hlength : (bytesOf restoreLines).length = 59 := by decide
    exact houtside _ (by omega)
  have hsegment : f'.segment = Function.update c.segment .cs codeRing0 :=
    hrestores.segment.trans (hreturned.segment.trans hcalled.segment)
  have hcs : (frameContext (frameAt (stackFrame c) c₂)).cs = c.segment .cs := by
    rw [hkeeps]
    rfl
  have hbehind : Shows (stackFrame c) FRAME_CELLS 0x7C { f' with eip := c'.eip + 1#32 }
      { c' with eip := c'.eip + 1#32 } :=
    ⟨rfl, hshows'.esp, hshows'.register, hshows'.segment, hshows'.cr3, hshows'.cells⟩
  obtain ⟨heip₃, heflags₃, hcr3₃, hsegment₃, hesp₃, hregister₃, hmemory₃⟩ := iret_eq hbehind (by
    rw [hrestores.cs, hcs, hsegment]
    simpa using hring)
  refine ⟨restoreLines.length + 1, { c' with eip := c'.eip + 1#32 }.iret, ?_, ?_⟩
  · rw [steps_add, hsteps, Option.bind_some, steps, step_line env iret_encodes hiret',
      Option.bind_some, steps]
    rfl
  · refine ⟨?_, ?_, heip₃.trans hrestores.eip, heflags₃.trans hrestores.eflags, ?_, ?_⟩
    · funext r
      cases r with
      | esp =>
          rw [hesp₃, stackFrame]
          exact sub_add_cancel _ _
      | eax => rw [hregister₃ _ (by decide), hrestores.eax, hkeeps]; rfl
      | ecx => rw [hregister₃ _ (by decide), hrestores.ecx, hkeeps]; rfl
      | edx => rw [hregister₃ _ (by decide), hrestores.edx, hkeeps]; rfl
      | ebx => rw [hregister₃ _ (by decide), hrestores.ebx, hkeeps]; rfl
      | ebp => rw [hregister₃ _ (by decide), hrestores.ebp, hkeeps]; rfl
      | esi => rw [hregister₃ _ (by decide), hrestores.esi, hkeeps]; rfl
      | edi => rw [hregister₃ _ (by decide), hrestores.edi, hkeeps]; rfl
    · rw [hsegment₃, hrestores.cs, hcs, hsegment]
      simp
    · rw [hcr3₃]
      exact hrestores.cr3
    · intro x hx
      rw [hmemory₃]
      exact hframe x hx

/-- An interrupt of the kernel calls `__dispatchKernelInterrupt` with the number of the interrupt,
its error code and the registers. When that returns, the interrupted code continues with all of
its registers. -/
theorem kernel_interrupt_returns (env : Environment)
    (hinstalled : Installed (generateKernelTable handler) codeRing0 c.memory)
    (hi : i < IDT_MAX_COUNT)
    (hout : ∀ x, IsTable x → Outside (stackFrame c) FRAME_CELLS x)
    (hring : privilege (c.segment .cs) = privilege codeRing0) (e : BitVec 32) (pad : BitVec 16) :
    ∃ k c₁, steps env k (deliver i e pad c) = some c₁ ∧ Called handler codeRing0 i e c c₁ ∧
      ∀ idleBegin idleEnd status c₂, Returned idleBegin idleEnd status c₁ c₂ →
        ∃ context, dispatchKernelInterrupt idleBegin idleEnd status (interruptedContext c) =
            some context ∧
          ∃ n c₃, steps env n c₂ = some c₃ ∧ Resumed context c c₂ c₃ := by
  obtain ⟨k, c₁, hsteps, hcalled⟩ := kernel_called env hinstalled hi hout e pad
  refine ⟨k, c₁, hsteps, hcalled, fun idleBegin idleEnd status c₂ hreturned => ?_⟩
  exact kernel_resumes env hinstalled hout hring hcalled hreturned

/-- A kernel which is interrupted with its stack at one megabyte. -/
def interruptedKernel : Cpu where
  register r := if r = .esp then 0x100000 else 0
  segment s := if s = .cs then 8 else 16
  eip := 0x101234
  eflags := 0x202
  cr3 := 0
  taskSwitched := false
  memory := installTables (generateKernelTable 0x105678) 8 fun _ => 0

theorem kernel_interrupt_returns_sample :
    ∃ k c₁, steps ⟨fun _ c => c.eflags, fun _ c => c⟩ k (deliver 14 2 0 interruptedKernel) =
        some c₁ ∧ Called 0x105678 8 14 2 interruptedKernel c₁ ∧
      ∃ c₂, Returned 0 0 .continueExecution c₁ c₂ ∧
        ∃ n c₃, steps ⟨fun _ c => c.eflags, fun _ c => c⟩ n c₂ = some c₃ ∧
          Resumed (interruptedContext interruptedKernel) interruptedKernel c₂ c₃ := by
  have hout : ∀ x, IsTable x → Outside (stackFrame interruptedKernel) FRAME_CELLS x := by
    intro x hx
    have hframe : stackFrame interruptedKernel = 0xFFF78#32 := by decide
    rw [hframe, Outside, FRAME_CELLS]
    rw [IsTable, USERMODE_IDT_ADDRESS] at hx
    bv_omega
  have hinstalled : Installed (generateKernelTable 0x105678) 8 interruptedKernel.memory := by
    refine ⟨fun _ => 0, fun x _ => ?_⟩
    simp only [interruptedKernel]
  obtain ⟨k, c₁, hsteps, hcalled, hresumes⟩ := kernel_interrupt_returns (i := 14)
    ⟨fun _ c => c.eflags, fun _ c => c⟩ hinstalled (by decide) hout (by decide) 2 0
  let c₂ : Cpu := { c₁.set .esp (c₁.esp + 4#32) with eip := load c₁.memory c₁.esp }
  have hidle : ∀ context, dispatchKernelInterrupt 0 0 .continueExecution context =
      some context := by
    intro context
    simp [dispatchKernelInterrupt]
  have hreturned : Returned 0 0 .continueExecution c₁ c₂ := by
    refine ⟨rfl, ?_, rfl, fun _ _ => rfl, hidle _⟩
    simp [c₂, Cpu.esp, Cpu.set]
  obtain ⟨context, hcontext, hsteps'⟩ := hresumes 0 0 .continueExecution c₂ hreturned
  rw [hidle] at hcontext
  cases hcontext
  exact ⟨k, c₁, hsteps, hcalled, c₂, hreturned, hsteps'⟩

end

end Ibnos.InterruptStubs
