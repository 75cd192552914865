import Ibnos.InterruptStubs

/-!
The machine code of the dispatcher as instructions, and what it does to its stack frame: the
context of the kernel begins at the offset 16.
-/

namespace Ibnos.InterruptStubs

open Ibnos.Instructions
open Ibnos.StackFrames

/-- The instructions of `saveBytes`. -/
def saveInstructions : List Instruction :=
  [.store 0x2C .eax, .store 0x30 .ecx, .store 0x34 .edx, .store 0x38 .ebx,
    .lea .eax 0x80, .store 0x3C .eax,
    .store 0x40 .ebp, .store 0x44 .esi, .store 0x48 .edi,
    .storeSegment 0x4C .es, .loadHalf .eax 0x74, .storeHalf 0x50 .eax,
    .storeSegment 0x54 .ss, .storeSegment 0x58 .ds, .storeSegment 0x5C .fs, .storeSegment 0x60 .gs,
    .moveCr3 .eax, .store 0x20 .eax,
    .load .eax 0x70, .store 0x24 .eax, .load .eax 0x78, .store 0x28 .eax,
    .pop .eax, .sub .eax (USERMODE_INTJMP_ADDRESS + 8#32), .shr .eax 3,
    .push .esp, .pushMemory 0x6C, .push .eax]

/-- The instructions of `restoreBytes`. -/
def restoreInstructions : List Instruction :=
  [.load .eax 0x2C, .store 0x78 .eax, .load .eax 0x58, .storeHalf 0x7C .eax,
    .load .eax 0x30, .store 0x80 .eax,
    .load .edi 0x50, .load .esi 0x4C, .load .ebp 0x48, .load .ebx 0x40, .load .edx 0x3C,
    .load .ecx 0x38, .load .eax 0x34, .add .esp 0x78]

def saveLines : List Line := saveBytes.zip saveInstructions

def restoreLines : List Line := restoreBytes.zip restoreInstructions

theorem saveBytes_encode : List.Forall₂ (fun b i => Encodes (b, i)) saveBytes saveInstructions := by
  repeat' first | exact .nil | refine .cons ⟨by decide, fun _ => rfl⟩ ?_

theorem restoreBytes_encode :
    List.Forall₂ (fun b i => Encodes (b, i)) restoreBytes restoreInstructions := by
  repeat' first | exact .nil | refine .cons ⟨by decide, fun _ => rfl⟩ ?_

/-- The context in the frame of the kernel. -/
def frameContext (f : Frame) : TaskContext where
  cr3 := f.cells 11
  eip := f.cells 12
  eflags := f.cells 13
  eax := f.cells 14
  ecx := f.cells 15
  edx := f.cells 16
  ebx := f.cells 17
  esp := f.cells 18
  ebp := f.cells 19
  esi := f.cells 20
  edi := f.cells 21
  es := (f.cells 22).extractLsb' 0 16
  cs := (f.cells 23).extractLsb' 0 16
  ss := (f.cells 24).extractLsb' 0 16
  ds := (f.cells 25).extractLsb' 0 16
  fs := (f.cells 26).extractLsb' 0 16
  gs := (f.cells 27).extractLsb' 0 16

section

variable {w : Address} {n top : Nat} {f : Frame} {c : Cpu}

theorem taskContext_eq (h : Shows w n top f c) (hn : 28 ≤ n) :
    taskContext c.memory (w + 16#32) = frameContext f := by
  have hword : ∀ k < 28, ∀ d, 16#32 + d = BitVec.ofNat 32 (4 * k) →
      load c.memory (w + 16#32 + d) = f.cells k := by
    intro k hk d hd
    rw [add_assoc, hd]
    exact h.cells k (by omega)
  have hhalf : ∀ k < 28, ∀ d, 16#32 + d = BitVec.ofNat 32 (4 * k) →
      loadHalf c.memory (w + 16#32 + d) = (f.cells k).extractLsb' 0 16 := by
    intro k hk d hd
    rw [loadHalf_eq, hword k hk d hd]
  simp only [taskContext, frameContext, TaskContext.mk.injEq]
  refine ⟨hword 11 ?_ _ ?_, hword 12 ?_ _ ?_, hword 13 ?_ _ ?_, hword 14 ?_ _ ?_, hword 15 ?_ _ ?_,
    hword 16 ?_ _ ?_, hword 17 ?_ _ ?_, hword 18 ?_ _ ?_, hword 19 ?_ _ ?_, hword 20 ?_ _ ?_,
    hword 21 ?_ _ ?_, hhalf 22 ?_ _ ?_, hhalf 23 ?_ _ ?_, hhalf 24 ?_ _ ?_, hhalf 25 ?_ _ ?_,
    hhalf 26 ?_ _ ?_, hhalf 27 ?_ _ ?_⟩
  all_goals decide

/-- In front of the call of the kernel, the frame holds its arguments and the context. -/
structure Saves (w : Address) (f f' : Frame) : Prop where
  number : f'.cells 1 = (f.cells 3 - (USERMODE_INTJMP_ADDRESS + 8#32)) >>> 3
  error : f'.cells 2 = f.cells 30
  pointer : f'.cells 3 = w + 16#32
  segment : f'.segment = f.segment
  cr3 : f'.cr3 = f.cr3
  context : frameContext f' =
    { cr3 := f.cr3
      eip := f.cells 31
      eflags := f.cells 33
      eax := f.register .eax
      ecx := f.register .ecx
      edx := f.register .edx
      ebx := f.register .ebx
      esp := w + 0x8C#32
      ebp := f.register .ebp
      esi := f.register .esi
      edi := f.register .edi
      es := f.segment .es
      cs := (f.cells 32).extractLsb' 0 16
      ss := f.segment .ss
      ds := f.segment .ds
      fs := f.segment .fs
      gs := f.segment .gs }

theorem performAll_save (w : Address) (f : Frame) :
    ∃ f', f.performAll w 0x22 0xC saveLines = some (4, f') ∧ Saves w f f' := by
  obtain ⟨eip, register, segment, cr3, cells⟩ := f
  refine ⟨_, rfl, rfl, rfl, rfl, rfl, rfl, ?_⟩
  have hcs : BitVec.extractLsb' 0 16 ((cells 23).extractLsb' 16 16 ++ BitVec.extractLsb' 0 16
      (BitVec.extractLsb' 16 16 (w + 0x8C#32) ++ (cells 32).extractLsb' 0 16)) =
      (cells 32).extractLsb' 0 16 := by
    simp
  simp only [frameContext, TaskContext.mk.injEq]
  refine ⟨rfl, rfl, rfl, rfl, rfl, rfl, rfl, rfl, rfl, rfl, rfl, ?_, hcs, ?_, ?_, ?_, ?_⟩
  · exact lower_append ((cells 22).extractLsb' 16 16) (segment .es)
  · exact lower_append ((cells 24).extractLsb' 16 16) (segment .ss)
  · exact lower_append ((cells 25).extractLsb' 16 16) (segment .ds)
  · exact lower_append ((cells 26).extractLsb' 16 16) (segment .fs)
  · exact lower_append ((cells 27).extractLsb' 16 16) (segment .gs)

/-- In front of the last instruction, the registers are those of the context. -/
structure Restores (f f' : Frame) : Prop where
  eip : f'.cells 31 = (frameContext f).eip
  cs : (f'.cells 32).extractLsb' 0 16 = (frameContext f).cs
  eflags : f'.cells 33 = (frameContext f).eflags
  eax : f'.register .eax = (frameContext f).eax
  ecx : f'.register .ecx = (frameContext f).ecx
  edx : f'.register .edx = (frameContext f).edx
  ebx : f'.register .ebx = (frameContext f).ebx
  ebp : f'.register .ebp = (frameContext f).ebp
  esi : f'.register .esi = (frameContext f).esi
  edi : f'.register .edi = (frameContext f).edi
  segment : f'.segment = f.segment
  cr3 : f'.cr3 = f.cr3

theorem performAll_restore (w : Address) (f : Frame) :
    ∃ f', f.performAll w 0x22 4 restoreLines = some (0x7C, f') ∧ Restores f f' := by
  obtain ⟨eip, register, segment, cr3, cells⟩ := f
  refine ⟨_, rfl, rfl, ?_, rfl, rfl, rfl, rfl, rfl, rfl, rfl, rfl, rfl, rfl⟩
  exact lower_append ((cells 32).extractLsb' 16 16) ((cells 23).extractLsb' 0 16)

end
end Ibnos.InterruptStubs
