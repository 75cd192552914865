import Ibnos.StackFrames

/-!
The machine code which the kernel generates for its interrupts. Every interrupt has a stub of
its own, and all of them call the same code, which saves the registers, calls the kernel and
restores the registers.
-/

namespace Ibnos.InterruptStubs

open Ibnos.Instructions
open Ibnos.StackFrames

def IDT_MAX_COUNT : Nat := 256

def INTJMP_ENTRY_SIZE : Nat := 8

def USERMODE_IDT_ADDRESS : Address := 0xFF811000

def USERMODE_INTJMP_ADDRESS : Address := 0xFF812000

/-- Where the enable FPU code of the user mode table is. -/
def USERMODE_INTJMP_ENABLE_FPU : Address := USERMODE_INTJMP_ADDRESS + 2048

def isErrorCodeInterrupt (i : Nat) : Bool := i == 8 || (10 ≤ i && i ≤ 14) || i == 17

/-- The stub of an interrupt, in both tables. -/
def entryAddress (i : Nat) : Address :=
  USERMODE_INTJMP_ADDRESS + BitVec.ofNat 32 (INTJMP_ENTRY_SIZE * i)

/-- The code which all stubs of the kernel call. -/
def dispatcher : Address :=
  USERMODE_INTJMP_ADDRESS + BitVec.ofNat 32 (INTJMP_ENTRY_SIZE * IDT_MAX_COUNT)

/-- A `call` which is stored at `cur`. -/
def callBytes (cur target : Address) : List Byte := 0xE8 :: wordBytes (target - (cur + 5#32))

/-- The bytes which make room for the context. -/
def reserveBytes (i : Nat) : List Byte :=
  if isErrorCodeInterrupt i then [0x83, 0xEC, 0x68] else [0x83, 0xEC, 0x6C]

def kernelStub (i : Nat) : List Byte :=
  reserveBytes i ++ callBytes (entryAddress i + 3#32) dispatcher

/-- The code in front of the call of the kernel. -/
def saveBytes : List (List Byte) :=
  [[0x89, 0x44, 0x24, 0x2C],
    [0x89, 0x4C, 0x24, 0x30],
    [0x89, 0x54, 0x24, 0x34],
    [0x89, 0x5C, 0x24, 0x38],
    [0x8D, 0x84, 0x24, 0x80, 0x00, 0x00, 0x00],
    [0x89, 0x44, 0x24, 0x3C],
    [0x89, 0x6C, 0x24, 0x40],
    [0x89, 0x74, 0x24, 0x44],
    [0x89, 0x7C, 0x24, 0x48],
    [0x8C, 0x44, 0x24, 0x4C],
    [0x66, 0x8B, 0x44, 0x24, 0x74],
    [0x66, 0x89, 0x44, 0x24, 0x50],
    [0x8C, 0x54, 0x24, 0x54],
    [0x8C, 0x5C, 0x24, 0x58],
    [0x8C, 0x64, 0x24, 0x5C],
    [0x8C, 0x6C, 0x24, 0x60],
    [0x0F, 0x20, 0xD8],
    [0x89, 0x44, 0x24, 0x20],
    [0x8B, 0x44, 0x24, 0x70],
    [0x89, 0x44, 0x24, 0x24],
    [0x8B, 0x44, 0x24, 0x78],
    [0x89, 0x44, 0x24, 0x28],
    [0x58],
    0x2D :: wordBytes (USERMODE_INTJMP_ADDRESS + 8#32),
    [0xC1, 0xE8, 0x03],
    [0x54],
    [0xFF, 0x74, 0x24, 0x6C],
    [0x50]]

/-- The code behind it, without the last instruction. -/
def restoreBytes : List (List Byte) :=
  [[0x8B, 0x44, 0x24, 0x2C],
    [0x89, 0x44, 0x24, 0x78],
    [0x8B, 0x44, 0x24, 0x58],
    [0x66, 0x89, 0x44, 0x24, 0x7C],
    [0x8B, 0x44, 0x24, 0x30],
    [0x89, 0x84, 0x24, 0x80, 0x00, 0x00, 0x00],
    [0x8B, 0x7C, 0x24, 0x50],
    [0x8B, 0x74, 0x24, 0x4C],
    [0x8B, 0x6C, 0x24, 0x48],
    [0x8B, 0x5C, 0x24, 0x40],
    [0x8B, 0x54, 0x24, 0x3C],
    [0x8B, 0x4C, 0x24, 0x38],
    [0x8B, 0x44, 0x24, 0x34],
    [0x83, 0xC4, 0x78]]

/-- The call of `__dispatchKernelInterrupt`. -/
def kernelCall : Address := dispatcher + BitVec.ofNat 32 saveBytes.flatten.length

def dispatcherBytes (handler : Address) : List Byte :=
  saveBytes.flatten ++ callBytes kernelCall handler ++ restoreBytes.flatten ++ [0xCF]

/-- The stubs, and the code which is not part of them. -/
def generateTable (stub : Nat → List Byte) (a : Address) (code : List Byte) (m : Memory) :
    Memory :=
  storeBytes (storeTable m USERMODE_INTJMP_ADDRESS stub INTJMP_ENTRY_SIZE IDT_MAX_COUNT) a code

/-- The kernel mode table of `__generateIntJmpTables`. -/
def generateKernelTable (handler : Address) : Memory → Memory :=
  generateTable kernelStub dispatcher (dispatcherBytes handler)

/-- A far jump to the task of the kernel. -/
def userStub (kernelTask : BitVec 16) : List Byte :=
  0xEA :: wordBytes 0 ++ halfBytes kernelTask ++ [0xCC]

/-- The user mode table of `__generateIntJmpTables`, at the address where processes see it. -/
def generateUserTable (kernelTask : BitVec 16) : Memory → Memory :=
  generateTable (fun _ => userStub kernelTask) USERMODE_INTJMP_ENABLE_FPU [0x0F, 0x06, 0xCF]

/-- `struct IDTEntry` as `gdtInit` fills it. -/
def idtEntry (codeRing0 : BitVec 16) (i : Nat) : List Byte :=
  let address := entryAddress i
  let dpl : BitVec 2 := if i = 0x80 then 3 else 0
  halfBytes (address.extractLsb' 0 16) ++ halfBytes codeRing0 ++
    [0, (1#1 ++ dpl ++ 0#1 ++ 0xE#4)] ++ halfBytes (address.extractLsb' 16 16)

def fillIdt (codeRing0 : BitVec 16) (m : Memory) : Memory :=
  storeTable m USERMODE_IDT_ADDRESS (idtEntry codeRing0) 8 IDT_MAX_COUNT

/-! What the processor does with an interrupt. -/

/-- An entry of the interrupt descriptor table. -/
structure Gate where
  offset : Address
  selector : BitVec 16
  type : BitVec 4
  dpl : BitVec 2
  present : Bool

def gate (m : Memory) (a : Address) : Gate where
  offset := loadHalf m (a + 6#32) ++ loadHalf m a
  selector := loadHalf m (a + 2#32)
  type := (m (a + 5#32)).extractLsb' 0 4
  dpl := (m (a + 5#32)).extractLsb' 5 2
  present := (m (a + 5#32)).getLsbD 7

/-- The flags `TF`, `IF`, `NT`, `RF` and `VM`. -/
def clearedFlags : BitVec 32 := 0x00034300

/-- An interrupt through an interrupt gate without a change of the privilege level. Nothing is said
about the upper half of what is pushed with `cs`. -/
def interrupt (g : Gate) (pad : BitVec 16) (error : Option (BitVec 32)) (c : Cpu) : Cpu :=
  let c₁ := ((c.push c.eflags).push (pad ++ c.segment .cs)).push c.eip
  let c₂ := match error with
    | some e => c₁.push e
    | none => c₁
  { c₂ with
    eip := g.offset
    segment := Function.update c.segment .cs g.selector
    eflags := c.eflags &&& ~~~clearedFlags }

/-! The kernel. -/

/-- What the code saves of `struct taskContext`. -/
structure TaskContext where
  cr3 : BitVec 32
  eip : Address
  eflags : BitVec 32
  eax : BitVec 32
  ecx : BitVec 32
  edx : BitVec 32
  ebx : BitVec 32
  esp : BitVec 32
  ebp : BitVec 32
  esi : BitVec 32
  edi : BitVec 32
  es : BitVec 16
  cs : BitVec 16
  ss : BitVec 16
  ds : BitVec 16
  fs : BitVec 16
  gs : BitVec 16
  deriving DecidableEq

/-- The context at `a`. -/
def taskContext (m : Memory) (a : Address) : TaskContext where
  cr3 := load m (a + 0x1C#32)
  eip := load m (a + 0x20#32)
  eflags := load m (a + 0x24#32)
  eax := load m (a + 0x28#32)
  ecx := load m (a + 0x2C#32)
  edx := load m (a + 0x30#32)
  ebx := load m (a + 0x34#32)
  esp := load m (a + 0x38#32)
  ebp := load m (a + 0x3C#32)
  esi := load m (a + 0x40#32)
  edi := load m (a + 0x44#32)
  es := loadHalf m (a + 0x48#32)
  cs := loadHalf m (a + 0x4C#32)
  ss := loadHalf m (a + 0x50#32)
  ds := loadHalf m (a + 0x54#32)
  fs := loadHalf m (a + 0x58#32)
  gs := loadHalf m (a + 0x5C#32)

/-- The return values of interrupt handlers. -/
inductive Status
  | unhandled | continueExecution | yield | exitThread | exitProcess
  deriving DecidableEq, Repr

/-- `__dispatchKernelInterrupt`, with the answer of `dispatchInterrupt`. A kernel which was idle
continues behind the loop. -/
def dispatchKernelInterrupt (idleBegin idleEnd : Address) (status : Status)
    (context : TaskContext) : Option TaskContext :=
  if status ≠ .continueExecution ∧ status ≠ .yield then none
  else if idleBegin ≤ context.eip ∧ context.eip < idleEnd then
    some { context with eflags := context.eflags &&& ~~~(1#32 <<< 9), eip := idleEnd }
  else some context

end Ibnos.InterruptStubs
