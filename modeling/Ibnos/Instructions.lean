import Mathlib.Data.BitVec
import Mathlib.Data.List.Forall2
import Mathlib.Data.List.GetD
import Mathlib.Logic.Function.Basic
import Mathlib.Tactic.Common

/-!
Machine code of the 32-bit x86 processors: how some instructions are encoded, what they do, and
tables of bytes in the memory.
-/

namespace Ibnos.Instructions

abbrev Byte := BitVec 8

abbrev Address := BitVec 32

/-- Addresses wrap around. -/
abbrev Memory := Address → Byte

inductive Register
  | eax | ecx | edx | ebx | esp | ebp | esi | edi
  deriving DecidableEq, Repr

inductive Segment
  | es | cs | ss | ds | fs | gs
  deriving DecidableEq, Repr

/-- All memory operands are relative to `esp`. -/
inductive Instruction
  | store (offset : BitVec 32) (r : Register)
  | load (r : Register) (offset : BitVec 32)
  | storeHalf (offset : BitVec 32) (r : Register)
  | loadHalf (r : Register) (offset : BitVec 32)
  | storeSegment (offset : BitVec 32) (s : Segment)
  | lea (r : Register) (offset : BitVec 32)
  | moveCr3 (r : Register)
  | add (r : Register) (n : BitVec 32)
  | sub (r : Register) (n : BitVec 32)
  | shr (r : Register) (n : Nat)
  | push (r : Register)
  | pushMemory (offset : BitVec 32)
  | pop (r : Register)
  | call (offset : BitVec 32)
  | jumpFar (selector : BitVec 16) (offset : BitVec 32)
  | clts
  | iret
  deriving DecidableEq, Repr

/-! The encoding. -/

def register (n : BitVec 3) : Register :=
  match n.toNat with
  | 0 => .eax
  | 1 => .ecx
  | 2 => .edx
  | 3 => .ebx
  | 4 => .esp
  | 5 => .ebp
  | 6 => .esi
  | _ => .edi

def segment (n : BitVec 3) : Option Segment :=
  match n.toNat with
  | 0 => some .es
  | 1 => some .cs
  | 2 => some .ss
  | 3 => some .ds
  | 4 => some .fs
  | 5 => some .gs
  | _ => none

/-- Little endian. -/
def immediate : List Byte → Option (BitVec 32)
  | b₀ :: b₁ :: b₂ :: b₃ :: _ => some (b₃ ++ b₂ ++ b₁ ++ b₀)
  | _ => none

/-- An operand `[esp+offset]`, with the other operand of the instruction and with its length. -/
def memoryOperand : List Byte → Option (BitVec 3 × BitVec 32 × Nat)
  | modrm :: sib :: bytes =>
      if modrm.extractLsb' 0 3 = 4 ∧ sib = 0x24 then
        match (modrm.extractLsb' 6 2).toNat, bytes with
        | 1, b :: _ => some (modrm.extractLsb' 3 3, b.signExtend 32, 3)
        | 2, bytes => (immediate bytes).map fun n => (modrm.extractLsb' 3 3, n, 6)
        | _, _ => none
      else none
  | _ => none

/-- An operand which is a register, with the other operand. -/
def registerOperand (modrm : Byte) : Option (BitVec 3 × Register) :=
  if modrm.extractLsb' 6 2 = 3 then
    some (modrm.extractLsb' 3 3, register (modrm.extractLsb' 0 3))
  else none

/-- An instruction with the operand `[esp+offset]` behind `n` bytes. -/
def withMemory (n : Nat) (bytes : List Byte)
    (f : BitVec 3 → BitVec 32 → Option Instruction) : Option (Instruction × Nat) := do
  let (reg, offset, length) ← memoryOperand bytes
  let i ← f reg offset
  return (i, n + length)

/-- The first instruction with its length. -/
def decode : List Byte → Option (Instruction × Nat)
  | [] => none
  | opcode :: bytes =>
      match opcode.toNat, bytes with
      | 0x0f, 0x06 :: _ => some (.clts, 2)
      | 0x0f, 0x20 :: modrm :: _ => do
          let (reg, r) ← registerOperand modrm
          if reg = 3 then some (.moveCr3 r, 3) else none
      | 0x2d, bytes => (immediate bytes).map fun n => (.sub .eax n, 5)
      | 0x66, 0x89 :: bytes => withMemory 2 bytes fun reg d => some (.storeHalf d (register reg))
      | 0x66, 0x8b :: bytes => withMemory 2 bytes fun reg d => some (.loadHalf (register reg) d)
      | 0x83, modrm :: b :: _ => do
          let (op, r) ← registerOperand modrm
          if op = 0 then some (.add r (b.signExtend 32), 3)
          else if op = 5 then some (.sub r (b.signExtend 32), 3)
          else none
      | 0x89, bytes => withMemory 1 bytes fun reg d => some (.store d (register reg))
      | 0x8b, bytes => withMemory 1 bytes fun reg d => some (.load (register reg) d)
      | 0x8c, bytes => withMemory 1 bytes fun reg d => (segment reg).map fun s => .storeSegment d s
      | 0x8d, bytes => withMemory 1 bytes fun reg d => some (.lea (register reg) d)
      | 0xc1, modrm :: b :: _ => do
          let (op, r) ← registerOperand modrm
          if op = 5 then some (.shr r (b.toNat % 32), 3) else none
      | 0xcf, _ => some (.iret, 1)
      | 0xe8, bytes => (immediate bytes).map fun n => (.call n, 5)
      | 0xea, b₀ :: b₁ :: b₂ :: b₃ :: s₀ :: s₁ :: _ =>
          some (.jumpFar (s₁ ++ s₀) (b₃ ++ b₂ ++ b₁ ++ b₀), 7)
      | 0xff, bytes => withMemory 1 bytes fun op d => if op = 6 then some (.pushMemory d) else none
      | n, _ =>
          if n / 8 = 0x50 / 8 then some (.push (register (opcode.extractLsb' 0 3)), 1)
          else if n / 8 = 0x58 / 8 then some (.pop (register (opcode.extractLsb' 0 3)), 1)
          else none

/-! The memory. -/

def storeBytes (m : Memory) (a : Address) (bytes : List Byte) : Memory := fun x =>
  if (x - a).toNat < bytes.length then bytes.getD (x - a).toNat 0 else m x

def halfBytes (w : BitVec 16) : List Byte := [w.extractLsb' 0 8, w.extractLsb' 8 8]

def wordBytes (w : BitVec 32) : List Byte :=
  [w.extractLsb' 0 8, w.extractLsb' 8 8, w.extractLsb' 16 8, w.extractLsb' 24 8]

def load (m : Memory) (a : Address) : BitVec 32 :=
  m (a + 3#32) ++ m (a + 2#32) ++ m (a + 1#32) ++ m a

def loadHalf (m : Memory) (a : Address) : BitVec 16 := m (a + 1#32) ++ m a

def store (m : Memory) (a : Address) (w : BitVec 32) : Memory := storeBytes m a (wordBytes w)

def storeHalf (m : Memory) (a : Address) (w : BitVec 16) : Memory := storeBytes m a (halfBytes w)

/-! The processor. -/

@[ext]
structure Cpu where
  register : Register → BitVec 32
  segment : Segment → BitVec 16
  eip : Address
  eflags : BitVec 32
  cr3 : BitVec 32
  /-- the flag `TS` of `cr0` -/
  taskSwitched : Bool
  memory : Memory

/-- What the instructions do to the flags, and what a jump to a task does. -/
structure Environment where
  flags : Instruction → Cpu → BitVec 32
  switchTask : BitVec 16 → Cpu → Cpu

def Cpu.set (c : Cpu) (r : Register) (w : BitVec 32) : Cpu :=
  { c with register := Function.update c.register r w }

def Cpu.esp (c : Cpu) : Address := c.register .esp

def Cpu.push (c : Cpu) (w : BitVec 32) : Cpu :=
  { c.set .esp (c.esp - 4#32) with memory := store c.memory (c.esp - 4#32) w }

/-- The privilege level of a selector. -/
def privilege (selector : BitVec 16) : BitVec 2 := selector.extractLsb' 0 2

/-- To another privilege level the stack is changed too. -/
def Cpu.iret (c : Cpu) : Cpu :=
  let cs := Instructions.loadHalf c.memory (c.esp + 4#32)
  let c' := { c with
    eip := Instructions.load c.memory c.esp
    eflags := Instructions.load c.memory (c.esp + 8#32)
    segment := Function.update c.segment .cs cs }
  if privilege cs = privilege (c.segment .cs) then c'.set .esp (c.esp + 12#32)
  else { c'.set .esp (Instructions.load c.memory (c.esp + 12#32)) with
    segment := Function.update c'.segment .ss (Instructions.loadHalf c.memory (c.esp + 16#32)) }

/-- What an instruction does if `eip` is behind it already. -/
def exec (env : Environment) (c : Cpu) (i : Instruction) : Cpu :=
  match i with
  | .store d r => { c with memory := store c.memory (c.esp + d) (c.register r) }
  | .load r d => c.set r (load c.memory (c.esp + d))
  | .storeHalf d r =>
      { c with memory := storeHalf c.memory (c.esp + d) ((c.register r).extractLsb' 0 16) }
  | .loadHalf r d =>
      c.set r ((c.register r).extractLsb' 16 16 ++ loadHalf c.memory (c.esp + d))
  | .storeSegment d s => { c with memory := storeHalf c.memory (c.esp + d) (c.segment s) }
  | .lea r d => c.set r (c.esp + d)
  | .moveCr3 r => c.set r c.cr3
  | .add r n => { c.set r (c.register r + n) with eflags := env.flags i c }
  | .sub r n => { c.set r (c.register r - n) with eflags := env.flags i c }
  | .shr r n => { c.set r (c.register r >>> n) with eflags := env.flags i c }
  | .push r => c.push (c.register r)
  | .pushMemory d => c.push (load c.memory (c.esp + d))
  | .pop r => (c.set .esp (c.esp + 4#32)).set r (load c.memory c.esp)
  | .call d => { c.push c.eip with eip := c.eip + d }
  | .jumpFar selector _ => env.switchTask selector c
  | .clts => { c with taskSwitched := false }
  | .iret => c.iret

/-- No instruction is longer. -/
def MAX_LENGTH : Nat := 15

def fetch (m : Memory) (a : Address) : List Byte :=
  (List.range MAX_LENGTH).map fun k => m (a + BitVec.ofNat 32 k)

/-- An instruction with its length. -/
def perform (env : Environment) (c : Cpu) (i : Instruction × Nat) : Cpu :=
  exec env { c with eip := c.eip + BitVec.ofNat 32 i.2 } i.1

def step (env : Environment) (c : Cpu) : Option Cpu :=
  (decode (fetch c.memory c.eip)).map (perform env c)

def steps (env : Environment) : Nat → Cpu → Option Cpu
  | 0, c => some c
  | n + 1, c => (step env c).bind (steps env n)

/-! Loads and stores. -/

section

variable {m m' : Memory} {a x : Address} {bytes : List Byte} {n k : Nat}

theorem storeBytes_frame (h : bytes.length ≤ (x - a).toNat) : storeBytes m a bytes x = m x :=
  if_neg (Nat.not_lt.mpr h)

theorem storeBytes_apply (h : k < bytes.length) (hk : k < 2 ^ 32) :
    storeBytes m a bytes (a + BitVec.ofNat 32 k) = bytes.getD k 0 := by
  have hsub : (a + BitVec.ofNat 32 k - a).toNat = k := by
    rw [add_sub_cancel_left, BitVec.toNat_ofNat, Nat.mod_eq_of_lt hk]
  rw [storeBytes, hsub, if_pos h]

theorem append_bytes (w : BitVec 32) :
    w.extractLsb' 24 8 ++ w.extractLsb' 16 8 ++ w.extractLsb' 8 8 ++ w.extractLsb' 0 8 = w := by
  apply BitVec.eq_of_getLsbD_eq
  intro i hi
  simp only [BitVec.getLsbD_append, BitVec.getLsbD_extractLsb']
  split_ifs with h₀ h₁ h₂
  · simp [h₀]
  · have h : 8 + (i - 8) = i := by omega
    simp [h₁, h]
  · have h : 16 + (i - 8 - 8) = i := by omega
    simp [h₂, h]
  · have h : 24 + (i - 8 - 8 - 8) = i := by omega
    have hlt : i - 8 - 8 - 8 < 8 := by omega
    simp [hlt, h]

theorem append_half_bytes (w : BitVec 16) : w.extractLsb' 8 8 ++ w.extractLsb' 0 8 = w := by
  apply BitVec.eq_of_getLsbD_eq
  intro i hi
  simp only [BitVec.getLsbD_append, BitVec.getLsbD_extractLsb']
  split_ifs with h₀
  · simp [h₀]
  · have h : 8 + (i - 8) = i := by omega
    have hlt : i - 8 < 8 := by omega
    simp [hlt, h]

@[simp]
theorem lower_append (u v : BitVec 16) : (u ++ v).extractLsb' 0 16 = v := by
  apply BitVec.eq_of_getLsbD_eq
  intro i hi
  simp only [BitVec.getLsbD_extractLsb', BitVec.getLsbD_append, zero_add, hi, decide_true,
    Bool.true_and, if_true]

@[simp]
theorem append_halves (w : BitVec 32) : w.extractLsb' 16 16 ++ w.extractLsb' 0 16 = w := by
  apply BitVec.eq_of_getLsbD_eq
  intro i hi
  simp only [BitVec.getLsbD_append, BitVec.getLsbD_extractLsb']
  split_ifs with h
  · simp [h]
  · have h' : 16 + (i - 16) = i := by omega
    have hlt : i - 16 < 16 := by omega
    simp [hlt, h']

@[simp]
theorem load_store (m : Memory) (a : Address) (w : BitVec 32) : load (store m a w) a = w := by
  have hbyte : ∀ k, k < 4 → store m a w (a + BitVec.ofNat 32 k) = (wordBytes w).getD k 0 :=
    fun k hk => storeBytes_apply hk (by omega)
  have h₀ : store m a w a = w.extractLsb' 0 8 := by simpa [wordBytes] using hbyte 0 (by decide)
  rw [load, h₀, hbyte 1 (by decide), hbyte 2 (by decide), hbyte 3 (by decide)]
  exact append_bytes w

@[simp]
theorem loadHalf_storeHalf (m : Memory) (a : Address) (w : BitVec 16) :
    loadHalf (storeHalf m a w) a = w := by
  have hbyte : ∀ k, k < 2 → storeHalf m a w (a + BitVec.ofNat 32 k) = (halfBytes w).getD k 0 :=
    fun k hk => storeBytes_apply hk (by omega)
  have h₀ : storeHalf m a w a = w.extractLsb' 0 8 := by simpa [halfBytes] using hbyte 0 (by decide)
  rw [loadHalf, h₀, hbyte 1 (by decide)]
  exact append_half_bytes w

theorem load_congr (h : ∀ k < 4, m' (a + BitVec.ofNat 32 k) = m (a + BitVec.ofNat 32 k)) :
    load m' a = load m a := by
  have h₀ : m' a = m a := by simpa using h 0 (by decide)
  rw [load, load, h₀, h 1 (by decide), h 2 (by decide), h 3 (by decide)]

/-! Tables, whose entries are as long as each other. -/

/-- `n` entries from `a` on. -/
def storeTable (m : Memory) (a : Address) (entry : Nat → List Byte) (s n : Nat) : Memory :=
  (List.range n).foldl (fun m i => storeBytes m (a + BitVec.ofNat 32 (s * i)) (entry i)) m

theorem storeTable_succ (m : Memory) (a : Address) (entry : Nat → List Byte) (s n : Nat) :
    storeTable m a entry s (n + 1) =
      storeBytes (storeTable m a entry s n) (a + BitVec.ofNat 32 (s * n)) (entry n) := by
  simp [storeTable, List.range_succ]

variable {entry : Nat → List Byte} {s i : Nat}

theorem storeTable_frame (hentry : ∀ i, (entry i).length = s) (hx : s * n ≤ (x - a).toNat) :
    storeTable m a entry s n x = m x := by
  induction n with
  | zero => rfl
  | succ n ih =>
      have hlt := (x - a).isLt
      rw [Nat.mul_succ] at hx
      rw [storeTable_succ, storeBytes_frame, ih (by omega)]
      rw [hentry, sub_add_eq_sub_sub, BitVec.toNat_sub, BitVec.toNat_ofNat]
      omega

theorem storeTable_apply (hentry : ∀ i, (entry i).length = s) (hn : s * n ≤ 2 ^ 32) (hi : i < n)
    (hk : k < s) :
    storeTable m a entry s n (a + BitVec.ofNat 32 (s * i) + BitVec.ofNat 32 k) =
      (entry i).getD k 0 := by
  induction n with
  | zero => cases hi
  | succ n ih =>
      rw [Nat.mul_succ] at hn
      rw [storeTable_succ]
      by_cases heq : i = n
      · subst heq
        exact storeBytes_apply (by rwa [hentry]) (by omega)
      · have hle : s * (i + 1) ≤ s * n := Nat.mul_le_mul_left s (by omega)
        rw [Nat.mul_succ] at hle
        rw [storeBytes_frame, ih (by omega) (by omega)]
        have hsub : a + BitVec.ofNat 32 (s * i) + BitVec.ofNat 32 k -
            (a + BitVec.ofNat 32 (s * n)) =
            BitVec.ofNat 32 (s * i + k) - BitVec.ofNat 32 (s * n) := by
          rw [add_assoc, ← BitVec.ofNat_add, add_sub_add_left_eq_sub]
        rw [hsub, hentry, BitVec.toNat_sub, BitVec.toNat_ofNat, BitVec.toNat_ofNat]
        omega

end

end Ibnos.Instructions
