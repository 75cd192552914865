import Ibnos.BootMaps
import Ibnos.ByteMemories
import Ibnos.UserAccesses

/-!
The loader of executables. All sections are looked at twice, first for the pages which
they need and then for what these pages hold. A block of the heap is a number; the pages
which the kernel takes for its heap are left out.
-/

namespace Ibnos.ElfLoader

open Ibnos.ByteMemories
open Ibnos.Intervals
open Ibnos.Memory
open Ibnos.Paging
open Ibnos.Programs
open Ibnos.UserAccesses

/-- A file in the memory of the kernel. It ends in front of the page tables. -/
structure Buffer where
  bytes : List (BitVec 8)
  fits : bytes.length ≤ KERNEL_PAGE * PAGE_SIZE

def Buffer.length (b : Buffer) : Nat := b.bytes.length

def Buffer.contents (b : Buffer) : ByteMemories.Memory := fun i => b.bytes.getD i 0

/-- A field of 16 bits. -/
def half (m : ByteMemories.Memory) (a : Nat) : Nat := (m a).toNat + 2 ^ 8 * (m (a + 1)).toNat

structure ElfHeader where
  mag : List (BitVec 8)
  entry : Nat
  shoff : Nat
  shentsize : Nat
  shnum : Nat
  deriving DecidableEq, Repr

/-- `struct elfSectionTable` -/
structure ElfSection where
  type : Nat
  addr : Nat
  offset : Nat
  size : Nat
  deriving DecidableEq, Repr

def HEADER_SIZE : Nat := 52

def SECTION_SIZE : Nat := 40

/-- `ELF_MAG0` to `ELF_MAG3` -/
def ELF_MAG : List (BitVec 8) := [0x7f, 0x45, 0x4c, 0x46]

def ELF_STYPE_NOBITS : Nat := 8

/-- Where this is a file, it starts with these fields. -/
def headerAt (m : ByteMemories.Memory) : ElfHeader where
  mag := [m 0, m 1, m 2, m 3]
  entry := word m 24
  shoff := word m 32
  shentsize := half m 46
  shnum := half m 48

def sectionAt (m : ByteMemories.Memory) (a : Nat) : ElfSection where
  type := word m (a + 4)
  addr := word m (a + 12)
  offset := word m (a + 16)
  size := word m (a + 20)

/-- The heap returns addresses which are not in use. -/
structure Heap where
  address : Finset Nat → Nat
  unused : ∀ blocks, address blocks ∉ blocks

/-- `entryPoint` is a field of each process. -/
structure Loader where
  machine : Machine
  blocks : Finset Nat
  entryPoint : Nat → Nat

abbrev L := Program Loader Stop

/-- The functions for paging do not use the heap. -/
def onMachine {α : Type} (m : M α) : L α := fun s =>
  match m s.machine with
  | .ok (a, machine) => .ok (a, { s with machine := machine })
  | .error e => .error e

/-- A part of the file is read. Outside of the file anything can follow. -/
def readBuffer {α : Type} (b : Buffer) (a length : Nat) (r : α) : L α :=
  if a + length ≤ b.length then pure r else throw .pageFault

section

variable (heap : Heap)

def heapAlloc : L Nat := fun s =>
  .ok (heap.address s.blocks, { s with blocks := insert (heap.address s.blocks) s.blocks })

def heapFree (block : Nat) : L Unit := do
  let s ← get
  if block ∈ s.blocks then set { s with blocks := s.blocks.erase block } else throw .corrupted

/-- `struct requiredPages` -/
structure RequiredPages where
  block : Nat
  range : Stretch Nat
  deriving DecidableEq, Repr

/-- A new entry in front of the others. -/
def insertEntry (startIndex stopIndex : Nat) (pages : List RequiredPages) :
    L (List RequiredPages) := do
  let block ← heapAlloc heap
  return ⟨block, ⟨startIndex, stopIndex⟩⟩ :: pages

/-- The loop of `__insertRequiredPage` over the entries which are left. -/
def insertRequiredLoop : List RequiredPages → Nat → Nat → L (List RequiredPages)
  | [], startIndex, stopIndex => insertEntry heap startIndex stopIndex []
  | it :: rest, startIndex, stopIndex =>
      if stopIndex < it.range.start then insertEntry heap startIndex stopIndex (it :: rest)
      else if it.range.stop < startIndex then do
        let pages ← insertRequiredLoop rest startIndex stopIndex
        return it :: pages
      else if it.range.start ≤ startIndex ∧ stopIndex ≤ it.range.stop then return it :: rest
      else do
        heapFree it.block
        insertRequiredLoop rest (if it.range.start < startIndex then it.range.start else startIndex)
          (if stopIndex < it.range.stop then it.range.stop else stopIndex)

/-- `__insertRequiredPage` -/
def insertRequiredPage (pages : List RequiredPages) (startIndex stopIndex : Nat) :
    L (List RequiredPages) :=
  if stopIndex ≤ startIndex then return pages
  else insertRequiredLoop heap pages startIndex stopIndex

/-- The next section, as far as it is part of the file. -/
def nextSection (b : Buffer) (header : ElfHeader) (offset : Nat) : L (Option ElfSection) :=
  if b.length < ((offset + header.shentsize) % 2 ^ 32 + SECTION_SIZE) % 2 ^ 32 then return none
  else do
    let elfSection ← readBuffer b ((offset + header.shentsize) % 2 ^ 32) SECTION_SIZE
      (sectionAt b.contents ((offset + header.shentsize) % 2 ^ 32))
    return some elfSection

def startIndex (e : ElfSection) : Nat := e.addr / PAGE_SIZE

/-- The sum has 64 bits. -/
def stopIndex (e : ElfSection) : Nat :=
  if PAGE_COUNT ≤ (e.addr + e.size + (PAGE_SIZE - 1)) / PAGE_SIZE then PAGE_COUNT - 1
  else (e.addr + e.size + (PAGE_SIZE - 1)) / PAGE_SIZE

/-- The first loop of `elfLoadBinary`. The list is lost where the file is rejected. -/
def requireLoop (b : Buffer) (header : ElfHeader) :
    Nat → Nat → List RequiredPages → L (Option (List RequiredPages))
  | 0, _, pages => return some pages
  | rounds + 1, offset, pages => do
      match ← nextSection b header offset with
      | none => return none
      | some e =>
          if e.addr = 0 then requireLoop b header rounds ((offset + header.shentsize) % 2 ^ 32) pages
          else if e.type ≠ ELF_STYPE_NOBITS ∧ b.length < e.offset + e.size then return none
          else do
            onMachine (check (decide (startIndex e ≤ stopIndex e)))
            let pages ← insertRequiredPage heap pages (startIndex e) (stopIndex e)
            requireLoop b header rounds ((offset + header.shentsize) % 2 ^ 32) pages

end

/-- The pages which are needed, whose list is given back. -/
def allocateLoop (pid : Nat) : List RequiredPages → L Unit
  | [] => return ()
  | it :: rest => do
      let _ ← onMachine (pagingAllocatePhysMemFixed (some pid) (it.range.start * PAGE_SIZE)
        (it.range.stop - it.range.start) true true)
      heapFree it.block
      allocateLoop pid rest

/-- `memset` or `memcpy` to memory of the kernel. -/
def storeBytes : Nat → List (BitVec 8) → M Unit
  | _, [] => return ()
  | addr, value :: values => do
      storeByte (pageOf addr) (addr % PAGE_SIZE) value
      storeBytes (addr + 1) values

/-- What a section holds in memory. -/
def dataOf (b : Buffer) (e : ElfSection) : List (BitVec 8) :=
  if e.type = ELF_STYPE_NOBITS then List.replicate e.size 0 else (b.bytes.drop e.offset).take e.size

def readData (b : Buffer) (e : ElfSection) : L (List (BitVec 8)) :=
  if e.type = ELF_STYPE_NOBITS then return dataOf b e else readBuffer b e.offset e.size (dataOf b e)

/-- One section of the second loop. -/
def storeSection (pid : Nat) (b : Buffer) (e : ElfSection) : L Bool := do
  let (accessed, k) ← onMachine (accessUserMemory (some pid) e.addr e.size true)
  if accessed then do
    let values ← readData b e
    onMachine (storeBytes (k.addr.getD 0) values)
    onMachine (releaseUserMemory k)
    return true
  else return false

/-- The second loop of `elfLoadBinary`. -/
def storeLoop (pid : Nat) (b : Buffer) (header : ElfHeader) : Nat → Nat → L Bool
  | 0, _ => return true
  | rounds + 1, offset => do
      match ← nextSection b header offset with
      | none => return false
      | some e =>
          if e.addr = 0 then storeLoop pid b header rounds ((offset + header.shentsize) % 2 ^ 32)
          else do
            let stored ← storeSection pid b e
            if stored then storeLoop pid b header rounds ((offset + header.shentsize) % 2 ^ 32)
            else return false

/-- The sections, after the header was accepted. -/
def loadSections (heap : Heap) (pid : Nat) (b : Buffer) (header : ElfHeader) : L Bool := do
  match ← requireLoop heap b header header.shnum header.shoff [] with
  | none => return false
  | some pages => do
      allocateLoop pid pages
      let stored ← storeLoop pid b header header.shnum header.shoff
      if stored then do
        modify fun s => { s with entryPoint := Function.update s.entryPoint pid header.entry }
        return true
      else return false

def elfLoadBinary (heap : Heap) (pid : Nat) (b : Buffer) : L Bool :=
  if b.length < HEADER_SIZE then return false
  else do
    let header ← readBuffer b 0 HEADER_SIZE (headerAt b.contents)
    if header.mag ≠ ELF_MAG then return false
    else if b.length < header.shoff then return false
    else loadSections heap pid b header

end Ibnos.ElfLoader
