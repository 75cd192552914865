import Ibnos.Programs
import Mathlib.Algebra.Group.Nat.Defs
import Mathlib.Logic.Function.Basic

/-!
The memory of the machine as the kernel sees it: the bitmap of physical pages,
the records with their reference counts, and the page tables of the kernel and
of the processes. Page tables are kept by the address space they describe.
Whenever the kernel reads or writes one of them, the page through which it does
so has to be mapped to the frame which holds the table.
-/

namespace Ibnos.Memory

open Ibnos.Programs

def PAGE_SIZE : Nat := 0x1000

def PAGE_COUNT : Nat := 0x100000

def PAGETABLE_COUNT : Nat := 0x400

/-- The last entry of the kernel's page directory points to the directory itself. -/
def KERNEL_DIR_ENTRY : Nat := 0x3FF

/-- The first of the pages at which the kernel sees its own page tables. -/
def KERNEL_PAGE : Nat := 0xFFC00

/-- The page at which the kernel sees its own page directory. -/
def KERNEL_DIR : Nat := 0xFFFFF

structure PagingEntry where
  present : Bool := false
  rw : Bool := false
  user : Bool := false
  avail : BitVec 3 := 0
  frame : Nat := 0
deriving DecidableEq, Repr

def PAGING_AVAIL_NOTPRESENT_RESERVED : BitVec 3 := 1

def PAGING_AVAIL_NOTPRESENT_ON_ACCESS_CREATE : BitVec 3 := 2

def PAGING_AVAIL_NOTPRESENT_OUTPAGED : BitVec 3 := 3

def PAGING_AVAIL_PRESENT_SHARED : BitVec 3 := 1

def PAGING_AVAIL_PRESENT_NO_FORK : BitVec 3 := 2

def PAGING_AVAIL_PRESENT_ON_WRITE_DUPLICATE : BitVec 3 := 3

/-- The entry whose value is 0. -/
def PagingEntry.zero : PagingEntry := {}

def PagingEntry.isReserved (e : PagingEntry) : Bool :=
  !e.present && e.avail == PAGING_AVAIL_NOTPRESENT_RESERVED

structure PhysMemExtraInfo where
  present : Bool := false
  ref : Nat := 0
  unpageable : Bool := false
deriving DecidableEq, Repr

def PhysMemExtraInfo.zero : PhysMemExtraInfo := {}

/-- The paging fields of a process. `directory` and `table` are the contents of
the pages behind `pageDirectory` and `pageTables`. -/
structure Process where
  pageDirectory : Option Nat := none
  pageTables : Nat → Option Nat := fun _ => none
  directory : Nat → PagingEntry := fun _ => .zero
  directoryFrame : Nat := 0
  table : Nat → PagingEntry := fun _ => .zero

structure Machine where
  pagingEnabled : Bool
  physMemMap : Nat → BitVec 32
  physMemExtra : Nat → Option Nat
  /-- The contents of the pages behind `physMemExtra`, and their frames. -/
  extraInfo : Nat → PhysMemExtraInfo
  extraFrame : Nat → Nat
  /-- All page tables of the kernel, its page directory among them, and their frames. -/
  kernel : Nat → PagingEntry
  kernelTable : Nat → Nat
  process : Nat → Process
  /-- What is stored in the frames which hold none of the tables above. -/
  memory : Nat → Nat → BitVec 8
  holdsTable : Nat → Bool
  /-- The frames which `physMemAllocPage` ever returned. -/
  handedOut : Nat → Bool

/-- Why the kernel stops. The last three are not failures the source knows:
an access through a page which is not mapped, an access through a page which
is mapped to another frame, and a recursion which does not end. -/
inductive Stop where
  | assertion
  | addressInUse
  | addressSpaceFull
  | outOfMemory
  | notImplemented
  | nullPointer
  | pageFault
  | corrupted
  | outOfFuel
deriving DecidableEq, Repr

abbrev M := Program Machine Stop

def check (b : Bool) : M Unit :=
  if b then pure () else throw .assertion

/-- The number of the page at an address. -/
@[irreducible] def pageOf (addr : Nat) : Nat := addr / PAGE_SIZE % PAGE_COUNT

/-- `cur += PAGE_SIZE` -/
@[irreducible] def nextPage (cur : Nat) : Nat := (cur + PAGE_SIZE) % 2 ^ 32

/-- The frame behind a page of the kernel. -/
def Machine.translate (s : Machine) (page : Nat) : Option Nat :=
  if (s.kernel (KERNEL_PAGE + page / PAGETABLE_COUNT)).present && (s.kernel page).present then
    some (s.kernel page).frame
  else none

/-- The kernel accesses the contents of a frame through one of its pages. -/
def access (page frame : Nat) : M Unit := do
  let s ← get
  if s.pagingEnabled then
    match s.translate page with
    | none => throw .pageFault
    | some frame' => if frame' = frame then pure () else throw .corrupted
  else pure ()

def Machine.setKernel (s : Machine) (page : Nat) (e : PagingEntry) : Machine :=
  { s with kernel := Function.update s.kernel page e }

def Machine.setProcess (s : Machine) (pid : Nat) (p : Process) : Machine :=
  { s with process := Function.update s.process pid p }

def Process.setTable (p : Process) (page : Nat) (e : PagingEntry) : Process :=
  { p with table := Function.update p.table page e }

def Process.setDirectory (p : Process) (i : Nat) (e : PagingEntry) : Process :=
  { p with directory := Function.update p.directory i e }

def Process.setPageTable (p : Process) (i : Nat) (k : Option Nat) : Process :=
  { p with pageTables := Function.update p.pageTables i k }

/-- Access to the page table of a process (or of the kernel) which describes a page. -/
def accessTable : Option Nat → Nat → M Unit
  | none, page => do
      let s ← get
      access (KERNEL_PAGE + page / PAGETABLE_COUNT) (s.kernelTable (page / PAGETABLE_COUNT))
  | some pid, page => do
      let p := (← get).process pid
      match p.pageTables (page / PAGETABLE_COUNT) with
      | none => throw .nullPointer
      | some k => access k (p.directory (page / PAGETABLE_COUNT)).frame

def Machine.entry (s : Machine) : Option Nat → Nat → PagingEntry
  | none, page => s.kernel page
  | some pid, page => (s.process pid).table page

def Machine.setEntry (s : Machine) : Option Nat → Nat → PagingEntry → Machine
  | none, page, e => s.setKernel page e
  | some pid, page, e => s.setProcess pid ((s.process pid).setTable page e)

/-- Reads `*table`, where `table` is the entry of a page. -/
def loadEntry (p : Option Nat) (page : Nat) : M PagingEntry := do
  accessTable p page
  return (← get).entry p page

/-- Writes `*table`, where `table` is the entry of a page. -/
def storeEntry (p : Option Nat) (page : Nat) (e : PagingEntry) : M Unit := do
  accessTable p page
  modify (·.setEntry p page e)

/-- The array index of the kernel's `physMemExtra` and the record of a frame. -/
def PHYSMEMEXTRA_COUNT : Nat := 0x400

def Machine.setBit (s : Machine) (index : Nat) (b : Bool) : Machine :=
  let word := s.physMemMap (index / 32)
  let mask := 1#32 <<< (index % 32)
  { s with physMemMap :=
      Function.update s.physMemMap (index / 32) (if b then word ||| mask else word &&& ~~~mask) }

def Machine.handOut (s : Machine) (index : Nat) : Machine :=
  { s with
    handedOut := Function.update s.handedOut index true
    holdsTable := Function.update s.holdsTable index false }

/-- The table `i` of the kernel is a new page, which is cleared. -/
def Machine.setKernelTable (s : Machine) (i frame : Nat) : Machine :=
  { s with
    kernel := fun page => if page / PAGETABLE_COUNT = i then .zero
      else if page = KERNEL_PAGE + i then ⟨true, true, true, 0, frame⟩
      else s.kernel page
    kernelTable := Function.update s.kernelTable i frame
    holdsTable := Function.update s.holdsTable frame true }

/-- The page at `addr` is the table `i` of records, and it is cleared. -/
def Machine.setExtra (s : Machine) (i addr : Nat) : Machine :=
  let frame := (s.kernel (pageOf addr)).frame
  { s with
    physMemExtra := Function.update s.physMemExtra i (some (pageOf addr))
    extraFrame := Function.update s.extraFrame i frame
    extraInfo := fun index =>
      if index / PHYSMEMEXTRA_COUNT = i then .zero else s.extraInfo index
    holdsTable := Function.update s.holdsTable frame true }

/-- The record of a frame as `physMemAddRefPage` and `physMemMarkUnpageable` start it. -/
def PhysMemExtraInfo.started (info : PhysMemExtraInfo) : PhysMemExtraInfo :=
  if info = .zero then { present := true, ref := 1 } else info

def accessInfo (index : Nat) : M Unit := do
  let s ← get
  match s.physMemExtra (index / PHYSMEMEXTRA_COUNT) with
  | none => throw .nullPointer
  | some k => access k (s.extraFrame (index / PHYSMEMEXTRA_COUNT))

def loadInfo (index : Nat) : M PhysMemExtraInfo := do
  accessInfo index
  return (← get).extraInfo index

def Machine.setInfo (s : Machine) (index : Nat) (info : PhysMemExtraInfo) : Machine :=
  { s with extraInfo := Function.update s.extraInfo index info }

def storeInfo (index : Nat) (info : PhysMemExtraInfo) : M Unit := do
  accessInfo index
  modify (·.setInfo index info)

end Ibnos.Memory
