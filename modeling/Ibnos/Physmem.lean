import Ibnos.Memory

/-!
Physical pages: the bitmap, the records with the reference counts, and the part
of paging they rest on, namely the one which only concerns the address space of
the kernel.
-/

namespace Ibnos.Physmem

open Ibnos.Memory
open Ibnos.Programs

/-- The number of words in `physMemMap`. -/
def PHYSMEMMAP_COUNT : Nat := 0x8000

/-- The first word which is not `0xFFFFFFFF`. -/
def findWord (map : Nat → BitVec 32) : Nat → Nat → Option Nat
  | 0, _ => none
  | n + 1, longIndex =>
      if map longIndex ≠ 0xFFFFFFFF then some longIndex else findWord map n (longIndex + 1)

/-- The first bit which is not set. -/
def findBit (word : BitVec 32) : Nat → Nat → Nat
  | 0, longOffset => longOffset
  | n + 1, longOffset =>
      if word.getLsbD longOffset then findBit word n (longOffset + 1) else longOffset

def physMemPageOut (_length : Nat) : M Unit := throw .notImplemented

def physMemPageIn (_hdd_index : Nat) : M Unit := throw .notImplemented

/-- The search starts at 1MB unless low memory will do. -/
def firstWord (lowmem : Bool) : Nat := if lowmem then 0 else 8

def takePage (index : Nat) : M Nat := do
  modify fun s => (s.setBit index true).handOut index
  return index

def allocLoop (lowmem : Bool) : Nat → M Nat
  | 0 => throw .outOfMemory
  | tries + 1 => do
      let s ← get
      match findWord s.physMemMap (PHYSMEMMAP_COUNT - firstWord lowmem) (firstWord lowmem) with
      | some longIndex => takePage (longIndex * 32 + findBit (s.physMemMap longIndex) 32 0)
      | none =>
          physMemPageOut 1
          allocLoop lowmem tries

def physMemAllocPage (lowmem : Bool) : M Nat := allocLoop lowmem 0x10

/-- The switch on `avail` for an entry which has to be present. -/
def requirePresent (e : PagingEntry) : M Unit :=
  if e.present then pure ()
  else if e.avail = PAGING_AVAIL_NOTPRESENT_OUTPAGED then physMemPageIn e.frame
  else throw .assertion

/-- `__getPagingEntry` for the kernel. The result is false instead of a null pointer. -/
def getKernelEntry (page : Nat) (alloc : Bool) : M Bool := do
  let i := page / PAGETABLE_COUNT
  access KERNEL_DIR ((← get).kernelTable KERNEL_DIR_ENTRY)
  let dir := (← get).kernel (KERNEL_PAGE + i)
  if dir = .zero then
    if alloc then do
      let frame ← physMemAllocPage false
      modify fun s => s.setKernelTable i frame
      return true
    else return false
  else do
    requirePresent dir
    check (dir.avail == 0)
    return true

/-- `start + length - 1` in 32 bits. -/
@[irreducible] def lastPage (start length : Nat) : Nat := (start + length + 2 ^ 32 - 1) % 2 ^ 32

section

/-! The search and the allocation are the same for the kernel and for a process.
`entry` stands for `__getPagingEntry` of the address space `p`. -/

variable (entry : Nat → Bool → M Bool) (p : Option Nat)

/-- The loop of `pagingTrySearchArea`, with the number of rounds which are left. -/
def searchLoop (length : Nat) : Nat → Nat → Nat → M (Option Nat)
  | 0, _, _ => return none
  | rounds + 1, i, start =>
      if i < KERNEL_PAGE then do
        let table ← entry i false
        if table then do
          let e ← loadEntry p i
          if e ≠ .zero then searchLoop length rounds (i + 1) (i + 1)
          else if lastPage start length ≤ i then return some (start * PAGE_SIZE)
          else searchLoop length rounds (i + 1) start
        else if lastPage start length ≤ i ||| 0x3FF then return some (start * PAGE_SIZE)
        else searchLoop length rounds ((i ||| 0x3FF) + 1) start
      else return none

def trySearchArea (length : Nat) : M (Option Nat) :=
  if length = 0 then return none else searchLoop entry p length KERNEL_PAGE 1 1

/-- The loop of `pagingTryAllocatePhysMem`. -/
def allocateLoop (rw user : Bool) : Nat → Nat → M Unit
  | 0, _ => return ()
  | length + 1, cur => do
      let index ← physMemAllocPage false
      let _ ← entry (pageOf cur) true
      let table ← loadEntry p (pageOf cur)
      check (table == .zero)
      storeEntry p (pageOf cur) ⟨true, rw, user, 0, index⟩
      allocateLoop rw user length (nextPage cur)

def tryAllocatePhysMem (length : Nat) (rw user : Bool) : M (Option Nat) := do
  match ← trySearchArea entry p length with
  | none => return none
  | some addr =>
      allocateLoop entry p rw user length addr
      return some addr

def allocatePhysMem (length : Nat) (rw user : Bool) : M Nat := do
  match ← tryAllocatePhysMem entry p length rw user with
  | none => throw .addressSpaceFull
  | some addr => return addr

def getPhysMem (addr : Nat) : M Nat := do
  let table ← entry (pageOf addr) false
  check table
  let e ← loadEntry p (pageOf addr)
  check (e != .zero)
  requirePresent e
  return e.frame

end

def markRecord (index : Nat) : M Unit := do
  let info ← loadInfo index
  storeInfo index { info.started with unpageable := true }

/-- Whether there is a record for a frame. A new table of records has a record itself,
which may need another new table. -/
def getPhysMemExtraInfo : Nat → Nat → Bool → M Bool
  | fuel, index, alloc => do
      check (← get).pagingEnabled
      let i := index / PHYSMEMEXTRA_COUNT
      check (decide (i < PHYSMEMEXTRA_COUNT))
      match (← get).physMemExtra i with
      | some _ => return true
      | none =>
          if alloc then
            match fuel with
            | 0 => throw .outOfFuel
            | fuel + 1 => do
                let addr ← allocatePhysMem getKernelEntry none 1 true false
                modify fun s => s.setExtra i addr
                let frame ← getPhysMem getKernelEntry none addr
                check (← getPhysMemExtraInfo fuel frame true)
                markRecord frame
                return true
          else return false

/-- There are no more tables of records than this. -/
def EXTRA_FUEL : Nat := PHYSMEMEXTRA_COUNT + 1

def physMemAddRefPage (index : Nat) : M Nat := do
  check (← getPhysMemExtraInfo EXTRA_FUEL index true)
  let info ← loadInfo index
  let info := info.started
  let ref := (info.ref + 1) % 2 ^ 7
  storeInfo index { info with ref := ref }
  check (ref != 0)
  return index

def physMemMarkUnpageable (index : Nat) : M Nat := do
  check (← getPhysMemExtraInfo EXTRA_FUEL index true)
  markRecord index
  return index

def physMemIsLastRef (index : Nat) : M Bool := do
  let info ← getPhysMemExtraInfo 0 index false
  if info then do
    let info ← loadInfo index
    return info == .zero || info.ref == 1
  else return true

def freePage (index : Nat) : M Nat := do
  modify (·.setBit index false)
  return 0

def releaseRecord (index : Nat) : M Nat := do
  let info ← loadInfo index
  if info = .zero then freePage index
  else do
    check info.present
    let ref := (info.ref + 2 ^ 7 - 1) % 2 ^ 7
    storeInfo index { info with ref := ref }
    if ref ≠ 0 then return ref
    else do
      storeInfo index .zero
      freePage index

def physMemReleasePage (index : Nat) : M Nat := do
  check (((← get).physMemMap (index / 32)).getLsbD (index % 32))
  let info ← getPhysMemExtraInfo 0 index false
  if info then releaseRecord index else freePage index

end Ibnos.Physmem
