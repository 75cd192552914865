import Ibnos.LinkedLists
import Ibnos.Runs
import Mathlib.Algebra.Group.Nat.Defs

/-!
The kernel heap. A block starts with a header of 16 bytes, whose links put it
into one of the lists of the heap. Small blocks share pages, large blocks have
pages of their own.
-/

namespace Ibnos.Allocator

open Ibnos.LinkedLists
open Ibnos.Runs

def PAGE_SIZE : Nat := 0x1000

def HEAP_ALIGN_SIZE : Nat := 16

def SMALL_HEAP_MAGIC : BitVec 32 := 0xFEEFABB1

def LARGE_HEAP_MAGIC : BitVec 32 := 0xFEEFABB2

/-- `sizeof(struct heapEntry)` -/
def ENTRY_SIZE : Nat := 16

/-- `struct heapEntry` without its links. -/
structure HeapEntry where
  heapMagic : BitVec 32
  length : Nat
  reserved : Bool
  deriving DecidableEq, Repr

/-- The lists `smallUnusedHeap32` to `smallUnusedHeap1024`. -/
inductive SizeClass
  | unused32 | unused64 | unused128 | unused256 | unused512 | unused1024
  deriving DecidableEq, Repr

def SizeClass.size : SizeClass → Nat
  | .unused32 => 32
  | .unused64 => 64
  | .unused128 => 128
  | .unused256 => 256
  | .unused512 => 512
  | .unused1024 => 1024

def SizeClass.all : List SizeClass :=
  [.unused32, .unused64, .unused128, .unused256, .unused512, .unused1024]

inductive Node
  | smallHeap
  | smallUnusedHeap (c : SizeClass)
  | largeHeap
  | entry (heap : Nat)
  deriving DecidableEq, Repr

/-- The kernel memory as far as the heap reads it, and the pages it got from the paging layer. -/
structure Heap where
  entries : Nat → HeapEntry
  links : Links Node
  owned : Nat → Bool

inductive Stop
  | assertion
  | pageFault
  /-- a loop which does not end, or a list with something else than blocks in it -/
  | corrupted
  /-- the paging layer has no free pages -/
  | outOfMemory
  /-- the caller passes a pointer which is not live, writes behind its block, or asks for more
  than the field `length` of a block can hold -/
  | invalidCall
  deriving DecidableEq, Repr

/-- Arbitrary contents of memory. -/
structure Garbage where
  entries : Nat → HeapEntry
  links : Links Node

/-- Memory is overwritten in `[start, stop)`. -/
def Heap.overwrite (s : Heap) (start stop : Nat) (garbage : Garbage) : Heap :=
  let hit (x : Nat) : Bool := start < x + ENTRY_SIZE && x < stop
  { s with
    entries := fun x => if hit x then garbage.entries x else s.entries x
    links :=
      { next := fun n => match n with
          | .entry x => if hit x then garbage.links.next n else s.links.next n
          | _ => s.links.next n
        prev := fun n => match n with
          | .entry x => if hit x then garbage.links.prev n else s.links.prev n
          | _ => s.links.prev n } }

def pageOf (x : Nat) : Nat := x / PAGE_SIZE

def Heap.setOwned (s : Heap) (page n : Nat) (b : Bool) : Heap :=
  { s with owned := fun pg => if page ≤ pg ∧ pg < page + n then b else s.owned pg }

def check (p : Bool) : Except Stop Unit := if p then .ok () else .error .assertion

def readEntry (s : Heap) (heap : Nat) : Except Stop HeapEntry :=
  if s.owned (pageOf heap) then .ok (s.entries heap) else .error .pageFault

def writeEntry (s : Heap) (heap : Nat) (e : HeapEntry) : Except Stop Heap :=
  if s.owned (pageOf heap) then .ok { s with entries := Function.update s.entries heap e }
  else .error .pageFault

/-- What `pagingAllocatePhysMem(NULL, n, true, false)` returns: the first of `n`
pages which are not in use, with arbitrary contents. -/
structure Fresh extends Garbage where
  page : Nat

def Fresh.Suitable (f : Fresh) (s : Heap) (n : Nat) : Prop :=
  0 < n ∧ 0 < f.page ∧ (f.page + n) * PAGE_SIZE < 2 ^ 32 ∧ ∀ i < n, s.owned (f.page + i) = false

instance (f : Fresh) (s : Heap) (n : Nat) : Decidable (f.Suitable s n) :=
  inferInstanceAs (Decidable (_ ∧ _ ∧ _ ∧ _))

def pagingAllocatePhysMem (s : Heap) (n : Nat) (fresh : Fresh) : Except Stop (Nat × Heap) :=
  if fresh.Suitable s n then
    let heap := fresh.page * PAGE_SIZE
    .ok (heap, (s.overwrite heap (heap + n * PAGE_SIZE) fresh.toGarbage).setOwned fresh.page n true)
  else .error .outOfMemory

def pagingReleasePhysMem (s : Heap) (heap n : Nat) : Heap := s.setOwned (pageOf heap) n false

/-- `__smallFindUnusedHeapEntry` -/
def smallFindUnusedHeapEntry (s : Heap) (length : Nat) : Except Stop (Option Nat × Heap) :=
  match SizeClass.all.find? fun c => length ≤ c.size ∧ s.links.empty (.smallUnusedHeap c) = false with
  | none => .ok (none, s)
  | some c =>
      match s.links.next (.smallUnusedHeap c) with
      | .entry heap => .ok (some heap, { s with links := s.links.remove (.entry heap) })
      | _ => .error .corrupted

/-- The list in which `__smallQueueUnusedHeap` puts a block. -/
def unusedClass (length : Nat) : Option SizeClass :=
  if 1024 ≤ length then some .unused1024
  else if 512 ≤ length then some .unused512
  else if 256 ≤ length then some .unused256
  else if 128 ≤ length then some .unused128
  else if 64 ≤ length then some .unused64
  else if 32 ≤ length then some .unused32
  else none

/-- `__smallQueueUnusedHeap`. No caller uses the pointer it returns. -/
def smallQueueUnusedHeap (s : Heap) (heap length : Nat) : Except Stop Heap :=
  if heap % PAGE_SIZE = 0 ∧ length = PAGE_SIZE then .ok (pagingReleasePhysMem s heap 1)
  else match unusedClass length with
  | none => .error .assertion
  | some c => do
      let s ← writeEntry s heap
        { heapMagic := SMALL_HEAP_MAGIC, length := length, reserved := false }
      return { s with links := s.links.addAfter (.smallUnusedHeap c) (.entry heap) }

/-- The loop of `__smallGetPreviousHeap`. -/
def smallWalk (s : Heap) (heap : Nat) : Nat → Nat → Except Stop Nat
  | 0, _ => .error .corrupted
  | fuel + 1, prev =>
      if prev < heap then do
        let e ← readEntry s prev
        check (e.heapMagic = SMALL_HEAP_MAGIC)
        check (e.length % HEAP_ALIGN_SIZE = 0)
        if heap ≤ prev + e.length then return prev
        else smallWalk s heap fuel (prev + e.length)
      else do
        check (prev = heap)
        return prev

/-- `__smallGetPreviousHeap`. A page has at most 256 blocks. -/
def smallGetPreviousHeap (s : Heap) (heap : Nat) : Except Stop Nat :=
  smallWalk s heap (PAGE_SIZE / HEAP_ALIGN_SIZE + 1) (pageOf heap * PAGE_SIZE)

/-- `__smallGetNextHeap` -/
def smallGetNextHeap (s : Heap) (heap length : Nat) : Except Stop (Option Nat) :=
  if pageOf heap * PAGE_SIZE + PAGE_SIZE ≤ heap + length then .ok none
  else do
    let e ← readEntry s (heap + length)
    check (e.heapMagic = SMALL_HEAP_MAGIC)
    check (e.length % HEAP_ALIGN_SIZE = 0)
    return some (heap + length)

/-- Step 1 of `__smallInternalFree`: merge with the free area before it. -/
def mergePrevious (s : Heap) (heap length : Nat) : Except Stop (Heap × Nat × Nat) := do
  let prev ← smallGetPreviousHeap s heap
  let e ← readEntry s prev
  if e.reserved = false then
    return ({ s with links := s.links.remove (.entry prev) }, prev, heap + length - prev)
  else return (s, heap, length)

/-- Step 2: merge with the free area behind it. -/
def mergeNext (s : Heap) (heap length : Nat) : Except Stop (Heap × Nat) := do
  match ← smallGetNextHeap s heap length with
  | none => return (s, length)
  | some next =>
      let e ← readEntry s next
      if e.reserved = false then
        return ({ s with links := s.links.remove (.entry next) }, next + e.length - heap)
      else return (s, length)

/-- `__smallInternalFree` -/
def smallInternalFree (s : Heap) (heap length : Nat) : Except Stop Heap := do
  check (heap % HEAP_ALIGN_SIZE = 0)
  check (length % HEAP_ALIGN_SIZE = 0 ∧ 0 < length)
  let (s, heap, length) ← mergePrevious s heap length
  let (s, length) ← mergeNext s heap length
  smallQueueUnusedHeap s heap length

/-- `length` with the header, rounded up. -/
def blockLength (length : Nat) : Nat :=
  (length + ENTRY_SIZE + (HEAP_ALIGN_SIZE - 1)) / HEAP_ALIGN_SIZE * HEAP_ALIGN_SIZE

/-- The block which `__smallAlloc` starts from, with its length. -/
def smallTake (s : Heap) (length : Nat) (fresh : Fresh) : Except Stop (Nat × Nat × Heap) := do
  let (found, s) ← smallFindUnusedHeapEntry s length
  match found with
  | some heap =>
      let e ← readEntry s heap
      check (e.heapMagic = SMALL_HEAP_MAGIC)
      check (e.length % HEAP_ALIGN_SIZE = 0)
      check (length ≤ e.length)
      check (e.reserved = false)
      return (heap, e.length, s)
  | none =>
      let (heap, s) ← pagingAllocatePhysMem s 1 fresh
      return (heap, PAGE_SIZE, s)

/-- The whole block is used if the rest of it is too small to be useful. -/
def usedLength (length origHeapLength : Nat) : Nat :=
  if origHeapLength < length + ENTRY_SIZE + 16 then origHeapLength else length

/-- Give the rest of a block back. -/
def smallReturnRest (s : Heap) (heap length origHeapLength : Nat) : Except Stop Heap :=
  if length < origHeapLength then smallInternalFree s (heap + length) (origHeapLength - length)
  else .ok s

/-- `__smallAlloc` -/
def smallAlloc (s : Heap) (length : Nat) (fresh : Fresh) : Except Stop (Nat × Heap) := do
  let (heap, origHeapLength, s) ← smallTake s (blockLength length) fresh
  let length := usedLength (blockLength length) origHeapLength
  let s ← writeEntry s heap
    { heapMagic := SMALL_HEAP_MAGIC, length := length, reserved := true }
  let s ← smallReturnRest { s with links := s.links.addAfter .smallHeap (.entry heap) }
    heap length origHeapLength
  return (heap, s)

/-- `__smallFree` -/
def smallFree (s : Heap) (heap : Nat) : Except Stop Heap := do
  let e ← readEntry s heap
  check (e.heapMagic = SMALL_HEAP_MAGIC)
  check (e.length % HEAP_ALIGN_SIZE = 0)
  check e.reserved
  smallInternalFree { s with links := s.links.remove (.entry heap) } heap e.length

/-- The part of `__smallReAlloc` which looks for space behind the block: the
length the block spans afterwards, or `none` if it cannot be enlarged. -/
def smallExtend (s : Heap) (heap length origHeapLength : Nat) :
    Except Stop (Option (Nat × Heap)) :=
  if origHeapLength < length then do
    match ← smallGetNextHeap s heap origHeapLength with
    | none => return none
    | some next =>
        let e ← readEntry s next
        if e.reserved = true ∨ next + e.length - heap < length then return none
        else return some (next + e.length - heap, { s with links := s.links.remove (.entry next) })
  else .ok (some (origHeapLength, s))

/-- `__smallReAlloc` -/
def smallReAlloc (s : Heap) (heap length : Nat) : Except Stop (Option Nat × Heap) := do
  let e ← readEntry s heap
  check (e.heapMagic = SMALL_HEAP_MAGIC)
  check (e.length % HEAP_ALIGN_SIZE = 0)
  check e.reserved
  if 1024 - ENTRY_SIZE < length then return (none, s)
  else
    match ← smallExtend s heap (blockLength length) e.length with
    | none => return (none, s)
    | some (origHeapLength, s) =>
        check (blockLength length ≤ origHeapLength)
        let length := usedLength (blockLength length) origHeapLength
        let s ← writeEntry s heap
          { heapMagic := SMALL_HEAP_MAGIC, length := length, reserved := true }
        let s ← smallReturnRest s heap length origHeapLength
        return (some heap, s)

/-- The bytes of a large block, computed with 32 bits. -/
def largeLength (length : Nat) : Nat :=
  (length + ENTRY_SIZE + (PAGE_SIZE - 1)) % 2 ^ 32 / PAGE_SIZE * PAGE_SIZE

/-- `__largeAlloc` -/
def largeAlloc (s : Heap) (length : Nat) (fresh : Fresh) : Except Stop (Nat × Heap) := do
  let length := largeLength length
  let (heap, s) ← pagingAllocatePhysMem s (length / PAGE_SIZE) fresh
  let s ← writeEntry s heap
    { heapMagic := LARGE_HEAP_MAGIC, length := length % 2 ^ 31, reserved := true }
  return (heap, { s with links := s.links.addAfter .largeHeap (.entry heap) })

/-- `__largeFree` -/
def largeFree (s : Heap) (heap : Nat) : Except Stop Heap := do
  check (heap % PAGE_SIZE = 0)
  let e ← readEntry s heap
  check (e.heapMagic = LARGE_HEAP_MAGIC)
  check (e.length % PAGE_SIZE = 0)
  check e.reserved
  return pagingReleasePhysMem { s with links := s.links.remove (.entry heap) } heap
    (e.length / PAGE_SIZE)

/-- `pagingReAllocatePhysMem(NULL, heap, old, new, true, false)`: the pages move to
a free place, which may be where they are, and the header moves with them. -/
def pagingReAllocatePhysMem (s : Heap) (heap old new : Nat) (fresh : Fresh) :
    Except Stop (Nat × Heap) := do
  let e := s.entries heap
  let (heap, s) ← pagingAllocatePhysMem (pagingReleasePhysMem s heap old) new fresh
  let s ← writeEntry s heap e
  return (heap, s)

/-- `__largeReAlloc` -/
def largeReAlloc (s : Heap) (heap length : Nat) (fresh : Fresh) :
    Except Stop (Option Nat × Heap) := do
  check (heap % PAGE_SIZE = 0)
  let e ← readEntry s heap
  check (e.heapMagic = LARGE_HEAP_MAGIC)
  check (e.length % PAGE_SIZE = 0)
  if length ≤ 1024 - ENTRY_SIZE then return (none, s)
  else if largeLength length = e.length then return (some heap, s)
  else
    let s := { s with links := s.links.remove (.entry heap) }
    let (heap, s) ← pagingReAllocatePhysMem s heap (e.length / PAGE_SIZE)
      (largeLength length / PAGE_SIZE) fresh
    let e ← readEntry s heap
    check (e.heapMagic = LARGE_HEAP_MAGIC)
    let s ← writeEntry s heap { e with length := largeLength length % 2 ^ 31, reserved := true }
    return (some heap, { s with links := s.links.addAfter .largeHeap (.entry heap) })

/-- The block of `heapAlloc`. -/
def allocBlock (s : Heap) (length : Nat) (fresh : Fresh) : Except Stop (Nat × Heap) :=
  if length ≤ 1024 - ENTRY_SIZE then smallAlloc s length fresh else largeAlloc s length fresh

/-- `heapAlloc`. The pointer behind the header is returned; `0` is the null pointer. -/
def heapAlloc (s : Heap) (length : Nat) (fresh : Fresh) : Except Stop (Nat × Heap) :=
  if length = 0 then .ok (0, s)
  else do
    let (heap, s) ← allocBlock s length fresh
    return (heap + ENTRY_SIZE, s)

/-- The checks with which `heapFree`, `heapSize` and `heapReAlloc` find the header. -/
def heapOf (s : Heap) (addr : Nat) : Except Stop (Nat × HeapEntry) := do
  check (ENTRY_SIZE ≤ addr % PAGE_SIZE)
  let e ← readEntry s (addr - ENTRY_SIZE)
  check (e.heapMagic = SMALL_HEAP_MAGIC ∨ e.heapMagic = LARGE_HEAP_MAGIC)
  check e.reserved
  return (addr - ENTRY_SIZE, e)

/-- The block of `heapFree`. -/
def freeBlock (s : Heap) (heap : Nat) (e : HeapEntry) : Except Stop Heap :=
  if e.heapMagic = SMALL_HEAP_MAGIC then smallFree s heap else largeFree s heap

/-- `heapFree` -/
def heapFree (s : Heap) (addr : Nat) : Except Stop Heap :=
  if addr = 0 then .ok s
  else do
    let (heap, e) ← heapOf s addr
    freeBlock s heap e

/-- The bytes behind the header, computed with 32 bits. -/
def payloadLength (e : HeapEntry) : Nat := (e.length + 2 ^ 32 - ENTRY_SIZE) % 2 ^ 32

/-- `heapSize` -/
def heapSize (s : Heap) (addr : Nat) : Except Stop Nat :=
  if addr = 0 then .ok 0
  else do
    let (_, e) ← heapOf s addr
    return payloadLength e

/-- The end of `heapReAlloc`: allocate a new block and copy the data. -/
def heapMove (s : Heap) (addr heap length : Nat) (fresh : Fresh) (copied : Garbage) :
    Except Stop (Nat × Heap) := do
  let (newAddr, s) ← heapAlloc s length fresh
  if newAddr = 0 then return (0, s)
  else
    let e ← readEntry s heap
    let length := min length (payloadLength e)
    let s ← heapFree (s.overwrite newAddr (newAddr + length) copied) addr
    return (newAddr, s)

/-- The block of `heapReAlloc`, if it can be resized without a copy. -/
def reallocBlock (s : Heap) (heap : Nat) (e : HeapEntry) (length : Nat) (fresh : Fresh) :
    Except Stop (Option Nat × Heap) :=
  if e.heapMagic = SMALL_HEAP_MAGIC then smallReAlloc s heap length
  else largeReAlloc s heap length fresh

/-- `heapReAlloc` -/
def heapReAlloc (s : Heap) (addr length : Nat) (fresh : Fresh) (copied : Garbage) :
    Except Stop (Nat × Heap) :=
  if addr = 0 then heapAlloc s length fresh
  else if length = 0 then do
    let s ← heapFree s addr
    return (0, s)
  else do
    let (heap, e) ← heapOf s addr
    let (newHeap, s) ← reallocBlock s heap e length fresh
    match newHeap with
    | some newHeap => return (newHeap + ENTRY_SIZE, s)
    | none => heapMove s addr heap length fresh copied

/-- A loop of `heapVerify` over one of the lists. -/
def verifyList (s : Heap) (fuel : Nat) (list : Node) (ok : Nat → HeapEntry → Bool) :
    Except Stop Unit :=
  match s.links.elements list fuel (s.links.next list) with
  | none => .error .corrupted
  | some nodes => nodes.forM fun node =>
      match node with
      | .entry heap => do
          let e ← readEntry s heap
          check (ok heap e)
      | _ => .error .corrupted

/-- The assertions of `heapVerify` for small blocks. -/
def verifySmall (reserved : Bool) (heap : Nat) (e : HeapEntry) : Bool :=
  heap % HEAP_ALIGN_SIZE = 0 ∧ e.heapMagic = SMALL_HEAP_MAGIC ∧ ENTRY_SIZE + 16 ≤ e.length ∧
    e.reserved = reserved

def verifyLarge (heap : Nat) (e : HeapEntry) : Bool :=
  heap % PAGE_SIZE = 0 ∧ e.heapMagic = LARGE_HEAP_MAGIC ∧ 0 < e.length ∧
    e.length % PAGE_SIZE = 0 ∧ e.reserved

/-- `heapVerify`, with at most `fuel` steps in a list. -/
def heapVerify (s : Heap) (fuel : Nat) : Except Stop Unit := do
  verifyList s fuel .smallHeap (verifySmall true)
  verifyList s fuel .largeHeap verifyLarge
  SizeClass.all.forM fun c => verifyList s fuel (.smallUnusedHeap c) (verifySmall false)

/-- The heap, and the pointers its users hold. -/
structure State where
  heap : Heap
  live : List Nat

inductive Call
  | alloc (length : Nat) (fresh : Fresh)
  | realloc (addr length : Nat) (fresh : Fresh) (copied : Garbage)
  | free (addr : Nat)
  /-- the owner of a block writes to `[start, stop)` -/
  | write (addr start stop : Nat) (garbage : Garbage)

def hold (live : List Nat) (addr : Nat) : List Nat := if addr = 0 then live else addr :: live

/-- The longest request whose block has less than `2 ^ 31` bytes. -/
def MAX_LENGTH : Nat := 2 ^ 31 - PAGE_SIZE - ENTRY_SIZE

/-- A call with the pointer it returns. -/
def step (s : State) : Call → Except Stop (State × Nat)
  | .alloc length fresh =>
      if length ≤ MAX_LENGTH then do
        let (addr, heap) ← heapAlloc s.heap length fresh
        return (⟨heap, hold s.live addr⟩, addr)
      else .error .invalidCall
  | .realloc addr length fresh copied =>
      if (addr = 0 ∨ addr ∈ s.live) ∧ length ≤ MAX_LENGTH then do
        let (newAddr, heap) ← heapReAlloc s.heap addr length fresh copied
        return (⟨heap, hold (s.live.erase addr) newAddr⟩, newAddr)
      else .error .invalidCall
  | .free addr =>
      if addr = 0 ∨ addr ∈ s.live then do
        let heap ← heapFree s.heap addr
        return (⟨heap, s.live.erase addr⟩, 0)
      else .error .invalidCall
  | .write addr start stop garbage =>
      if addr ∈ s.live then do
        let size ← heapSize s.heap addr
        if addr ≤ start ∧ stop ≤ addr + size then
          return ({ s with heap := s.heap.overwrite start stop garbage }, 0)
        else .error .invalidCall
      else .error .invalidCall

/-- The heap at boot: all lists are empty. -/
def State.init (entries : Nat → HeapEntry) : State :=
  { heap := { entries := entries, links := { next := id, prev := id }, owned := fun _ => false }
    live := [] }

end Ibnos.Allocator
