import Ibnos.Runs
import Ibnos.WordRecords

/-!
The allocator of the C library, which hands out pieces of the pages it gets from the
kernel. In front of every piece there is a tag. The tags of one region are linked in the
order of their addresses, and free ones are in the list for their size.
-/

namespace Ibnos.Liballoc

open Ibnos.ByteMemories
open Ibnos.WordRecords

def LIBALLOC_MAGIC : Nat := 0xc001c0de

def MAXCOMPLETE : Int := 5

def MAXEXP : Nat := 32

def MINEXP : Nat := 8

/-- `l_pageSize` -/
def PAGE_SIZE : Nat := 4096

/-- `l_pageCount`, the smallest number of pages in a region -/
def PAGE_COUNT : Nat := 16

/-- `sizeof(struct boundary_tag)` -/
def TAG_SIZE : Nat := 32

/-- The field `index` of a tag which is in no list is `-1`. -/
def NO_INDEX : Nat := 2 ^ 32 - 1

/-- The fields of `struct boundary_tag`. -/
inductive Field
  | magic | size | realSize | index | splitLeft | splitRight | next | prev
  deriving DecidableEq, Repr

def Field.offset : Field → Nat
  | .magic => 0
  | .size => 4
  | .realSize => 8
  | .index => 12
  | .splitLeft => 16
  | .splitRight => 20
  | .next => 24
  | .prev => 28

def boundaryTag : Shape Field where
  offset := Field.offset
  size := TAG_SIZE
  fits f := by cases f <;> decide
  separate f g h := by cases f <;> cases g <;> first | exact absurd rfl h | decide

inductive Stop
  | pageFault
  /-- an access to `l_freePages` or `l_completePages` with an index which is too large -/
  | outOfBounds
  /-- the lock is taken twice -/
  | deadlock
  /-- a loop which does not end -/
  | endless
  /-- a counter of type `int` becomes too large -/
  | overflow
  /-- pages are given back which the allocator does not have -/
  | foreignPages
  /-- a pointer which is not live, a write behind a block, or a size which wraps around with
  the tag -/
  | invalidCall
  deriving DecidableEq, Repr

/-- The memory of the process, the pages of it which came from the kernel, and the variables of
the allocator. -/
structure Arena where
  memory : Memory
  owned : Nat → Bool
  /-- `l_freePages` -/
  freePages : Nat → Nat
  /-- `l_completePages` -/
  completePages : Nat → Int
  /-- `l_initialized` -/
  initialized : Bool
  /-- `memory_lock` -/
  locked : Bool

/-- Unsigned subtraction. -/
def sub32 (a b : Nat) : Nat := (a + (2 ^ 32 - b % 2 ^ 32)) % 2 ^ 32

/-- The `n` bytes from `a` on can be accessed. -/
def Arena.mapped (s : Arena) (a n : Nat) : Bool :=
  s.owned (a / PAGE_SIZE) && s.owned ((a + (n - 1)) / PAGE_SIZE)

def load (s : Arena) (tag : Nat) (f : Field) : Except Stop Nat :=
  if s.mapped (tag + f.offset) 4 then .ok (get boundaryTag s.memory tag f) else .error .pageFault

def store (s : Arena) (tag : Nat) (f : Field) (w : Nat) : Except Stop Arena :=
  if s.mapped (tag + f.offset) 4 then .ok { s with memory := set boundaryTag s.memory tag f w }
  else .error .pageFault

/-- `if ( p != NULL ) p->f = w;` -/
def storeNonNull (s : Arena) (p : Nat) (f : Field) (w : Nat) : Except Stop Arena :=
  if p = 0 then .ok s else store s p f w

def freePage (s : Arena) (index : Nat) : Except Stop Nat :=
  if index < MAXEXP then .ok (s.freePages index) else .error .outOfBounds

def setFreePage (s : Arena) (index tag : Nat) : Except Stop Arena :=
  if index < MAXEXP then .ok { s with freePages := Function.update s.freePages index tag }
  else .error .outOfBounds

def completePage (s : Arena) (index : Nat) : Except Stop Int :=
  if index < MAXEXP then .ok (s.completePages index) else .error .outOfBounds

def setCompletePage (s : Arena) (index : Nat) (n : Int) : Except Stop Arena :=
  if index < MAXEXP then .ok { s with completePages := Function.update s.completePages index n }
  else .error .outOfBounds

/-- `liballoc_lock`. Nobody else releases the lock. -/
def liballocLock (s : Arena) : Except Stop Arena :=
  if s.locked then .error .deadlock else .ok { s with locked := true }

def liballocUnlock (s : Arena) : Arena := { s with locked := false }

/-- What the kernel answers to the system call of `liballoc_alloc`: the first of the pages, or
`0`, and what is in them. -/
structure Region where
  page : Nat
  bytes : Memory

def Region.Suitable (r : Region) (s : Arena) (pages : Nat) : Prop :=
  0 < r.page ∧ r.page + pages ≤ 2 ^ 20 ∧ ∀ i < pages, s.owned (r.page + i) = false

instance (r : Region) (s : Arena) (pages : Nat) : Decidable (r.Suitable s pages) :=
  inferInstanceAs (Decidable (_ ∧ _ ∧ _))

def Arena.setOwned (s : Arena) (page pages : Nat) (b : Bool) : Arena :=
  { s with owned := fun pg => if page ≤ pg ∧ pg < page + pages then b else s.owned pg }

/-- `liballoc_alloc`. The pages are free, or there are none. -/
def liballocAlloc (s : Arena) (pages : Nat) (r : Region) : Nat × Arena :=
  if r.Suitable s pages then
    let addr := r.page * PAGE_SIZE
    (addr, { s.setOwned r.page pages true with
      memory := copy r.bytes addr s.memory addr (pages * PAGE_SIZE) })
  else (0, s)

def liballocFree (s : Arena) (addr pages : Nat) : Except Stop Arena :=
  if addr % PAGE_SIZE = 0 ∧ ∀ i < pages, s.owned (addr / PAGE_SIZE + i) = true then
    .ok (s.setOwned (addr / PAGE_SIZE) pages false)
  else .error .foreignPages

/-- The loop of `getexp` with at most `n` rounds. -/
def getexpLoop (size : Nat) : Nat → Nat → Nat
  | 0, shift => shift
  | n + 1, shift => if size < 2 ^ shift then shift else getexpLoop size n (shift + 1)

def getexp (size : Nat) : Int :=
  if size < 2 ^ MINEXP then -1 else getexpLoop size (MAXEXP - MINEXP) MINEXP - 1

/-- The index which is computed from `getexp` where a list is needed. -/
def listIndex (size : Nat) : Nat :=
  if getexp size < MINEXP then MINEXP else (getexp size).toNat

/-- `insert_tag`. The index `none` is `-1`. -/
def insertTag (s : Arena) (tag : Nat) (index : Option Nat) : Except Stop Arena := do
  let realIndex ← (match index with
    | none => do
        let realSize ← load s tag .realSize
        return listIndex (sub32 realSize TAG_SIZE)
    | some index => .ok index)
  let s ← store s tag .index realIndex
  let head ← freePage s realIndex
  let s ← (if head = 0 then .ok s
    else do
      let s ← store s head .prev tag
      store s tag .next head)
  setFreePage s realIndex tag

/-- `remove_tag` -/
def removeTag (s : Arena) (tag : Nat) : Except Stop Arena := do
  let index ← load s tag .index
  let head ← freePage s index
  let next ← load s tag .next
  let s ← (if head = tag then setFreePage s index next else .ok s)
  let prev ← load s tag .prev
  let next ← load s tag .next
  let s ← storeNonNull s prev .next next
  let next ← load s tag .next
  let prev ← load s tag .prev
  let s ← storeNonNull s next .prev prev
  let s ← store s tag .next 0
  let s ← store s tag .prev 0
  store s tag .index NO_INDEX

/-- `melt_left` -/
def meltLeft (s : Arena) (tag : Nat) : Except Stop (Nat × Arena) := do
  let left ← load s tag .splitLeft
  let leftSize ← load s left .realSize
  let tagSize ← load s tag .realSize
  let s ← store s left .realSize ((leftSize + tagSize) % 2 ^ 32)
  let right ← load s tag .splitRight
  let s ← store s left .splitRight right
  let right ← load s tag .splitRight
  let s ← storeNonNull s right .splitLeft left
  return (left, s)

/-- `absorb_right`. It returns `tag`. -/
def absorbRight (s : Arena) (tag : Nat) : Except Stop Arena := do
  let right ← load s tag .splitRight
  let s ← removeTag s right
  let tagSize ← load s tag .realSize
  let rightSize ← load s right .realSize
  let s ← store s tag .realSize ((tagSize + rightSize) % 2 ^ 32)
  let next ← load s right .splitRight
  let s ← store s tag .splitRight next
  let next ← load s right .splitRight
  storeNonNull s next .splitLeft tag

/-- `split_tag`. The caller does not need the new tag. -/
def splitTag (s : Arena) (tag : Nat) : Except Stop Arena := do
  let realSize ← load s tag .realSize
  let size ← load s tag .size
  let remainder := sub32 (sub32 realSize TAG_SIZE) size
  let newTag := (tag + TAG_SIZE + size) % 2 ^ 32
  let s ← store s newTag .magic LIBALLOC_MAGIC
  let s ← store s newTag .realSize remainder
  let s ← store s newTag .next 0
  let s ← store s newTag .prev 0
  let s ← store s newTag .splitLeft tag
  let right ← load s tag .splitRight
  let s ← store s newTag .splitRight right
  let right ← load s newTag .splitRight
  let s ← storeNonNull s right .splitLeft newTag
  let s ← store s tag .splitRight newTag
  let realSize ← load s tag .realSize
  let newSize ← load s newTag .realSize
  let s ← store s tag .realSize (sub32 realSize newSize)
  insertTag s newTag none

/-- The pages for a region with `usage` bytes. -/
def pagesFor (usage : Nat) : Nat :=
  let pages := usage / PAGE_SIZE
  let pages := if usage % PAGE_SIZE ≠ 0 then pages + 1 else pages
  if pages < PAGE_COUNT then PAGE_COUNT else pages

/-- `allocate_new_tag` -/
def allocateNewTag (s : Arena) (size : Nat) (r : Region) : Except Stop (Nat × Arena) := do
  let pages := pagesFor ((size + TAG_SIZE) % 2 ^ 32)
  let (tag, s) := liballocAlloc s pages r
  if tag = 0 then return (0, s)
  else do
    let s ← store s tag .magic LIBALLOC_MAGIC
    let s ← store s tag .size size
    let s ← store s tag .realSize (pages * PAGE_SIZE % 2 ^ 32)
    let s ← store s tag .index NO_INDEX
    let s ← store s tag .next 0
    let s ← store s tag .prev 0
    let s ← store s tag .splitLeft 0
    let s ← store s tag .splitRight 0
    return (tag, s)

/-- The comparison in the search of `liballoc_malloc_r`. -/
def enough (realSize size : Nat) : Bool :=
  (size + TAG_SIZE) % 2 ^ 32 ≤ sub32 realSize TAG_SIZE

/-- The search of `liballoc_malloc_r`. -/
def findTag (s : Arena) (size : Nat) : Nat → Nat → Except Stop Nat
  | 0, _ => .error .endless
  | fuel + 1, tag =>
      if tag = 0 then .ok 0
      else do
        let realSize ← load s tag .realSize
        if enough realSize size then return tag
        else
          let next ← load s tag .next
          findTag s size fuel next

/-- There is no room for more tags in the memory. -/
def MAX_TAGS : Nat := 2 ^ 27

/-- The tag is all of its region. -/
def whole (s : Arena) (tag : Nat) : Except Stop Bool := do
  let left ← load s tag .splitLeft
  if left ≠ 0 then return false
  else
    let right ← load s tag .splitRight
    return right = 0

/-- A tag is taken from its list. -/
def takeListed (s : Arena) (tag index : Nat) : Except Stop Arena := do
  let s ← removeTag s tag
  let complete ← whole s tag
  if complete then do
    let n ← completePage s index
    setCompletePage s index (n - 1)
  else return s

/-- The tag which `liballoc_malloc_r` uses: one of the list, or a new one. -/
def takeTag (s : Arena) (size : Nat) (r : Region) : Except Stop (Nat × Arena) := do
  let head ← freePage s (listIndex size)
  let tag ← findTag s size (MAX_TAGS + 1) head
  if tag = 0 then allocateNewTag s size r
  else do
    let s ← takeListed s tag (listIndex size)
    return (tag, s)

/-- The rest of the tag is split off if it is large enough. -/
def reuseExcess (s : Arena) (tag size : Nat) : Except Stop Arena := do
  let realSize ← load s tag .realSize
  let remainder := sub32 (sub32 realSize size) (TAG_SIZE * 2)
  -- `(int)remainder > 0`
  if 0 < remainder ∧ remainder < 2 ^ 31 then
    if 0 ≤ getexp remainder then splitTag s tag else pure s
  else pure s

/-- The first call clears the lists. -/
def initLists (s : Arena) : Arena :=
  if s.initialized then s
  else { s with
    freePages := fun index => if index < MAXEXP then 0 else s.freePages index
    completePages := fun index => if index < MAXEXP then 0 else s.completePages index
    initialized := true }

/-- `liballoc_malloc_r` -/
def liballocMallocR (s : Arena) (size : Nat) (r : Region) : Except Stop (Nat × Arena) := do
  let s ← liballocLock s
  let (tag, s) ← takeTag (initLists s) size r
  if tag = 0 then return (0, liballocUnlock s)
  else do
    let s ← store s tag .size size
    let s ← reuseExcess s tag size
    return ((tag + TAG_SIZE) % 2 ^ 32, liballocUnlock s)

/-- The first loop of `liballoc_free_r`. A negative index is one of at least `2 ^ 31`. -/
def meltLoop (s : Arena) : Nat → Nat → Except Stop (Nat × Arena)
  | 0, _ => .error .endless
  | fuel + 1, tag => do
      let left ← load s tag .splitLeft
      if left = 0 then return (tag, s)
      else do
        let index ← load s left .index
        if 2 ^ 31 ≤ index then return (tag, s)
        else do
          let (tag, s) ← meltLeft s tag
          let s ← removeTag s tag
          meltLoop s fuel tag

/-- The second loop of `liballoc_free_r`. -/
def absorbLoop (s : Arena) (tag : Nat) : Nat → Except Stop Arena
  | 0 => .error .endless
  | fuel + 1 => do
      let right ← load s tag .splitRight
      if right = 0 then return s
      else do
        let index ← load s right .index
        if 2 ^ 31 ≤ index then return s
        else do
          let s ← absorbRight s tag
          absorbLoop s tag fuel

/-- The end of `liballoc_free_r`: the tag enters its list, or the region is given back. -/
def releaseTag (s : Arena) (tag : Nat) : Except Stop Arena := do
  let realSize ← load s tag .realSize
  let index := listIndex (sub32 realSize TAG_SIZE)
  let complete ← whole s tag
  if complete then do
    let n ← completePage s index
    if n = MAXCOMPLETE then liballocFree s tag (pagesFor realSize)
    else do
      let s ← setCompletePage s index (n + 1)
      insertTag s tag (some index)
  else insertTag s tag (some index)

/-- `liballoc_free_r` -/
def liballocFreeR (s : Arena) (ptr : Nat) : Except Stop Arena :=
  if ptr = 0 then .ok s
  else do
    let s ← liballocLock s
    let tag := sub32 ptr TAG_SIZE
    let magic ← load s tag .magic
    if magic ≠ LIBALLOC_MAGIC then return liballocUnlock s
    else do
      let (tag, s) ← meltLoop s (MAX_TAGS + 1) tag
      let s ← absorbLoop s tag (MAX_TAGS + 1)
      let s ← releaseTag s tag
      return liballocUnlock s

def storeByte (s : Arena) (a : Nat) (b : BitVec 8) : Except Stop Arena :=
  if s.mapped a 1 then .ok { s with memory := Function.update s.memory a b }
  else .error .pageFault

def loadByte (s : Arena) (a : Nat) : Except Stop (BitVec 8) :=
  if s.mapped a 1 then .ok (s.memory a) else .error .pageFault

/-- `liballoc_memset` from the index `i` on. The index has the type `int`. -/
def memsetLoop (s : Arena) (a : Nat) (c : BitVec 8) : Nat → Nat → Except Stop Arena
  | 0, _ => .ok s
  | n + 1, i => do
      let s ← storeByte s (a + i) c
      if i + 1 < 2 ^ 31 then memsetLoop s a c n (i + 1) else .error .overflow

def liballocMemset (s : Arena) (a : Nat) (c : BitVec 8) (n : Nat) : Except Stop Arena :=
  memsetLoop s a c n 0

def storeWord (s : Arena) (a w : Nat) : Except Stop Arena :=
  if s.mapped a 4 then .ok { s with memory := putWord s.memory a w } else .error .pageFault

def loadWord (s : Arena) (a : Nat) : Except Stop Nat :=
  if s.mapped a 4 then .ok (word s.memory a) else .error .pageFault

/-- `liballoc_memcpy`: words first, then what is left as bytes. -/
def liballocMemcpy (s : Arena) (dst src : Nat) : Nat → Except Stop Arena
  | n + 4 => do
      let w ← loadWord s src
      let s ← storeWord s dst w
      liballocMemcpy s (dst + 4) (src + 4) n
  | 0 => .ok s
  | n + 1 => do
      let b ← loadByte s src
      let s ← storeByte s dst b
      liballocMemcpy s (dst + 1) (src + 1) n

/-- `liballoc_calloc_r` -/
def liballocCallocR (s : Arena) (nobj size : Nat) (r : Region) : Except Stop (Nat × Arena) := do
  let realSize := nobj * size % 2 ^ 32
  let (p, s) ← liballocMallocR s realSize r
  let s ← liballocMemset s p 0 realSize
  return (p, s)

/-- The size of a block, as `liballoc_realloc_r` reads it. -/
def blockSize (s : Arena) (p : Nat) : Except Stop (Nat × Arena) := do
  let s ← liballocLock s
  let size ← load s (sub32 p TAG_SIZE) .size
  return (size, liballocUnlock s)

/-- `liballoc_realloc_r` -/
def liballocReallocR (s : Arena) (p size : Nat) (r : Region) : Except Stop (Nat × Arena) :=
  if size = 0 then do
    let s ← liballocFreeR s p
    return (0, s)
  else if p = 0 then liballocMallocR s size r
  else do
    let (realSize, s) ← blockSize s p
    let realSize := if size < realSize then size else realSize
    let (ptr, s) ← liballocMallocR s size r
    let s ← liballocMemcpy s ptr p realSize
    let s ← liballocFreeR s p
    return (ptr, s)

/-- The allocator, and the sizes of the blocks which the program holds. -/
structure State where
  arena : Arena
  live : Nat → Option Nat

inductive Call
  | malloc (size : Nat) (r : Region)
  | calloc (nobj size : Nat) (r : Region)
  | realloc (p size : Nat) (r : Region)
  | free (p : Nat)
  /-- the program writes to one of its blocks -/
  | write (p offset : Nat) (bytes : List (BitVec 8))

def hold (live : Nat → Option Nat) (p size : Nat) : Nat → Option Nat :=
  if p = 0 then live else Function.update live p (some size)

/-- The largest size for which the tag fits into 32 bits too. -/
def MAX_SIZE : Nat := 2 ^ 32 - TAG_SIZE - 1

/-- A call with the pointer it returns. -/
def step (s : State) : Call → Except Stop (State × Nat)
  | .malloc size r =>
      if size ≤ MAX_SIZE then do
        let (p, arena) ← liballocMallocR s.arena size r
        return (⟨arena, hold s.live p size⟩, p)
      else .error .invalidCall
  | .calloc nobj size r =>
      if nobj * size % 2 ^ 32 ≤ MAX_SIZE then do
        let (p, arena) ← liballocCallocR s.arena nobj size r
        return (⟨arena, hold s.live p (nobj * size % 2 ^ 32)⟩, p)
      else .error .invalidCall
  | .realloc p size r =>
      if (p = 0 ∨ (s.live p).isSome) ∧ size ≤ MAX_SIZE then do
        let (p', arena) ← liballocReallocR s.arena p size r
        return (⟨arena, hold (Function.update s.live p none) p' size⟩, p')
      else .error .invalidCall
  | .free p =>
      if p = 0 ∨ (s.live p).isSome then do
        let arena ← liballocFreeR s.arena p
        return (⟨arena, Function.update s.live p none⟩, 0)
      else .error .invalidCall
  | .write p offset bytes =>
      match s.live p with
      | some size =>
          if offset + bytes.length ≤ size then
            .ok ({ s with arena :=
              { s.arena with memory := putBytes s.arena.memory (p + offset) bytes } }, 0)
          else .error .invalidCall
      | none => .error .invalidCall

/-- A process which has just started. -/
def State.init (memory : Memory) : State where
  arena :=
    { memory := memory
      owned := fun _ => false
      freePages := fun _ => 0
      completePages := fun _ => 0
      initialized := false
      locked := false }
  live := fun _ => none

end Ibnos.Liballoc
