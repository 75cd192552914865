import Ibnos.Physmem

/-!
The paging functions of the kernel. An address space is `none` for the kernel
and `some pid` for a process.
-/

namespace Ibnos.Paging

open Ibnos.Memory
open Ibnos.Physmem
open Ibnos.Programs

/-- The search for an unused page in `__pagingMapPhysMem`. -/
def findUnused : Nat → Nat → M (Option Nat)
  | 0, _ => return none
  | rounds + 1, i => do
      let _ ← getKernelEntry i true
      let table ← loadEntry none i
      if table = .zero then return some i else findUnused rounds (i + 1)

/-- `__pagingMapPhysMem`, which is only ever called for the kernel. -/
def pagingMapPhysMem (index addr : Nat) (rw user : Bool) : M Nat :=
  if addr ≠ 0 then do
    check (pageOf addr != 0)
    let _ ← getKernelEntry (pageOf addr) true
    let table ← loadEntry none (pageOf addr)
    if table ≠ .zero then throw .addressInUse
    else do
      storeEntry none (pageOf addr) ⟨true, rw, user, 0, index⟩
      return addr
  else do
    match ← findUnused (KERNEL_PAGE - 1) 1 with
    | none => throw .addressSpaceFull
    | some i =>
        storeEntry none i ⟨true, rw, user, 0, index⟩
        return i * PAGE_SIZE

def accessDirectory (pid : Nat) : M Unit := do
  let p := (← get).process pid
  match p.pageDirectory with
  | none => throw .nullPointer
  | some k => access k p.directoryFrame

/-- Maps the page table `i` of a process into the kernel. -/
def mapPageTable (pid i : Nat) : M Unit := do
  let p := (← get).process pid
  if p.pageTables i = none then do
    let index ← physMemAddRefPage (p.directory i).frame
    let addr ← pagingMapPhysMem index 0 true false
    modify fun s => s.setProcess pid ((s.process pid).setPageTable i (some (pageOf addr)))
  else pure ()

/-- The page table `i` of a process is a new page. -/
def Machine.addTable (s : Machine) (pid i frame : Nat) : Machine :=
  { s.setProcess pid ((s.process pid).setDirectory i ⟨true, true, true, 0, frame⟩) with
    holdsTable := Function.update s.holdsTable frame true }

def Machine.clearTable (s : Machine) (pid i : Nat) : Machine :=
  s.setProcess pid { s.process pid with
    table := fun page =>
      if page / PAGETABLE_COUNT = i then .zero else (s.process pid).table page }

/-- `__getPagingEntry` for a process. -/
def getProcessEntry (pid page : Nat) (alloc : Bool) : M Bool := do
  let i := page / PAGETABLE_COUNT
  check (← get).pagingEnabled
  accessDirectory pid
  let dir := ((← get).process pid).directory i
  if dir = .zero then
    if alloc then do
      let frame ← physMemAllocPage false
      modify fun s => Machine.addTable s pid i frame
      mapPageTable pid i
      accessTable (some pid) page
      modify fun s => Machine.clearTable s pid i
      return true
    else return false
  else do
    requirePresent dir
    check (dir.avail == 0)
    mapPageTable pid i
    return true

def getPagingEntry : Option Nat → Nat → Bool → M Bool
  | none => getKernelEntry
  | some pid => getProcessEntry pid

def pagingReserveArea (p : Option Nat) (user : Bool) : Nat → Nat → M Unit
  | 0, _ => return ()
  | length + 1, cur => do
      let _ ← getPagingEntry p (pageOf cur) true
      let table ← loadEntry p (pageOf cur)
      check (table == .zero)
      storeEntry p (pageOf cur) ⟨false, false, user, PAGING_AVAIL_NOTPRESENT_RESERVED, 0⟩
      pagingReserveArea p user length (nextPage cur)

def pagingTrySearchArea (p : Option Nat) (length : Nat) : M (Option Nat) :=
  trySearchArea (getPagingEntry p) p length

def pagingSearchArea (p : Option Nat) (length : Nat) : M Nat := do
  match ← pagingTrySearchArea p length with
  | none => throw .addressSpaceFull
  | some addr => return addr

def pagingTryAllocatePhysMem (p : Option Nat) (length : Nat) (rw user : Bool) : M (Option Nat) :=
  tryAllocatePhysMem (getPagingEntry p) p length rw user

def pagingAllocatePhysMem (p : Option Nat) (length : Nat) (rw user : Bool) : M Nat :=
  allocatePhysMem (getPagingEntry p) p length rw user

/-- The pages of a reserved area are filled with unpageable memory. -/
def unpageableLoop (p : Option Nat) (rw user : Bool) : Nat → Nat → M Unit
  | 0, _ => return ()
  | length + 1, cur => do
      let index ← physMemMarkUnpageable (← physMemAllocPage false)
      let _ ← getPagingEntry p (pageOf cur) true
      let table ← loadEntry p (pageOf cur)
      check table.isReserved
      storeEntry p (pageOf cur) ⟨true, rw, user, 0, index⟩
      unpageableLoop p rw user length (nextPage cur)

def pagingAllocatePhysMemUnpageable (p : Option Nat) (length : Nat) (rw user : Bool) : M Nat := do
  match ← pagingTrySearchArea p length with
  | none => throw .addressSpaceFull
  | some addr =>
      pagingReserveArea p user length addr
      unpageableLoop p rw user length addr
      return addr

def pagingAllocatePhysMemFixedUnpageable (p : Option Nat) (addr length : Nat) (rw user : Bool) :
    M Nat := do
  check (pageOf addr != 0)
  pagingReserveArea p user length addr
  unpageableLoop p rw user length addr
  return addr

/-- One page of a release. Reserved entries and those which are created on access are only
cleared. -/
def releaseEntry (p : Option Nat) (page : Nat) (e : PagingEntry) : M Unit :=
  if e.present then do
    storeEntry p page .zero
    let _ ← physMemReleasePage e.frame
    return ()
  else if e.avail = PAGING_AVAIL_NOTPRESENT_RESERVED ∨
      e.avail = PAGING_AVAIL_NOTPRESENT_ON_ACCESS_CREATE then
    storeEntry p page .zero
  else requirePresent e

/-- The entries which `skip` are left alone and reported. -/
def releaseLoop (skip : PagingEntry → Bool) (p : Option Nat) : Nat → Nat → Bool → M Bool
  | 0, _, success => return success
  | length + 1, cur, success => do
      let table ← getPagingEntry p (pageOf cur) false
      if table then do
        let e ← loadEntry p (pageOf cur)
        if skip e then releaseLoop skip p length (nextPage cur) false
        else do
          releaseEntry p (pageOf cur) e
          releaseLoop skip p length (nextPage cur) success
      else releaseLoop skip p length (nextPage cur) false

def pagingTryReleasePhysMem (p : Option Nat) (addr length : Nat) : M Bool :=
  releaseLoop (fun e => e == .zero) p length addr true

def pagingTryReleaseUserMem (p : Option Nat) (addr length : Nat) : M Bool :=
  releaseLoop (fun e => e == .zero || !e.user) p length addr true

def pagingReleasePhysMem (p : Option Nat) (addr length : Nat) : M Unit := do
  check (← pagingTryReleasePhysMem p addr length)

/-- The loop of `pagingTryAllocatePhysMemFixed`. The pages which are released after a
collision are those of the kernel, whatever `p` is. -/
def fixedLoop (p : Option Nat) (addr : Nat) (rw user : Bool) : Nat → Nat → M Bool
  | 0, _ => return true
  | length + 1, cur => do
      let index ← physMemAllocPage false
      let _ ← getPagingEntry p (pageOf cur) true
      let table ← loadEntry p (pageOf cur)
      if table ≠ .zero then do
        let _ ← physMemReleasePage index
        pagingReleasePhysMem none addr ((cur + 2 ^ 32 - addr) % 2 ^ 32 / PAGE_SIZE)
        return false
      else do
        storeEntry p (pageOf cur) ⟨true, rw, user, 0, index⟩
        fixedLoop p addr rw user length (nextPage cur)

def pagingTryAllocatePhysMemFixed (p : Option Nat) (addr length : Nat) (rw user : Bool) :
    M (Option Nat) := do
  if pageOf addr = 0 then return none
  else do
    let success ← fixedLoop p addr rw user length addr
    return if success then some addr else none

def pagingAllocatePhysMemFixed (p : Option Nat) (addr length : Nat) (rw user : Bool) :
    M Nat := do
  match ← pagingTryAllocatePhysMemFixed p addr length rw user with
  | none => throw .addressInUse
  | some addr => return addr

def moveLoop (p : Option Nat) : Nat → Nat → Nat → M Unit
  | 0, _, _ => return ()
  | length + 1, dst_cur, src_cur => do
      check (← getPagingEntry p (pageOf src_cur) false)
      let src ← loadEntry p (pageOf src_cur)
      check (src != .zero)
      let _ ← getPagingEntry p (pageOf dst_cur) true
      let dst ← loadEntry p (pageOf dst_cur)
      check (dst == .zero)
      let src ← loadEntry p (pageOf src_cur)
      storeEntry p (pageOf dst_cur) src
      storeEntry p (pageOf src_cur) .zero
      moveLoop p length (nextPage dst_cur) (nextPage src_cur)

/-- `__pagingMove` -/
def pagingMove (p : Option Nat) (dst_addr src_addr length : Nat) : M Nat := do
  check (decide ((dst_addr + length) % 2 ^ 32 ≤ src_addr) ||
    decide ((src_addr + length) % 2 ^ 32 ≤ dst_addr))
  moveLoop p length dst_addr src_addr
  return dst_addr ||| src_addr % PAGE_SIZE

/-- Where the next page of a growing block is written, after the block has been moved if it
cannot grow where it is. -/
def makeRoom (p : Option Nat) (new_length addr old_length cur : Nat) : M (Nat × Nat) := do
  let _ ← getPagingEntry p (pageOf cur) true
  let table ← loadEntry p (pageOf cur)
  if table ≠ .zero then do
    let new_addr ← pagingSearchArea p new_length
    let addr ← pagingMove p new_addr addr old_length
    let cur := (addr + old_length * PAGE_SIZE) % 2 ^ 32
    let _ ← getPagingEntry p (pageOf cur) true
    let table ← loadEntry p (pageOf cur)
    check (table == .zero)
    return (addr, cur)
  else return (addr, cur)

def growLoop (p : Option Nat) (new_length : Nat) (rw user : Bool) : Nat → Nat → Nat → Nat → M Nat
  | 0, addr, _, _ => return addr
  | rounds + 1, addr, old_length, cur => do
      let index ← physMemAllocPage false
      let (addr, cur) ← makeRoom p new_length addr old_length cur
      storeEntry p (pageOf cur) ⟨true, rw, user, 0, index⟩
      growLoop p new_length rw user rounds addr (old_length + 1) (nextPage cur)

/-- One page which a block loses. In contrast to `releaseEntry` it must not be reserved. -/
def shrinkEntry (p : Option Nat) (page : Nat) (e : PagingEntry) : M Unit :=
  if e.present then do
    storeEntry p page .zero
    let _ ← physMemReleasePage e.frame
    return ()
  else if e.avail = PAGING_AVAIL_NOTPRESENT_ON_ACCESS_CREATE then storeEntry p page .zero
  else requirePresent e

def shrinkLoop (p : Option Nat) : Nat → Nat → M Unit
  | 0, _ => return ()
  | rounds + 1, cur => do
      check (← getPagingEntry p (pageOf cur) false)
      let e ← loadEntry p (pageOf cur)
      check (e != .zero)
      shrinkEntry p (pageOf cur) e
      shrinkLoop p rounds (nextPage cur)

/-- The block at `addr`, or a new one if `addr` is a null pointer. -/
def blockOf (p : Option Nat) (addr new_length : Nat) : M Nat :=
  if addr = 0 then pagingSearchArea p new_length else pure addr

def pagingReAllocatePhysMem (p : Option Nat) (addr old_length new_length : Nat) (rw user : Bool) :
    M Nat :=
  if old_length < new_length then do
    let addr ← blockOf p addr new_length
    growLoop p new_length rw user (new_length - old_length) addr old_length
      ((addr + old_length * PAGE_SIZE) % 2 ^ 32)
  else do
    shrinkLoop p (old_length - new_length) ((addr + new_length * PAGE_SIZE) % 2 ^ 32)
    return if new_length = 0 then 0 else addr

def pagingGetPhysMem (p : Option Nat) (addr : Nat) : M Nat :=
  getPhysMem (getPagingEntry p) p addr

/-- The whole page behind a page of the kernel is copied to another one. -/
def copyPage (destination source : Nat) : M Unit := do
  let s ← get
  match s.translate (pageOf destination), s.translate (pageOf source) with
  | some dst, some src =>
      modify fun s => { s with memory := Function.update s.memory dst (s.memory src) }
  | _, _ => throw .pageFault

/-- The entry of a page which is duplicated on write becomes writable. Unless it is the last
one which names its frame it gets a copy of it. -/
def duplicatePage (p : Option Nat) (page : Nat) : M Unit := do
  let e ← loadEntry p page
  storeEntry p page { e with rw := true, avail := 0 }
  let last ← physMemIsLastRef e.frame
  if last then pure ()
  else do
    let frame ← physMemAllocPage false
    storeEntry p page { e with rw := true, avail := 0, frame := frame }
    let destination ← pagingMapPhysMem (← physMemAddRefPage frame) 0 true false
    let source ← pagingMapPhysMem (← physMemAddRefPage e.frame) 0 true false
    copyPage destination source
    pagingReleasePhysMem none destination 1
    pagingReleasePhysMem none source 1
    let _ ← physMemReleasePage e.frame
    return ()

def duplicateIf (b : Bool) (p : Option Nat) (page : Nat) : M Unit :=
  if b then duplicatePage p page else pure ()

/-- `interrupt_0x0E`, the page fault handler. The result says whether the thread continues. -/
def pageFaultHandler (p : Option Nat) (cr2 : Nat) (user write : Bool) : M Bool := do
  check (p.isSome == user)
  let table ← getPagingEntry p (pageOf cr2) false
  if table then do
    let e ← loadEntry p (pageOf cr2)
    if e = .zero then return false
    else if !e.user && user then return false
    else if !e.present && e.avail == PAGING_AVAIL_NOTPRESENT_RESERVED then return false
    else do
      requirePresent e
      if !e.rw && write && e.avail != PAGING_AVAIL_PRESENT_ON_WRITE_DUPLICATE then return false
      else do
        duplicateIf (!e.rw && write) p (pageOf cr2)
        return true
  else return false

def remoteLoop (dst_p src_p : Option Nat) (rw user : Bool) : Nat → Nat → Nat → M Unit
  | 0, _, _ => return ()
  | length + 1, dst_cur, src_cur => do
      check (← getPagingEntry src_p (pageOf src_cur) false)
      let src ← loadEntry src_p (pageOf src_cur)
      check (src != .zero)
      let _ ← getPagingEntry dst_p (pageOf dst_cur) true
      let dst ← loadEntry dst_p (pageOf dst_cur)
      check dst.isReserved
      requirePresent src
      duplicateIf (rw && !src.rw && src.avail == PAGING_AVAIL_PRESENT_ON_WRITE_DUPLICATE)
        src_p (pageOf src_cur)
      let src ← loadEntry src_p (pageOf src_cur)
      storeEntry dst_p (pageOf dst_cur) { src with rw := rw, user := user }
      let _ ← physMemAddRefPage src.frame
      remoteLoop dst_p src_p rw user length (nextPage dst_cur) (nextPage src_cur)

def areaOf (p : Option Nat) (addr length : Nat) : M Nat :=
  if addr = 0 then pagingSearchArea p length else pure addr

def pagingMapRemoteMemory (dst_p src_p : Option Nat) (dst_addr src_addr length : Nat)
    (rw user : Bool) : M (Option Nat) := do
  let dst_addr ← areaOf dst_p dst_addr length
  if pageOf dst_addr = 0 then return none
  else do
    pagingReserveArea dst_p user length dst_addr
    remoteLoop dst_p src_p rw user length dst_addr src_addr
    return some (dst_addr ||| src_addr % PAGE_SIZE)

/-- The page directory of a process is a new page, which is cleared. -/
def Machine.setPageDirectory (s : Machine) (pid addr : Nat) : Machine :=
  let frame := (s.kernel (pageOf addr)).frame
  { s.setProcess pid { s.process pid with
      pageDirectory := some (pageOf addr)
      pageTables := fun _ => none
      directory := fun _ => .zero
      directoryFrame := frame } with
    holdsTable := Function.update s.holdsTable frame true }

def pagingAllocProcessPageTable (pid : Nat) : M Unit := do
  check (← get).pagingEnabled
  check ((← get).process pid).pageDirectory.isNone
  let addr ← pagingAllocatePhysMem none 1 true false
  modify fun s => Machine.setPageDirectory s pid addr

/-- What the child gets for a page of the parent. -/
def forkEntry (destination source page : Nat) (src : PagingEntry) : M Unit :=
  if src.avail = 0 ∧ src.rw = true then do
    let src := { src with rw := false, avail := PAGING_AVAIL_PRESENT_ON_WRITE_DUPLICATE }
    storeEntry (some source) page src
    storeEntry (some destination) page src
    let _ ← physMemAddRefPage src.frame
    return ()
  else if src.avail = 0 ∨ src.avail = PAGING_AVAIL_PRESENT_SHARED ∨
      src.avail = PAGING_AVAIL_PRESENT_ON_WRITE_DUPLICATE then do
    storeEntry (some destination) page src
    let _ ← physMemAddRefPage src.frame
    return ()
  else if src.avail = PAGING_AVAIL_PRESENT_NO_FORK then pure ()
  else throw .assertion

/-- The copy which a not present entry gets does not help: `assert(src->present)` follows. -/
def forkPage (destination source page : Nat) : M Unit := do
  let src ← loadEntry (some source) page
  if src = .zero then pure ()
  else do
    let _ ← getPagingEntry (some destination) page true
    let dst ← loadEntry (some destination) page
    check (dst == .zero)
    if src.present then forkEntry destination source page src
    else requirePresent src

/-- The pages from `i` on. Where there is no page table, all of its pages are skipped. -/
def pagesLoop (p : Option Nat) (body : Nat → M Unit) : Nat → Nat → M Unit
  | 0, _ => return ()
  | rounds + 1, i =>
      if i < PAGE_COUNT then do
        let table ← getPagingEntry p i false
        if table then do
          body i
          pagesLoop p body rounds (i + 1)
        else pagesLoop p body rounds ((i ||| 0x3FF) + 1)
      else return ()

def pagingForkProcessPageTable (destination source : Nat) : M Unit := do
  check (← get).pagingEnabled
  check ((← get).process source).pageDirectory.isSome
  check ((← get).process destination).pageDirectory.isNone
  let addr ← pagingAllocatePhysMem none 1 true false
  modify fun s => Machine.setPageDirectory s destination addr
  pagesLoop (some source) (forkPage destination source) PAGE_COUNT 0

/-- One page of a process which is torn down. Reserved entries are left where they are. -/
def dropPage (pid page : Nat) : M Unit := do
  let e ← loadEntry (some pid) page
  if e = .zero then pure ()
  else if e.present then do
    storeEntry (some pid) page .zero
    let _ ← physMemReleasePage e.frame
    return ()
  else if e.avail = PAGING_AVAIL_NOTPRESENT_RESERVED ∨
      e.avail = PAGING_AVAIL_NOTPRESENT_ON_ACCESS_CREATE then pure ()
  else requirePresent e

def dropPageTable (pid i : Nat) : M Unit := do
  match ((← get).process pid).pageTables i with
  | some k =>
      pagingReleasePhysMem none (k * PAGE_SIZE) 1
      modify fun s => s.setProcess pid ((s.process pid).setPageTable i none)
  | none => pure ()

def dropDirectoryEntry (pid i : Nat) : M Unit := do
  accessDirectory pid
  let dir := ((← get).process pid).directory i
  if dir = .zero then pure ()
  else do
    requirePresent dir
    modify fun s => s.setProcess pid ((s.process pid).setDirectory i .zero)
    let _ ← physMemReleasePage dir.frame
    return ()

def dropTables (pid : Nat) : Nat → Nat → M Unit
  | 0, _ => return ()
  | rounds + 1, i => do
      dropPageTable pid i
      dropDirectoryEntry pid i
      dropTables pid rounds (i + 1)

def dropDirectory (pid : Nat) : M Unit := do
  match ((← get).process pid).pageDirectory with
  | some k =>
      pagingReleasePhysMem none (k * PAGE_SIZE) 1
      modify fun s => s.setProcess pid { s.process pid with pageDirectory := none }
  | none => throw .assertion

def pagingReleaseProcessPageTable (pid : Nat) : M Unit := do
  check (← get).pagingEnabled
  check ((← get).process pid).pageDirectory.isSome
  pagesLoop (some pid) (dropPage pid) PAGE_COUNT 0
  dropTables pid PAGETABLE_COUNT 0
  dropDirectory pid

/-- Whether `pagingTryMapUserMem` goes to `invalid` at a page which the user may access. -/
def rejects (rw : Bool) (src : PagingEntry) : Bool :=
  (!src.present && src.avail == PAGING_AVAIL_NOTPRESENT_RESERVED) ||
    (src.present && rw && !src.rw && src.avail != PAGING_AVAIL_PRESENT_ON_WRITE_DUPLICATE)

/-- One page which is acceptable. -/
def mapUserPage (src_p : Option Nat) (rw : Bool) (dst_page src_page : Nat) (src : PagingEntry) :
    M Unit := do
  requirePresent src
  duplicateIf (rw && !src.rw) src_p src_page
  let src ← loadEntry src_p src_page
  storeEntry none dst_page { src with rw := rw, user := false }
  let _ ← physMemAddRefPage src.frame
  return ()

def userLoop (src_p : Option Nat) (rw : Bool) (dst_addr : Nat) : Nat → Nat → Nat → M Bool
  | 0, _, _ => return true
  | length + 1, dst_cur, src_cur => do
      let table ← getPagingEntry src_p (pageOf src_cur) false
      if table then do
        let src ← loadEntry src_p (pageOf src_cur)
        if src = .zero ∨ src.user = false then invalid length dst_cur
        else do
          let _ ← getKernelEntry (pageOf dst_cur) true
          let dst ← loadEntry none (pageOf dst_cur)
          check dst.isReserved
          if rejects rw src then invalid length dst_cur
          else do
            mapUserPage src_p rw (pageOf dst_cur) (pageOf src_cur) src
            userLoop src_p rw dst_addr length (nextPage dst_cur) (nextPage src_cur)
      else invalid length dst_cur
where
  invalid (length dst_cur : Nat) : M Bool := do
    pagingReleasePhysMem none dst_addr
      ((dst_cur + 2 ^ 32 - dst_addr) % 2 ^ 32 / PAGE_SIZE + (length + 1))
    return false

def pagingTryMapUserMem (src_p : Option Nat) (src_addr length : Nat) (rw : Bool) :
    M (Option Nat) := do
  let dst_addr ← pagingSearchArea none length
  pagingReserveArea none false length dst_addr
  let success ← userLoop src_p rw dst_addr length dst_addr src_addr
  return if success then some (dst_addr ||| src_addr % PAGE_SIZE) else none

section

/-! Paging is switched on once, after the pages of the boot map were mapped to themselves. -/

def mapBootPages : Nat → Nat → M Unit
  | 0, _ => return ()
  | length + 1, index => do
      let _ ← pagingMapPhysMem index (index * PAGE_SIZE) true false
      mapBootPages length (index + 1)

def markBootPages : Nat → Nat → M Unit
  | 0, _ => return ()
  | length + 1, index => do
      let _ ← physMemMarkUnpageable index
      markBootPages length (index + 1)

structure BootMapEntry where
  startIndex : Nat
  length : Nat

/-- `__pagingBootMapCheck` -/
def pagingBootMapCheck (startIndex stopIndex : Nat) : List BootMapEntry → Bool
  | [] => false
  | e :: es =>
      if stopIndex ≤ e.startIndex then false
      else if e.startIndex + e.length ≤ startIndex then pagingBootMapCheck startIndex stopIndex es
      else true

def mapBootEntries : List BootMapEntry → M Unit
  | [] => return ()
  | e :: es => do
      mapBootPages e.length e.startIndex
      mapBootEntries es

def markBootEntries : List BootMapEntry → M Unit
  | [] => return ()
  | e :: es => do
      markBootPages e.length e.startIndex
      markBootEntries es

/-- The page directory of the kernel is a new page with a single entry. -/
def Machine.startDirectory (s : Machine) (frame : Nat) : Machine :=
  { s with
    kernel := fun page => if page = KERNEL_DIR then ⟨true, true, false, 0, frame⟩ else .zero
    kernelTable := Function.update s.kernelTable KERNEL_DIR_ENTRY frame
    holdsTable := Function.update s.holdsTable frame true }

def pagingInit (pagingBootMap : List BootMapEntry) : M Unit := do
  check (!pagingBootMapCheck 0 1 pagingBootMap)
  check (!pagingBootMapCheck KERNEL_PAGE (PAGE_COUNT - 1) pagingBootMap)
  let pageDirectoryIndex ← physMemAllocPage false
  modify fun s => Machine.startDirectory s pageDirectoryIndex
  mapBootEntries pagingBootMap
  modify fun s => { s with pagingEnabled := true }
  markBootEntries pagingBootMap

end

structure UserMemory where
  addr : Option Nat
  length : Nat

def accessUserMemory (p : Option Nat) (src_addr byte_length : Nat) (rw : Bool) :
    M (Bool × UserMemory) := do
  if byte_length = 0 then return (true, ⟨none, 0⟩)
  else do
    let length := (src_addr % PAGE_SIZE + byte_length + (PAGE_SIZE - 1)) % 2 ^ 32 / PAGE_SIZE
    let addr ← pagingTryMapUserMem p src_addr length rw
    return (addr.isSome, ⟨addr, length⟩)

/-- The bounds of `k` are only set when the product fits. -/
def accessUserMemoryStruct (k : UserMemory) (p : Option Nat)
    (src_addr count struct_length : Nat) (rw : Bool) : M (Bool × UserMemory) :=
  if count * struct_length / 2 ^ 32 ≠ 0 then return (false, k)
  else accessUserMemory p src_addr (count * struct_length) rw

def releaseUserMemory (k : UserMemory) : M Unit :=
  match k.addr with
  | some addr => pagingReleasePhysMem none addr k.length
  | none => pure ()

end Ibnos.Paging
