import Ibnos.PagingRuns

/-!
What holds of the operations on the tables and is kept by sequences of programs
holds of all paging functions. The operations of the kernel come first; those on
the tables of a process are not primitive, since they can leave what holds of a
process aside for a moment.
-/

namespace Ibnos.PagingPrograms

open Ibnos.Memory
open Ibnos.Physmem
open Ibnos.Paging
open Ibnos.Programs
open Ibnos.PagingRuns

def withMemory (s : Machine) (memory : Nat → Nat → BitVec 8) :
    Machine := { s with memory := memory }

/-- A property of programs which the functions of the kernel have if its own operations do. -/
structure KernelClosed (C : (α : Type) → M α → Prop) : Prop where
  pure : ∀ {α : Type} (a : α), C α (pure a)
  throw : ∀ {α : Type} (e : Stop), C α (throw e)
  bind : ∀ {α β : Type} {m : M α} {f : α → M β}, C α m → (∀ a, C β (f a)) → C β (m >>= f)
  get_bind : ∀ {β : Type} {f : Machine → M β}, (∀ s memory, f (withMemory s memory) = f s) →
    (∀ s, C β (f s)) → C β (get >>= f)
  setKernel : ∀ page e, C Unit (modify fun s => s.setEntry none page e)
  setInfo : ∀ index info, C Unit (modify fun s => s.setInfo index info)
  take : ∀ index, C Unit (modify fun s => (s.setBit index true).handOut index)
  setKernelTable : ∀ i frame, C Unit (modify fun s => s.setKernelTable i frame)
  setExtra : ∀ i addr, C Unit (modify fun s => s.setExtra i addr)

structure Closed (C : (α : Type) → M α → Prop) : Prop extends KernelClosed C where
  setEntry : ∀ p page e, C Unit (modify fun s => s.setEntry p page e)
  free : ∀ index, C Unit (modify fun s => s.setBit index false)

structure ProcessClosed (C : (α : Type) → M α → Prop) : Prop extends Closed C where
  getProcessEntry : ∀ pid page alloc, C Bool (getProcessEntry pid page alloc)
  copyPage : ∀ destination source, C Unit (copyPage destination source)
  setPageDirectory : ∀ pid addr, C Unit (modify fun s => Machine.setPageDirectory s pid addr)
  dropTables : ∀ pid rounds i, C Unit (dropTables pid rounds i)
  dropDirectory : ∀ pid, C Unit (dropDirectory pid)

theorem closed_ite {C : (α : Type) → M α → Prop} {α : Type} {c : Prop} {_ : Decidable c}
    {m m' : M α} (hm : C _ m) (hm' : C _ m') : C _ (if c then m else m') := by
  split
  · exact hm
  · exact hm'

section

variable {C : (α : Type) → M α → Prop} (h : KernelClosed C)

include h

theorem KernelClosed.check (b : Bool) : C _ (check b) :=
  closed_ite (h.pure ()) (h.throw _)

theorem KernelClosed.access (page frame : Nat) : C _ (access page frame) := by
  refine h.get_bind (fun _ _ => rfl) fun s => closed_ite ?_ (h.pure ())
  split
  · exact h.throw _
  · exact closed_ite (h.pure ()) (h.throw _)

theorem KernelClosed.accessTable (p : Option Nat) (page : Nat) : C _ (accessTable p page) := by
  cases p with
  | none => exact h.get_bind (fun _ _ => rfl) fun _ => h.access _ _
  | some pid =>
      refine h.get_bind (fun _ _ => rfl) fun s => ?_
      dsimp only
      split
      · exact h.throw _
      · exact h.access _ _

theorem KernelClosed.loadEntry (p : Option Nat) (page : Nat) : C _ (loadEntry p page) := by
  refine h.bind (h.accessTable p page) fun _ =>
    h.get_bind (fun _ _ => ?_) fun _ => h.pure _
  cases p <;> rfl

theorem KernelClosed.storeKernelEntry (page : Nat) (e : PagingEntry) :
    C _ (storeEntry none page e) :=
  h.bind (h.accessTable none page) fun _ => h.setKernel _ _

theorem KernelClosed.accessInfo (index : Nat) : C _ (accessInfo index) := by
  refine h.get_bind (fun _ _ => rfl) fun s => ?_
  split
  · exact h.throw _
  · exact h.access _ _

theorem KernelClosed.loadInfo (index : Nat) : C _ (loadInfo index) :=
  h.bind (h.accessInfo index) fun _ =>
    h.get_bind (fun _ _ => rfl) fun _ => h.pure _

theorem KernelClosed.storeInfo (index : Nat) (info : PhysMemExtraInfo) :
    C _ (storeInfo index info) :=
  h.bind (h.accessInfo index) fun _ => h.setInfo _ _

theorem KernelClosed.allocLoop (lowmem : Bool) (tries : Nat) :
    C _ (allocLoop lowmem tries) := by
  induction tries with
  | zero => exact h.throw _
  | succ tries ih =>
      refine h.get_bind (fun _ _ => rfl) fun s => ?_
      split
      · exact h.bind (h.take _) fun _ => h.pure _
      · exact h.bind (h.throw _) fun _ => ih

theorem KernelClosed.physMemAllocPage (lowmem : Bool) : C _ (physMemAllocPage lowmem) :=
  h.allocLoop lowmem _

theorem KernelClosed.requirePresent (e : PagingEntry) : C _ (requirePresent e) :=
  closed_ite (h.pure ()) (closed_ite (h.throw _) (h.throw _))

theorem KernelClosed.getKernelEntry (page : Nat) (alloc : Bool) :
    C _ (getKernelEntry page alloc) := by
  refine h.get_bind (fun _ _ => rfl) fun s => h.bind (h.access _ _) fun _ => ?_
  refine h.get_bind (fun _ _ => rfl) fun s => ?_
  refine closed_ite (closed_ite ?_ (h.pure _)) ?_
  · exact h.bind (h.physMemAllocPage _) fun _ => h.bind (h.setKernelTable _ _) fun _ => h.pure _
  · exact h.bind (h.requirePresent _) fun _ => h.bind (h.check _) fun _ =>
      h.pure _

end

section

/-! The functions which are the same for the kernel and for a process. -/

variable {C : (α : Type) → M α → Prop} (h : KernelClosed C) {entry : Nat → Bool → M Bool}
    {p : Option Nat}

include h

theorem KernelClosed.searchLoop (hentry : ∀ page alloc, C _ (entry page alloc))
    (length rounds i start : Nat) : C _ (searchLoop entry p length rounds i start) := by
  induction rounds generalizing i start with
  | zero => exact h.pure _
  | succ rounds ih =>
      refine closed_ite (h.bind (hentry _ _) fun _ => closed_ite ?_ ?_) (h.pure _)
      · refine h.bind (h.loadEntry _ _) fun _ => closed_ite (ih _ _) ?_
        exact closed_ite (h.pure _) (ih _ _)
      · exact closed_ite (h.pure _) (ih _ _)

theorem KernelClosed.trySearchArea (hentry : ∀ page alloc, C _ (entry page alloc))
    (length : Nat) : C _ (trySearchArea entry p length) :=
  closed_ite (h.pure _) (h.searchLoop hentry _ _ _ _)

theorem KernelClosed.allocateLoop (hentry : ∀ page alloc, C _ (entry page alloc))
    (hstore : ∀ page e, C _ (storeEntry p page e)) (rw user : Bool) (length cur : Nat) :
    C _ (allocateLoop entry p rw user length cur) := by
  induction length generalizing cur with
  | zero => exact h.pure _
  | succ length ih =>
      refine h.bind (h.physMemAllocPage _) fun _ => h.bind (hentry _ _) fun _ => ?_
      refine h.bind (h.loadEntry _ _) fun _ => h.bind (h.check _) fun _ => ?_
      exact h.bind (hstore _ _) fun _ => ih _

theorem KernelClosed.tryAllocatePhysMem (hentry : ∀ page alloc, C _ (entry page alloc))
    (hstore : ∀ page e, C _ (storeEntry p page e)) (length : Nat) (rw user : Bool) :
    C _ (tryAllocatePhysMem entry p length rw user) := by
  refine h.bind (h.trySearchArea hentry _) fun addr => ?_
  cases addr with
  | none => exact h.pure _
  | some addr => exact h.bind (h.allocateLoop hentry hstore _ _ _ _) fun _ => h.pure _

theorem KernelClosed.allocatePhysMem (hentry : ∀ page alloc, C _ (entry page alloc))
    (hstore : ∀ page e, C _ (storeEntry p page e)) (length : Nat) (rw user : Bool) :
    C _ (allocatePhysMem entry p length rw user) := by
  refine h.bind (h.tryAllocatePhysMem hentry hstore _ _ _) fun addr => ?_
  cases addr with
  | none => exact h.throw _
  | some addr => exact h.pure _

theorem KernelClosed.getPhysMem (hentry : ∀ page alloc, C _ (entry page alloc)) (addr : Nat) :
    C _ (getPhysMem entry p addr) := by
  refine h.bind (hentry _ _) fun _ => h.bind (h.check _) fun _ => ?_
  refine h.bind (h.loadEntry _ _) fun _ => h.bind (h.check _) fun _ => ?_
  exact h.bind (h.requirePresent _) fun _ => h.pure _

end

section

variable {C : (α : Type) → M α → Prop} (h : KernelClosed C)

include h

theorem KernelClosed.markRecord (index : Nat) : C _ (markRecord index) :=
  h.bind (h.loadInfo _) fun _ => h.storeInfo _ _

theorem KernelClosed.getPhysMemExtraInfo (fuel index : Nat) (alloc : Bool) :
    C _ (getPhysMemExtraInfo fuel index alloc) := by
  induction fuel generalizing index alloc with
  | zero =>
      rw [Physmem.getPhysMemExtraInfo]
      refine h.get_bind (fun _ _ => rfl) fun s => h.bind (h.check _) fun _ => ?_
      refine h.bind (h.check _) fun _ => h.get_bind (fun _ _ => rfl) fun s => ?_
      split
      · exact h.pure _
      · exact closed_ite (h.throw _) (h.pure _)
  | succ fuel ih =>
      rw [Physmem.getPhysMemExtraInfo]
      refine h.get_bind (fun _ _ => rfl) fun s => h.bind (h.check _) fun _ => ?_
      refine h.bind (h.check _) fun _ => h.get_bind (fun _ _ => rfl) fun s => ?_
      split
      · exact h.pure _
      · refine closed_ite ?_ (h.pure _)
        refine h.bind (h.allocatePhysMem h.getKernelEntry h.storeKernelEntry _ _ _) fun _ => ?_
        refine h.bind (h.setExtra _ _) fun _ => ?_
        refine h.bind (h.getPhysMem h.getKernelEntry _) fun _ => ?_
        refine h.bind (ih _ _) fun _ => h.bind (h.check _) fun _ => ?_
        exact h.bind (h.markRecord _) fun _ => h.pure _

theorem KernelClosed.physMemAddRefPage (index : Nat) : C _ (physMemAddRefPage index) := by
  refine h.bind (h.getPhysMemExtraInfo _ _ _) fun _ => h.bind (h.check _) fun _ => ?_
  refine h.bind (h.loadInfo _) fun _ => h.bind (h.storeInfo _ _) fun _ => ?_
  exact h.bind (h.check _) fun _ => h.pure _

theorem KernelClosed.physMemMarkUnpageable (index : Nat) : C _ (physMemMarkUnpageable index) :=
  h.bind (h.getPhysMemExtraInfo _ _ _) fun _ => h.bind (h.check _) fun _ =>
    h.bind (h.markRecord _) fun _ => h.pure _

theorem KernelClosed.physMemIsLastRef (index : Nat) : C _ (physMemIsLastRef index) :=
  h.bind (h.getPhysMemExtraInfo _ _ _) fun _ => closed_ite
    (h.bind (h.loadInfo _) fun _ => h.pure _) (h.pure _)

end

section

variable {C : (α : Type) → M α → Prop} (h : KernelClosed C)

include h

theorem KernelClosed.findUnused (rounds i : Nat) : C _ (findUnused rounds i) := by
  induction rounds generalizing i with
  | zero => exact h.pure _
  | succ rounds ih =>
      refine h.bind (h.getKernelEntry _ _) fun _ => h.bind (h.loadEntry _ _) fun _ => ?_
      exact closed_ite (h.pure _) (ih _)

theorem KernelClosed.pagingMapPhysMem (index addr : Nat) (rw user : Bool) :
    C _ (pagingMapPhysMem index addr rw user) := by
  refine closed_ite ?_ (h.bind (h.findUnused _ _) fun i => ?_)
  · refine h.bind (h.check _) fun _ => h.bind (h.getKernelEntry _ _) fun _ => ?_
    refine h.bind (h.loadEntry _ _) fun _ => closed_ite (h.throw _) ?_
    exact h.bind (h.storeKernelEntry _ _) fun _ => h.pure _
  · cases i with
    | none => exact h.throw _
    | some i => exact h.bind (h.storeKernelEntry _ _) fun _ => h.pure _

theorem KernelClosed.accessDirectory (pid : Nat) : C _ (accessDirectory pid) := by
  refine h.get_bind (fun _ _ => rfl) fun s => ?_
  dsimp only
  split
  · exact h.throw _
  · exact h.access _ _

end

section

/-! Frames which are released. The functions only need what stores the entries of one page table. -/

variable {C : (α : Type) → M α → Prop} (h : KernelClosed C)
  (hfree : ∀ index, C Unit (modify fun s => s.setBit index false))

include h hfree

theorem KernelClosed.freePage (index : Nat) : C _ (freePage index) :=
  h.bind (hfree _) fun _ => h.pure _

theorem KernelClosed.physMemReleasePage (index : Nat) : C _ (physMemReleasePage index) := by
  refine h.get_bind (fun _ _ => rfl) fun s => h.bind (h.check _) fun _ => ?_
  refine h.bind (h.getPhysMemExtraInfo _ _ _) fun _ => closed_ite ?_ (h.freePage hfree _)
  refine h.bind (h.loadInfo _) fun _ => closed_ite (h.freePage hfree _) ?_
  refine h.bind (h.check _) fun _ => h.bind (h.storeInfo _ _) fun _ => ?_
  refine closed_ite (h.pure _) ?_
  exact h.bind (h.storeInfo _ _) fun _ => h.freePage hfree _

theorem KernelClosed.releaseEntry {p : Option Nat} {page : Nat}
    (hstore : ∀ e, C _ (storeEntry p page e))
    (e : PagingEntry) : C _ (releaseEntry p page e) := by
  refine closed_ite ?_ (closed_ite (hstore _) (h.requirePresent _))
  exact h.bind (hstore _) fun _ => h.bind (h.physMemReleasePage hfree _) fun _ => h.pure _

theorem KernelClosed.releaseLoop {p : Option Nat}
    (hentry : ∀ page alloc, C _ (getPagingEntry p page alloc))
    (hstore : ∀ page e, C _ (storeEntry p page e))
    (skip : PagingEntry → Bool) (length cur : Nat) (success : Bool) :
    C _ (releaseLoop skip p length cur success) := by
  induction length generalizing cur success with
  | zero => exact h.pure _
  | succ length ih =>
      refine h.bind (hentry _ _) fun _ => closed_ite ?_ (ih _ _)
      refine h.bind (h.loadEntry _ _) fun _ => closed_ite (ih _ _) ?_
      exact h.bind (h.releaseEntry hfree (hstore _) _) fun _ => ih _ _

theorem KernelClosed.pagingReleasePhysMem (addr length : Nat) :
    C _ (pagingReleasePhysMem none addr length) :=
  h.bind (h.releaseLoop (p := none) hfree h.getKernelEntry h.storeKernelEntry _ _ _ _) fun _ =>
    h.check _

variable (hcopy : ∀ destination source, C _ (copyPage destination source))

include hcopy

theorem KernelClosed.duplicatePage {p : Option Nat} {page : Nat}
    (hstore : ∀ e, C _ (storeEntry p page e)) :
    C _ (duplicatePage p page) := by
  refine h.bind (h.loadEntry _ _) fun _ => h.bind (hstore _) fun _ => ?_
  refine h.bind (h.physMemIsLastRef _) fun _ => closed_ite (h.pure _) ?_
  refine h.bind (h.physMemAllocPage _) fun _ => h.bind (hstore _) fun _ => ?_
  refine h.bind (h.physMemAddRefPage _) fun _ => ?_
  refine h.bind (h.pagingMapPhysMem _ _ _ _) fun _ => ?_
  refine h.bind (h.physMemAddRefPage _) fun _ => ?_
  refine h.bind (h.pagingMapPhysMem _ _ _ _) fun _ => ?_
  refine h.bind (hcopy _ _) fun _ => ?_
  refine h.bind (h.pagingReleasePhysMem hfree _ _) fun _ => ?_
  refine h.bind (h.pagingReleasePhysMem hfree _ _) fun _ => ?_
  exact h.bind (h.physMemReleasePage hfree _) fun _ => h.pure _

end

section

variable {C : (α : Type) → M α → Prop} (h : Closed C)

include h

theorem Closed.storeEntry (p : Option Nat) (page : Nat) (e : PagingEntry) :
    C _ (storeEntry p page e) :=
  h.bind (h.accessTable p page) fun _ => h.setEntry _ _ _

theorem Closed.physMemReleasePage (index : Nat) : C _ (physMemReleasePage index) :=
  h.toKernelClosed.physMemReleasePage h.free _

theorem Closed.releaseLoop {p : Option Nat}
    (hentry : ∀ page alloc, C _ (getPagingEntry p page alloc)) (skip : PagingEntry → Bool)
    (length cur : Nat) (success : Bool) : C _ (releaseLoop skip p length cur success) :=
  h.toKernelClosed.releaseLoop h.free hentry (h.storeEntry p) _ _ _ _

theorem Closed.pagingReleasePhysMem (addr length : Nat) :
    C _ (pagingReleasePhysMem none addr length) := h.toKernelClosed.pagingReleasePhysMem h.free _ _

end

section

variable {C : (α : Type) → M α → Prop} (h : Closed C)
  (hcopy : ∀ destination source, C _ (copyPage destination source))

include h hcopy

theorem Closed.duplicatePage (p : Option Nat) (page : Nat) : C _ (duplicatePage p page) :=
  h.toKernelClosed.duplicatePage h.free hcopy (h.storeEntry _ _)

theorem Closed.duplicateIf (b : Bool) (p : Option Nat) (page : Nat) :
    C _ (duplicateIf b p page) :=
  closed_ite (h.duplicatePage hcopy _ _) (h.pure _)

theorem Closed.mapUserPage (src_p : Option Nat) (rw : Bool) (dst_page src_page : Nat)
    (src : PagingEntry) : C _ (mapUserPage src_p rw dst_page src_page src) := by
  refine h.bind (h.requirePresent _) fun _ => h.bind (h.duplicateIf hcopy _ _ _) fun _ => ?_
  refine h.bind (h.loadEntry _ _) fun _ => h.bind (h.storeEntry _ _ _) fun _ => ?_
  exact h.bind (h.physMemAddRefPage _) fun _ => h.pure _

end

section

variable {C : (α : Type) → M α → Prop} (h : Closed C) {p : Option Nat}
  (hentry : ∀ page alloc, C _ (getPagingEntry p page alloc))

include h hentry

theorem Closed.pagingSearchArea (length : Nat) : C _ (pagingSearchArea p length) := by
  refine h.bind (h.trySearchArea hentry _) fun addr => ?_
  cases addr with
  | none => exact h.throw _
  | some addr => exact h.pure _

theorem Closed.moveLoop (length dst_cur src_cur : Nat) :
    C _ (moveLoop p length dst_cur src_cur) := by
  induction length generalizing dst_cur src_cur with
  | zero => exact h.pure _
  | succ length ih =>
      refine h.bind (hentry _ _) fun _ => h.bind (h.check _) fun _ => ?_
      refine h.bind (h.loadEntry _ _) fun _ => h.bind (h.check _) fun _ => ?_
      refine h.bind (hentry _ _) fun _ => h.bind (h.loadEntry _ _) fun _ => ?_
      refine h.bind (h.check _) fun _ => h.bind (h.loadEntry _ _) fun _ => ?_
      refine h.bind (h.storeEntry _ _ _) fun _ => ?_
      exact h.bind (h.storeEntry _ _ _) fun _ => ih _ _

theorem Closed.makeRoom (new_length addr old_length cur : Nat) :
    C _ (makeRoom p new_length addr old_length cur) := by
  refine h.bind (hentry _ _) fun _ => h.bind (h.loadEntry _ _) fun _ => ?_
  refine closed_ite ?_ (h.pure _)
  refine h.bind (h.pagingSearchArea hentry _) fun _ => ?_
  refine h.bind (h.bind (h.check _) fun _ => h.bind (h.moveLoop hentry _ _ _) fun _ => h.pure _) fun _ =>
    ?_
  refine h.bind (hentry _ _) fun _ => h.bind (h.loadEntry _ _) fun _ => ?_
  exact h.bind (h.check _) fun _ => h.pure _

theorem Closed.growLoop (new_length : Nat) (rw user : Bool)
    (rounds addr old_length cur : Nat) :
    C _ (growLoop p new_length rw user rounds addr old_length cur) := by
  induction rounds generalizing addr old_length cur with
  | zero => exact h.pure _
  | succ rounds ih =>
      refine h.bind (h.physMemAllocPage _) fun _ => h.bind (h.makeRoom hentry _ _ _ _) fun _ => ?_
      exact h.bind (h.storeEntry _ _ _) fun _ => ih _ _ _

theorem Closed.shrinkLoop (rounds cur : Nat) :
    C _ (shrinkLoop p rounds cur) := by
  induction rounds generalizing cur with
  | zero => exact h.pure _
  | succ rounds ih =>
      refine h.bind (hentry _ _) fun _ => h.bind (h.check _) fun _ => ?_
      refine h.bind (h.loadEntry _ _) fun _ => h.bind (h.check _) fun _ => ?_
      refine h.bind ?_ fun _ => ih _
      refine closed_ite ?_ (closed_ite (h.storeEntry _ _ _) (h.requirePresent _))
      exact h.bind (h.storeEntry _ _ _) fun _ => h.bind (h.physMemReleasePage _) fun _ =>
        h.pure _

theorem Closed.pagingReAllocatePhysMem (addr old_length new_length : Nat)
    (rw user : Bool) : C _ (pagingReAllocatePhysMem p addr old_length new_length rw user) := by
  refine closed_ite ?_ (h.bind (h.shrinkLoop hentry _ _) fun _ => h.pure _)
  refine h.bind ?_ fun _ => h.growLoop hentry _ _ _ _ _ _ _
  exact closed_ite (h.pagingSearchArea hentry _) (h.pure _)

end

section

variable {C : (α : Type) → M α → Prop} (h : ProcessClosed C)

include h

theorem ProcessClosed.getPagingEntry (p : Option Nat) (page : Nat) (alloc : Bool) :
    C _ (getPagingEntry p page alloc) := by
  cases p with
  | none => exact h.getKernelEntry _ _
  | some pid => exact h.getProcessEntry _ _ _

theorem ProcessClosed.pagingReserveArea (p : Option Nat) (user : Bool) (length cur : Nat) :
    C _ (pagingReserveArea p user length cur) := by
  induction length generalizing cur with
  | zero => exact h.pure _
  | succ length ih =>
      refine h.bind (h.getPagingEntry _ _ _) fun _ => h.bind (h.loadEntry _ _) fun _ => ?_
      refine h.bind (h.check _) fun _ => h.bind (h.storeEntry _ _ _) fun _ => ih _

theorem ProcessClosed.pagingTrySearchArea (p : Option Nat) (length : Nat) :
    C _ (pagingTrySearchArea p length) :=
  h.trySearchArea (h.getPagingEntry p) _

theorem ProcessClosed.pagingSearchArea (p : Option Nat) (length : Nat) :
    C _ (pagingSearchArea p length) := h.toClosed.pagingSearchArea (h.getPagingEntry p) _

theorem ProcessClosed.pagingAllocatePhysMem (p : Option Nat) (length : Nat) (rw user : Bool) :
    C _ (pagingAllocatePhysMem p length rw user) :=
  h.allocatePhysMem (h.getPagingEntry p) (h.storeEntry p) _ _ _

theorem ProcessClosed.unpageableLoop (p : Option Nat) (rw user : Bool) (length cur : Nat) :
    C _ (unpageableLoop p rw user length cur) := by
  induction length generalizing cur with
  | zero => exact h.pure _
  | succ length ih =>
      refine h.bind (h.physMemAllocPage _) fun _ => ?_
      refine h.bind (h.physMemMarkUnpageable _) fun _ => ?_
      refine h.bind (h.getPagingEntry _ _ _) fun _ => h.bind (h.loadEntry _ _) fun _ => ?_
      exact h.bind (h.check _) fun _ => h.bind (h.storeEntry _ _ _) fun _ => ih _

theorem ProcessClosed.pagingAllocatePhysMemUnpageable (p : Option Nat) (length : Nat)
    (rw user : Bool) :
    C _ (pagingAllocatePhysMemUnpageable p length rw user) := by
  refine h.bind (h.pagingTrySearchArea _ _) fun addr => ?_
  cases addr with
  | none => exact h.throw _
  | some addr =>
      refine h.bind (h.pagingReserveArea _ _ _ _) fun _ => ?_
      exact h.bind (h.unpageableLoop _ _ _ _ _) fun _ => h.pure _

theorem ProcessClosed.pagingAllocatePhysMemFixedUnpageable (p : Option Nat) (addr length : Nat)
    (rw user : Bool) : C _ (pagingAllocatePhysMemFixedUnpageable p addr length rw user) := by
  refine h.bind (h.check _) fun _ => h.bind (h.pagingReserveArea _ _ _ _) fun _ => ?_
  exact h.bind (h.unpageableLoop _ _ _ _ _) fun _ => h.pure _

theorem ProcessClosed.fixedLoop (p : Option Nat) (addr : Nat) (rw user : Bool) (length cur : Nat) :
    C _ (fixedLoop p addr rw user length cur) := by
  induction length generalizing cur with
  | zero => exact h.pure _
  | succ length ih =>
      refine h.bind (h.physMemAllocPage _) fun _ => ?_
      refine h.bind (h.getPagingEntry _ _ _) fun _ => h.bind (h.loadEntry _ _) fun _ => ?_
      refine closed_ite ?_ (h.bind (h.storeEntry _ _ _) fun _ => ih _)
      refine h.bind (h.physMemReleasePage _) fun _ => ?_
      exact h.bind (h.pagingReleasePhysMem _ _) fun _ => h.pure _

theorem ProcessClosed.pagingTryAllocatePhysMemFixed (p : Option Nat) (addr length : Nat)
    (rw user : Bool) : C _ (pagingTryAllocatePhysMemFixed p addr length rw user) :=
  closed_ite (h.pure _) (h.bind (h.fixedLoop _ _ _ _ _ _) fun _ => h.pure _)

theorem ProcessClosed.pagingAllocatePhysMemFixed (p : Option Nat) (addr length : Nat)
    (rw user : Bool) : C _ (pagingAllocatePhysMemFixed p addr length rw user) := by
  refine h.bind (h.pagingTryAllocatePhysMemFixed _ _ _ _ _) fun addr => ?_
  cases addr with
  | none => exact h.throw _
  | some addr => exact h.pure _

end

section

variable {C : (α : Type) → M α → Prop} (h : ProcessClosed C)

include h

theorem ProcessClosed.pagingReAllocatePhysMem (p : Option Nat) (addr old_length new_length : Nat)
    (rw user : Bool) : C _ (pagingReAllocatePhysMem p addr old_length new_length rw user) :=
  h.toClosed.pagingReAllocatePhysMem (h.getPagingEntry p) _ _ _ _ _

end

section

variable {C : (α : Type) → M α → Prop} (h : ProcessClosed C)

include h

theorem ProcessClosed.duplicateIf (b : Bool) (p : Option Nat) (page : Nat) :
    C _ (duplicateIf b p page) := h.toClosed.duplicateIf h.copyPage _ _ _

theorem ProcessClosed.pageFaultHandler (p : Option Nat) (cr2 : Nat) (user write : Bool) :
    C _ (pageFaultHandler p cr2 user write) := by
  refine h.bind (h.check _) fun _ => h.bind (h.getPagingEntry _ _ _) fun _ => ?_
  refine closed_ite (h.bind (h.loadEntry _ _) fun _ => ?_) (h.pure _)
  refine closed_ite (h.pure _) (closed_ite (h.pure _) ?_)
  refine closed_ite (h.pure _) (h.bind (h.requirePresent _) fun _ => ?_)
  refine closed_ite (h.pure _) ?_
  exact h.bind (h.duplicateIf _ _ _) fun _ => h.pure _

theorem ProcessClosed.remoteLoop (dst_p src_p : Option Nat) (rw user : Bool)
    (length dst_cur src_cur : Nat) :
    C _ (remoteLoop dst_p src_p rw user length dst_cur src_cur) := by
  induction length generalizing dst_cur src_cur with
  | zero => exact h.pure _
  | succ length ih =>
      refine h.bind (h.getPagingEntry _ _ _) fun _ => h.bind (h.check _) fun _ => ?_
      refine h.bind (h.loadEntry _ _) fun _ => h.bind (h.check _) fun _ => ?_
      refine h.bind (h.getPagingEntry _ _ _) fun _ => h.bind (h.loadEntry _ _) fun _ => ?_
      refine h.bind (h.check _) fun _ => h.bind (h.requirePresent _) fun _ => ?_
      refine h.bind (h.duplicateIf _ _ _) fun _ => h.bind (h.loadEntry _ _) fun _ => ?_
      refine h.bind (h.storeEntry _ _ _) fun _ => ?_
      exact h.bind (h.physMemAddRefPage _) fun _ => ih _ _

theorem ProcessClosed.pagingMapRemoteMemory (dst_p src_p : Option Nat)
    (dst_addr src_addr length : Nat)
    (rw user : Bool) :
    C _ (pagingMapRemoteMemory dst_p src_p dst_addr src_addr length rw user) := by
  refine h.bind (closed_ite (h.pagingSearchArea _ _) (h.pure _)) fun _ => ?_
  refine closed_ite (h.pure _) (h.bind (h.pagingReserveArea _ _ _ _) fun _ => ?_)
  exact h.bind (h.remoteLoop _ _ _ _ _ _ _) fun _ => h.pure _

theorem ProcessClosed.pagingAllocProcessPageTable (pid : Nat) :
    C _ (pagingAllocProcessPageTable pid) := by
  refine h.get_bind (fun _ _ => rfl) fun _ => h.bind (h.check _) fun _ => ?_
  refine h.get_bind (fun _ _ => rfl) fun _ => h.bind (h.check _) fun _ => ?_
  exact h.bind (h.pagingAllocatePhysMem _ _ _ _) fun _ => h.setPageDirectory _ _

theorem ProcessClosed.forkEntry (destination source page : Nat) (src : PagingEntry) :
    C _ (forkEntry destination source page src) := by
  refine closed_ite ?_ (closed_ite ?_ (closed_ite (h.pure _) (h.throw _)))
  · refine h.bind (h.storeEntry _ _ _) fun _ => h.bind (h.storeEntry _ _ _) fun _ => ?_
    exact h.bind (h.physMemAddRefPage _) fun _ => h.pure _
  · refine h.bind (h.storeEntry _ _ _) fun _ => ?_
    exact h.bind (h.physMemAddRefPage _) fun _ => h.pure _

theorem ProcessClosed.forkPage (destination source page : Nat) :
    C _ (forkPage destination source page) := by
  refine h.bind (h.loadEntry _ _) fun _ => closed_ite (h.pure _) ?_
  refine h.bind (h.getPagingEntry _ _ _) fun _ => h.bind (h.loadEntry _ _) fun _ => ?_
  refine h.bind (h.check _) fun _ => ?_
  exact closed_ite (h.forkEntry _ _ _ _) (h.requirePresent _)

theorem ProcessClosed.pagesLoop (p : Option Nat) {body : Nat → M Unit}
    (hbody : ∀ page, C _ (body page)) (rounds i : Nat) :
    C _ (pagesLoop p body rounds i) := by
  induction rounds generalizing i with
  | zero => exact h.pure _
  | succ rounds ih =>
      refine closed_ite (h.bind (h.getPagingEntry _ _ _) fun _ => ?_) (h.pure _)
      exact closed_ite (h.bind (hbody _) fun _ => ih _) (ih _)

theorem ProcessClosed.pagingForkProcessPageTable (destination source : Nat) :
    C _ (pagingForkProcessPageTable destination source) := by
  refine h.get_bind (fun _ _ => rfl) fun _ => h.bind (h.check _) fun _ => ?_
  refine h.get_bind (fun _ _ => rfl) fun _ => h.bind (h.check _) fun _ => ?_
  refine h.get_bind (fun _ _ => rfl) fun _ => h.bind (h.check _) fun _ => ?_
  refine h.bind (h.pagingAllocatePhysMem _ _ _ _) fun _ => ?_
  refine h.bind (h.setPageDirectory _ _) fun _ => ?_
  exact h.pagesLoop _ (h.forkPage _ _) _ _

theorem ProcessClosed.dropPage (pid page : Nat) : C _ (dropPage pid page) := by
  refine h.bind (h.loadEntry _ _) fun _ => closed_ite (h.pure _) ?_
  refine closed_ite ?_ (closed_ite (h.pure _) (h.requirePresent _))
  exact h.bind (h.storeEntry _ _ _) fun _ => h.bind (h.physMemReleasePage _) fun _ =>
    h.pure _

theorem ProcessClosed.pagingReleaseProcessPageTable (pid : Nat) :
    C _ (pagingReleaseProcessPageTable pid) := by
  refine h.get_bind (fun _ _ => rfl) fun _ => h.bind (h.check _) fun _ => ?_
  refine h.get_bind (fun _ _ => rfl) fun _ => h.bind (h.check _) fun _ => ?_
  refine h.bind (h.pagesLoop _ (h.dropPage _) _ _) fun _ => ?_
  exact h.bind (h.dropTables _ _ _) fun _ => h.dropDirectory _

theorem ProcessClosed.mapUserPage (src_p : Option Nat) (rw : Bool) (dst_page src_page : Nat)
    (src : PagingEntry) : C _ (mapUserPage src_p rw dst_page src_page src) :=
  h.toClosed.mapUserPage h.copyPage _ _ _ _ _

theorem ProcessClosed.userLoop (src_p : Option Nat) (rw : Bool)
    (dst_addr length dst_cur src_cur : Nat) :
    C _ (userLoop src_p rw dst_addr length dst_cur src_cur) := by
  have hinvalid : ∀ length dst_cur, C _ (userLoop.invalid dst_addr length dst_cur) :=
    fun _ _ => h.bind (h.pagingReleasePhysMem _ _) fun _ => h.pure _
  induction length generalizing dst_cur src_cur with
  | zero => exact h.pure _
  | succ length ih =>
      refine h.bind (h.getPagingEntry _ _ _) fun _ => closed_ite ?_ (hinvalid _ _)
      refine h.bind (h.loadEntry _ _) fun _ => closed_ite (hinvalid _ _) ?_
      refine h.bind (h.getKernelEntry _ _) fun _ => h.bind (h.loadEntry _ _) fun _ => ?_
      refine h.bind (h.check _) fun _ => closed_ite (hinvalid _ _) ?_
      exact h.bind (h.mapUserPage _ _ _ _ _) fun _ => ih _ _

theorem ProcessClosed.pagingTryMapUserMem (src_p : Option Nat) (src_addr length : Nat) (rw : Bool) :
    C _ (pagingTryMapUserMem src_p src_addr length rw) := by
  refine h.bind (h.pagingSearchArea _ _) fun _ => ?_
  refine h.bind (h.pagingReserveArea _ _ _ _) fun _ => ?_
  exact h.bind (h.userLoop _ _ _ _ _ _) fun _ => h.pure _

theorem ProcessClosed.operate (op : Operation) : C _ (operate op) := by
  cases op with
  | tryAllocatePhysMem p length rw user =>
      exact h.bind (h.tryAllocatePhysMem (h.getPagingEntry p) (h.storeEntry p) _ _ _) fun _ =>
        h.pure _
  | tryAllocatePhysMemFixed p addr length rw user =>
      exact h.bind (h.pagingTryAllocatePhysMemFixed _ _ _ _ _) fun _ => h.pure _
  | allocatePhysMemFixed p addr length rw user =>
      exact h.bind (h.pagingAllocatePhysMemFixed _ _ _ _ _) fun _ => h.pure _
  | allocatePhysMemUnpageable p length rw user =>
      exact h.bind (h.pagingAllocatePhysMemUnpageable _ _ _ _) fun _ => h.pure _
  | allocatePhysMemFixedUnpageable p addr length rw user =>
      exact h.bind (h.pagingAllocatePhysMemFixedUnpageable _ _ _ _ _) fun _ => h.pure _
  | reAllocatePhysMem p addr old_length new_length rw user =>
      exact h.bind (h.pagingReAllocatePhysMem _ _ _ _ _ _) fun _ => h.pure _
  | tryReleasePhysMem p addr length =>
      exact h.bind (h.releaseLoop (h.getPagingEntry _) _ _ _ _) fun _ => h.pure _
  | tryReleaseUserMem p addr length =>
      exact h.bind (h.releaseLoop (h.getPagingEntry _) _ _ _ _) fun _ => h.pure _
  | mapRemoteMemory dst_p src_p dst_addr src_addr length rw user =>
      exact h.bind (h.pagingMapRemoteMemory _ _ _ _ _ _ _) fun _ => h.pure _
  | tryMapUserMem src_p src_addr length rw =>
      exact h.bind (h.pagingTryMapUserMem _ _ _ _) fun _ => h.pure _
  | pageFault p cr2 user write =>
      exact h.bind (h.pageFaultHandler _ _ _ _) fun _ => h.pure _
  | allocProcessPageTable pid => exact h.pagingAllocProcessPageTable _
  | forkProcessPageTable destination source => exact h.pagingForkProcessPageTable _ _
  | releaseProcessPageTable pid => exact h.pagingReleaseProcessPageTable _

end

section

variable {s s' : Machine} {page : Nat} {p : Option Nat} {e : PagingEntry}

/-- What is looked at is not changed. -/
theorem keeps_access (page frame : Nat) : Keeps Eq (access page frame) := by
  have hpure : Keeps Eq (pure () : M Unit) := keeps_pure Eq.refl ()
  refine Keeps.bind (fun _ _ _ => Eq.trans) (keeps_get Eq.refl) fun s =>
    keeps_ite ?_ hpure
  split
  · exact keeps_throw _
  · exact keeps_ite hpure (keeps_throw _)

theorem keeps_accessTable (p : Option Nat) (page : Nat) :
    Keeps Eq (accessTable p page) := by
  cases p with
  | none =>
      exact Keeps.bind (fun _ _ _ => Eq.trans) (keeps_get Eq.refl) fun _ =>
        keeps_access _ _
  | some pid =>
      refine Keeps.bind (fun _ _ _ => Eq.trans) (keeps_get Eq.refl) fun s => ?_
      dsimp only
      split
      · exact keeps_throw _
      · exact keeps_access _ _

theorem loadEntry_inv (hok : loadEntry p page s = .ok (e, s')) : e = s.entry p page ∧ s' = s := by
  obtain ⟨_, s₁, haccess, hload⟩ := bind_ok.mp hok
  cases hload
  obtain rfl := keeps_accessTable _ _ _ _ _ haccess
  exact ⟨rfl, rfl⟩

theorem storeEntry_inv {u : Unit} (hok : storeEntry p page e s = .ok (u, s')) :
    s' = s.setEntry p page e := by
  obtain ⟨_, s₁, haccess, hstore⟩ := bind_ok.mp hok
  cases hstore
  obtain rfl := keeps_accessTable _ _ _ _ _ haccess
  rfl

theorem check_inv {b : Bool} {u : Unit} (hok : check b s = .ok (u, s')) : b = true ∧ s' = s := by
  rw [check] at hok
  split at hok <;> cases hok
  exact ⟨by assumption, rfl⟩

theorem requirePresent_inv {u : Unit} (hok : requirePresent e s = .ok (u, s')) : s' = s := by
  rw [requirePresent] at hok
  split at hok
  · cases hok
    rfl
  · split at hok <;> cases hok

theorem keeps_accessDirectory (pid : Nat) : Keeps Eq (accessDirectory pid) := by
  refine Keeps.bind (fun _ _ _ => Eq.trans) (keeps_get Eq.refl) fun s => ?_
  dsimp only
  split
  · exact keeps_throw _
  · exact keeps_access _ _

end

end Ibnos.PagingPrograms
