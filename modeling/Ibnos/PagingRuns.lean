import Ibnos.Runs
import Ibnos.UserAccesses

/-!
Runs of the paging functions from the moment paging is switched on, for the kernel
and any number of processes, with the accesses of their users in between.
-/

namespace Ibnos.PagingRuns

open Ibnos.Memory
open Ibnos.Physmem
open Ibnos.Paging
open Ibnos.Programs
open Ibnos.References
open Ibnos.KernelPages
open Ibnos.ProcessPages
open Ibnos.PagingOperations
open Ibnos.RemotePages
open Ibnos.Forks
open Ibnos.Teardowns
open Ibnos.UserMemory
open Ibnos.UserAccesses
open Ibnos.BootPaging
open Ibnos.Intervals
open Ibnos.Tallies
open Ibnos.Runs

section

inductive Operation where
  | tryAllocatePhysMem (p : Option Nat) (length : BitVec 32) (rw user : Bool)
  | tryAllocatePhysMemFixed (p : Option Nat) (addr length : BitVec 32) (rw user : Bool)
  | allocatePhysMemFixed (p : Option Nat) (addr length : BitVec 32) (rw user : Bool)
  | allocatePhysMemUnpageable (p : Option Nat) (length : BitVec 32) (rw user : Bool)
  | allocatePhysMemFixedUnpageable (p : Option Nat) (addr length : BitVec 32) (rw user : Bool)
  | reAllocatePhysMem (p : Option Nat) (addr old_length new_length : BitVec 32) (rw user : Bool)
  | tryReleasePhysMem (p : Option Nat) (addr length : BitVec 32)
  | tryReleaseUserMem (p : Option Nat) (addr length : BitVec 32)
  | mapRemoteMemory (dst_p src_p : Option Nat) (dst_addr src_addr length : BitVec 32)
      (rw user : Bool)
  | tryMapUserMem (src_p : Option Nat) (src_addr length : BitVec 32) (rw : Bool)
  | pageFault (p : Option Nat) (cr2 : BitVec 32) (user write : Bool)
  | allocProcessPageTable (pid : Nat)
  | forkProcessPageTable (destination source : Nat)
  | releaseProcessPageTable (pid : Nat)

def operate : Operation → M Unit
  | .tryAllocatePhysMem p length rw user => do
      let _ ← pagingTryAllocatePhysMem p length.toNat rw user
  | .tryAllocatePhysMemFixed p addr length rw user => do
      let _ ← pagingTryAllocatePhysMemFixed p addr.toNat length.toNat rw user
  | .allocatePhysMemFixed p addr length rw user => do
      let _ ← pagingAllocatePhysMemFixed p addr.toNat length.toNat rw user
  | .allocatePhysMemUnpageable p length rw user => do
      let _ ← pagingAllocatePhysMemUnpageable p length.toNat rw user
  | .allocatePhysMemFixedUnpageable p addr length rw user => do
      let _ ← pagingAllocatePhysMemFixedUnpageable p addr.toNat length.toNat rw user
  | .reAllocatePhysMem p addr old_length new_length rw user => do
      let _ ← pagingReAllocatePhysMem p addr.toNat old_length.toNat new_length.toNat rw user
  | .tryReleasePhysMem p addr length => do
      let _ ← pagingTryReleasePhysMem p addr.toNat length.toNat
  | .tryReleaseUserMem p addr length => do
      let _ ← pagingTryReleaseUserMem p addr.toNat length.toNat
  | .mapRemoteMemory dst_p src_p dst_addr src_addr length rw user => do
      let _ ← pagingMapRemoteMemory dst_p src_p dst_addr.toNat src_addr.toNat length.toNat rw user
  | .tryMapUserMem src_p src_addr length rw => do
      let _ ← pagingTryMapUserMem src_p src_addr.toNat length.toNat rw
  | .pageFault p cr2 user write => do
      let _ ← pageFaultHandler p cr2.toNat user write
  | .allocProcessPageTable pid => pagingAllocProcessPageTable pid
  | .forkProcessPageTable destination source => pagingForkProcessPageTable destination source
  | .releaseProcessPageTable pid => pagingReleaseProcessPageTable pid

/-- Pages of the kernel which are neither its page tables nor hold a table of a process or of
records. -/
def Common (s : Machine) (length addr : Nat) : Prop :=
  ∀ page, Span length addr page → page < KERNEL_PAGE ∧ ¬Owned s page

/-- The kernel operates on its own address space below its page tables only and leaves its
tables alone, and memory at a fixed place of a process is free except possibly for the first
page of it. -/
def Proper (s : Machine) : Operation → Prop
  | .tryAllocatePhysMemFixed p addr length _ _ => FixedFits s p addr.toNat length.toNat
  | .allocatePhysMemFixed p addr length _ _ =>
      p = none → pageOf addr.toNat + length.toNat ≤ KERNEL_PAGE
  | .allocatePhysMemFixedUnpageable p addr length _ _ =>
      p = none → pageOf addr.toNat + length.toNat ≤ KERNEL_PAGE
  | .reAllocatePhysMem p addr old_length new_length _ _ =>
      ReAllocateFits s p addr.toNat old_length.toNat new_length.toNat
  | .tryReleasePhysMem p addr length => p = none → Common s length.toNat addr.toNat
  | .tryReleaseUserMem p addr length => p = none → Common s length.toNat addr.toNat
  | .mapRemoteMemory dst_p _ dst_addr _ length _ _ => RemoteFits dst_p dst_addr.toNat length.toNat
  | _ => True

/-- Remote memory is shared with the user of no process. -/
def Confined : Operation → Prop
  | .mapRemoteMemory dst_p _ _ _ _ _ user => dst_p = none ∨ user = false
  | _ => True

def step (s : Machine) (op : Operation) : Except Stop (Machine × Unit) :=
  (operate op s).map fun r => (r.2, r.1)

end

section

variable {slack : Nat → Nat} {s s' : Machine} {pid addr length : Nat} {p : Option Nat}
  {op : Operation}

/-- A new frame is taken before the entry which will name it is looked at. -/
theorem take_ok {α : Type} {a : α} {page : Nat} {k : Nat → PagingEntry → M α} (h : Inv slack 0 s)
    (hpage : page < PAGE_COUNT)
    (hok : (do
      let index ← physMemAllocPage false
      let _ ← getPagingEntry p page true
      let table ← loadEntry p page
      k index table) s = .ok (a, s')) :
    ∃ f s₁, Inv slack (due (some f)) s₁ ∧ Grows s s₁ ∧ Mapped s₁ p page ∧ Fresh s₁ f ∧
      SameGaps p s s₁ ∧ k f (s₁.entry p page) s₁ = .ok (a, s') := by
  obtain ⟨f, s₁, halloc, hok⟩ := bind_ok.mp hok
  obtain ⟨h₁, hg₁, hused, hfresh, -⟩ := (physMemAllocPage_fresh h zero_nonneg false).of_ok halloc
  rw [zero_add] at h₁
  obtain ⟨r, s₂, hentry, hok⟩ := bind_ok.mp hok
  obtain ⟨h₂, hg₂, hmapped, hr, -, hgaps⟩ :=
    (getPagingEntry_gaps h₁ (due_nonneg _) hpage p true).of_ok hentry
  have hm := hmapped (hr rfl)
  obtain ⟨table, s₃, hload, hok⟩ := bind_ok.mp hok
  rw [h₂.structured.loadEntry_ok hpage hm] at hload
  obtain ⟨rfl, rfl⟩ := Prod.mk.inj (Except.ok.inj hload)
  refine ⟨f, s₂, h₂, hg₁.toGrows.trans hg₂, hm, hfresh.mono hused hg₂, fun pid hp q => ?_, hok⟩
  rw [hgaps pid hp q, Unused, hg₁.process]
  rfl

/-- Whatever the loop releases after a collision, it only reports success without one. -/
theorem fixedLoop_success {rw user : Bool} {cur : Nat} (h : Inv slack 0 s)
    (hok : fixedLoop (some pid) addr rw user length cur s = .ok (true, s')) : Kept slack s s' := by
  induction length generalizing s cur with
  | zero =>
      obtain ⟨-, rfl⟩ := Prod.mk.inj (Except.ok.inj hok)
      exact Kept.refl h
  | succ length ih =>
      rw [fixedLoop] at hok
      obtain ⟨f, s₁, h₁, hg, hm, hfresh, -, hok⟩ := take_ok h (pageOf_lt cur) hok
      split at hok
      · obtain ⟨_, _, -, hok⟩ := bind_ok.mp hok
        obtain ⟨_, _, -, hok⟩ := bind_ok.mp hok
        cases hok
      · rename_i hzero
        obtain ⟨_, s₂, hstore, hok⟩ := bind_ok.mp hok
        rw [h₁.structured.storeEntry_ok (pageOf_lt cur) hm] at hstore
        cases hstore
        have hkept := kept_fill_grows rw user h h₁ hg (pageOf_lt cur) hm trivial
          (not_not.mp hzero) hfresh
        exact hkept.trans (ih hkept.inv hok)

/-- An address which is in use stops the kernel. -/
theorem pagingAllocatePhysMemFixed_process {rw user : Bool} {r : Nat} (h : Inv slack 0 s)
    (hok : pagingAllocatePhysMemFixed (some pid) addr length rw user s = .ok (r, s')) :
    Kept slack s s' := by
  rw [pagingAllocatePhysMemFixed] at hok
  obtain ⟨r₁, s₁, htry, hok⟩ := bind_ok.mp hok
  rcases r₁ with _ | addr'
  · cases hok
  obtain ⟨-, rfl⟩ := Prod.mk.inj (Except.ok.inj hok)
  rw [pagingTryAllocatePhysMemFixed] at htry
  split at htry
  · cases htry
  · obtain ⟨success, s₂, hloop, htry⟩ := bind_ok.mp htry
    rcases success with _ | _
    · cases htry
    · cases htry
      exact fixedLoop_success h hloop

theorem pagingAllocatePhysMemFixed_preserved {rw user : Bool} {r : Nat} (h : Inv slack 0 s)
    (haddr : addr < 2 ^ 32) (hend : p = none → pageOf addr + length ≤ KERNEL_PAGE)
    (hok : pagingAllocatePhysMemFixed p addr length rw user s = .ok (r, s')) :
    Preserved slack s s' := by
  rcases p with _ | pid
  · rw [pagingAllocatePhysMemFixed] at hok
    obtain ⟨r₁, s₁, htry, hok⟩ := bind_ok.mp hok
    have hs₁ := (pagingTryAllocatePhysMemFixed_spec (p := none) h haddr (hend rfl) rw user).of_ok
      htry
    rcases r₁ with _ | addr'
    · cases hok
    · obtain ⟨-, rfl⟩ := Prod.mk.inj (Except.ok.inj hok)
      exact hs₁
  · exact (pagingAllocatePhysMemFixed_process h hok).preserved

theorem releaseLoop_preserved {skip : PagingEntry → Bool} {success : Bool} (h : Inv slack 0 s)
    (hpages : p = none → Common s length addr) :
    Steps (releaseLoop skip p length addr success) s fun _ s' => Preserved slack s s' := by
  rcases p with _ | pid
  · refine (releaseLoop_kernel h zero_nonneg (hpages rfl)).mono ?_
    rintro _ s' ⟨h', hr⟩
    exact preserved_of_released h' hr
  · exact (releaseLoop_process h).mono fun _ _ hs' => hs'.toKept.preserved

end

section

variable {slack : Nat → Nat} {s s' : Machine} {op : Operation}

/-- Afterwards the references are exact again, and the processes share no more than before. -/
structure Operated (slack : Nat → Nat) (op : Operation) (s s' : Machine) : Prop where
  inv : Inv slack 0 s'
  priv : Confined op → Private s → Private s'

theorem Operated.of_preserved (h : Preserved slack s s') : Operated slack op s s' :=
  ⟨h.inv, fun _ => h.priv⟩

theorem operate_spec (h : Inv slack 0 s) (hproper : Proper s op)
    (hok : operate op s = .ok ((), s')) : Operated slack op s s' := by
  cases op with
  | tryAllocatePhysMem p length rw user =>
      obtain ⟨_, s₁, hok, ⟨⟩⟩ := bind_ok.mp hok
      exact .of_preserved ((pagingTryAllocatePhysMem_spec h p _ rw user).of_ok hok).preserved
  | tryAllocatePhysMemFixed p addr length rw user =>
      obtain ⟨_, s₁, hok, ⟨⟩⟩ := bind_ok.mp hok
      exact .of_preserved
        ((pagingTryAllocatePhysMemFixed_spec h addr.isLt hproper rw user).of_ok hok)
  | allocatePhysMemFixed p addr length rw user =>
      obtain ⟨_, s₁, hok, ⟨⟩⟩ := bind_ok.mp hok
      exact .of_preserved (pagingAllocatePhysMemFixed_preserved h addr.isLt hproper hok)
  | allocatePhysMemUnpageable p length rw user =>
      obtain ⟨_, s₁, hok, ⟨⟩⟩ := bind_ok.mp hok
      exact .of_preserved ((pagingAllocatePhysMemUnpageable_spec h p _ rw user).of_ok hok).preserved
  | allocatePhysMemFixedUnpageable p addr length rw user =>
      obtain ⟨_, s₁, hok, ⟨⟩⟩ := bind_ok.mp hok
      exact .of_preserved
        ((pagingAllocatePhysMemFixedUnpageable_spec h hproper rw user).of_ok hok).preserved
  | reAllocatePhysMem p addr old_length new_length rw user =>
      obtain ⟨_, s₁, hok, ⟨⟩⟩ := bind_ok.mp hok
      exact .of_preserved ((pagingReAllocatePhysMem_spec h hproper rw user).of_ok hok)
  | tryReleasePhysMem p addr length =>
      obtain ⟨_, s₁, hok, ⟨⟩⟩ := bind_ok.mp hok
      exact .of_preserved ((releaseLoop_preserved h hproper).of_ok hok)
  | tryReleaseUserMem p addr length =>
      obtain ⟨_, s₁, hok, ⟨⟩⟩ := bind_ok.mp hok
      exact .of_preserved ((releaseLoop_preserved h hproper).of_ok hok)
  | mapRemoteMemory dst_p src_p dst_addr src_addr length rw user =>
      obtain ⟨_, s₁, hok, ⟨⟩⟩ := bind_ok.mp hok
      have hshared := (pagingMapRemoteMemory_spec h hproper rw user).of_ok hok
      exact ⟨hshared.inv, hshared.priv⟩
  | tryMapUserMem src_p src_addr length rw =>
      obtain ⟨r, s₁, hok, ⟨⟩⟩ := bind_ok.mp hok
      obtain ⟨dst_addr, ha, -⟩ := (pagingTryMapUserMem_spec h src_p src_addr.isLt _ rw).of_ok hok
      rcases r with _ | addr
      · have hrefused := ha.failure rfl
        exact ⟨hrefused.inv, fun _ => hrefused.priv⟩
      · exact .of_preserved (ha.success rfl).1.preserved
  | pageFault p cr2 user write =>
      obtain ⟨_, s₁, hok, ⟨⟩⟩ := bind_ok.mp hok
      exact .of_preserved ((pageFaultHandler_spec h p _ user write).of_ok hok).1.preserved
  | allocProcessPageTable pid =>
      obtain ⟨h', hg, -⟩ := (pagingAllocProcessPageTable_spec h).of_ok hok
      exact .of_preserved (kept_of_grows h h' hg).preserved
  | forkProcessPageTable destination source =>
      have hforked := (pagingForkProcessPageTable_spec h).of_ok hok
      exact ⟨hforked.inv, fun _ => hforked.private h⟩
  | releaseProcessPageTable pid =>
      have htorn := (pagingReleaseProcessPageTable_spec h).of_ok hok
      exact ⟨htorn.inv, fun _ => htorn.priv⟩

end

section

variable {slack : Nat → Nat} {s s' s₀ : Machine}

/-- Paging was switched on: the entries of the boot map are in order and apart, and the frames
they name are not free. -/
def Started (s : Machine) : Prop :=
  ∃ s₀ l, Unstarted s₀ ∧ (∀ f, s₀.handedOut f = false) ∧ Separate l ∧
    (∀ i ∈ l, i.stop ≤ PAGE_COUNT - 1) ∧ (∀ n, Covers l n → used s₀ n = true) ∧
    pagingInit (entriesOf l) s₀ = .ok ((), s)

theorem check_eq_ok {b : Bool} {r : Unit × Machine} (h : check b s = .ok r) : b = true := by
  rcases b with _ | _
  · cases h
  · rfl

/-- Nothing has a mapping before there are processes. -/
theorem private_of_empty (h : ∀ pid, s.process pid = {}) : Private s := by
  have hnone : ∀ pid page e, mapping s pid page ≠ some e := by
    intro pid page e
    simp [mapping, h pid]
  exact ⟨fun pid page e _ _ _ he => (hnone pid page e he).elim,
    fun pid page e he => (hnone pid page e he).elim,
    fun pid page e he => (hnone pid page e he).elim⟩

theorem Started.inv_empty (h : Started s) :
    ∃ slack, Inv slack 0 s ∧ s.pagingEnabled = true ∧ ∀ pid, s.process pid = {} := by
  obtain ⟨s₀, l, hs, hnew, hl, hbound, hused, hinit⟩ := h
  have hchecks : Paging.pagingBootMapCheck 0 1 (entriesOf l) = false ∧
      Paging.pagingBootMapCheck KERNEL_PAGE (PAGE_COUNT - 1) (entriesOf l) = false := by
    obtain ⟨_, s₁, hlow, hrest⟩ := bind_ok.mp hinit
    obtain ⟨_, s₂, hhigh, -⟩ := bind_ok.mp hrest
    simpa using And.intro (check_eq_ok hlow) (check_eq_ok hhigh)
  have hmap := mappable_of_checks hl hbound hchecks.1 hchecks.2
  have hbooted := (pagingInit_booted hs hnew hmap hused hchecks.1 hchecks.2).of_ok hinit
  exact ⟨_, hbooted.inv, hbooted.enabled, hbooted.processes⟩

theorem Started.inv (h : Started s) : ∃ slack, Inv slack 0 s ∧ Private s := by
  obtain ⟨slack, hinv, -, hempty⟩ := h.inv_empty
  exact ⟨slack, hinv, private_of_empty hempty⟩

/-- What `physMemInit` and the protected memory leave is enough for paging to start. -/
theorem started_of_boot {memory : Nat → UInt8} {fuel kernelBegin kernelSize bootInfo : Nat}
    {b₀ b₁ b : PhysmemInit.BootState} {calls : List (Nat × Nat)}
    (hempty : b₀.bootMap = BootMaps.emptyBootMap)
    (hinit : PhysmemInit.physMemInit memory fuel kernelBegin kernelSize bootInfo b₀ = .ok ((), b₁))
    (hcalls : protectAll calls b₁ = .ok ((), b)) (hs : Unstarted s₀)
    (hnew : ∀ f, s₀.handedOut f = false) (hmap : s₀.physMemMap = b.physMemMap)
    (hok : pagingInit (bootEntries b.bootMap) s₀ = .ok ((), s)) : Started s := by
  obtain ⟨l₁, hguarded₁⟩ := physMemInit_guarded hempty hinit
  obtain ⟨l, hguarded⟩ := protectAll_keeps calls _ _ _ hcalls l₁ hguarded₁
  rw [bootEntries, hguarded.represents.intervals_eq] at hok
  refine ⟨s₀, l, hs, hnew, hguarded.separate, hguarded.stop, fun n hn => ?_, hok⟩
  have := hguarded.marked n hn
  rw [used, hmap]
  exact this

/-- The bitmap and the reference counts agree with the entries which name a frame. -/
def Exact (s : Machine) : Prop :=
  ∀ f, s.handedOut f = true → {place | names s place = some f}.Finite ∧
    (used s f = true ↔ ∃ place, names s place = some f) ∧
    (used s f = true → refCount s f = {place | names s place = some f}.ncard)

theorem exact_of_inv (h : Inv slack 0 s) : Exact s := by
  intro f hf
  have hfinite : {place | names s place = some f}.Finite := by
    refine h.finite.subset fun place hplace => ?_
    rw [Set.mem_ofPred_eq] at hplace ⊢
    rw [hplace]
    exact Option.some_ne_none f
  have hbalance : refs s f = {place | names s place = some f}.ncard := by
    have := h.balance f
    rw [h.handedOut f hf, Pi.zero_apply, tally] at this
    push_cast at this
    omega
  refine ⟨hfinite, ?_, fun hused => ?_⟩
  · rw [← refs_pos_iff h.recorded, hbalance, Nat.one_le_iff_ne_zero, ne_eq,
      Set.ncard_eq_zero hfinite, ← ne_eq, ← Set.nonempty_iff_ne_empty]
    rfl
  · rw [← hbalance, refs, if_pos hused]

theorem step_eq_ok {op : Operation} {o : Unit} :
    step s op = .ok (s', o) ↔ operate op s = .ok ((), s') := by
  rw [step]
  rcases operate op s with e | ⟨u, s₁⟩
  · exact ⟨nofun, nofun⟩
  · constructor
    · rintro ⟨⟩
      rfl
    · rintro ⟨⟩
      rfl

theorem inv_of_run {ops : List Operation} {os : List Unit} (h : Inv slack 0 s₀)
    (hproper : Along step Proper s₀ ops) (hrun : run step s₀ ops = .ok (s, os)) :
    Inv slack 0 s := by
  refine run_invariant (I := Inv slack 0) (fun s op s' o h hok hstep => ?_) h hproper hrun
  exact (operate_spec h hok (step_eq_ok.mp hstep)).inv

/-- In every run of proper operations the reference counts are exact. -/
theorem reference_counts_exact {ops : List Operation} {os : List Unit} (hs : Started s₀)
    (hproper : Along step Proper s₀ ops) (hrun : run step s₀ ops = .ok (s, os)) : Exact s := by
  obtain ⟨slack, hinv, -⟩ := hs.inv
  exact exact_of_inv (inv_of_run hinv hproper hrun)

end

section

/-! The release of a frame leaves the page tables of the kernel and the counts of all other
frames alone, whatever they are. -/

variable {α β : Type} {s s' : Machine} {f i : Nat}

structure Elsewhere (f : Nat) (s s' : Machine) : Prop where
  kernel : s'.kernel = s.kernel
  refs : ∀ g, g ≠ f → refs s' g = References.refs s g

theorem elsewhere_refl (f : Nat) (s : Machine) : Elsewhere f s s := ⟨rfl, fun _ _ => rfl⟩

theorem keeps_elsewhere_bind {m : M α} {k : α → M β} (hm : Keeps (Elsewhere f) m)
    (hk : ∀ a, Keeps (Elsewhere f) (k a)) : Keeps (Elsewhere f) (m >>= k) := by
  refine Keeps.bind (fun s s' s'' h h' => ?_) hm hk
  exact ⟨h'.kernel.trans h.kernel, fun g hg => (h'.refs g hg).trans (h.refs g hg)⟩

theorem keeps_elsewhere_pure (a : α) : Keeps (Elsewhere f) (pure a : M α) :=
  keeps_pure (elsewhere_refl f) a

theorem keeps_elsewhere_get {k : Machine → M β} (hk : ∀ s, Keeps (Elsewhere f) (k s)) :
    Keeps (Elsewhere f) (get >>= k) :=
  keeps_elsewhere_bind (keeps_get (elsewhere_refl f)) hk

theorem keeps_elsewhere_check (b : Bool) : Keeps (Elsewhere f) (check b) :=
  keeps_ite (keeps_elsewhere_pure ()) (keeps_throw _)

theorem keeps_elsewhere_accessInfo (f : Nat) : Keeps (Elsewhere f) (accessInfo f) := by
  refine keeps_elsewhere_get fun s => ?_
  split
  · exact keeps_throw _
  · refine keeps_elsewhere_get fun s => keeps_ite ?_ (keeps_elsewhere_pure ())
    split
    · exact keeps_throw _
    · exact keeps_ite (keeps_elsewhere_pure ()) (keeps_throw _)

theorem keeps_elsewhere_storeInfo (f : Nat) (info : PhysMemExtraInfo) :
    Keeps (Elsewhere f) (storeInfo f info) := by
  refine keeps_elsewhere_bind (keeps_elsewhere_accessInfo f) fun _ => keeps_modify fun s => ?_
  refine ⟨rfl, fun g hg => ?_⟩
  have hinfo : (s.setInfo f info).extraInfo g = s.extraInfo g := Function.update_of_ne hg _ _
  rw [refs, refs, refCount, refCount, hinfo]
  rfl

theorem keeps_elsewhere_freePage (f : Nat) : Keeps (Elsewhere f) (freePage f) := by
  refine keeps_elsewhere_bind (keeps_modify fun s => ?_) fun _ => keeps_elsewhere_pure 0
  refine ⟨rfl, fun g hg => ?_⟩
  rw [refs, used_setBit, if_neg hg]
  rfl

theorem keeps_elsewhere_record (f : Nat) : Keeps (Elsewhere f) (getPhysMemExtraInfo 0 f false) := by
  rw [getPhysMemExtraInfo]
  refine keeps_elsewhere_get fun s => keeps_elsewhere_bind (keeps_elsewhere_check _) fun _ => ?_
  refine keeps_elsewhere_bind (keeps_elsewhere_check _) fun _ => keeps_elsewhere_get fun s => ?_
  split
  · exact keeps_elsewhere_pure true
  · exact keeps_ite (keeps_throw _) (keeps_elsewhere_pure false)

theorem physMemReleasePage_elsewhere (f : Nat) : Keeps (Elsewhere f) (physMemReleasePage f) := by
  refine keeps_elsewhere_get fun s => keeps_elsewhere_bind (keeps_elsewhere_check _) fun _ => ?_
  refine keeps_elsewhere_bind (keeps_elsewhere_record f) fun _ =>
    keeps_ite ?_ (keeps_elsewhere_freePage f)
  refine keeps_elsewhere_bind (keeps_elsewhere_bind (keeps_elsewhere_accessInfo f) fun _ =>
    keeps_elsewhere_get fun s => keeps_elsewhere_pure _) fun info => ?_
  refine keeps_ite (keeps_elsewhere_freePage f)
    (keeps_elsewhere_bind (keeps_elsewhere_check _) fun _ => ?_)
  refine keeps_elsewhere_bind (keeps_elsewhere_storeInfo f _) fun _ =>
    keeps_ite (keeps_elsewhere_pure _) ?_
  exact keeps_elsewhere_bind (keeps_elsewhere_storeInfo f _) fun _ => keeps_elsewhere_freePage f

/-- Without a page table nothing is named by its entries any more. -/
theorem names_of_window {place : Place} (hkernel : s'.kernel =
      Function.update s.kernel (KERNEL_PAGE + i) .zero) (hprocess : s'.process = s.process)
    (hname : names s' place = some f) :
    names s place = some f ∧ ∀ page, place = .kernel page → page / PAGETABLE_COUNT ≠ i := by
  cases place with
  | kernel page =>
      rw [names] at hname
      split at hname
      · rename_i hlt
        rw [Machine.translate, hkernel] at hname
        split at hname
        · rename_i hpresent
          have hwindow : page / PAGETABLE_COUNT ≠ i := by
            rintro rfl
            rw [Function.update_self] at hpresent
            exact absurd hpresent (by simp [PagingEntry.zero])
          have hpage : page ≠ KERNEL_PAGE + i := by
            rintro rfl
            rw [Function.update_self] at hpresent
            exact absurd hpresent (by simp [PagingEntry.zero])
          rw [Function.update_of_ne (by omega), Function.update_of_ne hpage] at hpresent
          rw [Function.update_of_ne hpage] at hname
          refine ⟨?_, ?_⟩
          · rw [names, if_pos hlt, Machine.translate, if_pos hpresent]
            exact hname
          · rintro _ ⟨⟩
            exact hwindow
        · cases hname
      · cases hname
  | directory pid j =>
      refine ⟨?_, by simp⟩
      rw [names, hprocess] at hname
      exact hname
  | table pid page =>
      refine ⟨?_, by simp⟩
      rw [names, mapping, hprocess] at hname
      exact hname

end

section

variable {slack : Nat → Nat} {s s' : Machine} {pid addr f i k : Nat}

theorem Blind.process {α : Type} {m : M α} {a : α} (hm : Blind m) (hok : m s = .ok (a, s')) :
    s'.process = s.process := by
  have hself : m s = (m s).map fun r => (r.1, withProcesses r.2 s.process) := hm s s.process
  rw [hok] at hself
  have hs' := (Prod.mk.inj (Except.ok.inj hself)).2
  rw [hs']
  rfl

/-- A page table of the kernel is released like any other page. -/
theorem releaseWindow (h : Inv slack 0 s) (haddr : pageOf addr = KERNEL_PAGE + i)
    (hpresent : (s.kernel (KERNEL_PAGE + i)).present = true)
    (hok : pagingReleasePhysMem none addr 1 s = .ok ((), s')) :
    s'.kernel = Function.update s.kernel (KERNEL_PAGE + i) .zero ∧ s'.process = s.process ∧
      ∀ g, g ≠ (s.kernel (KERNEL_PAGE + i)).frame → refs s' g = refs s g := by
  have hprocess := Blind.process (blind_pagingReleasePhysMem addr 1) hok
  have hpage : KERNEL_PAGE + i < PAGE_COUNT := haddr ▸ pageOf_lt addr
  have hself : (KERNEL_PAGE + i) / PAGETABLE_COUNT = KERNEL_DIR_ENTRY := by
    simp only [KERNEL_PAGE, PAGE_COUNT, PAGETABLE_COUNT, KERNEL_DIR_ENTRY] at *
    omega
  have hm : Mapped s none (KERNEL_PAGE + i) := by
    rw [Mapped, hself]
    exact ne_zero_of_present h.structured.self.present
  rw [pagingReleasePhysMem, pagingTryReleasePhysMem, releaseLoop, haddr] at hok
  obtain ⟨_, _, hok, hcheck⟩ := bind_ok.mp hok
  obtain ⟨r, s₁, hentry, hok⟩ := bind_ok.mp hok
  rw [getPagingEntry, SharedFrames.getKernelEntry_mapped h.structured hpage hm] at hentry
  cases hentry
  obtain ⟨e, s₂, hload, hok⟩ := bind_ok.mp hok
  rw [h.structured.loadEntry_ok hpage hm] at hload
  cases hload
  have hentry : (s.entry none (KERNEL_PAGE + i)).present = true := hpresent
  rw [if_neg (by simpa using ne_zero_of_present hentry)] at hok
  obtain ⟨_, s₃, hrelease, hok⟩ := bind_ok.mp hok
  rw [releaseEntry, if_pos hentry] at hrelease
  obtain ⟨_, s₄, hstore, hrelease⟩ := bind_ok.mp hrelease
  rw [h.structured.storeEntry_ok hpage hm] at hstore
  cases hstore
  obtain ⟨_, s₅, hfree, hrelease⟩ := bind_ok.mp hrelease
  cases hrelease
  cases hok
  cases hcheck
  have helsewhere := physMemReleasePage_elsewhere _ _ _ _ hfree
  exact ⟨helsewhere.kernel, hprocess, helsewhere.refs⟩

end

section

variable {slack : Nat → Nat} {s s' : Machine} {pid addr f i k : Nat}

/-- What is released after a collision at the second page is a page of the kernel. -/
theorem fixedLoop_collides {rw user r : Bool} (h : Inv slack 0 s) (haddr : addr < 2 ^ 32)
    (hfree : Unused s pid (pageOf addr)) (hused : ¬Unused s pid (pageOf (nextPage addr)))
    (hok : fixedLoop (some pid) addr rw user 2 addr s = .ok (r, s')) :
    ∃ s₁, Inv slack 0 s₁ ∧ (∀ page, s.kernel page ≠ .zero → s₁.kernel page = s.kernel page) ∧
      pagingReleasePhysMem none addr 1 s₁ = .ok ((), s') := by
  rw [fixedLoop] at hok
  obtain ⟨g, s₁, h₁, hg₁, hm, hfresh, hgaps, hok⟩ := take_ok h (pageOf_lt addr) hok
  have hzero : s₁.entry (some pid) (pageOf addr) = .zero := by
    rw [entry_eq_zero_iff h₁.structured hm, hgaps pid rfl]
    exact hfree
  rw [if_neg (not_not.mpr hzero)] at hok
  obtain ⟨_, s₂, hstore, hok⟩ := bind_ok.mp hok
  rw [h₁.structured.storeEntry_ok (pageOf_lt addr) hm] at hstore
  cases hstore
  have hkept := kept_fill_grows rw user h h₁ hg₁ (pageOf_lt addr) hm trivial hzero hfresh
  rw [fixedLoop] at hok
  obtain ⟨g', s₃, h₃, hg₃, hm₃, -, hgaps₃, hok⟩ := take_ok hkept.inv (pageOf_lt _) hok
  have hnext : pageOf (nextPage addr) ≠ pageOf addr := by
    intro heq
    rw [heq] at hused
    exact hused hfree
  have hcollides : s₃.entry (some pid) (pageOf (nextPage addr)) ≠ .zero := by
    rw [ne_eq, entry_eq_zero_iff h₃.structured hm₃, hgaps₃ pid rfl, unused_setEntry hnext,
      hgaps pid rfl]
    exact hused
  rw [if_pos hcollides] at hok
  obtain ⟨_, s₄, hfresh, hok⟩ := bind_ok.mp hok
  obtain ⟨h₄, hr⟩ := (releaseNew_spec (fun _ => False) h₃).of_ok hfresh
  obtain ⟨_, s₅, hrelease, hok⟩ := bind_ok.mp hok
  cases hok
  have hlength : (nextPage addr + 2 ^ 32 - addr) % 2 ^ 32 / PAGE_SIZE = 1 := by
    unfold nextPage
    simp only [PAGE_SIZE]
    omega
  rw [hlength] at hrelease
  refine ⟨s₄, h₄, fun page hne => ?_, hrelease⟩
  have hne₁ : s₁.kernel page ≠ .zero := by
    rwa [hg₁.kernel page hne]
  rw [hr.kernel page id, hg₃.kernel page hne₁]
  exact hg₁.kernel page hne

/-- Where this is a page table, whatever else is mapped by it is lost. -/
theorem collision_leaks {rw user r : Bool} (h : Inv slack 0 s) (haddr : addr < 2 ^ 32)
    (hwindow : pageOf addr = KERNEL_PAGE + i) (hfree : Unused s pid (pageOf addr))
    (hused : ¬Unused s pid (pageOf (nextPage addr)))
    (hpresent : (s.kernel (KERNEL_PAGE + i)).present = true) (hki : k / PAGETABLE_COUNT = i)
    (hname : names s (.kernel k) = some f) (hslack : slack f = 0)
    (hne : f ≠ (s.kernel (KERNEL_PAGE + i)).frame)
    (hok : fixedLoop (some pid) addr rw user 2 addr s = .ok (r, s')) (hrefs : refs s' f = 1)
    (place : Place) : names s' place ≠ some f := by
  obtain ⟨s₁, h₁, hkernel, hrelease⟩ := fixedLoop_collides h haddr hfree hused hok
  have hentry := hkernel _ (ne_zero_of_present hpresent)
  obtain ⟨hkernel', hprocess, hrefs'⟩ := releaseWindow h₁ hwindow (by rw [hentry]; exact hpresent)
    hrelease
  have htally : tally (names s₁) f = 1 := by
    have hbalance := h₁.balance f
    rw [← hrefs' f (by rwa [hentry]), hrefs, hslack, Pi.zero_apply] at hbalance
    push_cast at hbalance
    omega
  have hname₁ : names s₁ (.kernel k) = some f := by
    obtain ⟨hk, hzero⟩ := Locality.kernel_ne_zero_of_names hname
    rw [Locality.names_kernel_eq h.structured hk hzero] at hname
    rw [Locality.names_kernel_eq h₁.structured hk (by rwa [hkernel k hzero]),
      hkernel k hzero, hname]
  intro hplace
  obtain ⟨hplace, hnot⟩ := names_of_window hkernel' hprocess hplace
  exact hnot k (eq_of_tally_eq_one h₁.finite htally hplace hname₁) hki

end

section

/-! A page of the kernel in its second page table, a process with a page of its own, and memory
at a fixed place which collides with it. -/

def sampleMachine : Machine := unstarted fun _ => 0

def sampleOperations : List Operation :=
  [.allocatePhysMemFixed none 0x400000 1 true false, .allocProcessPageTable 0,
    .allocatePhysMemFixed (some 0) 0xFFC02000 1 true true]

def collision : Operation := .tryAllocatePhysMemFixed (some 0) 0xFFC01000 2 true true

def beforeCollision (s : Machine) : Bool :=
  (s.process 0).table 0xFFC01 == .zero && (s.process 0).directory 0x3FF != .zero &&
    (s.process 0).table 0xFFC02 != .zero && s.kernel 0xFFC01 == ⟨true, true, true, 0, 258⟩ &&
    s.translate 1024 == some 257 && s.handedOut 257

def afterCollision (s : Machine) : Bool := refs s 257 == 1 && used s 257 && s.handedOut 257

theorem collision_facts : ((pagingInit [] sampleMachine).toOption.bind fun r =>
    (run step r.2 sampleOperations).toOption.bind fun r =>
      (run step r.1 [collision]).toOption.map fun r' =>
        (beforeCollision r.1, afterCollision r'.1)) = some (true, true) := by
  decide +kernel

theorem started_sample {s : Machine} (h : pagingInit [] sampleMachine = .ok ((), s)) : Started s :=
  ⟨sampleMachine, [], ⟨rfl, fun _ => rfl, fun _ => rfl, fun _ => rfl⟩, fun _ => rfl,
    ⟨nofun, List.Pairwise.nil⟩, nofun, fun _ hn => (not_covers_nil hn).elim, h⟩

theorem proper_sample (s : Machine) : ∀ op ∈ sampleOperations, Proper s op := by
  intro op hop
  simp only [sampleOperations, List.mem_cons, List.not_mem_nil, or_false] at hop
  rcases hop with rfl | rfl | rfl
  · intro _
    unfold pageOf
    decide
  · exact trivial
  · exact nofun

/-- The page at the start of the kernel's second page table is not free, but no entry names it. -/
theorem collision_not_exact : ∃ s₀ s os, Started s₀ ∧
    run step s₀ (sampleOperations ++ [collision]) = .ok (s, os) ∧ ¬Exact s := by
  obtain ⟨⟨_, s₀⟩, hinit, hfacts⟩ := Option.bind_eq_some_iff.mp collision_facts
  obtain ⟨⟨s₁, os₁⟩, hrun, hfacts⟩ := Option.bind_eq_some_iff.mp hfacts
  obtain ⟨⟨s, os⟩, hcollision, hfacts⟩ := Option.map_eq_some_iff.mp hfacts
  have hinit := toOption_eq_some hinit
  have hrun := toOption_eq_some hrun
  have hcollision := toOption_eq_some hcollision
  obtain ⟨hbefore, hafter⟩ := Prod.mk.inj hfacts
  simp only [beforeCollision, afterCollision, Bool.and_eq_true, beq_iff_eq,
    bne_iff_ne] at hbefore hafter
  obtain ⟨⟨⟨⟨⟨hfree, hdirectory⟩, hused⟩, hwindow⟩, htranslate⟩, hhanded⟩ := hbefore
  obtain ⟨⟨hrefs, hbit⟩, hhanded'⟩ := hafter
  have hstarted := started_sample hinit
  obtain ⟨slack, hinv₀, -⟩ := hstarted.inv
  have hinv := inv_of_run hinv₀ (along_of_forall proper_sample s₀) hrun
  refine ⟨s₀, s, _, hstarted, run_append hrun hcollision, fun hexact => ?_⟩
  obtain ⟨place, hplace⟩ := (hexact 257 hhanded').2.1.mp hbit
  obtain ⟨_, _, _, hstep, hrest, -⟩ := run_cons_eq_ok hcollision
  cases hrest
  obtain ⟨_, _, hok, ⟨⟩⟩ := bind_ok.mp (step_eq_ok.mp hstep)
  have hpage : pageOf 0xFFC01000 = KERNEL_PAGE + 1 := by
    unfold pageOf
    rfl
  have hnext : pageOf (nextPage 0xFFC01000) = 0xFFC02 := by
    unfold pageOf nextPage
    rfl
  have hname : names s₁ (.kernel 1024) = some 257 := htranslate
  change pagingTryAllocatePhysMemFixed (some 0) 0xFFC01000 2 true true s₁ = _ at hok
  rw [pagingTryAllocatePhysMemFixed, if_neg (by rw [hpage]; decide)] at hok
  obtain ⟨_, _, hloop, hok⟩ := bind_ok.mp hok
  cases hok
  refine collision_leaks hinv (by decide) hpage ?_ ?_ ?_ (by decide) hname
    (hinv.handedOut 257 hhanded)
    ?_ hloop hrefs place hplace
  · rw [hpage]
    exact Or.inr hfree
  · rw [hnext]
    rintro (hzero | hzero)
    · exact hdirectory hzero
    · exact hused hzero
  · change (s₁.kernel 0xFFC01).present = true
    rw [hwindow]
  · change 257 ≠ (s₁.kernel 0xFFC01).frame
    rw [hwindow]
    decide

theorem reference_counts_exact_sample : ∃ s₀ s os, Started s₀ ∧
    run step s₀ sampleOperations = .ok (s, os) ∧ Exact s ∧ s.handedOut 257 = true := by
  obtain ⟨⟨_, s₀⟩, hinit, hfacts⟩ := Option.bind_eq_some_iff.mp collision_facts
  obtain ⟨⟨s, os⟩, hrun, hfacts⟩ := Option.bind_eq_some_iff.mp hfacts
  obtain ⟨_, -, hfacts⟩ := Option.map_eq_some_iff.mp hfacts
  have hstarted := started_sample (toOption_eq_some hinit)
  have hrun := toOption_eq_some hrun
  obtain ⟨hbefore, -⟩ := Prod.mk.inj hfacts
  refine ⟨s₀, s, os, hstarted, hrun,
    reference_counts_exact hstarted (along_of_forall proper_sample s₀) hrun, ?_⟩
  simp only [beforeCollision, Bool.and_eq_true] at hbefore
  exact hbefore.2

end

section

variable {slack : Nat → Nat} {s s' : Machine}

/-- Whatever happens to the memory: an operation of the kernel, or an access to it. -/
inductive Event where
  | operation (op : Operation)
  | access (a : Access)

def happen : Event → M Answer
  | .operation op => do
      operate op
      return .none
  | .access a => perform a

def Lawful (s : Machine) : Event → Prop
  | .operation op => Proper s op ∧ Confined op
  | .access _ => True

def next (s : Machine) (event : Event) : Except Stop (Machine × Answer) :=
  (happen event s).map fun r => (r.2, r.1)

/-- The states of the machine after any lawful events. -/
def Reached (s : Machine) : Prop :=
  ∃ s₀ events answers, Started s₀ ∧ Along next Lawful s₀ events ∧
    run next s₀ events = .ok (s, answers)

theorem map_eq_ok {m : M Answer} {answer : Answer}
    (h : (m s).map (fun r => (r.2, r.1)) = .ok (s', answer)) : m s = .ok (answer, s') := by
  rcases hm : m s with e | ⟨a, s₁⟩
  · rw [hm] at h
    cases h
  · rw [hm] at h
    cases h
    rfl

theorem next_spec {event : Event} {answer : Answer} (h : Inv slack 0 s) (hs : Private s)
    (hlawful : Lawful s event) (hnext : next s event = .ok (s', answer)) :
    Inv slack 0 s' ∧ Private s' := by
  have hok := map_eq_ok hnext
  cases event with
  | operation op =>
      obtain ⟨_, s₁, hop, ⟨⟩⟩ := bind_ok.mp hok
      have hoperated := operate_spec h hlawful.1 hop
      exact ⟨hoperated.inv, hoperated.priv hlawful.2 hs⟩
  | access a =>
      obtain ⟨h', hs', -⟩ := (perform_eager h hs a).of_ok hok
      exact ⟨h', hs'⟩

theorem Reached.inv (h : Reached s) : ∃ slack, Inv slack 0 s ∧ Private s := by
  obtain ⟨s₀, events, answers, hstarted, hlawful, hrun⟩ := h
  obtain ⟨slack, h₀, hs₀⟩ := hstarted.inv
  refine ⟨slack, run_invariant (I := fun s => Inv slack 0 s ∧ Private s)
    (fun s event s' answer h hok hnext => ?_) ⟨h₀, hs₀⟩ hlawful hrun⟩
  exact next_spec h.1 h.2 hok hnext

def accessStep (s : Machine) (a : Access) : Except Stop (Machine × Answer) :=
  (perform a s).map fun r => (r.2, r.1)

/-- Copies which are made on write cannot be told from copies which every fork makes at once. -/
theorem copy_on_write_eager {accesses : List Access} {answers : List Answer} (hs : Reached s)
    (hrun : run accessStep s accesses = .ok (s', answers)) :
    answers = (runTotal eager (view s) accesses).2 ∧
      view s' = (runTotal eager (view s) accesses).1 := by
  obtain ⟨slack, h, hpriv⟩ := hs.inv
  have hstep : ∀ s v a s' answer, Inv slack 0 s ∧ Private s ∧ view s = v → True →
      accessStep s a = .ok (s', answer) →
      (Inv slack 0 s' ∧ Private s' ∧ view s' = (eager v a).1) ∧ answer = (eager v a).2 := by
    rintro s _ a s' answer ⟨h, hpriv, rfl⟩ - hstep
    obtain ⟨h', hpriv', heager⟩ := (perform_eager h hpriv a).of_ok (map_eq_ok hstep)
    rw [← heager]
    exact ⟨⟨h', hpriv', rfl⟩, rfl⟩
  have hsim := run_simulation (R := fun s v => Inv slack 0 s ∧ Private s ∧ view s = v) hstep
    ⟨h, hpriv, rfl⟩ (along_true accessStep s accesses) hrun
  exact ⟨hsim.2, hsim.1.2.2⟩

def sampleAccesses : List Access :=
  [.write 0 0xFFC02010 1, .fork 1 0, .write 1 0xFFC02010 2, .read 0 0xFFC02010, .read 1 0xFFC02010,
    .kernel 1 0xFFC02000 1 true [(⟨0, by decide⟩, ⟨0x10, by decide⟩, some 3),
      (⟨0, by decide⟩, ⟨0x10, by decide⟩, none)], .read 0 0xFFC02010]

def sampleEvents : List Event := sampleOperations.map .operation

theorem sampleAccesses_facts : ((pagingInit [] sampleMachine).toOption.bind fun r =>
    (run next r.2 sampleEvents).toOption.bind fun r =>
      (run accessStep r.1 sampleAccesses).toOption.map fun r' => r'.2) =
    some [.written true, .none, .written true, .byte (some 1), .byte (some 2), .bytes (some [3]),
      .byte (some 1)] := by
  decide +kernel

end

section

variable {s s' : Machine} {rw : Bool} {k : Paging.UserMemory}

theorem lawful_sample (s : Machine) : ∀ event ∈ sampleEvents, Lawful s event := by
  intro event hmem
  obtain ⟨op, hop, rfl⟩ := List.mem_map.mp hmem
  refine ⟨proper_sample s op hop, ?_⟩
  simp only [sampleOperations, List.mem_cons, List.not_mem_nil, or_false] at hop
  rcases hop with rfl | rfl | rfl <;> exact trivial

theorem reached_sample {s₀ s : Machine} {answers : List Answer}
    (hinit : pagingInit [] sampleMachine = .ok ((), s₀))
    (hrun : run next s₀ sampleEvents = .ok (s, answers)) : Reached s :=
  ⟨s₀, sampleEvents, answers, started_sample hinit, along_of_forall lawful_sample s₀, hrun⟩

theorem copy_on_write_eager_sample : ∃ s s' answers, Reached s ∧
    run accessStep s sampleAccesses = .ok (s', answers) ∧
    answers = (runTotal eager (view s) sampleAccesses).2 ∧
      answers.getLast? = some (.byte (some 1)) := by
  obtain ⟨⟨_, s₀⟩, hinit, hfacts⟩ := Option.bind_eq_some_iff.mp sampleAccesses_facts
  obtain ⟨⟨s, _⟩, hrun, hfacts⟩ := Option.bind_eq_some_iff.mp hfacts
  obtain ⟨⟨s', answers⟩, haccesses, hanswers⟩ := Option.map_eq_some_iff.mp hfacts
  have hreached := reached_sample (toOption_eq_some hinit) (toOption_eq_some hrun)
  have haccesses := toOption_eq_some haccesses
  refine ⟨s, s', answers, hreached, haccesses, (copy_on_write_eager hreached haccesses).1, ?_⟩
  rw [show answers = _ from hanswers]
  rfl

/-- The bytes of a buffer are covered by the pages which were mapped for them, unless their
number is lost in 32 bits. -/
theorem user_buffer_covered (hs : Reached s) (pid : Nat) (src_addr : BitVec 32) (rw : Bool) :
    (∀ (byte_length : BitVec 32) k s', 0 < byte_length.toNat →
      accessUserMemory (some pid) src_addr.toNat byte_length.toNat rw s = .ok ((true, k), s') →
      (Covered s s' pid rw src_addr.toNat byte_length.toNat k ↔
        src_addr.toNat % PAGE_SIZE + byte_length.toNat + (PAGE_SIZE - 1) < 2 ^ 32)) ∧
    ∀ (count struct_length : BitVec 32) k₀ k s', 0 < count.toNat * struct_length.toNat →
      accessUserMemoryStruct k₀ (some pid) src_addr.toNat count.toNat struct_length.toNat rw s =
        .ok ((true, k), s') →
      (Covered s s' pid rw src_addr.toNat (count.toNat * struct_length.toNat) k ↔
        src_addr.toNat % PAGE_SIZE + count.toNat * struct_length.toNat + (PAGE_SIZE - 1) <
          2 ^ 32) := by
  obtain ⟨slack, h, -⟩ := hs.inv
  refine ⟨fun byte_length k s' hpos hok => ?_, fun count struct_length k₀ k s' hpos hok => ?_⟩
  · exact accessUserMemory_covered h pid src_addr.isLt hpos rw hok
  · rw [accessUserMemoryStruct] at hok
    split at hok
    · cases hok
    · exact accessUserMemory_covered h pid src_addr.isLt hpos rw hok

def acceptedPages (src_addr byte_length : Nat) (s : Machine) : Option (Bool × Nat) :=
  (accessUserMemory (some 0) src_addr byte_length true s).toOption.map fun r =>
    (r.1.1, r.1.2.length)

theorem accepted_facts : ((pagingInit [] sampleMachine).toOption.bind fun r =>
    (run next r.2 sampleEvents).toOption.map fun r =>
      (acceptedPages 0xFFC02FF0 0x10 r.1, acceptedPages 0xFFC02FFF 0xFFFFF002 r.1)) =
    some (some (true, 1), some (true, 1)) := by
  decide +kernel

theorem acceptedPages_eq {src_addr byte_length : Nat}
    (h : acceptedPages src_addr byte_length s = some (true, 1)) :
    ∃ addr s', accessUserMemory (some 0) src_addr byte_length true s =
      .ok ((true, ⟨addr, 1⟩), s') := by
  obtain ⟨⟨⟨success, ⟨addr, length⟩⟩, s'⟩, hok, heq⟩ := Option.map_eq_some_iff.mp h
  cases heq
  exact ⟨addr, s', toOption_eq_some hok⟩

theorem user_buffer_covered_sample : ∃ s s' k, Reached s ∧
    accessUserMemory (some 0) 0xFFC02FF0 0x10 true s = .ok ((true, k), s') ∧
    Covered s s' 0 true 0xFFC02FF0 0x10 k := by
  obtain ⟨⟨_, s₀⟩, hinit, hfacts⟩ := Option.bind_eq_some_iff.mp accepted_facts
  obtain ⟨⟨s, _⟩, hrun, hfacts⟩ := Option.map_eq_some_iff.mp hfacts
  have hreached := reached_sample (toOption_eq_some hinit) (toOption_eq_some hrun)
  obtain ⟨addr, s', hok⟩ := acceptedPages_eq (Prod.mk.inj hfacts).1
  refine ⟨s, s', _, hreached, hok, ?_⟩
  exact ((user_buffer_covered hreached 0 0xFFC02FF0 true).1 0x10 _ s' (by decide) hok).mpr
    (by decide)

/-- Almost all of the address space is accepted for a single page. -/
theorem user_buffer_not_covered : ∃ s s' k, Reached s ∧
    accessUserMemory (some 0) 0xFFC02FFF 0xFFFFF002 true s = .ok ((true, k), s') ∧
    ¬0xFFC02FFF % PAGE_SIZE + 0xFFFFF002 ≤ k.length * PAGE_SIZE ∧
    ¬Covered s s' 0 true 0xFFC02FFF 0xFFFFF002 k := by
  obtain ⟨⟨_, s₀⟩, hinit, hfacts⟩ := Option.bind_eq_some_iff.mp accepted_facts
  obtain ⟨⟨s, _⟩, hrun, hfacts⟩ := Option.map_eq_some_iff.mp hfacts
  have hreached := reached_sample (toOption_eq_some hinit) (toOption_eq_some hrun)
  obtain ⟨addr, s', hok⟩ := acceptedPages_eq (Prod.mk.inj hfacts).2
  have hnot : ¬0xFFC02FFF % PAGE_SIZE + 0xFFFFF002 ≤ 1 * PAGE_SIZE := by decide
  exact ⟨s, s', _, hreached, hok, hnot, fun hcovered => hnot hcovered.fits⟩

end

end Ibnos.PagingRuns
