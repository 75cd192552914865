import Ibnos.UserMemory

/-!
The memory of the processes as their users and the kernel access it. What copy on
write is for is said by `eager`: every process has a memory of its own, and a fork
copies all of it.
-/

namespace Ibnos.UserAccesses

open Ibnos.Memory
open Ibnos.Physmem
open Ibnos.Paging
open Ibnos.Programs
open Ibnos.References
open Ibnos.KernelPages
open Ibnos.ProcessPages
open Ibnos.PagingOperations
open Ibnos.Forks
open Ibnos.Teardowns
open Ibnos.UserMemory

section

def setByte (s : Machine) (frame offset : Nat) (value : BitVec 8) : Machine :=
  { s with memory :=
      Function.update s.memory frame (Function.update (s.memory frame) offset value) }

/-- The processor reads a byte for the user of a process, if it may. -/
def loadUser (pid addr : Nat) : M (Option (BitVec 8)) := do
  let s ← get
  return (mapping s pid (pageOf addr)).bind fun e =>
    if e.user then some (s.memory e.frame (addr % PAGE_SIZE)) else none

/-- The processor writes a byte for the user of a process, if it may. -/
def storeUser (pid addr : Nat) (value : BitVec 8) : M Bool := do
  let s ← get
  match mapping s pid (pageOf addr) with
  | some e =>
      if e.user && e.rw then
        if s.holdsTable e.frame then throw .corrupted
        else do
          modify fun s => setByte s e.frame (addr % PAGE_SIZE) value
          return true
      else return false
  | none => return false

/-- What the processor refuses is tried again if the page fault handler lets the thread
continue. -/
def userRead (pid addr : Nat) : M (Option (BitVec 8)) := do
  match ← loadUser pid addr with
  | some value => return some value
  | none =>
      let resumed ← pageFaultHandler (some pid) addr true false
      if resumed then loadUser pid addr else return none

def userWrite (pid addr : Nat) (value : BitVec 8) : M Bool := do
  let stored ← storeUser pid addr value
  if stored then return true
  else do
    let resumed ← pageFaultHandler (some pid) addr true true
    if resumed then storeUser pid addr value else return false

/-- The kernel reads a byte of one of its pages. -/
def loadByte (page offset : Nat) : M (BitVec 8) := do
  let s ← get
  match s.translate page with
  | none => throw .pageFault
  | some frame => return s.memory frame offset

/-- The kernel writes a byte of one of its pages. Where this is a page table, anything can
follow. -/
def storeByte (page offset : Nat) (value : BitVec 8) : M Unit := do
  let s ← get
  match s.translate page with
  | none => throw .pageFault
  | some frame =>
      if KERNEL_PAGE ≤ page ∨ s.holdsTable frame = true then throw .corrupted
      else modify fun s => setByte s frame offset value

/-- The bytes which the kernel reads or writes, by the number of the page and the offset in it. -/
abbrev Touches (length : Nat) := List (Fin length × Fin PAGE_SIZE × Option (BitVec 8))

def touchPages {length : Nat} (start : Nat) (rw : Bool) : Touches length → M (List (BitVec 8))
  | [] => return []
  | (j, offset, none) :: touches => do
      let value ← loadByte (start + j) offset
      let values ← touchPages start rw touches
      return value :: values
  | (j, offset, some value) :: touches => do
      if rw then storeByte (start + j) offset value else pure ()
      touchPages start rw touches

/-- An access of the kernel to memory of a process, up to its release. -/
def kernelAccess (pid src_addr length : Nat) (rw : Bool) (touches : Touches length) :
    M (Option (List (BitVec 8))) := do
  match ← pagingTryMapUserMem (some pid) src_addr length rw with
  | none => return none
  | some addr => do
      let values ← touchPages (pageOf addr) rw touches
      pagingReleasePhysMem none addr length
      return some values

inductive Access where
  | read (pid : Nat) (addr : BitVec 32)
  | write (pid : Nat) (addr : BitVec 32) (value : BitVec 8)
  | kernel (pid : Nat) (src_addr length : BitVec 32) (rw : Bool) (touches : Touches length.toNat)
  | fork (destination source : Nat)
  | release (pid : Nat) (addr length : BitVec 32)
  | teardown (pid : Nat)

inductive Answer where
  | none
  | byte (value : Option (BitVec 8))
  | written (b : Bool)
  | bytes (values : Option (List (BitVec 8)))
deriving DecidableEq

def perform : Access → M Answer
  | .read pid addr => return .byte (← userRead pid addr.toNat)
  | .write pid addr value => return .written (← userWrite pid addr.toNat value)
  | .kernel pid src_addr length rw touches =>
      return .bytes (← kernelAccess pid src_addr.toNat length.toNat rw touches)
  | .fork destination source => do
      pagingForkProcessPageTable destination source
      return .none
  | .release pid addr length => do
      let _ ← pagingTryReleaseUserMem (some pid) addr.toNat length.toNat
      return .none
  | .teardown pid => do
      pagingReleaseProcessPageTable pid
      return .none

end

section

/-! The memories of the processes without any sharing. -/

/-- The contents of the pages of every process, and whether they may be written. -/
abbrev Memories := Nat → Nat → Option ((Nat → BitVec 8) × Bool)

def allows (rw : Bool) : Option ((Nat → BitVec 8) × Bool) → Bool
  | some (_, writable) => !rw || writable
  | none => false

def storeAt (v : Memories) (pid page offset : Nat) (value : BitVec 8) : Memories :=
  match v pid page with
  | some (contents, true) => Function.update v pid (Function.update (v pid) page
      (some (Function.update contents offset value, true)))
  | _ => v

def loadAt (v : Memories) (pid page offset : Nat) : Option (BitVec 8) :=
  (v pid page).map fun c => c.1 offset

def eagerTouches {length : Nat} (pid start : Nat) (rw : Bool) :
    Memories → Touches length → Memories × List (BitVec 8)
  | v, [] => (v, [])
  | v, (j, offset, none) :: touches =>
      let r := eagerTouches pid start rw v touches
      (r.1, (loadAt v pid ((start + j) % PAGE_COUNT) offset).getD 0 :: r.2)
  | v, (j, offset, some value) :: touches =>
      eagerTouches pid start rw
        (if rw then storeAt v pid ((start + j) % PAGE_COUNT) offset value else v) touches

instance decidableSpan : ∀ length cur page, Decidable (Span length cur page)
  | 0, _, _ => isFalse nofun
  | length + 1, cur, page =>
      match decidableSpan length (nextPage cur) page with
      | isTrue h => isTrue (Or.inr h)
      | isFalse h => decidable_of_iff (page = pageOf cur) ⟨Or.inl, fun h' => h'.resolve_right h⟩

def eager (v : Memories) : Access → Memories × Answer
  | .read pid addr => (v, .byte (loadAt v pid (pageOf addr.toNat) (addr.toNat % PAGE_SIZE)))
  | .write pid addr value =>
      (storeAt v pid (pageOf addr.toNat) (addr.toNat % PAGE_SIZE) value,
        .written (allows true (v pid (pageOf addr.toNat))))
  | .kernel pid src_addr length rw touches =>
      if ∀ j < length.toNat, allows rw (v pid ((pageOf src_addr.toNat + j) % PAGE_COUNT)) = true then
        let r := eagerTouches pid (pageOf src_addr.toNat) rw v touches
        (r.1, .bytes (some r.2))
      else (v, .bytes none)
  | .fork destination source => (Function.update v destination (v source), .none)
  | .release pid addr length =>
      (Function.update v pid fun page =>
        if Span length.toNat addr.toNat page then none else v pid page, .none)
  | .teardown pid => (Function.update v pid fun _ => none, .none)

end

section

variable {slack : Nat → Nat} {s s' : Machine} {pid page addr offset f : Nat} {value : BitVec 8}
  {e : PagingEntry}

theorem load_view (he : mapping s pid page = some e) (huser : e.user = true) :
    loadAt (view s) pid page offset = some (s.memory e.frame offset) := by
  rw [loadAt, view, he, Option.bind_some, if_pos huser]
  rfl

theorem private_setByte (hs : Private s) : Private (setByte s f offset value) :=
  ⟨hs.shared, hs.marked, hs.data⟩

/-- A frame which can be written belongs to a single page. -/
theorem view_setByte (hs : Private s) (he : mapping s pid page = some e) (huser : e.user = true)
    (hrw : e.rw = true) :
    view (setByte s e.frame offset value) = storeAt (view s) pid page offset value := by
  have hpage : view s pid page = some (s.memory e.frame, true) := by
    rw [view, he, Option.bind_some, if_pos huser, hrw, Bool.true_or]
  have hstore : storeAt (view s) pid page offset value = Function.update (view s) pid
      (Function.update (view s pid) page
        (some (Function.update (s.memory e.frame) offset value, true))) := by
    rw [storeAt, hpage]
  have hview : ∀ q page', view (setByte s e.frame offset value) q page' =
      (mapping s q page').bind fun e' => if e'.user then
        some (Function.update s.memory e.frame
          (Function.update (s.memory e.frame) offset value) e'.frame,
          e'.rw || e'.avail == PAGING_AVAIL_PRESENT_ON_WRITE_DUPLICATE) else none :=
    fun _ _ => rfl
  rw [hstore]
  funext q page'
  rw [hview]
  rcases Classical.em (q = pid ∧ page' = page) with ⟨rfl, rfl⟩ | hne
  · rw [he, Option.bind_some, if_pos huser, hrw, Bool.true_or, Function.update_self,
      Function.update_self, Function.update_self]
  · have hother : Function.update (view s) pid (Function.update (view s pid) page
        (some (Function.update (s.memory e.frame) offset value, true))) q page' =
          view s q page' := by
      rcases eq_or_ne q pid with rfl | hq
      · rw [Function.update_self, Function.update_of_ne fun hpage => hne ⟨rfl, hpage⟩]
      · rw [Function.update_of_ne hq]
    rw [hother, view]
    rcases he' : mapping s q page' with _ | e'
    · rfl
    · rw [Option.bind_some, Option.bind_some]
      rcases huser' : e'.user with _ | _
      · rfl
      · rw [if_pos rfl, if_pos rfl, Function.update_of_ne]
        intro hframe
        have := hs.shared pid page e q page' e' he he' huser huser' hframe.symm fun h =>
          hne ⟨h.1.symm, h.2.symm⟩
        rw [hrw] at this
        cases this

theorem loadUser_ok (pid addr : Nat) (s : Machine) : loadUser pid addr s =
    .ok (loadAt (view s) pid (pageOf addr) (addr % PAGE_SIZE), s) := by
  refine congrArg (fun r => Except.ok (r, s)) ?_
  rw [loadAt, view]
  rcases mapping s pid (pageOf addr) with _ | e
  · rfl
  · rw [Option.bind_some, Option.bind_some]
    split <;> rfl

theorem userRead_spec (h : Inv slack 0 s) (pid addr : Nat) :
    Steps (userRead pid addr) s fun r s' =>
      Kept slack s s' ∧ view s' = view s ∧
        r = loadAt (view s) pid (pageOf addr) (addr % PAGE_SIZE) := by
  rw [userRead]
  refine yields_ok_bind (loadUser_ok pid addr s) ?_
  rcases hload : loadAt (view s) pid (pageOf addr) (addr % PAGE_SIZE) with _ | value
  · refine (pageFaultHandler_spec h (some pid) addr true false).bind ?_
    rintro r s' ⟨hkept, hview, -⟩
    refine yields_ite (fun _ => ?_) fun _ => yields_pure ⟨hkept, hview, rfl⟩
    refine yields_of_ok (loadUser_ok pid addr s') ⟨hkept, hview, ?_⟩
    rw [hview, hload]
  · exact yields_pure ⟨Kept.refl h, rfl, rfl⟩

/-- A byte is written if the page is writable already. -/
theorem storeUser_spec (h : Inv slack 0 s) (hs : Private s) (pid addr : Nat) (value : BitVec 8) :
    Steps (storeUser pid addr value) s fun r s' =>
      (r = true → Inv slack 0 s' ∧ Private s' ∧ allows true (view s pid (pageOf addr)) = true ∧
        view s' = storeAt (view s) pid (pageOf addr) (addr % PAGE_SIZE) value) ∧
      (r = false → s' = s ∧ ∀ e, mapping s pid (pageOf addr) = some e → e.user = true →
        e.rw = false) := by
  rw [storeUser]
  refine yields_get_bind ?_
  rcases he : mapping s pid (pageOf addr) with _ | e
  · exact yields_pure ⟨nofun, fun _ => ⟨rfl, nofun⟩⟩
  · refine yields_ite (fun hallowed => ?_) fun hdenied => yields_pure ⟨nofun, fun _ => ⟨rfl, ?_⟩⟩
    · obtain ⟨huser, hrw⟩ := Bool.and_eq_true_iff.mp hallowed
      rw [if_neg (by rw [hs.data pid _ e he huser]; exact Bool.false_ne_true)]
      refine yields_modify_bind (yields_pure ⟨fun _ => ⟨inv_memory h _, private_setByte hs, ?_,
        view_setByte hs he huser hrw⟩, nofun⟩)
      rw [view, he, Option.bind_some, if_pos huser, hrw]
      rfl
    · rintro _ ⟨⟩ huser
      rw [huser, Bool.true_and] at hdenied
      simpa using hdenied

theorem store_of_denied {v : Memories} (hdenied : allows true (v pid page) = false) :
    storeAt v pid page offset value = v := by
  rw [storeAt]
  rcases hv : v pid page with _ | ⟨contents, _ | _⟩
  · rfl
  · rfl
  · rw [hv] at hdenied
    cases hdenied

theorem userWrite_spec (h : Inv slack 0 s) (hs : Private s) (pid addr : Nat) (value : BitVec 8) :
    Steps (userWrite pid addr value) s fun r s' =>
      Inv slack 0 s' ∧ Private s' ∧ r = allows true (view s pid (pageOf addr)) ∧
        view s' = storeAt (view s) pid (pageOf addr) (addr % PAGE_SIZE) value := by
  rw [userWrite]
  refine (storeUser_spec h hs pid addr value).bind ?_
  rintro r s₁ ⟨hstored, hrefused⟩
  rcases r with _ | _
  · obtain ⟨rfl, -⟩ := hrefused rfl
    refine (pageFaultHandler_spec h (some pid) addr true true).bind ?_
    rintro r s₂ ⟨hkept, hview, hresolved⟩
    have hresolved := hresolved pid rfl
    rcases r with _ | _
    · have hdenied : allows true (view s₁ pid (pageOf addr)) = false := by
        rcases hresolved.denied rfl with hnone | ⟨-, contents, hsome⟩
        · rw [hnone]
          rfl
        · rw [hsome]
          rfl
      refine yields_pure ⟨hkept.inv, hkept.priv hs, hdenied.symm, ?_⟩
      rw [hview, store_of_denied hdenied]
    · obtain ⟨e, he, huser, hrw⟩ := hresolved.allowed rfl
      refine (storeUser_spec hkept.inv (hkept.priv hs) pid addr value).mono ?_
      rintro r s' ⟨hstored, hrefused⟩
      rcases r with _ | _
      · have := (hrefused rfl).2 e he huser
        rw [hrw rfl] at this
        cases this
      · obtain ⟨h', hs', hallows, hstore⟩ := hstored rfl
        rw [hview] at hallows hstore
        exact ⟨h', hs', hallows.symm, hstore⟩
  · obtain ⟨h', hs', hallows, hstore⟩ := hstored rfl
    exact yields_pure ⟨h', hs', hallows.symm, hstore⟩

end

section

variable {slack : Nat → Nat} {s s' : Machine} {pid page start src length offset : Nat}
  {rw : Bool}

theorem allows_view : allows rw (view s pid page) = true ↔ Accessible s pid rw page := by
  rw [Accessible]
  rcases view s pid page with _ | ⟨contents, w⟩
  · simp [allows]
  · cases rw <;> simp [allows]

theorem translate_of_open {dst_page src_page : Nat} (h : Open s pid rw dst_page src_page)
    (hs : Structured s) (hdst : dst_page < KERNEL_PAGE) :
    ∃ e, mapping s pid src_page = some e ∧ e.user = true ∧ (rw = true → e.rw = true) ∧
      s.translate dst_page = some e.frame := by
  obtain ⟨e, he, huser, hrw, hentry⟩ := h.entry
  refine ⟨e, he, huser, hrw, ?_⟩
  rw [translate_of_ready (ready_of_ne_zero hs hdst h.kernel_ne_zero), hentry]
  exact if_pos (present_of_mapping he)

theorem loadByte_spec (h : Inv slack 0 s) {dst_page : Nat} (hopen : Open s pid rw dst_page page)
    (hdst : dst_page < KERNEL_PAGE) (offset : Nat) :
    loadByte dst_page offset s = .ok ((loadAt (view s) pid page offset).getD 0, s) := by
  obtain ⟨e, he, huser, -, htranslate⟩ := translate_of_open hopen h.structured hdst
  rw [loadByte, bind_apply, get_apply]
  simp only [htranslate]
  rw [load_view he huser]
  rfl

theorem storeByte_spec (h : Inv slack 0 s) (hs : Private s) {dst_page : Nat}
    (hopen : Open s pid true dst_page page) (hdst : dst_page < KERNEL_PAGE) (offset : Nat)
    (value : BitVec 8) :
    Steps (storeByte dst_page offset value) s fun _ s' =>
      (∃ f, s' = setByte s f offset value) ∧ view s' = storeAt (view s) pid page offset value := by
  obtain ⟨e, he, huser, hrw, htranslate⟩ := translate_of_open hopen h.structured hdst
  rw [storeByte]
  refine yields_get_bind ?_
  simp only [htranslate]
  rw [if_neg]
  · exact yields_modify ⟨⟨e.frame, rfl⟩, view_setByte hs he huser (hrw rfl)⟩
  · rw [hs.data pid page e he huser]
    simpa using hdst

/-- The kernel does to the memory it mapped what it would do to the one of the process. -/
theorem touchPages_spec (touches : Touches length) (h : Inv slack 0 s) (hs : Private s)
    (hend : start + length ≤ KERNEL_PAGE)
    (hopen : ∀ j, j < length → Open s pid rw (start + j) ((src + j) % PAGE_COUNT)) :
    Steps (touchPages start rw touches) s fun r s' =>
      (∃ m, s' = { s with memory := m }) ∧ Private s' ∧
        (view s', r) = eagerTouches pid src rw (view s) touches := by
  induction touches generalizing s with
  | nil => exact yields_pure ⟨⟨s.memory, rfl⟩, hs, rfl⟩
  | cons touch touches ih =>
      obtain ⟨j, offset, value⟩ := touch
      have hj := hopen j j.isLt
      have hdst : start + j < KERNEL_PAGE := by omega
      rcases value with _ | value
      · rw [touchPages]
        refine yields_ok_bind (loadByte_spec h hj hdst offset) ?_
        refine (ih h hs hopen).bind ?_
        rintro values s' ⟨hm, hs', heager⟩
        refine yields_pure ⟨hm, hs', ?_⟩
        rw [eagerTouches, ← heager]
      · rw [touchPages]
        rcases rw with _ | _
        · exact ih h hs hopen
        · refine (storeByte_spec h hs hj hdst offset value).bind ?_
          rintro _ _ ⟨⟨f, rfl⟩, hview⟩
          have hopen' : ∀ i, i < length → Open (setByte s f offset value) pid true (start + i)
              ((src + i) % PAGE_COUNT) := fun i hi => (hopen i hi).mono rfl rfl
          refine (ih (s := setByte s f offset value) (inv_memory h _) (private_setByte hs)
            hopen').mono ?_
          rintro values s' ⟨⟨m, hm⟩, hs', heager⟩
          refine ⟨⟨m, hm⟩, hs', ?_⟩
          rw [heager, hview]
          rfl

end

section

variable {slack : Nat → Nat} {s s' : Machine} {pid src_addr dst_addr length : Nat} {rw : Bool}

theorem span_of_page {addr cur page : Nat} (hpage : pageOf addr = pageOf cur)
    (hend : pageOf cur + length ≤ KERNEL_PAGE) :
    Span length addr page ↔ Span length cur page := by
  have hle := hend.trans kernel_page_le
  rw [span_iff (by rwa [hpage]), span_iff hle, hpage]

theorem pageOf_attempted {r : Bool}
    (h : Attempted slack (some pid) rw length src_addr s dst_addr r s') (offset : Nat) :
    pageOf (dst_addr ||| offset % PAGE_SIZE) = pageOf dst_addr := by
  have hstart : dst_addr = pageOf dst_addr * PAGE_SIZE := by
    have haligned := h.aligned
    have hbound := h.bound
    unfold pageOf
    simp only [PAGE_SIZE, PAGE_COUNT] at *
    omega
  have hpage : pageOf (pageOf dst_addr * PAGE_SIZE ||| offset % PAGE_SIZE) = pageOf dst_addr :=
    pageOf_or (pageOf_lt dst_addr)
  rwa [← hstart] at hpage

theorem kernelAccess_spec (h : Inv slack 0 s) (hs : Private s) (pid : Nat)
    (hsrc : src_addr < 2 ^ 32) (rw : Bool) (touches : Touches length) :
    Steps (kernelAccess pid src_addr length rw touches) s fun r s' =>
      Inv slack 0 s' ∧ Private s' ∧
        (view s', r) =
          if ∀ j < length, allows rw (view s pid ((pageOf src_addr + j) % PAGE_COUNT)) = true then
            ((eagerTouches pid (pageOf src_addr) rw (view s) touches).1,
              some (eagerTouches pid (pageOf src_addr) rw (view s) touches).2)
          else (view s, none) := by
  rw [kernelAccess]
  refine (pagingTryMapUserMem_spec h (some pid) hsrc length rw).bind ?_
  rintro r s₁ ⟨dst_addr, ha, haddr⟩
  rcases r with _ | addr
  · have hrefused := ha.failure rfl
    obtain ⟨j, hj, hnot⟩ := hrefused.reason pid rfl
    refine yields_pure ⟨hrefused.inv, hrefused.priv hs, ?_⟩
    rw [if_neg, hrefused.views]
    exact fun hall => hnot (allows_view.mp (hall j hj))
  · obtain ⟨hopening, harea⟩ := ha.success rfl
    have hpage : pageOf addr = pageOf dst_addr := by
      rw [haddr addr rfl, pageOf_attempted ha]
    have hopen := hopening.opened pid rfl
    refine (touchPages_spec touches hopening.inv (hopening.priv hs) (hpage.symm ▸ ha.fits)
      (hpage.symm ▸ hopen)).bind ?_
    rintro values s₂ ⟨⟨m, rfl⟩, hs₂, heager⟩
    refine (pagingReleasePhysMem_kernel (inv_memory hopening.inv m) zero_nonneg
      fun page hspan => ?_).bind ?_
    · obtain ⟨hlt, hloose⟩ := harea rfl page ((span_of_page hpage ha.fits).mp hspan)
      exact ⟨hlt, hloose.2⟩
    rintro _ s' ⟨h', hr⟩
    refine yields_pure ⟨h', hs₂.of_released hr, ?_⟩
    rw [if_pos fun j hj => allows_view.mpr ((hopen j hj).accessible hopening.views),
      view_of_released hr, ← hopening.views, ← heager]

end

section

variable {slack : Nat → Nat} {s s' : Machine} {pid page : Nat}

theorem not_withheld (hs : Private s) (pid page : Nat) : ¬Withheld s pid page := by
  rintro ⟨e, he, huser, havail⟩
  rcases hs.marked pid page e he huser with hzero | ⟨hduplicate, -⟩
  · rw [havail] at hzero
    cases hzero
  · rw [havail] at hduplicate
    cases hduplicate

theorem fork_eager (h : Inv slack 0 s) (hs : Private s) (destination source : Nat) :
    Steps (pagingForkProcessPageTable destination source) s fun _ s' =>
      Inv slack 0 s' ∧ Private s' ∧
        view s' = Function.update (view s) destination (view s source) := by
  refine (pagingForkProcessPageTable_spec h).mono fun _ s' hforked => ?_
  refine ⟨hforked.inv, hforked.private h hs, ?_⟩
  funext q
  rcases eq_or_ne q destination with rfl | hq
  · rw [Function.update_self, hforked.view_child_iff]
    exact not_withheld hs source
  · rw [Function.update_of_ne hq]
    rcases eq_or_ne q source with rfl | hq'
    · exact hforked.view_parent
    · exact hforked.view_other hq' hq

theorem release_eager (h : Inv slack 0 s) (hs : Private s) (pid addr length : Nat) :
    Steps (pagingTryReleaseUserMem (some pid) addr length) s fun _ s' =>
      Inv slack 0 s' ∧ Private s' ∧ view s' = Function.update (view s) pid fun page =>
        if Span length addr page then none else view s pid page := by
  refine (releaseLoop_process h).mono fun _ s' hdropped => ?_
  refine ⟨hdropped.inv, hdropped.priv hs, ?_⟩
  have hother : ∀ q page, ¬(q = pid ∧ Span length addr page) → view s' q page = view s q page := by
    intro q page hne
    rw [view, hdropped.other q page hne, hdropped.memory]
    rfl
  funext q page
  rcases eq_or_ne q pid with rfl | hq
  · rw [Function.update_self]
    split_ifs with hspan
    · rw [view, hdropped.gone page hspan]
      rcases he : mapping s q page with _ | e
      · rfl
      · rcases huser : e.user with _ | _
        · simp [Option.filter, huser]
        · have hne := RemotePages.ne_zero_of_present (present_of_mapping he)
          simp [Option.filter, huser, hne]
    · exact hother q page fun hne => hspan hne.2
  · rw [Function.update_of_ne hq]
    exact hother q page fun hne => hq hne.1

theorem teardown_eager (h : Inv slack 0 s) (hs : Private s) (pid : Nat) :
    Steps (pagingReleaseProcessPageTable pid) s fun _ s' =>
      Inv slack 0 s' ∧ Private s' ∧ view s' = Function.update (view s) pid fun _ => none := by
  refine (pagingReleaseProcessPageTable_spec h).mono fun _ s' htorn => ?_
  refine ⟨htorn.inv, htorn.priv hs, ?_⟩
  funext q page
  rcases eq_or_ne q pid with rfl | hq
  · rw [Function.update_self, view, mapping, htorn.gone]
    simp
  · rw [Function.update_of_ne hq, view, mapping, htorn.loc.process q hq, htorn.memory]
    rfl

/-- No access can tell the machine from one in which nothing is shared. -/
theorem perform_eager (h : Inv slack 0 s) (hs : Private s) (a : Access) :
    Steps (perform a) s fun r s' =>
      Inv slack 0 s' ∧ Private s' ∧ (view s', r) = eager (view s) a := by
  cases a with
  | read pid addr =>
      refine (userRead_spec h pid addr.toNat).bind ?_
      rintro r s' ⟨hkept, hview, rfl⟩
      refine yields_pure ⟨hkept.inv, hkept.priv hs, ?_⟩
      rw [hview]
      rfl
  | write pid addr value =>
      refine (userWrite_spec h hs pid addr.toNat value).bind ?_
      rintro r s' ⟨h', hs', rfl, hview⟩
      refine yields_pure ⟨h', hs', ?_⟩
      rw [hview]
      rfl
  | kernel pid src_addr length rw touches =>
      refine (kernelAccess_spec h hs pid src_addr.isLt rw touches).bind ?_
      rintro r s' ⟨h', hs', heager⟩
      refine yields_pure ⟨h', hs', ?_⟩
      rw [eager]
      split_ifs at heager ⊢ with hall
      · obtain ⟨hview, rfl⟩ := Prod.mk.inj heager
        rw [hview]
      · obtain ⟨hview, rfl⟩ := Prod.mk.inj heager
        rw [hview]
  | fork destination source =>
      refine (fork_eager h hs destination source).bind ?_
      rintro _ s' ⟨h', hs', hview⟩
      refine yields_pure ⟨h', hs', ?_⟩
      rw [hview]
      rfl
  | release pid addr length =>
      refine (release_eager h hs pid addr.toNat length.toNat).bind ?_
      rintro _ s' ⟨h', hs', hview⟩
      refine yields_pure ⟨h', hs', ?_⟩
      rw [hview]
      rfl
  | teardown pid =>
      refine (teardown_eager h hs pid).bind ?_
      rintro _ s' ⟨h', hs', hview⟩
      refine yields_pure ⟨h', hs', ?_⟩
      rw [hview]
      rfl

end

end Ibnos.UserAccesses
