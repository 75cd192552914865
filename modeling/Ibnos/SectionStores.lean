import Ibnos.LoadedPages

/-!
The second loop of the loader. The pages of a section are mapped into the kernel, and as long as
there is memory nothing stops the kernel: a section which leaves the pages of the program is noticed.
-/

namespace Ibnos.SectionStores

open Ibnos.ElfLoader
open Ibnos.FixedAllocations
open Ibnos.Forks
open Ibnos.FrameSupply
open Ibnos.KernelPages
open Ibnos.KernelRoom
open Ibnos.LoadedPages
open Ibnos.LoaderRemains
open Ibnos.Locality
open Ibnos.MappingFailures
open Ibnos.Memory
open Ibnos.Paging
open Ibnos.PagingOperations
open Ibnos.PagingRuns
open Ibnos.Physmem
open Ibnos.ProcessPages
open Ibnos.Programs
open Ibnos.Reallocations (refs_setEntry)
open Ibnos.References
open Ibnos.RejectedPointers
open Ibnos.RemotePages
open Ibnos.SectionTables
open Ibnos.SharedFrames
open Ibnos.TableMappings
open Ibnos.Tallies
open Ibnos.UserAccesses
open Ibnos.UserMemory

section

variable {slack : Nat → Nat} {s₀ s s' : Machine} {pid page dst_page src_page f : Nat}

/-- No other page has the frame. -/
theorem own_ne {e e' : PagingEntry} {page' : Nat} (h : Inv slack 0 s)
    (he : mapping s pid page = some e)
    (hone : refs s e.frame = 1) (he' : mapping s pid page' = some e') (hne : page' ≠ page) :
    e'.frame ≠ e.frame := by
  intro hframe
  have hname : names s (.table pid page) = some e.frame := by
    rw [names, he]
    rfl
  have hname' : names s (.table pid page') = some e.frame := by
    rw [names, he', ← hframe]
    rfl
  have hpos := tally_pos h.finite hname
  have hbalance := h.balance e.frame
  rw [hone, Pi.zero_apply] at hbalance
  have heq := eq_of_tally_eq_one h.finite (by omega) hname hname'
  cases heq
  exact hne rfl

theorem mapUserPage_proceeds (h : Inv slack 0 s) (henabled : s.pagingEnabled = true)
    (hdst : dst_page < KERNEL_PAGE) (hsrc : src_page < PAGE_COUNT) (hmd : Mapped s none dst_page)
    (hms : Mapped s (some pid) src_page) (hw : Writable s none dst_page)
    (hreserved : (s.kernel dst_page).isReserved = true)
    (hentry : s.entry (some pid) src_page = ⟨true, true, true, 0, f⟩) (hf : f < PAGE_COUNT)
    (hle : refs s f ≤ 126) :
    Proceeds (mapUserPage (some pid) true dst_page src_page ⟨true, true, true, 0, f⟩) s fun _ s' =>
      s'.pagingEnabled = true ∧ s'.process = s.process ∧
        s'.kernel dst_page = ⟨true, true, false, 0, f⟩ ∧
        ∀ g, g ≠ f → used s g = true → used s' g = true ∧ refs s' g = refs s g := by
  obtain ⟨hne, hnone⟩ := reserved_spec hreserved
  rw [mapUserPage]
  refine yields_ok_bind (requirePresent_ok rfl) ?_
  refine yields_ok_bind
    (show duplicateIf (true && !true) (some pid) src_page s = .ok ((), s) from rfl) ?_
  refine yields_ok_bind (h.structured.loadEntry_ok hsrc hms) ?_
  rw [hentry]
  refine yields_ok_bind (h.structured.storeEntry_ok (kernel_lt hdst) hmd _) ?_
  have hinv := h.setEntry (kernel_lt hdst) hmd hw ⟨true, true, false, 0, f⟩
  have hold : named (s.entry none dst_page) = none := hnone
  rw [hold, due_none, add_zero] at hinv
  have hused : used s f = true := by
    have := used_of_entry h zero_nonneg hsrc hms (by rw [hentry])
    rwa [hentry] at this
  refine ((physMemAddRefPage_proceeds hinv henabled hf (by rwa [used_setEntry])
    (by rwa [refs_setEntry])).also
    (physMemAddRefPage_spec hinv (by rwa [used_setEntry]))).bind ?_
  rintro _ s' ⟨⟨henabled', hkeep⟩, -, -, hg⟩
  have hself := @entry_setEntry_self s dst_page none ⟨true, true, false, 0, f⟩
  refine yields_pure
    ⟨henabled', hg.process, (hg.kernel dst_page fun hzero => ?_).trans hself,
    fun g hg' hgused => ?_⟩
  · cases (hself.symm.trans hzero : (_ : PagingEntry) = .zero)
  · have := hkeep g hg' (by rwa [used_setEntry])
    rwa [refs_setEntry] at this

end

section

variable {slack : Nat → Nat} {s₀ s s' : Machine} {pid total dst_addr src_addr n length page : Nat}

/-- A page which the user of a process cannot access. -/
def Blocked (s : Machine) (pid page : Nat) : Prop :=
  (s.process pid).directory (page / PAGETABLE_COUNT) = .zero ∨
    ((s.process pid).table page).user = false

/-- While `n` pages are mapped, those which come next have their frames for themselves. -/
structure Showing (slack : Nat → Nat) (pid total dst_addr src_addr : Nat) (s₀ : Machine) (n : Nat)
    (s : Machine) : Prop where
  inv : Inv slack 0 s
  settled : Settled s
  process : s.process = s₀.process
  own : ∀ i, n ≤ i → i < total → Own s₀ pid (bufferPage src_addr i) →
    Own s pid (bufferPage src_addr i)
  area : ∀ page, Span total dst_addr page → ¬Owned s page ∧ Releasable (s.kernel page)
  reserved : ∀ i, n ≤ i → i < total → (s.kernel (pageOf dst_addr + i)).isReserved = true

theorem Showing.invalid (h : Showing slack pid total dst_addr src_addr s₀ n s)
    (haddr : dst_addr < 2 ^ 32)
    (hend : pageOf dst_addr + total ≤ KERNEL_PAGE) (hn : n + (length + 1) = total) :
    Proceeds (userLoop.invalid dst_addr length ((dst_addr + n * PAGE_SIZE) % 2 ^ 32)) s fun _ s' =>
      s'.process = s₀.process := by
  have hlength : ((dst_addr + n * PAGE_SIZE) % 2 ^ 32 + 2 ^ 32 - dst_addr) % 2 ^ 32 / PAGE_SIZE +
      (length + 1) = total := by
    rw [length_of_add haddr]
    · exact hn
    · simp only [KERNEL_PAGE, PAGE_COUNT] at *
      omega
  have hpages : ∀ page, Span total dst_addr page → page < KERNEL_PAGE ∧ ¬Owned s page :=
    fun page hpage => by
    have := kernel_page_le
    have := (span_iff (by omega)).mp hpage
    exact ⟨by omega, (h.area page hpage).1⟩
  rw [userLoop.invalid, hlength]
  refine ((pagingReleasePhysMem_frames h.inv zero_nonneg h.settled.enabled hend h.area).also
    (pagingReleasePhysMem_kernel h.inv zero_nonneg hpages)).bind ?_
  rintro _ s' ⟨-, -, hreleased⟩
  exact yields_pure (hreleased.process.trans h.process)

/-- The page which is mapped loses nothing but its place among those which come next. -/
theorem Showing.next {f : Nat} (h : Showing slack pid total dst_addr src_addr s₀ n s)
    (hend : pageOf dst_addr + total ≤ KERNEL_PAGE)
    (hmapping : mapping s pid (bufferPage src_addr n) = some ⟨true, true, true, 0, f⟩)
    (hf : f < PAGE_COUNT)
    (hone : refs s f = 1)
    (hopened : PageOpened slack (some pid) true (pageOf dst_addr + n) (bufferPage src_addr n) s s')
    (henabled : s'.pagingEnabled = true) (hprocess : s'.process = s.process)
    (hkernel : s'.kernel (pageOf dst_addr + n) = ⟨true, true, false, 0, f⟩)
    (hkeep : ∀ g, g ≠ f → used s g = true → used s' g = true ∧ refs s' g = refs s g) :
    Showing slack pid total dst_addr src_addr s₀ (n + 1) s' := by
  have hle := kernel_page_le
  have hsame := sameDirectories_of_process (henabled.trans h.settled.enabled.symm) hprocess
  refine ⟨hopened.inv, hsame.keepsSettled h.settled, hprocess.trans h.process,
    fun i hi hlt hown => ?_,
    fun page hpage => ?_, fun i hi hlt => ?_⟩
  · obtain ⟨g, hg, hg', hone'⟩ := h.own i (by omega) hlt hown
    have hne : g ≠ f := own_ne h.inv hmapping hone hg (bufferPage_ne (by omega) hi hlt)
    refine ⟨g, ?_, hg', ?_⟩
    · rw [mapping_of_process hprocess, hg]
    · rw [(hkeep g hne (used_of_mapping h.inv zero_nonneg hg)).2, hone']
  · obtain ⟨hfree, hreleasable⟩ := h.area page hpage
    refine ⟨(hopened.extends'.loose page ⟨hreleasable.ne_zero, hfree⟩).2, ?_⟩
    rcases eq_or_ne page (pageOf dst_addr + n) with rfl | hne
    · rw [hkernel]
      exact Or.inr ⟨rfl, hf⟩
    · rw [hopened.kernel page hreleasable.ne_zero hne nofun]
      exact hreleasable
  · have hreserved := h.reserved i (by omega) hlt
    rw [hopened.kernel _ (reserved_spec hreserved).1 (by omega) nofun]
    exact hreserved

/-- The loop ends at the first page which the user cannot access. -/
theorem userLoop_proceeds (h : Showing slack pid total dst_addr src_addr s₀ n s)
    (hdir : (s₀.process pid).pageDirectory ≠ none)
    (hpages : ∀ i < total, Own s₀ pid (bufferPage src_addr i) ∨
      Blocked s₀ pid (bufferPage src_addr i))
    (haddr : dst_addr < 2 ^ 32) (hend : pageOf dst_addr + total ≤ KERNEL_PAGE)
    (hn : n + length = total) :
    Proceeds (userLoop (some pid) true dst_addr length ((dst_addr + n * PAGE_SIZE) % 2 ^ 32)
      ((src_addr + n * PAGE_SIZE) % 2 ^ 32)) s fun _ s' => s'.process = s₀.process := by
  induction length generalizing s n with
  | zero => exact yields_pure h.process
  | succ length ih =>
      have hinv := h.inv
      have hinvalid := h.invalid haddr hend hn
      have hdst : pageOf ((dst_addr + n * PAGE_SIZE) % 2 ^ 32) = pageOf dst_addr + n := by
        refine pageOf_add ?_
        simp only [KERNEL_PAGE, PAGE_COUNT] at *
        omega
      have hdst_lt : pageOf dst_addr + n < KERNEL_PAGE := by omega
      have hsrc_lt : bufferPage src_addr n < PAGE_COUNT := Nat.mod_lt _ (by decide)
      rw [userLoop, hdst, pageOf_buffer]
      change Proceeds (getProcessEntry pid (bufferPage src_addr n) false >>= _) s _
      obtain ⟨r, hread, hr⟩ := getProcessEntry_reads hinv.structured h.settled
        (by rw [h.process]; exact hdir) (bufferPage src_addr n)
      refine yields_ok_bind hread (yields_ite (fun htable => ?_) fun _ => hinvalid)
      have hms := hr.mp htable
      refine yields_ok_bind (hinv.structured.loadEntry_ok hsrc_lt hms) ?_
      refine yields_ite (fun _ => hinvalid) fun hgood => ?_
      -- only pages of the program can be accessed
      have hown : Own s₀ pid (bufferPage src_addr n) := by
        rcases hpages n (by omega) with hown | hzero | huser
        · exact hown
        · rw [← h.process] at hzero
          exact (hgood (Or.inl ((entry_eq_zero_iff hinv.structured hms).mpr (Or.inl hzero)))).elim
        · rw [← h.process] at huser
          exact (hgood (Or.inr huser)).elim
      obtain ⟨f, hmapping, hf, hone⟩ := h.own n le_rfl (by omega) hown
      have hentry : s.entry (some pid) (bufferPage src_addr n) = ⟨true, true, true, 0, f⟩ := by
        rw [mapping_of_mapped hinv.structured hsrc_lt hms] at hmapping
        split at hmapping
        · exact Option.some.inj hmapping
        · cases hmapping
      have hreserved := h.reserved n le_rfl (by omega)
      have hmd := mapped_of_ne_zero hinv.structured hdst_lt (reserved_spec hreserved).1
      have hspan := span_add hend (show n < total by omega)
      refine yields_ok_bind (getKernelEntry_mapped hinv.structured (kernel_lt hdst_lt) hmd true) ?_
      refine yields_ok_bind (hinv.structured.loadEntry_ok (kernel_lt hdst_lt) hmd) ?_
      refine yields_ok_bind (check_ok hreserved) ?_
      rw [hentry]
      refine yields_ite (fun hrejects => Bool.noConfusion hrejects) fun haccepted => ?_
      have hspec : Steps (mapUserPage (some pid) true (pageOf dst_addr + n) (bufferPage src_addr n)
          (s.entry (some pid) (bufferPage src_addr n))) s _ :=
        mapUserPage_spec hinv hdst_lt hsrc_lt hmd hms ⟨hdst_lt, (h.area _ hspan).1⟩ hreserved
          (by rw [hentry])
          (by rw [hentry]; rfl)
      rw [hentry] at hspec
      refine ((mapUserPage_proceeds hinv h.settled.enabled hdst_lt hsrc_lt hmd hms
        ⟨hdst_lt, (h.area _ hspan).1⟩
        hreserved hentry hf (by omega)).also hspec).bind ?_
      rintro _ s₁ ⟨⟨henabled, hprocess, hkernel, hkeep⟩, hopened⟩
      rw [nextPage_add, nextPage_add]
      exact ih (h.next hend hmapping hf hone hopened henabled hprocess hkernel hkeep) (by omega)

end

section

variable {slack : Nat → Nat} {s s' : Machine} {pid src_addr length : Nat}

theorem pagingTryMapUserMem_proceeds (h : Inv slack 0 s) (hs : Settled s)
    (hdir : (s.process pid).pageDirectory ≠ none) (hsrc : src_addr < 2 ^ 32)
    (hlength : length ≤ PAGE_COUNT)
    (hpages : ∀ i < length, Own s pid (bufferPage src_addr i) ∨
      Blocked s pid (bufferPage src_addr i)) :
    Proceeds (pagingTryMapUserMem (some pid) src_addr length true) s fun _ s' => s'.process =
      s.process := by
  rw [pagingTryMapUserMem]
  rcases Classical.em (length ≠ 0 ∧ FreeRun s length) with ⟨hne, hfree⟩ | hno
  · obtain ⟨dst_addr, hsearch, haddr, hend, hzero⟩ := pagingSearchArea_found h hne hfree
    refine yields_ok_bind hsearch ?_
    have hlack : ∀ e, NoFrames e → Lack e := fun e he => he.imp_right Or.inl
    refine (((pagingReserveArea_frames h hend hzero).excuse hlack).also
      ((opening_reserved (some pid) true src_addr h hend).and
        (pagingReserveArea_kernel h hend))).bind ?_
    rintro _ s₁ ⟨⟨-, hsteady, hreserved⟩, ⟨hopening, harea⟩, hg, -⟩
    have hsame : SameDirectories s s₁ := sameDirectories_of_process hsteady.enabled hg.process
    have hstart : Showing slack pid length dst_addr src_addr s 0 s₁ := by
      refine ⟨hopening.inv, hsame.keepsSettled hs, hg.process, fun i _ _ hown => ?_,
        fun page hpage => ?_,
        fun i _ hi => hreserved _ (span_add hend hi)⟩
      · obtain ⟨f, hmapping, hf, hone⟩ := hown
        refine ⟨f, ?_, hf, ?_⟩
        · rw [mapping_of_process hg.process, hmapping]
        · rw [hsteady.refs f (used_of_mapping h zero_nonneg hmapping), hone]
      · exact ⟨(harea rfl page hpage).2.2, Or.inl (hreserved page hpage)⟩
    have hloop := userLoop_proceeds hstart hdir hpages haddr hend (Nat.zero_add length)
    rw [Nat.zero_mul, Nat.add_zero, Nat.add_zero, Nat.mod_eq_of_lt haddr,
      Nat.mod_eq_of_lt hsrc] at hloop
    exact hloop.bind fun _ _ hprocess => yields_pure hprocess
  · have hmissing := pagingSearchArea_missing h hlength (by
      rcases Classical.em (length = 0) with hzero | hne
      · exact Or.inl hzero
      · exact Or.inr fun hfree => hno ⟨hne, hfree⟩)
    refine Yields.bind (Q := fun _ _ => False) ?_ fun _ _ => False.elim
    exact yields_of_error hmissing (Or.inr (Or.inr rfl))

end

section

/-! Bytes which are stored through a mapping. -/

variable {slack : Nat → Nat} {s : Machine} {pid page dst_page addr : Nat}

/-- The bytes which follow each other from an address of a process on. -/
def storeBytesAt (v : Memories) (pid : Nat) : Nat → List (BitVec 8) → Memories
  | _, [] => v
  | addr, value :: values =>
      storeBytesAt (storeAt v pid (pageOf addr) (addr % PAGE_SIZE) value) pid (addr + 1) values

theorem storeByte_ok (h : Inv slack 0 s) (hs : Private s) (hopen : Open s pid true dst_page page)
    (hdst : dst_page < KERNEL_PAGE) (offset : Nat) (value : BitVec 8) :
    ∃ f, storeByte dst_page offset value s = .ok ((), setByte s f offset value) ∧
      view (setByte s f offset value) = storeAt (view s) pid page offset value := by
  obtain ⟨e, he, huser, hrw, htranslate⟩ := translate_of_open hopen h.structured hdst
  refine ⟨e.frame, ?_, view_setByte hs he huser (hrw rfl)⟩
  rw [storeByte, bind_apply, get_apply]
  simp only [htranslate]
  rw [if_neg]
  · rfl
  · rw [hs.data pid page e he huser]
    simpa using hdst

theorem storeBytes_ok (pid src_addr : Nat) (values : List (BitVec 8)) (h : Inv slack 0 s)
    (hs : Private s)
    (hoffset : addr % PAGE_SIZE = src_addr % PAGE_SIZE)
    (hopen : ∀ i < values.length, Open s pid true (pageOf (addr + i)) (pageOf (src_addr + i)) ∧
      pageOf (addr + i) < KERNEL_PAGE) :
    ∃ m, storeBytes addr values s = .ok ((), { s with memory := m }) ∧
      Private { s with memory := m } ∧
      view { s with memory := m } = storeBytesAt (view s) pid src_addr values := by
  induction values generalizing s addr src_addr with
  | nil => exact ⟨s.memory, rfl, hs, rfl⟩
  | cons value values ih =>
      obtain ⟨hfirst, hdst⟩ := hopen 0 (Nat.succ_pos _)
      rw [Nat.add_zero] at hdst
      rw [Nat.add_zero, Nat.add_zero] at hfirst
      obtain ⟨f, hstore, hview⟩ := storeByte_ok h hs hfirst hdst (addr % PAGE_SIZE) value
      have hnext : (addr + 1) % PAGE_SIZE = (src_addr + 1) % PAGE_SIZE := by
        rw [Nat.add_mod, hoffset, ← Nat.add_mod]
      obtain ⟨m, hok, hs', hview'⟩ := ih (src_addr + 1) (s := setByte s f (addr % PAGE_SIZE) value)
        (inv_memory h _) (private_setByte hs) hnext fun i hi => by
          have := hopen (i + 1) (Nat.succ_lt_succ hi)
          rw [← Nat.add_assoc, ← Nat.add_assoc, Nat.add_right_comm,
            Nat.add_right_comm src_addr] at this
          exact ⟨this.1.mono rfl rfl, this.2⟩
      refine ⟨m, ?_, hs', hview'.trans ?_⟩
      · rw [storeBytes, bind_apply, hstore]
        exact hok
      · rw [hview, storeBytesAt, hoffset]

/-- Bytes are only stored below the page tables of the kernel. -/
theorem storeBytes_below {s' : Machine} {u : Unit} (values : List (BitVec 8))
    (hok : storeBytes addr values s = .ok (u, s')) {i : Nat} (hi : i < values.length) :
    pageOf (addr + i) < KERNEL_PAGE := by
  induction values generalizing s addr i with
  | nil => exact absurd hi (Nat.not_lt_zero i)
  | cons value values ih =>
      obtain ⟨_, s₁, hstore, hok₁⟩ := bind_ok.mp hok
      cases i with
      | zero =>
          rw [storeByte, bind_apply, get_apply] at hstore
          rcases htranslate :
            s.translate (pageOf addr) with _ | frame <;> simp only [htranslate] at hstore
          · cases hstore
          · split at hstore
            · cases hstore
            · next hnot => exact Nat.lt_of_not_le fun hle => hnot (Or.inl hle)
      | succ i =>
          have := ih hok₁ (Nat.lt_of_succ_lt_succ hi)
          rwa [Nat.add_right_comm, Nat.add_assoc] at this

end

section

variable {slack : Nat → Nat} {s₀ s s' : Machine} {pid page f length addr : Nat}

/-- Since the pages of a program were allocated, they were shown to the kernel and written only. -/
structure Running (slack : Nat → Nat) (s₀ s : Machine) : Prop extends Orderly slack s₀ s where
  priv : Private s
  process : s.process = s₀.process

/-- The kernel shares the frame of no page with a process. -/
theorem Running.names (h : Running slack s₀ s) (h₀ : Inv slack 0 s₀)
    (hname : names s₀ (.table pid page) = some f) (place : Place) :
    names s place = some f ↔ References.names s₀ place = some f := by
  have hsame := fun q i => names_process_eq (congrFun h.process q) i
  cases place with
  | kernel k =>
      refine ⟨fun hk => ?_, fun hk => ?_⟩
      · rcases Classical.em (s₀.kernel k = .zero) with hzero | hne
        · exact (h.apart k f id hzero hk pid page ((hsame pid page).2.trans hname)).elim
        · exact names_of_kernel_eq h₀.structured h.inv.structured (h.kernel k hne) hk
      · have hne := (kernel_ne_zero_of_names hk).2
        exact names_of_kernel_eq h.inv.structured h₀.structured (h.kernel k hne).symm hk
  | directory q i => rw [(hsame q i).1]
  | table q i => rw [(hsame q i).2]

theorem Running.own (h : Running slack s₀ s) (h₀ : Inv slack 0 s₀) (hown : Own s₀ pid page) :
    Own s pid page := by
  obtain ⟨f, hmapping, hf, hone⟩ := hown
  have hname : References.names s₀ (.table pid page) = some f := by
    rw [References.names, hmapping]
    rfl
  refine ⟨f, (congrFun (congrFun (mapping_of_process h.process) pid) page).trans hmapping, hf, ?_⟩
  have htally := tally_congr fun place => h.names h₀ hname place
  have hbalance := h.inv.balance f
  have hbalance₀ := h₀.balance f
  rw [htally] at hbalance
  omega

end

section

variable {slack : Nat → Nat} {s₀ s s' : Machine} {pid page addr src_addr length : Nat}
    {values : List (BitVec 8)}

/-- What the user of a process can access depends on its entries only. -/
theorem accessible_of_process {rw : Bool} (hprocess : s'.process = s.process) :
    Accessible s' pid rw page ↔ Accessible s pid rw page := by
  have hmapping := congrFun (congrFun (mapping_of_process hprocess) pid) page
  rw [Accessible, Accessible, view, view, hmapping]
  rcases mapping s pid page with _ | e
  · exact Iff.rfl
  · simp only [Option.bind_some]
    split
    · simp only [Option.some.injEq, Prod.mk.injEq]
      constructor <;>
        rintro ⟨_, w, ⟨-, rfl⟩, hw⟩ <;>
        exact ⟨_, _, ⟨rfl, rfl⟩, hw⟩
    · exact Iff.rfl

theorem accessible_of_own (h : Own s pid page) : Accessible s pid true page := by
  obtain ⟨f, hmapping, -⟩ := h
  refine ⟨s.memory f, true, ?_, fun _ => rfl⟩
  rw [view, hmapping]
  rfl

theorem not_accessible_of_blocked (h : Blocked s pid page) : ¬Accessible s pid true page := by
  refine not_accessible_of_none ?_
  rw [view, mapping]
  rcases h with hzero | huser
  · rw [hzero, if_neg fun hgood => Bool.noConfusion hgood.2.2.1]
    rfl
  · split
    · rw [Option.bind_some, if_neg (by rw [huser]; exact Bool.false_ne_true)]
    · rfl

theorem own_of_open {dst_page : Nat} (hprocess : s.process = s₀.process)
    (hopen : Open s pid true dst_page page)
    (hpage : Own s₀ pid page ∨ Blocked s₀ pid page) :
    ∃ f, f < PAGE_COUNT ∧ s.kernel dst_page = ⟨true, true, false, 0, f⟩ := by
  have haccessible := (accessible_of_process hprocess).mp (hopen.accessible (s := s) rfl)
  obtain ⟨f, hmapping, hf, -⟩ := hpage.resolve_right fun hblocked =>
    not_accessible_of_blocked hblocked haccessible
  obtain ⟨e, he, -, -, hentry⟩ := hopen.entry
  rw [mapping_of_process hprocess, hmapping] at he
  cases he
  exact ⟨f, hf, hentry⟩

/-- The bytes of a section are stored, and its pages are unmapped. -/
theorem stores_section {E : Stop → Prop} (h : Running slack s₀ s) {dst_addr : Nat} {s₁ : Machine}
    (hattempted : Attempted slack (some pid) true length src_addr s dst_addr true s₁)
    (hlent : Lent slack s₀ length (dst_addr ||| src_addr % PAGE_SIZE) s₁)
    (hprocess : s₁.process = s.process)
    (hpages : ∀ i < length, Own s₀ pid (bufferPage src_addr i) ∨
      Blocked s₀ pid (bufferPage src_addr i))
    (hfits : src_addr % PAGE_SIZE + values.length ≤ length * PAGE_SIZE) :
    ∃ m, storeBytes (dst_addr ||| src_addr % PAGE_SIZE) values s₁ =
      .ok ((), { s₁ with memory := m }) ∧
      Yields E (pagingReleasePhysMem none (dst_addr ||| src_addr % PAGE_SIZE) length)
        { s₁ with memory := m }
        fun _ s₂ => Running slack s₀ s₂ ∧ view s₂ = storeBytesAt (view s) pid src_addr values := by
  obtain ⟨hopening, -⟩ := hattempted.success rfl
  have hend := hattempted.fits
  have hle := kernel_page_le
  have hoffset : (dst_addr ||| src_addr % PAGE_SIZE) % PAGE_SIZE = src_addr % PAGE_SIZE := by
    have haligned := hattempted.aligned
    rw [or_offset haligned]
    simp only [PAGE_SIZE] at *
    omega
  obtain ⟨m, hstore, hpriv, hview⟩ := storeBytes_ok pid src_addr values hlent.inv
    (hopening.priv h.priv) hoffset fun i hi => hopening.byte hattempted.aligned hend (by omega)
  refine ⟨m, hstore, ?_⟩
  have hlent' : Lent slack s₀ length (dst_addr ||| src_addr % PAGE_SIZE) { s₁ with memory := m } :=
    hlent.written ⟨m, rfl⟩
  have hspan := span_or hend hattempted.aligned src_addr
  have hpage : pageOf (dst_addr ||| src_addr % PAGE_SIZE) + length ≤ KERNEL_PAGE := by
    rwa [pageOf_or_offset hattempted.aligned]
  have harea : ∀ page, Span length (dst_addr ||| src_addr % PAGE_SIZE) page →
      ¬Owned { s₁ with memory := m } page ∧ Releasable (s₁.kernel page) := by
    intro page hp
    refine ⟨(hlent'.pages page hp).2, ?_⟩
    obtain ⟨hge, hlt⟩ := (span_iff (by omega)).mp ((hspan page).mp hp)
    obtain ⟨j, rfl⟩ := Nat.exists_eq_add_of_le hge
    obtain ⟨f, hf, hentry⟩ :=
      own_of_open (hprocess.trans h.process) (hopening.opened pid rfl j (by omega))
      (hpages j (by omega))
    rw [hentry]
    exact Or.inr ⟨rfl, hf⟩
  refine yields_iff.mpr ⟨fun u s₂ hok => ?_, fun e herror => ?_⟩
  · obtain ⟨-, hreleased⟩ :=
      (pagingReleasePhysMem_kernel hlent'.inv zero_nonneg hlent'.pages).of_ok hok
    refine ⟨⟨hlent'.release hok, hpriv.of_released hreleased,
      hreleased.process.trans (hprocess.trans h.process)⟩, ?_⟩
    rw [view_of_released hreleased, hview, hopening.views]
  · exact (pagingReleasePhysMem_frames hlent'.inv zero_nonneg hlent'.settled.enabled hpage
      harea).of_error herror

end

section

variable {slack : Nat → Nat} {s₀ : Machine} {s : Loader} {pid : Nat} {b : Buffer} {e : ElfSection}

/-- The number of bytes and what they are. -/
theorem dataOf_length (ha : Accepted b e) (haddr : e.addr ≠ 0) : (dataOf b e).length = e.size := by
  rw [dataOf]
  split
  · exact List.length_replicate
  · next htype =>
    have hfits := (ha.resolve_left haddr).resolve_left htype
    simp only [Buffer.length] at hfits
    rw [List.length_take, List.length_drop]
    omega

theorem readData_ok (ha : Accepted b e) (haddr : e.addr ≠ 0) :
    readData b e s = .ok (dataOf b e, s) := by
  rw [readData]
  split
  · rfl
  · next htype =>
    rw [readBuffer, if_pos ((ha.resolve_left haddr).resolve_left htype)]
    rfl

theorem onMachine_eq {α : Type} {op : M α} {a : α} {m : Machine} (hok : op s.machine = .ok (a, m)) :
    onMachine op s = .ok (a, { s with machine := m }) := by
  rw [onMachine, hok]

/-- The pages of a section as the kernel counts them. -/
def sectionPages (e : ElfSection) : Nat := pageCount e.addr e.size

/-- The number of the pages is not lost. -/
def Countable (e : ElfSection) : Prop := e.addr % PAGE_SIZE + e.size + (PAGE_SIZE - 1) < 2 ^ 32

/-- A section after the loop went past it. -/
structure Stored (slack : Nat → Nat) (s₀ : Machine) (pid : Nat) (b : Buffer) (e : ElfSection)
    (s : Loader)
    (r : Bool) (s' : Loader) : Prop where
  running : Running slack s₀ s'.machine
  entryPoint : s'.entryPoint = s.entryPoint
  success : r = true →
    (e.size ≠ 0 → ∀ i < sectionPages e, Accessible s₀ pid true (bufferPage e.addr i)) ∧
    view s'.machine = storeBytesAt (view s.machine) pid e.addr (dataOf b e)
  failure : r = false → e.size ≠ 0 ∧ ∃ i < sectionPages e,
    ¬Accessible s₀ pid true (bufferPage e.addr i)

theorem storeSection_stored (h : Running slack s₀ s.machine) (h₀ : Inv slack 0 s₀)
    (hdir : (s₀.process pid).pageDirectory ≠ none) (hb : Bounded e) (ha : Accepted b e)
    (haddr : e.addr ≠ 0)
    (hcount : Countable e)
    (hpages : ∀ i < sectionPages e, Own s₀ pid (bufferPage e.addr i) ∨
      Blocked s₀ pid (bufferPage e.addr i)) :
    Yields Lack (storeSection pid b e) s fun r s' => Stored slack s₀ pid b e s r s' := by
  rw [storeSection]
  rcases Nat.eq_zero_or_pos e.size with hsize | hsize
  · have haccess : onMachine (accessUserMemory (some pid) e.addr e.size true) s =
      .ok ((true, ⟨none, 0⟩), s) := by
      rw [accessUserMemory, if_pos hsize]
      rfl
    have hnone : dataOf b e = [] :=
      List.length_eq_zero_iff.mp ((dataOf_length ha haddr).trans hsize)
    refine yields_ok_bind haccess (yields_ok_bind (readData_ok ha haddr) ?_)
    rw [hnone]
    refine yields_of_ok (rfl : _ = Except.ok (true, s))
      ⟨h, rfl, fun _ => ⟨fun hne => (hne hsize).elim, ?_⟩, by simp⟩
    rw [hnone]
    rfl
  have hpages' : ∀ i < sectionPages e, Own s.machine pid (bufferPage e.addr i) ∨
      Blocked s.machine pid (bufferPage e.addr i) := fun i hi => by
    refine (hpages i hi).imp (h.own h₀) fun hblocked => ?_
    rwa [Blocked, h.process]
  have haccessible : ∀ page, Accessible s.machine pid true page ↔ Accessible s₀ pid true page :=
    fun page => accessible_of_process h.process
  have hmap := (pagingTryMapUserMem_proceeds h.inv h.settled (by rw [h.process]; exact hdir) hb.addr
    (pageCount_le e.addr e.size) hpages').also (pagingTryMapUserMem_spec h.inv (some pid) hb.addr
      (sectionPages e) true)
  have haccess : Yields Lack (accessUserMemory (some pid) e.addr e.size true) s.machine fun r m =>
      r.1 = r.2.addr.isSome ∧ r.2.length = sectionPages e ∧ m.process = s.machine.process ∧
        (∃ dst_addr, Attempted slack (some pid) true (sectionPages e) e.addr s.machine dst_addr
          r.2.addr.isSome m ∧
          ∀ addr, r.2.addr = some addr → addr = (dst_addr ||| e.addr % PAGE_SIZE)) ∧
        (r.2.addr = none → Orderly slack s₀ m) ∧
        ∀ addr, r.2.addr = some addr → Lent slack s₀ (sectionPages e) addr m := by
    rw [accessUserMemory, if_neg hsize.ne']
    refine hmap.bind_of fun addr m hok hm => yields_pure ⟨rfl, rfl, hm.1, hm.2, ?_⟩
    exact pagingTryMapUserMem_lent h.toOrderly hb.addr hok
  refine (yields_onMachine haccess).bind ?_
  rintro ⟨accessed, addr, pages⟩ s₁
    ⟨⟨haccessed, hpages₁, hprocess, ⟨dst_addr, hattempted, haddr'⟩, hrefused, hlent⟩,
    -, hentry⟩
  simp only at haccessed hpages₁ hprocess hattempted haddr' hrefused hlent
  subst haccessed hpages₁
  rcases addr with _ | addr
  · have hfailure := hattempted.failure rfl
    refine yields_of_ok (rfl : _ = Except.ok (false, s₁)) ⟨⟨hrefused rfl, hfailure.priv h.priv,
      hprocess.trans h.process⟩, hentry, by simp, fun _ => ⟨hsize.ne', ?_⟩⟩
    obtain ⟨j, hj, hnot⟩ := hfailure.reason pid rfl
    exact ⟨j, hj, fun hacc => hnot ((haccessible _).mpr hacc)⟩
  obtain rfl := haddr' addr rfl
  have hfits : e.addr % PAGE_SIZE + (dataOf b e).length ≤ sectionPages e * PAGE_SIZE := by
    rw [dataOf_length ha haddr, sectionPages, pageCount, Nat.mod_eq_of_lt hcount]
    simp only [PAGE_SIZE]
    omega
  obtain ⟨m, hstore, hrelease⟩ :=
    stores_section (E := Lack) h hattempted (hlent _ rfl) hprocess hpages hfits
  refine yields_ok_bind (readData_ok ha haddr) ?_
  refine yields_ok_bind (onMachine_eq hstore) ?_
  refine (yields_onMachine (s := { s₁ with machine := { s₁.machine with memory := m } })
    hrelease).bind ?_
  rintro _ s₂ ⟨⟨hrunning, hview⟩, -, hentry₂⟩
  refine yields_pure ⟨hrunning, hentry₂.trans hentry, fun _ => ⟨fun _ i hi => ?_, hview⟩, by simp⟩
  obtain ⟨hopening, -⟩ := hattempted.success rfl
  exact (haccessible _).mp ((hopening.opened pid rfl i hi).accessible hopening.views)

end

section

variable {slack : Nat → Nat} {s₀ : Machine} {s : Loader} {pid i rounds : Nat} {b : Buffer}
    {header : ElfHeader}
  {es : List ElfSection}

/-- Sections without an address are left out. -/
def storeSections (b : Buffer) (pid : Nat) (v : Memories) (es : List ElfSection) : Memories :=
  es.foldl (fun v e => if e.addr = 0 then v else storeBytesAt v pid e.addr (dataOf b e)) v

/-- All pages which the kernel has to show are those of the program. -/
def Shown (s₀ : Machine) (pid : Nat) (e : ElfSection) : Prop :=
  e.addr ≠ 0 → e.size ≠ 0 → ∀ i < sectionPages e, Accessible s₀ pid true (bufferPage e.addr i)

/-- The sections after the loop. It ends early at one which is not part of the program. -/
structure Loaded (slack : Nat → Nat) (s₀ : Machine) (pid : Nat) (b : Buffer) (es : List ElfSection)
    (s : Loader)
    (r : Bool) (s' : Loader) : Prop where
  running : Running slack s₀ s'.machine
  entryPoint : s'.entryPoint = s.entryPoint
  success : r = true → (∀ e ∈ es, Shown s₀ pid e) ∧
    view s'.machine = storeSections b pid (view s.machine) es
  failure : r = false → ∃ e ∈ es, ¬Shown s₀ pid e

/-- Every page is one of the program or cannot be accessed. -/
def Confined (s : Machine) (pid : Nat) : Prop :=
  ∀ page, Own s pid page ∨ Blocked s pid page

theorem storeLoop_loaded (h : Running slack s₀ s.machine) (h₀ : Inv slack 0 s₀)
    (hdir : (s₀.process pid).pageDirectory ≠ none) (hconfined : Confined s₀ pid)
    (hr : Reads b header i)
    (hall : (scan b header rounds i).2 = true)
    (hcount : ∀ e ∈ (scan b header rounds i).1, e.addr ≠ 0 → Countable e) :
    Yields Lack (storeLoop pid b header rounds (entryOffset header i)) s fun r s' =>
      Loaded slack s₀ pid b (scan b header rounds i).1 s r s' := by
  induction rounds generalizing s i with
  | zero =>
      exact yields_pure
        ⟨h, rfl, fun _ => ⟨(by intros; contradiction), rfl⟩, (by intros; contradiction)⟩
  | succ rounds ih =>
      rw [storeLoop]
      refine yields_ok_bind (nextSection_eq hr) ?_
      rcases Classical.em (Rejected b header (i + 1)) with hrejected | haccepted
      · rw [scan_rejected rounds hrejected] at hall
        cases hall
      obtain ⟨e, he, ha⟩ := not_rejected_iff.mp haccepted
      have hnext := hr.succ he
      rw [scan_accepted rounds he ha] at hall hcount ⊢
      simp only [he, hr.next.1]
      refine yields_ite (fun haddr => ?_) fun haddr => ?_
      · refine (ih h hnext hall fun e' he' => hcount e' (List.mem_cons_of_mem _ he')).mono ?_
        intro r s' hloaded
        refine ⟨hloaded.running, hloaded.entryPoint, fun hr' => ?_, fun hr' => ?_⟩
        · obtain ⟨hshown, hview⟩ := hloaded.success hr'
          refine ⟨List.forall_mem_cons.mpr ⟨fun hne => (hne haddr).elim, hshown⟩, ?_⟩
          rw [hview, storeSections, storeSections, List.foldl_cons, if_pos haddr]
        · obtain ⟨e', he', hnot⟩ := hloaded.failure hr'
          exact ⟨e', List.mem_cons_of_mem _ he', hnot⟩
      · refine (storeSection_stored h h₀ hdir (bounded_of_entryAt he) ha haddr
          (hcount e List.mem_cons_self haddr) fun _ _ => hconfined _).bind ?_
        intro stored s₁ hstored
        refine yields_ite (fun hsuccess => ?_) fun hfailure => ?_
        · obtain ⟨hshown₁, hview₁⟩ := hstored.success hsuccess
          refine (ih hstored.running hnext hall fun e' he' =>
            hcount e' (List.mem_cons_of_mem _ he')).mono ?_
          intro r s' hloaded
          refine ⟨hloaded.running, hloaded.entryPoint.trans hstored.entryPoint, fun hr' => ?_,
            fun hr' => ?_⟩
          · obtain ⟨hshown, hview⟩ := hloaded.success hr'
            refine ⟨List.forall_mem_cons.mpr ⟨fun _ => hshown₁, hshown⟩, ?_⟩
            rw [hview, hview₁, storeSections, storeSections, List.foldl_cons, if_neg haddr]
          · obtain ⟨e', he', hnot⟩ := hloaded.failure hr'
            exact ⟨e', List.mem_cons_of_mem _ he', hnot⟩
        · obtain ⟨hsize, j, hj, hnot⟩ := hstored.failure (Bool.eq_false_iff.mpr hfailure)
          refine yields_pure ⟨hstored.running, hstored.entryPoint, by simp, fun _ => ?_⟩
          exact ⟨e, List.mem_cons_self, fun hshown => hnot (hshown haddr hsize j hj)⟩

end

end Ibnos.SectionStores
