import Mathlib.Order.Interval.Finset.Nat
import Ibnos.Reallocations

/-!
Room in the address space of the kernel. The search for an area finds one whenever
there is one, and with enough unused pages the kernel can count references and map
frames for a moment: only frames can be lacking then.
-/

namespace Ibnos.KernelRoom

open Ibnos.Memory
open Ibnos.Physmem
open Ibnos.Paging
open Ibnos.Programs
open Ibnos.References
open Ibnos.KernelPages
open Ibnos.ProcessPages
open Ibnos.PagingOperations
open Ibnos.FrameSupply
open Ibnos.SharedFrames
open Ibnos.FixedAllocations

section

variable {slack : Nat → Nat} {P : Nat → ℤ} {s s' : Machine} {page length rounds i start : Nat}

/-- Unused pages in a row, below the kernel's page tables. -/
def FreeRun (s : Machine) (length : Nat) : Prop :=
  ∃ start, 1 ≤ start ∧ start + length ≤ KERNEL_PAGE ∧
    ∀ q, start ≤ q → q < start + length → s.kernel q = .zero

theorem getKernelEntry_missing (h : Structured s) (hm : ¬Mapped s none page) :
    getKernelEntry page false s = .ok (false, s) := by
  have hself : s.translate KERNEL_DIR = some (s.kernelTable KERNEL_DIR_ENTRY) :=
    h.translate_table (i := KERNEL_DIR_ENTRY) (by decide) h.self
  have hzero : s.kernel (KERNEL_PAGE + page / PAGETABLE_COUNT) = .zero := not_not.mp hm
  simp only [getKernelEntry, bind_apply, get_apply, access_ok hself, if_pos hzero]
  rfl

theorem lastPage_eq (hpos : 1 ≤ start + length) (hlt : start + length ≤ 2 ^ 32) :
    lastPage start length = start + length - 1 := by
  unfold lastPage
  omega

/-- The search gives up only if each area has a page in use. -/
theorem searchLoop_none (h : Inv slack P s) (hlength : 1 ≤ length ∧ length ≤ PAGE_COUNT)
    (hstart : start ≤ i) (hi : i < start + length) (hrounds : KERNEL_PAGE ≤ i + rounds) :
    ∃ r, searchLoop getKernelEntry none length rounds i start s = .ok (r, s) ∧
      (r = none → ∀ a, start ≤ a → a + length ≤ KERNEL_PAGE →
        ∃ q, a ≤ q ∧ q < a + length ∧ s.kernel q ≠ .zero) := by
  induction rounds generalizing i start with
  | zero => exact ⟨none, rfl, fun _ a ha hend => by omega⟩
  | succ rounds ih =>
      rw [searchLoop]
      rcases Nat.lt_or_ge i KERNEL_PAGE with hlt | hge
      · rw [if_pos hlt]
        have hlast : lastPage start length = start + length - 1 := by
          refine lastPage_eq (by omega) ?_
          simp only [KERNEL_PAGE, PAGE_COUNT] at *
          omega
        rcases Classical.em (Mapped s none i) with hm | hm
        · rw [bind_apply, getKernelEntry_mapped h.structured (kernel_lt hlt) hm]
          dsimp only
          rw [if_pos rfl, bind_apply, h.structured.loadEntry_ok (kernel_lt hlt) hm]
          dsimp only
          split
          · next hne =>
            obtain ⟨r, heq, hnone⟩ := @ih (i + 1) (i + 1) le_rfl (by omega) (by omega)
            refine ⟨r, heq, fun hr a ha hend => ?_⟩
            rcases Nat.lt_or_ge i a with hia | hia
            · exact hnone hr a hia hend
            · exact ⟨i, hia, by omega, hne⟩
          · split
            · exact ⟨_, rfl, by simp⟩
            · exact ih (by omega) (by omega) (by omega)
        · rw [bind_apply, getKernelEntry_missing h.structured hm]
          have hmask : i ≤ i ||| 0x3FF := Nat.left_le_or
          dsimp only
          rw [if_neg (by simp)]
          split
          · exact ⟨_, rfl, by simp⟩
          · exact ih (by omega) (by omega) (by omega)
      · rw [if_neg (by omega)]
        exact ⟨none, rfl, fun _ a ha hend => by omega⟩

theorem freeRun_of_inBounds {addr : Nat} (hlength : length ≤ PAGE_COUNT)
    (h : InBounds s length addr) :
    FreeRun s length := by
  obtain ⟨start, -, hone, hlt, ⟨hend, hzero⟩ | hover⟩ := h
  · exact ⟨start, hone, hend, hzero⟩
  · simp only [KERNEL_PAGE, PAGE_COUNT] at *
    omega

/-- An area is found exactly if there is one. -/
theorem trySearchArea_eq (h : Inv slack P s) (hlength : length ≤ PAGE_COUNT) :
    ∃ r, trySearchArea getKernelEntry none length s = .ok (r, s) ∧
      (r ≠ none ↔ length ≠ 0 ∧ FreeRun s length) ∧ ∀ addr, r = some addr →
        InBounds s length addr := by
  rcases Nat.eq_zero_or_pos length with rfl | hpos
  · exact ⟨none, rfl, by simp, nofun⟩
  · rw [trySearchArea, if_neg (by omega)]
    obtain ⟨r, hok, hnone⟩ := @searchLoop_none _ _ _ _ _ 1 1 h ⟨hpos, hlength⟩ le_rfl (by omega)
      (Nat.le_add_left _ _)
    obtain ⟨-, hbounds⟩ := (searchLoop_kernel h le_rfl le_rfl fun page hp hlt => by omega).of_ok hok
    refine ⟨r, hok, ⟨fun hr => ?_, ?_⟩, hbounds⟩
    · obtain ⟨addr, rfl⟩ := Option.ne_none_iff_exists'.mp hr
      exact ⟨by omega, freeRun_of_inBounds hlength (hbounds addr rfl)⟩
    · rintro ⟨-, start, hone, hend, hzero⟩ rfl
      obtain ⟨q, hle, hlt, hne⟩ := hnone rfl start hone hend
      exact hne (hzero q hle hlt)

/-- The area is found and lies below the kernel's page tables. -/
theorem pagingSearchArea_found (h : Inv slack P s) (hlength : length ≠ 0)
    (hfree : FreeRun s length) :
    ∃ addr, pagingSearchArea none length s = .ok (addr, s) ∧ addr < 2 ^ 32 ∧
      pageOf addr + length ≤ KERNEL_PAGE ∧ ∀ page, Span length addr page →
        s.kernel page = .zero := by
  have hle := kernel_page_le
  have hbound : length ≤ PAGE_COUNT := by
    obtain ⟨start, -, hend, -⟩ := hfree
    omega
  obtain ⟨r, hsearch, hfound, hbounds⟩ := trySearchArea_eq h hbound
  obtain ⟨addr, rfl⟩ := Option.ne_none_iff_exists'.mp (hfound.mpr ⟨hlength, hfree⟩)
  obtain ⟨start, rfl, hone, hlt, ⟨hend, hzero⟩ | hover⟩ := hbounds addr rfl
  · have hpage := pageOf_mul (kernel_lt hlt)
    refine ⟨start * PAGE_SIZE, ?_, ?_, by rwa [hpage], fun page hspan => ?_⟩
    · have hsearch : pagingTrySearchArea none length s = .ok (some (start * PAGE_SIZE), s) :=
        hsearch
      rw [pagingSearchArea, bind_apply, hsearch]
      rfl
    · simp only [KERNEL_PAGE, PAGE_SIZE] at *
      omega
    · rw [span_iff (by omega), hpage] at hspan
      exact hzero page hspan.1 hspan.2
  · simp only [KERNEL_PAGE, PAGE_COUNT] at *
    omega

/-- Otherwise the kernel goes down. -/
theorem pagingSearchArea_missing (h : Inv slack P s) (hlength : length ≤ PAGE_COUNT)
    (hno : length = 0 ∨ ¬FreeRun s length) : pagingSearchArea none length s =
      .error .addressSpaceFull := by
  obtain ⟨r, hsearch, hfound, -⟩ := trySearchArea_eq h hlength
  have hr : r = none := by
    by_contra hr
    obtain ⟨hpos, hfree⟩ := hfound.mp hr
    exact hno.elim hpos fun hno => hno hfree
  subst hr
  have hsearch : pagingTrySearchArea none length s = .ok (none, s) := hsearch
  rw [pagingSearchArea, bind_apply, hsearch]
  rfl

end

section

/-! The unused pages are counted. -/

variable {s s' : Machine} {page k : Nat}

/-- The unused pages below the kernel's page tables. -/
def spare (s : Machine) : Finset Nat :=
  (Finset.Ico 1 KERNEL_PAGE).filter fun q => s.kernel q = .zero

/-- Enough unused pages for all tables of records which are missing, and for some more. -/
def Roomy (k : Nat) (s : Machine) : Prop := missing s + k ≤ (spare s).card

theorem mem_spare {q : Nat} : q ∈ spare s ↔ (1 ≤ q ∧ q < KERNEL_PAGE) ∧ s.kernel q = .zero := by
  rw [spare, Finset.mem_filter, Finset.mem_Ico]

/-- Only the pages of an area were taken. -/
theorem card_spare_le (area : Finset Nat)
    (h : ∀ q, q < KERNEL_PAGE → q ∉ area → s.kernel q = .zero → s'.kernel q = .zero) :
    (spare s).card ≤ (spare s').card + area.card := by
  have hsub : spare s ⊆ spare s' ∪ area := by
    intro q hq
    rw [mem_spare] at hq
    rw [Finset.mem_union, mem_spare]
    rcases Classical.em (q ∈ area) with hin | hout
    · exact Or.inr hin
    · exact Or.inl ⟨hq.1, h q hq.1.2 hout hq.2⟩
  exact (Finset.card_le_card hsub).trans (Finset.card_union_le _ _)

theorem Roomy.mono (h : Roomy k s) (hmissing : missing s' ≤ missing s)
    (hspare : ∀ q, q < KERNEL_PAGE → s.kernel q = .zero → s'.kernel q = .zero) : Roomy k s' := by
  have hcard := @card_spare_le s s' ∅ fun q hq _ => hspare q hq
  rw [Finset.card_empty] at hcard
  unfold Roomy at *
  omega

theorem Roomy.take (h : Roomy (k + 1) s) (hmissing : missing s' ≤ missing s)
    (hspare : ∀ q, q < KERNEL_PAGE → q ≠ page → s.kernel q = .zero → s'.kernel q = .zero) :
    Roomy k s' := by
  have hcard := @card_spare_le s s' {page} fun q hq hout =>
    hspare q hq fun heq => hout (Finset.mem_singleton.mpr heq)
  rw [Finset.card_singleton] at hcard
  unfold Roomy at *
  omega

theorem Roomy.give (h : Roomy k s) (hmissing : missing s' ≤ missing s)
    (hpage : 1 ≤ page ∧ page < KERNEL_PAGE)
    (hused : s.kernel page ≠ .zero) (hzero : s'.kernel page = .zero)
    (hspare : ∀ q, q < KERNEL_PAGE → s.kernel q = .zero → s'.kernel q = .zero) :
      Roomy (k + 1) s' := by
  have hsub : insert page (spare s) ⊆ spare s' := by
    intro q hq
    rw [mem_spare]
    rcases Finset.mem_insert.mp hq with rfl | hq
    · exact ⟨hpage, hzero⟩
    · rw [mem_spare] at hq
      exact ⟨hq.1, hspare q hq.1.2 hq.2⟩
  have hcard := Finset.card_le_card hsub
  rw [Finset.card_insert_of_notMem fun hin => hused (mem_spare.mp hin).2] at hcard
  unfold Roomy at *
  omega

theorem missing_pos {i : Nat} (hi : i < PHYSMEMEXTRA_COUNT) (hnone : s.physMemExtra i = none) :
    0 < missing s :=
  Nat.zero_lt_of_lt (missing_setExtra hi hnone 0)

theorem missing_of_extra (h : s'.physMemExtra = s.physMemExtra) : missing s' = missing s := by
  rw [missing, h]
  rfl

end

section

/-! With enough unused pages only frames can be lacking. -/

variable {slack : Nat → Nat} {P : Nat → ℤ} {s s' : Machine} {f page k : Nat}

theorem physMemAllocPage_frames (lowmem : Bool) :
    Yields NoFrames (physMemAllocPage lowmem) s fun _ _ => True := allocLoop_yields lowmem _

theorem getKernelEntry_frames (h : Inv slack P s) (hpage : page < PAGE_COUNT) (alloc : Bool) :
    Yields NoFrames (getKernelEntry page alloc) s fun _ _ => True := by
  have hself : s.translate KERNEL_DIR = some (s.kernelTable KERNEL_DIR_ENTRY) :=
    h.structured.translate_table (i := KERNEL_DIR_ENTRY) (by decide) h.structured.self
  rw [getKernelEntry]
  refine yields_get_bind (yields_ok_bind (access_ok hself) (yields_get_bind ?_))
  refine yields_ite (fun _ => ?_) fun hne => ?_
  · refine yields_ite (fun _ => ?_) fun _ => yields_pure trivial
    exact (physMemAllocPage_frames false).bind fun _ _ _ => yields_modify_bind (yields_pure trivial)
  · have hready := h.structured.ready hpage hne
    refine yields_ok_bind (requirePresent_ok hready.present) ?_
    exact yields_ok_bind (check_ok (beq_iff_eq.mpr hready.avail)) (yields_pure trivial)

end

section

variable {slack : Nat → Nat} {P : Nat → ℤ} {s s' : Machine} {f page k : Nat}

theorem mapped_of_ne_zero (h : Structured s) (hpage : page < KERNEL_PAGE)
    (hne : s.kernel page ≠ .zero) :
    Mapped s none page := by
  intro hzero
  have hpresent := (ready_of_ne_zero h hpage hne).present
  rw [hzero] at hpresent
  cases hpresent

end

section

/-! A step of the kernel which has all it needs: only frames can be lacking. -/

variable {slack : Nat → Nat} {P : Nat → ℤ} {s s' s'' : Machine} {f page k : Nat}

structure Supplied (slack : Nat → Nat) (P : Nat → ℤ) (k : Nat) (s : Machine) : Prop where
  inv : Inv slack P s
  enabled : s.pagingEnabled = true
  room : Roomy k s

/-- The references to frames in use changed by `d`. -/
def Recounted (d : Nat → ℤ) (s s' : Machine) : Prop :=
  ∀ g, used s g = true → (refs s' g : ℤ) = refs s g + d g

theorem Recounted.of_steady (h : Steady s s') : Recounted 0 s s' := by
  intro g hg
  rw [h.refs g hg]
  simp

/-- One more reference is recorded for a frame. -/
theorem addRef_recounted {s₁ : Machine} (h : Inv slack P s) (henabled : s.pagingEnabled = true)
    (hf : f < PAGE_COUNT) (hused : used s f = true) (hle : refs s f ≤ 126)
    (hrecord : getPhysMemExtraInfo EXTRA_FUEL f true s = .ok (true, s₁)) :
    physMemAddRefPage f s =
        .ok (f, s₁.setInfo f { (s₁.extraInfo f).started with ref := refs s f + 1 }) ∧
      Recounted (due (some f)) s
        (s₁.setInfo f { (s₁.extraInfo f).started with ref := refs s f + 1 }) := by
  have hheld := held_of_record h henabled hf hused hrecord
  obtain ⟨-, hsteady, -⟩ :=
    (getPhysMemExtraInfo_proceeds h henabled hf (missing_lt s)).of_ok hrecord
  obtain ⟨P₁, h₁⟩ := hheld.inv
  have heq := physMemAddRefPage_of_record h₁.structured h₁.recorded hheld.record hheld.used hrecord
  rw [hheld.refs, if_neg (by omega)] at heq
  refine ⟨heq, fun g hg => ?_⟩
  rw [refs_setInfo, due]
  rcases eq_or_ne g f with rfl | hne
  · have hpresent := (started_spec h₁.recorded hheld.used).1
    have hinfo : { (s₁.extraInfo g).started with ref := refs s g + 1 } ≠ PhysMemExtraInfo.zero := by
      intro hzero
      have := congrArg PhysMemExtraInfo.present hzero
      rw [hpresent] at this
      cases this
    rw [if_pos rfl, if_pos hheld.used, if_neg hinfo, if_pos rfl]
    push_cast
    rfl
  · rw [if_neg hne, hsteady.refs g hg, if_neg fun heq => hne (Option.some.inj heq).symm, add_zero]

end

section

variable {slack : Nat → Nat} {P : Nat → ℤ} {s s' s'' : Machine} {f page k : Nat}

/-- An entry of the kernel as it is made for other frames than those of its tables. -/
def Releasable (e : PagingEntry) :
    Prop := e.isReserved = true ∨ e.present = true ∧ e.frame < PAGE_COUNT

theorem Releasable.ne_zero {e : PagingEntry} (h : Releasable e) : e ≠ .zero := by
  rintro rfl
  rcases h with h | h
  · cases h
  · cases h.1

theorem physMemReleasePage_frames (h : Inv slack (P + due (some f)) s) (hP : 0 ≤ P f)
    (henabled : s.pagingEnabled = true) (hf : f < PAGE_COUNT) {E : Stop → Prop} :
    Yields E (physMemReleasePage f) s fun _ s' =>
      Inv slack P s' ∧ SameTables s s' ∧ s'.pagingEnabled = true ∧
        Recounted (-due (some f)) s s' := by
  have hpos : refs s f ≠ 0 := by
    have hbalance := h.balance f
    simp only [Pi.add_apply, due, if_pos] at hbalance
    omega
  obtain ⟨r, hr⟩ := Nat.exists_eq_succ_of_ne_zero hpos
  obtain ⟨s', hok, hcounts⟩ := Counts.release ⟨h.structured, h.recorded, henabled, hr⟩ hf
  obtain ⟨h', hsame, -⟩ := (physMemReleasePage_spec h hP).of_ok hok
  have hdropped := Reallocations.physMemReleasePage_dropped h.recorded hok
  refine yields_of_ok hok ⟨h', hsame, hdropped.enabled.trans henabled, fun g _ => ?_⟩
  rw [Pi.neg_apply, due]
  rcases eq_or_ne g f with rfl | hne
  · rw [if_pos rfl, ← hdropped.refs]
    omega
  · rw [hdropped.others g hne, if_neg fun heq => hne (Option.some.inj heq).symm, neg_zero, add_zero]

theorem releaseEntry_frames (h : Inv slack P s) (hP : ∀ f, 0 ≤ P f)
    (henabled : s.pagingEnabled = true)
    (hpage : page < KERNEL_PAGE) (hfree : ¬Owned s page) (he : Releasable (s.kernel page))
    {E : Stop → Prop} :
    Yields E (releaseEntry none page (s.kernel page)) s fun _ s' =>
      Inv slack P s' ∧ Released (· = page) s s' ∧ s'.kernel page = .zero ∧ s'.pagingEnabled = true ∧
        Recounted (-due (named (s.kernel page))) s s' := by
  have hm := mapped_of_ne_zero h.structured hpage he.ne_zero
  have hspec := (releaseEntry_kernel h hP hpage hm hfree rfl).and
    (releaseEntry_clears h hP hpage hm hfree rfl)
  suffices hsuff : Yields E (releaseEntry none page (s.kernel page)) s fun _ s' =>
      s'.pagingEnabled = true ∧ Recounted (-due (named (s.kernel page))) s s' by
    refine (hsuff.also hspec).mono ?_
    rintro _ s' ⟨⟨henabled', hrefs⟩, ⟨h', hreleased⟩, hzero⟩
    exact ⟨h', hreleased, hzero, henabled', hrefs⟩
  have hset := h.setEntry (kernel_lt hpage) hm ⟨hpage, hfree⟩ .zero
  rw [named_zero, due_none, sub_zero, Machine.entry] at hset
  rw [releaseEntry]
  rcases he with hreserved | ⟨hpresent, hf⟩
  · obtain ⟨habsent, havail⟩ : (s.kernel page).present = false ∧
        (s.kernel page).avail = PAGING_AVAIL_NOTPRESENT_RESERVED := by
      simpa [PagingEntry.isReserved] using hreserved
    rw [habsent, if_neg (by simp), if_pos (Or.inl havail), named, habsent, if_neg (by simp),
      due_none, neg_zero]
    refine yields_of_ok (h.structured.storeEntry_ok (kernel_lt hpage) hm _) ⟨henabled, ?_⟩
    exact Recounted.of_steady (steady_setEntry _)
  · rw [named, if_pos hpresent] at hset ⊢
    rw [if_pos hpresent]
    refine yields_ok_bind (h.structured.storeEntry_ok (kernel_lt hpage) hm _) ?_
    refine (physMemReleasePage_frames hset (hP _) henabled hf).bind ?_
    rintro _ s' ⟨-, -, henabled', hrefs⟩
    refine yields_pure ⟨henabled', fun g hg => ?_⟩
    exact hrefs g hg

end

section

variable {slack : Nat → Nat} {P : Nat → ℤ} {s s' s'' : Machine} {f page k length cur addr : Nat}
  {E : Stop → Prop}

/-- The first page of an area is released and the loop goes on. -/
theorem releaseLoop_next {success : Bool} {Q : Bool → Machine → Prop} (h : Inv slack P s)
    (hP : ∀ f, 0 ≤ P f) (henabled : s.pagingEnabled = true) (hpage : pageOf cur < KERNEL_PAGE)
    (hfree : ¬Owned s (pageOf cur)) (he : Releasable (s.kernel (pageOf cur)))
    (hnext : ∀ s', Inv slack P s' → Released (· = pageOf cur) s s' →
      s'.kernel (pageOf cur) = .zero →
      s'.pagingEnabled = true → Recounted (-due (named (s.kernel (pageOf cur)))) s s' →
      Yields E (releaseLoop (fun e => e == .zero) none length (nextPage cur) success) s' Q) :
    Yields E (releaseLoop (fun e => e == .zero) none (length + 1) cur success) s Q := by
  have hm := mapped_of_ne_zero h.structured hpage he.ne_zero
  rw [releaseLoop]
  refine yields_ok_bind (getKernelEntry_mapped h.structured (pageOf_lt cur) hm false) ?_
  rw [if_pos rfl]
  refine yields_ok_bind (h.structured.loadEntry_ok (pageOf_lt cur) hm) ?_
  refine yields_ite (fun hzero => (he.ne_zero (beq_iff_eq.mp hzero)).elim) fun _ => ?_
  refine (releaseEntry_frames h hP henabled hpage hfree he).bind ?_
  rintro _ s' ⟨h', hreleased, hzero, henabled', hrefs⟩
  exact hnext s' h' hreleased hzero henabled' hrefs

theorem releaseLoop_frames {success : Bool} (h : Inv slack P s) (hP : ∀ f, 0 ≤ P f)
    (henabled : s.pagingEnabled = true) (hend : pageOf cur + length ≤ KERNEL_PAGE)
    (hpages : ∀ page, Span length cur page → ¬Owned s page ∧ Releasable (s.kernel page)) :
    Yields E (releaseLoop (fun e => e == .zero) none length cur success) s fun r _ =>
      r = success := by
  induction length generalizing s cur with
  | zero => exact yields_pure rfl
  | succ length ih =>
      obtain ⟨hfree, he⟩ := hpages (pageOf cur) (Or.inl rfl)
      have hsmall : length + 1 ≤ PAGE_COUNT := by
        simp only [KERNEL_PAGE, PAGE_COUNT] at *
        omega
      refine releaseLoop_next h hP henabled (by omega) hfree he fun s' h' hreleased _ henabled' _ =>
        ?_
      refine ih h' henabled' ?_ fun page hpage => ?_
      · rw [pageOf_nextPage_mod]
        have := Nat.mod_le (pageOf cur + 1) PAGE_COUNT
        omega
      · rw [hreleased.owned, hreleased.kernel page (span_ne hpage hsmall)]
        exact hpages page (Or.inr hpage)

theorem pagingReleasePhysMem_frames (h : Inv slack P s) (hP : ∀ f, 0 ≤ P f)
    (henabled : s.pagingEnabled = true) (hend : pageOf addr + length ≤ KERNEL_PAGE)
    (hpages : ∀ page, Span length addr page → ¬Owned s page ∧ Releasable (s.kernel page)) :
    Yields E (pagingReleasePhysMem none addr length) s fun _ _ => True := by
  rw [pagingReleasePhysMem]
  refine (releaseLoop_frames h hP henabled hend hpages).bind ?_
  rintro _ s' rfl
  exact yields_of_ok (check_ok rfl) trivial

end

section

/-! The copy of a frame needs two unused pages for a moment. -/

variable {slack : Nat → Nat} {P P' : Nat → ℤ} {s s' : Machine} {dst src pid page f k : Nat}

theorem Supplied.setTable {e : PagingEntry} (h : Supplied slack P k s)
    (hinv : Inv slack P' (s.setEntry (some pid) page e)) :
      Supplied slack P' k (s.setEntry (some pid) page e) :=
  ⟨hinv, h.enabled, h.room⟩

end

end Ibnos.KernelRoom
