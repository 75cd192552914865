import Ibnos.UserAllocations

/-!
Memory which a process gives back. Both arguments are chosen by the process, and the
range may run around the address space and across pages of the system.
-/

namespace Ibnos.UserReleases

open Ibnos.AreaSearch
open Ibnos.FixedAllocations
open Ibnos.KernelPages
open Ibnos.KernelRoom
open Ibnos.MappingFailures
open Ibnos.Memory
open Ibnos.Paging
open Ibnos.PagingOperations
open Ibnos.PagingRuns
open Ibnos.Physmem
open Ibnos.ProcessPages
open Ibnos.Programs
open Ibnos.Reallocations
open Ibnos.References
open Ibnos.Runs
open Ibnos.SharedFrames
open Ibnos.TableMappings
open Ibnos.UserAllocations

section

variable {slack : Nat → Nat} {s s₁ s' : Machine} {pid length cur f : Nat} {success : Bool}

/-- Nothing is reserved or created on access, and every frame number has 20 bits. -/
structure Plain (s : Machine) (pid : Nat) : Prop where
  present : ∀ page, page < PAGE_COUNT → contents s (some pid) page ≠ .zero →
    (contents s (some pid) page).present = true
  frame : ∀ page, page < PAGE_COUNT → (contents s (some pid) page).frame < PAGE_COUNT

/-- The page is mapped, and the process may use it. -/
def Accessible (s : Machine) (pid page : Nat) : Prop :=
  contents s (some pid) page ≠ .zero ∧ (contents s (some pid) page).user = true

/-- One page was unmapped, which gives one reference of its frame back. -/
structure Unmapped (s s' : Machine) (pid page : Nat) : Prop where
  here : ∀ q, contents s' (some pid) q = if q = page then .zero else contents s (some pid) q
  others : ∀ p, p ≠ some pid → ∀ q, contents s' p q = contents s p q
  refs : ∀ f, refs s' f + (if (contents s (some pid) page).frame = f then 1 else 0) = refs s f

theorem contents_setEntry_other {page : Nat} {e : PagingEntry} {p : Option Nat} (hp : p ≠ some pid)
    (q : Nat) : contents (s.setEntry (some pid) page e) p q = contents s p q := by
  cases p with
  | none => rfl
  | some pid' =>
      have hne : pid' ≠ pid := fun heq => hp (congrArg some heq)
      have hprocess : (s.setEntry (some pid) page e).process pid' = s.process pid' :=
        Function.update_of_ne hne _ _
      rw [contents, contents, hprocess]

theorem plain_unmapped {page : Nat} (h : Plain s pid) (hu : Unmapped s s' pid page) :
    Plain s' pid := by
  constructor
  · intro q hq hne
    rw [hu.here] at hne ⊢
    split at hne
    · exact (hne rfl).elim
    · next hother =>
      rw [if_neg hother]
      exact h.present q hq hne
  · intro q hq
    rw [hu.here]
    split
    · decide
    · exact h.frame q hq

theorem accessible_unmapped {page q : Nat} (hu : Unmapped s s' pid page) :
    Accessible s' pid q ↔ Accessible s pid q ∧ q ≠ page := by
  rw [Accessible, Accessible, hu.here]
  split
  · next heq => exact iff_of_false (fun hacc => hacc.1 rfl) fun hacc => hacc.2 heq
  · next hne => exact (and_iff_left hne).symm

/-- A page which is accessible is unmapped. -/
theorem releaseEntry_unmapped (h : Usable slack pid s) (hplain : Plain s pid) {page : Nat}
    (hpage : page < PAGE_COUNT) (ht : Tabled s (some pid) page) (hm : Mapped s (some pid) page)
    (hacc : Accessible s pid page) {E : Stop → Prop} :
    Yields E (releaseEntry (some pid) page (contents s (some pid) page)) s fun _ s' =>
      Usable slack pid s' ∧ Unmapped s s' pid page := by
  have hpresent := hplain.present page hpage hacc.1
  have hentry := contents_of_tabled ht
  rw [releaseEntry, if_pos hpresent]
  refine yields_ok_bind (h.inv.structured.storeEntry_ok hpage hm .zero) ?_
  have hsame : SameDirectories s (s.setEntry (some pid) page .zero) :=
    closed_sameDirectories.setEntry (some pid) page _ s () _ rfl
  have hinv := h.inv.setEntry hpage hm trivial .zero
  rw [← hentry, named, if_pos hpresent, named, if_neg (by rintro ⟨⟩), due_none, sub_zero] at hinv
  refine ((physMemReleasePage_frames hinv le_rfl (hsame.enabled.trans h.settled.enabled)
    (hplain.frame page hpage)).bind_of fun n s' hok hs' => yields_pure ?_)
  obtain ⟨hinv', -⟩ := hs'
  have hsame' := closed_sameDirectories.physMemReleasePage _ _ _ _ hok
  have hdropped := physMemReleasePage_dropped (recorded_setEntry h.inv.recorded) hok
  have hW : Within (some pid) page := fun hnone => by cases hnone
  refine ⟨⟨hinv', hsame'.keepsSettled (hsame.keepsSettled h.settled), ?_⟩, fun q => ?_,
    fun p hp q => ?_,
    fun f => ?_⟩
  · rw [hsame'.pageDirectory pid, hsame.pageDirectory pid]
    exact h.directory
  · rw [contents_congr hdropped.kernel hdropped.process, contents_setEntry hW ht]
  · rw [contents_congr hdropped.kernel hdropped.process, contents_setEntry_other hp]
  · split
    · next heq => rw [← heq, hdropped.refs, refs_setEntry]
    · next hne => rw [hdropped.others f (Ne.symm hne), refs_setEntry, add_zero]

/-- The pages among those visited which lose a frame. -/
def lost (s : Machine) (pid length cur f : Nat) : Set Nat :=
  {page | Span length cur page ∧ Accessible s pid page ∧ (contents s (some pid) page).frame = f}

/-- Exactly the accessible pages among those visited were unmapped. -/
structure Released (s s' : Machine) (pid length cur : Nat) : Prop where
  unmapped : ∀ page, Span length cur page → Accessible s pid page →
    contents s' (some pid) page = .zero
  same : ∀ page, ¬(Span length cur page ∧ Accessible s pid page) →
    contents s' (some pid) page = contents s (some pid) page
  others : ∀ p, p ≠ some pid → ∀ page, contents s' p page = contents s p page
  refs : ∀ f, refs s' f + (lost s pid length cur f).ncard = refs s f

theorem span_lt {page : Nat} (h : Span length cur page) : page < PAGE_COUNT := by
  obtain ⟨j, -, rfl⟩ := span_iff_mod.mp h
  exact Nat.mod_lt _ (by decide)

theorem lost_finite : (lost s pid length cur f).Finite :=
  (Set.finite_lt_nat PAGE_COUNT).subset fun _ hpage => span_lt hpage.1

/-- Every page is visited when there are that many rounds. -/
theorem span_of_le {page : Nat} (hlength : PAGE_COUNT ≤ length) (hpage : page < PAGE_COUNT) :
    Span length cur page := by
  have hlt := pageOf_lt cur
  refine span_iff_mod.mpr ⟨(page + PAGE_COUNT - pageOf cur) % PAGE_COUNT, ?_, ?_⟩
  · exact (Nat.mod_lt _ (by decide)).trans_le hlength
  · simp only [PAGE_COUNT] at *
    omega

theorem released_skip (hacc : ¬Accessible s pid (pageOf cur))
    (h : Released s s' pid length (nextPage cur)) : Released s s' pid (length + 1) cur := by
  have hspan : ∀ page, Accessible s pid page → Span (length + 1) cur page →
      Span length (nextPage cur) page := by
    rintro page hpage (rfl | hspan)
    · exact (hacc hpage).elim
    · exact hspan
  have hlost : ∀ f, lost s pid (length + 1) cur f = lost s pid length (nextPage cur) f := by
    intro f
    ext page
    constructor
    · rintro ⟨hvisited, hpage, hframe⟩
      exact ⟨hspan page hpage hvisited, hpage, hframe⟩
    · rintro ⟨hvisited, hrest⟩
      exact ⟨Or.inr hvisited, hrest⟩
  refine ⟨fun page hvisited hpage => h.unmapped page (hspan page hpage hvisited) hpage,
    fun page hpage => h.same page fun hboth => hpage ⟨Or.inr hboth.1, hboth.2⟩, h.others,
      fun f => ?_⟩
  rw [hlost]
  exact h.refs f

theorem released_unmapped (hacc : Accessible s pid (pageOf cur))
    (hu : Unmapped s s₁ pid (pageOf cur))
    (h : Released s₁ s' pid length (nextPage cur)) : Released s s' pid (length + 1) cur := by
  have hzero : contents s' (some pid) (pageOf cur) = .zero := by
    rw [h.same _ fun hboth => ((accessible_unmapped hu).mp hboth.2).2 rfl, hu.here, if_pos rfl]
  have hlost : ∀ f, lost s₁ pid length (nextPage cur) f = lost s pid (length + 1) cur f \
    {pageOf cur} := by
    intro f
    ext page
    constructor
    · rintro ⟨hvisited, hpage, hframe⟩
      obtain ⟨hpage', hne⟩ := (accessible_unmapped hu).mp hpage
      rw [hu.here, if_neg hne] at hframe
      exact ⟨⟨Or.inr hvisited, hpage', hframe⟩, hne⟩
    · rintro ⟨⟨hvisited, hpage, hframe⟩, hnot⟩
      have hne : page ≠ pageOf cur := hnot
      refine ⟨hvisited.resolve_left hne, (accessible_unmapped hu).mpr ⟨hpage, hne⟩, ?_⟩
      rwa [hu.here, if_neg hne]
  refine ⟨fun page hvisited hpage => ?_, fun page hpage => ?_, fun p hp page => ?_, fun f => ?_⟩
  · rcases eq_or_ne page (pageOf cur) with rfl | hne
    · exact hzero
    · exact h.unmapped page (hvisited.resolve_left hne) ((accessible_unmapped hu).mpr ⟨hpage, hne⟩)
  · have hne : page ≠ pageOf cur := by
      rintro rfl
      exact hpage ⟨Or.inl rfl, hacc⟩
    rw [h.same page fun hboth => hpage ⟨Or.inr hboth.1, ((accessible_unmapped hu).mp hboth.2).1⟩,
      hu.here, if_neg hne]
  · rw [h.others p hp, hu.others p hp]
  · have hrefs := h.refs f
    rw [hlost] at hrefs
    rw [← hu.refs f, ← hrefs]
    split
    · next hframe =>
      have hmem : pageOf cur ∈ lost s pid (length + 1) cur f := ⟨Or.inl rfl, hacc, hframe⟩
      rw [← Set.ncard_sdiff_singleton_add_one hmem lost_finite, add_assoc]
    · next hframe =>
      have hnot : pageOf cur ∉ lost s pid (length + 1) cur f := fun hmem => hframe hmem.2.2
      rw [Set.sdiff_singleton_eq_self hnot, add_zero]

/-- Since the first page is never mapped, a loop which succeeds visits no page twice. -/
theorem releaseLoop_released (h : Usable slack pid s) (hplain : Plain s pid)
    (hfirst : contents s (some pid) 0 = .zero) {E : Stop → Prop} :
    Yields E (releaseLoop (fun e => e == .zero || !e.user) (some pid) length cur success) s
      fun r s' =>
      Released s s' pid length cur ∧
        (r = true ↔ success = true ∧ ∀ page, Span length cur page → Accessible s pid page) := by
  induction length generalizing s cur success with
  | zero =>
      refine yields_pure
        ⟨⟨fun _ hspan => hspan.elim, fun _ _ => rfl, fun _ _ _ => rfl, fun f => ?_⟩, ?_⟩
      · have hlost : lost s pid 0 cur f = ∅ := Set.eq_empty_of_forall_notMem fun _ hpage => hpage.1
        rw [hlost, Set.ncard_empty, add_zero]
      · exact (and_iff_left fun _ hspan => hspan.elim).symm
  | succ length ih =>
      have hskip : ¬Accessible s pid (pageOf cur) →
          Yields E (releaseLoop (fun e => e == .zero || !e.user) (some pid) length
            (nextPage cur) false) s
            fun r s' => Released s s' pid (length + 1) cur ∧
              (r = true ↔ success = true ∧ ∀ page, Span (length + 1) cur page →
                Accessible s pid page) := by
        intro hacc
        refine (ih h hplain hfirst).mono fun r s' hs' => ⟨released_skip hacc hs'.1, ?_⟩
        refine iff_of_false (fun hr => ?_) fun hall => hacc (hall.2 _ (Or.inl rfl))
        cases (hs'.2.mp hr).1
      have halive : Alive s (some pid) := by
        rintro _ ⟨⟩
        exact h.directory
      obtain ⟨r, hentry, htrue, hfalse⟩ := getPagingEntry_reads h.inv.structured h.settled halive
        (pageOf_lt cur)
      rw [releaseLoop]
      refine yields_ok_bind hentry ?_
      rcases r with _ | _
      · have hmissing := rooted_process s pid (pageOf cur) (fun hnone => by cases hnone)
          (hfalse rfl)
        exact hskip fun hacc => hacc.1 hmissing
      · obtain ⟨ht, hload⟩ := htrue rfl
        refine yields_ok_bind hload ?_
        refine yields_ite (fun hcond => hskip fun hacc => ?_) fun hcond => ?_
        · rw [Bool.or_eq_true, beq_iff_eq, Bool.not_eq_true'] at hcond
          rcases hcond with hzero | huser
          · exact hacc.1 hzero
          · rw [hacc.2] at huser
            cases huser
        · rw [Bool.or_eq_true, not_or, beq_iff_eq, Bool.not_eq_true', Bool.not_eq_false] at hcond
          have hm : Mapped s (some pid) (pageOf cur) :=
            h.settled.tables pid h.directory _ (by simp) ht
          refine (releaseEntry_unmapped h hplain (pageOf_lt cur) ht hm hcond).bind fun _ s₁ hs₁ =>
            ?_
          obtain ⟨h₁, hu⟩ := hs₁
          have hfirst₁ : contents s₁ (some pid) 0 = .zero := by
            rw [hu.here, hfirst, ite_self]
          refine (ih h₁ (plain_unmapped hplain hu) hfirst₁).mono fun r s' hs' => ?_
          refine ⟨released_unmapped hcond hu hs'.1, hs'.2.trans (and_congr_right fun _ => ?_)⟩
          constructor
          · rintro hall page (rfl | hspan)
            · exact hcond
            · exact ((accessible_unmapped hu).mp (hall page hspan)).1
          · intro hall page hspan
            have hlength : length + 1 ≤ PAGE_COUNT := by
              rw [← not_lt]
              intro hlong
              exact (hall 0 (Or.inr (span_of_le (by omega) (by decide)))).1 hfirst
            exact (accessible_unmapped hu).mpr ⟨hall page (Or.inr hspan), span_ne hspan hlength⟩

/-- Pages of the system are neither unmapped nor changed. -/
theorem user_release_exact (h : Usable slack pid s) (hplain : Plain s pid)
    (hfirst : contents s (some pid) 0 = .zero) (addr length : BitVec 32) :
    ∃ r s', pagingTryReleaseUserMem (some pid) addr.toNat length.toNat s = .ok (r, s') ∧
      Released s s' pid length.toNat addr.toNat ∧
      (r = true ↔ ∀ page, Span length.toNat addr.toNat page → Accessible s pid page) := by
  have hloop := @releaseLoop_released slack s pid length.toNat addr.toNat true h hplain hfirst
    (fun _ => False)
  rcases hrun : pagingTryReleaseUserMem (some pid) addr.toNat length.toNat s with e | ⟨r, s'⟩
  · exact (hloop.of_error hrun).elim
  · obtain ⟨hreleased, hresult⟩ := hloop.of_ok hrun
    exact ⟨r, s', rfl, hreleased, hresult.trans (and_iff_right rfl)⟩

end

section

/-! A process which gives back more pages than it has. -/

variable {s : Machine}

/-- The page at 0x1000, the unused one behind it and the page at 0x3000, all described by
one page table. -/
def plainFacts (s : Machine) : Bool :=
  (s.process 0).pageDirectory.isSome && (s.process 0).table 1 != .zero &&
    ((s.process 0).table 1).user &&
    (s.process 0).table 2 == .zero && (s.process 0).directory 0 != .zero &&
      (s.process 0).table 0 == .zero &&
    (List.range PAGETABLE_COUNT).all (fun i => i == 0 || (s.process 0).directory i == .zero) &&
    (List.range PAGETABLE_COUNT).all fun page =>
      ((s.process 0).table page == .zero || ((s.process 0).table page).present) &&
        decide (((s.process 0).table page).frame < PAGE_COUNT)

theorem plain_facts : ((pagingInit [] sampleMachine).toOption.bind fun r =>
    (run next r.2 hole).toOption.map fun r => plainFacts r.1) = some true := by
  decide +kernel

theorem exists_plain : ∃ s, Reached s ∧ plainFacts s = true := by
  obtain ⟨⟨_, s₀⟩, hinit, hfacts⟩ := Option.bind_eq_some_iff.mp plain_facts
  obtain ⟨⟨s, answers⟩, hrun, hfacts⟩ := Option.map_eq_some_iff.mp hfacts
  exact ⟨s, reached_hole (toOption_eq_some hinit) (toOption_eq_some hrun), hfacts⟩

theorem plain_of_facts
    (hdirs : ∀ i, i < PAGETABLE_COUNT → i = 0 ∨ (s.process 0).directory i = .zero)
    (htables : ∀ page, page < PAGETABLE_COUNT →
      ((s.process 0).table page = .zero ∨ ((s.process 0).table page).present = true) ∧
        ((s.process 0).table page).frame < PAGE_COUNT) : Plain s 0 := by
  have hcontents : ∀ page, page < PAGE_COUNT → contents s (some 0) page = .zero ∨
      page < PAGETABLE_COUNT ∧ contents s (some 0) page = (s.process 0).table page := by
    intro page hpage
    rcases Classical.em (Tabled s (some 0) page) with ht | ht
    · refine Or.inr ⟨?_, contents_of_tabled ht⟩
      rcases hdirs (page / PAGETABLE_COUNT) (by simp only [PAGE_COUNT, PAGETABLE_COUNT] at *; omega)
        with hdir | hdir
      · simp only [PAGETABLE_COUNT] at *
        omega
      · exact (ht hdir).elim
    · exact Or.inl (rooted_process s 0 page (fun hnone => by cases hnone) ht)
  constructor
  · intro page hpage hne
    rcases hcontents page hpage with hzero | ⟨hlt, heq⟩
    · exact (hne hzero).elim
    · rw [heq] at hne ⊢
      exact (htables page hlt).1.resolve_left hne
  · intro page hpage
    rcases hcontents page hpage with hzero | ⟨hlt, heq⟩
    · rw [hzero]
      decide
    · rw [heq]
      exact (htables page hlt).2

theorem user_release_exact_hole : ∃ s r s', Reached s ∧ Accessible s 0 1 ∧ ¬Accessible s 0 2 ∧
    pagingTryReleaseUserMem (some 0) 0x1000 2 s = .ok (r, s') ∧ Released s s' 0 2 0x1000 ∧
      r = false := by
  obtain ⟨s, hs, hfacts⟩ := exists_plain
  simp only [plainFacts, Bool.and_eq_true, Bool.or_eq_true, beq_iff_eq, bne_iff_ne,
    decide_eq_true_eq,
    List.all_eq_true, List.mem_range] at hfacts
  obtain ⟨⟨⟨⟨⟨⟨⟨hdir, hone⟩, huser⟩, htwo⟩, htable⟩, hzero⟩, hdirs⟩, htables⟩ := hfacts
  have hentry : ∀ page, page < PAGETABLE_COUNT →
    contents s (some 0) page = (s.process 0).table page := by
    intro page hpage
    refine contents_of_tabled ?_
    rw [Tabled, Nat.div_eq_of_lt hpage]
    exact htable
  obtain ⟨slack, hinv, -⟩ := hs.inv
  have h : Usable slack 0 s :=
    ⟨hinv, TableMappings.Reached.settled hs, Option.isSome_iff_ne_none.mp hdir⟩
  have hacc₁ : Accessible s 0 1 := by
    rw [Accessible, hentry 1 (by decide)]
    exact ⟨hone, huser⟩
  have hacc₂ : ¬Accessible s 0 2 := by
    rw [Accessible, hentry 2 (by decide), htwo]
    exact fun hacc => hacc.1 rfl
  obtain ⟨r, s', hok, hreleased, hresult⟩ := user_release_exact h (plain_of_facts hdirs htables)
    ((hentry 0 (by decide)).trans hzero) 0x1000 2
  refine ⟨s, r, s', hs, hacc₁, hacc₂, hok, hreleased, Bool.eq_false_iff.mpr fun hr => ?_⟩
  have hspan : Span 2 0x1000 2 := span_iff_mod.mpr ⟨1, by decide, by rw [pageOf]; rfl⟩
  exact hacc₂ (hresult.mp hr 2 hspan)

end

end Ibnos.UserReleases
