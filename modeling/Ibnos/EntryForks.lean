import Ibnos.UserReleases

/-!
What a fork makes of each kind of entry. Entries which are not present are copied, but an
assertion behind the copy asks for a page which is present.
-/

namespace Ibnos.EntryForks

open Ibnos.AreaSearch
open Ibnos.FixedAllocations
open Ibnos.Forks
open Ibnos.FrameSupply
open Ibnos.KernelPages
open Ibnos.KernelRoom
open Ibnos.MappingFailures
open Ibnos.Memory
open Ibnos.Paging
open Ibnos.PagingOperations
open Ibnos.PagingRuns
open Ibnos.Physmem
open Ibnos.ProcessPages
open Ibnos.Programs
open Ibnos.Reallocations
open Ibnos.References
open Ibnos.SharedFrames (getProcessEntry_proceeds physMemAddRefPage_full physMemAddRefPage_proceeds
  not_recordable addRef_not_recordable Recordable)
open Ibnos.TableMappings
open Ibnos.UserAllocations
open Ibnos.UserReleases

section

variable {slack : Nat → Nat} {P : Nat → ℤ} {s s' : Machine} {destination source page f : Nat}
  {e : PagingEntry}

/-- The kinds of entries which there are. -/
def Defined (e : PagingEntry) : Prop :=
  e = .zero ∨
    e.present = true ∧ (e.avail = 0 ∨ e.avail = PAGING_AVAIL_PRESENT_SHARED ∨
      e.avail = PAGING_AVAIL_PRESENT_NO_FORK ∨ e.avail = PAGING_AVAIL_PRESENT_ON_WRITE_DUPLICATE) ∨
    e.present = false ∧ (e.avail = PAGING_AVAIL_NOTPRESENT_RESERVED ∨
      e.avail = PAGING_AVAIL_NOTPRESENT_ON_ACCESS_CREATE)

/-- What the parent keeps. A page which it can write is duplicated on write from now on. -/
def parentEntry (e : PagingEntry) : PagingEntry := if e.present then shared e else e

/-- What the child gets: the entry of the parent unless it is not to be forked. -/
def childEntry (e : PagingEntry) : PagingEntry :=
  if e.present = true ∧ e.avail = PAGING_AVAIL_PRESENT_NO_FORK then .zero else parentEntry e

/-- The child gets an entry which names the frame. -/
def Gives (e : PagingEntry) (f : Nat) : Prop :=
  e.present = true ∧ e.avail ≠ PAGING_AVAIL_PRESENT_NO_FORK ∧ e.frame = f

theorem parentEntry_zero : parentEntry .zero = .zero := rfl

theorem childEntry_zero : childEntry .zero = .zero := by
  decide

theorem refs_lt (h : Recorded s) (f : Nat) : refs s f < 2 ^ 7 := by
  rw [refs]
  split
  · rw [refCount]
    split
    · decide
    · next hne => exact (h.present f hne).2.2
  · decide

/-- A reference is added unless the counter is full. -/
theorem physMemAddRefPage_counts (h : Inv slack P s) (henabled : s.pagingEnabled = true)
    (hf : f < PAGE_COUNT) (hused : used s f = true) :
    Yields (fun e => Lack e ∨ 126 < refs s f) (physMemAddRefPage f) s fun _ s' =>
      refs s f ≤ 126 ∧ Inv slack (P + due (some f)) s' ∧ KernelGrows s s' ∧
        Recounted (due (some f)) s s' := by
  rcases Nat.lt_or_ge 126 (refs s f) with hfull | hle
  · refine yields_iff.mpr ⟨fun a s' hok => ?_, fun e _ => Or.inr hfull⟩
    exact (physMemAddRefPage_full h henabled hf hfull a s' hok).elim
  · rcases Classical.em (Recordable s f) with ⟨s₁, hrecord⟩ | hno
    · obtain ⟨heq, hrecounted⟩ := addRef_recounted h henabled hf hused hle hrecord
      obtain ⟨-, h', hg⟩ := (physMemAddRefPage_spec h hused).of_ok heq
      exact yields_of_ok heq ⟨hle, h', hg, hrecounted⟩
    · obtain ⟨e, hlack, he⟩ := not_recordable h henabled hf hno
      exact yields_of_error (addRef_not_recordable he) (Or.inl hlack)

end

section

variable {slack : Nat → Nat} {P : Nat → ℤ} {s s₁ s' : Machine} {destination source page f : Nat}
  {e : PagingEntry}

/-- A process and the one which is made from it. -/
structure Family (slack : Nat → Nat) (destination source : Nat) (s : Machine) : Prop where
  inv : Inv slack 0 s
  settled : Settled s
  ne : destination ≠ source
  parent : (s.process source).pageDirectory ≠ none
  child : (s.process destination).pageDirectory ≠ none

theorem contents_of_process {p q : Nat} (h : s'.process p = s.process p) :
    contents s' (some p) q = contents s (some p) q := by
  rw [contents, contents, h]

theorem Family.mapped (h : Family slack destination source s) (ht : Tabled s (some source) page) :
    Mapped s (some source) page :=
  h.settled.tables source h.parent _ nofun ht

/-- A page table for the child changes no entry. -/
theorem getPagingEntry_creates (h : Family slack destination source s) (hpage : page < PAGE_COUNT) :
    Proceeds (getPagingEntry (some destination) page true) s fun _ s' =>
      Family slack destination source s' ∧ Steady s s' ∧
        (∀ p q, contents s' (some p) q = contents s (some p) q) ∧
        Mapped s' (some destination) page ∧ Tabled s' (some destination) page := by
  have htable : (s.process destination).directory (page / PAGETABLE_COUNT) = .zero ∨
      Mapped s (some destination) page := by
    rcases eq_or_ne ((s.process destination).directory (page / PAGETABLE_COUNT)) .zero with hz | hz
    · exact Or.inl hz
    · exact Or.inr (h.settled.tables destination h.child _ nofun hz)
  have hproceeds := (getProcessEntry_proceeds h.inv zero_nonneg h.settled.enabled hpage h.child
    htable).also ((getPagingEntry_spec h.inv zero_nonneg hpage (some destination) true).and
      (Locality.getProcessEntry_aside h.inv zero_nonneg hpage true))
  refine yields_iff.mpr ⟨fun r s' hok => ?_, fun e he => hproceeds.of_error he⟩
  obtain ⟨hsteady, ⟨h', hg, hmapped, hr, -⟩, haside⟩ := hproceeds.of_ok hok
  have hfound := getPagingEntry_found (rooted_process _ destination)
    (fun hnone => by cases hnone) hok
  have hcontents : ∀ p q, contents s' (some p) q = contents s (some p) q := by
    intro p q
    rcases eq_or_ne p destination with rfl | hne
    · exact hfound.extended.contents q fun hnone => by cases hnone
    · exact contents_of_process (haside.process p hne)
  refine ⟨⟨h', ?_, h.ne, ?_, ?_⟩, hsteady, hcontents, hmapped (hr rfl), hfound.tabled (hr rfl)⟩
  · exact processClosed_settled.getPagingEntry (some destination) _ _ _ _ _ hok h.settled
  · rw [haside.process source h.ne.symm]
    exact h.parent
  · exact (h'.structured.table_present (hmapped (hr rfl))).1

/-- Both entries of a page are written. -/
def both (s : Machine) (destination source page : Nat) (e : PagingEntry) : Machine :=
  (s.setEntry (some source) page e).setEntry (some destination) page e

theorem contents_both (hne : destination ≠ source) (hs : Tabled s (some source) page)
    (hd : Tabled s (some destination) page) (p q : Nat) :
    contents (both s destination source page e) (some p) q =
      if q = page ∧ (p = source ∨ p = destination) then e else contents s (some p) q := by
  have hW : ∀ p, Within (some p) page := fun p hnone => by cases hnone
  have hd₁ : Tabled (s.setEntry (some source) page e) (some destination) page := by
    rw [Tabled, directoryEntry]
    change ((s.setProcess source _).process destination).directory _ ≠ _
    rw [setProcess_of_ne hne]
    exact hd
  rw [both]
  rcases eq_or_ne p destination with rfl | hp
  · rw [contents_setEntry (hW p) hd₁, contents_setEntry_other fun heq => hne (Option.some.inj heq)]
    simp
  · rw [contents_setEntry_other fun heq => hp (Option.some.inj heq)]
    rcases eq_or_ne p source with rfl | hp'
    · rw [contents_setEntry (hW p) hs]
      simp
    · rw [contents_setEntry_other fun heq => hp' (Option.some.inj heq), if_neg]
      rintro ⟨-, rfl | rfl⟩
      · exact hp' rfl
      · exact hp rfl

end

section

variable {slack : Nat → Nat} {s s₁ s' : Machine} {destination source page f : Nat} {e : PagingEntry}

instance : Decidable (Gives e f) := inferInstanceAs (Decidable (_ ∧ _ ∧ _))

theorem setEntry_same (h : s.entry (some source) page = e) :
    s.setEntry (some source) page e = s := by
  rw [← h]
  change s.setProcess source ((s.process source).setTable page ((s.process source).table page)) = s
  rw [Process.setTable, Function.update_eq_self, Machine.setProcess, Function.update_eq_self]

/-- What is left of a fork of an entry behind the two writes. -/
theorem forkEntry_both (h : Structured s) (hpage : page < PAGE_COUNT)
    (hms : Mapped s (some source) page) (hmd : Mapped s (some destination) page)
    (hentry : s.entry (some source) page = e)
    (havail : e.avail = 0 ∨ e.avail = PAGING_AVAIL_PRESENT_SHARED ∨
      e.avail = PAGING_AVAIL_PRESENT_ON_WRITE_DUPLICATE) :
    forkEntry destination source page e s =
      (physMemAddRefPage e.frame >>= fun _ => pure ())
        (both s destination source page (shared e)) := by
  rw [forkEntry]
  split
  · next hcow =>
    have hshared : shared e = SharedFrames.duplicated e := if_pos hcow
    have hstore := h.storeEntry_ok hpage hms (SharedFrames.duplicated e)
    have h₁ : Structured (s.setEntry (some source) page (SharedFrames.duplicated e)) :=
      h.setTable hms
    have hmd₁ : Mapped (s.setEntry (some source) page (SharedFrames.duplicated e))
      (some destination)
        page := extends_setTable.mapped _ _ hmd
    have hstore₁ := h₁.storeEntry_ok hpage hmd₁ (SharedFrames.duplicated e)
    rw [SharedFrames.duplicated] at hstore hstore₁
    rw [hshared, both, bind_apply, hstore]
    dsimp only
    rw [bind_apply, hstore₁]
    rfl
  · next hcow =>
    have hshared : shared e = e := if_neg hcow
    rw [hshared, both, setEntry_same hentry, bind_apply, h.storeEntry_ok hpage hmd]

end

section

variable {slack : Nat → Nat} {s s₁ s' : Machine} {destination source page f : Nat} {e : PagingEntry}

/-- The entries of one page were forked, and the frame of the page has one more reference if the
child has it too. -/
structure EntryForked (destination source page : Nat) (s s' : Machine) : Prop where
  parent : ∀ q, contents s' (some source) q =
    if q = page then parentEntry (contents s (some source) q) else contents s (some source) q
  child : ∀ q, contents s' (some destination) q =
    if q = page then childEntry (contents s (some source) q) else contents s (some destination) q
  others : ∀ p, p ≠ source → p ≠ destination → ∀ q, contents s' (some p) q = contents s (some p) q
  used : ∀ f, used s f = true → References.used s' f = true
  refs : ∀ f, References.used s f = true →
    refs s' f = References.refs s f + if Gives (contents s (some source) page) f then 1 else 0

/-- The page can be forked. -/
def Forkable (s : Machine) (source page : Nat) : Prop :=
  (contents s (some source) page = .zero ∨ (contents s (some source) page).present = true) ∧
    ∀ f, Gives (contents s (some source) page) f → refs s f ≤ 126

theorem entryForked_of_create (h : EntryForked destination source page s₁ s')
    (hsteady : Steady s s₁) (hcontents : ∀ p q, contents s₁ (some p) q = contents s (some p) q) :
    EntryForked destination source page s s' where
  parent q := by rw [h.parent, hcontents]
  child q := by rw [h.child, hcontents, hcontents]
  others p hp hp' q := by rw [h.others p hp hp', hcontents]
  used f hf := h.used f (hsteady.used f hf)
  refs f hf := by rw [h.refs f (hsteady.used f hf), hsteady.refs f hf, hcontents]

theorem parentEntry_of_present (hpresent : e.present = true) : parentEntry e = shared e := by
  rw [parentEntry, if_pos hpresent]

theorem childEntry_of_present (hpresent : e.present = true)
    (havail : e.avail ≠ PAGING_AVAIL_PRESENT_NO_FORK) : childEntry e = shared e := by
  rw [childEntry, if_neg fun hno => havail hno.2, parentEntry_of_present hpresent]

theorem gives_iff (hpresent : e.present = true) (havail : e.avail ≠ PAGING_AVAIL_PRESENT_NO_FORK) :
    Gives e f ↔ e.frame = f := by
  rw [Gives, and_iff_right hpresent, and_iff_right havail]

/-- One entry names the frame which is not counted yet. -/
theorem inv_both (h : Family slack destination source s) (hpage : page < PAGE_COUNT)
    (hms : Mapped s (some source) page) (hmd : Mapped s (some destination) page)
    (htd : Tabled s (some destination) page) (hzero : contents s (some destination) page = .zero)
    (hentry : s.entry (some source) page = e) (hpresent : e.present = true) :
    Inv slack (0 - due (some e.frame)) (both s destination source page (shared e)) := by
  have hinv : Inv slack 0 (s.setEntry (some source) page (shared e)) := by
    refine inv_setEntry_same h.inv hpage hms trivial ?_
    rw [hentry, named, named, shared_present, shared_frame]
  have hmd₁ : Mapped (s.setEntry (some source) page (shared e)) (some destination) page :=
    extends_setTable.mapped _ _ hmd
  have hentry₁ : (s.setEntry (some source) page (shared e)).entry (some destination) page =
    .zero := by
    rw [← hzero, contents_of_tabled htd]
    change ((s.setProcess source _).process destination).table page = _
    rw [setProcess_of_ne h.ne]
    rfl
  have hboth := hinv.setEntry hpage hmd₁ trivial (shared e)
  rwa [hentry₁, named_zero, due_none, add_zero, named, shared_present, if_pos hpresent,
    shared_frame]
    at hboth

/-- A page which the child shares with its parent. -/
theorem forkEntry_shares (h : Family slack destination source s) (hpage : page < PAGE_COUNT)
    (hts : Tabled s (some source) page) (hmd : Mapped s (some destination) page)
    (htd : Tabled s (some destination) page) (hzero : contents s (some destination) page = .zero)
    (he : contents s (some source) page = e) (hf : e.frame < PAGE_COUNT)
    (hpresent : e.present = true)
    (havail : e.avail = 0 ∨ e.avail = PAGING_AVAIL_PRESENT_SHARED ∨
      e.avail = PAGING_AVAIL_PRESENT_ON_WRITE_DUPLICATE) :
    Yields (fun err => Lack err ∨ 126 < refs s e.frame) (forkEntry destination source page e) s
      fun _ s' => refs s e.frame ≤ 126 ∧ Family slack destination source s' ∧
        EntryForked destination source page s s' := by
  have hms := h.mapped hts
  have hentry : s.entry (some source) page = e := by rw [← contents_of_tabled hts, he]
  have hnofork : e.avail ≠ PAGING_AVAIL_PRESENT_NO_FORK := by
    rintro hno
    rw [hno] at havail
    revert havail
    decide
  have hcontents := @contents_both s destination source page (shared e) h.ne hts htd
  have hinv₂ := inv_both h hpage hms hmd htd hzero hentry hpresent
  have hsteady : Steady s (both s destination source page (shared e)) :=
    (SharedFrames.steady_setEntry _).trans (SharedFrames.steady_setEntry _)
  have hsame : SameDirectories s (both s destination source page (shared e)) :=
    (closed_sameDirectories.setEntry (some source) page _ s () _ rfl).trans
      (closed_sameDirectories.setEntry (some destination) page _ _ () _ rfl)
  have hused : used s e.frame = true := by
    have := used_of_entry h.inv zero_nonneg hpage hms (by rwa [hentry])
    rwa [hentry] at this
  have hrefs : refs (both s destination source page (shared e)) e.frame = refs s e.frame :=
    hsteady.refs _ hused
  refine Yields.of_eq ?_ (forkEntry_both h.inv.structured hpage hms hmd hentry havail)
  refine ((physMemAddRefPage_counts hinv₂ (hsteady.enabled.trans h.settled.enabled) hf
    (hsteady.used _ hused)).excuse (by rw [hrefs]; exact fun _ he => he)).bind_of ?_
  rintro _ s' hok ⟨hle, hinv', hg, hrecounted⟩
  rw [hrefs] at hle
  rw [sub_add_cancel] at hinv'
  have hsame' := hsame.trans (closed_sameDirectories.physMemAddRefPage _ _ _ _ hok)
  refine yields_pure
    ⟨hle, ⟨hinv', hsame'.keepsSettled h.settled, h.ne, ?_, ?_⟩, fun q => ?_, fun q => ?_,
    fun p hp hp' q => ?_, fun f hf => hg.used f (hsteady.used f hf), fun f hf => ?_⟩
  · rw [hsame'.pageDirectory]
    exact h.parent
  · rw [hsame'.pageDirectory]
    exact h.child
  · rw [contents_of_process (congrFun hg.process _), hcontents]
    simp only [true_or, and_true]
    split
    · next heq => rw [heq, he, parentEntry_of_present hpresent]
    · rfl
  · rw [contents_of_process (congrFun hg.process _), hcontents]
    simp only [or_true, and_true]
    split
    · next heq => rw [heq, he, childEntry_of_present hpresent hnofork]
    · rfl
  · rw [contents_of_process (congrFun hg.process _), hcontents, if_neg]
    rintro ⟨-, heq | heq⟩
    · exact hp heq
    · exact hp' heq
  · have hcount := hrecounted f (hsteady.used f hf)
    rw [hsteady.refs f hf, due] at hcount
    simp only [he, gives_iff hpresent hnofork]
    split at hcount
    · next heq =>
      rw [if_pos (Option.some.inj heq)]
      exact_mod_cast hcount
    · next hne =>
      rw [if_neg fun heq => hne (congrArg some heq)]
      exact_mod_cast hcount

end

section

variable {slack : Nat → Nat} {s s₁ s' : Machine} {destination source page i : Nat} {e : PagingEntry}

theorem entryForked_same (hparent : parentEntry (contents s (some source) page) =
    contents s (some source) page) (hchild : childEntry (contents s (some source) page) =
      contents s (some destination) page) (hgives : ∀ f, ¬Gives (contents s (some source) page) f) :
    EntryForked destination source page s s where
  parent q := by
    split
    · next heq => rw [heq, hparent]
    · rfl
  child q := by
    split
    · next heq => rw [heq, hchild]
    · rfl
  others _ _ _ _ := rfl
  used _ hf := hf
  refs f _ := by rw [if_neg (hgives f), add_zero]

theorem forkEntry_noFork (havail : e.avail = PAGING_AVAIL_PRESENT_NO_FORK) :
    forkEntry destination source page e s = .ok ((), s) := by
  rw [forkEntry, havail, if_neg fun hcow => absurd hcow.1 (by decide), if_neg (by decide),
    if_pos rfl]
  rfl

/-- One page of the parent. -/
theorem forkPage_forks (h : Family slack destination source s) (hpage : page < PAGE_COUNT)
    (hts : Tabled s (some source) page) (hzero : contents s (some destination) page = .zero)
    (he : Defined (contents s (some source) page))
    (hf : (contents s (some source) page).frame < PAGE_COUNT) :
    Yields (fun err => Lack err ∨ ¬Forkable s source page) (forkPage destination source page) s
      fun _ s' => Forkable s source page ∧ Family slack destination source s' ∧
        EntryForked destination source page s s' := by
  rw [forkPage]
  refine yields_ok_bind (h.inv.structured.loadEntry_ok hpage (h.mapped hts)) ?_
  rw [← contents_of_tabled hts]
  generalize hentry : contents s (some source) page = e at *
  refine yields_ite (fun hez => yields_pure ?_) fun hne => ?_
  · have hgives : ∀ f, ¬Gives (contents s (some source) page) f := by
      rintro f ⟨hpresent, -⟩
      rw [hentry, hez] at hpresent
      cases hpresent
    refine ⟨⟨Or.inl (hentry.trans hez), fun f hf => (hgives f hf).elim⟩, h, ?_⟩
    refine entryForked_same ?_ ?_ hgives
    · rw [hentry, hez, parentEntry_zero]
    · rw [hentry, hez, childEntry_zero, hzero]
  · refine ((getPagingEntry_creates h hpage).excuse fun _ => Or.inl).bind ?_
    rintro _ s₁ ⟨h₁, hsteady, hcontents, hmd, htd⟩
    refine yields_ok_bind (h₁.inv.structured.loadEntry_ok hpage hmd) ?_
    have hzero₁ : contents s₁ (some destination) page = .zero := by rw [hcontents, hzero]
    have he₁ : contents s₁ (some source) page = e := by rw [hcontents, hentry]
    rw [← contents_of_tabled htd]
    refine yields_ok_bind (check_ok (beq_iff_eq.mpr hzero₁)) ?_
    refine yields_ite (fun hpresent => ?_) fun habsent => ?_
    · have hused : used s e.frame = true := by
        have := used_of_entry h.inv zero_nonneg hpage (h.mapped hts)
          (by rwa [← contents_of_tabled hts, hentry])
        rwa [← contents_of_tabled hts, hentry] at this
      have hforkable : Forkable s source page ↔ ∀ f, Gives e f → refs s f ≤ 126 := by
        rw [Forkable, hentry]
        exact and_iff_right (Or.inr hpresent)
      rcases he with hez | ⟨-, havail⟩ | ⟨hno, -⟩
      · exact (hne hez).elim
      · rcases eq_or_ne e.avail PAGING_AVAIL_PRESENT_NO_FORK with hno | hfork
        · refine yields_of_ok (forkEntry_noFork hno) ⟨hforkable.mpr fun f hgives => ?_, h₁, ?_⟩
          · exact (hgives.2.1 hno).elim
          · refine entryForked_of_create (entryForked_same ?_ ?_ ?_) hsteady hcontents
            · rw [he₁, parentEntry_of_present hpresent, shared, if_neg]
              rintro ⟨hprivate, -⟩
              rw [hno] at hprivate
              cases hprivate
            · rw [he₁, hzero₁, childEntry, if_pos ⟨hpresent, hno⟩]
            · rw [he₁]
              exact fun f hgives => hgives.2.1 hno
        · have hts₁ : Tabled s₁ (some source) page := by
            by_contra hnone
            have hez := rooted_process s₁ source page (fun hnone => by cases hnone) hnone
            exact hne (he₁.symm.trans hez)
          have hrefs := hsteady.refs _ hused
          refine ((forkEntry_shares h₁ hpage hts₁ hmd htd hzero₁ he₁ hf hpresent ?_).excuse ?_).mono
            ?_
          · rcases havail with havail | havail | havail | havail
            · exact Or.inl havail
            · exact Or.inr (Or.inl havail)
            · exact (hfork havail).elim
            · exact Or.inr (Or.inr havail)
          · rintro err (hlack | hfull)
            · exact Or.inl hlack
            · refine Or.inr fun hforks => ?_
              have hle := hforkable.mp hforks e.frame ((gives_iff hpresent hfork).mpr rfl)
              omega
          · rintro _ s' ⟨hle, h', hforked⟩
            refine ⟨hforkable.mpr fun f hgives => ?_, h',
              entryForked_of_create hforked hsteady hcontents⟩
            rw [← (gives_iff hpresent hfork).mp hgives, ← hrefs]
            exact hle
      · rw [hpresent] at hno
        cases hno
    · have hnot : ¬Forkable s source page := by
        rintro ⟨hez | hpresent, -⟩
        · exact hne (hentry.symm.trans hez)
        · exact habsent (hentry ▸ hpresent)
      refine yields_iff.mpr ⟨fun a s' hok => ?_, fun _ _ => Or.inr hnot⟩
      have hstop : Steps (requirePresent e) s₁ fun _ _ => False :=
        steps_requirePresent fun hpresent => habsent hpresent
      exact (hstop.of_ok hok).elim

end

section

variable {slack : Nat → Nat} {s s₁ s' : Machine} {destination source page i j f : Nat}

/-- The pages from `i` on with which the child gets a frame. -/
def given (s : Machine) (source i f : Nat) : Set Nat :=
  {page | i ≤ page ∧ page < PAGE_COUNT ∧ Gives (contents s (some source) page) f}

/-- All pages from `i` on can be forked. -/
def AllForkable (s : Machine) (source i : Nat) : Prop :=
  (∀ page, i ≤ page → page < PAGE_COUNT →
    contents s (some source) page = .zero ∨ (contents s (some source) page).present = true) ∧
  ∀ f, refs s f + (given s source i f).ncard ≤ 127

/-- The pages from `i` on were forked. -/
structure ForkedFrom (destination source i : Nat) (s s' : Machine) : Prop where
  parent : ∀ q, q < PAGE_COUNT → contents s' (some source) q =
    if i ≤ q then parentEntry (contents s (some source) q) else contents s (some source) q
  child : ∀ q, q < PAGE_COUNT → contents s' (some destination) q =
    if i ≤ q then childEntry (contents s (some source) q) else contents s (some destination) q
  others : ∀ p, p ≠ source → p ≠ destination → ∀ q, contents s' (some p) q = contents s (some p) q
  refs : ∀ f, used s f = true → refs s' f = References.refs s f + (given s source i f).ncard

theorem given_finite : (given s source i f).Finite :=
  (Set.finite_lt_nat PAGE_COUNT).subset fun _ hpage => hpage.2.1

theorem given_succ (hi : i < PAGE_COUNT) : (given s source i f).ncard =
    (given s source (i + 1) f).ncard + if Gives (contents s (some source) i) f then 1 else 0 := by
  split
  · next hgives =>
    have hinsert : given s source i f = insert i (given s source (i + 1) f) := by
      ext page
      rw [Set.mem_insert_iff]
      constructor
      · rintro ⟨hle, hrest⟩
        rcases Nat.eq_or_lt_of_le hle with rfl | hlt
        · exact Or.inl rfl
        · exact Or.inr ⟨hlt, hrest⟩
      · rintro (rfl | ⟨hle, hrest⟩)
        · exact ⟨le_rfl, hi, hgives⟩
        · exact ⟨Nat.le_of_succ_le hle, hrest⟩
    have hnot : i ∉ given s source (i + 1) f := fun hmem => Nat.lt_irrefl i hmem.1
    rw [hinsert, Set.ncard_insert_of_notMem hnot given_finite]
  · next hno =>
    have hsame : given s source i f = given s source (i + 1) f := by
      ext page
      constructor
      · rintro ⟨hle, hlt, hgives⟩
        refine ⟨Nat.lt_of_le_of_ne hle ?_, hlt, hgives⟩
        rintro rfl
        exact hno hgives
      · rintro ⟨hle, hrest⟩
        exact ⟨Nat.le_of_succ_le hle, hrest⟩
    rw [hsame, add_zero]

/-- Pages without an entry give nothing. -/
theorem given_skip (hij : i ≤ j)
    (hzero : ∀ page, i ≤ page → page < j → contents s (some source) page = .zero) :
    given s source i f = given s source j f := by
  ext page
  constructor
  · rintro ⟨hle, hlt, hgives⟩
    refine ⟨?_, hlt, hgives⟩
    rw [← not_lt]
    intro hj
    have hpresent := hgives.1
    rw [hzero page hle hj] at hpresent
    cases hpresent
  · rintro ⟨hle, hrest⟩
    exact ⟨hij.trans hle, hrest⟩

theorem given_congr
    (hsame : ∀ q, q ≠ i → contents s₁ (some source) q = contents s (some source) q) :
    given s₁ source (i + 1) f = given s source (i + 1) f := by
  ext page
  refine and_congr_right fun hle => and_congr_right fun _ => ?_
  rw [hsame page (by omega)]

/-- Every frame which is given is in use. -/
theorem used_of_given (h : Inv slack 0 s) (hs : Settled s)
    (hdir : (s.process source).pageDirectory ≠ none)
    (hpage : page ∈ given s source i f) : used s f = true := by
  obtain ⟨-, hlt, hpresent, -, hframe⟩ := hpage
  have ht : Tabled s (some source) page := by
    by_contra hno
    rw [rooted_process s source page (fun hnone => by cases hnone) hno] at hpresent
    cases hpresent
  have hm := hs.tables source hdir _ nofun ht
  rw [contents_of_tabled ht] at hpresent hframe
  rw [← hframe]
  exact used_of_entry h zero_nonneg hlt hm hpresent

theorem allForkable_skip (hij : i ≤ j)
    (hzero : ∀ page, i ≤ page → page < j → contents s (some source) page = .zero) :
    AllForkable s source i ↔ AllForkable s source j := by
  refine and_congr ?_ (forall_congr' fun f => by rw [given_skip hij hzero])
  constructor
  · intro hall page hle hlt
    exact hall page (hij.trans hle) hlt
  · intro hall page hle hlt
    rcases Nat.lt_or_ge page j with hj | hj
    · exact Or.inl (hzero page hle hj)
    · exact hall page hj hlt

theorem allForkable_step (h : Family slack destination source s) (h₁ : Inv slack 0 s₁)
    (hi : i < PAGE_COUNT)
    (hforked : EntryForked destination source i s s₁) (hforkable : Forkable s source i) :
    AllForkable s source i ↔ AllForkable s₁ source (i + 1) := by
  have hsame : ∀ q, q ≠ i → contents s₁ (some source) q = contents s (some source) q := by
    intro q hq
    rw [hforked.parent, if_neg hq]
  constructor
  · rintro ⟨hall, hlimit⟩
    refine ⟨fun page hle hlt => ?_, fun f => ?_⟩
    · rw [hsame page (by omega)]
      exact hall page (by omega) hlt
    · rcases hused : used s f with _ | _
      · have hempty : given s source (i + 1) f = ∅ := by
          refine Set.eq_empty_of_forall_notMem fun page hpage => ?_
          rw [used_of_given h.inv h.settled h.parent hpage] at hused
          cases hused
        have hlt := refs_lt h₁.recorded f
        rw [given_congr hsame, hempty, Set.ncard_empty]
        omega
      · have hle := hlimit f
        rw [given_succ hi] at hle
        rw [hforked.refs f hused, given_congr hsame]
        omega
  · rintro ⟨hall, hlimit⟩
    refine ⟨fun page hle hlt => ?_, fun f => ?_⟩
    · rcases eq_or_ne page i with rfl | hne
      · exact hforkable.1
      · rw [← hsame page hne]
        exact hall page (by omega) hlt
    · rcases hused : used s f with _ | _
      · have hempty : given s source i f = ∅ := by
          refine Set.eq_empty_of_forall_notMem fun page hpage => ?_
          rw [used_of_given h.inv h.settled h.parent hpage] at hused
          cases hused
        have hlt := refs_lt h.inv.recorded f
        rw [hempty, Set.ncard_empty]
        omega
      · have hle := hlimit f
        rw [hforked.refs f hused, given_congr hsame] at hle
        rw [given_succ hi]
        omega

theorem AllForkable.here (h : AllForkable s source i) (hi : i < PAGE_COUNT) :
    Forkable s source i := by
  refine ⟨h.1 i le_rfl hi, fun f hgives => ?_⟩
  have hle := h.2 f
  rw [given_succ hi, if_pos hgives] at hle
  omega

end

section

variable {slack : Nat → Nat} {s s₁ s' : Machine} {destination source page i j f rounds : Nat}

theorem forkedFrom_skip (h : ForkedFrom destination source j s s') (hij : i ≤ j)
    (hzero : ∀ page, i ≤ page → page < j → contents s (some source) page = .zero)
    (hempty : ∀ page, i ≤ page → page < PAGE_COUNT → contents s (some destination) page = .zero) :
    ForkedFrom destination source i s s' where
  parent q hq := by
    rw [h.parent q hq]
    rcases Nat.lt_or_ge q i with hi | hi
    · rw [if_neg (by omega), if_neg (by omega)]
    · rw [if_pos hi]
      split
      · rfl
      · rw [hzero q hi (by omega), parentEntry_zero]
  child q hq := by
    rw [h.child q hq]
    rcases Nat.lt_or_ge q i with hi | hi
    · rw [if_neg (by omega), if_neg (by omega)]
    · rw [if_pos hi]
      split
      · rfl
      · rw [hzero q hi (by omega), hempty q hi hq, childEntry_zero]
  others := h.others
  refs f hf := by rw [h.refs f hf, given_skip hij hzero]

theorem forkedFrom_step (hi : i < PAGE_COUNT) (hforked : EntryForked destination source i s s₁)
    (h : ForkedFrom destination source (i + 1) s₁ s') : ForkedFrom destination source i s s' where
  parent q hq := by
    rw [h.parent q hq, hforked.parent]
    rcases eq_or_ne q i with rfl | hne
    · rw [if_neg (by omega), if_pos rfl, if_pos le_rfl]
    · rw [if_neg hne]
      exact if_congr (by omega) rfl rfl
  child q hq := by
    rw [h.child q hq, hforked.child, hforked.parent]
    rcases eq_or_ne q i with rfl | hne
    · rw [if_neg (by omega), if_pos rfl, if_pos le_rfl]
    · rw [if_neg hne, if_neg hne]
      exact if_congr (by omega) rfl rfl
  others p hp hp' q := by rw [h.others p hp hp', hforked.others p hp hp']
  refs f hf := by
    have hsame : ∀ q, q ≠ i → contents s₁ (some source) q = contents s (some source) q := by
      intro q hq
      rw [hforked.parent, if_neg hq]
    rw [h.refs f (hforked.used f hf), hforked.refs f hf, given_congr hsame, given_succ hi]
    omega

/-- No page is left. -/
theorem forked_end (h : Family slack destination source s) (hi : PAGE_COUNT ≤ i) :
    AllForkable s source i ∧ Family slack destination source s ∧
      ForkedFrom destination source i s s := by
  have hnone : ∀ f, given s source i f = ∅ := by
    intro f
    refine Set.eq_empty_of_forall_notMem fun page hpage => ?_
    exact absurd (hpage.1.trans_lt hpage.2.1) (by omega)
  refine ⟨⟨fun page hle hlt => by omega, fun f => ?_⟩, h, fun q hq => ?_, fun q hq => ?_,
    fun _ _ _ _ => rfl, fun f _ => ?_⟩
  · have hlt := refs_lt h.inv.recorded f
    rw [hnone, Set.ncard_empty]
    omega
  · rw [if_neg (by omega)]
  · rw [if_neg (by omega)]
  · rw [hnone, Set.ncard_empty, add_zero]

/-- The loop over all pages of the parent from `i` on. -/
theorem forkLoop_forks (h : Family slack destination source s) (hrounds : PAGE_COUNT ≤ i + rounds)
    (hempty : ∀ page, i ≤ page → page < PAGE_COUNT → contents s (some destination) page = .zero)
    (hkinds : ∀ page, i ≤ page → page < PAGE_COUNT → Defined (contents s (some source) page) ∧
      (contents s (some source) page).frame < PAGE_COUNT) :
    Yields (fun err => Lack err ∨ ¬AllForkable s source i)
      (pagesLoop (some source) (forkPage destination source) rounds i) s fun _ s' =>
        AllForkable s source i ∧ Family slack destination source s' ∧
          ForkedFrom destination source i s s' := by
  induction rounds generalizing s i with
  | zero => exact yields_pure (forked_end h hrounds)
  | succ rounds ih =>
      rw [pagesLoop]
      refine yields_ite (fun hi => ?_) fun hi => yields_pure (forked_end h (by omega))
      have halive : Alive s (some source) := by
        rintro _ ⟨⟩
        exact h.parent
      obtain ⟨r, hentry, htrue, hfalse⟩ := getPagingEntry_reads h.inv.structured h.settled halive hi
      refine yields_ok_bind hentry ?_
      rcases r with _ | _
      · -- the table is missing, and all of its pages are skipped
        have hmask : i ≤ i ||| 0x3FF := Nat.left_le_or
        have hzero : ∀ page, i ≤ page → page < (i ||| 0x3FF) + 1 →
            contents s (some source) page = .zero := by
          intro page hle hlt
          refine rooted_process s source page (fun hnone => by cases hnone) ?_
          have htable : page / PAGETABLE_COUNT = i / PAGETABLE_COUNT := by
            rw [or_mask] at hlt
            simp only [PAGETABLE_COUNT]
            omega
          rw [Tabled, htable]
          exact hfalse rfl
        have hiff := allForkable_skip (Nat.le_succ_of_le hmask) hzero
        refine ((ih h (by omega) (fun page hle => hempty page (by omega)) fun page hle =>
          hkinds page (by omega)).excuse ?_).mono ?_
        · rw [hiff]
          exact fun _ he => he
        · rintro _ s' ⟨hall, h', hforked⟩
          exact ⟨hiff.mpr hall, h', forkedFrom_skip hforked (Nat.le_succ_of_le hmask) hzero hempty⟩
      · obtain ⟨hdefined, hframe⟩ := hkinds i le_rfl hi
        refine ((forkPage_forks h hi (htrue rfl).1 (hempty i le_rfl hi) hdefined hframe).excuse
          ?_).bind ?_
        · rintro e (hlack | hno)
          · exact Or.inl hlack
          · exact Or.inr fun hall => hno (hall.here hi)
        · rintro _ s₁ ⟨hforkable, h₁, hforked⟩
          have hiff := allForkable_step h h₁.inv hi hforked hforkable
          have hempty₁ : ∀ page, i + 1 ≤ page → page < PAGE_COUNT →
              contents s₁ (some destination) page = .zero := by
            intro page hle hlt
            rw [hforked.child, if_neg (by omega)]
            exact hempty page (by omega) hlt
          have hkinds₁ : ∀ page, i + 1 ≤ page → page < PAGE_COUNT →
              Defined (contents s₁ (some source) page) ∧
                (contents s₁ (some source) page).frame < PAGE_COUNT := by
            intro page hle hlt
            rw [hforked.parent, if_neg (by omega)]
            exact hkinds page (by omega) hlt
          refine ((ih h₁ (by omega) hempty₁ hkinds₁).excuse ?_).mono ?_
          · rw [hiff]
            exact fun _ he => he
          · rintro _ s' ⟨hall, h', hforked'⟩
            exact ⟨hiff.mpr hall, h', forkedFrom_step hi hforked hforked'⟩

end

section

variable {slack : Nat → Nat} {s s₁ s' : Machine} {destination source page i : Nat}

theorem allForkable_congr (h : Usable slack source s) (h₁ : Inv slack 0 s₁)
    (hcontents : ∀ q, contents s₁ (some source) q = contents s (some source) q)
    (hrefs : ∀ f, used s f = true → refs s₁ f = refs s f) :
    AllForkable s₁ source i ↔ AllForkable s source i := by
  have hgiven : ∀ f, given s₁ source i f = given s source i f := by
    intro f
    simp only [given, hcontents]
  have hlimit : ∀ f, refs s₁ f + (given s₁ source i f).ncard ≤ 127 ↔
      refs s f + (given s source i f).ncard ≤ 127 := by
    intro f
    rw [hgiven]
    rcases hused : used s f with _ | _
    · have hempty : given s source i f = ∅ := by
        refine Set.eq_empty_of_forall_notMem fun page hpage => ?_
        rw [used_of_given h.inv h.settled h.directory hpage] at hused
        cases hused
      have hlt := refs_lt h.inv.recorded f
      have hlt₁ := refs_lt h₁.recorded f
      rw [hempty, Set.ncard_empty]
      omega
    · rw [hrefs f hused]
  rw [AllForkable, AllForkable]
  simp only [hcontents, hlimit]

/-- The child gets an address space without pages. -/
theorem setPageDirectory_family {addr : Nat} (h : Usable slack source s)
    (hnone : (s.process destination).pageDirectory = none)
    (hok : pagingAllocatePhysMem none 1 true false s = .ok (addr, s₁)) (hsteady : Steady s s₁) :
    Family slack destination source (Machine.setPageDirectory s₁ destination addr) ∧
      Steady s (Machine.setPageDirectory s₁ destination addr) ∧
      (∀ p, p ≠ destination → ∀ q, contents (Machine.setPageDirectory s₁ destination addr)
        (some p) q =
        contents s (some p) q) ∧
      ∀ q, contents (Machine.setPageDirectory s₁ destination addr) (some destination) q =
        .zero := by
  obtain ⟨h₁, hg, -, -, hend, hfilled⟩ := (allocatePhysMem_kernel h.inv 1 true false).of_ok hok
  have hfilled := hfilled (pageOf addr) le_rfl (by omega)
  have hne : destination ≠ source := by
    rintro rfl
    exact h.directory hnone
  have hother : ∀ p, p ≠ destination →
      (Machine.setPageDirectory s₁ destination addr).process p = s.process p := by
    intro p hp
    rw [← hg.process]
    exact setProcess_of_ne hp
  have hself : (Machine.setPageDirectory s₁ destination addr).process destination =
      { s₁.process destination with
        pageDirectory := some (pageOf addr), pageTables := fun _ => none, directory :=
          fun _ => .zero,
        directoryFrame := (s₁.kernel (pageOf addr)).frame } := Function.update_self _ _ _
  refine ⟨⟨inv_setPageDirectory h₁ (by rw [hg.process]; exact hnone) (by omega) hfilled, ?_,
    hne, ?_, ?_⟩,
    hsteady.trans (steady_of_eq rfl rfl rfl), fun p hp q => contents_of_process (hother p hp),
      fun q => ?_⟩
  · exact settled_setPageDirectory _ _ _
      (processClosed_settled.pagingAllocatePhysMem _ _ _ _ _ _ _ hok h.settled)
  · rw [hother source hne.symm]
    exact h.directory
  · rw [hself]
    exact nofun
  · rw [contents, hself, if_pos rfl]

/-- Every kind of entry becomes what it is to become, and each frame gets one reference for each
entry which the child has of it. -/
def ForksEntries (s : Machine) (destination source : Nat) : Prop :=
  ∃ s', pagingForkProcessPageTable destination source s = .ok ((), s') ∧
    (∀ q, q < PAGE_COUNT →
      contents s' (some source) q = parentEntry (contents s (some source) q) ∧
      contents s' (some destination) q = childEntry (contents s (some source) q)) ∧
    (∀ p, p ≠ source → p ≠ destination → ∀ q, contents s' (some p) q = contents s (some p) q) ∧
    ∀ f, used s f = true → refs s' f = refs s f + (given s source 0 f).ncard

theorem pagingForkProcessPageTable_forks (h : Usable slack source s)
    (hnone : (s.process destination).pageDirectory = none)
    (hkinds : ∀ page, page < PAGE_COUNT → Defined (contents s (some source) page) ∧
      (contents s (some source) page).frame < PAGE_COUNT) :
    Yields (fun err => Lack err ∨ ¬AllForkable s source 0)
      (pagingForkProcessPageTable destination source) s fun _ s' =>
        AllForkable s source 0 ∧ ForkedFrom destination source 0 s s' := by
  rw [pagingForkProcessPageTable]
  refine yields_get_bind (yields_ok_bind (check_ok h.settled.enabled) (yields_get_bind ?_))
  refine yields_ok_bind (check_ok (Option.isSome_iff_ne_none.mpr h.directory)) (yields_get_bind ?_)
  refine yields_ok_bind (check_ok (Option.isNone_iff_eq_none.mpr hnone)) ?_
  refine ((allocatePhysMem_proceeds h.inv true false).excuse fun _ => Or.inl).bind_of ?_
  rintro addr s₁ hok ⟨hsteady, -⟩
  obtain ⟨h₂, hsteady₂, hcontents, hempty⟩ := setPageDirectory_family h hnone hok hsteady
  have hsource := hcontents source h₂.ne.symm
  have hiff := @allForkable_congr slack s _ source 0 h h₂.inv hsource hsteady₂.refs
  have hgiven : ∀ f, given (Machine.setPageDirectory s₁ destination addr) source 0 f =
      given s source 0 f := by
    intro f
    simp only [given, hsource]
  refine yields_modify_bind ?_
  refine ((forkLoop_forks h₂ (by omega) (fun page _ _ => hempty page) fun page _ hlt => ?_).excuse
    ?_).mono ?_
  · rw [hsource]
    exact hkinds page hlt
  · rw [hiff]
    exact fun _ he => he
  · rintro _ s' ⟨hall, -, hforked⟩
    refine ⟨hiff.mp hall, fun q hq => ?_, fun q hq => ?_, fun p hp hp' q => ?_, fun f hf => ?_⟩
    · rw [hforked.parent q hq, hsource]
    · rw [hforked.child q hq, if_pos (Nat.zero_le q), if_pos (Nat.zero_le q), hsource]
    · rw [hforked.others p hp hp', hcontents p hp']
    · rw [hforked.refs f (hsteady₂.used f hf), hsteady₂.refs f hf, hgiven]

/-- Reserved pages and pages which are created on access stop a fork, and so does a frame which has
no reference left. -/
theorem entry_fork_iff (h : Usable slack source s)
    (hnone : (s.process destination).pageDirectory = none)
    (hkinds : ∀ page, page < PAGE_COUNT → Defined (contents s (some source) page) ∧
      (contents s (some source) page).frame < PAGE_COUNT)
    (hfresh : ∀ e, pagingForkProcessPageTable destination source s = .error e → ¬Lack e) :
    ForksEntries s destination source ↔
      (∀ page, page < PAGE_COUNT →
        contents s (some source) page = .zero ∨ (contents s (some source) page).present = true) ∧
      ∀ f, refs s f + (given s source 0 f).ncard ≤ 127 := by
  have hrun := @pagingForkProcessPageTable_forks slack s destination source h hnone hkinds
  have hall : AllForkable s source 0 ↔ (∀ page, page < PAGE_COUNT →
      contents s (some source) page = .zero ∨ (contents s (some source) page).present = true) ∧
      ∀ f, refs s f + (given s source 0 f).ncard ≤ 127 :=
    and_congr_left fun _ => ⟨fun hpages page hlt => hpages page (Nat.zero_le _) hlt,
      fun hpages page _ hlt => hpages page hlt⟩
  rw [← hall]
  constructor
  · rintro ⟨s', hok, -⟩
    exact (hrun.of_ok hok).1
  · intro hforkable
    rcases hm : pagingForkProcessPageTable destination source s with e | ⟨_, s'⟩
    · rcases hrun.of_error hm with hlack | hno
      · exact (hfresh e hm hlack).elim
      · exact (hno hforkable).elim
    · obtain ⟨-, hforked⟩ := hrun.of_ok hm
      refine ⟨s', hm, fun q hq => ⟨?_, ?_⟩, hforked.others, hforked.refs⟩
      · exact (hforked.parent q hq).trans (if_pos (Nat.zero_le q))
      · exact (hforked.child q hq).trans (if_pos (Nat.zero_le q))

end

section

/-! A process with two pages, and the same with a reserved page between them. -/

variable {s : Machine}

/-- All pages are described by the first page table, and they are private or reserved. -/
def kindFacts (s : Machine) : Bool :=
  (s.process 0).pageDirectory.isSome && (s.process 1).pageDirectory.isNone &&
    (s.process 0).directory 0 != .zero &&
    (List.range PAGETABLE_COUNT).all (fun i => i == 0 || (s.process 0).directory i == .zero) &&
    (List.range PAGETABLE_COUNT).all fun page =>
      decide (((s.process 0).table page).frame < PAGE_COUNT) &&
      ((s.process 0).table page == .zero ||
        ((s.process 0).table page).present && ((s.process 0).table page).avail == 0 ||
        !((s.process 0).table page).present &&
          ((s.process 0).table page).avail == PAGING_AVAIL_NOTPRESENT_RESERVED)

structure Sample (s : Machine) : Prop where
  source : (s.process 0).pageDirectory ≠ none
  destination : (s.process 1).pageDirectory = none
  entry : ∀ page, page < PAGETABLE_COUNT → contents s (some 0) page = (s.process 0).table page
  kinds : ∀ page, page < PAGE_COUNT → Defined (contents s (some 0) page) ∧
    (contents s (some 0) page).frame < PAGE_COUNT

theorem sample_of_facts (hfacts : kindFacts s = true) : Sample s := by
  simp only [kindFacts, Bool.and_eq_true, Bool.or_eq_true, Bool.not_eq_true', beq_iff_eq,
    bne_iff_ne,
    decide_eq_true_eq, List.all_eq_true, List.mem_range] at hfacts
  obtain ⟨⟨⟨⟨hsource, hdestination⟩, htable⟩, hdirs⟩, htables⟩ := hfacts
  have hentry : ∀ page, page < PAGETABLE_COUNT →
    contents s (some 0) page = (s.process 0).table page := by
    intro page hpage
    refine contents_of_tabled ?_
    rw [Tabled, Nat.div_eq_of_lt hpage]
    exact htable
  refine ⟨Option.isSome_iff_ne_none.mp hsource, Option.isNone_iff_eq_none.mp hdestination, hentry,
    fun page hpage => ?_⟩
  rcases Nat.lt_or_ge page PAGETABLE_COUNT with hlt | hge
  · obtain ⟨hframe, (hzero | ⟨hpresent, havail⟩) | ⟨habsent, havail⟩⟩ := htables page hlt
    · rw [hentry page hlt]
      exact ⟨Or.inl hzero, hframe⟩
    · rw [hentry page hlt]
      exact ⟨Or.inr (Or.inl ⟨hpresent, Or.inl havail⟩), hframe⟩
    · rw [hentry page hlt]
      exact ⟨Or.inr (Or.inr ⟨habsent, Or.inl havail⟩), hframe⟩
  · have hzero : contents s (some 0) page = .zero := by
      refine rooted_process s 0 page (fun hnone => by cases hnone) (not_not.mpr ?_)
      refine (hdirs (page / PAGETABLE_COUNT) ?_).resolve_left ?_
      all_goals
        simp only [PAGE_COUNT, PAGETABLE_COUNT] at *
        omega
    rw [hzero]
    exact ⟨Or.inl rfl, by decide⟩

def forkFacts (s : Machine) : Bool :=
  kindFacts s && ((s.process 0).table 1).present && (pagingForkProcessPageTable 1 0 s).isOk &&
    match pagingReserveArea (some 0) true 1 0x2000 s with
    | .ok (_, s') => kindFacts s' && ((s'.process 0).table 2).isReserved &&
        match pagingForkProcessPageTable 1 0 s' with
        | .error .assertion => true
        | _ => false
    | _ => false

theorem fork_facts : ((pagingInit [] sampleMachine).toOption.bind fun r =>
    (Runs.run next r.2 hole).toOption.map fun r => forkFacts r.1) = some true := by
  decide +kernel

theorem exists_forkable : ∃ s, Reached s ∧ forkFacts s = true := by
  obtain ⟨⟨_, s₀⟩, hinit, hfacts⟩ := Option.bind_eq_some_iff.mp fork_facts
  obtain ⟨⟨s, answers⟩, hrun, hfacts⟩ := Option.map_eq_some_iff.mp hfacts
  exact ⟨s, reached_hole (Runs.toOption_eq_some hinit) (Runs.toOption_eq_some hrun), hfacts⟩

theorem entry_fork_hole :
    ∃ s, Reached s ∧ (contents s (some 0) 1).present = true ∧ ForksEntries s 1 0 := by
  obtain ⟨s, hs, hfacts⟩ := exists_forkable
  simp only [forkFacts, Bool.and_eq_true] at hfacts
  obtain ⟨⟨⟨hkinds, hpresent⟩, hrun⟩, -⟩ := hfacts
  have hsample := sample_of_facts hkinds
  obtain ⟨slack, hinv, -⟩ := hs.inv
  have h : Usable slack 0 s := ⟨hinv, TableMappings.Reached.settled hs, hsample.source⟩
  rcases hm : pagingForkProcessPageTable 1 0 s with e | ⟨_, s'⟩
  · rw [hm] at hrun
    cases hrun
  · have hfresh : ∀ e, pagingForkProcessPageTable 1 0 s = .error e → ¬Lack e := by
      intro e he
      rw [hm] at he
      cases he
    have hforkable :=
      ((pagingForkProcessPageTable_forks h hsample.destination hsample.kinds).of_ok hm).1
    refine ⟨s, hs, by rwa [hsample.entry 1 (by decide)], ?_⟩
    refine (entry_fork_iff h hsample.destination hsample.kinds hfresh).mpr ⟨fun page hpage => ?_,
      hforkable.2⟩
    exact hforkable.1 page (Nat.zero_le page) hpage

/-- A process with a reserved page cannot be forked. -/
theorem entry_fork_reserved : ∃ slack s, Usable slack 0 s ∧ (s.process 1).pageDirectory = none ∧
    (∀ page, page < PAGE_COUNT → Defined (contents s (some 0) page)) ∧
    (contents s (some 0) 2).isReserved = true ∧
    pagingForkProcessPageTable 1 0 s = .error .assertion ∧ ¬ForksEntries s 1 0 := by
  obtain ⟨s, hs, hfacts⟩ := exists_forkable
  simp only [forkFacts, Bool.and_eq_true] at hfacts
  obtain ⟨⟨⟨hkinds, -⟩, -⟩, hreserve⟩ := hfacts
  obtain ⟨slack, hinv, -⟩ := hs.inv
  rcases hm : pagingReserveArea (some 0) true 1 0x2000 s with e | ⟨_, s'⟩
  · rw [hm] at hreserve
    cases hreserve
  · rw [hm] at hreserve
    simp only [Bool.and_eq_true] at hreserve
    obtain ⟨⟨hkinds', hreserved⟩, hfork⟩ := hreserve
    have hsample := sample_of_facts hkinds'
    have hreserves := @pagingReserveArea_spec slack s (some 0) true 1 0x2000 hinv fun hnone => by
      cases hnone
    have hinv' := (hreserves.of_ok hm).1.inv
    have hsettled : Settled s' := processClosed_settled.pagingReserveArea _ _ _ _ _ _ _ hm
      (TableMappings.Reached.settled hs)
    have hstop : pagingForkProcessPageTable 1 0 s' = .error .assertion := by
      split at hfork
      · assumption
      · cases hfork
    refine ⟨slack, s', ⟨hinv', hsettled, hsample.source⟩, hsample.destination,
      fun page hpage => (hsample.kinds page hpage).1, ?_, hstop, ?_⟩
    · rwa [hsample.entry 2 (by decide)]
    · rintro ⟨s'', hok, -⟩
      rw [hstop] at hok
      cases hok

end

end Ibnos.EntryForks
