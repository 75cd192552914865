import Ibnos.SharedFrames

/-!
A process is duplicated. The child gets the pages of its parent, and those which
can be written are not copied before one of the two writes to them.
-/

namespace Ibnos.Forks

open Ibnos.Memory
open Ibnos.Physmem
open Ibnos.Paging
open Ibnos.Programs
open Ibnos.References
open Ibnos.KernelPages
open Ibnos.ProcessPages
open Ibnos.PagingOperations

section

/-! The loop over all pages of a process. -/

variable {slack : Nat → Nat} {s s' : Machine} {pid page i : Nat}

theorem getProcessEntry_missing (h : Inv slack 0 s) (hpage : page < PAGE_COUNT) :
    Steps (getProcessEntry pid page false) s fun r _ =>
      r = false → (s.process pid).directory (page / PAGETABLE_COUNT) = .zero := by
  rw [getProcessEntry]
  refine yields_get_bind (steps_check_bind fun _ => accessDirectory_steps h.structured fun hdir =>
    yields_get_bind ?_)
  refine yields_ite (fun hzero => yields_ite (by simp) fun _ => yields_pure fun _ => hzero) fun _ =>
    ?_
  refine steps_requirePresent_bind fun hpresent => steps_check_bind fun _ => ?_
  exact (mapPageTable_spec h zero_nonneg hdir (table_lt hpage) hpresent).bind fun _ _ _ =>
    yields_pure (by simp)

theorem mapping_of_missing (hzero : (s.process pid).directory (page / PAGETABLE_COUNT) = .zero) :
    mapping s pid page = none := by
  simp [mapping, hzero, PagingEntry.zero]

/-- `I i` holds before the page `i` is looked at. -/
theorem pagesLoop_spec {I : Nat → Machine → Prop} {body : Nat → M Unit} {rounds : Nat}
    (hinv : ∀ i s, I i s → Inv slack 0 s)
    (hentry : ∀ i s, i < PAGE_COUNT → I i s →
      Steps (getProcessEntry pid i false) s fun _ s' => I i s')
    (hskip : ∀ i j s, I i s → i ≤ j →
      (∀ page, i ≤ page → page < j → mapping s pid page = none) → I j s)
    (hbody : ∀ i s, i < PAGE_COUNT → I i s → Mapped s (some pid) i →
      Steps (body i) s fun _ s' => I (i + 1) s')
    (hrounds : PAGE_COUNT ≤ i + rounds) (h : I i s) :
    Steps (pagesLoop (some pid) body rounds i) s fun _ s' => ∃ j, PAGE_COUNT ≤ j ∧ I j s' := by
  induction rounds generalizing s i with
  | zero => exact yields_pure ⟨i, hrounds, h⟩
  | succ rounds ih =>
      rw [pagesLoop]
      refine yields_ite (fun hi => ?_) fun hi => yields_pure ⟨i, by omega, h⟩
      refine ((hentry i s hi h).and ((getProcessEntry_spec (hinv i s h) zero_nonneg hi false).and
        (getProcessEntry_missing (hinv i s h) hi))).bind ?_
      rintro r s₁ ⟨hI, ⟨-, hg, hmapped, -⟩, hmissing⟩
      refine yields_ite (fun hr => ?_) fun hr => ?_
      · refine (hbody i s₁ hi hI (hmapped hr)).bind fun _ s₂ hI₂ => ?_
        exact ih (by omega) hI₂
      · -- all pages of the table are skipped at once
        have hzero := hmissing (by simpa using hr)
        have hmask := or_mask i
        refine ih (by omega) (hskip i _ s₁ hI (by omega) fun page hle hlt => ?_)
        rw [hg.mapping]
        refine mapping_of_missing ?_
        rw [← hzero]
        congr 1
        simp only [PAGETABLE_COUNT]
        omega

end

section

variable {slack : Nat → Nat} {s s' s'' : Machine} {pid source page : Nat} {e : PagingEntry}

/-- No contents are touched, and no frame which is in use is freed or becomes a table. -/
structure Undisturbed (s s' : Machine) : Prop where
  memory : s'.memory = s.memory
  used : ∀ f, used s f = true → References.used s' f = true
  holds : ∀ f, s'.holdsTable f = true → s.holdsTable f = true ∨ References.used s f = false
  extends' : Extends s s'

theorem Undisturbed.refl (s : Machine) : Undisturbed s s :=
  ⟨rfl, fun _ h => h, fun _ h => Or.inl h, Extends.refl s⟩

theorem Undisturbed.trans (h : Undisturbed s s') (h' : Undisturbed s' s'') :
    Undisturbed s s'' := by
  refine ⟨h'.memory.trans h.memory, fun f hf => h'.used f (h.used f hf), fun f hf => ?_,
    h.extends'.trans h'.extends'⟩
  rcases h'.holds f hf with hf | hf
  · exact h.holds f hf
  · refine Or.inr (Bool.eq_false_iff.mpr fun hused => ?_)
    rw [h.used f hused] at hf
    cases hf

theorem undisturbed_of_grows (hg : Grows s s') : Undisturbed s s' :=
  ⟨hg.memory, hg.used, hg.holds, hg.extends⟩

theorem undisturbed_setTable : Undisturbed s (s.setEntry (some pid) page e) :=
  ⟨memory_setEntry, fun f hf => by rwa [used_setEntry], fun f hf => by
    rw [holdsTable_setEntry] at hf
    exact Or.inl hf, extends_setTable⟩

/-- An entry which is 0 becomes one more which names a frame. -/
theorem share_spec (h : Inv slack 0 s) (hpage : page < PAGE_COUNT) (hm : Mapped s (some pid) page)
    (hzero : s.entry (some pid) page = .zero) (hpresent : e.present = true)
    (hused : used s e.frame = true) :
    Steps (do
      storeEntry (some pid) page e
      let _ ← physMemAddRefPage e.frame
      return ()) s fun _ s' =>
        Inv slack 0 s' ∧ KernelGrows (s.setEntry (some pid) page e) s' := by
  have hinv := h.setEntry hpage hm trivial e
  have hnamed : named e = some e.frame := if_pos hpresent
  rw [hzero, named_zero, due_none, hnamed, add_zero] at hinv
  refine yields_ok_bind (h.structured.storeEntry_ok hpage hm e) ?_
  refine (physMemAddRefPage_spec hinv (by rw [used_setEntry]; exact hused)).bind ?_
  rintro _ s' ⟨-, h', hg⟩
  rw [sub_add_cancel] at h'
  exact yields_pure ⟨h', hg⟩

/-- What becomes of a present entry of the parent. -/
def shared (e : PagingEntry) : PagingEntry :=
  if e.avail = 0 ∧ e.rw = true then SharedFrames.duplicated e else e

/-- What the child gets for a present entry of the parent. -/
def inherited (e : PagingEntry) : Option PagingEntry :=
  if e.avail = PAGING_AVAIL_PRESENT_NO_FORK then none else some (shared e)

@[simp] theorem shared_present : (shared e).present = e.present := by
  rw [shared]
  split <;> rfl

@[simp] theorem shared_frame : (shared e).frame = e.frame := by
  rw [shared]
  split <;> rfl

@[simp] theorem shared_user : (shared e).user = e.user := by
  rw [shared]
  split <;> rfl

/-- Both entries for one page after it was duplicated. -/
structure PageForked (slack : Nat → Nat) (destination source page : Nat) (s s' : Machine) : Prop
    where
  inv : Inv slack 0 s'
  undisturbed : Undisturbed s s'
  parent : mapping s' source page = (mapping s source page).map shared
  child : mapping s' destination page =
    if mapping s source page = none then mapping s destination page
    else (mapping s source page).bind inherited
  other : ∀ q page', ¬((q = source ∨ q = destination) ∧ page' = page) →
    mapping s' q page' = mapping s q page'

theorem PageForked.of_grows {destination : Nat} {s₀ : Machine} (hg : Grows s₀ s)
    (h : PageForked slack destination source page s s') :
    PageForked slack destination source page s₀ s' := by
  refine ⟨h.inv, (undisturbed_of_grows hg).trans h.undisturbed, ?_, ?_, fun q page' hne => ?_⟩
  · rw [h.parent, hg.mapping]
  · rw [h.child, hg.mapping, hg.mapping]
  · rw [h.other q page' hne, hg.mapping]

end

section

variable {slack : Nat → Nat} {s s₁ s' : Machine} {destination source page : Nat}
  {e : PagingEntry}

/-- The parent has its new entry in `s₁`, and the child shares it. -/
theorem pageForked_of_share (h₁ : Structured s₁) (hpage : page < PAGE_COUNT)
    (hne : destination ≠ source) (hm : Mapped s₁ (some destination) page)
    (he : mapping s source page = some e) (hpresent : e.present = true)
    (havail : e.avail ≠ PAGING_AVAIL_PRESENT_NO_FORK) (hu : Undisturbed s s₁)
    (hparent : mapping s₁ source page = some (shared e))
    (hother : ∀ q page', ¬(q = source ∧ page' = page) → mapping s₁ q page' = mapping s q page')
    (h' : Inv slack 0 s')
    (hg : KernelGrows (s₁.setEntry (some destination) page (shared e)) s') :
    PageForked slack destination source page s s' := by
  have hmapping : ∀ q page', mapping s' q page' =
      if q = destination ∧ page' = page then some (shared e) else mapping s₁ q page' := by
    intro q page'
    rw [hg.mapping, mapping_setTable h₁ hpage hm, shared_present, hpresent, if_pos rfl]
  refine ⟨h', hu.trans (undisturbed_setTable.trans (undisturbed_of_grows hg.toGrows)), ?_, ?_,
    fun q page' hq => ?_⟩
  · rw [hmapping, if_neg fun hq => hne hq.1.symm, hparent, he]
    rfl
  · rw [hmapping, if_pos ⟨rfl, rfl⟩, he, if_neg nofun]
    exact (if_neg havail).symm
  · rw [hmapping, if_neg fun hq' => hq ⟨Or.inr hq'.1, hq'.2⟩,
      hother q page' fun hq' => hq ⟨Or.inl hq'.1, hq'.2⟩]

theorem forkEntry_spec (h : Inv slack 0 s) (hpage : page < PAGE_COUNT) (hne : destination ≠ source)
    (hms : Mapped s (some source) page) (hmd : Mapped s (some destination) page)
    (hzero : s.entry (some destination) page = .zero)
    (hpresent : (s.entry (some source) page).present = true) :
    Steps (forkEntry destination source page (s.entry (some source) page)) s fun _ s' =>
      PageForked slack destination source page s s' := by
  have he : mapping s source page = some (s.entry (some source) page) := by
    rw [mapping_of_mapped h.structured hpage hms, if_pos hpresent]
  have hused := used_of_entry h zero_nonneg hpage hms hpresent
  generalize hentry : s.entry (some source) page = e at *
  rw [forkEntry]
  refine yields_ite (fun hcow => ?_) fun hcow => yields_ite (fun hshare => ?_) fun hshare =>
    yields_ite (fun hno => ?_) fun _ => yields_throw (by simp [Excused])
  · -- the page of the parent becomes one which is duplicated on write
    have hshared : shared e = SharedFrames.duplicated e := if_pos hcow
    have hpresent' : (SharedFrames.duplicated e).present = true := hpresent
    have h₁ : Inv slack 0 (s.setEntry (some source) page (SharedFrames.duplicated e)) :=
      inv_setEntry_same h hpage hms trivial (by rw [hentry]; rfl)
    have hmd₁ : Mapped (s.setEntry (some source) page (SharedFrames.duplicated e))
        (some destination) page := extends_setTable.mapped _ _ hmd
    have hzero₁ : (s.setEntry (some source) page (SharedFrames.duplicated e)).entry
        (some destination) page = .zero := by
      rw [← hzero]
      change ((s.setProcess source _).process destination).table page = _
      rw [setProcess_of_ne hne]
      rfl
    refine yields_ok_bind (h.structured.storeEntry_ok hpage hms _) ?_
    refine (share_spec h₁ hpage hmd₁ hzero₁ hpresent' (by rw [used_setEntry]; exact hused)).mono ?_
    rintro _ s' ⟨h', hg⟩
    rw [← hshared] at hg h₁ hmd₁
    refine pageForked_of_share h₁.structured hpage hne hmd₁ he hpresent ?_ undisturbed_setTable ?_
      (fun q page' hq => ?_) h' hg
    · rw [hcow.1]
      decide
    · rw [mapping_setTable h.structured hpage hms, if_pos ⟨rfl, rfl⟩, shared_present,
        if_pos hpresent]
    · rw [mapping_setTable h.structured hpage hms, if_neg hq]
  · have hshared : shared e = e := if_neg hcow
    refine (share_spec h hpage hmd hzero hpresent hused).mono ?_
    rintro _ s' ⟨h', hg⟩
    rw [← hshared] at hg
    refine pageForked_of_share h.structured hpage hne hmd he hpresent ?_ (Undisturbed.refl s) ?_
      (fun _ _ _ => rfl) h' (by rwa [hshared] at hg ⊢)
    · rintro havail
      rw [havail] at hshare
      revert hshare
      decide
    · rw [he, hshared]
  · -- such a page is not there for the child
    have hshared : shared e = e := if_neg hcow
    have hchild : inherited e = none := if_pos hno
    refine yields_pure ⟨h, Undisturbed.refl s, ?_, ?_, fun _ _ _ => rfl⟩
    · rw [he, Option.map_some, hshared]
    · rw [he, if_neg (by simp), Option.bind_some, hchild, mapping_of_mapped h.structured hpage hmd,
        hzero]
      rfl

theorem forkPage_spec (h : Inv slack 0 s) (hpage : page < PAGE_COUNT) (hne : destination ≠ source)
    (hms : Mapped s (some source) page) :
    Steps (forkPage destination source page) s fun _ s' =>
      PageForked slack destination source page s s' := by
  have he := mapping_of_mapped h.structured hpage hms
  rw [forkPage]
  refine yields_ok_bind (h.structured.loadEntry_ok hpage hms) ?_
  refine yields_ite (fun hzero => yields_pure ?_) fun _ => ?_
  · rw [hzero] at he
    refine ⟨h, Undisturbed.refl s, ?_, ?_, fun _ _ _ => rfl⟩
    · rw [he]
      rfl
    · rw [he]
      exact (if_pos rfl).symm
  · refine (getPagingEntry_spec h zero_nonneg hpage (some destination) true).bind ?_
    rintro r s₁ ⟨h₁, hg, hmapped, hr, -⟩
    have hmd := hmapped (hr rfl)
    refine yields_ok_bind (h₁.structured.loadEntry_ok hpage hmd) ?_
    refine steps_check_bind fun hzero => yields_ite (fun hpresent => ?_) fun habsent =>
      steps_requirePresent fun hpresent => (habsent hpresent).elim
    have hms₁ := hg.extends.mapped _ _ hms
    have hentry := RemotePages.entry_of_grows h.structured h₁.structured hg hpage hms hpresent
    rw [← hentry] at hpresent ⊢
    refine (forkEntry_spec h₁ hpage hne hms₁ hmd (by simpa using hzero) hpresent).mono ?_
    exact fun _ s' hs' => hs'.of_grows hg

end

section

variable {slack : Nat → Nat} {s s₀ s' : Machine} {destination source page i : Nat}
  {e : PagingEntry}

/-- The address spaces after the pages below `i` were duplicated. -/
def forkMapping (s₀ : Machine) (destination source i q page : Nat) : Option PagingEntry :=
  if page < i ∧ q = source then (mapping s₀ source page).map shared
  else if page < i ∧ q = destination then (mapping s₀ source page).bind inherited
  else mapping s₀ q page

structure ForkedUpTo (slack : Nat → Nat) (destination source : Nat) (s₀ : Machine) (i : Nat)
    (s : Machine) : Prop where
  inv : Inv slack 0 s
  undisturbed : Undisturbed s₀ s
  pages : mapping s = forkMapping s₀ destination source i

theorem ForkedUpTo.of_grows (h : ForkedUpTo slack destination source s₀ i s)
    (h' : Inv slack 0 s') (hg : Grows s s') : ForkedUpTo slack destination source s₀ i s' := by
  refine ⟨h', h.undisturbed.trans (undisturbed_of_grows hg), ?_⟩
  rw [← h.pages]
  funext q page
  exact hg.mapping q page

theorem ForkedUpTo.skip {j : Nat} (h : ForkedUpTo slack destination source s₀ i s) (hij : i ≤ j)
    (hempty : ∀ page, mapping s₀ destination page = none)
    (hnone : ∀ page, i ≤ page → page < j → mapping s source page = none) :
    ForkedUpTo slack destination source s₀ j s := by
  refine ⟨h.inv, h.undisturbed, ?_⟩
  rw [h.pages]
  funext q page
  rcases Nat.lt_or_ge page i with hlt | hge
  · simp only [forkMapping, hlt, Nat.lt_of_lt_of_le hlt hij]
  · rcases Nat.lt_or_ge page j with hlt | hge'
    · have hsource := hnone page hge hlt
      rw [h.pages] at hsource
      simp only [forkMapping, Nat.not_lt.mpr hge, false_and, if_false] at hsource
      rw [forkMapping, forkMapping]
      simp only [Nat.not_lt.mpr hge, hlt, true_and, false_and, if_false, hsource, Option.map_none,
        Option.bind_none]
      split
      · rename_i hq
        rw [hq, hsource]
      · split
        · rename_i hq
          rw [hq, hempty]
        · rfl
    · simp only [forkMapping, Nat.not_lt.mpr hge, Nat.not_lt.mpr hge', false_and]

theorem ForkedUpTo.step (h : ForkedUpTo slack destination source s₀ i s)
    (hne : destination ≠ source) (hempty : ∀ page, mapping s₀ destination page = none)
    (hs' : PageForked slack destination source i s s') :
    ForkedUpTo slack destination source s₀ (i + 1) s' := by
  refine ⟨hs'.inv, h.undisturbed.trans hs'.undisturbed, ?_⟩
  have hsource : mapping s source i = mapping s₀ source i := by
    simp [h.pages, forkMapping]
  have hdestination : mapping s destination i = none := by
    simp [h.pages, forkMapping, hempty]
  funext q page
  rcases eq_or_ne page i with rfl | hpage
  · rcases eq_or_ne q source with rfl | hq
    · rw [hs'.parent, hsource, forkMapping, if_pos ⟨Nat.lt_succ_self page, rfl⟩]
    · rcases eq_or_ne q destination with rfl | hq'
      · have hfork : forkMapping s₀ q source (page + 1) q page =
            (mapping s₀ source page).bind inherited := by
          rw [forkMapping, if_neg fun h => hq h.2, if_pos ⟨Nat.lt_succ_self page, rfl⟩]
        rw [hs'.child, hdestination, hsource, hfork]
        split
        · rename_i hnone
          rw [hnone]
          rfl
        · rfl
      · rw [hs'.other q page (by rintro ⟨h | h, -⟩ <;> contradiction), h.pages, forkMapping,
          forkMapping]
        simp only [hq, hq', and_false]
  · rw [hs'.other q page fun h => hpage h.2, h.pages, forkMapping, forkMapping]
    have hiff : page < i ↔ page < i + 1 := by omega
    simp only [hiff]

theorem forkLoop_spec (h : Inv slack 0 s) (hne : destination ≠ source)
    (hempty : ∀ page, mapping s destination page = none) :
    Steps (pagesLoop (some source) (forkPage destination source) PAGE_COUNT 0) s fun _ s' =>
      ∃ i, PAGE_COUNT ≤ i ∧ ForkedUpTo slack destination source s i s' := by
  refine pagesLoop_spec (fun _ _ hI => hI.inv) (fun i s₁ hi hI => ?_)
    (fun _ _ _ hI hij hnone => hI.skip hij hempty hnone) (fun i s₁ hi hI hm => ?_) (by omega)
    ⟨h, Undisturbed.refl s, ?_⟩
  · refine (getProcessEntry_spec hI.inv zero_nonneg hi false).mono ?_
    rintro r s' ⟨h', hg, -⟩
    exact hI.of_grows h' hg
  · exact (forkPage_spec hI.inv hi hne hm).mono fun _ s' hs' => hI.step hne hempty hs'
  · funext q page
    simp [forkMapping]

/-- The child has what its parent has, and no other process is concerned. -/
structure Forked (slack : Nat → Nat) (destination source : Nat) (s s' : Machine) : Prop where
  inv : Inv slack 0 s'
  undisturbed : Undisturbed s s'
  ne : destination ≠ source
  empty : ∀ page, mapping s destination page = none
  parent : ∀ page, mapping s' source page = (mapping s source page).map shared
  child : ∀ page, mapping s' destination page = (mapping s source page).bind inherited
  other : ∀ q, q ≠ source → q ≠ destination → ∀ page, mapping s' q page = mapping s q page

theorem mapping_eq_none (hpage : PAGE_COUNT ≤ page) : mapping s source page = none :=
  if_neg fun h => Nat.not_lt.mpr hpage h.1

theorem pagingForkProcessPageTable_spec (h : Inv slack 0 s) :
    Steps (pagingForkProcessPageTable destination source) s fun _ s' =>
      Forked slack destination source s s' := by
  rw [pagingForkProcessPageTable]
  refine yields_get_bind (steps_check_bind fun _ => yields_get_bind (steps_check_bind fun hsome =>
    yields_get_bind (steps_check_bind fun hnone => ?_)))
  have hnone := Option.isNone_iff_eq_none.mp hnone
  have hne : destination ≠ source := by
    rintro rfl
    rw [hnone] at hsome
    cases hsome
  have hempty : ∀ page, mapping s destination page = none := fun page => by
    simp [mapping, hnone]
  refine (allocatePhysMem_kernel h 1 true false).bind ?_
  rintro addr s₁ ⟨h₁, hg, -, -, hend, hfilled⟩
  have hfilled := hfilled (pageOf addr) le_rfl (by omega)
  have hgrows := grows_setPageDirectory hg hnone h.structured hfilled
  have h₂ := inv_setPageDirectory h₁ (by rw [hg.process]; exact hnone) (by omega) hfilled
  refine yields_modify_bind ?_
  refine (forkLoop_spec h₂ hne fun page => by rw [hgrows.mapping, hempty]).mono ?_
  rintro _ s' ⟨i, hi, hforked⟩
  have hmapping : ∀ q page, mapping s' q page = forkMapping s destination source i q page := by
    intro q page
    rw [hforked.pages, forkMapping, forkMapping]
    simp only [hgrows.mapping]
  refine ⟨hforked.inv, (undisturbed_of_grows hgrows).trans hforked.undisturbed, hne, hempty,
    fun page => ?_, fun page => ?_, fun q hq hq' page => ?_⟩
  · rw [hmapping, forkMapping]
    rcases Nat.lt_or_ge page PAGE_COUNT with hlt | hge
    · rw [if_pos ⟨by omega, rfl⟩]
    · simp [mapping_eq_none hge]
  · rw [hmapping, forkMapping, if_neg fun h => hne h.2]
    rcases Nat.lt_or_ge page PAGE_COUNT with hlt | hge
    · rw [if_pos ⟨by omega, rfl⟩]
    · simp [mapping_eq_none hge]
  · rw [hmapping, forkMapping, if_neg fun h => hq h.2, if_neg fun h => hq' h.2]

end

section

variable {slack : Nat → Nat} {s s' : Machine} {destination source page q : Nat} {e : PagingEntry}

/-- A page which can be written still counts as one. -/
theorem shared_writable : ((shared e).rw ||
    (shared e).avail == PAGING_AVAIL_PRESENT_ON_WRITE_DUPLICATE) =
      (e.rw || e.avail == PAGING_AVAIL_PRESENT_ON_WRITE_DUPLICATE) := by
  rw [shared]
  split
  · rename_i hcow
    rw [hcow.1, hcow.2]
    rfl
  · rfl

/-- What an entry shows of the memory. -/
theorem view_eq (s : Machine) (pid page : Nat) : view s pid page =
    (mapping s pid page).bind fun e => if e.user then
      some (s.memory e.frame, e.rw || e.avail == PAGING_AVAIL_PRESENT_ON_WRITE_DUPLICATE)
    else none := rfl

theorem Forked.view_parent (h : Forked slack destination source s s') :
    view s' source = view s source := by
  funext page
  rw [view_eq, view_eq, h.parent, h.undisturbed.memory]
  rcases mapping s source page with _ | e
  · rfl
  · simp only [Option.map_some, Option.bind_some, shared_user, shared_frame, shared_writable]

theorem Forked.view_other (h : Forked slack destination source s s') (hq : q ≠ source)
    (hq' : q ≠ destination) : view s' q = view s q := by
  funext page
  rw [view_eq, view_eq, h.other q hq hq', h.undisturbed.memory]

/-- The pages which a child does not get. -/
def Withheld (s : Machine) (pid page : Nat) : Prop :=
  ∃ e, mapping s pid page = some e ∧ e.user = true ∧ e.avail = PAGING_AVAIL_PRESENT_NO_FORK

theorem Forked.view_child_of_not (h : Forked slack destination source s s')
    (hno : ¬Withheld s source page) : view s' destination page = view s source page := by
  rw [view_eq, view_eq, h.child, h.undisturbed.memory]
  rcases he : mapping s source page with _ | e
  · rfl
  · rw [Option.bind_some, Option.bind_some, inherited]
    split
    · rename_i havail
      rcases huser : e.user with _ | _
      · rfl
      · exact (hno ⟨e, he, huser, havail⟩).elim
    · simp only [Option.bind_some, shared_user, shared_frame, shared_writable]

theorem Forked.view_child_of_withheld (h : Forked slack destination source s s')
    (hwithheld : Withheld s source page) :
    view s' destination page = none ∧ view s source page ≠ none := by
  obtain ⟨e, he, huser, havail⟩ := hwithheld
  constructor
  · rw [view_eq, h.child, he, Option.bind_some, inherited, if_pos havail]
    rfl
  · rw [view_eq, he, Option.bind_some, if_pos huser]
    exact nofun

theorem Forked.view_child_iff (h : Forked slack destination source s s') :
    view s' destination = view s source ↔ ∀ page, ¬Withheld s source page := by
  constructor
  · intro heq page hwithheld
    obtain ⟨hnone, hne⟩ := h.view_child_of_withheld hwithheld
    rw [heq] at hnone
    exact hne hnone
  · intro hno
    funext page
    exact h.view_child_of_not (hno page)

/-- Where an entry after the fork comes from. -/
theorem Forked.origin (h : Forked slack destination source s s')
    (he : mapping s' q page = some e) :
    (q ≠ source ∧ mapping s q page = some e) ∨
      ∃ e₀, mapping s source page = some e₀ ∧ e = shared e₀ := by
  rcases eq_or_ne q source with rfl | hq
  · rw [h.parent, Option.map_eq_some_iff] at he
    obtain ⟨e₀, he₀, rfl⟩ := he
    exact Or.inr ⟨e₀, he₀, rfl⟩
  · rcases eq_or_ne q destination with rfl | hq'
    · rw [h.child, Option.bind_eq_some_iff] at he
      obtain ⟨e₀, he₀, he⟩ := he
      rw [inherited] at he
      split at he
      · cases he
      · cases he
        exact Or.inr ⟨e₀, he₀, rfl⟩
    · rw [h.other q hq hq'] at he
      exact Or.inl ⟨hq, he⟩

theorem shared_rw (havail : e.avail = 0 ∨
    e.avail = PAGING_AVAIL_PRESENT_ON_WRITE_DUPLICATE ∧ e.rw = false) :
    (shared e).rw = false ∧ ((shared e).avail = 0 ∨
      (shared e).avail = PAGING_AVAIL_PRESENT_ON_WRITE_DUPLICATE) := by
  rw [shared]
  split
  · exact ⟨rfl, Or.inr rfl⟩
  · rename_i hcow
    rcases havail with havail | ⟨havail, hrw⟩
    · exact ⟨Bool.eq_false_iff.mpr fun hrw => hcow ⟨havail, hrw⟩, Or.inl havail⟩
    · exact ⟨hrw, Or.inr havail⟩

theorem Forked.private (h : Forked slack destination source s s') (hinv : Inv slack 0 s)
    (hs : Private s) : Private s' := by
  refine ⟨fun q page e q' page' e' he he' huser huser' hframe hne => ?_,
    fun q page e he huser => ?_,
    fun q page e he huser => ?_⟩
  · rcases h.origin he with ⟨hq, he⟩ | ⟨e₀, he₀, rfl⟩
    · rcases h.origin he' with ⟨hq', he'⟩ | ⟨e₀', he₀', rfl⟩
      · exact hs.shared _ _ _ _ _ _ he he' huser huser' hframe hne
      · exact hs.shared _ _ _ _ _ _ he he₀' huser (by rwa [shared_user] at huser')
          (by rw [hframe, shared_frame]) fun hsame => hq hsame.1
    · exact (shared_rw (hs.marked _ _ _ he₀ (by rwa [shared_user] at huser))).1
  · rcases h.origin he with ⟨-, he⟩ | ⟨e₀, he₀, rfl⟩
    · exact hs.marked _ _ _ he huser
    · obtain ⟨hrw, havail⟩ := shared_rw (hs.marked _ _ _ he₀ (by rwa [shared_user] at huser))
      exact havail.imp id fun havail => ⟨havail, hrw⟩
  · have hdata : ∀ q e, mapping s q page = some e → e.user = true →
        s'.holdsTable e.frame = false := by
      intro q e he huser
      refine Bool.eq_false_iff.mpr fun hholds => ?_
      rcases h.undisturbed.holds _ hholds with hholds | hunused
      · rw [hs.data _ _ _ he huser] at hholds
        cases hholds
      · rw [used_of_mapping hinv zero_nonneg he] at hunused
        cases hunused
    rcases h.origin he with ⟨-, he⟩ | ⟨e₀, he₀, rfl⟩
    · exact hdata _ _ he huser
    · rw [shared_frame]
      exact hdata _ _ he₀ (by rwa [shared_user] at huser)

end

end Ibnos.Forks
