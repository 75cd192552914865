import Ibnos.ProcessPages

/-!
What the paging functions do to the references, and to the memory which the
processes have for themselves.
-/

namespace Ibnos.PagingOperations

open Ibnos.Memory
open Ibnos.Physmem
open Ibnos.Paging
open Ibnos.Programs
open Ibnos.References
open Ibnos.KernelPages
open Ibnos.NewPages
open Ibnos.ProcessPages
open Ibnos.Tallies

/-- A frame which the user of two pages may read can be written through none of them. -/
structure Private (s : Machine) : Prop where
  shared : ∀ pid page e pid' page' e', mapping s pid page = some e →
    mapping s pid' page' = some e' → e.user = true → e'.user = true → e.frame = e'.frame →
    ¬(pid = pid' ∧ page = page') → e.rw = false
  marked : ∀ pid page e, mapping s pid page = some e → e.user = true →
    e.avail = 0 ∨ e.avail = PAGING_AVAIL_PRESENT_ON_WRITE_DUPLICATE ∧ e.rw = false
  data : ∀ pid page e, mapping s pid page = some e → e.user = true →
    s.holdsTable e.frame = false

section

variable {slack : Nat → Nat} {P : Nat → ℤ} {s s' : Machine} {f pid page : Nat} {e : PagingEntry}

theorem Private.of_mapping (h : Private s) (hm : mapping s' = mapping s)
    (hholds : ∀ pid page e, mapping s pid page = some e → s'.holdsTable e.frame = true →
      s.holdsTable e.frame = true) : Private s' := by
  refine ⟨?_, ?_, fun pid page e he huser => ?_⟩
  · rw [hm]
    exact h.shared
  · rw [hm]
    exact h.marked
  · rw [hm] at he
    have := h.data pid page e he huser
    by_contra hne
    rw [hholds pid page e he (by simpa using hne)] at this
    cases this

theorem used_of_mapping (h : Inv slack P s) (hP : ∀ f, 0 ≤ P f)
    (he : mapping s pid page = some e) : used s e.frame = true := by
  have hname : names s (.table pid page) = some e.frame := by
    rw [names, he]
    rfl
  exact (refs_pos_iff h.recorded).mp (h.refs_pos hname (hP _))

theorem Private.of_grows_used (hs : Private s) (hg : Grows s s')
    (hused : ∀ pid page e, mapping s pid page = some e → used s e.frame = true) : Private s' := by
  refine hs.of_mapping (by funext pid page; exact hg.mapping pid page) fun pid page e he hf => ?_
  rcases hg.holds e.frame hf with hf | hf
  · exact hf
  · rw [hused pid page e he] at hf
    cases hf

theorem Private.of_grows (hs : Private s) (h : Inv slack P s) (hP : ∀ f, 0 ≤ P f)
    (hg : Grows s s') : Private s' :=
  hs.of_grows_used hg fun _ _ _ he => used_of_mapping h hP he

theorem Private.of_released {pages : Nat → Prop} (hs : Private s) (hr : Released pages s s') :
    Private s' := by
  refine hs.of_mapping ?_ fun _ _ _ _ hf => ?_
  · funext pid page
    rw [mapping, hr.process]
    rfl
  · rw [hr.holdsTable] at hf
    exact hf

/-- The entry of one page was written. -/
theorem Private.update (hs : Private s)
    (hmap : ∀ pid' page', mapping s' pid' page' =
      if pid' = pid ∧ page' = page then (if e.present then some e else none)
      else mapping s pid' page')
    (hholds : ∀ pid page e, mapping s pid page = some e → s'.holdsTable e.frame = true →
      s.holdsTable e.frame = true)
    (hnew : e.present = true → e.user = true →
      (e.avail = 0 ∨ e.avail = PAGING_AVAIL_PRESENT_ON_WRITE_DUPLICATE ∧ e.rw = false) ∧
      s'.holdsTable e.frame = false ∧
      ∀ pid' page' e', mapping s pid' page' = some e' → ¬(pid' = pid ∧ page' = page) →
        e'.user = true → e'.frame = e.frame → e.rw = false ∧ e'.rw = false) :
    Private s' := by
  have hself : ∀ {e'}, (if e.present then some e else none) = some e' → e' = e ∧ e.present = true :=
    by
      intro e' he'
      split at he'
      · rename_i hpresent
        exact ⟨(Option.some.inj he').symm, hpresent⟩
      · cases he'
  refine ⟨?_, ?_, ?_⟩
  · intro p₁ q₁ e₁ p₂ q₂ e₂ h₁ h₂ hu₁ hu₂ hf hne
    rw [hmap] at h₁ h₂
    split at h₁
    · rename_i heq₁
      obtain ⟨rfl, hpresent⟩ := hself h₁
      split at h₂
      · rename_i heq₂
        exact (hne ⟨heq₁.1.trans heq₂.1.symm, heq₁.2.trans heq₂.2.symm⟩).elim
      · rename_i heq₂
        exact ((hnew hpresent hu₁).2.2 p₂ q₂ e₂ h₂ heq₂ hu₂ hf.symm).1
    · rename_i heq₁
      split at h₂
      · obtain ⟨rfl, hpresent⟩ := hself h₂
        exact ((hnew hpresent hu₂).2.2 p₁ q₁ e₁ h₁ heq₁ hu₁ hf).2
      · exact hs.shared p₁ q₁ e₁ p₂ q₂ e₂ h₁ h₂ hu₁ hu₂ hf hne
  · intro p₁ q₁ e₁ h₁ hu₁
    rw [hmap] at h₁
    split at h₁
    · obtain ⟨rfl, hpresent⟩ := hself h₁
      exact (hnew hpresent hu₁).1
    · exact hs.marked p₁ q₁ e₁ h₁ hu₁
  · intro p₁ q₁ e₁ h₁ hu₁
    rw [hmap] at h₁
    split at h₁
    · obtain ⟨rfl, hpresent⟩ := hself h₁
      exact (hnew hpresent hu₁).2.1
    · have := hs.data p₁ q₁ e₁ h₁ hu₁
      by_contra hne
      rw [hholds p₁ q₁ e₁ h₁ (by simpa using hne)] at this
      cases this

theorem Private.setTable (hs : Private s) (h : Structured s) (hpage : page < PAGE_COUNT)
    (hm : Mapped s (some pid) page)
    (hnew : e.present = true → e.user = true →
      (e.avail = 0 ∨ e.avail = PAGING_AVAIL_PRESENT_ON_WRITE_DUPLICATE ∧ e.rw = false) ∧
      s.holdsTable e.frame = false ∧
      ∀ pid' page' e', mapping s pid' page' = some e' → ¬(pid' = pid ∧ page' = page) →
        e'.user = true → e'.frame = e.frame → e.rw = false ∧ e'.rw = false) :
    Private (s.setEntry (some pid) page e) :=
  hs.update (mapping_setTable h hpage hm) (fun _ _ _ _ hf => hf) hnew

/-- An entry which the user may not access, or which is not present. -/
theorem Private.setHidden (hs : Private s) (h : Structured s) (hpage : page < PAGE_COUNT)
    (hm : Mapped s (some pid) page) (he : e.present = false ∨ e.user = false) :
    Private (s.setEntry (some pid) page e) := by
  refine hs.setTable h hpage hm fun hpresent huser => ?_
  rcases he with he | he
  · rw [hpresent] at he
    cases he
  · rw [huser] at he
    cases he

/-- No page of a process has the frame. -/
def Fresh (s : Machine) (f : Nat) : Prop :=
  s.holdsTable f = false ∧ ∀ pid page e, mapping s pid page = some e → e.frame ≠ f

theorem Fresh.mono (hf : Fresh s f) (hused : used s f = true) (hg : Grows s s') : Fresh s' f := by
  refine ⟨?_, fun pid page e he => ?_⟩
  · by_contra hne
    rcases hg.holds f (by simpa using hne) with h | h
    · rw [hf.1] at h
      cases h
    · rw [hused] at h
      cases h
  · rw [hg.mapping] at he
    exact hf.2 pid page e he

theorem Private.setFresh {rw user : Bool} (hs : Private s) (h : Structured s)
    (hpage : page < PAGE_COUNT) (hm : Mapped s (some pid) page) (hf : Fresh s f) :
    Private (s.setEntry (some pid) page ⟨true, rw, user, 0, f⟩) := by
  refine hs.setTable h hpage hm fun _ _ => ⟨Or.inl rfl, hf.1, fun pid' page' e' he' _ _ hf' => ?_⟩
  exact (hf.2 pid' page' e' he' hf').elim

theorem physMemAllocPage_fresh (h : Inv slack P s) (hP : ∀ f, 0 ≤ P f) (lowmem : Bool) :
    Steps (physMemAllocPage lowmem) s fun f s' =>
      Inv slack (P + due (some f)) s' ∧ KernelGrows s s' ∧ used s' f = true ∧ Fresh s' f ∧
        used s f = false ∧ s'.physMemExtra = s.physMemExtra := by
  refine (physMemAllocPage_spec h lowmem).mono ?_
  rintro f s' ⟨h', hsame, hg, hunused, hused, hholds⟩
  refine ⟨h', hg, hused, ⟨hholds, fun pid page e he hef => ?_⟩, hunused, hsame.physMemExtra⟩
  rw [hsame.mapping] at he
  refine h.fresh hunused (hP f) (.table pid page) ?_
  rw [names, he, ← hef]
  rfl

end

/-- Afterwards all references are accounted for, no table went away, and the processes share
no more memory than before. -/
structure Kept (slack : Nat → Nat) (s s' : Machine) : Prop where
  inv : Inv slack 0 s'
  extends' : Extends s s'
  priv : Private s → Private s'

section

variable {slack : Nat → Nat} {P : Nat → ℤ} {s s' s'' : Machine} {f pid page : Nat}
  {p : Option Nat} {e : PagingEntry}

theorem zero_nonneg (f : Nat) : (0 : ℤ) ≤ (0 : Nat → ℤ) f := le_rfl

theorem due_nonneg (o : Option Nat) (f : Nat) : 0 ≤ due o f := by
  rw [due]
  split <;> decide

theorem Kept.refl (h : Inv slack 0 s) : Kept slack s s := ⟨h, Extends.refl s, id⟩

theorem Kept.trans (h : Kept slack s s') (h' : Kept slack s' s'') : Kept slack s s'' :=
  ⟨h'.inv, h.extends'.trans h'.extends', fun hs => h'.priv (h.priv hs)⟩

theorem kept_of_grows (h : Inv slack 0 s) (h' : Inv slack 0 s') (hg : Grows s s') :
    Kept slack s s' :=
  ⟨h', hg.extends, fun hs => hs.of_grows h zero_nonneg hg⟩

theorem extends_setTable : Extends s (s.setEntry (some pid) page e) := by
  have hhome : home (s.setEntry (some pid) page e) = home s := home_setProcess rfl rfl
  refine ⟨fun p q hq => ?_, fun q hq => ?_⟩
  · rcases p with _ | pid'
    · exact hq
    · rcases eq_or_ne pid' pid with rfl | hne
      · rw [Mapped, Machine.setEntry, setProcess_self]
        exact hq
      · rw [Mapped, Machine.setEntry, setProcess_of_ne hne]
        exact hq
  · rw [Loose, Owned, hhome]
    exact hq

theorem extends_setKernel (hpage : page < KERNEL_PAGE) (he : e ≠ .zero) :
    Extends s (s.setEntry none page e) := by
  refine ⟨fun p q hq => ?_, fun q hq => ⟨?_, hq.2⟩⟩
  · rcases p with _ | pid
    · rw [Mapped]
      have : (s.setEntry none page e).kernel (KERNEL_PAGE + q / PAGETABLE_COUNT) =
          s.kernel (KERNEL_PAGE + q / PAGETABLE_COUNT) :=
        Function.update_of_ne (window_ne hpage _) _ _
      rw [this]
      exact hq
    · exact hq
  · rcases eq_or_ne q page with rfl | hne
    · have : (s.setEntry none q e).kernel q = e := Function.update_self ..
      rw [this]
      exact he
    · have : (s.setEntry none page e).kernel q = s.kernel q := Function.update_of_ne hne _ _
      rw [this]
      exact hq.1

/-- The pages of the kernel which a loop is about to fill. -/
def Area (s : Machine) (p : Option Nat) (length cur : Nat) : Prop :=
  p = none → ∀ page, Span length cur page → page < KERNEL_PAGE ∧ Loose s page

theorem Area.mono {length cur : Nat} (h : Area s p length cur) (hs : Extends s s') :
    Area s' p length cur :=
  fun hp page hpage => ⟨(h hp page hpage).1, hs.loose page (h hp page hpage).2⟩

theorem Area.tail {length cur : Nat} (h : Area s p (length + 1) cur) :
    Area s p length (nextPage cur) := fun hp page hpage => h hp page (Or.inr hpage)

theorem Area.writable {length cur : Nat} (h : Area s p (length + 1) cur) :
    Writable s p (pageOf cur) := by
  rcases p with _ | pid
  · obtain ⟨hlt, hloose⟩ := h rfl (pageOf cur) (Or.inl rfl)
    exact ⟨hlt, hloose.2⟩
  · trivial

/-- An entry which names nothing takes over the reference to a new frame. -/
theorem kept_fill {s₀ : Machine} (rw user : Bool) (h : Inv slack (due (some f)) s)
    (hpage : page < PAGE_COUNT) (hm : Mapped s p page) (hw : Writable s p page)
    (hnone : named (s.entry p page) = none) (hf : Fresh s f) (he : Extends s₀ s)
    (hpriv : Private s₀ → Private s) :
    Kept slack s₀ (s.setEntry p page ⟨true, rw, user, 0, f⟩) := by
  have hinv := h.setEntry hpage hm hw ⟨true, rw, user, 0, f⟩
  have hnew : named ⟨true, rw, user, 0, f⟩ = some f := rfl
  rw [hnone, hnew, due_none, add_zero, sub_self] at hinv
  refine ⟨hinv, he.trans ?_, fun hs => ?_⟩
  · rcases p with _ | pid
    · exact extends_setKernel hw.1 (by simp [PagingEntry.zero])
    · exact extends_setTable
  · rcases p with _ | pid
    · exact (hpriv hs).of_mapping rfl fun _ _ _ _ hf => hf
    · exact (hpriv hs).setFresh h.structured hpage hm hf

theorem allocateLoop_process {rw user : Bool} {length cur : Nat} (h : Inv slack 0 s) :
    Steps (allocateLoop (getPagingEntry (some pid)) (some pid) rw user length cur) s fun _ s' =>
      Kept slack s s' := by
  induction length generalizing s cur with
  | zero => exact yields_pure (Kept.refl h)
  | succ length ih =>
      rw [allocateLoop]
      refine (physMemAllocPage_fresh h zero_nonneg false).bind ?_
      rintro f s₁ ⟨h₁, hg₁, hused, hfresh, -⟩
      rw [zero_add] at h₁
      refine (getPagingEntry_spec h₁ (due_nonneg _) (pageOf_lt cur) (some pid) true).bind ?_
      rintro r s₂ ⟨h₂, hg₂, hmapped, hr, -⟩
      have hm := hmapped (hr rfl)
      refine yields_ok_bind (h₂.structured.loadEntry_ok (pageOf_lt cur) hm) ?_
      refine steps_check_bind fun hzero => ?_
      have hzero : s₂.entry (some pid) (pageOf cur) = .zero := by simpa using hzero
      refine yields_ok_bind (h₂.structured.storeEntry_ok (pageOf_lt cur) hm _) ?_
      have hg := hg₁.toGrows.trans hg₂
      have hkept := kept_fill rw user h₂ (pageOf_lt cur) hm trivial
        (by rw [hzero]; rfl) (hfresh.mono hused hg₂) hg.extends
        fun hs => hs.of_grows h zero_nonneg hg
      exact (ih hkept.inv).mono fun _ s' hs' => hkept.trans hs'

/-- The pages of an area which was reserved are filled. -/
theorem unpageableLoop_spec {rw user : Bool} {length cur : Nat} (h : Inv slack 0 s)
    (ha : Area s p length cur) :
    Steps (unpageableLoop p rw user length cur) s fun _ s' => Kept slack s s' := by
  induction length generalizing s cur with
  | zero => exact yields_pure (Kept.refl h)
  | succ length ih =>
      rw [unpageableLoop]
      refine (physMemAllocPage_fresh h zero_nonneg false).bind ?_
      rintro f s₁ ⟨h₁, hg₁, hused, hfresh, -⟩
      rw [zero_add] at h₁
      refine (physMemMarkUnpageable_spec h₁ hused).bind ?_
      rintro _ s₂ ⟨rfl, h₂, hg₂⟩
      refine (getPagingEntry_spec h₂ (due_nonneg _) (pageOf_lt cur) p true).bind ?_
      rintro r s₃ ⟨h₃, hg₃, hmapped, hr, -⟩
      have hm := hmapped (hr rfl)
      refine yields_ok_bind (h₃.structured.loadEntry_ok (pageOf_lt cur) hm) ?_
      refine steps_check_bind fun hreserved => ?_
      have hnone : named (s₃.entry p (pageOf cur)) = none := by
        simp only [PagingEntry.isReserved, Bool.and_eq_true, Bool.not_eq_true'] at hreserved
        rw [named, hreserved.1]
        rfl
      refine yields_ok_bind (h₃.structured.storeEntry_ok (pageOf_lt cur) hm _) ?_
      have hg := hg₁.toGrows.trans (hg₂.toGrows.trans hg₃)
      have hkept := kept_fill rw user h₃ (pageOf_lt cur) hm
        (ha.mono hg.extends).writable hnone (hfresh.mono hused (hg₂.toGrows.trans hg₃)) hg.extends
        fun hs => hs.of_grows h zero_nonneg hg
      exact (ih hkept.inv (ha.tail.mono hkept.extends')).mono fun _ s' hs' => hkept.trans hs'

end

section

variable {slack : Nat → Nat} {P : Nat → ℤ} {s s' : Machine} {f pid page : Nat}
  {p : Option Nat} {e : PagingEntry}

theorem pageOf_nextPage_mod (cur : Nat) :
    pageOf (nextPage cur) = (pageOf cur + 1) % PAGE_COUNT := by
  unfold nextPage pageOf
  simp only [PAGE_SIZE, PAGE_COUNT]
  omega

theorem span_iff_mod {length cur page : Nat} :
    Span length cur page ↔ ∃ j < length, page = (pageOf cur + j) % PAGE_COUNT := by
  induction length generalizing cur with
  | zero => simp [Span]
  | succ length ih =>
      have hlt := pageOf_lt cur
      rw [Span, ih, pageOf_nextPage_mod]
      constructor
      · rintro (rfl | ⟨j, hj, rfl⟩)
        · exact ⟨0, by omega, (Nat.mod_eq_of_lt hlt).symm⟩
        · refine ⟨j + 1, by omega, ?_⟩
          simp only [PAGE_COUNT] at *
          omega
      · rintro ⟨j, hj, rfl⟩
        cases j with
        | zero => exact Or.inl (Nat.mod_eq_of_lt hlt)
        | succ j =>
            refine Or.inr ⟨j, by omega, ?_⟩
            simp only [PAGE_COUNT] at *
            omega

theorem span_ne {length cur page : Nat} (h : Span length (nextPage cur) page)
    (hle : length + 1 ≤ PAGE_COUNT) : page ≠ pageOf cur := by
  obtain ⟨j, hj, rfl⟩ := span_iff_mod.mp h
  have hlt := pageOf_lt cur
  rw [pageOf_nextPage_mod]
  simp only [PAGE_COUNT] at *
  omega

theorem kept_reserve {s₀ : Machine} (user : Bool) (h : Inv slack 0 s) (hpage : page < PAGE_COUNT)
    (hm : Mapped s p page) (hw : p = none → page < KERNEL_PAGE)
    (hzero : s.entry p page = .zero) (hg : Grows s₀ s) (h₀ : Inv slack 0 s₀) :
    Kept slack s₀
      (s.setEntry p page ⟨false, false, user, PAGING_AVAIL_NOTPRESENT_RESERVED, 0⟩) := by
  have hwritable : Writable s p page := by
    rcases p with _ | pid
    · exact ⟨hw rfl, not_owned_of_zero h.structured hzero⟩
    · trivial
  have hinv := h.setEntry hpage hm hwritable
    ⟨false, false, user, PAGING_AVAIL_NOTPRESENT_RESERVED, 0⟩
  have hnew : named ⟨false, false, user, PAGING_AVAIL_NOTPRESENT_RESERVED, 0⟩ = none := rfl
  rw [hzero, hnew, named_zero, due_none, add_zero, sub_zero] at hinv
  refine (kept_of_grows h₀ h hg).trans ⟨hinv, ?_, fun hs => ?_⟩
  · rcases p with _ | pid
    · exact extends_setKernel (hw rfl)
        (by simp [PagingEntry.zero, PAGING_AVAIL_NOTPRESENT_RESERVED])
    · exact extends_setTable
  · rcases p with _ | pid
    · exact hs.of_mapping rfl fun _ _ _ _ hf => hf
    · exact hs.setHidden h.structured hpage hm (Or.inl rfl)

/-- A whole area is reserved. -/
theorem pagingReserveArea_spec {user : Bool} {length cur : Nat} (h : Inv slack 0 s)
    (hend : p = none → pageOf cur + length ≤ KERNEL_PAGE) :
    Steps (pagingReserveArea p user length cur) s fun _ s' =>
      Kept slack s s' ∧ Area s' p length cur := by
  induction length generalizing s cur with
  | zero => exact yields_pure ⟨Kept.refl h, fun _ _ hpage => hpage.elim⟩
  | succ length ih =>
      have hlt : p = none → pageOf cur < KERNEL_PAGE := fun hp => by
        have := hend hp
        omega
      rw [pagingReserveArea]
      refine (getPagingEntry_spec h zero_nonneg (pageOf_lt cur) p true).bind ?_
      rintro r s₁ ⟨h₁, hg₁, hmapped, hr, -⟩
      have hm := hmapped (hr rfl)
      refine yields_ok_bind (h₁.structured.loadEntry_ok (pageOf_lt cur) hm) ?_
      refine steps_check_bind fun hzero => ?_
      have hzero : s₁.entry p (pageOf cur) = .zero := by simpa using hzero
      refine yields_ok_bind (h₁.structured.storeEntry_ok (pageOf_lt cur) hm _) ?_
      have hkept := kept_reserve user h₁ (pageOf_lt cur) hm hlt hzero hg₁ h
      refine (ih hkept.inv fun hp => ?_).mono ?_
      · have hnext := hlt hp
        rw [pageOf_nextPage]
        · have := hend hp
          omega
        · simp only [KERNEL_PAGE, PAGE_COUNT] at *
          omega
      · rintro _ s' ⟨hkept', harea⟩
        refine ⟨hkept.trans hkept', fun hp page hpage => ?_⟩
        subst hp
        rcases hpage with rfl | hpage
        · refine ⟨hlt rfl, hkept'.extends'.loose _ ⟨?_, not_owned_of_zero h₁.structured hzero⟩⟩
          rw [Machine.setEntry, Machine.setKernel]
          simp [PagingEntry.zero, PAGING_AVAIL_NOTPRESENT_RESERVED]
        · exact harea rfl page hpage

theorem pagingReserveArea_overrun {user : Bool} {length cur : Nat} (h : Sane slack s (pageOf cur))
    (hle : pageOf cur ≤ KERNEL_DIR) (hend : KERNEL_DIR < pageOf cur + length) :
    Steps (pagingReserveArea none user length cur) s fun _ _ => False := by
  induction length generalizing s cur with
  | zero => omega
  | succ length ih =>
      rw [pagingReserveArea]
      refine steps_overrun h hle fun s' hlt h' => ?_
      have hnext : pageOf (nextPage cur) = pageOf cur + 1 := by
        refine pageOf_nextPage ?_
        simp only [KERNEL_DIR, PAGE_COUNT] at *
        omega
      exact ih (by rw [hnext]; exact h') (by omega) (by omega)

/-- An area which a search returned is reserved. -/
theorem pagingReserveArea_found {user : Bool} {length addr : Nat} (h : Inv slack 0 s)
    (hb : p = none → InBounds s length addr) :
    Steps (pagingReserveArea p user length addr) s fun _ s' =>
      Kept slack s s' ∧ Area s' p length addr ∧
        (p = none → 1 ≤ pageOf addr ∧ pageOf addr + length ≤ KERNEL_PAGE) := by
  rcases p with _ | pid
  · obtain ⟨hone, hlt, hend | hend⟩ := inBounds_pageOf (hb rfl)
    · refine (pagingReserveArea_spec h fun _ => hend).mono ?_
      rintro _ s' ⟨hkept, harea⟩
      exact ⟨hkept, harea, fun _ => ⟨hone, hend⟩⟩
    · refine (pagingReserveArea_overrun (Or.inl ⟨⟨0, h⟩, hlt⟩) ?_ hend).mono fun _ _ => False.elim
      simp only [KERNEL_PAGE, KERNEL_DIR] at *
      omega
  · refine (pagingReserveArea_spec (p := some pid) h (by simp)).mono ?_
    rintro _ s' ⟨hkept, harea⟩
    exact ⟨hkept, harea, by simp⟩

theorem searchLoop_process {length rounds i start : Nat} (h : Inv slack P s) (hP : ∀ f, 0 ≤ P f) :
    Steps (searchLoop (getPagingEntry (some pid)) (some pid) length rounds i start) s fun _ s' =>
      Inv slack P s' ∧ Grows s s' := by
  induction rounds generalizing s i start with
  | zero => exact yields_pure ⟨h, Grows.refl s⟩
  | succ rounds ih =>
      rw [searchLoop]
      refine yields_ite (fun hi => ?_) fun _ => yields_pure ⟨h, Grows.refl s⟩
      refine (getPagingEntry_spec h hP (kernel_lt hi) (some pid) false).bind ?_
      rintro r s₁ ⟨h₁, hg₁, hmapped, -, -⟩
      have hnext : ∀ i start, Steps (searchLoop (getPagingEntry (some pid)) (some pid) length rounds
          i start) s₁ fun _ s' => Inv slack P s' ∧ Grows s s' := fun i start =>
        (ih h₁).mono fun _ s' hs' => ⟨hs'.1, hg₁.trans hs'.2⟩
      refine yields_ite (fun hr => ?_) fun _ => ?_
      · refine yields_ok_bind (h₁.structured.loadEntry_ok (kernel_lt hi) (hmapped hr)) ?_
        refine yields_ite (fun _ => hnext _ _) fun _ => ?_
        exact yields_ite (fun _ => yields_pure ⟨h₁, hg₁⟩) fun _ => hnext _ _
      · exact yields_ite (fun _ => yields_pure ⟨h₁, hg₁⟩) fun _ => hnext _ _

theorem pagingTrySearchArea_spec (h : Inv slack P s) (hP : ∀ f, 0 ≤ P f) (p : Option Nat)
    (length : Nat) :
    Steps (pagingTrySearchArea p length) s fun r s' =>
      Inv slack P s' ∧ Grows s s' ∧ (p = none → s' = s) ∧
        ∀ addr, r = some addr → p = none → InBounds s' length addr := by
  rcases p with _ | pid
  · refine (trySearchArea_kernel h length).mono ?_
    rintro r _ ⟨rfl, hr⟩
    exact ⟨h, Grows.refl _, fun _ => rfl, fun addr haddr _ => hr addr haddr⟩
  · rw [pagingTrySearchArea, trySearchArea]
    refine yields_ite (fun _ => yields_pure ⟨h, Grows.refl s, by simp, by simp⟩) fun _ => ?_
    exact (searchLoop_process h hP).mono fun _ s' hs' => ⟨hs'.1, hs'.2, by simp, by simp⟩

theorem pagingSearchArea_spec (h : Inv slack P s) (hP : ∀ f, 0 ≤ P f) (p : Option Nat)
    (length : Nat) :
    Steps (pagingSearchArea p length) s fun addr s' =>
      Inv slack P s' ∧ Grows s s' ∧ (p = none → s' = s) ∧ (p = none → InBounds s' length addr) := by
  rw [pagingSearchArea]
  refine (pagingTrySearchArea_spec h hP p length).bind ?_
  rintro (_ | addr) s' ⟨h', hg, hsame, hb⟩
  · exact yields_throw (by simp [Excused])
  · exact yields_pure ⟨h', hg, hsame, hb addr rfl⟩

end

section

variable {slack : Nat → Nat} {P : Nat → ℤ} {s s' : Machine} {f pid page : Nat}
  {p : Option Nat} {e : PagingEntry}

theorem pagingTryAllocatePhysMem_spec (h : Inv slack 0 s) (p : Option Nat) (length : Nat)
    (rw user : Bool) :
    Steps (pagingTryAllocatePhysMem p length rw user) s fun _ s' => Kept slack s s' := by
  rcases p with _ | pid
  · refine (tryAllocatePhysMem_kernel h length rw user).mono ?_
    rintro _ s' ⟨h', hg, -, -⟩
    exact kept_of_grows h h' hg.toGrows
  · rw [pagingTryAllocatePhysMem, tryAllocatePhysMem]
    refine (pagingTrySearchArea_spec h zero_nonneg (some pid) length).bind ?_
    rintro (_ | addr) s₁ ⟨h₁, hg₁, -, -⟩
    · exact yields_pure (kept_of_grows h h₁ hg₁)
    · refine (allocateLoop_process h₁).bind fun _ s' hs' => ?_
      exact yields_pure ((kept_of_grows h h₁ hg₁).trans hs')

theorem pagingAllocatePhysMem_spec (h : Inv slack 0 s) (p : Option Nat) (length : Nat)
    (rw user : Bool) :
    Steps (pagingAllocatePhysMem p length rw user) s fun _ s' => Kept slack s s' := by
  rw [pagingAllocatePhysMem, allocatePhysMem]
  refine (pagingTryAllocatePhysMem_spec h p length rw user).bind ?_
  rintro (_ | addr) s' hs'
  · exact yields_throw (by simp [Excused])
  · exact yields_pure hs'

theorem pagingAllocatePhysMemUnpageable_spec (h : Inv slack 0 s) (p : Option Nat) (length : Nat)
    (rw user : Bool) :
    Steps (pagingAllocatePhysMemUnpageable p length rw user) s fun _ s' => Kept slack s s' := by
  rw [pagingAllocatePhysMemUnpageable]
  refine (pagingTrySearchArea_spec h zero_nonneg p length).bind ?_
  rintro (_ | addr) s₁ ⟨h₁, hg₁, -, hb⟩
  · exact yields_throw (by simp [Excused])
  · refine (pagingReserveArea_found h₁ (hb addr rfl)).bind ?_
    rintro _ s₂ ⟨hkept, harea, -⟩
    refine (unpageableLoop_spec hkept.inv harea).bind fun _ s' hs' => ?_
    exact yields_pure ((kept_of_grows h h₁ hg₁).trans (hkept.trans hs'))

theorem pagingAllocatePhysMemFixedUnpageable_spec {addr length : Nat} (h : Inv slack 0 s)
    (hend : p = none → pageOf addr + length ≤ KERNEL_PAGE) (rw user : Bool) :
    Steps (pagingAllocatePhysMemFixedUnpageable p addr length rw user) s fun _ s' =>
      Kept slack s s' := by
  rw [pagingAllocatePhysMemFixedUnpageable]
  refine steps_check_bind fun _ => (pagingReserveArea_spec h hend).bind ?_
  rintro _ s₁ ⟨hkept, harea⟩
  exact (unpageableLoop_spec hkept.inv harea).bind fun _ s' hs' => yields_pure (hkept.trans hs')

/-- A present entry is cleared and its reference is dropped. -/
theorem clear_spec (h : Inv slack 0 s) (hpage : page < PAGE_COUNT)
    (hm : Mapped s (some pid) page) :
    Steps (releaseEntry (some pid) page (s.entry (some pid) page)) s fun _ s' =>
      Inv slack 0 s' ∧ SameTables (s.setEntry (some pid) page .zero) s' ∧
        s'.holdsTable = s.holdsTable := by
  have hinv := h.setEntry hpage hm trivial .zero
  rw [named_zero, due_none, sub_zero, zero_add] at hinv
  rw [releaseEntry]
  refine yields_ite (fun hpresent => ?_) fun hpresent => ?_
  · refine yields_ok_bind (h.structured.storeEntry_ok hpage hm _) ?_
    have hname : named (s.entry (some pid) page) = some (s.entry (some pid) page).frame := by
      rw [named, if_pos hpresent]
    rw [hname, ← zero_add (due _)] at hinv
    refine (physMemReleasePage_spec hinv le_rfl).bind ?_
    rintro _ s' ⟨h', hsame, hholds⟩
    exact yields_pure ⟨h', hsame, hholds⟩
  · have hname : named (s.entry (some pid) page) = none := by
      rw [named, if_neg hpresent]
    rw [hname, due_none] at hinv
    refine yields_ite (fun _ => ?_) fun _ => steps_requirePresent fun hp => (hpresent hp).elim
    exact yields_of_ok (h.structured.storeEntry_ok hpage hm _)
      ⟨hinv, ⟨rfl, rfl, rfl, rfl, rfl, rfl⟩, rfl⟩

/-- Pages of a process are not mapped any more, except for those which were skipped. -/
structure Dropped (slack : Nat → Nat) (skip : PagingEntry → Bool) (pid : Nat) (pages : Nat → Prop)
    (s s' : Machine) : Prop extends Kept slack s s' where
  memory : s'.memory = s.memory
  other : ∀ q page, ¬(q = pid ∧ pages page) → mapping s' q page = mapping s q page
  gone : ∀ page, pages page → mapping s' pid page = (mapping s pid page).filter skip

theorem Dropped.trans {s'' : Machine} {skip : PagingEntry → Bool} {pages pages' : Nat → Prop}
    (h : Dropped slack skip pid pages s s') (h' : Dropped slack skip pid pages' s' s'') :
    Dropped slack skip pid (fun page => pages page ∨ pages' page) s s'' := by
  refine ⟨h.toKept.trans h'.toKept, h'.memory.trans h.memory, fun q page hne => ?_,
    fun page hpage => ?_⟩
  · rw [h'.other q page fun hq => hne ⟨hq.1, Or.inr hq.2⟩,
      h.other q page fun hq => hne ⟨hq.1, Or.inl hq.2⟩]
  · have hmem : mapping s' pid page = (mapping s pid page).filter skip ∨
        ¬pages page ∧ mapping s' pid page = mapping s pid page := by
      by_cases hp : pages page
      · exact Or.inl (h.gone page hp)
      · exact Or.inr ⟨hp, h.other pid page fun hq => hp hq.2⟩
    by_cases hp : pages' page
    · rw [h'.gone page hp]
      rcases hmem with hmem | ⟨-, hmem⟩
      · rw [hmem, Option.filter_filter]
        simp
      · rw [hmem]
    · rw [h'.other pid page fun hq => hp hq.2]
      rcases hmem with hmem | ⟨hne, -⟩
      · exact hmem
      · exact (hpage.elim hne hp).elim

theorem Dropped.mono {skip : PagingEntry → Bool} {pages pages' : Nat → Prop}
    (h : Dropped slack skip pid pages s s') (hiff : ∀ page, pages page ↔ pages' page) :
    Dropped slack skip pid pages' s s' := by
  have : pages' = pages := by
    funext page
    rw [hiff page]
  rw [this]
  exact h

/-- The other pages on the way have nothing to drop. -/
theorem dropped_of_grows {skip : PagingEntry → Bool} (pages : Nat → Prop) (h : Inv slack 0 s)
    (h' : Inv slack 0 s') (hg : Grows s s')
    (hskip : ∀ page e, pages page → mapping s pid page = some e → skip e = true) :
    Dropped slack skip pid pages s s' := by
  refine ⟨kept_of_grows h h' hg, hg.memory, fun q page _ => hg.mapping q page, fun page hpage => ?_⟩
  rw [hg.mapping]
  rcases hm : mapping s pid page with _ | e
  · rfl
  · rw [Option.filter_some, if_pos (hskip page e hpage hm)]

theorem SameTables.extends (h : SameTables s s') : Extends s s' := by
  refine ⟨fun p q hq => ?_, fun q hq => ?_⟩
  · rcases p with _ | pid
    · rw [Mapped, h.kernel]
      exact hq
    · rw [Mapped, h.process]
      exact hq
  · rw [Loose, Owned, h.kernel, h.homes]
    exact hq

theorem dropped_setEntry (skip : PagingEntry → Bool) (h : Inv slack 0 s) (hpage : page < PAGE_COUNT)
    (hm : Mapped s (some pid) page) (h' : Inv slack 0 s')
    (hsame : SameTables (s.setEntry (some pid) page .zero) s')
    (hholds : s'.holdsTable = s.holdsTable) (hskip : skip (s.entry (some pid) page) = false) :
    Dropped slack skip pid (· = page) s s' := by
  have hmapping := mapping_setTable (e := .zero) h.structured hpage hm
  refine ⟨⟨h', extends_setTable.trans (SameTables.extends hsame), fun hs => ?_⟩, hsame.memory,
    fun q page' hne => ?_, fun page' hp => ?_⟩
  · refine (hs.setHidden h.structured hpage hm (Or.inl rfl)).of_mapping hsame.mapping ?_
    intro _ _ _ _ hf
    rw [hholds] at hf
    exact hf
  · rw [hsame.mapping, hmapping, if_neg hne]
  · have hnone : (if PagingEntry.zero.present = true then some PagingEntry.zero else none) = none :=
      rfl
    rw [hp, hsame.mapping, hmapping, if_pos ⟨rfl, rfl⟩, hnone,
      mapping_of_mapped h.structured hpage hm]
    split
    · rw [Option.filter_some, hskip]
      rfl
    · rfl

theorem releaseLoop_process {skip : PagingEntry → Bool} {length cur : Nat} {success : Bool}
    (h : Inv slack 0 s) :
    Steps (releaseLoop skip (some pid) length cur success) s fun _ s' =>
      Dropped slack skip pid (Span length cur) s s' := by
  induction length generalizing s cur success with
  | zero => exact yields_pure (dropped_of_grows _ h h (Grows.refl s) fun _ _ hp => hp.elim)
  | succ length ih =>
      rw [releaseLoop]
      refine (getProcessEntry_spec h zero_nonneg (pageOf_lt cur) false).bind ?_
      rintro r s₁ ⟨h₁, hg₁, hmapped, -, hnone, -⟩
      have hnext : ∀ {s₂ success}, Dropped slack skip pid (· = pageOf cur) s s₂ →
          Steps (releaseLoop skip (some pid) length (nextPage cur) success) s₂ fun _ s' =>
            Dropped slack skip pid (Span (length + 1) cur) s s' := fun hd =>
        (ih hd.inv).mono fun _ s' hs' => hd.trans hs'
      refine yields_ite (fun hr => ?_) fun hr => ?_
      · have hm := hmapped hr
        refine yields_ok_bind (h₁.structured.loadEntry_ok (pageOf_lt cur) hm) ?_
        refine yields_ite (fun hskip => ?_) fun hskip => ?_
        · refine hnext (dropped_of_grows _ h h₁ hg₁ fun page e hp he => ?_)
          rw [hp, ← hg₁.mapping, mapping_of_mapped h₁.structured (pageOf_lt cur) hm] at he
          split at he
          · cases he
            exact hskip
          · cases he
        · refine (clear_spec h₁ (pageOf_lt cur) hm).bind ?_
          rintro _ s₂ ⟨h₂, hsame, hholds⟩
          have hd := dropped_setEntry skip h₁ (pageOf_lt cur) hm h₂ hsame hholds
            (by simpa using hskip)
          refine hnext (((dropped_of_grows (fun _ => False) h h₁ hg₁ ?_).trans hd).mono ?_)
          · exact fun _ _ hp => hp.elim
          · exact fun page => iff_of_eq (false_or _)
      · refine hnext (dropped_of_grows _ h h₁ hg₁ fun page e hp he => ?_)
        rw [hp, hnone (by simpa using hr)] at he
        cases he

end

section

variable {slack : Nat → Nat} {P : Nat → ℤ} {s s' s'' : Machine} {f pid page addr : Nat}
  {p : Option Nat} {e : PagingEntry}

/-- Afterwards all references are accounted for, and the processes share no more memory than
before. -/
structure Preserved (slack : Nat → Nat) (s s' : Machine) : Prop where
  inv : Inv slack 0 s'
  priv : Private s → Private s'

theorem Kept.preserved (h : Kept slack s s') : Preserved slack s s' := ⟨h.inv, h.priv⟩

theorem Preserved.trans (h : Preserved slack s s') (h' : Preserved slack s' s'') :
    Preserved slack s s'' :=
  ⟨h'.inv, fun hs => h'.priv (h.priv hs)⟩

theorem preserved_of_released {pages : Nat → Prop} (h' : Inv slack 0 s')
    (hr : Released pages s s') : Preserved slack s s' :=
  ⟨h', fun hs => hs.of_released hr⟩

/-- The page table of a process has the same gaps as before. -/
def SameGaps (p : Option Nat) (s s' : Machine) : Prop :=
  ∀ pid, p = some pid → ∀ q, Unused s' pid q ↔ Unused s pid q

theorem getPagingEntry_gaps (h : Inv slack P s) (hP : ∀ f, 0 ≤ P f) (hpage : page < PAGE_COUNT)
    (p : Option Nat) (alloc : Bool) :
    Steps (getPagingEntry p page alloc) s fun r s' =>
      Inv slack P s' ∧ Grows s s' ∧ (r = true → Mapped s' p page) ∧ (alloc = true → r = true) ∧
        (p = none → home s' = home s) ∧ SameGaps p s s' := by
  rcases p with _ | pid
  · refine (getPagingEntry_spec h hP hpage none alloc).mono ?_
    rintro r s' ⟨h', hg, hm, hr, hhome⟩
    exact ⟨h', hg, hm, hr, hhome, nofun⟩
  · refine (getProcessEntry_spec h hP hpage alloc).mono ?_
    rintro r s' ⟨h', hg, hm, hr, -, hgaps⟩
    refine ⟨h', hg, hm, hr, nofun, ?_⟩
    rintro _ ⟨⟩
    exact hgaps

/-- A new frame is taken before the entry which will name it is looked at. -/
theorem steps_take {α : Type} {Q : α → Machine → Prop} {k : Nat → PagingEntry → M α}
    (h : Inv slack 0 s) (hpage : page < PAGE_COUNT)
    (hk : ∀ f s', Inv slack (due (some f)) s' → Grows s s' → Mapped s' p page → Fresh s' f →
      SameGaps p s s' → Steps (k f (s'.entry p page)) s' Q) :
    Steps (do
      let index ← physMemAllocPage false
      let _ ← getPagingEntry p page true
      let table ← loadEntry p page
      k index table) s Q := by
  refine (physMemAllocPage_fresh h zero_nonneg false).bind ?_
  rintro f s₁ ⟨h₁, hg₁, hused, hfresh, -⟩
  rw [zero_add] at h₁
  refine (getPagingEntry_gaps h₁ (due_nonneg _) hpage p true).bind ?_
  rintro r s₂ ⟨h₂, hg₂, hmapped, hr, -, hgaps⟩
  have hm := hmapped (hr rfl)
  refine yields_ok_bind (h₂.structured.loadEntry_ok hpage hm) ?_
  refine hk f s₂ h₂ (hg₁.toGrows.trans hg₂) hm (hfresh.mono hused hg₂) fun pid hp q => ?_
  rw [hgaps pid hp q, Unused, hg₁.process]
  rfl

theorem kept_fill_grows {s₀ : Machine} (rw user : Bool) (h₀ : Inv slack 0 s₀)
    (h : Inv slack (due (some f)) s) (hg : Grows s₀ s) (hpage : page < PAGE_COUNT)
    (hm : Mapped s p page) (hw : Writable s p page) (hzero : s.entry p page = .zero)
    (hf : Fresh s f) : Kept slack s₀ (s.setEntry p page ⟨true, rw, user, 0, f⟩) :=
  kept_fill rw user h hpage hm hw (by rw [hzero]; rfl) hf hg.extends
    fun hs => hs.of_grows h₀ zero_nonneg hg

theorem entry_eq_zero_iff (h : Structured s) (hm : Mapped s (some pid) page) :
    s.entry (some pid) page = .zero ↔ Unused s pid page := by
  constructor
  · intro hzero
    exact Or.inr hzero
  · rintro (hdir | hzero)
    · exact ((h.table_present hm).2.2 hdir).elim
    · exact hzero

theorem unused_setEntry {q : Nat} (hne : q ≠ page) :
    Unused (s.setEntry (some pid) page e) pid q ↔ Unused s pid q := by
  rw [Unused, Machine.setEntry, setProcess_self]
  simp only [Process.setTable, Function.update_of_ne hne]
  rfl

theorem fixedLoop_process {rw user : Bool} {length cur : Nat} (h : Inv slack 0 s)
    (hle : length ≤ PAGE_COUNT) (hfree : ∀ page, Span length cur page → Unused s pid page) :
    Steps (fixedLoop (some pid) addr rw user length cur) s fun _ s' => Kept slack s s' := by
  induction length generalizing s cur with
  | zero => exact yields_pure (Kept.refl h)
  | succ length ih =>
      rw [fixedLoop]
      refine steps_take h (pageOf_lt cur) fun f s₁ h₁ hg hm hf hgaps => ?_
      have hzero : s₁.entry (some pid) (pageOf cur) = .zero := by
        rw [entry_eq_zero_iff h₁.structured hm, hgaps pid rfl]
        exact hfree _ (Or.inl rfl)
      refine yields_ite (fun hne => (hne hzero).elim) fun _ => ?_
      refine yields_ok_bind (h₁.structured.storeEntry_ok (pageOf_lt cur) hm _) ?_
      have hkept := kept_fill_grows rw user h h₁ hg (pageOf_lt cur) hm trivial hzero hf
      refine (ih hkept.inv (by omega) fun page hpage => ?_).mono fun _ s' hs' => hkept.trans hs'
      rw [unused_setEntry (span_ne hpage hle), hgaps pid rfl]
      exact hfree page (Or.inr hpage)

theorem releaseNew_spec (pages : Nat → Prop) (h : Inv slack (due (some f)) s) :
    Steps (physMemReleasePage f) s fun _ s' => Inv slack 0 s' ∧ Released pages s s' := by
  rw [← zero_add (due _)] at h
  refine (physMemReleasePage_spec h le_rfl).mono ?_
  rintro _ s' ⟨h', hsame, hholds⟩
  exact ⟨h', released_of_sameTables hsame hholds _⟩

/-- A collision at the first page has nothing to undo. -/
theorem fixedLoop_collision {rw user : Bool} {length : Nat} (h : Inv slack 0 s)
    (hused : ¬Unused s pid (pageOf addr)) :
    Steps (fixedLoop (some pid) addr rw user length addr) s fun _ s' => Preserved slack s s' := by
  cases length with
  | zero => exact yields_pure (Kept.refl h).preserved
  | succ length =>
      rw [fixedLoop]
      refine steps_take h (pageOf_lt addr) fun f s₁ h₁ hg hm hf hgaps => ?_
      refine yields_ite (fun _ => ?_) fun hzero => ?_
      · refine (releaseNew_spec (fun _ => False) h₁).bind ?_
        rintro _ s₂ ⟨h₂, hr⟩
        have hlength : (addr + 2 ^ 32 - addr) % 2 ^ 32 / PAGE_SIZE = 0 := by
          rw [Nat.add_sub_cancel_left]
          rfl
        rw [hlength]
        refine (pagingReleasePhysMem_kernel h₂ zero_nonneg fun _ => False.elim).bind ?_
        rintro _ s₃ ⟨h₃, hr'⟩
        exact yields_pure ⟨h₃, fun hs =>
          ((hs.of_grows h zero_nonneg hg).of_released hr).of_released hr'⟩
      · refine (hused ?_).elim
        rw [← hgaps pid rfl, ← entry_eq_zero_iff h₁.structured hm]
        exact not_not.mp hzero

theorem nextPage_add {n : Nat} : nextPage ((addr + n * PAGE_SIZE) % 2 ^ 32) =
    (addr + (n + 1) * PAGE_SIZE) % 2 ^ 32 := by
  unfold nextPage
  simp only [PAGE_SIZE]
  omega

theorem pageOf_add {n : Nat} (h : pageOf addr + n < PAGE_COUNT) :
    pageOf ((addr + n * PAGE_SIZE) % 2 ^ 32) = pageOf addr + n := by
  unfold pageOf at *
  simp only [PAGE_SIZE, PAGE_COUNT] at *
  omega

theorem length_of_add {n : Nat} (haddr : addr < 2 ^ 32) (hn : n < PAGE_COUNT) :
    ((addr + n * PAGE_SIZE) % 2 ^ 32 + 2 ^ 32 - addr) % 2 ^ 32 / PAGE_SIZE = n := by
  simp only [PAGE_SIZE, PAGE_COUNT] at *
  omega

/-- The `n` pages before were filled by the loop itself. -/
theorem fixedLoop_kernel {length n : Nat} (rw user : Bool) (h : Inv slack 0 s)
    (haddr : addr < 2 ^ 32) (hend : pageOf addr + (n + length) ≤ KERNEL_PAGE)
    (hdone : ∀ page, pageOf addr ≤ page → page < pageOf addr + n → Loose s page) :
    Steps (fixedLoop none addr rw user length ((addr + n * PAGE_SIZE) % 2 ^ 32)) s fun _ s' =>
      Preserved slack s s' := by
  induction length generalizing s n with
  | zero => exact yields_pure (Kept.refl h).preserved
  | succ length ih =>
      have hn : pageOf addr + n < PAGE_COUNT := by
        simp only [KERNEL_PAGE, PAGE_COUNT] at *
        omega
      have hlt : pageOf addr + n < KERNEL_PAGE := by omega
      rw [fixedLoop]
      refine steps_take h (pageOf_lt _) fun f s₁ h₁ hg hm hf _ => ?_
      refine yields_ite (fun hne => ?_) fun hzero => ?_
      · refine (releaseNew_spec (fun _ => False) h₁).bind ?_
        rintro _ s₂ ⟨h₂, hr⟩
        rw [length_of_add haddr (by omega)]
        refine (pagingReleasePhysMem_kernel h₂ zero_nonneg fun page hpage => ?_).bind ?_
        · rw [span_iff (by omega)] at hpage
          refine ⟨by omega, ?_⟩
          rw [hr.owned]
          exact (hg.extends.loose page (hdone page hpage.1 hpage.2)).2
        · rintro _ s₃ ⟨h₃, hr'⟩
          exact yields_pure ⟨h₃, fun hs =>
            ((hs.of_grows h zero_nonneg hg).of_released hr).of_released hr'⟩
      · rw [not_not] at hzero
        rw [pageOf_add hn] at hm hzero ⊢
        have hfree := not_owned_of_zero h₁.structured hzero
        refine yields_ok_bind (h₁.structured.storeEntry_ok hn hm _) ?_
        have hkept := kept_fill_grows rw user h h₁ hg hn hm ⟨hlt, hfree⟩ hzero hf
        rw [nextPage_add]
        refine (ih hkept.inv (by omega) fun page hle hpage => ?_).mono fun _ s' hs' =>
          hkept.preserved.trans hs'
        rcases eq_or_ne page (pageOf addr + n) with rfl | hne
        · refine ⟨?_, hfree⟩
          rw [Machine.setEntry, Machine.setKernel]
          simp [PagingEntry.zero]
        · exact hkept.extends'.loose page (hdone page hle (by omega))

/-- A fixed allocation stays below the page tables of the kernel, and for a process it does not
collide behind its first page. -/
def FixedFits (s : Machine) (p : Option Nat) (addr length : Nat) : Prop :=
  match p with
  | none => pageOf addr + length ≤ KERNEL_PAGE
  | some pid => ¬Unused s pid (pageOf addr) ∨
      length ≤ PAGE_COUNT ∧ ∀ page, Span length addr page → Unused s pid page

theorem pagingTryAllocatePhysMemFixed_spec {length : Nat} (h : Inv slack 0 s)
    (haddr : addr < 2 ^ 32) (hfits : FixedFits s p addr length) (rw user : Bool) :
    Steps (pagingTryAllocatePhysMemFixed p addr length rw user) s fun _ s' =>
      Preserved slack s s' := by
  rw [pagingTryAllocatePhysMemFixed]
  refine yields_ite (fun _ => yields_pure (Kept.refl h).preserved) fun _ => ?_
  refine Yields.bind (Q := fun _ s' => Preserved slack s s') ?_ fun _ s' hs' => yields_pure hs'
  rcases p with _ | pid
  · have := fixedLoop_kernel (n := 0) rw user h haddr
      (by rw [zero_add]; exact hfits) fun page hle hlt => by omega
    rw [zero_mul, add_zero, Nat.mod_eq_of_lt haddr] at this
    exact this
  · rcases hfits with hused | ⟨hle, hfree⟩
    · exact fixedLoop_collision h hused
    · exact (fixedLoop_process h hle hfree).mono fun _ s' hs' => hs'.preserved

end

section

variable {slack : Nat → Nat} {P : Nat → ℤ} {s s' s'' : Machine} {f pid page addr dst src : Nat}
  {p : Option Nat} {e : PagingEntry}

/-- The pages of the processes were rearranged, and the kernel keeps its tables where they are. -/
structure Rearranged (p : Option Nat) (s s' : Machine) : Prop where
  homes : p = none → home s' = home s
  priv : Private s → Private s'
  fresh : ∀ f, used s f = true → Fresh s f → used s' f = true ∧ Fresh s' f

theorem Rearranged.trans (h : Rearranged p s s') (h' : Rearranged p s' s'') :
    Rearranged p s s'' :=
  ⟨fun hp => (h'.homes hp).trans (h.homes hp), fun hs => h'.priv (h.priv hs), fun f hu hf =>
    h'.fresh f (h.fresh f hu hf).1 (h.fresh f hu hf).2⟩

theorem Rearranged.refl (s : Machine) : Rearranged p s s :=
  ⟨fun _ => rfl, id, fun _ hu hf => ⟨hu, hf⟩⟩

theorem Rearranged.owned (h : Rearranged none s s') : Owned s' page ↔ Owned s page := by
  rw [Owned, h.homes rfl]
  rfl

theorem rearranged_of_grows (h : Inv slack P s) (hP : ∀ f, 0 ≤ P f) (hg : Grows s s')
    (hhome : p = none → home s' = home s) : Rearranged p s s' :=
  ⟨hhome, fun hs => hs.of_grows h hP hg, fun f hu hf => ⟨hg.used f hu, hf.mono hu hg⟩⟩

theorem home_setEntry : home (s.setEntry p page e) = home s := by
  rcases p with _ | pid
  · rfl
  · exact home_setProcess rfl rfl

theorem writable_of_home (h : Writable s p page) (hhome : home s' = home s) :
    Writable s' p page := by
  rcases p with _ | pid
  · refine ⟨h.1, ?_⟩
    rw [Owned, hhome]
    exact h.2
  · trivial

theorem mapped_setEntry {q : Nat} (hw : Writable s p page) (hm : Mapped s p q) :
    Mapped (s.setEntry p page e) p q := by
  rcases p with _ | pid
  · have : (s.setEntry none page e).kernel (KERNEL_PAGE + q / PAGETABLE_COUNT) =
        s.kernel (KERNEL_PAGE + q / PAGETABLE_COUNT) :=
      Function.update_of_ne (window_ne hw.1 _) _ _
    rw [Mapped, this]
    exact hm
  · exact extends_setTable.mapped (some pid) q hm

theorem entry_setEntry_self : (s.setEntry p page e).entry p page = e := by
  rcases p with _ | pid
  · exact Function.update_self ..
  · rw [Machine.entry, Machine.setEntry, setProcess_self]
    exact Function.update_self ..

theorem entry_setEntry_of_ne {q : Nat} (hne : q ≠ page) :
    (s.setEntry p page e).entry p q = s.entry p q := by
  rcases p with _ | pid
  · exact Function.update_of_ne hne _ _
  · rw [Machine.entry, Machine.setEntry, setProcess_self]
    exact Function.update_of_ne hne _ _

theorem setEntry_comm {q : Nat} {e' : PagingEntry} (hne : q ≠ page) :
    (s.setEntry p page e).setEntry p q e' = (s.setEntry p q e').setEntry p page e := by
  rcases p with _ | pid
  · simp only [Machine.setEntry, Machine.setKernel, Function.update_comm hne]
  · simp only [Machine.setEntry, Machine.setProcess, Process.setTable, Function.update_self,
      Function.update_idem, Function.update_comm hne]

/-- An entry moves to a page which is not in use. -/
theorem rearranged_move (h : Structured s) (hsrc : src < PAGE_COUNT) (hdst : dst < PAGE_COUNT)
    (hms : Mapped s p src) (hmd : Mapped s p dst) (hne : src ≠ dst) :
    Rearranged p s ((s.setEntry p dst (s.entry p src)).setEntry p src .zero) := by
  rw [setEntry_comm hne]
  refine ⟨fun _ => home_setEntry.trans home_setEntry, fun hs => ?_, fun f hu hf => ⟨?_, ?_, ?_⟩⟩
  · rcases p with _ | pid
    · exact hs.of_mapping rfl fun _ _ _ _ hf => hf
    · have hmapping := mapping_setTable (e := .zero) h hsrc hms
      refine (hs.setHidden h hsrc hms (Or.inl rfl)).setTable (h.setTable hms) hdst
        (mapped_setEntry trivial hmd) fun hpresent huser => ?_
      have hentry : mapping s pid src = some (s.entry (some pid) src) := by
        rw [mapping_of_mapped h hsrc hms, if_pos hpresent]
      refine ⟨hs.marked pid src _ hentry huser, hs.data pid src _ hentry huser, ?_⟩
      intro pid' page' e' he' hne' hu hf
      rw [hmapping] at he'
      split at he'
      · cases he'
      · rename_i hsrc'
        exact ⟨hs.shared _ _ _ _ _ _ hentry he' huser hu hf.symm fun h =>
            hsrc' ⟨h.1.symm, h.2.symm⟩,
          hs.shared _ _ _ _ _ _ he' hentry hu huser hf hsrc'⟩
  · rcases p with _ | pid <;> exact hu
  · rcases p with _ | pid <;> exact hf.1
  · rcases p with _ | pid
    · exact hf.2
    · intro pid' page' e' he'
      rw [mapping_setTable (h.setTable hms) hdst (mapped_setEntry trivial hmd),
        mapping_setTable h hsrc hms] at he'
      split at he'
      · split at he'
        · rename_i hpresent
          cases he'
          refine hf.2 pid src _ ?_
          rw [mapping_of_mapped h hsrc hms, if_pos hpresent]
        · cases he'
      · split at he'
        · cases he'
        · exact hf.2 pid' page' e' he'

theorem inv_move (h : Inv slack P s) (hsrc : src < PAGE_COUNT) (hdst : dst < PAGE_COUNT)
    (hms : Mapped s p src) (hmd : Mapped s p dst) (hws : Writable s p src)
    (hwd : Writable s p dst) (hzero : s.entry p dst = .zero) (hne : src ≠ dst) :
    Inv slack P ((s.setEntry p dst (s.entry p src)).setEntry p src .zero) := by
  have hset := h.setEntry hdst hmd hwd (s.entry p src)
  have := hset.setEntry hsrc (mapped_setEntry hwd hms) (writable_of_home hws home_setEntry) .zero
  rw [entry_setEntry_of_ne hne, hzero, named_zero, due_none, add_zero, sub_zero,
    sub_add_cancel] at this
  exact this

theorem entry_ne_zero (h : Structured s) (h' : Structured s') (hg : Grows s s')
    (hgaps : SameGaps p s s') (hm : Mapped s p page) (hm' : Mapped s' p page)
    (hne : s.entry p page ≠ .zero) : s'.entry p page ≠ .zero := by
  rcases p with _ | pid
  · rw [Machine.entry, hg.kernel page hne]
    exact hne
  · rw [ne_eq, entry_eq_zero_iff h' hm', hgaps pid rfl, ← entry_eq_zero_iff h hm]
    exact hne

/-- The pages which are moved away from hold no table. -/
theorem moveLoop_spec {length dst_cur src_cur : Nat} (h : Inv slack P s) (hP : ∀ f, 0 ≤ P f)
    (hsrc : p = none → ∀ page, Span length src_cur page → page < KERNEL_PAGE ∧ ¬Owned s page)
    (hdst : p = none → pageOf dst_cur + length ≤ KERNEL_PAGE) :
    Steps (moveLoop p length dst_cur src_cur) s fun _ s' =>
      Inv slack P s' ∧ Rearranged p s s' ∧
        (p = none → ∀ page, Span length dst_cur page → ¬Owned s' page) := by
  induction length generalizing s dst_cur src_cur with
  | zero => exact yields_pure ⟨h, Rearranged.refl s, fun _ _ hp => hp.elim⟩
  | succ length ih =>
      rw [moveLoop]
      refine (getPagingEntry_spec h hP (pageOf_lt src_cur) p false).bind ?_
      rintro r s₁ ⟨h₁, hg₁, hmapped, -, hhome₁⟩
      refine steps_check_bind fun hr => ?_
      have hms₁ := hmapped hr
      refine yields_ok_bind (h₁.structured.loadEntry_ok (pageOf_lt _) hms₁) ?_
      refine steps_check_bind fun hne => ?_
      refine (getPagingEntry_gaps h₁ hP (pageOf_lt dst_cur) p true).bind ?_
      rintro r s₂ ⟨h₂, hg₂, hmapped, hr, hhome₂, hgaps⟩
      have hmd := hmapped (hr rfl)
      have hms := hg₂.extends.mapped p _ hms₁
      have hr₂ : Rearranged p s s₂ :=
        (rearranged_of_grows h hP hg₁ hhome₁).trans (rearranged_of_grows h₁ hP hg₂ hhome₂)
      refine yields_ok_bind (h₂.structured.loadEntry_ok (pageOf_lt _) hmd) ?_
      refine steps_check_bind fun hzero => ?_
      have hzero : s₂.entry p (pageOf dst_cur) = .zero := by simpa using hzero
      refine yields_ok_bind (h₂.structured.loadEntry_ok (pageOf_lt _) hms) ?_
      have hwd : Writable s₂ p (pageOf dst_cur) := by
        rcases p with _ | pid
        · have := hdst rfl
          exact ⟨by omega, not_owned_of_zero h₂.structured hzero⟩
        · trivial
      have hws : Writable s₂ p (pageOf src_cur) := by
        rcases p with _ | pid
        · obtain ⟨hlt, hfree⟩ := hsrc rfl _ (Or.inl rfl)
          exact ⟨hlt, fun ho => hfree (hr₂.owned.mp ho)⟩
        · trivial
      refine yields_ok_bind (h₂.structured.storeEntry_ok (pageOf_lt _) hmd _) ?_
      have hset := h₂.setEntry (pageOf_lt _) hmd hwd (s₂.entry p (pageOf src_cur))
      refine yields_ok_bind (hset.structured.storeEntry_ok (pageOf_lt _)
        (mapped_setEntry hwd hms) _) ?_
      have hne' : pageOf src_cur ≠ pageOf dst_cur := by
        intro heq
        rw [← heq] at hzero
        exact entry_ne_zero h₁.structured h₂.structured hg₂ hgaps hms₁ hms
          (by simpa using hne) hzero
      have h₃ := inv_move h₂ (pageOf_lt _) (pageOf_lt _) hms hmd hws hwd hzero hne'
      have hr₃ := hr₂.trans (rearranged_move h₂.structured (pageOf_lt _) (pageOf_lt _) hms hmd hne')
      refine (ih h₃ (fun hp page hpage => ?_) fun hp => ?_).mono ?_
      · subst hp
        obtain ⟨hlt, hfree⟩ := hsrc rfl page (Or.inr hpage)
        exact ⟨hlt, fun ho => hfree (hr₃.owned.mp ho)⟩
      · have := hdst hp
        rw [pageOf_nextPage]
        · omega
        · simp only [KERNEL_PAGE, PAGE_COUNT] at *
          omega
      · rintro _ s' ⟨h', hr', hfree⟩
        refine ⟨h', hr₃.trans hr', fun hp page hpage => ?_⟩
        subst hp
        rcases hpage with rfl | hpage
        · rw [hr'.owned, Owned, home_setEntry, home_setEntry]
          exact hwd.2
        · exact hfree rfl page hpage

theorem inBounds_fits {length : Nat} (h : InBounds s length addr) (hle : length ≤ KERNEL_PAGE) :
    addr = pageOf addr * PAGE_SIZE ∧ 1 ≤ pageOf addr ∧ pageOf addr + length ≤ KERNEL_PAGE ∧
      ∀ page, pageOf addr ≤ page → page < pageOf addr + length → s.kernel page = .zero := by
  obtain ⟨start, rfl, hstart, hlt, ⟨hend, hzero⟩ | hover⟩ := h
  · rw [pageOf_mul (kernel_lt hlt)]
    exact ⟨rfl, hstart, hend, hzero⟩
  · simp only [KERNEL_PAGE] at *
    omega

theorem kernel_page_le : KERNEL_PAGE ≤ PAGE_COUNT := by decide

/-- A block of the kernel which grows: there is room for all of it below the page tables, and
none of its pages holds a table. -/
def BlockFits (s : Machine) (p : Option Nat) (addr old_length new_length : Nat) : Prop :=
  p = none → pageOf addr + new_length ≤ KERNEL_PAGE ∧
    ∀ page, pageOf addr ≤ page → page < pageOf addr + old_length → ¬Owned s page

theorem BlockFits.of_rearranged {old_length new_length : Nat}
    (h : BlockFits s p addr old_length new_length) (hr : Rearranged p s s') :
    BlockFits s' p addr old_length new_length := by
  intro hp
  subst hp
  refine ⟨(h rfl).1, fun page hle hlt ho => ?_⟩
  exact (h rfl).2 page hle hlt (hr.owned.mp ho)

theorem pageOf_or {start offset : Nat} (hstart : start < PAGE_COUNT) :
    pageOf (start * PAGE_SIZE ||| offset % PAGE_SIZE) = start := by
  have hor : start * PAGE_SIZE ||| offset % PAGE_SIZE = start * PAGE_SIZE + offset % PAGE_SIZE := by
    have := Nat.two_pow_add_eq_or_of_lt (i := 12) (b := offset % PAGE_SIZE)
      (Nat.mod_lt _ (by decide)) start
    rw [Nat.mul_comm start PAGE_SIZE]
    exact this.symm
  rw [hor]
  unfold pageOf
  simp only [PAGE_SIZE, PAGE_COUNT] at *
  omega

theorem pagingMove_spec {length dst_addr src_addr : Nat} (h : Inv slack P s) (hP : ∀ f, 0 ≤ P f)
    (hsrc : p = none → ∀ page, Span length src_addr page → page < KERNEL_PAGE ∧ ¬Owned s page)
    (hdst : p = none → pageOf dst_addr + length ≤ KERNEL_PAGE) :
    Steps (pagingMove p dst_addr src_addr length) s fun r s' =>
      r = dst_addr ||| src_addr % PAGE_SIZE ∧ Inv slack P s' ∧ Rearranged p s s' ∧
        (p = none → ∀ page, Span length dst_addr page → ¬Owned s' page) := by
  rw [pagingMove]
  refine steps_check_bind fun _ => (moveLoop_spec h hP hsrc hdst).bind ?_
  rintro _ s' ⟨h', hr, hfree⟩
  exact yields_pure ⟨rfl, h', hr, hfree⟩

theorem makeRoom_spec {new_length old_length : Nat} (h : Inv slack P s) (hP : ∀ f, 0 ≤ P f)
    (hlt : old_length < new_length) (hfits : BlockFits s p addr old_length new_length) :
    Steps (makeRoom p new_length addr old_length ((addr + old_length * PAGE_SIZE) % 2 ^ 32)) s
      fun r s' => Inv slack P s' ∧ Rearranged p s s' ∧
        r.2 = (r.1 + old_length * PAGE_SIZE) % 2 ^ 32 ∧ Mapped s' p (pageOf r.2) ∧
        s'.entry p (pageOf r.2) = .zero ∧ BlockFits s' p r.1 old_length new_length := by
  rw [makeRoom]
  refine (getPagingEntry_spec h hP (pageOf_lt _) p true).bind ?_
  rintro r s₁ ⟨h₁, hg₁, hmapped, hr, hhome₁⟩
  have hm := hmapped (hr rfl)
  have hr₁ := rearranged_of_grows h hP hg₁ hhome₁
  have hfits₁ := hfits.of_rearranged hr₁
  refine yields_ok_bind (h₁.structured.loadEntry_ok (pageOf_lt _) hm) ?_
  refine yields_ite (fun _ => ?_) fun hzero => ?_
  · refine (pagingSearchArea_spec h₁ hP p new_length).bind ?_
    rintro new_addr s₂ ⟨h₂, hg₂, hsame, hb⟩
    have hr₂ := hr₁.trans (rearranged_of_grows h₁ hP hg₂ fun hp => by rw [hsame hp])
    have hfits₂ := hfits.of_rearranged hr₂
    have hend : p = none → pageOf new_addr + new_length ≤ KERNEL_PAGE := by
      intro hp
      have := (hfits hp).1
      exact (inBounds_fits (hb hp) (by omega)).2.2.1
    refine (pagingMove_spec h₂ hP (fun hp page hpage => ?_) fun hp => ?_).bind ?_
    · obtain ⟨hroom, hfree⟩ := hfits₂ hp
      have := kernel_page_le
      rw [span_iff (by omega)] at hpage
      exact ⟨by omega, hfree page hpage.1 hpage.2⟩
    · have := hend hp
      omega
    · rintro _ s₃ ⟨rfl, h₃, hr₃, hfree⟩
      refine (getPagingEntry_spec h₃ hP (pageOf_lt _) p true).bind ?_
      rintro r s₄ ⟨h₄, hg₄, hmapped, hr, hhome₄⟩
      have hm₄ := hmapped (hr rfl)
      have hr₄ := rearranged_of_grows h₃ hP hg₄ hhome₄
      refine yields_ok_bind (h₄.structured.loadEntry_ok (pageOf_lt _) hm₄) ?_
      refine steps_check_bind fun hzero => yields_pure ⟨h₄, hr₂.trans (hr₃.trans hr₄), rfl, hm₄,
        by simpa using hzero, fun hp => ?_⟩
      have := kernel_page_le
      have hend := hend hp
      have hpage : pageOf (new_addr ||| addr % PAGE_SIZE) = pageOf new_addr := by
        rw [(inBounds_fits (hb hp) (by omega)).1, pageOf_or (pageOf_lt _), pageOf_mul (pageOf_lt _)]
      rw [hpage]
      refine ⟨hend, fun page hle hpage => ?_⟩
      subst hp
      rw [hr₄.owned]
      exact hfree rfl page ((span_iff (by omega)).mpr ⟨hle, hpage⟩)
  · exact yields_pure ⟨h₁, hr₁, rfl, hm, not_not.mp hzero, hfits₁⟩

theorem growLoop_spec {rw user : Bool} {new_length rounds old_length : Nat} (h : Inv slack 0 s)
    (hrounds : old_length + rounds = new_length)
    (hfits : BlockFits s p addr old_length new_length) :
    Steps (growLoop p new_length rw user rounds addr old_length
      ((addr + old_length * PAGE_SIZE) % 2 ^ 32)) s fun _ s' => Preserved slack s s' := by
  induction rounds generalizing s addr old_length with
  | zero => exact yields_pure (Kept.refl h).preserved
  | succ rounds ih =>
      rw [growLoop]
      refine (physMemAllocPage_fresh h zero_nonneg false).bind ?_
      rintro f s₁ ⟨h₁, hg₁, hused, hfresh, -, hextra⟩
      rw [zero_add] at h₁
      have hr₁ : Rearranged p s s₁ := by
        refine rearranged_of_grows h zero_nonneg hg₁.toGrows fun _ => ?_
        funext role
        cases role <;> simp only [home, hextra, hg₁.process]
      refine (makeRoom_spec h₁ (due_nonneg _) (by omega) (hfits.of_rearranged hr₁)).bind ?_
      rintro ⟨addr', cur⟩ s₂ ⟨h₂, hr₂, hcur, hm, hzero, hfits₂⟩
      dsimp only at hcur hm hzero hfits₂ ⊢
      subst hcur
      have hw : Writable s₂ p (pageOf ((addr' + old_length * PAGE_SIZE) % 2 ^ 32)) := by
        rcases p with _ | pid
        · have := (hfits₂ rfl).1
          have := kernel_page_le
          refine ⟨?_, not_owned_of_zero h₂.structured hzero⟩
          rw [pageOf_add (by omega)]
          omega
        · trivial
      refine yields_ok_bind (h₂.structured.storeEntry_ok (pageOf_lt _) hm _) ?_
      have hkept := kept_fill rw user h₂ (pageOf_lt _) hm hw (by rw [hzero]; rfl)
        (hr₂.fresh f hused hfresh).2 (Extends.refl s₂) id
      rw [nextPage_add]
      refine (ih hkept.inv (by omega) fun hp => ?_).mono fun _ s' hs' => ⟨hs'.inv, fun hs =>
        hs'.priv (hkept.priv (hr₂.priv (hr₁.priv hs)))⟩
      subst hp
      obtain ⟨hroom, hfree⟩ := hfits₂ rfl
      have := kernel_page_le
      refine ⟨hroom, fun page hle hlt => ?_⟩
      rw [Owned, home_setEntry]
      rcases eq_or_ne page (pageOf addr' + old_length) with rfl | hne
      · rw [pageOf_add (by omega)] at hw
        exact hw.2
      · exact hfree page hle (by omega)

theorem shrinkEntry_steps {Q : Unit → Machine → Prop} (h : Steps (releaseEntry p page e) s Q) :
    Steps (shrinkEntry p page e) s Q := by
  rw [releaseEntry] at h
  rw [shrinkEntry]
  refine yields_ite (fun hpresent => ?_) fun habsent => ?_
  · rw [if_pos hpresent] at h
    exact h
  · refine yields_ite (fun havail => ?_) fun _ => steps_requirePresent fun hp => (habsent hp).elim
    rw [if_neg habsent, if_pos (Or.inr havail)] at h
    exact h

theorem shrinkLoop_kernel {rounds cur : Nat} (h : Inv slack 0 s)
    (hpages : ∀ page, Span rounds cur page → page < KERNEL_PAGE ∧ ¬Owned s page) :
    Steps (shrinkLoop none rounds cur) s fun _ s' =>
      Inv slack 0 s' ∧ Released (Span rounds cur) s s' := by
  induction rounds generalizing s cur with
  | zero => exact yields_pure ⟨h, Released.refl _ s⟩
  | succ rounds ih =>
      obtain ⟨hlt, hfree⟩ := hpages (pageOf cur) (Or.inl rfl)
      rw [shrinkLoop]
      refine (getKernelEntry_spec h (kernel_lt hlt) false).bind ?_
      rintro r s₁ ⟨-, -, -, hmapped, -, hsame⟩
      obtain ⟨rfl, -⟩ := hsame rfl
      refine steps_check_bind fun hr => ?_
      refine yields_ok_bind (h.structured.loadEntry_ok (kernel_lt hlt) (hmapped hr)) ?_
      refine steps_check_bind fun _ => ?_
      refine (shrinkEntry_steps
        (releaseEntry_kernel h zero_nonneg hlt (hmapped hr) hfree rfl)).bind ?_
      rintro _ s₂ ⟨h₂, hr₂⟩
      refine (ih h₂ fun page hpage => ?_).mono ?_
      · rw [hr₂.owned]
        exact hpages page (Or.inr hpage)
      · rintro _ s' ⟨h', hr'⟩
        exact ⟨h', (hr₂.mono fun _ => Or.inl).trans (hr'.mono fun _ => Or.inr)⟩

theorem shrinkLoop_process {rounds cur : Nat} (h : Inv slack 0 s) :
    Steps (shrinkLoop (some pid) rounds cur) s fun _ s' => Kept slack s s' := by
  induction rounds generalizing s cur with
  | zero => exact yields_pure (Kept.refl h)
  | succ rounds ih =>
      rw [shrinkLoop]
      refine (getPagingEntry_spec h zero_nonneg (pageOf_lt cur) (some pid) false).bind ?_
      rintro r s₁ ⟨h₁, hg₁, hmapped, -, -⟩
      refine steps_check_bind fun hr => ?_
      refine yields_ok_bind (h₁.structured.loadEntry_ok (pageOf_lt cur) (hmapped hr)) ?_
      refine steps_check_bind fun _ => ?_
      refine (shrinkEntry_steps (clear_spec h₁ (pageOf_lt cur) (hmapped hr))).bind ?_
      rintro _ s₂ ⟨h₂, hsame, hholds⟩
      have hd := dropped_setEntry (fun _ => false) h₁ (pageOf_lt cur) (hmapped hr) h₂ hsame hholds
        rfl
      exact (ih h₂).mono fun _ s' hs' => (kept_of_grows h h₁ hg₁).trans (hd.toKept.trans hs')

/-- The pages of the kernel from `addr` on which a function may change or release. -/
def ReAllocateFits (s : Machine) (p : Option Nat) (addr old_length new_length : Nat) : Prop :=
  p = none → pageOf addr + max old_length new_length ≤ KERNEL_PAGE ∧
    ∀ page, pageOf addr ≤ page → page < pageOf addr + old_length → ¬Owned s page

theorem blockOf_spec {old_length new_length : Nat} (h : Inv slack 0 s)
    (hlt : old_length < new_length) (hfits : ReAllocateFits s p addr old_length new_length) :
    Steps (blockOf p addr new_length) s fun r s' =>
      Kept slack s s' ∧ BlockFits s' p r old_length new_length := by
  rw [blockOf]
  refine yields_ite (fun hnull => ?_) fun _ => yields_pure ⟨Kept.refl h, fun hp => ?_⟩
  · refine (pagingSearchArea_spec h zero_nonneg p new_length).mono ?_
    rintro r s' ⟨h', hg, hsame, hb⟩
    refine ⟨kept_of_grows h h' hg, fun hp => ?_⟩
    have hle := (hfits hp).1
    obtain ⟨-, -, hend, hzero⟩ := inBounds_fits (hb hp) (by omega)
    exact ⟨hend, fun page hle hpage =>
      not_owned_of_zero h'.structured (hzero page hle (by omega))⟩
  · obtain ⟨hend, hfree⟩ := hfits hp
    exact ⟨by omega, hfree⟩

theorem pagingReAllocatePhysMem_spec {old_length new_length : Nat} (h : Inv slack 0 s)
    (hfits : ReAllocateFits s p addr old_length new_length) (rw user : Bool) :
    Steps (pagingReAllocatePhysMem p addr old_length new_length rw user) s fun _ s' =>
      Preserved slack s s' := by
  rw [pagingReAllocatePhysMem]
  refine yields_ite (fun hlt => ?_) fun hle => ?_
  · refine (blockOf_spec h hlt hfits).bind ?_
    rintro addr' s₁ ⟨hkept, hfits₁⟩
    exact (growLoop_spec hkept.inv (by omega) hfits₁).mono fun _ s' hs' =>
      hkept.preserved.trans hs'
  · refine Yields.bind (Q := fun _ s' => Preserved slack s s') ?_ fun _ s' hs' => yields_pure hs'
    rcases p with _ | pid
    · obtain ⟨hend, hfree⟩ := hfits rfl
      refine (shrinkLoop_kernel h fun page hpage => ?_).mono fun _ s' hs' =>
        preserved_of_released hs'.1 hs'.2
      rcases Nat.eq_or_lt_of_le (Nat.not_lt.mp hle) with heq | hlt
      · rw [heq, Nat.sub_self] at hpage
        exact hpage.elim
      · have := kernel_page_le
        have hpageOf : pageOf ((addr + new_length * PAGE_SIZE) % 2 ^ 32) = pageOf addr +
          new_length :=
          pageOf_add (by omega)
        rw [span_iff (by omega), hpageOf] at hpage
        exact ⟨by omega, hfree page (by omega) (by omega)⟩
    · exact (shrinkLoop_process h).mono fun _ s' hs' => hs'.preserved

end

section

variable {slack : Nat → Nat} {P : Nat → ℤ} {s s' s'' : Machine} {f pid page addr dst src : Nat}
  {p : Option Nat} {e : PagingEntry}

theorem inv_memory (h : Inv slack P s) (m : Nat → Nat → BitVec 8) :
    Inv slack P { s with memory := m } :=
  have hs : Structured { s with memory := m } :=
    ⟨⟨h.1.1.1, h.1.1.2, h.1.1.3⟩, fun i hi => (h.1.2 i hi).imp (fun h => ⟨h.1, h.2⟩)
      fun h => ⟨h.1, h.2, h.3⟩, h.1.3, h.1.4, h.1.5⟩
  ⟨hs, ⟨h.2.1, h.2.2, h.2.3⟩, h.3, h.4, h.5, h.6⟩

/-- Pages which were not in use before are released again. -/
theorem extends_released {pages : Nat → Prop} (he : Extends s s')
    (hk : ∀ page, s.kernel page ≠ .zero → s'.kernel page = s.kernel page)
    (hpages : ∀ page, pages page → page < KERNEL_PAGE ∧ s.kernel page = .zero)
    (hr : Released pages s' s'') : Extends s s'' := by
  refine ⟨fun p q hq => ?_, fun q hq => ?_⟩
  · rcases p with _ | pid
    · rw [Mapped, hr.kernel _ fun hp => window_ne (hpages _ hp).1 _ rfl]
      exact he.mapped none q hq
    · rw [Mapped, hr.process]
      exact he.mapped (some pid) q hq
  · refine ⟨?_, fun ho => (he.loose q hq).2 (hr.owned.mp ho)⟩
    rw [hr.kernel q fun hp => hq.1 (hpages q hp).2, hk q hq.1]
    exact hq.1

/-- A frame was copied to another one. -/
structure Copied (dst src : Nat) (s s' : Machine) : Prop where
  memory : s'.memory = Function.update s.memory dst (s.memory src)
  process : s'.process = s.process
  kernel : ∀ page, s.kernel page ≠ .zero → s'.kernel page = s.kernel page
  extends' : Extends s s'
  holds : ∀ f, s'.holdsTable f = true → s.holdsTable f = true ∨ used s f = false
  adds : Adds (fun _ => False) s s'

theorem translate_of_mappedAt {rw user : Bool} (h : MappedAt s s' rw user f addr)
    (hs : Structured s') : s'.translate (pageOf addr) = some f := by
  have hne : s'.kernel (pageOf addr) ≠ .zero := by
    rw [h.entry]
    simp [PagingEntry.zero]
  rw [translate_of_ready (ready_of_ne_zero hs h.lt hne), h.entry]
  rfl

theorem span_one {cur page : Nat} : Span 1 cur page ↔ page = pageOf cur := by
  rw [Span, Span, or_false]

theorem unused_of_grows (h : KernelGrows s s') (hzero : s'.kernel page = .zero) :
    s.kernel page = .zero := by
  by_contra hne
  exact hne (by rw [← h.kernel page hne, hzero])

theorem copyPage_ok {destination source : Nat}
    (hdst : s.translate (pageOf destination) = some dst)
    (hsrc : s.translate (pageOf source) = some src) :
    copyPage destination source s =
      .ok ((), { s with memory := Function.update s.memory dst (s.memory src) }) := by
  have hget : (get : M Machine) s = .ok (s, s) := rfl
  simp only [copyPage, bind_apply, hget, hdst, hsrc]
  rfl

/-- Two frames are mapped into the kernel, one is copied to the other, and both are unmapped. -/
theorem copyFrame_spec {α : Type} {Q : α → Machine → Prop} {k : M α} (h : Inv slack P s)
    (hP : ∀ f, 0 ≤ P f) (hdst : used s dst = true) (hsrc : used s src = true)
    (hk : ∀ s', Inv slack P s' → Copied dst src s s' → Steps k s' Q) :
    Steps (do
      let destination ← pagingMapPhysMem (← physMemAddRefPage dst) 0 true false
      let source ← pagingMapPhysMem (← physMemAddRefPage src) 0 true false
      copyPage destination source
      pagingReleasePhysMem none destination 1
      pagingReleasePhysMem none source 1
      k) s Q := by
  refine ((physMemAddRefPage_spec h hdst).and (physMemAddRefPage_adds (fun _ => False) h dst)).bind
    ?_
  rintro r s₁ ⟨⟨hr, h₁, hg₁⟩, ha₁⟩
  rw [hr]
  refine ((pagingMapPhysMem_spec h₁ true false).and (pagingMapPhysMem_adds h₁ dst true false)).bind
    ?_
  rintro destination s₂ ⟨⟨h₂, hg₂, hat⟩, ha₂⟩
  have hg₁₂ := hg₁.trans hg₂
  refine ((physMemAddRefPage_spec h₂ (hg₁₂.used src hsrc)).and
    (physMemAddRefPage_adds (fun _ => False) h₂ src)).bind ?_
  rintro r' s₃ ⟨⟨hr', h₃, hg₃⟩, ha₃⟩
  rw [hr']
  refine ((pagingMapPhysMem_spec h₃ true false).and (pagingMapPhysMem_adds h₃ src true false)).bind
    ?_
  rintro source s₄ ⟨⟨h₄, hg₄, hat'⟩, ha₄⟩
  have hg₃₄ := hg₃.trans hg₄
  have hg := hg₁₂.trans hg₃₄
  have ha : Adds (fun page => page = pageOf destination ∨ page = pageOf source) s s₄ :=
    ((ha₁.mono nofun).trans (ha₂.mono fun _ => Or.inl) hg₁.toGrows hg₂.toGrows).trans
      ((ha₃.mono nofun).trans (ha₄.mono fun _ => Or.inr) hg₃.toGrows hg₄.toGrows) hg₁₂.toGrows
        hg₃₄.toGrows
  have hloose : Loose s₄ (pageOf destination) := by
    refine hg₃₄.toGrows.extends.loose _ ⟨?_, hat.free⟩
    rw [hat.entry]
    simp [PagingEntry.zero]
  have htranslate : s₄.translate (pageOf destination) = some dst := by
    have hkernel := hg₃₄.kernel (pageOf destination) (by rw [hat.entry]; simp [PagingEntry.zero])
    rw [translate_of_ready (ready_of_ne_zero h₄.structured hat.lt hloose.1), hkernel, hat.entry]
    rfl
  have hunused : ∀ page, page = pageOf destination ∨ page = pageOf source →
      page < KERNEL_PAGE ∧ s.kernel page = .zero := by
    rintro page (rfl | rfl)
    · exact ⟨hat.lt, unused_of_grows hg₁ hat.unused⟩
    · exact ⟨hat'.lt, unused_of_grows hg₁₂ (unused_of_grows hg₃ hat'.unused)⟩
  refine yields_ok_bind (copyPage_ok htranslate (translate_of_mappedAt hat' h₄.structured)) ?_
  have hpages₄ : ∀ page, Span 1 destination page → page < KERNEL_PAGE ∧
      ¬Owned { s₄ with memory := Function.update s₄.memory dst (s₄.memory src) } page := by
    intro page hpage
    rw [span_one.mp hpage]
    exact ⟨hat.lt, hloose.2⟩
  refine ((pagingReleasePhysMem_kernel (inv_memory h₄ _) hP hpages₄).and
    (pagingReleasePhysMem_clears (inv_memory h₄ _) hP hpages₄)).bind ?_
  rintro _ s₆ ⟨⟨h₆, hr₆⟩, hclear₆⟩
  have hpages₆ : ∀ page, Span 1 source page → page < KERNEL_PAGE ∧ ¬Owned s₆ page := by
    intro page hpage
    rw [span_one.mp hpage, hr₆.owned]
    exact ⟨hat'.lt, hat'.free⟩
  refine ((pagingReleasePhysMem_kernel h₆ hP hpages₆).and
    (pagingReleasePhysMem_clears h₆ hP hpages₆)).bind ?_
  rintro _ s₇ ⟨⟨h₇, hr₇⟩, hclear₇⟩
  have hr := (hr₆.mono fun _ hp => Or.inl (span_one.mp hp)).trans
    (hr₇.mono fun _ hp => Or.inr (span_one.mp hp))
  refine hk s₇ h₇ ⟨?_, ?_, fun page hne => ?_, ?_, fun f hf => ?_, fun page _ hzero hne => ?_⟩
  · rw [hr.memory, hg.memory]
  · exact hr.process.trans hg.process
  · rw [hr.kernel page fun hp => hne (hunused page hp).2]
    exact hg.kernel page hne
  · have he : Extends s { s₄ with memory := Function.update s₄.memory dst (s₄.memory src) } :=
      ⟨hg.toGrows.extends.mapped, hg.toGrows.extends.loose⟩
    exact extends_released he hg.kernel hunused hr
  · rw [hr.holdsTable] at hf
    exact hg.holds f hf
  · have hdestination : page ≠ pageOf destination := by
      rintro rfl
      rcases eq_or_ne (pageOf destination) (pageOf source) with heq | hne'
      · exact hne (hclear₇ _ (span_one.mpr heq))
      · rw [hr₇.kernel _ fun hp => hne' (span_one.mp hp)] at hne
        exact hne (hclear₆ _ (span_one.mpr rfl))
    have hsource : page ≠ pageOf source := by
      rintro rfl
      exact hne (hclear₇ _ (span_one.mpr rfl))
    have hout : ¬(page = pageOf destination ∨ page = pageOf source) :=
      not_or.mpr ⟨hdestination, hsource⟩
    rw [hr.kernel page hout] at hne ⊢
    exact ha page hout hzero hne

/-- The entry of a page which is duplicated on write after it was written. -/
def duplicated (e : PagingEntry) (f : Nat) : PagingEntry :=
  { e with rw := true, avail := 0, frame := f }

/-- The page has a frame for itself with the same contents. -/
structure Duplicated (slack : Nat → Nat) (p : Option Nat) (page : Nat) (s s' : Machine) : Prop
    extends Kept slack s s' where
  other : ∀ q page', ¬(p = some q ∧ page' = page) → mapping s' q page' = mapping s q page'
  kernel : ∀ page', s.kernel page' ≠ .zero → ¬(p = none ∧ page' = page) →
    s'.kernel page' = s.kernel page'
  entry : ∃ f, s'.entry p page = duplicated (s.entry p page) f ∧
    (f = (s.entry p page).frame ∧ refs s f ≤ 1 ∧ s'.memory = s.memory ∨
      used s f = false ∧
        s'.memory = Function.update s.memory f (s.memory (s.entry p page).frame))
  adds : ∀ page', s.kernel page' = .zero → s'.kernel page' ≠ .zero →
    used s (s'.kernel page').frame = false ∧ (s'.kernel page').frame ≠ (s'.entry p page).frame

/-- What `Inv.refs_pos` says for an entry. -/
theorem used_of_entry (h : Inv slack P s) (hP : ∀ f, 0 ≤ P f) (hpage : page < PAGE_COUNT)
    (hm : Mapped s p page) (hpresent : (s.entry p page).present = true) :
    used s (s.entry p page).frame = true := by
  rcases p with _ | pid
  · have hname : names s (.kernel page) = some (s.entry none page).frame := by
      rw [names, if_pos hpage, translate_of_ready (h.structured.ready hpage hm)]
      exact if_pos hpresent
    exact (refs_pos_iff h.recorded).mp (h.refs_pos hname (hP _))
  · have he : mapping s pid page = some (s.entry (some pid) page) := by
      rw [mapping_of_mapped h.structured hpage hm, if_pos hpresent]
    exact used_of_mapping h hP he

/-- Nobody else has a frame with a single reference. -/
theorem eq_of_refs_le_one (h : Inv slack 0 s) {pid' page' : Nat} {e' : PagingEntry}
    (he : mapping s pid page = some e) (he' : mapping s pid' page' = some e')
    (hf : e'.frame = e.frame) (hone : refs s e.frame ≤ 1) : pid' = pid ∧ page' = page := by
  have hname : names s (.table pid page) = some e.frame := by
    rw [names, he]
    rfl
  have hname' : names s (.table pid' page') = some e.frame := by
    rw [names, he', ← hf]
    rfl
  have hbalance := h.balance e.frame
  have hpos := tally_pos h.finite hname
  have htally : tally (names s) e.frame = 1 := by
    simp only [Pi.zero_apply] at hbalance
    omega
  have := eq_of_tally_eq_one h.finite htally hname' hname
  simpa using this

theorem mapping_of_process (hprocess : s'.process = s.process) : mapping s' = mapping s := by
  funext pid page
  rw [mapping, hprocess]
  rfl

theorem inv_setEntry_same (h : Inv slack P s) (hpage : page < PAGE_COUNT) (hm : Mapped s p page)
    (hw : Writable s p page) (hn : named e = named (s.entry p page)) :
    Inv slack P (s.setEntry p page e) := by
  have := h.setEntry hpage hm hw e
  rw [hn, add_sub_cancel_right] at this
  exact this

theorem kernel_setEntry {page' : Nat} (hne : ¬(p = none ∧ page' = page)) :
    (s.setEntry p page e).kernel page' = s.kernel page' := by
  rcases p with _ | pid
  · exact Function.update_of_ne (fun hp => hne ⟨rfl, hp⟩) _ _
  · rfl

theorem extends_setEntry (hw : Writable s p page) (he : e ≠ .zero) :
    Extends s (s.setEntry p page e) := by
  rcases p with _ | pid
  · exact extends_setKernel hw.1 he
  · exact extends_setTable

theorem duplicated_ne_zero (hpresent : e.present = true) : duplicated e f ≠ .zero := by
  intro hzero
  have : PagingEntry.zero.present = true := by
    rw [← hzero]
    exact hpresent
  cases this

/-- Through the last reference to a frame it may be written. -/
theorem duplicated_last (h : Inv slack 0 s) (hpage : page < PAGE_COUNT) (hm : Mapped s p page)
    (hw : Writable s p page) (hpresent : (s.entry p page).present = true)
    (hone : refs s (s.entry p page).frame ≤ 1) :
    Duplicated slack p page s
      (s.setEntry p page (duplicated (s.entry p page) (s.entry p page).frame)) := by
  refine ⟨⟨inv_setEntry_same h hpage hm hw ?_, extends_setEntry hw ?_, fun hs => ?_⟩,
    fun q page' hne => ?_, fun page' _ hne => kernel_setEntry hne, ⟨_, entry_setEntry_self,
    Or.inl ⟨rfl, hone, ?_⟩⟩, fun page' hzero hne => ?_⟩
  · rw [named, named, duplicated]
  · exact duplicated_ne_zero hpresent
  · rcases p with _ | pid
    · exact hs.of_mapping rfl fun _ _ _ _ hf => hf
    · have hentry : mapping s pid page = some (s.entry (some pid) page) := by
        rw [mapping_of_mapped h.structured hpage hm, if_pos hpresent]
      refine hs.setTable h.structured hpage hm fun _ huser => ⟨Or.inl rfl, ?_, ?_⟩
      · exact hs.data pid page (s.entry (some pid) page) hentry huser
      · intro pid' page' e' he' hne _ hf
        exact (hne (eq_of_refs_le_one h hentry he' hf hone)).elim
  · rcases p with _ | pid
    · rfl
    · rw [mapping_setTable h.structured hpage hm, if_neg]
      rintro ⟨rfl, rfl⟩
      exact hne ⟨rfl, rfl⟩
  · rcases p with _ | pid <;> rfl
  · rw [kernel_setEntry] at hne
    · exact (hne hzero).elim
    · rintro ⟨rfl, rfl⟩
      rw [Machine.entry, hzero] at hpresent
      cases hpresent

theorem entry_of_process (hkernel : s.entry p page ≠ .zero →
      s.kernel page ≠ .zero → s'.kernel page = s.kernel page)
    (hprocess : s'.process = s.process) (hne : s.entry p page ≠ .zero) :
    s'.entry p page = s.entry p page := by
  rcases p with _ | pid
  · exact hkernel hne hne
  · simp only [Machine.entry, hprocess]

theorem used_setEntry : used (s.setEntry p page e) f = used s f := by
  rcases p with _ | pid <;> rfl

theorem memory_setEntry : (s.setEntry p page e).memory = s.memory := by
  rcases p with _ | pid <;> rfl

theorem holdsTable_setEntry : (s.setEntry p page e).holdsTable = s.holdsTable := by
  rcases p with _ | pid <;> rfl

theorem writable_of_extends (hw : Writable s p page) (hne : s.entry p page ≠ .zero)
    (he : Extends s s') : Writable s' p page := by
  rcases p with _ | pid
  · exact ⟨hw.1, (he.loose page ⟨hne, hw.2⟩).2⟩
  · trivial

/-- The page got a copy of its frame. -/
theorem duplicated_copy {s₂ s₃ : Machine} (h : Inv slack 0 s) (hpage : page < PAGE_COUNT)
    (hm : Mapped s p page) (hw : Writable s p page) (hpresent : (s.entry p page).present = true)
    (hg : KernelGrows (s.setEntry p page (duplicated (s.entry p page) (s.entry p page).frame)) s₂)
    (hsame₂ : s₂.kernel =
      (s.setEntry p page (duplicated (s.entry p page) (s.entry p page).frame)).kernel)
    (hfresh : Fresh s₂ f) (hused : used s₂ f = true) (hunused : used s f = false)
    (hc : Copied f (s.entry p page).frame
      (s₂.setEntry p page (duplicated (s.entry p page) f)) s₃)
    (h' : Inv slack 0 s') (hsame : SameTables s₃ s') (hholds : s'.holdsTable = s₃.holdsTable) :
    Duplicated slack p page s s' := by
  have hne : ∀ f, duplicated (s.entry p page) f ≠ .zero := fun f => duplicated_ne_zero hpresent
  have hw₂ : Writable s₂ p page := by
    refine writable_of_extends (writable_of_home hw home_setEntry) ?_ hg.toGrows.extends
    rw [entry_setEntry_self]
    exact hne _
  have hprocess : s'.process = (s.setEntry p page (duplicated (s.entry p page) f)).process := by
    rw [hsame.process, hc.process]
    rcases p with _ | pid
    · exact hg.process
    · simp only [Machine.setEntry, Machine.setProcess, hg.process, Function.update_self,
        Process.setTable, Function.update_idem]
  have hmapping : ∀ q page', mapping s' q page' =
      mapping (s.setEntry p page (duplicated (s.entry p page) f)) q page' := by
    rw [mapping_of_process hprocess]
    exact fun _ _ => rfl
  have hdata : s'.holdsTable f = false := by
    by_contra htrue
    rw [hholds] at htrue
    rcases hc.holds f (by simpa using htrue) with hf | hf
    · rw [holdsTable_setEntry, hfresh.1] at hf
      cases hf
    · rw [used_setEntry, hused] at hf
      cases hf
  have hholds : ∀ g, s'.holdsTable g = true → used s g = true → s.holdsTable g = true := by
    intro g hg' hu
    have hused' : used (s.setEntry p page
        (duplicated (s.entry p page) (s.entry p page).frame)) g = true := by
      rw [used_setEntry]
      exact hu
    rw [hholds] at hg'
    rcases hc.holds g hg' with hg' | hg'
    · rw [holdsTable_setEntry] at hg'
      rcases hg.holds g hg' with hg' | hg'
      · rw [holdsTable_setEntry] at hg'
        exact hg'
      · rw [hused'] at hg'
        cases hg'
    · rw [used_setEntry, hg.used g hused'] at hg'
      cases hg'
  have hkernel : ∀ page', s.kernel page' ≠ .zero → ¬(p = none ∧ page' = page) →
      s'.kernel page' = s.kernel page' := by
    intro page' hne' hpage'
    have h₁ := kernel_setEntry (s := s)
      (e := duplicated (s.entry p page) (s.entry p page).frame) hpage'
    have h₂ := hg.kernel page' (by rw [h₁]; exact hne')
    have h₃ := kernel_setEntry (s := s₂) (e := duplicated (s.entry p page) f) hpage'
    rw [hsame.kernel, hc.kernel page' (by rw [h₃, h₂, h₁]; exact hne'), h₃, h₂, h₁]
  have hentry : s'.entry p page = duplicated (s.entry p page) f := by
    rcases p with _ | pid
    · have hkernel := hc.kernel page (by rw [← Machine.entry, entry_setEntry_self]; exact hne f)
      rw [Machine.entry, hsame.kernel, hkernel]
      exact entry_setEntry_self (p := none)
    · rw [Machine.entry, hprocess]
      exact entry_setEntry_self (p := some pid)
  refine ⟨⟨h', ?_, fun hs => ?_⟩, fun q page' hq => ?_, hkernel, ⟨f, hentry, Or.inr ⟨hunused, ?_⟩⟩,
    fun page' hzero hne' => ?_⟩
  · exact (extends_setEntry hw (hne _)).trans (hg.toGrows.extends.trans
      ((extends_setEntry hw₂ (hne f)).trans (hc.extends'.trans (SameTables.extends hsame))))
  · rcases p with _ | pid
    · refine hs.of_mapping ?_ fun _ _ _ he hf => hholds _ hf (used_of_mapping h zero_nonneg he)
      funext q page'
      exact hmapping q page'
    · refine hs.update (fun q page' =>
        (hmapping q page').trans (mapping_setTable h.structured hpage hm q page'))
        (fun _ _ _ he hf => hholds _ hf (used_of_mapping h zero_nonneg he))
        fun _ _ => ⟨Or.inl rfl, hdata, fun q page' e' he' _ _ hf => ?_⟩
      have := used_of_mapping h zero_nonneg he'
      rw [hf, duplicated, hunused] at this
      cases this
  · rw [hmapping]
    rcases p with _ | pid
    · rfl
    · rw [mapping_setTable h.structured hpage hm, if_neg]
      rintro ⟨rfl, rfl⟩
      exact hq ⟨rfl, rfl⟩
  · rw [hsame.memory, hc.memory, memory_setEntry, hg.memory, memory_setEntry]
  · have hpage' : ¬(p = none ∧ page' = page) := by
      rintro ⟨rfl, rfl⟩
      rw [Machine.entry, hzero] at hpresent
      cases hpresent
    have hzero₂ : (s₂.setEntry p page (duplicated (s.entry p page) f)).kernel page' = .zero := by
      rw [kernel_setEntry hpage', hsame₂, kernel_setEntry hpage', hzero]
    rw [hsame.kernel] at hne' ⊢
    have hnew := hc.adds page' (by simp) hzero₂ hne'
    rw [used_setEntry] at hnew
    refine ⟨Bool.eq_false_iff.mpr fun hu => ?_, fun heq => ?_⟩
    · rw [hg.used _ (by rw [used_setEntry]; exact hu)] at hnew
      cases hnew
    · rw [heq, hentry, duplicated, hused] at hnew
      cases hnew

theorem duplicatePage_spec (h : Inv slack 0 s) (hpage : page < PAGE_COUNT) (hm : Mapped s p page)
    (hw : Writable s p page) (hpresent : (s.entry p page).present = true) :
    Steps (duplicatePage p page) s fun _ s' => Duplicated slack p page s s' := by
  have hused := used_of_entry h zero_nonneg hpage hm hpresent
  rw [duplicatePage]
  refine yields_ok_bind (h.structured.loadEntry_ok hpage hm) ?_
  refine yields_ok_bind (h.structured.storeEntry_ok hpage hm _) ?_
  have h₁ : Inv slack 0
      (s.setEntry p page (duplicated (s.entry p page) (s.entry p page).frame)) :=
    inv_setEntry_same h hpage hm hw rfl
  refine (physMemIsLastRef_spec h₁ (s.entry p page).frame).bind ?_
  rintro r _ ⟨rfl, hlast⟩
  refine yields_ite (fun hr => yields_pure ?_) fun _ => ?_
  · refine duplicated_last h hpage hm hw hpresent ?_
    have := hlast hr
    rcases p with _ | pid <;> exact this
  · refine ((physMemAllocPage_fresh h₁ zero_nonneg false).and (physMemAllocPage_spec h₁ false)).bind
      ?_
    rintro f s₂ ⟨⟨h₂, hg₂, hused₂, hfresh, hunused, -⟩, -, hsame₂, -⟩
    rw [zero_add] at h₂
    have hentry : s₂.entry p page = duplicated (s.entry p page) (s.entry p page).frame := by
      rw [entry_of_process (fun _ => hg₂.kernel page) hg₂.process] <;> rw [entry_setEntry_self]
      exact duplicated_ne_zero hpresent
    have hm₂ : Mapped s₂ p page := hg₂.toGrows.extends.mapped p page (mapped_setEntry hw hm)
    have hw₂ : Writable s₂ p page := by
      refine writable_of_extends (writable_of_home hw home_setEntry) ?_ hg₂.toGrows.extends
      rw [entry_setEntry_self]
      exact duplicated_ne_zero hpresent
    refine yields_ok_bind (h₂.structured.storeEntry_ok hpage hm₂ _) ?_
    have h₃ := h₂.setEntry hpage hm₂ hw₂ (duplicated (s.entry p page) f)
    have hold : named (s₂.entry p page) = some (s.entry p page).frame := by
      rw [hentry, named, duplicated, hpresent]
      rfl
    have hnew : named (duplicated (s.entry p page) f) = some f := by
      rw [named, duplicated, hpresent]
      rfl
    rw [hold, hnew, add_sub_cancel_left] at h₃
    refine copyFrame_spec h₃ (due_nonneg _) (by rw [used_setEntry]; exact hused₂) ?_ ?_
    · rw [used_setEntry]
      refine hg₂.used _ ?_
      rw [used_setEntry]
      exact hused
    · intro s₃ h₄ hc
      rw [← zero_add (due _)] at h₄
      refine (physMemReleasePage_spec h₄ le_rfl).bind ?_
      rintro _ s' ⟨h', hsame, hholds⟩
      exact yields_pure (duplicated_copy h hpage hm hw hpresent hg₂ hsame₂.kernel hfresh hused₂
        (by rw [used_setEntry] at hunused; exact hunused) hc h' hsame hholds)

end

section

variable {slack : Nat → Nat} {P : Nat → ℤ} {s s' s'' : Machine} {f pid page addr dst src : Nat}
  {p : Option Nat} {e : PagingEntry}

/-- What the user of a process sees of a page, and whether he may write it. -/
def view (s : Machine) (pid page : Nat) : Option ((Nat → BitVec 8) × Bool) :=
  (mapping s pid page).bind fun e =>
    if e.user then
      some (s.memory e.frame, e.rw || e.avail == PAGING_AVAIL_PRESENT_ON_WRITE_DUPLICATE)
    else none

theorem view_of_mapping (hm : mapping s' = mapping s) (hmemory : s'.memory = s.memory) :
    view s' = view s := by
  funext pid page
  rw [view, hm, hmemory]
  rfl

theorem view_of_grows (hg : Grows s s') : view s' = view s :=
  view_of_mapping (by funext pid page; exact hg.mapping pid page) hg.memory

theorem view_of_duplicated (h : Inv slack 0 s) (hpage : page < PAGE_COUNT) (hm : Mapped s p page)
    (hpresent : (s.entry p page).present = true)
    (havail : (s.entry p page).avail = PAGING_AVAIL_PRESENT_ON_WRITE_DUPLICATE)
    (hd : Duplicated slack p page s s') : view s' = view s := by
  obtain ⟨f, hentry, hf⟩ := hd.entry
  funext q page'
  by_cases heq : p = some q ∧ page' = page
  · obtain ⟨rfl, rfl⟩ := heq
    rw [view, view, mapping_of_mapped hd.inv.structured hpage (hd.extends'.mapped _ _ hm), hentry,
      mapping_of_mapped h.structured hpage hm, if_pos hpresent]
    have hmemory : s'.memory f = s.memory (s.entry (some q) page').frame := by
      rcases hf with ⟨rfl, -, hmemory⟩ | ⟨-, hmemory⟩
      · rw [hmemory]
      · rw [hmemory, Function.update_self]
    simp only [duplicated, hpresent, if_true, Option.bind_some, hmemory, havail, Bool.true_or,
      beq_self_eq_true, Bool.or_true]
  · rw [view, hd.other q page' heq, view]
    rcases he : mapping s q page' with _ | e'
    · rfl
    · have hmemory : s'.memory e'.frame = s.memory e'.frame := by
        rcases hf with ⟨-, -, hmemory⟩ | ⟨hunused, hmemory⟩
        · rw [hmemory]
        · rw [hmemory, Function.update_of_ne]
          rintro rfl
          rw [used_of_mapping h zero_nonneg he] at hunused
          cases hunused
      rw [Option.bind_some, Option.bind_some, hmemory]

/-- A page of the kernel which is not writable holds no table. -/
theorem writable_of_duplicate (h : Structured s) (hpage : page < PAGE_COUNT) (hm : Mapped s p page)
    (hne : s.entry p page ≠ .zero) (hrw : (s.entry p page).rw = false)
    (havail : (s.entry p page).avail = PAGING_AVAIL_PRESENT_ON_WRITE_DUPLICATE) :
    Writable s p page := by
  rcases p with _ | pid
  · refine ⟨?_, ?_⟩
    · by_contra hge
      obtain ⟨i, rfl⟩ := Nat.exists_eq_add_of_le (Nat.not_lt.mp hge)
      have hi : i ≤ KERNEL_DIR_ENTRY := by
        simp only [KERNEL_PAGE, KERNEL_DIR_ENTRY, PAGE_COUNT] at *
        omega
      have hready : TableReady s i := by
        rcases Nat.lt_or_eq_of_le hi with hi | rfl
        · exact (h.tables i hi).resolve_left fun hmissing => hne hmissing.directory
        · exact h.self
      have := hready.avail
      rw [Machine.entry] at havail
      rw [havail] at this
      cases this
    · rintro ⟨r, hr⟩
      have := (h.homes r page hr).2.2
      rw [Machine.entry] at hrw
      rw [hrw] at this
      cases this
  · trivial

/-- The user of a process may access the page, or he may not even if it was there for him alone. -/
structure Resolved (write : Bool) (pid page : Nat) (s s' : Machine) (r : Bool) : Prop where
  allowed : r = true → ∃ e, mapping s' pid page = some e ∧ e.user = true ∧
    (write = true → e.rw = true)
  denied : r = false → view s pid page = none ∨
    write = true ∧ ∃ contents, view s pid page = some (contents, false)

theorem duplicateIf_spec {b : Bool} (h : Inv slack 0 s) (hpage : page < PAGE_COUNT)
    (hm : Mapped s p page) (hb : b = true → (s.entry p page).present = true ∧
      (s.entry p page).rw = false ∧
      (s.entry p page).avail = PAGING_AVAIL_PRESENT_ON_WRITE_DUPLICATE) :
    Steps (duplicateIf b p page) s fun _ s' =>
      Kept slack s s' ∧ view s' = view s ∧ (b = false → s' = s) ∧
        (b = true → Duplicated slack p page s s') := by
  rw [duplicateIf]
  refine yields_ite (fun hb' => ?_) fun hb' => yields_pure ⟨Kept.refl h, rfl, fun _ => rfl, ?_⟩
  · obtain ⟨hpresent, hrw, havail⟩ := hb hb'
    have hne : s.entry p page ≠ .zero := by
      intro hzero
      rw [hzero] at hpresent
      cases hpresent
    have hw := writable_of_duplicate h.structured hpage hm hne hrw havail
    refine (duplicatePage_spec h hpage hm hw hpresent).mono fun _ s' hd => ?_
    exact ⟨hd.toKept, view_of_duplicated h hpage hm hpresent havail hd,
      fun hfalse => absurd (hb'.symm.trans hfalse) (by decide), fun _ => hd⟩
  · exact fun hb => (hb' hb).elim

theorem view_eq_none_of_mapped (h : Structured s) (hpage : page < PAGE_COUNT)
    (hm : Mapped s (some pid) page) (he : (s.entry (some pid) page).present = false ∨
      (s.entry (some pid) page).user = false) : view s pid page = none := by
  rw [view, mapping_of_mapped h hpage hm]
  rcases he with he | he
  · rw [he]
    rfl
  · split
    · rw [Option.bind_some, he]
      rfl
    · rfl

theorem view_of_mapped (h : Structured s) (hpage : page < PAGE_COUNT)
    (hm : Mapped s (some pid) page) (hpresent : (s.entry (some pid) page).present = true)
    (huser : (s.entry (some pid) page).user = true) :
    view s pid page = some (s.memory (s.entry (some pid) page).frame,
      (s.entry (some pid) page).rw ||
        (s.entry (some pid) page).avail == PAGING_AVAIL_PRESENT_ON_WRITE_DUPLICATE) := by
  rw [view, mapping_of_mapped h hpage hm, if_pos hpresent, Option.bind_some, if_pos huser]

theorem getPagingEntry_none (h : Inv slack P s) (hP : ∀ f, 0 ≤ P f) (hpage : page < PAGE_COUNT)
    (p : Option Nat) :
    Steps (getPagingEntry p page false) s fun r s' =>
      Inv slack P s' ∧ Grows s s' ∧ (r = true → Mapped s' p page) ∧
        (r = false → ∀ pid, p = some pid → mapping s pid page = none) := by
  rcases p with _ | pid
  · refine (getPagingEntry_spec h hP hpage none false).mono ?_
    rintro r s' ⟨h', hg, hm, -, -⟩
    exact ⟨h', hg, hm, nofun⟩
  · refine (getProcessEntry_spec h hP hpage false).mono ?_
    rintro r s' ⟨h', hg, hm, -, hnone, -⟩
    refine ⟨h', hg, hm, fun hr => ?_⟩
    rintro _ ⟨⟩
    exact hnone hr

theorem pageFaultHandler_spec (h : Inv slack 0 s) (p : Option Nat) (cr2 : Nat)
    (user write : Bool) :
    Steps (pageFaultHandler p cr2 user write) s fun r s' =>
      Kept slack s s' ∧ view s' = view s ∧
        ∀ pid, p = some pid → Resolved write pid (pageOf cr2) s s' r := by
  have hpage := pageOf_lt cr2
  rw [pageFaultHandler]
  refine steps_check_bind fun huser => ?_
  refine (getPagingEntry_none h zero_nonneg hpage p).bind ?_
  rintro r s₁ ⟨h₁, hg, hmapped, hnone⟩
  have hkept := kept_of_grows h h₁ hg
  have hview := view_of_grows hg
  refine yields_ite (fun hr => ?_) fun hr => ?_
  · have hm := hmapped hr
    have hdenied : ∀ {s' : Machine}, (∀ pid, p = some pid → view s₁ pid (pageOf cr2) = none) →
        ∀ pid, p = some pid → Resolved write pid (pageOf cr2) s s' false := by
      intro s' hv pid hp
      exact ⟨nofun, fun _ => Or.inl (by rw [← hview]; exact hv pid hp)⟩
    refine yields_ok_bind (h₁.structured.loadEntry_ok hpage hm) ?_
    refine yields_ite (fun hzero => yields_pure ⟨hkept, hview, hdenied ?_⟩) fun hne => ?_
    · rintro pid rfl
      exact view_eq_none_of_mapped h₁.structured hpage hm (Or.inl (by rw [hzero]; rfl))
    refine yields_ite (fun hhidden => yields_pure ⟨hkept, hview, hdenied ?_⟩) fun hshown => ?_
    · rintro pid rfl
      simp only [Bool.and_eq_true, Bool.not_eq_true'] at hhidden
      exact view_eq_none_of_mapped h₁.structured hpage hm (Or.inr hhidden.1)
    refine yields_ite (fun hreserved => yields_pure ⟨hkept, hview, hdenied ?_⟩) fun _ => ?_
    · rintro pid rfl
      simp only [Bool.and_eq_true, Bool.not_eq_true'] at hreserved
      exact view_eq_none_of_mapped h₁.structured hpage hm (Or.inl hreserved.1)
    refine steps_requirePresent_bind fun hpresent => ?_
    have hshown' : ∀ pid, p = some pid → (s₁.entry p (pageOf cr2)).user = true := by
      rintro pid rfl
      by_contra hfalse
      refine hshown ?_
      have : user = true := by simpa using huser.symm
      rw [this]
      simpa using hfalse
    refine yields_ite (fun hdenied => yields_pure ⟨hkept, hview, ?_⟩) fun hallowed => ?_
    · rintro pid rfl
      simp only [Bool.and_eq_true, Bool.not_eq_true', bne_iff_ne, ne_eq] at hdenied
      refine ⟨nofun,
        fun _ => Or.inr ⟨hdenied.1.2, s₁.memory (s₁.entry (some pid) (pageOf cr2)).frame,
        ?_⟩⟩
      rw [← hview, view_of_mapped h₁.structured hpage hm hpresent (hshown' pid rfl), hdenied.1.1]
      simp [hdenied.2]
    · refine (duplicateIf_spec h₁ hpage hm fun hb => ?_).bind ?_
      · simp only [Bool.and_eq_true, Bool.not_eq_true', bne_iff_ne, ne_eq] at hb hallowed
        exact ⟨hpresent, hb.1, not_not.mp fun havail => hallowed ⟨hb, havail⟩⟩
      rintro _ s' ⟨hkept', hview', hsame, hdup⟩
      refine yields_pure ⟨hkept.trans hkept', hview'.trans hview, ?_⟩
      rintro pid rfl
      refine ⟨fun _ => ?_, nofun⟩
      have hm' := hkept'.extends'.mapped _ _ hm
      rcases hb : (!(s₁.entry (some pid) (pageOf cr2)).rw && write) with _ | _
      · rw [hsame hb, mapping_of_mapped h₁.structured hpage hm, if_pos hpresent]
        refine ⟨_, rfl, hshown' pid rfl, fun hwrite => ?_⟩
        simpa [hwrite] using hb
      · obtain ⟨f, hentry, -⟩ := (hdup hb).entry
        refine ⟨duplicated (s₁.entry (some pid) (pageOf cr2)) f, ?_, hshown' pid rfl, fun _ => rfl⟩
        rw [mapping_of_mapped hkept'.inv.structured hpage hm', hentry, if_pos]
        exact hpresent
  · refine yields_pure ⟨hkept, hview, fun pid hp => ⟨nofun, fun _ => Or.inl ?_⟩⟩
    rw [view, hnone (by simpa using hr) pid hp]
    rfl

end

end Ibnos.PagingOperations
