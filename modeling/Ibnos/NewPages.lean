import Ibnos.KernelPages

/-!
The kernel adds pages to its own address space while it looks for an entry or counts
a reference. Such a page is behind a frame which was not in use before.
-/

namespace Ibnos.NewPages

open Ibnos.Memory
open Ibnos.Physmem
open Ibnos.Paging
open Ibnos.Programs
open Ibnos.References
open Ibnos.KernelPages

section

variable {slack : Nat → Nat} {P : Nat → ℤ} {s s' s'' : Machine} {f page addr : Nat}

/-- New pages of the kernel, except for some, are behind frames which were not in use. -/
def Adds (but : Nat → Prop) (s s' : Machine) : Prop :=
  ∀ page, ¬but page → s.kernel page = .zero → s'.kernel page ≠ .zero →
    used s (s'.kernel page).frame = false

theorem adds_of_eq {but : Nat → Prop} (h : s'.kernel = s.kernel) : Adds but s s' := by
  intro page _ hzero hne
  rw [h] at hne
  exact (hne hzero).elim

theorem Adds.trans {but : Nat → Prop} (h : Adds but s s') (h' : Adds but s' s'')
    (hg : Grows s s') (hg' : Grows s' s'') : Adds but s s'' := by
  intro page hbut hzero hne
  rcases Classical.em (s'.kernel page = .zero) with hzero' | hne'
  · refine Bool.eq_false_iff.mpr fun hused => ?_
    have := h' page hbut hzero' hne
    rw [hg.used _ hused] at this
    cases this
  · rw [hg'.kernel page hne']
    exact h page hbut hzero hne'

theorem Adds.mono {but but' : Nat → Prop} (h : Adds but s s')
    (hsub : ∀ page, but page → but' page) :
    Adds but' s s' := fun page hbut => h page fun hp => hbut (hsub page hp)

theorem getKernelEntry_adds (but : Nat → Prop) (h : Inv slack P s) (page : Nat) (alloc : Bool) :
    Steps (getKernelEntry page alloc) s fun _ s' => Adds but s s' := by
  have hself : s.translate KERNEL_DIR = some (s.kernelTable KERNEL_DIR_ENTRY) :=
    h.structured.translate_table (i := KERNEL_DIR_ENTRY) (by decide) h.structured.self
  rw [getKernelEntry]
  refine yields_get_bind (yields_ok_bind (access_ok hself) (yields_get_bind ?_))
  refine yields_ite (fun _ => ?_) fun _ => ?_
  · refine yields_ite (fun _ => ?_) fun _ => yields_pure (adds_of_eq rfl)
    refine (physMemAllocPage_spec h false).bind ?_
    rintro frame s' ⟨-, hsame, -, hunused, -⟩
    refine yields_modify_bind (yields_pure fun q _ hzero hne => ?_)
    have hkernel : (s'.setKernelTable (page / PAGETABLE_COUNT) frame).kernel q =
        if q / PAGETABLE_COUNT = page / PAGETABLE_COUNT then .zero
        else if q = KERNEL_PAGE + page / PAGETABLE_COUNT then ⟨true, true, true, 0, frame⟩
        else s.kernel q := by
      rw [← hsame.kernel]
      rfl
    rw [hkernel] at hne ⊢
    split at hne
    · exact (hne rfl).elim
    · rename_i hq
      rw [if_neg hq]
      split at hne
      · rename_i hwindow
        rw [if_pos hwindow]
        exact hunused
      · exact (hne hzero).elim
  · exact steps_requirePresent_bind fun _ => steps_check_bind fun _ => yields_pure (adds_of_eq rfl)

/-- A page with a new frame, seen from before the frame was handed out. -/
theorem adds_fill {s₀ : Machine} {rw user : Bool} {but : Nat → Prop} (ha : Adds but s₀ s)
    (hunused : used s₀ f = false) :
    Adds but s₀ (s.setKernel page ⟨true, rw, user, 0, f⟩) := by
  intro q hbut hzero hne
  rcases eq_or_ne q page with rfl | hq
  · rw [Machine.setKernel]
    simp only [Function.update_self]
    exact hunused
  · have hkernel : (s.setKernel page ⟨true, rw, user, 0, f⟩).kernel q = s.kernel q :=
      Function.update_of_ne hq _ _
    rw [hkernel] at hne ⊢
    exact ha q hbut hzero hne

theorem allocateLoop_adds (but : Nat → Prop) (h : Inv slack P s) {rw user : Bool}
    {length cur : Nat} (hend : pageOf cur + length ≤ KERNEL_PAGE) :
    Steps (allocateLoop getKernelEntry none rw user length cur) s fun _ s' => Adds but s s' := by
  induction length generalizing s cur with
  | zero => exact yields_pure (adds_of_eq rfl)
  | succ length ih =>
      rw [allocateLoop]
      have hpage : pageOf cur < KERNEL_PAGE := by omega
      have hnext : pageOf (nextPage cur) = pageOf cur + 1 := by
        refine pageOf_nextPage ?_
        simp only [KERNEL_PAGE, PAGE_COUNT] at *
        omega
      refine (physMemAllocPage_spec h false).bind ?_
      rintro f s₁ ⟨h₁, hsame, hg₁, hunused, hused, -⟩
      refine ((getKernelEntry_spec h₁ (pageOf_lt cur) true).and
        (getKernelEntry_adds but h₁ (pageOf cur) true)).bind ?_
      rintro r s₂ ⟨⟨h₂, hg₂, -, hmapped, hr, -⟩, ha₂⟩
      have hm := hmapped (hr rfl)
      refine yields_ok_bind (h₂.structured.loadEntry_ok (pageOf_lt cur) hm) ?_
      refine steps_check_bind fun hzero => ?_
      have hzero : s₂.kernel (pageOf cur) = .zero := by simpa [Machine.entry] using hzero
      refine yields_ok_bind (h₂.structured.storeEntry_ok (pageOf_lt cur) hm _) ?_
      have hinv := inv_fill rw user h₂ hpage hm hzero
      have hg := hg₁.trans (hg₂.trans (setKernel_grows hzero ⟨true, rw, user, 0, f⟩))
      have ha : Adds but s (s₂.setKernel (pageOf cur) ⟨true, rw, user, 0, f⟩) :=
        adds_fill ((adds_of_eq hsame.kernel).trans ha₂ hg₁.toGrows hg₂.toGrows) hunused
      refine ((allocateLoop_kernel hinv (by omega)).and (ih hinv (by omega))).mono ?_
      rintro _ s' ⟨⟨-, hg', -⟩, ha'⟩
      exact ha.trans ha' hg.toGrows hg'.toGrows

theorem allocatePhysMem_adds (but : Nat → Prop) (h : Inv slack P s) (length : Nat)
    (rw user : Bool) :
    Steps (allocatePhysMem getKernelEntry none length rw user) s fun _ s' => Adds but s s' := by
  rw [allocatePhysMem, tryAllocatePhysMem]
  refine Yields.bind (Q := fun _ s' => Adds but s s') ?_ ?_
  · refine (trySearchArea_kernel h length).bind ?_
    rintro (_ | addr) _ ⟨rfl, hbounds⟩
    · exact yields_pure (adds_of_eq rfl)
    · obtain ⟨-, hlt, hend | hend⟩ := inBounds_pageOf (hbounds addr rfl)
      · exact (allocateLoop_adds but h hend).bind fun _ s' ha => yields_pure ha
      · refine (allocateLoop_overrun (Or.inl ⟨⟨P, h⟩, hlt⟩) ?_ hend).bind fun _ _ => False.elim
        simp only [KERNEL_PAGE, KERNEL_DIR] at *
        omega
  · rintro (_ | addr) s' ha
    · exact yields_throw (by simp [Excused])
    · exact yields_pure ha

end

section

variable {slack : Nat → Nat} {P : Nat → ℤ} {s s' s'' : Machine} {f page addr : Nat}

theorem getPhysMemExtraInfo_adds (but : Nat → Prop) {fuel : Nat} (h : Inv slack P s) (index : Nat)
    (alloc : Bool) (hfuel : alloc = true → missing s < fuel) :
    Steps (getPhysMemExtraInfo fuel index alloc) s fun _ s' => Adds but s s' := by
  induction fuel generalizing s index alloc with
  | zero =>
      rw [getPhysMemExtraInfo]
      refine yields_get_bind (steps_check_bind fun _ => steps_check_bind fun _ =>
        yields_get_bind ?_)
      split
      · exact yields_pure (adds_of_eq rfl)
      · refine yields_ite (fun halloc => ?_) fun _ => yields_pure (adds_of_eq rfl)
        exact absurd (hfuel halloc) (Nat.not_lt_zero _)
  | succ fuel ih =>
      rw [getPhysMemExtraInfo]
      refine yields_get_bind (steps_check_bind fun _ => steps_check_bind fun hi =>
        yields_get_bind ?_)
      split
      · exact yields_pure (adds_of_eq rfl)
      · rename_i hnone
        refine yields_ite (fun halloc => ?_) fun _ => yields_pure (adds_of_eq rfl)
        refine ((allocatePhysMem_kernel h 1 true false).and
          (allocatePhysMem_adds but h 1 true false)).bind ?_
        rintro addr s₁ ⟨⟨h₁, hg₁, hextra, -, hend, hfilled⟩, ha₁⟩
        have hfilled := hfilled (pageOf addr) le_rfl (by omega)
        have hnone₁ : s₁.physMemExtra (index / PHYSMEMEXTRA_COUNT) = none := by
          rw [hextra]
          exact hnone
        have h₂ := inv_setExtra h₁ hnone₁ (by omega) hfilled
        have hg₂ := setExtra_grows hg₁ hfilled hnone₁
        have ha₂ : Adds but s (s₁.setExtra (index / PHYSMEMEXTRA_COUNT) addr) := ha₁
        have hmissing : missing (s₁.setExtra (index / PHYSMEMEXTRA_COUNT) addr) < fuel := by
          have := missing_setExtra (of_decide_eq_true hi) hnone₁ addr
          have := missing_mono hg₁
          have := hfuel halloc
          omega
        refine yields_modify_bind ((getPhysMem_kernel h₂ addr).bind ?_)
        rintro f _ ⟨rfl, -, hf⟩
        obtain ⟨g, hg, hused, -⟩ := hfilled.entry
        have hfg : f = g := by
          change named (s₁.kernel (pageOf addr)) = some f at hf
          rw [hg] at hf
          exact (Option.some.inj hf).symm
        refine ((getPhysMemExtraInfo_spec h₂ f true fun _ => hmissing).and
          (ih h₂ f true fun _ => hmissing)).bind ?_
        rintro r s₃ ⟨⟨h₃, hg₃, hr, -⟩, ha₃⟩
        have ha : Adds but s s₃ := ha₂.trans ha₃ hg₂.toGrows hg₃.toGrows
        refine steps_check_bind fun htrue => ?_
        have hmark : markRecord f s₃ = .ok ((), s₃.setInfo f
            { (s₃.extraInfo f).started with unpageable := true }) := by
          rw [markRecord, bind_apply, h₃.structured.loadInfo_ok (hr htrue)]
          exact h₃.structured.storeInfo_ok (hr htrue) _
        exact yields_ok_bind hmark (yields_pure ha)

theorem physMemAddRefPage_adds (but : Nat → Prop) (h : Inv slack P s) (f : Nat) :
    Steps (physMemAddRefPage f) s fun _ s' => Adds but s s' := by
  rw [physMemAddRefPage]
  refine ((getPhysMemExtraInfo_spec h f true fun _ => missing_lt s).and
    (getPhysMemExtraInfo_adds but h f true fun _ => missing_lt s)).bind ?_
  rintro r s₁ ⟨⟨h₁, -, hr, -⟩, ha⟩
  refine steps_check_bind fun htrue => ?_
  refine yields_ok_bind (h₁.structured.loadInfo_ok (hr htrue)) ?_
  refine yields_ok_bind (h₁.structured.storeInfo_ok (hr htrue) _) ?_
  exact steps_check_bind fun _ => yields_pure ha

theorem findUnused_adds (but : Nat → Prop) (h : Inv slack P s) {rounds i : Nat}
    (hend : i + rounds ≤ KERNEL_PAGE) :
    Steps (findUnused rounds i) s fun _ s' => Adds but s s' := by
  induction rounds generalizing s i with
  | zero => exact yields_pure (adds_of_eq rfl)
  | succ rounds ih =>
      have hi : i < PAGE_COUNT := kernel_lt (by omega)
      rw [findUnused]
      refine ((getKernelEntry_spec h hi true).and (getKernelEntry_adds but h i true)).bind ?_
      rintro r s₁ ⟨⟨h₁, hg₁, -, hmapped, hr, -⟩, ha⟩
      refine yields_ok_bind (h₁.structured.loadEntry_ok hi (hmapped (hr rfl))) ?_
      refine yields_ite (fun _ => yields_pure ha) fun _ => ?_
      refine ((findUnused_spec h₁ (by omega)).and (ih h₁ (by omega))).mono ?_
      rintro _ s' ⟨⟨-, hg', -⟩, ha'⟩
      exact ha.trans ha' hg₁.toGrows hg'.toGrows

/-- The page which is mapped is not behind a new frame. -/
theorem pagingMapPhysMem_adds (h : Inv slack P s) (f : Nat) (rw user : Bool) :
    Steps (pagingMapPhysMem f 0 rw user) s fun addr s' => Adds (· = pageOf addr) s s' := by
  have hend : 1 + (KERNEL_PAGE - 1) ≤ KERNEL_PAGE := by decide
  rw [pagingMapPhysMem, if_neg (by simp)]
  refine ((findUnused_spec h hend).and (findUnused_adds (fun _ => False) h hend)).bind ?_
  rintro (_ | i) s₁ ⟨⟨h₁, hg, hfound⟩, ha⟩
  · exact yields_throw (by simp [Excused])
  · obtain ⟨-, hlt, hm, hzero⟩ := hfound i rfl
    refine yields_ok_bind (h₁.structured.storeEntry_ok (kernel_lt hlt) hm _) (yields_pure ?_)
    intro q hq hzero' hne
    rw [pageOf_mul (kernel_lt hlt)] at hq
    have hkernel : (s₁.setEntry none i ⟨true, rw, user, 0, f⟩).kernel q = s₁.kernel q :=
      Function.update_of_ne hq _ _
    rw [hkernel] at hne ⊢
    exact ha q (by simp) hzero' hne

end

end Ibnos.NewPages
