import Ibnos.KernelPages

/-!
What the functions for frames do as long as there is memory: nothing else stops
them, and what was in use is used as before.
-/

namespace Ibnos.FrameSupply

open Ibnos.Memory
open Ibnos.Physmem
open Ibnos.Paging
open Ibnos.Programs
open Ibnos.References
open Ibnos.KernelPages

/-- There are no frames left, or no pages of the kernel. A page cannot be written to disk. -/
def Lack (e : Stop) : Prop := e = .outOfMemory ∨ e = .notImplemented ∨ e = .addressSpaceFull

/-- Nothing stops the program but a lack of memory. -/
abbrev Proceeds {α : Type} (m : M α) (s : Machine) (Q : α → Machine → Prop) : Prop :=
  Yields Lack m s Q

/-- What was in use is used as often as before. -/
structure Steady (s s' : Machine) : Prop where
  enabled : s'.pagingEnabled = s.pagingEnabled
  used : ∀ g, used s g = true → References.used s' g = true
  refs : ∀ g, References.used s g = true → refs s' g = References.refs s g

section

variable {α : Type} {s s' s'' : Machine} {m : M α} {Q Q' : α → Machine → Prop}

theorem Steady.refl (s : Machine) : Steady s s := ⟨rfl, fun _ h => h, fun _ _ => rfl⟩

theorem Steady.trans (h : Steady s s') (h' : Steady s' s'') : Steady s s'' where
  enabled := h'.enabled.trans h.enabled
  used g hg := h'.used g (h.used g hg)
  refs g hg := (h'.refs g (h.used g hg)).trans (h.refs g hg)

/-- The bitmap and the records are the same. -/
theorem steady_of_eq (henabled : s'.pagingEnabled = s.pagingEnabled)
    (hmap : s'.physMemMap = s.physMemMap) (hinfo : s'.extraInfo = s.extraInfo) : Steady s s' := by
  have hused : ∀ g, References.used s' g = References.used s g := by
    intro g
    rw [References.used, hmap]
    rfl
  refine ⟨henabled, fun g hg => (hused g).trans hg, fun g _ => ?_⟩
  rw [refs, refs, refCount, refCount, hused, hinfo]

theorem proceeds_and (h : Proceeds m s Q) (h' : Steps m s Q') :
    Proceeds m s fun a s' => Q a s' ∧ Q' a s' :=
  yields_iff.mpr ⟨fun _ _ hm => ⟨h.of_ok hm, h'.of_ok hm⟩, fun _ hm => h.of_error hm⟩

theorem check_ok {b : Bool} (h : b = true) : check b s = .ok ((), s) := by
  rw [check, h]
  rfl

theorem requirePresent_ok {e : PagingEntry} (h : e.present = true) :
    requirePresent e s = .ok ((), s) := by
  rw [requirePresent, if_pos h]
  rfl

end

section

variable {slack : Nat → Nat} {P : Nat → ℤ} {s s' : Machine} {f page addr : Nat}

theorem steady_alloc (hf : used s f = false) : Steady s ((s.setBit f true).handOut f) := by
  have hused : ∀ g, used ((s.setBit f true).handOut f) g = if g = f then true else used s g :=
    fun g => used_setBit s f g true
  refine ⟨rfl, fun g hg => ?_, fun g hg => ?_⟩
  · rw [hused, hg]
    split <;> rfl
  · have hne : g ≠ f := by
      rintro rfl
      rw [hf] at hg
      cases hg
    rw [refs, hused, if_neg hne, refs]
    rfl

theorem allocLoop_proceeds (lowmem : Bool) (tries : Nat) :
    Proceeds (allocLoop lowmem tries) s fun _ _ => True := by
  cases tries with
  | zero => exact yields_throw (Or.inl rfl)
  | succ tries =>
      rw [allocLoop]
      refine yields_get_bind ?_
      split
      · exact yields_modify_bind (yields_pure trivial)
      · exact Yields.bind (Q := fun _ _ => False) (yields_throw (Or.inr (Or.inl rfl))) (by simp)

theorem physMemAllocPage_proceeds (h : Inv slack P s) (lowmem : Bool) :
    Proceeds (physMemAllocPage lowmem) s fun f s' =>
      Steady s s' ∧ s'.kernel = s.kernel ∧ f < PAGE_COUNT ∧ refs s' f = 1 ∧
        Inv slack (P + due (some f)) s' := by
  refine (proceeds_and (proceeds_and (allocLoop_proceeds lowmem _) allocLoop_spec)
    (physMemAllocPage_spec h lowmem)).mono ?_
  rintro f s' ⟨⟨-, rfl, hf, hlt⟩, hinv, -⟩
  refine ⟨steady_alloc hf, rfl, hlt, ?_, hinv⟩
  have hused : used ((s.setBit f true).handOut f) f = true := by
    refine (used_setBit s f f true).trans ?_
    rw [if_pos rfl]
  rw [refs, if_pos hused, refCount, if_pos]
  exact h.recorded.unused f hf

/-- Pages below the window stay unused. -/
def StillUnused (s s' : Machine) : Prop :=
  ∀ q, q < KERNEL_PAGE → s.kernel q = .zero → s'.kernel q = .zero

/-- New pages below the window are tables of records. -/
def OnlyRecords (s s' : Machine) : Prop :=
  ∀ q, q < KERNEL_PAGE → s.kernel q = .zero → s'.kernel q = .zero ∨
    q ≠ 0 ∧ ∃ i, s'.physMemExtra i = some q

theorem getKernelEntry_proceeds (h : Inv slack P s) (hpage : page < PAGE_COUNT) (alloc : Bool) :
    Proceeds (getKernelEntry page alloc) s fun _ s' => Steady s s' ∧ StillUnused s s' := by
  have hself : s.translate KERNEL_DIR = some (s.kernelTable KERNEL_DIR_ENTRY) :=
    h.structured.translate_table (i := KERNEL_DIR_ENTRY) (by decide) h.structured.self
  rw [getKernelEntry]
  refine yields_get_bind (yields_ok_bind (access_ok hself) (yields_get_bind ?_))
  refine yields_ite (fun _ => ?_) fun hne => ?_
  · refine yields_ite (fun _ => ?_) fun _ => yields_pure ⟨Steady.refl s, fun _ _ hq => hq⟩
    refine (physMemAllocPage_proceeds h false).bind ?_
    rintro frame s' ⟨hsteady, hkernel, -⟩
    refine yields_modify_bind (yields_pure ⟨?_, fun q hq hzero => ?_⟩)
    · exact hsteady.trans (steady_of_eq rfl rfl rfl)
    · rw [← hkernel] at hzero
      change (if q / PAGETABLE_COUNT = page / PAGETABLE_COUNT then PagingEntry.zero
        else if q = KERNEL_PAGE + page / PAGETABLE_COUNT then _ else s'.kernel q) = _
      rw [if_neg (window_ne hq _).symm, hzero, ite_self]
  · have hready := h.structured.ready hpage hne
    refine yields_ok_bind (requirePresent_ok hready.present) ?_
    refine yields_ok_bind (check_ok (beq_iff_eq.mpr hready.avail)) ?_
    exact yields_pure ⟨Steady.refl s, fun _ _ hq => hq⟩

theorem searchLoop_proceeds (h : Inv slack P s) (length rounds i start : Nat) :
    Proceeds (searchLoop getKernelEntry none length rounds i start) s fun _ _ => True := by
  induction rounds generalizing i start with
  | zero => exact yields_pure trivial
  | succ rounds ih =>
      rw [searchLoop]
      refine yields_ite (fun hi => ?_) fun _ => yields_pure trivial
      refine (proceeds_and (getKernelEntry_proceeds h (kernel_lt hi) false)
        (getKernelEntry_spec h (kernel_lt hi) false)).bind ?_
      rintro r s₁ ⟨-, -, -, -, hmapped, -, hsame⟩
      obtain ⟨rfl, -⟩ := hsame rfl
      refine yields_ite (fun hr => ?_) fun _ => ?_
      · refine yields_ok_bind (h.structured.loadEntry_ok (kernel_lt hi) (hmapped hr)) ?_
        refine yields_ite (fun _ => ih _ _) fun _ => ?_
        exact yields_ite (fun _ => yields_pure trivial) fun _ => ih _ _
      · exact yields_ite (fun _ => yields_pure trivial) fun _ => ih _ _

theorem trySearchArea_proceeds (h : Inv slack P s) (length : Nat) :
    Proceeds (trySearchArea getKernelEntry none length) s fun _ _ => True := by
  rw [trySearchArea]
  exact yields_ite (fun _ => yields_pure trivial) fun _ => searchLoop_proceeds h _ _ _ _

/-- One page, at a place which is unused. -/
theorem allocateLoop_proceeds (h : Inv slack P s) {rw user : Bool} {cur : Nat}
    (hpage : pageOf cur < KERNEL_PAGE) (hzero : s.kernel (pageOf cur) = .zero) :
    Proceeds (allocateLoop getKernelEntry none rw user 1 cur) s fun _ s' =>
      Steady s s' ∧ (s'.kernel (pageOf cur)).frame < PAGE_COUNT ∧
        ∀ q, q < KERNEL_PAGE → q ≠ pageOf cur → s.kernel q = .zero → s'.kernel q = .zero := by
  rw [allocateLoop]
  refine (physMemAllocPage_proceeds h false).bind ?_
  rintro f s₁ ⟨hsteady₁, hkernel, hlt, -, h₁⟩
  refine (proceeds_and (getKernelEntry_proceeds h₁ (pageOf_lt cur) true)
    (getKernelEntry_spec h₁ (pageOf_lt cur) true)).bind ?_
  rintro r s₂ ⟨⟨hsteady₂, hunused⟩, h₂, -, -, hmapped, hr, -⟩
  have hm := hmapped (hr rfl)
  refine yields_ok_bind (h₂.structured.loadEntry_ok (pageOf_lt cur) hm) ?_
  have hzero₂ : s₂.kernel (pageOf cur) = .zero := by
    refine hunused _ hpage ?_
    rw [hkernel]
    exact hzero
  refine yields_ok_bind (check_ok ?_) ?_
  · rw [Machine.entry, hzero₂]
    rfl
  refine yields_ok_bind (h₂.structured.storeEntry_ok (pageOf_lt cur) hm _) ?_
  refine yields_pure ⟨hsteady₁.trans (hsteady₂.trans (steady_of_eq rfl rfl rfl)), ?_, ?_⟩
  · change (Function.update s₂.kernel (pageOf cur) _ (pageOf cur)).frame < PAGE_COUNT
    rw [Function.update_self]
    exact hlt
  · intro q hq hne hzero'
    refine (Function.update_of_ne hne _ _).trans (hunused q hq ?_)
    rw [hkernel]
    exact hzero'

theorem allocatePhysMem_proceeds (h : Inv slack P s) (rw user : Bool) :
    Proceeds (allocatePhysMem getKernelEntry none 1 rw user) s fun addr s' =>
      Steady s s' ∧ (s'.kernel (pageOf addr)).frame < PAGE_COUNT ∧
        ∀ q, q < KERNEL_PAGE → q ≠ pageOf addr → s.kernel q = .zero → s'.kernel q = .zero := by
  rw [allocatePhysMem, tryAllocatePhysMem]
  refine Yields.bind (Q := fun r s' => Steady s s' ∧ ∀ addr, r = some addr →
    (s'.kernel (pageOf addr)).frame < PAGE_COUNT ∧ ∀ q, q < KERNEL_PAGE → q ≠ pageOf addr →
      s.kernel q = .zero → s'.kernel q = .zero) ?_ ?_
  · refine (proceeds_and (trySearchArea_proceeds h 1) (trySearchArea_kernel h 1)).bind ?_
    rintro (_ | addr) _ ⟨-, rfl, hbounds⟩
    · exact yields_pure ⟨Steady.refl _, by simp⟩
    · obtain ⟨start, rfl, -, hlt, ⟨-, hclear⟩ | hover⟩ := hbounds addr rfl
      · have hpage := pageOf_mul (kernel_lt hlt)
        refine (allocateLoop_proceeds h (by rwa [hpage]) ?_).bind fun _ s' hs' => yields_pure ?_
        · rw [hpage]
          exact hclear start le_rfl (by omega)
        · refine ⟨hs'.1, ?_⟩
          rintro _ ⟨⟩
          exact hs'.2
      · simp only [KERNEL_PAGE] at hlt
        omega
  · rintro (_ | addr) s' ⟨hsteady, hlt⟩
    · exact yields_throw (Or.inr (Or.inr rfl))
    · exact yields_pure ⟨hsteady, hlt addr rfl⟩

theorem getPhysMem_proceeds (h : Inv slack P s) (hm : Mapped s none (pageOf addr))
    (hpresent : (s.kernel (pageOf addr)).present = true) :
    Proceeds (getPhysMem getKernelEntry none addr) s fun _ _ => True := by
  rw [getPhysMem]
  refine (proceeds_and (getKernelEntry_proceeds h (pageOf_lt addr) false)
    (getKernelEntry_spec h (pageOf_lt addr) false)).bind ?_
  rintro r _ ⟨-, -, -, -, -, -, hsame⟩
  obtain ⟨rfl, hmissing⟩ := hsame rfl
  refine yields_ok_bind (check_ok ?_) ?_
  · by_contra hr
    exact hmissing (by simpa using hr) hm
  refine yields_ok_bind (h.structured.loadEntry_ok (pageOf_lt addr) hm) ?_
  refine yields_ok_bind (check_ok ?_) (yields_ok_bind (requirePresent_ok hpresent) ?_)
  · rw [bne_iff_ne]
    intro hzero
    rw [Machine.entry] at hzero
    rw [hzero] at hpresent
    cases hpresent
  · exact yields_pure trivial

end

section

variable {slack : Nat → Nat} {P : Nat → ℤ} {s s' : Machine} {f i addr : Nat}

theorem refs_setInfo (s : Machine) (f : Nat) (info : PhysMemExtraInfo) (g : Nat) :
    refs (s.setInfo f info) g =
      if g = f then (if used s f then (if info = .zero then 1 else info.ref) else 0)
      else refs s g := by
  change (if used s g then (if Function.update s.extraInfo f info g = .zero then 1 else
    (Function.update s.extraInfo f info g).ref) else 0) = _
  rcases eq_or_ne g f with rfl | hne
  · rw [Function.update_self, if_pos rfl]
  · rw [Function.update_of_ne hne, if_neg hne]
    rfl

theorem steady_setExtra (addr : Nat) (h : Recorded s) (hnone : s.physMemExtra i = none) :
    Steady s (s.setExtra i addr) := by
  refine steady_of_eq rfl rfl ?_
  funext index
  change (if index / PHYSMEMEXTRA_COUNT = i then PhysMemExtraInfo.zero else s.extraInfo index) = _
  split
  · rename_i hindex
    exact (h.missing index (by rw [hindex]; exact hnone)).symm
  · rfl

theorem markRecord_proceeds {E : Stop → Prop} (h : Inv slack P s)
    (hx : s.physMemExtra (f / PHYSMEMEXTRA_COUNT) ≠ none) (hused : used s f = true) :
    Yields E (markRecord f) s fun _ s' =>
      Steady s s' ∧ s'.kernel = s.kernel ∧ s'.physMemExtra = s.physMemExtra := by
  obtain ⟨hpresent, href, -⟩ := started_spec h.recorded hused
  rw [markRecord]
  refine yields_ok_bind (h.structured.loadInfo_ok hx) ?_
  refine yields_of_ok (h.structured.storeInfo_ok hx _)
    ⟨⟨rfl, fun _ hg => hg, fun g _ => ?_⟩, rfl, rfl⟩
  rw [refs_setInfo]
  rcases eq_or_ne g f with rfl | hne
  · rw [if_pos rfl, if_pos hused, if_neg]
    · exact href
    · intro hzero
      have := congrArg PhysMemExtraInfo.present hzero
      rw [hpresent] at this
      cases this
  · rw [if_neg hne]

/-- The tables of records are there for every frame, so the assertions hold. -/
theorem extra_index_lt (hf : f < PAGE_COUNT) : f / PHYSMEMEXTRA_COUNT < PHYSMEMEXTRA_COUNT := by
  simp only [PAGE_COUNT, PHYSMEMEXTRA_COUNT] at *
  omega

theorem getPhysMemExtraInfo_present (fuel : Nat) (alloc : Bool)
    (henabled : s.pagingEnabled = true) (hf : f < PAGE_COUNT)
    (hx : s.physMemExtra (f / PHYSMEMEXTRA_COUNT) ≠ none) :
    getPhysMemExtraInfo fuel f alloc s = .ok (true, s) := by
  rcases hk : s.physMemExtra (f / PHYSMEMEXTRA_COUNT) with _ | k
  · exact (hx hk).elim
  · have hi := decide_eq_true (extra_index_lt hf)
    cases fuel <;> rw [getPhysMemExtraInfo] <;>
      simp only [bind_apply, get_apply, check_ok henabled, check_ok hi, hk] <;> rfl

theorem getPhysMemExtraInfo_proceeds {fuel : Nat} (h : Inv slack P s)
    (henabled : s.pagingEnabled = true) (hf : f < PAGE_COUNT) (hfuel : missing s < fuel) :
    Proceeds (getPhysMemExtraInfo fuel f true) s fun r s' =>
      r = true ∧ Steady s s' ∧ OnlyRecords s s' := by
  induction fuel generalizing s f P with
  | zero => omega
  | succ fuel ih =>
      rcases Classical.em (s.physMemExtra (f / PHYSMEMEXTRA_COUNT) = none) with hnone | hx
      · rw [getPhysMemExtraInfo]
        refine yields_get_bind (yields_ok_bind (check_ok henabled) ?_)
        refine yields_ok_bind (check_ok (decide_eq_true (extra_index_lt hf))) (yields_get_bind ?_)
        simp only [hnone, if_true]
        refine (proceeds_and (allocatePhysMem_proceeds h true false)
          (allocatePhysMem_kernel h 1 true false)).bind ?_
        rintro addr s₁ ⟨⟨hsteady₁, hlt, hunused⟩, h₁, hg₁, hextra, hpos, hend, hfilled⟩
        have hfilled := hfilled (pageOf addr) le_rfl (by omega)
        have hnone₁ : s₁.physMemExtra (f / PHYSMEMEXTRA_COUNT) = none := by
          rw [hextra]
          exact hnone
        have h₂ := inv_setExtra h₁ hnone₁ (by omega) hfilled
        have hsteady₂ := hsteady₁.trans (steady_setExtra addr h₁.recorded hnone₁)
        have hmissing : missing (s₁.setExtra (f / PHYSMEMEXTRA_COUNT) addr) < fuel := by
          have := missing_setExtra (extra_index_lt hf) hnone₁ addr
          have := missing_mono hg₁
          omega
        obtain ⟨g, hentry, hused, -⟩ := hfilled.entry
        have hkernel : (s₁.setExtra (f / PHYSMEMEXTRA_COUNT) addr).kernel (pageOf addr) =
            ⟨true, true, false, 0, g⟩ := hentry
        refine yields_modify_bind ((proceeds_and (getPhysMem_proceeds h₂ ?_ ?_)
          (getPhysMem_kernel h₂ addr)).bind ?_)
        · intro hzero
          have hready := ready_of_ne_zero h₂.structured (k := pageOf addr) (by omega)
            (by rw [hkernel]; simp [PagingEntry.zero])
          have := hready.present
          rw [hzero] at this
          cases this
        · rw [hkernel]
        rintro f' _ ⟨-, rfl, -, hf'⟩
        rw [hkernel] at hf'
        obtain rfl : g = f' := Option.some.inj hf'
        rw [hentry] at hlt
        refine (proceeds_and (ih h₂ (hsteady₂.enabled.trans henabled) hlt hmissing)
          (getPhysMemExtraInfo_spec h₂ g true fun _ => hmissing)).bind ?_
        rintro r s₃ ⟨⟨rfl, hsteady₃, honly⟩, h₃, hg₃, hr, -⟩
        refine yields_ok_bind (check_ok rfl) ?_
        refine (markRecord_proceeds h₃ (hr rfl) (hg₃.used g hused)).bind ?_
        rintro _ s₄ ⟨hsteady₄, hkernel₄, hextra₄⟩
        refine yields_pure ⟨rfl, hsteady₂.trans (hsteady₃.trans hsteady₄), fun q hq hzero => ?_⟩
        rw [hkernel₄, hextra₄]
        rcases eq_or_ne q (pageOf addr) with rfl | hne
        · exact Or.inr ⟨by omega, _, hg₃.homes (.extra (f / PHYSMEMEXTRA_COUNT)) (pageOf addr)
            (Function.update_self ..)⟩
        · exact honly q hq (hunused q hq hne hzero)
      · exact yields_of_ok (getPhysMemExtraInfo_present _ _ henabled hf hx)
          ⟨rfl, Steady.refl s, fun _ _ hzero => Or.inl hzero⟩

end

end Ibnos.FrameSupply
