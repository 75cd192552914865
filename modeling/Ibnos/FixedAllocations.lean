import Ibnos.SharedFrames
import Ibnos.TableMappings

/-!
Memory at a fixed place of an address space. After a collision what was mapped so
far is undone, and for the kernel nothing is left of it but empty page tables. For
a process the pages are searched in the address space of the kernel instead.
-/

namespace Ibnos.FixedAllocations

open Ibnos.Memory
open Ibnos.Physmem
open Ibnos.Paging
open Ibnos.Programs
open Ibnos.References
open Ibnos.KernelPages
open Ibnos.ProcessPages
open Ibnos.PagingOperations
open Ibnos.Forks
open Ibnos.SharedFrames
open Ibnos.PagingRuns
open Ibnos.BootPaging
open Ibnos.Runs
open Ibnos.TableMappings

section

/-- An entry of the kernel which was not there before. -/
def New (s₀ s : Machine) (page : Nat) : Prop := s₀.kernel page = .zero ∧ s.kernel page ≠ .zero

/-- Everything but the bitmap and the page tables of the kernel. -/
structure SameRest (s₀ s : Machine) : Prop where
  process : s.process = s₀.process
  physMemExtra : s.physMemExtra = s₀.physMemExtra
  extraInfo : s.extraInfo = s₀.extraInfo
  extraFrame : s.extraFrame = s₀.extraFrame
  enabled : s.pagingEnabled = s₀.pagingEnabled

/-- The pages from `lo` to `hi` were filled with new frames, and page tables were created for
them. The frames in `pending` are not mapped. -/
structure Filling (s₀ : Machine) (lo hi : Nat) (pending : Set Nat) (s : Machine) : Prop
    extends SameRest s₀ s where
  old : ∀ page, s₀.kernel page ≠ .zero → s.kernel page = s₀.kernel page
  tables : ∀ i, s₀.kernel (KERNEL_PAGE + i) ≠ .zero → s.kernelTable i = s₀.kernelTable i
  place : ∀ page, New s₀ s page → lo ≤ page ∧ page < hi ∨
    ∃ i, i < KERNEL_DIR_ENTRY ∧ page = KERNEL_PAGE + i ∧ TableReady s i
  filled : ∀ page, lo ≤ page → page < hi → New s₀ s page ∧ TableReady s (page / PAGETABLE_COUNT)
  present : ∀ page, New s₀ s page → (s.kernel page).present = true
  fresh : ∀ page, New s₀ s page → used s₀ (s.kernel page).frame = false ∧
    (s.kernel page).frame < PAGE_COUNT ∧ (s.kernel page).frame ∉ pending
  unnamed : ∀ f ∈ pending, used s₀ f = false ∧ f < PAGE_COUNT
  distinct : ∀ page page', New s₀ s page → New s₀ s page' →
    (s.kernel page).frame = (s.kernel page').frame → page = page'
  used : ∀ f, used s f = true ↔ References.used s₀ f = true ∨ f ∈ pending ∨
    ∃ page, New s₀ s page ∧ (s.kernel page).frame = f

variable {s₀ s s' : Machine} {lo hi f i page : Nat} {pending : Set Nat}

theorem SameRest.trans {s₁ s₂ s₃ : Machine} (h : SameRest s₁ s₂) (h' : SameRest s₂ s₃) :
    SameRest s₁ s₃ :=
  ⟨h'.process.trans h.process, h'.physMemExtra.trans h.physMemExtra,
    h'.extraInfo.trans h.extraInfo, h'.extraFrame.trans h.extraFrame, h'.enabled.trans h.enabled⟩

theorem not_new_self (page : Nat) : ¬New s s page := fun h => h.2 h.1

theorem filling_refl (s : Machine) (lo : Nat) : Filling s lo lo ∅ s where
  process := rfl
  physMemExtra := rfl
  extraInfo := rfl
  extraFrame := rfl
  enabled := rfl
  old _ _ := rfl
  tables _ _ := rfl
  place page h := (not_new_self page h).elim
  filled _ hle hlt := absurd hlt (Nat.not_lt.mpr hle)
  present page h := (not_new_self page h).elim
  fresh page h := (not_new_self page h).elim
  unnamed _ h := h.elim
  distinct page _ h := (not_new_self page h).elim
  used f := by
    constructor
    · exact Or.inl
    · rintro (h | h | ⟨page, h, -⟩)
      · exact h
      · exact h.elim
      · exact (not_new_self page h).elim

theorem ne_zero_of_ready (h : TableReady s i) : s.kernel (KERNEL_PAGE + i) ≠ .zero := by
  intro hzero
  have := h.present
  rw [hzero] at this
  cases this

theorem Filling.ready (h : Filling s₀ lo hi pending s) (hi' : TableReady s₀ i) :
    TableReady s i := by
  have hne := ne_zero_of_ready hi'
  refine ⟨?_, ?_, ?_⟩
  · rw [h.old _ hne]
    exact hi'.present
  · rw [h.old _ hne]
    exact hi'.avail
  · rw [h.old _ hne, h.tables i hne]
    exact hi'.frame

theorem Filling.zero (h : Filling s₀ lo hi pending s) (hzero : s.kernel page = .zero) :
    s₀.kernel page = .zero := by
  by_contra hne
  exact hne ((h.old page hne).symm.trans hzero)

theorem Filling.not_used (h : Filling s₀ lo hi pending s) (hf : References.used s f = false) :
    References.used s₀ f = false ∧ f ∉ pending ∧
      ∀ page, New s₀ s page → (s.kernel page).frame ≠ f := by
  have hnot : ¬References.used s f = true := by
    rw [hf]
    exact Bool.false_ne_true
  rw [h.used] at hnot
  push Not at hnot
  exact ⟨by simpa using hnot.1, hnot.2.1, hnot.2.2⟩

/-- Only the bitmap changes. -/
theorem Filling.of_bits {pending' : Set Nat} (h : Filling s₀ lo hi pending s)
    (hrest : SameRest s s') (hkernel : s'.kernel = s.kernel)
    (htable : s'.kernelTable = s.kernelTable)
    (hpending : ∀ page, New s₀ s page → (s.kernel page).frame ∉ pending')
    (hunnamed : ∀ f ∈ pending', References.used s₀ f = false ∧ f < PAGE_COUNT)
    (hused : ∀ f, References.used s' f = true ↔ References.used s₀ f = true ∨ f ∈ pending' ∨
      ∃ page, New s₀ s page ∧ (s.kernel page).frame = f) : Filling s₀ lo hi pending' s' := by
  have hready : ∀ j, TableReady s j → TableReady s' j := fun j hj =>
    ⟨by rw [hkernel]; exact hj.1, by rw [hkernel]; exact hj.2, by rw [hkernel, htable]; exact hj.3⟩
  refine ⟨h.toSameRest.trans hrest, ?_, ?_, fun page hpage => ?_, fun page hle hpage => ?_, ?_,
    fun page hpage => ?_, hunnamed, ?_, ?_⟩
  · rw [hkernel]
    exact h.old
  · rw [htable]
    exact h.tables
  · rw [New, hkernel] at hpage
    rcases h.place page hpage with hin | ⟨i, hi, hpage, hi'⟩
    · exact Or.inl hin
    · exact Or.inr ⟨i, hi, hpage, hready i hi'⟩
  · obtain ⟨hnew, htable⟩ := h.filled page hle hpage
    rw [New, hkernel]
    exact ⟨hnew, hready _ htable⟩
  · simp only [New, hkernel]
    exact h.present
  · rw [New, hkernel] at hpage
    rw [hkernel]
    exact ⟨(h.fresh page hpage).1, (h.fresh page hpage).2.1, hpending page hpage⟩
  · simp only [New, hkernel]
    exact h.distinct
  · simp only [New, hkernel]
    exact hused

/-- A frame is taken. -/
theorem Filling.take (h : Filling s₀ lo hi pending s) (hf : References.used s f = false)
    (hlt : f < PAGE_COUNT) :
    Filling s₀ lo hi (insert f pending) ((s.setBit f true).handOut f) := by
  obtain ⟨hf₀, -, hnames⟩ := h.not_used hf
  refine h.of_bits ⟨rfl, rfl, rfl, rfl, rfl⟩ rfl rfl (fun page hpage hmem => ?_)
    (fun g hg => ?_) fun g => ?_
  · rcases hmem with heq | hmem
    · exact hnames page hpage heq
    · exact (h.fresh page hpage).2.2 hmem
  · rcases hg with rfl | hg
    · exact ⟨hf₀, hlt⟩
    · exact h.unnamed g hg
  · have hused : References.used ((s.setBit f true).handOut f) g =
        if g = f then true else References.used s g := used_setBit s f g true
    rw [hused, Set.mem_insert_iff]
    rcases eq_or_ne g f with rfl | hne
    · simp
    · rw [if_neg hne, h.used]
      simp only [hne, false_or]

/-- It is given back. -/
theorem Filling.drop (h : Filling s₀ lo hi (insert f pending) s) (hf : f ∉ pending) :
    Filling s₀ lo hi pending (s.setBit f false) := by
  refine h.of_bits ⟨rfl, rfl, rfl, rfl, rfl⟩ rfl rfl (fun page hpage hmem => ?_)
    (fun g hg => h.unnamed g (Set.mem_insert_of_mem f hg)) fun g => ?_
  · exact (h.fresh page hpage).2.2 (Set.mem_insert_of_mem f hmem)
  · rw [used_setBit]
    rcases eq_or_ne g f with rfl | hne
    · simp only [if_true, Bool.false_eq_true, false_iff, not_or, not_exists, not_and, hf,
        (h.unnamed g (Set.mem_insert g pending)).1, not_false_eq_true, true_and]
      exact fun page hpage heq => (h.fresh page hpage).2.2 (heq ▸ Set.mem_insert g pending)
    · rw [if_neg hne, h.used]
      simp only [Set.mem_insert_iff, hne, false_or]

end

section

variable {s₀ s s' : Machine} {lo hi hi' f i page : Nat} {pending : Set Nat} {e : PagingEntry}

/-- A pending frame is mapped by an entry which was not in use. -/
theorem Filling.fill (h : Filling s₀ lo hi (insert f pending) s) (hf : f ∉ pending)
    (hzero : s.kernel page = .zero) (hpresent : e.present = true) (hframe : e.frame = f)
    (hrest : SameRest s s') (hkernel : s'.kernel = Function.update s.kernel page e)
    (hmap : s'.physMemMap = s.physMemMap)
    (htables : ∀ j, s₀.kernel (KERNEL_PAGE + j) ≠ .zero → s'.kernelTable j = s.kernelTable j)
    (hready : ∀ j, TableReady s j → TableReady s' j)
    (hplace : hi' = hi ∧ (∃ i, i < KERNEL_DIR_ENTRY ∧ page = KERNEL_PAGE + i ∧ TableReady s' i) ∨
      hi' = hi + 1 ∧ page = hi ∧ lo ≤ hi ∧ TableReady s' (hi / PAGETABLE_COUNT)) :
    Filling s₀ lo hi' pending s' := by
  have hnone : e ≠ .zero := by
    rintro rfl
    cases hpresent
  have hself : s'.kernel page = e := by rw [hkernel, Function.update_self]
  have hother : ∀ q, q ≠ page → s'.kernel q = s.kernel q := fun q hq => by
    rw [hkernel, Function.update_of_ne hq]
  have hne : ∀ q, New s₀ s q → q ≠ page := by
    rintro q hq rfl
    exact hq.2 hzero
  have hnew : ∀ q, New s₀ s' q ↔ q = page ∨ New s₀ s q := by
    intro q
    rcases eq_or_ne q page with rfl | hq
    · simp [New, hself, hnone, h.zero hzero]
    · simp [New, hother q hq, hq]
  have hframe' : ∀ q, New s₀ s q → (s.kernel q).frame ≠ f := fun q hq heq =>
    (h.fresh q hq).2.2 (heq ▸ Set.mem_insert _ pending)
  refine ⟨h.toSameRest.trans hrest, fun q hq => ?_,
    fun j hj => (htables j hj).trans (h.tables j hj),
    fun q hq => ?_, fun q hle hlt => ?_, fun q hq => ?_, fun q hq => ?_,
    fun g hg => h.unnamed g (Set.mem_insert_of_mem f hg), fun q q' hq hq' heq => ?_, fun g => ?_⟩
  · rw [hother q, h.old q hq]
    rintro rfl
    exact hq (h.zero hzero)
  · rcases (hnew q).mp hq with rfl | hq
    · rcases hplace with ⟨-, htable⟩ | ⟨rfl, rfl, hle, -⟩
      · exact Or.inr htable
      · exact Or.inl ⟨hle, Nat.lt_succ_self q⟩
    · rcases h.place q hq with ⟨hle, hlt⟩ | ⟨j, hj, hq, hj'⟩
      · exact Or.inl ⟨hle, by omega⟩
      · exact Or.inr ⟨j, hj, hq, hready j hj'⟩
  · rcases hplace with ⟨rfl, -⟩ | ⟨rfl, rfl, -, htable⟩
    · obtain ⟨hq, htable⟩ := h.filled q hle hlt
      exact ⟨(hnew q).mpr (Or.inr hq), hready _ htable⟩
    · rcases Nat.lt_succ_iff_lt_or_eq.mp hlt with hlt | rfl
      · obtain ⟨hq, htable⟩ := h.filled q hle hlt
        exact ⟨(hnew q).mpr (Or.inr hq), hready _ htable⟩
      · exact ⟨(hnew q).mpr (Or.inl rfl), htable⟩
  · rcases (hnew q).mp hq with rfl | hq
    · rwa [hself]
    · rw [hother q (hne q hq)]
      exact h.present q hq
  · rcases (hnew q).mp hq with rfl | hq
    · rw [hself, hframe]
      obtain ⟨hunused, hlt⟩ := h.unnamed f (Set.mem_insert f pending)
      exact ⟨hunused, hlt, hf⟩
    · rw [hother q (hne q hq)]
      obtain ⟨hunused, hlt, hmem⟩ := h.fresh q hq
      exact ⟨hunused, hlt, fun hg => hmem (Set.mem_insert_of_mem f hg)⟩
  · rcases (hnew q).mp hq with rfl | hq
    · rcases (hnew q').mp hq' with rfl | hq'
      · rfl
      · rw [hself, hframe, hother q' (hne q' hq')] at heq
        exact (hframe' q' hq' heq.symm).elim
    · rw [hother q (hne q hq)] at heq
      rcases (hnew q').mp hq' with rfl | hq'
      · rw [hself, hframe] at heq
        exact (hframe' q hq heq).elim
      · rw [hother q' (hne q' hq')] at heq
        exact h.distinct q q' hq hq' heq
  · rw [References.used, hmap]
    change References.used s g = true ↔ _
    rw [h.used, Set.mem_insert_iff]
    constructor
    · rintro (hg | (rfl | hg) | ⟨q, hq, rfl⟩)
      · exact Or.inl hg
      · exact Or.inr (Or.inr ⟨page, (hnew page).mpr (Or.inl rfl), by rw [hself, hframe]⟩)
      · exact Or.inr (Or.inl hg)
      · exact Or.inr (Or.inr ⟨q, (hnew q).mpr (Or.inr hq), by rw [hother q (hne q hq)]⟩)
    · rintro (hg | hg | ⟨q, hq, rfl⟩)
      · exact Or.inl hg
      · exact Or.inr (Or.inl (Or.inr hg))
      · rcases (hnew q).mp hq with rfl | hq
        · exact Or.inr (Or.inl (Or.inl (by rw [hself, hframe])))
        · exact Or.inr (Or.inr ⟨q, hq, by rw [hother q (hne q hq)]⟩)

end

section

variable {slack : Nat → Nat} {s₀ s s' : Machine} {lo hi f i page : Nat} {pending : Set Nat}

/-- The directory of the kernel stays where it is. -/
theorem Filling.self (h : Filling s₀ lo hi pending s) (h₀ : Structured s₀) :
    TableReady s KERNEL_DIR_ENTRY := h.ready h₀.self

/-- The first of the filled pages is unmapped. -/
theorem Filling.remove (h : Filling s₀ lo hi pending s) (h₀ : Structured s₀) (hlt : lo < hi)
    (hhi : hi ≤ PAGE_COUNT) :
    Filling s₀ (lo + 1) hi (insert (s.kernel lo).frame pending) (s.setKernel lo .zero) := by
  obtain ⟨hlo, -⟩ := h.filled lo le_rfl hlt
  have hself : (s.setKernel lo .zero).kernel lo = .zero := Function.update_self ..
  have hother : ∀ q, q ≠ lo → (s.setKernel lo .zero).kernel q = s.kernel q := fun q hq =>
    Function.update_of_ne hq _ _
  have hnew : ∀ q, New s₀ (s.setKernel lo .zero) q ↔ q ≠ lo ∧ New s₀ s q := by
    intro q
    rcases eq_or_ne q lo with rfl | hq
    · simp [New, hself]
    · simp [New, hother q hq, hq]
  have hready : ∀ j, KERNEL_PAGE + j ≠ lo → TableReady s j → TableReady (s.setKernel lo .zero) j :=
    fun j hj hready => ⟨by rw [hother _ hj]; exact hready.1, by rw [hother _ hj]; exact hready.2,
      by rw [hother _ hj]; exact hready.3⟩
  refine ⟨h.toSameRest.trans ⟨rfl, rfl, rfl, rfl, rfl⟩, fun q hq => ?_, h.tables, fun q hq => ?_,
    fun q hle hq => ?_, fun q hq => ?_, fun q hq => ?_, fun g hg => ?_, fun q q' hq hq' heq => ?_,
    fun g => ?_⟩
  · rw [hother q, h.old q hq]
    rintro rfl
    exact hq hlo.1
  · obtain ⟨hne, hq⟩ := (hnew q).mp hq
    rcases h.place q hq with ⟨hle, hlt⟩ | ⟨j, hj, rfl, hj'⟩
    · exact Or.inl ⟨by omega, hlt⟩
    · exact Or.inr ⟨j, hj, rfl, hready j hne hj'⟩
  · obtain ⟨hq', htable⟩ := h.filled q (by omega) hq
    refine ⟨(hnew q).mpr ⟨by omega, hq'⟩, hready _ (fun heq => ?_) htable⟩
    -- a page table of pages behind `lo` could only be the directory
    have hdir : lo = KERNEL_PAGE + KERNEL_DIR_ENTRY := by
      rw [← heq]
      simp only [KERNEL_PAGE, KERNEL_DIR_ENTRY, PAGETABLE_COUNT, PAGE_COUNT] at *
      omega
    have hzero := hlo.1
    rw [hdir] at hzero
    exact ne_zero_of_ready h₀.self hzero
  · obtain ⟨hne, hq⟩ := (hnew q).mp hq
    rw [hother q hne]
    exact h.present q hq
  · obtain ⟨hne, hq⟩ := (hnew q).mp hq
    rw [hother q hne]
    refine ⟨(h.fresh q hq).1, (h.fresh q hq).2.1, ?_⟩
    rintro (heq | hmem)
    · exact hne (h.distinct q lo hq hlo heq)
    · exact (h.fresh q hq).2.2 hmem
  · rcases hg with rfl | hg
    · exact ⟨(h.fresh lo hlo).1, (h.fresh lo hlo).2.1⟩
    · exact h.unnamed g hg
  · obtain ⟨hne, hq⟩ := (hnew q).mp hq
    obtain ⟨hne', hq'⟩ := (hnew q').mp hq'
    rw [hother q hne, hother q' hne'] at heq
    exact h.distinct q q' hq hq' heq
  · change References.used s g = true ↔ _
    rw [h.used, Set.mem_insert_iff]
    constructor
    · rintro (hg | hg | ⟨q, hq, rfl⟩)
      · exact Or.inl hg
      · exact Or.inr (Or.inl (Or.inr hg))
      · rcases eq_or_ne q lo with rfl | hne
        · exact Or.inr (Or.inl (Or.inl rfl))
        · exact Or.inr (Or.inr ⟨q, (hnew q).mpr ⟨hne, hq⟩, by rw [hother q hne]⟩)
    · rintro (hg | (rfl | hg) | ⟨q, hq, rfl⟩)
      · exact Or.inl hg
      · exact Or.inr (Or.inr ⟨lo, hlo, rfl⟩)
      · exact Or.inr (Or.inl hg)
      · obtain ⟨hne, hq⟩ := (hnew q).mp hq
        exact Or.inr (Or.inr ⟨q, hq, by rw [hother q hne]⟩)

theorem accessTable_ready (hself : TableReady s KERNEL_DIR_ENTRY) (hpage : page < PAGE_COUNT)
    (hready : TableReady s (page / PAGETABLE_COUNT)) : accessTable none page s = .ok ((), s) := by
  refine access_ok ?_
  have hdir : (KERNEL_PAGE + page / PAGETABLE_COUNT) / PAGETABLE_COUNT = KERNEL_DIR_ENTRY := by
    simp only [KERNEL_PAGE, PAGETABLE_COUNT, KERNEL_DIR_ENTRY, PAGE_COUNT] at *
    omega
  rw [translate_of_ready (by rw [hdir]; exact hself), if_pos hready.present, hready.frame]

theorem loadEntry_ready (hself : TableReady s KERNEL_DIR_ENTRY) (hpage : page < PAGE_COUNT)
    (hready : TableReady s (page / PAGETABLE_COUNT)) :
    loadEntry none page s = .ok (s.kernel page, s) := by
  rw [loadEntry, bind_apply, accessTable_ready hself hpage hready]
  rfl

theorem storeEntry_ready (hself : TableReady s KERNEL_DIR_ENTRY) (hpage : page < PAGE_COUNT)
    (hready : TableReady s (page / PAGETABLE_COUNT)) (e : PagingEntry) :
    storeEntry none page e s = .ok ((), s.setKernel page e) := by
  rw [storeEntry, bind_apply, accessTable_ready hself hpage hready]
  rfl

/-- A frame which nobody else has is free again. -/
theorem Filling.release (h : Filling s₀ lo hi (insert f pending) s) (h₀ : Inv slack 0 s₀)
    (henabled : s₀.pagingEnabled = true) :
    physMemReleasePage f s = .ok (0, s.setBit f false) := by
  obtain ⟨hunused, hlt⟩ := h.unnamed f (Set.mem_insert f pending)
  have hused : References.used s f = true :=
    (h.used f).mpr (Or.inr (Or.inl (Set.mem_insert f pending)))
  have hinfo : s.extraInfo f = .zero := by
    rw [h.extraInfo]
    exact h₀.recorded.unused f hunused
  rw [physMemReleasePage, bind_apply, get_apply]
  dsimp only
  rw [bind_apply,
    FrameSupply.check_ok (show (s.physMemMap (f / 32)).getLsbD (f % 32) = true from hused)]
  dsimp only
  rcases hx : s.physMemExtra (f / PHYSMEMEXTRA_COUNT) with _ | k
  · have hnone : getPhysMemExtraInfo 0 f false s = .ok (false, s) := by
      rw [getPhysMemExtraInfo, bind_apply, get_apply]
      dsimp only
      rw [bind_apply, FrameSupply.check_ok (by rw [h.enabled, henabled])]
      dsimp only
      rw [bind_apply, FrameSupply.check_ok (by simpa using FrameSupply.extra_index_lt hlt)]
      dsimp only
      rw [bind_apply, get_apply]
      simp only [hx]
      rfl
    rw [bind_apply, hnone]
    rfl
  · rw [bind_apply, FrameSupply.getPhysMemExtraInfo_present 0 false
      (by rw [h.enabled, henabled]) hlt
      (by rw [hx]; exact Option.some_ne_none k)]
    dsimp only
    rw [if_pos rfl, releaseRecord, bind_apply]
    -- the table of records is seen through a page which was there before
    have hhome : home s₀ (.extra (f / PHYSMEMEXTRA_COUNT)) = some k := by
      rw [home, ← h.physMemExtra, hx]
    obtain ⟨hk, htranslate, -⟩ := h₀.structured.homes _ _ hhome
    have hne : s₀.kernel k ≠ .zero := by
      intro hzero
      rw [Machine.translate, hzero] at htranslate
      simp [PagingEntry.zero] at htranslate
    have hready := ready_of_ne_zero h₀.structured hk hne
    have hload : loadInfo f s = .ok (.zero, s) := by
      rw [loadInfo, bind_apply, accessInfo, bind_apply, get_apply]
      simp only [hx]
      rw [access_ok]
      · rw [← hinfo]
        rfl
      · rw [translate_of_ready (h.ready hready), h.old k hne, h.extraFrame]
        rw [translate_of_ready hready] at htranslate
        exact htranslate
    rw [hload]
    rfl

end

section

variable {slack : Nat → Nat} {s₀ s s' : Machine} {lo hi f i page addr : Nat} {pending : Set Nat}

/-- There is no free frame, and pages cannot be moved to the disk. -/
def NoFrames (e : Stop) : Prop := e = .outOfMemory ∨ e = .notImplemented

theorem allocLoop_yields (lowmem : Bool) (tries : Nat) :
    Yields NoFrames (allocLoop lowmem tries) s fun _ _ => True := by
  cases tries with
  | zero => exact yields_throw (Or.inl rfl)
  | succ tries =>
      rw [allocLoop]
      refine yields_get_bind ?_
      split
      · exact yields_modify_bind (yields_pure trivial)
      · exact Yields.bind (Q := fun _ _ => False) (yields_throw (Or.inr rfl)) (by simp)

theorem Filling.alloc (h : Filling s₀ lo hi pending s) (lowmem : Bool) :
    Yields NoFrames (physMemAllocPage lowmem) s fun f s' =>
      Filling s₀ lo hi (insert f pending) s' ∧ s'.kernel = s.kernel ∧ f ∉ pending := by
  refine yields_iff.mpr ⟨fun f s' hok => ?_, fun e he => (allocLoop_yields lowmem _).of_error he⟩
  obtain ⟨rfl, hunused, hlt⟩ := allocLoop_spec.of_ok hok
  exact ⟨h.take hunused hlt, rfl, (h.not_used hunused).2.1⟩

theorem Filling.addTable (h : Filling s₀ lo hi (insert f pending) s) (h₀ : Structured s₀)
    (hf : f ∉ pending) (hi' : i < KERNEL_DIR_ENTRY)
    (hzero : s.kernel (KERNEL_PAGE + i) = .zero) :
    Filling s₀ lo hi pending (s.setKernelTable i f) := by
  have hmissing : TableMissing s₀ i := by
    rcases h₀.tables i hi' with hmissing | hready
    · exact hmissing
    · exact (ne_zero_of_ready (h.ready hready) hzero).elim
  -- the pages of the new table had no entries
  have hentries : ∀ page, page / PAGETABLE_COUNT = i → s.kernel page = .zero := by
    intro page hpage
    by_contra hne
    rcases h.place page ⟨hmissing.entries page hpage, hne⟩ with ⟨hle, hlt⟩ | ⟨j, hj, rfl, -⟩
    · have hready := (h.filled page hle hlt).2
      rw [hpage] at hready
      exact ne_zero_of_ready hready hzero
    · simp only [KERNEL_PAGE, PAGETABLE_COUNT, KERNEL_DIR_ENTRY] at *
      omega
  refine h.fill (e := ⟨true, true, true, 0, f⟩) hf hzero rfl rfl ⟨rfl, rfl, rfl, rfl, rfl⟩ ?_ rfl
    (fun j hj => ?_) (fun j hj => ?_)
    (Or.inl ⟨rfl, i, hi', rfl, setKernelTable_ready hi'⟩)
  · funext page
    rw [Function.update_apply]
    change (if page / PAGETABLE_COUNT = i then PagingEntry.zero
      else if page = KERNEL_PAGE + i then ⟨true, true, true, 0, f⟩ else s.kernel page) = _
    split
    · rename_i hpage
      rw [if_neg, hentries page hpage]
      rintro rfl
      simp only [KERNEL_PAGE, PAGETABLE_COUNT, KERNEL_DIR_ENTRY] at *
      omega
    · rfl
  · refine Function.update_of_ne ?_ _ _
    rintro rfl
    exact hj hmissing.directory
  · refine hj.setKernelTable hi' ?_
    rintro rfl
    exact ne_zero_of_ready hj hzero

/-- The page table for the page behind those which are filled. -/
theorem Filling.getKernelEntry (h : Filling s₀ lo hi pending s) (h₀ : Structured s₀)
    (hhi : hi < PAGE_COUNT) :
    Yields NoFrames (getKernelEntry hi true) s fun _ s' =>
      Filling s₀ lo hi pending s' ∧ TableReady s' (hi / PAGETABLE_COUNT) := by
  have hself := h.self h₀
  have htranslate := self_translate hself
  rw [Physmem.getKernelEntry]
  refine yields_get_bind (yields_ok_bind (access_ok htranslate) (yields_get_bind ?_))
  refine yields_ite (fun hzero => ?_) fun hne => ?_
  · rw [if_pos rfl]
    refine (h.alloc false).bind ?_
    rintro f s₁ ⟨h₁, hkernel, hf⟩
    have hi' : hi / PAGETABLE_COUNT < KERNEL_DIR_ENTRY := by
      by_contra hge
      have hdir : hi / PAGETABLE_COUNT = KERNEL_DIR_ENTRY := by
        simp only [PAGETABLE_COUNT, KERNEL_DIR_ENTRY, PAGE_COUNT] at *
        omega
      rw [hdir] at hzero
      exact ne_zero_of_ready hself hzero
    refine yields_modify_bind (yields_pure ⟨?_, setKernelTable_ready hi'⟩)
    exact h₁.addTable h₀ hf hi' (by rw [hkernel]; exact hzero)
  · have hready : TableReady s (hi / PAGETABLE_COUNT) := by
      rcases Classical.em
        (s₀.kernel (KERNEL_PAGE + hi / PAGETABLE_COUNT) = .zero) with hzero₀ | hne₀
      · rcases h.place _ ⟨hzero₀, hne⟩ with ⟨-, hlt⟩ | ⟨j, -, heq, hj⟩
        · -- a filled page of the window lies before its directory
          have hdir : hi / PAGETABLE_COUNT = KERNEL_DIR_ENTRY := by
            simp only [KERNEL_PAGE, PAGETABLE_COUNT, KERNEL_DIR_ENTRY, PAGE_COUNT] at *
            omega
          rw [hdir]
          exact hself
        · rw [Nat.add_left_cancel heq]
          exact hj
      · refine h.ready (h₀.ready hhi hne₀)
    refine yields_ok_bind (FrameSupply.requirePresent_ok hready.present) ?_
    refine yields_ok_bind (FrameSupply.check_ok ?_) (yields_pure ⟨h, hready⟩)
    rw [beq_iff_eq]
    exact hready.avail

end

section

variable {slack : Nat → Nat} {s₀ s s' : Machine} {lo hi f i page addr : Nat} {pending : Set Nat}

theorem getKernelEntry_ready (hself : TableReady s KERNEL_DIR_ENTRY)
    (hready : TableReady s (page / PAGETABLE_COUNT)) (alloc : Bool) :
    getKernelEntry page alloc s = .ok (true, s) := by
  rw [getKernelEntry, bind_apply, get_apply]
  dsimp only
  rw [bind_apply, access_ok (self_translate hself)]
  dsimp only
  rw [bind_apply, get_apply]
  dsimp only
  rw [if_neg (ne_zero_of_ready hready), bind_apply, FrameSupply.requirePresent_ok hready.present]
  dsimp only
  rw [bind_apply, FrameSupply.check_ok (by rw [beq_iff_eq]; exact hready.avail)]
  rfl

/-- What was filled is released. -/
theorem Filling.releaseLoop {length cur : Nat} (h : Filling s₀ lo hi ∅ s) (h₀ : Inv slack 0 s₀)
    (henabled : s₀.pagingEnabled = true) (hcur : pageOf cur = lo) (hlength : lo + length = hi)
    (hhi : hi < PAGE_COUNT) :
    ∃ s', releaseLoop (fun e => e == .zero) none length cur true s = .ok (true, s') ∧
      Filling s₀ hi hi ∅ s' := by
  induction length generalizing s lo cur with
  | zero =>
      obtain rfl : lo = hi := hlength
      exact ⟨s, rfl, h⟩
  | succ length ih =>
      have hlo : lo < PAGE_COUNT := by omega
      obtain ⟨hnew, hready⟩ := h.filled lo le_rfl (by omega)
      have hself := h.self h₀.structured
      have hremoved := h.remove h₀.structured (by omega) (by omega)
      have hnext : pageOf (nextPage cur) = lo + 1 := by
        rw [pageOf_nextPage (by omega), hcur]
      obtain ⟨s', hloop, hs'⟩ := ih (hremoved.drop (Set.notMem_empty _)) hnext (by omega)
      refine ⟨s', ?_, hs'⟩
      rw [Paging.releaseLoop, hcur, bind_apply]
      rw [show getPagingEntry none lo false s = .ok (true, s) from getKernelEntry_ready hself
        hready _]
      dsimp only
      rw [if_pos rfl, bind_apply, loadEntry_ready hself hlo hready]
      dsimp only
      rw [if_neg (by simpa using hnew.2), bind_apply, releaseEntry, if_pos (h.present lo hnew),
        bind_apply, storeEntry_ready hself hlo hready]
      dsimp only
      rw [bind_apply, hremoved.release h₀ henabled]
      exact hloop

/-- The loop for the kernel, from the `n`-th page on. The page directory is in its way at the
latest. -/
theorem Filling.fixedLoop {n : Nat} (length : Nat) (rw user : Bool)
    (h : Filling s₀ (pageOf addr) (pageOf addr + n) ∅ s) (h₀ : Inv slack 0 s₀)
    (henabled : s₀.pagingEnabled = true) (haddr : addr < 2 ^ 32)
    (hn : pageOf addr + n < PAGE_COUNT) :
    Yields NoFrames (fixedLoop none addr rw user length ((addr + n * PAGE_SIZE) % 2 ^ 32)) s
      fun r s' => r = false → ∃ page, Filling s₀ page page ∅ s' := by
  induction length generalizing s n with
  | zero => exact yields_pure nofun
  | succ length ih =>
      rw [Paging.fixedLoop, pageOf_add hn]
      refine (h.alloc false).bind ?_
      rintro f s₁ ⟨h₁, -, hf⟩
      refine (h₁.getKernelEntry h₀.structured hn).bind ?_
      rintro _ s₂ ⟨h₂, hready⟩
      have hself := h₂.self h₀.structured
      refine yields_ok_bind (loadEntry_ready hself hn hready) ?_
      refine yields_ite (fun hne => ?_) fun hzero => ?_
      · refine yields_ok_bind (h₂.release h₀ henabled) ?_
        have hreleased : ∃ s', pagingTryReleasePhysMem none addr n (s₂.setBit f false) =
          .ok (true, s') ∧
            Filling s₀ (pageOf addr + n) (pageOf addr + n) ∅ s' :=
          (h₂.drop hf).releaseLoop h₀ henabled rfl rfl hn
        obtain ⟨s₃, hloop, h₃⟩ := hreleased
        have hrelease : pagingReleasePhysMem none addr n (s₂.setBit f false) = .ok ((), s₃) := by
          rw [pagingReleasePhysMem, bind_apply, hloop]
          rfl
        rw [length_of_add haddr (by omega)]
        exact yields_ok_bind hrelease (yields_pure fun _ => ⟨_, h₃⟩)
      · have hzero : s₂.kernel (pageOf addr + n) = .zero := not_not.mp hzero
        refine yields_ok_bind (storeEntry_ready hself hn hready _) ?_
        have hready' : ∀ j, TableReady s₂ j →
            TableReady (s₂.setKernel (pageOf addr + n) ⟨true, rw, user, 0, f⟩) j := by
          intro j hj
          have hne : KERNEL_PAGE + j ≠ pageOf addr + n := fun heq =>
            ne_zero_of_ready hj (heq ▸ hzero)
          have hkernel : (s₂.setKernel (pageOf addr + n) ⟨true, rw, user, 0, f⟩).kernel
              (KERNEL_PAGE + j) = s₂.kernel (KERNEL_PAGE + j) := Function.update_of_ne hne _ _
          exact ⟨by rw [hkernel]; exact hj.1, by rw [hkernel]; exact hj.2, by rw [hkernel]; exact hj.3⟩
        have h₃ : Filling s₀ (pageOf addr) (pageOf addr + (n + 1)) ∅
            (s₂.setKernel (pageOf addr + n) ⟨true, rw, user, 0, f⟩) :=
          h₂.fill hf hzero rfl rfl ⟨rfl, rfl, rfl, rfl, rfl⟩ rfl rfl (fun _ _ => rfl) hready'
            (Or.inr ⟨rfl, rfl, by omega, hready' _ hready⟩)
        rw [nextPage_add]
        refine ih h₃ ?_
        have hdir : pageOf addr + n ≠ KERNEL_PAGE + KERNEL_DIR_ENTRY := fun heq =>
          ne_zero_of_ready hself (heq ▸ hzero)
        simp only [KERNEL_PAGE, KERNEL_DIR_ENTRY, PAGE_COUNT] at *
        omega

end

section

/-- What the entry of a page says. Pages without a page table have none. -/
def contents (s : Machine) : Option Nat → Nat → PagingEntry
  | none, page => s.kernel page
  | some pid, page =>
      if (s.process pid).directory (page / PAGETABLE_COUNT) = .zero then .zero
      else (s.process pid).table page

/-- The entry of a page directory. -/
def directoryEntry (s : Machine) : Option Nat → Nat → PagingEntry
  | none, i => s.kernel (KERNEL_PAGE + i)
  | some pid, i => (s.process pid).directory i

/-- The page table `i` was created and no page is in it. -/
structure NewTable (s s' : Machine) (p : Option Nat) (i : Nat) : Prop where
  missing : directoryEntry s p i = .zero
  created : directoryEntry s' p i ≠ .zero
  empty : ∀ page, page / PAGETABLE_COUNT = i → contents s' p page = .zero

/-- The page of the kernel through which it sees a page table. -/
def tablePage (s : Machine) : Option Nat → Nat → Option Nat
  | none, i => some (KERNEL_PAGE + i)
  | some pid, i => (s.process pid).pageTables i

/-- The entries and the reference counts are those from before, except for new page tables
without pages. -/
structure Restored (p : Option Nat) (s s' : Machine) : Prop where
  entries : ∀ pid, p = some pid → ∀ page, contents s' p page = contents s p page
  kernel : ∀ page, s'.kernel page = s.kernel page ∨
    ∃ i, NewTable s s' p i ∧ tablePage s' p i = some page
  refs : ∀ f, refs s' f = refs s f ∨
    ∃ i page, NewTable s s' p i ∧ tablePage s' p i = some page ∧ (s'.kernel page).frame = f

variable {slack : Nat → Nat} {s₀ s s' : Machine} {lo pid page addr i : Nat} {p : Option Nat}

theorem contents_eq_zero_iff : contents s (some pid) page = .zero ↔ Unused s pid page := by
  rw [contents, Unused]
  split
  · next hzero => simp [hzero]
  · next hne => simp [hne]

theorem Restored.refl (p : Option Nat) (s : Machine) : Restored p s s :=
  ⟨fun _ _ _ => rfl, fun _ => Or.inl rfl, fun _ => Or.inl rfl⟩

/-- The tables which are left behind have no pages. -/
theorem Filling.newTable (h : Filling s₀ lo lo ∅ s) (h₀ : Structured s₀) (hnew : New s₀ s page) :
    ∃ i, NewTable s₀ s none i ∧ page = KERNEL_PAGE + i := by
  rcases h.place page hnew with ⟨hle, hlt⟩ | ⟨i, hi, rfl, -⟩
  · omega
  · refine ⟨i, ⟨hnew.1, hnew.2, fun k hk => ?_⟩, rfl⟩
    have hzero : s₀.kernel k = .zero := by
      rcases h₀.tables i hi with hmissing | hready
      · exact hmissing.entries k hk
      · exact (ne_zero_of_ready hready hnew.1).elim
    by_contra hne
    rcases h.place k ⟨hzero, hne⟩ with ⟨hle, hlt⟩ | ⟨j, -, rfl, -⟩
    · omega
    · simp only [KERNEL_PAGE, PAGETABLE_COUNT, KERNEL_DIR_ENTRY] at hk hi
      omega

theorem Filling.restored_kernel (h : Filling s₀ lo lo ∅ s) (h₀ : Structured s₀) (page : Nat) :
    s.kernel page = s₀.kernel page ∨
      ∃ i, NewTable s₀ s none i ∧ tablePage s none i = some page := by
  rcases eq_or_ne (s₀.kernel page) .zero with hzero | hne
  · rcases eq_or_ne (s.kernel page) .zero with hzero' | hne'
    · exact Or.inl (hzero'.trans hzero.symm)
    · obtain ⟨i, hi, rfl⟩ := h.newTable h₀ ⟨hzero, hne'⟩
      exact Or.inr ⟨i, hi, rfl⟩
  · exact Or.inl (h.old page hne)

theorem Filling.restored (h : Filling s₀ lo lo ∅ s) (h₀ : Structured s₀) : Restored none s₀ s where
  entries := nofun
  kernel := h.restored_kernel h₀
  refs f := by
    have hcount : refCount s f = refCount s₀ f := by
      rw [refCount, h.extraInfo]
      rfl
    rcases hf : References.used s₀ f with _ | _
    · rcases hf' : References.used s f with _ | _
      · simp [References.refs, hf, hf']
      · rcases (h.used f).mp hf' with hold | hpending | ⟨page, hnew, hframe⟩
        · rw [hf] at hold
          cases hold
        · exact hpending.elim
        · obtain ⟨i, hi, rfl⟩ := h.newTable h₀ hnew
          exact Or.inr ⟨i, _, hi, rfl, hframe⟩
    · have hf' := (h.used f).mpr (Or.inl hf)
      simp [References.refs, hf, hf', hcount]

end

section

variable {slack : Nat → Nat} {s s' : Machine} {pid page addr : Nat} {e : PagingEntry}

/-- What the loop has mapped for a process is never unmapped again. -/
theorem fixedLoop_keeps {rw user r : Bool} {length cur : Nat} (h : Inv slack 0 s)
    (hmapping : mapping s pid page = some e)
    (hok : fixedLoop (some pid) addr rw user length cur s = .ok (r, s')) :
    mapping s' pid page = some e := by
  induction length generalizing s cur with
  | zero =>
      cases hok
      exact hmapping
  | succ length ih =>
      rw [fixedLoop] at hok
      obtain ⟨f, s₁, h₁, hg, hm, hfresh, -, hok⟩ := take_ok h (pageOf_lt cur) hok
      rw [← hg.mapping] at hmapping
      rcases eq_or_ne (s₁.entry (some pid) (pageOf cur)) .zero with hzero | hne
      · rw [if_neg (not_not.mpr hzero)] at hok
        obtain ⟨_, s₂, hstore, hok⟩ := bind_ok.mp hok
        rw [h₁.structured.storeEntry_ok (pageOf_lt cur) hm] at hstore
        cases hstore
        have hkept := kept_fill_grows rw user h h₁ hg (pageOf_lt cur) hm trivial hzero hfresh
        refine ih hkept.inv ?_ hok
        have hne : page ≠ pageOf cur := by
          rintro rfl
          rw [mapping_of_mapped h₁.structured (pageOf_lt cur) hm, hzero] at hmapping
          cases hmapping
        rw [Machine.setEntry, mapping_setProcess, if_pos rfl]
        rw [mapping] at hmapping
        simpa [Process.setTable, Function.update_of_ne hne] using hmapping
      · rw [if_pos hne] at hok
        obtain ⟨_, s₂, hrelease, hok⟩ := bind_ok.mp hok
        obtain ⟨_, s₃, hundo, hok⟩ := bind_ok.mp hok
        cases hok
        rw [mapping_of_process ((Blind.process (blind_pagingReleasePhysMem _ _) hundo).trans
          (Blind.process (blind_physMemReleasePage _) hrelease))]
        exact hmapping

/-- The first page stays mapped. -/
theorem fixedLoop_first {rw user r : Bool} {length : Nat} (h : Inv slack 0 s)
    (hfree : Unused s pid (pageOf addr))
    (hok : fixedLoop (some pid) addr rw user (length + 1) addr s = .ok (r, s')) :
    mapping s' pid (pageOf addr) ≠ none := by
  rw [fixedLoop] at hok
  obtain ⟨f, s₁, h₁, hg, hm, hfresh, hgaps, hok⟩ := take_ok h (pageOf_lt addr) hok
  have hzero : s₁.entry (some pid) (pageOf addr) = .zero := by
    rw [entry_eq_zero_iff h₁.structured hm, hgaps pid rfl]
    exact hfree
  rw [if_neg (not_not.mpr hzero)] at hok
  obtain ⟨_, s₂, hstore, hok⟩ := bind_ok.mp hok
  rw [h₁.structured.storeEntry_ok (pageOf_lt addr) hm] at hstore
  cases hstore
  have hkept := kept_fill_grows rw user h h₁ hg (pageOf_lt addr) hm trivial hzero hfresh
  have hm₂ : Mapped (s₁.setEntry (some pid) (pageOf addr) ⟨true, rw, user, 0, f⟩) (some pid)
      (pageOf addr) := by
    rw [Mapped, Machine.setEntry, setProcess_self]
    exact hm
  have hentry : (s₁.setEntry (some pid) (pageOf addr) ⟨true, rw, user, 0, f⟩).entry (some pid)
      (pageOf addr) = ⟨true, rw, user, 0, f⟩ := by
    rw [Machine.entry, Machine.setEntry, setProcess_self]
    exact Function.update_self _ _ _
  have hmapping := mapping_of_mapped hkept.inv.structured (pageOf_lt addr) hm₂
  rw [hentry, if_pos rfl] at hmapping
  rw [fixedLoop_keeps hkept.inv hmapping hok]
  simp

end

section

variable {slack : Nat → Nat} {s s' : Machine} {pid addr length : Nat} {p : Option Nat}

/-- Nothing is to be undone for a process. -/
def Harmless (s : Machine) (p : Option Nat) (addr : Nat) : Prop :=
  pageOf addr = 0 ∨ ∀ pid, p = some pid → ¬Unused s pid (pageOf addr)

theorem allocation_starts (h : Inv slack 0 s) :
    Yields NoFrames (physMemAllocPage false) s fun f s' =>
    Filling s 0 0 (insert f ∅) s' ∧ s'.kernel = s.kernel ∧ Structured s' := by
  have hfilling := (filling_refl s 0).alloc false
  have hfresh := physMemAllocPage_fresh h zero_nonneg false
  refine yields_iff.mpr ⟨fun f s' hm => ?_, fun _ hm => hfilling.of_error hm⟩
  obtain ⟨hf, hkernel, -⟩ := hfilling.of_ok hm
  exact ⟨hf, hkernel, (hfresh.of_ok hm).1.structured⟩

/-- The new frame is all there is to give back. -/
theorem fixedLoop_taken {rw user : Bool} (h : Inv slack 0 s) (hs : Settled s)
    (hdir : (s.process pid).pageDirectory ≠ none) (hused : ¬Unused s pid (pageOf addr)) :
    Yields NoFrames (fixedLoop (some pid) addr rw user length addr) s fun r s' =>
      r = false → Filling s 0 0 ∅ s' ∧ s'.kernel = s.kernel := by
  cases length with
  | zero => exact yields_pure nofun
  | succ length =>
      obtain ⟨hdirectory, htable⟩ := not_or.mp hused
      have hm : (s.process pid).pageTables (pageOf addr / PAGETABLE_COUNT) ≠ none :=
        hs.tables pid hdir _ nofun hdirectory
      rw [fixedLoop]
      refine (allocation_starts h).bind ?_
      rintro f s₁ ⟨hf, hkernel, h₁⟩
      have hm₁ : Mapped s₁ (some pid) (pageOf addr) := by
        rw [Mapped, hf.process]
        exact hm
      have hentry : s₁.entry (some pid) (pageOf addr) ≠ .zero := by
        rw [Machine.entry, hf.process]
        exact htable
      refine yields_ok_bind (getProcessEntry_mapped h₁ (hf.enabled.trans hs.enabled) hm₁ true) ?_
      refine yields_ok_bind (h₁.loadEntry_ok (pageOf_lt addr) hm₁) ?_
      refine yields_ite (fun _ => ?_) fun hzero => (hzero hentry).elim
      refine yields_ok_bind (hf.release h hs.enabled) ?_
      have hlength : (addr + 2 ^ 32 - addr) % 2 ^ 32 / PAGE_SIZE = 0 := by
        rw [Nat.add_sub_cancel_left]
        rfl
      rw [hlength]
      exact yields_ok_bind rfl (yields_pure fun _ => ⟨hf.drop (Set.notMem_empty f), hkernel⟩)

theorem Filling.restored_of_kernel (h : Filling s 0 0 ∅ s') (hs : Structured s)
    (hkernel : s'.kernel = s.kernel) (p : Option Nat) : Restored p s s' where
  entries pid hp page := by
    subst hp
    rw [contents, contents, h.process]
  kernel page := Or.inl (congrFun hkernel page)
  refs f := by
    rcases (h.restored hs).refs f with heq | ⟨i, page, hnew, -, -⟩
    · exact Or.inl heq
    · refine (hnew.created ?_).elim
      rw [directoryEntry, hkernel]
      exact hnew.missing

theorem pagingTryAllocatePhysMemFixed_harmless (h : Inv slack 0 s) (hs : Settled s)
    (hp : ∀ pid, p = some pid → (s.process pid).pageDirectory ≠ none) (haddr : addr < 2 ^ 32)
    (hharmless : Harmless s p addr) (rw user : Bool) :
    Yields NoFrames (pagingTryAllocatePhysMemFixed p addr length rw user) s fun r s' =>
      r = none → Restored p s s' := by
  rw [pagingTryAllocatePhysMemFixed]
  refine yields_ite (fun _ => yields_pure fun _ => Restored.refl p s) fun hzero => ?_
  refine Yields.bind (Q := fun r s' => r = false → Restored p s s') ?_ fun r s' hs' => ?_
  · cases p with
    | none =>
        have hstart : Filling s (pageOf addr) (pageOf addr + 0) ∅ s := filling_refl s _
        have hloop := hstart.fixedLoop length rw user h hs.enabled haddr (pageOf_lt addr)
        rw [zero_mul, add_zero, Nat.mod_eq_of_lt haddr] at hloop
        refine hloop.mono fun r s' hfilling hr => ?_
        obtain ⟨page, hfilling⟩ := hfilling hr
        exact hfilling.restored h.structured
    | some pid =>
        have hused := hharmless.resolve_left hzero pid rfl
        refine (fixedLoop_taken h hs (hp pid rfl) hused).mono fun r s' hfilling hr => ?_
        obtain ⟨hfilling, hkernel⟩ := hfilling hr
        exact hfilling.restored_of_kernel h.structured hkernel _
  · refine yields_pure fun hr => hs' ?_
    cases r
    · rfl
    · cases hr

theorem pagingTryAllocatePhysMemFixed_not_restored (h : Inv slack 0 s) {rw user : Bool}
    (hnot : ¬Harmless s p addr)
    (hok : pagingTryAllocatePhysMemFixed p addr length rw user s = .ok (none, s')) :
    ¬Restored p s s' := by
  simp only [Harmless, not_or, not_forall, not_not] at hnot
  obtain ⟨hzero, pid, rfl, hfree⟩ := hnot
  rw [pagingTryAllocatePhysMemFixed, if_neg hzero] at hok
  obtain ⟨r, s₁, hloop, hok⟩ := bind_ok.mp hok
  obtain ⟨hr, rfl⟩ := Prod.mk.inj (Except.ok.inj hok)
  cases length with
  | zero =>
      cases hloop
      cases hr
  | succ length =>
      intro hrestored
      have hunused : Unused s₁ pid (pageOf addr) := by
        rw [← contents_eq_zero_iff, hrestored.entries pid rfl, contents_eq_zero_iff]
        exact hfree
      refine fixedLoop_first h hfree hloop ?_
      rcases hunused with hdirectory | htable
      · exact mapping_of_missing hdirectory
      · simp [mapping, htable, PagingEntry.zero]

end

section

/-- A failed allocation is undone exactly when it was one of the kernel, or when nothing was
mapped before the collision. -/
theorem failed_fixed_allocation_iff {s : Machine} {p : Option Nat} (hs : Reached s)
    (addr length : BitVec 32) (rw user : Bool)
    (hp : ∀ pid, p = some pid → (s.process pid).pageDirectory ≠ none) :
    (∀ s', pagingTryAllocatePhysMemFixed p addr.toNat length.toNat rw user s = .ok (none, s') →
      (Restored p s s' ↔ Harmless s p addr.toNat)) ∧
    (Harmless s p addr.toNat → ∀ e,
      pagingTryAllocatePhysMemFixed p addr.toNat length.toNat rw user s = .error e →
        NoFrames e) := by
  obtain ⟨slack, hinv, -⟩ := hs.inv
  have hspec : Harmless s p addr.toNat →
      Yields NoFrames (pagingTryAllocatePhysMemFixed p addr.toNat length.toNat rw user) s
        fun r s' => r = none → Restored p s s' := fun hharmless =>
    pagingTryAllocatePhysMemFixed_harmless hinv (Reached.settled hs) hp addr.isLt hharmless rw user
  refine ⟨fun s' hok => ⟨fun hrestored => ?_, fun hharmless => ?_⟩, fun hharmless e herror => ?_⟩
  · by_contra hnot
    exact pagingTryAllocatePhysMemFixed_not_restored hinv hnot hok hrestored
  · exact (hspec hharmless).of_ok hok rfl
  · exact (hspec hharmless).of_error herror

end

section

/-! A process with a page of its own, at which memory starts or into which it runs. -/

def outcome (addr length : BitVec 32) (s : Machine) : Option (Option Nat) :=
  (pagingTryAllocatePhysMemFixed (some 0) addr.toNat length.toNat true true s).toOption.map Prod.fst

theorem outcome_eq {addr length : BitVec 32} {s : Machine} {r : Option Nat}
    (h : outcome addr length s = some r) : ∃ s',
    pagingTryAllocatePhysMemFixed (some 0) addr.toNat length.toNat true true s = .ok (r, s') := by
  obtain ⟨⟨_, s'⟩, hok, rfl⟩ := Option.map_eq_some_iff.mp h
  exact ⟨s', toOption_eq_some hok⟩

theorem outcome_facts : ((pagingInit [] sampleMachine).toOption.bind fun r =>
    (run next r.2 sampleEvents).toOption.map fun r =>
      (outcome 0xFFC02000 1 r.1, outcome 0xFFC01000 2 r.1,
        (r.1.process 0).pageDirectory.isSome && (r.1.process 0).directory 0x3FF != .zero &&
          (r.1.process 0).table 0xFFC02 != .zero && (r.1.process 0).table 0xFFC01 == .zero)) =
      some (some none, some none, true) := by
  decide +kernel

theorem failed_fixed_allocation_iff_sample : ∃ s s', Reached s ∧
    pagingTryAllocatePhysMemFixed (some 0) 0xFFC02000 1 true true s = .ok (none, s') ∧
    Restored (some 0) s s' := by
  obtain ⟨⟨_, s₀⟩, hinit, hfacts⟩ := Option.bind_eq_some_iff.mp outcome_facts
  obtain ⟨⟨s, answers⟩, hrun, hfacts⟩ := Option.map_eq_some_iff.mp hfacts
  simp only [Prod.mk.injEq, Bool.and_eq_true, bne_iff_ne, beq_iff_eq] at hfacts
  obtain ⟨hcollides, -, ⟨⟨hdir, hdirectory⟩, htable⟩, -⟩ := hfacts
  have hs := reached_sample (toOption_eq_some hinit) (toOption_eq_some hrun)
  obtain ⟨s', hok⟩ := outcome_eq hcollides
  have hp : ∀ pid, some 0 = some pid → (s.process pid).pageDirectory ≠ none := by
    rintro pid ⟨⟩
    exact Option.isSome_iff_ne_none.mp hdir
  have hiff := failed_fixed_allocation_iff hs 0xFFC02000 1 true true hp
  refine ⟨s, s', hs, hok, (hiff.1 s' hok).mpr (Or.inr ?_)⟩
  rintro pid ⟨⟩ hunused
  unfold pageOf at hunused
  rcases hunused with hzero | hzero
  · exact hdirectory hzero
  · exact htable hzero

/-- The page before the collision stays with the process. -/
theorem failed_fixed_allocation_changes : ∃ s s', Reached s ∧
    (s.process 0).pageDirectory ≠ none ∧
    pagingTryAllocatePhysMemFixed (some 0) 0xFFC01000 2 true true s = .ok (none, s') ∧
    ¬Restored (some 0) s s' := by
  obtain ⟨⟨_, s₀⟩, hinit, hfacts⟩ := Option.bind_eq_some_iff.mp outcome_facts
  obtain ⟨⟨s, answers⟩, hrun, hfacts⟩ := Option.map_eq_some_iff.mp hfacts
  simp only [Prod.mk.injEq, Bool.and_eq_true, bne_iff_ne, beq_iff_eq] at hfacts
  obtain ⟨-, hcollides, ⟨⟨hdir, -⟩, -⟩, hfree⟩ := hfacts
  have hs := reached_sample (toOption_eq_some hinit) (toOption_eq_some hrun)
  obtain ⟨slack, hinv, -⟩ := hs.inv
  obtain ⟨s', hok⟩ := outcome_eq hcollides
  refine ⟨s, s', hs, Option.isSome_iff_ne_none.mp hdir, hok,
    pagingTryAllocatePhysMemFixed_not_restored hinv ?_ hok⟩
  rintro (hzero | hharmless)
  · revert hzero
    unfold pageOf
    decide
  · refine hharmless 0 rfl (Or.inr ?_)
    unfold pageOf
    exact hfree

end

end Ibnos.FixedAllocations
