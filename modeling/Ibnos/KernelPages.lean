import Ibnos.References

/-!
The functions which only concern the address space of the kernel: its page
tables, the search for unused pages, and the records of the physical pages.
-/

namespace Ibnos.KernelPages

open Ibnos.Memory
open Ibnos.Physmem
open Ibnos.Paging
open Ibnos.Programs
open Ibnos.References
open Ibnos.Tallies

section

variable {slack : Nat → Nat} {P : Nat → ℤ} {s : Machine} {page : Nat}

/-- The page was not in use and is a pending reference now. -/
theorem physMemAllocPage_spec (h : Inv slack P s) (lowmem : Bool) :
    Steps (physMemAllocPage lowmem) s fun f s' =>
      Inv slack (P + due (some f)) s' ∧ SameTables s s' ∧ KernelGrows s s' ∧
        used s f = false ∧ used s' f = true ∧ s'.holdsTable f = false := by
  refine allocLoop_spec.mono ?_
  rintro f s' ⟨rfl, hf, -⟩
  have hsame : SameTables s ((s.setBit f true).handOut f) := by constructor <;> rfl
  have hused : ∀ g, used ((s.setBit f true).handOut f) g = if g = f then true else used s g :=
    fun g => used_setBit s f g true
  refine ⟨h.alloc hf, hsame, hsame.kernelGrows (fun g hg => ?_) fun g hg => ?_, hf, ?_,
    Function.update_self ..⟩
  · rw [hused, hg]
    split <;> rfl
  · rcases eq_or_ne g f with rfl | hne
    · change Function.update s.holdsTable g false g = true at hg
      rw [Function.update_self] at hg
      cases hg
    · exact (Function.update_of_ne hne _ _).symm.trans hg
  · rw [hused, if_pos rfl]

/-- With `alloc` there is an entry afterwards, without it nothing happens. -/
theorem getKernelEntry_spec (h : Inv slack P s) (hpage : page < PAGE_COUNT) (alloc : Bool) :
    Steps (getKernelEntry page alloc) s fun r s' =>
      Inv slack P s' ∧ KernelGrows s s' ∧ s'.physMemExtra = s.physMemExtra ∧
        (r = true → Mapped s' none page) ∧ (alloc = true → r = true) ∧
        (alloc = false → s' = s ∧ (r = false → ¬Mapped s none page)) := by
  have hself : s.translate KERNEL_DIR = some (s.kernelTable KERNEL_DIR_ENTRY) :=
    h.structured.translate_table (i := KERNEL_DIR_ENTRY) (by decide) h.structured.self
  rw [getKernelEntry]
  refine yields_get_bind (yields_ok_bind (access_ok hself) (yields_get_bind ?_))
  refine yields_ite (fun hzero => ?_) fun hne => ?_
  · have hi : page / PAGETABLE_COUNT < KERNEL_DIR_ENTRY := by
      refine lt_of_le_of_ne ?_ fun heq => ?_
      · simp only [KERNEL_DIR_ENTRY, PAGETABLE_COUNT, PAGE_COUNT] at *
        omega
      · rw [heq] at hzero
        have := h.structured.self.present
        rw [hzero] at this
        cases this
    have hmissing : TableMissing s (page / PAGETABLE_COUNT) := by
      rcases h.structured.tables _ hi with hmissing | hready
      · exact hmissing
      · have := hready.present
        rw [hzero] at this
        cases this
    refine yields_ite (fun halloc => ?_) fun halloc => ?_
    · refine (physMemAllocPage_spec h false).bind ?_
      rintro frame s' ⟨hinv, hsame, hgrows, hunused, -⟩
      have hmissing' : TableMissing s' (page / PAGETABLE_COUNT) := by
        constructor <;> rw [hsame.kernel]
        · exact hmissing.directory
        · exact hmissing.entries
      refine yields_modify_bind (yields_pure ⟨?_, ?_, ?_, fun _ => ?_, fun _ => rfl, ?_⟩)
      · have := hinv.setKernelTable frame hi hmissing'
        rwa [add_sub_cancel_right] at this
      · exact setKernelTable_grows hgrows hmissing' hunused
      · exact hsame.physMemExtra
      · rw [Mapped, setKernelTable_window hi, if_pos rfl]
        simp [PagingEntry.zero]
      · simp [halloc]
    · refine yields_pure ⟨h, KernelGrows.refl s, rfl, by simp, fun h => (halloc h).elim, fun _ =>
        ⟨rfl, fun _ hm => hm hzero⟩⟩
  · refine steps_requirePresent_bind fun _ => steps_check_bind fun _ => yields_pure ?_
    exact ⟨h, KernelGrows.refl s, rfl, fun _ => hne, fun _ => rfl, fun _ => ⟨rfl, by simp⟩⟩

end

theorem or_mask (i : Nat) : i ||| 0x3FF = i / 1024 * 1024 + 1023 := by
  apply Nat.eq_of_testBit_eq
  intro j
  have hmask : (0x3FF : Nat) = 2 ^ 10 - 1 := rfl
  have hsum : i / 1024 * 1024 + 1023 = 2 ^ 10 * (i / 2 ^ 10) + (2 ^ 10 - 1) := by omega
  rw [hsum, Nat.testBit_or, hmask, Nat.testBit_two_pow_sub_one,
    Nat.testBit_two_pow_mul_add _ (by decide)]
  rcases lt_or_ge j 10 with hj | hj
  · rw [if_pos hj, Nat.testBit_two_pow_sub_one]
    simp [hj]
  · rw [if_neg (by omega), Nat.testBit_div_two_pow]
    have : j - 10 + 10 = j := by omega
    simp [this, show ¬j < 10 by omega]

theorem pageOf_nextPage {cur : Nat} (h : pageOf cur + 1 < PAGE_COUNT) :
    pageOf (nextPage cur) = pageOf cur + 1 := by
  unfold nextPage pageOf at *
  simp only [PAGE_SIZE, PAGE_COUNT] at *
  omega

theorem pageOf_mul {page : Nat} (h : page < PAGE_COUNT) : pageOf (page * PAGE_SIZE) = page := by
  unfold pageOf
  simp only [PAGE_SIZE, PAGE_COUNT] at *
  omega

section

variable {slack : Nat → Nat} {P : Nat → ℤ} {s : Machine}

theorem not_owned_of_zero (h : Structured s) {page : Nat} (hzero : s.kernel page = .zero) :
    ¬Owned s page := by
  rintro ⟨r, hr⟩
  have htranslate := (h.homes r page hr).2.1
  rw [Machine.translate, hzero] at htranslate
  simp [PagingEntry.zero] at htranslate

theorem entries_of_not_mapped (h : Structured s) {i page : Nat} (hi : i < KERNEL_PAGE)
    (hpage : page / PAGETABLE_COUNT = i / PAGETABLE_COUNT) (hm : ¬Mapped s none i) :
    s.kernel page = .zero := by
  have hdir : s.kernel (KERNEL_PAGE + i / PAGETABLE_COUNT) = .zero := not_not.mp hm
  have hlt : i / PAGETABLE_COUNT < KERNEL_DIR_ENTRY := by
    simp only [KERNEL_PAGE, PAGETABLE_COUNT, KERNEL_DIR_ENTRY] at *
    omega
  rcases h.tables _ hlt with hmissing | hready
  · exact hmissing.entries page hpage
  · have := hready.present
    rw [hdir] at this
    cases this

/-- An unused area below the tables of the kernel, unless so many pages are asked for that
their number overflows. -/
def InBounds (s : Machine) (length addr : Nat) : Prop :=
  ∃ start, addr = start * PAGE_SIZE ∧ 1 ≤ start ∧ start < KERNEL_PAGE ∧
    (start + length ≤ KERNEL_PAGE ∧
        (∀ page, start ≤ page → page < start + length → s.kernel page = .zero) ∨
      2 ^ 32 < start + length)

theorem inBounds_of_le {length start i : Nat} (hstart : 1 ≤ start) (hle : start ≤ i)
    (hi : i < KERNEL_PAGE) (hend : lastPage start length ≤ i)
    (hzero : ∀ page, start ≤ page → page ≤ i → s.kernel page = .zero) :
    InBounds s length (start * PAGE_SIZE) := by
  refine ⟨start, rfl, hstart, lt_of_le_of_lt hle hi, ?_⟩
  unfold lastPage at hend
  rcases lt_or_ge (2 ^ 32) (start + length) with hover | hover
  · exact Or.inr hover
  · have hlt : start + length ≤ i + 1 := by
      simp only [KERNEL_PAGE] at *
      omega
    exact Or.inl ⟨by omega, fun page hle hpage => hzero page hle (by omega)⟩

theorem searchLoop_kernel (h : Inv slack P s) {length rounds i start : Nat} (hstart : 1 ≤ start)
    (hle : start ≤ i) (hclear : ∀ page, start ≤ page → page < i → s.kernel page = .zero) :
    Steps (searchLoop getKernelEntry none length rounds i start) s fun r s' =>
      s' = s ∧ ∀ addr, r = some addr → InBounds s length addr := by
  induction rounds generalizing i start with
  | zero => exact yields_pure ⟨rfl, nofun⟩
  | succ rounds ih =>
      rw [searchLoop]
      refine yields_ite (fun hi => ?_) fun _ => yields_pure ⟨rfl, nofun⟩
      refine (getKernelEntry_spec h (kernel_lt hi) false).bind ?_
      rintro r s₁ ⟨-, -, -, hmapped, -, hsame⟩
      obtain ⟨rfl, hmissing⟩ := hsame rfl
      refine yields_ite (fun hr => ?_) fun hr => ?_
      · refine yields_ok_bind (h.structured.loadEntry_ok (kernel_lt hi) (hmapped hr)) ?_
        refine yields_ite (fun _ => ih (by omega) le_rfl fun page hp hlt => by omega) fun hzero =>
          ?_
        have hnext : ∀ page, start ≤ page → page < i + 1 → s₁.kernel page = .zero := by
          intro page hp hlt
          rcases Nat.lt_succ_iff_lt_or_eq.mp hlt with hlt | rfl
          · exact hclear page hp hlt
          · exact not_not.mp hzero
        refine yields_ite (fun hend => yields_pure ⟨rfl, ?_⟩) fun _ => ih hstart (by omega) hnext
        rintro _ ⟨⟩
        exact inBounds_of_le hstart hle hi hend fun page hp hlt => hnext page hp (by omega)
      · -- the whole table is missing, its last page is still below the window
        have hmask : i ≤ i ||| 0x3FF ∧ i ||| 0x3FF < KERNEL_PAGE := by
          rw [or_mask]
          simp only [KERNEL_PAGE] at *
          omega
        have hnext : ∀ page, start ≤ page → page < (i ||| 0x3FF) + 1 → s₁.kernel page = .zero := by
          intro page hp hlt
          rcases lt_or_ge page i with hpage | hpage
          · exact hclear page hp hpage
          · refine entries_of_not_mapped h.structured hi ?_ (hmissing (by simpa using hr))
            rw [or_mask] at hlt
            simp only [PAGETABLE_COUNT]
            omega
        refine yields_ite (fun hend => yields_pure ⟨rfl, ?_⟩) fun _ => ih hstart (by omega) hnext
        rintro _ ⟨⟩
        exact inBounds_of_le hstart (by omega) hmask.2 hend fun page hp hlt =>
          hnext page hp (by omega)

theorem trySearchArea_kernel (h : Inv slack P s) (length : Nat) :
    Steps (trySearchArea getKernelEntry none length) s fun r s' =>
      s' = s ∧ ∀ addr, r = some addr → InBounds s length addr := by
  rw [trySearchArea]
  exact yields_ite (fun _ => yields_pure ⟨rfl, nofun⟩) fun _ =>
    searchLoop_kernel h le_rfl le_rfl fun page hp hlt => by omega

/-- An unused page of the kernel gets an entry. -/
theorem setKernel_grows {page : Nat} (hzero : s.kernel page = .zero) (e : PagingEntry) :
    KernelGrows s (s.setKernel page e) := by
  refine ⟨⟨fun q hq => ?_, fun r k hk => hk, fun r k hk => Or.inl hk, fun _ _ => rfl, rfl,
    fun _ h => h, fun _ h => Or.inl h⟩, rfl⟩
  have hne : q ≠ page := by
    rintro rfl
    exact hq hzero
  exact Function.update_of_ne hne _ _

/-- The entry which is written at an unused page takes over a pending reference. -/
theorem inv_fill {page f : Nat} (rw user : Bool) (h : Inv slack (P + due (some f)) s)
    (hpage : page < KERNEL_PAGE) (hm : Mapped s none page) (hzero : s.kernel page = .zero) :
    Inv slack P (s.setKernel page ⟨true, rw, user, 0, f⟩) := by
  have := h.setEntry (kernel_lt hpage) hm ⟨hpage, not_owned_of_zero h.structured hzero⟩
    ⟨true, rw, user, 0, f⟩
  have hold : named (s.entry none page) = none := by
    rw [Machine.entry, hzero]
    rfl
  have hnew : named ⟨true, rw, user, 0, f⟩ = some f := rfl
  rw [hold, hnew, due_none, add_zero, add_sub_cancel_right] at this
  exact this

/-- A page of the kernel which was unused in `s` and is filled in `s'`. -/
structure Filled (s s' : Machine) (rw user : Bool) (page : Nat) : Prop where
  unused : s.kernel page = .zero
  free : ¬Owned s' page
  entry : ∃ f, s'.kernel page = ⟨true, rw, user, 0, f⟩ ∧ used s' f = true ∧ used s f = false

theorem Filled.mono {s₀ s s' s'' : Machine} {rw user : Bool} {page : Nat}
    (h : Filled s s' rw user page) (hg : Grows s₀ s) (hg' : KernelGrows s' s'') :
    Filled s₀ s'' rw user page := by
  obtain ⟨hzero, hfree, f, hf, hused, hunused⟩ := h
  have hne : s'.kernel page ≠ .zero := by
    rw [hf]
    simp [PagingEntry.zero]
  refine ⟨?_, (hg'.extends.loose page ⟨hne, hfree⟩).2, f, by rw [hg'.kernel page hne, hf],
    hg'.used f hused, ?_⟩
  · by_contra hne
    exact hne (by rw [← hg.kernel page hne, hzero])
  · by_contra hne
    rw [hg.used f (by simpa using hne)] at hunused
    cases hunused

theorem filled_setKernel {s₀ : Machine} {page f : Nat} (rw user : Bool) (h : Structured s)
    (hg : Grows s₀ s) (hzero : s.kernel page = .zero) (hused : used s f = true)
    (hunused : used s₀ f = false) :
    Filled s₀ (s.setKernel page ⟨true, rw, user, 0, f⟩) rw user page := by
  refine ⟨?_, not_owned_of_zero h hzero, f, Function.update_self .., hused, hunused⟩
  by_contra hne
  exact hne (by rw [← hg.kernel page hne, hzero])

theorem allocateLoop_kernel (h : Inv slack P s) {rw user : Bool} {length cur : Nat}
    (hend : pageOf cur + length ≤ KERNEL_PAGE) :
    Steps (allocateLoop getKernelEntry none rw user length cur) s fun _ s' =>
      Inv slack P s' ∧ KernelGrows s s' ∧ s'.physMemExtra = s.physMemExtra ∧
        ∀ page, pageOf cur ≤ page → page < pageOf cur + length → Filled s s' rw user page := by
  induction length generalizing s cur with
  | zero => exact yields_pure ⟨h, KernelGrows.refl s, rfl, by omega⟩
  | succ length ih =>
      rw [allocateLoop]
      have hpage : pageOf cur < KERNEL_PAGE := by omega
      have hnext : pageOf (nextPage cur) = pageOf cur + 1 := by
        refine pageOf_nextPage ?_
        simp only [KERNEL_PAGE, PAGE_COUNT] at *
        omega
      refine (physMemAllocPage_spec h false).bind ?_
      rintro f s₁ ⟨h₁, hsame, hgrows₁, hunused, hused, -⟩
      refine (getKernelEntry_spec h₁ (pageOf_lt cur) true).bind ?_
      rintro r s₂ ⟨h₂, hgrows₂, hextra, hmapped, hr, -⟩
      have hm := hmapped (hr rfl)
      refine yields_ok_bind (h₂.structured.loadEntry_ok (pageOf_lt cur) hm) ?_
      refine steps_check_bind fun hzero => ?_
      have hzero : s₂.kernel (pageOf cur) = .zero := by simpa [Machine.entry] using hzero
      refine yields_ok_bind (h₂.structured.storeEntry_ok (pageOf_lt cur) hm _) ?_
      refine (ih (inv_fill rw user h₂ hpage hm hzero) (by omega)).mono ?_
      rintro _ s' ⟨hinv, hgrows', hextra', hfilled⟩
      have hg := hgrows₁.trans (hgrows₂.trans (setKernel_grows hzero ⟨true, rw, user, 0, f⟩))
      refine ⟨hinv, hg.trans hgrows', ?_, fun page hge hlt => ?_⟩
      · rw [hextra']
        exact hextra.trans hsame.physMemExtra
      · rcases hge.lt_or_eq with hge | rfl
        · exact (hfilled page (by omega) (by omega)).mono hg.toGrows (KernelGrows.refl s')
        · exact (filled_setKernel rw user h₂.structured (hgrows₁.trans hgrows₂).toGrows hzero
            (hgrows₂.used f hused) hunused).mono (Grows.refl s) hgrows'

end

section

/-! A loop over the pages of the kernel which reaches the window of its page tables, where it
overwrites unused entries of the page directory. It is stopped by the last one of them. -/

variable {slack : Nat → Nat} {P : Nat → ℤ} {s : Machine} {page : Nat}

/-- Below the window the tables are as they should be, in the window at least the page
directory is one. -/
def Sane (slack : Nat → Nat) (s : Machine) (page : Nat) : Prop :=
  (∃ P, Inv slack P s) ∧ page < KERNEL_PAGE ∨ TableReady s KERNEL_DIR_ENTRY ∧ KERNEL_PAGE ≤ page

theorem window_div (hge : KERNEL_PAGE ≤ page) (hlt : page < PAGE_COUNT) :
    page / PAGETABLE_COUNT = KERNEL_DIR_ENTRY := by
  simp only [KERNEL_PAGE, PAGE_COUNT, PAGETABLE_COUNT, KERNEL_DIR_ENTRY] at *
  omega

theorem self_translate (h : TableReady s KERNEL_DIR_ENTRY) :
    s.translate KERNEL_DIR = some (s.kernelTable KERNEL_DIR_ENTRY) := by
  have hdiv : KERNEL_DIR / PAGETABLE_COUNT = KERNEL_DIR_ENTRY := by decide
  have hdir : KERNEL_DIR = KERNEL_PAGE + KERNEL_DIR_ENTRY := by decide
  rw [translate_of_ready (by rw [hdiv]; exact h), hdir, if_pos h.present, h.frame]

theorem accessTable_window (h : TableReady s KERNEL_DIR_ENTRY) (hge : KERNEL_PAGE ≤ page)
    (hlt : page < PAGE_COUNT) : accessTable none page s = .ok ((), s) := by
  rw [accessTable, window_div hge hlt]
  exact access_ok (self_translate h)

theorem getKernelEntry_window (h : TableReady s KERNEL_DIR_ENTRY) (hge : KERNEL_PAGE ≤ page)
    (hlt : page < PAGE_COUNT) (alloc : Bool) :
    Steps (getKernelEntry page alloc) s fun _ s' => s' = s := by
  have hne : s.kernel (KERNEL_PAGE + KERNEL_DIR_ENTRY) ≠ .zero := by
    intro hzero
    have := h.present
    rw [hzero] at this
    cases this
  rw [getKernelEntry, window_div hge hlt]
  refine yields_get_bind (yields_ok_bind (access_ok (self_translate h)) (yields_get_bind ?_))
  refine yields_ite (fun hzero => (hne hzero).elim) fun _ => ?_
  exact steps_requirePresent_bind fun _ => steps_check_bind fun _ => yields_pure rfl

theorem physMemAllocPage_sane (h : Sane slack s page) :
    Steps (physMemAllocPage false) s fun _ s' => Sane slack s' page := by
  rcases h with ⟨⟨P, h⟩, hpage⟩ | ⟨h, hge⟩
  · refine (physMemAllocPage_spec h false).mono ?_
    rintro f s' ⟨h', -⟩
    exact Or.inl ⟨⟨_, h'⟩, hpage⟩
  · refine allocLoop_spec.mono ?_
    rintro f s' ⟨rfl, -⟩
    exact Or.inr ⟨⟨h.present, h.avail, h.frame⟩, hge⟩

/-- One page of the loop. -/
theorem steps_overrun {α : Type} {e : PagingEntry} {k : M α} {Q : α → Machine → Prop}
    (h : Sane slack s page) (hle : page ≤ KERNEL_DIR)
    (hk : ∀ s', page < KERNEL_DIR → Sane slack s' (page + 1) → Steps k s' Q) :
    Steps (do
      let _ ← getKernelEntry page true
      let table ← loadEntry none page
      check (table == .zero)
      storeEntry none page e
      k) s Q := by
  have hlt : page < PAGE_COUNT := by
    simp only [KERNEL_DIR, PAGE_COUNT] at *
    omega
  rcases h with ⟨⟨P, h⟩, hpage⟩ | ⟨h, hge⟩
  · refine (getKernelEntry_spec h hlt true).bind ?_
    rintro r s' ⟨h', -, -, hmapped, hr, -⟩
    have hm := hmapped (hr rfl)
    refine yields_ok_bind (h'.structured.loadEntry_ok hlt hm) ?_
    refine steps_check_bind fun hzero => ?_
    have hzero : s'.kernel page = .zero := by simpa [Machine.entry] using hzero
    refine yields_ok_bind (h'.structured.storeEntry_ok hlt hm e) (hk _ ?_ ?_)
    · simp only [KERNEL_PAGE, KERNEL_DIR] at *
      omega
    · have h'' := h'.setEntry hlt hm ⟨hpage, not_owned_of_zero h'.structured hzero⟩ e
      rcases Nat.lt_or_ge (page + 1) KERNEL_PAGE with hnext | hnext
      · exact Or.inl ⟨⟨_, h''⟩, hnext⟩
      · exact Or.inr ⟨h''.structured.self, hnext⟩
  · refine (getKernelEntry_window h hge hlt true).bind ?_
    rintro r _ rfl
    rename_i s
    have haccess := accessTable_window h hge hlt
    have hload : loadEntry none page s = .ok (s.entry none page, s) := by
      rw [loadEntry, bind_apply, haccess]
      rfl
    have hstore : storeEntry none page e s = .ok ((), s.setKernel page e) := by
      rw [storeEntry, bind_apply, haccess]
      rfl
    refine yields_ok_bind hload (steps_check_bind fun hzero => yields_ok_bind hstore ?_)
    have hzero : s.kernel page = .zero := by simpa [Machine.entry] using hzero
    have hdir : KERNEL_DIR = KERNEL_PAGE + KERNEL_DIR_ENTRY := by decide
    have hne : KERNEL_PAGE + KERNEL_DIR_ENTRY ≠ page := by
      rintro rfl
      have := h.present
      rw [hzero] at this
      cases this
    have hself : (s.setKernel page e).kernel (KERNEL_PAGE + KERNEL_DIR_ENTRY) =
        s.kernel (KERNEL_PAGE + KERNEL_DIR_ENTRY) := Function.update_of_ne hne _ _
    refine hk _ (by omega) (Or.inr ⟨⟨?_, ?_, ?_⟩, by omega⟩) <;> rw [hself]
    · exact h.present
    · exact h.avail
    · exact h.frame

theorem allocateLoop_overrun {rw user : Bool} {length cur : Nat} (h : Sane slack s (pageOf cur))
    (hle : pageOf cur ≤ KERNEL_DIR) (hend : KERNEL_DIR < pageOf cur + length) :
    Steps (allocateLoop getKernelEntry none rw user length cur) s fun _ _ => False := by
  induction length generalizing s cur with
  | zero => omega
  | succ length ih =>
      rw [allocateLoop]
      refine (physMemAllocPage_sane h).bind fun f s' h' => steps_overrun h' hle ?_
      intro s'' hlt h''
      have hnext : pageOf (nextPage cur) = pageOf cur + 1 := by
        refine pageOf_nextPage ?_
        simp only [KERNEL_DIR, PAGE_COUNT] at *
        omega
      rw [← hnext] at h''
      exact ih h'' (by omega) (by omega)

theorem inBounds_pageOf {length addr : Nat} (h : InBounds s length addr) :
    1 ≤ pageOf addr ∧ pageOf addr < KERNEL_PAGE ∧
      (pageOf addr + length ≤ KERNEL_PAGE ∨ KERNEL_DIR < pageOf addr + length) := by
  obtain ⟨start, rfl, hstart, hlt, hend⟩ := h
  rw [pageOf_mul (kernel_lt hlt)]
  refine ⟨hstart, hlt, hend.imp And.left fun hover => ?_⟩
  simp only [KERNEL_DIR]
  omega

/-- The pages which an allocation returns. -/
def AllocatedAt (s s' : Machine) (rw user : Bool) (length addr : Nat) : Prop :=
  1 ≤ pageOf addr ∧ pageOf addr + length ≤ KERNEL_PAGE ∧
    ∀ page, pageOf addr ≤ page → page < pageOf addr + length → Filled s s' rw user page

theorem tryAllocatePhysMem_kernel (h : Inv slack P s) (length : Nat) (rw user : Bool) :
    Steps (tryAllocatePhysMem getKernelEntry none length rw user) s fun r s' =>
      Inv slack P s' ∧ KernelGrows s s' ∧ s'.physMemExtra = s.physMemExtra ∧
        ∀ addr, r = some addr → AllocatedAt s s' rw user length addr := by
  rw [tryAllocatePhysMem]
  refine (trySearchArea_kernel h length).bind ?_
  rintro (_ | addr) _ ⟨rfl, hbounds⟩
  · exact yields_pure ⟨h, KernelGrows.refl _, rfl, nofun⟩
  · obtain ⟨hone, hlt, hend | hend⟩ := inBounds_pageOf (hbounds addr rfl)
    · refine (allocateLoop_kernel h hend).bind ?_
      rintro _ s' ⟨h', hgrows, hextra, hfilled⟩
      refine yields_pure ⟨h', hgrows, hextra, ?_⟩
      rintro _ ⟨⟩
      exact ⟨hone, hend, hfilled⟩
    · have hsane : Sane slack _ (pageOf addr) := Or.inl ⟨⟨P, h⟩, hlt⟩
      refine (allocateLoop_overrun hsane ?_ hend).bind fun _ _ => False.elim
      simp only [KERNEL_PAGE, KERNEL_DIR] at *
      omega

theorem allocatePhysMem_kernel (h : Inv slack P s) (length : Nat) (rw user : Bool) :
    Steps (allocatePhysMem getKernelEntry none length rw user) s fun addr s' =>
      Inv slack P s' ∧ KernelGrows s s' ∧ s'.physMemExtra = s.physMemExtra ∧
        AllocatedAt s s' rw user length addr := by
  rw [allocatePhysMem]
  refine (tryAllocatePhysMem_kernel h length rw user).bind ?_
  rintro (_ | addr) s' ⟨h', hgrows, hextra, hfilled⟩
  · exact yields_throw (by simp [Excused])
  · exact yields_pure ⟨h', hgrows, hextra, hfilled addr rfl⟩

end

section

variable {slack : Nat → Nat} {P : Nat → ℤ} {s s' : Machine} {f i k addr : Nat}

/-- The number of tables of records which do not exist yet. -/
def missing (s : Machine) : Nat :=
  ((Finset.range PHYSMEMEXTRA_COUNT).filter fun i => (s.physMemExtra i).isNone).card

theorem missing_lt (s : Machine) : missing s < EXTRA_FUEL := by
  have := Finset.card_filter_le (Finset.range PHYSMEMEXTRA_COUNT)
    fun i => (s.physMemExtra i).isNone
  rw [Finset.card_range] at this
  exact Nat.lt_succ_of_le this

theorem missing_setExtra (hi : i < PHYSMEMEXTRA_COUNT) (hnone : s.physMemExtra i = none)
    (addr : Nat) : missing (s.setExtra i addr) < missing s := by
  refine Finset.card_lt_card (Finset.ssubset_iff_of_subset ?_ |>.mpr ⟨i, ?_, ?_⟩)
  · intro j hj
    rw [Finset.mem_filter] at hj ⊢
    rcases eq_or_ne j i with rfl | hne
    · exact ⟨hj.1, by rw [hnone]; rfl⟩
    · refine ⟨hj.1, ?_⟩
      have : (s.setExtra i addr).physMemExtra j = s.physMemExtra j := Function.update_of_ne hne _ _
      rw [← this]
      exact hj.2
  · rw [Finset.mem_filter, Finset.mem_range]
    exact ⟨hi, by rw [hnone]; rfl⟩
  · rw [Finset.mem_filter]
    rintro ⟨-, h⟩
    have : (s.setExtra i addr).physMemExtra i = some (pageOf addr) := Function.update_self ..
    rw [this] at h
    cases h

theorem ready_of_ne_zero (h : Structured s) (hk : k < KERNEL_PAGE) (hne : s.kernel k ≠ .zero) :
    TableReady s (k / PAGETABLE_COUNT) := by
  refine h.ready (kernel_lt hk) fun hzero => ?_
  have hi : k / PAGETABLE_COUNT < KERNEL_DIR_ENTRY := by
    simp only [KERNEL_PAGE, KERNEL_DIR_ENTRY, PAGETABLE_COUNT] at *
    omega
  rcases h.tables _ hi with hmissing | hready
  · exact hne (hmissing.entries k rfl)
  · have := hready.present
    rw [hzero] at this
    cases this

theorem Filled.translate {s₀ : Machine} {rw user : Bool} (h : Filled s₀ s rw user k)
    (hs : Structured s) (hk : k < KERNEL_PAGE) : s.translate k = some (s.kernel k).frame := by
  obtain ⟨g, hg, -⟩ := h.entry
  have hne : s.kernel k ≠ .zero := by
    rw [hg]
    simp [PagingEntry.zero]
  rw [translate_of_ready (ready_of_ne_zero hs hk hne), hg]
  rfl

theorem home_setExtra (r : Role) :
    home (s.setExtra i addr) r = if r = .extra i then some (pageOf addr) else home s r := by
  cases r with
  | extra j =>
      simp only [home, Machine.setExtra, Role.extra.injEq]
      exact Function.update_apply ..
  | directory pid => rw [if_neg (by simp)]; rfl
  | table pid j => rw [if_neg (by simp)]; rfl

/-- A filled page becomes the table `i` of records. -/
theorem inv_setExtra {s₀ : Machine} (h : Inv slack P s) (hnone : s.physMemExtra i = none)
    (hk : pageOf addr < KERNEL_PAGE) (hfilled : Filled s₀ s true false (pageOf addr)) :
    Inv slack P (s.setExtra i addr) := by
  have hinfo : (s.setExtra i addr).extraInfo = s.extraInfo := by
    funext f
    simp only [Machine.setExtra]
    split
    · rename_i hf
      exact (h.recorded.missing f (by rw [hf]; exact hnone)).symm
    · rfl
  have hnames : names (s.setExtra i addr) = names s := by
    funext place
    cases place <;> rfl
  have hrefs : refs (s.setExtra i addr) = refs s := by
    funext f
    rw [refs, refCount, hinfo]
    rfl
  obtain ⟨f, hf, -⟩ := hfilled.entry
  have hstructured : Structured (s.setExtra i addr) := by
    have hs := h.structured
    refine ⟨⟨hs.self.1, hs.self.2, hs.self.3⟩, fun j hj => ?_, fun r k hr => ?_,
      fun r r' k hr hr' => ?_, hs.processes⟩
    · rcases hs.tables j hj with hj | hj
      · exact Or.inl ⟨hj.1, hj.2⟩
      · exact Or.inr ⟨hj.1, hj.2, hj.3⟩
    · rw [home_setExtra] at hr
      split at hr
      · rename_i heq
        cases hr
        rw [heq]
        refine ⟨hk, ?_, ?_⟩
        · refine (hfilled.translate hs hk).trans ?_
          simp [backing, Machine.setExtra]
        · change (s.kernel (pageOf addr)).rw = true
          rw [hf]
      · rename_i hne
        obtain ⟨hlt, htranslate, hrw⟩ := hs.homes r k hr
        refine ⟨hlt, htranslate.trans ?_, hrw⟩
        cases r with
        | extra j =>
            have hji : j ≠ i := fun hji => hne (by rw [hji])
            simp [backing, Machine.setExtra, hji]
        | directory pid => rfl
        | table pid j => rfl
    · rw [home_setExtra] at hr hr'
      split at hr <;> split at hr'
      · rename_i h₁ h₂
        rw [h₁, h₂]
      · cases hr
        exact (hfilled.free ⟨r', hr'⟩).elim
      · cases hr'
        exact (hfilled.free ⟨r, hr⟩).elim
      · exact hs.unique r r' k hr hr'
  refine ⟨hstructured, ⟨?_, ?_, ?_⟩, ?_, ?_, ?_, h.handedOut⟩
  · rw [hinfo]
    exact h.recorded.unused
  · intro f hf
    rw [hinfo]
    refine h.recorded.missing f ?_
    rcases eq_or_ne (f / PHYSMEMEXTRA_COUNT) i with heq | hne
    · rw [heq]
      exact hnone
    · have : (s.setExtra i addr).physMemExtra (f / PHYSMEMEXTRA_COUNT) =
          s.physMemExtra (f / PHYSMEMEXTRA_COUNT) := Function.update_of_ne hne _ _
      rw [← this]
      exact hf
  · rw [hinfo]
    exact h.recorded.present
  · rw [hnames]
    exact h.finite
  · rw [hnames]
    exact h.nonneg
  · rw [hnames, hrefs]
    exact h.balance

/-- The record of a frame is written, which may change its references. -/
theorem inv_setInfo {P' : Nat → ℤ} {info : PhysMemExtraInfo} (h : Inv slack P s)
    (hx : s.physMemExtra (f / PHYSMEMEXTRA_COUNT) ≠ none) (hused : used s f = true)
    (hpresent : info.present = true) (hone : 1 ≤ info.ref) (hlt : info.ref < 2 ^ 7)
    (hother : ∀ g, g ≠ f → P' g = P g) (hnonneg : 0 ≤ tally (names s) f + P' f)
    (hbalance : (info.ref : ℤ) - refs s f = P' f - P f) :
    Inv slack P' (s.setInfo f info) := by
  have hne : info ≠ .zero := by
    rintro rfl
    cases hpresent
  have hinfo : ∀ g, g ≠ f → Function.update s.extraInfo f info g = s.extraInfo g :=
    fun g hg => Function.update_of_ne hg _ _
  refine h.of_sameTables (by constructor <;> rfl) ⟨fun g hg => ?_, fun g hg => ?_, fun g hg => ?_⟩
    h.handedOut (fun g => ?_) fun g => ?_
  · rcases eq_or_ne g f with rfl | hgf
    · change used s g = false at hg
      rw [hused] at hg
      cases hg
    · exact (hinfo g hgf).trans (h.recorded.unused g hg)
  · rcases eq_or_ne g f with rfl | hgf
    · exact (hx hg).elim
    · exact (hinfo g hgf).trans (h.recorded.missing g hg)
  · rcases eq_or_ne g f with rfl | hgf
    · have heq : (s.setInfo g info).extraInfo g = info := Function.update_self ..
      rw [heq]
      exact ⟨hpresent, hone, hlt⟩
    · have heq : (s.setInfo f info).extraInfo g = s.extraInfo g := hinfo g hgf
      rw [heq] at hg ⊢
      exact h.recorded.present g hg
  · rcases eq_or_ne g f with rfl | hgf
    · exact hnonneg
    · rw [hother g hgf]
      exact h.nonneg g
  · rcases eq_or_ne g f with rfl | hgf
    · have : refs (s.setInfo g info) g = info.ref := by
        change (if used s g then (if Function.update s.extraInfo g info g = .zero then 1 else
          (Function.update s.extraInfo g info g).ref) else 0) = info.ref
        rw [if_pos hused, Function.update_self, if_neg hne]
      rw [this]
      exact hbalance
    · have : refs (s.setInfo f info) g = refs s g := by
        change (if used s g then (if Function.update s.extraInfo f info g = .zero then 1 else
          (Function.update s.extraInfo f info g).ref) else 0) = _
        rw [hinfo g hgf]
        rfl
      rw [this, hother g hgf]
      omega

/-- What the record of a frame says about its references. -/
theorem started_spec (h : Recorded s) (hused : used s f = true) :
    (s.extraInfo f).started.present = true ∧ (s.extraInfo f).started.ref = refs s f ∧
      1 ≤ refs s f ∧ refs s f < 2 ^ 7 := by
  rw [refs, if_pos hused, refCount, PhysMemExtraInfo.started]
  split
  · exact ⟨rfl, rfl, by decide, by decide⟩
  · rename_i hne
    obtain ⟨hpresent, hone, hlt⟩ := h.present f hne
    exact ⟨hpresent, rfl, hone, hlt⟩

theorem markRecord_spec (h : Inv slack P s) (hx : s.physMemExtra (f / PHYSMEMEXTRA_COUNT) ≠ none)
    (hused : used s f = true) :
    Steps (markRecord f) s fun _ s' =>
      Inv slack P s' ∧ KernelGrows s s' ∧ s'.physMemExtra = s.physMemExtra := by
  obtain ⟨hpresent, href, hone, hlt⟩ := started_spec h.recorded hused
  rw [markRecord]
  refine yields_ok_bind (h.structured.loadInfo_ok hx) ?_
  refine yields_of_ok (h.structured.storeInfo_ok hx _) ⟨?_, ?_, rfl⟩
  · refine inv_setInfo h hx hused hpresent ?_ ?_ (fun _ _ => rfl) (h.nonneg f) ?_
    · rw [href]
      exact hone
    · rw [href]
      exact hlt
    · rw [href]
      omega
  · exact SameTables.kernelGrows (by constructor <;> rfl) (fun _ h => h) fun _ h => h

end

section

variable {slack : Nat → Nat} {P : Nat → ℤ} {s s' : Machine} {f index addr : Nat}

theorem missing_mono (h : KernelGrows s s') : missing s' ≤ missing s := by
  refine Finset.card_le_card fun i hi => ?_
  rw [Finset.mem_filter] at hi ⊢
  refine ⟨hi.1, ?_⟩
  rcases hk : s.physMemExtra i with _ | k
  · rfl
  · have := h.homes (.extra i) k hk
    rw [home] at this
    rw [this] at hi
    exact hi.2

theorem extra_mono (h : Grows s s') {i : Nat} (hi : s.physMemExtra i ≠ none) :
    s'.physMemExtra i ≠ none := by
  rcases hk : s.physMemExtra i with _ | k
  · exact (hi hk).elim
  · have := h.homes (.extra i) k hk
    rw [home] at this
    rw [this]
    simp

theorem getPhysMem_kernel (h : Inv slack P s) (addr : Nat) :
    Steps (getPhysMem getKernelEntry none addr) s fun f s' =>
      s' = s ∧ Mapped s none (pageOf addr) ∧ named (s.kernel (pageOf addr)) = some f := by
  rw [getPhysMem]
  refine (getKernelEntry_spec h (pageOf_lt addr) false).bind ?_
  rintro r _ ⟨-, -, -, hmapped, -, hsame⟩
  obtain ⟨rfl, -⟩ := hsame rfl
  refine steps_check_bind fun hr => ?_
  refine yields_ok_bind (h.structured.loadEntry_ok (pageOf_lt addr) (hmapped hr)) ?_
  refine steps_check_bind fun _ => steps_requirePresent_bind fun hpresent => ?_
  exact yields_pure ⟨rfl, hmapped hr, if_pos hpresent⟩

/-- The page at `addr` becomes a table of records. Seen from before its allocation it was
an unused page. -/
theorem setExtra_grows {i : Nat} {rw user : Bool} (hg : KernelGrows s s')
    (hfilled : Filled s s' rw user (pageOf addr)) (hnone : s'.physMemExtra i = none) :
    KernelGrows s (s'.setExtra i addr) := by
  refine ⟨⟨hg.kernel, fun r k hk => ?_, fun r k hk => ?_, hg.mapping, hg.memory,
    hg.used, fun f hf => ?_⟩, hg.process⟩
  · rw [home_setExtra, if_neg, hg.homes r k hk]
    rintro rfl
    have := hg.homes (.extra i) k hk
    rw [home, hnone] at this
    cases this
  · rw [home_setExtra] at hk
    split at hk
    · cases hk
      exact Or.inr hfilled.unused
    · exact hg.fresh r k hk
  · obtain ⟨g, hentry, -, hunused⟩ := hfilled.entry
    rcases eq_or_ne f g with rfl | hne
    · exact Or.inr hunused
    · change Function.update s'.holdsTable (s'.kernel (pageOf addr)).frame true f = true at hf
      rw [hentry, Function.update_of_ne hne] at hf
      exact hg.holds f hf

/-- Without `alloc` nothing happens, with it there is a record afterwards. -/
theorem getPhysMemExtraInfo_spec {fuel : Nat} (h : Inv slack P s) (index : Nat) (alloc : Bool)
    (hfuel : alloc = true → missing s < fuel) :
    Steps (getPhysMemExtraInfo fuel index alloc) s fun r s' =>
      Inv slack P s' ∧ KernelGrows s s' ∧
        (r = true → s'.physMemExtra (index / PHYSMEMEXTRA_COUNT) ≠ none) ∧
        (alloc = false →
          s' = s ∧ (r = false → s.physMemExtra (index / PHYSMEMEXTRA_COUNT) = none)) := by
  induction fuel generalizing s index alloc with
  | zero =>
      rw [getPhysMemExtraInfo]
      refine yields_get_bind (steps_check_bind fun _ => steps_check_bind fun _ =>
        yields_get_bind ?_)
      split
      · rename_i k hk
        exact yields_pure ⟨h, KernelGrows.refl s, fun _ => by rw [hk]; exact nofun,
          fun _ => ⟨rfl, nofun⟩⟩
      · rename_i hnone
        refine yields_ite (fun halloc => ?_) fun _ => ?_
        · exact absurd (hfuel halloc) (Nat.not_lt_zero _)
        · exact yields_pure ⟨h, KernelGrows.refl s, nofun, fun _ => ⟨rfl, fun _ => hnone⟩⟩
  | succ fuel ih =>
      rw [getPhysMemExtraInfo]
      refine yields_get_bind (steps_check_bind fun _ => steps_check_bind fun hi =>
        yields_get_bind ?_)
      split
      · rename_i k hk
        exact yields_pure ⟨h, KernelGrows.refl s, fun _ => by rw [hk]; exact nofun,
          fun _ => ⟨rfl, nofun⟩⟩
      · rename_i hnone
        refine yields_ite (fun halloc => ?_) fun _ => ?_
        · refine (allocatePhysMem_kernel h 1 true false).bind ?_
          rintro addr s₁ ⟨h₁, hg₁, hextra, -, hend, hfilled⟩
          have hfilled := hfilled (pageOf addr) le_rfl (by omega)
          have hnone₁ : s₁.physMemExtra (index / PHYSMEMEXTRA_COUNT) = none := by
            rw [hextra]
            exact hnone
          have h₂ := inv_setExtra h₁ hnone₁ (by omega) hfilled
          have hg₂ := setExtra_grows hg₁ hfilled hnone₁
          have hmissing : missing (s₁.setExtra (index / PHYSMEMEXTRA_COUNT) addr) < fuel := by
            have := missing_setExtra (of_decide_eq_true hi) hnone₁ addr
            have := missing_mono hg₁
            have := hfuel halloc
            omega
          refine yields_modify_bind ((getPhysMem_kernel h₂ addr).bind ?_)
          rintro f _ ⟨rfl, -, hf⟩
          obtain ⟨g, hg, hused, -⟩ := hfilled.entry
          have hfg : f = g := by
            change named (s₁.kernel (pageOf addr)) = some f at hf
            rw [hg] at hf
            exact (Option.some.inj hf).symm
          refine (ih h₂ f true fun _ => hmissing).bind ?_
          rintro r s₃ ⟨h₃, hg₃, hr, -⟩
          refine steps_check_bind fun htrue => ?_
          refine (markRecord_spec h₃ (hr htrue) ?_).bind ?_
          · rw [hfg]
            exact hg₃.used g hused
          · rintro _ s₄ ⟨h₄, hg₄, hextra₄⟩
            refine yields_pure ⟨h₄, hg₂.trans (hg₃.trans hg₄), fun _ => ?_, by simp [halloc]⟩
            refine extra_mono (hg₃.trans hg₄).toGrows ?_
            have : (s₁.setExtra (index / PHYSMEMEXTRA_COUNT) addr).physMemExtra
                (index / PHYSMEMEXTRA_COUNT) = some (pageOf addr) := Function.update_self ..
            rw [this]
            exact nofun
        · exact yields_pure ⟨h, KernelGrows.refl s, nofun, fun _ => ⟨rfl, fun _ => hnone⟩⟩

theorem physMemAddRefPage_spec (h : Inv slack P s) (hused : used s f = true) :
    Steps (physMemAddRefPage f) s fun r s' =>
      r = f ∧ Inv slack (P + due (some f)) s' ∧ KernelGrows s s' := by
  rw [physMemAddRefPage]
  refine (getPhysMemExtraInfo_spec h f true fun _ => missing_lt s).bind ?_
  rintro r s₁ ⟨h₁, hg₁, hr, -⟩
  refine steps_check_bind fun htrue => ?_
  have hused₁ := hg₁.used f hused
  obtain ⟨hpresent, href, hone, hlt⟩ := started_spec h₁.recorded hused₁
  refine yields_ok_bind (h₁.structured.loadInfo_ok (hr htrue)) ?_
  refine yields_ok_bind (h₁.structured.storeInfo_ok (hr htrue) _) ?_
  refine steps_check_bind fun hne => yields_pure ⟨rfl, ?_, ?_⟩
  · have hsmall : ((s₁.extraInfo f).started.ref + 1) % 2 ^ 7 = refs s₁ f + 1 := by
      rw [href] at hne ⊢
      have : (refs s₁ f + 1) % 2 ^ 7 ≠ 0 := by simpa using hne
      omega
    have hnonneg := h₁.nonneg f
    refine inv_setInfo h₁ (hr htrue) hused₁ hpresent ?_ ?_ ?_ ?_ ?_
    · change 1 ≤ ((s₁.extraInfo f).started.ref + 1) % 2 ^ 7
      rw [hsmall]
      exact Nat.le_add_left 1 _
    · exact Nat.mod_lt _ (by decide)
    · intro g hg
      simp [due, hg.symm]
    · rw [Pi.add_apply, due, if_pos rfl]
      omega
    · rw [hsmall, Pi.add_apply, due, if_pos rfl]
      push_cast
      omega
  · exact hg₁.trans (SameTables.kernelGrows (by constructor <;> rfl) (fun _ h => h) fun _ h => h)

theorem physMemMarkUnpageable_spec (h : Inv slack P s) (hused : used s f = true) :
    Steps (physMemMarkUnpageable f) s fun r s' =>
      r = f ∧ Inv slack P s' ∧ KernelGrows s s' := by
  rw [physMemMarkUnpageable]
  refine (getPhysMemExtraInfo_spec h f true fun _ => missing_lt s).bind ?_
  rintro r s₁ ⟨h₁, hg₁, hr, -⟩
  refine steps_check_bind fun htrue => ?_
  refine (markRecord_spec h₁ (hr htrue) (hg₁.used f hused)).bind ?_
  rintro _ s₂ ⟨h₂, hg₂, -⟩
  exact yields_pure ⟨rfl, h₂, hg₁.trans hg₂⟩

theorem physMemIsLastRef_spec (h : Inv slack P s) (f : Nat) :
    Steps (physMemIsLastRef f) s fun r s' => s' = s ∧ (r = true → refs s f ≤ 1) := by
  have hzero : s.extraInfo f = .zero → refs s f ≤ 1 := by
    intro hzero
    rw [refs, refCount, if_pos hzero]
    split <;> omega
  rw [physMemIsLastRef]
  refine (getPhysMemExtraInfo_spec h f false (by simp)).bind ?_
  rintro r _ ⟨-, -, hr, hsame⟩
  obtain ⟨rfl, hnone⟩ := hsame rfl
  refine yields_ite (fun htrue => ?_) fun hfalse => ?_
  · refine yields_ok_bind (h.structured.loadInfo_ok (hr htrue)) (yields_pure ⟨rfl, fun hlast => ?_⟩)
    simp only [Bool.or_eq_true, beq_iff_eq] at hlast
    rcases hlast with hlast | hlast
    · exact hzero hlast
    · rw [refs, refCount]
      split
      · split <;> omega
      · omega
  · exact yields_pure ⟨rfl, fun _ => hzero (h.recorded.missing f (hnone (by simpa using hfalse)))⟩

end

section

variable {slack : Nat → Nat} {P : Nat → ℤ} {s s' : Machine} {f page : Nat}

/-- The last reference to a frame is gone. -/
theorem inv_free (h : Inv slack (P + due (some f)) s) (hP : 0 ≤ P f) (hone : refs s f = 1) :
    Inv slack P ((s.setInfo f .zero).setBit f false) := by
  have hused : ∀ g, used ((s.setInfo f .zero).setBit f false) g = if g =
    f then false else used s g := fun g => used_setBit _ f g false
  have hinfo : ∀ g, g ≠ f → Function.update s.extraInfo f .zero g = s.extraInfo g :=
    fun g hg => Function.update_of_ne hg _ _
  refine h.of_sameTables (by constructor <;> rfl) ⟨fun g hg => ?_, fun g hg => ?_, fun g hg => ?_⟩
    h.handedOut (fun g => ?_) fun g => ?_
  · rcases eq_or_ne g f with rfl | hgf
    · exact Function.update_self ..
    · rw [hused, if_neg hgf] at hg
      exact (hinfo g hgf).trans (h.recorded.unused g hg)
  · rcases eq_or_ne g f with rfl | hgf
    · exact Function.update_self ..
    · exact (hinfo g hgf).trans (h.recorded.missing g hg)
  · rcases eq_or_ne g f with rfl | hgf
    · exact (hg (Function.update_self ..)).elim
    · have heq : ((s.setInfo f .zero).setBit f false).extraInfo g = s.extraInfo g := hinfo g hgf
      rw [heq] at hg ⊢
      exact h.recorded.present g hg
  · have := h.nonneg g
    rw [Pi.add_apply, due] at this
    rcases eq_or_ne g f with rfl | hgf
    · omega
    · rw [if_neg (by simpa using hgf.symm)] at this
      omega
  · rw [Pi.add_apply, due]
    rcases eq_or_ne g f with rfl | hgf
    · rw [refs_of_not_used (by rw [hused, if_pos rfl]), hone, if_pos rfl]
      push_cast
      omega
    · have : refs ((s.setInfo f .zero).setBit f false) g =
          refs s g := by
        rw [refs, hused, if_neg hgf, refCount]
        change (if used s g then (if Function.update s.extraInfo f .zero g = .zero then 1 else
          (Function.update s.extraInfo f .zero g).ref) else 0) = _
        rw [hinfo g hgf]
        rfl
      rw [this, if_neg (by simpa using hgf.symm)]
      omega

theorem physMemReleasePage_spec (h : Inv slack (P + due (some f)) s) (hP : 0 ≤ P f) :
    Steps (physMemReleasePage f) s fun _ s' =>
      Inv slack P s' ∧ SameTables s s' ∧ s'.holdsTable = s.holdsTable := by
  have hfree : s.extraInfo f = .zero → used s f = true → Inv slack P (s.setBit f false) := by
    intro hzero hused
    have := inv_free h hP (by rw [refs, if_pos hused, refCount, if_pos hzero])
    rwa [Machine.setInfo, Function.update_eq_self_iff.mpr hzero.symm] at this
  rw [physMemReleasePage]
  refine yields_get_bind (steps_check_bind fun hused => ?_)
  change used s f = true at hused
  refine (getPhysMemExtraInfo_spec h f false (by simp)).bind ?_
  rintro r s₁ ⟨-, -, hr, hsame⟩
  obtain ⟨rfl, hnone⟩ := hsame rfl
  refine yields_ite (fun htrue => ?_) fun hfalse => ?_
  · rw [releaseRecord]
    refine yields_ok_bind (h.structured.loadInfo_ok (hr htrue)) ?_
    refine yields_ite (fun hzero => ?_) fun hne => ?_
    · exact yields_modify_bind (yields_pure ⟨hfree hzero hused, by constructor <;> rfl, rfl⟩)
    · obtain ⟨hpresent, hone, hlt⟩ := h.recorded.present f hne
      have hrefs : refs s₁ f = (s₁.extraInfo f).ref := by
        rw [refs, if_pos hused, refCount, if_neg hne]
      have hdec : ∀ ref, 1 ≤ ref → ref < 2 ^ 7 → (ref + 2 ^ 7 - 1) % 2 ^ 7 = ref - 1 := by
        intro ref _ _
        omega
      refine steps_check_bind fun _ => ?_
      refine yields_ok_bind (h.structured.storeInfo_ok (hr htrue) _) ?_
      rw [hdec _ hone hlt]
      refine yields_ite (fun hpos => ?_) fun hzero => ?_
      · refine yields_pure ⟨?_, by constructor <;> rfl, rfl⟩
        refine inv_setInfo h (hr htrue) hused hpresent ?_ ?_ ?_ ?_ ?_
        · change 1 ≤ _ - 1
          omega
        · change _ - 1 < 2 ^ 7
          omega
        · intro g hg
          simp [due, hg.symm]
        · omega
        · rw [hrefs, Pi.add_apply, due, if_pos rfl]
          push_cast [hone]
          omega
      · have hstructured := (setInfo_same s₁ f { s₁.extraInfo f with ref := 0 }).structured
          h.structured
        rw [show (s₁.extraInfo f).ref - 1 = 0 by omega]
        refine yields_ok_bind (hstructured.storeInfo_ok (hr htrue) _) ?_
        refine yields_modify_bind (yields_pure ⟨?_, by constructor <;> rfl, rfl⟩)
        have := inv_free h hP (by rw [hrefs]; omega)
        rwa [Machine.setInfo, Machine.setInfo, Function.update_idem]
  · have hzero := h.recorded.missing f (hnone (by simpa using hfalse))
    exact yields_modify_bind (yields_pure ⟨hfree hzero hused, by constructor <;> rfl, rfl⟩)

end

section

variable {slack : Nat → Nat} {P : Nat → ℤ} {s s' : Machine} {f page : Nat}

theorem findUnused_spec (h : Inv slack P s) {rounds i : Nat} (hend : i + rounds ≤ KERNEL_PAGE) :
    Steps (findUnused rounds i) s fun r s' =>
      Inv slack P s' ∧ KernelGrows s s' ∧ ∀ page, r = some page →
        i ≤ page ∧ page < KERNEL_PAGE ∧ Mapped s' none page ∧ s'.kernel page = .zero := by
  induction rounds generalizing s i with
  | zero => exact yields_pure ⟨h, KernelGrows.refl s, nofun⟩
  | succ rounds ih =>
      have hi : i < KERNEL_PAGE := by omega
      rw [findUnused]
      refine (getKernelEntry_spec h (kernel_lt hi) true).bind ?_
      rintro r s₁ ⟨h₁, hg₁, -, hmapped, hr, -⟩
      have hm := hmapped (hr rfl)
      refine yields_ok_bind (h₁.structured.loadEntry_ok (kernel_lt hi) hm) ?_
      refine yields_ite (fun hzero => yields_pure ⟨h₁, hg₁, ?_⟩) fun _ => ?_
      · rintro _ ⟨⟩
        exact ⟨le_rfl, hi, hm, hzero⟩
      · refine (ih h₁ (by omega)).mono ?_
        rintro r s₂ ⟨h₂, hg₂, hr⟩
        refine ⟨h₂, hg₁.trans hg₂, fun page hpage => ?_⟩
        obtain ⟨hle, hrest⟩ := hr page hpage
        exact ⟨by omega, hrest⟩

/-- The unused page at `addr` names the frame now. -/
structure MappedAt (s s' : Machine) (rw user : Bool) (f addr : Nat) : Prop where
  pos : 1 ≤ pageOf addr
  lt : pageOf addr < KERNEL_PAGE
  unused : s.kernel (pageOf addr) = .zero
  free : ¬Owned s' (pageOf addr)
  entry : s'.kernel (pageOf addr) = ⟨true, rw, user, 0, f⟩

theorem mappedAt_setKernel {s₀ : Machine} (addr : Nat) (rw user : Bool)
    (h : Inv slack (P + due (some f)) s) (hg : KernelGrows s₀ s) (hpos : 1 ≤ pageOf addr)
    (hlt : pageOf addr < KERNEL_PAGE) (hm : Mapped s none (pageOf addr))
    (hzero : s.kernel (pageOf addr) = .zero) :
    Inv slack P (s.setKernel (pageOf addr) ⟨true, rw, user, 0, f⟩) ∧
      KernelGrows s₀ (s.setKernel (pageOf addr) ⟨true, rw, user, 0, f⟩) ∧
      MappedAt s₀ (s.setKernel (pageOf addr) ⟨true, rw, user, 0, f⟩) rw user f addr := by
  refine ⟨inv_fill rw user h hlt hm hzero, hg.trans (setKernel_grows hzero _), hpos, hlt, ?_,
    not_owned_of_zero h.structured hzero, Function.update_self ..⟩
  by_contra hne
  exact hne (by rw [← hg.kernel _ hne, hzero])

theorem pagingMapPhysMem_spec (h : Inv slack (P + due (some f)) s) (rw user : Bool) :
    Steps (pagingMapPhysMem f 0 rw user) s fun addr s' =>
      Inv slack P s' ∧ KernelGrows s s' ∧ MappedAt s s' rw user f addr := by
  rw [pagingMapPhysMem, if_neg (by simp)]
  refine (findUnused_spec h (by simp [KERNEL_PAGE])).bind ?_
  rintro (_ | page) s₁ ⟨h₁, hg₁, hr⟩
  · exact yields_throw (by simp [Excused])
  · obtain ⟨hpos, hlt, hm, hzero⟩ := hr page rfl
    have haddr : page = pageOf (page * PAGE_SIZE) := (pageOf_mul (kernel_lt hlt)).symm
    refine yields_ok_bind (h₁.structured.storeEntry_ok (kernel_lt hlt) hm _) (yields_pure ?_)
    have := mappedAt_setKernel (page * PAGE_SIZE) rw user h₁ hg₁
    rw [← haddr] at this
    exact this hpos hlt hm hzero

/-- The pages which a loop over `length` pages from `cur` visits. -/
def Span : Nat → Nat → Nat → Prop
  | 0, _, _ => False
  | length + 1, cur, page => page = pageOf cur ∨ Span length (nextPage cur) page

theorem span_iff {length cur page : Nat} (h : pageOf cur + length ≤ PAGE_COUNT) :
    Span length cur page ↔ pageOf cur ≤ page ∧ page < pageOf cur + length := by
  induction length generalizing cur with
  | zero =>
      simp only [Span, false_iff]
      omega
  | succ length ih =>
      rcases Nat.lt_or_ge (pageOf cur + 1) PAGE_COUNT with hlt | hge
      · rw [Span, ih (by rw [pageOf_nextPage hlt]; omega), pageOf_nextPage hlt]
        omega
      · obtain rfl : length = 0 := by omega
        simp only [Span, or_false]
        omega

/-- Pages of the kernel were released, and no others. -/
structure Released (pages : Nat → Prop) (s s' : Machine) : Prop where
  kernel : ∀ page, ¬pages page → s'.kernel page = s.kernel page
  physMemExtra : s'.physMemExtra = s.physMemExtra
  process : s'.process = s.process
  memory : s'.memory = s.memory
  holdsTable : s'.holdsTable = s.holdsTable

theorem Released.refl (pages : Nat → Prop) (s : Machine) : Released pages s s :=
  ⟨fun _ _ => rfl, rfl, rfl, rfl, rfl⟩

theorem Released.trans {pages : Nat → Prop} {s s' s'' : Machine} (h : Released pages s s')
    (h' : Released pages s' s'') : Released pages s s'' :=
  ⟨fun q hq => (h'.kernel q hq).trans (h.kernel q hq), h'.physMemExtra.trans h.physMemExtra,
    h'.process.trans h.process, h'.memory.trans h.memory, h'.holdsTable.trans h.holdsTable⟩

theorem Released.mono {pages pages' : Nat → Prop} (h : Released pages s s')
    (hsub : ∀ page, pages page → pages' page) : Released pages' s s' :=
  ⟨fun q hq => h.kernel q fun hp => hq (hsub q hp), h.physMemExtra, h.process, h.memory,
    h.holdsTable⟩

theorem Released.homes {pages : Nat → Prop} (h : Released pages s s') : home s' = home s := by
  funext r
  cases r <;> simp only [home, h.physMemExtra, h.process]

theorem Released.owned {pages : Nat → Prop} (h : Released pages s s') :
    Owned s' page ↔ Owned s page := by
  rw [Owned, Owned, h.homes]

theorem released_of_sameTables (h : SameTables s s') (hholds : s'.holdsTable = s.holdsTable)
    (pages : Nat → Prop) : Released pages s s' :=
  ⟨fun _ _ => by rw [h.kernel], h.physMemExtra, h.process, h.memory, hholds⟩

theorem releaseEntry_kernel {e : PagingEntry} (h : Inv slack P s) (hP : ∀ f, 0 ≤ P f)
    (hpage : page < KERNEL_PAGE) (hm : Mapped s none page) (hfree : ¬Owned s page)
    (he : s.kernel page = e) :
    Steps (releaseEntry none page e) s fun _ s' =>
      Inv slack P s' ∧ Released (· = page) s s' := by
  have hset : Inv slack (P + due (named e)) (s.setKernel page .zero) := by
    have := h.setEntry (kernel_lt hpage) hm ⟨hpage, hfree⟩ .zero
    rw [named_zero, due_none, sub_zero, Machine.entry, he] at this
    exact this
  have hreleased : Released (· = page) s (s.setKernel page .zero) :=
    ⟨fun q hq => Function.update_of_ne hq _ _, rfl, rfl, rfl, rfl⟩
  rw [releaseEntry]
  refine yields_ite (fun hpresent => ?_) fun habsent => yields_ite (fun _ => ?_) fun _ => ?_
  · refine yields_ok_bind (h.structured.storeEntry_ok (kernel_lt hpage) hm _) ?_
    rw [named, if_pos hpresent] at hset
    refine (physMemReleasePage_spec hset (hP _)).bind ?_
    rintro _ s' ⟨h', hsame, hholds⟩
    exact yields_pure ⟨h', hreleased.trans (released_of_sameTables hsame hholds _)⟩
  · rw [named, if_neg habsent, due_none, add_zero] at hset
    exact yields_of_ok (h.structured.storeEntry_ok (kernel_lt hpage) hm _) ⟨hset, hreleased⟩
  · exact steps_requirePresent fun hpresent => (habsent hpresent).elim

theorem releaseLoop_kernel {skip : PagingEntry → Bool} {length cur : Nat} {success : Bool}
    (h : Inv slack P s) (hP : ∀ f, 0 ≤ P f)
    (hpages : ∀ page, Span length cur page → page < KERNEL_PAGE ∧ ¬Owned s page) :
    Steps (releaseLoop skip none length cur success) s fun _ s' =>
      Inv slack P s' ∧ Released (Span length cur) s s' := by
  induction length generalizing s cur success with
  | zero => exact yields_pure ⟨h, Released.refl _ s⟩
  | succ length ih =>
      obtain ⟨hlt, hfree⟩ := hpages (pageOf cur) (Or.inl rfl)
      have hrest : ∀ {s'}, Released (· = pageOf cur) s s' → ∀ page,
        Span length (nextPage cur) page →
          page < KERNEL_PAGE ∧ ¬Owned s' page := by
        intro s' hs' page hpage
        rw [hs'.owned]
        exact hpages page (Or.inr hpage)
      have hnext : ∀ {s' success}, Inv slack P s' → Released (· = pageOf cur) s s' →
          Steps (releaseLoop skip none length (nextPage cur) success) s' fun _ s'' =>
            Inv slack P s'' ∧ Released (Span (length + 1) cur) s s'' := by
        intro s' success h' hs'
        refine (ih h' (hrest hs')).mono ?_
        rintro _ s'' ⟨h'', hs''⟩
        exact ⟨h'', (hs'.mono fun _ => Or.inl).trans (hs''.mono fun _ => Or.inr)⟩
      rw [releaseLoop]
      refine (getKernelEntry_spec h (pageOf_lt cur) false).bind ?_
      rintro r s₁ ⟨-, -, -, hmapped, -, hsame⟩
      obtain ⟨rfl, -⟩ := hsame rfl
      refine yields_ite (fun hr => ?_) fun _ => hnext h (Released.refl _ _)
      refine yields_ok_bind (h.structured.loadEntry_ok (pageOf_lt cur) (hmapped hr)) ?_
      refine yields_ite (fun _ => hnext h (Released.refl _ _)) fun _ => ?_
      refine (releaseEntry_kernel h hP hlt (hmapped hr) hfree rfl).bind ?_
      rintro _ s₂ ⟨h₂, hs₂⟩
      exact hnext h₂ hs₂

theorem pagingReleasePhysMem_kernel {length addr : Nat} (h : Inv slack P s) (hP : ∀ f, 0 ≤ P f)
    (hpages : ∀ page, Span length addr page → page < KERNEL_PAGE ∧ ¬Owned s page) :
    Steps (pagingReleasePhysMem none addr length) s fun _ s' =>
      Inv slack P s' ∧ Released (Span length addr) s s' := by
  rw [pagingReleasePhysMem]
  refine (releaseLoop_kernel h hP hpages).bind ?_
  rintro r s' hs'
  exact steps_check fun _ => hs'

end

section

/-! After a release without a gap there are no entries left. -/

variable {slack : Nat → Nat} {P : Nat → ℤ} {s s' : Machine} {page : Nat}

theorem releaseEntry_clears {e : PagingEntry} (h : Inv slack P s) (hP : ∀ f, 0 ≤ P f)
    (hpage : page < KERNEL_PAGE) (hm : Mapped s none page) (hfree : ¬Owned s page)
    (he : s.kernel page = e) :
    Steps (releaseEntry none page e) s fun _ s' => s'.kernel page = .zero := by
  have hzero : (s.setEntry none page .zero).kernel page = .zero := Function.update_self ..
  rw [releaseEntry]
  refine yields_ite (fun hpresent => ?_) fun habsent => yields_ite (fun _ => ?_) fun _ => ?_
  · refine yields_ok_bind (h.structured.storeEntry_ok (kernel_lt hpage) hm _) ?_
    have hset := h.setEntry (kernel_lt hpage) hm ⟨hpage, hfree⟩ .zero
    rw [named_zero, due_none, sub_zero, Machine.entry, he, named, if_pos hpresent] at hset
    refine (physMemReleasePage_spec hset (hP _)).bind ?_
    rintro _ s' ⟨-, hsame, -⟩
    refine yields_pure ?_
    rw [hsame.kernel]
    exact hzero
  · exact yields_of_ok (h.structured.storeEntry_ok (kernel_lt hpage) hm _) hzero
  · exact steps_requirePresent fun hpresent => (habsent hpresent).elim

theorem releaseLoop_clears {length cur : Nat} {success : Bool} (h : Inv slack P s)
    (hP : ∀ f, 0 ≤ P f)
    (hpages : ∀ page, Span length cur page → page < KERNEL_PAGE ∧ ¬Owned s page) :
    Steps (releaseLoop (fun e => e == .zero) none length cur success) s fun r s' =>
      (∀ page, s.kernel page = .zero → s'.kernel page = .zero) ∧ (success = false → r = false) ∧
        (r = true → ∀ page, Span length cur page → s'.kernel page = .zero) := by
  induction length generalizing s cur success with
  | zero => exact yields_pure ⟨fun _ hzero => hzero, id, fun _ _ => False.elim⟩
  | succ length ih =>
      obtain ⟨hlt, hfree⟩ := hpages (pageOf cur) (Or.inl rfl)
      -- a page which is skipped makes the result false
      have hskip : Steps (releaseLoop (fun e => e == .zero) none length (nextPage cur) false) s
          fun r s' => (∀ page, s.kernel page = .zero → s'.kernel page = .zero) ∧
            (success = false → r = false) ∧
            (r = true → ∀ page, Span (length + 1) cur page → s'.kernel page = .zero) := by
        refine (ih h fun page hpage => hpages page (Or.inr hpage)).mono ?_
        rintro r s' ⟨hmono, hfalse, -⟩
        exact ⟨hmono, fun _ => hfalse rfl, fun hr => by rw [hfalse rfl] at hr; cases hr⟩
      rw [releaseLoop]
      refine (getKernelEntry_spec h (pageOf_lt cur) false).bind ?_
      rintro r s₁ ⟨-, -, -, hmapped, -, hsame⟩
      obtain ⟨rfl, -⟩ := hsame rfl
      refine yields_ite (fun hr => ?_) fun _ => hskip
      refine yields_ok_bind (h.structured.loadEntry_ok (pageOf_lt cur) (hmapped hr)) ?_
      refine yields_ite (fun _ => hskip) fun _ => ?_
      refine ((releaseEntry_kernel h hP hlt (hmapped hr) hfree rfl).and
        (releaseEntry_clears h hP hlt (hmapped hr) hfree rfl)).bind ?_
      rintro _ s₂ ⟨⟨h₂, hreleased⟩, hzero⟩
      have hkeep : ∀ page, s₁.kernel page = .zero → s₂.kernel page = .zero := by
        intro page hpage
        rcases eq_or_ne page (pageOf cur) with rfl | hne
        · exact hzero
        · rw [hreleased.kernel page hne, hpage]
      refine (ih h₂ fun page hpage => ?_).mono ?_
      · rw [hreleased.owned]
        exact hpages page (Or.inr hpage)
      · rintro r s' ⟨hmono, hfalse, hclear⟩
        refine ⟨fun page hpage => hmono page (hkeep page hpage), hfalse, fun hr page hpage => ?_⟩
        rcases hpage with rfl | hpage
        · exact hmono _ hzero
        · exact hclear hr page hpage

theorem pagingReleasePhysMem_clears {length addr : Nat} (h : Inv slack P s) (hP : ∀ f, 0 ≤ P f)
    (hpages : ∀ page, Span length addr page → page < KERNEL_PAGE ∧ ¬Owned s page) :
    Steps (pagingReleasePhysMem none addr length) s fun _ s' =>
      ∀ page, Span length addr page → s'.kernel page = .zero := by
  rw [pagingReleasePhysMem]
  refine (releaseLoop_clears h hP hpages).bind ?_
  rintro r s' ⟨-, -, hclear⟩
  exact steps_check fun hr => hclear hr

end

end Ibnos.KernelPages
