import Ibnos.LoaderRemains
import Ibnos.MappingFailures

/-!
The pages of a program. Each of them is a new page of the process which is named by no other
entry, and a page which is in use or the first page stops the kernel.
-/

namespace Ibnos.LoadedPages

open Ibnos.ElfLoader
open Ibnos.FrameSupply
open Ibnos.Intervals
open Ibnos.KernelPages
open Ibnos.LoaderRemains
open Ibnos.Memory
open Ibnos.Paging
open Ibnos.PagingOperations
open Ibnos.PagingPrograms
open Ibnos.PagingRuns
open Ibnos.Physmem
open Ibnos.ProcessPages
open Ibnos.Reallocations (refs_setEntry)
open Ibnos.Programs
open Ibnos.References
open Ibnos.SectionTables
open Ibnos.SharedFrames
open Ibnos.TableMappings
open Ibnos.Tallies

section

variable {slack : Nat → Nat} {s₀ s s' : Machine} {pid page addr length f : Nat} {N : Nat → Prop}

/-- A page which can be written, behind a frame for itself. -/
def Own (s : Machine) (pid page : Nat) : Prop :=
  ∃ f, mapping s pid page = some ⟨true, true, true, 0, f⟩ ∧ f < PAGE_COUNT ∧ refs s f = 1

/-- Some unused pages of a process are filled since the state `s₀`. -/
structure Filled (slack : Nat → Nat) (pid : Nat) (N : Nat → Prop) (s₀ s : Machine) : Prop
    extends Kept slack s₀ s where
  settled : Settled s
  directory : (s.process pid).pageDirectory ≠ none
  own : ∀ page, N page → Own s pid page
  same : ∀ q page, ¬(q = pid ∧ N page) → mapping s q page = mapping s₀ q page
  unused : ∀ page, ¬N page → (Unused s pid page ↔ Unused s₀ pid page)
  memory : s.memory = s₀.memory

theorem filled_refl (h : Inv slack 0 s) (hs : Settled s)
    (hdir : (s.process pid).pageDirectory ≠ none) :
    Filled slack pid (fun _ => False) s s :=
  ⟨Kept.refl h, hs, hdir, fun _ => False.elim, fun _ _ _ => rfl, fun _ _ => Iff.rfl, rfl⟩

theorem Filled.congr {N' : Nat → Prop} (h : Filled slack pid N s₀ s)
    (hN : ∀ page, N page ↔ N' page) :
    Filled slack pid N' s₀ s := by
  obtain rfl : N = N' := funext fun page => propext (hN page)
  exact h

/-- The frame of a page is taken before its page table is looked at. -/
theorem Filled.take {α : Type} {k : Nat → PagingEntry → M α} {Q : α → Machine → Prop}
    (h : Filled slack pid N s₀ s) (hpage : page < PAGE_COUNT) (hnew : ¬N page)
    (hunused : Unused s₀ pid page)
    (hk : ∀ f s₁, Mapped s₁ (some pid) page → Structured s₁ →
      Filled slack pid (fun q => N q ∨ q = page) s₀
        (s₁.setEntry (some pid) page ⟨true, true, true, 0, f⟩) →
      Proceeds (k f .zero) s₁ Q) :
    Proceeds (do
      let index ← physMemAllocPage false
      let _ ← getPagingEntry (some pid) page true
      let table ← loadEntry (some pid) page
      k index table) s Q := by
  refine ((physMemAllocPage_proceeds h.inv false).also
    (physMemAllocPage_fresh h.inv zero_nonneg false)).bind_of ?_
  rintro f s₁ halloc ⟨⟨hsteady₁, hkernel₁, hlt, hone, h₁⟩, -, hg₁, hused, hfresh, hunused₁, -⟩
  rw [zero_add] at h₁
  have hs₁ := processClosed_settled.physMemAllocPage _ _ _ _ halloc h.settled
  have hdir₁ : (s₁.process pid).pageDirectory ≠ none := by
    rw [hg₁.process]
    exact h.directory
  have htable : (s₁.process pid).directory (page / PAGETABLE_COUNT) = .zero ∨
    Mapped s₁ (some pid) page :=
    or_iff_not_imp_left.mpr (hs₁.tables pid hdir₁ _ nofun)
  refine ((getProcessEntry_proceeds h₁ (due_nonneg _) hs₁.enabled hpage hdir₁ htable).also
    (getProcessEntry_spec h₁ (due_nonneg _) hpage true)).bind_of ?_
  rintro r s₂ hentry ⟨hsteady₂, h₂, hg₂, hmapped, hr, -, hgaps⟩
  have hs₂ := keeps_getProcessEntry _ _ _ _ _ _ hentry hs₁
  have hm := hmapped (hr rfl)
  have hunused₂ : ∀ q, Unused s₂ pid q ↔ Unused s pid q := by
    intro q
    rw [hgaps, Unused, hg₁.process]
    rfl
  have hzero : s₂.entry (some pid) page = .zero := by
    rw [entry_eq_zero_iff h₂.structured hm, hunused₂, h.unused page hnew]
    exact hunused
  refine yields_ok_bind (h₂.structured.loadEntry_ok hpage hm) ?_
  rw [hzero]
  refine hk f s₂ hm h₂.structured ?_
  have hg := hg₁.toGrows.trans hg₂
  have hsteady := hsteady₁.trans hsteady₂
  have hkept := kept_fill_grows true true h.inv h₂ hg hpage hm trivial hzero (hfresh.mono hused hg₂)
  have hsame := sameDirectories_setEntry (some pid) page ⟨true, true, true, 0, f⟩ s₂
  have hmapping := mapping_setTable (e := ⟨true, true, true, 0, f⟩) h₂.structured hpage hm
  refine ⟨h.toKept.trans hkept, hsame.keepsSettled hs₂, ?_, fun q hq => ?_, fun q p hne => ?_,
    fun q hq => ?_, ?_⟩
  · rw [hsame.pageDirectory]
    exact (h₂.structured.table_present hm).1
  · rcases Classical.em (q = page) with rfl | hne
    · refine ⟨f, ?_, hlt, ?_⟩
      · rw [hmapping, if_pos ⟨rfl, rfl⟩]
        rfl
      · rw [refs_setEntry, hsteady₂.refs f hused, hone]
    · obtain ⟨g, hg', hlt', hone'⟩ := h.own q (hq.resolve_right hne)
      refine ⟨g, ?_, hlt', ?_⟩
      · rw [hmapping, if_neg fun heq => hne heq.2, hg.mapping, hg']
      · rw [refs_setEntry, hsteady.refs g (used_of_mapping h.inv zero_nonneg hg'), hone']
  · rw [hmapping, if_neg fun heq => hne ⟨heq.1, Or.inr heq.2⟩, hg.mapping]
    exact h.same q p fun heq => hne ⟨heq.1, Or.inl heq.2⟩
  · rw [unused_setEntry fun heq => hq (Or.inr heq), hunused₂]
    exact h.unused q fun hq' => hq (Or.inl hq')
  · rw [memory_setEntry, hg.memory, h.memory]

end

section

variable {slack : Nat → Nat} {s₀ s : Machine} {pid addr length cur : Nat} {N : Nat → Prop}

theorem fixedLoop_filled (h : Filled slack pid N s₀ s) (hle : length ≤ PAGE_COUNT)
    (hpages : ∀ page, Span length cur page → ¬N page ∧ Unused s₀ pid page) :
    Proceeds (fixedLoop (some pid) addr true true length cur) s fun r s' =>
      r = true ∧ Filled slack pid (fun q => N q ∨ Span length cur q) s₀ s' := by
  induction length generalizing s cur N with
  | zero => exact yields_pure ⟨rfl, h.congr fun q => (or_iff_left id).symm⟩
  | succ length ih =>
      obtain ⟨hnew, hunused⟩ := hpages (pageOf cur) (Or.inl rfl)
      rw [fixedLoop]
      refine h.take (pageOf_lt cur) hnew hunused fun f s₁ hm hs₁ h₁ => ?_
      rw [if_neg (not_not.mpr rfl)]
      refine yields_ok_bind (hs₁.storeEntry_ok (pageOf_lt cur) hm _) ?_
      refine (ih h₁ (by omega) fun page hpage => ?_).mono ?_
      · obtain ⟨hnew', hunused'⟩ := hpages page (Or.inr hpage)
        exact ⟨not_or.mpr ⟨hnew', span_ne hpage hle⟩, hunused'⟩
      · rintro r s' ⟨hr, hs'⟩
        exact ⟨hr, hs'.congr fun q => or_assoc⟩

theorem pagingAllocatePhysMemFixed_filled (h : Filled slack pid N s₀ s) (hle : length ≤ PAGE_COUNT)
    (hzero : pageOf addr ≠ 0)
    (hpages : ∀ page, Span length addr page → ¬N page ∧ Unused s₀ pid page) :
    Proceeds (pagingAllocatePhysMemFixed (some pid) addr length true true) s fun _ s' =>
      Filled slack pid (fun q => N q ∨ Span length addr q) s₀ s' := by
  rw [pagingAllocatePhysMemFixed, pagingTryAllocatePhysMemFixed, if_neg hzero]
  refine Yields.bind ((fixedLoop_filled h hle hpages).bind (R := fun r s' => r ≠ none ∧
    Filled slack pid (fun q => N q ∨ Span length addr q) s₀ s') ?_) ?_
  · rintro r s' ⟨rfl, hs'⟩
    exact yields_pure ⟨by simp, hs'⟩
  · rintro (_ | addr') s' ⟨hne, hs'⟩
    · exact (hne rfl).elim
    · exact yields_pure hs'

end

section

variable {α : Type} {slack : Nat → Nat} {s₀ : Machine} {s : Loader} {pid : Nat} {N : Nat → Prop}
  {base : Finset Nat} {pages : List RequiredPages} {E : Stop → Prop}

theorem yields_onMachine {m : M α} {Q : α → Machine → Prop} (h : Yields E m s.machine Q) :
    Yields E (onMachine m) s fun a s' => Q a s'.machine ∧ s'.blocks = s.blocks ∧
      s'.entryPoint = s.entryPoint := by
  refine yields_iff.mpr ⟨fun a s' hok => ?_, fun e herror => ?_⟩
  · rw [onMachine] at hok
    rcases hm : m s.machine with e | ⟨a', s₁⟩ <;> rw [hm] at hok
    · cases hok
    · cases hok
      exact ⟨h.of_ok hm, rfl, rfl⟩
  · rw [onMachine] at herror
    rcases hm : m s.machine with e' | ⟨a', s₁⟩ <;> rw [hm] at herror
    · cases herror
      exact h.of_error hm
    · cases herror

theorem covers_ranges_cons (it : RequiredPages) (rest : List RequiredPages) (n : Nat) :
    Covers (ranges (it :: rest)) n ↔ (it.range.start ≤ n ∧ n < it.range.stop) ∨
      Covers (ranges rest) n := by
  simp [Covers, ranges]

theorem span_range {i : Stretch Nat} (hlt : i.start < i.stop)
    (hpages : ∀ n, i.start ≤ n → n < i.stop → n < PAGE_COUNT) :
    i.stop - i.start ≤ PAGE_COUNT ∧ pageOf (i.start * PAGE_SIZE) = i.start ∧
      ∀ n, Span (i.stop - i.start) (i.start * PAGE_SIZE) n ↔ i.start ≤ n ∧ n < i.stop := by
  have hstop := hpages (i.stop - 1) (by omega) (by omega)
  have hpage : pageOf (i.start * PAGE_SIZE) = i.start := pageOf_mul (by omega)
  refine ⟨by omega, hpage, fun n => ?_⟩
  rw [span_iff (by omega), hpage]
  omega

/-- The pages of a range which are free are filled. -/
theorem allocateLoop_filled (h : Filled slack pid N s₀ s.machine) (hl : Listed base pages s)
    (hc : Canonical (ranges pages)) (hfree : ∀ n, Covers (ranges pages) n →
      n < PAGE_COUNT ∧ n ≠ 0 ∧ ¬N n ∧ Unused s₀ pid n) :
    Yields Lack (allocateLoop pid pages) s fun _ s' =>
      Filled slack pid (fun q => N q ∨ Covers (ranges pages) q) s₀ s'.machine ∧
        s'.entryPoint = s.entryPoint := by
  induction pages generalizing s N with
  | nil =>
      refine yields_pure ⟨h.congr fun q => (or_iff_left ?_).symm, rfl⟩
      rintro ⟨i, hi, -⟩
      cases hi
  | cons it rest ih =>
      obtain ⟨hlt, hbehind, hrest⟩ := canonical_cons_iff.mp hc
      have hrange := covers_ranges_cons it rest
      obtain ⟨hle, hpage, hspan⟩ := span_range hlt fun n hstart hstop =>
        (hfree n ((hrange n).mpr (Or.inl ⟨hstart, hstop⟩))).1
      have hzero : pageOf (it.range.start * PAGE_SIZE) ≠ 0 := by
        rw [hpage]
        exact (hfree _ ((hrange _).mpr (Or.inl ⟨le_rfl, hlt⟩))).2.1
      have hallocate := pagingAllocatePhysMemFixed_filled h hle hzero fun n hn =>
        (hfree n ((hrange n).mpr (Or.inl ((hspan n).mp hn)))).2.2
      rw [ElfLoader.allocateLoop]
      refine (yields_onMachine hallocate).bind ?_
      rintro _ s₁ ⟨h₁, hblocks, hentry⟩
      have hl₁ : Listed base (it :: rest) s₁ := ⟨hl.nodup, hl.new, hblocks.trans hl.blocks⟩
      obtain ⟨s₂, hfree₂, hsame, hl₂⟩ := heapFree_spec hl₁
      refine yields_ok_bind hfree₂ ?_
      rw [← hsame.machine] at h₁
      refine (ih h₁ hl₂ hrest fun n hn => ?_).mono ?_
      · obtain ⟨hlt', hne, hnew, hunused⟩ := hfree n ((hrange n).mpr (Or.inr hn))
        refine ⟨hlt', hne, not_or.mpr ⟨hnew, fun hn' => ?_⟩, hunused⟩
        obtain ⟨i, hi, hle, -⟩ := hn
        have := hbehind i hi
        have := (hspan n).mp hn'
        omega
      · rintro _ s' ⟨hs', hentry'⟩
        refine ⟨hs'.congr fun q => ?_, hentry'.trans (hsame.entryPoint.trans hentry)⟩
        rw [hspan, hrange, or_assoc]

end

section

variable {slack : Nat → Nat} {s s' : Machine} {pid addr length cur : Nat} {rw user : Bool}

/-- The pages of a block are unused if it can be allocated, and all others are used as before. -/
theorem fixedLoop_unused (h : Inv slack 0 s) (hle : length ≤ PAGE_COUNT)
    (hok : fixedLoop (some pid) addr rw user length cur s = .ok (true, s')) :
    (∀ page, Span length cur page → Unused s pid page) ∧
      ∀ page, ¬Span length cur page → (Unused s' pid page ↔ Unused s pid page) := by
  induction length generalizing s cur with
  | zero =>
      cases hok
      exact ⟨fun _ => False.elim, fun _ _ => Iff.rfl⟩
  | succ length ih =>
      rw [fixedLoop] at hok
      obtain ⟨f, s₁, h₁, hg, hm, hfresh, hgaps, hok⟩ := take_ok h (pageOf_lt cur) hok
      split at hok
      · obtain ⟨_, _, -, hok⟩ := bind_ok.mp hok
        obtain ⟨_, _, -, hok⟩ := bind_ok.mp hok
        cases hok
      next hzero =>
      have hzero := not_not.mp hzero
      obtain ⟨_, s₂, hstore, hok⟩ := bind_ok.mp hok
      obtain rfl := storeEntry_inv hstore
      have hkept := kept_fill_grows rw user h h₁ hg (pageOf_lt cur) hm trivial hzero hfresh
      obtain ⟨hunused, hrest⟩ := ih hkept.inv (by omega) hok
      have hother : ∀ page, page ≠ pageOf cur →
          (Unused (s₁.setEntry (some pid) (pageOf cur) ⟨true, rw, user, 0, f⟩) pid page ↔
            Unused s pid page) :=
        fun page hne => by rw [unused_setEntry hne, hgaps pid rfl]
      refine ⟨fun page hpage => ?_, fun page hpage => ?_⟩
      · rcases hpage with rfl | hpage
        · rw [← hgaps pid rfl]
          exact (entry_eq_zero_iff h₁.structured hm).mp hzero
        · exact (hother page (span_ne hpage hle)).mp (hunused page hpage)
      · obtain ⟨hne, hpage⟩ := not_or.mp hpage
        rw [hrest page hpage, hother page hne]

theorem pagingAllocatePhysMemFixed_unused {r : Nat} (h : Inv slack 0 s) (hle : length ≤ PAGE_COUNT)
    (hok : pagingAllocatePhysMemFixed (some pid) addr length rw user s = .ok (r, s')) :
    pageOf addr ≠ 0 ∧ (∀ page, Span length addr page → Unused s pid page) ∧
      ∀ page, ¬Span length addr page → (Unused s' pid page ↔ Unused s pid page) := by
  obtain ⟨r₁, s₁, htry, hok⟩ := bind_ok.mp hok
  rcases r₁ with _ | addr'
  · cases hok
  cases hok
  rw [pagingTryAllocatePhysMemFixed] at htry
  split at htry
  · cases htry
  next hzero =>
  obtain ⟨success, s₂, hloop, htry⟩ := bind_ok.mp htry
  rcases success with _ | _
  · cases htry
  · cases htry
    exact ⟨hzero, fixedLoop_unused h hle hloop⟩

end

section

variable {slack : Nat → Nat} {s s' : Loader} {pid : Nat} {pages : List RequiredPages}

theorem heapFree_same {block : Nat} {u : Unit} (hok : heapFree block s = .ok (u, s')) :
    SameMachine s s' := by
  obtain ⟨_, _, ⟨⟩, hok₁⟩ := bind_ok.mp hok
  split at hok₁ <;> cases hok₁
  exact ⟨rfl, rfl⟩

theorem allocateLoop_unused {u : Unit} (h : Inv slack 0 s.machine) (hc : Canonical (ranges pages))
    (hlt : ∀ n, Covers (ranges pages) n → n < PAGE_COUNT)
    (hok : allocateLoop pid pages s = .ok (u, s'))
    {n : Nat} (hn : Covers (ranges pages) n) : n ≠ 0 ∧ Unused s.machine pid n := by
  induction pages generalizing s with
  | nil =>
      obtain ⟨i, hi, -⟩ := hn
      cases hi
  | cons it rest ih =>
      obtain ⟨hlt', hbehind, hrest⟩ := canonical_cons_iff.mp hc
      obtain ⟨hle, hpage, hspan⟩ := span_range hlt' fun n hstart hstop =>
        hlt n ((covers_ranges_cons _ _ _).mpr (Or.inl ⟨hstart, hstop⟩))
      obtain ⟨r, s₁, hallocate, hok₁⟩ := bind_ok.mp hok
      obtain ⟨_, s₂, hfree, hok₂⟩ := bind_ok.mp hok₁
      obtain ⟨hallocate, -⟩ := onMachine_ok hallocate
      obtain ⟨hzero, hunused, hothers⟩ := pagingAllocatePhysMemFixed_unused h hle hallocate
      rw [hpage] at hzero
      have hmachine := (heapFree_same hfree).machine
      rcases (covers_ranges_cons _ _ _).mp hn with hn | hn
      · exact ⟨by omega, hunused n ((hspan n).mpr hn)⟩
      · have h₁ := (pagingAllocatePhysMemFixed_process h hallocate).inv
        obtain ⟨hne, hunused'⟩ := ih (hmachine ▸ h₁) hrest
          (fun n hn => hlt n ((covers_ranges_cons _ _ _).mpr (Or.inr hn))) hok₂ hn
        refine ⟨hne, (hothers n fun hn' => ?_).mp (hmachine ▸ hunused')⟩
        obtain ⟨i, hi, hle', -⟩ := hn
        have := hbehind i hi
        have := (hspan n).mp hn'
        omega

end

end Ibnos.LoadedPages
