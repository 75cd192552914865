import Ibnos.Locality

/-!
The page table of a process is released: first its pages, then its page tables,
and its page directory last.
-/

namespace Ibnos.Teardowns

open Ibnos.Memory
open Ibnos.Physmem
open Ibnos.Paging
open Ibnos.Programs
open Ibnos.References
open Ibnos.KernelPages
open Ibnos.ProcessPages
open Ibnos.PagingOperations
open Ibnos.Forks
open Ibnos.NewPages
open Ibnos.Locality

section

variable {slack : Nat → Nat} {P : Nat → ℤ} {s s₀ s' : Machine} {f pid page i : Nat}

/-- Nothing is skipped. -/
def everything (_ : PagingEntry) : Bool := false

theorem dropPage_spec (h : Inv slack 0 s) (hpage : page < PAGE_COUNT)
    (hm : Mapped s (some pid) page) :
    Steps (dropPage pid page) s fun _ s' =>
      Dropped slack everything pid (· = page) s s' ∧ Local slack pid s s' ∧ home s' = home s := by
  have hnothing : (s.entry (some pid) page).present = false →
      Dropped slack everything pid (· = page) s s ∧ Local slack pid s s ∧ home s = home s := by
    intro habsent
    refine ⟨dropped_of_grows _ h h (Grows.refl s) fun q e hq he => ?_, Local.refl s, rfl⟩
    rw [hq, mapping_of_mapped h.structured hpage hm, habsent] at he
    cases he
  rw [dropPage]
  refine yields_ok_bind (h.structured.loadEntry_ok hpage hm) ?_
  refine yields_ite (fun hzero => yields_pure (hnothing (by rw [hzero]; rfl))) fun _ =>
    yields_ite (fun hpresent => ?_) fun habsent => ?_
  · have hclear := clear_spec h hpage hm
    rw [releaseEntry, if_pos hpresent] at hclear
    refine hclear.mono ?_
    rintro _ s' ⟨h', hsame, hholds⟩
    exact ⟨dropped_setEntry everything h hpage hm h' hsame hholds rfl,
      local_setEntry.trans (SameTables.local hsame), hsame.homes.trans home_setEntry⟩
  · refine yields_ite (fun _ => yields_pure (hnothing (by simpa using habsent))) fun _ => ?_
    exact steps_requirePresent fun hpresent => (habsent hpresent).elim

/-- The pages of a process are not mapped any more. -/
theorem dropPages_spec (h : Inv slack 0 s) :
    Steps (pagesLoop (some pid) (dropPage pid) PAGE_COUNT 0) s fun _ s' =>
      Inv slack 0 s' ∧ (Private s → Private s') ∧ Local slack pid s s' ∧ s'.memory = s.memory ∧
        (∀ page, mapping s' pid page = none) ∧ ∀ r k, home s r = some k → home s' r = some k := by
  let I : Nat → Machine → Prop := fun i s' =>
    Dropped slack everything pid (· < i) s s' ∧ Local slack pid s s' ∧
      ∀ r k, home s r = some k → home s' r = some k
  refine (pagesLoop_spec (I := I) (fun _ _ hI => hI.1.inv) ?_ ?_ ?_ (by omega) ?_).mono ?_
  rotate_right
  · rintro _ s' ⟨j, hj, hd, hl, hhome⟩
    refine ⟨hd.inv, hd.priv, hl, hd.memory, fun page => ?_, hhome⟩
    rcases Nat.lt_or_ge page PAGE_COUNT with hlt | hge
    · rw [hd.gone page (by omega)]
      exact Option.filter_eq_none_iff.mpr fun _ _ => nofun
    · exact mapping_eq_none hge
  · rintro i s₁ hi ⟨hd, hl, hhome⟩
    refine ((getProcessEntry_spec hd.inv zero_nonneg hi false).and
      (getProcessEntry_local hd.inv zero_nonneg hi false)).mono ?_
    rintro r s₂ ⟨⟨h₂, hg, -⟩, hl₂⟩
    refine ⟨(hd.trans (dropped_of_grows (fun _ => False) hd.inv h₂ hg fun _ _ => nofun)).mono ?_,
      hl.trans hl₂, fun r k hr => hg.homes r k (hhome r k hr)⟩
    exact fun page => or_iff_left id
  · rintro i j s₁ ⟨hd, hl, hhome⟩ hij hnone
    refine ⟨(hd.trans (dropped_of_grows (fun page => i ≤ page ∧ page < j) hd.inv hd.inv
      (Grows.refl s₁) fun page e hp he => ?_)).mono fun page => ?_, hl, hhome⟩
    · rw [hnone page hp.1 hp.2] at he
      cases he
    · omega
  · rintro i s₁ hi ⟨hd, hl, hhome⟩ hm
    refine (dropPage_spec hd.inv hi hm).mono ?_
    rintro _ s₂ ⟨hd₂, hl₂, hhome₂⟩
    refine ⟨(hd.trans hd₂).mono fun page => by omega, hl.trans hl₂, fun r k hr => ?_⟩
    rw [hhome₂]
    exact hhome r k hr
  · exact ⟨dropped_of_grows _ h h (Grows.refl s) fun _ _ hp => absurd hp (Nat.not_lt_zero _),
      Local.refl s, fun _ _ hr => hr⟩

end

section

/-! The pages of the kernel which show the tables of a process are released one by one. -/

variable {slack : Nat → Nat} {P : Nat → ℤ} {s s₀ s' : Machine} {f pid page i k : Nat}
  {q : Nat → Process}

/-- The page is not mapped any more. Its frame is still the one of a table when the release
starts, so the rest is said of the state in which it is not. -/
theorem releaseHome_spec (h : Inv slack 0 (withProcesses s q)) (hk : k < KERNEL_PAGE)
    (hfree : ¬Owned (withProcesses s q) k) :
    Steps (pagingReleasePhysMem none (k * PAGE_SIZE) 1) s fun _ s' =>
      Inv slack 0 (withProcesses s' q) ∧ s'.process = s.process ∧ Released (· = k) s s' ∧
        s'.kernel k = .zero := by
  have hspan : ∀ page, Span 1 (k * PAGE_SIZE) page ↔ page = k := fun page => by
    rw [span_one, pageOf_mul (kernel_lt hk)]
  have hpages : ∀ page, Span 1 (k * PAGE_SIZE) page →
      page < KERNEL_PAGE ∧ ¬Owned (withProcesses s q) page := by
    intro page hpage
    rw [(hspan page).mp hpage]
    exact ⟨hk, hfree⟩
  have hsteps := (pagingReleasePhysMem_kernel h zero_nonneg hpages).and
    (pagingReleasePhysMem_clears h zero_nonneg hpages)
  refine ((blind_pagingReleasePhysMem (k * PAGE_SIZE) 1).steps hsteps).mono ?_
  rintro _ s' ⟨⟨⟨h', hreleased⟩, hclear⟩, hprocess⟩
  refine ⟨h', hprocess, ?_, hclear k ((hspan k).mpr rfl)⟩
  refine ⟨fun page hne => hreleased.kernel page fun hp => hne ((hspan page).mp hp),
    hreleased.physMemExtra, hprocess, hreleased.memory, hreleased.holdsTable⟩

theorem names_released (hk : k < KERNEL_PAGE) (hr : Released (· = k) s s') (hne : page ≠ k) :
    names s' (.kernel page) = names s (.kernel page) := by
  rw [names, names, Machine.translate, Machine.translate, hr.kernel page hne,
    hr.kernel _ (window_ne hk _)]

theorem local_releaseHome (hk : k < KERNEL_PAGE) (hbelongs : Belongs s pid (.kernel k))
    (hr : Released (· = k) s s') (hzero : s'.kernel k = .zero)
    (hq : ∀ p, p ≠ pid → q p = s.process p)
    (hiff : ∀ page, page ≠ k →
      (Belongs (withProcesses s' q) pid (.kernel page) ↔ Belongs s pid (.kernel page))) :
    Local slack pid s (withProcesses s' q) := by
  have hprocess : ∀ p, p ≠ pid → (withProcesses s' q).process p = s.process p := hq
  refine ⟨hq, fun place f hplace hf => ?_, fun place f hplace hf => ?_, fun f _ => ?_⟩
  · cases place with
    | kernel page =>
        have hne : page ≠ k := by
          rintro rfl
          exact hplace hbelongs
        exact ⟨fun hb => hplace ((hiff page hne).mp hb), (names_released hk hr hne).trans hf⟩
    | directory p i =>
        exact ⟨hplace, (names_process_eq (hprocess p hplace) i).1.trans hf⟩
    | table p i =>
        exact ⟨hplace, (names_process_eq (hprocess p hplace) i).2.trans hf⟩
  · cases place with
    | kernel page =>
        have hne : page ≠ k := by
          rintro rfl
          exact (kernel_ne_zero_of_names hf).2 hzero
        exact Or.inl ⟨fun hb => hplace ((hiff page hne).mpr hb),
          (names_released hk hr hne).symm.trans hf⟩
    | directory p i =>
        exact Or.inl ⟨hplace, (names_process_eq (hprocess p hplace) i).1.symm.trans hf⟩
    | table p i =>
        exact Or.inl ⟨hplace, (names_process_eq (hprocess p hplace) i).2.symm.trans hf⟩
  · change s'.memory f = s.memory f
    rw [hr.memory]

theorem belongs_of_role {r : Role} (hr : r = .directory pid ∨ ∃ i, r = .table pid i)
    (hhome : home s r = some k) : Belongs s pid (.kernel k) := by
  rcases hr with rfl | ⟨i, rfl⟩
  · exact Or.inl hhome
  · exact Or.inr ⟨i, hhome⟩

/-- A page through which the kernel saw a table is released, and the process forgets it. -/
theorem dropHome_spec {r₀ : Role} (h : Structured s)
    (hrole : r₀ = .directory pid ∨ ∃ i, r₀ = .table pid i) (hhome : home s r₀ = some k)
    (hq : ∀ p, p ≠ pid → q p = s.process p) (h₁ : Inv slack 0 (withProcesses s q))
    (hhomes : ∀ r, home (withProcesses s q) r = if r = r₀ then none else home s r) :
    Steps (pagingReleasePhysMem none (k * PAGE_SIZE) 1) s fun _ s' =>
      Inv slack 0 (withProcesses s' q) ∧ s'.process = s.process ∧ s'.memory = s.memory ∧
        s'.holdsTable = s.holdsTable ∧ Local slack pid s (withProcesses s' q) := by
  obtain ⟨hlt, -, -⟩ := h.homes _ _ hhome
  have hfree : ¬Owned (withProcesses s q) k := by
    rintro ⟨r, hr⟩
    rw [hhomes] at hr
    split at hr
    · cases hr
    · rename_i hne
      exact hne (h.unique _ _ _ hr hhome)
  refine (releaseHome_spec h₁ hlt hfree).mono ?_
  rintro _ s' ⟨hinv, hprocess, hreleased, hzero⟩
  refine ⟨hinv, hprocess, hreleased.memory, hreleased.holdsTable, ?_⟩
  have hhome' : home (withProcesses s' q) = home (withProcesses s q) := by
    funext r
    cases r with
    | extra j => exact congrFun hreleased.physMemExtra j
    | directory p => rfl
    | table p j => rfl
  have hiff : ∀ page, page ≠ k → ∀ r, home (withProcesses s' q) r = some page ↔
      home s r = some page := by
    intro page hne r
    rw [hhome', hhomes]
    split
    · rename_i hr
      rw [hr, hhome]
      exact iff_of_false nofun fun heq => hne (Option.some.inj heq).symm
    · rfl
  refine local_releaseHome hlt (belongs_of_role hrole hhome) hreleased hzero hq fun page hne => ?_
  simp only [Belongs, hiff page hne]

end

section

variable {slack : Nat → Nat} {s s₀ s' : Machine} {f pid page i j k : Nat}

/-- The process has no pages, and the tables below `i` are gone. -/
structure Emptied (slack : Nat → Nat) (pid : Nat) (s₀ : Machine) (i : Nat) (s : Machine) : Prop
    where
  inv : Inv slack 0 s
  priv : Private s₀ → Private s
  memory : s.memory = s₀.memory
  loc : Local slack pid s₀ s
  directory : (s.process pid).pageDirectory ≠ none
  pages : ∀ page, mapping s pid page = none
  tables : ∀ j, j < i → (s.process pid).pageTables j = none ∧ (s.process pid).directory j = .zero

theorem present_of_mapping_none (h : Structured s) (hdir : (s.process pid).pageDirectory ≠ none)
    (hpage : page < PAGE_COUNT) (hnone : mapping s pid page = none) :
    ((s.process pid).table page).present = false := by
  rcases Classical.em ((s.process pid).directory (page / PAGETABLE_COUNT) = .zero) with hzero | hne
  · exact (h.processes pid).orphans page hpage (Or.inr hzero)
  · have hpresent := ((h.processes pid).directory hdir _ hne).1
    rcases ht : ((s.process pid).table page).present with _ | _
    · rfl
    · simp [mapping, hpage, hpresent, ht, Option.isSome_iff_ne_none.mpr hdir] at hnone

theorem private_of_process (hs : Private s) (hmapping : ∀ q page e, mapping s' q page = some e →
    mapping s q page = some e) (hholds : s'.holdsTable = s.holdsTable) : Private s' := by
  refine ⟨fun q page e q' page' e' he he' => hs.shared _ _ _ _ _ _ (hmapping _ _ _ he)
    (hmapping _ _ _ he'), fun q page e he => hs.marked _ _ _ (hmapping _ _ _ he),
    fun q page e he huser => ?_⟩
  rw [hholds]
  exact hs.data _ _ _ (hmapping _ _ _ he) huser

theorem home_setPageTable (r : Role) :
    home (s.setProcess pid ((s.process pid).setPageTable i none)) r =
      if r = .table pid i then none else home s r := by
  cases r with
  | extra j => rfl
  | directory p =>
      simp only [home, reduceCtorEq, if_false]
      rcases eq_or_ne p pid with rfl | hp
      · rw [setProcess_self]
        rfl
      · rw [setProcess_of_ne hp]
  | table p j =>
      simp only [home, Role.table.injEq]
      rcases eq_or_ne p pid with rfl | hp
      · rw [setProcess_self, Process.setPageTable]
        simp only [Function.update_apply, true_and]
      · rw [setProcess_of_ne hp, if_neg fun h => hp h.1]

theorem dropPageTable_spec (h : Emptied slack pid s₀ i s) :
    Steps (dropPageTable pid i) s fun _ s' =>
      Emptied slack pid s₀ i s' ∧ (s'.process pid).pageTables i = none := by
  rw [dropPageTable]
  refine yields_get_bind ?_
  split
  · rename_i k hk
    have hq : ∀ p, p ≠ pid → (s.setProcess pid ((s.process pid).setPageTable i none)).process p =
        s.process p := fun p hp => setProcess_of_ne hp
    refine (dropHome_spec h.inv.structured (Or.inr ⟨i, rfl⟩) hk hq (inv_dropPageTable h.inv)
      home_setPageTable).bind ?_
    rintro _ s₁ ⟨hinv, hprocess, hmemory, hholds, hlocal⟩
    have hs₁ : withProcesses s₁ (s.setProcess pid ((s.process pid).setPageTable i none)).process =
        s₁.setProcess pid ((s₁.process pid).setPageTable i none) := by
      rw [Machine.setProcess, Machine.setProcess, hprocess]
      rfl
    rw [hs₁] at hinv hlocal
    have hmapping : mapping (s₁.setProcess pid ((s₁.process pid).setPageTable i none)) =
        mapping s := by
      rw [← mapping_of_process hprocess]
      funext p page
      rw [mapping_setProcess]
      split
      · rename_i hp
        rw [hp]
        rfl
      · rfl
    refine yields_modify ⟨⟨hinv, fun hs => ?_, hmemory.trans h.memory, h.loc.trans hlocal, ?_, ?_,
      fun j hj => ?_⟩, ?_⟩
    · exact private_of_process (h.priv hs) (fun p page e he => by rwa [hmapping] at he) hholds
    · rw [setProcess_self, hprocess]
      exact h.directory
    · rw [hmapping]
      exact h.pages
    · rw [setProcess_self, hprocess, Process.setPageTable]
      refine ⟨?_, (h.tables j hj).2⟩
      simp only [Function.update_apply, (h.tables j hj).1, ite_self]
    · rw [setProcess_self, Process.setPageTable]
      exact Function.update_self ..
  · rename_i hnone
    exact yields_pure ⟨h, hnone⟩

end

section

variable {slack : Nat → Nat} {s s₀ s' : Machine} {f pid page i j k : Nat}

theorem mapping_setDirectory_zero (hentries : ∀ page, page / PAGETABLE_COUNT = i →
      ((s.process pid).table page).present = false) :
    mapping (s.setProcess pid ((s.process pid).setDirectory i .zero)) = mapping s := by
  funext q page
  rw [mapping_setProcess]
  split
  · rename_i hq
    rw [hq, mapping]
    rcases eq_or_ne (page / PAGETABLE_COUNT) i with heq | hne
    · simp [Process.setDirectory, hentries page heq]
    · simp only [Process.setDirectory, Function.update_of_ne hne]
  · rfl

theorem dropDirectoryEntry_spec (h : Emptied slack pid s₀ i s) (hi : i < PAGETABLE_COUNT)
    (hnone : (s.process pid).pageTables i = none) :
    Steps (dropDirectoryEntry pid i) s fun _ s' => Emptied slack pid s₀ (i + 1) s' := by
  rw [dropDirectoryEntry]
  refine accessDirectory_steps h.inv.structured fun hdir => yields_get_bind ?_
  refine yields_ite (fun hzero => yields_pure ?_) fun _ => ?_
  · refine ⟨h.inv, h.priv, h.memory, h.loc, h.directory, h.pages, fun j hj => ?_⟩
    rcases Nat.lt_succ_iff_lt_or_eq.mp hj with hj | rfl
    · exact h.tables j hj
    · exact ⟨hnone, hzero⟩
  · refine steps_requirePresent_bind fun hpresent => yields_modify_bind ?_
    have hentries : ∀ page, page / PAGETABLE_COUNT = i →
        ((s.process pid).table page).present = false := fun page hpage =>
      present_of_mapping_none h.inv.structured hdir (lt_of_table hi hpage) (h.pages page)
    have hmapping := mapping_setDirectory_zero hentries
    have hname : names s (.directory pid i) = some ((s.process pid).directory i).frame := by
      simp [names, hi, hpresent, Option.isSome_iff_ne_none.mpr hdir]
    have hinv := h.inv.of_update (structured_setDirectory (e := .zero) h.inv.structured hnone
      hentries (Or.inl rfl)) _ _ (names_setDirectory hdir hi hentries) rfl rfl rfl rfl
    rw [hname, named_zero, due_none, sub_zero] at hinv
    refine (physMemReleasePage_spec hinv le_rfl).bind ?_
    rintro _ s' ⟨h', hsame, hholds⟩
    have hpid : s'.process pid = (s.process pid).setDirectory i .zero := by
      rw [hsame.process]
      exact setProcess_self
    have hprocess : ∀ q, q ≠ pid →
        (s.setProcess pid ((s.process pid).setDirectory i .zero)).process q = s.process q :=
      fun q hq => setProcess_of_ne hq
    refine yields_pure ⟨h', fun hs => ?_, hsame.memory.trans h.memory, h.loc.trans ?_, ?_, ?_, ?_⟩
    · refine private_of_process (h.priv hs) (fun q page e he => ?_) hholds
      rwa [hsame.mapping, hmapping] at he
    · refine Local.trans (local_of_names hprocess (fun place hplace => ?_) (belongs_of_home
        (home_setProcess rfl rfl)) rfl) (SameTables.local hsame)
      cases place with
      | kernel page => rfl
      | directory q j => exact (names_process_eq (hprocess q hplace) j).1
      | table q page => exact (names_process_eq (hprocess q hplace) page).2
    · rw [hpid]
      exact hdir
    · intro page
      rw [hsame.mapping, hmapping]
      exact h.pages page
    · intro j hj
      rw [hpid, Process.setDirectory]
      rcases Nat.lt_succ_iff_lt_or_eq.mp hj with hj | rfl
      · refine ⟨(h.tables j hj).1, ?_⟩
        exact (Function.update_of_ne (by omega) _ _).trans (h.tables j hj).2
      · exact ⟨hnone, Function.update_self ..⟩

theorem dropTables_spec {rounds : Nat} (h : Emptied slack pid s₀ i s)
    (hrounds : i + rounds = PAGETABLE_COUNT) :
    Steps (dropTables pid rounds i) s fun _ s' => Emptied slack pid s₀ PAGETABLE_COUNT s' := by
  induction rounds generalizing s i with
  | zero =>
      rw [Nat.add_zero] at hrounds
      rw [← hrounds]
      exact yields_pure h
  | succ rounds ih =>
      rw [dropTables]
      refine (dropPageTable_spec h).bind ?_
      rintro _ s₁ ⟨h₁, hnone⟩
      refine (dropDirectoryEntry_spec h₁ (by omega) hnone).bind fun _ s₂ h₂ => ?_
      exact ih h₂ (by omega)

end

section

variable {slack : Nat → Nat} {s s₀ s' : Machine} {f pid page i j k : Nat}

theorem Emptied.noTables (h : Emptied slack pid s₀ PAGETABLE_COUNT s) (i : Nat) :
    (s.process pid).pageTables i = none := by
  rcases hk : (s.process pid).pageTables i with _ | k
  · rfl
  · rw [(h.tables i ((h.inv.structured.processes pid).tables i k hk).1).1] at hk
    cases hk

/-- A process without pages and tables gives up its page directory. -/
theorem inv_dropDirectory (h : Emptied slack pid s₀ PAGETABLE_COUNT s) :
    Inv slack 0 (s.setProcess pid { s.process pid with pageDirectory := none }) := by
  have hp := h.inv.structured.processes pid
  refine h.inv.of_names (structured_setProcess (.directory pid) h.inv.structured
    ⟨fun _ => h.noTables, hp.tables, fun hdir => (hdir rfl).elim, fun page hlt _ => ?_⟩
    (homes_setProcess nofun fun j k hj => Or.inl ⟨hj, rfl⟩)) ?_ rfl rfl rfl rfl
  · exact present_of_mapping_none h.inv.structured h.directory hlt (h.pages page)
  · funext place
    rw [names_setProcess]
    cases place with
    | kernel page => rfl
    | directory q j =>
        rcases eq_or_ne q pid with rfl | hq
        · simp only [names, Option.isSome_none, Bool.false_eq_true, false_and, and_false, if_false,
            if_true]
          rcases Nat.lt_or_ge j PAGETABLE_COUNT with hj | hj
          · simp [(h.tables j hj).2, PagingEntry.zero]
          · simp [Nat.not_lt.mpr hj]
        · exact if_neg hq
    | table q page =>
        rcases eq_or_ne q pid with rfl | hq
        · have := h.pages page
          simp [names, this]
        · exact if_neg hq

/-- A process has no memory any more. Nothing else changed. -/
structure TornDown (slack : Nat → Nat) (pid : Nat) (s s' : Machine) : Prop where
  inv : Inv slack 0 s'
  priv : Private s → Private s'
  memory : s'.memory = s.memory
  loc : Local slack pid s s'
  gone : (s'.process pid).pageDirectory = none

theorem home_dropDirectory (r : Role) :
    home (s.setProcess pid { s.process pid with pageDirectory := none }) r =
      if r = .directory pid then none else home s r := by
  cases r with
  | extra j => rfl
  | directory p =>
      simp only [home, Role.directory.injEq]
      rcases eq_or_ne p pid with rfl | hp
      · rw [setProcess_self, if_pos rfl]
      · rw [setProcess_of_ne hp, if_neg hp]
  | table p j =>
      simp only [home, reduceCtorEq, if_false]
      rcases eq_or_ne p pid with rfl | hp
      · rw [setProcess_self]
      · rw [setProcess_of_ne hp]

theorem dropDirectory_spec (h : Emptied slack pid s₀ PAGETABLE_COUNT s) :
    Steps (dropDirectory pid) s fun _ s' => TornDown slack pid s₀ s' := by
  rw [dropDirectory]
  refine yields_get_bind ?_
  split
  · rename_i k hk
    have hq : ∀ p, p ≠ pid →
        (s.setProcess pid { s.process pid with pageDirectory := none }).process p = s.process p :=
      fun p hp => setProcess_of_ne hp
    refine (dropHome_spec h.inv.structured (Or.inl rfl) hk hq (inv_dropDirectory h)
      home_dropDirectory).bind ?_
    rintro _ s₁ ⟨hinv, hprocess, hmemory, hholds, hlocal⟩
    have hs₁ : withProcesses s₁
        (s.setProcess pid { s.process pid with pageDirectory := none }).process =
          s₁.setProcess pid { s₁.process pid with pageDirectory := none } := by
      rw [Machine.setProcess, Machine.setProcess, hprocess]
      rfl
    rw [hs₁] at hinv hlocal
    refine yields_modify ⟨hinv, fun hs => ?_, hmemory.trans h.memory, h.loc.trans hlocal, ?_⟩
    · refine private_of_process (h.priv hs) (fun p page e he => ?_) hholds
      rw [mapping_setProcess] at he
      split at he
      · simp at he
      · rwa [mapping_of_process hprocess] at he
    · rw [setProcess_self]
  · exact yields_throw (by simp [Excused])

theorem pagingReleaseProcessPageTable_spec (h : Inv slack 0 s) :
    Steps (pagingReleaseProcessPageTable pid) s fun _ s' => TornDown slack pid s s' := by
  rw [pagingReleaseProcessPageTable]
  refine yields_get_bind
    (steps_check_bind fun _ => yields_get_bind (steps_check_bind fun hsome => ?_))
  refine (dropPages_spec h).bind ?_
  rintro _ s₁ ⟨h₁, hpriv, hlocal, hmemory, hpages, hhome⟩
  have hdir : (s₁.process pid).pageDirectory ≠ none := by
    obtain ⟨k, hk⟩ := Option.isSome_iff_exists.mp hsome
    have : (s₁.process pid).pageDirectory = some k := hhome (.directory pid) k hk
    rw [this]
    exact nofun
  refine (dropTables_spec ⟨h₁, hpriv, hmemory, hlocal, hdir, hpages,
    fun _ hj => absurd hj (Nat.not_lt_zero _)⟩ (Nat.zero_add _)).bind ?_
  exact fun _ s₂ h₂ => dropDirectory_spec h₂

end

end Ibnos.Teardowns
