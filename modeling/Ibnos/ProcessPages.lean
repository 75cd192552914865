import Ibnos.NewPages

/-!
The page tables of the processes: how they are looked up and created, and what
the loops of the paging functions do to them.
-/

namespace Ibnos.ProcessPages

open Ibnos.Memory
open Ibnos.Physmem
open Ibnos.Paging
open Ibnos.Programs
open Ibnos.References
open Ibnos.KernelPages
open Ibnos.Tallies

section

variable {slack : Nat → Nat} {P : Nat → ℤ} {s s' : Machine} {f pid page i k : Nat}

/-- A process gets other tables. At most one of them, `r₀`, is at a page which was free. -/
theorem structured_setProcess {pr : Process} (r₀ : Role) (h : Structured s)
    (hvalid : ProcessValid pr)
    (hhome : ∀ r k, home (s.setProcess pid pr) r = some k →
      home s r = some k ∧ backing (s.setProcess pid pr) r = backing s r ∨
      r = r₀ ∧ k < KERNEL_PAGE ∧ ¬Owned s k ∧
        s.translate k = some (backing (s.setProcess pid pr) r) ∧ (s.kernel k).rw = true) :
    Structured (s.setProcess pid pr) := by
  refine ⟨⟨h.self.1, h.self.2, h.self.3⟩, fun i hi => ?_, fun r k hk => ?_, fun r r' k hr hr' => ?_,
    fun q => ?_⟩
  · rcases h.tables i hi with hi | hi
    · exact Or.inl ⟨hi.1, hi.2⟩
    · exact Or.inr ⟨hi.1, hi.2, hi.3⟩
  · rcases hhome r k hk with ⟨hold, hback⟩ | ⟨-, hlt, -, htranslate, hrw⟩
    · rw [hback]
      exact h.homes r k hold
    · exact ⟨hlt, htranslate, hrw⟩
  · rcases hhome r k hr with ⟨hold, -⟩ | ⟨hr₀, -, hfree, -⟩ <;>
      rcases hhome r' k hr' with ⟨hold', -⟩ | ⟨hr₀', -, hfree', -⟩
    · exact h.unique r r' k hold hold'
    · exact (hfree' ⟨r, hold⟩).elim
    · exact (hfree ⟨r', hold'⟩).elim
    · rw [hr₀, hr₀']
  · rcases eq_or_ne q pid with rfl | hne
    · rw [setProcess_self]
      exact hvalid
    · rw [setProcess_of_ne hne]
      exact h.processes q

/-- The pages of the other processes stay where they are. -/
theorem homes_setProcess {pr : Process} {Q : Role → Nat → Prop}
    (hd : ∀ k, pr.pageDirectory = some k →
      (s.process pid).pageDirectory = some k ∧
        pr.directoryFrame = (s.process pid).directoryFrame ∨ Q (.directory pid) k)
    (ht : ∀ i k, pr.pageTables i = some k →
      (s.process pid).pageTables i = some k ∧
        (pr.directory i).frame = ((s.process pid).directory i).frame ∨ Q (.table pid i) k)
    (r : Role) (k : Nat) (hr : home (s.setProcess pid pr) r = some k) :
    home s r = some k ∧ backing (s.setProcess pid pr) r = backing s r ∨ Q r k := by
  cases r with
  | extra j => exact Or.inl ⟨hr, rfl⟩
  | directory q =>
      rcases eq_or_ne q pid with rfl | hne
      · simp only [home, backing, setProcess_self] at hr ⊢
        exact hd k hr
      · simp only [home, backing, setProcess_of_ne hne] at hr ⊢
        exact Or.inl ⟨hr, trivial⟩
  | table q j =>
      rcases eq_or_ne q pid with rfl | hne
      · simp only [home, backing, setProcess_self] at hr ⊢
        exact ht j k hr
      · simp only [home, backing, setProcess_of_ne hne] at hr ⊢
        exact Or.inl ⟨hr, trivial⟩

theorem names_setProcess (s : Machine) (pid : Nat) (pr : Process) (place : Place) :
    names (s.setProcess pid pr) place = match place with
      | .kernel page => names s (.kernel page)
      | .directory q i =>
          if q = pid then
            (if i < PAGETABLE_COUNT ∧ pr.pageDirectory.isSome ∧ (pr.directory i).present then
              some (pr.directory i).frame else none)
          else names s (.directory q i)
      | .table q page =>
          if q = pid then
            (if page < PAGE_COUNT ∧ pr.pageDirectory.isSome ∧
                (pr.directory (page / PAGETABLE_COUNT)).present ∧ (pr.table page).present then
              some (pr.table page).frame else none)
          else names s (.table q page) := by
  cases place with
  | kernel page => rfl
  | directory q i =>
      rcases eq_or_ne q pid with rfl | hne
      · simp only [names, setProcess_self, if_true]
      · simp only [names, setProcess_of_ne hne, if_neg hne]
  | table q page =>
      rcases eq_or_ne q pid with rfl | hne
      · simp only [names, mapping, setProcess_self, if_true]
        split <;> rfl
      · simp only [names, mapping, setProcess_of_ne hne, if_neg hne]

theorem names_process (place : Place) (pid : Nat) :
    names s place = match place with
      | .kernel page => names s (.kernel page)
      | .directory q i =>
          if q = pid then
            (if i < PAGETABLE_COUNT ∧ (s.process pid).pageDirectory.isSome ∧
                ((s.process pid).directory i).present then
              some ((s.process pid).directory i).frame else none)
          else names s (.directory q i)
      | .table q page =>
          if q = pid then
            (if page < PAGE_COUNT ∧ (s.process pid).pageDirectory.isSome ∧
                ((s.process pid).directory (page / PAGETABLE_COUNT)).present ∧
                ((s.process pid).table page).present then
              some ((s.process pid).table page).frame else none)
          else names s (.table q page) := by
  have := names_setProcess s pid (s.process pid) place
  have hself : s.setProcess pid (s.process pid) = s := by
    rw [Machine.setProcess, Function.update_eq_self]
  rw [hself] at this
  exact this

/-- A page of the kernel is the page table `i` of a process. -/
theorem inv_setPageTable (h : Inv slack P s) (hdir : (s.process pid).pageDirectory ≠ none)
    (hi : i < PAGETABLE_COUNT) (hentry : (s.process pid).directory i ≠ .zero)
    (hk : k < KERNEL_PAGE) (hfree : ¬Owned s k)
    (htranslate : s.translate k = some ((s.process pid).directory i).frame)
    (hrw : (s.kernel k).rw = true) :
    Inv slack P (s.setProcess pid ((s.process pid).setPageTable i (some k))) := by
  have hp := h.structured.processes pid
  refine h.of_names (structured_setProcess (.table pid i) h.structured
    ⟨fun h => (hdir h).elim, fun j k' hj => ?_, hp.directory, hp.orphans⟩
    (homes_setProcess (fun k' hk' => Or.inl ⟨hk', rfl⟩) fun j k' hj => ?_)) ?_ rfl rfl rfl rfl
  · rcases eq_or_ne j i with rfl | hne
    · exact ⟨hi, hentry⟩
    · simp only [Process.setPageTable, Function.update_of_ne hne] at hj
      exact hp.tables j k' hj
  · rcases eq_or_ne j i with rfl | hne
    · simp only [Process.setPageTable, Function.update_self] at hj
      cases hj
      refine Or.inr ⟨rfl, hk, hfree, ?_, hrw⟩
      simp only [backing, setProcess_self]
      exact htranslate
    · simp only [Process.setPageTable, Function.update_of_ne hne] at hj
      exact Or.inl ⟨hj, rfl⟩
  · funext place
    rw [names_setProcess, names_process place pid]
    rfl

/-- The page table `i` of a process is not mapped into the kernel any more. -/
theorem inv_dropPageTable (h : Inv slack P s) :
    Inv slack P (s.setProcess pid ((s.process pid).setPageTable i none)) := by
  have hp := h.structured.processes pid
  have hold : ∀ j k', ((s.process pid).setPageTable i none).pageTables j = some k' →
      (s.process pid).pageTables j = some k' := by
    intro j k' hj
    rcases eq_or_ne j i with rfl | hne
    · simp only [Process.setPageTable, Function.update_self] at hj
      cases hj
    · simpa only [Process.setPageTable, Function.update_of_ne hne] using hj
  refine h.of_names (structured_setProcess (.table pid i) h.structured
    ⟨fun hnone j => ?_, fun j k' hj => hp.tables j k' (hold j k' hj), hp.directory, hp.orphans⟩
    (homes_setProcess (fun k' hk' => Or.inl ⟨hk', rfl⟩) fun j k' hj =>
      Or.inl ⟨hold j k' hj, rfl⟩)) ?_ rfl rfl rfl rfl
  · rcases eq_or_ne j i with rfl | hne
    · exact Function.update_self ..
    · exact (Function.update_of_ne hne _ _).trans (hp.noTables hnone j)
  · funext place
    rw [names_setProcess, names_process place pid]
    rfl

/-- The entry `i` of a page directory is written while there are no entries below it. -/
theorem names_setDirectory {e : PagingEntry} (hdir : (s.process pid).pageDirectory ≠ none)
    (hi : i < PAGETABLE_COUNT)
    (hentries : ∀ page, page / PAGETABLE_COUNT = i → ((s.process pid).table page).present = false) :
    names (s.setProcess pid ((s.process pid).setDirectory i e)) =
      Function.update (names s) (.directory pid i) (named e) := by
  funext place
  rw [names_setProcess]
  cases place with
  | kernel page =>
      rw [Function.update_of_ne (by simp)]
  | directory q j =>
      rcases eq_or_ne q pid with rfl | hne
      · rcases eq_or_ne j i with rfl | hne
        · simp only [if_true, Function.update_self, Process.setDirectory, hi, true_and,
            Option.isSome_iff_ne_none.mpr hdir]
          rfl
        · rw [Function.update_of_ne (by simpa using hne), names_process _ q]
          simp only [Process.setDirectory, Function.update_of_ne hne]
      · rw [Function.update_of_ne (by simp [hne])]
        simp only [if_neg hne]
  | table q page =>
      rw [Function.update_of_ne (by simp)]
      rcases eq_or_ne q pid with rfl | hne
      · rw [names_process _ q]
        rcases eq_or_ne (page / PAGETABLE_COUNT) i with hpage | hne
        · simp only [Process.setDirectory, hentries page hpage, Bool.false_eq_true, and_false]
        · simp only [Process.setDirectory, Function.update_of_ne hne]
      · simp only [if_neg hne]

end

section

/-! The functions which release pages of the kernel do not look at the processes. -/

def withProcesses (s : Machine) (q : Nat → Process) : Machine := { s with process := q }

variable {α β : Type}

def Blind (m : M α) : Prop :=
  ∀ s q, m (withProcesses s q) = (m s).map fun r => (r.1, withProcesses r.2 q)

theorem blind_pure (a : α) : Blind (pure a) := fun _ _ => rfl

theorem blind_throw (e : Stop) : Blind (throw e : M α) := fun _ _ => rfl

theorem blind_modify {g : Machine → Machine}
    (hg : ∀ s q, g (withProcesses s q) = withProcesses (g s) q) : Blind (modify g) := by
  intro s q
  change Except.ok ((), g (withProcesses s q)) = _
  rw [hg]
  rfl

theorem Blind.bind {m : M α} {f : α → M β} (hm : Blind m) (hf : ∀ a, Blind (f a)) :
    Blind (m >>= f) := by
  intro s q
  rw [bind_apply, bind_apply, hm]
  rcases m s with e | ⟨a, s'⟩
  · rfl
  · exact hf a s' q

theorem blind_get_bind {f : Machine → M β} (hf : ∀ s q, f (withProcesses s q) = f s)
    (hb : ∀ s, Blind (f s)) : Blind (get >>= f) := by
  intro s q
  change f (withProcesses s q) (withProcesses s q) = (f s s).map _
  rw [hf]
  exact hb s s q

theorem blind_ite {c : Prop} {_ : Decidable c} {m m' : M α} (hm : Blind m) (hm' : Blind m') :
    Blind (if c then m else m') := by
  split
  · exact hm
  · exact hm'

theorem blind_check (b : Bool) : Blind (check b) :=
  blind_ite (blind_pure ()) (blind_throw _)

theorem blind_access (page frame : Nat) : Blind (access page frame) := by
  refine blind_get_bind (fun _ _ => rfl) fun s => blind_ite ?_ (blind_pure ())
  split
  · exact blind_throw _
  · exact blind_ite (blind_pure ()) (blind_throw _)

theorem blind_accessTable (page : Nat) : Blind (accessTable none page) :=
  blind_get_bind (fun _ _ => rfl) fun _ => blind_access _ _

theorem blind_loadEntry (page : Nat) : Blind (loadEntry none page) :=
  (blind_accessTable page).bind fun _ => blind_get_bind (fun _ _ => rfl) fun _ => blind_pure _

theorem blind_storeEntry (page : Nat) (e : PagingEntry) : Blind (storeEntry none page e) :=
  (blind_accessTable page).bind fun _ => blind_modify fun _ _ => rfl

theorem blind_requirePresent (e : PagingEntry) : Blind (requirePresent e) :=
  blind_ite (blind_pure ()) (blind_ite (blind_throw _) (blind_throw _))

theorem blind_accessInfo (index : Nat) : Blind (accessInfo index) := by
  refine blind_get_bind (fun _ _ => rfl) fun s => ?_
  split
  · exact blind_throw _
  · exact blind_access _ _

theorem blind_loadInfo (index : Nat) : Blind (loadInfo index) :=
  (blind_accessInfo index).bind fun _ => blind_get_bind (fun _ _ => rfl) fun _ => blind_pure _

theorem blind_storeInfo (index : Nat) (info : PhysMemExtraInfo) : Blind (storeInfo index info) :=
  (blind_accessInfo index).bind fun _ => blind_modify fun _ _ => rfl

theorem blind_allocLoop (lowmem : Bool) (tries : Nat) : Blind (allocLoop lowmem tries) := by
  cases tries with
  | zero => exact blind_throw _
  | succ tries =>
      refine blind_get_bind (fun _ _ => rfl) fun s => ?_
      split
      · exact (blind_modify fun _ _ => rfl).bind fun _ => blind_pure _
      · intro s q
        rfl

theorem blind_getKernelEntry (page : Nat) (alloc : Bool) : Blind (getKernelEntry page alloc) := by
  refine blind_get_bind (fun _ _ => rfl) fun s => (blind_access _ _).bind fun _ => ?_
  refine blind_get_bind (fun _ _ => rfl) fun s => ?_
  refine blind_ite (blind_ite ?_ (blind_pure _)) ?_
  · exact (blind_allocLoop _ _).bind fun _ => (blind_modify fun _ _ => rfl).bind fun _ =>
      blind_pure _
  · exact (blind_requirePresent _).bind fun _ => (blind_check _).bind fun _ => blind_pure _

theorem blind_getPhysMemExtraInfo (index : Nat) (alloc : Bool) :
    Blind (getPhysMemExtraInfo 0 index alloc) := by
  rw [getPhysMemExtraInfo]
  refine blind_get_bind (fun _ _ => rfl) fun s => (blind_check _).bind fun _ => ?_
  refine (blind_check _).bind fun _ => blind_get_bind (fun _ _ => rfl) fun s => ?_
  split
  · exact blind_pure _
  · exact blind_ite (blind_throw _) (blind_pure _)

theorem blind_freePage (index : Nat) : Blind (freePage index) :=
  (blind_modify fun _ _ => rfl).bind fun _ => blind_pure _

theorem blind_physMemReleasePage (index : Nat) : Blind (physMemReleasePage index) := by
  refine blind_get_bind (fun _ _ => rfl) fun s => (blind_check _).bind fun _ => ?_
  refine (blind_getPhysMemExtraInfo _ _).bind fun _ => blind_ite ?_ (blind_freePage _)
  refine (blind_loadInfo _).bind fun _ => blind_ite (blind_freePage _) ?_
  refine (blind_check _).bind fun _ => (blind_storeInfo _ _).bind fun _ => ?_
  exact blind_ite (blind_pure _) ((blind_storeInfo _ _).bind fun _ => blind_freePage _)

theorem blind_releaseEntry (page : Nat) (e : PagingEntry) : Blind (releaseEntry none page e) :=
  blind_ite ((blind_storeEntry _ _).bind fun _ => (blind_physMemReleasePage _).bind fun _ =>
    blind_pure _) (blind_ite (blind_storeEntry _ _) (blind_requirePresent _))

theorem blind_releaseLoop (skip : PagingEntry → Bool) (length cur : Nat) (success : Bool) :
    Blind (releaseLoop skip none length cur success) := by
  induction length generalizing cur success with
  | zero => exact blind_pure _
  | succ length ih =>
      refine (blind_getKernelEntry _ _).bind fun _ => blind_ite ?_ (ih _ _)
      refine (blind_loadEntry _).bind fun _ => blind_ite (ih _ _) ?_
      exact (blind_releaseEntry _ _).bind fun _ => ih _ _

theorem blind_pagingReleasePhysMem (addr length : Nat) :
    Blind (pagingReleasePhysMem none addr length) :=
  (blind_releaseLoop _ _ _ _).bind fun _ => blind_check _

/-- What such a function does is seen with any other processes. -/
theorem Blind.steps {m : M α} {s : Machine} {q : Nat → Process} {Q : α → Machine → Prop}
    (hm : Blind m) (h : Steps m (withProcesses s q) Q) :
    Steps m s fun a s' => Q a (withProcesses s' q) ∧ s'.process = s.process := by
  have hself := hm s s.process
  change m s = _ at hself
  rw [Steps, Yields, hm] at h
  rw [Steps, Yields]
  rcases hms : m s with e | ⟨a, s'⟩
  · rw [hms] at h
    exact h
  · rw [hms] at h hself
    refine ⟨h, ?_⟩
    have : s' = withProcesses s' s.process := (Prod.mk.inj (Except.ok.inj hself)).2
    rw [this]
    rfl

end

section

variable {slack : Nat → Nat} {P : Nat → ℤ} {s s' : Machine} {f pid page i k addr : Nat}

theorem inv_holdsTable (h : Inv slack P s) (b : Nat → Bool) :
    Inv slack P { s with holdsTable := b } :=
  h.of_sameTables (by constructor <;> rfl) ⟨h.recorded.1, h.recorded.2, h.recorded.3⟩ h.handedOut
    h.nonneg fun _ => by
      rw [sub_self]
      exact sub_self _

theorem lt_of_table (hi : i < PAGETABLE_COUNT) (hpage : page / PAGETABLE_COUNT = i) :
    page < PAGE_COUNT := by
  simp only [PAGE_COUNT, PAGETABLE_COUNT] at *
  omega

theorem structured_setDirectory {e : PagingEntry} (h : Structured s)
    (hnone : (s.process pid).pageTables i = none)
    (hentries : ∀ page, page / PAGETABLE_COUNT = i → ((s.process pid).table page).present = false)
    (he : e = .zero ∨ e.present = true ∧ e.avail = 0) :
    Structured (s.setProcess pid ((s.process pid).setDirectory i e)) := by
  have hp := h.processes pid
  have hother : ∀ j, j ≠ i → ((s.process pid).setDirectory i e).directory j =
      (s.process pid).directory j := fun j hj => Function.update_of_ne hj _ _
  have htables : ∀ j k, (s.process pid).pageTables j = some k → j ≠ i := by
    rintro j k hj rfl
    rw [hnone] at hj
    cases hj
  refine structured_setProcess (.table pid i) h ⟨hp.noTables, fun j k hj => ?_, fun hdir j hj => ?_,
    fun page hlt hpage => ?_⟩ (homes_setProcess (fun k' hk' => Or.inl ⟨hk', rfl⟩) fun j k' hj => ?_)
  · rw [hother j (htables j k hj)]
    exact hp.tables j k hj
  · rcases eq_or_ne j i with rfl | hne
    · simp only [Process.setDirectory, Function.update_self] at hj ⊢
      exact he.resolve_left hj
    · rw [hother j hne] at hj ⊢
      exact hp.directory hdir j hj
  · rcases eq_or_ne (page / PAGETABLE_COUNT) i with heq | hne
    · exact hentries page heq
    · rw [hother _ hne] at hpage
      exact hp.orphans page hlt hpage
  · refine Or.inl ⟨hj, ?_⟩
    rw [hother j (htables j k' hj)]

/-- A process gets a new page table. -/
theorem inv_addTable (h : Inv slack P s) (hdir : (s.process pid).pageDirectory ≠ none)
    (hi : i < PAGETABLE_COUNT) (hzero : (s.process pid).directory i = .zero) (f : Nat) :
    Inv slack (P - due (some f)) (Machine.addTable s pid i f) := by
  have hp := h.structured.processes pid
  have hnone : (s.process pid).pageTables i = none := by
    rcases hk : (s.process pid).pageTables i with _ | k
    · rfl
    · exact ((hp.tables i k hk).2 hzero).elim
  have hentries : ∀ page, page / PAGETABLE_COUNT = i →
      ((s.process pid).table page).present = false :=
    fun page hpage => hp.orphans page (lt_of_table hi hpage) (Or.inr (by rw [hpage]; exact hzero))
  have hname : names s (.directory pid i) = none := by
    simp [names, hzero, PagingEntry.zero]
  have := h.of_update (structured_setDirectory (e := ⟨true, true, true, 0, f⟩) h.structured hnone
    hentries (Or.inr ⟨rfl, rfl⟩)) _ _ (names_setDirectory hdir hi hentries) rfl rfl rfl rfl
  rw [hname, due_none, add_zero] at this
  exact inv_holdsTable this _

theorem inv_clearTable (h : Inv slack P s)
    (hentries : ∀ page, page / PAGETABLE_COUNT = i →
      ((s.process pid).table page).present = false) :
    Inv slack P (Machine.clearTable s pid i) := by
  have hp := h.structured.processes pid
  refine h.of_names (structured_setProcess (.table pid i) h.structured ⟨hp.noTables, hp.tables,
    hp.directory, fun page hlt hpage => ?_⟩ (homes_setProcess (fun k' hk' => Or.inl ⟨hk', rfl⟩)
      fun j k' hj => Or.inl ⟨hj, rfl⟩)) ?_ rfl rfl rfl rfl
  · simp only
    split
    · rfl
    · exact hp.orphans page hlt hpage
  · funext place
    rw [Machine.clearTable, names_setProcess, names_process place pid]
    cases place with
    | kernel page => rfl
    | directory q j => rfl
    | table q page =>
        simp only
        rcases eq_or_ne (page / PAGETABLE_COUNT) i with heq | hne
        · simp [heq, hentries page heq, PagingEntry.zero]
        · simp only [if_neg hne]

/-- A filled page becomes the page directory of a process which has none. -/
theorem inv_setPageDirectory {s₀ : Machine} (h : Inv slack P s)
    (hnone : (s.process pid).pageDirectory = none) (hk : pageOf addr < KERNEL_PAGE)
    (hfilled : Filled s₀ s true false (pageOf addr)) :
    Inv slack P (Machine.setPageDirectory s pid addr) := by
  have hp := h.structured.processes pid
  have hrw : (s.kernel (pageOf addr)).rw = true := by
    obtain ⟨f, hf, -⟩ := hfilled.entry
    rw [hf]
  refine inv_holdsTable (h.of_names (structured_setProcess (.directory pid) h.structured
    ⟨fun h => absurd h (by simp), fun j k hj => absurd hj (by simp), fun _ j hj => (hj rfl).elim,
      fun page hlt _ => ?_⟩
    (homes_setProcess (fun k hk' => ?_) fun j k hj => absurd hj (by simp))) ?_ rfl rfl rfl rfl) _
  · exact hp.orphans page hlt (Or.inl hnone)
  · cases hk'
    refine Or.inr ⟨rfl, hk, hfilled.free, ?_, hrw⟩
    simp only [backing, setProcess_self]
    exact hfilled.translate h.structured hk
  · funext place
    rw [names_setProcess, names_process place pid]
    cases place with
    | kernel page => rfl
    | directory q j => simp [hnone, PagingEntry.zero]
    | table q page => simp [hnone, PagingEntry.zero]

end

section

variable {slack : Nat → Nat} {P : Nat → ℤ} {s s' : Machine} {f pid page i k addr : Nat}
  {p : Option Nat}

theorem mapping_setProcess (s : Machine) (pid : Nat) (pr : Process) (q page : Nat) :
    mapping (s.setProcess pid pr) q page =
      if q = pid then
        (if page < PAGE_COUNT ∧ pr.pageDirectory.isSome ∧
            (pr.directory (page / PAGETABLE_COUNT)).present ∧ (pr.table page).present then
          some (pr.table page) else none)
      else mapping s q page := by
  rcases eq_or_ne q pid with rfl | hne
  · simp only [mapping, setProcess_self, if_true]
  · simp only [mapping, setProcess_of_ne hne, if_neg hne]

/-- The entry of a page whose table is there. -/
theorem mapping_of_mapped (h : Structured s) (hpage : page < PAGE_COUNT)
    (hm : Mapped s (some pid) page) :
    mapping s pid page = if (s.entry (some pid) page).present then some (s.entry (some pid) page)
      else none := by
  obtain ⟨hdir, hpresent, -⟩ := h.table_present hm
  simp only [mapping, hpage, Option.isSome_iff_ne_none.mpr hdir, hpresent, true_and]
  rfl

theorem grows_setPageTable (hg : KernelGrows s s') (hzero : s.kernel k = .zero)
    (hnone : (s.process pid).pageTables i = none) :
    Grows s (s'.setProcess pid ((s'.process pid).setPageTable i (some k))) := by
  refine ⟨hg.kernel, fun r k' hr => ?_, fun r k' hr => ?_, fun q page => ?_, hg.memory, hg.used,
    hg.holds⟩
  · have hr' := hg.homes r k' hr
    cases r with
    | extra j => exact hr'
    | directory q =>
        rcases eq_or_ne q pid with rfl | hne
        · simpa only [home, setProcess_self, Process.setPageTable] using hr'
        · simpa only [home, setProcess_of_ne hne] using hr'
    | table q j =>
        rcases eq_or_ne q pid with rfl | hne
        · have hji : j ≠ i := by
            rintro rfl
            rw [home, hnone] at hr
            cases hr
          simpa only [home, setProcess_self, Process.setPageTable, Function.update_of_ne hji]
            using hr'
        · simpa only [home, setProcess_of_ne hne] using hr'
  · have hr' : home s' r = some k' ∨ k' = k := by
      cases r with
      | extra j => exact Or.inl hr
      | directory q =>
          rcases eq_or_ne q pid with rfl | hne
          · exact Or.inl (by simpa only [home, setProcess_self, Process.setPageTable] using hr)
          · exact Or.inl (by simpa only [home, setProcess_of_ne hne] using hr)
      | table q j =>
          rcases eq_or_ne q pid with rfl | hne
          · rcases eq_or_ne j i with rfl | hji
            · simp only [home, setProcess_self, Process.setPageTable, Function.update_self] at hr
              exact Or.inr (Option.some.inj hr).symm
            · exact Or.inl (by simpa only [home, setProcess_self, Process.setPageTable,
                Function.update_of_ne hji] using hr)
          · exact Or.inl (by simpa only [home, setProcess_of_ne hne] using hr)
    rcases hr' with hr' | rfl
    · exact hg.fresh r k' hr'
    · exact Or.inr hzero
  · rw [← hg.mapping q page, mapping_setProcess]
    split
    · rename_i hq
      rw [hq]
      rfl
    · rfl

/-- Afterwards the page table is mapped into the kernel. -/
theorem mapPageTable_spec (h : Inv slack P s) (hP : ∀ f, 0 ≤ P f)
    (hdir : (s.process pid).pageDirectory ≠ none) (hi : i < PAGETABLE_COUNT)
    (hpresent : ((s.process pid).directory i).present = true) :
    Steps (mapPageTable pid i) s fun _ s' =>
      Inv slack P s' ∧ Grows s s' ∧ (s'.process pid).pageTables i ≠ none ∧
        (s'.process pid).directory = (s.process pid).directory ∧
        (s'.process pid).table = (s.process pid).table := by
  have hentry : (s.process pid).directory i ≠ .zero := by
    intro hzero
    rw [hzero] at hpresent
    cases hpresent
  rw [mapPageTable]
  refine yields_get_bind (yields_ite (fun hnone => ?_) fun hsome => ?_)
  · have hname : names s (.directory pid i) = some ((s.process pid).directory i).frame := by
      simp [names, hi, hpresent, Option.isSome_iff_ne_none.mpr hdir]
    have hused := (refs_pos_iff h.recorded).mp (h.refs_pos hname (hP _))
    refine (physMemAddRefPage_spec h hused).bind ?_
    rintro _ s₁ ⟨rfl, h₁, hg₁⟩
    refine (pagingMapPhysMem_spec h₁ true false).bind ?_
    rintro addr s₂ ⟨h₂, hg₂, hat⟩
    have hprocess : s₂.process = s.process := hg₂.process.trans hg₁.process
    have hzero : s.kernel (pageOf addr) = .zero := by
      by_contra hne
      exact hne (by rw [← hg₁.kernel _ hne, hat.unused])
    have hready := ready_of_ne_zero h₂.structured hat.lt (by
      rw [hat.entry]
      simp [PagingEntry.zero])
    refine yields_modify ⟨?_, grows_setPageTable (hg₁.trans hg₂) hzero hnone, ?_, ?_, ?_⟩
    · refine inv_setPageTable h₂ (by rw [hprocess]; exact hdir) hi (by rw [hprocess]; exact hentry)
        hat.lt hat.free ?_ (by rw [hat.entry])
      rw [translate_of_ready hready, hat.entry, hprocess]
      rfl
    · rw [setProcess_self, Process.setPageTable]
      simp
    · rw [setProcess_self, hprocess]
      rfl
    · rw [setProcess_self, hprocess]
      rfl
  · exact yields_pure ⟨h, Grows.refl s, hsome, rfl, rfl⟩

/-- The new page was not in use in the state `s`. -/
theorem grows_addTable (hg : Grows s s') (h : Structured s')
    (hzero : (s'.process pid).directory i = .zero) (hunused : used s f = false) :
    Grows s (Machine.addTable s' pid i f) := by
  have hhome : home (Machine.addTable s' pid i f) = home s' := by
    have : home (s'.setProcess pid ((s'.process pid).setDirectory i ⟨true, true, true, 0, f⟩)) =
        home s' := home_setProcess rfl rfl
    funext r
    rw [← this]
    cases r <;> rfl
  refine ⟨hg.kernel, fun r k hr => ?_, fun r k hr => ?_, fun q page => ?_, hg.memory, hg.used,
    fun g hg' => ?_⟩
  · rw [hhome]
    exact hg.homes r k hr
  · rw [hhome] at hr
    exact hg.fresh r k hr
  · rw [← hg.mapping q page]
    change mapping (s'.setProcess pid ((s'.process pid).setDirectory i ⟨true, true, true, 0, f⟩)) q
      page = _
    rw [mapping_setProcess]
    split
    · rename_i hq
      rw [hq, mapping]
      rcases eq_or_ne (page / PAGETABLE_COUNT) i with heq | hne
      · rcases Nat.lt_or_ge page PAGE_COUNT with hlt | hge
        · have := (h.processes pid).orphans page hlt (Or.inr (by rw [heq]; exact hzero))
          simp [Process.setDirectory, this]
        · simp [Nat.not_lt.mpr hge]
      · simp only [Process.setDirectory, Function.update_of_ne hne]
    · rfl
  · rcases eq_or_ne g f with rfl | hne
    · exact Or.inr hunused
    · exact hg.holds g ((Function.update_of_ne hne _ _).symm.trans hg')

theorem grows_clearTable (hentries : ∀ page, page / PAGETABLE_COUNT = i →
      ((s.process pid).table page).present = false) :
    Grows s (Machine.clearTable s pid i) := by
  have hhome : home (Machine.clearTable s pid i) = home s := home_setProcess rfl rfl
  refine ⟨fun _ _ => rfl, fun r k hr => by rw [hhome]; exact hr, fun r k hr => ?_, fun q page => ?_,
    rfl, fun _ h => h, fun _ h => Or.inl h⟩
  · rw [hhome] at hr
    exact Or.inl hr
  · rw [Machine.clearTable, mapping_setProcess]
    split
    · rename_i hq
      rw [hq, mapping]
      rcases eq_or_ne (page / PAGETABLE_COUNT) i with heq | hne
      · simp [heq, hentries page heq, PagingEntry.zero]
      · simp only [if_neg hne]
    · rfl

/-- There is no entry for a page of a process, or it is 0. -/
def Unused (s : Machine) (pid page : Nat) : Prop :=
  (s.process pid).directory (page / PAGETABLE_COUNT) = .zero ∨ (s.process pid).table page = .zero

theorem table_lt (hpage : page < PAGE_COUNT) : page / PAGETABLE_COUNT < PAGETABLE_COUNT := by
  simp only [PAGE_COUNT, PAGETABLE_COUNT] at *
  omega

theorem accessDirectory_steps {α : Type} {m : Unit → M α} {Q : α → Machine → Prop}
    (h : Structured s) (hm : (s.process pid).pageDirectory ≠ none → Steps (m ()) s Q) :
    Steps (accessDirectory pid >>= m) s Q := by
  refine Yields.bind (Q := fun _ s' => s' = s ∧ (s.process pid).pageDirectory ≠ none) ?_ ?_
  · rw [accessDirectory]
    refine yields_get_bind ?_
    dsimp only
    split
    · exact yields_throw (by simp [Excused])
    · rename_i k hk
      refine yields_of_ok (access_ok (h.homes (.directory pid) k hk).2.1) ⟨rfl, ?_⟩
      rw [hk]
      simp
  · rintro _ _ ⟨rfl, hdir⟩
    exact hm hdir

/-- Without a table there is no entry, and nothing happens unless one is asked for. -/
theorem getProcessEntry_spec (h : Inv slack P s) (hP : ∀ f, 0 ≤ P f) (hpage : page < PAGE_COUNT)
    (alloc : Bool) :
    Steps (getProcessEntry pid page alloc) s fun r s' =>
      Inv slack P s' ∧ Grows s s' ∧ (r = true → Mapped s' (some pid) page) ∧
        (alloc = true → r = true) ∧ (r = false → mapping s pid page = none) ∧
        ∀ q, Unused s' pid q ↔ Unused s pid q := by
  have hi := table_lt hpage
  rw [getProcessEntry]
  refine yields_get_bind (steps_check_bind fun _ => accessDirectory_steps h.structured fun hdir =>
    yields_get_bind ?_)
  refine yields_ite (fun hzero => yields_ite (fun _ => ?_) fun halloc => ?_) fun hne => ?_
  · have hentries : ∀ q, q / PAGETABLE_COUNT = page / PAGETABLE_COUNT →
        ((s.process pid).table q).present = false := fun q hq =>
      (h.structured.processes pid).orphans q (lt_of_table hi hq) (Or.inr (by rw [hq]; exact hzero))
    refine (physMemAllocPage_spec h false).bind ?_
    rintro f s₁ ⟨h₁, hsame, hg₁, hunused, -⟩
    rw [← hsame.process] at hdir hzero hentries
    have h₂ := inv_addTable h₁ hdir hi hzero f
    rw [add_sub_cancel_right] at h₂
    have hg₂ := grows_addTable hg₁.toGrows h₁.structured hzero hunused
    refine yields_modify_bind ?_
    have hprocess : (Machine.addTable s₁ pid (page / PAGETABLE_COUNT) f).process pid =
        (s₁.process pid).setDirectory (page / PAGETABLE_COUNT) ⟨true, true, true, 0, f⟩ :=
      setProcess_self
    refine (mapPageTable_spec h₂ hP (by rw [hprocess]; exact hdir) hi ?_).bind ?_
    · rw [hprocess]
      simp [Process.setDirectory]
    · rintro _ s₃ ⟨h₃, hg₃, hm, hdirectory, htable⟩
      refine yields_ok_bind (h₃.structured.accessTable_ok (p := some pid) hpage hm) ?_
      have hentries₃ : ∀ q, q / PAGETABLE_COUNT = page / PAGETABLE_COUNT →
          ((s₃.process pid).table q).present = false := by
        rw [htable, hprocess]
        exact hentries
      refine yields_modify_bind (yields_pure ⟨inv_clearTable h₃ hentries₃,
        hg₂.trans (hg₃.trans (grows_clearTable hentries₃)), fun _ => ?_, fun _ => rfl, by simp,
        fun q => ?_⟩)
      · rw [Mapped, Machine.clearTable, setProcess_self]
        exact hm
      · rw [Unused, Machine.clearTable, setProcess_self]
        rcases eq_or_ne (q / PAGETABLE_COUNT) (page / PAGETABLE_COUNT) with heq | hne
        · refine iff_of_true (Or.inr (if_pos heq)) (Or.inl ?_)
          rw [heq, ← hsame.process]
          exact hzero
        · simp only [if_neg hne]
          rw [hdirectory, htable, hprocess]
          simp only [Process.setDirectory, Function.update_of_ne hne]
          rw [hsame.process]
          rfl
  · refine yields_pure ⟨h, Grows.refl s, by simp, fun h => (halloc h).elim, fun _ => ?_,
      fun _ => Iff.rfl⟩
    simp [mapping, hzero, PagingEntry.zero]
  · refine steps_requirePresent_bind fun hpresent => steps_check_bind fun _ => ?_
    refine (mapPageTable_spec h hP hdir hi hpresent).bind ?_
    rintro _ s' ⟨h', hg, hm, hdirectory, htable⟩
    refine yields_pure ⟨h', hg, fun _ => hm, fun _ => rfl, by simp, fun q => ?_⟩
    rw [Unused, hdirectory, htable]
    rfl

/-- A process which had no page directory gets one. Seen from before its allocation the page was
not in use. -/
theorem grows_setPageDirectory (hg : KernelGrows s s')
    (hnone : (s.process pid).pageDirectory = none) (h : Structured s)
    (hfilled : Filled s s' true false (pageOf addr)) :
    Grows s (Machine.setPageDirectory s' pid addr) := by
  have hp := h.processes pid
  have hother : ∀ q, q ≠ pid → (Machine.setPageDirectory s' pid addr).process q = s.process q := by
    intro q hq
    rw [← hg.process]
    exact setProcess_of_ne hq
  have hself : (Machine.setPageDirectory s' pid addr).process pid = { s'.process pid with
      pageDirectory := some (pageOf addr), pageTables := fun _ => none,
      directory := fun _ => .zero, directoryFrame := (s'.kernel (pageOf addr)).frame } :=
    setProcess_self
  refine ⟨hg.kernel, fun r k hr => ?_, fun r k hr => ?_, fun q page => ?_, hg.memory, hg.used,
    fun f hf => ?_⟩
  · cases r with
    | extra i => exact hg.homes (.extra i) k hr
    | directory q =>
        rw [home, hother q (by rintro rfl; rw [home, hnone] at hr; cases hr)]
        exact hr
    | table q i =>
        rw [home, hother q (by rintro rfl; rw [home, hp.noTables hnone] at hr; cases hr)]
        exact hr
  · cases r with
    | extra i => exact hg.fresh (.extra i) k hr
    | directory q =>
        rcases eq_or_ne q pid with rfl | hq
        · rw [home, hself] at hr
          cases hr
          exact Or.inr hfilled.unused
        · rw [home, hother q hq] at hr
          exact Or.inl hr
    | table q i =>
        rcases eq_or_ne q pid with rfl | hq
        · rw [home, hself] at hr
          cases hr
        · rw [home, hother q hq] at hr
          exact Or.inl hr
  · rcases eq_or_ne q pid with rfl | hq
    · simp [mapping, hself, hnone, PagingEntry.zero]
    · rw [mapping, mapping, hother q hq]
  · obtain ⟨g, hentry, -, hunused⟩ := hfilled.entry
    rcases eq_or_ne f g with rfl | hne
    · exact Or.inr hunused
    · change Function.update s'.holdsTable (s'.kernel (pageOf addr)).frame true f = true at hf
      rw [hentry, Function.update_of_ne hne] at hf
      exact hg.holds f hf

theorem pagingAllocProcessPageTable_spec (h : Inv slack P s) :
    Steps (pagingAllocProcessPageTable pid) s fun _ s' =>
      Inv slack P s' ∧ Grows s s' ∧ (s'.process pid).pageDirectory ≠ none ∧
        ∀ i, (s'.process pid).directory i = .zero := by
  rw [pagingAllocProcessPageTable]
  refine yields_get_bind
    (steps_check_bind fun _ => yields_get_bind (steps_check_bind fun hnone => ?_))
  have hnone := Option.isNone_iff_eq_none.mp hnone
  refine (allocatePhysMem_kernel h 1 true false).bind ?_
  rintro addr s₁ ⟨h₁, hg, -, -, hend, hfilled⟩
  have hfilled := hfilled (pageOf addr) le_rfl (by omega)
  refine yields_modify
    ⟨inv_setPageDirectory h₁ (by rw [hg.process]; exact hnone) (by omega) hfilled,
    grows_setPageDirectory hg hnone h.structured hfilled, ?_, fun i => ?_⟩
  · rw [Machine.setPageDirectory]
    change ((s₁.setProcess pid _).process pid).pageDirectory ≠ none
    rw [setProcess_self]
    exact nofun
  · change ((s₁.setProcess pid _).process pid).directory i = .zero
    rw [setProcess_self]

theorem getPagingEntry_spec (h : Inv slack P s) (hP : ∀ f, 0 ≤ P f) (hpage : page < PAGE_COUNT)
    (p : Option Nat) (alloc : Bool) :
    Steps (getPagingEntry p page alloc) s fun r s' =>
      Inv slack P s' ∧ Grows s s' ∧ (r = true → Mapped s' p page) ∧ (alloc = true → r = true) ∧
        (p = none → home s' = home s) := by
  rcases p with _ | pid
  · refine (getKernelEntry_spec h hpage alloc).mono ?_
    rintro r s' ⟨h', hg, hextra, hm, hr, -⟩
    refine ⟨h', hg.toGrows, hm, hr, fun _ => ?_⟩
    funext role
    cases role <;> simp only [home, hextra, hg.process]
  · refine (getProcessEntry_spec h hP hpage alloc).mono ?_
    rintro r s' ⟨h', hg, hm, hr, -⟩
    exact ⟨h', hg, hm, hr, by simp⟩

end

end Ibnos.ProcessPages
