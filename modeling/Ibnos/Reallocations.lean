import Mathlib.Data.Nat.Count
import Ibnos.FixedAllocations

/-!
A block of pages which grows or shrinks. Where its next page is in use the block is
moved to a free area first. Nothing is assumed here of the tables behind the entries
but what is seen of them: whatever returns has changed the entries in this way.
-/

namespace Ibnos.Reallocations

open Ibnos.Runs
open Ibnos.Memory
open Ibnos.Physmem
open Ibnos.Paging
open Ibnos.Programs
open Ibnos.References
open Ibnos.KernelPages
open Ibnos.ProcessPages
open Ibnos.PagingOperations
open Ibnos.PagingRuns
open Ibnos.PagingPrograms
open Ibnos.TableMappings
open Ibnos.FixedAllocations

section

/-- Only the tables of the kernel were changed, and no frame was freed. -/
structure Builds (s s' : Machine) : Prop where
  process : s'.process = s.process
  used : ∀ f, used s f = true → References.used s' f = true

variable {s s' : Machine} {f page : Nat} {p : Option Nat} {e : PagingEntry}

theorem builds_of_bits (hprocess : s'.process = s.process) (hmap : s'.physMemMap = s.physMemMap) :
    Builds s s' := by
  refine ⟨hprocess, fun f hf => ?_⟩
  rw [used, hmap]
  exact hf

theorem builds_refl (s : Machine) : Builds s s := builds_of_bits rfl rfl

theorem Builds.trans {s'' : Machine} (h : Builds s s') (h' : Builds s' s'') : Builds s s'' :=
  ⟨h'.process.trans h.process, fun f hf => h'.used f (h.used f hf)⟩

theorem builds_take (s : Machine) (f : Nat) : Builds s ((s.setBit f true).handOut f) := by
  refine ⟨rfl, fun g hg => ?_⟩
  change used (s.setBit f true) g = true
  rw [used_setBit]
  split
  · rfl
  · exact hg

theorem used_take (s : Machine) (f : Nat) : used ((s.setBit f true).handOut f) f = true := by
  change used (s.setBit f true) f = true
  rw [used_setBit, if_pos rfl]

theorem kernelClosed_builds : KernelClosed fun _ m => Keeps Builds m where
  pure := keeps_pure builds_refl
  throw := keeps_throw
  bind := Keeps.bind fun _ _ _ => Builds.trans
  get_bind _ hf := Keeps.bind (fun _ _ _ => Builds.trans) (keeps_get builds_refl) hf
  setKernel _ _ := keeps_modify fun _ => builds_of_bits rfl rfl
  setInfo _ _ := keeps_modify fun _ => builds_of_bits rfl rfl
  take f := keeps_modify fun s => builds_take s f
  setKernelTable _ _ := keeps_modify fun _ => builds_of_bits rfl rfl
  setExtra _ _ := keeps_modify fun _ => builds_of_bits rfl rfl

theorem physMemAllocPage_inv {lowmem : Bool} (hok : physMemAllocPage lowmem s = .ok (f, s')) :
    s' = (s.setBit f true).handOut f ∧ used s f = false ∧ f < PAGE_COUNT :=
  allocLoop_spec.of_ok hok

end

section

/-- The pages of the kernel below its page tables, and all pages of a process. -/
def Within (p : Option Nat) (page : Nat) : Prop := p = none → page < KERNEL_PAGE

def Tabled (s : Machine) (p : Option Nat) (page : Nat) : Prop :=
  directoryEntry s p (page / PAGETABLE_COUNT) ≠ .zero

/-- Nothing is left of the kernel's tables which are missing. -/
def Rooted (s : Machine) (p : Option Nat) : Prop :=
  ∀ page, Within p page → ¬Tabled s p page → contents s p page = .zero

/-- The kernel's page tables are still where it sees them. -/
def Windows (p : Option Nat) (s s' : Machine) : Prop :=
  ∀ page, ¬Within p page → contents s p page ≠ .zero → contents s' p page = contents s p page

/-- Tables without pages were added. -/
structure Extended (p : Option Nat) (s s' : Machine) : Prop where
  windows : Windows p s s'
  contents : ∀ page, Within p page → contents s' p page = FixedAllocations.contents s p page
  tabled : ∀ page, Within p page → Tabled s p page → Tabled s' p page
  used : ∀ f, used s f = true → References.used s' f = true

variable {s s' s'' : Machine} {f page q pid : Nat} {p : Option Nat} {e : PagingEntry}

theorem Windows.refl (p : Option Nat) (s : Machine) : Windows p s s := fun _ _ _ => rfl

theorem Windows.trans (h : Windows p s s') (h' : Windows p s' s'') : Windows p s s'' := by
  intro page hpage hne
  have heq := h page hpage hne
  rw [h' page hpage (by rw [heq]; exact hne), heq]

theorem windows_process (s s' : Machine) (pid : Nat) : Windows (some pid) s s' :=
  fun _ hpage _ => (hpage nofun).elim

theorem Extended.refl (p : Option Nat) (s : Machine) : Extended p s s :=
  ⟨Windows.refl p s, fun _ _ => rfl, fun _ _ h => h, fun _ h => h⟩

theorem Extended.trans (h : Extended p s s') (h' : Extended p s' s'') : Extended p s s'' where
  windows := h.windows.trans h'.windows
  contents page hpage := (h'.contents page hpage).trans (h.contents page hpage)
  tabled page hpage ht := h'.tabled page hpage (h.tabled page hpage ht)
  used f hf := h'.used f (h.used f hf)

theorem Extended.rooted (h : Extended p s s') (hr : Rooted s p) : Rooted s' p := by
  intro page hpage ht
  rw [h.contents page hpage]
  exact hr page hpage fun ht' => ht (h.tabled page hpage ht')

theorem rooted_process (s : Machine) (pid : Nat) : Rooted s (some pid) := by
  intro page _ ht
  exact if_pos (not_not.mp ht)

theorem contents_of_tabled (h : Tabled s p page) : contents s p page = s.entry p page := by
  cases p with
  | none => rfl
  | some pid => exact if_neg h

theorem directoryEntry_setEntry (hpage : Within p page) (i : Nat) :
    directoryEntry (s.setEntry p page e) p i = directoryEntry s p i := by
  cases p with
  | none =>
      have := hpage rfl
      refine Function.update_of_ne ?_ _ _
      omega
  | some pid =>
      rw [directoryEntry, Machine.setEntry, setProcess_self]
      rfl

theorem tabled_setEntry (hpage : Within p page) :
    Tabled (s.setEntry p page e) p q ↔ Tabled s p q := by
  rw [Tabled, directoryEntry_setEntry hpage]
  rfl

theorem contents_setEntry (hpage : Within p page) (ht : Tabled s p page) (q : Nat) :
    contents (s.setEntry p page e) p q = if q = page then e else contents s p q := by
  rcases eq_or_ne q page with rfl | hne
  · rw [if_pos rfl, contents_of_tabled ((tabled_setEntry hpage).mpr ht), entry_setEntry_self]
  · rw [if_neg hne]
    cases p with
    | none => exact Function.update_of_ne hne _ _
    | some pid =>
        rw [contents, contents, Machine.setEntry, setProcess_self]
        simp only [Process.setTable, Function.update_of_ne hne]

theorem windows_setEntry (hpage : Within p page) (ht : Tabled s p page) :
    Windows p s (s.setEntry p page e) := by
  intro q hq _
  rw [contents_setEntry hpage ht, if_neg]
  rintro rfl
  exact hq hpage

theorem rooted_setEntry (h : Rooted s p) (hpage : Within p page) (ht : Tabled s p page) :
    Rooted (s.setEntry p page e) p := by
  intro q hq htq
  rw [tabled_setEntry hpage] at htq
  rw [contents_setEntry hpage ht]
  split
  · next heq => exact (htq (heq ▸ ht)).elim
  · exact h q hq htq

end

section

variable {s s' : Machine} {page pid : Nat} {p : Option Nat} {alloc r : Bool}

/-- What is known after `__getPagingEntry`. -/
structure Found (p : Option Nat) (page : Nat) (alloc r : Bool) (s s' : Machine) : Prop where
  extended : Extended p s s'
  tabled : r = true → Tabled s' p page
  missing : r = false → ¬Tabled s' p page
  alloc : alloc = true → r = true

theorem kernel_setKernelTable (s : Machine) (i frame page : Nat) :
    (s.setKernelTable i frame).kernel page = if page / PAGETABLE_COUNT = i then .zero
      else if page = KERNEL_PAGE + i then ⟨true, true, true, 0, frame⟩ else s.kernel page := rfl

theorem window_div {i : Nat} (hi : i < PAGETABLE_COUNT) :
    (KERNEL_PAGE + i) / PAGETABLE_COUNT = 1023 := by
  simp only [KERNEL_PAGE, PAGETABLE_COUNT] at *
  omega

theorem table_lt_window (hpage : page < KERNEL_PAGE) : page / PAGETABLE_COUNT < 1023 := by
  simp only [KERNEL_PAGE, PAGETABLE_COUNT] at *
  omega

/-- A new page table of the kernel. -/
theorem extended_setKernelTable {f : Nat} (hr : Rooted s none) (hpage : page < KERNEL_PAGE)
    (hzero : s.kernel (KERNEL_PAGE + page / PAGETABLE_COUNT) = .zero) :
    Extended none s (((s.setBit f true).handOut f).setKernelTable (page / PAGETABLE_COUNT) f) := by
  have hlt := table_lt_window hpage
  refine ⟨fun q hq hne => ?_, fun q hq => ?_, fun q hq ht => ?_, (builds_take s f).used⟩
  · have hq : KERNEL_PAGE ≤ q := by
      by_contra hlt
      exact hq fun _ => by omega
    rw [contents, kernel_setKernelTable, if_neg, if_neg]
    · rfl
    · rintro rfl
      exact hne hzero
    · simp only [KERNEL_PAGE, PAGETABLE_COUNT] at *
      omega
  · rw [contents, kernel_setKernelTable]
    split
    · next heq =>
      refine (hr q hq ?_).symm
      rw [Tabled, heq]
      exact not_not.mpr hzero
    · rw [if_neg (Nat.ne_of_lt (Nat.lt_add_right _ (hq rfl)))]
      rfl
  · have hq := table_lt_window (hq rfl)
    rw [Tabled, directoryEntry, kernel_setKernelTable, if_neg]
    · split
      · rintro ⟨⟩
      · exact ht
    · rw [window_div (by simp only [PAGETABLE_COUNT] at *; omega)]
      omega

theorem getKernelEntry_found (hr : Rooted s none) (hpage : page < KERNEL_PAGE)
    (hok : getKernelEntry page alloc s = .ok (r, s')) : Found none page alloc r s s' := by
  rw [getKernelEntry] at hok
  obtain ⟨_, _, ⟨⟩, hok₁⟩ := bind_ok.mp hok
  obtain ⟨_, s₁, haccess, hok₂⟩ := bind_ok.mp hok₁
  obtain rfl := keeps_access _ _ _ _ _ haccess
  obtain ⟨_, _, ⟨⟩, hok₃⟩ := bind_ok.mp hok₂
  split at hok₃
  · next hzero =>
    split at hok₃
    · obtain ⟨f, s₂, halloc, hok₄⟩ := bind_ok.mp hok₃
      obtain ⟨rfl, -, -⟩ := physMemAllocPage_inv halloc
      obtain ⟨_, _, ⟨⟩, hok₅⟩ := bind_ok.mp hok₄
      cases hok₅
      refine ⟨extended_setKernelTable hr hpage hzero, fun _ => ?_, by simp, fun _ => rfl⟩
      have hlt := table_lt_window hpage
      rw [Tabled, directoryEntry, kernel_setKernelTable, if_neg, if_pos rfl]
      · rintro ⟨⟩
      · rw [window_div (by simp only [PAGETABLE_COUNT] at *; omega)]
        omega
    · cases hok₃
      exact ⟨Extended.refl _ _, by simp, fun _ => not_not.mpr hzero, fun halloc => by contradiction⟩
  · next hne =>
    obtain ⟨_, s₂, hpresent, hok₄⟩ := bind_ok.mp hok₃
    obtain rfl := requirePresent_inv hpresent
    obtain ⟨_, s₃, hcheck, hok₅⟩ := bind_ok.mp hok₄
    cases hok₅
    obtain ⟨-, rfl⟩ := check_inv hcheck
    exact ⟨Extended.refl _ _, fun _ => hne, by simp, fun _ => rfl⟩

/-- Mapping a page table into the kernel changes nothing that is seen through it. -/
theorem mapPageTable_extended {i : Nat} {u : Unit} (hok : mapPageTable pid i s = .ok (u, s')) :
    Extended (some pid) s s' ∧ directoryEntry s' (some pid) = directoryEntry s (some pid) := by
  rw [mapPageTable] at hok
  obtain ⟨_, _, ⟨⟩, hok₁⟩ := bind_ok.mp hok
  split at hok₁
  · obtain ⟨index, s₁, haddRef, hok₂⟩ := bind_ok.mp hok₁
    obtain ⟨addr, s₂, hmap, hok₃⟩ := bind_ok.mp hok₂
    cases hok₃
    have hbuilds := (kernelClosed_builds.physMemAddRefPage _ _ _ _ haddRef).trans
      (kernelClosed_builds.pagingMapPhysMem _ _ _ _ _ _ _ hmap)
    have hdirectory : directoryEntry (s₂.setProcess pid ((s₂.process pid).setPageTable i
        (some (pageOf addr)))) (some pid) = directoryEntry s (some pid) := by
      funext j
      rw [directoryEntry, directoryEntry, setProcess_self, hbuilds.process]
      rfl
    refine ⟨⟨windows_process _ _ _, fun page _ => ?_, fun page _ ht => ?_, hbuilds.used⟩,
      hdirectory⟩
    · rw [contents, contents, setProcess_self, hbuilds.process]
      rfl
    · rw [Tabled, hdirectory]
      exact ht
  · cases hok₁
    exact ⟨Extended.refl _ _, rfl⟩

end

section

variable {s s' : Machine} {page pid i frame : Nat} {p : Option Nat} {alloc r : Bool}

theorem directoryEntry_addTable (j : Nat) :
    directoryEntry (Machine.addTable s pid i frame) (some pid) j =
    if j = i then ⟨true, true, true, 0, frame⟩ else directoryEntry s (some pid) j := by
  simp only [directoryEntry, Machine.addTable, setProcess_self, Process.setDirectory,
    Function.update_apply]

theorem directoryEntry_clearTable : directoryEntry (Machine.clearTable s pid i) (some pid) =
    directoryEntry s (some pid) := by
  funext j
  simp only [directoryEntry, Machine.clearTable, setProcess_self]

theorem contents_addTable (hne : page / PAGETABLE_COUNT ≠ i) :
    contents (Machine.addTable s pid i frame) (some pid) page = contents s (some pid) page := by
  simp only [contents, Machine.addTable, setProcess_self, Process.setDirectory,
    Function.update_of_ne hne]

theorem contents_clearTable : contents (Machine.clearTable s pid i) (some pid) page =
    if page / PAGETABLE_COUNT = i then .zero else contents s (some pid) page := by
  simp only [contents, Machine.clearTable, setProcess_self]
  split <;> split <;> rfl

theorem getProcessEntry_found (hok : getProcessEntry pid page alloc s = .ok (r, s')) :
    Found (some pid) page alloc r s s' := by
  rw [getProcessEntry] at hok
  obtain ⟨_, _, ⟨⟩, hok₁⟩ := bind_ok.mp hok
  obtain ⟨_, s₁, hcheck, hok₂⟩ := bind_ok.mp hok₁
  obtain ⟨-, rfl⟩ := check_inv hcheck
  obtain ⟨_, s₂, haccess, hok₃⟩ := bind_ok.mp hok₂
  obtain rfl := keeps_accessDirectory _ _ _ _ haccess
  obtain ⟨_, _, ⟨⟩, hok₄⟩ := bind_ok.mp hok₃
  split at hok₄
  · next hzero =>
    split at hok₄
    · obtain ⟨f, s₃, halloc, hok₅⟩ := bind_ok.mp hok₄
      obtain ⟨rfl, -, -⟩ := physMemAllocPage_inv halloc
      obtain ⟨_, _, ⟨⟩, hok₆⟩ := bind_ok.mp hok₅
      obtain ⟨_, s₅, hmap, hok₇⟩ := bind_ok.mp hok₆
      obtain ⟨_, s₆, htable, hok₈⟩ := bind_ok.mp hok₇
      obtain rfl := keeps_accessTable _ _ _ _ _ htable
      obtain ⟨_, _, ⟨⟩, hok₉⟩ := bind_ok.mp hok₈
      cases hok₉
      obtain ⟨hextended, hdirectory⟩ := mapPageTable_extended hmap
      have hnew : ∀ q, directoryEntry (Machine.clearTable s₅ pid (page / PAGETABLE_COUNT))
        (some pid)
          (q / PAGETABLE_COUNT) = if q / PAGETABLE_COUNT = page / PAGETABLE_COUNT then
            ⟨true, true, true, 0, f⟩ else directoryEntry s₁ (some pid) (q / PAGETABLE_COUNT) := by
        intro q
        rw [directoryEntry_clearTable, hdirectory, directoryEntry_addTable]
        rfl
      refine ⟨⟨windows_process _ _ _, fun q hq => ?_, fun q hq ht => ?_, fun g hg => ?_⟩,
        fun _ => ?_,
        (by simp), fun _ => rfl⟩
      · rw [contents_clearTable]
        split
        · next heq =>
          refine (if_pos ?_).symm
          rw [heq]
          exact hzero
        · next hne =>
          rw [hextended.contents q hq, contents_addTable hne]
          rfl
      · rw [Tabled, hnew]
        split
        · rintro ⟨⟩
        · exact ht
      · exact hextended.used g ((builds_take s₁ f).used g hg)
      · rw [Tabled, hnew, if_pos rfl]
        rintro ⟨⟩
    · cases hok₄
      exact ⟨Extended.refl _ _, by simp, fun _ => not_not.mpr hzero, fun halloc => by contradiction⟩
  · next hne =>
    obtain ⟨_, s₃, hpresent, hok₅⟩ := bind_ok.mp hok₄
    obtain rfl := requirePresent_inv hpresent
    obtain ⟨_, s₄, hcheck', hok₆⟩ := bind_ok.mp hok₅
    obtain ⟨-, rfl⟩ := check_inv hcheck'
    obtain ⟨_, s₅, hmap, hok₇⟩ := bind_ok.mp hok₆
    cases hok₇
    obtain ⟨hextended, hdirectory⟩ := mapPageTable_extended hmap
    refine ⟨hextended, fun _ => ?_, by simp, fun _ => rfl⟩
    rw [Tabled, hdirectory]
    exact hne

theorem getPagingEntry_found (hr : Rooted s p) (hpage : Within p page)
    (hok : getPagingEntry p page alloc s = .ok (r, s')) : Found p page alloc r s s' := by
  cases p with
  | none => exact getKernelEntry_found hr (hpage rfl) hok
  | some pid => exact getProcessEntry_found hok

end

section

variable {s s' : Machine} {addr length : Nat} {p : Option Nat}

/-- A free area. -/
structure Area (s : Machine) (p : Option Nat) (length addr : Nat) : Prop where
  aligned : addr = pageOf addr * PAGE_SIZE
  pos : 1 ≤ pageOf addr
  fits : pageOf addr + length ≤ KERNEL_PAGE
  free : ∀ q, pageOf addr ≤ q → q < pageOf addr + length → contents s p q = .zero

theorem area_of_free {start i : Nat} (hstart : 1 ≤ start) (hle : start ≤ i) (hi : i < KERNEL_PAGE)
    (hlength : length ≤ KERNEL_PAGE) (hend : lastPage start length ≤ i)
    (hfree : ∀ q, start ≤ q → q ≤ i → contents s p q = .zero) :
    Area s p length (start * PAGE_SIZE) := by
  have hpage : pageOf (start * PAGE_SIZE) = start := pageOf_mul (kernel_lt (by omega))
  have hfits : start + length ≤ i + 1 := by
    unfold lastPage at hend
    simp only [KERNEL_PAGE] at *
    omega
  refine ⟨by rw [hpage], by omega, by omega, fun q hq hlt => ?_⟩
  rw [hpage] at hq hlt
  exact hfree q hq (by omega)

theorem searchLoop_area {rounds i start : Nat} (hr : Rooted s p) (hlength : length ≤ KERNEL_PAGE)
    (hstart : 1 ≤ start) (hle : start ≤ i)
    (hfree : ∀ q, start ≤ q → q < i → contents s p q = .zero)
    (hok : searchLoop (getPagingEntry p) p length rounds i start s = .ok (some addr, s')) :
    Area s' p length addr ∧ Extended p s s' := by
  induction rounds generalizing s i start with
  | zero => cases hok
  | succ rounds ih =>
      rw [searchLoop] at hok
      split at hok
      · next hi =>
        obtain ⟨r, s₁, hentry, hok₁⟩ := bind_ok.mp hok
        have hfound := getPagingEntry_found hr (fun _ => hi) hentry
        have hr₁ := hfound.extended.rooted hr
        have hfree₁ : ∀ q, start ≤ q → q < i → contents s₁ p q = .zero := fun q hq hlt => by
          rw [hfound.extended.contents q fun _ => by omega]
          exact hfree q hq hlt
        have hnext : ∀ i' start', 1 ≤ start' → start' ≤ i' →
            (∀ q, start' ≤ q → q < i' → contents s₁ p q = .zero) →
            searchLoop (getPagingEntry p) p length rounds i' start' s₁ = .ok (some addr, s') →
            Area s' p length addr ∧ Extended p s s' := by
          intro i' start' hone hle' hfree' hloop
          obtain ⟨harea, hextended⟩ := ih hr₁ hone hle' hfree' hloop
          exact ⟨harea, hfound.extended.trans hextended⟩
        split at hok₁
        · next htable =>
          obtain ⟨e, s₂, hload, hok₂⟩ := bind_ok.mp hok₁
          obtain ⟨rfl, rfl⟩ := loadEntry_inv hload
          rw [← contents_of_tabled (hfound.tabled htable)] at hok₂
          split at hok₂
          · exact hnext _ _ (by omega) le_rfl (fun q hq hlt => by omega) hok₂
          · next hzero =>
            have hfree₂ : ∀ q, start ≤ q → q ≤ i → contents s₂ p q = .zero := by
              intro q hq hqi
              rcases Nat.eq_or_lt_of_le hqi with rfl | hlt
              · exact not_not.mp hzero
              · exact hfree₁ q hq hlt
            split at hok₂
            · next hend =>
              cases hok₂
              exact ⟨area_of_free hstart hle hi hlength hend hfree₂, hfound.extended⟩
            · exact hnext _ _ hstart (by omega) (fun q hq hlt => hfree₂ q hq (by omega)) hok₂
        · next htable =>
          have hmask : i ≤ i ||| 0x3FF ∧ i ||| 0x3FF < KERNEL_PAGE := by
            rw [or_mask]
            simp only [KERNEL_PAGE] at *
            omega
          -- the whole table is missing
          have hfree₂ : ∀ q, start ≤ q → q ≤ i ||| 0x3FF → contents s₁ p q = .zero := by
            intro q hq hqi
            rcases Nat.lt_or_ge q i with hlt | hge
            · exact hfree₁ q hq hlt
            · have hsame : q / PAGETABLE_COUNT = i / PAGETABLE_COUNT := by
                rw [or_mask] at hqi
                simp only [PAGETABLE_COUNT]
                omega
              refine hr₁ q (fun _ => by omega) ?_
              rw [Tabled, hsame]
              exact hfound.missing (by simpa using htable)
          split at hok₁
          · next hend =>
            cases hok₁
            exact ⟨area_of_free hstart (by omega) hmask.2 hlength hend hfree₂, hfound.extended⟩
          · exact hnext _ _ hstart (by omega) (fun q hq hlt => hfree₂ q hq (by omega)) hok₁
      · cases hok

theorem pagingSearchArea_area (hr : Rooted s p) (hlength : length ≤ KERNEL_PAGE)
    (hok : pagingSearchArea p length s = .ok (addr, s')) :
    Area s' p length addr ∧ Extended p s s' := by
  rw [pagingSearchArea] at hok
  obtain ⟨r, s₁, hsearch, hok₁⟩ := bind_ok.mp hok
  rcases r with _ | addr'
  · cases hok₁
  · cases hok₁
    rw [pagingTrySearchArea, trySearchArea] at hsearch
    split at hsearch
    · cases hsearch
    · exact searchLoop_area hr hlength le_rfl le_rfl (fun q hq hlt => by omega) hsearch

end

section

variable {s s' : Machine} {p : Option Nat}

/-- The entries after a block was moved. -/
def moved (c : Nat → PagingEntry) (dst src length q : Nat) : PagingEntry :=
  if dst ≤ q ∧ q < dst + length then c (src + (q - dst))
  else if src ≤ q ∧ q < src + length then .zero else c q

theorem moved_succ {c c' : Nat → PagingEntry} {W : Nat → Prop} {dst src length q : Nat}
    (hapart : dst + (length + 1) ≤ src ∨ src + (length + 1) ≤ dst)
    (hc : ∀ q, W q → c' q = if q = src then .zero else if q = dst then c src else c q)
    (hsrc : ∀ q, src ≤ q → q < src + (length + 1) → W q) (hq : W q) :
    moved c' (dst + 1) (src + 1) length q = moved c dst src (length + 1) q := by
  rcases Nat.lt_or_ge q dst with hlt | hge
  · rw [moved, moved, hc q hq]
    grind
  · rcases Nat.lt_or_ge q (dst + (length + 1)) with hin | hout
    · have hback : W (src + (q - dst)) := hsrc _ (by omega) (by omega)
      have heq : q ≠ dst → src + 1 + (q - (dst + 1)) = src + (q - dst) := by omega
      rw [moved, moved, hc q hq]
      grind
    · rw [moved, moved, hc q hq]
      grind

theorem moveLoop_moved {length dst_cur src_cur : Nat} (hr : Rooted s p)
    (hsrc : pageOf src_cur + length ≤ KERNEL_PAGE) (hdst : pageOf dst_cur + length ≤ KERNEL_PAGE)
    (hapart : pageOf dst_cur + length ≤ pageOf src_cur ∨ pageOf src_cur + length ≤ pageOf dst_cur)
    {u : Unit} (hok : moveLoop p length dst_cur src_cur s = .ok (u, s')) :
    Rooted s' p ∧ Windows p s s' ∧ (∀ f, used s f = true → used s' f = true) ∧
      ∀ q, Within p q →
        contents s' p q = moved (contents s p) (pageOf dst_cur) (pageOf src_cur) length q := by
  induction length generalizing s dst_cur src_cur with
  | zero =>
      cases hok
      refine ⟨hr, Windows.refl p _, fun f hf => hf, fun q _ => ?_⟩
      rw [moved, if_neg (by omega), if_neg (by omega)]
  | succ length ih =>
      have hsrcW : Within p (pageOf src_cur) := fun _ => by omega
      have hdstW : Within p (pageOf dst_cur) := fun _ => by omega
      have hnext : pageOf (nextPage src_cur) = pageOf src_cur + 1 ∧
          pageOf (nextPage dst_cur) = pageOf dst_cur + 1 := by
        have hlt : KERNEL_PAGE < PAGE_COUNT := by decide
        exact ⟨pageOf_nextPage (by omega), pageOf_nextPage (by omega)⟩
      rw [moveLoop] at hok
      obtain ⟨r, s₁, hentry, hok₁⟩ := bind_ok.mp hok
      have hfound := getPagingEntry_found hr hsrcW hentry
      have hr₁ := hfound.extended.rooted hr
      obtain ⟨_, s₂, hcheck, hok₂⟩ := bind_ok.mp hok₁
      obtain ⟨htable, rfl⟩ := check_inv hcheck
      obtain ⟨e, s₃, hload, hok₃⟩ := bind_ok.mp hok₂
      obtain ⟨rfl, rfl⟩ := loadEntry_inv hload
      obtain ⟨_, s₄, hcheck', hok₄⟩ := bind_ok.mp hok₃
      obtain ⟨-, rfl⟩ := check_inv hcheck'
      obtain ⟨r', s₅, hentry', hok₅⟩ := bind_ok.mp hok₄
      have hfound' := getPagingEntry_found hr₁ hdstW hentry'
      have hr₅ := hfound'.extended.rooted hr₁
      have htsrc := hfound'.extended.tabled _ hsrcW (hfound.tabled htable)
      have htdst := hfound'.tabled (hfound'.alloc rfl)
      have hsame := (hfound.extended.trans hfound'.extended).contents
      obtain ⟨e', s₆, hload', hok₆⟩ := bind_ok.mp hok₅
      obtain ⟨rfl, rfl⟩ := loadEntry_inv hload'
      obtain ⟨_, s₇, hcheck'', hok₇⟩ := bind_ok.mp hok₆
      obtain ⟨-, rfl⟩ := check_inv hcheck''
      obtain ⟨e'', s₈, hload'', hok₈⟩ := bind_ok.mp hok₇
      obtain ⟨rfl, rfl⟩ := loadEntry_inv hload''
      rw [← contents_of_tabled htsrc] at hok₈
      obtain ⟨_, s₉, hstore, hok₉⟩ := bind_ok.mp hok₈
      obtain rfl := storeEntry_inv hstore
      obtain ⟨_, s₁₀, hstore', hok₁₀⟩ := bind_ok.mp hok₉
      obtain rfl := storeEntry_inv hstore'
      have htsrc' := (tabled_setEntry (e := contents s₈ p (pageOf src_cur)) hdstW).mpr htsrc
      have hr₉ := rooted_setEntry (e := contents s₈ p (pageOf src_cur)) hr₅ hdstW htdst
      have hr₁₀ := rooted_setEntry (e := .zero) hr₉ hsrcW htsrc'
      obtain ⟨hrooted, hwindows, hused, hcontents⟩ := ih hr₁₀ (by omega) (by omega) (by omega) hok₁₀
      refine ⟨hrooted, ?_, fun f hf => hused f ?_, fun q hq => ?_⟩
      · exact ((((hfound.extended.windows.trans hfound'.extended.windows).trans
          (windows_setEntry hdstW htdst)).trans (windows_setEntry hsrcW htsrc'))).trans hwindows
      · rw [used_setEntry, used_setEntry]
        exact hfound'.extended.used f (hfound.extended.used f hf)
      · rw [hcontents q hq, hnext.1, hnext.2]
        refine moved_succ hapart (fun q' hq' => ?_) (fun q' _ hlt _ => by omega) hq
        rw [contents_setEntry hsrcW htsrc', contents_setEntry hdstW htdst, hsame _ hsrcW,
          hsame _ hq']

end

section

variable {p : Option Nat} {rw user : Bool} {s₀ s s' : Machine} {page old new k addr : Nat}
variable {frames : Nat → Nat}

/-- The block at `page` with `old` pages was moved to `addr` and has `k` pages now. -/
structure Grown (p : Option Nat) (rw user : Bool) (s₀ : Machine) (page old new : Nat)
    (frames : Nat → Nat) (addr k : Nat) (s : Machine) : Prop where
  rooted : Rooted s p
  windows : Windows p s₀ s
  used : ∀ f, used s₀ f = true → References.used s f = true
  aligned : addr = pageOf addr * PAGE_SIZE
  pos : 1 ≤ pageOf addr
  fits : pageOf addr + new ≤ KERNEL_PAGE
  kept : ∀ i, i < old → contents s p (pageOf addr + i) = contents s₀ p (page + i)
  added : ∀ i, old ≤ i → i < k → contents s p (pageOf addr + i) = ⟨true, rw, user, 0, frames i⟩
  fresh : ∀ i, old ≤ i → i < k → References.used s₀ (frames i) = false ∧
    References.used s (frames i) = true
  distinct : ∀ i j, old ≤ i → i < j → j < k → frames i ≠ frames j
  vacant : ∀ i, old ≤ i → i < k → contents s₀ p (pageOf addr + i) = .zero
  others : ∀ q, Within p q → ¬(pageOf addr ≤ q ∧ q < pageOf addr + k) →
    contents s p q = if page ≤ q ∧ q < page + old then .zero else contents s₀ p q
  moved : pageOf addr ≠ page → ∀ q, pageOf addr ≤ q → q < pageOf addr + new →
    ¬(page ≤ q ∧ q < page + old) ∧ contents s₀ p q = .zero

theorem Grown.extended (h : Grown p rw user s₀ page old new frames addr k s) (hk : k ≤ new)
    (hold : old ≤ new) (he : Extended p s s') :
    Grown p rw user s₀ page old new frames addr k s' := by
  have hfits := h.fits
  refine { h with
    rooted := he.rooted h.rooted
    windows := h.windows.trans he.windows
    used f hf := he.used f (h.used f hf)
    kept i hi := ?_
    added i hi hlt := ?_
    fresh i hi hlt := ⟨(h.fresh i hi hlt).1, he.used _ (h.fresh i hi hlt).2⟩
    others q hq hout := ?_ }
  · rw [he.contents _ fun _ => by omega, h.kept i hi]
  · rw [he.contents _ fun _ => by omega, h.added i hi hlt]
  · rw [he.contents q hq, h.others q hq hout]

theorem extended_take (p : Option Nat) (s : Machine) (f : Nat) :
    Extended p s ((s.setBit f true).handOut f) where
  windows := by
    intro q _ _
    cases p <;> rfl
  contents q _ := by cases p <;> rfl
  tabled q _ ht := by cases p <;> exact ht
  used := (builds_take s f).used

/-- Each page of the block is in use, so nothing else is put there. -/
theorem Grown.inUse (h : Grown p rw user s₀ page old new frames addr k s)
    (hblock : ∀ i, i < old → contents s₀ p (page + i) ≠ .zero) {q : Nat} (hle : pageOf addr ≤ q)
    (hlt : q < pageOf addr + k) : contents s p q ≠ .zero := by
  obtain ⟨i, rfl⟩ := Nat.exists_eq_add_of_le hle
  rcases Nat.lt_or_ge i old with hi | hi
  · rw [h.kept i hi]
    exact hblock i hi
  · rw [h.added i hi (by omega)]
    exact nofun

/-- A block which was moved has free pages up to its new length. -/
theorem Grown.room (h : Grown p rw user s₀ page old new frames addr k s) (hk : k < new)
    (hmoved : pageOf addr ≠ page) : contents s p (pageOf addr + k) = .zero := by
  have hfits := h.fits
  obtain ⟨hout, hzero⟩ := h.moved hmoved (pageOf addr + k) (by omega) (by omega)
  rw [h.others _ (fun _ => by omega) (by omega), if_neg hout, hzero]

/-- The block is moved to a free area. -/
theorem Grown.move {new_addr : Nat} (h : Grown p rw user s₀ page old new frames addr k s)
    (hblock : ∀ i, i < old → contents s₀ p (page + i) ≠ .zero) (hold : old ≤ k) (hk : k ≤ new)
    (hpage : pageOf addr = page) (harea : Area s p new new_addr) {u : Unit}
    (hok : moveLoop p k new_addr addr s = .ok (u, s')) :
    Grown p rw user s₀ page old new frames new_addr k s' ∧
      ∀ f, References.used s f = true → References.used s' f = true := by
  have hfits := h.fits
  have hfits' := harea.fits
  -- the free area has no page of the block
  have hout : ∀ q, pageOf new_addr ≤ q → q < pageOf new_addr + new →
      ¬(pageOf addr ≤ q ∧ q < pageOf addr + k) := by
    rintro q hle hlt ⟨hle', hlt'⟩
    exact h.inUse hblock hle' hlt' (harea.free q hle hlt)
  have hapart : pageOf new_addr + k ≤ pageOf addr ∨ pageOf addr + k ≤ pageOf new_addr := by
    by_contra hover
    exact hout (max (pageOf new_addr) (pageOf addr)) (by omega) (by omega) (by omega)
  obtain ⟨hrooted, hwindows, hused, hcontents⟩ :=
    moveLoop_moved h.rooted (by omega) (by omega) hapart hok
  have hblockAt : ∀ i, i < k → contents s' p (pageOf new_addr + i) = contents s p
    (pageOf addr + i) := by
    intro i hi
    rw [hcontents _ fun _ => by
      omega, Reallocations.moved, if_pos (by omega), Nat.add_sub_cancel_left]
  have hvacant : ∀ q, pageOf new_addr ≤ q → q < pageOf new_addr + new →
    contents s₀ p q = .zero := by
    intro q hle hlt
    have hq := hout q hle hlt
    rw [← harea.free q hle hlt, h.others q (fun _ => by omega) hq, if_neg (by omega)]
  refine ⟨?_, hused⟩
  refine
    { rooted := hrooted
      windows := h.windows.trans hwindows
      used f hf := hused f (h.used f hf)
      aligned := harea.aligned
      pos := harea.pos
      fits := hfits'
      kept i hi := by rw [hblockAt i (by omega), h.kept i hi]
      added i hi hlt := by rw [hblockAt i hlt, h.added i hi hlt]
      fresh i hi hlt := ⟨(h.fresh i hi hlt).1, hused _ (h.fresh i hi hlt).2⟩
      distinct := h.distinct
      vacant i _ hlt := hvacant _ (by omega) (by omega)
      others q hq hnew := ?_
      moved _ q hle hlt := ⟨fun hq => hout q hle hlt (by omega), hvacant q hle hlt⟩ }
  · rw [hcontents q hq, Reallocations.moved, if_neg hnew]
    rcases Nat.lt_or_ge q page with hbefore | hafter
    · rw [if_neg (by omega), h.others q hq (by omega)]
    · obtain ⟨i, rfl⟩ := Nat.exists_eq_add_of_le hafter
      rcases Nat.lt_or_ge i old with hi | hi
      · rw [if_pos (by omega), if_pos (by omega)]
      · rw [if_neg (show ¬(page ≤ page + i ∧ page + i < page + old) by omega)]
        split
        · rw [← hpage, h.vacant i hi (by omega)]
        · rw [h.others _ hq (by omega), if_neg (by omega)]

end

section

variable {p : Option Nat} {rw user : Bool} {s₀ s s' : Machine} {page old new k addr addr' cur : Nat}
variable {frames : Nat → Nat}

theorem page_lt (h : Grown p rw user s₀ page old new frames addr k s) (hk : k < new) :
    pageOf ((addr + k * PAGE_SIZE) % 2 ^ 32) = pageOf addr + k := by
  have hfits := h.fits
  have hlt : pageOf addr + k < KERNEL_PAGE := by omega
  exact pageOf_add (kernel_lt hlt)

theorem Grown.makeRoom (h : Grown p rw user s₀ page old new frames addr k s)
    (hblock : ∀ i, i < old → contents s₀ p (page + i) ≠ .zero) (hold : old ≤ k) (hk : k < new)
    (hok : makeRoom p new addr k ((addr + k * PAGE_SIZE) % 2 ^ 32) s = .ok ((addr', cur), s')) :
    Grown p rw user s₀ page old new frames addr' k s' ∧ cur = (addr' + k * PAGE_SIZE) % 2 ^ 32 ∧
      Tabled s' p (pageOf addr' + k) ∧ contents s' p (pageOf addr' + k) = .zero ∧
      ∀ f, References.used s f = true → References.used s' f = true := by
  have hfits := h.fits
  have hW : Within p (pageOf addr + k) := fun _ => by omega
  rw [Paging.makeRoom, page_lt h hk] at hok
  obtain ⟨r, s₁, hentry, hok₁⟩ := bind_ok.mp hok
  have hfound := getPagingEntry_found h.rooted hW hentry
  have ht := hfound.tabled (hfound.alloc rfl)
  have h₁ := h.extended hk.le (by omega) hfound.extended
  obtain ⟨e, s₂, hload, hok₂⟩ := bind_ok.mp hok₁
  obtain ⟨rfl, rfl⟩ := loadEntry_inv hload
  rw [← contents_of_tabled ht] at hok₂
  split at hok₂
  · next hne =>
    -- the block grows only as far as the next page which is in use
    have hpage : pageOf addr = page := by
      by_contra hmoved
      exact hne (h₁.room hk hmoved)
    obtain ⟨new_addr, s₃, hsearch, hok₃⟩ := bind_ok.mp hok₂
    obtain ⟨harea, hextended⟩ := pagingSearchArea_area h₁.rooted (by omega) hsearch
    have h₃ := h₁.extended hk.le (by omega) hextended
    obtain ⟨addr'', s₄, hmove, hok₄⟩ := bind_ok.mp hok₃
    rw [pagingMove] at hmove
    obtain ⟨_, s₅, hcheck, hmove₁⟩ := bind_ok.mp hmove
    obtain ⟨-, rfl⟩ := check_inv hcheck
    obtain ⟨_, s₆, hloop, hmove₂⟩ := bind_ok.mp hmove₁
    obtain ⟨h₆, hused⟩ := h₃.move hblock hold hk.le hpage harea hloop
    rw [h.aligned, Nat.mul_mod_left, Nat.or_zero] at hmove₂
    cases hmove₂
    have hfits₆ := h₆.fits
    have hW₆ : Within p (pageOf new_addr + k) := fun _ => by omega
    rw [page_lt h₆ hk] at hok₄
    obtain ⟨r', s₇, hentry', hok₅⟩ := bind_ok.mp hok₄
    have hfound' := getPagingEntry_found h₆.rooted hW₆ hentry'
    have ht' := hfound'.tabled (hfound'.alloc rfl)
    obtain ⟨e, s₈, hload', hok₆⟩ := bind_ok.mp hok₅
    obtain ⟨rfl, rfl⟩ := loadEntry_inv hload'
    obtain ⟨_, s₉, hcheck', hok₇⟩ := bind_ok.mp hok₆
    obtain ⟨hzero, rfl⟩ := check_inv hcheck'
    rw [← contents_of_tabled ht'] at hzero
    cases hok₇
    refine ⟨h₆.extended hk.le (by omega) hfound'.extended, rfl,
      ht', by simpa using hzero, fun f hf => ?_⟩
    exact hfound'.extended.used f (hused f (hextended.used f (hfound.extended.used f hf)))
  · next hzero =>
    cases hok₂
    exact ⟨h₁, rfl, ht, not_not.mp hzero, hfound.extended.used⟩

/-- One more page. -/
theorem Grown.push {f : Nat} (h : Grown p rw user s₀ page old new frames addr k s) (hold : old ≤ k)
    (hk : k < new) (ht : Tabled s p (pageOf addr + k))
    (hzero : contents s p (pageOf addr + k) = .zero)
    (hnew : References.used s₀ f = false) (hf : References.used s f = true)
    (hfresh : ∀ i, old ≤ i → i < k → frames i ≠ f) :
    Grown p rw user s₀ page old new (Function.update frames k f) addr (k + 1)
      (s.setEntry p (pageOf addr + k) ⟨true, rw, user, 0, f⟩) := by
  have hfits := h.fits
  have hW : Within p (pageOf addr + k) := fun _ => by omega
  have hpage : ¬(page ≤ pageOf addr + k ∧ pageOf addr + k < page + old) := by
    rcases eq_or_ne (pageOf addr) page with heq | hmoved
    · omega
    · exact (h.moved hmoved _ (by omega) (by omega)).1
  have hstore := contents_setEntry (e := ⟨true, rw, user, 0, f⟩) hW ht
  refine
    { rooted := rooted_setEntry h.rooted hW ht
      windows := h.windows.trans (windows_setEntry hW ht)
      used g hg := ?_
      aligned := h.aligned
      pos := h.pos
      fits := h.fits
      kept i hi := ?_
      added i hi hlt := ?_
      fresh i hi hlt := ?_
      distinct i j hi hij hj := ?_
      vacant i hi hlt := ?_
      others q hq hout := ?_
      moved := h.moved }
  · rw [used_setEntry]
    exact h.used g hg
  · rw [hstore, if_neg (by omega), h.kept i hi]
  · rw [hstore]
    rcases Nat.lt_or_eq_of_le (Nat.le_of_lt_succ hlt) with hlt | rfl
    · rw [if_neg (by omega), h.added i hi hlt, Function.update_of_ne (by omega)]
    · rw [if_pos rfl, Function.update_self]
  · rw [used_setEntry]
    rcases Nat.lt_or_eq_of_le (Nat.le_of_lt_succ hlt) with hlt | rfl
    · rw [Function.update_of_ne (by omega)]
      exact h.fresh i hi hlt
    · rw [Function.update_self]
      exact ⟨hnew, hf⟩
  · rw [Function.update_of_ne (show i ≠ k by omega)]
    rcases Nat.lt_or_eq_of_le (Nat.le_of_lt_succ hj) with hlt | rfl
    · rw [Function.update_of_ne (by omega)]
      exact h.distinct i j hi hij hlt
    · rw [Function.update_self]
      exact hfresh i hi hij
  · rcases Nat.lt_or_eq_of_le (Nat.le_of_lt_succ hlt) with hlt | rfl
    · exact h.vacant i hi hlt
    · rw [← hzero, h.others _ hW (by omega), if_neg hpage]
  · rw [hstore, if_neg (by omega), h.others q hq (by omega)]

theorem Grown.growLoop {rounds : Nat} (h : Grown p rw user s₀ page old new frames addr k s)
    (hblock : ∀ i, i < old → contents s₀ p (page + i) ≠ .zero) (hold : old ≤ k)
    (hk : k + rounds = new)
    (hok : growLoop p new rw user rounds addr k ((addr + k * PAGE_SIZE) % 2 ^ 32) s =
      .ok (addr', s')) :
    ∃ frames', Grown p rw user s₀ page old new frames' addr' new s' := by
  induction rounds generalizing s addr k frames with
  | zero =>
      obtain rfl : k = new := hk
      cases hok
      exact ⟨frames, h⟩
  | succ rounds ih =>
      rw [Paging.growLoop] at hok
      obtain ⟨f, s₁, halloc, hok₁⟩ := bind_ok.mp hok
      obtain ⟨rfl, hunused, -⟩ := physMemAllocPage_inv halloc
      have h₁ := h.extended (by omega) (by omega) (extended_take p s f)
      obtain ⟨⟨addr₂, cur⟩, s₂, hroom, hok₂⟩ := bind_ok.mp hok₁
      obtain ⟨h₂, rfl, ht, hzero, hused⟩ := h₁.makeRoom hblock hold (by omega) hroom
      dsimp only at hok₂
      rw [page_lt h₂ (by omega), nextPage_add] at hok₂
      obtain ⟨_, s₃, hstore, hok₃⟩ := bind_ok.mp hok₂
      obtain rfl := storeEntry_inv hstore
      have hf : References.used s₂ f = true := hused f (used_take s f)
      have hnew : References.used s₀ f = false := by
        rw [← Bool.not_eq_true]
        intro hf₀
        rw [h.used f hf₀] at hunused
        cases hunused
      refine ih (h₂.push hold (by omega) ht hzero hnew hf fun i hi hlt heq => ?_) (by omega)
        (by omega) hok₃
      rw [← heq, (h.fresh i hi hlt).2] at hunused
      cases hunused

end

section

variable {s s' : Machine} {f g n page pid : Nat} {p : Option Nat} {info : PhysMemExtraInfo}

theorem extraInfo_self : (s.setInfo f info).extraInfo f = info := Function.update_self ..

theorem extraInfo_ne (hne : g ≠ f) : (s.setInfo f info).extraInfo g = s.extraInfo g :=
  Function.update_of_ne hne _ _

theorem recorded_setInfo (h : Recorded s) (hused : used s f = true)
    (hextra : s.physMemExtra (f / PHYSMEMEXTRA_COUNT) ≠ none)
    (hinfo : info.present = true ∧ 1 ≤ info.ref ∧ info.ref < 2 ^ 7) :
      Recorded (s.setInfo f info) := by
  refine ⟨fun g hg => ?_, fun g hg => ?_, fun g hg => ?_⟩ <;> rcases eq_or_ne g f with rfl | hne
  · exact absurd (hg.symm.trans hused) nofun
  · exact (extraInfo_ne hne).trans (h.unused g hg)
  · exact (hextra hg).elim
  · exact (extraInfo_ne hne).trans (h.missing g hg)
  · rw [extraInfo_self]
    exact hinfo
  · rw [extraInfo_ne hne] at hg ⊢
    exact h.present g hg

theorem recorded_free (h : Recorded s) : Recorded ((s.setInfo f .zero).setBit f false) := by
  refine ⟨fun g hg => ?_, fun g hg => ?_, fun g hg => ?_⟩ <;> rcases eq_or_ne g f with rfl | hne
  · exact extraInfo_self
  · rw [used_setBit, if_neg hne] at hg
    exact (extraInfo_ne hne).trans (h.unused g hg)
  · exact extraInfo_self
  · exact (extraInfo_ne hne).trans (h.missing g hg)
  · exact (hg extraInfo_self).elim
  · have heq : ((s.setInfo f .zero).setBit f false).extraInfo g = s.extraInfo g := extraInfo_ne hne
    rw [heq] at hg ⊢
    exact h.present g hg

/-- A frame lost one reference. -/
structure Dropped (f : Nat) (s s' : Machine) : Prop where
  recorded : Recorded s'
  process : s'.process = s.process
  kernel : s'.kernel = s.kernel
  enabled : s'.pagingEnabled = s.pagingEnabled
  refs : refs s' f + 1 = References.refs s f
  others : ∀ g, g ≠ f → References.refs s' g = References.refs s g

theorem dropped_free (h : Recorded s) (hone : refs s f = 1) :
    Dropped f s ((s.setInfo f .zero).setBit f false) where
  recorded := recorded_free h
  process := rfl
  kernel := rfl
  enabled := rfl
  refs := by
    rw [References.refs, used_setBit, if_pos rfl, hone]
    rfl
  others g hg := by
    have heq : ((s.setInfo f .zero).setBit f false).extraInfo g = s.extraInfo g := extraInfo_ne hg
    rw [References.refs, used_setBit, if_neg hg, refCount, heq]
    rfl

theorem dropped_record {ref : Nat} (h : Recorded s) (hused : used s f = true)
    (hextra : s.physMemExtra (f / PHYSMEMEXTRA_COUNT) ≠ none) (hne : s.extraInfo f ≠ .zero)
    (href : ref + 1 = (s.extraInfo f).ref) (hpos : ref ≠ 0) :
    Dropped f s (s.setInfo f { s.extraInfo f with ref := ref }) := by
  obtain ⟨hpresent, -, hlt⟩ := h.present f hne
  have hinfo : ({ s.extraInfo f with ref := ref } : PhysMemExtraInfo) ≠ .zero := by
    intro heq
    exact hpos (congrArg PhysMemExtraInfo.ref heq)
  refine ⟨recorded_setInfo h hused hextra ⟨hpresent, by dsimp only; omega, by dsimp only; omega⟩,
    rfl, rfl, rfl,
    ?_, fun g hg => ?_⟩
  · rw [refs, refs, refCount, refCount, extraInfo_self, if_neg hinfo, if_neg hne]
    change (if used s f then ref else 0) + 1 = _
    rw [if_pos hused, if_pos hused]
    exact href
  · rw [refs, refs, refCount, refCount, extraInfo_ne hg]
    rfl

theorem record_inv {r : Bool} (hok : getPhysMemExtraInfo 0 f false s = .ok (r, s')) :
    s' = s ∧ (r = true ↔ s.physMemExtra (f / PHYSMEMEXTRA_COUNT) ≠ none) := by
  rw [getPhysMemExtraInfo] at hok
  obtain ⟨_, _, ⟨⟩, hok₁⟩ := bind_ok.mp hok
  obtain ⟨_, s₁, hcheck, hok₂⟩ := bind_ok.mp hok₁
  obtain ⟨-, rfl⟩ := check_inv hcheck
  obtain ⟨_, s₂, hcheck', hok₃⟩ := bind_ok.mp hok₂
  obtain ⟨-, rfl⟩ := check_inv hcheck'
  obtain ⟨_, _, ⟨⟩, hok₄⟩ := bind_ok.mp hok₃
  cases heq : s₂.physMemExtra (f / PHYSMEMEXTRA_COUNT) with
  | none =>
      rw [heq] at hok₄
      cases hok₄
      simp
  | some k =>
      rw [heq] at hok₄
      cases hok₄
      simp

theorem keeps_accessInfo (f : Nat) : Keeps Eq (accessInfo f) := by
  refine Keeps.bind (fun _ _ _ => Eq.trans) (keeps_get Eq.refl) fun s => ?_
  split
  · exact keeps_throw _
  · exact keeps_access _ _

theorem loadInfo_inv (hok : loadInfo f s = .ok (info, s')) : info = s.extraInfo f ∧ s' = s := by
  obtain ⟨_, s₁, haccess, hload⟩ := bind_ok.mp hok
  obtain rfl := keeps_accessInfo _ _ _ _ haccess
  cases hload
  exact ⟨rfl, rfl⟩

theorem storeInfo_inv {u : Unit} (hok : storeInfo f info s = .ok (u, s')) :
    s' = s.setInfo f info := by
  obtain ⟨_, s₁, haccess, hstore⟩ := bind_ok.mp hok
  obtain rfl := keeps_accessInfo _ _ _ _ haccess
  cases hstore
  rfl

theorem physMemReleasePage_dropped (h : Recorded s) (hok : physMemReleasePage f s = .ok (n, s')) :
    Dropped f s s' := by
  have hfree : s.extraInfo f = .zero → used s f = true → Dropped f s (s.setBit f false) := by
    intro hzero hused
    have := dropped_free h (by rw [refs, if_pos hused, refCount, if_pos hzero])
    rwa [Machine.setInfo, Function.update_eq_self_iff.mpr hzero.symm] at this
  rw [physMemReleasePage] at hok
  obtain ⟨_, _, ⟨⟩, hok₁⟩ := bind_ok.mp hok
  obtain ⟨_, s₁, hcheck, hok₂⟩ := bind_ok.mp hok₁
  obtain ⟨hused, rfl⟩ := check_inv hcheck
  change used s₁ f = true at hused
  obtain ⟨r, s₂, hrecord, hok₃⟩ := bind_ok.mp hok₂
  obtain ⟨rfl, hr⟩ := record_inv hrecord
  split at hok₃
  · next hrecorded =>
    have hextra := hr.mp hrecorded
    rw [releaseRecord] at hok₃
    obtain ⟨info, s₃, hload, hok₄⟩ := bind_ok.mp hok₃
    obtain ⟨rfl, rfl⟩ := loadInfo_inv hload
    split at hok₄
    · next hzero =>
      cases hok₄
      exact hfree hzero hused
    · next hne =>
      obtain ⟨-, hpos, hlt⟩ := h.present f hne
      have hsub : ((s₃.extraInfo f).ref + 2 ^ 7 - 1) % 2 ^ 7 = (s₃.extraInfo f).ref - 1 := by omega
      obtain ⟨_, s₄, hcheck', hok₅⟩ := bind_ok.mp hok₄
      obtain ⟨-, rfl⟩ := check_inv hcheck'
      rw [hsub] at hok₅
      obtain ⟨_, s₅, hstore, hok₆⟩ := bind_ok.mp hok₅
      obtain rfl := storeInfo_inv hstore
      split at hok₆
      · next hleft =>
        cases hok₆
        exact dropped_record h hused hextra hne (by omega) hleft
      · obtain ⟨_, s₆, hstore', hok₇⟩ := bind_ok.mp hok₆
        obtain rfl := storeInfo_inv hstore'
        cases hok₇
        have hone : refs s₄ f = 1 := by
          rw [refs, if_pos hused, refCount, if_neg hne]
          omega
        simpa only [Machine.setInfo, Function.update_idem] using dropped_free h hone
  · next hmissing =>
    cases hok₃
    exact hfree (h.missing f (not_not.mp fun hextra => hmissing (hr.mpr hextra))) hused

end

section

variable {s s' : Machine} {page pid cur : Nat} {p : Option Nat}

theorem contents_congr (hkernel : s'.kernel = s.kernel) (hprocess : s'.process = s.process)
    (page : Nat) :
    contents s' p page = contents s p page := by
  cases p with
  | none => exact congrFun hkernel page
  | some pid => rw [contents, contents, hprocess]

theorem rooted_congr (hkernel : s'.kernel = s.kernel) (hprocess : s'.process = s.process)
    (hr : Rooted s p) : Rooted s' p := by
  intro q hq ht
  rw [contents_congr hkernel hprocess]
  refine hr q hq fun ht' => ht ?_
  cases p with
  | none =>
      rw [Tabled, directoryEntry, hkernel]
      exact ht'
  | some pid =>
      rw [Tabled, directoryEntry, hprocess]
      exact ht'

theorem Rooted.tabled (hr : Rooted s p) (hpage : Within p page) (hne : contents s p page ≠ .zero) :
    Tabled s p page := not_not.mp fun ht => hne (hr page hpage ht)

theorem recorded_setEntry {e : PagingEntry} (h : Recorded s) : Recorded (s.setEntry p page e) := by
  cases p <;> exact ⟨h.unused, h.missing, h.present⟩

theorem refs_setEntry {e : PagingEntry} (f : Nat) : refs (s.setEntry p page e) f = refs s f := by
  cases p <;> rfl

/-- The number of the first `n` pages from `page` on which name a frame. -/
def naming (c : Nat → PagingEntry) (page n f : Nat) :
    Nat := Nat.count (fun i => (c (page + i)).frame = f) n

theorem naming_succ (c : Nat → PagingEntry) (page n f : Nat) :
    naming c page (n + 1) f = naming c (page + 1) n f + if (c page).frame = f then 1 else 0 := by
  rw [naming, Nat.count_succ', naming]
  simp only [Nat.add_assoc, Nat.add_comm 1, add_zero]

theorem naming_congr {c c' : Nat → PagingEntry} {n f : Nat}
    (h : ∀ i, i < n → c' (page + i) = c (page + i)) : naming c' page n f = naming c page n f := by
  induction n with
  | zero => rfl
  | succ n ih =>
      rw [naming, naming, Nat.count_succ, Nat.count_succ, h n (by omega)]
      exact congrArg (· + _) (ih fun i hi => h i (by omega))

theorem shrinkLoop_shrunk {rounds : Nat} (h : Recorded s) (hs : Settled s) (hr : Rooted s p)
    (hfits : pageOf cur + rounds ≤ KERNEL_PAGE)
    (hpresent : ∀ i, i < rounds → (contents s p (pageOf cur + i)).present = true)
    {u : Unit} (hok : shrinkLoop p rounds cur s = .ok (u, s')) :
    (∀ q, contents s' p q =
      if pageOf cur ≤ q ∧ q < pageOf cur + rounds then .zero else contents s p q) ∧
      ∀ f, refs s' f + naming (contents s p) (pageOf cur) rounds f = refs s f := by
  induction rounds generalizing s cur with
  | zero =>
      cases hok
      refine ⟨fun q => ?_, fun f => rfl⟩
      rw [if_neg (by omega)]
  | succ rounds ih =>
      have hW : Within p (pageOf cur) := fun _ => by omega
      have hhere : (contents s p (pageOf cur)).present = true := hpresent 0 (by omega)
      have ht := hr.tabled hW fun hzero => by
        rw [hzero] at hhere
        cases hhere
      have hnext : pageOf (nextPage cur) = pageOf cur + 1 := by
        have hlt : KERNEL_PAGE < PAGE_COUNT := by decide
        exact pageOf_nextPage (by omega)
      rw [shrinkLoop] at hok
      obtain ⟨r, s₁, hentry, hok₁⟩ := bind_ok.mp hok
      obtain rfl := getPagingEntry_settled hs hentry
      obtain ⟨_, s₂, hcheck, hok₂⟩ := bind_ok.mp hok₁
      obtain ⟨-, rfl⟩ := check_inv hcheck
      obtain ⟨e, s₃, hload, hok₃⟩ := bind_ok.mp hok₂
      obtain ⟨rfl, rfl⟩ := loadEntry_inv hload
      obtain ⟨_, s₄, hcheck', hok₄⟩ := bind_ok.mp hok₃
      obtain ⟨-, rfl⟩ := check_inv hcheck'
      rw [← contents_of_tabled ht] at hok₄
      obtain ⟨_, s₅, hshrink, hok₅⟩ := bind_ok.mp hok₄
      rw [shrinkEntry, if_pos hhere] at hshrink
      obtain ⟨_, s₆, hstore, hshrink₁⟩ := bind_ok.mp hshrink
      have hs₆ := (closed_sameDirectories.storeEntry _ _ _ _ _ _ hstore).keepsSettled hs
      obtain rfl := storeEntry_inv hstore
      obtain ⟨_, s₇, hrelease, hshrink₂⟩ := bind_ok.mp hshrink₁
      have hs₇ := (closed_sameDirectories.physMemReleasePage _ _ _ _ hrelease).keepsSettled hs₆
      cases hshrink₂
      have hdropped := physMemReleasePage_dropped (recorded_setEntry h) hrelease
      have hr₇ := rooted_congr hdropped.kernel hdropped.process
        (rooted_setEntry (e := .zero) hr hW ht)
      have hc₇ : ∀ q, contents s₅ p q = if q = pageOf cur then .zero else contents s₄ p q :=
        fun q => by
        rw [contents_congr hdropped.kernel hdropped.process, contents_setEntry hW ht]
      have hrefs : ∀ f, refs s₅ f + (if (contents s₄ p (pageOf cur)).frame = f then 1 else 0) =
          refs s₄ f := by
        intro f
        split
        · next heq =>
          rw [← heq, hdropped.refs, refs_setEntry]
        · next hne => rw [hdropped.others f (Ne.symm hne), refs_setEntry, add_zero]
      have hlater : ∀ i, i < rounds →
          contents s₅ p (pageOf cur + 1 + i) = contents s₄ p (pageOf cur + 1 + i) := by
        intro i hi
        rw [hc₇, if_neg (by omega)]
      have hpresent₇ : ∀ i, i < rounds → (contents s₅ p (pageOf (nextPage cur) + i)).present =
        true := by
        intro i hi
        rw [hnext, hlater i hi, Nat.add_assoc, Nat.add_comm 1]
        exact hpresent (i + 1) (by omega)
      obtain ⟨hcontents, hrest⟩ := ih hdropped.recorded hs₇ hr₇ (by omega) hpresent₇ hok₅
      refine ⟨fun q => ?_, fun f => ?_⟩
      · rw [hcontents, hnext, hc₇]
        grind
      · have hrest := hrest f
        have hhere := hrefs f
        rw [hnext, naming_congr hlater] at hrest
        rw [naming_succ]
        omega

end

section

variable {s s' : Machine} {addr addr' old new : Nat} {p : Option Nat} {rw user : Bool}

theorem rooted_of_structured (h : Structured s) (p : Option Nat) : Rooted s p := by
  cases p with
  | none =>
      intro page hpage ht
      have hlt := table_lt_window (hpage rfl)
      have hzero : s.kernel (KERNEL_PAGE + page / PAGETABLE_COUNT) = .zero := not_not.mp ht
      rcases h.tables _ hlt with hmissing | hready
      · exact hmissing.entries page rfl
      · have hpresent := hready.present
        rw [hzero] at hpresent
        cases hpresent
  | some pid => exact rooted_process s pid

/-- What becomes of a block of `old` pages at `addr` which is asked to have `new` pages. -/
structure Reallocated (p : Option Nat) (rw user : Bool) (addr old new : Nat) (s : Machine)
    (addr' : Nat)
    (s' : Machine) : Prop where
  aligned : addr' % PAGE_SIZE = 0
  kept : ∀ i, i < old → i < new → contents s' p (pageOf addr' + i) = contents s p (pageOf addr + i)
  added : ∃ frames : Nat → Nat, Set.InjOn frames (Set.Ico old new) ∧ ∀ i, old ≤ i → i < new →
    contents s' p (pageOf addr' + i) = ⟨true, rw, user, 0, frames i⟩ ∧ used s (frames i) = false
  dropped : new ≤ old → ∀ f,
    refs s' f + naming (contents s p) (pageOf addr + new) (old - new) f = refs s f
  gone : new ≤ old → ∀ i, new ≤ i → i < old → contents s' p (pageOf addr + i) = .zero
  moved : addr' ≠ addr → ∀ i, i < old → contents s' p (pageOf addr + i) = .zero
  others : ∀ page, Within p page → ¬(pageOf addr ≤ page ∧ page < pageOf addr + old) →
    ¬(pageOf addr' ≤ page ∧ page < pageOf addr' + new) → contents s' p page = contents s p page
  windows : Windows p s s'

theorem grown_start (hr : Rooted s p) (haligned : addr = pageOf addr * PAGE_SIZE)
    (hpos : 1 ≤ pageOf addr)
    (hnew : pageOf addr + new ≤ KERNEL_PAGE) :
    Grown p rw user s (pageOf addr) old new (fun _ => 0) addr old s where
  rooted := hr
  windows := Windows.refl p s
  used _ hf := hf
  aligned := haligned
  pos := hpos
  fits := hnew
  kept _ _ := rfl
  added i hi hlt := by omega
  fresh i hi hlt := by omega
  distinct i j hi hij hj := by omega
  vacant i hi hlt := by omega
  others q _ hout := by rw [if_neg hout]
  moved hne := (hne rfl).elim

theorem reallocated_of_grown {frames : Nat → Nat}
    (h : Grown p rw user s (pageOf addr) old new frames addr' new s') (hlt : old < new)
    (haligned : addr = pageOf addr * PAGE_SIZE) (hnew : pageOf addr + new ≤ KERNEL_PAGE) :
    Reallocated p rw user addr old new s addr' s' where
  aligned := by rw [h.aligned, Nat.mul_mod_left]
  kept i hi _ := h.kept i hi
  added := by
    refine ⟨frames, ?_, fun i hi hlt => ⟨h.added i hi hlt, (h.fresh i hi hlt).1⟩⟩
    intro i hi j hj heq
    rcases Nat.lt_trichotomy i j with hij | hij | hij
    · exact (h.distinct i j hi.1 hij hj.2 heq).elim
    · exact hij
    · exact (h.distinct j i hj.1 hij hi.2 heq.symm).elim
  dropped hle := by omega
  gone hle := by omega
  moved hne i hi := by
    have hpage : pageOf addr' ≠ pageOf addr := by
      intro heq
      rw [h.aligned, heq, ← haligned] at hne
      exact hne rfl
    have hout : ¬(pageOf addr' ≤ pageOf addr + i ∧ pageOf addr + i < pageOf addr' + new) :=
      fun hin =>
      (h.moved hpage _ hin.1 hin.2).1 (by omega)
    rw [h.others _ (fun _ => by omega) hout, if_pos (by omega)]
  others q hq hout hnew := by rw [h.others q hq hnew, if_neg hout]
  windows := h.windows

end

section

variable {s s' : Machine} {addr addr' old new : Nat} {p : Option Nat} {rw user : Bool}

theorem reallocated_of_shrunk (hle : new ≤ old) (haligned : addr = pageOf addr * PAGE_SIZE)
    (hold : pageOf addr + old ≤ KERNEL_PAGE)
    (hcontents : ∀ q, contents s' p q = if pageOf addr + new ≤ q ∧
      q < pageOf addr + new + (old - new) then
      .zero else contents s p q)
    (hrefs : ∀ f, refs s' f + naming (contents s p) (pageOf addr + new) (old - new) f = refs s f) :
    Reallocated p rw user addr old new s (if new = 0 then 0 else addr) s' where
  aligned := by
    split
    · rfl
    · rw [haligned, Nat.mul_mod_left]
  kept i hi hlt := by rw [if_neg (by omega), hcontents, if_neg (by omega)]
  added := ⟨fun i => i, Set.injOn_id _, fun i hi hlt => by omega⟩
  dropped _ := hrefs
  gone _ i hi hlt := by rw [hcontents, if_pos (by omega)]
  moved hne i hi := by
    rcases Nat.eq_zero_or_pos new with rfl | hpos
    · rw [hcontents, if_pos (by omega)]
    · rw [if_neg (by omega)] at hne
      exact (hne rfl).elim
  others q _ hout _ := by rw [hcontents, if_neg (by omega)]
  windows q hq _ := by
    rw [hcontents, if_neg]
    intro hin
    exact hq fun _ => by omega

theorem pagingReAllocatePhysMem_reallocated (h : Structured s) (hrecorded : Recorded s)
    (hs : Settled s)
    (haligned : addr = pageOf addr * PAGE_SIZE) (hpos : 1 ≤ pageOf addr)
    (hold : pageOf addr + old ≤ KERNEL_PAGE) (hnew : pageOf addr + new ≤ KERNEL_PAGE)
    (hpresent : ∀ i, i < old → (contents s p (pageOf addr + i)).present = true)
    (hok : pagingReAllocatePhysMem p addr old new rw user s = .ok (addr', s')) :
    Reallocated p rw user addr old new s addr' s' := by
  have hr := rooted_of_structured h p
  rw [pagingReAllocatePhysMem] at hok
  split at hok
  · next hlt =>
    have hne : addr ≠ 0 := by
      rintro rfl
      revert hpos
      unfold pageOf
      decide
    have hblock : ∀ i, i < old → contents s p (pageOf addr + i) ≠ .zero := by
      intro i hi hzero
      have := hpresent i hi
      rw [hzero] at this
      cases this
    rw [blockOf, if_neg hne] at hok
    obtain ⟨_, _, ⟨⟩, hok₁⟩ := bind_ok.mp hok
    obtain ⟨frames, hgrown⟩ := (grown_start hr haligned hpos hnew).growLoop hblock le_rfl
      (by omega) hok₁
    exact reallocated_of_grown hgrown hlt haligned hnew
  · next hge =>
    have hpage : pageOf ((addr + new * PAGE_SIZE) % 2 ^ 32) = pageOf addr + new := by
      have hlt : KERNEL_PAGE < PAGE_COUNT := by decide
      exact pageOf_add (by omega)
    obtain ⟨_, s₁, hloop, hok₁⟩ := bind_ok.mp hok
    cases hok₁
    obtain ⟨hcontents, hrefs⟩ := shrinkLoop_shrunk hrecorded hs hr (by omega) (fun i hi => by
      rw [hpage, Nat.add_assoc]
      exact hpresent (new + i) (by omega)) hloop
    rw [hpage] at hcontents hrefs
    exact reallocated_of_shrunk (by omega) haligned hold hcontents hrefs

/-- The pages of a block of present pages move with their frames and permissions. -/
theorem reallocation_moves_mappings (hs : Reached s) (addr old new : BitVec 32)
    (haligned : addr.toNat % PAGE_SIZE = 0) (hpos : 1 ≤ pageOf addr.toNat)
    (hold : pageOf addr.toNat + old.toNat ≤ KERNEL_PAGE)
    (hnew : pageOf addr.toNat + new.toNat ≤ KERNEL_PAGE)
    (hpresent : ∀ i, i < old.toNat → (contents s p (pageOf addr.toNat + i)).present = true)
    (hok : pagingReAllocatePhysMem p addr.toNat old.toNat new.toNat rw user s = .ok (addr', s')) :
    Reallocated p rw user addr.toNat old.toNat new.toNat s addr' s' := by
  obtain ⟨slack, hinv, -⟩ := hs.inv
  have haddr := addr.isLt
  have hpage : addr.toNat = pageOf addr.toNat * PAGE_SIZE := by
    unfold pageOf
    simp only [PAGE_SIZE, PAGE_COUNT] at *
    omega
  exact pagingReAllocatePhysMem_reallocated hinv.structured hinv.recorded
    (Reached.settled hs) hpage hpos
    hold hnew hpresent hok

end

section

/-! A page of the kernel which cannot grow beyond the next one. -/

def blocked : List Event :=
  [.operation (.allocatePhysMemFixed none 0x400000 1 true false),
    .operation (.allocatePhysMemFixed none 0x402000 1 true false)]

theorem blocked_facts : ((pagingInit [] sampleMachine).toOption.bind fun r =>
    (run next r.2 blocked).toOption.bind fun r =>
      (pagingReAllocatePhysMem none 0x400000 1 3 true false r.1).toOption.map fun r' =>
        ((r.1.kernel 0x400).present, r'.1)) = some (true, 0x1000) := by
  decide +kernel

end

section

theorem reached_blocked {s₀ s : Machine} {answers : List UserAccesses.Answer}
    (hinit : pagingInit [] sampleMachine = .ok ((), s₀))
    (hrun : run next s₀ blocked = .ok (s, answers)) :
    Reached s := by
  refine ⟨s₀, blocked, answers, started_sample hinit, along_of_forall (fun s event hmem => ?_) s₀,
    hrun⟩
  simp only [blocked, List.mem_cons, List.not_mem_nil, or_false] at hmem
  rcases hmem with rfl | rfl
  all_goals
    refine ⟨fun _ => ?_, trivial⟩
    unfold pageOf
    decide

theorem reallocation_moves_mappings_blocked :
    ∃ s s' addr', Reached s ∧ (s.kernel 0x400).present = true ∧
    addr' ≠ 0x400000 ∧ Reallocated none true false 0x400000 1 3 s addr' s' := by
  obtain ⟨⟨_, s₀⟩, hinit, hfacts⟩ := Option.bind_eq_some_iff.mp blocked_facts
  obtain ⟨⟨s, answers⟩, hrun, hfacts⟩ := Option.bind_eq_some_iff.mp hfacts
  obtain ⟨⟨addr', s'⟩, hok, hfacts⟩ := Option.map_eq_some_iff.mp hfacts
  obtain ⟨hpresent, rfl⟩ := Prod.mk.inj hfacts
  have hs := reached_blocked (toOption_eq_some hinit) (toOption_eq_some hrun)
  have hpage : pageOf 0x400000 = 0x400 := by
    unfold pageOf
    rfl
  refine ⟨s, s', 0x1000, hs, hpresent, by decide, ?_⟩
  refine reallocation_moves_mappings hs 0x400000 1 3 (by decide) (hpage ▸ by decide)
    (hpage ▸ by decide)
    (hpage ▸ by decide) (fun i hi => ?_) (toOption_eq_some hok)
  obtain rfl : i = 0 := Nat.lt_one_iff.mp hi
  change (s.kernel (pageOf 0x400000 + 0)).present = true
  rw [hpage]
  exact hpresent

end

section

/-! What is stored in the pages of the kernel moves with them. -/

variable {s s' : Machine} {addr old new addr' : Nat} {rw user : Bool}

theorem closed_memory : Closed fun _ m => Keeps (fun s s' : Machine => s'.memory = s.memory) m where
  pure := keeps_pure fun _ => rfl
  throw := keeps_throw
  bind := Keeps.bind fun _ _ _ h h' => h'.trans h
  get_bind hf hk := by
    rintro s a s' h
    exact hk s s a s' h
  setKernel _ _ := keeps_modify fun _ => rfl
  setInfo _ _ := keeps_modify fun _ => rfl
  take _ := keeps_modify fun _ => rfl
  setKernelTable _ _ := keeps_modify fun _ => rfl
  setExtra _ _ := keeps_modify fun _ => rfl
  setEntry p _ _ := keeps_modify fun _ => by cases p <;> rfl
  free _ := keeps_modify fun _ => rfl

theorem reallocated_bytes (h : Reallocated none rw user addr old new s addr' s')
    (hok : pagingReAllocatePhysMem none addr old new rw user s = .ok (addr', s')) :
    (∀ i, i < min old new → s'.memory (s'.kernel (pageOf addr' + i)).frame =
      s.memory (s.kernel (pageOf addr + i)).frame) ∧
    ∀ page, page < KERNEL_PAGE → ¬(pageOf addr ≤ page ∧ page < pageOf addr + old) →
      ¬(pageOf addr' ≤ page ∧ page < pageOf addr' + new) →
      s'.memory (s'.kernel page).frame = s.memory (s.kernel page).frame := by
  have hmemory : s'.memory = s.memory := closed_memory.pagingReAllocatePhysMem (p := none)
    closed_memory.getKernelEntry _ _ _ _ _ s addr' s' hok
  rw [hmemory]
  constructor
  · intro i hi
    have hkept := h.kept i (by omega) (by omega)
    exact congrArg (fun e : PagingEntry => s.memory e.frame) hkept
  · intro page hpage hold hnew
    have hothers := h.others page (fun _ => hpage) hold hnew
    exact congrArg (fun e : PagingEntry => s.memory e.frame) hothers

end

end Ibnos.Reallocations
