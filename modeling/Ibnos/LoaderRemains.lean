import Ibnos.RejectedPointers
import Ibnos.SectionTables
import Mathlib.Order.Lattice.Nat

/-!
What the loader leaves behind in the kernel. No page of a process stays mapped there, but a
file which is rejected after some of its sections were accepted keeps the blocks of the list.
-/

namespace Ibnos.LoaderRemains

open Ibnos.ElfLoader
open Ibnos.Intervals
open Ibnos.Locality
open Ibnos.KernelPages
open Ibnos.Memory
open Ibnos.NewPages
open Ibnos.Paging
open Ibnos.PagingOperations
open Ibnos.PagingPrograms
open Ibnos.PagingRuns
open Ibnos.Physmem
open Ibnos.ProcessPages
open Ibnos.Programs
open Ibnos.References
open Ibnos.RejectedPointers
open Ibnos.Runs
open Ibnos.SectionTables
open Ibnos.TableMappings
open Ibnos.Tallies
open Ibnos.UserAccesses
open Ibnos.UserMemory

section

variable {slack : Nat → Nat} {P : Nat → ℤ} {s s' : Machine} {pid page i : Nat}

/-- A page table is mapped to a page which was not in use. -/
theorem mapPageTable_adds (h : Inv slack P s) (hP : ∀ f, 0 ≤ P f)
    (hdir : (s.process pid).pageDirectory ≠ none) (hi : i < PAGETABLE_COUNT)
    (hpresent : ((s.process pid).directory i).present = true) :
    Steps (mapPageTable pid i) s fun _ s' =>
      Adds (fun k => (s'.kernel k).frame = ((s.process pid).directory i).frame) s s' := by
  rw [mapPageTable]
  refine yields_get_bind (yields_ite (fun _ => ?_) fun _ => yields_pure (adds_of_eq rfl))
  have hname : names s (.directory pid i) = some ((s.process pid).directory i).frame := by
    simp [names, hi, hpresent, Option.isSome_iff_ne_none.mpr hdir]
  have hused := used_of_names h hP hname
  refine ((physMemAddRefPage_spec h hused).and (physMemAddRefPage_adds (fun _ => False) h _)).bind
    ?_
  rintro _ s₁ ⟨⟨rfl, h₁, hg₁⟩, ha₁⟩
  refine ((pagingMapPhysMem_spec h₁ true false).and (pagingMapPhysMem_adds h₁ _ true false)).bind ?_
  rintro addr s₂ ⟨⟨-, hg₂, hat⟩, ha₂⟩
  have hadds : Adds (fun k => k = pageOf addr) s s₂ :=
    (ha₁.mono (by simp)).trans ha₂ hg₁.toGrows hg₂.toGrows
  refine yields_modify (hadds.mono ?_)
  rintro _ rfl
  change (s₂.kernel (pageOf addr)).frame = _
  rw [hat.entry]

/-- A process whose page tables are all mapped gets new pages of the kernel for a new table only. -/
theorem getProcessEntry_adds (h : Inv slack P s) (hP : ∀ f, 0 ≤ P f) (hs : Settled s)
    (hpage : page < PAGE_COUNT) (alloc : Bool) :
    Steps (getProcessEntry pid page alloc) s fun _ s' => Adds (fun _ => False) s s' := by
  have hi := table_lt hpage
  rw [getProcessEntry]
  refine yields_get_bind (steps_check_bind fun _ => accessDirectory_steps h.structured fun hdir =>
    yields_get_bind ?_)
  refine yields_ite (fun hzero => yields_ite (fun _ => ?_) fun _ => yields_pure (adds_of_eq rfl))
    fun hne => ?_
  · refine (physMemAllocPage_spec h false).bind ?_
    rintro f s₁ ⟨h₁, hsame, hg₁, hunused, -⟩
    rw [← hsame.process] at hdir hzero
    have h₂ := inv_addTable h₁ hdir hi hzero f
    rw [add_sub_cancel_right] at h₂
    have hg₂ := grows_addTable hg₁.toGrows h₁.structured hzero hunused
    refine yields_modify_bind ?_
    have hprocess : (Machine.addTable s₁ pid (page / PAGETABLE_COUNT) f).process pid =
        (s₁.process pid).setDirectory (page / PAGETABLE_COUNT) ⟨true, true, true, 0, f⟩ :=
      setProcess_self
    have hentry : ((Machine.addTable s₁ pid (page / PAGETABLE_COUNT) f).process pid).directory
        (page / PAGETABLE_COUNT) = ⟨true, true, true, 0, f⟩ := by
      rw [hprocess, Process.setDirectory]
      exact Function.update_self ..
    have hdir₂ : ((Machine.addTable s₁ pid (page / PAGETABLE_COUNT) f).process pid).pageDirectory ≠
        none := by
      rw [hprocess]
      exact hdir
    have hpresent : (((Machine.addTable s₁ pid (page / PAGETABLE_COUNT) f).process pid).directory
        (page / PAGETABLE_COUNT)).present = true := by rw [hentry]
    refine ((mapPageTable_spec h₂ hP hdir₂ hi hpresent).and
      (mapPageTable_adds h₂ hP hdir₂ hi hpresent)).bind ?_
    rintro _ s₃ ⟨⟨h₃, hg₃, hm, -⟩, ha₃⟩
    rw [hentry] at ha₃
    refine yields_ok_bind (h₃.structured.accessTable_ok (p := some pid) hpage hm) ?_
    have ha₂ : Adds (fun k => (s₃.kernel k).frame = f) s
        (Machine.addTable s₁ pid (page / PAGETABLE_COUNT) f) := adds_of_eq hsame.kernel
    have ha := ha₂.trans ha₃ hg₂ hg₃
    refine yields_modify_bind (yields_pure fun k _ hk hk' => ?_)
    -- behind the page is the new table or a frame which was unused
    rcases eq_or_ne (s₃.kernel k).frame f with heq | hne
    · exact (congrArg (used s) heq).trans hunused
    · exact ha k hne hk hk'
  · refine steps_requirePresent_bind fun _ => steps_check_bind fun _ => ?_
    have hmapped := hs.tables pid hdir (page / PAGETABLE_COUNT) (by simp) hne
    rw [mapPageTable]
    refine Yields.bind (Q := fun _ s' => Adds (fun _ => False) s s') ?_ fun _ s' ha =>
      yields_pure ha
    refine yields_get_bind ?_
    rw [if_neg hmapped]
    exact yields_pure (adds_of_eq rfl)

end

section

variable {slack : Nat → Nat} {s₀ s s' : Machine} {pid addr length : Nat} {rw user : Bool}

/-- What was mapped into the kernel is still there, and what was added is no memory of a process. -/
structure Withdrawn (s₀ s : Machine) : Prop where
  kernel : ∀ k, s₀.kernel k ≠ .zero → s.kernel k = s₀.kernel k
  apart : Apart (fun _ => False) s₀ s

/-- Moreover the references are exact, and all page tables are mapped. -/
structure Orderly (slack : Nat → Nat) (s₀ s : Machine) : Prop extends Withdrawn s₀ s where
  inv : Inv slack 0 s
  settled : Settled s

/-- The page of a process which is filled was not in use, and neither was its frame. -/
theorem take_orderly {α : Type} (rw user : Bool) {a : α} {page : Nat} {k : Nat → PagingEntry → M α}
    (h : Orderly slack s₀ s) (hpage : page < PAGE_COUNT)
    (hok : (do
      let index ← physMemAllocPage false
      let _ ← getPagingEntry (some pid) page true
      let table ← loadEntry (some pid) page
      k index table) s = .ok (a, s')) :
    ∃ f s₁, Mapped s₁ (some pid) page ∧ Structured s₁ ∧ k f (s₁.entry (some pid) page) s₁ =
      .ok (a, s') ∧
      (s₁.entry (some pid) page = .zero →
        Orderly slack s₀ (s₁.setEntry (some pid) page ⟨true, rw, user, 0, f⟩)) := by
  obtain ⟨f, s₁, halloc, hok⟩ := bind_ok.mp hok
  obtain ⟨⟨h₁, hg₁, hused, hfresh, hunused, -⟩, -, hsame, -⟩ :=
    ((physMemAllocPage_fresh h.inv zero_nonneg false).and (physMemAllocPage_spec h.inv false)).of_ok
      halloc
  have hs₁ := processClosed_settled.physMemAllocPage _ _ _ _ halloc h.settled
  rw [zero_add] at h₁
  obtain ⟨r, s₂, hentry, hok⟩ := bind_ok.mp hok
  obtain ⟨⟨h₂, hg₂, hmapped, hr, -⟩, ha₂⟩ :=
    ((getProcessEntry_spec h₁ (due_nonneg _) hpage true).and
    (getProcessEntry_adds h₁ (due_nonneg _) hs₁ hpage true)).of_ok hentry
  have hs₂ := keeps_getProcessEntry _ _ _ _ _ _ hentry hs₁
  have hm := hmapped (hr rfl)
  obtain ⟨table, s₃, hload, hok⟩ := bind_ok.mp hok
  obtain ⟨rfl, rfl⟩ := loadEntry_inv hload
  refine ⟨f, s₃, hm, h₂.structured, hok, fun hzero => ?_⟩
  have hkept := kept_fill_grows rw user h.inv h₂ (hg₁.toGrows.trans hg₂) hpage hm trivial hzero
    (hfresh.mono hused hg₂)
  have hadds : Adds (fun _ => False) s s₃ :=
    (adds_of_eq hsame.kernel).trans ha₂ hg₁.toGrows hg₂
  have hnot : ∀ k, s.kernel k = .zero → s₃.kernel k ≠ .zero → (s₃.kernel k).frame ≠ f := by
    intro k hzero' hne hf
    have := ha₂ k nofun (by rw [hsame.kernel, hzero']) hne
    rw [hf, hused] at this
    cases this
  have hg := hg₁.toGrows.trans hg₂
  have hnames := names_setTable (e := ⟨true, rw, user, 0, f⟩) h₂.structured hpage hm
  have htable : ∀ q p g, names (s₃.setEntry (some pid) page ⟨true, rw, user, 0, f⟩)
    (.table q p) = some g →
      g = f ∨ names s (.table q p) = some g := by
    intro q p g hname
    rw [hnames] at hname
    rcases eq_or_ne (Place.table q p) (.table pid page) with heq | hne
    · rw [heq, Function.update_self] at hname
      exact Or.inl (Option.some.inj hname).symm
    · rw [Function.update_of_ne hne, names_table_of_mapping (hg.mapping q p)] at hname
      exact Or.inr hname
  refine ⟨⟨fun k hne => ?_, h.apart.trans ⟨fun k _ hne => hg.kernel k hne, fun q p g hname => ?_,
    fun k g _ hk hname q p hname' => ?_⟩ h.inv zero_nonneg hkept.inv.structured⟩, hkept.inv,
    (sameDirectories_setEntry _ _ _ _).keepsSettled hs₂⟩
  · have hkernel := h.kernel k hne
    exact (hg.kernel k (by rwa [hkernel])).trans hkernel
  · rcases htable q p g hname with rfl | hold
    · exact Or.inl hunused
    · exact Or.inr ⟨p, hold⟩
  · rw [hnames, Function.update_of_ne (by simp)] at hname
    have hne := (kernel_ne_zero_of_names hname).2
    have hframe := frame_of_names h₂.structured hname
    have hnew := hadds k nofun hk hne
    rcases htable q p g hname' with rfl | hold
    · exact hnot k hk hne hframe
    · rw [hframe, used_of_names h.inv zero_nonneg hold] at hnew
      cases hnew

theorem fixedLoop_orderly {cur : Nat} (h : Orderly slack s₀ s)
    (hok : fixedLoop (some pid) addr rw user length cur s = .ok (true, s')) :
      Orderly slack s₀ s' := by
  induction length generalizing s cur with
  | zero =>
      cases hok
      exact h
  | succ length ih =>
      rw [fixedLoop] at hok
      obtain ⟨f, s₁, hm, h₁, hok, hfill⟩ := take_orderly rw user h (pageOf_lt cur) hok
      split at hok
      · obtain ⟨_, _, -, hok⟩ := bind_ok.mp hok
        obtain ⟨_, _, -, hok⟩ := bind_ok.mp hok
        cases hok
      · next hzero =>
        obtain ⟨_, s₂, hstore, hok⟩ := bind_ok.mp hok
        obtain rfl := storeEntry_inv hstore
        exact ih (hfill (not_not.mp hzero)) hok

/-- A page which is in use stops the kernel. -/
theorem pagingAllocatePhysMemFixed_orderly {r : Nat} (h : Orderly slack s₀ s)
    (hok : pagingAllocatePhysMemFixed (some pid) addr length rw user s = .ok (r, s')) :
    Orderly slack s₀ s' := by
  obtain ⟨r₁, s₁, htry, hok⟩ := bind_ok.mp hok
  rcases r₁ with _ | addr'
  · cases hok
  cases hok
  rw [pagingTryAllocatePhysMemFixed] at htry
  split at htry
  · cases htry
  · obtain ⟨success, s₂, hloop, htry⟩ := bind_ok.mp htry
    rcases success with _ | _
    · cases htry
    · cases htry
      exact fixedLoop_orderly h hloop

end

section

variable {slack : Nat → Nat} {s₀ s s' : Machine} {pid addr src_addr byte_length length : Nat}
    {rw : Bool}

/-- Besides the pages of an area, which it may release, the kernel has mapped no memory of a
process. -/
structure Lent (slack : Nat → Nat) (s₀ : Machine) (length addr : Nat) (s : Machine) : Prop where
  inv : Inv slack 0 s
  settled : Settled s
  kernel : ∀ k, s₀.kernel k ≠ .zero → ¬Span length addr k ∧ s.kernel k = s₀.kernel k
  apart : Apart (Span length addr) s₀ s
  pages : ∀ page, Span length addr page → page < KERNEL_PAGE ∧ ¬Owned s page

theorem pageOf_or_offset (haligned : addr % PAGE_SIZE = 0) (offset : Nat) :
    pageOf (addr ||| offset % PAGE_SIZE) = pageOf addr := by
  have hlt : offset % PAGE_SIZE < PAGE_SIZE := Nat.mod_lt _ (by decide)
  have hdiv : (addr + offset % PAGE_SIZE) / PAGE_SIZE = addr / PAGE_SIZE := by
    simp only [PAGE_SIZE] at *
    omega
  rw [or_offset haligned]
  unfold pageOf
  rw [hdiv]

theorem span_or (hend : pageOf addr + length ≤ KERNEL_PAGE) (haligned : addr % PAGE_SIZE = 0)
    (offset page : Nat) : Span length (addr ||| offset % PAGE_SIZE) page ↔
      Span length addr page := by
  have hpage := pageOf_or_offset haligned offset
  have hle := kernel_page_le
  rw [span_iff (by omega), span_iff (by omega), hpage]

theorem apart_cleared {area : Nat → Prop} (h : Apart area s₀ s)
    (hclear : ∀ page, area page → s.kernel page = .zero) : Apart (fun _ => False) s₀ s := by
  intro k f _ hzero hname
  have hk : ¬area k := fun hk => (kernel_ne_zero_of_names hname).2 (hclear k hk)
  exact h k f hk hzero hname

theorem pagingTryMapUserMem_lent {r : Option Nat} (h : Orderly slack s₀ s)
    (hsrc : src_addr < 2 ^ 32)
    (hok : pagingTryMapUserMem (some pid) src_addr length rw s = .ok (r, s')) :
    (r = none → Orderly slack s₀ s') ∧ ∀ addr, r = some addr → Lent slack s₀ length addr s' := by
  obtain ⟨dst_addr, -, hattempted, haddr, hapart, hsame⟩ :=
    pagingTryMapUserMem_apart h.inv h.settled h.apart hsrc hok
  have hs' := hsame.keepsSettled h.settled
  have hout : ∀ k, s₀.kernel k ≠ .zero → s.kernel k ≠ .zero ∧ ¬Span length dst_addr k := by
    intro k hne
    have hne' : s.kernel k ≠ .zero := by rwa [h.kernel k hne]
    exact ⟨hne', fun hk => hne' (hattempted.unused k hk)⟩
  refine ⟨?_, ?_⟩
  · rintro rfl
    have hrefused := hattempted.failure rfl
    refine ⟨⟨fun k hne => ?_, apart_cleared hapart hrefused.clear⟩, hrefused.inv, hs'⟩
    obtain ⟨hne', hk⟩ := hout k hne
    exact (hrefused.kernel nofun k hk hne').trans (h.kernel k hne)
  · rintro addr rfl
    obtain ⟨hopening, harea⟩ := hattempted.success rfl
    obtain rfl := haddr addr rfl
    have hspan := span_or hattempted.fits hattempted.aligned src_addr
    refine ⟨hopening.inv, hs', fun k hne => ?_, fun k f hk => hapart k f fun hk' =>
      hk ((hspan k).mpr hk'),
      fun page hpage => ?_⟩
    · obtain ⟨hne', hk⟩ := hout k hne
      exact ⟨fun hk' => hk ((hspan k).mp hk'),
        (hopening.kernel nofun k hk hne').trans (h.kernel k hne)⟩
    · obtain ⟨hlt, hloose⟩ := harea rfl page ((hspan page).mp hpage)
      exact ⟨hlt, hloose.2⟩

theorem Lent.release {u : Unit} (h : Lent slack s₀ length addr s)
    (hok : pagingReleasePhysMem none addr length s = .ok (u, s')) : Orderly slack s₀ s' := by
  obtain ⟨⟨hinv, hreleased⟩, hclear⟩ := ((pagingReleasePhysMem_kernel h.inv zero_nonneg h.pages).and
    (pagingReleasePhysMem_clears h.inv zero_nonneg h.pages)).of_ok hok
  have hsame := closed_sameDirectories.pagingReleasePhysMem _ _ _ _ _ hok
  refine ⟨⟨fun k hne => ?_,
    apart_cleared (apart_released h.apart h.inv.structured hinv.structured hreleased)
    hclear⟩, hinv, hsame.keepsSettled h.settled⟩
  obtain ⟨hk, hkernel⟩ := h.kernel k hne
  exact (hreleased.kernel k hk).trans hkernel

/-- Only the contents of frames are changed. -/
def Written (s s' : Machine) : Prop := ∃ m, s' = { s with memory := m }

theorem written_refl (s : Machine) : Written s s := ⟨s.memory, rfl⟩

theorem Written.trans {s'' : Machine} (h : Written s s') (h' : Written s' s'') : Written s s'' := by
  obtain ⟨m, rfl⟩ := h
  obtain ⟨m', rfl⟩ := h'
  exact ⟨m', rfl⟩

theorem keeps_storeByte (page offset : Nat) (value : BitVec 8) :
    Keeps Written (storeByte page offset value) := by
  refine Keeps.bind (fun _ _ _ => Written.trans) (keeps_get written_refl) fun s => ?_
  split
  · exact keeps_throw _
  · exact keeps_ite (keeps_throw _) (keeps_modify fun _ => ⟨_, rfl⟩)

theorem keeps_storeBytes (addr : Nat) (values : List (BitVec 8)) :
    Keeps Written (storeBytes addr values) := by
  induction values generalizing addr with
  | nil => exact keeps_pure written_refl _
  | cons value values ih =>
      exact Keeps.bind (fun _ _ _ => Written.trans) (keeps_storeByte _ _ _) fun _ => ih _

theorem Lent.written (h : Lent slack s₀ length addr s) (hw : Written s s') :
    Lent slack s₀ length addr s' := by
  obtain ⟨m, rfl⟩ := hw
  exact ⟨inv_memory h.inv m, ⟨h.settled.enabled, h.settled.tables⟩, h.kernel, h.apart, h.pages⟩

theorem Orderly.written (h : Orderly slack s₀ s) (hw : Written s s') : Orderly slack s₀ s' := by
  obtain ⟨m, rfl⟩ := hw
  exact ⟨⟨h.kernel, h.apart⟩, inv_memory h.inv m, ⟨h.settled.enabled, h.settled.tables⟩⟩

end

section

variable {α : Type} {slack : Nat → Nat} {s₀ m : Machine} {s s' : Loader} {pid i rounds : Nat}
    {b : Buffer}
  {header : ElfHeader} {heap : Heap} {base : Finset Nat} {pages : List RequiredPages}

theorem onMachine_ok {op : M α} {a : α} (hok : onMachine op s = .ok (a, s')) :
    op s.machine = .ok (a, s'.machine) ∧ s'.blocks = s.blocks := by
  rw [onMachine] at hok
  rcases hop : op s.machine with e | ⟨a', m⟩ <;> rw [hop] at hok
  · cases hok
  · cases hok
    exact ⟨rfl, rfl⟩

theorem readBuffer_ok {a length : Nat} {r r' : α} (hok : readBuffer b a length r s = .ok (r', s')) :
    a + length ≤ b.length ∧ r' = r ∧ s' = s := by
  rw [readBuffer] at hok
  split at hok
  · next hle =>
    cases hok
    exact ⟨hle, rfl, rfl⟩
  · cases hok

/-- The list is given back while its pages are allocated. -/
theorem allocateLoop_orderly {u : Unit} (h : Orderly slack s₀ s.machine) (hl : Listed base pages s)
    (hok : allocateLoop pid pages s = .ok (u, s')) : Orderly slack s₀ s'.machine ∧
      s'.blocks = base := by
  induction pages generalizing s with
  | nil =>
      cases hok
      exact ⟨h, by simpa [blocksOf] using hl.blocks⟩
  | cons it rest ih =>
      obtain ⟨r, s₁, hallocate, hok₁⟩ := bind_ok.mp hok
      obtain ⟨_, s₂, hfree, hok₂⟩ := bind_ok.mp hok₁
      obtain ⟨hallocate, hblocks⟩ := onMachine_ok hallocate
      have h₁ := pagingAllocatePhysMemFixed_orderly h hallocate
      have hl₁ : Listed base (it :: rest) s₁ := ⟨hl.nodup, hl.new, hblocks.trans hl.blocks⟩
      obtain ⟨_, hfree', hsame, hl₂⟩ := heapFree_spec hl₁
      cases hfree.symm.trans hfree'
      exact ih (hsame.machine ▸ h₁) hl₂ hok₂

theorem storeSection_orderly {e : ElfSection} {r : Bool} (h : Orderly slack s₀ s.machine)
    (haddr : e.addr < 2 ^ 32)
    (hok : storeSection pid b e s = .ok (r, s')) : Orderly slack s₀ s'.machine ∧
      s'.blocks = s.blocks := by
  rw [storeSection] at hok
  obtain ⟨⟨accessed, k⟩, s₁, haccess, hok₁⟩ := bind_ok.mp hok
  obtain ⟨haccess, hblocks₁⟩ := onMachine_ok haccess
  rw [accessUserMemory] at haccess
  have hread : ∀ {values s₂}, readData b e s₁ = .ok (values, s₂) → s₂ = s₁ := by
    intro values s₂ hdata
    rw [readData] at hdata
    split at hdata
    · cases hdata
      rfl
    · exact (readBuffer_ok hdata).2.2
  split at haccess
  · obtain ⟨hpair, hmachine⟩ := Prod.mk.inj (Except.ok.inj haccess)
    obtain ⟨rfl, rfl⟩ := Prod.mk.inj hpair
    obtain ⟨values, s₂, hdata, hok₂⟩ := bind_ok.mp hok₁
    obtain ⟨_, s₃, hstore, hok₃⟩ := bind_ok.mp hok₂
    obtain ⟨_, s₄, hrelease, ⟨⟩⟩ := bind_ok.mp hok₃
    obtain rfl := hread hdata
    obtain ⟨hstore, hblocks₃⟩ := onMachine_ok hstore
    obtain ⟨hrelease, hblocks₄⟩ := onMachine_ok hrelease
    obtain ⟨-, hmachine₄⟩ := Prod.mk.inj (Except.ok.inj hrelease)
    have h₃ := (hmachine ▸ h).written (keeps_storeBytes _ _ _ _ _ hstore)
    exact ⟨hmachine₄ ▸ h₃, hblocks₄.trans (hblocks₃.trans hblocks₁)⟩
  · obtain ⟨addr, s₂, hmap, haccess⟩ := bind_ok.mp haccess
    obtain ⟨hrefused, hlent⟩ := pagingTryMapUserMem_lent h haddr hmap
    obtain ⟨hpair, rfl⟩ := Prod.mk.inj (Except.ok.inj haccess)
    obtain ⟨rfl, rfl⟩ := Prod.mk.inj hpair
    rcases addr with _ | addr
    · cases hok₁
      exact ⟨hrefused rfl, hblocks₁⟩
    · obtain ⟨values, s₂, hdata, hok₂⟩ := bind_ok.mp hok₁
      obtain ⟨_, s₃, hstore, hok₃⟩ := bind_ok.mp hok₂
      obtain ⟨_, s₄, hrelease, ⟨⟩⟩ := bind_ok.mp hok₃
      obtain rfl := hread hdata
      obtain ⟨hstore, hblocks₃⟩ := onMachine_ok hstore
      obtain ⟨hrelease, hblocks₄⟩ := onMachine_ok hrelease
      have h₃ := (hlent addr rfl).written (keeps_storeBytes _ _ _ _ _ hstore)
      exact ⟨h₃.release hrelease, hblocks₄.trans (hblocks₃.trans hblocks₁)⟩

theorem storeLoop_orderly {r : Bool} (h : Orderly slack s₀ s.machine) (hr : Reads b header i)
    (hok : storeLoop pid b header rounds (entryOffset header i) s = .ok (r, s')) :
    Orderly slack s₀ s'.machine ∧ s'.blocks = s.blocks := by
  induction rounds generalizing s i with
  | zero =>
      cases hok
      exact ⟨h, rfl⟩
  | succ rounds ih =>
      rw [storeLoop, bind_apply, nextSection_eq hr] at hok
      rcases he : entryAt b header (i + 1) with _ | e
      · rw [he] at hok
        cases hok
        exact ⟨h, rfl⟩
      · simp only [he, hr.next.1] at hok
        split at hok
        · exact ih h (hr.succ he) hok
        · obtain ⟨stored, s₁, hsection, hok₁⟩ := bind_ok.mp hok
          obtain ⟨h₁, hblocks₁⟩ := storeSection_orderly h (bounded_of_entryAt he).addr hsection
          split at hok₁
          · obtain ⟨h', hblocks⟩ := ih h₁ (hr.succ he) hok₁
            exact ⟨h', hblocks.trans hblocks₁⟩
          · cases hok₁
            exact ⟨h₁, hblocks₁⟩

end

section

variable {slack : Nat → Nat} {s s' : Loader} {pid : Nat} {b : Buffer} {header : ElfHeader}
    {heap : Heap}
  {base : Finset Nat} {pages : List RequiredPages} {r : Bool}

/-- The first entry which is rejected comes after one which needs pages. -/
def LosesPages (b : Buffer) (header : ElfHeader) : Prop :=
  ∃ k < header.shnum, Rejected b header (k + 1) ∧ (∀ m < k, ¬Rejected b header (m + 1)) ∧
    ∃ m < k, ∃ e, entryAt b header (m + 1) = some e ∧ e.addr ≠ 0 ∧ startIndex e < stopIndex e

/-- The sections are looked at. -/
structure HeaderAccepted (b : Buffer) : Prop where
  length : HEADER_SIZE ≤ b.length
  mag : (headerAt b.contents).mag = ELF_MAG
  shoff : (headerAt b.contents).shoff ≤ b.length

theorem blocks_eq_iff (h : Listed base pages s) (hc : Canonical (ranges pages)) :
    s.blocks = base ↔ ∀ n, ¬Covers (ranges pages) n := by
  rcases pages with _ | ⟨it, rest⟩
  · refine iff_of_true ?_ fun n hn => ?_
    · simpa [blocksOf] using h.blocks
    · simp [ranges, Covers] at hn
  · refine iff_of_false (fun heq => ?_) fun hnot => hnot it.range.start ?_
    · have hmem : it.block ∈ s.blocks := by
        rw [h.blocks, Finset.mem_union, List.mem_toFinset]
        exact Or.inr List.mem_cons_self
      exact h.new it.block List.mem_cons_self (heq ▸ hmem)
    · exact ⟨it.range, List.mem_cons_self, le_rfl, hc.nonempty it.range List.mem_cons_self⟩

theorem orderly_refl (h : Inv slack 0 s.machine) (hs : Settled s.machine) :
    Orderly slack s.machine s.machine := ⟨⟨fun _ _ => rfl, apart_refl _ _⟩, h, hs⟩

theorem losesPages_iff : LosesPages b header ↔
    (scan b header header.shnum 0).2 = false ∧ ∃ n, Needed (scan b header header.shnum 0).1 n := by
  constructor
  · rintro ⟨k, hk, hr, hbefore, m, hm, e, he, haddr, hlt⟩
    obtain ⟨hfalse, hmem⟩ := scan_some (i := 0) hk (by rwa [Nat.zero_add]) fun m hm => by
      rw [Nat.zero_add]
      exact hbefore m hm
    refine ⟨hfalse, startIndex e, e, (hmem e).mpr ⟨m, hm, ?_⟩, haddr, le_rfl, hlt⟩
    rwa [Nat.zero_add]
  · rintro ⟨hfalse, n, e, he, haddr, hle, hlt⟩
    rcases Classical.em (∃ k, k < header.shnum ∧ Rejected b header (k + 1)) with hex | hno
    · classical
      obtain ⟨hk, hr⟩ := Nat.find_spec hex
      have hbefore : ∀ m < Nat.find hex, ¬Rejected b header (m + 1) := fun m hm hr =>
        Nat.find_min hex hm ⟨hm.trans hk, hr⟩
      obtain ⟨-, hmem⟩ := scan_some (i := 0) hk (by rwa [Nat.zero_add]) fun m hm => by
        rw [Nat.zero_add]
        exact hbefore m hm
      obtain ⟨m, hm, he⟩ := (hmem e).mp he
      rw [Nat.zero_add] at he
      exact ⟨Nat.find hex, hk, hr, hbefore, m, hm, e, he, haddr, by omega⟩
    · have hall := (scan_all (i := 0) fun m hm hr => hno ⟨m, hm, by rwa [Nat.zero_add] at hr⟩).1
      rw [hfalse] at hall
      cases hall

theorem loadSections_remains (h : Inv slack 0 s.machine) (hs : Settled s.machine)
    (hr : Reads b header 0)
    (hok : loadSections heap pid b header s = .ok (r, s')) :
    Orderly slack s.machine s'.machine ∧ (s'.blocks = s.blocks ↔ ¬LosesPages b header) := by
  have hoffset : entryOffset header 0 =
    header.shoff := by rw [entryOffset, Nat.zero_mul, Nat.add_zero]
  obtain ⟨pages, s₁, hrequire, hsame, hlisted, hc, hcovers⟩ :=
    requireLoop_spec heap header.shnum hr (listed_nil s) canonical_nil
  have h₁ : Orderly slack s.machine s₁.machine := by
    rw [hsame.machine]
    exact orderly_refl h hs
  rw [hoffset] at hrequire
  rw [loadSections, bind_apply, hrequire] at hok
  rw [losesPages_iff]
  rcases hscan : (scan b header header.shnum 0).2 with _ | _
  · simp only [hscan] at hok
    cases hok
    refine ⟨h₁, (blocks_eq_iff hlisted hc).trans ?_⟩
    simp only [hcovers, true_and, not_exists]
    refine forall_congr' fun n => not_congr (or_iff_right ?_)
    rintro ⟨i, hi, -⟩
    cases hi
  · simp only [hscan, if_true] at hok
    obtain ⟨_, s₂, hallocate, hok₁⟩ := bind_ok.mp hok
    obtain ⟨h₂, hblocks₂⟩ := allocateLoop_orderly h₁ hlisted hallocate
    obtain ⟨stored, s₃, hstore, hok₂⟩ := bind_ok.mp hok₁
    rw [← hoffset] at hstore
    obtain ⟨h₃, hblocks₃⟩ := storeLoop_orderly h₂ hr hstore
    have hrest : s'.machine = s₃.machine ∧ s'.blocks = s₃.blocks := by
      split at hok₂ <;> cases hok₂ <;> exact ⟨rfl, rfl⟩
    refine ⟨hrest.1 ▸ h₃, iff_of_true (hrest.2.trans (hblocks₃.trans hblocks₂)) fun hlost => ?_⟩
    cases hlost.1

/-- On every return of the loader no memory of a process stays mapped in the kernel, and its
heap is as before unless a file is rejected after one of its sections was accepted. -/
theorem loader_leaks_iff (hs : Reached s.machine) (heap : Heap) (pid : Nat) (b : Buffer)
    (hok : elfLoadBinary heap pid b s = .ok (r, s')) :
    (s'.blocks = s.blocks ∧ Withdrawn s.machine s'.machine) ↔
      ¬(HeaderAccepted b ∧ LosesPages b (headerAt b.contents)) := by
  obtain ⟨slack, h, -⟩ := hs.inv
  have hsettled := Reached.settled hs
  have hsame : s' = s → ¬HeaderAccepted b →
    ((s'.blocks = s.blocks ∧ Withdrawn s.machine s'.machine) ↔
      ¬(HeaderAccepted b ∧ LosesPages b (headerAt b.contents))) := by
    rintro rfl hnot
    exact iff_of_true ⟨rfl, (orderly_refl h hsettled).toWithdrawn⟩ fun hlost => hnot hlost.1
  rw [elfLoadBinary] at hok
  split at hok
  · next hlt =>
    cases hok
    exact hsame rfl fun hheader => absurd hheader.length (Nat.not_le.mpr hlt)
  next hlength =>
  obtain ⟨_, s₁, hread, hok₁⟩ := bind_ok.mp hok
  obtain ⟨-, rfl, rfl⟩ := readBuffer_ok hread
  split at hok₁
  · next hmag =>
    cases hok₁
    exact hsame rfl fun hheader => hmag hheader.mag
  next hmag =>
  split at hok₁
  · next hshoff =>
    cases hok₁
    exact hsame rfl fun hheader => absurd hheader.shoff (Nat.not_le.mpr hshoff)
  next hshoff =>
  have hheader : HeaderAccepted b :=
    ⟨Nat.le_of_not_lt hlength, not_not.mp hmag, Nat.le_of_not_lt hshoff⟩
  have hr : Reads b (headerAt b.contents) 0 := by
    refine ⟨?_, half_lt _ _⟩
    rw [entryOffset, Nat.zero_mul, Nat.add_zero]
    exact hheader.shoff
  obtain ⟨horderly, hblocks⟩ := loadSections_remains h hsettled hr hok₁
  rw [hblocks, and_iff_left horderly.toWithdrawn, and_iff_right hheader]

end

section

/-- The four bytes of a word. -/
def bytesOf (n : Nat) : List (BitVec 8) :=
  [BitVec.ofNat 8 n, BitVec.ofNat 8 (n / 2 ^ 8), BitVec.ofNat 8 (n / 2 ^ 16),
    BitVec.ofNat 8 (n / 2 ^ 24)]

/-- A header with the table entries right behind it, where entry 1 is the first of them. -/
def sampleHeader (shnum : Nat) : List (BitVec 8) :=
  ELF_MAG ++ List.replicate 20 0 ++ bytesOf 0x1000 ++ bytesOf 0 ++ bytesOf 12 ++
    List.replicate 10 0 ++
    [40, 0, BitVec.ofNat 8 shnum, 0, 0, 0]

/-- Zeros for a part of a page. -/
def sampleSection (addr size : Nat) : List (BitVec 8) :=
  bytesOf 0 ++ bytesOf ELF_STYPE_NOBITS ++ bytesOf 0 ++ bytesOf addr ++ bytesOf 0 ++ bytesOf size ++
    List.replicate 16 0

def sampleFile : Buffer := ⟨sampleHeader 1 ++ sampleSection 0x1010 0x10, by decide +kernel⟩

/-- The second entry of the table is missing. -/
def truncatedFile : Buffer := ⟨sampleHeader 2 ++ sampleSection 0x1010 0x10, by decide +kernel⟩

def sampleHeap : Heap where
  address blocks := blocks.sup id + 1
  unused _ hmem := Nat.not_succ_le_self _ (Finset.le_sup (f := id) hmem)

def sampleLoader (m : Machine) : Loader := ⟨m, ∅, fun _ => 0⟩

theorem sampleFile_facts : ((pagingInit [] sampleMachine).toOption.bind fun r =>
    (run next r.2 sampleEvents).toOption.bind fun r =>
      (elfLoadBinary sampleHeap 0 sampleFile (sampleLoader r.1)).toOption.map (·.1)) =
        some true := by
  decide +kernel

theorem truncatedFile_lost (m : Machine) :
    elfLoadBinary sampleHeap 0 truncatedFile (sampleLoader m) =
    .ok (false, ⟨m, {1}, fun _ => 0⟩) := rfl

theorem loader_leaks_iff_sample : ∃ m s', Reached m ∧
    elfLoadBinary sampleHeap 0 sampleFile (sampleLoader m) = .ok (true, s') ∧ s'.blocks = ∅ ∧
      Withdrawn m s'.machine := by
  obtain ⟨⟨_, s₀⟩, hinit, hfacts⟩ := Option.bind_eq_some_iff.mp sampleFile_facts
  obtain ⟨⟨m, answers⟩, hrun, hfacts⟩ := Option.bind_eq_some_iff.mp hfacts
  obtain ⟨⟨r, s'⟩, hok, rfl⟩ := Option.map_eq_some_iff.mp hfacts
  have hm := reached_sample (toOption_eq_some hinit) (toOption_eq_some hrun)
  have hok := toOption_eq_some hok
  refine ⟨m, s', hm, hok, (loader_leaks_iff (s := sampleLoader m) hm _ _ _ hok).mpr ?_⟩
  rintro ⟨-, k, hk, -, -, n, hn, -⟩
  have hone : (headerAt sampleFile.contents).shnum = 1 := by decide +kernel
  omega

theorem loader_leaks : ∃ m s', Reached m ∧
    elfLoadBinary sampleHeap 0 truncatedFile (sampleLoader m) = .ok (false, s') ∧
      s'.blocks ≠ ∅ := by
  obtain ⟨⟨_, s₀⟩, hinit, hfacts⟩ := Option.bind_eq_some_iff.mp sampleFile_facts
  obtain ⟨⟨m, answers⟩, hrun, -⟩ := Option.bind_eq_some_iff.mp hfacts
  exact ⟨m, _, reached_sample (toOption_eq_some hinit) (toOption_eq_some hrun),
    truncatedFile_lost m,
    Finset.singleton_ne_empty 1⟩

end

end Ibnos.LoaderRemains
