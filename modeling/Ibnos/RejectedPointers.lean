import Ibnos.TableMappings

/-!
A pointer which a process may not use. By the time this is found out a part of the
buffer is mapped and pages of the process may have been duplicated, but nothing of it
is left in the kernel.
-/

namespace Ibnos.RejectedPointers

open Ibnos.Runs
open Ibnos.Memory
open Ibnos.Physmem
open Ibnos.Paging
open Ibnos.Programs
open Ibnos.References
open Ibnos.KernelPages
open Ibnos.NewPages
open Ibnos.ProcessPages
open Ibnos.PagingOperations
open Ibnos.Locality
open Ibnos.UserMemory
open Ibnos.PagingRuns
open Ibnos.PagingPrograms
open Ibnos.TableMappings

section

variable {slack : Nat → Nat} {s₀ s s' : Machine} {rw success : Bool}
  {pid total dst_addr src_addr n length : Nat}

theorem apart_released {area : Nat → Prop} (h : Apart area s₀ s) (hs : Structured s)
    (hs' : Structured s')
    (hr : Released area s s') : Apart area s₀ s' := by
  intro k f hk hzero hname q page htable
  rw [names_table_of_mapping (congrFun (congrFun (mapping_of_process hr.process) q) page)] at htable
  exact h k f hk hzero (names_of_kernel_eq hs hs' (hr.kernel k hk) hname) q page htable

theorem keeps_sameDirectories_copyPage (destination source : Nat) :
    Keeps SameDirectories (copyPage destination source) := by
  refine Keeps.bind (fun _ _ _ => SameDirectories.trans) (keeps_get sameDirectories_refl) fun s =>
    ?_
  split
  · exact keeps_modify fun _ => sameDirectories_of_process rfl rfl
  · exact keeps_throw _

theorem keeps_sameDirectories_mapUserPage (src_p : Option Nat) (rw : Bool) (dst_page src_page : Nat)
    (src : PagingEntry) : Keeps SameDirectories (mapUserPage src_p rw dst_page src_page src) :=
  closed_sameDirectories.mapUserPage keeps_sameDirectories_copyPage _ _ _ _ _

/-- In every round the new pages of the kernel stay apart from those of the processes. -/
theorem userLoop_apart (h : Inv slack 0 s) (hs : Settled s) (hc : Apart (Span total dst_addr) s₀ s)
    (haddr : dst_addr < 2 ^ 32) (hend : pageOf dst_addr + total ≤ KERNEL_PAGE)
    (hn : n + length = total)
    (ha : Area s none total dst_addr)
    (hok : userLoop (some pid) rw dst_addr length ((dst_addr + n * PAGE_SIZE) % 2 ^ 32)
      ((src_addr + n * PAGE_SIZE) % 2 ^ 32) s = .ok (success, s')) :
    Apart (Span total dst_addr) s₀ s' ∧ SameDirectories s s' := by
  induction length generalizing s n with
  | zero =>
      cases hok
      exact ⟨hc, sameDirectories_refl _⟩
  | succ length ih =>
      have hinvalid : ∀ {s₁}, Inv slack 0 s₁ → Apart (Span total dst_addr) s₀ s₁ →
          Area s₁ none total dst_addr → SameDirectories s s₁ →
          userLoop.invalid dst_addr length ((dst_addr + n * PAGE_SIZE) % 2 ^ 32) s₁ =
            .ok (success, s') →
          Apart (Span total dst_addr) s₀ s' ∧ SameDirectories s s' := by
        intro s₁ h₁ hc₁ ha₁ hd₁ hok₁
        obtain ⟨-, h', hr, -⟩ := (invalid_released h₁ haddr hend hn ha₁).of_ok hok₁
        refine ⟨apart_released hc₁ h₁.structured h'.structured hr, hd₁.trans ?_⟩
        obtain ⟨_, s₂, hrelease, ⟨⟩⟩ := bind_ok.mp hok₁
        exact closed_sameDirectories.pagingReleasePhysMem _ _ _ _ _ hrelease
      have hdst : pageOf ((dst_addr + n * PAGE_SIZE) % 2 ^ 32) = pageOf dst_addr + n := by
        refine pageOf_add ?_
        simp only [KERNEL_PAGE, PAGE_COUNT] at *
        omega
      have hdst_lt : pageOf dst_addr + n < KERNEL_PAGE := by omega
      have hsrc_lt : (pageOf src_addr + n) % PAGE_COUNT < PAGE_COUNT := Nat.mod_lt _ (by decide)
      rw [userLoop, hdst, pageOf_src] at hok
      obtain ⟨r, s₁, hentry, hok₁⟩ := bind_ok.mp hok
      obtain rfl := getPagingEntry_settled hs hentry
      obtain ⟨-, -, hmapped, -⟩ :=
        (getPagingEntry_none h zero_nonneg hsrc_lt (some pid)).of_ok hentry
      split at hok₁
      · next hr =>
        have hms := hmapped hr
        obtain ⟨src, s₂, hload, hok₂⟩ := bind_ok.mp hok₁
        obtain ⟨rfl, rfl⟩ := loadEntry_inv hload
        split at hok₂
        · exact hinvalid h hc ha (sameDirectories_refl _) hok₂
        · next hgood =>
          obtain ⟨r', s₃, hkernel, hok₃⟩ := bind_ok.mp hok₂
          obtain ⟨⟨h₃, hg₃, -, hmapped', hr', -⟩, hadds⟩ :=
            ((getKernelEntry_spec h (kernel_lt hdst_lt) true).and
            (getKernelEntry_adds (Span total dst_addr) h _ true)).of_ok hkernel
          have hd₃ := closed_sameDirectories.getKernelEntry _ _ _ _ _ hkernel
          have hc₃ := hc.trans (tidy_of_grows h zero_nonneg h₃.structured hg₃.toGrows hadds) h
            zero_nonneg
            h₃.structured
          have ha₃ := ha.mono hg₃.toGrows.extends
          obtain ⟨dst, s₄, hload', hok₄⟩ := bind_ok.mp hok₃
          obtain ⟨rfl, rfl⟩ := loadEntry_inv hload'
          obtain ⟨_, s₅, hcheck, hok₅⟩ := bind_ok.mp hok₄
          obtain ⟨hreserved, rfl⟩ := check_inv hcheck
          split at hok₅
          · exact hinvalid h₃ hc₃ ha₃ hd₃ hok₅
          · next haccepted =>
            have hentry' : s₅.entry (some pid) ((pageOf src_addr + n) % PAGE_COUNT) =
                s₂.entry (some pid) ((pageOf src_addr + n) % PAGE_COUNT) :=
              entry_of_process (fun _ => hg₃.kernel _) hg₃.process fun hzero => hgood (Or.inl hzero)
            have huser : (s₅.entry (some pid) ((pageOf src_addr + n) % PAGE_COUNT)).user =
              true := by
              rw [hentry']
              simpa using fun huser => hgood (Or.inr huser)
            rw [← hentry'] at haccepted hok₅
            have hms₅ := hg₃.toGrows.extends.mapped _ _ hms
            have hw : Writable s₅ none (pageOf dst_addr + n) :=
              ⟨hdst_lt, (ha₃ rfl _ (span_add hend (by omega))).2.2⟩
            obtain ⟨_, s₆, hmap, hok₆⟩ := bind_ok.mp hok₅
            have hopened :=
              (mapUserPage_spec h₃ hdst_lt hsrc_lt (hmapped' (hr' rfl)) hms₅ hw hreserved huser
              (by simpa using haccepted)).of_ok hmap
            have hd₆ := hd₃.trans (keeps_sameDirectories_mapUserPage _ _ _ _ _ _ _ _ hmap)
            have htidy : Tidy (Span total dst_addr) s₅ s₆ := by
              refine (hopened.tidy (by simp)).mono ?_
              rintro _ rfl
              exact span_add hend (by omega)
            have hc₆ := hc₃.trans htidy h₃ zero_nonneg hopened.inv.structured
            rw [nextPage_add, nextPage_add] at hok₆
            obtain ⟨hc', hd'⟩ := ih hopened.inv (hd₆.keepsSettled hs) hc₆ (by omega)
              (ha₃.mono hopened.extends') hok₆
            exact ⟨hc', hd₆.trans hd'⟩
      · exact hinvalid h hc ha (sameDirectories_refl _) hok₁

end

section

variable {slack : Nat → Nat} {s s' : Machine} {rw : Bool} {pid dst_addr src_addr length f : Nat}

/-- The entries of the page tables of processes which name a frame. -/
def mappers (s : Machine) (f : Nat) : Set Place :=
  {place | names s place = some f ∧ ∃ q page, place = .table q page}

/-- The entries of the kernel's page tables and of page directories which name a frame. -/
def holders (s : Machine) (f : Nat) : Set Place :=
  {place | names s place = some f ∧ ∀ q page, place ≠ .table q page}

/-- A frame which was handed out and which a process has. -/
def UserData (s : Machine) (f : Nat) : Prop := s.handedOut f = true ∧ (mappers s f).Nonempty

/-- Nothing is left of an attempt to map pages at `dst_addr`. -/
structure Traceless (s : Machine) (dst_addr length : Nat) (s' : Machine) : Prop where
  area : ∀ page, pageOf dst_addr ≤ page → page < pageOf dst_addr + length → s'.kernel page = .zero
  kernel : ∀ page, s.kernel page ≠ .zero → s'.kernel page = s.kernel page
  counts : ∀ f, UserData s' f → refCount s' f = (mappers s' f).ncard + (holders s f).ncard
  owned : ∀ f, UserData s' f → holders s f = ∅ → refCount s' f = (mappers s' f).ncard
  views : view s' = view s

theorem refCount_eq (h : Inv slack 0 s) (hf : UserData s f) :
    refCount s f = (mappers s f).ncard + (holders s f).ncard := by
  obtain ⟨hhanded, place, hname, -⟩ := hf
  obtain ⟨hfinite, -, hcount⟩ := exact_of_inv h f hhanded
  have hunion : {place | names s place = some f} = mappers s f ∪ holders s f := by
    ext place
    simp only [mappers, holders, Set.mem_union, Set.mem_ofPred_eq, ← and_or_left, ← not_exists,
      ne_eq]
    exact (and_iff_left (Classical.em _)).symm
  have hdisjoint : Disjoint (mappers s f) (holders s f) :=
    Set.disjoint_left.mpr fun place ⟨_, q, page, hplace⟩ ⟨_, hnot⟩ => hnot q page hplace
  rw [hcount (used_of_names h zero_nonneg hname), hunion]
  rw [hunion, Set.finite_union] at hfinite
  exact Set.ncard_union_eq hdisjoint hfinite.1 hfinite.2

/-- The kernel holds a frame of a process only where it held it before. -/
theorem holders_eq (h : Structured s) (h' : Structured s')
    (hkernel : ∀ page, s.kernel page ≠ .zero → s'.kernel page = s.kernel page)
    (hclear : ∀ page, Span length dst_addr page → s'.kernel page = .zero)
    (hapart : Apart (Span length dst_addr) s s') (hsame : SameDirectories s s')
    (hf : (mappers s' f).Nonempty) : holders s' f = holders s f := by
  obtain ⟨_, htable, q, page, rfl⟩ := hf
  ext place
  refine and_congr_left fun hnot => ?_
  cases place with
  | kernel k =>
      refine ⟨fun hname => ?_, fun hname => ?_⟩
      · have hk : ¬Span length dst_addr k :=
          fun hk => (kernel_ne_zero_of_names hname).2 (hclear k hk)
        rcases Classical.em (s.kernel k = .zero) with hzero | hne
        · exact (hapart k f hk hzero hname q page htable).elim
        · exact names_of_kernel_eq h h' (hkernel k hne) hname
      · exact names_of_kernel_eq h' h (hkernel k (kernel_ne_zero_of_names hname).2).symm hname
  | directory q i =>
      rw [names, names, hsame.directory, hsame.pageDirectory]
  | table q page => exact (hnot q page rfl).elim

/-- What is reserved was found unused below the kernel's page tables. -/
theorem reserved_area {s₁ s₂ : Machine} {u : Unit} (h : Inv slack 0 s)
    (hsearch : pagingSearchArea none length s = .ok (dst_addr, s₁))
    (hreserve : pagingReserveArea none false length dst_addr s₁ = .ok (u, s₂)) :
    s₁ = s ∧ dst_addr % PAGE_SIZE = 0 ∧ dst_addr < 2 ^ 32 ∧ 1 ≤ pageOf dst_addr ∧
      pageOf dst_addr + length ≤ KERNEL_PAGE ∧ ∀ page, Span length dst_addr page →
        s.kernel page = .zero := by
  obtain ⟨-, -, hsame, hbounds⟩ := (pagingSearchArea_spec h zero_nonneg none length).of_ok hsearch
  obtain rfl := hsame rfl
  obtain ⟨start, hstart, hone, hlt, hcase⟩ := hbounds rfl
  have hpage : pageOf dst_addr = start := by
    rw [hstart, pageOf_mul (kernel_lt hlt)]
  rcases hcase with ⟨hend, hzero⟩ | hover
  · refine ⟨rfl, by
      rw [hstart, Nat.mul_mod_left], ?_, by rwa [hpage], by rwa [hpage], fun page hspan => ?_⟩
    · simp only [KERNEL_PAGE, PAGE_SIZE] at *
      omega
    · have hle := kernel_page_le
      rw [span_iff (by omega), hpage] at hspan
      exact hzero page hspan.1 hspan.2
  · refine (Yields.of_ok (pagingReserveArea_overrun (Or.inl ⟨⟨0, h⟩, by rwa [hpage]⟩) ?_ ?_)
      hreserve).elim
    · simp only [KERNEL_PAGE, KERNEL_DIR] at *
      omega
    · simp only [KERNEL_DIR] at *
      omega

/-- Whether the area is mapped or not, the new pages of the kernel outside of it stay apart. -/
theorem pagingTryMapUserMem_apart {r : Option Nat} (h : Inv slack 0 s) (hs : Settled s)
    (hc : Apart (fun _ => False) s₀ s) (hsrc : src_addr < 2 ^ 32)
    (hok : pagingTryMapUserMem (some pid) src_addr length rw s = .ok (r, s')) :
    ∃ dst_addr, pagingSearchArea none length s = .ok (dst_addr, s) ∧
      Attempted slack (some pid) rw length src_addr s dst_addr r.isSome s' ∧
      (∀ addr, r = some addr → addr = (dst_addr ||| src_addr % PAGE_SIZE)) ∧
      Apart (Span length dst_addr) s₀ s' ∧ SameDirectories s s' := by
  rw [pagingTryMapUserMem] at hok
  obtain ⟨dst_addr, s₁, hsearch, hok₁⟩ := bind_ok.mp hok
  obtain ⟨_, s₂, hreserve, hok₂⟩ := bind_ok.mp hok₁
  obtain ⟨rfl, haligned, haddr, hpos, hend, hunused⟩ := reserved_area h hsearch hreserve
  obtain ⟨success, s₃, hloop, hok₃⟩ := bind_ok.mp hok₂
  cases hok₃
  obtain ⟨ho, ha⟩ := (opening_reserved (some pid) rw src_addr h hend).of_ok hreserve
  obtain ⟨hg₂, hadds⟩ := (pagingReserveArea_kernel h hend).of_ok hreserve
  have hs₂ := processClosed_settled.pagingReserveArea _ _ _ _ _ _ _ hreserve hs
  have hapart₁ : Apart (Span length dst_addr) s₀ s₁ := fun k f _ => hc k f (by simp)
  have hapart₂ := hapart₁.trans (tidy_of_grows h zero_nonneg ho.inv.structured hg₂.toGrows hadds) h
    zero_nonneg ho.inv.structured
  -- the loop starts at the first page
  have hstart : userLoop (some pid) rw dst_addr length ((dst_addr + 0 * PAGE_SIZE) % 2 ^ 32)
      ((src_addr + 0 * PAGE_SIZE) % 2 ^ 32) s₂ = .ok (success, s') := by
    rw [Nat.zero_mul, Nat.add_zero, Nat.add_zero, Nat.mod_eq_of_lt haddr, Nat.mod_eq_of_lt hsrc]
    exact hloop
  obtain ⟨hsuccess, hfailure⟩ := (userLoop_spec ho haddr hend (Nat.zero_add length) ha).of_ok hstart
  obtain ⟨hapart, hsame₃⟩ :=
    userLoop_apart ho.inv hs₂ hapart₂ haddr hend (Nat.zero_add length) ha hstart
  have hsame : SameDirectories s₁ s' :=
    (sameDirectories_of_process (hs₂.enabled.trans hs.enabled.symm) hg₂.process).trans hsame₃
  refine ⟨dst_addr, hsearch, ⟨haligned, haddr, hpos, hend, hunused, ?_, ?_⟩, ?_, hapart, hsame⟩
  all_goals rcases success with _ | _
  · simp
  · exact fun _ => hsuccess rfl
  · exact fun _ => hfailure rfl
  · simp
  · simp
  · rintro addr ⟨⟩
    rfl

theorem pagingTryMapUserMem_traceless (h : Inv slack 0 s) (hs : Settled s)
    (hsrc : src_addr < 2 ^ 32)
    (hok : pagingTryMapUserMem (some pid) src_addr length rw s = .ok (none, s')) :
    ∃ dst_addr, pagingSearchArea none length s = .ok (dst_addr, s) ∧
      Traceless s dst_addr length s' := by
  obtain ⟨dst_addr, hsearch, hattempted, -, hapart, hsame⟩ :=
    pagingTryMapUserMem_apart h hs (apart_refl _ s) hsrc hok
  have hrefused := hattempted.failure rfl
  have hend := hattempted.fits
  have hkernel : ∀ page, s.kernel page ≠ .zero → s'.kernel page = s.kernel page := fun page hne =>
    hrefused.kernel nofun page (fun hspan => hne (hattempted.unused page hspan)) hne
  have hcounts : ∀ f, UserData s' f → refCount s' f = (mappers s' f).ncard +
    (holders s f).ncard := by
    intro f hf
    rw [refCount_eq hrefused.inv hf,
      holders_eq h.structured hrefused.inv.structured hkernel hrefused.clear hapart hsame hf.2]
  refine ⟨dst_addr, hsearch, fun page hle hlt => hrefused.clear page ?_, hkernel, hcounts,
    fun f hf hempty => ?_, hrefused.views⟩
  · have hle := kernel_page_le
    exact (span_iff (by omega)).mpr ⟨by omega, hlt⟩
  · rw [hcounts f hf, hempty, Set.ncard_empty, add_zero]

/-- A pointer which is rejected leaves nothing behind. -/
theorem rejected_pointer_traceless (hs : Reached s) (pid : Nat) (src_addr length : BitVec 32)
    (hok : pagingTryMapUserMem (some pid) src_addr.toNat length.toNat rw s = .ok (none, s')) :
    ∃ dst_addr, pagingSearchArea none length.toNat s = .ok (dst_addr, s) ∧
      Traceless s dst_addr length.toNat s' := by
  obtain ⟨slack, h, -⟩ := hs.inv
  exact pagingTryMapUserMem_traceless h (Reached.settled hs) src_addr.isLt hok

end

section

/-! The second page after one which two processes share. -/

def sharing : List Event := sampleEvents ++ [.access (.fork 1 0)]

theorem sharing_facts : ((pagingInit [] sampleMachine).toOption.bind fun r =>
    (run next r.2 sharing).toOption.bind fun r =>
      (pagingTryMapUserMem (some 1) 0xFFC02000 2 true r.1).toOption.map fun r' =>
        (r'.1, ((r.1.process 1).table 0xFFC02).frame != ((r'.2.process 1).table 0xFFC02).frame)) =
      some (none, true) := by
  decide +kernel

theorem reached_sharing {s₀ s : Machine} {answers : List UserAccesses.Answer}
    (hinit : pagingInit [] sampleMachine = .ok ((), s₀))
    (hrun : run next s₀ sharing = .ok (s, answers)) :
    Reached s := by
  refine ⟨s₀, sharing, answers, started_sample hinit, along_of_forall (fun s event hmem => ?_) s₀,
    hrun⟩
  rcases List.mem_append.mp hmem with hmem | hmem
  · exact lawful_sample s event hmem
  · rw [List.mem_singleton.mp hmem]
    exact trivial

theorem rejected_pointer_traceless_sharing : ∃ s s' dst_addr, Reached s ∧
    pagingTryMapUserMem (some 1) 0xFFC02000 2 true s = .ok (none, s') ∧
    ((s.process 1).table 0xFFC02).frame ≠ ((s'.process 1).table 0xFFC02).frame ∧
    Traceless s dst_addr 2 s' := by
  obtain ⟨⟨_, s₀⟩, hinit, hfacts⟩ := Option.bind_eq_some_iff.mp sharing_facts
  obtain ⟨⟨s, answers⟩, hrun, hfacts⟩ := Option.bind_eq_some_iff.mp hfacts
  obtain ⟨⟨r, s'⟩, hok, hfacts⟩ := Option.map_eq_some_iff.mp hfacts
  obtain ⟨rfl, hcopied⟩ := Prod.mk.inj hfacts
  have hs := reached_sharing (toOption_eq_some hinit) (toOption_eq_some hrun)
  have hok := toOption_eq_some hok
  obtain ⟨dst_addr, -, htraceless⟩ := rejected_pointer_traceless hs 1 0xFFC02000 2 hok
  exact ⟨s, s', dst_addr, hs, hok, by simpa using hcopied, htraceless⟩

end

end Ibnos.RejectedPointers
