import Ibnos.AreaSearch

/-!
Memory which a process asks for. The number of pages is not checked, and in the search
the end of an area is computed with 32 bits.
-/

namespace Ibnos.UserAllocations

open Ibnos.AreaSearch
open Ibnos.FirstFit
open Ibnos.FixedAllocations
open Ibnos.FrameSupply
open Ibnos.KernelPages
open Ibnos.KernelRoom
open Ibnos.MappingFailures
open Ibnos.Memory
open Ibnos.Paging
open Ibnos.PagingOperations
open Ibnos.PagingRuns
open Ibnos.Physmem
open Ibnos.ProcessPages
open Ibnos.Programs
open Ibnos.Reallocations
open Ibnos.References
open Ibnos.Runs
open Ibnos.SharedFrames
open Ibnos.TableMappings

section

variable {slack : Nat → Nat} {s s' : Machine} {pid length cur : Nat} {rw user : Bool}

/-- The page table of a process can be used. -/
structure Usable (slack : Nat → Nat) (pid : Nat) (s : Machine) : Prop where
  inv : Inv slack 0 s
  settled : Settled s
  directory : (s.process pid).pageDirectory ≠ none

/-- The loop finds an unused page in every round. -/
def Room (s : Machine) (pid length cur : Nat) : Prop :=
  length ≤ PAGE_COUNT ∧ ∀ page, Span length cur page → contents s (some pid) page = .zero

/-- One round of the loop. -/
theorem allocate_round (h : Usable slack pid s) {β : Type} {Q : β → Machine → Prop}
    {E : Stop → Prop}
    {k : M β} (hlack : ∀ e, Lack e → E e)
    (hused : contents s (some pid) (pageOf cur) ≠ .zero → E .assertion)
    (hrest : ∀ f s', contents s (some pid) (pageOf cur) = .zero → Usable slack pid s' →
      (∀ page, contents s' (some pid) page =
        if page = pageOf cur then ⟨true, rw, user, 0, f⟩ else contents s (some pid) page) →
      Yields E k s' Q) :
    Yields E (do
      let index ← physMemAllocPage false
      let _ ← getPagingEntry (some pid) (pageOf cur) true
      let table ← loadEntry (some pid) (pageOf cur)
      check (table == .zero)
      storeEntry (some pid) (pageOf cur) ⟨true, rw, user, 0, index⟩
      k) s Q := by
  obtain ⟨hinv, hs, hdir⟩ := h
  refine (((physMemAllocPage_proceeds hinv false).also (physMemAllocPage_fresh hinv zero_nonneg
    false)).excuse hlack).bind_of fun f s₁ hok hs₁ => ?_
  obtain ⟨⟨hsteady, -, -, -, -⟩, h₁, hg₁, hf, hfresh, -⟩ := hs₁
  rw [zero_add] at h₁
  obtain ⟨rfl, -⟩ := physMemAllocPage_inv hok
  have hs₁ : Settled ((s.setBit f true).handOut f) := ⟨hs.enabled, hs.tables⟩
  have htable : (s.process pid).directory (pageOf cur / PAGETABLE_COUNT) = .zero ∨
      Mapped ((s.setBit f true).handOut f) (some pid) (pageOf cur) := by
    rcases eq_or_ne ((s.process pid).directory (pageOf cur / PAGETABLE_COUNT)) .zero with hz | hz
    · exact Or.inl hz
    · exact Or.inr (hs.tables pid hdir _ nofun hz)
  refine (((getProcessEntry_proceeds h₁ (due_nonneg _) hs.enabled (pageOf_lt cur) hdir htable).also
    (getPagingEntry_spec h₁ (due_nonneg _) (pageOf_lt cur) (some pid) true)).excuse hlack).bind_of
      fun r s₂ hok₂ hs₂ => ?_
  obtain ⟨-, h₂, hg₂, hmapped, hr, -⟩ := hs₂
  have hm := hmapped (hr rfl)
  have hfound := getPagingEntry_found (rooted_process _ pid) (fun hnone => by cases hnone) hok₂
  have ht := hfound.tabled (hr rfl)
  have hcontents : ∀ page, contents s₂ (some pid) page = contents s (some pid) page :=
    fun page => hfound.extended.contents page fun hnone => by cases hnone
  have hs₂ : Settled s₂ := processClosed_settled.getPagingEntry (some pid) _ _ _ _ _ hok₂ hs₁
  refine yields_ok_bind (h₂.structured.loadEntry_ok (pageOf_lt cur) hm) ?_
  rw [← contents_of_tabled ht, hcontents]
  rcases eq_or_ne (contents s (some pid) (pageOf cur)) .zero with hzero | hne
  · refine yields_ok_bind (check_ok (beq_iff_eq.mpr hzero)) ?_
    refine yields_ok_bind (h₂.structured.storeEntry_ok (pageOf_lt cur) hm _) ?_
    have hentry : s₂.entry (some pid) (pageOf cur) = .zero := by
      rw [← contents_of_tabled ht, hcontents, hzero]
    have hkept := kept_fill rw user h₂ (pageOf_lt cur) hm trivial (by rw [hentry]; rfl)
      (hfresh.mono hf hg₂) (hg₁.toGrows.trans hg₂).extends
      fun hpriv => hpriv.of_grows hinv zero_nonneg (hg₁.toGrows.trans hg₂)
    have hsame : SameDirectories s₂ (s₂.setEntry (some pid) (pageOf cur) ⟨true, rw, user, 0, f⟩) :=
      closed_sameDirectories.setEntry (some pid) (pageOf cur) _ s₂ () _ rfl
    refine hrest f _ hzero ⟨hkept.inv, hsame.keepsSettled hs₂, ?_⟩ fun page => ?_
    · rw [hsame.pageDirectory pid]
      exact (h₂.structured.table_present hm).1
    · rw [contents_setEntry (fun hnone => by cases hnone) ht, hcontents]
  · rw [check, if_neg fun heq => hne (beq_iff_eq.mp heq)]
    exact hused hne

/-- Exactly the pages which the loop visits were filled. -/
structure Filled (s s' : Machine) (pid length cur : Nat) (rw user : Bool) : Prop where
  room : Room s pid length cur
  new : ∀ page, Span length cur page → ∃ f, contents s' (some pid) page = ⟨true, rw, user, 0, f⟩
  same : ∀ page, ¬Span length cur page → contents s' (some pid) page = contents s (some pid) page

/-- The last of all pages is the one in front of the first. -/
theorem span_all (cur : Nat) : Span PAGE_COUNT (nextPage cur) (pageOf cur) := by
  have hlt := pageOf_lt cur
  refine span_iff_mod.mpr ⟨PAGE_COUNT - 1, by decide, ?_⟩
  rw [pageOf_nextPage_mod]
  simp only [PAGE_COUNT] at *
  omega

theorem allocateLoop_filled (h : Usable slack pid s) :
    Yields (fun e => Lack e ∨ e = .assertion ∧ ¬Room s pid length cur)
      (allocateLoop (getPagingEntry (some pid)) (some pid) rw user length cur) s fun _ s' =>
        Filled s s' pid length cur rw user := by
  induction length generalizing s cur with
  | zero =>
      refine yields_pure
        ⟨⟨Nat.zero_le _, fun page hspan => hspan.elim⟩, fun page hspan => hspan.elim, ?_⟩
      exact fun _ _ => rfl
  | succ length ih =>
      rw [allocateLoop]
      refine allocate_round (k := allocateLoop (getPagingEntry (some pid)) (some pid) rw user length
        (nextPage cur)) h (fun e he => Or.inl he) (fun hused => Or.inr ⟨rfl, fun hroom => ?_⟩) ?_
      · exact hused (hroom.2 _ (Or.inl rfl))
      · intro f s₁ hzero h₁ hcontents
        have hself : contents s₁ (some pid) (pageOf cur) = ⟨true, rw, user, 0, f⟩ := by
          rw [hcontents, if_pos rfl]
        have hne : ∀ page, contents s₁ (some pid) page = .zero → page ≠ pageOf cur := by
          rintro _ hpage rfl
          rw [hself] at hpage
          cases hpage
        refine ((ih h₁).excuse ?_).mono ?_
        · rintro e (hlack | ⟨rfl, hnot⟩)
          · exact Or.inl hlack
          · refine Or.inr ⟨rfl, fun hroom => hnot ⟨by have := hroom.1; omega, fun page hspan => ?_⟩⟩
            rw [hcontents, if_neg (span_ne hspan hroom.1)]
            exact hroom.2 page (Or.inr hspan)
        · intro _ s' hfilled
          have hlt : length < PAGE_COUNT := by
            refine Nat.lt_of_le_of_ne hfilled.room.1 ?_
            rintro rfl
            exact hne _ (hfilled.room.2 _ (span_all cur)) rfl
          refine ⟨⟨hlt, fun page hspan => ?_⟩, fun page hspan => ?_, fun page hspan => ?_⟩
          · rcases hspan with rfl | hspan
            · exact hzero
            · have hpage := hfilled.room.2 page hspan
              have hcur := hne page hpage
              rwa [hcontents, if_neg hcur] at hpage
          · rcases hspan with rfl | hspan
            · refine ⟨f, (hfilled.same _ fun hspan => ?_).trans hself⟩
              exact hne _ (hfilled.room.2 _ hspan) rfl
            · exact hfilled.new page hspan
          · rw [hfilled.same page fun hspan' => hspan (Or.inr hspan'), hcontents,
              if_neg fun heq => hspan (Or.inl heq)]

end

section

variable {s s' : Machine} {pid length a : Nat}

/-- What a process gets when it asks for memory: nothing, or exactly as many pages as it
asked for, none of which was in use. -/
def Allocates (s : Machine) (pid length : Nat) : Prop :=
  ∃ r s', pagingTryAllocatePhysMem (some pid) length true true s = .ok (r, s') ∧
    match r with
    | none => s' = s
    | some addr => ∃ a, addr = a * PAGE_SIZE ∧ IsArea s (some pid) length a ∧
        (∀ q, a ≤ q → q < a + length → ∃ f, contents s' (some pid) q = ⟨true, true, true, 0, f⟩) ∧
        ∀ q, ¬(a ≤ q ∧ q < a + length) → contents s' (some pid) q = contents s (some pid) q

/-- The first page behind one which is in use is unused, and the number of the last page
of the area from there on does not fit into 32 bits. -/
def Overflows (s : Machine) (pid length : Nat) : Prop :=
  ∃ q, 1 ≤ q ∧ q + 1 < KERNEL_PAGE ∧ contents s (some pid) q ≠ .zero ∧
    contents s (some pid) (q + 1) = .zero ∧ 2 ^ 32 ≤ q + length

theorem tryAllocatePhysMem_none {rw user : Bool}
    (hsearch : pagingTrySearchArea (some pid) length s = .ok (none, s)) :
    pagingTryAllocatePhysMem (some pid) length rw user s = .ok (none, s) := by
  have hsearch : trySearchArea (getPagingEntry (some pid)) (some pid) length s = .ok (none, s) :=
    hsearch
  rw [pagingTryAllocatePhysMem, tryAllocatePhysMem, bind_apply, hsearch]
  rfl

theorem tryAllocatePhysMem_some {rw user : Bool} {addr : Nat}
    (hsearch : pagingTrySearchArea (some pid) length s = .ok (some addr, s)) :
    pagingTryAllocatePhysMem (some pid) length rw user s =
      (allocateLoop (getPagingEntry (some pid)) (some pid) rw user length addr >>= fun _ =>
        pure (some addr)) s := by
  have hsearch : trySearchArea (getPagingEntry (some pid)) (some pid) length s =
    .ok (some addr, s) := hsearch
  rw [pagingTryAllocatePhysMem, tryAllocatePhysMem, bind_apply, hsearch]

/-- Requests up to the size of the address space. -/
theorem allocates_short {slack : Nat → Nat} (h : Usable slack pid s) (hlength : length ≤ 2 ^ 20)
    (hfresh : ∀ e, pagingTryAllocatePhysMem (some pid) length true true s = .error e → ¬Lack e) :
    Allocates s pid length := by
  rcases Nat.eq_zero_or_pos length with rfl | hpos
  · exact ⟨none, s, rfl, rfl⟩
  · have halive : Alive s (some pid) := by
      rintro _ ⟨⟩
      exact h.directory
    obtain ⟨r, hsearch, -, hfound, -⟩ := area_search_first_fit h.inv.structured h.settled halive
      ⟨hpos, hlength⟩
    rcases r with _ | addr
    · exact ⟨none, s, tryAllocatePhysMem_none hsearch, rfl⟩
    · obtain ⟨a, rfl, ⟨hone, hend, hfree⟩, -⟩ := hfound addr rfl
      have hpage : pageOf (a * PAGE_SIZE) = a := pageOf_mul (kernel_lt (by omega))
      have hle := kernel_page_le
      have hspan : ∀ page, Span length (a * PAGE_SIZE) page ↔ a ≤ page ∧ page < a + length := by
        intro page
        rw [span_iff (by rw [hpage]; omega), hpage]
      have hroom : Room s pid length (a * PAGE_SIZE) := by
        refine ⟨by omega, fun page hpage => ?_⟩
        obtain ⟨hlow, hhigh⟩ := (hspan page).mp hpage
        exact (contents_eq_zero h.inv.structured (by omega)).mpr (hfree page hlow hhigh)
      have hrun := @tryAllocatePhysMem_some s pid length true true _ hsearch
      have hloop := @allocateLoop_filled slack s pid length (a * PAGE_SIZE) true true h
      rw [bind_apply] at hrun
      rcases hm : allocateLoop (getPagingEntry (some pid)) (some pid) true true length
        (a * PAGE_SIZE) s
        with e | ⟨u, s'⟩
      · rw [hm] at hrun
        rcases hloop.of_error hm with hlack | ⟨-, hnot⟩
        · exact (hfresh e hrun hlack).elim
        · exact (hnot hroom).elim
      · rw [hm] at hrun
        have hfilled := hloop.of_ok hm
        refine ⟨some (a * PAGE_SIZE), s', hrun, a, rfl, ⟨hone, hend, hfree⟩, fun q hlow hhigh => ?_,
          fun q hq => ?_⟩
        · exact hfilled.new q ((hspan q).mpr ⟨hlow, hhigh⟩)
        · exact hfilled.same q fun hspan' => hq ((hspan q).mp hspan')

theorem lastPage_le_iff {j : Nat} (hlong : 2 ^ 20 < length) (hlt : length < 2 ^ 32) (hle : a ≤ j)
    (hj : j < KERNEL_PAGE) : lastPage a length ≤ j ↔ 2 ^ 32 < a + length := by
  simp only [KERNEL_PAGE] at hj
  unfold lastPage
  omega

/-- No area is long enough for a longer request, so that it is refused unless the search is
led astray. -/
theorem allocates_long_iff {slack : Nat → Nat} (h : Usable slack pid s) (hlong : 2 ^ 20 < length)
    (hlt : length < 2 ^ 32) : Allocates s pid length ↔ ¬Overflows s pid length := by
  have halive : Alive s (some pid) := by
    rintro _ ⟨⟩
    exact h.directory
  have hkernel : 1 + (KERNEL_PAGE - 1) = KERNEL_PAGE := rfl
  obtain ⟨hsome, hnone⟩ := @scan_run (unused s (some pid)) (lastPage · length) (KERNEL_PAGE - 1) 1 1
    (fun a => 2 ^ 32 < a + length)
      (fun b j _ hle hj => lastPage_le_iff hlong hlt hle (hkernel ▸ hj))
    le_rfl fun hlt' => by omega
  have hsearch := @pagingTrySearchArea_eq s (some pid) length h.inv.structured h.settled halive
    (by omega)
  rcases hscan : scan (unused s (some pid)) (lastPage · length) (KERNEL_PAGE - 1) 1 1 with _ | a
  · rw [hscan] at hsearch
    refine iff_of_true ⟨none, s, tryAllocatePhysMem_none hsearch, rfl⟩ ?_
    rintro ⟨q, hone, hend, hused, hfree, hover⟩
    refine (hnone hscan).2 (q + 1) (by omega) (by omega) ?_ (unused_iff.mpr hfree) (by omega)
    rw [Nat.add_sub_cancel, Bool.eq_false_iff]
    exact fun hfree' => hused (unused_iff.mp hfree')
  · rw [hscan] at hsearch
    obtain ⟨hover, hfree, hend, ⟨rfl, -⟩ | ⟨hone, hused⟩⟩ := hsome a hscan
    · omega
    · refine iff_of_false ?_ (not_not.mpr ⟨a - 1, by omega, by omega, ?_, ?_, by omega⟩)
      · rintro ⟨r, s', hok, -⟩
        rw [tryAllocatePhysMem_some hsearch] at hok
        obtain ⟨_, s₁, hloop, -⟩ := bind_ok.mp hok
        have hfilled :=
          (@allocateLoop_filled slack s pid length (a * PAGE_SIZE) true true h).of_ok hloop
        have hbound := hfilled.room.1
        simp only [PAGE_COUNT] at hbound
        omega
      · intro hzero
        rw [unused_iff.mpr hzero] at hused
        cases hused
      · rw [Nat.sub_add_cancel (by omega)]
        exact unused_iff.mp hfree

/-- As long as there is memory, a request for pages fails only by overflow. -/
theorem user_allocation_safe_iff (hs : Reached s) (hdir : (s.process pid).pageDirectory ≠ none)
    (ebx : BitVec 32) (hfresh : ∀ e, pagingTryAllocatePhysMem (some pid) ebx.toNat true true s =
      .error e → ¬Lack e) :
    Allocates s pid ebx.toNat ↔ ¬Overflows s pid ebx.toNat := by
  obtain ⟨slack, hinv, -⟩ := hs.inv
  have h : Usable slack pid s := ⟨hinv, TableMappings.Reached.settled hs, hdir⟩
  rcases Nat.lt_or_ge (2 ^ 20) ebx.toNat with hlong | hshort
  · exact allocates_long_iff h hlong ebx.isLt
  · refine iff_of_true (allocates_short h hshort hfresh) ?_
    rintro ⟨q, -, hend, -, -, hover⟩
    simp only [KERNEL_PAGE] at hend
    omega

end

section

/-! A process with an unused page between two others. -/

variable {s : Machine}

def hole : List Event :=
  [.operation (.allocProcessPageTable 0),
    .operation (.allocatePhysMemFixed (some 0) 0x1000 1 true true),
    .operation (.allocatePhysMemFixed (some 0) 0x3000 1 true true)]

theorem reached_hole {s₀ : Machine} {answers : List UserAccesses.Answer}
    (hinit : pagingInit [] sampleMachine = .ok ((), s₀))
    (hrun : run next s₀ hole = .ok (s, answers)) :
    Reached s := by
  refine ⟨s₀, hole, answers, started_sample hinit, along_of_forall (fun s event hmem => ?_) s₀,
    hrun⟩
  simp only [hole, List.mem_cons, List.not_mem_nil, or_false] at hmem
  rcases hmem with rfl | rfl | rfl
  · exact ⟨trivial, trivial⟩
  · exact ⟨nofun, trivial⟩
  · exact ⟨nofun, trivial⟩

/-- How a request for memory ends. -/
def outcome (s : Machine) (length : Nat) : Except Stop (Option Nat) :=
  (pagingTryAllocatePhysMem (some 0) length true true s).map Prod.fst

def holeFacts (s : Machine) : Bool :=
  (s.process 0).pageDirectory.isSome && (s.process 0).directory 0 != .zero &&
    (s.process 0).table 1 != .zero && (s.process 0).table 2 == .zero &&
    (match outcome s 1 with
      | .ok (some addr) => addr == 0x2000
      | _ => false) &&
    match outcome s 0xFFFFFFFF with
      | .error .assertion => true
      | _ => false

theorem hole_facts : ((pagingInit [] sampleMachine).toOption.bind fun r =>
    (run next r.2 hole).toOption.map fun r => holeFacts r.1) = some true := by
  decide +kernel

theorem exists_hole : ∃ s, Reached s ∧ holeFacts s = true := by
  obtain ⟨⟨_, s₀⟩, hinit, hfacts⟩ := Option.bind_eq_some_iff.mp hole_facts
  obtain ⟨⟨s, answers⟩, hrun, hfacts⟩ := Option.map_eq_some_iff.mp hfacts
  exact ⟨s, reached_hole (toOption_eq_some hinit) (toOption_eq_some hrun), hfacts⟩

theorem user_allocation_safe_hole : ∃ s, Reached s ∧ Allocates s 0 1 ∧ ¬Overflows s 0 1 := by
  obtain ⟨s, hs, hfacts⟩ := exists_hole
  simp only [holeFacts, Bool.and_eq_true] at hfacts
  obtain ⟨⟨⟨⟨⟨hdir, -⟩, -⟩, -⟩, hone⟩, -⟩ := hfacts
  have hfresh : ∀ e, pagingTryAllocatePhysMem (some 0) 1 true true s = .error e → ¬Lack e := by
    intro e he
    rw [outcome, he] at hone
    cases hone
  have hiff := user_allocation_safe_iff hs (Option.isSome_iff_ne_none.mp hdir) 1 hfresh
  have hsafe : ¬Overflows s 0 1 := by
    rintro ⟨q, -, hend, -, -, hover⟩
    simp only [KERNEL_PAGE] at hend
    omega
  exact ⟨s, hs, hiff.mpr hsafe, hsafe⟩

/-- With all 32 bits set the process brings the kernel down. -/
theorem user_allocation_overflow : ∃ s, Reached s ∧ (s.process 0).pageDirectory ≠ none ∧
    pagingTryAllocatePhysMem (some 0) 0xFFFFFFFF true true s = .error .assertion ∧
    ¬Allocates s 0 0xFFFFFFFF := by
  obtain ⟨s, hs, hfacts⟩ := exists_hole
  simp only [holeFacts, Bool.and_eq_true] at hfacts
  obtain ⟨⟨⟨⟨⟨hdir, -⟩, -⟩, -⟩, -⟩, hover⟩ := hfacts
  have hrun : pagingTryAllocatePhysMem (some 0) 0xFFFFFFFF true true s = .error .assertion := by
    rcases hm : pagingTryAllocatePhysMem (some 0) 0xFFFFFFFF true true s with e | r
    · rw [outcome, hm] at hover
      rcases e with _ | _ | _ | _ | _ | _ | _ | _ | _
      · rfl
      all_goals cases hover
    · rw [outcome, hm] at hover
      cases hover
  refine ⟨s, hs, Option.isSome_iff_ne_none.mp hdir, hrun, ?_⟩
  rintro ⟨r, s', hok, -⟩
  rw [hrun] at hok
  cases hok

end

end Ibnos.UserAllocations
