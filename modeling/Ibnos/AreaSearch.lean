import Ibnos.FirstFit
import Ibnos.MappingFailures

/-!
The search for an area of unused pages. Page tables which are missing are skipped
as a whole, and the result is the one of a search which looks at every page.
-/

namespace Ibnos.AreaSearch

open Ibnos.FirstFit
open Ibnos.FixedAllocations
open Ibnos.FrameSupply
open Ibnos.KernelPages
open Ibnos.KernelRoom
open Ibnos.MappingFailures
open Ibnos.Memory
open Ibnos.Paging
open Ibnos.PagingRuns
open Ibnos.Physmem
open Ibnos.ProcessPages
open Ibnos.Programs
open Ibnos.Reallocations
open Ibnos.References
open Ibnos.Runs
open Ibnos.SharedFrames
open Ibnos.TableMappings

/-- The kernel, or a process which has a page table. -/
def Alive (s : Machine) (p : Option Nat) : Prop :=
  ∀ pid, p = some pid → (s.process pid).pageDirectory ≠ none

/-- The entry of a page is zero, or there is no page table for it. -/
def unused (s : Machine) (p : Option Nat) (page : Nat) : Bool := contents s p page = .zero

section

variable {s s' : Machine} {p : Option Nat} {page length rounds i start : Nat}

theorem unused_iff : unused s p page = true ↔ contents s p page = .zero := decide_eq_true_iff

/-- An entry is looked up, and nothing changes. -/
theorem getPagingEntry_reads (h : Structured s) (hs : Settled s) (hp : Alive s p)
    (hpage : page < PAGE_COUNT) : ∃ r, getPagingEntry p page false s = .ok (r, s) ∧
      (r = true → Tabled s p page ∧ loadEntry p page s = .ok (contents s p page, s)) ∧
      (r = false → ¬Tabled s p page) := by
  have hread : Mapped s p page → Tabled s p page →
      Tabled s p page ∧ loadEntry p page s = .ok (contents s p page, s) := by
    intro hm ht
    rw [contents_of_tabled ht]
    exact ⟨ht, h.loadEntry_ok hpage hm⟩
  rcases p with _ | pid
  · rcases Classical.em (Mapped s none page) with hm | hm
    · exact ⟨true, getKernelEntry_mapped h hpage hm false, fun _ => hread hm hm, nofun⟩
    · exact ⟨false, getKernelEntry_missing h hm, nofun, fun _ => hm⟩
  · obtain ⟨r, hentry, hr⟩ := getProcessEntry_reads h hs (hp pid rfl) page
    refine ⟨r, hentry, fun htrue => hread (hr.mp htrue) ?_, fun hfalse ht => ?_⟩
    · intro hzero
      have hpresent := (h.table_present (hr.mp htrue)).2.1
      rw [show (s.process pid).directory (page / PAGETABLE_COUNT) = .zero from hzero] at hpresent
      cases hpresent
    · rw [hr.mpr (hs.tables pid (hp pid rfl) _ nofun ht)] at hfalse
      cases hfalse

/-- A page table which is missing is skipped up to its last page. -/
theorem scan_missing (h : Structured s) (hi : i < KERNEL_PAGE) (ht : ¬Tabled s p i) :
    scan (unused s p) (lastPage · length) (KERNEL_PAGE - i) i start =
      if lastPage start length ≤ i ||| 0x3FF then some start
      else scan (unused s p) (lastPage · length) (KERNEL_PAGE - ((i ||| 0x3FF) + 1))
        ((i ||| 0x3FF) + 1) start := by
  have hmask : i ≤ i ||| 0x3FF ∧ i ||| 0x3FF < KERNEL_PAGE := by
    rw [or_mask]
    simp only [KERNEL_PAGE] at *
    omega
  have hfree : ∀ q, i ≤ q → q < i + ((i ||| 0x3FF) + 1 - i) → unused s p q = true := by
    intro q hle hlt
    have htable : q / PAGETABLE_COUNT = i / PAGETABLE_COUNT := by
      rw [or_mask] at hlt
      simp only [PAGETABLE_COUNT]
      omega
    refine unused_iff.mpr (rooted_of_structured h p q (fun _ => by omega) ?_)
    rw [Tabled, htable]
    exact ht
  have hskip := @scan_skip (unused s p) (lastPage · length) (KERNEL_PAGE - ((i ||| 0x3FF) + 1))
    ((i ||| 0x3FF) + 1 - i) i start (by omega) hfree
  have hrest : (i ||| 0x3FF) + 1 - i + (KERNEL_PAGE - ((i ||| 0x3FF) + 1)) = KERNEL_PAGE - i := by
    omega
  have hend : i + ((i ||| 0x3FF) + 1 - i) = (i ||| 0x3FF) + 1 := by omega
  rw [hrest, hend, Nat.add_sub_cancel] at hskip
  exact hskip

/-- The loop does what a search does which looks at each page. -/
theorem searchLoop_eq (h : Structured s) (hs : Settled s) (hp : Alive s p)
    (hrounds : KERNEL_PAGE ≤ i + rounds) :
    searchLoop (getPagingEntry p) p length rounds i start s =
      .ok ((scan (unused s p) (lastPage · length) (KERNEL_PAGE - i) i start).map (· * PAGE_SIZE),
        s) := by
  induction rounds generalizing i start with
  | zero =>
      rw [show KERNEL_PAGE - i = 0 by omega]
      rfl
  | succ rounds ih =>
      rw [searchLoop]
      split
      · next hi =>
        obtain ⟨r, hentry, htrue, hfalse⟩ := getPagingEntry_reads h hs hp (kernel_lt hi)
        rw [bind_apply, hentry]
        rcases r with _ | _
        · have hmask : i ≤ i ||| 0x3FF := Nat.left_le_or
          dsimp only
          rw [if_neg (by simp), scan_missing h hi (hfalse rfl)]
          split
          · rfl
          · exact ih (by omega)
        · obtain ⟨-, hload⟩ := htrue rfl
          have hsucc : KERNEL_PAGE - i = (KERNEL_PAGE - (i + 1)) + 1 := by omega
          dsimp only
          rw [if_pos rfl, bind_apply, hload, hsucc, scan]
          dsimp only
          split
          · next hne =>
            rw [if_neg fun hfree => hne (unused_iff.mp hfree)]
            exact ih (by omega)
          · next hzero =>
            rw [if_pos (unused_iff.mpr (not_not.mp hzero))]
            split
            · rfl
            · exact ih (by omega)
      · next hi =>
        rw [show KERNEL_PAGE - i = 0 by omega]
        rfl

theorem pagingTrySearchArea_eq (h : Structured s) (hs : Settled s) (hp : Alive s p)
    (hlength : length ≠ 0) : pagingTrySearchArea p length s =
      .ok ((scan (unused s p) (lastPage · length) (KERNEL_PAGE - 1) 1 1).map (· * PAGE_SIZE),
        s) := by
  rw [pagingTrySearchArea, trySearchArea, if_neg hlength]
  exact searchLoop_eq h hs hp (Nat.le_add_left _ _)

end

section

variable {s : Machine} {p : Option Nat} {page length a : Nat}

/-- No page table describes the page, or its entry is zero. -/
def NotInUse (s : Machine) (p : Option Nat) (page : Nat) : Prop :=
  ¬Tabled s p page ∨ s.entry p page = .zero

/-- NotInUse pages in a row, none of which is the first page of the address space or one
of those at which the kernel sees its page tables. -/
def IsArea (s : Machine) (p : Option Nat) (length a : Nat) : Prop :=
  1 ≤ a ∧ a + length ≤ KERNEL_PAGE ∧ ∀ q, a ≤ q → q < a + length → NotInUse s p q

theorem contents_eq_zero (h : Structured s) (hpage : page < KERNEL_PAGE) :
    contents s p page = .zero ↔ NotInUse s p page := by
  rcases Classical.em (Tabled s p page) with ht | ht
  · rw [contents_of_tabled ht, NotInUse, or_iff_right (not_not.mpr ht)]
  · exact iff_of_true (rooted_of_structured h p page (fun _ => hpage) ht) (Or.inl ht)

theorem isArea_iff (h : Structured s) : IsArea s p length a ↔
    1 ≤ a ∧ a + length ≤ 1 + (KERNEL_PAGE - 1) ∧ Fits (unused s p) length a := by
  have hend : 1 + (KERNEL_PAGE - 1) = KERNEL_PAGE := rfl
  rw [IsArea, hend]
  refine and_congr_right fun _ => and_congr_right fun hle => ?_
  refine forall_congr' fun q => forall_congr' fun _ => forall_congr' fun hq => ?_
  rw [unused_iff, contents_eq_zero h (by omega)]

/-- The first area is found, as if every page had been looked at. -/
theorem area_search_first_fit (h : Structured s) (hs : Settled s) (hp : Alive s p)
    (hlength : 1 ≤ length ∧ length ≤ 2 ^ 20) :
    ∃ r, pagingTrySearchArea p length s = .ok (r, s) ∧
      r = (scan (unused s p) (fun a => a + length - 1) (KERNEL_PAGE - 1) 1 1).map (· * PAGE_SIZE) ∧
      (∀ addr, r = some addr → ∃ a, addr = a * PAGE_SIZE ∧ IsLeast {a | IsArea s p length a} a) ∧
      (r = none ↔ ∀ a, ¬IsArea s p length a) := by
  have hlast : ∀ a, a < KERNEL_PAGE → lastPage a length = a + length - 1 := by
    intro a ha
    refine lastPage_eq (by omega) ?_
    simp only [KERNEL_PAGE] at ha
    omega
  have hscan : scan (unused s p) (lastPage · length) (KERNEL_PAGE - 1) 1 1 =
      scan (unused s p) (fun a => a + length - 1) (KERNEL_PAGE - 1) 1 1 :=
    scan_congr (fun a _ ha => hlast a (by omega)) le_rfl
  obtain ⟨hsome, hnone⟩ := @scan_least (unused s p) (fun a => a + length - 1) length
    (KERNEL_PAGE - 1)
    1 1 (fun _ => rfl) le_rfl (by omega) fun q _ _ => by omega
  have hset : {a | IsArea s p length a} = {a | 1 ≤ a ∧ a + length ≤ 1 + (KERNEL_PAGE - 1) ∧
      Fits (unused s p) length a} := by
    ext a
    exact isArea_iff h
  refine ⟨_, pagingTrySearchArea_eq h hs hp (by omega), by rw [hscan], ?_, ?_⟩
  · intro addr haddr
    rw [hscan] at haddr
    obtain ⟨a, ha, rfl⟩ := Option.map_eq_some_iff.mp haddr
    refine ⟨a, rfl, ?_⟩
    rw [hset]
    exact hsome a ha
  · rw [hscan, Option.map_eq_none_iff]
    constructor
    · intro hr a ha
      obtain ⟨hone, hend, hfits⟩ := (isArea_iff h).mp ha
      exact hnone hr a hone hend hfits
    · intro hno
      by_contra hr
      obtain ⟨a, ha⟩ := Option.ne_none_iff_exists'.mp hr
      exact hno a ((isArea_iff h).mpr (hsome a ha).1)

theorem area_search_first_fit_sample : ∃ s r, Structured s ∧ Settled s ∧ Alive s (some 0) ∧
    pagingTrySearchArea (some 0) 0x800 s = .ok (r, s) ∧
    (r = none ↔ ∀ a, ¬IsArea s (some 0) 0x800 a) := by
  obtain ⟨⟨_, s₀⟩, hinit, hfacts⟩ := Option.bind_eq_some_iff.mp buffer_facts
  obtain ⟨⟨s, answers⟩, hrun, hfacts⟩ := Option.map_eq_some_iff.mp hfacts
  have hreached := reached_sample (toOption_eq_some hinit) (toOption_eq_some hrun)
  obtain ⟨slack, hinv, -⟩ := hreached.inv
  have hsettled := TableMappings.Reached.settled hreached
  simp only [bufferFacts, Bool.and_eq_true] at hfacts
  have halive : Alive s (some 0) := by
    rintro _ ⟨⟩
    exact Option.isSome_iff_ne_none.mp hfacts.2.1.1.1
  obtain ⟨r, hok, -, -, hnone⟩ :=
    @area_search_first_fit s (some 0) 0x800 hinv.structured hsettled halive
    ⟨by decide, by decide⟩
  exact ⟨s, r, hinv.structured, hsettled, halive, hok, hnone⟩

end

end Ibnos.AreaSearch
