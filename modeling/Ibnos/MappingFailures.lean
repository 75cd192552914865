import Ibnos.KernelRoom
import Ibnos.RejectedPointers

/-!
When `pagingTryMapUserMem` brings the kernel down. It searches for an area with
`pagingSearchArea`, which never returns if there is none, and the number of pages comes
from the user.
-/

namespace Ibnos.MappingFailures

open Ibnos.Memory
open Ibnos.Physmem
open Ibnos.Paging
open Ibnos.Programs
open Ibnos.References
open Ibnos.KernelPages
open Ibnos.ProcessPages
open Ibnos.PagingOperations
open Ibnos.FrameSupply
open Ibnos.SharedFrames
open Ibnos.FixedAllocations
open Ibnos.RemotePages
open Ibnos.UserMemory
open Ibnos.TableMappings
open Ibnos.KernelRoom
open Ibnos.PagingRuns
open Ibnos.Runs

section

variable {slack : Nat → Nat} {s s₁ s' : Machine} {rw : Bool} {pid dst_page src_page : Nat}

/-- A page of a process was mapped into the kernel, and nothing was lacking. -/
structure Shared (slack : Nat → Nat) (pid dst_page src_page : Nat) (s s' : Machine) : Prop where
  supplied : Supplied slack 0 2 s'
  process : ∃ e, s'.process = (s.setEntry (some pid) src_page e).process
  opened : Releasable (s'.kernel dst_page)
  counts : ∀ g, used s g = true →
    refs s' g ≤ refs s g + if g = (s.entry (some pid) src_page).frame then 1 else 0

end

section

variable {slack : Nat → Nat} {s₀ s s' : Machine} {rw : Bool}
  {pid total dst_addr src_addr n i length page : Nat}

/-- All page tables are mapped, so the search for an entry changes nothing. -/
theorem getProcessEntry_reads (h : Structured s) (hs : Settled s)
    (hdir : (s.process pid).pageDirectory ≠ none) (page : Nat) :
    ∃ r, getProcessEntry pid page false s = .ok (r, s) ∧ (r = true ↔ Mapped s (some pid) page) := by
  rcases eq_or_ne ((s.process pid).directory (page / PAGETABLE_COUNT)) .zero with hzero | hne
  · refine ⟨false, ?_, fun hfalse => ?_, fun hm => ?_⟩
    · simp only [getProcessEntry, bind_apply, get_apply, check_ok hs.enabled,
        accessDirectory_ok h hdir,
        if_pos hzero]
      rfl
    · cases hfalse
    · have hpresent := (h.table_present hm).2.1
      rw [hzero] at hpresent
      cases hpresent
  · have hm : Mapped s (some pid) page := hs.tables pid hdir _ (by simp) hne
    exact ⟨true, getProcessEntry_mapped h hs.enabled hm false, fun _ => hm, fun _ => rfl⟩

/-- The page of the user at an offset in a buffer. -/
def bufferPage (src_addr i : Nat) : Nat := (pageOf src_addr + i) % PAGE_COUNT

theorem pageOf_buffer : pageOf ((src_addr + n * PAGE_SIZE) % 2 ^ 32) = bufferPage src_addr n :=
    pageOf_src

/-- The loop goes past the page. -/
structure Admitted (s : Machine) (pid : Nat) (rw : Bool) (page : Nat) : Prop where
  mapped : Mapped s (some pid) page
  nonzero : s.entry (some pid) page ≠ .zero
  user : (s.entry (some pid) page).user = true
  accepted : rejects rw (s.entry (some pid) page) = false

/-- The frames which the buffer names before the page are counted once more for it. -/
def earlier (s : Machine) (pid src_addr i f : Nat) : Nat :=
  ((Finset.range i).filter fun j => (s.entry (some pid) (bufferPage src_addr j)).frame = f).card

/-- The page has a frame with room for one more reference. -/
structure Sharable (s : Machine) (pid src_addr i : Nat) : Prop where
  present : (s.entry (some pid) (bufferPage src_addr i)).present = true
  frame : (s.entry (some pid) (bufferPage src_addr i)).frame < PAGE_COUNT
  count : refs s (s.entry (some pid) (bufferPage src_addr i)).frame +
    earlier s pid src_addr i (s.entry (some pid) (bufferPage src_addr i)).frame ≤ 126

/-- The loop after `n` pages, when nothing was lacking. -/
structure Underway (slack : Nat → Nat) (pid total dst_addr src_addr : Nat) (s₀ : Machine) (n : Nat)
    (s : Machine) : Prop where
  supplied : Supplied slack 0 2 s
  directories : SameDirectories s₀ s
  entries : ∀ i, n ≤ i → i < total →
    s.entry (some pid) (bufferPage src_addr i) = s₀.entry (some pid) (bufferPage src_addr i)
  counts : ∀ i, n ≤ i → i < total → Mapped s₀ (some pid) (bufferPage src_addr i) →
    (s₀.entry (some pid) (bufferPage src_addr i)).present = true →
    refs s (s₀.entry (some pid) (bufferPage src_addr i)).frame ≤
      refs s₀ (s₀.entry (some pid) (bufferPage src_addr i)).frame +
        earlier s₀ pid src_addr n (s₀.entry (some pid) (bufferPage src_addr i)).frame
  area : ∀ page, Span total dst_addr page → ¬Owned s page ∧ Releasable (s.kernel page)
  reserved : ∀ i, n ≤ i → i < total → (s.kernel (pageOf dst_addr + i)).isReserved = true

theorem Shared.sameDirectories {dst_page src_page : Nat}
    (h : Shared slack pid dst_page src_page s s')
    (henabled : s.pagingEnabled = true) : SameDirectories s s' := by
  obtain ⟨e, hprocess⟩ := h.process
  refine (sameDirectories_setEntry (some pid) src_page e s).trans
    (sameDirectories_of_process ?_ hprocess)
  exact h.supplied.enabled.trans henabled.symm

theorem Shared.entry {dst_page src_page : Nat} (h : Shared slack pid dst_page src_page s s')
    (hne : page ≠ src_page) : s'.entry (some pid) page = s.entry (some pid) page := by
  obtain ⟨e, hprocess⟩ := h.process
  have hentry : s'.entry (some pid) page = (s.setEntry (some pid) src_page e).entry
    (some pid) page := by
    rw [Machine.entry, hprocess]
    rfl
  rw [hentry]
  simp only [Machine.entry, Machine.setEntry, Machine.setProcess, Process.setTable,
    Function.update_self]
  exact Function.update_of_ne hne _ _

theorem bufferPage_ne (htotal : total ≤ PAGE_COUNT) (hlt : n < i) (hi : i < total) :
    bufferPage src_addr i ≠ bufferPage src_addr n := by
  unfold bufferPage
  simp only [PAGE_COUNT] at *
  omega

theorem earlier_succ (f : Nat) : earlier s pid src_addr (n + 1) f = earlier s pid src_addr n f +
    if f = (s.entry (some pid) (bufferPage src_addr n)).frame then 1 else 0 := by
  rw [earlier, Finset.range_add_one, Finset.filter_insert, earlier]
  split
  · next heq =>
    rw [if_pos heq.symm, Finset.card_insert_of_notMem]
    simp
  · next hne => rw [if_neg fun heq => hne heq.symm, add_zero]

/-- One more page was mapped. -/
theorem Underway.next (h : Underway slack pid total dst_addr src_addr s₀ n s)
    (hend : pageOf dst_addr + total ≤ KERNEL_PAGE) (hn : n < total)
    (hs' : Shared slack pid (pageOf dst_addr + n) (bufferPage src_addr n) s s')
    (hopened : PageOpened slack (some pid) rw (pageOf dst_addr + n) (bufferPage src_addr n) s s') :
    Underway slack pid total dst_addr src_addr s₀ (n + 1) s' := by
  have hle := kernel_page_le
  have hentries : ∀ i, n + 1 ≤ i → i < total →
      s'.entry (some pid) (bufferPage src_addr i) = s.entry (some pid) (bufferPage src_addr i) :=
    fun i hi hlt => hs'.entry (bufferPage_ne (by omega) hi hlt)
  refine ⟨hs'.supplied, h.directories.trans (hs'.sameDirectories h.supplied.enabled),
    fun i hi hlt => (hentries i hi hlt).trans (h.entries i (by omega) hlt),
      fun i hi hlt hm hpresent => ?_,
    fun page hpage => ?_, fun i hi hlt => ?_⟩
  · have hentry := h.entries i (by omega) hlt
    have hm' := h.directories.mapped.mpr hm
    have hused : used s (s₀.entry (some pid) (bufferPage src_addr i)).frame = true := by
      rw [← hentry] at hpresent ⊢
      exact used_of_entry h.supplied.inv zero_nonneg (Nat.mod_lt _ (by decide)) hm' hpresent
    have hcount := h.counts i (by omega) hlt hm hpresent
    have hnext := hs'.counts _ hused
    rw [h.entries n le_rfl hn] at hnext
    rw [earlier_succ]
    omega
  · obtain ⟨hfree, hreleasable⟩ := h.area page hpage
    refine ⟨(hopened.extends'.loose page ⟨hreleasable.ne_zero, hfree⟩).2, ?_⟩
    rcases eq_or_ne page (pageOf dst_addr + n) with rfl | hne
    · exact hs'.opened
    · rw [hopened.kernel page hreleasable.ne_zero hne nofun]
      exact hreleasable
  · have hreserved := h.reserved i (by omega) hlt
    rw [hopened.kernel _ (reserved_spec hreserved).1 (by omega) nofun]
    exact hreserved

end

section

variable {slack : Nat → Nat} {s₀ s s' : Machine} {rw : Bool}
  {pid total dst_addr src_addr n length page : Nat}

/-- What the state has to provide for the pages which the loop goes past. -/
def Countable (s : Machine) (pid : Nat) (rw : Bool) (src_addr length : Nat) : Prop :=
  ∀ i < length, (∀ j ≤ i, Admitted s pid rw (bufferPage src_addr j)) → Sharable s pid src_addr i

end

section

variable {slack : Nat → Nat} {s s' : Machine} {rw : Bool}
  {pid dst_addr src_addr byte_length length cur k : Nat}

theorem pagingReserveArea_frames (h : Inv slack 0 s) (hend : pageOf cur + length ≤ KERNEL_PAGE)
    (hzero : ∀ page, Span length cur page → s.kernel page = .zero) :
    Yields NoFrames (pagingReserveArea none false length cur) s fun _ s' =>
      (∀ k, Roomy (k + length) s → Roomy k s') ∧ Steady s s' ∧
        ∀ page, Span length cur page → (s'.kernel page).isReserved = true := by
  induction length generalizing s cur with
  | zero => exact yields_pure ⟨fun _ hroom => hroom, Steady.refl s, fun _ => False.elim⟩
  | succ length ih =>
      have hlt : pageOf cur < KERNEL_PAGE := by omega
      have hnext : pageOf (nextPage cur) + length ≤ KERNEL_PAGE := by
        have hle := Nat.mod_le (pageOf cur + 1) PAGE_COUNT
        rw [pageOf_nextPage_mod]
        omega
      have hsmall : length + 1 ≤ PAGE_COUNT := by
        have hle := kernel_page_le
        omega
      rw [pagingReserveArea]
      refine (((getKernelEntry_frames h (pageOf_lt cur) true).also
        (getKernelEntry_proceeds h (pageOf_lt cur) true)).also
        (getKernelEntry_spec h (pageOf_lt cur) true)).bind ?_
      rintro r s₁ ⟨⟨-, hsteady, hunused⟩, h₁, hg₁, hextra, hmapped, hr, -⟩
      have hm := hmapped (hr rfl)
      have hcur : s₁.kernel (pageOf cur) = .zero := hunused _ hlt (hzero _ (Or.inl rfl))
      refine yields_ok_bind (h₁.structured.loadEntry_ok (pageOf_lt cur) hm) ?_
      refine yields_ok_bind (check_ok (by rw [Machine.entry, hcur]; rfl)) ?_
      refine yields_ok_bind (h₁.structured.storeEntry_ok (pageOf_lt cur) hm _) ?_
      have hkept := kept_reserve (p := none) false h₁ (pageOf_lt cur) hm
        (fun _ => hlt) hcur hg₁.toGrows h
      have hother : ∀ q, q ≠ pageOf cur → (s₁.setEntry none (pageOf cur)
          ⟨false, false, false, PAGING_AVAIL_NOTPRESENT_RESERVED, 0⟩).kernel q = s₁.kernel q :=
        fun q hq => Function.update_of_ne hq _ _
      refine ((ih hkept.inv hnext fun page hpage => ?_).also
        (pagingReserveArea_kernel hkept.inv hnext)).mono ?_
      · have hpage_lt : page < KERNEL_PAGE := by
          have hspan := (span_iff (by have := kernel_page_le; omega)).mp hpage
          omega
        rw [hother page (span_ne hpage hsmall)]
        exact hunused page hpage_lt (hzero page (Or.inr hpage))
      · rintro _ s' ⟨⟨hroom', hsteady', hreserved⟩, hg', -⟩
        refine ⟨fun k hroom => hroom' k ?_, hsteady.trans ((steady_setEntry _).trans hsteady'),
          fun page hpage => ?_⟩
        · refine @Roomy.take _ _ (pageOf cur) (k + length) hroom (missing_of_extra hextra).le ?_
          intro q hq hne hq'
          rw [hother q hne]
          exact hunused q hq hq'
        rcases hpage with rfl | hpage
        · have hself := @entry_setEntry_self s₁ (pageOf cur) none
            ⟨false, false, false, PAGING_AVAIL_NOTPRESENT_RESERVED, 0⟩
          have hkernel := hg'.kernel (pageOf cur) (by
            rw [← Machine.entry, hself]
            rintro ⟨⟩)
          rw [hkernel, ← Machine.entry, hself]
          rfl
        · exact hreserved page hpage

end

section

variable {slack : Nat → Nat} {s s' : Machine} {rw : Bool} {pid src_addr byte_length : Nat}

/-- The number of pages which `ACCESS_USER_MEMORY` asks for. -/
def pageCount (src_addr byte_length : Nat) : Nat :=
  (src_addr % PAGE_SIZE + byte_length + (PAGE_SIZE - 1)) % 2 ^ 32 / PAGE_SIZE

/-- What has to be there for the buffer: unused pages of the kernel in a row and some more, and room
in the counters of its frames. -/
structure Mappable (s : Machine) (pid : Nat) (rw : Bool) (src_addr length : Nat) : Prop where
  pages : length ≠ 0
  area : FreeRun s length
  room : Roomy (2 + length) s
  countable : Countable s pid rw src_addr length

theorem pageCount_le (src_addr byte_length : Nat) :
    pageCount src_addr byte_length ≤ PAGE_COUNT := by
  unfold pageCount
  simp only [PAGE_SIZE, PAGE_COUNT]
  omega

end

section

/-! One page of a buffer, and a buffer whose number of pages is lost. -/

variable {slack : Nat → Nat} {s : Machine}

def bufferFacts (s : Machine) : Bool :=
  s.kernel (KERNEL_PAGE + 5) == .zero && s.kernel (KERNEL_PAGE + 6) == .zero &&
    ((s.process 0).pageDirectory.isSome && ((s.process 0).table 0xFFC02).present &&
      decide (((s.process 0).table 0xFFC02).frame < PAGE_COUNT) &&
      decide (refs s ((s.process 0).table 0xFFC02).frame ≤ 126))

theorem buffer_facts : ((pagingInit [] sampleMachine).toOption.bind fun r =>
    (run next r.2 sampleEvents).toOption.map fun r => bufferFacts r.1) = some true := by
  decide +kernel

end

end Ibnos.MappingFailures
