import Ibnos.PhysmemInit

/-!
Ranges of physical memory which are reserved or freed by their addresses. A range is
rounded to pages, and the last page of the address space is cut off.
-/

namespace Ibnos.MemoryRanges

open Ibnos.BootMaps
open Ibnos.PhysmemInit
open Ibnos.Programs

def physMemReserveMemory (addr length : Nat) : Init Unit := do
  let startIndex := addr / PAGE_SIZE
  let stopIndex := clip ((addr + length + PAGE_MASK) / PAGE_SIZE)
  initAssert (startIndex ≤ stopIndex)
  physMemSetMemoryBits startIndex (stopIndex - startIndex) true

/-- The start is rounded with 32 bits, the end with 64. -/
def physMemFreeMemory (addr length : Nat) : Init Unit := do
  let startIndex := (addr + PAGE_MASK) % WORD / PAGE_SIZE
  let stopIndex := clip ((addr + length) / PAGE_SIZE)
  initAssert (startIndex ≤ stopIndex)
  physMemSetMemoryBits startIndex (stopIndex - startIndex) false

section

variable {s s' : BootState} {addr length startIndex stopIndex page : Nat} {reserved : Bool}

/-- The last page of the address space. -/
def LAST_PAGE : Nat := PAGE_COUNT - 1

/-- The page lies entirely inside of a range. -/
def Inside (addr length page : Nat) : Prop :=
  addr ≤ page * PAGE_SIZE ∧ (page + 1) * PAGE_SIZE ≤ addr + length

/-- Every page which meets the range is reserved, and nothing else changes. -/
def Reserves (s : BootState) (addr length : Nat) : Prop :=
  ∃ s', physMemReserveMemory addr length s = .ok ((), s') ∧ s'.bootMap = s.bootMap ∧
    ∀ page < PAGE_COUNT, (Meets addr length page → marked s'.physMemMap page = true) ∧
      (¬Meets addr length page → marked s'.physMemMap page = marked s.physMemMap page)

/-- Every page inside of the range is freed unless it is the last page, and nothing else changes. -/
def FreesInside (s : BootState) (addr length : Nat) : Prop :=
  ∃ s', physMemFreeMemory addr length s = .ok ((), s') ∧ s'.bootMap = s.bootMap ∧
    ∀ page < PAGE_COUNT,
      (Inside addr length page ∧ page < LAST_PAGE → marked s'.physMemMap page = false) ∧
      (¬(Inside addr length page ∧ page < LAST_PAGE) →
        marked s'.physMemMap page = marked s.physMemMap page)

theorem clip_lt (stopIndex : Nat) : clip stopIndex < PAGE_COUNT := by
  rw [clip]
  split
  · decide
  · next h => exact Nat.lt_of_not_ge h

/-- The pages of a range are set between the two ends. -/
theorem setRange_eq (hle : startIndex ≤ clip stopIndex) :
    (do
      initAssert (startIndex ≤ clip stopIndex)
      physMemSetMemoryBits startIndex (clip stopIndex - startIndex) reserved : Init Unit) s =
      .ok ((), { s with
        physMemMap :=
          setBits s.physMemMap startIndex (clip stopIndex - startIndex) reserved }) := by
  have hclip := clip_lt stopIndex
  rw [physMemSetMemoryBits, initAssert, if_pos hle, initAssert, if_pos (by omega), initAssert,
    if_pos (by omega)]
  rfl

theorem marked_setRange (map : Nat → BitVec 32) (hle : startIndex ≤ clip stopIndex) (page : Nat) :
    marked (setBits map startIndex (clip stopIndex - startIndex) reserved) page =
      if startIndex ≤ page ∧ page < stopIndex ∧ page < LAST_PAGE then reserved else marked map page := by
  rw [marked_setBits, Nat.add_sub_cancel' hle]
  simp only [lt_clip_iff]
  rfl

theorem meets_iff : Meets addr length page ↔
    addr / PAGE_SIZE ≤ page ∧ page < (addr + length + PAGE_MASK) / PAGE_SIZE ∧ length ≠ 0 := by
  constructor
  · rintro ⟨x, hlow, hhigh, hpage, hend⟩
    simp only [PAGE_SIZE, PAGE_MASK] at *
    omega
  · rintro ⟨hlow, hhigh, hlength⟩
    refine ⟨max addr (page * PAGE_SIZE), le_max_left _ _, ?_, le_max_right _ _, ?_⟩
    all_goals
      simp only [PAGE_SIZE, PAGE_MASK] at *
      omega

/-- What `physMemReserveMemory` misses is the last page, and what it reserves too much is the
page of an empty range. -/
def Reserved (s : BootState) (addr length : Nat) : Prop :=
  (length ≠ 0 → LAST_PAGE * PAGE_SIZE < addr + length → marked s.physMemMap LAST_PAGE = true) ∧
    (length = 0 → addr % PAGE_SIZE ≠ 0 → addr / PAGE_SIZE < LAST_PAGE →
      marked s.physMemMap (addr / PAGE_SIZE) = true)

theorem reserves_iff (haddr : addr < 2 ^ 32) : Reserves s addr length ↔ Reserved s addr length := by
  have hle : addr / PAGE_SIZE ≤ clip ((addr + length + PAGE_MASK) / PAGE_SIZE) := by
    rw [clip]
    split
    all_goals
      simp only [PAGE_SIZE, PAGE_MASK, PAGE_COUNT] at *
      omega
  have hrun : physMemReserveMemory addr length s = .ok ((), _) := setRange_eq hle
  have hmarked := @marked_setRange _ _ true s.physMemMap hle
  constructor
  · rintro ⟨s', hok, -, hpages⟩
    rw [hrun] at hok
    cases hok
    constructor
    · intro hlength hlast
      have hmeets : Meets addr length LAST_PAGE := by
        refine meets_iff.mpr ⟨?_, ?_, hlength⟩
        all_goals
          simp only [LAST_PAGE, PAGE_SIZE, PAGE_MASK, PAGE_COUNT] at *
          omega
      have hpage := (hpages LAST_PAGE (by decide)).1 hmeets
      rwa [hmarked, if_neg (by omega)] at hpage
    · rintro rfl hunaligned hlast
      have hpage := (hpages (addr / PAGE_SIZE) (hlast.trans (by decide))).2 fun hmeets =>
        (meets_iff.mp hmeets).2.2 rfl
      rw [hmarked, if_pos] at hpage
      · exact hpage.symm
      · refine ⟨le_rfl, ?_, hlast⟩
        simp only [PAGE_SIZE, PAGE_MASK] at *
        omega
  · rintro ⟨hlast, hempty⟩
    refine ⟨_, hrun, rfl, fun page hpage => ?_⟩
    rw [hmarked]
    constructor
    · intro hmeets
      obtain ⟨hlow, hhigh, hlength⟩ := meets_iff.mp hmeets
      split
      · rfl
      · next hnot =>
        obtain rfl : page = LAST_PAGE := by
          simp only [LAST_PAGE, PAGE_COUNT] at *
          omega
        refine hlast hlength ?_
        simp only [LAST_PAGE, PAGE_SIZE, PAGE_MASK, PAGE_COUNT] at hhigh ⊢
        omega
    · intro hmeets
      split
      · next hset =>
        obtain rfl : length = 0 := by
          by_contra hlength
          exact hmeets (meets_iff.mpr ⟨hset.1, hset.2.1, hlength⟩)
        have hpage : page = addr / PAGE_SIZE ∧ addr % PAGE_SIZE ≠ 0 := by
          simp only [PAGE_SIZE, PAGE_MASK] at *
          omega
        obtain ⟨rfl, hunaligned⟩ := hpage
        exact (hempty rfl hunaligned hset.2.2).symm
      · rfl

/-- A range from which a page may be freed begins at a page or reaches the next one, and its start
can be rounded with 32 bits. Where it cannot, every page but the last one is freed. -/
def Freed (s : BootState) (addr length : Nat) : Prop :=
  (addr ≤ LAST_PAGE * PAGE_SIZE → addr % PAGE_SIZE = 0 ∨ PAGE_SIZE ≤ addr % PAGE_SIZE + length) ∧
    (LAST_PAGE * PAGE_SIZE < addr → ∀ page < LAST_PAGE, marked s.physMemMap page = false)

/-- The start is rounded up. -/
theorem freesInside_iff_low (haddr : addr ≤ LAST_PAGE * PAGE_SIZE) : FreesInside s addr length ↔
    addr % PAGE_SIZE = 0 ∨ PAGE_SIZE ≤ addr % PAGE_SIZE + length := by
  have hround : (addr + PAGE_MASK) % WORD / PAGE_SIZE = (addr + PAGE_MASK) / PAGE_SIZE := by
    simp only [LAST_PAGE, PAGE_SIZE, PAGE_MASK, PAGE_COUNT, WORD] at *
    omega
  have hiff : (addr + PAGE_MASK) / PAGE_SIZE ≤ clip ((addr + length) / PAGE_SIZE) ↔
      addr % PAGE_SIZE = 0 ∨ PAGE_SIZE ≤ addr % PAGE_SIZE + length := by
    rw [clip]
    split
    all_goals
      simp only [LAST_PAGE, PAGE_SIZE, PAGE_MASK, PAGE_COUNT] at *
      omega
  rw [FreesInside, physMemFreeMemory, hround, ← hiff]
  constructor
  · rintro ⟨s', hok, -⟩
    obtain ⟨_, s₁, hassert, -⟩ := bind_ok.mp hok
    exact (initAssert_ok hassert).1
  · intro hle
    refine ⟨_, setRange_eq hle, rfl, fun page hpage => ?_⟩
    have hpages : Inside addr length page ∧ page < LAST_PAGE ↔
      (addr + PAGE_MASK) / PAGE_SIZE ≤ page ∧
        page < (addr + length) / PAGE_SIZE ∧ page < LAST_PAGE := by
      rw [Inside]
      simp only [PAGE_SIZE, PAGE_MASK]
      omega
    rw [marked_setRange _ hle, hpages]
    exact ⟨fun hset => if_pos hset, fun hset => if_neg hset⟩

/-- The start is rounded to zero. -/
theorem freesInside_iff_high (haddr : LAST_PAGE * PAGE_SIZE < addr) (hlt : addr < 2 ^ 32) :
    FreesInside s addr length ↔ ∀ page < LAST_PAGE, marked s.physMemMap page = false := by
  have hround : (addr + PAGE_MASK) % WORD / PAGE_SIZE = 0 := by
    simp only [LAST_PAGE, PAGE_SIZE, PAGE_MASK, PAGE_COUNT, WORD] at *
    omega
  have hstop : LAST_PAGE ≤ (addr + length) / PAGE_SIZE := by
    simp only [LAST_PAGE, PAGE_SIZE, PAGE_COUNT] at *
    omega
  have hnone : ∀ page, ¬(Inside addr length page ∧ page < LAST_PAGE) := by
    rintro page ⟨⟨hlow, -⟩, hpage⟩
    simp only [LAST_PAGE, PAGE_SIZE, PAGE_COUNT] at *
    omega
  have hmarked := @marked_setRange 0 ((addr + length) / PAGE_SIZE) false s.physMemMap
    (Nat.zero_le _)
  rw [FreesInside, physMemFreeMemory, hround]
  constructor
  · rintro ⟨s', hok, -, hpages⟩ page hpage
    rw [setRange_eq (Nat.zero_le _)] at hok
    cases hok
    have hsame := (hpages page (hpage.trans (by decide))).2 (hnone page)
    rw [hmarked, if_pos ⟨Nat.zero_le _, hpage.trans_le hstop, hpage⟩] at hsame
    exact hsame.symm
  · intro hfree
    refine ⟨_, setRange_eq (Nat.zero_le _), rfl,
      fun page hpage => ⟨fun hset => (hnone page hset).elim, ?_⟩⟩
    intro _
    rw [hmarked]
    split
    · next hset => exact (hfree page hset.2.2).symm
    · rfl

theorem freesInside_iff (haddr : addr < 2 ^ 32) :
    FreesInside s addr length ↔ Freed s addr length := by
  rw [Freed]
  rcases Nat.lt_or_ge (LAST_PAGE * PAGE_SIZE) addr with hhigh | hlow
  · rw [freesInside_iff_high hhigh haddr]
    exact ⟨fun hfree => ⟨fun hle => by omega, fun _ => hfree⟩, fun hfree => hfree.2 hhigh⟩
  · rw [freesInside_iff_low hlow]
    exact ⟨fun hfull => ⟨fun _ => hfull, fun hlt => by omega⟩, fun hfull => hfull.1 hlow⟩

/-- Exactly when ranges of physical memory are rounded the right way. -/
theorem memory_range_iff (s : BootState) (addr length : BitVec 32) :
    (Reserves s addr.toNat length.toNat ∧ FreesInside s addr.toNat length.toNat) ↔
      Reserved s addr.toNat length.toNat ∧ Freed s addr.toNat length.toNat := by
  rw [reserves_iff addr.isLt, freesInside_iff addr.isLt]

/-- The last page of the address space stays free, a range inside of one page stops the kernel, and
one which begins in the last page frees everything else. -/
theorem memory_range_rounded_wrongly :
    (¬Reserves ⟨fun _ => 0, emptyBootMap⟩ 0xFFFFF000 0x1000) ∧
      (physMemFreeMemory 0x1001 0x10 ⟨fun _ => 0xFFFFFFFF, emptyBootMap⟩).isOk = false ∧
      (¬FreesInside ⟨fun _ => 0xFFFFFFFF, emptyBootMap⟩ 0x1001 0x10) ∧
      ¬FreesInside ⟨fun _ => 0xFFFFFFFF, emptyBootMap⟩ 0xFFFFF001 0 := by
  refine ⟨?_, rfl, ?_, ?_⟩
  · rw [reserves_iff (by decide)]
    intro hreserved
    have hlast := hreserved.1 (by decide) (by decide)
    cases hlast
  · rw [freesInside_iff (by decide)]
    intro hfreed
    have hlow := hfreed.1 (by decide)
    revert hlow
    decide
  · rw [freesInside_iff (by decide)]
    intro hfreed
    have hfree := hfreed.2 (by decide) 0 (by decide)
    revert hfree
    decide

end

end Ibnos.MemoryRanges
