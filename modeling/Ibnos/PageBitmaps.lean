import Ibnos.FrameSupply
import Ibnos.PhysmemInit
import Mathlib.Order.Bounds.Basic
import Mathlib.Order.Interval.Set.Defs

/-!
The bitmap of physical pages is a set of free pages. Here the words are cells of an array,
an access outside of which is an error.
-/

namespace Ibnos.PageBitmaps

open Ibnos.Blocks
open Ibnos.BootMaps
open Ibnos.FrameSupply
open Ibnos.Memory
open Ibnos.Physmem
open Ibnos.PhysmemInit (setBits setFull setHead setMask setRest marked marked_setBits Pending)
open Ibnos.Programs
open Ibnos.References

/-- `physMemMap` -/
abbrev Words := Block (BitVec 32)

/-- `physMemMap[longIndex] |= mask` or `physMemMap[longIndex] &= ~mask` -/
def maskWord (reserved : Bool) (b : Words) (longIndex : Nat) (mask : BitVec 32) :
    Except OutOfBounds Words := do
  let word ← b.load longIndex
  b.store longIndex (setMask reserved word mask)

/-- The array, and what is left to do. -/
structure Remaining where
  words : Words
  longIndex : Nat
  length : Nat

/-- All bits till the next dword boundary. -/
def maskHead (reserved : Bool) (b : Words) (startIndex length : Nat) :
    Except OutOfBounds Remaining :=
  let longIndex := startIndex / 32
  let longOffset := startIndex % 32
  if longOffset = 0 then .ok ⟨b, longIndex, length⟩
  else if length > 32 - longOffset then do
    let words ← maskWord reserved b longIndex ((0xFFFFFFFF : BitVec 32) <<< longOffset)
    return ⟨words, longIndex + 1, length - (32 - longOffset)⟩
  else do
    let words ← maskWord reserved b longIndex ((((1 : BitVec 32) <<< length) - 1) <<< longOffset)
    return ⟨words, longIndex + 1, 0⟩

/-- The full dwords, of which there are `n`. -/
def maskFull (reserved : Bool) : Nat → Remaining → Except OutOfBounds Remaining
  | 0, r => .ok r
  | n + 1, r => do
      let words ← r.words.store r.longIndex (if reserved then 0xFFFFFFFF else 0)
      maskFull reserved n ⟨words, r.longIndex + 1, r.length - 32⟩

def maskRest (reserved : Bool) (r : Remaining) : Except OutOfBounds Words :=
  if r.length > 0 then
    maskWord reserved r.words r.longIndex (((1 : BitVec 32) <<< r.length) - 1)
  else .ok r.words

def maskBits (b : Words) (startIndex length : Nat) (reserved : Bool) :
    Except OutOfBounds Words := do
  let r ← maskHead reserved b startIndex length
  let r ← maskFull reserved (r.length / 32) r
  maskRest reserved r

def physMemSetMemoryBits (b : Words) (startIndex length : Nat) (reserved : Bool) :
    Except Fault Words :=
  if length < PAGE_COUNT ∧ startIndex < PAGE_COUNT - length then
    BootMaps.access (maskBits b startIndex length reserved)
  else .error .assertion

/-- The bitmap as a set. -/
def freePages (map : Nat → BitVec 32) :
    Set Nat := {page | page < PAGE_COUNT ∧ marked map page = false}

/-- The search for a page starts here. -/
def firstPage (lowmem : Bool) : Nat := if lowmem then 0 else 256

section

/-! The array has the words of the map. -/

variable {b : Words} {reserved : Bool} {startIndex length n : Nat} {p : Pending} {mask : BitVec 32}

def remaining (size : Nat) (p : Pending) : Remaining := ⟨⟨size, p.map⟩, p.longIndex, p.length⟩

theorem maskWord_eq {longIndex : Nat} (h : longIndex < b.length) (mask : BitVec 32) :
    maskWord reserved b longIndex mask =
      .ok ⟨b.length,
        Function.update b.cell longIndex (setMask reserved (b.cell longIndex) mask)⟩ := by
  rw [maskWord, load_eq h]
  exact store_eq h

theorem maskHead_eq (h : startIndex < 32 * b.length) :
    maskHead reserved b startIndex length =
      .ok (remaining b.length (setHead reserved b.cell startIndex length)) := by
  have hlt : startIndex / 32 < b.length := by omega
  rw [maskHead, setHead]
  split_ifs
  · rfl
  · rw [maskWord_eq hlt]
    rfl
  · rw [maskWord_eq hlt]
    rfl

theorem maskFull_eq {size : Nat} (hn : n * 32 ≤ p.length)
    (hend : p.longIndex * 32 + p.length ≤ 32 * size) :
    maskFull reserved n (remaining size p) = .ok (remaining size (setFull reserved n p)) := by
  induction n generalizing p with
  | zero => rfl
  | succ n ih =>
      have hlt : p.longIndex < size := by omega
      rw [maskFull, setFull]
      change (Block.store ⟨size, p.map⟩ p.longIndex _ >>= _) = _
      rw [store_eq hlt]
      refine ih (p := ⟨Function.update p.map p.longIndex (if reserved then 0xFFFFFFFF else 0),
        p.longIndex + 1, p.length - 32⟩) ?_ ?_
      · change n * 32 ≤ p.length - 32
        omega
      · change (p.longIndex + 1) * 32 + (p.length - 32) ≤ 32 * size
        omega

theorem maskRest_eq {size : Nat} (hend : 0 < p.length → p.longIndex < size) :
    maskRest reserved (remaining size p) = .ok ⟨size, setRest reserved p⟩ := by
  rw [maskRest, setRest]
  change (if p.length > 0 then _ else _) = _
  split_ifs with hpos
  · exact maskWord_eq (hend hpos) _
  · rfl

theorem maskBits_eq (h : startIndex + length < 32 * b.length) :
    maskBits b startIndex length reserved =
      .ok ⟨b.length, setBits b.cell startIndex length reserved⟩ := by
  have hprogress := PhysmemInit.setHead_progress b.cell reserved startIndex length
  have hset : setBits b.cell startIndex length reserved = setRest reserved (setFull reserved
      ((setHead reserved b.cell startIndex length).length / 32)
      (setHead reserved b.cell startIndex length)) := rfl
  rw [maskBits, maskHead_eq (by omega), hset]
  generalize setHead reserved b.cell startIndex length = p at hprogress
  obtain ⟨hfull, hlength⟩ :=
    PhysmemInit.setFull_progress hprogress (Nat.div_mul_le_self p.length 32)
  change (maskFull reserved (p.length / 32) (remaining b.length p) >>= _) = _
  have hrest := hfull.position
  rcases hprogress.position with hzero | hend
  · -- nothing is left behind the first word
    have hdiv : p.length / 32 = 0 := by omega
    rw [hdiv]
    exact maskRest_eq fun hpos => by omega
  · rw [maskFull_eq (Nat.div_mul_le_self p.length 32) (by omega)]
    apply maskRest_eq
    omega

theorem physMemSetMemoryBits_eq (hwords : b.length = PHYSMEMMAP_COUNT)
    (hlength : length < PAGE_COUNT)
    (hstart : startIndex < PAGE_COUNT - length) :
    physMemSetMemoryBits b startIndex length reserved =
      .ok ⟨b.length, setBits b.cell startIndex length reserved⟩ := by
  have hend : startIndex + length < 32 * b.length := by
    rw [hwords]
    simp only [PHYSMEMMAP_COUNT, PAGE_COUNT] at *
    omega
  rw [physMemSetMemoryBits, if_pos ⟨hlength, hstart⟩, maskBits_eq hend]
  rfl

theorem freePages_setBits (map : Nat → BitVec 32) (hlength : length < PAGE_COUNT)
    (hstart : startIndex < PAGE_COUNT - length) :
    freePages (setBits map startIndex length reserved) =
      if reserved then freePages map \ Set.Ico startIndex (startIndex + length)
      else freePages map ∪ Set.Ico startIndex (startIndex + length) := by
  have hmarked : ∀ page, marked (setBits map startIndex length reserved) page =
      if startIndex ≤ page ∧ page < startIndex + length then reserved else marked map page :=
    marked_setBits startIndex length
  ext page
  simp only [freePages, Set.mem_ofPred_eq, hmarked]
  cases reserved with
  | true =>
      simp only [if_true, Set.mem_sdiff, Set.mem_ofPred_eq, Set.mem_Ico]
      split_ifs with hpage
      · simp [hpage]
      · simp [hpage]
  | false =>
      simp only [Bool.false_eq_true, if_false, Set.mem_union, Set.mem_ofPred_eq, Set.mem_Ico]
      split_ifs with hpage
      · simp only [hpage, and_self, and_true, or_true, iff_true]
        omega
      · simp [hpage]

end

section

/-! The search for a free page. -/

variable {map : Nat → BitVec 32} {word : BitVec 32} {s : Machine} {lowmem : Bool}
    {page n i j w : Nat}

theorem findWord_before (h : findWord map n i = some w) (hle : i ≤ j) (hlt : j < w) :
    map j = 0xFFFFFFFF := by
  induction n generalizing i with
  | zero => cases h
  | succ n ih =>
      rw [findWord] at h
      split_ifs at h with hword
      · cases h
        omega
      · rcases hle.eq_or_lt with rfl | hle
        · exact not_not.mp hword
        · exact ih h hle

theorem findWord_none (h : findWord map n i = none) (hle : i ≤ j) (hlt : j < i + n) :
    map j = 0xFFFFFFFF := by
  induction n generalizing i with
  | zero => omega
  | succ n ih =>
      rw [findWord] at h
      split_ifs at h with hword
      rcases hle.eq_or_lt with rfl | hle
      · exact not_not.mp hword
      · exact ih h hle (by omega)

theorem findBit_before (hle : i ≤ j) (hlt : j < findBit word n i) : word.getLsbD j = true := by
  induction n generalizing i with
  | zero =>
      rw [findBit] at hlt
      omega
  | succ n ih =>
      rw [findBit] at hlt
      split_ifs at hlt with hbit
      · rcases hle.eq_or_lt with rfl | hle
        · exact hbit
        · exact ih hle hlt
      · omega

theorem marked_of_ones (h : map (page / 32) = 0xFFFFFFFF) : marked map page = true := by
  rw [marked, h]
  exact all_ones _ (Nat.mod_lt _ (by decide))

theorem firstPage_eq (lowmem : Bool) : firstPage lowmem = firstWord lowmem * 32 := by
  cases lowmem <;> rfl

theorem exists_least_free (h : ∃ page ∈ freePages map, firstPage lowmem ≤ page) :
    ∃ page, IsLeast {p ∈ freePages map | firstPage lowmem ≤ p} page := by
  classical
  exact ⟨_, Nat.isLeast_find h⟩

/-- The word and the bit which are found are those of the first free page. -/
theorem findPage_eq (h : IsLeast {p ∈ freePages map | firstPage lowmem ≤ p} page) :
    ∃ w, findWord map (PHYSMEMMAP_COUNT - firstWord lowmem) (firstWord lowmem) = some w ∧
      w * 32 + findBit (map w) 32 0 = page := by
  obtain ⟨⟨⟨hlt, hfree⟩, hfirst⟩, hleast⟩ := h
  rw [firstPage_eq] at hfirst hleast
  have hcount : PAGE_COUNT = PHYSMEMMAP_COUNT * 32 := rfl
  have hones : map (page / 32) ≠ 0xFFFFFFFF := by
    intro hones
    rw [marked_of_ones hones] at hfree
    cases hfree
  cases hword : findWord map (PHYSMEMMAP_COUNT - firstWord lowmem) (firstWord lowmem) with
  | none => exact (hones (findWord_none hword (by omega) (by omega))).elim
  | some w =>
      refine ⟨w, rfl, ?_⟩
      obtain ⟨hle, hend, hne⟩ := findWord_eq_some hword
      obtain ⟨hbit, hclear⟩ := findBit_spec (n := 32) (i := 0) rfl (by simp) hne
      have hw : w ≤ page / 32 := by
        by_contra hw
        exact hones (findWord_before hword (by omega) (by omega))
      have hfound : page ≤ w * 32 + findBit (map w) 32 0 := by
        refine hleast ⟨⟨by omega, ?_⟩, by omega⟩
        have hdiv : (w * 32 + findBit (map w) 32 0) / 32 = w := by omega
        have hmod : (w * 32 + findBit (map w) 32 0) % 32 = findBit (map w) 32 0 := by omega
        rw [marked, hdiv, hmod]
        exact hclear
      obtain rfl : w = page / 32 := by omega
      have hoffset : ¬page % 32 < findBit (map (page / 32)) 32 0 := by
        intro hoffset
        rw [marked, findBit_before (Nat.zero_le _) hoffset] at hfree
        cases hfree
      omega

theorem physMemAllocPage_eq (h : IsLeast {p ∈ freePages s.physMemMap | firstPage lowmem ≤ p} page) :
    physMemAllocPage lowmem s = .ok (page, (s.setBit page true).handOut page) := by
  obtain ⟨w, hword, hpage⟩ := findPage_eq h
  change allocLoop lowmem (15 + 1) s = _
  rw [allocLoop, bind_apply, get_apply]
  simp only [hword, hpage]
  rfl

theorem marked_setBit (s : Machine) (page p : Nat) (b : Bool) :
    marked (s.setBit page b).physMemMap p = if p = page then b else marked s.physMemMap p :=
  used_setBit s page p b

theorem freePages_take (s : Machine) (page : Nat) :
    freePages (s.setBit page true).physMemMap = freePages s.physMemMap \ {page} := by
  ext p
  simp only [freePages, Set.mem_ofPred_eq, Set.mem_sdiff, Set.mem_singleton_iff, marked_setBit]
  split_ifs with hp
  · simp [hp]
  · simp [hp]

theorem freePages_give (s : Machine) (hpage : page < PAGE_COUNT) :
    freePages (s.setBit page false).physMemMap = insert page (freePages s.physMemMap) := by
  ext p
  simp only [freePages, Set.mem_ofPred_eq, Set.mem_insert_iff, marked_setBit]
  split_ifs with hp
  · simp [hp, hpage]
  · simp [hp]

/-- There is no record for the page, or it is empty. -/
def NoInfo (s : Machine) (index : Nat) : Prop :=
  s.physMemExtra (index / PHYSMEMEXTRA_COUNT) = none ∨
    accessInfo index s = .ok ((), s) ∧ s.extraInfo index = .zero

theorem physMemReleasePage_eq (henabled : s.pagingEnabled = true) (hpage : page < PAGE_COUNT)
    (hused : marked s.physMemMap page = true) (hinfo : NoInfo s page) :
    physMemReleasePage page s = .ok (0, s.setBit page false) := by
  have hassert : check ((s.physMemMap (page / 32)).getLsbD (page % 32)) s = .ok ((), s) :=
    check_ok hused
  cases hx : s.physMemExtra (page / PHYSMEMEXTRA_COUNT) with
  | none =>
      have hindex := decide_eq_true (extra_index_lt hpage)
      have hnone : getPhysMemExtraInfo 0 page false s = .ok (false, s) := by
        rw [getPhysMemExtraInfo]
        simp only [bind_apply, get_apply, check_ok henabled, check_ok hindex, hx]
        rfl
      simp only [physMemReleasePage, bind_apply, get_apply, hassert, hnone]
      rfl
  | some k =>
      obtain ⟨haccess, hzero⟩ := hinfo.resolve_left (by simp [hx])
      have hsome : getPhysMemExtraInfo 0 page false s = .ok (true, s) :=
        getPhysMemExtraInfo_present 0 false henabled hpage (by simp [hx])
      have hload : loadInfo page s = .ok (.zero, s) := by
        rw [loadInfo, bind_apply, haccess, ← hzero]
        rfl
      simp only [physMemReleasePage, bind_apply, get_apply, hassert, hsome, if_true,
        releaseRecord, hload]
      rfl

/-- Whatever is in the bitmap, the operations are those of a set of free pages. -/
theorem bitmap_is_set :
    (∀ (b : Words) (startIndex length : Nat) (reserved : Bool), b.length = PHYSMEMMAP_COUNT →
      length < PAGE_COUNT → startIndex < PAGE_COUNT - length →
        ∃ b', physMemSetMemoryBits b startIndex length reserved = .ok b' ∧ b'.length = b.length ∧
          freePages b'.cell = if reserved then
            freePages b.cell \ Set.Ico startIndex (startIndex + length)
            else freePages b.cell ∪ Set.Ico startIndex (startIndex + length)) ∧
    (∀ (s : Machine) (lowmem : Bool), (∃ page ∈ freePages s.physMemMap, firstPage lowmem ≤ page) →
      ∃ page s', physMemAllocPage lowmem s = .ok (page, s') ∧
        IsLeast {p ∈ freePages s.physMemMap | firstPage lowmem ≤ p} page ∧
        freePages s'.physMemMap = freePages s.physMemMap \ {page}) ∧
    ∀ (s : Machine) (page : Nat), s.pagingEnabled = true → page < PAGE_COUNT →
      marked s.physMemMap page = true → NoInfo s page →
        ∃ s', physMemReleasePage page s = .ok (0, s') ∧
          freePages s'.physMemMap = insert page (freePages s.physMemMap) := by
  refine ⟨fun b startIndex length reserved hwords hlength hstart => ?_, fun s lowmem hfree => ?_,
    fun s page henabled hpage hused hinfo => ?_⟩
  · refine ⟨_, physMemSetMemoryBits_eq hwords hlength hstart, rfl, ?_⟩
    exact freePages_setBits b.cell hlength hstart
  · obtain ⟨page, hpage⟩ := exists_least_free hfree
    exact ⟨page, _, physMemAllocPage_eq hpage, hpage, freePages_take s page⟩
  · exact ⟨_, physMemReleasePage_eq henabled hpage hused hinfo, freePages_give s hpage⟩

end

/-- A machine on which the page 300 is free. -/
def oneFree : Machine where
  pagingEnabled := true
  physMemMap i := if i = 9 then 0xFFFFEFFF else 0xFFFFFFFF
  physMemExtra _ := none
  extraInfo _ := .zero
  extraFrame _ := 0
  kernel _ := .zero
  kernelTable _ := 0
  process _ := {}
  memory _ _ := 0
  holdsTable _ := false
  handedOut _ := false

/-- Two words are changed, a page is taken, and another one is given back. -/
theorem bitmap_is_set_oneFree :
    (∃ b', physMemSetMemoryBits ⟨PHYSMEMMAP_COUNT, fun _ => 0⟩ 30 40 true = .ok b' ∧
      b'.length = PHYSMEMMAP_COUNT ∧ freePages b'.cell = freePages (fun _ => 0) \ Set.Ico 30 70) ∧
    (∃ page s', physMemAllocPage false oneFree = .ok (page, s') ∧
      IsLeast {p ∈ freePages oneFree.physMemMap | 256 ≤ p} page ∧
        freePages s'.physMemMap = freePages oneFree.physMemMap \ {page}) ∧
    ∃ s', physMemReleasePage 5 oneFree = .ok (0, s') ∧
      freePages s'.physMemMap = insert 5 (freePages oneFree.physMemMap) :=
  ⟨bitmap_is_set.1 ⟨PHYSMEMMAP_COUNT, fun _ => 0⟩ 30 40 true rfl (by decide) (by decide),
    bitmap_is_set.2.1 oneFree false ⟨300, ⟨by decide, by decide⟩, by decide⟩,
    bitmap_is_set.2.2 oneFree 5 rfl (by decide) (by decide) (Or.inl rfl)⟩

end Ibnos.PageBitmaps
