import Ibnos.Blocks
import Ibnos.Intervals
import Ibnos.Runs
import Mathlib.Data.List.Induction

/-!
The sets of pages which are kept as intervals: the boot map in an array, and the
pages which the loader of executables needs in a linked list.
-/

namespace Ibnos.BootMaps

open Ibnos.Blocks
open Ibnos.Intervals
open Ibnos.Runs

def WORD : Nat := 0x100000000

def MAX_BOOT_ENTRIES : Nat := 1024

inductive Fault
  | assertion
  | outOfBounds
  | outOfFuel
  deriving DecidableEq, Repr

structure BootMapEntry where
  startIndex : Nat
  length : Nat
  deriving DecidableEq, Repr

def BootMapEntry.stopIndex (e : BootMapEntry) : Nat := (e.startIndex + e.length) % WORD

/-- `pagingBootMap` and `pagingNumBootMaps` -/
structure BootMap where
  entries : Block BootMapEntry
  num : Nat

def emptyBootMap : BootMap := ⟨⟨MAX_BOOT_ENTRIES, fun _ => ⟨0, 0⟩⟩, 0⟩

/-- An access to the array. -/
def access {α : Type} : Except OutOfBounds α → Except Fault α
  | .ok a => .ok a
  | .error _ => .error .outOfBounds

/-- The entries behind the one at `mapIndex` are moved to the front. -/
def removeEntry (m : BootMap) (mapIndex : Nat) : Except Fault BootMap := do
  let entries ← access (m.entries.copyForward mapIndex (mapIndex + 1) (m.num - (mapIndex + 1)))
  return ⟨entries, m.num - 1⟩

/-- A new entry in front of the one at `mapIndex`. -/
def createEntry (m : BootMap) (mapIndex startIndex stopIndex : Nat) : Except Fault BootMap := do
  if m.num < MAX_BOOT_ENTRIES then
    let entries ← access (m.entries.copyBackward (mapIndex + 1) mapIndex (m.num - mapIndex))
    let entries ← access (entries.store mapIndex
      ⟨startIndex, (stopIndex + WORD - startIndex) % WORD⟩)
    return ⟨entries, m.num + 1⟩
  else .error .assertion

/-- The loop of `pagingInsertBootMap`, together with what follows it. -/
def insertBootMapLoop : Nat → BootMap → Nat → Nat → Nat → Except Fault BootMap
  | 0, _, _, _, _ => .error .outOfFuel
  | fuel + 1, m, mapIndex, startIndex, stopIndex =>
      if mapIndex < m.num then do
        let entry ← access (m.entries.load mapIndex)
        if stopIndex < entry.startIndex then createEntry m mapIndex startIndex stopIndex
        else if entry.stopIndex < startIndex then
          insertBootMapLoop fuel m (mapIndex + 1) startIndex stopIndex
        else if entry.startIndex ≤ startIndex ∧ stopIndex ≤ entry.stopIndex then return m
        else
          let m ← removeEntry m mapIndex
          insertBootMapLoop fuel m mapIndex
            (if entry.startIndex < startIndex then entry.startIndex else startIndex)
            (if stopIndex < entry.stopIndex then entry.stopIndex else stopIndex)
      else createEntry m mapIndex startIndex stopIndex

/-- `pagingInsertBootMap`, before paging is initialized. -/
def pagingInsertBootMap (m : BootMap) (startIndex stopIndex : Nat) : Except Fault BootMap :=
  insertBootMapLoop (m.num + 1) m 0 startIndex stopIndex

/-- The loop of `__pagingBootMapCheck` for the entries from `i` on. -/
def bootMapCheckLoop (m : BootMap) (startIndex stopIndex : Nat) : Nat → Nat → Except Fault Bool
  | 0, _ => .ok false
  | n + 1, i => do
      let entry ← access (m.entries.load i)
      if stopIndex ≤ entry.startIndex then return false
      else if entry.stopIndex ≤ startIndex then bootMapCheckLoop m startIndex stopIndex n (i + 1)
      else return true

/-- `__pagingBootMapCheck` -/
def pagingBootMapCheck (m : BootMap) (startIndex stopIndex : Nat) : Except Fault Bool :=
  bootMapCheckLoop m startIndex stopIndex m.num 0

/-- A new entry of the linked list, if `heapAlloc` succeeds. -/
def insertEntry (granted : Bool) (startIndex stopIndex : Nat) (pages : List (Stretch Nat)) :
    Except Fault (List (Stretch Nat)) :=
  if granted then .ok (⟨startIndex, stopIndex⟩ :: pages) else .error .assertion

/-- The loop of `__insertRequiredPage` over the entries which are left. -/
def insertRequiredLoop (granted : Bool) :
    List (Stretch Nat) → Nat → Nat → Except Fault (List (Stretch Nat))
  | [], startIndex, stopIndex => insertEntry granted startIndex stopIndex []
  | it :: rest, startIndex, stopIndex =>
      if stopIndex < it.start then insertEntry granted startIndex stopIndex (it :: rest)
      else if it.stop < startIndex then do
        let pages ← insertRequiredLoop granted rest startIndex stopIndex
        return it :: pages
      else if it.start ≤ startIndex ∧ stopIndex ≤ it.stop then return it :: rest
      else
        insertRequiredLoop granted rest (if it.start < startIndex then it.start else startIndex)
          (if stopIndex < it.stop then it.stop else stopIndex)

/-- `__insertRequiredPage` -/
def insertRequiredPage (granted : Bool) (pages : List (Stretch Nat)) (startIndex stopIndex : Nat) :
    Except Fault (List (Stretch Nat)) :=
  if stopIndex ≤ startIndex then .ok pages
  else insertRequiredLoop granted pages startIndex stopIndex

/-- The intervals of the boot map. -/
def BootMap.intervals (m : BootMap) : List (Stretch Nat) :=
  (m.entries.slice 0 m.num).map fun e => ⟨e.startIndex, e.stopIndex⟩

def insertBootMaps (pairs : List (Nat × Nat)) : Except Fault BootMap :=
  pairs.foldlM (fun m p => pagingInsertBootMap m p.1 p.2) emptyBootMap

def insertRequiredPages (pairs : List (Nat × Nat)) : Except Fault (List (Stretch Nat)) :=
  pairs.foldlM (fun pages p => insertRequiredPage true pages p.1 p.2) []

section

variable {l l' : List (Stretch Nat)} {m : BootMap} {startIndex stopIndex n : Nat}

/-- What the insertion of an interval into a sorted list gives. -/
structure Inserted (l : List (Stretch Nat)) (startIndex stopIndex : Nat)
    (l' : List (Stretch Nat)) : Prop where
  separate : Separate l'
  nonempty : (∀ i ∈ l, i.start < i.stop) → startIndex < stopIndex → ∀ i ∈ l', i.start < i.stop
  covers : ∀ n, Covers l' n ↔ Covers l n ∨ startIndex ≤ n ∧ n < stopIndex
  bound : ∀ b < startIndex, (∀ i ∈ l, b < i.start) → ∀ i ∈ l', b < i.start
  stop : ∀ b, stopIndex ≤ b → (∀ i ∈ l, i.stop ≤ b) → ∀ i ∈ l', i.stop ≤ b
  length : l'.length ≤ l.length + 1

theorem Inserted.canonical (hi : Inserted l startIndex stopIndex l') (h : Canonical l)
    (hlt : startIndex < stopIndex) : Canonical l' :=
  ⟨hi.nonempty h.nonempty hlt, hi.separate.apart⟩

theorem inserted_cons (h : Separate l) (hle : startIndex ≤ stopIndex)
    (hbefore : ∀ i ∈ l, stopIndex < i.start) :
    Inserted l startIndex stopIndex (⟨startIndex, stopIndex⟩ :: l) where
  separate := separate_cons_iff.mpr ⟨hle, hbefore, h⟩
  nonempty := by
    intro hl hlt i hi
    rcases List.mem_cons.mp hi with rfl | hi
    · exact hlt
    · exact hl i hi
  covers := fun n => by rw [covers_cons, or_comm]
  bound := by
    intro b hb hl i hi
    rcases List.mem_cons.mp hi with rfl | hi
    · exact hb
    · exact hl i hi
  stop := by
    intro b hb hl i hi
    rcases List.mem_cons.mp hi with rfl | hi
    · exact hb
    · exact hl i hi
  length := Nat.le_refl _

theorem insertRequiredLoop_inserted (h : Separate l) (hle : startIndex ≤ stopIndex) :
    ∃ l', insertRequiredLoop true l startIndex stopIndex = .ok l' ∧
      Inserted l startIndex stopIndex l' := by
  induction l generalizing startIndex stopIndex with
  | nil => exact ⟨_, rfl, inserted_cons h hle nofun⟩
  | cons it rest ih =>
      obtain ⟨hit, hafter, hrest⟩ := separate_cons_iff.mp h
      rw [insertRequiredLoop]
      generalize ha : (if it.start < startIndex then it.start else startIndex) = a
      generalize hb : (if stopIndex < it.stop then it.stop else stopIndex) = b
      split_ifs with hbefore hskip hincluded
      · refine ⟨_, rfl, inserted_cons h hle fun i hi => ?_⟩
        rcases List.mem_cons.mp hi with rfl | hi
        · exact hbefore
        · exact hbefore.trans (hit.trans_lt (hafter i hi))
      · obtain ⟨l', hl', hinserted⟩ := ih hrest hle
        refine ⟨it :: l', by rw [hl']; rfl, ?_, fun hl hlt i hi => ?_, fun n => ?_,
          fun b hb hl i hi => ?_, fun b hb hl i hi => ?_, Nat.succ_le_succ hinserted.length⟩
        · exact separate_cons_iff.mpr
            ⟨hit, hinserted.bound it.stop hskip hafter, hinserted.separate⟩
        · rcases List.mem_cons.mp hi with rfl | hi
          · exact hl i List.mem_cons_self
          · exact hinserted.nonempty (fun j hj => hl j (List.mem_cons_of_mem _ hj)) hlt i hi
        · rw [covers_cons, covers_cons, hinserted.covers n, or_assoc]
        · rcases List.mem_cons.mp hi with rfl | hi
          · exact hl i List.mem_cons_self
          · exact hinserted.bound b hb (fun j hj => hl j (List.mem_cons_of_mem _ hj)) i hi
        · rcases List.mem_cons.mp hi with rfl | hi
          · exact hl i List.mem_cons_self
          · exact hinserted.stop b hb (fun j hj => hl j (List.mem_cons_of_mem _ hj)) i hi
      · refine ⟨it :: rest, rfl, h, fun hl _ => hl, fun n => ?_, fun b _ hl => hl,
          fun b _ hl => hl, Nat.le_succ _⟩
        rw [covers_cons]
        constructor
        · exact Or.inl
        · rintro (hn | hn)
          · exact hn
          · exact Or.inl ⟨hincluded.1.trans hn.1, hn.2.trans_le hincluded.2⟩
      · -- The new interval takes the place of both.
        obtain ⟨l', hl', hinserted⟩ := ih hrest (show a ≤ b by split_ifs at ha hb <;> omega)
        refine ⟨l', hl', hinserted.separate, fun hl hlt => ?_, fun n => ?_, fun c hc hl i hi => ?_,
          fun c hc hl i hi => ?_, hinserted.length.trans (Nat.le_succ _)⟩
        · refine hinserted.nonempty (fun j hj => hl j (List.mem_cons_of_mem _ hj)) ?_
          split_ifs at ha hb <;> omega
        · rw [hinserted.covers n, covers_cons, or_assoc, or_left_comm]
          refine or_congr_right ?_
          split_ifs at ha hb <;> omega
        · refine hinserted.bound c ?_ (fun j hj => hl j (List.mem_cons_of_mem _ hj)) i hi
          have := hl it List.mem_cons_self
          split_ifs at ha <;> omega
        · refine hinserted.stop c ?_ (fun j hj => hl j (List.mem_cons_of_mem _ hj)) i hi
          have := hl it List.mem_cons_self
          split_ifs at hb <;> omega

/-- The array holds the intervals of a list. -/
structure Represents (m : BootMap) (l : List (Stretch Nat)) : Prop where
  length : m.entries.length = MAX_BOOT_ENTRIES
  num : m.num = l.length
  le : l.length ≤ MAX_BOOT_ENTRIES
  cell : ∀ i < l.length,
    l[i]? = some ⟨(m.entries.cell i).startIndex, (m.entries.cell i).stopIndex⟩

theorem Represents.intervals_eq (h : Represents m l) : m.intervals = l := by
  apply List.ext_getElem?
  intro i
  rw [BootMap.intervals, Block.slice, List.map_map, List.getElem?_map, h.num]
  rcases Nat.lt_or_ge i l.length with hi | hi
  · rw [List.getElem?_range hi, h.cell i hi]
    simp
  · rw [List.getElem?_eq_none (by simpa using hi), List.getElem?_eq_none hi]
    rfl

theorem represents_emptyBootMap : Represents emptyBootMap [] := ⟨rfl, rfl, Nat.zero_le _, nofun⟩

theorem Represents.load {pre rest : List (Stretch Nat)} {it : Stretch Nat}
    (h : Represents m (pre ++ it :: rest)) : ∃ entry, m.entries.load pre.length = .ok entry ∧
      entry.startIndex = it.start ∧ entry.stopIndex = it.stop := by
  have hlt : pre.length < (pre ++ it :: rest).length := by simp
  refine ⟨_, load_eq (by rw [h.length]; exact hlt.trans_le h.le), ?_⟩
  have hcell := h.cell pre.length hlt
  rw [List.getElem?_append_right (Nat.le_refl _), Nat.sub_self] at hcell
  have hit := Option.some.inj hcell
  rw [hit]
  exact ⟨rfl, rfl⟩

theorem removeEntry_represents {pre rest : List (Stretch Nat)} {it : Stretch Nat}
    (h : Represents m (pre ++ it :: rest)) :
    ∃ m', removeEntry m pre.length = .ok m' ∧ Represents m' (pre ++ rest) := by
  have hnum : m.num = pre.length + rest.length + 1 := by simp [h.num]; omega
  have hle : m.num ≤ m.entries.length := by rw [h.num, h.length]; exact h.le
  have hcopy : m.entries.copyForward pre.length (pre.length + 1) (m.num - (pre.length + 1)) = _ :=
    copyForward_eq (by omega) (by omega) (Or.inl (Nat.lt_succ_self _))
  refine ⟨⟨⟨m.entries.length, moved m.entries pre.length (pre.length + 1)
    (m.num - (pre.length + 1))⟩,
    m.num - 1⟩, ?_, h.length, ?_, ?_, fun i hi => ?_⟩
  · rw [removeEntry, hcopy]
    rfl
  · simp [hnum]
  · have := h.le
    simp at this ⊢
    omega
  · rw [List.length_append] at hi
    rcases Nat.lt_or_ge i pre.length with hlt | hge
    · have hcell := h.cell i (by simp; omega)
      rw [List.getElem?_append_left hlt] at hcell ⊢
      have hmoved : moved m.entries pre.length (pre.length + 1) (m.num - (pre.length + 1)) i =
          m.entries.cell i := if_neg (by omega)
      rw [hcell, ← hmoved]
    · have hcell := h.cell (i + 1) (by simp; omega)
      rw [List.getElem?_append_right (by omega)] at hcell ⊢
      rw [show i + 1 - pre.length = (i - pre.length) + 1 by omega, List.getElem?_cons_succ] at hcell
      have hmoved : moved m.entries pre.length (pre.length + 1) (m.num - (pre.length + 1)) i =
          m.entries.cell (i + 1) := by
        rw [moved, if_pos (by omega), show pre.length + 1 + (i - pre.length) = i + 1 by omega]
      rw [hcell, ← hmoved]

theorem createEntry_represents {pre rest : List (Stretch Nat)} (h : Represents m (pre ++ rest))
    (hle : startIndex ≤ stopIndex) (hword : stopIndex < WORD)
    (hroom : (pre ++ ⟨startIndex, stopIndex⟩ :: rest).length ≤ MAX_BOOT_ENTRIES) :
    ∃ m', createEntry m pre.length startIndex stopIndex = .ok m' ∧
      Represents m' (pre ++ ⟨startIndex, stopIndex⟩ :: rest) := by
  have hnum : m.num = pre.length + rest.length := by rw [h.num, List.length_append]
  rw [List.length_append, List.length_cons] at hroom
  have hlength := h.length
  have hcopy : m.entries.copyBackward (pre.length + 1) pre.length (m.num - pre.length) = _ :=
    copyBackward_eq (by omega) (by omega) (Nat.le_succ _)
  have hentry : (BootMapEntry.mk startIndex ((stopIndex + WORD - startIndex) % WORD)).stopIndex =
      stopIndex := by
    simp only [BootMapEntry.stopIndex, WORD] at hword ⊢
    omega
  obtain ⟨cell, hcells⟩ : ∃ cell,
    cell = Function.update (moved m.entries (pre.length + 1) pre.length
      (m.num - pre.length)) pre.length ⟨startIndex, (stopIndex + WORD - startIndex) % WORD⟩ :=
        ⟨_, rfl⟩
  have hnew : cell pre.length = ⟨startIndex, (stopIndex + WORD - startIndex) % WORD⟩ := by
    rw [hcells, Function.update_self]
  have hother : ∀ i, i ≠ pre.length →
      cell i = moved m.entries (pre.length + 1) pre.length (m.num - pre.length) i := by
    intro i hi
    rw [hcells, Function.update_of_ne hi]
  refine ⟨⟨⟨m.entries.length, cell⟩, m.num + 1⟩, ?_, hlength, ?_, ?_, fun i hi => ?_⟩
  · rw [createEntry, if_pos (by omega), hcopy]
    change (access (Block.store _ _ _) >>= _) = _
    rw [store_eq (show pre.length < (Block.mk m.entries.length _).length by
      change pre.length < m.entries.length
      omega), hcells]
    rfl
  · simp [hnum]
    omega
  · rw [List.length_append, List.length_cons]
    omega
  · change _ = some (Stretch.mk (cell i).startIndex (cell i).stopIndex)
    rw [List.length_append, List.length_cons] at hi
    rcases Nat.lt_trichotomy i pre.length with hlt | rfl | hgt
    · have hcell := h.cell i (by simp; omega)
      rw [List.getElem?_append_left hlt] at hcell ⊢
      rw [hcell, hother i (by omega)]
      rw [moved, if_neg (by omega)]
    · rw [List.getElem?_append_right (Nat.le_refl _), Nat.sub_self, hnew, hentry]
      rfl
    · have hcell := h.cell (i - 1) (by simp; omega)
      rw [List.getElem?_append_right (by omega)] at hcell ⊢
      rw [show i - pre.length = (i - 1 - pre.length) + 1 by omega, List.getElem?_cons_succ, hcell,
        hother i (by omega), moved, if_pos (by omega),
        show pre.length + (i - (pre.length + 1)) = i - 1 by omega]

theorem insertBootMapLoop_succ {fuel mapIndex : Nat} {entry : BootMapEntry} (hi : mapIndex < m.num)
    (hload : m.entries.load mapIndex = .ok entry) :
    insertBootMapLoop (fuel + 1) m mapIndex startIndex stopIndex =
      if stopIndex < entry.startIndex then createEntry m mapIndex startIndex stopIndex
      else if entry.stopIndex < startIndex then
        insertBootMapLoop fuel m (mapIndex + 1) startIndex stopIndex
      else if entry.startIndex ≤ startIndex ∧ stopIndex ≤ entry.stopIndex then .ok m
      else removeEntry m mapIndex >>= fun m => insertBootMapLoop fuel m mapIndex
        (if entry.startIndex < startIndex then entry.startIndex else startIndex)
        (if stopIndex < entry.stopIndex then entry.stopIndex else stopIndex) := by
  rw [insertBootMapLoop, if_pos hi, hload]
  rfl

theorem createEntry_cases {pre rest : List (Stretch Nat)} (h : Represents m (pre ++ rest))
    (hle : startIndex ≤ stopIndex) (hword : stopIndex < WORD) :
    (∃ m', createEntry m pre.length startIndex stopIndex = .ok m' ∧
        Represents m' (pre ++ ⟨startIndex, stopIndex⟩ :: rest)) ∨
      createEntry m pre.length startIndex stopIndex = .error .assertion ∧
        MAX_BOOT_ENTRIES <
          (pre ++ (⟨startIndex, stopIndex⟩ :: rest : List (Stretch Nat))).length := by
  rcases Nat.lt_or_ge MAX_BOOT_ENTRIES
    (pre ++ (⟨startIndex, stopIndex⟩ :: rest : List (Stretch Nat))).length with hfull | hroom
  · refine Or.inr ⟨?_, hfull⟩
    have hnum := h.num
    rw [List.length_append] at hnum
    rw [List.length_append, List.length_cons] at hfull
    rw [createEntry, if_neg (by omega)]
  · exact Or.inl (createEntry_represents h hle hword hroom)

/-- Both loops insert in the same way, until the array is full. -/
theorem insertBootMapLoop_cases (pre rest : List (Stretch Nat)) {fuel : Nat}
    (h : Represents m (pre ++ rest)) (hfuel : rest.length < fuel) (hle : startIndex ≤ stopIndex)
    (hword : stopIndex < WORD) (hstop : ∀ i ∈ rest, i.stop < WORD)
    (hl : insertRequiredLoop true rest startIndex stopIndex = .ok l) :
    (∃ m', insertBootMapLoop fuel m pre.length startIndex stopIndex = .ok m' ∧
        Represents m' (pre ++ l)) ∨
      insertBootMapLoop fuel m pre.length startIndex stopIndex = .error .assertion ∧
        MAX_BOOT_ENTRIES < (pre ++ l).length := by
  induction rest generalizing pre m fuel startIndex stopIndex l with
  | nil =>
      obtain ⟨fuel, rfl⟩ := Nat.exists_eq_succ_of_ne_zero (Nat.ne_of_gt hfuel)
      cases hl
      rw [insertBootMapLoop, if_neg (by rw [h.num, List.append_nil]; exact Nat.lt_irrefl _)]
      exact createEntry_cases h hle hword
  | cons it rest ih =>
      obtain ⟨fuel, rfl⟩ := Nat.exists_eq_succ_of_ne_zero (Nat.ne_of_gt (Nat.zero_lt_of_lt hfuel))
      rw [List.length_cons] at hfuel
      obtain ⟨entry, hload, hentry, hentry'⟩ := h.load
      rw [insertBootMapLoop_succ (by rw [h.num]; simp) hload, hentry, hentry']
      rw [insertRequiredLoop] at hl
      have hrest : ∀ i ∈ rest, i.stop < WORD := fun i hi => hstop i (List.mem_cons_of_mem _ hi)
      generalize ha : (if it.start < startIndex then it.start else startIndex) = a at hl ⊢
      generalize hb : (if stopIndex < it.stop then it.stop else stopIndex) = b at hl ⊢
      split_ifs at hl ⊢ with hbefore hskip hincluded
      · cases hl
        exact createEntry_cases h hle hword
      · obtain ⟨l', hl', hpure⟩ := bind_eq_ok.mp hl
        cases hpure
        rw [List.append_cons] at h ⊢
        have hnext := ih (pre ++ [it]) h (Nat.lt_of_succ_lt_succ hfuel) hle hword hrest hl'
        rw [List.length_append, List.length_singleton] at hnext
        exact hnext
      · cases hl
        exact Or.inl ⟨m, rfl, h⟩
      · obtain ⟨m', hm', hrep⟩ := removeEntry_represents h
        have hbword : b < WORD := by
          have := hstop it List.mem_cons_self
          split_ifs at hb <;> omega
        rw [hm']
        exact ih pre hrep (by omega) (by split_ifs at ha hb <;> omega) hbword hrest hl

theorem bootMapCheckLoop_eq (pre rest : List (Stretch Nat)) (h : Represents m (pre ++ rest))
    (hrest : Canonical rest) (hlt : startIndex < stopIndex) :
    ∃ r, bootMapCheckLoop m startIndex stopIndex rest.length pre.length = .ok r ∧
      (r = true ↔ ∃ n, startIndex ≤ n ∧ n < stopIndex ∧ Covers rest n) := by
  induction rest generalizing pre with
  | nil =>
      refine ⟨false, rfl, nofun, ?_⟩
      rintro ⟨n, -, -, hn⟩
      exact (not_covers_nil hn).elim
  | cons it rest ih =>
      obtain ⟨hit, hafter, hrest'⟩ := canonical_cons_iff.mp hrest
      obtain ⟨entry, hload, hentry, hentry'⟩ := h.load
      have hstep : bootMapCheckLoop m startIndex stopIndex (it :: rest).length pre.length =
          if stopIndex ≤ it.start then .ok false
          else if it.stop ≤ startIndex then
            bootMapCheckLoop m startIndex stopIndex rest.length (pre.length + 1)
          else .ok true := by
        rw [← hentry, ← hentry', List.length_cons, bootMapCheckLoop, hload]
        rfl
      rw [hstep]
      split_ifs with hbefore hskip
      · refine ⟨false, rfl, nofun, ?_⟩
        rintro ⟨n, -, hn, hcovers⟩
        exact (Nat.not_lt.mpr (hbefore.trans (hrest.start_le hcovers)) hn).elim
      · rw [List.append_cons] at h
        obtain ⟨r, hr, hiff⟩ := ih (pre ++ [it]) h hrest'
        rw [List.length_append, List.length_singleton] at hr
        refine ⟨r, hr, hiff.trans ⟨?_, ?_⟩⟩
        · rintro ⟨n, hn, hn', hcovers⟩
          exact ⟨n, hn, hn', covers_cons.mpr (Or.inr hcovers)⟩
        · rintro ⟨n, hn, hn', hcovers⟩
          refine ⟨n, hn, hn', (hrest.covers_tail).mpr ⟨hcovers, hskip.trans hn⟩⟩
      · refine ⟨true, rfl, fun _ => ⟨max startIndex it.start, ?_, ?_, ?_⟩, fun _ => rfl⟩
        · exact Nat.le_max_left _ _
        · exact Nat.max_lt.mpr ⟨hlt, Nat.not_le.mp hbefore⟩
        · refine covers_cons.mpr (Or.inl ⟨Nat.le_max_right _ _, ?_⟩)
          exact Nat.max_lt.mpr ⟨Nat.not_le.mp hskip, hit⟩

/-- The pages which were inserted. -/
def InPairs (pairs : List (Nat × Nat)) (n : Nat) : Prop := ∃ p ∈ pairs, p.1 ≤ n ∧ n < p.2

theorem inPairs_snoc {pairs : List (Nat × Nat)} {p : Nat × Nat} :
    InPairs (pairs ++ [p]) n ↔ InPairs pairs n ∨ p.1 ≤ n ∧ n < p.2 := by
  constructor
  · rintro ⟨p', hp', hn⟩
    rcases List.mem_append.mp hp' with hp' | hp'
    · exact Or.inl ⟨p', hp', hn⟩
    · rw [List.mem_singleton.mp hp'] at hn
      exact Or.inr hn
  · rintro (⟨p', hp', hn⟩ | hn)
    · exact ⟨p', List.mem_append_left _ hp', hn⟩
    · exact ⟨p, List.mem_append_right _ List.mem_cons_self, hn⟩

/-- There are never more pieces than the array has entries. -/
def FewPieces (pairs : List (Nat × Nat)) : Prop :=
  ∀ done, done <+: pairs → ∀ l : List (Stretch Nat), Canonical l →
    (∀ n, Covers l n ↔ InPairs done n) → l.length ≤ MAX_BOOT_ENTRIES

theorem exists_canonical {pairs : List (Nat × Nat)} (hpairs : ∀ p ∈ pairs, p.1 < p.2) :
    ∃ l : List (Stretch Nat), Canonical l ∧ (∀ n, Covers l n ↔ InPairs pairs n) ∧
      l.length ≤ pairs.length := by
  induction pairs using List.reverseRecOn with
  | nil =>
      exact ⟨[], canonical_nil, fun n => ⟨fun h => (not_covers_nil h).elim, nofun⟩, Nat.le_refl _⟩
  | append_singleton pairs p ih =>
      obtain ⟨l, hl, hcovers, hlength⟩ := ih fun p' hp' => hpairs p' (List.mem_append_left _ hp')
      have hlt := hpairs p (List.mem_append_right _ List.mem_cons_self)
      obtain ⟨l', -, hinserted⟩ := insertRequiredLoop_inserted hl.separate hlt.le
      refine ⟨l', hinserted.canonical hl hlt, fun n => ?_, ?_⟩
      · rw [hinserted.covers, hcovers, inPairs_snoc]
      · rw [List.length_append]
        exact hinserted.length.trans (Nat.succ_le_succ hlength)

theorem fewPieces_of_length {pairs : List (Nat × Nat)} (hpairs : ∀ p ∈ pairs, p.1 < p.2)
    (hlength : pairs.length ≤ MAX_BOOT_ENTRIES) : FewPieces pairs := by
  intro done hdone l hl hcovers
  obtain ⟨l', hl', hcovers', hlength'⟩ := exists_canonical fun p hp => hpairs p (hdone.subset hp)
  rw [hl.ext hl' fun n => (hcovers n).trans (hcovers' n).symm]
  exact hlength'.trans (hdone.length_le.trans hlength)

/-- Both sets after the same insertions. -/
structure Agree (pairs : List (Nat × Nat)) (m : BootMap) (l : List (Stretch Nat)) : Prop where
  represents : Represents m l
  canonical : Canonical l
  covers : ∀ n, Covers l n ↔ InPairs pairs n
  stop : ∀ i ∈ l, i.stop ≤ WORD - 1

theorem inserts_agree {pairs : List (Nat × Nat)} (hpairs : ∀ p ∈ pairs, p.1 < p.2 ∧ p.2 < WORD)
    (hfew : FewPieces pairs) : ∃ m l, insertBootMaps pairs = .ok m ∧
      insertRequiredPages pairs = .ok l ∧ Agree pairs m l := by
  induction pairs using List.reverseRecOn with
  | nil =>
      refine ⟨emptyBootMap, [], rfl, rfl, represents_emptyBootMap, canonical_nil,
        fun n => ?_, nofun⟩
      exact ⟨fun h => (not_covers_nil h).elim, nofun⟩
  | append_singleton pairs p ih =>
      obtain ⟨hlt, hword⟩ := hpairs p (List.mem_append_right _ List.mem_cons_self)
      obtain ⟨m, l, hm, hl, hagree⟩ := ih (fun p' hp' => hpairs p' (List.mem_append_left _ hp'))
        fun done hdone => hfew done (hdone.trans (List.prefix_append _ _))
      obtain ⟨l', hl', hinserted⟩ := insertRequiredLoop_inserted hagree.canonical.separate hlt.le
      have hcanonical := hinserted.canonical hagree.canonical hlt
      have hcovers : ∀ n, Covers l' n ↔ InPairs (pairs ++ [p]) n := by
        intro n
        rw [hinserted.covers, hagree.covers, inPairs_snoc]
      have hroom : l'.length ≤ MAX_BOOT_ENTRIES :=
        hfew _ (List.prefix_refl _) l' hcanonical hcovers
      have hstop : ∀ i ∈ l, i.stop < WORD := by
        intro i hi
        have := hagree.stop i hi
        rw [WORD] at *
        omega
      obtain ⟨m', hm', hrep⟩ := (insertBootMapLoop_cases [] l hagree.represents
        (Nat.lt_succ_of_le (Nat.le_of_eq hagree.represents.num.symm)) hlt.le hword hstop
        hl').resolve_right fun hfull => Nat.not_lt.mpr hroom hfull.2
      refine ⟨m', l', ?_, ?_, hrep, hcanonical, hcovers, ?_⟩
      · rw [insertBootMaps, List.foldlM_append]
        change (insertBootMaps pairs >>= _) = _
        rw [hm]
        change (pagingInsertBootMap m p.1 p.2 >>= _) = _
        rw [pagingInsertBootMap]
        rw [show insertBootMapLoop (m.num + 1) m 0 p.1 p.2 = .ok m' from hm']
        rfl
      · rw [insertRequiredPages, List.foldlM_append]
        change (insertRequiredPages pairs >>= _) = _
        rw [hl]
        change (insertRequiredPage true l p.1 p.2 >>= _) = _
        rw [insertRequiredPage, if_neg (Nat.not_le.mpr hlt), hl']
        rfl
      · exact hinserted.stop (WORD - 1) (by omega) hagree.stop

/-- The array and the linked list hold the only canonical list of the pages which
were inserted, and the check finds them. -/
theorem intervals_canonical {pairs : List (Nat × Nat)}
    (hpairs : ∀ p ∈ pairs, p.1 < p.2 ∧ p.2 < WORD) (hfew : FewPieces pairs) :
    ∃ m l, insertBootMaps pairs = .ok m ∧ insertRequiredPages pairs = .ok l ∧ m.intervals = l ∧
      Canonical l ∧ (∀ n, Covers l n ↔ InPairs pairs n) ∧
      (∀ l', Canonical l' → (∀ n, Covers l' n ↔ InPairs pairs n) → l' = l) ∧
      ∀ a b, a < b → ∃ r, pagingBootMapCheck m a b = .ok r ∧
        (r = true ↔ ∃ n, a ≤ n ∧ n < b ∧ InPairs pairs n) := by
  obtain ⟨m, l, hm, hl, hagree⟩ := inserts_agree hpairs hfew
  refine ⟨m, l, hm, hl, hagree.represents.intervals_eq, hagree.canonical, hagree.covers,
    fun l' hl' hcovers => ?_, fun a b hab => ?_⟩
  · refine hl'.ext hagree.canonical fun n => ?_
    rw [hcovers, hagree.covers]
  · obtain ⟨r, hr, hiff⟩ := bootMapCheckLoop_eq [] l hagree.represents hagree.canonical hab
    refine ⟨r, ?_, hiff.trans (exists_congr fun n => ?_)⟩
    · rw [pagingBootMapCheck, hagree.represents.num]
      exact hr
    · rw [hagree.covers]

end

/-- Two pieces and the gap between them. -/
theorem intervals_canonical_gap : ∃ m l, insertBootMaps [(5, 8), (10, 12), (8, 10)] = .ok m ∧
    insertRequiredPages [(5, 8), (10, 12), (8, 10)] = .ok l ∧ m.intervals = l := by
  have hpairs : ∀ p ∈ [(5, 8), (10, 12), (8, 10)], p.1 < p.2 ∧ p.2 < WORD := by decide
  obtain ⟨m, l, hm, hl, heq, -⟩ := intervals_canonical hpairs
    (fewPieces_of_length (fun p hp => (hpairs p hp).1) (by decide))
  exact ⟨m, l, hm, hl, heq⟩

end Ibnos.BootMaps
