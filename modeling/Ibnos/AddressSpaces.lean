import Mathlib.Data.List.Range
import Mathlib.Logic.Function.Basic
import Mathlib.Tactic.Common

/-!
The address space of a process: its mapped pages with what they hold. All entries
of its page tables are present ones. What a page was mapped for is there for the
specification.
-/

namespace Ibnos.AddressSpaces

def PAGE_SIZE : Nat := 0x1000

def PAGE_COUNT : Nat := 0x100000

/-- The page tables of the kernel are from here on. -/
def USER_LIMIT : Nat := 0xFFC00

/-- What a page is mapped for: a stack and the thread local storage belong to a
thread, and the image of a program includes its arguments. -/
inductive Use
  | system
  | image
  | memory
  | stack (t : Nat)
  | storage (t : Nat)
  deriving DecidableEq, Repr

structure Page where
  user : Bool
  use : Use
  data : Nat → UInt8

abbrev Pages := Nat → Option Page

def isUnused (pages : Pages) (base length : Nat) : Bool :=
  (List.range length).all fun i => (pages (base + i)).isNone

/-- The sum of the first page and the number of pages is one of 32 bit numbers. If
it wraps around then every unused page after a used one seems to be enough. -/
def fits (pages : Pages) (length base : Nat) : Bool :=
  if base + length ≤ 0x100000000 then base + length ≤ USER_LIMIT ∧ isUnused pages base length
  else (pages (base - 1)).isSome ∧ (pages base).isNone

/-- The first area which is free. -/
def pagingTrySearchArea (pages : Pages) (length : Nat) : Option Nat :=
  if length = 0 then none else (List.range' 1 (USER_LIMIT - 1)).find? (fits pages length)

/-- An area is mapped, where `data` is what its pages hold. -/
def mapArea (pages : Pages) (base length : Nat) (user : Bool) (use : Use)
    (data : Nat → Nat → UInt8) : Pages :=
  fun page =>
    if base ≤ page ∧ page < base + length then some ⟨user, use, data (page - base)⟩ else pages page

/-- The loop of `pagingTryReleasePhysMem` and of `pagingTryReleaseUserMem`, which
leaves the pages of the system alone. -/
def releaseLoop (skip : Page → Bool) : Nat → Nat → Pages → Bool × Pages
  | 0, _, pages => (true, pages)
  | length + 1, cur, pages =>
      match pages cur with
      | none => (false, (releaseLoop skip length ((cur + 1) % PAGE_COUNT) pages).2)
      | some page =>
          if skip page then (false, (releaseLoop skip length ((cur + 1) % PAGE_COUNT) pages).2)
          else releaseLoop skip length ((cur + 1) % PAGE_COUNT) (Function.update pages cur none)

def pagingTryReleasePhysMem (pages : Pages) (base length : Nat) : Bool × Pages :=
  releaseLoop (fun _ => false) length base pages

def pagingTryReleaseUserMem (pages : Pages) (base length : Nat) : Bool × Pages :=
  releaseLoop (fun page => !page.user) length base pages

/-- What the pages of an area are mapped for. -/
def usesOf (pages : Pages) (base length : Nat) : List Use :=
  (List.range length).filterMap fun i => (pages ((base + i) % PAGE_COUNT)).map Page.use

/-- The stack of the kernel, the descriptor tables, the interrupt jump table and
the task page, which are one after the other. -/
def SYSTEM_BASE : Nat := 0xFF800

def SYSTEM_LENGTH : Nat := 20

/-- What is mapped in the page table of a new process. -/
def systemPages (data : Nat → Nat → UInt8) : Pages :=
  mapArea (fun _ => none) SYSTEM_BASE SYSTEM_LENGTH false .system data

/-- All pages of the area are mapped for this. -/
structure Owns (pages : Pages) (use : Use) (base length : Nat) : Prop where
  base_ne : base ≠ 0
  le : base + length ≤ USER_LIMIT
  mapped : ∀ n, base ≤ n → n < base + length → ∃ page, pages n = some page ∧ page.use = use

section

variable {pages pages' : Pages} {use : Use} {base length n : Nat} {skip : Page → Bool}

theorem search_unused (h : pagingTrySearchArea pages length = some base)
    (hlimit : base + length ≤ USER_LIMIT) :
    base ≠ 0 ∧ ∀ n, base ≤ n → n < base + length → pages n = none := by
  rw [pagingTrySearchArea] at h
  split_ifs at h
  have hfits : fits pages length base = true := List.find?_some h
  have hmem : base ∈ List.range' 1 (USER_LIMIT - 1) := List.mem_of_find?_eq_some h
  have hword : base + length ≤ 0x100000000 := hlimit.trans (by decide)
  rw [fits, if_pos hword, decide_eq_true_eq] at hfits
  refine ⟨Nat.one_le_iff_ne_zero.mp (List.mem_range'_1.mp hmem).1, fun n hle hlt => ?_⟩
  have hall := List.all_eq_true.mp hfits.2 (n - base) (List.mem_range.mpr (by omega))
  rw [Nat.add_sub_cancel' hle] at hall
  exact Option.isNone_iff_eq_none.mp hall

/-- All pages of an area which is mapped are unmapped, and no others. -/
theorem releaseLoop_eq (hlimit : base + length < PAGE_COUNT)
    (hmapped : ∀ n, base ≤ n → n < base + length → ∃ page, pages n = some page ∧
      skip page = false) :
    releaseLoop skip length base pages =
      (true, fun n => if base ≤ n ∧ n < base + length then none else pages n) := by
  induction length generalizing base pages with
  | zero =>
      rw [releaseLoop]
      refine congrArg (Prod.mk true) (funext fun n => ?_)
      rw [if_neg (by omega)]
  | succ length ih =>
      obtain ⟨page, hpage, hskip⟩ := hmapped base (Nat.le_refl _) (by omega)
      have hnext : (base + 1) % PAGE_COUNT = base + 1 := Nat.mod_eq_of_lt (by omega)
      rw [releaseLoop, hpage]
      change (if skip page = true then _ else _) = _
      rw [if_neg (by rw [hskip]; decide), hnext, ih (by omega) fun n hle hlt => ?_]
      · refine congrArg (Prod.mk true) (funext fun n => ?_)
        rcases eq_or_ne n base with rfl | hn
        · rw [if_neg (by omega), Function.update_self, if_pos (by omega)]
        · rw [Function.update_of_ne hn]
          refine if_congr ?_ rfl rfl
          omega
      · rw [Function.update_of_ne (by omega)]
        exact hmapped n (by omega) (by omega)

theorem releaseLoop_other (hn : ∀ i < length, (base + i) % PAGE_COUNT ≠ n)
    (hbase : base < PAGE_COUNT) :
    (releaseLoop skip length base pages).2 n = pages n := by
  induction length generalizing base pages with
  | zero => rfl
  | succ length ih =>
      have hne : base ≠ n := by
        have := hn 0 (Nat.succ_pos _)
        rwa [Nat.add_zero, Nat.mod_eq_of_lt hbase] at this
      have hrest : ∀ i < length, ((base + 1) % PAGE_COUNT + i) % PAGE_COUNT ≠ n := by
        intro i hi
        rw [Nat.mod_add_mod, Nat.add_assoc, Nat.add_comm 1 i]
        exact hn (i + 1) (Nat.succ_lt_succ hi)
      have hlt : (base + 1) % PAGE_COUNT < PAGE_COUNT := Nat.mod_lt _ (by decide)
      rw [releaseLoop]
      split
      · exact ih hrest hlt
      · split_ifs
        · exact ih hrest hlt
        · rw [ih hrest hlt, Function.update_of_ne hne.symm]

theorem Owns.release (h : Owns pages use base length) :
    pagingTryReleasePhysMem pages base length =
      (true, fun n => if base ≤ n ∧ n < base + length then none else pages n) := by
  refine releaseLoop_eq (h.le.trans_lt (by decide)) fun n hle hlt => ?_
  obtain ⟨page, hpage, -⟩ := h.mapped n hle hlt
  exact ⟨page, hpage, rfl⟩

theorem Owns.usesOf_eq (h : Owns pages use base length) :
    ∀ u ∈ usesOf pages base length, u = use := by
  intro u hu
  obtain ⟨i, hi, hu⟩ := List.mem_filterMap.mp hu
  have hlt := List.mem_range.mp hi
  have hlimit : base + i < PAGE_COUNT := by
    have hle : base + i < USER_LIMIT := by have := h.le; omega
    exact hle.trans (by decide)
  rw [Nat.mod_eq_of_lt hlimit] at hu
  obtain ⟨page, hpage, huse⟩ := h.mapped (base + i) (Nat.le_add_right _ _) (by omega)
  rw [hpage] at hu
  cases hu
  exact huse

/-- Pages which are mapped for something else do not matter. -/
theorem Owns.of_eq (h : Owns pages use base length)
    (heq : ∀ n page, pages n = some page → page.use = use → pages' n = some page) :
    Owns pages' use base length := by
  refine ⟨h.base_ne, h.le, fun n hle hlt => ?_⟩
  obtain ⟨page, hpage, huse⟩ := h.mapped n hle hlt
  exact ⟨page, heq n page hpage huse, huse⟩

theorem Owns.of_release {use' : Use} {base' length' : Nat} (h : Owns pages use base length)
    (h' : Owns pages use' base' length') (hne : use' ≠ use) :
    Owns (pagingTryReleasePhysMem pages base' length').2 use base length := by
  refine h.of_eq fun n page hpage huse => ?_
  rw [h'.release]
  refine (if_neg fun hn => ?_).trans hpage
  obtain ⟨page', hpage', huse'⟩ := h'.mapped n hn.1 hn.2
  cases hpage.symm.trans hpage'
  exact hne (huse'.symm.trans huse)

theorem Owns.of_mapArea {use' : Use} {base' length' : Nat} {user : Bool} {data : Nat → Nat → UInt8}
    (h : Owns pages use base length)
    (hfree : ∀ n, base' ≤ n → n < base' + length' → pages n = none) :
    Owns (mapArea pages base' length' user use' data) use base length := by
  refine h.of_eq fun n page hpage _ => ?_
  rw [mapArea, if_neg]
  · exact hpage
  · rintro ⟨hle, hlt⟩
    cases (hfree n hle hlt).symm.trans hpage

theorem owns_mapArea {user : Bool} {data : Nat → Nat → UInt8} (hbase : base ≠ 0)
    (hlimit : base + length ≤ USER_LIMIT) :
    Owns (mapArea pages base length user use data) use base length := by
  refine ⟨hbase, hlimit, fun n hle hlt => ⟨⟨user, use, data (n - base)⟩, ?_, rfl⟩⟩
  rw [mapArea, if_pos ⟨hle, hlt⟩]

end

end Ibnos.AddressSpaces
