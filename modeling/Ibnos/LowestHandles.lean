import Ibnos.Handles
import Mathlib.Order.Bounds.Defs

/-!
Which handle a new object gets. Pipes may have the first three handles and other objects
may not, but one number tells both of them where the search begins.
-/

namespace Ibnos.LowestHandles

open Ibnos.Doubling
open Ibnos.Handles

section

variable {Obj : Type} {objectType : Obj → ObjectType} {t : HandleTable Obj} {o : Obj} {i : Nat}

/-- The lowest of the free handles which the object may have, or the report that none of
those which a table can have is free. -/
def Lowest (objectType : Obj → ObjectType) (t : HandleTable Obj) (o : Obj) : Prop :=
  ∃ r t', handleAllocate objectType t o = .ok (r, t') ∧
    match r with
    | some h => h < MAX_HANDLES ∧
        IsLeast {h | objectGetMinHandle (objectType o) ≤ h ∧ handleGet t h = .ok none} h
    | none => t' = t ∧
        ∀ h, objectGetMinHandle (objectType o) ≤ h → h < MAX_HANDLES → handleGet t h ≠ .ok none

theorem objectGetMinHandle_cases (k : ObjectType) :
    objectGetMinHandle k = 0 ∨ objectGetMinHandle k = 3 := by
  cases k
  all_goals decide

theorem appendHandle_full (ht : WellFormed t) {t' : HandleTable Obj} (hi : i ≤ max 3 t.freeEnd)
    (h : appendHandle t i o = .ok (none, t')) : MAX_HANDLES ≤ i := by
  have hthree := ht.three_le
  have hle := ht.freeEnd_le
  have hbounds := ht.size.bounds
  rw [appendHandle] at h
  rcases Nat.lt_or_ge i t.count with hlt | hge
  · rw [if_neg (by omega), store_eq hlt] at h
    cases h
  · have hdouble : doubleUntil i (2 * t.count) i = 2 * t.count := doubleUntil_of_le (by omega)
    rw [if_pos hge] at h
    simp only [hdouble] at h
    rcases Nat.lt_or_ge t.count (min (2 * t.count) MAX_HANDLES) with hmore | hfull
    · have hstored : i < (t.resize (min (2 * t.count) MAX_HANDLES)).count := by
        change i < min (2 * t.count) MAX_HANDLES
        omega
      rw [if_neg (by omega), store_eq hstored] at h
      cases h
    · have hpos : 0 < t.count := by omega
      omega

/-- Every slot from the start of the search on is looked at. -/
theorem handleAllocate_searched (ht : WellFormed t)
    (hi : max (objectGetMinHandle (objectType o)) t.freeBegin = i) :
    (∃ j t', handleAllocate objectType t o = .ok (some j, t') ∧ i ≤ j ∧ j < MAX_HANDLES ∧
      t.handles j = none ∧ ∀ k, i ≤ k → k < j → t.handles k ≠ none) ∨
    (handleAllocate objectType t o = .ok (none, t) ∧
      ∀ k, i ≤ k → k < MAX_HANDLES → t.handles k ≠ none) := by
  have hmin := objectGetMinHandle_le (objectType o)
  have hbegin := ht.freeBegin_le
  have hle := ht.freeEnd_le
  have hbounds := ht.size.bounds
  have hthree := ht.three_le
  have hbelow : ∀ k, 3 ≤ k → k < i → t.handles k ≠ none := fun k hk hki => ht.used k hk (by omega)
  rw [handleAllocate, hi]
  rcases @findFree_eq _ t (t.freeEnd - i) i
    (by omega) with ⟨j, hj, hij, hjn, hnone, hall⟩ | ⟨hj, hall⟩
  · refine Or.inl
      ⟨j, { t with freeBegin := j + 1, handles := Function.update t.handles j (some o) },
      ?_, hij, by omega, hnone, hall⟩
    rw [hj]
    change (t.store j (some o) >>= _) = _
    rw [store_eq (by omega)]
    rfl
  · have happend : ∀ k, 3 ≤ k → k < max i t.freeEnd → t.handles k ≠ none := by
      intro k hk hlt
      rcases Nat.lt_or_ge k i with hki | hki
      · exact hbelow k hk hki
      · exact hall k hki (by omega)
    have hrest : ∀ k, i ≤ k → k < max i t.freeEnd → t.handles k ≠ none :=
      fun k hk hlt => hall k hk (by omega)
    rw [hj]
    rcases appendHandle_eq ht o (le_max_right i t.freeEnd) (by omega) happend with
      ⟨t', heq, hwf, hnone, hhandles⟩ | heq
    · refine Or.inl ⟨_, t', heq, le_max_left _ _, ?_, hnone, hrest⟩
      rw [← not_le]
      intro hge
      have hstored := hwf.handles_eq_none hge
      rw [hhandles, Function.update_self] at hstored
      cases hstored
    · refine Or.inr ⟨heq, fun k hk hlt => hrest k hk (hlt.trans_le ?_)⟩
      exact appendHandle_full ht (by omega) heq

/-- None of the handles which only pipes may have is free in front of the search. -/
def Packed (t : HandleTable Obj) : Prop := ∀ i, i < 3 → i < t.freeBegin → t.handles i ≠ none

theorem lowest_iff (ht : WellFormed t) :
    Lowest objectType t o ↔ objectGetMinHandle (objectType o) = 3 ∨ Packed t := by
  constructor
  · rintro ⟨r, t', hrun, hr⟩
    rcases objectGetMinHandle_cases (objectType o) with hmin | hmin
    · refine Or.inr fun k hk hbegin hnone => ?_
      have hfree : handleGet t k = .ok none := by
        rw [handleGet_eq ht, hnone]
      rcases handleAllocate_searched ht rfl with ⟨j, t'', heq, hj, -⟩ | ⟨heq, -⟩
      · rw [heq] at hrun
        cases hrun
        have hleast := hr.2.2 ⟨by omega, hfree⟩
        omega
      · rw [heq] at hrun
        cases hrun
        exact hr.2 k (by omega) (hk.trans (by decide)) hfree
    · exact Or.inl hmin
  · intro hcond
    have hbelow : ∀ k, objectGetMinHandle (objectType o) ≤ k → k < t.freeBegin →
      t.handles k ≠ none := by
      intro k hk hlt
      rcases Nat.lt_or_ge k 3 with hthree | hthree
      · exact (hcond.resolve_left (by omega)) k hthree hlt
      · exact ht.used k hthree hlt
    rcases handleAllocate_searched ht rfl with ⟨j, t', heq, hj, hmax, hnone, hall⟩ | ⟨heq, hall⟩
    · refine ⟨some j, t', heq, hmax, ⟨(le_max_left _ _).trans hj, ?_⟩, ?_⟩
      · rw [handleGet_eq ht, hnone]
      · rintro k ⟨hk, hfree⟩
        rw [handleGet_eq ht] at hfree
        rw [← not_lt]
        intro hlt
        rcases Nat.lt_or_ge k t.freeBegin with hbegin | hbegin
        · exact hbelow k hk hbegin (Except.ok.inj hfree)
        · exact hall k (max_le hk hbegin) hlt (Except.ok.inj hfree)
    · refine ⟨none, t, heq, rfl, fun k hk hlt hfree => ?_⟩
      rw [handleGet_eq ht] at hfree
      rcases Nat.lt_or_ge k t.freeBegin with hbegin | hbegin
      · exact hbelow k hk hbegin (Except.ok.inj hfree)
      · exact hall k (max_le hk hbegin) hlt (Except.ok.inj hfree)

end

section

variable {Obj : Type} [DecidableEq Obj] {objectType : Obj → ObjectType} {base : Obj → Nat}
    {s : Tables Obj}
  {m : Maps Obj} {t : HandleTable Obj}

/-- An object gets the lowest handle unless one of the first three was left free in front of the
place where the search begins. -/
theorem lowest_handle_iff (h : Reached objectType base s m) (ht : t ∈ s.tables) (o : Obj) :
    Lowest objectType t o ↔ objectGetMinHandle (objectType o) = 3 ∨ Packed t :=
  lowest_iff (h.consistent.wellFormed t ht)

end

section

/-- The event 3 gets the handle 3, and no pipe gets a lower one from then on. -/
def kinds (o : Nat) : ObjectType := if o = 3 then .event else .pipe

/-- A table whose first handle went to an event. -/
def eventTable : HandleTable Nat :=
  { count := MIN_HANDLES, freeBegin := 4, freeEnd := 4
    handles := Function.update (fun _ => none) 3 (some 3) }

theorem reached_eventTable : ∃ s m, Reached kinds (fun _ => 1) s m ∧ s.tables = [eventTable] := by
  have hstart : Reached kinds (fun _ : Nat => 1) ⟨[], fun _ => 1⟩ [] := .start
  have hrun := Reached.call (.allocate 0 3) (.call .init hstart trivial rfl) trivial rfl
  exact ⟨_, _, hrun, rfl⟩

theorem lowest_handle_event : ∃ s m, Reached kinds (fun _ => 1) s m ∧ eventTable ∈ s.tables ∧
    Lowest kinds eventTable 3 := by
  obtain ⟨s, m, hrun, htables⟩ := reached_eventTable
  have hmem : eventTable ∈ s.tables := by
    rw [htables]
    exact List.mem_singleton_self _
  exact ⟨s, m, hrun, hmem, (lowest_handle_iff hrun hmem 3).mpr (Or.inl rfl)⟩

/-- A pipe gets the handle 4 though 0, 1 and 2 are free. -/
theorem lowest_handle_skipped : ∃ s m, Reached kinds (fun _ => 1) s m ∧ eventTable ∈ s.tables ∧
    (handleAllocate kinds eventTable 0).map Prod.fst = .ok (some 4) ∧
    handleGet eventTable 0 = .ok none ∧ ¬Lowest kinds eventTable 0 := by
  obtain ⟨s, m, hrun, htables⟩ := reached_eventTable
  have hmem : eventTable ∈ s.tables := by
    rw [htables]
    exact List.mem_singleton_self _
  refine ⟨s, m, hrun, hmem, rfl, rfl, ?_⟩
  rintro ⟨r, t', heq, hr⟩
  have hfour : (handleAllocate kinds eventTable 0).map Prod.fst = .ok (some 4) := rfl
  rw [heq] at hfour
  obtain rfl : r = some 4 := Except.ok.inj hfour
  have hleast := hr.2.2 (show 0 ∈ _ from ⟨le_rfl, rfl⟩)
  exact absurd hleast (by decide)

end

end Ibnos.LowestHandles
