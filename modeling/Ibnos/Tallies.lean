import Mathlib.Data.Set.Card
import Mathlib.Data.Set.Finite.Basic

/-!
How many places hold a value, and how the number changes when one place is
written.
-/

namespace Ibnos.Tallies

variable {α β : Type} {t t' : α → Option β} {a a' : α} {b : β}

/-- The number of places which hold `b`. -/
noncomputable def tally (t : α → Option β) (b : β) : Nat :=
  {a | t a = some b}.ncard

/-- Only finitely many places hold something. -/
def Finitary (t : α → Option β) : Prop := {a | t a ≠ none}.Finite

theorem Finitary.places (h : Finitary t) (b : β) : {a | t a = some b}.Finite := by
  refine h.subset ?_
  intro a ha
  rw [Set.mem_ofPred_eq] at ha ⊢
  rw [ha]
  exact nofun

theorem tally_pos (h : Finitary t) (ha : t a = some b) : 0 < tally t b :=
  (Set.ncard_pos (h.places b)).mpr ⟨a, ha⟩

theorem ne_of_tally_eq_zero (h : Finitary t) (hb : tally t b = 0) (a : α) : t a ≠ some b := by
  intro ha
  have := tally_pos h ha
  omega

theorem eq_of_tally_eq_one (h : Finitary t) (hb : tally t b = 1) (ha : t a = some b)
    (ha' : t a' = some b) : a = a' :=
  (Set.ncard_le_one (h.places b)).mp hb.le a ha a' ha'

theorem tally_congr (h : ∀ a, t' a = some b ↔ t a = some b) : tally t' b = tally t b := by
  rw [tally, tally]
  congr 1
  ext a
  exact h a

variable [DecidableEq α]

theorem Finitary.update (h : Finitary t) (a : α) (v : Option β) :
    Finitary (Function.update t a v) := by
  refine (h.insert a).subset ?_
  intro a' ha'
  rcases eq_or_ne a' a with rfl | hne
  · exact Set.mem_insert _ _
  · refine Set.mem_insert_of_mem _ ?_
    rw [Set.mem_ofPred_eq, Function.update_of_ne hne] at ha'
    exact ha'

/-- A place which holds nothing is not counted. -/
theorem tally_update_none (h : Finitary t) (ha : t a = some b) :
    tally (Function.update t a none) b + 1 = tally t b := by
  have hset : {a' | Function.update t a none a' = some b} = {a' | t a' = some b} \ {a} := by
    ext a'
    rcases eq_or_ne a' a with rfl | hne
    · simp
    · simp [hne]
  rw [tally, hset]
  exact Set.ncard_sdiff_singleton_add_one ha (h.places b)

theorem tally_update_some (h : Finitary t) (ha : t a ≠ some b) :
    tally (Function.update t a (some b)) b = tally t b + 1 := by
  have hset : {a' | Function.update t a (some b) a' = some b} =
      insert a {a' | t a' = some b} := by
    ext a'
    rcases eq_or_ne a' a with rfl | hne
    · simp
    · simp [hne]
  rw [tally, hset]
  exact Set.ncard_insert_of_notMem ha (h.places b)

theorem tally_update_of_ne {v : Option β} (ha : t a ≠ some b) (hv : v ≠ some b) :
    tally (Function.update t a v) b = tally t b := by
  refine tally_congr fun a' => ?_
  rcases eq_or_ne a' a with rfl | hne
  · rw [Function.update_self]
    exact ⟨fun h => (hv h).elim, fun h => (ha h).elim⟩
  · rw [Function.update_of_ne hne]

variable [DecidableEq β]

/-- Writing one place takes what it held from the count and adds what it holds now. -/
theorem tally_update (h : Finitary t) (a : α) (v : Option β) (b : β) :
    (tally (Function.update t a v) b : ℤ) =
      tally t b - (if t a = some b then 1 else 0) + (if v = some b then 1 else 0) := by
  rcases eq_or_ne (t a) (some b) with ha | ha
  · rcases eq_or_ne v (some b) with rfl | hv
    · rw [← ha, Function.update_eq_self]
      simp
    · have hnone : tally (Function.update t a v) b = tally (Function.update t a none) b := by
        refine tally_congr fun a' => ?_
        rcases eq_or_ne a' a with rfl | hne
        · simp [hv]
        · simp [Function.update_of_ne hne]
      have := tally_update_none h ha
      rw [hnone, if_pos ha, if_neg hv]
      omega
  · rcases eq_or_ne v (some b) with rfl | hv
    · rw [tally_update_some h ha, if_neg ha, if_pos rfl]
      push_cast
      omega
    · rw [tally_update_of_ne ha hv, if_neg ha, if_neg hv]
      omega

end Ibnos.Tallies
