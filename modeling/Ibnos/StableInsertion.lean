import Mathlib.Data.List.Nodup
import Mathlib.Order.Lattice

/-!
Lists which are kept sorted by a key. A new entry is put behind all entries with
the same key, so that among these the rank grows along the list when later
entries have greater ranks.
-/

namespace Ibnos.StableInsertion

variable {α κ : Type} [LinearOrder κ] {key key' : α → κ} {rank rank' : α → Nat} {x : α} {l : List α}

def insertStable (key : α → κ) (x : α) : List α → List α
  | [] => [x]
  | y :: l => if key x < key y then x :: y :: l else y :: insertStable key x l

/-- Sorted by the key, and by the rank where the keys are equal. -/
def Ordered (key : α → κ) (rank : α → Nat) (l : List α) : Prop :=
  l.Pairwise fun x y => key x < key y ∨ key x = key y ∧ rank x < rank y

theorem mem_insertStable {y : α} : y ∈ insertStable key x l ↔ y = x ∨ y ∈ l := by
  induction l with
  | nil => simp [insertStable]
  | cons z l ih =>
      rw [insertStable]
      split_ifs
      · exact List.mem_cons
      · rw [List.mem_cons, ih, List.mem_cons]
        exact or_left_comm

theorem perm_insertStable (key : α → κ) (x : α) (l : List α) :
    (insertStable key x l).Perm (x :: l) := by
  induction l with
  | nil => exact .refl _
  | cons y l ih =>
      rw [insertStable]
      split_ifs
      · exact .refl _
      · exact (ih.cons y).trans (.swap x y l)

theorem nodup_insertStable (h : l.Nodup) (hx : x ∉ l) : (insertStable key x l).Nodup := by
  induction l with
  | nil => exact List.nodup_singleton x
  | cons y l ih =>
      rw [List.nodup_cons] at h
      rw [List.mem_cons, not_or] at hx
      rw [insertStable]
      split_ifs
      · exact List.nodup_cons.mpr ⟨by simp [hx], List.nodup_cons.mpr h⟩
      · refine List.nodup_cons.mpr ⟨?_, ih h.2 hx.2⟩
        rw [mem_insertStable, not_or]
        exact ⟨Ne.symm hx.1, h.1⟩

theorem Ordered.insert (h : Ordered key rank l) (hrank : ∀ y ∈ l, rank y < rank x) :
    Ordered key rank (insertStable key x l) := by
  induction l with
  | nil => exact List.pairwise_singleton ..
  | cons y l ih =>
      rw [Ordered, List.pairwise_cons] at h
      rw [insertStable]
      split_ifs with hlt
      · refine List.pairwise_cons.mpr ⟨?_, List.pairwise_cons.mpr h⟩
        intro z hz
        rcases List.mem_cons.mp hz with rfl | hz
        · exact Or.inl hlt
        · rcases h.1 z hz with hyz | ⟨hyz, -⟩
          · exact Or.inl (hlt.trans hyz)
          · exact Or.inl (hyz ▸ hlt)
      · refine List.pairwise_cons.mpr ⟨?_, ih h.2 fun z hz => hrank z (List.mem_cons_of_mem y hz)⟩
        intro z hz
        rcases mem_insertStable.mp hz with rfl | hz
        · rcases (not_lt.mp hlt).lt_or_eq with hyx | hyx
          · exact Or.inl hyx
          · exact Or.inr ⟨hyx, hrank y List.mem_cons_self⟩
        · exact h.1 z hz

theorem Ordered.congr (h : Ordered key rank l) (hkey : ∀ y ∈ l, key' y = key y)
    (hrank : ∀ y ∈ l, rank' y = rank y) : Ordered key' rank' l := by
  refine List.Pairwise.imp_of_mem ?_ h
  intro y z hy hz hyz
  rwa [hkey y hy, hkey z hz, hrank y hy, hrank z hz]

theorem Ordered.sublist {l' : List α} (h : Ordered key rank l) (hl : l'.Sublist l) :
    Ordered key rank l' :=
  List.Pairwise.sublist hl h

end Ibnos.StableInsertion
