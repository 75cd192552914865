import Mathlib.Data.List.Basic
import Mathlib.Tactic.Common

/-!
An interval of addresses which is tiled by pieces one behind the other. Where a piece
ends is known from its length only.
-/

namespace Ibnos.Tilings

/-- Pieces of at least `m` bytes one behind the other, from `a` to `b`. -/
def Tiling (len : Nat → Nat) (m a : Nat) : List Nat → Nat → Prop
  | [], b => a = b
  | x :: xs, b => x = a ∧ m ≤ len x ∧ Tiling len m (x + len x) xs b

section

variable {len len' : Nat → Nat} {m a b c x y : Nat} {xs ys : List Nat}

theorem tiling_append :
    Tiling len m a (xs ++ ys) c ↔ ∃ b, Tiling len m a xs b ∧ Tiling len m b ys c := by
  induction xs generalizing a with
  | nil => simp [Tiling]
  | cons x xs ih =>
      simp only [List.cons_append, Tiling, ih]
      constructor
      · rintro ⟨hx, hlen, b, hxs, hys⟩
        exact ⟨b, ⟨hx, hlen, hxs⟩, hys⟩
      · rintro ⟨b, ⟨hx, hlen, hxs⟩, hys⟩
        exact ⟨hx, hlen, b, hxs, hys⟩

theorem Tiling.congr (h : Tiling len m a xs b) (hlen : ∀ x ∈ xs, len' x = len x) :
    Tiling len' m a xs b := by
  induction xs generalizing a with
  | nil => exact h
  | cons x xs ih =>
      obtain ⟨hx, hm, hrest⟩ := h
      rw [← hlen x List.mem_cons_self] at hm hrest
      exact ⟨hx, hm, ih hrest fun y hy => hlen y (List.mem_cons_of_mem x hy)⟩

theorem Tiling.le (h : Tiling len m a xs b) : a ≤ b := by
  induction xs generalizing a with
  | nil => exact Nat.le_of_eq h
  | cons x xs ih =>
      obtain ⟨rfl, -, hrest⟩ := h
      have hle := ih hrest
      omega

theorem Tiling.mem (h : Tiling len m a xs b) (hx : x ∈ xs) :
    m ≤ len x ∧ a ≤ x ∧ x + len x ≤ b := by
  obtain ⟨ys, zs, rfl⟩ := List.append_of_mem hx
  obtain ⟨c, hys, rfl, hlen, hzs⟩ := tiling_append.mp h
  exact ⟨hlen, hys.le, hzs.le⟩

/-- Different pieces do not overlap. -/
theorem Tiling.disjoint (h : Tiling len m a xs b) (hx : x ∈ xs) (hy : y ∈ xs) (hxy : x ≠ y) :
    x + len x ≤ y ∨ y + len y ≤ x := by
  induction xs generalizing a with
  | nil => cases hx
  | cons z xs ih =>
      obtain ⟨rfl, -, hrest⟩ := h
      rcases List.mem_cons.mp hx with rfl | hx' <;> rcases List.mem_cons.mp hy with rfl | hy'
      · exact absurd rfl hxy
      · exact Or.inl (hrest.mem hy').2.1
      · exact Or.inr (hrest.mem hx').2.1
      · exact ih hrest hx' hy'

theorem Tiling.nodup (hm : 0 < m) (h : Tiling len m a xs b) : xs.Nodup := by
  induction xs generalizing a with
  | nil => exact List.nodup_nil
  | cons x xs ih =>
      obtain ⟨rfl, hlen, hrest⟩ := h
      refine List.nodup_cons.mpr ⟨fun hx => ?_, ih hrest⟩
      have hle := (hrest.mem hx).2.1
      omega

/-- Two neighbours become one piece. -/
theorem Tiling.merge (h : Tiling len m a (xs ++ x :: y :: ys) b)
    (hx : len' x = len x + len y) (hother : ∀ z ∈ xs ++ ys, len' z = len z) :
    Tiling len' m a (xs ++ x :: ys) b := by
  obtain ⟨c, hxs, rfl, hlenx, rfl, -, hys⟩ := tiling_append.mp h
  refine tiling_append.mpr ⟨x, hxs.congr fun z hz => hother z (List.mem_append_left _ hz), rfl,
    by omega, ?_⟩
  rw [hx, ← Nat.add_assoc]
  exact hys.congr fun z hz => hother z (List.mem_append_right _ hz)

/-- A piece becomes two. -/
theorem Tiling.divide (h : Tiling len m a (xs ++ x :: ys) b) (hxlen : m ≤ len' x)
    (hylen : m ≤ len' y) (hy : y = x + len' x) (hsum : len' x + len' y = len x)
    (hother : ∀ z ∈ xs ++ ys, len' z = len z) : Tiling len' m a (xs ++ x :: y :: ys) b := by
  obtain ⟨c, hxs, rfl, -, hys⟩ := tiling_append.mp h
  refine tiling_append.mpr ⟨x, hxs.congr fun z hz => hother z (List.mem_append_left _ hz), rfl,
    hxlen, hy, hylen, ?_⟩
  have hend : y + len' y = x + len x := by omega
  rw [hend]
  exact hys.congr fun z hz => hother z (List.mem_append_right _ hz)

end

end Ibnos.Tilings
