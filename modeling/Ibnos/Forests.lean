import Mathlib.Data.List.Nodup
import Mathlib.Logic.Function.Basic

/-!
Forests of nodes which are numbered in the order of their creation. Every node
knows its parent, and every parent lists its children by their kind.
-/

namespace Ibnos.Forests

@[ext]
structure Shape (κ : Type) where
  kind : Nat → Option κ
  parent : Nat → Option Nat
  children : κ → Nat → List Nat

variable {κ : Type}

/-- Only nodes of the kind `inner` have children. -/
structure Forest (inner : κ) (t : Shape κ) : Prop where
  mem_children : ∀ k p x, x ∈ t.children k p ↔ t.kind x = some k ∧ t.parent x = some p
  nodup : ∀ k p, (t.children k p).Nodup
  parent : ∀ x p, t.parent x = some p → t.kind p = some inner ∧ p < x ∧ t.kind x ≠ none

section

variable {inner k : κ} {t t' : Shape κ} {p x : Nat}

theorem Forest.congr (h : Forest inner t) (hkind : t'.kind = t.kind)
    (hparent : t'.parent = t.parent)
    (hchildren : t'.children = t.children) : Forest inner t' := by
  rcases t with ⟨kind, parent, children⟩
  rcases t' with ⟨kind', parent', children'⟩
  obtain rfl : kind' = kind := hkind
  obtain rfl : parent' = parent := hparent
  obtain rfl : children' = children := hchildren
  exact h

/-- A new node is the last child of its parent. -/
theorem Forest.link (h : Forest inner t) (hp : t.kind p = some inner) (hlt : p < x)
    (hx : t.kind x = none) (hkind : t'.kind = Function.update t.kind x (some k))
    (hparent : t'.parent = Function.update t.parent x (some p))
    (hsame : t'.children k p = t.children k p ++ [x])
    (hother : ∀ j q, ¬(j = k ∧ q = p) → t'.children j q = t.children j q) : Forest inner t' := by
  have hfresh : ∀ j q, x ∉ t.children j q := by
    intro j q hmem
    rw [h.mem_children, hx] at hmem
    cases hmem.1
  refine ⟨fun j q y => ?_, fun j q => ?_, fun y q hq => ?_⟩
  · rw [hkind, hparent]
    rcases eq_or_ne y x with rfl | hy
    · rw [Function.update_self, Function.update_self]
      rcases Classical.em (j = k ∧ q = p) with ⟨rfl, rfl⟩ | hne
      · rw [hsame]
        simp
      · rw [hother j q hne, iff_false_left (hfresh j q)]
        rintro ⟨hj, hq⟩
        exact hne ⟨(Option.some.inj hj).symm, (Option.some.inj hq).symm⟩
    · rw [Function.update_of_ne hy, Function.update_of_ne hy, ← h.mem_children]
      rcases Classical.em (j = k ∧ q = p) with ⟨rfl, rfl⟩ | hne
      · rw [hsame]
        simp [hy]
      · rw [hother j q hne]
  · rcases Classical.em (j = k ∧ q = p) with ⟨rfl, rfl⟩ | hne
    · rw [hsame]
      exact (h.nodup j q).append (List.nodup_singleton x) (by simpa using hfresh j q)
    · rw [hother j q hne]
      exact h.nodup j q
  · rw [hkind]
    rw [hparent] at hq
    rcases eq_or_ne y x with rfl | hy
    · rw [Function.update_self] at hq ⊢
      obtain rfl := Option.some.inj hq
      rw [Function.update_of_ne (Nat.ne_of_lt hlt)]
      exact ⟨hp, hlt, nofun⟩
    · rw [Function.update_of_ne hy] at hq ⊢
      obtain ⟨hinner, hlt', hlive⟩ := h.parent y q hq
      refine ⟨?_, hlt', hlive⟩
      rw [Function.update_of_ne]
      · exact hinner
      · rintro rfl
        rw [hx] at hinner
        cases hinner

theorem Forest.unlink (h : Forest inner t) (hx : t.parent x = some p) (hk : t.kind x = some k)
    (hkind : t'.kind = t.kind) (hparent : t'.parent = Function.update t.parent x none)
    (hsame : ∀ y, y ∈ t'.children k p ↔ y ∈ t.children k p ∧ y ≠ x)
    (hnodup : (t'.children k p).Nodup)
    (hother : ∀ j q, ¬(j = k ∧ q = p) → t'.children j q = t.children j q) : Forest inner t' := by
  refine ⟨fun j q y => ?_, fun j q => ?_, fun y q hq => ?_⟩
  · rw [hkind, hparent]
    rcases Classical.em (j = k ∧ q = p) with ⟨rfl, rfl⟩ | hne
    · rw [hsame, h.mem_children]
      rcases eq_or_ne y x with rfl | hy
      · simp
      · simp [hy]
    · rw [hother j q hne, h.mem_children]
      rcases eq_or_ne y x with rfl | hy
      · rw [Function.update_self, hx, hk]
        simp only [Option.some.injEq, reduceCtorEq, and_false, iff_false]
        rintro ⟨rfl, rfl⟩
        exact hne ⟨rfl, rfl⟩
      · rw [Function.update_of_ne hy]
  · rcases Classical.em (j = k ∧ q = p) with ⟨rfl, rfl⟩ | hne
    · exact hnodup
    · rw [hother j q hne]
      exact h.nodup j q
  · rw [hparent] at hq
    rw [hkind]
    rcases eq_or_ne y x with rfl | hy
    · rw [Function.update_self] at hq
      cases hq
    · rw [Function.update_of_ne hy] at hq
      exact h.parent y q hq

/-- A node without parent and children goes away. -/
theorem Forest.remove (h : Forest inner t) (hx : t.parent x = none)
    (hchildren : ∀ j, t.children j x = []) (hkind : t'.kind = Function.update t.kind x none)
    (hparent : t'.parent = t.parent) (hsame : t'.children = t.children) : Forest inner t' := by
  refine ⟨fun j q y => ?_, fun j q => ?_, fun y q hq => ?_⟩
  · rw [hkind, hparent, hsame, h.mem_children]
    rcases eq_or_ne y x with rfl | hy
    · simp [hx]
    · rw [Function.update_of_ne hy]
  · rw [hsame]
    exact h.nodup j q
  · rw [hparent] at hq
    rw [hkind]
    obtain ⟨hinner, hlt, hlive⟩ := h.parent y q hq
    have hy : y ≠ x := by
      rintro rfl
      rw [hx] at hq
      cases hq
    have hqx : q ≠ x := by
      rintro rfl
      obtain ⟨j, hj⟩ := Option.ne_none_iff_exists'.mp hlive
      have := (h.mem_children j q y).mpr ⟨hj, hq⟩
      rw [hchildren] at this
      cases this
    rw [Function.update_of_ne hqx, Function.update_of_ne hy]
    exact ⟨hinner, hlt, hlive⟩

end

end Ibnos.Forests
