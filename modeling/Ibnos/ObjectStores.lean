import Ibnos.Lifetimes

/-!
How the objects of the kernel are read and changed.
-/

namespace Ibnos.ObjectStores

open Ibnos.Objects
open Ibnos.Programs

def put (s : Store) (x : Nat) (v : Option Object) : Store :=
  { s with objects := Function.update s.objects x v }

section

variable {s s' : Store} {x : Nat} {α : Type} {functions : Functions α} {a : α}

@[simp]
theorem objects_put {v : Option Object} : (put s x v).objects = Function.update s.objects x v := rfl

theorem kernelAssert_eq_ok {c : Prop} {_ : Decidable c} {u : Unit} :
    kernelAssert c s = .ok (u, s') ↔ c ∧ s' = s := by
  rw [kernelAssert]
  split_ifs with hc
  · constructor
    · rintro ⟨⟩
      exact ⟨hc, rfl⟩
    · rintro ⟨-, rfl⟩
      rfl
  · exact ⟨nofun, fun h => (hc h.1).elim⟩

theorem getObject_eq {o : Object} (h : s.objects x = some o) : getObject x s = .ok (o, s) := by
  rw [getObject, h]

theorem getObject_eq_ok {o : Object} :
    getObject x s = .ok (o, s') ↔ s.objects x = some o ∧ s' = s := by
  rw [getObject]
  rcases s.objects x with _ | o'
  · exact ⟨nofun, nofun⟩
  · constructor
    · rintro ⟨⟩
      exact ⟨rfl, rfl⟩
    · rintro ⟨⟨⟩, rfl⟩
      rfl

theorem objectContainer_eq (functions : Functions α) (h : s.objects x = some (functions.whole a)) :
    objectContainer functions x s = .ok (a, s) := by
  rw [objectContainer, bind_apply, getObject_eq h]
  simp only [functions.part_eq.mpr rfl]
  rfl

theorem objectContainer_eq_ok : objectContainer functions x s = .ok (a, s') ↔
    s.objects x = some (functions.whole a) ∧ s' = s := by
  constructor
  · intro h
    obtain ⟨o, s₁, ho, hm⟩ := bind_ok.mp h
    obtain ⟨ho, rfl⟩ := getObject_eq_ok.mp ho
    rcases hpart : functions.part o with _ | b
    · rw [hpart] at hm
      cases hm
    · rw [hpart] at hm
      cases hm
      rw [ho, functions.part_eq.mp hpart]
      exact ⟨rfl, rfl⟩
  · rintro ⟨h, rfl⟩
    exact objectContainer_eq functions h

theorem assign_eq (functions : Functions α) {f : α → α}
    (h : s.objects x = some (functions.whole a)) :
    assign functions x f s = .ok ((), put s x (some (functions.whole (f a)))) := by
  rw [assign, bind_apply, objectContainer_eq functions h]
  rfl

theorem assign_eq_ok {f : α → α} {u : Unit} : assign functions x f s = .ok (u, s') ↔
    ∃ a, s.objects x = some (functions.whole a) ∧
      s' = put s x (some (functions.whole (f a))) := by
  constructor
  · intro h
    obtain ⟨a, s₁, ha, hm⟩ := bind_ok.mp h
    obtain ⟨ha, rfl⟩ := objectContainer_eq_ok.mp ha
    cases hm
    exact ⟨a, ha, rfl⟩
  · rintro ⟨a, ha, rfl⟩
    exact assign_eq functions ha

end

end Ibnos.ObjectStores
