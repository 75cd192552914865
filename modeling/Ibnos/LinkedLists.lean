import Mathlib.Data.List.Nodup
import Mathlib.Logic.Function.Basic
import Mathlib.Tactic.Common

/-!
Circular doubly linked lists whose links are part of the elements. Several lists
share one memory of links; an element is removed without naming its list.
-/

namespace Ibnos.LinkedLists

/-- The two links of every node, heads of lists included. -/
structure Links (α : Type) where
  next : α → α
  prev : α → α

variable {α : Type}

namespace Links

variable [DecidableEq α]

def setNext (l : Links α) (x y : α) : Links α := { l with next := Function.update l.next x y }

def setPrev (l : Links α) (x y : α) : Links α := { l with prev := Function.update l.prev x y }

def init (l : Links α) (list : α) : Links α := (l.setNext list list).setPrev list list

def empty (l : Links α) (list : α) : Bool := l.next list = list

def addAfter (l : Links α) (list element : α) : Links α :=
  let l := l.setNext element (l.next list)
  let l := l.setPrev element list
  let l := l.setPrev (l.next list) element
  l.setNext list element

def addBefore (l : Links α) (list element : α) : Links α :=
  let l := l.setNext element list
  let l := l.setPrev element (l.prev list)
  let l := l.setNext (l.prev list) element
  l.setPrev list element

def remove (l : Links α) (element : α) : Links α :=
  let l := l.setPrev (l.next element) (l.prev element)
  l.setNext (l.prev element) (l.next element)

/-- The elements from `x` on until `list` is reached, as a loop over the list visits them. -/
def elements (l : Links α) (list : α) : Nat → α → Option (List α)
  | 0, _ => none
  | fuel + 1, x =>
      if x = list then some []
      else (l.elements list fuel (l.next x)).map (x :: ·)

end Links

/-- From `a` over `xs` to `b`, linked in both directions. -/
def Path (l : Links α) (a : α) (xs : List α) (b : α) : Prop :=
  match xs with
  | [] => l.next a = b ∧ l.prev b = a
  | x :: xs => l.next a = x ∧ l.prev x = a ∧ Path l x xs b

theorem path_append {l : Links α} {a x b : α} {xs ys : List α} :
    Path l a (xs ++ x :: ys) b ↔ Path l a xs x ∧ Path l x ys b := by
  induction xs generalizing a with
  | nil => simp [Path, and_assoc]
  | cons y xs ih => simp [Path, ih, and_assoc]

theorem Path.congr {l l' : Links α} {a b : α} {xs : List α} (h : Path l a xs b)
    (hnext : ∀ y ∈ a :: xs, l'.next y = l.next y)
    (hprev : ∀ y ∈ b :: xs, l'.prev y = l.prev y) : Path l' a xs b := by
  induction xs generalizing a with
  | nil => exact ⟨(hnext a (by simp)).trans h.1, (hprev b (by simp)).trans h.2⟩
  | cons x xs ih =>
      refine ⟨(hnext a (by simp)).trans h.1, (hprev x (by simp)).trans h.2.1, ih h.2.2 ?_ ?_⟩
      · intro y hy
        exact hnext y (List.mem_cons_of_mem a hy)
      · intro y hy
        refine hprev y ?_
        rcases List.mem_cons.mp hy with rfl | hy
        · exact List.mem_cons_self
        · exact List.mem_cons_of_mem _ (List.mem_cons_of_mem _ hy)

/-- The first node behind the start of a path. -/
theorem Path.next_eq {l : Links α} {a b : α} {xs : List α} (h : Path l a xs b) :
    l.next a = xs.headD b := by
  cases xs with
  | nil => exact h.1
  | cons x xs => exact h.1

theorem Path.prev_eq {l : Links α} {a b : α} {xs : List α} (h : Path l a xs b) :
    l.prev b = (a :: xs).getLast (List.cons_ne_nil a xs) := by
  induction xs generalizing a with
  | nil => exact h.2
  | cons x xs ih => exact ih h.2.2

theorem Path.elements [DecidableEq α] {l : Links α} {a b : α} {xs : List α} (h : Path l a xs b)
    (hb : b ∉ xs)
    {fuel : Nat} (hfuel : xs.length < fuel) : l.elements b fuel (l.next a) = some xs := by
  induction xs generalizing a fuel with
  | nil =>
      obtain ⟨fuel, rfl⟩ := Nat.exists_eq_add_of_lt hfuel
      rw [h.1]
      exact if_pos rfl
  | cons x xs ih =>
      obtain ⟨fuel, rfl⟩ : ∃ k, fuel = k + 1 := ⟨fuel - 1, by omega⟩
      simp only [List.mem_cons, not_or] at hb
      rw [h.1, Links.elements, if_neg (Ne.symm hb.1),
        ih h.2.2 hb.2 (by simpa using hfuel)]
      rfl

/-- A path without its node `x`, as `Links.remove` links the neighbours. -/
theorem Path.splice [DecidableEq α] {l : Links α} {a b x : α} {xs ys : List α}
    (hbefore : Path l a xs x) (hafter : Path l x ys b) (hnodup : (xs ++ ys).Nodup)
    (ha : a ∉ xs ++ ys) (hb : b ∉ xs ++ ys) :
    Path { next := Function.update l.next (l.prev x) (l.next x)
           prev := Function.update l.prev (l.next x) (l.prev x) } a (xs ++ ys) b := by
  have hnext := hafter.next_eq
  induction xs generalizing a with
  | nil =>
      have hprev : l.prev x = a := hbefore.2
      rw [hprev]
      cases ys with
      | nil =>
          rw [show l.next x = b from hnext]
          exact ⟨Function.update_self .., Function.update_self ..⟩
      | cons y ys =>
          rw [show l.next x = y from hnext]
          simp only [List.nil_append, List.nodup_cons, List.mem_cons, not_or] at hnodup ha hb
          refine ⟨Function.update_self .., Function.update_self .., hafter.2.2.congr ?_ ?_⟩
          · intro z hz
            apply Function.update_of_ne
            rintro rfl
            exact (List.mem_cons.mp hz).elim ha.1 ha.2
          · intro z hz
            apply Function.update_of_ne
            rintro rfl
            exact (List.mem_cons.mp hz).elim (fun hcontra => hb.1 hcontra.symm) hnodup.1
  | cons c xs ih =>
      simp only [List.cons_append, List.nodup_cons, List.mem_cons, not_or] at hnodup ha hb
      obtain ⟨hc, hca, hrest⟩ := hbefore
      refine ⟨?_, ?_, ih hrest hnodup.2 hnodup.1 hb.2⟩
      · refine (Function.update_of_ne ?_ _ _).trans hc
        rw [hrest.prev_eq]
        intro hcontra
        have hmem := List.getLast_mem (List.cons_ne_nil c xs)
        rw [← hcontra] at hmem
        exact (List.mem_cons.mp hmem).elim ha.1 fun hmem => ha.2 (List.mem_append_left ys hmem)
      · refine (Function.update_of_ne ?_ _ _).trans hca
        rw [hnext]
        cases ys with
        | nil => exact fun hcontra => hb.1 hcontra.symm
        | cons y ys =>
            rintro rfl
            exact hnodup.1 (List.mem_append_right xs List.mem_cons_self)

/-- A path with the new node `x` before its end, as `Links.addBefore` links it. -/
theorem Path.snoc [DecidableEq α] {l : Links α} {a b x : α} {xs : List α} (h : Path l a xs b)
    (hnodup : (a :: xs).Nodup) (hb : b ∉ xs) (hx : x ∉ a :: b :: xs) :
    Path { next := Function.update (Function.update l.next x b) (l.prev b) x
           prev := Function.update (Function.update l.prev x (l.prev b)) b x } a (xs ++ [x]) b := by
  simp only [List.mem_cons, not_or] at hx
  induction xs generalizing a with
  | nil =>
      rw [show l.prev b = a from h.2]
      refine ⟨Function.update_self .., ?_, ?_, Function.update_self ..⟩
      · simp [Function.update_of_ne hx.2.1]
      · simp [Function.update_of_ne hx.1]
  | cons c xs ih =>
      obtain ⟨hc, hca, hrest⟩ := h
      simp only [List.nodup_cons, List.mem_cons, not_or] at hnodup hb hx
      refine ⟨?_, ?_, ih hrest (List.nodup_cons.mpr hnodup.2) hb.2 ⟨hx.2.2.1, hx.2.1, hx.2.2.2⟩⟩
      · have hlast : a ≠ l.prev b := by
          rw [hrest.prev_eq]
          intro hcontra
          have hmem := List.getLast_mem (List.cons_ne_nil c xs)
          rw [← hcontra] at hmem
          exact (List.mem_cons.mp hmem).elim hnodup.1.1 hnodup.1.2
        simp [Function.update_of_ne hlast, Function.update_of_ne (Ne.symm hx.1), hc]
      · simp [Function.update_of_ne (Ne.symm hb.1), Function.update_of_ne (Ne.symm hx.2.2.1), hca]

/-- The lists of all `heads`: `rings h` are the elements of the list with the head `h`. -/
structure Represents (l : Links α) (heads : Set α) (rings : α → List α) : Prop where
  path : ∀ h ∈ heads, Path l h (rings h) h
  nodup : ∀ h ∈ heads, (h :: rings h).Nodup
  disjoint : ∀ h ∈ heads, ∀ k ∈ heads, h ≠ k → List.Disjoint (h :: rings h) (k :: rings k)

/-- `x` is neither the head nor an element of a list. -/
def Unlinked (heads : Set α) (rings : α → List α) (x : α) : Prop :=
  ∀ h ∈ heads, x ∉ h :: rings h

section

variable {l : Links α} {heads : Set α} {rings : α → List α}

theorem Represents.empty_iff [DecidableEq α] (hr : Represents l heads rings) {h : α}
    (hh : h ∈ heads) :
    l.empty h = true ↔ rings h = [] := by
  have hpath := hr.path h hh
  have hnodup := hr.nodup h hh
  rw [Links.empty, decide_eq_true_iff, hpath.next_eq]
  cases hrings : rings h with
  | nil => simp
  | cons x xs =>
      rw [hrings] at hnodup
      simp only [List.headD_cons, reduceCtorEq, iff_false]
      rintro rfl
      simp at hnodup

theorem Represents.next_head (hr : Represents l heads rings) {h x : α} {xs : List α}
    (hh : h ∈ heads) (hx : rings h = x :: xs) : l.next h = x := by
  rw [(hr.path h hh).next_eq, hx]
  rfl

theorem Represents.elements_eq [DecidableEq α] (hr : Represents l heads rings) {h : α}
    (hh : h ∈ heads)
    {fuel : Nat} (hfuel : (rings h).length < fuel) :
    l.elements h fuel (l.next h) = some (rings h) :=
  (hr.path h hh).elements (List.nodup_cons.mp (hr.nodup h hh)).1 hfuel

/-- The lists do not depend on the links of other nodes. -/
theorem Represents.congr (hr : Represents l heads rings) {l' : Links α}
    (hl : ∀ h ∈ heads, ∀ y ∈ h :: rings h, l'.next y = l.next y ∧ l'.prev y = l.prev y) :
    Represents l' heads rings where
  path h hh := (hr.path h hh).congr (fun y hy => (hl h hh y hy).1) (fun y hy => (hl h hh y hy).2)
  nodup := hr.nodup
  disjoint := hr.disjoint

/-- The neighbours of an element belong to the same list. -/
theorem Represents.neighbours {rings : α → List α} (hr : Represents l heads rings) {h x : α}
    (hh : h ∈ heads) (hx : x ∈ rings h) : l.next x ∈ h :: rings h ∧ l.prev x ∈ h :: rings h := by
  obtain ⟨xs, ys, hrings⟩ := List.append_of_mem hx
  have hpath := hr.path h hh
  rw [hrings] at hpath ⊢
  obtain ⟨hbefore, hafter⟩ := path_append.mp hpath
  rw [hafter.next_eq, hbefore.prev_eq]
  constructor
  · cases ys <;> simp
  · have hmem := List.getLast_mem (List.cons_ne_nil h xs)
    simp only [List.mem_cons, List.mem_append] at hmem ⊢
    tauto

variable [DecidableEq α]

/-- Only the list `h` changes, and only nodes of it and `x` get new links. -/
theorem Represents.update (hr : Represents l heads rings) {l' : Links α} {h x : α}
    {xs : List α} (hx : Unlinked heads rings x ∨ x ∈ rings h) (hh : h ∈ heads)
    (hpath : Path l' h xs h) (hnodup : (h :: xs).Nodup)
    (hmem : ∀ y ∈ xs, y = x ∨ y ∈ rings h)
    (hnext : ∀ y, y ≠ x → y ∉ h :: rings h → l'.next y = l.next y)
    (hprev : ∀ y, y ≠ x → y ∉ h :: rings h → l'.prev y = l.prev y) :
    Represents l' heads (Function.update rings h xs) := by
  have hother : ∀ k ∈ heads, k ≠ h → ∀ y ∈ k :: rings k, y ≠ x ∧ y ∉ h :: rings h := by
    intro k hk hkh y hy
    have hy' : y ∉ h :: rings h := fun hy' => hr.disjoint k hk h hh hkh hy hy'
    refine ⟨?_, hy'⟩
    rintro rfl
    rcases hx with hx | hx
    · exact hx k hk hy
    · exact hy' (List.mem_cons_of_mem h hx)
  have hsub : ∀ y ∈ h :: xs, y = x ∨ y ∈ h :: rings h := by
    intro y hy
    rcases List.mem_cons.mp hy with rfl | hy
    · exact Or.inr List.mem_cons_self
    · exact (hmem y hy).imp_right (List.mem_cons_of_mem h)
  have hdisjoint : ∀ k ∈ heads, k ≠ h → List.Disjoint (k :: rings k) (h :: xs) := by
    intro k hk hkh y hy hy'
    obtain ⟨hyx, hyh⟩ := hother k hk hkh y hy
    rcases hsub y hy' with rfl | hy'
    · exact hyx rfl
    · exact hyh hy'
  refine ⟨?_, ?_, ?_⟩
  · intro k hk
    rcases eq_or_ne k h with rfl | hkh
    · rwa [Function.update_self]
    · rw [Function.update_of_ne hkh]
      apply (hr.path k hk).congr
      · intro y hy
        obtain ⟨hyx, hyh⟩ := hother k hk hkh y hy
        exact hnext y hyx hyh
      · intro y hy
        obtain ⟨hyx, hyh⟩ := hother k hk hkh y hy
        exact hprev y hyx hyh
  · intro k hk
    rcases eq_or_ne k h with rfl | hkh
    · rwa [Function.update_self]
    · rw [Function.update_of_ne hkh]
      exact hr.nodup k hk
  · intro j hj k hk hjk
    rcases eq_or_ne j h with rfl | hjh
    · rw [Function.update_self, Function.update_of_ne (Ne.symm hjk)]
      exact fun y hy hy' => hdisjoint k hk (Ne.symm hjk) hy' hy
    · rw [Function.update_of_ne hjh]
      rcases eq_or_ne k h with rfl | hkh
      · rw [Function.update_self]
        exact hdisjoint j hj hjh
      · rw [Function.update_of_ne hkh]
        exact hr.disjoint j hj k hk hjk

theorem Represents.addAfter (hr : Represents l heads rings) {h x : α} (hh : h ∈ heads)
    (hx : Unlinked heads rings x) :
    Represents (l.addAfter h x) heads (Function.update rings h (x :: rings h)) := by
  have hnodup := hr.nodup h hh
  have hpath := hr.path h hh
  have hxh : x ∉ h :: rings h := hx h hh
  have hne : h ≠ x := fun hcontra => hxh (hcontra ▸ List.mem_cons_self)
  have hfirst : l.next h ∈ h :: rings h := by
    rw [hpath.next_eq]
    cases rings h <;> simp
  have hl : l.addAfter h x =
      { next := Function.update (Function.update l.next x (l.next h)) h x
        prev := Function.update (Function.update l.prev x h) (l.next h) x } := by
    simp [Links.addAfter, Links.setNext, Links.setPrev, Function.update_of_ne hne]
  rw [hl]
  apply hr.update (Or.inl hx) hh
  · refine ⟨Function.update_self .., ?_, ?_⟩
    · have hne' : x ≠ l.next h := fun hcontra => hxh (hcontra ▸ hfirst)
      simp [Function.update_of_ne hne']
    · -- behind `x` the old list follows
      cases hrings : rings h with
      | nil =>
          rw [hrings] at hpath
          simp [Path, Function.update_of_ne hne.symm, hpath.1]
      | cons y ys =>
          rw [hrings] at hpath hnodup hxh
          obtain ⟨hy, hprev, hrest⟩ := hpath
          simp only [List.mem_cons, not_or, List.nodup_cons] at hnodup hxh
          refine ⟨?_, ?_, hrest.congr ?_ ?_⟩
          · simp [Function.update_of_ne hne.symm, hy]
          · simp [hy]
          · intro z hz
            have hzh : z ≠ h := by
              rintro rfl
              exact (List.mem_cons.mp hz).elim hnodup.1.1 hnodup.1.2
            have hzx : z ≠ x := by
              rintro rfl
              exact (List.mem_cons.mp hz).elim hxh.2.1 hxh.2.2
            simp [Function.update_of_ne hzh, Function.update_of_ne hzx]
          · intro z hz
            have hzx : z ≠ x := by
              rintro rfl
              exact (List.mem_cons.mp hz).elim hxh.1 hxh.2.2
            have hzy : z ≠ l.next h := by
              rw [hy]
              rintro rfl
              exact (List.mem_cons.mp hz).elim (fun hcontra => hnodup.1.1 hcontra.symm) hnodup.2.1
            simp [Function.update_of_ne hzy, Function.update_of_ne hzx]
  · simp only [List.nodup_cons, List.mem_cons, not_or] at hnodup hxh ⊢
    exact ⟨⟨hne, hnodup.1⟩, hxh.2, hnodup.2⟩
  · intro y hy
    exact List.mem_cons.mp hy
  · intro y hyx hy
    simp only [List.mem_cons, not_or] at hy
    simp [Function.update_of_ne hy.1, Function.update_of_ne hyx]
  · intro y hyx hy
    have hyn : y ≠ l.next h := fun hcontra => hy (hcontra ▸ hfirst)
    simp [Function.update_of_ne hyn, Function.update_of_ne hyx]

theorem remove_eq (l : Links α) (x : α) : l.remove x =
    { next := Function.update l.next (l.prev x) (l.next x)
      prev := Function.update l.prev (l.next x) (l.prev x) } := by
  have hprev : Function.update l.prev (l.next x) (l.prev x) x = l.prev x := by
    rcases eq_or_ne x (l.next x) with hx | hx
    · rw [← hx, Function.update_self]
    · exact Function.update_of_ne hx _ _
  simp [Links.remove, Links.setNext, Links.setPrev, hprev]

theorem Represents.remove (hr : Represents l heads rings) {h x : α} (hh : h ∈ heads)
    (hx : x ∈ rings h) :
    Represents (l.remove x) heads (Function.update rings h ((rings h).erase x)) := by
  obtain ⟨xs, ys, hrings⟩ := List.append_of_mem hx
  have hnodup := hr.nodup h hh
  have hpath := hr.path h hh
  rw [hrings] at hnodup hpath
  obtain ⟨hbefore, hafter⟩ := path_append.mp hpath
  simp only [List.nodup_cons, List.nodup_append, List.mem_append, List.mem_cons, not_or]
    at hnodup
  obtain ⟨⟨hhxs, hhx, hhys⟩, hxs, ⟨hxys, hys⟩, hdisj⟩ := hnodup
  have hxxs : x ∉ xs := fun hcontra => hdisj x hcontra x (Or.inl rfl) rfl
  have herase : (rings h).erase x = xs ++ ys := by
    rw [hrings, List.erase_append_right _ hxxs, List.erase_cons_head]
  have hnext_mem : l.next x ∈ h :: ys := by
    rw [hafter.next_eq]
    cases ys <;> simp
  have hprev_mem : l.prev x ∈ h :: xs := by
    rw [hbefore.prev_eq]
    exact List.getLast_mem _
  have hnodup' : (xs ++ ys).Nodup :=
    List.nodup_append.mpr ⟨hxs, hys, fun y hy z hz => hdisj y hy z (Or.inr hz)⟩
  have hh' : h ∉ xs ++ ys := by simp [hhxs, hhys]
  have hsub : ∀ y, y ∈ h :: xs ∨ y ∈ h :: ys → y ∈ h :: rings h := by
    intro y hy
    rw [hrings]
    simp only [List.mem_cons, List.mem_append] at hy ⊢
    tauto
  rw [remove_eq, herase]
  apply hr.update (Or.inr hx) hh (hbefore.splice hafter hnodup' hh' hh')
    (List.nodup_cons.mpr ⟨hh', hnodup'⟩)
  · intro y hy
    rw [hrings]
    simp only [List.mem_cons, List.mem_append] at hy ⊢
    tauto
  · intro y _ hy
    apply Function.update_of_ne
    rintro rfl
    exact hy (hsub _ (Or.inl hprev_mem))
  · intro y _ hy
    apply Function.update_of_ne
    rintro rfl
    exact hy (hsub _ (Or.inr hnext_mem))

theorem Represents.addBefore (hr : Represents l heads rings) {h x : α} (hh : h ∈ heads)
    (hx : Unlinked heads rings x) :
    Represents (l.addBefore h x) heads (Function.update rings h (rings h ++ [x])) := by
  have hnodup := hr.nodup h hh
  have hpath := hr.path h hh
  have hxh := hx h hh
  simp only [List.mem_cons, not_or] at hxh
  have hprev_mem : l.prev h ∈ h :: rings h := by
    rw [hpath.prev_eq]
    exact List.getLast_mem _
  have hl : l.addBefore h x =
      { next := Function.update (Function.update l.next x h) (l.prev h) x
        prev := Function.update (Function.update l.prev x (l.prev h)) h x } := by
    simp [Links.addBefore, Links.setNext, Links.setPrev, Function.update_of_ne (Ne.symm hxh.1)]
  rw [hl]
  have hhr : h ∉ rings h := (List.nodup_cons.mp hnodup).1
  apply hr.update (Or.inl hx) hh (hpath.snoc hnodup hhr (by simp [hxh]))
  · rw [List.nodup_cons, List.nodup_append]
    refine ⟨by simp [hhr, Ne.symm hxh.1], (List.nodup_cons.mp hnodup).2, by simp, ?_⟩
    simp only [List.mem_singleton]
    rintro y hy z rfl rfl
    exact hxh.2 hy
  · intro y hy
    simp only [List.mem_append, List.mem_singleton] at hy
    exact hy.symm
  · intro y hyx hy
    have hne : y ≠ l.prev h := fun hcontra => hy (hcontra ▸ hprev_mem)
    simp [Function.update_of_ne hne, Function.update_of_ne hyx]
  · intro y hyx hy
    simp only [List.mem_cons, not_or] at hy
    simp [Function.update_of_ne hy.1, Function.update_of_ne hyx]

end

/-- Every element is in the list of its `home`, and in no other one. -/
def Linked (l : Links α) (heads : Set α) (home : α → Option α) : Prop :=
  ∃ rings, Represents l heads rings ∧ ∀ h ∈ heads, ∀ x, x ∈ rings h ↔ home x = some h

section

variable {l : Links α} {heads : Set α} {home : α → Option α}

theorem Linked.congr (hl : Linked l heads home) {l' : Links α} {home' : α → Option α}
    (hhome : ∀ x, home' x = home x)
    (hlinks : ∀ x, x ∈ heads ∨ home x ≠ none → l'.next x = l.next x ∧ l'.prev x = l.prev x) :
    Linked l' heads home' := by
  obtain ⟨rings, hr, hmem⟩ := hl
  refine ⟨rings, hr.congr ?_, ?_⟩
  · intro h hh y hy
    apply hlinks
    rcases List.mem_cons.mp hy with rfl | hy
    · exact Or.inl hh
    · right
      rw [(hmem h hh y).mp hy]
      exact Option.some_ne_none h
  · intro h hh x
    rw [hhome x]
    exact hmem h hh x

variable [DecidableEq α]

theorem Linked.empty_iff (hl : Linked l heads home) {h : α} (hh : h ∈ heads) :
    l.empty h = true ↔ ∀ x, home x ≠ some h := by
  obtain ⟨rings, hr, hmem⟩ := hl
  rw [hr.empty_iff hh, List.eq_nil_iff_forall_not_mem]
  exact forall_congr' fun x => not_congr (hmem h hh x)

/-- The first element of a list which is not empty. -/
theorem Linked.next_head (hl : Linked l heads home) {h : α} (hh : h ∈ heads)
    (hne : l.empty h = false) : home (l.next h) = some h := by
  obtain ⟨rings, hr, hmem⟩ := hl
  rw [← hmem h hh]
  cases hrings : rings h with
  | nil =>
      rw [(hr.empty_iff hh).mpr hrings] at hne
      cases hne
  | cons x xs =>
      rw [hr.next_head hh hrings]
      exact List.mem_cons_self

omit [DecidableEq α] in
theorem unlinked_of_home {rings : α → List α}
    (hmem : ∀ h ∈ heads, ∀ x, x ∈ rings h ↔ home x = some h) {x : α} (hx : x ∉ heads)
    (hhome : home x = none) : Unlinked heads rings x := by
  intro k hk hcontra
  rcases List.mem_cons.mp hcontra with rfl | hcontra
  · exact hx hk
  · rw [(hmem k hk x).mp hcontra] at hhome
    cases hhome

theorem linked_insert {rings : α → List α} {l' : Links α} {h x : α} {xs : List α}
    (hmem : ∀ h ∈ heads, ∀ x, x ∈ rings h ↔ home x = some h)
    (hr : Represents l' heads (Function.update rings h xs))
    (hxs : ∀ y, y ∈ xs ↔ y = x ∨ y ∈ rings h) (hhome : home x = none) :
    Linked l' heads (Function.update home x (some h)) := by
  refine ⟨_, hr, ?_⟩
  intro k hk y
  have hold := hmem k hk y
  rcases eq_or_ne k h with rfl | hkh <;> rcases eq_or_ne y x with rfl | hyx
  · simp [hxs]
  · simp [hxs, hyx, hold]
  · simp only [Function.update_of_ne hkh, Function.update_self, Option.some.injEq]
    rw [hold, hhome]
    exact ⟨nofun, fun hcontra => absurd hcontra.symm hkh⟩
  · rw [Function.update_of_ne hkh, Function.update_of_ne hyx]
    exact hold

theorem Linked.addAfter (hl : Linked l heads home) {h x : α} (hh : h ∈ heads) (hx : x ∉ heads)
    (hhome : home x = none) :
    Linked (l.addAfter h x) heads (Function.update home x (some h)) := by
  obtain ⟨rings, hr, hmem⟩ := hl
  exact linked_insert hmem (hr.addAfter hh (unlinked_of_home hmem hx hhome)) (by simp) hhome

theorem Linked.addBefore (hl : Linked l heads home) {h x : α} (hh : h ∈ heads) (hx : x ∉ heads)
    (hhome : home x = none) :
    Linked (l.addBefore h x) heads (Function.update home x (some h)) := by
  obtain ⟨rings, hr, hmem⟩ := hl
  exact linked_insert hmem (hr.addBefore hh (unlinked_of_home hmem hx hhome))
    (by simp [or_comm]) hhome

theorem Linked.remove (hl : Linked l heads home) {h x : α} (hh : h ∈ heads)
    (hhome : home x = some h) :
    Linked (l.remove x) heads (Function.update home x none) := by
  obtain ⟨rings, hr, hmem⟩ := hl
  refine ⟨_, hr.remove hh ((hmem h hh x).mpr hhome), ?_⟩
  intro k hk y
  have hold := hmem k hk y
  have hnodup : (rings h).Nodup := (List.nodup_cons.mp (hr.nodup h hh)).2
  rcases eq_or_ne k h with rfl | hkh <;> rcases eq_or_ne y x with rfl | hyx
  · simp [hnodup.not_mem_erase]
  · rw [Function.update_self, Function.update_of_ne hyx, List.mem_erase_of_ne hyx]
    exact hold
  · rw [Function.update_of_ne hkh, Function.update_self, hold, hhome, Option.some.injEq]
    exact ⟨fun hcontra => absurd hcontra.symm hkh, nofun⟩
  · rw [Function.update_of_ne hkh, Function.update_of_ne hyx]
    exact hold

/-- When an element leaves its list, a node which is in no list keeps its links. -/
theorem Linked.remove_other (hl : Linked l heads home) {h x y : α} (hh : h ∈ heads)
    (hx : home x = some h) (hy : y ∉ heads) (hyhome : home y = none) :
    (l.remove x).next y = l.next y ∧ (l.remove x).prev y = l.prev y := by
  obtain ⟨rings, hr, hmem⟩ := hl
  obtain ⟨hnext, hprev⟩ := hr.neighbours hh ((hmem h hh x).mpr hx)
  have hunlinked := unlinked_of_home hmem hy hyhome h hh
  rw [remove_eq]
  constructor
  · apply Function.update_of_ne
    rintro rfl
    exact hunlinked hprev
  · apply Function.update_of_ne
    rintro rfl
    exact hunlinked hnext

/-- When `x` enters a list, another node which is in no list keeps its links. -/
theorem Linked.addAfter_other (hl : Linked l heads home) {h x y : α} (hh : h ∈ heads)
    (hx : x ∉ heads) (hy : y ∉ heads) (hyhome : home y = none) (hyx : y ≠ x) :
    (l.addAfter h x).next y = l.next y ∧ (l.addAfter h x).prev y = l.prev y := by
  obtain ⟨rings, hr, hmem⟩ := hl
  have hunlinked := unlinked_of_home hmem hy hyhome h hh
  have hne : h ≠ x := by
    rintro rfl
    exact hx hh
  have hfirst : l.next h ∈ h :: rings h := by
    rw [(hr.path h hh).next_eq]
    cases rings h <;> simp
  have hyh : y ≠ h := by
    rintro rfl
    exact hy hh
  have hyn : y ≠ l.next h := by
    rintro rfl
    exact hunlinked hfirst
  constructor <;>
    simp [Links.addAfter, Links.setNext, Links.setPrev, Function.update_of_ne hne,
      Function.update_of_ne hyh, Function.update_of_ne hyx, Function.update_of_ne hyn]

end

end Ibnos.LinkedLists
