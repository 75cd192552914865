import Ibnos.LinkedLists
import Mathlib.Data.List.Basic

/-!
Doubly linked lists which end with a null pointer in both directions. The first
element is known to the owner of the list, there is no head among the nodes.
-/

namespace Ibnos.Chains

open Ibnos.LinkedLists

variable {α : Type}

section

variable [DecidableEq α]

/-- The neighbours of `x` are linked with each other; the links of `x` stay. -/
def cut (null : α) (l : Links α) (x : α) : Links α :=
  let l := if l.prev x = null then l else l.setNext (l.prev x) (l.next x)
  if l.next x = null then l else l.setPrev (l.next x) (l.prev x)

/-- `x` is linked in front of the list which starts with `head`. -/
def insertFront (null : α) (l : Links α) (head x : α) : Links α :=
  if head = null then l else (l.setPrev head x).setNext x head

/-- `y` is linked behind `x`. -/
def insertAfter (null : α) (l : Links α) (x y : α) : Links α :=
  let l := l.setPrev y x
  let l := l.setNext y (l.next x)
  let l := if l.next y = null then l else l.setPrev (l.next y) y
  l.setNext x y

end

/-- From the first to the last of `xs`, between `p` and `n`. -/
def Segment (l : Links α) (p : α) : List α → α → Prop
  | [], _ => True
  | x :: xs, n => l.prev x = p ∧ l.next x = xs.headD n ∧ Segment l x xs n

structure Chain (l : Links α) (null : α) (xs : List α) : Prop where
  segment : Segment l null xs null
  nodup : (null :: xs).Nodup

section

variable {l l' : Links α} {null p n x y : α} {xs ys : List α}

theorem segment_append : Segment l p (xs ++ ys) n ↔
    Segment l p xs (ys.headD n) ∧ Segment l (xs.getLastD p) ys n := by
  induction xs generalizing p with
  | nil => simp [Segment]
  | cons x xs ih =>
      have hhead : (xs ++ ys).headD n = xs.headD (ys.headD n) := by cases xs <;> rfl
      rw [List.cons_append, Segment, Segment, ih, hhead, List.getLastD_cons]
      simp only [and_assoc]

theorem Segment.congr (h : Segment l p xs n)
    (hl : ∀ y ∈ xs, l'.next y = l.next y ∧ l'.prev y = l.prev y) : Segment l' p xs n := by
  induction xs generalizing p with
  | nil => trivial
  | cons x xs ih =>
      obtain ⟨hnext, hprev⟩ := hl x List.mem_cons_self
      exact ⟨hprev.trans h.1, hnext.trans h.2.1,
        ih h.2.2 fun y hy => hl y (List.mem_cons_of_mem x hy)⟩

/-- Another node follows. -/
theorem Segment.setLast {m : α} (h : Segment l p xs n) (hnodup : xs.Nodup)
    (hlast : xs ≠ [] → l'.next (xs.getLastD p) = m)
    (hnext : ∀ y ∈ xs, y ≠ xs.getLastD p → l'.next y = l.next y)
    (hprev : ∀ y ∈ xs, l'.prev y = l.prev y) : Segment l' p xs m := by
  rcases List.eq_nil_or_concat' xs with rfl | ⟨zs, z, rfl⟩
  · trivial
  · have hz : (zs ++ [z]).getLastD p = z := by simp
    rw [hz] at hlast hnext
    obtain ⟨hzs, hprevz, -, -⟩ := segment_append.mp h
    have hnot : z ∉ zs := by
      intro hmem
      exact (List.nodup_append.mp hnodup).2.2 z hmem z (List.mem_singleton_self z) rfl
    refine segment_append.mpr ⟨hzs.congr fun y hy => ⟨?_, ?_⟩, ?_, hlast (by simp), trivial⟩
    · exact hnext y (List.mem_append_left _ hy) fun hyz => hnot (hyz ▸ hy)
    · exact hprev y (List.mem_append_left _ hy)
    · exact (hprev z (by simp)).trans hprevz

/-- Another node precedes. -/
theorem Segment.setFirst {q : α} (h : Segment l p xs n) (hnodup : xs.Nodup)
    (hfirst : xs ≠ [] → l'.prev (xs.headD n) = q)
    (hprev : ∀ y ∈ xs, y ≠ xs.headD n → l'.prev y = l.prev y)
    (hnext : ∀ y ∈ xs, l'.next y = l.next y) : Segment l' q xs n := by
  cases xs with
  | nil => trivial
  | cons x xs =>
      refine ⟨hfirst (by simp), (hnext x List.mem_cons_self).trans h.2.1,
        h.2.2.congr fun y hy => ⟨hnext y (List.mem_cons_of_mem x hy), ?_⟩⟩
      refine hprev y (List.mem_cons_of_mem x hy) ?_
      rintro rfl
      exact (List.nodup_cons.mp hnodup).1 hy

theorem Chain.null_not_mem (h : Chain l null xs) : null ∉ xs := (List.nodup_cons.mp h.nodup).1

theorem Chain.nodup_tail (h : Chain l null xs) : xs.Nodup := (List.nodup_cons.mp h.nodup).2

theorem Chain.congr (h : Chain l null xs)
    (hl : ∀ y ∈ xs, l'.next y = l.next y ∧ l'.prev y = l.prev y) : Chain l' null xs :=
  ⟨h.segment.congr hl, h.nodup⟩

theorem Chain.next_eq (h : Chain l null (xs ++ x :: ys)) : l.next x = ys.headD null :=
  (segment_append.mp h.segment).2.2.1

theorem Chain.prev_eq (h : Chain l null (xs ++ x :: ys)) : l.prev x = xs.getLastD null :=
  (segment_append.mp h.segment).2.1

theorem headD_mem (xs : List α) (a : α) : xs.headD a = a ∨ xs.headD a ∈ xs := by
  cases xs with
  | nil => exact Or.inl rfl
  | cons x xs => exact Or.inr List.mem_cons_self

theorem getLastD_mem (xs : List α) (a : α) : xs.getLastD a = a ∨ xs.getLastD a ∈ xs := by
  rcases List.eq_nil_or_concat' xs with rfl | ⟨zs, z, rfl⟩
  · exact Or.inl rfl
  · refine Or.inr ?_
    simp

/-- The links of a chain do not leave it. -/
theorem Chain.neighbours (h : Chain l null xs) (hx : x ∈ xs) :
    l.next x ∈ null :: xs ∧ l.prev x ∈ null :: xs := by
  obtain ⟨as, bs, rfl⟩ := List.append_of_mem hx
  rw [h.next_eq, h.prev_eq]
  constructor
  · rcases headD_mem bs null with heq | hmem
    · rw [heq]
      exact List.mem_cons_self
    · exact List.mem_cons_of_mem _ (List.mem_append_right _ (List.mem_cons_of_mem x hmem))
  · rcases getLastD_mem as null with heq | hmem
    · rw [heq]
      exact List.mem_cons_self
    · exact List.mem_cons_of_mem _ (List.mem_append_left _ hmem)

theorem headD_eq_null_iff (hnull : null ∉ xs) : xs.headD null = null ↔ xs = [] := by
  cases xs with
  | nil => simp
  | cons x xs =>
      simp only [List.headD_cons, reduceCtorEq, iff_false]
      rintro rfl
      exact hnull List.mem_cons_self

theorem getLastD_eq_null_iff (hnull : null ∉ xs) : xs.getLastD null = null ↔ xs = [] := by
  rcases List.eq_nil_or_concat' xs with rfl | ⟨zs, z, rfl⟩
  · simp
  · simp only [List.getLastD_concat, List.append_eq_nil_iff, reduceCtorEq,
      and_false, iff_false]
    rintro rfl
    exact hnull (by simp)

end

section

variable [DecidableEq α] {l : Links α} {null x y z : α} {xs ys zs : List α}

theorem cut_next : (cut null l x).next y =
    if l.prev x ≠ null ∧ y = l.prev x then l.next x else l.next y := by
  by_cases hprev : l.prev x = null <;> by_cases hnext : l.next x = null <;>
    simp [cut, Links.setNext, Links.setPrev, hprev, hnext, Function.update_apply]

theorem cut_prev : (cut null l x).prev y =
    if l.next x ≠ null ∧ y = l.next x then l.prev x else l.prev y := by
  by_cases hprev : l.prev x = null <;> by_cases hnext : l.next x = null <;>
    simp [cut, Links.setNext, Links.setPrev, hprev, hnext, Function.update_apply]

/-- The links of `x` are not read again. -/
theorem cut_eq (null : α) (l : Links α) (x : α) : cut null l x =
    let l' := if l.prev x = null then l else l.setNext (l.prev x) (l.next x)
    if l.next x = null then l' else l'.setPrev (l.next x) (l.prev x) := by
  by_cases hprev : l.prev x = null <;> by_cases hnext : l.next x = null <;>
    simp [cut, Links.setNext, Links.setPrev, hprev, hnext, Function.update_apply]

theorem insertAfter_eq (null : α) (l : Links α) (x y : α) : insertAfter null l x y =
    let l' := (l.setPrev y x).setNext y (l.next x)
    (if l.next x = null then l' else l'.setPrev (l.next x) y).setNext x y := by
  simp [insertAfter, Links.setNext, Links.setPrev]

theorem insertFront_next : (insertFront null l x y).next z =
    if x ≠ null ∧ z = y then x else l.next z := by
  by_cases hx : x = null <;>
    simp [insertFront, Links.setNext, Links.setPrev, hx, Function.update_apply]

theorem insertFront_prev : (insertFront null l x y).prev z =
    if x ≠ null ∧ z = x then y else l.prev z := by
  by_cases hx : x = null <;>
    simp [insertFront, Links.setNext, Links.setPrev, hx, Function.update_apply]

theorem insertAfter_next : (insertAfter null l x y).next z =
    if z = x then y else if z = y then l.next x else l.next z := by
  by_cases hx : l.next x = null <;>
    simp [insertAfter, Links.setNext, Links.setPrev, hx, Function.update_apply]

theorem insertAfter_prev (hy : l.next x ≠ y) : (insertAfter null l x y).prev z =
    if z = y then x else if l.next x ≠ null ∧ z = l.next x then y else l.prev z := by
  by_cases hx : l.next x = null
  · simp [insertAfter, Links.setNext, Links.setPrev, hx, Function.update_apply]
  · simp only [insertAfter, Links.setNext, Links.setPrev, hx, Function.update_apply, if_true,
      if_false, ne_eq, not_false_eq_true, true_and]
    split_ifs with h h'
    · exact absurd (h.symm.trans h') hy
    all_goals rfl

/-- An element leaves its list. -/
theorem chain_cut (h : Chain l null (xs ++ x :: ys)) : Chain (cut null l x) null (xs ++ ys) := by
  have hnodup := h.nodup_tail
  have hnull := h.null_not_mem
  obtain ⟨hxs, hys⟩ := segment_append.mp h.segment
  have hsub : (xs ++ ys).Sublist (xs ++ x :: ys) :=
    List.Sublist.append_left (List.sublist_cons_self x ys) xs
  have hnullxs : null ∉ xs := fun hmem => hnull (List.mem_append_left _ hmem)
  have hnullys : null ∉ ys := fun hmem =>
    hnull (List.mem_append_right _ (List.mem_cons_of_mem x hmem))
  obtain ⟨hxsnodup, hxysnodup, hdisjoint⟩ := List.nodup_append.mp hnodup
  have hysnodup := (List.nodup_cons.mp hxysnodup).2
  have hapart : ∀ y ∈ xs, y ∉ ys := fun y hy hmem =>
    hdisjoint y hy y (List.mem_cons_of_mem x hmem) rfl
  refine ⟨segment_append.mpr ⟨hxs.setLast hxsnodup ?_ ?_ ?_, ?_⟩, ?_⟩
  · intro hne
    have hlast : xs.getLastD null ≠ null := fun hcontra =>
      hne ((getLastD_eq_null_iff hnullxs).mp hcontra)
    rw [cut_next, h.prev_eq, if_pos ⟨hlast, rfl⟩, h.next_eq]
  · intro y hy hne
    rw [cut_next, h.prev_eq, if_neg fun hcontra => hne hcontra.2]
  · intro y hy
    rw [cut_prev, h.next_eq, if_neg]
    rintro ⟨hne, rfl⟩
    rcases headD_mem ys null with heq | hmem
    · exact hne heq
    · exact hapart _ hy hmem
  · refine hys.2.2.setFirst hysnodup ?_ ?_ ?_
    · intro hne
      have hhead : ys.headD null ≠ null := fun hcontra =>
        hne ((headD_eq_null_iff hnullys).mp hcontra)
      rw [cut_prev, h.next_eq, if_pos ⟨hhead, rfl⟩, h.prev_eq]
    · intro y hy hne
      rw [cut_prev, h.next_eq, if_neg fun hcontra => hne hcontra.2]
    · intro y hy
      rw [cut_next, h.prev_eq, if_neg]
      rintro ⟨hne, rfl⟩
      rcases getLastD_mem xs null with heq | hmem
      · exact hne heq
      · exact hapart _ hmem hy
  · exact h.nodup.sublist (hsub.cons_cons null)

theorem chain_insertFront (h : Chain l null xs) (hx : x ≠ null) (hmem : x ∉ xs)
    (hprev : l.prev x = null) (hnext : xs = [] → l.next x = null) :
    Chain (insertFront null l (xs.headD null) x) null (x :: xs) := by
  have hhead : xs ≠ [] → xs.headD null ≠ null := fun hne hcontra =>
    hne ((headD_eq_null_iff h.null_not_mem).mp hcontra)
  refine ⟨⟨?_, ?_, h.segment.setFirst h.nodup_tail ?_ ?_ ?_⟩, ?_⟩
  · rw [insertFront_prev, if_neg]
    · exact hprev
    rintro ⟨hne, rfl⟩
    rcases headD_mem xs null with heq | hin
    · exact hne heq
    · exact hmem hin
  · rw [insertFront_next]
    split_ifs with hcond
    · rfl
    · obtain rfl : xs = [] := by
        by_contra hne
        exact hcond ⟨hhead hne, rfl⟩
      exact hnext rfl
  · intro hne
    rw [insertFront_prev, if_pos ⟨hhead hne, rfl⟩]
  · intro y hy hne
    rw [insertFront_prev, if_neg fun hcontra => hne hcontra.2]
  · intro y hy
    rw [insertFront_next, if_neg]
    rintro ⟨-, rfl⟩
    exact hmem hy
  · refine List.nodup_cons.mpr ⟨?_, List.nodup_cons.mpr ⟨hmem, h.nodup_tail⟩⟩
    simp only [List.mem_cons, not_or]
    exact ⟨hx.symm, h.null_not_mem⟩

theorem chain_insertAfter (h : Chain l null (xs ++ x :: ys)) (hy : y ≠ null)
    (hmem : y ∉ xs ++ x :: ys) :
    Chain (insertAfter null l x y) null (xs ++ x :: y :: ys) := by
  obtain ⟨hxs, hprev, hnext, hys⟩ := segment_append.mp h.segment
  have hnodup := h.nodup_tail
  obtain ⟨hxsnodup, hxysnodup, hdisjoint⟩ := List.nodup_append.mp hnodup
  obtain ⟨hxys, hysnodup⟩ := List.nodup_cons.mp hxysnodup
  simp only [List.mem_append, List.mem_cons, not_or] at hmem
  obtain ⟨hyxs, hyx, hyys⟩ := hmem
  have hnullys : null ∉ ys := fun hcontra =>
    h.null_not_mem (List.mem_append_right _ (List.mem_cons_of_mem x hcontra))
  have hne : l.next x ≠ y := by
    rw [hnext]
    rintro rfl
    rcases headD_mem ys null with heq | hin
    · exact hy heq
    · exact hyys hin
  -- The first of `ys` is neither `x` nor in `xs`.
  have hhead : ∀ z, z = x ∨ z ∈ xs → ¬(l.next x ≠ null ∧ z = l.next x) := by
    rintro z hz ⟨hnull, rfl⟩
    rw [hnext] at hz hnull
    rcases headD_mem ys null with heq | hin
    · exact hnull heq
    · rcases hz with hz | hz
      · exact hxys (hz ▸ hin)
      · exact hdisjoint _ hz _ (List.mem_cons_of_mem x hin) rfl
  refine ⟨segment_append.mpr ⟨hxs.congr fun z hz => ⟨?_, ?_⟩, ?_, ?_, ?_, ?_,
    hys.setFirst hysnodup ?_ ?_ ?_⟩, ?_⟩
  · rw [insertAfter_next, if_neg, if_neg]
    · rintro rfl
      exact hyxs hz
    · rintro rfl
      exact hdisjoint _ hz _ List.mem_cons_self rfl
  · rw [insertAfter_prev hne, if_neg, if_neg (hhead z (Or.inr hz))]
    rintro rfl
    exact hyxs hz
  · rw [insertAfter_prev hne, if_neg (Ne.symm hyx), if_neg (hhead x (Or.inl rfl))]
    exact hprev
  · rw [insertAfter_next, if_pos rfl]
    rfl
  · rw [insertAfter_prev hne, if_pos rfl]
  · rw [insertAfter_next, if_neg hyx, if_pos rfl, hnext]
  · intro hnil
    have hnull : ys.headD null ≠ null := fun hcontra =>
      hnil ((headD_eq_null_iff hnullys).mp hcontra)
    rw [insertAfter_prev hne, hnext, if_neg, if_pos ⟨hnull, rfl⟩]
    rw [← hnext]
    exact hne
  · intro z hz hzh
    rw [insertAfter_prev hne, if_neg, hnext, if_neg fun hcontra => hzh hcontra.2]
    rintro rfl
    exact hyys hz
  · intro z hz
    rw [insertAfter_next, if_neg, if_neg]
    · rintro rfl
      exact hyys hz
    · rintro rfl
      exact hxys hz
  · have hperm : (null :: (xs ++ x :: y :: ys)).Perm (y :: null :: (xs ++ x :: ys)) := by
      refine (List.Perm.cons null ?_).trans (List.Perm.swap y null _)
      have happend : xs ++ x :: y :: ys = xs ++ [x] ++ y :: ys := by simp
      rw [happend]
      exact List.perm_middle.trans (by simp)
    refine hperm.nodup_iff.mpr (List.nodup_cons.mpr ⟨?_, h.nodup⟩)
    simp only [List.mem_cons, List.mem_append, not_or]
    exact ⟨hy, hyxs, hyx, hyys⟩

/-! Other lists which share the memory of the links. -/

theorem chain_cut_other (h : Chain l null xs) (hx : x ∈ xs) (hz : Chain l null zs)
    (hdisjoint : ∀ z ∈ zs, z ∉ xs) : Chain (cut null l x) null zs := by
  obtain ⟨hnext, hprev⟩ := h.neighbours hx
  have hout : ∀ z ∈ zs, ∀ y ∈ null :: xs, ¬(y ≠ null ∧ z = y) := by
    rintro z hz y hy ⟨hne, rfl⟩
    rcases List.mem_cons.mp hy with rfl | hmem
    · exact hne rfl
    · exact hdisjoint z hz hmem
  refine hz.congr fun z hz => ⟨?_, ?_⟩
  · rw [cut_next, if_neg (hout z hz _ hprev)]
  · rw [cut_prev, if_neg (hout z hz _ hnext)]

theorem chain_insertFront_other (hz : Chain l null zs) (hx : x = null ∨ x ∉ zs) (hy : y ∉ zs) :
    Chain (insertFront null l x y) null zs := by
  refine hz.congr fun z hz => ⟨?_, ?_⟩
  · rw [insertFront_next, if_neg]
    rintro ⟨-, rfl⟩
    exact hy hz
  · rw [insertFront_prev, if_neg]
    rintro ⟨hne, rfl⟩
    exact hx.elim hne fun hx => hx hz

end

end Ibnos.Chains
