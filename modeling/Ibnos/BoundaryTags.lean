import Ibnos.Chains
import Ibnos.Liballoc

/-!
The tags as records with two pairs of links, without the bytes they are stored in. The
functions which change tags do to the bytes what they do to the records.
-/

namespace Ibnos.BoundaryTags

open Ibnos.ByteMemories
open Ibnos.Chains
open Ibnos.Liballoc
open Ibnos.LinkedLists
open Ibnos.Runs
open Ibnos.WordRecords

/-- The fields of all tags, and the variables which belong to them. -/
structure View where
  magic : Nat → Nat
  size : Nat → Nat
  realSize : Nat → Nat
  index : Nat → Nat
  /-- `split_right` and `split_left` -/
  split : Links Nat
  /-- `next` and `prev` -/
  free : Links Nat
  freePages : Nat → Nat
  completePages : Nat → Int

namespace View

def field (v : View) (x : Nat) : Field → Nat
  | .magic => v.magic x
  | .size => v.size x
  | .realSize => v.realSize x
  | .index => v.index x
  | .splitLeft => v.split.prev x
  | .splitRight => v.split.next x
  | .next => v.free.next x
  | .prev => v.free.prev x

def set (v : View) (x : Nat) (f : Field) (w : Nat) : View :=
  match f with
  | .magic => { v with magic := Function.update v.magic x w }
  | .size => { v with size := Function.update v.size x w }
  | .realSize => { v with realSize := Function.update v.realSize x w }
  | .index => { v with index := Function.update v.index x w }
  | .splitLeft => { v with split := v.split.setPrev x w }
  | .splitRight => { v with split := v.split.setNext x w }
  | .next => { v with free := v.free.setNext x w }
  | .prev => { v with free := v.free.setPrev x w }

def setFreePage (v : View) (index tag : Nat) : View :=
  { v with freePages := Function.update v.freePages index tag }

def setCompletePage (v : View) (index : Nat) (n : Int) : View :=
  { v with completePages := Function.update v.completePages index n }

/-- `tag` becomes the first of the list. -/
def insertTag (v : View) (tag index : Nat) : View :=
  { v with
    index := Function.update v.index tag index
    free := insertFront 0 v.free (v.freePages index) tag
    freePages := Function.update v.freePages index tag }

/-- `tag` leaves its list. -/
def removeTag (v : View) (tag : Nat) : View :=
  { v with
    index := Function.update v.index tag NO_INDEX
    free := ((cut 0 v.free tag).setNext tag 0).setPrev tag 0
    freePages := if v.freePages (v.index tag) = tag
      then Function.update v.freePages (v.index tag) (v.free.next tag) else v.freePages }

/-- The region of `y` is added to the one of its left neighbour `x`. -/
def merge (v : View) (x y : Nat) : View :=
  { v with
    realSize := Function.update v.realSize x (v.realSize x + v.realSize y)
    split := cut 0 v.split y }

/-- A new tag at `y`, from which on the region of `x` is split off. -/
def divide (v : View) (x y : Nat) : View :=
  { v with
    magic := Function.update v.magic y LIBALLOC_MAGIC
    realSize := Function.update (Function.update v.realSize y (v.realSize x - (y - x))) x (y - x)
    index := Function.update v.index y NO_INDEX
    split := insertAfter 0 v.split x y
    free := (v.free.setNext y 0).setPrev y 0 }

/-- The tag of a new region. -/
def create (v : View) (x size realSize : Nat) : View :=
  { v with
    magic := Function.update v.magic x LIBALLOC_MAGIC
    size := Function.update v.size x size
    realSize := Function.update v.realSize x realSize
    index := Function.update v.index x NO_INDEX
    split := (v.split.setPrev x 0).setNext x 0
    free := (v.free.setNext x 0).setPrev x 0 }

theorem field_set (v : View) (x y : Nat) (f g : Field) (w : Nat) :
    (v.set x f w).field y g = if y = x ∧ g = f then w else v.field y g := by
  by_cases hxy : y = x
  · subst hxy
    cases f <;> cases g <;>
      simp [set, field, Links.setNext, Links.setPrev]
  · cases f <;> cases g <;>
      simp [set, field, Links.setNext, Links.setPrev, hxy]

end View

def view (s : Arena) : View where
  magic x := get boundaryTag s.memory x .magic
  size x := get boundaryTag s.memory x .size
  realSize x := get boundaryTag s.memory x .realSize
  index x := get boundaryTag s.memory x .index
  split :=
    { next := fun x => get boundaryTag s.memory x .splitRight
      prev := fun x => get boundaryTag s.memory x .splitLeft }
  free :=
    { next := fun x => get boundaryTag s.memory x .next
      prev := fun x => get boundaryTag s.memory x .prev }
  freePages := s.freePages
  completePages := s.completePages

theorem view_field (s : Arena) (x : Nat) (f : Field) :
    (view s).field x f = get boundaryTag s.memory x f := by
  cases f <;> rfl

/-- At these addresses there may be tags. -/
structure Scope (T : Set Nat) (s : Arena) : Prop where
  apart : ∀ x ∈ T, ∀ y ∈ T, Apart boundaryTag x y
  lt : ∀ x ∈ T, x < 2 ^ 32
  mapped : ∀ x ∈ T, ∀ f : Field, s.mapped (x + f.offset) 4 = true

/-- From the arena `s₀` on nothing but tags of `T` have been written, and they are as `v` says. -/
structure Shows (T : Set Nat) (s₀ s : Arena) (v : View) : Prop where
  field : ∀ x ∈ T, ∀ f, get boundaryTag s.memory x f = v.field x f
  freePages : s.freePages = v.freePages
  completePages : s.completePages = v.completePages
  frame : ∀ a, (∀ x ∈ T, a < x ∨ x + TAG_SIZE ≤ a) → s.memory a = s₀.memory a
  owned : s.owned = s₀.owned
  initialized : s.initialized = s₀.initialized
  locked : s.locked = s₀.locked

theorem Shows.refl (T : Set Nat) (s : Arena) : Shows T s s (view s) where
  field x _ f := (view_field s x f).symm
  freePages := rfl
  completePages := rfl
  frame _ _ := rfl
  owned := rfl
  initialized := rfl
  locked := rfl

section

variable {T : Set Nat} {s₀ s : Arena} {v v' : View} {x y w index : Nat} {f : Field} {α : Type}
  {P : α → Prop}

theorem Shows.field_lt (h : Shows T s₀ s v) (hx : x ∈ T) (f : Field) : v.field x f < 2 ^ 32 := by
  rw [← h.field x hx f]
  exact get_lt _ _ _ _

theorem Shows.mapped (h : Shows T s₀ s v) (hT : Scope T s₀) (hx : x ∈ T) (f : Field) :
    s.mapped (x + f.offset) 4 = true := by
  have hmapped := hT.mapped x hx f
  rwa [Arena.mapped, ← h.owned] at hmapped

theorem load_eq (h : Shows T s₀ s v) (hT : Scope T s₀) (hx : x ∈ T) (f : Field) :
    load s x f = .ok (v.field x f) := by
  rw [load, if_pos (h.mapped hT hx f), h.field x hx f]

theorem store_shows (h : Shows T s₀ s v) (hT : Scope T s₀) (hx : x ∈ T) (hw : w < 2 ^ 32) :
    Finishes (store s x f w) fun s' => Shows T s₀ s' (v.set x f w) := by
  rw [store, if_pos (h.mapped hT hx f)]
  refine finishes_ok ⟨fun y hy g => ?_, ?_, ?_, fun a ha => ?_, h.owned, h.initialized, h.locked⟩
  · rw [View.field_set, ← h.field y hy g]
    exact get_set hw (hT.apart x hx y hy)
  · rw [h.freePages]
    cases f <;> rfl
  · rw [h.completePages]
    cases f <;> rfl
  · exact (set_frame (ha x hx)).trans (h.frame a ha)

/-! One step after the other. -/

theorem finishes_load (h : Shows T s₀ s v) (hT : Scope T s₀) (hx : x ∈ T) {f : Field}
    {k : Nat → Except Stop α} (hk : Finishes (k (v.field x f)) P) : Finishes (load s x f >>= k) P := by
  rw [load_eq h hT hx f]
  exact hk

theorem finishes_store (h : Shows T s₀ s v) (hT : Scope T s₀) (hx : x ∈ T) (hw : w < 2 ^ 32)
    {f : Field} {k : Arena → Except Stop α}
    (hk : ∀ s', Shows T s₀ s' (v.set x f w) → Finishes (k s') P) : Finishes (store s x f w >>= k) P :=
  (store_shows h hT hx hw).bind hk

theorem freePage_eq (h : Shows T s₀ s v) (hindex : index < MAXEXP) :
    freePage s index = .ok (v.freePages index) := by
  rw [freePage, if_pos hindex, h.freePages]

theorem finishes_freePage (h : Shows T s₀ s v) (hindex : index < MAXEXP)
    {k : Nat → Except Stop α} (hk : Finishes (k (v.freePages index)) P) :
    Finishes (freePage s index >>= k) P := by
  rw [freePage_eq h hindex]
  exact hk

theorem setFreePage_shows (h : Shows T s₀ s v) (hindex : index < MAXEXP) (x : Nat) :
    Finishes (setFreePage s index x) fun s' => Shows T s₀ s' (v.setFreePage index x) := by
  rw [setFreePage, if_pos hindex]
  refine finishes_ok ⟨fun y hy g => ?_, ?_, h.completePages, h.frame, h.owned, h.initialized,
    h.locked⟩
  · exact (h.field y hy g).trans (by cases g <;> rfl)
  · rw [h.freePages]
    rfl

theorem setCompletePage_shows (h : Shows T s₀ s v) (hindex : index < MAXEXP) (n : Int) :
    Finishes (setCompletePage s index n) fun s' => Shows T s₀ s' (v.setCompletePage index n) := by
  rw [setCompletePage, if_pos hindex]
  refine finishes_ok ⟨fun y hy g => ?_, h.freePages, ?_, h.frame, h.owned, h.initialized, h.locked⟩
  · exact (h.field y hy g).trans (by cases g <;> rfl)
  · rw [h.completePages]
    rfl

/-! The functions on tags. -/

theorem set_freePages (v : View) (x : Nat) (f : Field) (w : Nat) :
    (v.set x f w).freePages = v.freePages := by
  cases f <;> rfl

/-- A list head or a link: null, or the address of a tag. -/
def Pointer (T : Set Nat) (x : Nat) : Prop := x = 0 ∨ x ∈ T

theorem Pointer.lt (h : Pointer T x) (hT : Scope T s₀) : x < 2 ^ 32 := by
  rcases h with rfl | hx
  · decide
  · exact hT.lt x hx

def View.setNonNull (v : View) (p : Nat) (f : Field) (w : Nat) : View :=
  if p = 0 then v else v.set p f w

theorem View.field_setNonNull (v : View) (x y : Nat) (f g : Field) (w : Nat) :
    (v.setNonNull x f w).field y g = if x ≠ 0 ∧ y = x ∧ g = f then w else v.field y g := by
  by_cases hx : x = 0
  · simp [View.setNonNull, hx]
  · simp [View.setNonNull, hx, View.field_set]

theorem storeNonNull_shows (h : Shows T s₀ s v) (hT : Scope T s₀) (hx : Pointer T x)
    (hw : w < 2 ^ 32) : Finishes (storeNonNull s x f w) fun s' =>
      Shows T s₀ s' (v.setNonNull x f w) := by
  rw [storeNonNull, View.setNonNull]
  split_ifs with hnull
  · exact finishes_ok h
  · exact store_shows h hT (hx.resolve_left hnull) hw

theorem insertTag_some_shows (h : Shows T s₀ s v) (hT : Scope T s₀) (hx : x ∈ T)
    (hindex : index < MAXEXP) (hhead : Pointer T (v.freePages index)) :
    Finishes (insertTag s x (some index)) fun s' => Shows T s₀ s' (v.insertTag x index) := by
  have hlt : index < 2 ^ 32 := by
    rw [MAXEXP] at hindex
    omega
  refine finishes_store h hT hx hlt fun s₁ h₁ => ?_
  refine finishes_freePage h₁ hindex ?_
  rw [set_freePages]
  by_cases hnil : v.freePages index = 0
  · have hset : v.insertTag x index = (v.set x .index index).setFreePage index x := by
      simp [View.insertTag, View.set, View.setFreePage, insertFront, hnil]
    rw [if_pos hnil, hset]
    exact setFreePage_shows h₁ hindex x
  · have hmem := hhead.resolve_left hnil
    have hset : v.insertTag x index = ((((v.set x .index index).set (v.freePages index) .prev x).set
        x .next (v.freePages index)).setFreePage index x) := by
      simp [View.insertTag, View.set, View.setFreePage, insertFront, hnil]
    rw [if_neg hnil, hset]
    refine Finishes.bind (P := fun s' => Shows T s₀ s' (((v.set x .index index).set
      (v.freePages index) .prev x).set x .next (v.freePages index))) ?_ fun s₃ h₃ =>
        setFreePage_shows h₃ hindex x
    refine finishes_store h₁ hT hmem (hT.lt x hx) fun s₂ h₂ => ?_
    exact store_shows h₂ hT hx (hhead.lt hT)

theorem removeTag_shows (h : Shows T s₀ s v) (hT : Scope T s₀) (hx : x ∈ T)
    (hindex : v.index x < MAXEXP) (hnext : Pointer T (v.free.next x))
    (hprev : Pointer T (v.free.prev x)) :
    Finishes (removeTag s x) fun s' => Shows T s₀ s' (v.removeTag x) := by
  refine finishes_load h hT hx (finishes_freePage h hindex (finishes_load h hT hx ?_))
  obtain ⟨v₁, hv₁⟩ : ∃ v₁, v₁ = if v.freePages (v.index x) = x then
      v.setFreePage (v.index x) (v.free.next x) else v := ⟨_, rfl⟩
  have hfree₁ : v₁.free = v.free := by
    rw [hv₁]
    split_ifs <;> rfl
  refine Finishes.bind (P := fun s' => Shows T s₀ s' v₁) ?_ fun s₁ h₁ => ?_
  · rw [hv₁]
    split_ifs
    · exact setFreePage_shows h hindex _
    · exact finishes_ok h
  refine finishes_load h₁ hT hx (finishes_load h₁ hT hx ?_)
  have hfield₁ : v₁.field x .prev = v.free.prev x ∧ v₁.field x .next = v.free.next x := by
    simp [View.field, hfree₁]
  rw [hfield₁.1, hfield₁.2]
  refine (storeNonNull_shows h₁ hT hprev (hnext.lt hT)).bind fun s₂ h₂ => ?_
  have hfield₂ : (v₁.setNonNull (v.free.prev x) .next (v.free.next x)).field x .next =
      v.free.next x ∧ (v₁.setNonNull (v.free.prev x) .next (v.free.next x)).field x .prev =
        v.free.prev x := by
    rw [View.setNonNull]
    split_ifs
    · exact hfield₁.symm
    · rw [View.field_set, View.field_set, hfield₁.1, hfield₁.2]
      simp
  refine finishes_load h₂ hT hx (finishes_load h₂ hT hx ?_)
  rw [hfield₂.1, hfield₂.2]
  refine (storeNonNull_shows h₂ hT hnext (hprev.lt hT)).bind fun s₃ h₃ => ?_
  refine finishes_store h₃ hT hx (by decide) fun s₄ h₄ => ?_
  refine finishes_store h₄ hT hx (by decide) fun s₅ h₅ => ?_
  refine (store_shows h₅ hT hx (by decide)).mono fun s₆ h₆ => ?_
  convert h₆ using 1
  rw [View.removeTag, cut_eq, hv₁]
  simp only [View.setNonNull, View.set, View.setFreePage]
  split_ifs <;> rfl

theorem sub32_eq {a b : Nat} (ha : a < 2 ^ 32) (h : b ≤ a) : sub32 a b = a - b := by
  rw [sub32]
  omega

theorem meltLeft_shows (h : Shows T s₀ s v) (hT : Scope T s₀) (hx : x ∈ T)
    (hleft : v.split.prev x ∈ T) (hne : v.split.prev x ≠ x) (hnull : v.split.prev x ≠ 0)
    (hright : Pointer T (v.split.next x))
    (hsum : v.realSize (v.split.prev x) + v.realSize x < 2 ^ 32) :
    Finishes (meltLeft s x) fun r =>
      r.1 = v.split.prev x ∧ Shows T s₀ r.2 (v.merge (v.split.prev x) x) := by
  refine finishes_load h hT hx (finishes_load h hT hleft (finishes_load h hT hx ?_))
  change Finishes (store s (v.split.prev x) .realSize
    ((v.realSize (v.split.prev x) + v.realSize x) % 2 ^ 32) >>= _) _
  rw [Nat.mod_eq_of_lt hsum]
  refine finishes_store h hT hleft hsum fun s₁ h₁ => ?_
  refine finishes_load h₁ hT hx ?_
  refine finishes_store h₁ hT hleft (h₁.field_lt hx _) fun s₂ h₂ => ?_
  refine finishes_load h₂ hT hx ?_
  simp only [View.field_set, hne.symm, false_and, if_false]
  refine (storeNonNull_shows h₂ hT hright (hT.lt _ hleft)).bind fun s₃ h₃ => ?_
  refine finishes_ok ⟨rfl, ?_⟩
  convert h₃ using 1
  rw [View.merge, cut_eq]
  simp only [View.field, View.setNonNull, View.set, hnull, if_false]
  split_ifs <;> rfl

theorem absorbRight_shows (h : Shows T s₀ s v) (hT : Scope T s₀) (hx : x ∈ T)
    (hright : v.split.next x ∈ T) (hne : v.split.next x ≠ x) (hnull : x ≠ 0)
    (hback : v.split.prev (v.split.next x) = x)
    (hnext : Pointer T (v.split.next (v.split.next x)))
    (hindex : v.index (v.split.next x) < MAXEXP)
    (hfree : Pointer T (v.free.next (v.split.next x)) ∧ Pointer T (v.free.prev (v.split.next x)))
    (hsum : v.realSize x + v.realSize (v.split.next x) < 2 ^ 32) :
    Finishes (absorbRight s x) fun s' =>
      Shows T s₀ s' ((v.removeTag (v.split.next x)).merge x (v.split.next x)) := by
  obtain ⟨y, hy⟩ : ∃ y, y = v.split.next x := ⟨_, rfl⟩
  refine finishes_load h hT hx ?_
  rw [View.field]
  rw [← hy] at hright hne hback hnext hindex hfree hsum ⊢
  refine (removeTag_shows h hT hright hindex hfree.1 hfree.2).bind fun s₁ h₁ => ?_
  refine finishes_load h₁ hT hx (finishes_load h₁ hT hright ?_)
  change Finishes (store s₁ x .realSize ((v.realSize x + v.realSize y) % 2 ^ 32) >>= _) _
  rw [Nat.mod_eq_of_lt hsum]
  refine finishes_store h₁ hT hx hsum fun s₂ h₂ => ?_
  refine finishes_load h₂ hT hright ?_
  refine finishes_store h₂ hT hx (h₂.field_lt hright _) fun s₃ h₃ => ?_
  refine finishes_load h₃ hT hright ?_
  simp only [View.field_set, hne, false_and, if_false]
  refine (storeNonNull_shows h₃ hT hnext (hT.lt _ hx)).mono fun s₄ h₄ => ?_
  convert h₄ using 1
  have hsplit : (v.removeTag y).split = v.split := rfl
  rw [View.merge, cut_eq, hsplit, hback]
  simp only [View.field, View.setNonNull, View.set, hnull, hsplit, if_false]
  split_ifs <;> rfl

theorem insertTag_none_eq (h : Shows T s₀ s v) (hT : Scope T s₀) (hx : x ∈ T) :
    insertTag s x none =
      insertTag s x (some (listIndex (sub32 (v.realSize x) TAG_SIZE))) := by
  rw [insertTag, insertTag, load_eq h hT hx]
  rfl

/-- The new tag before it enters its list. -/
theorem splitTag_shows (h : Shows T s₀ s v) (hT : Scope T s₀) (hx : x ∈ T)
    (hy : y = x + TAG_SIZE + v.size x) (hyT : y ∈ T) (hright : Pointer T (v.split.next x))
    (hroom : TAG_SIZE + v.size x + TAG_SIZE ≤ v.realSize x)
    (hindex : listIndex (v.realSize x - (y - x) - TAG_SIZE) < MAXEXP)
    (hhead : Pointer T (v.freePages (listIndex (v.realSize x - (y - x) - TAG_SIZE)))) :
    Finishes (splitTag s x) fun s' => Shows T s₀ s' ((v.divide x y).insertTag y
      (listIndex (v.realSize x - (y - x) - TAG_SIZE))) := by
  have hlt : v.realSize x < 2 ^ 32 := h.field_lt hx .realSize
  have hylt := hT.lt y hyT
  have hTAG : TAG_SIZE = 32 := rfl
  have hxy : x ≠ y := by omega
  have hnew : (x + TAG_SIZE + v.field x .size) % 2 ^ 32 = y := by
    rw [View.field, ← hy, Nat.mod_eq_of_lt hylt]
  have hremainder : sub32 (sub32 (v.field x .realSize) TAG_SIZE) (v.field x .size) =
      v.realSize x - (y - x) := by
    rw [View.field, View.field, sub32_eq hlt (by omega), sub32_eq (by omega) (by omega)]
    omega
  refine finishes_load h hT hx (finishes_load h hT hx ?_)
  simp only [hnew, hremainder]
  refine finishes_store h hT hyT (by decide) fun s₁ h₁ => ?_
  refine finishes_store h₁ hT hyT (by omega) fun s₂ h₂ => ?_
  refine finishes_store h₂ hT hyT (by decide) fun s₃ h₃ => ?_
  refine finishes_store h₃ hT hyT (by decide) fun s₄ h₄ => ?_
  refine finishes_store h₄ hT hyT (hT.lt x hx) fun s₅ h₅ => ?_
  refine finishes_load h₅ hT hx ?_
  refine finishes_store h₅ hT hyT (h₅.field_lt hx _) fun s₆ h₆ => ?_
  refine finishes_load h₆ hT hyT ?_
  simp only [View.field_set, hxy, false_and, if_false, and_self, if_true]
  refine (storeNonNull_shows h₆ hT hright hylt).bind fun s₇ h₇ => ?_
  refine finishes_store h₇ hT hx hylt fun s₈ h₈ => ?_
  refine finishes_load h₈ hT hx (finishes_load h₈ hT hyT ?_)
  have hrest : sub32 (v.realSize x) (v.realSize x - (y - x)) = y - x := by
    rw [sub32_eq hlt (by omega)]
    omega
  simp only [View.field_set, View.field_setNonNull, hxy, hxy.symm, false_and, and_false, if_false,
    and_self, if_true, reduceCtorEq]
  rw [View.field, hrest]
  refine finishes_store h₈ hT hx (by omega) fun s₉ h₉ => ?_
  have hdivide : Shows T s₀ s₉ { v.divide x y with index := v.index } := by
    convert h₉ using 1
    rw [View.divide, insertAfter_eq]
    simp only [View.field, View.setNonNull, View.set]
    split_ifs <;> rfl
  have hsize : (v.divide x y).realSize y = v.realSize x - (y - x) := by
    simp [View.divide, Function.update_of_ne hxy.symm]
  rw [insertTag_none_eq hdivide hT hyT, hsize, sub32_eq (by omega) (by omega)]
  refine (insertTag_some_shows hdivide hT hyT hindex hhead).mono fun s₁₀ h₁₀ => ?_
  convert h₁₀ using 1
  simp [View.insertTag, View.divide]

/-- The first pages of a region come with arbitrary bytes. -/
theorem allocateNewTag_shows {size : Nat} {r : Region}
    (hr : r.Suitable s (pagesFor ((size + TAG_SIZE) % 2 ^ 32)))
    (hs₀ : s₀ = (liballocAlloc s (pagesFor ((size + TAG_SIZE) % 2 ^ 32)) r).2) (hT : Scope T s₀)
    (hx : r.page * PAGE_SIZE ∈ T) (hsize : size < 2 ^ 32) :
    Finishes (allocateNewTag s size r) fun a => a.1 = r.page * PAGE_SIZE ∧
      Shows T s₀ a.2 ((view s₀).create (r.page * PAGE_SIZE) size
        (pagesFor ((size + TAG_SIZE) % 2 ^ 32) * PAGE_SIZE % 2 ^ 32)) := by
  have hpos : r.page * PAGE_SIZE ≠ 0 := by
    have hpage := hr.1
    simp only [PAGE_SIZE]
    omega
  have halloc : liballocAlloc s (pagesFor ((size + TAG_SIZE) % 2 ^ 32)) r =
      (r.page * PAGE_SIZE, s₀) := by
    rw [hs₀, liballocAlloc, if_pos hr]
  rw [allocateNewTag, halloc]
  simp only [if_neg hpos]
  refine finishes_store (Shows.refl T s₀) hT hx (by decide) fun s₁ h₁ => ?_
  refine finishes_store h₁ hT hx hsize fun s₂ h₂ => ?_
  refine finishes_store h₂ hT hx (Nat.mod_lt _ (by decide)) fun s₃ h₃ => ?_
  refine finishes_store h₃ hT hx (by decide) fun s₄ h₄ => ?_
  refine finishes_store h₄ hT hx (by decide) fun s₅ h₅ => ?_
  refine finishes_store h₅ hT hx (by decide) fun s₆ h₆ => ?_
  refine finishes_store h₆ hT hx (by decide) fun s₇ h₇ => ?_
  refine finishes_store h₇ hT hx (by decide) fun s₈ h₈ => ?_
  exact finishes_ok ⟨rfl, h₈⟩

end

end Ibnos.BoundaryTags
