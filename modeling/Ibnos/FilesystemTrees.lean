import Ibnos.Filesystem
import Ibnos.Forests
import Ibnos.Tallies

/-!
The file system as a forest of files and directories. The references on an
object are those by its parent, by the root pointer, by opened files and
directories, and those which are `held` by somebody else.
-/

namespace Ibnos.FilesystemTrees

open Ibnos.Filesystem
open Ibnos.Forests
open Ibnos.Programs
open Ibnos.Strings
open Ibnos.Tallies

inductive Kind
  | file
  | directory
  deriving DecidableEq

section

variable (o : Object)

def kindOf : Option Kind :=
  match o with
  | .directory _ => some .directory
  | .file _ => some .file
  | _ => none

def parentOf : Option Nat :=
  match o with
  | .directory d => d.parent
  | .file f => f.parent
  | _ => none

def nameOf : Option Bytes :=
  match o with
  | .directory d => d.name
  | .file f => f.name
  | _ => none

def childrenOf (k : Kind) : List Nat :=
  match o, k with
  | .directory d, .file => d.files
  | .directory d, .directory => d.directories
  | _, _ => []

/-- What an opened file or directory refers to. -/
def openedOf : Option (Kind × Nat) :=
  match o with
  | .openedFile h => some (.file, h.file)
  | .openedDirectory h => some (.directory, h.directory)
  | _ => none

def cursorOf : Option Nat :=
  match o with
  | .openedDirectory h => h.pos
  | _ => none

end

def shape (s : Store) : Shape Kind where
  kind x := (s.objects x).bind kindOf
  parent x := (s.objects x).bind parentOf
  children k x := ((s.objects x).map (childrenOf · k)).getD []

def name (s : Store) (x : Nat) : Option Bytes := (s.objects x).bind nameOf

def opened (s : Store) (h : Nat) : Option (Kind × Nat) := (s.objects h).bind openedOf

def target (s : Store) (h : Nat) : Option Nat := (opened s h).map Prod.snd

def cursor (s : Store) (h : Nat) : Option Nat := (s.objects h).bind cursorOf

/-- The owners of an object. -/
noncomputable def owners (s : Store) (held : Nat → Nat) (x : Nat) : Nat :=
  (if (shape s).parent x = none then 0 else 1) + (if x = s.root then 1 else 0) +
    tally (target s) x + held x

structure Inv (s : Store) (held : Nat → Nat) : Prop where
  forest : Forest .directory (shape s)
  lt_fresh : ∀ x, s.objects x ≠ none → x < s.fresh
  root : (shape s).kind s.root = some .directory
  root_parent : (shape s).parent s.root = none
  opened : ∀ h k x, opened s h = some (k, x) → (shape s).kind x = some k
  held_live : ∀ x, 0 < held x → s.objects x ≠ none
  balanced : ∀ x, s.objects x ≠ none → s.refcount x = owners s held x

/-- No object waits for its destruction. -/
def Positive (s : Store) : Prop := ∀ x, s.objects x ≠ none → 0 < s.refcount x

def NoCursor (s : Store) : Prop := ∀ h, cursor s h = none

/-- One more reference which is held by somebody. -/
def oneMore (held : Nat → Nat) (x : Nat) : Nat → Nat := Function.update held x (held x + 1)

def put (s : Store) (x : Nat) (v : Option Object) : Store :=
  { s with objects := Function.update s.objects x v }

def count (s : Store) (x n : Nat) : Store :=
  { s with refcount := Function.update s.refcount x n }

section

variable {s : Store} {held : Nat → Nat} {x y p : Nat} {k : Kind} {v : Option Object}

theorem bind_update {α β : Type} (f : Nat → Option α) (g : α → Option β) (x : Nat) (v : Option α) :
    (fun y => (Function.update f x v y).bind g) =
      Function.update (fun y => (f y).bind g) x (v.bind g) := by
  funext y
  rcases eq_or_ne y x with rfl | hy
  · rw [Function.update_self, Function.update_self]
  · rw [Function.update_of_ne hy, Function.update_of_ne hy]

@[simp]
theorem kind_put : (shape (put s x v)).kind = Function.update (shape s).kind x (v.bind kindOf) :=
  bind_update s.objects kindOf x v

@[simp]
theorem parent_put :
    (shape (put s x v)).parent = Function.update (shape s).parent x (v.bind parentOf) :=
  bind_update s.objects parentOf x v

@[simp]
theorem children_put : (shape (put s x v)).children k =
    Function.update ((shape s).children k) x ((v.map (childrenOf · k)).getD []) := by
  funext y
  change ((Function.update s.objects x v y).map _).getD [] = _
  rcases eq_or_ne y x with rfl | hy
  · rw [Function.update_self, Function.update_self]
  · rw [Function.update_of_ne hy, Function.update_of_ne hy]
    rfl

@[simp]
theorem opened_put : opened (put s x v) = Function.update (opened s) x (v.bind openedOf) :=
  bind_update s.objects openedOf x v

@[simp]
theorem cursor_put : cursor (put s x v) = Function.update (cursor s) x (v.bind cursorOf) :=
  bind_update s.objects cursorOf x v

@[simp]
theorem name_put : name (put s x v) = Function.update (name s) x (v.bind nameOf) :=
  bind_update s.objects nameOf x v

@[simp]
theorem objects_put : (put s x v).objects = Function.update s.objects x v := rfl

@[simp]
theorem refcount_count {n : Nat} : (count s x n).refcount = Function.update s.refcount x n := rfl

theorem kind_eq {o : Object} (ho : s.objects x = some o) : (shape s).kind x = kindOf o := by
  change (s.objects x).bind kindOf = _
  rw [ho]
  rfl

theorem parent_eq {o : Object} (ho : s.objects x = some o) : (shape s).parent x = parentOf o := by
  change (s.objects x).bind parentOf = _
  rw [ho]
  rfl

theorem children_eq {o : Object} (ho : s.objects x = some o) :
    (shape s).children k x = childrenOf o k := by
  change ((s.objects x).map _).getD [] = _
  rw [ho]
  rfl

theorem opened_eq {o : Object} (ho : s.objects x = some o) : opened s x = openedOf o := by
  rw [opened, ho]
  rfl

theorem name_eq {o : Object} (ho : s.objects x = some o) : name s x = nameOf o := by
  rw [name, ho]
  rfl

theorem finitary_target (h : ∀ x, s.objects x ≠ none → x < s.fresh) : Finitary (target s) := by
  refine (Set.finite_lt_nat s.fresh).subset ?_
  intro x hx
  refine h x ?_
  intro hnone
  rw [Set.mem_ofPred_eq, target, opened, hnone] at hx
  exact hx rfl

theorem live_of_kind (h : (shape s).kind x = some k) : s.objects x ≠ none := by
  intro hnone
  change (s.objects x).bind kindOf = some k at h
  rw [hnone] at h
  cases h

theorem owners_oneMore (s : Store) (held : Nat → Nat) (x y : Nat) :
    owners s (oneMore held x) y = owners s held y + if y = x then 1 else 0 := by
  rw [owners, owners, oneMore, Function.update_apply]
  rcases eq_or_ne y x with rfl | hy
  · rw [if_pos rfl, if_pos rfl]
    omega
  · rw [if_neg hy, if_neg hy]
    rfl

theorem le_oneMore (held : Nat → Nat) (x y : Nat) : held y ≤ oneMore held x y := by
  rw [oneMore, Function.update_apply]
  split_ifs with hy
  · rw [hy]
    exact Nat.le_succ _
  · exact Nat.le_refl _

theorem oneMore_pos (held : Nat → Nat) (x : Nat) : 0 < oneMore held x x := by
  rw [oneMore, Function.update_self]
  exact Nat.succ_pos _

theorem Inv.finitary (h : Inv s held) : Finitary (target s) := finitary_target h.lt_fresh

/-- Only what is counted by `held` changes. -/
theorem Inv.count (h : Inv s held) {held' : Nat → Nat} {n : Nat}
    (hlive : ∀ y, 0 < held' y → s.objects y ≠ none)
    (hbalanced : ∀ y, s.objects y ≠ none →
      (count s x n).refcount y = owners s held' y) : Inv (count s x n) held' where
  forest := h.forest
  lt_fresh := h.lt_fresh
  root := h.root
  root_parent := h.root_parent
  opened := h.opened
  held_live := hlive
  balanced := hbalanced

theorem inv_addRef (h : Inv s held) (hx : s.objects x ≠ none) :
    Inv (count s x (s.refcount x + 1)) (oneMore held x) := by
  refine h.count ?_ ?_
  · intro y hy
    rw [oneMore, Function.update_apply] at hy
    split_ifs at hy with hyx
    · rw [hyx]
      exact hx
    · exact h.held_live y hy
  · intro y hy
    rw [owners_oneMore, FilesystemTrees.count, ← h.balanced y hy]
    split_ifs with hyx
    · rw [hyx]
      exact Function.update_self ..
    · exact Function.update_of_ne hyx ..

theorem refcount_oneMore (h : Inv s (oneMore held x)) :
    s.refcount x = owners s held x + 1 := by
  rw [h.balanced x (h.held_live x (oneMore_pos held x)), owners_oneMore, if_pos rfl]

theorem inv_decrement (h : Inv s (oneMore held x)) :
    Inv (count s x (decrement (s.refcount x))) held := by
  have hx := refcount_oneMore h
  refine h.count (fun y hy => h.held_live y (hy.trans_le (le_oneMore held x y))) ?_
  intro y hy
  have hbalanced := h.balanced y hy
  rw [owners_oneMore] at hbalanced
  rcases eq_or_ne y x with rfl | hyx
  · change Function.update s.refcount y (decrement (s.refcount y)) y = _
    rw [Function.update_self, hx, decrement, if_neg (Nat.succ_ne_zero _), Nat.add_sub_cancel]
  · rw [if_neg hyx] at hbalanced
    exact (Function.update_of_ne hyx ..).trans hbalanced

/-- Nobody owns an object whose count is zero. -/
theorem of_owners_eq_zero (h : Inv s held) (hx : s.objects x ≠ none) (hzero : s.refcount x = 0) :
    (shape s).parent x = none ∧ x ≠ s.root ∧ (∀ y, target s y ≠ some x) ∧ held x = 0 := by
  have howners := h.balanced x hx
  rw [hzero, owners] at howners
  refine ⟨?_, ?_, ne_of_tally_eq_zero h.finitary (by omega), by omega⟩
  · by_contra hparent
    rw [if_neg hparent] at howners
    omega
  · intro hroot
    rw [if_pos hroot] at howners
    omega

theorem target_put : target (put s x v) =
    Function.update (target s) x ((v.bind openedOf).map Prod.snd) := by
  funext y
  rw [target, opened_put, Function.update_apply, Function.update_apply]
  split_ifs <;> rfl

theorem live_put (hy : (put s x v).objects y ≠ none) : y = x ∨ s.objects y ≠ none := by
  rcases eq_or_ne y x with rfl | hyx
  · exact Or.inl rfl
  · exact Or.inr (by rwa [objects_put, Function.update_of_ne hyx] at hy)

theorem live_free (hy : (put s x none).objects y ≠ none) : y ≠ x ∧ s.objects y ≠ none := by
  rcases eq_or_ne y x with rfl | hyx
  · exact (hy (Function.update_self ..)).elim
  · exact ⟨hyx, by rwa [objects_put, Function.update_of_ne hyx] at hy⟩

theorem live_free_of_ne (hy : s.objects y ≠ none) (hyx : y ≠ x) :
    (put s x none).objects y ≠ none := by
  rwa [objects_put, Function.update_of_ne hyx]

theorem opened_of_kind (h : (shape s).kind x = some k) : opened s x = none := by
  change (s.objects x).bind kindOf = some k at h
  rw [opened]
  rcases ho : s.objects x with _ | ⟨_ | _ | _ | _⟩ <;> rw [ho] at h
  · rfl
  · rfl
  · rfl
  · cases h
  · cases h

theorem kind_of_opened {t : Kind × Nat} (h : opened s x = some t) :
    (shape s).kind x = none ∧ (shape s).parent x = none ∧ ∀ k, (shape s).children k x = [] := by
  rw [opened] at h
  change (s.objects x).bind kindOf = none ∧ (s.objects x).bind parentOf = none ∧
    ∀ k, ((s.objects x).map (childrenOf · k)).getD [] = []
  rcases ho : s.objects x with _ | ⟨_ | _ | _ | _⟩ <;> rw [ho] at h
  · cases h
  · cases h
  · cases h
  · exact ⟨rfl, rfl, fun k => rfl⟩
  · exact ⟨rfl, rfl, fun k => rfl⟩

/-- An entry of the tree which nobody owns and which has no children is freed. -/
theorem inv_free (h : Inv s held) (hk : (shape s).kind x = some k) (hzero : s.refcount x = 0)
    (hchildren : ∀ j, (shape s).children j x = []) : Inv (put s x none) held := by
  obtain ⟨hparent, hroot, htarget, hheld⟩ := of_owners_eq_zero h (live_of_kind hk) hzero
  have hparent' : (shape (put s x none)).parent = (shape s).parent := by
    rw [parent_put]
    exact Function.update_eq_self_iff.mpr hparent.symm
  have htarget' : target (put s x none) = target s := by
    rw [target_put]
    refine Function.update_eq_self_iff.mpr ?_
    rw [target, opened_of_kind hk]
    rfl
  refine ⟨?_, ?_, ?_, ?_, ?_, ?_, ?_⟩
  · refine h.forest.remove hparent hchildren kind_put hparent' ?_
    funext j
    rw [children_put]
    exact Function.update_eq_self_iff.mpr (hchildren j).symm
  · intro y hy
    exact h.lt_fresh y (live_free hy).2
  · rw [kind_put]
    exact (Function.update_of_ne hroot.symm ..).trans h.root
  · rw [hparent']
    exact h.root_parent
  · intro y j z hy
    rw [opened_put, Function.update_apply] at hy
    split_ifs at hy with hyx
    · cases hy
    · rw [kind_put, Function.update_of_ne]
      · exact h.opened y j z hy
      · rintro rfl
        exact htarget y (by rw [target, hy]; rfl)
  · intro y hy
    refine live_free_of_ne (h.held_live y hy) ?_
    rintro rfl
    omega
  · intro y hy
    rw [owners, hparent', htarget']
    exact h.balanced y (live_free hy).2

/-- The reference by an opened object which is freed is held by its destructor. -/
theorem inv_close (h : Inv s held) (ht : opened s x = some (k, y)) (hzero : s.refcount x = 0) :
    Inv (put s x none) (oneMore held y) := by
  have hlive : s.objects x ≠ none := by
    intro hnone
    rw [opened, hnone] at ht
    cases ht
  obtain ⟨-, hroot, htarget, hheld⟩ := of_owners_eq_zero h hlive hzero
  obtain ⟨hkind, hparent, hchildren⟩ := kind_of_opened ht
  have hkind' : (shape (put s x none)).kind = (shape s).kind := by
    rw [kind_put]
    exact Function.update_eq_self_iff.mpr hkind.symm
  have hparent' : (shape (put s x none)).parent = (shape s).parent := by
    rw [parent_put]
    exact Function.update_eq_self_iff.mpr hparent.symm
  have hyx : y ≠ x := by
    rintro rfl
    rw [h.opened y k y ht] at hkind
    cases hkind
  refine ⟨?_, ?_, ?_, ?_, ?_, ?_, ?_⟩
  · refine h.forest.congr hkind' hparent' ?_
    funext j
    rw [children_put]
    exact Function.update_eq_self_iff.mpr (hchildren j).symm
  · intro z hz
    exact h.lt_fresh z (live_free hz).2
  · rw [hkind']
    exact h.root
  · rw [hparent']
    exact h.root_parent
  · intro z j w hz
    rw [opened_put, Function.update_apply] at hz
    split_ifs at hz with hzx
    · cases hz
    · rw [hkind']
      exact h.opened z j w hz
  · intro z hz
    rw [oneMore, Function.update_apply] at hz
    split_ifs at hz with hzy
    · rw [hzy]
      exact live_free_of_ne (live_of_kind (h.opened x k y ht)) hyx
    · refine live_free_of_ne (h.held_live z hz) ?_
      rintro rfl
      omega
  · intro z hz
    have hbalanced := h.balanced z (live_free hz).2
    have htally := tally_update h.finitary x none z
    have hx : target s x = some y := by rw [target, ht]; rfl
    rw [owners_oneMore, owners, hparent', target_put]
    rw [owners] at hbalanced
    change s.refcount z = (if (shape s).parent z = none then 0 else 1) +
      (if z = s.root then 1 else 0) + tally (Function.update (target s) x none) z + held z +
        if z = y then 1 else 0
    rw [hx] at htally
    rcases eq_or_ne z y with rfl | hzy
    · rw [if_pos rfl] at htally ⊢
      simp only [reduceCtorEq, if_false] at htally
      omega
    · rw [if_neg (fun he => hzy (Option.some.inj he).symm)] at htally
      simp only [reduceCtorEq, if_false] at htally
      rw [if_neg hzy]
      omega

/-- An entry leaves its directory, and the reference by the directory is held
by the one who removes it. -/
theorem inv_unlink {s' : Store} (h : Inv s held) (hx : (shape s).parent x = some p)
    (hk : (shape s).kind x = some k) (hkind : (shape s').kind = (shape s).kind)
    (hparent : (shape s').parent = Function.update (shape s).parent x none)
    (hsame : (shape s').children k p = ((shape s).children k p).erase x)
    (hother : ∀ j q, ¬(j = k ∧ q = p) → (shape s').children j q = (shape s).children j q)
    (hopened : opened s' = opened s) (hlive : ∀ y, s'.objects y ≠ none ↔ s.objects y ≠ none)
    (hcount : s'.refcount = s.refcount) (hfresh : s'.fresh = s.fresh) (hroot : s'.root = s.root) :
    Inv s' (oneMore held x) := by
  have htarget : target s' = target s := by
    funext y
    rw [target, hopened]
    rfl
  refine ⟨?_, ?_, ?_, ?_, ?_, ?_, ?_⟩
  · refine h.forest.unlink hx hk hkind hparent (fun y => ?_) ?_ hother
    · rw [hsame, (h.forest.nodup k p).mem_erase_iff, and_comm]
    · rw [hsame]
      exact (h.forest.nodup k p).erase x
  · intro y hy
    rw [hfresh]
    exact h.lt_fresh y ((hlive y).mp hy)
  · rw [hkind, hroot]
    exact h.root
  · rw [hparent, hroot, Function.update_apply]
    split_ifs with hxr
    · rfl
    · exact h.root_parent
  · intro y j z hy
    rw [hkind]
    rw [hopened] at hy
    exact h.opened y j z hy
  · intro y hy
    rw [hlive]
    rw [oneMore, Function.update_apply] at hy
    split_ifs at hy with hyx
    · rw [hyx]
      exact live_of_kind hk
    · exact h.held_live y hy
  · intro y hy
    have hbalanced := h.balanced y ((hlive y).mp hy)
    rw [owners_oneMore, owners, hparent, htarget, hcount, hroot, Function.update_apply]
    rw [owners] at hbalanced
    rcases eq_or_ne y x with rfl | hyx
    · rw [hx, if_neg nofun] at hbalanced
      rw [if_pos rfl, if_pos rfl, if_pos rfl]
      omega
    · rw [if_neg hyx, if_neg hyx]
      omega

end

end Ibnos.FilesystemTrees
