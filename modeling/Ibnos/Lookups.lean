import Ibnos.FilesystemReleases

/-!
Walking along a path. `lookup` is what the search does as long as nothing has
to be created, `resolve` is what a path means.
-/

namespace Ibnos.Lookups

open Ibnos.Filesystem
open Ibnos.FilesystemReleases
open Ibnos.FilesystemTrees
open Ibnos.Forests
open Ibnos.Programs
open Ibnos.Strings

structure Tree (s : Store) : Prop where
  forest : Forest .directory (shape s)
  root : (shape s).kind s.root = some .directory

/-- The components which are no names. -/
def Dots (c : Bytes) : Prop := stringIsEqual (some DOT) c ∨ stringIsEqual (some DOTDOT) c

instance (c : Bytes) : Decidable (Dots c) := inferInstanceAs (Decidable (_ ∨ _))

/-- The first of some entries which has the name. -/
def find (s : Store) (buf : Bytes) (xs : List Nat) : Option Nat :=
  xs.find? fun x => stringIsEqual (name s x) buf

inductive Outcome
  | found (directory : Nat)
  | missing (directory : Nat) (path : Bytes)

/-- The directory which is searched next when a dot component was read. -/
def afterDots (s : Store) (after : Nat → UInt8) (directory : Nat) (path : Bytes) : Nat :=
  if stringIsEqual (some DOTDOT) (behind after (rest path) (component path).length) then
    ((shape s).parent directory).getD directory
  else directory

def lookup (s : Store) (after : Nat → UInt8) : Nat → Nat → Bytes → Outcome
  | 0, directory, path => .missing directory path
  | fuel + 1, directory, path =>
      if component path = [] then .found directory
      else if Dots (component path) then
        lookup s after fuel (afterDots s after directory path) (rest path)
      else
        match find s (component path) ((shape s).children .directory directory) with
        | some e => lookup s after fuel e (rest path)
        | none => .missing directory path

/-- The child directory of that name. -/
def child (s : Store) (directory : Nat) (c : Bytes) : Option Nat :=
  ((shape s).children .directory directory).find? fun x => readName (name s x) = c

/-- The usual meaning of a path which was split at its slashes. -/
def resolve (s : Store) : Nat → List Bytes → Option Nat
  | directory, [] => some directory
  | directory, c :: cs =>
      if c = [] ∨ c = DOT then resolve s directory cs
      else if c = DOTDOT then resolve s (((shape s).parent directory).getD directory) cs
      else
        match child s directory c with
        | none => none
        | some e => resolve s e cs

section

variable {s : Store} {d x : Nat} {path : Bytes} {after : Nat → UInt8}

theorem getName_eq (h : (shape s).kind x ≠ none) : getName x s = .ok (name s x, s) := by
  obtain ⟨k, hk⟩ := Option.ne_none_iff_exists'.mp h
  obtain ⟨o, ho⟩ := Option.ne_none_iff_exists'.mp (live_of_kind hk)
  rw [getName, bind_apply, getObject_eq ho, name_eq ho]
  rw [kind_eq ho] at hk
  rcases o with _ | _ | _ | _
  · rfl
  · rfl
  · cases hk
  · cases hk

theorem findName_eq (current : Option Nat) (buf : Bytes) {xs : List Nat}
    (h : ∀ x ∈ xs, (shape s).kind x ≠ none) :
    findName current buf xs s =
      .ok (xs.find? fun x => some x ≠ current ∧ stringIsEqual (name s x) buf, s) := by
  induction xs with
  | nil => rfl
  | cons x xs ih =>
      rw [findName, bind_apply, getName_eq (h x List.mem_cons_self), List.find?_cons]
      change (if some x ≠ current ∧ stringIsEqual (name s x) buf = true then _ else _ : Kernel _)
        s = _
      split_ifs with hx
      · rw [decide_eq_true hx]
        rfl
      · rw [decide_eq_false hx]
        exact ih fun y hy => h y (List.mem_cons_of_mem x hy)

theorem findName_none (buf : Bytes) {xs : List Nat} (h : ∀ x ∈ xs, (shape s).kind x ≠ none) :
    findName none buf xs s = .ok (find s buf xs, s) := by
  rw [findName_eq none buf h, find]
  simp

theorem Tree.children_live (h : Tree s) (k : Kind) (p : Nat) :
    ∀ x ∈ (shape s).children k p, (shape s).kind x ≠ none := by
  intro x hx
  rw [((h.forest.mem_children k p x).mp hx).1]
  exact nofun

theorem Tree.find_directory (h : Tree s) {buf : Bytes}
    (hx : find s buf ((shape s).children .directory d) = some x) :
    (shape s).kind x = some .directory :=
  ((h.forest.mem_children .directory d x).mp (List.mem_of_find?_eq_some hx)).1

theorem Tree.afterDots (h : Tree s) (hd : (shape s).kind d = some .directory) :
    (shape s).kind (afterDots s after d path) = some .directory := by
  rw [Lookups.afterDots]
  split_ifs
  · rcases hp : (shape s).parent d with _ | p
    · exact hd
    · exact (h.forest.parent d p hp).1
  · exact hd

theorem searchFrom_empty (create : Bool) (fuel : Nat) (hd : (shape s).kind d = some .directory)
    (hempty : component path = []) : searchFrom after create (fuel + 1) d path s =
      .ok (some d, count s d (s.refcount d + 1)) := by
  obtain ⟨o, ho⟩ := kind_eq_directory.mp hd
  rw [searchFrom, if_pos hempty, bind_apply, objectAddRef, bind_apply, getObject_eq ho]
  rfl

theorem searchFrom_dots (create : Bool) (fuel : Nat) (hd : (shape s).kind d = some .directory)
    (hne : component path ≠ []) (hdots : Dots (component path)) :
    searchFrom after create (fuel + 1) d path s =
      searchFrom after create fuel (afterDots s after d path) (rest path) s := by
  obtain ⟨o, ho⟩ := kind_eq_directory.mp hd
  have hparent : (shape s).parent d = o.parent := parent_eq ho
  rw [Dots] at hdots
  rw [searchFrom, if_neg hne, if_pos hdots, bind_apply, getDirectory_eq ho, afterDots, hparent]
  split_ifs <;> rfl

/-- A component which names a directory that exists. -/
theorem searchFrom_some (h : Tree s) (create : Bool) (fuel : Nat)
    (hd : (shape s).kind d = some .directory) (hne : component path ≠ [])
    (hdots : ¬Dots (component path))
    (hx : find s (component path) ((shape s).children .directory d) = some x) :
    searchFrom after create (fuel + 1) d path s = searchFrom after create fuel x (rest path) s := by
  obtain ⟨o, ho⟩ := kind_eq_directory.mp hd
  have hchildren : (shape s).children .directory d = o.directories := children_eq ho
  have hfind := findName_none (component path) (hchildren ▸ h.children_live .directory d)
  rw [hchildren] at hx
  rw [Dots] at hdots
  rw [searchFrom, if_neg hne, if_neg hdots, bind_apply, getDirectory_eq ho]
  change (findName none (component path) o.directories >>= _) s = _
  rw [bind_apply, hfind, hx]

theorem searchFrom_missing (h : Tree s) (fuel : Nat) (hd : (shape s).kind d = some .directory)
    (hne : component path ≠ []) (hdots : ¬Dots (component path))
    (hx : find s (component path) ((shape s).children .directory d) = none) :
    searchFrom after false (fuel + 1) d path s = .ok (none, s) := by
  obtain ⟨o, ho⟩ := kind_eq_directory.mp hd
  have hchildren : (shape s).children .directory d = o.directories := children_eq ho
  have hfind := findName_none (component path) (hchildren ▸ h.children_live .directory d)
  rw [hchildren] at hx
  rw [Dots] at hdots
  rw [searchFrom, if_neg hne, if_neg hdots, bind_apply, getDirectory_eq ho]
  change (findName none (component path) o.directories >>= _) s = _
  rw [bind_apply, hfind, hx]
  rfl

/-- A search which does not create anything. -/
theorem searchFrom_false (after : Nat → UInt8) (h : Tree s) {fuel : Nat}
    (hfuel : path.length < fuel)
    (hd : (shape s).kind d = some .directory) :
    searchFrom after false fuel d path s =
      match lookup s after fuel d path with
      | .found e => .ok (some e, count s e (s.refcount e + 1))
      | .missing _ _ => .ok (none, s) := by
  induction fuel generalizing d path with
  | zero => omega
  | succ fuel ih =>
      rw [lookup]
      split_ifs with hempty hdots
      · exact searchFrom_empty false fuel hd hempty
      · have hlt := length_rest_lt hempty
        rw [searchFrom_dots false fuel hd hempty hdots]
        exact ih (by omega) (h.afterDots hd)
      · have hlt := length_rest_lt hempty
        rcases hx : find s (component path) ((shape s).children .directory d) with _ | e
        · exact searchFrom_missing h fuel hd hempty hdots hx
        · rw [searchFrom_some h false fuel hd hempty hdots hx]
          exact ih (by omega) (h.find_directory hx)

/-- The directory which was found, if any. -/
def Outcome.directory? : Outcome → Option Nat
  | .found d => some d
  | .missing _ _ => none

theorem stringIsEqual_of_not_mem {c : Bytes} (h : 0 ∉ c) (str : Option Bytes) :
    stringIsEqual str c = true ↔ readName str = c := by
  rw [stringIsEqual_iff, strip_of_not_mem h]

theorem dots_iff {c : Bytes} (h : 0 ∉ c) : Dots c ↔ c = DOT ∨ c = DOTDOT := by
  rw [Dots, stringIsEqual_of_not_mem h, stringIsEqual_of_not_mem h]
  exact or_congr eq_comm eq_comm

theorem length_behind (after : Nat → UInt8) (path : Bytes) (n : Nat) :
    (behind after path n).length = n := by
  rw [behind, List.length_append, List.length_take, List.length_map, List.length_range]
  omega

theorem length_strip_le (buf : Bytes) : (strip buf).length ≤ buf.length :=
  (List.rdropWhile_prefix _ buf).length_le

theorem afterDots_dot (hdot : component path = DOT) : afterDots s after d path = d := by
  rw [afterDots, if_neg]
  rw [stringIsEqual_iff, hdot]
  intro heq
  have hle := length_strip_le (behind after (rest path) DOT.length)
  rw [← heq, length_behind] at hle
  exact absurd hle (by decide)

theorem find_eq_child {c : Bytes} (h : 0 ∉ c) :
    find s c ((shape s).children .directory d) = child s d c := by
  rw [find, child]
  congr 1
  funext x
  rw [Bool.eq_iff_iff, stringIsEqual_of_not_mem h, decide_eq_true_iff]

theorem zero_notMem_component (h : 0 ∉ path) : 0 ∉ component path := by
  intro hmem
  refine h ((List.dropWhile_sublist (· = SLASH)).subset ?_)
  exact (List.takeWhile_sublist _).subset hmem

theorem zero_notMem_rest (h : 0 ∉ path) : 0 ∉ rest path := by
  intro hmem
  refine h ((List.dropWhile_sublist (· = SLASH)).subset ?_)
  exact (List.dropWhile_sublist _).subset hmem

theorem lookup_eq_resolve (s : Store) (after : Nat → UInt8) (d : Nat) {fuel : Nat}
    (hfuel : path.length < fuel) (hzero : 0 ∉ path)
    (hdots : DOTDOT ∉ components path) :
    (lookup s after fuel d path).directory? = resolve s d (components path) := by
  induction fuel generalizing d path with
  | zero => omega
  | succ fuel ih =>
      rw [components_eq] at hdots ⊢
      rw [lookup]
      rcases eq_or_ne (component path) [] with hempty | hempty
      · rw [if_pos hempty, if_pos hempty]
        rfl
      · have hlt := length_rest_lt hempty
        have hc := zero_notMem_component hzero
        rw [if_neg hempty] at hdots
        rw [if_neg hempty, if_neg hempty, resolve]
        obtain ⟨hdotdot, hdots⟩ := not_or.mp (List.mem_cons.not.mp hdots)
        have ih' := fun e => ih e (by omega : (rest path).length < fuel)
          (zero_notMem_rest hzero) hdots
        rcases eq_or_ne (component path) DOT with hdot | hdot
        · rw [if_pos ((dots_iff hc).mpr (Or.inl hdot)), if_pos (Or.inr hdot), afterDots_dot hdot]
          exact ih' d
        · rw [if_neg (fun h => ((dots_iff hc).mp h).elim hdot (Ne.symm hdotdot)),
            if_neg (fun h => h.elim hempty hdot), if_neg (Ne.symm hdotdot), find_eq_child hc]
          rcases child s d (component path) with _ | e
          · rfl
          · exact ih' e

/-- A search which does not create anything finds what the path means. -/
theorem searchFrom_resolve (after : Nat → UInt8) (h : Tree s) {fuel : Nat}
    (hfuel : path.length < fuel)
    (hd : (shape s).kind d = some .directory) (hzero : 0 ∉ path)
    (hdots : DOTDOT ∉ components path) :
    ∃ s', searchFrom after false fuel d path s = .ok (resolve s d (components path), s') := by
  have hsearch := searchFrom_false after h hfuel hd
  rw [← lookup_eq_resolve s after _ hfuel hzero hdots]
  rcases hl : lookup s after fuel d path with e | _
  · rw [hl] at hsearch
    exact ⟨_, hsearch⟩
  · rw [hl] at hsearch
    exact ⟨_, hsearch⟩

section

variable (depth : Nat) (names : List Bytes)

/-- A chain of directories, the last of which have names. -/
def chain : Store where
  objects i :=
    if i ≤ depth + names.length then
      some (.directory {
        parent := if i = 0 then none else some (i - 1)
        name := if i ≤ depth then none else names[i - depth - 1]?
        directories := if i < depth + names.length then [i + 1] else [] })
    else none
  refcount _ := 1
  fresh := depth + names.length + 1
  root := 0
  heap _ := true
  allocs := 0

end

end

end Ibnos.Lookups
