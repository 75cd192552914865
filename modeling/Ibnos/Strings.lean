import Mathlib.Data.List.DropRight
import Mathlib.Data.List.TakeWhile
import Mathlib.Tactic.Common

/-!
Strings as the kernel compares them: the one side ends at its first zero byte,
the other one is a buffer with a length, of which zero bytes at the end are
ignored. A path is cut at its slashes.
-/

namespace Ibnos.Strings

abbrev Bytes := List UInt8

def SLASH : UInt8 := 47

/-- "." -/
def DOT : Bytes := [46]

/-- ".." -/
def DOTDOT : Bytes := [46, 46]

/-- The buffer without the zero bytes at its end. -/
def strip (buf : Bytes) : Bytes := buf.rdropWhile (· = 0)

/-- What is read of a nullterminated string. -/
def cstring (str : Bytes) : Bytes := str.takeWhile (· ≠ 0)

/-- The loop of `stringIsEqual`. There is a zero byte behind the string. -/
def compare : Bytes → Bytes → Bool
  | [], buf => buf.isEmpty
  | c :: _, [] => c = 0
  | c :: str, b :: buf => if c ≠ 0 ∧ c = b then compare str buf else false

def stringIsEqual (str : Option Bytes) (buf : Bytes) : Bool :=
  match str with
  | none => (strip buf).isEmpty
  | some str => compare str (strip buf)

theorem compare_iff (str buf : Bytes) : compare str buf = true ↔ cstring str = buf := by
  induction str generalizing buf with
  | nil =>
      rw [compare, List.isEmpty_iff]
      exact eq_comm
  | cons c str ih =>
      rcases buf with _ | ⟨b, buf⟩
      · rw [compare, cstring, List.takeWhile_cons]
        split_ifs with hc <;> simp_all
      · rw [compare, cstring, List.takeWhile_cons]
        split_ifs with hb hc hc
        · rw [ih, ← hb.2, List.cons_inj_right]
          rfl
        · simp_all
        · simp_all
        · simp

/-- A missing name is read as an empty one. -/
def readName (name : Option Bytes) : Bytes := (name.map cstring).getD []

theorem stringIsEqual_iff (str : Option Bytes) (buf : Bytes) :
    stringIsEqual str buf = true ↔ readName str = strip buf := by
  rcases str with _ | str
  · rw [stringIsEqual, List.isEmpty_iff]
    exact eq_comm
  · exact compare_iff str (strip buf)

theorem strip_of_not_mem {buf : Bytes} (h : 0 ∉ buf) : strip buf = buf := by
  rw [strip, List.rdropWhile_eq_self_iff]
  intro hne hlast
  exact h (of_decide_eq_true hlast ▸ List.getLast_mem hne)

theorem cstring_of_not_mem {str : Bytes} (h : 0 ∉ str) : cstring str = str := by
  rw [cstring, List.takeWhile_eq_self_iff]
  intro c hc
  exact decide_eq_true (ne_of_mem_of_not_mem hc h)

theorem zero_notMem_cstring (str : Bytes) : 0 ∉ cstring str := by
  intro h
  exact absurd (List.mem_takeWhile_imp h) (by simp)

/-- The next component of a path, behind any slashes. -/
def component (path : Bytes) : Bytes :=
  (path.dropWhile (· = SLASH)).takeWhile (· ≠ SLASH)

/-- What is left of a path behind its next component. -/
def rest (path : Bytes) : Bytes :=
  (path.dropWhile (· = SLASH)).dropWhile (· ≠ SLASH)

/-- The components of a path which are not empty. -/
def components (path : Bytes) : List Bytes := (path.splitOn SLASH).filter (· ≠ [])

theorem slash_notMem_component (path : Bytes) : SLASH ∉ component path := by
  intro h
  simpa using List.mem_takeWhile_imp h

theorem component_append_rest (path : Bytes) :
    component path ++ rest path = path.dropWhile (· = SLASH) :=
  List.takeWhile_append_dropWhile

theorem of_dropWhile_eq_cons {p : UInt8 → Bool} {l l' : Bytes} {c : UInt8}
    (h : l.dropWhile p = c :: l') : p c = false := by
  have hhead := List.head?_dropWhile_not p l
  rw [h] at hhead
  exact hhead

theorem rest_eq_nil_or (path : Bytes) : rest path = [] ∨ ∃ path', rest path = SLASH :: path' := by
  rcases h : rest path with _ | ⟨c, path'⟩
  · exact Or.inl rfl
  · have hc : c = SLASH := by simpa using of_dropWhile_eq_cons h
    exact Or.inr ⟨path', by rw [hc]⟩

theorem length_rest_lt {path : Bytes} (h : component path ≠ []) :
    (rest path).length < path.length := by
  have hlength := congrArg List.length (component_append_rest path)
  rw [List.length_append] at hlength
  have hle : (path.dropWhile (· = SLASH)).length ≤ path.length :=
    (List.dropWhile_sublist _).length_le
  have hpos := List.length_pos_iff.mpr h
  omega

theorem components_append_slash (a b : Bytes) :
    components (a ++ SLASH :: b) = components a ++ components b := by
  rw [components, components, components, List.splitOn_append_cons_self, List.filter_append]

theorem components_cons_slash (path : Bytes) : components (SLASH :: path) = components path :=
  components_append_slash [] path

theorem components_dropWhile (path : Bytes) :
    components (path.dropWhile (· = SLASH)) = components path := by
  induction path with
  | nil => rfl
  | cons c path ih =>
      rw [List.dropWhile_cons]
      split_ifs with hc
      · obtain rfl : c = SLASH := by simpa using hc
        rw [ih, components_cons_slash]
      · rfl

theorem components_of_not_mem {c : Bytes} (h : SLASH ∉ c) (hne : c ≠ []) : components c = [c] := by
  rw [components, List.splitOn_eq_singleton h]
  simp [hne]

theorem components_append {c path : Bytes} (h : SLASH ∉ c) (hne : c ≠ []) :
    components (c ++ SLASH :: path) = c :: components path := by
  rw [components_append_slash, components_of_not_mem h hne]
  rfl

theorem components_eq (path : Bytes) : components path =
    if component path = [] then [] else component path :: components (rest path) := by
  have happend := component_append_rest path
  rw [← components_dropWhile, ← happend]
  split_ifs with h
  · rcases rest_eq_nil_or path with hrest | ⟨path', hrest⟩
    · rw [h, hrest]
      rfl
    · rw [h, hrest, List.nil_append] at happend
      have := of_dropWhile_eq_cons happend.symm
      simp at this
  · have hslash := slash_notMem_component path
    rcases rest_eq_nil_or path with hrest | ⟨path', hrest⟩
    · rw [hrest, List.append_nil, components_of_not_mem hslash h]
      rfl
    · rw [hrest, components_append hslash h, components_cons_slash]

end Ibnos.Strings
