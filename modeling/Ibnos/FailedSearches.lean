import Ibnos.FilesystemRuns

/-!
Searches which return NULL although they may create. The directories which were created
before the search failed are not removed.
-/

namespace Ibnos.FailedSearches

open Ibnos.Creations
open Ibnos.Filesystem
open Ibnos.FilesystemTrees
open Ibnos.Forests
open Ibnos.LookupReferences
open Ibnos.Lookups
open Ibnos.Programs
open Ibnos.Strings

/-- All that was there is still there, with its name and in its place, and everything
which is new is a directory with a name from `cs`. -/
structure OnlyDirectories (cs : List Bytes) (s s' : Store) : Prop where
  live : ∀ x, s.objects x ≠ none → s'.objects x ≠ none
  kind : ∀ x, s.objects x ≠ none → (shape s').kind x = (shape s).kind x
  parent : ∀ x, s.objects x ≠ none → (shape s').parent x = (shape s).parent x
  name : ∀ x, s.objects x ≠ none → name s' x = name s x
  files : ∀ x, s.objects x ≠ none → (shape s').children .file x = (shape s).children .file x
  directories : ∀ x, s.objects x ≠ none →
    (shape s).children .directory x <+: (shape s').children .directory x
  new : ∀ x, s.objects x = none → s'.objects x ≠ none → (shape s').kind x = some .directory ∧
    (∃ p, (shape s').parent x = some p) ∧ ∃ c ∈ cs, FilesystemTrees.name s' x = some c

/-- What is left behind by a search which returned NULL. -/
structure Leaves (cs : List Bytes) (makes : Prop) (s s' : Store) : Prop where
  only : OnlyDirectories cs s s'
  unchanged : s'.objects = s.objects ↔ ¬makes

section

variable {s s' s'' s₁ : Store} {held : Nat → Nat} {p n : Nat} {c path : Bytes} {cs : List Bytes}
  {after : Nat → UInt8} {directory : Option Nat}

theorem onlyDirectories_of_objects (h : s'.objects = s.objects) : OnlyDirectories cs s s' := by
  have hshape : shape s' = shape s := by
    rw [shape, shape, h]
  have hname : name s' = name s := by
    funext x
    rw [name, name, h]
  constructor
  · intro x hx
    rwa [h]
  · intro x _
    rw [hshape]
  · intro x _
    rw [hshape]
  · intro x _
    rw [hname]
  · intro x _
    rw [hshape]
  · intro x _
    rw [hshape]
  · intro x hx hx'
    rw [h] at hx'
    exact absurd hx hx'

theorem OnlyDirectories.trans (h : OnlyDirectories cs s s') (h' : OnlyDirectories cs s' s'') :
    OnlyDirectories cs s s'' := by
  constructor
  · exact fun x hx => h'.live x (h.live x hx)
  · exact fun x hx => (h'.kind x (h.live x hx)).trans (h.kind x hx)
  · exact fun x hx => (h'.parent x (h.live x hx)).trans (h.parent x hx)
  · exact fun x hx => (h'.name x (h.live x hx)).trans (h.name x hx)
  · exact fun x hx => (h'.files x (h.live x hx)).trans (h.files x hx)
  · exact fun x hx => (h.directories x hx).trans (h'.directories x (h.live x hx))
  · intro x hx hx'
    by_cases hlive : s'.objects x = none
    · exact h'.new x hlive hx'
    · rw [h'.kind x hlive, h'.parent x hlive, h'.name x hlive]
      exact h.new x hx hlive

theorem onlyDirectories_grows (h : Inv s held) (hc : c ∈ cs) (hg : Grows .directory p c s s') :
    OnlyDirectories cs s s' := by
  have hne : ∀ x, s.objects x ≠ none → x ≠ s.fresh := fun x hx => (h.lt_fresh x hx).ne
  constructor
  · exact fun x hx => (hg.live x).mpr (Or.inr hx)
  · intro x hx
    rw [hg.kind, Function.update_of_ne (hne x hx)]
  · intro x hx
    rw [hg.parent, Function.update_of_ne (hne x hx)]
  · intro x hx
    rw [hg.name, Function.update_of_ne (hne x hx)]
  · intro x _
    exact hg.other .file x (fun hsame => nomatch hsame.1)
  · intro x _
    by_cases hx : x = p
    · rw [hx, hg.same]
      exact List.prefix_append _ _
    · rw [hg.other .directory x fun hsame => hx hsame.2]
  · intro x hx hx'
    obtain rfl := ((hg.live x).mp hx').resolve_right fun h => h hx
    rw [hg.kind, hg.parent, hg.name, Function.update_self, Function.update_self,
      Function.update_self]
    exact ⟨rfl, ⟨p, rfl⟩, c, hc, rfl⟩

theorem onlyDirectories_created (h : Inv s held) (hc : Created cs n s s') :
    OnlyDirectories cs s s' := by
  induction hc generalizing held with
  | done s => exact onlyDirectories_of_objects rfl
  | @alloc n s s' a _ ih =>
      have hsame : OnlyDirectories cs s { s with allocs := a } := onlyDirectories_of_objects rfl
      exact hsame.trans (ih (inv_alloc h))
  | step hp hmem _ hg _ ih => exact (onlyDirectories_grows h hmem hg).trans (ih (inv_grows h hp hg))

theorem leaves_created (h : Inv s held) {makes : Prop} (hc : Created cs n s s')
    (ho : s₁.objects = s'.objects) (hmakes : n ≠ 0 ↔ makes) : Leaves cs makes s s₁ := by
  constructor
  · exact (onlyDirectories_created h hc).trans (onlyDirectories_of_objects ho)
  · rw [← hmakes, not_not]
    constructor
    · intro hsame
      by_contra hn
      have hlive := (LookupReferences.Created.live hc s.fresh).mpr
        (Or.inr ⟨Nat.le_refl _, by omega⟩)
      rw [← ho, hsame] at hlive
      exact absurd (h.lt_fresh _ hlive) (Nat.lt_irrefl _)
    · exact fun hn => ho.trans (FilesystemRuns.Created.objects hc hn)

theorem searchFile_leaves (h : Inv s held) (hpos : Positive s)
    (hd : (shape s).kind (directory.getD s.root) = some .directory)
    (hrun : fileSystemSearchFile directory path after true s = .ok (none, s₁)) :
    Leaves (components (directoryPart path)) (MakesFor s directory path after true) s s₁ := by
  rcases eq_or_ne (filePart path) [] with hname | hname
  · rw [fileSystemSearchFile, if_pos hname] at hrun
    cases hrun
    apply leaves_created h (.done s) rfl
    simp [MakesFor, hname]
  · obtain ⟨r, s₂, s', n, hsearch, hc, hends, hmakes⟩ :=
      searchFrom_spec (afterDirectory path after) true
        (Nat.lt_add_one (directoryPart path).length) h hd
    have hsearch' : fileSystemSearchDirectory directory (directoryPart path)
        (afterDirectory path after) true s = .ok (r, s₂) := hsearch
    have hiff : n ≠ 0 ↔ MakesFor s directory path after true :=
      hmakes.trans (and_iff_right hname).symm
    rw [fileSystemSearchFile, if_neg hname, bind_apply, hsearch'] at hrun
    cases r with
    | none =>
        cases hrun
        exact leaves_created h hc (congrArg Store.objects hends) hiff
    | some e =>
        obtain ⟨he, rfl⟩ := hends
        obtain ⟨r, s₂, hfile, hends⟩ := searchFileIn_spec true (hc.positive hpos) (hc.inv h).1 he
          hname (filePart_slash path)
        obtain ⟨rfl, rfl⟩ := Prod.mk.inj (Except.ok.inj (hfile.symm.trans hrun))
        obtain ⟨a, rfl⟩ := hends
        exact leaves_created h hc rfl hiff

theorem searchDirectory_leaves (h : Inv s held)
    (hd : (shape s).kind (directory.getD s.root) = some .directory)
    (hrun : fileSystemSearchDirectory directory path after true s = .ok (none, s₁)) :
    Leaves (components path) (MakesDirectory s directory path after true) s s₁ := by
  obtain ⟨r, s₂, s', n, hsearch, hc, hends, hmakes⟩ :=
    searchFrom_spec after true (Nat.lt_add_one path.length) h hd
  obtain ⟨rfl, rfl⟩ := Prod.mk.inj (Except.ok.inj (hsearch.symm.trans hrun))
  exact leaves_created h hc (congrArg Store.objects hends) hmakes

/-- A search which returned NULL has at most created directories, and it has created
some if and only if the path led to a missing one which could be made. -/
theorem failed_search_leaves (h : Inv s held) (hpos : Positive s)
    (hdirectory : ∀ d, directory = some d → (shape s).kind d = some .directory) :
    (∀ s₁, fileSystemSearchFile directory path after true s = .ok (none, s₁) →
      Leaves (components (directoryPart path)) (MakesFor s directory path after true) s s₁) ∧
    ∀ s₁, fileSystemSearchDirectory directory path after true s = .ok (none, s₁) →
      Leaves (components path) (MakesDirectory s directory path after true) s s₁ := by
  have hd : (shape s).kind (directory.getD s.root) = some .directory := by
    cases directory with
    | none => exact h.root
    | some d => exact hdirectory d rfl
  constructor
  · exact fun s₁ hrun => searchFile_leaves h hpos hd hrun
  · exact fun s₁ hrun => searchDirectory_leaves h hd hrun

/-- The path "a/." in an empty file system, where the directory "a" is left behind. -/
theorem failed_search_leaves_root : ∃ s₁,
    fileSystemSearchFile none [97, 47, 46] (fun _ => 0) true (fileSystemInit fun _ => true) =
      .ok (none, s₁) ∧
    Leaves [[97]] (MakesFor (fileSystemInit fun _ => true) none [97, 47, 46] (fun _ => 0) true)
      (fileSystemInit fun _ => true) s₁ := by
  have hdirectory : ∀ d, none = some d →
      (shape (fileSystemInit fun _ => true)).kind d = some .directory := nofun
  obtain ⟨s₁, hrun⟩ : ∃ s₁, fileSystemSearchFile none [97, 47, 46] (fun _ => 0) true
      (fileSystemInit fun _ => true) = .ok (none, s₁) := ⟨_, rfl⟩
  exact ⟨s₁, hrun, (failed_search_leaves (inv_init fun _ => true) (positive_init fun _ => true)
    hdirectory).1 s₁ hrun⟩

theorem failed_search_changes : Inv (fileSystemInit fun _ => true) (fun _ => 0) ∧
    Positive (fileSystemInit fun _ => true) ∧ ∃ s₁,
      fileSystemSearchFile none [97, 47, 46] (fun _ => 0) true (fileSystemInit fun _ => true) =
        .ok (none, s₁) ∧
      (fileSystemInit fun _ => true).objects 1 = none ∧ name s₁ 1 = some [97] ∧
      s₁.objects ≠ (fileSystemInit fun _ => true).objects := by
  refine ⟨inv_init fun _ => true, positive_init fun _ => true, _, rfl, rfl, rfl, ?_⟩
  intro h
  cases congrFun h 1

end

end Ibnos.FailedSearches
