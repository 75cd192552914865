import Ibnos.CanonicalPaths
import Ibnos.RepeatedSearches

/-!
What a search creates. It is found by the same path afterwards, and whatever was found
before is still found.
-/

namespace Ibnos.CreatedPaths

open Ibnos.CanonicalPaths
open Ibnos.Creations
open Ibnos.Filesystem
open Ibnos.FilesystemReleases
open Ibnos.FilesystemTrees
open Ibnos.Forests
open Ibnos.LookupReferences
open Ibnos.Lookups
open Ibnos.Programs
open Ibnos.RepeatedSearches
open Ibnos.Strings

/-- A path without zero bytes, of which no component is "..". -/
structure Plain (path : Bytes) : Prop where
  zero : 0 ∉ path
  dotdot : DOTDOT ∉ path.splitOn SLASH

/-- The names of the entries, which are different for siblings. -/
structure ProperNames (s : Store) : Prop where
  proper : ∀ x p, (shape s).parent x = some p → ∃ c, name s x = some c ∧ Proper c
  distinct : ∀ x y p, (shape s).parent x = some p → (shape s).parent y = some p →
    name s x = name s y → x = y

/-- What a path to a file means. -/
def resolveFile (s : Store) (d : Nat) (path : Bytes) : Option Nat :=
  if filePart path = [] ∨ Dots (filePart path) then none
  else (resolve s d (components (directoryPart path))).bind fun e =>
    find s (filePart path) ((shape s).children .file e)

/-- The directories along a path are entered, or created where they are missing. -/
inductive Walk : Nat → List Bytes → Store → Store → Nat → Prop
  | done (d : Nat) (s : Store) : Walk d [] s s d
  | dot {d e : Nat} {cs : List Bytes} {s s' : Store} (h : Walk d cs s s' e) :
      Walk d (DOT :: cs) s s' e
  | enter {d x e : Nat} {c : Bytes} {cs : List Bytes} {s s' : Store} (hc : Proper c)
      (hx : find s c ((shape s).children .directory d) = some x) (h : Walk x cs s s' e) :
      Walk d (c :: cs) s s' e
  | make {d e : Nat} {c : Bytes} {cs : List Bytes} {s s₂ s' : Store} (hc : Proper c)
      (hd : (shape s).kind d = some .directory) (hnew : NewName s d c)
      (hg : Grows .directory d c s s₂) (h : Walk s.fresh cs s₂ s' e) : Walk d (c :: cs) s s' e

/-- What was found in a directory is still found there. -/
def KeepsFound (s s' : Store) : Prop :=
  ∀ k q buf x, find s buf ((shape s).children k q) = some x →
    find s' buf ((shape s').children k q) = some x

section

variable {s s' s₁ s₂ : Store} {held : Nat → Nat} {d e f p x : Nat} {c path : Bytes}
  {cs : List Bytes} {after : Nat → UInt8}

theorem Plain.components (h : Plain path) : DOTDOT ∉ components path := by
  intro hmem
  exact h.dotdot (List.mem_of_mem_filter hmem)

theorem resolve_proper (hc : Proper c) : resolve s d (c :: cs) =
    (find s c ((shape s).children .directory d)).bind fun e => resolve s e cs := by
  obtain ⟨hzero, -, hne, hdot, hdotdot⟩ := hc
  rw [resolve, if_neg (by simp [hne, hdot]), if_neg hdotdot, find_eq_child hzero]
  cases child s d c with
  | none => rfl
  | some x => rfl

theorem KeepsFound.trans (h : KeepsFound s s') (h' : KeepsFound s' s₂) : KeepsFound s s₂ :=
  fun k q buf x hx => h' k q buf x (h k q buf x hx)

theorem KeepsFound.resolve_eq (h : KeepsFound s s') (hzero : ∀ c ∈ cs, 0 ∉ c) (hdots : DOTDOT ∉ cs)
    (hd : resolve s d cs = some e) : resolve s' d cs = some e := by
  induction cs generalizing d with
  | nil => exact hd
  | cons c cs ih =>
      have hzero' : ∀ b ∈ cs, 0 ∉ b := fun b hb => hzero b (List.mem_cons_of_mem _ hb)
      have hdots' : DOTDOT ∉ cs := fun hb => hdots (List.mem_cons_of_mem _ hb)
      have hne : c ≠ DOTDOT := fun hc => hdots (hc ▸ List.mem_cons_self)
      rw [resolve] at hd ⊢
      split_ifs at hd ⊢ with hskip
      · exact ih hzero' hdots' hd
      · rw [← find_eq_child (hzero c List.mem_cons_self)] at hd ⊢
        rcases hx : find s c ((shape s).children .directory d) with _ | x
        · rw [hx] at hd
          cases hd
        · rw [hx] at hd
          rw [h _ _ _ _ hx]
          exact ih hzero' hdots' hd

/-- The walk of a search which returned a directory. -/
theorem searchFrom_walk {fuel : Nat} (h : Inv s held) (hd : (shape s).kind d = some .directory)
    (hzero : 0 ∉ path) (hdots : DOTDOT ∉ components path) (hfuel : path.length < fuel)
    (hrun : searchFrom after true fuel d path s = .ok (some e, s₁)) : ∃ s',
      Walk d (components path) s s' e ∧ s₁ = count s' e (s'.refcount e + 1) := by
  induction fuel generalizing s held d path with
  | zero => omega
  | succ fuel ih =>
      have htree := Inv.tree h
      have hcomponents := components_eq path
      rcases eq_or_ne (component path) [] with hempty | hempty
      · rw [searchFrom_empty true fuel hd hempty] at hrun
        obtain ⟨rfl, rfl⟩ : d = e ∧ count s d (s.refcount d + 1) = s₁ := by simpa using hrun
        rw [hcomponents, if_pos hempty]
        exact ⟨s, .done d s, rfl⟩
      · rw [if_neg hempty] at hcomponents
        have hlt := length_rest_lt hempty
        have hfuel' : (rest path).length < fuel := by omega
        have hzero' := zero_notMem_rest hzero
        have hdots' : DOTDOT ∉ components (rest path) := by
          intro hmem
          exact hdots (hcomponents ▸ List.mem_cons_of_mem _ hmem)
        have hne : component path ≠ DOTDOT := by
          intro heq
          exact hdots (hcomponents ▸ heq ▸ List.mem_cons_self)
        have hiff := dots_iff (zero_notMem_component hzero)
        rw [hcomponents]
        rcases Classical.em (Dots (component path)) with hdot | hdot
        · have heq : component path = DOT := (hiff.mp hdot).resolve_right hne
          rw [searchFrom_dots true fuel hd hempty hdot, afterDots_dot heq] at hrun
          obtain ⟨s', hwalk, hs'⟩ := ih h hd hzero' hdots' hfuel' hrun
          rw [heq]
          exact ⟨s', .dot hwalk, hs'⟩
        · have hproper : Proper (component path) :=
            ⟨zero_notMem_component hzero, slash_notMem_component path, hempty,
              fun heq => hdot (hiff.mpr (Or.inl heq)), hne⟩
          rcases hx : find s (component path) ((shape s).children .directory d) with _ | x
          · rw [searchFrom_create h hd hempty hdot hx] at hrun
            rcases hf : find s (component path) ((shape s).children .file d) with _ | f
            · rw [if_pos hf] at hrun
              rcases Classical.em (HasMemory s) with hm | hm
              · obtain ⟨s₂, hcreate, hg⟩ :=
                  (creates_directoryCreate s held d (component path) h hd).1 hm
                have hnew : (shape s₂).kind s.fresh = some .directory := by
                  rw [hg.kind, Function.update_self]
                rw [bind_apply, hcreate] at hrun
                obtain ⟨s', hwalk, hs'⟩ := ih (inv_grows h hd hg) hnew hzero' hdots' hfuel' hrun
                refine ⟨s', .make hproper hd ?_ hg hwalk, hs'⟩
                exact ⟨slash_notMem_component path, hempty, hdot, hx, hf⟩
              · obtain ⟨a, ha⟩ := (creates_directoryCreate s held d (component path) h hd).2 hm
                rw [bind_apply, ha] at hrun
                cases hrun
            · rw [if_neg (by rw [hf]; exact nofun)] at hrun
              cases hrun
          · rw [searchFrom_some htree true fuel hd hempty hdot hx] at hrun
            obtain ⟨s', hwalk, hs'⟩ := ih h (htree.find_directory hx) hzero' hdots' hfuel' hrun
            exact ⟨s', .enter hproper hx hwalk, hs'⟩

theorem Walk.created (h : Walk d cs s s' e) : ∃ n, Created cs n s s' := by
  induction h with
  | done d s => exact ⟨0, .done s⟩
  | dot h ih =>
      obtain ⟨n, hn⟩ := ih
      exact ⟨n, hn.mono fun c hc => List.mem_cons_of_mem _ hc⟩
  | enter hc hx h ih =>
      obtain ⟨n, hn⟩ := ih
      exact ⟨n, hn.mono fun c hc => List.mem_cons_of_mem _ hc⟩
  | make hc hd hnew hg h ih =>
      obtain ⟨n, hn⟩ := ih
      exact ⟨n + 1,
        .step hd List.mem_cons_self hnew hg (hn.mono fun c hc => List.mem_cons_of_mem _ hc)⟩

theorem Walk.keepsFound (h : Walk d cs s s' e) (hs : Inv s held) : KeepsFound s s' := by
  obtain ⟨n, hn⟩ := h.created
  exact fun k q buf x hx => find_created hs hn hx

theorem Walk.kind (h : Walk d cs s s' e) (hs : Inv s held)
    (hd : (shape s).kind d = some .directory) :
    (shape s').kind e = some .directory := by
  induction h generalizing held with
  | done d s => exact hd
  | dot h ih => exact ih hs hd
  | enter hc hx h ih => exact ih hs ((Inv.tree hs).find_directory hx)
  | make hc hd hnew hg h ih =>
      apply ih (inv_grows hs hd hg)
      rw [hg.kind, Function.update_self]

/-- The directory at the end of the walk is what the path means afterwards. -/
theorem Walk.resolve_eq (h : Walk d cs s s' e) (hs : Inv s held) : resolve s' d cs = some e := by
  induction h generalizing held with
  | done d s => rfl
  | dot h ih =>
      rw [resolve, if_pos (Or.inr rfl)]
      exact ih hs
  | enter hc hx h ih =>
      rw [resolve_proper hc, h.keepsFound hs _ _ _ _ hx]
      exact ih hs
  | make hc hd hnew hg h ih =>
      have hs₂ := inv_grows hs hd hg
      rw [resolve_proper hc, h.keepsFound hs₂ _ _ _ _ (find_new hg hc.1 hs hnew.directory)]
      exact ih hs₂

/-- A new object is a directory of the path which was missing. -/
theorem Walk.missing (h : Walk d cs s s' e) (hs : Inv s held) (hx : s.objects x = none)
    (hx' : s'.objects x ≠ none) : ∃ n, resolve s d (cs.take n) = none ∧
      resolve s' d (cs.take n) = some x ∧ (shape s').kind x = some .directory := by
  induction h generalizing held with
  | done d s => exact absurd hx hx'
  | dot h ih =>
      obtain ⟨n, hnone, hsome⟩ := ih hs hx hx'
      refine ⟨n + 1, ?_⟩
      rw [List.take_succ_cons, resolve, if_pos (Or.inr rfl), resolve, if_pos (Or.inr rfl)]
      exact ⟨hnone, hsome⟩
  | enter hc hfound h ih =>
      obtain ⟨n, hnone, hsome⟩ := ih hs hx hx'
      refine ⟨n + 1, ?_⟩
      rw [List.take_succ_cons, resolve_proper hc, resolve_proper hc, hfound,
        h.keepsFound hs _ _ _ _ hfound]
      exact ⟨hnone, hsome⟩
  | @make d e c cs s s₂ s' hc hd hnew hg h ih =>
      have hs₂ := inv_grows hs hd hg
      have hfound := h.keepsFound hs₂ _ _ _ _ (find_new hg hc.1 hs hnew.directory)
      by_cases hfresh : x = s.fresh
      · subst hfresh
        refine ⟨1, ?_, ?_, ?_⟩
        · rw [List.take_succ_cons, resolve_proper hc, hnew.directory]
          rfl
        · rw [List.take_succ_cons, resolve_proper hc, hfound]
          rfl
        · have hkind : (shape s₂).kind s.fresh = some .directory := by
            rw [hg.kind, Function.update_self]
          exact (Inv.tree (h.created.choose_spec.inv hs₂).1).find_directory hfound
      · have hx₂ : s₂.objects x = none := by
          by_contra hlive
          exact ((hg.live x).mp hlive).elim hfresh fun h => h hx
        obtain ⟨n, -, hsome⟩ := ih hs₂ hx₂ hx'
        refine ⟨n + 1, ?_, ?_⟩
        · rw [List.take_succ_cons, resolve_proper hc, hnew.directory]
          rfl
        · rw [List.take_succ_cons, resolve_proper hc, hfound]
          exact hsome

/-- A new name is one which no sibling has. -/
theorem properNames_grows {k : Kind} (hs : Inv s held) (hc : NewName s p c) (hzero : 0 ∉ c)
    (hg : Grows k p c s s') (hn : ProperNames s) : ProperNames s' := by
  have hproper : Proper c := by
    have hdots := hc.dots
    rw [dots_iff hzero] at hdots
    exact ⟨hzero, hc.slash, hc.ne_nil, fun h => hdots (Or.inl h), fun h => hdots (Or.inr h)⟩
  have hnew : name s' s.fresh = some c := by rw [hg.name, Function.update_self]
  have hold : ∀ x ≠ s.fresh, name s' x = name s x := fun x hx => by
    rw [hg.name, Function.update_of_ne hx]
  have hparent : ∀ x ≠ s.fresh, (shape s').parent x = (shape s).parent x := fun x hx => by
    rw [hg.parent, Function.update_of_ne hx]
  have hfresh : (shape s').parent s.fresh = some p := by rw [hg.parent, Function.update_self]
  -- the siblings of the new entry were looked through
  have hother : ∀ y, (shape s).parent y = some p → name s y ≠ some c := by
    intro y hy heq
    obtain ⟨j, hj⟩ := kind_of_parent hy
    have hmem := (hs.forest.mem_children j p y).mpr ⟨hj, hy⟩
    have hequal : stringIsEqual (name s y) c = true := by
      rw [stringIsEqual_iff, heq, strip_of_not_mem hzero]
      exact cstring_of_not_mem hzero
    cases j with
    | file => exact Bool.false_ne_true ((find_eq_none_of_mem hc.file hmem).symm.trans hequal)
    | directory =>
        exact Bool.false_ne_true ((find_eq_none_of_mem hc.directory hmem).symm.trans hequal)
  constructor
  · intro x q hx
    by_cases hxf : x = s.fresh
    · subst hxf
      exact ⟨c, hnew, hproper⟩
    · rw [hparent x hxf] at hx
      rw [hold x hxf]
      exact hn.proper x q hx
  · intro x y q hx hy heq
    by_cases hxf : x = s.fresh
    · by_cases hyf : y = s.fresh
      · exact hxf.trans hyf.symm
      · subst hxf
        rw [hparent y hyf] at hy
        rw [hfresh] at hx
        rw [hnew, hold y hyf] at heq
        exact absurd heq.symm (hother y (hx ▸ hy))
    · by_cases hyf : y = s.fresh
      · subst hyf
        rw [hparent x hxf] at hx
        rw [hfresh] at hy
        rw [hnew, hold x hxf] at heq
        exact absurd heq (hother x (hy ▸ hx))
      · rw [hparent x hxf] at hx
        rw [hparent y hyf] at hy
        rw [hold x hxf, hold y hyf] at heq
        exact hn.distinct x y q hx hy heq

theorem Walk.properNames (h : Walk d cs s s' e) (hs : Inv s held) (hn : ProperNames s) :
    ProperNames s' := by
  induction h generalizing held with
  | done d s => exact hn
  | dot h ih => exact ih hs hn
  | enter hc hx h ih => exact ih hs hn
  | make hc hd hnew hg h ih => exact ih (inv_grows hs hd hg) (properNames_grows hs hnew hc.1 hg hn)

/-- The parts of a path to a file. -/
theorem Plain.parts (h : Plain path) (hne : filePart path ≠ []) :
    0 ∉ directoryPart path ∧ 0 ∉ filePart path ∧
      DOTDOT ∉ Strings.components (directoryPart path) := by
  have hparts : directoryPart path ++ filePart path = path := List.rdropWhile_append_rtakeWhile ..
  refine ⟨fun hmem => h.zero (hparts ▸ List.mem_append_left _ hmem),
    fun hmem => h.zero (hparts ▸ List.mem_append_right _ hmem), fun hmem => h.components ?_⟩
  rw [FilesystemRuns.components_parts hne]
  exact List.mem_append_left _ hmem

/-- A directory which the path leads to is found, and the search has a reference on it. -/
theorem searchFrom_eq {fuel : Nat} (after : Nat → UInt8) (hs : Tree s)
    (hd : (shape s).kind d = some .directory) (hzero : 0 ∉ path)
    (hdots : DOTDOT ∉ components path) (hfuel : path.length < fuel) :
    searchFrom after false fuel d path s =
      match resolve s d (components path) with
      | some e => .ok (some e, count s e (s.refcount e + 1))
      | none => .ok (none, s) := by
  have hsearch := searchFrom_false after hs hfuel hd
  rw [← lookup_eq_resolve s after d hfuel hzero hdots, hsearch]
  cases lookup s after fuel d path with
  | found e => rfl
  | missing p path' => rfl

theorem resolve_kind (hs : Tree s) (hd : (shape s).kind d = some .directory)
    (hdots : DOTDOT ∉ cs) (he : resolve s d cs = some e) : (shape s).kind e = some .directory := by
  induction cs generalizing d with
  | nil => exact Option.some.inj he ▸ hd
  | cons c cs ih =>
      have hdots' : DOTDOT ∉ cs := fun hb => hdots (List.mem_cons_of_mem _ hb)
      have hne : c ≠ DOTDOT := fun hc => hdots (hc ▸ List.mem_cons_self)
      rw [resolve] at he
      split_ifs at he with hskip
      · exact ih hd hdots' he
      · rcases hx : child s d c with _ | x
        · rw [hx] at he
          cases he
        · rw [hx] at he
          have hmem := List.mem_of_find?_eq_some hx
          exact ih ((hs.forest.mem_children .directory d x).mp hmem).1 hdots' he

/-- A search for a file which does not create anything. -/
theorem searchFile_eq (directory : Option Nat) (after : Nat → UInt8) (h : Inv s held)
    (hpos : Positive s) (hd : (shape s).kind (directory.getD s.root) = some .directory)
    (hpath : Plain path) : ∃ s', fileSystemSearchFile directory path after false s =
      .ok (resolveFile s (directory.getD s.root) path, s') := by
  have hs := Inv.tree h
  rcases eq_or_ne (filePart path) [] with hname | hname
  · rw [fileSystemSearchFile, if_pos hname, resolveFile, if_pos (Or.inl hname)]
    exact ⟨s, rfl⟩
  · obtain ⟨hzero, -, hdots⟩ := hpath.parts hname
    have hsearch : fileSystemSearchDirectory directory (directoryPart path)
        (afterDirectory path after) false s = _ :=
      searchFrom_eq (afterDirectory path after) hs hd hzero hdots (Nat.lt_add_one _)
    rw [fileSystemSearchFile, if_neg hname, bind_apply, hsearch]
    rcases he : resolve s (directory.getD s.root) (components (directoryPart path)) with _ | e
    · refine ⟨s, ?_⟩
      rw [resolveFile, he, Option.bind_none, ite_self]
      rfl
    · have hkind := resolve_kind hs hd hdots he
      have hmeans : resolveFile s (directory.getD s.root) path =
          if Dots (filePart path) then none
          else find s (filePart path) ((shape s).children .file e) := by
        rw [resolveFile, he]
        simp only [hname, false_or]
        rfl
      obtain ⟨r, s', hrun, -⟩ := searchFileIn_spec false hpos h hkind hname (filePart_slash path)
      refine ⟨s', ?_⟩
      change searchFileIn e (filePart path) false (count s e (s.refcount e + 1)) = _
      rw [hmeans, hrun]
      cases r with
      | some f =>
          obtain ⟨hdot, ⟨hf, -⟩ | ⟨-, -, hcontra, -⟩⟩ := searchFileIn_some hpos h hkind hrun
          · rw [if_neg hdot, hf]
          · cases hcontra
      | none =>
          by_cases hdot : Dots (filePart path)
          · rw [if_pos hdot]
          · rcases hf : find s (filePart path) ((shape s).children .file e) with _ | f
            · rw [if_neg hdot]
            · have hfound := searchFileIn_found false hpos hs hkind hdot hf
              cases hrun.symm.trans hfound

theorem zero_notMem_components (h : 0 ∉ path) : ∀ c ∈ components path, 0 ∉ c := by
  induction hn : path.length using Nat.strong_induction_on generalizing path with
  | _ n ih =>
      intro c hc
      rw [components_eq] at hc
      split_ifs at hc with hempty
      · cases hc
      · rcases List.mem_cons.mp hc with rfl | hc
        · exact zero_notMem_component h
        · exact ih _ (hn ▸ length_rest_lt hempty) (zero_notMem_rest h) rfl c hc

theorem resolve_count (n : Nat) : resolve (count s x n) d cs = resolve s d cs := by
  induction cs generalizing d with
  | nil => rfl
  | cons c cs ih =>
      have hchild : child (count s x n) d c = child s d c := rfl
      rw [resolve, resolve, ih, ih, hchild]
      cases child s d c with
      | none => rfl
      | some e =>
          simp only [ih]
          rfl

end

/-- A sound store with everything which was there before. -/
structure Onward (s s' : Store) : Prop where
  inv : ∃ held, Inv s' held
  positive : Positive s'
  root : s'.root = s.root
  kind : ∀ x k, (shape s).kind x = some k → (shape s').kind x = some k
  live : ∀ x, s.objects x ≠ none → s'.objects x ≠ none
  found : KeepsFound s s'

/-- Whatever a path led to, it leads to it again. -/
structure KeepsPaths (s s' : Store) : Prop where
  directory : ∀ directory path after e r, Plain path →
    (∀ d, directory = some d → (shape s).kind d = some .directory) →
    fileSystemSearchDirectory directory path after false s = .ok (some e, r) →
    ∀ after', ∃ r', fileSystemSearchDirectory directory path after' false s' = .ok (some e, r')
  file : ∀ directory path after f r, Plain path →
    (∀ d, directory = some d → (shape s).kind d = some .directory) →
    fileSystemSearchFile directory path after false s = .ok (some f, r) →
    ∀ after', ∃ r', fileSystemSearchFile directory path after' false s' = .ok (some f, r')

section

variable {s s' s₁ s₂ : Store} {held : Nat → Nat} {d e f p x : Nat} {c path : Bytes}
  {cs : List Bytes} {after : Nat → UInt8} {directory : Option Nat}

theorem Onward.trans (h : Onward s s') (h' : Onward s' s₂) : Onward s s₂ where
  inv := h'.inv
  positive := h'.positive
  root := h'.root.trans h.root
  kind x k hx := h'.kind x k (h.kind x k hx)
  live x hx := h'.live x (h.live x hx)
  found := h.found.trans h'.found

theorem onward_refl (hs : Inv s held) (hpos : Positive s) : Onward s s :=
  ⟨⟨held, hs⟩, hpos, rfl, fun _ _ h => h, fun _ h => h, fun _ _ _ _ h => h⟩

theorem onward_count (hs : Inv s held) (hpos : Positive s) (hx : s.objects x ≠ none) :
    Onward s (count s x (s.refcount x + 1)) :=
  ⟨⟨_, inv_addRef hs hx⟩, FilesystemRuns.positive_count hpos _, rfl, fun _ _ h => h, fun _ h => h,
    fun _ _ _ _ h => h⟩

theorem onward_grows {k : Kind} (hs : Inv s held) (hpos : Positive s)
    (hp : (shape s).kind p = some .directory) (hg : Grows k p c s s') : Onward s s' := by
  constructor
  · exact ⟨_, inv_grows hs hp hg⟩
  · exact positive_grows hpos hg
  · exact hg.root
  · intro x j hx
    have hne : x ≠ s.fresh := (hs.lt_fresh x (live_of_kind hx)).ne
    rw [hg.kind, Function.update_of_ne hne]
    exact hx
  · exact fun x hx => (hg.live x).mpr (Or.inr hx)
  · exact fun j q buf x hx => find_grows hs hg hx

theorem Walk.onward (h : Walk d cs s s' e) (hs : Inv s held) (hpos : Positive s) : Onward s s' := by
  induction h generalizing held with
  | done d s => exact onward_refl hs hpos
  | dot h ih => exact ih hs hpos
  | enter hc hx h ih => exact ih hs hpos
  | make hc hd hnew hg h ih =>
      apply (onward_grows hs hpos hd hg).trans
      exact ih (inv_grows hs hd hg) (positive_grows hpos hg)

theorem start_kind (hs : Inv s held)
    (hd : ∀ d, directory = some d → (shape s).kind d = some .directory) :
    (shape s).kind (directory.getD s.root) = some .directory := by
  cases directory with
  | none => exact hs.root
  | some d => exact hd d rfl

theorem Onward.start (h : Onward s s')
    (hd : (shape s).kind (directory.getD s.root) = some .directory) :
    (shape s').kind (directory.getD s'.root) = some .directory := by
  rw [h.root]
  exact h.kind _ _ hd

theorem searchDirectory_eq (after : Nat → UInt8) (hs : Inv s held)
    (hd : (shape s).kind (directory.getD s.root) = some .directory) (hpath : Plain path) :
    ∃ r, fileSystemSearchDirectory directory path after false s =
      .ok (resolve s (directory.getD s.root) (components path), r) :=
  searchFrom_resolve after (Inv.tree hs) (Nat.lt_add_one _) hd hpath.zero hpath.components

theorem KeepsFound.resolveFile_eq (h : KeepsFound s s') (hpath : Plain path)
    (hf : resolveFile s d path = some f) : resolveFile s' d path = some f := by
  rw [resolveFile] at hf ⊢
  split_ifs at hf ⊢ with hname
  obtain ⟨hzero, -, hdots⟩ := hpath.parts fun hnil => hname (Or.inl hnil)
  obtain ⟨e, he, hf⟩ := Option.bind_eq_some_iff.mp hf
  rw [h.resolve_eq (zero_notMem_components hzero) hdots he]
  exact h _ _ _ _ hf

theorem Onward.keepsPaths (h : Onward s s') (hs : Inv s held) (hpos : Positive s) :
    KeepsPaths s s' := by
  obtain ⟨held', hs'⟩ := h.inv
  constructor
  · intro directory path after e r hpath hd hrun after'
    have hstart := start_kind hs hd
    obtain ⟨_, hsearch⟩ := searchDirectory_eq after hs hstart hpath
    have he : resolve s (directory.getD s.root) (components path) = some e :=
      congrArg Prod.fst (Except.ok.inj (hsearch.symm.trans hrun))
    obtain ⟨r', hsearch'⟩ := searchDirectory_eq after' hs' (h.start hstart) hpath
    rw [h.root, h.found.resolve_eq (zero_notMem_components hpath.zero) hpath.components
      he] at hsearch'
    exact ⟨r', hsearch'⟩
  · intro directory path after f r hpath hd hrun after'
    have hstart := start_kind hs hd
    obtain ⟨_, hsearch⟩ := searchFile_eq directory after hs hpos hstart hpath
    have hf : resolveFile s (directory.getD s.root) path = some f :=
      congrArg Prod.fst (Except.ok.inj (hsearch.symm.trans hrun))
    obtain ⟨r', hsearch'⟩ := searchFile_eq directory after' hs' h.positive (h.start hstart) hpath
    rw [h.root, h.found.resolveFile_eq hpath hf] at hsearch'
    exact ⟨r', hsearch'⟩

/-- The end of a search which returned a file. -/
theorem searchFile_walk (hs : Inv s held) (hpos : Positive s)
    (hd : (shape s).kind (directory.getD s.root) = some .directory) (hpath : Plain path)
    (hrun : fileSystemSearchFile directory path after true s = .ok (some f, s₁)) : ∃ s' e,
      Walk (directory.getD s.root) (components (directoryPart path)) s s' e ∧ Onward s' s₁ ∧
        (ProperNames s' → ProperNames s₁) ∧
          (∀ x, s'.objects x = none → s₁.objects x ≠ none → x = f) ∧
        filePart path ≠ [] ∧ ¬Dots (filePart path) ∧
        find s₁ (filePart path) ((shape s₁).children .file e) = some f := by
  rcases eq_or_ne (filePart path) [] with hname | hname
  · rw [fileSystemSearchFile, if_pos hname] at hrun
    cases hrun
  · obtain ⟨hzero, hzero', hdots⟩ := hpath.parts hname
    rw [fileSystemSearchFile, if_neg hname] at hrun
    obtain ⟨r, s₂, hsearch, hrun⟩ := bind_ok.mp hrun
    cases r with
    | none => cases hrun
    | some e =>
        obtain ⟨s', hwalk, rfl⟩ := searchFrom_walk hs hd hzero hdots (Nat.lt_add_one _) hsearch
        have honward := hwalk.onward hs hpos
        obtain ⟨held', hs'⟩ := honward.inv
        have he := hwalk.kind hs hd
        obtain ⟨hdot, ⟨hf, rfl⟩ | ⟨hf, hx, -, rfl, hg⟩⟩ :=
          searchFileIn_some honward.positive hs' he hrun
        · have hlive : s'.objects f ≠ none := by
            have hmem := List.mem_of_find?_eq_some hf
            exact live_of_kind ((hs'.forest.mem_children .file e f).mp hmem).1
          exact ⟨s', e, hwalk, onward_count hs' honward.positive hlive, fun h => ⟨h.1, h.2⟩,
            fun x hx hx' => absurd hx hx', hname, hdot, hf⟩
        · have hnew : NewName s' e (filePart path) := ⟨filePart_slash path, hname, hdot, hx, hf⟩
          refine ⟨s', e, hwalk, onward_grows hs' honward.positive he hg,
            properNames_grows hs' hnew hzero' hg, ?_, hname, hdot, find_new hg hzero' hs' hf⟩
          intro x hx hx'
          exact ((hg.live x).mp hx').resolve_right fun h => h hx

end

/-- What a search did which returned `r`, where it had to look along `cs`. -/
structure Adds (s s₁ : Store) (d : Nat) (cs : List Bytes) (r : Option Nat) : Prop where
  live : ∀ x, s.objects x ≠ none → s₁.objects x ≠ none
  created : ∀ x, s.objects x = none → s₁.objects x ≠ none → r = some x ∨
    ∃ n, resolve s d (cs.take n) = none ∧ resolve s₁ d (cs.take n) = some x ∧
      (shape s₁).kind x = some .directory
  paths : KeepsPaths s s₁
  names : ProperNames s₁

section

variable {s s' s₁ : Store} {held : Nat → Nat} {d e : Nat} {path : Bytes} {cs : List Bytes}
  {after : Nat → UInt8} {directory : Option Nat} {r : Option Nat}

/-- A walk and the step behind it. -/
theorem adds_walk (hs : Inv s held) (hpos : Positive s) (hn : ProperNames s)
    (hwalk : Walk d cs s s' e) (hcs : ∀ c ∈ cs, 0 ∉ c) (hdots : DOTDOT ∉ cs) (hend : Onward s' s₁)
    (hnames : ProperNames s' → ProperNames s₁)
    (hnew : ∀ x, s'.objects x = none → s₁.objects x ≠ none → r = some x) : Adds s s₁ d cs r := by
  have honward := (hwalk.onward hs hpos).trans hend
  constructor
  · exact honward.live
  · intro x hx hx'
    by_cases hlive : s'.objects x = none
    · exact Or.inl (hnew x hlive hx')
    · obtain ⟨n, hnone, hsome, hkind⟩ := hwalk.missing hs hx hlive
      refine Or.inr ⟨n, hnone, ?_, hend.kind _ _ hkind⟩
      apply hend.found.resolve_eq _ _ hsome
      · exact fun c hc => hcs c (List.mem_of_mem_take hc)
      · exact fun hmem => hdots (List.mem_of_mem_take hmem)
  · exact honward.keepsPaths hs hpos
  · exact hnames (hwalk.properNames hs hn)

/-- What was created is found, and nothing else changed. -/
theorem created_is_found (hs : Inv s held) (hpos : Positive s) (hn : ProperNames s)
    (hdirectory : ∀ d, directory = some d → (shape s).kind d = some .directory)
    (hpath : Plain path) :
    (∀ f s₁, fileSystemSearchFile directory path after true s = .ok (some f, s₁) →
      (∀ after', ∃ s₂, fileSystemSearchFile directory path after' false s₁ = .ok (some f, s₂)) ∧
      Adds s s₁ (directory.getD s.root) (components (directoryPart path)) (some f)) ∧
    ∀ e s₁, fileSystemSearchDirectory directory path after true s = .ok (some e, s₁) →
      (∀ after', ∃ s₂, fileSystemSearchDirectory directory path after' false s₁ =
        .ok (some e, s₂)) ∧
      Adds s s₁ (directory.getD s.root) (components path) none := by
  have hd := start_kind hs hdirectory
  constructor
  · intro f s₁ hrun
    obtain ⟨s', e, hwalk, hend, hnames, hnew, hname, hdot, hf⟩ :=
      searchFile_walk hs hpos hd hpath hrun
    obtain ⟨hzero, -, hdots⟩ := hpath.parts hname
    have honward := (hwalk.onward hs hpos).trans hend
    obtain ⟨held', hs₁⟩ := honward.inv
    constructor
    · intro after'
      have hmeans : resolveFile s₁ (directory.getD s.root) path = some f := by
        rw [resolveFile, if_neg (not_or.mpr ⟨hname, hdot⟩),
          hend.found.resolve_eq (zero_notMem_components hzero) hdots (hwalk.resolve_eq hs)]
        exact hf
      obtain ⟨s₂, hsearch⟩ := searchFile_eq directory after' hs₁ honward.positive
        (honward.start hd) hpath
      rw [honward.root, hmeans] at hsearch
      exact ⟨s₂, hsearch⟩
    · apply adds_walk hs hpos hn hwalk (zero_notMem_components hzero) hdots hend hnames
      exact fun x hx hx' => congrArg some (hnew x hx hx').symm
  · intro e s₁ hrun
    obtain ⟨s', hwalk, rfl⟩ :=
      searchFrom_walk hs hd hpath.zero hpath.components (Nat.lt_add_one _) hrun
    have honward := hwalk.onward hs hpos
    obtain ⟨held', hs'⟩ := honward.inv
    have hend := onward_count hs' honward.positive (live_of_kind (hwalk.kind hs hd))
    obtain ⟨held'', hs₁⟩ := hend.inv
    constructor
    · intro after'
      obtain ⟨s₂, hsearch⟩ :=
        searchDirectory_eq after' hs₁ ((honward.trans hend).start hd) hpath
      rw [(honward.trans hend).root, resolve_count, hwalk.resolve_eq hs] at hsearch
      exact ⟨s₂, hsearch⟩
    · apply adds_walk hs hpos hn hwalk (zero_notMem_components hpath.zero) hpath.components hend
      · exact fun h => ⟨h.1, h.2⟩
      · exact fun x hx hx' => absurd hx hx'

theorem properNames_init (heap : Nat → Bool) : ProperNames (fileSystemInit heap) := by
  constructor
  · intro x p hx
    rw [parent_init] at hx
    cases hx
  · intro x y p hx
    rw [parent_init] at hx
    cases hx

/-- The file "a/b" and its directory. -/
theorem created_is_found_root : ∃ s₁,
    fileSystemSearchFile none [97, 47, 98] (fun _ => 0) true (fileSystemInit fun _ => true) =
      .ok (some 2, s₁) ∧
    (∀ after', ∃ s₂, fileSystemSearchFile none [97, 47, 98] after' false s₁ = .ok (some 2, s₂)) ∧
    Adds (fileSystemInit fun _ => true) s₁ 0 [[97]] (some 2) := by
  have hpath : Plain [97, 47, 98] := ⟨by decide, by decide⟩
  obtain ⟨s₁, hrun⟩ : ∃ s₁, fileSystemSearchFile none [97, 47, 98] (fun _ => 0) true
      (fileSystemInit fun _ => true) = .ok (some 2, s₁) := ⟨_, rfl⟩
  have hdirectory : ∀ d, none = some d →
      (shape (fileSystemInit fun _ => true)).kind d = some .directory := nofun
  have h := (created_is_found (inv_init fun _ => true) (positive_init fun _ => true)
    (properNames_init fun _ => true) hdirectory hpath).1 2 s₁ hrun
  exact ⟨s₁, hrun, h⟩

end

end Ibnos.CreatedPaths
