import Ibnos.FilesystemRuns

/-!
Names and canonical paths. The checks look at a buffer with its length, a stored
name is read up to its first zero byte; for clean names this is the same.
-/

namespace Ibnos.CanonicalPaths

open Ibnos.Creations
open Ibnos.Filesystem
open Ibnos.FilesystemReleases
open Ibnos.FilesystemRuns
open Ibnos.FilesystemTrees
open Ibnos.Forests
open Ibnos.LookupReferences
open Ibnos.Lookups
open Ibnos.Programs
open Ibnos.Runs
open Ibnos.Strings

/-- A name without slashes of which everything up to the zero bytes at its end is
read again, or nothing. -/
def Clean (c : Bytes) : Prop := cstring c = [] ∨ cstring c = strip c ∧ SLASH ∉ c

instance (c : Bytes) : Decidable (Clean c) := inferInstanceAs (Decidable (_ ∨ _))

/-- The names in a directory. -/
structure Names (s : Store) : Prop where
  valid : ∀ x p, (shape s).parent x = some p → SLASH ∉ readName (name s x) ∧
    readName (name s x) ≠ DOT ∧ readName (name s x) ≠ DOTDOT
  distinct : ∀ x y p, (shape s).parent x = some p → (shape s).parent y = some p →
    readName (name s x) = readName (name s y) → readName (name s x) ≠ [] → x = y

section

variable {s s' : Store} {c : Bytes} {x p : Nat}

theorem clean_valid (h : Clean c) (hdots : ¬Dots c) :
    SLASH ∉ cstring c ∧ cstring c ≠ DOT ∧ cstring c ≠ DOTDOT := by
  rcases h with h | ⟨h, hslash⟩
  · rw [h]
    exact ⟨List.not_mem_nil, nofun, nofun⟩
  · refine ⟨fun hmem => hslash ((List.takeWhile_sublist _).subset hmem), fun hdot => ?_,
      fun hdot => ?_⟩
    · refine hdots (Or.inl ((stringIsEqual_iff ..).mpr ?_))
      rw [← h, hdot]
      rfl
    · refine hdots (Or.inr ((stringIsEqual_iff ..).mpr ?_))
      rw [← h, hdot]
      rfl

theorem clean_distinct {n : Option Bytes} (h : Clean c) (hne : stringIsEqual n c = false)
    (hc : cstring c ≠ []) : readName n ≠ cstring c := by
  intro heq
  rcases h with h | ⟨h, -⟩
  · exact hc h
  · rw [h] at heq
    rw [(stringIsEqual_iff ..).mpr heq] at hne
    cases hne

/-- One entry has another name than before, which is none of its siblings'. -/
theorem Names.update (hn : Names s) {n : Option Bytes}
    (hparent : ∀ y q, y ≠ x → (shape s').parent y = some q → (shape s).parent y = some q)
    (hname : ∀ y, y ≠ x → name s' y = name s y) (hx : name s' x = n)
    (hvalid : ∀ p, (shape s').parent x = some p →
      SLASH ∉ readName n ∧ readName n ≠ DOT ∧ readName n ≠ DOTDOT)
    (hdistinct : ∀ p, (shape s').parent x = some p → ∀ y ≠ x, (shape s').parent y = some p →
      readName n ≠ [] → readName (name s y) ≠ readName n) : Names s' := by
  refine ⟨fun y q hy => ?_, fun y z q hy hz heq hne => ?_⟩
  · rcases eq_or_ne y x with rfl | hyx
    · rw [hx]
      exact hvalid q hy
    · rw [hname y hyx]
      exact hn.valid y q (hparent y q hyx hy)
  · rcases eq_or_ne y x with rfl | hyx
    · rcases eq_or_ne z y with rfl | hzy
      · rfl
      · rw [hx, hname z hzy] at heq
        rw [hx] at hne
        exact (hdistinct q hy z hzy hz hne heq.symm).elim
    · rcases eq_or_ne z x with rfl | hzx
      · rw [hx, hname y hyx] at heq
        rw [hname y hyx, heq] at hne
        exact (hdistinct q hz y hyx hy hne heq).elim
      · rw [hname y hyx, hname z hzx] at heq
        rw [hname y hyx] at hne
        exact hn.distinct y z q (hparent y q hyx hy) (hparent z q hzx hz) heq hne

theorem find_eq_none_of_mem {k : Kind} {y : Nat}
    (hx : find s c ((shape s).children k p) = none) (hy : y ∈ (shape s).children k p) :
    stringIsEqual (name s y) c = false := by
  rw [Bool.eq_false_iff]
  exact List.find?_eq_none.mp hx y hy

theorem names_grows {k : Kind} (hs : Tree s) (hok : Clean c) (hc : NewName s p c)
    (hg : Grows k p c s s') (hn : Names s) : Names s' := by
  have hsibling : ∀ y, (shape s).parent y = some p → stringIsEqual (name s y) c = false := by
    intro y hy
    obtain ⟨j, hj⟩ := Option.ne_none_iff_exists'.mp (hs.forest.parent y p hy).2.2
    have hmem := (hs.forest.mem_children j p y).mpr ⟨hj, hy⟩
    rcases j with _ | _
    · exact find_eq_none_of_mem hc.file hmem
    · exact find_eq_none_of_mem hc.directory hmem
  refine hn.update (x := s.fresh) (n := some c) (fun y q hy hq => ?_) (fun y hy => ?_) ?_ ?_ ?_
  · rwa [hg.parent, Function.update_of_ne hy] at hq
  · rw [hg.name, Function.update_of_ne hy]
  · rw [hg.name, Function.update_self]
  · intro q _
    exact clean_valid hok hc.dots
  · intro q hq y hy hyq hne
    rw [hg.parent, Function.update_self] at hq
    obtain rfl := Option.some.inj hq
    rw [hg.parent, Function.update_of_ne hy] at hyq
    exact clean_distinct hok (hsibling y hyq) hne

theorem names_renames {n : Option Bytes} (hok : ∀ c, n = some c → Clean c ∧ FreeName s x c)
    (hr : Renames x n s s') (hn : Names s) : Names s' := by
  refine hn.update (x := x) (n := n) (fun y q _ hq => ?_) (fun y hy => ?_) ?_ ?_ ?_
  · rwa [hr.shape] at hq
  · rw [hr.name, Function.update_of_ne hy]
  · rw [hr.name, Function.update_self]
  · intro q _
    rcases n with _ | c
    · exact ⟨List.not_mem_nil, nofun, nofun⟩
    · exact clean_valid (hok c rfl).1 (hok c rfl).2.dots
  · intro q hq y hy hyq hne
    rw [hr.shape] at hq hyq
    rcases n with _ | c
    · exact (hne rfl).elim
    · exact clean_distinct (hok c rfl).1 ((hok c rfl).2.siblings q hq y hy hyq) hne

theorem kind_of_parent (h : (shape s).parent x = some p) : ∃ k, (shape s).kind x = some k := by
  change (s.objects x).bind parentOf = _ at h
  change ∃ k, (s.objects x).bind kindOf = some k
  rcases ho : s.objects x with _ | ⟨_ | _ | _ | _⟩ <;> rw [ho] at h
  · cases h
  · exact ⟨_, rfl⟩
  · exact ⟨_, rfl⟩
  · cases h
  · cases h

theorem names_shrinks (h : Shrinks s s') (hn : Names s) : Names s' := by
  have hname : ∀ x p, (shape s').parent x = some p → name s' x = name s x := by
    intro x p hx
    obtain ⟨k, hk⟩ := kind_of_parent hx
    exact (h.entry x k hk).2
  refine ⟨fun x p hx => ?_, fun x y p hx hy heq hne => ?_⟩
  · rw [hname x p hx]
    exact hn.valid x p (h.parent x p hx)
  · rw [hname x p hx, hname y p hy] at heq
    rw [hname x p hx] at hne
    exact hn.distinct x y p (h.parent x p hx) (h.parent y p hy) heq hne

theorem names_same (h : s'.objects = s.objects) (hn : Names s) : Names s' := by
  have hshape : shape s' = shape s := by
    unfold shape
    rw [h]
  have hname : name s' = name s := by
    unfold name
    rw [h]
  refine ⟨?_, ?_⟩
  · rw [hshape, hname]
    exact hn.valid
  · rw [hshape, hname]
    exact hn.distinct

theorem names_change (h : Change Clean s s') (hn : Names s) : Names s' := by
  induction h with
  | same h => exact names_same h hn
  | shrinks h => exact names_shrinks h hn
  | grows hs hok hc hg => exact names_grows hs hok hc hg hn
  | renames hok hr => exact names_renames hok hr hn
  | trans _ _ ih ih' => exact ih' (ih hn)

/-- The names on the way from the root to an entry, none of which is empty. -/
inductive PathTo (s : Store) : Nat → List Bytes → Prop
  | root : PathTo s s.root []
  | entry {x p : Nat} {cs : List Bytes} (hp : PathTo s p cs) (hx : (shape s).parent x = some p)
      (hname : readName (name s x) ≠ []) : PathTo s x (cs ++ [readName (name s x)])

/-- The names joined by slashes. -/
def join (cs : List Bytes) : Bytes := List.intercalate [SLASH] cs

theorem readName_zero (n : Option Bytes) : 0 ∉ readName n := by
  rcases n with _ | c
  · exact List.not_mem_nil
  · exact zero_notMem_cstring c

/-- The components of canonical paths. -/
def Proper (c : Bytes) : Prop := 0 ∉ c ∧ SLASH ∉ c ∧ c ≠ [] ∧ c ≠ DOT ∧ c ≠ DOTDOT

theorem PathTo.proper (hn : Names s) {cs : List Bytes} (h : PathTo s x cs) :
    ∀ c ∈ cs, Proper c := by
  induction h with
  | root => exact fun c hc => absurd hc List.not_mem_nil
  | entry hp hx hname ih =>
      intro c hc
      rcases List.mem_append.mp hc with hc | hc
      · exact ih c hc
      · obtain rfl := List.mem_singleton.mp hc
        obtain ⟨hslash, hdot, hdotdot⟩ := hn.valid _ _ hx
        exact ⟨readName_zero _, hslash, hname, hdot, hdotdot⟩

theorem join_append {cs : List Bytes} (hcs : cs ≠ []) (c : Bytes) :
    join (cs ++ [c]) = join cs ++ SLASH :: c := by
  induction cs with
  | nil => exact (hcs rfl).elim
  | cons a cs ih =>
      rw [join, join, List.cons_append,
        List.intercalate_cons_of_ne_nil
          (List.append_ne_nil_of_right_ne_nil cs (List.cons_ne_nil c []))]
      rcases eq_or_ne cs [] with rfl | hne
      · rw [List.nil_append, List.intercalate_singleton, List.intercalate_singleton]
        simp
      · have := ih hne
        rw [join, join] at this
        rw [List.intercalate_cons_of_ne_nil hne, this]
        simp

theorem components_join {cs : List Bytes} (h : ∀ c ∈ cs, Proper c) : components (join cs) = cs := by
  rcases eq_or_ne cs [] with rfl | hne
  · rfl
  · rw [components, join, List.splitOn_intercalate SLASH (fun c hc => (h c hc).2.1) hne,
      List.filter_eq_self]
    intro c hc
    exact decide_eq_true (h c hc).2.2.1

theorem zero_notMem_join {cs : List Bytes} (h : ∀ c ∈ cs, Proper c) : 0 ∉ join cs := by
  induction cs with
  | nil => exact List.not_mem_nil
  | cons c cs ih =>
      have hc := (h c List.mem_cons_self).1
      rcases eq_or_ne cs [] with rfl | hne
      · rw [join, List.intercalate_singleton]
        exact hc
      · rw [join, List.intercalate_cons_of_ne_nil hne, List.mem_append, List.mem_append, not_or,
          not_or]
        exact ⟨⟨hc, by decide⟩, ih fun d hd => h d (List.mem_cons_of_mem c hd)⟩

theorem resolve_append (s : Store) (d : Nat) (cs : List Bytes) (c : Bytes) :
    resolve s d (cs ++ [c]) = (resolve s d cs).bind fun e => resolve s e [c] := by
  induction cs generalizing d with
  | nil => rfl
  | cons a cs ih =>
      rw [List.cons_append, resolve, resolve]
      split_ifs
      · exact ih d
      · exact ih _
      · rcases child s d a with _ | e
        · rfl
        · exact ih e

/-- An entry is the first one in its directory with its name. -/
theorem find_sibling {k : Kind} (hs : Tree s) (hn : Names s) (hx : (shape s).parent x = some p)
    (hk : (shape s).kind x = some k) (hname : readName (name s x) ≠ []) :
    ((shape s).children k p).find? (fun y => readName (name s y) = readName (name s x)) =
      some x := by
  have hmem := (hs.forest.mem_children k p x).mpr ⟨hk, hx⟩
  rcases hfind : ((shape s).children k p).find? fun y => readName (name s y) = readName (name s x)
    with _ | y
  · exact absurd (decide_eq_true rfl) (List.find?_eq_none.mp hfind x hmem)
  · have hy := (hs.forest.mem_children k p y).mp (List.mem_of_find?_eq_some hfind)
    have heq : readName (name s y) = readName (name s x) := by simpa using List.find?_some hfind
    rw [hn.distinct x y p hx hy.2 heq.symm hname]

theorem resolve_path (hs : Tree s) (hn : Names s) {cs : List Bytes} (h : PathTo s x cs)
    (hk : (shape s).kind x = some .directory) : resolve s s.root cs = some x := by
  induction h with
  | root => rfl
  | entry hp hx hname ih =>
      have hproper :=
        (PathTo.entry hp hx hname).proper hn _ (List.mem_append_right _ List.mem_cons_self)
      rw [resolve_append, ih (hs.forest.parent _ _ hx).1]
      change resolve s _ [_] = _
      rw [resolve, if_neg (fun h => h.elim hproper.2.2.1 hproper.2.2.2.1), if_neg hproper.2.2.2.2,
        child, find_sibling hs hn hx hk hname]
      rfl

theorem searchDirectory_path (hs : Tree s) (hn : Names s) {cs : List Bytes} (h : PathTo s x cs)
    (hk : (shape s).kind x = some .directory) {path : Bytes} (hzero : 0 ∉ path)
    (hpath : components path = cs) (after : Nat → UInt8) :
    fileSystemSearchDirectory none path after false s =
      .ok (some x, count s x (s.refcount x + 1)) := by
  have hproper := h.proper hn
  have hdots : DOTDOT ∉ components path := by
    rw [hpath]
    intro hmem
    exact (hproper _ hmem).2.2.2.2 rfl
  have hlookup := lookup_eq_resolve s after s.root (Nat.lt_add_one path.length) hzero hdots
  have hsearch := searchFrom_false after hs (Nat.lt_add_one path.length) hs.root
  rw [hpath, resolve_path hs hn h hk] at hlookup
  rcases hl : lookup s after (path.length + 1) s.root path with e | _
  · rw [hl] at hlookup hsearch
    obtain rfl := Option.some.inj hlookup
    exact hsearch
  · rw [hl] at hlookup
    cases hlookup

theorem filePart_join (cs : List Bytes) {c : Bytes} (hc : Proper c) :
    filePart (join (cs ++ [c])) ≠ [] := by
  obtain ⟨a, ha⟩ : ∃ a, join (cs ++ [c]) = a ++ c := by
    rcases eq_or_ne cs [] with rfl | hne
    · exact ⟨[], List.intercalate_singleton⟩
    · exact ⟨join cs ++ [SLASH], by rw [join_append hne, List.append_assoc]; rfl⟩
  rw [ha]
  intro hempty
  have hne : a ++ c ≠ [] := List.append_ne_nil_of_right_ne_nil a hc.2.2.1
  refine List.rtakeWhile_eq_nil_iff.mp hempty hne (decide_eq_true fun hslash => hc.2.1 ?_)
  rw [List.getLast_append_of_ne_nil hne hc.2.2.1] at hslash
  rw [← hslash]
  exact List.getLast_mem hc.2.2.1

theorem searchFile_path (hs : Tree s) (hpos : Positive s) (hn : Names s) {cs : List Bytes}
    (hp : PathTo s p cs) (hx : (shape s).parent x = some p) (hk : (shape s).kind x = some .file)
    (hname : readName (name s x) ≠ []) (after : Nat → UInt8) :
    fileSystemSearchFile none (join (cs ++ [readName (name s x)])) after false s =
      .ok (some x, count s x (s.refcount x + 1)) := by
  have hproper := (PathTo.entry hp hx hname).proper hn
  have hc := hproper _ (List.mem_append_right _ List.mem_cons_self)
  have hfile := filePart_join cs hc
  have hkind := (hs.forest.parent x p hx).1
  have hparts := components_parts hfile
  rw [components_join hproper] at hparts
  obtain ⟨hdirectory, hname'⟩ := List.append_inj' hparts rfl
  have hname'' := (List.cons.inj hname').1
  have hzero : 0 ∉ directoryPart (join (cs ++ [readName (name s x)])) := fun hmem =>
    zero_notMem_join hproper ((List.rdropWhile_prefix ..).subset hmem)
  have hdots : ¬Dots (readName (name s x)) := fun hdots =>
    ((dots_iff hc.1).mp hdots).elim hc.2.2.2.1 hc.2.2.2.2
  have hfind : find s (readName (name s x)) ((shape s).children .file p) = some x := by
    rw [find, ← find_sibling hs hn hx hk hname]
    congr 1
    funext y
    rw [Bool.eq_iff_iff, stringIsEqual_of_not_mem hc.1, decide_eq_true_iff]
  rw [fileSystemSearchFile, if_neg hfile, bind_apply,
    searchDirectory_path hs hn hp hkind hzero hdirectory.symm, ← hname'']
  exact searchFileIn_found false hpos hs hkind hdots hfind

/-- The file system after `fileSystemInit`. -/
def initial (heap : Nat → Bool) : State := ⟨fileSystemInit heap, fun _ => 0⟩

theorem sound_initial (heap : Nat → Bool) : Sound (initial heap).handles (initial heap).store := by
  refine ⟨fun _ => 0, inv_init heap, positive_init heap, fun x => ?_⟩
  change ((fileSystemInit heap).objects x).bind cursorOf = none
  rw [objects_init]
  split_ifs <;> rfl

theorem names_initial (heap : Nat → Bool) : Names (initial heap).store := by
  refine ⟨fun x p hx => ?_, fun x y p hx => ?_⟩
  · cases (parent_init heap x).symm.trans hx
  · cases (parent_init heap x).symm.trans hx

/-- All names which the call may store are clean. -/
def CleanCall (_ : State) (call : Call) : Prop := ∀ c ∈ newNames call, Clean c

/-- The entries which have a canonical path are found by it. -/
def Canonical (s : Store) : Prop :=
  (∀ x cs, PathTo s x cs → ∀ after,
    ((shape s).kind x = some .directory →
      ∃ s', fileSystemSearchDirectory none (join cs) after false s = .ok (some x, s')) ∧
    ((shape s).kind x = some .file →
      ∃ s', fileSystemSearchFile none (join cs) after false s = .ok (some x, s'))) ∧
  Names s

theorem canonical_of_names (hs : Tree s) (hpos : Positive s) (hn : Names s) : Canonical s := by
  refine ⟨fun x cs h after => ⟨fun hk => ?_, fun hk => ?_⟩, hn⟩
  · have hproper := h.proper hn
    exact ⟨_, searchDirectory_path hs hn h hk (zero_notMem_join hproper)
      (components_join hproper) after⟩
  · cases h with
    | root => cases hs.root.symm.trans hk
    | entry hp hx hname => exact ⟨_, searchFile_path hs hpos hn hp hx hk hname after⟩

/-- In every run whose calls store clean names only, every entry is found by its
canonical path. -/
theorem run_canonical (heap : Nat → Bool) (calls : List Call)
    (hclean : Along step CleanCall (initial heap) calls) :
    ∃ st results, run step (initial heap) calls = .ok (st, results) ∧ Canonical st.store := by
  obtain ⟨st, results, hrun, ⟨leaks, hinv, hpos, -⟩, hnames⟩ := run_along
    (I := fun st : State => Sound st.handles st.store ∧ Names st.store)
    (fun st call h hcall => by
      obtain ⟨st', r, hstep, hsound, hchange⟩ := step_sound h.1 call hcall
      exact ⟨st', r, hstep, hsound, names_change hchange h.2⟩)
    ⟨sound_initial heap, names_initial heap⟩ hclean
  exact ⟨st, results, hrun, canonical_of_names (Creations.Inv.tree hinv) hpos hnames⟩

theorem run_canonical_create :
    Along step CleanCall (initial fun _ => true) [.searchFile 0 [97] (fun _ => 0) true] ∧
    ∃ st results, run step (initial fun _ => true) [.searchFile 0 [97] (fun _ => 0) true] =
      .ok (st, results) ∧ Canonical st.store := by
  have hclean : Along step CleanCall (initial fun _ => true)
      [.searchFile 0 [97] (fun _ => 0) true] := by
    refine ⟨?_, trivial⟩
    change ∀ c ∈ components [97], Clean c
    decide
  exact ⟨hclean, run_canonical _ _ hclean⟩

/-- A file which was renamed to "x/y" is not found by this name. -/
theorem rename_slash_not_canonical : ∃ st results,
    run step (initial fun _ => true)
      [.searchFile 0 [97] (fun _ => 0) true, .write 1 [120, 47, 121]] = .ok (st, results) ∧
    PathTo st.store 1 [[120, 47, 121]] ∧ (shape st.store).kind 1 = some .file ∧
    (fileSystemSearchFile none (join [[120, 47, 121]]) (fun _ => 0) false st.store).map Prod.fst =
      .ok none ∧ ¬Canonical st.store := by
  refine ⟨_, _, rfl, ?_, rfl, rfl, ?_⟩
  · exact PathTo.entry .root rfl nofun
  · intro h
    obtain ⟨s', hs'⟩ := (h.1 1 [[120, 47, 121]] (PathTo.entry .root rfl nofun) (fun _ => 0)).2 rfl
    cases congrArg (Except.map Prod.fst) hs'

end

end Ibnos.CanonicalPaths
