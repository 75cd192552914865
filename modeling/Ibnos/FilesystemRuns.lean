import Ibnos.LookupReferences
import Ibnos.Runs

/-!
Runs of system calls on the file system. The handles of all processes are counted
per object; an object can only be named through a handle.
-/

namespace Ibnos.FilesystemRuns

open Ibnos.Creations
open Ibnos.Filesystem
open Ibnos.FilesystemReleases
open Ibnos.FilesystemTrees
open Ibnos.Forests
open Ibnos.LookupReferences
open Ibnos.Lookups
open Ibnos.Programs
open Ibnos.Strings

structure State where
  store : Store
  handles : Nat → Nat

inductive Call
  | searchFile (x : Nat) (path : Bytes) (after : Nat → UInt8) (create : Bool)
  | searchDirectory (x : Nat) (path : Bytes) (after : Nat → UInt8) (create : Bool)
  | write (x : Nat) (buf : Bytes)
  | shutdown (x : Nat)
  | dup (x : Nat)
  | close (x : Nat)

/-- The object behind a handle, if there is such a handle. -/
def handleGet (st : State) (x : Nat) : Option Nat := if 0 < st.handles x then some x else none

/-- The handles after one was allocated for the result of a call. -/
def withHandle (handles : Nat → Nat) (r : Option Nat) : Nat → Nat :=
  match r with
  | none => handles
  | some x => oneMore handles x

/-- A call which returns a reference, for which a handle is allocated. -/
def newHandle (st : State) (m : Kernel (Option Nat)) : Except Fault (State × Option Nat) := do
  let (r, s) ← m st.store
  return (⟨s, withHandle st.handles r⟩, r)

/-- A call on the object behind a handle. -/
def onHandle (st : State) (x : Nat) (m : Kernel Unit) : Except Fault (State × Option Nat) :=
  match handleGet st x with
  | none => .ok (st, none)
  | some _ => do
      let (_, s) ← m st.store
      return (⟨s, st.handles⟩, none)

def step (st : State) : Call → Except Fault (State × Option Nat)
  | .searchFile x path after create => newHandle st do
      let d ← fileSystemIsValidDirectory (handleGet st x)
      fileSystemSearchFile d path after create
  | .searchDirectory x path after create => newHandle st do
      let d ← fileSystemIsValidDirectory (handleGet st x)
      fileSystemSearchDirectory d path after create
  | .write x buf => onHandle st x (objectWrite x buf)
  | .shutdown x => onHandle st x (objectShutdown x)
  | .dup x => do
      let (st', _) ← onHandle st x (objectAddRef x)
      return ({ st' with handles := withHandle st.handles (handleGet st x) }, none)
  | .close x => do
      let (st', _) ← onHandle st x (objectRelease x)
      return ({ st' with handles := Function.update st.handles x (st.handles x - 1) }, none)

/-- Every reference has an owner, apart from those which lookups have left behind. -/
def Sound (handles : Nat → Nat) (s : Store) : Prop :=
  ∃ leaks : Nat → Nat, Inv s (fun x => handles x + leaks x) ∧ Positive s ∧ NoCursor s

/-- An object gets another name, or loses it. -/
structure Renames (x : Nat) (n : Option Bytes) (s s' : Store) : Prop where
  shape : shape s' = shape s
  name : name s' = Function.update (name s) x n
  opened : opened s' = opened s
  cursor : cursor s' = cursor s
  live : ∀ y, s'.objects y ≠ none ↔ s.objects y ≠ none
  refcount : s'.refcount = s.refcount
  fresh : s'.fresh = s.fresh
  root : s'.root = s.root

/-- The name passes the checks of `__isValidFilename`. -/
structure FreeName (s : Store) (x : Nat) (c : Bytes) : Prop where
  dots : ¬Dots c
  siblings : ∀ p, (shape s).parent x = some p → ∀ y ≠ x, (shape s).parent y = some p →
    stringIsEqual (FilesystemTrees.name s y) c = false

/-- What a call does to the tree, where all names which it stores are `ok`. -/
inductive Change (ok : Bytes → Prop) : Store → Store → Prop
  | same {s s' : Store} (h : s'.objects = s.objects) : Change ok s s'
  | shrinks {s s' : Store} (h : Shrinks s s') : Change ok s s'
  | grows {s s' : Store} {k : Kind} {p : Nat} {c : Bytes} (hs : Tree s) (hok : ok c)
      (hc : NewName s p c) (hg : Grows k p c s s') : Change ok s s'
  | renames {s s' : Store} {x : Nat} {n : Option Bytes}
      (hn : ∀ c, n = some c → ok c ∧ FreeName s x c) (hr : Renames x n s s') : Change ok s s'
  | trans {s s' s'' : Store} (h : Change ok s s') (h' : Change ok s' s'') : Change ok s s''

section

variable {s s' s₁ : Store} {held : Nat → Nat} {x y : Nat} {ok : Bytes → Prop}

theorem inv_renames {n : Option Bytes} (h : Inv s held) (hr : Renames x n s s') :
    Inv s' held := by
  have htarget : target s' = target s := by
    funext y
    rw [target, hr.opened]
    rfl
  refine ⟨?_, ?_, ?_, ?_, ?_, ?_, ?_⟩
  · rw [hr.shape]
    exact h.forest
  · intro y hy
    rw [hr.fresh]
    exact h.lt_fresh y ((hr.live y).mp hy)
  · rw [hr.shape, hr.root]
    exact h.root
  · rw [hr.shape, hr.root]
    exact h.root_parent
  · intro y k z hy
    rw [hr.opened] at hy
    rw [hr.shape]
    exact h.opened y k z hy
  · intro y hy
    exact (hr.live y).mpr (h.held_live y hy)
  · intro y hy
    rw [owners, hr.shape, hr.root, htarget, hr.refcount]
    exact h.balanced y ((hr.live y).mp hy)

theorem noCursor_of_eq (h : NoCursor s) (hc : cursor s' = cursor s) : NoCursor s' := by
  intro y
  rw [hc]
  exact h y

theorem noCursor_created {cs : List Bytes} {n : Nat} (h : NoCursor s) (hc : Created cs n s s') :
    NoCursor s' :=
  hc.induction (P := fun _ => NoCursor) (m := 0) (fun _ _ _ h => h)
    (fun _ _ _ _ _ h _ _ _ hg => noCursor_of_eq h hg.cursor) h

theorem change_created {cs : List Bytes} {n : Nat} (h : Inv s held)
    (hc : Created cs n s s') (hok : ∀ c ∈ cs, ok c) : Change ok s s' := by
  induction hc generalizing held with
  | done s => exact .same rfl
  | alloc a _ ih =>
      refine .trans ?_ (ih (inv_alloc h))
      exact .same rfl
  | step hp hmem hc hg _ ih =>
      exact .trans (.grows (Creations.Inv.tree h) (hok _ hmem) hc hg) (ih (inv_grows h hp hg))

theorem positive_count (h : Positive s) (n : Nat) : Positive (count s x (n + 1)) := by
  intro y hy
  rw [refcount_count, Function.update_apply]
  split_ifs
  · exact Nat.succ_pos n
  · exact h y hy

theorem oneMore_add (held leaks : Nat → Nat) (x : Nat) :
    oneMore (fun y => held y + leaks y) x = fun y => oneMore held x y + leaks y := by
  funext y
  simp only [oneMore, Function.update_apply]
  split_ifs with hy
  · rw [hy]
    omega
  · rfl

theorem leaked_add (held leaks : Nat → Nat) (a n : Nat) :
    leaked (fun x => held x + leaks x) a n = fun x => held x + leaked leaks a n x := by
  funext x
  simp only [leaked]
  omega

theorem Created.objects {cs : List Bytes} {n : Nat} (hc : Created cs n s s') (hn : n = 0) :
    s'.objects = s.objects := by
  induction hc with
  | done s => rfl
  | alloc a _ ih => exact ih hn
  | step _ _ _ _ _ _ => exact absurd hn (Nat.succ_ne_zero _)

theorem sound_created {cs : List Bytes} {n : Nat} (h : Sound held s) (hc : Created cs n s s') :
    Sound held s' := by
  obtain ⟨leaks, hinv, hpos, hcursor⟩ := h
  refine ⟨leaked leaks s.fresh n, ?_, hc.positive hpos, noCursor_created hcursor hc⟩
  rw [← leaked_add]
  exact (hc.inv hinv).1

theorem sound_addRef (h : Sound held s) (hx : s.objects x ≠ none) :
    Sound (oneMore held x) (count s x (s.refcount x + 1)) := by
  obtain ⟨leaks, hinv, hpos, hcursor⟩ := h
  refine ⟨leaks, ?_, positive_count hpos _, hcursor⟩
  rw [← oneMore_add]
  exact inv_addRef hinv hx

theorem sound_grows {k : Kind} {p : Nat} {c : Bytes} (h : Sound held s)
    (hp : (shape s).kind p = some .directory) (hg : Grows k p c s s') :
    Sound (oneMore held s.fresh) s' := by
  obtain ⟨leaks, hinv, hpos, hcursor⟩ := h
  refine ⟨leaks, ?_, positive_grows hpos hg, noCursor_of_eq hcursor hg.cursor⟩
  rw [← oneMore_add]
  exact inv_grows hinv hp hg

theorem makes_create {after : Nat → UInt8} {create : Bool} {fuel d : Nat} {path : Bytes}
    (h : Makes s after create fuel d path) : create = true := by
  rw [Makes] at h
  split at h
  · exact h.elim
  · exact h.1

/-- The directories which a search creates. -/
theorem change_searched {after : Nat → UInt8} {create : Bool} {fuel d n : Nat} {path : Bytes}
    (h : Sound held s) (hc : Created (components path) n s s')
    (hmakes : n ≠ 0 ↔ Makes s after create fuel d path)
    (hok : create = true → ∀ c ∈ components path, ok c) : Change ok s s' := by
  obtain ⟨leaks, hinv, -⟩ := h
  rcases eq_or_ne n 0 with hn | hn
  · exact .same (Created.objects hc hn)
  · exact change_created hinv hc (hok (makes_create (hmakes.mp hn)))

theorem fileSystemSearchDirectory_sound {directory : Option Nat} (path : Bytes)
    (after : Nat → UInt8) (create : Bool) (h : Sound held s)
    (hstart : (shape s).kind (directory.getD s.root) = some .directory)
    (hok : create = true → ∀ c ∈ components path, ok c) :
    ∃ r s', fileSystemSearchDirectory directory path after create s = .ok (r, s') ∧
      Sound (withHandle held r) s' ∧ Change ok s s' := by
  obtain ⟨leaks, hinv, -⟩ := id h
  obtain ⟨r, s₁, s', n, hsearch, hc, hends, hmakes⟩ :=
    searchFrom_spec after create (Nat.lt_add_one path.length) hinv hstart
  have hs' := sound_created h hc
  have hchange := change_searched h hc hmakes hok
  refine ⟨r, s₁, hsearch, ?_⟩
  rcases r with _ | e
  · rw [show s₁ = s' from hends]
    exact ⟨hs', hchange⟩
  · rw [hends.2]
    exact ⟨sound_addRef hs' (live_of_kind hends.1), hchange.trans (.same rfl)⟩

theorem sound_alloc (h : Sound held s) (a : Nat) : Sound held { s with allocs := a } := by
  obtain ⟨leaks, hinv, hpos, hcursor⟩ := h
  exact ⟨leaks, inv_alloc hinv, hpos, hcursor⟩

theorem components_parts {path : Bytes} (h : filePart path ≠ []) :
    components path = components (directoryPart path) ++ [filePart path] := by
  have happend : directoryPart path ++ filePart path = path :=
    List.rdropWhile_append_rtakeWhile ..
  have hfile := components_of_not_mem (filePart_slash path) h
  rcases eq_or_ne (directoryPart path) [] with hempty | hne
  · rw [hempty, List.nil_append] at happend
    rw [hempty]
    nth_rewrite 1 [← happend]
    exact hfile
  · have hlast : (directoryPart path).getLast hne = SLASH := by
      have hnot := List.rdropWhile_last_not (· ≠ SLASH) path hne
      exact not_not.mp fun h => hnot (decide_eq_true h)
    have hparts : directoryPart path = (directoryPart path).dropLast ++ [SLASH] := by
      rw [← hlast, List.dropLast_append_getLast]
    have hpath : path = (directoryPart path).dropLast ++ SLASH :: filePart path := by
      rw [List.append_cons, ← hparts, happend]
    have hdirectory : components (directoryPart path) =
      components (directoryPart path).dropLast := by
      rw [hparts, components_append_slash, ← hparts]
      exact List.append_nil _
    calc components path = components ((directoryPart path).dropLast ++ SLASH :: filePart path) :=
          congrArg components hpath
      _ = components (directoryPart path).dropLast ++ components (filePart path) :=
          components_append_slash ..
      _ = components (directoryPart path) ++ [filePart path] := by rw [hfile, hdirectory]

theorem fileSystemSearchFile_sound {directory : Option Nat} (path : Bytes) (after : Nat → UInt8)
    (create : Bool) (h : Sound held s)
    (hstart : (shape s).kind (directory.getD s.root) = some .directory)
    (hok : create = true → ∀ c ∈ components path, ok c) :
    ∃ r s', fileSystemSearchFile directory path after create s = .ok (r, s') ∧
      Sound (withHandle held r) s' ∧ Change ok s s' := by
  rw [fileSystemSearchFile]
  rcases eq_or_ne (filePart path) [] with hname | hname
  · rw [if_pos hname]
    exact ⟨none, s, rfl, h, .same rfl⟩
  · have hparts := components_parts hname
    rw [if_neg hname]
    obtain ⟨leaks, hinv, -⟩ := id h
    obtain ⟨r, s₁, s', n, hsearch, hc, hends, hmakes⟩ :=
      searchFrom_spec (afterDirectory path after) create
        (Nat.lt_add_one (directoryPart path).length) hinv hstart
    have hsearch' : fileSystemSearchDirectory directory (directoryPart path)
        (afterDirectory path after) create s = .ok (r, s₁) := hsearch
    have hs' := sound_created h hc
    have hchange := change_searched h hc hmakes fun hcreate c hmem =>
      hok hcreate c (hparts ▸ List.mem_append_left _ hmem)
    rw [bind_apply, hsearch']
    rcases r with _ | e
    · rw [show s₁ = s' from hends]
      exact ⟨none, s', rfl, hs', hchange⟩
    · obtain ⟨he, rfl⟩ := hends
      obtain ⟨leaks', hinv', hpos', -⟩ := id hs'
      obtain ⟨r, s₂, hfile, hends⟩ := searchFileIn_spec create hpos' hinv' he hname
        (filePart_slash path)
      refine ⟨r, s₂, hfile, ?_⟩
      rcases r with _ | f
      · obtain ⟨a, rfl⟩ := hends
        exact ⟨sound_alloc hs' a, hchange.trans (.same rfl)⟩
      · rcases hends with ⟨hf, rfl⟩ | ⟨rfl, hcreate, p, hp, hnew, hg⟩
        · exact ⟨sound_addRef hs' (live_of_kind hf), hchange.trans (.same rfl)⟩
        · refine ⟨sound_grows hs' hp hg, hchange.trans ?_⟩
          refine .grows (Creations.Inv.tree hinv') (hok hcreate _ ?_) hnew hg
          rw [hparts]
          exact List.mem_append_right _ List.mem_cons_self

theorem findName_current {xs : List Nat} (x : Nat) (buf : Bytes)
    (h : ∀ y ∈ xs, (shape s).kind y ≠ none) : ∃ r, findName x buf xs s = .ok (r, s) ∧
      (r = none → ∀ y ∈ xs, y ≠ x → stringIsEqual (name s y) buf = false) := by
  refine ⟨_, findName_eq x buf h, fun hr y hy hne => ?_⟩
  have hnot := List.find?_eq_none.mp hr y hy
  rw [decide_eq_true_eq] at hnot
  rw [Bool.eq_false_iff]
  intro heq
  exact hnot ⟨fun hyx => hne (Option.some.inj hyx), heq⟩

theorem isValidFilename_spec (h : Tree s) (x : Nat) (buf : Bytes) :
    ∃ b, isValidFilename x ((shape s).parent x) buf s = .ok (b, s) ∧
      (b = true → FreeName s x buf) := by
  rw [isValidFilename.eq_def]
  rcases Classical.em (Dots buf) with hdots | hdots
  · rw [Dots] at hdots
    rw [if_pos hdots]
    exact ⟨false, rfl, by simp⟩
  · have hdots' := hdots
    rw [Dots] at hdots'
    rw [if_neg hdots']
    rcases hp : (shape s).parent x with _ | p
    · refine ⟨true, rfl, fun _ => ⟨hdots, fun p hp' => ?_⟩⟩
      cases hp.symm.trans hp'
    · obtain ⟨d, hd⟩ := kind_eq_directory.mp (h.forest.parent x p hp).1
      have hfiles : (shape s).children .file p = d.files := children_eq hd
      have hdirectories : (shape s).children .directory p = d.directories := children_eq hd
      obtain ⟨r, hr, hnone⟩ := findName_current x buf (hfiles ▸ h.children_live .file p)
      obtain ⟨r', hr', hnone'⟩ :=
        findName_current x buf (hdirectories ▸ h.children_live .directory p)
      change ∃ b, (getDirectory p >>= _) s = _ ∧ _
      rw [bind_apply, getDirectory_eq hd]
      change ∃ b, (findName x buf d.files >>= _) s = _ ∧ _
      rw [bind_apply, hr]
      rcases r with _ | f
      · change ∃ b, (findName x buf d.directories >>= _) s = _ ∧ _
        rw [bind_apply, hr']
        rcases r' with _ | e
        · refine ⟨true, rfl, fun _ => ⟨hdots, fun q hq y hy hyq => ?_⟩⟩
          obtain rfl : q = p := Option.some.inj (hq.symm.trans hp)
          obtain ⟨k, hk⟩ := Option.ne_none_iff_exists'.mp (h.forest.parent y q hyq).2.2
          have hmem := (h.forest.mem_children k q y).mpr ⟨hk, hyq⟩
          rcases k with _ | _
          · exact hnone rfl y (hfiles ▸ hmem) hy
          · exact hnone' rfl y (hdirectories ▸ hmem) hy
        · exact ⟨false, rfl, by simp⟩
      · exact ⟨false, rfl, by simp⟩

/-- The object of an entry for each name which it may have. -/
structure Named (o : Option Bytes → Object) (n₀ : Option Bytes) : Prop where
  name : ∀ n, nameOf (o n) = n
  kind : ∀ n, kindOf (o n) = kindOf (o n₀)
  parent : ∀ n, parentOf (o n) = parentOf (o n₀)
  children : ∀ n k, childrenOf (o n) k = childrenOf (o n₀) k
  opened : ∀ n, openedOf (o n) = openedOf (o n₀)
  cursor : ∀ n, cursorOf (o n) = cursorOf (o n₀)

theorem renames_put {o : Option Bytes → Object} {n₀ : Option Bytes} (ho : Named o n₀)
    (hx : s.objects x = some (o n₀)) (n : Option Bytes) (a : Nat) :
    Renames x n s { put s x (some (o n)) with allocs := a } := by
  have hshape : shape { put s x (some (o n)) with allocs := a } = shape (put s x (some (o n))) :=
    rfl
  refine ⟨?_, ?_, ?_, ?_, ?_, rfl, rfl, rfl⟩
  · have hkind : (shape (put s x (some (o n)))).kind = (shape s).kind := by
      rw [kind_put]
      exact Function.update_eq_self_iff.mpr ((ho.kind n).trans (kind_eq hx).symm)
    have hparent : (shape (put s x (some (o n)))).parent = (shape s).parent := by
      rw [parent_put]
      exact Function.update_eq_self_iff.mpr ((ho.parent n).trans (parent_eq hx).symm)
    have hchildren : (shape (put s x (some (o n)))).children = (shape s).children := by
      funext k
      rw [children_put]
      exact Function.update_eq_self_iff.mpr ((ho.children n k).trans (children_eq hx).symm)
    rw [hshape]
    exact Shape.ext hkind hparent hchildren
  · change name (put s x (some (o n))) = _
    rw [name_put]
    congr 1
    exact ho.name n
  · change opened (put s x (some (o n))) = _
    rw [opened_put]
    exact Function.update_eq_self_iff.mpr ((ho.opened n).trans (opened_eq hx).symm)
  · change cursor (put s x (some (o n))) = _
    rw [cursor_put]
    refine Function.update_eq_self_iff.mpr ((ho.cursor n).trans ?_)
    rw [cursor, hx]
    rfl
  · intro y
    change Function.update s.objects x _ y ≠ none ↔ _
    rw [Function.update_apply]
    split_ifs with hy
    · rw [hy, hx]
      exact iff_of_true (by simp) (by simp)
    · rfl

/-- An entry keeps its name, or it gets one which is valid, or none. -/
theorem rename_spec (o : Option Bytes → Object) (n₀ : Option Bytes) (h : Tree s) (ho : Named o n₀)
    (hx : s.objects x = some (o n₀)) (buf : Bytes) : ∃ r s',
    rename x ((shape s).parent x) (fun n => setObject x (o n)) buf s = .ok (r, s') ∧
      (s' = s ∨ ∃ n, Renames x n s s' ∧ ∀ c, n = some c → c = strip buf ∧ FreeName s x c) := by
  have hnone : ∀ a, ∃ n, Renames x n s { put s x (some (o none)) with allocs := a } ∧
      ∀ c, n = some c → c = strip buf ∧ FreeName s x c :=
    fun a => ⟨none, renames_put ho hx none a, nofun⟩
  rw [rename]
  rcases eq_or_ne (strip buf) [] with hempty | hempty
  · rw [if_pos hempty]
    exact ⟨0, _, rfl, Or.inr (hnone s.allocs)⟩
  · rw [if_neg hempty, bind_apply]
    obtain ⟨b, hvalid, hfree⟩ := isValidFilename_spec h x (strip buf)
    rw [hvalid]
    rcases b with _ | _
    · exact ⟨-1, s, rfl, Or.inl rfl⟩
    · change ∃ r s', (heapAlloc >>= _) s = _ ∧ _
      rw [bind_apply, heapAlloc]
      rcases hmemory : s.heap s.allocs with _ | _
      · exact ⟨0, _, rfl, Or.inr (hnone (s.allocs + 1))⟩
      · refine ⟨_, _, rfl, Or.inr ⟨some (strip buf), renames_put ho hx _ (s.allocs + 1), ?_⟩⟩
        rintro c ⟨⟩
        exact ⟨rfl, hfree rfl⟩

theorem sound_renames {n : Option Bytes} (h : Sound held s) (hr : Renames x n s s') :
    Sound held s' := by
  obtain ⟨leaks, hinv, hpos, hcursor⟩ := h
  refine ⟨leaks, inv_renames hinv hr, fun y hy => ?_, noCursor_of_eq hcursor hr.cursor⟩
  rw [hr.refcount]
  exact hpos y ((hr.live y).mp hy)

theorem objectWrite_spec (htree : Tree s) (hx : s.objects x ≠ none) (buf : Bytes) :
    ∃ s', objectWrite x buf s = .ok ((), s') ∧
      (s' = s ∨ ∃ n, Renames x n s s' ∧ ∀ c, n = some c → c = strip buf ∧ FreeName s x c) := by
  obtain ⟨o, ho⟩ := Option.ne_none_iff_exists'.mp hx
  rw [objectWrite, bind_apply, getObject_eq ho]
  rcases o with d | f | f | d
  · obtain ⟨r, s', hrename, hs'⟩ := rename_spec (fun n => .directory { d with name := n })
      d.name htree ⟨fun _ => rfl, fun _ => rfl, fun _ => rfl,
        fun _ k => by cases k <;> rfl, fun _ => rfl, fun _ => rfl⟩ ho buf
    rw [show (shape s).parent x = d.parent from parent_eq ho] at hrename
    have hwrite : directoryWrite x buf s = .ok (r, s') := by
      rw [directoryWrite, bind_apply, getDirectory_eq ho]
      exact hrename
    refine ⟨s', ?_, hs'⟩
    change (directoryWrite x buf >>= _) s = _
    rw [bind_apply, hwrite]
    rfl
  · obtain ⟨r, s', hrename, hs'⟩ := rename_spec (fun n => .file { f with name := n })
      f.name htree ⟨fun _ => rfl, fun _ => rfl, fun _ => rfl,
        fun _ k => by cases k <;> rfl, fun _ => rfl, fun _ => rfl⟩ ho buf
    rw [show (shape s).parent x = f.parent from parent_eq ho] at hrename
    have hwrite : fileWrite x buf s = .ok (r, s') := by
      rw [fileWrite, bind_apply, getFile_eq ho]
      exact hrename
    refine ⟨s', ?_, hs'⟩
    change (fileWrite x buf >>= _) s = _
    rw [bind_apply, hwrite]
    rfl
  · exact ⟨s, rfl, Or.inl rfl⟩
  · exact ⟨s, rfl, Or.inl rfl⟩

theorem objectWrite_sound (h : Sound held s) (hx : s.objects x ≠ none) (buf : Bytes)
    (hok : ok (strip buf)) :
    ∃ s', objectWrite x buf s = .ok ((), s') ∧ Sound held s' ∧ Change ok s s' := by
  obtain ⟨leaks, hinv, -⟩ := id h
  obtain ⟨s', hwrite, rfl | ⟨n, hr, hn⟩⟩ := objectWrite_spec (Creations.Inv.tree hinv) hx buf
  · exact ⟨s', hwrite, h, .same rfl⟩
  · refine ⟨s', hwrite, sound_renames h hr, .renames (fun c hc => ?_) hr⟩
    obtain ⟨rfl, hfree⟩ := hn c hc
    exact ⟨hok, hfree⟩

theorem handleGet_live {st : State} (h : Sound st.handles st.store) (hx : handleGet st x = some y) :
    y = x ∧ 0 < st.handles x ∧ st.store.objects x ≠ none := by
  obtain ⟨leaks, hinv, -⟩ := h
  rw [handleGet] at hx
  split_ifs at hx with hpos
  exact ⟨(Option.some.inj hx).symm, hpos, hinv.held_live x (Nat.add_pos_left hpos _)⟩

/-- The directory in which a search begins. -/
theorem fileSystemIsValidDirectory_spec {st : State} (h : Sound st.handles st.store) (x : Nat) :
    ∃ d, fileSystemIsValidDirectory (handleGet st x) st.store = .ok (d, st.store) ∧
      (shape st.store).kind (d.getD st.store.root) = some .directory := by
  obtain ⟨leaks, hinv, -, hcursor⟩ := id h
  rcases hx : handleGet st x with _ | y
  · exact ⟨none, rfl, hinv.root⟩
  · obtain ⟨rfl, -, hlive⟩ := handleGet_live h hx
    obtain ⟨o, ho⟩ := Option.ne_none_iff_exists'.mp hlive
    change ∃ d, (getObject y >>= _) st.store = _ ∧ _
    rw [bind_apply, getObject_eq ho]
    rcases o with d | f | f | d
    · exact ⟨some y, rfl, kind_eq ho⟩
    · exact ⟨none, rfl, hinv.root⟩
    · exact ⟨none, rfl, hinv.root⟩
    · have hpos : d.pos = none := by
        have := hcursor y
        rw [cursor, ho] at this
        exact this
      refine ⟨none, ?_, hinv.root⟩
      change (match d.pos with
        | none => pure none
        | some z => _ : Kernel (Option Nat)) st.store = _
      rw [hpos]
      rfl

/-- The names which a call may store. -/
def newNames : Call → List Bytes
  | .searchFile _ path _ create => if create then components path else []
  | .searchDirectory _ path _ create => if create then components path else []
  | .write _ buf => [strip buf]
  | _ => []

theorem newHandle_sound {st : State} {m : Kernel (Option Nat)}
    (hm : ∃ r s', m st.store = .ok (r, s') ∧ Sound (withHandle st.handles r) s' ∧
      Change ok st.store s') : ∃ st' r, newHandle st m = .ok (st', r) ∧
        Sound st'.handles st'.store ∧ Change ok st.store st'.store := by
  obtain ⟨r, s', hm, hs', hchange⟩ := hm
  refine ⟨⟨s', withHandle st.handles r⟩, r, ?_, hs', hchange⟩
  rw [newHandle, hm]
  rfl

theorem onHandle_eq {st : State} {m : Kernel Unit} {s' : Store} (hx : handleGet st x = some y)
    (hm : m st.store = .ok ((), s')) : onHandle st x m = .ok (⟨s', st.handles⟩, none) := by
  rw [onHandle, hx]
  change (m st.store >>= _) = _
  rw [hm]
  rfl

theorem onHandle_none {st : State} (m : Kernel Unit) (hx : handleGet st x = none) :
    onHandle st x m = .ok (st, none) := by
  rw [onHandle, hx]

theorem objectShutdown_sound (h : Sound held s) (hx : s.objects x ≠ none) :
    ∃ s', objectShutdown x s = .ok ((), s') ∧ Sound held s' ∧ Change ok s s' := by
  obtain ⟨leaks, hinv, hpos, hcursor⟩ := h
  have hspec := objectShutdown_spec hinv hx
  rcases hs : objectShutdown x s with e | ⟨u, s'⟩
  · exact (hspec.of_error hs).elim
  · obtain ⟨hinv', hshrinks, -⟩ := hspec.of_ok hs
    exact ⟨s', rfl, ⟨leaks, hinv', hshrinks.positive hpos, hshrinks.noCursor hcursor⟩,
      .shrinks hshrinks⟩

theorem objectRelease_sound (h : Sound held s) (hx : 0 < held x) :
    ∃ s', objectRelease x s = .ok ((), s') ∧ Sound (Function.update held x (held x - 1)) s' ∧
      Change ok s s' := by
  obtain ⟨leaks, hinv, hpos, hcursor⟩ := h
  have hheld : (fun y => held y + leaks y) =
      oneMore (fun y => Function.update held x (held x - 1) y + leaks y) x := by
    funext y
    simp only [oneMore, Function.update_apply]
    split_ifs with hy
    · rw [hy]
      omega
    · rfl
  rw [hheld] at hinv
  have hspec := objectRelease_spec hinv hcursor
  rcases hs : objectRelease x s with e | ⟨u, s'⟩
  · exact (hspec.of_error hs).elim
  · obtain ⟨hinv', hshrinks⟩ := hspec.of_ok hs
    exact ⟨s', rfl, ⟨leaks, hinv', hshrinks.positive hpos, hshrinks.noCursor hcursor⟩,
      .shrinks hshrinks⟩

/-- No call stops, and every call keeps the references in order. -/
theorem step_sound {st : State} (h : Sound st.handles st.store) (call : Call)
    (hok : ∀ c ∈ newNames call, ok c) : ∃ st' r, step st call = .ok (st', r) ∧
      Sound st'.handles st'.store ∧ Change ok st.store st'.store := by
  cases call with
  | searchFile x path after create =>
      obtain ⟨d, hd, hstart⟩ := fileSystemIsValidDirectory_spec h x
      refine newHandle_sound ?_
      rw [bind_apply, hd]
      exact fileSystemSearchFile_sound path after create h hstart fun hcreate c hc =>
        hok c (by rw [newNames, if_pos hcreate]; exact hc)
  | searchDirectory x path after create =>
      obtain ⟨d, hd, hstart⟩ := fileSystemIsValidDirectory_spec h x
      refine newHandle_sound ?_
      rw [bind_apply, hd]
      exact fileSystemSearchDirectory_sound path after create h hstart fun hcreate c hc =>
        hok c (by rw [newNames, if_pos hcreate]; exact hc)
  | write x buf =>
      rcases hx : handleGet st x with _ | y
      · exact ⟨st, none, onHandle_none _ hx, h, .same rfl⟩
      · obtain ⟨-, -, hlive⟩ := handleGet_live h hx
        obtain ⟨s', hm, hs', hchange⟩ := objectWrite_sound h hlive buf (hok _ List.mem_cons_self)
        exact ⟨_, none, onHandle_eq hx hm, hs', hchange⟩
  | shutdown x =>
      rcases hx : handleGet st x with _ | y
      · exact ⟨st, none, onHandle_none _ hx, h, .same rfl⟩
      · obtain ⟨-, -, hlive⟩ := handleGet_live h hx
        obtain ⟨s', hm, hs', hchange⟩ := objectShutdown_sound h hlive
        exact ⟨_, none, onHandle_eq hx hm, hs', hchange⟩
  | dup x =>
      rcases hx : handleGet st x with _ | y
      · refine ⟨st, none, ?_, h, .same rfl⟩
        rw [step, onHandle_none _ hx, hx]
        rfl
      · obtain ⟨rfl, -, hlive⟩ := handleGet_live h hx
        refine ⟨⟨_, oneMore st.handles y⟩, none, ?_, sound_addRef h hlive, .same rfl⟩
        rw [step, onHandle_eq hx (addRef_eq hlive), hx]
        rfl
  | close x =>
      rcases hx : handleGet st x with _ | y
      · have hzero : st.handles x = 0 := by
          rw [handleGet] at hx
          split_ifs at hx with hpos
          omega
        refine ⟨st, none, ?_, h, .same rfl⟩
        rw [step, onHandle_none _ hx, hzero, show 0 - 1 = st.handles x from hzero.symm,
          Function.update_eq_self]
        rfl
      · obtain ⟨-, hpos, -⟩ := handleGet_live h hx
        obtain ⟨s', hm, hs', hchange⟩ := objectRelease_sound h hpos
        refine ⟨⟨s', Function.update st.handles x (st.handles x - 1)⟩, none, ?_, hs', hchange⟩
        rw [step, onHandle_eq hx hm]
        rfl

end

end Ibnos.FilesystemRuns
