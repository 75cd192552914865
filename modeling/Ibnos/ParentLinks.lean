import Ibnos.Cursors
import Ibnos.Destructions

/-!
The links between directories and their entries, over all sequences of
creations, deletions, opens, closes and renames. A directory which was deleted
stays as long as somebody refers to it, and entries can still be created in it.
-/

namespace Ibnos.ParentLinks

open Ibnos.Creations
open Ibnos.Cursors
open Ibnos.Destructions
open Ibnos.Filesystem
open Ibnos.FilesystemReleases
open Ibnos.FilesystemRuns
open Ibnos.FilesystemTrees
open Ibnos.Forests
open Ibnos.LookupReferences
open Ibnos.Programs
open Ibnos.Runs
open Ibnos.Strings

inductive Action
  | directoryCreate (parent : Option Nat) (name : Option Bytes)
  | fileCreate (parent : Option Nat) (name : Option Bytes)
  | shutdown (x : Nat)
  | fileOpen (x : Nat)
  | directoryOpen (x : Nat)
  | dup (x : Nat)
  | close (x : Nat)
  | write (x : Nat) (buf : Bytes)

/-- The parent is NULL or a directory which was not destroyed. -/
def Hosts (s : Store) : Option Nat → Prop
  | none => True
  | some p => (shape s).kind p = some .directory

instance (s : Store) (parent : Option Nat) : Decidable (Hosts s parent) :=
  match parent with
  | none => isTrue trivial
  | some p => inferInstanceAs (Decidable ((shape s).kind p = some .directory))

/-- A function which returns a new object to its caller. -/
def returning (st : State) (m : Kernel (Option Nat)) : Except Fault (State × List Nat) := do
  let (r, s) ← m st.store
  return (⟨s, withHandle st.handles r⟩, [])

/-- Each action comes with the objects which it destroys. What is named has to exist,
and only a reference which is held can be given up. -/
def step (st : State) : Action → Except Fault (State × List Nat)
  | .directoryCreate parent name =>
      if Hosts st.store parent then returning st (directoryCreate parent name) else .ok (st, [])
  | .fileCreate parent name =>
      if Hosts st.store parent then returning st (fileCreate parent name) else .ok (st, [])
  | .shutdown x =>
      if st.store.objects x = none then .ok (st, [])
      else do
        let (log, s) ← objectShutdownLog x st.store
        return (⟨s, st.handles⟩, log)
  | .fileOpen x =>
      if (shape st.store).kind x = some .file then returning st (fileOpen x) else .ok (st, [])
  | .directoryOpen x =>
      if (shape st.store).kind x = some .directory then returning st (directoryOpen x)
      else .ok (st, [])
  | .dup x =>
      if st.handles x = 0 then .ok (st, [])
      else do
        let (_, s) ← objectAddRef x st.store
        return (⟨s, oneMore st.handles x⟩, [])
  | .close x =>
      if st.handles x = 0 then .ok (st, [])
      else do
        let (log, s) ← objectReleaseLog x st.store
        return (⟨s, Function.update st.handles x (st.handles x - 1)⟩, log)
  | .write x buf =>
      if st.store.objects x = none then .ok (st, [])
      else do
        let (_, s) ← objectWrite x buf st.store
        return (⟨s, st.handles⟩, [])

/-- Every entry is in the list of its parent, and nowhere else. -/
structure Linked (s : Store) : Prop where
  linked : ∀ x p, (shape s).parent x = some p → (shape s).kind p = some .directory ∧
    ∃ k, (shape s).kind x = some k ∧ ((shape s).children k p).count x = 1
  parent : ∀ k p x, x ∈ (shape s).children k p →
    (shape s).kind x = some k ∧ (shape s).parent x = some p
  forest : ∀ x, ¬Relation.TransGen (fun x p => (shape s).parent x = some p) x x

/-- A reference on an object, other than the one by its directory. -/
def Referenced (st : State) (x : Nat) : Prop :=
  0 < st.handles x ∨ ∃ h, target st.store h = some x

/-- The objects in `log` are destroyed, and their entries lose their parent. -/
structure Destroys (log : List Nat) (st st' : State) : Prop where
  once : log.Nodup
  destroyed : ∀ x, x ∈ log ↔ st.store.objects x ≠ none ∧ st'.store.objects x = none
  unlinked : ∀ x p, (shape st.store).parent x = some p → p ∈ log →
    (shape st'.store).parent x = none ∧ (x ∈ log ↔ ¬Referenced st' x)
  subtree : ∀ x p, (shape st.store).parent x = some p → p ∈ log → x ∉ log →
    ∀ y, Relation.ReflTransGen (fun q z => (shape st.store).parent z = some q) x y →
      st'.store.objects y ≠ none ∧ (shape st'.store).kind y = (shape st.store).kind y ∧
        ∀ k, (shape st'.store).children k y = (shape st.store).children k y

section

variable {s s' : Store} {held : Nat → Nat} {x y p : Nat} {k : Kind} {name : Option Bytes}

/-- Every reference has an owner. -/
def Owned (held : Nat → Nat) (s : Store) : Prop := Inv s held ∧ Positive s ∧ NoCursor s

theorem linked_of_inv (h : Inv s held) : Linked s := by
  refine ⟨?_, ?_, ?_⟩
  · intro x p hp
    obtain ⟨hdirectory, -, hlive⟩ := h.forest.parent x p hp
    obtain ⟨k, hk⟩ := Option.ne_none_iff_exists'.mp hlive
    have hmem := (h.forest.mem_children k p x).mpr ⟨hk, hp⟩
    exact ⟨hdirectory, k, hk, List.count_eq_one_of_mem (h.forest.nodup k p) hmem⟩
  · intro k p x hx
    exact (h.forest.mem_children k p x).mp hx
  · intro x hx
    -- parents are older than their entries
    have hlt : ∀ a b, Relation.TransGen (fun x p => (shape s).parent x = some p) a b → b < a := by
      intro a b hab
      induction hab with
      | single hp => exact (h.forest.parent _ _ hp).2.1
      | tail _ hp ih => exact (h.forest.parent _ _ hp).2.1.trans ih
    exact Nat.lt_irrefl _ (hlt x x hx)

/-- A function which only adds objects, and returns a reference on one of them. -/
def Adds (held : Nat → Nat) (m : Kernel (Option Nat)) (s : Store) : Prop :=
  ∃ r s', m s = .ok (r, s') ∧ Owned (withHandle held r) s' ∧
    ∀ x, s.objects x ≠ none → s'.objects x ≠ none

/-- A new object which is in no directory. -/
def alone (s : Store) (o : Object) (a : Nat) : Store :=
  { put s s.fresh (some o) with
    refcount := Function.update s.refcount s.fresh 1
    fresh := s.fresh + 1
    allocs := a }

theorem live_alone {o : Object} (a : Nat) (hx : s.objects x ≠ none) :
    (alone s o a).objects x ≠ none := by
  change Function.update s.objects s.fresh (some o) x ≠ none
  rw [Function.update_apply]
  split_ifs
  · exact nofun
  · exact hx

theorem inv_alone {o : Object} (h : Inv s held) (hk : kindOf o = some k)
    (hparent : parentOf o = none)
    (hchildren : ∀ j, childrenOf o j = []) (a : Nat) :
    Inv (alone s o a) (oneMore held s.fresh) := by
  have hfresh : s.objects s.fresh = none := by
    by_contra hne
    exact Nat.lt_irrefl _ (h.lt_fresh s.fresh hne)
  have hroot : s.root ≠ s.fresh := Nat.ne_of_lt (h.lt_fresh _ (live_of_kind h.root))
  have hkind : (shape s).kind s.fresh = none := by
    change (s.objects s.fresh).bind kindOf = none
    rw [hfresh]
    rfl
  have hkind' : (shape (alone s o a)).kind = Function.update (shape s).kind s.fresh (some k) := by
    change (shape (put s s.fresh (some o))).kind = _
    rw [kind_put, ← hk]
    rfl
  have hparent' : (shape (alone s o a)).parent = (shape s).parent := by
    change (shape (put s s.fresh (some o))).parent = _
    rw [parent_put]
    refine Function.update_eq_self_iff.mpr (hparent.trans ?_)
    change none = (s.objects s.fresh).bind parentOf
    rw [hfresh]
    rfl
  have hchildren' : (shape (alone s o a)).children = (shape s).children := by
    change (shape (put s s.fresh (some o))).children = _
    funext j
    rw [children_put]
    refine Function.update_eq_self_iff.mpr ((hchildren j).trans ?_)
    change [] = ((s.objects s.fresh).map _).getD []
    rw [hfresh]
    rfl
  have hopened : opened (alone s o a) = opened s := by
    change opened (put s s.fresh (some o)) = _
    rw [opened_put]
    refine Function.update_eq_self_iff.mpr ((opened_cursor_of_kind hk).1.trans ?_)
    rw [opened, hfresh]
    rfl
  have htarget : target (alone s o a) = target s := by
    funext z
    rw [target, hopened]
    rfl
  have hlive : ∀ z, (alone s o a).objects z ≠ none → z = s.fresh ∨ s.objects z ≠ none := by
    intro z hz
    rcases eq_or_ne z s.fresh with hzf | hzf
    · exact Or.inl hzf
    · refine Or.inr ?_
      change Function.update s.objects s.fresh (some o) z ≠ none at hz
      rwa [Function.update_of_ne hzf] at hz
  have hunowned : owners s held s.fresh = 0 := by
    have htally : Tallies.tally (target s) s.fresh = 0 := by
      by_contra hne
      obtain ⟨z, hz⟩ := (Set.ncard_pos (h.finitary.places _)).mp (Nat.pos_of_ne_zero hne)
      rw [Set.mem_ofPred_eq, target] at hz
      obtain ⟨⟨j, w⟩, hj, hw⟩ := Option.map_eq_some_iff.mp hz
      have hw' := h.opened z j w hj
      rw [show w = s.fresh from hw, hkind] at hw'
      cases hw'
    have hheld : held s.fresh = 0 := by
      by_contra hne
      exact h.held_live _ (Nat.pos_of_ne_zero hne) hfresh
    have hnone : (shape s).parent s.fresh = none := by
      change (s.objects s.fresh).bind parentOf = none
      rw [hfresh]
      rfl
    rw [owners, hnone, htally, hheld, if_pos rfl, if_neg hroot.symm]
  refine ⟨⟨?_, ?_, ?_⟩, ?_, ?_, ?_, ?_, ?_, ?_⟩
  · intro j q z
    rw [hchildren', hparent', hkind', h.forest.mem_children]
    rcases eq_or_ne z s.fresh with rfl | hz
    · rw [Function.update_self, hkind]
      refine iff_of_false (fun hz => by cases hz.1) fun hz => ?_
      exact (h.forest.parent _ q hz.2).2.2 hkind
    · rw [Function.update_of_ne hz]
  · intro j q
    rw [hchildren']
    exact h.forest.nodup j q
  · intro z q hz
    rw [hparent'] at hz
    obtain ⟨hq, hlt, hz'⟩ := h.forest.parent z q hz
    rw [hkind']
    have hqf := Nat.ne_of_lt (h.lt_fresh q (live_of_kind hq))
    have hzf : z ≠ s.fresh := by
      rintro rfl
      exact hz' hkind
    rw [Function.update_of_ne hqf, Function.update_of_ne hzf]
    exact ⟨hq, hlt, hz'⟩
  · intro z hz
    change z < s.fresh + 1
    rcases hlive z hz with rfl | hz
    · exact Nat.lt_succ_self _
    · exact (h.lt_fresh z hz).trans (Nat.lt_succ_self _)
  · rw [hkind']
    exact (Function.update_of_ne hroot ..).trans h.root
  · rw [hparent']
    exact h.root_parent
  · intro z j w hz
    rw [hopened] at hz
    have hw := h.opened z j w hz
    rw [hkind', Function.update_of_ne]
    · exact hw
    · rintro rfl
      rw [hkind] at hw
      cases hw
  · intro z hz
    rw [oneMore, Function.update_apply] at hz
    split_ifs at hz with hzf
    · rw [hzf]
      change Function.update s.objects s.fresh (some o) s.fresh ≠ none
      rw [Function.update_self]
      simp
    · exact live_alone a (h.held_live z hz)
  · intro z hz
    have hsame : owners (alone s o a) held z = owners s held z := by
      rw [owners, hparent', htarget]
      rfl
    rw [owners_oneMore, hsame]
    change Function.update s.refcount s.fresh 1 z = _
    rcases eq_or_ne z s.fresh with rfl | hzf
    · rw [Function.update_self, hunowned, if_pos rfl]
    · rw [Function.update_of_ne hzf, if_neg hzf]
      exact h.balanced z ((hlive z hz).resolve_left hzf)

end

section

variable {s s' : Store} {held : Nat → Nat} {x y p : Nat} {k : Kind} {name : Option Bytes}

theorem owned_alone {o : Object} (h : Owned held s) (hk : kindOf o = some k)
    (hparent : parentOf o = none)
    (hchildren : ∀ j, childrenOf o j = []) (a : Nat) :
    Owned (oneMore held s.fresh) (alone s o a) := by
  obtain ⟨hinv, hpos, hcursor⟩ := h
  refine ⟨inv_alone hinv hk hparent hchildren a, ?_, ?_⟩
  · intro z hz
    change 0 < Function.update s.refcount s.fresh 1 z
    change Function.update s.objects s.fresh (some o) z ≠ none at hz
    rcases eq_or_ne z s.fresh with rfl | hzf
    · rw [Function.update_self]
      exact Nat.one_pos
    · rw [Function.update_of_ne hzf] at hz ⊢
      exact hpos z hz
  · intro z
    change cursor (put s s.fresh (some o)) z = none
    rw [cursor_put, Function.update_apply]
    split_ifs
    · exact (opened_cursor_of_kind hk).2
    · exact hcursor z

theorem owned_renames {n : Option Bytes} (h : Owned held s) (hr : Renames x n s s') :
    Owned held s' := by
  obtain ⟨hinv, hpos, hcursor⟩ := h
  refine ⟨inv_renames hinv hr, fun y hy => ?_, noCursor_of_eq hcursor hr.cursor⟩
  rw [hr.refcount]
  exact hpos y ((hr.live y).mp hy)

theorem owned_grows {c : Bytes} (h : Owned held s) (hp : (shape s).kind p = some .directory)
    (hg : Grows k p c s s') : Owned (oneMore held s.fresh) s' := by
  obtain ⟨hinv, hpos, hcursor⟩ := h
  exact ⟨inv_grows hinv hp hg, positive_grows hpos hg, noCursor_of_eq hcursor hg.cursor⟩

theorem live_created {o d' : Object} (a : Nat) (hx : s.objects x ≠ none) :
    (created s p o d' a).objects x ≠ none := by
  change Function.update (Function.update s.objects s.fresh (some o)) p (some d') x ≠ none
  rw [Function.update_apply, Function.update_apply]
  split_ifs
  · exact nofun
  · exact nofun
  · exact hx

/-- A new entry. Names have no effect on the links, so that a nameless one is the
same as one which has lost its name. -/
theorem owned_created {o : Option Bytes → Object} {d d' : Object} (h : Owned held s)
    (ho : ∀ n, Named o n) (hd : s.objects p = some d)
    (hl : ∀ c, Links k p s.fresh c (o (some c)) d d')
    (name : Option Bytes) (a : Nat) :
    Owned (oneMore held s.fresh) (created s p (o name) d' a) := by
  have hp : (shape s).kind p = some .directory := (kind_eq hd).trans (hl []).directory
  have hgrown : ∀ c, Owned (oneMore held s.fresh) (created s p (o (some c)) d' a) :=
    fun c => owned_grows h hp (grows_created h.1.lt_fresh hd (hl c) a)
  rcases name with _ | c
  · have hne : s.fresh ≠ p := (Nat.ne_of_lt (h.1.lt_fresh p (live_of_kind hp))).symm
    have hobject : (created s p (o (some [])) d' a).objects s.fresh = some (o (some [])) :=
      (Function.update_of_ne hne ..).trans (Function.update_self ..)
    have hrenames := renames_put (ho (some [])) hobject none a
    have heq : { put (created s p (o (some [])) d' a) s.fresh (some (o none)) with allocs := a } =
        created s p (o none) d' a := by
      have hobjects : Function.update (Function.update (Function.update s.objects s.fresh
          (some (o (some [])))) p (some d')) s.fresh (some (o none)) =
          Function.update (Function.update s.objects s.fresh (some (o none))) p (some d') := by
        rw [Function.update_comm hne.symm, Function.update_idem]
      simp only [created, put, hobjects]
    rw [heq] at hrenames
    exact owned_renames (hgrown []) hrenames
  · exact hgrown c

theorem allocNamed_ok (s : Store) (name : Option Bytes) :
    ∃ b a, allocNamed name s = .ok (b, { s with allocs := a }) := by
  rcases name with _ | c
  · rw [allocNamed, bind_apply, heapAlloc]
    rcases s.heap s.allocs with _ | _
    · exact ⟨false, _, rfl⟩
    · exact ⟨true, _, rfl⟩
  · obtain ⟨a, ha⟩ := allocNamed_eq s c
    exact ⟨_, a, ha⟩

theorem owned_alloc (h : Owned held s) (a : Nat) : Owned held { s with allocs := a } :=
  ⟨inv_alloc h.1, h.2.1, h.2.2⟩

/-- The common part of `directoryCreate` and `fileCreate`. -/
theorem create_adds {o : Option Nat → Option Bytes → Object} {f : Directory → Nat → Object}
    (hk : ∀ q n, kindOf (o q n) = some k) (hparent : ∀ n, parentOf (o none n) = none)
    (hchildren : ∀ n j, childrenOf (o none n) j = []) (hnamed : ∀ q n, Named (o q) n)
    (hlinks : ∀ p x c d, Links k p x c (o (some p) (some c)) (.directory d) (f d x))
    {parent : Option Nat} (name : Option Bytes) (h : Owned held s) (hhost : Hosts s parent) :
    Adds held (do
      if ← allocNamed name then
        let x ← objectInit (o parent name)
        match parent with
        | none => pure (some x)
        | some p =>
            let d ← getDirectory p
            setObject p (f d x)
            objectAddRef x
            pure (some x)
      else pure none) s := by
  obtain ⟨b, a, ha⟩ := allocNamed_ok s name
  rw [Adds, bind_apply, ha]
  rcases b with _ | _
  · exact ⟨none, _, rfl, owned_alloc h a, fun x hx => hx⟩
  · rcases parent with _ | p
    · refine ⟨some s.fresh, alone s (o none name) a, rfl, ?_, fun x hx => live_alone a hx⟩
      exact owned_alone h (hk none name) (hparent name) (hchildren name) a
    · obtain ⟨d, hd⟩ := kind_eq_directory.mp hhost
      have hne : p ≠ s.fresh := Nat.ne_of_lt (h.1.lt_fresh p (live_of_kind hhost))
      have hlink := link_eq (s := { s with allocs := a }) f (o (some p) name) hd hne
      refine ⟨some s.fresh, created s p (o (some p) name) (f d s.fresh) a, hlink, ?_,
        fun x hx => live_created a hx⟩
      exact owned_created h (hnamed (some p)) hd (fun c => hlinks p s.fresh c d) name a

theorem directoryCreate_adds {parent : Option Nat} (name : Option Bytes) (h : Owned held s)
    (hhost : Hosts s parent) : Adds held (directoryCreate parent name) s := by
  have hadds := create_adds (k := .directory)
    (o := fun q n => .directory { parent := q, name := n })
    (f := fun d x => .directory { d with directories := d.directories ++ [x] })
    (fun q n => rfl) (fun n => rfl) (fun n j => by cases j <;> rfl)
    (fun q n => ⟨fun _ => rfl, fun _ => rfl, fun _ => rfl, fun _ j => by cases j <;> rfl,
      fun _ => rfl, fun _ => rfl⟩)
    (fun p x c d => links_directory) name h hhost
  rcases parent with _ | p
  · exact hadds
  · exact hadds

theorem fileCreate_adds {parent : Option Nat} (name : Option Bytes) (h : Owned held s)
    (hhost : Hosts s parent) : Adds held (fileCreate parent name) s := by
  have hadds := create_adds (k := .file) (o := fun q n => .file { parent := q, name := n })
    (f := fun d x => .directory { d with files := d.files ++ [x] })
    (fun q n => rfl) (fun n => rfl) (fun n j => by cases j <;> rfl)
    (fun q n => ⟨fun _ => rfl, fun _ => rfl, fun _ => rfl, fun _ j => by cases j <;> rfl,
      fun _ => rfl, fun _ => rfl⟩)
    (fun p x c d => links_file) name h hhost
  rcases parent with _ | p
  · exact hadds
  · exact hadds

end

section

variable {s s' : Store} {held : Nat → Nat} {x y p : Nat} {k : Kind}

/-- The common part of `fileOpen` and `directoryOpen`. -/
theorem open_adds {o : Object} (h : Owned held s) (hy : (shape s).kind y = some k)
    (ho : openedOf o = some (k, y)) (hkind : kindOf o = none) (hparent : parentOf o = none)
    (hchildren : ∀ j, childrenOf o j = []) (hcursor : cursorOf o = none) : Adds held (do
      if ← heapAlloc then
        let h ← objectInit o
        objectAddRef y
        pure (some h)
      else pure none) s := by
  obtain ⟨hinv, hpos, hc⟩ := h
  rw [Adds, bind_apply, heapAlloc]
  rcases s.heap s.allocs with _ | _
  · exact ⟨none, _, rfl, ⟨inv_alloc hinv, hpos, hc⟩, fun x hx => hx⟩
  · have hlive := live_of_kind hy
    refine ⟨some s.fresh, openedStore s o y (s.allocs + 1),
      objectInit_addRef hlive (Nat.ne_of_lt (hinv.lt_fresh y hlive)), ?_, ?_⟩
    · exact ⟨inv_opened hinv hy ho hkind hparent hchildren _, positive_opened hpos _,
        noCursor_opened hc hcursor _⟩
    · intro x hx
      exact live_alone (s.allocs + 1) hx

theorem fileOpen_adds (h : Owned held s) (hx : (shape s).kind x = some .file) :
    Adds held (fileOpen x) s :=
  open_adds h hx rfl rfl rfl (fun _ => rfl) rfl

theorem directoryOpen_adds (h : Owned held s) (hx : (shape s).kind x = some .directory) :
    Adds held (directoryOpen x) s :=
  open_adds h hx rfl rfl rfl (fun _ => rfl) rfl

theorem destroys_nothing {st st' : State}
    (h : ∀ x, st.store.objects x ≠ none → st'.store.objects x ≠ none) : Destroys [] st st' := by
  refine ⟨List.nodup_nil, fun x => ?_, fun x p _ hp => ?_, fun x p _ hp => ?_⟩
  · refine iff_of_false List.not_mem_nil ?_
    rintro ⟨hlive, hnone⟩
    exact h x hlive hnone
  · cases hp
  · cases hp

theorem returning_spec {st : State} {m : Kernel (Option Nat)} (h : Adds st.handles m st.store) :
    ∃ st' log, returning st m = .ok (st', log) ∧ Owned st'.handles st'.store ∧
      Destroys log st st' := by
  obtain ⟨r, s', hm, howned, hlive⟩ := h
  refine ⟨⟨s', withHandle st.handles r⟩, [], ?_, howned, destroys_nothing hlive⟩
  rw [returning, hm]
  rfl

/-- An entry which is still there is of the same kind as before. -/
theorem kind_of_shrinks (h : Shrinks s s') (hk : (shape s).kind x = some k)
    (hlive : s'.objects x ≠ none) : (shape s').kind x = some k := by
  obtain ⟨o, ho⟩ := Option.ne_none_iff_exists'.mp hlive
  rcases hj : (shape s').kind x with _ | j
  · have hopened : ∃ t, opened s' x = some t := by
      rw [opened_eq ho]
      rw [kind_eq ho] at hj
      rcases o with d | f | f | d
      · cases hj
      · cases hj
      · exact ⟨_, rfl⟩
      · exact ⟨_, rfl⟩
    obtain ⟨t, ht⟩ := hopened
    have hnone := (kind_of_opened (h.opened x t ht)).1
    rw [hk] at hnone
    cases hnone
  · exact (h.entry x j hj).1.symm.trans hk

section

variable {st st' : State} {q : Option Nat} {log : List Nat}

/-- An entry of a directory which is destroyed stays if somebody else refers to it. -/
theorem orphan_iff (h : Inv st.store st.handles) (h' : Owned st'.handles st'.store)
    (hshrinks : Shrinks st.store st'.store) (hx : (shape st.store).parent x = some p)
    (hx' : (shape st'.store).parent x = none) :
    st'.store.objects x = none ↔ ¬Referenced st' x := by
  obtain ⟨hinv', hpos', -⟩ := h'
  constructor
  · rintro hnone (hheld | ⟨y, hy⟩)
    · exact hinv'.held_live x hheld hnone
    · rw [target] at hy
      obtain ⟨⟨j, z⟩, hj, hz⟩ := Option.map_eq_some_iff.mp hy
      rw [show z = x from hz] at hj
      exact live_of_kind (hinv'.opened y j x hj) hnone
  · intro hunreferenced
    by_contra hlive
    have hroot : x ≠ st'.store.root := by
      rintro rfl
      rw [hshrinks.root, h.root_parent] at hx
      cases hx
    have htally : Tallies.tally (target st'.store) x = 0 := by
      by_contra hne
      obtain ⟨y, hy⟩ := (Set.ncard_pos (hinv'.finitary.places x)).mp (Nat.pos_of_ne_zero hne)
      exact hunreferenced (Or.inr ⟨y, hy⟩)
    have hheld : st'.handles x = 0 := by
      by_contra hne
      exact hunreferenced (Or.inl (Nat.pos_of_ne_zero hne))
    have hcount := hinv'.balanced x hlive
    rw [owners, if_pos hx', if_neg hroot, htally, hheld] at hcount
    exact (hpos' x hlive).ne' hcount

/-- What becomes of the entries follows from what happens to their parents. -/
theorem destroys_of_effect (h : Inv st.store st.handles) (h' : Owned st'.handles st'.store)
    (hshrinks : Shrinks st.store st'.store) (heffect : Effect q log st.store st'.store)
    (hkept : ∀ y p z, z ∈ log → z ≤ p → (shape st.store).parent y = some p →
      st'.store.objects p ≠ none → (shape st'.store).parent y = some p) : Destroys log st st' := by
  have hforest := h.forest
  have hforest' := h'.1.forest
  have hunlinked : ∀ x p, (shape st.store).parent x = some p → p ∈ log →
      (shape st'.store).parent x = none := by
    intro x p hx hp
    by_contra hne
    obtain ⟨p', hp'⟩ := Option.ne_none_iff_exists'.mp hne
    obtain rfl : p' = p := Option.some.inj ((hshrinks.parent x p' hp').symm.trans hx)
    exact live_of_kind (hforest'.parent x p' hp').1 ((heffect.mem p').mp hp).2
  have hlive : ∀ x p, (shape st.store).parent x = some p → st.store.objects x ≠ none := by
    intro x p hx
    obtain ⟨j, hj⟩ := Option.ne_none_iff_exists'.mp (hforest.parent x p hx).2.2
    exact live_of_kind hj
  refine ⟨heffect.nodup, heffect.mem, fun x p hx hp => ⟨hunlinked x p hx hp, ?_⟩, ?_⟩
  · rw [heffect.mem, and_iff_right (hlive x p hx)]
    exact orphan_iff h h' hshrinks hx (hunlinked x p hx hp)
  · intro x p hx hp hxlog y hy
    -- everything below is younger than the directory which is destroyed
    have hbelow : st'.store.objects y ≠ none ∧ p < y ∧ (shape st.store).kind y ≠ none := by
      induction hy with
      | refl =>
          refine ⟨fun hnone => hxlog ?_, (hforest.parent x p hx).2⟩
          exact (heffect.mem x).mpr ⟨hlive x p hx, hnone⟩
      | @tail z w _ hz ih =>
          have hw := hkept w z p hp ih.2.1.le hz ih.1
          obtain ⟨j, hj⟩ := Option.ne_none_iff_exists'.mp (hforest'.parent w z hw).2.2
          exact ⟨live_of_kind hj, ih.2.1.trans (hforest.parent w z hz).2.1,
            (hforest.parent w z hz).2.2⟩
    obtain ⟨hylive, hpy, hykind⟩ := hbelow
    obtain ⟨k, hk⟩ := Option.ne_none_iff_exists'.mp hykind
    refine ⟨hylive, (kind_of_shrinks hshrinks hk hylive).trans hk.symm, fun j => ?_⟩
    have hsub : (shape st.store).children j y ⊆ (shape st'.store).children j y := by
      intro w hw
      obtain ⟨hwkind, hwparent⟩ := (hforest.mem_children j y w).mp hw
      have hwparent' := hkept w y p hp hpy.le hwparent hylive
      obtain ⟨i, hi⟩ := Option.ne_none_iff_exists'.mp (hforest'.parent w y hwparent').2.2
      exact (hforest'.mem_children j y w).mpr
        ⟨kind_of_shrinks hshrinks hwkind (live_of_kind hi), hwparent'⟩
    refine (heffect.order j y hylive).eq_of_length_le ?_
    exact (List.subperm_of_subset (hforest.nodup j y) hsub).length_le

end

/-- Every action returns, and every reference has an owner after it. -/
theorem step_spec {st : State} (h : Owned st.handles st.store) (a : Action) :
    ∃ st' log, step st a = .ok (st', log) ∧ Owned st'.handles st'.store ∧ Destroys log st st' := by
  have hskip : ∃ st' log, (.ok (st, []) : Except Fault (State × List Nat)) = .ok (st', log) ∧
      Owned st'.handles st'.store ∧ Destroys log st st' :=
    ⟨st, [], rfl, h, destroys_nothing fun _ hx => hx⟩
  obtain ⟨hinv, hpos, hcursor⟩ := id h
  cases a with
  | directoryCreate parent name =>
      rw [step]
      split
      · next hhost => exact returning_spec (directoryCreate_adds name h hhost)
      · exact hskip
  | fileCreate parent name =>
      rw [step]
      split
      · next hhost => exact returning_spec (fileCreate_adds name h hhost)
      · exact hskip
  | fileOpen x =>
      rw [step]
      split
      · next hx => exact returning_spec (fileOpen_adds h hx)
      · exact hskip
  | directoryOpen x =>
      rw [step]
      split
      · next hx => exact returning_spec (directoryOpen_adds h hx)
      · exact hskip
  | shutdown x =>
      rw [step]
      split
      · exact hskip
      · next hx =>
        have hspec := objectShutdownLog_effect hinv hx
        rcases hs : objectShutdownLog x st.store with e | ⟨log, s'⟩
        · exact (hspec.of_error hs).elim
        · obtain ⟨⟨hinv', hshrinks, -⟩, ⟨q, heffect⟩, hyounger, hkept⟩ := hspec.of_ok hs
          have howned : Owned st.handles s' :=
            ⟨hinv', hshrinks.positive hpos, hshrinks.noCursor hcursor⟩
          refine ⟨⟨s', st.handles⟩, log, rfl, howned, ?_⟩
          refine destroys_of_effect hinv howned hshrinks heffect fun y p z hz hle hy hlive => ?_
          refine hkept y p hy ?_ hlive
          have hlt := (hinv.forest.parent y p hy).2.1
          have := hyounger z hz
          omega
  | dup x =>
      rw [step]
      split
      · exact hskip
      · next hx =>
        have hlive := hinv.held_live x (Nat.pos_of_ne_zero hx)
        refine ⟨⟨count st.store x (st.store.refcount x + 1), oneMore st.handles x⟩, [], ?_, ?_,
          destroys_nothing fun _ hy => hy⟩
        · rw [addRef_eq hlive]
          rfl
        · exact ⟨inv_addRef hinv hlive, positive_count hpos _, hcursor⟩
  | close x =>
      rw [step]
      split
      · exact hskip
      · next hx =>
        have hheld : st.handles = oneMore (Function.update st.handles x (st.handles x - 1)) x := by
          funext y
          simp only [oneMore, Function.update_apply]
          split_ifs with hy
          · rw [hy]
            omega
          · rfl
        have hinv' := hinv
        rw [hheld] at hinv'
        have hspec := objectReleaseLog_effect hinv' hcursor
        rcases hs : objectReleaseLog x st.store with e | ⟨log, s'⟩
        · exact (hspec.of_error hs).elim
        · obtain ⟨⟨hinv', hshrinks⟩, heffect⟩ := hspec.of_ok hs
          have howned : Owned (Function.update st.handles x (st.handles x - 1)) s' :=
            ⟨hinv', hshrinks.positive hpos, hshrinks.noCursor hcursor⟩
          refine ⟨⟨s', _⟩, log, rfl, howned, ?_⟩
          exact destroys_of_effect hinv howned hshrinks heffect fun y p z _ _ hy hlive =>
            heffect.parent y p hy (by simp) hlive
  | write x buf =>
      rw [step]
      split
      · exact hskip
      · next hx =>
        obtain ⟨s', hwrite, rfl | ⟨n, hr, -⟩⟩ := objectWrite_spec (Creations.Inv.tree hinv) hx buf
        · refine ⟨st, [], ?_, h, destroys_nothing fun _ hy => hy⟩
          rw [hwrite]
          rfl
        · refine ⟨⟨s', st.handles⟩, [], ?_, owned_renames h hr,
            destroys_nothing fun y hy => (hr.live y).mpr hy⟩
          rw [hwrite]
          rfl

theorem owned_init (heap : Nat → Bool) : Owned (fun _ => 0) (fileSystemInit heap) := by
  refine ⟨inv_init heap, positive_init heap, fun x => ?_⟩
  rw [cursor, objects_init]
  split_ifs
  · rfl
  · rfl

/-- Whatever is done to the file system, no assertion fails and the parents are
linked with their entries. What a directory leaves behind when it is destroyed are
trees of their own. -/
theorem parent_links_hold (heap : Nat → Bool) (actions : List Action) :
    ∃ st logs, run step ⟨fileSystemInit heap, fun _ => 0⟩ actions = .ok (st, logs) ∧
      Linked st.store ∧ ∀ a, ∃ st' log, step st a = .ok (st', log) ∧ Destroys log st st' := by
  have hstep : ∀ st a, Owned st.handles st.store →
      (∃ e, step st a = .error e ∧ False) ∨
        ∃ st' log, step st a = .ok (st', log) ∧ Owned st'.handles st'.store := by
    intro st a hst
    obtain ⟨st', log, hok, howned, -⟩ := step_spec hst a
    exact Or.inr ⟨st', log, hok, howned⟩
  have hstart : Owned (⟨fileSystemInit heap, fun _ => 0⟩ : State).handles
      (⟨fileSystemInit heap, fun _ => 0⟩ : State).store := owned_init heap
  obtain ⟨e, -, he⟩ | ⟨st, logs, hok, howned⟩ := run_outcome hstep hstart actions
  · exact he.elim
  · refine ⟨st, logs, hok, linked_of_inv howned.1, fun a => ?_⟩
    obtain ⟨st', log, hstep, -, hdestroys⟩ := step_spec howned a
    exact ⟨st', log, hstep, hdestroys⟩

end

end Ibnos.ParentLinks
