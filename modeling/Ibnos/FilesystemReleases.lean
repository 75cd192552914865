import Ibnos.FilesystemTrees

/-!
Releasing a reference. The last reference on a directory takes its whole subtree
along, as far as nobody else refers to it; entries of a directory are younger
than the directory, so that older objects stay as they are.
-/

namespace Ibnos.FilesystemReleases

open Ibnos.Filesystem
open Ibnos.FilesystemTrees
open Ibnos.Forests
open Ibnos.Programs
open Ibnos.Strings
open Ibnos.Tallies

/-- Objects go away and entries leave their directory, nothing is added. -/
structure Shrinks (s s' : Store) : Prop where
  fresh : s'.fresh = s.fresh
  root : s'.root = s.root
  heap : s'.heap = s.heap
  allocs : s'.allocs = s.allocs
  live : ∀ x, s'.objects x ≠ none → s.objects x ≠ none
  entry : ∀ x k, (shape s').kind x = some k → (shape s).kind x = some k ∧ name s' x = name s x
  parent : ∀ x p, (shape s').parent x = some p → (shape s).parent x = some p
  cursor : ∀ x c, cursor s' x = some c → cursor s x = some c
  opened : ∀ x t, opened s' x = some t → opened s x = some t
  zero : ∀ x, s'.objects x ≠ none → s'.refcount x = 0 → s.refcount x = 0

/-- Objects older than `x` are not touched. -/
def Older (x : Nat) (s s' : Store) : Prop :=
  ∀ y < x, s'.objects y = s.objects y ∧ s'.refcount y = s.refcount y

section

variable {s s' s'' : Store} {held : Nat → Nat} {x y p : Nat} {k : Kind}

theorem Shrinks.refl (s : Store) : Shrinks s s :=
  ⟨rfl, rfl, rfl, rfl, fun _ h => h, fun _ _ h => ⟨h, rfl⟩, fun _ _ h => h, fun _ _ h => h,
    fun _ _ h => h,
    fun _ _ h => h⟩

theorem Shrinks.trans (h : Shrinks s s') (h' : Shrinks s' s'') : Shrinks s s'' where
  fresh := h'.fresh.trans h.fresh
  root := h'.root.trans h.root
  heap := h'.heap.trans h.heap
  allocs := h'.allocs.trans h.allocs
  live x hx := h.live x (h'.live x hx)
  entry x k hx := ⟨(h.entry x k (h'.entry x k hx).1).1,
    (h'.entry x k hx).2.trans (h.entry x k (h'.entry x k hx).1).2⟩
  parent x p hx := h.parent x p (h'.parent x p hx)
  cursor x c hx := h.cursor x c (h'.cursor x c hx)
  opened x t hx := h.opened x t (h'.opened x t hx)
  zero x hx hzero := h.zero x (h'.live x hx) (h'.zero x hx hzero)

theorem Shrinks.noCursor (h : Shrinks s s') (hs : NoCursor s) : NoCursor s' := by
  intro x
  rcases hx : FilesystemTrees.cursor s' x with _ | c
  · rfl
  · have := h.cursor x c hx
    rw [hs x] at this
    cases this

theorem Shrinks.positive (h : Shrinks s s') (hs : Positive s) : Positive s' := by
  intro x hx
  rw [Nat.pos_iff_ne_zero]
  intro hzero
  exact (hs x (h.live x hx)).ne' (h.zero x hx hzero)

theorem Older.trans (h : Older x s s') (h' : Older x s' s'') : Older x s s'' :=
  fun y hy => ⟨(h' y hy).1.trans (h y hy).1, (h' y hy).2.trans (h y hy).2⟩

theorem Older.mono (h : Older x s s') (hyx : y ≤ x) : Older y s s' :=
  fun z hz => h z (hz.trans_le hyx)

theorem getObject_eq {o : Object} (h : s.objects x = some o) : getObject x s = .ok (o, s) := by
  rw [getObject, h]

theorem getDirectory_eq {d : Directory} (h : s.objects x = some (.directory d)) :
    getDirectory x s = .ok (d, s) := by
  rw [getDirectory, bind_apply, getObject_eq h]
  rfl

theorem getFile_eq {f : File} (h : s.objects x = some (.file f)) : getFile x s = .ok (f, s) := by
  rw [getFile, bind_apply, getObject_eq h]
  rfl

theorem kernelAssert_eq {c : Prop} {_ : Decidable c} (h : c) : kernelAssert c s = .ok ((), s) := by
  rw [kernelAssert, if_pos h]
  rfl

theorem kind_eq_directory : (shape s).kind x = some .directory ↔
    ∃ d, s.objects x = some (.directory d) := by
  change (s.objects x).bind kindOf = some Kind.directory ↔ _
  rcases s.objects x with _ | ⟨_ | _ | _ | _⟩ <;> simp [kindOf]

theorem kind_eq_file : (shape s).kind x = some .file ↔ ∃ f, s.objects x = some (.file f) := by
  change (s.objects x).bind kindOf = some Kind.file ↔ _
  rcases s.objects x with _ | ⟨_ | _ | _ | _⟩ <;> simp [kindOf]

/-- What is needed of `__objectRelease` on the entries of the tree by those who
call it, for a limited depth. -/
def Releases (release : Nat → Kernel Unit) (fuel : Nat) : Prop :=
  ∀ s held x k, Inv s (oneMore held x) → (shape s).kind x = some k →
    s.fresh < x + fuel → Yields (fun _ => False) (release x) s fun _ s' =>
      Inv s' held ∧ Shrinks s s' ∧ Older x s s'

/-- How the objects `o` of an entry and `d` of its directory change when the
entry is taken out. -/
structure Unlinks (k : Kind) (x p : Nat) (o o' d d' : Object) : Prop where
  kind : kindOf o = some k
  parent : parentOf o = some p
  kind' : kindOf o' = some k
  parent' : parentOf o' = none
  name' : nameOf o' = nameOf o
  children' : ∀ j, childrenOf o' j = childrenOf o j
  directory : kindOf d = some .directory
  directory' : kindOf d' = some .directory
  parent_directory : parentOf d' = parentOf d
  name_directory : nameOf d' = nameOf d
  same : childrenOf d' k = (childrenOf d k).erase x
  other : ∀ j ≠ k, childrenOf d' j = childrenOf d j

def unlinked (s : Store) (x p : Nat) (o' d' : Object) : Store :=
  put (put s p (some d')) x (some o')

theorem opened_cursor_of_kind {o : Object} (h : kindOf o = some k) :
    openedOf o = none ∧ cursorOf o = none := by
  rcases o with _ | _ | _ | _
  · exact ⟨rfl, rfl⟩
  · exact ⟨rfl, rfl⟩
  · cases h
  · cases h

section

variable {o o' d d' : Object}

theorem update_update_eq_self {α : Type} {f : Nat → α} {a b : α} (hp : f p = a) (hx : f x = b) :
    Function.update (Function.update f p a) x b = f := by
  subst hp hx
  rw [Function.update_eq_self, Function.update_eq_self]

theorem inv_unlinked (h : Inv s held) (ho : s.objects x = some o) (hd : s.objects p = some d)
    (hu : Unlinks k x p o o' d d') : Inv (unlinked s x p o' d') (oneMore held x) := by
  have hkind : (shape s).kind x = some k := (kind_eq ho).trans hu.kind
  have hparent : (shape s).parent x = some p := (parent_eq ho).trans hu.parent
  have hne : p ≠ x := Nat.ne_of_lt (h.forest.parent x p hparent).2.1
  refine inv_unlink h hparent hkind ?_ ?_ ?_ ?_ ?_ ?_ rfl rfl rfl
  · rw [unlinked, kind_put, kind_put]
    refine update_update_eq_self ?_ ?_
    · exact (kind_eq hd).trans (hu.directory.trans hu.directory'.symm)
    · rw [hkind]
      exact hu.kind'.symm
  · rw [unlinked, parent_put, parent_put]
    have hself : (shape s).parent p = parentOf d' :=
      (parent_eq hd).trans hu.parent_directory.symm
    change Function.update (Function.update (shape s).parent p (parentOf d')) x (parentOf o') = _
    rw [← hself, Function.update_eq_self, hu.parent']
  · rw [unlinked, children_put, Function.update_of_ne hne, children_put, Function.update_self]
    change childrenOf d' k = _
    rw [hu.same]
    congr 1
    exact (children_eq hd).symm
  · intro j q hjq
    rw [unlinked, children_put, children_put]
    rcases eq_or_ne q x with rfl | hqx
    · rw [Function.update_self]
      change childrenOf o' j = _
      rw [hu.children']
      exact (children_eq ho).symm
    · rw [Function.update_of_ne hqx]
      rcases eq_or_ne q p with rfl | hqp
      · rw [Function.update_self]
        change childrenOf d' j = _
        rw [hu.other j (fun hj => hjq ⟨hj, rfl⟩)]
        exact (children_eq hd).symm
      · rw [Function.update_of_ne hqp]
  · rw [unlinked, opened_put, opened_put]
    refine update_update_eq_self ?_ ?_
    · rw [opened_eq hd, (opened_cursor_of_kind hu.directory).1]
      exact (opened_cursor_of_kind hu.directory').1.symm
    · rw [opened_eq ho, (opened_cursor_of_kind hu.kind).1]
      exact (opened_cursor_of_kind hu.kind').1.symm
  · intro y
    rw [unlinked, objects_put, objects_put, Function.update_apply, Function.update_apply]
    split_ifs with hyx hyp
    · rw [hyx, ho]
      exact iff_of_true nofun nofun
    · rw [hyp, hd]
      exact iff_of_true nofun nofun
    · rfl

theorem shrinks_unlinked (ho : s.objects x = some o) (hd : s.objects p = some d)
    (hu : Unlinks k x p o o' d d') : Shrinks s (unlinked s x p o' d') := by
  refine ⟨rfl, rfl, rfl, rfl, ?_, ?_, ?_, ?_, ?_, fun _ _ hzero => hzero⟩
  · intro y hy
    rcases live_put hy with rfl | hy
    · rw [ho]
      exact nofun
    · rcases live_put hy with rfl | hy
      · rw [hd]
        exact nofun
      · exact hy
  · intro y j hy
    rw [unlinked, kind_put, kind_put] at hy
    rw [unlinked, name_put, name_put]
    rcases eq_or_ne y x with rfl | hyx
    · rw [Function.update_self] at hy ⊢
      rw [kind_eq ho, name_eq ho]
      exact ⟨hu.kind.trans (hu.kind'.symm.trans hy), hu.name'⟩
    · rw [Function.update_of_ne hyx] at hy ⊢
      rcases eq_or_ne y p with rfl | hyp
      · rw [Function.update_self] at hy ⊢
        rw [kind_eq hd, name_eq hd]
        exact ⟨hu.directory.trans (hu.directory'.symm.trans hy), hu.name_directory⟩
      · rw [Function.update_of_ne hyp] at hy ⊢
        exact ⟨hy, rfl⟩
  · intro y q hy
    rw [unlinked, parent_put, parent_put] at hy
    rcases eq_or_ne y x with rfl | hyx
    · rw [Function.update_self] at hy
      cases hu.parent'.symm.trans hy
    · rw [Function.update_of_ne hyx] at hy
      rcases eq_or_ne y p with rfl | hyp
      · rw [Function.update_self] at hy
        rw [parent_eq hd]
        exact hu.parent_directory.symm.trans hy
      · rwa [Function.update_of_ne hyp] at hy
  · intro y c hy
    rw [unlinked, cursor_put, cursor_put] at hy
    rcases eq_or_ne y x with rfl | hyx
    · rw [Function.update_self] at hy
      cases (opened_cursor_of_kind hu.kind').2.symm.trans hy
    · rw [Function.update_of_ne hyx] at hy
      rcases eq_or_ne y p with rfl | hyp
      · rw [Function.update_self] at hy
        cases (opened_cursor_of_kind hu.directory').2.symm.trans hy
      · rwa [Function.update_of_ne hyp] at hy
  · intro y t hy
    rw [unlinked, opened_put, opened_put] at hy
    rcases eq_or_ne y x with rfl | hyx
    · rw [Function.update_self] at hy
      cases (opened_cursor_of_kind hu.kind').1.symm.trans hy
    · rw [Function.update_of_ne hyx] at hy
      rcases eq_or_ne y p with rfl | hyp
      · rw [Function.update_self] at hy
        cases (opened_cursor_of_kind hu.directory').1.symm.trans hy
      · rwa [Function.update_of_ne hyp] at hy

theorem unlinks_file {f : File} {d : Directory} (hf : f.parent = some p) :
    Unlinks .file x p (.file f) (.file { f with parent := none, next := successor d.files x })
      (.directory d) (.directory { d with files := d.files.erase x }) :=
  ⟨rfl, hf, rfl, rfl, rfl, fun j => rfl, rfl, rfl, rfl, rfl, rfl, fun j hj => by
    rcases j with _ | _
    · exact (hj rfl).elim
    · rfl⟩

theorem unlinks_directory {e d : Directory} (he : e.parent = some p) :
    Unlinks .directory x p (.directory e)
      (.directory { e with parent := none, next := successor d.directories x })
      (.directory d) (.directory { d with directories := d.directories.erase x }) :=
  ⟨rfl, he, rfl, rfl, rfl, fun j => by cases j <;> rfl, rfl, rfl, rfl, rfl, rfl, fun j hj => by
    rcases j with _ | _
    · rfl
    · exact (hj rfl).elim⟩

end

/-- The directory `p` is left with the entries `xs` of one kind. -/
structure Takes (k : Kind) (p : Nat) (xs : List Nat) (held : Nat → Nat) (s s' : Store) : Prop where
  inv : Inv s' held
  shrinks : Shrinks s s'
  kind : (shape s').kind p = some .directory
  children : (shape s').children k p = xs
  other : ∀ j ≠ k, (shape s').children j p = (shape s).children j p
  count : s'.refcount p = s.refcount p
  older : Older p s s'

theorem Takes.trans {xs ys : List Nat} (h : Takes k p xs held s s')
    (h' : Takes k p ys held s' s'') :
    Takes k p ys held s s'' where
  inv := h'.inv
  shrinks := h.shrinks.trans h'.shrinks
  kind := h'.kind
  children := h'.children
  other j hj := (h'.other j hj).trans (h.other j hj)
  count := h'.count.trans h.count
  older := h.older.trans h'.older

theorem older_unlinked {o' d' : Object} (hpx : p < x) : Older p s (unlinked s x p o' d') := by
  intro y hy
  refine ⟨?_, rfl⟩
  rw [unlinked, objects_put, objects_put, Function.update_of_ne (by omega),
    Function.update_of_ne (by omega)]

/-- The entry which is released after it was taken out is younger than its directory. -/
theorem takes_release {release : Nat → Kernel Unit} {fuel : Nat} {o o' d d' : Object}
    (hr : Releases release fuel) (h : Inv s held) (ho : s.objects x = some o)
    (hd : s.objects p = some d) (hu : Unlinks k x p o o' d d') (hfuel : s.fresh < x + fuel) :
    Yields (fun _ => False) (release x) (unlinked s x p o' d') fun _ s' =>
      Takes k p (((shape s).children k p).erase x) held s s' := by
  have hpx := (h.forest.parent x p ((parent_eq ho).trans hu.parent)).2.1
  have hx : (unlinked s x p o' d').objects x = some o' := Function.update_self ..
  have hp : (unlinked s x p o' d').objects p = some d' := by
    rw [unlinked, objects_put, Function.update_of_ne (Nat.ne_of_lt hpx)]
    exact Function.update_self ..
  have hshrinks := shrinks_unlinked ho hd hu
  have hrelease := hr _ held x k (inv_unlinked h ho hd hu) ((kind_eq hx).trans hu.kind') hfuel
  refine hrelease.mono ?_
  rintro - s' ⟨hinv, hshrinks', holder⟩
  have hp' := (holder p hpx).1.trans hp
  refine ⟨hinv, hshrinks.trans hshrinks', (kind_eq hp').trans hu.directory', ?_, ?_,
    (holder p hpx).2, (older_unlinked hpx).trans (holder.mono hpx.le)⟩
  · rw [children_eq hp', children_eq hd]
    exact hu.same
  · intro j hj
    rw [children_eq hp', children_eq hd]
    exact hu.other j hj

section

variable {release : Nat → Kernel Unit} {fuel : Nat}

theorem fileShutdown_takes (hr : Releases release fuel) (h : Inv s held)
    (hx : x ∈ (shape s).children .file p) (hfuel : s.fresh < x + fuel) :
    Yields (fun _ => False) (fileShutdown release x) s fun _ s' =>
      Takes .file p (((shape s).children .file p).erase x) held s s' := by
  obtain ⟨hkind, hparent⟩ := (h.forest.mem_children .file p x).mp hx
  obtain ⟨f, hf⟩ := kind_eq_file.mp hkind
  obtain ⟨d, hd⟩ := kind_eq_directory.mp (h.forest.parent x p hparent).1
  have hfp : f.parent = some p := (parent_eq hf).symm.trans hparent
  refine yields_ok_bind (getFile_eq hf) ?_
  rw [hfp]
  refine yields_ok_bind (a := ()) ?_ (takes_release hr h hf hd (unlinks_file hfp) hfuel)
  rw [unlinkFile, bind_apply, getDirectory_eq hd]
  rfl

theorem directoryShutdown_takes (hr : Releases release fuel) (h : Inv s held)
    (hx : x ∈ (shape s).children .directory p) (hfuel : s.fresh < x + fuel) :
    Yields (fun _ => False) (directoryShutdown release x) s fun _ s' =>
      Takes .directory p (((shape s).children .directory p).erase x) held s s' := by
  obtain ⟨hkind, hparent⟩ := (h.forest.mem_children .directory p x).mp hx
  obtain ⟨e, he⟩ := kind_eq_directory.mp hkind
  obtain ⟨d, hd⟩ := kind_eq_directory.mp (h.forest.parent x p hparent).1
  have hep : e.parent = some p := (parent_eq he).symm.trans hparent
  refine yields_ok_bind (getDirectory_eq he) ?_
  rw [hep]
  refine yields_ok_bind (a := ()) ?_ (takes_release hr h he hd (unlinks_directory hep) hfuel)
  rw [unlinkDirectory, bind_apply, getDirectory_eq hd]
  rfl

/-- The loop over the entries of one kind, where `body` takes out one of them. -/
theorem forEach_takes {body : Nat → Kernel Unit} {n : Nat}
    (hbody : ∀ s x, Inv s held → s.fresh = n → x ∈ (shape s).children k p →
      Yields (fun _ => False) (body x) s fun _ s' =>
        Takes k p (((shape s).children k p).erase x) held s s')
    (xs : List Nat) {s : Store} (h : Inv s held) (hn : s.fresh = n)
    (hp : (shape s).kind p = some .directory) (hxs : (shape s).children k p = xs) :
    Yields (fun _ => False) (forEach body xs) s fun _ s' => Takes k p [] held s s' := by
  induction xs generalizing s with
  | nil => exact ⟨h, Shrinks.refl s, hp, hxs, fun _ _ => rfl, rfl, fun _ _ => ⟨rfl, rfl⟩⟩
  | cons x xs ih =>
      refine (hbody s x h hn (by rw [hxs]; exact List.mem_cons_self)).bind ?_
      rintro - s₁ h₁
      have hxs₁ := h₁.children
      rw [hxs, List.erase_cons_head] at hxs₁
      refine (ih h₁.inv (h₁.shrinks.fresh.trans hn) h₁.kind hxs₁).mono ?_
      rintro - s₂ h₂
      exact h₁.trans h₂

theorem shrinks_free (s : Store) (x : Nat) : Shrinks s (put s x none) := by
  refine ⟨rfl, rfl, rfl, rfl, fun y hy => (live_free hy).2, ?_, ?_, ?_, ?_, fun _ _ hzero => hzero⟩
  · intro y k hy
    rw [kind_put] at hy
    rw [name_put]
    rcases eq_or_ne y x with rfl | hyx
    · rw [Function.update_self] at hy
      cases hy
    · rw [Function.update_of_ne hyx] at hy ⊢
      exact ⟨hy, rfl⟩
  · intro y p hy
    rw [parent_put] at hy
    rcases eq_or_ne y x with rfl | hyx
    · rw [Function.update_self] at hy
      cases hy
    · rwa [Function.update_of_ne hyx] at hy
  · intro y c hy
    rw [cursor_put] at hy
    rcases eq_or_ne y x with rfl | hyx
    · rw [Function.update_self] at hy
      cases hy
    · rwa [Function.update_of_ne hyx] at hy
  · intro y t hy
    rw [opened_put] at hy
    rcases eq_or_ne y x with rfl | hyx
    · rw [Function.update_self] at hy
      cases hy
    · rwa [Function.update_of_ne hyx] at hy

theorem older_free (s : Store) (x : Nat) : Older x s (put s x none) := by
  intro y hy
  exact ⟨Function.update_of_ne (Nat.ne_of_lt hy) .., rfl⟩

theorem fileDestroy_spec (h : Inv s held) (hx : (shape s).kind x = some .file)
    (hzero : s.refcount x = 0) :
    Yields (fun _ => False) (fileDestroy x) s fun _ s' =>
      Inv s' held ∧ Shrinks s s' ∧ Older x s s' ∧ s'.objects x = none := by
  obtain ⟨f, hf⟩ := kind_eq_file.mp hx
  have hparent := (of_owners_eq_zero h (live_of_kind hx) hzero).1
  rw [parent_eq hf] at hparent
  refine yields_ok_bind (getFile_eq hf) (yields_ok_bind (kernelAssert_eq hparent) ?_)
  refine ⟨inv_free h hx hzero ?_, shrinks_free s x, older_free s x, Function.update_self ..⟩
  intro j
  rw [children_eq hf]
  rfl

theorem directoryDestroy_spec (hr : Releases release fuel) (h : Inv s held)
    (hx : (shape s).kind x = some .directory) (hzero : s.refcount x = 0)
    (hfuel : s.fresh < x + (fuel + 1)) :
    Yields (fun _ => False) (directoryDestroy release x) s fun _ s' =>
      Inv s' held ∧ Shrinks s s' ∧ Older x s s' ∧ s'.objects x = none := by
  obtain ⟨d, hd⟩ := kind_eq_directory.mp hx
  have hparent := (of_owners_eq_zero h (live_of_kind hx) hzero).1
  rw [parent_eq hd] at hparent
  -- entries are younger than their directory, so that one level less is enough for them
  have hlevel : ∀ (k : Kind) (s' : Store) (y : Nat), Inv s' held → s'.fresh = s.fresh →
      y ∈ (shape s').children k x → s'.fresh < y + fuel := by
    intro k s' y h' hfresh hy
    have := (h'.forest.parent y x ((h'.forest.mem_children k x y).mp hy).2).2.1
    omega
  refine yields_ok_bind (getDirectory_eq hd) (yields_ok_bind (kernelAssert_eq hparent) ?_)
  refine Yields.bind (Q := fun _ s' => Inv s' held ∧ Shrinks s s' ∧ Older x s s' ∧
    (shape s').kind x = some .directory ∧ (∀ j, (shape s').children j x = []) ∧
      s'.refcount x = 0) ?_ ?_
  · refine yields_ok_bind (getDirectory_eq hd) ?_
    refine (forEach_takes (fun s' y h' hfresh hy =>
      fileShutdown_takes hr h' hy (hlevel .file s' y h' hfresh hy)) d.files h rfl hx
        (children_eq hd)).bind ?_
    rintro - s₁ h₁
    obtain ⟨d₁, hd₁⟩ := kind_eq_directory.mp h₁.kind
    refine yields_ok_bind (getDirectory_eq hd₁) ?_
    refine (forEach_takes (fun s' y h' hfresh hy =>
      directoryShutdown_takes hr h' hy (hlevel .directory s' y h' hfresh hy)) d₁.directories
        h₁.inv h₁.shrinks.fresh h₁.kind (children_eq hd₁)).mono ?_
    rintro - s₂ h₂
    refine ⟨h₂.inv, h₁.shrinks.trans h₂.shrinks, h₁.older.trans h₂.older, h₂.kind, ?_,
      h₂.count.trans (h₁.count.trans hzero)⟩
    rintro (_ | _)
    · exact (h₂.other .file nofun).trans h₁.children
    · exact h₂.children
  · rintro - s' ⟨hinv, hshrinks, holder, hkind, hchildren, hzero'⟩
    obtain ⟨d', hd'⟩ := kind_eq_directory.mp hkind
    have hfiles := hchildren .file
    have hdirectories := hchildren .directory
    rw [children_eq hd'] at hfiles hdirectories
    refine yields_ok_bind (getDirectory_eq hd')
      (yields_ok_bind (kernelAssert_eq ⟨hfiles, hdirectories⟩) ?_)
    exact ⟨inv_free hinv hkind hzero' hchildren, hshrinks.trans (shrinks_free s' x),
      holder.trans (older_free s' x), Function.update_self ..⟩

end

theorem shrinks_of_count {n : Nat} (h : Shrinks (count s x n) s')
    (hx : s'.objects x = none ∨ n ≠ 0) : Shrinks s s' where
  fresh := h.fresh
  root := h.root
  heap := h.heap
  allocs := h.allocs
  live := h.live
  entry := h.entry
  parent := h.parent
  cursor := h.cursor
  opened := h.opened
  zero y hy hzero := by
    have hcount := h.zero y hy hzero
    rw [refcount_count, Function.update_apply] at hcount
    split_ifs at hcount with hyx
    · rcases hx with hx | hx
      · rw [hyx] at hy
        exact (hy hx).elim
      · exact (hx hcount).elim
    · exact hcount

theorem older_count {n : Nat} (h : Older x (count s x n) s') : Older x s s' := by
  intro y hy
  refine ⟨(h y hy).1, (h y hy).2.trans ?_⟩
  exact Function.update_of_ne (Nat.ne_of_lt hy) ..

/-- The count after a release decides about the destructor. -/
theorem yields_releaseNested {o : Object} {fuel : Nat} {Q : Unit → Store → Prop}
    (ho : s.objects x = some o) (hzero : decrement (s.refcount x) = 0 →
      Yields (fun _ => False) (objectDestroy (releaseNested fuel) x)
        (count s x (decrement (s.refcount x))) Q)
    (hpos : decrement (s.refcount x) ≠ 0 → Q () (count s x (decrement (s.refcount x)))) :
    Yields (fun _ => False) (releaseNested (fuel + 1) x) s Q := by
  rw [releaseNested]
  refine yields_ok_bind (getObject_eq ho) (yields_modify_bind (yields_get_bind ?_))
  have hcount : (count s x (decrement (s.refcount x))).refcount x = decrement (s.refcount x) :=
    Function.update_self ..
  refine yields_ite (fun h => hzero (hcount.symm.trans h)) (fun h => ?_)
  exact yields_pure (hpos fun hd => h (hcount.trans hd))

theorem releases_nested (fuel : Nat) : Releases (releaseNested fuel) fuel := by
  induction fuel with
  | zero =>
      intro s held x k h hk hfuel
      have := h.lt_fresh x (live_of_kind hk)
      omega
  | succ fuel ih =>
      intro s held x k h hk hfuel
      obtain ⟨o, ho⟩ := Option.ne_none_iff_exists'.mp (live_of_kind hk)
      have hinv := inv_decrement h
      refine yields_releaseNested ho (fun hzero => ?_) (fun hpos => ?_)
      · have hzero' : (count s x (decrement (s.refcount x))).refcount x = 0 :=
          (Function.update_self ..).trans hzero
        refine Yields.mono (Q := fun _ s' => Inv s' held ∧
          Shrinks (count s x (decrement (s.refcount x))) s' ∧
            Older x (count s x (decrement (s.refcount x))) s' ∧ s'.objects x = none) ?_ ?_
        · refine yields_ok_bind (getObject_eq ho) ?_
          rcases o with d | f | f | d
          · exact directoryDestroy_spec ih hinv (kind_eq_directory.mpr ⟨d, ho⟩) hzero' hfuel
          · exact fileDestroy_spec hinv (kind_eq_file.mpr ⟨f, ho⟩) hzero'
          · rw [kind_eq ho] at hk
            cases hk
          · rw [kind_eq ho] at hk
            cases hk
        · rintro - s' ⟨hinv', hshrinks, holder, hnone⟩
          exact ⟨hinv', shrinks_of_count hshrinks (Or.inl hnone), older_count holder⟩
      · exact ⟨hinv, shrinks_of_count (Shrinks.refl _) (Or.inr hpos),
          older_count fun _ _ => ⟨rfl, rfl⟩⟩

/-- The destructor of an opened file or directory passes its reference on. -/
theorem releaseNested_target (h : Inv s held) (ht : opened s x = some (k, y))
    (hzero : s.refcount x = 0) :
    Yields (fun _ => False) (releaseNested (s.fresh + 1) y) (put s x none) fun _ s' =>
      Inv s' held ∧ Shrinks s s' ∧ s'.objects x = none := by
  have hyx : y ≠ x := by
    rintro rfl
    have := h.opened y k y ht
    rw [(kind_of_opened ht).1] at this
    cases this
  have hkind : (shape (put s x none)).kind y = some k := by
    rw [kind_put, Function.update_of_ne hyx]
    exact h.opened x k y ht
  refine (releases_nested (s.fresh + 1) (put s x none) held y k (inv_close h ht hzero)
    hkind ?_).mono ?_
  · change s.fresh < y + (s.fresh + 1)
    omega
  · rintro - s' ⟨hinv, hshrinks, -⟩
    refine ⟨hinv, (shrinks_free s x).trans hshrinks, ?_⟩
    by_contra hlive
    exact hshrinks.live x hlive (Function.update_self ..)

theorem objectRelease_apply (x : Nat) (s : Store) :
    objectRelease x s = releaseNested (s.fresh + 2) x s := rfl

theorem yields_objectRelease {Q : Unit → Store → Prop}
    (h : Yields (fun _ => False) (releaseNested (s.fresh + 2) x) s Q) :
    Yields (fun _ => False) (objectRelease x) s Q := by
  rw [Yields] at h ⊢
  rw [objectRelease_apply]
  exact h

/-- A reference which is held is given up. -/
theorem objectRelease_spec (h : Inv s (oneMore held x)) (hc : NoCursor s) :
    Yields (fun _ => False) (objectRelease x) s fun _ s' => Inv s' held ∧ Shrinks s s' := by
  obtain ⟨o, ho⟩ := Option.ne_none_iff_exists'.mp (h.held_live x (oneMore_pos held x))
  refine yields_objectRelease ?_
  rcases hk : kindOf o with _ | k
  · have hinv := inv_decrement h
    refine yields_releaseNested ho (fun hzero => ?_) (fun hpos => ?_)
    · have hzero' : (count s x (decrement (s.refcount x))).refcount x = 0 :=
        (Function.update_self ..).trans hzero
      refine Yields.mono (Q := fun _ s' => Inv s' held ∧
        Shrinks (count s x (decrement (s.refcount x))) s' ∧ s'.objects x = none) ?_ ?_
      · refine yields_ok_bind (getObject_eq ho) ?_
        rcases o with d | f | f | d
        · cases hk
        · cases hk
        · refine yields_modify_bind ?_
          exact releaseNested_target hinv (opened_eq ho) hzero'
        · have hpos : d.pos = none := by
            have := hc x
            rw [cursor, ho] at this
            exact this
          change Yields _ (openedDirectoryDestroy _ x d) _ _
          rw [openedDirectoryDestroy, hpos]
          refine yields_modify_bind ?_
          exact releaseNested_target hinv (opened_eq ho) hzero'
      · rintro - s' ⟨hinv', hshrinks, hnone⟩
        exact ⟨hinv', shrinks_of_count hshrinks (Or.inl hnone)⟩
    · exact ⟨hinv, shrinks_of_count (Shrinks.refl _) (Or.inr hpos)⟩
  · refine (releases_nested (s.fresh + 2) s held x k h ((kind_eq ho).trans hk) (by omega)).mono ?_
    rintro - s' ⟨hinv, hshrinks, -⟩
    exact ⟨hinv, hshrinks⟩

theorem releases_objectRelease (fuel : Nat) : Releases objectRelease fuel := by
  intro s held x k h hk _
  exact yields_objectRelease (releases_nested (s.fresh + 2) s held x k h hk (by omega))

theorem parent_of_takes (h : Inv s held) (hx : x ∈ (shape s).children k p)
    (ht : Takes k p (((shape s).children k p).erase x) held s s') : (shape s').parent x = none := by
  by_contra hne
  obtain ⟨q, hq⟩ := Option.ne_none_iff_exists'.mp hne
  obtain ⟨hkind, hparent⟩ := (h.forest.mem_children k p x).mp hx
  obtain rfl : q = p := Option.some.inj ((ht.shrinks.parent x q hq).symm.trans hparent)
  obtain ⟨j, hj⟩ := Option.ne_none_iff_exists'.mp (ht.inv.forest.parent x q hq).2.2
  obtain rfl : j = k := Option.some.inj ((ht.shrinks.entry x j hj).1.symm.trans hkind)
  have hmem := (ht.inv.forest.mem_children j q x).mpr ⟨hj, hq⟩
  rw [ht.children] at hmem
  exact (h.forest.nodup j q).not_mem_erase hmem

/-- An entry of the file system is deleted. -/
theorem objectShutdown_spec (h : Inv s held) (hx : s.objects x ≠ none) :
    Yields (fun _ => False) (objectShutdown x) s fun _ s' =>
      Inv s' held ∧ Shrinks s s' ∧ (shape s').parent x = none := by
  obtain ⟨o, ho⟩ := Option.ne_none_iff_exists'.mp hx
  have hfuel : s.fresh < x + (s.fresh + 1) := by omega
  refine yields_ok_bind (getObject_eq ho) ?_
  rcases o with d | f | f | d
  · rcases hp : d.parent with _ | p
    · refine yields_ok_bind (getDirectory_eq ho) ?_
      rw [hp]
      exact ⟨h, Shrinks.refl s, (parent_eq ho).trans hp⟩
    · have hmem := (h.forest.mem_children .directory p x).mpr ⟨kind_eq ho, (parent_eq ho).trans hp⟩
      refine (directoryShutdown_takes (releases_objectRelease _) h hmem hfuel).mono ?_
      intro _ s' ht
      exact ⟨ht.inv, ht.shrinks, parent_of_takes h hmem ht⟩
  · rcases hp : f.parent with _ | p
    · refine yields_ok_bind (getFile_eq ho) ?_
      rw [hp]
      exact ⟨h, Shrinks.refl s, (parent_eq ho).trans hp⟩
    · have hmem := (h.forest.mem_children .file p x).mpr ⟨kind_eq ho, (parent_eq ho).trans hp⟩
      refine (fileShutdown_takes (releases_objectRelease _) h hmem hfuel).mono ?_
      intro _ s' ht
      exact ⟨ht.inv, ht.shrinks, parent_of_takes h hmem ht⟩
  · exact ⟨h, Shrinks.refl s, parent_eq ho⟩
  · exact ⟨h, Shrinks.refl s, parent_eq ho⟩

/-- An entry which is referenced by its directory alone goes away when it is deleted. -/
theorem objectShutdown_destroys (h : Inv s held) (hpos : Positive s) (hx : s.objects x ≠ none)
    (hheld : held x = 0) (hroot : x ≠ s.root) (htarget : ∀ y, target s y ≠ some x) :
    ∃ s', objectShutdown x s = .ok ((), s') ∧ s'.objects x = none := by
  have hspec := objectShutdown_spec h hx
  rcases hs : objectShutdown x s with e | ⟨u, s'⟩
  · exact (hspec.of_error hs).elim
  · obtain ⟨hinv, hshrinks, hparent⟩ := hspec.of_ok hs
    refine ⟨s', rfl, ?_⟩
    by_contra hlive
    have htarget' : tally (target s') x = 0 := by
      by_contra hne
      obtain ⟨y, hy⟩ := (Set.ncard_pos (hinv.finitary.places x)).mp (Nat.pos_of_ne_zero hne)
      rw [Set.mem_ofPred_eq, target] at hy
      obtain ⟨t, ht, hx⟩ := Option.map_eq_some_iff.mp hy
      refine htarget y ?_
      rw [target, hshrinks.opened y t ht]
      exact congrArg some hx
    have hbalanced := hinv.balanced x hlive
    rw [owners, hparent, if_pos rfl, hshrinks.root, if_neg hroot, htarget', hheld] at hbalanced
    exact (hshrinks.positive hpos x hlive).ne' hbalanced

end

end Ibnos.FilesystemReleases
