import Ibnos.FilesystemRuns

/-!
Releasing a reference with the list of the objects which are destroyed by it, in
the order in which their memory is freed. Entries which leave a directory do so
because it is destroyed, and what stays behind keeps its own entries.
-/

namespace Ibnos.Destructions

open Ibnos.Filesystem
open Ibnos.FilesystemReleases
open Ibnos.FilesystemTrees
open Ibnos.Forests
open Ibnos.Programs

section

variable (release : Nat → Kernel (List Nat))

/-- `__fileShutdown` -/
def fileShutdownLog (x : Nat) : Kernel (List Nat) := do
  let f ← getFile x
  match f.parent with
  | none => pure []
  | some p =>
      unlinkFile x f p
      release x

/-- `__directoryShutdown` -/
def directoryShutdownLog (x : Nat) : Kernel (List Nat) := do
  let d ← getDirectory x
  match d.parent with
  | none => pure []
  | some p =>
      unlinkDirectory x d p
      release x

/-- `LL_FOR_EACH_SAFE` -/
def forEachLog (body : Nat → Kernel (List Nat)) : List Nat → Kernel (List Nat)
  | [] => pure []
  | x :: xs => do
      let log ← body x
      let log' ← forEachLog body xs
      pure (log ++ log')

/-- `__directoryShutdownChilds` -/
def directoryShutdownChildsLog (x : Nat) : Kernel (List Nat) := do
  let d ← getDirectory x
  let log ← forEachLog (fileShutdownLog release) d.files
  let d ← getDirectory x
  let log' ← forEachLog (directoryShutdownLog release) d.directories
  pure (log ++ log')

/-- `__directoryDestroy` -/
def directoryDestroyLog (x : Nat) : Kernel (List Nat) := do
  let d ← getDirectory x
  kernelAssert (d.parent = none)
  let log ← directoryShutdownChildsLog release x
  let d ← getDirectory x
  kernelAssert (d.files = [] ∧ d.directories = [])
  heapFree x
  pure (log ++ [x])

/-- `__fileDestroy` -/
def fileDestroyLog (x : Nat) : Kernel (List Nat) := do
  let f ← getFile x
  kernelAssert (f.parent = none)
  heapFree x
  pure [x]

/-- `__openedFileDestroy` -/
def openedFileDestroyLog (x : Nat) (h : OpenedFile) : Kernel (List Nat) := do
  heapFree x
  let log ← release h.file
  pure (x :: log)

/-- `__openedDirectoryDestroy` -/
def openedDirectoryDestroyLog (x : Nat) (h : OpenedDirectory) : Kernel (List Nat) := do
  let log ← match h.pos with
    | none => pure []
    | some y => release y
  heapFree x
  let log' ← release h.directory
  pure (log ++ x :: log')

def objectDestroyLog (x : Nat) : Kernel (List Nat) := do
  match ← getObject x with
  | .directory _ => directoryDestroyLog release x
  | .file _ => fileDestroyLog x
  | .openedFile h => openedFileDestroyLog release x h
  | .openedDirectory h => openedDirectoryDestroyLog release x h

end

/-- `__objectRelease`, nested in at most `fuel` others. -/
def releaseNestedLog : Nat → Nat → Kernel (List Nat)
  | 0, _ => throw .outOfFuel
  | fuel + 1, x => do
      let _ ← getObject x
      modify fun s => { s with refcount := Function.update s.refcount x (decrement (s.refcount x)) }
      let s ← get
      if s.refcount x = 0 then objectDestroyLog (releaseNestedLog fuel) x else pure []

/-- `__objectRelease` -/
def objectReleaseLog (x : Nat) : Kernel (List Nat) := fun s => releaseNestedLog (s.fresh + 2) x s

/-- `__objectShutdown` -/
def objectShutdownLog (x : Nat) : Kernel (List Nat) := do
  match ← getObject x with
  | .directory _ => directoryShutdownLog objectReleaseLog x
  | .file _ => fileShutdownLog objectReleaseLog x
  | _ => pure []

/-- The program without the list. -/
def forget (m : Kernel (List Nat)) : Kernel Unit := do
  let _ ← m
  pure ()

section

variable {release : Nat → Kernel (List Nat)} {m : Kernel (List Nat)} {x : Nat}

theorem forget_bind {α : Type} {m : Kernel α} {f : α → Kernel (List Nat)} :
    forget (m >>= f) = m >>= fun a => forget (f a) := bind_assoc ..

theorem forget_apply (s : Store) : forget m s = match m s with
    | .ok (_, s') => .ok ((), s')
    | .error e => .error e := by
  rw [forget, bind_apply]
  rcases m s with e | ⟨log, s'⟩
  · rfl
  · rfl

theorem forget_pure (log : List Nat) : forget (pure log) = pure () := rfl

theorem bind_forget {α : Type} {f : Unit → Kernel α} : forget m >>= f = m >>= fun _ => f () := by
  rw [forget, bind_assoc]
  simp only [pure_bind]

theorem forget_fileShutdownLog :
    forget (fileShutdownLog release x) = fileShutdown (fun y => forget (release y)) x := by
  rw [fileShutdownLog, forget_bind, fileShutdown]
  congr 1
  funext f
  rcases f.parent with _ | p
  · rfl
  · exact forget_bind

theorem forget_directoryShutdownLog :
    forget (directoryShutdownLog release x) = directoryShutdown
    (fun y => forget (release y)) x := by
  rw [directoryShutdownLog, forget_bind, directoryShutdown]
  congr 1
  funext d
  rcases d.parent with _ | p
  · rfl
  · exact forget_bind

theorem forget_forEachLog {body : Nat → Kernel (List Nat)} (xs : List Nat) :
    forget (forEachLog body xs) = forEach (fun y => forget (body y)) xs := by
  induction xs with
  | nil => rfl
  | cons x xs ih =>
      simp only [forEachLog, forEach, forget_bind, ← ih, bind_forget, forget_pure]
      rfl

theorem forget_directoryShutdownChildsLog : forget (directoryShutdownChildsLog release x) =
    directoryShutdownChilds (fun y => forget (release y)) x := by
  have hfiles : fileShutdown (fun y => forget (release y)) = fun y =>
    forget (fileShutdownLog release y) := by
    funext y
    exact forget_fileShutdownLog.symm
  have hdirectories : directoryShutdown (fun y => forget (release y)) =
      fun y => forget (directoryShutdownLog release y) := by
    funext y
    exact forget_directoryShutdownLog.symm
  rw [directoryShutdownChildsLog, directoryShutdownChilds, hfiles, hdirectories]
  simp only [← forget_forEachLog, bind_forget, forget_bind, forget_pure]
  rfl

theorem forget_directoryDestroyLog :
    forget (directoryDestroyLog release x) = directoryDestroy (fun y => forget (release y)) x := by
  rw [directoryDestroyLog, directoryDestroy, ← forget_directoryShutdownChildsLog]
  simp only [bind_forget, forget_bind, forget_pure]
  rfl

theorem forget_objectDestroyLog :
    forget (objectDestroyLog release x) = objectDestroy (fun y => forget (release y)) x := by
  rw [objectDestroyLog, forget_bind, objectDestroy]
  congr 1
  funext o
  rcases o with d | f | h | h
  · exact forget_directoryDestroyLog
  · change forget (fileDestroyLog x) = fileDestroy x
    simp only [fileDestroyLog, fileDestroy, forget_bind, forget_pure]
    rfl
  · simp only [openedFileDestroyLog, openedFileDestroy, forget_bind, forget_pure]
    rfl
  · rcases hpos : h.pos with _ | y <;>
      simp [openedDirectoryDestroyLog, openedDirectoryDestroy, forget, hpos]

theorem forget_releaseNestedLog (fuel : Nat) :
    (fun y => forget (releaseNestedLog fuel y)) = releaseNested fuel := by
  induction fuel with
  | zero => rfl
  | succ fuel ih =>
      funext x
      rw [releaseNestedLog, releaseNested, ← ih]
      simp only [forget_bind, apply_ite forget, forget_objectDestroyLog, forget_pure]

theorem objectReleaseLog_apply (s : Store) :
    objectReleaseLog x s = releaseNestedLog (s.fresh + 2) x s := rfl

theorem forget_objectReleaseLog : (fun y => forget (objectReleaseLog y)) = objectRelease := by
  funext y s
  rw [forget_apply, objectReleaseLog_apply, ← forget_apply,
    objectRelease_apply, ← forget_releaseNestedLog]

theorem forget_objectShutdownLog : forget (objectShutdownLog x) = objectShutdown x := by
  rw [objectShutdownLog, forget_bind, objectShutdown]
  congr 1
  funext o
  rcases o with d | f | h | h
  · rw [← forget_objectReleaseLog]
    exact forget_directoryShutdownLog
  · rw [← forget_objectReleaseLog]
    exact forget_fileShutdownLog
  · rfl
  · rfl

/-- What is known of the program holds of the program with the list. -/
theorem yields_of_forget {E : Fault → Prop} {s : Store} {Q : Unit → Store → Prop}
    (h : Yields E (forget m) s Q) : Yields E m s fun _ s' => Q () s' := by
  refine yields_iff.mpr ⟨fun log s' hm => h.of_ok ?_, fun e hm => h.of_error ?_⟩
  · rw [forget_apply, hm]
  · rw [forget_apply, hm]

/-- The program and its list can be treated one after the other. -/
theorem yields_forget_also {E : Fault → Prop} {s : Store} {Q : Unit → Store → Prop}
    {R : List Nat → Store → Prop} (h : Yields E (forget m) s Q)
    (h' : Yields (fun _ => True) m s R) : Yields E m s fun log s' => Q () s' ∧ R log s' :=
  (yields_of_forget h).also h'

end

/-- Exactly the objects in `log` are destroyed, each of them once. What is still there keeps
its entries, apart from the entries of `p`. -/
structure Effect (p : Option Nat) (log : List Nat) (s s' : Store) : Prop where
  live : ∀ x, s'.objects x ≠ none → s.objects x ≠ none
  nodup : log.Nodup
  mem : ∀ x, x ∈ log ↔ s.objects x ≠ none ∧ s'.objects x = none
  parent : ∀ x q, (shape s).parent x = some q → p ≠ some q → s'.objects q ≠ none →
    (shape s').parent x = some q
  order : ∀ k q, s'.objects q ≠ none → ((shape s').children k q).Sublist ((shape s).children k q)

section

variable {s s' s'' : Store} {held : Nat → Nat} {p : Option Nat} {log log' : List Nat} {x y : Nat}
  {k : Kind}

theorem effect_of_objects (h : s'.objects = s.objects) : Effect p [] s s' := by
  have hshape : shape s' = shape s := by
    rw [shape, shape, h]
  refine ⟨?_, List.nodup_nil, ?_, ?_, ?_⟩
  · intro x hx
    rwa [h] at hx
  · intro x
    rw [h]
    simp
  · intro x q hx _ _
    rwa [hshape]
  · intro k q _
    rw [hshape]

theorem Effect.trans (h : Effect p log s s') (h' : Effect p log' s' s'') :
    Effect p (log ++ log') s s'' := by
  refine ⟨fun x hx => h.live x (h'.live x hx), ?_, ?_, ?_, ?_⟩
  · refine h.nodup.append h'.nodup fun x hx hx' => ?_
    exact ((h'.mem x).mp hx').1 ((h.mem x).mp hx).2
  · intro x
    rw [List.mem_append, h.mem, h'.mem]
    constructor
    · rintro (⟨hlive, hnone⟩ | ⟨hlive, hnone⟩)
      · refine ⟨hlive, ?_⟩
        by_contra hlive'
        exact h'.live x hlive' hnone
      · exact ⟨h.live x hlive, hnone⟩
    · rintro ⟨hlive, hnone⟩
      rcases hx : s'.objects x with _ | o
      · exact Or.inl ⟨hlive, rfl⟩
      · exact Or.inr ⟨nofun, hnone⟩
  · intro x q hx hp hq
    exact h'.parent x q (h.parent x q hx hp (h'.live q hq)) hp hq
  · intro k q hq
    exact (h'.order k q hq).trans (h.order k q (h'.live q hq))

/-- The entries of another directory may be taken out as well. -/
theorem Effect.mono (h : Effect none log s s') (p : Option Nat) : Effect p log s s' :=
  ⟨h.live, h.nodup, h.mem, fun x q hx _ => h.parent x q hx nofun, h.order⟩

theorem effect_unlinked {o o' d d' : Object} {p : Nat} (ho : s.objects x = some o)
    (hd : s.objects p = some d) (hne : p ≠ x) (hu : Unlinks k x p o o' d d') :
    Effect (some p) [] s (unlinked s x p o' d') := by
  have hobjects : ∀ y, (unlinked s x p o' d').objects y =
      if y = x then some o' else if y = p then some d' else s.objects y := by
    intro y
    rw [unlinked, objects_put, objects_put, Function.update_apply, Function.update_apply]
  have hparent : ∀ y ≠ x, (shape (unlinked s x p o' d')).parent y = (shape s).parent y := by
    intro y hy
    change ((unlinked s x p o' d').objects y).bind parentOf = (s.objects y).bind parentOf
    rw [hobjects, if_neg hy]
    split_ifs with hyp
    · rw [hyp, hd]
      exact hu.parent_directory
    · rfl
  have hlive : ∀ y, (unlinked s x p o' d').objects y = none ↔ s.objects y = none := by
    intro y
    rw [hobjects]
    split_ifs with hyx hyp
    · rw [hyx, ho]
      exact iff_of_false (by simp) (by simp)
    · rw [hyp, hd]
      exact iff_of_false (by simp) (by simp)
    · rfl
  refine ⟨fun y hy => fun hnone => hy ((hlive y).mpr hnone), List.nodup_nil, ?_, ?_, ?_⟩
  · intro y
    rw [hlive]
    simp
  · intro y q hy hp _
    rw [hparent y, hy]
    rintro rfl
    rw [parent_eq ho, hu.parent] at hy
    exact hp hy
  · intro j q _
    rw [unlinked, children_put, children_put]
    rcases eq_or_ne q x with rfl | hqx
    · rw [Function.update_self, children_eq ho]
      change (childrenOf o' j).Sublist _
      rw [hu.children']
    · rw [Function.update_of_ne hqx]
      rcases eq_or_ne q p with rfl | hqp
      · rw [Function.update_self, children_eq hd]
        change (childrenOf d' j).Sublist _
        rcases eq_or_ne j k with rfl | hj
        · rw [hu.same]
          exact List.erase_sublist
        · rw [hu.other j hj]
      · rw [Function.update_of_ne hqp]

/-- An object which is in no directory is destroyed, after its own entries have left it. -/
theorem Effect.free (h : Effect p log s s') (hp : ∀ q, p = some q → q = x)
    (hlive : s'.objects x ≠ none) (hparent : (shape s).parent x = none) :
    Effect none (log ++ [x]) s (put s' x none) := by
  have hobjects : ∀ y ≠ x, (put s' x none).objects y = s'.objects y := by
    intro y hy
    rw [objects_put, Function.update_of_ne hy]
  have hlive' : ∀ y, (put s' x none).objects y ≠ none → y ≠ x ∧ s'.objects y ≠ none :=
    fun y => live_free
  refine ⟨fun y hy => h.live y (hlive' y hy).2, ?_, ?_, ?_, ?_⟩
  · refine h.nodup.append (List.nodup_singleton x) fun y hy hyx => ?_
    rw [List.mem_singleton.mp hyx] at hy
    exact hlive ((h.mem x).mp hy).2
  · intro y
    rw [List.mem_append, List.mem_singleton, h.mem]
    rcases eq_or_ne y x with rfl | hyx
    · rw [objects_put, Function.update_self]
      simp [h.live y hlive]
    · rw [hobjects y hyx]
      simp [hyx]
  · intro y q hy _ hq
    have hqx := (hlive' q hq).1
    have hyx : y ≠ x := by
      rintro rfl
      rw [hparent] at hy
      cases hy
    rw [parent_put, Function.update_of_ne hyx]
    exact h.parent y q hy (fun hpq => hqx (hp q hpq)) (hlive' q hq).2
  · intro j q hq
    rw [children_put, Function.update_of_ne (hlive' q hq).1]
    exact h.order j q (hlive' q hq).2

/-- What is known of a release with its list, for a limited depth. -/
def Logs (release : Nat → Kernel (List Nat)) (fuel : Nat) : Prop :=
  Releases (fun y => forget (release y)) fuel ∧ ∀ s held x k, Inv s (oneMore held x) →
    (shape s).kind x = some k → s.fresh < x + fuel →
      Yields (fun _ => True) (release x) s fun log s' => Effect none log s s'

section

variable {release : Nat → Kernel (List Nat)} {fuel : Nat}

theorem unlinked_effect {o o' d d' : Object} {p : Nat} (hr : Logs release fuel) (h : Inv s held)
    (ho : s.objects x = some o) (hd : s.objects p = some d) (hu : Unlinks k x p o o' d d')
    (hfuel : s.fresh < x + fuel) :
    Yields (fun _ => True) (release x) (unlinked s x p o' d') fun log s' =>
      Effect (some p) log s s' ∧ ∀ z ∈ log, x ≤ z := by
  have hpx := (h.forest.parent x p ((parent_eq ho).trans hu.parent)).2.1
  have hx : (unlinked s x p o' d').objects x = some o' := Function.update_self ..
  have hinv := inv_unlinked h ho hd hu
  have hkind := (kind_eq hx).trans hu.kind'
  refine ((hr.2 _ held x k hinv hkind hfuel).also
    (yields_of_forget (hr.1 _ held x k hinv hkind hfuel))).mono ?_
  rintro log s' ⟨heffect, -, -, holder⟩
  refine ⟨(effect_unlinked ho hd hpx.ne hu).trans (heffect.mono _), fun z hz => ?_⟩
  -- objects older than the entry are not touched by its release
  by_contra hlt
  have hmem := (heffect.mem z).mp hz
  rw [(holder z (by omega)).1] at hmem
  exact hmem.1 hmem.2

theorem fileShutdownLog_effect {p : Nat} (hr : Logs release fuel) (h : Inv s held)
    (hx : x ∈ (shape s).children .file p) (hfuel : s.fresh < x + fuel) :
    Yields (fun _ => False) (fileShutdownLog release x) s fun log s' =>
      Takes .file p (((shape s).children .file p).erase x) held s s' ∧
        Effect (some p) log s s' ∧ ∀ z ∈ log, x ≤ z := by
  have htakes := fileShutdown_takes hr.1 h hx hfuel
  rw [← forget_fileShutdownLog] at htakes
  refine yields_forget_also htakes ?_
  obtain ⟨hkind, hparent⟩ := (h.forest.mem_children .file p x).mp hx
  obtain ⟨f, hf⟩ := kind_eq_file.mp hkind
  obtain ⟨d, hd⟩ := kind_eq_directory.mp (h.forest.parent x p hparent).1
  have hfp : f.parent = some p := (parent_eq hf).symm.trans hparent
  refine yields_ok_bind (getFile_eq hf) ?_
  rw [hfp]
  refine yields_ok_bind (a := ()) ?_ (unlinked_effect hr h hf hd (unlinks_file hfp) hfuel)
  rw [unlinkFile, bind_apply, getDirectory_eq hd]
  rfl

theorem directoryShutdownLog_effect {p : Nat} (hr : Logs release fuel) (h : Inv s held)
    (hx : x ∈ (shape s).children .directory p) (hfuel : s.fresh < x + fuel) :
    Yields (fun _ => False) (directoryShutdownLog release x) s fun log s' =>
      Takes .directory p (((shape s).children .directory p).erase x) held s s' ∧
        Effect (some p) log s s' ∧ ∀ z ∈ log, x ≤ z := by
  have htakes := directoryShutdown_takes hr.1 h hx hfuel
  rw [← forget_directoryShutdownLog] at htakes
  refine yields_forget_also htakes ?_
  obtain ⟨hkind, hparent⟩ := (h.forest.mem_children .directory p x).mp hx
  obtain ⟨e, he⟩ := kind_eq_directory.mp hkind
  obtain ⟨d, hd⟩ := kind_eq_directory.mp (h.forest.parent x p hparent).1
  have hep : e.parent = some p := (parent_eq he).symm.trans hparent
  refine yields_ok_bind (getDirectory_eq he) ?_
  rw [hep]
  refine yields_ok_bind (a := ()) ?_ (unlinked_effect hr h he hd (unlinks_directory hep) hfuel)
  rw [unlinkDirectory, bind_apply, getDirectory_eq hd]
  rfl

theorem forEachLog_effect {p : Nat} {body : Nat → Kernel (List Nat)} {n : Nat}
    (hbody : ∀ s x, Inv s held → s.fresh = n → x ∈ (shape s).children k p →
      Yields (fun _ => False) (body x) s fun log s' =>
        Takes k p (((shape s).children k p).erase x) held s s' ∧ Effect (some p) log s s')
    (xs : List Nat) {s : Store} (h : Inv s held) (hn : s.fresh = n)
    (hp : (shape s).kind p = some .directory) (hxs : (shape s).children k p = xs) :
    Yields (fun _ => False) (forEachLog body xs) s fun log s' =>
      Takes k p [] held s s' ∧ Effect (some p) log s s' := by
  induction xs generalizing s with
  | nil =>
      exact ⟨⟨h, Shrinks.refl s, hp, hxs, fun _ _ => rfl, rfl, fun _ _ => ⟨rfl, rfl⟩⟩,
        effect_of_objects rfl⟩
  | cons x xs ih =>
      refine (hbody s x h hn (by rw [hxs]; exact List.mem_cons_self)).bind ?_
      rintro log s₁ ⟨h₁, heffect⟩
      have hxs₁ := h₁.children
      rw [hxs, List.erase_cons_head] at hxs₁
      refine (ih h₁.inv (h₁.shrinks.fresh.trans hn) h₁.kind hxs₁).bind ?_
      rintro log' s₂ ⟨h₂, heffect'⟩
      exact yields_pure ⟨h₁.trans h₂, heffect.trans heffect'⟩

theorem yields_kernelAssert {c : Prop} {_ : Decidable c} {α : Type} {f : Unit → Kernel α}
    {Q : α → Store → Prop} (h : c → Yields (fun _ => True) (f ()) s Q) :
    Yields (fun _ => True) (kernelAssert c >>= f) s Q := by
  rcases Classical.em c with hc | hc
  · exact yields_ok_bind (kernelAssert_eq hc) (h hc)
  · rw [kernelAssert, if_neg hc]
    exact trivial

/-- The directory goes away after its files and its directories. -/
theorem directoryDestroyLog_effect (hr : Logs release fuel) (h : Inv s held)
    (hx : (shape s).kind x = some .directory) (hfuel : s.fresh < x + (fuel + 1)) :
    Yields (fun _ => True) (directoryDestroyLog release x) s fun log s' =>
      Effect none log s s' := by
  obtain ⟨d, hd⟩ := kind_eq_directory.mp hx
  have hlevel : ∀ (k : Kind) (s' : Store) (y : Nat), Inv s' held → s'.fresh = s.fresh →
      y ∈ (shape s').children k x → s'.fresh < y + fuel := by
    intro k s' y h' hfresh hy
    have := (h'.forest.parent y x ((h'.forest.mem_children k x y).mp hy).2).2.1
    omega
  refine yields_ok_bind (getDirectory_eq hd) (yields_kernelAssert fun hparent => ?_)
  refine Yields.bind (Q := fun log s' => Effect (some x) log s s' ∧ s'.objects x ≠ none) ?_ ?_
  · refine yields_ok_bind (getDirectory_eq hd) ?_
    refine ((forEachLog_effect (fun s' y h' hfresh hy => (fileShutdownLog_effect hr h' hy
      (hlevel .file s' y h' hfresh hy)).mono fun _ _ ht => ⟨ht.1, ht.2.1⟩) d.files h rfl hx
        (children_eq hd)).excuse fun _ _ => trivial).bind ?_
    rintro log s₁ ⟨h₁, heffect⟩
    obtain ⟨d₁, hd₁⟩ := kind_eq_directory.mp h₁.kind
    refine yields_ok_bind (getDirectory_eq hd₁) ?_
    refine ((forEachLog_effect (fun s' y h' hfresh hy => (directoryShutdownLog_effect hr h' hy
      (hlevel .directory s' y h' hfresh hy)).mono fun _ _ ht => ⟨ht.1, ht.2.1⟩) d₁.directories
        h₁.inv h₁.shrinks.fresh h₁.kind
        (children_eq hd₁)).excuse fun _ _ => trivial).bind ?_
    rintro log' s₂ ⟨h₂, heffect'⟩
    exact yields_pure ⟨heffect.trans heffect', live_of_kind h₂.kind⟩
  · rintro log s' ⟨heffect, hlive⟩
    refine Yields.bind (Q := fun _ s'' => s'' = s') ?_ ?_
    · obtain ⟨o, ho⟩ := Option.ne_none_iff_exists'.mp hlive
      rw [getDirectory]
      refine yields_ok_bind (getObject_eq ho) ?_
      rcases o with _ | _ | _ | _
      · exact rfl
      · exact trivial
      · exact trivial
      · exact trivial
    · rintro d' _ rfl
      refine yields_kernelAssert fun _ => yields_modify_bind (yields_pure ?_)
      exact heffect.free (fun q hq => (Option.some.inj hq).symm) hlive
        ((parent_eq hd).trans hparent)

end

theorem logs_releaseNestedLog (fuel : Nat) : Logs (releaseNestedLog fuel) fuel := by
  induction fuel with
  | zero =>
      refine ⟨?_, ?_⟩
      · rw [forget_releaseNestedLog]
        exact releases_nested 0
      · intro s held x k h hk hfuel
        exact trivial
  | succ fuel ih =>
      refine ⟨?_, ?_⟩
      · rw [forget_releaseNestedLog]
        exact releases_nested (fuel + 1)
      · intro s held x k h hk hfuel
        obtain ⟨o, ho⟩ := Option.ne_none_iff_exists'.mp (live_of_kind hk)
        rw [releaseNestedLog]
        refine yields_ok_bind (getObject_eq ho) (yields_modify_bind (yields_get_bind ?_))
        refine yields_ite (fun _ => ?_) fun _ => yields_pure (effect_of_objects rfl)
        refine Yields.mono (Q := fun log s' =>
          Effect none log (count s x (decrement (s.refcount x))) s') ?_ ?_
        · refine yields_ok_bind (getObject_eq ho) ?_
          rcases o with d | f | f | d
          · exact directoryDestroyLog_effect ih (inv_decrement h)
              (kind_eq_directory.mpr ⟨d, ho⟩) hfuel
          · change Yields _ (fileDestroyLog x) _ _
            refine yields_ok_bind (getFile_eq ho) (yields_kernelAssert fun hparent => ?_)
            refine yields_modify_bind (yields_pure ?_)
            exact (effect_of_objects (p := none) rfl).free nofun (live_of_kind hk)
              ((parent_eq ho).trans hparent)
          · rw [kind_eq ho] at hk
            cases hk
          · rw [kind_eq ho] at hk
            cases hk
        · intro log s' heffect
          have hcount : Effect none [] s (count s x (decrement (s.refcount x))) :=
            effect_of_objects rfl
          exact hcount.trans heffect

theorem releaseNestedLog_target {h : Kind × Nat} (hinv : Inv s held) (ht : opened s x = some h)
    (hzero : s.refcount x = 0) :
    Yields (fun _ => True) (releaseNestedLog (s.fresh + 1) h.2) (put s x none) fun log s' =>
      Effect none (x :: log) s s' := by
  obtain ⟨k, y⟩ := h
  have hyx : y ≠ x := by
    rintro rfl
    have hkind := hinv.opened y k y ht
    rw [(kind_of_opened ht).1] at hkind
    cases hkind
  have hkind : (shape (put s x none)).kind y = some k := by
    rw [kind_put, Function.update_of_ne hyx]
    exact hinv.opened x k y ht
  have hlive : s.objects x ≠ none := by
    intro hnone
    rw [opened, hnone] at ht
    cases ht
  have hfree : Effect none ([] ++ [x]) s (put s x none) :=
    (effect_of_objects (p := none) rfl).free (by simp) hlive (kind_of_opened ht).2.1
  refine ((logs_releaseNestedLog (s.fresh + 1)).2 (put s x none) held y k (inv_close hinv ht hzero)
    hkind ?_).mono fun log s' heffect => hfree.trans heffect
  change s.fresh < y + (s.fresh + 1)
  omega

/-- A reference which is held is given up. -/
theorem objectReleaseLog_effect (h : Inv s (oneMore held x)) (hc : NoCursor s) :
    Yields (fun _ => False) (objectReleaseLog x) s fun log s' =>
      (Inv s' held ∧ Shrinks s s') ∧ Effect none log s s' := by
  have hspec := objectRelease_spec h hc
  rw [← forget_objectReleaseLog] at hspec
  refine yields_forget_also hspec ?_
  obtain ⟨o, ho⟩ := Option.ne_none_iff_exists'.mp (h.held_live x (oneMore_pos held x))
  refine Yields.of_eq ?_ (objectReleaseLog_apply s)
  rcases hk : kindOf o with _ | k
  · have hcount : Effect none [] s (count s x (decrement (s.refcount x))) := effect_of_objects rfl
    rw [releaseNestedLog]
    refine yields_ok_bind (getObject_eq ho) (yields_modify_bind (yields_get_bind ?_))
    refine yields_ite (fun hzero => ?_) fun _ => yields_pure (effect_of_objects rfl)
    refine yields_ok_bind (getObject_eq ho) ?_
    rcases o with d | f | f | d
    · cases hk
    · cases hk
    · refine yields_modify_bind ?_
      refine (releaseNestedLog_target (inv_decrement h) (opened_eq ho) hzero).bind ?_
      intro log s' heffect
      exact yields_pure (hcount.trans heffect)
    · have hpos : d.pos = none := by
        have := hc x
        rw [cursor, ho] at this
        exact this
      change Yields _ (openedDirectoryDestroyLog _ x d) _ _
      rw [openedDirectoryDestroyLog, hpos]
      refine yields_ok_bind rfl (yields_modify_bind ?_)
      refine (releaseNestedLog_target (inv_decrement h) (opened_eq ho) hzero).bind ?_
      intro log s' heffect
      exact yields_pure (hcount.trans heffect)
  · exact (logs_releaseNestedLog (s.fresh + 2)).2 s held x k h ((kind_eq ho).trans hk) (by omega)

theorem logs_objectReleaseLog (fuel : Nat) : Logs objectReleaseLog fuel := by
  refine ⟨?_, ?_⟩
  · rw [forget_objectReleaseLog]
    exact releases_objectRelease fuel
  · intro s held x k h hk _
    exact ((logs_releaseNestedLog (s.fresh + 2)).2 s held x k h hk (by omega)).of_eq
      (objectReleaseLog_apply s)

/-- The entry which is deleted leaves its directory, which keeps the other ones. -/
theorem parent_of_taken {p : Nat} (h : Inv s held)
    (ht : Takes k p (((shape s).children k p).erase x) held s s')
    (heffect : Effect (some p) log s s')
    {q : Nat} (hy : (shape s).parent y = some q) (hyx : y ≠ x) (hq : s'.objects q ≠ none) :
    (shape s').parent y = some q := by
  rcases eq_or_ne p q with rfl | hpq
  · obtain ⟨j, hj⟩ := Option.ne_none_iff_exists'.mp (h.forest.parent y p hy).2.2
    have hmem := (h.forest.mem_children j p y).mpr ⟨hj, hy⟩
    refine ((ht.inv.forest.mem_children j p y).mp ?_).2
    rcases eq_or_ne j k with rfl | hjk
    · rw [ht.children]
      exact (List.mem_erase_of_ne hyx).mpr hmem
    · rwa [ht.other j hjk]
  · exact heffect.parent y q hy (fun heq => hpq (Option.some.inj heq)) hq

theorem objectShutdownLog_effect (h : Inv s held) (hx : s.objects x ≠ none) :
    Yields (fun _ => False) (objectShutdownLog x) s fun log s' =>
      (Inv s' held ∧ Shrinks s s' ∧ (shape s').parent x = none) ∧
        (∃ p, Effect p log s s') ∧ (∀ z ∈ log, x ≤ z) ∧
          ∀ y q, (shape s).parent y = some q → y ≠ x → s'.objects q ≠ none →
            (shape s').parent y = some q := by
  have hspec := objectShutdown_spec h hx
  rw [← forget_objectShutdownLog] at hspec
  refine yields_forget_also hspec ?_
  obtain ⟨o, ho⟩ := Option.ne_none_iff_exists'.mp hx
  have hfuel : s.fresh < x + (s.fresh + 1) := by omega
  have hsame : (∃ p, Effect p [] s s) ∧ (∀ z ∈ ([] : List Nat), x ≤ z) ∧
      ∀ y q, (shape s).parent y = some q → y ≠ x → s.objects q ≠ none →
        (shape s).parent y = some q :=
    ⟨⟨none, effect_of_objects rfl⟩, by simp, fun _ _ hy _ _ => hy⟩
  refine yields_ok_bind (getObject_eq ho) ?_
  rcases o with d | f | f | d
  · rcases hp : d.parent with _ | p
    · refine yields_ok_bind (getDirectory_eq ho) ?_
      rw [hp]
      exact yields_pure hsame
    · have hmem := (h.forest.mem_children .directory p x).mpr ⟨kind_eq ho, (parent_eq ho).trans hp⟩
      refine ((directoryShutdownLog_effect (logs_objectReleaseLog _) h hmem hfuel).mono ?_).excuse
        fun _ _ => trivial
      rintro log s' ⟨ht, heffect, hyounger⟩
      exact ⟨⟨_, heffect⟩, hyounger, fun y q => parent_of_taken h ht heffect⟩
  · rcases hp : f.parent with _ | p
    · refine yields_ok_bind (getFile_eq ho) ?_
      rw [hp]
      exact yields_pure hsame
    · have hmem := (h.forest.mem_children .file p x).mpr ⟨kind_eq ho, (parent_eq ho).trans hp⟩
      refine ((fileShutdownLog_effect (logs_objectReleaseLog _) h hmem hfuel).mono ?_).excuse
        fun _ _ => trivial
      rintro log s' ⟨ht, heffect, hyounger⟩
      exact ⟨⟨_, heffect⟩, hyounger, fun y q => parent_of_taken h ht heffect⟩
  · exact yields_pure hsame
  · exact yields_pure hsame

end

end Ibnos.Destructions
