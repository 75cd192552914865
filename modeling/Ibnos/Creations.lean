import Ibnos.Lookups

/-!
Creating entries. A new entry is referenced by its directory and by the caller.
-/

namespace Ibnos.Creations

open Ibnos.Filesystem
open Ibnos.FilesystemReleases
open Ibnos.FilesystemTrees
open Ibnos.Forests
open Ibnos.Lookups
open Ibnos.Programs
open Ibnos.Strings
open Ibnos.Tallies

/-- The entry `s.fresh` is added to the directory `p`. -/
structure Grows (k : Kind) (p : Nat) (c : Bytes) (s s' : Store) : Prop where
  kind : (shape s').kind = Function.update (shape s).kind s.fresh (some k)
  parent : (shape s').parent = Function.update (shape s).parent s.fresh (some p)
  same : (shape s').children k p = (shape s).children k p ++ [s.fresh]
  other : ∀ j q, ¬(j = k ∧ q = p) → (shape s').children j q = (shape s).children j q
  name : name s' = Function.update (name s) s.fresh (some c)
  opened : opened s' = opened s
  cursor : cursor s' = cursor s
  live : ∀ x, s'.objects x ≠ none ↔ x = s.fresh ∨ s.objects x ≠ none
  refcount : s'.refcount = Function.update s.refcount s.fresh 2
  fresh : s'.fresh = s.fresh + 1
  root : s'.root = s.root
  heap : s'.heap = s.heap

/-- How the objects of a directory change when an entry `x` is added. -/
structure Links (k : Kind) (p x : Nat) (c : Bytes) (o d d' : Object) : Prop where
  kind : kindOf o = some k
  parent : parentOf o = some p
  name : nameOf o = some c
  children : ∀ j, childrenOf o j = []
  directory : kindOf d = some .directory
  directory' : kindOf d' = some .directory
  parent_directory : parentOf d' = parentOf d
  name_directory : nameOf d' = nameOf d
  same : childrenOf d' k = childrenOf d k ++ [x]
  other : ∀ j ≠ k, childrenOf d' j = childrenOf d j

/-- The store after a creation, where `a` calls of `heapAlloc` were made in all. -/
def created (s : Store) (p : Nat) (o d' : Object) (a : Nat) : Store :=
  { put (put s s.fresh (some o)) p (some d') with
    refcount := Function.update s.refcount s.fresh 2
    fresh := s.fresh + 1
    allocs := a }

section

variable {s s' : Store} {held : Nat → Nat} {k : Kind} {p x : Nat} {c : Bytes} {o d d' : Object}

/-- An object which is replaced by one which looks the same. -/
theorem update_of_view {α : Type} {f g : Nat → α} {a : α} (hf : f p = a) (hp : p ≠ x) (v : α)
    (hg : g = Function.update (Function.update f x v) p a) : g = Function.update f x v := by
  rw [hg, Function.update_comm hp.symm, ← hf, Function.update_eq_self]

theorem grows_created (hlt : ∀ x, s.objects x ≠ none → x < s.fresh) (hd : s.objects p = some d)
    (hl : Links k p s.fresh c o d d') (a : Nat) : Grows k p c s (created s p o d' a) := by
  have hp : p ≠ s.fresh := Nat.ne_of_lt (hlt p (by rw [hd]; exact nofun))
  have hfresh : s.objects s.fresh = none := by
    by_contra hne
    exact Nat.lt_irrefl _ (hlt s.fresh hne)
  have hshape : shape (created s p o d' a) = shape (put (put s s.fresh (some o)) p (some d')) := rfl
  refine ⟨?_, ?_, ?_, ?_, ?_, ?_, ?_, ?_, rfl, rfl, rfl, rfl⟩
  · refine update_of_view ((kind_eq hd).trans (hl.directory.trans hl.directory'.symm)) hp
      (some k) ?_
    rw [hshape, kind_put, kind_put, Option.bind_some, Option.bind_some, hl.kind]
  · refine update_of_view ((parent_eq hd).trans hl.parent_directory.symm) hp (some p) ?_
    rw [hshape, parent_put, parent_put, Option.bind_some, Option.bind_some, hl.parent]
  · rw [hshape, children_put, Function.update_self, children_eq hd]
    exact hl.same
  · intro j q hjq
    rw [hshape, children_put, children_put]
    rcases eq_or_ne q p with rfl | hqp
    · rw [Function.update_self, children_eq hd]
      exact hl.other j fun hj => hjq ⟨hj, rfl⟩
    · rw [Function.update_of_ne hqp]
      rcases eq_or_ne q s.fresh with rfl | hq
      · rw [Function.update_self]
        refine (hl.children j).trans ?_
        change [] = (Option.map _ (s.objects s.fresh)).getD []
        rw [hfresh]
        rfl
      · rw [Function.update_of_ne hq]
  · refine update_of_view ((name_eq hd).trans hl.name_directory.symm) hp (some c) ?_
    change FilesystemTrees.name (put (put s s.fresh (some o)) p (some d')) = _
    rw [name_put, name_put, Option.bind_some, Option.bind_some, hl.name]
  · change FilesystemTrees.opened (put (put s s.fresh (some o)) p (some d')) = _
    rw [opened_put, opened_put]
    refine update_update_eq_self ?_ ?_
    · rw [FilesystemTrees.opened, hfresh]
      exact (opened_cursor_of_kind hl.kind).1.symm
    · rw [opened_eq hd, (opened_cursor_of_kind hl.directory).1]
      exact (opened_cursor_of_kind hl.directory').1.symm
  · change FilesystemTrees.cursor (put (put s s.fresh (some o)) p (some d')) = _
    rw [cursor_put, cursor_put]
    refine update_update_eq_self ?_ ?_
    · rw [FilesystemTrees.cursor, hfresh]
      exact (opened_cursor_of_kind hl.kind).2.symm
    · rw [FilesystemTrees.cursor, hd]
      exact (opened_cursor_of_kind hl.directory).2.trans
        (opened_cursor_of_kind hl.directory').2.symm
  · intro y
    change Function.update (Function.update s.objects _ _) _ _ y ≠ none ↔ _
    rw [Function.update_apply, Function.update_apply]
    split_ifs with hyp hy
    · rw [hyp, hd]
      exact iff_of_true nofun (Or.inr nofun)
    · exact iff_of_true nofun (Or.inl hy)
    · exact ⟨Or.inr, fun h => h.resolve_left hy⟩

theorem inv_grows (h : Inv s held) (hp : (shape s).kind p = some .directory)
    (hg : Grows k p c s s') :
    Inv s' (oneMore held s.fresh) := by
  have hfresh : s.objects s.fresh = none := by
    by_contra hne
    exact Nat.lt_irrefl _ (h.lt_fresh s.fresh hne)
  have hroot : s.root ≠ s.fresh := Nat.ne_of_lt (h.lt_fresh _ (live_of_kind h.root))
  have htarget : target s' = target s := by
    funext y
    rw [target, hg.opened]
    rfl
  have hkind : (shape s).kind s.fresh = none := by
    change (s.objects s.fresh).bind kindOf = none
    rw [hfresh]
    rfl
  refine ⟨?_, ?_, ?_, ?_, ?_, ?_, ?_⟩
  · exact h.forest.link hp (h.lt_fresh p (live_of_kind hp)) hkind hg.kind hg.parent hg.same hg.other
  · intro y hy
    rw [hg.fresh]
    rcases (hg.live y).mp hy with rfl | hy
    · exact Nat.lt_succ_self _
    · exact (h.lt_fresh y hy).trans (Nat.lt_succ_self _)
  · rw [hg.kind, hg.root, Function.update_of_ne hroot]
    exact h.root
  · rw [hg.parent, hg.root, Function.update_of_ne hroot]
    exact h.root_parent
  · intro y j z hy
    rw [hg.opened] at hy
    have hz := h.opened y j z hy
    rw [hg.kind, Function.update_of_ne]
    · exact hz
    · rintro rfl
      rw [hkind] at hz
      cases hz
  · intro y hy
    rw [hg.live]
    rw [oneMore, Function.update_apply] at hy
    split_ifs at hy with hyx
    · exact Or.inl hyx
    · exact Or.inr (h.held_live y hy)
  · intro y hy
    rw [owners_oneMore, owners, hg.parent, hg.refcount, htarget, hg.root]
    rcases eq_or_ne y s.fresh with rfl | hyx
    · have htally : tally (target s) s.fresh = 0 := by
        by_contra hne
        obtain ⟨z, hz⟩ := (Set.ncard_pos (h.finitary.places _)).mp (Nat.pos_of_ne_zero hne)
        rw [Set.mem_ofPred_eq, target] at hz
        obtain ⟨⟨j, w⟩, hj, hw⟩ := Option.map_eq_some_iff.mp hz
        have := h.opened z j w hj
        rw [show w = s.fresh from hw, hkind] at this
        cases this
      have hheld : held s.fresh = 0 := by
        by_contra hne
        exact h.held_live _ (Nat.pos_of_ne_zero hne) hfresh
      rw [Function.update_self, Function.update_self, if_neg (by simp), if_neg hroot.symm,
        if_pos rfl]
      omega
    · have hbalanced := h.balanced y (((hg.live y).mp hy).resolve_left hyx)
      rw [Function.update_of_ne hyx, Function.update_of_ne hyx, if_neg hyx, hbalanced]
      rfl

/-- There is memory for an object and for its name. -/
def HasMemory (s : Store) : Prop := s.heap s.allocs = true ∧ s.heap (s.allocs + 1) = true

instance (s : Store) : Decidable (HasMemory s) := inferInstanceAs (Decidable (_ ∧ _))

theorem allocNamed_eq (s : Store) (c : Bytes) : ∃ a,
    allocNamed (some c) s = .ok (decide (HasMemory s), { s with allocs := a }) := by
  rw [allocNamed, bind_apply, heapAlloc]
  rcases h : s.heap s.allocs with _ | _
  · refine ⟨s.allocs + 1, ?_⟩
    rw [decide_eq_false (fun hm => by rw [HasMemory, h] at hm; cases hm.1)]
    rfl
  · refine ⟨s.allocs + 2, ?_⟩
    have hdecide : decide (HasMemory s) = s.heap (s.allocs + 1) := by
      rw [Bool.eq_iff_iff, decide_eq_true_iff, HasMemory, h, eq_self, true_and]
    rw [hdecide]
    rfl

theorem setObject_eq (s : Store) (x : Nat) (o : Object) :
    setObject x o s = .ok ((), put s x (some o)) := rfl

/-- A new object is initialized and added to its directory, which becomes `f d x`. -/
theorem link_eq {d : Directory} (f : Directory → Nat → Object) (o : Object)
    (hd : s.objects p = some (.directory d)) (hp : p ≠ s.fresh) :
    (do
      let x ← objectInit o
      let d ← getDirectory p
      setObject p (f d x)
      objectAddRef x
      pure (some x) : Kernel (Option Nat)) s =
        .ok (some s.fresh, created s p o (f d s.fresh) s.allocs) := by
  have hget : getDirectory p { s with
      objects := Function.update s.objects s.fresh (some o)
      refcount := Function.update s.refcount s.fresh 1
      fresh := s.fresh + 1 } = .ok (d, _) :=
    getDirectory_eq ((Function.update_of_ne hp ..).trans hd)
  have hnew : ∀ v, (Function.update (Function.update s.objects s.fresh (some o)) p v) s.fresh =
      some o := by
    intro v
    rw [Function.update_of_ne hp.symm, Function.update_self]
  have hcount : Function.update (Function.update s.refcount s.fresh 1) s.fresh
      (Function.update s.refcount s.fresh 1 s.fresh + 1) =
        Function.update s.refcount s.fresh 2 := by
    rw [Function.update_idem, Function.update_self]
  rw [bind_apply, objectInit]
  change (getDirectory p >>= _) _ = _
  rw [bind_apply, hget]
  change (setObject p (f d s.fresh) >>= _) _ = _
  rw [bind_apply, setObject_eq]
  change (objectAddRef s.fresh >>= _) _ = _
  rw [bind_apply, objectAddRef, bind_apply, getObject_eq (hnew _)]
  rw [created, ← hcount]
  rfl

theorem links_directory {d : Directory} : Links .directory p x c
    (.directory { parent := some p, name := some c }) (.directory d)
      (.directory { d with directories := d.directories ++ [x] }) :=
  ⟨rfl, rfl, rfl, fun j => by cases j <;> rfl, rfl, rfl, rfl, rfl, rfl, fun j hj => by
    rcases j with _ | _
    · rfl
    · exact (hj rfl).elim⟩

theorem links_file {d : Directory} : Links .file p x c
    (.file { parent := some p, name := some c }) (.directory d)
      (.directory { d with files := d.files ++ [x] }) :=
  ⟨rfl, rfl, rfl, fun j => by cases j <;> rfl, rfl, rfl, rfl, rfl, rfl, fun j hj => by
    rcases j with _ | _
    · exact (hj rfl).elim
    · rfl⟩

/-- What `directoryCreate` and `fileCreate` do. -/
def Creates (create : Option Nat → Option Bytes → Kernel (Option Nat)) (k : Kind) : Prop :=
  ∀ s held p c, Inv s held → (shape s).kind p = some .directory →
    (HasMemory s → ∃ s', create (some p) (some c) s = .ok (some s.fresh, s') ∧ Grows k p c s s') ∧
    (¬HasMemory s → ∃ a, create (some p) (some c) s = .ok (none, { s with allocs := a }))

theorem creates_directoryCreate : Creates directoryCreate .directory := by
  intro s held p c h hp
  obtain ⟨a, ha⟩ := allocNamed_eq s c
  obtain ⟨d, hd⟩ := kind_eq_directory.mp hp
  have hne : p ≠ s.fresh := Nat.ne_of_lt (h.lt_fresh p (live_of_kind hp))
  rw [directoryCreate, bind_apply, ha]
  refine ⟨fun hmemory => ?_, fun hmemory => ?_⟩
  · rw [decide_eq_true hmemory]
    exact ⟨_, link_eq (s := { s with allocs := a })
      (fun d x => .directory { d with directories := d.directories ++ [x] }) _ hd hne,
      grows_created h.lt_fresh hd links_directory a⟩
  · rw [decide_eq_false hmemory]
    exact ⟨a, rfl⟩

theorem creates_fileCreate : Creates fileCreate .file := by
  intro s held p c h hp
  obtain ⟨a, ha⟩ := allocNamed_eq s c
  obtain ⟨d, hd⟩ := kind_eq_directory.mp hp
  have hne : p ≠ s.fresh := Nat.ne_of_lt (h.lt_fresh p (live_of_kind hp))
  rw [fileCreate, bind_apply, ha]
  refine ⟨fun hmemory => ?_, fun hmemory => ?_⟩
  · rw [decide_eq_true hmemory]
    exact ⟨_, link_eq (s := { s with allocs := a })
      (fun d x => .directory { d with files := d.files ++ [x] }) _ hd hne,
      grows_created h.lt_fresh hd links_file a⟩
  · rw [decide_eq_false hmemory]
    exact ⟨a, rfl⟩

theorem Inv.tree (h : Inv s held) : Tree s := ⟨h.forest, h.root⟩

/-- A component of a path which names nothing in the directory. -/
structure NewName (s : Store) (p : Nat) (c : Bytes) : Prop where
  slash : SLASH ∉ c
  ne_nil : c ≠ []
  dots : ¬Dots c
  directory : find s c ((shape s).children .directory p) = none
  file : find s c ((shape s).children .file p) = none

/-- Directories are created one after the other, with names from a list. -/
inductive Created (cs : List Bytes) : Nat → Store → Store → Prop
  | done (s : Store) : Created cs 0 s s
  | alloc {n : Nat} {s s' : Store} (a : Nat) (h : Created cs n { s with allocs := a } s') :
      Created cs n s s'
  | step {n p : Nat} {c : Bytes} {s s' s'' : Store} (hp : (shape s).kind p = some .directory)
      (hmem : c ∈ cs) (hc : NewName s p c) (hg : Grows .directory p c s s')
      (h : Created cs n s' s'') : Created cs (n + 1) s s''

theorem Created.mono {cs cs' : List Bytes} {n : Nat} (h : Created cs n s s')
    (hcs : ∀ c ∈ cs, c ∈ cs') : Created cs' n s s' := by
  induction h with
  | done s => exact .done s
  | alloc a _ ih => exact .alloc a ih
  | step hp hmem hc hg _ ih => exact .step hp (hcs _ hmem) hc hg ih

/-- The reference on the directory which was found. -/
def Ends (s : Store) (r : Option Nat) (s' : Store) : Prop :=
  match r with
  | none => s' = s
  | some e => (shape s).kind e = some .directory ∧ s' = count s e (s.refcount e + 1)

/-- The search creates a directory: one is missing, its name is not taken by a
file, and there is memory for it. -/
def Makes (s : Store) (after : Nat → UInt8) (create : Bool) (fuel d : Nat) (path : Bytes) : Prop :=
  match lookup s after fuel d path with
  | .found _ => False
  | .missing p path' => create = true ∧
      find s (component path') ((shape s).children .file p) = none ∧ HasMemory s

section

variable {after : Nat → UInt8} {create : Bool} {fuel : Nat} {path : Bytes} {d : Nat}

theorem searchFrom_create (h : Inv s held) (hd : (shape s).kind d = some .directory)
    (hne : component path ≠ []) (hdots : ¬Dots (component path))
    (hx : find s (component path) ((shape s).children .directory d) = none) :
    searchFrom after true (fuel + 1) d path s =
      if find s (component path) ((shape s).children .file d) = none then
        (directoryCreate (some d) (some (component path)) >>= fun r =>
          match r with
          | none => pure none
          | some e => searchFrom after true fuel e (rest path)) s
      else .ok (none, s) := by
  obtain ⟨o, ho⟩ := kind_eq_directory.mp hd
  have hdirectories : (shape s).children .directory d = o.directories := children_eq ho
  have hfiles : (shape s).children .file d = o.files := children_eq ho
  have hfind := findName_none (component path)
    (hdirectories ▸ (Inv.tree h).children_live .directory d)
  have hfind' := findName_none (component path) (hfiles ▸ (Inv.tree h).children_live .file d)
  rw [hdirectories] at hx
  rw [Dots] at hdots
  rw [searchFrom, if_neg hne, if_neg hdots, bind_apply, getDirectory_eq ho, hfiles]
  change (findName none (component path) o.directories >>= _) s = _
  rw [bind_apply, hfind, hx]
  change (findName none (component path) o.files >>= _) s = _
  rw [bind_apply, hfind']
  rcases find s (component path) o.files with _ | f
  · rfl
  · rfl

theorem searchFrom_spec (after : Nat → UInt8) (create : Bool) (hfuel : path.length < fuel)
    (h : Inv s held)
    (hd : (shape s).kind d = some .directory) : ∃ r s₁ s' n,
    searchFrom after create fuel d path s = .ok (r, s₁) ∧
      Created (components path) n s s' ∧ Ends s' r s₁ ∧
      (n ≠ 0 ↔ Makes s after create fuel d path) := by
  induction fuel generalizing s held d path with
  | zero => omega
  | succ fuel ih =>
      have htree := Inv.tree h
      rw [Makes, lookup]
      rcases eq_or_ne (component path) [] with hempty | hempty
      · rw [if_pos hempty]
        exact ⟨_, _, s, 0, searchFrom_empty create fuel hd hempty, .done s, ⟨hd, rfl⟩, by simp⟩
      · have hlt := length_rest_lt hempty
        have hcomponents := components_eq path
        rw [if_neg hempty] at hcomponents
        have hrest : ∀ c ∈ components (rest path), c ∈ components path := by
          intro c hc
          rw [hcomponents]
          exact List.mem_cons_of_mem _ hc
        rw [if_neg hempty]
        rcases Classical.em (Dots (component path)) with hdots | hdots
        · rw [if_pos hdots, searchFrom_dots create fuel hd hempty hdots]
          obtain ⟨r, s₁, s', n, hsearch, hcreated, hends, hmakes⟩ :=
            ih (by omega : (rest path).length < fuel) h (htree.afterDots hd)
          exact ⟨r, s₁, s', n, hsearch, hcreated.mono hrest, hends, hmakes⟩
        · rw [if_neg hdots]
          rcases hx : find s (component path) ((shape s).children .directory d) with _ | e
          · simp only
            rcases create with _ | _
            · exact ⟨_, _, s, 0, searchFrom_missing htree fuel hd hempty hdots hx, .done s, rfl,
                by simp⟩
            · rw [searchFrom_create h hd hempty hdots hx]
              rcases hf : find s (component path) ((shape s).children .file d) with _ | f
              · rw [if_pos rfl, bind_apply]
                rcases Classical.em (HasMemory s) with hm | hm
                · obtain ⟨s', hcreate, hg⟩ :=
                    (creates_directoryCreate s held d (component path) h hd).1 hm
                  have hnew : (shape s').kind s.fresh = some .directory := by
                    rw [hg.kind, Function.update_self]
                  obtain ⟨r, s₁, s'', n, hsearch, hcreated, hends, -⟩ :=
                    ih (by omega : (rest path).length < fuel) (inv_grows h hd hg) hnew
                  rw [hcreate]
                  refine ⟨r, s₁, s'', n + 1, hsearch, .step hd ?_ ?_ hg (hcreated.mono hrest),
                    hends,
                    by simp [hm]⟩
                  · rw [hcomponents]
                    exact List.mem_cons_self
                  · exact ⟨slash_notMem_component path, hempty, hdots, hx, hf⟩
                · obtain ⟨a, ha⟩ := (creates_directoryCreate s held d (component path) h hd).2 hm
                  rw [ha]
                  exact ⟨none, _, _, 0, rfl, .alloc a (.done _), rfl, by simp [hm]⟩
              · rw [if_neg (by simp)]
                exact ⟨none, s, s, 0, rfl, .done s, rfl, by simp⟩
          · rw [searchFrom_some htree create fuel hd hempty hdots hx]
            obtain ⟨r, s₁, s', n, hsearch, hcreated, hends, hmakes⟩ :=
              ih (by omega : (rest path).length < fuel) h (htree.find_directory hx)
            exact ⟨r, s₁, s', n, hsearch, hcreated.mono hrest, hends, hmakes⟩

end

theorem count_count (s : Store) (x n m : Nat) : count (count s x n) x m = count s x m := by
  rw [count, count, count]
  congr 1
  exact Function.update_idem ..

theorem count_self (s : Store) (x : Nat) : count s x (s.refcount x) = s := by
  rw [count, Function.update_eq_self]

/-- A reference is given up which is not the last one. -/
theorem objectRelease_eq (hx : s.objects x ≠ none) {n : Nat} (hn : s.refcount x = n + 2) :
    objectRelease x s = .ok ((), count s x (n + 1)) := by
  obtain ⟨o, ho⟩ := Option.ne_none_iff_exists'.mp hx
  have hdecrement : decrement (s.refcount x) = n + 1 := by
    rw [hn]
    rfl
  have hcount : (count s x (n + 1)).refcount x = n + 1 := Function.update_self ..
  rw [objectRelease_apply, releaseNested, bind_apply, getObject_eq ho]
  change (if (count s x (decrement (s.refcount x))).refcount x = 0 then _ else _ : Kernel Unit)
    (count s x (decrement (s.refcount x))) = _
  rw [hdecrement, hcount, if_neg (Nat.succ_ne_zero n)]
  rfl

theorem positive_grows (h : Positive s) (hg : Grows k p c s s') : Positive s' := by
  intro y hy
  rw [hg.refcount, Function.update_apply]
  split_ifs with hyx
  · exact Nat.succ_pos 1
  · exact h y (((hg.live y).mp hy).resolve_left hyx)

/-- What a number of creations keeps. -/
theorem Created.induction {P : Nat → Store → Prop} {cs : List Bytes} {n : Nat}
    (hc : Created cs n s s') (halloc : ∀ m s a, P m s → P m { s with allocs := a })
    (hstep : ∀ m s s' p c, P m s → (shape s).kind p = some .directory → c ∈ cs → NewName s p c →
      Grows .directory p c s s' → P (m + 1) s') {m : Nat} (hs : P m s) : P (m + n) s' := by
  induction hc generalizing m with
  | done s => exact hs
  | alloc a _ ih => exact ih (halloc m _ a hs)
  | step hp hmem hc hg _ ih =>
      have := ih (hstep m _ _ _ _ hs hp hmem hc hg)
      rwa [Nat.add_assoc, Nat.add_comm 1] at this

theorem Created.positive {cs : List Bytes} {n : Nat} (hc : Created cs n s s') (h : Positive s) :
    Positive s' :=
  hc.induction (P := fun _ => Positive) (m := 0) (fun _ _ _ h => h)
    (fun _ _ _ _ _ h _ _ _ hg => positive_grows h hg) h

/-- References on the created directories which nobody gives up. -/
def leaked (held : Nat → Nat) (a n x : Nat) : Nat := held x + if a ≤ x ∧ x < a + n then 1 else 0

theorem oneMore_leaked (held : Nat → Nat) (a n : Nat) :
    oneMore (leaked held a n) (a + n) = leaked held a (n + 1) := by
  funext x
  rw [oneMore, Function.update_apply]
  unfold leaked
  split_ifs with h₁ h₂ h₃ h₄ h₅ <;> first | omega | (subst h₁; omega)

theorem inv_alloc {a : Nat} (h : Inv s held) : Inv { s with allocs := a } held :=
  ⟨h.forest, h.lt_fresh, h.root, h.root_parent, h.opened, h.held_live, h.balanced⟩

theorem Created.inv {cs : List Bytes} {n : Nat} (hc : Created cs n s s') (h : Inv s held) :
    Inv s' (leaked held s.fresh n) ∧ s'.fresh = s.fresh + n := by
  have := hc.induction (P := fun m t => Inv t (leaked held s.fresh m) ∧ t.fresh = s.fresh + m)
    (m := 0) (fun _ _ _ h => ⟨inv_alloc h.1, h.2⟩)
    (fun m t t' p c ht hp _ _ hg => ?_) ⟨?_, rfl⟩
  · rwa [Nat.zero_add] at this
  · refine ⟨?_, by rw [hg.fresh, ht.2, Nat.add_assoc]⟩
    rw [← oneMore_leaked, ← ht.2]
    exact inv_grows ht.1 hp hg
  · have hleaked : leaked held s.fresh 0 = held := by
      funext x
      rw [leaked, if_neg (by omega)]
      rfl
    rwa [hleaked]

/-- How a search for a file ends: it found one, it created one, or neither. -/
def EndsFile (create : Bool) (c : Bytes) (s : Store) (r : Option Nat) (s' : Store) : Prop :=
  match r with
  | none => ∃ a, s' = { s with allocs := a }
  | some f => ((shape s).kind f = some .file ∧ s' = count s f (s.refcount f + 1)) ∨
      f = s.fresh ∧ create = true ∧
        ∃ p, (shape s).kind p = some .directory ∧ NewName s p c ∧ Grows .file p c s s'

section

variable {e : Nat}

/-- The reference which the search holds on the directory goes away again. -/
theorem release_searched (hpos : Positive s) (he : (shape s).kind e = some .directory) :
    objectRelease e (count s e (s.refcount e + 1)) = .ok ((), s) := by
  have hlive := live_of_kind he
  obtain ⟨n, hn⟩ := Nat.exists_eq_succ_of_ne_zero (hpos e hlive).ne'
  have hcount : (count s e (s.refcount e + 1)).refcount e = n + 2 := by
    rw [refcount_count, Function.update_self, hn]
  rw [objectRelease_eq (s := count s e (s.refcount e + 1)) hlive hcount, count_count]
  change Except.ok ((), count s e (n.succ)) = _
  rw [← hn, count_self]

theorem release_found (hpos : Positive s) (he : (shape s).kind e = some .directory)
    (hx : (shape s).kind x = some .file) :
    objectRelease e (count (count s e (s.refcount e + 1)) x (s.refcount x + 1)) =
      .ok ((), count s x (s.refcount x + 1)) := by
  have hlive := live_of_kind he
  have hne : e ≠ x := by
    rintro rfl
    cases he.symm.trans hx
  obtain ⟨n, hn⟩ := Nat.exists_eq_succ_of_ne_zero (hpos e hlive).ne'
  have hcount : (count (count s e (s.refcount e + 1)) x (s.refcount x + 1)).refcount e = n + 2 := by
    rw [refcount_count, Function.update_of_ne hne, refcount_count, Function.update_self, hn]
  rw [objectRelease_eq (s := count (count s e (s.refcount e + 1)) x (s.refcount x + 1))
    hlive hcount]
  congr 2
  rw [count, count, count, count]
  congr 1
  change Function.update (Function.update (Function.update s.refcount e _) x _) e (n.succ) = _
  rw [Function.update_comm hne.symm, Function.update_idem, ← hn, Function.update_eq_self]

/-- A file was created while the search held its reference on the directory. -/
theorem release_grown (hpos : Positive s) (hlt : e < s.fresh)
    (he : (shape s).kind e = some .directory)
    (hg : Grows k p c (count s e (s.refcount e + 1)) s') :
    ∃ s'', objectRelease e s' = .ok ((), s'') ∧ Grows k p c s s'' := by
  have hlive := live_of_kind he
  have hne : e ≠ s.fresh := Nat.ne_of_lt hlt
  obtain ⟨n, hn⟩ := Nat.exists_eq_succ_of_ne_zero (hpos e hlive).ne'
  have hlive' : s'.objects e ≠ none := (hg.live e).mpr (Or.inr hlive)
  have hcount : s'.refcount e = n + 2 := by
    rw [hg.refcount]
    change Function.update _ s.fresh 2 e = _
    rw [Function.update_of_ne hne, refcount_count, Function.update_self, hn]
  refine ⟨_, objectRelease_eq hlive' hcount, hg.kind, hg.parent, hg.same, hg.other, hg.name,
    hg.opened, hg.cursor, hg.live, ?_, hg.fresh, hg.root, hg.heap⟩
  rw [refcount_count, hg.refcount]
  change Function.update (Function.update (Function.update s.refcount e _) s.fresh 2) e n.succ = _
  rw [Function.update_comm hne.symm, Function.update_idem, ← hn, Function.update_eq_self]

theorem filePart_slash (path : Bytes) : SLASH ∉ filePart path := by
  intro h
  simpa using List.mem_rtakeWhile_imp h

theorem addRef_eq (hx : s.objects x ≠ none) :
    objectAddRef x s = .ok ((), count s x (s.refcount x + 1)) := by
  obtain ⟨o, ho⟩ := Option.ne_none_iff_exists'.mp hx
  rw [objectAddRef, bind_apply, getObject_eq ho]
  rfl

theorem searchFileIn_found (create : Bool) (hpos : Positive s) (h : Tree s)
    (he : (shape s).kind e = some .directory) {name : Bytes} (hdots : ¬Dots name)
    (hx : find s name ((shape s).children .file e) = some x) :
    searchFileIn e name create (count s e (s.refcount e + 1)) =
      .ok (some x, count s x (s.refcount x + 1)) := by
  obtain ⟨d, hd⟩ := kind_eq_directory.mp he
  have hd' : (count s e (s.refcount e + 1)).objects e = some (.directory d) := hd
  have hfiles : (shape s).children .file e = d.files := children_eq hd
  have hfind : findName none name d.files (count s e (s.refcount e + 1)) =
      .ok (find s name d.files, _) :=
    findName_none name (hfiles ▸ h.children_live .file e)
  have hkind : (shape s).kind x = some .file :=
    ((h.forest.mem_children .file e x).mp (List.mem_of_find?_eq_some hx)).1
  have hlive : (count s e (s.refcount e + 1)).objects x ≠ none := live_of_kind hkind
  have hne : x ≠ e := by
    rintro rfl
    cases he.symm.trans hkind
  rw [hfiles] at hx
  rw [Dots] at hdots
  rw [searchFileIn, if_neg hdots, bind_apply, getDirectory_eq hd']
  change (findName none name d.files >>= _) _ = _
  rw [bind_apply, hfind, hx]
  change (objectAddRef x >>= _) _ = _
  rw [bind_apply, addRef_eq hlive]
  change (objectRelease e >>= _) _ = _
  rw [refcount_count, Function.update_of_ne hne, bind_apply, release_found hpos he hkind]
  rfl

theorem searchFileIn_spec (create : Bool) (hpos : Positive s) (h : Inv s held)
    (he : (shape s).kind e = some .directory) {name : Bytes} (hname : name ≠ [])
    (hslash : SLASH ∉ name) : ∃ r s',
      searchFileIn e name create (count s e (s.refcount e + 1)) = .ok (r, s') ∧
        EndsFile create name s r s' := by
  have hrelease := release_searched hpos he
  have hends : EndsFile create name s none s := ⟨s.allocs, rfl⟩
  rw [searchFileIn]
  rcases Classical.em (Dots name) with hdots | hdots
  · rw [Dots] at hdots
    refine ⟨none, s, ?_, hends⟩
    rw [if_pos hdots, bind_apply, hrelease]
    rfl
  · have hdots' := hdots
    rw [Dots] at hdots'
    rw [if_neg hdots']
    obtain ⟨d, hd⟩ := kind_eq_directory.mp he
    have hd' : (count s e (s.refcount e + 1)).objects e = some (.directory d) := hd
    have hfiles : (shape s).children .file e = d.files := children_eq hd
    have hdirectories : (shape s).children .directory e = d.directories := children_eq hd
    have hfind : findName none name d.files (count s e (s.refcount e + 1)) =
        .ok (find s name d.files, _) :=
      findName_none name (hfiles ▸ (Inv.tree h).children_live .file e)
    have hfind' : findName none name d.directories (count s e (s.refcount e + 1)) =
        .ok (find s name d.directories, _) :=
      findName_none name (hdirectories ▸ (Inv.tree h).children_live .directory e)
    rw [bind_apply, getDirectory_eq hd']
    change ∃ r s', (findName none name d.files >>= _) _ = _ ∧ _
    rw [bind_apply, hfind]
    rcases hf : find s name d.files with _ | f
    · rcases create with _ | _
      · refine ⟨none, s, ?_, hends⟩
        change (objectRelease e >>= _) _ = _
        rw [bind_apply, hrelease]
        rfl
      · change ∃ r s', (findName none name d.directories >>= _) _ = _ ∧ _
        rw [bind_apply, hfind']
        rcases hx : find s name d.directories with _ | x
        · have hnew : NewName s e name :=
            ⟨hslash, hname, hdots, hdirectories.symm ▸ hx, hfiles.symm ▸ hf⟩
          change ∃ r s', (fileCreate (some e) (some name) >>= _) _ = _ ∧ _
          rw [bind_apply]
          obtain ⟨hyes, hno⟩ := creates_fileCreate (count s e (s.refcount e + 1)) (oneMore held e) e
            name (inv_addRef h (live_of_kind he)) he
          rcases Classical.em (HasMemory (count s e (s.refcount e + 1))) with hm | hm
          · obtain ⟨s', hcreate, hg⟩ := hyes hm
            obtain ⟨s'', hrelease', hg'⟩ :=
              release_grown hpos (h.lt_fresh e (live_of_kind he)) he hg
            rw [hcreate]
            refine ⟨some s.fresh, s'', ?_, Or.inr ⟨rfl, rfl, e, he, hnew, hg'⟩⟩
            change (objectRelease e >>= _) s' = _
            rw [bind_apply, hrelease']
            rfl
          · obtain ⟨a, ha⟩ := hno hm
            have hrelease' : objectRelease e { count s e (s.refcount e + 1) with allocs := a } =
                .ok ((), { s with allocs := a }) :=
              release_searched (s := { s with allocs := a }) hpos he
            rw [ha]
            refine ⟨none, { s with allocs := a }, ?_, ⟨a, rfl⟩⟩
            change (objectRelease e >>= _) _ = _
            rw [bind_apply, hrelease']
            rfl
        · refine ⟨none, s, ?_, hends⟩
          change (objectRelease e >>= _) _ = _
          rw [bind_apply, hrelease]
          rfl
    · have hx := hfiles.symm ▸ hf
      have hkind := ((h.forest.mem_children .file e f).mp (List.mem_of_find?_eq_some hx)).1
      have hfound := searchFileIn_found create hpos (Inv.tree h) he hdots hx
      rw [searchFileIn, if_neg hdots', bind_apply, getDirectory_eq hd'] at hfound
      change (findName none name d.files >>= _) _ = _ at hfound
      rw [bind_apply, hfind, hf] at hfound
      exact ⟨some f, _, hfound, Or.inl ⟨hkind, rfl⟩⟩

end

end

end Ibnos.Creations
