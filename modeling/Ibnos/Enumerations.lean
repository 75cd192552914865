import Ibnos.Cursors

/-!
Reading a directory. The cursor runs over the files and then over the directories of
a directory; the entries which are not delivered yet are those behind it.
-/

namespace Ibnos.Enumerations

open Ibnos.Creations
open Ibnos.Cursors
open Ibnos.Filesystem
open Ibnos.FilesystemReleases
open Ibnos.FilesystemTrees
open Ibnos.Forests
open Ibnos.Lookups
open Ibnos.Programs
open Ibnos.Strings

section

variable (s : Store) (d : Nat)

/-- The entries of one kind which have a name, in the order of their insertion. -/
def named (k : Kind) : List Nat := ((shape s).children k d).filter fun y => (name s y).isSome

/-- The files which have a name, and then the directories. -/
def entries : List Nat := named s d .file ++ named s d .directory

end

/-- What a read returns, and what the handle is taken for afterwards. -/
structure Delivery where
  bytes : Option Bytes
  file : Option Nat
  directory : Option Nat
  deriving DecidableEq, Repr

/-- `__openedDirectoryRead` on the handle `x`. -/
def read (x length : Nat) : Kernel Delivery := do
  let bytes ← openedDirectoryRead x length
  let file ← fileSystemIsValidFile (some x)
  let directory ← fileSystemIsValidDirectory (some x)
  pure ⟨bytes, file, directory⟩

/-- One read for each length, where `others` is what happens in front of each of them. -/
def readAll (others : Nat → Store → Store) (x : Nat) : Nat → List Nat → Kernel (List Delivery)
  | _, [] => pure []
  | i, length :: lengths => do
      modify (others i)
      let r ← read x length
      let rs ← readAll others x (i + 1) lengths
      pure (r :: rs)

/-- What is delivered for an entry, or at the end of the directory. -/
def delivery (s : Store) (length : Nat) : Option Nat → Delivery
  | none => ⟨none, none, none⟩
  | some y =>
      { bytes := some ((readName (name s y) ++ [0]).take length)
        file := if (shape s).kind y = some .file then some y else none
        directory := if (shape s).kind y = some .directory then some y else none }

/-- The objects form a tree, and there are none which were not created yet. -/
structure Stable (s : Store) : Prop where
  tree : Tree s
  lt_fresh : ∀ x, s.objects x ≠ none → x < s.fresh

/-- The directory `d` has the same entries with the same names. -/
structure SameListing (d : Nat) (s s' : Store) : Prop where
  kind : (shape s').kind d = (shape s).kind d
  children : ∀ k, (shape s').children k d = (shape s).children k d
  name : ∀ k, ∀ y ∈ (shape s).children k d, name s' y = name s y

/-- Neither the handle `x` nor the directory `d` is touched. -/
structure Unmodified (x d : Nat) (s s' : Store) : Prop extends SameListing d s s' where
  stable : Stable s'
  handle : s'.objects x = s.objects x

/-- The cursor is in front of the entries `todo`. -/
structure At (s : Store) (x d : Nat) (todo : List Nat) : Prop where
  stable : Stable s
  kind : (shape s).kind d = some .directory
  handle : ∃ done, entries s d = done ++ todo ∧
    s.objects x = some (.openedDirectory { directory := d, pos := done.getLast? })

section

variable {s s' : Store} {x d y length : Nat} {k : Kind} {todo : List Nat}

theorem mem_named (hs : Stable s) : y ∈ named s d k ↔
    ((shape s).kind y = some k ∧ (shape s).parent y = some d) ∧ (name s y).isSome = true := by
  rw [named, List.mem_filter, hs.tree.forest.mem_children]

theorem nodup_entries (hs : Stable s) : (entries s d).Nodup := by
  refine List.nodup_append.mpr
    ⟨(hs.tree.forest.nodup _ _).filter _, (hs.tree.forest.nodup _ _).filter _, ?_⟩
  rintro y hy z hz rfl
  have hfile := ((mem_named hs).mp hy).1.1
  rw [((mem_named hs).mp hz).1.1] at hfile
  cases hfile

theorem mem_entries (hs : Stable s) : y ∈ entries s d ↔
    (shape s).parent y = some d ∧ (name s y).isSome = true := by
  rw [entries, List.mem_append, mem_named hs, mem_named hs]
  constructor
  · rintro (⟨⟨-, hp⟩, hn⟩ | ⟨⟨-, hp⟩, hn⟩)
    · exact ⟨hp, hn⟩
    · exact ⟨hp, hn⟩
  · rintro ⟨hp, hn⟩
    obtain ⟨k, hk⟩ := Option.ne_none_iff_exists'.mp (hs.tree.forest.parent y d hp).2.2
    rcases k with _ | _
    · exact Or.inl ⟨⟨hk, hp⟩, hn⟩
    · exact Or.inr ⟨⟨hk, hp⟩, hn⟩

/-- The loop over the entries without a name, from some place of the list on. -/
theorem skipNameless_children (hs : Stable s) {pre ys : List Nat}
    (hsplit : (shape s).children k d = pre ++ ys) :
    skipNameless ((shape s).children k d) s.fresh ys.head? s =
      .ok ((ys.filter fun y => (name s y).isSome).head?, s) := by
  have hlength := length_children_le hs.tree.forest hs.lt_fresh k d
  have hnodup := hs.tree.forest.nodup k d
  rw [hsplit] at hlength hnodup ⊢
  rw [List.length_append] at hlength
  rw [List.head?_filter]
  refine skipNameless_eq pre hnodup (by omega) fun y hy => ?_
  have hmem : y ∈ (shape s).children k d := hsplit ▸ List.mem_append_right pre hy
  obtain ⟨hkind, hparent⟩ := (hs.tree.forest.mem_children k d y).mp hmem
  rw [hkind, hparent]
  exact ⟨nofun, nofun⟩

/-- The entries with names behind a named entry of a list. -/
theorem split_named {rest : List Nat} (done : List Nat) (h : named s d k = done ++ y :: rest) :
    ∃ pre ys, (shape s).children k d = pre ++ y :: ys ∧
      (ys.filter fun y => (name s y).isSome) = rest := by
  obtain ⟨pre, ys, hsplit, -, hrest⟩ := List.filter_eq_append_iff.mp h
  obtain ⟨skipped, zs, rfl, -, -, hzs⟩ := List.filter_eq_cons_iff.mp hrest
  exact ⟨pre ++ skipped, zs, by rw [hsplit, List.append_assoc], hzs⟩

/-- The handle after the cursor was moved. -/
def moved (s : Store) (x d : Nat) (pos : Option Nat) : Store :=
  put s x (some (.openedDirectory { directory := d, pos := pos }))

/-- The shape and the names do not depend on the cursor. -/
theorem shape_moved {pos' : Option Nat} (pos : Option Nat)
    (hx : s.objects x = some (.openedDirectory { directory := d, pos := pos' })) :
    shape (moved s x d pos) = shape s ∧ name (moved s x d pos) = name s := by
  have hshape : shape (moved s x d pos) = shape s := by
    apply Shape.ext
    · rw [moved, kind_put]
      exact Function.update_eq_self_iff.mpr (kind_eq hx).symm
    · rw [moved, parent_put]
      exact Function.update_eq_self_iff.mpr (parent_eq hx).symm
    · funext k
      rw [moved, children_put]
      exact Function.update_eq_self_iff.mpr (children_eq hx).symm
  refine ⟨hshape, ?_⟩
  rw [moved, name_put]
  exact Function.update_eq_self_iff.mpr (name_eq hx).symm

theorem Stable.moved {pos pos' : Option Nat} (hs : Stable s)
    (hx : s.objects x = some (.openedDirectory { directory := d, pos := pos' })) :
    Stable (moved s x d pos) := by
  have hshape := (shape_moved pos hx).1
  constructor
  · constructor
    · rw [hshape]
      exact hs.tree.forest
    · rw [hshape]
      exact hs.tree.root
  · intro y hy
    apply hs.lt_fresh
    rcases live_put hy with rfl | hy
    · rw [hx]
      exact nofun
    · exact hy

/-- The name of the entry is read after the cursor was moved to it. -/
theorem getName_moved {pos pos' : Option Nat}
    (hx : s.objects x = some (.openedDirectory { directory := d, pos := pos' }))
    (hy : (shape s).kind y ≠ none) :
    getName y (moved s x d pos) = .ok (name s y, moved s x d pos) := by
  obtain ⟨hshape, hname⟩ := shape_moved pos hx
  rw [getName_eq (by rwa [hshape]), hname]

/-- The end of a read, where `r` is the entry which was found. -/
def ended (s : Store) (x d length : Nat) (r : Option Nat) :
    Except Filesystem.Fault (Option Bytes × Store) :=
  .ok (r.map fun y => output (name s y) length, moved s x d r)

/-- The last steps of a read which has found the entry `y`. -/
theorem deliver_eq {pos : Option Nat}
    (hx : s.objects x = some (.openedDirectory { directory := d, pos := pos }))
    (hy : (shape s).kind y = some k) :
    (do
      setObject x (.openedDirectory { directory := d, pos := some y })
      let name ← getName y
      pure (some (output name length)) : Kernel (Option Bytes)) s = ended s x d length
        (some y) := by
  rw [bind_apply, setObject_eq]
  change (getName y >>= _) (moved s x d (some y)) = _
  rw [bind_apply, getName_moved hx (by rw [hy]; exact nofun)]
  rfl

theorem enumerateDirectories_eq {pos : Option Nat} {ys : List Nat} (pre : List Nat) (hs : Stable s)
    (hd : (shape s).kind d = some .directory)
    (hx : s.objects x = some (.openedDirectory { directory := d, pos := pos }))
    (hsplit : (shape s).children .directory d = pre ++ ys) :
    enumerateDirectories x { directory := d, pos := pos } length ys.head? s =
      ended s x d length (ys.filter fun y => (name s y).isSome).head? := by
  obtain ⟨o, ho⟩ := kind_eq_directory.mp hd
  have hskip := skipNameless_children hs hsplit
  rw [show (shape s).children .directory d = o.directories from children_eq ho] at hskip
  rw [enumerateDirectories, bind_apply, getDirectory_eq ho]
  change ((get : Kernel Store) >>= _) s = _
  rw [bind_apply, get_apply]
  change (skipNameless o.directories s.fresh ys.head? >>= _) s = _
  rw [bind_apply, hskip]
  rcases hr : (ys.filter fun y => (name s y).isSome).head? with _ | y
  · rfl
  · have hmem : y ∈ (shape s).children .directory d := by
      rw [hsplit]
      exact List.mem_append_right pre (List.mem_filter.mp (List.mem_of_mem_head? hr)).1
    exact deliver_eq hx ((hs.tree.forest.mem_children _ _ _).mp hmem).1

theorem enumerateFiles_eq {pos : Option Nat} {ys : List Nat} (pre : List Nat) (hs : Stable s)
    (hd : (shape s).kind d = some .directory)
    (hx : s.objects x = some (.openedDirectory { directory := d, pos := pos }))
    (hsplit : (shape s).children .file d = pre ++ ys) :
    enumerateFiles x { directory := d, pos := pos } length ys.head? s =
      ended s x d length
        ((ys.filter fun y => (name s y).isSome) ++ named s d .directory).head? := by
  obtain ⟨o, ho⟩ := kind_eq_directory.mp hd
  have hskip := skipNameless_children hs hsplit
  have hdirectories : (shape s).children .directory d = o.directories := children_eq ho
  have hend : enumerateDirectories x { directory := d, pos := pos } length o.directories.head? s =
      ended s x d length (named s d .directory).head? := by
    rw [named, hdirectories]
    exact enumerateDirectories_eq [] hs hd hx hdirectories
  rw [show (shape s).children .file d = o.files from children_eq ho] at hskip
  rw [enumerateFiles, bind_apply, getDirectory_eq ho]
  change ((get : Kernel Store) >>= _) s = _
  rw [bind_apply, get_apply]
  change (skipNameless o.files s.fresh ys.head? >>= _) s = _
  rw [bind_apply, hskip]
  rcases hr : ys.filter fun y => (name s y).isSome with _ | ⟨y, rest⟩
  · exact hend
  · have hy : y ∈ ys.filter fun y => (name s y).isSome := hr ▸ List.mem_cons_self
    have hmem : y ∈ (shape s).children .file d := by
      rw [hsplit]
      exact List.mem_append_right pre (List.mem_filter.mp hy).1
    exact deliver_eq hx ((hs.tree.forest.mem_children _ _ _).mp hmem).1

/-- The entries behind an entry which was delivered. -/
theorem behind_delivered (hs : Stable s) {done : List Nat}
    (hentries : entries s d = done ++ y :: todo) :
    (shape s).kind y = some .file ∧ (∃ pre ys, (shape s).children .file d = pre ++ y :: ys ∧
        (ys.filter fun y => (name s y).isSome) ++ named s d .directory = todo) ∨
      (shape s).kind y = some .directory ∧ ∃ pre ys, (shape s).children .directory d = pre ++
        y :: ys ∧
        (ys.filter fun y => (name s y).isSome) = todo := by
  have hkind : ∀ {k}, y ∈ named s d k → (shape s).kind y = some k :=
    fun hy => ((mem_named hs).mp hy).1.1
  rcases List.append_eq_append_iff.mp hentries with ⟨skipped, rfl, hrest⟩ | ⟨rest, hfiles, hrest⟩
  · right
    obtain ⟨pre, ys, hsplit, htodo⟩ := split_named _ hrest
    have hmem : y ∈ named s d .directory := by
      rw [hrest]
      simp
    exact ⟨hkind hmem, pre, ys, hsplit, htodo⟩
  · rcases rest with _ | ⟨z, rest⟩
    · right
      obtain ⟨pre, ys, hsplit, htodo⟩ := split_named [] hrest.symm
      have hmem : y ∈ named s d .directory := by
        rw [← List.nil_append (named s d .directory), ← hrest]
        simp
      exact ⟨hkind hmem, pre, ys, hsplit, htodo⟩
    · left
      obtain ⟨rfl, rfl⟩ := List.cons.inj hrest
      obtain ⟨pre, ys, hsplit, htodo⟩ := split_named _ hfiles
      have hmem : y ∈ named s d .file := by
        rw [hfiles]
        simp
      exact ⟨hkind hmem, pre, ys, hsplit, congrArg (· ++ _) htodo⟩

/-- A read moves the cursor behind the next entry, or to the beginning. -/
theorem openedDirectoryRead_eq (h : At s x d todo) :
    openedDirectoryRead x length s = ended s x d length todo.head? := by
  obtain ⟨done, hentries, hx⟩ := h.handle
  obtain ⟨o, ho⟩ := kind_eq_directory.mp h.kind
  have hfiles : (shape s).children .file d = o.files := children_eq ho
  have hdirectories : (shape s).children .directory d = o.directories := children_eq ho
  rw [openedDirectoryRead, bind_apply, getObject_eq hx]
  change (getDirectory d >>= _) s = _
  rw [bind_apply, getDirectory_eq ho]
  rcases List.eq_nil_or_concat done with rfl | ⟨done, y, rfl⟩
  · rw [← List.nil_append todo, ← hentries, entries, named, hfiles]
    exact enumerateFiles_eq [] h.stable h.kind hx hfiles
  · rw [List.concat_eq_append, List.append_assoc, List.cons_append, List.nil_append] at hentries
    rw [List.concat_eq_append, List.getLast?_append, List.getLast?_singleton,
      Option.some_or] at hx ⊢
    change (getObject y >>= _) s = _
    have hentry : y ∈ entries s d := by
      rw [hentries]
      simp
    have hparent : (shape s).parent y ≠ none := by
      rw [((mem_entries h.stable).mp hentry).1]
      simp
    rcases behind_delivered h.stable hentries with
      ⟨hkind, pre, ys, hsplit, rfl⟩ | ⟨hkind, pre, ys, hsplit, rfl⟩
    · obtain ⟨f, hf⟩ := kind_eq_file.mp hkind
      have hnext : entryNext o.files y s = .ok (ys.head?, s) := by
        have hnodup := h.stable.tree.forest.nodup .file d
        rw [hsplit] at hnodup
        rw [entryNext_eq o.files (by rw [hkind]; simp) hparent, ← hfiles, hsplit,
          successor_append hnodup]
      rw [bind_apply, getObject_eq hf]
      change (entryNext o.files y >>= _) s = _
      rw [bind_apply, hnext]
      rw [List.append_cons] at hsplit
      exact enumerateFiles_eq _ h.stable h.kind hx hsplit
    · obtain ⟨e, he⟩ := kind_eq_directory.mp hkind
      have hnext : entryNext o.directories y s = .ok (ys.head?, s) := by
        have hnodup := h.stable.tree.forest.nodup .directory d
        rw [hsplit] at hnodup
        rw [entryNext_eq o.directories (by rw [hkind]; simp) hparent, ← hdirectories, hsplit,
          successor_append hnodup]
      rw [bind_apply, getObject_eq he]
      change (entryNext o.directories y >>= _) s = _
      rw [bind_apply, hnext]
      rw [List.append_cons] at hsplit
      exact enumerateDirectories_eq _ h.stable h.kind hx hsplit

/-- What the handle is taken for after the cursor was moved. -/
theorem valid_moved {pos r : Option Nat} (length : Nat)
    (hx : s.objects x = some (.openedDirectory { directory := d, pos := pos }))
    (hr : ∀ y, r = some y → (shape s).kind y ≠ none) :
    fileSystemIsValidFile (some x) (moved s x d r) =
      .ok ((delivery s length r).file, moved s x d r) ∧
      fileSystemIsValidDirectory (some x) (moved s x d r) =
        .ok ((delivery s length r).directory, moved s x d r) := by
  have hself : (moved s x d r).objects x = some (.openedDirectory { directory := d, pos := r }) :=
    Function.update_self ..
  rw [fileSystemIsValidFile, fileSystemIsValidDirectory, bind_apply, bind_apply, getObject_eq hself]
  rcases r with _ | y
  · exact ⟨rfl, rfl⟩
  · obtain ⟨k, hk⟩ := Option.ne_none_iff_exists'.mp (hr y rfl)
    have hyx : y ≠ x := by
      rintro rfl
      rw [kind_eq hx] at hk
      cases hk
    have hobject : (moved s x d (some y)).objects y = s.objects y := Function.update_of_ne hyx ..
    change (getObject y >>= _) (moved s x d (some y)) = _ ∧
      (getObject y >>= _) (moved s x d (some y)) = _
    rcases k with _ | _
    · obtain ⟨f, hf⟩ := kind_eq_file.mp hk
      rw [bind_apply, bind_apply, getObject_eq (hobject.trans hf), delivery, hk]
      exact ⟨rfl, rfl⟩
    · obtain ⟨e, he⟩ := kind_eq_directory.mp hk
      rw [bind_apply, bind_apply, getObject_eq (hobject.trans he), delivery, hk]
      exact ⟨rfl, rfl⟩

theorem At.mem_entries (h : At s x d todo) (hy : y ∈ todo) : y ∈ entries s d := by
  obtain ⟨done, hentries, -⟩ := h.handle
  rw [hentries]
  exact List.mem_append_right done hy

theorem read_eq (h : At s x d todo) :
    read x length s = .ok (delivery s length todo.head?, moved s x d todo.head?) := by
  obtain ⟨done, -, hx⟩ := h.handle
  have hkind : ∀ y, todo.head? = some y → (shape s).kind y ≠ none := by
    intro y hy
    have hparent :=
      ((Enumerations.mem_entries h.stable).mp (h.mem_entries (List.mem_of_mem_head? hy))).1
    exact (h.stable.tree.forest.parent y d hparent).2.2
  obtain ⟨hfile, hdirectory⟩ := valid_moved length hx hkind
  rw [read, bind_apply, openedDirectoryRead_eq h]
  change (fileSystemIsValidFile (some x) >>= _) (moved s x d todo.head?) = _
  rw [bind_apply, hfile]
  change (fileSystemIsValidDirectory (some x) >>= _) (moved s x d todo.head?) = _
  rw [bind_apply, hdirectory]
  rcases todo.head? with _ | y
  · rfl
  · rfl

theorem SameListing.refl (d : Nat) (s : Store) : SameListing d s s :=
  ⟨rfl, fun _ => rfl, fun _ _ _ => rfl⟩

theorem SameListing.trans {s'' : Store} (h : SameListing d s s') (h' : SameListing d s' s'') :
    SameListing d s s'' := by
  constructor
  · exact h'.kind.trans h.kind
  · intro k
    exact (h'.children k).trans (h.children k)
  · intro k y hy
    exact (h'.name k y (h.children k ▸ hy)).trans (h.name k y hy)

theorem SameListing.entries_eq (h : SameListing d s s') : entries s' d = entries s d := by
  have hnamed : ∀ k, named s' d k = named s d k := by
    intro k
    rw [named, named, h.children k]
    apply List.filter_congr
    intro y hy
    rw [h.name k y hy]
  rw [entries, entries, hnamed, hnamed]

theorem SameListing.delivery_eq (h : SameListing d s s') (hs : Stable s) (hs' : Stable s')
    {r : Option Nat} (hr : ∀ y, r = some y → y ∈ entries s d) :
    delivery s' length r = delivery s length r := by
  rcases r with _ | y
  · rfl
  · obtain ⟨hparent, -⟩ := (Enumerations.mem_entries hs).mp (hr y rfl)
    obtain ⟨k, hk⟩ := Option.ne_none_iff_exists'.mp (hs.tree.forest.parent y d hparent).2.2
    have hmem : y ∈ (shape s).children k d := (hs.tree.forest.mem_children k d y).mpr ⟨hk, hparent⟩
    have hkind := ((hs'.tree.forest.mem_children k d y).mp (h.children k ▸ hmem)).1
    rw [delivery, delivery, h.name k y hmem, hkind, hk]

theorem sameListing_moved {pos' : Option Nat} (pos : Option Nat)
    (hx : s.objects x = some (.openedDirectory { directory := d, pos := pos' })) :
    SameListing d s (moved s x d pos) := by
  obtain ⟨hshape, hname⟩ := shape_moved pos hx
  constructor
  · rw [hshape]
  · intro k
    rw [hshape]
  · intro k y _
    rw [hname]

/-- The entries which are left behind the next one. At the end it begins again. -/
def next (all : List Nat) : List Nat → List Nat
  | [] => all
  | _ :: rest => rest

theorem next_drop (all : List Nat) {i : Nat} (hi : i ≤ all.length) :
    next all (all.drop i) = all.drop ((i + 1) % (all.length + 1)) := by
  rcases Nat.lt_or_eq_of_le hi with hlt | rfl
  · rw [List.drop_eq_getElem_cons hlt, Nat.mod_eq_of_lt (Nat.succ_lt_succ hlt)]
    rfl
  · rw [List.drop_length, Nat.mod_self]
    rfl

theorem At.moved (h : At s x d todo) :
    At (moved s x d todo.head?) x d (next (entries s d) todo) := by
  obtain ⟨done, hentries, hx⟩ := h.handle
  have hsame := sameListing_moved todo.head? hx
  constructor
  · exact h.stable.moved hx
  · rw [hsame.kind]
    exact h.kind
  · rw [hsame.entries_eq]
    rcases todo with _ | ⟨y, rest⟩
    · exact ⟨[], rfl, Function.update_self ..⟩
    · refine ⟨done ++ [y], by rw [hentries, List.append_cons]; rfl, ?_⟩
      rw [List.getLast?_append, List.getLast?_singleton, Option.some_or]
      exact Function.update_self ..

theorem At.unmodified (h : At s x d todo) (hs : Unmodified x d s s') : At s' x d todo := by
  obtain ⟨done, hentries, hx⟩ := h.handle
  constructor
  · exact hs.stable
  · rw [hs.kind]
    exact h.kind
  · refine ⟨done, ?_, ?_⟩
    · rw [hs.toSameListing.entries_eq]
      exact hentries
    · rw [hs.handle]
      exact hx

/-- One read after the other, where `i` of them have been made before. -/
theorem readAll_eq {others : Nat → Store → Store}
    (hothers : ∀ i s, Stable s → Unmodified x d s (others i s)) (lengths : List Nat) {i : Nat}
    {s₀ : Store} (hs₀ : Stable s₀) (hsame : SameListing d s₀ s)
    (h : At s x d ((entries s d).drop (i % ((entries s d).length + 1)))) :
    ∃ s', readAll others x i lengths s = .ok (lengths.mapIdx fun j length => delivery s₀ length
      (entries s₀ d)[(i + j) % ((entries s₀ d).length + 1)]?, s') := by
  induction lengths generalizing i s with
  | nil => exact ⟨s, rfl⟩
  | cons length lengths ih =>
      have hstep := hothers i s h.stable
      have hat := h.unmodified hstep
      have hsame' := hsame.trans hstep.toSameListing
      have hle : i % ((entries s d).length + 1) ≤ (entries s d).length :=
        Nat.le_of_lt_succ (Nat.mod_lt i (Nat.succ_pos _))
      have hentries := hsame.entries_eq
      obtain ⟨done, -, hx⟩ := hat.handle
      obtain ⟨s', hrest⟩ := ih (i := i + 1) (hsame'.trans (sameListing_moved _ hx)) (by
        have hnext := hat.moved
        rw [hstep.toSameListing.entries_eq, next_drop _ hle, Nat.add_mod,
          Nat.mod_mod, ← Nat.add_mod] at hnext
        rw [(sameListing_moved _ hx).entries_eq, hstep.toSameListing.entries_eq]
        exact hnext)
      refine ⟨s', ?_⟩
      rw [readAll, bind_apply]
      change (read x length >>= _) (others i s) = _
      rw [bind_apply, read_eq hat]
      change (readAll others x (i + 1) lengths >>= _) _ = _
      rw [bind_apply, hrest, List.mapIdx_cons, hentries, List.head?_drop,
        hsame'.delivery_eq hs₀ hstep.stable (fun y hy => List.mem_of_getElem? hy)]
      simp only [Nat.add_assoc, Nat.add_comm 1, Nat.add_zero]
      rfl

/-- Reads of a new handle deliver the named files and then the named directories in order,
then the end, and then everything again, as long as the directory is not modified. -/
theorem directory_enumeration (others : Nat → Store → Store) (s : Store) (x d : Nat)
    (lengths : List Nat) (hs : Stable s) (hd : (shape s).kind d = some .directory)
    (hx : s.objects x = some (.openedDirectory { directory := d }))
    (hothers : ∀ i s, Stable s → Unmodified x d s (others i s)) :
    (entries s d).Nodup ∧
    (∀ y, y ∈ entries s d ↔ (shape s).parent y = some d ∧ (name s y).isSome = true) ∧
    ∃ s', readAll others x 0 lengths s = .ok (lengths.mapIdx fun i length =>
      delivery s length (entries s d)[i % ((entries s d).length + 1)]?, s') := by
  refine ⟨nodup_entries hs, fun y => mem_entries hs, ?_⟩
  have hstart : At s x d ((entries s d).drop (0 % ((entries s d).length + 1))) := by
    rw [Nat.zero_mod, List.drop_zero]
    exact ⟨hs, hd, [], rfl, hx⟩
  obtain ⟨s', hrun⟩ := readAll_eq hothers lengths hs (.refl d s) hstart
  refine ⟨s', ?_⟩
  simpa only [Nat.zero_add] using hrun

theorem stable_of_inv {held : Nat → Nat} (h : Inv s held) : Stable s := ⟨Inv.tree h, h.lt_fresh⟩

/-- A handle of the directory which holds one file. -/
def openedRoot : Store := openedStore oneFile.store (.openedDirectory { directory := 0 }) 0 4

theorem stable_openedRoot : Stable openedRoot :=
  stable_of_inv (inv_opened exact_oneFile.inv rfl rfl rfl rfl (fun _ => rfl) 4)

theorem directory_enumeration_root : Stable openedRoot ∧
    ∃ s', readAll (fun _ s => s) 2 0 [10, 10, 1] openedRoot =
      .ok ([⟨some [97, 0], some 1, none⟩, ⟨none, none, none⟩, ⟨some [97], some 1, none⟩], s') :=
  ⟨stable_openedRoot, (directory_enumeration (fun _ s => s) openedRoot 2 0 [10, 10, 1]
    stable_openedRoot rfl rfl fun _ s hs => ⟨.refl 0 s, hs, rfl⟩).2.2⟩

end

end Ibnos.Enumerations
