import Ibnos.FilesystemRuns

/-!
Opened directories. A read moves the cursor to the entry it returns, but takes no
reference on it.
-/

namespace Ibnos.Cursors

open Ibnos.Creations
open Ibnos.Filesystem
open Ibnos.FilesystemReleases
open Ibnos.FilesystemRuns
open Ibnos.FilesystemTrees
open Ibnos.Forests
open Ibnos.LookupReferences
open Ibnos.Lookups
open Ibnos.Programs
open Ibnos.Runs
open Ibnos.Strings
open Ibnos.Tallies

inductive CursorCall
  | open (x : Nat)
  | read (x length : Nat)
  | shutdown (x : Nat)
  | dup (x : Nat)
  | close (x : Nat)

/-- SYSCALL_FILESYSTEM_OPEN on an object. -/
def fileSystemOpen (obj : Option Nat) : Kernel (Option Nat) := do
  match ← fileSystemIsValidFile obj with
  | some f => fileOpen f
  | none =>
      match ← fileSystemIsValidDirectory obj with
      | some d => directoryOpen d
      | none => pure none

/-- `__objectRead`. Other reads have no effect on the objects. -/
def objectRead (x length : Nat) : Kernel Unit := do
  match ← getObject x with
  | .openedDirectory _ =>
      let _ ← openedDirectoryRead x length
      pure ()
  | _ => pure ()

def cursorStep (st : State) : CursorCall → Except Fault (State × Option Nat)
  | .open x => newHandle st (fileSystemOpen (handleGet st x))
  | .read x length => onHandle st x (objectRead x length)
  | .shutdown x => step st (.shutdown x)
  | .dup x => step st (.dup x)
  | .close x => step st (.close x)

/-- The references on objects by handles, and those which `others` have. -/
def holds (st : State) (others : Nat → Nat) (x : Nat) : Nat := st.handles x + others x

/-- Every reference is counted, those by cursors included, and a cursor is at an
entry which exists and is still in its directory. -/
structure Owned (others : Nat → Nat) (st : State) : Prop where
  counted : ∀ x, st.store.objects x ≠ none →
    st.store.refcount x = owners st.store (holds st others) x + tally (cursor st.store) x
  live : ∀ h x, cursor st.store h = some x → st.store.objects x ≠ none
  linked : ∀ h x, cursor st.store h = some x → (shape st.store).parent x ≠ none

/-- A read finds no entry with a name. -/
def Quiet (st : State) : CursorCall → Prop
  | .read x _ => ∀ h, st.store.objects x = some (.openedDirectory h) →
      ∀ y, (shape st.store).parent y = some h.directory → name st.store y = none
  | _ => True

/-- No cursor is at an entry, and every reference is counted. -/
structure Exact (others : Nat → Nat) (st : State) : Prop where
  inv : Inv st.store (holds st others)
  positive : Positive st.store
  noCursor : NoCursor st.store

section

variable {s s' : Store} {held : Nat → Nat} {x y : Nat} {k : Kind}

/-- The store with a new opened object on `y`. -/
def openedStore (s : Store) (o : Object) (y a : Nat) : Store :=
  { put s s.fresh (some o) with
    refcount := Function.update (Function.update s.refcount s.fresh 1) y (s.refcount y + 1)
    fresh := s.fresh + 1
    allocs := a }

theorem inv_opened {o : Object} (h : Inv s held) (hy : (shape s).kind y = some k)
    (ho : openedOf o = some (k, y)) (hkind : kindOf o = none) (hparent : parentOf o = none)
    (hchildren : ∀ j, childrenOf o j = []) (a : Nat) :
    Inv (openedStore s o y a) (oneMore held s.fresh) := by
  have hfresh : s.objects s.fresh = none := by
    by_contra hne
    exact Nat.lt_irrefl _ (h.lt_fresh s.fresh hne)
  have hyf : y ≠ s.fresh := Nat.ne_of_lt (h.lt_fresh y (live_of_kind hy))
  have hrf : s.root ≠ s.fresh := Nat.ne_of_lt (h.lt_fresh _ (live_of_kind h.root))
  have hkind' : (shape (openedStore s o y a)).kind = (shape s).kind := by
    change (shape (put s s.fresh (some o))).kind = _
    rw [kind_put]
    refine Function.update_eq_self_iff.mpr (hkind.trans ?_)
    change none = (s.objects s.fresh).bind kindOf
    rw [hfresh]
    rfl
  have hparent' : (shape (openedStore s o y a)).parent = (shape s).parent := by
    change (shape (put s s.fresh (some o))).parent = _
    rw [parent_put]
    refine Function.update_eq_self_iff.mpr (hparent.trans ?_)
    change none = (s.objects s.fresh).bind parentOf
    rw [hfresh]
    rfl
  have hchildren' : (shape (openedStore s o y a)).children = (shape s).children := by
    change (shape (put s s.fresh (some o))).children = _
    funext j
    rw [children_put]
    refine Function.update_eq_self_iff.mpr ((hchildren j).trans ?_)
    change [] = ((s.objects s.fresh).map _).getD []
    rw [hfresh]
    rfl
  have hopened : opened (openedStore s o y a) = Function.update (opened s) s.fresh
    (some (k, y)) := by
    change opened (put s s.fresh (some o)) = _
    rw [opened_put]
    congr 1
  have htarget : target (openedStore s o y a) = Function.update (target s) s.fresh (some y) := by
    funext z
    rw [target, hopened, Function.update_apply, Function.update_apply]
    split_ifs <;> rfl
  have htarget_fresh : target s s.fresh = none := by
    rw [target, opened, hfresh]
    rfl
  have hlive : ∀ z, (openedStore s o y a).objects z ≠ none ↔ z = s.fresh ∨ s.objects z ≠ none := by
    intro z
    change Function.update s.objects s.fresh (some o) z ≠ none ↔ _
    rw [Function.update_apply]
    split_ifs with hz
    · exact iff_of_true (by simp) (Or.inl hz)
    · exact ⟨Or.inr, fun h => h.resolve_left hz⟩
  refine ⟨h.forest.congr hkind' hparent' hchildren', fun z hz => ?_, ?_, ?_, fun z j w hz => ?_,
    fun z hz => ?_, fun z hz => ?_⟩
  · change z < s.fresh + 1
    rcases (hlive z).mp hz with rfl | hz
    · exact Nat.lt_succ_self _
    · exact (h.lt_fresh z hz).trans (Nat.lt_succ_self _)
  · rw [hkind']
    exact h.root
  · rw [hparent']
    exact h.root_parent
  · rw [hkind']
    rw [hopened, Function.update_apply] at hz
    split_ifs at hz with hzf
    · obtain ⟨rfl, rfl⟩ := Prod.mk.inj (Option.some.inj hz)
      exact hy
    · exact h.opened z j w hz
  · rw [hlive]
    rw [oneMore, Function.update_apply] at hz
    split_ifs at hz with hzf
    · exact Or.inl hzf
    · exact Or.inr (h.held_live z hz)
  · have htally := tally_update h.finitary s.fresh (some y) z
    rw [htarget_fresh, if_neg (by simp)] at htally
    rw [owners_oneMore, owners, hparent', htarget]
    change Function.update (Function.update s.refcount s.fresh 1) y (s.refcount y + 1) z =
      (if (shape s).parent z = none then 0 else 1) + (if z = s.root then 1 else 0) +
        tally (Function.update (target s) s.fresh (some y)) z + held z + if z =
          s.fresh then 1 else 0
    rcases eq_or_ne z s.fresh with rfl | hzf
    · have hparent_fresh : (shape s).parent s.fresh = none := by
        change (s.objects s.fresh).bind parentOf = none
        rw [hfresh]
        rfl
      have htally_fresh : tally (target s) s.fresh = 0 := by
        by_contra hne
        obtain ⟨w, hw⟩ := (Set.ncard_pos (h.finitary.places _)).mp (Nat.pos_of_ne_zero hne)
        exact target_live h hfresh w hw
      have hheld : held s.fresh = 0 := by
        by_contra hne
        exact h.held_live _ (Nat.pos_of_ne_zero hne) hfresh
      rw [if_neg (fun he => hyf (Option.some.inj he))] at htally
      rw [Function.update_of_ne hyf.symm, Function.update_self, hparent_fresh, if_pos rfl,
        if_neg hrf.symm, if_pos rfl]
      omega
    · have hbalanced := h.balanced z (((hlive z).mp hz).resolve_left hzf)
      rw [owners] at hbalanced
      rw [if_neg hzf]
      rcases eq_or_ne z y with rfl | hzy
      · rw [if_pos rfl] at htally
        rw [Function.update_self]
        omega
      · rw [if_neg (fun he => hzy (Option.some.inj he).symm)] at htally
        rw [Function.update_of_ne hzy, Function.update_of_ne hzf]
        omega

theorem successor_append {pre xs : List Nat} (h : (pre ++ x :: xs).Nodup) :
    successor (pre ++ x :: xs) x = xs.head? := by
  have hmem : ∀ y ∈ pre, decide (y ≠ x) = true := by
    intro y hy
    refine decide_eq_true ?_
    rintro rfl
    exact (List.nodup_append.mp h).2.2 y hy y List.mem_cons_self rfl
  rw [successor, List.dropWhile_append_of_pos hmem, List.dropWhile_cons_of_neg (by simp)]
  rfl

theorem entryNext_eq (xs : List Nat) (hx : (shape s).kind x ≠ none)
    (hp : (shape s).parent x ≠ none) : entryNext xs x s = .ok (successor xs x, s) := by
  obtain ⟨k, hk⟩ := Option.ne_none_iff_exists'.mp hx
  obtain ⟨o, ho⟩ := Option.ne_none_iff_exists'.mp (live_of_kind hk)
  rw [kind_eq ho] at hk
  rw [parent_eq ho] at hp
  rw [entryNext, bind_apply, getObject_eq ho]
  rcases o with d | f | f | d
  · exact congrArg (fun r => Except.ok (r, s)) (if_pos (Option.isSome_iff_ne_none.mpr hp))
  · exact congrArg (fun r => Except.ok (r, s)) (if_pos (Option.isSome_iff_ne_none.mpr hp))
  · cases hk
  · cases hk

/-- The loop stops at the first entry with a name. -/
theorem skipNameless_eq (pre : List Nat) {xs : List Nat} {fuel : Nat} (hnodup : (pre ++ xs).Nodup)
    (hfuel : xs.length ≤ fuel)
    (h : ∀ y ∈ xs, (shape s).kind y ≠ none ∧ (shape s).parent y ≠ none) :
    skipNameless (pre ++ xs) fuel xs.head? s = .ok (xs.find? fun y => (name s y).isSome, s) := by
  induction xs generalizing pre fuel with
  | nil =>
      cases fuel <;> rfl
  | cons y xs ih =>
      obtain ⟨hkind, hparent⟩ := h y List.mem_cons_self
      obtain ⟨n, rfl⟩ : ∃ n, fuel = n + 1 := ⟨fuel - 1, by rw [List.length_cons] at hfuel; omega⟩
      have hnext := entryNext_eq (pre ++ y :: xs) hkind hparent
      rw [successor_append hnodup] at hnext
      rw [List.head?_cons, skipNameless, bind_apply, getName_eq hkind, List.find?_cons]
      rcases hname : name s y with _ | c
      · change (entryNext _ y >>= _) s = _
        rw [bind_apply, hnext]
        have happend : pre ++ y :: xs = (pre ++ [y]) ++ xs := List.append_cons ..
        rw [happend] at hnodup ⊢
        exact ih (pre ++ [y]) hnodup (Nat.le_of_succ_le_succ hfuel) fun z hz =>
          h z (List.mem_cons_of_mem _ hz)
      · rfl

theorem length_children_le (hforest : Forest .directory (shape s))
    (hlt : ∀ x, s.objects x ≠ none → x < s.fresh) (k : Kind) (p : Nat) :
    ((shape s).children k p).length ≤ s.fresh := by
  have hsubset : (shape s).children k p ⊆ List.range s.fresh := by
    intro y hy
    rw [List.mem_range]
    exact hlt y (live_of_kind ((hforest.mem_children k p y).mp hy).1)
  calc ((shape s).children k p).length ≤ (List.range s.fresh).length :=
        ((hforest.nodup k p).subperm hsubset).length_le
    _ = s.fresh := List.length_range

theorem skipNameless_children (h : Inv s held) {p : Nat} (k : Kind)
    (hname : ∀ y, (shape s).parent y = some p → name s y = none) :
    skipNameless ((shape s).children k p) s.fresh ((shape s).children k p).head? s =
      .ok (none, s) := by
  have hentry : ∀ y ∈ (shape s).children k p, (shape s).kind y = some k ∧
    (shape s).parent y = some p :=
    fun y hy => (h.forest.mem_children k p y).mp hy
  have hend : ((shape s).children k p).find? (fun y => (name s y).isSome) = none := by
    refine List.find?_eq_none.mpr fun y hy => ?_
    rw [hname y (hentry y hy).2]
    exact nofun
  rw [← hend]
  refine skipNameless_eq [] (h.forest.nodup k p) (length_children_le h.forest h.lt_fresh k p)
    fun y hy => ?_
  rw [(hentry y hy).1, (hentry y hy).2]
  exact ⟨nofun, nofun⟩

/-- A read which finds no entry leaves everything as it is. -/
theorem openedDirectoryRead_quiet {h : OpenedDirectory} (hs : Inv s held) (length : Nat)
    (hx : s.objects x = some (.openedDirectory h)) (hpos : h.pos = none)
    (hname : ∀ y, (shape s).parent y = some h.directory → name s y = none) :
    openedDirectoryRead x length s = .ok (none, s) := by
  have hkind := hs.opened x .directory h.directory (opened_eq hx)
  obtain ⟨d, hd⟩ := kind_eq_directory.mp hkind
  have hfiles := skipNameless_children hs .file hname
  have hdirectories := skipNameless_children hs .directory hname
  rw [show (shape s).children .file h.directory = d.files from children_eq hd] at hfiles
  rw [show (shape s).children .directory h.directory = d.directories from children_eq hd]
    at hdirectories
  rw [openedDirectoryRead, bind_apply, getObject_eq hx]
  change (getDirectory h.directory >>= _) s = _
  rw [bind_apply, getDirectory_eq hd]
  simp only [hpos]
  change (getDirectory h.directory >>= _) s = _
  rw [bind_apply, getDirectory_eq hd]
  change ((get : Kernel Store) >>= _) s = _
  rw [bind_apply, get_apply]
  change (skipNameless d.files s.fresh d.files.head? >>= _) s = _
  rw [bind_apply, hfiles]
  change (getDirectory h.directory >>= _) s = _
  rw [bind_apply, getDirectory_eq hd]
  change ((get : Kernel Store) >>= _) s = _
  rw [bind_apply, get_apply]
  change (skipNameless d.directories s.fresh d.directories.head? >>= _) s = _
  rw [bind_apply, hdirectories]
  change (setObject x _ >>= _) s = _
  rw [bind_apply, setObject_eq, ← hpos]
  have hsame : put s x (some (.openedDirectory h)) = s := by
    rw [put, ← hx, Function.update_eq_self]
  exact congrArg (fun s => Except.ok (none, s)) hsame

theorem positive_opened {o : Object} (h : Positive s) (a : Nat) :
    Positive (openedStore s o y a) := by
  intro z hz
  change 0 < Function.update (Function.update s.refcount s.fresh 1) y (s.refcount y + 1) z
  rw [Function.update_apply, Function.update_apply]
  split_ifs with hzy hzf
  · exact Nat.succ_pos _
  · exact Nat.one_pos
  · exact h z ((live_put (x := s.fresh) (v := some o) hz).resolve_left hzf)

theorem noCursor_opened {o : Object} (h : NoCursor s) (ho : cursorOf o = none) (a : Nat) :
    NoCursor (openedStore s o y a) := by
  intro z
  change cursor (put s s.fresh (some o)) z = none
  rw [cursor_put, Function.update_apply]
  split_ifs
  · exact ho
  · exact h z

/-- What follows on the allocation of memory for an opened object. -/
theorem objectInit_addRef {o : Object} (hy : s.objects y ≠ none) (hyf : y ≠ s.fresh) :
    (do
      let h ← objectInit o
      objectAddRef y
      pure (some h) : Kernel (Option Nat)) { s with allocs := s.allocs + 1 } =
      .ok (some s.fresh, openedStore s o y (s.allocs + 1)) := by
  have hlive : Function.update s.objects s.fresh (some o) y ≠ none := by
    rwa [Function.update_of_ne hyf]
  have haddRef := addRef_eq (s := { s with
    objects := Function.update s.objects s.fresh (some o)
    refcount := Function.update s.refcount s.fresh 1
    fresh := s.fresh + 1
    allocs := s.allocs + 1 }) hlive
  rw [bind_apply, objectInit]
  change (objectAddRef y >>= _) _ = _
  rw [bind_apply, haddRef]
  change Except.ok (some s.fresh, _) = _
  rw [count, openedStore, put]
  simp only [Function.update_of_ne hyf]

/-- What `fileOpen` and `directoryOpen` do. -/
def Opens (held : Nat → Nat) (m : Kernel (Option Nat)) (s : Store) : Prop :=
  ∃ r s', m s = .ok (r, s') ∧ Inv s' (withHandle held r) ∧ Positive s' ∧ NoCursor s'

theorem opens_none (h : Inv s held) (hpos : Positive s) (hc : NoCursor s) :
    Opens held (pure none) s := ⟨none, s, rfl, h, hpos, hc⟩

theorem opens_object {o : Object} (h : Inv s held) (hpos : Positive s) (hc : NoCursor s)
    (hy : (shape s).kind y = some k) (ho : openedOf o = some (k, y)) (hkind : kindOf o = none)
    (hparent : parentOf o = none) (hchildren : ∀ j, childrenOf o j = [])
    (hcursor : cursorOf o = none) : Opens held (do
      if ← heapAlloc then
        let h ← objectInit o
        objectAddRef y
        pure (some h)
      else pure none) s := by
  rw [Opens, bind_apply, heapAlloc]
  rcases s.heap s.allocs with _ | _
  · exact ⟨none, _, rfl, inv_alloc h, hpos, hc⟩
  · have hlive := live_of_kind hy
    refine ⟨some s.fresh, openedStore s o y (s.allocs + 1),
      objectInit_addRef hlive (Nat.ne_of_lt (h.lt_fresh y hlive)), ?_, ?_, ?_⟩
    · exact inv_opened h hy ho hkind hparent hchildren _
    · exact positive_opened hpos _
    · exact noCursor_opened hc hcursor _

theorem fileSystemIsValid_eq {o : Object} (ho : s.objects y = some o) (hc : NoCursor s) :
    fileSystemIsValidFile (some y) s = .ok (if kindOf o = some .file then some y else none, s) ∧
      fileSystemIsValidDirectory (some y) s =
        .ok (if kindOf o = some .directory then some y else none, s) := by
  have hcursor := hc y
  rw [cursor, ho] at hcursor
  rw [fileSystemIsValidFile, fileSystemIsValidDirectory, bind_apply, bind_apply, getObject_eq ho]
  rcases o with d | f | f | ⟨d, pos⟩
  · exact ⟨rfl, rfl⟩
  · exact ⟨rfl, rfl⟩
  · exact ⟨rfl, rfl⟩
  · obtain rfl : pos = none := hcursor
    exact ⟨rfl, rfl⟩

theorem fileSystemOpen_opens (h : Inv s held) (hpos : Positive s) (hc : NoCursor s)
    (obj : Option Nat) (hx : ∀ y, obj = some y → s.objects y ≠ none) :
    Opens held (fileSystemOpen obj) s := by
  rcases obj with _ | y
  · exact opens_none h hpos hc
  · obtain ⟨o, ho⟩ := Option.ne_none_iff_exists'.mp (hx y rfl)
    obtain ⟨hfile, hdirectory⟩ := fileSystemIsValid_eq ho hc
    rw [Opens, fileSystemOpen, bind_apply, hfile]
    rcases Classical.em (kindOf o = some .file) with hk | hk
    · rw [if_pos hk]
      exact opens_object h hpos hc ((kind_eq ho).trans hk) rfl rfl rfl (fun j => rfl) rfl
    · rw [if_neg hk]
      change ∃ r s', (fileSystemIsValidDirectory (some y) >>= _) s = _ ∧ _
      rw [bind_apply, hdirectory]
      rcases Classical.em (kindOf o = some .directory) with hk | hk
      · rw [if_pos hk]
        exact opens_object h hpos hc ((kind_eq ho).trans hk) rfl rfl rfl (fun j => rfl) rfl
      · rw [if_neg hk]
        exact opens_none h hpos hc

theorem holds_withHandle {st : State} (others : Nat → Nat) (r : Option Nat) (s : Store) :
    withHandle (holds st others) r = holds ⟨s, withHandle st.handles r⟩ others := by
  rcases r with _ | x
  · rfl
  · exact oneMore_add st.handles others x

theorem holds_close {st : State} (others : Nat → Nat) (s : Store) (hx : 0 < st.handles x) :
    holds st others =
      oneMore (holds ⟨s, Function.update st.handles x (st.handles x - 1)⟩ others) x := by
  funext y
  simp only [oneMore, holds, Function.update_apply]
  split_ifs with hy
  · rw [hy]
    omega
  · rfl

theorem Exact.handle {st : State} {others : Nat → Nat} (h : Exact others st)
    (hx : handleGet st x = some y) : y = x ∧ 0 < st.handles x ∧ st.store.objects x ≠ none := by
  rw [handleGet] at hx
  split_ifs at hx with hpos
  exact ⟨(Option.some.inj hx).symm, hpos, h.inv.held_live x (Nat.add_pos_left hpos _)⟩

theorem Exact.read {st : State} {others : Nat → Nat} (h : Exact others st) {length : Nat}
    (hquiet : Quiet st (.read x length)) : cursorStep st (.read x length) = .ok (st, none) := by
  rcases hx : handleGet st x with _ | y
  · exact onHandle_none _ hx
  · obtain ⟨-, -, hlive⟩ := h.handle hx
    obtain ⟨o, ho⟩ := Option.ne_none_iff_exists'.mp hlive
    refine onHandle_eq hx ?_
    have hcursor := h.noCursor x
    rw [cursor, ho] at hcursor
    rw [objectRead, bind_apply, getObject_eq ho]
    rcases o with d | f | f | d
    · rfl
    · rfl
    · rfl
    · change (openedDirectoryRead x length >>= _) st.store = _
      rw [bind_apply, openedDirectoryRead_quiet h.inv length ho hcursor (hquiet d ho)]
      rfl

/-- No call stops, and a call which sets no cursor keeps the references in order. -/
theorem cursorStep_exact {st : State} {others : Nat → Nat} (h : Exact others st)
    (call : CursorCall) (hquiet : Quiet st call) :
    ∃ st' r, cursorStep st call = .ok (st', r) ∧ Exact others st' := by
  obtain ⟨hinv, hpos, hc⟩ := id h
  cases call with
  | «open» x =>
      obtain ⟨r, s', hm, hinv', hpos', hc'⟩ := fileSystemOpen_opens hinv hpos hc
        (handleGet st x) fun y hy => by
          obtain ⟨rfl, -, hlive⟩ := h.handle hy
          exact hlive
      rw [holds_withHandle others r s'] at hinv'
      refine ⟨⟨s', withHandle st.handles r⟩, r, ?_, hinv', hpos', hc'⟩
      rw [cursorStep, newHandle, hm]
      rfl
  | read x length => exact ⟨st, none, h.read hquiet, h⟩
  | shutdown x =>
      rcases hx : handleGet st x with _ | y
      · exact ⟨st, none, onHandle_none _ hx, h⟩
      · obtain ⟨-, -, hlive⟩ := h.handle hx
        have hspec := objectShutdown_spec hinv hlive
        rcases hs : objectShutdown x st.store with e | ⟨u, s'⟩
        · exact (hspec.of_error hs).elim
        · obtain ⟨hinv', hshrinks, -⟩ := hspec.of_ok hs
          exact ⟨⟨s', st.handles⟩, none, onHandle_eq hx hs, hinv', hshrinks.positive hpos,
            hshrinks.noCursor hc⟩
  | dup x =>
      rcases hx : handleGet st x with _ | y
      · refine ⟨st, none, ?_, h⟩
        rw [cursorStep, step, onHandle_none _ hx, hx]
        rfl
      · obtain ⟨rfl, -, hlive⟩ := h.handle hx
        have hinv' := inv_addRef hinv hlive
        refine ⟨⟨count st.store y (st.store.refcount y + 1), oneMore st.handles y⟩, none, ?_, ?_,
          positive_count hpos _, hc⟩
        · rw [cursorStep, step, onHandle_eq hx (addRef_eq hlive), hx]
          rfl
        · rwa [show oneMore (holds st others) y = _ from
            holds_withHandle others (some y) (count st.store y (st.store.refcount y + 1))] at hinv'
  | close x =>
      rcases hx : handleGet st x with _ | y
      · have hzero : st.handles x = 0 := by
          rw [handleGet] at hx
          split_ifs at hx with hpos
          omega
        refine ⟨st, none, ?_, h⟩
        rw [cursorStep, step, onHandle_none _ hx, hzero, show 0 - 1 = st.handles x from hzero.symm,
          Function.update_eq_self]
        rfl
      · obtain ⟨-, hhandle, -⟩ := h.handle hx
        rw [holds_close others st.store hhandle] at hinv
        have hspec := objectRelease_spec hinv hc
        rcases hs : objectRelease x st.store with e | ⟨u, s'⟩
        · exact (hspec.of_error hs).elim
        · obtain ⟨hinv', hshrinks⟩ := hspec.of_ok hs
          refine ⟨⟨s', Function.update st.handles x (st.handles x - 1)⟩, none, ?_, hinv',
            hshrinks.positive hpos, hshrinks.noCursor hc⟩
          rw [cursorStep, step, onHandle_eq hx hs]
          rfl

theorem Exact.owned {st : State} {others : Nat → Nat} (h : Exact others st) : Owned others st := by
  have hcursor : ∀ y x, cursor st.store y ≠ some x := by
    intro y x
    rw [h.noCursor y]
    exact nofun
  refine ⟨fun x hx => ?_, fun y x hy => (hcursor y x hy).elim, fun y x hy => (hcursor y x hy).elim⟩
  have htally : tally (cursor st.store) x = 0 := by
    have hempty : {y | cursor st.store y = some x} = ∅ :=
      Set.eq_empty_of_forall_notMem fun y => hcursor y x
    rw [tally, hempty, Set.ncard_empty]
  rw [htally, h.inv.balanced x hx, Nat.add_zero]


theorem run_reads_close {st st' : State} {others : Nat → Nat} {r : Option Nat} (h : Exact others st)
    (hquiet : ∀ length, Quiet st (.read x length))
    (hclose : cursorStep st (.close x) = .ok (st', r))
    (lengths : List Nat) : ∃ results,
      run cursorStep st (lengths.map (.read x) ++ [.close x]) = .ok (st', results) := by
  induction lengths with
  | nil => exact ⟨[r], bind_eq_ok.mpr ⟨(st', r), hclose, rfl⟩⟩
  | cons length lengths ih =>
      obtain ⟨results, hrun⟩ := ih
      exact ⟨none :: results, bind_eq_ok.mpr ⟨(st, none), h.read (hquiet length),
        bind_eq_ok.mpr ⟨(st', results), hrun, rfl⟩⟩⟩

/-- An opened directory goes away with its handle. -/
theorem objectRelease_opened (h : Inv s held) (hpos : Positive s)
    (hy : (shape s).kind y = some .directory) (a : Nat) :
    Yields (fun _ => False) (objectRelease s.fresh)
      (openedStore s (.openedDirectory { directory := y }) y a)
      fun _ s' => ∀ z, s.objects z ≠ none → s'.refcount z = s.refcount z := by
  have hlive := live_of_kind hy
  have hyf : y ≠ s.fresh := Nat.ne_of_lt (h.lt_fresh y hlive)
  obtain ⟨d, hd⟩ := kind_eq_directory.mp hy
  obtain ⟨n, hn⟩ : ∃ n, s.refcount y = n + 1 := ⟨s.refcount y - 1, by have := hpos y hlive; omega⟩
  have hobject : (openedStore s (.openedDirectory { directory := y }) y a).objects s.fresh =
      some (.openedDirectory { directory := y }) := Function.update_self ..
  have hdirectory : ∀ t, (put (count (openedStore s (.openedDirectory { directory := y }) y a)
      s.fresh t) s.fresh none).objects y = some (.directory d) := by
    intro t
    change Function.update (Function.update s.objects s.fresh _) s.fresh none y = _
    rw [Function.update_of_ne hyf, Function.update_of_ne hyf, hd]
  have hone : (openedStore s (.openedDirectory { directory := y }) y a).refcount s.fresh = 1 :=
    (Function.update_of_ne hyf.symm ..).trans (Function.update_self ..)
  have hcount : ∀ t, (put (count (openedStore s (.openedDirectory { directory := y }) y a)
      s.fresh t) s.fresh none).refcount y = n + 2 := by
    intro t
    change Function.update (Function.update (Function.update s.refcount s.fresh 1) y
      (s.refcount y + 1)) s.fresh t y = _
    rw [Function.update_of_ne hyf, Function.update_self, hn]
  refine yields_objectRelease (yields_releaseNested hobject (fun _ => ?_) (fun hne => ?_))
  · refine yields_ok_bind (getObject_eq hobject) ?_
    refine yields_modify_bind ?_
    change Yields _ (releaseNested (s.fresh + 2) y)
      (put (count (openedStore s (.openedDirectory { directory := y }) y a) s.fresh _) s.fresh none)
        _
    refine yields_releaseNested (hdirectory _) (fun hzero => ?_) (fun _ => ?_)
    · rw [hcount] at hzero
      cases hzero
    · intro z hz
      have hzf : z ≠ s.fresh := Nat.ne_of_lt (h.lt_fresh z hz)
      rw [hcount, refcount_count]
      change Function.update (Function.update (Function.update (Function.update s.refcount
        s.fresh 1) y (s.refcount y + 1)) s.fresh _) y (n + 1) z = _
      rcases eq_or_ne z y with rfl | hzy
      · rw [Function.update_self, hn]
      · rw [Function.update_of_ne hzy, Function.update_of_ne hzf, Function.update_of_ne hzy,
          Function.update_of_ne hzf]
  · rw [hone] at hne
    exact (hne rfl).elim

theorem open_directory {st : State} {others : Nat → Nat} (h : Exact others st)
    (hx : (shape st.store).kind x = some .directory) : ∃ a,
      cursorStep st (.open x) = .ok (⟨{ st.store with allocs := a }, st.handles⟩, none) ∨
      cursorStep st (.open x) =
        .ok (⟨openedStore st.store (.openedDirectory { directory := x }) x a,
          oneMore st.handles st.store.fresh⟩, some st.store.fresh) := by
  rcases hy : handleGet st x with _ | y
  · refine ⟨st.store.allocs, Or.inl ?_⟩
    rw [cursorStep, hy]
    rfl
  · obtain ⟨rfl, -, hlive⟩ := h.handle hy
    obtain ⟨d, hd⟩ := kind_eq_directory.mp hx
    obtain ⟨hfile, hdirectory⟩ := fileSystemIsValid_eq hd h.noCursor
    have hopen : fileSystemOpen (some y) st.store = directoryOpen y st.store := by
      rw [fileSystemOpen, bind_apply, hfile, if_neg nofun]
      change (fileSystemIsValidDirectory (some y) >>= _) st.store = _
      rw [bind_apply, hdirectory]
      rfl
    refine ⟨st.store.allocs + 1, ?_⟩
    rw [cursorStep, hy, newHandle, hopen, directoryOpen, bind_apply, heapAlloc]
    rcases st.store.heap st.store.allocs with _ | _
    · exact Or.inl rfl
    · refine Or.inr ?_
      have hinit := objectInit_addRef (o := .openedDirectory { directory := y }) hlive
        (Nat.ne_of_lt (h.inv.lt_fresh y hlive))
      change ((do
        let h ← objectInit (.openedDirectory { directory := y })
        objectAddRef y
        pure (some h) : Kernel (Option Nat)) { st.store with allocs := st.store.allocs + 1 } >>= _)
          = _
      rw [hinit]
      rfl

/-- To open a directory, to read it and to close it leaves every count as it was. -/
theorem open_reads_close {st : State} {others : Nat → Nat} (h : Exact others st)
    (hx : (shape st.store).kind x = some .directory)
    (hname : ∀ y, (shape st.store).parent y = some x → name st.store y = none)
    (lengths : List Nat) : ∃ st' results,
      run cursorStep st
        (.open x :: (lengths.map (.read st.store.fresh) ++ [.close st.store.fresh])) =
        .ok (st', results) ∧
      ∀ z, st.store.objects z ≠ none → st'.store.refcount z = st.store.refcount z := by
  have hfresh : st.store.objects st.store.fresh = none := by
    by_contra hne
    exact Nat.lt_irrefl _ (h.inv.lt_fresh _ hne)
  obtain ⟨st₁, r, hopen, hst₁⟩ := cursorStep_exact h (.open x) trivial
  obtain ⟨st₂, r', hclose, hst₂, hquiet⟩ : ∃ st₂ r', cursorStep st₁ (.close st.store.fresh) =
      .ok (st₂, r') ∧ (∀ z, st.store.objects z ≠ none →
        st₂.store.refcount z = st.store.refcount z) ∧
      ∀ length, Quiet st₁ (.read st.store.fresh length) := by
    obtain ⟨a, hx' | hx'⟩ := open_directory h hx
    · cases hopen.symm.trans hx'
      have hnone : handleGet ⟨{ st.store with allocs := a }, st.handles⟩ st.store.fresh = none := by
        rcases hy : handleGet ⟨{ st.store with allocs := a }, st.handles⟩ st.store.fresh with _ | y
        · rfl
        · exact (hst₁.handle hy).2.2 hfresh |>.elim
      refine ⟨⟨{ st.store with allocs := a }, Function.update st.handles st.store.fresh
        (st.handles st.store.fresh - 1)⟩, none, ?_, fun _ _ => rfl, ?_⟩
      · rw [cursorStep, step, onHandle_none _ hnone]
        rfl
      · intro length o ho
        cases hfresh.symm.trans ho
    · cases hopen.symm.trans hx'
      have hsome : handleGet ⟨openedStore st.store (.openedDirectory { directory := x }) x a,
          oneMore st.handles st.store.fresh⟩ st.store.fresh = some st.store.fresh :=
        if_pos (oneMore_pos _ _)
      have hspec := objectRelease_opened h.inv h.positive hx a
      rcases hs : objectRelease st.store.fresh
        (openedStore st.store (.openedDirectory { directory := x }) x a) with e | ⟨u, s'⟩
      · exact (hspec.of_error hs).elim
      · refine ⟨⟨s', Function.update (oneMore st.handles st.store.fresh) st.store.fresh
          (oneMore st.handles st.store.fresh st.store.fresh - 1)⟩, none, ?_, hspec.of_ok hs, ?_⟩
        · rw [cursorStep, step, onHandle_eq hsome hs]
          rfl
        · intro length o ho y hy
          cases (Function.update_self ..).symm.trans ho
          change (shape (put st.store st.store.fresh _)).parent y = _ at hy
          change FilesystemTrees.name (put st.store st.store.fresh _) y = none
          rw [parent_put, Function.update_apply] at hy
          rw [name_put, Function.update_apply]
          split_ifs at hy ⊢ with hyf
          · cases hy
          · exact hname y hy
  obtain ⟨results, hrun⟩ := run_reads_close hst₁ hquiet hclose lengths
  exact ⟨st₂, r :: results, bind_eq_ok.mpr ⟨(st₁, r), hopen,
    bind_eq_ok.mpr ⟨(st₂, results), hrun, rfl⟩⟩, hst₂⟩


/-- A directory with one file, of which there are handles. -/
def oneFile : State where
  store := count
    (created (fileSystemInit fun _ => true) 0 (.file { parent := some 0, name := some [97] })
    (.directory { parent := none, name := none, files := [1] }) 3) 0 2
  handles := oneMore (oneMore (fun _ => 0) 1) 0

theorem exact_oneFile : Exact (fun _ => 0) oneFile := by
  have hinit := inv_init fun _ => true
  have hgrows := grows_created (p := 0) (c := [97]) hinit.lt_fresh
    (show _ = some (.directory { parent := none, name := none }) from rfl) links_file 3
  refine ⟨inv_addRef (inv_grows hinit rfl hgrows) (x := 0) nofun, ?_, ?_⟩
  · exact positive_count (positive_grows (positive_init _) hgrows) 1
  · refine noCursor_of_eq (s := fileSystemInit fun _ => true) (fun h => ?_) hgrows.cursor
    rw [cursor, objects_init]
    split_ifs <;> rfl

end

/-- As long as no read finds an entry with a name, every reference is counted and
no read follows the link of an entry which is not in the directory. -/
theorem run_owned (others : Nat → Nat) (st : State) (calls : List CursorCall)
    (h : Exact others st) (hquiet : Along cursorStep Quiet st calls) :
    ∃ st' results, run cursorStep st calls = .ok (st', results) ∧ Owned others st' ∧
      ∀ x, (shape st'.store).kind x = some .directory →
        (∀ y, (shape st'.store).parent y = some x → name st'.store y = none) →
        ∀ lengths : List Nat, ∃ st'' results',
          run cursorStep st' (.open x :: (lengths.map (.read st'.store.fresh) ++
            [.close st'.store.fresh])) = .ok (st'', results') ∧
          ∀ z, st'.store.objects z ≠ none → st''.store.refcount z = st'.store.refcount z := by
  obtain ⟨st', results, hrun, hst'⟩ := run_along
    (fun st call h hquiet => cursorStep_exact h call hquiet) h hquiet
  exact ⟨st', results, hrun, hst'.owned, fun x hx hname => open_reads_close hst' hx hname⟩

theorem run_owned_deleted : Exact (fun _ => 0) oneFile ∧
    ∃ st' results, run cursorStep oneFile [.shutdown 1, .open 0, .read 2 10, .close 1] =
      .ok (st', results) ∧ Owned (fun _ => 0) st' := by
  have hquiet : Along cursorStep Quiet oneFile [.shutdown 1, .open 0, .read 2 10, .close 1] := by
    refine ⟨trivial, trivial, ?_, trivial, trivial⟩
    rintro h ⟨⟩ y hy
    rcases y with _ | _ | _ | y
    · cases hy
    · cases hy
    · cases hy
    · cases hy
  obtain ⟨st', results, hrun, howned, -⟩ := run_owned (fun _ => 0) oneFile
    [.shutdown 1, .open 0, .read 2 10, .close 1] exact_oneFile hquiet
  exact ⟨exact_oneFile, st', results, hrun, howned⟩

/-- The cursor gives up the reference of somebody else when its directory is closed. -/
theorem read_close_close : Exact (fun _ => 0) oneFile ∧
    (∃ st' results, run cursorStep oneFile [.open 0, .read 2 10] = .ok (st', results) ∧
      ¬Owned (fun _ => 0) st') ∧
    run cursorStep oneFile [.open 0, .read 2 10, .close 2, .close 1] = .error .assertion := by
  refine ⟨exact_oneFile, ⟨_, _, rfl, fun howned => ?_⟩, rfl⟩
  have hcursor : NoCursor (openedStore oneFile.store (.openedDirectory { directory := 0 }) 0 4) :=
    noCursor_opened exact_oneFile.noCursor rfl 4
  have hfinitary : Finitary (cursor (put (openedStore oneFile.store
      (.openedDirectory { directory := 0 }) 0 4) 2
      (some (.openedDirectory { directory := 0, pos := some 1 })))) := by
    rw [cursor_put, funext hcursor]
    refine Finitary.update ?_ 2 _
    exact Set.finite_empty.subset fun _ h => h rfl
  have htally := tally_pos hfinitary (a := 2) (b := 1) rfl
  have hcounted : 2 = 1 + 0 + _ + 1 + tally (cursor (put (openedStore oneFile.store
      (.openedDirectory { directory := 0 }) 0 4) 2
      (some (.openedDirectory { directory := 0, pos := some 1 })))) 1 := howned.counted 1 nofun
  omega

end Ibnos.Cursors
