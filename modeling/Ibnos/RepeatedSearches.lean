import Ibnos.FilesystemRuns

/-!
A search which returned a file finds it when it is made once more.
-/

namespace Ibnos.RepeatedSearches

open Ibnos.Creations
open Ibnos.Filesystem
open Ibnos.FilesystemReleases
open Ibnos.FilesystemRuns
open Ibnos.FilesystemTrees
open Ibnos.Forests
open Ibnos.LookupReferences
open Ibnos.Lookups
open Ibnos.Programs
open Ibnos.Strings

section

variable {s s' s₁ : Store} {held : Nat → Nat} {d e f p x : Nat} {c path : Bytes}

theorem find_grows {k j : Kind} {q : Nat} (h : Inv s held) (hg : Grows k p c s s') {buf : Bytes}
    (hx : find s buf ((shape s).children j q) = some x) :
    find s' buf ((shape s').children j q) = some x := by
  have hold : find s' buf ((shape s).children j q) = some x := by
    rw [← hx, find, find, ← List.head?_filter, ← List.head?_filter]
    congr 1
    refine List.filter_congr fun y hy => ?_
    have hlive := (Inv.tree h).children_live j q y hy
    obtain ⟨k', hk'⟩ := Option.ne_none_iff_exists'.mp hlive
    have hne : y ≠ s.fresh := (h.lt_fresh y (live_of_kind hk')).ne
    rw [hg.name, Function.update_of_ne hne]
  rcases Classical.em (j = k ∧ q = p) with ⟨rfl, rfl⟩ | hother
  · rw [hg.same, find, List.find?_append]
    rw [find] at hold
    rw [hold]
    rfl
  · rw [hg.other j q hother]
    exact hold

theorem find_created {cs : List Bytes} {n : Nat} {j : Kind} {q : Nat} (h : Inv s held)
    (hc : Created cs n s s') {buf : Bytes} (hx : find s buf ((shape s).children j q) = some x) :
    find s' buf ((shape s').children j q) = some x := by
  induction hc generalizing held with
  | done s => exact hx
  | alloc a _ ih => exact ih (inv_alloc h) hx
  | step hp _ _ hg _ ih => exact ih (inv_grows h hp hg) (find_grows h hg hx)

theorem find_new {k : Kind} (hg : Grows k p c s s') (hzero : 0 ∉ c)
    (h : Inv s held) (hnone : find s c ((shape s).children k p) = none) :
    find s' c ((shape s').children k p) = some s.fresh := by
  have hold : find s' c ((shape s).children k p) = none := by
    rw [find, List.find?_eq_none] at hnone ⊢
    intro y hy
    obtain ⟨k', hk'⟩ := Option.ne_none_iff_exists'.mp ((Inv.tree h).children_live k p y hy)
    have hne : y ≠ s.fresh := (h.lt_fresh y (live_of_kind hk')).ne
    rw [hg.name, Function.update_of_ne hne]
    exact hnone y hy
  have hnew : stringIsEqual (name s' s.fresh) c = true := by
    rw [hg.name, Function.update_self, stringIsEqual_iff, strip_of_not_mem hzero]
    exact cstring_of_not_mem hzero
  rw [find] at hold
  rw [hg.same, find, List.find?_append, hold, List.find?_singleton, if_pos hnew]
  rfl

/-- The paths to directories of which nothing follows the last slash. -/
def Slashed (path : Bytes) : Prop := ∀ c, path.getLast? = some c → c = SLASH

theorem slashed_directoryPart (path : Bytes) : Slashed (directoryPart path) := by
  intro c hc
  have hne : directoryPart path ≠ [] := by
    intro hnil
    rw [hnil] at hc
    cases hc
  have hlast : (directoryPart path).getLast hne = SLASH := by
    have hnot := List.rdropWhile_last_not (· ≠ SLASH) path hne
    exact not_not.mp fun h => hnot (decide_eq_true h)
  rw [List.getLast?_eq_some_getLast hne, hlast] at hc
  exact (Option.some.inj hc).symm

theorem rest_suffix (path : Bytes) : rest path <:+ path :=
  (List.dropWhile_suffix _).trans (List.dropWhile_suffix _)

theorem Slashed.rest (h : Slashed path) (hne : component path ≠ []) :
    (∃ path', Strings.rest path = SLASH :: path') ∧ Slashed (Strings.rest path) := by
  have happend := component_append_rest path
  have hsuffix : component path ++ Strings.rest path <:+ path := by
    rw [happend]
    exact List.dropWhile_suffix _
  rcases rest_eq_nil_or path with hnil | hcons
  · rw [hnil, List.append_nil] at hsuffix
    obtain ⟨front, hfront⟩ := hsuffix
    have hlast := List.getLast?_append_of_ne_nil front hne
    rw [hfront, List.getLast?_eq_some_getLast hne] at hlast
    have hslash := h _ hlast
    exact absurd (hslash ▸ List.getLast_mem hne) (slash_notMem_component path)
  · refine ⟨hcons, fun c hc => ?_⟩
    obtain ⟨front, hfront⟩ := rest_suffix path
    have hne' : Strings.rest path ≠ [] := by
      intro hnil
      rw [hnil] at hc
      cases hc
    have hlast := List.getLast?_append_of_ne_nil front hne'
    rw [hfront, hc] at hlast
    exact h c hlast

theorem strip_cons {b : UInt8} (hb : b ≠ 0) (buf : Bytes) : strip (b :: buf) = b :: strip buf := by
  rw [strip, strip, List.rdropWhile, List.rdropWhile, List.reverse_cons, List.dropWhile_append]
  split_ifs with hnil
  · rw [List.isEmpty_iff.mp hnil, List.dropWhile_cons_of_neg (by simpa using hb)]
    rfl
  · rw [List.reverse_append]
    rfl

/-- There is a slash behind every component, so the parent is never taken. -/
theorem afterDots_slashed (after : Nat → UInt8) (h : Slashed path) (hne : component path ≠ []) :
    afterDots s after d path = d := by
  obtain ⟨path', hrest⟩ := (h.rest hne).1
  obtain ⟨n, hn⟩ := Nat.exists_eq_succ_of_ne_zero (List.length_pos_iff.mpr hne).ne'
  rw [afterDots, if_neg]
  rw [stringIsEqual_iff, hrest, hn, behind]
  intro heq
  have hmem : SLASH ∈ strip (SLASH :: (path'.take n ++
      (List.range (n.succ - (SLASH :: path').length)).map after)) := by
    rw [strip_cons (by decide)]
    exact List.mem_cons_self
  rw [List.take_succ_cons, List.cons_append] at heq
  rw [← heq] at hmem
  exact absurd hmem (by decide)


theorem lookup_grows {k : Kind} {after : Nat → UInt8} {fuel : Nat} (h : Inv s held)
    (hg : Grows k p c s s') (hslashed : Slashed path)
    (hfound : lookup s after fuel d path = .found e) : lookup s' after fuel d path = .found e := by
  induction fuel generalizing d path with
  | zero => cases hfound
  | succ fuel ih =>
      rw [lookup] at hfound ⊢
      split_ifs at hfound ⊢ with hempty hdots
      · exact hfound
      · rw [afterDots_slashed after hslashed hempty] at hfound ⊢
        exact ih (hslashed.rest hempty).2 hfound
      · rcases hx : find s (component path) ((shape s).children .directory d) with _ | y
        · rw [hx] at hfound
          cases hfound
        · rw [hx] at hfound
          rw [find_grows h hg hx]
          exact ih (hslashed.rest hempty).2 hfound

/-- The bytes behind the path do not matter. -/
theorem lookup_slashed (after after' : Nat → UInt8) {fuel : Nat} (hslashed : Slashed path) :
    lookup s after fuel d path = lookup s after' fuel d path := by
  induction fuel generalizing d path with
  | zero => rfl
  | succ fuel ih =>
      rw [lookup, lookup]
      split_ifs with hempty hdots
      · rfl
      · rw [afterDots_slashed after hslashed hempty, afterDots_slashed after' hslashed hempty]
        exact ih (hslashed.rest hempty).2
      · rcases find s (component path) ((shape s).children .directory d) with _ | y
        · rfl
        · exact ih (hslashed.rest hempty).2

theorem searchFrom_found {after : Nat → UInt8} (create : Bool) {fuel : Nat} (h : Tree s)
    (hd : (shape s).kind d = some .directory) (hfound : lookup s after fuel d path = .found e) :
    (shape s).kind e = some .directory ∧ searchFrom after create fuel d path s =
      .ok (some e, count s e (s.refcount e + 1)) := by
  induction fuel generalizing d path with
  | zero => cases hfound
  | succ fuel ih =>
      rw [lookup] at hfound
      split_ifs at hfound with hempty hdots
      · obtain rfl : d = e := Outcome.found.inj hfound
        exact ⟨hd, searchFrom_empty create fuel hd hempty⟩
      · rw [searchFrom_dots create fuel hd hempty hdots]
        exact ih (h.afterDots hd) hfound
      · rcases hx : find s (component path) ((shape s).children .directory d) with _ | y
        · rw [hx] at hfound
          cases hfound
        · rw [hx] at hfound
          rw [searchFrom_some h create fuel hd hempty hdots hx]
          exact ih (h.find_directory hx) hfound

/-- The directories which were missing are there afterwards. -/
theorem lookup_searched {after : Nat → UInt8} {fuel : Nat} (h : Inv s held) (hpos : Positive s)
    (hd : (shape s).kind d = some .directory) (hslashed : Slashed path) (hzero : 0 ∉ path)
    (hfuel : path.length < fuel)
    (hrun : searchFrom after true fuel d path s = .ok (some e, s₁)) : ∃ n s',
      Created (components path) n s s' ∧ s₁ = count s' e (s'.refcount e + 1) ∧
        (shape s').kind e = some .directory ∧ lookup s' after fuel d path = .found e := by
  induction fuel generalizing s held d path with
  | zero => omega
  | succ fuel ih =>
      have htree := Inv.tree h
      rcases eq_or_ne (component path) [] with hempty | hempty
      · rw [searchFrom_empty true fuel hd hempty] at hrun
        obtain ⟨rfl, rfl⟩ : d = e ∧ count s d (s.refcount d + 1) = s₁ := by simpa using hrun
        refine ⟨0, s, .done s, rfl, hd, ?_⟩
        rw [lookup, if_pos hempty]
      · have hlt := length_rest_lt hempty
        have hfuel' : (rest path).length < fuel := by omega
        have hslashed' := (hslashed.rest hempty).2
        have hzero' := zero_notMem_rest hzero
        have hcomponents := components_eq path
        rw [if_neg hempty] at hcomponents
        have hrest : ∀ c ∈ components (rest path), c ∈ components path := by
          intro c hc
          rw [hcomponents]
          exact List.mem_cons_of_mem _ hc
        rcases Classical.em (Dots (component path)) with hdots | hdots
        · rw [searchFrom_dots true fuel hd hempty hdots] at hrun
          obtain ⟨n, s', hc, rfl, he, hfound⟩ :=
            ih h hpos (htree.afterDots hd) hslashed' hzero' hfuel' hrun
          refine ⟨n, s', hc.mono hrest, rfl, he, ?_⟩
          rw [lookup, if_neg hempty, if_pos hdots, afterDots_slashed after hslashed hempty]
          rwa [afterDots_slashed after hslashed hempty] at hfound
        · rcases hx : find s (component path) ((shape s).children .directory d) with _ | y
          · rw [searchFrom_create h hd hempty hdots hx] at hrun
            rcases hf : find s (component path) ((shape s).children .file d) with _ | f
            · rw [if_pos hf] at hrun
              rcases Classical.em (HasMemory s) with hm | hm
              · obtain ⟨s₂, hcreate, hg⟩ :=
                  (creates_directoryCreate s held d (component path) h hd).1 hm
                have hnew : (shape s₂).kind s.fresh = some .directory := by
                  rw [hg.kind, Function.update_self]
                rw [bind_apply, hcreate] at hrun
                obtain ⟨n, s', hc, rfl, he, hfound⟩ := ih (inv_grows h hd hg)
                  (positive_grows hpos hg) hnew hslashed' hzero' hfuel' hrun
                refine ⟨n + 1, s', .step hd ?_ ?_ hg (hc.mono hrest), rfl, he, ?_⟩
                · rw [hcomponents]
                  exact List.mem_cons_self
                · exact ⟨slash_notMem_component path, hempty, hdots, hx, hf⟩
                · rw [lookup, if_neg hempty, if_neg hdots, find_created (inv_grows h hd hg) hc
                    (find_new hg (zero_notMem_component hzero) h hx)]
                  exact hfound
              · obtain ⟨a, ha⟩ := (creates_directoryCreate s held d (component path) h hd).2 hm
                rw [bind_apply, ha] at hrun
                cases hrun
            · rw [if_neg (by rw [hf]; simp)] at hrun
              cases hrun
          · rw [searchFrom_some htree true fuel hd hempty hdots hx] at hrun
            obtain ⟨n, s', hc, rfl, he, hfound⟩ :=
              ih h hpos (htree.find_directory hx) hslashed' hzero' hfuel' hrun
            refine ⟨n, s', hc.mono hrest, rfl, he, ?_⟩
            rw [lookup, if_neg hempty, if_neg hdots, find_created h hc hx]
            exact hfound


/-- A search in a directory returned a file which was there, or created it. -/
theorem searchFileIn_some {create : Bool} (hpos : Positive s) (h : Inv s held)
    (he : (shape s).kind e = some .directory)
    (hrun : searchFileIn e c create (count s e (s.refcount e + 1)) = .ok (some f, s₁)) : ¬Dots c ∧
      (find s c ((shape s).children .file e) = some f ∧ s₁ = count s f (s.refcount f + 1) ∨
        find s c ((shape s).children .file e) = none ∧
          find s c ((shape s).children .directory e) = none ∧ create = true ∧ f = s.fresh ∧
            Grows .file e c s s₁) := by
  have hrelease := release_searched hpos he
  rcases Classical.em (Dots c) with hdots | hdots
  · rw [Dots] at hdots
    rw [searchFileIn, if_pos hdots, bind_apply, hrelease] at hrun
    cases hrun
  · refine ⟨hdots, ?_⟩
    rcases hf : find s c ((shape s).children .file e) with _ | f'
    · have hdots' := hdots
      rw [Dots] at hdots'
      obtain ⟨d, hd⟩ := kind_eq_directory.mp he
      have hd' : (count s e (s.refcount e + 1)).objects e = some (.directory d) := hd
      have hfiles : (shape s).children .file e = d.files := children_eq hd
      have hdirectories : (shape s).children .directory e = d.directories := children_eq hd
      have hfind : findName none c d.files (count s e (s.refcount e + 1)) =
          .ok (find s c d.files, _) :=
        findName_none c (hfiles ▸ (Inv.tree h).children_live .file e)
      have hfind' : findName none c d.directories (count s e (s.refcount e + 1)) =
          .ok (find s c d.directories, _) :=
        findName_none c (hdirectories ▸ (Inv.tree h).children_live .directory e)
      rw [hfiles] at hf
      rw [searchFileIn, if_neg hdots', bind_apply, getDirectory_eq hd'] at hrun
      change (findName none c d.files >>= _) _ = _ at hrun
      rw [bind_apply, hfind, hf] at hrun
      cases create with
      | false =>
          change (objectRelease e >>= _) _ = _ at hrun
          rw [bind_apply, hrelease] at hrun
          cases hrun
      | true =>
          change (findName none c d.directories >>= _) _ = _ at hrun
          rw [bind_apply, hfind'] at hrun
          rcases hx : find s c d.directories with _ | x
          · rw [hx] at hrun
            change (fileCreate (some e) (some c) >>= _) _ = _ at hrun
            obtain ⟨hyes, hno⟩ := creates_fileCreate (count s e (s.refcount e + 1))
              (oneMore held e) e
              c (inv_addRef h (live_of_kind he)) he
            rcases Classical.em (HasMemory (count s e (s.refcount e + 1))) with hm | hm
            · obtain ⟨s', hcreate, hg⟩ := hyes hm
              obtain ⟨s'', hrelease', hg'⟩ :=
                release_grown hpos (h.lt_fresh e (live_of_kind he)) he hg
              rw [bind_apply, hcreate] at hrun
              change (objectRelease e >>= _) s' = _ at hrun
              rw [bind_apply, hrelease'] at hrun
              obtain ⟨rfl, rfl⟩ : s.fresh = f ∧ s'' = s₁ := by
                change Except.ok (some s.fresh, s'') = _ at hrun
                simpa using hrun
              rw [hdirectories]
              exact Or.inr ⟨rfl, hx, rfl, rfl, hg'⟩
            · obtain ⟨a, ha⟩ := hno hm
              have hrelease' : objectRelease e { count s e (s.refcount e + 1) with allocs := a } =
                  .ok ((), { s with allocs := a }) :=
                release_searched (s := { s with allocs := a }) hpos he
              rw [bind_apply, ha] at hrun
              change (objectRelease e >>= _) _ = _ at hrun
              rw [bind_apply, hrelease'] at hrun
              cases hrun
          · rw [hx] at hrun
            change (objectRelease e >>= _) _ = _ at hrun
            rw [bind_apply, hrelease] at hrun
            cases hrun
    · rw [searchFileIn_found create hpos (Inv.tree h) he hdots hf] at hrun
      obtain ⟨rfl, rfl⟩ : f' = f ∧ count s f' (s.refcount f' + 1) = s₁ := by simpa using hrun
      exact Or.inl ⟨rfl, rfl⟩

/-- A store in which the search for a file finds it without creating anything. -/
structure Finds (s : Store) (path : Bytes) (e f : Nat) : Prop where
  name : filePart path ≠ []
  dots : ¬Dots (filePart path)
  directory : ∀ after, lookup s after ((directoryPart path).length + 1) s.root
    (directoryPart path) = .found e
  file : find s (filePart path) ((shape s).children .file e) = some f

theorem Finds.search (h : Finds s path e f) (hs : Tree s) (hpos : Positive s)
    (after : Nat → UInt8) (create : Bool) : fileSystemSearchFile none path after create s =
      .ok (some f, count s f (s.refcount f + 1)) := by
  obtain ⟨he, hsearch⟩ :=
    searchFrom_found create hs hs.root (h.directory (afterDirectory path after))
  have hsearch' : fileSystemSearchDirectory none (directoryPart path) (afterDirectory path after)
      create s = .ok (some e, count s e (s.refcount e + 1)) := hsearch
  rw [fileSystemSearchFile, if_neg h.name, bind_apply, hsearch']
  exact searchFileIn_found create hpos hs he h.dots h.file

theorem lookup_count (after : Nat → UInt8) (fuel n : Nat) :
    lookup (count s x n) after fuel d path = lookup s after fuel d path := by
  induction fuel generalizing d path with
  | zero => rfl
  | succ fuel ih =>
      rw [lookup, lookup, ih]
      split_ifs
      · rfl
      · rfl
      · have hfind : find (count s x n) (component path)
          ((shape (count s x n)).children .directory d) =
            find s (component path) ((shape s).children .directory d) := rfl
        rw [hfind]
        rcases find s (component path) ((shape s).children .directory d) with _ | y
        · rfl
        · exact ih

theorem finds_count (h : Finds s path e f) (n : Nat) : Finds (count s x n) path e f where
  name := h.name
  dots := h.dots
  directory after := by
    rw [lookup_count]
    exact h.directory after
  file := h.file

/-- The file which a search returned is found by the next one. -/
theorem finds_again {after : Nat → UInt8} (h : Sound held s) (hzero : 0 ∉ path)
    (hrun : fileSystemSearchFile none path after true s = .ok (some f, s₁)) :
    ∃ e s', objectRelease f s₁ = .ok ((), s') ∧ Finds s' path e f := by
  obtain ⟨leaks, hinv, hpos, -⟩ := h
  rcases eq_or_ne (filePart path) [] with hname | hname
  · rw [fileSystemSearchFile, if_pos hname] at hrun
    cases hrun
  · rw [fileSystemSearchFile, if_neg hname] at hrun
    obtain ⟨r, s₂, hsearch, hrun⟩ := bind_ok.mp hrun
    rcases r with _ | e
    · cases hrun
    · have hparts : directoryPart path ++ filePart path = path :=
        List.rdropWhile_append_rtakeWhile ..
      have hslashed := slashed_directoryPart path
      have hzero' : 0 ∉ directoryPart path := fun hmem =>
        hzero (hparts ▸ List.mem_append_left _ hmem)
      have hzero'' : 0 ∉ filePart path := fun hmem =>
        hzero (hparts ▸ List.mem_append_right _ hmem)
      obtain ⟨n, s', hc, rfl, he, hfound⟩ := lookup_searched hinv hpos hinv.root hslashed hzero'
        (Nat.lt_add_one _) hsearch
      obtain ⟨hinv', -⟩ := hc.inv hinv
      have hpos' := hc.positive hpos
      have hdirectory : ∀ after', lookup s' after' ((directoryPart path).length + 1) s'.root
          (directoryPart path) = .found e := by
        intro after'
        rw [LookupReferences.Created.root hc,
          lookup_slashed after' (afterDirectory path after) hslashed]
        exact hfound
      obtain ⟨hdots, ⟨hf, rfl⟩ | ⟨hf, -, -, rfl, hg⟩⟩ := searchFileIn_some hpos' hinv' he hrun
      · have hlive : s'.objects f ≠ none := by
          have hkind := ((hinv'.forest.mem_children .file e f).mp (List.mem_of_find?_eq_some hf)).1
          exact live_of_kind hkind
        exact ⟨e, s', release_again hpos' hlive, hname, hdots, hdirectory, hf⟩
      · have hlive : s₁.objects s'.fresh ≠ none := (hg.live _).mpr (Or.inl rfl)
        have hcount : s₁.refcount s'.fresh = 0 + 2 := by
          rw [hg.refcount, Function.update_self]
        refine ⟨e, _, objectRelease_eq hlive hcount, finds_count ⟨hname, hdots, ?_, ?_⟩ _⟩
        · intro after'
          rw [hg.root]
          exact lookup_grows hinv' hg hslashed (hdirectory after')
        · exact find_new hg hzero'' hinv' hf

end

end Ibnos.RepeatedSearches
