import Ibnos.LiballocCalls

/-!
What `liballoc_free_r` does: the tag melts with its free neighbours, and what comes out
enters a list or goes back to the kernel.
-/

namespace Ibnos.LiballocFrees

open Ibnos.BoundaryTags
open Ibnos.Chains
open Ibnos.Liballoc
open Ibnos.LiballocCalls
open Ibnos.LinkedLists
open Ibnos.Runs
open Ibnos.TagLayout
open Ibnos.TagOperations
open Ibnos.Tilings

/-- The call works on the tag `x'` now, where it has worked on `x`. -/
structure Moved (s : Arena) (L : Layout) (x : Nat) (s' : Arena) (L' : Layout) (x' : Nat) :
    Prop where
  owns : Owns s' L'
  used : ∀ z, Used L' z ∧ z ≠ x' ↔ Used L z ∧ z ≠ x
  kept : ∀ z, Used L z → z ≠ x → Kept s s' z
  initialized : s'.initialized = s.initialized
  locked : s'.locked = s.locked

section

variable {s s' : Arena} {v : View} {L L' : Layout} {b i x y z l r : Nat} {xs ys as bs : List Nat}

theorem Moved.refl (ho : Owns s L) (x : Nat) : Moved s L x s L x :=
  ⟨ho, fun _ => Iff.rfl, fun _ _ _ => Kept.refl s _, rfl, rfl⟩

theorem Moved.trans {s'' : Arena} {L'' : Layout} {x' x'' : Nat} (h : Moved s L x s' L' x')
    (h' : Moved s' L' x' s'' L'' x'') : Moved s L x s'' L'' x'' where
  owns := h'.owns
  used z := (h'.used z).trans (h.used z)
  kept z hz hzx := by
    obtain ⟨hz', hzx'⟩ := (h.used z).mpr ⟨hz, hzx⟩
    exact (h.kept z hz hzx).trans (h'.kept z hz' hzx')
  initialized := h'.initialized.trans h.initialized
  locked := h'.locked.trans h.locked

/-- The right neighbour of a tag is where it ends. -/
theorem adjacent (h : Sound v L) (htiles : L.tiles b = xs ++ x :: y :: ys) :
    y = x + v.realSize x := by
  have htiling := (h.tag_area (x := x) (b := b) (by rw [htiles]; simp)).tiling
  rw [htiles] at htiling
  obtain ⟨_, -, -, -, hy, -⟩ := tiling_append.mp htiling
  exact hy

/-- The two regions together fit into the memory. -/
theorem sum_lt (h : Sound v L) (htiles : L.tiles b = xs ++ x :: y :: ys) :
    v.realSize x + v.realSize y < 2 ^ 32 := by
  have hy := adjacent h htiles
  have hx := (h.bounds (x := x) ⟨b, by rw [htiles]; simp⟩).1
  have hle := (h.bounds (x := y) ⟨b, by rw [htiles]; simp⟩).2
  omega

theorem split_next (h : Sound v L) (htiles : L.tiles b = xs ++ x :: ys) :
    v.split.next x = ys.headD 0 := by
  have hchain := (h.tag_area (x := x) (b := b) (by rw [htiles]; simp)).chain
  rw [htiles] at hchain
  exact hchain.next_eq

theorem split_prev (h : Sound v L) (htiles : L.tiles b = xs ++ x :: ys) :
    v.split.prev x = xs.getLastD 0 := by
  have hchain := (h.tag_area (x := x) (b := b) (by rw [htiles]; simp)).chain
  rw [htiles] at hchain
  exact hchain.prev_eq

/-- The tags which are left after two neighbours have become one. -/
theorem merged_tags (h : Sound v L) (htiles : L.tiles b = xs ++ x :: y :: ys)
    (hz : Tag (L.setTiles b (xs ++ x :: ys)) z) : Tag L z := by
  rcases h.tag_setTiles.mp hz with hz | hz
  · refine ⟨b, ?_⟩
    rw [htiles]
    simp only [List.mem_append, List.mem_cons] at hz ⊢
    tauto
  · exact hz.1

theorem merged_used (h : Sound v L) (htiles : L.tiles b = xs ++ x :: y :: ys) :
    Tag (L.setTiles b (xs ++ x :: ys)) z ↔ Tag L z ∧ z ≠ y := by
  have hnodup := (h.tag_area (x := x) (b := b) (by rw [htiles]; simp)).chain.nodup_tail
  have happend : xs ++ x :: y :: ys = xs ++ [x] ++ y :: ys := by simp
  rw [htiles, happend] at hnodup
  have hnot := (List.nodup_cons.mp (List.nodup_middle.mp hnodup)).1
  constructor
  · intro hz
    refine ⟨merged_tags h htiles hz, ?_⟩
    rintro rfl
    rcases h.tag_setTiles.mp hz with hz | hz
    · exact hnot (by simpa using hz)
    · exact hz.2 (by rw [htiles]; simp)
  · rintro ⟨hz, hzy⟩
    refine h.tag_setTiles.mpr ?_
    by_cases hmem : z ∈ L.tiles b
    · left
      rw [htiles] at hmem
      simp only [List.mem_append, List.mem_cons] at hmem ⊢
      tauto
    · exact Or.inr ⟨hz, hmem⟩

/-! The first loop. -/

theorem meltLoop_stop (h : Held (view s) L b xs x ys) (ho : Owns s L)
    (hleft : ∀ z ∈ xs.getLast?, ¬Listed L z) (fuel : Nat) :
    meltLoop s (fuel + 1) x = .ok (x, s) := by
  have hscope := scope_of_sound h.sound ho
  have hshows := Shows.refl {x | Tag L x} s
  have hprev := split_prev h.sound h.tiles
  rw [meltLoop, load_eq hshows hscope h.tag, ok_bind]
  change (if (view s).split.prev x = 0 then _ else _) = _
  rcases List.eq_nil_or_concat' xs with rfl | ⟨zs, l, rfl⟩
  · have hnull : (view s).split.prev x = 0 := hprev
    rw [if_pos hnull]
    rfl
  · have hl : (view s).split.prev x = l := hprev.trans (by simp)
    have htag : Tag L l := by
      refine ⟨b, ?_⟩
      rw [h.tiles]
      simp
    have hindex := (h.sound.loose l htag (hleft l (by simp))).index
    have hpos := (h.sound.bounds htag).1
    rw [hl, if_neg (by omega)]
    change (load s ((view s).split.prev x) .index >>= _) = _
    rw [hl, load_eq hshows hscope htag, ok_bind]
    change (if 2 ^ 31 ≤ (view s).index l then _ else _) = _
    rw [hindex, if_pos (by decide)]
    rfl

/-- Two neighbours have become one, and the rest of the tags is as before. -/
theorem moved_merge {w x' y' : Nat} (h : Held (view s) L b xs w ys) (ho : Owns s L)
    (hlist : L.lists i = as ++ y :: bs) {as' bs' : List Nat} (htiles : L.tiles b = as' ++ x' :: y' :: bs')
    (hpair : (x' = y ∧ y' = w) ∨ (x' = w ∧ y' = y))
    (hshows : Shows {z | Tag L z} s s' (((view s).removeTag y).merge x' y')) :
    Moved s L w s' ((L.setList i (as ++ bs)).setTiles b (as' ++ x' :: bs')) x' where
  owns := by
    refine ho.congr hshows.owned (fun c => ?_) rfl
    exact setTiles_nil_iff (L := L) (by rw [htiles]; simp) (by simp) c
  used z := by
    have hmerged : Tag (L.setTiles b (as' ++ x' :: bs')) z ↔ Tag L z ∧ z ≠ y' :=
      merged_used h.sound htiles
    have htag : Tag ((L.setList i (as ++ bs)).setTiles b (as' ++ x' :: bs')) z ↔ Tag L z ∧ z ≠ y' :=
      hmerged
    have hy : y ∈ L.lists i := by
      rw [hlist]
      simp
    have hw : w ≠ y := by
      rintro rfl
      exact h.loose ⟨i, hy⟩
    have hl : z ≠ y → (Listed ((L.setList i (as ++ bs)).setTiles b (as' ++ x' :: bs')) z ↔
        Listed L z) := listed_of_ne hlist
    constructor
    · rintro ⟨⟨hz, hlz⟩, hzx⟩
      obtain ⟨hz, hzy⟩ := htag.mp hz
      rcases hpair with ⟨rfl, rfl⟩ | ⟨rfl, rfl⟩
      · exact ⟨⟨hz, fun hcontra => hlz ((hl hzx).mpr hcontra)⟩, hzy⟩
      · exact ⟨⟨hz, fun hcontra => hlz ((hl hzy).mpr hcontra)⟩, hzx⟩
    · rintro ⟨⟨hz, hlz⟩, hzw⟩
      have hzy : z ≠ y := by
        rintro rfl
        exact hlz ⟨i, hy⟩
      rcases hpair with ⟨rfl, rfl⟩ | ⟨rfl, rfl⟩
      · exact ⟨⟨htag.mpr ⟨hz, hzw⟩, fun hcontra => hlz ((hl hzy).mp hcontra)⟩, hzy⟩
      · exact ⟨⟨htag.mpr ⟨hz, hzy⟩, fun hcontra => hlz ((hl hzy).mp hcontra)⟩, hzw⟩
  kept z hz hzx := shows_kept hshows h.sound hz.1 rfl (h.room z hz hzx)
  initialized := hshows.initialized
  locked := hshows.locked

theorem meltLoop_eq (h : Held (view s) L b xs x ys) (ho : Owns s L) (fuel : Nat) :
    ∃ x' s' L' xs', meltLoop s (fuel + 2) x = .ok (x', s') ∧ Held (view s') L' b xs' x' ys ∧
      (∀ z ∈ xs'.getLast?, ¬Listed L' z) ∧ Moved s L x s' L' x' := by
  by_cases hleft : ∀ z ∈ xs.getLast?, ¬Listed L z
  · exact ⟨x, s, L, xs, meltLoop_stop h ho hleft (fuel + 1), h, hleft, Moved.refl ho x⟩
  rcases List.eq_nil_or_concat' xs with rfl | ⟨zs, l, rfl⟩
  · exact absurd (by simp) hleft
  have hl : Listed L l := by
    by_contra hl
    refine hleft fun z hz => ?_
    obtain rfl : l = z := by simpa using hz
    exact hl
  obtain ⟨i, hi⟩ := hl
  obtain ⟨as, bs, hlist⟩ := List.append_of_mem hi
  obtain ⟨htag, hindex, -⟩ := h.sound.listed i l hi
  have hilt := h.sound.listed_lt hi
  have htiles : L.tiles b = zs ++ l :: x :: ys := by
    rw [h.tiles]
    simp
  have hscope := scope_of_sound h.sound ho
  have hshows := Shows.refl {x | Tag L x} s
  have hmemx : x ∈ L.tiles b := by
    rw [h.tiles]
    simp
  have hprev : (view s).split.prev x = l := by
    rw [split_prev h.sound h.tiles]
    simp
  have hlx : l ≠ x := by
    rintro rfl
    exact h.loose ⟨i, hi⟩
  have hlpos := (h.sound.bounds htag).1
  obtain ⟨⟨l', s₁⟩, hmelt, hl', h₁⟩ := meltLeft_shows hshows hscope h.tag (by rwa [hprev])
    (by rwa [hprev]) (by omega) (split_pointers h.sound hmemx).1
    (by rw [hprev]; exact sum_lt h.sound htiles)
  rw [hprev] at hl' h₁
  obtain rfl : l' = l := hl'
  obtain ⟨hnext, hback⟩ := free_pointers h.sound hi
  obtain ⟨s₂, hremove, h₂⟩ := removeTag_shows h₁ hscope htag
    (show (view s).index l' < MAXEXP by rwa [hindex]) hnext hback
  have h₂ : Shows {x | Tag L x} s s₂ (((view s).removeTag l').merge l' x) := h₂
  have hheld := h.melt hlist
  have hsub : ∀ z, Tag (L.setTiles b (zs ++ l' :: ys)) z → Tag L z := fun z hz =>
    merged_tags h.sound htiles hz
  have hheld₂ : Held (view s₂) ((L.setList i (as ++ bs)).setTiles b (zs ++ l' :: ys)) b zs l' ys :=
    shows_held h₂ hsub hheld
  have hmoved : Moved s L x s₂ ((L.setList i (as ++ bs)).setTiles b (zs ++ l' :: ys)) l' :=
    moved_merge h ho hlist htiles (Or.inl ⟨rfl, rfl⟩) h₂
  have hneighbours := h.coalesced.neighbours htiles ⟨i, hi⟩
  have hstop : ∀ z ∈ zs.getLast?,
      ¬Listed ((L.setList i (as ++ bs)).setTiles b (zs ++ l' :: ys)) z := fun z hz hlz =>
    hneighbours.1 z hz (listed_setList hlist z hlz)
  refine ⟨l', s₂, _, zs, ?_, hheld₂, hstop, hmoved⟩
  have hrest := meltLoop_stop hheld₂ hmoved.owns hstop fuel
  rw [meltLoop, load_eq hshows hscope h.tag, ok_bind]
  change (if (view s).split.prev x = 0 then _ else (load s ((view s).split.prev x) .index >>= _)) = _
  rw [hprev, if_neg (by omega), load_eq hshows hscope htag, ok_bind]
  change (if 2 ^ 31 ≤ (view s).index l' then _ else (meltLeft s x >>= _)) = _
  rw [hindex, if_neg (by rw [MAXEXP] at hilt; omega), hmelt, ok_bind]
  change (removeTag s₁ l' >>= _) = _
  rw [hremove]
  exact hrest

/-! The second loop. -/

theorem absorbLoop_stop (h : Held (view s) L b xs x ys) (ho : Owns s L)
    (hright : ∀ z ∈ ys.head?, ¬Listed L z) (fuel : Nat) :
    absorbLoop s x (fuel + 1) = .ok s := by
  have hscope := scope_of_sound h.sound ho
  have hshows := Shows.refl {x | Tag L x} s
  have hnext := split_next h.sound h.tiles
  rw [absorbLoop, load_eq hshows hscope h.tag, ok_bind]
  change (if (view s).split.next x = 0 then _ else (load s ((view s).split.next x) .index >>= _)) = _
  cases ys with
  | nil =>
      have hnull : (view s).split.next x = 0 := hnext
      rw [if_pos hnull]
      rfl
  | cons r ys =>
      have hr : (view s).split.next x = r := hnext
      have htag : Tag L r := by
        refine ⟨b, ?_⟩
        rw [h.tiles]
        simp
      have hindex := (h.sound.loose r htag (hright r (by simp))).index
      have hpos := (h.sound.bounds htag).1
      rw [hr, if_neg (by omega), load_eq hshows hscope htag, ok_bind]
      change (if 2 ^ 31 ≤ (view s).index r then _ else _) = _
      rw [hindex, if_pos (by decide)]
      rfl

theorem absorbLoop_eq (h : Held (view s) L b xs x ys) (ho : Owns s L) (fuel : Nat)
    (hleft : ∀ z ∈ xs.getLast?, ¬Listed L z) :
    ∃ s' L' ys', absorbLoop s x (fuel + 2) = .ok s' ∧ Held (view s') L' b xs x ys' ∧
      (∀ z ∈ xs.getLast?, ¬Listed L' z) ∧ (∀ z ∈ ys'.head?, ¬Listed L' z) ∧
        Moved s L x s' L' x := by
  by_cases hright : ∀ z ∈ ys.head?, ¬Listed L z
  · exact ⟨s, L, ys, absorbLoop_stop h ho hright (fuel + 1), h, hleft, hright, Moved.refl ho x⟩
  cases ys with
  | nil => exact absurd (by simp) hright
  | cons r ys =>
      have hr : Listed L r := by
        by_contra hr
        refine hright fun z hz => ?_
        obtain rfl : r = z := by simpa using hz
        exact hr
      obtain ⟨i, hi⟩ := hr
      obtain ⟨as, bs, hlist⟩ := List.append_of_mem hi
      obtain ⟨htag, hindex, -⟩ := h.sound.listed i r hi
      have hilt := h.sound.listed_lt hi
      have htiles' : L.tiles b = xs ++ [x] ++ r :: ys := by
        rw [h.tiles]
        simp
      have hscope := scope_of_sound h.sound ho
      have hshows := Shows.refl {x | Tag L x} s
      have hmemr : r ∈ L.tiles b := by
        rw [h.tiles]
        simp
      have hnext : (view s).split.next x = r := split_next h.sound h.tiles
      have hback : (view s).split.prev r = x := by
        rw [split_prev h.sound htiles']
        simp
      have hrx : r ≠ x := by
        rintro rfl
        exact h.loose ⟨i, hi⟩
      have hxpos := (h.sound.bounds h.tag).1
      have hrpos := (h.sound.bounds htag).1
      obtain ⟨s₁, habsorb, h₁⟩ := absorbRight_shows hshows hscope h.tag (by rwa [hnext])
        (by rwa [hnext]) (by omega) (by rw [hnext]; exact hback)
        (by rw [hnext]; exact (split_pointers h.sound hmemr).1) (by rwa [hnext, hindex])
        (by rw [hnext]; exact free_pointers h.sound hi)
        (by rw [hnext]; exact sum_lt h.sound h.tiles)
      rw [hnext] at h₁
      have hsub : ∀ z, Tag (L.setTiles b (xs ++ x :: ys)) z → Tag L z := fun z hz =>
        merged_tags h.sound h.tiles hz
      have hheld : Held (view s₁) ((L.setList i (as ++ bs)).setTiles b (xs ++ x :: ys)) b xs x ys :=
        shows_held h₁ hsub (h.absorb hlist)
      have hmoved : Moved s L x s₁ ((L.setList i (as ++ bs)).setTiles b (xs ++ x :: ys)) x :=
        moved_merge h ho hlist h.tiles (Or.inr ⟨rfl, rfl⟩) h₁
      have hneighbours := h.coalesced.neighbours htiles' ⟨i, hi⟩
      have hstop : ∀ z ∈ ys.head?,
          ¬Listed ((L.setList i (as ++ bs)).setTiles b (xs ++ x :: ys)) z := fun z hz hlz =>
        hneighbours.2 z hz (listed_setList hlist z hlz)
      refine ⟨s₁, _, ys, ?_, hheld, fun z hz hlz => hleft z hz (listed_setList hlist z hlz), hstop,
        hmoved⟩
      have hrest := absorbLoop_stop hheld hmoved.owns hstop fuel
      rw [absorbLoop, load_eq hshows hscope h.tag, ok_bind]
      change (if (view s).split.next x = 0 then _
        else (load s ((view s).split.next x) .index >>= _)) = _
      rw [hnext, if_neg (by omega), load_eq hshows hscope htag, ok_bind]
      change (if 2 ^ 31 ≤ (view s).index r then _ else (absorbRight s x >>= _)) = _
      rw [hindex, if_neg (by rw [MAXEXP] at hilt; omega), habsorb]
      exact hrest

/-! The end of the call. -/

/-- The block behind `x` is free afterwards. -/
structure Freed (s : Arena) (L : Layout) (x : Nat) (s' : Arena) (L' : Layout) : Prop where
  used : ∀ z, Used L' z ↔ Used L z ∧ z ≠ x
  kept : ∀ z, Used L z → z ≠ x → Kept s s' z

theorem pagesFor_region {n : Nat} (hn : PAGE_COUNT ≤ n) : pagesFor (n * PAGE_SIZE) = n := by
  have hdiv : n * PAGE_SIZE / PAGE_SIZE = n := Nat.mul_div_cancel n (by decide)
  have hmod : n * PAGE_SIZE % PAGE_SIZE = 0 := Nat.mul_mod_left n PAGE_SIZE
  rw [pagesFor]
  simp only [hdiv, hmod, ne_eq, not_true_eq_false, if_false, if_neg (Nat.not_lt.mpr hn)]

/-- A region with one tag. -/
theorem whole_region (h : Held v L b [] x []) : x = b ∧ v.realSize x = L.pages b * PAGE_SIZE := by
  have htiling := (h.sound.tag_area (x := x) (b := b) (by rw [h.tiles]; simp)).tiling
  rw [h.tiles] at htiling
  obtain ⟨hx, -, hstop⟩ := htiling
  have hstop : x + v.realSize x = L.stop b := hstop
  rw [Layout.stop] at hstop
  exact ⟨hx, by omega⟩

/-- The pages of a region are those which have come from the kernel. -/
theorem liballocFree_eq (h : Held (view s) L b [] x []) (ho : Owns s L) :
    ∃ s', liballocFree s x (L.pages b) = .ok s' ∧ Tidy (view s') (L.setTiles b []) ∧
      Owns s' (L.setTiles b []) ∧ s'.memory = s.memory ∧ s'.initialized = s.initialized ∧
        s'.locked = s.locked := by
  obtain ⟨rfl, -⟩ := whole_region h
  have hne : L.tiles x ≠ [] := by
    rw [h.tiles]
    simp
  have harea := h.sound.area x hne
  have haligned := harea.aligned
  have hpage : x / PAGE_SIZE * PAGE_SIZE = x := Nat.div_mul_cancel (Nat.dvd_of_mod_eq_zero haligned)
  have hin : ∀ pg, x ≤ pg * PAGE_SIZE ∧ pg * PAGE_SIZE < L.stop x ↔
      x / PAGE_SIZE ≤ pg ∧ pg < x / PAGE_SIZE + L.pages x := by
    intro pg
    rw [Layout.stop]
    simp only [PAGE_SIZE] at *
    omega
  have howned : ∀ i < L.pages x, s.owned (x / PAGE_SIZE + i) = true := by
    intro i hi
    refine (ho _).mpr ⟨x, hne, (hin _).mpr ⟨?_, ?_⟩⟩ <;> omega
  refine ⟨s.setOwned (x / PAGE_SIZE) (L.pages x) false, ?_, ?_, fun pg => ?_, rfl, rfl, rfl⟩
  · rw [liballocFree, if_pos ⟨haligned, howned⟩]
  · exact h.drop
  · change (if x / PAGE_SIZE ≤ pg ∧ pg < x / PAGE_SIZE + L.pages x then false else s.owned pg) =
      true ↔ _
    constructor
    · intro hpg
      split_ifs at hpg with hcase
      obtain ⟨c, hc, hle, hlt⟩ := (ho pg).mp hpg
      have hcx : c ≠ x := by
        rintro rfl
        exact hcase ((hin pg).mp ⟨hle, hlt⟩)
      refine ⟨c, ?_, hle, hlt⟩
      rwa [setTiles_of_ne hcx]
    · rintro ⟨c, hc, hle, hlt⟩
      have hcx : c ≠ x := by
        rintro rfl
        rw [setTiles_self] at hc
        exact hc rfl
      rw [setTiles_of_ne hcx] at hc
      have hpg := (ho pg).mpr ⟨c, hc, hle, hlt⟩
      rw [if_neg]
      · exact hpg
      intro hcase
      obtain ⟨hle', hlt'⟩ := (hin pg).mpr hcase
      have hle' : x ≤ pg * PAGE_SIZE := hle'
      have hlt : pg * PAGE_SIZE < L.stop c := hlt
      rcases Nat.lt_or_gt_of_ne hcx with hcx | hcx
      · have hdisjoint := h.sound.disjoint c x hc hne hcx
        omega
      · have hdisjoint := h.sound.disjoint x c hne hc hcx
        omega

theorem releaseTag_eq (h : Held (view s) L b xs x ys) (ho : Owns s L)
    (hleft : ∀ z ∈ xs.getLast?, ¬Listed L z) (hright : ∀ z ∈ ys.head?, ¬Listed L z) :
    ∃ s' L', releaseTag s x = .ok s' ∧ Tidy (view s') L' ∧ Owns s' L' ∧ Freed s L x s' L' ∧
      s'.initialized = s.initialized ∧ s'.locked = s.locked := by
  have hscope := scope_of_sound h.sound ho
  have hshows := Shows.refl {x | Tag L x} s
  have hlt : (view s).realSize x < 2 ^ 32 := hshows.field_lt h.tag .realSize
  have hge := h.sound.realSize_ge h.tag
  obtain ⟨i, hi⟩ : ∃ i, i = listIndex ((view s).realSize x - TAG_SIZE) := ⟨_, rfl⟩
  have hilt : i < MAXEXP := by
    rw [hi]
    exact (listIndex_bounds _).2
  obtain ⟨call, hcall⟩ : ∃ call, call = releaseTag s x := ⟨_, rfl⟩
  rw [← hcall]
  rw [releaseTag, load_eq hshows hscope h.tag, ok_bind] at hcall
  have hsub : sub32 ((view s).field x .realSize) TAG_SIZE = (view s).realSize x - TAG_SIZE :=
    sub32_eq hlt hge
  rw [hsub, ← hi, whole_eq hshows hscope h.tag, ok_bind] at hcall
  -- The tag enters its list.
  have hgive : ∀ s', Shows {x | Tag L x} s s' (give (view s) x i) →
      (isWhole (view s) x = true → (view s).completePages i ≠ MAXCOMPLETE) →
        Tidy (view s') (L.setList i (x :: L.lists i)) ∧
          Owns s' (L.setList i (x :: L.lists i)) ∧
            Freed s L x s' (L.setList i (x :: L.lists i)) ∧
              s'.initialized = s.initialized ∧ s'.locked = s.locked := by
    intro s' hs' hcomplete
    have htidy := h.enlist hi hleft hright hcomplete
    refine ⟨shows_tidy hs' (fun z hz => hz) htidy, ho.congr hs'.owned (fun _ => Iff.rfl) rfl,
      ⟨fun z => ?_, fun z hz hzx => ?_⟩, hs'.initialized, hs'.locked⟩
    · rw [Used, Used, listed_setList_cons, not_or]
      exact ⟨fun hz => ⟨⟨hz.1, hz.2.2⟩, hz.2.1⟩, fun hz => ⟨hz.1.1, hz.2, hz.1.2⟩⟩
    · refine shows_kept hs' h.sound hz.1 ?_ (h.room z hz hzx)
      exact give_field (view s) x i z .size
  by_cases hwhole : isWhole (view s) x = true
  · rw [if_pos hwhole, completePage_eq hshows hilt, ok_bind] at hcall
    by_cases hfull : (view s).completePages i = MAXCOMPLETE
    · obtain ⟨rfl, rfl⟩ := (isWhole_eq_iff h.sound h.tiles).mp hwhole
      obtain ⟨hxb, hsize⟩ := whole_region h
      have hpages := (h.sound.tag_area (x := x) (b := b) (by rw [h.tiles]; simp)).pages_ge
      have hpagesFor : pagesFor ((view s).field x .realSize) = L.pages b := by
        rw [View.field, hsize, pagesFor_region hpages]
      obtain ⟨s', hfree, htidy, howns, hmemory, hinit, hlocked⟩ := liballocFree_eq h ho
      rw [if_pos hfull, hpagesFor, hfree] at hcall
      have hview : ∀ z, (view s').size z = (view s).size z := by
        intro z
        change WordRecords.get _ s'.memory _ _ = _
        rw [hmemory]
        rfl
      refine ⟨s', _, hcall, htidy, howns, ⟨fun z => ?_, fun z hz hzx => ?_⟩, hinit, hlocked⟩
      · rw [Used, Used, h.sound.tag_setTiles, h.tiles]
        have hlisted : Listed (L.setTiles b []) z ↔ Listed L z := Iff.rfl
        simp only [List.not_mem_nil, false_or, List.nil_append, List.mem_singleton, hlisted]
        exact and_right_comm
      · exact ⟨hview z, fun i _ => by rw [hmemory]⟩
    · rw [if_neg hfull] at hcall
      obtain ⟨s₁, hset, h₁⟩ := setCompletePage_shows hshows hilt ((view s).completePages i + 1)
      obtain ⟨s₂, hinsert, h₂⟩ := insertTag_some_shows h₁ hscope h.tag hilt
        (head_pointer h.sound i)
      rw [hset, ok_bind, hinsert] at hcall
      refine ⟨s₂, _, hcall, hgive s₂ ?_ fun _ => hfull⟩
      rw [give, if_pos hwhole]
      exact h₂
  · obtain ⟨s₁, hinsert, h₁⟩ := insertTag_some_shows hshows hscope h.tag hilt
      (head_pointer h.sound i)
    rw [if_neg hwhole, hinsert] at hcall
    refine ⟨s₁, _, hcall, hgive s₁ ?_ fun hcontra => absurd hcontra hwhole⟩
    rw [give, if_neg hwhole]
    exact h₁

theorem sub32_tag (hx : x < 2 ^ 32) : sub32 (x + TAG_SIZE) TAG_SIZE = x := by
  rw [sub32, TAG_SIZE]
  omega

theorem liballocFreeR_eq (h : Valid s L) (hx : Used L x) :
    ∃ s' L', liballocFreeR s (x + TAG_SIZE) = .ok s' ∧ Valid s' L' ∧ Freed s L x s' L' := by
  obtain ⟨s₀, hs₀⟩ : ∃ s₀, s₀ = { s with locked := true } := ⟨_, rfl⟩
  have hview : view s₀ = view s := by
    rw [hs₀]
    rfl
  have hmemory : s₀.memory = s.memory := by
    rw [hs₀]
  have htidy : Tidy (view s₀) L := by
    rw [hview]
    exact h.tidy
  have howns : Owns s₀ L := h.owns.congr (by rw [hs₀]) (fun _ => Iff.rfl) rfl
  have hlock : liballocLock s = .ok s₀ := by
    rw [liballocLock, h.unlocked, hs₀]
    rfl
  obtain ⟨b, xs, ys, hheld⟩ := htidy.hold hx
  have hscope := scope_of_sound htidy.sound howns
  have hxlt := hscope.lt x hx.1
  obtain ⟨x₁, s₁, L₁, xs₁, hmelt, hheld₁, hleft₁, hmoved₁⟩ :=
    meltLoop_eq hheld howns (MAX_TAGS - 1)
  obtain ⟨s₂, L₂, ys₂, habsorb, hheld₂, hleft₂, hright₂, hmoved₂⟩ :=
    absorbLoop_eq hheld₁ hmoved₁.owns (MAX_TAGS - 1) hleft₁
  obtain ⟨s₃, L₃, hrelease, htidy₃, howns₃, hfreed, hinit, hlocked⟩ :=
    releaseTag_eq hheld₂ hmoved₂.owns hleft₂ hright₂
  have hmoved := hmoved₁.trans hmoved₂
  obtain ⟨call, hcall⟩ : ∃ call, call = liballocFreeR s (x + TAG_SIZE) := ⟨_, rfl⟩
  rw [← hcall]
  rw [liballocFreeR, if_neg (by rw [TAG_SIZE]; omega), hlock, ok_bind, sub32_tag hxlt]
    at hcall
  dsimp only at hcall
  rw [load_eq (Shows.refl _ s₀) hscope hx.1, ok_bind] at hcall
  have hmagic : (view s₀).field x .magic = LIBALLOC_MAGIC := htidy.sound.magic x hx.1
  have hfuel : MAX_TAGS + 1 = MAX_TAGS - 1 + 2 := rfl
  rw [hmagic, if_neg (by simp), hfuel, hmelt, ok_bind] at hcall
  dsimp only at hcall
  rw [habsorb, ok_bind, hrelease, ok_bind] at hcall
  refine ⟨liballocUnlock s₃, L₃, hcall, ⟨htidy₃, ?_, ?_, rfl⟩, fun z => ?_, fun z hz hzx => ?_⟩
  · exact howns₃.congr rfl (fun _ => Iff.rfl) rfl
  · left
    have hready : s.initialized = true := by
      rcases h.ready with hready | hnil
      · exact hready
      · obtain ⟨⟨c, hc⟩, -⟩ := hx
        rw [hnil c] at hc
        cases hc
    change s₃.initialized = true
    rw [hinit, hmoved.initialized, hs₀]
    exact hready
  · rw [hfreed.used, hmoved.used]
  · obtain ⟨hz₂, hzx₂⟩ := (hmoved.used z).mpr ⟨hz, hzx⟩
    have hall := (hmoved.kept z hz hzx).trans (hfreed.kept z hz₂ hzx₂)
    refine ⟨?_, fun i hi => ?_⟩
    · rw [← hview]
      exact hall.size
    · rw [← hmemory]
      exact hall.bytes i (by rwa [hview])

end

end Ibnos.LiballocFrees
