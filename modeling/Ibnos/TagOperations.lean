import Ibnos.TagLayout
import Mathlib.Data.List.Chain
import Mathlib.Algebra.Order.Group.Nat

/-!
The invariant of the allocator: no two free neighbours, at most a few whole regions in
every list, and their number is known. While a call works on a tag, it is in no list.
-/

namespace Ibnos.TagOperations

open Ibnos.BoundaryTags
open Ibnos.Chains
open Ibnos.Liballoc
open Ibnos.LinkedLists
open Ibnos.TagLayout

/-- No two neighbours are both free. -/
def Coalesced (L : Layout) : Prop :=
  ∀ b, (L.tiles b).IsChain fun x y => ¬(Listed L x ∧ Listed L y)

/-- The tag has no neighbours. -/
def isWhole (v : View) (x : Nat) : Bool := v.split.prev x = 0 ∧ v.split.next x = 0

def Counted (v : View) (L : Layout) : Prop :=
  ∀ i, v.completePages i = ((L.lists i).countP (isWhole v) : Int)

/-- A tag in front of a block which the program holds. -/
def Used (L : Layout) (x : Nat) : Prop := Tag L x ∧ ¬Listed L x

/-- Everything except for the room in front of `x`, which a call works on. -/
structure Held (v : View) (L : Layout) (b : Nat) (xs : List Nat) (x : Nat) (ys : List Nat) :
    Prop where
  sound : Sound v L
  tiles : L.tiles b = xs ++ x :: ys
  loose : ¬Listed L x
  coalesced : Coalesced L
  counted : Counted v L
  bounded : ∀ i, v.completePages i ≤ MAXCOMPLETE
  room : ∀ z, Used L z → z ≠ x → TAG_SIZE + v.size z ≤ v.realSize z

/-- The invariant between two calls. -/
structure Tidy (v : View) (L : Layout) : Prop where
  sound : Sound v L
  coalesced : Coalesced L
  counted : Counted v L
  bounded : ∀ i, v.completePages i ≤ MAXCOMPLETE
  room : ∀ z, Used L z → TAG_SIZE + v.size z ≤ v.realSize z

section

variable {v v' : View} {L : Layout} {b i x y z l r : Nat} {xs ys as bs : List Nat}

theorem Held.tag (h : Held v L b xs x ys) : Tag L x := by
  refine ⟨b, ?_⟩
  rw [h.tiles]
  simp

theorem Held.used (h : Held v L b xs x ys) : Used L x := ⟨h.tag, h.loose⟩

/-- A call starts to work on a block. -/
theorem Tidy.hold (h : Tidy v L) (hx : Used L x) : ∃ b xs ys, Held v L b xs x ys := by
  obtain ⟨⟨b, hb⟩, hl⟩ := hx
  obtain ⟨xs, ys, htiles⟩ := List.append_of_mem hb
  exact ⟨b, xs, ys, h.sound, htiles, hl, h.coalesced, h.counted, h.bounded,
    fun z hz _ => h.room z hz⟩

theorem Held.tidy (h : Held v L b xs x ys) (hroom : TAG_SIZE + v.size x ≤ v.realSize x) :
    Tidy v L where
  sound := h.sound
  coalesced := h.coalesced
  counted := h.counted
  bounded := h.bounded
  room z hz := by
    rcases eq_or_ne z x with rfl | hzx
    · exact hroom
    · exact h.room z hz hzx

/-- The neighbours of a free tag are not free. -/
theorem Coalesced.neighbours (h : Coalesced L) (htiles : L.tiles b = xs ++ x :: ys)
    (hx : Listed L x) :
    (∀ z ∈ xs.getLast?, ¬Listed L z) ∧ ∀ z ∈ ys.head?, ¬Listed L z := by
  have hchain := h b
  rw [htiles] at hchain
  obtain ⟨-, hright, hleft⟩ := List.isChain_append.mp hchain
  refine ⟨fun z hz hl => ?_, fun z hz hl => ?_⟩
  · exact hleft z hz x (by simp) ⟨hl, hx⟩
  · cases ys with
    | nil => cases hz
    | cons y ys =>
        obtain rfl : y = z := by simpa using hz
        exact (List.isChain_cons_cons.mp hright).1 ⟨hx, hl⟩

theorem Coalesced.mono {L' : Layout} (h : Coalesced L) (htiles : L'.tiles = L.tiles)
    (hlisted : ∀ z, Listed L' z → Listed L z) : Coalesced L' := by
  intro b
  rw [htiles]
  exact (h b).imp fun x y hxy hl => hxy ⟨hlisted x hl.1, hlisted y hl.2⟩

/-- One region changes. -/
theorem Coalesced.setTiles (h : Coalesced L) {zs : List Nat}
    (hzs : zs.IsChain fun x y => ¬(Listed L x ∧ Listed L y)) : Coalesced (L.setTiles b zs) := by
  intro c
  rcases eq_or_ne c b with rfl | hcb
  · rw [setTiles_self]
    exact hzs
  · rw [setTiles_of_ne hcb]
    exact h c

/-- An element without the property may stand between any two others. -/
theorem isChain_middle {R : Nat → Nat → Prop} (hxs : xs.IsChain R) (hys : ys.IsChain R)
    (hleft : ∀ z, R z x) (hright : ∀ z, R x z) : (xs ++ x :: ys).IsChain R := by
  refine List.isChain_append.mpr ⟨hxs, ?_, ?_⟩
  · cases ys with
    | nil => exact List.isChain_singleton x
    | cons y ys => exact List.isChain_cons_cons.mpr ⟨hright y, hys⟩
  · intro z _ w hw
    obtain rfl : x = w := by simpa using hw
    exact hleft z

theorem counted_congr (h : Counted v L) (hcount : v'.completePages = v.completePages)
    (hwhole : ∀ i, ∀ z ∈ L.lists i, isWhole v' z = isWhole v z) : Counted v' L := by
  intro i
  rw [hcount, h i]
  congr 1
  refine List.countP_congr fun z hz => ?_
  rw [hwhole i z hz]

theorem isWhole_eq_iff (h : Sound v L) (htiles : L.tiles b = xs ++ x :: ys) :
    isWhole v x = true ↔ xs = [] ∧ ys = [] := by
  have hchain := (h.tag_area (x := x) (b := b) (by rw [htiles]; simp)).chain
  rw [htiles] at hchain
  have hnull := hchain.null_not_mem
  simp only [List.mem_append, List.mem_cons, not_or] at hnull
  rw [isWhole, decide_eq_true_eq, hchain.prev_eq, hchain.next_eq, getLastD_eq_null_iff hnull.1,
    headD_eq_null_iff hnull.2.2]

theorem isWhole_congr (hnext : v'.split.next z = 0 ↔ v.split.next z = 0)
    (hprev : v'.split.prev z = 0 ↔ v.split.prev z = 0) : isWhole v' z = isWhole v z := by
  simp only [isWhole, hnext, hprev]

theorem countP_middle (p : Nat → Bool) : (as ++ x :: bs).countP p =
    (as ++ bs).countP p + if p x then 1 else 0 := by
  rw [List.countP_append, List.countP_append, List.countP_cons]
  omega

theorem listed_of_ne (hlist : L.lists i = as ++ x :: bs) (hzx : z ≠ x) :
    Listed (L.setList i (as ++ bs)) z ↔ Listed L z := by
  refine ⟨listed_setList hlist z, ?_⟩
  rintro ⟨j, hj⟩
  refine ⟨j, ?_⟩
  rcases eq_or_ne j i with rfl | hji
  · rw [setList_self]
    rw [hlist] at hj
    exact (List.mem_cons.mp (List.perm_middle.mem_iff.mp hj)).resolve_left hzx
  · rwa [setList_of_ne hji]

theorem not_listed_unlist (h : Sound v L) (hlist : L.lists i = as ++ x :: bs) :
    ¬Listed (L.setList i (as ++ bs)) x := by
  have hx : x ∈ L.lists i := by
    rw [hlist]
    simp
  have hnodup := (h.list i).nodup_tail
  rw [hlist] at hnodup
  rintro ⟨j, hj⟩
  rcases eq_or_ne j i with rfl | hji
  · rw [setList_self] at hj
    exact (List.nodup_cons.mp (List.nodup_middle.mp hnodup)).1 hj
  · rw [setList_of_ne hji] at hj
    exact hji (h.list_unique hj hx)

/-- How many whole regions are in the lists if `x` leaves the list `i`. -/
theorem counted_unlist (h : Counted v L) (hlist : L.lists i = as ++ x :: bs)
    (hcount : ∀ j, v'.completePages j =
      v.completePages j - if j = i ∧ isWhole v x = true then 1 else 0)
    (hsplit : v'.split = v.split) : Counted v' (L.setList i (as ++ bs)) := by
  have hwhole : isWhole v' = isWhole v := by
    funext z
    rw [isWhole, isWhole, hsplit]
  intro j
  rw [hcount, h j, hwhole]
  rcases eq_or_ne j i with rfl | hji
  · rw [setList_self, hlist, countP_middle]
    by_cases hx : isWhole v x = true <;> simp [hx]
  · rw [setList_of_ne hji]
    simp [hji]

/-- The view after a tag was taken from its list. -/
def take (v : View) (x i : Nat) : View :=
  if isWhole v x then (v.removeTag x).setCompletePage i (v.completePages i - 1) else v.removeTag x

theorem take_completePages (v : View) (x i j : Nat) : (take v x i).completePages j =
    v.completePages j - if j = i ∧ isWhole v x = true then 1 else 0 := by
  by_cases hx : isWhole v x = true
  · rcases eq_or_ne j i with rfl | hji
    · simp [take, hx, View.setCompletePage]
    · simp [take, hx, hji, View.setCompletePage, View.removeTag]
  · simp [take, hx, View.removeTag]

theorem take_field (v : View) (x i y : Nat) (f : Field) :
    (take v x i).field y f = (v.removeTag x).field y f := by
  rw [take]
  split_ifs
  · cases f <;> rfl
  · rfl

theorem take_freePages (v : View) (x i : Nat) :
    (take v x i).freePages = (v.removeTag x).freePages := by
  rw [take]
  split_ifs <;> rfl

/-- A free tag is taken from its list. -/
theorem Tidy.take (h : Tidy v L) (hlist : L.lists i = as ++ x :: bs) :
    ∃ b xs ys, Held (take v x i) (L.setList i (as ++ bs)) b xs x ys ∧
      ∀ z ∈ ys.head?, ¬Listed (L.setList i (as ++ bs)) z := by
  have hx : x ∈ L.lists i := by
    rw [hlist]
    simp
  obtain ⟨⟨b, hb⟩, -⟩ := h.sound.listed i x hx
  obtain ⟨xs, ys, htiles⟩ := List.append_of_mem hb
  have hright := (h.coalesced.neighbours htiles ⟨i, hx⟩).2
  have hsound : Sound (TagOperations.take v x i) (L.setList i (as ++ bs)) :=
    (h.sound.unlist hlist).congr (fun y _ f => take_field v x i y f) (take_freePages v x i)
  have hsplit : (TagOperations.take v x i).split = v.split := by
    rw [TagOperations.take]
    split_ifs <;> rfl
  refine ⟨b, xs, ys, ⟨hsound, htiles, not_listed_unlist h.sound hlist,
    h.coalesced.mono rfl (listed_setList hlist),
    counted_unlist h.counted hlist (take_completePages v x i) hsplit, fun j => ?_,
    fun z hz hzx => ?_⟩, fun z hz hl => hright z hz (listed_setList hlist z hl)⟩
  · have hle := h.bounded j
    rw [take_completePages]
    split_ifs <;> omega
  · have hroom := h.room z ⟨hz.1, fun hl => hz.2 ((listed_of_ne hlist hzx).mpr hl)⟩
    have hfield : ∀ f, (TagOperations.take v x i).field z f = (v.removeTag x).field z f :=
      take_field v x i z
    exact (congrArg₂ (TAG_SIZE + · ≤ ·) (hfield .size) (hfield .realSize)).mpr hroom

/-- A neighbour of the held tag leaves its list. -/
theorem Held.unlist (h : Held v L b xs x ys) (hlist : L.lists i = as ++ y :: bs)
    (hy : isWhole v y = false) :
    Sound (v.removeTag y) (L.setList i (as ++ bs)) ∧ Coalesced (L.setList i (as ++ bs)) ∧
      Counted (v.removeTag y) (L.setList i (as ++ bs)) ∧
      ¬Listed (L.setList i (as ++ bs)) x ∧ ¬Listed (L.setList i (as ++ bs)) y ∧
      ∀ z, Used (L.setList i (as ++ bs)) z → z ≠ x → z ≠ y →
        TAG_SIZE + v.size z ≤ v.realSize z := by
  refine ⟨h.sound.unlist hlist, h.coalesced.mono rfl (listed_setList hlist),
    counted_unlist h.counted hlist (fun j => ?_) rfl, fun hl => h.loose (listed_setList hlist x hl),
    not_listed_unlist h.sound hlist, fun z hz hzx hzy => ?_⟩
  · simp [hy, View.removeTag]
  · exact h.room z ⟨hz.1, fun hl => hz.2 ((listed_of_ne hlist hzy).mpr hl)⟩ hzx

/-- Two neighbours which are in no list become one, which is held afterwards. -/
theorem held_merge (hsound : Sound v L) (htiles : L.tiles b = xs ++ x :: y :: ys)
    (hx : ¬Listed L x) (hy : ¬Listed L y) (hcoalesced : Coalesced L) (hcounted : Counted v L)
    (hbounded : ∀ i, v.completePages i ≤ MAXCOMPLETE)
    (hroom : ∀ z, Used L z → z ≠ x → z ≠ y → TAG_SIZE + v.size z ≤ v.realSize z) :
    Held (v.merge x y) (L.setTiles b (xs ++ x :: ys)) b xs x ys := by
  have hmem : ∀ z, z ∈ xs ++ x :: y :: ys → z ∈ L.tiles b := fun z hz => by rwa [htiles]
  have harea := hsound.tag_area (hmem x (by simp))
  have hchain := harea.chain
  have hnodup := hchain.nodup_tail
  rw [htiles] at hchain hnodup
  have hxpos := (hsound.bounds ⟨b, hmem x (by simp)⟩).1
  have hypos := (hsound.bounds ⟨b, hmem y (by simp)⟩).1
  have happend : xs ++ x :: y :: ys = xs ++ [x] ++ y :: ys := by simp
  have hprevy : v.split.prev y = x := by
    rw [happend] at hchain
    exact hchain.prev_eq.trans (by simp)
  refine ⟨hsound.merge htiles hx hy, setTiles_self L b _, hx, hcoalesced.setTiles ?_,
    counted_congr hcounted rfl fun j z hz => isWhole_congr ?_ ?_, hbounded, fun z hz hzx => ?_⟩
  · have hb := hcoalesced b
    rw [htiles] at hb
    obtain ⟨hleft, hrest, -⟩ := List.isChain_append.mp hb
    exact isChain_middle hleft (hrest.tail.tail) (fun z hl => hx hl.2) fun z hl => hx hl.1
  · have hzx : z ≠ x := by
      rintro rfl
      exact hx ⟨j, hz⟩
    change (cut 0 v.split y).next z = 0 ↔ _
    rw [cut_next, hprevy, if_neg fun hcontra => hzx hcontra.2]
  · change (cut 0 v.split y).prev z = 0 ↔ _
    rw [cut_prev, hprevy]
    split_ifs with hnext
    · -- The right neighbour has got another left neighbour.
      obtain ⟨hne, rfl⟩ := hnext
      have hys : v.split.next y = ys.headD 0 := by
        rw [happend] at hchain
        exact hchain.next_eq
      cases ys with
      | nil => exact absurd hys hne
      | cons r ys =>
          have hr : v.split.next y = r := hys
          have hback : v.split.prev r = y := by
            have happend' : xs ++ x :: y :: r :: ys = xs ++ [x, y] ++ r :: ys := by simp
            rw [happend'] at hchain
            exact hchain.prev_eq.trans (by simp)
          rw [hr, hback]
          omega
    · exact Iff.rfl
  · have hz' := hsound.tag_setTiles.mp hz.1
    have hzy : z ≠ y := by
      rintro rfl
      rcases hz' with hz' | ⟨-, hz'⟩
      · rw [happend] at hnodup
        have hnot := (List.nodup_cons.mp (List.nodup_middle.mp hnodup)).1
        refine hnot ?_
        simpa using hz'
      · exact hz' (hmem z (by simp))
    have htag : Tag L z := by
      rcases hz' with hz' | hz'
      · refine ⟨b, hmem z ?_⟩
        simp only [List.mem_append, List.mem_cons] at hz' ⊢
        tauto
      · exact hz'.1
    have hsize : (v.merge x y).realSize z = v.realSize z := Function.update_of_ne hzx ..
    rw [hsize]
    exact hroom z ⟨htag, hz.2⟩ hzx hzy

/-- The left neighbour is free: the held tag becomes part of it. -/
theorem Held.melt (h : Held v L b (xs ++ [l]) x ys) (hlist : L.lists i = as ++ l :: bs) :
    Held ((v.removeTag l).merge l x) ((L.setList i (as ++ bs)).setTiles b (xs ++ l :: ys))
      b xs l ys := by
  have htiles : L.tiles b = xs ++ l :: x :: ys := by
    rw [h.tiles]
    simp
  have hwhole : isWhole v l = false := by
    rw [← Bool.not_eq_true, isWhole_eq_iff h.sound htiles]
    simp
  obtain ⟨hsound, hcoalesced, hcounted, hx, hl, hroom⟩ := h.unlist hlist hwhole
  exact held_merge hsound htiles hl hx hcoalesced hcounted h.bounded
    fun z hz hzl hzx => hroom z hz hzx hzl

/-- The right neighbour is free: it becomes part of the held tag. -/
theorem Held.absorb (h : Held v L b xs x (r :: ys)) (hlist : L.lists i = as ++ r :: bs) :
    Held ((v.removeTag r).merge x r) ((L.setList i (as ++ bs)).setTiles b (xs ++ x :: ys))
      b xs x ys := by
  have hwhole : isWhole v r = false := by
    have htiles : L.tiles b = xs ++ [x] ++ r :: ys := by
      rw [h.tiles]
      simp
    rw [← Bool.not_eq_true, isWhole_eq_iff h.sound htiles]
    simp
  obtain ⟨hsound, hcoalesced, hcounted, hx, hr, hroom⟩ := h.unlist hlist hwhole
  exact held_merge hsound h.tiles hx hr hcoalesced hcounted h.bounded hroom

/-- What is behind the block of the held tag becomes a tag of its own. -/
theorem Held.divide (h : Held v L b xs x ys) (hy : y = x + TAG_SIZE + v.size x)
    (hroom : TAG_SIZE + v.size x + TAG_SIZE ≤ v.realSize x) :
    Held (v.divide x y) (L.setTiles b (xs ++ x :: y :: ys)) b (xs ++ [x]) y ys := by
  have hTAG : TAG_SIZE = 32 := rfl
  have hytag : ¬Tag L y := h.sound.not_tag h.tag (by omega) (by omega)
  have hylisted := h.sound.not_listed hytag
  have hpos := (h.sound.bounds h.tag).1
  have hchain := (h.sound.tag_area (x := x) (b := b) (by rw [h.tiles]; simp)).chain
  have hmem : x ∈ L.tiles b := by
    rw [h.tiles]
    simp
  have hnextx := (hchain.neighbours hmem).1
  have hyb : v.split.next x ≠ y := by
    rintro rfl
    rcases List.mem_cons.mp hnextx with hnull | hin
    · omega
    · exact hytag ⟨b, hin⟩
  refine ⟨h.sound.divide h.tiles h.loose (by omega) (by omega), ?_, hylisted,
    h.coalesced.setTiles ?_, counted_congr h.counted rfl fun j z hz => isWhole_congr ?_ ?_,
    h.bounded, fun z hz hzy => ?_⟩
  · rw [setTiles_self]
    simp
  · have hb := h.coalesced b
    rw [h.tiles] at hb
    obtain ⟨hleft, hrest, -⟩ := List.isChain_append.mp hb
    refine isChain_middle hleft ?_ (fun z hl => h.loose hl.2) fun z hl => h.loose hl.1
    have hright := isChain_middle List.isChain_nil hrest.tail (fun z hl => hylisted hl.2)
      fun z hl => hylisted hl.1
    exact hright
  · have hzx : z ≠ x := by
      rintro rfl
      exact h.loose ⟨j, hz⟩
    have hzy : z ≠ y := by
      rintro rfl
      exact hylisted ⟨j, hz⟩
    have hnext : (v.divide x y).split.next z = v.split.next z :=
      insertAfter_next.trans ((if_neg hzx).trans (if_neg hzy))
    rw [hnext]
  · have hzy : z ≠ y := by
      rintro rfl
      exact hylisted ⟨j, hz⟩
    change (insertAfter 0 v.split x y).prev z = 0 ↔ _
    rw [insertAfter_prev hyb, if_neg hzy]
    split_ifs with hnext
    · -- The right neighbour has got another left neighbour.
      obtain ⟨hne, rfl⟩ := hnext
      rw [h.tiles] at hchain
      cases ys with
      | nil => exact absurd hchain.next_eq hne
      | cons r ys =>
          have hr : v.split.next x = r := hchain.next_eq
          have happend : xs ++ x :: r :: ys = xs ++ [x] ++ r :: ys := by simp
          have hback : v.split.prev r = x := by
            rw [happend] at hchain
            exact hchain.prev_eq.trans (by simp)
          rw [hr, hback]
          omega
    · exact Iff.rfl
  · rcases eq_or_ne z x with rfl | hzx
    · have hsize : (v.divide z y).realSize z = y - z := Function.update_self ..
      change TAG_SIZE + v.size z ≤ _
      rw [hsize]
      omega
    · have hsize : (v.divide x y).realSize z = v.realSize z :=
        (Function.update_of_ne hzx ..).trans (Function.update_of_ne hzy ..)
      change TAG_SIZE + v.size z ≤ _
      rw [hsize]
      refine h.room z ⟨?_, hz.2⟩ hzx
      rcases h.sound.tag_setTiles.mp hz.1 with hz' | hz'
      · refine ⟨b, ?_⟩
        rw [h.tiles]
        simp only [List.mem_append, List.mem_cons] at hz' ⊢
        tauto
      · exact hz'.1

/-- The view after a held tag is put into its list. -/
def give (v : View) (x i : Nat) : View :=
  if isWhole v x then (v.setCompletePage i (v.completePages i + 1)).insertTag x i
  else v.insertTag x i

theorem give_completePages (v : View) (x i j : Nat) : (give v x i).completePages j =
    v.completePages j + if j = i ∧ isWhole v x = true then 1 else 0 := by
  by_cases hx : isWhole v x = true
  · rcases eq_or_ne j i with rfl | hji
    · simp [give, hx, View.setCompletePage, View.insertTag]
    · simp [give, hx, hji, View.setCompletePage, View.insertTag]
  · simp [give, hx, View.insertTag]

theorem give_field (v : View) (x i y : Nat) (f : Field) :
    (give v x i).field y f = (v.insertTag x i).field y f := by
  rw [give]
  split_ifs
  · cases f <;> rfl
  · rfl

theorem give_freePages (v : View) (x i : Nat) :
    (give v x i).freePages = (v.insertTag x i).freePages := by
  rw [give]
  split_ifs <;> rfl

theorem listed_setList_cons :
    Listed (L.setList i (x :: L.lists i)) z ↔ z = x ∨ Listed L z := by
  constructor
  · rintro ⟨j, hj⟩
    rcases eq_or_ne j i with rfl | hji
    · rw [setList_self] at hj
      rcases List.mem_cons.mp hj with hzx | hj
      · exact Or.inl hzx
      · exact Or.inr ⟨j, hj⟩
    · rw [setList_of_ne hji] at hj
      exact Or.inr ⟨j, hj⟩
  · rintro (rfl | ⟨j, hj⟩)
    · refine ⟨i, ?_⟩
      rw [setList_self]
      exact List.mem_cons_self
    · refine ⟨j, ?_⟩
      rcases eq_or_ne j i with rfl | hji
      · rw [setList_self]
        exact List.mem_cons_of_mem x hj
      · rwa [setList_of_ne hji]

/-- The held tag becomes free. -/
theorem Held.enlist (h : Held v L b xs x ys) (hi : i = listIndex (v.realSize x - TAG_SIZE))
    (hleft : ∀ z ∈ xs.getLast?, ¬Listed L z) (hright : ∀ z ∈ ys.head?, ¬Listed L z)
    (hcomplete : isWhole v x = true → v.completePages i ≠ MAXCOMPLETE) :
    Tidy (give v x i) (L.setList i (x :: L.lists i)) := by
  have hsound : Sound (give v x i) (L.setList i (x :: L.lists i)) :=
    (h.sound.enlist h.tag h.loose hi).congr (fun y _ f => give_field v x i y f)
      (give_freePages v x i)
  have hsplit : (give v x i).split = v.split := by
    rw [give]
    split_ifs <;> rfl
  have hwhole : isWhole (give v x i) = isWhole v := by
    funext z
    rw [isWhole, isWhole, hsplit]
  have hlisted : ∀ z, Listed (L.setList i (x :: L.lists i)) z ↔ z = x ∨ Listed L z :=
    fun z => listed_setList_cons
  have hmemx : x ∈ L.tiles b := by
    rw [h.tiles]
    simp
  have hnodup := (h.sound.tag_area hmemx).chain.nodup_tail
  rw [h.tiles] at hnodup
  have hxnot : x ∉ xs ++ ys := (List.nodup_cons.mp (List.nodup_middle.mp hnodup)).1
  have hother : ∀ {zs : List Nat}, x ∉ zs →
      zs.IsChain (fun x y => ¬(Listed L x ∧ Listed L y)) → zs.IsChain fun w z =>
        ¬(Listed (L.setList i (x :: L.lists i)) w ∧ Listed (L.setList i (x :: L.lists i)) z) := by
    intro zs hnot hzs
    refine List.IsChain.imp_of_mem_imp (fun w z hw hz hwz hl => hwz ?_) hzs
    rw [hlisted, hlisted] at hl
    refine ⟨hl.1.resolve_left ?_, hl.2.resolve_left ?_⟩
    · rintro rfl
      exact hnot hw
    · rintro rfl
      exact hnot hz
  refine ⟨hsound, fun c => ?_, fun j => ?_, fun j => ?_, fun z hz => ?_⟩
  · change (L.tiles c).IsChain _
    rcases eq_or_ne c b with rfl | hcb
    · have hc := h.coalesced c
      rw [h.tiles] at hc ⊢
      obtain ⟨hxs, hrest, -⟩ := List.isChain_append.mp hc
      refine List.isChain_append.mpr
        ⟨hother (fun hx => hxnot (List.mem_append_left _ hx)) hxs, ?_, ?_⟩
      · cases ys with
        | nil => exact List.isChain_singleton x
        | cons y ys =>
            refine List.isChain_cons_cons.mpr
              ⟨?_, hother (fun hx => hxnot (List.mem_append_right _ hx)) hrest.tail⟩
            rintro ⟨-, hl⟩
            rcases (hlisted y).mp hl with rfl | hl
            · exact hxnot (by simp)
            · exact hright y (by simp) hl
      · rintro z hz w hw ⟨hl, -⟩
        rcases (hlisted z).mp hl with rfl | hl
        · exact hxnot (List.mem_append_left _ (List.mem_of_mem_getLast? hz))
        · exact hleft z hz hl
    · refine hother (fun hx => hcb ?_) (h.coalesced c)
      exact h.sound.region_unique hx hmemx
  · rw [give_completePages, h.counted j, hwhole]
    rcases eq_or_ne j i with rfl | hji
    · rw [setList_self, List.countP_cons]
      by_cases hx : isWhole v x = true <;> simp [hx]
    · rw [setList_of_ne hji]
      simp [hji]
  · have hle := h.bounded j
    rw [give_completePages]
    split_ifs with hj
    · obtain ⟨rfl, hx⟩ := hj
      have hne := hcomplete hx
      omega
    · omega
  · have hzx : z ≠ x := by
      rintro rfl
      exact hz.2 ((hlisted z).mpr (Or.inl rfl))
    have hroom := h.room z ⟨hz.1, fun hl => hz.2 ((hlisted z).mpr (Or.inr hl))⟩ hzx
    have hfield : ∀ f, (give v x i).field z f = (v.insertTag x i).field z f := give_field v x i z
    exact (congrArg₂ (TAG_SIZE + · ≤ ·) (hfield .size) (hfield .realSize)).mpr hroom

/-- A region comes from the kernel. -/
theorem Tidy.create (h : Tidy v L) {n size : Nat} (haligned : b % PAGE_SIZE = 0) (hpos : 0 < b)
    (hn : PAGE_COUNT ≤ n) (hle : b + n * PAGE_SIZE ≤ 2 ^ 32)
    (hvacant : Vacant L b (b + n * PAGE_SIZE)) :
    Held (v.create b size (n * PAGE_SIZE)) (L.addRegion b n) b [] b [] := by
  have hbytes := region_bytes hn
  have hb : ¬Tag L b := h.sound.not_tag_of_vacant hvacant (Nat.le_refl b) (by omega)
  have hnil : L.tiles b = [] := h.sound.tiles_of_vacant hvacant (by omega)
  have hbl := h.sound.not_listed hb
  refine ⟨h.sound.create haligned hpos hn hle hvacant, (addRegion_self L b n).1, hbl,
    h.coalesced.setTiles (List.isChain_singleton b),
    counted_congr h.counted rfl fun j z hz => ?_, h.bounded, fun z hz hzb => ?_⟩
  · have hzb : z ≠ b := by
      rintro rfl
      exact hbl ⟨j, hz⟩
    have hnext : (v.create b size (n * PAGE_SIZE)).split.next z = v.split.next z :=
      Function.update_of_ne hzb ..
    have hprev : (v.create b size (n * PAGE_SIZE)).split.prev z = v.split.prev z :=
      Function.update_of_ne hzb ..
    rw [isWhole, isWhole, hnext, hprev]
  · have hsize : (v.create b size (n * PAGE_SIZE)).size z = v.size z :=
      Function.update_of_ne hzb ..
    have hreal : (v.create b size (n * PAGE_SIZE)).realSize z = v.realSize z :=
      Function.update_of_ne hzb ..
    rw [hsize, hreal]
    exact h.room z ⟨((tag_addRegion hnil n).mp hz.1).resolve_left hzb, hz.2⟩

/-- The region of the held tag goes back to the kernel. -/
theorem Held.drop (h : Held v L b [] x []) : Tidy v (L.setTiles b []) where
  sound := h.sound.drop h.tiles h.loose
  coalesced := h.coalesced.setTiles List.isChain_nil
  counted := h.counted
  bounded := h.bounded
  room z hz := by
    have htag := h.sound.tag_setTiles.mp hz.1
    rw [h.tiles] at htag
    rcases htag with hz' | ⟨hz', hne⟩
    · cases hz'
    · exact h.room z ⟨hz', hz.2⟩ (by simpa using hne)

/-! Only the tags of the regions matter. -/

theorem isWhole_field (hx : ∀ f, v'.field x f = v.field x f) : isWhole v' x = isWhole v x := by
  have hleft : v'.split.prev x = v.split.prev x := hx .splitLeft
  have hright : v'.split.next x = v.split.next x := hx .splitRight
  rw [isWhole, isWhole, hleft, hright]

theorem Held.congr (h : Held v L b xs x ys)
    (hfield : ∀ z, Tag L z → ∀ f, v'.field z f = v.field z f)
    (hfree : v'.freePages = v.freePages) (hcomplete : v'.completePages = v.completePages) :
    Held v' L b xs x ys where
  sound := h.sound.congr hfield hfree
  tiles := h.tiles
  loose := h.loose
  coalesced := h.coalesced
  counted := counted_congr h.counted hcomplete fun j z hz =>
    isWhole_field (hfield z (h.sound.listed j z hz).1)
  bounded := by
    rw [hcomplete]
    exact h.bounded
  room z hz hzx := by
    have hsize := hfield z hz.1 .size
    have hreal := hfield z hz.1 .realSize
    simp only [View.field] at hsize hreal
    rw [hsize, hreal]
    exact h.room z hz hzx

theorem Tidy.congr (h : Tidy v L) (hfield : ∀ z, Tag L z → ∀ f, v'.field z f = v.field z f)
    (hfree : v'.freePages = v.freePages) (hcomplete : v'.completePages = v.completePages) :
    Tidy v' L where
  sound := h.sound.congr hfield hfree
  coalesced := h.coalesced
  counted := counted_congr h.counted hcomplete fun j z hz =>
    isWhole_field (hfield z (h.sound.listed j z hz).1)
  bounded := by
    rw [hcomplete]
    exact h.bounded
  room z hz := by
    have hsize := hfield z hz.1 .size
    have hreal := hfield z hz.1 .realSize
    simp only [View.field] at hsize hreal
    rw [hsize, hreal]
    exact h.room z hz

end

end Ibnos.TagOperations
