import Ibnos.BoundaryTags
import Ibnos.Tilings

/-!
What the tags and their links stand for: the regions which came from the kernel, tiled by
tags, and the lists of the free ones.
-/

namespace Ibnos.TagLayout

open Ibnos.BoundaryTags
open Ibnos.Chains
open Ibnos.Liballoc
open Ibnos.LinkedLists
open Ibnos.Tilings

/-- For the first address of every region its tags and its pages, and the tags of every list. -/
structure Layout where
  tiles : Nat → List Nat
  pages : Nat → Nat
  lists : Nat → List Nat

def Layout.setTiles (L : Layout) (b : Nat) (xs : List Nat) : Layout :=
  { L with tiles := Function.update L.tiles b xs }

def Layout.setList (L : Layout) (i : Nat) (xs : List Nat) : Layout :=
  { L with lists := Function.update L.lists i xs }

def Tag (L : Layout) (x : Nat) : Prop := ∃ b, x ∈ L.tiles b

def Listed (L : Layout) (x : Nat) : Prop := ∃ i, x ∈ L.lists i

/-- The first address behind a region. -/
def Layout.stop (L : Layout) (b : Nat) : Nat := b + L.pages b * PAGE_SIZE

/-- A region with the tags of it. -/
structure Area (v : View) (L : Layout) (b : Nat) : Prop where
  aligned : b % PAGE_SIZE = 0
  pos : 0 < b
  pages_ge : PAGE_COUNT ≤ L.pages b
  stop_le : L.stop b ≤ 2 ^ 32
  tiling : Tiling v.realSize TAG_SIZE b (L.tiles b) (L.stop b)
  chain : Chain v.split 0 (L.tiles b)

/-- The tag is in no list, and its links are null. -/
structure Loose (v : View) (x : Nat) : Prop where
  index : v.index x = NO_INDEX
  next : v.free.next x = 0
  prev : v.free.prev x = 0

structure Sound (v : View) (L : Layout) : Prop where
  area : ∀ b, L.tiles b ≠ [] → Area v L b
  disjoint : ∀ b c, L.tiles b ≠ [] → L.tiles c ≠ [] → b < c → L.stop b ≤ c
  magic : ∀ x, Tag L x → v.magic x = LIBALLOC_MAGIC
  list : ∀ i, Chain v.free 0 (L.lists i)
  head : ∀ i, v.freePages i = (L.lists i).headD 0
  listed : ∀ i, ∀ x ∈ L.lists i,
    Tag L x ∧ v.index x = i ∧ i = listIndex (v.realSize x - TAG_SIZE)
  loose : ∀ x, Tag L x → ¬Listed L x → Loose v x

section

variable {v v' : View} {L : Layout} {b c i j x y z : Nat} {xs ys as bs : List Nat}

theorem setTiles_self (L : Layout) (b : Nat) (xs : List Nat) : (L.setTiles b xs).tiles b = xs :=
  Function.update_self ..

theorem setTiles_of_ne (h : c ≠ b) (L : Layout) (xs : List Nat) :
    (L.setTiles b xs).tiles c = L.tiles c := Function.update_of_ne h ..

theorem setList_self (L : Layout) (i : Nat) (xs : List Nat) : (L.setList i xs).lists i = xs :=
  Function.update_self ..

theorem setList_of_ne (h : j ≠ i) (L : Layout) (xs : List Nat) :
    (L.setList i xs).lists j = L.lists j := Function.update_of_ne h ..

theorem Area.mem (h : Area v L b) (hx : x ∈ L.tiles b) :
    TAG_SIZE ≤ v.realSize x ∧ b ≤ x ∧ x + v.realSize x ≤ L.stop b := h.tiling.mem hx

theorem Sound.tag_area (h : Sound v L) (hx : x ∈ L.tiles b) : Area v L b :=
  h.area b (List.ne_nil_of_mem hx)

/-- Tags of two regions do not overlap. -/
theorem Sound.regions (h : Sound v L) (hx : x ∈ L.tiles b) (hy : y ∈ L.tiles c) (hbc : b ≠ c) :
    x + v.realSize x ≤ y ∨ y + v.realSize y ≤ x := by
  have hx' := (h.tag_area hx).mem hx
  have hy' := (h.tag_area hy).mem hy
  rcases Nat.lt_or_gt_of_ne hbc with hlt | hlt
  · have hle := h.disjoint b c (List.ne_nil_of_mem hx) (List.ne_nil_of_mem hy) hlt
    omega
  · have hle := h.disjoint c b (List.ne_nil_of_mem hy) (List.ne_nil_of_mem hx) hlt
    omega

theorem Sound.disjoint_tags (h : Sound v L) (hx : Tag L x) (hy : Tag L y) (hxy : x ≠ y) :
    x + v.realSize x ≤ y ∨ y + v.realSize y ≤ x := by
  obtain ⟨b, hx⟩ := hx
  obtain ⟨c, hy⟩ := hy
  rcases eq_or_ne b c with rfl | hbc
  · exact (h.tag_area hx).tiling.disjoint hx hy hxy
  · exact h.regions hx hy hbc

theorem Sound.realSize_ge (h : Sound v L) (hx : Tag L x) : TAG_SIZE ≤ v.realSize x := by
  obtain ⟨b, hx⟩ := hx
  exact ((h.tag_area hx).mem hx).1

theorem Sound.bounds (h : Sound v L) (hx : Tag L x) :
    0 < x ∧ x + v.realSize x ≤ 2 ^ 32 := by
  obtain ⟨b, hx⟩ := hx
  have harea := h.tag_area hx
  have hmem := harea.mem hx
  have hpos := harea.pos
  have hle := harea.stop_le
  omega

/-- A tag is in one region only. -/
theorem Sound.region_unique (h : Sound v L) (hx : x ∈ L.tiles b) (hx' : x ∈ L.tiles c) :
    b = c := by
  by_contra hbc
  have hsize := h.realSize_ge ⟨b, hx⟩
  have hTAG : TAG_SIZE = 32 := rfl
  have hregions := h.regions hx hx' hbc
  omega

theorem Sound.list_unique (h : Sound v L) (hx : x ∈ L.lists i) (hx' : x ∈ L.lists j) : i = j :=
  (h.listed i x hx).2.1.symm.trans (h.listed j x hx').2.1

theorem getexpLoop_le (size n shift : Nat) :
    shift ≤ getexpLoop size n shift ∧ getexpLoop size n shift ≤ shift + n := by
  induction n generalizing shift with
  | zero => exact ⟨Nat.le_refl _, Nat.le_refl _⟩
  | succ n ih =>
      have hrest := ih (shift + 1)
      rw [getexpLoop]
      split_ifs <;> omega

theorem getexp_lt (size : Nat) : getexp size < MAXEXP := by
  have hloop := getexpLoop_le size (MAXEXP - MINEXP) MINEXP
  simp only [MAXEXP, MINEXP, getexp] at *
  split_ifs <;> omega

theorem listIndex_bounds (size : Nat) : MINEXP ≤ listIndex size ∧ listIndex size < MAXEXP := by
  have hlt := getexp_lt size
  rw [listIndex]
  by_cases hsmall : getexp size < MINEXP
  · rw [if_pos hsmall]
    decide
  · rw [if_neg hsmall]
    simp only [MAXEXP, MINEXP] at *
    omega

theorem Sound.listed_lt (h : Sound v L) (hx : x ∈ L.lists i) : i < MAXEXP := by
  rw [(h.listed i x hx).2.2]
  exact (listIndex_bounds _).2

/-- Only the tags of the regions matter. -/
theorem Sound.congr (h : Sound v L) (hfield : ∀ x, Tag L x → ∀ f, v'.field x f = v.field x f)
    (hhead : v'.freePages = v.freePages) : Sound v' L where
  area b hb := by
    have harea := h.area b hb
    refine ⟨harea.aligned, harea.pos, harea.pages_ge, harea.stop_le,
      harea.tiling.congr fun x hx => hfield x ⟨b, hx⟩ .realSize,
      harea.chain.congr fun x hx => ⟨hfield x ⟨b, hx⟩ .splitRight, hfield x ⟨b, hx⟩ .splitLeft⟩⟩
  disjoint := h.disjoint
  magic x hx := (hfield x hx .magic).trans (h.magic x hx)
  list i := (h.list i).congr fun x hx =>
    ⟨hfield x (h.listed i x hx).1 .next, hfield x (h.listed i x hx).1 .prev⟩
  head i := by
    rw [hhead]
    exact h.head i
  listed i x hx := by
    obtain ⟨htag, hindex, hi⟩ := h.listed i x hx
    have hsize := hfield x htag .realSize
    simp only [View.field] at hsize
    exact ⟨htag, (hfield x htag .index).trans hindex, by rwa [hsize]⟩
  loose x hx hl := by
    obtain ⟨hindex, hnext, hprev⟩ := h.loose x hx hl
    exact ⟨(hfield x hx .index).trans hindex, (hfield x hx .next).trans hnext,
      (hfield x hx .prev).trans hprev⟩

theorem removeTag_next (hyx : y ≠ x) (v : View) :
    (v.removeTag x).free.next y = (cut 0 v.free x).next y := Function.update_of_ne hyx ..

theorem removeTag_prev (hyx : y ≠ x) (v : View) :
    (v.removeTag x).free.prev y = (cut 0 v.free x).prev y := Function.update_of_ne hyx ..

theorem removeTag_index (hyx : y ≠ x) (v : View) : (v.removeTag x).index y = v.index y :=
  Function.update_of_ne hyx ..

theorem loose_removeTag (v : View) (x : Nat) : Loose (v.removeTag x) x :=
  ⟨Function.update_self .., Function.update_self .., Function.update_self ..⟩

theorem listed_setList (hlist : L.lists i = as ++ x :: bs) :
    ∀ y, Listed (L.setList i (as ++ bs)) y → Listed L y := by
  rintro y ⟨j, hj⟩
  rcases eq_or_ne j i with rfl | hji
  · refine ⟨j, ?_⟩
    rw [setList_self] at hj
    rw [hlist]
    exact (List.Sublist.append_left (List.sublist_cons_self x bs) as).subset hj
  · rw [setList_of_ne hji] at hj
    exact ⟨j, hj⟩

/-- A tag leaves its list. -/
theorem Sound.unlist (h : Sound v L) (hlist : L.lists i = as ++ x :: bs) :
    Sound (v.removeTag x) (L.setList i (as ++ bs)) := by
  have hx : x ∈ L.lists i := by
    rw [hlist]
    exact List.mem_append_right _ List.mem_cons_self
  obtain ⟨hxtag, hindex, -⟩ := h.listed i x hx
  have hchain := h.list i
  rw [hlist] at hchain
  have hnot : x ∉ as ++ bs := (List.nodup_cons.mp (List.nodup_middle.mp hchain.nodup_tail)).1
  have hmem : ∀ j y, y ∈ (L.setList i (as ++ bs)).lists j → y ∈ L.lists j ∧ y ≠ x := by
    intro j y hy
    rcases eq_or_ne j i with rfl | hji
    · rw [setList_self] at hy
      rw [hlist]
      refine ⟨(List.Sublist.append_left (List.sublist_cons_self x bs) as).subset hy, ?_⟩
      rintro rfl
      exact hnot hy
    · rw [setList_of_ne hji] at hy
      refine ⟨hy, ?_⟩
      rintro rfl
      exact hji (h.list_unique hy hx)
  refine ⟨?_, h.disjoint, h.magic, fun j => ?_, fun j => ?_, fun j y hy => ?_, fun y hy hl => ?_⟩
  · intro b hb
    have harea := h.area b hb
    exact ⟨harea.aligned, harea.pos, harea.pages_ge, harea.stop_le, harea.tiling, harea.chain⟩
  · have hcut : Chain (cut 0 v.free x) 0 ((L.setList i (as ++ bs)).lists j) := by
      rcases eq_or_ne j i with rfl | hji
      · rw [setList_self]
        exact chain_cut hchain
      · rw [setList_of_ne hji]
        refine chain_cut_other (h.list i) hx (h.list j) fun y hy hcontra => ?_
        exact hji (h.list_unique hy hcontra)
    refine hcut.congr fun y hy => ?_
    have hyx := (hmem j y hy).2
    exact ⟨removeTag_next hyx v, removeTag_prev hyx v⟩
  · have hhead := h.head i
    rw [hlist] at hhead
    simp only [View.removeTag, hindex]
    rcases eq_or_ne j i with rfl | hji
    · rw [setList_self]
      cases as with
      | nil =>
          have hhead : v.freePages j = x := hhead
          rw [if_pos hhead, Function.update_self]
          exact hchain.next_eq
      | cons a as =>
          have hhead : v.freePages j = a := hhead
          have hax : a ≠ x := by
            rintro rfl
            exact hnot List.mem_cons_self
          rw [if_neg (by rwa [hhead]), hhead]
          rfl
    · rw [setList_of_ne hji, ← h.head j]
      split_ifs
      · exact Function.update_of_ne hji _ _
      · rfl
  · obtain ⟨hy, hyx⟩ := hmem j y hy
    obtain ⟨htag, hyindex, hj⟩ := h.listed j y hy
    exact ⟨htag, (removeTag_index hyx v).trans hyindex, hj⟩
  · rcases eq_or_ne y x with rfl | hyx
    · exact loose_removeTag v y
    have hlisted : ¬Listed L y := by
      rintro ⟨j, hj⟩
      refine hl ⟨j, ?_⟩
      rcases eq_or_ne j i with rfl | hji
      · rw [setList_self]
        rw [hlist] at hj
        have hperm := List.perm_middle.mem_iff.mp hj
        exact (List.mem_cons.mp hperm).resolve_left hyx
      · rwa [setList_of_ne hji]
    obtain ⟨hyindex, hnext, hprev⟩ := h.loose y hy hlisted
    have hypos := (h.bounds hy).1
    obtain ⟨hnextx, hprevx⟩ := (h.list i).neighbours hx
    have hout : ∀ z ∈ 0 :: L.lists i, ¬(z ≠ 0 ∧ y = z) := by
      rintro z hz ⟨hne, rfl⟩
      rcases List.mem_cons.mp hz with rfl | hz
      · exact hne rfl
      · exact hlisted ⟨i, hz⟩
    refine ⟨(removeTag_index hyx v).trans hyindex, ?_, ?_⟩
    · rw [removeTag_next hyx, cut_next, if_neg (hout _ hprevx)]
      exact hnext
    · rw [removeTag_prev hyx, cut_prev, if_neg (hout _ hnextx)]
      exact hprev

theorem insertTag_index (hyx : y ≠ x) (v : View) (i : Nat) :
    (v.insertTag x i).index y = v.index y := Function.update_of_ne hyx ..

/-- A tag enters its list. -/
theorem Sound.enlist (h : Sound v L) (hx : Tag L x) (hl : ¬Listed L x)
    (hi : i = listIndex (v.realSize x - TAG_SIZE)) :
    Sound (v.insertTag x i) (L.setList i (x :: L.lists i)) := by
  obtain ⟨hindex, hnext, hprev⟩ := h.loose x hx hl
  have hpos := (h.bounds hx).1
  have hhead : v.freePages i = (L.lists i).headD 0 := h.head i
  refine ⟨?_, h.disjoint, h.magic, fun j => ?_, fun j => ?_, fun j y hy => ?_, fun y hy hly => ?_⟩
  · intro b hb
    have harea := h.area b hb
    exact ⟨harea.aligned, harea.pos, harea.pages_ge, harea.stop_le, harea.tiling, harea.chain⟩
  · change Chain (insertFront 0 v.free (v.freePages i) x) 0 _
    rw [hhead]
    rcases eq_or_ne j i with rfl | hji
    · rw [setList_self]
      exact chain_insertFront (h.list j) (by omega) (fun hmem => hl ⟨j, hmem⟩) hprev
        fun _ => hnext
    · rw [setList_of_ne hji]
      refine chain_insertFront_other (h.list j) ?_ fun hmem => hl ⟨j, hmem⟩
      rcases headD_mem (L.lists i) 0 with heq | hmem
      · exact Or.inl heq
      · exact Or.inr fun hcontra => hji (h.list_unique hcontra hmem)
  · rcases eq_or_ne j i with rfl | hji
    · rw [setList_self]
      exact Function.update_self ..
    · rw [setList_of_ne hji]
      exact (Function.update_of_ne hji _ _).trans (h.head j)
  · rcases eq_or_ne y x with rfl | hyx
    · have hj : j = i := by
        by_contra hji
        rw [setList_of_ne hji] at hy
        exact hl ⟨j, hy⟩
      exact ⟨hx, (Function.update_self ..).trans hj.symm, hj.trans hi⟩
    · have hy : y ∈ L.lists j := by
        rcases eq_or_ne j i with rfl | hji
        · rw [setList_self] at hy
          exact (List.mem_cons.mp hy).resolve_left hyx
        · rwa [setList_of_ne hji] at hy
      obtain ⟨htag, hyindex, hj⟩ := h.listed j y hy
      exact ⟨htag, (insertTag_index hyx v i).trans hyindex, hj⟩
  · have hyx : y ≠ x := by
      rintro rfl
      refine hly ⟨i, ?_⟩
      rw [setList_self]
      exact List.mem_cons_self
    have hlisted : ¬Listed L y := by
      rintro ⟨j, hj⟩
      refine hly ⟨j, ?_⟩
      rcases eq_or_ne j i with rfl | hji
      · rw [setList_self]
        exact List.mem_cons_of_mem x hj
      · rwa [setList_of_ne hji]
    obtain ⟨hyindex, hynext, hyprev⟩ := h.loose y hy hlisted
    refine ⟨(insertTag_index hyx v i).trans hyindex, ?_, ?_⟩
    · change (insertFront 0 v.free (v.freePages i) x).next y = 0
      rw [insertFront_next, if_neg fun hcontra => hyx hcontra.2]
      exact hynext
    · change (insertFront 0 v.free (v.freePages i) x).prev y = 0
      rw [insertFront_prev, if_neg]
      · exact hyprev
      rintro ⟨hne, rfl⟩
      rw [hhead] at hne hlisted
      exact hlisted ⟨i, (headD_mem (L.lists i) 0).resolve_left hne⟩

/-- The tags of one region change. -/
theorem Sound.tag_setTiles (h : Sound v L) {zs : List Nat} :
    Tag (L.setTiles b zs) z ↔ z ∈ zs ∨ Tag L z ∧ z ∉ L.tiles b := by
  constructor
  · rintro ⟨c, hz⟩
    rcases eq_or_ne c b with rfl | hcb
    · rw [setTiles_self] at hz
      exact Or.inl hz
    · rw [setTiles_of_ne hcb] at hz
      exact Or.inr ⟨⟨c, hz⟩, fun hcontra => hcb (h.region_unique hz hcontra)⟩
  · rintro (hz | ⟨⟨c, hz⟩, hnot⟩)
    · refine ⟨b, ?_⟩
      rwa [setTiles_self]
    · refine ⟨c, ?_⟩
      rw [setTiles_of_ne]
      · exact hz
      rintro rfl
      exact hnot hz

theorem setTiles_ne_nil (hb : L.tiles b ≠ []) {zs : List Nat} (hc : (L.setTiles b zs).tiles c ≠ []) :
    L.tiles c ≠ [] := by
  rcases eq_or_ne c b with rfl | hcb
  · exact hb
  · rwa [setTiles_of_ne hcb] at hc

/-- Two neighbours which are in no list become one tag. -/
theorem Sound.merge (h : Sound v L) (htiles : L.tiles b = xs ++ x :: y :: ys)
    (hx : ¬Listed L x) (hy : ¬Listed L y) :
    Sound (v.merge x y) (L.setTiles b (xs ++ x :: ys)) := by
  have hne : L.tiles b ≠ [] := by
    rw [htiles]
    simp
  have hmemx : x ∈ L.tiles b := by
    rw [htiles]
    simp
  have harea := h.area b hne
  have hnodup := harea.chain.nodup_tail
  have hchain := harea.chain
  have htiling := harea.tiling
  rw [htiles] at hnodup hchain htiling
  have happend : xs ++ x :: y :: ys = xs ++ [x] ++ y :: ys := by simp
  have happend' : xs ++ x :: ys = xs ++ [x] ++ ys := by simp
  have hxnot : x ∉ xs ++ y :: ys := (List.nodup_cons.mp (List.nodup_middle.mp hnodup)).1
  have hother : ∀ z, z ≠ x → (v.merge x y).realSize z = v.realSize z := fun z hz =>
    Function.update_of_ne hz ..
  have hsub : ∀ z, Tag (L.setTiles b (xs ++ x :: ys)) z → Tag L z := by
    intro z hz
    rcases h.tag_setTiles.mp hz with hz | ⟨hz, -⟩
    · refine ⟨b, ?_⟩
      rw [htiles]
      rw [happend]
      rw [happend'] at hz
      exact (List.Sublist.append_left (List.sublist_cons_self y ys) (xs ++ [x])).subset hz
    · exact hz
  refine ⟨fun c hc => ?_, ?_, fun z hz => h.magic z (hsub z hz), h.list, h.head,
    fun j z hz => ?_, fun z hz hl => ?_⟩
  · have hc' := setTiles_ne_nil hne hc
    have hareac := h.area c hc'
    refine ⟨hareac.aligned, hareac.pos, hareac.pages_ge, hareac.stop_le, ?_, ?_⟩
    · rcases eq_or_ne c b with rfl | hcb
      · rw [setTiles_self]
        refine htiling.merge (Function.update_self ..) fun z hz => hother z ?_
        rintro rfl
        refine hxnot ?_
        rcases List.mem_append.mp hz with hz | hz
        · exact List.mem_append_left _ hz
        · exact List.mem_append_right _ (List.mem_cons_of_mem y hz)
      · rw [setTiles_of_ne hcb]
        refine hareac.tiling.congr fun z hz => hother z ?_
        rintro rfl
        exact hcb (h.region_unique hz hmemx)
    · rcases eq_or_ne c b with rfl | hcb
      · rw [setTiles_self, happend']
        rw [happend] at hchain
        exact chain_cut hchain
      · rw [setTiles_of_ne hcb]
        refine chain_cut_other harea.chain ?_ hareac.chain fun z hz hcontra => ?_
        · rw [htiles]
          simp
        · exact hcb (h.region_unique hz hcontra)
  · intro c d hc hd
    exact h.disjoint c d (setTiles_ne_nil hne hc) (setTiles_ne_nil hne hd)
  · obtain ⟨⟨c, hzc⟩, hindex, hj⟩ := h.listed j z hz
    have hzx : z ≠ x := by
      rintro rfl
      exact hx ⟨j, hz⟩
    have hzy : z ≠ y := by
      rintro rfl
      exact hy ⟨j, hz⟩
    refine ⟨?_, hindex, ?_⟩
    · refine h.tag_setTiles.mpr ?_
      by_cases hzb : z ∈ L.tiles b
      · left
        rw [htiles] at hzb
        simp only [List.mem_append, List.mem_cons] at hzb ⊢
        tauto
      · exact Or.inr ⟨⟨c, hzc⟩, hzb⟩
    · rw [hother z hzx]
      exact hj
  · obtain ⟨hindex, hnext, hprev⟩ := h.loose z (hsub z hz) hl
    exact ⟨hindex, hnext, hprev⟩

/-- Behind a tag there is no other one before it ends. -/
theorem Sound.not_tag (h : Sound v L) (hx : Tag L x) (hlt : x < y) (hle : y < x + v.realSize x) :
    ¬Tag L y := by
  intro hy
  have hdisjoint := h.disjoint_tags hx hy (by omega)
  have hsize := h.realSize_ge hy
  have hTAG : TAG_SIZE = 32 := rfl
  omega

theorem Sound.not_listed (h : Sound v L) (hy : ¬Tag L y) : ¬Listed L y := by
  rintro ⟨i, hi⟩
  exact hy (h.listed i y hi).1

/-- A tag which is in no list is divided. -/
theorem Sound.divide (h : Sound v L) (htiles : L.tiles b = xs ++ x :: ys) (hx : ¬Listed L x)
    (hle : x + TAG_SIZE ≤ y) (hroom : y + TAG_SIZE ≤ x + v.realSize x) :
    Sound (v.divide x y) (L.setTiles b (xs ++ x :: y :: ys)) := by
  have hTAG : TAG_SIZE = 32 := rfl
  have hne : L.tiles b ≠ [] := by
    rw [htiles]
    simp
  have hmemx : x ∈ L.tiles b := by
    rw [htiles]
    simp
  have hytag : ¬Tag L y := h.not_tag ⟨b, hmemx⟩ (by omega) (by omega)
  have harea := h.area b hne
  have hnodup := harea.chain.nodup_tail
  have hchain := harea.chain
  have htiling := harea.tiling
  rw [htiles] at hnodup hchain htiling
  have hxnot : x ∉ xs ++ ys := (List.nodup_cons.mp (List.nodup_middle.mp hnodup)).1
  have hxy : x ≠ y := by omega
  have hsizex : (v.divide x y).realSize x = y - x := Function.update_self ..
  have hsizey : (v.divide x y).realSize y = v.realSize x - (y - x) :=
    (Function.update_of_ne hxy.symm ..).trans (Function.update_self ..)
  have hother : ∀ z, Tag L z → z ≠ x → (v.divide x y).realSize z = v.realSize z := by
    intro z hz hzx
    refine (Function.update_of_ne hzx ..).trans (Function.update_of_ne ?_ ..)
    rintro rfl
    exact hytag hz
  have hfree : ∀ z, z ≠ y → (v.divide x y).free.next z = v.free.next z ∧
      (v.divide x y).free.prev z = v.free.prev z := fun z hz =>
    ⟨Function.update_of_ne hz .., Function.update_of_ne hz ..⟩
  have hlistedy : ∀ j z, z ∈ L.lists j → z ≠ y := by
    rintro j z hz rfl
    exact hytag (h.listed j z hz).1
  have hsub : ∀ z, Tag (L.setTiles b (xs ++ x :: y :: ys)) z ↔ z = y ∨ Tag L z := by
    intro z
    rw [h.tag_setTiles, htiles]
    constructor
    · rintro (hz | ⟨hz, -⟩)
      · simp only [List.mem_append, List.mem_cons] at hz
        rcases hz with hz | rfl | rfl | hz
        · refine Or.inr ⟨b, ?_⟩
          rw [htiles]
          exact List.mem_append_left _ hz
        · exact Or.inr ⟨b, hmemx⟩
        · exact Or.inl rfl
        · refine Or.inr ⟨b, ?_⟩
          rw [htiles]
          exact List.mem_append_right _ (List.mem_cons_of_mem x hz)
      · exact Or.inr hz
    · rintro (rfl | hz)
      · simp
      · by_cases hmem : z ∈ xs ++ x :: ys
        · left
          simp only [List.mem_append, List.mem_cons] at hmem ⊢
          tauto
        · exact Or.inr ⟨hz, hmem⟩
  refine ⟨fun c hc => ?_, ?_, fun z hz => ?_, fun j => ?_, h.head, fun j z hz => ?_,
    fun z hz hl => ?_⟩
  · have hc' := setTiles_ne_nil hne hc
    have hareac := h.area c hc'
    refine ⟨hareac.aligned, hareac.pos, hareac.pages_ge, hareac.stop_le, ?_, ?_⟩
    · rcases eq_or_ne c b with rfl | hcb
      · rw [setTiles_self]
        refine htiling.divide (by omega) (by omega) (by omega) (by omega) fun z hz =>
          hother z ⟨c, ?_⟩ ?_
        · rw [htiles]
          simp only [List.mem_append, List.mem_cons] at hz ⊢
          tauto
        · rintro rfl
          exact hxnot hz
      · rw [setTiles_of_ne hcb]
        refine hareac.tiling.congr fun z hz => hother z ⟨c, hz⟩ ?_
        rintro rfl
        exact hcb (h.region_unique hz hmemx)
    · rcases eq_or_ne c b with rfl | hcb
      · rw [setTiles_self]
        refine chain_insertAfter hchain (by omega) fun hcontra => hytag ⟨c, ?_⟩
        rwa [htiles]
      · rw [setTiles_of_ne hcb]
        -- Only `x`, `y` and the right neighbour of `x` get other links.
        have hnextx := (harea.chain.neighbours hmemx).1
        have hyb : v.split.next x ≠ y := by
          rintro rfl
          rcases List.mem_cons.mp hnextx with hnull | hmem
          · omega
          · exact hytag ⟨b, hmem⟩
        have hout : ∀ z, z ∈ L.tiles c → z ≠ x ∧ z ≠ y ∧
            ¬(v.split.next x ≠ 0 ∧ z = v.split.next x) := by
          intro z hz
          refine ⟨?_, ?_, ?_⟩
          · rintro rfl
            exact hcb (h.region_unique hz hmemx)
          · rintro rfl
            exact hytag ⟨c, hz⟩
          · rintro ⟨hnull, rfl⟩
            exact hcb (h.region_unique hz ((List.mem_cons.mp hnextx).resolve_left hnull))
        refine hareac.chain.congr fun z hz => ?_
        obtain ⟨hzx, hzy, hznext⟩ := hout z hz
        refine ⟨?_, ?_⟩
        · exact insertAfter_next.trans ((if_neg hzx).trans (if_neg hzy))
        · exact (insertAfter_prev hyb).trans ((if_neg hzy).trans (if_neg hznext))
  · intro c d hc hd
    exact h.disjoint c d (setTiles_ne_nil hne hc) (setTiles_ne_nil hne hd)
  · rcases eq_or_ne z y with rfl | hzy
    · exact Function.update_self ..
    · exact (Function.update_of_ne hzy ..).trans
        (h.magic z (((hsub z).mp hz).resolve_left hzy))
  · exact (h.list j).congr fun z hz => hfree z (hlistedy j z hz)
  · obtain ⟨htag, hindex, hj⟩ := h.listed j z hz
    have hzx : z ≠ x := by
      rintro rfl
      exact hx ⟨j, hz⟩
    refine ⟨(hsub z).mpr (Or.inr htag), ?_, ?_⟩
    · exact (Function.update_of_ne (hlistedy j z hz) ..).trans hindex
    · rw [hother z htag hzx]
      exact hj
  · rcases eq_or_ne z y with rfl | hzy
    · exact ⟨Function.update_self .., Function.update_self .., Function.update_self ..⟩
    · obtain ⟨hindex, hnext, hprev⟩ := h.loose z (((hsub z).mp hz).resolve_left hzy) hl
      exact ⟨(Function.update_of_ne hzy ..).trans hindex, (hfree z hzy).1.trans hnext,
        (hfree z hzy).2.trans hprev⟩

/-- A region with one tag. -/
def Layout.addRegion (L : Layout) (b n : Nat) : Layout :=
  { L with
    tiles := Function.update L.tiles b [b]
    pages := Function.update L.pages b n }

theorem addRegion_self (L : Layout) (b n : Nat) :
    (L.addRegion b n).tiles b = [b] ∧ (L.addRegion b n).stop b = b + n * PAGE_SIZE := by
  simp [Layout.addRegion, Layout.stop]

theorem addRegion_of_ne (h : c ≠ b) (L : Layout) (n : Nat) :
    (L.addRegion b n).tiles c = L.tiles c ∧ (L.addRegion b n).stop c = L.stop c := by
  simp [Layout.addRegion, Layout.stop, h]

/-- The addresses from `b` to `stop` are in no region. -/
def Vacant (L : Layout) (b stop : Nat) : Prop :=
  ∀ c, L.tiles c ≠ [] → L.stop c ≤ b ∨ stop ≤ c

theorem Sound.not_tag_of_vacant {stop : Nat} (h : Sound v L) (hvacant : Vacant L b stop)
    (hle : b ≤ x) (hlt : x < stop) : ¬Tag L x := by
  rintro ⟨c, hx⟩
  have hmem := (h.tag_area hx).mem hx
  have hTAG : TAG_SIZE = 32 := rfl
  rcases hvacant c (List.ne_nil_of_mem hx) with hc | hc <;> omega

theorem tag_addRegion (hb : L.tiles b = []) (n : Nat) :
    Tag (L.addRegion b n) x ↔ x = b ∨ Tag L x := by
  constructor
  · rintro ⟨c, hx⟩
    rcases eq_or_ne c b with rfl | hcb
    · rw [(addRegion_self L c n).1] at hx
      exact Or.inl (List.mem_singleton.mp hx)
    · rw [(addRegion_of_ne hcb L n).1] at hx
      exact Or.inr ⟨c, hx⟩
  · rintro (rfl | ⟨c, hx⟩)
    · refine ⟨x, ?_⟩
      rw [(addRegion_self L x n).1]
      exact List.mem_singleton_self x
    · refine ⟨c, ?_⟩
      rw [(addRegion_of_ne _ L n).1]
      · exact hx
      rintro rfl
      rw [hb] at hx
      cases hx

theorem region_bytes {n : Nat} (hn : PAGE_COUNT ≤ n) : 65536 ≤ n * PAGE_SIZE :=
  Nat.mul_le_mul_right PAGE_SIZE hn

theorem Sound.tiles_of_vacant {stop : Nat} (h : Sound v L) (hvacant : Vacant L b stop)
    (hlt : b < stop) : L.tiles b = [] := by
  by_contra hne
  have hbytes := region_bytes (h.area b hne).pages_ge
  rcases hvacant b hne with hc | hc
  · rw [Layout.stop] at hc
    omega
  · omega

/-- A region comes from the kernel. -/
theorem Sound.create (h : Sound v L) {n size : Nat} (haligned : b % PAGE_SIZE = 0) (hpos : 0 < b)
    (hn : PAGE_COUNT ≤ n) (hle : b + n * PAGE_SIZE ≤ 2 ^ 32)
    (hvacant : Vacant L b (b + n * PAGE_SIZE)) :
    Sound (v.create b size (n * PAGE_SIZE)) (L.addRegion b n) := by
  have hTAG : TAG_SIZE = 32 := rfl
  have hbytes := region_bytes hn
  have hb : ¬Tag L b := h.not_tag_of_vacant hvacant (Nat.le_refl b) (by omega)
  have hnil : L.tiles b = [] := h.tiles_of_vacant hvacant (by omega)
  have hne : ∀ x, Tag L x → x ≠ b := by
    rintro x hx rfl
    exact hb hx
  have hlisted : ∀ j x, x ∈ L.lists j → x ≠ b := fun j x hx => hne x (h.listed j x hx).1
  refine ⟨fun c hc => ?_, fun c d hc hd hcd => ?_, fun x hx => ?_, fun j => ?_, h.head,
    fun j x hx => ?_, fun x hx hl => ?_⟩
  · rcases eq_or_ne c b with rfl | hcb
    · obtain ⟨htiles, hstop⟩ := addRegion_self L c n
      have hsize : (v.create c size (n * PAGE_SIZE)).realSize c = n * PAGE_SIZE :=
        Function.update_self ..
      refine ⟨haligned, hpos, ?_, ?_, ?_, ?_⟩
      · have hpages : (L.addRegion c n).pages c = n := Function.update_self ..
        rw [hpages]
        exact hn
      · rw [hstop]
        exact hle
      · rw [htiles, hstop]
        exact ⟨rfl, by omega, congrArg (c + ·) hsize⟩
      · rw [htiles]
        refine ⟨⟨?_, Function.update_self .., trivial⟩, ?_⟩
        · exact Function.update_self ..
        · simpa using (Nat.ne_of_gt hpos).symm
    · obtain ⟨htiles, hstop⟩ := addRegion_of_ne hcb L n
      rw [htiles] at hc
      have harea := h.area c hc
      refine ⟨harea.aligned, harea.pos, ?_, ?_, ?_, ?_⟩
      · have hpages : (L.addRegion b n).pages c = L.pages c := Function.update_of_ne hcb ..
        rw [hpages]
        exact harea.pages_ge
      · rw [hstop]
        exact harea.stop_le
      · rw [htiles, hstop]
        exact harea.tiling.congr fun x hx => Function.update_of_ne (hne x ⟨c, hx⟩) ..
      · rw [htiles]
        exact harea.chain.congr fun x hx =>
          ⟨Function.update_of_ne (hne x ⟨c, hx⟩) .., Function.update_of_ne (hne x ⟨c, hx⟩) ..⟩
  · rcases eq_or_ne c b with rfl | hcb
    · have hdb := Nat.ne_of_gt hcd
      rw [(addRegion_of_ne hdb L n).1] at hd
      rw [(addRegion_self L c n).2]
      have hstop := region_bytes (h.area d hd).pages_ge
      rcases hvacant d hd with hcase | hcase
      · rw [Layout.stop] at hcase
        omega
      · exact hcase
    · obtain ⟨htiles, hstop⟩ := addRegion_of_ne hcb L n
      rw [htiles] at hc
      rw [hstop]
      rcases eq_or_ne d b with rfl | hdb
      · rcases hvacant c hc with hcase | hcase
        · exact hcase
        · omega
      · rw [(addRegion_of_ne hdb L n).1] at hd
        exact h.disjoint c d hc hd hcd
  · rcases eq_or_ne x b with rfl | hxb
    · exact Function.update_self ..
    · exact (Function.update_of_ne hxb ..).trans
        (h.magic x (((tag_addRegion hnil n).mp hx).resolve_left hxb))
  · exact (h.list j).congr fun x hx =>
      ⟨Function.update_of_ne (hlisted j x hx) .., Function.update_of_ne (hlisted j x hx) ..⟩
  · obtain ⟨htag, hindex, hj⟩ := h.listed j x hx
    refine ⟨(tag_addRegion hnil n).mpr (Or.inr htag), ?_, ?_⟩
    · exact (Function.update_of_ne (hlisted j x hx) ..).trans hindex
    · have hrealSize : (v.create b size (n * PAGE_SIZE)).realSize x = v.realSize x :=
        Function.update_of_ne (hlisted j x hx) ..
      rw [hrealSize]
      exact hj
  · rcases eq_or_ne x b with rfl | hxb
    · exact ⟨Function.update_self .., Function.update_self .., Function.update_self ..⟩
    · obtain ⟨hindex, hnext, hprev⟩ :=
        h.loose x (((tag_addRegion hnil n).mp hx).resolve_left hxb) hl
      exact ⟨(Function.update_of_ne hxb ..).trans hindex,
        (Function.update_of_ne hxb ..).trans hnext, (Function.update_of_ne hxb ..).trans hprev⟩

/-- A region with a tag which is in no list goes back to the kernel. -/
theorem Sound.drop (h : Sound v L) (htiles : L.tiles b = [x]) (hx : ¬Listed L x) :
    Sound v (L.setTiles b []) := by
  have hne : L.tiles b ≠ [] := by
    rw [htiles]
    simp
  have hsub : ∀ z, Tag (L.setTiles b []) z ↔ Tag L z ∧ z ≠ x := by
    intro z
    rw [h.tag_setTiles, htiles]
    simp
  have harea : ∀ c, (L.setTiles b []).tiles c ≠ [] → (L.setTiles b []).tiles c = L.tiles c := by
    intro c hc
    rcases eq_or_ne c b with rfl | hcb
    · rw [setTiles_self] at hc
      exact absurd rfl hc
    · exact setTiles_of_ne hcb L []
  refine ⟨fun c hc => ?_, fun c d hc hd => ?_, fun z hz => h.magic z ((hsub z).mp hz).1, h.list,
    h.head, fun j z hz => ?_, fun z hz hl => h.loose z ((hsub z).mp hz).1 hl⟩
  · have hareac := h.area c (setTiles_ne_nil hne hc)
    refine ⟨hareac.aligned, hareac.pos, hareac.pages_ge, hareac.stop_le, ?_, ?_⟩
    · rw [harea c hc]
      exact hareac.tiling
    · rw [harea c hc]
      exact hareac.chain
  · exact h.disjoint c d (setTiles_ne_nil hne hc) (setTiles_ne_nil hne hd)
  · obtain ⟨htag, hindex, hj⟩ := h.listed j z hz
    refine ⟨(hsub z).mpr ⟨htag, ?_⟩, hindex, hj⟩
    rintro rfl
    exact hx ⟨j, hz⟩

end

end Ibnos.TagLayout
