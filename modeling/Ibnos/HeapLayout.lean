import Ibnos.Allocator
import Mathlib.Data.List.Chain

/-!
The layout of the heap: every page of the small heap is tiled by blocks, and
every block is in the list which belongs to it.
-/

namespace Ibnos.HeapLayout

open Ibnos.Allocator
open Ibnos.LinkedLists
open Ibnos.Runs

structure SmallEntry (e : HeapEntry) : Prop where
  magic : e.heapMagic = SMALL_HEAP_MAGIC
  aligned : e.length % 16 = 0
  length_ge : 32 ≤ e.length

/-- Blocks one behind the other, from `a` to `b`. -/
def Tiles (entries : Nat → HeapEntry) (a : Nat) (xs : List Nat) (b : Nat) : Prop :=
  match xs with
  | [] => a = b
  | x :: xs => x = a ∧ SmallEntry (entries x) ∧ Tiles entries (x + (entries x).length) xs b

/-- No two neighbours are both free. -/
def Coalesced (entries : Nat → HeapEntry) (xs : List Nat) : Prop :=
  xs.IsChain fun x y => (entries x).reserved = true ∨ (entries y).reserved = true

section

variable {entries entries' : Nat → HeapEntry} {a b c x y : Nat} {xs ys : List Nat}

theorem tiles_append :
    Tiles entries a (xs ++ ys) c ↔ ∃ b, Tiles entries a xs b ∧ Tiles entries b ys c := by
  induction xs generalizing a with
  | nil => simp [Tiles]
  | cons x xs ih =>
      simp only [List.cons_append, Tiles, ih]
      constructor
      · rintro ⟨hx, he, b, hxs, hys⟩
        exact ⟨b, ⟨hx, he, hxs⟩, hys⟩
      · rintro ⟨b, ⟨hx, he, hxs⟩, hys⟩
        exact ⟨hx, he, b, hxs, hys⟩

theorem Tiles.congr (h : Tiles entries a xs b) (he : ∀ x ∈ xs, entries' x = entries x) :
    Tiles entries' a xs b := by
  induction xs generalizing a with
  | nil => exact h
  | cons x xs ih =>
      obtain ⟨hx, hentry, hrest⟩ := h
      rw [← he x List.mem_cons_self] at hentry hrest
      exact ⟨hx, hentry, ih hrest fun y hy => he y (List.mem_cons_of_mem x hy)⟩

theorem Coalesced.congr (h : Coalesced entries xs) (he : ∀ x ∈ xs, entries' x = entries x) :
    Coalesced entries' xs := by
  refine List.IsChain.imp_of_mem_imp ?_ h
  intro x y hx hy hxy
  rwa [he x hx, he y hy]

theorem Tiles.le (h : Tiles entries a xs b) : a + 32 * xs.length ≤ b := by
  induction xs generalizing a with
  | nil => exact Nat.le_of_eq h
  | cons x xs ih =>
      obtain ⟨rfl, hentry, hrest⟩ := h
      have hlength := hentry.length_ge
      have hle := ih hrest
      rw [List.length_cons]
      omega

theorem Tiles.mem (h : Tiles entries a xs b) (hx : x ∈ xs) :
    SmallEntry (entries x) ∧ a ≤ x ∧ x + (entries x).length ≤ b := by
  obtain ⟨ys, zs, rfl⟩ := List.append_of_mem hx
  obtain ⟨c, hys, rfl, hentry, hzs⟩ := tiles_append.mp h
  have hle := hys.le
  have hle' := hzs.le
  exact ⟨hentry, by omega, by omega⟩

theorem Tiles.aligned (h : Tiles entries a xs b) (ha : a % 16 = 0) :
    b % 16 = 0 ∧ ∀ x ∈ xs, x % 16 = 0 := by
  induction xs generalizing a with
  | nil =>
      obtain rfl : a = b := h
      exact ⟨ha, by simp⟩
  | cons x xs ih =>
      obtain ⟨rfl, hentry, hrest⟩ := h
      have halign := hentry.aligned
      obtain ⟨hb, hxs⟩ := ih hrest (by omega)
      refine ⟨hb, ?_⟩
      rintro y (_ | ⟨_, hy⟩)
      · exact ha
      · exact hxs y hy

/-- Different blocks do not overlap. -/
theorem Tiles.disjoint (h : Tiles entries a xs b) (hx : x ∈ xs) (hy : y ∈ xs) (hxy : x ≠ y) :
    x + (entries x).length ≤ y ∨ y + (entries y).length ≤ x := by
  induction xs generalizing a with
  | nil => cases hx
  | cons z xs ih =>
      obtain ⟨rfl, hentry, hrest⟩ := h
      rcases List.mem_cons.mp hx with rfl | hx' <;> rcases List.mem_cons.mp hy with rfl | hy'
      · exact absurd rfl hxy
      · exact Or.inl (hrest.mem hy').2.1
      · exact Or.inr (hrest.mem hx').2.1
      · exact ih hrest hx' hy'

end

/-- The heads of the lists. -/
def heads : Set Node := { n | ∀ x, n ≠ .entry x }

/-- The blocks of every page of the small heap, in order, and the large blocks. -/
structure Layout where
  tiles : Nat → List Nat
  large : Nat → Bool

def Layout.setTiles (L : Layout) (pg : Nat) (xs : List Nat) : Layout :=
  { L with tiles := Function.update L.tiles pg xs }

theorem setTiles_tiles_self (L : Layout) (pg : Nat) (xs : List Nat) :
    (L.setTiles pg xs).tiles pg = xs := by
  simp [Layout.setTiles]

theorem setTiles_tiles_of_ne {pg pg' : Nat} (h : pg' ≠ pg) (L : Layout) (xs : List Nat) :
    (L.setTiles pg xs).tiles pg' = L.tiles pg' := by
  simp [Layout.setTiles, h]

/-- The list a block belongs to. -/
def place (s : Heap) (L : Layout) (x : Nat) : Option Node :=
  if x ∈ L.tiles (pageOf x) then
    if (s.entries x).reserved then some .smallHeap
    else (unusedClass (s.entries x).length).map .smallUnusedHeap
  else if L.large x then some .largeHeap else none

def home (s : Heap) (L : Layout) : Node → Option Node
  | .entry x => place s L x
  | _ => none

/-- A page of the small heap which is tiled by `xs`. -/
structure Page (s : Heap) (pg : Nat) (xs : List Nat) : Prop where
  owned : s.owned pg = true
  pos : 0 < pg
  tiles : Tiles s.entries (pg * 4096) xs (pg * 4096 + 4096)
  coalesced : Coalesced s.entries xs
  reserved : xs = [pg * 4096] → (s.entries (pg * 4096)).reserved = true

structure LargeBlock (s : Heap) (L : Layout) (x : Nat) : Prop where
  aligned : x % 4096 = 0
  pos : 0 < x
  magic : (s.entries x).heapMagic = LARGE_HEAP_MAGIC
  length : (s.entries x).length % 4096 = 0
  length_pos : 0 < (s.entries x).length
  length_lt : (s.entries x).length < 2 ^ 31
  reserved : (s.entries x).reserved = true
  owned : ∀ pg, pageOf x ≤ pg → pg < pageOf x + (s.entries x).length / 4096 →
    s.owned pg = true ∧ L.tiles pg = []

/-- The page belongs to a large block. -/
def InLarge (s : Heap) (L : Layout) (pg : Nat) : Prop :=
  ∃ x, L.large x = true ∧ pageOf x ≤ pg ∧ pg < pageOf x + (s.entries x).length / 4096

/-- Everything except for the tiles of the page `hole`. -/
structure ValidExcept (s : Heap) (L : Layout) (hole : Nat) : Prop where
  page : ∀ pg, pg ≠ hole → L.tiles pg ≠ [] → Page s pg (L.tiles pg)
  large : ∀ x, L.large x = true → LargeBlock s L x
  largeHole : ¬InLarge s L hole
  disjoint : ∀ x y, L.large x = true → L.large y = true → x < y → x + (s.entries x).length ≤ y
  linked : Linked s.links heads (home s L)
  covered : ∀ pg, pg ≠ hole → s.owned pg = true → L.tiles pg = [] → InLarge s L pg

structure Sound (s : Heap) (L : Layout) : Prop where
  page : ∀ pg, L.tiles pg ≠ [] → Page s pg (L.tiles pg)
  large : ∀ x, L.large x = true → LargeBlock s L x
  disjoint : ∀ x y, L.large x = true → L.large y = true → x < y → x + (s.entries x).length ≤ y
  linked : Linked s.links heads (home s L)

/-- The representation invariant of the heap. -/
structure Valid (s : Heap) (L : Layout) : Prop extends Sound s L where
  covered : ∀ pg, s.owned pg = true → L.tiles pg = [] → InLarge s L pg

section

variable {s : Heap} {L : Layout} {pg x : Nat} {xs ys : List Nat}

theorem Valid.except (h : Valid s L) (hpg : L.tiles pg ≠ []) : ValidExcept s L pg where
  page pg' _ htiles := h.page pg' htiles
  large := h.large
  largeHole := by
    rintro ⟨x, hx, hle, hlt⟩
    exact hpg ((h.large x hx).owned pg hle hlt).2
  disjoint := h.disjoint
  linked := h.linked
  covered pg' _ := h.covered pg'

theorem ValidExcept.valid (h : ValidExcept s L pg) (hne : L.tiles pg ≠ [])
    (hpage : Page s pg (L.tiles pg)) : Valid s L where
  page := by
    intro pg' htiles
    rcases eq_or_ne pg' pg with rfl | hpg
    · exact hpage
    · exact h.page pg' hpg htiles
  large := h.large
  disjoint := h.disjoint
  linked := h.linked
  covered := by
    intro pg' howned htiles
    refine h.covered pg' ?_ howned htiles
    rintro rfl
    exact hne htiles

theorem LargeBlock.length_ge (h : LargeBlock s L x) : 4096 ≤ (s.entries x).length := by
  have hlength := h.length
  have hpos := h.length_pos
  omega

theorem LargeBlock.congr (h : LargeBlock s L x) (s' : Heap) (he : s'.entries x = s.entries x)
    (ho : s'.owned = s.owned) : LargeBlock s' L x := by
  refine ⟨h.aligned, h.pos, ?_, ?_, ?_, ?_, ?_, ?_⟩ <;> rw [he]
  · exact h.magic
  · exact h.length
  · exact h.length_pos
  · exact h.length_lt
  · exact h.reserved
  · rw [ho]
    exact h.owned

theorem Page.congr {s' : Heap} (h : Page s pg xs) (ho : s'.owned pg = s.owned pg)
    (he : ∀ y ∈ xs, s'.entries y = s.entries y) : Page s' pg xs where
  owned := ho.trans h.owned
  pos := h.pos
  tiles := h.tiles.congr he
  coalesced := h.coalesced.congr he
  reserved hxs := by
    rw [he _ (hxs ▸ List.mem_singleton_self _)]
    exact h.reserved hxs

theorem Page.pageOf_eq {y : Nat} (h : Page s pg xs) (hy : y ∈ xs) : pageOf y = pg := by
  obtain ⟨hentry, hle, hle'⟩ := h.tiles.mem hy
  have hlength := hentry.length_ge
  rw [pageOf, PAGE_SIZE]
  omega

/-- No large block starts in the hole. -/
theorem ValidExcept.large_eq_false (h : ValidExcept s L (pageOf x)) : L.large x = false := by
  rw [← Bool.not_eq_true]
  intro hlarge
  have hlength := (h.large x hlarge).length_ge
  exact h.largeHole ⟨x, hlarge, le_rfl, by omega⟩

theorem ValidExcept.place_eq_none (h : ValidExcept s L (pageOf x)) (hx : x ∉ L.tiles (pageOf x)) :
    place s L x = none := by
  rw [place, if_neg hx, h.large_eq_false]
  rfl

theorem LargeBlock.setTiles {y : Nat} (h : LargeBlock s L y)
    (hpg : ¬(pageOf y ≤ pg ∧ pg < pageOf y + (s.entries y).length / 4096)) (xs : List Nat) :
    LargeBlock s (L.setTiles pg xs) y where
  aligned := h.aligned
  pos := h.pos
  magic := h.magic
  length := h.length
  length_pos := h.length_pos
  length_lt := h.length_lt
  reserved := h.reserved
  owned := by
    intro pg' hle hlt
    refine ⟨(h.owned pg' hle hlt).1, ?_⟩
    rw [setTiles_tiles_of_ne]
    · exact (h.owned pg' hle hlt).2
    · rintro rfl
      exact hpg ⟨hle, hlt⟩

theorem place_setTiles_of_ne {y : Nat} (hy : y ∈ xs ↔ y ∈ L.tiles pg) :
    place s (L.setTiles pg xs) y = place s L y := by
  have hmem : y ∈ (L.setTiles pg xs).tiles (pageOf y) ↔ y ∈ L.tiles (pageOf y) := by
    rcases eq_or_ne (pageOf y) pg with hpg | hpg
    · rw [hpg, setTiles_tiles_self]
      exact hy
    · rw [setTiles_tiles_of_ne hpg]
  simp only [place, hmem]
  rfl

/-- The blocks of the hole change, together with the links. -/
theorem ValidExcept.setTiles (h : ValidExcept s L pg) {l : Links Node}
    (hl : Linked l heads (home { s with links := l } (L.setTiles pg xs))) :
    ValidExcept { s with links := l } (L.setTiles pg xs) pg where
  page := by
    intro pg' hne htiles
    rw [setTiles_tiles_of_ne hne] at htiles ⊢
    have hpage := h.page pg' hne htiles
    exact ⟨hpage.owned, hpage.pos, hpage.tiles, hpage.coalesced, hpage.reserved⟩
  large y hy := by
    have hblock := (h.large y hy).setTiles (fun hpg => h.largeHole ⟨y, hy, hpg⟩) xs
    exact ⟨hblock.aligned, hblock.pos, hblock.magic, hblock.length, hblock.length_pos,
      hblock.length_lt, hblock.reserved, hblock.owned⟩
  largeHole := h.largeHole
  disjoint := h.disjoint
  linked := hl
  covered := by
    intro pg' hne howned htiles
    rw [setTiles_tiles_of_ne hne] at htiles
    exact h.covered pg' hne howned htiles

theorem mem_heads_of_place {h : Node} (hplace : place s L x = some h) : h ∈ heads := by
  rw [place] at hplace
  split_ifs at hplace
  · cases hplace
    exact nofun
  · obtain ⟨c, -, rfl⟩ := Option.map_eq_some_iff.mp hplace
    exact nofun
  · cases hplace
    exact nofun

theorem entry_not_mem_heads (x : Nat) : Node.entry x ∉ heads := fun h => h x rfl

/-- The block `x` of the hole leaves its list. -/
theorem ValidExcept.unlink (h : ValidExcept s L (pageOf x))
    (htiles : L.tiles (pageOf x) = xs ++ x :: ys) (hx : x ∉ xs ++ ys) {node : Node}
    (hplace : place s L x = some node) :
    ValidExcept { s with links := s.links.remove (.entry x) }
      (L.setTiles (pageOf x) (xs ++ ys)) (pageOf x) := by
  apply h.setTiles
  refine (h.linked.remove (x := .entry x) (mem_heads_of_place hplace) hplace).congr ?_
    (fun _ _ => ⟨rfl, rfl⟩)
  rintro (_ | _ | _ | y) <;> try rfl
  rcases eq_or_ne y x with rfl | hyx
  · rw [Function.update_self]
    rw [home, place, setTiles_tiles_self, if_neg hx]
    exact if_neg (by simp [Layout.setTiles, h.large_eq_false])
  · rw [Function.update_of_ne (by simpa using hyx)]
    apply place_setTiles_of_ne
    rw [htiles]
    simp [hyx]

/-- The block `x` of the hole enters its list. -/
theorem ValidExcept.link (h : ValidExcept s L (pageOf x))
    (htiles : L.tiles (pageOf x) = xs ++ ys) (hx : x ∉ xs ++ ys) {node : Node}
    (hplace : place s (L.setTiles (pageOf x) (xs ++ x :: ys)) x = some node) :
    ValidExcept { s with links := s.links.addAfter node (.entry x) }
      (L.setTiles (pageOf x) (xs ++ x :: ys)) (pageOf x) := by
  apply h.setTiles
  have hnone : place s L x = none := h.place_eq_none (htiles ▸ hx)
  refine (h.linked.addAfter (x := .entry x) (mem_heads_of_place hplace)
    (entry_not_mem_heads x) hnone).congr ?_ (fun _ _ => ⟨rfl, rfl⟩)
  rintro (_ | _ | _ | y) <;> try rfl
  rcases eq_or_ne y x with rfl | hyx
  · rw [Function.update_self]
    exact hplace
  · rw [Function.update_of_ne (by simpa using hyx)]
    apply place_setTiles_of_ne
    rw [htiles]
    simp [hyx]

/-- The header `x` in the hole is written, without a consequence for its list. -/
theorem ValidExcept.write (h : ValidExcept s L (pageOf x)) {e : HeapEntry}
    (hplace : place { s with entries := Function.update s.entries x e } L x = place s L x) :
    ValidExcept { s with entries := Function.update s.entries x e } L (pageOf x) := by
  have hlarge : ∀ y, L.large y = true → Function.update s.entries x e y = s.entries y := by
    intro y hy
    apply Function.update_of_ne
    rintro rfl
    rw [h.large_eq_false] at hy
    cases hy
  have hin : ∀ pg, InLarge { s with entries := Function.update s.entries x e } L pg ↔
      InLarge s L pg := by
    intro pg
    refine exists_congr fun y => and_congr_right fun hy => ?_
    simp only [hlarge y hy]
  refine ⟨?_, ?_, ?_, ?_, ?_, ?_⟩
  · intro pg hne htiles
    have hpage := h.page pg hne htiles
    refine hpage.congr rfl fun y hy => Function.update_of_ne ?_ _ _
    rintro rfl
    exact hne (hpage.pageOf_eq hy).symm
  · intro y hy
    exact (h.large y hy).congr _ (hlarge y hy) rfl
  · rw [hin]
    exact h.largeHole
  · intro y z hy hz
    simp only [hlarge y hy]
    exact h.disjoint y z hy hz
  · refine h.linked.congr ?_ (fun _ _ => ⟨rfl, rfl⟩)
    rintro (_ | _ | _ | y) <;> try rfl
    rcases eq_or_ne y x with rfl | hyx
    · exact hplace
    · simp only [home, place, Function.update_of_ne hyx]
  · intro pg hne howned htiles
    rw [hin]
    exact h.covered pg hne howned htiles

end

/-- The blocks which are in use. -/
def Used (s : Heap) (L : Layout) (x : Nat) : Prop :=
  x ∈ L.tiles (pageOf x) ∧ (s.entries x).reserved = true ∨ L.large x = true

/-- The same blocks are in use, with the same headers. -/
structure SameUsed (s : Heap) (L : Layout) (s' : Heap) (L' : Layout) : Prop where
  used : ∀ x, Used s' L' x ↔ Used s L x
  entries : ∀ x, Used s L x → s'.entries x = s.entries x

theorem SameUsed.refl (s : Heap) (L : Layout) : SameUsed s L s L :=
  ⟨fun _ => Iff.rfl, fun _ _ => rfl⟩

theorem SameUsed.trans {s₁ s₂ s₃ : Heap} {L₁ L₂ L₃ : Layout} (h : SameUsed s₁ L₁ s₂ L₂)
    (h' : SameUsed s₂ L₂ s₃ L₃) : SameUsed s₁ L₁ s₃ L₃ where
  used x := (h'.used x).trans (h.used x)
  entries x hx := (h'.entries x ((h.used x).mpr hx)).trans (h.entries x hx)

/-- Blocks of one page which are free may come and go. -/
theorem sameUsed_setTiles {s : Heap} (s' : Heap) {L : Layout} {pg : Nat} {xs : List Nat}
    (hentries : ∀ x, Used s L x → s'.entries x = s.entries x)
    (hxs : ∀ x, pageOf x = pg → (x ∈ xs ∧ (s'.entries x).reserved = true ↔
      x ∈ L.tiles pg ∧ (s.entries x).reserved = true))
    (hother : ∀ x, pageOf x ≠ pg → s'.entries x = s.entries x) :
    SameUsed s L s' (L.setTiles pg xs) where
  used x := by
    rw [Used, Used]
    refine or_congr ?_ Iff.rfl
    rcases eq_or_ne (pageOf x) pg with hpg | hpg
    · rw [hpg, setTiles_tiles_self]
      exact hxs x hpg
    · rw [setTiles_tiles_of_ne hpg, hother x hpg]
  entries := hentries

/-- A page with the area `[x, x + length)`, which is in no list, between the blocks `xs` and `ys`. -/
structure Hole (s : Heap) (L : Layout) (pg : Nat) (xs : List Nat) (x length : Nat)
    (ys : List Nat) : Prop where
  valid : ValidExcept s L pg
  owned : s.owned pg = true
  pos : 0 < pg
  blocks : L.tiles pg = xs ++ ys
  before : Tiles s.entries (pg * 4096) xs x
  after : Tiles s.entries (x + length) ys (pg * 4096 + 4096)
  aligned : length % 16 = 0
  length_ge : 32 ≤ length
  coalescedBefore : Coalesced s.entries xs
  coalescedAfter : Coalesced s.entries ys

section

variable {s : Heap} {L : Layout} {pg x length : Nat} {xs ys : List Nat}

theorem check_eq_ok {p : Bool} (h : p = true) : check p = .ok () := if_pos h

theorem readEntry_eq_ok (h : s.owned (pageOf x) = true) : readEntry s x = .ok (s.entries x) :=
  if_pos h

theorem pageOf_eq_iff : pageOf x = pg ↔ pg * 4096 ≤ x ∧ x < pg * 4096 + 4096 := by
  rw [pageOf, PAGE_SIZE]
  omega

theorem Hole.bounds (h : Hole s L pg xs x length ys) :
    pg * 4096 ≤ x ∧ x + length ≤ pg * 4096 + 4096 := by
  have hbefore := h.before.le
  have hafter := h.after.le
  omega

theorem Hole.pageOf_eq (h : Hole s L pg xs x length ys) : pageOf x = pg := by
  have hbounds := h.bounds
  have hlength := h.length_ge
  rw [pageOf_eq_iff]
  omega

theorem Hole.aligned_start (h : Hole s L pg xs x length ys) : x % 16 = 0 :=
  (h.before.aligned (by omega)).1

theorem Hole.mem_before (h : Hole s L pg xs x length ys) {y : Nat} (hy : y ∈ xs) :
    SmallEntry (s.entries y) ∧ pageOf y = pg ∧ y + (s.entries y).length ≤ x := by
  obtain ⟨hentry, hle, hle'⟩ := h.before.mem hy
  have hbounds := h.bounds
  have hlength := h.length_ge
  have hlength' := hentry.length_ge
  exact ⟨hentry, pageOf_eq_iff.mpr (by omega), hle'⟩

theorem Hole.mem_after (h : Hole s L pg xs x length ys) {y : Nat} (hy : y ∈ ys) :
    SmallEntry (s.entries y) ∧ pageOf y = pg ∧ x + length ≤ y := by
  obtain ⟨hentry, hle, hle'⟩ := h.after.mem hy
  have hbounds := h.bounds
  have hlength := h.length_ge
  have hlength' := hentry.length_ge
  exact ⟨hentry, pageOf_eq_iff.mpr (by omega), hle⟩

theorem Hole.not_mem (h : Hole s L pg xs x length ys) : x ∉ xs ++ ys := by
  intro hx
  rcases List.mem_append.mp hx with hx | hx
  · obtain ⟨hentry, -, hle⟩ := h.mem_before hx
    have hlength := hentry.length_ge
    omega
  · obtain ⟨-, -, hle⟩ := h.mem_after hx
    have hlength := h.length_ge
    omega

theorem SmallEntry.checks {e : HeapEntry} (h : SmallEntry e) :
    check (e.heapMagic = SMALL_HEAP_MAGIC) = .ok () ∧
      check (e.length % HEAP_ALIGN_SIZE = 0) = .ok () :=
  ⟨check_eq_ok (decide_eq_true h.magic), check_eq_ok (decide_eq_true h.aligned)⟩

/-- The walk over the blocks in front of `x` ends at the last one of them. -/
theorem smallWalk_eq {a fuel : Nat} (htiles : Tiles s.entries a xs x)
    (howned : ∀ y ∈ xs, s.owned (pageOf y) = true) (hfuel : xs.length < fuel) :
    smallWalk s x fuel a = .ok (xs.getLast?.getD x) := by
  induction xs generalizing a fuel with
  | nil =>
      obtain rfl : a = x := htiles
      obtain ⟨fuel, rfl⟩ : ∃ k, fuel = k + 1 := ⟨fuel - 1, by omega⟩
      rw [smallWalk, if_neg (Nat.lt_irrefl a), check_eq_ok (by simp)]
      rfl
  | cons y ys ih =>
      obtain ⟨rfl, hentry, hrest⟩ := htiles
      obtain ⟨fuel, rfl⟩ : ∃ k, fuel = k + 1 := ⟨fuel - 1, by omega⟩
      have hlength := hentry.length_ge
      have hle := hrest.le
      obtain ⟨hmagic, halign⟩ := hentry.checks
      rw [smallWalk, if_pos (by omega), readEntry_eq_ok (howned y List.mem_cons_self)]
      simp only [bind, Except.bind, hmagic, halign]
      split_ifs with hlast
      · obtain rfl : ys = [] := List.eq_nil_of_length_eq_zero (by omega)
        rfl
      · cases ys with
        | nil => exact absurd (Nat.le_of_eq hrest.symm) hlast
        | cons z zs =>
            rw [ih hrest (fun w hw => howned w (List.mem_cons_of_mem y hw))
              (by simpa using hfuel)]
            rw [List.getLast?_cons_cons]

theorem Hole.smallGetPreviousHeap_eq (h : Hole s L pg xs x length ys) :
    smallGetPreviousHeap s x = .ok (xs.getLast?.getD x) := by
  rw [smallGetPreviousHeap, h.pageOf_eq]
  apply smallWalk_eq h.before
  · intro y hy
    rw [(h.mem_before hy).2.1]
    exact h.owned
  · have hle := h.before.le
    have hbounds := h.bounds
    simp only [PAGE_SIZE, HEAP_ALIGN_SIZE]
    omega

theorem smallGetNextHeap_eq (hpage : pageOf x = pg) (howned : s.owned pg = true)
    (hafter : Tiles s.entries (x + length) ys (pg * 4096 + 4096)) :
    smallGetNextHeap s x length = .ok ys.head? := by
  rw [smallGetNextHeap, hpage]
  cases ys with
  | nil =>
      have hend : x + length = pg * 4096 + 4096 := hafter
      rw [if_pos (by simp [PAGE_SIZE, hend])]
      rfl
  | cons y ys =>
      obtain ⟨rfl, hentry, hrest⟩ := hafter
      have hlength := hentry.length_ge
      have hle := hrest.le
      have hpage' : pageOf (x + length) = pg := by
        have hbounds := pageOf_eq_iff.mp hpage
        exact pageOf_eq_iff.mpr (by omega)
      obtain ⟨hmagic, halign⟩ := hentry.checks
      rw [if_neg (by simp only [PAGE_SIZE]; omega), readEntry_eq_ok (hpage'.symm ▸ howned)]
      simp only [bind, Except.bind, hmagic, halign]
      rfl

theorem place_eq_unused {e : HeapEntry} (hx : x ∈ L.tiles (pageOf x)) (he : s.entries x = e)
    (hlength : 32 ≤ e.length) (hfree : e.reserved = false) :
    ∃ c, unusedClass e.length = some c ∧ place s L x = some (.smallUnusedHeap c) := by
  have hclass : ∃ c, unusedClass e.length = some c := by
    simp only [unusedClass]
    split_ifs <;> simp
  obtain ⟨c, hc⟩ := hclass
  refine ⟨c, hc, ?_⟩
  rw [place, if_pos hx, he, hfree, hc]
  rfl

theorem sameUsed_unlink {l : Links Node} (hpage : pageOf x = pg)
    (htiles : L.tiles (pageOf x) = xs ++ x :: ys) (hfree : (s.entries x).reserved = false) :
    SameUsed s L { s with links := l } (L.setTiles pg (xs ++ ys)) := by
  refine sameUsed_setTiles { s with links := l } (fun _ _ => rfl) ?_ (fun _ _ => rfl)
  intro y _
  rw [← hpage, htiles]
  rcases eq_or_ne y x with rfl | hyx
  · simp [hfree]
  · simp [hyx]

/-- Merge with the last block in front of the area. -/
theorem Hole.mergePrevious_eq (h : Hole s L pg xs x length ys)
    (hself : xs = [] → (s.entries x).reserved = true) :
    ∃ s' L' xs' x' length', mergePrevious s x length = .ok (s', x', length') ∧
      Hole s' L' pg xs' x' length' ys ∧ SameUsed s L s' L' ∧
      ∀ y ∈ xs'.getLast?, (s'.entries y).reserved = true := by
  rw [mergePrevious, h.smallGetPreviousHeap_eq]
  rcases List.eq_nil_or_concat' xs with rfl | ⟨zs, z, rfl⟩
  · refine ⟨s, L, [], x, length, ?_, h, SameUsed.refl s L, by simp⟩
    simp only [List.getLast?_nil, Option.getD_none, bind, Except.bind]
    rw [readEntry_eq_ok (h.pageOf_eq.symm ▸ h.owned)]
    simp only [hself rfl]
    rfl
  · obtain ⟨hentry, hpage, hle⟩ := h.mem_before (y := z) (by simp)
    simp only [List.getLast?_append, List.getLast?_singleton, Option.some_or, Option.getD_some,
      bind, Except.bind]
    rw [readEntry_eq_ok (hpage.symm ▸ h.owned)]
    cases hreserved : (s.entries z).reserved with
    | true =>
        refine ⟨s, L, zs ++ [z], x, length, by simp only [hreserved]; rfl, h,
          SameUsed.refl s L, ?_⟩
        simpa using hreserved
    | false =>
        obtain ⟨b, hzs, rfl, -, hend⟩ := tiles_append.mp h.before
        have hend : z + (s.entries z).length = x := hend
        have hblocks : L.tiles (pageOf z) = zs ++ z :: ys := by
          rw [hpage, h.blocks, List.append_assoc]
          rfl
        obtain ⟨c, -, hplace⟩ := place_eq_unused (s := s) (L := L) (x := z)
          (by simp [hblocks]) rfl hentry.length_ge hreserved
        have hnot : z ∉ zs ++ ys := by
          intro hz
          rcases List.mem_append.mp hz with hz | hz
          · have hlength := hentry.length_ge
            have hmem := (hzs.mem hz).2.2
            omega
          · have hlength := h.length_ge
            have hmem := (h.mem_after hz).2.2
            omega
        have hunlink := ValidExcept.unlink (hpage.symm ▸ h.valid) hblocks hnot hplace
        rw [hpage] at hunlink
        obtain ⟨hchain, -, hlast⟩ := List.isChain_append.mp h.coalescedBefore
        refine ⟨_, _, zs, z, x + length - z, by simp only [hreserved]; rfl,
          ⟨hunlink, h.owned, h.pos, setTiles_tiles_self .., hzs, ?_, ?_, ?_, hchain,
            h.coalescedAfter⟩, sameUsed_unlink hpage hblocks hreserved, ?_⟩
        · rw [show z + (x + length - z) = x + length by omega]
          exact h.after
        · have halign := hentry.aligned
          have halign' := h.aligned
          omega
        · have hlength := h.length_ge
          omega
        · intro y hy
          refine (hlast y hy z (by simp)).resolve_right ?_
          rw [hreserved]
          exact Bool.false_ne_true

/-- Merge with the first block behind the area. -/
theorem Hole.mergeNext_eq (h : Hole s L pg xs x length ys) :
    ∃ s' L' length' ys', mergeNext s x length = .ok (s', length') ∧
      Hole s' L' pg xs x length' ys' ∧ SameUsed s L s' L' ∧ s'.entries = s.entries ∧
      ∀ y ∈ ys'.head?, (s'.entries y).reserved = true := by
  rw [mergeNext, smallGetNextHeap_eq h.pageOf_eq h.owned h.after]
  cases ys with
  | nil => exact ⟨s, L, length, [], rfl, h, SameUsed.refl s L, rfl, by simp⟩
  | cons z zs =>
      obtain ⟨hentry, hpage, hle⟩ := h.mem_after (y := z) List.mem_cons_self
      simp only [List.head?_cons, bind, Except.bind]
      rw [readEntry_eq_ok (hpage.symm ▸ h.owned)]
      cases hreserved : (s.entries z).reserved with
      | true =>
          refine ⟨s, L, length, z :: zs, by simp only [hreserved]; rfl, h, SameUsed.refl s L,
            rfl, ?_⟩
          simpa using hreserved
      | false =>
          obtain ⟨hz, -, hzs⟩ := h.after
          have hblocks : L.tiles (pageOf z) = xs ++ z :: zs := by
            rw [hpage, h.blocks]
          obtain ⟨c, -, hplace⟩ := place_eq_unused (s := s) (L := L) (x := z)
            (by simp [hblocks]) rfl hentry.length_ge hreserved
          have hnot : z ∉ xs ++ zs := by
            intro hmem
            have hlength := hentry.length_ge
            rcases List.mem_append.mp hmem with hmem | hmem
            · have hend := (h.mem_before hmem).2.2
              have hlength' := (h.mem_before hmem).1.length_ge
              omega
            · have hend := (hzs.mem hmem).2.1
              omega
          have hunlink := ValidExcept.unlink (hpage.symm ▸ h.valid) hblocks hnot hplace
          rw [hpage] at hunlink
          obtain ⟨hhead, hchain⟩ := List.isChain_cons.mp h.coalescedAfter
          have hlength := h.length_ge
          have halign := hentry.aligned
          have halign' := h.aligned
          refine ⟨_, _, z + (s.entries z).length - x, zs, by simp only [hreserved]; rfl,
            ⟨hunlink, h.owned, h.pos, setTiles_tiles_self .., h.before, ?_, by omega, by omega,
              h.coalescedBefore, hchain⟩, sameUsed_unlink hpage hblocks hreserved, rfl, ?_⟩
          · rw [show x + (z + (s.entries z).length - x) = z + (s.entries z).length by omega]
            exact hzs
          · intro y hy
            refine (hhead y hy).resolve_left ?_
            rw [hreserved]
            exact Bool.false_ne_true

theorem writeEntry_eq_ok {e : HeapEntry} (h : s.owned (pageOf x) = true) :
    writeEntry s x e = .ok { s with entries := Function.update s.entries x e } :=
  if_pos h

/-- The area becomes a free block, or the page is given back. -/
theorem Hole.smallQueueUnusedHeap_eq (h : Hole s L pg xs x length ys)
    (hbefore : ∀ y ∈ xs.getLast?, (s.entries y).reserved = true)
    (hafter : ∀ y ∈ ys.head?, (s.entries y).reserved = true) :
    ∃ s' L', smallQueueUnusedHeap s x length = .ok s' ∧ Valid s' L' ∧ SameUsed s L s' L' := by
  rw [smallQueueUnusedHeap]
  split_ifs with hwhole
  · -- the area is the whole page
    simp only [PAGE_SIZE] at hwhole
    have hbounds := h.bounds
    have hx : x = pg * 4096 := by omega
    have hxs : xs = [] := by
      have hle := h.before.le
      exact List.eq_nil_of_length_eq_zero (by omega)
    have hys : ys = [] := by
      have hle := h.after.le
      exact List.eq_nil_of_length_eq_zero (by omega)
    have hblocks : L.tiles pg = [] := by
      rw [h.blocks, hxs, hys]
      rfl
    have howned : ∀ pg', pg' ≠ pg → (pagingReleasePhysMem s x 1).owned pg' = s.owned pg' := by
      intro pg' hne
      rw [pagingReleasePhysMem, h.pageOf_eq]
      exact if_neg (by omega)
    refine ⟨_, L, rfl, ⟨⟨?_, ?_, h.valid.disjoint, h.valid.linked⟩, ?_⟩, fun _ => Iff.rfl,
      fun _ _ => rfl⟩
    · intro pg' htiles
      have hne : pg' ≠ pg := by
        rintro rfl
        exact htiles hblocks
      exact (h.valid.page pg' hne htiles).congr (howned pg' hne) fun _ _ => rfl
    · intro y hy
      have hblock := h.valid.large y hy
      refine ⟨hblock.aligned, hblock.pos, hblock.magic, hblock.length, hblock.length_pos,
        hblock.length_lt, hblock.reserved, ?_⟩
      intro pg' hle hlt
      rw [howned]
      · exact hblock.owned pg' hle hlt
      · rintro rfl
        exact h.valid.largeHole ⟨y, hy, hle, hlt⟩
    · intro pg' howned' htiles
      have hne : pg' ≠ pg := by
        rintro rfl
        rw [pagingReleasePhysMem, h.pageOf_eq] at howned'
        simp [Heap.setOwned] at howned'
      rw [howned pg' hne] at howned'
      exact h.valid.covered pg' hne howned' htiles
  · have hpage := h.pageOf_eq
    have hlength := h.length_ge
    have hnot := h.not_mem
    let e : HeapEntry := { heapMagic := SMALL_HEAP_MAGIC, length := length, reserved := false }
    let s₁ : Heap := { s with entries := Function.update s.entries x e }
    have hself : s₁.entries x = e := Function.update_self ..
    have hsame : ∀ y, y ≠ x → s₁.entries y = s.entries y :=
      fun y hy => Function.update_of_ne hy _ _
    have hne : ∀ y ∈ xs ++ ys, y ≠ x := by
      rintro y hy rfl
      exact hnot hy
    obtain ⟨c, hc, hplace⟩ := place_eq_unused (s := s₁)
      (L := L.setTiles (pageOf x) (xs ++ x :: ys)) (x := x) (by simp [setTiles_tiles_self]) hself
      hlength rfl
    have hwrite : ValidExcept s₁ L (pageOf x) := by
      apply ValidExcept.write (hpage.symm ▸ h.valid)
      have hx : x ∉ L.tiles (pageOf x) := by
        rw [hpage, h.blocks]
        exact hnot
      rw [place, place, if_neg hx, if_neg hx]
    have hlink := hwrite.link (by rw [hpage, h.blocks]) hnot hplace
    rw [hpage] at hlink
    have hc : unusedClass length = some c := hc
    refine ⟨{ s₁ with links := s₁.links.addAfter (.smallUnusedHeap c) (.entry x) },
      L.setTiles pg (xs ++ x :: ys), ?_, hlink.valid (by simp [setTiles_tiles_self]) ?_, ?_⟩
    · simp only [hc]
      rw [writeEntry_eq_ok (hpage.symm ▸ h.owned)]
      rfl
    · rw [setTiles_tiles_self]
      refine ⟨h.owned, h.pos, ?_, ?_, ?_⟩
      · refine tiles_append.mpr ⟨x, h.before.congr fun y hy => hsame y (hne y (by simp [hy])),
          rfl, ⟨?_, ?_, ?_⟩, ?_⟩
        · exact congrArg HeapEntry.heapMagic hself
        · rw [show (s₁.entries x).length = length from congrArg HeapEntry.length hself]
          exact h.aligned
        · rw [show (s₁.entries x).length = length from congrArg HeapEntry.length hself]
          exact hlength
        · change Tiles s₁.entries (x + (s₁.entries x).length) ys _
          rw [hself]
          exact h.after.congr fun y hy => hsame y (hne y (by simp [hy]))
      · refine List.isChain_append.mpr ⟨?_, List.isChain_cons.mpr ⟨?_, ?_⟩, ?_⟩
        · exact h.coalescedBefore.congr fun y hy => hsame y (hne y (by simp [hy]))
        · intro y hy
          right
          have hy' : y ∈ ys := List.mem_of_mem_head? hy
          change (s₁.entries y).reserved = true
          rw [hsame y (hne y (by simp [hy']))]
          exact hafter y hy
        · exact h.coalescedAfter.congr fun y hy => hsame y (hne y (by simp [hy]))
        · intro y hy z hz
          left
          have hy' : y ∈ xs := List.mem_of_mem_getLast? hy
          change (s₁.entries y).reserved = true
          rw [hsame y (hne y (by simp [hy']))]
          exact hbefore y hy
      · intro hsingle
        exfalso
        apply hwhole
        have hbounds := h.before
        have hend := h.after
        cases xs with
        | nil =>
            simp only [List.nil_append, List.cons.injEq] at hsingle
            rw [hsingle.2] at hend
            simp only [Tiles] at hend
            simp only [PAGE_SIZE]
            omega
        | cons y xs => simp at hsingle
    · apply sameUsed_setTiles
      · intro y hy
        apply hsame
        rintro rfl
        rcases hy with ⟨hmem, -⟩ | hlarge
        · rw [hpage, h.blocks] at hmem
          exact hnot hmem
        · rw [hwrite.large_eq_false] at hlarge
          cases hlarge
      · intro y hy
        rw [h.blocks]
        rcases eq_or_ne y x with rfl | hyx
        · simp only [hnot, false_and, iff_false, not_and]
          intro _
          rw [hself]
          exact Bool.false_ne_true
        · change _ ∧ (s₁.entries y).reserved = true ↔ _
          rw [hsame y hyx]
          simp [hyx]
      · intro y hy
        apply hsame
        rintro rfl
        exact hy hpage

theorem Hole.smallInternalFree_eq (h : Hole s L pg xs x length ys)
    (hself : xs = [] → (s.entries x).reserved = true) :
    ∃ s' L', smallInternalFree s x length = .ok s' ∧ Valid s' L' ∧ SameUsed s L s' L' := by
  obtain ⟨s₁, L₁, xs₁, x₁, length₁, hprev, h₁, hsame₁, hbefore⟩ := h.mergePrevious_eq hself
  obtain ⟨s₂, L₂, length₂, ys₂, hnext, h₂, hsame₂, hentries, hafter⟩ := h₁.mergeNext_eq
  obtain ⟨s₃, L₃, hqueue, hvalid, hsame₃⟩ :=
    h₂.smallQueueUnusedHeap_eq (hentries ▸ hbefore) hafter
  refine ⟨s₃, L₃, ?_, hvalid, (hsame₁.trans hsame₂).trans hsame₃⟩
  have hlength : length % 16 = 0 ∧ 0 < length := ⟨h.aligned, by have := h.length_ge; omega⟩
  exact bind_eq_ok.mpr ⟨(), check_eq_ok (decide_eq_true h.aligned_start),
    bind_eq_ok.mpr ⟨(), check_eq_ok (decide_eq_true hlength),
      bind_eq_ok.mpr ⟨_, hprev, bind_eq_ok.mpr ⟨_, hnext, hqueue⟩⟩⟩⟩

end

end Ibnos.HeapLayout
