import Ibnos.HeapLayout

/-!
What the operations on small blocks do to the layout of the heap.
-/

namespace Ibnos.HeapOperations

open Ibnos.Allocator
open Ibnos.HeapLayout
open Ibnos.LinkedLists
open Ibnos.Runs

/-- The block `x` is not in use anymore. -/
structure Freed (s : Heap) (L : Layout) (x : Nat) (s' : Heap) (L' : Layout) : Prop where
  used : ∀ y, Used s' L' y ↔ Used s L y ∧ y ≠ x
  entries : ∀ y, Used s L y → y ≠ x → s'.entries y = s.entries y

/-- The block `x` is in use now. -/
structure Allocated (s : Heap) (L : Layout) (x : Nat) (s' : Heap) (L' : Layout) : Prop where
  unused : ¬Used s L x
  used : ∀ y, Used s' L' y ↔ Used s L y ∨ y = x
  entries : ∀ y, Used s L y → s'.entries y = s.entries y

section

variable {s s' s'' : Heap} {L L' L'' : Layout} {pg x : Nat} {xs ys : List Nat}

theorem Freed.trans_same (h : Freed s L x s' L') (h' : SameUsed s' L' s'' L'') :
    Freed s L x s'' L'' where
  used y := (h'.used y).trans (h.used y)
  entries y hy hyx := (h'.entries y ((h.used y).mpr ⟨hy, hyx⟩)).trans (h.entries y hy hyx)

theorem Allocated.trans_same (h : Allocated s L x s' L') (h' : SameUsed s' L' s'' L'') :
    Allocated s L x s'' L'' where
  unused := h.unused
  used y := (h'.used y).trans (h.used y)
  entries y hy := (h'.entries y ((h.used y).mpr (Or.inl hy))).trans (h.entries y hy)

theorem Allocated.same_trans (h : SameUsed s L s' L') (h' : Allocated s' L' x s'' L'') :
    Allocated s L x s'' L'' where
  unused hx := h'.unused ((h.used x).mpr hx)
  used y := (h'.used y).trans (or_congr (h.used y) Iff.rfl)
  entries y hy := (h'.entries y ((h.used y).mpr hy)).trans (h.entries y hy)

/-- A page which is cut at one of its blocks. -/
theorem page_split (h : Page s pg (xs ++ x :: ys)) :
    Tiles s.entries (pg * 4096) xs x ∧ SmallEntry (s.entries x) ∧
      Tiles s.entries (x + (s.entries x).length) ys (pg * 4096 + 4096) ∧
      Coalesced s.entries xs ∧ Coalesced s.entries ys := by
  obtain ⟨b, hbefore, rfl, hentry, hafter⟩ := tiles_append.mp h.tiles
  obtain ⟨hxs, hys, -⟩ := List.isChain_append.mp h.coalesced
  exact ⟨hbefore, hentry, hafter, hxs, (List.isChain_cons.mp hys).2⟩

theorem not_mem_of_page (h : Page s pg (xs ++ x :: ys)) : x ∉ xs ++ ys := by
  obtain ⟨hbefore, hentry, hafter, -, -⟩ := page_split h
  have hlength := hentry.length_ge
  intro hx
  rcases List.mem_append.mp hx with hx | hx
  · obtain ⟨hentry', -, hle⟩ := hbefore.mem hx
    have hlength' := hentry'.length_ge
    omega
  · obtain ⟨-, hle, -⟩ := hafter.mem hx
    omega

/-- A block which leaves its list is a hole of its page. -/
theorem hole_of_unlink (h : Valid s L) (htiles : L.tiles (pageOf x) = xs ++ x :: ys) {node : Node}
    (hplace : place s L x = some node) :
    Hole { s with links := s.links.remove (.entry x) } (L.setTiles (pageOf x) (xs ++ ys))
      (pageOf x) xs x (s.entries x).length ys := by
  have hne : L.tiles (pageOf x) ≠ [] := by simp [htiles]
  have hpage := h.page _ hne
  rw [htiles] at hpage
  obtain ⟨hbefore, hentry, hafter, hxs, hys⟩ := page_split hpage
  exact ⟨(h.except hne).unlink htiles (not_mem_of_page hpage) hplace, hpage.owned, hpage.pos,
    setTiles_tiles_self .., hbefore, hafter, hentry.aligned, hentry.length_ge, hxs, hys⟩

theorem not_large_of_mem (h : Valid s L) (hx : x ∈ L.tiles (pageOf x)) : L.large x = false :=
  (h.except (List.ne_nil_of_mem hx)).large_eq_false

theorem freed_of_unlink (h : Valid s L) (htiles : L.tiles (pageOf x) = xs ++ x :: ys)
    {l : Links Node} :
    Freed s L x { s with links := l } (L.setTiles (pageOf x) (xs ++ ys)) := by
  have hx : x ∈ L.tiles (pageOf x) := by simp [htiles]
  have hpage := h.page _ (List.ne_nil_of_mem hx)
  rw [htiles] at hpage
  refine ⟨?_, fun _ _ _ => rfl⟩
  intro y
  rw [Used, Used]
  rcases eq_or_ne y x with rfl | hyx
  · simp [not_mem_of_page hpage, Layout.setTiles, not_large_of_mem h hx]
  · rcases eq_or_ne (pageOf y) (pageOf x) with hpg | hpg
    · rw [hpg, setTiles_tiles_self, htiles]
      simp [hyx, Layout.setTiles]
    · rw [setTiles_tiles_of_ne hpg]
      simp [hyx, Layout.setTiles]

theorem smallFree_eq (h : Valid s L) (hx : x ∈ L.tiles (pageOf x))
    (hreserved : (s.entries x).reserved = true) :
    ∃ s' L', smallFree s x = .ok s' ∧ Valid s' L' ∧ Freed s L x s' L' := by
  obtain ⟨xs, ys, htiles⟩ := List.append_of_mem hx
  have hpage := h.page _ (List.ne_nil_of_mem hx)
  have hentry := (hpage.tiles.mem hx).1
  have hplace : place s L x = some .smallHeap := by
    rw [place, if_pos hx, if_pos hreserved]
  have hole := hole_of_unlink h htiles hplace
  obtain ⟨s', L', hfree, hvalid, hsame⟩ := hole.smallInternalFree_eq fun _ => hreserved
  refine ⟨s', L', ?_, hvalid, (freed_of_unlink h htiles).trans_same hsame⟩
  exact bind_eq_ok.mpr ⟨_, readEntry_eq_ok hpage.owned,
    bind_eq_ok.mpr ⟨(), hentry.checks.1, bind_eq_ok.mpr ⟨(), hentry.checks.2,
      bind_eq_ok.mpr ⟨(), check_eq_ok hreserved, hfree⟩⟩⟩⟩

/-- The block `x`, which is in use, spans `length` bytes of its page, whatever its
header says about that. -/
structure Span (s : Heap) (L : Layout) (pg : Nat) (xs : List Nat) (x length : Nat)
    (ys : List Nat) : Prop where
  valid : ValidExcept s L pg
  owned : s.owned pg = true
  pos : 0 < pg
  blocks : L.tiles pg = xs ++ x :: ys
  before : Tiles s.entries (pg * 4096) xs x
  after : Tiles s.entries (x + length) ys (pg * 4096 + 4096)
  reserved : (s.entries x).reserved = true
  aligned : length % 16 = 0
  length_ge : 32 ≤ length
  coalescedBefore : Coalesced s.entries xs
  coalescedAfter : Coalesced s.entries ys

theorem Span.before_block {length : Nat} (h : Span s L pg xs x length ys)
    (hentry : SmallEntry (s.entries x)) :
    Tiles s.entries (pg * 4096) (xs ++ [x]) (x + (s.entries x).length) ∧
      Coalesced s.entries (xs ++ [x]) := by
  refine ⟨tiles_append.mpr ⟨x, h.before, rfl, hentry, rfl⟩,
    List.isChain_append.mpr ⟨h.coalescedBefore, List.isChain_singleton x, ?_⟩⟩
  intro y _ z hz
  obtain rfl : x = z := by simpa using hz
  exact Or.inr h.reserved

/-- A block which spans what its header says. -/
theorem Span.valid_of_length {length : Nat} (h : Span s L pg xs x length ys)
    (hentry : SmallEntry (s.entries x)) (hlength : (s.entries x).length = length) : Valid s L := by
  obtain ⟨hbefore, hcoalesced⟩ := h.before_block hentry
  rw [hlength] at hbefore
  refine h.valid.valid (by simp [h.blocks]) ?_
  rw [h.blocks]
  refine ⟨h.owned, h.pos, ?_, ?_, ?_⟩
  · rw [show xs ++ x :: ys = (xs ++ [x]) ++ ys by simp]
    exact tiles_append.mpr ⟨_, hbefore, h.after⟩
  · rw [show xs ++ x :: ys = (xs ++ [x]) ++ ys by simp]
    refine List.isChain_append.mpr ⟨hcoalesced, h.coalescedAfter, ?_⟩
    intro y hy z _
    obtain rfl : x = y := by simpa using hy
    exact Or.inl h.reserved
  · intro hsingle
    have hx : x = pg * 4096 := by
      have hmem : x ∈ xs ++ x :: ys := by simp
      rw [hsingle] at hmem
      simpa using hmem
    rw [← hx]
    exact h.reserved

/-- What is left behind a block is a hole. -/
theorem Span.hole {orig : Nat} (h : Span s L pg xs x orig ys)
    (hentry : SmallEntry (s.entries x)) (hrest : (s.entries x).length + 32 ≤ orig) :
    Hole s L pg (xs ++ [x]) (x + (s.entries x).length) (orig - (s.entries x).length) ys := by
  obtain ⟨hbefore, hcoalesced⟩ := h.before_block hentry
  have halign := hentry.aligned
  have halign' := h.aligned
  refine ⟨h.valid, h.owned, h.pos, by rw [h.blocks, List.append_assoc]; rfl, hbefore, ?_, by omega,
    by omega, hcoalesced, h.coalescedAfter⟩
  rw [show x + (s.entries x).length + (orig - (s.entries x).length) = x + orig by omega]
  exact h.after

theorem Span.smallReturnRest_eq {orig : Nat} (h : Span s L pg xs x orig ys) (length : Nat)
    (hentry : SmallEntry (s.entries x)) (hlength : (s.entries x).length = length)
    (hrest : length = orig ∨ length + 32 ≤ orig) :
    ∃ s' L', smallReturnRest s x length orig = .ok s' ∧ Valid s' L' ∧ SameUsed s L s' L' := by
  subst hlength
  rw [smallReturnRest]
  split_ifs with hlt
  · exact (h.hole hentry (by omega)).smallInternalFree_eq (by simp)
  · exact ⟨s, L, rfl, h.valid_of_length hentry (by omega), SameUsed.refl s L⟩

/-- The header of a block in use. -/
def usedEntry (length : Nat) : HeapEntry :=
  { heapMagic := SMALL_HEAP_MAGIC, length := length, reserved := true }

theorem Span.bounds {length : Nat} (h : Span s L pg xs x length ys) :
    pg * 4096 ≤ x ∧ x + length ≤ pg * 4096 + 4096 := by
  have hbefore := h.before.le
  have hafter := h.after.le
  omega

theorem Span.pageOf_eq {length : Nat} (h : Span s L pg xs x length ys) : pageOf x = pg := by
  have hbounds := h.bounds
  have hlength := h.length_ge
  rw [pageOf_eq_iff]
  omega

theorem Span.ne {length : Nat} (h : Span s L pg xs x length ys) {y : Nat} (hy : y ∈ xs ++ ys) :
    y ≠ x := by
  have hlength := h.length_ge
  rintro rfl
  rcases List.mem_append.mp hy with hy | hy
  · obtain ⟨hentry, -, hle⟩ := h.before.mem hy
    have hlength' := hentry.length_ge
    omega
  · obtain ⟨-, hle, -⟩ := h.after.mem hy
    omega

/-- The header of the block is written. -/
theorem Span.write {orig : Nat} (h : Span s L pg xs x orig ys) (length : Nat) :
    Span { s with entries := Function.update s.entries x (usedEntry length) } L pg xs x orig ys ∧
      ∀ y, Used { s with entries := Function.update s.entries x (usedEntry length) } L y ↔
        Used s L y := by
  have hpage := h.pageOf_eq
  have hother : ∀ y ∈ xs ++ ys, Function.update s.entries x (usedEntry length) y = s.entries y :=
    fun y hy => Function.update_of_ne (h.ne hy) _ _
  have hmem : x ∈ L.tiles (pageOf x) := by simp [hpage, h.blocks]
  refine ⟨⟨?_, h.owned, h.pos, h.blocks, ?_, ?_, ?_, h.aligned, h.length_ge, ?_, ?_⟩, ?_⟩
  · rw [← hpage]
    apply ValidExcept.write (hpage.symm ▸ h.valid)
    rw [place, place, if_pos hmem, if_pos hmem, if_pos h.reserved]
    simp [usedEntry]
  · exact h.before.congr fun y hy => hother y (by simp [hy])
  · exact h.after.congr fun y hy => hother y (by simp [hy])
  · simp [usedEntry]
  · exact h.coalescedBefore.congr fun y hy => hother y (by simp [hy])
  · exact h.coalescedAfter.congr fun y hy => hother y (by simp [hy])
  · intro y
    rw [Used, Used]
    rcases eq_or_ne y x with rfl | hyx
    · simp [usedEntry, h.reserved]
    · simp [hyx]

/-- The area of a hole becomes a block which is in use. -/
theorem hole_reserve {orig : Nat} (h : Hole s L pg xs x orig ys) (length : Nat) :
    Span { s with
        entries := Function.update s.entries x (usedEntry length)
        links := s.links.addAfter .smallHeap (.entry x) }
      (L.setTiles pg (xs ++ x :: ys)) pg xs x orig ys ∧
    Allocated s L x { s with
        entries := Function.update s.entries x (usedEntry length)
        links := s.links.addAfter .smallHeap (.entry x) }
      (L.setTiles pg (xs ++ x :: ys)) := by
  have hpage := h.pageOf_eq
  have hnot := h.not_mem
  let s₁ : Heap := { s with entries := Function.update s.entries x (usedEntry length) }
  have hother : ∀ y, y ≠ x → s₁.entries y = s.entries y :=
    fun y hy => Function.update_of_ne hy _ _
  have hne : ∀ y ∈ xs ++ ys, y ≠ x := by
    rintro y hy rfl
    exact hnot hy
  have hself : s₁.entries x = usedEntry length := Function.update_self ..
  have hx : x ∉ L.tiles (pageOf x) := by
    rw [hpage, h.blocks]
    exact hnot
  have hwrite : ValidExcept s₁ L (pageOf x) := by
    apply ValidExcept.write (hpage.symm ▸ h.valid)
    rw [place, place, if_neg hx, if_neg hx]
  have hplace : place s₁ (L.setTiles (pageOf x) (xs ++ x :: ys)) x = some .smallHeap := by
    rw [place, setTiles_tiles_self, if_pos (by simp), hself]
    rfl
  have hlink := hwrite.link (by rw [hpage, h.blocks]) hnot hplace
  rw [hpage] at hlink
  have hunused : ¬Used s L x := by
    rintro (⟨hmem, -⟩ | hlarge)
    · exact hx hmem
    · rw [hwrite.large_eq_false] at hlarge
      cases hlarge
  refine ⟨⟨hlink, h.owned, h.pos, setTiles_tiles_self .., ?_, ?_, ?_, h.aligned, h.length_ge,
    ?_, ?_⟩, hunused, ?_, ?_⟩
  · exact h.before.congr fun y hy => hother y (hne y (by simp [hy]))
  · exact h.after.congr fun y hy => hother y (hne y (by simp [hy]))
  · exact congrArg HeapEntry.reserved hself
  · exact h.coalescedBefore.congr fun y hy => hother y (hne y (by simp [hy]))
  · exact h.coalescedAfter.congr fun y hy => hother y (hne y (by simp [hy]))
  · intro y
    rcases eq_or_ne y x with rfl | hyx
    · simp only [or_true, iff_true]
      left
      rw [hpage, setTiles_tiles_self]
      exact ⟨by simp, congrArg HeapEntry.reserved hself⟩
    · rw [Used, Used]
      simp only [hyx, or_false]
      refine or_congr (and_congr ?_ (by rw [← hother y hyx])) Iff.rfl
      rcases eq_or_ne (pageOf y) pg with hpg | hpg
      · rw [hpg, setTiles_tiles_self, h.blocks]
        simp [hyx]
      · rw [setTiles_tiles_of_ne hpg]
  · intro y hy
    apply hother
    rintro rfl
    exact hunused hy

theorem blockLength_bounds {length : Nat} (hpos : 0 < length) (hle : length ≤ 1008) :
    blockLength length % 16 = 0 ∧ length + 16 ≤ blockLength length ∧ 32 ≤ blockLength length ∧
      blockLength length ≤ 1024 := by
  simp only [blockLength, ENTRY_SIZE, HEAP_ALIGN_SIZE]
  omega

theorem usedLength_bounds {length orig : Nat} (hle : length ≤ orig) :
    length ≤ usedLength length orig ∧
      (usedLength length orig = orig ∨
        usedLength length orig = length ∧ usedLength length orig + 32 ≤ orig) := by
  rcases Nat.lt_or_ge orig (length + ENTRY_SIZE + 16) with h | h
  · rw [usedLength, if_pos h]
    omega
  · rw [usedLength, if_neg (Nat.not_lt.mpr h)]
    simp only [ENTRY_SIZE] at h
    omega

theorem size_le_of_unusedClass {length : Nat} {c : SizeClass} (h : unusedClass length = some c) :
    c.size ≤ length := by
  simp only [unusedClass] at h
  split_ifs at h <;> cases h <;> assumption

/-- A free block which is taken from the list of its size class. -/
theorem smallFindUnusedHeapEntry_eq (h : Valid s L) (length : Nat) :
    smallFindUnusedHeapEntry s length = .ok (none, s) ∨
      ∃ heap, smallFindUnusedHeapEntry s length =
          .ok (some heap, { s with links := s.links.remove (.entry heap) }) ∧
        heap ∈ L.tiles (pageOf heap) ∧ (s.entries heap).reserved = false ∧
        length ≤ (s.entries heap).length ∧ ∃ node, place s L heap = some node := by
  rw [smallFindUnusedHeapEntry]
  cases hfind : SizeClass.all.find?
      (fun c => length ≤ c.size ∧ s.links.empty (.smallUnusedHeap c) = false) with
  | none => exact Or.inl rfl
  | some c =>
      right
      have hc := List.find?_some hfind
      simp only [decide_eq_true_eq] at hc
      have hhome := h.linked.next_head (h := .smallUnusedHeap c) (by exact nofun) hc.2
      cases hnext : s.links.next (.smallUnusedHeap c) with
      | entry heap =>
          rw [hnext] at hhome
          have hplace : place s L heap = some (.smallUnusedHeap c) := hhome
          refine ⟨heap, by simp only [hnext], ?_⟩
          rw [place] at hplace
          split_ifs at hplace with hmem hreserved
          · cases hplace
          · have hreserved : (s.entries heap).reserved = false := by simpa using hreserved
            obtain ⟨c', hc', heq⟩ := Option.map_eq_some_iff.mp hplace
            cases heq
            refine ⟨hmem, hreserved, hc.1.trans (size_le_of_unusedClass hc'),
              .smallUnusedHeap c, ?_⟩
            rw [place, if_pos hmem, hreserved, hc']
            rfl
          · cases hplace
      | smallHeap | smallUnusedHeap | largeHeap =>
          rw [hnext] at hhome
          cases hhome

theorem inLarge_iff_of_entries (hentries : ∀ x, L.large x = true → s'.entries x = s.entries x)
    (pg : Nat) : InLarge s' L pg ↔ InLarge s L pg := by
  refine exists_congr fun x => and_congr_right fun hx => ?_
  rw [hentries x hx]

/-- Memory which holds no header of a block does not matter. -/
theorem sound_overwrite (h : Sound s L) (start stop : Nat) (garbage : Garbage)
    (hmiss : ∀ x, x ∈ L.tiles (pageOf x) ∨ L.large x = true → x + 16 ≤ start ∨ stop ≤ x) :
    Sound (s.overwrite start stop garbage) L ∧
      SameUsed s L (s.overwrite start stop garbage) L := by
  have hhit : ∀ x, x ∈ L.tiles (pageOf x) ∨ L.large x = true →
      (start < x + ENTRY_SIZE && x < stop) = false := by
    intro x hx
    rw [Bool.and_eq_false_iff, decide_eq_false_iff_not, decide_eq_false_iff_not, Nat.not_lt,
      Nat.not_lt]
    exact hmiss x hx
  have hentries : ∀ x, x ∈ L.tiles (pageOf x) ∨ L.large x = true →
      (s.overwrite start stop garbage).entries x = s.entries x :=
    fun x hx => if_neg (by simp [hhit x hx])
  refine ⟨⟨?_, ?_, ?_, ?_⟩, ?_, ?_⟩
  · intro pg htiles
    have hpage := h.page pg htiles
    refine hpage.congr rfl fun y hy => hentries y (Or.inl ?_)
    rwa [hpage.pageOf_eq hy]
  · intro x hx
    exact (h.large x hx).congr _ (hentries x (Or.inr hx)) rfl
  · intro x y hx hy
    rw [hentries x (Or.inr hx)]
    exact h.disjoint x y hx hy
  · refine h.linked.congr ?_ ?_
    · rintro (_ | _ | _ | x) <;> try rfl
      simp only [home, place]
      rcases Classical.em (x ∈ L.tiles (pageOf x)) with hmem | hmem
      · rw [if_pos hmem, if_pos hmem, hentries x (Or.inl hmem)]
      · rw [if_neg hmem, if_neg hmem]
    · rintro (_ | _ | _ | x) hx <;> try exact ⟨rfl, rfl⟩
      have hblock : x ∈ L.tiles (pageOf x) ∨ L.large x = true := by
        rcases hx with hx | hx
        · exact absurd rfl (hx x)
        · simp only [home, place] at hx
          split_ifs at hx with hmem _ hlarge
          · exact Or.inl hmem
          · exact Or.inl hmem
          · exact Or.inr hlarge
          · exact absurd rfl hx
      have hnot := hhit x hblock
      exact ⟨if_neg (by simp [hnot]), if_neg (by simp [hnot])⟩
  · intro x
    rw [Used, Used]
    refine or_congr (and_congr_right fun hx => ?_) Iff.rfl
    rw [hentries x (Or.inl hx)]
  · rintro x (⟨hx, -⟩ | hx)
    · exact hentries x (Or.inl hx)
    · exact hentries x (Or.inr hx)

theorem sound_setOwned (h : Sound s L) (page n : Nat) : Sound (s.setOwned page n true) L where
  page pg htiles := (h.page pg htiles).congr
    (by simp [Heap.setOwned, (h.page pg htiles).owned]) fun _ _ => rfl
  large x hx := by
    have hblock := h.large x hx
    refine ⟨hblock.aligned, hblock.pos, hblock.magic, hblock.length, hblock.length_pos,
      hblock.length_lt, hblock.reserved, ?_⟩
    intro pg hle hlt
    obtain ⟨howned, htiles⟩ := hblock.owned pg hle hlt
    exact ⟨by simp [Heap.setOwned, howned], htiles⟩
  disjoint := h.disjoint
  linked := h.linked

/-- A block starts in a page which belongs to the heap, on a multiple of 16. -/
theorem owned_of_block (h : Sound s L) (hx : x ∈ L.tiles (pageOf x) ∨ L.large x = true) :
    s.owned (pageOf x) = true ∧ x % 16 = 0 := by
  rcases hx with hx | hx
  · have hpage := h.page _ (List.ne_nil_of_mem hx)
    exact ⟨hpage.owned, (hpage.tiles.aligned (by omega)).2 x hx⟩
  · have hblock := h.large x hx
    have hlength := hblock.length_ge
    have halign := hblock.aligned
    exact ⟨(hblock.owned _ le_rfl (by omega)).1, by omega⟩

/-- The heap gets new pages. -/
theorem pagingAllocatePhysMem_eq (h : Sound s L) {n : Nat} {fresh : Fresh}
    (hfresh : fresh.Suitable s n) :
    ∃ s', pagingAllocatePhysMem s n fresh = .ok (fresh.page * 4096, s') ∧ Sound s' L ∧
      SameUsed s L s' L ∧
      ∀ pg, s'.owned pg = (decide (fresh.page ≤ pg ∧ pg < fresh.page + n) || s.owned pg) := by
  refine ⟨_, if_pos hfresh, ?_⟩
  obtain ⟨hn, hpos, hbound, hunowned⟩ := hfresh
  have hmiss : ∀ x, x ∈ L.tiles (pageOf x) ∨ L.large x = true →
      x + 16 ≤ fresh.page * PAGE_SIZE ∨ fresh.page * PAGE_SIZE + n * PAGE_SIZE ≤ x := by
    intro x hx
    obtain ⟨howned, halign⟩ := owned_of_block h hx
    have hpage : ¬(fresh.page ≤ pageOf x ∧ pageOf x < fresh.page + n) := by
      rintro ⟨hle, hlt⟩
      have hfree := hunowned (pageOf x - fresh.page) (by omega)
      rw [Nat.add_sub_cancel' hle, howned] at hfree
      cases hfree
    simp only [pageOf, PAGE_SIZE] at hpage ⊢
    omega
  obtain ⟨hvalid, hsame⟩ :=
    sound_overwrite h (fresh.page * PAGE_SIZE) _ fresh.toGarbage hmiss
  refine ⟨sound_setOwned hvalid fresh.page n, ⟨hsame.used, hsame.entries⟩, ?_⟩
  intro pg
  simp only [Heap.setOwned, Heap.overwrite]
  split_ifs with hpg <;> simp [hpg]

/-- The area from which `__smallAlloc` takes the block. -/
theorem smallTake_eq (h : Valid s L) (length : Nat) (hlength : length ≤ 4096) (fresh : Fresh) :
    smallTake s length fresh = .error .outOfMemory ∨
      ∃ s' L' pg xs heap orig ys, smallTake s length fresh = .ok (heap, orig, s') ∧
        Hole s' L' pg xs heap orig ys ∧ SameUsed s L s' L' ∧ length ≤ orig := by
  rw [smallTake]
  rcases smallFindUnusedHeapEntry_eq h length with hfind | ⟨heap, hfind, hmem, hfree, hle,
    node, hplace⟩
  · rw [hfind]
    simp only [bind, Except.bind]
    rcases Classical.em (fresh.Suitable s 1) with hfresh | hfresh
    · right
      obtain ⟨s', halloc, hvalid, hsame, howned⟩ :=
        pagingAllocatePhysMem_eq h.toSound hfresh
      have hunowned : s.owned fresh.page = false := hfresh.2.2.2 0 Nat.zero_lt_one
      have htiles : L.tiles fresh.page = [] := by
        by_contra hne
        rw [(h.page _ hne).owned] at hunowned
        cases hunowned
      refine ⟨s', L, fresh.page, [], fresh.page * 4096, 4096, [], ?_, ?_, hsame, hlength⟩
      · rw [halloc]
        rfl
      · refine ⟨⟨fun pg _ => hvalid.page pg, hvalid.large, ?_, hvalid.disjoint, hvalid.linked, ?_⟩,
          ?_, hfresh.2.1, htiles, rfl, rfl, rfl, by omega, List.isChain_nil, List.isChain_nil⟩
        · rw [inLarge_iff_of_entries fun x hx => hsame.entries x (Or.inr hx)]
          rintro ⟨x, hx, hle, hlt⟩
          rw [((h.large x hx).owned _ hle hlt).1] at hunowned
          cases hunowned
        · intro pg hne howned' htiles'
          rw [howned, decide_eq_false (by omega), Bool.false_or] at howned'
          rw [inLarge_iff_of_entries fun x hx => hsame.entries x (Or.inr hx)]
          exact h.covered pg howned' htiles'
        · rw [howned]
          simp
    · left
      rw [pagingAllocatePhysMem, if_neg hfresh]
  · right
    obtain ⟨xs, ys, htiles⟩ := List.append_of_mem hmem
    have hpage := h.page _ (List.ne_nil_of_mem hmem)
    have hentry := (hpage.tiles.mem hmem).1
    refine ⟨_, _, _, xs, heap, (s.entries heap).length, ys, ?_, hole_of_unlink h htiles hplace,
      sameUsed_unlink rfl htiles hfree, hle⟩
    rw [hfind]
    simp only [bind, Except.bind]
    rw [readEntry_eq_ok (s := { s with links := s.links.remove (.entry heap) }) hpage.owned]
    simp only [hentry.checks.1, hentry.checks.2, check_eq_ok (decide_eq_true hle), hfree]
    rfl

theorem smallEntry_usedEntry {length : Nat} (halign : length % 16 = 0) (hge : 32 ≤ length) :
    SmallEntry (usedEntry length) :=
  ⟨rfl, halign, hge⟩

/-- What `usedLength` leaves over is nothing or a block. -/
theorem usedLength_rest {length orig : Nat} (halign : length % 16 = 0) (hge : 32 ≤ length)
    (horig : orig % 16 = 0) (hle : length ≤ orig) :
    SmallEntry (usedEntry (usedLength length orig)) ∧ length ≤ usedLength length orig ∧
      (usedLength length orig = orig ∨ usedLength length orig + 32 ≤ orig) := by
  obtain ⟨hle', hcases⟩ := usedLength_bounds hle
  refine ⟨smallEntry_usedEntry ?_ (by omega), hle', ?_⟩
  · rcases hcases with hcase | hcase
    · rwa [hcase]
    · rwa [hcase.1]
  · rcases hcases with hcase | hcase
    · exact Or.inl hcase
    · exact Or.inr hcase.2

theorem smallAlloc_eq (h : Valid s L) {length : Nat} (hpos : 0 < length) (hsmall : length ≤ 1008)
    (fresh : Fresh) :
    smallAlloc s length fresh = .error .outOfMemory ∨
      ∃ heap s' L', smallAlloc s length fresh = .ok (heap, s') ∧ Valid s' L' ∧
        Allocated s L heap s' L' ∧ heap ∈ L'.tiles (pageOf heap) ∧
        length + 16 ≤ (s'.entries heap).length := by
  obtain ⟨halign, hlength, hge, hmax⟩ := blockLength_bounds hpos hsmall
  rw [smallAlloc]
  rcases smallTake_eq h (blockLength length) (by omega) fresh with
    htake | ⟨s₁, L₁, pg, xs, heap, orig, ys, htake, hole, hsame, hle⟩
  · left
    rw [htake]
    rfl
  · right
    obtain ⟨hentry, hle', hrest⟩ := usedLength_rest halign hge hole.aligned hle
    obtain ⟨hspan, halloc⟩ := hole_reserve hole (usedLength (blockLength length) orig)
    obtain ⟨s₂, L₂, hreturn, hvalid, hsame₂⟩ := hspan.smallReturnRest_eq
      (usedLength (blockLength length) orig) (by simpa using hentry)
      (by simp [usedEntry]) hrest
    have hresult := (Allocated.same_trans hsame halloc).trans_same hsame₂
    have hself : s₂.entries heap = usedEntry (usedLength (blockLength length) orig) := by
      rw [hsame₂.entries heap ((halloc.used heap).mpr (Or.inr rfl))]
      exact Function.update_self ..
    refine ⟨heap, s₂, L₂, ?_, hvalid, hresult, ?_, ?_⟩
    · refine bind_eq_ok.mpr ⟨_, htake, bind_eq_ok.mpr ⟨_, writeEntry_eq_ok ?_,
        bind_eq_ok.mpr ⟨s₂, hreturn, rfl⟩⟩⟩
      rw [hole.pageOf_eq]
      exact hole.owned
    · rcases (hresult.used heap).mpr (Or.inr rfl) with ⟨hmem, -⟩ | hlarge
      · exact hmem
      · -- a large block has another header
        have hmagic := (hvalid.large heap hlarge).magic
        rw [hself] at hmagic
        exact absurd hmagic (show SMALL_HEAP_MAGIC ≠ LARGE_HEAP_MAGIC by decide)
    · rw [hself]
      exact hlength.trans hle'

/-- The block `x` may have another length now. -/
structure Resized (s : Heap) (L : Layout) (x : Nat) (s' : Heap) (L' : Layout) : Prop where
  used : ∀ y, Used s' L' y ↔ Used s L y
  entries : ∀ y, Used s L y → y ≠ x → s'.entries y = s.entries y

/-- The span which `__smallReAlloc` can use. -/
theorem smallExtend_eq (h : Valid s L) (hx : x ∈ L.tiles (pageOf x))
    (hreserved : (s.entries x).reserved = true) (length : Nat) :
    smallExtend s x length (s.entries x).length = .ok none ∨
      ∃ s' L' xs orig ys, smallExtend s x length (s.entries x).length = .ok (some (orig, s')) ∧
        Span s' L' (pageOf x) xs x orig ys ∧ SameUsed s L s' L' ∧ length ≤ orig := by
  obtain ⟨xs, ys, htiles⟩ := List.append_of_mem hx
  have hne := List.ne_nil_of_mem hx
  have hpage := h.page _ hne
  rw [htiles] at hpage
  obtain ⟨hbefore, hentry, hafter, hxs, hys⟩ := page_split hpage
  have hspan : Span s L (pageOf x) xs x (s.entries x).length ys :=
    ⟨h.except hne, hpage.owned, hpage.pos, htiles, hbefore, hafter, hreserved, hentry.aligned,
      hentry.length_ge, hxs, hys⟩
  rw [smallExtend]
  split_ifs with hgrow
  · rw [smallGetNextHeap_eq rfl hpage.owned hafter]
    cases ys with
    | nil => exact Or.inl rfl
    | cons z zs =>
        obtain ⟨hz, hentry', hzs⟩ := hafter
        have hpage' : pageOf z = pageOf x := hpage.pageOf_eq (by simp)
        simp only [List.head?_cons, bind, Except.bind]
        rw [readEntry_eq_ok (hpage'.symm ▸ hpage.owned)]
        simp only
        split_ifs with hfail
        · exact Or.inl rfl
        · -- the next block is free and large enough
          right
          simp only [not_or, Bool.not_eq_true, Nat.not_lt] at hfail
          have hblocks : L.tiles (pageOf z) = (xs ++ [x]) ++ z :: zs := by
            rw [hpage', htiles]
            simp
          obtain ⟨c, -, hplace⟩ := place_eq_unused (s := s) (L := L) (x := z)
            (by simp [hblocks]) rfl hentry'.length_ge hfail.1
          have hole := hole_of_unlink h hblocks hplace
          rw [hpage'] at hole
          have hlength := hentry.length_ge
          have halign := hentry.aligned
          have halign' := hentry'.aligned
          refine ⟨_, _, xs, z + (s.entries z).length - x, zs, rfl,
            ⟨hole.valid, hole.owned, hole.pos, ?_, hbefore, ?_, hreserved, by omega, by omega, hxs,
              hole.coalescedAfter⟩, sameUsed_unlink hpage' hblocks hfail.1, hfail.2⟩
          · rw [hole.blocks]
            simp
          · rw [show x + (z + (s.entries z).length - x) = z + (s.entries z).length by omega]
            exact hzs
  · exact Or.inr ⟨s, L, xs, (s.entries x).length, ys, rfl, hspan, SameUsed.refl s L, by omega⟩

theorem smallReAlloc_eq (h : Valid s L) (hx : x ∈ L.tiles (pageOf x))
    (hreserved : (s.entries x).reserved = true) {length : Nat} (hpos : 0 < length) :
    smallReAlloc s x length = .ok (none, s) ∨
      ∃ s' L', smallReAlloc s x length = .ok (some x, s') ∧ Valid s' L' ∧ Resized s L x s' L' ∧
        length + 16 ≤ (s'.entries x).length := by
  have hpage := h.page _ (List.ne_nil_of_mem hx)
  have hentry := (hpage.tiles.mem hx).1
  rw [smallReAlloc, readEntry_eq_ok hpage.owned]
  simp only [bind, Except.bind, hentry.checks.1, hentry.checks.2, check_eq_ok hreserved]
  split_ifs with hlarge
  · exact Or.inl rfl
  · simp only [ENTRY_SIZE, Nat.not_lt] at hlarge
    obtain ⟨halign, hlength, hge, hmax⟩ := blockLength_bounds hpos (by omega)
    rcases smallExtend_eq h hx hreserved (blockLength length) with
      hextend | ⟨s₁, L₁, xs, orig, ys, hextend, hspan, hsame, hle⟩
    · left
      rw [hextend]
      rfl
    · right
      obtain ⟨hentry', hle', hrest⟩ := usedLength_rest halign hge hspan.aligned hle
      obtain ⟨hspan', hused⟩ := hspan.write (usedLength (blockLength length) orig)
      obtain ⟨s₂, L₂, hreturn, hvalid, hsame₂⟩ := hspan'.smallReturnRest_eq
        (usedLength (blockLength length) orig) (by simpa using hentry')
        (by simp [usedEntry]) hrest
      refine ⟨s₂, L₂, ?_, hvalid, ⟨?_, ?_⟩, ?_⟩
      · rw [hextend]
        simp only [check_eq_ok (decide_eq_true hle)]
        exact bind_eq_ok.mpr ⟨_, writeEntry_eq_ok hspan.owned, bind_eq_ok.mpr ⟨s₂, hreturn, rfl⟩⟩
      · intro y
        rw [hsame₂.used y, hused y, hsame.used y]
      · intro y hy hyx
        rw [hsame₂.entries y ((hused y).mpr ((hsame.used y).mpr hy))]
        exact (Function.update_of_ne hyx _ _).trans (hsame.entries y hy)
      · rw [hsame₂.entries x ((hused x).mpr ((hsame.used x).mpr (Or.inl ⟨hx, hreserved⟩)))]
        simp only [Function.update_self, usedEntry]
        exact hlength.trans hle'

end

end Ibnos.HeapOperations
