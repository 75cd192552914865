import Ibnos.HeapOperations

/-!
Every sequence of calls keeps the layout of the heap.
-/

namespace Ibnos.HeapRuns

open Ibnos.Allocator
open Ibnos.HeapLayout
open Ibnos.HeapOperations
open Ibnos.LinkedLists
open Ibnos.Runs

section

variable {s s' s'' : Heap} {L L' L'' : Layout} {x y : Nat}

def Block (L : Layout) (x : Nat) : Prop := x ∈ L.tiles (pageOf x) ∨ L.large x = true

theorem Used.block (h : Used s L x) : Block L x := h.imp_left And.left

/-- A small block is separate from a large one. -/
theorem small_large_disjoint (h : Sound s L) (hx : x ∈ L.tiles (pageOf x))
    (hy : L.large y = true) :
    x + (s.entries x).length ≤ y ∨ y + (s.entries y).length ≤ x := by
  have hpage := h.page _ (List.ne_nil_of_mem hx)
  obtain ⟨-, hle, hle'⟩ := hpage.tiles.mem hx
  have hlarge := h.large y hy
  have hne : ¬(pageOf y ≤ pageOf x ∧ pageOf x < pageOf y + (s.entries y).length / 4096) := by
    rintro ⟨h₁, h₂⟩
    exact List.ne_nil_of_mem hx (hlarge.owned _ h₁ h₂).2
  have halign := hlarge.aligned
  have hlength := hlarge.length
  rw [show pageOf y = y / 4096 from rfl] at hne
  omega

/-- Different blocks do not overlap. -/
theorem blocks_disjoint (h : Sound s L) (hx : Block L x) (hy : Block L y) (hxy : x ≠ y) :
    x + (s.entries x).length ≤ y ∨ y + (s.entries y).length ≤ x := by
  rcases hx with hx | hx <;> rcases hy with hy | hy
  · have hpage := h.page _ (List.ne_nil_of_mem hx)
    rcases eq_or_ne (pageOf y) (pageOf x) with hpg | hpg
    · rw [hpg] at hy
      exact hpage.tiles.disjoint hx hy hxy
    · have hpage' := h.page _ (List.ne_nil_of_mem hy)
      obtain ⟨-, hle, hle'⟩ := hpage.tiles.mem hx
      obtain ⟨-, hle₁, hle₁'⟩ := hpage'.tiles.mem hy
      omega
  · exact small_large_disjoint h hx hy
  · exact (small_large_disjoint h hy hx).symm
  · rcases Nat.lt_or_gt_of_ne hxy with hlt | hlt
    · exact Or.inl (h.disjoint x y hx hy hlt)
    · exact Or.inr (h.disjoint y x hy hx hlt)

theorem Block.length_ge (h : Sound s L) (hx : Block L x) : 32 ≤ (s.entries x).length := by
  rcases hx with hx | hx
  · exact ((h.page _ (List.ne_nil_of_mem hx)).tiles.mem hx).1.length_ge
  · have hlength := (h.large x hx).length_ge
    omega

/-- The payload of a block may be overwritten. -/
theorem payloadLength_eq (h : Sound s L) (hx : Block L x) :
    payloadLength (s.entries x) = (s.entries x).length - 16 := by
  have hge := Block.length_ge h hx
  have hlt : (s.entries x).length < 2 ^ 31 := by
    rcases hx with hmem | hlarge
    · have hpage := h.page _ (List.ne_nil_of_mem hmem)
      obtain ⟨-, hle, hle'⟩ := hpage.tiles.mem hmem
      omega
    · exact (h.large x hlarge).length_lt
  simp only [payloadLength, ENTRY_SIZE]
  omega

theorem valid_overwrite (h : Valid s L) (hx : Block L x) (start stop : Nat) (garbage : Garbage)
    (hstart : x + 16 ≤ start) (hstop : stop ≤ x + (s.entries x).length) :
    Valid (s.overwrite start stop garbage) L ∧
      SameUsed s L (s.overwrite start stop garbage) L := by
  have hmiss : ∀ y, y ∈ L.tiles (pageOf y) ∨ L.large y = true → y + 16 ≤ start ∨ stop ≤ y := by
    intro y hy
    rcases eq_or_ne y x with rfl | hyx
    · exact Or.inl hstart
    · have hlength := Block.length_ge h.toSound hy
      have hdisjoint := blocks_disjoint h.toSound hy hx hyx
      omega
  obtain ⟨hsound, hsame⟩ := sound_overwrite h.toSound start stop garbage hmiss
  refine ⟨⟨hsound, ?_⟩, hsame⟩
  intro pg howned htiles
  rw [inLarge_iff_of_entries fun y hy => hsame.entries y (Or.inr hy)]
  exact h.covered pg howned htiles

/-- The header of a large block. -/
def largeEntry (length : Nat) : HeapEntry :=
  { heapMagic := LARGE_HEAP_MAGIC, length := length, reserved := true }

def Layout.setLarge (L : Layout) (x : Nat) (b : Bool) : Layout :=
  { L with large := Function.update L.large x b }

theorem home_setLarge_of_ne (s' : Heap) (hyx : y ≠ x) (he : s'.entries y = s.entries y) (b : Bool) :
    home s' (Layout.setLarge L x b) (.entry y) = home s L (.entry y) := by
  simp only [home, place, Layout.setLarge, he, Function.update_of_ne hyx]

/-- Pages which belong to no block become a large block. -/
theorem link_large (h : Sound s L) {page n : Nat} (hn : 0 < n) (hmax : n * 4096 < 2 ^ 31)
    (hpos : 0 < page)
    (howned : ∀ pg, page ≤ pg → pg < page + n → s.owned pg = true ∧ L.tiles pg = [] ∧
      ¬InLarge s L pg)
    (hcovered : ∀ pg, ¬(page ≤ pg ∧ pg < page + n) → s.owned pg = true → L.tiles pg = [] →
      InLarge s L pg) :
    Valid { s with
        entries := Function.update s.entries (page * 4096) (largeEntry (n * 4096))
        links := s.links.addAfter .largeHeap (.entry (page * 4096)) }
      (Layout.setLarge L (page * 4096) true) ∧
    Allocated s L (page * 4096) { s with
        entries := Function.update s.entries (page * 4096) (largeEntry (n * 4096))
        links := s.links.addAfter .largeHeap (.entry (page * 4096)) }
      (Layout.setLarge L (page * 4096) true) := by
  obtain ⟨x, hx⟩ : ∃ x, x = page * 4096 := ⟨_, rfl⟩
  rw [← hx]
  have hpage : pageOf x = page := pageOf_eq_iff.mpr (by omega)
  let s' : Heap := { s with
    entries := Function.update s.entries x (largeEntry (n * 4096))
    links := s.links.addAfter .largeHeap (.entry x) }
  have hself : s'.entries x = largeEntry (n * 4096) := Function.update_self ..
  have hother : ∀ y, y ≠ x → s'.entries y = s.entries y := fun y hy => Function.update_of_ne hy _ _
  -- the blocks which are already there lie elsewhere
  have hsmall : ∀ y, y ∈ L.tiles (pageOf y) → y ≠ x := by
    rintro y hy rfl
    rw [hpage, (howned page le_rfl (by omega)).2.1] at hy
    cases hy
  have hlarge : ∀ y, L.large y = true →
      y ≠ x ∧ (y + (s.entries y).length ≤ x ∨ x + n * 4096 ≤ y) := by
    intro y hy
    have hblock := h.large y hy
    have hge := hblock.length_ge
    have halign := hblock.aligned
    have hlength := hblock.length
    have houtside : ∀ pg, page ≤ pg → pg < page + n →
        ¬(pageOf y ≤ pg ∧ pg < pageOf y + (s.entries y).length / 4096) := by
      intro pg hle hlt hin
      exact (howned pg hle hlt).2.2 ⟨y, hy, hin⟩
    have hfirst := houtside page le_rfl (by omega)
    have hstart := houtside (pageOf y)
    rw [show pageOf y = y / 4096 from rfl] at hfirst hstart
    omega
  have hlargeNew : (Layout.setLarge L x true).large x = true := Function.update_self ..
  have hlargeOld : ∀ y, y ≠ x → (Layout.setLarge L x true).large y = L.large y :=
    fun y hy => Function.update_of_ne hy _ _
  have hlargeCases : ∀ y, (Layout.setLarge L x true).large y = true → y = x ∨ y ≠ x ∧
    L.large y = true := by
    intro y hy
    rcases eq_or_ne y x with hyx | hyx
    · exact Or.inl hyx
    · exact Or.inr ⟨hyx, (hlargeOld y hyx).symm.trans hy⟩
  have hxlarge : L.large x = false := by
    rw [← Bool.not_eq_true]
    intro hcontra
    exact (hlarge x hcontra).1 rfl
  have hunused : ¬Used s L x := by
    rintro (⟨hmem, -⟩ | hcontra)
    · exact hsmall x hmem rfl
    · rw [hxlarge] at hcontra
      cases hcontra
  refine ⟨⟨⟨?_, ?_, ?_, ?_⟩, ?_⟩, hunused, ?_, ?_⟩
  · intro pg htiles
    have hpage' := h.page pg htiles
    refine hpage'.congr rfl fun y hy => hother y (hsmall y ?_)
    rw [hpage'.pageOf_eq hy]
    exact hy
  · intro y hy
    rcases hlargeCases y hy with rfl | ⟨hyx, hy⟩
    · refine ⟨by omega, by omega, ?_, ?_, ?_, ?_, ?_, ?_⟩
      · exact congrArg HeapEntry.heapMagic hself
      · exact (congrArg (fun e => e.length % 4096) hself).trans (Nat.mul_mod_left n 4096)
      · exact (show 0 < n * 4096 by omega).trans_eq (congrArg HeapEntry.length hself).symm
      · exact (congrArg HeapEntry.length hself).trans_lt hmax
      · exact congrArg HeapEntry.reserved hself
      · intro pg hle hlt
        have hlt : pg < pageOf y + (s'.entries y).length / 4096 := hlt
        rw [hself, hpage] at hlt
        rw [hpage] at hle
        have hdiv : (largeEntry (n * 4096)).length / 4096 = n := Nat.mul_div_cancel n (by omega)
        rw [hdiv] at hlt
        obtain ⟨h₁, h₂, -⟩ := howned pg hle hlt
        exact ⟨h₁, h₂⟩
    · have hblock := (h.large y hy).congr s' (hother y hyx) rfl
      exact ⟨hblock.aligned, hblock.pos, hblock.magic, hblock.length, hblock.length_pos,
        hblock.length_lt, hblock.reserved, hblock.owned⟩
  · intro y z hy hz hyz
    change y + (s'.entries y).length ≤ z
    rcases hlargeCases y hy with rfl | ⟨hyx, hy'⟩ <;>
      rcases hlargeCases z hz with rfl | ⟨hzx, hz'⟩
    · omega
    · have hdisjoint := (hlarge z hz').2
      rw [hself]
      change y + n * 4096 ≤ z
      omega
    · have hdisjoint := (hlarge y hy').2
      rw [hother y hyx]
      omega
    · rw [hother y hyx]
      exact h.disjoint y z hy' hz' hyz
  · have hnone : place s L x = none := by
      rw [place, if_neg fun hmem => hsmall x hmem rfl, hxlarge]
      rfl
    refine (h.linked.addAfter (h := .largeHeap) (x := .entry x) (by rintro _ ⟨⟩)
      (entry_not_mem_heads x) hnone).congr ?_ (fun _ _ => ⟨rfl, rfl⟩)
    rintro (_ | _ | _ | y) <;> try rfl
    rcases eq_or_ne y x with rfl | hyx
    · rw [Function.update_self]
      rw [home, place, hlargeNew]
      exact if_neg fun hmem => hsmall y hmem rfl
    · rw [Function.update_of_ne (by simpa using hyx)]
      exact home_setLarge_of_ne s' hyx (hother y hyx) true
  · intro pg howned' htiles
    rcases Classical.em (page ≤ pg ∧ pg < page + n) with hin | hout
    · refine ⟨x, hlargeNew, ?_⟩
      change pageOf x ≤ pg ∧ pg < pageOf x + (s'.entries x).length / 4096
      rw [hself, hpage]
      exact ⟨hin.1, hin.2.trans_eq (by rw [largeEntry, Nat.mul_div_cancel n (by omega)])⟩
    · obtain ⟨y, hy, hle, hlt⟩ := hcovered pg hout howned' htiles
      have hyx := (hlarge y hy).1
      refine ⟨y, (hlargeOld y hyx).trans hy, hle, ?_⟩
      change pg < pageOf y + (s'.entries y).length / 4096
      rwa [hother y hyx]
  · intro y
    rcases eq_or_ne y x with rfl | hyx
    · simp only [or_true, iff_true]
      exact Or.inr hlargeNew
    · simp only [hyx, or_false]
      rw [Used, Used, hlargeOld y hyx]
      change y ∈ L.tiles (pageOf y) ∧ (s'.entries y).reserved = true ∨ _ ↔ _
      rw [hother y hyx]
  · intro y hy
    apply hother
    rintro rfl
    exact hunused hy

/-- New pages become a large block. -/
theorem largePlace_eq (h : Valid s L) {n : Nat} {fresh : Fresh} (hfresh : fresh.Suitable s n)
    (hmax : n * 4096 < 2 ^ 31) :
    ∃ s₁, pagingAllocatePhysMem s n fresh = .ok (fresh.page * 4096, s₁) ∧
      s₁.owned (pageOf (fresh.page * 4096)) = true ∧
      Valid { s₁ with
          entries := Function.update s₁.entries (fresh.page * 4096) (largeEntry (n * 4096))
          links := s₁.links.addAfter .largeHeap (.entry (fresh.page * 4096)) }
        (Layout.setLarge L (fresh.page * 4096) true) ∧
      Allocated s L (fresh.page * 4096) { s₁ with
          entries := Function.update s₁.entries (fresh.page * 4096) (largeEntry (n * 4096))
          links := s₁.links.addAfter .largeHeap (.entry (fresh.page * 4096)) }
        (Layout.setLarge L (fresh.page * 4096) true) := by
  obtain ⟨s₁, halloc, hsound, hsame, howned⟩ := pagingAllocatePhysMem_eq h.toSound hfresh
  obtain ⟨hn, hpos, hbound, hunowned⟩ := hfresh
  have hlarge : ∀ x, L.large x = true → s₁.entries x = s.entries x :=
    fun x hx => hsame.entries x (Or.inr hx)
  have hfree : ∀ pg, fresh.page ≤ pg → pg < fresh.page + n → s.owned pg = false := by
    intro pg hle hlt
    have hpg := hunowned (pg - fresh.page) (by omega)
    rwa [Nat.add_sub_cancel' hle] at hpg
  have hpage : pageOf (fresh.page * 4096) = fresh.page := pageOf_eq_iff.mpr (by omega)
  have hnew : ∀ pg, fresh.page ≤ pg → pg < fresh.page + n →
      s₁.owned pg = true ∧ L.tiles pg = [] ∧ ¬InLarge s₁ L pg := by
    intro pg hle hlt
    refine ⟨by rw [howned, decide_eq_true ⟨hle, hlt⟩, Bool.true_or], ?_, ?_⟩
    · by_contra htiles
      have hpg := (h.page pg htiles).owned
      rw [hfree pg hle hlt] at hpg
      cases hpg
    · rw [inLarge_iff_of_entries hlarge]
      rintro ⟨x, hx, hle', hlt'⟩
      have hpg := ((h.large x hx).owned pg hle' hlt').1
      rw [hfree pg hle hlt] at hpg
      cases hpg
  have hold : ∀ pg, ¬(fresh.page ≤ pg ∧ pg < fresh.page + n) → s₁.owned pg = true →
      L.tiles pg = [] → InLarge s₁ L pg := by
    intro pg hout howned' htiles
    rw [howned, decide_eq_false hout, Bool.false_or] at howned'
    rw [inLarge_iff_of_entries hlarge]
    exact h.covered pg howned' htiles
  obtain ⟨hvalid, hallocated⟩ := link_large hsound hn hmax hpos hnew hold
  refine ⟨s₁, halloc, ?_, hvalid, Allocated.same_trans hsame hallocated⟩
  rw [hpage]
  exact (hnew fresh.page le_rfl (by omega)).1

/-- The pages of a large block, and what is stored about them. -/
theorem largeLength_div {length n : Nat} (hn : n = largeLength length / PAGE_SIZE)
    (hmax : length ≤ MAX_LENGTH) :
    n * 4096 < 2 ^ 31 ∧ length + 16 ≤ n * 4096 ∧ largeLength length % 2 ^ 31 = n * 4096 := by
  simp only [MAX_LENGTH, hn, largeLength, PAGE_SIZE, ENTRY_SIZE] at *
  omega

theorem largeAlloc_eq (h : Valid s L) {length : Nat} (hmax : length ≤ MAX_LENGTH) (fresh : Fresh) :
    largeAlloc s length fresh = .error .outOfMemory ∨
      ∃ heap s' L', largeAlloc s length fresh = .ok (heap, s') ∧ Valid s' L' ∧
        Allocated s L heap s' L' ∧ length + 16 ≤ (s'.entries heap).length := by
  obtain ⟨n, hn⟩ : ∃ n, n = largeLength length / PAGE_SIZE := ⟨_, rfl⟩
  rw [largeAlloc, ← hn]
  rcases Classical.em (fresh.Suitable s n) with hfresh | hfresh
  · right
    obtain ⟨hpages, hroom, hstored⟩ := largeLength_div hn hmax
    obtain ⟨s₁, halloc, howned, hvalid, hallocated⟩ := largePlace_eq h hfresh hpages
    refine ⟨_, _, _, ?_, hvalid, hallocated, ?_⟩
    · rw [hstored]
      exact bind_eq_ok.mpr ⟨_, halloc, bind_eq_ok.mpr ⟨_, writeEntry_eq_ok howned, rfl⟩⟩
    · dsimp only
      rw [Function.update_self]
      exact hroom
  · left
    rw [pagingAllocatePhysMem, if_neg hfresh]
    rfl

/-- A large block leaves its list, and its pages are given back. -/
theorem unlink_large (h : Valid s L) (hx : L.large x = true) :
    Valid (pagingReleasePhysMem { s with links := s.links.remove (.entry x) } x
        ((s.entries x).length / PAGE_SIZE)) (Layout.setLarge L x false) ∧
      Freed s L x (pagingReleasePhysMem { s with links := s.links.remove (.entry x) } x
        ((s.entries x).length / PAGE_SIZE)) (Layout.setLarge L x false) := by
  have hblock := h.large x hx
  have hsmall : x ∉ L.tiles (pageOf x) := by
    have hge := hblock.length_ge
    rw [(hblock.owned _ le_rfl (by omega)).2]
    exact List.not_mem_nil
  have hlarge : ∀ y, (Layout.setLarge L x false).large y = true ↔ L.large y = true ∧ y ≠ x := by
    intro y
    rcases eq_or_ne y x with rfl | hyx
    · simp [Layout.setLarge]
    · simp [Layout.setLarge, hyx]
  have howned : ∀ pg, ¬(pageOf x ≤ pg ∧ pg < pageOf x + (s.entries x).length / 4096) →
      (pagingReleasePhysMem { s with links := s.links.remove (.entry x) } x
        ((s.entries x).length / PAGE_SIZE)).owned pg = s.owned pg := by
    intro pg hout
    exact if_neg hout
  refine ⟨⟨⟨?_, ?_, ?_, ?_⟩, ?_⟩, ?_, fun _ _ _ => rfl⟩
  · intro pg htiles
    refine (h.page pg htiles).congr (howned pg ?_) fun _ _ => rfl
    rintro ⟨hle, hlt⟩
    exact htiles (hblock.owned pg hle hlt).2
  · intro y hy
    obtain ⟨hy, hyx⟩ := (hlarge y).mp hy
    have hblock' := h.large y hy
    refine ⟨hblock'.aligned, hblock'.pos, hblock'.magic, hblock'.length, hblock'.length_pos,
      hblock'.length_lt, hblock'.reserved, ?_⟩
    intro pg hle hlt
    have hle : pageOf y ≤ pg := hle
    have hlt : pg < pageOf y + (s.entries y).length / 4096 := hlt
    rw [howned]
    · exact hblock'.owned pg hle hlt
    · have hdisjoint := blocks_disjoint h.toSound (Or.inr hx) (Or.inr hy) (Ne.symm hyx)
      have h₁ := hblock.aligned
      have h₂ := hblock.length
      have h₃ := hblock'.aligned
      have h₄ := hblock'.length
      simp only [pageOf, PAGE_SIZE] at hle hlt ⊢
      omega
  · intro y z hy hz
    exact h.disjoint y z ((hlarge y).mp hy).1 ((hlarge z).mp hz).1
  · have hplace : place s L x = some .largeHeap := by
      rw [place, if_neg hsmall, if_pos hx]
    refine (h.linked.remove (x := .entry x) (mem_heads_of_place hplace) hplace).congr ?_
      (fun _ _ => ⟨rfl, rfl⟩)
    rintro (_ | _ | _ | y) <;> try rfl
    rcases eq_or_ne y x with rfl | hyx
    · rw [Function.update_self, home, place]
      refine (if_neg hsmall).trans (if_neg ?_)
      simp [Layout.setLarge]
    · rw [Function.update_of_ne (by simpa using hyx)]
      exact home_setLarge_of_ne _ hyx rfl false
  · intro pg howned' htiles
    have hout : ¬(pageOf x ≤ pg ∧ pg < pageOf x + (s.entries x).length / 4096) := by
      intro hin
      have hfalse : (pagingReleasePhysMem { s with links := s.links.remove (.entry x) } x
        ((s.entries x).length / PAGE_SIZE)).owned pg = false := if_pos hin
      rw [hfalse] at howned'
      cases howned'
    rw [howned pg hout] at howned'
    obtain ⟨y, hy, hpg⟩ := h.covered pg howned' htiles
    refine ⟨y, (hlarge y).mpr ⟨hy, ?_⟩, hpg⟩
    rintro rfl
    exact hout hpg
  · intro y
    rw [Used, Used, hlarge]
    change y ∈ L.tiles (pageOf y) ∧ (s.entries y).reserved = true ∨ _ ↔ _
    rcases eq_or_ne y x with rfl | hyx
    · simp [hsmall]
    · simp [hyx]

theorem largeFree_eq (h : Valid s L) (hx : L.large x = true) :
    ∃ s' L', largeFree s x = .ok s' ∧ Valid s' L' ∧ Freed s L x s' L' := by
  have hblock := h.large x hx
  have hge := hblock.length_ge
  obtain ⟨hvalid, hfreed⟩ := unlink_large h hx
  refine ⟨_, _, ?_, hvalid, hfreed⟩
  exact bind_eq_ok.mpr ⟨(), check_eq_ok (decide_eq_true hblock.aligned),
    bind_eq_ok.mpr ⟨_, readEntry_eq_ok (hblock.owned _ le_rfl (by omega)).1,
      bind_eq_ok.mpr ⟨(), check_eq_ok (decide_eq_true hblock.magic),
        bind_eq_ok.mpr ⟨(), check_eq_ok (decide_eq_true hblock.length),
          bind_eq_ok.mpr ⟨(), check_eq_ok hblock.reserved, rfl⟩⟩⟩⟩⟩

/-- The block `x` is given up for the block `y`, which may be the same. -/
structure Moved (s : Heap) (L : Layout) (x y : Nat) (s' : Heap) (L' : Layout) : Prop where
  used : ∀ z, Used s' L' z ↔ Used s L z ∧ z ≠ x ∨ z = y
  entries : ∀ z, Used s L z → z ≠ x → s'.entries z = s.entries z
  unused : y ≠ x → ¬Used s L y

theorem Freed.moved (h : Freed s L x s' L') (h' : Allocated s' L' y s'' L'') :
    Moved s L x y s'' L'' where
  used z := (h'.used z).trans (or_congr (h.used z) Iff.rfl)
  entries z hz hzx := (h'.entries z ((h.used z).mpr ⟨hz, hzx⟩)).trans (h.entries z hz hzx)
  unused hyx hy := h'.unused ((h.used y).mpr ⟨hy, hyx⟩)

theorem Resized.moved (h : Resized s L x s' L') (hx : Used s L x) : Moved s L x x s' L' where
  used z := by
    rw [h.used z]
    rcases eq_or_ne z x with rfl | hzx
    · simp [hx]
    · simp [hzx]
  entries := h.entries
  unused hcontra := absurd rfl hcontra

theorem largeReAlloc_eq (h : Valid s L) (hx : L.large x = true) {length : Nat}
    (hmax : length ≤ MAX_LENGTH) (fresh : Fresh) :
    largeReAlloc s x length fresh = .ok (none, s) ∨
      largeReAlloc s x length fresh = .error .outOfMemory ∨
      ∃ y s' L', largeReAlloc s x length fresh = .ok (some y, s') ∧ Valid s' L' ∧
        Moved s L x y s' L' := by
  have hblock := h.large x hx
  have hge := hblock.length_ge
  have halign : x % PAGE_SIZE = 0 := hblock.aligned
  have hlength : (s.entries x).length % PAGE_SIZE = 0 := hblock.length
  rw [largeReAlloc, check_eq_ok (decide_eq_true halign),
    readEntry_eq_ok (hblock.owned _ le_rfl (by omega)).1]
  simp only [bind, Except.bind, check_eq_ok (decide_eq_true hblock.magic),
    check_eq_ok (decide_eq_true hlength)]
  split_ifs with hsmall hsame
  · exact Or.inl rfl
  · have hresized : Resized s L x s L := ⟨fun _ => Iff.rfl, fun _ _ _ => rfl⟩
    exact Or.inr (Or.inr ⟨x, s, L, rfl, h, Resized.moved hresized (Or.inr hx)⟩)
  · right
    obtain ⟨hvalid, hfreed⟩ := unlink_large h hx
    obtain ⟨n, hn⟩ : ∃ n, n = largeLength length / PAGE_SIZE := ⟨_, rfl⟩
    rw [pagingReAllocatePhysMem, ← hn]
    rcases Classical.em (fresh.Suitable (pagingReleasePhysMem { s with
        links := s.links.remove (.entry x) } x ((s.entries x).length / PAGE_SIZE)) n) with
      hfresh | hfresh
    · right
      obtain ⟨hpages, -, hstored⟩ := largeLength_div hn hmax
      obtain ⟨s₁, halloc, howned, hvalid', hallocated⟩ := largePlace_eq hvalid hfresh hpages
      refine ⟨_, _, _, ?_, hvalid', Freed.moved hfreed hallocated⟩
      rw [halloc]
      simp only [bind, Except.bind]
      rw [writeEntry_eq_ok howned]
      simp only [pure, Except.pure]
      let s₂ : Heap := { s₁ with
        entries := Function.update s₁.entries (fresh.page * 4096) (s.entries x) }
      rw [readEntry_eq_ok (s := s₂) howned]
      simp only [s₂, Function.update_self, check_eq_ok (decide_eq_true hblock.magic)]
      rw [writeEntry_eq_ok (s := s₂) howned]
      simp only [s₂, Function.update_idem, hstored, hblock.magic]
      rfl
    · left
      rw [pagingAllocatePhysMem, if_neg hfresh]
      rfl

/-- The checks before a block is used succeed. -/
theorem heapOf_eq (h : Valid s L) (hx : Used s L x) :
    heapOf s (x + 16) = .ok (x, s.entries x) := by
  obtain ⟨howned, halign⟩ := owned_of_block h.toSound (Used.block hx)
  have hoffset : 16 ≤ (x + 16) % 4096 := by
    rcases hx with ⟨hmem, -⟩ | hlarge
    · obtain ⟨hentry, hle, hle'⟩ := (h.page _ (List.ne_nil_of_mem hmem)).tiles.mem hmem
      have hlength := hentry.length_ge
      omega
    · have haligned := (h.large x hlarge).aligned
      omega
  have hmagic : (s.entries x).heapMagic = SMALL_HEAP_MAGIC ∨
      (s.entries x).heapMagic = LARGE_HEAP_MAGIC := by
    rcases hx with ⟨hmem, -⟩ | hlarge
    · exact Or.inl ((h.page _ (List.ne_nil_of_mem hmem)).tiles.mem hmem).1.magic
    · exact Or.inr (h.large x hlarge).magic
  have hreserved : (s.entries x).reserved = true := by
    rcases hx with ⟨-, hreserved⟩ | hlarge
    · exact hreserved
    · exact (h.large x hlarge).reserved
  exact bind_eq_ok.mpr ⟨(), check_eq_ok (decide_eq_true hoffset),
    bind_eq_ok.mpr ⟨s.entries x, readEntry_eq_ok howned,
      bind_eq_ok.mpr ⟨(), check_eq_ok (decide_eq_true hmagic),
        bind_eq_ok.mpr ⟨(), check_eq_ok hreserved, rfl⟩⟩⟩⟩

theorem heapSize_eq (h : Valid s L) (hx : Used s L x) :
    heapSize s (x + 16) = .ok ((s.entries x).length - 16) := by
  rw [heapSize, if_neg (by omega), heapOf_eq h hx]
  exact congrArg Except.ok (payloadLength_eq h.toSound (Used.block hx))

theorem large_magic_ne (h : Sound s L) (hx : L.large x = true) :
    (s.entries x).heapMagic ≠ SMALL_HEAP_MAGIC := by
  rw [(h.large x hx).magic]
  decide

theorem small_magic_eq (h : Sound s L) (hx : x ∈ L.tiles (pageOf x)) :
    (s.entries x).heapMagic = SMALL_HEAP_MAGIC :=
  ((h.page _ (List.ne_nil_of_mem hx)).tiles.mem hx).1.magic

theorem heapFree_eq (h : Valid s L) (hx : Used s L x) :
    ∃ s' L', heapFree s (x + 16) = .ok s' ∧ Valid s' L' ∧ Freed s L x s' L' := by
  rw [heapFree, if_neg (by omega), heapOf_eq h hx]
  simp only [bind, Except.bind, freeBlock]
  rcases hx with ⟨hmem, hreserved⟩ | hlarge
  · rw [if_pos (small_magic_eq h.toSound hmem)]
    exact smallFree_eq h hmem hreserved
  · rw [if_neg (large_magic_ne h.toSound hlarge)]
    exact largeFree_eq h hlarge

theorem heapAlloc_eq (h : Valid s L) {length : Nat} (hpos : 0 < length)
    (hmax : length ≤ MAX_LENGTH) (fresh : Fresh) :
    heapAlloc s length fresh = .error .outOfMemory ∨
      ∃ y s' L', heapAlloc s length fresh = .ok (y + 16, s') ∧ Valid s' L' ∧
        Allocated s L y s' L' ∧ length + 16 ≤ (s'.entries y).length := by
  rw [heapAlloc, if_neg (by omega), allocBlock]
  split_ifs with hsmall
  · rcases smallAlloc_eq h hpos hsmall fresh with
      halloc | ⟨y, s', L', halloc, hvalid, hallocated, -, hlength⟩
    · left
      rw [halloc]
      rfl
    · refine Or.inr ⟨y, s', L', ?_, hvalid, hallocated, by omega⟩
      rw [halloc]
      rfl
  · rcases largeAlloc_eq h hmax fresh with
      halloc | ⟨y, s', L', halloc, hvalid, hallocated, hroom⟩
    · left
      rw [halloc]
      rfl
    · refine Or.inr ⟨y, s', L', ?_, hvalid, hallocated, hroom⟩
      rw [halloc]
      rfl

/-- Copying a block to a new one. -/
theorem heapMove_eq (h : Valid s L) (hx : Used s L x) {length : Nat} (hpos : 0 < length)
    (hmax : length ≤ MAX_LENGTH) (fresh : Fresh) (copied : Garbage) :
    heapMove s (x + 16) x length fresh copied = .error .outOfMemory ∨
      ∃ y s' L', heapMove s (x + 16) x length fresh copied = .ok (y + 16, s') ∧ Valid s' L' ∧
        Moved s L x y s' L' := by
  rw [heapMove]
  rcases heapAlloc_eq h hpos hmax fresh with
    halloc | ⟨y, s₁, L₁, halloc, hvalid, hallocated, hroom⟩
  · left
    rw [halloc]
    rfl
  · right
    have hused : Used s₁ L₁ x := (hallocated.used x).mpr (Or.inl hx)
    have hused' : Used s₁ L₁ y := (hallocated.used y).mpr (Or.inr rfl)
    have hyx : y ≠ x := by
      rintro rfl
      exact hallocated.unused hx
    -- the copy stays inside of the new block
    have hcopy : y + 16 + min length (payloadLength (s₁.entries x)) ≤ y +
      (s₁.entries y).length := by
      omega
    obtain ⟨hvalid₂, hsame⟩ :=
      valid_overwrite hvalid (Used.block hused') (y + 16) _ copied le_rfl hcopy
    obtain ⟨s₃, L₃, hfree, hvalid₃, hfreed⟩ := heapFree_eq hvalid₂ ((hsame.used x).mpr hused)
    refine ⟨y, s₃, L₃, ?_, hvalid₃, ⟨?_, ?_, fun _ => hallocated.unused⟩⟩
    · rw [halloc]
      simp only [bind, Except.bind, if_neg (show y + 16 ≠ 0 by omega)]
      rw [readEntry_eq_ok (owned_of_block hvalid.toSound (Used.block hused)).1]
      simp only [hfree]
      rfl
    · intro z
      rw [hfreed.used z, hsame.used z, hallocated.used z]
      rcases eq_or_ne z y with rfl | hzy
      · simp [hyx]
      · simp [hzy]
    · intro z hz hzx
      have hz₁ : Used s₁ L₁ z := (hallocated.used z).mpr (Or.inl hz)
      rw [hfreed.entries z ((hsame.used z).mpr hz₁) hzx, hsame.entries z hz₁,
        hallocated.entries z hz]

theorem heapReAlloc_eq (h : Valid s L) (hx : Used s L x) {length : Nat} (hpos : 0 < length)
    (hmax : length ≤ MAX_LENGTH) (fresh : Fresh) (copied : Garbage) :
    heapReAlloc s (x + 16) length fresh copied = .error .outOfMemory ∨
      ∃ y s' L', heapReAlloc s (x + 16) length fresh copied = .ok (y + 16, s') ∧ Valid s' L' ∧
        Moved s L x y s' L' := by
  rw [heapReAlloc, if_neg (by omega), if_neg (by omega), heapOf_eq h hx]
  simp only [bind, Except.bind, reallocBlock]
  rcases hx with ⟨hmem, hreserved⟩ | hlarge
  · rw [if_pos (small_magic_eq h.toSound hmem)]
    have hused : Used s L x := Or.inl ⟨hmem, hreserved⟩
    rcases smallReAlloc_eq h hmem hreserved hpos with
      hrealloc | ⟨s', L', hrealloc, hvalid, hresized, -⟩
    · rw [hrealloc]
      exact heapMove_eq h hused hpos hmax fresh copied
    · rw [hrealloc]
      exact Or.inr ⟨x, s', L', rfl, hvalid, Resized.moved hresized hused⟩
  · rw [if_neg (large_magic_ne h.toSound hlarge)]
    rcases largeReAlloc_eq h hlarge hmax fresh with
      hrealloc | hrealloc | ⟨y, s', L', hrealloc, hvalid, hmoved⟩
    · rw [hrealloc]
      exact heapMove_eq h (Or.inr hlarge) hpos hmax fresh copied
    · rw [hrealloc]
      exact Or.inl rfl
    · rw [hrealloc]
      exact Or.inr ⟨y, s', L', rfl, hvalid, hmoved⟩

theorem forM_eq_ok {α : Type} {f : α → Except Stop Unit} {xs : List α}
    (h : ∀ a ∈ xs, f a = .ok ()) : xs.forM f = .ok () := by
  induction xs with
  | nil => rfl
  | cons a xs ih =>
      exact bind_eq_ok.mpr ⟨(), h a List.mem_cons_self,
        ih fun b hb => h b (List.mem_cons_of_mem a hb)⟩

theorem verifyList_eq_ok {rings : Node → List Node} {list : Node} {fuel : Nat}
    {ok : Nat → HeapEntry → Bool} (hr : Represents s.links heads rings) (hlist : list ∈ heads)
    (hfuel : (rings list).length < fuel)
    (hok : ∀ node ∈ rings list, ∃ x, node = .entry x ∧ s.owned (pageOf x) = true ∧
      ok x (s.entries x) = true) :
    verifyList s fuel list ok = .ok () := by
  rw [verifyList, hr.elements_eq hlist hfuel]
  apply forM_eq_ok
  intro node hnode
  obtain ⟨x, rfl, howned, hx⟩ := hok node hnode
  exact bind_eq_ok.mpr ⟨s.entries x, readEntry_eq_ok howned, check_eq_ok hx⟩

/-- The blocks of a list satisfy the assertions about them. -/
theorem verify_of_home (h : Valid s L) {list node : Node} (hhome : home s L node = some list) :
    ∃ x, node = .entry x ∧ s.owned (pageOf x) = true ∧
      (list = .smallHeap → verifySmall true x (s.entries x) = true) ∧
      (list = .largeHeap → verifyLarge x (s.entries x) = true) ∧
      (∀ c, list = .smallUnusedHeap c → verifySmall false x (s.entries x) = true) := by
  cases node with
  | smallHeap | smallUnusedHeap | largeHeap => cases hhome
  | entry x =>
      have hplace : place s L x = some list := hhome
      rw [place] at hplace
      refine ⟨x, rfl, ?_⟩
      split_ifs at hplace with hmem hreserved hlarge
      · cases hplace
        obtain ⟨howned, halign⟩ := owned_of_block h.toSound (Or.inl hmem)
        have hentry := ((h.page _ (List.ne_nil_of_mem hmem)).tiles.mem hmem).1
        refine ⟨howned, fun _ => ?_, by simp, by simp⟩
        exact decide_eq_true ⟨halign, hentry.magic, hentry.length_ge, hreserved⟩
      · obtain ⟨c, hc, rfl⟩ := Option.map_eq_some_iff.mp hplace
        obtain ⟨howned, halign⟩ := owned_of_block h.toSound (Or.inl hmem)
        have hentry := ((h.page _ (List.ne_nil_of_mem hmem)).tiles.mem hmem).1
        refine ⟨howned, by simp, by simp, fun _ _ => ?_⟩
        exact decide_eq_true ⟨halign, hentry.magic, hentry.length_ge, by simpa using hreserved⟩
      · cases hplace
        have hblock := h.large x hlarge
        refine ⟨(owned_of_block h.toSound (Or.inr hlarge)).1, by simp, fun _ => ?_, by simp⟩
        exact decide_eq_true
          ⟨hblock.aligned, hblock.magic, hblock.length_pos, hblock.length, hblock.reserved⟩

/-- No assertion of `heapVerify` fails, and its loops end. -/
theorem heapVerify_eq_ok (h : Valid s L) :
    ∃ n, ∀ fuel, n ≤ fuel → heapVerify s fuel = .ok () := by
  obtain ⟨rings, hr, hmem⟩ := h.linked
  have hhome : ∀ {list node : Node}, list ∈ heads → node ∈ rings list →
      home s L node = some list := fun hlist hnode => (hmem _ hlist _).mp hnode
  have hbound : ∃ n, ∀ c, (rings (.smallUnusedHeap c)).length ≤ n := by
    refine ⟨(rings (.smallUnusedHeap .unused32)).length +
      (rings (.smallUnusedHeap .unused64)).length + (rings (.smallUnusedHeap .unused128)).length +
      (rings (.smallUnusedHeap .unused256)).length + (rings (.smallUnusedHeap .unused512)).length +
      (rings (.smallUnusedHeap .unused1024)).length, ?_⟩
    intro c
    cases c <;> omega
  obtain ⟨n, hn⟩ := hbound
  refine ⟨(rings .smallHeap).length + (rings .largeHeap).length + n + 1, ?_⟩
  intro fuel hfuel
  have hsmall : verifyList s fuel .smallHeap (verifySmall true) = .ok () := by
    apply verifyList_eq_ok hr (by exact nofun) (by omega)
    intro node hnode
    obtain ⟨x, hx, howned, hok, -, -⟩ := verify_of_home h (hhome (by exact nofun) hnode)
    exact ⟨x, hx, howned, hok rfl⟩
  have hlarge : verifyList s fuel .largeHeap verifyLarge = .ok () := by
    apply verifyList_eq_ok hr (by exact nofun) (by omega)
    intro node hnode
    obtain ⟨x, hx, howned, -, hok, -⟩ := verify_of_home h (hhome (by exact nofun) hnode)
    exact ⟨x, hx, howned, hok rfl⟩
  refine bind_eq_ok.mpr ⟨(), hsmall, bind_eq_ok.mpr ⟨(), hlarge, forM_eq_ok ?_⟩⟩
  intro c _
  apply verifyList_eq_ok hr (by exact nofun)
  · have hle := hn c
    omega
  · intro node hnode
    obtain ⟨x, hx, howned, -, -, hok⟩ := verify_of_home h (hhome (by exact nofun) hnode)
    exact ⟨x, hx, howned, hok c rfl⟩

end

/-- The invariant of a run: the pointers which are live are the payloads of the blocks in use. -/
structure Running (s : State) (L : Layout) : Prop where
  valid : Valid s.heap L
  live : ∀ addr, addr ∈ s.live ↔ ∃ x, addr = x + 16 ∧ Used s.heap L x
  nodup : s.live.Nodup

section

variable {s : State} {L : Layout} {x y : Nat}

theorem running_init (entries : Nat → HeapEntry) :
    Running (State.init entries) { tiles := fun _ => [], large := fun _ => false } where
  valid := by
    refine ⟨⟨nofun, nofun, nofun, fun _ => [], ⟨fun _ _ => ⟨rfl, rfl⟩, by simp, ?_⟩, ?_⟩, nofun⟩
    · intro h _ k _ hne y hy hy'
      simp only [List.mem_singleton] at hy hy'
      exact hne (hy.symm.trans hy')
    · rintro h - (_ | _ | _ | x) <;> simp [home, place]
  live := by simp [State.init, Used]
  nodup := List.nodup_nil

theorem Running.allocated (h : Running s L) {heap : Heap} {L' : Layout} (hvalid : Valid heap L')
    (hallocated : Allocated s.heap L y heap L') : Running ⟨heap, hold s.live (y + 16)⟩ L' where
  valid := hvalid
  live := by
    intro addr
    rw [hold, if_neg (by omega), List.mem_cons, h.live]
    constructor
    · rintro (rfl | ⟨x, rfl, hx⟩)
      · exact ⟨y, rfl, (hallocated.used y).mpr (Or.inr rfl)⟩
      · exact ⟨x, rfl, (hallocated.used x).mpr (Or.inl hx)⟩
    · rintro ⟨x, rfl, hx⟩
      rcases (hallocated.used x).mp hx with hx | rfl
      · exact Or.inr ⟨x, rfl, hx⟩
      · exact Or.inl rfl
  nodup := by
    rw [hold, if_neg (by omega), List.nodup_cons, h.live]
    refine ⟨?_, h.nodup⟩
    rintro ⟨x, hxy, hx⟩
    obtain rfl : y = x := by omega
    exact hallocated.unused hx

theorem Running.freed (h : Running s L) {heap : Heap} {L' : Layout} (hvalid : Valid heap L')
    (hfreed : Freed s.heap L x heap L') : Running ⟨heap, s.live.erase (x + 16)⟩ L' where
  valid := hvalid
  live := by
    intro addr
    rw [h.nodup.mem_erase_iff, h.live]
    constructor
    · rintro ⟨hne, y, rfl, hy⟩
      exact ⟨y, rfl, (hfreed.used y).mpr ⟨hy, by omega⟩⟩
    · rintro ⟨y, rfl, hy⟩
      obtain ⟨hy, hyx⟩ := (hfreed.used y).mp hy
      exact ⟨by omega, y, rfl, hy⟩
  nodup := h.nodup.erase _

theorem Running.moved (h : Running s L) {heap : Heap} {L' : Layout} (hvalid : Valid heap L')
    (hmoved : Moved s.heap L x y heap L') :
    Running ⟨heap, hold (s.live.erase (x + 16)) (y + 16)⟩ L' where
  valid := hvalid
  live := by
    intro addr
    rw [hold, if_neg (by omega), List.mem_cons, h.nodup.mem_erase_iff, h.live]
    constructor
    · rintro (rfl | ⟨hne, z, rfl, hz⟩)
      · exact ⟨y, rfl, (hmoved.used y).mpr (Or.inr rfl)⟩
      · exact ⟨z, rfl, (hmoved.used z).mpr (Or.inl ⟨hz, by omega⟩)⟩
    · rintro ⟨z, rfl, hz⟩
      rcases (hmoved.used z).mp hz with ⟨hz, hzx⟩ | rfl
      · exact Or.inr ⟨by omega, z, rfl, hz⟩
      · exact Or.inl rfl
  nodup := by
    rw [hold, if_neg (by omega), List.nodup_cons, h.nodup.mem_erase_iff, h.live]
    refine ⟨?_, h.nodup.erase _⟩
    rintro ⟨hne, z, hzy, hz⟩
    obtain rfl : y = z := by omega
    exact hmoved.unused (by omega) hz

/-- The reasons for which a call may fail: the paging layer returns pages which
are in use, or the caller breaks the rules. -/
def Excused (e : Stop) : Prop := e = .outOfMemory ∨ e = .invalidCall

theorem step_alloc (h : Running s L) (length : Nat) (fresh : Fresh) :
    (∃ e, step s (.alloc length fresh) = .error e ∧ Excused e) ∨
      ∃ s' addr, step s (.alloc length fresh) = .ok (s', addr) ∧ ∃ L', Running s' L' := by
  rw [step]
  split_ifs with hmax
  · rcases Nat.eq_zero_or_pos length with rfl | hpos
    · exact Or.inr ⟨_, _, rfl, L, h⟩
    · rcases heapAlloc_eq h.valid hpos hmax fresh with
        halloc | ⟨y, heap, L', halloc, hvalid, hallocated, -⟩
      · rw [halloc]
        exact Or.inl ⟨_, rfl, Or.inl rfl⟩
      · rw [halloc]
        exact Or.inr ⟨_, _, rfl, L', h.allocated hvalid hallocated⟩
  · exact Or.inl ⟨_, rfl, Or.inr rfl⟩

theorem step_free (h : Running s L) (addr : Nat) :
    (∃ e, step s (.free addr) = .error e ∧ Excused e) ∨
      ∃ s' addr', step s (.free addr) = .ok (s', addr') ∧ ∃ L', Running s' L' := by
  have hzero : (0 : Nat) ∉ s.live := by
    rw [h.live]
    rintro ⟨x, hx, -⟩
    omega
  rw [step]
  split_ifs with hlive
  · right
    rcases hlive with rfl | hlive
    · refine ⟨_, _, rfl, L, ?_⟩
      rw [List.erase_of_not_mem hzero]
      exact h
    · obtain ⟨x, rfl, hx⟩ := (h.live addr).mp hlive
      obtain ⟨heap, L', hfree, hvalid, hfreed⟩ := heapFree_eq h.valid hx
      rw [hfree]
      exact ⟨_, _, rfl, L', h.freed hvalid hfreed⟩
  · exact Or.inl ⟨_, rfl, Or.inr rfl⟩

theorem step_realloc (h : Running s L) (addr length : Nat) (fresh : Fresh) (copied : Garbage) :
    (∃ e, step s (.realloc addr length fresh copied) = .error e ∧ Excused e) ∨
      ∃ s' addr', step s (.realloc addr length fresh copied) = .ok (s', addr') ∧
        ∃ L', Running s' L' := by
  have hzero : (0 : Nat) ∉ s.live := by
    rw [h.live]
    rintro ⟨x, hx, -⟩
    omega
  rw [step]
  split_ifs with hlive
  · obtain ⟨hlive, hmax⟩ := hlive
    rcases hlive with rfl | hlive
    · -- without a block it is an allocation
      have halloc := step_alloc h length fresh
      rw [step, if_pos hmax] at halloc
      rw [heapReAlloc, if_pos rfl, List.erase_of_not_mem hzero]
      exact halloc
    · obtain ⟨x, rfl, hx⟩ := (h.live addr).mp hlive
      rcases Nat.eq_zero_or_pos length with rfl | hpos
      · right
        obtain ⟨heap, L', hfree, hvalid, hfreed⟩ := heapFree_eq h.valid hx
        rw [heapReAlloc, if_neg (by omega), if_pos rfl, hfree]
        exact ⟨_, _, rfl, L', h.freed hvalid hfreed⟩
      · rcases heapReAlloc_eq h.valid hx hpos hmax fresh copied with
          hrealloc | ⟨y, heap, L', hrealloc, hvalid, hmoved⟩
        · rw [hrealloc]
          exact Or.inl ⟨_, rfl, Or.inl rfl⟩
        · rw [hrealloc]
          exact Or.inr ⟨_, _, rfl, L', h.moved hvalid hmoved⟩
  · exact Or.inl ⟨_, rfl, Or.inr rfl⟩

theorem step_write (h : Running s L) (addr start stop : Nat) (garbage : Garbage) :
    (∃ e, step s (.write addr start stop garbage) = .error e ∧ Excused e) ∨
      ∃ s' addr', step s (.write addr start stop garbage) = .ok (s', addr') ∧
        ∃ L', Running s' L' := by
  rw [step]
  split_ifs with hlive
  · obtain ⟨x, rfl, hx⟩ := (h.live addr).mp hlive
    rw [heapSize_eq h.valid hx]
    simp only [bind, Except.bind]
    split_ifs with hbounds
    · right
      have hge := Block.length_ge h.valid.toSound (Used.block hx)
      obtain ⟨hvalid, hsame⟩ := valid_overwrite h.valid (Used.block hx) start stop garbage
        (by omega) (by omega)
      refine ⟨_, _, rfl, L, hvalid, ?_, h.nodup⟩
      intro addr
      rw [h.live]
      exact exists_congr fun y => and_congr_right fun _ => (hsame.used y).symm
    · exact Or.inl ⟨_, rfl, Or.inr rfl⟩
  · exact Or.inl ⟨_, rfl, Or.inr rfl⟩

/-- Two payloads which are live do not overlap. -/
theorem Running.payloads_disjoint (h : Running s L) {a b : Nat} (ha : a ∈ s.live)
    (hb : b ∈ s.live) (hab : a ≠ b) :
    ∃ m n, heapSize s.heap a = .ok m ∧ heapSize s.heap b = .ok n ∧ (a + m ≤ b ∨ b + n ≤ a) := by
  obtain ⟨x, rfl, hx⟩ := (h.live a).mp ha
  obtain ⟨y, rfl, hy⟩ := (h.live b).mp hb
  refine ⟨_, _, heapSize_eq h.valid hx, heapSize_eq h.valid hy, ?_⟩
  have hdisjoint := blocks_disjoint h.valid.toSound (Used.block hx) (Used.block hy) (by omega)
  have hge := Block.length_ge h.valid.toSound (Used.block hx)
  have hge' := Block.length_ge h.valid.toSound (Used.block hy)
  omega

end

/-- After every sequence of calls the heap has a valid layout. A call fails only
for an excused reason, so no assertion is hit. -/
theorem run_heap_valid (entries : Nat → HeapEntry) (calls : List Call) :
    (∃ e, run step (State.init entries) calls = .error e ∧
      (e = .outOfMemory ∨ e = .invalidCall)) ∨
    ∃ s addrs, run step (State.init entries) calls = .ok (s, addrs) ∧
      (∃ L, Valid s.heap L ∧ ∀ addr, addr ∈ s.live ↔ ∃ x, addr = x + 16 ∧ Used s.heap L x) ∧
      (∃ n, ∀ fuel, n ≤ fuel → heapVerify s.heap fuel = .ok ()) ∧
      s.live.Nodup ∧
      ∀ a ∈ s.live, ∀ b ∈ s.live, a ≠ b → ∃ m n, heapSize s.heap a = .ok m ∧
        heapSize s.heap b = .ok n ∧ (a + m ≤ b ∨ b + n ≤ a) := by
  have hstep : ∀ s call, (∃ L, Running s L) →
      (∃ e, step s call = .error e ∧ Excused e) ∨
        ∃ s' addr, step s call = .ok (s', addr) ∧ ∃ L', Running s' L' := by
    rintro s call ⟨L, h⟩
    cases call with
    | alloc length fresh => exact step_alloc h length fresh
    | realloc addr length fresh copied => exact step_realloc h addr length fresh copied
    | free addr => exact step_free h addr
    | write addr start stop garbage => exact step_write h addr start stop garbage
  refine (run_outcome hstep ⟨_, running_init entries⟩ calls).imp_right ?_
  rintro ⟨s, addrs, hrun, L, h⟩
  exact ⟨s, addrs, hrun, ⟨L, h.valid, h.live⟩, heapVerify_eq_ok h.valid, h.nodup,
    fun a ha b hb hab => h.payloads_disjoint ha hb hab⟩

end Ibnos.HeapRuns
