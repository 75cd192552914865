import Ibnos.HeapBytes
import Ibnos.HeapRuns

/-!
The operations of the heap write only to headers of blocks. No header lies inside
of a block which is in use, so the payloads of these blocks are not touched.
-/

namespace Ibnos.HeapWrites

open Ibnos.Allocator
open Ibnos.HeapBytes (Quiet)
open Ibnos.HeapLayout
open Ibnos.HeapOperations
open Ibnos.HeapRuns
open Ibnos.LinkedLists
open Ibnos.Runs

/-- No header is written in the first `n` bytes of the block `z`, except for its own one. -/
def Untouched (s s' : Heap) (z n : Nat) : Prop := ∀ w, z < w → w < z + n → Quiet s s' w

/-- No header is written inside of a block which is in use. -/
def Undisturbed (s : Heap) (L : Layout) (s' : Heap) : Prop :=
  ∀ z, Used s L z → Untouched s s' z (s.entries z).length

section

variable {s s' s'' : Heap} {L L' : Layout} {pg x y z w n length : Nat} {xs ys : List Nat}

theorem Untouched.refl (s : Heap) (z n : Nat) : Untouched s s z n := fun w _ _ => Quiet.refl s w

theorem Untouched.trans (h : Untouched s s' z n) (h' : Untouched s' s'' z n) :
    Untouched s s'' z n := fun w hlt hw => (h w hlt hw).trans (h' w hlt hw)

theorem Untouched.mono {m : Nat} (h : Untouched s s' z n) (hm : m ≤ n) : Untouched s s' z m :=
  fun w hlt hw => h w hlt (by omega)

theorem Undisturbed.refl (s : Heap) (L : Layout) : Undisturbed s L s :=
  fun z _ => Untouched.refl s z _

theorem Undisturbed.trans (h : Undisturbed s L s') (hsame : SameUsed s L s' L')
    (h' : Undisturbed s' L' s'') : Undisturbed s L s'' := by
  intro z hz
  have huntouched := h' z ((hsame.used z).mpr hz)
  rw [hsame.entries z hz] at huntouched
  exact (h z hz).trans huntouched

/-- The addresses inside of `z` are not the start of a block. -/
theorem not_block_of_inside (h : Sound s L) (hz : Block L z) (hlt : z < w)
    (hw : w < z + (s.entries z).length) : ¬Block L w := by
  intro hblock
  have hge := Block.length_ge h hblock
  have hdisjoint := blocks_disjoint h hblock hz (by omega)
  omega

theorem place_eq_none (h : ¬Block L w) : place s L w = none := by
  rw [place, if_neg fun hmem => h (Or.inl hmem), if_neg fun hlarge => h (Or.inr hlarge)]

theorem place_eq_none_of_inside (h : Sound s L) (hz : Block L z) (hlt : z < w)
    (hw : w < z + (s.entries z).length) : place s L w = none :=
  place_eq_none (not_block_of_inside h hz hlt hw)

/-- The hole of a page is filled by a block in use. -/
theorem Hole.filled (h : Hole s L pg xs x length ys) :
    ∃ s₁ L₁, Valid s₁ L₁ ∧ Used s₁ L₁ x ∧ (s₁.entries x).length = length ∧
      ∀ z, Block L z → z ≠ x ∧ Block L₁ z ∧ s₁.entries z = s.entries z := by
  obtain ⟨hspan, halloc⟩ := hole_reserve h length
  have hvalid := hspan.valid_of_length
    (by simpa using smallEntry_usedEntry h.aligned h.length_ge) (by simp [usedEntry])
  refine ⟨_, _, hvalid, (halloc.used x).mpr (Or.inr rfl), by simp [usedEntry], ?_⟩
  intro z hz
  have hne : z ≠ x := by
    rintro rfl
    rcases hz with hmem | hlarge
    · rw [h.pageOf_eq, h.blocks] at hmem
      exact h.not_mem hmem
    · have hfalse := ValidExcept.large_eq_false (h.pageOf_eq.symm ▸ h.valid)
      rw [hlarge] at hfalse
      cases hfalse
  refine ⟨hne, ?_, by simp [hne]⟩
  rcases hz with hmem | hlarge
  · left
    rcases eq_or_ne (pageOf z) pg with hpg | hpg
    · rw [hpg, h.blocks] at hmem
      rw [hpg, setTiles_tiles_self]
      simp only [List.mem_append, List.mem_cons] at hmem ⊢
      tauto
    · rwa [setTiles_tiles_of_ne hpg]
  · exact Or.inr hlarge

/-- Inside of a block in use there is no other block, and not the hole either. -/
theorem Hole.inside (h : Hole s L pg xs x length ys) (hz : Used s L z) (hlt : z < w)
    (hw : w < z + (s.entries z).length) : place s L w = none ∧ w ≠ x := by
  obtain ⟨s₁, L₁, hvalid, hx, -, hblocks⟩ := Hole.filled h
  obtain ⟨-, hz₁, hentry⟩ := hblocks z (Used.block hz)
  rw [← hentry] at hw
  have hblock := not_block_of_inside hvalid.toSound hz₁ hlt hw
  refine ⟨place_eq_none fun hw => hblock (hblocks w hw).2.1, ?_⟩
  rintro rfl
  exact hblock (Used.block hx)

theorem quiet_unlink (hl : Linked s.links heads (home s L)) {node : Node}
    (hplace : place s L x = some node) (hw : place s L w = none) :
    Quiet s { s with links := s.links.remove (.entry x) } w :=
  ⟨rfl, hl.remove_other (mem_heads_of_place hplace) (x := .entry x) hplace
    (entry_not_mem_heads w) hw⟩

theorem quiet_link (hl : Linked s.links heads (home s L)) (list : Node) (hlist : list ∈ heads)
    (hw : place s L w = none) (hne : w ≠ x) :
    Quiet s { s with links := s.links.addAfter list (.entry x) } w :=
  ⟨rfl, hl.addAfter_other hlist (entry_not_mem_heads x) (entry_not_mem_heads w) hw
    (by simpa using hne)⟩

theorem quiet_write (s : Heap) (e : HeapEntry) (hne : w ≠ x) :
    Quiet s { s with entries := Function.update s.entries x e } w :=
  ⟨Function.update_of_ne hne _ _, rfl, rfl⟩

/-- A small block is in one of the lists. -/
theorem place_of_mem (hmem : x ∈ L.tiles (pageOf x)) (hentry : SmallEntry (s.entries x)) :
    ∃ node, place s L x = some node := by
  rcases hreserved : (s.entries x).reserved with _ | _
  · obtain ⟨c, -, hplace⟩ := place_eq_unused (s := s) (L := L) hmem rfl hentry.length_ge hreserved
    exact ⟨_, hplace⟩
  · exact ⟨_, by rw [place, if_pos hmem, if_pos hreserved]⟩

theorem Hole.unlink_undisturbed (h : Hole s L pg xs x length ys) (hy : y ∈ xs ++ ys) :
    Undisturbed s L { s with links := s.links.remove (.entry y) } := by
  have hentry : SmallEntry (s.entries y) ∧ pageOf y = pg := by
    rcases List.mem_append.mp hy with hy | hy
    · exact ⟨(h.mem_before hy).1, (h.mem_before hy).2.1⟩
    · exact ⟨(h.mem_after hy).1, (h.mem_after hy).2.1⟩
  obtain ⟨node, hplace⟩ := place_of_mem (L := L) (by rwa [hentry.2, h.blocks]) hentry.1
  exact fun z hz w hlt hw => quiet_unlink h.valid.linked hplace (Hole.inside h hz hlt hw).1

theorem Hole.mergePrevious_undisturbed (h : Hole s L pg xs x length ys)
    (hself : xs = [] → (s.entries x).reserved = true) {r : Heap × Nat × Nat}
    (hok : mergePrevious s x length = .ok r) : Undisturbed s L r.1 := by
  rw [mergePrevious, h.smallGetPreviousHeap_eq] at hok
  obtain ⟨_, ⟨⟩, hok⟩ := bind_eq_ok.mp hok
  obtain ⟨e, hread, hok⟩ := bind_eq_ok.mp hok
  rcases List.eq_nil_or_concat' xs with rfl | ⟨zs, z, rfl⟩
  · rw [List.getLast?_nil, Option.getD_none, readEntry_eq_ok (h.pageOf_eq.symm ▸ h.owned)] at hread
    cases hread
    rw [if_neg (by simp [hself rfl])] at hok
    cases hok
    exact Undisturbed.refl s L
  · obtain ⟨-, hpage, -⟩ := h.mem_before (y := z) (by simp)
    simp only [List.getLast?_append, List.getLast?_singleton, Option.some_or,
      Option.getD_some] at hread hok
    rw [readEntry_eq_ok (hpage.symm ▸ h.owned)] at hread
    cases hread
    split_ifs at hok
    · cases hok
      exact Hole.unlink_undisturbed h (by simp)
    · cases hok
      exact Undisturbed.refl s L

theorem Hole.mergeNext_undisturbed (h : Hole s L pg xs x length ys) {r : Heap × Nat}
    (hok : mergeNext s x length = .ok r) : Undisturbed s L r.1 := by
  rw [mergeNext, smallGetNextHeap_eq h.pageOf_eq h.owned h.after] at hok
  cases ys with
  | nil =>
      cases hok
      exact Undisturbed.refl s L
  | cons z zs =>
      obtain ⟨-, hpage, -⟩ := h.mem_after (y := z) List.mem_cons_self
      obtain ⟨_, ⟨⟩, hok⟩ := bind_eq_ok.mp hok
      dsimp only [List.head?_cons] at hok
      obtain ⟨e, hread, hok⟩ := bind_eq_ok.mp hok
      rw [readEntry_eq_ok (hpage.symm ▸ h.owned)] at hread
      cases hread
      split_ifs at hok
      · cases hok
        exact Hole.unlink_undisturbed h (by simp)
      · cases hok
        exact Undisturbed.refl s L

theorem Hole.smallQueueUnusedHeap_undisturbed (h : Hole s L pg xs x length ys)
    (hok : smallQueueUnusedHeap s x length = .ok s') : Undisturbed s L s' := by
  rw [smallQueueUnusedHeap] at hok
  split_ifs at hok
  · cases hok
    exact fun z _ w _ _ => ⟨rfl, rfl, rfl⟩
  · cases hclass : unusedClass length with
    | none =>
        rw [hclass] at hok
        cases hok
    | some c =>
        rw [hclass] at hok
        obtain ⟨s₁, hwrite, hok⟩ := bind_eq_ok.mp hok
        rw [writeEntry_eq_ok (h.pageOf_eq.symm ▸ h.owned)] at hwrite
        cases hwrite
        cases hok
        intro z hz w hlt hw
        obtain ⟨hnone, hne⟩ := Hole.inside h hz hlt hw
        exact ⟨Function.update_of_ne hne _ _,
          (quiet_link h.valid.linked (.smallUnusedHeap c) (fun _ => Node.noConfusion) hnone hne).2⟩

theorem Hole.smallInternalFree_undisturbed (h : Hole s L pg xs x length ys)
    (hself : xs = [] → (s.entries x).reserved = true)
    (hok : smallInternalFree s x length = .ok s') : Undisturbed s L s' := by
  obtain ⟨s₁, L₁, xs₁, x₁, length₁, hprev, h₁, hsame₁, -⟩ := h.mergePrevious_eq hself
  obtain ⟨s₂, L₂, length₂, ys₂, hnext, h₂, hsame₂, -, -⟩ := h₁.mergeNext_eq
  obtain ⟨_, -, hok⟩ := bind_eq_ok.mp hok
  obtain ⟨_, -, hok⟩ := bind_eq_ok.mp hok
  rw [hprev] at hok
  obtain ⟨_, ⟨⟩, hok⟩ := bind_eq_ok.mp hok
  dsimp only at hok
  rw [hnext] at hok
  obtain ⟨_, ⟨⟩, hok⟩ := bind_eq_ok.mp hok
  have hundisturbed₁ := Hole.mergePrevious_undisturbed h hself hprev
  have hundisturbed₂ := Hole.mergeNext_undisturbed h₁ hnext
  have hundisturbed₃ := Hole.smallQueueUnusedHeap_undisturbed h₂ hok
  exact hundisturbed₁.trans hsame₁ (hundisturbed₂.trans hsame₂ hundisturbed₃)

theorem Span.smallReturnRest_undisturbed {orig : Nat} (h : Span s L pg xs x orig ys)
    (hentry : SmallEntry (s.entries x)) (hlength : (s.entries x).length = length)
    (hrest : length = orig ∨ length + 32 ≤ orig)
    (hok : smallReturnRest s x length orig = .ok s') : Undisturbed s L s' := by
  subst hlength
  rw [smallReturnRest] at hok
  split_ifs at hok with hlt
  · exact Hole.smallInternalFree_undisturbed (h.hole hentry (by omega)) (by simp) hok
  · cases hok
    exact Undisturbed.refl s L

/-- The area of a hole becomes a block in use. -/
theorem Hole.reserve_undisturbed (h : Hole s L pg xs x length ys) (e : HeapEntry) :
    Undisturbed s L { s with
      entries := Function.update s.entries x e
      links := s.links.addAfter .smallHeap (.entry x) } := by
  intro z hz w hlt hw
  obtain ⟨hnone, hne⟩ := Hole.inside h hz hlt hw
  exact ⟨Function.update_of_ne hne _ _,
    (quiet_link h.valid.linked .smallHeap (fun _ => Node.noConfusion) hnone hne).2⟩

theorem Valid.unlink_undisturbed (h : Valid s L) {node : Node} (hplace : place s L x = some node) :
    Undisturbed s L { s with links := s.links.remove (.entry x) } :=
  fun _ hz _ hlt hw => quiet_unlink h.linked hplace
    (place_eq_none_of_inside h.toSound (Used.block hz) hlt hw)

theorem smallFree_untouched (h : Valid s L) (hx : x ∈ L.tiles (pageOf x))
    (hreserved : (s.entries x).reserved = true) (hok : smallFree s x = .ok s')
    (hz : Used s L z) (hzx : z ≠ x) : Untouched s s' z (s.entries z).length := by
  obtain ⟨xs, ys, htiles⟩ := List.append_of_mem hx
  have hplace : place s L x = some .smallHeap := by
    rw [place, if_pos hx, if_pos hreserved]
  have hole := hole_of_unlink h htiles hplace
  have hfreed := freed_of_unlink h htiles (l := s.links.remove (.entry x))
  rw [smallFree, readEntry_eq_ok (h.page _ (List.ne_nil_of_mem hx)).owned] at hok
  obtain ⟨_, ⟨⟩, hok⟩ := bind_eq_ok.mp hok
  obtain ⟨_, -, hok⟩ := bind_eq_ok.mp hok
  obtain ⟨_, -, hok⟩ := bind_eq_ok.mp hok
  obtain ⟨_, -, hok⟩ := bind_eq_ok.mp hok
  have hundisturbed := Hole.smallInternalFree_undisturbed hole (fun _ => hreserved) hok
  exact (Valid.unlink_undisturbed h hplace z hz).trans
    (hundisturbed z ((hfreed.used z).mpr ⟨hz, hzx⟩))

theorem largeFree_undisturbed (h : Valid s L) (hx : L.large x = true)
    (hok : largeFree s x = .ok s') : Undisturbed s L s' := by
  have hblock := h.large x hx
  have hge := hblock.length_ge
  obtain ⟨howned, htiles⟩ := hblock.owned _ le_rfl (by omega)
  have hplace : place s L x = some .largeHeap := by
    rw [place, htiles, if_neg List.not_mem_nil, if_pos hx]
  obtain ⟨_, -, hok⟩ := bind_eq_ok.mp hok
  rw [readEntry_eq_ok howned] at hok
  obtain ⟨_, ⟨⟩, hok⟩ := bind_eq_ok.mp hok
  obtain ⟨_, -, hok⟩ := bind_eq_ok.mp hok
  obtain ⟨_, -, hok⟩ := bind_eq_ok.mp hok
  obtain ⟨_, -, hok⟩ := bind_eq_ok.mp hok
  cases hok
  exact Valid.unlink_undisturbed h hplace

theorem heapFree_untouched (h : Valid s L) (hx : Used s L x) (hok : heapFree s (x + 16) = .ok s')
    (hz : Used s L z) (hzx : z ≠ x) : Untouched s s' z (s.entries z).length := by
  rw [heapFree, if_neg (by omega), heapOf_eq h hx] at hok
  obtain ⟨_, ⟨⟩, hok⟩ := bind_eq_ok.mp hok
  dsimp only at hok
  rw [freeBlock] at hok
  rcases hx with ⟨hmem, hreserved⟩ | hlarge
  · rw [if_pos (small_magic_eq h.toSound hmem)] at hok
    exact smallFree_untouched h hmem hreserved hok hz hzx
  · rw [if_neg (large_magic_ne h.toSound hlarge)] at hok
    exact largeFree_undisturbed h hlarge hok z hz

theorem smallExtend_undisturbed {orig : Nat} (h : Valid s L) (hx : x ∈ L.tiles (pageOf x))
    (hok : smallExtend s x length (s.entries x).length = .ok (some (orig, s'))) :
    Undisturbed s L s' := by
  obtain ⟨xs, ys, htiles⟩ := List.append_of_mem hx
  have hpage := h.page _ (List.ne_nil_of_mem hx)
  rw [htiles] at hpage
  obtain ⟨-, -, hafter, -, -⟩ := page_split hpage
  rw [smallExtend] at hok
  split_ifs at hok
  · rw [smallGetNextHeap_eq rfl hpage.owned hafter] at hok
    obtain ⟨_, ⟨⟩, hok⟩ := bind_eq_ok.mp hok
    cases ys with
    | nil => cases hok
    | cons y ys =>
        have hpage' : pageOf y = pageOf x := hpage.pageOf_eq (by simp)
        dsimp only [List.head?_cons] at hok
        obtain ⟨_, -, hok⟩ := bind_eq_ok.mp hok
        split_ifs at hok
        · cases hok
        · cases hok
          obtain ⟨node, hplace⟩ := place_of_mem (L := L) (by simp [hpage', htiles]) hafter.2.1
          exact Valid.unlink_undisturbed h hplace
  · cases hok
    exact Undisturbed.refl s L

/-- What is resized in place keeps the bytes which it had before and has afterwards. -/
theorem smallReAlloc_untouched (h : Valid s L) (hx : x ∈ L.tiles (pageOf x))
    (hreserved : (s.entries x).reserved = true) (hpos : 0 < length)
    (hok : smallReAlloc s x length = .ok (some y, s')) :
    Untouched s s' x (min (s.entries x).length (s'.entries x).length) ∧
      ∀ z, Used s L z → z ≠ x → Untouched s s' z (s.entries z).length := by
  have hused : Used s L x := Or.inl ⟨hx, hreserved⟩
  rw [smallReAlloc, readEntry_eq_ok (h.page _ (List.ne_nil_of_mem hx)).owned] at hok
  obtain ⟨_, ⟨⟩, hok⟩ := bind_eq_ok.mp hok
  obtain ⟨_, -, hok⟩ := bind_eq_ok.mp hok
  obtain ⟨_, -, hok⟩ := bind_eq_ok.mp hok
  obtain ⟨_, -, hok⟩ := bind_eq_ok.mp hok
  split_ifs at hok with hlarge
  · cases hok
  · simp only [ENTRY_SIZE, Nat.not_lt] at hlarge
    obtain ⟨halign, -, hge, -⟩ := blockLength_bounds hpos (by omega)
    rcases smallExtend_eq h hx hreserved (blockLength length) with
      hextend | ⟨s₁, L₁, xs, orig, ys, hextend, hspan, hsame, hle⟩
    · rw [hextend] at hok
      cases hok
    · have hextended := smallExtend_undisturbed h hx hextend
      obtain ⟨n, hn⟩ : ∃ n, n = usedLength (blockLength length) orig := ⟨_, rfl⟩
      obtain ⟨hentry, -, hrest⟩ := usedLength_rest halign hge hspan.aligned hle
      rw [← hn] at hentry hrest
      obtain ⟨hspan', hused'⟩ := hspan.write n
      obtain ⟨s₂, hs₂⟩ : ∃ s₂ : Heap, s₂ = { s₁ with
          entries := Function.update s₁.entries x (usedEntry n) } := ⟨_, rfl⟩
      rw [← hs₂] at hspan' hused'
      have hself : s₂.entries x = usedEntry n := by
        rw [hs₂]
        exact Function.update_self ..
      have hreturn : smallReturnRest s₂ x n orig = .ok s' := by
        rw [hextend] at hok
        obtain ⟨_, ⟨⟩, hok⟩ := bind_eq_ok.mp hok
        obtain ⟨_, -, hok⟩ := bind_eq_ok.mp hok
        obtain ⟨s₂', hwrite, hok⟩ := bind_eq_ok.mp hok
        rw [writeEntry_eq_ok hspan.owned] at hwrite
        cases hwrite
        obtain ⟨_, hreturn, hok⟩ := bind_eq_ok.mp hok
        cases hok
        rw [hs₂, hn]
        exact hreturn
      have hentry' : SmallEntry (s₂.entries x) := hself.symm ▸ hentry
      have hlength : (s₂.entries x).length = n := congrArg HeapEntry.length hself
      obtain ⟨s₃, L₃, hreturn', -, hsame₃⟩ := hspan'.smallReturnRest_eq n hentry' hlength hrest
      obtain rfl : s₃ = s' := Except.ok.inj (hreturn'.symm.trans hreturn)
      have hreturned := Span.smallReturnRest_undisturbed hspan' hentry' hlength hrest hreturn
      -- the header of `x` is not inside of a block
      have hwritten : ∀ z, Used s L z → Untouched s s₂ z (s.entries z).length := by
        intro z hz w hlt hw
        have hne : w ≠ x := by
          rintro rfl
          obtain ⟨node, hplace⟩ := place_of_mem hx
            ((h.page _ (List.ne_nil_of_mem hx)).tiles.mem hx).1
          rw [place_eq_none_of_inside h.toSound (Used.block hz) hlt hw] at hplace
          cases hplace
        rw [hs₂]
        exact (hextended z hz w hlt hw).trans (quiet_write s₁ _ hne)
      have hafter : ∀ z, Used s L z → Used s₂ L₁ z := fun z hz =>
        (hused' z).mpr ((hsame.used z).mpr hz)
      constructor
      · refine ((hwritten x hused).mono (Nat.min_le_left _ _)).trans ?_
        rw [hsame₃.entries x (hafter x hused)]
        exact (hreturned x (hafter x hused)).mono (Nat.min_le_right _ _)
      · intro z hz hzx
        have hsame₂ : s₂.entries z = s.entries z := by
          rw [hs₂, ← hsame.entries z hz]
          exact Function.update_of_ne hzx _ _
        refine (hwritten z hz).trans ?_
        rw [← hsame₂]
        exact hreturned z (hafter z hz)

end

end Ibnos.HeapWrites
