import Ibnos.HeapRequests
import Ibnos.HeapWrites

/-!
What the functions of the heap do to the payloads of the blocks.
-/

namespace Ibnos.HeapPayloads

open Ibnos.Allocator hiding pagingAllocatePhysMem pagingReAllocatePhysMem smallTake smallAlloc
  largeAlloc largeReAlloc allocBlock heapAlloc heapMove reallocBlock heapReAlloc
open Ibnos.ByteMemories
open Ibnos.HeapBytes
open Ibnos.HeapLayout
open Ibnos.HeapOperations
open Ibnos.HeapRequests
open Ibnos.HeapRuns
open Ibnos.HeapWrites
open Ibnos.Runs

/-- The bytes of the block `z` are the same up to the offset `n`, except for its header. -/
def Kept (s s' : Store) (z n : Nat) : Prop :=
  ∀ i, 16 ≤ i → i < n → s'.bytes (z + i) = s.bytes (z + i)

/-- The payloads of the blocks in use are the same. -/
def KeptUsed (s : Store) (L : Layout) (s' : Store) : Prop :=
  ∀ z, Used s.heap L z → Kept s s' z (s.heap.entries z).length

section

variable {image : Heap → Memory} {s s' s'' : Store} {L L' : Layout} {x z n length : Nat}
  {fresh : FreshPages}

theorem Kept.trans (h : Kept s s' z n) (h' : Kept s' s'' z n) : Kept s s'' z n :=
  fun i hi hlt => (h' i hi hlt).trans (h i hi hlt)

theorem Kept.mono {m : Nat} (h : Kept s s' z n) (hm : m ≤ n) : Kept s s' z m :=
  fun i hi hlt => h i hi (by omega)

theorem KeptUsed.trans (h : KeptUsed s L s') (hsame : SameUsed s.heap L s'.heap L')
    (h' : KeptUsed s' L' s'') : KeptUsed s L s'' := by
  intro z hz
  have hkept := h' z ((hsame.used z).mpr hz)
  rw [hsame.entries z hz] at hkept
  exact (h z hz).trans hkept

/-- Writes to headers elsewhere do not change a payload. -/
theorem kept_write {h : Heap} (huntouched : Untouched s.heap h z n) :
    Kept s (s.write image h) z n := by
  intro i hi hlt
  refine if_neg ?_
  rw [wrote, List.any_eq_true]
  rintro ⟨j, hj, hcontra⟩
  simp only [List.mem_range, ENTRY_SIZE] at hj
  simp only [decide_eq_true_eq] at hcontra
  exact hcontra.2 (huntouched _ (by omega) (by omega))

theorem owned_of_inside (h : Valid s.heap L) (hz : Used s.heap L z) {i : Nat}
    (hi : i < (s.heap.entries z).length) : s.heap.owned (pageOf (z + i)) = true :=
  owned_of_range h (Used.block hz) hi

/-- Bytes on pages of the heap do not lie in the pages it gets. -/
theorem not_fresh {h : Heap} (hfresh : fresh.Suitable h n) {y : Nat}
    (howned : h.owned (pageOf y) = true) :
    y < fresh.page * PAGE_SIZE ∨ fresh.page * PAGE_SIZE + n * PAGE_SIZE ≤ y := by
  have hpage : ¬(fresh.page ≤ pageOf y ∧ pageOf y < fresh.page + n) := by
    rintro ⟨hle, hlt⟩
    have hfree := hfresh.2.2.2 (pageOf y - fresh.page) (by omega)
    rw [Nat.add_sub_cancel' hle, howned] at hfree
    cases hfree
  simp only [pageOf, PAGE_SIZE] at hpage ⊢
  omega

theorem pagingAllocatePhysMem_ok {heap : Nat}
    (hok : HeapBytes.pagingAllocatePhysMem s n fresh = .ok (heap, s')) :
    fresh.Suitable s.heap n ∧ heap = fresh.page * PAGE_SIZE ∧
      s'.bytes = copy fresh.bytes heap s.bytes heap (n * PAGE_SIZE) := by
  obtain ⟨⟨heap', h⟩, halloc, hok⟩ := bind_eq_ok.mp hok
  cases hok
  rw [Allocator.pagingAllocatePhysMem] at halloc
  split_ifs at halloc with hfresh
  cases halloc
  exact ⟨hfresh, rfl, rfl⟩

theorem pagingAllocatePhysMem_kept (h : Valid s.heap L) {heap : Nat}
    (hok : HeapBytes.pagingAllocatePhysMem s n fresh = .ok (heap, s')) : KeptUsed s L s' := by
  obtain ⟨hfresh, rfl, hbytes⟩ := pagingAllocatePhysMem_ok hok
  intro z hz i _ hlt
  rw [hbytes]
  exact copy_frame (not_fresh hfresh (owned_of_inside h hz hlt))

theorem smallTake_kept (h : Valid s.heap L) {heap orig : Nat}
    (hok : HeapBytes.smallTake image s length fresh = .ok (heap, orig, s')) :
    KeptUsed s L s' := by
  rw [HeapBytes.smallTake] at hok
  rcases smallFindUnusedHeapEntry_eq h length with hfind | ⟨y, hfind, -, -, -, node, hplace⟩
  · rw [hfind] at hok
    obtain ⟨_, ⟨⟩, hok⟩ := bind_eq_ok.mp hok
    obtain ⟨⟨heap', s₁⟩, halloc, hok⟩ := bind_eq_ok.mp hok
    cases hok
    intro z hz
    have hkept : Kept s (s.write image s.heap) z (s.heap.entries z).length :=
      kept_write (Untouched.refl s.heap z (s.heap.entries z).length)
    exact hkept.trans (pagingAllocatePhysMem_kept (s := s.write image s.heap) h halloc z hz)
  · rw [hfind] at hok
    obtain ⟨_, ⟨⟩, hok⟩ := bind_eq_ok.mp hok
    obtain ⟨_, -, hok⟩ := bind_eq_ok.mp hok
    obtain ⟨_, -, hok⟩ := bind_eq_ok.mp hok
    obtain ⟨_, -, hok⟩ := bind_eq_ok.mp hok
    obtain ⟨_, -, hok⟩ := bind_eq_ok.mp hok
    obtain ⟨_, -, hok⟩ := bind_eq_ok.mp hok
    cases hok
    exact fun z hz => kept_write (Valid.unlink_undisturbed h hplace z hz)

theorem smallAlloc_kept (h : Valid s.heap L) (hpos : 0 < length) (hsmall : length ≤ 1008)
    {heap : Nat} (hok : HeapBytes.smallAlloc image s length fresh = .ok (heap, s')) :
    KeptUsed s L s' := by
  obtain ⟨halign, -, hge, hmax⟩ := blockLength_bounds hpos hsmall
  obtain ⟨⟨heap', orig, s₁⟩, htake, hok⟩ := bind_eq_ok.mp hok
  obtain ⟨h₁, hwrite, hok⟩ := bind_eq_ok.mp hok
  obtain ⟨h₂, hreturn, hok⟩ := bind_eq_ok.mp hok
  cases hok
  have htaken : Except.map (fun r => (r.1, r.2.1, r.2.2.heap))
      (HeapBytes.smallTake image s (blockLength length) fresh) =
        Allocator.smallTake s.heap (blockLength length) fresh.toFresh := smallTake_heap
  rw [htake] at htaken
  rcases smallTake_eq h (blockLength length) (by omega) fresh.toFresh with
    htake' | ⟨_, L₁, pg, xs, _, _, ys, htake', hole, hsame, hle⟩
  · rw [htake'] at htaken
    cases htaken
  · rw [htake'] at htaken
    cases htaken
    rw [writeEntry_eq_ok (hole.pageOf_eq.symm ▸ hole.owned)] at hwrite
    cases hwrite
    obtain ⟨hentry, -, hrest⟩ := usedLength_rest halign hge hole.aligned hle
    obtain ⟨hspan, hallocated⟩ := hole_reserve hole (usedLength (blockLength length) orig)
    have hreserved := Hole.reserve_undisturbed hole (usedEntry (usedLength (blockLength length) orig))
    have hreturned := Span.smallReturnRest_undisturbed hspan (by simpa using hentry)
      (by simp [usedEntry]) hrest hreturn
    refine (smallTake_kept h htake).trans hsame fun z hz => kept_write ?_
    have hreturned := hreturned z ((hallocated.used z).mpr (Or.inl hz))
    rw [hallocated.entries z hz] at hreturned
    exact (hreserved z hz).trans hreturned

/-- The header of a large block is written, and the block enters its list. -/
theorem untouched_place {h h' : Heap} {y : Nat} {e : HeapEntry} (hsound : Sound h L)
    (hother : h'.links = h.links) (hin : ∀ w, z < w → w < z + n → ¬Block L w ∧ w ≠ y) :
    Untouched h' { h' with
      entries := Function.update h'.entries y e
      links := h'.links.addAfter .largeHeap (.entry y) } z n := by
  intro w hlt hw
  obtain ⟨hblock, hne⟩ := hin w hlt hw
  have hlink := quiet_link hsound.linked .largeHeap (by exact nofun)
    (place_eq_none hblock) hne
  refine ⟨Function.update_of_ne hne _ _, ?_⟩
  rw [hother]
  exact hlink.2

theorem largeAlloc_kept (h : Valid s.heap L) {heap : Nat}
    (hok : HeapBytes.largeAlloc image s length fresh = .ok (heap, s')) : KeptUsed s L s' := by
  obtain ⟨⟨heap', s₁⟩, halloc, hok⟩ := bind_eq_ok.mp hok
  obtain ⟨h₁, hwrite, hok⟩ := bind_eq_ok.mp hok
  cases hok
  obtain ⟨hfresh, rfl, -⟩ := pagingAllocatePhysMem_ok halloc
  obtain ⟨_, halloc', hsound, hsame, -⟩ := pagingAllocatePhysMem_eq h.toSound hfresh
  have hheap := pagingAllocatePhysMem_heap (s := s) fresh (largeLength length / PAGE_SIZE)
  rw [halloc, halloc'] at hheap
  cases hheap
  rw [writeEntry] at hwrite
  split_ifs at hwrite
  cases hwrite
  intro z hz
  refine (pagingAllocatePhysMem_kept h halloc z hz).trans (kept_write ?_)
  refine untouched_place hsound rfl fun w hlt hw => ?_
  have hz₁ := (hsame.used z).mpr hz
  refine ⟨not_block_of_inside hsound (Used.block hz₁) hlt ?_, ?_⟩
  · rwa [hsame.entries z hz]
  · rintro rfl
    have hin := not_fresh hfresh (owned_of_inside h hz (show fresh.page * PAGE_SIZE - z < _ by omega))
    have hpages := hfresh.1
    rw [Nat.add_sub_cancel' (by omega)] at hin
    simp only [PAGE_SIZE] at hin hpages
    omega

theorem heapAlloc_kept (h : Valid s.heap L) (hpos : 0 < length) {addr : Nat}
    (hok : HeapBytes.heapAlloc image s length fresh = .ok (addr, s')) : KeptUsed s L s' := by
  rw [HeapBytes.heapAlloc, if_neg (by omega)] at hok
  obtain ⟨⟨heap, s₁⟩, halloc, hok⟩ := bind_eq_ok.mp hok
  cases hok
  rw [HeapBytes.allocBlock] at halloc
  split_ifs at halloc with hsmall
  · exact smallAlloc_kept h hpos hsmall halloc
  · exact largeAlloc_kept h halloc

/-- The block `x` became the block `y`, which has room for `length` bytes, and took its
payload with it. -/
structure Carried (s : Store) (L : Layout) (x length y : Nat) (s' : Store) (L' : Layout) :
    Prop where
  valid : Valid s'.heap L'
  moved : Moved s.heap L x y s'.heap L'
  room : length + 16 ≤ (s'.heap.entries y).length
  payload : ∀ i, 16 ≤ i → i < (s.heap.entries x).length → i < length + 16 →
    s'.bytes (y + i) = s.bytes (x + i)
  others : ∀ z, Used s.heap L z → z ≠ x → Kept s s' z (s.heap.entries z).length

theorem memcpy_frame {dst src y : Nat} {copied : Garbage} (hy : y < dst ∨ dst + n ≤ y) :
    (s.memcpy dst src n copied).bytes y = s.bytes y := copy_frame hy

theorem heapMove_carried (h : Valid s.heap L) (hx : Used s.heap L x) (hpos : 0 < length)
    (hmax : length ≤ MAX_LENGTH) (copied : Garbage) :
    HeapBytes.heapMove image s (x + 16) x length fresh copied = .error .outOfMemory ∨
      ∃ y s' L', HeapBytes.heapMove image s (x + 16) x length fresh copied = .ok (y + 16, s') ∧
        Carried s L x length y s' L' := by
  rw [HeapBytes.heapMove]
  rcases heapAlloc_eq h hpos hmax fresh.toFresh with
    halloc | ⟨y, h₁, L₁, halloc, hvalid, hallocated, hroom⟩
  · left
    rw [heapOnly_error (heapAlloc_heap.trans halloc)]
    rfl
  · right
    have halloc : heapOnly (HeapBytes.heapAlloc image s length fresh) = .ok (y + 16, h₁) :=
      heapAlloc_heap.trans halloc
    obtain ⟨s₁, hs₁, rfl⟩ := heapOnly_ok halloc
    have hkept := heapAlloc_kept h hpos hs₁
    have hx₁ : Used s₁.heap L₁ x := (hallocated.used x).mpr (Or.inl hx)
    have hy₁ : Used s₁.heap L₁ y := (hallocated.used y).mpr (Or.inr rfl)
    have hyx : y ≠ x := by
      rintro rfl
      exact hallocated.unused hx
    have hsize := payloadLength_eq hvalid.toSound (Used.block hx₁)
    have hge := Block.length_ge hvalid.toSound (Used.block hx₁)
    obtain ⟨n, hn⟩ : ∃ n, n = min length (payloadLength (s₁.heap.entries x)) := ⟨_, rfl⟩
    obtain ⟨s₂, hs₂⟩ : ∃ s₂, s₂ = s₁.memcpy (y + 16) (x + 16) n copied := ⟨_, rfl⟩
    have hcopied : s₂.heap = s₁.heap.overwrite (y + 16) (y + 16 + n) copied := by rw [hs₂]; rfl
    obtain ⟨hvalid₂, hsame⟩ := valid_overwrite hvalid (Used.block hy₁) (y + 16) (y + 16 + n) copied
      le_rfl (by omega)
    rw [← hcopied] at hvalid₂ hsame
    obtain ⟨h₃, L₃, hfree, hvalid₃, hfreed⟩ := heapFree_eq hvalid₂ ((hsame.used x).mpr hx₁)
    have huntouched : ∀ z, Used s₁.heap L₁ z → z ≠ x →
        Untouched s₂.heap h₃ z (s₁.heap.entries z).length := by
      intro z hz hzx
      rw [← hsame.entries z hz]
      exact heapFree_untouched hvalid₂ ((hsame.used x).mpr hx₁) hfree ((hsame.used z).mpr hz) hzx
    refine ⟨y, s₂.write image h₃, L₃, ?_, hvalid₃, ⟨?_, ?_, fun _ => hallocated.unused⟩, ?_, ?_, ?_⟩
    · rw [hs₁]
      simp only [bind, Except.bind, if_neg (show y + 16 ≠ 0 by omega)]
      rw [readEntry_eq_ok (owned_of_block hvalid.toSound (Used.block hx₁)).1]
      simp only [← hn, ← hs₂, hfree]
      rfl
    · intro z
      change Used h₃ L₃ z ↔ _
      rw [hfreed.used z, hsame.used z, hallocated.used z]
      rcases eq_or_ne z y with rfl | hzy
      · simp [hyx]
      · simp [hzy]
    · intro z hz hzx
      have hz₁ : Used s₁.heap L₁ z := (hallocated.used z).mpr (Or.inl hz)
      exact ((hfreed.entries z ((hsame.used z).mpr hz₁) hzx).trans (hsame.entries z hz₁)).trans
        (hallocated.entries z hz)
    · change length + 16 ≤ (h₃.entries y).length
      rw [hfreed.entries y ((hsame.used y).mpr hy₁) hyx, hsame.entries y hy₁]
      exact hroom
    · intro i hi hlt hlength
      have hentry := hallocated.entries x hx
      rw [kept_write (huntouched y hy₁ hyx) i hi (by omega), ← hkept x hx i hi hlt, hs₂]
      change copy s₁.bytes (x + 16) s₁.bytes (y + 16) n (y + i) = s₁.bytes (x + i)
      obtain ⟨j, rfl⟩ := Nat.exists_eq_add_of_le hi
      rw [show y + (16 + j) = y + 16 + j by omega, show x + (16 + j) = x + 16 + j by omega]
      rw [← hentry] at hlt
      exact copy_apply (by omega)
    · intro z hz hzx i hi hlt
      have hz₁ : Used s₁.heap L₁ z := (hallocated.used z).mpr (Or.inl hz)
      have hzy : z ≠ y := by
        rintro rfl
        exact hallocated.unused hz
      have hentry := hallocated.entries z hz
      have hdisjoint := blocks_disjoint hvalid.toSound (Used.block hz₁) (Used.block hy₁) hzy
      rw [kept_write (huntouched z hz₁ hzx) i hi (by rwa [hentry]), ← hkept z hz i hi hlt, hs₂]
      rw [hentry] at hdisjoint
      exact memcpy_frame (by omega)

theorem place_of_large (h : Valid s.heap L) (hx : L.large x = true) :
    place s.heap L x = some .largeHeap := by
  have hblock := h.large x hx
  have hge := hblock.length_ge
  rw [place, (hblock.owned _ le_rfl (by omega)).2, if_neg List.not_mem_nil, if_pos hx]

/-- The pages of a large block, with its header, are somewhere else now. -/
theorem pagingReAllocatePhysMem_eq {old : Nat} {h₁ : Heap}
    (halloc : Allocator.pagingAllocatePhysMem (pagingReleasePhysMem s.heap x old) n fresh.toFresh =
      .ok (fresh.page * 4096, h₁)) (howned : h₁.owned (pageOf (fresh.page * 4096)) = true) :
    ∃ bytes, HeapBytes.pagingReAllocatePhysMem s x old n fresh = .ok (fresh.page * 4096,
        ⟨{ h₁ with entries := Function.update h₁.entries (fresh.page * 4096) (s.heap.entries x) },
          bytes⟩) ∧
      (∀ i, i < min old n * 4096 → bytes (fresh.page * 4096 + i) = s.bytes (x + i)) ∧
      ∀ y, y < fresh.page * 4096 ∨ fresh.page * 4096 + n * 4096 ≤ y → bytes y = s.bytes y := by
  refine ⟨copy s.bytes x (copy fresh.bytes (fresh.page * 4096) s.bytes (fresh.page * 4096)
    (n * PAGE_SIZE)) (fresh.page * 4096) (min old n * PAGE_SIZE), ?_, ?_, ?_⟩
  · rw [HeapBytes.pagingReAllocatePhysMem, Allocator.pagingReAllocatePhysMem, halloc]
    simp only [bind, Except.bind]
    rw [writeEntry_eq_ok howned]
    rfl
  · intro i hi
    exact copy_apply (by simpa only [PAGE_SIZE] using hi)
  · intro y hy
    have hle := Nat.mul_le_mul_right PAGE_SIZE (Nat.min_le_right old n)
    have hy : y < fresh.page * 4096 ∨ fresh.page * 4096 + n * PAGE_SIZE ≤ y := hy
    exact (copy_frame (by omega)).trans (copy_frame hy)

/-- A large block which moves to other pages, and gets its header there. -/
theorem large_carried (image : Heap → Memory) {s₁ : Store} (h : Valid s.heap L) (hx : L.large x = true)
    (hheap : s₁.heap = { s.heap with links := s.heap.links.remove (.entry x) })
    (hkept : ∀ z, Used s.heap L z → Kept s s₁ z (s.heap.entries z).length)
    (hpages : n * 4096 < 2 ^ 31) (hroom : length + 16 ≤ n * 4096)
    (hfresh : fresh.Suitable (pagingReleasePhysMem s₁.heap x
      ((s.heap.entries x).length / PAGE_SIZE)) n) :
    ∃ h₂ bytes, HeapBytes.pagingReAllocatePhysMem s₁ x ((s.heap.entries x).length / PAGE_SIZE) n
        fresh = .ok (fresh.page * 4096, ⟨h₂, bytes⟩) ∧
      h₂.owned (pageOf (fresh.page * 4096)) = true ∧
      h₂.entries (fresh.page * 4096) = s.heap.entries x ∧
      Carried s L x length (fresh.page * 4096) (Store.write image ⟨h₂, bytes⟩ { h₂ with
          entries := Function.update h₂.entries (fresh.page * 4096) (largeEntry (n * 4096))
          links := h₂.links.addAfter .largeHeap (.entry (fresh.page * 4096)) })
        (Layout.setLarge (Layout.setLarge L x false) (fresh.page * 4096) true) := by
  obtain ⟨hvalid, hfreed⟩ := unlink_large h hx
  rw [← hheap] at hvalid hfreed
  obtain ⟨h₁, halloc, howned, hvalid', hallocated⟩ := largePlace_eq hvalid hfresh hpages
  obtain ⟨_, halloc', hsound, -, -⟩ := pagingAllocatePhysMem_eq hvalid.toSound hfresh
  rw [halloc] at halloc'
  cases halloc'
  obtain ⟨bytes, hrealloc, hcopied, hframe⟩ := pagingReAllocatePhysMem_eq halloc howned
  have hentry : s₁.heap.entries x = s.heap.entries x := by rw [hheap]
  rw [hentry] at hrealloc
  obtain ⟨h₂, hh₂⟩ : ∃ h₂ : Heap, h₂ = { h₁ with
      entries := Function.update h₁.entries (fresh.page * 4096) (s.heap.entries x) } := ⟨_, rfl⟩
  rw [← hh₂] at hrealloc
  refine ⟨h₂, bytes, hrealloc, by rw [hh₂]; exact howned, by rw [hh₂]; exact Function.update_self .., ?_⟩
  obtain ⟨h₃, hh₃⟩ : ∃ h₃ : Heap, h₃ = { h₂ with
      entries := Function.update h₂.entries (fresh.page * 4096) (largeEntry (n * 4096))
      links := h₂.links.addAfter .largeHeap (.entry (fresh.page * 4096)) } := ⟨_, rfl⟩
  have hheap₃ : h₃ = { h₁ with
      entries := Function.update h₁.entries (fresh.page * 4096) (largeEntry (n * 4096))
      links := h₁.links.addAfter .largeHeap (.entry (fresh.page * 4096)) } := by
    rw [hh₃, hh₂]
    simp only [Function.update_idem]
  -- no header is written inside of the new block or of the other ones
  have hplaced : ∀ z m, (∀ w, z < w → w < z + m →
      ¬Block (Layout.setLarge L x false) w ∧ w ≠ fresh.page * 4096) →
      Kept ⟨h₂, bytes⟩ (Store.write image ⟨h₂, bytes⟩ h₃) z m := by
    intro z m hin
    rw [hh₃]
    exact kept_write (untouched_place hsound (by rw [hh₂]) hin)
  rw [← hh₃]
  refine ⟨?_, ?_, ?_, ?_, ?_⟩
  · rw [← hheap₃] at hvalid'
    exact hvalid'
  · have hmoved := Freed.moved hfreed hallocated
    rw [← hheap₃] at hmoved
    exact ⟨hmoved.used, hmoved.entries, hmoved.unused⟩
  · change length + 16 ≤ (h₃.entries _).length
    rw [hh₃]
    simp only [Function.update_self]
    exact hroom
  · intro i hi hlt hle
    rw [hplaced (fresh.page * 4096) (n * 4096) ?_ i hi (by omega)]
    · have hdiv : (s.heap.entries x).length / PAGE_SIZE * 4096 = (s.heap.entries x).length :=
        Nat.div_mul_cancel (Nat.dvd_of_mod_eq_zero (h.large x hx).length)
      refine (hcopied i ?_).trans (hkept x (Or.inr hx) i hi hlt)
      rw [Nat.min_def]
      split_ifs <;> omega
    · intro w hlt hw
      refine ⟨fun hblock => ?_, by omega⟩
      have hin := not_fresh hfresh (owned_of_block hvalid.toSound hblock).1
      simp only [PAGE_SIZE] at hin
      omega
  · intro z hz hzx i hi hlt
    have hz₁ := (hfreed.used z).mpr ⟨hz, hzx⟩
    have hinside : ∀ j, j < (s.heap.entries z).length →
        z + j < fresh.page * 4096 ∨ fresh.page * 4096 + n * 4096 ≤ z + j := by
      intro j hj
      rw [← hfreed.entries z hz hzx] at hj
      exact not_fresh hfresh (owned_of_range hvalid (Used.block hz₁) hj)
    rw [hplaced z (s.heap.entries z).length ?_ i hi hlt]
    · exact (hframe (z + i) (hinside i hlt)).trans (hkept z hz i hi hlt)
    · intro w hlt hw
      have hout := hinside (w - z) (by omega)
      rw [← hfreed.entries z hz hzx] at hw
      exact ⟨not_block_of_inside hvalid.toSound (Used.block hz₁) hlt hw, by omega⟩

theorem largeReAlloc_carried (image : Heap → Memory) (h : Valid s.heap L)
    (hx : L.large x = true) (hmax : length ≤ MAX_LENGTH) :
    HeapBytes.largeReAlloc image s x length fresh = .ok (none, s) ∨
      HeapBytes.largeReAlloc image s x length fresh = .error .outOfMemory ∨
      ∃ y s' L', HeapBytes.largeReAlloc image s x length fresh = .ok (some y, s') ∧
        Carried s L x length y s' L' := by
  have hblock := h.large x hx
  have hge := hblock.length_ge
  have halign : x % PAGE_SIZE = 0 := hblock.aligned
  have hlength : (s.heap.entries x).length % PAGE_SIZE = 0 := hblock.length
  obtain ⟨n, hn⟩ : ∃ n, n = largeLength length / PAGE_SIZE := ⟨_, rfl⟩
  obtain ⟨hpages, hroom, hstored⟩ := largeLength_div hn hmax
  rw [HeapBytes.largeReAlloc, check_eq_ok (decide_eq_true halign),
    readEntry_eq_ok (hblock.owned _ le_rfl (by omega)).1]
  simp only [bind, Except.bind, check_eq_ok (decide_eq_true hblock.magic),
    check_eq_ok (decide_eq_true hlength)]
  split_ifs with hsmall hsame
  · exact Or.inl rfl
  · refine Or.inr (Or.inr ⟨x, s, L, rfl, h, Resized.moved ⟨fun _ => Iff.rfl, fun _ _ _ => rfl⟩
      (Or.inr hx), ?_, fun _ _ _ _ => rfl, fun _ _ _ _ _ _ => rfl⟩)
    rw [hn, hsame] at hroom
    exact hroom.trans_eq (Nat.div_mul_cancel (Nat.dvd_of_mod_eq_zero hlength))
  · right
    obtain ⟨s₁, hs₁⟩ : ∃ s₁, s₁ = s.write image { s.heap with
      links := s.heap.links.remove (.entry x) } := ⟨_, rfl⟩
    have hheap : s₁.heap = { s.heap with links := s.heap.links.remove (.entry x) } := by
      rw [hs₁]
      rfl
    have hkept : ∀ z, Used s.heap L z → Kept s s₁ z (s.heap.entries z).length := by
      intro z hz
      rw [hs₁]
      exact kept_write (Valid.unlink_undisturbed h (place_of_large h hx) z hz)
    rw [← hs₁, ← hn]
    rcases Classical.em (fresh.Suitable (pagingReleasePhysMem s₁.heap x
        ((s.heap.entries x).length / PAGE_SIZE)) n) with hfresh | hfresh
    · right
      obtain ⟨h₂, bytes, hrealloc, howned, hself, hcarried⟩ :=
        large_carried image h hx hheap hkept hpages hroom hfresh
      refine ⟨_, _, _, ?_, hcarried⟩
      rw [hrealloc]
      simp only [readEntry_eq_ok howned, hself, writeEntry_eq_ok howned, hblock.magic, hstored]
      rfl
    · left
      rw [HeapBytes.pagingReAllocatePhysMem, Allocator.pagingReAllocatePhysMem,
        Allocator.pagingAllocatePhysMem, if_neg hfresh]
      rfl

theorem smallReAlloc_carried (image : Heap → Memory) (h : Valid s.heap L)
    (hx : x ∈ L.tiles (pageOf x)) (hreserved : (s.heap.entries x).reserved = true) (hpos : 0 < length) :
    smallReAlloc s.heap x length = .ok (none, s.heap) ∨
      ∃ h' L', smallReAlloc s.heap x length = .ok (some x, h') ∧
        Carried s L x length x (s.write image h') L' := by
  rcases smallReAlloc_eq h hx hreserved hpos with
    hrealloc | ⟨h', L', hrealloc, hvalid, hresized, hroom⟩
  · exact Or.inl hrealloc
  · right
    obtain ⟨hself, hothers⟩ := smallReAlloc_untouched h hx hreserved hpos hrealloc
    refine ⟨h', L', hrealloc, hvalid, Resized.moved hresized (Or.inl ⟨hx, hreserved⟩), hroom, ?_,
      fun z hz hzx => kept_write (hothers z hz hzx)⟩
    intro i hi hlt hle
    exact kept_write hself i hi (Nat.lt_min.mpr ⟨hlt, by omega⟩)

theorem write_self (s : Store) : s.write image s.heap = s := by
  have hbytes : (s.write image s.heap).bytes = s.bytes := by
    funext y
    refine if_neg ?_
    rw [wrote, List.any_eq_true]
    rintro ⟨j, -, hcontra⟩
    simp only [decide_eq_true_eq] at hcontra
    exact hcontra.2 (Quiet.refl s.heap _)
  rcases s with ⟨h, bytes⟩
  exact congrArg (Store.mk h) hbytes

theorem heapReAlloc_carried (image : Heap → Memory) (fresh : FreshPages) (h : Valid s.heap L)
    (hx : Used s.heap L x) (hpos : 0 < length) (hmax : length ≤ MAX_LENGTH) (copied : Garbage) :
    HeapBytes.heapReAlloc image s (x + 16) length fresh copied = .error .outOfMemory ∨
      ∃ y s' L', HeapBytes.heapReAlloc image s (x + 16) length fresh copied = .ok (y + 16, s') ∧
        Carried s L x length y s' L' := by
  rw [HeapBytes.heapReAlloc, if_neg (by omega), if_neg (by omega), heapOf_eq h hx]
  simp only [bind, Except.bind, HeapBytes.reallocBlock]
  rcases hx with ⟨hmem, hreserved⟩ | hlarge
  · rw [if_pos (small_magic_eq h.toSound hmem)]
    rcases smallReAlloc_carried image h hmem hreserved hpos with
      hrealloc | ⟨h', L', hrealloc, hcarried⟩
    · rw [hrealloc]
      simp only [pure, Except.pure, write_self]
      exact heapMove_carried h (Or.inl ⟨hmem, hreserved⟩) hpos hmax copied
    · rw [hrealloc]
      exact Or.inr ⟨x, _, L', rfl, hcarried⟩
  · rw [if_neg (large_magic_ne h.toSound hlarge)]
    rcases largeReAlloc_carried image h hlarge hmax with
      hrealloc | hrealloc | ⟨y, s', L', hrealloc, hcarried⟩
    · rw [hrealloc]
      exact heapMove_carried h (Or.inr hlarge) hpos hmax copied
    · rw [hrealloc]
      exact Or.inl rfl
    · rw [hrealloc]
      exact Or.inr ⟨y, s', L', rfl, hcarried⟩

end

section

/-! A block of 100 bytes which is asked to have 200 bytes. -/

end

end Ibnos.HeapPayloads
