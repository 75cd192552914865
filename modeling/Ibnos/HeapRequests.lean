import Ibnos.HeapRuns

/-!
Requests of any length. The length of a large block is computed with 32 bits and stored
with 31 bits, so the longest requests get a block which is too short or which is never
given back.
-/

namespace Ibnos.HeapRequests

open Ibnos.LinkedLists
open Ibnos.Allocator
open Ibnos.HeapLayout
open Ibnos.HeapOperations
open Ibnos.HeapRuns
open Ibnos.Runs

section

/-- The pointer which was returned for `length` bytes. -/
structure Honoured (s : Heap) (L : Layout) (length addr : Nat) (s' : Heap) : Prop where
  aligned : addr % 16 = 0
  disjoint : ∀ y, Used s L y → addr + length ≤ y ∨ y + (s.entries y).length ≤ addr
  mapped : ∀ b, b < length → s'.owned (pageOf (addr + b)) = true
  size : ∃ n, heapSize s' addr = .ok n ∧ length ≤ n
  freed : ∃ s'' L'', heapFree s' addr = .ok s'' ∧ Valid s'' L'' ∧
    (∀ y, Used s'' L'' y ↔ Used s L y) ∧ ∀ pg, s''.owned pg = true → s.owned pg = true

variable {s s' : Heap} {L L' : Layout} {x length addr pg : Nat} {fresh : Fresh}

/-- There is a block in use on every page. -/
theorem exists_used {xs : List Nat} (h : Page s pg xs) (hne : xs ≠ []) :
    ∃ y ∈ xs, (s.entries y).reserved = true := by
  have htiles := h.tiles
  have hcoalesced := h.coalesced
  rcases xs with _ | ⟨a, _ | ⟨b, xs⟩⟩
  · exact (hne rfl).elim
  · obtain ⟨rfl, -⟩ := htiles
    exact ⟨_, List.mem_singleton_self _, h.reserved rfl⟩
  · rcases (List.isChain_cons_cons.mp hcoalesced).1 with ha | hb
    · exact ⟨a, List.mem_cons_self, ha⟩
    · exact ⟨b, List.mem_cons_of_mem a List.mem_cons_self, hb⟩

/-- The bytes of a block are on pages of the heap. -/
theorem owned_of_range (h : Valid s L) (hx : Block L x) {b : Nat} (hb : b < (s.entries x).length) :
    s.owned (pageOf (x + b)) = true := by
  rcases hx with hmem | hlarge
  · have hpage := h.page _ (List.ne_nil_of_mem hmem)
    obtain ⟨-, hle, hle'⟩ := hpage.tiles.mem hmem
    rw [pageOf_eq_iff.mpr (show pageOf x * 4096 ≤ x + b ∧ x + b < pageOf x * 4096 + 4096 by omega)]
    exact hpage.owned
  · have hblock := h.large x hlarge
    have haligned := hblock.aligned
    have hlength := hblock.length
    refine (hblock.owned _ ?_ ?_).1 <;> simp only [pageOf, PAGE_SIZE] <;> omega

/-- The pages of a heap are known from its blocks in use. -/
theorem owned_of_used (h : Valid s L) (h' : Valid s' L') (hused : ∀ y, Used s' L' y → Used s L y)
    (hentries : ∀ y, Used s' L' y → s'.entries y = s.entries y) (howned : s'.owned pg = true) :
    s.owned pg = true := by
  rcases eq_or_ne (L'.tiles pg) [] with hnil | hne
  · obtain ⟨x, hlarge, hle, hlt⟩ := h'.covered pg howned hnil
    have hx : Used s' L' x := Or.inr hlarge
    have haligned := (h'.large x hlarge).aligned
    rw [hentries x hx] at hlt
    have hpage : pageOf (x + (pg - pageOf x) * 4096) = pg := by
      simp only [pageOf, PAGE_SIZE] at *
      omega
    rw [← hpage]
    exact owned_of_range h (Used.block (hused x hx)) (by omega)
  · have hpage := h'.page pg hne
    obtain ⟨y, hy, hreserved⟩ := exists_used hpage hne
    have hpg := hpage.pageOf_eq hy
    rw [← hpg] at hy
    have hblock := Used.block (hused y (Or.inl ⟨hy, hreserved⟩))
    rw [← hpg]
    exact (owned_of_block h.toSound hblock).1

theorem honoured_of_le (h : Valid s L) (hpos : 0 < length) (hmax : length ≤ MAX_LENGTH)
    (hok : heapAlloc s length fresh = .ok (addr, s')) : Honoured s L length addr s' := by
  rcases heapAlloc_eq h hpos hmax fresh with halloc | ⟨y, s₁, L₁, halloc, hvalid, hallocated, hroom⟩
  · rw [halloc] at hok
    cases hok
  · rw [halloc] at hok
    cases hok
    have hy : Used s' L₁ y := (hallocated.used y).mpr (Or.inr rfl)
    have halign := (owned_of_block hvalid.toSound (Used.block hy)).2
    obtain ⟨s'', L'', hfree, hvalid', hfreed⟩ := heapFree_eq hvalid hy
    have hused : ∀ z, Used s'' L'' z ↔ Used s L z := by
      intro z
      rw [hfreed.used, hallocated.used]
      constructor
      · rintro ⟨hz | hz, hne⟩
        · exact hz
        · exact (hne hz).elim
      · intro hz
        refine ⟨Or.inl hz, ?_⟩
        rintro rfl
        exact hallocated.unused hz
    refine ⟨by omega, fun z hz => ?_, fun b hb => ?_, ⟨_, heapSize_eq hvalid hy, by omega⟩, s'', L'',
      hfree, hvalid', hused, ?_⟩
    · have hz' : Used s' L₁ z := (hallocated.used z).mpr (Or.inl hz)
      have hne : y ≠ z := by
        rintro rfl
        exact hallocated.unused hz
      have hdisjoint := blocks_disjoint hvalid.toSound (Used.block hy) (Used.block hz') hne
      rw [hallocated.entries z hz] at hdisjoint
      omega
    · rw [Nat.add_assoc]
      exact owned_of_range hvalid (Used.block hy) (by omega)
    · intro pg howned
      refine owned_of_used h hvalid' (fun z hz => (hused z).mp hz) (fun z hz => ?_) howned
      obtain ⟨hz', hne⟩ := (hfreed.used z).mp hz
      rw [hfreed.entries z hz' hne]
      exact hallocated.entries z ((hused z).mp hz)

end

section

variable {s s' s'' : Heap} {L : Layout} {length addr n : Nat} {fresh : Fresh}

/-- The header of a large block, and the pages it got. -/
theorem largeAlloc_header {heap : Nat} (hok : largeAlloc s length fresh = .ok (heap, s')) :
    heap = fresh.page * 4096 ∧ fresh.Suitable s (largeLength length / 4096) ∧
      s'.entries heap = ⟨LARGE_HEAP_MAGIC, largeLength length % 2 ^ 31, true⟩ ∧
      ∀ i, i < largeLength length / 4096 → s'.owned (fresh.page + i) = true := by
  rw [largeAlloc] at hok
  obtain ⟨⟨heap', s₁⟩, halloc, hok⟩ := bind_eq_ok.mp hok
  obtain ⟨s₂, hwrite, hok⟩ := bind_eq_ok.mp hok
  rw [pagingAllocatePhysMem] at halloc
  split at halloc
  · next hfresh =>
    cases halloc
    rw [writeEntry] at hwrite
    split at hwrite
    · cases hwrite
      cases hok
      refine ⟨rfl, hfresh, Function.update_self .., fun i hi => ?_⟩
      exact if_pos ⟨by omega, by simp only [PAGE_SIZE]; omega⟩
    · cases hwrite
  · cases halloc

/-- Only the pages which the header knows of are given back. -/
theorem heapFree_large {e : HeapEntry} (hpage : addr = n * 4096 + 16)
    (he : s.entries (n * 4096) = e)
    (hmagic : e.heapMagic = LARGE_HEAP_MAGIC) (hok : heapFree s addr = .ok s') {pg : Nat}
    (hpg : n + e.length / 4096 ≤ pg) : s'.owned pg = s.owned pg := by
  subst hpage
  rw [heapFree, if_neg (by omega)] at hok
  obtain ⟨⟨heap, e'⟩, hheap, hok⟩ := bind_eq_ok.mp hok
  obtain ⟨_, -, hheap⟩ := bind_eq_ok.mp hheap
  obtain ⟨e₁, hread, hheap⟩ := bind_eq_ok.mp hheap
  obtain ⟨_, -, hheap⟩ := bind_eq_ok.mp hheap
  obtain ⟨_, -, hheap⟩ := bind_eq_ok.mp hheap
  cases hheap
  have hhead : n * 4096 + 16 - ENTRY_SIZE = n * 4096 := Nat.add_sub_cancel _ _
  rw [hhead] at hread hok
  have hentry : ∀ {e₂}, readEntry s (n * 4096) = .ok e₂ → e₂ = e := by
    intro e₂ h
    rw [readEntry] at h
    split at h
    · cases h
      exact he
    · cases h
  obtain rfl := hentry hread
  dsimp only at hok
  rw [freeBlock, if_neg (by rw [hmagic]; decide), largeFree] at hok
  obtain ⟨_, -, hok⟩ := bind_eq_ok.mp hok
  obtain ⟨e₂, hread', hok⟩ := bind_eq_ok.mp hok
  obtain rfl := hentry hread'
  obtain ⟨_, -, hok⟩ := bind_eq_ok.mp hok
  obtain ⟨_, -, hok⟩ := bind_eq_ok.mp hok
  obtain ⟨_, -, hok⟩ := bind_eq_ok.mp hok
  cases hok
  refine if_neg ?_
  simp only [pageOf, PAGE_SIZE] at *
  omega

theorem not_honoured (hlt : length < 2 ^ 32) (hmax : MAX_LENGTH < length)
    (hok : heapAlloc s length fresh = .ok (addr, s')) : ¬Honoured s L length addr s' := by
  intro hhonoured
  have hlong : 2 ^ 31 - 4112 < length := hmax
  rw [heapAlloc, if_neg (by omega)] at hok
  obtain ⟨⟨heap, s₁⟩, halloc, hok⟩ := bind_eq_ok.mp hok
  rw [allocBlock, if_neg (by simp only [ENTRY_SIZE]; omega)] at halloc
  cases hok
  obtain ⟨rfl, hfresh, hentry, howned⟩ := largeAlloc_header halloc
  have hpages := hfresh.1
  rcases Nat.lt_or_ge length (2 ^ 32 - 4111) with hshort | hwraps
  · -- the last page is not given back
    obtain ⟨s'', L'', hfree, -, -, hreleased⟩ := hhonoured.freed
    have hlength : 2 ^ 31 ≤ largeLength length ∧ largeLength length < 2 ^ 32 := by
      simp only [largeLength, ENTRY_SIZE, PAGE_SIZE]
      omega
    have hlast : largeLength length / 4096 - 1 < largeLength length / 4096 := by omega
    have hkept : s''.owned (fresh.page + (largeLength length / 4096 - 1)) = true := by
      rw [heapFree_large rfl hentry rfl hfree (by dsimp only; omega)]
      exact howned _ hlast
    have hbefore := hfresh.2.2.2 _ hlast
    rw [hreleased _ hkept] at hbefore
    cases hbefore
  · -- the block has one page
    obtain ⟨n, hsize, hle⟩ := hhonoured.size
    have hlength : largeLength length = 4096 := by
      simp only [largeLength, ENTRY_SIZE, PAGE_SIZE] at *
      omega
    rw [heapSize, if_neg (by simp only [ENTRY_SIZE]; omega)] at hsize
    obtain ⟨⟨_, e⟩, hheap, hsize⟩ := bind_eq_ok.mp hsize
    obtain ⟨_, -, hheap⟩ := bind_eq_ok.mp hheap
    obtain ⟨e₁, hread, hheap⟩ := bind_eq_ok.mp hheap
    obtain ⟨_, -, hheap⟩ := bind_eq_ok.mp hheap
    obtain ⟨_, -, hheap⟩ := bind_eq_ok.mp hheap
    cases hheap
    obtain rfl := Except.ok.inj hsize
    rw [readEntry] at hread
    split at hread
    · cases hread
      rw [Nat.add_sub_cancel, hentry, hlength, payloadLength] at hle
      simp only [ENTRY_SIZE] at hle
      omega
    · cases hread

/-- Whatever is asked for is there if and only if the length of its block can be stored. -/
theorem heapAlloc_honours_iff (h : Valid s L) (hpos : 0 < length) (hlt : length < 2 ^ 32)
    (hok : heapAlloc s length fresh = .ok (addr, s')) :
    Honoured s L length addr s' ↔ length ≤ MAX_LENGTH := by
  constructor
  · intro hhonoured
    by_contra hmax
    exact not_honoured hlt (Nat.not_le.mp hmax) hok hhonoured
  · intro hmax
    exact honoured_of_le h hpos hmax hok

end

section

/-! The heap at boot, and a page for it. -/

def sampleHeap : Heap := (State.init fun _ => ⟨0, 0, false⟩).heap

def sampleFresh : Fresh where
  entries _ := ⟨0, 0, false⟩
  links := { next := id, prev := id }
  page := 1

theorem sample_facts : ((heapAlloc sampleHeap 100 sampleFresh).toOption.map Prod.fst,
    (heapAlloc sampleHeap 0xFFFFFFFF sampleFresh).toOption.map Prod.fst) =
      (some 0x1010, some 0x1010) := by
  decide +kernel

theorem sample_valid : Valid sampleHeap { tiles := fun _ => [], large := fun _ => false } :=
  (running_init fun _ => ⟨0, 0, false⟩).valid

theorem heapAlloc_honours_iff_sample :
    ∃ s', heapAlloc sampleHeap 100 sampleFresh = .ok (0x1010, s') ∧
    Honoured sampleHeap { tiles := fun _ => [], large := fun _ => false } 100 0x1010 s' := by
  obtain ⟨⟨addr, s'⟩, hok, rfl⟩ := Option.map_eq_some_iff.mp (Prod.mk.inj sample_facts).1
  have hok := toOption_eq_some hok
  exact ⟨s', hok, (heapAlloc_honours_iff sample_valid (by decide) (by decide) hok).mpr (by decide)⟩

/-- The block for almost 4 GB is a page long. -/
theorem heapAlloc_not_honoured :
    ∃ s', heapAlloc sampleHeap 0xFFFFFFFF sampleFresh = .ok (0x1010, s') ∧
      Valid sampleHeap { tiles := fun _ => [], large := fun _ => false } ∧
      ¬Honoured sampleHeap { tiles := fun _ => [], large := fun _ => false } 0xFFFFFFFF
        0x1010 s' := by
  obtain ⟨⟨addr, s'⟩, hok, rfl⟩ := Option.map_eq_some_iff.mp (Prod.mk.inj sample_facts).2
  have hok := toOption_eq_some hok
  exact ⟨s', hok, sample_valid, not_honoured (by decide) (by decide) hok⟩

end

section

/-! The heap keeps no page which none of its blocks is in. -/

variable {s : Heap} {L : Layout} {pg : Nat}

end

end Ibnos.HeapRequests
