import Ibnos.FileContents
import Ibnos.HeapRequests

/-!
Writes at any position of any length. The end of the data is computed with 32 bits, so a
write which goes around is taken for one inside of the file.
-/

namespace Ibnos.FileBounds

open Ibnos.Blocks
open Ibnos.Strings
open Ibnos.FileContents
open Ibnos.Runs

/-- The bytes of a block behind the header, as the heap computes them. -/
def capacity (length : Nat) : Nat :=
  (if length ≤ 1024 - Allocator.ENTRY_SIZE then Allocator.blockLength length
    else Allocator.largeLength length) - Allocator.ENTRY_SIZE

/-- The longest request for which the length of the block does not go around. -/
def LONGEST : Nat := 2 ^ 32 - Allocator.PAGE_SIZE - Allocator.ENTRY_SIZE

/-- A block has room for the request if the length which was computed for it has. -/
def Allotted (a : Answer) (length : Nat) : Prop :=
  a.granted = true → (length ≤ a.length ↔ length ≤ capacity length)

/-- What was stored is in front of the end of the file, the buffer reaches this end, and
the position moved by the result. -/
structure Inside (pos : Nat) (w : Written) : Prop where
  stored : ∀ r ∈ w.stored, r.start + r.count ≤ w.file.size
  buffer : ∀ b, w.file.buffer = some b → w.file.size ≤ b.length
  empty : w.file.buffer = none → w.file.size = 0
  pos : (w.pos : Int) = pos + w.result

def StaysInside (f : File) (pos : Nat) (buf : Bytes) (a : Answer) : Prop :=
  ∃ w, openedFileWrite f pos buf a = .ok w ∧ Inside pos w

/-- The number of bytes which are written if the sum of position and length does not go around. -/
def writtenCount (f : File) (pos length : Nat) (a : Answer) : Nat :=
  if f.size < pos + length ∧ a.granted = false then f.size - pos else length

section

variable {f : File} {pos n : Nat} {buf : Bytes} {a : Answer} {w : Written} {stored : List Range}

theorem le_capacity_iff (hpos : 0 < n) (hlt : n < WORD) : n ≤ capacity n ↔ n ≤ LONGEST := by
  rw [WORD] at hlt
  rw [capacity, LONGEST]
  by_cases hsmall : n ≤ 1024 - Allocator.ENTRY_SIZE
  · rw [if_pos hsmall]
    simp only [Allocator.blockLength, Allocator.ENTRY_SIZE, Allocator.PAGE_SIZE,
      Allocator.HEAP_ALIGN_SIZE] at *
    omega
  · rw [if_neg hsmall]
    simp only [Allocator.largeLength, Allocator.ENTRY_SIZE, Allocator.PAGE_SIZE] at *
    omega

/-- The heap of the kernel has pages for all bytes of the requests up to the longest one. -/
theorem heapAlloc_mapped {s s' : Allocator.Heap} {L : HeapLayout.Layout} {addr : Nat}
    {fresh : Allocator.Fresh} (h : HeapLayout.Valid s L) (hpos : 0 < n) (hle : n ≤ LONGEST)
    (hok : Allocator.heapAlloc s n fresh = .ok (addr, s')) {i : Nat} (hi : i < n) :
    s'.owned (Allocator.pageOf (addr + i)) = true := by
  rcases Nat.lt_or_ge Allocator.MAX_LENGTH n with hlarge | hsmall
  · have hlong : 2 ^ 31 - 4112 < n := hlarge
    have hlongest : n ≤ 2 ^ 32 - 4112 := hle
    rw [Allocator.heapAlloc, if_neg (by omega)] at hok
    obtain ⟨⟨heap, s₁⟩, halloc, hok⟩ := bind_eq_ok.mp hok
    rw [Allocator.allocBlock, if_neg (by simp only [Allocator.ENTRY_SIZE]; omega)] at halloc
    cases hok
    obtain ⟨rfl, -, -, howned⟩ := HeapRequests.largeAlloc_header halloc
    have hpage : Allocator.pageOf (fresh.page * 4096 + Allocator.ENTRY_SIZE + i) =
        fresh.page + (Allocator.ENTRY_SIZE + i) / 4096 := by
      simp only [Allocator.pageOf, Allocator.PAGE_SIZE]
      omega
    rw [hpage]
    apply howned
    simp only [Allocator.largeLength, Allocator.ENTRY_SIZE, Allocator.PAGE_SIZE]
    omega
  · exact (HeapRequests.honoured_of_le h hpos hsmall hok).mapped i hi

theorem written_of_copyData (h : copyData f pos buf stored = .ok w) :
    ∃ b c, f.buffer = some b ∧ w.file = { f with buffer := some c } ∧ c.length = b.length ∧
      w.pos = (pos + buf.length) % WORD ∧ w.result = (buf.length : Int).bmod WORD ∧
      w.stored = stored ++ [⟨pos, buf.length⟩] := by
  rw [copyData] at h
  split at h
  · cases h
  · rename_i b hb
    obtain ⟨c, hc, h⟩ := bind_eq_ok.mp h
    cases hstore : b.storeList pos buf with
    | error e =>
        rw [hstore] at hc
        cases hc
    | ok d =>
        rw [hstore] at hc
        cases hc
        cases h
        exact ⟨b, c, hb, rfl, length_of_storeList hstore, rfl, by simp only, rfl⟩

theorem bmod_eq_self_iff (hlt : n < WORD) : (n : Int).bmod WORD = n ↔ n < 2 ^ 31 := by
  rw [WORD] at *
  constructor
  · intro h
    have := Int.bmod_lt (x := (n : Int)) (m := 2 ^ 32) (by decide)
    omega
  · intro h
    apply Int.bmod_eq_of_le <;> omega

theorem inBuffer_eq_ok {α : Type} {x : Except OutOfBounds α} {y : α} (h : inBuffer x = .ok y) :
    x = .ok y := by
  cases x with
  | error e => cases h
  | ok x =>
      cases h
      rfl

theorem length_of_copyStatic {b c : Block UInt8} (h : copyStatic f b = .ok (c, stored)) :
    c.length = b.length := by
  rw [copyStatic] at h
  split at h
  · obtain ⟨_, -, h⟩ := bind_eq_ok.mp h
    obtain ⟨_, hstore, h⟩ := bind_eq_ok.mp h
    cases h
    exact length_of_storeList hstore
  · cases h
    rfl

theorem length_of_clearGap {b c : Block UInt8} (h : clearGap f pos b = .ok (c, stored)) :
    c.length = b.length := by
  rw [clearGap] at h
  split_ifs at h
  · obtain ⟨_, hstore, h⟩ := bind_eq_ok.mp h
    cases h
    exact length_of_storeList hstore
  · cases h
    rfl

theorem newBuffer_granted (hn : n ≠ 0) (ha : a.granted = true) :
    ∃ b, newBuffer f n a = some b ∧ b.length = a.length := by
  have halloc : heapAlloc a n = some ⟨a.length, a.bytes⟩ := if_pos ⟨hn, ha⟩
  rw [newBuffer]
  split
  · exact ⟨_, if_pos ⟨hn, ha⟩, rfl⟩
  · exact ⟨_, halloc, rfl⟩

theorem newBuffer_refused (ha : a.granted = false) : newBuffer f n a = none := by
  rw [newBuffer]
  split <;> simp [heapReAlloc, heapAlloc, ha]

/-- What a write did if it got a new buffer. -/
theorem written_of_granted (hbuf : buf.length ≠ 0) (hgrow : f.size < (pos + buf.length) % WORD)
    (ha : a.granted = true) (h : openedFileWrite f pos buf a = .ok w) :
    ∃ b, w.file.buffer = some b ∧ b.length = a.length ∧ w.file.size = (pos + buf.length) % WORD ∧
      ⟨pos, buf.length⟩ ∈ w.stored ∧ w.pos = (pos + buf.length) % WORD ∧
      w.result = (buf.length : Int).bmod WORD := by
  obtain ⟨b, hb, hblen⟩ :=
    newBuffer_granted (f := f) (n := (pos + buf.length) % WORD) (Nat.ne_of_gt (by omega)) ha
  simp only [openedFileWrite, if_neg hbuf, if_pos hgrow, hb] at h
  obtain ⟨⟨c, copied⟩, hcopy, h⟩ := bind_eq_ok.mp h
  obtain ⟨⟨d, cleared⟩, hclear, h⟩ := bind_eq_ok.mp h
  have hclen := length_of_copyStatic (inBuffer_eq_ok hcopy)
  have hdlen := length_of_clearGap (inBuffer_eq_ok hclear)
  obtain ⟨_, e, ⟨⟩, hfile, helen, hwpos, hresult, hstored⟩ := written_of_copyData h
  refine ⟨e, ?_, ?_, ?_, ?_, hwpos, hresult⟩
  · rw [hfile]
  · exact helen.trans (hdlen.trans (hclen.trans hblen))
  · rw [hfile]
  · rw [hstored]
    simp

theorem openedFileWrite_refused (hbuf : buf.length ≠ 0) (hgrow : f.size < (pos + buf.length) % WORD)
    (ha : a.granted = false) : openedFileWrite f pos buf a =
      if f.isHeap ∧ pos < f.size then
        if f.size - pos < buf.length then copyData f pos (buf.take (f.size - pos)) []
        else .error .assertion
      else .ok ⟨f, pos, 0, []⟩ := by
  simp only [openedFileWrite, if_neg hbuf, if_pos hgrow, newBuffer_refused ha]

theorem openedFileWrite_kept (hbuf : buf.length ≠ 0) (hkept : ¬f.size < (pos + buf.length) % WORD) :
    openedFileWrite f pos buf a = copyData f pos buf [] := by
  simp only [openedFileWrite, if_neg hbuf, if_neg hkept]

/-- Nothing is written and nothing changes. -/
theorem inside_nothing (hf : f.WellFormed) : Inside pos ⟨f, pos, 0, []⟩ :=
  ⟨nofun, hf.buffer, fun h => (hf.empty h).2, (Int.add_zero _).symm⟩

/-- The bytes which fit into the file are written. -/
theorem staysInside_fits (hf : f.WellFormed) (hbuf : buf.length ≠ 0)
    (hfits : pos + buf.length ≤ f.size) (hcount : buf.length < 2 ^ 31) :
      StaysInside f pos buf a := by
  have hlt := hf.size_lt
  obtain ⟨b, hb, hw⟩ := openedFileWrite_inside (a := a) hf hbuf hfits
  refine ⟨_, hw, ?_, ?_, nofun, ?_⟩
  · simpa using hfits
  · rintro _ ⟨⟩
    exact hf.buffer b hb
  · simp only [(bmod_eq_self_iff (n := buf.length) (by omega)).mpr hcount, Int.natCast_add]

theorem staysInside_grows (hf : f.WellFormed) (hbuf : buf.length ≠ 0)
    (hlt : pos + buf.length < WORD) (hgrow : f.size < pos + buf.length) (ha : a.granted = true)
    (hroom : pos + buf.length ≤ a.length) (hcount : buf.length < 2 ^ 31) :
    StaysInside f pos buf a := by
  obtain ⟨b, stored, hw, hblen, -, hstored⟩ := openedFileWrite_grows hf hbuf hlt hgrow ha hroom
  refine ⟨_, hw, hstored, ?_, nofun, ?_⟩
  · rintro _ ⟨⟩
    exact hblen ▸ hroom
  · simp only [(bmod_eq_self_iff (n := buf.length) (by omega)).mpr hcount, Int.natCast_add]

/-- The bytes in front of the end of the file are written where there is no block. -/
theorem staysInside_partial (hf : f.WellFormed) (hbuf : buf.length ≠ 0)
    (hlt : pos + buf.length < WORD) (hgrow : f.size < pos + buf.length) (ha : a.granted = false)
    (hheap : f.isHeap = true) (hpos : pos < f.size) (hcount : f.size - pos < 2 ^ 31) :
    StaysInside f pos buf a := by
  have hmod : (pos + buf.length) % WORD = pos + buf.length := Nat.mod_eq_of_lt hlt
  have htake : (buf.take (f.size - pos)).length = f.size - pos := by
    rw [List.length_take]
    omega
  have hw : openedFileWrite f pos buf a = openedFileWrite f pos (buf.take (f.size - pos)) a := by
    rw [openedFileWrite_refused hbuf (by omega) ha, if_pos ⟨hheap, hpos⟩, if_pos (by omega),
      openedFileWrite_kept (by omega)]
    rw [htake]
    exact Nat.not_lt.mpr ((Nat.mod_le _ _).trans (by omega))
  rw [StaysInside, hw]
  exact staysInside_fits hf (by omega) (by omega) (by omega)

end

/-- Nothing is written, or the end of the data is a number of 32 bits, the result one of
31 bits, and the length of a new block does not go around either. -/
def Bounded (f : File) (pos length : Nat) (a : Answer) : Prop :=
  length = 0 ∨
  (f.size < (pos + length) % WORD ∧ a.granted = false ∧ ¬(f.isHeap = true ∧ pos < f.size)) ∨
  (pos + length < WORD ∧ writtenCount f pos length a < 2 ^ 31 ∧
    (f.size < pos + length → a.granted = true → pos + length ≤ LONGEST))

section

variable {f : File} {pos : Nat} {buf : Bytes} {a : Answer}

theorem staysInside_of_bounded (hf : f.WellFormed) (ha : Allotted a ((pos + buf.length) % WORD))
    (h : Bounded f pos buf.length a) : StaysInside f pos buf a := by
  rcases h with hzero | ⟨hgrow, hrefused, hnothing⟩ | ⟨hlt, hcount, hlongest⟩
  · exact ⟨_, if_pos hzero, inside_nothing hf⟩
  · by_cases hbuf : buf.length = 0
    · exact ⟨_, if_pos hbuf, inside_nothing hf⟩
    · refine ⟨_, ?_, inside_nothing hf⟩
      rw [openedFileWrite_refused hbuf hgrow hrefused, if_neg hnothing]
  · have hmod : (pos + buf.length) % WORD = pos + buf.length := Nat.mod_eq_of_lt hlt
    rw [hmod] at ha
    by_cases hbuf : buf.length = 0
    · exact ⟨_, if_pos hbuf, inside_nothing hf⟩
    by_cases hgrow : f.size < pos + buf.length
    · cases hgranted : a.granted with
      | true =>
          have hroom := (ha hgranted).mpr
            ((le_capacity_iff (by omega) hlt).mpr (hlongest hgrow hgranted))
          rw [writtenCount, if_neg (by simp [hgranted])] at hcount
          exact staysInside_grows hf hbuf hlt hgrow hgranted hroom hcount
      | false =>
          rw [writtenCount, if_pos ⟨hgrow, hgranted⟩] at hcount
          by_cases hsome : f.isHeap = true ∧ pos < f.size
          · exact staysInside_partial hf hbuf hlt hgrow hgranted hsome.1 hsome.2 hcount
          · refine ⟨_, ?_, inside_nothing hf⟩
            rw [openedFileWrite_refused hbuf (by omega) hgranted, if_neg hsome]
    · rw [writtenCount, if_neg (fun h => hgrow h.1)] at hcount
      exact staysInside_fits hf hbuf (Nat.le_of_not_lt hgrow) hcount

theorem bounded_of_staysInside (hf : f.WellFormed) (hlen : buf.length < WORD)
    (ha : Allotted a ((pos + buf.length) % WORD)) (h : StaysInside f pos buf a) :
    Bounded f pos buf.length a := by
  obtain ⟨w, hw, hinside⟩ := h
  have hsize := hf.size_lt
  by_cases hbuf : buf.length = 0
  · exact Or.inl hbuf
  by_cases hgrow : f.size < (pos + buf.length) % WORD
  · cases hgranted : a.granted with
    | true =>
        obtain ⟨b, hb, hblen, hwsize, hmem, hwpos, hresult⟩ :=
          written_of_granted hbuf hgrow hgranted hw
        have hend := hinside.stored _ hmem
        have hroom := hinside.buffer b hb
        have hmoved := hinside.pos
        have hlt : pos + buf.length < WORD := by
          refine Nat.lt_of_le_of_lt (hend.trans (Nat.le_of_eq hwsize)) (Nat.mod_lt _ ?_)
          exact Nat.two_pow_pos 32
        have hmod : (pos + buf.length) % WORD = pos + buf.length := Nat.mod_eq_of_lt hlt
        rw [hwpos, hresult, hmod, Int.natCast_add] at hmoved
        rw [hblen, hwsize] at hroom
        rw [hmod] at ha hroom hgrow
        clear hmod hwsize hwpos
        refine Or.inr (Or.inr ⟨hlt, ?_, fun _ _ => ?_⟩)
        · rw [writtenCount, if_neg (by simp [hgranted])]
          exact (bmod_eq_self_iff hlen).mp (by omega)
        · exact (le_capacity_iff (by omega) hlt).mp ((ha hgranted).mp hroom)
    | false =>
        by_cases hsome : f.isHeap = true ∧ pos < f.size
        · -- a sum which goes around is less than the position
          have hlt : pos + buf.length < WORD := by
            rw [WORD] at *
            omega
          have hmod : (pos + buf.length) % WORD = pos + buf.length := Nat.mod_eq_of_lt hlt
          have htake : (buf.take (f.size - pos)).length = f.size - pos := by
            rw [List.length_take]
            omega
          rw [openedFileWrite_refused hbuf hgrow hgranted] at hw
          rw [hmod] at hgrow
          clear hmod
          have hshort : f.size - pos < buf.length := by omega
          rw [if_pos hsome, if_pos hshort] at hw
          obtain ⟨-, -, -, -, -, hwpos, hresult, -⟩ := written_of_copyData hw
          have hmoved := hinside.pos
          rw [htake] at hwpos hresult
          rw [hwpos, hresult, show pos + (f.size - pos) = f.size by omega,
            Nat.mod_eq_of_lt hsize] at hmoved
          refine Or.inr (Or.inr ⟨hlt, ?_, fun _ hcontra => nomatch hgranted.symm.trans hcontra⟩)
          rw [writtenCount, if_pos ⟨by omega, hgranted⟩]
          exact (bmod_eq_self_iff (by omega)).mp (by omega)
        · exact Or.inr (Or.inl ⟨hgrow, hgranted, hsome⟩)
  · rw [openedFileWrite_kept hbuf hgrow] at hw
    obtain ⟨b, c, hb, hfile, -, hwpos, hresult, hstored⟩ := written_of_copyData hw
    have hend := hinside.stored ⟨pos, buf.length⟩ (by simp [hstored])
    have hwsize : w.file.size = f.size := by rw [hfile]
    simp only [hwsize] at hend
    have hlt : pos + buf.length < WORD := by omega
    have hmod : (pos + buf.length) % WORD = pos + buf.length := Nat.mod_eq_of_lt hlt
    have hmoved := hinside.pos
    rw [hwpos, hresult, hmod, Int.natCast_add] at hmoved
    refine Or.inr (Or.inr ⟨hlt, ?_, fun hcontra _ => ?_⟩)
    · rw [writtenCount, if_neg (by omega)]
      exact (bmod_eq_self_iff hlen).mp (by omega)
    · omega

/-- Which writes stay inside of the buffer, for any position and any length of 32 bits. -/
theorem write_stays_inside_iff (hf : f.WellFormed) (hlen : buf.length < WORD)
    (ha : Allotted a ((pos + buf.length) % WORD)) :
    StaysInside f pos buf a ↔ Bounded f pos buf.length a :=
  ⟨bounded_of_staysInside hf hlen ha, staysInside_of_bounded hf ha⟩

end

def smallBlock : Answer := ⟨true, 16, fun _ => 255⟩

theorem write_stays_inside_iff_small :
    StaysInside (fileCreate none 0) 5 [66] smallBlock ↔
      Bounded (fileCreate none 0) 5 1 smallBlock :=
  write_stays_inside_iff (wellFormed_fileCreate (Nat.two_pow_pos 32) nofun)
    (by decide : 1 < WORD) (fun _ => by decide)

/-- Five bytes are written, and then one at the last position which there is. -/
theorem write_goes_around :
    (step ⟨fileCreate none 0, fun _ => 0⟩ (.write 0 [1, 2, 3, 4, 5] smallBlock) >>= fun r =>
      step r.1 (.signal 0 0xFFFFFFFF) >>= fun r => step r.1 (.write 0 [66] smallBlock)) =
        .error (.outOfBounds 0xFFFFFFFF) ∧
      ∃ f : File, f.WellFormed ∧ Allotted smallBlock ((0xFFFFFFFF + 1) % WORD) ∧
        openedFileWrite f 0xFFFFFFFF [66] smallBlock = .error (.outOfBounds 0xFFFFFFFF) ∧
        ¬StaysInside f 0xFFFFFFFF [66] smallBlock := by
  have hwrite : openedFileWrite ⟨true, some ⟨16, fun _ => 0⟩, 5⟩ 0xFFFFFFFF [66] smallBlock =
      .error (.outOfBounds 0xFFFFFFFF) := rfl
  refine ⟨rfl, ⟨true, some ⟨16, fun _ => 0⟩, 5⟩, ⟨by decide, ?_, nofun⟩, fun _ => by decide,
    hwrite, ?_⟩
  · rintro _ ⟨⟩
    decide
  · rintro ⟨w, hw, -⟩
    cases hwrite.symm.trans hw

end Ibnos.FileBounds
