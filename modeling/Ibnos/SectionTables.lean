import Ibnos.ElfLoader

/-!
The first loop of the loader. Its list holds the pages of all sections, and every entry
of the list is one block of the heap.
-/

namespace Ibnos.SectionTables

open Ibnos.ByteMemories
open Ibnos.ElfLoader
open Ibnos.Intervals
open Ibnos.Memory
open Ibnos.Paging
open Ibnos.Programs

section

variable {b : Buffer} {header : ElfHeader} {i : Nat} {s : Loader}

def entryOffset (header : ElfHeader) (i : Nat) : Nat := header.shoff + i * header.shentsize

/-- The entry `i` of the table, if it is part of the file. -/
def entryAt (b : Buffer) (header : ElfHeader) (i : Nat) : Option ElfSection :=
  if entryOffset header i + SECTION_SIZE ≤ b.length then
    some (sectionAt b.contents (entryOffset header i))
  else none

/-- The pointer to the entry in front of the next one. -/
structure Reads (b : Buffer) (header : ElfHeader) (i : Nat) : Prop where
  offset : entryOffset header i ≤ b.length
  shentsize : header.shentsize < 2 ^ 16

theorem half_lt (m : ByteMemories.Memory) (a : Nat) : half m a < 2 ^ 16 := by
  have h₀ := (m a).isLt
  have h₁ := (m (a + 1)).isLt
  rw [half]
  omega

theorem entryOffset_succ (header : ElfHeader) (i : Nat) :
    entryOffset header (i + 1) = entryOffset header i + header.shentsize := by
  rw [entryOffset, entryOffset, Nat.succ_mul, Nat.add_assoc]

/-- The pointer does not run around the address space. -/
theorem Reads.next (h : Reads b header i) :
    (entryOffset header i + header.shentsize) % 2 ^ 32 = entryOffset header (i + 1) ∧
      (entryOffset header (i + 1) + SECTION_SIZE) % 2 ^ 32 = entryOffset header (i + 1) +
        SECTION_SIZE := by
  have hoffset := h.offset
  have hfits := b.fits
  have hsize := h.shentsize
  rw [entryOffset_succ]
  simp only [Buffer.length, KERNEL_PAGE, PAGE_SIZE, SECTION_SIZE] at *
  omega

theorem nextSection_eq (h : Reads b header i) :
    nextSection b header (entryOffset header i) s = .ok (entryAt b header (i + 1), s) := by
  obtain ⟨hnext, hend⟩ := h.next
  rw [nextSection, hnext, hend, entryAt]
  rcases Nat.lt_or_ge b.length (entryOffset header (i + 1) + SECTION_SIZE) with hlt | hle
  · rw [if_pos hlt, if_neg (Nat.not_le.mpr hlt)]
    rfl
  · rw [if_neg (Nat.not_lt.mpr hle), if_pos hle, readBuffer, if_pos hle]
    rfl

theorem Reads.succ (h : Reads b header i) {e : ElfSection}
    (he : entryAt b header (i + 1) = some e) :
    Reads b header (i + 1) := by
  rw [entryAt] at he
  split at he
  · exact ⟨by omega, h.shentsize⟩
  · cases he

end

section

variable {pages pages' : List RequiredPages} {base : Finset Nat} {s s' : Loader}

def ranges (pages : List RequiredPages) : List (Stretch Nat) := pages.map RequiredPages.range

def blocksOf (pages : List RequiredPages) : List Nat := pages.map RequiredPages.block

theorem blocksOf_cons (it : RequiredPages) (pages : List RequiredPages) :
    (blocksOf (it :: pages)).toFinset = insert it.block (blocksOf pages).toFinset :=
      List.toFinset_cons

/-- The blocks in use are those of the list and others. -/
structure Listed (base : Finset Nat) (pages : List RequiredPages) (s : Loader) : Prop where
  nodup : (blocksOf pages).Nodup
  new : ∀ block ∈ blocksOf pages, block ∉ base
  blocks : s.blocks = base ∪ (blocksOf pages).toFinset

/-- Only the heap was used. -/
structure SameMachine (s s' : Loader) : Prop where
  machine : s'.machine = s.machine
  entryPoint : s'.entryPoint = s.entryPoint

theorem SameMachine.refl (s : Loader) : SameMachine s s := ⟨rfl, rfl⟩

theorem SameMachine.trans {s'' : Loader} (h : SameMachine s s') (h' : SameMachine s' s'') :
    SameMachine s s'' := ⟨h'.machine.trans h.machine, h'.entryPoint.trans h.entryPoint⟩

theorem listed_nil (s : Loader) : Listed s.blocks [] s :=
  ⟨List.nodup_nil, fun _ h => absurd h List.not_mem_nil, by simp [blocksOf]⟩

theorem insertEntry_spec (heap : Heap) (start stop : Nat) (h : Listed base pages s) : ∃ block s',
    insertEntry heap start stop pages s = .ok (⟨block, ⟨start, stop⟩⟩ :: pages, s') ∧
      SameMachine s s' ∧ Listed base (⟨block, ⟨start, stop⟩⟩ :: pages) s' := by
  have hunused := heap.unused s.blocks
  have hnot : heap.address s.blocks ∉ base ∪ (blocksOf pages).toFinset := h.blocks ▸ hunused
  rw [Finset.mem_union, List.mem_toFinset, not_or] at hnot
  refine ⟨heap.address s.blocks, { s with blocks := insert (heap.address s.blocks) s.blocks }, rfl,
    ⟨rfl, rfl⟩, ?_⟩
  refine ⟨List.nodup_cons.mpr ⟨hnot.2, h.nodup⟩, ?_, ?_⟩
  · intro block hblock
    rcases List.mem_cons.mp hblock with rfl | hblock
    · exact hnot.1
    · exact h.new block hblock
  · change insert (heap.address s.blocks) s.blocks = _
    rw [blocksOf_cons, Finset.union_insert]
    exact congrArg _ h.blocks

/-- The entry is lost, and its block is given back. -/
theorem heapFree_spec {it : RequiredPages} (h : Listed base (it :: pages) s) : ∃ s',
    heapFree it.block s = .ok ((), s') ∧ SameMachine s s' ∧ Listed base pages s' := by
  obtain ⟨hnot, hnodup⟩ := List.nodup_cons.mp h.nodup
  have hmem : it.block ∈ s.blocks := by
    rw [h.blocks, Finset.mem_union, List.mem_toFinset]
    exact .inr List.mem_cons_self
  refine ⟨{ s with blocks := s.blocks.erase it.block }, ?_, ⟨rfl, rfl⟩, hnodup, ?_, ?_⟩
  · refine bind_ok.mpr ⟨s, s, rfl, ?_⟩
    rw [if_pos hmem]
    rfl
  · exact fun block hblock => h.new block (List.mem_cons_of_mem _ hblock)
  · change s.blocks.erase it.block = _
    rw [h.blocks, blocksOf_cons, Finset.union_insert]
    refine Finset.erase_insert ?_
    rw [Finset.mem_union, List.mem_toFinset, not_or]
    exact ⟨h.new _ List.mem_cons_self, hnot⟩

/-- The first entry counts as one of the other blocks. -/
theorem Listed.tail {it : RequiredPages} (h : Listed base (it :: pages) s) :
    Listed (insert it.block base) pages s := by
  obtain ⟨hnot, hnodup⟩ := List.nodup_cons.mp h.nodup
  refine ⟨hnodup, fun block hblock hmem => ?_, ?_⟩
  · rcases Finset.mem_insert.mp hmem with rfl | hmem
    · exact hnot hblock
    · exact h.new block (List.mem_cons_of_mem _ hblock) hmem
  · rw [h.blocks, blocksOf_cons, Finset.union_insert, Finset.insert_union]

theorem Listed.cons {it : RequiredPages} (h : Listed (insert it.block base) pages s)
    (hit : it.block ∉ base) : Listed base (it :: pages) s := by
  refine ⟨List.nodup_cons.mpr ⟨fun hmem => ?_, h.nodup⟩, fun block hblock => ?_, ?_⟩
  · exact h.new _ hmem (Finset.mem_insert_self _ _)
  · rcases List.mem_cons.mp hblock with rfl | hblock
    · exact hit
    · exact fun hmem => h.new block hblock (Finset.mem_insert_of_mem hmem)
  · rw [h.blocks, blocksOf_cons, Finset.union_insert, Finset.insert_union]

/-- The list of the loader is the one of intervals, with a block for every entry. -/
theorem insertRequiredLoop_spec (heap : Heap) (start stop : Nat) (h : Listed base pages s) :
    ∃ pages' s',
    insertRequiredLoop heap pages start stop s = .ok (pages', s') ∧ SameMachine s s' ∧
      Listed base pages' s' ∧
        BootMaps.insertRequiredLoop true (ranges pages) start stop = .ok (ranges pages') := by
  induction pages generalizing s start stop base with
  | nil =>
      obtain ⟨block, s', hok, hsame, hlisted⟩ := insertEntry_spec heap start stop h
      exact ⟨_, s', hok, hsame, hlisted, rfl⟩
  | cons it rest ih =>
      rw [insertRequiredLoop, ranges, List.map_cons, BootMaps.insertRequiredLoop]
      split_ifs with hbefore hbehind hinside
      · obtain ⟨block, s', hok, hsame, hlisted⟩ := insertEntry_spec heap start stop h
        exact ⟨_, s', hok, hsame, hlisted, rfl⟩
      · obtain ⟨pages', s', hok, hsame, hlisted, heq⟩ := ih start stop h.tail
        refine ⟨it :: pages', s', bind_ok.mpr ⟨pages', s', hok, rfl⟩, hsame,
          hlisted.cons (h.new _ List.mem_cons_self), ?_⟩
        rw [ranges] at heq
        rw [heq]
        rfl
      · exact ⟨it :: rest, s, rfl, SameMachine.refl s, h, rfl⟩
      all_goals
        obtain ⟨s₁, hfree, hsame, hlisted⟩ := heapFree_spec h
        obtain ⟨pages', s', hok, hsame', hlisted', heq⟩ := ih _ _ hlisted
        exact ⟨pages', s', bind_ok.mpr ⟨(), s₁, hfree, hok⟩, hsame.trans hsame', hlisted', heq⟩

end

section

variable {b : Buffer} {header : ElfHeader} {pages : List RequiredPages} {base : Finset Nat}
  {s s' : Loader} {i n : Nat} {e : ElfSection}

/-- A section without an address is not loaded, and a section of zeros has nothing in the file. -/
def Accepted (b : Buffer) (e : ElfSection) : Prop :=
  e.addr = 0 ∨ e.type = ELF_STYPE_NOBITS ∨ e.offset + e.size ≤ b.length

instance (b : Buffer) (e : ElfSection) : Decidable (Accepted b e) :=
  inferInstanceAs (Decidable (_ ∨ _))

/-- The entries behind the one at `i` up to the first one which is rejected, and whether
there is none. -/
def scan (b : Buffer) (header : ElfHeader) : Nat → Nat → List ElfSection × Bool
  | 0, _ => ([], true)
  | rounds + 1, i =>
      match entryAt b header (i + 1) with
      | none => ([], false)
      | some e =>
          if Accepted b e then
            (e :: (scan b header rounds (i + 1)).1, (scan b header rounds (i + 1)).2)
          else ([], false)

/-- A page of a section. -/
def Needed (es : List ElfSection) (n : Nat) : Prop :=
  ∃ e ∈ es, e.addr ≠ 0 ∧ startIndex e ≤ n ∧ n < stopIndex e

/-- The fields are those of words. -/
structure Bounded (e : ElfSection) : Prop where
  addr : e.addr < 2 ^ 32
  offset : e.offset < 2 ^ 32
  size : e.size < 2 ^ 32

theorem bounded_of_entryAt (h : entryAt b header i = some e) : Bounded e := by
  rw [entryAt] at h
  split at h
  · cases h
    exact ⟨word_lt _ _, word_lt _ _, word_lt _ _⟩
  · cases h

theorem Bounded.start_le_stop (h : Bounded e) : startIndex e ≤ stopIndex e := by
  have haddr := h.addr
  rw [startIndex, stopIndex]
  split_ifs with hmax
  all_goals
    simp only [PAGE_SIZE, PAGE_COUNT] at *
    omega

theorem stopIndex_lt (e : ElfSection) : stopIndex e < PAGE_COUNT := by
  rw [stopIndex]
  split_ifs with hmax
  · decide
  · omega

theorem needed_cons : Needed (e :: es) n ↔
    (e.addr ≠ 0 ∧ startIndex e ≤ n ∧ n < stopIndex e) ∨ Needed es n := by
  simp [Needed]

theorem accepted_iff (haddr : e.addr ≠ 0) :
    Accepted b e ↔ ¬(e.type ≠ ELF_STYPE_NOBITS ∧ b.length < e.offset + e.size) := by
  rw [Accepted, or_iff_right haddr, not_and_or, not_not, not_lt]

theorem scan_accepted (rounds : Nat) (he : entryAt b header (i + 1) = some e) (ha : Accepted b e) :
    scan b header (rounds + 1) i =
      (e :: (scan b header rounds (i + 1)).1, (scan b header rounds (i + 1)).2) := by
  rw [scan, he]
  exact if_pos ha

theorem scan_rejected (rounds : Nat) (h : ∀ e, entryAt b header (i + 1) = some e → ¬Accepted b e) :
    scan b header (rounds + 1) i = ([], false) := by
  rw [scan]
  rcases he : entryAt b header (i + 1) with _ | e
  · rfl
  · exact if_neg (h e he)

theorem insertRequiredPage_spec (heap : Heap) (h : Listed base pages s)
    (hc : Canonical (ranges pages)) (hb : Bounded e) :
    ∃ pages' s', insertRequiredPage heap pages (startIndex e) (stopIndex e) s = .ok (pages', s') ∧
      SameMachine s s' ∧ Listed base pages' s' ∧ Canonical (ranges pages') ∧
        ∀ n, Covers (ranges pages') n ↔ Covers (ranges pages) n ∨ startIndex e ≤ n ∧
          n < stopIndex e := by
  rw [insertRequiredPage]
  split_ifs with hempty
  · refine ⟨pages, s, rfl, SameMachine.refl s, h, hc, fun n => ?_⟩
    rw [or_iff_left]
    omega
  · obtain ⟨pages', s', hok, hsame, hlisted, heq⟩ := insertRequiredLoop_spec heap
      (startIndex e) (stopIndex e) h
    obtain ⟨l', hl', hinserted⟩ := BootMaps.insertRequiredLoop_inserted hc.separate hb.start_le_stop
    cases heq.symm.trans hl'
    exact ⟨pages', s', hok, hsame, hlisted, hinserted.canonical hc (by omega), hinserted.covers⟩

/-- Whether the file is rejected or not, the list is there at the end of the loop. -/
theorem requireLoop_spec (heap : Heap) (rounds : Nat) (hr : Reads b header i)
    (h : Listed base pages s)
    (hc : Canonical (ranges pages)) : ∃ pages' s',
      requireLoop heap b header rounds (entryOffset header i) pages s =
        .ok (if (scan b header rounds i).2 then some pages' else none, s') ∧ SameMachine s s' ∧
      Listed base pages' s' ∧ Canonical (ranges pages') ∧
        ∀ n, Covers (ranges pages') n ↔ Covers (ranges pages) n ∨
          Needed (scan b header rounds i).1 n := by
  induction rounds generalizing s pages i with
  | zero => exact ⟨pages, s, rfl, SameMachine.refl s, h, hc, fun n => by simp [scan, Needed]⟩
  | succ rounds ih =>
      rw [requireLoop, bind_apply, nextSection_eq hr]
      rcases he : entryAt b header (i + 1) with _ | e
      · rw [scan_rejected rounds fun e' he' => by cases he.symm.trans he']
        exact ⟨pages, s, rfl, SameMachine.refl s, h, hc, fun n => by simp [Needed]⟩
      have hb := bounded_of_entryAt he
      have hnext := hr.succ he
      simp only [hr.next.1]
      rcases eq_or_ne e.addr 0 with haddr | haddr
      · rw [if_pos haddr, scan_accepted rounds he (Or.inl haddr)]
        obtain ⟨pages', s', hok, hsame, hlisted, hc', hcovers⟩ := ih hnext h hc
        refine ⟨pages', s', hok, hsame, hlisted, hc', fun n => ?_⟩
        have hnot : ¬(e.addr ≠ 0 ∧ startIndex e ≤ n ∧ n < stopIndex e) := fun hn => hn.1 haddr
        rw [hcovers, needed_cons, or_iff_right hnot]
      · rw [if_neg haddr]
        rcases Classical.em
          (e.type ≠ ELF_STYPE_NOBITS ∧ b.length < e.offset + e.size) with hout | hout
        · have hnot : ∀ e', entryAt b header (i + 1) = some e' → ¬Accepted b e' := by
            intro e' he' ha
            cases he.symm.trans he'
            exact (accepted_iff haddr).mp ha hout
          rw [if_pos hout, scan_rejected rounds hnot]
          exact ⟨pages, s, rfl, SameMachine.refl s, h, hc, fun n => by simp [Needed]⟩
        · rw [if_neg hout, scan_accepted rounds he ((accepted_iff haddr).mpr hout)]
          obtain ⟨pages₁, s₁, hinsert, hsame₁, hlisted₁, hc₁, hcovers₁⟩ :=
            insertRequiredPage_spec heap h hc hb
          obtain ⟨pages', s', hok, hsame, hlisted, hc', hcovers⟩ := ih hnext hlisted₁ hc₁
          refine ⟨pages', s', ?_, hsame₁.trans hsame, hlisted, hc', fun n => ?_⟩
          · refine bind_ok.mpr ⟨(), s, ?_, bind_ok.mpr ⟨pages₁, s₁, hinsert, hok⟩⟩
            rw [onMachine, decide_eq_true hb.start_le_stop]
            rfl
          · rw [hcovers, hcovers₁, needed_cons, or_assoc, and_iff_right haddr]

end

section

variable {b : Buffer} {header : ElfHeader} {i k rounds : Nat} {e : ElfSection}

/-- An entry which makes the loader give up. -/
def Rejected (b : Buffer) (header : ElfHeader) (i : Nat) : Prop :=
  ∀ e, entryAt b header i = some e → ¬Accepted b e

theorem not_rejected_iff :
    ¬Rejected b header i ↔ ∃ e, entryAt b header i = some e ∧ Accepted b e := by
  simp only [Rejected, not_forall, not_not, exists_prop]

theorem mem_scan_succ (he : entryAt b header (i + 1) = some e) (n : Nat) (e' : ElfSection) :
    (e' = e ∨ ∃ m < n, entryAt b header (i + 1 + m + 1) = some e') ↔
      ∃ m < n + 1, entryAt b header (i + m + 1) = some e' := by
  constructor
  · rintro (rfl | ⟨m, hm, he'⟩)
    · exact ⟨0, n.succ_pos, he⟩
    · refine ⟨m + 1, by omega, ?_⟩
      rwa [← Nat.add_assoc, Nat.add_right_comm i m 1]
  · rintro ⟨_ | m, hm, he'⟩
    · rw [Nat.add_zero, he] at he'
      exact Or.inl (Option.some.inj he').symm
    · refine Or.inr ⟨m, by omega, ?_⟩
      rwa [← Nat.add_assoc, Nat.add_right_comm i m 1] at he'

theorem scan_all (h : ∀ m < rounds, ¬Rejected b header (i + m + 1)) :
    (scan b header rounds i).2 = true ∧
      ∀ e, e ∈ (scan b header rounds i).1 ↔ ∃ m < rounds, entryAt b header (i + m + 1) =
        some e := by
  induction rounds generalizing i with
  | zero => simp [scan]
  | succ rounds ih =>
      obtain ⟨e, he, ha⟩ := not_rejected_iff.mp (h 0 rounds.succ_pos)
      obtain ⟨hall, hmem⟩ := ih (i := i + 1) fun m hm => by
        rw [Nat.add_right_comm i 1 m]
        exact h (m + 1) (by omega)
      rw [scan_accepted rounds he ha]
      refine ⟨hall, fun e' => ?_⟩
      rw [List.mem_cons, hmem, mem_scan_succ he]

/-- The entry behind `k` others is the first one which is rejected. -/
theorem scan_some (hk : k < rounds) (hr : Rejected b header (i + k + 1))
    (h : ∀ m < k, ¬Rejected b header (i + m + 1)) :
    (scan b header rounds i).2 = false ∧
      ∀ e, e ∈ (scan b header rounds i).1 ↔ ∃ m < k, entryAt b header (i + m + 1) = some e := by
  induction rounds generalizing i k with
  | zero => exact absurd hk (Nat.not_lt_zero k)
  | succ rounds ih =>
      cases k with
      | zero =>
          rw [scan_rejected rounds hr]
          exact ⟨rfl, fun e => by simp⟩
      | succ k =>
          obtain ⟨e, he, ha⟩ := not_rejected_iff.mp (h 0 k.succ_pos)
          obtain ⟨hall, hmem⟩ := ih (i := i + 1) (k := k) (by omega)
            (by rwa [Nat.add_right_comm i 1 k]) fun m hm => by
              rw [Nat.add_right_comm i 1 m]
              exact h (m + 1) (by omega)
          rw [scan_accepted rounds he ha]
          refine ⟨hall, fun e' => ?_⟩
          rw [List.mem_cons, hmem, mem_scan_succ he]

end

end Ibnos.SectionTables
