import Ibnos.LoaderContents
import Ibnos.ProgramLoads

/-!
What a file says about a program: the sections of its table, where later ones lie over earlier
ones. The loader looks at the entries from the second one on and at one behind the table.
-/

namespace Ibnos.ProgramImages

open Ibnos.ElfLoader
open Ibnos.FreshMemory (blank)
open Ibnos.LoadedPages
open Ibnos.LoaderContents
open Ibnos.LoaderRemains
open Ibnos.Memory
open Ibnos.Paging
open Ibnos.PagingOperations
open Ibnos.PagingPrograms
open Ibnos.PagingRuns
open Ibnos.ProcessPages
open Ibnos.ProgramLoads
open Ibnos.Programs
open Ibnos.References
open Ibnos.Runs
open Ibnos.SectionStores
open Ibnos.SectionTables
open Ibnos.SystemPages
open Ibnos.TableMappings
open Ibnos.UserAccesses
open Ibnos.UserMemory

section

/-- The entries of the table. -/
def tableOf (b : Buffer) : List ElfSection :=
  (List.range (headerAt b.contents).shnum).map fun i =>
    sectionAt b.contents (entryOffset (headerAt b.contents) i)

/-- The address belongs to the section. -/
def Within (e : ElfSection) (a : Nat) : Prop := e.addr ≠ 0 ∧ e.addr ≤ a ∧ a < e.addr + e.size

instance (e : ElfSection) (a : Nat) : Decidable (Within e a) := inferInstanceAs (Decidable (_ ∧ _))

/-- The byte at an address as the last of the sections around it has it. -/
def byteAt (b : Buffer) : List ElfSection → Nat → Option (BitVec 8)
  | [], _ => none
  | e :: es, a => (byteAt b es a).or (if Within e a then (dataOf b e)[a - e.addr]? else none)

/-- Some byte of a section is in the page. -/
def Touched (es : List ElfSection) (n : Nat) : Prop := ∃ e ∈ es, ∃ a, Within e a ∧ pageOf a = n

/-- What a program is in memory. -/
structure Image where
  entry : Nat
  page : Nat → Prop
  byte : Nat → Option (BitVec 8)

def imageOf (b : Buffer) : Image where
  entry := (headerAt b.contents).entry
  page := Touched (tableOf b)
  byte := byteAt b (tableOf b)

/-- The table lies in the file, and its sections between the first page and the page tables,
apart from the pages which are there already. -/
structure WellFormed (m : Machine) (pid : Nat) (b : Buffer) : Prop where
  length : HEADER_SIZE ≤ b.length
  mag : (headerAt b.contents).mag = ELF_MAG
  shentsize : SECTION_SIZE ≤ (headerAt b.contents).shentsize
  table : (headerAt b.contents).shoff +
    (headerAt b.contents).shnum * (headerAt b.contents).shentsize ≤ b.length
  size : ∀ e ∈ tableOf b, e.addr ≠ 0 → e.size ≠ 0
  range : ∀ e ∈ tableOf b, e.addr ≠ 0 →
    PAGE_SIZE ≤ e.addr ∧ e.addr + e.size ≤ KERNEL_PAGE * PAGE_SIZE
  data : ∀ e ∈ tableOf b, e.addr ≠ 0 → e.type = ELF_STYPE_NOBITS ∨ e.offset + e.size ≤ b.length
  unused : ∀ n, Touched (tableOf b) n → Unused m pid n

theorem WellFormed.accepted {m : Machine} {pid : Nat} {b : Buffer} (h : WellFormed m pid b) :
    HeaderAccepted b :=
  ⟨h.length, h.mag, (Nat.le_add_right _ _).trans h.table⟩

end

section

variable {v : Memories} {pid page offset addr a : Nat} {value : BitVec 8} {es : List ElfSection}
  {b : Buffer}

/-- The page is there and can be written. -/
def Writable (v : Memories) (pid page : Nat) :
    Prop := ∃ contents, v pid page = some (contents, true)

/-- The byte at an address of a process. -/
def byteOf (v : Memories) (pid a : Nat) : Option (BitVec 8) :=
  loadAt v pid (pageOf a) (a % PAGE_SIZE)

theorem writable_storeAt {page' : Nat} (h : Writable v pid page') :
    Writable (storeAt v pid page offset value) pid page' := by
  rw [storeAt]
  split
  · next contents hpage =>
    rcases eq_or_ne page' page with rfl | hne
    · exact ⟨_, by rw [Function.update_self, Function.update_self]⟩
    · obtain ⟨contents', h⟩ := h
      exact ⟨contents', by rw [Function.update_self, Function.update_of_ne hne, h]⟩
  · exact h

theorem loadAt_storeAt {page' offset' : Nat} (h : Writable v pid page) :
    loadAt (storeAt v pid page offset value) pid page' offset' =
      if page' = page ∧ offset' = offset then some value else loadAt v pid page' offset' := by
  obtain ⟨contents, h⟩ := h
  rw [storeAt, h, loadAt]
  simp only [Function.update_self]
  rcases eq_or_ne page' page with rfl | hpage
  · rw [Function.update_self, loadAt, h]
    rcases eq_or_ne offset' offset with rfl | hoffset
    · rw [if_pos ⟨rfl, rfl⟩, Option.map_some]
      exact congrArg some (Function.update_self ..)
    · rw [if_neg fun heq => hoffset heq.2, Option.map_some]
      exact congrArg some (Function.update_of_ne hoffset ..)
  · rw [Function.update_of_ne hpage, if_neg fun heq => hpage heq.1]
    rfl

theorem byteOf_storeAt (ha : a < 2 ^ 32) (haddr : addr < 2 ^ 32)
    (h : Writable v pid (pageOf addr)) :
    byteOf (storeAt v pid (pageOf addr) (addr % PAGE_SIZE) value) pid a =
      if a = addr then some value else byteOf v pid a := by
  rw [byteOf, loadAt_storeAt h]
  rcases eq_or_ne a addr with rfl | hne
  · rw [if_pos ⟨rfl, rfl⟩, if_pos rfl]
  · rw [if_neg, if_neg hne]
    · rfl
    · rintro ⟨hpage, hoffset⟩
      unfold pageOf at hpage
      simp only [PAGE_SIZE, PAGE_COUNT] at hpage hoffset
      omega

/-- Bytes which follow each other take the place of what was there. -/
theorem byteOf_storeBytesAt (values : List (BitVec 8)) (hend : addr + values.length ≤ 2 ^ 32)
    (ha : a < 2 ^ 32) (h : ∀ i < values.length, Writable v pid (pageOf (addr + i))) :
    byteOf (storeBytesAt v pid addr values) pid a =
      (if addr ≤ a then values[a - addr]? else none).or (byteOf v pid a) := by
  induction values generalizing v addr with
  | nil =>
      rw [storeBytesAt]
      split <;> rfl
  | cons value values ih =>
      rw [List.length_cons] at hend
      have hfirst : Writable v pid (pageOf addr) := h 0 (Nat.succ_pos _)
      rw [storeBytesAt, ih (by omega) fun i hi => ?_]
      · rw [byteOf_storeAt ha (by omega) hfirst]
        rcases Nat.lt_trichotomy a addr with hlt | rfl | hgt
        · rw [if_neg (by omega), if_neg (by omega), if_neg (by omega)]
        · rw [if_neg (by omega), if_pos rfl, if_pos le_rfl, Nat.sub_self]
          rfl
        · obtain ⟨k, rfl⟩ := Nat.exists_eq_add_of_lt hgt
          rw [if_pos (by omega), if_neg (by omega), if_pos (by omega),
            show addr + k + 1 - addr = k + 1 by omega,
            show addr + k + 1 - (addr + 1) = k by omega]
          rfl
      · refine writable_storeAt ?_
        rw [Nat.add_right_comm]
        exact h (i + 1) (Nat.succ_lt_succ hi)

theorem writable_storeBytesAt (values : List (BitVec 8)) (h : Writable v pid page) :
    Writable (storeBytesAt v pid addr values) pid page := by
  induction values generalizing v addr with
  | nil => exact h
  | cons value values ih => exact ih (writable_storeAt h)

/-- The data of a section is as long as the section. -/
theorem dataOf_within {e : ElfSection} (hacc : Accepted b e) (haddr : e.addr ≠ 0) :
    (if e.addr ≤ a then (dataOf b e)[a - e.addr]? else none) =
      if Within e a then (dataOf b e)[a - e.addr]? else none := by
  by_cases hwithin : Within e a
  · rw [if_pos hwithin.2.1, if_pos hwithin]
  · rw [if_neg hwithin]
    split_ifs with hle
    · have hend : e.addr + e.size ≤ a := Nat.not_lt.mp fun hlt => hwithin ⟨haddr, hle, hlt⟩
      exact List.getElem?_eq_none (by rw [dataOf_length hacc haddr]; omega)
    · rfl

/-- The sections lie one over the other. -/
theorem byteOf_storeSections (ha : a < 2 ^ 32)
    (hin : ∀ e ∈ es, e.addr ≠ 0 → e.size ≠ 0 → e.addr + e.size ≤ 2 ^ 32)
    (hb : ∀ e ∈ es, Bounded e) (hacc : ∀ e ∈ es, Accepted b e)
    (h : ∀ e ∈ es, ∀ a', Within e a' → Writable v pid (pageOf a')) :
    byteOf (storeSections b pid v es) pid a = (byteAt b es a).or (byteOf v pid a) := by
  induction es generalizing v with
  | nil => rfl
  | cons e es ih =>
      obtain ⟨hin₀, hin⟩ := List.forall_mem_cons.mp hin
      obtain ⟨hb₀, hb⟩ := List.forall_mem_cons.mp hb
      obtain ⟨hacc₀, hacc⟩ := List.forall_mem_cons.mp hacc
      obtain ⟨h₀, h⟩ := List.forall_mem_cons.mp h
      rw [storeSections, List.foldl_cons, ← storeSections, byteAt]
      rcases eq_or_ne e.addr 0 with haddr | haddr
      · rw [if_pos haddr, if_neg fun hwithin : Within e a => hwithin.1 haddr, Option.or_none,
          ih hin hb hacc h]
      · have hlength := dataOf_length hacc₀ haddr
        have hend : e.addr + (dataOf b e).length ≤ 2 ^ 32 := by
          rw [hlength]
          rcases eq_or_ne e.size 0 with hsize | hsize
          · exact hsize ▸ hb₀.addr.le
          · exact hin₀ haddr hsize
        rw [if_neg haddr, ih hin hb hacc fun e' he' a' hw => writable_storeBytesAt _
          (h e' he' a' hw),
          byteOf_storeBytesAt _ hend ha, dataOf_within hacc₀ haddr, Option.or_assoc]
        intro i hi
        rw [hlength] at hi
        exact h₀ _ ⟨haddr, by omega, by omega⟩

theorem within_of_byteAt {value : BitVec 8} (h : byteAt b es a = some value) :
    ∃ e ∈ es, Within e a := by
  induction es with
  | nil => cases h
  | cons e es ih =>
      rw [byteAt] at h
      rcases Option.or_eq_some_iff.mp h with hlater | ⟨-, hfirst⟩
      · obtain ⟨e', he', hw⟩ := ih hlater
        exact ⟨e', List.mem_cons_of_mem _ he', hw⟩
      · split at hfirst
        · next hw => exact ⟨e, List.mem_cons_self, hw⟩
        · cases hfirst

end

section

variable {b : Buffer} {header : ElfHeader} {e : ElfSection} {es : List ElfSection} {m : Machine}
  {slack : Nat → Nat} {m₀ : Machine} {pid i n rounds : Nat}

/-- A section which can be loaded ends in front of the last page. -/
def Inside (e : ElfSection) : Prop :=
  e.addr ≠ 0 → e.size ≠ 0 → e.addr + e.size ≤ (PAGE_COUNT - 1) * PAGE_SIZE

theorem of_mem_scan (he : e ∈ (scan b header rounds i).1) : Bounded e ∧ Accepted b e := by
  induction rounds generalizing i with
  | zero => cases he
  | succ rounds ih =>
      rcases Classical.em (Rejected b header (i + 1)) with hrejected | haccepted
      · rw [scan_rejected rounds hrejected] at he
        cases he
      · obtain ⟨e', he', ha⟩ := not_rejected_iff.mp haccepted
        rw [scan_accepted rounds he' ha] at he
        rcases List.mem_cons.mp he with rfl | he
        · exact ⟨bounded_of_entryAt he', ha⟩
        · exact ih he

theorem stopIndex_eq (hend : e.addr + e.size ≤ (PAGE_COUNT - 1) * PAGE_SIZE) :
    stopIndex e = (e.addr + e.size + (PAGE_SIZE - 1)) / PAGE_SIZE := by
  rw [stopIndex, if_neg]
  simp only [PAGE_SIZE, PAGE_COUNT] at *
  omega

/-- Where a section is inside, the pages of its bytes are those which it needs. -/
theorem within_page {a : Nat} (hinside : Inside e) (h : Within e a) :
    startIndex e ≤ pageOf a ∧ pageOf a < stopIndex e := by
  obtain ⟨haddr, hle, hlt⟩ := h
  have hend := hinside haddr (by omega)
  rw [startIndex, stopIndex_eq hend]
  unfold pageOf
  simp only [PAGE_SIZE, PAGE_COUNT] at *
  omega

/-- Each page which a section with bytes needs has one of them. -/
theorem page_within (hsize : e.size ≠ 0) (haddr : e.addr ≠ 0)
    (hinside : e.addr + e.size ≤ (PAGE_COUNT - 1) * PAGE_SIZE)
    (hstart : startIndex e ≤ n) (hstop : n < stopIndex e) : ∃ a, Within e a ∧ pageOf a = n := by
  rw [startIndex] at hstart
  rw [stopIndex_eq hinside] at hstop
  refine ⟨max e.addr (n * PAGE_SIZE), ⟨haddr, le_max_left _ _, ?_⟩, ?_⟩
  · simp only [PAGE_SIZE, PAGE_COUNT] at *
    omega
  · unfold pageOf
    simp only [PAGE_SIZE, PAGE_COUNT] at *
    omega

theorem touched_iff_needed (hsize : ∀ e ∈ es, e.addr ≠ 0 → e.size ≠ 0)
    (hinside : ∀ e ∈ es, Inside e) : Touched es n ↔ Needed es n := by
  constructor
  · rintro ⟨e, he, a, hw, rfl⟩
    exact ⟨e, he, hw.1, within_page (hinside e he) hw⟩
  · rintro ⟨e, he, haddr, hstart, hstop⟩
    have hne := hsize e he haddr
    exact ⟨e, he, page_within hne haddr (hinside e he haddr hne) hstart hstop⟩

theorem needed_of_within {a : Nat} (he : e ∈ es) (hinside : Inside e) (h : Within e a) :
    Needed es (pageOf a) := ⟨e, he, h.1, within_page hinside h⟩

theorem last_not_needed : ¬Needed es (PAGE_COUNT - 1) := by
  rintro ⟨e, -, -, -, hlt⟩
  have := stopIndex_lt e
  omega

/-- The kernel can show a section if it ends in front of the last page, which no section needs. -/
theorem shown_iff_inside (hown : ∀ n, Needed es n → Own m pid n)
    (hp : PreparedBut (Needed es) m pid) (he : e ∈ es) (hb : Bounded e)
    (hcount : e.addr ≠ 0 → Countable e) : Shown m pid e ↔ Inside e := by
  have haddr := hb.addr
  have hpages : e.addr ≠ 0 → sectionPages e =
      (e.addr % PAGE_SIZE + e.size + (PAGE_SIZE - 1)) / PAGE_SIZE := by
    intro hne
    rw [sectionPages, MappingFailures.pageCount, Nat.mod_eq_of_lt (hcount hne)]
  constructor
  · intro hshown hne hsize
    by_contra hlt
    have hlast : MappingFailures.bufferPage e.addr (PAGE_COUNT - 1 - pageOf e.addr) =
        PAGE_COUNT - 1 := by
      have := pageOf_lt e.addr
      rw [MappingFailures.bufferPage, Nat.mod_eq_of_lt] <;> omega
    have hi : PAGE_COUNT - 1 - pageOf e.addr < sectionPages e := by
      rw [hpages hne]
      unfold pageOf
      simp only [PAGE_SIZE, PAGE_COUNT] at *
      omega
    have haccessible := hshown hne hsize _ hi
    rw [hlast] at haccessible
    exact not_accessible_of_blocked (hp.blocked _ last_not_needed) haccessible
  · intro hinside hne hsize j hj
    have hend := hinside hne hsize
    rw [hpages hne] at hj
    have hpage : pageOf e.addr + j < PAGE_COUNT := by
      unfold pageOf
      simp only [PAGE_SIZE, PAGE_COUNT] at *
      omega
    refine accessible_of_own (hown _ ⟨e, he, hne, ?_⟩)
    rw [MappingFailures.bufferPage, Nat.mod_eq_of_lt hpage, startIndex, stopIndex_eq hend]
    unfold pageOf at *
    simp only [PAGE_SIZE, PAGE_COUNT] at *
    omega

theorem WellFormed.inside (h : WellFormed m pid b) : ∀ e ∈ tableOf b, Inside e := by
  intro e he haddr _
  have := (h.range e he haddr).2
  simp only [KERNEL_PAGE, PAGE_COUNT, PAGE_SIZE] at *
  omega

/-- The first page is not used by a program. -/
theorem WellFormed.touched_ne_zero (h : WellFormed m pid b) (hn : Touched (tableOf b) n) :
    n ≠ 0 := by
  obtain ⟨e, he, a, hw, rfl⟩ := hn
  have hrange := h.range e he hw.1
  obtain ⟨-, hle, hlt⟩ := hw
  unfold pageOf
  simp only [KERNEL_PAGE, PAGE_COUNT, PAGE_SIZE] at *
  omega

end

section

variable {b b' : Buffer} {m : Machine} {pid : Nat}

/-- The bytes of the header, of the table and of its sections. -/
def Relevant (b : Buffer) (i : Nat) : Prop :=
  i < HEADER_SIZE ∨
    (∃ k < (headerAt b.contents).shnum, entryOffset (headerAt b.contents) k ≤ i ∧
      i < entryOffset (headerAt b.contents) k + SECTION_SIZE) ∨
    ∃ e ∈ tableOf b, e.addr ≠ 0 ∧ e.type ≠ ELF_STYPE_NOBITS ∧ e.offset ≤ i ∧
      i < e.offset + e.size

/-- A file which says the same about a program. -/
structure SameProgram (b b' : Buffer) : Prop where
  length : b'.length = b.length
  bytes : ∀ i, Relevant b i → b'.contents i = b.contents i

theorem SameProgram.header (h : SameProgram b b') : headerAt b'.contents = headerAt b.contents := by
  have hbytes : ∀ i < HEADER_SIZE, b'.contents i = b.contents i := fun i hi => h.bytes i (Or.inl hi)
  have hword : ∀ a, a + 4 ≤ HEADER_SIZE →
      ByteMemories.word b'.contents a = ByteMemories.word b.contents a :=
    fun a ha => ByteMemories.word_congr fun i hi => hbytes _ (by omega)
  have hhalf : ∀ a, a + 2 ≤ HEADER_SIZE → half b'.contents a = half b.contents a := by
    intro a ha
    rw [half, half, hbytes a (by omega), hbytes (a + 1) (by omega)]
  rw [headerAt, headerAt, hbytes 0 (by decide), hbytes 1 (by decide), hbytes 2 (by decide),
    hbytes 3 (by decide), hword 24 (by decide), hword 32 (by decide), hhalf 46 (by decide),
    hhalf 48 (by decide)]

theorem SameProgram.table (h : SameProgram b b') : tableOf b' = tableOf b := by
  rw [tableOf, tableOf, h.header]
  refine List.map_congr_left fun k hk => ?_
  have hk := List.mem_range.mp hk
  have hword : ∀ i, i + 4 ≤ SECTION_SIZE →
      ByteMemories.word b'.contents (entryOffset (headerAt b.contents) k + i) =
        ByteMemories.word b.contents (entryOffset (headerAt b.contents) k + i) := by
    refine fun i hi => ByteMemories.word_congr fun j hj => h.bytes _ (Or.inr (Or.inl ⟨k, hk, ?_⟩))
    omega
  rw [sectionAt, sectionAt, hword 4 (by decide), hword 12 (by decide), hword 16 (by decide),
    hword 20 (by decide)]

theorem SameProgram.data (h : SameProgram b b') {e : ElfSection} (he : e ∈ tableOf b)
    (haddr : e.addr ≠ 0) : dataOf b' e = dataOf b e := by
  rw [dataOf, dataOf]
  split
  · rfl
  next htype =>
  refine List.ext_getElem? fun i => ?_
  rw [List.getElem?_take, List.getElem?_take]
  split
  next hi =>
    have hbyte := h.bytes (e.offset + i) (Or.inr (Or.inr ⟨e, he, haddr, htype, by omega⟩))
    have hlength : b'.bytes.length = b.bytes.length := h.length
    rw [Buffer.contents, Buffer.contents, List.getD_eq_getElem?_getD,
      List.getD_eq_getElem?_getD] at hbyte
    rw [List.getElem?_drop, List.getElem?_drop]
    rcases Nat.lt_or_ge (e.offset + i) b.bytes.length with hlt | hge
    · have hlt' := hlength ▸ hlt
      rw [List.getElem?_eq_getElem hlt, List.getElem?_eq_getElem hlt'] at hbyte ⊢
      exact congrArg some hbyte
    · rw [List.getElem?_eq_none hge, List.getElem?_eq_none (by omega)]
  · rfl

/-- Other bytes of the file do not matter for the program. -/
theorem SameProgram.image (h : SameProgram b b') : imageOf b' = imageOf b := by
  have hbyte : ∀ es : List ElfSection, (∀ e ∈ es, e ∈ tableOf b) →
      byteAt b' es = byteAt b es := by
    intro es hes
    funext a
    induction es with
    | nil => rfl
    | cons e es ih =>
        obtain ⟨he, hes⟩ := List.forall_mem_cons.mp hes
        rw [byteAt, byteAt, ih hes]
        congr 1
        split
        · next hw => rw [h.data he hw.1]
        · rfl
  rw [imageOf, imageOf, h.table, h.header, hbyte _ fun _ he => he]

theorem SameProgram.wellFormed (h : SameProgram b b') (hb : WellFormed m pid b) :
    WellFormed m pid b' := by
  have hheader := h.header
  have htable := h.table
  constructor
  · exact h.length ▸ hb.length
  · exact hheader ▸ hb.mag
  · exact hheader ▸ hb.shentsize
  · rw [hheader, h.length]
    exact hb.table
  · exact htable ▸ hb.size
  · exact htable ▸ hb.range
  · rw [htable, h.length]
    exact hb.data
  · exact htable ▸ hb.unused

end

section

variable {slack : Nat → Nat} {heap : Heap} {pid a n : Nat} {b : Buffer} {image : Image}
  {es : List ElfSection} {m : Machine} {s s' : Loader} {entry : Nat}

/-- The process holds the program, and what was there before. -/
structure Holds (image : Image) (pid : Nat) (s s' : Loader) : Prop where
  entryPoint : s'.entryPoint = Function.update s.entryPoint pid image.entry
  pages : ∀ n, mapping s'.machine pid n ≠ none ↔ mapping s.machine pid n ≠ none ∨ image.page n
  kept : ∀ n, mapping s.machine pid n ≠ none → mapping s'.machine pid n = mapping s.machine pid n
  bytes : ∀ a value, image.byte a = some value → byteOf (view s'.machine) pid a = some value

def LoadsImage (heap : Heap) (pid : Nat) (b : Buffer) (image : Image) (s : Loader) : Prop :=
  ∃ s', elfLoadBinary heap pid b s = .ok (true, s') ∧ Holds image pid s s'

/-- The same state with other bytes in the frames. -/
def withContents (s : Loader) (memory : Nat → Nat → BitVec 8) : Loader :=
  { s with machine := withMemory s.machine memory }

/-- The entries behind the first one, with the one behind the table, say the same as the table. -/
structure Repeats (b : Buffer) : Prop where
  accepted : (sectionsOf b).2 = true
  inside : ∀ e ∈ (sectionsOf b).1, Inside e
  pages : ∀ n, Needed (sectionsOf b).1 n ↔ Touched (tableOf b) n
  bytes : ∀ a value, byteAt b (tableOf b) a = some value →
    byteAt b (sectionsOf b).1 a = some value

/-- A process for which a program can be loaded. -/
structure Ready (slack : Nat → Nat) (m : Machine) (pid : Nat) : Prop where
  inv : Inv slack 0 m
  settled : Settled m
  priv : Private m
  prepared : Prepared m pid

theorem Ready.withMemory (h : Ready slack m pid) (memory : Nat → Nat → BitVec 8) :
    Ready slack (withMemory m memory) pid :=
  ⟨inv_memory h.inv memory, ⟨h.settled.enabled, h.settled.tables⟩,
    ⟨h.priv.shared, h.priv.marked, h.priv.data⟩, ⟨h.prepared.directory, h.prepared.blocked⟩⟩

theorem mapping_eq_none_of_unused (h : Unused m pid n) : mapping m pid n = none := by
  rw [mapping, if_neg]
  rintro ⟨-, -, hdirectory, htable⟩
  rcases h with hzero | hzero
  · rw [hzero] at hdirectory
    cases hdirectory
  · rw [hzero] at htable
    cases htable

theorem suffices_withContents (h : Suffices heap pid b s) (memory : Nat → Nat → BitVec 8) :
    Suffices heap pid b (withContents s memory) := by
  refine ⟨h.sizes, fun e herror => h.memory e (elfLoadBinary_error_congr ?_ herror)⟩
  exact emptied_congr rfl rfl rfl

theorem writable_of_own (h : Own m pid n) : Writable (view m) pid n := by
  obtain ⟨f, hmapping, -⟩ := h
  refine ⟨m.memory f, ?_⟩
  rw [view, hmapping]
  rfl

/-- A byte which no section covers is what the frame held before. -/
theorem byteOf_of_loads (h : Loads slack pid b entry es s m true s')
    (hb : ∀ e ∈ es, Bounded e) (hacc : ∀ e ∈ es, Accepted b e) (hinside : ∀ e ∈ es, Inside e)
    (ha : a < 2 ^ 32) (hn : Needed es (pageOf a)) :
    ∃ f, byteOf (view s'.machine) pid a =
      some ((byteAt b es a).getD (s.machine.memory f (a % PAGE_SIZE))) := by
  have hown := h.filled.own
  have hview := (h.success rfl).2.1
  obtain ⟨f, hmapping, -⟩ := hown _ hn
  have hbefore : byteOf (view m) pid a = some (s.machine.memory f (a % PAGE_SIZE)) := by
    rw [byteOf, load_view hmapping rfl, h.filled.memory]
  refine ⟨f, ?_⟩
  rw [hview, byteOf_storeSections ha _ hb hacc, hbefore]
  · cases byteAt b es a <;> rfl
  · intro e he a' hw
    exact writable_of_own (hown _ (needed_of_within he (hinside e he) hw))
  · intro e he haddr hsize
    have := hinside e he haddr hsize
    simp only [PAGE_COUNT, PAGE_SIZE] at this
    omega

end

section

variable {slack : Nat → Nat} {heap : Heap} {pid n : Nat} {b b' : Buffer} {image : Image}
  {s s' : Loader} {m : Machine}

/-- What the loader did, where it returned true. -/
theorem loads_of_loadsImage (hs : Ready slack s.machine pid) (hb : HeaderAccepted b)
    (hcount : ∀ e ∈ (sectionsOf b).1, e.addr ≠ 0 → Countable e)
    (h : LoadsImage heap pid b image s) :
    (sectionsOf b).2 = true ∧ PagesFree s.machine pid b ∧ ∃ s' m,
      Loads slack pid b (headerAt b.contents).entry (sectionsOf b).1 s m true s' ∧
        Holds image pid s s' := by
  obtain ⟨s', hok, hholds⟩ := h
  have hr := reads_of_header hb
  rw [elfLoadBinary_accepted hb] at hok
  have haccepted : (sectionsOf b).2 = true := by
    by_contra hrejected
    obtain ⟨s₁, hok₁, -⟩ : ∃ s₁, loadSections heap pid b (headerAt b.contents) s =
        .ok (false, s₁) ∧ SameMachine s s₁ :=
      loadSections_rejected hr (Bool.eq_false_iff.mpr hrejected)
    rw [hok] at hok₁
    cases hok₁
  have hfree : PagesFree s.machine pid b := free_of_loadSections hs.inv hr haccepted hok
  obtain ⟨m, hloads⟩ := (loadSections_loads hs.inv hs.settled hs.priv hs.prepared hr
    (Prod.ext rfl haccepted) hfree hcount).of_ok hok
  exact ⟨haccepted, hfree, s', m, hloads, hholds⟩

theorem shown_of_loads {r : Bool} {entry : Nat} (hcount : ∀ e ∈ (sectionsOf b).1, e.addr ≠ 0 →
    Countable e) (hloads : Loads slack pid b entry (sectionsOf b).1 s m r s') :
    ∀ e ∈ (sectionsOf b).1, Shown m pid e ↔ Inside e := fun e he =>
  shown_iff_inside hloads.filled.own hloads.prepared he (of_mem_scan he).1 (hcount e he)

/-- A program which is loaded from the wrong entries is only right if they say the same. -/
theorem repeats_of_loads (hs : Ready slack s.machine pid) (hb : WellFormed s.machine pid b)
    (hcount : ∀ e ∈ (sectionsOf b).1, e.addr ≠ 0 → Countable e)
    (h : ∀ memory, LoadsImage heap pid b (imageOf b) (withContents s memory)) : Repeats b := by
  have hrun : ∀ memory, (sectionsOf b).2 = true ∧ PagesFree s.machine pid b ∧ ∃ s' m,
      Loads slack pid b (headerAt b.contents).entry (sectionsOf b).1 (withContents s memory) m true
        s' ∧ Holds (imageOf b) pid (withContents s memory) s' := fun memory =>
    loads_of_loadsImage (hs.withMemory memory) hb.accepted hcount (h memory)
  obtain ⟨haccepted, hfree, s', m, hloads, hholds⟩ := hrun s.machine.memory
  have hinside : ∀ e ∈ (sectionsOf b).1, Inside e := fun e he =>
    (shown_of_loads hcount hloads e he).mp ((hloads.success rfl).1 e he)
  have hpages : ∀ n, Needed (sectionsOf b).1 n ↔ Touched (tableOf b) n := by
    intro n
    constructor
    · intro hn
      refine ((hholds.pages n).mp (hloads.mapping_needed hn)).resolve_left fun hmapped => ?_
      exact hmapped (mapping_eq_none_of_unused (hfree n hn).2)
    · intro hn
      by_contra hnot
      have hmapped := (hholds.pages n).mpr (Or.inr hn)
      rw [hloads.mapping_other hnot] at hmapped
      exact hmapped (mapping_eq_none_of_unused (hb.unused n hn))
  refine ⟨haccepted, hinside, hpages, fun a value hvalue => ?_⟩
  obtain ⟨e, he, hwithin⟩ := within_of_byteAt hvalue
  have hend := hb.inside e he hwithin.1
  have ha : a < 2 ^ 32 := by
    obtain ⟨-, hle, hlt⟩ := hwithin
    have := hend (by omega)
    simp only [PAGE_COUNT, PAGE_SIZE] at this
    omega
  have hneeded := (hpages (pageOf a)).mpr ⟨e, he, a, hwithin, rfl⟩
  -- where no section is, the byte is the one of the frame, which can be another one
  obtain ⟨-, -, s₁, m₁, hloads₁, hholds₁⟩ := hrun fun _ _ => value + 1
  obtain ⟨f, hbyte⟩ := byteOf_of_loads hloads₁ (fun e he => (of_mem_scan he).1)
    (fun e he => (of_mem_scan he).2) hinside ha hneeded
  have hright := hholds₁.bytes a value hvalue
  rw [hbyte] at hright
  rcases hfound : byteAt b (sectionsOf b).1 a with _ | value'
  · rw [hfound] at hright
    have hne : value + 1 = value := Option.some.inj hright
    simp at hne
  · rw [hfound] at hright
    exact hright

theorem loads_of_repeats (hs : Ready slack s.machine pid) (hb : WellFormed s.machine pid b)
    (hsuffices : Suffices heap pid b s) (h : Repeats b) :
    LoadsImage heap pid b (imageOf b) s := by
  have hr := reads_of_header hb.accepted
  have hfree : PagesFree s.machine pid b := fun n hn =>
    ⟨hb.touched_ne_zero ((h.pages n).mp hn), hb.unused n ((h.pages n).mp hn)⟩
  have hloads : Yields FrameSupply.Lack (elfLoadBinary heap pid b) s fun r s' => ∃ m,
      Loads slack pid b (headerAt b.contents).entry (sectionsOf b).1 s m r s' :=
    (loadSections_loads hs.inv hs.settled hs.priv hs.prepared hr (Prod.ext rfl h.accepted) hfree
      hsuffices.countable).of_eq (elfLoadBinary_accepted hb.accepted)
  rcases hrun : elfLoadBinary heap pid b s with e | ⟨r, s'⟩
  · exact (hsuffices.memory e hrun (hloads.of_error hrun)).elim
  obtain ⟨m, hloads⟩ := hloads.of_ok hrun
  have hshown := shown_of_loads hsuffices.countable hloads
  cases r with
  | false =>
      obtain ⟨⟨e, he, hnot⟩, -⟩ := hloads.failure rfl
      exact (hnot ((hshown e he).mpr (h.inside e he))).elim
  | true =>
      refine ⟨s', hrun, (hloads.success rfl).2.2, fun n => ?_, fun n hmapped => ?_, ?_⟩
      · change _ ↔ _ ∨ Touched (tableOf b) n
        rw [← h.pages n]
        by_cases hn : Needed (sectionsOf b).1 n
        · exact iff_of_true (hloads.mapping_needed hn) (Or.inr hn)
        · rw [hloads.mapping_other hn, or_iff_left hn]
      · refine hloads.mapping_other fun hn => hmapped ?_
        exact mapping_eq_none_of_unused (hfree n hn).2
      · intro a value hvalue
        obtain ⟨e, he, hwithin⟩ := within_of_byteAt (h.bytes a value hvalue)
        have ha : a < 2 ^ 32 := by
          obtain ⟨haddr, hle, hlt⟩ := hwithin
          have := h.inside e he haddr (by omega)
          simp only [PAGE_COUNT, PAGE_SIZE] at this
          omega
        obtain ⟨f, hbyte⟩ := byteOf_of_loads hloads (fun e he => (of_mem_scan he).1)
          (fun e he => (of_mem_scan he).2) h.inside ha
          (needed_of_within he (h.inside e he) hwithin)
        rw [hbyte, h.bytes a value hvalue]
        rfl

end

section

variable {heap : Heap} {pid kernelStack intJmpTable_user : Nat} {b : Buffer} {m : Machine}
  {s : Loader}

/-- For every file which says the same about a program, the loader shows this program. It does so
exactly if the entry behind the table does not change what the table says. -/
theorem loader_exact_iff (hm : Reached m) (hstack : kernelStack < 2 ^ 32)
    (hintJmp : intJmpTable_user < 2 ^ 32)
    (hprepare : allocProgramPageTable pid kernelStack intJmpTable_user m = .ok ((), s.machine))
    (hb : WellFormed s.machine pid b) :
    (∀ b', SameProgram b b' → Suffices heap pid b' s →
      ∀ memory, LoadsImage heap pid b' (imageOf b) (withContents s memory)) ↔
      ∀ b', SameProgram b b' → Suffices heap pid b' s → Repeats b' := by
  obtain ⟨_, hinv, -⟩ := hm.inv
  have hprepared := allocProgramPageTable_prepared hinv hprepare
  have hreached := reached_allocProgramPageTable hm hstack hintJmp hprepare
  obtain ⟨slack, h, hpriv⟩ := hreached.inv
  have hs : Ready slack s.machine pid := ⟨h, Reached.settled hreached, hpriv, hprepared⟩
  refine forall_congr' fun b' => forall_congr' fun hsame => forall_congr' fun hsuffices => ?_
  have hb' := hsame.wellFormed hb
  rw [← hsame.image]
  constructor
  · exact repeats_of_loads hs hb' hsuffices.countable
  · intro hrepeats memory
    exact loads_of_repeats (hs.withMemory memory) ⟨hb'.length, hb'.mag, hb'.shentsize, hb'.table,
      hb'.size, hb'.range, hb'.data, hb'.unused⟩ (suffices_withContents hsuffices memory) hrepeats

/-! Files whose table is right behind the header and has one entry. -/

def tableHeader : List (BitVec 8) :=
  ELF_MAG ++ List.replicate 20 0 ++ bytesOf 0x1000 ++ bytesOf 0 ++ bytesOf 52 ++
    List.replicate 10 0 ++ [40, 0, 1, 0, 0, 0]

/-- The section is the entry behind the table, and this entry is the same as the first one. -/
def repeatedSection : List (BitVec 8) :=
  bytesOf 0 ++ bytesOf 1 ++ bytesOf 0 ++ bytesOf 0x1010 ++ bytesOf 92 ++ bytesOf 40 ++
    List.replicate 16 0

def repeatedFile : Buffer :=
  ⟨tableHeader ++ repeatedSection ++ repeatedSection, by decide +kernel⟩

/-- Nothing follows the table. -/
def endingFile : Buffer := ⟨tableHeader ++ sampleSection 0x1010 0x10, by decide +kernel⟩

theorem images_facts : ((pagingInit [] sampleMachine).toOption.bind fun r =>
    (run next r.2 kernelEvents).toOption.bind fun r =>
      (allocProgramPageTable 0 0xFF800000 0xFF812000 r.1).toOption.map fun r =>
        (r.2.process 0).directory 0) = some .zero := by
  decide +kernel

/-- A process which is ready for a program. -/
theorem images_sample : ∃ m s, Reached m ∧
    allocProgramPageTable 0 0xFF800000 0xFF812000 m = .ok ((), (sampleLoader s).machine) ∧
      Unused (sampleLoader s).machine 0 1 := by
  obtain ⟨⟨_, s₀⟩, hinit, hfacts⟩ := Option.bind_eq_some_iff.mp images_facts
  obtain ⟨⟨m, answers⟩, hrun, hfacts⟩ := Option.bind_eq_some_iff.mp hfacts
  obtain ⟨⟨u, s⟩, hprepare, hzero⟩ := Option.map_eq_some_iff.mp hfacts
  refine ⟨m, s, ⟨s₀, kernelEvents, answers, started_sample (toOption_eq_some hinit),
    along_of_forall lawful_kernelEvents s₀, toOption_eq_some hrun⟩, toOption_eq_some hprepare,
    Or.inl hzero⟩

/-- The only section is in the page behind the first one. -/
theorem wellFormed_single {e : ElfSection} (htable : tableOf b = [e])
    (hlength : HEADER_SIZE ≤ b.length) (hmag : (headerAt b.contents).mag = ELF_MAG)
    (hend : (headerAt b.contents).shentsize = SECTION_SIZE ∧
      (headerAt b.contents).shoff + (headerAt b.contents).shnum * SECTION_SIZE ≤ b.length)
    (hpages : e.size ≠ 0 ∧ e.addr / PAGE_SIZE = 1 ∧ (e.addr + e.size) / PAGE_SIZE = 1)
    (hdata : e.type = ELF_STYPE_NOBITS ∨ e.offset + e.size ≤ b.length)
    (hunused : Unused m pid 1) : WellFormed m pid b := by
  obtain ⟨hsize, hstart, hstop⟩ := hpages
  refine ⟨hlength, hmag, hend.1.ge, hend.1 ▸ hend.2, ?_, ?_, ?_, ?_⟩ <;> rw [htable]
  · simpa using fun _ => hsize
  · simp only [List.mem_singleton, forall_eq]
    intro _
    simp only [PAGE_SIZE, KERNEL_PAGE] at *
    omega
  · simpa using fun _ => hdata
  · rintro n ⟨e', he', a, ⟨-, hle, hlt⟩, rfl⟩
    obtain rfl := List.mem_singleton.mp he'
    have hpage : pageOf a = 1 := by
      unfold pageOf
      simp only [PAGE_SIZE, PAGE_COUNT] at *
      omega
    rwa [hpage]

theorem loader_exact_iff_sample : ∃ m s, Reached m ∧ WellFormed s.machine 0 repeatedFile ∧
    ((∀ b', SameProgram repeatedFile b' → Suffices sampleHeap 0 b' s →
      ∀ memory, LoadsImage sampleHeap 0 b' (imageOf repeatedFile) (withContents s memory)) ↔
      ∀ b', SameProgram repeatedFile b' → Suffices sampleHeap 0 b' s → Repeats b') := by
  obtain ⟨m, s, hm, hprepare, hunused⟩ := images_sample
  have hb : WellFormed (sampleLoader s).machine 0 repeatedFile :=
    wellFormed_single (e := ⟨1, 0x1010, 92, 40⟩) (by decide +kernel) (by decide +kernel)
      (by decide +kernel) (by decide +kernel) (by decide +kernel) (by decide +kernel) hunused
  exact ⟨m, _, hm, hb,
    loader_exact_iff hm (by decide +kernel) (by decide +kernel) hprepare hb⟩

/-- The loader rejects a file which ends with its table. -/
theorem loader_inexact : ∃ m s, Reached m ∧
    allocProgramPageTable 0 0xFF800000 0xFF812000 m = .ok ((), s.machine) ∧
      WellFormed s.machine 0 endingFile ∧ Suffices sampleHeap 0 endingFile s ∧
      ¬LoadsImage sampleHeap 0 endingFile (imageOf endingFile) s := by
  obtain ⟨m, s, hm, hprepare, hunused⟩ := images_sample
  have hok : elfLoadBinary sampleHeap 0 endingFile (sampleLoader s) =
      .ok (false, sampleLoader s) := rfl
  refine ⟨m, _, hm, hprepare, ?_, ⟨by decide +kernel, fun e herror => ?_⟩, ?_⟩
  · exact wellFormed_single (e := ⟨8, 0x1010, 0, 0x10⟩) (by decide +kernel) (by decide +kernel)
      (by decide +kernel) (by decide +kernel) (by decide +kernel) (by decide +kernel) hunused
  · rw [hok] at herror
    cases herror
  · rintro ⟨s', hok', -⟩
    rw [hok] at hok'
    cases hok'

end

end Ibnos.ProgramImages
