import Ibnos.SystemPages

/-!
A file is loaded into a new process. Whatever the file is, only its sections decide about it: the
pages which they need have to be free, since the kernel does not give up in time otherwise.
-/

namespace Ibnos.ProgramLoads

open Ibnos.ElfLoader
open Ibnos.FrameSupply
open Ibnos.Intervals
open Ibnos.LoadedPages
open Ibnos.LoaderRemains
open Ibnos.Memory
open Ibnos.MappingFailures
open Ibnos.Paging
open Ibnos.PagingOperations
open Ibnos.PagingRuns
open Ibnos.Physmem
open Ibnos.ProcessPages
open Ibnos.Programs
open Ibnos.References
open Ibnos.Runs
open Ibnos.SectionStores
open Ibnos.SectionTables
open Ibnos.SystemPages
open Ibnos.TableMappings

section

variable {b : Buffer} {header : ElfHeader} {heap : Heap} {pid : Nat} {s s' : Loader}

/-- The sections which are looked at, and whether all of them are accepted. -/
def sectionsOf (b : Buffer) : List ElfSection × Bool :=
  scan b (headerAt b.contents) (headerAt b.contents).shnum 0

theorem reads_of_header (hb : HeaderAccepted b) : Reads b (headerAt b.contents) 0 := by
  refine ⟨?_, half_lt _ _⟩
  rw [entryOffset, Nat.zero_mul, Nat.add_zero]
  exact hb.shoff

theorem elfLoadBinary_accepted (hb : HeaderAccepted b) :
    elfLoadBinary heap pid b s = loadSections heap pid b (headerAt b.contents) s := by
  have hread : readBuffer b 0 HEADER_SIZE (headerAt b.contents) s =
      .ok (headerAt b.contents, s) := by
    rw [readBuffer, if_pos (by simpa using hb.length)]
    rfl
  rw [elfLoadBinary, if_neg (Nat.not_lt.mpr hb.length), bind_apply, hread]
  simp only
  rw [if_neg (not_not_intro hb.mag), if_neg (Nat.not_lt.mpr hb.shoff)]

theorem elfLoadBinary_rejected (hb : ¬HeaderAccepted b) :
    elfLoadBinary heap pid b s = .ok (false, s) := by
  rw [elfLoadBinary]
  split_ifs with hlength
  · rfl
  · have hread : readBuffer b 0 HEADER_SIZE (headerAt b.contents) s =
        .ok (headerAt b.contents, s) := by
      rw [readBuffer, if_pos (by simpa using hlength)]
      rfl
    rw [bind_apply, hread]
    simp only
    split_ifs with hmag hshoff
    · rfl
    · rfl
    · exact (hb ⟨Nat.le_of_not_lt hlength, not_not.mp hmag, Nat.le_of_not_lt hshoff⟩).elim

end

section

variable {slack : Nat → Nat} {heap : Heap} {pid : Nat} {b : Buffer} {header : ElfHeader}
  {s s' : Loader} {es : List ElfSection}

theorem needed_lt {n : Nat} (h : Needed es n) : n < PAGE_COUNT := by
  obtain ⟨e, -, -, -, hlt⟩ := h
  exact hlt.trans (stopIndex_lt e)

/-- The program after its sections were loaded. The pages which they need were filled before. -/
structure Loads (slack : Nat → Nat) (pid : Nat) (b : Buffer) (entry : Nat) (es : List ElfSection)
    (s : Loader) (m : Machine) (r : Bool) (s' : Loader) : Prop where
  filled : Filled slack pid (Needed es) s.machine m
  prepared : PreparedBut (Needed es) m pid
  running : Running slack m s'.machine
  success : r = true → (∀ e ∈ es, Shown m pid e) ∧
    view s'.machine = storeSections b pid (view m) es ∧
    s'.entryPoint = Function.update s.entryPoint pid entry
  failure : r = false → (∃ e ∈ es, ¬Shown m pid e) ∧ s'.entryPoint = s.entryPoint

section

variable {entry n : Nat} {m : Machine} {r : Bool}

theorem Loads.mapping_eq (h : Loads slack pid b entry es s m r s') :
    mapping s'.machine pid n = mapping m pid n :=
  congrFun (congrFun (mapping_of_process h.running.process) pid) n

theorem Loads.mapping_needed (h : Loads slack pid b entry es s m r s')
    (hn : Needed es n) : mapping s'.machine pid n ≠ none := by
  obtain ⟨f, hf, -⟩ := h.filled.own n hn
  rw [h.mapping_eq, hf]
  exact Option.some_ne_none _

theorem Loads.mapping_other (h : Loads slack pid b entry es s m r s')
    (hn : ¬Needed es n) : mapping s'.machine pid n = mapping s.machine pid n := by
  rw [h.mapping_eq]
  exact h.filled.same pid n fun heq => hn heq.2

end

theorem confined_of_filled {N : Nat → Prop} {m₀ m : Machine} (h : Filled slack pid N m₀ m)
    (hp : PreparedBut N m pid) : SectionStores.Confined m pid := by
  intro page
  rcases Classical.em (N page) with hpage | hpage
  · exact Or.inl (h.own page hpage)
  · exact Or.inr (hp.blocked page hpage)

/-- As long as there is memory, the pages are allocated and the sections stored. -/
theorem loadSections_loads (h : Inv slack 0 s.machine) (hs : Settled s.machine)
    (hpriv : Private s.machine) (hprepared : Prepared s.machine pid) (hr : Reads b header 0)
    (hscan : scan b header header.shnum 0 = (es, true))
    (hfree : ∀ n, Needed es n → n ≠ 0 ∧ Unused s.machine pid n)
    (hcount : ∀ e ∈ es, e.addr ≠ 0 → SectionStores.Countable e) :
    Yields Lack (loadSections heap pid b header) s fun r s' =>
      ∃ m, Loads slack pid b header.entry es s m r s' := by
  have hoffset : entryOffset header 0 = header.shoff := by
    rw [entryOffset, Nat.zero_mul, Nat.add_zero]
  obtain ⟨pages, s₁, hrequire, hsame, hlisted, hc, hcovers⟩ :=
    requireLoop_spec heap header.shnum hr (listed_nil s) canonical_nil
  rw [hoffset, hscan] at hrequire
  rw [hscan] at hcovers
  have hneeded : ∀ n, Covers (ranges pages) n ↔ Needed es n := by
    intro n
    rw [hcovers, or_iff_right]
    rintro ⟨i, hi, -⟩
    cases hi
  have hfilled : Filled slack pid (fun _ => False) s.machine s₁.machine := by
    rw [hsame.machine]
    exact filled_refl h hs hprepared.directory
  rw [loadSections]
  refine yields_ok_bind hrequire ?_
  simp only [if_true]
  have hunused : ∀ n, Covers (ranges pages) n →
      n < PAGE_COUNT ∧ n ≠ 0 ∧ ¬False ∧ Unused s.machine pid n := by
    intro n hn
    have hn := (hneeded n).mp hn
    exact ⟨needed_lt hn, (hfree n hn).1, not_false, (hfree n hn).2⟩
  refine (allocateLoop_filled hfilled hlisted hc hunused).bind_of ?_
  rintro u s₂ hallocate ⟨hfilled₂, hentry₂⟩
  have hfilled₂ := hfilled₂.congr fun q => (or_iff_right id).trans (hneeded q)
  have hprepared₂ : PreparedBut (Needed es) s₂.machine pid := by
    refine allocateLoop_prepared hc (fun n hn => (hunused n hn).1) (fun n hn => (hneeded n).mp hn)
      ⟨?_, fun page _ => ?_⟩ hallocate
    · rw [hsame.machine]
      exact hprepared.directory
    · rw [hsame.machine]
      exact hprepared.blocked page id
  have hrunning : Running slack s₂.machine s₂.machine :=
    ⟨orderly_refl hfilled₂.inv hfilled₂.settled, hfilled₂.priv (hsame.machine ▸ hpriv), rfl⟩
  have hall : (scan b header header.shnum 0).2 = true := by rw [hscan]
  have hstore := storeLoop_loaded hrunning hfilled₂.inv hfilled₂.directory
    (confined_of_filled hfilled₂ hprepared₂) hr hall (by rw [hscan]; exact hcount)
  rw [hscan, hoffset] at hstore
  refine hstore.bind fun stored s₃ hloaded => ?_
  have hentry : s₃.entryPoint = s.entryPoint :=
    hloaded.entryPoint.trans (hentry₂.trans hsame.entryPoint)
  cases stored with
  | true =>
      obtain ⟨hshown, hview⟩ := hloaded.success rfl
      refine yields_modify_bind (yields_pure ⟨s₂.machine, hfilled₂, hprepared₂, hloaded.running,
        fun _ => ⟨hshown, hview, ?_⟩, by simp⟩)
      rw [hentry]
  | false =>
      exact yields_pure ⟨s₂.machine, hfilled₂, hprepared₂, hloaded.running, by simp,
        fun _ => ⟨hloaded.failure rfl, hentry⟩⟩

/-- A file is rejected before anything is allocated for it. -/
theorem loadSections_rejected (hr : Reads b header 0)
    (hscan : (scan b header header.shnum 0).2 = false) :
    ∃ s', loadSections heap pid b header s = .ok (false, s') ∧ SameMachine s s' := by
  obtain ⟨pages, s₁, hrequire, hsame, -⟩ :=
    requireLoop_spec heap header.shnum hr (listed_nil s) canonical_nil
  rw [entryOffset, Nat.zero_mul, Nat.add_zero, hscan] at hrequire
  refine ⟨s₁, ?_, hsame⟩
  rw [loadSections, bind_apply, hrequire]
  rfl

/-- The loader does not come past a page which is in use, or the first page. -/
theorem free_of_loadSections {r : Bool} (h : Inv slack 0 s.machine) (hr : Reads b header 0)
    (hscan : (scan b header header.shnum 0).2 = true)
    (hok : loadSections heap pid b header s = .ok (r, s')) :
    ∀ n, Needed (scan b header header.shnum 0).1 n → n ≠ 0 ∧ Unused s.machine pid n := by
  obtain ⟨pages, s₁, hrequire, hsame, -, hc, hcovers⟩ :=
    requireLoop_spec heap header.shnum hr (listed_nil s) canonical_nil
  have hneeded : ∀ n, Covers (ranges pages) n → Needed (scan b header header.shnum 0).1 n := by
    intro n hn
    refine ((hcovers n).mp hn).resolve_left ?_
    rintro ⟨i, hi, -⟩
    cases hi
  rw [entryOffset, Nat.zero_mul, Nat.add_zero, hscan] at hrequire
  rw [loadSections, bind_apply, hrequire] at hok
  obtain ⟨u, s₂, hallocate, -⟩ := bind_ok.mp hok
  rw [← hsame.machine] at h ⊢
  intro n hn
  exact allocateLoop_unused h hc (fun n hn => needed_lt (hneeded n hn)) hallocate
    ((hcovers n).mpr (Or.inr hn))

end

section

variable {heap : Heap} {pid kernelStack intJmpTable_user : Nat} {b : Buffer} {m : Machine}
  {s : Loader}

/-- The header and all entries of the table are accepted. -/
def TableAccepted (b : Buffer) : Prop := HeaderAccepted b ∧ (sectionsOf b).2 = true

/-- No section needs the first page or one which is in use. -/
def PagesFree (m : Machine) (pid : Nat) (b : Buffer) : Prop :=
  ∀ n, Needed (sectionsOf b).1 n → n ≠ 0 ∧ Unused m pid n

/-- Every section could be shown in the address space of the kernel, and the loader is not stopped
for want of frames or of pages. -/
structure Suffices (heap : Heap) (pid : Nat) (b : Buffer) (s : Loader) : Prop where
  sizes : ∀ e ∈ (sectionsOf b).1, e.addr ≠ 0 →
    (e.addr % PAGE_SIZE + e.size + (PAGE_SIZE - 1)) / PAGE_SIZE < KERNEL_PAGE
  memory : ∀ e, elfLoadBinary heap pid b s = .error e → ¬Lack e

theorem Suffices.countable (h : Suffices heap pid b s) :
    ∀ e ∈ (sectionsOf b).1, e.addr ≠ 0 → SectionStores.Countable e := by
  intro e he haddr
  have hsize := h.sizes e he haddr
  simp only [SectionStores.Countable, KERNEL_PAGE, PAGE_SIZE] at *
  omega

/-- The loader always returns, except that it stops the kernel for a page which is not free. -/
theorem loader_returns (hm : Reached m) (hstack : kernelStack < 2 ^ 32)
    (hintJmp : intJmpTable_user < 2 ^ 32)
    (hprepare : allocProgramPageTable pid kernelStack intJmpTable_user m = .ok ((), s.machine))
    (hsuffices : Suffices heap pid b s) :
    (∃ r s', elfLoadBinary heap pid b s = .ok (r, s')) ↔
      (TableAccepted b → PagesFree s.machine pid b) := by
  obtain ⟨_, hinv, -⟩ := hm.inv
  have hprepared := allocProgramPageTable_prepared hinv hprepare
  have hreached := reached_allocProgramPageTable hm hstack hintJmp hprepare
  obtain ⟨slack, h, hpriv⟩ := hreached.inv
  by_cases hb : HeaderAccepted b
  · have hr := reads_of_header hb
    rcases hscan : (sectionsOf b).2 with _ | _
    · obtain ⟨s', hok, -⟩ : ∃ s', loadSections heap pid b (headerAt b.contents) s =
          .ok (false, s') ∧ SameMachine s s' := loadSections_rejected hr hscan
      refine iff_of_true ⟨false, s', (elfLoadBinary_accepted hb).trans hok⟩ fun htable => ?_
      rw [TableAccepted, hscan] at htable
      cases htable.2
    · constructor
      · rintro ⟨r, s', hok⟩ -
        rw [elfLoadBinary_accepted hb] at hok
        exact free_of_loadSections h hr hscan hok
      · intro hfree
        have hloads : Yields Lack (loadSections heap pid b (headerAt b.contents)) s fun r s' =>
            ∃ m, Loads slack pid b (headerAt b.contents).entry (sectionsOf b).1 s m r s' :=
          loadSections_loads h (Reached.settled hreached) hpriv hprepared hr (Prod.ext rfl hscan)
            (hfree ⟨hb, hscan⟩) hsuffices.countable
        rcases hrun : elfLoadBinary heap pid b s with e | ⟨r, s'⟩
        · rw [elfLoadBinary_accepted hb] at hrun
          refine (hsuffices.memory e ?_ (hloads.of_error hrun)).elim
          rw [elfLoadBinary_accepted hb, hrun]
        · exact ⟨r, s', rfl⟩
  · exact iff_of_true ⟨false, s, elfLoadBinary_rejected hb⟩ fun htable => (hb htable.1).elim

end

section

/-! The pages which the kernel shares with every process are there. -/

def kernelEvents : List Event :=
  [.operation (.allocatePhysMemFixed none 0xFF800000 20 true false)]

/-- The section is at the first page. -/
def firstPageFile : Buffer := ⟨sampleHeader 1 ++ sampleSection 0x10 0x10, by decide +kernel⟩

def stopOf {α : Type} : Except Stop α → Option Stop
  | .ok _ => none
  | .error e => some e

theorem loads_facts : ((pagingInit [] sampleMachine).toOption.bind fun r =>
    (run next r.2 kernelEvents).toOption.bind fun r =>
      (allocProgramPageTable 0 0xFF800000 0xFF812000 r.1).toOption.map fun r =>
        (stopOf (elfLoadBinary sampleHeap 0 sampleFile (sampleLoader r.2)),
          stopOf (elfLoadBinary sampleHeap 0 firstPageFile (sampleLoader r.2)))) =
    some (none, some .addressInUse) := by
  decide +kernel

theorem lawful_kernelEvents (s : Machine) : ∀ event ∈ kernelEvents, Lawful s event := by
  intro event hevent
  rw [List.mem_singleton.mp hevent]
  exact ⟨fun _ => by decide +kernel, trivial⟩

/-- A process which is ready for a program, with both files. -/
theorem loads_sample : ∃ m s, Reached m ∧
    allocProgramPageTable 0 0xFF800000 0xFF812000 m = .ok ((), (sampleLoader s).machine) ∧
      stopOf (elfLoadBinary sampleHeap 0 sampleFile (sampleLoader s)) = none ∧
      stopOf (elfLoadBinary sampleHeap 0 firstPageFile (sampleLoader s)) = some .addressInUse := by
  obtain ⟨⟨_, s₀⟩, hinit, hfacts⟩ := Option.bind_eq_some_iff.mp loads_facts
  obtain ⟨⟨m, answers⟩, hrun, hfacts⟩ := Option.bind_eq_some_iff.mp hfacts
  obtain ⟨⟨u, s⟩, hprepare, hfacts⟩ := Option.map_eq_some_iff.mp hfacts
  obtain ⟨hok, hstop⟩ := Prod.mk.inj hfacts
  refine ⟨m, s, ⟨s₀, kernelEvents, answers, started_sample (toOption_eq_some hinit),
    along_of_forall lawful_kernelEvents s₀, toOption_eq_some hrun⟩, toOption_eq_some hprepare,
    hok, hstop⟩

theorem suffices_sample {b : Buffer} {s : Loader} {e : Option Stop}
    (hsizes : ∀ e ∈ (sectionsOf b).1, e.addr ≠ 0 →
      (e.addr % PAGE_SIZE + e.size + (PAGE_SIZE - 1)) / PAGE_SIZE < KERNEL_PAGE)
    (hstop : stopOf (elfLoadBinary sampleHeap 0 b s) = e) (he : ∀ e' ∈ e, ¬Lack e') :
    Suffices sampleHeap 0 b s := by
  refine ⟨hsizes, fun e' herror => he e' ?_⟩
  rw [← hstop, herror]
  rfl

theorem loader_returns_sample : ∃ m s, Reached m ∧ Suffices sampleHeap 0 sampleFile s ∧
    ((∃ r s', elfLoadBinary sampleHeap 0 sampleFile s = .ok (r, s')) ↔
      (TableAccepted sampleFile → PagesFree s.machine 0 sampleFile)) := by
  obtain ⟨m, s, hm, hprepare, hok, -⟩ := loads_sample
  have hsuffices := suffices_sample (by decide +kernel) hok (by simp)
  exact ⟨m, _, hm, hsuffices,
    loader_returns hm (by decide +kernel) (by decide +kernel) hprepare hsuffices⟩

/-- Every frame which is needed is there, and the kernel goes down all the same. -/
theorem loader_stops : ∃ m s, Reached m ∧
    allocProgramPageTable 0 0xFF800000 0xFF812000 m = .ok ((), s.machine) ∧
      Suffices sampleHeap 0 firstPageFile s ∧
      ¬∃ r s', elfLoadBinary sampleHeap 0 firstPageFile s = .ok (r, s') := by
  obtain ⟨m, s, hm, hprepare, -, hstop⟩ := loads_sample
  refine ⟨m, _, hm, hprepare, suffices_sample (by decide +kernel) hstop (by simp [Lack]), ?_⟩
  rintro ⟨r, s', hok⟩
  rw [hok] at hstop
  cases hstop

end

end Ibnos.ProgramLoads
