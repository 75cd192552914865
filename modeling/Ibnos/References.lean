import Ibnos.Paging
import Ibnos.Tallies

/-!
What the page tables and the reference counts have to do with each other. A
frame has as many references as there are entries which name it, apart from
those which a function has in its hands: these are the `pending` ones.
-/

namespace Ibnos.References

open Ibnos.Memory
open Ibnos.Physmem
open Ibnos.Paging
open Ibnos.Programs
open Ibnos.Tallies

/-- An entry of a page directory or of a page table. The page directory of the
kernel is among its page tables. -/
inductive Place where
  | kernel (page : Nat)
  | directory (pid i : Nat)
  | table (pid page : Nat)
deriving DecidableEq

/-- The present entry of a process for a page. -/
def mapping (s : Machine) (pid page : Nat) : Option PagingEntry :=
  if page < PAGE_COUNT ∧ (s.process pid).pageDirectory.isSome ∧
      ((s.process pid).directory (page / PAGETABLE_COUNT)).present ∧
      ((s.process pid).table page).present then
    some ((s.process pid).table page)
  else none

/-- The frame which is named by an entry whose present bit is set. -/
def names (s : Machine) : Place → Option Nat
  | .kernel page => if page < PAGE_COUNT then s.translate page else none
  | .directory pid i =>
      if i < PAGETABLE_COUNT ∧ (s.process pid).pageDirectory.isSome ∧
          ((s.process pid).directory i).present then
        some ((s.process pid).directory i).frame
      else none
  | .table pid page => (mapping s pid page).map PagingEntry.frame

/-- The bit of a frame in the bitmap. -/
def used (s : Machine) (frame : Nat) : Bool :=
  (s.physMemMap (frame / 32)).getLsbD (frame % 32)

/-- The reference count of a frame in use: 1 without a record, else its field `ref`. -/
def refCount (s : Machine) (frame : Nat) : Nat :=
  if s.extraInfo frame = .zero then 1 else (s.extraInfo frame).ref

/-- The references to a frame, none if it is free. -/
def refs (s : Machine) (frame : Nat) : Nat :=
  if used s frame then refCount s frame else 0

/-- A page of the kernel through which it sees one of its tables. -/
inductive Role where
  | extra (i : Nat)
  | directory (pid : Nat)
  | table (pid i : Nat)
deriving DecidableEq

def home (s : Machine) : Role → Option Nat
  | .extra i => s.physMemExtra i
  | .directory pid => (s.process pid).pageDirectory
  | .table pid i => (s.process pid).pageTables i

/-- The frame which holds the table. -/
def backing (s : Machine) : Role → Nat
  | .extra i => s.extraFrame i
  | .directory pid => (s.process pid).directoryFrame
  | .table pid i => ((s.process pid).directory i).frame

def Owned (s : Machine) (page : Nat) : Prop := ∃ r, home s r = some page

/-- The page table `i` of the kernel exists. -/
structure TableReady (s : Machine) (i : Nat) : Prop where
  present : (s.kernel (KERNEL_PAGE + i)).present = true
  avail : (s.kernel (KERNEL_PAGE + i)).avail = 0
  frame : (s.kernel (KERNEL_PAGE + i)).frame = s.kernelTable i

structure TableMissing (s : Machine) (i : Nat) : Prop where
  directory : s.kernel (KERNEL_PAGE + i) = .zero
  entries : ∀ page, page / PAGETABLE_COUNT = i → s.kernel page = .zero

structure ProcessValid (p : Process) : Prop where
  noTables : p.pageDirectory = none → ∀ i, p.pageTables i = none
  tables : ∀ i k, p.pageTables i = some k → i < PAGETABLE_COUNT ∧ p.directory i ≠ .zero
  directory : p.pageDirectory ≠ none → ∀ i, p.directory i ≠ .zero →
    (p.directory i).present = true ∧ (p.directory i).avail = 0
  orphans : ∀ page, page < PAGE_COUNT →
    p.pageDirectory = none ∨ p.directory (page / PAGETABLE_COUNT) = .zero →
    (p.table page).present = false

/-- The tables of the kernel are where it looks for them. -/
structure Structured (s : Machine) : Prop where
  self : TableReady s KERNEL_DIR_ENTRY
  tables : ∀ i, i < KERNEL_DIR_ENTRY → TableMissing s i ∨ TableReady s i
  homes : ∀ r k, home s r = some k → k < KERNEL_PAGE ∧ s.translate k = some (backing s r) ∧
    (s.kernel k).rw = true
  unique : ∀ r r' k, home s r = some k → home s r' = some k → r = r'
  processes : ∀ pid, ProcessValid (s.process pid)

/-- The records are started for frames in use only. -/
structure Recorded (s : Machine) : Prop where
  unused : ∀ f, used s f = false → s.extraInfo f = .zero
  missing : ∀ f, s.physMemExtra (f / PHYSMEMEXTRA_COUNT) = none → s.extraInfo f = .zero
  present : ∀ f, s.extraInfo f ≠ .zero → (s.extraInfo f).present = true ∧
    1 ≤ (s.extraInfo f).ref ∧ (s.extraInfo f).ref < 2 ^ 7

/-- The frames with `slack` are those which are in use though nobody asked for them. -/
structure Inv (slack : Nat → Nat) (pending : Nat → ℤ) (s : Machine) : Prop where
  structured : Structured s
  recorded : Recorded s
  finite : Finitary (names s)
  nonneg : ∀ f, 0 ≤ tally (names s) f + pending f
  balance : ∀ f, (refs s f : ℤ) = tally (names s) f + pending f + slack f
  handedOut : ∀ f, s.handedOut f = true → slack f = 0

/-- The frame which an entry names. -/
def named (e : PagingEntry) : Option Nat := if e.present then some e.frame else none

/-- A reference to a frame, if there is one. -/
def due (frame : Option Nat) : Nat → ℤ := fun f => if frame = some f then 1 else 0

@[simp] theorem named_zero : named .zero = none := rfl

@[simp] theorem due_none : due none = 0 := by
  funext f
  rfl

/-- The kernel does not stop for a reason which it does not know itself. -/
def Excused (e : Stop) : Prop := e ≠ .pageFault ∧ e ≠ .corrupted ∧ e ≠ .outOfFuel

abbrev Steps {α : Type} (m : M α) (s : Machine) (Q : α → Machine → Prop) : Prop :=
  Yields Excused m s Q

/-- The table with the entry of a page exists. -/
def Mapped (s : Machine) : Option Nat → Nat → Prop
  | none, page => s.kernel (KERNEL_PAGE + page / PAGETABLE_COUNT) ≠ .zero
  | some pid, page => (s.process pid).pageTables (page / PAGETABLE_COUNT) ≠ none

/-- A page of the kernel which is in use, but not for a table. -/
def Loose (s : Machine) (page : Nat) : Prop := s.kernel page ≠ .zero ∧ ¬Owned s page

/-- Only tables and pages for them were added. -/
structure Grows (s s' : Machine) : Prop where
  kernel : ∀ page, s.kernel page ≠ .zero → s'.kernel page = s.kernel page
  homes : ∀ r k, home s r = some k → home s' r = some k
  fresh : ∀ r k, home s' r = some k → home s r = some k ∨ s.kernel k = .zero
  mapping : ∀ pid page, mapping s' pid page = References.mapping s pid page
  memory : s'.memory = s.memory
  used : ∀ f, used s f = true → References.used s' f = true
  holds : ∀ f, s'.holdsTable f = true → s.holdsTable f = true ∨ References.used s f = false

/-- No table and no page in use went away. -/
structure Extends (s s' : Machine) : Prop where
  mapped : ∀ p page, Mapped s p page → Mapped s' p page
  loose : ∀ page, Loose s page → Loose s' page

theorem Grows.refl (s : Machine) : Grows s s :=
  ⟨fun _ _ => rfl, fun _ _ h => h, fun _ _ h => Or.inl h, fun _ _ => rfl, rfl, fun _ h => h,
    fun _ h => Or.inl h⟩

theorem Grows.trans {s s' s'' : Machine} (h : Grows s s') (h' : Grows s' s'') : Grows s s'' where
  kernel page hpage := by
    have := h.kernel page hpage
    rw [h'.kernel page (by rw [this]; exact hpage), this]
  homes r k hk := h'.homes r k (h.homes r k hk)
  fresh r k hk := by
    rcases h'.fresh r k hk with hk | hk
    · exact h.fresh r k hk
    · refine Or.inr ?_
      by_contra hne
      exact hne (by rw [← h.kernel k hne, hk])
  mapping pid page := (h'.mapping pid page).trans (h.mapping pid page)
  memory := h'.memory.trans h.memory
  used f hf := h'.used f (h.used f hf)
  holds f hf := by
    rcases h'.holds f hf with hf | hf
    · exact h.holds f hf
    · refine Or.inr ?_
      by_contra hne
      rw [h.used f (by simpa using hne)] at hf
      cases hf

theorem Extends.refl (s : Machine) : Extends s s := ⟨fun _ _ h => h, fun _ h => h⟩

theorem Extends.trans {s s' s'' : Machine} (h : Extends s s') (h' : Extends s' s'') :
    Extends s s'' :=
  ⟨fun p page hp => h'.mapped p page (h.mapped p page hp),
    fun page hp => h'.loose page (h.loose page hp)⟩

theorem Grows.extends {s s' : Machine} (h : Grows s s') : Extends s s' where
  mapped p page hp := by
    rcases p with _ | pid
    · rw [Mapped, h.kernel _ hp]
      exact hp
    · rcases hk : (s.process pid).pageTables (page / PAGETABLE_COUNT) with _ | k
      · exact (hp hk).elim
      · have := h.homes (.table pid (page / PAGETABLE_COUNT)) k hk
        rw [Mapped]
        rw [home] at this
        rw [this]
        exact nofun
  loose page hp := by
    refine ⟨by rw [h.kernel page hp.1]; exact hp.1, ?_⟩
    rintro ⟨r, hr⟩
    rcases h.fresh r page hr with hr | hzero
    · exact hp.2 ⟨r, hr⟩
    · exact hp.1 hzero

theorem getLsbD_set {word : BitVec 32} {i j : Nat} (hi : i < 32) (hj : j < 32) :
    (word ||| 1#32 <<< i).getLsbD j = (decide (j = i) || word.getLsbD j) := by
  rw [BitVec.getLsbD_or, BitVec.getLsbD_shiftLeft, BitVec.getLsbD_one]
  rcases eq_or_ne j i with rfl | hne
  · simp [hj]
  · have : ¬(¬j < i ∧ j - i = 0) := by omega
    simp [hne, hj]
    omega

theorem getLsbD_clear {word : BitVec 32} {i j : Nat} (hi : i < 32) (hj : j < 32) :
    (word &&& ~~~(1#32 <<< i)).getLsbD j = (decide (j ≠ i) && word.getLsbD j) := by
  rw [BitVec.getLsbD_and, BitVec.getLsbD_not, BitVec.getLsbD_shiftLeft, BitVec.getLsbD_one]
  rcases eq_or_ne j i with rfl | hne
  · simp [hj]
  · simp [hne, hj]
    intro _
    omega

theorem used_setBit (s : Machine) (f g : Nat) (b : Bool) :
    used (s.setBit f b) g = if g = f then b else used s g := by
  simp only [used, Machine.setBit]
  rcases eq_or_ne (g / 32) (f / 32) with hdiv | hdiv
  · rw [hdiv, Function.update_self]
    have hiff : g = f ↔ g % 32 = f % 32 := by omega
    have hg : g % 32 < 32 := Nat.mod_lt _ (by decide)
    have hf : f % 32 < 32 := Nat.mod_lt _ (by decide)
    cases b
    · simp only [Bool.false_eq_true, if_false]
      rw [getLsbD_clear hf hg]
      split <;> simp_all
    · simp only [if_true]
      rw [getLsbD_set hf hg]
      split <;> simp_all
  · rw [Function.update_of_ne hdiv, if_neg]
    rintro rfl
    exact hdiv rfl

theorem findWord_eq_some {map : Nat → BitVec 32} {n i w : Nat} (h : findWord map n i = some w) :
    i ≤ w ∧ w < i + n ∧ map w ≠ 0xFFFFFFFF := by
  induction n generalizing i with
  | zero => cases h
  | succ n ih =>
      rw [findWord] at h
      split at h
      · cases h
        exact ⟨le_rfl, by omega, by assumption⟩
      · obtain ⟨hle, hlt, hw⟩ := ih h
        exact ⟨by omega, by omega, hw⟩

theorem all_ones : ∀ j < 32, BitVec.getLsbD (0xFFFFFFFF : BitVec 32) j = true := by decide

theorem findBit_spec {word : BitVec 32} {n i : Nat} (hn : i + n = 32)
    (hset : ∀ j < i, word.getLsbD j = true) (hword : word ≠ 0xFFFFFFFF) :
    findBit word n i < 32 ∧ word.getLsbD (findBit word n i) = false := by
  induction n generalizing i with
  | zero =>
      refine absurd ?_ hword
      apply BitVec.eq_of_getLsbD_eq
      intro j hj
      rw [hset j (by omega)]
      exact (all_ones j hj).symm
  | succ n ih =>
      rw [findBit]
      split
      · rename_i hbit
        refine ih (by omega) fun j hj => ?_
        rcases Nat.lt_succ_iff_lt_or_eq.mp hj with hj | rfl
        · exact hset j hj
        · exact hbit
      · rename_i hbit
        exact ⟨by omega, by simpa using hbit⟩

theorem allocLoop_spec {s : Machine} {lowmem : Bool} {tries : Nat} :
    Steps (allocLoop lowmem tries) s fun f s' =>
      s' = (s.setBit f true).handOut f ∧ used s f = false ∧ f < PAGE_COUNT := by
  cases tries with
  | zero => exact yields_throw (by simp [Excused])
  | succ tries =>
      rw [allocLoop]
      refine yields_get_bind ?_
      split
      · rename_i longIndex hword
        obtain ⟨-, hlt, hne⟩ := findWord_eq_some hword
        obtain ⟨hbit, hclear⟩ := findBit_spec (n := 32) (i := 0) rfl (by simp) hne
        refine yields_modify_bind (yields_pure ⟨rfl, ?_, ?_⟩)
        · rw [used]
          have h1 : (longIndex * 32 + findBit (s.physMemMap longIndex) 32 0) / 32 = longIndex := by
            omega
          have h2 : (longIndex * 32 + findBit (s.physMemMap longIndex) 32 0) % 32 =
              findBit (s.physMemMap longIndex) 32 0 := by omega
          rw [h1, h2]
          exact hclear
        · simp only [PHYSMEMMAP_COUNT, firstWord, PAGE_COUNT] at *
          split at hlt <;> omega
      · exact Yields.bind (Q := fun _ _ => False) (yields_throw (by simp [Excused])) nofun


/-- Nothing changed but the bitmap and the records. -/
structure SameTables (s s' : Machine) : Prop where
  kernel : s'.kernel = s.kernel
  kernelTable : s'.kernelTable = s.kernelTable
  process : s'.process = s.process
  physMemExtra : s'.physMemExtra = s.physMemExtra
  extraFrame : s'.extraFrame = s.extraFrame
  memory : s'.memory = s.memory

section

variable {s s' : Machine}

theorem SameTables.translate (h : SameTables s s') : s'.translate = s.translate := by
  funext page
  rw [Machine.translate, h.kernel]
  rfl

theorem SameTables.mapping (h : SameTables s s') : mapping s' = References.mapping s := by
  funext pid page
  rw [References.mapping, h.process]
  rfl

theorem SameTables.names (h : SameTables s s') : names s' = References.names s := by
  funext place
  cases place with
  | kernel page => simp only [References.names, h.translate]
  | directory pid i => simp only [References.names, h.process]
  | table pid page => simp only [References.names, h.mapping]

theorem SameTables.homes (h : SameTables s s') : home s' = home s := by
  funext r
  cases r <;> simp only [home, h.physMemExtra, h.process]

theorem SameTables.backing (h : SameTables s s') : backing s' = References.backing s := by
  funext r
  cases r <;> simp only [References.backing, h.extraFrame, h.process]

theorem SameTables.grows (h : SameTables s s') (hused : ∀ f, used s f = true → used s' f = true)
    (hholds : ∀ f, s'.holdsTable f = true → s.holdsTable f = true) : Grows s s' where
  kernel page _ := by rw [h.kernel]
  homes r k hk := by rw [h.homes, hk]
  fresh r k hk := by
    rw [h.homes] at hk
    exact Or.inl hk
  mapping pid page := by rw [h.mapping]
  memory := h.memory
  used := hused
  holds f hf := Or.inl (hholds f hf)

theorem SameTables.structured (h : SameTables s s') (hs : Structured s) : Structured s' where
  self := by
    obtain ⟨hpresent, havail, hframe⟩ := hs.self
    constructor <;> simpa only [h.kernel, h.kernelTable]
  tables i hi := by
    rcases hs.tables i hi with ⟨hdir, hentries⟩ | ⟨hpresent, havail, hframe⟩
    · refine Or.inl ?_
      constructor <;> simpa only [h.kernel]
    · refine Or.inr ?_
      constructor <;> simpa only [h.kernel, h.kernelTable]
  homes r k hk := by
    rw [h.homes] at hk
    rw [h.translate, h.backing, h.kernel]
    exact hs.homes r k hk
  unique r r' k hr hr' := by
    rw [h.homes] at hr hr'
    exact hs.unique r r' k hr hr'
  processes pid := by
    rw [h.process]
    exact hs.processes pid

theorem setInfo_same (s : Machine) (f : Nat) (info : PhysMemExtraInfo) :
    SameTables s (s.setInfo f info) :=
  ⟨rfl, rfl, rfl, rfl, rfl, rfl⟩

/-- The references to one frame changed. -/
theorem Inv.of_sameTables {slack : Nat → Nat} {P P' : Nat → ℤ} (hs : Inv slack P s)
    (h : SameTables s s') (hrecorded : Recorded s')
    (hhanded : ∀ f, s'.handedOut f = true → slack f = 0)
    (hnonneg : ∀ f, 0 ≤ tally (names s) f + P' f)
    (hbalance : ∀ f, (refs s' f : ℤ) - refs s f = P' f - P f) : Inv slack P' s' where
  structured := h.structured hs.structured
  recorded := hrecorded
  finite := by
    rw [h.names]
    exact hs.finite
  nonneg f := by
    rw [h.names]
    exact hnonneg f
  balance f := by
    rw [h.names]
    have := hs.balance f
    have := hbalance f
    omega
  handedOut := hhanded

end

section

variable {slack : Nat → Nat} {P : Nat → ℤ} {s : Machine} {f : Nat}

theorem refs_of_not_used (h : used s f = false) : refs s f = 0 := by
  rw [refs, if_neg (by simp [h])]

theorem refs_pos_iff (h : Recorded s) : 1 ≤ refs s f ↔ used s f = true := by
  rw [refs]
  split
  · rename_i hused
    refine ⟨fun _ => hused, fun _ => ?_⟩
    rw [refCount]
    split
    · exact le_rfl
    · rename_i hne
      exact (h.present f hne).2.1
  · rename_i hused
    exact ⟨fun h => absurd h (by omega), fun h => (hused h).elim⟩

theorem Inv.refs_pos (h : Inv slack P s) {place : Place} (hp : names s place = some f)
    (hP : 0 ≤ P f) : 1 ≤ refs s f := by
  have := tally_pos h.finite hp
  have := h.balance f
  omega

/-- A page which was just handed out. -/
theorem Inv.alloc (h : Inv slack P s) (hf : used s f = false) :
    Inv slack (P + due (some f)) ((s.setBit f true).handOut f) := by
  have hrefs : ∀ g, refs ((s.setBit f true).handOut f) g = if g = f then 1 else refs s g := by
    intro g
    change (if used (s.setBit f true) g then refCount s g else 0) = _
    rw [used_setBit]
    rcases eq_or_ne g f with rfl | hne
    · rw [if_pos rfl, if_pos rfl, if_pos rfl, refCount, if_pos (h.recorded.unused g hf)]
    · rw [if_neg hne, if_neg hne]
      rfl
  refine h.of_sameTables (by constructor <;> rfl) ⟨?_, h.recorded.missing, h.recorded.present⟩
    ?_ ?_ ?_
  · intro g hg
    change used (s.setBit f true) g = false at hg
    rw [used_setBit] at hg
    split at hg
    · cases hg
    · exact h.recorded.unused g hg
  · intro g hg
    change Function.update s.handedOut f true g = true at hg
    rcases eq_or_ne g f with rfl | hne
    · have := h.balance g
      have := h.nonneg g
      rw [refs_of_not_used hf] at *
      omega
    · rw [Function.update_of_ne hne] at hg
      exact h.handedOut g hg
  · intro g
    have := h.nonneg g
    rw [Pi.add_apply, due]
    split <;> omega
  · intro g
    rw [hrefs, Pi.add_apply, due]
    rcases eq_or_ne g f with rfl | hne
    · rw [if_pos rfl, if_pos rfl, refs_of_not_used hf]
      push_cast
      omega
    · rw [if_neg hne, if_neg (by simpa using hne.symm)]
      omega

/-- A new page is not named by any entry. -/
theorem Inv.fresh (h : Inv slack P s) (hf : used s f = false) (hP : 0 ≤ P f) (place : Place) :
    names s place ≠ some f := by
  refine ne_of_tally_eq_zero h.finite ?_ place
  have := h.balance f
  rw [refs_of_not_used hf] at this
  omega

end
section

variable {α : Type} {s : Machine} {Q : α → Machine → Prop}

theorem steps_check_bind {b : Bool} {f : Unit → M α} (h : b = true → Steps (f ()) s Q) :
    Steps (check b >>= f) s Q := by
  cases b
  · exact yields_throw (by simp [Excused])
  · exact h rfl

theorem steps_check {b : Bool} {Q : Unit → Machine → Prop} (h : b = true → Q () s) :
    Steps (check b) s Q := by
  cases b
  · exact yields_throw (by simp [Excused])
  · exact h rfl

theorem steps_requirePresent {e : PagingEntry} {Q : Unit → Machine → Prop}
    (h : e.present = true → Q () s) : Steps (requirePresent e) s Q := by
  rw [requirePresent]
  refine yields_ite (fun he => yields_pure (h he)) fun _ => ?_
  refine yields_ite (fun _ => ?_) fun _ => ?_ <;> exact yields_throw (by simp [Excused])

theorem steps_requirePresent_bind {e : PagingEntry} {f : Unit → M α}
    (h : e.present = true → Steps (f ()) s Q) : Steps (requirePresent e >>= f) s Q :=
  Yields.bind (Q := fun _ s' => s' = s ∧ e.present = true)
    (steps_requirePresent fun he => ⟨rfl, he⟩) (by
      rintro _ _ ⟨rfl, he⟩
      exact h he)

theorem access_ok {page frame : Nat} (h : s.translate page = some frame) :
    access page frame s = .ok ((), s) := by
  rw [access, bind_apply]
  change (if s.pagingEnabled then _ else _ : M Unit) s = _
  simp only [h, if_true]
  split <;> rfl

end

section

variable {s : Machine} {p : Option Nat} {page pid i k : Nat}

theorem translate_of_ready (h : TableReady s (page / PAGETABLE_COUNT)) :
    s.translate page = if (s.kernel page).present then some (s.kernel page).frame else none := by
  rw [Machine.translate, h.present, Bool.true_and]

/-- The kernel sees its page table `i` through the page directory. -/
theorem Structured.translate_table (h : Structured s) (hi : i < PAGETABLE_COUNT)
    (hready : TableReady s i) : s.translate (KERNEL_PAGE + i) = some (s.kernelTable i) := by
  have hdiv : (KERNEL_PAGE + i) / PAGETABLE_COUNT = KERNEL_DIR_ENTRY := by
    simp only [KERNEL_PAGE, PAGETABLE_COUNT, KERNEL_DIR_ENTRY] at *
    omega
  rw [translate_of_ready (by rw [hdiv]; exact h.self), if_pos hready.present, hready.frame]

theorem Structured.ready (h : Structured s) (hpage : page < PAGE_COUNT) (hm : Mapped s none page) :
    TableReady s (page / PAGETABLE_COUNT) := by
  have hi : page / PAGETABLE_COUNT ≤ KERNEL_DIR_ENTRY := by
    simp only [PAGE_COUNT, PAGETABLE_COUNT, KERNEL_DIR_ENTRY] at *
    omega
  rcases hi.lt_or_eq with hi | hi
  · rcases h.tables _ hi with hmissing | hready
    · exact (hm hmissing.directory).elim
    · exact hready
  · rw [hi]
    exact h.self

theorem Structured.accessTable_ok (h : Structured s) (hpage : page < PAGE_COUNT)
    (hm : Mapped s p page) : accessTable p page s = .ok ((), s) := by
  rcases p with _ | pid
  · have hi : page / PAGETABLE_COUNT < PAGETABLE_COUNT := by
      simp only [PAGE_COUNT, PAGETABLE_COUNT] at *
      omega
    exact access_ok (h.translate_table hi (h.ready hpage hm))
  · rcases hk : (s.process pid).pageTables (page / PAGETABLE_COUNT) with _ | k
    · exact (hm hk).elim
    · have hhome := (h.homes (.table pid (page / PAGETABLE_COUNT)) k hk).2.1
      rw [accessTable, bind_apply]
      simp only [get_apply, hk]
      exact access_ok hhome

theorem Structured.loadEntry_ok (h : Structured s) (hpage : page < PAGE_COUNT)
    (hm : Mapped s p page) : loadEntry p page s = .ok (s.entry p page, s) := by
  rw [loadEntry, bind_apply, h.accessTable_ok hpage hm]
  rfl

theorem Structured.storeEntry_ok (h : Structured s) (hpage : page < PAGE_COUNT)
    (hm : Mapped s p page) (e : PagingEntry) :
    storeEntry p page e s = .ok ((), s.setEntry p page e) := by
  rw [storeEntry, bind_apply, h.accessTable_ok hpage hm]
  rfl

theorem pageOf_lt (addr : Nat) : pageOf addr < PAGE_COUNT := by
  unfold pageOf
  exact Nat.mod_lt _ (by decide)

theorem Structured.accessInfo_ok (h : Structured s) {f : Nat}
    (hx : s.physMemExtra (f / PHYSMEMEXTRA_COUNT) ≠ none) : accessInfo f s = .ok ((), s) := by
  rcases hk : s.physMemExtra (f / PHYSMEMEXTRA_COUNT) with _ | k
  · exact (hx hk).elim
  · have hhome := (h.homes (.extra (f / PHYSMEMEXTRA_COUNT)) k hk).2.1
    rw [accessInfo, bind_apply]
    simp only [get_apply, hk]
    exact access_ok hhome

theorem Structured.loadInfo_ok (h : Structured s) {f : Nat}
    (hx : s.physMemExtra (f / PHYSMEMEXTRA_COUNT) ≠ none) :
    loadInfo f s = .ok (s.extraInfo f, s) := by
  rw [loadInfo, bind_apply, h.accessInfo_ok hx]
  rfl

theorem Structured.storeInfo_ok (h : Structured s) {f : Nat}
    (hx : s.physMemExtra (f / PHYSMEMEXTRA_COUNT) ≠ none) (info : PhysMemExtraInfo) :
    storeInfo f info s = .ok ((), s.setInfo f info) := by
  rw [storeInfo, bind_apply, h.accessInfo_ok hx]
  rfl

end

section

variable {slack : Nat → Nat} {P : Nat → ℤ} {s s' : Machine} {p : Option Nat} {page pid i k : Nat}
  {e : PagingEntry}

/-- One entry was written. -/
theorem Inv.of_update (h : Inv slack P s) (hs' : Structured s') (place : Place) (v : Option Nat)
    (hn : names s' = Function.update (names s) place v) (hmap : s'.physMemMap = s.physMemMap)
    (hinfo : s'.extraInfo = s.extraInfo) (hx : s'.physMemExtra = s.physMemExtra)
    (hh : s'.handedOut = s.handedOut) :
    Inv slack (P + due (names s place) - due v) s' := by
  have hused : used s' = used s := by
    funext f
    rw [used, hmap]
    rfl
  have hrefs : refs s' = refs s := by
    funext f
    rw [refs, hused, refCount, hinfo]
    rfl
  have htotal : ∀ f, (tally (names s') f : ℤ) + (P + due (names s place) - due v) f =
      tally (names s) f + P f := by
    intro f
    rw [hn, tally_update h.finite]
    simp only [Pi.add_apply, Pi.sub_apply, due]
    omega
  refine ⟨hs', ⟨?_, ?_, ?_⟩, ?_, ?_, ?_, ?_⟩
  · rw [hused, hinfo]
    exact h.recorded.unused
  · rw [hx, hinfo]
    exact h.recorded.missing
  · rw [hinfo]
    exact h.recorded.present
  · rw [hn]
    exact h.finite.update _ _
  · intro f
    rw [htotal]
    exact h.nonneg f
  · intro f
    rw [htotal, hrefs]
    exact h.balance f
  · rw [hh]
    exact h.handedOut

/-- Tables changed, but no entry which names a frame. -/
theorem Inv.of_names (h : Inv slack P s) (hs' : Structured s') (hn : names s' = names s)
    (hmap : s'.physMemMap = s.physMemMap) (hinfo : s'.extraInfo = s.extraInfo)
    (hx : s'.physMemExtra = s.physMemExtra) (hh : s'.handedOut = s.handedOut) :
    Inv slack P s' := by
  have := h.of_update hs' (.kernel PAGE_COUNT) none
    (by rw [hn, Function.update_eq_self_iff.mpr (by simp [names])]) hmap hinfo hx hh
  have hnone : names s (.kernel PAGE_COUNT) = none := by simp [names]
  rw [hnone, due_none, add_zero, sub_zero] at this
  exact this

theorem kernel_lt (hpage : page < KERNEL_PAGE) : page < PAGE_COUNT := by
  simp only [KERNEL_PAGE, PAGE_COUNT] at *
  omega

theorem window_ne (hpage : page < KERNEL_PAGE) (i : Nat) : KERNEL_PAGE + i ≠ page := by omega

theorem setKernel_window (hpage : page < KERNEL_PAGE) (i : Nat) :
    (s.setKernel page e).kernel (KERNEL_PAGE + i) = s.kernel (KERNEL_PAGE + i) :=
  Function.update_of_ne (window_ne hpage i) _ _

theorem translate_setKernel (hpage : page < KERNEL_PAGE)
    (hready : TableReady s (page / PAGETABLE_COUNT)) (q : Nat) :
    (s.setKernel page e).translate q = if q = page then named e else s.translate q := by
  rw [Machine.translate, setKernel_window hpage]
  rcases eq_or_ne q page with rfl | hne
  · rw [if_pos rfl, hready.present, Machine.setKernel]
    simp only [Function.update_self, Bool.true_and]
    rfl
  · rw [if_neg hne, Machine.setKernel]
    simp only [Function.update_of_ne hne]
    rfl

theorem names_setKernel (hpage : page < KERNEL_PAGE)
    (hready : TableReady s (page / PAGETABLE_COUNT)) :
    names (s.setKernel page e) = Function.update (names s) (.kernel page) (named e) := by
  funext place
  cases place with
  | kernel q =>
      simp only [names, translate_setKernel hpage hready]
      rcases eq_or_ne q page with rfl | hne
      · rw [if_pos rfl, if_pos (kernel_lt hpage), Function.update_self]
      · rw [if_neg hne, Function.update_of_ne (by simpa using hne)]
        rfl
  | directory pid i =>
      rw [Function.update_of_ne (by simp)]
      rfl
  | table pid q =>
      rw [Function.update_of_ne (by simp)]
      rfl

theorem TableReady.setKernel {i : Nat} (hpage : page < KERNEL_PAGE) (h : TableReady s i) :
    TableReady (s.setKernel page e) i := by
  constructor <;> rw [setKernel_window hpage]
  · exact h.present
  · exact h.avail
  · exact h.frame

theorem tables_setKernel {i : Nat} (hpage : page < KERNEL_PAGE) (hm : Mapped s none page)
    (h : TableMissing s i ∨ TableReady s i) :
    TableMissing (s.setKernel page e) i ∨ TableReady (s.setKernel page e) i := by
  rcases h with hmissing | hready
  · refine Or.inl ⟨?_, fun q hq => ?_⟩
    · rw [setKernel_window hpage]
      exact hmissing.directory
    · have hne : q ≠ page := by
        rintro rfl
        rw [Mapped, hq] at hm
        exact hm hmissing.directory
      exact (Function.update_of_ne hne _ _).trans (hmissing.entries q hq)
  · exact Or.inr (hready.setKernel hpage)

theorem Structured.setKernel (h : Structured s) (hpage : page < KERNEL_PAGE)
    (hm : Mapped s none page) (hfree : ¬Owned s page) : Structured (s.setKernel page e) := by
  have hready := h.ready (kernel_lt hpage) hm
  refine ⟨h.self.setKernel hpage, fun i hi => tables_setKernel hpage hm (h.tables i hi),
    fun r k hk => ?_, h.unique, h.processes⟩
  · obtain ⟨hlt, htranslate, hrw⟩ := h.homes r k hk
    have hne : k ≠ page := by
      rintro rfl
      exact hfree ⟨r, hk⟩
    refine ⟨hlt, ?_, ?_⟩
    · rw [translate_setKernel hpage hready, if_neg hne, htranslate]
      rfl
    · have : (s.setKernel page e).kernel k = s.kernel k := Function.update_of_ne hne _ _
      rw [this]
      exact hrw

theorem Structured.table_present (h : Structured s) (hm : Mapped s (some pid) page) :
    (s.process pid).pageDirectory ≠ none ∧
      ((s.process pid).directory (page / PAGETABLE_COUNT)).present = true ∧
      (s.process pid).directory (page / PAGETABLE_COUNT) ≠ .zero := by
  have hp := h.processes pid
  rcases hk : (s.process pid).pageTables (page / PAGETABLE_COUNT) with _ | k
  · exact (hm hk).elim
  · have hne : (s.process pid).pageDirectory ≠ none := by
      intro hnone
      rw [hp.noTables hnone] at hk
      cases hk
    have hzero := (hp.tables _ k hk).2
    exact ⟨hne, (hp.directory hne _ hzero).1, hzero⟩

theorem setProcess_of_ne {q : Nat} {pr : Process} (hne : q ≠ pid) :
    (s.setProcess pid pr).process q = s.process q :=
  Function.update_of_ne hne _ _

theorem setProcess_self {pr : Process} : (s.setProcess pid pr).process pid = pr :=
  Function.update_self ..

theorem home_setProcess {pr : Process} (hd : pr.pageDirectory = (s.process pid).pageDirectory)
    (ht : pr.pageTables = (s.process pid).pageTables) :
    home (s.setProcess pid pr) = home s := by
  funext r
  cases r with
  | extra i => rfl
  | directory q =>
      rcases eq_or_ne q pid with rfl | hne
      · simp only [home, setProcess_self, hd]
      · simp only [home, setProcess_of_ne hne]
  | table q i =>
      rcases eq_or_ne q pid with rfl | hne
      · simp only [home, setProcess_self, ht]
      · simp only [home, setProcess_of_ne hne]

theorem backing_setProcess {pr : Process} (hf : pr.directoryFrame = (s.process pid).directoryFrame)
    (hd : pr.directory = (s.process pid).directory) :
    backing (s.setProcess pid pr) = backing s := by
  funext r
  cases r with
  | extra i => rfl
  | directory q =>
      rcases eq_or_ne q pid with rfl | hne
      · simp only [backing, setProcess_self, hf]
      · simp only [backing, setProcess_of_ne hne]
  | table q i =>
      rcases eq_or_ne q pid with rfl | hne
      · simp only [backing, setProcess_self, hd]
      · simp only [backing, setProcess_of_ne hne]

theorem mapping_setTable (h : Structured s) (hpage : page < PAGE_COUNT)
    (hm : Mapped s (some pid) page) (pid' page' : Nat) :
    mapping (s.setEntry (some pid) page e) pid' page' =
      if pid' = pid ∧ page' = page then (if e.present then some e else none)
      else mapping s pid' page' := by
  obtain ⟨hdir, hpresent, -⟩ := h.table_present hm
  rcases eq_or_ne pid' pid with rfl | hne
  · rw [mapping, Machine.setEntry, setProcess_self]
    rcases eq_or_ne page' page with rfl | hne
    · simp only [Process.setTable, Function.update_self, hpresent, hpage, true_and, and_self,
        if_true, Option.isSome_iff_ne_none.mpr hdir]
    · have hneg : ¬(pid' = pid' ∧ page' = page) := fun h => hne h.2
      rw [if_neg hneg]
      simp only [Process.setTable, Function.update_of_ne hne]
      rfl
  · have hneg : ¬(pid' = pid ∧ page' = page) := fun h => hne h.1
    rw [mapping, Machine.setEntry, setProcess_of_ne hne]
    simp only [if_neg hneg]
    rfl

theorem names_setTable (h : Structured s) (hpage : page < PAGE_COUNT)
    (hm : Mapped s (some pid) page) :
    names (s.setEntry (some pid) page e) =
      Function.update (names s) (.table pid page) (named e) := by
  funext place
  cases place with
  | kernel q =>
      rw [Function.update_of_ne (by simp)]
      rfl
  | directory pid' i =>
      rw [Function.update_of_ne (by simp)]
      rcases eq_or_ne pid' pid with rfl | hne
      · simp only [names, Machine.setEntry, setProcess_self, Process.setTable]
      · simp only [names, Machine.setEntry, setProcess_of_ne hne]
  | table pid' page' =>
      simp only [names, mapping_setTable h hpage hm]
      by_cases heq : pid' = pid ∧ page' = page
      · obtain ⟨rfl, rfl⟩ := heq
        rw [if_pos ⟨rfl, rfl⟩, Function.update_self, named]
        split <;> rfl
      · rw [if_neg heq, Function.update_of_ne (by simpa using heq)]
        rfl

theorem Structured.setTable (h : Structured s) (hm : Mapped s (some pid) page) :
    Structured (s.setEntry (some pid) page e) := by
  obtain ⟨hdir, hpresent, hzero⟩ := h.table_present hm
  have hp := h.processes pid
  have hhome : home (s.setEntry (some pid) page e) = home s := home_setProcess rfl rfl
  have hbacking : backing (s.setEntry (some pid) page e) = backing s := backing_setProcess rfl rfl
  refine ⟨⟨h.self.1, h.self.2, h.self.3⟩, fun i hi => ?_, fun r k hk => ?_, fun r r' k hr hr' => ?_,
    fun q => ?_⟩
  · rcases h.tables i hi with hi | hi
    · exact Or.inl ⟨hi.1, hi.2⟩
    · exact Or.inr ⟨hi.1, hi.2, hi.3⟩
  · rw [hhome] at hk
    rw [hbacking]
    exact h.homes r k hk
  · rw [hhome] at hr hr'
    exact h.unique r r' k hr hr'
  · rcases eq_or_ne q pid with rfl | hne
    · rw [Machine.setEntry, setProcess_self]
      refine ⟨hp.noTables, hp.tables, hp.directory, fun q' hlt hq' => ?_⟩
      rcases eq_or_ne q' page with rfl | hne
      · exact (hq'.elim hdir hzero).elim
      · simp only [Process.setTable, Function.update_of_ne hne]
        exact hp.orphans q' hlt hq'
    · rw [Machine.setEntry, setProcess_of_ne hne]
      exact h.processes q

/-- The kernel may write the entry of a page. -/
def Writable (s : Machine) : Option Nat → Nat → Prop
  | none, page => page < KERNEL_PAGE ∧ ¬Owned s page
  | some _, _ => True

theorem Inv.setEntry (h : Inv slack P s) (hpage : page < PAGE_COUNT) (hm : Mapped s p page)
    (hw : Writable s p page) (e : PagingEntry) :
    Inv slack (P + due (named (s.entry p page)) - due (named e)) (s.setEntry p page e) := by
  rcases p with _ | pid
  · have hready := h.structured.ready hpage hm
    have hname : names s (.kernel page) = named (s.entry none page) := by
      simp only [names, translate_of_ready hready, if_pos hpage]
      rfl
    rw [← hname]
    exact h.of_update (h.structured.setKernel hw.1 hm hw.2) _ _ (names_setKernel hw.1 hready)
      rfl rfl rfl rfl
  · obtain ⟨hdir, hpresent, -⟩ := h.structured.table_present hm
    have hname : names s (.table pid page) = named (s.entry (some pid) page) := by
      simp only [names, mapping, hpresent, hpage, Option.isSome_iff_ne_none.mpr hdir, true_and]
      rw [named, Machine.entry]
      split <;> rfl
    rw [← hname]
    exact h.of_update (h.structured.setTable hm) _ _ (names_setTable h.structured hpage hm)
      rfl rfl rfl rfl

end

/-- Only tables and pages of the kernel were added. -/
structure KernelGrows (s s' : Machine) : Prop extends Grows s s' where
  process : s'.process = s.process

theorem KernelGrows.refl (s : Machine) : KernelGrows s s := ⟨Grows.refl s, rfl⟩

theorem KernelGrows.trans {s s' s'' : Machine} (h : KernelGrows s s') (h' : KernelGrows s' s'') :
    KernelGrows s s'' :=
  ⟨h.toGrows.trans h'.toGrows, h'.process.trans h.process⟩

theorem SameTables.kernelGrows {s s' : Machine} (h : SameTables s s')
    (hused : ∀ f, used s f = true → used s' f = true)
    (hholds : ∀ f, s'.holdsTable f = true → s.holdsTable f = true) : KernelGrows s s' :=
  ⟨h.grows hused hholds, h.process⟩

section

variable {slack : Nat → Nat} {P : Nat → ℤ} {s s' : Machine} {page i frame : Nat}

theorem setKernelTable_window (hi : i < KERNEL_DIR_ENTRY) (j : Nat) :
    (s.setKernelTable i frame).kernel (KERNEL_PAGE + j) =
      if j = i then ⟨true, true, true, 0, frame⟩ else s.kernel (KERNEL_PAGE + j) := by
  have hne : (KERNEL_PAGE + j) / PAGETABLE_COUNT ≠ i := by
    simp only [KERNEL_PAGE, KERNEL_DIR_ENTRY, PAGETABLE_COUNT] at *
    omega
  simp only [Machine.setKernelTable, if_neg hne, Nat.add_left_cancel_iff]

theorem setKernelTable_kernel (hpage : page < KERNEL_PAGE) (hne : page / PAGETABLE_COUNT ≠ i) :
    (s.setKernelTable i frame).kernel page = s.kernel page := by
  simp only [Machine.setKernelTable, if_neg hne]
  rw [if_neg]
  exact (window_ne hpage i).symm

theorem setKernelTable_ready (hi : i < KERNEL_DIR_ENTRY) :
    TableReady (s.setKernelTable i frame) i := by
  constructor <;> rw [setKernelTable_window hi, if_pos rfl]
  simp [Machine.setKernelTable]

theorem TableReady.setKernelTable (hi : i < KERNEL_DIR_ENTRY) {j : Nat} (hj : TableReady s j)
    (hne : j ≠ i) : TableReady (s.setKernelTable i frame) j := by
  constructor <;> rw [setKernelTable_window hi, if_neg hne]
  · exact hj.present
  · exact hj.avail
  · rw [hj.frame]
    exact (Function.update_of_ne hne _ _).symm

theorem translate_setKernelTable (hi : i < KERNEL_DIR_ENTRY) (hmissing : TableMissing s i)
    (hpage : page < PAGE_COUNT) :
    (s.setKernelTable i frame).translate page =
      if page = KERNEL_PAGE + i then
        (if (s.kernel (KERNEL_PAGE + KERNEL_DIR_ENTRY)).present then some frame else none)
      else s.translate page := by
  rw [Machine.translate, setKernelTable_window hi]
  rcases lt_or_ge page KERNEL_PAGE with hlt | hge
  · rw [if_neg (c := page = KERNEL_PAGE + i) (window_ne hlt i).symm]
    rcases eq_or_ne (page / PAGETABLE_COUNT) i with heq | hne
    · have hzero : (s.setKernelTable i frame).kernel page = .zero := by
        simp only [Machine.setKernelTable, if_pos heq]
      rw [if_pos heq, hzero, Machine.translate, hmissing.entries page heq]
      simp [PagingEntry.zero]
    · rw [if_neg hne, setKernelTable_kernel hlt hne]
      rfl
  · obtain ⟨j, rfl⟩ := Nat.exists_eq_add_of_le hge
    have hdiv : (KERNEL_PAGE + j) / PAGETABLE_COUNT = KERNEL_DIR_ENTRY := by
      simp only [KERNEL_PAGE, KERNEL_DIR_ENTRY, PAGETABLE_COUNT, PAGE_COUNT] at *
      omega
    rw [hdiv, if_neg (c := KERNEL_DIR_ENTRY = i) (by omega), setKernelTable_window hi]
    rcases eq_or_ne j i with rfl | hne
    · rw [if_pos rfl, if_pos rfl, Bool.and_true]
    · rw [if_neg hne, if_neg (c := KERNEL_PAGE + j = KERNEL_PAGE + i) (by omega),
        Machine.translate, hdiv]

theorem names_setKernelTable (h : Structured s) (hi : i < KERNEL_DIR_ENTRY)
    (hmissing : TableMissing s i) :
    names (s.setKernelTable i frame) =
      Function.update (names s) (.kernel (KERNEL_PAGE + i)) (some frame) := by
  funext place
  cases place with
  | kernel q =>
      simp only [names]
      by_cases hq : q < PAGE_COUNT
      · rw [if_pos hq, translate_setKernelTable hi hmissing hq, if_pos h.self.present]
        rcases eq_or_ne q (KERNEL_PAGE + i) with rfl | hne
        · rw [if_pos rfl, Function.update_self]
        · rw [if_neg hne, Function.update_of_ne (by simpa using hne), names, if_pos hq]
      · have hne : q ≠ KERNEL_PAGE + i := by
          simp only [KERNEL_PAGE, KERNEL_DIR_ENTRY, PAGE_COUNT] at *
          omega
        rw [if_neg hq, Function.update_of_ne (by simpa using hne), names, if_neg hq]
  | directory pid j =>
      rw [Function.update_of_ne (by simp)]
      rfl
  | table pid q =>
      rw [Function.update_of_ne (by simp)]
      rfl

theorem tables_setKernelTable (hi : i < KERNEL_DIR_ENTRY) {j : Nat} (hj : j < KERNEL_DIR_ENTRY)
    (h : TableMissing s j ∨ TableReady s j) :
    TableMissing (s.setKernelTable i frame) j ∨ TableReady (s.setKernelTable i frame) j := by
  rcases eq_or_ne j i with rfl | hne
  · exact Or.inr (setKernelTable_ready hi)
  · rcases h with hmissing | hready
    · refine Or.inl ⟨?_, fun q hq => ?_⟩
      · rw [setKernelTable_window hi, if_neg hne]
        exact hmissing.directory
      · have hlt : q < KERNEL_PAGE := by
          simp only [KERNEL_PAGE, KERNEL_DIR_ENTRY, PAGETABLE_COUNT] at *
          omega
        rw [setKernelTable_kernel hlt (by rw [hq]; exact hne)]
        exact hmissing.entries q hq
    · exact Or.inr (hready.setKernelTable hi hne)

theorem Structured.setKernelTable (h : Structured s) (frame : Nat) (hi : i < KERNEL_DIR_ENTRY)
    (hmissing : TableMissing s i) : Structured (s.setKernelTable i frame) := by
  refine ⟨h.self.setKernelTable hi hi.ne', fun j hj => tables_setKernelTable hi hj (h.tables j hj),
    fun r k hk => ?_, h.unique, h.processes⟩
  · obtain ⟨hlt, htranslate, hrw⟩ := h.homes r k hk
    have hne : k / PAGETABLE_COUNT ≠ i := by
      intro hk
      rw [Machine.translate, hk, hmissing.directory] at htranslate
      simp [PagingEntry.zero] at htranslate
    refine ⟨hlt, ?_, ?_⟩
    · rw [translate_setKernelTable hi hmissing (kernel_lt hlt), if_neg (window_ne hlt i).symm]
      exact htranslate
    · rw [setKernelTable_kernel hlt hne]
      exact hrw

theorem Inv.setKernelTable (h : Inv slack P s) (frame : Nat) (hi : i < KERNEL_DIR_ENTRY)
    (hmissing : TableMissing s i) :
    Inv slack (P - due (some frame)) (s.setKernelTable i frame) := by
  have hlt : KERNEL_PAGE + i < PAGE_COUNT := by
    simp only [KERNEL_PAGE, KERNEL_DIR_ENTRY, PAGE_COUNT] at *
    omega
  have hnone : names s (.kernel (KERNEL_PAGE + i)) = none := by
    rw [names, if_pos hlt, Machine.translate, hmissing.directory]
    simp [PagingEntry.zero]
  have := h.of_update (h.structured.setKernelTable frame hi hmissing) _ _
    (names_setKernelTable h.structured hi hmissing) rfl rfl rfl rfl
  rw [hnone, due_none, add_zero] at this
  exact this

/-- The new page was not in use in the state `s`. -/
theorem setKernelTable_grows (hg : KernelGrows s s') (hmissing : TableMissing s' i)
    (hunused : used s frame = false) : KernelGrows s (s'.setKernelTable i frame) := by
  refine ⟨⟨fun q hq => ?_, hg.homes, hg.fresh, hg.mapping, hg.memory, hg.used, fun f hf => ?_⟩,
    hg.process⟩
  · have hkernel := hg.kernel q hq
    have hq' : s'.kernel q ≠ .zero := by
      rw [hkernel]
      exact hq
    have hne : q / PAGETABLE_COUNT ≠ i := fun hqi => hq' (hmissing.entries q hqi)
    have hne' : q ≠ KERNEL_PAGE + i := by
      rintro rfl
      exact hq' hmissing.directory
    simp only [Machine.setKernelTable, if_neg hne, if_neg hne']
    exact hkernel
  · rcases eq_or_ne f frame with rfl | hne
    · exact Or.inr hunused
    · exact hg.holds f ((Function.update_of_ne hne _ _).symm.trans hf)

end

end Ibnos.References
