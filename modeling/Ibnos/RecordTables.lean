import Ibnos.KernelRoom
import Ibnos.PageBitmaps
import Ibnos.Runs

/-!
The tables of records are allocated while they are needed. A new table has a record itself,
which may need another new table, and so on until there are no more empty slots.
-/

namespace Ibnos.RecordTables

open Ibnos.FrameSupply
open Ibnos.KernelPages
open Ibnos.KernelRoom
open Ibnos.Memory
open Ibnos.PageBitmaps
open Ibnos.Physmem
open Ibnos.Programs
open Ibnos.References

/-- The kernel sees its page tables, and all tables of records are mapped. -/
structure Visible (s : Machine) : Prop where
  enabled : s.pagingEnabled = true
  self : TableReady s KERNEL_DIR_ENTRY
  tables : ∀ i, i < KERNEL_DIR_ENTRY → TableMissing s i ∨ TableReady s i
  mapped : ∀ i k, s.physMemExtra i = some k → k < KERNEL_PAGE ∧
    s.translate k = some (s.extraFrame i)

/-- The record of a frame, which is zero as long as there is no table for it. -/
def recordOf (s : Machine) (f : Nat) : PhysMemExtraInfo :=
  if s.physMemExtra (f / PHYSMEMEXTRA_COUNT) = none then .zero else s.extraInfo f

/-- The records of free frames are zero. -/
def Unrecorded (s : Machine) : Prop := ∀ f, f < PAGE_COUNT → used s f = false → recordOf s f = .zero

/-- The frames for which `physMemAllocPage` looks without low memory. -/
def freeFrames (s : Machine) : Finset Nat :=
  (Finset.Ico 256 PAGE_COUNT).filter fun f => used s f = false

/-- `getPhysMemExtraInfo` together with the slots which were filled. -/
def fillTables : Nat → Nat → M (List Nat)
  | fuel, index => do
      check (← get).pagingEnabled
      let i := index / PHYSMEMEXTRA_COUNT
      check (decide (i < PHYSMEMEXTRA_COUNT))
      match (← get).physMemExtra i with
      | some _ => return []
      | none =>
          match fuel with
          | 0 => throw .outOfFuel
          | fuel + 1 => do
              let addr ← allocatePhysMem getKernelEntry none 1 true false
              modify fun s => s.setExtra i addr
              let frame ← getPhysMem getKernelEntry none addr
              let slots ← fillTables fuel frame
              markRecord frame
              return i :: slots

/-- The filled slots are only written down. -/
theorem getPhysMemExtraInfo_eq (fuel index : Nat) :
    getPhysMemExtraInfo fuel index true = do
      let _ ← fillTables fuel index
      return true := by
  induction fuel generalizing index with
  | zero =>
      rw [getPhysMemExtraInfo, fillTables]
      simp only [bind_assoc]
      congr
      funext s₁
      congr
      funext _
      congr
      funext _
      congr
      funext s
      cases s.physMemExtra (index / PHYSMEMEXTRA_COUNT) with
      | none => rfl
      | some k => rfl
  | succ fuel ih =>
      rw [getPhysMemExtraInfo, fillTables]
      simp only [bind_assoc, ih]
      congr
      funext s₁
      congr
      funext _
      congr
      funext _
      congr
      funext s
      cases s.physMemExtra (index / PHYSMEMEXTRA_COUNT) with
      | none =>
          simp only [if_true, bind_assoc]
          rfl
      | some k => rfl

section

variable {s s' : Machine} {page i n : Nat}

theorem translate_ready (hself : TableReady s KERNEL_DIR_ENTRY) (hi : i < PAGETABLE_COUNT)
    (hready : TableReady s i) : s.translate (KERNEL_PAGE + i) = some (s.kernelTable i) := by
  have hdiv : (KERNEL_PAGE + i) / PAGETABLE_COUNT = KERNEL_DIR_ENTRY := by
    simp only [KERNEL_PAGE, PAGETABLE_COUNT, KERNEL_DIR_ENTRY] at *
    omega
  rw [translate_of_ready (by rwa [hdiv]), if_pos hready.present, hready.frame]

/-- The page table of a page below those at which the kernel sees its page tables. -/
theorem Visible.table (h : Visible s) (hpage : page < KERNEL_PAGE) :
    page / PAGETABLE_COUNT < KERNEL_DIR_ENTRY ∧
      (TableMissing s (page / PAGETABLE_COUNT) ∨ TableReady s (page / PAGETABLE_COUNT)) := by
  have hi : page / PAGETABLE_COUNT < KERNEL_DIR_ENTRY := by
    simp only [KERNEL_PAGE, PAGETABLE_COUNT, KERNEL_DIR_ENTRY] at *
    omega
  exact ⟨hi, h.tables _ hi⟩

theorem ne_zero_of_ready (h : TableReady s i) : s.kernel (KERNEL_PAGE + i) ≠ .zero := by
  intro hzero
  have hpresent := h.present
  rw [hzero] at hpresent
  cases hpresent

theorem getKernelEntry_ready (hself : TableReady s KERNEL_DIR_ENTRY)
    (h : TableReady s (page / PAGETABLE_COUNT)) (alloc : Bool) :
    getKernelEntry page alloc s = .ok (true, s) := by
  have havail : (s.kernel (KERNEL_PAGE + page / PAGETABLE_COUNT)).avail == 0 :=
    beq_iff_eq.mpr h.avail
  simp only [getKernelEntry, bind_apply, get_apply, access_ok (self_translate hself),
    if_neg (ne_zero_of_ready h),
    requirePresent_ok h.present, check_ok havail]
  rfl

theorem getKernelEntry_absent (hself : TableReady s KERNEL_DIR_ENTRY)
    (h : TableMissing s (page / PAGETABLE_COUNT)) : getKernelEntry page false s =
      .ok (false, s) := by
  simp only [getKernelEntry, bind_apply, get_apply, access_ok (self_translate hself),
    if_pos h.directory]
  rfl

theorem getKernelEntry_alloc (hself : TableReady s KERNEL_DIR_ENTRY)
    (h : TableMissing s (page / PAGETABLE_COUNT))
    (halloc : physMemAllocPage false s = .ok (n, s')) :
    getKernelEntry page true s = .ok (true, s'.setKernelTable (page / PAGETABLE_COUNT) n) := by
  simp only [getKernelEntry, bind_apply, get_apply, access_ok (self_translate hself),
    if_pos h.directory,
    if_true, halloc]
  rfl

theorem loadEntry_ready (hself : TableReady s KERNEL_DIR_ENTRY) (hpage : page < KERNEL_PAGE)
    (h : TableReady s (page / PAGETABLE_COUNT)) : loadEntry none page s =
      .ok (s.kernel page, s) := by
  have hi : page / PAGETABLE_COUNT < PAGETABLE_COUNT := by
    simp only [KERNEL_PAGE, PAGETABLE_COUNT] at *
    omega
  have haccess : accessTable none page s = .ok ((), s) := access_ok (translate_ready hself hi h)
  rw [loadEntry, bind_apply, haccess]
  rfl

theorem storeEntry_ready (hself : TableReady s KERNEL_DIR_ENTRY) (hpage : page < KERNEL_PAGE)
    (h : TableReady s (page / PAGETABLE_COUNT)) (e : PagingEntry) :
    storeEntry none page e s = .ok ((), s.setKernel page e) := by
  have hi : page / PAGETABLE_COUNT < PAGETABLE_COUNT := by
    simp only [KERNEL_PAGE, PAGETABLE_COUNT] at *
    omega
  have haccess : accessTable none page s = .ok ((), s) := access_ok (translate_ready hself hi h)
  rw [storeEntry, bind_apply, haccess]
  rfl

/-- The first unused page is found. -/
theorem searchLoop_one (h : Visible s) {rounds : Nat} (hrounds : KERNEL_PAGE ≤ i + rounds)
    (hfree : ∃ q, i ≤ q ∧ q < KERNEL_PAGE ∧ s.kernel q = .zero) :
    ∃ q, i ≤ q ∧ q < KERNEL_PAGE ∧ s.kernel q = .zero ∧
      searchLoop getKernelEntry none 1 rounds i i s = .ok (some (q * PAGE_SIZE), s) := by
  obtain ⟨p, hip, hp, hzero⟩ := hfree
  induction rounds generalizing i with
  | zero => omega
  | succ rounds ih =>
      have hi : i < KERNEL_PAGE := by omega
      have hlast : lastPage i 1 = i := by
        rw [lastPage_eq (by omega) (by simp only [KERNEL_PAGE] at hi; omega)]
        rfl
      rw [searchLoop, if_pos hi, bind_apply]
      rcases (h.table hi).2 with hmissing | hready
      · have hmask : i ≤ i ||| 0x3FF := Nat.left_le_or
        refine ⟨i, le_rfl, hi, hmissing.entries i rfl, ?_⟩
        simp only [getKernelEntry_absent h.self hmissing, Bool.false_eq_true, if_false, hlast,
          if_pos hmask]
        rfl
      · by_cases hne : s.kernel i = .zero
        · refine ⟨i, le_rfl, hi, hne, ?_⟩
          simp only [getKernelEntry_ready h.self hready, if_true, bind_apply,
            loadEntry_ready h.self hi hready,
            ne_eq, hne, not_true_eq_false, if_false, hlast, le_refl]
          rfl
        · have hlt : i + 1 ≤ p := by
            refine Nat.lt_of_le_of_ne hip ?_
            rintro rfl
            exact hne hzero
          obtain ⟨q, hq, hrest⟩ := ih (by omega) hlt
          refine ⟨q, by omega, hrest.1, hrest.2.1, ?_⟩
          simp only [getKernelEntry_ready h.self hready, if_true, bind_apply,
            loadEntry_ready h.self hi hready,
            ne_eq, hne, not_false_eq_true]
          exact hrest.2.2

end

section

/-! What is left as it is by a write to the tables. -/

variable {s s' : Machine} {i n q k : Nat} {e : PagingEntry}

theorem TableReady.of_eq (h : TableReady s i) (hkernel : s'.kernel = s.kernel)
    (htable : s'.kernelTable = s.kernelTable) : TableReady s' i := by
  constructor <;> rw [hkernel]
  · exact h.present
  · exact h.avail
  · rw [htable]
    exact h.frame

theorem Visible.of_eq (h : Visible s) (henabled : s'.pagingEnabled = s.pagingEnabled)
    (hkernel : s'.kernel = s.kernel) (htable : s'.kernelTable = s.kernelTable)
    (hmapped : ∀ i k, s'.physMemExtra i = some k →
      k < KERNEL_PAGE ∧ s'.translate k = some (s'.extraFrame i)) : Visible s' := by
  refine ⟨henabled.trans h.enabled, TableReady.of_eq h.self hkernel htable, fun i hi => ?_, hmapped⟩
  rcases h.tables i hi with hmissing | hready
  · refine Or.inl ?_
    constructor <;> rw [hkernel]
    · exact hmissing.directory
    · exact hmissing.entries
  · exact Or.inr (TableReady.of_eq hready hkernel htable)

theorem Visible.alloc (h : Visible s) (n : Nat) : Visible ((s.setBit n true).handOut n) :=
  h.of_eq rfl rfl rfl h.mapped

theorem Visible.setInfo (h : Visible s) (n : Nat) (info : PhysMemExtraInfo) :
    Visible (s.setInfo n info) :=
  h.of_eq rfl rfl rfl h.mapped

theorem Visible.setKernelTable (h : Visible s) (hi : i < KERNEL_DIR_ENTRY)
    (hmissing : TableMissing s i) :
    Visible (s.setKernelTable i n) := by
  refine ⟨h.enabled, h.self.setKernelTable hi hi.ne',
    fun j hj => tables_setKernelTable hi hj (h.tables j hj),
    fun j k hk => ?_⟩
  obtain ⟨hlt, htranslate⟩ := h.mapped j k hk
  refine ⟨hlt, ?_⟩
  rw [translate_setKernelTable hi hmissing (kernel_lt hlt), if_neg (window_ne hlt i).symm]
  exact htranslate

theorem Visible.setKernel (h : Visible s) (hq : q < KERNEL_PAGE)
    (hready : TableReady s (q / PAGETABLE_COUNT))
    (hzero : s.kernel q = .zero) : Visible (s.setKernel q e) := by
  refine ⟨h.enabled, h.self.setKernel hq,
    fun i hi => tables_setKernel hq (ne_zero_of_ready hready) (h.tables i hi), fun i k hk => ?_⟩
  obtain ⟨hlt, htranslate⟩ := h.mapped i k hk
  have hne : k ≠ q := by
    rintro rfl
    rw [Machine.translate, hzero] at htranslate
    simp [PagingEntry.zero] at htranslate
  refine ⟨hlt, ?_⟩
  rw [translate_setKernel hq hready, if_neg hne]
  exact htranslate

theorem Visible.setExtra (h : Visible s) (hq : q < KERNEL_PAGE)
    (htranslate : s.translate q = some n) :
    Visible (s.setExtra i (q * PAGE_SIZE)) := by
  have hpage := pageOf_mul (kernel_lt hq)
  refine h.of_eq rfl rfl rfl fun j k hk => ?_
  change Function.update s.physMemExtra i (some (pageOf (q * PAGE_SIZE))) j = some k at hk
  change _ ∧ s.translate k =
    some (Function.update s.extraFrame i (s.kernel (pageOf (q * PAGE_SIZE))).frame j)
  rw [hpage] at *
  rcases eq_or_ne j i with rfl | hne
  · rw [Function.update_self] at *
    cases hk
    refine ⟨hq, ?_⟩
    rw [Machine.translate] at htranslate ⊢
    split_ifs at htranslate ⊢
    rfl
  · rw [Function.update_of_ne hne] at *
    exact h.mapped j k hk

end

section

/-! A page of the kernel takes at most two frames, one of them for a new page table. -/

variable {s s' : Machine} {f q n : Nat}

theorem mem_freeFrames : f ∈ freeFrames s ↔ (256 ≤ f ∧ f < PAGE_COUNT) ∧ used s f = false := by
  rw [freeFrames, Finset.mem_filter, Finset.mem_Ico]

/-- A frame was taken, perhaps. -/
theorem card_freeFrames_le (h : ∀ f, f ≠ n → used s f = false → used s' f = false) :
    (freeFrames s).card ≤ (freeFrames s').card + 1 := by
  have hsub : freeFrames s ⊆ insert n (freeFrames s') := by
    intro f hf
    rw [mem_freeFrames] at hf
    rw [Finset.mem_insert, mem_freeFrames]
    rcases eq_or_ne f n with rfl | hne
    · exact Or.inl rfl
    · exact Or.inr ⟨hf.1, h f hne hf.2⟩
  exact (Finset.card_le_card hsub).trans (Finset.card_insert_le _ _)

/-- A frame of the state `s` is taken in the state `s'`, where everything else is as before. -/
structure Takes (s s' : Machine) (n : Nat) : Prop where
  free : used s n = false
  lt : n < PAGE_COUNT
  result : s' = (s.setBit n true).handOut n

theorem physMemAllocPage_takes (h : 0 < (freeFrames s).card) :
    ∃ n s', physMemAllocPage false s = .ok (n, s') ∧ Takes s s' n := by
  obtain ⟨f, hf⟩ := Finset.card_pos.mp h
  rw [mem_freeFrames] at hf
  obtain ⟨n, hn⟩ := @exists_least_free s.physMemMap false ⟨f, ⟨hf.1.2, hf.2⟩, hf.1.1⟩
  exact ⟨n, _, physMemAllocPage_eq hn, hn.1.1.2, hn.1.1.1, rfl⟩

theorem Takes.used (h : Takes s s' n) (f : Nat) : used s' f = if f = n then true else used s f := by
  rw [h.result]
  exact used_setBit s n f true

theorem Takes.card (h : Takes s s' n) : (freeFrames s).card ≤ (freeFrames s').card + 1 := by
  refine @card_freeFrames_le s s' n fun f hne hf => ?_
  rw [h.used, if_neg hne]
  exact hf

/-- The tables of records are the same, and no page got lost. -/
structure SameRecords (s s' : Machine) : Prop where
  visible : Visible s'
  physMemExtra : s'.physMemExtra = s.physMemExtra
  extraFrame : s'.extraFrame = s.extraFrame
  extraInfo : s'.extraInfo = s.extraInfo
  used : ∀ f, used s f = true → References.used s' f = true
  unused : ∀ p, p < KERNEL_PAGE → s.kernel p = .zero → s'.kernel p = .zero

theorem SameRecords.trans {s'' : Machine} (h : SameRecords s s') (h' : SameRecords s' s'') :
    SameRecords s s'' where
  visible := h'.visible
  physMemExtra := h'.physMemExtra.trans h.physMemExtra
  extraFrame := h'.extraFrame.trans h.extraFrame
  extraInfo := h'.extraInfo.trans h.extraInfo
  used f hf := h'.used f (h.used f hf)
  unused p hp hzero := h'.unused p hp (h.unused p hp hzero)

theorem Takes.sameRecords (h : Takes s s' n) (hv : Visible s) : SameRecords s s' := by
  have hused := h.used
  obtain ⟨-, -, rfl⟩ := h
  refine ⟨hv.alloc n, rfl, rfl, rfl, fun f hf => ?_, fun _ _ hzero => hzero⟩
  rw [hused, hf, ite_self]

/-- The page table for a page is there afterwards. -/
theorem getKernelEntry_same (h : Visible s) (hq : q < KERNEL_PAGE)
    (hframes : 0 < (freeFrames s).card) :
    ∃ s', getKernelEntry q true s = .ok (true, s') ∧ SameRecords s s' ∧
      TableReady s' (q / PAGETABLE_COUNT) ∧
      (freeFrames s).card ≤ (freeFrames s').card + 1 := by
  obtain ⟨hi, hmissing | hready⟩ := h.table hq
  · obtain ⟨n, s₁, halloc, htakes⟩ := physMemAllocPage_takes hframes
    have hsame := htakes.sameRecords h
    have hmissing₁ : TableMissing s₁ (q / PAGETABLE_COUNT) := by
      rw [htakes.result]
      exact ⟨hmissing.directory, hmissing.entries⟩
    refine ⟨_, getKernelEntry_alloc h.self hmissing halloc, ?_, setKernelTable_ready hi,
      htakes.card⟩
    refine hsame.trans ⟨hsame.visible.setKernelTable hi hmissing₁, rfl, rfl, rfl, fun _ hf => hf,
      fun p hp hzero => ?_⟩
    by_cases hdiv : p / PAGETABLE_COUNT = q / PAGETABLE_COUNT
    · simp only [Machine.setKernelTable, if_pos hdiv]
    · rw [setKernelTable_kernel hp hdiv]
      exact hzero
  · refine ⟨s, getKernelEntry_ready h.self hready true, ?_, hready, Nat.le_succ _⟩
    exact ⟨h, rfl, rfl, rfl, fun _ hf => hf, fun _ _ hzero => hzero⟩

/-- An unused page of the kernel is the only one which is mapped now, namely to a free frame. -/
structure Supplies (s s' : Machine) (q n : Nat) : Prop where
  visible : Visible s'
  physMemExtra : s'.physMemExtra = s.physMemExtra
  extraFrame : s'.extraFrame = s.extraFrame
  extraInfo : s'.extraInfo = s.extraInfo
  used : ∀ f, used s f = true → References.used s' f = true
  page : q < KERNEL_PAGE
  entry : s'.kernel q = ⟨true, true, false, 0, n⟩
  others : ∀ p, p < KERNEL_PAGE → p ≠ q → s.kernel p = .zero → s'.kernel p = .zero
  free : References.used s n = false
  taken : References.used s' n = true
  lt : n < PAGE_COUNT
  frames : (freeFrames s).card ≤ (freeFrames s').card + 2

theorem allocateLoop_supplies (h : Visible s) (hq : q < KERNEL_PAGE) (hzero : s.kernel q = .zero)
    (hframes : 2 ≤ (freeFrames s).card) :
    ∃ n s', allocateLoop getKernelEntry none true false 1 (q * PAGE_SIZE) s = .ok ((), s') ∧
      Supplies s s' q n := by
  obtain ⟨n, s₁, halloc, htakes⟩ := @physMemAllocPage_takes s (by omega)
  have hsame₁ := htakes.sameRecords h
  have hcard₁ := htakes.card
  obtain ⟨s₂, hentry, hsame₂, hready, hcard₂⟩ := getKernelEntry_same hsame₁.visible hq (by omega)
  have hsame := hsame₁.trans hsame₂
  have hzero₂ := hsame.unused q hq hzero
  have hcheck : (s₂.kernel q == .zero) = true := by
    rw [hzero₂]
    rfl
  refine ⟨n, s₂.setKernel q ⟨true, true, false, 0, n⟩, ?_, ?_⟩
  · simp only [allocateLoop, bind_apply, halloc, pageOf_mul (kernel_lt hq), hentry,
      loadEntry_ready hsame.visible.self hq hready, check_ok hcheck,
      storeEntry_ready hsame.visible.self hq hready]
    rfl
  · refine ⟨hsame.visible.setKernel hq hready hzero₂, hsame.physMemExtra, hsame.extraFrame,
      hsame.extraInfo, hsame.used, hq, Function.update_self .., fun p hp hne hp' => ?_,
        htakes.free, ?_,
      htakes.lt, hcard₁.trans (Nat.succ_le_succ hcard₂)⟩
    · exact (Function.update_of_ne hne _ _).trans (hsame.unused p hp hp')
    · refine hsame₂.used n ?_
      rw [htakes.used, if_pos rfl]

theorem allocatePhysMem_supplies (h : Visible s) (hpages : 0 < (spare s).card)
    (hframes : 2 ≤ (freeFrames s).card) :
    ∃ q n s', allocatePhysMem getKernelEntry none 1 true false s = .ok (q * PAGE_SIZE, s') ∧
      Supplies s s' q n := by
  obtain ⟨p, hp⟩ := Finset.card_pos.mp hpages
  rw [mem_spare] at hp
  obtain ⟨q, -, hq, hzero, hsearch⟩ := @searchLoop_one s 1 h KERNEL_PAGE (by omega)
    ⟨p, hp.1.1, hp.1.2, hp.2⟩
  obtain ⟨n, s', hloop, hsupplies⟩ := allocateLoop_supplies h hq hzero hframes
  refine ⟨q, n, s', ?_, hsupplies⟩
  simp only [allocatePhysMem, tryAllocatePhysMem, trySearchArea, one_ne_zero, if_false,
    bind_apply, hsearch,
    hloop]
  rfl

theorem Supplies.translate (h : Supplies s s' q n) :
    TableReady s' (q / PAGETABLE_COUNT) ∧ s'.translate q = some n := by
  rcases (h.visible.table h.page).2 with hmissing | hready
  · have hentry := h.entry
    rw [hmissing.entries q rfl] at hentry
    cases hentry
  · refine ⟨hready, ?_⟩
    rw [translate_of_ready hready, h.entry]
    rfl

/-- A page less is unused. -/
theorem Supplies.card (h : Supplies s s' q n) : (spare s).card ≤ (spare s').card + 1 := by
  have hcard := @card_spare_le s s' {q} fun p hp hnot =>
    h.others p hp fun heq => hnot (Finset.mem_singleton.mpr heq)
  rwa [Finset.card_singleton] at hcard

end

section

/-! The recursion fills one empty slot after another. -/

variable {s s' s₁ s₂ : Machine} {slots : List Nat} {f i n q index fuel : Nat}
    {info : PhysMemExtraInfo}

/-- The tables of `slots` were created. Besides the records of their frames only that of `asked`
was written, so all others in the new tables are zero. -/
structure Builds (asked : Option Nat) (slots : List Nat) (s s' : Machine) : Prop where
  visible : Visible s'
  nodup : slots.Nodup
  empty : ∀ i ∈ slots, s.physMemExtra i = none
  filled : ∀ i ∈ slots, s'.physMemExtra i ≠ none
  others : ∀ i, i ∉ slots → s'.physMemExtra i = s.physMemExtra i ∧ s'.extraFrame i = s.extraFrame i
  used : ∀ f, used s f = true → References.used s' f = true
  fresh : ∀ i ∈ slots, s'.extraFrame i < PAGE_COUNT ∧ References.used s (s'.extraFrame i) = false ∧
    References.used s' (s'.extraFrame i) = true
  distinct : ∀ i ∈ slots, ∀ j ∈ slots, s'.extraFrame i = s'.extraFrame j → i = j
  records : ∀ f, asked ≠ some f → (∀ i ∈ slots, f ≠ s'.extraFrame i) → recordOf s' f = recordOf s f

/-- The frames of the new tables have a record. -/
def Marked (slots : List Nat) (s : Machine) : Prop :=
  ∀ i ∈ slots, s.extraInfo (s.extraFrame i) = ⟨true, 1, true⟩

theorem loadInfo_visible (hv : Visible s) (hx : s.physMemExtra (f / PHYSMEMEXTRA_COUNT) ≠ none) :
    accessInfo f s = .ok ((), s) := by
  obtain ⟨k, hk⟩ := Option.ne_none_iff_exists'.mp hx
  simp only [accessInfo, bind_apply, get_apply, hk]
  exact access_ok (hv.mapped _ k hk).2

theorem loadInfo_eq (hv : Visible s) (hx : s.physMemExtra (f / PHYSMEMEXTRA_COUNT) ≠ none) :
    loadInfo f s = .ok (s.extraInfo f, s) := by
  rw [loadInfo, bind_apply, loadInfo_visible hv hx]
  rfl

theorem storeInfo_eq (hv : Visible s) (hx : s.physMemExtra (f / PHYSMEMEXTRA_COUNT) ≠ none)
    (info : PhysMemExtraInfo) : storeInfo f info s = .ok ((), s.setInfo f info) := by
  rw [storeInfo, bind_apply, loadInfo_visible hv hx]
  rfl

theorem recordOf_table (hx : s.physMemExtra (f / PHYSMEMEXTRA_COUNT) ≠ none) :
    recordOf s f = s.extraInfo f := if_neg hx

theorem recordOf_setInfo_self (hx : s.physMemExtra (f / PHYSMEMEXTRA_COUNT) ≠ none) :
    recordOf (s.setInfo f info) f = info := (if_neg hx).trans (Function.update_self ..)

theorem recordOf_setInfo_of_ne {g : Nat} (hne : g ≠ f) :
    recordOf (s.setInfo f info) g = recordOf s g := by
  rw [recordOf, recordOf]
  change (if s.physMemExtra (g / PHYSMEMEXTRA_COUNT) = none then .zero else
    Function.update s.extraInfo f info g) = _
  rw [Function.update_of_ne hne]

theorem Supplies.setExtra (h : Supplies s s₁ q n) (i : Nat) :
    (s₁.setExtra i (q * PAGE_SIZE)).physMemExtra = Function.update s.physMemExtra i (some q) ∧
      (s₁.setExtra i (q * PAGE_SIZE)).extraFrame = Function.update s.extraFrame i n := by
  simp only [Machine.setExtra, pageOf_mul (kernel_lt h.page), h.physMemExtra, h.extraFrame, h.entry,
    and_self]

/-- The records of a new table are zero, as if it was still missing. -/
theorem Supplies.recordOf (h : Supplies s s₁ q n) (hnone : s.physMemExtra i = none) (f : Nat) :
    recordOf (s₁.setExtra i (q * PAGE_SIZE)) f = RecordTables.recordOf s f := by
  rw [RecordTables.recordOf, RecordTables.recordOf, (h.setExtra i).1]
  change (if _ then _ else if f / PHYSMEMEXTRA_COUNT = i then _ else s₁.extraInfo f) = _
  rw [h.extraInfo]
  rcases eq_or_ne (f / PHYSMEMEXTRA_COUNT) i with heq | hne
  · rw [heq, if_pos rfl, ite_self, if_pos hnone]
  · rw [Function.update_of_ne hne, if_neg hne]

theorem builds_nil (h : Visible s) : Builds none [] s s := by
  refine ⟨h, List.nodup_nil, ?_, ?_, fun _ _ => ⟨rfl, rfl⟩, fun _ hf => hf, ?_, ?_,
    fun _ _ _ => rfl⟩
  · simp
  · simp
  · simp
  · simp

/-- The record of the frame of a new table is still zero when all deeper levels are done. -/
theorem Builds.unrecorded (hu : Unrecorded s) (h : Supplies s s₁ q n)
    (hnone : s.physMemExtra i = none)
    (hb : Builds none slots (s₁.setExtra i (q * PAGE_SIZE)) s₂)
    (hx : s₂.physMemExtra (n / PHYSMEMEXTRA_COUNT) ≠ none) : s₂.extraInfo n = .zero := by
  have hother : ∀ j ∈ slots, n ≠ s₂.extraFrame j := by
    rintro j hj rfl
    have hfree := (hb.fresh j hj).2.1
    change References.used s₁ _ = false at hfree
    rw [h.taken] at hfree
    cases hfree
  rw [← recordOf_table hx, hb.records n (by simp) hother, h.recordOf hnone]
  exact hu n h.lt h.free

/-- One level of the recursion, when the deeper ones have filled `slots`. -/
theorem Builds.cons (h : Supplies s s₁ q n) (hnone : s.physMemExtra i = none)
    (hb : Builds none slots (s₁.setExtra i (q * PAGE_SIZE)) s₂) :
    Builds none (i :: slots) s (s₂.setInfo n info) ∧ s₂.extraFrame i = n ∧
      ∀ j ∈ slots, s₂.extraFrame j ≠ n := by
  obtain ⟨hextra, hframe⟩ := h.setExtra i
  have hfilled : (s₁.setExtra i (q * PAGE_SIZE)).physMemExtra i = some q := by
    rw [hextra, Function.update_self]
  have hi : i ∉ slots := by
    intro hi
    have hempty := hb.empty i hi
    rw [hfilled] at hempty
    cases hempty
  have hne : ∀ j ∈ slots, j ≠ i := by
    rintro j hj rfl
    exact hi hj
  have hn : s₂.extraFrame i = n := by
    rw [(hb.others i hi).2, hframe, Function.update_self]
  have htaken : ∀ j ∈ slots, s₂.extraFrame j ≠ n := by
    rintro j hj rfl
    have hfree := (hb.fresh j hj).2.1
    change References.used s₁ _ = false at hfree
    rw [h.taken] at hfree
    cases hfree
  have hunused : ∀ f, References.used s₁ f = false → References.used s f = false := by
    intro f hf
    by_contra hused
    rw [h.used f (by simpa using hused)] at hf
    cases hf
  refine ⟨⟨hb.visible.setInfo n info, List.nodup_cons.mpr ⟨hi, hb.nodup⟩, ?_, ?_, fun j hj => ?_,
    fun f hf => hb.used f (h.used f hf), ?_, ?_, fun f _ hf => ?_⟩, hn, htaken⟩
  · rw [List.forall_mem_cons]
    refine ⟨hnone, fun j hj => ?_⟩
    have hempty := hb.empty j hj
    rwa [hextra, Function.update_of_ne (hne j hj)] at hempty
  · rw [List.forall_mem_cons]
    refine ⟨?_, hb.filled⟩
    change s₂.physMemExtra i ≠ none
    rw [(hb.others i hi).1, hfilled]
    simp
  · rw [List.mem_cons, not_or] at hj
    have hothers := hb.others j hj.2
    rw [hextra, hframe, Function.update_of_ne hj.1, Function.update_of_ne hj.1] at hothers
    exact hothers
  · rw [List.forall_mem_cons]
    change (s₂.extraFrame i < _ ∧ References.used s (s₂.extraFrame i) = _ ∧
      References.used s₂ (s₂.extraFrame i) = _) ∧ _
    rw [hn]
    refine ⟨⟨h.lt, h.free, hb.used n h.taken⟩, fun j hj => ?_⟩
    obtain ⟨hlt, hfree, hused⟩ := hb.fresh j hj
    exact ⟨hlt, hunused _ hfree, hused⟩
  · change ∀ j ∈ i :: slots, ∀ k ∈ i :: slots, s₂.extraFrame j = s₂.extraFrame k → j = k
    intro j hj k hk heq
    rw [List.mem_cons] at hj hk
    rcases hj with hj | hj <;> rcases hk with hk | hk
    · exact hj.trans hk.symm
    · rw [hj, hn] at heq
      exact (htaken k hk heq.symm).elim
    · rw [hk, hn] at heq
      exact (htaken j hj heq).elim
    · exact hb.distinct j hj k hk heq
  · obtain ⟨hfi, hf⟩ := List.forall_mem_cons.mp hf
    change f ≠ s₂.extraFrame i at hfi
    rw [hn] at hfi
    rw [recordOf_setInfo_of_ne hfi, hb.records f (by simp) hf, h.recordOf hnone]

theorem fillTables_present (hv : Visible s) (hindex : index < PAGE_COUNT)
    (hx : s.physMemExtra (index / PHYSMEMEXTRA_COUNT) ≠ none) : fillTables fuel index s =
      .ok ([], s) := by
  obtain ⟨k, hk⟩ := Option.ne_none_iff_exists'.mp hx
  have hi := decide_eq_true (extra_index_lt hindex)
  cases fuel with
  | zero =>
      rw [fillTables]
      simp only [bind_apply, get_apply, check_ok hv.enabled, check_ok hi, hk]
      rfl
  | succ fuel =>
      rw [fillTables]
      simp only [bind_apply, get_apply, check_ok hv.enabled, check_ok hi, hk]
      rfl

theorem getPhysMem_supplied (h : Supplies s s₁ q n) :
    getPhysMem getKernelEntry none (q * PAGE_SIZE) (s₁.setExtra i (q * PAGE_SIZE)) =
      .ok (n, s₁.setExtra i (q * PAGE_SIZE)) := by
  obtain ⟨hready, htranslate⟩ := h.translate
  have hv := h.visible.setExtra (i := i) h.page htranslate
  have hready' : TableReady (s₁.setExtra i (q * PAGE_SIZE)) (q / PAGETABLE_COUNT) :=
    TableReady.of_eq hready rfl rfl
  have hentry : (s₁.setExtra i (q * PAGE_SIZE)).kernel q = ⟨true, true, false, 0, n⟩ := h.entry
  have hne : ((s₁.setExtra i (q * PAGE_SIZE)).kernel q != .zero) = true := by
    rw [hentry]
    rfl
  have hpresent : ((s₁.setExtra i (q * PAGE_SIZE)).kernel q).present = true := by rw [hentry]
  simp only [getPhysMem, bind_apply, pageOf_mul (kernel_lt h.page),
    getKernelEntry_ready hv.self hready',
    check_ok, loadEntry_ready hv.self h.page hready', check_ok hne, requirePresent_ok hpresent]
  rw [hentry]
  rfl

theorem fillTables_missing (hv : Visible s) (hindex : index < PAGE_COUNT)
    (hx : s.physMemExtra (index / PHYSMEMEXTRA_COUNT) = none) (h : Supplies s s₁ q n)
    (halloc : allocatePhysMem getKernelEntry none 1 true false s = .ok (q * PAGE_SIZE, s₁))
    (hfill : fillTables fuel n (s₁.setExtra (index / PHYSMEMEXTRA_COUNT) (q * PAGE_SIZE)) =
      .ok (slots, s₂))
    (hmark : markRecord n s₂ = .ok ((), s')) :
    fillTables (fuel + 1) index s = .ok (index / PHYSMEMEXTRA_COUNT :: slots, s') := by
  have hi := decide_eq_true (extra_index_lt hindex)
  have hset : (modify fun s => s.setExtra (index / PHYSMEMEXTRA_COUNT) (q * PAGE_SIZE) : M Unit)
    s₁ =
      .ok ((), s₁.setExtra (index / PHYSMEMEXTRA_COUNT) (q * PAGE_SIZE)) := rfl
  rw [fillTables]
  simp only [bind_apply, get_apply, check_ok hv.enabled, check_ok hi, hx, halloc, hset,
    getPhysMem_supplied h, hfill, hmark]
  rfl

theorem markRecord_zero (hv : Visible s) (hx : s.physMemExtra (f / PHYSMEMEXTRA_COUNT) ≠ none)
    (hzero : s.extraInfo f = .zero) : markRecord f s = .ok ((), s.setInfo f ⟨true, 1, true⟩) := by
  rw [markRecord, bind_apply, loadInfo_eq hv hx, hzero]
  exact storeInfo_eq hv hx _

theorem Unrecorded.supply (hu : Unrecorded s) (h : Supplies s s₁ q n)
    (hnone : s.physMemExtra i = none) :
    Unrecorded (s₁.setExtra i (q * PAGE_SIZE)) := by
  intro f hf hfree
  rw [h.recordOf hnone]
  refine hu f hf ?_
  by_contra hused
  have htaken : References.used s₁ f = true := h.used f (by simpa using hused)
  change References.used s₁ f = false at hfree
  rw [htaken] at hfree
  cases hfree

/-- With enough pages and frames the recursion ends, since a slot is filled on each level before
the next one is entered. -/
theorem fillTables_builds (hv : Visible s) (hu : Unrecorded s) (hindex : index < PAGE_COUNT)
    (hfuel : missing s < fuel) (hpages : missing s ≤ (spare s).card)
    (hframes : 2 * missing s ≤ (freeFrames s).card) :
    ∃ slots s', fillTables fuel index s = .ok (slots, s') ∧ Builds none slots s s' ∧
      Marked slots s' ∧
      s'.physMemExtra (index / PHYSMEMEXTRA_COUNT) ≠ none := by
  induction fuel generalizing s index with
  | zero => omega
  | succ fuel ih =>
      by_cases hx : s.physMemExtra (index / PHYSMEMEXTRA_COUNT) = none
      · have hi := extra_index_lt hindex
        have hpos := missing_pos hi hx
        obtain ⟨q, n, s₁, halloc, hsupplies⟩ := allocatePhysMem_supplies hv (by omega) (by omega)
        have hmissing : missing (s₁.setExtra (index / PHYSMEMEXTRA_COUNT) (q * PAGE_SIZE)) <
          missing s := by
          rw [← missing_of_extra hsupplies.physMemExtra]
          refine missing_setExtra hi ?_ _
          rw [hsupplies.physMemExtra]
          exact hx
        have hpages₁ : (spare s).card ≤
            (spare (s₁.setExtra (index / PHYSMEMEXTRA_COUNT) (q * PAGE_SIZE))).card + 1 :=
              hsupplies.card
        have hframes₁ : (freeFrames s).card ≤
            (freeFrames (s₁.setExtra (index / PHYSMEMEXTRA_COUNT) (q * PAGE_SIZE))).card + 2 :=
          hsupplies.frames
        obtain ⟨slots, s₂, hfill, hb, hmarked, hx₂⟩ := ih
          (hsupplies.visible.setExtra hsupplies.page hsupplies.translate.2) (hu.supply hsupplies hx)
          hsupplies.lt (by omega) (by omega) (by omega)
        obtain ⟨hcons, hn, hothers⟩ :=
          @Builds.cons s s₁ s₂ slots _ n q ⟨true, 1, true⟩ hsupplies hx hb
        refine ⟨_, _, ?_, hcons, ?_, ?_⟩
        · refine fillTables_missing hv hindex hx hsupplies halloc hfill ?_
          exact markRecord_zero hb.visible hx₂ (Builds.unrecorded hu hsupplies hx hb hx₂)
        · rw [Marked, List.forall_mem_cons]
          change Function.update s₂.extraInfo n _ (s₂.extraFrame _) = _ ∧
            ∀ j ∈ slots, Function.update s₂.extraInfo n _ (s₂.extraFrame j) = _
          rw [hn, Function.update_self]
          refine ⟨rfl, fun j hj => ?_⟩
          rw [Function.update_of_ne (hothers j hj)]
          exact hmarked j hj
        · exact hcons.filled _ (List.mem_cons_self ..)
      · exact ⟨[], s, fillTables_present hv hindex hx, builds_nil hv, by simp [Marked], hx⟩

end

section

/-! The functions which ask for a record. -/

variable {s s' s₁ : Machine} {slots : List Nat} {f index : Nat} {asked : Option Nat}
    {info : PhysMemExtraInfo}

/-- The new tables are zero apart from what was written, and the records which existed are kept. -/
structure Preserves (index : Nat) (slots : List Nat) (s s' : Machine) : Prop where
  cleared : ∀ f, f / PHYSMEMEXTRA_COUNT ∈ slots → f ≠ index → (∀ i ∈ slots, f ≠ s'.extraFrame i) →
    s'.extraInfo f = .zero
  kept : ∀ f, f ≠ index → recordOf s f ≠ .zero → recordOf s' f = recordOf s f

theorem Builds.setInfo (h : Builds none slots s s') (index : Nat) (info : PhysMemExtraInfo) :
    Builds (some index) slots s (s'.setInfo index info) := by
  refine ⟨h.visible.setInfo index info, h.nodup, h.empty, h.filled, h.others, h.used, h.fresh,
    h.distinct,
    fun f hf hother => ?_⟩
  have hne : f ≠ index := by
    rintro rfl
    exact hf rfl
  rw [recordOf_setInfo_of_ne hne]
  exact h.records f (by simp) hother

theorem Builds.preserves (hu : Unrecorded s) (h : Builds (some index) slots s s') :
    Preserves index slots s s' where
  cleared f hf hne hother := by
    rw [← recordOf_table (h.filled _ hf), h.records f (by simpa using hne.symm) hother]
    exact if_pos (h.empty _ hf)
  kept f hne hf := by
    refine h.records f (by simpa using hne.symm) ?_
    rintro i hi rfl
    obtain ⟨hlt, hfree, -⟩ := h.fresh i hi
    exact hf (hu _ hlt hfree)

/-- The record which is found has been there before, unless the frame is that of a new table. -/
theorem Builds.found (h : Builds none slots s s₁) (hmarked : Marked slots s₁)
    (hx : s₁.physMemExtra (index / PHYSMEMEXTRA_COUNT) ≠ none) :
    s₁.extraInfo index = if index ∈ slots.map s₁.extraFrame then ⟨true, 1, true⟩ else recordOf s
      index := by
  split_ifs with hmem
  · obtain ⟨i, hi, rfl⟩ := List.mem_map.mp hmem
    exact hmarked i hi
  · rw [← recordOf_table hx]
    refine h.records index (by simp) fun i hi heq => hmem ?_
    exact List.mem_map.mpr ⟨i, hi, heq.symm⟩

theorem Builds.unused (hu : Unrecorded s) (h : Builds asked slots s s')
    (hmem : index ∈ slots.map s'.extraFrame) :
    recordOf s index = .zero := by
  obtain ⟨i, hi, rfl⟩ := List.mem_map.mp hmem
  obtain ⟨hlt, hfree, -⟩ := h.fresh i hi
  exact hu _ hlt hfree

theorem getPhysMemExtraInfo_filled {fuel : Nat} (h : fillTables fuel index s = .ok (slots, s₁)) :
    getPhysMemExtraInfo fuel index true s = .ok (true, s₁) := by
  rw [getPhysMemExtraInfo_eq, bind_apply, h]
  rfl

theorem physMemMarkUnpageable_eq (h : fillTables EXTRA_FUEL index s = .ok (slots, s₁))
    (hv : Visible s₁)
    (hx : s₁.physMemExtra (index / PHYSMEMEXTRA_COUNT) ≠ none) :
    physMemMarkUnpageable index s =
      .ok (index, s₁.setInfo index { (s₁.extraInfo index).started with unpageable := true }) := by
  have hcheck : check true s₁ = .ok ((), s₁) := rfl
  simp only [physMemMarkUnpageable, markRecord, bind_apply, getPhysMemExtraInfo_filled h, hcheck,
    loadInfo_eq hv hx, storeInfo_eq hv hx]
  rfl

theorem physMemAddRefPage_eq (h : fillTables EXTRA_FUEL index s = .ok (slots, s₁)) (hv : Visible s₁)
    (hx : s₁.physMemExtra (index / PHYSMEMEXTRA_COUNT) ≠ none)
    (href : (s₁.extraInfo index).ref < 127) :
    physMemAddRefPage index s = .ok (index, s₁.setInfo index
      { (s₁.extraInfo index).started with ref := (s₁.extraInfo index).started.ref + 1 }) := by
  have hcheck : check true s₁ = .ok ((), s₁) := rfl
  have hlt : (s₁.extraInfo index).started.ref + 1 < 2 ^ 7 := by
    rw [PhysMemExtraInfo.started]
    split_ifs
    · decide
    · omega
  have hne : ((s₁.extraInfo index).started.ref + 1 != 0) = true := by simp
  simp only [physMemAddRefPage, bind_apply, getPhysMemExtraInfo_filled h, hcheck, loadInfo_eq hv hx,
    Nat.mod_eq_of_lt hlt, storeInfo_eq hv hx, check_ok hne]
  rfl

/-- A record cannot count more than 127 references. -/
theorem physMemAddRefPage_full (h : fillTables EXTRA_FUEL index s = .ok (slots, s₁))
    (hv : Visible s₁)
    (hx : s₁.physMemExtra (index / PHYSMEMEXTRA_COUNT) ≠ none)
    (href : (s₁.extraInfo index).ref = 127) :
    physMemAddRefPage index s = .error .assertion := by
  have hcheck : check true s₁ = .ok ((), s₁) := rfl
  have hne : s₁.extraInfo index ≠ .zero := by
    intro hzero
    rw [hzero] at href
    cases href
  have hstarted : (s₁.extraInfo index).started = s₁.extraInfo index := if_neg hne
  simp only [physMemAddRefPage, bind_apply, getPhysMemExtraInfo_filled h, hcheck, loadInfo_eq hv hx,
    hstarted,
    href, storeInfo_eq hv hx]
  rfl

/-- With enough pages and frames both functions end, and no slot is filled twice. The frame of a new
table has one reference. Only if it is the frame which was asked for, which was free then, there is
the reference which was added. -/
theorem recursion_ends (hv : Visible s) (hu : Unrecorded s) (hindex : index < PAGE_COUNT)
    (hpages : missing s ≤ (spare s).card) (hframes : 2 * missing s ≤ (freeFrames s).card) :
    ∃ slots s₁, fillTables EXTRA_FUEL index s = .ok (slots, s₁) ∧
      getPhysMemExtraInfo EXTRA_FUEL index true s = .ok (true, s₁) ∧
      (∃ s', physMemMarkUnpageable index s = .ok (index, s') ∧ Builds (some index) slots s s' ∧
        Preserves index slots s s' ∧ Marked slots s' ∧
        recordOf s' index = { (recordOf s index).started with unpageable := true }) ∧
      ((recordOf s index).ref < 127 →
        ∃ s', physMemAddRefPage index s = .ok (index, s') ∧ Builds (some index) slots s s' ∧
          Preserves index slots s s' ∧
          (∀ i ∈ slots, s'.extraFrame i ≠ index →
            s'.extraInfo (s'.extraFrame i) = ⟨true, 1, true⟩) ∧
          recordOf s' index = if index ∈ slots.map s'.extraFrame then ⟨true, 2, true⟩
            else { (recordOf s index).started with ref := (recordOf s index).started.ref + 1 }) := by
  obtain ⟨slots, s₁, hfill, hb, hmarked, hx⟩ :=
    fillTables_builds hv hu hindex (missing_lt s) hpages hframes
  have hfound := hb.found hmarked hx
  refine ⟨slots, s₁, hfill, getPhysMemExtraInfo_filled hfill,
    ⟨_, physMemMarkUnpageable_eq hfill hb.visible hx, hb.setInfo index _,
      (hb.setInfo index _).preserves hu,
      fun i hi => ?_, ?_⟩,
        fun href => ⟨_, physMemAddRefPage_eq hfill hb.visible hx ?_, hb.setInfo index _,
      (hb.setInfo index _).preserves hu, fun i hi hne => ?_, ?_⟩⟩
  · change Function.update s₁.extraInfo index _ (s₁.extraFrame i) = _
    rcases eq_or_ne (s₁.extraFrame i) index with rfl | hne
    · rw [Function.update_self, hmarked i hi]
      rfl
    · rw [Function.update_of_ne hne, hmarked i hi]
  · rw [recordOf_setInfo_self hx, hfound]
    split_ifs with hmem
    · rw [hb.unused hu hmem]
      rfl
    · rfl
  · rw [hfound]
    split_ifs
    · decide
    · exact href
  · change s₁.extraFrame i ≠ index at hne
    change Function.update s₁.extraInfo index _ (s₁.extraFrame i) = _
    rw [Function.update_of_ne hne, hmarked i hi]
  · rw [recordOf_setInfo_self hx, hfound]
    change _ = if index ∈ slots.map s₁.extraFrame then _ else _
    split_ifs
    · rfl
    · rfl

end

/-- A machine whose frames below 2048 are in use. The page tables of the kernel are in the first
ones of them. -/
def machineOf (kernel : Nat → PagingEntry) (physMemExtra : Nat → Option Nat)
    (extraInfo : Nat → PhysMemExtraInfo) : Machine where
  pagingEnabled := true
  physMemMap i := if i < 64 then 0xFFFFFFFF else 0
  physMemExtra := physMemExtra
  extraInfo := extraInfo
  extraFrame _ := 1025
  kernel := kernel
  kernelTable i := i + 1
  process _ := {}
  memory _ _ := 0
  holdsTable _ := false
  handedOut _ := false

/-- There is only the page directory. -/
def bareMachine : Machine :=
  machineOf (fun page => if page = KERNEL_DIR then ⟨true, true, true, 0, 1024⟩ else .zero)
    (fun _ => none) fun _ => .zero

/-- All pages of the kernel are mapped to the same frame. -/
def fullMachine : Machine :=
  machineOf (fun page => if page < KERNEL_PAGE then ⟨true, true, false, 0, 0xB8⟩
      else ⟨true, true, true, 0, page - KERNEL_PAGE + 1⟩)
    (fun _ => none) fun _ => .zero

/-- There are as many references to the frame 5 as a record can count. -/
def countedMachine : Machine :=
  machineOf (fun page => if page = KERNEL_DIR then ⟨true, true, true, 0, 1024⟩
      else if page = KERNEL_PAGE then ⟨true, true, true, 0, 1⟩
      else if page = 1 then ⟨true, true, false, 0, 1025⟩ else .zero)
    (fun i => if i = 0 then some 1 else none) fun f => if f = 5 then ⟨true, 127, false⟩ else .zero

section

variable {kernel : Nat → PagingEntry} {physMemExtra : Nat → Option Nat}
  {extraInfo : Nat → PhysMemExtraInfo} {s : Machine} {i rounds : Nat}

theorem used_machineOf (f : Nat) :
    used (machineOf kernel physMemExtra extraInfo) f = decide (f < 2048) := by
  rw [used, machineOf]
  by_cases hf : f < 2048
  · have hlt : f / 32 < 64 := by omega
    simp only [hlt, if_true, hf, decide_true]
    exact all_ones _ (Nat.mod_lt _ (by decide))
  · have hge : ¬f / 32 < 64 := by omega
    simp only [hge, if_false, hf, decide_false]
    simp

theorem enough_frames (h : ∀ f, used s f = decide (f < 2048)) :
    2 * missing s ≤ (freeFrames s).card := by
  have hlt := missing_lt s
  have hsub : Finset.Ico 2048 PAGE_COUNT ⊆ freeFrames s := by
    intro f hf
    rw [Finset.mem_Ico] at hf
    rw [mem_freeFrames, h, decide_eq_false_iff_not]
    omega
  have hcard := Finset.card_le_card hsub
  rw [Nat.card_Ico] at hcard
  simp only [EXTRA_FUEL, PHYSMEMEXTRA_COUNT, PAGE_COUNT] at *
  omega

theorem visible_bareMachine : Visible bareMachine := by
  have hzero : ∀ page, page ≠ KERNEL_DIR → bareMachine.kernel page = .zero :=
    fun page hpage => if_neg hpage
  refine ⟨rfl, by
    constructor <;> decide, fun i hi => Or.inl ⟨hzero _ ?_, fun page hpage => hzero _ ?_⟩, ?_⟩
  · simp only [KERNEL_DIR, KERNEL_PAGE, KERNEL_DIR_ENTRY] at *
    omega
  · simp only [KERNEL_DIR, KERNEL_DIR_ENTRY, PAGETABLE_COUNT] at *
    omega
  · rintro i k ⟨⟩

theorem spare_bareMachine : missing bareMachine ≤ (spare bareMachine).card := by
  have hlt := missing_lt bareMachine
  have hsub : Finset.Ico 1 KERNEL_PAGE ⊆ spare bareMachine := by
    intro q hq
    rw [Finset.mem_Ico] at hq
    have hne : q ≠ KERNEL_DIR := by
      simp only [KERNEL_DIR, KERNEL_PAGE] at *
      omega
    exact mem_spare.mpr ⟨hq, if_neg hne⟩
  have hcard := Finset.card_le_card hsub
  rw [Nat.card_Ico] at hcard
  simp only [EXTRA_FUEL, PHYSMEMEXTRA_COUNT, KERNEL_PAGE] at *
  omega

theorem visible_fullMachine : Visible fullMachine := by
  have hready : ∀ i, i ≤ KERNEL_DIR_ENTRY → TableReady fullMachine i := by
    intro i hi
    have hkernel : fullMachine.kernel (KERNEL_PAGE + i) = ⟨true, true, true, 0, i + 1⟩ := by
      refine (if_neg (by omega)).trans ?_
      rw [Nat.add_sub_cancel_left]
    constructor <;> rw [hkernel]
    rfl
  exact ⟨rfl, hready _ le_rfl, fun i hi => Or.inr (hready i hi.le), by rintro i k ⟨⟩⟩

/-- The search does not find anything if all pages are in use. -/
theorem searchLoop_full (h : Visible s) (hused : ∀ q, q < KERNEL_PAGE → s.kernel q ≠ .zero) :
    searchLoop getKernelEntry none 1 rounds i i s = .ok (none, s) := by
  induction rounds generalizing i with
  | zero => rfl
  | succ rounds ih =>
      rw [searchLoop]
      by_cases hi : i < KERNEL_PAGE
      · have hready : TableReady s (i / PAGETABLE_COUNT) :=
          (h.table hi).2.resolve_left fun hmissing => hused i hi (hmissing.entries i rfl)
        simp only [if_pos hi, bind_apply, getKernelEntry_ready h.self hready, if_true,
          loadEntry_ready h.self hi hready, ne_eq, hused i hi, not_false_eq_true]
        exact ih
      · rw [if_neg hi]
        rfl

/-- There is no page for a new table. -/
theorem physMemMarkUnpageable_full {index : Nat} (hv : Visible s)
    (hused : ∀ q, q < KERNEL_PAGE → s.kernel q ≠ .zero) (hindex : index < PAGE_COUNT)
    (hx : s.physMemExtra (index / PHYSMEMEXTRA_COUNT) = none) :
    physMemMarkUnpageable index s = .error .addressSpaceFull := by
  have hsearch := @searchLoop_full s 1 KERNEL_PAGE hv hused
  have halloc : allocatePhysMem getKernelEntry none 1 true false s = .error .addressSpaceFull := by
    simp only [allocatePhysMem, tryAllocatePhysMem, trySearchArea, one_ne_zero, if_false,
      bind_apply, hsearch]
    rfl
  rw [physMemMarkUnpageable, EXTRA_FUEL, getPhysMemExtraInfo]
  simp only [bind_apply, get_apply, check_ok hv.enabled,
    check_ok (decide_eq_true (extra_index_lt hindex)), hx,
    if_true, halloc]

theorem fullMachine_used (q : Nat) (hq : q < KERNEL_PAGE) : fullMachine.kernel q ≠ .zero := by
  have hkernel : fullMachine.kernel q = ⟨true, true, false, 0, 0xB8⟩ := if_pos hq
  rw [hkernel]
  decide

theorem visible_countedMachine : Visible countedMachine := by
  have hzero : ∀ page, page ≠ KERNEL_DIR → page ≠ KERNEL_PAGE → page ≠ 1 →
    countedMachine.kernel page = .zero := by
    intro page hdir htable hone
    exact (if_neg hdir).trans ((if_neg htable).trans (if_neg hone))
  refine ⟨rfl, by constructor <;> decide, fun i hi => ?_, fun i k hk => ?_⟩
  · rcases Nat.eq_zero_or_pos i with rfl | hpos
    · refine Or.inr ?_
      constructor <;> decide
    · refine Or.inl ⟨hzero _ ?_ ?_ ?_, fun page hpage => hzero _ ?_ ?_ ?_⟩ <;>
        · simp only [KERNEL_DIR, KERNEL_PAGE, KERNEL_DIR_ENTRY, PAGETABLE_COUNT] at *
          omega
  · change (if i = 0 then some 1 else none) = some k at hk
    split_ifs at hk with hi
    cases hk
    subst hi
    decide

theorem countedMachine_table :
    countedMachine.physMemExtra (5 / PHYSMEMEXTRA_COUNT) ≠ none := by decide

theorem countedMachine_stops : physMemAddRefPage 5 countedMachine = .error .assertion := by
  have hfill : fillTables EXTRA_FUEL 5 countedMachine = .ok ([], countedMachine) :=
    fillTables_present visible_countedMachine (by decide) countedMachine_table
  exact physMemAddRefPage_full hfill visible_countedMachine countedMachine_table rfl

end

/-- A new table whose frame is the page which was asked for is counted twice, there may be no page
of the kernel for a new table, and a record does not count more than 127 references. -/
theorem recursion_counterexample :
    (Visible bareMachine ∧ Unrecorded bareMachine ∧ missing bareMachine ≤ (spare bareMachine).card ∧
      2 * missing bareMachine ≤ (freeFrames bareMachine).card ∧ bareMachine.physMemExtra 2 = none ∧
      ∃ s', physMemAddRefPage 2048 bareMachine = .ok (2048, s') ∧ s'.physMemExtra 2 = some 1 ∧
        s'.extraFrame 2 = 2048 ∧ s'.extraInfo 2048 = ⟨true, 2, true⟩) ∧
    (Visible fullMachine ∧ Unrecorded fullMachine ∧
      2 * missing fullMachine ≤ (freeFrames fullMachine).card ∧
      physMemMarkUnpageable 2048 fullMachine = .error .addressSpaceFull) ∧
    (Visible countedMachine ∧ Unrecorded countedMachine ∧
      recordOf countedMachine 5 = ⟨true, 127, false⟩ ∧
      2 * missing countedMachine ≤ (freeFrames countedMachine).card ∧
      physMemAddRefPage 5 countedMachine = .error .assertion) := by
  have hrun : ((physMemAddRefPage 2048 bareMachine).toOption.map fun r =>
      (r.1, r.2.physMemExtra 2, r.2.extraFrame 2, r.2.extraInfo 2048)) =
        some (2048, some 1, 2048, ⟨true, 2, true⟩) := by decide +kernel
  obtain ⟨⟨index, s'⟩, hok, hfacts⟩ := Option.map_eq_some_iff.mp hrun
  simp only [Prod.mk.injEq] at hfacts
  obtain ⟨rfl, hextra, hframe, hinfo⟩ := hfacts
  refine ⟨⟨visible_bareMachine, fun _ _ _ => rfl, spare_bareMachine,
    enough_frames used_machineOf, rfl, s',
    Runs.toOption_eq_some hok, hextra, hframe, hinfo⟩,
      ⟨visible_fullMachine, fun _ _ _ => rfl, enough_frames used_machineOf,
    physMemMarkUnpageable_full visible_fullMachine fullMachine_used (by decide) rfl⟩,
    visible_countedMachine, fun f _ hfree => if_pos ?_, recordOf_table countedMachine_table,
      enough_frames used_machineOf,
    countedMachine_stops⟩
  have hge := (used_machineOf f).symm.trans hfree
  rw [decide_eq_false_iff_not] at hge
  refine if_neg ?_
  simp only [PHYSMEMEXTRA_COUNT]
  omega

/-- The first page after those in use gets a record. -/
theorem recursion_ends_bareMachine :
    ∃ slots s₁, fillTables EXTRA_FUEL 2048 bareMachine = .ok (slots, s₁) ∧
      ∃ s', physMemMarkUnpageable 2048 bareMachine = .ok (2048, s') ∧
        Builds (some 2048) slots bareMachine s' ∧ Marked slots s' ∧
          recordOf s' 2048 = ⟨true, 1, true⟩ := by
  obtain ⟨slots, s₁, hfill, -, ⟨s', hmark, hb, -, hmarked, hrecord⟩, -⟩ :=
    @recursion_ends bareMachine 2048 visible_bareMachine (fun _ _ _ => rfl)
      (by decide) spare_bareMachine
      (enough_frames used_machineOf)
  exact ⟨slots, s₁, hfill, s', hmark, hb, hmarked, hrecord⟩

end Ibnos.RecordTables
