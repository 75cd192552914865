import Ibnos.BootMaps
import Ibnos.Programs
import Mathlib.Data.BitVec
import Mathlib.Logic.Function.Basic

/-!
The bitmap of physical pages at boot: what the memory map offers is freed, and
what the boot loader left in memory is reserved again. The boot information is
read from `memory`, which the bitmap and the boot map are no part of.
-/

namespace Ibnos.PhysmemInit

open Ibnos.BootMaps
open Ibnos.Programs

def PAGE_SIZE : Nat := 0x1000

def PAGE_MASK : Nat := 0xFFF

def PAGE_COUNT : Nat := 0x100000

/-- The variables of the kernel which `physMemInit` changes. -/
structure BootState where
  physMemMap : Nat → BitVec 32
  bootMap : BootMap

abbrev Init := Program BootState Fault

def initAssert (c : Prop) [Decidable c] : Init Unit := if c then pure () else throw .assertion

def physMemClearMemoryBits (reserved : Bool) : Init Unit :=
  modify fun s => { s with physMemMap := fun _ => if reserved then 0xFFFFFFFF else 0 }

/-- `word |= mask` or `word &= ~mask` -/
def setMask (reserved : Bool) (word mask : BitVec 32) : BitVec 32 :=
  if reserved then word ||| mask else word &&& ~~~mask

/-- A bitmap with a part of it which still has to be set: `length` bits from the
beginning of the word at `longIndex`. -/
structure Pending where
  map : Nat → BitVec 32
  longIndex : Nat
  length : Nat

/-- All bits till the next dword boundary. -/
def setHead (reserved : Bool) (map : Nat → BitVec 32) (startIndex length : Nat) : Pending :=
  let longIndex := startIndex / 32
  let longOffset := startIndex % 32
  if longOffset = 0 then ⟨map, longIndex, length⟩
  else if length > 32 - longOffset then
    ⟨Function.update map longIndex
      (setMask reserved (map longIndex) ((0xFFFFFFFF : BitVec 32) <<< longOffset)),
      longIndex + 1, length - (32 - longOffset)⟩
  else
    ⟨Function.update map longIndex
      (setMask reserved (map longIndex) ((((1 : BitVec 32) <<< length) - 1) <<< longOffset)),
      longIndex + 1, 0⟩

/-- The full dwords, of which there are `n`. -/
def setFull (reserved : Bool) : Nat → Pending → Pending
  | 0, p => p
  | n + 1, p => setFull reserved n
      ⟨Function.update p.map p.longIndex (if reserved then 0xFFFFFFFF else 0), p.longIndex + 1,
        p.length - 32⟩

def setRest (reserved : Bool) (p : Pending) : Nat → BitVec 32 :=
  if p.length > 0 then
    Function.update p.map p.longIndex
      (setMask reserved (p.map p.longIndex) (((1 : BitVec 32) <<< p.length) - 1))
  else p.map

def setBits (map : Nat → BitVec 32) (startIndex length : Nat) (reserved : Bool) :
    Nat → BitVec 32 :=
  let p := setHead reserved map startIndex length
  setRest reserved (setFull reserved (p.length / 32) p)

def physMemSetMemoryBits (startIndex length : Nat) (reserved : Bool) : Init Unit := do
  initAssert (length < PAGE_COUNT)
  initAssert (startIndex < PAGE_COUNT - length)
  modify fun s => { s with physMemMap := setBits s.physMemMap startIndex length reserved }

def insertBootMap (startIndex stopIndex : Nat) : Init Unit := fun s =>
  match pagingInsertBootMap s.bootMap startIndex stopIndex with
  | .ok m => .ok ((), { s with bootMap := m })
  | .error e => .error e

/-- `if (stopIndex >= PAGE_COUNT) stopIndex = PAGE_COUNT - 1` -/
def clip (stopIndex : Nat) : Nat := if stopIndex ≥ PAGE_COUNT then PAGE_COUNT - 1 else stopIndex

def physMemProtectBootEntry (addr length : Nat) : Init Unit := do
  let startIndex := addr / PAGE_SIZE
  let stopIndex := clip ((addr + length + PAGE_MASK) / PAGE_SIZE)
  initAssert (startIndex ≤ stopIndex)
  insertBootMap startIndex stopIndex
  physMemSetMemoryBits startIndex (stopIndex - startIndex) true

section

variable (memory : Nat → UInt8)

/-- The bytes from an address on as a number, the least significant one first. -/
def load : Nat → Nat → Nat
  | 0, _ => 0
  | n + 1, addr => (memory (addr % WORD)).toNat + 256 * load n (addr + 1)

structure MemoryMapEntry where
  size : Nat
  addr : Nat
  len : Nat
  type : Nat
  deriving DecidableEq, Repr

def memoryMapEntry (a : Nat) : MemoryMapEntry :=
  ⟨load memory 4 a, load memory 8 (a + 4), load memory 8 (a + 12), load memory 4 (a + 20)⟩

def MULTIBOOT_MEMORY_AVAILABLE : Nat := 1

/-- The pages of an entry of the memory map are freed. -/
def freeEntry (e : MemoryMapEntry) : Init Unit :=
  if e.type &&& MULTIBOOT_MEMORY_AVAILABLE = 0 then pure ()
  else
    let startIndex := (e.addr + PAGE_MASK) % 2 ^ 64 / PAGE_SIZE
    let stopIndex := (e.addr + e.len) % 2 ^ 64 / PAGE_SIZE
    if stopIndex ≤ startIndex then pure ()
    else if startIndex ≥ PAGE_COUNT then pure ()
    else physMemSetMemoryBits startIndex (clip stopIndex - startIndex) false

/-- The entry at an offset of the memory map. -/
def entryAt (mmap_addr offset : Nat) : MemoryMapEntry := memoryMapEntry memory (mmap_addr + offset)

def nextOffset (mmap_addr offset : Nat) : Nat :=
  (offset + 4 + (entryAt memory mmap_addr offset).size) % WORD

def memoryMapLoop (mmap_addr mmap_length : Nat) : Nat → Nat → Init Unit
  | 0, _ => throw .outOfFuel
  | fuel + 1, offset =>
      if offset < mmap_length then do
        freeEntry (entryAt memory mmap_addr offset)
        memoryMapLoop mmap_addr mmap_length fuel (nextOffset memory mmap_addr offset)
      else pure ()

def stringLength : Nat → Nat → Init Nat
  | 0, _ => throw .outOfFuel
  | fuel + 1, addr =>
      if memory (addr % WORD) = 0 then return 0
      else do
        let n ← stringLength fuel (addr + 1)
        return n + 1

/-- `sizeof(multiboot_module_t)` -/
def MODULE_SIZE : Nat := 16

def modStart (mods_addr i : Nat) : Nat := load memory 4 (mods_addr + MODULE_SIZE * i)

def modEnd (mods_addr i : Nat) : Nat := load memory 4 (mods_addr + MODULE_SIZE * i + 4)

def protectModule (mods_addr i : Nat) : Init Unit :=
  if modStart memory mods_addr i ≥ modEnd memory mods_addr i then pure ()
  else physMemProtectBootEntry (modStart memory mods_addr i)
    (modEnd memory mods_addr i - modStart memory mods_addr i)

/-- The modules from `i` on, of which there are `n`. -/
def protectModules (mods_addr : Nat) : Nat → Nat → Init Unit
  | 0, _ => pure ()
  | n + 1, i => do
      protectModule memory mods_addr i
      protectModules mods_addr n (i + 1)

/-- `sizeof(multiboot_info_t)` -/
def INFO_SIZE : Nat := 120

structure MultibootInfo where
  flags : Nat
  cmdline : Nat
  mods_count : Nat
  mods_addr : Nat
  mmap_length : Nat
  mmap_addr : Nat

/-- The fields which are used of the record at an address. -/
def multibootInfo (bootInfo : Nat) : MultibootInfo where
  flags := load memory 4 bootInfo
  cmdline := load memory 4 (bootInfo + 16)
  mods_count := load memory 4 (bootInfo + 20)
  mods_addr := load memory 4 (bootInfo + 24)
  mmap_length := load memory 4 (bootInfo + 44)
  mmap_addr := load memory 4 (bootInfo + 48)

def MULTIBOOT_INFO_MEM_MAP : Nat := 0x40

def MULTIBOOT_MEMORY_INFO : Nat := 2

def MULTIBOOT_INFO_CMDLINE : Nat := 4

def MULTIBOOT_INFO_MODS : Nat := 8

def protectCmdline (fuel : Nat) (info : MultibootInfo) : Init Unit :=
  if info.flags &&& MULTIBOOT_INFO_CMDLINE = 0 then pure ()
  else do
    let length ← stringLength memory fuel info.cmdline
    physMemProtectBootEntry info.cmdline length

def protectMods (info : MultibootInfo) : Init Unit :=
  if info.flags &&& MULTIBOOT_INFO_MODS = 0 then pure ()
  else do
    physMemProtectBootEntry info.mods_addr (info.mods_count * MODULE_SIZE % WORD)
    protectModules memory info.mods_addr info.mods_count 0

/-- The kernel lies at `kernelBegin`, and the boot information at `bootInfo`. -/
def physMemInit (fuel kernelBegin kernelSize bootInfo : Nat) : Init Unit := do
  initAssert (bootInfo ≠ 0)
  let info := multibootInfo memory bootInfo
  initAssert (info.flags &&& MULTIBOOT_INFO_MEM_MAP ≠ 0)
  physMemClearMemoryBits true
  initAssert (info.flags &&& MULTIBOOT_MEMORY_INFO ≠ 0)
  memoryMapLoop memory info.mmap_addr info.mmap_length fuel 0
  physMemProtectBootEntry kernelBegin kernelSize
  physMemProtectBootEntry bootInfo INFO_SIZE
  physMemProtectBootEntry info.mmap_addr info.mmap_length
  protectCmdline memory fuel info
  protectMods memory info

end

/-- Whether a page is reserved. -/
def marked (map : Nat → BitVec 32) (index : Nat) : Bool := (map (index / 32)).getLsbD (index % 32)

section

variable {map : Nat → BitVec 32} {reserved : Bool} {s s' : BootState}

theorem getLsbD_setMask {word mask : BitVec 32} {i : Nat} (hi : i < 32) :
    (setMask reserved word mask).getLsbD i =
      if mask.getLsbD i then reserved else word.getLsbD i := by
  rw [setMask]
  rcases reserved with _ | _
  · change (word &&& ~~~mask).getLsbD i = _
    rw [BitVec.getLsbD_and, BitVec.getLsbD_not]
    rcases mask.getLsbD i with _ | _ <;> simp [hi]
  · change (word ||| mask).getLsbD i = _
    rw [BitVec.getLsbD_or]
    rcases mask.getLsbD i with _ | _ <;> simp

theorem getLsbD_low : ∀ n < 32, ∀ i < 32,
    (((1 : BitVec 32) <<< n) - 1).getLsbD i = decide (i < n) := by
  decide +kernel

theorem getLsbD_high : ∀ n < 32, ∀ i < 32,
    ((0xFFFFFFFF : BitVec 32) <<< n).getLsbD i = decide (n ≤ i) := by
  decide +kernel

theorem getLsbD_middle {n k i : Nat} (hn : n < 32) (hi : i < 32) :
    ((((1 : BitVec 32) <<< n) - 1) <<< k).getLsbD i = decide (k ≤ i ∧ i < k + n) := by
  rw [BitVec.getLsbD_shiftLeft]
  rcases Nat.lt_or_ge i k with hlt | hge
  · simp [hi, hlt, Nat.not_le.mpr hlt]
  · rw [getLsbD_low n hn (i - k) (by omega)]
    simp only [hi, decide_true, Bool.true_and, Nat.not_lt.mpr hge, decide_false, Bool.not_false]
    exact decide_eq_decide.mpr (by omega)

theorem getLsbD_full {i : Nat} (hi : i < 32) :
    (if reserved then 0xFFFFFFFF else 0 : BitVec 32).getLsbD i = reserved := by
  rcases reserved with _ | _
  · simp
  · have := getLsbD_high 0 (by decide) i hi
    simpa using this

/-- A word in which the bits of `mask` are set. -/
theorem marked_setMask {longIndex first last : Nat} {mask : BitVec 32}
    (hmask : ∀ i < 32, mask.getLsbD i = decide (first ≤ i ∧ i < last)) (hlast : last ≤ 32)
    (f : Nat) : marked (Function.update map longIndex (setMask reserved (map longIndex) mask)) f =
      if longIndex * 32 + first ≤ f ∧ f < longIndex * 32 + last then reserved else marked map f := by
  have hlt : f % 32 < 32 := Nat.mod_lt _ (by decide)
  rw [marked, marked, Function.update_apply]
  rcases eq_or_ne (f / 32) longIndex with heq | hne
  · rw [if_pos heq, getLsbD_setMask hlt, hmask _ hlt, heq]
    have hiff : (first ≤ f % 32 ∧ f % 32 < last) ↔
        longIndex * 32 + first ≤ f ∧ f < longIndex * 32 + last := by omega
    simp only [decide_eq_true_eq, hiff]
  · rw [if_neg hne, if_neg (by omega)]

/-- What is left to do, and which bits are done. -/
structure Progress (map : Nat → BitVec 32) (startIndex length : Nat) (reserved : Bool)
    (p : Pending) : Prop where
  position : p.length = 0 ∨ p.longIndex * 32 + p.length = startIndex + length
  le : p.length ≤ length
  bits : ∀ f, marked p.map f = if startIndex ≤ f ∧ f < startIndex + (length - p.length) then
    reserved else marked map f

theorem setHead_progress (map : Nat → BitVec 32) (reserved : Bool) (startIndex length : Nat) :
    Progress map startIndex length reserved (setHead reserved map startIndex length) := by
  have hlt : startIndex % 32 < 32 := Nat.mod_lt _ (by decide)
  rw [setHead]
  split_ifs with hzero hmore
  · refine ⟨Or.inr ?_, Nat.le_refl _, fun f => ?_⟩
    · change startIndex / 32 * 32 + length = _
      omega
    · rw [if_neg (by change ¬(startIndex ≤ f ∧ f < startIndex + (length - length)); omega)]
  · refine ⟨Or.inr ?_, Nat.sub_le _ _, fun f => ?_⟩
    · change (startIndex / 32 + 1) * 32 + (length - (32 - startIndex % 32)) = _
      omega
    · have hmask : ∀ i < 32, ((0xFFFFFFFF : BitVec 32) <<< (startIndex % 32)).getLsbD i =
          decide (startIndex % 32 ≤ i ∧ i < 32) := by
        intro i hi
        rw [getLsbD_high _ hlt i hi]
        exact decide_eq_decide.mpr (by omega)
      refine (marked_setMask hmask (Nat.le_refl _) f).trans ?_
      congr 1
      change _ = (startIndex ≤ f ∧ f < startIndex + (length - (length - (32 - startIndex % 32))))
      exact propext (by omega)
  · refine ⟨Or.inl rfl, Nat.zero_le _, fun f => ?_⟩
    have hmask : ∀ i < 32, ((((1 : BitVec 32) <<< length) - 1) <<< (startIndex % 32)).getLsbD i =
        decide (startIndex % 32 ≤ i ∧ i < startIndex % 32 + length) :=
      fun i hi => getLsbD_middle (by omega) hi
    refine (marked_setMask hmask (by omega) f).trans ?_
    congr 1
    change _ = (startIndex ≤ f ∧ f < startIndex + (length - 0))
    exact propext (by omega)

theorem setFull_progress {startIndex length n : Nat} {p : Pending}
    (h : Progress map startIndex length reserved p) (hn : n * 32 ≤ p.length) :
    Progress map startIndex length reserved (setFull reserved n p) ∧
      (setFull reserved n p).length = p.length - n * 32 := by
  induction n generalizing p with
  | zero => exact ⟨h, by rw [setFull]; omega⟩
  | succ n ih =>
      have hle := h.le
      have hposition := h.position
      rw [setFull]
      have hstep : Progress map startIndex length reserved
          ⟨Function.update p.map p.longIndex (if reserved then 0xFFFFFFFF else 0), p.longIndex + 1,
            p.length - 32⟩ := by
        refine ⟨Or.inr ?_, by change p.length - 32 ≤ _; omega, fun f => ?_⟩
        · change (p.longIndex + 1) * 32 + (p.length - 32) = _
          omega
        · change marked (Function.update p.map p.longIndex _) f =
            if startIndex ≤ f ∧ f < startIndex + (length - (p.length - 32)) then _ else _
          have hold := h.bits f
          have hlt : f % 32 < 32 := Nat.mod_lt _ (by decide)
          rw [marked] at hold ⊢
          rw [Function.update_apply]
          rcases eq_or_ne (f / 32) p.longIndex with heq | hne
          · rw [if_pos heq, getLsbD_full hlt, if_pos (by omega)]
          · rw [if_neg hne, hold]
            congr 1
            exact propext (by omega)
      obtain ⟨hprogress, hlength⟩ := ih hstep (by change n * 32 ≤ p.length - 32; omega)
      refine ⟨hprogress, hlength.trans ?_⟩
      change p.length - 32 - n * 32 = _
      omega

theorem marked_setBits (startIndex length f : Nat) :
    marked (setBits map startIndex length reserved) f =
      if startIndex ≤ f ∧ f < startIndex + length then reserved else marked map f := by
  have hhead := setHead_progress map reserved startIndex length
  generalize hp : setHead reserved map startIndex length = p at hhead
  have hsetBits : setBits map startIndex length reserved =
      setRest reserved (setFull reserved (p.length / 32) p) := by
    rw [← hp]
    rfl
  obtain ⟨hfull, hlength⟩ := setFull_progress hhead (Nat.div_mul_le_self p.length 32)
  rw [hsetBits]
  generalize setFull reserved (p.length / 32) p = q at hfull hlength
  have hle := hfull.le
  have hposition := hfull.position
  have hold := hfull.bits f
  rw [setRest]
  rcases Nat.eq_zero_or_pos q.length with hzero | hpos
  · rw [if_neg (by omega), hold, hzero]
    rfl
  · have hmask : ∀ i < 32, (((1 : BitVec 32) <<< q.length) - 1).getLsbD i =
        decide (0 ≤ i ∧ i < q.length) := by
      intro i hi
      rw [getLsbD_low _ (by omega) i hi]
      exact decide_eq_decide.mpr (by omega)
    rw [if_pos hpos, marked_setMask hmask (by omega), hold]
    split_ifs <;> first | rfl | omega

end

section

variable (memory : Nat → UInt8)

/-- The offsets at which the loop over the memory map reads entries from `offset` on. -/
inductive Visits (mmap_addr mmap_length : Nat) : Nat → Nat → Prop
  | here {offset : Nat} (h : offset < mmap_length) : Visits mmap_addr mmap_length offset offset
  | next {offset offset' : Nat} (h : offset < mmap_length)
      (hv : Visits mmap_addr mmap_length (nextOffset memory mmap_addr offset) offset') :
      Visits mmap_addr mmap_length offset offset'

/-- The page lies entirely inside of an entry. -/
def MemoryMapEntry.Holds (e : MemoryMapEntry) (page : Nat) : Prop :=
  e.addr ≤ page * PAGE_SIZE ∧ (page + 1) * PAGE_SIZE ≤ e.addr + e.len

/-- The string at an address has `length` characters. -/
def IsString (addr length : Nat) : Prop :=
  (∀ i < length, memory ((addr + i) % WORD) ≠ 0) ∧ memory ((addr + length) % WORD) = 0

/-- The ranges of memory which the boot loader and the kernel use, where the list
of modules is said to have `modsLength` bytes. -/
def Range (kernelBegin kernelSize bootInfo modsLength addr length : Nat) : Prop :=
  let info := multibootInfo memory bootInfo
  addr = kernelBegin ∧ length = kernelSize ∨
  addr = bootInfo ∧ length = INFO_SIZE ∨
  addr = info.mmap_addr ∧ length = info.mmap_length ∨
  (info.flags &&& MULTIBOOT_INFO_CMDLINE ≠ 0 ∧ addr = info.cmdline ∧
    IsString memory info.cmdline length) ∨
  (info.flags &&& MULTIBOOT_INFO_MODS ≠ 0 ∧ addr = info.mods_addr ∧ length = modsLength) ∨
  (info.flags &&& MULTIBOOT_INFO_MODS ≠ 0 ∧ ∃ i < info.mods_count,
    modStart memory info.mods_addr i < modEnd memory info.mods_addr i ∧
      addr = modStart memory info.mods_addr i ∧
      length = modEnd memory info.mods_addr i - modStart memory info.mods_addr i)

/-- The page has an address in common with a range. -/
def Meets (addr length page : Nat) : Prop :=
  ∃ x, addr ≤ x ∧ x < addr + length ∧ page * PAGE_SIZE ≤ x ∧ x < (page + 1) * PAGE_SIZE

/-- The pages of a range when it is rounded outwards. -/
def Touches (addr length page : Nat) : Prop :=
  addr / PAGE_SIZE ≤ page ∧ page < (addr + length + PAGE_MASK) / PAGE_SIZE

end

section

variable {memory : Nat → UInt8} {s s' : BootState}

theorem initAssert_ok {c : Prop} [Decidable c] (h : initAssert c s = .ok ((), s')) :
    c ∧ s' = s := by
  rw [initAssert] at h
  split_ifs at h with hc
  · exact ⟨hc, (Prod.mk.inj (Except.ok.inj h)).2.symm⟩
  · cases h

theorem physMemSetMemoryBits_ok {startIndex length : Nat} {reserved : Bool}
    (h : physMemSetMemoryBits startIndex length reserved s = .ok ((), s')) (page : Nat) :
    marked s'.physMemMap page =
      if startIndex ≤ page ∧ page < startIndex + length then reserved
      else marked s.physMemMap page := by
  obtain ⟨_, s₁, h₁, ha⟩ := bind_ok.mp h
  obtain ⟨-, rfl⟩ := initAssert_ok h₁
  obtain ⟨_, s₂, h₂, hb⟩ := bind_ok.mp ha
  obtain ⟨-, rfl⟩ := initAssert_ok h₂
  obtain rfl := (Prod.mk.inj (Except.ok.inj hb)).2
  exact marked_setBits startIndex length page

theorem insertBootMap_ok {startIndex stopIndex : Nat}
    (h : insertBootMap startIndex stopIndex s = .ok ((), s')) : s'.physMemMap = s.physMemMap := by
  rw [insertBootMap] at h
  rcases hinsert : pagingInsertBootMap s.bootMap startIndex stopIndex with e | m
  · rw [hinsert] at h
    cases h
  · rw [hinsert] at h
    obtain rfl := (Prod.mk.inj (Except.ok.inj h)).2
    rfl

theorem lt_clip_iff {page stopIndex : Nat} :
    page < clip stopIndex ↔ page < stopIndex ∧ page < PAGE_COUNT - 1 := by
  rw [clip]
  split_ifs with h
  · rw [PAGE_COUNT] at h ⊢
    omega
  · rw [PAGE_COUNT] at h ⊢
    omega

/-- The page is freed by an entry. -/
def Frees (e : MemoryMapEntry) (page : Nat) : Prop :=
  e.type % 2 = 1 ∧ (e.addr + PAGE_MASK) % 2 ^ 64 / PAGE_SIZE ≤ page ∧
    page < (e.addr + e.len) % 2 ^ 64 / PAGE_SIZE ∧ page < PAGE_COUNT - 1

theorem Visits.lt {mmap_addr mmap_length offset offset' : Nat}
    (h : Visits memory mmap_addr mmap_length offset offset') : offset < mmap_length := by
  cases h with
  | here hlt => exact hlt
  | next hlt _ => exact hlt

theorem stringLength_ok {fuel addr n : Nat}
    (h : stringLength memory fuel addr s = .ok (n, s')) : s' = s ∧ IsString memory addr n := by
  induction fuel generalizing addr n with
  | zero => cases h
  | succ fuel ih =>
      rw [stringLength] at h
      split_ifs at h with hzero
      · obtain ⟨rfl, rfl⟩ := Prod.mk.inj (Except.ok.inj h)
        exact ⟨rfl, nofun, hzero⟩
      · obtain ⟨m, s₁, h₁, ha⟩ := bind_ok.mp h
        obtain ⟨rfl, rfl⟩ := Prod.mk.inj (Except.ok.inj ha)
        obtain ⟨rfl, hchars, hend⟩ := ih h₁
        refine ⟨rfl, fun i hi => ?_, ?_⟩
        · rcases i with _ | i
          · exact hzero
          · have := hchars i (by omega)
            rwa [Nat.add_right_comm] at this
        · rwa [Nat.add_right_comm] at hend

/-- A page is left free if none of some ranges touches it. -/
def Spares (ranges : Nat → Nat → Prop) (s s' : BootState) : Prop :=
  ∀ page, marked s'.physMemMap page = false ↔ marked s.physMemMap page = false ∧
    ∀ addr length, ranges addr length → ¬(Touches addr length page ∧ page < PAGE_COUNT - 1)

theorem Spares.trans {ranges ranges' ranges'' : Nat → Nat → Prop} {s'' : BootState}
    (h : Spares ranges s s') (h' : Spares ranges' s' s'')
    (hranges : ∀ addr length, ranges'' addr length ↔ ranges addr length ∨ ranges' addr length) :
    Spares ranges'' s s'' := by
  intro page
  rw [h' page, h page, and_assoc]
  refine and_congr_right fun _ => ⟨?_, ?_⟩
  · rintro ⟨hfirst, hsecond⟩ addr length hr
    rcases (hranges addr length).mp hr with hr | hr
    · exact hfirst addr length hr
    · exact hsecond addr length hr
  · intro hall
    exact ⟨fun addr length hr => hall addr length ((hranges addr length).mpr (Or.inl hr)),
      fun addr length hr => hall addr length ((hranges addr length).mpr (Or.inr hr))⟩

theorem Spares.congr {ranges ranges' : Nat → Nat → Prop} (h : Spares ranges s s')
    (hranges : ∀ addr length, ranges addr length ↔ ranges' addr length) : Spares ranges' s s' := by
  have heq : ranges = ranges' := funext₂ fun addr length => propext (hranges addr length)
  rwa [← heq]

/-- Boot information at the address 0x9000 and behind it a memory map with one entry. -/
def sampleMemory (type : UInt8) (a : Nat) : UInt8 :=
  ([0x42, 0, 0, 0] ++ List.replicate 40 0 ++ [24, 0, 0, 0, 0x78, 0x90, 0, 0] ++
    List.replicate 68 0 ++ [20, 0, 0, 0, 0, 0, 0x20, 0, 0, 0, 0, 0, 0, 0, 1, 0, 0, 0, 0, 0,
      type, 0, 0, 0]).getD (a - 0x9000) 0

def sampleState : BootState := ⟨fun _ => 0, emptyBootMap⟩

end

end Ibnos.PhysmemInit
