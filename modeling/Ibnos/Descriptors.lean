import Ibnos.TaskSwitches
import Mathlib.Order.Lattice.Nat

/-!
The table of descriptors. Its entries are given away one by one, and the processor reads in an
entry what its owner has written there.
-/

namespace Ibnos.Descriptors

open Ibnos.Instructions
open Ibnos.Runs
open Ibnos.TaskSwitches

def GDT_MAX_SIZE : Nat := 0x10000

/-- `sizeof(struct GDTEntry)` is 8. -/
def GDT_MAX_COUNT : Nat := GDT_MAX_SIZE / 8

def GDT_CPL_RING0 : BitVec 2 := 0

/-- The fields which are set one by one. -/
structure Rights where
  accessed : BitVec 1
  readWrite : BitVec 1
  dc : BitVec 1
  execute : BitVec 1
  isSystem : BitVec 1
  privlevel : BitVec 2
  user : BitVec 1
  reserved : BitVec 1
  is32bit : BitVec 1
  deriving DecidableEq

structure GDTEntry extends Rights where
  limit1 : BitVec 16
  address1 : BitVec 16
  address2 : BitVec 8
  present : BitVec 1
  limit2 : BitVec 4
  granularity : BitVec 1
  address3 : BitVec 8
  deriving DecidableEq

def Rights.zero : Rights := ⟨0, 0, 0, 0, 0, 0, 0, 0, 0⟩

def GDTEntry.zero : GDTEntry := ⟨.zero, 0, 0, 0, 0, 0, 0, 0⟩

/-- The structure in memory, where a bit field begins with the lowest bit. -/
def GDTEntry.packed (e : GDTEntry) : BitVec 64 :=
  e.address3 ++ e.granularity ++ e.is32bit ++ e.reserved ++ e.user ++ e.limit2 ++
    e.present ++ e.privlevel ++ e.isSystem ++ e.execute ++ e.dc ++ e.readWrite ++ e.accessed ++
    e.address2 ++ e.address1 ++ e.limit1

/-- An entry is told by its index. -/
abbrev Table := Nat → GDTEntry

inductive Stop
  | assertion
  | outOfGDTEntries
  deriving DecidableEq, Repr

/-- The next `n` entries from `i` on. -/
def freeEntryLoop (t : Table) : Nat → Nat → Except Stop (Nat × Table)
  | 0, _ => .error .outOfGDTEntries
  | n + 1, i =>
      if (t i).present = 0 then .ok (i, Function.update t i { t i with present := 1 })
      else freeEntryLoop t n (i + 1)

/-- The first entry is the null descriptor. -/
def gdtGetFreeEntry (t : Table) : Except Stop (Nat × Table) := freeEntryLoop t (GDT_MAX_COUNT - 1) 1

/-- The distance of two entries is always a multiple of eight. -/
def gdtGetEntryOffset (entry : Nat) (ring : BitVec 2) : Except Stop (BitVec 32) :=
  if entry < GDT_MAX_COUNT then .ok (BitVec.ofNat 32 (8 * entry) ||| ring.setWidth 32)
  else .error .assertion

def gdtEntrySetAddress (entry : GDTEntry) (address : BitVec 32) : GDTEntry :=
  { entry with
    address1 := (address &&& 0x0000FFFF).setWidth 16
    address2 := ((address &&& 0x00FF0000) >>> 16).setWidth 8
    address3 := ((address &&& 0xFF000000) >>> 24).setWidth 8 }

def setLimit (entry : GDTEntry) (length : BitVec 64) : GDTEntry :=
  { entry with
    limit1 := (length &&& 0x0000FFFF).setWidth 16
    limit2 := ((length >>> 16) &&& 0xF).setWidth 4 }

def gdtEntrySetLimit (entry : GDTEntry) (length : BitVec 64) : Except Stop GDTEntry :=
  if length ≤ 0x100000000 ∧ 0 < length then
    if 0x100000 < length then
      if length &&& 0xFFF = 0 then
        .ok (setLimit { entry with granularity := 1 } (length >>> 12 - 1))
      else .error .assertion
    else .ok (setLimit { entry with granularity := 0 } (length - 1))
  else .error .assertion

/-- The assignments to `accessBits`, `user`, `reserved` and `is32bit`. -/
def setRights (entry : GDTEntry) (rights : Rights) : GDTEntry :=
  { entry with toRights := rights, present := 1 }

/-- A new entry is written behind `gdtGetFreeEntry`. -/
def initEntry (address : BitVec 32) (length : BitVec 64) (rights : Rights) (t : Table) :
    Except Stop (Nat × Table) := do
  let (i, t) ← gdtGetFreeEntry t
  let e ← gdtEntrySetLimit (gdtEntrySetAddress (t i) address) length
  return (i, Function.update t i (setRights e rights))

/-- Code or data. -/
def segmentRights (execute : BitVec 1) (privlevel : BitVec 2) : Rights :=
  ⟨0, 1, 0, execute, 1, privlevel, 0, 0, 1⟩

/-- `readWrite` would say that the task is busy. -/
def taskRights : Rights := ⟨1, 0, 0, 1, 0, GDT_CPL_RING0, 0, 0, 0⟩

/-- `sizeof(struct taskContext)` -/
def TASK_SIZE : Nat := 0x68

structure Entries where
  codeRing0 : Nat
  dataRing0 : Nat
  codeRing3 : Nat
  dataRing3 : Nat
  kernelTask : Nat
  usermodeTask : Nat

/-- `__initBasicGDT` and `__initBasicTask` in `gdtInit`, with a table which was filled with
zeros and in which the processor has not marked anything yet. -/
def gdtInit (taskTable : BitVec 32) : Except Stop (Entries × Table) := do
  let (codeRing0, t) ← initEntry 0 0x100000000 (segmentRights 1 GDT_CPL_RING0) fun _ => .zero
  let (dataRing0, t) ← initEntry 0 0x100000000 (segmentRights 0 GDT_CPL_RING0) t
  let (codeRing3, t) ← initEntry 0 0x100000000 (segmentRights 1 GDT_CPL_RING3) t
  let (dataRing3, t) ← initEntry 0 0x100000000 (segmentRights 0 GDT_CPL_RING3) t
  let (kernelTask, t) ← initEntry taskTable (BitVec.ofNat 64 TASK_SIZE) taskRights t
  let (usermodeTask, t) ← initEntry (taskTable + BitVec.ofNat 32 TASK_SIZE)
    (BitVec.ofNat 64 TASK_SIZE) taskRights t
  return (⟨codeRing0, dataRing0, codeRing3, dataRing3, kernelTask, usermodeTask⟩, t)

/-- What is loaded into the segment registers, and what the gates of the interrupts name. -/
def selectors (entries : Entries) : Except Stop Selectors := do
  let codeRing0 ← gdtGetEntryOffset entries.codeRing0 GDT_CPL_RING0
  let dataRing0 ← gdtGetEntryOffset entries.dataRing0 GDT_CPL_RING0
  let kernelTask ← gdtGetEntryOffset entries.kernelTask GDT_CPL_RING0
  return ⟨codeRing0.setWidth 16, dataRing0.setWidth 16, kernelTask.setWidth 16⟩

/-- What is done with the entries. The rights are also set when the processor marks a segment as
accessed or a task as busy. -/
inductive Call
  | gdtGetFreeEntry
  | gdtEntrySetAddress (entry : Nat) (address : BitVec 32)
  | gdtEntrySetLimit (entry : Nat) (length : BitVec 64)
  | setRights (entry : Nat) (rights : Rights)
  | gdtReleaseEntry (entry : Nat)

def step (t : Table) : Call → Except Stop (Table × Option Nat)
  | .gdtGetFreeEntry => do
      let (i, t) ← gdtGetFreeEntry t
      return (t, some i)
  | .gdtEntrySetAddress i address =>
      .ok (Function.update t i (gdtEntrySetAddress (t i) address), none)
  | .gdtEntrySetLimit i length => do
      let e ← gdtEntrySetLimit (t i) length
      return (Function.update t i e, none)
  | .setRights i rights => .ok (Function.update t i (setRights (t i) rights), none)
  | .gdtReleaseEntry i => .ok (Function.update t i .zero, none)

/-! The processor. -/

/-- What a descriptor means. The offsets in the segment are those below `length`. -/
@[ext] structure Segment where
  base : BitVec 32
  length : Nat
  rights : Rights

/-- The eight bytes of a descriptor. Only that of a segment which is present is used. -/
def descriptor (q : BitVec 64) : Option Segment :=
  if q.extractLsb' 47 1 = 1 then
    some {
      base := q.extractLsb' 56 8 ++ q.extractLsb' 32 8 ++ q.extractLsb' 16 16
      length := ((q.extractLsb' 48 4 ++ q.extractLsb' 0 16).toNat + 1) *
        if q.extractLsb' 55 1 = 1 then 4096 else 1
      rights := {
        accessed := q.extractLsb' 40 1
        readWrite := q.extractLsb' 41 1
        dc := q.extractLsb' 42 1
        execute := q.extractLsb' 43 1
        isSystem := q.extractLsb' 44 1
        privlevel := q.extractLsb' 45 2
        user := q.extractLsb' 52 1
        reserved := q.extractLsb' 53 1
        is32bit := q.extractLsb' 54 1 } }
  else none

/-- The index is above the privilege level and a bit which chooses the local table. The null
descriptor is not used. -/
def fetchSegment (t : Table) (selector : BitVec 16) : Option Segment :=
  if selector.getLsbD 2 = true ∨ selector.toNat / 8 = 0 then none
  else descriptor (t (selector.toNat / 8)).packed

/-! What the table is for. -/

/-- The segments which are given away. -/
abbrev Segments := Nat → Option Segment

/-- The segment of an entry which was not written yet. -/
def Segment.blank : Segment := ⟨0, 1, .zero⟩

/-- The lowest entry which is not given away. -/
noncomputable def Segments.lowest (s : Segments) : Nat := sInf {i | 0 < i ∧ s i = none}

noncomputable def Segments.step (s : Segments) : Call → Segments × Option Nat
  | .gdtGetFreeEntry => (Function.update s s.lowest (some .blank), some s.lowest)
  | .gdtEntrySetAddress i address =>
      (Function.update s i ((s i).map fun g => { g with base := address }), none)
  | .gdtEntrySetLimit i length =>
      (Function.update s i ((s i).map fun g => { g with length := length.toNat }), none)
  | .setRights i rights =>
      (Function.update s i ((s i).map fun g => { g with rights := rights }), none)
  | .gdtReleaseEntry i => (Function.update s i none, none)

/-- The lengths which an entry can have. -/
def Fitting (length : BitVec 64) : Prop :=
  0 < length.toNat ∧ length.toNat ≤ 2 ^ 32 ∧ (length.toNat ≤ 2 ^ 20 ∨ 2 ^ 12 ∣ length.toNat)

instance {length : BitVec 64} : Decidable (Fitting length) :=
  inferInstanceAs (Decidable (_ ∧ _ ∧ (_ ∨ _)))

/-- Only entries which were given away are touched. -/
def Legal (t : Table) : Call → Prop
  | .gdtGetFreeEntry => ∃ i, 0 < i ∧ i < GDT_MAX_COUNT ∧ (t i).present = 0
  | .gdtEntrySetLimit i length => (t i).present = 1 ∧ Fitting length
  | .gdtEntrySetAddress i _ | .setRights i _ | .gdtReleaseEntry i => (t i).present = 1

section

variable {t t' : Table} {s : Segments} {e : GDTEntry} {call : Call} {calls : List Call}
  {i n : Nat} {length : BitVec 64}

/-- The segment of an entry. -/
def GDTEntry.segment (e : GDTEntry) : Segment where
  base := e.address3 ++ e.address2 ++ e.address1
  length := ((e.limit2 ++ e.limit1).toNat + 1) * if e.granularity = 1 then 4096 else 1
  rights := e.toRights

/-- The processor finds every field where the compiler has put it. -/
theorem descriptor_packed (e : GDTEntry) :
    descriptor e.packed = if e.present = 1 then some e.segment else none := by
  have hfield : ∀ start len, e.packed.extractLsb' start len =
      (e.address3 ++ e.granularity ++ e.is32bit ++ e.reserved ++ e.user ++ e.limit2 ++
        e.present ++ e.privlevel ++ e.isSystem ++ e.execute ++ e.dc ++ e.readWrite ++
        e.accessed ++ e.address2 ++ e.address1 ++ e.limit1).extractLsb' start len :=
    fun _ _ => rfl
  simp (disch := omega) only [descriptor, hfield, GDTEntry.segment,
    BitVec.extractLsb'_append_eq_of_le, BitVec.extractLsb'_append_eq_of_add_le, Nat.reduceSub,
    BitVec.extractLsb'_eq_self, -Nat.reduceAdd]

theorem descriptor_some (h : e.present = 1) : descriptor e.packed = some e.segment := by
  rw [descriptor_packed, if_pos h]

/-- A mask which keeps all the bits of a field is not needed. -/
theorem setWidth_mask {v w : Nat} (a mask : BitVec v) (h : mask.setWidth w = BitVec.allOnes w) :
    (a &&& mask).setWidth w = a.setWidth w := by
  rw [BitVec.setWidth_and, h, BitVec.and_allOnes]

theorem address_join (a : BitVec 32) :
    ((a &&& 0xFF000000) >>> 24).setWidth 8 ++ ((a &&& 0x00FF0000) >>> 16).setWidth 8 ++
      (a &&& 0x0000FFFF).setWidth 16 = a := by
  rw [BitVec.ushiftRight_and_distrib, BitVec.ushiftRight_and_distrib,
    setWidth_mask (a >>> 24) _ (by decide), setWidth_mask (a >>> 16) _ (by decide),
    setWidth_mask a _ (by decide)]
  refine BitVec.eq_of_getLsbD_eq fun i hi => ?_
  simp only [BitVec.getLsbD_append, BitVec.getLsbD_setWidth, BitVec.getLsbD_ushiftRight]
  split_ifs with hlow hmiddle
  · simp [hlow]
  · have hindex : 16 + (i - 16) = i := by omega
    simp [hmiddle, hindex]
  · have hindex : 24 + (i - 16 - 8) = i := by omega
    have hlast : i - 16 - 8 < 8 := by omega
    simp [hlast, hindex]

theorem limit_join (n : BitVec 64) :
    ((n >>> 16) &&& 0xF).setWidth 4 ++ (n &&& 0x0000FFFF).setWidth 16 = n.setWidth 20 := by
  rw [setWidth_mask (n >>> 16) _ (by decide), setWidth_mask n _ (by decide)]
  refine BitVec.eq_of_getLsbD_eq fun i hi => ?_
  simp only [BitVec.getLsbD_append, BitVec.getLsbD_setWidth, BitVec.getLsbD_ushiftRight]
  split_ifs with hlow
  · simp [hlow, hi]
  · have hindex : 16 + (i - 16) = i := by omega
    have hlast : i - 16 < 4 := by omega
    simp [hlast, hindex, hi]

/-- The processor reads in the table what was given away. -/
structure Reads (t : Table) (s : Segments) : Prop where
  segment : ∀ i, descriptor (t i).packed = s i
  unused : ∀ i, s i = none → t i = .zero
  bounds : ∀ i, s i ≠ none → 0 < i ∧ i < GDT_MAX_COUNT

theorem reads_zero : Reads (fun _ => .zero) fun _ => none := by
  refine ⟨fun i => ?_, fun i _ => rfl, fun i hi => absurd rfl hi⟩
  rw [descriptor_packed]
  rfl

theorem Reads.update (h : Reads t s) (hi : 0 < i ∧ i < GDT_MAX_COUNT) {g : Option Segment}
    (hsegment : descriptor e.packed = g) (hunused : g = none → e = .zero) :
    Reads (Function.update t i e) (Function.update s i g) := by
  refine ⟨fun j => ?_, fun j hj => ?_, fun j hj => ?_⟩
  · by_cases hji : j = i
    · rw [hji, Function.update_self, Function.update_self, hsegment]
    · rw [Function.update_of_ne hji, Function.update_of_ne hji, h.segment]
  · by_cases hji : j = i
    · rw [hji, Function.update_self] at hj
      rw [hji, Function.update_self, hunused hj]
    · rw [Function.update_of_ne hji] at hj
      rw [Function.update_of_ne hji, h.unused j hj]
  · by_cases hji : j = i
    · exact hji ▸ hi
    · rw [Function.update_of_ne hji] at hj
      exact h.bounds j hj

theorem Reads.held (h : Reads t s) (hi : (t i).present = 1) :
    s i = some (t i).segment ∧ 0 < i ∧ i < GDT_MAX_COUNT := by
  have hsome : s i = some (t i).segment := (h.segment i).symm.trans (descriptor_some hi)
  exact ⟨hsome, h.bounds i (by rw [hsome]; exact nofun)⟩

theorem Reads.free_iff (h : Reads t s) : (t i).present = 0 ↔ s i = none := by
  rw [← h.segment i, descriptor_packed]
  rcases BitVec.eq_zero_or_eq_one (t i).present with hzero | hone
  · simp [hzero]
  · simp [hone]

/-! The search for an entry. -/

theorem freeEntryLoop_eq {j : Nat} (hle : i ≤ j) (hlt : j < i + n) (hfree : (t j).present = 0)
    (hused : ∀ k, i ≤ k → k < j → (t k).present ≠ 0) :
    freeEntryLoop t n i = .ok (j, Function.update t j { t j with present := 1 }) := by
  induction n generalizing i with
  | zero => omega
  | succ n ih =>
      rw [freeEntryLoop]
      rcases Nat.eq_or_lt_of_le hle with rfl | hlt'
      · exact if_pos hfree
      · rw [if_neg (hused i le_rfl hlt')]
        exact ih hlt' (by omega) fun k hk => hused k (by omega)

theorem gdtGetFreeEntry_eq (h : Reads t s) (hi : IsLeast {i | 0 < i ∧ s i = none} i)
    (hlt : i < GDT_MAX_COUNT) :
    gdtGetFreeEntry t = .ok (i, Function.update t i { GDTEntry.zero with present := 1 }) := by
  have hpos : 0 < i := hi.1.1
  rw [gdtGetFreeEntry, freeEntryLoop_eq hpos (by omega) (h.free_iff.mpr hi.1.2), h.unused i hi.1.2]
  intro k hk hki hfree
  have hik := hi.2 ⟨hk, h.free_iff.mp hfree⟩
  omega

theorem segment_blank : descriptor { GDTEntry.zero with present := 1 : GDTEntry }.packed =
    some Segment.blank :=
  descriptor_some rfl

theorem lowest_least (h : ∃ i, 0 < i ∧ s i = none) : IsLeast {i | 0 < i ∧ s i = none} s.lowest :=
  isLeast_csInf h

/-! What is written to an entry. -/

theorem segment_setAddress (e : GDTEntry) (a : BitVec 32) :
    (gdtEntrySetAddress e a).segment = { e.segment with base := a } := by
  rw [GDTEntry.segment, GDTEntry.segment, gdtEntrySetAddress]
  simp only [address_join]

theorem segment_setLimit (e : GDTEntry) (n : BitVec 64) :
    (setLimit e n).segment = { e.segment with
      length := (n.toNat % 2 ^ 20 + 1) * if e.granularity = 1 then 4096 else 1 } := by
  rw [GDTEntry.segment, GDTEntry.segment, setLimit]
  simp only [limit_join, BitVec.toNat_setWidth]

/-- Long segments are counted in pages. -/
theorem gdtEntrySetLimit_eq (e : GDTEntry) (h : Fitting length) :
    ∃ e', gdtEntrySetLimit e length = .ok e' ∧ e'.present = e.present ∧
      e'.segment = { e.segment with length := length.toNat } := by
  obtain ⟨hpos, hle, hfits⟩ := h
  have hmask : (length &&& 0xFFF).toNat = length.toNat % 2 ^ 12 :=
    Nat.and_two_pow_sub_one_eq_mod _ 12
  rw [gdtEntrySetLimit, if_pos ⟨by bv_omega, by bv_omega⟩]
  by_cases hlong : 0x100000 < length
  · have hdvd : length.toNat % 2 ^ 12 = 0 := by
      rcases hfits with hshort | hdvd
      · bv_omega
      · exact Nat.mod_eq_zero_of_dvd hdvd
    have hzero : length &&& 0xFFF = 0 := BitVec.eq_of_toNat_eq (hmask.trans hdvd)
    rw [if_pos hlong, if_pos hzero]
    refine ⟨_, rfl, rfl, ?_⟩
    have hpages : (length >>> 12 - 1).toNat = length.toNat / 2 ^ 12 - 1 := by
      bv_omega
    rw [segment_setLimit, hpages]
    simp only [GDTEntry.segment, if_true]
    congr 1
    omega
  · rw [if_neg hlong]
    refine ⟨_, rfl, rfl, ?_⟩
    have hbytes : (length - 1).toNat = length.toNat - 1 := by bv_omega
    have hshort : length.toNat ≤ 2 ^ 20 := by bv_omega
    rw [segment_setLimit, hbytes]
    simp only [GDTEntry.segment]
    congr 1
    simp
    omega

/-- Every call does to the table what its caller expects. -/
theorem step_reads (h : Reads t s) (hlegal : Legal t call) :
    ∃ t', step t call = .ok (t', (s.step call).2) ∧ Reads t' (s.step call).1 := by
  cases call with
  | gdtGetFreeEntry =>
      obtain ⟨i, hpos, hlt, hfree⟩ := hlegal
      have hnone := h.free_iff.mp hfree
      have hleast := lowest_least ⟨i, hpos, hnone⟩
      have hlow : s.lowest < GDT_MAX_COUNT := lt_of_le_of_lt (hleast.2 ⟨hpos, hnone⟩) hlt
      refine ⟨_, bind_eq_ok.mpr ⟨_, gdtGetFreeEntry_eq h hleast hlow, rfl⟩, ?_⟩
      exact h.update ⟨hleast.1.1, hlow⟩ segment_blank nofun
  | gdtEntrySetAddress i a =>
      obtain ⟨hsome, hbounds⟩ := h.held hlegal
      refine ⟨_, rfl, h.update hbounds ?_ ?_⟩
      · rw [descriptor_some (e := gdtEntrySetAddress (t i) a) hlegal, segment_setAddress, hsome]
        rfl
      · rw [hsome]
        exact nofun
  | gdtEntrySetLimit i length =>
      obtain ⟨hpresent, hfits⟩ := hlegal
      obtain ⟨hsome, hbounds⟩ := h.held hpresent
      obtain ⟨e, he, hsame, hsegment⟩ := gdtEntrySetLimit_eq (t i) hfits
      refine ⟨_, bind_eq_ok.mpr ⟨e, he, rfl⟩, h.update hbounds ?_ ?_⟩
      · rw [descriptor_some (hsame.trans hpresent), hsegment, hsome]
        rfl
      · rw [hsome]
        exact nofun
  | setRights i rights =>
      obtain ⟨hsome, hbounds⟩ := h.held hlegal
      refine ⟨_, rfl, h.update hbounds ?_ ?_⟩
      · rw [descriptor_some (e := setRights (t i) rights) rfl, hsome]
        rfl
      · rw [hsome]
        exact nofun
  | gdtReleaseEntry i =>
      obtain ⟨-, hbounds⟩ := h.held hlegal
      exact ⟨_, rfl, h.update hbounds (descriptor_packed .zero) fun _ => rfl⟩

theorem run_reads (h : Reads t s) (hlegal : Along step Legal t calls) :
    ∃ t', run step t calls = .ok (t', (runTotal Segments.step s calls).2) ∧
      Reads t' (runTotal Segments.step s calls).1 := by
  have hstep : ∀ t s call, Reads t s → Legal t call →
      ∃ t', step t call = .ok (t', (s.step call).2) ∧ Reads t' (s.step call).1 :=
    fun t s call h hcall => step_reads h hcall
  exact run_refines hstep h hlegal

/-! Selectors. -/

theorem offset_toNat (hi : i < GDT_MAX_COUNT) (ring : BitVec 2) :
    ((BitVec.ofNat 32 (8 * i) ||| ring.setWidth 32).setWidth 16).toNat = 8 * i + ring.toNat := by
  rw [GDT_MAX_COUNT, GDT_MAX_SIZE] at hi
  have hring := ring.isLt
  have hor : 8 * i ||| ring.toNat = 8 * i + ring.toNat :=
    (Nat.two_pow_add_eq_or_of_lt (i := 3) (by omega) i).symm
  have hindex : 8 * i % 2 ^ 32 = 8 * i := Nat.mod_eq_of_lt (by omega)
  have hlow : ring.toNat % 2 ^ 32 = ring.toNat := Nat.mod_eq_of_lt (by omega)
  rw [BitVec.toNat_setWidth, BitVec.toNat_or, BitVec.toNat_ofNat, BitVec.toNat_setWidth, hindex,
    hlow, hor, Nat.mod_eq_of_lt (by omega)]

/-- A selector leads the processor to its entry, with the privileges which were asked for. -/
theorem gdtGetEntryOffset_eq (hi : i < GDT_MAX_COUNT) (ring : BitVec 2) :
    ∃ offset, gdtGetEntryOffset i ring = .ok offset ∧ privilege (offset.setWidth 16) = ring ∧
      ∀ t, fetchSegment t (offset.setWidth 16) =
        if i = 0 then none else descriptor (t i).packed := by
  have hnat := offset_toNat hi ring
  have hring := ring.isLt
  refine ⟨_, if_pos hi, ?_, fun t => ?_⟩
  · refine BitVec.eq_of_toNat_eq ?_
    rw [privilege, BitVec.extractLsb'_toNat, hnat]
    simp
    omega
  · have hindex : (8 * i + ring.toNat) / 8 = i := by omega
    have hlocal : (8 * i + ring.toNat).testBit 2 = false := by
      rw [Nat.testBit_eq_decide_div_mod_eq]
      simp
      omega
    rw [fetchSegment, BitVec.getLsbD, hnat, hindex, hlocal]
    simp

/-! The table of the kernel. -/

/-- The entries from the first one on. -/
def placed (l : List Segment) : Segments := fun i => if i = 0 then none else l[i - 1]?

theorem placed_least (l : List Segment) :
    IsLeast {i | 0 < i ∧ placed l i = none} (l.length + 1) := by
  refine ⟨⟨Nat.succ_pos _, by simp [placed]⟩, ?_⟩
  rintro i ⟨hpos, hnone⟩
  simp only [placed, if_neg (Nat.ne_of_gt hpos), List.getElem?_eq_none_iff] at hnone
  omega

theorem update_placed (l : List Segment) (g : Segment) :
    Function.update (placed l) (l.length + 1) (some g) = placed (l ++ [g]) := by
  funext i
  rcases Nat.eq_zero_or_pos i with rfl | hpos
  · rfl
  · rcases Nat.lt_trichotomy i (l.length + 1) with hlt | rfl | hgt
    · rw [Function.update_of_ne (by omega), placed, placed,
        List.getElem?_append_left (by omega)]
    · simp [placed]
    · rw [Function.update_of_ne (by omega), placed, placed,
        List.getElem?_eq_none (by omega), List.getElem?_eq_none (by simp; omega)]

theorem initEntry_eq {l : List Segment} (h : Reads t (placed l)) (hl : l.length + 1 < GDT_MAX_COUNT)
    (hfits : Fitting length) (address : BitVec 32) (rights : Rights) :
    ∃ t', initEntry address length rights t = .ok (l.length + 1, t') ∧
      Reads t' (placed (l ++ [⟨address, length.toNat, rights⟩])) := by
  have hfree := gdtGetFreeEntry_eq h (placed_least l) hl
  obtain ⟨e, he, -, hsegment⟩ := gdtEntrySetLimit_eq
    (gdtEntrySetAddress { GDTEntry.zero with present := 1 } address) hfits
  refine ⟨_, bind_eq_ok.mpr ⟨_, hfree, bind_eq_ok.mpr ⟨e, ?_, rfl⟩⟩, ?_⟩
  · simpa using he
  · rw [Function.update_idem, ← update_placed]
    refine h.update ⟨Nat.succ_pos _, hl⟩ ?_ nofun
    rw [descriptor_some (e := setRights e rights) rfl]
    rw [segment_setAddress] at hsegment
    have hbase := congrArg Segment.base hsegment
    have hlength := congrArg Segment.length hsegment
    exact congrArg some (Segment.ext hbase hlength rfl)

/-- Flat segments for the kernel and the processes, and two tasks. -/
def kernelSegments (taskTable : BitVec 32) : List Segment :=
  [⟨0, 2 ^ 32, segmentRights 1 GDT_CPL_RING0⟩, ⟨0, 2 ^ 32, segmentRights 0 GDT_CPL_RING0⟩,
    ⟨0, 2 ^ 32, segmentRights 1 GDT_CPL_RING3⟩, ⟨0, 2 ^ 32, segmentRights 0 GDT_CPL_RING3⟩,
    ⟨taskTable, TASK_SIZE, taskRights⟩,
    ⟨taskTable + BitVec.ofNat 32 TASK_SIZE, TASK_SIZE, taskRights⟩]

theorem gdtInit_eq (taskTable : BitVec 32) :
    ∃ t, gdtInit taskTable = .ok (⟨1, 2, 3, 4, 5, 6⟩, t) ∧
      Reads t (placed (kernelSegments taskTable)) := by
  have hflat : Fitting 0x100000000 := by decide
  have htask : Fitting (BitVec.ofNat 64 TASK_SIZE) := by decide
  have hcount : 7 ≤ GDT_MAX_COUNT := by decide
  have hnil : Reads (fun _ => .zero) (placed []) := by
    have hempty : placed [] = fun _ => none := by
      funext i
      simp [placed]
    rw [hempty]
    exact reads_zero
  obtain ⟨t₁, h₁, hr₁⟩ := initEntry_eq hnil (by simp; omega) hflat 0 (segmentRights 1 GDT_CPL_RING0)
  obtain ⟨t₂, h₂, hr₂⟩ := initEntry_eq hr₁ (by simp; omega) hflat 0 (segmentRights 0 GDT_CPL_RING0)
  obtain ⟨t₃, h₃, hr₃⟩ := initEntry_eq hr₂ (by simp; omega) hflat 0 (segmentRights 1 GDT_CPL_RING3)
  obtain ⟨t₄, h₄, hr₄⟩ := initEntry_eq hr₃ (by simp; omega) hflat 0 (segmentRights 0 GDT_CPL_RING3)
  obtain ⟨t₅, h₅, hr₅⟩ := initEntry_eq hr₄ (by simp; omega) htask taskTable taskRights
  obtain ⟨t₆, h₆, hr₆⟩ := initEntry_eq hr₅ (by simp; omega) htask
    (taskTable + BitVec.ofNat 32 TASK_SIZE) taskRights
  refine ⟨t₆, ?_, hr₆⟩
  exact bind_eq_ok.mpr ⟨_, h₁, bind_eq_ok.mpr ⟨_, h₂, bind_eq_ok.mpr ⟨_, h₃,
    bind_eq_ok.mpr ⟨_, h₄, bind_eq_ok.mpr ⟨_, h₅, bind_eq_ok.mpr ⟨_, h₆, rfl⟩⟩⟩⟩⟩⟩

/-- The selector of an entry leads to the segment which the entry was given. -/
theorem Reads.fetch (h : Reads t s) (hi : i < GDT_MAX_COUNT) (ring : BitVec 2) :
    ∃ offset, gdtGetEntryOffset i ring = .ok offset ∧ privilege (offset.setWidth 16) = ring ∧
      fetchSegment t (offset.setWidth 16) = s i := by
  obtain ⟨offset, hoffset, hring, hfetch⟩ := gdtGetEntryOffset_eq hi ring
  refine ⟨offset, hoffset, hring, ?_⟩
  rw [hfetch, h.segment]
  by_cases hzero : i = 0
  · rw [if_pos hzero]
    by_contra hne
    exact absurd (h.bounds i (Ne.symm hne)).1 (by omega)
  · exact if_neg hzero

/-- The selectors with which the threads are started. -/
theorem gdtInit_selectors {taskTable : BitVec 32} {entries : Entries}
    (hinit : gdtInit taskTable = .ok (entries, t)) :
    ∃ s, selectors entries = .ok s ∧ privilege s.codeRing0 = 0 ∧
      fetchSegment t s.codeRing0 = some ⟨0, 2 ^ 32, segmentRights 1 GDT_CPL_RING0⟩ ∧
      fetchSegment t s.dataRing0 = some ⟨0, 2 ^ 32, segmentRights 0 GDT_CPL_RING0⟩ ∧
      fetchSegment t s.kernelTask = some ⟨taskTable, TASK_SIZE, taskRights⟩ := by
  obtain ⟨t', hinit', hreads⟩ := gdtInit_eq taskTable
  cases hinit.symm.trans hinit'
  obtain ⟨code, hcode, hring, hfetchCode⟩ := hreads.fetch (i := 1) (by decide) GDT_CPL_RING0
  obtain ⟨data, hdata, -, hfetchData⟩ := hreads.fetch (i := 2) (by decide) GDT_CPL_RING0
  obtain ⟨task, htask, -, hfetchTask⟩ := hreads.fetch (i := 5) (by decide) GDT_CPL_RING0
  refine ⟨⟨code.setWidth 16, data.setWidth 16, task.setWidth 16⟩, ?_, hring, hfetchCode, hfetchData,
    hfetchTask⟩
  exact bind_eq_ok.mpr ⟨code, hcode, bind_eq_ok.mpr ⟨data, hdata,
    bind_eq_ok.mpr ⟨task, htask, rfl⟩⟩⟩

/-- From the start of the kernel on, as long as only entries are touched which were given away: a
new entry is the lowest free one, and the processor finds under every selector the segment which
was asked for. -/
theorem run_segments {taskTable : BitVec 32} {entries : Entries}
    (hinit : gdtInit taskTable = .ok (entries, t)) (hlegal : Along step Legal t calls) :
    ∃ t', run step t calls =
        .ok (t', (runTotal Segments.step (placed (kernelSegments taskTable)) calls).2) ∧
      ∀ i < GDT_MAX_COUNT, ∀ ring, ∃ offset, gdtGetEntryOffset i ring = .ok offset ∧
        privilege (offset.setWidth 16) = ring ∧
        fetchSegment t' (offset.setWidth 16) =
          (runTotal Segments.step (placed (kernelSegments taskTable)) calls).1 i := by
  obtain ⟨t₀, hinit', hreads⟩ := gdtInit_eq taskTable
  cases hinit.symm.trans hinit'
  obtain ⟨t', hrun, hreads'⟩ := run_reads hreads hlegal
  exact ⟨t', hrun, fun i hi ring => hreads'.fetch hi ring⟩

def sampleTable : Table :=
  match gdtInit 0xFF813000 with
  | .ok (_, t) => t
  | .error _ => fun _ => .zero

/-- A segment of two megabytes which is released again. -/
def sampleCalls : List Call :=
  [.gdtGetFreeEntry, .gdtEntrySetAddress 7 0x400000, .gdtEntrySetLimit 7 0x200000,
    .gdtReleaseEntry 7]

theorem run_segments_sample :
    ∃ t', run step sampleTable sampleCalls =
        .ok (t', (runTotal Segments.step (placed (kernelSegments 0xFF813000)) sampleCalls).2) ∧
      ∀ i < GDT_MAX_COUNT, ∀ ring, ∃ offset, gdtGetEntryOffset i ring = .ok offset ∧
        privilege (offset.setWidth 16) = ring ∧
        fetchSegment t' (offset.setWidth 16) =
          (runTotal Segments.step (placed (kernelSegments 0xFF813000)) sampleCalls).1 i := by
  have hinit : gdtInit 0xFF813000 = .ok (⟨1, 2, 3, 4, 5, 6⟩, sampleTable) := rfl
  refine run_segments hinit ⟨⟨7, ?_, ?_, rfl⟩, rfl, ⟨rfl, ?_⟩, rfl, trivial⟩
  all_goals decide

end

end Ibnos.Descriptors
