import Ibnos.FrameSupply
import Ibnos.PhysmemInit

/-!
Paging is switched on: the pages of the boot map stay where they are, and the
tables which this needs take frames which are none of them.
-/

namespace Ibnos.BootPaging

open Ibnos.BootMaps
open Ibnos.FrameSupply
open Ibnos.Intervals
open Ibnos.KernelPages
open Ibnos.Memory
open Ibnos.Paging
open Ibnos.Physmem
open Ibnos.PhysmemInit (BootState Init initAssert initAssert_ok marked physMemInit
  physMemProtectBootEntry protectCmdline protectModule protectModules protectMods)
open Ibnos.Programs
open Ibnos.References
open Ibnos.Tallies

section

/-! The boot map and the bitmap after any calls of `physMemProtectBootEntry`. -/

/-- The pages of the boot map are reserved, and they are below the last page. -/
structure Guarded (b : BootState) (l : List (Stretch Nat)) : Prop where
  represents : Represents b.bootMap l
  separate : Separate l
  stop : ∀ i ∈ l, i.stop ≤ PAGE_COUNT - 1
  marked : ∀ n, Covers l n → marked b.physMemMap n = true

/-- The calls which follow `physMemInit`. -/
def protectAll : List (Nat × Nat) → Init Unit
  | [] => pure ()
  | (addr, length) :: calls => do
      physMemProtectBootEntry addr length
      protectAll calls

variable {b b' : BootState} {l : List (Stretch Nat)} {memory : Nat → UInt8}

theorem guarded_empty (h : b.bootMap = emptyBootMap) : Guarded b [] where
  represents := by
    rw [h]
    exact represents_emptyBootMap
  separate := separate_nil
  stop := nofun
  marked _ hn := (not_covers_nil hn).elim

/-- One insertion into the boot map. -/
theorem insertBootMap_guarded {startIndex stopIndex : Nat} (h : Guarded b l)
    (hle : startIndex ≤ stopIndex) (hstop : stopIndex ≤ PAGE_COUNT - 1)
    (hinsert : PhysmemInit.insertBootMap startIndex stopIndex b = .ok ((), b')) :
    ∃ l', Represents b'.bootMap l' ∧ Inserted l startIndex stopIndex l' := by
  have hword : ∀ n, n ≤ PAGE_COUNT - 1 → n < WORD := by
    intro n hn
    simp only [PAGE_COUNT, WORD] at *
    omega
  obtain ⟨l', hl', hinserted⟩ := insertRequiredLoop_inserted h.separate hle
  have hcases := insertBootMapLoop_cases [] l h.represents
    (Nat.lt_succ_of_le (Nat.le_of_eq h.represents.num.symm)) hle (hword _ hstop)
    (fun i hi => hword _ (h.stop i hi)) hl'
  rw [PhysmemInit.insertBootMap, pagingInsertBootMap] at hinsert
  rcases hcases with ⟨m', hm', hrep⟩ | ⟨herror, -⟩
  · rw [show insertBootMapLoop (b.bootMap.num + 1) b.bootMap 0 startIndex stopIndex =
      .ok m' from hm']
      at hinsert
    obtain rfl := (Prod.mk.inj (Except.ok.inj hinsert)).2
    exact ⟨l', hrep, hinserted⟩
  · rw [show insertBootMapLoop (b.bootMap.num + 1) b.bootMap 0 startIndex stopIndex =
      .error .assertion from herror] at hinsert
    cases hinsert

theorem physMemSetMemoryBits_bootMap {startIndex length : Nat} {reserved : Bool}
    (h : PhysmemInit.physMemSetMemoryBits startIndex length reserved b = .ok ((), b')) :
    b'.bootMap = b.bootMap := by
  obtain ⟨_, b₁, h₁, ha⟩ := bind_ok.mp h
  obtain ⟨-, rfl⟩ := initAssert_ok h₁
  obtain ⟨_, b₂, h₂, hb⟩ := bind_ok.mp ha
  obtain ⟨-, rfl⟩ := initAssert_ok h₂
  obtain rfl := (Prod.mk.inj (Except.ok.inj hb)).2
  rfl

theorem clip_le (n : Nat) : PhysmemInit.clip n ≤ PAGE_COUNT - 1 := by
  rw [PhysmemInit.clip]
  split_ifs with h
  · exact Nat.le_refl _
  · rw [PhysmemInit.PAGE_COUNT] at h
    rw [PAGE_COUNT]
    omega

theorem physMemProtectBootEntry_guarded {addr length : Nat} (hg : Guarded b l)
    (h : physMemProtectBootEntry addr length b = .ok ((), b')) : ∃ l', Guarded b' l' := by
  obtain ⟨_, b₁, h₁, ha⟩ := bind_ok.mp h
  obtain ⟨hle, rfl⟩ := initAssert_ok h₁
  obtain ⟨_, b₂, h₂, hb⟩ := bind_ok.mp ha
  obtain ⟨l', hrep, hinserted⟩ := insertBootMap_guarded hg hle (clip_le _) h₂
  refine ⟨l', ?_, hinserted.separate, hinserted.stop _ (clip_le _) hg.stop, fun n hn => ?_⟩
  · rw [physMemSetMemoryBits_bootMap hb]
    exact hrep
  · rw [PhysmemInit.physMemSetMemoryBits_ok hb n, PhysmemInit.insertBootMap_ok h₂,
      Nat.add_sub_cancel' hle]
    split_ifs with hnew
    · rfl
    · exact hg.marked n (((hinserted.covers n).mp hn).resolve_right hnew)

/-- What a step does to the boot map and to the bitmap. -/
def KeepsGuard (b b' : BootState) : Prop := ∀ l, Guarded b l → ∃ l', Guarded b' l'

theorem KeepsGuard.trans {b₁ b₂ b₃ : BootState} (h : KeepsGuard b₁ b₂) (h' : KeepsGuard b₂ b₃) :
    KeepsGuard b₁ b₃ := by
  intro l hl
  obtain ⟨l₂, hl₂⟩ := h l hl
  exact h' l₂ hl₂

theorem keepsGuard_refl (b : BootState) : KeepsGuard b b := fun l hl => ⟨l, hl⟩

theorem keeps_bind_guard {α β : Type} {m : Init α} {f : α → Init β} (hm : Keeps KeepsGuard m)
    (hf : ∀ a, Keeps KeepsGuard (f a)) : Keeps KeepsGuard (m >>= f) :=
  hm.bind (fun _ _ _ h h' => h.trans h') hf

theorem protect_keeps (addr length : Nat) :
    Keeps KeepsGuard (physMemProtectBootEntry addr length) :=
  fun _ _ _ h _ hl => physMemProtectBootEntry_guarded hl h

theorem protectAll_keeps (calls : List (Nat × Nat)) : Keeps KeepsGuard (protectAll calls) := by
  induction calls with
  | nil => exact keeps_pure keepsGuard_refl ()
  | cons call calls ih => exact keeps_bind_guard (protect_keeps call.1 call.2) fun _ => ih

theorem protectModules_keeps (mods_addr n i : Nat) :
    Keeps KeepsGuard (protectModules memory mods_addr n i) := by
  induction n generalizing i with
  | zero => exact keeps_pure keepsGuard_refl ()
  | succ n ih =>
      refine keeps_bind_guard (keeps_ite ?_ (protect_keeps _ _)) fun _ => ih _
      exact keeps_pure keepsGuard_refl ()

theorem protectMods_keeps (info : PhysmemInit.MultibootInfo) :
    Keeps KeepsGuard (protectMods memory info) := by
  refine keeps_ite (keeps_pure keepsGuard_refl ()) ?_
  exact keeps_bind_guard (protect_keeps _ _) fun _ => protectModules_keeps _ _ _

theorem protectCmdline_keeps (fuel : Nat) (info : PhysmemInit.MultibootInfo) :
    Keeps KeepsGuard (protectCmdline memory fuel info) := by
  refine keeps_ite (keeps_pure keepsGuard_refl ()) (keeps_bind_guard ?_ fun _ => protect_keeps _ _)
  intro b n b' h
  rw [(PhysmemInit.stringLength_ok h).1]
  exact keepsGuard_refl b

def SameBootMap (b b' : BootState) : Prop := b'.bootMap = b.bootMap

theorem sameBootMap_refl (b : BootState) : SameBootMap b b := rfl

theorem freeEntry_bootMap (e : PhysmemInit.MemoryMapEntry) :
    Keeps SameBootMap (PhysmemInit.freeEntry e) := by
  refine keeps_ite (keeps_pure sameBootMap_refl ()) ?_
  refine keeps_ite (keeps_pure sameBootMap_refl ()) ?_
  refine keeps_ite (keeps_pure sameBootMap_refl ()) fun b _ b' h => ?_
  exact physMemSetMemoryBits_bootMap h

theorem memoryMapLoop_bootMap (mmap_addr mmap_length fuel offset : Nat) :
    Keeps SameBootMap
      (PhysmemInit.memoryMapLoop memory mmap_addr mmap_length fuel offset) := by
  induction fuel generalizing offset with
  | zero => exact keeps_throw _
  | succ fuel ih =>
      refine keeps_ite ?_ (keeps_pure sameBootMap_refl ())
      exact (freeEntry_bootMap _).bind (fun _ _ _ h h' => h'.trans h) fun _ => ih _

/-- The memory map is read before anything is protected. -/
theorem physMemInit_guarded {fuel kernelBegin kernelSize bootInfo : Nat}
    (hempty : b.bootMap = emptyBootMap)
    (h : physMemInit memory fuel kernelBegin kernelSize bootInfo b = .ok ((), b')) :
    ∃ l, Guarded b' l := by
  obtain ⟨_, b₁, h₁, ha⟩ := bind_ok.mp h
  obtain ⟨-, rfl⟩ := initAssert_ok h₁
  obtain ⟨_, b₂, h₂, hb⟩ := bind_ok.mp ha
  obtain ⟨-, rfl⟩ := initAssert_ok h₂
  obtain ⟨_, b₃, h₃, hc⟩ := bind_ok.mp hb
  obtain rfl := (Prod.mk.inj (Except.ok.inj h₃)).2
  obtain ⟨_, b₄, h₄, hd⟩ := bind_ok.mp hc
  obtain ⟨-, rfl⟩ := initAssert_ok h₄
  obtain ⟨_, b₅, h₅, he⟩ := bind_ok.mp hd
  have hempty₅ : b₅.bootMap = emptyBootMap := (memoryMapLoop_bootMap _ _ _ _ _ _ _ h₅).trans hempty
  refine keeps_bind_guard (protect_keeps _ _) (fun _ => ?_) _ _ _ he [] (guarded_empty hempty₅)
  refine keeps_bind_guard (protect_keeps _ _) fun _ => ?_
  refine keeps_bind_guard (protect_keeps _ _) fun _ => ?_
  exact keeps_bind_guard (protectCmdline_keeps _ _) fun _ => protectMods_keeps _

end

section

/-! The page directory, and the pages of the boot map one after the other. -/

/-- Nothing but the bitmap was set up yet. -/
structure Unstarted (s : Machine) : Prop where
  enabled : s.pagingEnabled = false
  extra : ∀ i, s.physMemExtra i = none
  info : ∀ f, s.extraInfo f = .zero
  processes : ∀ pid, s.process pid = {}

/-- The entry of a page which is mapped to itself. -/
def bootEntry (n : Nat) : PagingEntry := ⟨true, true, false, 0, n⟩

/-- The references which the entries of these pages still have to take over. -/
def awaited (pages : List Nat) : Nat → ℤ := fun f => if f ∈ pages then 1 else 0

/-- Frames which are reserved for other reasons. -/
def otherwise (s : Machine) (pages : List Nat) : Nat → Nat :=
  fun f => if used s f ∧ f ∉ pages then 1 else 0

theorem awaited_cons {n : Nat} {pages : List Nat} (hn : n ∉ pages) :
    awaited (n :: pages) = awaited pages + due (some n) := by
  funext f
  rw [Pi.add_apply, awaited, awaited, due]
  rcases eq_or_ne f n with rfl | hne
  · simp [hn]
  · simp [hne, hne.symm]

theorem awaited_nil : awaited [] = 0 := by
  funext f
  simp [awaited]

variable {s s' : Machine} {slack : Nat → Nat} {pages todo done : List Nat} {d n : Nat}

theorem startDirectory_kernel (page : Nat) : (Machine.startDirectory s d).kernel page =
    if page = KERNEL_DIR then ⟨true, true, false, 0, d⟩ else .zero := rfl

theorem structured_start (hs : Unstarted s) : Structured (Machine.startDirectory s d) := by
  have hdir : KERNEL_DIR = KERNEL_PAGE + KERNEL_DIR_ENTRY := by decide
  have hhome : ∀ r, home (Machine.startDirectory s d) r = none := by
    intro r
    cases r with
    | extra i => exact hs.extra i
    | directory pid => rw [home, show (Machine.startDirectory s d).process pid = {} from
        hs.processes pid]
    | table pid i => rw [home, show (Machine.startDirectory s d).process pid = {} from
        hs.processes pid]
  refine ⟨⟨?_, ?_, ?_⟩, fun i hi => Or.inl ⟨?_, fun page hpage => ?_⟩, fun r k hr => ?_,
    fun r r' k hr => ?_, fun pid => ?_⟩
  · rw [startDirectory_kernel, if_pos hdir.symm]
  · rw [startDirectory_kernel, if_pos hdir.symm]
  · rw [startDirectory_kernel, if_pos hdir.symm]
    change d = Function.update s.kernelTable KERNEL_DIR_ENTRY d KERNEL_DIR_ENTRY
    rw [Function.update_self]
  · rw [startDirectory_kernel, if_neg (by omega)]
  · rw [startDirectory_kernel, if_neg]
    rintro rfl
    have : KERNEL_DIR / PAGETABLE_COUNT = KERNEL_DIR_ENTRY := by decide
    omega
  · rw [hhome] at hr
    cases hr
  · rw [hhome] at hr
    cases hr
  · rw [show (Machine.startDirectory s d).process pid = {} from hs.processes pid]
    exact ⟨fun _ _ => rfl, by simp, fun h => (h rfl).elim, fun _ _ _ => rfl⟩

theorem names_start (hs : Unstarted s) (place : Place) :
    names (Machine.startDirectory s d) place =
      if place = .kernel KERNEL_DIR then some d else none := by
  have hprocess : ∀ pid, (Machine.startDirectory s d).process pid = {} := hs.processes
  cases place with
  | kernel page =>
      rw [names, Machine.translate, startDirectory_kernel, startDirectory_kernel]
      rcases eq_or_ne page KERNEL_DIR with rfl | hne
      · rw [if_pos rfl,
          if_pos (show KERNEL_PAGE + KERNEL_DIR / PAGETABLE_COUNT = KERNEL_DIR by decide),
          if_pos rfl]
        rfl
      · have hplace : Place.kernel page ≠ .kernel KERNEL_DIR := by simpa using hne
        rw [if_neg hne, if_neg hplace]
        simp [PagingEntry.zero]
  | directory pid i => simp [names, hprocess]
  | table pid page => simp [names, mapping, hprocess]

theorem tally_start (hs : Unstarted s) (f : Nat) :
    tally (names (Machine.startDirectory s d)) f = if f = d then 1 else 0 := by
  have hset : {place | names (Machine.startDirectory s d) place = some f} =
      if f = d then {.kernel KERNEL_DIR} else ∅ := by
    ext place
    rw [Set.mem_ofPred_eq, names_start hs]
    split_ifs with hplace hf hf
    · simp [hplace, hf]
    · simp [Ne.symm hf]
    · simp [hplace]
    · simp
  rw [tally, hset]
  split_ifs
  · exact Set.ncard_singleton _
  · exact Set.ncard_empty _

end

section

variable {s s' : Machine} {slack : Nat → Nat} {pages todo done : List Nat} {d n : Nat}

/-- The page directory is there, and all frames of the boot map wait for their entries. -/
theorem inv_start (hs : Unstarted s) (hnew : ∀ f, s.handedOut f = false)
    (hpages : ∀ n ∈ pages, used s n = true) (hd : used s d = false) :
    Inv (otherwise s pages) (awaited pages)
      (Machine.startDirectory ((s.setBit d true).handOut d) d) := by
  have hs' : Unstarted ((s.setBit d true).handOut d) :=
    ⟨hs.enabled, hs.extra, hs.info, hs.processes⟩
  have hused : ∀ f, used (Machine.startDirectory ((s.setBit d true).handOut d) d) f =
      if f = d then true else used s f := fun f => used_setBit s d f true
  have hinfo : ∀ f, (Machine.startDirectory ((s.setBit d true).handOut d) d).extraInfo f = .zero :=
    hs.info
  have hdirectory : d ∉ pages := by
    intro hmem
    rw [hpages d hmem] at hd
    cases hd
  have hbalance : ∀ f, (refs (Machine.startDirectory ((s.setBit d true).handOut d) d) f : ℤ) =
      (if f = d then 1 else 0 : Nat) + awaited pages f + otherwise s pages f := by
    intro f
    rw [refs, hused, refCount, if_pos (hinfo f), awaited, otherwise]
    rcases eq_or_ne f d with rfl | hne
    · simp [hd, hdirectory]
    · rcases Classical.em (f ∈ pages) with hmem | hmem
      · simp [hne, hmem, hpages f hmem]
      · rcases hf : used s f with _ | _ <;> simp [hne, hmem]
  refine ⟨structured_start hs', ⟨fun f _ => hinfo f, fun f _ => hinfo f,
    fun f hf => (hf (hinfo f)).elim⟩, ?_, fun f => ?_, fun f => ?_, fun f hf => ?_⟩
  · refine (Set.finite_singleton (Place.kernel KERNEL_DIR)).subset fun place hplace => ?_
    rw [Set.mem_ofPred_eq, names_start hs'] at hplace
    by_contra hne
    exact hplace (if_neg hne)
  · rw [awaited]
    split <;> omega
  · rw [tally_start hs']
    exact hbalance f
  · change Function.update s.handedOut d true f = true at hf
    rcases eq_or_ne f d with rfl | hne
    · simp [otherwise, hd]
    · rw [Function.update_of_ne hne, hnew] at hf
      cases hf

/-- The pages in `done` are mapped to themselves, those in `todo` are not mapped yet. -/
structure Booting (slack : Nat → Nat) (todo done : List Nat) (s : Machine) : Prop where
  inv : Inv slack (awaited todo) s
  kernel : ∀ n, n < KERNEL_PAGE → s.kernel n = if n ∈ done then bootEntry n else .zero
  extra : ∀ i, s.physMemExtra i = none
  processes : ∀ pid, s.process pid = {}

theorem mapBootPage_proceeds (h : Booting slack (n :: todo) done s) (hpos : n ≠ 0)
    (hlt : n < KERNEL_PAGE) (htodo : n ∉ todo) (hdone : n ∉ done) :
    Proceeds (pagingMapPhysMem n (n * PAGE_SIZE) true false) s fun _ s' =>
      Booting slack todo (n :: done) s' := by
  have haddr := pageOf_mul (kernel_lt hlt)
  have hinv := h.inv
  rw [awaited_cons htodo] at hinv
  have hzero : s.kernel n = .zero := by
    rw [h.kernel n hlt, if_neg hdone]
  have hne : n * PAGE_SIZE ≠ 0 := by
    simp only [PAGE_SIZE]
    omega
  rw [pagingMapPhysMem, if_pos hne, haddr]
  refine yields_ok_bind (check_ok (by simpa using hpos)) ?_
  refine (proceeds_and (getKernelEntry_proceeds hinv (kernel_lt hlt) true)
    (getKernelEntry_spec hinv (kernel_lt hlt) true)).bind ?_
  rintro r s₁ ⟨⟨-, hunused⟩, h₁, hg, hextra, hmapped, hr, -⟩
  have hm := hmapped (hr rfl)
  have hzero₁ : s₁.kernel n = .zero := hunused n hlt hzero
  refine yields_ok_bind (h₁.structured.loadEntry_ok (kernel_lt hlt) hm) ?_
  rw [if_neg (by rw [Machine.entry, hzero₁]; exact not_not.mpr rfl)]
  refine yields_ok_bind (h₁.structured.storeEntry_ok (kernel_lt hlt) hm _) (yields_pure ?_)
  refine ⟨inv_fill true false h₁ hlt hm hzero₁, fun q hq => ?_, fun i => ?_, fun pid => ?_⟩
  · change Function.update s₁.kernel n (bootEntry n) q = _
    rcases eq_or_ne q n with rfl | hqn
    · rw [Function.update_self, if_pos List.mem_cons_self]
    · rw [Function.update_of_ne hqn]
      simp only [List.mem_cons, hqn, false_or]
      split_ifs with hmem
      · have hold := h.kernel q hq
        rw [if_pos hmem] at hold
        rw [hg.kernel q (by rw [hold]; simp [bootEntry, PagingEntry.zero]), hold]
      · refine hunused q hq ?_
        rw [h.kernel q hq, if_neg hmem]
  · change s₁.physMemExtra i = none
    rw [hextra]
    exact h.extra i
  · change s₁.process pid = {}
    rw [hg.process]
    exact h.processes pid

end

section

variable {s s' : Machine} {slack : Nat → Nat} {pages todo done : List Nat} {n : Nat}

/-- The pages of the entries in the order in which they are mapped. -/
def pagesOf (entries : List Paging.BootMapEntry) : List Nat :=
  entries.flatMap fun e => List.range' e.startIndex e.length

/-- Pages which can be mapped one after the other. -/
structure Mappable (todo done : List Nat) : Prop where
  nodup : todo.Nodup
  apart : ∀ n ∈ todo, n ∉ done
  pos : ∀ n ∈ todo, n ≠ 0
  lt : ∀ n ∈ todo, n < KERNEL_PAGE

theorem Mappable.tail (h : Mappable (n :: todo) done) : Mappable todo (n :: done) := by
  obtain ⟨hn, hnodup⟩ := List.nodup_cons.mp h.nodup
  refine ⟨hnodup, fun q hq hmem => ?_, fun q hq => h.pos q (List.mem_cons_of_mem _ hq),
    fun q hq => h.lt q (List.mem_cons_of_mem _ hq)⟩
  rcases List.mem_cons.mp hmem with rfl | hmem
  · exact hn hq
  · exact h.apart q (List.mem_cons_of_mem _ hq) hmem

theorem mapBootPages_proceeds {length index : Nat}
    (h : Booting slack (List.range' index length ++ todo) done s)
    (hmap : Mappable (List.range' index length ++ todo) done) :
    Proceeds (mapBootPages length index) s fun _ s' => ∃ done',
      Booting slack todo done' s' ∧ Mappable todo done' ∧
        ∀ n, n ∈ done' ↔ n ∈ done ∨ n ∈ List.range' index length := by
  induction length generalizing s index done with
  | zero => exact yields_pure ⟨done, h, hmap, by simp⟩
  | succ length ih =>
      rw [List.range'_succ, List.cons_append] at h hmap
      rw [mapBootPages]
      refine (mapBootPage_proceeds h (hmap.pos _ List.mem_cons_self) (hmap.lt _ List.mem_cons_self)
        (List.nodup_cons.mp hmap.nodup).1 (hmap.apart _ List.mem_cons_self)).bind ?_
      intro _ s₁ h₁
      refine (ih h₁ hmap.tail).mono ?_
      rintro _ s' ⟨done', h', hmap', hmem⟩
      refine ⟨done', h', hmap', fun q => ?_⟩
      rw [hmem, List.range'_succ, List.mem_cons, List.mem_cons, or_assoc, or_left_comm]

theorem mapBootEntries_proceeds {entries : List Paging.BootMapEntry}
    (h : Booting slack (pagesOf entries) done s) (hmap : Mappable (pagesOf entries) done) :
    Proceeds (mapBootEntries entries) s fun _ s' => ∃ done',
      Booting slack [] done' s' ∧ ∀ n, n ∈ done' ↔ n ∈ done ∨ n ∈ pagesOf entries := by
  induction entries generalizing s done with
  | nil => exact yields_pure ⟨done, h, by simp [pagesOf]⟩
  | cons e es ih =>
      rw [pagesOf, List.flatMap_cons] at h hmap
      rw [mapBootEntries]
      refine (mapBootPages_proceeds h hmap).bind ?_
      rintro _ s₁ ⟨done₁, h₁, hmap₁, hmem₁⟩
      refine (ih h₁ hmap₁).mono ?_
      rintro _ s' ⟨done', h', hmem⟩
      refine ⟨done', h', fun q => ?_⟩
      rw [hmem, hmem₁, pagesOf, pagesOf, List.flatMap_cons, List.mem_append, or_assoc]

/-- The state in which the pages are marked: the boot map is complete, and whatever else is
mapped is a table of records. -/
structure Booted (slack : Nat → Nat) (pages : List Nat) (s : Machine) : Prop where
  inv : Inv slack 0 s
  enabled : s.pagingEnabled = true
  boot : ∀ n ∈ pages, s.kernel n = bootEntry n
  null : s.kernel 0 = .zero
  other : ∀ n, n < KERNEL_PAGE → s.kernel n ≠ .zero →
    n ∈ pages ∨ ∃ i, s.physMemExtra i = some n
  extra : ∀ i k, s.physMemExtra i = some k → k ∉ pages
  refs : ∀ n ∈ pages, used s n = true ∧ refs s n = 1
  processes : ∀ pid, s.process pid = {}

theorem bootEntry_ne_zero (n : Nat) : bootEntry n ≠ .zero := by
  simp [bootEntry, PagingEntry.zero]

/-- Tables of records may be added, and the counts stay as they are. -/
theorem Booted.mono (h : Booted slack pages s) (h' : Inv slack 0 s') (hg : KernelGrows s s')
    (hsteady : Steady s s') (honly : OnlyRecords s s') : Booted slack pages s' := by
  have hextra : ∀ i k, s'.physMemExtra i = some k → s.physMemExtra i = some k ∨
    s.kernel k = .zero :=
    fun i k hk => hg.fresh (.extra i) k hk
  refine ⟨h', hsteady.enabled.trans h.enabled, fun n hn => ?_, ?_, fun n hn hne => ?_,
    fun i k hk hmem => ?_, fun n hn => ?_, fun pid => ?_⟩
  · rw [hg.kernel n (by rw [h.boot n hn]; exact bootEntry_ne_zero n), h.boot n hn]
  · exact (honly 0 (by decide) h.null).resolve_right fun hrecord => hrecord.1 rfl
  · rcases Classical.em (s.kernel n = .zero) with hzero | hold
    · exact Or.inr ((honly n hn hzero).resolve_left hne).2
    · rcases h.other n hn hold with hmem | ⟨i, hi⟩
      · exact Or.inl hmem
      · exact Or.inr ⟨i, hg.homes (.extra i) n hi⟩
  · rcases hextra i k hk with hold | hzero
    · exact h.extra i k hold hmem
    · rw [h.boot k hmem] at hzero
      exact bootEntry_ne_zero k hzero
  · obtain ⟨hused, hone⟩ := h.refs n hn
    exact ⟨hsteady.used n hused, (hsteady.refs n hused).trans hone⟩
  · rw [hg.process]
    exact h.processes pid

theorem markPage_proceeds (h : Booted slack pages s) (hn : n ∈ pages) (hlt : n < PAGE_COUNT) :
    Proceeds (physMemMarkUnpageable n) s fun _ s' => Booted slack pages s' := by
  obtain ⟨hused, -⟩ := h.refs n hn
  rw [physMemMarkUnpageable]
  refine (proceeds_and (getPhysMemExtraInfo_proceeds h.inv h.enabled hlt (missing_lt s))
    (getPhysMemExtraInfo_spec h.inv n true fun _ => missing_lt s)).bind ?_
  rintro r s₁ ⟨⟨rfl, hsteady, honly⟩, h₁, hg, hx, -⟩
  have hbooted := h.mono h₁ hg hsteady honly
  refine yields_ok_bind (check_ok rfl) ?_
  refine (proceeds_and (markRecord_proceeds h₁ (hx rfl) (hsteady.used n hused))
    (markRecord_spec h₁ (hx rfl) (hsteady.used n hused))).bind ?_
  rintro _ s₂ ⟨⟨hsteady₂, hkernel, -⟩, h₂, hg₂, -⟩
  refine yields_pure (hbooted.mono h₂ hg₂ hsteady₂ fun q hq hzero => Or.inl ?_)
  rw [hkernel]
  exact hzero

theorem markBootPages_proceeds {length index : Nat} (h : Booted slack pages s)
    (hpages : ∀ n ∈ List.range' index length, n ∈ pages) (hlt : ∀ n ∈ pages, n < PAGE_COUNT) :
    Proceeds (markBootPages length index) s fun _ s' => Booted slack pages s' := by
  induction length generalizing s index with
  | zero => exact yields_pure h
  | succ length ih =>
      rw [List.range'_succ] at hpages
      have hn := hpages index List.mem_cons_self
      rw [markBootPages]
      refine (markPage_proceeds h hn (hlt index hn)).bind fun _ s₁ h₁ => ?_
      exact ih h₁ fun n hn => hpages n (List.mem_cons_of_mem _ hn)

theorem markBootEntries_proceeds {entries : List Paging.BootMapEntry} (h : Booted slack pages s)
    (hpages : ∀ n ∈ pagesOf entries, n ∈ pages) (hlt : ∀ n ∈ pages, n < PAGE_COUNT) :
    Proceeds (markBootEntries entries) s fun _ s' => Booted slack pages s' := by
  induction entries generalizing s with
  | nil => exact yields_pure h
  | cons e es ih =>
      rw [pagesOf, List.flatMap_cons] at hpages
      rw [markBootEntries]
      refine (markBootPages_proceeds h (fun n hn => hpages n (List.mem_append_left _ hn)) hlt).bind
        ?_
      exact fun _ s₁ h₁ => ih h₁ fun n hn => hpages n (List.mem_append_right _ hn)

end

section

variable {s s' : Machine} {slack : Nat → Nat} {pages done : List Nat} {n : Nat}

/-- Paging is enabled. -/
theorem Booting.booted (h : Booting slack [] done s) (hmem : ∀ n, n ∈ done ↔ n ∈ pages)
    (hpos : ∀ n ∈ pages, n ≠ 0) (hlt : ∀ n ∈ pages, n < KERNEL_PAGE) :
    Booted slack pages { s with pagingEnabled := true } := by
  have hinv := h.inv
  rw [awaited_nil] at hinv
  have hinv' : Inv slack 0 { s with pagingEnabled := true } := by
    refine hinv.of_sameTables (by constructor <;> rfl) ⟨hinv.recorded.unused,
      hinv.recorded.missing, hinv.recorded.present⟩ hinv.handedOut hinv.nonneg fun f => ?_
    rw [show refs { s with pagingEnabled := true } f = refs s f from rfl]
    omega
  have hboot : ∀ n ∈ pages, s.kernel n = bootEntry n := fun n hn => by
    rw [h.kernel n (hlt n hn), if_pos ((hmem n).mpr hn)]
  refine ⟨hinv', rfl, hboot, ?_, fun n hn hne => Or.inl ?_, fun i k hk => ?_, fun n hn => ?_,
    h.processes⟩
  · refine (h.kernel 0 (by decide)).trans (if_neg fun hzero => ?_)
    exact hpos 0 ((hmem 0).mp hzero) rfl
  · by_contra hnot
    refine hne ((h.kernel n hn).trans (if_neg fun hin => ?_))
    exact hnot ((hmem n).mp hin)
  · rw [show ({ s with pagingEnabled := true } : Machine).physMemExtra i =
      none from h.extra i] at hk
    cases hk
  · have hne : s.kernel n ≠ .zero := by
      rw [hboot n hn]
      exact bootEntry_ne_zero n
    have hname : names s (.kernel n) = some n := by
      rw [names, if_pos (kernel_lt (hlt n hn)),
        translate_of_ready (ready_of_ne_zero hinv.structured (hlt n hn) hne), hboot n hn]
      rfl
    have hone := hinv.refs_pos hname le_rfl
    have hused := (refs_pos_iff hinv.recorded).mp hone
    refine ⟨hused, ?_⟩
    change refs s n = 1
    rw [refs, if_pos hused, refCount, if_pos (hinv.recorded.missing n (h.extra _))]

/-- What the kernel relies on when paging is switched on. -/
structure Mirrors (boot : Nat → Prop) (s : Machine) : Prop where
  enabled : s.pagingEnabled = true
  identity : ∀ n, boot n → s.translate n = some n ∧ (s.kernel n).rw = true ∧
    (s.kernel n).user = false
  null : s.translate 0 = none
  records : ∀ n, n < KERNEL_PAGE → s.translate n ≠ none → boot n ∨ ∃ i, s.physMemExtra i = some n
  tables : ∀ i f, i ≤ KERNEL_DIR_ENTRY → s.translate (KERNEL_PAGE + i) = some f →
    f = s.kernelTable i ∧ ¬boot f
  extras : ∀ i k, s.physMemExtra i = some k → ¬boot (s.extraFrame i)

theorem Booted.mirrors (h : Booted slack pages s) (hlt : ∀ n ∈ pages, n < KERNEL_PAGE)
    (hslack : ∀ n ∈ pages, slack n = 0) : Mirrors (· ∈ pages) s := by
  have hs := h.inv.structured
  have htranslate : ∀ n ∈ pages, s.translate n = some n := by
    intro n hn
    have hne : s.kernel n ≠ .zero := by
      rw [h.boot n hn]
      exact bootEntry_ne_zero n
    rw [translate_of_ready (ready_of_ne_zero hs (hlt n hn) hne), h.boot n hn]
    rfl
  have hnull : ∀ n, s.kernel n = .zero → s.translate n = none := by
    intro n hzero
    simp [Machine.translate, hzero, PagingEntry.zero]
  -- A frame of the boot map has one reference, so nothing else names it.
  have hunique : ∀ n ∈ pages, ∀ k, k < PAGE_COUNT → s.translate k = some n → k = n := by
    intro n hn k hk hkn
    have htally : tally (names s) n = 1 := by
      have hbalance := h.inv.balance n
      rw [(h.refs n hn).2, hslack n hn, Pi.zero_apply] at hbalance
      push_cast at hbalance
      omega
    have hname : names s (.kernel n) = some n := by
      rw [names, if_pos (kernel_lt (hlt n hn)), htranslate n hn]
    have hname' : names s (.kernel k) = some n := by
      rw [names, if_pos hk, hkn]
    exact Place.kernel.inj (eq_of_tally_eq_one h.inv.finite htally hname' hname)
  refine ⟨h.enabled, fun n hn => ⟨htranslate n hn, ?_, ?_⟩, hnull 0 h.null, fun n hn hne => ?_,
    fun i f hi hf => ⟨?_, fun hmem => ?_⟩, fun i k hk hmem => ?_⟩
  · rw [h.boot n hn]
    rfl
  · rw [h.boot n hn]
    rfl
  · exact h.other n hn fun hzero => hne (hnull n hzero)
  · have hready : TableReady s i := by
      rcases hi.lt_or_eq with hi | rfl
      · rcases hs.tables i hi with hmissing | hready
        · rw [hnull _ hmissing.directory] at hf
          cases hf
        · exact hready
      · exact hs.self
    have hbound : i < PAGETABLE_COUNT := by
      simp only [KERNEL_DIR_ENTRY, PAGETABLE_COUNT] at *
      omega
    rw [hs.translate_table hbound hready] at hf
    exact (Option.some.inj hf).symm
  · have := hunique f hmem (KERNEL_PAGE + i) ?_ hf
    · have := hlt f hmem
      omega
    · simp only [KERNEL_PAGE, PAGE_COUNT, KERNEL_DIR_ENTRY] at *
      omega
  · obtain ⟨hlt', htrans, -⟩ := hs.homes (.extra i) k hk
    have := hunique _ hmem k (kernel_lt hlt') htrans
    rw [← this] at hmem
    exact h.extra i k hk hmem

end

section

variable {s s' : Machine} {l : List (Stretch Nat)} {n : Nat}

def entriesOf (l : List (Stretch Nat)) : List Paging.BootMapEntry :=
  l.map fun i => ⟨i.start, i.stop - i.start⟩

/-- The entries of the boot map as `pagingInit` reads them, where an entry ends at the 32 bits
of `startIndex + length`. -/
def bootEntries (m : BootMap) : List Paging.BootMapEntry := entriesOf m.intervals

theorem pagesOf_cons (i : Stretch Nat) (l : List (Stretch Nat)) : pagesOf (entriesOf (i :: l)) =
    List.range' i.start (i.stop - i.start) ++ pagesOf (entriesOf l) := by
  rw [entriesOf, List.map_cons, pagesOf, List.flatMap_cons]
  rfl

theorem mem_range {i : Stretch Nat} :
    n ∈ List.range' i.start (i.stop - i.start) ↔ i.start ≤ n ∧ n < i.stop := by
  rw [List.mem_range'_1]
  omega

theorem mem_pagesOf : n ∈ pagesOf (entriesOf l) ↔ Covers l n := by
  induction l with
  | nil => simp [entriesOf, pagesOf]
  | cons i l ih => rw [pagesOf_cons, List.mem_append, ih, covers_cons, mem_range]

theorem nodup_pagesOf (h : Separate l) : (pagesOf (entriesOf l)).Nodup := by
  induction l with
  | nil => exact List.nodup_nil
  | cons i l ih =>
      obtain ⟨-, hafter, hl⟩ := separate_cons_iff.mp h
      rw [pagesOf_cons, List.nodup_append]
      refine ⟨List.nodup_range', ih hl, ?_⟩
      rintro n hn _ hmem rfl
      obtain ⟨j, hj, hstart, -⟩ := mem_pagesOf.mp hmem
      have := hafter j hj
      have := (mem_range.mp hn).2
      omega

/-- Nothing is found only if none of the pages is covered. The loop may stop early because the
entries are sorted. -/
theorem not_covers_of_check {startIndex stopIndex : Nat} (h : Separate l)
    (hcheck : Paging.pagingBootMapCheck startIndex stopIndex (entriesOf l) = false)
    (hstart : startIndex ≤ n) (hstop : n < stopIndex) : ¬Covers l n := by
  induction l with
  | nil => exact not_covers_nil
  | cons i l ih =>
      obtain ⟨hi, hafter, hl⟩ := separate_cons_iff.mp h
      have hcheck : (if stopIndex ≤ i.start then false
          else if i.start + (i.stop - i.start) ≤ startIndex then
            Paging.pagingBootMapCheck startIndex stopIndex (entriesOf l)
          else true) = false := hcheck
      rintro hn
      rcases covers_cons.mp hn with hn | hn
      · split_ifs at hcheck <;> omega
      · split_ifs at hcheck with hbefore hskip
        · obtain ⟨j, hj, hjn, -⟩ := hn
          have := hafter j hj
          omega
        · exact ih hl hcheck hn

theorem mappable_of_checks (h : Separate l) (hbound : ∀ i ∈ l, i.stop ≤ PAGE_COUNT - 1)
    (hlow : Paging.pagingBootMapCheck 0 1 (entriesOf l) = false)
    (hhigh : Paging.pagingBootMapCheck KERNEL_PAGE (PAGE_COUNT - 1) (entriesOf l) = false) :
    Mappable (pagesOf (entriesOf l)) [] := by
  refine ⟨nodup_pagesOf h, fun _ _ => List.not_mem_nil, fun n hn => ?_, fun n hn => ?_⟩
  · rintro rfl
    exact not_covers_of_check h hlow le_rfl (by decide) (mem_pagesOf.mp hn)
  · have hcovers := mem_pagesOf.mp hn
    by_contra hge
    obtain ⟨i, hi, -, hlt⟩ := hcovers
    exact not_covers_of_check h hhigh (Nat.not_lt.mp hge) (hlt.trans_le (hbound i hi))
      (mem_pagesOf.mp hn)

/-- The references are those of the entries, and the tables are where they belong. -/
theorem pagingInit_booted (hs : Unstarted s) (hnew : ∀ f, s.handedOut f = false)
    (hmap : Mappable (pagesOf (entriesOf l)) []) (hused : ∀ n, Covers l n → used s n = true)
    (hlow : Paging.pagingBootMapCheck 0 1 (entriesOf l) = false)
    (hhigh : Paging.pagingBootMapCheck KERNEL_PAGE (PAGE_COUNT - 1) (entriesOf l) = false) :
    Proceeds (pagingInit (entriesOf l)) s fun _ s' =>
      Booted (otherwise s (pagesOf (entriesOf l))) (pagesOf (entriesOf l)) s' := by
  have hpages : ∀ n ∈ pagesOf (entriesOf l), used s n = true := fun n hn =>
    hused n (mem_pagesOf.mp hn)
  rw [pagingInit]
  refine yields_ok_bind (check_ok (by rw [hlow]; rfl)) ?_
  refine yields_ok_bind (check_ok (by rw [hhigh]; rfl)) ?_
  refine (proceeds_and (allocLoop_proceeds false _) allocLoop_spec).bind ?_
  rintro d s₁ ⟨-, rfl, hd, -⟩
  refine yields_modify_bind
    ((mapBootEntries_proceeds ⟨inv_start hs hnew hpages hd, ?_, hs.extra, hs.processes⟩
    hmap).bind ?_)
  · intro n hn
    rw [startDirectory_kernel, if_neg, if_neg List.not_mem_nil]
    rintro rfl
    exact absurd hn (by decide)
  rintro _ s₂ ⟨done, hbooting, hmem⟩
  have hdone : ∀ n, n ∈ done ↔ n ∈ pagesOf (entriesOf l) := by simpa using hmem
  have hbooted := hbooting.booted hdone hmap.pos hmap.lt
  exact yields_modify_bind (markBootEntries_proceeds hbooted (fun _ hn => hn) fun n hn =>
    kernel_lt (hmap.lt n hn))

theorem pagingInit_proceeds (hs : Unstarted s) (hnew : ∀ f, s.handedOut f = false)
    (hl : Separate l) (hbound : ∀ i ∈ l, i.stop ≤ PAGE_COUNT - 1)
    (hused : ∀ n, Covers l n → used s n = true)
    (hlow : Paging.pagingBootMapCheck 0 1 (entriesOf l) = false)
    (hhigh : Paging.pagingBootMapCheck KERNEL_PAGE (PAGE_COUNT - 1) (entriesOf l) = false) :
    Proceeds (pagingInit (entriesOf l)) s fun _ s' => Mirrors (Covers l) s' := by
  have hmap := mappable_of_checks hl hbound hlow hhigh
  refine (pagingInit_booted hs hnew hmap hused hlow hhigh).mono fun _ s' h' => ?_
  have hmirrors := h'.mirrors hmap.lt fun n hn => if_neg fun hnot => hnot.2 hn
  refine ⟨hmirrors.enabled, fun n hn => hmirrors.identity n (mem_pagesOf.mpr hn), hmirrors.null,
    fun n hn hne => (hmirrors.records n hn hne).imp_left mem_pagesOf.mp, fun i f hi hf => ?_,
    fun i k hk hn => hmirrors.extras i k hk (mem_pagesOf.mpr hn)⟩
  obtain ⟨hframe, hnot⟩ := hmirrors.tables i f hi hf
  exact ⟨hframe, fun hn => hnot (mem_pagesOf.mpr hn)⟩

/-- The array is checked like the list of its entries. -/
theorem bootMapCheckLoop_entriesOf {m : BootMap} (pre rest : List (Stretch Nat))
    (h : Represents m (pre ++ rest)) (hrest : Separate rest) (startIndex stopIndex : Nat) :
    bootMapCheckLoop m startIndex stopIndex rest.length pre.length =
      .ok (Paging.pagingBootMapCheck startIndex stopIndex (entriesOf rest)) := by
  induction rest generalizing pre with
  | nil => rfl
  | cons it rest ih =>
      obtain ⟨hit, -, hrest'⟩ := separate_cons_iff.mp hrest
      obtain ⟨entry, hload, hentry, hentry'⟩ := h.load
      have hstep : bootMapCheckLoop m startIndex stopIndex (it :: rest).length pre.length =
          if stopIndex ≤ it.start then .ok false
          else if it.stop ≤ startIndex then
            bootMapCheckLoop m startIndex stopIndex rest.length (pre.length + 1)
          else .ok true := by
        rw [← hentry, ← hentry', List.length_cons, bootMapCheckLoop, hload]
        rfl
      have hlist : Paging.pagingBootMapCheck startIndex stopIndex (entriesOf (it :: rest)) =
          if stopIndex ≤ it.start then false
          else if it.start + (it.stop - it.start) ≤ startIndex then
            Paging.pagingBootMapCheck startIndex stopIndex (entriesOf rest)
          else true := rfl
      rw [List.append_cons] at h
      have hnext := ih (pre ++ [it]) h hrest'
      rw [List.length_append, List.length_singleton] at hnext
      rw [hstep, hlist, Nat.add_sub_cancel' hit, hnext]
      split_ifs <;> rfl

theorem check_of_represents {m : BootMap} (h : Represents m l) (hl : Separate l)
    {startIndex stopIndex : Nat}
    (hcheck : BootMaps.pagingBootMapCheck m startIndex stopIndex = .ok false) :
    Paging.pagingBootMapCheck startIndex stopIndex (entriesOf l) = false := by
  have heq := bootMapCheckLoop_entriesOf [] l h hl startIndex stopIndex
  rw [← h.num] at heq
  rw [BootMaps.pagingBootMapCheck] at hcheck
  exact Except.ok.inj (heq.symm.trans hcheck)

/-- Paging is switched on without any change to what the kernel sees of the boot map. -/
theorem pagingInit_mirrors {memory : Nat → UInt8} {fuel kernelBegin kernelSize bootInfo : Nat}
    {b₀ b₁ b : BootState} {calls : List (Nat × Nat)} (hempty : b₀.bootMap = emptyBootMap)
    (hinit : physMemInit memory fuel kernelBegin kernelSize bootInfo b₀ = .ok ((), b₁))
    (hcalls : protectAll calls b₁ = .ok ((), b)) (hs : Unstarted s)
    (hnew : ∀ f, s.handedOut f = false) (hmap : s.physMemMap = b.physMemMap)
    (hlow : BootMaps.pagingBootMapCheck b.bootMap 0 1 = .ok false)
    (hhigh : BootMaps.pagingBootMapCheck b.bootMap KERNEL_PAGE (PAGE_COUNT - 1) = .ok false) :
    Proceeds (pagingInit (bootEntries b.bootMap)) s fun _ s' =>
      Mirrors (Covers b.bootMap.intervals) s' := by
  obtain ⟨l₁, hguarded₁⟩ := physMemInit_guarded hempty hinit
  obtain ⟨l, hguarded⟩ := protectAll_keeps calls _ _ _ hcalls l₁ hguarded₁
  rw [bootEntries, hguarded.represents.intervals_eq]
  refine pagingInit_proceeds hs hnew hguarded.separate hguarded.stop (fun n hn => ?_)
    (check_of_represents hguarded.represents hguarded.separate hlow)
    (check_of_represents hguarded.represents hguarded.separate hhigh)
  have := hguarded.marked n hn
  rw [used, hmap]
  exact this

/-- The machine with a given bitmap before paging is set up. -/
def unstarted (map : Nat → BitVec 32) : Machine where
  pagingEnabled := false
  physMemMap := map
  physMemExtra := fun _ => none
  extraInfo := fun _ => .zero
  extraFrame := fun _ => 0
  kernel := fun _ => .zero
  kernelTable := fun _ => 0
  process := fun _ => {}
  memory := fun _ _ => 0
  holdsTable := fun _ => false
  handedOut := fun _ => false

/-- The calls of `kernel_main`: the video memory and the font. -/
def sampleCalls : List (Nat × Nat) := [(0xA0000, 0x20000), (0x9000, 0x1000)]

def sampleBoot : Init Unit := do
  physMemInit (PhysmemInit.sampleMemory 1) 2 0x100000 0x1000 0x9000
  protectAll sampleCalls

theorem pagingInit_mirrors_sample : ∃ b s', sampleBoot PhysmemInit.sampleState = .ok ((), b) ∧
    pagingInit (bootEntries b.bootMap) (unstarted b.physMemMap) = .ok ((), s') ∧
    Mirrors (Covers b.bootMap.intervals) s' ∧ s'.translate 0xB8 = some 0xB8 := by
  have hruns : (sampleBoot PhysmemInit.sampleState).toOption.map (fun r =>
      ((pagingInit (bootEntries r.2.bootMap) (unstarted r.2.physMemMap)).toOption.map fun r' =>
        r'.2.translate 0xB8, BootMaps.pagingBootMapCheck r.2.bootMap 0 1,
        BootMaps.pagingBootMapCheck r.2.bootMap KERNEL_PAGE (PAGE_COUNT - 1))) =
      some (some (some 0xB8), .ok false, .ok false) := by decide +kernel
  rcases hboot : sampleBoot PhysmemInit.sampleState with e | ⟨u, b⟩
  · rw [hboot] at hruns
    cases hruns
  rw [hboot] at hruns
  obtain ⟨hpaging, hchecks⟩ := Prod.mk.inj (Option.some.inj hruns)
  obtain ⟨hlow, hhigh⟩ := Prod.mk.inj hchecks
  obtain ⟨_, b₁, hinit, hcalls⟩ := bind_ok.mp hboot
  rcases hrun : pagingInit (bootEntries b.bootMap) (unstarted b.physMemMap) with e | ⟨u', s'⟩
  · rw [hrun] at hpaging
    cases hpaging
  rw [hrun] at hpaging
  refine ⟨b, s', rfl, hrun, ?_, Option.some.inj hpaging⟩
  exact (pagingInit_mirrors rfl hinit hcalls ⟨rfl, fun _ => rfl, fun _ => rfl, fun _ => rfl⟩
    (fun _ => rfl) rfl hlow hhigh).of_ok hrun

end

end Ibnos.BootPaging
