import Ibnos.Doubling
import Mathlib.Algebra.BigOperators.Fin
import Mathlib.Algebra.Order.BigOperators.Group.List

/-!
The handle table of a process. The slots are one heap block of `count` object
pointers; an access outside of that block stops the model, so that a run which
does not stop has stayed inside of the block.
-/

namespace Ibnos.Handles

open Ibnos.Doubling

/-- The kinds of kernel objects, one for each table of object functions. -/
inductive ObjectType
  | process | thread | pipe | stdout | event | subEvent | semaphore | timer
  | file | directory | openedFile | openedDirectory
  deriving DecidableEq, Repr

/-- `__objectGetMinHandle`: only pipes and the stdout object define the callback. -/
def objectGetMinHandle : ObjectType → Nat
  | .pipe => 0
  | .stdout => 0
  | _ => 3

theorem objectGetMinHandle_le (k : ObjectType) : objectGetMinHandle k ≤ 3 := by
  cases k <;> decide

def MIN_HANDLES : Nat := 0x100

def MAX_HANDLES : Nat := 0x10000

/-- What stops the code of this module: a failed assertion, or an access to a
slot outside of the allocated block. -/
inductive Fault
  | assertion
  | outOfBounds (index : Nat)
  deriving DecidableEq, Repr

/-- `struct handleTable`. The pointer `handles` is kept as the contents of the
block it points to; the block has `count` slots. -/
structure HandleTable (Obj : Type) where
  count : Nat
  freeBegin : Nat
  freeEnd : Nat
  handles : Nat → Option Obj

variable {Obj : Type}

/-- Read access to `table->handles[i]`. -/
def HandleTable.load (t : HandleTable Obj) (i : Nat) : Except Fault (Option Obj) :=
  if i < t.count then .ok (t.handles i) else .error (.outOfBounds i)

/-- Write access to `table->handles[i]`. -/
def HandleTable.store (t : HandleTable Obj) (i : Nat) (o : Option Obj) :
    Except Fault (HandleTable Obj) :=
  if i < t.count then .ok { t with handles := Function.update t.handles i o }
  else .error (.outOfBounds i)

/-- `heapReAlloc` followed by the `memset` of the new part. A shorter block
loses the slots at its end. -/
def HandleTable.resize (t : HandleTable Obj) (count : Nat) : HandleTable Obj :=
  { t with
    count := count
    handles := fun i => if i < t.count ∧ i < count then t.handles i else none }

def handleTableInit : HandleTable Obj :=
  { count := MIN_HANDLES, freeBegin := 0, freeEnd := 0, handles := fun _ => none }

/-- The loop of `handleForkTable` which copies the first `n` slots. -/
def copySlots (source : HandleTable Obj) :
    Nat → HandleTable Obj → Except Fault (HandleTable Obj)
  | 0, destination => .ok destination
  | n + 1, destination => do
      let destination ← copySlots source n destination
      let o ← source.load n
      destination.store n o

/-- `handleForkTable`. Every object in the result gets one more reference. -/
def handleForkTable (source : HandleTable Obj) : Except Fault (HandleTable Obj) := do
  let count := doubleUntil source.freeEnd MIN_HANDLES source.freeEnd
  if count < source.freeEnd then .error .assertion
  copySlots source source.freeEnd
    { count := count
      freeBegin := source.freeBegin
      freeEnd := source.freeEnd
      handles := fun _ => none }

/-- The search of `handleAllocate` for a free slot among the `n` slots from `i`. -/
def findFree (t : HandleTable Obj) : Nat → Nat → Except Fault (Option Nat)
  | 0, _ => .ok none
  | n + 1, i => do
      match ← t.load i with
      | none => .ok (some i)
      | some _ => findFree t n (i + 1)

/-- `handleAllocate` after the search: append at `i`, growing the block first
when `i` lies behind it. -/
def appendHandle (t : HandleTable Obj) (i : Nat) (o : Obj) :
    Except Fault (Option Nat × HandleTable Obj) := do
  if t.count ≤ i then
    let count := min (doubleUntil i (2 * t.count) i) MAX_HANDLES
    -- unable to allocate further handles
    if count ≤ t.count then return (none, t)
    let t ← (t.resize count).store i (some o)
    return (some i, { t with freeBegin := i + 1, freeEnd := i + 1 })
  else
    let t ← t.store i (some o)
    return (some i, { t with freeBegin := i + 1, freeEnd := i + 1 })

/-- `handleAllocate`. The result `none` stands for `-1`; otherwise the object
has got one more reference. -/
def handleAllocate (objectType : Obj → ObjectType) (t : HandleTable Obj) (o : Obj) :
    Except Fault (Option Nat × HandleTable Obj) := do
  let i := max (objectGetMinHandle (objectType o)) t.freeBegin
  match ← findFree t (t.freeEnd - i) i with
  | some j =>
      let t ← t.store j (some o)
      return (some j, { t with freeBegin := j + 1 })
  | none => appendHandle t (max i t.freeEnd) o

/-- `handleSet`. The first result is the return value; on success the object
has got one more reference, and the second result is the object released. -/
def handleSet (t : HandleTable Obj) (handle : Nat) (o : Obj) :
    Except Fault (Bool × Option Obj × HandleTable Obj) := do
  if MAX_HANDLES ≤ handle then return (false, none, t)
  let grown ←
    if t.count ≤ handle then do
      let count := min (doubleUntil handle (2 * t.count) handle) MAX_HANDLES
      if count ≤ t.count then .error .assertion
      pure (t.resize count)
    else pure t
  let old ← grown.load handle
  let stored ← grown.store handle (some o)
  return (true, old,
    { stored with
      freeBegin := if handle = stored.freeBegin then handle + 1 else stored.freeBegin
      freeEnd := if stored.freeEnd ≤ handle then handle + 1 else stored.freeEnd })

def handleGet (t : HandleTable Obj) (handle : Nat) : Except Fault (Option Obj) :=
  if t.freeEnd ≤ handle then .ok none else t.load handle

/-- The loop of `handleRelease` which moves `free_end` down to the last used slot. -/
def trimEnd (t : HandleTable Obj) : Nat → Except Fault Nat
  | 0 => .ok 0
  | n + 1 => do
      match ← t.load n with
      | none => trimEnd t n
      | some _ => .ok (n + 1)

/-- The part of `handleRelease` which runs when the last used slot was released. -/
def shrink (t : HandleTable Obj) : Except Fault (HandleTable Obj) := do
  let freeEnd ← trimEnd t t.freeEnd
  let t := { t with freeEnd := freeEnd }
  if MIN_HANDLES < t.freeEnd ∧ t.freeEnd < t.count / 4 then
    return t.resize (max (t.count / 4) MIN_HANDLES)
  return t

/-- `handleRelease`. The result is the object whose reference is dropped, and
`none` stands for the return value `false`. -/
def handleRelease (t : HandleTable Obj) (handle : Nat) :
    Except Fault (Option Obj × HandleTable Obj) := do
  if t.freeEnd ≤ handle then return (none, t)
  match ← t.load handle with
  | none => return (none, t)
  | some o =>
      let cleared ← t.store handle none
      let cleared := { cleared with freeBegin := min handle cleared.freeBegin }
      let result ← if handle = cleared.freeEnd - 1 then shrink cleared else pure cleared
      return (some o, result)

/-- `handleTableFree`: the objects released, in order. -/
def handleTableFree (t : HandleTable Obj) : Except Fault (List Obj) := do
  let slots ← (List.range t.freeEnd).mapM t.load
  return slots.filterMap id

/-- `handleCount`. -/
def handleCount (t : HandleTable Obj) : Except Fault Nat := do
  let slots ← (List.range t.freeEnd).mapM t.load
  return (slots.filterMap id).length

/-! Slot arithmetic -/

/-- The lengths a block of slots can have: `MIN_HANDLES` doubled up to `MAX_HANDLES`. -/
def IsBlockSize (n : Nat) : Prop :=
  ∃ k ≤ 8, n = 2 ^ (8 + k)

theorem IsBlockSize.bounds {n : Nat} (h : IsBlockSize n) :
    MIN_HANDLES ≤ n ∧ n ≤ MAX_HANDLES := by
  obtain ⟨k, hk, rfl⟩ := h
  constructor
  · exact Nat.pow_le_pow_right (n := 2) (by decide) (show 8 ≤ 8 + k by omega)
  · exact Nat.pow_le_pow_right (n := 2) (by decide) (show 8 + k ≤ 16 by omega)

theorem isBlockSize_min_pow {a : Nat} (ha : 8 ≤ a) : IsBlockSize (min (2 ^ a) MAX_HANDLES) := by
  by_cases h : a ≤ 16
  · have hle : 2 ^ a ≤ MAX_HANDLES := Nat.pow_le_pow_right (by decide) h
    exact ⟨a - 8, by omega, by rw [min_eq_left hle]; congr 1; omega⟩
  · have hle : MAX_HANDLES ≤ 2 ^ a :=
      Nat.pow_le_pow_right (n := 2) (by decide) (show 16 ≤ a by omega)
    exact ⟨8, le_rfl, by rw [min_eq_right hle]; rfl⟩

/-- The representation invariant of a handle table. Slots below `freeBegin` are
in use, apart from the first three, which objects with a minimum handle skip. -/
structure WellFormed (t : HandleTable Obj) : Prop where
  size : IsBlockSize t.count
  freeEnd_le : t.freeEnd ≤ t.count
  unused : ∀ i, t.freeEnd ≤ i → t.handles i = none
  used : ∀ i, 3 ≤ i → i < t.freeBegin → t.handles i ≠ none

namespace WellFormed

variable {t : HandleTable Obj}

theorem three_le (h : WellFormed t) : 3 ≤ t.count := by
  have := h.size.bounds.1
  unfold MIN_HANDLES at this
  omega

theorem freeBegin_le (h : WellFormed t) : t.freeBegin ≤ max 3 t.freeEnd := by
  by_contra hlt
  have hused := h.used (t.freeBegin - 1) (by omega) (by omega)
  exact hused (h.unused _ (by omega))

theorem handles_eq_none (h : WellFormed t) {i : Nat} (hi : MAX_HANDLES ≤ i) :
    t.handles i = none :=
  h.unused i (h.freeEnd_le.trans (h.size.bounds.2.trans hi))

/-- A block that still covers the used slots keeps all contents. -/
theorem resize_handles (h : WellFormed t) {count : Nat} (hcount : t.freeEnd ≤ count) :
    (t.resize count).handles = t.handles := by
  funext i
  simp only [HandleTable.resize]
  split
  · rfl
  · rename_i hi
    have hle := h.freeEnd_le
    exact (h.unused i (by omega)).symm

end WellFormed

theorem wellFormed_handleTableInit : WellFormed (handleTableInit : HandleTable Obj) where
  size := ⟨0, by omega, rfl⟩
  freeEnd_le := Nat.zero_le _
  unused := fun _ _ => rfl
  used := fun i _ hi => absurd hi (by simp [handleTableInit])

theorem load_eq {t : HandleTable Obj} {i : Nat} (h : i < t.count) :
    t.load i = .ok (t.handles i) := if_pos h

theorem store_eq {t : HandleTable Obj} {i : Nat} {o : Option Obj} (h : i < t.count) :
    t.store i o = .ok { t with handles := Function.update t.handles i o } := if_pos h

/-- Specification of `handleGet`: inside of the block, and the contents of the slot. -/
theorem handleGet_eq {t : HandleTable Obj} (ht : WellFormed t) (handle : Nat) :
    handleGet t handle = .ok (t.handles handle) := by
  rw [handleGet]
  split
  · rename_i h
    rw [ht.unused handle h]
  · exact load_eq (by have := ht.freeEnd_le; omega)

theorem findFree_eq {t : HandleTable Obj} (n i : Nat) (h : i + n ≤ t.count) :
    (∃ j, findFree t n i = .ok (some j) ∧ i ≤ j ∧ j < i + n ∧ t.handles j = none ∧
        ∀ k, i ≤ k → k < j → t.handles k ≠ none) ∨
      (findFree t n i = .ok none ∧ ∀ k, i ≤ k → k < i + n → t.handles k ≠ none) := by
  induction n generalizing i with
  | zero => exact .inr ⟨rfl, fun k hk hk' => absurd hk' (by omega)⟩
  | succ n ih =>
      rw [findFree, load_eq (by omega)]
      cases hi : t.handles i with
      | none => exact .inl ⟨i, rfl, le_rfl, by omega, hi, fun k hk hk' => absurd hk' (by omega)⟩
      | some o =>
          have hused : ∀ k, i ≤ k → (i + 1 ≤ k → t.handles k ≠ none) → t.handles k ≠ none := by
            intro k hk hnext
            rcases Nat.eq_or_lt_of_le hk with rfl | hlt
            · simp [hi]
            · exact hnext hlt
          rcases ih (i + 1) (by omega) with ⟨j, hj, hij, hjn, hnone, hall⟩ | ⟨hj, hall⟩
          · exact .inl ⟨j, hj, by omega, by omega, hnone,
              fun k hk hk' => hused k hk fun hk1 => hall k hk1 hk'⟩
          · exact .inr ⟨hj, fun k hk hk' => hused k hk fun hk1 => hall k hk1 (by omega)⟩

/-- Storing at a slot keeps the invariant, once `freeBegin` and `freeEnd` follow. -/
theorem WellFormed.stored {t : HandleTable Obj} (ht : WellFormed t) {i b e : Nat} {o : Obj}
    (hi : i < e) (hend : t.freeEnd ≤ e) (hcount : e ≤ t.count)
    (hused : ∀ k, 3 ≤ k → k < b → k ≠ i → t.handles k ≠ none) :
    WellFormed { t with
      freeBegin := b, freeEnd := e, handles := Function.update t.handles i (some o) } where
  size := ht.size
  freeEnd_le := hcount
  unused := by
    intro k (hk : e ≤ k)
    have hne : k ≠ i := by omega
    simp only [Function.update_of_ne hne]
    exact ht.unused k (by omega)
  used := by
    intro k h3 hk
    by_cases hki : k = i
    · subst hki
      simp
    · simp only [Function.update_of_ne hki]
      exact hused k h3 hk hki

/-- Growing the block keeps the invariant. -/
theorem WellFormed.resize {t : HandleTable Obj} (ht : WellFormed t) {count : Nat}
    (hsize : IsBlockSize count) (hle : t.freeEnd ≤ count) : WellFormed (t.resize count) where
  size := hsize
  freeEnd_le := hle
  unused := by
    rw [ht.resize_handles hle]
    exact ht.unused
  used := by
    rw [ht.resize_handles hle]
    exact ht.used

theorem appendHandle_eq {t : HandleTable Obj} (ht : WellFormed t) {i : Nat} (o : Obj)
    (hend : t.freeEnd ≤ i) (hi : i ≤ max 3 t.freeEnd)
    (hused : ∀ k, 3 ≤ k → k < i → t.handles k ≠ none) :
    (∃ t', appendHandle t i o = .ok (some i, t') ∧ WellFormed t' ∧ t.handles i = none ∧
        t'.handles = Function.update t.handles i (some o)) ∨
      appendHandle t i o = .ok (none, t) := by
  have h3 := ht.three_le
  have hle := ht.freeEnd_le
  have hbounds := ht.size.bounds
  rw [appendHandle]
  by_cases hgrow : t.count ≤ i
  · have hdouble : doubleUntil i (2 * t.count) i = 2 * t.count := doubleUntil_of_le (by omega)
    rw [if_pos hgrow]
    simp only [hdouble]
    by_cases hfull : min (2 * t.count) MAX_HANDLES ≤ t.count
    · exact .inr (by rw [if_pos hfull]; rfl)
    · rw [if_neg hfull]
      have hsize : IsBlockSize (min (2 * t.count) MAX_HANDLES) := by
        obtain ⟨k, _, hk⟩ := ht.size
        rw [hk, ← pow_succ']
        exact isBlockSize_min_pow (by omega)
      have hlt : i < (t.resize (min (2 * t.count) MAX_HANDLES)).count := by
        change i < min (2 * t.count) MAX_HANDLES
        omega
      have hcover : t.freeEnd ≤ min (2 * t.count) MAX_HANDLES := by omega
      have hhandles := ht.resize_handles hcover
      rw [store_eq hlt]
      refine .inl ⟨_, rfl, ?_, ht.unused i hend, by simp only [hhandles]⟩
      refine (ht.resize hsize hcover).stored (by omega) (Nat.le_succ_of_le hend) hlt ?_
      intro k hk hki hne
      rw [hhandles]
      exact hused k hk (by omega)
  · rw [if_neg hgrow, store_eq (by omega)]
    refine .inl ⟨_, rfl, ?_, ht.unused i hend, rfl⟩
    exact ht.stored (by omega) (by omega) (by omega) fun k hk hki hne => hused k hk (by omega)

/-- Specification of `handleAllocate`: it succeeds inside of the block, and
either stores at a slot that was empty or leaves the table as it is. -/
theorem handleAllocate_eq (objectType : Obj → ObjectType) {t : HandleTable Obj}
    (ht : WellFormed t) (o : Obj) :
    (∃ i t', handleAllocate objectType t o = .ok (some i, t') ∧ WellFormed t' ∧
        t.handles i = none ∧ t'.handles = Function.update t.handles i (some o)) ∨
      handleAllocate objectType t o = .ok (none, t) := by
  have hmin := objectGetMinHandle_le (objectType o)
  have hle := ht.freeEnd_le
  have hbegin := ht.freeBegin_le
  have h3 := ht.three_le
  rw [handleAllocate]
  generalize hstart : max (objectGetMinHandle (objectType o)) t.freeBegin = i
  -- below the start of the search everything is in use, apart from the first three slots
  have hbelow : ∀ k, 3 ≤ k → k < i → t.handles k ≠ none :=
    fun k hk hki => ht.used k hk (by omega)
  rcases findFree_eq (t := t) (t.freeEnd - i) i (by omega) with
    ⟨j, hj, hij, hjn, hnone, hall⟩ | ⟨hj, hall⟩
  · rw [hj]
    change (∃ i' t', (do
      let t ← t.store j (some o)
      return (some j, { t with freeBegin := j + 1 })) = .ok (some i', t') ∧ _) ∨ _
    rw [store_eq (by omega)]
    refine .inl ⟨j, _, rfl, ?_, hnone, rfl⟩
    refine ht.stored (show j < t.freeEnd by omega) le_rfl hle ?_
    intro k hk hkj hne
    by_cases hki : k < i
    · exact hbelow k hk hki
    · exact hall k (by omega) (by omega)
  · rw [hj]
    change (∃ i' t', appendHandle t (max i t.freeEnd) o = .ok (some i', t') ∧ _) ∨ _
    rcases appendHandle_eq ht (i := max i t.freeEnd) o (le_max_right _ _) (by omega) (by
      intro k hk hki
      by_cases hlt : k < i
      · exact hbelow k hk hlt
      · exact hall k (by omega) (by omega)) with ⟨t', h, rest⟩ | h
    · exact .inl ⟨_, t', h, rest⟩
    · exact .inr h

/-- The requests for which `handleSet` computes a block that covers the handle.
Doubling from `2 * count` stops at the first value that is not below the handle,
so the block is one slot short when it hits the handle exactly. -/
def SetCovered (t : HandleTable Obj) (handle : Nat) : Prop :=
  handle < MAX_HANDLES → 2 * t.count ≤ handle → ∀ k, handle ≠ 2 ^ k

theorem setCount_covers {t : HandleTable Obj} (ht : WellFormed t) {handle : Nat}
    (hmax : handle < MAX_HANDLES) (hset : SetCovered t handle) :
    IsBlockSize (min (doubleUntil handle (2 * t.count) handle) MAX_HANDLES) ∧
      handle < min (doubleUntil handle (2 * t.count) handle) MAX_HANDLES := by
  obtain ⟨k, _, hk⟩ := ht.size
  have hreach := le_doubleUntil (show 0 < 2 * t.count by have := ht.three_le; omega) handle
  obtain ⟨b, hgrow⟩ := exists_doubleUntil_eq handle (2 * t.count) handle
  have hpow : 2 * t.count * 2 ^ b = 2 ^ (9 + k + b) := by
    rw [hk]
    ring
  constructor
  · rw [hgrow, hpow]
    exact isBlockSize_min_pow (by omega)
  · have hne : handle ≠ doubleUntil handle (2 * t.count) handle := by
      intro heq
      refine hset hmax ?_ (9 + k + b) (heq.trans (hgrow.trans hpow))
      rw [heq, hgrow]
      exact Nat.le_mul_of_pos_right _ (Nat.two_pow_pos _)
    omega

/-- Specification of `handleSet` for covered requests. -/
theorem handleSet_eq {t : HandleTable Obj} (ht : WellFormed t) {handle : Nat} (o : Obj)
    (hset : SetCovered t handle) :
    (∃ t', handleSet t handle o = .ok (true, t.handles handle, t') ∧ handle < MAX_HANDLES ∧
        WellFormed t' ∧ t'.handles = Function.update t.handles handle (some o)) ∨
      handleSet t handle o = .ok (false, none, t) := by
  -- the table after the block was extended, if that was necessary
  have hstore : ∀ g : HandleTable Obj, WellFormed g → g.handles = t.handles →
      handle < g.count → handle < MAX_HANDLES →
      ∃ t', (do
          let old ← g.load handle
          let stored ← g.store handle (some o)
          return (true, old,
            { stored with
              freeBegin := if handle = stored.freeBegin then handle + 1 else stored.freeBegin
              freeEnd := if stored.freeEnd ≤ handle then handle + 1 else stored.freeEnd }) :
            Except Fault (Bool × Option Obj × HandleTable Obj)) =
          .ok (true, t.handles handle, t') ∧ handle < MAX_HANDLES ∧
        WellFormed t' ∧ t'.handles = Function.update t.handles handle (some o) := by
    intro g hg heq hlt hmax
    rw [load_eq hlt, store_eq hlt, ← heq]
    refine ⟨_, rfl, hmax, ?_, rfl⟩
    have hle := hg.freeEnd_le
    refine hg.stored ?_ ?_ ?_ ?_
    · change handle < if g.freeEnd ≤ handle then handle + 1 else g.freeEnd
      split <;> omega
    · change g.freeEnd ≤ if g.freeEnd ≤ handle then handle + 1 else g.freeEnd
      split <;> omega
    · change (if g.freeEnd ≤ handle then handle + 1 else g.freeEnd) ≤ g.count
      split <;> omega
    · intro k h3 hk hne
      refine hg.used k h3 ?_
      by_cases hb : handle = g.freeBegin
      · rw [if_pos hb] at hk
        omega
      · rwa [if_neg hb] at hk
  rw [handleSet]
  by_cases hmax : MAX_HANDLES ≤ handle
  · exact .inr (by rw [if_pos hmax]; rfl)
  · rw [if_neg hmax]
    refine .inl ?_
    by_cases hgrow : t.count ≤ handle
    · obtain ⟨hsize, hlt⟩ := setCount_covers ht (by omega) hset
      rw [if_pos hgrow]
      have hcover : t.freeEnd ≤ min (doubleUntil handle (2 * t.count) handle) MAX_HANDLES := by
        have := ht.freeEnd_le
        omega
      simp only [if_neg (show ¬ min (doubleUntil handle (2 * t.count) handle) MAX_HANDLES ≤ t.count
        by omega)]
      exact hstore _ (ht.resize hsize hcover) (ht.resize_handles hcover) hlt (by omega)
    · rw [if_neg hgrow]
      exact hstore t ht rfl (by omega) (by omega)

theorem trimEnd_eq {t : HandleTable Obj} (n : Nat) (h : n ≤ t.count)
    (hunused : ∀ i, n ≤ i → t.handles i = none) :
    ∃ e ≤ n, trimEnd t n = .ok e ∧ ∀ i, e ≤ i → t.handles i = none := by
  induction n with
  | zero => exact ⟨0, le_rfl, rfl, hunused⟩
  | succ n ih =>
      rw [trimEnd, load_eq (by omega)]
      cases hn : t.handles n with
      | some o => exact ⟨n + 1, le_rfl, rfl, hunused⟩
      | none =>
          obtain ⟨e, he, htrim, hnone⟩ := ih (by omega) (by
            intro i hi
            rcases Nat.eq_or_lt_of_le hi with rfl | hlt
            · exact hn
            · exact hunused i hlt)
          exact ⟨e, by omega, htrim, hnone⟩

theorem isBlockSize_quarter {n : Nat} (h : IsBlockSize n) (hbig : MIN_HANDLES < n / 4) :
    IsBlockSize (max (n / 4) MIN_HANDLES) := by
  obtain ⟨k, hk, rfl⟩ := h
  rw [max_eq_left hbig.le]
  have h2 : 2 ≤ k := by
    by_contra hlt
    have : 2 ^ (8 + k) ≤ 2 ^ 9 := Nat.pow_le_pow_right (by decide) (by omega)
    unfold MIN_HANDLES at hbig
    omega
  refine ⟨k - 2, by omega, ?_⟩
  have : 2 ^ (8 + k) = 2 ^ (8 + (k - 2)) * 4 := by
    rw [show 8 + k = 8 + (k - 2) + 2 by omega, pow_add]
    rfl
  omega

theorem shrink_eq {t : HandleTable Obj} (ht : WellFormed t) :
    ∃ t', shrink t = .ok t' ∧ WellFormed t' ∧ t'.handles = t.handles := by
  obtain ⟨e, he, htrim, hnone⟩ := trimEnd_eq t.freeEnd ht.freeEnd_le ht.unused
  have hwf : WellFormed { t with freeEnd := e } :=
    ⟨ht.size, he.trans ht.freeEnd_le, hnone, ht.used⟩
  rw [shrink, htrim]
  by_cases hsmall : MIN_HANDLES < e ∧ e < t.count / 4
  · have hcover : e ≤ max (t.count / 4) MIN_HANDLES := by omega
    refine ⟨_, if_pos hsmall, hwf.resize ?_ hcover, hwf.resize_handles hcover⟩
    exact isBlockSize_quarter ht.size (show MIN_HANDLES < t.count / 4 by omega)
  · exact ⟨_, if_neg hsmall, hwf, rfl⟩

/-- Specification of `handleRelease`: it succeeds inside of the block and
clears exactly the slot it was asked for. -/
theorem handleRelease_eq {t : HandleTable Obj} (ht : WellFormed t) (handle : Nat) :
    ∃ t', handleRelease t handle = .ok (t.handles handle, t') ∧ WellFormed t' ∧
      t'.handles = Function.update t.handles handle none := by
  rw [handleRelease]
  by_cases hend : t.freeEnd ≤ handle
  · have hnone := ht.unused handle hend
    refine ⟨t, by rw [if_pos hend, hnone]; rfl, ht, ?_⟩
    rw [← hnone, Function.update_eq_self]
  · have hlt : handle < t.count := by have := ht.freeEnd_le; omega
    rw [if_neg hend, load_eq hlt]
    cases hslot : t.handles handle with
    | none => exact ⟨t, rfl, ht, by rw [← hslot, Function.update_eq_self]⟩
    | some o =>
        have hwf : WellFormed { t with
            freeBegin := min handle t.freeBegin
            handles := Function.update t.handles handle none } := by
          refine ⟨ht.size, ht.freeEnd_le, ?_, ?_⟩
          · intro i hi
            by_cases hne : i = handle
            · subst hne
              simp
            · simpa only [Function.update_of_ne hne] using ht.unused i hi
          · intro i h3 hi
            have hi' : i < min handle t.freeBegin := hi
            simpa only [Function.update_of_ne (show i ≠ handle by omega)] using
              ht.used i h3 (by omega)
        change ∃ t', (do
          let cleared ← t.store handle none
          let cleared := { cleared with freeBegin := min handle cleared.freeBegin }
          let result ← if handle = cleared.freeEnd - 1 then shrink cleared else pure cleared
          return (some o, result)) = .ok (some o, t') ∧ _
        rw [store_eq hlt]
        by_cases hlast : handle = t.freeEnd - 1
        · obtain ⟨t', hshrink, hwf', hhandles⟩ := shrink_eq hwf
          refine ⟨t', ?_, hwf', hhandles⟩
          change (do
            let result ← if handle = t.freeEnd - 1 then shrink _ else pure _
            return (some o, result)) = _
          rw [if_pos hlast, hshrink]
          rfl
        · refine ⟨_, ?_, hwf, rfl⟩
          change (do
            let result ← if handle = t.freeEnd - 1 then shrink _ else pure _
            return (some o, result)) = _
          rw [if_neg hlast]
          rfl

theorem copySlots_eq {source : HandleTable Obj} (n : Nat) (d : HandleTable Obj)
    (hsource : n ≤ source.count) (hd : n ≤ d.count) :
    copySlots source n d =
      .ok { d with handles := fun i => if i < n then source.handles i else d.handles i } := by
  induction n with
  | zero => rfl
  | succ n ih =>
      rw [copySlots, ih (by omega) (by omega), load_eq (by omega)]
      change HandleTable.store _ n (source.handles n) = _
      rw [HandleTable.store, if_pos (show n < d.count by omega)]
      congr 2
      funext i
      by_cases hi : i = n
      · subst hi
        simp
      · rw [Function.update_of_ne hi]
        by_cases hlt : i < n
        · simp [hlt, Nat.lt_succ_of_lt hlt]
        · exact (if_neg hlt).trans (if_neg (by omega)).symm

/-- Specification of `handleForkTable`: a well-formed table with the same slots. -/
theorem handleForkTable_eq {source : HandleTable Obj} (hs : WellFormed source) :
    ∃ t, handleForkTable source = .ok t ∧ WellFormed t ∧ t.handles = source.handles := by
  have hreach := le_doubleUntil (show 0 < MIN_HANDLES by decide) source.freeEnd
  have hcount := hs.freeEnd_le.trans hs.size.bounds.2
  have hsize : IsBlockSize (doubleUntil source.freeEnd MIN_HANDLES source.freeEnd) := by
    have hle : doubleUntil source.freeEnd MIN_HANDLES source.freeEnd ≤ MAX_HANDLES :=
      doubleUntil_le (k := 8) _ hcount
    obtain ⟨b, hgrow⟩ := exists_doubleUntil_eq source.freeEnd MIN_HANDLES source.freeEnd
    have hpow : MIN_HANDLES * 2 ^ b = 2 ^ (8 + b) := by
      rw [pow_add]
      rfl
    have hmin := isBlockSize_min_pow (show 8 ≤ 8 + b by omega)
    rwa [← hpow, ← hgrow, min_eq_left hle] at hmin
  rw [handleForkTable]
  simp only [if_neg (show ¬ doubleUntil source.freeEnd MIN_HANDLES source.freeEnd < source.freeEnd
    by omega)]
  refine ⟨_, copySlots_eq _ _ hs.freeEnd_le hreach, ⟨hsize, hreach, ?_, ?_⟩, ?_⟩
  · intro i hi
    exact if_neg (Nat.not_lt.mpr hi)
  · intro i h3 hi
    have hused := hs.used i h3 hi
    have hlt : i < source.freeEnd := by
      by_contra hge
      exact hused (hs.unused i (by omega))
    simpa only [if_pos hlt] using hused
  · funext i
    by_cases hlt : i < source.freeEnd
    · exact if_pos hlt
    · exact (if_neg hlt).trans (hs.unused i (by omega)).symm

/-! All handle tables of a system, and the references they hold -/

/-- The handle tables that exist, and `obj->refcount` of every object. -/
structure Tables (Obj : Type) where
  tables : List (HandleTable Obj)
  refcount : Obj → Nat

/-- The calls on handle tables; a table is named by its position. -/
inductive Call (Obj : Type)
  | init
  | allocate (table : Nat) (o : Obj)
  | set (table handle : Nat) (o : Obj)
  | release (table handle : Nat)
  | fork (table : Nat)

/-- What a call reports back: the new handle or `-1`, or a success flag. -/
inductive Reply
  | none
  | handle (h : Option Nat)
  | success (b : Bool)
  deriving DecidableEq

variable [DecidableEq Obj]

/-- `__objectAddRef` -/
def addRef (refcount : Obj → Nat) (o : Obj) : Obj → Nat :=
  Function.update refcount o (refcount o + 1)

/-- `__objectRelease`, as far as the counter is concerned. -/
def dropRef (refcount : Obj → Nat) (o : Obj) : Obj → Nat :=
  Function.update refcount o (refcount o - 1)

/-- `__objectAddRef` on every object in the first `n` slots, as `handleForkTable` does. -/
def addRefSlots (handles : Nat → Option Obj) : Nat → (Obj → Nat) → Obj → Nat
  | 0, refcount => refcount
  | n + 1, refcount =>
      match handles n with
      | none => addRefSlots handles n refcount
      | some o => addRef (addRefSlots handles n refcount) o

/-- One call. A call on a table that does not exist has no effect. -/
def Tables.step (objectType : Obj → ObjectType) (s : Tables Obj) :
    Call Obj → Except Fault (Reply × Tables Obj)
  | .init => .ok (.none, { s with tables := s.tables ++ [handleTableInit] })
  | .allocate i o =>
      match s.tables[i]? with
      | none => .ok (.none, s)
      | some t => do
          let (h, t') ← handleAllocate objectType t o
          return (.handle h,
            { tables := s.tables.set i t'
              refcount := if h.isSome then addRef s.refcount o else s.refcount })
  | .set i handle o =>
      match s.tables[i]? with
      | none => .ok (.none, s)
      | some t => do
          let (success, old, t') ← handleSet t handle o
          let refcount := if success then addRef s.refcount o else s.refcount
          return (.success success,
            { tables := s.tables.set i t'
              refcount := old.elim refcount (dropRef refcount) })
  | .release i handle =>
      match s.tables[i]? with
      | none => .ok (.none, s)
      | some t => do
          let (old, t') ← handleRelease t handle
          return (.success old.isSome,
            { tables := s.tables.set i t'
              refcount := old.elim s.refcount (dropRef s.refcount) })
  | .fork i =>
      match s.tables[i]? with
      | none => .ok (.none, s)
      | some t => do
          let t' ← handleForkTable t
          return (.none,
            { tables := s.tables ++ [t']
              refcount := addRefSlots t.handles t.freeEnd s.refcount })

/-- The abstract state: one finite map from handles to objects for each table. -/
abbrev Maps (Obj : Type) : Type := List (Nat → Option Obj)

/-- What a call means for the maps, given what it reported. -/
def Maps.step (m : Maps Obj) : Call Obj → Reply → Maps Obj
  | .init, _ => m.concat fun _ => none
  | .allocate i o, .handle (some h) => List.modify m i (Function.update · h (some o))
  | .set i h o, .success true => List.modify m i (Function.update · h (some o))
  | .release i h, .success true => List.modify m i (Function.update · h none)
  | .fork i, _ => m ++ (m[i]?).toList
  | _, _ => m

/-- The number of slots that hold an object. -/
def slotCount (handles : Nat → Option Obj) (o : Obj) : Nat :=
  ((Finset.range MAX_HANDLES).filter fun i => handles i = some o).card

/-- The number of slots of all tables that hold an object. -/
def Tables.slots (s : Tables Obj) (o : Obj) : Nat :=
  (s.tables.map fun t => slotCount t.handles o).sum

theorem slotCount_eq_sum (handles : Nat → Option Obj) (o : Obj) :
    slotCount handles o = ∑ i ∈ Finset.range MAX_HANDLES, if handles i = some o then 1 else 0 :=
  Finset.card_filter _ _

theorem slotCount_update (handles : Nat → Option Obj) {h : Nat} (hh : h < MAX_HANDLES)
    (v : Option Obj) (o : Obj) :
    slotCount (Function.update handles h v) o + (if handles h = some o then 1 else 0) =
      slotCount handles o + (if v = some o then 1 else 0) := by
  have hmem : h ∈ Finset.range MAX_HANDLES := Finset.mem_range.mpr hh
  have hrest : ∑ i ∈ (Finset.range MAX_HANDLES).erase h,
        (if Function.update handles h v i = some o then 1 else 0) =
      ∑ i ∈ (Finset.range MAX_HANDLES).erase h, if handles i = some o then 1 else 0 := by
    apply Finset.sum_congr rfl
    intro i hi
    rw [Function.update_of_ne (Finset.ne_of_mem_erase hi)]
  rw [slotCount_eq_sum, slotCount_eq_sum, ← Finset.add_sum_erase _ _ hmem,
    ← Finset.add_sum_erase _ _ hmem, hrest, Function.update_self]
  omega

theorem sum_map_set {α : Type*} (f : α → Nat) (l : List α) {i : Nat} {a : α} (b : α)
    (h : l[i]? = some a) : ((l.set i b).map f).sum + f a = (l.map f).sum + f b := by
  induction l generalizing i with
  | nil => simp at h
  | cons x l ih =>
      cases i with
      | zero =>
          simp only [List.getElem?_cons_zero, Option.some.injEq] at h
          subst h
          simp only [List.set_cons_zero, List.map_cons, List.sum_cons]
          omega
      | succ i =>
          have := ih (i := i) (by simpa using h)
          simp only [List.set_cons_succ, List.map_cons, List.sum_cons]
          omega

theorem addRefSlots_eq (handles : Nat → Option Obj) (n : Nat) (refcount : Obj → Nat) (o : Obj) :
    addRefSlots handles n refcount o =
      refcount o + ((Finset.range n).filter fun i => handles i = some o).card := by
  induction n with
  | zero => simp [addRefSlots]
  | succ n ih =>
      rw [addRefSlots, Finset.range_add_one, Finset.filter_insert]
      cases hn : handles n with
      | none => simpa using ih
      | some x =>
          by_cases hx : x = o
          · subst hx
            simp [addRef, ih]
            omega
          · simp [addRef, Function.update_of_ne (Ne.symm hx), hx, ih]

/-- Every object in the used slots is counted by the loop over `freeEnd` slots. -/
theorem addRefSlots_freeEnd {t : HandleTable Obj} (ht : WellFormed t) (refcount : Obj → Nat)
    (o : Obj) :
    addRefSlots t.handles t.freeEnd refcount o = refcount o + slotCount t.handles o := by
  have hfilter : ((Finset.range t.freeEnd).filter fun i => t.handles i = some o) =
      (Finset.range MAX_HANDLES).filter fun i => t.handles i = some o := by
    ext i
    simp only [Finset.mem_filter, Finset.mem_range, and_congr_left_iff]
    intro hi
    have hle := ht.freeEnd_le.trans ht.size.bounds.2
    constructor
    · intro h
      omega
    · intro _
      by_contra hge
      rw [ht.unused i (by omega)] at hi
      simp at hi
  rw [addRefSlots_eq, slotCount, hfilter]

/-- Taking the reference for `new` and dropping the one for `old`. -/
def swapRef (refcount : Obj → Nat) (old new : Option Obj) : Obj → Nat :=
  let taken := new.elim refcount (addRef refcount)
  old.elim taken (dropRef taken)

theorem swapRef_eq (refcount : Obj → Nat) (old new : Option Obj) (o : Obj)
    (hold : old = some o → 0 < refcount o) :
    swapRef refcount old new o + (if old = some o then 1 else 0) =
      refcount o + (if new = some o then 1 else 0) := by
  have htaken : new.elim refcount (addRef refcount) o =
      refcount o + (if new = some o then 1 else 0) := by
    cases new with
    | none => simp
    | some x =>
        by_cases hx : o = x
        · subst hx
          simp [addRef]
        · simp [addRef, hx, Ne.symm hx]
  rw [swapRef, ← htaken]
  cases old with
  | none => simp
  | some y =>
      by_cases hy : o = y
      · subst hy
        have hpos := hold rfl
        simp only [Option.elim_some, dropRef, Function.update_self, if_true]
        omega
      · simp [dropRef, hy, Ne.symm hy]

/-- What holds of the tables, the maps and the reference counters after every call:
the tables are well formed, their slots are the maps, and beyond the references
`base` held elsewhere each object has one for every slot that contains it. -/
structure Consistent (base : Obj → Nat) (s : Tables Obj) (m : Maps Obj) : Prop where
  wellFormed : ∀ t ∈ s.tables, WellFormed t
  maps : s.tables.map HandleTable.handles = m
  refcount : ∀ o, s.refcount o = base o + s.slots o

namespace Consistent

variable {base : Obj → Nat} {s : Tables Obj} {m : Maps Obj}

theorem table (h : Consistent base s m) {i : Nat} {t : HandleTable Obj}
    (ht : s.tables[i]? = some t) : WellFormed t :=
  h.wellFormed t (List.mem_of_getElem? ht)

/-- Replacing one table by a table with updated slots. -/
theorem set (h : Consistent base s m) {i : Nat} {t t' : HandleTable Obj}
    (ht : s.tables[i]? = some t) (hwf : WellFormed t') {refcount : Obj → Nat}
    (hrefs : ∀ o, refcount o + slotCount t.handles o =
      s.refcount o + slotCount t'.handles o) {m' : Maps Obj}
    (hm : m' = List.modify m i fun _ => t'.handles) :
    Consistent base { tables := s.tables.set i t', refcount := refcount } m' where
  wellFormed := by
    intro x hx
    rcases List.mem_or_eq_of_mem_set hx with hx | rfl
    · exact h.wellFormed x hx
    · exact hwf
  maps := by
    rw [hm, ← h.maps]
    apply List.ext_getElem?
    intro n
    by_cases hn : i = n
    · subst hn
      simp [List.getElem?_set_self', ht]
    · simp [hn]
  refcount := by
    intro o
    have hsum := sum_map_set (fun t => slotCount t.handles o) s.tables t' ht
    have hbase := h.refcount o
    have hnew := hrefs o
    simp only [Tables.slots] at hbase ⊢
    omega

/-- Storing `v` at one slot, with the reference for `v` taken and the reference
for the previous contents dropped. -/
theorem store (h : Consistent base s m) {i handle : Nat} {t t' : HandleTable Obj}
    {v : Option Obj} (ht : s.tables[i]? = some t) (hwf : WellFormed t')
    (hlt : handle < MAX_HANDLES) (hhandles : t'.handles = Function.update t.handles handle v) :
    Consistent base
      { tables := s.tables.set i t', refcount := swapRef s.refcount (t.handles handle) v }
      (List.modify m i (Function.update · handle v)) := by
  refine h.set ht hwf ?_ ?_
  · intro x
    have hcount := slotCount_update t.handles hlt v x
    have hswap := swapRef_eq s.refcount (t.handles handle) v x fun hold => by
      have hpos : 0 < slotCount t.handles x :=
        Finset.card_pos.mpr ⟨handle, Finset.mem_filter.mpr ⟨Finset.mem_range.mpr hlt, hold⟩⟩
      have hmem : slotCount t.handles x ≤ s.slots x :=
        List.le_sum_of_mem (List.mem_map.mpr ⟨t, List.mem_of_getElem? ht, rfl⟩)
      have hbase := h.refcount x
      omega
    rw [← hhandles] at hcount
    omega
  · rw [← h.maps]
    apply List.ext_getElem?
    intro n
    by_cases hn : i = n
    · subst hn
      simp [ht, hhandles]
    · simp [hn]

theorem unchanged (h : Consistent base s m) {i : Nat} {t : HandleTable Obj}
    (ht : s.tables[i]? = some t) :
    Consistent base { tables := s.tables.set i t, refcount := s.refcount } m := by
  refine h.set ht (h.table ht) (fun _ => rfl) ?_
  rw [← h.maps]
  apply List.ext_getElem?
  intro n
  by_cases hn : i = n
  · subst hn
    simp [ht]
  · simp [hn]

/-- A new table at the end. -/
theorem append (h : Consistent base s m) {t : HandleTable Obj} (hwf : WellFormed t)
    {refcount : Obj → Nat}
    (hrefs : ∀ o, refcount o = s.refcount o + slotCount t.handles o) :
    Consistent base { tables := s.tables ++ [t], refcount := refcount }
      (m ++ [t.handles]) where
  wellFormed := by
    intro x hx
    rcases List.mem_append.mp hx with hx | hx
    · exact h.wellFormed x hx
    · rw [List.mem_singleton.mp hx]
      exact hwf
  maps := by simp [h.maps]
  refcount := by
    intro o
    have hbase := h.refcount o
    have hnew := hrefs o
    simp only [Tables.slots, List.map_append, List.map_cons, List.map_nil, List.sum_append,
      List.sum_cons, List.sum_nil] at hbase ⊢
    omega

end Consistent

/-- The calls whose block covers the requested handle. -/
def Tables.Covered (s : Tables Obj) : Call Obj → Prop
  | .set i handle _ => ∀ t, s.tables[i]? = some t → SetCovered t handle
  | _ => True

/-- Every covered call runs inside of the blocks and keeps tables, maps and
counters consistent. -/
theorem Tables.step_consistent (objectType : Obj → ObjectType) {base : Obj → Nat}
    {s : Tables Obj} {m : Maps Obj} (hs : Consistent base s m) (c : Call Obj)
    (hcovered : s.Covered c) :
    ∃ r s', s.step objectType c = .ok (r, s') ∧ Consistent base s' (m.step c r) := by
  cases c with
  | init =>
      refine ⟨_, _, rfl, ?_⟩
      rw [Maps.step, List.concat_eq_append]
      exact hs.append wellFormed_handleTableInit fun o => by
        simp [slotCount, handleTableInit]
  | allocate i o =>
      cases hi : s.tables[i]? with
      | none => exact ⟨_, _, by rw [Tables.step, hi], hs⟩
      | some t =>
          rcases handleAllocate_eq objectType (hs.table hi) o with
            ⟨h, t', heq, hwf, hnone, hhandles⟩ | heq
          · refine ⟨_, _, by rw [Tables.step, hi]; simp only [heq]; rfl, ?_⟩
            have hlt : h < MAX_HANDLES := by
              by_contra hge
              have hstored := hwf.handles_eq_none (Nat.not_lt.mp hge)
              rw [hhandles, Function.update_self] at hstored
              simp at hstored
            have hnew := hs.store hi hwf hlt hhandles
            rwa [hnone] at hnew
          · exact ⟨_, _, by rw [Tables.step, hi]; simp only [heq]; rfl, hs.unchanged hi⟩
  | set i h o =>
      cases hi : s.tables[i]? with
      | none => exact ⟨_, _, by rw [Tables.step, hi], hs⟩
      | some t =>
          rcases handleSet_eq (hs.table hi) o (hcovered t hi) with
            ⟨t', heq, hlt, hwf, hhandles⟩ | heq
          · exact ⟨_, _, by rw [Tables.step, hi]; simp only [heq]; rfl,
              hs.store hi hwf hlt hhandles⟩
          · exact ⟨_, _, by rw [Tables.step, hi]; simp only [heq]; rfl, hs.unchanged hi⟩
  | release i h =>
      cases hi : s.tables[i]? with
      | none => exact ⟨_, _, by rw [Tables.step, hi], hs⟩
      | some t =>
          obtain ⟨t', heq, hwf, hhandles⟩ := handleRelease_eq (hs.table hi) h
          refine ⟨_, _, by rw [Tables.step, hi]; simp only [heq]; rfl, ?_⟩
          cases hold : t.handles h with
          | none =>
              rw [← hold, Function.update_eq_self] at hhandles
              refine hs.set hi hwf (fun o => by rw [hhandles]; rfl) ?_
              rw [hhandles, ← hs.maps]
              apply List.ext_getElem?
              intro n
              by_cases hn : i = n
              · subst hn
                simp [hi, Maps.step]
              · simp [hn, Maps.step]
          | some o =>
              have hlt : h < MAX_HANDLES := by
                by_contra hge
                rw [(hs.table hi).handles_eq_none (Nat.not_lt.mp hge)] at hold
                simp at hold
              have hnew := hs.store hi hwf hlt hhandles
              rwa [hold] at hnew
  | fork i =>
      cases hi : s.tables[i]? with
      | none =>
          have hm : m[i]? = none := by simp [← hs.maps, hi]
          exact ⟨_, _, by rw [Tables.step, hi], by simpa [Maps.step, hm] using hs⟩
      | some t =>
          obtain ⟨t', heq, hwf, hhandles⟩ := handleForkTable_eq (hs.table hi)
          have hm : m[i]? = some t'.handles := by simp [← hs.maps, hi, hhandles]
          refine ⟨_, _, by rw [Tables.step, hi]; simp only [heq]; rfl, ?_⟩
          rw [Maps.step, hm, Option.toList_some]
          refine hs.append hwf fun o => ?_
          rw [addRefSlots_freeEnd (hs.table hi), hhandles]

/-- The states reached by a run of covered calls from no tables at all, with the
maps that the calls and their replies define. -/
inductive Reached (objectType : Obj → ObjectType) (base : Obj → Nat) :
    Tables Obj → Maps Obj → Prop
  | start : Reached objectType base ⟨[], base⟩ []
  | call {s s' : Tables Obj} {m : Maps Obj} (c : Call Obj) {r : Reply}
      (hs : Reached objectType base s m) (hcovered : s.Covered c)
      (hstep : s.step objectType c = .ok (r, s')) :
      Reached objectType base s' (m.step c r)

theorem Reached.consistent {objectType : Obj → ObjectType} {base : Obj → Nat}
    {s : Tables Obj} {m : Maps Obj} (h : Reached objectType base s m) : Consistent base s m := by
  induction h with
  | start => exact ⟨by simp, rfl, fun o => by simp [Tables.slots]⟩
  | call c _ hcovered hstep ih =>
      obtain ⟨r, s', hok, hnext⟩ := Tables.step_consistent objectType ih c hcovered
      rw [hstep] at hok
      cases hok
      exact hnext

/-- Runs of covered calls: no further covered call leaves a block, `free_end` and
`count` stay in range, the slots from `free_end` on are empty, `handleGet` reads
the map defined by the calls, and the tables hold one reference for each slot. -/
theorem reached_inBounds_finiteMap (objectType : Obj → ObjectType) (base : Obj → Nat)
    {s : Tables Obj} {m : Maps Obj} (h : Reached objectType base s m) :
    (∀ c, s.Covered c → ∃ r s', s.step objectType c = .ok (r, s')) ∧
      (∀ t ∈ s.tables, t.freeEnd ≤ t.count ∧ t.count ≤ MAX_HANDLES ∧
        ∀ i, t.freeEnd ≤ i → t.handles i = none) ∧
      (∀ i handle : Nat, (s.tables[i]?).map (handleGet · handle) =
        (m[i]?).map fun f : Nat → Option Obj => .ok (f handle)) ∧
      ∀ o, s.refcount o = base o + s.slots o := by
  have hs := h.consistent
  refine ⟨?_, ?_, ?_, hs.refcount⟩
  · intro c hc
    obtain ⟨r, s', hok, _⟩ := Tables.step_consistent objectType hs c hc
    exact ⟨r, s', hok⟩
  · intro t ht
    have hwf := hs.wellFormed t ht
    exact ⟨hwf.freeEnd_le, hwf.size.bounds.2, hwf.unused⟩
  · intro i handle
    rw [← hs.maps, List.getElem?_map]
    cases hi : s.tables[i]? with
    | none => rfl
    | some t => simp [handleGet_eq (hs.table hi)]

/-- A run in which `handleSet` grows the block and `handleAllocate` fills slot zero. -/
theorem reached_inBounds_finiteMap_dup2 :
    ∃ (s : Tables Nat) (m : Maps Nat), Reached (fun _ => .pipe) (fun _ => 1) s m ∧
      (m.map fun f => (f 300, f 0, f 1)) = [(some 7, some 8, none)] ∧
      ∀ o, s.refcount o = 1 + s.slots o := by
  have hcovered : SetCovered (handleTableInit : HandleTable Nat) 300 := by
    intro _ h
    exact absurd h (by decide)
  have hstart : Reached (fun _ : Nat => .pipe) (fun _ => 1) ⟨[], fun _ => 1⟩ [] := .start
  have hrun := Reached.call (.allocate 0 8) (.call (.set 0 300 7)
    (.call .init hstart trivial rfl) (fun t ht => by cases ht; exact hcovered) rfl) trivial rfl
  exact ⟨_, _, hrun, rfl, (reached_inBounds_finiteMap _ _ hrun).2.2.2⟩

/-- `handleSet` with a handle that is a power of two and at least twice the
block's length writes the slot behind the new block. -/
theorem handleSet_outOfBounds :
    (do
      let (_, s) ← (⟨[], fun _ => 1⟩ : Tables Nat).step (fun _ => .pipe) .init
      s.step (fun _ => .pipe) (.set 0 512 7)) = .error (.outOfBounds 512) := rfl

end Ibnos.Handles
