import Mathlib.Data.List.GetD
import Mathlib.Tactic.Common

/-!
Blocks of memory with checked accesses, and the copy loops over them. An access
outside of the block stops the computation.
-/

namespace Ibnos.Blocks

/-- A block of `length` cells. -/
structure Block (α : Type) where
  length : Nat
  cell : Nat → α

/-- The index of an access outside of a block. -/
structure OutOfBounds where
  index : Nat
  deriving DecidableEq, Repr

variable {α : Type}

namespace Block

def load (b : Block α) (i : Nat) : Except OutOfBounds α :=
  if i < b.length then .ok (b.cell i) else .error ⟨i⟩

def store (b : Block α) (i : Nat) (x : α) : Except OutOfBounds (Block α) :=
  if i < b.length then .ok { b with cell := Function.update b.cell i x } else .error ⟨i⟩

/-- The `n` cells from `start` on. -/
def slice (b : Block α) (start n : Nat) : List α :=
  (List.range n).map fun i => b.cell (start + i)

/-- The read half of a copy: load `n` cells one after the other. -/
def loadList (b : Block α) : Nat → Nat → Except OutOfBounds (List α)
  | _, 0 => .ok []
  | i, n + 1 => do
      let x ← b.load i
      let xs ← b.loadList (i + 1) n
      return x :: xs

/-- The write half of a copy: store the values one after the other. -/
def storeList (b : Block α) : Nat → List α → Except OutOfBounds (Block α)
  | _, [] => .ok b
  | i, x :: xs => do
      let b ← b.store i x
      b.storeList (i + 1) xs

/-- Copy `n` cells inside of one block, the first cell first. -/
def copyForward (b : Block α) : Nat → Nat → Nat → Except OutOfBounds (Block α)
  | _, _, 0 => .ok b
  | dst, src, n + 1 => do
      let x ← b.load src
      let b ← b.store dst x
      b.copyForward (dst + 1) (src + 1) n

/-- Copy `n` cells inside of one block, the last cell first. -/
def copyBackward (b : Block α) (dst src : Nat) : Nat → Except OutOfBounds (Block α)
  | 0 => .ok b
  | n + 1 => do
      let x ← b.load (src + n)
      let b ← b.store (dst + n) x
      b.copyBackward dst src n

/-- Copy `n` cells between regions that may overlap. -/
def move (b : Block α) (dst src n : Nat) : Except OutOfBounds (Block α) :=
  if dst < src ∨ src + n ≤ dst then b.copyForward dst src n
  else if dst ≠ src then b.copyBackward dst src n
  else .ok b

/-- A block of another length with the old contents as far as they fit; what
the new cells hold is given by `rest`. -/
def resize (b : Block α) (length : Nat) (rest : Nat → α) : Block α :=
  { length := length
    cell := fun i => if i < b.length then b.cell i else rest i }

/-- The block with other values from `start` on. -/
def overwrite (b : Block α) (start : Nat) (xs : List α) : Block α :=
  { b with cell := fun k => if k < start then b.cell k else xs.getD (k - start) (b.cell k) }

end Block

theorem load_eq {b : Block α} {i : Nat} (h : i < b.length) : b.load i = .ok (b.cell i) :=
  if_pos h

theorem store_eq {b : Block α} {i : Nat} {x : α} (h : i < b.length) :
    b.store i x = .ok { b with cell := Function.update b.cell i x } :=
  if_pos h

theorem length_slice (b : Block α) (start n : Nat) : (b.slice start n).length = n := by
  simp [Block.slice]

theorem slice_succ (b : Block α) (start n : Nat) :
    b.slice start (n + 1) = b.cell start :: b.slice (start + 1) n := by
  simp only [Block.slice, List.range_succ_eq_map, List.map_cons, List.map_map, Nat.add_zero]
  congr 1
  apply List.map_congr_left
  intro i _
  simp [Nat.add_assoc, Nat.add_comm 1]

theorem slice_add (b : Block α) (start m n : Nat) :
    b.slice start (m + n) = b.slice start m ++ b.slice (start + m) n := by
  simp only [Block.slice, List.range_add, List.map_append, List.map_map]
  congr 1
  apply List.map_congr_left
  intro i _
  simp [Nat.add_assoc]

theorem slice_congr {b c : Block α} {start start' n : Nat}
    (h : ∀ i, i < n → b.cell (start + i) = c.cell (start' + i)) :
    b.slice start n = c.slice start' n :=
  List.map_congr_left fun i hi => h i (List.mem_range.mp hi)

theorem loadList_eq {b : Block α} {i n : Nat} (h : i + n ≤ b.length) :
    b.loadList i n = .ok (b.slice i n) := by
  induction n generalizing i with
  | zero => rfl
  | succ n ih =>
      rw [Block.loadList, load_eq (by omega), slice_succ]
      change (do let xs ← b.loadList (i + 1) n; return b.cell i :: xs) = _
      rw [ih (by omega)]
      rfl

/-- The block after a successful `storeList`. -/
theorem storeList_eq (b : Block α) (i : Nat) (xs : List α) (h : i + xs.length ≤ b.length) :
    ∃ c, b.storeList i xs = .ok c ∧ c.length = b.length ∧ c.slice i xs.length = xs ∧
      ∀ k, k < i → c.cell k = b.cell k := by
  induction xs generalizing b i with
  | nil => exact ⟨b, rfl, rfl, rfl, fun _ _ => rfl⟩
  | cons x xs ih =>
      simp only [List.length_cons] at h
      obtain ⟨c, hc, hlen, hslice, hbelow⟩ :=
        ih { b with cell := Function.update b.cell i x } (i + 1)
          (show i + 1 + xs.length ≤ b.length by omega)
      refine ⟨c, ?_, hlen, ?_, ?_⟩
      · rw [Block.storeList, store_eq (by omega)]
        exact hc
      · rw [List.length_cons, slice_succ, hslice, hbelow i (Nat.lt_succ_self i)]
        simp
      · intro k hk
        rw [hbelow k (by omega)]
        exact Function.update_of_ne (by omega) _ _

theorem take_slice (b : Block α) (start m n : Nat) :
    (b.slice start n).take m = b.slice start (min m n) := by
  simp [Block.slice, ← List.map_take, List.take_range]

theorem drop_slice (b : Block α) (start m n : Nat) :
    (b.slice start n).drop m = b.slice (start + m) (n - m) := by
  rcases Nat.le_total m n with h | h
  · obtain ⟨k, rfl⟩ := Nat.exists_eq_add_of_le h
    have hlen : (b.slice start m).length = m := length_slice b start m
    rw [slice_add, List.drop_left' hlen, Nat.add_sub_cancel_left]
  · rw [List.drop_eq_nil_of_le (by simpa [length_slice] using h), Nat.sub_eq_zero_of_le h]
    rfl

theorem cell_overwrite_of_lt {b : Block α} {start k : Nat} {xs : List α} (h : k < start) :
    (b.overwrite start xs).cell k = b.cell k := if_pos h

theorem cell_overwrite_of_le {b : Block α} {start k : Nat} {xs : List α}
    (h : start + xs.length ≤ k) : (b.overwrite start xs).cell k = b.cell k := by
  refine (if_neg (by omega)).trans ?_
  rw [List.getD_eq_default]
  omega

theorem cell_overwrite {b : Block α} {start k : Nat} {xs : List α} (h : k < xs.length) :
    (b.overwrite start xs).cell (start + k) = xs[k] := by
  refine (if_neg (by omega)).trans ?_
  rw [Nat.add_sub_cancel_left, List.getD_eq_getElem _ _ h]

theorem slice_overwrite_self (b : Block α) (start : Nat) (xs : List α) :
    (b.overwrite start xs).slice start xs.length = xs := by
  apply List.ext_getElem (length_slice _ _ _)
  intro k _ hk
  simp only [Block.slice, List.getElem_map, List.getElem_range]
  exact cell_overwrite hk

/-- The store which `storeList` leaves behind. -/
theorem storeList_overwrite {b : Block α} {i : Nat} {xs : List α} (h : i + xs.length ≤ b.length) :
    b.storeList i xs = .ok (b.overwrite i xs) := by
  induction xs generalizing b i with
  | nil =>
      have hcell : (b.overwrite i []).cell = b.cell := funext fun k => ite_self _
      exact congrArg (fun f => Except.ok { b with cell := f }) hcell.symm
  | cons x xs ih =>
      simp only [List.length_cons] at h
      rw [Block.storeList, store_eq (by omega)]
      refine (ih (b := { b with cell := Function.update b.cell i x })
        (show i + 1 + xs.length ≤ b.length by omega)).trans ?_
      simp only [Block.overwrite, Except.ok.injEq, Block.mk.injEq, true_and]
      funext k
      rcases Nat.lt_trichotomy k i with hk | rfl | hk
      · rw [if_pos (by omega), if_pos hk, Function.update_of_ne (by omega)]
      · simp
      · obtain ⟨j, rfl⟩ := Nat.exists_eq_add_of_lt hk
        rw [if_neg (by omega), if_neg (by omega), Function.update_of_ne (by omega),
          show i + j + 1 - (i + 1) = j by omega, show i + j + 1 - i = j + 1 by omega,
          List.getD_cons_succ]

theorem length_of_storeList {b c : Block α} {i : Nat} {xs : List α}
    (h : b.storeList i xs = .ok c) : c.length = b.length := by
  induction xs generalizing b i with
  | nil =>
      cases h
      rfl
  | cons x xs ih =>
      rw [Block.storeList, Block.store] at h
      split_ifs at h
      · exact ih (b := { b with cell := Function.update b.cell i x }) h
      · cases h

/-- The contents after `n` cells were copied from `src` to `dst`. -/
def moved (b : Block α) (dst src n : Nat) : Nat → α :=
  fun k => if dst ≤ k ∧ k < dst + n then b.cell (src + (k - dst)) else b.cell k

theorem copyForward_eq {b : Block α} {dst src n : Nat} (hdst : dst + n ≤ b.length)
    (hsrc : src + n ≤ b.length) (hover : dst < src ∨ src + n ≤ dst) :
    b.copyForward dst src n = .ok { b with cell := moved b dst src n } := by
  induction n generalizing b dst src with
  | zero =>
      have hcell : moved b dst src 0 = b.cell := funext fun k => if_neg (by omega)
      rw [Block.copyForward, hcell]
  | succ n ih =>
      rw [Block.copyForward, load_eq (by omega)]
      change (do let c ← b.store dst (b.cell src); c.copyForward (dst + 1) (src + 1) n) = _
      rw [store_eq (by omega)]
      refine (ih (b := { b with cell := Function.update b.cell dst (b.cell src) })
        (show dst + 1 + n ≤ b.length by omega) (show src + 1 + n ≤ b.length by omega)
        (by omega)).trans ?_
      congr 2
      funext k
      -- a cell of the source is read before the copy reaches it
      simp only [moved]
      split_ifs with h₁ h₂ h₂
      · rw [Function.update_of_ne (by omega)]
        congr 1
        omega
      · omega
      · obtain rfl : k = dst := by omega
        simp
      · exact Function.update_of_ne (by omega) _ _

theorem copyBackward_eq {b : Block α} {dst src n : Nat} (hdst : dst + n ≤ b.length)
    (hsrc : src + n ≤ b.length) (hover : src ≤ dst) :
    b.copyBackward dst src n = .ok { b with cell := moved b dst src n } := by
  induction n generalizing b with
  | zero =>
      have hcell : moved b dst src 0 = b.cell := funext fun k => if_neg (by omega)
      rw [Block.copyBackward, hcell]
  | succ n ih =>
      rw [Block.copyBackward, load_eq (by omega)]
      change (do
        let c ← b.store (dst + n) (b.cell (src + n))
        c.copyBackward dst src n) = _
      rw [store_eq (by omega)]
      refine (ih (b := { b with cell := Function.update b.cell (dst + n) (b.cell (src + n)) })
        (show dst + n ≤ b.length by omega) (show src + n ≤ b.length by omega)).trans ?_
      congr 2
      funext k
      simp only [moved]
      split_ifs with h₁ h₂ h₂
      · rw [Function.update_of_ne (by omega)]
      · omega
      · obtain rfl : k = dst + n := by omega
        simp
      · exact Function.update_of_ne (by omega) _ _

/-- Overlapping or not, `move` copies the cells the source held before. -/
theorem move_eq {b : Block α} {dst src n : Nat} (hdst : dst + n ≤ b.length)
    (hsrc : src + n ≤ b.length) :
    b.move dst src n = .ok { b with cell := moved b dst src n } := by
  rw [Block.move]
  split_ifs with hforward hne
  · exact copyForward_eq hdst hsrc hforward
  · exact copyBackward_eq hdst hsrc (by omega)
  · obtain rfl : dst = src := by omega
    have hcell : moved b dst dst n = b.cell := by
      funext k
      simp only [moved]
      split_ifs with hk
      · congr 1
        omega
      · rfl
    rw [hcell]

end Ibnos.Blocks
