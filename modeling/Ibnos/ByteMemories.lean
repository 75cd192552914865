import Mathlib.Algebra.Group.Nat.Defs
import Mathlib.Data.List.GetD
import Mathlib.Logic.Function.Basic
import Mathlib.Tactic.Common

/-!
Memory which is addressed by bytes. Words have four bytes, the lowest one first.
-/

namespace Ibnos.ByteMemories

abbrev Memory := Nat → BitVec 8

section

def word (m : Memory) (a : Nat) : Nat :=
  (m a).toNat + 2 ^ 8 * (m (a + 1)).toNat + 2 ^ 16 * (m (a + 2)).toNat + 2 ^ 24 * (m (a + 3)).toNat

/-- Only the lowest 32 bits are stored. -/
def putWord (m : Memory) (a w : Nat) : Memory := fun x =>
  if x = a then BitVec.ofNat 8 w
  else if x = a + 1 then BitVec.ofNat 8 (w / 2 ^ 8)
  else if x = a + 2 then BitVec.ofNat 8 (w / 2 ^ 16)
  else if x = a + 3 then BitVec.ofNat 8 (w / 2 ^ 24)
  else m x

def putBytes (m : Memory) (a : Nat) (bytes : List (BitVec 8)) : Memory := fun x =>
  if a ≤ x ∧ x < a + bytes.length then bytes.getD (x - a) 0 else m x

/-- The `n` bytes of `m` from `a` on are copied to `b`. -/
def copy (m : Memory) (a : Nat) (m' : Memory) (b n : Nat) : Memory := fun x =>
  if b ≤ x ∧ x < b + n then m (a + (x - b)) else m' x

/-- The `n` bytes from `a` on are `c`. -/
def fill (m : Memory) (a n : Nat) (c : BitVec 8) : Memory := fun x =>
  if a ≤ x ∧ x < a + n then c else m x

/-- The bytes from `a` on. -/
def Holds (m : Memory) (a : Nat) (bytes : List (BitVec 8)) : Prop :=
  ∀ i, i < bytes.length → m (a + i) = bytes.getD i 0

/-- For every pointer the bytes behind it which are known. -/
abbrev Contents := Nat → Nat → Option (BitVec 8)

def Contents.drop (w : Contents) (addr : Nat) : Contents := Function.update w addr fun _ => none

variable {m m' : Memory} {a b w x : Nat} {bytes : List (BitVec 8)}

theorem word_lt (m : Memory) (a : Nat) : word m a < 2 ^ 32 := by
  have h₀ := (m a).isLt
  have h₁ := (m (a + 1)).isLt
  have h₂ := (m (a + 2)).isLt
  have h₃ := (m (a + 3)).isLt
  simp only [word]
  omega

theorem word_congr (h : ∀ i, i < 4 → m' (b + i) = m (a + i)) : word m' b = word m a := by
  have h₀ := h 0 (by decide)
  have h₁ := h 1 (by decide)
  have h₂ := h 2 (by decide)
  have h₃ := h 3 (by decide)
  simp only [Nat.add_zero] at h₀
  rw [word, word, h₀, h₁, h₂, h₃]

theorem putWord_frame (h : x < a ∨ a + 4 ≤ x) : putWord m a w x = m x := by
  rw [putWord, if_neg (by omega), if_neg (by omega), if_neg (by omega), if_neg (by omega)]

theorem word_putWord (m : Memory) (a w : Nat) : word (putWord m a w) a = w % 2 ^ 32 := by
  simp [word, putWord]
  omega

theorem putBytes_frame (h : x < a ∨ a + bytes.length ≤ x) : putBytes m a bytes x = m x := by
  rw [putBytes, if_neg (by omega)]

theorem holds_putBytes (m : Memory) (a : Nat) (bytes : List (BitVec 8)) :
    Holds (putBytes m a bytes) a bytes := by
  intro i hi
  rw [putBytes, if_pos (by omega), Nat.add_sub_cancel_left]

theorem copy_apply {n i : Nat} (hi : i < n) : copy m a m' b n (b + i) = m (a + i) := by
  rw [copy, if_pos (by omega), Nat.add_sub_cancel_left]

theorem copy_frame {n : Nat} (hx : x < b ∨ b + n ≤ x) : copy m a m' b n x = m' x :=
  if_neg (by omega)

/-- A word which is loaded and stored is copied byte by byte. -/
theorem putWord_word (m m' : Memory) (a b : Nat) :
    putWord m' b (word m a) = copy m a m' b 4 := by
  have h₀ := (m a).isLt
  have h₁ := (m (a + 1)).isLt
  have h₂ := (m (a + 2)).isLt
  have h₃ := (m (a + 3)).isLt
  have hbyte : ∀ (c : BitVec 8) (w : Nat), w % 2 ^ 8 = c.toNat → BitVec.ofNat 8 w = c := by
    intro c w hw
    apply BitVec.eq_of_toNat_eq
    rw [BitVec.toNat_ofNat, hw]
  funext x
  rw [putWord]
  split_ifs with hx₀ hx₁ hx₂ hx₃
  · rw [hx₀, hbyte (m a) _ (by rw [word]; omega)]
    exact (copy_apply (i := 0) (by decide)).symm
  · rw [hx₁, hbyte (m (a + 1)) _ (by rw [word]; omega)]
    exact (copy_apply (by decide)).symm
  · rw [hx₂, hbyte (m (a + 2)) _ (by rw [word]; omega)]
    exact (copy_apply (by decide)).symm
  · rw [hx₃, hbyte (m (a + 3)) _ (by rw [word]; omega)]
    exact (copy_apply (by decide)).symm
  · exact (copy_frame (by omega)).symm

/-- A copy inside of one memory in two parts. -/
theorem copy_add {k n : Nat} (h : b + (k + n) ≤ a ∨ a + (k + n) ≤ b) :
    copy (copy m a m b k) (a + k) (copy m a m b k) (b + k) n = copy m a m b (k + n) := by
  funext x
  rcases Nat.lt_or_ge x b with hlow | hlow
  · rw [copy_frame (by omega), copy_frame (by omega), copy_frame (by omega)]
  · obtain ⟨i, rfl⟩ := Nat.exists_eq_add_of_le hlow
    rcases Nat.lt_or_ge i k with hi | hi
    · rw [copy_frame (by omega), copy_apply hi, copy_apply (by omega)]
    · obtain ⟨j, rfl⟩ := Nat.exists_eq_add_of_le hi
      rcases Nat.lt_or_ge j n with hj | hj
      · rw [← Nat.add_assoc, copy_apply hj, copy_frame (by omega), Nat.add_assoc b,
          copy_apply (by omega), Nat.add_assoc]
      · rw [copy_frame (by omega), copy_frame (by omega), copy_frame (by omega)]

theorem fill_apply {n i : Nat} {c : BitVec 8} (hi : i < n) : fill m a n c (a + i) = c :=
  if_pos (by omega)

theorem fill_frame {n : Nat} {c : BitVec 8} (hx : x < a ∨ a + n ≤ x) : fill m a n c x = m x :=
  if_neg (by omega)

theorem Holds.congr (h : Holds m a bytes) (hm : ∀ i, i < bytes.length → m' (b + i) = m (a + i)) :
    Holds m' b bytes := fun i hi => (hm i hi).trans (h i hi)

theorem drop_some {w : Contents} {addr i : Nat} {b : BitVec 8} (hb : w.drop addr a i = some b) :
    a ≠ addr ∧ w a i = some b := by
  rcases eq_or_ne a addr with rfl | hne
  · rw [Contents.drop, Function.update_self] at hb
    cases hb
  · rw [Contents.drop, Function.update_of_ne hne] at hb
    exact ⟨hne, hb⟩

end

end Ibnos.ByteMemories
