import Mathlib.Algebra.Order.Ring.Nat
import Mathlib.Tactic.Ring

/-!
Growth of a buffer by doubling: the loop `while (n < bound) n *= 2`.
-/

namespace Ibnos.Doubling

/-- Double `n` until it is not below `bound`, in at most `fuel` rounds. -/
def doubleUntil : Nat → Nat → Nat → Nat
  | 0, n, _ => n
  | fuel + 1, n, bound => if n < bound then doubleUntil fuel (2 * n) bound else n

theorem doubleUntil_of_le {fuel n bound : Nat} (h : bound ≤ n) :
    doubleUntil fuel n bound = n := by
  cases fuel with
  | zero => rfl
  | succ fuel => rw [doubleUntil, if_neg (by omega)]

theorem exists_doubleUntil_eq (fuel n bound : Nat) :
    ∃ k, doubleUntil fuel n bound = n * 2 ^ k := by
  induction fuel generalizing n with
  | zero => exact ⟨0, by simp [doubleUntil]⟩
  | succ fuel ih =>
      rw [doubleUntil]
      split
      · obtain ⟨k, hk⟩ := ih (2 * n)
        exact ⟨k + 1, by rw [hk]; ring⟩
      · exact ⟨0, by simp⟩

theorem le_doubleUntil_of_le {fuel n bound : Nat} (h : bound ≤ n * 2 ^ fuel) :
    bound ≤ doubleUntil fuel n bound := by
  induction fuel generalizing n with
  | zero => simpa [doubleUntil] using h
  | succ fuel ih =>
      rw [doubleUntil]
      split
      · apply ih
        calc bound ≤ n * 2 ^ (fuel + 1) := h
          _ = 2 * n * 2 ^ fuel := by ring
      · omega

/-- With one round for every unit of the bound the loop always reaches it. -/
theorem le_doubleUntil {n : Nat} (hn : 0 < n) (bound : Nat) :
    bound ≤ doubleUntil bound n bound := by
  apply le_doubleUntil_of_le
  calc bound ≤ 2 ^ bound := Nat.lt_two_pow_self.le
    _ ≤ n * 2 ^ bound := Nat.le_mul_of_pos_left _ hn

/-- The loop stays below a limit that is itself the start doubled some times. -/
theorem doubleUntil_le (fuel : Nat) {n bound k : Nat} (hbound : bound ≤ n * 2 ^ k) :
    doubleUntil fuel n bound ≤ n * 2 ^ k := by
  induction fuel generalizing n k with
  | zero => exact Nat.le_mul_of_pos_right _ (Nat.two_pow_pos _)
  | succ fuel ih =>
      rw [doubleUntil]
      split
      · rename_i hlt
        cases k with
        | zero => omega
        | succ k =>
            rw [show n * 2 ^ (k + 1) = 2 * n * 2 ^ k by ring] at hbound ⊢
            exact ih hbound
      · exact Nat.le_mul_of_pos_right _ (Nat.two_pow_pos _)

end Ibnos.Doubling
