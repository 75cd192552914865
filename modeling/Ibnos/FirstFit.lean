import Mathlib.Order.Bounds.Basic
import Mathlib.Tactic.Common

/-!
The search for consecutive free places, one place after the other. The search
remembers where the current run of free places begins, and it ends as soon as
the place `last start` is reached.
-/

namespace Ibnos.FirstFit

variable {free : Nat → Bool} {last : Nat → Nat} {length n m i start a : Nat}

/-- The next `n` places from `i` on. All places from `start` up to `i` are free. -/
def scan (free : Nat → Bool) (last : Nat → Nat) : Nat → Nat → Nat → Option Nat
  | 0, _, _ => none
  | n + 1, i, start =>
      if free i then
        if last start ≤ i then some start else scan free last n (i + 1) start
      else scan free last n (i + 1) (i + 1)

theorem scan_congr {last' : Nat → Nat} (h : ∀ b, start ≤ b → b < i + n → last b = last' b)
    (hle : start ≤ i) : scan free last n i start = scan free last' n i start := by
  induction n generalizing i start with
  | zero => rfl
  | succ n ih =>
      rw [scan, scan, h start le_rfl (by omega)]
      rw [@ih (i + 1) start (fun b hb hlt => h b hb (by omega)) (by omega)]
      rw [@ih (i + 1) (i + 1) (fun b hb hlt => h b (by omega) (by omega)) le_rfl]

/-- Free places which follow each other can be taken at once. -/
theorem scan_skip (hpos : 1 ≤ m) (hfree : ∀ q, i ≤ q → q < i + m → free q = true) :
    scan free last (m + n) i start =
      if last start ≤ i + m - 1 then some start else scan free last n (i + m) start := by
  induction m, hpos using Nat.le_induction generalizing i with
  | base =>
      rw [Nat.add_comm 1 n, scan, if_pos (hfree i le_rfl (by omega))]
      rfl
  | succ m hm ih =>
      rw [Nat.add_right_comm, scan, if_pos (hfree i le_rfl (by omega))]
      split
      · next hle => rw [if_pos (by omega)]
      · next hlt =>
        rw [ih fun q hle hq => hfree q (by omega) (by omega)]
        have hend : i + 1 + m = i + (m + 1) := by omega
        rw [hend]

/-- An area of the given length whose places are all free. -/
def Fits (free : Nat → Bool) (length a : Nat) : Prop := ∀ q, a ≤ q → q < a + length → free q = true

/-- The area which is found is the first one. -/
theorem scan_least (hlast : ∀ b, last b = b + length - 1) (hle : start ≤ i)
    (hlt : i < start + length)
    (hfree : ∀ q, start ≤ q → q < i → free q = true) :
    (∀ a, scan free last n i start = some a →
      IsLeast {b | start ≤ b ∧ b + length ≤ i + n ∧ Fits free length b} a) ∧
    (scan free last n i start = none →
      ∀ b, start ≤ b → b + length ≤ i + n → ¬Fits free length b) := by
  induction n generalizing i start with
  | zero => exact ⟨nofun, fun _ b hb hend _ => by omega⟩
  | succ n ih =>
      rw [scan]
      split
      · next hi =>
        have hfree' : ∀ q, start ≤ q → q < i + 1 → free q = true := by
          intro q hq hqi
          rcases Nat.lt_succ_iff_lt_or_eq.mp hqi with hq' | rfl
          · exact hfree q hq hq'
          · exact hi
        split
        · next hend =>
          rw [hlast] at hend
          refine ⟨?_, nofun⟩
          rintro a ⟨⟩
          exact ⟨⟨le_rfl, by omega, fun q hq hq' => hfree' q hq (by omega)⟩, fun b hb => hb.1⟩
        · next hend =>
          rw [hlast] at hend
          rw [Nat.add_comm n 1, ← Nat.add_assoc]
          exact ih (by omega) (by omega) hfree'
      · next hi =>
        obtain ⟨hsome, hnone⟩ := @ih (i + 1) (i + 1) le_rfl (by omega) (by omega)
        -- no area which begins up to `i` is free, since `i` is not
        have hused : ∀ b, start ≤ b → Fits free length b → i + 1 ≤ b := by
          intro b hb hfits
          by_contra hbi
          exact hi (hfits i (by omega) (by omega))
        rw [Nat.add_comm n 1, ← Nat.add_assoc]
        refine ⟨fun a ha => ?_, fun hnone' b hb hend hfits => ?_⟩
        · obtain ⟨⟨hstart, hend, hfits⟩, hleast⟩ := hsome a ha
          refine ⟨⟨by omega, hend, hfits⟩, fun b hb => ?_⟩
          exact hleast ⟨hused b hb.1 hb.2.2, hb.2⟩
        · exact hnone hnone' b (hused b hb hfits) hend hfits

/-- Where it only depends on the first place whether a run is long enough, the
first such run is found. -/
theorem scan_run {enough : Nat → Prop} (hlast : ∀ b j, start ≤ b → b ≤ j → j < i + n →
      (last b ≤ j ↔ enough b)) (hle : start ≤ i) (hbefore : start < i → ¬enough start) :
    (∀ a, scan free last n i start = some a → enough a ∧ free a = true ∧ a < i + n ∧
      (a = start ∧ start = i ∨ i < a ∧ free (a - 1) = false)) ∧
    (scan free last n i start = none → (start = i → 0 < n → free i = true → ¬enough i) ∧
      ∀ a, i < a → a < i + n → free (a - 1) = false → free a = true → ¬enough a) := by
  induction n generalizing i start with
  | zero => exact ⟨nofun, fun _ => ⟨fun _ hpos => by omega, fun a ha hlt => by omega⟩⟩
  | succ n ih =>
      rw [scan]
      split
      · next hi =>
        split
        · next hend =>
          have henough := (hlast start i le_rfl hle (by omega)).mp hend
          have heq : start = i := by
            by_contra hne
            exact hbefore (by omega) henough
          refine ⟨?_, nofun⟩
          rintro a ⟨⟩
          subst heq
          exact ⟨henough, hi, by omega, Or.inl ⟨rfl, rfl⟩⟩
        · next hend =>
          have hshort : ¬enough start := fun h => hend ((hlast start i le_rfl hle (by omega)).mpr h)
          obtain ⟨hsome, hnone⟩ := @ih (i + 1) start
            (fun b j hb hj hlt => hlast b j hb hj (by omega)) (by omega) fun _ => hshort
          refine ⟨fun a ha => ?_,
            fun hr => ⟨fun heq _ _ => heq ▸ hshort, fun a ha hlt hused hfree => ?_⟩⟩
          · obtain ⟨henough, hfree, hlt, ⟨-, heq⟩ | ⟨hgt, hused⟩⟩ := hsome a ha
            · omega
            · exact ⟨henough, hfree, by omega, Or.inr ⟨by omega, hused⟩⟩
          · obtain ⟨-, hrest⟩ := hnone hr
            rcases Nat.eq_or_lt_of_le (Nat.succ_le_of_lt ha) with heq | hgt
            · rw [← heq, Nat.succ_eq_add_one, Nat.add_sub_cancel, hi] at hused
              cases hused
            · exact hrest a hgt (by omega) hused hfree
      · next hi =>
        have hi' : free i = false := Bool.eq_false_iff.mpr hi
        obtain ⟨hsome, hnone⟩ := @ih (i + 1) (i + 1)
          (fun b j hb hj hlt => hlast b j (by omega) hj (by omega)) le_rfl fun hlt => by omega
        refine ⟨fun a ha => ?_,
          fun hr => ⟨fun _ _ hfree => absurd hfree hi, fun a ha hlt hused hfree => ?_⟩⟩
        · obtain ⟨henough, hfree, hlt, ⟨rfl, -⟩ | ⟨hgt, hused⟩⟩ := hsome a ha
          · exact ⟨henough, hfree, by omega, Or.inr ⟨by omega, hi'⟩⟩
          · exact ⟨henough, hfree, by omega, Or.inr ⟨by omega, hused⟩⟩
        · obtain ⟨hfirst, hrest⟩ := hnone hr
          rcases Nat.eq_or_lt_of_le (Nat.succ_le_of_lt ha) with heq | hgt
          · rw [← heq] at hfree ⊢
            exact hfirst rfl (by omega) hfree
          · exact hrest a hgt (by omega) hused hfree

end Ibnos.FirstFit
