import Ibnos.ByteMemories

/-!
Records of words in a memory which is addressed by bytes. The fields of a record do not
overlap, and records which lie apart do not disturb each other.
-/

namespace Ibnos.WordRecords

open Ibnos.ByteMemories

/-- Where the fields of a record of `size` bytes are. -/
structure Shape (F : Type) where
  offset : F → Nat
  size : Nat
  fits : ∀ f, offset f + 4 ≤ size
  separate : ∀ f g, f ≠ g → offset f + 4 ≤ offset g ∨ offset g + 4 ≤ offset f

section

variable {F : Type}

def get (r : Shape F) (m : Memory) (x : Nat) (f : F) : Nat := word m (x + r.offset f)

def set (r : Shape F) (m : Memory) (x : Nat) (f : F) (w : Nat) : Memory :=
  putWord m (x + r.offset f) w

/-- The records at `x` and `y` are the same or do not overlap. -/
def Apart (r : Shape F) (x y : Nat) : Prop := x = y ∨ x + r.size ≤ y ∨ y + r.size ≤ x

variable {r : Shape F} {m m' : Memory} {a x y w : Nat} {f g : F}

theorem get_lt (r : Shape F) (m : Memory) (x : Nat) (f : F) : get r m x f < 2 ^ 32 :=
  word_lt m _

theorem set_frame (h : a < x ∨ x + r.size ≤ a) : set r m x f w a = m a := by
  have hfits := r.fits f
  exact putWord_frame (by omega)

/-- A field is the same if all bytes of its record are. -/
theorem get_congr (h : ∀ a, x ≤ a → a < x + r.size → m' a = m a) : get r m' x f = get r m x f := by
  have hfits := r.fits f
  exact word_congr fun i hi => h _ (by omega) (by omega)

theorem get_set_self (hw : w < 2 ^ 32) : get r (set r m x f w) x f = w := by
  rw [get, set, word_putWord, Nat.mod_eq_of_lt hw]

theorem get_set_field (hfg : g ≠ f) : get r (set r m x f w) x g = get r m x g := by
  have hseparate := r.separate g f hfg
  exact word_congr fun i hi => putWord_frame (by omega)

theorem get_set_apart (hxy : y ≠ x) (h : Apart r x y) :
    get r (set r m x f w) y g = get r m y g := by
  refine get_congr fun a hle hlt => set_frame ?_
  rcases h with h | h | h
  · exact absurd h.symm hxy
  · omega
  · omega

/-- What a record looks like after a field of another one, or its own, is set. -/
theorem get_set [DecidableEq F] (hw : w < 2 ^ 32) (h : Apart r x y) :
    get r (set r m x f w) y g = if y = x ∧ g = f then w else get r m y g := by
  by_cases hxy : y = x
  · subst hxy
    by_cases hfg : g = f
    · subst hfg
      rw [if_pos ⟨rfl, rfl⟩, get_set_self hw]
    · rw [if_neg fun hcontra => hfg hcontra.2, get_set_field hfg]
  · rw [if_neg fun hcontra => hxy hcontra.1, get_set_apart hxy h]

end

end Ibnos.WordRecords
