import Ibnos.Strings
import Mathlib.Algebra.Group.Nat.Defs
import Mathlib.Order.Monotone.Basic

/-!
`_write_r` of the C library. Whenever an object accepts a part of the buffer only, the
rest is tried again, but the pointer to the buffer is not advanced.
-/

namespace Ibnos.BlockingWrites

open Ibnos.Strings

def WORD : Nat := 2 ^ 32

def EPIPE : Nat := 32

/-- The variables of the loop, and the bytes which were accepted by each call. -/
structure Progress where
  ret : Int
  len : Nat
  written : Nat
  pieces : List Bytes

structure Outcome where
  result : Int
  errno : Nat
  pieces : List Bytes
  deriving DecidableEq, Repr

section

/-! `objectWrite i n` is the result of the call number `i`, which is made for `n` bytes. -/

variable (objectWrite : Nat → Nat → Int) (ptr : Bytes)

/-- The loop of `_write_r`. Waiting for the object has no effect on it. -/
def writeLoop : Nat → Nat → Progress → Option Progress
  | 0, _, _ => none
  | fuel + 1, i, s =>
      if s.len = 0 then some s
      else
        let ret := objectWrite i s.len
        if ret < 0 then some { s with ret := ret }
        else writeLoop fuel (i + 1)
          { ret := ret
            len := (s.len + (WORD - ret.toNat)) % WORD
            written := (s.written + ret.toNat) % WORD
            pieces := s.pieces ++ [(ptr.take s.len).take ret.toNat] }

/-- `_write_r`, where `ret` is not initialised before the loop. -/
def writeR (ret : Int) (fuel : Nat) : Option Outcome := do
  let s ← writeLoop objectWrite ptr fuel 0 { ret := ret, len := ptr.length, written := 0, pieces := [] }
  if s.ret < 0 then some ⟨-1, EPIPE, s.pieces⟩
  else some ⟨(s.written : Int).bmod WORD, 0, s.pieces⟩

/-- The number of bytes which were accepted by the calls before the one with number `i`. -/
def offset : Nat → Nat
  | 0 => 0
  | i + 1 => offset i + (objectWrite i (ptr.length - offset i)).toNat

/-- The number of bytes which the call number `i` accepts. -/
def count (i : Nat) : Nat := (objectWrite i (ptr.length - offset objectWrite ptr i)).toNat

/-- The result is the length, and the pieces which were accepted make up the buffer. -/
def Delivers (r : Outcome) : Prop := r.result = ptr.length ∧ r.pieces.flatten = ptr

instance (r : Outcome) : Decidable (Delivers ptr r) := inferInstanceAs (Decidable (_ ∧ _))

/-- Every call accepts some of the bytes it is made for. -/
def Accepts : Prop := ∀ i n, 0 ≤ objectWrite i n ∧ objectWrite i n ≤ n

/-- The variables in front of the round `i`. -/
structure Reached (ret : Int) (i : Nat) (s : Progress) : Prop where
  later : 0 < i → ptr ≠ [] ∧ 0 ≤ s.ret
  first : i = 0 → s.ret = ret
  len : s.len = ptr.length - offset objectWrite ptr i
  written : s.written = offset objectWrite ptr i
  pieces : s.pieces = (List.range i).map fun j => ptr.take (count objectWrite ptr j)

end

section

variable {objectWrite : Nat → Nat → Int} {ptr : Bytes} {ret : Int} {i fuel : Nat} {s s' : Progress}

theorem count_le (ptr : Bytes) (h : Accepts objectWrite) (i : Nat) :
    count objectWrite ptr i ≤ ptr.length - offset objectWrite ptr i := by
  have := (h i (ptr.length - offset objectWrite ptr i)).2
  rw [count]
  omega

theorem offset_le (ptr : Bytes) (h : Accepts objectWrite) (i : Nat) :
    offset objectWrite ptr i ≤ ptr.length := by
  induction i with
  | zero => exact Nat.zero_le _
  | succ i ih =>
      have := count_le ptr h i
      rw [offset]
      rw [count] at this
      omega

theorem Reached.next (h : Accepts objectWrite) (hptr : ptr.length < WORD)
    (hs : Reached objectWrite ptr ret i s) (hlen : s.len ≠ 0) :
    Reached objectWrite ptr ret (i + 1)
      { ret := objectWrite i s.len
        len := (s.len + (WORD - (objectWrite i s.len).toNat)) % WORD
        written := (s.written + (objectWrite i s.len).toNat) % WORD
        pieces := s.pieces ++ [(ptr.take s.len).take (objectWrite i s.len).toNat] } := by
  have hcount : (objectWrite i s.len).toNat = count objectWrite ptr i := by rw [hs.len, count]
  have hle := count_le ptr h i
  have hoffset := offset_le ptr h i
  have hsucc : offset objectWrite ptr (i + 1) = offset objectWrite ptr i +
    count objectWrite ptr i := rfl
  have hne : ptr ≠ [] := by
    rintro rfl
    exact hlen (hs.len.trans (Nat.zero_sub _))
  rw [WORD] at hptr
  refine ⟨fun _ => ⟨hne, (h i s.len).1⟩, fun hcontra => (Nat.succ_ne_zero i hcontra).elim,
    ?_, ?_, ?_⟩
  · change (s.len + (WORD - (objectWrite i s.len).toNat)) % WORD = _
    rw [hcount, hs.len, hsucc, WORD]
    omega
  · change (s.written + (objectWrite i s.len).toNat) % WORD = _
    rw [hcount, hs.written, hsucc, WORD]
    omega
  · change s.pieces ++ _ = _
    rw [hcount, hs.pieces, hs.len, List.range_succ, List.map_append, List.take_take,
      Nat.min_eq_left hle]
    rfl

/-- A loop which ends has written everything. -/
theorem writeLoop_reached (h : Accepts objectWrite) (hptr : ptr.length < WORD)
    (hs : Reached objectWrite ptr ret i s) (hrun : writeLoop objectWrite ptr fuel i s = some s') :
    ∃ n, Reached objectWrite ptr ret n s' ∧ s'.len = 0 := by
  induction fuel generalizing i s with
  | zero => cases hrun
  | succ fuel ih =>
      rw [writeLoop] at hrun
      split_ifs at hrun with hlen
      · obtain rfl := Option.some.inj hrun
        exact ⟨i, hs, hlen⟩
      · simp only [if_neg (Int.not_lt.mpr (h i s.len).1)] at hrun
        exact ih (hs.next h hptr hlen) hrun

theorem length_pieces (ptr : Bytes) (h : Accepts objectWrite) (n : Nat) :
    ((List.range n).map fun j => ptr.take (count objectWrite ptr j)).flatten.length =
      offset objectWrite ptr n := by
  induction n with
  | zero => rfl
  | succ n ih =>
      have hle := count_le ptr h n
      rw [List.range_succ, List.map_append, List.flatten_append, List.length_append, ih]
      simp only [List.map_cons, List.map_nil, List.flatten_cons, List.flatten_nil, List.append_nil,
        List.length_take]
      change _ = offset objectWrite ptr n + count objectWrite ptr n
      omega

/-- The pieces are the beginning of the buffer if each of them is found at its place. -/
theorem flatten_pieces_iff (ptr : Bytes) (h : Accepts objectWrite) (n : Nat) :
    ((List.range n).map fun j => ptr.take (count objectWrite ptr j)).flatten =
        ptr.take (offset objectWrite ptr n) ↔
      ∀ i < n, (ptr.drop (offset objectWrite ptr i)).take (count objectWrite ptr i) =
        ptr.take (count objectWrite ptr i) := by
  induction n with
  | zero => simp [offset]
  | succ n ih =>
      have hlength := length_pieces ptr h n
      have hoffset := offset_le ptr h n
      have hbefore :
        ((List.range n).map fun j => ptr.take (count objectWrite ptr j)).flatten.length =
          (ptr.take (offset objectWrite ptr n)).length := by
        rw [hlength, List.length_take, Nat.min_eq_left hoffset]
      have htake : ptr.take (offset objectWrite ptr (n + 1)) =
        ptr.take (offset objectWrite ptr n) ++
          (ptr.drop (offset objectWrite ptr n)).take (count objectWrite ptr n) := List.take_add
      have hsplit : ((List.range (n + 1)).map fun j => ptr.take (count objectWrite ptr j)).flatten =
          ((List.range n).map fun j => ptr.take (count objectWrite ptr j)).flatten ++
            ptr.take (count objectWrite ptr n) := by
        rw [List.range_succ, List.map_append, List.flatten_append]
        simp
      rw [hsplit, htake, List.append_eq_append_iff_of_size_eq_left hbefore, ih,
        Nat.forall_lt_succ_right,
        eq_comm (a := ptr.take (count objectWrite ptr n))]

theorem writeR_eq_some {r : Outcome} (h : Accepts objectWrite) (hptr : ptr.length < WORD)
    (hrun : writeR objectWrite ptr ret fuel = some r) : ∃ n s,
      Reached objectWrite ptr ret n s ∧ s.len = 0 ∧
        r = if s.ret <
          0 then ⟨-1, EPIPE, s.pieces⟩ else ⟨(s.written : Int).bmod WORD, 0, s.pieces⟩ := by
  rw [writeR, Option.bind_eq_bind, Option.bind_eq_some_iff] at hrun
  obtain ⟨s, hloop, hr⟩ := hrun
  have hstart : Reached objectWrite ptr ret 0
    { ret := ret, len := ptr.length, written := 0, pieces := [] } :=
    ⟨nofun, fun _ => rfl, rfl, rfl, rfl⟩
  obtain ⟨n, hs, hlen⟩ := writeLoop_reached h hptr hstart hloop
  refine ⟨n, s, hs, hlen, ?_⟩
  split_ifs at hr ⊢ with hret
  · exact (Option.some.inj hr).symm
  · exact (Option.some.inj hr).symm

/-- A write which ends delivers its buffer if and only if the length is one of a result, `ret`
was not negative in front of an empty buffer, and whatever is accepted behind
the beginning of the buffer is the same as what is found at its beginning. -/
theorem blocking_write_iff (objectWrite : Nat → Nat → Int) (ptr : Bytes) (ret : Int) (fuel : Nat)
    (r : Outcome) (h : Accepts objectWrite) (hptr : ptr.length < WORD)
    (hrun : writeR objectWrite ptr ret fuel = some r) : Delivers ptr r ↔
      (ptr = [] → 0 ≤ ret) ∧ ptr.length < 2 ^ 31 ∧
        ∀ i, (ptr.drop (offset objectWrite ptr i)).take (count objectWrite ptr i) =
          ptr.take (count objectWrite ptr i) := by
  obtain ⟨n, s, hs, hlen, rfl⟩ := writeR_eq_some h hptr hrun
  have hle := offset_le ptr h n
  have hoffset : offset objectWrite ptr n = ptr.length := by
    have := hs.len
    omega
  have hwritten : s.written = ptr.length := hs.written.trans hoffset
  have hret : s.ret < 0 ↔ ptr = [] ∧ ret < 0 := by
    rcases Nat.eq_zero_or_pos n with rfl | hn
    · rw [hs.first rfl]
      exact ⟨fun hneg => ⟨List.eq_nil_of_length_eq_zero hoffset.symm, hneg⟩, fun hneg => hneg.2⟩
    · have hlater := hs.later hn
      exact ⟨fun hneg => absurd hlater.2 (Int.not_le.mpr hneg), fun hneg => (hlater.1 hneg.1).elim⟩
  have hbehind : ∀ i, n ≤ i → count objectWrite ptr i = 0 := by
    intro i hi
    have hmono : ptr.length ≤ offset objectWrite ptr i := by
      rw [← hoffset]
      exact monotone_nat_of_le_succ (fun j => Nat.le_add_right _ _) hi
    have hcount := count_le ptr h i
    omega
  have hpieces : s.pieces.flatten = ptr ↔
      ∀ i, (ptr.drop (offset objectWrite ptr i)).take (count objectWrite ptr i) =
        ptr.take (count objectWrite ptr i) := by
    have hall := flatten_pieces_iff ptr h n
    rw [hoffset, List.take_length] at hall
    rw [hs.pieces, hall]
    refine ⟨fun hpiece i => ?_, fun hpiece i _ => hpiece i⟩
    rcases Nat.lt_or_ge i n with hi | hi
    · exact hpiece i hi
    · rw [hbehind i hi, List.take_zero, List.take_zero]
  rw [Delivers]
  split_ifs with hneg
  · have hempty := hret.mp hneg
    refine ⟨fun hdelivers => ?_, fun hcondition => ?_⟩
    · have hlength := hdelivers.1
      simp only at hlength
      omega
    · exact absurd (hcondition.1 hempty.1) (Int.not_le.mpr hempty.2)
  · have hinitial : ptr = [] → 0 ≤ ret :=
      fun hnil => Int.not_lt.mp fun hlt => hneg (hret.mpr ⟨hnil, hlt⟩)
    have hresult : (s.written : Int).bmod WORD = ptr.length ↔ ptr.length < 2 ^ 31 := by
      have hword : WORD = 4294967296 := rfl
      rw [hword] at hptr ⊢
      rw [hwritten, Int.bmod_def]
      split_ifs <;> omega
    rw [and_iff_right hinitial, hresult, hpieces]

/-- An object which accepts two bytes at first, and then everything. -/
def twoFirst (i n : Nat) : Int := if i = 0 then min 2 n else n

theorem accepts_twoFirst : Accepts twoFirst := by
  intro i n
  rw [twoFirst]
  split_ifs <;> omega

theorem blocking_write_iff_repeated : Accepts twoFirst ∧
    writeR twoFirst [1, 2, 1, 2] 0 3 = some ⟨4, 0, [[1, 2], [1, 2]]⟩ ∧
    (Delivers [1, 2, 1, 2] ⟨4, 0, [[1, 2], [1, 2]]⟩ ↔
      (([1, 2, 1, 2] : Bytes) = [] → 0 ≤ (0 : Int)) ∧
      ([1, 2, 1, 2] : Bytes).length < 2 ^ 31 ∧
        ∀ i, (([1, 2, 1, 2] : Bytes).drop (offset twoFirst [1, 2, 1, 2] i)).take
            (count twoFirst [1, 2, 1, 2] i) =
          ([1, 2, 1, 2] : Bytes).take (count twoFirst [1, 2, 1, 2] i)) :=
  ⟨accepts_twoFirst, by decide, blocking_write_iff twoFirst [1, 2, 1, 2] 0 3 _ accepts_twoFirst
    (by decide) (by decide)⟩

/-- The beginning of the buffer is written twice, and its end not at all. -/
theorem blocking_write_repeats : Accepts twoFirst ∧
    writeR twoFirst [1, 2, 3, 4] 0 3 = some ⟨4, 0, [[1, 2], [1, 2]]⟩ ∧
    ¬Delivers [1, 2, 3, 4] ⟨4, 0, [[1, 2], [1, 2]]⟩ :=
  ⟨accepts_twoFirst, by decide, by decide⟩

end

end Ibnos.BlockingWrites
