import Ibnos.Archives

/-!
The checksum of a header. The bytes are added as signed ones, so that every byte
from the upper half counts 256 less than it does in the sum which is written there.
-/

namespace Ibnos.TarChecksums

open Ibnos.Archives
open Ibnos.Strings

/-- The sum of the bytes, which are not signed. -/
def unsignedSum (bytes : Bytes) : Nat := (bytes.map (·.toNat)).sum

/-- The number of bytes from the upper half. -/
def highBytes (bytes : Bytes) : Nat := bytes.countP (128 ≤ ·)

/-- The header around its checksum. -/
def checkedBytes (header : Bytes) : Bytes := field header 0 148 ++ field header 156 356

/-- The sum of a header in which the checksum is filled with spaces. -/
def headerSum (header : Bytes) : Nat := unsignedSum (checkedBytes header) + 8 * 32

/-- The number in octal, behind spaces and zeros and in front of zero bytes and spaces. -/
structure HoldsOctal (str : Bytes) (n : Nat) : Prop where
  parts : ∃ spaces digits ending, str = List.replicate spaces SPACE ++ digits ++ ending ∧
    digits ≠ [] ∧ (∀ c ∈ digits, isOctal c = true) ∧ (∀ c ∈ ending, c = 0 ∨ c = SPACE) ∧
    n = Nat.ofDigits 8 (digits.map (·.toNat - 48)).reverse

/-- The header is accepted if and only if its field holds the sum. -/
def Right (header : Bytes) (n : Nat) : Prop :=
  tarVerifyChecksum header 0 = true ↔ n = headerSum header

section

variable {header str : Bytes} {n : Nat}

theorem toInt8_toInt (b : UInt8) :
    b.toInt8.toInt = (b.toNat : Int) - if 128 ≤ b then 256 else 0 := by
  have hle : 128 ≤ b ↔ 128 ≤ b.toNat := UInt8.le_iff_toNat_le
  have hlt := b.toNat_lt
  change b.toBitVec.toInt = _
  rw [BitVec.toInt_eq_toNat_cond]
  change (if 2 * b.toNat < 256 then (b.toNat : Int) else (b.toNat : Int) - 256) = _
  simp only [hle]
  split_ifs <;> omega

theorem signedSum_eq (bytes : Bytes) :
    signedSum bytes = (unsignedSum bytes : Int) - 256 * highBytes bytes := by
  induction bytes with
  | nil => rfl
  | cons b bytes ih =>
      rw [signedSum] at ih
      rw [signedSum, unsignedSum, highBytes, List.map_cons, List.sum_cons, ih, toInt8_toInt,
        List.map_cons, List.sum_cons, List.countP_cons]
      change _ = ((b.toNat + unsignedSum bytes : Nat) : Int) - 256 * (highBytes bytes + _ : Nat)
      simp only [decide_eq_true_eq]
      split_ifs <;> push_cast <;> omega

theorem unsignedSum_le (bytes : Bytes) : unsignedSum bytes ≤ 255 * bytes.length := by
  induction bytes with
  | nil => exact Nat.le_refl _
  | cons b bytes ih =>
      have hlt := b.toNat_lt
      change b.toNat + unsignedSum bytes ≤ 255 * (bytes.length + 1)
      omega

/-- What stands in front of the number and behind it is skipped. -/
theorem HoldsOctal.octalNumber_eq (h : HoldsOctal str n) : octalNumber str = some n := by
  obtain ⟨spaces, digits, ending, rfl, hne, hdigits, hending, rfl⟩ := h.parts
  obtain ⟨d, ds, rfl⟩ := List.exists_cons_of_ne_nil hne
  have hd : d ≠ SPACE := by
    rintro rfl
    exact absurd (hdigits SPACE List.mem_cons_self) (by decide)
  have hskip : (List.replicate spaces SPACE ++ (d :: ds) ++ ending).dropWhile (· = SPACE) =
      (d :: ds) ++ ending := by
    rw [List.append_assoc, List.dropWhile_append_of_pos (by simp), List.cons_append,
      List.dropWhile_cons_of_neg (by simpa using hd)]
  have hstop : ending.takeWhile isOctal = [] ∧ ending.dropWhile isOctal = ending := by
    rcases ending with _ | ⟨c, ending⟩
    · exact ⟨rfl, rfl⟩
    · have hc : isOctal c = false := by
        rcases hending c List.mem_cons_self with rfl | rfl
        · decide
        · decide
      exact ⟨List.takeWhile_cons_of_neg (by simp [hc]), List.dropWhile_cons_of_neg (by simp [hc])⟩
  have htake : octalDigits (List.replicate spaces SPACE ++ (d :: ds) ++ ending) = d :: ds := by
    rw [octalDigits, hskip, List.takeWhile_append_of_pos hdigits, hstop.1, List.append_nil]
  have hbehind : behindDigits (List.replicate spaces SPACE ++ (d :: ds) ++ ending) =
      ending.dropWhile (· = SPACE) := by
    rw [behindDigits, hskip, List.dropWhile_append_of_pos hdigits, hstop.2]
  rw [octalNumber, htake, hbehind, if_pos]
  rcases hrest : ending.dropWhile (· = SPACE) with _ | ⟨c, rest⟩
  · rfl
  · have hc : c ≠ SPACE := by simpa using of_dropWhile_eq_cons hrest
    have hmem : c ∈ ending :=
      (List.dropWhile_sublist _).subset (hrest ▸ List.mem_cons_self)
    exact (hending c hmem).resolve_right hc

theorem HoldsOctal.lt (h : HoldsOctal str n) (hlength : str.length ≤ 8) : n < 8 ^ 8 := by
  obtain ⟨spaces, digits, ending, rfl, -, hdigits, -, rfl⟩ := h.parts
  have hle : digits.length ≤ 8 := by
    rw [List.length_append, List.length_append] at hlength
    omega
  refine lt_of_lt_of_le (Nat.ofDigits_lt_base_pow_length (by decide) ?_)
    (Nat.pow_le_pow_right (by decide) (by simpa using hle))
  intro d hd
  obtain ⟨c, hc, rfl⟩ := List.mem_map.mp (List.mem_reverse.mp hd)
  have hoctal := hdigits c hc
  rw [isOctal, decide_eq_true_eq] at hoctal
  have hlt : c.toNat < 56 := UInt8.lt_iff_toNat_lt.mp hoctal.2
  omega

/-- What is compared with the number in the field. -/
theorem tarVerifyChecksum_iff (h : HoldsOctal (tarChecksum header 0) n) :
    tarVerifyChecksum header 0 = true ↔
      n + 256 * highBytes (checkedBytes header) = headerSum header := by
  have hn : n < 8 ^ 8 := h.lt (List.length_take_le _ _)
  have hlength : (checkedBytes header).length ≤ 148 + 356 := by
    rw [checkedBytes, List.length_append]
    exact Nat.add_le_add (List.length_take_le _ _) (List.length_take_le _ _)
  have hsum := unsignedSum_le (checkedBytes header)
  have hhigh : highBytes (checkedBytes header) ≤ (checkedBytes header).length :=
    List.countP_le_length
  have hparse : stringParseOctal (tarChecksum header 0) = n := by
    rw [stringParseOctal_eq, h.octalNumber_eq]
    exact Nat.mod_eq_of_lt (hn.trans (by decide))
  have hsigned : signedSum (field header 0 148) + 8 * 32 + signedSum (field header (0 + 156) 356) =
      (headerSum header : Int) - 256 * highBytes (checkedBytes header) := by
    have happend : signedSum (checkedBytes header) =
        signedSum (field header 0 148) + signedSum (field header 156 356) := by
      rw [signedSum, checkedBytes, List.map_append, List.sum_append]
      rfl
    rw [signedSum_eq] at happend
    rw [headerSum]
    push_cast
    omega
  rw [tarVerifyChecksum, hparse, hsigned, decide_eq_true_eq, headerSum, WORD]
  norm_num at hn
  omega

/-- A header is treated as it should be if and only if no byte outside of the field is from
the upper half, or the field holds neither the sum nor the one which is computed. -/
theorem tar_checksum_iff (header : Bytes) (n : Nat)
    (hfield : HoldsOctal (tarChecksum header 0) n) : Right header n ↔
      highBytes (checkedBytes header) = 0 ∨
        n ≠ headerSum header ∧ n + 256 * highBytes (checkedBytes header) ≠ headerSum header := by
  rw [Right, tarVerifyChecksum_iff hfield]
  constructor
  · intro hiff
    by_cases hn : n = headerSum header
    · have := hiff.mpr hn
      exact Or.inl (by omega)
    · exact Or.inr ⟨hn, fun heq => hn (hiff.mp heq)⟩
  · rintro (hzero | ⟨hn, heq⟩)
    · rw [hzero]
      exact Iff.rfl
    · exact ⟨fun h => (heq h).elim, fun h => (hn h).elim⟩

end

/-- The header of an empty file with a name of one byte, the checksum of which is written
with six digits. -/
def namedHeader (name : UInt8) (digits : Bytes) : Bytes :=
  (sampleHeader (List.replicate 11 48 ++ [0]) (digits ++ [0, SPACE])).set 0 name

/-- The checksum is the octal number 1641. -/
def asciiHeader : Bytes := namedHeader 97 [48, 48, 49, 54, 52, 49]

/-- The name is an umlaut, and the checksum is the octal number 2044. -/
def latinHeader : Bytes := namedHeader 228 [48, 48, 50, 48, 52, 52]

theorem holdsOctal_asciiHeader : HoldsOctal (tarChecksum asciiHeader 0) 929 :=
  ⟨0, [48, 48, 49, 54, 52, 49], [0, SPACE], rfl, by simp, by simp [isOctal], by simp, by decide⟩

theorem holdsOctal_latinHeader : HoldsOctal (tarChecksum latinHeader 0) 1060 :=
  ⟨0, [48, 48, 50, 48, 52, 52], [0, SPACE], rfl, by simp, by simp [isOctal], by simp, by decide⟩

theorem tar_checksum_iff_ascii : HoldsOctal (tarChecksum asciiHeader 0) 929 ∧
    tarVerifyChecksum asciiHeader 0 = true ∧ (Right asciiHeader 929 ↔
      highBytes (checkedBytes asciiHeader) = 0 ∨ 929 ≠ headerSum asciiHeader ∧
        929 + 256 * highBytes (checkedBytes asciiHeader) ≠ headerSum asciiHeader) :=
  ⟨holdsOctal_asciiHeader, by decide +kernel, tar_checksum_iff _ _ holdsOctal_asciiHeader⟩

/-- A header with the right checksum is rejected. -/
theorem latinHeader_rejected : latinHeader.length = HEADER ∧
    HoldsOctal (tarChecksum latinHeader 0) 1060 ∧ headerSum latinHeader = 1060 ∧
    tarVerifyChecksum latinHeader 0 = false ∧ ¬Right latinHeader 1060 := by
  have hsum : headerSum latinHeader = 1060 := by decide +kernel
  have hverify : tarVerifyChecksum latinHeader 0 = false := by decide +kernel
  refine ⟨by decide +kernel, holdsOctal_latinHeader, hsum, hverify, ?_⟩
  intro hright
  have htrue := hright.mpr hsum.symm
  rw [hverify] at htrue
  cases htrue

end Ibnos.TarChecksums
