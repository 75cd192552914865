import Mathlib.Tactic.Common

/-!
The keyboard. Its bytes are put together to scan codes, which are looked up in two tables and
then in the map of the layout, which may be any.
-/

namespace Ibnos.Keyboards

/-- Maps the scan codes of one byte. -/
def standardKeyCodes : List (BitVec 8) :=
  [ 0,  1,  2,  3,  4,  5,  6,  7,  8,  9, 10, 11, 12, 13, 14, 15, 16, 17, 18, 19,
   20, 21, 22, 23, 24, 25, 26, 27, 28, 29, 30, 31, 32, 33, 34, 35, 36, 37, 38, 39,
   40, 41, 42, 43, 44, 45, 46, 47, 48, 49, 50, 51, 52, 53, 54, 55, 56, 57, 58, 59,
   60, 61, 62, 63, 64, 65, 66, 67, 68, 69, 70, 71, 72, 73, 74, 75, 76, 77, 78, 79,
   80, 81, 82, 84,  0,  0, 86, 87, 88,  0,  0,  0,  0,  0,  0,  0,  0,  0,  0,  0,
    0,  0,  0,  0,  0,  0,  0,  0,  0,  0,  0,  0,  0,  0,  0,  0,  0,  0,  0,  0,
    0,  0,  0,  0,  0,  0,  0,  0]

/-- Maps the scan codes behind 0xE0. -/
def extendedKeyCodes : List (BitVec 8) :=
  [ 0,   0,   0,   0,   0,   0,   0,   0,   0,   0,   0,   0,   0,   0,   0,   0,
    0,   0,   0,   0,   0,   0,   0,   0,   0,   0,   0,   0,  96,  97,   0,   0,
    0,   0,   0,   0,   0,   0,   0,   0,   0,   0,   0,   0,   0,   0,   0,   0,
    0,   0,   0,   0,   0,  99,   0,   0, 100,   0,   0,   0,   0,   0,   0,   0,
    0,   0,   0,   0,   0,   0,   0, 102, 103, 104,   0, 105,   0, 106,   0, 107,
  108, 109, 110, 111,   0,   0,   0,   0,   0,   0,   0,   0,   0,   0,   0,   0,
    0,   0,   0,   0,   0,   0,   0,   0,   0,   0,   0,   0,   0,   0,   0,   0,
    0,   0,   0,   0,   0,   0,   0,   0,   0,   0,   0,   0,   0,   0,   0,   0]

structure KeyModifier where
  shift : Bool := false
  shiftLocked : Bool := false
  ctrl : Bool := false
  alt : Bool := false
  altgr : Bool := false
deriving DecidableEq, Repr

/-- The maps of a keyboard layout. -/
structure KeyMapInfo where
  plain_map : BitVec 8 → BitVec 16
  shift_map : BitVec 8 → BitVec 16
  altgr_map : BitVec 8 → BitVec 16
  alt_map : BitVec 8 → BitVec 16
  ctrl_map : BitVec 8 → BitVec 16
  shift_ctrl_map : BitVec 8 → BitVec 16
  altgr_ctrl_map : BitVec 8 → BitVec 16
  shift_alt_map : BitVec 8 → BitVec 16
  altgr_alt_map : BitVec 8 → BitVec 16

/-- The state of the decoder, the characters it has written, and the indices at which it has read
the two tables. -/
structure Keyboard where
  modifiers : KeyModifier := {}
  ext1Code : Bool := false
  ext2Code : Nat := 0
  e1_prev : BitVec 16 := 0
  echoed : List (BitVec 8) := []
  keyboardStdin : Option (List (BitVec 8)) := none
  indices : List Nat := []

def KEY_TYPE (x : BitVec 16) : BitVec 16 := x >>> 8

def KEY_VALUE (x : BitVec 16) : BitVec 16 := x &&& 0xFF

def KEY_TYPE_LATIN : BitVec 16 := 0x0

def KEY_TYPE_SPEC : BitVec 16 := 0x2

def KEY_TYPE_SHIFT : BitVec 16 := 0x7

def KEY_TYPE_ASCII : BitVec 16 := 0x9

def KEY_TYPE_LETTER : BitVec 16 := 0xB

def KEY_CODE_ENTER : BitVec 16 := 0x201

def KEY_CODE_CAPS : BitVec 16 := 0x207

def KEY_MODIFIER_SHIFT : BitVec 16 := 0

def KEY_MODIFIER_ALTGR : BitVec 16 := 1

def KEY_MODIFIER_CTRL : BitVec 16 := 2

def KEY_MODIFIER_ALT : BitVec 16 := 3

def KEY_MODIFIER_SHIFTL : BitVec 16 := 4

def KEY_MODIFIER_SHIFTR : BitVec 16 := 5

def KEY_MODIFIER_CTRLL : BitVec 16 := 6

def KEY_MODIFIER_CTRLR : BitVec 16 := 7

/-- The switch on the modifier keys. -/
def setModifier (modifiers : KeyModifier) (value : BitVec 16) (pressed : Bool) : KeyModifier :=
  if value = KEY_MODIFIER_SHIFT ∨ value = KEY_MODIFIER_SHIFTL ∨ value = KEY_MODIFIER_SHIFTR then
    { modifiers with shift := pressed }
  else if value = KEY_MODIFIER_CTRL ∨ value = KEY_MODIFIER_CTRLL ∨ value = KEY_MODIFIER_CTRLR then
    { modifiers with ctrl := pressed }
  else if value = KEY_MODIFIER_ALT then { modifiers with alt := pressed }
  else if value = KEY_MODIFIER_ALTGR then { modifiers with altgr := pressed }
  else modifiers

def trackModifiers (modifiers : KeyModifier) (keyCode : BitVec 16) (pressed : Bool) : KeyModifier :=
  if KEY_TYPE keyCode = KEY_TYPE_SHIFT then setModifier modifiers (KEY_VALUE keyCode) pressed
  else if KEY_TYPE keyCode = KEY_TYPE_SPEC then
    if keyCode = KEY_CODE_CAPS ∧ pressed then
      { modifiers with shiftLocked := !modifiers.shiftLocked }
    else modifiers
  else modifiers

/-- The character of a key, if there is one. -/
def charCode (keyCode : BitVec 16) : Option (BitVec 8) :=
  if KEY_TYPE keyCode = KEY_TYPE_LATIN ∨ KEY_TYPE keyCode = KEY_TYPE_ASCII ∨
      KEY_TYPE keyCode = KEY_TYPE_LETTER ∨ keyCode = KEY_CODE_ENTER then
    some (if keyCode = KEY_CODE_ENTER then 10 else (KEY_VALUE keyCode).setWidth 8)
  else none

/-- `consoleEchoChar` and `__objectWrite` -/
def Keyboard.write (s : Keyboard) (c : BitVec 8) : Keyboard :=
  { s with echoed := s.echoed ++ [c], keyboardStdin := s.keyboardStdin.map (· ++ [c]) }

section

variable (keyMaps : KeyMapInfo)

def decodeMap (modifiers : KeyModifier) : BitVec 8 → BitVec 16 :=
  if modifiers.shift || modifiers.shiftLocked then
    if modifiers.ctrl then keyMaps.shift_ctrl_map
    else if modifiers.alt then keyMaps.shift_alt_map
    else keyMaps.shift_map
  else if modifiers.ctrl then
    if modifiers.altgr then keyMaps.altgr_ctrl_map else keyMaps.ctrl_map
  else if modifiers.altgr then
    if modifiers.alt then keyMaps.altgr_alt_map else keyMaps.altgr_map
  else if modifiers.alt then keyMaps.alt_map
  else keyMaps.plain_map

/-- What `processScancode` does with a key which is in one of the tables. -/
def processKey (mappedCode : BitVec 8) (keyUp : Bool) (s : Keyboard) : Keyboard :=
  let keyCode := decodeMap keyMaps s.modifiers mappedCode &&& 0x0FFF
  if keyCode = 0 then s
  else
    let s := { s with modifiers := trackModifiers s.modifiers keyCode !keyUp }
    if keyUp then s
    else match charCode keyCode with
      | some c => s.write c
      | none => s

-- `beyond` is what lies behind the tables in memory
variable (beyond : Nat → BitVec 8)

def lookUp (table : List (BitVec 8)) (i : Nat) : BitVec 8 := (table[i]?).getD (beyond i)

def mappedCode (extended : Nat) (scanCode : BitVec 8) : BitVec 8 :=
  if extended = 0 then lookUp beyond standardKeyCodes scanCode.toNat
  else if extended = 1 then lookUp beyond extendedKeyCodes scanCode.toNat
  else 0

/-- The index at which one of the tables was read. -/
def readIndex (extended : Nat) (scanCode : BitVec 8) : List Nat :=
  if extended = 0 ∨ extended = 1 then [scanCode.toNat] else []

def processScancode (extended : Nat) (scanCode : BitVec 8) (keyUp : Bool) (s : Keyboard) :
    Keyboard :=
  let code := mappedCode beyond extended scanCode
  let s := { s with indices := s.indices ++ readIndex extended scanCode }
  if code = 0 then s else processKey keyMaps code keyUp s

/-- Whether the byte is taken for the release of a key. -/
def isKeyUp (s : Keyboard) (scanCode : BitVec 8) : Bool :=
  scanCode &&& 0x80 != 0 && (s.ext2Code != 0 || scanCode != 0xE1) &&
    (s.ext1Code || scanCode != 0xE0)

/-- The interrupt handler, called with the byte from the keyboard. -/
def keyboard_irq (scanCode : BitVec 8) (s : Keyboard) : Keyboard :=
  let keyUp := isKeyUp s scanCode
  let scanCode := if keyUp then scanCode &&& ~~~0x80 else scanCode
  if s.ext1Code then
    if scanCode = 0x2A ∨ scanCode = 0x36 then { s with ext1Code := false }
    else { processScancode keyMaps beyond 1 scanCode keyUp s with ext1Code := false }
  else if s.ext2Code = 2 then
    let s := { s with e1_prev := s.e1_prev ||| scanCode.setWidth 16 <<< 8 }
    { processScancode keyMaps beyond 2 (s.e1_prev.setWidth 8) keyUp s with ext2Code := 0 }
  else if s.ext2Code = 1 then
    { s with e1_prev := scanCode.setWidth 16, ext2Code := s.ext2Code + 1 }
  else if scanCode = 0xE0 then { s with ext1Code := true }
  else if scanCode = 0xE1 then { s with ext2Code := 1 }
  else processScancode keyMaps beyond 0 scanCode keyUp s

def deliver (s : Keyboard) (bytes : List (BitVec 8)) : Keyboard :=
  bytes.foldl (fun s b => keyboard_irq keyMaps beyond b s) s

end

/-- The sequences of bytes which the keyboard sends: a byte of its own, one behind 0xE0, or two
behind 0xE1. -/
inductive Sequence where
  | start
  | e0
  | e1
  | e1Second
deriving DecidableEq, Repr

def Sequence.next : Sequence → BitVec 8 → Sequence
  | .start, b => if b = 0xE0 then .e0 else if b = 0xE1 then .e1 else .start
  | .e0, _ => .start
  | .e1, _ => .e1Second
  | .e1Second, _ => .start

/-- No 0xE1 comes immediately behind a 0xE0 with which a sequence starts. -/
def Orderly : Sequence → List (BitVec 8) → Prop
  | _, [] => True
  | q, b :: rest => ¬(q = .e0 ∧ b = 0xE1) ∧ Orderly (q.next b) rest

/-- The decoder is in the middle of the same sequence. -/
def Keyboard.At (s : Keyboard) : Sequence → Prop
  | .start => s.ext1Code = false ∧ s.ext2Code = 0
  | .e0 => s.ext1Code = true ∧ s.ext2Code = 0
  | .e1 => s.ext1Code = false ∧ s.ext2Code = 1
  | .e1Second => s.ext1Code = false ∧ s.ext2Code = 2

/-- The indices for a byte. -/
def indicesOf : Sequence → BitVec 8 → List Nat
  | .start, b => if b = 0xE0 ∨ b = 0xE1 then [] else [b.toNat % 128]
  | .e0, b =>
      if b = 0xE1 then [0xE1]
      else if b.toNat % 128 = 0x2A ∨ b.toNat % 128 = 0x36 then []
      else [b.toNat % 128]
  | .e1, _ => []
  | .e1Second, _ => []

section

variable {keyMaps : KeyMapInfo} {beyond : Nat → BitVec 8} {s : Keyboard} {q : Sequence}
    {b : BitVec 8}
  {bytes : List (BitVec 8)} {extended : Nat} {scanCode : BitVec 8} {keyUp : Bool}

/-- Without its highest bit a byte is an index of the tables. -/
theorem toNat_strip (b : BitVec 8) : (b &&& ~~~0x80).toNat = b.toNat % 128 := by
  have hmask : (~~~0x80 : BitVec 8).toNat = 2 ^ 7 - 1 := rfl
  rw [BitVec.toNat_and, hmask, Nat.and_two_pow_sub_one_eq_mod]

theorem toNat_clear : ∀ b : BitVec 8, b &&& 0x80 = 0 → b.toNat % 128 = b.toNat := by decide

/-- The highest bit is removed, unless the byte starts a sequence or comes at a wrong place. -/
theorem toNat_received (s : Keyboard) (h : b = 0xE1 → s.ext2Code ≠ 0)
    (h' : b = 0xE0 → s.ext1Code = true) :
    (if isKeyUp s b then b &&& ~~~0x80 else b).toNat = b.toNat % 128 := by
  have he1 : (s.ext2Code != 0 || b != 0xE1) = true := by
    by_cases hb : b = 0xE1
    · rw [bne_iff_ne.mpr (h hb), Bool.true_or]
    · rw [bne_iff_ne.mpr hb, Bool.or_true]
  have he0 : (s.ext1Code || b != 0xE0) = true := by
    by_cases hb : b = 0xE0
    · rw [h' hb, Bool.true_or]
    · rw [bne_iff_ne.mpr hb, Bool.or_true]
  rw [isKeyUp, he1, he0, Bool.and_true, Bool.and_true]
  split_ifs with hbit
  · exact toNat_strip b
  · refine (toNat_clear b ?_).symm
    simpa using hbit

theorem processKey_frame (keyMaps : KeyMapInfo) (c : BitVec 8) (keyUp : Bool) (s : Keyboard) :
    (processKey keyMaps c keyUp s).ext1Code = s.ext1Code ∧
      (processKey keyMaps c keyUp s).ext2Code = s.ext2Code ∧
      (processKey keyMaps c keyUp s).indices = s.indices := by
  rw [processKey]
  split_ifs
  · simp
  · simp
  · cases charCode (decodeMap keyMaps s.modifiers c &&& 0x0FFF) <;> simp [Keyboard.write]

/-- The state of the decoder is left alone. -/
theorem processScancode_frame (keyMaps : KeyMapInfo) (beyond : Nat → BitVec 8) (extended : Nat)
    (scanCode : BitVec 8) (keyUp : Bool) (s : Keyboard) :
    (processScancode keyMaps beyond extended scanCode keyUp s).ext1Code = s.ext1Code ∧
      (processScancode keyMaps beyond extended scanCode keyUp s).ext2Code = s.ext2Code ∧
      (processScancode keyMaps beyond extended scanCode keyUp s).indices =
        s.indices ++ readIndex extended scanCode := by
  rw [processScancode]
  split_ifs
  · simp
  · exact processKey_frame keyMaps _ keyUp _

end

section

variable {keyMaps : KeyMapInfo} {beyond : Nat → BitVec 8} {s : Keyboard} {q : Sequence}
    {b : BitVec 8}
  {bytes : List (BitVec 8)}

/-- What a byte does. -/
structure Follows (q : Sequence) (b : BitVec 8) (s s' : Keyboard) : Prop where
  at_next : s'.At (q.next b)
  indices : s'.indices = s.indices ++ indicesOf q b

theorem follows_start (h : s.At .start) : Follows .start b s (keyboard_irq keyMaps beyond b s) := by
  obtain ⟨h1, h2⟩ := h
  have htwo : s.ext2Code ≠ 2 := by omega
  have hone : s.ext2Code ≠ 1 := by omega
  simp only [keyboard_irq, h1, Bool.false_eq_true, if_false, if_neg htwo, if_neg hone]
  by_cases he0 : b = 0xE0
  · subst he0
    have hup : isKeyUp s 0xE0 = false := by simp [isKeyUp, h1, h2]
    simp only [hup, Bool.false_eq_true, if_false, if_true]
    constructor
    · simp [Keyboard.At, Sequence.next, h2]
    · simp [indicesOf]
  by_cases he1 : b = 0xE1
  · subst he1
    have hup : isKeyUp s 0xE1 = false := by simp [isKeyUp, h1, h2]
    simp only [hup, Bool.false_eq_true, if_false]
    constructor
    · simp [Keyboard.At, Sequence.next]
    · simp [indicesOf]
  · have hreceived := toNat_received s (fun h => (he1 h).elim) fun h => (he0 h).elim
    generalize (if isKeyUp s b then b &&& ~~~0x80 else b) = c at hreceived ⊢
    have hlt : c.toNat < 128 := by omega
    have hc0 : c ≠ 0xE0 := by
      rintro rfl
      simp at hlt
    have hc1 : c ≠ 0xE1 := by
      rintro rfl
      simp at hlt
    obtain ⟨hext1, hext2, hindices⟩ := processScancode_frame keyMaps beyond 0 c (isKeyUp s b) s
    rw [if_neg hc0, if_neg hc1]
    constructor
    · rw [Sequence.next, if_neg he0, if_neg he1]
      exact ⟨hext1.trans h1, hext2.trans h2⟩
    · rw [hindices, indicesOf, if_neg (not_or.mpr ⟨he0, he1⟩), readIndex, if_pos (Or.inl rfl),
        hreceived]

/-- A byte behind 0xE0 is looked up as it is if it is 0xE1, although the release of a key is meant. -/
theorem follows_e0 (h : s.At .e0) : Follows .e0 b s (keyboard_irq keyMaps beyond b s) := by
  obtain ⟨h1, h2⟩ := h
  simp only [keyboard_irq, h1, if_true]
  by_cases he1 : b = 0xE1
  · subst he1
    have hup : isKeyUp s 0xE1 = false := by simp [isKeyUp, h2]
    simp only [hup, Bool.false_eq_true, if_false]
    obtain ⟨-, hext2, hindices⟩ := processScancode_frame keyMaps beyond 1 0xE1 false s
    rw [if_neg (by decide)]
    constructor
    · exact ⟨rfl, hext2.trans h2⟩
    · exact hindices
  · have hreceived := toNat_received s (fun h => (he1 h).elim) fun _ => h1
    generalize (if isKeyUp s b then b &&& ~~~0x80 else b) = c at hreceived ⊢
    have hfake : (c = 0x2A ∨ c = 0x36) ↔ (b.toNat % 128 = 0x2A ∨ b.toNat % 128 = 0x36) := by
      rw [← hreceived, ← BitVec.toNat_inj, ← BitVec.toNat_inj]
      rfl
    obtain ⟨-, hext2, hindices⟩ := processScancode_frame keyMaps beyond 1 c (isKeyUp s b) s
    split_ifs with hshift
    · constructor
      · exact ⟨rfl, h2⟩
      · rw [indicesOf, if_neg he1, if_pos (hfake.mp hshift), List.append_nil]
    · constructor
      · exact ⟨rfl, hext2.trans h2⟩
      · rw [indicesOf, if_neg he1, if_neg fun hb => hshift (hfake.mpr hb), ← hreceived]
        exact hindices

theorem follows_e1 (h : s.At .e1) : Follows .e1 b s (keyboard_irq keyMaps beyond b s) := by
  obtain ⟨h1, h2⟩ := h
  have htwo : s.ext2Code ≠ 2 := by omega
  simp only [keyboard_irq, h1, Bool.false_eq_true, if_false, if_neg htwo, if_pos h2]
  constructor
  · exact ⟨rfl, congrArg (· + 1) h2⟩
  · exact (List.append_nil _).symm

theorem follows_e1Second (h : s.At .e1Second) :
    Follows .e1Second b s (keyboard_irq keyMaps beyond b s) := by
  obtain ⟨h1, h2⟩ := h
  have hone : ¬s.ext1Code = true := by simp [h1]
  simp only [keyboard_irq, if_neg hone, if_pos h2]
  generalize (if isKeyUp s b then b &&& ~~~0x80 else b) = c
  obtain ⟨hext1, -, hindices⟩ := processScancode_frame keyMaps beyond 2
    ((s.e1_prev ||| c.setWidth 16 <<< 8).setWidth 8) (isKeyUp s b)
    { s with e1_prev := s.e1_prev ||| c.setWidth 16 <<< 8 }
  constructor
  · exact ⟨hext1.trans h1, rfl⟩
  · exact hindices

/-- The decoder follows the sequences of bytes. -/
theorem keyboard_irq_follows (h : s.At q) : Follows q b s (keyboard_irq keyMaps beyond b s) := by
  cases q with
  | start => exact follows_start h
  | e0 => exact follows_e0 h
  | e1 => exact follows_e1 h
  | e1Second => exact follows_e1Second h

theorem indicesOf_lt : (∀ i ∈ indicesOf q b, i < 128) ↔ ¬(q = .e0 ∧ b = 0xE1) := by
  have hmod : b.toNat % 128 < 128 := Nat.mod_lt _ (by decide)
  cases q with
  | start =>
      rw [indicesOf]
      split_ifs <;> simp [hmod]
  | e0 =>
      rw [indicesOf]
      split_ifs with he1
      · simp [he1]
      · refine iff_of_true (by simp) ?_
        rintro ⟨-, hb⟩
        exact he1 hb
      · refine iff_of_true (by simp [hmod]) ?_
        rintro ⟨-, hb⟩
        exact he1 hb
  | e1 => simp [indicesOf]
  | e1Second => simp [indicesOf]

/-- The indices are inside of the tables, at most one kind of sequence is being read, and two bytes
are enough to come to its end. -/
structure Sound (keyMaps : KeyMapInfo) (beyond : Nat → BitVec 8) (s : Keyboard) : Prop where
  indices : ∀ i ∈ s.indices, i < 128
  exclusive : ¬(s.ext1Code = true ∧ s.ext2Code ≠ 0)
  returns : ∀ b c, s.At .start ∨ (keyboard_irq keyMaps beyond b s).At .start ∨
    (keyboard_irq keyMaps beyond c (keyboard_irq keyMaps beyond b s)).At .start

theorem exclusive_at (h : s.At q) : ¬(s.ext1Code = true ∧ s.ext2Code ≠ 0) := by
  rintro ⟨hext1, hext2⟩
  cases q with
  | start => exact hext2 h.2
  | e0 => exact hext2 h.2
  | e1 =>
      rw [h.1] at hext1
      cases hext1
  | e1Second =>
      rw [h.1] at hext1
      cases hext1

theorem returns_at (h : s.At q) (b c : BitVec 8) :
    s.At .start ∨ (keyboard_irq keyMaps beyond b s).At .start ∨
      (keyboard_irq keyMaps beyond c (keyboard_irq keyMaps beyond b s)).At .start := by
  have hb := (@keyboard_irq_follows keyMaps beyond s q b h).at_next
  cases q with
  | start => exact Or.inl h
  | e0 => exact Or.inr (Or.inl hb)
  | e1 => exact Or.inr (Or.inr (keyboard_irq_follows hb).at_next)
  | e1Second => exact Or.inr (Or.inl hb)

theorem sound_iff (h : s.At q) : Sound keyMaps beyond s ↔ ∀ i ∈ s.indices, i < 128 :=
  ⟨fun hs => hs.indices, fun hs => ⟨hs, exclusive_at h, returns_at h⟩⟩

/-- From any state: the first wrong index is that for the first 0xE1 at the wrong place. -/
theorem deliver_sound (h : s.At q) (hs : ∀ i ∈ s.indices, i < 128) :
    (∀ p, p <+: bytes → Sound keyMaps beyond (deliver keyMaps beyond s p)) ↔ Orderly q bytes := by
  induction bytes generalizing s q with
  | nil =>
      simp only [List.prefix_nil, forall_eq, Orderly, iff_true]
      exact (sound_iff h).mpr hs
  | cons b bytes ih =>
      have hf := @keyboard_irq_follows keyMaps beyond s q b h
      have hindices : (∀ i ∈ (keyboard_irq keyMaps beyond b s).indices, i < 128) ↔
        ¬(q = .e0 ∧ b = 0xE1) := by
        rw [hf.indices, List.forall_mem_append, indicesOf_lt]
        exact and_iff_right hs
      rw [Orderly]
      constructor
      · intro hall
        have hone := (hall [b] (by simp)).indices
        refine ⟨hindices.mp hone, (ih hf.at_next hone).mp fun p hp => ?_⟩
        exact hall (b :: p) (List.cons_prefix_cons.mpr ⟨rfl, hp⟩)
      · rintro ⟨hb, hrest⟩ p hp
        cases p with
        | nil => exact (sound_iff h).mpr hs
        | cons c p =>
            obtain ⟨rfl, hle⟩ := List.cons_prefix_cons.mp hp
            exact (ih hf.at_next (hindices.mpr hb)).mpr hrest p hle

/-- From the reset state all indices are inside of the tables exactly if there is never a 0xE1
immediately behind the 0xE0 of a sequence. The rest holds for all bytes. -/
theorem decoding_sound (keyMaps : KeyMapInfo) (beyond : Nat → BitVec 8)
    (stdin : Option (List (BitVec 8))) (bytes : List (BitVec 8)) :
    (∀ p, p <+: bytes → Sound keyMaps beyond (deliver keyMaps beyond { keyboardStdin := stdin } p))
      ↔
      Orderly .start bytes := by
  refine deliver_sound ⟨rfl, rfl⟩ ?_
  simp

end

/-- All keys are letters. -/
def letterMaps : KeyMapInfo :=
  { plain_map := fun c => 0xB00 ||| c.setWidth 16, shift_map := fun c => 0xB00 ||| c.setWidth 16,
    altgr_map := fun c => 0xB00 ||| c.setWidth 16, alt_map := fun c => 0xB00 ||| c.setWidth 16,
    ctrl_map := fun c => 0xB00 ||| c.setWidth 16, shift_ctrl_map :=
      fun c => 0xB00 ||| c.setWidth 16,
    altgr_ctrl_map := fun c => 0xB00 ||| c.setWidth 16, shift_alt_map :=
      fun c => 0xB00 ||| c.setWidth 16,
    altgr_alt_map := fun c => 0xB00 ||| c.setWidth 16 }

/-- The release bit of 0xE1 is still there when the table is read. -/
theorem decoding_unsound :
    ¬Sound letterMaps (fun _ => 0) (deliver letterMaps (fun _ => 0) {} [0xE0, 0xE1]) := by
  intro h
  have hlt := h.indices 0xE1 (by decide)
  omega

end Ibnos.Keyboards
