import Ibnos.Strings

/-!
The items of a command line: its words, and the pipes between them. A word may have quotes
around it or in it, and a backslash stands in front of a character which has another meaning.
-/

namespace Ibnos.ShellLines

open Ibnos.Strings

def BLANK : UInt8 := 32

def QUOTE : UInt8 := 34

def BACKSLASH : UInt8 := 92

def PIPE : UInt8 := 124

def NEWLINE : UInt8 := 10

def RETURN : UInt8 := 13

/-- The letters which stand for a newline and a carriage return behind a backslash. -/
def LETTER_N : UInt8 := 110

def LETTER_R : UInt8 := 114

/-- `isspace` of the C library -/
def isspace (c : UInt8) : Bool := c == 32 || (9 ≤ c && c ≤ 13)

inductive ParserState
  | blank
  | text
  | quote
  | escape
  | quoteEscape
  deriving DecidableEq, Repr

/-- A pipe may follow a word without any space. -/
inductive Item
  | word (w : Bytes)
  | pipe
  | joinedPipe
  deriving DecidableEq, Repr

/-- The word without the quotes around it. -/
def unquote (w : Bytes) : Bytes :=
  if 2 ≤ w.length ∧ w.head? = some QUOTE ∧ w.getLast? = some QUOTE then w.tail.dropLast else w

/-- What a character behind a backslash stands for. -/
def unescape (c : UInt8) : Bytes :=
  if c = LETTER_N then [NEWLINE]
  else if c = LETTER_R then [RETURN]
  else if c = QUOTE ∨ c = BLANK ∨ c = PIPE then [c]
  else [BACKSLASH, c]

/-- The items which are complete, and what there is of the next one. -/
structure Scan where
  items : List Item := []
  state : ParserState := .blank
  word : Bytes := []

def Scan.next (t : Scan) (c : UInt8) : Scan :=
  match t.state with
  | .blank =>
      if isspace c then t
      else if c = PIPE then { t with items := t.items ++ [.pipe] }
      else if c = BACKSLASH then { t with state := .escape }
      else { t with state := if c = QUOTE then .quote else .text, word := [c] }
  | .text =>
      if isspace c ∨ c = PIPE then
        { items := t.items ++ .word (unquote t.word) :: if c = PIPE then [.joinedPipe] else [] }
      else if c = BACKSLASH then { t with state := .escape }
      else { t with state := if c = QUOTE then .quote else .text, word := t.word ++ [c] }
  | .quote =>
      if c = BACKSLASH then { t with state := .quoteEscape }
      else { t with state := if c = QUOTE then .text else .quote, word := t.word ++ [c] }
  | .escape => { t with state := .text, word := t.word ++ unescape c }
  | .quoteEscape => { t with state := .quote, word := t.word ++ unescape c }

/-- The items at the end of the line. -/
def Scan.finish (t : Scan) : List Item :=
  match t.state with
  | .blank => t.items
  | .text => t.items ++ [.word (unquote t.word)]
  | .quote => t.items ++ [.word (unquote t.word)]
  | .escape => t.items ++ [.word (t.word ++ [BACKSLASH])]
  | .quoteEscape => t.items ++ [.word (t.word ++ [BACKSLASH])]

def Scan.rest (t : Scan) (line : Bytes) : List Item := (line.foldl Scan.next t).finish

/-- All items of a line. -/
def items (line : Bytes) : List Item := Scan.rest {} line

/-- No item is started when there are enough of them. -/
def Scan.limited (maxArgs : Nat) : Scan → Bytes → List Item
  | t, [] => t.finish
  | t, c :: line =>
      if t.state = .blank ∧ isspace c = false ∧ maxArgs ≤ t.items.length then t.items
      else (t.next c).limited maxArgs line

section

variable {t : Scan} {c : UInt8} {line : Bytes} {maxArgs : Nat}

/-- Every step of a word keeps the items and adds the word when it is complete. -/
theorem next_items (t : Scan) (c : UInt8) : t.items <+: (t.next c).items := by
  rw [Scan.next]
  cases t.state with
  | blank =>
      simp only
      split_ifs <;> simp
  | text =>
      simp only
      split_ifs <;> simp
  | quote =>
      simp only
      split_ifs <;> simp
  | escape => simp
  | quoteEscape => simp

theorem finish_items (t : Scan) : t.items <+: t.finish := by
  rw [Scan.finish]
  cases t.state <;> simp

theorem rest_cons : t.rest (c :: line) = (t.next c).rest line := rfl

theorem rest_items (t : Scan) (line : Bytes) : t.items <+: t.rest line := by
  induction line generalizing t with
  | nil => exact finish_items t
  | cons c line ih => exact (next_items t c).trans (ih (t.next c))

/-- A step inside of a word goes on with it or completes it. -/
theorem next_word (h : t.state ≠ .blank) (c : UInt8) :
    (t.next c).items = t.items ∧ (t.next c).state ≠ .blank ∨
      ∃ w, t.items ++ [.word w] <+: (t.next c).items := by
  rw [Scan.next]
  cases hstate : t.state with
  | blank => exact (h hstate).elim
  | text =>
      simp only
      split_ifs
      · exact Or.inr ⟨unquote t.word, by simp⟩
      · exact Or.inr ⟨unquote t.word, by simp⟩
      · simp
      · simp
      · simp
  | quote =>
      simp only
      split_ifs <;> simp
  | escape => simp
  | quoteEscape => simp

theorem finish_word (h : t.state ≠ .blank) : ∃ w, t.finish = t.items ++ [.word w] := by
  rw [Scan.finish]
  cases hstate : t.state with
  | blank => exact (h hstate).elim
  | text => exact ⟨_, rfl⟩
  | quote => exact ⟨_, rfl⟩
  | escape => exact ⟨_, rfl⟩
  | quoteEscape => exact ⟨_, rfl⟩

/-- The word which was started is the next item. -/
theorem rest_word (h : t.state ≠ .blank) : ∃ w, t.items ++ [.word w] <+: t.rest line := by
  induction line generalizing t with
  | nil =>
      obtain ⟨w, hw⟩ := finish_word h
      exact ⟨w, hw ▸ List.prefix_rfl⟩
  | cons c line ih =>
      rw [rest_cons]
      rcases next_word h c with ⟨hitems, hstate⟩ | ⟨w, hw⟩
      · rw [← hitems]
        exact ih hstate
      · exact ⟨w, hw.trans (rest_items _ _)⟩

/-- An item which starts behind a space is not joined to the word before it. -/
theorem rest_separate (h : t.state = .blank) (hc : isspace c = false) :
    ∃ item, item ≠ .joinedPipe ∧ t.items ++ [item] <+: t.rest (c :: line) := by
  rw [rest_cons]
  by_cases hpipe : c = PIPE
  · refine ⟨.pipe, by simp, ?_⟩
    have hnext : (t.next c).items = t.items ++ [.pipe] := by
      rw [Scan.next, h]
      simp only [hc, Bool.false_eq_true, if_false, if_pos hpipe]
    rw [← hnext]
    exact rest_items _ _
  · have hnext : (t.next c).items = t.items ∧ (t.next c).state ≠ .blank := by
      rw [Scan.next, h]
      simp only [hc, Bool.false_eq_true, if_false, if_neg hpipe]
      split_ifs <;> simp
    obtain ⟨w, hw⟩ := @rest_word (t.next c) line hnext.2
    rw [hnext.1] at hw
    exact ⟨.word w, by simp, hw⟩

theorem getElem?_of_append {l l' : List Item} {item : Item} (h : l ++ [item] <+: l') :
    l'[l.length]? = some item := by
  obtain ⟨suffix, rfl⟩ := h
  simp

/-- With enough room nothing is left out. -/
theorem limited_eq (h : (t.rest line).length ≤ maxArgs) : t.limited maxArgs line = t.rest line := by
  induction line generalizing t with
  | nil => rfl
  | cons c line ih =>
      rw [Scan.limited, if_neg]
      · exact ih h
      · rintro ⟨hstate, hc, hlimit⟩
        obtain ⟨item, -, hitem⟩ := @rest_separate t c line hstate hc
        have hle := hitem.length_le
        rw [List.length_append, List.length_singleton] at hle
        omega

theorem limited_length (t : Scan) (maxArgs : Nat) (line : Bytes) :
    t.items.length ≤ (t.limited maxArgs line).length := by
  induction line generalizing t with
  | nil => exact (finish_items t).length_le
  | cons c line ih =>
      rw [Scan.limited]
      split_ifs
      · exact le_rfl
      · exact (next_items t c).length_le.trans (ih (t.next c))

/-- An item can start. -/
def Scan.Room (maxArgs : Nat) (t : Scan) : Prop :=
  t.items.length ≤ maxArgs ∧ (t.state ≠ .blank → t.items.length < maxArgs)

theorem room_of_items (h : t.items.length < maxArgs) {t' : Scan} (hitems : t'.items = t.items) :
    t'.Room maxArgs := by
  constructor
  · rw [hitems]
    exact h.le
  · intro _
    rw [hitems]
    exact h

/-- The only step beyond the limit is a pipe which is joined to the last word. -/
theorem next_room (h : t.Room maxArgs)
    (hlimit : ¬(t.state = .blank ∧ isspace c = false ∧ maxArgs ≤ t.items.length)) :
    (t.next c).Room maxArgs ∨ ∃ w, maxArgs = t.items.length + 1 ∧
      (t.next c).items = t.items ++ [.word w] ++ [.joinedPipe] := by
  rw [Scan.next]
  cases hstate : t.state with
  | blank =>
      simp only
      split_ifs with hc hpipe
      · exact Or.inl h
      · have hlt : t.items.length < maxArgs := by
          by_contra hge
          exact hlimit ⟨hstate, by simpa using hc, by omega⟩
        refine Or.inl ⟨?_, ?_⟩
        · rw [List.length_append, List.length_singleton]
          exact hlt
        · simp
      all_goals
        refine Or.inl (room_of_items (t := t) ?_ rfl)
        by_contra hge
        exact hlimit ⟨hstate, by simpa using hc, by omega⟩
  | text =>
      have hlt : t.items.length < maxArgs := h.2 (by simp [hstate])
      simp only
      split_ifs with hend hpipe
      · by_cases hroom : t.items.length + 2 ≤ maxArgs
        · refine Or.inl ⟨?_, ?_⟩
          · simpa using hroom
          · simp
        · exact Or.inr ⟨unquote t.word, by omega, by simp⟩
      · refine Or.inl ⟨?_, ?_⟩
        · rw [List.length_append, List.length_singleton]
          exact hlt
        · simp
      all_goals exact Or.inl (room_of_items hlt rfl)
  | quote =>
      have hlt : t.items.length < maxArgs := h.2 (by simp [hstate])
      simp only
      split_ifs
      all_goals exact Or.inl (room_of_items hlt rfl)
  | escape => exact Or.inl (room_of_items (h.2 (by simp [hstate])) rfl)
  | quoteEscape => exact Or.inl (room_of_items (h.2 (by simp [hstate])) rfl)

/-- The limit is only passed by a pipe which is joined to the last word. -/
theorem limited_le_iff (h : t.Room maxArgs) :
    (t.limited maxArgs line).length ≤ maxArgs ↔ (t.rest line)[maxArgs]? ≠ some .joinedPipe := by
  induction line generalizing t with
  | nil =>
      have hle : t.finish.length ≤ maxArgs := by
        by_cases hstate : t.state = .blank
        · rw [Scan.finish, hstate]
          exact h.1
        · obtain ⟨w, hw⟩ := finish_word hstate
          rw [hw, List.length_append, List.length_singleton]
          exact h.2 hstate
      refine iff_of_true hle ?_
      change t.finish[maxArgs]? ≠ _
      rw [List.getElem?_eq_none hle]
      simp
  | cons c line ih =>
      rw [Scan.limited]
      split_ifs with hlimit
      · obtain ⟨hstate, hc, hge⟩ := hlimit
        obtain ⟨item, hne, hitem⟩ := @rest_separate t c line hstate hc
        obtain rfl : maxArgs = t.items.length := le_antisymm hge h.1
        rw [getElem?_of_append hitem]
        refine iff_of_true h.1 ?_
        simpa using hne
      · rw [rest_cons]
        rcases next_room h hlimit with hroom | ⟨w, hmax, hitems⟩
        · exact ih hroom
        · have hpassed := limited_length (t.next c) maxArgs line
          have hrest := rest_items (t.next c) line
          rw [hitems] at hpassed hrest
          have hjoined := getElem?_of_append hrest
          simp only [List.length_append, List.length_singleton] at hpassed hjoined
          refine iff_of_false (by omega) ?_
          rw [hmax, hjoined]
          simp

theorem limited_items_le_iff (line : Bytes) (maxArgs : Nat) :
    (Scan.limited maxArgs {} line).length ≤ maxArgs ↔
    (items line)[maxArgs]? ≠ some .joinedPipe := by
  apply limited_le_iff
  constructor
  · simp
  · simp

end

section

/-! Without zero bytes in the line there are none in the words. -/

variable {t : Scan} {c : UInt8} {w line : Bytes} {maxArgs : Nat}

theorem mem_of_mem_unquote (h : c ∈ unquote w) : c ∈ w := by
  rw [unquote] at h
  split_ifs at h
  · exact List.mem_of_mem_tail (List.dropLast_subset _ h)
  · exact h

theorem zero_notMem_unescape (h : c ≠ 0) : 0 ∉ unescape c := by
  rw [unescape]
  split_ifs
  · decide
  · decide
  · simpa using h.symm
  · simp only [List.mem_cons, List.not_mem_nil, or_false, not_or]
    exact ⟨by decide, h.symm⟩

def Scan.Clean (t : Scan) : Prop := 0 ∉ t.word ∧ ∀ w, .word w ∈ t.items → 0 ∉ w

theorem next_clean (h : t.Clean) (hc : c ≠ 0) : (t.next c).Clean := by
  obtain ⟨hword, hitems⟩ := h
  have hunquote : 0 ∉ unquote t.word := fun hmem => hword (mem_of_mem_unquote hmem)
  have happend : ∀ u : Bytes, 0 ∉ u → 0 ∉ t.word ++ u := by
    intro u hu
    rw [List.mem_append, not_or]
    exact ⟨hword, hu⟩
  have hsingle : 0 ∉ [c] := by simpa using hc.symm
  rw [Scan.next]
  cases t.state with
  | blank =>
      simp only
      split_ifs
      · exact ⟨hword, hitems⟩
      · exact ⟨hword, by simpa using hitems⟩
      · exact ⟨hword, hitems⟩
      all_goals exact ⟨hsingle, hitems⟩
  | text =>
      simp only
      split_ifs
      · refine ⟨by simp, fun w hw => ?_⟩
        simp only [List.mem_append, List.mem_cons, Item.word.injEq, reduceCtorEq, List.not_mem_nil,
          or_false]
          at hw
        rcases hw with hw | rfl
        · exact hitems w hw
        · exact hunquote
      · refine ⟨by simp, fun w hw => ?_⟩
        simp only [List.mem_append, List.mem_cons, Item.word.injEq, List.not_mem_nil,
          or_false] at hw
        rcases hw with hw | rfl
        · exact hitems w hw
        · exact hunquote
      · exact ⟨hword, hitems⟩
      all_goals exact ⟨happend _ hsingle, hitems⟩
  | quote =>
      simp only
      split_ifs
      · exact ⟨hword, hitems⟩
      all_goals exact ⟨happend _ hsingle, hitems⟩
  | escape => exact ⟨happend _ (zero_notMem_unescape hc), hitems⟩
  | quoteEscape => exact ⟨happend _ (zero_notMem_unescape hc), hitems⟩

theorem finish_clean (h : t.Clean) : ∀ w, .word w ∈ t.finish → 0 ∉ w := by
  obtain ⟨hword, hitems⟩ := h
  have hunquote : 0 ∉ unquote t.word := fun hmem => hword (mem_of_mem_unquote hmem)
  have hback : 0 ∉ t.word ++ [BACKSLASH] := by
    rw [List.mem_append, not_or]
    exact ⟨hword, by decide⟩
  have hlast : ∀ v, 0 ∉ v → ∀ w, .word w ∈ t.items ++ [.word v] → 0 ∉ w := by
    intro v hv w hw
    rcases List.mem_append.mp hw with hw | hw
    · exact hitems w hw
    · obtain rfl : w = v := Item.word.inj (List.mem_singleton.mp hw)
      exact hv
  rw [Scan.finish]
  cases t.state with
  | blank => exact hitems
  | text => exact hlast _ hunquote
  | quote => exact hlast _ hunquote
  | escape => exact hlast _ hback
  | quoteEscape => exact hlast _ hback

theorem limited_clean (h : t.Clean) (hzero : 0 ∉ line) :
    ∀ w, .word w ∈ t.limited maxArgs line → 0 ∉ w := by
  induction line generalizing t with
  | nil => exact finish_clean h
  | cons c line ih =>
      rw [List.mem_cons, not_or] at hzero
      rw [Scan.limited]
      split_ifs
      · exact h.2
      · exact ih (next_clean h (Ne.symm hzero.1)) hzero.2

theorem limited_items_clean (hzero : 0 ∉ line) (maxArgs : Nat) :
    ∀ w, .word w ∈ Scan.limited maxArgs {} line → 0 ∉ w := by
  apply limited_clean _ hzero
  constructor
  · simp
  · simp

end

section

/-! Escaped words are read again as they were, but for the quotes around them. -/

variable {t : Scan} {c : UInt8} {w : Bytes} {ws : List Bytes}

def escapeChar (c : UInt8) : Bytes :=
  if c = QUOTE ∨ c = BLANK ∨ c = PIPE then [BACKSLASH, c]
  else if c = NEWLINE then [BACKSLASH, LETTER_N]
  else if c = RETURN then [BACKSLASH, LETTER_R]
  else [c]

def escape (w : Bytes) : Bytes := w.flatMap escapeChar

/-- The escaped words, with single blanks between them. -/
def commandLine (ws : List Bytes) : Bytes := [BLANK].intercalate (ws.map escape)

/-- A character which can be escaped. -/
def Plain (c : UInt8) : Prop :=
  c ≠ BACKSLASH ∧ c ≠ 0 ∧ (isspace c = true → c = BLANK ∨ c = NEWLINE ∨ c = RETURN)

instance : DecidablePred Plain := fun _ => inferInstanceAs (Decidable (_ ∧ _ ∧ _))

theorem next_blank_text (h : t.state = .blank) (hspace : isspace c = false) (hpipe : c ≠ PIPE)
    (hback : c ≠ BACKSLASH) (hquote : c ≠ QUOTE) :
      t.next c = { t with state := .text, word := [c] } := by
  rw [Scan.next, h]
  simp only [hspace, Bool.false_eq_true, if_false, if_neg hpipe, if_neg hback, if_neg hquote]

theorem next_text_text (h : t.state = .text) (hspace : isspace c = false) (hpipe : c ≠ PIPE)
    (hback : c ≠ BACKSLASH) (hquote : c ≠ QUOTE) : t.next c = { t with word := t.word ++ [c] } := by
  rw [Scan.next, h]
  simp only [hspace, Bool.false_eq_true, hpipe, or_self, if_false, if_neg hback, if_neg hquote]

/-- Two characters are read as the one which was escaped. -/
theorem next_escaped (h : t.state = .blank ∨ t.state = .text) (d : UInt8) :
    (t.next BACKSLASH).next d = { t with state := .text, word := t.word ++ unescape d } := by
  have hspace : isspace BACKSLASH = false := by decide
  have hback : t.next BACKSLASH = { t with state := .escape } := by
    rcases h with h | h
    · rw [Scan.next, h]
      simp only [hspace, Bool.false_eq_true, if_false]
      rfl
    · rw [Scan.next, h]
      simp only [hspace, Bool.false_eq_true, false_or]
      rfl
  rw [hback]
  rfl

/-- The escaped character is appended to the word. -/
theorem foldl_escapeChar (h : t.state = .blank ∧ t.word = [] ∨ t.state = .text) (hc : Plain c) :
    (escapeChar c).foldl Scan.next t = { t with state := .text, word := t.word ++ [c] } := by
  obtain ⟨hback, -, hwhite⟩ := hc
  have hstate : t.state = .blank ∨ t.state = .text := h.imp_left And.left
  rw [escapeChar]
  split_ifs with hspecial hnewline hreturn
  · change (t.next BACKSLASH).next c = _
    rw [next_escaped hstate]
    rcases hspecial with rfl | rfl | rfl <;> rfl
  · subst hnewline
    exact next_escaped hstate LETTER_N
  · subst hreturn
    exact next_escaped hstate LETTER_R
  · rw [not_or, not_or] at hspecial
    obtain ⟨hquote, hblank, hpipe⟩ := hspecial
    have hspace : isspace c = false := by
      by_contra hspace
      rcases hwhite (by simpa using hspace) with hc | hc | hc
      · exact hblank hc
      · exact hnewline hc
      · exact hreturn hc
    change t.next c = _
    rcases h with ⟨h, hword⟩ | h
    · rw [next_blank_text h hspace hpipe hback hquote, hword]
      rfl
    · rw [next_text_text h hspace hpipe hback hquote, h]

theorem foldl_escape_text (h : t.state = .text) (hw : ∀ c ∈ w, Plain c) :
    (escape w).foldl Scan.next t = { t with word := t.word ++ w } := by
  induction w generalizing t with
  | nil => simp [escape]
  | cons c w ih =>
      obtain ⟨hc, hw⟩ := List.forall_mem_cons.mp hw
      rw [escape, List.flatMap_cons, List.foldl_append, foldl_escapeChar (Or.inr h) hc]
      rw [escape] at ih
      rw [ih rfl hw, List.append_assoc, h]
      rfl

theorem foldl_escape (h : t.state = .blank) (hword : t.word = []) (hne : w ≠ [])
    (hw : ∀ c ∈ w, Plain c) :
    (escape w).foldl Scan.next t = { t with state := .text, word := w } := by
  cases w with
  | nil => exact (hne rfl).elim
  | cons c w =>
      obtain ⟨hc, hw⟩ := List.forall_mem_cons.mp hw
      rw [escape, List.flatMap_cons, List.foldl_append, foldl_escapeChar (Or.inl ⟨h, hword⟩) hc,
        hword]
      exact foldl_escape_text rfl hw

theorem commandLine_singleton (w : Bytes) : commandLine [w] = escape w := List.intercalate_singleton

theorem commandLine_cons (w v : Bytes) (ws : List Bytes) :
    commandLine (w :: v :: ws) = escape w ++ BLANK :: commandLine (v :: ws) := by
  simp [commandLine]

theorem rest_commandLine (h : t.state = .blank) (hword : t.word = [])
    (hws : ∀ w ∈ ws, w ≠ [] ∧ ∀ c ∈ w, Plain c) :
    t.rest (commandLine ws) = t.items ++ ws.map fun w => .word (unquote w) := by
  induction ws generalizing t with
  | nil =>
      change t.finish = _
      rw [Scan.finish, h]
      simp
  | cons w ws ih =>
      obtain ⟨hw, hws⟩ := List.forall_mem_cons.mp hws
      cases ws with
      | nil =>
          rw [commandLine_singleton, Scan.rest, foldl_escape h hword hw.1 hw.2]
          rfl
      | cons v ws =>
          have hnext : Scan.next { t with state := .text, word := w } BLANK =
              { items := t.items ++ [.word (unquote w)] } := rfl
          rw [commandLine_cons, Scan.rest, List.foldl_append, foldl_escape h hword hw.1 hw.2,
            List.foldl_cons, hnext]
          exact (ih rfl rfl hws).trans (List.append_assoc ..)

/-- Every word comes back without the quotes around it. -/
theorem items_commandLine (hws : ∀ w ∈ ws, w ≠ [] ∧ ∀ c ∈ w, Plain c) :
    items (commandLine ws) = ws.map fun w => .word (unquote w) := rest_commandLine rfl rfl hws

theorem unquote_eq_self_iff :
    unquote w = w ↔ ¬(2 ≤ w.length ∧ w.head? = some QUOTE ∧ w.getLast? = some QUOTE) := by
  rw [unquote]
  split_ifs with h
  · refine iff_of_false (fun heq => ?_) (not_not_intro h)
    have hlength := congrArg List.length heq
    rw [List.length_dropLast, List.length_tail] at hlength
    omega
  · exact iff_of_true rfl h

theorem zero_notMem_escape (hw : ∀ c ∈ w, Plain c) : 0 ∉ escape w := by
  rw [escape, List.mem_flatMap]
  rintro ⟨c, hc, hzero⟩
  have hne : c ≠ 0 := (hw c hc).2.1
  rw [escapeChar] at hzero
  split_ifs at hzero
  · rcases List.mem_cons.mp hzero with hzero | hzero
    · cases hzero
    · exact hne (List.mem_singleton.mp hzero).symm
  · revert hzero
    decide
  · revert hzero
    decide
  · exact hne (List.mem_singleton.mp hzero).symm

theorem zero_notMem_commandLine (hws : ∀ w ∈ ws, ∀ c ∈ w, Plain c) : 0 ∉ commandLine ws := by
  induction ws with
  | nil => simp [commandLine]
  | cons w ws ih =>
      obtain ⟨hw, hws⟩ := List.forall_mem_cons.mp hws
      cases ws with
      | nil =>
          rw [commandLine_singleton]
          exact zero_notMem_escape hw
      | cons v ws =>
          rw [commandLine_cons, List.mem_append, List.mem_cons]
          rintro (hzero | hzero | hzero)
          · exact zero_notMem_escape hw hzero
          · cases hzero
          · exact ih hws hzero

end

end Ibnos.ShellLines
