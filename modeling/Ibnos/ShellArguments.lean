import Ibnos.Blocks
import Ibnos.Programs
import Ibnos.ShellLines

/-!
How the shell parses a line. The words are unescaped in place, so the write pointer has to stay
behind the read pointer.
-/

namespace Ibnos.ShellArguments

open Ibnos.Blocks
open Ibnos.Programs
open Ibnos.ShellLines
open Ibnos.Strings

/-- Accesses outside of the line or of the array, and pointers which are not set. -/
inductive Fault
  | outOfBounds (index : Nat)
  | noArgument (index : Nat)
  | nullPointer
  | outOfFuel
  deriving DecidableEq, Repr

/-- A character of the line is read or written, or `dst` gets a new value while `*src` is read. -/
inductive Event
  | read (index : Nat)
  | write (index : Nat)
  | advance (dst src : Nat)
  deriving DecidableEq, Repr

/-- The line, the array of pointers into it, and the variables. -/
structure Parser where
  str : Block UInt8
  args : Block (Option Nat)
  count : Nat := 0
  state : ParserState := .blank
  src : Nat := 0
  dst : Nat := 0
  trace : List Event := []

abbrev S := Program Parser Fault

def Parser.read (p : Parser) : Parser := { p with trace := p.trace ++ [.read p.src] }

def Parser.write (p : Parser) (i : Nat) (c : UInt8) : Parser :=
  { p with str := { p.str with cell := Function.update p.str.cell i c }
           trace := p.trace ++ [.write i] }

def Parser.advance (p : Parser) : Parser :=
  { p with dst := p.dst + 1, trace := p.trace ++ [.advance (p.dst + 1) p.src] }

def Parser.setArg (p : Parser) (i : Nat) (a : Option Nat) : Parser :=
  { p with args := { p.args with cell := Function.update p.args.cell i a } }

def loadChar (i : Nat) : S UInt8 := do
  let p ← get
  if i < p.str.length then return p.str.cell i else throw (.outOfBounds i)

def storeChar (i : Nat) (c : UInt8) : S Unit := do
  let p ← get
  if i < p.str.length then set (p.write i c) else throw (.outOfBounds i)

/-- `*src` -/
def current : S UInt8 := do
  modify Parser.read
  loadChar (← get).src

/-- `*dst++ = c` -/
def emit (c : UInt8) : S Unit := do
  storeChar (← get).dst c
  modify Parser.advance

/-- `if (src != dst) *dst = *src; dst++;` -/
def copyByte : S Unit := do
  let p ← get
  if p.src ≠ p.dst then do
    let c ← current
    storeChar p.dst c
    modify Parser.advance
  else modify Parser.advance

def storeArg (i : Nat) (a : Option Nat) : S Unit := do
  let p ← get
  if i < p.args.length then set (p.setArg i a) else throw (.noArgument i)

/-- `args[count] = a` -/
def setArg (a : Option Nat) : S Unit := do
  storeArg (← get).count a

/-- `args[count]`, which is going to be dereferenced. -/
def getArg : S Nat := do
  let p ← get
  if p.count < p.args.length then
    match p.args.cell p.count with
    | some a => return a
    | none => throw .nullPointer
  else throw (.noArgument p.count)

def setState (state : ParserState) : S Unit := modify fun p => { p with state := state }

def incCount : S Unit := modify fun p => { p with count := p.count + 1 }

/-- Checks if the word is fully quoted. -/
def removeQuotes : S Unit := do
  let p ← get
  let start ← getArg
  let first ← loadChar start
  if first = QUOTE ∧ start < p.dst - 1 then do
    let last ← loadChar (p.dst - 1)
    if last = QUOTE then do
      setArg (some (start + 1))
      storeChar (p.dst - 1) 0
    else pure ()
  else pure ()

/-- The word is complete. -/
def closeWord : S Unit := do
  removeQuotes
  emit 0
  incCount

/-- A null pointer stands for a pipe. -/
def addPipe : S Unit := do
  setArg none
  incCount

/-! One character in each of the states. The result is there if the function returns. -/

def blankStep (maxArgs : Nat) : S (Option Nat) := do
  let c ← current
  let p ← get
  if isspace c then return none
  else if p.count ≥ maxArgs then return some p.count
  else if c = PIPE then do
    addPipe
    return none
  else do
    setArg (some p.dst)
    if c = BACKSLASH then do
      setState .escape
      return none
    else do
      setState (if c = QUOTE then .quote else .text)
      copyByte
      return none

/-- The limit is checked again for a pipe which follows the word. -/
def endPipe (maxArgs : Nat) (isPipe : Bool) : S (Option Nat) := do
  let p ← get
  if isPipe then
    if p.count > maxArgs then return some p.count
    else do
      addPipe
      setState .blank
      return none
  else do
    setState .blank
    return none

def textStep (maxArgs : Nat) : S (Option Nat) := do
  let c ← current
  if isspace c ∨ c = PIPE then do
    closeWord
    endPipe maxArgs (c == PIPE)
  else if c = BACKSLASH then do
    setState .escape
    return none
  else do
    setState (if c = QUOTE then .quote else .text)
    copyByte
    return none

def quoteStep : S (Option Nat) := do
  let c ← current
  if c = BACKSLASH then do
    setState .quoteEscape
    return none
  else do
    copyByte
    let c ← current
    setState (if c = QUOTE then .text else .quote)
    return none

/-- An escape which is not valid is copied with its backslash. -/
def unescapeByte : S Unit := do
  let c ← current
  if c = LETTER_N then emit NEWLINE
  else if c = LETTER_R then emit RETURN
  else if c = QUOTE ∨ c = BLANK ∨ c = PIPE then emit c
  else do
    emit BACKSLASH
    let c ← current
    emit c

def escapeStep (state : ParserState) : S (Option Nat) := do
  unescapeByte
  setState state
  return none

def step (maxArgs : Nat) : S (Option Nat) := do
  match (← get).state with
  | .blank => blankStep maxArgs
  | .text => textStep maxArgs
  | .quote => quoteStep
  | .escape => escapeStep .text
  | .quoteEscape => escapeStep .quote

/-- A backslash at the end of the line stands for itself. -/
def closeEscape : S Unit := do
  emit BACKSLASH
  emit 0
  incCount

/-- What is left to do at the end of the line. -/
def finish : S Nat := do
  match (← get).state with
  | .blank => return (← get).count
  | .text => do
      closeWord
      return (← get).count
  | .quote => do
      closeWord
      return (← get).count
  | .escape => do
      closeEscape
      return (← get).count
  | .quoteEscape => do
      closeEscape
      return (← get).count

/-- The loop over the characters, for at most so many of them. -/
def parseLoop (maxArgs : Nat) : Nat → S Nat
  | 0 => throw .outOfFuel
  | rounds + 1 => do
      match ← step maxArgs with
      | some count => return count
      | none => do
          modify fun p => { p with src := p.src + 1 }
          let c ← current
          if c ≠ 0 then parseLoop maxArgs rounds else finish

def shellParseArgs (maxArgs : Nat) : S Nat := do
  let c ← current
  if c = 0 then return 0 else parseLoop maxArgs (← get).str.length

/-- The list of arguments ends with two null pointers before the command is run. -/
def shellArgs (maxArgs : Nat) : S Nat := do
  let count ← shellParseArgs maxArgs
  if count ≤ 0 then return count
  else do
    storeArg count none
    storeArg (count + 1) none
    return count

/-- The line with its terminator, and the array of pointers. -/
def given (line : Bytes) (args : Block (Option Nat)) : Parser where
  str := ⟨line.length + 1, fun i => line.getD i 0⟩
  args := args

/-- The string at an address of the line, up to its terminator. -/
def Parser.stringAt (p : Parser) (a : Nat) : Bytes := cstring (p.str.slice a (p.str.length - a))

def Parser.argument (p : Parser) (i : Nat) : Option Bytes := (p.args.cell i).map p.stringAt

/-- What the array holds of an item. -/
def content : Item → Option Bytes
  | .word w => some w
  | .pipe => none
  | .joinedPipe => none

section

/-! What the operations do when they are not stopped. -/

variable {p : Parser} {c : UInt8} {i start : Nat} {a : Option Nat}

def Parser.emitted (p : Parser) (c : UInt8) : Parser := (p.write p.dst c).advance

def Parser.copied (p : Parser) : Parser :=
  if p.src ≠ p.dst then p.read.emitted (p.str.cell p.src) else p.advance

def Parser.unquoted (p : Parser) (start : Nat) : Parser :=
  if (p.str.cell start = QUOTE ∧ start < p.dst - 1) ∧ p.str.cell (p.dst - 1) = QUOTE then
    (p.setArg p.count (some (start + 1))).write (p.dst - 1) 0
  else p

/-- The word which starts there is nullterminated. -/
def Parser.closed (p : Parser) (start : Nat) : Parser :=
  { (p.unquoted start).emitted 0 with count := p.count + 1 }

theorem loadChar_apply (h : i < p.str.length) : loadChar i p = .ok (p.str.cell i, p) := by
  rw [loadChar, bind_apply, get_apply]
  simp only [if_pos h]
  rfl

theorem storeChar_apply (h : i < p.str.length) : storeChar i c p = .ok ((), p.write i c) := by
  rw [storeChar, bind_apply, get_apply]
  simp only [if_pos h]
  rfl

theorem storeArg_apply (h : i < p.args.length) : storeArg i a p = .ok ((), p.setArg i a) := by
  rw [storeArg, bind_apply, get_apply]
  simp only [if_pos h]
  rfl

theorem setArg_apply (h : p.count < p.args.length) : setArg a p = .ok ((), p.setArg p.count a) :=
  storeArg_apply h

theorem current_apply (h : p.src < p.str.length) : current p = .ok (p.str.cell p.src, p.read) :=
  loadChar_apply (p := p.read) h

theorem emit_apply (h : p.dst < p.str.length) : emit c p = .ok ((), p.emitted c) := by
  have hstore := @storeChar_apply p c p.dst h
  rw [emit, bind_apply, get_apply]
  simp only
  rw [bind_apply, hstore]
  rfl

theorem copyByte_apply (hsrc : p.src < p.str.length) (hdst : p.dst < p.str.length) :
    copyByte p = .ok ((), p.copied) := by
  rw [copyByte, bind_apply, get_apply, Parser.copied]
  simp only
  split_ifs with h
  · have hstore := @storeChar_apply p.read (p.str.cell p.src) p.dst hdst
    rw [bind_apply, current_apply hsrc]
    simp only
    rw [bind_apply, hstore]
    rfl
  · rfl

theorem getArg_apply (h : p.count < p.args.length) (harg : p.args.cell p.count = some start) :
    getArg p = .ok (start, p) := by
  rw [getArg, bind_apply, get_apply]
  simp only [if_pos h, harg]
  rfl

theorem removeQuotes_apply (h : p.count < p.args.length) (harg : p.args.cell p.count = some start)
    (hstart : start < p.str.length) (hdst : p.dst ≤ p.str.length) :
    removeQuotes p = .ok ((), p.unquoted start) := by
  have hlast : p.dst - 1 < p.str.length := by omega
  rw [removeQuotes, bind_apply, get_apply]
  simp only
  rw [bind_apply, getArg_apply h harg]
  simp only
  rw [bind_apply, loadChar_apply hstart, Parser.unquoted]
  simp only
  by_cases hfirst : p.str.cell start = QUOTE ∧ start < p.dst - 1
  · rw [if_pos hfirst, bind_apply, loadChar_apply hlast]
    simp only [hfirst, true_and]
    split_ifs with hquote
    · rw [bind_apply, setArg_apply h]
      exact storeChar_apply (p := p.setArg p.count (some (start + 1))) hlast
    · rfl
  · rw [if_neg hfirst, if_neg fun hquotes => hfirst hquotes.1]
    rfl

theorem closeWord_apply (h : p.count < p.args.length) (harg : p.args.cell p.count = some start)
    (hstart : start ≤ p.dst) (hdst : p.dst < p.str.length) :
    closeWord p = .ok ((), p.closed start) := by
  have hemit : emit 0 (p.unquoted start) = .ok ((), (p.unquoted start).emitted 0) := by
    apply emit_apply
    rw [Parser.unquoted]
    split_ifs <;> exact hdst
  have hcount : ((p.unquoted start).emitted 0).count = p.count := by
    rw [Parser.unquoted]
    split_ifs <;> rfl
  rw [closeWord, bind_apply, removeQuotes_apply h harg (by omega) hdst.le]
  simp only
  rw [bind_apply, hemit, Parser.closed, ← hcount]
  rfl

theorem closed_src (p : Parser) (start : Nat) : (p.closed start).src = p.src := by
  rw [Parser.closed, Parser.unquoted]
  split_ifs <;> rfl

end

/-- Nothing is written outside of the line, or over a character which was not read yet, and `dst`
is at most one character ahead of `src`. -/
structure Safe (length : Nat) (trace : List Event) : Prop where
  inside : ∀ i, .write i ∈ trace → i < length
  read : ∀ before i, before ++ [.write i] <+: trace → .read i ∈ before
  behind : ∀ dst src, .advance dst src ∈ trace → dst ≤ src + 1

/-- The parser stays inside of the line, and has not touched what is behind `*src`. -/
structure Sound (line : Bytes) (n : Nat) (p : Parser) : Prop where
  length : p.str.length = line.length + 1
  pointers : p.args.length = n
  src : p.src ≤ line.length
  unread : ∀ i, p.src < i → p.str.cell i = line.getD i 0
  reads : ∀ i, i ≤ p.src → .read i ∈ p.trace
  safe : Safe (line.length + 1) p.trace

section

variable {line : Bytes} {n i start : Nat} {p : Parser} {c : UInt8} {a : Option Nat}
  {length : Nat} {trace : List Event} {e : Event}

theorem Safe.snoc (h : Safe length trace)
    (hwrite : ∀ i, e = .write i → i < length ∧ .read i ∈ trace)
    (hadvance : ∀ dst src, e = .advance dst src → dst ≤ src + 1) : Safe length (trace ++ [e]) := by
  constructor
  · intro i hi
    rcases List.mem_append.mp hi with hi | hi
    · exact h.inside i hi
    · exact (hwrite i (List.mem_singleton.mp hi).symm).1
  · intro before i hi
    rcases List.prefix_concat_iff.mp hi with hi | hi
    · obtain ⟨rfl, he⟩ := List.append_inj' hi rfl
      exact (hwrite i (List.singleton_inj.mp he).symm).2
    · exact h.read before i hi
  · intro dst src hd
    rcases List.mem_append.mp hd with hd | hd
    · exact h.behind dst src hd
    · exact hadvance dst src (List.mem_singleton.mp hd).symm

theorem safe_nil (length : Nat) : Safe length [] := ⟨by simp, by simp, by simp⟩

theorem Sound.inside (h : Sound line n p) : p.src < p.str.length := by
  rw [h.length]
  exact Nat.lt_succ_of_le h.src

theorem Sound.read (h : Sound line n p) : Sound line n p.read where
  length := h.length
  pointers := h.pointers
  src := h.src
  unread := h.unread
  reads i hi := List.mem_append_left _ (h.reads i hi)
  safe := h.safe.snoc (by simp) (by simp)

/-- What was read may be overwritten. -/
theorem Sound.write (h : Sound line n p) (hi : i ≤ p.src) : Sound line n (p.write i c) where
  length := h.length
  pointers := h.pointers
  src := h.src
  unread j hj := by
    rw [← h.unread j hj]
    apply Function.update_of_ne
    change p.src < j at hj
    omega
  reads j hj := List.mem_append_left _ (h.reads j hj)
  safe := by
    apply h.safe.snoc
    · rintro _ ⟨⟩
      exact ⟨Nat.lt_succ_of_le (hi.trans h.src), h.reads i hi⟩
    · simp

theorem Sound.advance (h : Sound line n p) (hdst : p.dst ≤ p.src) : Sound line n p.advance where
  length := h.length
  pointers := h.pointers
  src := h.src
  unread := h.unread
  reads j hj := List.mem_append_left _ (h.reads j hj)
  safe := by
    apply h.safe.snoc
    · simp
    · rintro _ _ ⟨⟩
      exact Nat.succ_le_succ hdst

theorem Sound.setArg (h : Sound line n p) : Sound line n (p.setArg i a) :=
  ⟨h.length, h.pointers, h.src, h.unread, h.reads, h.safe⟩

theorem Sound.setState (h : Sound line n p) (state : ParserState) :
    Sound line n { p with state := state } :=
  ⟨h.length, h.pointers, h.src, h.unread, h.reads, h.safe⟩

theorem Sound.setCount (h : Sound line n p) (count : Nat) :
    Sound line n { p with count := count } :=
  ⟨h.length, h.pointers, h.src, h.unread, h.reads, h.safe⟩

theorem Sound.emitted (h : Sound line n p) (hdst : p.dst ≤ p.src) : Sound line n (p.emitted c) :=
  (h.write hdst).advance hdst

theorem Sound.copied (h : Sound line n p) (hdst : p.dst ≤ p.src) : Sound line n p.copied := by
  rw [Parser.copied]
  split_ifs
  · exact h.read.emitted hdst
  · exact h.advance hdst

theorem Sound.unquoted (h : Sound line n p) (hdst : p.dst ≤ p.src) :
    Sound line n (p.unquoted start) := by
  rw [Parser.unquoted]
  split_ifs
  · exact h.setArg.write ((Nat.sub_le _ _).trans hdst)
  · exact h

theorem Sound.closed (h : Sound line n p) (hdst : p.dst ≤ p.src) :
    Sound line n (p.closed start) := by
  apply Sound.setCount
  apply (h.unquoted hdst).emitted
  rw [Parser.unquoted]
  split_ifs <;> exact hdst

/-- The test at the end of the loop reads the next character. -/
theorem Sound.next (h : Sound line n p) (hsrc : p.src < line.length) :
    Sound line n (Parser.read { p with src := p.src + 1 }) where
  length := h.length
  pointers := h.pointers
  src := hsrc
  unread j hj := h.unread j (Nat.lt_of_succ_lt hj)
  reads j hj := by
    rcases Nat.le_succ_iff.mp hj with hj | rfl
    · exact List.mem_append_left _ (h.reads j hj)
    · exact List.mem_append_right _ (List.mem_singleton_self _)
  safe := h.safe.snoc (by simp) (by simp)

end

/-- There is a nullterminated word at the address. -/
def Holds (str : Block UInt8) (a : Nat) (w : Bytes) : Prop :=
  str.slice a w.length = w ∧ str.cell (a + w.length) = 0

/-- The items are in the array, and the words one behind the other, all below the last address. -/
inductive Placed (str : Block UInt8) (args : Block (Option Nat)) : List Item → Nat → Prop
  | nil {hi : Nat} : Placed str args [] hi
  | word {items : List Item} {w : Bytes} {lo a hi : Nat} (h : Placed str args items lo)
      (harg : args.cell items.length = some a) (hlo : lo ≤ a) (hword : Holds str a w)
      (hhi : a + w.length < hi) : Placed str args (items ++ [.word w]) hi
  | pipe {items : List Item} {item : Item} {hi : Nat} (h : Placed str args items hi)
      (hitem : content item = none) (harg : args.cell items.length = none) :
      Placed str args (items ++ [item]) hi

/-- The items are stored, and the part of the next word which was read stands behind them. -/
structure Holding (items : List Item) (start : Nat) (word : Bytes) (p : Parser) : Prop where
  count : p.count = items.length
  placed : Placed p.str p.args items start
  slice : p.str.slice start word.length = word
  dst : p.dst = start + word.length

section

variable {str str' : Block UInt8} {args args' : Block (Option Nat)} {its : List Item}
  {w : Bytes} {i start hi : Nat} {p : Parser} {c : UInt8} {a : Option Nat}

theorem Placed.congr (h : Placed str args its hi) (hstr : ∀ k, k < hi → str'.cell k = str.cell k)
    (hargs : ∀ k, k < its.length → args'.cell k = args.cell k) : Placed str' args' its hi := by
  induction h with
  | nil => exact .nil
  | @word items w lo a hi h harg hlo hword hhi ih =>
      simp only [List.length_append, List.length_singleton] at hargs
      refine .word (a := a) (ih (fun k hk => hstr k (by omega)) fun k hk => hargs k (by omega)) ?_
        hlo ?_ hhi
      · rw [hargs _ (Nat.lt_succ_self _), harg]
      · refine ⟨?_, ?_⟩
        · rw [← hword.1, length_slice]
          exact slice_congr fun k hk => hstr _ (by omega)
        · rw [hstr _ hhi, hword.2]
  | pipe h hitem harg ih =>
      simp only [List.length_append, List.length_singleton] at hargs
      refine .pipe (ih hstr fun k hk => hargs k (by omega)) hitem ?_
      rw [hargs _ (Nat.lt_succ_self _), harg]

theorem Holding.read (h : Holding its start w p) : Holding its start w p.read :=
  ⟨h.count, h.placed, h.slice, h.dst⟩

theorem Holding.setState (h : Holding its start w p) (state : ParserState) :
    Holding its start w { p with state := state } := ⟨h.count, h.placed, h.slice, h.dst⟩

theorem Holding.next (h : Holding its start w p) (src : Nat) :
    Holding its start w { p with src := src } := ⟨h.count, h.placed, h.slice, h.dst⟩

/-- The pointers from `args[count]` on are not used yet. -/
theorem Holding.setArg (h : Holding its start w p) : Holding its start w (p.setArg p.count a) where
  count := h.count
  placed := by
    apply h.placed.congr fun _ _ => rfl
    intro k hk
    apply Function.update_of_ne
    rw [h.count]
    exact hk.ne
  slice := h.slice
  dst := h.dst

theorem slice_concat (b : Block UInt8) (start : Nat) (w : Bytes) (hw : b.slice start w.length = w) :
    b.slice start (w.length + 1) = w ++ [b.cell (start + w.length)] := by
  rw [slice_add, hw]
  rfl

theorem Holding.emitted (h : Holding its start w p) :
    Holding its start (w ++ [c]) (p.emitted c) where
  count := h.count
  placed := by
    refine h.placed.congr (fun k hk => Function.update_of_ne ?_ _ _) fun _ _ => rfl
    rw [h.dst]
    omega
  slice := by
    have hkept : (p.emitted c).str.slice start w.length = w := by
      refine Eq.trans (slice_congr fun k hk => ?_) h.slice
      apply Function.update_of_ne
      rw [h.dst]
      omega
    have hlast : (p.emitted c).str.cell (start + w.length) = c := by
      rw [← h.dst]
      exact Function.update_self ..
    rw [List.length_append, List.length_singleton, slice_concat _ _ _ hkept, hlast]
  dst := by
    rw [List.length_append, ← Nat.add_assoc, ← h.dst]
    rfl

/-- Nothing is written if the character is at its place already. -/
theorem Holding.copied (h : Holding its start w p) :
    Holding its start (w ++ [p.str.cell p.src]) p.copied := by
  rw [Parser.copied]
  split_ifs with hne
  · exact h.read.emitted
  · refine ⟨h.count, h.placed, ?_, ?_⟩
    · rw [List.length_append, List.length_singleton, not_not.mp hne, h.dst]
      exact slice_concat _ _ _ h.slice
    · rw [List.length_append, ← Nat.add_assoc, ← h.dst]
      rfl

theorem Holding.getElem? (h : Holding its start w p) (hi : i < w.length) :
    w[i]? = some (p.str.cell (start + i)) := by
  have hword := congrArg (fun l => l[i]?) h.slice
  simp only [Block.slice, List.getElem?_map, List.getElem?_range hi, Option.map_some] at hword
  exact hword.symm

/-- The test for the quotes sees both ends of the word. -/
theorem Holding.quoted_iff (h : Holding its start w p) :
    (p.str.cell start = QUOTE ∧ start < p.dst - 1) ∧ p.str.cell (p.dst - 1) = QUOTE ↔
      2 ≤ w.length ∧ w.head? = some QUOTE ∧ w.getLast? = some QUOTE := by
  by_cases hlength : 2 ≤ w.length
  · have hfirst : w.head? = some (p.str.cell start) := by
      rw [List.head?_eq_getElem?, h.getElem? (by omega)]
      rfl
    have hlast : w.getLast? = some (p.str.cell (p.dst - 1)) := by
      rw [List.getLast?_eq_getElem?, h.getElem? (by omega), h.dst, Nat.add_sub_assoc (by omega)]
    have hlt : start < p.dst - 1 := by
      rw [h.dst]
      omega
    rw [hfirst, hlast, Option.some_inj, Option.some_inj]
    exact ⟨fun hq => ⟨hlength, hq.1.1, hq.2⟩, fun hq => ⟨⟨hq.2.1, hlt⟩, hq.2.2⟩⟩
  · have hge : ¬start < p.dst - 1 := by
      rw [h.dst]
      omega
    exact iff_of_false (fun hq => hge hq.1.2) fun hq => hlength hq.1

theorem Holding.terminated (h : Holding its start w p) (harg : p.args.cell p.count = some start) :
    Placed (p.emitted 0).str (p.emitted 0).args (its ++ [.word w]) (p.dst + 1) := by
  refine Placed.word (a := start) h.emitted.placed ?_ le_rfl ⟨?_, ?_⟩ ?_
  · rw [← h.count]
    exact harg
  · refine Eq.trans (slice_congr fun k hk => ?_) h.slice
    apply Function.update_of_ne
    rw [h.dst]
    omega
  · rw [← h.dst]
    exact Function.update_self ..
  · rw [h.dst]
    exact Nat.lt_succ_self _

/-- The quotes are taken off by moving the start and storing a terminator over the last one. -/
theorem Holding.closed (h : Holding its start w p) (harg : p.args.cell p.count = some start) :
    Holding (its ++ [.word (unquote w)]) (p.dst + 1) [] (p.closed start) := by
  have hcount : p.count + 1 = (its ++ [Item.word (unquote w)]).length := by
    rw [h.count, List.length_append]
    rfl
  by_cases hquote : 2 ≤ w.length ∧ w.head? = some QUOTE ∧ w.getLast? = some QUOTE
  · have hdst : p.dst = start + w.length := h.dst
    rw [Parser.closed, Parser.unquoted, if_pos (h.quoted_iff.mpr hquote)]
    rw [unquote, if_pos hquote] at hcount ⊢
    have hlength : w.tail.dropLast.length = w.length - 2 := by
      rw [List.length_dropLast, List.length_tail]
      omega
    have htail : w.tail.dropLast = p.str.slice (start + 1) (w.length - 2) := by
      conv_lhs => rw [← h.slice, ← List.drop_one, drop_slice, List.dropLast_eq_take, length_slice,
        take_slice]
      congr 1
      omega
    have hplaced := h.setArg (a := some (start + 1)) |>.placed
    refine ⟨hcount, ?_, rfl, rfl⟩
    refine Placed.word (a := start + 1) (hplaced.congr (fun k hk => ?_) fun _ _ => rfl) ?_
      (Nat.le_succ start)
      ⟨?_, ?_⟩ ?_
    · refine (Function.update_of_ne ?_ _ _).trans (Function.update_of_ne ?_ _ _)
      · change k ≠ p.dst
        omega
      · omega
    · rw [← h.count]
      exact Function.update_self ..
    · rw [hlength, htail]
      refine slice_congr fun k hk => ?_
      refine (Function.update_of_ne ?_ _ _).trans (Function.update_of_ne ?_ _ _)
      · change _ ≠ p.dst
        omega
      · omega
    · rw [hlength, show start + 1 + (w.length - 2) = p.dst - 1 by omega]
      refine (Function.update_of_ne ?_ _ _).trans (Function.update_self ..)
      change _ ≠ p.dst
      omega
    · rw [hlength, hdst]
      omega
  · rw [Parser.closed, Parser.unquoted, if_neg (mt h.quoted_iff.mp hquote)]
    rw [unquote, if_neg hquote] at hcount ⊢
    exact ⟨hcount, h.terminated harg, rfl, rfl⟩

end

def never : Fault → Prop := fun _ => False

/-- Of a word more was read, at the same character. -/
structure Grown (line : Bytes) (n : Nat) (its : List Item) (start : Nat) (w : Bytes)
    (p p' : Parser) : Prop where
  sound : Sound line n p'
  holding : Holding its start w p'
  src : p'.src = p.src
  args : p'.args = p.args
  count : p'.count = p.count

section

variable {line w : Bytes} {n start : Nat} {its : List Item} {p : Parser} {c : UInt8}

theorem grown_emitted (hs : Sound line n p) (hh : Holding its start w p) (hdst : p.dst ≤ p.src) :
    Grown line n its start (w ++ [c]) p (p.emitted c) :=
  ⟨hs.emitted hdst, hh.emitted, rfl, rfl, rfl⟩

theorem Grown.of_read {p' : Parser} (h : Grown line n its start w p.read p') :
    Grown line n its start w p p' := ⟨h.sound, h.holding, h.src, h.args, h.count⟩

theorem Grown.read {p' : Parser} (h : Grown line n its start w p p') :
    Grown line n its start w p p'.read := ⟨h.sound.read, h.holding.read, h.src, h.args, h.count⟩

theorem Grown.setState {p' : Parser} (h : Grown line n its start w p p') (state : ParserState) :
    Grown line n its start w p { p' with state := state } :=
  ⟨h.sound.setState state, h.holding.setState state, h.src, h.args, h.count⟩

theorem emit_yields (hs : Sound line n p) (hh : Holding its start w p) (hdst : p.dst ≤ p.src) :
    Yields never (emit c) p fun _ p' => Grown line n its start (w ++ [c]) p p' :=
  yields_of_ok (emit_apply (hdst.trans_lt hs.inside)) (grown_emitted hs hh hdst)

theorem copied_src (p : Parser) : p.copied.src = p.src := by
  rw [Parser.copied]
  split_ifs <;> rfl

theorem copied_cell (p : Parser) : p.copied.str.cell p.src = p.str.cell p.src := by
  rw [Parser.copied]
  split_ifs with hne
  · exact Function.update_of_ne hne _ _
  · rfl

theorem copyByte_yields (hs : Sound line n p) (hh : Holding its start w p) (hdst : p.dst ≤ p.src) :
    Yields never copyByte p fun _ p' => Grown line n its start (w ++ [p.str.cell p.src]) p p' ∧
      p'.state = p.state ∧ p'.str.cell p'.src = p.str.cell p.src := by
  apply yields_of_ok (copyByte_apply hs.inside (hdst.trans_lt hs.inside))
  refine ⟨⟨hs.copied hdst, hh.copied, copied_src p, ?_, ?_⟩, ?_, ?_⟩
  · rw [Parser.copied]
    split_ifs <;> rfl
  · rw [Parser.copied]
    split_ifs <;> rfl
  · rw [Parser.copied]
    split_ifs <;> rfl
  · rw [copied_src, copied_cell]

/-- The backslash which was read before leaves room for two characters. -/
theorem unescapeByte_yields (hs : Sound line n p) (hh : Holding its start w p)
    (hdst : p.dst < p.src) :
    Yields never unescapeByte p fun _ p' =>
      Grown line n its start (w ++ unescape (p.str.cell p.src)) p p' := by
  have hemit : ∀ d, Yields never (emit d) p.read fun _ p' => Grown line n its start
    (w ++ [d]) p p' :=
    fun d => (emit_yields hs.read hh.read hdst.le).mono fun _ _ h => h.of_read
  rw [unescapeByte]
  refine yields_ok_bind (current_apply hs.inside) ?_
  rw [unescape]
  split_ifs
  · exact hemit NEWLINE
  · exact hemit RETURN
  · exact hemit _
  · have hgrown : Grown line n its start (w ++ [BACKSLASH]) p (p.read.emitted BACKSLASH) :=
      (grown_emitted hs.read hh.read hdst.le).of_read
    have hcell : (p.read.emitted BACKSLASH).str.cell p.src = p.str.cell p.src :=
      Function.update_of_ne hdst.ne' _ _
    refine yields_ok_bind (emit_apply (p := p.read) (hdst.trans hs.inside)) ?_
    refine yields_ok_bind (current_apply hgrown.sound.inside) ?_
    refine (emit_yields hgrown.sound.read hgrown.holding.read hdst).mono fun _ p' h => ?_
    rw [List.append_assoc] at h
    refine ⟨h.sound, ?_, h.src, h.args, h.count⟩
    rw [← hcell]
    exact h.holding

end

/-- A backslash which was read may still be written in front of the next character. -/
def lag : ParserState → Nat
  | .blank => 0
  | .text => 0
  | .quote => 0
  | .escape => 1
  | .quoteEscape => 1

/-- So many characters were read, and the parser has found the items and the part of a word. -/
structure Tracks (line : Bytes) (n maxArgs read : Nat) (t : Scan) (start : Nat) (p : Parser) :
    Prop where
  sound : Sound line n p
  holding : Holding t.items start t.word p
  state : p.state = t.state
  arg : t.state ≠ .blank → p.args.cell p.count = some start ∧ p.count < maxArgs
  empty : t.state = .blank → t.word = []
  behind : p.dst + lag t.state ≤ read

/-- The step does not end the loop, and the character at the source pointer was consumed. -/
def GoesOn (line : Bytes) (n maxArgs : Nat) (t : Scan) (src : Nat) (r : Option Nat) (p : Parser) :
    Prop :=
  r = none ∧ p.src = src ∧ ∃ start, Tracks line n maxArgs (src + 1) t start p

section

variable {line w : Bytes} {n maxArgs start : Nat} {t : Scan} {p : Parser} {c : UInt8}

/-- What was read of a word leaves the state of the scanner to be set. -/
theorem Grown.goesOn {p' : Parser} (t' : Scan) (h : Grown line n t'.items start t'.word p p')
    (hstate : p'.state = t'.state) (hblank : t'.state ≠ .blank)
    (harg : p.args.cell p.count = some start ∧ p.count < maxArgs)
    (hdst : p'.dst + lag t'.state ≤ p.src + 1) : GoesOn line n maxArgs t' p.src none p' := by
  refine ⟨rfl, h.src, start, h.sound, h.holding, hstate, fun _ => ?_,
    fun hb => (hblank hb).elim, hdst⟩
  rw [h.args, h.count]
  exact harg

theorem length_unescape_le (c : UInt8) : (unescape c).length ≤ 2 := by
  rw [unescape]
  split_ifs <;> simp

theorem escapeStep_yields (h : Tracks line n maxArgs p.src t start p) (state : ParserState)
    (hlag : lag t.state = 1) (hblank : t.state ≠ .blank) (hstate : state = .text ∨ state = .quote) :
    Yields never (escapeStep state) p
      (GoesOn line n maxArgs
        { t with state := state, word := t.word ++ unescape (p.str.cell p.src) } p.src) := by
  have hdst : p.dst < p.src := by
    have hbehind := h.behind
    rw [hlag] at hbehind
    exact hbehind
  rw [escapeStep]
  refine (unescapeByte_yields h.sound h.holding hdst).bind fun _ p' hp' => ?_
  refine yields_modify_bind (yields_pure ?_)
  apply Grown.goesOn { t with state := state, word := t.word ++ unescape _ }
    (hp'.setState state) rfl
  · rcases hstate with rfl | rfl <;> simp
  · exact h.arg hblank
  · have hlength := length_unescape_le (p.str.cell p.src)
    have hdst' := hp'.holding.dst
    have hdst := h.holding.dst
    rw [List.length_append] at hdst'
    rcases hstate with rfl | rfl
    · change p'.dst + 0 ≤ _
      omega
    · change p'.dst + 0 ≤ _
      omega

/-- A backslash is not copied before it is clear what follows. -/
theorem goesOn_backslash (hs : Sound line n p) (hh : Holding t.items start t.word p)
    (hdst : p.dst ≤ p.src)
    (harg : p.args.cell p.count = some start ∧ p.count < maxArgs) (state : ParserState)
    (hstate : state = .escape ∨ state = .quoteEscape) :
    GoesOn line n maxArgs { t with state := state } p.src none { p with state := state } := by
  have hgrown : Grown line n t.items start t.word p p := ⟨hs, hh, rfl, rfl, rfl⟩
  apply Grown.goesOn { t with state := state } (hgrown.setState state) rfl
  · rcases hstate with rfl | rfl <;> simp
  · exact harg
  · rcases hstate with rfl | rfl <;> exact Nat.succ_le_succ hdst

theorem goesOn_copied {p' : Parser} (hp' : Grown line n t.items start (t.word ++ [c]) p p')
    (hholding : Holding t.items start t.word p) (hdst : p.dst ≤ p.src)
    (harg : p.args.cell p.count = some start ∧ p.count < maxArgs) {state : ParserState}
    (hstate : p'.state = state) (htext : state = .quote ∨ state = .text) :
    GoesOn line n maxArgs { t with state := state, word := t.word ++ [c] } p.src none p' := by
  apply Grown.goesOn { t with state := state, word := t.word ++ [c] } hp' hstate
  · rcases htext with rfl | rfl <;> simp
  · exact harg
  · have hdst' := hp'.holding.dst
    have hdst'' := hholding.dst
    rw [List.length_append, List.length_singleton] at hdst'
    rcases htext with rfl | rfl
    · change p'.dst + 0 ≤ _
      omega
    · change p'.dst + 0 ≤ _
      omega

theorem quoteStep_yields (h : Tracks line n maxArgs p.src t start p) (hstate : t.state = .quote) :
    Yields never quoteStep p (GoesOn line n maxArgs (t.next (p.str.cell p.src)) p.src) := by
  have hblank : t.state ≠ .blank := by simp [hstate]
  have hdst : p.dst ≤ p.src := (Nat.le_add_right _ _).trans h.behind
  rw [quoteStep, Scan.next, hstate]
  refine yields_ok_bind (current_apply h.sound.inside)
    (yields_ite (fun hback => ?_) fun hback => ?_)
  · simp only [if_pos hback]
    exact yields_modify_bind
      (yields_pure (goesOn_backslash h.sound.read h.holding.read hdst (h.arg hblank) _
      (Or.inr rfl)))
  · simp only [if_neg hback]
    refine (copyByte_yields h.sound.read h.holding.read hdst).bind fun _ p' hp' => ?_
    obtain ⟨hgrown, -, hcell⟩ := hp'
    refine yields_ok_bind (current_apply hgrown.sound.inside) (yields_modify_bind (yields_pure ?_))
    apply goesOn_copied (hgrown.of_read.read.setState _) h.holding hdst (h.arg hblank)
    · rw [hcell]
      rfl
    · split_ifs <;> simp

/-- The first character of a word, or one which goes on with it. -/
theorem copyStep_yields (hs : Sound line n p) (hh : Holding t.items start t.word p)
    (hdst : p.dst ≤ p.src)
    (harg : p.args.cell p.count = some start ∧ p.count < maxArgs) (state : ParserState)
    (htext : state = .quote ∨ state = .text) :
    Yields never (do
      setState state
      copyByte
      return none) p
      (GoesOn line n maxArgs { t with state := state, word := t.word ++ [p.str.cell p.src] }
        p.src) := by
  refine yields_modify_bind ?_
  refine (copyByte_yields (hs.setState state) (hh.setState state) hdst).bind fun _ p' hp' => ?_
  obtain ⟨hgrown, hstate, -⟩ := hp'
  have hcopied : Grown line n t.items start (t.word ++ [p.str.cell p.src]) p p' :=
    ⟨hgrown.sound, hgrown.holding, hgrown.src, hgrown.args, hgrown.count⟩
  exact yields_pure (goesOn_copied hcopied hh hdst harg hstate htext)

/-- A pipe is stored as a null pointer. -/
theorem Holding.pipe {its : List Item} (h : Holding its start [] p) {item : Item}
    (hitem : content item = none) :
    Holding (its ++ [item]) start [] { p.setArg p.count none with count := p.count + 1 } where
  count := by
    rw [List.length_append, ← h.count]
    rfl
  placed := by
    refine .pipe h.setArg.placed hitem ?_
    rw [← h.count]
    exact Function.update_self ..
  slice := rfl
  dst := h.dst

theorem addPipe_apply (h : p.count < p.args.length) :
    addPipe p = .ok ((), { p.setArg p.count none with count := p.count + 1 }) := by
  rw [addPipe, bind_apply, setArg_apply h]
  rfl

/-- Between the words. -/
theorem goesOn_blank {src : Nat} (t' : Scan) (hs : Sound line n p)
    (hh : Holding t'.items start [] p)
    (hsrc : p.src = src) (hstate : p.state = .blank) (ht : t'.state = .blank) (hword : t'.word = [])
    (hdst : p.dst ≤ src + 1) : GoesOn line n maxArgs t' src none p := by
  refine ⟨rfl, hsrc, start, hs, ?_, hstate.trans ht.symm, fun hb => (hb ht).elim,
    fun _ => hword, ?_⟩
  · rw [hword]
    exact hh
  · rw [ht]
    exact hdst

theorem endPipe_yields {its : List Item} (hs : Sound line n p) (hh : Holding its start [] p)
    (hcount : p.count ≤ maxArgs) (hn : maxArgs < n) (hdst : p.dst ≤ p.src + 1) (isPipe : Bool) :
    Yields never (endPipe maxArgs isPipe) p
      (GoesOn line n maxArgs { items := its ++ if isPipe then [.joinedPipe] else [] } p.src) := by
  rw [endPipe]
  apply yields_get_bind
  cases isPipe with
  | true =>
      simp only [if_true, if_neg hcount.not_gt]
      have hpointers : p.count < p.args.length := by
        rw [hs.pointers]
        exact hcount.trans_lt hn
      refine yields_ok_bind (addPipe_apply hpointers) (yields_modify_bind (yields_pure ?_))
      exact goesOn_blank _ ((hs.setArg.setCount _).setState .blank) ((hh.pipe rfl).setState .blank)
        rfl rfl rfl rfl hdst
  | false =>
      have hkept : Holding (its ++ []) start [] p := by rwa [List.append_nil]
      refine yields_modify_bind (yields_pure ?_)
      exact goesOn_blank _ (hs.setState .blank) (hkept.setState .blank) rfl rfl rfl rfl hdst

theorem closeWord_eq {its : List Item} (hs : Sound line n p) (hh : Holding its start w p)
    (hdst : p.dst ≤ p.src)
    (harg : p.args.cell p.count = some start) (hcount : p.count < n) :
    closeWord p = .ok ((), p.closed start) := by
  apply closeWord_apply _ harg
  · exact (Nat.le_add_right _ _).trans hh.dst.ge
  · exact hdst.trans_lt hs.inside
  · exact hcount.trans_le hs.pointers.ge

theorem textStep_yields (h : Tracks line n maxArgs p.src t start p) (hn : maxArgs < n)
    (hstate : t.state = .text) :
    Yields never (textStep maxArgs) p
    (GoesOn line n maxArgs (t.next (p.str.cell p.src)) p.src) := by
  have hblank : t.state ≠ .blank := by simp [hstate]
  have hdst : p.dst ≤ p.src := (Nat.le_add_right _ _).trans h.behind
  obtain ⟨harg, hcount⟩ := h.arg hblank
  rw [textStep, Scan.next, hstate]
  refine yields_ok_bind (current_apply h.sound.inside) (yields_ite (fun hend => ?_) fun hend => ?_)
  · have hclose := closeWord_eq h.sound.read h.holding.read hdst harg (hcount.trans hn)
    have hclosed := h.holding.read.closed harg
    simp only [if_pos hend]
    refine yields_ok_bind hclose ?_
    have hsrc : (p.read.closed start).src = p.src := closed_src p.read start
    have hbehind : (p.read.closed start).dst ≤ (p.read.closed start).src + 1 := by
      rw [hclosed.dst, hsrc]
      exact Nat.succ_le_succ hdst
    have hnext := endPipe_yields (h.sound.read.closed hdst) hclosed hcount hn hbehind
      (p.str.cell p.src == PIPE)
    rw [hsrc] at hnext
    simpa using hnext
  · simp only [if_neg hend]
    refine yields_ite (fun hback => ?_) fun hback => ?_
    · simp only [if_pos hback]
      exact yields_modify_bind
        (yields_pure (goesOn_backslash h.sound.read h.holding.read hdst (h.arg hblank) _
        (Or.inl rfl)))
    · simp only [if_neg hback]
      refine copyStep_yields h.sound.read h.holding.read hdst (h.arg hblank) _ ?_
      split_ifs <;> simp

/-- There is room for an item which starts behind a space, or it is the limit. -/
theorem blankStep_yields (h : Tracks line n maxArgs p.src t start p) (hn : maxArgs < n)
    (hstate : t.state = .blank)
    (hlimit : ¬(isspace (p.str.cell p.src) = false ∧ maxArgs ≤ t.items.length)) :
    Yields never (blankStep maxArgs) p
    (GoesOn line n maxArgs (t.next (p.str.cell p.src)) p.src) := by
  have hword : t.word = [] := h.empty hstate
  have hdst : p.dst ≤ p.src := (Nat.le_add_right _ _).trans h.behind
  have hholding : Holding t.items start [] p := by
    rw [← hword]
    exact h.holding
  rw [blankStep, Scan.next, hstate]
  refine yields_ok_bind (current_apply h.sound.inside)
    (yields_get_bind (yields_ite (fun hspace => ?_) fun hspace => ?_))
  · simp only [if_pos hspace]
    exact yields_pure
      (goesOn_blank t h.sound.read hholding.read rfl (h.state.trans hstate) hstate hword
      (Nat.le_succ_of_le hdst))
  · simp only [if_neg hspace]
    have hcount : p.count < maxArgs := by
      rw [h.holding.count]
      exact lt_of_not_ge fun hge => hlimit ⟨by simpa using hspace, hge⟩
    have hpointers : p.count < p.args.length := by
      rw [h.sound.pointers]
      exact hcount.trans hn
    refine yields_ite (fun hge => (hge.not_gt hcount).elim) fun _ => yields_ite (fun hpipe => ?_)
      fun hpipe => ?_
    · simp only [if_pos hpipe]
      refine yields_ok_bind (addPipe_apply (p := p.read) hpointers) (yields_pure ?_)
      exact goesOn_blank _ (h.sound.read.setArg.setCount _) (hholding.read.pipe rfl) rfl
        (h.state.trans hstate) rfl hword (Nat.le_succ_of_le hdst)
    · simp only [if_neg hpipe]
      obtain rfl : start = p.dst := hholding.dst.symm
      have harg : (p.read.setArg p.count (some p.dst)).args.cell p.count = some p.dst ∧
        p.count < maxArgs :=
        ⟨Function.update_self .., hcount⟩
      refine yields_ok_bind (setArg_apply (p := p.read) hpointers) ?_
      refine yields_ite (fun hback => ?_) fun hback => ?_
      · simp only [if_pos hback]
        exact yields_modify_bind (yields_pure
          (goesOn_backslash h.sound.read.setArg h.holding.read.setArg hdst harg _ (Or.inl rfl)))
      · simp only [if_neg hback]
        have hcopy := copyStep_yields h.sound.read.setArg h.holding.read.setArg hdst harg
          (if p.str.cell p.src = QUOTE then .quote else .text) (by split_ifs <;> simp)
        rw [hword] at hcopy
        exact hcopy

/-- No item starts at the limit. -/
theorem blankStep_limit (h : Tracks line n maxArgs p.src t start p)
    (hspace : isspace (p.str.cell p.src) = false)
    (hlimit : maxArgs ≤ t.items.length) : blankStep maxArgs p =
      .ok (some t.items.length, p.read) := by
  have hcount : p.read.count ≥ maxArgs := by
    rw [← h.holding.count] at hlimit
    exact hlimit
  rw [blankStep, bind_apply, current_apply h.sound.inside]
  simp only
  rw [bind_apply, get_apply]
  simp only [hspace, Bool.false_eq_true, if_false, if_pos hcount]
  rw [← h.holding.count]
  rfl

theorem step_yields (h : Tracks line n maxArgs p.src t start p) (hn : maxArgs < n)
    (hlimit : ¬(t.state = .blank ∧ isspace (p.str.cell p.src) = false ∧ maxArgs ≤ t.items.length)) :
    Yields never (step maxArgs) p (GoesOn line n maxArgs (t.next (p.str.cell p.src)) p.src) := by
  have hescape : ∀ state, lag t.state = 1 → t.state ≠ .blank → state = .text ∨ state = .quote →
      Yields never (escapeStep state) p (GoesOn line n maxArgs
        { t with state := state, word := t.word ++ unescape (p.str.cell p.src) } p.src) :=
    fun state => escapeStep_yields h state
  rw [step]
  apply yields_get_bind
  rw [h.state]
  cases hstate : t.state with
  | blank => exact blankStep_yields h hn hstate fun hreached => hlimit ⟨hstate, hreached⟩
  | text => exact textStep_yields h hn hstate
  | quote => exact quoteStep_yields h hstate
  | escape =>
      rw [Scan.next, hstate]
      rw [hstate] at hescape
      exact hescape .text rfl (by simp) (Or.inl rfl)
  | quoteEscape =>
      rw [Scan.next, hstate]
      rw [hstate] at hescape
      exact hescape .quote rfl (by simp) (Or.inr rfl)

/-- All of the items are in the array, and the words inside of the line. -/
def Parsed (line : Bytes) (n : Nat) (its : List Item) (count : Nat) (p : Parser) : Prop :=
  count = its.length ∧ Sound line n p ∧ ∃ hi, hi ≤ line.length + 1 ∧ Placed p.str p.args its hi

/-- A word is left without its terminator. -/
theorem finishWord_yields (h : Tracks line n maxArgs p.src t start p) (hn : maxArgs < n)
    (hblank : t.state ≠ .blank) :
    Yields never (do
      closeWord
      return (← get).count) p (Parsed line n (t.items ++ [.word (unquote t.word)])) := by
  have hdst : p.dst ≤ p.src := (Nat.le_add_right _ _).trans h.behind
  obtain ⟨harg, hcount⟩ := h.arg hblank
  have hclosed := h.holding.closed harg
  refine yields_ok_bind (closeWord_eq h.sound h.holding hdst harg (hcount.trans hn))
    (yields_get_bind (yields_pure ?_))
  exact ⟨hclosed.count, h.sound.closed hdst, _, Nat.succ_le_succ (hdst.trans h.sound.src),
    hclosed.placed⟩

/-- The backslash takes its own place, and the terminator the one behind it. -/
theorem finishEscape_yields (h : Tracks line n maxArgs p.src t start p) (hlag : lag t.state = 1)
    (hblank : t.state ≠ .blank) :
    Yields never (do
      closeEscape
      return (← get).count) p (Parsed line n (t.items ++ [.word (t.word ++ [BACKSLASH])])) := by
  have hdst : p.dst < p.src := by
    have hbehind := h.behind
    rw [hlag] at hbehind
    exact hbehind
  have hgrown : Grown line n t.items start (t.word ++ [BACKSLASH]) p (p.emitted BACKSLASH) :=
    grown_emitted h.sound h.holding hdst.le
  have hclose : closeEscape p =
      .ok ((), { (p.emitted BACKSLASH).emitted 0 with count := p.count + 1 }) := by
    have hroom : (p.emitted BACKSLASH).dst < (p.emitted BACKSLASH).str.length :=
      lt_of_le_of_lt hdst hgrown.sound.inside
    rw [closeEscape, bind_apply, emit_apply (hdst.trans h.sound.inside)]
    simp only
    rw [bind_apply, emit_apply hroom]
    rfl
  refine yields_ok_bind hclose
    (yields_get_bind (yields_pure ⟨?_, ?_, _, ?_, hgrown.holding.terminated (h.arg hblank).1⟩))
  · rw [List.length_append, ← h.holding.count]
    rfl
  · exact (hgrown.sound.emitted hdst).setCount _
  · exact Nat.succ_le_succ (lt_of_lt_of_le hdst h.sound.src)

theorem finish_yields (h : Tracks line n maxArgs p.src t start p) (hn : maxArgs < n) :
    Yields never finish p (Parsed line n t.finish) := by
  rw [finish]
  apply yields_get_bind
  rw [h.state, Scan.finish]
  cases hstate : t.state with
  | blank =>
      have hdst := h.holding.dst
      have hbehind := h.behind
      have hsrc := h.sound.src
      exact yields_get_bind
        (yields_pure ⟨h.holding.count, h.sound, start, by omega, h.holding.placed⟩)
  | text => exact finishWord_yields h hn (by simp [hstate])
  | quote => exact finishWord_yields h hn (by simp [hstate])
  | escape => exact finishEscape_yields h (by rw [hstate]; rfl) (by simp [hstate])
  | quoteEscape => exact finishEscape_yields h (by rw [hstate]; rfl) (by simp [hstate])

/-- The next character is read for the test of the loop. -/
theorem Tracks.next (h : Tracks line n maxArgs (p.src + 1) t start p) (hsrc : p.src < line.length) :
    Tracks line n maxArgs (p.src + 1) t start (Parser.read { p with src := p.src + 1 }) :=
  ⟨h.sound.next hsrc, (h.holding.next _).read, h.state, h.arg, h.empty, h.behind⟩

/-- One round of the loop, with what follows after the test for the end of the line. -/
theorem parseLoop_round {rounds : Nat} {Q : Nat → Parser → Prop} (hn : maxArgs < n)
    (h : Tracks line n maxArgs p.src t start p) (hsrc : p.src < line.length)
    (hlimit : ¬(t.state = .blank ∧ isspace (p.str.cell p.src) = false ∧ maxArgs ≤ t.items.length))
    (hnext : ∀ start p', Tracks line n maxArgs p'.src (t.next (p.str.cell p.src)) start p' →
      p'.src = p.src + 1 → p'.str.cell p'.src = line.getD p'.src 0 →
      Yields never (if line.getD p'.src 0 ≠ 0 then parseLoop maxArgs rounds else finish) p' Q) :
    Yields never (parseLoop maxArgs (rounds + 1)) p Q := by
  rw [parseLoop]
  refine (step_yields h hn hlimit).bind fun r p' hp' => ?_
  obtain ⟨rfl, hp', start, htracks⟩ := hp'
  have hread := Tracks.next (p := p') (by rw [hp']; exact htracks) (by rw [hp']; exact hsrc)
  have hcell : p'.str.cell (p'.src + 1) = line.getD (p'.src + 1) 0 :=
    htracks.sound.unread _ (Nat.lt_succ_self _)
  refine yields_modify_bind (yields_ok_bind (current_apply hread.sound.inside) ?_)
  have hrest := hnext start (Parser.read { p' with src := p'.src + 1 }) hread
    (congrArg (· + 1) hp') hcell
  change Yields never (if p'.str.cell (p'.src + 1) ≠ 0 then _ else _) _ _
  rw [hcell]
  exact hrest

theorem parseLoop_limit (h : Tracks line n maxArgs p.src t start p) (rounds : Nat)
    (hlimit : t.state = .blank ∧ isspace (p.str.cell p.src) = false ∧ maxArgs ≤ t.items.length) :
    Yields never (parseLoop maxArgs (rounds + 1)) p (Parsed line n t.items) := by
  have hstep : step maxArgs p = .ok (some t.items.length, p.read) := by
    rw [step, bind_apply, get_apply]
    simp only [h.state, hlimit.1]
    exact blankStep_limit h hlimit.2.1 hlimit.2.2
  have hdst := h.holding.dst
  have hbehind := h.behind
  have hsrc := h.sound.src
  rw [parseLoop]
  exact yields_ok_bind hstep (yields_pure ⟨rfl, h.sound.read, start, by omega, h.holding.placed⟩)

theorem of_drop_eq_cons {k : Nat} {rest : Bytes} (h : line.drop k = c :: rest) :
    k < line.length ∧ line.getD k 0 = c ∧ line.drop (k + 1) = rest := by
  have hlength := congrArg List.length h
  have hhead := congrArg List.head? h
  have htail := congrArg List.tail h
  rw [List.length_drop, List.length_cons] at hlength
  rw [List.head?_drop] at hhead
  rw [List.tail_drop] at htail
  refine ⟨by omega, ?_, htail⟩
  rw [List.getD_eq_getElem?_getD, hhead]
  rfl

/-- The loop goes through the rest of the line like the scanner with its limit. -/
theorem parseLoop_yields {rest : Bytes} {rounds : Nat} (hn : maxArgs < n)
    (h : Tracks line n maxArgs p.src t start p) (hrest : line.drop p.src = c :: rest)
    (hcell : p.str.cell p.src = c)
    (hzero : 0 ∉ line) (hrounds : rest.length < rounds) :
    Yields never (parseLoop maxArgs rounds) p (Parsed line n (t.limited maxArgs (c :: rest))) := by
  obtain ⟨rounds, rfl⟩ := Nat.exists_eq_add_one.mpr (Nat.zero_lt_of_lt hrounds)
  induction rest generalizing p t start c rounds with
  | nil =>
      obtain ⟨hsrc, -, hdrop⟩ := of_drop_eq_cons hrest
      rw [Scan.limited]
      split_ifs with hlimit
      · rw [← hcell] at hlimit
        exact parseLoop_limit h rounds hlimit
      · rw [← hcell] at hlimit ⊢
        refine parseLoop_round hn h hsrc hlimit fun start p' h' hsrc' _ => ?_
        have hend : line.getD p'.src 0 = 0 := by
          rw [hsrc']
          exact List.getD_eq_default _ _ (List.drop_eq_nil_iff.mp hdrop)
        rw [hend, if_neg (by simp)]
        exact finish_yields h' hn
  | cons d rest ih =>
      obtain ⟨hsrc, -, hdrop⟩ := of_drop_eq_cons hrest
      obtain ⟨-, hd, -⟩ := of_drop_eq_cons hdrop
      rw [Scan.limited]
      split_ifs with hlimit
      · rw [← hcell] at hlimit
        exact parseLoop_limit h rounds hlimit
      · rw [← hcell] at hlimit ⊢
        refine parseLoop_round hn h hsrc hlimit fun start p' h' hsrc' hcell' => ?_
        rw [← hsrc'] at hd hdrop
        have hmem : d ∈ line := List.mem_of_mem_drop (hdrop ▸ List.mem_cons_self)
        have hrounds' : rest.length < rounds := Nat.lt_of_succ_lt_succ hrounds
        obtain ⟨rounds, rfl⟩ := Nat.exists_eq_add_one.mpr (Nat.zero_lt_of_lt hrounds')
        rw [hd] at hcell' ⊢
        rw [if_pos (ne_of_mem_of_not_mem hmem hzero)]
        exact ih h' hdrop hcell' rounds hrounds'

theorem sound_given (line : Bytes) (args : Block (Option Nat)) :
    Sound line args.length (given line args).read where
  length := rfl
  pointers := rfl
  src := Nat.zero_le _
  unread _ _ := rfl
  reads i hi := by
    rw [Nat.le_zero.mp hi]
    exact List.mem_singleton_self _
  safe := (safe_nil _).snoc (by simp) (by simp)

/-- The parser finds the items of the line, up to the limit. -/
theorem shellParseArgs_yields (hzero : 0 ∉ line) (args : Block (Option Nat))
    (hargs : maxArgs < args.length) :
    Yields never (shellParseArgs maxArgs) (given line args)
      (Parsed line args.length (Scan.limited maxArgs {} line)) := by
  have hsound := sound_given line args
  rw [shellParseArgs]
  refine yields_ok_bind (current_apply (Nat.zero_lt_succ _)) ?_
  cases line with
  | nil => exact yields_pure ⟨rfl, hsound, 0, Nat.zero_le _, .nil⟩
  | cons c rest =>
      have hc : c ≠ 0 := ne_of_mem_of_not_mem List.mem_cons_self hzero
      have htracks : Tracks (c :: rest) args.length maxArgs 0 {} 0 (given (c :: rest) args).read :=
        ⟨hsound, ⟨rfl, .nil, rfl, rfl⟩, rfl, by simp, fun _ => rfl, le_rfl⟩
      change Yields never (if c = 0 then _ else _) _ _
      rw [if_neg hc]
      apply yields_get_bind
      apply parseLoop_yields hargs htracks rfl rfl hzero
      exact Nat.lt_add_of_pos_right Nat.two_pos

end

section

/-! What the caller finds in the array. -/

variable {str : Block UInt8} {args : Block (Option Nat)} {line w : Bytes} {its : List Item}
  {n i j a b hi count : Nat} {p : Parser} {item : Item}

theorem getElem?_concat {x : Item} (h : (its ++ [x])[i]? = some item) :
    its[i]? = some item ∧ i < its.length ∨ i = its.length ∧ x = item := by
  by_cases hlt : i < its.length
  · rw [List.getElem?_append_left hlt] at h
    exact Or.inl ⟨h, hlt⟩
  · obtain ⟨hi, -⟩ := List.getElem?_eq_some_iff.mp h
    rw [List.length_append, List.length_singleton] at hi
    obtain rfl : i = its.length := by omega
    rw [List.getElem?_concat_length] at h
    exact Or.inr ⟨rfl, Option.some.inj h⟩

/-- The argument of an item is its word, or a null pointer. -/
theorem Placed.get (h : Placed str args its hi) (hitem : its[i]? = some item) :
    content item = none ∧ args.cell i = none ∨
      ∃ w a, item = .word w ∧ args.cell i = some a ∧ Holds str a w ∧ a + w.length < hi := by
  induction h with
  | nil => simp at hitem
  | @word items w lo a hi h harg hlo hword hhi ih =>
      rcases getElem?_concat hitem with ⟨hitem, -⟩ | ⟨rfl, rfl⟩
      · refine (ih hitem).imp_right ?_
        rintro ⟨v, b, hv, hb, hholds, hlt⟩
        exact ⟨v, b, hv, hb, hholds, by omega⟩
      · exact Or.inr ⟨w, a, rfl, harg, hword, hhi⟩
  | pipe h hnone harg ih =>
      rcases getElem?_concat hitem with ⟨hitem, -⟩ | ⟨rfl, rfl⟩
      · exact ih hitem
      · exact Or.inl ⟨hnone, harg⟩

/-- A word ends before the next one starts. -/
theorem Placed.ordered (h : Placed str args its hi) (hij : i < j) (hj : j < its.length)
    (ha : its[i]? = some (.word w)) (hargi : args.cell i = some a) (hargj : args.cell j = some b) :
    a + w.length < b := by
  induction h with
  | nil => simp at hj
  | @word items v lo b' hi h harg hlo hword hhi ih =>
      rw [List.length_append, List.length_singleton] at hj
      rcases getElem?_concat ha with ⟨hitem, hi⟩ | ⟨hi, -⟩
      · rcases Nat.lt_succ_iff_lt_or_eq.mp hj with hj | rfl
        · exact ih hj hitem
        · rw [harg] at hargj
          rcases h.get hitem with ⟨hnone, -⟩ | ⟨u, a', hu, ha', -, hlt⟩
          · simp [content] at hnone
          · obtain rfl : w = u := Item.word.inj hu
            obtain rfl : a = a' := Option.some.inj (hargi.symm.trans ha')
            obtain rfl : b' = b := Option.some.inj hargj
            exact hlt.trans_le hlo
      · omega
  | pipe h hnone harg ih =>
      rw [List.length_append, List.length_singleton] at hj
      rcases getElem?_concat ha with ⟨hitem, hi⟩ | ⟨hi, -⟩
      · rcases Nat.lt_succ_iff_lt_or_eq.mp hj with hj | rfl
        · exact ih hj hitem
        · rw [harg] at hargj
          simp at hargj
      · omega

theorem stringAt_eq (h : Holds p.str a w) (hw : 0 ∉ w) (hinside : a + w.length < p.str.length) :
    p.stringAt a = w := by
  have hsplit : p.str.length - a = w.length + (p.str.length - (a + w.length + 1) + 1) := by omega
  rw [Parser.stringAt, hsplit, slice_add, slice_succ, h.1, h.2, cstring,
    List.takeWhile_append_of_pos fun c hc => decide_eq_true (ne_of_mem_of_not_mem hc hw)]
  simp

/-- The arguments are what the array holds of the items. -/
theorem Parsed.argument (h : Parsed line n its count p) (hclean : ∀ w, .word w ∈ its → 0 ∉ w)
    (hitem : its[i]? = some item) : p.argument i = content item := by
  obtain ⟨-, hs, hi, hle, hplaced⟩ := h
  rw [Parser.argument]
  rcases hplaced.get hitem with ⟨hnone, harg⟩ | ⟨w, a, rfl, harg, hholds, hlt⟩
  · rw [harg, hnone]
    rfl
  · have hw : 0 ∉ w := hclean w (List.mem_of_getElem? hitem)
    have hinside : a + w.length < p.str.length := by
      rw [hs.length]
      exact hlt.trans_le hle
    rw [harg, Option.map_some, stringAt_eq hholds hw hinside]
    rfl

theorem Parsed.arguments (h : Parsed line n its count p) (hclean : ∀ w, .word w ∈ its → 0 ∉ w) :
    (List.range its.length).map p.argument = its.map content := by
  apply List.ext_getElem?
  intro i
  rw [List.getElem?_map, List.getElem?_map]
  by_cases hi : i < its.length
  · rw [List.getElem?_range hi, List.getElem?_eq_getElem hi, Option.map_some, Option.map_some,
      h.argument hclean (List.getElem?_eq_getElem hi)]
  · rw [List.getElem?_eq_none (by simpa using hi), List.getElem?_eq_none (by simpa using hi)]
    rfl

/-- The strings are nullterminated inside of the line, one behind the other. -/
structure Separate (length count : Nat) (p : Parser) : Prop where
  inside : ∀ i a, i < count → p.args.cell i = some a →
    a + (p.stringAt a).length < length ∧ p.str.cell (a + (p.stringAt a).length) = 0
  ordered : ∀ i j a b, i < j → j < count → p.args.cell i = some a → p.args.cell j = some b →
    a + (p.stringAt a).length < b

theorem Parsed.separate (h : Parsed line n its count p) (hclean : ∀ w, .word w ∈ its → 0 ∉ w) :
    Separate (line.length + 1) count p := by
  obtain ⟨rfl, hs, hi, hle, hplaced⟩ := h
  have hstring : ∀ i a, i < its.length → p.args.cell i = some a →
    its[i]? = some (.word (p.stringAt a)) ∧
      Holds p.str a (p.stringAt a) ∧ a + (p.stringAt a).length < line.length + 1 := by
    intro i a hlt harg
    rcases hplaced.get
      (List.getElem?_eq_getElem hlt) with ⟨-, hnone⟩ | ⟨w, b, hword, hb, hholds, hlt'⟩
    · rw [hnone] at harg
      cases harg
    · obtain rfl : a = b := Option.some.inj (harg.symm.trans hb)
      have hw : 0 ∉ w := hclean w (hword ▸ List.getElem_mem hlt)
      have hinside : a + w.length < p.str.length := by
        rw [hs.length]
        exact hlt'.trans_le hle
      rw [stringAt_eq hholds hw hinside]
      exact ⟨hword ▸ List.getElem?_eq_getElem hlt, hholds, hlt'.trans_le hle⟩
  constructor
  · intro i a hlt harg
    exact ⟨(hstring i a hlt harg).2.2, (hstring i a hlt harg).2.1.2⟩
  · intro i j a b hij hj hargi hargj
    exact hplaced.ordered hij hj (hstring i a (hij.trans hj) hargi).1 hargi hargj

end

section

variable {line : Bytes} {ws : List Bytes} {maxArgs : Nat} {args : Block (Option Nat)}

theorem shellParseArgs_run (hzero : 0 ∉ line) (args : Block (Option Nat))
    (hargs : maxArgs < args.length) :
    ∃ p, shellParseArgs maxArgs (given line args) = .ok ((Scan.limited maxArgs {} line).length, p) ∧
      Parsed line args.length (Scan.limited maxArgs {} line)
        (Scan.limited maxArgs {} line).length p := by
  have hparse := shellParseArgs_yields hzero args hargs
  rcases hrun : shellParseArgs maxArgs (given line args) with e | ⟨count, p⟩
  · exact (hparse.of_error hrun).elim
  · obtain ⟨rfl, hparsed⟩ := hparse.of_ok hrun
    exact ⟨p, rfl, rfl, hparsed⟩

/-- Unescaping in place stays behind the characters which are read, and the words do not overlap. -/
theorem unescaping_safe (hzero : 0 ∉ line) (hargs : maxArgs < args.length) :
    ∃ count p, shellParseArgs maxArgs (given line args) = .ok (count, p) ∧
      Safe (line.length + 1) p.trace ∧
      p.str.length = line.length + 1 ∧ Separate (line.length + 1) count p := by
  obtain ⟨p, hrun, hparsed⟩ := shellParseArgs_run hzero args hargs
  have hsound : Sound line args.length p := hparsed.2.1
  exact ⟨_, p, hrun, hsound.safe, hsound.length,
    hparsed.separate (limited_items_clean hzero maxArgs)⟩

/-- A word with an escaped blank. -/
theorem unescaping_safe_blank :
    ∃ count p, shellParseArgs 1 (given [97, 92, 32, 98] ⟨2, fun _ => none⟩) = .ok (count, p) ∧
      Safe 5 p.trace ∧ p.str.length = 5 ∧ Separate 5 count p :=
  unescaping_safe (by decide) (by decide)

/-- The parser has room in all but the last entry of the array, and the caller in all of them. -/
def Fits (line : Bytes) (maxArgs : Nat) (args : Nat → Option Nat) : Prop :=
  (∃ count p, shellParseArgs maxArgs (given line ⟨maxArgs + 1, args⟩) = .ok (count, p) ∧
    count ≤ maxArgs) ∧
    ∃ count p, shellArgs maxArgs (given line ⟨maxArgs + 2, args⟩) = .ok (count, p)

/-- The caller stores two more pointers behind the arguments. -/
theorem shellArgs_run {q p : Parser} {count : Nat}
    (hrun : shellParseArgs maxArgs q = .ok (count, p))
    (hroom : count + 1 < p.args.length) : ∃ p', shellArgs maxArgs q = .ok (count, p') := by
  have hnext : count + 1 < (p.setArg count none).args.length := hroom
  rw [shellArgs, bind_apply, hrun]
  simp only
  by_cases hcount : count ≤ 0
  · rw [if_pos hcount]
    exact ⟨p, rfl⟩
  · rw [if_neg hcount, bind_apply, storeArg_apply (Nat.lt_of_succ_lt hroom)]
    simp only
    rw [bind_apply, storeArg_apply hnext]
    exact ⟨_, rfl⟩

/-- The limit is passed if a pipe follows the last word without a space between them. -/
theorem arguments_fit (hzero : 0 ∉ line) (args : Nat → Option Nat) :
    Fits line maxArgs args ↔ (items line)[maxArgs]? ≠ some .joinedPipe := by
  obtain ⟨p, hrun, -⟩ := shellParseArgs_run hzero ⟨maxArgs + 1, args⟩ (Nat.lt_succ_self maxArgs)
  rw [← limited_items_le_iff]
  constructor
  · rintro ⟨⟨count, p', hrun', hle⟩, -⟩
    rw [hrun] at hrun'
    cases hrun'
    exact hle
  · intro hle
    obtain ⟨p', hrun', -, hsound, -⟩ :=
      shellParseArgs_run hzero ⟨maxArgs + 2, args⟩ (Nat.lt_add_of_pos_right Nat.two_pos)
    refine ⟨⟨_, p, hrun, hle⟩, _, shellArgs_run hrun' ?_⟩
    rw [hsound.pointers]
    exact Nat.succ_lt_succ (Nat.lt_succ_of_le hle)

/-- A word and a pipe behind it. -/
theorem arguments_fit_room : Fits [97, 124] 2 fun _ => none :=
  (arguments_fit (by decide) _).mpr (by decide)

/-- The pipe is the second argument, and the limit was one. -/
theorem arguments_overflow : ¬Fits [97, 124] 1 fun _ => none := by
  have hrun : (shellParseArgs 1 (given [97, 124] ⟨2, fun _ => none⟩)).map Prod.fst = .ok 2 := rfl
  rintro ⟨⟨count, p, hrun', hle⟩, -⟩
  rw [hrun', Except.map, Except.ok.injEq] at hrun
  subst hrun
  exact absurd hle (by decide)

/-- The arguments are exactly the strings. -/
def Protected (ws : List Bytes) (maxArgs : Nat) (args : Block (Option Nat)) : Prop :=
  ∃ p, shellParseArgs maxArgs (given (commandLine ws) args) = .ok (ws.length, p) ∧
    (List.range ws.length).map p.argument = ws.map some

/-- An escaped string comes back, except that quotes around it are taken off. -/
theorem escaping_protects (hws : ∀ w ∈ ws, w ≠ [] ∧ ∀ c ∈ w, Plain c)
    (hlength : ws.length ≤ maxArgs)
    (hargs : maxArgs < args.length) :
    Protected ws maxArgs args ↔
      ∀ w ∈ ws, ¬(2 ≤ w.length ∧ w.head? = some QUOTE ∧ w.getLast? = some QUOTE) := by
  have hzero : 0 ∉ commandLine ws := zero_notMem_commandLine fun w hw => (hws w hw).2
  have hitems : Scan.limited maxArgs {} (commandLine ws) = ws.map fun w => .word (unquote w) := by
    have hrest : Scan.rest {} (commandLine ws) = ws.map fun w => .word (unquote w) :=
      items_commandLine hws
    rw [limited_eq (by rwa [hrest, List.length_map]), hrest]
  obtain ⟨p, hrun, hparsed⟩ := shellParseArgs_run hzero args hargs
  have harguments := hparsed.arguments (limited_items_clean hzero maxArgs)
  rw [hitems, List.length_map] at hrun harguments
  have hiff : Protected ws maxArgs args ↔ (ws.map fun w => some (unquote w)) = ws.map some := by
    rw [List.map_map] at harguments
    constructor
    · rintro ⟨p', hrun', hall⟩
      rw [hrun] at hrun'
      cases hrun'
      exact harguments.symm.trans hall
    · intro hall
      exact ⟨p, hrun, harguments.trans hall⟩
  rw [hiff, List.map_inj_left]
  simp only [Option.some_inj, unquote_eq_self_iff]

/-- A quote inside of a string is protected. -/
theorem escaping_protects_inside : Protected [[97, 34, 98]] 1 ⟨2, fun _ => none⟩ :=
  (escaping_protects (by decide +kernel) (by decide) (by decide)).mpr (by decide)

/-- The quotes are escaped, and lost all the same. -/
theorem escaping_loses_quotes : ¬Protected [[34, 97, 34]] 1 ⟨2, fun _ => none⟩ := by
  have hrun : (shellParseArgs 1 (given (commandLine [[34, 97, 34]]) ⟨2, fun _ => none⟩)).map
      (fun r => r.2.argument 0) = .ok (some [97]) := rfl
  rintro ⟨p, hrun', hall⟩
  have hfirst : p.argument 0 = some [34, 97, 34] := (List.cons.inj hall).1
  rw [hrun', Except.map, Except.ok.injEq, hfirst] at hrun
  revert hrun
  decide

end

end Ibnos.ShellArguments
