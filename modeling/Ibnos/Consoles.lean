import Ibnos.Programs
import Ibnos.Runs
import Mathlib.Algebra.Group.Nat.Defs
import Mathlib.Data.List.OfFn
import Mathlib.Tactic.Common

/-!
The text console of the kernel, as far as it is used in raw mode: the characters on the
screen and the position of the cursor. What is written to the ports of the graphic card
is left out.
-/

namespace Ibnos.Consoles

open Ibnos.Programs
open Ibnos.Runs

def VGA_WIDTH : Nat := 80
def VGA_HEIGHT : Nat := 25

inductive Stop where
  | assertion
  | outOfBounds
deriving DecidableEq

/-- The cells of a screen, row by row. -/
abbrev Screen := Fin (VGA_WIDTH * VGA_HEIGHT) → BitVec 16

/-- The cells as they are in memory. -/
@[irreducible] def cells (screen : Screen) : List (BitVec 16) := List.ofFn screen

/-- `CHAR_OFFSET` -/
def charOffset (x y : Nat) : Nat := y * VGA_WIDTH + x

/-- `MAKE_COLOR` -/
def makeColor (foreground background : BitVec 8) :
    BitVec 8 := (foreground &&& 15) ||| background <<< 4

/-- `MAKE_RAW_CHAR` -/
def makeRawChar (color chr : BitVec 8) : BitVec 16 := color ++ chr

def COLOR_BLACK : BitVec 8 := 0
def COLOR_BLUE : BitVec 8 := 1
def COLOR_WHITE : BitVec 8 := 15

section

/-! Cells are only loaded and stored in the bounds of the array. -/

def put (screen : Screen) (offset : Nat) (value : BitVec 16) : Screen :=
  fun o => if o.val = offset then value else screen o

def load (screen : Screen) (offset : Nat) : Except Stop (BitVec 16) :=
  if h : offset < VGA_WIDTH * VGA_HEIGHT then .ok (screen ⟨offset, h⟩) else .error .outOfBounds

def store (screen : Screen) (offset : Nat) (value : BitVec 16) : Except Stop Screen :=
  if offset < VGA_WIDTH * VGA_HEIGHT then .ok (put screen offset value) else .error .outOfBounds

/-- The loops which write all cells from `i` on. -/
def fillLoop (value : Nat → BitVec 16) : Nat → Nat → Screen → Except Stop Screen
  | 0, _, screen => .ok screen
  | count + 1, i, screen => do
      let screen ← store screen i (value i)
      fillLoop value count (i + 1) screen

/-- A row takes the place of the one above. -/
def moveRow (y : Nat) : Nat → Nat → Screen → Except Stop Screen
  | 0, _, screen => .ok screen
  | count + 1, x, screen => do
      let value ← load screen (charOffset x y)
      let screen ← store screen (charOffset x (y - 1)) value
      moveRow y count (x + 1) screen

def moveRows : Nat → Nat → Screen → Except Stop Screen
  | 0, _, screen => .ok screen
  | count + 1, y, screen => do
      let screen ← moveRow y VGA_WIDTH 0 screen
      moveRows count (y + 1) screen

/-- All rows from `first` on move up, and the last one is blank. -/
@[irreducible] def scrollUp (first : Nat) (blank : BitVec 16) (screen : Screen) :
    Except Stop Screen := do
  let screen ← moveRows (VGA_HEIGHT - first) first screen
  fillLoop (fun _ => blank) VGA_WIDTH (charOffset 0 (VGA_HEIGHT - 1)) screen

end

section

def CONFLAGS_ECHO : BitVec 32 := 1
def CONFLAGS_HWCURSOR : BitVec 32 := 2
def CONFLAGS_HWCURSOR_AUTO : BitVec 32 := 4
def CONFLAGS_RAW_MODE : BitVec 32 := 8

/-- The cursors have eight bits in each direction. -/
structure Console where
  videoTextMemory : Screen
  cursorX : Nat
  cursorY : Nat
  consoleColor : BitVec 8
  consoleFlags : BitVec 32
  cursorHardwareX : Nat
  cursorHardwareY : Nat

abbrev K := Program Console Stop

def Console.rawMode (k : Console) : Bool := k.consoleFlags &&& CONFLAGS_RAW_MODE != 0

/-- The result of a loop becomes the screen. -/
def draw (f : Screen → Except Stop Screen) : K Unit := do
  let k ← get
  match f k.videoTextMemory with
  | .ok screen => set { k with videoTextMemory := screen }
  | .error e => throw e

def consoleScrollUp : K Unit := do
  let k ← get
  draw (scrollUp 1 (makeRawChar k.consoleColor 0x20))

def consoleSetHardwareCursor (x y : Nat) : K Unit :=
  modify fun k => { k with cursorHardwareX := x % 2 ^ 8, cursorHardwareY := y % 2 ^ 8 }

/-- The cursor goes to the next line. -/
def lineBreak (newline : Bool) : K Unit :=
  modify fun k =>
    if newline ∨ VGA_WIDTH ≤ k.cursorX then { k with cursorY := (k.cursorY + 1) % 2 ^ 8, cursorX := 0 }
    else k

/-- Below the last line the screen is scrolled, or in raw mode the cursor goes to the top. -/
def wrapAround (rawMode : Bool) : K Unit := do
  let k ← get
  if VGA_HEIGHT ≤ k.cursorY then
    if rawMode then modify fun k => { k with cursorY := 0 }
    else do
      consoleScrollUp
      modify fun k => { k with cursorY := VGA_HEIGHT - 1 }
  else return ()

def followCursor : K Unit := do
  let k ← get
  if k.consoleFlags &&& CONFLAGS_HWCURSOR_AUTO ≠ 0 then consoleSetHardwareCursor k.cursorX k.cursorY
  else return ()

def consolePutCharRaw (chr : BitVec 16) : K Unit := do
  let k ← get
  draw fun screen => store screen (charOffset k.cursorX k.cursorY) chr
  modify fun k => { k with cursorX := (k.cursorX + 1) % 2 ^ 8 }
  lineBreak (chr &&& 0xFF == 0x0A && !k.rawMode)
  wrapAround k.rawMode
  followCursor

def consoleWriteRawLen : List (BitVec 16) → K Unit
  | [] => return ()
  | chr :: data => do
      consolePutCharRaw chr
      consoleWriteRawLen data

def consoleSetCursorPos (x y : Nat) : K Bool :=
  if VGA_WIDTH ≤ x ∨ VGA_HEIGHT ≤ y then return false
  else do
    modify fun k => { k with cursorX := x, cursorY := y }
    return true

def consoleSetFlags (flags : BitVec 32) : K Unit := modify fun k => { k with consoleFlags := flags }

end

section

/-! What the loops do, cell by cell. -/

variable {screen : Screen} {value : Nat → BitVec 16} {offset count i x y first : Nat}
    {blank : BitVec 16}

/-- A cell which is blank beyond the end. -/
def cell (screen : Screen) (offset : Nat) : BitVec 16 :=
  if h : offset < VGA_WIDTH * VGA_HEIGHT then screen ⟨offset, h⟩ else 0

theorem length_cells (screen : Screen) : (cells screen).length = VGA_WIDTH * VGA_HEIGHT := by
  unfold cells
  exact List.length_ofFn

theorem getD_ofFn {n : Nat} (f : Fin n → BitVec 16) (o : Fin n) :
    (List.ofFn f).getD o.val 0 = f o := by
  rw [List.getD_eq_getElem?_getD, List.getElem?_ofFn, dif_pos o.isLt]
  rfl

theorem getD_cells (screen : Screen) (o : Fin (VGA_WIDTH * VGA_HEIGHT)) :
    (cells screen).getD o.val 0 = screen o := by
  unfold cells
  exact getD_ofFn screen o

theorem load_ok (h : offset < VGA_WIDTH * VGA_HEIGHT) :
    load screen offset = .ok (cell screen offset) := by
  rw [load, cell, dif_pos h, dif_pos h]

theorem store_ok (h : offset < VGA_WIDTH * VGA_HEIGHT) (v : BitVec 16) :
    store screen offset v = .ok (put screen offset v) := if_pos h

/-- The cells from `start` on are taken from `row`. -/
def overwrite (screen : Screen) (start count : Nat) (row : Nat → BitVec 16) : Screen :=
  fun o => if start ≤ o.val ∧ o.val < start + count then row o.val else screen o

theorem overwrite_zero (start : Nat) (row : Nat → BitVec 16) :
    overwrite screen start 0 row = screen := by
  funext o
  rw [overwrite, if_neg (by omega)]

/-- The first cell of an area is written before the others. -/
theorem overwrite_put (row : Nat → BitVec 16) :
    overwrite (put screen i (row i)) (i + 1) count row = overwrite screen i (count + 1) row := by
  funext o
  unfold overwrite put
  rcases eq_or_ne o.val i with heq | hne
  · rw [if_neg (by omega), if_pos heq, if_pos (by omega), heq]
  · have hiff : (i + 1 ≤ o.val ∧ o.val < i + 1 + count) ↔
      (i ≤ o.val ∧ o.val < i + (count + 1)) := by omega
    rw [if_neg hne, if_congr hiff rfl rfl]

theorem fillLoop_eq (hend : i + count ≤ VGA_WIDTH * VGA_HEIGHT) :
    fillLoop value count i screen = .ok (overwrite screen i count value) := by
  induction count generalizing i screen with
  | zero => rw [overwrite_zero, fillLoop]
  | succ count ih =>
      rw [fillLoop, store_ok (by omega)]
      change fillLoop value count (i + 1) (put screen i (value i)) = _
      rw [ih (by omega), overwrite_put]

theorem cell_put {v : BitVec 16} (hne : offset ≠ i) :
    cell (put screen i v) offset = cell screen offset := by
  simp only [cell, put, hne, if_false]

variable {start : Nat} {row row' : Nat → BitVec 16}

theorem cell_overwrite (hout : offset < start ∨ start + count ≤ offset) :
    cell (overwrite screen start count row) offset = cell screen offset := by
  unfold cell overwrite
  split
  · exact if_neg (by dsimp only; omega)
  · rfl

theorem overwrite_congr (h : ∀ o, start ≤ o → o < start + count → row o = row' o) :
    overwrite screen start count row = overwrite screen start count row' := by
  funext o
  unfold overwrite
  split
  · next hin => exact h o.val hin.1 hin.2
  · rfl

theorem overwrite_overwrite {more : Nat} :
    overwrite (overwrite screen start count row) (start + count) more row =
      overwrite screen start (count + more) row := by
  funext o
  unfold overwrite
  rcases Classical.em (start + count ≤ o.val ∧ o.val < start + count + more) with hin | hout
  · rw [if_pos hin, if_pos (by omega)]
  · have hiff : (start ≤ o.val ∧ o.val < start + count) ↔
      (start ≤ o.val ∧ o.val < start + (count + more)) := by
      omega
    rw [if_neg hout, if_congr hiff rfl rfl]

theorem charOffset_lt (hx : x < VGA_WIDTH) (hy : y < VGA_HEIGHT) :
    charOffset x y < VGA_WIDTH * VGA_HEIGHT := by
  simp only [charOffset, VGA_WIDTH, VGA_HEIGHT] at *
  omega

theorem charOffset_above (hy : 1 ≤ y) : charOffset x y = charOffset x (y - 1) + VGA_WIDTH := by
  simp only [charOffset, VGA_WIDTH]
  omega

/-- The cells of a row are not read again after they were written. -/
theorem moveRow_eq (hy : 1 ≤ y ∧ y < VGA_HEIGHT) (hend : x + count ≤ VGA_WIDTH) :
    moveRow y count x screen =
      .ok (overwrite screen (charOffset x (y - 1)) count fun o => cell screen (o + VGA_WIDTH)) := by
  induction count generalizing x screen with
  | zero => rw [overwrite_zero, moveRow]
  | succ count ih =>
      have hnext : charOffset (x + 1) (y - 1) = charOffset x (y - 1) + 1 := rfl
      rw [moveRow, load_ok (charOffset_lt (by omega) hy.2)]
      change (store screen (charOffset x (y - 1)) (cell screen (charOffset x y)) >>= _) = _
      rw [store_ok (charOffset_lt (by omega) (by omega))]
      change moveRow y count (x + 1)
        (put screen (charOffset x (y - 1)) (cell screen (charOffset x y))) = _
      rw [ih (by omega), hnext, charOffset_above hy.1]
      refine congrArg _ (Eq.trans ?_ (overwrite_put fun o => cell screen (o + VGA_WIDTH)))
      exact overwrite_congr fun o hle _ => cell_put (by omega)

theorem moveRows_eq (hy : 1 ≤ y) (hend : y + count ≤ VGA_HEIGHT) :
    moveRows count y screen =
      .ok (overwrite screen (charOffset 0 (y - 1)) (count * VGA_WIDTH) fun o =>
        cell screen (o + VGA_WIDTH)) := by
  induction count generalizing y screen with
  | zero => rw [Nat.zero_mul, overwrite_zero, moveRows]
  | succ count ih =>
      rw [moveRows, moveRow_eq ⟨hy, by omega⟩ (by omega)]
      change moveRows count (y + 1) _ = _
      have hcount : (count + 1) * VGA_WIDTH = VGA_WIDTH + count * VGA_WIDTH := by
        rw [Nat.succ_mul, Nat.add_comm]
      rw [ih (by omega) (by omega), Nat.add_sub_cancel, charOffset_above hy,
        hcount, ← overwrite_overwrite]
      exact congrArg _ (overwrite_congr fun o hle _ => cell_overwrite (Or.inr (by omega)))

/-- The screen after it was scrolled. -/
def scrolled (first : Nat) (blank : BitVec 16) (screen : Screen) : Screen :=
  fun o =>
    if o.val < charOffset 0 (first - 1) then screen o
    else if o.val < charOffset 0 (VGA_HEIGHT - 1) then cell screen (o.val + VGA_WIDTH)
    else blank

theorem scrollUp_eq (hfirst : 1 ≤ first) (hle : first ≤ VGA_HEIGHT) :
    scrollUp first blank screen = .ok (scrolled first blank screen) := by
  have hend : charOffset 0 (VGA_HEIGHT - 1) + VGA_WIDTH ≤ VGA_WIDTH * VGA_HEIGHT := by
    simp only [charOffset, VGA_WIDTH, VGA_HEIGHT]
    omega
  rw [scrollUp, bind_eq_ok]
  refine ⟨_, moveRows_eq hfirst (by omega), ?_⟩
  rw [fillLoop_eq hend]
  refine congrArg _ ?_
  funext o
  have ho : o.val < 2000 := o.isLt
  have hlast : charOffset 0 (VGA_HEIGHT - 1) = 1920 := rfl
  have hmoved : charOffset 0 (first - 1) + (VGA_HEIGHT - first) * VGA_WIDTH = 1920 := by
    simp only [charOffset, VGA_WIDTH, VGA_HEIGHT] at *
    omega
  unfold overwrite scrolled
  rw [hlast, hmoved]
  rcases Nat.lt_or_ge o.val 1920 with hlt | hge
  · have hout : ¬(1920 ≤ o.val ∧ o.val < 1920 + VGA_WIDTH) := by omega
    rw [if_neg hout, if_pos hlt]
    rcases Nat.lt_or_ge o.val (charOffset 0 (first - 1)) with habove | hbelow
    · have hkept : ¬(charOffset 0 (first - 1) ≤ o.val ∧ o.val < 1920) := by omega
      rw [if_neg hkept, if_pos habove]
    · rw [if_pos ⟨hbelow, hlt⟩, if_neg (Nat.not_lt.mpr hbelow)]
  · have hin : 1920 ≤ o.val ∧ o.val < 1920 + VGA_WIDTH := ⟨hge, ho⟩
    have hbelow : ¬o.val < charOffset 0 (first - 1) := by omega
    rw [if_pos hin, if_neg hbelow, if_neg (Nat.not_lt.mpr hge)]

end

section

/-! In raw mode the characters are written one after the other, from the end to the top again. -/

variable {k k' : Console} {p : Nat} {chr : BitVec 16} {E : Stop → Prop}

/-- The cursor is at an offset of the screen. -/
structure At (p : Nat) (k : Console) : Prop where
  x : k.cursorX < VGA_WIDTH
  y : k.cursorY < VGA_HEIGHT
  offset : charOffset k.cursorX k.cursorY = p

theorem At.lt (h : At p k) : p < VGA_WIDTH * VGA_HEIGHT := by
  rw [← h.offset]
  exact charOffset_lt h.x h.y

theorem draw_ok {f : Screen → Except Stop Screen} {screen : Screen}
    (h : f k.videoTextMemory = .ok screen) :
    draw f k = .ok ((), { k with videoTextMemory := screen }) := by
  simp only [draw, bind_apply, get_apply, h]
  rfl

theorem followCursor_yields : Yields E followCursor k fun _ k' =>
    k'.videoTextMemory = k.videoTextMemory ∧ k'.cursorX = k.cursorX ∧ k'.cursorY = k.cursorY ∧
      k'.consoleFlags = k.consoleFlags := by
  rw [followCursor]
  refine yields_get_bind (yields_ite (fun _ => ?_) fun _ => ?_)
  · exact yields_modify ⟨rfl, rfl, rfl, rfl⟩
  · exact yields_pure ⟨rfl, rfl, rfl, rfl⟩

/-- At the end of the screen the cursor goes to the top. -/
theorem wrapAround_raw (hx : k.cursorX < VGA_WIDTH) (hy : k.cursorY ≤ VGA_HEIGHT) :
    Yields E (wrapAround true) k fun _ k' => k'.videoTextMemory = k.videoTextMemory ∧
      At (charOffset k.cursorX k.cursorY % (VGA_WIDTH * VGA_HEIGHT)) k' ∧
        k'.consoleFlags = k.consoleFlags := by
  rw [wrapAround]
  refine yields_get_bind (yields_ite (fun hover => ?_) fun hfits => yields_pure ⟨rfl, ?_, rfl⟩)
  · rw [if_pos rfl]
    refine yields_modify ⟨rfl, ?_, rfl⟩
    constructor <;> simp only [charOffset, VGA_WIDTH, VGA_HEIGHT] at * <;> omega
  · constructor <;> simp only [charOffset, VGA_WIDTH, VGA_HEIGHT] at * <;> omega

theorem consolePutCharRaw_raw (hraw : k.rawMode = true) (h : At p k) :
    Yields E (consolePutCharRaw chr) k fun _ k' =>
      k'.videoTextMemory = put k.videoTextMemory p chr ∧
        At ((p + 1) % (VGA_WIDTH * VGA_HEIGHT)) k' ∧ k'.consoleFlags = k.consoleFlags := by
  obtain ⟨hx, hy, hp⟩ := h
  have hstore : store k.videoTextMemory (charOffset k.cursorX k.cursorY) chr =
      .ok (put k.videoTextMemory p chr) := by
    rw [store_ok (charOffset_lt hx hy), hp]
  -- the cursor after the line break, which may be below the last line
  have hrest : ∀ {k₁ : Console}, k₁.videoTextMemory = put k.videoTextMemory p chr →
      k₁.consoleFlags = k.consoleFlags → k₁.cursorX < VGA_WIDTH → k₁.cursorY ≤ VGA_HEIGHT →
      charOffset k₁.cursorX k₁.cursorY = p + 1 →
      Yields E (wrapAround true >>= fun _ => followCursor) k₁ fun _ k' =>
        k'.videoTextMemory = put k.videoTextMemory p chr ∧
          At ((p + 1) % (VGA_WIDTH * VGA_HEIGHT)) k' ∧ k'.consoleFlags = k.consoleFlags := by
    intro k₁ hmemory hflags hx₁ hy₁ hoffset
    rw [← hmemory, ← hflags, ← hoffset]
    refine (wrapAround_raw hx₁ hy₁).bind ?_
    rintro _ k₂ ⟨hmemory₂, hat, hflags₂⟩
    refine followCursor_yields.mono ?_
    rintro _ k' ⟨hmemory', hx', hy', hflags'⟩
    refine ⟨hmemory'.trans hmemory₂, ⟨?_, ?_, ?_⟩, hflags'.trans hflags₂⟩
    · exact hx' ▸ hat.x
    · exact hy' ▸ hat.y
    · rw [hx', hy']
      exact hat.offset
  rw [consolePutCharRaw]
  refine yields_get_bind (yields_ok_bind (draw_ok hstore) (yields_modify_bind ?_))
  simp only [hraw, Bool.not_true, Bool.and_false]
  rw [lineBreak]
  refine yields_modify_bind ?_
  simp only [charOffset, VGA_WIDTH, VGA_HEIGHT] at hx hy hp
  have hsmall : (k.cursorX + 1) % 2 ^ 8 = k.cursorX + 1 := by omega
  simp only [Bool.false_eq_true, false_or, hsmall]
  split
  · next hge =>
    refine hrest rfl rfl ?_ ?_ ?_ <;> simp only [charOffset, VGA_WIDTH, VGA_HEIGHT] at * <;> omega
  · next hlt =>
    refine hrest rfl rfl (Nat.not_le.mp hlt) ?_ ?_ <;>
      simp only [charOffset, VGA_WIDTH, VGA_HEIGHT] at * <;>
      omega

/-- The cells of a list, from an offset on. -/
def listed (data : List (BitVec 16)) (p : Nat) : Nat → BitVec 16 := fun o => data.getD (o - p) 0

theorem consoleWriteRawLen_raw {data : List (BitVec 16)} (hraw : k.rawMode = true) (h : At p k)
    (hend : p + data.length ≤ VGA_WIDTH * VGA_HEIGHT) :
    Yields E (consoleWriteRawLen data) k fun _ k' =>
      k'.videoTextMemory = overwrite k.videoTextMemory p data.length (listed data p) ∧
        At ((p + data.length) % (VGA_WIDTH * VGA_HEIGHT)) k' ∧
          k'.consoleFlags = k.consoleFlags := by
  induction data generalizing k p with
  | nil =>
      have hlt := h.lt
      refine yields_pure ⟨(overwrite_zero _ _).symm, ?_, rfl⟩
      rwa [List.length_nil, Nat.add_zero, Nat.mod_eq_of_lt hlt]
  | cons chr data ih =>
      rw [consoleWriteRawLen]
      rw [List.length_cons] at hend ⊢
      refine (consolePutCharRaw_raw hraw h).bind ?_
      rintro _ k₁ ⟨hmemory₁, hat₁, hflags₁⟩
      have hfirst : ∀ {n}, overwrite k₁.videoTextMemory (p + 1) n (listed data (p + 1)) =
          overwrite k.videoTextMemory p (n + 1) (listed (chr :: data) p) := by
        intro n
        have hput : put k.videoTextMemory p chr = put k.videoTextMemory p
          (listed (chr :: data) p p) := by
          rw [listed, Nat.sub_self, List.getD_cons_zero]
        rw [hmemory₁, hput, ← overwrite_put]
        refine overwrite_congr fun o hle _ => ?_
        have hsub : o - p = o - (p + 1) + 1 := by omega
        rw [listed, listed, hsub, List.getD_cons_succ]
      rcases Nat.lt_or_ge (p + 1) (VGA_WIDTH * VGA_HEIGHT) with hlt | hge
      · rw [Nat.mod_eq_of_lt hlt] at hat₁
        have hraw₁ : k₁.rawMode = true := by
          rw [Console.rawMode, hflags₁]
          exact hraw
        refine (ih hraw₁ hat₁ (by omega)).mono ?_
        rintro _ k' ⟨hmemory', hat', hflags'⟩
        refine ⟨hmemory'.trans hfirst, ?_, hflags'.trans hflags₁⟩
        rwa [Nat.add_right_comm, Nat.add_assoc] at hat'
      · obtain rfl : data = [] := List.length_eq_zero_iff.mp (by omega)
        refine yields_pure ⟨?_, hat₁, hflags₁⟩
        exact (overwrite_zero _ _).symm.trans hfirst

end

end Ibnos.Consoles
