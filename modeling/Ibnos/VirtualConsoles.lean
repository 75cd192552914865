import Ibnos.Consoles

/-!
The virtual consoles of `main`. Each one keeps its own copy of the screen, and the kernel's
screen shows the current one. The input pipes of the shells and their process ids are left
out: nothing here reads them.
-/

namespace Ibnos.VirtualConsoles

open Ibnos.Programs
open Ibnos.Consoles

def NUM_VIRT_CONSOLES : Nat := 7

def ESCAPE_COLOR : BitVec 8 := 1
def ESCAPE_CURSORX : BitVec 8 := 2
def ESCAPE_CURSORY : BitVec 8 := 3

def CONSOLE_BLANK : BitVec 16 := makeRawChar (makeColor COLOR_WHITE COLOR_BLACK) 0x20

structure VirtConsole where
  data : Screen
  cursorX : Nat
  cursorY : Nat
  output : Int
  color : BitVec 8
  escape : Bool
  escapeCode : BitVec 8
  escapeValue : BitVec 8

abbrev Index := Fin NUM_VIRT_CONSOLES

structure System where
  kernel : Console
  consoles : Index → VirtConsole
  currentConsole : Index

abbrev M := Program System Stop

section

/-! System calls, and the array `consoles`. -/

def syscall {α : Type} (m : K α) : M α := fun s =>
  match m s.kernel with
  | .ok (a, k) => .ok (a, { s with kernel := k })
  | .error e => .error e

def consoleSetCursor (x y : Nat) : M Unit := do
  let _ ← syscall (consoleSetCursorPos (x % 2 ^ 8) (y % 2 ^ 8))

def consoleWriteRaw (data : List (BitVec 16)) : M Unit := syscall (consoleWriteRawLen data)

def setHardwareCursor (x y : Nat) : M Unit := syscall (consoleSetHardwareCursor x y)

def setFlags (flags : BitVec 32) : M Unit := syscall (consoleSetFlags flags)

def System.setConsole (s : System) (index : Index) (c : VirtConsole) : System :=
  { s with consoles := Function.update s.consoles index c }

def updateConsole (index : Index) (f : VirtConsole → VirtConsole) : M Unit :=
  modify fun s => s.setConsole index (f (s.consoles index))

def drawConsole (index : Index) (f : Screen → Except Stop Screen) : M Unit := do
  let c := (← get).consoles index
  match f c.data with
  | .ok screen => updateConsole index fun c => { c with data := screen }
  | .error e => throw e

/-- `consoles[index].data[CHAR_OFFSET(x, y)] = value`, where the coordinates have a sign. -/
def storeChar (index : Index) (x y : Int) (value : BitVec 16) : M Unit :=
  if y * VGA_WIDTH + x < 0 then throw .outOfBounds
  else drawConsole index fun screen => store screen (y * VGA_WIDTH + x).toNat value

end

section

def virtConsoleSwitchTo (index : Index) : M Unit := do
  let c := (← get).consoles index
  setFlags (CONFLAGS_HWCURSOR_AUTO ||| CONFLAGS_RAW_MODE)
  consoleSetCursor 0 0
  consoleWriteRaw (cells c.data)
  consoleSetCursor c.cursorX c.cursorY
  setHardwareCursor c.cursorX c.cursorY
  setFlags (CONFLAGS_HWCURSOR ||| CONFLAGS_HWCURSOR_AUTO ||| CONFLAGS_RAW_MODE)

/-- `snprintf(text, VGA_WIDTH, "IBN OS - Console %d", index)`, in an array of zeros. -/
def headerText (index : Index) : List (BitVec 8) :=
  ['I', 'B', 'N', ' ', 'O', 'S', ' ', '-', ' ', 'C', 'o', 'n', 's', 'o', 'l', 'e', ' '].map
    (fun c => BitVec.ofNat 8 c.toNat) ++ [BitVec.ofNat 8 (0x30 + index)]

def headerChar (index : Index) (i : Nat) : BitVec 16 :=
  let chr := (headerText index).getD i 0
  makeRawChar (makeColor COLOR_WHITE COLOR_BLUE) (if chr ≠ 0 then chr else 0x20)

/-- A black background and the header line. -/
@[irreducible] def initScreen (index : Index) (screen : Screen) : Except Stop Screen := do
  let screen ← fillLoop (fun _ => CONSOLE_BLANK) (VGA_WIDTH * VGA_HEIGHT) 0 screen
  fillLoop (headerChar index) VGA_WIDTH 0 screen

/-- The handle is what `createPipe` returned. -/
def virtConsoleInit (output : Int) (index : Index) : M Unit := do
  drawConsole index (initScreen index)
  updateConsole index fun c =>
    { c with
      cursorX := 0
      cursorY := 1
      output := output
      escape := false
      escapeCode := 0
      escapeValue := 0
      color := makeColor COLOR_WHITE COLOR_BLACK }
  if output < 0 then throw .assertion else return ()

def virtConsoleScrollUp (index : Index) : M Unit := drawConsole index (scrollUp 2 CONSOLE_BLANK)

/-- The cursor is moved, on the screen too if the console is shown. -/
def moveCursor (index : Index) (x y : Nat) (active : Bool) : M Unit := do
  updateConsole index fun c => { c with cursorX := x, cursorY := y }
  if active then do
    consoleSetCursor x y
    setHardwareCursor x y
  else return ()

def switchIf (active : Bool) (index : Index) : M Unit :=
  if active then virtConsoleSwitchTo index else return ()

/-- The previous position, but not above the first line of text. -/
def stepBack (x y : Int) : Int × Int :=
  let (x, y) := if x - 1 < 0 then ((VGA_WIDTH : Int) - 1, y - 1) else (x - 1, y)
  (x, if y < 1 then 1 else y)

def eraseChar (index : Index) (x y : Int) (active : Bool) : M Unit := do
  let (x, y) := stepBack x y
  let c := (← get).consoles index
  storeChar index x y (makeRawChar c.color 0x20)
  switchIf active index
  moveCursor index x.toNat y.toNat active

def wrapLine (x y : Int) : Int × Int := if VGA_WIDTH ≤ x then (0, y + 1) else (x, y)

/-- The screen is scrolled if the cursor is below the last line. -/
def advanceCursor (index : Index) (x y : Int) (active : Bool) : M Unit := do
  let (x, y) := wrapLine x y
  if VGA_HEIGHT ≤ y then do
    virtConsoleScrollUp index
    updateConsole index fun c => { c with cursorX := x.toNat, cursorY := VGA_HEIGHT - 1 }
    switchIf active index
  else moveCursor index x.toNat y.toNat active

def writeChar (index : Index) (chr : BitVec 8) (x y : Int) (active : Bool) : M Unit := do
  let c := (← get).consoles index
  storeChar index x y (makeRawChar c.color chr)
  if active then consoleWriteRaw [makeRawChar c.color chr] else return ()

def virtConsolePutChar (index : Index) (chr : BitVec 8) (active : Bool) : M Unit := do
  let c := (← get).consoles index
  let x : Int := c.cursorX
  let y : Int := c.cursorY
  if chr = 127 then eraseChar index x y active
  else if chr ≠ 0x0A then do
    writeChar index chr x y active
    advanceCursor index (x + 1) y active
  else advanceCursor index 0 (y + 1) active

def virtConsoleProcessEscape (index : Index) (active : Bool) : M Unit := do
  let c := (← get).consoles index
  if c.escape = false then return ()
  else if c.escapeCode = ESCAPE_COLOR then updateConsole index fun c => { c with color := c.escapeValue }
  else if c.escapeCode = ESCAPE_CURSORX ∨ c.escapeCode = ESCAPE_CURSORY then
    let posX := if c.escapeCode = ESCAPE_CURSORX then c.escapeValue.toNat else c.cursorX
    let posY := if c.escapeCode = ESCAPE_CURSORY then c.escapeValue.toNat + 1 else c.cursorY
    if posX < VGA_WIDTH ∧ posY < VGA_HEIGHT then moveCursor index posX posY active else return ()
  else return ()

end

section

/-! The loop of `main`. -/

/-- One byte which a shell has written. -/
def receiveByte (index : Index) (byte : BitVec 8) : M Unit := do
  let s ← get
  let c := s.consoles index
  let active := decide (index = s.currentConsole)
  if c.escape = false ∧ byte = 0x1B then
    updateConsole index fun c => { c with escape := true, escapeCode := 0, escapeValue := 0 }
  else if c.escape then
    if c.escapeCode = 0 then updateConsole index fun c => { c with escapeCode := byte }
    else do
      updateConsole index fun c => { c with escapeValue := byte }
      virtConsoleProcessEscape index active
      updateConsole index fun c => { c with escape := false }
  else virtConsolePutChar index byte active

def outputLoop (index : Index) : List (BitVec 8) → M Unit
  | [] => return ()
  | byte :: bytes => do
      receiveByte index byte
      outputLoop index bytes

/-- A tab switches to the next console. Everything else goes to the shell. -/
def stdinLoop : List (BitVec 8) → M Unit
  | [] => return ()
  | byte :: bytes => do
      if byte = 0x09 then do
        modify fun s =>
          { s with currentConsole :=
            ⟨(s.currentConsole + 1) % NUM_VIRT_CONSOLES, Nat.mod_lt _ (by decide)⟩ }
        virtConsoleSwitchTo (← get).currentConsole
        stdinLoop bytes
      else stdinLoop bytes

/-- The search for the console with an output pipe. -/
def findConsole (consoles : Index → VirtConsole) (handle : Int) : Nat → Nat → Option Index
  | 0, _ => none
  | rounds + 1, index =>
      if h : index < NUM_VIRT_CONSOLES then
        if (consoles ⟨index, h⟩).output ≠ handle then findConsole consoles handle rounds (index + 1)
        else some ⟨index, h⟩
      else none

/-- What `objectWait` and `read` returned. -/
structure Event where
  handle : Int
  bytes : List (BitVec 8)

def handleEvent (e : Event) : M Unit := do
  if e.handle < 0 then return ()
  else if e.handle ≠ 0 then do
    match findConsole (← get).consoles e.handle NUM_VIRT_CONSOLES 0 with
    | some index => outputLoop index e.bytes
    | none => return ()
  else stdinLoop e.bytes

def handleEvents : List Event → M Unit
  | [] => return ()
  | e :: events => do
      handleEvent e
      handleEvents events

/-- The handles which `createPipe` returned for the outputs. They are new ones, and the
standard input has the handle 0. -/
structure Pipes where
  output : Index → Int
  positive : ∀ i, 0 < output i
  injective : Function.Injective output

def initLoop (pipes : Pipes) : Nat → Nat → M Unit
  | 0, _ => return ()
  | rounds + 1, index => do
      if h : index < NUM_VIRT_CONSOLES then do
        virtConsoleInit (pipes.output ⟨index, h⟩) ⟨index, h⟩
        initLoop pipes rounds (index + 1)
      else return ()

/-- `main` up to its loop. -/
def initialise (pipes : Pipes) : M Unit := do
  modify fun s => { s with currentConsole := ⟨0, by decide⟩ }
  initLoop pipes NUM_VIRT_CONSOLES 0
  virtConsoleSwitchTo (← get).currentConsole

end

end Ibnos.VirtualConsoles
