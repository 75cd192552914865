import Ibnos.VirtualConsoles

/-!
The screen mirrors the current virtual console. A console for itself is a machine which
takes one byte after the other, and all consoles together are as many such machines. What
the kernel shows is the one which is current.
-/

namespace Ibnos.ScreenMirror

open Ibnos.Programs
open Ibnos.Consoles
open Ibnos.VirtualConsoles

section

/-! A console for itself. -/

/-- The cursor goes to a line which may be one below the last. -/
def goTo (c : VirtConsole) (x y : Nat) : VirtConsole :=
  if VGA_HEIGHT ≤ y then
    { c with data := scrolled 2 CONSOLE_BLANK c.data, cursorX := x, cursorY := VGA_HEIGHT - 1 }
  else { c with cursorX := x, cursorY := y }

def write (c : VirtConsole) (x y : Nat) (chr : BitVec 8) : VirtConsole :=
  { c with data := put c.data (charOffset x y) (makeRawChar c.color chr) }

def erase (c : VirtConsole) : VirtConsole :=
  if c.cursorX = 0 then
    { write c (VGA_WIDTH - 1) (max 1 (c.cursorY - 1)) 0x20 with
      cursorX := VGA_WIDTH - 1
      cursorY := max 1 (c.cursorY - 1) }
  else { write c (c.cursorX - 1) c.cursorY 0x20 with cursorX := c.cursorX - 1 }

def print (c : VirtConsole) (chr : BitVec 8) : VirtConsole :=
  if chr = 127 then erase c
  else if chr = 0x0A then goTo c 0 (c.cursorY + 1)
  else if c.cursorX + 1 = VGA_WIDTH then goTo (write c c.cursorX c.cursorY chr) 0 (c.cursorY + 1)
  else goTo (write c c.cursorX c.cursorY chr) (c.cursorX + 1) c.cursorY

/-- What an escape sequence does. -/
def command (c : VirtConsole) (code value : BitVec 8) : VirtConsole :=
  if code = ESCAPE_COLOR then { c with color := value }
  else if code = ESCAPE_CURSORX then
    if value.toNat < VGA_WIDTH then { c with cursorX := value.toNat } else c
  else if code = ESCAPE_CURSORY then
    if value.toNat + 1 < VGA_HEIGHT then { c with cursorY := value.toNat + 1 } else c
  else c

/-- The console after one more byte. -/
def receive (c : VirtConsole) (byte : BitVec 8) : VirtConsole :=
  if c.escape then
    if c.escapeCode = 0 then { c with escapeCode := byte }
    else { command c c.escapeCode byte with escapeValue := byte, escape := false }
  else if byte = 0x1B then { c with escape := true, escapeCode := 0, escapeValue := 0 }
  else print c byte

/-- The console before any byte. -/
def fresh (pipes : Pipes) (index : Index) : VirtConsole where
  data := overwrite (fun _ => CONSOLE_BLANK) 0 VGA_WIDTH (headerChar index)
  cursorX := 0
  cursorY := 1
  output := pipes.output index
  color := makeColor COLOR_WHITE COLOR_BLACK
  escape := false
  escapeCode := 0
  escapeValue := 0

/-- The cursor is on the screen, below the header line. -/
structure Framed (index : Index) (c : VirtConsole) : Prop where
  x : c.cursorX < VGA_WIDTH
  top : 1 ≤ c.cursorY
  bottom : c.cursorY < VGA_HEIGHT
  header : ∀ o, o.val < VGA_WIDTH → c.data o = headerChar index o.val

end

section

variable {index : Index} {c : VirtConsole} {x y : Nat} {chr byte : BitVec 8}

theorem framed_goTo (h : Framed index c) (hx : x < VGA_WIDTH) (hy : 1 ≤ y ∧ y ≤ VGA_HEIGHT) :
    Framed index (goTo c x y) := by
  unfold goTo
  split
  · refine ⟨hx, ?_, ?_, fun o ho => ?_⟩
    · change 1 ≤ 25 - 1
      omega
    · change 25 - 1 < 25
      omega
    · have hrow : o.val < charOffset 0 (2 - 1) := ho
      change scrolled 2 CONSOLE_BLANK c.data o = _
      rw [scrolled, if_pos hrow]
      exact h.header o ho
  · next hlt => exact ⟨hx, hy.1, Nat.not_le.mp hlt, h.header⟩

theorem header_write (h : Framed index c) (hy : 1 ≤ y) :
    ∀ o, o.val < VGA_WIDTH → (write c x y chr).data o = headerChar index o.val := by
  intro o ho
  have hne : o.val ≠ charOffset x y := by
    simp only [charOffset, VGA_WIDTH] at *
    omega
  change put c.data (charOffset x y) _ o = _
  rw [put, if_neg hne]
  exact h.header o ho

theorem framed_write (h : Framed index c) (hy : 1 ≤ y) : Framed index (write c x y chr) :=
  ⟨h.x, h.top, h.bottom, header_write h hy⟩

theorem framed_erase (h : Framed index c) : Framed index (erase c) := by
  have hbottom := h.bottom
  unfold erase
  split
  · refine ⟨?_, ?_, ?_, header_write h (Nat.le_max_left ..)⟩
    · change VGA_WIDTH - 1 < VGA_WIDTH
      decide
    · exact Nat.le_max_left ..
    · change max 1 (c.cursorY - 1) < VGA_HEIGHT
      simp only [VGA_HEIGHT] at *
      omega
  · exact ⟨Nat.lt_of_le_of_lt (Nat.sub_le _ _) h.x, h.top, hbottom, header_write h h.top⟩

theorem framed_print (h : Framed index c) (chr : BitVec 8) : Framed index (print c chr) := by
  have hx := h.x
  have hbottom := h.bottom
  have hzero : 0 < VGA_WIDTH := by decide
  unfold print
  split
  · exact framed_erase h
  · split
    · exact framed_goTo h hzero ⟨Nat.succ_pos _, hbottom⟩
    · split
      · exact framed_goTo (framed_write h h.top) hzero ⟨Nat.succ_pos _, hbottom⟩
      · exact framed_goTo (framed_write h h.top) (by omega) ⟨h.top, hbottom.le⟩

theorem framed_command (h : Framed index c) (code value : BitVec 8) :
    Framed index (command c code value) := by
  unfold command
  split
  · exact ⟨h.x, h.top, h.bottom, h.header⟩
  · split
    · split
      · next hlt => exact ⟨hlt, h.top, h.bottom, h.header⟩
      · exact h
    · split
      · split
        · next hlt => exact ⟨h.x, Nat.succ_pos _, hlt, h.header⟩
        · exact h
      · exact h

/-- No byte brings the cursor out of its frame or changes the header line. -/
theorem framed_receive (h : Framed index c) (byte : BitVec 8) : Framed index (receive c byte) := by
  unfold receive
  split
  · split
    · exact ⟨h.x, h.top, h.bottom, h.header⟩
    · have hcommand := framed_command h c.escapeCode byte
      exact ⟨hcommand.x, hcommand.top, hcommand.bottom, hcommand.header⟩
  · split
    · exact ⟨h.x, h.top, h.bottom, h.header⟩
    · exact framed_print h byte

theorem framed_fresh (pipes : Pipes) (index : Index) : Framed index (fresh pipes index) := by
  refine ⟨Nat.zero_lt_succ _, le_rfl, ?_, fun o ho => ?_⟩
  · change 1 < 25
    omega
  · exact if_pos ⟨Nat.zero_le _, (Nat.zero_add VGA_WIDTH).symm ▸ ho⟩

end

section

/-! What the system calls do to the screen of the kernel. -/

variable {index : Index} {c : VirtConsole} {x y : Nat} {s s' : System} {active : Bool}
    {E : Stop → Prop}

/-- The flags which `virtConsoleSwitchTo` leaves. -/
def SHOWN : BitVec 32 := CONFLAGS_HWCURSOR ||| CONFLAGS_HWCURSOR_AUTO ||| CONFLAGS_RAW_MODE

/-- The characters of a console are on the screen. -/
structure Drawn (c : VirtConsole) (k : Console) : Prop where
  memory : k.videoTextMemory = c.data
  flags : k.consoleFlags = SHOWN

/-- And the cursor too. -/
structure Shown (c : VirtConsole) (k : Console) : Prop extends Drawn c k where
  x : k.cursorX = c.cursorX
  y : k.cursorY = c.cursorY

theorem syscall_yields {α : Type} {m : K α} {Q : α → Console → Prop} (h : Yields E m s.kernel Q) :
    Yields E (syscall m) s fun a s' => ∃ k, s' = { s with kernel := k } ∧ Q a k := by
  rcases hm : m s.kernel with e | ⟨a, k⟩
  · have heq : syscall m s = .error e := by
      rw [syscall, hm]
    exact yields_of_error heq (h.of_error hm)
  · have heq : syscall m s = .ok (a, { s with kernel := k }) := by
      rw [syscall, hm]
    exact yields_of_ok heq ⟨k, rfl, h.of_ok hm⟩

/-- The kernel after the cursor was moved. -/
def placed (k : Console) (x y : Nat) : Console := { k with cursorX := x, cursorY := y }

theorem consoleSetCursor_ok (hx : x < VGA_WIDTH) (hy : y < VGA_HEIGHT) :
    consoleSetCursor x y s = .ok ((), { s with kernel := placed s.kernel x y }) := by
  have hx' : x % 2 ^ 8 = x := by
    simp only [VGA_WIDTH] at hx
    omega
  have hy' : y % 2 ^ 8 = y := by
    simp only [VGA_HEIGHT] at hy
    omega
  have hpos : ¬(VGA_WIDTH ≤ x ∨ VGA_HEIGHT ≤ y) := by omega
  simp only [consoleSetCursor, hx', hy', consoleSetCursorPos, if_neg hpos]
  rfl

theorem setHardwareCursor_yields : Yields E (setHardwareCursor x y) s fun _ s' =>
    ∃ k, s' = { s with kernel := k } ∧ k.videoTextMemory = s.kernel.videoTextMemory ∧
      k.cursorX = s.kernel.cursorX ∧ k.cursorY = s.kernel.cursorY ∧
      k.consoleFlags = s.kernel.consoleFlags :=
  syscall_yields (yields_modify ⟨rfl, rfl, rfl, rfl⟩)

theorem setFlags_yields {flags : BitVec 32} : Yields E (setFlags flags) s fun _ s' =>
    ∃ k, s' = { s with kernel := k } ∧ k.videoTextMemory = s.kernel.videoTextMemory ∧
      k.cursorX = s.kernel.cursorX ∧ k.cursorY = s.kernel.cursorY ∧ k.consoleFlags = flags :=
  syscall_yields (yields_modify ⟨rfl, rfl, rfl, rfl⟩)

/-- The whole screen is drawn again. -/
theorem virtConsoleSwitchTo_shown (hx : (s.consoles index).cursorX < VGA_WIDTH)
    (hy : (s.consoles index).cursorY < VGA_HEIGHT) :
    Yields E (virtConsoleSwitchTo index) s fun _ s' =>
      ∃ k, s' = { s with kernel := k } ∧ Shown (s.consoles index) k := by
  rw [virtConsoleSwitchTo]
  refine yields_get_bind ?_
  refine setFlags_yields.bind ?_
  rintro _ _ ⟨k₁, rfl, -, -, -, hflags⟩
  refine yields_ok_bind (consoleSetCursor_ok (by decide) (by decide)) ?_
  have hat : At 0 (placed k₁ 0 0) := ⟨Nat.zero_lt_succ _, Nat.zero_lt_succ _, rfl⟩
  have hraw : (placed k₁ 0 0).rawMode = true := by
    change (k₁.consoleFlags &&& CONFLAGS_RAW_MODE != 0) = true
    rw [hflags]
    decide
  have hlength := length_cells (s.consoles index).data
  refine (syscall_yields (consoleWriteRawLen_raw hraw hat ((Nat.zero_add _).trans hlength).le)).bind
    ?_
  rintro _ _ ⟨k₂, rfl, hmemory, -, -⟩
  refine yields_ok_bind (consoleSetCursor_ok hx hy) ?_
  refine setHardwareCursor_yields.bind ?_
  rintro _ _ ⟨k₃, rfl, hmemory₃, hx₃, hy₃, -⟩
  refine setFlags_yields.mono ?_
  rintro _ _ ⟨k', rfl, hmemory', hx', hy', hflags'⟩
  refine ⟨k', rfl, ⟨?_, hflags'⟩, hx'.trans hx₃, hy'.trans hy₃⟩
  rw [hmemory', hmemory₃]
  change k₂.videoTextMemory = _
  rw [hmemory, hlength]
  funext o
  rw [overwrite, if_pos ⟨Nat.zero_le _, (Nat.zero_add _).symm ▸ o.isLt⟩, listed, Nat.sub_zero]
  exact getD_cells _ o

end

section

/-! Each function changes its console as it does for itself, and the screen if it is shown. -/

variable {index : Index} {c : VirtConsole} {x y : Nat} {s s' s'' : System} {active : Bool}
    {chr : BitVec 8}
  {P : Console → Prop} {E : Stop → Prop}

/-- The console at `index` is `c` now. The screen changed only if the console is shown. -/
structure Becomes (active : Bool) (index : Index) (c : VirtConsole) (P : Console → Prop)
    (s s' : System) :
    Prop where
  consoles : s'.consoles = Function.update s.consoles index c
  current : s'.currentConsole = s.currentConsole
  shown : active = true → P s'.kernel
  hidden : active = false → s'.kernel = s.kernel

theorem Becomes.self (h : Becomes active index c P s s') : s'.consoles index = c := by
  rw [h.consoles, Function.update_self]

theorem Becomes.trans {c' : VirtConsole} {P' : Console → Prop} (h : Becomes active index c P s s')
    (h' : Becomes active index c' P' s' s'') : Becomes active index c' P' s s'' := by
  refine ⟨?_, h'.current.trans h.current, h'.shown,
    fun hidden => (h'.hidden hidden).trans (h.hidden hidden)⟩
  rw [h'.consoles, h.consoles, Function.update_idem]

theorem becomes_setConsole (h : active = true → P s.kernel) :
    Becomes active index c P s (s.setConsole index c) :=
  ⟨rfl, rfl, h, fun _ => rfl⟩

theorem drawConsole_ok {f : Screen → Except Stop Screen} {screen : Screen}
    (h : f (s.consoles index).data = .ok screen) :
    drawConsole index f s =
      .ok ((), s.setConsole index { s.consoles index with data := screen }) := by
  simp only [drawConsole, bind_apply, get_apply, h]
  rfl

theorem storeChar_ok (hx : x < VGA_WIDTH) (hy : y < VGA_HEIGHT) (value : BitVec 16) :
    storeChar index x y value s = .ok ((), s.setConsole index
      { s.consoles index with data := put (s.consoles index).data (charOffset x y) value }) := by
  have hoffset : (y : Int) * VGA_WIDTH + x = (charOffset x y : Nat) := by
    rw [charOffset]
    push_cast
    rfl
  rw [storeChar, hoffset, if_neg (by omega), Int.toNat_natCast]
  exact drawConsole_ok (store_ok (charOffset_lt hx hy) value)

/-- The screen shows a console whose cursor was moved. -/
theorem moveCursor_becomes (hx : x < VGA_WIDTH) (hy : y < VGA_HEIGHT)
    (hdrawn : active = true → Drawn (s.consoles index) s.kernel) :
    Yields E (moveCursor index x y active) s fun _ s' =>
      Becomes active index { s.consoles index with cursorX := x, cursorY := y }
        (Shown { s.consoles index with cursorX := x, cursorY := y }) s s' := by
  rw [moveCursor, updateConsole]
  refine yields_modify_bind (yields_ite (fun hactive => ?_) fun hhidden => yields_pure ?_)
  · refine yields_ok_bind (consoleSetCursor_ok hx hy) (setHardwareCursor_yields.mono ?_)
    rintro _ _ ⟨k, rfl, hmemory, hkx, hky, hflags⟩
    refine ⟨rfl, rfl, fun _ => ⟨⟨?_, ?_⟩, hkx, hky⟩, fun hhidden => ?_⟩
    · exact hmemory.trans (hdrawn hactive).memory
    · exact hflags.trans (hdrawn hactive).flags
    · rw [hactive] at hhidden
      cases hhidden
  · exact becomes_setConsole fun hactive => (hhidden hactive).elim

theorem switchIf_becomes (h : Framed index (s.consoles index)) :
    Yields E (switchIf active index) s fun _ s' =>
      Becomes active index (s.consoles index) (Shown (s.consoles index)) s s' := by
  rw [switchIf]
  refine yields_ite (fun hactive => ?_) fun hhidden => yields_pure ?_
  · refine (virtConsoleSwitchTo_shown h.x h.bottom).mono ?_
    rintro _ _ ⟨k, rfl, hshown⟩
    refine ⟨(Function.update_eq_self _ _).symm, rfl, fun _ => hshown, fun hhidden => ?_⟩
    rw [hactive] at hhidden
    cases hhidden
  · exact ⟨(Function.update_eq_self _ _).symm, rfl, fun hactive => (hhidden hactive).elim,
      fun _ => rfl⟩

end

section

variable {index : Index} {c : VirtConsole} {x y : Nat} {s s' s'' : System} {active : Bool}
    {chr byte : BitVec 8}
  {E : Stop → Prop}

theorem erase_eq (c : VirtConsole) : erase c =
    { write c (erase c).cursorX (erase c).cursorY 0x20 with
      cursorX := (erase c).cursorX
      cursorY := (erase c).cursorY } := by
  unfold erase
  split <;> rfl

theorem stepBack_erase (h : Framed index c) :
    stepBack c.cursorX c.cursorY = (((erase c).cursorX : Int), ((erase c).cursorY : Int)) := by
  have htop := h.top
  rcases Nat.eq_zero_or_pos c.cursorX with hzero | hpos
  · have herase : (erase c).cursorX = VGA_WIDTH - 1 ∧
      (erase c).cursorY = max 1 (c.cursorY - 1) := by
      rw [erase, if_pos hzero]
      exact ⟨rfl, rfl⟩
    rw [herase.1, herase.2, stepBack, if_pos (by omega)]
    refine Prod.ext rfl ?_
    dsimp only
    split <;> omega
  · have herase : (erase c).cursorX = c.cursorX - 1 ∧ (erase c).cursorY = c.cursorY := by
      rw [erase, if_neg (by omega)]
      exact ⟨rfl, rfl⟩
    have hline : ¬(c.cursorY : Int) < 1 := by omega
    rw [herase.1, herase.2, stepBack, if_neg (by omega)]
    dsimp only
    rw [if_neg hline]
    refine Prod.ext ?_ rfl
    dsimp only
    omega

theorem setConsole_self : (s.setConsole index c).consoles index = c := Function.update_self ..

theorem eraseChar_becomes (h : Framed index (s.consoles index)) :
    Yields E (eraseChar index (s.consoles index).cursorX (s.consoles index).cursorY active) s
      fun _ s' =>
      Becomes active index (erase (s.consoles index)) (Shown (erase (s.consoles index))) s s' := by
  have herased := framed_erase h
  rw [eraseChar, stepBack_erase h]
  refine yields_get_bind (yields_ok_bind (storeChar_ok herased.x herased.bottom _) ?_)
  have hframed := @framed_write _ _ (erase (s.consoles index)).cursorX _ 0x20 h herased.top
  refine (switchIf_becomes (s := s.setConsole index _) ?_).bind ?_
  · rw [setConsole_self]
    exact hframed
  intro _ s₁ hs₁
  rw [setConsole_self] at hs₁
  refine (moveCursor_becomes (x := (erase (s.consoles index)).cursorX)
    (y := (erase (s.consoles index)).cursorY) herased.x herased.bottom ?_).mono fun _ s' hs' => ?_
  · intro hactive
    rw [hs₁.self]
    exact (hs₁.shown hactive).toDrawn
  · rw [hs₁.self] at hs'
    have hset := @becomes_setConsole index
      (write (s.consoles index) (erase (s.consoles index)).cursorX
        (erase (s.consoles index)).cursorY 0x20)
      s active (fun _ => True) fun _ => trivial
    rw [erase_eq]
    exact hset.trans (hs₁.trans hs')

theorem virtConsoleScrollUp_ok : virtConsoleScrollUp index s = .ok ((), s.setConsole index
    { s.consoles index with data := scrolled 2 CONSOLE_BLANK (s.consoles index).data }) := by
  have hscroll : scrollUp 2 CONSOLE_BLANK (s.consoles index).data =
      .ok (scrolled 2 CONSOLE_BLANK (s.consoles index).data) := scrollUp_eq (by decide) (by decide)
  unfold virtConsoleScrollUp
  exact drawConsole_ok hscroll

/-- The cursor goes on, to the next line behind the last column. -/
theorem advanceCursor_becomes (h : Framed index (s.consoles index)) (hx : x ≤ VGA_WIDTH)
    (hy : 1 ≤ y ∧ y ≤ VGA_HEIGHT) (hline : x = VGA_WIDTH → y < VGA_HEIGHT)
    (hdrawn : active = true → Drawn (s.consoles index) s.kernel) :
    Yields E (advanceCursor index x y active) s fun _ s' =>
      Becomes active index
        (if x = VGA_WIDTH then goTo (s.consoles index) 0 (y + 1) else goTo (s.consoles index) x y)
        (Shown (if x = VGA_WIDTH then goTo (s.consoles index) 0 (y + 1) else goTo
          (s.consoles index) x y))
        s s' := by
  -- the position after the line break
  have hmove : ∀ {x y : Nat}, x < VGA_WIDTH → 1 ≤ y → y ≤ VGA_HEIGHT →
      Yields E (if (VGA_HEIGHT : Int) ≤ y then do
          virtConsoleScrollUp index
          updateConsole index fun c =>
            { c with cursorX := (x : Int).toNat, cursorY := VGA_HEIGHT - 1 }
          switchIf active index
        else moveCursor index (x : Int).toNat (y : Int).toNat active) s fun _ s' =>
        Becomes active index (goTo (s.consoles index) x y) (Shown (goTo (s.consoles index) x y))
          s s' := by
    intro x y hx hpos hle
    rw [Int.toNat_natCast, Int.toNat_natCast]
    refine yields_ite (fun hover => ?_) fun hfits => ?_
    · have hgo : goTo (s.consoles index) x y = { s.consoles index with
          data := scrolled 2 CONSOLE_BLANK (s.consoles index).data
          cursorX := x
          cursorY := VGA_HEIGHT - 1 } := if_pos (by exact_mod_cast hover)
      have hframed := framed_goTo h hx ⟨hpos, hle⟩
      rw [hgo] at hframed ⊢
      refine yields_ok_bind virtConsoleScrollUp_ok ?_
      rw [updateConsole]
      refine yields_modify_bind ?_
      rw [setConsole_self]
      refine (switchIf_becomes ?_).mono fun _ s' hs' => ?_
      · rw [setConsole_self]
        exact hframed
      · rw [setConsole_self] at hs'
        have hset := @becomes_setConsole index
          { s.consoles index with data := scrolled 2 CONSOLE_BLANK (s.consoles index).data }
          s active (fun _ => True) fun _ => trivial
        exact (hset.trans (becomes_setConsole (P := fun _ => True) fun _ => trivial)).trans hs'
    · have hgo : goTo (s.consoles index) x y =
        { s.consoles index with cursorX := x, cursorY := y } :=
        if_neg fun hge => hfits (by exact_mod_cast hge)
      rw [hgo]
      exact moveCursor_becomes hx (by omega) hdrawn
  rw [advanceCursor, wrapLine]
  rcases Nat.lt_or_ge x VGA_WIDTH with hlt | hge
  · have hcol : ¬(VGA_WIDTH : Int) ≤ x := by omega
    rw [if_neg hcol, if_neg (Nat.ne_of_lt hlt)]
    exact hmove hlt hy.1 hy.2
  · have hcol : (VGA_WIDTH : Int) ≤ x := by omega
    rw [if_pos hcol, if_pos (Nat.le_antisymm hx hge)]
    exact hmove (Nat.zero_lt_succ _) (Nat.succ_pos y) (hline (Nat.le_antisymm hx hge))

end

section

variable {index : Index} {c : VirtConsole} {s s' : System} {active : Bool} {chr byte : BitVec 8}
  {E : Stop → Prop}

theorem overwrite_one (screen : Screen) (p : Nat) (value : BitVec 16) :
    overwrite screen p 1 (listed [value] p) = put screen p value := by
  have hlisted : listed [value] p p = value := by
    rw [listed, Nat.sub_self, List.getD_cons_zero]
  rw [← overwrite_put, overwrite_zero, hlisted]

theorem rawMode_shown {k : Console} (h : k.consoleFlags = SHOWN) : k.rawMode = true := by
  rw [Console.rawMode, h]
  decide

/-- The cursor of the kernel is where the character belongs. -/
theorem writeChar_becomes (h : Framed index (s.consoles index))
    (hshown : active = true → Shown (s.consoles index) s.kernel) :
    Yields E (writeChar index chr (s.consoles index).cursorX (s.consoles index).cursorY active) s
      fun _ s' =>
      Becomes active index
        (write (s.consoles index) (s.consoles index).cursorX (s.consoles index).cursorY chr)
        (Drawn (write (s.consoles index) (s.consoles index).cursorX (s.consoles index).cursorY chr))
          s s' := by
  rw [writeChar]
  refine yields_get_bind (yields_ok_bind (storeChar_ok h.x h.bottom _) ?_)
  refine yields_ite (fun hactive => ?_) fun hhidden => yields_pure ?_
  · obtain ⟨⟨hmemory, hflags⟩, hx, hy⟩ := hshown hactive
    have hat : At (charOffset (s.consoles index).cursorX (s.consoles index).cursorY) s.kernel := by
      refine ⟨?_, ?_, ?_⟩
      · rw [hx]
        exact h.x
      · rw [hy]
        exact h.bottom
      · rw [hx, hy]
    have hlength : charOffset (s.consoles index).cursorX (s.consoles index).cursorY +
        [makeRawChar (s.consoles index).color chr].length ≤ VGA_WIDTH * VGA_HEIGHT :=
      Nat.succ_le_of_lt (charOffset_lt h.x h.bottom)
    rw [consoleWriteRaw]
    refine (syscall_yields (s := s.setConsole index _)
      (consoleWriteRawLen_raw (rawMode_shown hflags) hat hlength)).mono ?_
    rintro _ _ ⟨k, rfl, hmemory', -, hflags'⟩
    refine ⟨rfl, rfl, fun _ => ⟨?_, hflags'.trans hflags⟩, fun hhidden => ?_⟩
    · refine hmemory'.trans ((overwrite_one _ _ _).trans ?_)
      change put s.kernel.videoTextMemory _ _ = put (s.consoles index).data _ _
      rw [hmemory]
    · rw [hactive] at hhidden
      cases hhidden
  · exact becomes_setConsole fun hactive => (hhidden hactive).elim

theorem virtConsolePutChar_becomes (h : Framed index (s.consoles index))
    (hshown : active = true → Shown (s.consoles index) s.kernel) :
    Yields E (virtConsolePutChar index chr active) s fun _ s' =>
      Becomes active index (print (s.consoles index) chr) (Shown (print (s.consoles index) chr))
        s s' := by
  have hx := h.x
  have hbottom := h.bottom
  rw [virtConsolePutChar]
  refine yields_get_bind ?_
  dsimp only
  rcases eq_or_ne chr 127 with rfl | hdelete
  · rw [if_pos rfl, print, if_pos rfl]
    exact eraseChar_becomes h
  rw [if_neg hdelete, print, if_neg hdelete]
  rcases eq_or_ne chr 0x0A with rfl | hbreak
  · rw [if_neg (by simp), if_pos rfl]
    refine (advanceCursor_becomes (x := 0) (y := (s.consoles index).cursorY + 1) h (Nat.zero_le _)
      ⟨Nat.succ_pos _, hbottom⟩ nofun fun hactive => (hshown hactive).toDrawn).mono fun _ s' hs' =>
        ?_
    rwa [if_neg (by decide)] at hs'
  · rw [if_pos hbreak, if_neg hbreak]
    refine (writeChar_becomes h hshown).bind fun _ s₁ hs₁ => ?_
    have hwritten := @framed_write _ _ (s.consoles index).cursorX _ chr h h.top
    refine (advanceCursor_becomes (x := (s.consoles index).cursorX + 1)
      (y := (s.consoles index).cursorY)
      ?_ hx ⟨h.top, hbottom.le⟩ (fun _ => hbottom) ?_).mono fun _ s' hs' => ?_
    · rw [hs₁.self]
      exact hwritten
    · intro hactive
      rw [hs₁.self]
      exact hs₁.shown hactive
    · rw [hs₁.self] at hs'
      exact hs₁.trans hs'

end

section

variable {index : Index} {c : VirtConsole} {s s' : System} {active : Bool} {byte : BitVec 8}
  {E : Stop → Prop}

theorem becomes_refl {P : Console → Prop} (h : active = true → P s.kernel) :
    Becomes active index (s.consoles index) P s s :=
  ⟨(Function.update_eq_self _ _).symm, rfl, h, fun _ => rfl⟩

theorem virtConsoleProcessEscape_becomes (h : Framed index (s.consoles index))
    (hshown : active = true → Shown (s.consoles index) s.kernel)
    (hescape : (s.consoles index).escape = true) :
    Yields E (virtConsoleProcessEscape index active) s fun _ s' =>
      Becomes active index
        (command (s.consoles index) (s.consoles index).escapeCode (s.consoles index).escapeValue)
        (Shown (command (s.consoles index) (s.consoles index).escapeCode
          (s.consoles index).escapeValue))
        s s' := by
  have hdrawn : active = true → Drawn (s.consoles index) s.kernel :=
    fun hactive => (hshown hactive).toDrawn
  have hx := h.x
  have hbottom := h.bottom
  rw [virtConsoleProcessEscape]
  refine yields_get_bind ?_
  dsimp only
  refine yields_ite (fun hfalse => ?_) fun _ => ?_
  · rw [hescape] at hfalse
    cases hfalse
  refine yields_ite (fun hcode => ?_) fun hcolor => ?_
  · rw [command, if_pos hcode]
    refine yields_modify (becomes_setConsole fun hactive => ?_)
    exact ⟨⟨(hshown hactive).memory, (hshown hactive).flags⟩, (hshown hactive).x,
      (hshown hactive).y⟩
  rw [command, if_neg hcolor]
  refine yields_ite (fun hcode => ?_) fun hother => yields_pure ?_
  · rcases eq_or_ne (s.consoles index).escapeCode ESCAPE_CURSORX with hcolumn | hcolumn
    · have hline : (s.consoles index).escapeCode ≠ ESCAPE_CURSORY := by
        rw [hcolumn]
        decide
      simp only [if_pos hcolumn, if_neg hline]
      refine yields_ite (fun hin => ?_) fun hout => yields_pure ?_
      · rw [if_pos hin.1]
        exact moveCursor_becomes hin.1 hin.2 hdrawn
      · rw [if_neg fun hlt => hout ⟨hlt, hbottom⟩]
        exact becomes_refl hshown
    · have hline := hcode.resolve_left hcolumn
      simp only [if_neg hcolumn, if_pos hline]
      refine yields_ite (fun hin => ?_) fun hout => yields_pure ?_
      · rw [if_pos hin.2]
        exact moveCursor_becomes hin.1 hin.2 hdrawn
      · rw [if_neg fun hlt => hout ⟨hx, hlt⟩]
        exact becomes_refl hshown
  · rw [if_neg fun hcolumn => hother (Or.inl hcolumn), if_neg fun hline => hother (Or.inr hline)]
    exact becomes_refl hshown

theorem command_value (c : VirtConsole) (code value : BitVec 8) :
    { command { c with escapeValue := value } code value with escape := false } =
      { command c code value with escapeValue := value, escape := false } := by
  unfold command
  split
  · rfl
  · split
    · split <;> rfl
    · split
      · split <;> rfl
      · rfl

/-- One byte in `main` is one byte for the console, whether it is shown or not. -/
theorem receiveByte_becomes (h : Framed index (s.consoles index))
    (hshown : Shown (s.consoles s.currentConsole) s.kernel) :
    Yields E (receiveByte index byte) s fun _ s' =>
      Becomes (decide (index = s.currentConsole)) index (receive (s.consoles index) byte)
        (Shown (receive (s.consoles index) byte)) s s' := by
  have hshown : decide (index = s.currentConsole) = true → Shown (s.consoles index) s.kernel := by
    intro hactive
    rw [of_decide_eq_true hactive]
    exact hshown
  rw [receiveByte]
  refine yields_get_bind ?_
  dsimp only
  have hsame : ∀ {c' : VirtConsole}, c'.data = (s.consoles index).data →
      c'.cursorX = (s.consoles index).cursorX → c'.cursorY = (s.consoles index).cursorY →
      decide (index = s.currentConsole) = true → Shown c' s.kernel := by
    intro c' hdata hx hy hactive
    obtain ⟨⟨hmemory, hflags⟩, hkx, hky⟩ := hshown hactive
    exact ⟨⟨hmemory.trans hdata.symm, hflags⟩, hkx.trans hx.symm, hky.trans hy.symm⟩
  refine yields_ite (fun hstart => ?_) fun hstart => ?_
  · have hreceive : receive (s.consoles index) byte =
        { s.consoles index with escape := true, escapeCode := 0, escapeValue := 0 } := by
      rw [receive, hstart.1, if_neg nofun, if_pos hstart.2]
    rw [hreceive]
    exact yields_modify (becomes_setConsole (hsame rfl rfl rfl))
  refine yields_ite (fun hescape => ?_) fun hescape => ?_
  · refine yields_ite (fun hcode => ?_) fun hcode => ?_
    · have hreceive : receive (s.consoles index) byte =
        { s.consoles index with escapeCode := byte } := by
        rw [receive, if_pos hescape, if_pos hcode]
      rw [hreceive]
      exact yields_modify (becomes_setConsole (hsame rfl rfl rfl))
    · have hreceive : receive (s.consoles index) byte =
        { command { s.consoles index with escapeValue := byte }
          (s.consoles index).escapeCode byte with escape := false } := by
        rw [receive, if_pos hescape, if_neg hcode, command_value]
      have hset : Becomes (decide (index = s.currentConsole)) index
        { s.consoles index with escapeValue := byte }
          (Shown { s.consoles index with escapeValue := byte }) s
          (s.setConsole index { s.consoles index with escapeValue := byte }) :=
        becomes_setConsole (hsame rfl rfl rfl)
      rw [hreceive, updateConsole]
      refine yields_modify_bind
        ((@virtConsoleProcessEscape_becomes index _ _ _ ?_ ?_ ?_).bind fun _ s₁ hs₁ => ?_)
      · rw [setConsole_self]
        exact ⟨h.x, h.top, h.bottom, h.header⟩
      · rw [setConsole_self]
        exact hset.shown
      · rw [setConsole_self]
        exact hescape
      · rw [setConsole_self] at hs₁
        have hs₁' := hset.trans hs₁
        refine yields_modify ?_
        rw [hs₁'.self]
        refine hs₁'.trans (becomes_setConsole fun hactive => ?_)
        obtain ⟨⟨hmemory, hflags⟩, hkx, hky⟩ := hs₁'.shown hactive
        exact ⟨⟨hmemory, hflags⟩, hkx, hky⟩
  · have hreceive : receive (s.consoles index) byte = print (s.consoles index) byte := by
      rw [receive, if_neg hescape, if_neg fun hbyte => hstart ⟨by simpa using hescape, hbyte⟩]
    rw [hreceive]
    exact virtConsolePutChar_becomes h hshown

end

section

/-! All consoles together, along a run of `main`. -/

variable {pipes : Pipes} {index : Index} {c : VirtConsole} {s s' : System}
    {sent : Index → List (BitVec 8)}
  {E : Stop → Prop}

/-- The console after a sequence of bytes. -/
def received (pipes : Pipes) (index : Index) (bytes : List (BitVec 8)) : VirtConsole :=
  bytes.foldl receive (fresh pipes index)

theorem framed_foldl (h : Framed index c) (bytes : List (BitVec 8)) :
    Framed index (bytes.foldl receive c) := by
  induction bytes generalizing c with
  | nil => exact h
  | cons byte bytes ih => exact ih (framed_receive h byte)

theorem output_receive (c : VirtConsole) (byte : BitVec 8) :
    (receive c byte).output = c.output := by
  unfold receive print command goTo erase
  repeat' split
  all_goals rfl

theorem output_foldl (c : VirtConsole) (bytes : List (BitVec 8)) :
    (bytes.foldl receive c).output = c.output := by
  induction bytes generalizing c with
  | nil => rfl
  | cons byte bytes ih => exact (ih _).trans (output_receive c byte)

/-- The screen shows the current console, and each console has received what was sent to it. -/
structure Mirrors (pipes : Pipes) (sent : Index → List (BitVec 8)) (s : System) : Prop where
  shown : Shown (s.consoles s.currentConsole) s.kernel
  consoles : ∀ i, s.consoles i = received pipes i (sent i)

theorem Mirrors.framed (h : Mirrors pipes sent s) (i : Index) : Framed i (s.consoles i) := by
  rw [h.consoles]
  exact framed_foldl (framed_fresh pipes i) _

theorem Mirrors.output (h : Mirrors pipes sent s) (i : Index) :
    (s.consoles i).output = pipes.output i := by
  rw [h.consoles]
  exact output_foldl _ _

theorem Mirrors.receiveByte (h : Mirrors pipes sent s) (index : Index) (byte : BitVec 8) :
    Yields E (VirtualConsoles.receiveByte index byte) s fun _ s' =>
      Mirrors pipes (Function.update sent index (sent index ++ [byte])) s' := by
  refine (receiveByte_becomes (h.framed index) h.shown).mono fun _ s' hs' => ⟨?_, fun i => ?_⟩
  · rw [hs'.current]
    rcases eq_or_ne index s.currentConsole with heq | hne
    · rw [← heq, hs'.self]
      exact hs'.shown (decide_eq_true heq)
    · rw [hs'.consoles, Function.update_of_ne hne.symm, hs'.hidden (decide_eq_false hne)]
      exact h.shown
  · rw [hs'.consoles]
    rcases eq_or_ne i index with rfl | hne
    · rw [Function.update_self, Function.update_self, h.consoles, received, received,
        List.foldl_append]
      rfl
    · rw [Function.update_of_ne hne, Function.update_of_ne hne, h.consoles]

theorem Mirrors.outputLoop (h : Mirrors pipes sent s) (index : Index) (bytes : List (BitVec 8)) :
    Yields E (VirtualConsoles.outputLoop index bytes) s fun _ s' =>
      Mirrors pipes (Function.update sent index (sent index ++ bytes)) s' := by
  induction bytes generalizing s sent with
  | nil =>
      refine yields_pure ?_
      rw [List.append_nil, Function.update_eq_self]
      exact h
  | cons byte bytes ih =>
      rw [VirtualConsoles.outputLoop]
      refine (h.receiveByte index byte).bind fun _ s₁ hs₁ => (ih hs₁).mono fun _ s' hs' => ?_
      rwa [Function.update_idem, Function.update_self, List.append_assoc] at hs'

theorem Mirrors.switchTo (h : Mirrors pipes sent s) (i : Index) :
    Yields E (virtConsoleSwitchTo i) { s with currentConsole := i } fun _ s' =>
      Mirrors pipes sent s' := by
  have hframed : Framed i (({ s with currentConsole := i } : System).consoles i) := h.framed i
  refine (virtConsoleSwitchTo_shown hframed.x hframed.bottom).mono ?_
  rintro _ _ ⟨k, rfl, hshown⟩
  exact ⟨hshown, h.consoles⟩

theorem Mirrors.stdinLoop (h : Mirrors pipes sent s) (bytes : List (BitVec 8)) :
    Yields E (VirtualConsoles.stdinLoop bytes) s fun _ s' => Mirrors pipes sent s' := by
  induction bytes generalizing s with
  | nil => exact yields_pure h
  | cons byte bytes ih =>
      rw [VirtualConsoles.stdinLoop]
      refine yields_ite (fun _ => ?_) fun _ => ih h
      exact yields_modify_bind (yields_get_bind ((h.switchTo _).bind fun _ s₁ hs₁ => ih hs₁))

/-- The search finds the console which belongs to the handle. -/
theorem findConsole_spec {consoles : Index → VirtConsole}
    (hout : ∀ i, (consoles i).output = pipes.output i)
    {handle : Int} {rounds start : Nat} (hend : NUM_VIRT_CONSOLES ≤ start + rounds) :
    (∀ i, findConsole consoles handle rounds start = some i → pipes.output i = handle) ∧
      (findConsole consoles handle rounds start = none → ∀ i : Index, start ≤ i.val →
        pipes.output i ≠ handle) := by
  induction rounds generalizing start with
  | zero => exact ⟨nofun, fun _ i hi => by have := i.isLt; omega⟩
  | succ rounds ih =>
      rw [findConsole]
      split
      · next hlt =>
        split
        · next hne =>
          obtain ⟨hsome, hnone⟩ := @ih (start + 1) (by omega)
          refine ⟨hsome, fun hfind i hi => ?_⟩
          rcases Nat.eq_or_lt_of_le hi with heq | hgt
          · obtain rfl : i = ⟨start, hlt⟩ := Fin.ext heq.symm
            rw [← hout]
            exact hne
          · exact hnone hfind i hgt
        · next heq =>
          refine ⟨fun i hi => ?_, nofun⟩
          obtain rfl := Option.some.inj hi
          rw [← hout]
          exact not_not.mp heq
      · exact ⟨nofun, fun _ i hi => by have := i.isLt; omega⟩

end

section

variable {pipes : Pipes} {index : Index} {s s' : System} {sent : Index → List (BitVec 8)}
    {E : Stop → Prop}

/-- The bytes of an event which are sent to a console. -/
def sentBy (pipes : Pipes) (index : Index) (e : Event) : List (BitVec 8) :=
  if e.handle = pipes.output index then e.bytes else []

/-- All bytes which are sent to a console, whatever comes between them. -/
def sentTo (pipes : Pipes) (index : Index) (events : List Event) : List (BitVec 8) :=
  events.flatMap (sentBy pipes index)

theorem Mirrors.handleEvent (h : Mirrors pipes sent s) (e : Event) :
    Yields E (VirtualConsoles.handleEvent e) s fun _ s' =>
      Mirrors pipes (fun i => sent i ++ sentBy pipes i e) s' := by
  have hnobody : (∀ i, pipes.output i ≠ e.handle) → (fun i => sent i ++ sentBy pipes i e) =
    sent := by
    intro hne
    funext i
    rw [sentBy, if_neg (hne i).symm, List.append_nil]
  rw [VirtualConsoles.handleEvent]
  refine yields_ite (fun hneg => ?_) fun _ => yields_ite (fun hne => yields_get_bind ?_)
    fun hzero => ?_
  · rw [hnobody fun i heq => by have := pipes.positive i; omega]
    exact yields_pure h
  · obtain ⟨hsome, hnone⟩ := @findConsole_spec pipes _ h.output e.handle _ 0 (Nat.zero_add _).ge
    split
    · next index hfind =>
      have hindex := hsome index hfind
      refine (h.outputLoop index e.bytes).mono fun _ s' hs' => ?_
      have hsent : (fun i => sent i ++ sentBy pipes i e) =
          Function.update sent index (sent index ++ e.bytes) := by
        funext i
        rcases eq_or_ne i index with rfl | hother
        · rw [Function.update_self, sentBy, if_pos hindex.symm]
        · have hhandle : e.handle ≠ pipes.output i := by
            rw [← hindex]
            exact fun heq => hother (pipes.injective heq).symm
          rw [Function.update_of_ne hother, sentBy, if_neg hhandle, List.append_nil]
      rwa [hsent]
    · next hfind =>
      rw [hnobody fun i => hnone hfind i (Nat.zero_le _)]
      exact yields_pure h
  · rw [hnobody fun i heq => by have := pipes.positive i; omega]
    exact h.stdinLoop e.bytes

theorem Mirrors.handleEvents (h : Mirrors pipes sent s) (events : List Event) :
    Yields E (VirtualConsoles.handleEvents events) s fun _ s' =>
      Mirrors pipes (fun i => sent i ++ sentTo pipes i events) s' := by
  induction events generalizing s sent with
  | nil =>
      refine yields_pure ?_
      simpa [sentTo] using h
  | cons e events ih =>
      rw [VirtualConsoles.handleEvents]
      refine (h.handleEvent e).bind fun _ s₁ hs₁ => (ih hs₁).mono fun _ s' hs' => ?_
      simpa [sentTo, List.append_assoc] using hs'

theorem initScreen_eq (screen : Screen) :
    initScreen index screen =
      .ok (overwrite (fun _ => CONSOLE_BLANK) 0 VGA_WIDTH (headerChar index)) := by
  have hblank : overwrite screen 0 (VGA_WIDTH * VGA_HEIGHT) (fun _ => CONSOLE_BLANK) = fun _ =>
    CONSOLE_BLANK := by
    funext o
    exact if_pos ⟨Nat.zero_le _, (Nat.zero_add _).symm ▸ o.isLt⟩
  unfold initScreen
  refine Runs.bind_eq_ok.mpr ⟨_, fillLoop_eq (Nat.zero_add _).le, ?_⟩
  rw [hblank]
  exact fillLoop_eq (by decide)

theorem virtConsoleInit_ok (pipes : Pipes) (index : Index) (s : System) :
    virtConsoleInit (pipes.output index) index s =
      .ok ((), s.setConsole index (fresh pipes index)) := by
  have hpositive : ¬pipes.output index < 0 := by
    have := pipes.positive index
    omega
  have hdraw := drawConsole_ok (@initScreen_eq index (s.consoles index).data)
  rw [virtConsoleInit, bind_apply, hdraw]
  dsimp only
  rw [updateConsole]
  change (if pipes.output index < 0 then throw .assertion else pure () : M Unit) _ = _
  rw [if_neg hpositive]
  change Except.ok ((), _) = _
  dsimp only
  rw [setConsole_self, System.setConsole, System.setConsole, System.setConsole,
    Function.update_idem]
  rfl

/-- The consoles are set up one after the other. -/
theorem initLoop_ok {rounds start : Nat} : Yields E (initLoop pipes rounds start) s fun _ s' =>
    s'.currentConsole = s.currentConsole ∧
      ∀ i : Index, (start ≤ i.val → i.val < start + rounds → s'.consoles i = fresh pipes i) ∧
        (i.val < start → s'.consoles i = s.consoles i) := by
  induction rounds generalizing s start with
  | zero => exact yields_pure ⟨rfl, fun i => ⟨fun hle hlt => by omega, fun _ => rfl⟩⟩
  | succ rounds ih =>
      rw [initLoop]
      split
      · next hlt =>
        refine yields_ok_bind (virtConsoleInit_ok pipes ⟨start, hlt⟩ s)
          ((@ih _ (start + 1)).mono ?_)
        rintro _ s' ⟨hcurrent, hs'⟩
        refine ⟨hcurrent, fun i => ⟨fun hle hend => ?_, fun hbefore => ?_⟩⟩
        · rcases Nat.eq_or_lt_of_le hle with heq | hgt
          · obtain rfl : i = ⟨start, hlt⟩ := Fin.ext heq.symm
            rw [(hs' _).2 (Nat.lt_succ_self start), setConsole_self]
          · exact (hs' i).1 hgt (by omega)
        · rw [(hs' i).2 (by omega)]
          exact Function.update_of_ne (fun heq => by rw [heq] at hbefore; exact lt_irrefl _ hbefore)
            _ _
      · next hge =>
          exact yields_pure ⟨rfl, fun i => ⟨fun hle _ => by have := i.isLt; omega, fun _ => rfl⟩⟩

theorem initialise_mirrors (pipes : Pipes) (s : System) :
    Yields E (initialise pipes) s fun _ s' => Mirrors pipes (fun _ => []) s' := by
  rw [initialise]
  refine yields_modify_bind (initLoop_ok.bind ?_)
  rintro _ s₁ ⟨-, hs₁⟩
  have hconsoles : ∀ i, s₁.consoles i = received pipes i [] := by
    intro i
    exact (hs₁ i).1 (Nat.zero_le _) ((Nat.zero_add _).symm ▸ i.isLt)
  have hframed : Framed s₁.currentConsole (s₁.consoles s₁.currentConsole) := by
    rw [hconsoles]
    exact framed_fresh pipes _
  refine yields_get_bind ((virtConsoleSwitchTo_shown hframed.x hframed.bottom).mono ?_)
  rintro _ _ ⟨k, rfl, hshown⟩
  exact ⟨hshown, hconsoles⟩

theorem exists_ok_of_yields {α : Type} {m : M α} {Q : α → System → Prop}
    (h : Yields (fun _ => False) m s Q) : ∃ a s', m s = .ok (a, s') ∧ Q a s' := by
  rcases hm : m s with e | ⟨a, s'⟩
  · exact (h.of_error hm).elim
  · exact ⟨a, s', rfl, h.of_ok hm⟩

/-- After any events the screen mirrors the current console, and each console is what its own
bytes make of it. -/
theorem screen_mirrors_console (pipes : Pipes) (s₀ : System) (events : List Event) :
    ∃ s, (do initialise pipes; VirtualConsoles.handleEvents events) s₀ = .ok ((), s) ∧
      s.kernel.videoTextMemory = (s.consoles s.currentConsole).data ∧
      s.kernel.cursorX = (s.consoles s.currentConsole).cursorX ∧
      s.kernel.cursorY = (s.consoles s.currentConsole).cursorY ∧
      (∀ i, Framed i (s.consoles i)) ∧
      ∀ i, s.consoles i = received pipes i (sentTo pipes i events) := by
  obtain ⟨_, s, hok, hs⟩ := exists_ok_of_yields
    ((initialise_mirrors pipes s₀).bind fun _ s₁ hs₁ => hs₁.handleEvents events)
  exact ⟨s, hok, hs.shown.memory, hs.shown.x, hs.shown.y, hs.framed, hs.consoles⟩

end

end Ibnos.ScreenMirror
