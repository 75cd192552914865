import Ibnos.Runs

/-!
The two interrupt controllers and the handlers of their lines. All that comes to the handlers are
the requests on the lines of the first controller.
-/

namespace Ibnos.InterruptControllers

open Ibnos.Runs

def IRQ_COUNT : Nat := 16

def IRQ_SLAVE : Nat := 2

def IDT_MAX_COUNT : Nat := 256

def ICW1_ICW4 : BitVec 8 := 0x01

def ICW1_INIT : BitVec 8 := 0x10

def ICW4_8086 : BitVec 8 := 0x01

def PIC_EOI : BitVec 8 := 0x20

/-! The controllers. -/

/-- What a controller takes the next byte at its data port for. -/
inductive Phase
  | mask
  | offset (single icw4 : Bool)
  | cascade (icw4 : Bool)
  | mode
  deriving DecidableEq, Repr

structure Controller where
  request : BitVec 8
  mask : BitVec 8
  inService : BitVec 8
  offset : BitVec 8
  phase : Phase
  deriving DecidableEq

/-- The next `n` lines from `i` on. -/
def firstLine (p : Nat → Bool) : Nat → Nat → Option Nat
  | 0, _ => none
  | n + 1, i => if p i then some i else firstLine p n (i + 1)

def clearLine (b : BitVec 8) (line : Nat) : BitVec 8 := b &&& ~~~(1#8 <<< line)

def setLine (b : BitVec 8) (line : Nat) : BitVec 8 := b ||| 1#8 <<< line

/-- Of the lines in service the first one is over. -/
def endOfInterrupt (inService : BitVec 8) : BitVec 8 :=
  match firstLine inService.getLsbD 8 0 with
  | some line => clearLine inService line
  | none => inService

/-- The other commands are not used. -/
def Controller.writeCommand (c : Controller) (b : BitVec 8) : Controller :=
  if b.getLsbD 4 = true then
    { c with
      request := 0
      mask := 0
      inService := 0
      phase := .offset (b.getLsbD 1) (b.getLsbD 0) }
  else if b = PIC_EOI then { c with inService := endOfInterrupt c.inService }
  else c

def afterCascade (icw4 : Bool) : Phase := if icw4 then .mode else .mask

def Controller.writeData (c : Controller) (b : BitVec 8) : Controller :=
  match c.phase with
  | .mask => { c with mask := b }
  | .offset single icw4 =>
      { c with
        offset := b &&& 0xF8
        phase := if single then afterCascade icw4 else .cascade icw4 }
  | .cascade icw4 => { c with phase := afterCascade icw4 }
  | .mode => { c with phase := .mask }

/-- The line whose interrupt the controller asks for. It waits for the lines before it and for
itself to be over. -/
def Controller.pending (c : Controller) (requests : Nat → Bool) : Option Nat :=
  match firstLine (fun k => c.inService.getLsbD k || (requests k && !c.mask.getLsbD k)) 8 0 with
  | some line => if c.inService.getLsbD line = true then none else some line
  | none => none

/-- The processor has taken the interrupt of the line. -/
def Controller.acknowledge (c : Controller) (line : Nat) : Controller :=
  { c with request := clearLine c.request line, inService := setLine c.inService line }

/-! The kernel. -/

inductive InterruptCallback
  | interruptIrq
  | other
  deriving DecidableEq, Repr

inductive Port
  | pic1Command
  | pic1Data
  | pic2Command
  | pic2Data
  deriving DecidableEq, Repr

/-- The controllers and the tables. The callbacks of the drivers are from `κ`. -/
structure State (κ : Type) where
  pic1 : Controller
  pic2 : Controller
  irqBase : BitVec 32
  irqTable : Nat → Option κ
  interruptTable : Nat → Option InterruptCallback

inductive Stop
  | assertion
  deriving DecidableEq, Repr

inductive Event (κ : Type)
  /-- A device wants an interrupt. -/
  | request (line : Nat)
  | picReserveIRQ (irq : Nat) (callback : κ)
  | picFreeIRQ (irq : Nat)
  /-- The processor takes the interrupt which it is asked for, if there is one. -/
  | accept

inductive Output (κ : Type)
  | nothing
  | reserved (success : Bool)
  /-- `interrupt_irq` was called for the line, and has called the callback if there is one. -/
  | handled (irq : Nat) (callback : Option κ)
  /-- An interrupt of the controllers which is none of `interrupt_irq`. -/
  | stray (interrupt : Nat)

section

variable {κ : Type}

def outb (s : State κ) (port : Port) (b : BitVec 8) : State κ :=
  match port with
  | .pic1Command => { s with pic1 := s.pic1.writeCommand b }
  | .pic1Data => { s with pic1 := s.pic1.writeData b }
  | .pic2Command => { s with pic2 := s.pic2.writeCommand b }
  | .pic2Data => { s with pic2 := s.pic2.writeData b }

def dataPort (irq : Nat) : Port := if irq < 8 then .pic1Data else .pic2Data

/-- A controller shows its mask at the data port. -/
def inb (s : State κ) : Port → BitVec 8
  | .pic1Command => s.pic1.request
  | .pic1Data => s.pic1.mask
  | .pic2Command => s.pic2.request
  | .pic2Data => s.pic2.mask

def interruptReserve (s : State κ) (interrupt : Nat) (callback : InterruptCallback) :
    Except Stop (Bool × State κ) :=
  if interrupt < IDT_MAX_COUNT then
    if (s.interruptTable interrupt).isSome then .ok (false, s)
    else
      .ok (true,
        { s with interruptTable := Function.update s.interruptTable interrupt (some callback) })
  else .error .assertion

/-- The next `n` lines from `i` on. -/
def reserveLoop (interruptOffset : BitVec 32) : Nat → Nat → State κ → Except Stop (State κ)
  | 0, _, s => .ok s
  | n + 1, i, s => do
      let (success, s) ←
        interruptReserve s (interruptOffset + BitVec.ofNat 32 i).toNat .interruptIrq
      if success then reserveLoop interruptOffset n (i + 1) s else .error .assertion

/-- The second controller is not initialised: both commands go to the first one. -/
def picInit (s : State κ) (interruptOffset : BitVec 32) : Except Stop (State κ) :=
  if interruptOffset &&& 7 = 0 then
    let s := { s with irqBase := interruptOffset }
    let s := outb s .pic1Command (ICW1_INIT + ICW1_ICW4)
    let s := outb s .pic1Command (ICW1_INIT + ICW1_ICW4)
    let s := outb s .pic1Data (interruptOffset.setWidth 8)
    let s := outb s .pic2Data ((interruptOffset + 8).setWidth 8)
    let s := outb s .pic1Data 4
    let s := outb s .pic2Data 2
    let s := outb s .pic1Data ICW4_8086
    let s := outb s .pic2Data ICW4_8086
    let s := outb s .pic1Data (0xF &&& ~~~BitVec.ofNat 8 IRQ_SLAVE)
    let s := outb s .pic2Data 0xF
    reserveLoop interruptOffset IRQ_COUNT 0
      { s with irqTable := fun i => if i < IRQ_COUNT then none else s.irqTable i }
  else .error .assertion

def picReserveIRQ (s : State κ) (irq : Nat) (callback : κ) : Except Stop (Bool × State κ) :=
  if irq < IRQ_COUNT then
    if (s.irqTable irq).isSome then .ok (false, s)
    else if irq = IRQ_SLAVE then .error .assertion
    else
      let s := { s with irqTable := Function.update s.irqTable irq (some callback) }
      .ok (true, outb s (dataPort irq) (clearLine (inb s (dataPort irq)) (irq % 8)))
  else .error .assertion

def picFreeIRQ (s : State κ) (irq : Nat) : Except Stop (State κ) :=
  if irq < IRQ_COUNT then
    if (s.irqTable irq).isSome then
      if irq = IRQ_SLAVE then .error .assertion
      else
        let s := { s with irqTable := Function.update s.irqTable irq none }
        .ok (outb s (dataPort irq) (setLine (inb s (dataPort irq)) (irq % 8)))
    else .ok s
  else .error .assertion

def interruptIrq (s : State κ) (interrupt : BitVec 32) : Except Stop (State κ × Output κ) :=
  let irq := (interrupt - s.irqBase).toNat
  if irq < IRQ_COUNT then
    if irq = IRQ_SLAVE then .error .assertion
    else
      let s' := if 8 ≤ irq then outb s .pic2Command PIC_EOI else s
      .ok (outb s' .pic1Command PIC_EOI, .handled irq (s.irqTable irq))
  else .error .assertion

/-- `dispatchInterrupt` for an interrupt of the controllers. -/
def dispatch (s : State κ) (vector : BitVec 8) : Except Stop (State κ × Output κ) :=
  match s.interruptTable vector.toNat with
  | some .interruptIrq => interruptIrq s (vector.setWidth 32)
  | _ => .ok (s, .stray vector.toNat)

/-- The second controller asks the first one for an interrupt of the line `IRQ_SLAVE`. -/
def requests (s : State κ) (line : Nat) : Bool :=
  if line = IRQ_SLAVE then (s.pic2.pending s.pic2.request.getLsbD).isSome
  else s.pic1.request.getLsbD line

/-- Interrupts are off while one is handled. A controller which has asked for nothing answers with
its last line. -/
def accept (s : State κ) : Except Stop (State κ × Output κ) :=
  match s.pic1.pending (requests s) with
  | none => .ok (s, .nothing)
  | some line =>
      let s₁ := { s with pic1 := s.pic1.acknowledge line }
      if line = IRQ_SLAVE then
        match s.pic2.pending s.pic2.request.getLsbD with
        | some line' =>
            dispatch { s₁ with pic2 := s.pic2.acknowledge line' }
              (s.pic2.offset + BitVec.ofNat 8 line')
        | none => dispatch s₁ (s.pic2.offset + 7)
      else dispatch s₁ (s.pic1.offset + BitVec.ofNat 8 line)

def step (s : State κ) : Event κ → Except Stop (State κ × Output κ)
  | .request line =>
      if line < 8 then
        if line = IRQ_SLAVE then .ok (s, .nothing)
        else .ok ({ s with pic1.request := setLine s.pic1.request line }, .nothing)
      else .ok ({ s with pic2.request := setLine s.pic2.request (line - 8) }, .nothing)
  | .picReserveIRQ irq callback => do
      let (success, s) ← picReserveIRQ s irq callback
      return (s, .reserved success)
  | .picFreeIRQ irq => do
      let s ← picFreeIRQ s irq
      return (s, .nothing)
  | .accept => accept s

/-! What the handlers see. -/

structure Lines (κ : Type) where
  requested : Nat → Bool
  enabled : Nat → Bool
  callback : Nat → Option κ

/-- Eight lines, of which one is not connected. -/
def Lines.step (l : Lines κ) : Event κ → Lines κ × Output κ
  | .request line =>
      if line < 8 ∧ line ≠ IRQ_SLAVE then
        ({ l with requested := Function.update l.requested line true }, .nothing)
      else (l, .nothing)
  | .picReserveIRQ irq callback =>
      if (l.callback irq).isSome then (l, .reserved false)
      else
        ({ l with
            enabled := Function.update l.enabled irq true
            callback := Function.update l.callback irq (some callback) }, .reserved true)
  | .picFreeIRQ irq =>
      if (l.callback irq).isSome then
        ({ l with
            enabled := Function.update l.enabled irq false
            callback := Function.update l.callback irq none }, .nothing)
      else (l, .nothing)
  | .accept =>
      match firstLine (fun k => l.requested k && l.enabled k) 8 0 with
      | some line =>
          ({ l with requested := Function.update l.requested line false },
            .handled line (l.callback line))
      | none => (l, .nothing)

/-- Lines which were never reserved can be enabled too. -/
def initialLines : Lines κ where
  requested _ := false
  enabled line := line ∈ [1, 4, 5, 6, 7]
  callback _ := none

/-- Nobody reserves the line between the controllers. -/
def Event.Legal : Event κ → Prop
  | .picReserveIRQ irq _ => irq < IRQ_COUNT ∧ irq ≠ IRQ_SLAVE
  | .picFreeIRQ irq => irq < IRQ_COUNT
  | .request _ | .accept => True

variable {s s' : State κ} {l : Lines κ} {base : BitVec 32} {e : Event κ} {events : List (Event κ)}
  {p q : Nat → Bool} {i k n line : Nat}

/-- Of the second controller nothing is known. -/
structure Shows (base : BitVec 32) (s : State κ) (l : Lines κ) : Prop where
  phase : s.pic1.phase = .mask
  inService : s.pic1.inService = 0
  offset : s.pic1.offset.toNat = base.toNat
  irqBase : s.irqBase = base
  bound : base.toNat + IRQ_COUNT ≤ IDT_MAX_COUNT
  table : ∀ i < IRQ_COUNT, s.interruptTable (base.toNat + i) = some .interruptIrq
  callback : ∀ i < IRQ_COUNT, s.irqTable i = l.callback i
  request : ∀ i < 8, i ≠ IRQ_SLAVE → s.pic1.request.getLsbD i = l.requested i
  mask : ∀ i < 8, s.pic1.mask.getLsbD i = !l.enabled i
  slave : l.enabled IRQ_SLAVE = false ∧ l.callback IRQ_SLAVE = none

/-! Lines as bits. -/

theorem getLsbD_clearLine (b : BitVec 8) (hi : i < 8) :
    (clearLine b line).getLsbD i = (b.getLsbD i && decide (i ≠ line)) := by
  rw [clearLine, ← BitVec.twoPow_eq]
  simp [hi]

theorem getLsbD_setLine (b : BitVec 8) (hi : i < 8) :
    (setLine b line).getLsbD i = (b.getLsbD i || decide (i = line)) := by
  rw [setLine, ← BitVec.twoPow_eq]
  simp [hi]

theorem firstLine_congr (h : ∀ k, i ≤ k → k < i + n → p k = q k) :
    firstLine p n i = firstLine q n i := by
  induction n generalizing i with
  | zero => rfl
  | succ n ih =>
      rw [firstLine, firstLine, h i (Nat.le_refl i) (by omega),
        @ih (i + 1) fun k hk hlt => h k (by omega) (by omega)]

theorem firstLine_some (h : firstLine p n i = some k) : i ≤ k ∧ k < i + n ∧ p k = true := by
  induction n generalizing i with
  | zero => cases h
  | succ n ih =>
      rw [firstLine] at h
      split_ifs at h with hp
      · cases h
        exact ⟨Nat.le_refl k, by omega, hp⟩
      · obtain ⟨hle, hlt, hk⟩ := ih h
        exact ⟨by omega, by omega, hk⟩

theorem endOfInterrupt_one : ∀ k < 8, endOfInterrupt (setLine 0 k) = 0 := by decide

theorem getLsbD_zero : (0 : BitVec 8).getLsbD i = false := BitVec.getLsbD_zero

/-! Steps of the kernel and of the devices. -/

theorem Shows.withPic2 (h : Shows base s l) (c : Controller) : Shows base { s with pic2 := c } l :=
  ⟨h.phase, h.inService, h.offset, h.irqBase, h.bound, h.table, h.callback, h.request, h.mask,
    h.slave⟩

theorem Shows.requested (h : Shows base s l) (line : Nat) :
    Shows base { s with pic1.request := setLine s.pic1.request line }
      { l with requested := Function.update l.requested line true } := by
  refine ⟨h.phase, h.inService, h.offset, h.irqBase, h.bound, h.table, h.callback,
    fun i hi hslave => ?_, h.mask, h.slave⟩
  rw [getLsbD_setLine _ hi, h.request i hi hslave]
  by_cases hil : i = line
  · simp [hil]
  · simp [hil]

/-- A line of the first controller has its bit in the mask. What is written to the second one has
no effect. -/
theorem Shows.setMask (h : Shows base s l) {irq : Nat} (hne : irq ≠ IRQ_SLAVE) (b : Bool)
    (callback : Option κ) {m : BitVec 8}
    (hm : irq < 8 → ∀ i < 8, m.getLsbD i = if i = irq then !b else s.pic1.mask.getLsbD i) :
    Shows base
      (outb { s with irqTable := Function.update s.irqTable irq callback } (dataPort irq) m)
      { l with
        enabled := Function.update l.enabled irq b
        callback := Function.update l.callback irq callback } := by
  have hcallback : ∀ i < IRQ_COUNT, Function.update s.irqTable irq callback i =
      Function.update l.callback irq callback i := by
    intro i hi
    by_cases hii : i = irq
    · rw [hii, Function.update_self, Function.update_self]
    · rw [Function.update_of_ne hii, Function.update_of_ne hii, h.callback i hi]
  have hslave : Function.update l.enabled irq b IRQ_SLAVE = false ∧
      Function.update l.callback irq callback IRQ_SLAVE = none := by
    rw [Function.update_of_ne hne.symm, Function.update_of_ne hne.symm]
    exact h.slave
  by_cases hlow : irq < 8
  · have hwrite : s.pic1.writeData m = { s.pic1 with mask := m } := by
      simp only [Controller.writeData, h.phase]
    rw [dataPort, if_pos hlow, outb, hwrite]
    refine ⟨h.phase, h.inService, h.offset, h.irqBase, h.bound, h.table, hcallback, h.request,
      fun i hi => ?_, hslave⟩
    rw [hm hlow i hi]
    by_cases hii : i = irq
    · subst hii
      simp
    · simp [hii, h.mask i hi]
  · rw [dataPort, if_neg hlow, outb]
    refine ⟨h.phase, h.inService, h.offset, h.irqBase, h.bound, h.table, hcallback, h.request,
      fun i hi => ?_, hslave⟩
    have hii : i ≠ irq := by omega
    simp [hii, h.mask i hi]

theorem Shows.reserve (h : Shows base s l) {irq : Nat} (hirq : irq < IRQ_COUNT)
    (hne : irq ≠ IRQ_SLAVE) (hnone : ¬(l.callback irq).isSome) (callback : κ) :
    ∃ s', picReserveIRQ s irq callback = .ok (true, s') ∧
      Shows base s' { l with
        enabled := Function.update l.enabled irq true
        callback := Function.update l.callback irq (some callback) } := by
  rw [← h.callback irq hirq] at hnone
  refine ⟨_, (if_pos hirq).trans ((if_neg hnone).trans (if_neg hne)), ?_⟩
  refine h.setMask hne true (some callback) fun hlow i hi => ?_
  rw [getLsbD_clearLine _ hi, Nat.mod_eq_of_lt hlow, dataPort, if_pos hlow, inb]
  by_cases hii : i = irq
  · simp [hii]
  · simp [hii]

theorem Shows.free (h : Shows base s l) {irq : Nat} (hirq : irq < IRQ_COUNT)
    (hsome : (l.callback irq).isSome) :
    ∃ s', picFreeIRQ s irq = .ok s' ∧
      Shows base s' { l with
        enabled := Function.update l.enabled irq false
        callback := Function.update l.callback irq none } := by
  have hne : irq ≠ IRQ_SLAVE := by
    rintro rfl
    rw [h.slave.2] at hsome
    cases hsome
  rw [← h.callback irq hirq] at hsome
  refine ⟨_, (if_pos hirq).trans ((if_pos hsome).trans (if_neg hne)), ?_⟩
  refine h.setMask hne false none fun hlow i hi => ?_
  rw [getLsbD_setLine _ hi, Nat.mod_eq_of_lt hlow, dataPort, if_pos hlow, inb]
  by_cases hii : i = irq
  · simp [hii]
  · simp [hii]

/-! Interrupts. -/

/-- The first controller passes on what is requested and enabled. The second one is shut out. -/
theorem Shows.pending (h : Shows base s l) :
    s.pic1.pending (requests s) = firstLine (fun k => l.requested k && l.enabled k) 8 0 := by
  have hlines : firstLine
      (fun k => s.pic1.inService.getLsbD k || (requests s k && !s.pic1.mask.getLsbD k)) 8 0 =
      firstLine (fun k => l.requested k && l.enabled k) 8 0 := by
    refine firstLine_congr fun k _ hk => ?_
    have hk8 : k < 8 := by omega
    rw [h.inService, getLsbD_zero, Bool.false_or, h.mask k hk8, Bool.not_not]
    by_cases hslave : k = IRQ_SLAVE
    · rw [hslave, h.slave.1, Bool.and_false, Bool.and_false]
    · rw [requests, if_neg hslave, h.request k hk8 hslave]
  rw [Controller.pending, hlines]
  cases firstLine (fun k => l.requested k && l.enabled k) 8 0 with
  | none => rfl
  | some k => simp [h.inService]

theorem Shows.enabled_ne (h : Shows base s l)
    (hline : firstLine (fun k => l.requested k && l.enabled k) 8 0 = some line) :
    line < 8 ∧ line ≠ IRQ_SLAVE := by
  obtain ⟨-, hlt, htrue⟩ := firstLine_some hline
  refine ⟨by omega, fun hslave => ?_⟩
  rw [hslave, h.slave.1, Bool.and_false] at htrue
  cases htrue

/-- An interrupt of the first controller comes to `interrupt_irq`, which calls the callback of the
line and lets the controller go on. -/
theorem Shows.dispatch (h : Shows base s l) (hline : line < 8) (hne : line ≠ IRQ_SLAVE) :
    ∃ s', dispatch { s with pic1 := s.pic1.acknowledge line }
        (s.pic1.offset + BitVec.ofNat 8 line) = .ok (s', .handled line (l.callback line)) ∧
      Shows base s' { l with requested := Function.update l.requested line false } := by
  have hoffset := h.offset
  have hbound := h.bound
  rw [IRQ_COUNT, IDT_MAX_COUNT] at hbound
  have hvector : (s.pic1.offset + BitVec.ofNat 8 line).toNat = base.toNat + line := by
    rw [BitVec.toNat_add, BitVec.toNat_ofNat]
    omega
  have hirq : ((s.pic1.offset + BitVec.ofNat 8 line).setWidth 32 - base).toNat = line := by
    rw [BitVec.toNat_sub, BitVec.toNat_setWidth, hvector]
    omega
  have hcount : line < IRQ_COUNT := by
    rw [IRQ_COUNT]
    omega
  have hend : (s.pic1.acknowledge line).writeCommand PIC_EOI =
      { s.pic1 with request := clearLine s.pic1.request line } := by
    have hservice := endOfInterrupt_one line hline
    rw [← h.inService] at hservice
    simp [Controller.writeCommand, Controller.acknowledge, PIC_EOI, hservice]
  refine ⟨{ s with pic1 := { s.pic1 with request := clearLine s.pic1.request line } }, ?_, ?_⟩
  · rw [InterruptControllers.dispatch, hvector]
    simp only [h.table line hcount]
    rw [interruptIrq]
    simp only [h.irqBase, hirq]
    rw [if_pos hcount, if_neg hne, if_neg (by omega), outb, hend, h.callback line hcount]
  · refine ⟨h.phase, h.inService, h.offset, h.irqBase, h.bound, h.table, h.callback,
      fun i hi hslave => ?_, h.mask, h.slave⟩
    rw [getLsbD_clearLine _ hi, h.request i hi hslave]
    by_cases hil : i = line
    · simp [hil]
    · simp [hil]

theorem step_shows (h : Shows base s l) (he : e.Legal) :
    ∃ s', step s e = .ok (s', (l.step e).2) ∧ Shows base s' (l.step e).1 := by
  cases e with
  | request line =>
      by_cases hlow : line < 8
      · by_cases hslave : line = IRQ_SLAVE
        · refine ⟨s, ?_, ?_⟩
          · simp [step, Lines.step, hslave, IRQ_SLAVE]
          · simpa [Lines.step, hslave] using h
        · refine ⟨{ s with pic1.request := setLine s.pic1.request line }, ?_, ?_⟩
          · rw [step, if_pos hlow, if_neg hslave, Lines.step, if_pos ⟨hlow, hslave⟩]
          · rw [Lines.step, if_pos ⟨hlow, hslave⟩]
            exact h.requested line
      · have hspec : ¬(line < 8 ∧ line ≠ IRQ_SLAVE) := fun hline => hlow hline.1
        rw [step, if_neg hlow, Lines.step, if_neg hspec]
        exact ⟨_, rfl, h.withPic2 _⟩
  | picReserveIRQ irq callback =>
      obtain ⟨hirq, hne⟩ := he
      by_cases hsome : (l.callback irq).isSome
      · have hreserve : picReserveIRQ s irq callback = .ok (false, s) := by
          rw [picReserveIRQ, if_pos hirq, h.callback irq hirq, if_pos hsome]
        rw [Lines.step, if_pos hsome]
        exact ⟨s, bind_eq_ok.mpr ⟨_, hreserve, rfl⟩, h⟩
      · obtain ⟨s', hreserve, hshows⟩ := h.reserve hirq hne hsome callback
        rw [Lines.step, if_neg hsome]
        exact ⟨s', bind_eq_ok.mpr ⟨_, hreserve, rfl⟩, hshows⟩
  | picFreeIRQ irq =>
      have hirq : irq < IRQ_COUNT := he
      by_cases hsome : (l.callback irq).isSome
      · obtain ⟨s', hfree, hshows⟩ := h.free hirq hsome
        rw [Lines.step, if_pos hsome]
        exact ⟨s', bind_eq_ok.mpr ⟨_, hfree, rfl⟩, hshows⟩
      · have hfree : picFreeIRQ s irq = .ok s := by
          rw [picFreeIRQ, if_pos hirq, h.callback irq hirq, if_neg hsome]
        rw [Lines.step, if_neg hsome]
        exact ⟨s, bind_eq_ok.mpr ⟨_, hfree, rfl⟩, h⟩
  | accept =>
      rw [step, accept, h.pending, Lines.step]
      cases hline : firstLine (fun k => l.requested k && l.enabled k) 8 0 with
      | none => exact ⟨s, rfl, h⟩
      | some line =>
          obtain ⟨hlt, hne⟩ := h.enabled_ne hline
          simp only [if_neg hne]
          exact h.dispatch hlt hne

/-! The start. -/

theorem reserveLoop_ok (h : reserveLoop base n i s = .ok s') :
    s' = { s with interruptTable := s'.interruptTable } ∧
      (∀ x c, s.interruptTable x = some c → s'.interruptTable x = some c) ∧
      ∀ j, i ≤ j → j < i + n → (base + BitVec.ofNat 32 j).toNat < IDT_MAX_COUNT ∧
        s'.interruptTable (base + BitVec.ofNat 32 j).toNat = some .interruptIrq := by
  induction n generalizing i s with
  | zero =>
      cases h
      exact ⟨rfl, fun _ _ hx => hx, fun j hle hlt => by omega⟩
  | succ n ih =>
      obtain ⟨⟨success, s₁⟩, hreserve, hrest⟩ := bind_eq_ok.mp h
      rw [interruptReserve] at hreserve
      split_ifs at hreserve with hlt hsome
      · cases hreserve
        cases hrest
      · cases hreserve
        obtain ⟨heq, hkeep, hall⟩ := ih hrest
        refine ⟨heq, fun x c hx => hkeep x c ?_, fun j hle hj => ?_⟩
        · have hne : x ≠ (base + BitVec.ofNat 32 i).toNat := by
            rintro rfl
            rw [hx] at hsome
            exact hsome rfl
          exact (Function.update_of_ne hne _ _).trans hx
        · rcases Nat.eq_or_lt_of_le hle with rfl | hij
          · exact ⟨hlt, hkeep _ _ (Function.update_self _ _ _)⟩
          · exact hall j hij (by omega)

theorem and_offset : ∀ b : BitVec 8, b &&& 7 = 0 → b &&& 0xF8 = b := by decide

theorem picInit_shows (h : picInit s base = .ok s') : Shows base s' initialLines := by
  rw [picInit] at h
  split_ifs at h with hbase
  obtain ⟨heq, -, hall⟩ := reserveLoop_ok h
  have hfirst := (hall 0 (Nat.le_refl 0) (by decide)).1
  have hlast := (hall 15 (by decide) (by decide)).1
  rw [IDT_MAX_COUNT] at hfirst hlast
  have hbound : base.toNat + 15 < 256 := by bv_omega
  have hwidth : (base.setWidth 8).toNat = base.toNat := by
    rw [BitVec.toNat_setWidth]
    omega
  have hoffset : (base.setWidth 8 &&& 0xF8).toNat = base.toNat := by
    rw [and_offset, hwidth]
    rw [show (7 : BitVec 8) = (7 : BitVec 32).setWidth 8 from rfl, ← BitVec.setWidth_and, hbase]
    rfl
  rw [heq]
  refine ⟨rfl, rfl, hoffset, rfl, by rw [IRQ_COUNT, IDT_MAX_COUNT]; omega, fun i hi => ?_,
    fun i hi => if_pos hi, fun i hi _ => ?_, fun i hi => ?_, rfl, rfl⟩
  · have hindex : (base + BitVec.ofNat 32 i).toNat = base.toNat + i := by
      rw [IRQ_COUNT] at hi
      rw [BitVec.toNat_add, BitVec.toNat_ofNat]
      omega
    rw [← hindex]
    exact (hall i (Nat.zero_le i) (by omega)).2
  · exact getLsbD_zero
  · have hmask : ∀ i < 8, (0xF &&& ~~~BitVec.ofNat 8 IRQ_SLAVE : BitVec 8).getLsbD i =
        !decide (i ∈ [1, 4, 5, 6, 7]) := by decide
    exact hmask i hi

theorem Shows.handled (h : Shows base s l) {irq : Nat} {callback : Option κ}
    (he : (l.step e).2 = .handled irq callback) : irq < 8 ∧ irq ≠ IRQ_SLAVE := by
  cases e with
  | request line =>
      simp only [Lines.step] at he
      split at he <;> cases he
  | picReserveIRQ irq callback =>
      simp only [Lines.step] at he
      split at he <;> cases he
  | picFreeIRQ irq =>
      simp only [Lines.step] at he
      split at he <;> cases he
  | accept =>
      simp only [Lines.step] at he
      cases hline : firstLine (fun k => l.requested k && l.enabled k) 8 0 with
      | none =>
          rw [hline] at he
          cases he
      | some line =>
          rw [hline] at he
          cases he
          exact h.enabled_ne hline

theorem run_handled (h : Shows base s l) (hlegal : ∀ e ∈ events, e.Legal) {irq : Nat}
    {callback : Option κ} (hirq : .handled irq callback ∈ (runTotal Lines.step l events).2) :
    irq < 8 ∧ irq ≠ IRQ_SLAVE := by
  induction events generalizing s l with
  | nil => cases hirq
  | cons e events ih =>
      obtain ⟨s', -, hshows⟩ := step_shows h (hlegal e List.mem_cons_self)
      rcases List.mem_cons.mp hirq with hhead | htail
      · exact h.handled hhead.symm
      · exact ih hshows (fun e' he' => hlegal e' (List.mem_cons_of_mem e he')) htail

/-- In every run from `picInit` on, the requests are handled as if there were eight lines and no
second controller: one at a time, that of the lowest enabled line first, and each of them by the
callback which its line has then. -/
theorem run_requests (hinit : picInit s base = .ok s') (hlegal : ∀ e ∈ events, e.Legal) :
    (∃ t, run step s' events = .ok (t, (runTotal Lines.step initialLines events).2) ∧
      Shows base t (runTotal Lines.step initialLines events).1) ∧
    ∀ irq callback, .handled irq callback ∈ (runTotal Lines.step initialLines events).2 →
      irq < 8 ∧ irq ≠ IRQ_SLAVE := by
  have hshows := picInit_shows hinit
  refine ⟨?_, fun irq callback hirq => run_handled hshows hlegal hirq⟩
  have hstep : ∀ (s : State κ) (l : Lines κ) (e : Event κ), Shows base s l → e.Legal →
      ∃ s', step s e = .ok (s', (l.step e).2) ∧ Shows base s' (l.step e).1 :=
    fun s l e h he => step_shows h he
  exact run_refines hstep hshows (along_of_forall (fun _ e he => hlegal e he) s')

/-- The controllers as they might be before. -/
def samplePics : State Nat where
  pic1 := ⟨0, 0xB8, 0, 8, .mask⟩
  pic2 := ⟨0, 0x8F, 0, 0x70, .mask⟩
  irqBase := 0
  irqTable _ := none
  interruptTable _ := none

def sampleInit : State Nat :=
  match picInit samplePics 0x20 with
  | .ok s => s
  | .error _ => samplePics

/-- The timer is handled, and the mouse is not. -/
def sampleEvents : List (Event Nat) :=
  [.picReserveIRQ 0 100, .picReserveIRQ 12 112, .request 12, .request 0, .accept, .accept]

theorem run_requests_sample :
    (∃ t, run step sampleInit sampleEvents =
        .ok (t, (runTotal Lines.step initialLines sampleEvents).2) ∧
      Shows 0x20 t (runTotal Lines.step initialLines sampleEvents).1) ∧
    ∀ irq callback,
      .handled irq callback ∈ (runTotal Lines.step initialLines sampleEvents).2 →
        irq < 8 ∧ irq ≠ IRQ_SLAVE := by
  have hinit : picInit samplePics 0x20 = .ok sampleInit := rfl
  refine run_requests hinit ?_
  simp [sampleEvents, Event.Legal, IRQ_COUNT, IRQ_SLAVE]

end

end Ibnos.InterruptControllers
