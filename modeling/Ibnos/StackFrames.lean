import Ibnos.Instructions

/-!
Symbolic execution of straight code which works on its stack frame: only the offsets in the
frame have to be known, not its address. Whatever lies outside of the frame stays as it is.
-/

namespace Ibnos.StackFrames

open Ibnos.Instructions

/-- An instruction with its bytes. -/
abbrev Line := List Byte × Instruction

def Encodes (l : Line) : Prop :=
  l.1.length ≤ MAX_LENGTH ∧ ∀ more, decode (l.1 ++ more) = some (l.2, l.1.length)

def CodeAt (m : Memory) (a : Address) (bytes : List Byte) : Prop :=
  ∀ k < bytes.length, m (a + BitVec.ofNat 32 k) = bytes.getD k 0

/-- The bytes of all lines. -/
def bytesOf (ls : List Line) : List Byte := (ls.map Prod.fst).flatten

/-- What is known of the processor. The frame consists of cells of four bytes. -/
structure Frame where
  eip : Address
  /-- except `esp` -/
  register : Register → BitVec 32
  segment : Segment → BitVec 16
  cr3 : BitVec 32
  cells : Nat → BitVec 32

/-- The address of a cell. -/
def cell (w : Address) (k : Nat) : Address := w + BitVec.ofNat 32 (4 * k)

/-- The stack frame has `n` cells from `w` on, and the stack pointer is at the offset `top`. -/
structure Shows (w : Address) (n top : Nat) (f : Frame) (c : Cpu) : Prop where
  eip : c.eip = f.eip
  esp : c.esp = w + BitVec.ofNat 32 top
  register : ∀ r, r ≠ .esp → c.register r = f.register r
  segment : c.segment = f.segment
  cr3 : c.cr3 = f.cr3
  cells : ∀ k < n, load c.memory (cell w k) = f.cells k

/-- The address is not in the frame. -/
def Outside (w : Address) (n : Nat) (x : Address) : Prop := 4 * n ≤ (x - w).toNat

namespace Frame

def value (w : Address) (top : Nat) (f : Frame) (r : Register) : BitVec 32 :=
  if r = .esp then w + BitVec.ofNat 32 top else f.register r

def set (f : Frame) (r : Register) (v : BitVec 32) : Option Frame :=
  if r = .esp then none else some { f with register := Function.update f.register r v }

/-- The cell at an offset. -/
def index (n offset : Nat) : Option Nat :=
  if offset % 4 = 0 ∧ offset / 4 < n then some (offset / 4) else none

def put (f : Frame) (k : Nat) (v : BitVec 32) : Frame :=
  { f with cells := Function.update f.cells k v }

/-- The upper half of the cell stays as it is. -/
def putHalf (f : Frame) (k : Nat) (v : BitVec 16) : Frame :=
  f.put k ((f.cells k).extractLsb' 16 16 ++ v)

def push (n top : Nat) (f : Frame) (v : BitVec 32) : Option (Nat × Frame) :=
  if 4 ≤ top then (index n (top - 4)).map fun k => (top - 4, f.put k v) else none

/-- An instruction, behind which `eip` is already, with the offset of the stack pointer. -/
def exec (w : Address) (n top : Nat) (f : Frame) : Instruction → Option (Nat × Frame)
  | .store d r => (index n (top + d.toNat)).map fun k => (top, f.put k (f.value w top r))
  | .load r d => (index n (top + d.toNat)).bind fun k => (f.set r (f.cells k)).map (top, ·)
  | .storeHalf d r => (index n (top + d.toNat)).map fun k =>
      (top, f.putHalf k ((f.value w top r).extractLsb' 0 16))
  | .loadHalf r d => (index n (top + d.toNat)).bind fun k =>
      (f.set r ((f.value w top r).extractLsb' 16 16 ++ (f.cells k).extractLsb' 0 16)).map (top, ·)
  | .storeSegment d s => (index n (top + d.toNat)).map fun k => (top, f.putHalf k (f.segment s))
  | .lea r d => (f.set r (w + BitVec.ofNat 32 (top + d.toNat))).map (top, ·)
  | .moveCr3 r => (f.set r f.cr3).map (top, ·)
  | .add r v =>
      if r = .esp then some (top + v.toNat, f) else (f.set r (f.register r + v)).map (top, ·)
  | .sub r v =>
      if r = .esp then if v.toNat ≤ top then some (top - v.toNat, f) else none
      else (f.set r (f.register r - v)).map (top, ·)
  | .shr r k => (f.set r (f.register r >>> k)).map (top, ·)
  | .push r => f.push n top (f.value w top r)
  | .pushMemory d => (index n (top + d.toNat)).bind fun k => f.push n top (f.cells k)
  | .pop r => (index n top).bind fun k => (f.set r (f.cells k)).map (top + 4, ·)
  | .call d => (f.push n top f.eip).map fun (top', f') => (top', { f' with eip := f.eip + d })
  | .clts => some (top, f)
  | .jumpFar _ _ => none
  | .iret => none

def perform (w : Address) (n top : Nat) (f : Frame) (l : Line) : Option (Nat × Frame) :=
  exec w n top { f with eip := f.eip + BitVec.ofNat 32 l.1.length } l.2

def performAll (w : Address) (n : Nat) : Nat → Frame → List Line → Option (Nat × Frame)
  | top, f, [] => some (top, f)
  | top, f, l :: ls => (f.perform w n top l).bind fun (top', f') => performAll w n top' f' ls

end Frame

section

variable {w x : Address} {n k j top top' : Nat} {f f' f'' : Frame} {c c' : Cpu} {m : Memory}
  {a v : BitVec 32} {u : BitVec 16} {r : Register} {ls : List Line}

/-! The cells in the memory. -/

theorem cell_eq {offset : Nat} (hk : Frame.index n offset = some k) :
    w + BitVec.ofNat 32 offset = cell w k ∧ k < n := by
  simp only [Frame.index] at hk
  split_ifs at hk with hoffset
  cases hk
  refine ⟨?_, hoffset.2⟩
  rw [cell, Nat.mul_div_cancel' (Nat.dvd_of_mod_eq_zero hoffset.1)]

theorem cell_sub (i : Nat) (w x : Address) :
    x - cell w i = x - w - BitVec.ofNat 32 (4 * i) := by
  rw [cell, sub_add_eq_sub_sub]

theorem outside_cell (hn : 4 * n ≤ 2 ^ 32) (hk : k < n) (hx : Outside w n x) :
    4 ≤ (x - cell w k).toNat := by
  rw [cell_sub]
  have hlt := (x - w).isLt
  simp only [Outside] at hx
  rw [BitVec.toNat_sub, BitVec.toNat_ofNat]
  omega

theorem apart_cell (hn : 4 * n ≤ 2 ^ 32) (hj : j < n) (hk : k < n) (hne : j ≠ k) (i : Nat)
    (hi : i < 4) : 4 ≤ (cell w j + BitVec.ofNat 32 i - cell w k).toNat := by
  have hsub : cell w j + BitVec.ofNat 32 i - cell w k =
      BitVec.ofNat 32 (4 * j + i) - BitVec.ofNat 32 (4 * k) := by
    rw [cell, cell, add_assoc, ← BitVec.ofNat_add, add_sub_add_left_eq_sub]
  rw [hsub, BitVec.toNat_sub, BitVec.toNat_ofNat, BitVec.toNat_ofNat]
  omega

theorem load_store_cell (hn : 4 * n ≤ 2 ^ 32) (hj : j < n) (hk : k < n) (hne : j ≠ k) :
    load (store m (cell w k) v) (cell w j) = load m (cell w j) := by
  apply load_congr
  intro i hi
  exact storeBytes_frame (apart_cell hn hj hk hne i hi)

theorem load_storeHalf_cell (hn : 4 * n ≤ 2 ^ 32) (hj : j < n) (hk : k < n) (hne : j ≠ k) :
    load (storeHalf m (cell w k) u) (cell w j) = load m (cell w j) := by
  apply load_congr
  intro i hi
  apply storeBytes_frame
  exact (show 2 ≤ 4 by decide).trans (apart_cell hn hj hk hne i hi)

theorem loadHalf_eq (m : Memory) (a : Address) : loadHalf m a = (load m a).extractLsb' 0 16 := by
  apply BitVec.eq_of_getLsbD_eq
  intro i hi
  simp only [loadHalf, load, BitVec.getLsbD_append, BitVec.getLsbD_extractLsb', zero_add, hi,
    decide_true, Bool.true_and]
  split_ifs with h₀ h₁
  · rfl
  · rfl
  · omega
  · omega

theorem upperHalf_eq (m : Memory) (a : Address) :
    (load m a).extractLsb' 16 16 = m (a + 3#32) ++ m (a + 2#32) := by
  apply BitVec.eq_of_getLsbD_eq
  intro i hi
  have h₀ : ¬ 16 + i < 8 := by omega
  have h₁ : ¬ 16 + i - 8 < 8 := by omega
  have hi' : 16 + i - 8 - 8 = i := by omega
  simp only [load, BitVec.getLsbD_append, BitVec.getLsbD_extractLsb', h₀, h₁, hi', if_false, hi,
    decide_true, Bool.true_and]

theorem load_halves (m : Memory) (a : Address) :
    load m a = (load m a).extractLsb' 16 16 ++ loadHalf m a := by
  rw [upperHalf_eq, load, loadHalf, BitVec.append_assoc]
  simp

theorem load_storeHalf (m : Memory) (a : Address) (h : BitVec 16) :
    load (storeHalf m a h) a = (load m a).extractLsb' 16 16 ++ h := by
  have hupper : ∀ k, 2 ≤ k → k < 4 →
      storeHalf m a h (a + BitVec.ofNat 32 k) = m (a + BitVec.ofNat 32 k) := by
    intro k hk hk'
    apply storeBytes_frame
    rw [add_sub_cancel_left, BitVec.toNat_ofNat]
    simp [halfBytes]
    omega
  rw [load_halves, loadHalf_storeHalf, upperHalf_eq, upperHalf_eq, hupper 3 (by decide) (by decide),
    hupper 2 (by decide) (by decide)]
/-! The instructions. -/

/-- All of the processor is known. -/
def frameAt (w : Address) (c : Cpu) : Frame where
  eip := c.eip
  register := c.register
  segment := c.segment
  cr3 := c.cr3
  cells k := load c.memory (cell w k)

theorem shows_frameAt (hesp : c.esp = w + BitVec.ofNat 32 top) :
    Shows w n top (frameAt w c) c :=
  ⟨rfl, hesp, fun _ _ => rfl, rfl, rfl, fun _ _ => rfl⟩

theorem Shows.congr (h : Shows w n top f c) (heip : c'.eip = c.eip)
    (hregister : c'.register = c.register) (hsegment : c'.segment = c.segment)
    (hcr3 : c'.cr3 = c.cr3) (hmemory : c'.memory = c.memory) : Shows w n top f c' := by
  refine ⟨?_, ?_, ?_, ?_, ?_, ?_⟩
  · rw [heip, h.eip]
  · rw [Cpu.esp, hregister]
    exact h.esp
  · rw [hregister]
    exact h.register
  · rw [hsegment, h.segment]
  · rw [hcr3, h.cr3]
  · rw [hmemory]
    exact h.cells

theorem Shows.jump (h : Shows w n top f c) (a : Address) (s : Segment → BitVec 16)
    (v : BitVec 32) :
    Shows w n top { f with eip := a, segment := s }
      { c with eip := a, segment := s, eflags := v } :=
  ⟨rfl, h.esp, h.register, rfl, h.cr3, h.cells⟩

theorem Shows.value (h : Shows w n top f c) (r : Register) : f.value w top r = c.register r := by
  by_cases hr : r = .esp
  · rw [hr, Frame.value, if_pos rfl]
    exact h.esp.symm
  · rw [Frame.value, if_neg hr, h.register r hr]

theorem Shows.set (h : Shows w n top f c) (hset : (f.set r v).map (top, ·) = some (top', f')) :
    Shows w n top' f' (c.set r v) := by
  simp only [Frame.set] at hset
  split_ifs at hset with hr
  · cases hset
  cases hset
  refine ⟨h.eip, ?_, ?_, h.segment, h.cr3, h.cells⟩
  · exact (Function.update_of_ne (Ne.symm hr) _ _).trans h.esp
  · intro r' hr'
    by_cases heq : r' = r
    · simp [Cpu.set, heq]
    · simp [Cpu.set, heq, h.register r' hr']

theorem Shows.move (h : Shows w n top f c) (hv : v = w + BitVec.ofNat 32 k) :
    Shows w n k f (c.set .esp v) := by
  refine ⟨h.eip, ?_, ?_, h.segment, h.cr3, h.cells⟩
  · simp [Cpu.esp, Cpu.set, hv]
  · intro r hr
    simp [Cpu.set, hr, h.register r hr]

/-- A cell changes, and nothing outside of the frame. -/
theorem Shows.write (h : Shows w n top f c) (hcell : load m (cell w k) = v)
    (hother : ∀ j < n, j ≠ k → load m (cell w j) = load c.memory (cell w j)) :
    Shows w n top (f.put k v) { c with memory := m } := by
  refine ⟨h.eip, h.esp, h.register, h.segment, h.cr3, ?_⟩
  intro j hj
  by_cases hne : j = k
  · simp [Frame.put, hne, hcell]
  · simp [Frame.put, hne, hother j hj hne, h.cells j hj]

theorem Shows.put (h : Shows w n top f c) (hn : 4 * n ≤ 2 ^ 32) (hk : k < n) (v : BitVec 32) :
    Shows w n top (f.put k v) { c with memory := store c.memory (cell w k) v } ∧
      ∀ x, Outside w n x → store c.memory (cell w k) v x = c.memory x := by
  constructor
  · exact h.write (load_store _ _ _) fun j hj hne => load_store_cell hn hj hk hne
  · intro x hx
    exact storeBytes_frame (outside_cell hn hk hx)

theorem Shows.putHalf (h : Shows w n top f c) (hn : 4 * n ≤ 2 ^ 32) (hk : k < n) (u : BitVec 16) :
    Shows w n top (f.putHalf k u) { c with memory := storeHalf c.memory (cell w k) u } ∧
      ∀ x, Outside w n x → storeHalf c.memory (cell w k) u x = c.memory x := by
  constructor
  · rw [Frame.putHalf, ← h.cells k hk]
    exact h.write (load_storeHalf _ _ _) fun j hj hne => load_storeHalf_cell hn hj hk hne
  · intro x hx
    exact storeBytes_frame ((show 2 ≤ 4 by decide).trans (outside_cell hn hk hx))

theorem Shows.push (h : Shows w n top f c) (hn : 4 * n ≤ 2 ^ 32)
    (hpush : f.push n top v = some (top', f')) :
    Shows w n top' f' (c.push v) ∧ ∀ x, Outside w n x → (c.push v).memory x = c.memory x := by
  simp only [Frame.push] at hpush
  split_ifs at hpush with htop
  obtain ⟨k, hindex, heq⟩ := Option.map_eq_some_iff.mp hpush
  cases heq
  obtain ⟨hcell, hk⟩ := cell_eq (w := w) hindex
  have hesp : c.esp - 4#32 = w + BitVec.ofNat 32 (top - 4) := by
    rw [h.esp]
    bv_omega
  obtain ⟨hshows, hframe⟩ := (h.move hesp).put hn hk v
  rw [hcell] at hesp
  constructor
  · rw [Cpu.push, hesp]
    rw [hesp] at hshows
    exact hshows
  · rw [Cpu.push, hesp]
    exact hframe

/-- What the symbolic execution computes is what the processor does. -/
theorem Shows.exec {i : Instruction} (env : Environment) (h : Shows w n top f c)
    (hn : 4 * n ≤ 2 ^ 32) (hexec : f.exec w n top i = some (top', f')) :
    Shows w n top' f' (exec env c i) ∧
      ∀ x, Outside w n x → (Instructions.exec env c i).memory x = c.memory x := by
  have hoffset : ∀ d, c.esp + d = w + BitVec.ofNat 32 (top + d.toNat) := by
    intro d
    rw [h.esp, add_assoc, BitVec.ofNat_add, BitVec.ofNat_toNat, BitVec.setWidth_eq]
  have hload : ∀ d k, Frame.index n (top + BitVec.toNat d) = some k →
      load c.memory (c.esp + d) = f.cells k := by
    intro d k hindex
    obtain ⟨hcell, hk⟩ := cell_eq (w := w) hindex
    rw [hoffset, hcell, h.cells k hk]
  cases i with
  | store d r =>
      obtain ⟨k, hindex, heq⟩ := Option.map_eq_some_iff.mp hexec
      cases heq
      obtain ⟨hcell, hk⟩ := cell_eq (w := w) hindex
      rw [Instructions.exec, hoffset, hcell, h.value]
      exact h.put hn hk _
  | load r d =>
      obtain ⟨k, hindex, hset⟩ := Option.bind_eq_some_iff.mp hexec
      refine ⟨?_, fun _ _ => rfl⟩
      rw [Instructions.exec, hload d k hindex]
      exact h.set hset
  | storeHalf d r =>
      obtain ⟨k, hindex, heq⟩ := Option.map_eq_some_iff.mp hexec
      cases heq
      obtain ⟨hcell, hk⟩ := cell_eq (w := w) hindex
      rw [Instructions.exec, hoffset, hcell, h.value]
      exact h.putHalf hn hk _
  | loadHalf r d =>
      obtain ⟨k, hindex, hset⟩ := Option.bind_eq_some_iff.mp hexec
      refine ⟨?_, fun _ _ => rfl⟩
      rw [Instructions.exec, loadHalf_eq, hload d k hindex, ← h.value]
      exact h.set hset
  | storeSegment d s =>
      obtain ⟨k, hindex, heq⟩ := Option.map_eq_some_iff.mp hexec
      cases heq
      obtain ⟨hcell, hk⟩ := cell_eq (w := w) hindex
      rw [Instructions.exec, hoffset, hcell, ← h.segment]
      exact h.putHalf hn hk _
  | lea r d =>
      refine ⟨?_, fun _ _ => rfl⟩
      rw [Instructions.exec, hoffset]
      exact h.set hexec
  | moveCr3 r =>
      refine ⟨?_, fun _ _ => rfl⟩
      rw [Instructions.exec, h.cr3]
      exact h.set hexec
  | add r v =>
      refine ⟨?_, fun _ _ => rfl⟩
      simp only [Frame.exec] at hexec
      split_ifs at hexec with hr
      · subst hr
        cases hexec
        exact (h.move (hoffset v)).congr rfl rfl rfl rfl rfl
      · rw [← h.register r hr] at hexec
        exact (h.set hexec).congr rfl rfl rfl rfl rfl
  | sub r v =>
      refine ⟨?_, fun _ _ => rfl⟩
      simp only [Frame.exec] at hexec
      split_ifs at hexec with hr hv
      · subst hr
        cases hexec
        have hesp : c.esp - v = w + BitVec.ofNat 32 (top - v.toNat) := by
          rw [h.esp]
          bv_omega
        exact (h.move hesp).congr rfl rfl rfl rfl rfl
      · rw [← h.register r hr] at hexec
        exact (h.set hexec).congr rfl rfl rfl rfl rfl
  | shr r k =>
      refine ⟨?_, fun _ _ => rfl⟩
      by_cases hr : r = .esp
      · simp [Frame.exec, Frame.set, hr] at hexec
      · simp only [Frame.exec] at hexec
        rw [← h.register r hr] at hexec
        exact (h.set hexec).congr rfl rfl rfl rfl rfl
  | push r =>
      simp only [Frame.exec] at hexec
      rw [h.value] at hexec
      exact h.push hn hexec
  | pushMemory d =>
      obtain ⟨k, hindex, hpush⟩ := Option.bind_eq_some_iff.mp hexec
      rw [Instructions.exec, hload d k hindex]
      exact h.push hn hpush
  | pop r =>
      obtain ⟨k, hindex, hset⟩ := Option.bind_eq_some_iff.mp hexec
      have hv := hload 0#32 k hindex
      rw [BitVec.add_zero] at hv
      refine ⟨?_, fun _ _ => rfl⟩
      rw [Instructions.exec, hv]
      exact (h.move (hoffset 4#32)).set hset
  | call d =>
      obtain ⟨⟨top₁, f₁⟩, hpush, heq⟩ := Option.map_eq_some_iff.mp hexec
      cases heq
      rw [← h.eip] at hpush
      obtain ⟨hshows, hframe⟩ := h.push hn hpush
      refine ⟨⟨?_, hshows.esp, hshows.register, hshows.segment, hshows.cr3, hshows.cells⟩, hframe⟩
      simp [Instructions.exec, h.eip]
  | jumpFar selector d => cases hexec
  | clts =>
      cases hexec
      exact ⟨h.congr rfl rfl rfl rfl rfl, fun _ _ => rfl⟩
  | iret => cases hexec

/-! Straight code. -/

theorem fetch_eq {m : Memory} {bytes : List Byte} (hlength : bytes.length ≤ MAX_LENGTH)
    (h : CodeAt m a bytes) : ∃ more, fetch m a = bytes ++ more := by
  refine ⟨(fetch m a).drop bytes.length, ?_⟩
  have htake : (fetch m a).take bytes.length = bytes := by
    apply List.ext_getElem
    · simpa [fetch] using hlength
    · intro k hk hk'
      simp [fetch, h k hk', hk']
  rw [← htake, List.length_take, Nat.min_eq_left (by simpa [fetch] using hlength)]
  exact (List.take_append_drop _ _).symm

theorem step_line {l : Line} (env : Environment) (hl : Encodes l) (h : CodeAt c.memory c.eip l.1) :
    step env c = some (Instructions.perform env c (l.2, l.1.length)) := by
  obtain ⟨more, hmore⟩ := fetch_eq hl.1 h
  rw [step, hmore, hl.2]
  rfl

theorem Shows.perform {l : Line} (env : Environment) (h : Shows w n top f c) (hn : 4 * n ≤ 2 ^ 32)
    (hperform : f.perform w n top l = some (top', f')) :
    Shows w n top' f' (Instructions.perform env c (l.2, l.1.length)) ∧
      ∀ x, Outside w n x →
        (Instructions.perform env c (l.2, l.1.length)).memory x = c.memory x := by
  have hnext : Shows w n top { f with eip := f.eip + BitVec.ofNat 32 l.1.length }
      { c with eip := c.eip + BitVec.ofNat 32 l.1.length } :=
    ⟨by simp [h.eip], h.esp, h.register, h.segment, h.cr3, h.cells⟩
  exact hnext.exec env hn hperform

theorem codeAt_append {m : Memory} {bytes more : List Byte} (h : CodeAt m a (bytes ++ more)) :
    CodeAt m a bytes ∧ CodeAt m (a + BitVec.ofNat 32 bytes.length) more := by
  refine ⟨fun k hk => ?_, fun k hk => ?_⟩
  · rw [h k (by simp; omega)]
    simp [List.getElem?_append_left hk]
  · rw [add_assoc, ← BitVec.ofNat_add, h _ (by simpa using hk)]
    simp [List.getElem?_append_right]

theorem CodeAt.congr {m m' : Memory} {bytes : List Byte} (h : CodeAt m a bytes)
    (hm : ∀ k < bytes.length, m' (a + BitVec.ofNat 32 k) = m (a + BitVec.ofNat 32 k)) :
    CodeAt m' a bytes := fun k hk => (hm k hk).trans (h k hk)

theorem loadHalf_of_codeAt (h : CodeAt m a (halfBytes u)) : loadHalf m a = u := by
  have h₀ : m a = u.extractLsb' 0 8 := by simpa [halfBytes] using h 0 (by simp [halfBytes])
  have h₁ : m (a + 1#32) = u.extractLsb' 8 8 := h 1 (by simp [halfBytes])
  rw [loadHalf, h₀, h₁, append_half_bytes]

/-- The next instruction follows behind it. -/
def sequential : Instruction → Bool
  | .call _ | .jumpFar _ _ | .iret => false
  | _ => true

theorem exec_eip {env : Environment} {i : Instruction} (hi : sequential i = true) :
    (exec env c i).eip = c.eip := by
  cases i <;> first | rfl | cases hi

theorem steps_add (env : Environment) (n k : Nat) (c : Cpu) :
    steps env (n + k) c = (steps env n c).bind (steps env k) := by
  induction n generalizing c with
  | zero => simp [steps]
  | succ n ih =>
      rw [Nat.succ_add, steps, steps]
      cases step env c with
      | none => rfl
      | some c' => exact ih c'

/-- The processor runs through the lines, and outside of the frame nothing changes. -/
theorem run_lines (env : Environment) (hencodes : ∀ l ∈ ls, Encodes l)
    (hsequential : ∀ l ∈ ls, sequential l.2 = true)
    (hcode : CodeAt c.memory c.eip (bytesOf ls))
    (houtside : ∀ k < (bytesOf ls).length, Outside w n (c.eip + BitVec.ofNat 32 k))
    (hn : 4 * n ≤ 2 ^ 32) (h : Shows w n top f c)
    (hexec : f.performAll w n top ls = some (top', f')) :
    ∃ c', steps env ls.length c = some c' ∧ Shows w n top' f' c' ∧
      (∀ x, Outside w n x → c'.memory x = c.memory x) ∧
      c'.eip = c.eip + BitVec.ofNat 32 (bytesOf ls).length := by
  induction ls generalizing top f c with
  | nil =>
      cases hexec
      exact ⟨c, rfl, h, fun _ _ => rfl, by simp [bytesOf]⟩
  | cons l ls ih =>
      obtain ⟨⟨top₁, f₁⟩, hperform, hrest⟩ := Option.bind_eq_some_iff.mp hexec
      have hbytes : bytesOf (l :: ls) = l.1 ++ bytesOf ls := rfl
      rw [hbytes] at hcode houtside ⊢
      obtain ⟨hline, hcode⟩ := codeAt_append hcode
      obtain ⟨hshows, hframe⟩ := h.perform env hn hperform
      have hstep := step_line env (hencodes l List.mem_cons_self) hline
      have heip : (Instructions.perform env c (l.2, l.1.length)).eip =
          c.eip + BitVec.ofNat 32 l.1.length := exec_eip (hsequential l List.mem_cons_self)
      have hout : ∀ k < (bytesOf ls).length,
          Outside w n (c.eip + BitVec.ofNat 32 l.1.length + BitVec.ofNat 32 k) := by
        intro k hk
        rw [add_assoc, ← BitVec.ofNat_add]
        exact houtside _ (by simpa using hk)
      rw [← heip] at hcode hout
      obtain ⟨c', hsteps, hshows', hframe', heip'⟩ := ih
        (fun l' hl' => hencodes l' (List.mem_cons_of_mem l hl'))
        (fun l' hl' => hsequential l' (List.mem_cons_of_mem l hl'))
        (hcode.congr fun k hk => hframe _ (hout k hk)) hout hshows hrest
      refine ⟨c', ?_, hshows', fun x hx => (hframe' x hx).trans (hframe x hx), ?_⟩
      · rw [List.length_cons, steps, hstep]
        exact hsteps
      · rw [heip', heip, add_assoc, ← BitVec.ofNat_add, List.length_append]

/-- The lines are followed by a call. -/
theorem run_call (env : Environment) {l : Line} (hencodes : ∀ l' ∈ ls, Encodes l')
    (hsequential : ∀ l' ∈ ls, sequential l'.2 = true) (hl : Encodes l)
    (hcode : CodeAt c.memory c.eip (bytesOf ls ++ l.1))
    (houtside : ∀ k < (bytesOf ls ++ l.1).length, Outside w n (c.eip + BitVec.ofNat 32 k))
    (hn : 4 * n ≤ 2 ^ 32) (h : Shows w n top f c)
    (hexec : f.performAll w n top ls = some (k, f'))
    (hcall : f'.perform w n k l = some (top', f'')) :
    f'.eip = c.eip + BitVec.ofNat 32 (bytesOf ls).length ∧
      ∃ c', steps env (ls.length + 1) c = some c' ∧ Shows w n top' f'' c' ∧
        ∀ x, Outside w n x → c'.memory x = c.memory x := by
  obtain ⟨hlines, hcode⟩ := codeAt_append hcode
  have hout : ∀ j < (bytesOf ls).length, Outside w n (c.eip + BitVec.ofNat 32 j) := by
    intro j hj
    exact houtside j (by simpa using Nat.lt_add_right _ hj)
  obtain ⟨c₁, hsteps, hshows, hframe, heip⟩ :=
    run_lines env hencodes hsequential hlines hout hn h hexec
  obtain ⟨hshows', hframe'⟩ := hshows.perform env hn hcall
  have hline : CodeAt c₁.memory c₁.eip l.1 := by
    rw [heip]
    apply hcode.congr
    intro j hj
    rw [add_assoc, ← BitVec.ofNat_add]
    exact hframe _ (houtside _ (by simpa using hj))
  refine ⟨hshows.eip.symm.trans heip, _, ?_, hshows',
    fun x hx => (hframe' x hx).trans (hframe x hx)⟩
  rw [steps_add, hsteps, Option.bind_some, steps, step_line env hl hline]
  rfl

end

end Ibnos.StackFrames
