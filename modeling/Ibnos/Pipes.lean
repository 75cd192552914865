import Ibnos.Blocks
import Ibnos.Doubling
import Ibnos.Runs

/-!
The buffer of a kernel pipe object. The wait queues are kept with the other
kernel objects; here the two calls which move data report what they wake up with.
-/

namespace Ibnos.Pipes

open Ibnos.Blocks
open Ibnos.Doubling
open Ibnos.Runs

def MIN_PIPE_BUFFER_SIZE : Nat := 0x1000

def MAX_PIPE_BUFFER_SIZE : Nat := 0x10000

/-- What stops the code of this module. -/
inductive Fault
  | assertion
  | outOfBounds (index : Nat)
  deriving DecidableEq, Repr

/-- An access to a heap block, as part of the code of this module. -/
def inBlock {α : Type} : Except OutOfBounds α → Except Fault α
  | .ok x => .ok x
  | .error e => .error (.outOfBounds e.index)

/-- `struct pipe` without the object header and the wait queues. -/
structure Pipe where
  buffer : Option (Block UInt8)
  size : Nat
  writePos : Nat
  readPos : Nat
  writeable : Bool

/-- `pipeCreate`. The bytes of a fresh heap block are arbitrary. -/
def pipeCreate (fresh : Nat → UInt8) : Pipe :=
  { buffer := some { length := MIN_PIPE_BUFFER_SIZE, cell := fresh }
    size := MIN_PIPE_BUFFER_SIZE
    writePos := 0
    readPos := 0
    writeable := true }

/-- `writePos - readPos` -/
def Pipe.used (p : Pipe) : Nat := p.writePos - p.readPos

/-- Move the data to the beginning of the buffer. -/
def compact (p : Pipe) (b : Block UInt8) : Except Fault (Pipe × Block UInt8) :=
  if p.readPos ≠ 0 then do
    let b ← inBlock (b.move 0 p.readPos (p.writePos - p.readPos))
    return ({ p with writePos := p.writePos - p.readPos, readPos := 0 }, b)
  else .ok (p, b)

/-- Double the buffer until `length` bytes fit behind `writePos`. `heapReAlloc`
keeps the old bytes, the new ones are `fresh`. -/
def enlarge (p : Pipe) (b : Block UInt8) (length : Nat) (fresh : Nat → UInt8) :
    Pipe × Block UInt8 :=
  if p.size - p.writePos < length then
    let newSize := doubleUntil (p.writePos + length) (p.size * 2) (p.writePos + length)
    ({ p with size := newSize }, b.resize newSize fresh)
  else (p, b)

/-- The part of `__pipeWrite` which makes sure that `length` bytes fit behind `writePos`. -/
def makeSpace (p : Pipe) (b : Block UInt8) (length : Nat) (fresh : Nat → UInt8) :
    Except Fault (Pipe × Block UInt8) :=
  if p.size - p.writePos < length then do
    let (p, b) ← compact p b
    return enlarge p b length fresh
  else .ok (p, b)

/-- The `memcpy` of `__pipeWrite`. -/
def append (p : Pipe) (b : Block UInt8) (bytes : List UInt8) :
    Except Fault (Pipe × Block UInt8) :=
  if 0 < bytes.length then do
    let b ← inBlock (b.storeList p.writePos bytes)
    return ({ p with writePos := p.writePos + bytes.length }, b)
  else .ok (p, b)

/-- The `memcpy` of `__pipeRead`. -/
def extract (p : Pipe) (b : Block UInt8) (length : Nat) : Except Fault (List UInt8 × Pipe) :=
  if 0 < length then do
    let bytes ← inBlock (b.loadList p.readPos length)
    return (bytes, { p with readPos := p.readPos + length })
  else .ok ([], p)

/-- What a call on the pipe returns: the result, the bytes delivered to the
caller, and the value which the waiting threads are woken up with. -/
structure Outcome where
  result : Int
  bytes : List UInt8
  wakeup : Option Nat

/-- `__pipeWrite` for the bytes `buf`. -/
def pipeWrite (p : Pipe) (buf : List UInt8) (fresh : Nat → UInt8) :
    Except Fault (Outcome × Pipe) :=
  if p.writeable = false then .ok (⟨-1, [], none⟩, p)
  else match p.buffer with
  | none => .error .assertion
  | some b => do
      let length := min buf.length (MAX_PIPE_BUFFER_SIZE - p.used)
      let (q, b) ← makeSpace p b length fresh
      let (q, b) ← append q b (buf.take length)
      let used := p.used + length
      return (⟨length, [], if used ≠ 0 then some used else none⟩, { q with buffer := some b })

/-- The end of `__pipeRead`: a drained pipe starts again at the beginning, and
loses its buffer when nothing can be written anymore. -/
def resetIfEmpty (p : Pipe) (b : Block UInt8) : Pipe :=
  if p.readPos = p.writePos then
    if p.writeable then { p with buffer := some b, readPos := 0, writePos := 0 }
    else { p with buffer := none, size := 0, readPos := 0, writePos := 0 }
  else { p with buffer := some b }

/-- `__pipeRead` of at most `length` bytes. -/
def pipeRead (p : Pipe) (length : Nat) : Except Fault (Outcome × Pipe) :=
  if p.writeable = false ∧ p.used = 0 then .ok (⟨-1, [], none⟩, p)
  else match p.buffer with
  | none => .error .assertion
  | some b => do
      let length := min length p.used
      let (bytes, q) ← extract p b length
      let used := p.used - length
      let wakeup :=
        if used < MAX_PIPE_BUFFER_SIZE then
          some (if p.writeable then MAX_PIPE_BUFFER_SIZE - used else 0)
        else none
      return (⟨length, bytes, wakeup⟩, resetIfEmpty q b)

/-- The bytes `buffer[readPos .. writePos)`. -/
def Pipe.contents (p : Pipe) : List UInt8 :=
  match p.buffer with
  | none => []
  | some b => b.slice p.readPos p.used

/-- The positions of a pipe whose write side was never closed, over its buffer `b`. -/
structure Fits (p : Pipe) (b : Block UInt8) : Prop where
  writeable : p.writeable = true
  size : ∃ k ≤ 4, p.size = MIN_PIPE_BUFFER_SIZE * 2 ^ k
  size_le : p.size ≤ b.length
  readPos_le : p.readPos ≤ p.writePos
  writePos_le : p.writePos ≤ p.size

structure Open (p : Pipe) (b : Block UInt8) : Prop extends Fits p b where
  buffer : p.buffer = some b

theorem Fits.size_le_max {p : Pipe} {b : Block UInt8} (h : Fits p b) :
    p.size ≤ MAX_PIPE_BUFFER_SIZE := by
  obtain ⟨k, hk, hsize⟩ := h.size
  rw [hsize]
  exact Nat.mul_le_mul_left _ (Nat.pow_le_pow_right (n := 2) (by decide) hk)

theorem Fits.used_le {p : Pipe} {b : Block UInt8} (h : Fits p b) :
    p.used ≤ MAX_PIPE_BUFFER_SIZE := by
  have hmax := h.size_le_max
  have hwritePos := h.writePos_le
  unfold Pipe.used
  omega

theorem Open.contents_eq {p : Pipe} {b : Block UInt8} (h : Open p b) :
    p.contents = b.slice p.readPos p.used := by
  rw [Pipe.contents, h.buffer]

theorem open_pipeCreate (fresh : Nat → UInt8) :
    Open (pipeCreate fresh) { length := MIN_PIPE_BUFFER_SIZE, cell := fresh } where
  buffer := rfl
  writeable := rfl
  size := ⟨0, by omega, rfl⟩
  size_le := le_rfl
  readPos_le := le_rfl
  writePos_le := Nat.zero_le _

theorem contents_pipeCreate (fresh : Nat → UInt8) : (pipeCreate fresh).contents = [] := rfl

/-- A larger buffer for `length` further bytes is at most `MAX_PIPE_BUFFER_SIZE` long. -/
theorem newSize_bounds {k n : Nat} (hk : k ≤ 4) (hn : n ≤ MAX_PIPE_BUFFER_SIZE)
    (hgrow : MIN_PIPE_BUFFER_SIZE * 2 ^ k < n) :
    n ≤ doubleUntil n (MIN_PIPE_BUFFER_SIZE * 2 ^ k * 2) n ∧
      ∃ j ≤ 4, doubleUntil n (MIN_PIPE_BUFFER_SIZE * 2 ^ k * 2) n =
        MIN_PIPE_BUFFER_SIZE * 2 ^ j := by
  have hpos : 0 < MIN_PIPE_BUFFER_SIZE * 2 ^ k * 2 := by
    have := Nat.mul_pos (show 0 < MIN_PIPE_BUFFER_SIZE by decide) (Nat.two_pow_pos k)
    omega
  have hk4 : k < 4 := by
    rcases Nat.lt_or_ge k 4 with h | h
    · exact h
    · obtain rfl : k = 4 := by omega
      exact absurd hgrow (Nat.not_lt.mpr hn)
  have hmax : MIN_PIPE_BUFFER_SIZE * 2 ^ k * 2 * 2 ^ (3 - k) = MAX_PIPE_BUFFER_SIZE := by
    rw [Nat.mul_assoc, Nat.mul_assoc, ← pow_succ', ← pow_add, show k + (3 - k + 1) = 4 by omega]
    rfl
  refine ⟨le_doubleUntil hpos n, ?_⟩
  obtain ⟨j, hj⟩ := exists_doubleUntil_eq n (MIN_PIPE_BUFFER_SIZE * 2 ^ k * 2) n
  have hle := doubleUntil_le n (k := 3 - k) (hn.trans hmax.ge)
  have hpow : MIN_PIPE_BUFFER_SIZE * 2 ^ k * 2 * 2 ^ j = MIN_PIPE_BUFFER_SIZE * 2 ^
    (k + 1 + j) := by
    ring
  refine ⟨k + 1 + j, ?_, hj.trans hpow⟩
  rw [hj, hmax, hpow] at hle
  have hle' : 2 ^ (k + 1 + j) ≤ 2 ^ 4 :=
    Nat.le_of_mul_le_mul_left hle (show 0 < MIN_PIPE_BUFFER_SIZE by decide)
  exact (Nat.pow_le_pow_iff_right (a := 2) (by decide)).mp hle'

theorem compact_eq {p : Pipe} {b : Block UInt8} (h : Fits p b) :
    ∃ q c, compact p b = .ok (q, c) ∧ Fits q c ∧ q.readPos = 0 ∧ q.used = p.used ∧
      c.slice 0 p.used = b.slice p.readPos p.used := by
  have hreadPos := h.readPos_le
  have hwritePos := h.writePos_le
  have hsize := h.size_le
  rw [compact]
  split_ifs with hzero
  · rw [move_eq (by omega) (by omega)]
    refine ⟨_, _, rfl, ⟨h.writeable, h.size, hsize, Nat.zero_le _, ?_⟩, rfl, rfl, ?_⟩
    · exact (Nat.sub_le _ _).trans hwritePos
    · apply slice_congr
      intro i hi
      have hi' : i < p.writePos - p.readPos := hi
      simp [moved, hi']
  · have hread : p.readPos = 0 := by omega
    exact ⟨p, b, rfl, h, hread, rfl, by rw [hread]⟩

theorem enlarge_eq {p : Pipe} {b : Block UInt8} {length : Nat} (h : Fits p b)
    (hlength : p.writePos + length ≤ MAX_PIPE_BUFFER_SIZE) (fresh : Nat → UInt8) :
    ∃ q c, enlarge p b length fresh = (q, c) ∧ Fits q c ∧ q.readPos = p.readPos ∧
      q.used = p.used ∧ q.writePos + length ≤ q.size ∧
      c.slice p.readPos p.used = b.slice p.readPos p.used := by
  have hreadPos := h.readPos_le
  have hwritePos := h.writePos_le
  have hsize := h.size_le
  rw [enlarge]
  split_ifs with hgrow
  · obtain ⟨k, hk, hpow⟩ := h.size
    obtain ⟨hle, hnew⟩ := newSize_bounds (n := p.writePos + length) hk hlength (by omega)
    rw [← hpow] at hle hnew
    refine ⟨_, _, rfl, ⟨h.writeable, hnew, le_rfl, hreadPos, ?_⟩, rfl, rfl, hle, ?_⟩
    · exact (Nat.le_add_right _ _).trans hle
    · apply slice_congr
      intro i hi
      have hi' : i < p.writePos - p.readPos := hi
      exact if_pos (by omega)
  · exact ⟨p, b, rfl, h, rfl, rfl, by omega, rfl⟩

theorem makeSpace_eq {p : Pipe} {b : Block UInt8} (h : Fits p b) (length : Nat)
    (hlength : p.used + length ≤ MAX_PIPE_BUFFER_SIZE) (fresh : Nat → UInt8) :
    ∃ q c, makeSpace p b length fresh = .ok (q, c) ∧ Fits q c ∧ q.used = p.used ∧
      q.writePos + length ≤ q.size ∧ c.slice q.readPos p.used = b.slice p.readPos p.used := by
  rw [makeSpace]
  split_ifs with hspace
  · obtain ⟨q, c, hcompact, hfits, hread, hused, hslice⟩ := compact_eq h
    have hwrite : q.writePos = p.used := by
      rw [← hused, Pipe.used, hread, Nat.sub_zero]
    obtain ⟨r, d, henlarge, hfits', hread', hused', hle, hslice'⟩ :=
      enlarge_eq hfits (hwrite ▸ hlength) fresh
    refine ⟨r, d, ?_, hfits', hused'.trans hused, hle, ?_⟩
    · rw [hcompact, ← henlarge]
      rfl
    · rw [hread, hused] at hslice'
      rw [hread', hread, hslice', hslice]
  · have hwritePos := h.writePos_le
    exact ⟨p, b, rfl, h, rfl, by omega, rfl⟩

theorem append_eq {p : Pipe} {b : Block UInt8} (h : Fits p b) (bytes : List UInt8)
    (hspace : p.writePos + bytes.length ≤ p.size) :
    ∃ q c, append p b bytes = .ok (q, c) ∧ Open { q with buffer := some c } c ∧
      c.slice q.readPos q.used = b.slice p.readPos p.used ++ bytes := by
  have hreadPos := h.readPos_le
  have hsize := h.size_le
  rw [append]
  split_ifs with hlength
  · obtain ⟨c, hstore, hlen, hslice, hbelow⟩ :=
      storeList_eq b p.writePos bytes (by omega)
    rw [hstore]
    refine ⟨_, c, rfl, ⟨⟨h.writeable, h.size, hlen ▸ hsize, ?_, hspace⟩, rfl⟩, ?_⟩
    · exact hreadPos.trans (Nat.le_add_right _ _)
    · have hused : p.writePos + bytes.length - p.readPos = p.used + bytes.length := by
        unfold Pipe.used
        omega
      have hend : p.readPos + p.used = p.writePos := by
        unfold Pipe.used
        omega
      change c.slice p.readPos (p.writePos + bytes.length - p.readPos) = _
      rw [hused, slice_add, hend, hslice]
      congr 1
      apply slice_congr
      intro i hi
      exact hbelow _ (by omega)
  · obtain rfl : bytes = [] := List.eq_nil_of_length_eq_zero (by omega)
    exact ⟨p, b, rfl, ⟨⟨h.writeable, h.size, hsize, hreadPos, h.writePos_le⟩, rfl⟩,
      (List.append_nil _).symm⟩

/-- A write appends the bytes it accepts to the contents. -/
theorem pipeWrite_eq {p : Pipe} {b : Block UInt8} (h : Open p b) (buf : List UInt8)
    (fresh : Nat → UInt8) :
    ∃ o q c, pipeWrite p buf fresh = .ok (o, q) ∧ Open q c ∧
      o.result = min buf.length (MAX_PIPE_BUFFER_SIZE - p.used) ∧
      q.contents = p.contents ++ buf.take (min buf.length (MAX_PIPE_BUFFER_SIZE - p.used)) := by
  have hused := h.used_le
  obtain ⟨q, c, hspace, hfits, hused', hle, hslice⟩ := makeSpace_eq h.toFits
    (min buf.length (MAX_PIPE_BUFFER_SIZE - p.used)) (by omega) fresh
  have htake : (buf.take (min buf.length (MAX_PIPE_BUFFER_SIZE - p.used))).length =
      min buf.length (MAX_PIPE_BUFFER_SIZE - p.used) := by
    rw [List.length_take]
    omega
  obtain ⟨r, d, happend, hopen, hcontents⟩ :=
    append_eq hfits (buf.take (min buf.length (MAX_PIPE_BUFFER_SIZE - p.used)))
      (htake.symm ▸ hle)
  have hwrite : ∃ wakeup, pipeWrite p buf fresh =
      .ok (⟨(min buf.length (MAX_PIPE_BUFFER_SIZE - p.used) : Nat), [], wakeup⟩,
        { r with buffer := some d }) := by
    rw [pipeWrite, if_neg (by simp [h.writeable]), h.buffer]
    simp only [hspace, happend, bind, Except.bind]
    exact ⟨_, rfl⟩
  obtain ⟨wakeup, hwrite⟩ := hwrite
  refine ⟨_, _, d, hwrite, hopen, rfl, ?_⟩
  rw [hused', hslice] at hcontents
  rw [hopen.contents_eq, h.contents_eq]
  exact hcontents

theorem extract_eq {p : Pipe} {b : Block UInt8} {length : Nat} (h : Fits p b)
    (hlength : length ≤ p.used) :
    extract p b length =
      .ok (b.slice p.readPos length, { p with readPos := p.readPos + length }) := by
  have hreadPos := h.readPos_le
  have hwritePos := h.writePos_le
  have hsize := h.size_le
  unfold Pipe.used at hlength
  rw [extract]
  split_ifs with hpos
  · rw [loadList_eq (by omega)]
    rfl
  · obtain rfl : length = 0 := by omega
    rfl

theorem resetIfEmpty_eq {p : Pipe} {b : Block UInt8} (h : Fits p b) :
    Open (resetIfEmpty p b) b ∧ (resetIfEmpty p b).contents = b.slice p.readPos p.used := by
  rw [resetIfEmpty]
  split_ifs with hempty hwriteable
  · refine ⟨⟨⟨h.writeable, h.size, h.size_le, le_rfl, Nat.zero_le _⟩, rfl⟩, ?_⟩
    rw [Pipe.used, hempty, Nat.sub_self]
    rfl
  · exact absurd h.writeable hwriteable
  · exact ⟨⟨⟨h.writeable, h.size, h.size_le, h.readPos_le, h.writePos_le⟩, rfl⟩, rfl⟩

/-- A read takes the bytes it delivers from the front of the contents. -/
theorem pipeRead_eq {p : Pipe} {b : Block UInt8} (h : Open p b) (length : Nat) :
    ∃ o q, pipeRead p length = .ok (o, q) ∧ Open q b ∧ o.result = min length p.used ∧
      o.bytes.length = min length p.used ∧ o.bytes ++ q.contents = p.contents := by
  have hreadPos := h.readPos_le
  have hwritePos := h.writePos_le
  have hused : p.readPos + min length p.used ≤ p.writePos := by
    unfold Pipe.used
    omega
  have hfits : Fits { p with readPos := p.readPos + min length p.used } b :=
    ⟨h.writeable, h.size, h.size_le, hused, hwritePos⟩
  obtain ⟨hopen, hcontents⟩ := resetIfEmpty_eq hfits
  have hread : ∃ wakeup, pipeRead p length =
      .ok (⟨(min length p.used : Nat), b.slice p.readPos (min length p.used), wakeup⟩,
        resetIfEmpty { p with readPos := p.readPos + min length p.used } b) := by
    rw [pipeRead, if_neg (by simp [h.writeable]), h.buffer]
    simp only [extract_eq h.toFits (Nat.min_le_right length p.used), bind, Except.bind]
    exact ⟨_, rfl⟩
  obtain ⟨wakeup, hread⟩ := hread
  refine ⟨_, _, hread, hopen, rfl, length_slice b p.readPos (min length p.used), ?_⟩
  rw [hcontents, h.contents_eq]
  change b.slice p.readPos (min length p.used) ++
    b.slice (p.readPos + min length p.used) (p.writePos - (p.readPos + min length p.used)) = _
  rw [← slice_add]
  congr 1
  unfold Pipe.used at hused ⊢
  omega

inductive Access
  | write (buf : List UInt8) (fresh : Nat → UInt8)
  | read (length : Nat)

def access (p : Pipe) : Access → Except Fault (Outcome × Pipe)
  | .write buf fresh => pipeWrite p buf fresh
  | .read length => pipeRead p length

/-- A call on the pipe, with the bytes in the pipe before it and what it returned. -/
structure Event where
  call : Access
  used : Nat
  outcome : Outcome

/-- The bytes of a write which went into the pipe. -/
def Event.accepted (e : Event) : List UInt8 :=
  match e.call with
  | .write buf _ => buf.take e.outcome.result.toNat
  | .read _ => []

/-- The bytes of a read which came out of the pipe. -/
def Event.delivered (e : Event) : List UInt8 :=
  match e.call with
  | .write _ _ => []
  | .read _ => e.outcome.bytes

def step (p : Pipe) (a : Access) : Except Fault (Pipe × Event) := do
  let (o, q) ← access p a
  return (q, ⟨a, p.used, o⟩)

/-- A call moves exactly as many bytes as there is room for, or data for. -/
def Event.Exact (e : Event) : Prop :=
  match e.call with
  | .write buf _ =>
      e.outcome.result = min buf.length (MAX_PIPE_BUFFER_SIZE - e.used) ∧
        e.accepted.length = min buf.length (MAX_PIPE_BUFFER_SIZE - e.used)
  | .read length =>
      e.outcome.result = min length e.used ∧ e.delivered.length = min length e.used

theorem access_eq {p : Pipe} {b : Block UInt8} (h : Open p b) (a : Access) :
    ∃ o q c, access p a = .ok (o, q) ∧ Open q c ∧ Event.Exact ⟨a, p.used, o⟩ ∧
      p.contents ++ Event.accepted ⟨a, p.used, o⟩ =
        Event.delivered ⟨a, p.used, o⟩ ++ q.contents := by
  cases a with
  | write buf fresh =>
      obtain ⟨o, q, c, hwrite, hopen, hresult, hcontents⟩ := pipeWrite_eq h buf fresh
      have haccepted : Event.accepted ⟨.write buf fresh, p.used, o⟩ =
          buf.take (min buf.length (MAX_PIPE_BUFFER_SIZE - p.used)) := by
        change buf.take o.result.toNat = _
        rw [hresult, Int.toNat_natCast]
      refine ⟨o, q, c, hwrite, hopen, ⟨hresult, ?_⟩, ?_⟩
      · rw [haccepted, List.length_take]
        exact Nat.min_eq_left (Nat.min_le_left _ _)
      · rw [haccepted, ← hcontents]
        rfl
  | read length =>
      obtain ⟨o, q, hread, hopen, hresult, hlength, hcontents⟩ := pipeRead_eq h length
      refine ⟨o, q, b, hread, hopen, ⟨hresult, hlength⟩, ?_⟩
      rw [← hcontents]
      exact List.append_nil _

theorem run_eq {p : Pipe} {b : Block UInt8} (h : Open p b) (as : List Access) :
    ∃ q events c, run step p as = .ok (q, events) ∧ Open q c ∧ (∀ e ∈ events, e.Exact) ∧
      p.contents ++ events.flatMap Event.accepted =
        events.flatMap Event.delivered ++ q.contents := by
  induction as generalizing p b with
  | nil => exact ⟨p, [], b, rfl, h, by simp, by simp⟩
  | cons a as ih =>
      obtain ⟨o, q, c, haccess, hopen, hexact, hbytes⟩ := access_eq h a
      obtain ⟨r, events, d, hrun, hopen', hexact', hbytes'⟩ := ih hopen
      have hstep : step p a = .ok (q, ⟨a, p.used, o⟩) :=
        bind_eq_ok.mpr ⟨(o, q), haccess, rfl⟩
      refine ⟨r, ⟨a, p.used, o⟩ :: events, d, ?_, hopen', ?_, ?_⟩
      · exact bind_eq_ok.mpr ⟨_, hstep, bind_eq_ok.mpr ⟨_, hrun, rfl⟩⟩
      · rintro e (_ | ⟨_, he⟩)
        · exact hexact
        · exact hexact' e he
      · rw [List.flatMap_cons, List.flatMap_cons, ← List.append_assoc, hbytes, List.append_assoc,
          hbytes', List.append_assoc]

/-- A pipe is a lossless bounded queue. No call leaves the buffer or stops, and
what was delivered together with what is still in the buffer is what was
accepted, in the same order. -/
theorem run_pipeCreate_lossless (fresh : Nat → UInt8) (as : List Access) :
    ∃ p events b, run step (pipeCreate fresh) as = .ok (p, events) ∧
      (∀ e ∈ events, e.Exact) ∧
      events.flatMap Event.delivered ++ p.contents = events.flatMap Event.accepted ∧
      p.buffer = some b ∧ p.contents = b.slice p.readPos (p.writePos - p.readPos) ∧
      p.readPos ≤ p.writePos ∧ p.writePos ≤ p.size ∧ p.size ≤ MAX_PIPE_BUFFER_SIZE ∧
      p.size ≤ b.length := by
  obtain ⟨p, events, b, hrun, hopen, hexact, hbytes⟩ := run_eq (open_pipeCreate fresh) as
  rw [contents_pipeCreate, List.nil_append] at hbytes
  exact ⟨p, events, b, hrun, hexact, hbytes.symm, hopen.buffer, hopen.contents_eq,
    hopen.readPos_le, hopen.writePos_le, hopen.size_le_max, hopen.size_le⟩

end Ibnos.Pipes
