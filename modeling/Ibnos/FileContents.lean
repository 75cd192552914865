import Ibnos.Blocks
import Ibnos.Runs
import Ibnos.Strings
import Mathlib.Algebra.Group.Nat.Defs

/-!
The contents of a file, which are read, written and truncated through any number of
openedFile objects. The buffer of a file is a block of the heap, a part of the boot
archive, or not there as long as nothing was written.
-/

namespace Ibnos.FileContents

open Ibnos.Blocks
open Ibnos.Runs
open Ibnos.Strings

def WORD : Nat := 2 ^ 32

inductive Fault
  | assertion
  | nullPointer
  | outOfBounds (index : Nat)
  deriving DecidableEq, Repr

/-- An access to a buffer, as part of the code of this module. -/
def inBuffer {α : Type} : Except OutOfBounds α → Except Fault α
  | .ok x => .ok x
  | .error e => .error (.outOfBounds e.index)

structure File where
  isHeap : Bool
  buffer : Option (Block UInt8)
  size : Nat

/-- `fileCreate`, as far as it concerns the contents. -/
def fileCreate (staticBuffer : Option (Block UInt8)) (staticSize : Nat) : File :=
  match staticBuffer with
  | some b => { isHeap := false, buffer := some b, size := staticSize }
  | none => { isHeap := true, buffer := none, size := 0 }

/-- What the heap answers to a request: whether there is a block, how long it is,
and what its bytes hold which are not copied from an older block. -/
structure Answer where
  granted : Bool
  length : Nat
  bytes : Nat → UInt8

def heapAlloc (a : Answer) (length : Nat) : Option (Block UInt8) :=
  if length ≠ 0 ∧ a.granted then some ⟨a.length, a.bytes⟩ else none

/-- `heapReAlloc`, where nothing is left of a block which is resized to no bytes. -/
def heapReAlloc (a : Answer) (b : Block UInt8) (length : Nat) : Option (Block UInt8) :=
  if length ≠ 0 ∧ a.granted then some (b.resize a.length a.bytes) else none

/-- A range of bytes which were stored to the buffer. -/
structure Range where
  start : Nat
  count : Nat
  deriving DecidableEq, Repr

structure Written where
  file : File
  pos : Nat
  result : Int
  stored : List Range

/-- `new_buffer` -/
def newBuffer (f : File) (length : Nat) (a : Answer) : Option (Block UInt8) :=
  match f.isHeap, f.buffer with
  | true, some b => heapReAlloc a b length
  | _, _ => heapAlloc a length

/-- The contents of a static buffer are copied to the new one. -/
def copyStatic (f : File) (new : Block UInt8) : Except OutOfBounds (Block UInt8 × List Range) :=
  match f.isHeap, f.buffer with
  | false, some b => do
      let bytes ← b.loadList 0 f.size
      let new ← new.storeList 0 bytes
      return (new, [⟨0, f.size⟩])
  | _, _ => .ok (new, [])

/-- The bytes between the end of the file and the position are cleared. -/
def clearGap (f : File) (pos : Nat) (new : Block UInt8) :
    Except OutOfBounds (Block UInt8 × List Range) :=
  if f.size < pos then do
    let new ← new.storeList f.size (List.replicate (pos - f.size) 0)
    return (new, [⟨f.size, pos - f.size⟩])
  else .ok (new, [])

/-- The last step of `__openedFileWrite`, after the ranges `stored`. -/
def copyData (f : File) (pos : Nat) (buf : Bytes) (stored : List Range) : Except Fault Written :=
  match f.buffer with
  | none => .error .nullPointer
  | some b => do
      let b ← inBuffer (b.storeList pos buf)
      return { file := { f with buffer := some b }
               pos := (pos + buf.length) % WORD
               result := (buf.length : Int).bmod WORD
               stored := stored ++ [⟨pos, buf.length⟩] }

/-- `__openedFileWrite` -/
def openedFileWrite (f : File) (pos : Nat) (buf : Bytes) (a : Answer) : Except Fault Written :=
  let length := (pos + buf.length) % WORD
  if buf.length = 0 then .ok ⟨f, pos, 0, []⟩
  else if f.size < length then
    match newBuffer f length a with
    | some new => do
        let (new, copied) ← inBuffer (copyStatic f new)
        let (new, cleared) ← inBuffer (clearGap f pos new)
        copyData { isHeap := true, buffer := some new, size := length } pos buf (copied ++ cleared)
    | none =>
        if f.isHeap ∧ pos < f.size then
          if f.size - pos < buf.length then copyData f pos (buf.take (f.size - pos)) []
          else .error .assertion
        else .ok ⟨f, pos, 0, []⟩
  else copyData f pos buf []

/-- `__openedFileRead`. The bytes, the result and the new position. -/
def openedFileRead (f : File) (pos length : Nat) : Except Fault (Bytes × Int × Nat) :=
  if f.size ≤ pos then .ok ([], -1, pos)
  else
    let length := if f.size - pos < length then f.size - pos else length
    if 0 < length then
      match f.buffer with
      | none => .error .nullPointer
      | some b => do
          let bytes ← inBuffer (b.loadList pos length)
          return (bytes, (length : Int).bmod WORD, (pos + length) % WORD)
    else .ok ([], 0, pos)

/-- The buffer of a truncated file. -/
def truncatedBuffer (f : File) (pos : Nat) (a : Answer) : Option (Block UInt8) :=
  match f.isHeap, f.buffer with
  | true, some b =>
      match heapReAlloc a b pos with
      | some new => some new
      | none => if pos = 0 then none else some b
  | _, buffer => buffer

/-- `__openedFileShutdown` -/
def openedFileShutdown (f : File) (pos : Nat) (a : Answer) : File :=
  if pos < f.size then { f with buffer := truncatedBuffer f pos a, size := pos } else f

/-- `__openedFileGetStatus` -/
def openedFileGetStatus (f : File) (pos : Nat) (mode : Bool) : Int :=
  ((if mode then pos else f.size : Nat) : Int).bmod WORD

/-- One file, and the positions of the openedFile objects which belong to it. -/
structure State where
  file : File
  pos : Nat → Nat

/-- A call through the openedFile object `h`. -/
inductive Call
  | fileOpen (h : Nat)
  | signal (h result : Nat)
  | getStatus (h : Nat) (mode : Bool)
  | write (h : Nat) (buf : Bytes) (a : Answer)
  | read (h length : Nat)
  | shutdown (h : Nat) (a : Answer)

/-- The bytes which were read, and the result of the call. -/
structure Output where
  bytes : Bytes := []
  result : Int := 0
  deriving DecidableEq, Repr

def step (s : State) : Call → Except Fault (State × Output)
  | .fileOpen h => .ok ({ s with pos := Function.update s.pos h 0 }, {})
  | .signal h result => .ok ({ s with pos := Function.update s.pos h result }, {})
  | .getStatus h mode => .ok (s, { result := openedFileGetStatus s.file (s.pos h) mode })
  | .write h buf a => do
      let w ← openedFileWrite s.file (s.pos h) buf a
      return ({ file := w.file, pos := Function.update s.pos h w.pos }, { result := w.result })
  | .read h length => do
      let (bytes, result, pos) ← openedFileRead s.file (s.pos h) length
      return ({ s with pos := Function.update s.pos h pos }, ⟨bytes, result⟩)
  | .shutdown h a => .ok ({ s with file := openedFileShutdown s.file (s.pos h) a }, {})

/-! The purpose of a file: a list of bytes which grows with what is written. -/

structure Contents where
  bytes : Bytes
  pos : Nat → Nat

/-- The bytes in `[pos, pos + buf.length)` are replaced, with zero bytes in front of
them if the position is behind the end. -/
def replace (bytes : Bytes) (pos : Nat) (buf : Bytes) : Bytes :=
  bytes.take pos ++ List.replicate (pos - bytes.length) 0 ++ buf ++ bytes.drop (pos + buf.length)

/-- What a truncation cuts off is no longer part of the list. -/
def Contents.step (c : Contents) : Call → Contents × Output
  | .fileOpen h => ({ c with pos := Function.update c.pos h 0 }, {})
  | .signal h result => ({ c with pos := Function.update c.pos h result }, {})
  | .getStatus h mode =>
      (c, { result := ((if mode then c.pos h else c.bytes.length : Nat) : Int).bmod WORD })
  | .write h buf _ =>
      if buf = [] then (c, {})
      else ({ bytes := replace c.bytes (c.pos h) buf
              pos := Function.update c.pos h (c.pos h + buf.length) }, { result := buf.length })
  | .read h length =>
      if c.bytes.length ≤ c.pos h then (c, { result := -1 })
      else
        let n := min length (c.bytes.length - c.pos h)
        ({ c with pos := Function.update c.pos h (c.pos h + n) },
          ⟨(c.bytes.drop (c.pos h)).take n, n⟩)
  | .shutdown h _ =>
      (if c.pos h < c.bytes.length then { c with bytes := c.bytes.take (c.pos h) } else c, {})

/-- The bytes of a file. -/
def File.contents (f : File) : Bytes :=
  match f.buffer with
  | some b => b.slice 0 f.size
  | none => []

/-- The buffer of a file holds its bytes. -/
structure File.WellFormed (f : File) : Prop where
  size_lt : f.size < WORD
  buffer : ∀ b, f.buffer = some b → f.size ≤ b.length
  empty : f.buffer = none → f.isHeap = true ∧ f.size = 0

theorem wellFormed_fileCreate {staticBuffer : Option (Block UInt8)} {staticSize : Nat}
    (hlt : staticSize < WORD) (h : ∀ b, staticBuffer = some b → staticSize ≤ b.length) :
    (fileCreate staticBuffer staticSize).WellFormed := by
  cases staticBuffer with
  | none => exact ⟨Nat.two_pow_pos 32, nofun, fun _ => ⟨rfl, rfl⟩⟩
  | some b =>
      refine ⟨hlt, ?_, nofun⟩
      rintro _ ⟨⟩
      exact h b rfl

section

variable {f : File} {pos n : Nat} {buf : Bytes} {a : Answer} {b new : Block UInt8}
    {stored : List Range}

theorem length_contents (hf : f.WellFormed) : f.contents.length = f.size := by
  cases hb : f.buffer with
  | none => simp [File.contents, hb, (hf.empty hb).2]
  | some b => simp [File.contents, hb, length_slice]

theorem inBuffer_bind_ok {α β : Type} {x : Except OutOfBounds α} {y : α} {g : α → Except Fault β}
    (h : x = .ok y) : (inBuffer x >>= g) = g y := by
  rw [h]
  rfl

/-- The new buffer, after the contents of a static one were copied, begins with the
contents of the file. -/
theorem newBuffer_spec (hf : f.WellFormed) (hn : n ≠ 0) (ha : a.granted = true)
    (hsize : f.size ≤ a.length) :
    ∃ new c stored, newBuffer f n a = some new ∧ copyStatic f new = .ok (c, stored) ∧
      c.length = a.length ∧ c.slice 0 f.size = f.contents ∧
      ∀ r ∈ stored, r.start + r.count ≤ f.size := by
  have halloc : heapAlloc a n = some ⟨a.length, a.bytes⟩ := if_pos ⟨hn, ha⟩
  cases hb : f.buffer with
  | none =>
      obtain ⟨hheap, hzero⟩ := hf.empty hb
      refine ⟨⟨a.length, a.bytes⟩, ⟨a.length, a.bytes⟩, [], ?_, ?_, rfl, ?_, by simp⟩
      · simp [newBuffer, hb, halloc]
      · simp [copyStatic, hb]
      · rw [hzero, File.contents, hb]
        rfl
  | some b =>
      have hle := hf.buffer b hb
      have hcontents : f.contents = b.slice 0 f.size := by simp [File.contents, hb]
      cases hheap : f.isHeap with
      | true =>
          refine ⟨b.resize a.length a.bytes, b.resize a.length a.bytes, [], ?_, ?_, rfl,
            ?_, by simp⟩
          · simp [newBuffer, hb, hheap, heapReAlloc, hn, ha]
          · simp [copyStatic, hb, hheap]
          · rw [hcontents]
            apply slice_congr
            intro i hi
            exact if_pos (by omega)
      | false =>
          have hlen : (b.slice 0 f.size).length = f.size := length_slice _ _ _
          refine ⟨⟨a.length, a.bytes⟩, Block.overwrite ⟨a.length, a.bytes⟩ 0 (b.slice 0 f.size),
            [⟨0, f.size⟩], ?_, ?_, rfl, ?_, by simp⟩
          · simp [newBuffer, hheap, halloc]
          · simp only [copyStatic, hb, hheap]
            rw [loadList_eq (by omega)]
            change (Block.storeList _ 0 (b.slice 0 f.size) >>= _) = _
            rw [storeList_overwrite (show 0 + (b.slice 0 f.size).length ≤ a.length by omega)]
            rfl
          · have h := slice_overwrite_self ⟨a.length, a.bytes⟩ 0 (b.slice 0 f.size)
            rw [hlen] at h
            rw [hcontents, h]

theorem clearGap_spec (pos : Nat) (hpos : pos ≤ new.length)
    (hsize : new.slice 0 f.size = f.contents)
    (hlen : f.contents.length = f.size) :
    ∃ c stored, clearGap f pos new = .ok (c, stored) ∧ c.length = new.length ∧
      c.slice 0 pos = f.contents.take pos ++ List.replicate (pos - f.contents.length) 0 ∧
      ∀ r ∈ stored, r.start + r.count ≤ pos := by
  rw [clearGap]
  split_ifs with h
  · have hrep : (List.replicate (pos - f.size) (0 : UInt8)).length = pos - f.size :=
      List.length_replicate
    refine ⟨new.overwrite f.size (List.replicate (pos - f.size) 0), [⟨f.size, pos - f.size⟩],
      ?_, rfl, ?_, ?_⟩
    · rw [storeList_overwrite (by omega)]
      rfl
    · have hself := slice_overwrite_self new f.size (List.replicate (pos - f.size) 0)
      rw [hrep] at hself
      rw [show pos = f.size + (pos - f.size) by omega, slice_add, Nat.zero_add,
        ← show pos = f.size + (pos - f.size) by omega, hself, hlen,
        List.take_of_length_le (by omega), ← hsize]
      congr 1
      exact slice_congr fun i hi => cell_overwrite_of_lt (by omega)
    · simp only [List.mem_singleton, forall_eq]
      omega
  · refine ⟨new, [], rfl, rfl, ?_, by simp⟩
    rw [hlen, Nat.sub_eq_zero_of_le (by omega), List.replicate_zero, List.append_nil, ← hsize,
      take_slice, Nat.min_eq_left (by omega)]

/-- The data is between what was in front of it and what was behind it. -/
theorem slice_overwrite (h : pos + buf.length ≤ n) :
    (b.overwrite pos buf).slice 0 n =
      b.slice 0 pos ++ buf ++ b.slice (pos + buf.length) (n - (pos + buf.length)) := by
  conv_lhs => rw [show n = pos + buf.length +
    (n - (pos + buf.length)) by omega, slice_add, slice_add]
  rw [Nat.zero_add, Nat.zero_add, slice_overwrite_self]
  congr 1
  · congr 1
    exact slice_congr fun i hi => cell_overwrite_of_lt (by omega)
  · exact slice_congr fun i hi => cell_overwrite_of_le (by omega)

theorem copyData_eq (hb : f.buffer = some b) (h : pos + buf.length ≤ b.length) :
    copyData f pos buf stored = .ok
      { file := { f with buffer := some (b.overwrite pos buf) }
        pos := (pos + buf.length) % WORD
        result := (buf.length : Int).bmod WORD
        stored := stored ++ [⟨pos, buf.length⟩] } := by
  simp only [copyData, hb]
  rw [storeList_overwrite h]
  rfl

/-- A write inside of the file. -/
theorem openedFileWrite_inside (hf : f.WellFormed) (hbuf : buf.length ≠ 0)
    (hfits : pos + buf.length ≤ f.size) :
    ∃ b, f.buffer = some b ∧ openedFileWrite f pos buf a = .ok
      { file := { f with buffer := some (b.overwrite pos buf) }
        pos := pos + buf.length
        result := (buf.length : Int).bmod WORD
        stored := [⟨pos, buf.length⟩] } := by
  have hlt := hf.size_lt
  cases hb : f.buffer with
  | none =>
      have := (hf.empty hb).2
      omega
  | some b =>
      have hle := hf.buffer b hb
      have hmod : (pos + buf.length) % WORD = pos + buf.length := Nat.mod_eq_of_lt (by omega)
      refine ⟨b, rfl, ?_⟩
      rw [openedFileWrite, if_neg hbuf, hmod, if_neg (by omega), copyData_eq hb (by omega), hmod]
      rfl

/-- A write behind the end of the file, for which there is a block of the heap. -/
theorem openedFileWrite_grows (hf : f.WellFormed) (hbuf : buf.length ≠ 0)
    (hlt : pos + buf.length < WORD) (hgrow : f.size < pos + buf.length) (ha : a.granted = true)
    (hroom : pos + buf.length ≤ a.length) :
    ∃ b stored, openedFileWrite f pos buf a = .ok
      { file := { isHeap := true, buffer := some b, size := pos + buf.length }
        pos := pos + buf.length
        result := (buf.length : Int).bmod WORD
        stored := stored } ∧
      b.length = a.length ∧ b.slice 0 (pos + buf.length) = replace f.contents pos buf ∧
      ∀ r ∈ stored, r.start + r.count ≤ pos + buf.length := by
  have hmod : (pos + buf.length) % WORD = pos + buf.length := Nat.mod_eq_of_lt hlt
  have hlen := length_contents hf
  obtain ⟨new, c, copied, hnew, hcopy, hclen, hcslice, hcopied⟩ :=
    newBuffer_spec (n := pos + buf.length) hf (by omega) ha (by omega)
  obtain ⟨d, cleared, hclear, hdlen, hdslice, hcleared⟩ :=
    clearGap_spec pos (hclen ▸ by omega) hcslice hlen
  refine ⟨d.overwrite pos buf, copied ++ cleared ++ [⟨pos, buf.length⟩], ?_, ?_, ?_, ?_⟩
  · simp only [openedFileWrite, hmod, if_neg hbuf, if_pos hgrow, hnew]
    rw [inBuffer_bind_ok hcopy]
    change (inBuffer (clearGap f pos c) >>= _) = _
    rw [inBuffer_bind_ok hclear]
    change copyData _ pos buf (copied ++ cleared) = _
    rw [copyData_eq (b := d) rfl (by omega), hmod]
  · exact hdlen.trans hclen
  · rw [slice_overwrite (Nat.le_refl _), Nat.sub_self, hdslice, replace,
      List.drop_eq_nil_of_le (by omega)]
    rfl
  · intro r hr
    simp only [List.mem_append, List.mem_singleton] at hr
    rcases hr with (hr | hr) | rfl
    · have := hcopied r hr
      omega
    · have := hcleared r hr
      omega
    · exact Nat.le_refl _

/-- A write for which there is room follows the list of bytes. -/
theorem openedFileWrite_spec (hf : f.WellFormed) (hbuf : buf ≠ []) (hlt : pos + buf.length < 2 ^ 31)
    (ha : a.granted = true) (hroom : pos + buf.length ≤ a.length) :
    ∃ w, openedFileWrite f pos buf a = .ok w ∧ w.file.WellFormed ∧
      w.file.contents = replace f.contents pos buf ∧ w.pos = pos + buf.length ∧
      w.result = buf.length := by
  have hword : WORD = 2 ^ 31 * 2 := rfl
  have hne : buf.length ≠ 0 := fun h => hbuf (List.length_eq_zero_iff.mp h)
  have hresult : (buf.length : Int).bmod WORD = buf.length := by
    apply Int.bmod_eq_of_le <;> omega
  have hlen := length_contents hf
  by_cases hgrow : f.size < pos + buf.length
  · obtain ⟨b, stored, hw, hblen, hslice, -⟩ :=
      openedFileWrite_grows hf hne (by omega) hgrow ha hroom
    refine ⟨_, hw, ⟨by simp only; omega, ?_, nofun⟩, hslice, rfl, by simp only [hresult]⟩
    rintro _ ⟨⟩
    exact hblen ▸ hroom
  · obtain ⟨b, hb, hw⟩ := openedFileWrite_inside (a := a) hf hne (Nat.le_of_not_lt hgrow)
    have hcontents : f.contents = b.slice 0 f.size := by simp [File.contents, hb]
    refine ⟨_, hw, ⟨hf.size_lt, ?_, nofun⟩, ?_, rfl, by simp only [hresult]⟩
    · rintro _ ⟨⟩
      exact hf.buffer b hb
    · change (b.overwrite pos buf).slice 0 f.size = _
      rw [slice_overwrite (by omega), replace, hlen, show pos - f.size = 0 by omega,
        List.replicate_zero, List.append_nil, hcontents, take_slice, drop_slice,
        Nat.min_eq_left (by omega), Nat.zero_add]

/-- The result is a number of 32 bits with a sign. -/
theorem openedFileRead_eq (hf : f.WellFormed) (n : Nat) (hpos : pos < f.size) :
    openedFileRead f pos n = .ok ((f.contents.drop pos).take (min n (f.size - pos)),
      ((min n (f.size - pos) : Nat) : Int).bmod WORD, pos + min n (f.size - pos)) := by
  cases hb : f.buffer with
  | none =>
      have := (hf.empty hb).2
      omega
  | some b =>
      have hle := hf.buffer b hb
      have hsize := hf.size_lt
      have hcontents : f.contents = b.slice 0 f.size := by simp [File.contents, hb]
      have hmin : (if f.size - pos < n then f.size - pos else n) = min n (f.size - pos) := by
        split_ifs <;> omega
      rw [openedFileRead, if_neg (by omega)]
      simp only [hmin, hb]
      split_ifs with hn
      · rw [loadList_eq (by omega), hcontents, drop_slice, take_slice,
          Nat.min_eq_left (Nat.min_le_right _ _), Nat.zero_add]
        change Except.ok (_, (_ : Int).bmod WORD, _ % WORD) = _
        rw [Nat.mod_eq_of_lt (by omega)]
      · obtain hzero : min n (f.size - pos) = 0 := by omega
        rw [hzero]
        rfl

theorem openedFileRead_spec (hf : f.WellFormed) (hlt : pos + n < 2 ^ 31) (hpos : pos < f.size) :
    openedFileRead f pos n = .ok ((f.contents.drop pos).take (min n (f.size - pos)),
      (min n (f.size - pos) : Nat), pos + min n (f.size - pos)) := by
  have hword : WORD = 2 ^ 31 * 2 := rfl
  rw [openedFileRead_eq hf n hpos, Int.bmod_eq_of_le (by omega) (by omega)]

/-- A truncation cuts the list, and nothing is left of what was behind the position. -/
theorem openedFileShutdown_spec (hf : f.WellFormed) (ha : a.granted = true → pos ≤ a.length)
    (hpos : pos < f.size) : (openedFileShutdown f pos a).WellFormed ∧
      (openedFileShutdown f pos a).contents = f.contents.take pos := by
  have hsize := hf.size_lt
  rw [openedFileShutdown, if_pos hpos]
  cases hb : f.buffer with
  | none =>
      have := (hf.empty hb).2
      omega
  | some b =>
      have hle := hf.buffer b hb
      have hcontents : f.contents.take pos = b.slice 0 pos := by
        simp only [File.contents, hb]
        rw [take_slice, Nat.min_eq_left (by omega)]
      cases hheap : f.isHeap with
      | false =>
          have htrunc : truncatedBuffer f pos a = some b := by simp [truncatedBuffer, hb, hheap]
          rw [htrunc]
          refine ⟨⟨by simp only; omega, ?_, nofun⟩, hcontents.symm⟩
          rintro _ ⟨⟩
          exact (Nat.le_of_lt hpos).trans hle
      | true =>
          by_cases hnew : pos ≠ 0 ∧ a.granted = true
          · have htrunc : truncatedBuffer f pos a = some (b.resize a.length a.bytes) := by
              simp [truncatedBuffer, hb, hheap, heapReAlloc, hnew]
            rw [htrunc]
            refine ⟨⟨by simp only; omega, ?_, nofun⟩, ?_⟩
            · rintro _ ⟨⟩
              exact ha hnew.2
            · rw [hcontents]
              apply slice_congr
              intro i hi
              exact if_pos (show 0 + i < b.length by simp only at hi; omega)
          · have htrunc : truncatedBuffer f pos a = if pos = 0 then none else some b := by
              simp only [truncatedBuffer, hb, hheap, heapReAlloc, if_neg hnew]
            rw [htrunc]
            split_ifs with hzero
            · subst hzero
              exact ⟨⟨Nat.two_pow_pos 32, nofun, fun _ => ⟨rfl, rfl⟩⟩, (List.take_zero ..).symm⟩
            · refine ⟨⟨by simp only; omega, ?_, nofun⟩, hcontents.symm⟩
              rintro _ ⟨⟩
              exact (Nat.le_of_lt hpos).trans hle

end

/-- No position and length add up to `2 ^ 31`, and the heap has a block of the size
which it is asked for. -/
def Allowed (s : State) : Call → Prop
  | .fileOpen _ => True
  | .signal _ _ => True
  | .getStatus _ _ => True
  | .write h buf a => s.pos h + buf.length < 2 ^ 31 ∧ a.granted = true ∧
      s.pos h + buf.length ≤ a.length
  | .read h length => s.pos h + length < 2 ^ 31
  | .shutdown h a => a.granted = true → s.pos h ≤ a.length

/-- The file and the list of its bytes, with the same positions. -/
structure Represents (s : State) (c : Contents) : Prop where
  wellFormed : s.file.WellFormed
  bytes : c.bytes = s.file.contents
  pos : c.pos = s.pos

theorem step_represents {s : State} {c : Contents} {call : Call} (h : Represents s c)
    (hok : Allowed s call) : ∃ s', step s call = .ok (s', (c.step call).2) ∧
      Represents s' (c.step call).1 := by
  obtain ⟨hf, hbytes, hpos⟩ := h
  obtain ⟨bytes, pos⟩ := c
  simp only at hbytes hpos
  subst hbytes hpos
  have hlen := length_contents hf
  cases call with
  | fileOpen k => exact ⟨_, rfl, hf, rfl, rfl⟩
  | signal k result => exact ⟨_, rfl, hf, rfl, rfl⟩
  | getStatus k mode =>
      refine ⟨s, ?_, hf, rfl, rfl⟩
      simp only [step, openedFileGetStatus, Contents.step, hlen]
  | write k buf a =>
      by_cases hbuf : buf = []
      · subst hbuf
        refine ⟨s, ?_, hf, rfl, rfl⟩
        have hsame : Function.update s.pos k (s.pos k) = s.pos := Function.update_eq_self k s.pos
        change Except.ok (State.mk s.file (Function.update s.pos k (s.pos k)), Output.mk [] 0) = _
        rw [hsame]
        rfl
      · obtain ⟨w, hw, hwf, hcontents, hwpos, hresult⟩ :=
          openedFileWrite_spec hf hbuf hok.1 hok.2.1 hok.2.2
        refine ⟨⟨w.file, Function.update s.pos k w.pos⟩, ?_, hwf, ?_, ?_⟩
        · simp only [step, Contents.step, if_neg hbuf]
          rw [hw, ← hresult]
          rfl
        · simp only [Contents.step, if_neg hbuf, hcontents]
        · simp only [Contents.step, if_neg hbuf, hwpos]
  | read k length =>
      by_cases hend : s.file.size ≤ s.pos k
      · refine ⟨s, ?_, hf, ?_, ?_⟩
        · simp only [step, Contents.step, openedFileRead, hlen, if_pos hend]
          change Except.ok
            (State.mk s.file (Function.update s.pos k (s.pos k)), Output.mk [] (-1)) = _
          rw [Function.update_eq_self]
        · simp only [Contents.step, hlen, if_pos hend]
        · simp only [Contents.step, hlen, if_pos hend]
      · have hread := openedFileRead_spec hf hok (Nat.lt_of_not_le hend)
        refine ⟨⟨s.file, Function.update s.pos k
          (s.pos k + min length (s.file.size - s.pos k))⟩, ?_, hf, ?_, ?_⟩
        · simp only [step, Contents.step, hlen, if_neg hend]
          rw [hread]
          rfl
        · simp only [Contents.step, hlen, if_neg hend]
        · simp only [Contents.step, hlen, if_neg hend]
  | shutdown k a =>
      by_cases hend : s.pos k < s.file.size
      · obtain ⟨hwf, hcontents⟩ := openedFileShutdown_spec hf hok hend
        refine ⟨_, rfl, hwf, ?_, ?_⟩
        · simp only [Contents.step, hlen, if_pos hend, hcontents]
        · simp only [Contents.step, hlen, if_pos hend]
      · refine ⟨_, rfl, ?_, ?_, ?_⟩
        · simpa only [openedFileShutdown, if_neg hend] using hf
        · simp only [Contents.step, hlen, if_neg hend, openedFileShutdown]
        · simp only [Contents.step, hlen, if_neg hend]

/-- Whatever is done to a file through its openedFile objects, the file behaves as the
list of its bytes. -/
theorem file_follows_contents {f : File} {pos : Nat → Nat} {calls : List Call} (hf : f.WellFormed)
    (hok : Along step Allowed ⟨f, pos⟩ calls) :
    ∃ s', run step ⟨f, pos⟩ calls =
        .ok (s', (runTotal Contents.step ⟨f.contents, pos⟩ calls).2) ∧
      Represents s' (runTotal Contents.step ⟨f.contents, pos⟩ calls).1 := by
  have hstart : Represents ⟨f, pos⟩ ⟨f.contents, pos⟩ := ⟨hf, rfl, rfl⟩
  obtain ⟨s', os, hrun, -⟩ := run_along (I := fun s => ∃ c, Represents s c) (by
    rintro s call ⟨c, hs⟩ hcall
    obtain ⟨s', hstep, hs'⟩ := step_represents hs hcall
    exact ⟨s', _, hstep, _, hs'⟩) ⟨_, hstart⟩ hok
  obtain ⟨hs', hos⟩ := run_simulation (R := Represents) (by
    intro s c call s' o hs hcall hstep
    obtain ⟨s'', hstep', hs''⟩ := step_represents hs hcall
    obtain ⟨rfl, rfl⟩ := Prod.mk.inj (Except.ok.inj (hstep.symm.trans hstep'))
    exact ⟨hs'', rfl⟩) hstart hok hrun
  exact ⟨s', hrun.trans (congrArg (fun os => Except.ok (s', os)) hos), hs'⟩

/-- A file of the boot archive with five bytes. -/
def bootFile : File := fileCreate (some ⟨5, fun _ => 65⟩) 5

/-- The file is cut to two bytes, and then a byte is written behind the end of it. -/
def bootCalls : List Call :=
  [.signal 0 2, .shutdown 0 ⟨false, 0, fun _ => 0⟩, .signal 1 4,
    .write 1 [66] ⟨true, 5, fun _ => 255⟩, .signal 0 0, .read 0 9]

theorem bootFile_follows_contents :
    ∃ s', run step ⟨bootFile, fun _ => 0⟩ bootCalls =
        .ok (s', [{}, {}, {}, { result := 1 }, {}, ⟨[65, 65, 0, 0, 66], 5⟩]) ∧
      s'.file.contents = [65, 65, 0, 0, 66] := by
  have hf : bootFile.WellFormed := wellFormed_fileCreate (by decide) (by rintro _ ⟨⟩; decide)
  have hok : Along step Allowed ⟨bootFile, fun _ => 0⟩ bootCalls :=
    ⟨trivial, nofun, trivial, ⟨by decide, rfl, by decide⟩, trivial,
      (by decide : 0 + 9 < 2 ^ 31), trivial⟩
  obtain ⟨s', hrun, hs'⟩ := file_follows_contents hf hok
  exact ⟨s', hrun, hs'.bytes.symm⟩

end Ibnos.FileContents
