import Ibnos.FileContents

/-!
How a program reads a file. `_read_r` asks the kernel again and again until there is some
data or an error, and waits for the file in between.
-/

namespace Ibnos.FileReads

open Ibnos.Blocks
open Ibnos.FileContents
open Ibnos.Strings

/-- The position of the openedFile object, and what the calls do to the thread. -/
structure Caller where
  pos : Nat
  eax : Int := 0
  blocked : Bool := false

/-- `ACCESS_USER_MEMORY`, where `mappable` is the answer of `pagingTryMapUserMem` for the buffer. -/
def accessUserMemory (mappable : Bool) (byte_length : Nat) : Bool := byte_length == 0 || mappable

/-- The system call `SYSCALL_OBJECT_READ` for an openedFile object. -/
def objectRead (f : File) (mappable : Bool) (length : Nat) (t : Caller) :
    Except Fault (Bytes × Caller) :=
  let t := { t with eax := -1 }
  if accessUserMemory mappable length then do
    let (bytes, result, pos) ← openedFileRead f t.pos length
    return (bytes, { t with eax := result, pos := pos })
  else return ([], t)

/-- `openedFileFunctions.wait`, which is a null pointer. Any other one would return a queue. -/
def openedFileWait : Option (Nat → Option Nat) := none

/-- `__objectWait` -/
def objectWait (mode : Nat) : Option Nat := openedFileWait.bind fun wait => wait mode

def threadWait (mode : Nat) (t : Caller) : Caller :=
  let t := { t with eax := 0 }
  match objectWait mode with
  | some _ => { t with blocked := true }
  | none => t

/-- What has become of a call: it returned, the thread sleeps, or the loop goes on. -/
inductive Outcome
  | returned (bytes : Bytes) (ret : Int) (pos : Nat)
  | asleep
  | running
  deriving DecidableEq, Repr

/-- The loop of `_read_r`, for so many rounds. -/
def readLoop (f : File) (mappable : Bool) (len : Nat) : Nat → Caller → Except Fault Outcome
  | 0, _ => .ok .running
  | rounds + 1, t => do
      let (bytes, t) ← objectRead f mappable len t
      if t.eax ≠ 0 then return .returned bytes t.eax t.pos
      else
        let t := threadWait 0 t
        if t.blocked then return .asleep else readLoop f mappable len rounds t

/-- `_read_r` -/
def read_r (f : File) (mappable : Bool) (pos len rounds : Nat) : Except Fault Outcome := do
  match ← readLoop f mappable len rounds { pos := pos } with
  | .returned bytes ret pos => return .returned bytes (if 0 < ret then ret else 0) pos
  | outcome => return outcome

/-- The call returns after some rounds. -/
def Returns (f : File) (mappable : Bool) (pos len result : Nat) : Prop :=
  ∃ rounds bytes pos', read_r f mappable pos len rounds = .ok (.returned bytes result pos')

section

variable {f : File} {mappable : Bool} {pos len rounds result : Nat} {t : Caller} {bytes : Bytes}

/-- The result does not depend on the number of rounds. -/
theorem returns_iff (h : ∀ rounds, ∃ bytes pos', read_r f mappable pos len (rounds + 1) =
    .ok (.returned bytes (result : Nat) pos')) {n : Nat} : Returns f mappable pos len n ↔
      n = result := by
  constructor
  · rintro ⟨rounds, bytes, pos', hn⟩
    cases rounds with
    | zero => cases hn
    | succ rounds =>
        obtain ⟨bytes', pos'', hresult⟩ := h rounds
        rw [hn, Except.ok.injEq, Outcome.returned.injEq] at hresult
        exact Int.ofNat_inj.mp hresult.2.1
  · rintro rfl
    obtain ⟨bytes, pos', hn⟩ := h 0
    exact ⟨1, bytes, pos', hn⟩

end

end Ibnos.FileReads
