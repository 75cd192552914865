import Ibnos.FrameContents

/-!
What a process finds in the pages it is given. A frame is handed from one owner to
the next as it is, so two runs are compared which differ in the bytes that one
process stores. A third run, in which the bytes of that process are marked, says
where they have got to.
-/

namespace Ibnos.FreshMemory

open Ibnos.Memory
open Ibnos.Paging
open Ibnos.Programs
open Ibnos.References
open Ibnos.PagingOperations
open Ibnos.UserAccesses
open Ibnos.PagingRuns
open Ibnos.PagingPrograms
open Ibnos.FrameContents
open Ibnos.Runs

section

inductive Action where
  | event (e : Event)
  /-- the kernel writes a byte of one of its own pages -/
  | store (page offset : Nat) (value : BitVec 8)

def markTouches {length : Nat} (mark : BitVec 8) (touches : Touches length) : Touches length :=
  touches.map fun t => (t.1, t.2.1, t.2.2.map fun _ => mark)

/-- The bytes which are stored for the process `o` become 1 and all others 0. -/
def marked (o : Nat) : Action → Action
  | .event (.access (.write pid addr _)) =>
      .event (.access (.write pid addr (if pid = o then 1 else 0)))
  | .event (.access (.kernel pid src_addr length rw touches)) =>
      .event (.access
        (.kernel pid src_addr length rw (markTouches (if pid = o then 1 else 0) touches)))
  | .store page offset _ => .store page offset 0
  | action => action

def SamePlace {length : Nat} (t t' : Fin length × Fin PAGE_SIZE × Option (BitVec 8)) : Prop :=
  t.1 = t'.1 ∧ t.2.1 = t'.2.1 ∧ t.2.2.isSome = t'.2.2.isSome

/-- The same action but for the bytes which are stored for the process `o`. -/
inductive Alike (o : Nat) : Action → Action → Prop where
  | same (action : Action) : Alike o action action
  | write (addr : BitVec 32) (value value' : BitVec 8) :
      Alike o (.event (.access (.write o addr value))) (.event (.access (.write o addr value')))
  | kernel (src_addr length : BitVec 32) (rw : Bool) {touches touches' : Touches length.toNat}
      (h : List.Forall₂ SamePlace touches touches') :
      Alike o (.event (.access (.kernel o src_addr length rw touches)))
        (.event (.access (.kernel o src_addr length rw touches')))

/-- Nothing was stored yet. -/
def blank (s : Machine) : Machine := withMemory s fun _ _ => 0

end

section

/-! The three runs side by side. -/

inductive Which where
  | first
  | second
  | marks

/-- A byte without a mark is the same in both runs. -/
def Agreed (value : Which → BitVec 8) : Prop := value .marks ≠ 1 → value .second = value .first

def AgreedMemory (memory : Which → Nat → Nat → BitVec 8) : Prop :=
  ∀ f offset, Agreed fun i => memory i f offset

variable {α β : Type}

/-- The programs stop together or go on with agreed memories. -/
def Tied (R : (Which → α) → Prop) (m : Which → M α) : Prop :=
  ∀ s memory, AgreedMemory memory →
    (∃ e, ∀ i, m i (withMemory s (memory i)) = .error e) ∨
    ∃ a s' memory', R a ∧ AgreedMemory memory' ∧
      ∀ i, m i (withMemory s (memory i)) = .ok (a i, withMemory s' (memory' i))

theorem tied_pure {R : (Which → α) → Prop} {a : Which → α} (h : R a) :
    Tied R fun i => (pure (a i) : M α) :=
  fun s memory hmemory => Or.inr ⟨a, s, memory, h, hmemory, fun _ => rfl⟩

theorem Tied.bind {R : (Which → α) → Prop} {R' : (Which → β) → Prop} {m : Which → M α}
    {f : Which → α → M β} (hm : Tied R m) (hf : ∀ a, R a → Tied R' fun i => f i (a i)) :
    Tied R' fun i => m i >>= f i := by
  intro s memory hmemory
  rcases hm s memory hmemory with ⟨e, he⟩ | ⟨a, s', memory', ha, hmemory', hok⟩
  · refine Or.inl ⟨e, fun i => ?_⟩
    dsimp only
    rw [bind_apply, he]
  · rcases hf a ha s' memory' hmemory' with ⟨e, he⟩ | ⟨b, s'', memory'', hb, hmemory'', hok'⟩
    · refine Or.inl ⟨e, fun i => ?_⟩
      dsimp only
      rw [bind_apply, hok]
      exact he i
    · refine Or.inr ⟨b, s'', memory'', hb, hmemory'', fun i => ?_⟩
      dsimp only
      rw [bind_apply, hok]
      exact hok' i

theorem AgreedMemory.setByte {memory : Which → Nat → Nat → BitVec 8} (h : AgreedMemory memory)
    (frame offset : Nat) {value : Which → BitVec 8} (hvalue : Agreed value) :
    AgreedMemory fun i =>
      Function.update (memory i) frame (Function.update (memory i frame) offset (value i)) := by
  intro f offset'
  rcases eq_or_ne f frame with rfl | hf
  · rcases eq_or_ne offset' offset with rfl | hoffset
    · simpa only [Function.update_self] using hvalue
    · simpa only [Function.update_self, Function.update_of_ne hoffset] using h f offset'
  · simpa only [Function.update_of_ne hf] using h f offset'

end

section

end

section

variable {length : Nat}

/-- Bytes which are touched by three programs at the same places. -/
abbrev Places (length : Nat) := List (Fin length × Fin PAGE_SIZE × Option (Which → BitVec 8))

def Places.touches (places : Places length) (i : Which) : Touches length :=
  places.map fun t => (t.1, t.2.1, t.2.2.map fun value => value i)

def Places.Agreed (places : Places length) : Prop :=
  ∀ t ∈ places, ∀ value, t.2.2 = some value → FreshMemory.Agreed value

end

section

variable {o : Nat}

theorem Tied.mono {α : Type} {R R' : (Which → α) → Prop} {m : Which → M α} (h : Tied R m)
    (hR : ∀ a, R a → R' a) : Tied R' m := by
  intro s memory hmemory
  rcases h s memory hmemory with he | ⟨a, s', memory', ha, hok⟩
  · exact Or.inl he
  · exact Or.inr ⟨a, s', memory', hR a ha, hok⟩

theorem Tied.answer {α β : Type} {R : (Which → α) → Prop} {m : Which → M α} (h : Tied R m)
    (f : α → β) : Tied (fun _ => True) fun i => m i >>= fun a => pure (f a) :=
  h.bind fun _ _ => tied_pure trivial

end

section

/-! A process writes a byte, releases its page, and another process gets the frame. -/

end

end Ibnos.FreshMemory
