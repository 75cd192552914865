import Ibnos.Pipes

/-!
The wait queues of a kernel pipe object. A waiting thread (or a subEvent on its
behalf) unlinks itself when it is signalled, so that `queueWakeup` takes the
objects which it signals out of the queue.
-/

namespace Ibnos.PipeQueues

open Ibnos.Blocks
open Ibnos.Pipes
open Ibnos.Runs

variable {ω : Type}

/-- `queueWakeup`. The objects which stay in the queue, and those which are signalled. -/
def queueWakeup (queue : List ω) (all : Bool) : List ω × List ω :=
  if all then ([], queue) else (queue.tail, queue.take 1)

structure PipeObject (ω : Type) where
  pipe : Pipe
  writeWaiters : List ω := []
  readWaiters : List ω := []

/-- `__pipeShutdown` without the wait queues. Nothing is released while there is
something left to read. -/
def closePipe (p : Pipe) (mode : Bool) : Pipe :=
  if mode ∧ p.writePos ≠ p.readPos then { p with writeable := false }
  else { buffer := none, size := 0, writePos := 0, readPos := 0, writeable := false }

/-- `__pipeShutdown`. The write side is closed in either mode. -/
def pipeShutdown (s : PipeObject ω) (mode : Bool) : PipeObject ω :=
  { pipe := closePipe s.pipe mode
    writeWaiters := (queueWakeup s.writeWaiters true).1
    readWaiters :=
      if mode ∧ s.pipe.writePos ≠ s.pipe.readPos then s.readWaiters
      else (queueWakeup s.readWaiters true).1 }

/-- `__pipeGetStatus` -/
def pipeGetStatus (p : Pipe) (mode : Bool) : Int :=
  if p.writeable = false ∧ (mode = true ∨ p.used = 0) then -1
  else if mode then (MAX_PIPE_BUFFER_SIZE - p.used : Nat)
  else (p.used : Nat)

/-- `__pipeWait`. There is no result if the caller has to wait. -/
def pipeWait (p : Pipe) (mode : Bool) : Option Int :=
  if mode then
    if p.writeable = false then some (-1)
    else if MAX_PIPE_BUFFER_SIZE ≤ p.used then none
    else some (MAX_PIPE_BUFFER_SIZE - p.used : Nat)
  else
    if p.writeable = false ∧ p.used = 0 then some (-1)
    else if p.used = 0 then none
    else some (p.used : Nat)

/-- The caller of `__pipeWait` is added to the queue which was returned. -/
def enqueue (s : PipeObject ω) (mode : Bool) (w : ω) : PipeObject ω :=
  if mode then { s with writeWaiters := w :: s.writeWaiters }
  else { s with readWaiters := w :: s.readWaiters }

inductive Call (ω : Type)
  | wait (mode : Bool) (w : ω)
  | write (buf : List UInt8) (fresh : Nat → UInt8)
  | read (length : Nat)
  | shutdown (mode : Bool)

/-- The result of a call, none if the caller is blocked. -/
def step (s : PipeObject ω) : Call ω → Except Fault (PipeObject ω × Option Int)
  | .wait mode w =>
      match pipeWait s.pipe mode with
      | some r => .ok (s, some r)
      | none => .ok (enqueue s mode w, none)
  | .write buf fresh => do
      let (o, p) ← pipeWrite s.pipe buf fresh
      let readWaiters := if o.wakeup.isSome then (queueWakeup s.readWaiters true).1 else s.readWaiters
      return ({ s with pipe := p, readWaiters := readWaiters }, some o.result)
  | .read length => do
      let (o, p) ← pipeRead s.pipe length
      let writeWaiters :=
        if o.wakeup.isSome then (queueWakeup s.writeWaiters true).1 else s.writeWaiters
      return ({ s with pipe := p, writeWaiters := writeWaiters }, some o.result)
  | .shutdown mode => .ok (pipeShutdown s mode, some 0)

/-- A pipe whose write side was closed while there was something left to read. -/
structure Draining (p : Pipe) (b : Block UInt8) : Prop where
  writeable : p.writeable = false
  buffer : p.buffer = some b
  readPos_lt : p.readPos < p.writePos
  writePos_le : p.writePos ≤ b.length
  used_le : p.used ≤ MAX_PIPE_BUFFER_SIZE

structure Closed (p : Pipe) : Prop where
  writeable : p.writeable = false
  buffer : p.buffer = none
  positions : p.writePos = p.readPos

def Valid (p : Pipe) : Prop := (∃ b, Open p b) ∨ (∃ b, Draining p b) ∨ Closed p

theorem Closed.used {p : Pipe} (h : Closed p) : p.used = 0 := by
  rw [Pipe.used, h.positions, Nat.sub_self]

/-- Nobody waits who could proceed. -/
structure Inv (s : PipeObject ω) : Prop where
  valid : Valid s.pipe
  readers : s.readWaiters ≠ [] → s.pipe.writeable = true ∧ s.pipe.used = 0
  writers : s.writeWaiters ≠ [] → s.pipe.writeable = true ∧ s.pipe.used = MAX_PIPE_BUFFER_SIZE

section

variable {p : Pipe} {s : PipeObject ω}

theorem Valid.used_le (h : Valid p) : p.used ≤ MAX_PIPE_BUFFER_SIZE := by
  rcases h with ⟨b, h⟩ | ⟨b, h⟩ | h
  · exact h.used_le
  · exact h.used_le
  · rw [h.used]
    exact Nat.zero_le _

theorem Valid.buffer_ne_none (h : Valid p) (hp : p.writeable = true ∨ p.used ≠ 0) :
    p.buffer ≠ none := by
  rcases h with ⟨b, h⟩ | ⟨b, h⟩ | h
  · rw [h.buffer]
    exact nofun
  · rw [h.buffer]
    exact nofun
  · rw [h.writeable, h.used] at hp
    simp at hp

theorem Valid.open_of_writeable (h : Valid p) (hp : p.writeable = true) : ∃ b, Open p b := by
  rcases h with h | ⟨b, h⟩ | h
  · exact h
  · rw [h.writeable] at hp
    cases hp
  · rw [h.writeable] at hp
    cases hp

theorem length_contents {b : Block UInt8} (h : Open p b) : p.contents.length = p.used := by
  rw [h.contents_eq, length_slice]

/-- A write to an open pipe, with its effect on the readers. -/
theorem pipeWrite_open {b : Block UInt8} (h : Open p b) (buf : List UInt8) (fresh : Nat → UInt8) :
    ∃ o q c, pipeWrite p buf fresh = .ok (o, q) ∧ Open q c ∧
      o.result = min buf.length (MAX_PIPE_BUFFER_SIZE - p.used) ∧
      q.used = p.used + min buf.length (MAX_PIPE_BUFFER_SIZE - p.used) ∧
      (o.wakeup = none → q.used = 0) := by
  obtain ⟨o, q, c, hwrite, hopen, hresult, hcontents⟩ := pipeWrite_eq h buf fresh
  have hused : q.used = p.used + min buf.length (MAX_PIPE_BUFFER_SIZE - p.used) := by
    have := congrArg List.length hcontents
    rw [List.length_append, length_contents hopen, length_contents h, List.length_take] at this
    omega
  refine ⟨o, q, c, hwrite, hopen, hresult, hused, fun hwakeup => ?_⟩
  rw [pipeWrite, if_neg (by simp [h.writeable]), h.buffer] at hwrite
  obtain ⟨⟨q₁, b₁⟩, -, hwrite⟩ := bind_eq_ok.mp hwrite
  obtain ⟨⟨q₂, b₂⟩, -, hwrite⟩ := bind_eq_ok.mp hwrite
  cases hwrite
  by_contra hne
  rw [hused] at hne
  simp only [if_pos hne] at hwakeup
  cases hwakeup

theorem pipeRead_open {b : Block UInt8} (h : Open p b) (length : Nat) :
    ∃ o q, pipeRead p length = .ok (o, q) ∧ Open q b ∧ o.result = min length p.used ∧
      q.used = p.used - min length p.used ∧
      (o.wakeup = none → q.used = MAX_PIPE_BUFFER_SIZE) := by
  obtain ⟨o, q, hread, hopen, hresult, hlength, hcontents⟩ := pipeRead_eq h length
  have hused : q.used = p.used - min length p.used := by
    have := congrArg List.length hcontents
    rw [List.length_append, length_contents hopen, length_contents h] at this
    omega
  refine ⟨o, q, hread, hopen, hresult, hused, fun hwakeup => ?_⟩
  rw [pipeRead, if_neg (by simp [h.writeable]), h.buffer] at hread
  obtain ⟨⟨bytes, q₁⟩, -, hread⟩ := bind_eq_ok.mp hread
  have hle := h.used_le
  cases hread
  by_contra hne
  rw [hused] at hne
  simp only at hwakeup
  rw [if_pos (by omega)] at hwakeup
  cases hwakeup

theorem extract_draining {b : Block UInt8} {length : Nat} (h : Draining p b)
    (hlength : length ≤ p.used) :
    extract p b length =
      .ok (b.slice p.readPos length, { p with readPos := p.readPos + length }) := by
  have hwritePos := h.writePos_le
  unfold Pipe.used at hlength
  rw [extract]
  split_ifs with hpos
  · rw [loadList_eq (by omega)]
    rfl
  · obtain rfl : length = 0 := by omega
    rfl

/-- What is left of a pipe which is drained goes away with the last byte. -/
theorem pipeRead_draining {b : Block UInt8} (h : Draining p b) (length : Nat) :
    ∃ o q, pipeRead p length = .ok (o, q) ∧ Valid q ∧ q.writeable = false ∧
      o.result = min length p.used := by
  have hlt := h.readPos_lt
  have hused : p.used ≠ 0 := by
    unfold Pipe.used
    omega
  have hread : ∃ o, pipeRead p length =
      .ok (o, resetIfEmpty { p with readPos := p.readPos + min length p.used } b) ∧
        o.result = min length p.used := by
    rw [pipeRead, if_neg (fun hp => hused hp.2), h.buffer]
    simp only [extract_draining h (Nat.min_le_right length p.used), bind, Except.bind]
    exact ⟨_, rfl, rfl⟩
  obtain ⟨o, hread, hresult⟩ := hread
  refine ⟨o, _, hread, ?_, ?_, hresult⟩
  · rw [resetIfEmpty]
    split_ifs with hempty hwriteable
    · rw [h.writeable] at hwriteable
      cases hwriteable
    · exact Or.inr (Or.inr ⟨h.writeable, rfl, rfl⟩)
    · refine Or.inr (Or.inl ⟨b, h.writeable, rfl, ?_, h.writePos_le, ?_⟩)
      · have hle : p.readPos + min length p.used ≤ p.writePos := by
          unfold Pipe.used
          omega
        exact lt_of_le_of_ne hle hempty
      · have hle := h.used_le
        change p.writePos - (p.readPos + min length p.used) ≤ _
        unfold Pipe.used at hle
        omega
  · rw [resetIfEmpty]
    split_ifs with hempty hwriteable
    · rw [h.writeable] at hwriteable
      cases hwriteable
    · exact h.writeable
    · exact h.writeable

theorem valid_closePipe (h : Valid p) (mode : Bool) : Valid (closePipe p mode) := by
  rw [closePipe]
  split_ifs with hleft
  · rcases h with ⟨b, h⟩ | ⟨b, h⟩ | h
    · refine Or.inr (Or.inl ⟨b, rfl, h.buffer, ?_, h.writePos_le.trans h.size_le, h.used_le⟩)
      exact lt_of_le_of_ne h.readPos_le hleft.2.symm
    · exact Or.inr (Or.inl ⟨b, rfl, h.buffer, h.readPos_lt, h.writePos_le, h.used_le⟩)
    · exact Or.inr (Or.inr ⟨rfl, h.buffer, h.positions⟩)
  · exact Or.inr (Or.inr ⟨rfl, rfl, rfl⟩)

theorem used_of_ne (h : Valid p) (hne : p.writePos ≠ p.readPos) : p.used ≠ 0 := by
  rcases h with ⟨b, h⟩ | ⟨b, h⟩ | h
  · have := h.readPos_le
    unfold Pipe.used
    omega
  · have := h.readPos_lt
    unfold Pipe.used
    omega
  · exact (hne h.positions).elim

theorem inv_wait (h : Inv s) {mode : Bool} (hwait : pipeWait s.pipe mode = none) (w : ω) :
    Inv (enqueue s mode w) := by
  have hle := h.valid.used_le
  rw [pipeWait] at hwait
  split_ifs at hwait with hmode hclosed hfull hclosed hempty
  · have hwriteable : s.pipe.writeable = true := by simpa using hclosed
    rw [enqueue, if_pos hmode]
    exact ⟨h.valid, h.readers, fun _ => ⟨hwriteable, Nat.le_antisymm hle hfull⟩⟩
  · have hwriteable : s.pipe.writeable = true := by simpa [hempty] using hclosed
    rw [enqueue, if_neg hmode]
    exact ⟨h.valid, fun _ => ⟨hwriteable, hempty⟩, h.writers⟩

theorem inv_write (h : Inv s) (buf : List UInt8) (fresh : Nat → UInt8) :
    ∃ s' r, step s (.write buf fresh) = .ok (s', r) ∧ Inv s' := by
  rcases hw : s.pipe.writeable with _ | _
  · have hwrite : pipeWrite s.pipe buf fresh = .ok (⟨-1, [], none⟩, s.pipe) := by
      rw [pipeWrite, if_pos hw]
    refine ⟨_, _, bind_eq_ok.mpr ⟨_, hwrite, rfl⟩, h.valid, h.readers, h.writers⟩
  · obtain ⟨b, hopen⟩ := h.valid.open_of_writeable hw
    obtain ⟨o, q, c, hwrite, hopen', -, hused, hwakeup⟩ := pipeWrite_open hopen buf fresh
    refine ⟨_, _, bind_eq_ok.mpr ⟨_, hwrite, rfl⟩, Or.inl ⟨c, hopen'⟩, fun hne => ?_, fun hne => ?_⟩
    · refine ⟨hopen'.writeable, ?_⟩
      rcases ho : o.wakeup with _ | r
      · exact hwakeup ho
      · rw [ho] at hne
        exact (hne rfl).elim
    · have hfull := (h.writers hne).2
      exact ⟨hopen'.writeable, by rw [hused, hfull, Nat.sub_self, Nat.min_zero, Nat.add_zero]⟩

theorem inv_read (h : Inv s) (length : Nat) :
    ∃ s' r, step s (.read length) = .ok (s', r) ∧ Inv s' := by
  rcases h.valid with ⟨b, hopen⟩ | ⟨b, hdraining⟩ | hclosed
  · obtain ⟨o, q, hread, hopen', -, hused, hwakeup⟩ := pipeRead_open hopen length
    refine ⟨_, _, bind_eq_ok.mpr ⟨_, hread, rfl⟩, Or.inl ⟨b, hopen'⟩, fun hne => ?_, fun hne => ?_⟩
    · have hempty := (h.readers hne).2
      exact ⟨hopen'.writeable, by rw [hused, hempty, Nat.zero_sub]⟩
    · refine ⟨hopen'.writeable, ?_⟩
      rcases ho : o.wakeup with _ | r
      · exact hwakeup ho
      · rw [ho] at hne
        exact (hne rfl).elim
  · have hnobody : s.readWaiters = [] ∧ s.writeWaiters = [] := by
      refine ⟨?_, ?_⟩ <;> by_contra hne
      · have := (h.readers hne).1
        rw [hdraining.writeable] at this
        cases this
      · have := (h.writers hne).1
        rw [hdraining.writeable] at this
        cases this
    obtain ⟨o, q, hread, hvalid, -, -⟩ := pipeRead_draining hdraining length
    refine ⟨_, _, bind_eq_ok.mpr ⟨_, hread, rfl⟩, hvalid, fun hne => (hne hnobody.1).elim, ?_⟩
    rw [hnobody.2]
    intro hne
    split at hne <;> exact (hne rfl).elim
  · have hread : pipeRead s.pipe length = .ok (⟨-1, [], none⟩, s.pipe) := by
      rw [pipeRead, if_pos ⟨hclosed.writeable, hclosed.used⟩]
    exact ⟨_, _, bind_eq_ok.mpr ⟨_, hread, rfl⟩, h.valid, h.readers, h.writers⟩

theorem inv_shutdown (h : Inv s) (mode : Bool) : Inv (pipeShutdown s mode) := by
  refine ⟨valid_closePipe h.valid mode, fun hne => ?_, fun hne => (hne rfl).elim⟩
  rw [pipeShutdown] at hne
  split_ifs at hne with hleft
  · exact (used_of_ne h.valid hleft.2 (h.readers hne).2).elim
  · exact (hne rfl).elim

theorem inv_step (h : Inv s) (c : Call ω) : ∃ s' r, step s c = .ok (s', r) ∧ Inv s' := by
  cases c with
  | wait mode w =>
      rcases hwait : pipeWait s.pipe mode with _ | r
      · exact ⟨enqueue s mode w, none, by rw [step, hwait], inv_wait h hwait w⟩
      · exact ⟨s, some r, by rw [step, hwait], h⟩
  | write buf fresh => exact inv_write h buf fresh
  | read length => exact inv_read h length
  | shutdown mode => exact ⟨_, _, rfl, inv_shutdown h mode⟩

/-- The next call which asks for at least `r` bytes returns `r`. -/
def Transfers (p : Pipe) (mode : Bool) (r : Int) : Prop :=
  if mode then
    ∀ buf fresh, r ≤ buf.length → ∃ o q, pipeWrite p buf fresh = .ok (o, q) ∧ o.result = r
  else
    ∀ length : Nat, r ≤ length → ∃ o q, pipeRead p length = .ok (o, q) ∧ o.result = r

theorem pipeGetStatus_write (p : Pipe) : pipeGetStatus p true =
    if p.writeable = false then -1 else ((MAX_PIPE_BUFFER_SIZE - p.used : Nat) : Int) := by
  simp [pipeGetStatus]

theorem pipeGetStatus_read (p : Pipe) : pipeGetStatus p false =
    if p.writeable = false ∧ p.used = 0 then -1 else (p.used : Int) := by
  simp [pipeGetStatus]

theorem transfers_write (h : Valid p) : Transfers p true (pipeGetStatus p true) := by
  rw [Transfers, if_pos rfl, pipeGetStatus_write]
  intro buf fresh hlength
  rcases hw : p.writeable with _ | _
  · rw [if_pos rfl]
    refine ⟨⟨-1, [], none⟩, p, ?_, rfl⟩
    rw [pipeWrite, if_pos hw]
  · obtain ⟨b, hopen⟩ := h.open_of_writeable hw
    obtain ⟨o, q, c, hwrite, -, hresult, -⟩ := pipeWrite_open hopen buf fresh
    rw [if_neg (by simp [hw])] at hlength
    rw [if_neg (by simp)]
    exact ⟨o, q, hwrite, by rw [hresult]; omega⟩

theorem transfers_read (h : Valid p) : Transfers p false (pipeGetStatus p false) := by
  rw [Transfers, if_neg (by simp), pipeGetStatus_read]
  intro length hlength
  rcases Classical.em (p.writeable = false ∧ p.used = 0) with hclosed | hclosed
  · rw [if_pos hclosed]
    refine ⟨⟨-1, [], none⟩, p, ?_, rfl⟩
    rw [pipeRead, if_pos hclosed]
  · rw [if_neg hclosed] at hlength ⊢
    rcases h with ⟨b, hopen⟩ | ⟨b, hdraining⟩ | h
    · obtain ⟨o, q, hread, -, hresult, -⟩ := pipeRead_open hopen length
      exact ⟨o, q, hread, by rw [hresult]; omega⟩
    · obtain ⟨o, q, hread, -, -, hresult⟩ := pipeRead_draining hdraining length
      exact ⟨o, q, hread, by rw [hresult]; omega⟩
    · exact (hclosed ⟨h.writeable, h.used⟩).elim

theorem pipeWait_eq_status {mode : Bool} {r : Int} (hwait : pipeWait p mode = some r) :
    r = pipeGetStatus p mode := by
  rw [pipeWait] at hwait
  rcases mode with _ | _
  · rw [pipeGetStatus_read]
    rw [if_neg (by simp)] at hwait
    split_ifs at hwait ⊢ with hclosed hempty
    · exact (Option.some.inj hwait).symm
    · exact (Option.some.inj hwait).symm
  · rw [pipeGetStatus_write]
    rw [if_pos rfl] at hwait
    split_ifs at hwait ⊢ with hclosed hfull
    · exact (Option.some.inj hwait).symm
    · exact (Option.some.inj hwait).symm

theorem transfers_status (h : Valid p) (mode : Bool) :
    Transfers p mode (pipeGetStatus p mode) := by
  rcases mode with _ | _
  · exact transfers_read h
  · exact transfers_write h

theorem inv_pipeCreate (fresh : Nat → UInt8) :
    Inv ({ pipe := pipeCreate fresh } : PipeObject ω) :=
  ⟨Or.inl ⟨_, open_pipeCreate fresh⟩, fun h => (h rfl).elim, fun h => (h rfl).elim⟩

/-- No call on a pipe stops, nobody is left waiting who could proceed, and a
status which is returned tells how much the next call moves. -/
theorem run_pipeCreate_queues (fresh : Nat → UInt8) (calls : List (Call ω)) :
    ∃ s results, run step { pipe := pipeCreate fresh } calls = .ok (s, results) ∧
      (s.readWaiters ≠ [] → s.pipe.writeable = true ∧ s.pipe.used = 0) ∧
      (s.writeWaiters ≠ [] → s.pipe.writeable = true ∧ s.pipe.used = MAX_PIPE_BUFFER_SIZE) ∧
      (s.pipe.writeable = true ∨ s.pipe.used ≠ 0 → s.pipe.buffer ≠ none) ∧
      ∀ mode, Transfers s.pipe mode (pipeGetStatus s.pipe mode) ∧
        ∀ r, pipeWait s.pipe mode = some r → Transfers s.pipe mode r := by
  have hrun := run_outcome (E := fun _ => False)
    (fun s c h => Or.inr (inv_step (s := s) h c)) (inv_pipeCreate (ω := ω) fresh) calls
  obtain ⟨_, -, hfalse⟩ | ⟨s, results, hrun, h⟩ := hrun
  · exact hfalse.elim
  · refine ⟨s, results, hrun, h.readers, h.writers, h.valid.buffer_ne_none, fun mode =>
      ⟨transfers_status h.valid mode, fun r hr => ?_⟩⟩
    rw [pipeWait_eq_status hr]
    exact transfers_status h.valid mode

end

end Ibnos.PipeQueues
