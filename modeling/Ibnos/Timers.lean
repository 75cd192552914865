import Ibnos.Runs
import Ibnos.StableInsertion
import Mathlib.Algebra.Group.Nat.Defs
import Mathlib.Logic.Function.Basic
import Mathlib.Order.Nat

/-!
The timers of the kernel. Waiting threads and events are numbers; whatever is
woken up is written down together with the result which it gets.
-/

namespace Ibnos.Timers

open Ibnos.Runs
open Ibnos.StableInsertion

def TIMER_INTERRUPT_DELTA : Nat := 12

/-- `sizeof(struct timerInfo)` -/
def TIMERINFO_SIZE : Nat := 12

structure Timer where
  waiters : List Nat := []
  active : Bool := false
  timeout : Nat := 0
  interval : Nat := 0
  wakeupAll : Bool := false
  deriving DecidableEq, Repr

/-- Which waiter of which timer was woken up, and with which result. -/
structure Wakeup where
  timer : Nat
  waiter : Nat
  result : Nat
  deriving DecidableEq, Repr

/-- The last three fields are not part of the kernel: they tell how often a timer
was linked, when each one was linked last, and who was woken up. -/
structure State where
  timers : Nat → Timer := fun _ => {}
  live : Nat → Bool := fun _ => false
  timerList : List Nat := []
  currentKernelTimestamp : Nat := 0
  fresh : Nat := 0
  links : Nat := 0
  linked : Nat → Nat := fun _ => 0
  woken : List Wakeup := []

def State.setTimer (s : State) (x : Nat) (t : Timer) : State :=
  { s with timers := Function.update s.timers x t }

def State.timeoutOf (s : State) (x : Nat) : Nat := (s.timers x).timeout

/-- `__timerDeactivate` -/
def timerDeactivate (s : State) (x : Nat) : State :=
  if (s.timers x).active then
    { s.setTimer x { s.timers x with active := false } with timerList := s.timerList.erase x }
  else s

/-- `__timerActivate` -/
def timerActivate (s : State) (x : Nat) : State :=
  if (s.timers x).active then s
  else
    { s.setTimer x { s.timers x with active := true } with
      timerList := insertStable s.timeoutOf x s.timerList
      links := s.links + 1
      linked := Function.update s.linked x s.links }

/-- `__timerUpdate` -/
def timerUpdate (s : State) (x : Nat) : State := timerActivate (timerDeactivate s x) x

/-- Those who are woken up: all, or the first one. -/
def targets (all : Bool) (waiters : List Nat) : List Nat := if all then waiters else waiters.take 1

/-- `queueWakeup` for the waiters of a timer -/
def queueWakeup (s : State) (x : Nat) (all : Bool) (eax : Nat) : State :=
  let waiters := (s.timers x).waiters
  { s.setTimer x { s.timers x with waiters := waiters.drop (targets all waiters).length } with
    woken := s.woken ++ (targets all waiters).map fun w => ⟨x, w, eax⟩ }

/-- `granted` tells whether `heapAlloc` succeeds. -/
def timerCreate (s : State) (wakeupAll granted : Bool) : State × Option Nat :=
  if granted then
    ({ s.setTimer s.fresh { wakeupAll := wakeupAll } with
        live := Function.update s.live s.fresh true
        fresh := s.fresh + 1 }, some s.fresh)
  else (s, none)

/-- `__timerDestroy` -/
def timerDestroy (s : State) (x : Nat) : State :=
  let s := queueWakeup (timerDeactivate s x) x true (2 ^ 32 - 1)
  { s with live := Function.update s.live x false }

/-- `__timerShutdown` -/
def timerShutdown (s : State) (x : Nat) : State :=
  queueWakeup (timerDeactivate s x) x true (2 ^ 32 - 1)

/-- `__timerGetStatus` -/
def timerGetStatus (s : State) (x : Nat) : Nat :=
  if (s.timers x).interval ≠ 0 then 2 ^ 32 - 1 else if (s.timers x).active then 0 else 1

/-- `(currentKernelTimestamp - t->timeout) / t->interval + 1` in 32 bits -/
def eventCount (now : Nat) (t : Timer) : Nat := ((now - t.timeout) / t.interval + 1) % 2 ^ 32

/-- `t->timeout += eventCount * t->interval`, where the product has 32 bits -/
def repeated (now : Nat) (t : Timer) : Timer :=
  { t with timeout := (t.timeout + eventCount now t * t.interval % 2 ^ 32) % 2 ^ 64 }

/-- `__timerWait`. When it blocks, the caller is put into the queue of waiters and
there is no result. -/
def timerWait (s : State) (x waiter : Nat) : State × Option Nat :=
  let t := s.timers x
  if t.timeout > s.currentKernelTimestamp then
    let s := timerActivate s x
    (s.setTimer x { s.timers x with waiters := (s.timers x).waiters ++ [waiter] }, none)
  else if t.interval ≠ 0 then
    (timerUpdate (s.setTimer x (repeated s.currentKernelTimestamp t)) x,
      some (eventCount s.currentKernelTimestamp t))
  else (timerDeactivate s x, some (if t.active then 1 else 0))

/-- `__timerSignal` -/
def timerSignal (s : State) (x : Nat) : State := queueWakeup s x (s.timers x).wakeupAll 0

/-- `__timerWrite`, where the buffer holds `timeout` and `interval` -/
def timerWrite (s : State) (x length timeout interval : Nat) : State × Nat :=
  if length ≠ TIMERINFO_SIZE then (s, 2 ^ 32 - 1)
  else
    (timerUpdate (s.setTimer x { s.timers x with
      timeout := (s.currentKernelTimestamp + timeout % 2 ^ 64) % 2 ^ 64
      interval := interval % 2 ^ 32 }) x, length)

/-- A timer at the head of the list has expired. -/
def irqRound (s : State) (x : Nat) : State :=
  let t := s.timers x
  if t.interval ≠ 0 then
    queueWakeup (timerUpdate (s.setTimer x (repeated s.currentKernelTimestamp t)) x) x t.wakeupAll
      (eventCount s.currentKernelTimestamp t)
  else queueWakeup (timerDeactivate s x) x t.wakeupAll 1

/-- The loop of `timer_irq`, if it ends after so many rounds. -/
def irqLoop : Nat → State → Option State
  | 0, _ => none
  | fuel + 1, s =>
      match s.timerList with
      | [] => some s
      | x :: _ =>
          if (s.timers x).timeout > s.currentKernelTimestamp then some s
          else irqLoop fuel (irqRound s x)

def tick (s : State) : State :=
  { s with currentKernelTimestamp := (s.currentKernelTimestamp + TIMER_INTERRUPT_DELTA) % 2 ^ 64 }

/-- `timer_irq` -/
def timerIrq (fuel : Nat) (s : State) : Option State := irqLoop fuel (tick s)

inductive Call
  | create (wakeupAll granted : Bool)
  | write (x length timeout interval : Nat)
  | wait (x waiter : Nat)
  | signal (x : Nat)
  | shutdown (x : Nat)
  | destroy (x : Nat)
  | getStatus (x : Nat)
  | irq (fuel : Nat)
  deriving DecidableEq, Repr

inductive Fault
  | useAfterFree
  | outOfFuel
  deriving DecidableEq, Repr

/-- A call on a timer which has not been destroyed. -/
def onTimer (s : State) (x : Nat) (r : State × Option Nat) : Except Fault (State × Option Nat) :=
  if s.live x then .ok r else .error .useAfterFree

def step (s : State) : Call → Except Fault (State × Option Nat)
  | .create wakeupAll granted => .ok (timerCreate s wakeupAll granted)
  | .write x length timeout interval =>
      onTimer s x ((timerWrite s x length timeout interval).1,
        some (timerWrite s x length timeout interval).2)
  | .wait x waiter => onTimer s x (timerWait s x waiter)
  | .signal x => onTimer s x (timerSignal s x, none)
  | .shutdown x => onTimer s x (timerShutdown s x, none)
  | .destroy x => onTimer s x (timerDestroy s x, none)
  | .getStatus x => onTimer s x (s, some (timerGetStatus s x))
  | .irq fuel =>
      match timerIrq fuel s with
      | some s' => .ok (s', none)
      | none => .error .outOfFuel

section

variable {s : State} {x : Nat} {t : Timer}

/-- The list of timers except that `x` need not stand where it should. -/
structure Almost (x : Nat) (s : State) : Prop where
  mem : ∀ y, y ∈ s.timerList ↔ (s.timers y).active = true
  live : ∀ y, (s.timers y).active = true → s.live y = true
  lt_fresh : ∀ y, s.live y = true → y < s.fresh
  nodup : s.timerList.Nodup
  rank : ∀ y ∈ s.timerList, s.linked y < s.links
  ordered : Ordered s.timeoutOf s.linked (s.timerList.erase x)

/-- The list of timers as it is between two calls. -/
structure Listed (s : State) : Prop where
  mem : ∀ y, y ∈ s.timerList ↔ (s.timers y).active = true
  live : ∀ y, (s.timers y).active = true → s.live y = true
  lt_fresh : ∀ y, s.live y = true → y < s.fresh
  nodup : s.timerList.Nodup
  rank : ∀ y ∈ s.timerList, s.linked y < s.links
  ordered : Ordered s.timeoutOf s.linked s.timerList

theorem active_setTimer (ht : t.active = (s.timers x).active) (y : Nat) :
    ((s.setTimer x t).timers y).active = (s.timers y).active := by
  change (Function.update s.timers x t y).active = _
  rw [Function.update_apply]
  split_ifs with hy
  · rw [hy, ht]
  · rfl

/-- The timeout of a timer is changed while it is linked. -/
theorem Listed.setTimer (h : Listed s) (ht : t.active = (s.timers x).active) :
    Almost x (s.setTimer x t) where
  mem y := by
    rw [active_setTimer ht]
    exact h.mem y
  live y := by
    rw [active_setTimer ht]
    exact h.live y
  lt_fresh := h.lt_fresh
  nodup := h.nodup
  rank := h.rank
  ordered := by
    refine (h.ordered.sublist List.erase_sublist).congr (fun y hy => ?_) fun _ _ => rfl
    have hne : y ≠ x := ((h.nodup.mem_erase_iff).mp hy).1
    change (Function.update s.timers x t y).timeout = _
    rw [Function.update_of_ne hne]
    rfl

theorem Listed.almost (h : Listed s) (x : Nat) : Almost x s :=
  ⟨h.mem, h.live, h.lt_fresh, h.nodup, h.rank, h.ordered.sublist List.erase_sublist⟩

theorem Almost.deactivate (h : Almost x s) : Listed (timerDeactivate s x) := by
  rw [timerDeactivate]
  split_ifs with hactive
  · have hmem : ∀ y, (Function.update s.timers x { s.timers x with active := false } y).active =
        true ↔ y ≠ x ∧ (s.timers y).active = true := by
      intro y
      rw [Function.update_apply]
      split_ifs with hy
      · simp [hy]
      · simp [hy]
    refine ⟨fun y => ?_, fun y hy => h.live y ((hmem y).mp hy).2, h.lt_fresh, h.nodup.erase x,
      fun y hy => h.rank y (List.mem_of_mem_erase hy), ?_⟩
    · exact (h.nodup.mem_erase_iff).trans ((and_congr_right fun _ => h.mem y).trans (hmem y).symm)
    · refine h.ordered.congr (fun y _ => ?_) fun _ _ => rfl
      change (Function.update s.timers x _ y).timeout = (s.timers y).timeout
      rw [Function.update_apply]
      split_ifs with hy
      · rw [hy]
      · rfl
  · have hnot : x ∉ s.timerList := fun hx => hactive ((h.mem x).mp hx)
    have hordered := h.ordered
    rw [List.erase_of_not_mem hnot] at hordered
    exact ⟨h.mem, h.live, h.lt_fresh, h.nodup, h.rank, hordered⟩

theorem Listed.activate (h : Listed s) (hlive : s.live x = true) : Listed (timerActivate s x) := by
  rw [timerActivate]
  split_ifs with hactive
  · exact h
  · have hnot : x ∉ s.timerList := fun hx => hactive ((h.mem x).mp hx)
    have hmem : ∀ y, (Function.update s.timers x { s.timers x with active := true } y).active =
        true ↔ y = x ∨ (s.timers y).active = true := by
      intro y
      rw [Function.update_apply]
      split_ifs with hy
      · simp [hy]
      · simp [hy]
    have hrank : ∀ y ∈ s.timerList, Function.update s.linked x s.links y = s.linked y := by
      intro y hy
      exact Function.update_of_ne (fun heq : y = x => hnot (heq ▸ hy)) ..
    refine ⟨fun y => ?_, fun y hy => ?_, h.lt_fresh, nodup_insertStable h.nodup hnot, ?_, ?_⟩
    · exact mem_insertStable.trans ((or_congr_right (h.mem y)).trans (hmem y).symm)
    · rcases (hmem y).mp hy with rfl | hy
      · exact hlive
      · exact h.live y hy
    · intro y hy
      rcases mem_insertStable.mp hy with rfl | hy
      · change Function.update s.linked y s.links y < s.links + 1
        rw [Function.update_self]
        exact Nat.lt_succ_self _
      · exact ((hrank y hy).trans_lt (h.rank y hy)).trans (Nat.lt_succ_self _)
    · have hordered : Ordered s.timeoutOf (Function.update s.linked x s.links)
          (insertStable s.timeoutOf x s.timerList) := by
        refine (h.ordered.congr (fun _ _ => rfl) hrank).insert fun y hy => ?_
        rw [hrank y hy, Function.update_self]
        exact h.rank y hy
      refine hordered.congr (fun y _ => ?_) fun _ _ => rfl
      change (Function.update s.timers x _ y).timeout = (s.timers y).timeout
      rw [Function.update_apply]
      split_ifs with hy
      · rw [hy]
      · rfl

theorem live_deactivate : (timerDeactivate s x).live = s.live := by
  rw [timerDeactivate]
  split_ifs <;> rfl

theorem Almost.update (h : Almost x s) (hlive : s.live x = true) : Listed (timerUpdate s x) :=
  h.deactivate.activate (by rw [live_deactivate]; exact hlive)

/-- Fields which do not concern the list are changed. -/
theorem Listed.of_same (h : Listed s) (ht : t.active = (s.timers x).active)
    (htimeout : t.timeout = (s.timers x).timeout) (woken : List Wakeup) :
    Listed { s.setTimer x t with woken := woken } := by
  refine ⟨fun y => ?_, fun y => ?_, h.lt_fresh, h.nodup, h.rank, ?_⟩
  · exact (h.mem y).trans (by rw [← active_setTimer ht])
  · exact fun hy => h.live y (by rwa [← active_setTimer ht])
  · refine h.ordered.congr (fun y _ => ?_) fun _ _ => rfl
    change (Function.update s.timers x t y).timeout = (s.timers y).timeout
    rw [Function.update_apply]
    split_ifs with hy
    · rw [hy, htimeout]
    · rfl

theorem Listed.wakeup (h : Listed s) (all : Bool) (eax : Nat) :
    Listed (queueWakeup s x all eax) := by
  rw [queueWakeup]
  refine h.of_same ?_ ?_ _
  · rfl
  · rfl

theorem Listed.irqRound (h : Listed s) (hlive : s.live x = true) : Listed (irqRound s x) := by
  rw [Timers.irqRound]
  split_ifs
  · refine Listed.wakeup (Almost.update (h.setTimer ?_) hlive) _ _
    rfl
  · exact (h.almost x).deactivate.wakeup _ _

theorem Listed.irqLoop {fuel : Nat} {s' : State} (h : Listed s) (hloop : irqLoop fuel s = some s') :
    Listed s' := by
  induction fuel generalizing s with
  | zero => cases hloop
  | succ fuel ih =>
      rw [Timers.irqLoop] at hloop
      rcases hlist : s.timerList with _ | ⟨x, l⟩
      · rw [hlist] at hloop
        exact Option.some.inj hloop ▸ h
      · rw [hlist] at hloop
        dsimp only at hloop
        split_ifs at hloop
        · exact Option.some.inj hloop ▸ h
        · have hx : x ∈ s.timerList := hlist ▸ List.mem_cons_self
          exact ih (h.irqRound (h.live x ((h.mem x).mp hx))) hloop

theorem Listed.create (h : Listed s) (wakeupAll granted : Bool) :
    Listed (timerCreate s wakeupAll granted).1 := by
  rw [timerCreate]
  split_ifs
  · have hnot : s.live s.fresh ≠ true := fun hlive => Nat.lt_irrefl _ (h.lt_fresh _ hlive)
    have hinactive : (s.timers s.fresh).active = false := by
      rw [← Bool.not_eq_true]
      exact fun hactive => hnot (h.live _ hactive)
    have hsame := active_setTimer (s := s) (x := s.fresh) (t := { wakeupAll := wakeupAll })
      hinactive.symm
    have hne : ∀ y ∈ s.timerList, y ≠ s.fresh := by
      rintro y hy rfl
      exact hnot (h.live _ ((h.mem _).mp hy))
    refine ⟨fun y => ?_, fun y hy => ?_, fun y hy => ?_, h.nodup, h.rank, ?_⟩
    · exact (h.mem y).trans (by rw [← hsame])
    · change Function.update s.live s.fresh true y = true
      rw [Function.update_apply]
      split_ifs
      · rfl
      · exact h.live y (by rwa [← hsame])
    · change Function.update s.live s.fresh true y = true at hy
      change y < s.fresh + 1
      rw [Function.update_apply] at hy
      split_ifs at hy with heq
      · omega
      · exact (h.lt_fresh y hy).trans (Nat.lt_succ_self _)
    · refine h.ordered.congr (fun y hy => ?_) fun _ _ => rfl
      change (Function.update s.timers s.fresh _ y).timeout = _
      rw [Function.update_of_ne (hne y hy)]
      rfl
  · exact h

theorem Listed.destroy (h : Listed s) (x : Nat) : Listed (timerDestroy s x) := by
  have hshutdown : Listed (timerShutdown s x) := (h.almost x).deactivate.wakeup true _
  have hinactive : ((timerShutdown s x).timers x).active = false := by
    change (Function.update (timerDeactivate s x).timers x _ x).active = false
    rw [Function.update_self, timerDeactivate]
    split_ifs with hactive
    · change (Function.update s.timers x _ x).active = false
      rw [Function.update_self]
    · exact Bool.not_eq_true _ ▸ hactive
  refine ⟨hshutdown.mem, fun y hy => ?_, fun y hy => ?_, hshutdown.nodup, hshutdown.rank,
    hshutdown.ordered⟩
  · have hne : y ≠ x := by
      rintro rfl
      exact absurd (hinactive.symm.trans hy) nofun
    change Function.update (timerShutdown s x).live x false y = true
    rw [Function.update_of_ne hne]
    exact hshutdown.live y hy
  · change Function.update (timerShutdown s x).live x false y = true at hy
    rw [Function.update_apply] at hy
    split_ifs at hy
    exact hshutdown.lt_fresh y hy

theorem Listed.wait (h : Listed s) (hlive : s.live x = true) (waiter : Nat) :
    Listed (timerWait s x waiter).1 := by
  rw [timerWait]
  dsimp only
  rcases Nat.lt_or_ge s.currentKernelTimestamp (s.timers x).timeout with hlater | hnow
  · rw [if_pos hlater]
    refine (h.activate hlive).of_same ?_ ?_ _
    · rfl
    · rfl
  · rw [if_neg (Nat.not_lt.mpr hnow)]
    rcases eq_or_ne (s.timers x).interval 0 with hzero | hperiodic
    · rw [if_neg (not_not.mpr hzero)]
      exact (h.almost x).deactivate
    · rw [if_pos hperiodic]
      refine Almost.update (h.setTimer ?_) hlive
      rfl

theorem Listed.write (h : Listed s) (hlive : s.live x = true) (length timeout interval : Nat) :
    Listed (timerWrite s x length timeout interval).1 := by
  rw [timerWrite]
  split_ifs
  · exact h
  · refine Almost.update (h.setTimer ?_) hlive
    rfl

theorem Listed.step {s' : State} {call : Call} {r : Option Nat} (h : Listed s)
    (hstep : step s call = .ok (s', r)) : Listed s' := by
  have honTimer : ∀ {x : Nat} {p : State × Option Nat}, onTimer s x p = .ok (s', r) →
      s.live x = true ∧ p.1 = s' := by
    intro x p hon
    rw [onTimer] at hon
    split_ifs at hon with hlive
    exact ⟨hlive, congrArg Prod.fst (Except.ok.inj hon)⟩
  cases call with
  | create wakeupAll granted =>
      have hcreate := h.create wakeupAll granted
      rw [show timerCreate s wakeupAll granted = (s', r) from Except.ok.inj hstep] at hcreate
      exact hcreate
  | write x length timeout interval =>
      obtain ⟨hlive, rfl⟩ := honTimer hstep
      exact h.write hlive length timeout interval
  | wait x waiter =>
      obtain ⟨hlive, rfl⟩ := honTimer hstep
      exact h.wait hlive waiter
  | signal x =>
      obtain ⟨-, rfl⟩ := honTimer hstep
      exact h.wakeup _ 0
  | shutdown x =>
      obtain ⟨-, rfl⟩ := honTimer hstep
      exact (h.almost x).deactivate.wakeup true _
  | destroy x =>
      obtain ⟨-, rfl⟩ := honTimer hstep
      exact h.destroy x
  | getStatus x =>
      obtain ⟨-, rfl⟩ := honTimer hstep
      exact h
  | irq fuel =>
      rw [Timers.step] at hstep
      rcases hirq : timerIrq fuel s with _ | s''
      · rw [hirq] at hstep
        cases hstep
      · rw [hirq] at hstep
        obtain ⟨rfl, -⟩ := Prod.mk.inj (Except.ok.inj hstep)
        have htick : Listed (tick s) :=
          ⟨h.mem, h.live, h.lt_fresh, h.nodup, h.rank, h.ordered⟩
        exact htick.irqLoop hirq

/-- There are no timers at first. -/
theorem listed_initial : Listed {} :=
  ⟨fun _ => ⟨nofun, nofun⟩, nofun, nofun, List.nodup_nil, nofun, List.Pairwise.nil⟩

theorem Listed.run {calls : List Call} {s' : State} {results : List (Option Nat)} (h : Listed s)
    (hrun : run Timers.step s calls = .ok (s', results)) : Listed s' :=
  run_invariant (fun _ _ _ _ hs _ hstep => Listed.step hs hstep) h (along_true Timers.step s calls)
    hrun

theorem run_timerList (calls : List Call) (s : State) (results : List (Option Nat))
    (h : run Timers.step {} calls = .ok (s, results)) :
    (∀ x, x ∈ s.timerList ↔ (s.timers x).active = true) ∧ s.timerList.Nodup ∧
    s.timerList.Pairwise (fun x y => (s.timers x).timeout ≤ (s.timers y).timeout) ∧
    (∀ x, s.live x = false → x ∉ s.timerList) ∧
    s.timerList.Pairwise
      (fun x y => (s.timers x).timeout = (s.timers y).timeout → s.linked x < s.linked y) := by
  have hlisted := listed_initial.run h
  refine ⟨hlisted.mem, hlisted.nodup, ?_, fun x hdead hx => ?_, ?_⟩
  · refine List.Pairwise.imp ?_ hlisted.ordered
    rintro x y (hlt | ⟨heq, -⟩)
    · exact hlt.le
    · exact heq.le
  · have hlive := hlisted.live x ((hlisted.mem x).mp hx)
    exact absurd (hdead.symm.trans hlive) nofun
  · refine List.Pairwise.imp ?_ hlisted.ordered
    rintro x y (hlt | ⟨-, hrank⟩) heq
    · exact absurd heq hlt.ne
    · exact hrank

/-- Two timers expire together. The first one is written again later and comes behind the other. -/
def sampleCalls : List Call :=
  [.create false true, .create true true, .write 0 12 24 0, .write 1 12 24 0, .write 0 12 24 5,
    .irq 1]

theorem run_timerList_sample : ∃ s results, run Timers.step {} sampleCalls = .ok (s, results) ∧
    s.timerList = [1, 0] ∧
    (∀ x, x ∈ s.timerList ↔ (s.timers x).active = true) ∧ s.timerList.Nodup ∧
    s.timerList.Pairwise (fun x y => (s.timers x).timeout ≤ (s.timers y).timeout) ∧
    (∀ x, s.live x = false → x ∉ s.timerList) ∧
    s.timerList.Pairwise
      (fun x y => (s.timers x).timeout = (s.timers y).timeout → s.linked x < s.linked y) :=
  ⟨_, _, rfl, by decide, run_timerList sampleCalls _ _ rfl⟩

end

end Ibnos.Timers
