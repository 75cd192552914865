import Ibnos.Timers

/-!
What the timer interrupt does to the timers which have expired.
-/

namespace Ibnos.TimerInterrupts

open Ibnos.Runs
open Ibnos.StableInsertion
open Ibnos.Timers

/-- How often a timer occurred since its timeout, without a bound. -/
def occurrences (now : Nat) (t : Timer) : Nat := (now - t.timeout) / t.interval + 1

def Expired (now : Nat) (t : Timer) : Prop := t.active = true ∧ t.timeout ≤ now

/-- The result for those who are woken up. -/
def resultOf (now : Nat) (t : Timer) : Nat := if t.interval ≠ 0 then occurrences now t else 1

/-- A timer after its expiration was handled. -/
def handled (now : Nat) (t : Timer) : Timer :=
  let waiters := t.waiters.drop (targets t.wakeupAll t.waiters).length
  if t.interval ≠ 0 then
    { t with timeout := t.timeout + occurrences now t * t.interval, waiters := waiters }
  else { t with active := false, waiters := waiters }

/-- Those who are woken up by a timer. -/
def wakeups (now x : Nat) (t : Timer) : List Wakeup :=
  (targets t.wakeupAll t.waiters).map fun w => ⟨x, w, resultOf now t⟩

section

variable {now x : Nat} {t : Timer}

theorem occurrences_spec (hinterval : t.interval ≠ 0) (hle : t.timeout ≤ now) :
    t.timeout + (occurrences now t - 1) * t.interval ≤ now ∧
      now < t.timeout + occurrences now t * t.interval := by
  have hdiv := Nat.div_add_mod (now - t.timeout) t.interval
  have hmod := Nat.mod_lt (now - t.timeout) (Nat.pos_of_ne_zero hinterval)
  rw [occurrences, Nat.add_sub_cancel, Nat.add_mul, Nat.one_mul,
    Nat.mul_comm ((now - t.timeout) / t.interval)]
  omega

end

section

variable {s s' : State} {x : Nat}

theorem timers_deactivate (h : (s.timers x).active = true) : (timerDeactivate s x).timers =
    Function.update s.timers x { s.timers x with active := false } := by
  rw [timerDeactivate, if_pos h]
  rfl

theorem timers_update (s : State) (x : Nat) : (timerUpdate s x).timers =
    Function.update s.timers x { s.timers x with active := true } := by
  have hactivate : ∀ {r : State}, (r.timers x).active = false → (timerActivate r x).timers =
      Function.update r.timers x { r.timers x with active := true } := by
    intro r hr
    rw [timerActivate, hr, if_neg (by simp)]
    rfl
  rw [timerUpdate]
  rcases hactive : (s.timers x).active with _ | _
  · have hsame : timerDeactivate s x = s := by
      rw [timerDeactivate, hactive]
      rfl
    rw [hsame, hactivate hactive]
  · have hdeactivate := timers_deactivate hactive
    rw [hactivate (by rw [hdeactivate, Function.update_self]), hdeactivate, Function.update_self,
      Function.update_idem]

theorem now_update (s : State) (x : Nat) :
    (timerUpdate s x).currentKernelTimestamp = s.currentKernelTimestamp := by
  rw [timerUpdate, timerActivate, timerDeactivate]
  split_ifs <;> rfl

theorem timers_setTimer_update {t : Timer} (ht : t.active = true) :
    (timerUpdate (s.setTimer x t) x).timers = Function.update s.timers x t := by
  have hself : (s.setTimer x t).timers x = t := Function.update_self ..
  have hactive : { t with active := true } = t := by rw [← ht]
  rw [timers_update, hself, hactive]
  exact Function.update_idem ..

/-- What one round of the interrupt does. -/
structure Round (s s' : State) (x : Nat) : Prop where
  now : s'.currentKernelTimestamp = s.currentKernelTimestamp
  timers : s'.timers =
    Function.update s.timers x (handled s.currentKernelTimestamp (s.timers x))
  woken : s'.woken = s.woken ++ wakeups s.currentKernelTimestamp x (s.timers x)

end

section

variable {s s₀ s' : State} {x : Nat}

/-- The timers while the interrupt is handled, which began in the state `s₀`. Each
of them is as it was, or it has expired and was handled once. -/
structure Progress (s₀ s : State) : Prop where
  now : s.currentKernelTimestamp = s₀.currentKernelTimestamp
  timers : ∃ new, s.woken = s₀.woken ++ new ∧ ∀ x,
    s.timers x = s₀.timers x ∧ new.filter (·.timer = x) = [] ∨
    Expired s₀.currentKernelTimestamp (s₀.timers x) ∧
      s.timers x = handled s₀.currentKernelTimestamp (s₀.timers x) ∧
      new.filter (·.timer = x) = wakeups s₀.currentKernelTimestamp x (s₀.timers x)

theorem not_expired_handled {now : Nat} {t : Timer} (h : Expired now t) :
    ¬Expired now (handled now t) := by
  rw [handled]
  rcases eq_or_ne t.interval 0 with hzero | hinterval
  · rw [if_neg (not_not.mpr hzero)]
    exact fun hexpired => nomatch hexpired.1
  · rw [if_pos hinterval]
    rintro ⟨-, hle⟩
    exact absurd hle (Nat.not_le.mpr (occurrences_spec hinterval h.2).2)

theorem filter_wakeups_self (now x : Nat) (t : Timer) :
    (wakeups now x t).filter (·.timer = x) = wakeups now x t := by
  rw [List.filter_eq_self]
  intro u hu
  obtain ⟨w, -, rfl⟩ := List.mem_map.mp hu
  exact decide_eq_true rfl

theorem filter_wakeups_of_ne {y : Nat} (now : Nat) (t : Timer) (h : x ≠ y) :
    (wakeups now x t).filter (·.timer = y) = [] := by
  rw [List.filter_eq_nil_iff]
  intro u hu
  obtain ⟨w, -, rfl⟩ := List.mem_map.mp hu
  simpa using h

theorem Progress.round (h : Progress s₀ s) (hr : Round s s' x)
    (hexpired : Expired s.currentKernelTimestamp (s.timers x)) : Progress s₀ s' := by
  obtain ⟨new, hnew, htimers⟩ := h.timers
  have hnow := h.now
  refine ⟨hr.now.trans hnow, new ++ wakeups s.currentKernelTimestamp x (s.timers x), ?_, ?_⟩
  · rw [hr.woken, hnew, List.append_assoc]
  · intro y
    rw [hr.timers, List.filter_append]
    rcases eq_or_ne y x with rfl | hne
    · -- a timer which was handled has not expired any more
      rcases htimers y with ⟨hsame, hnone⟩ | ⟨hexpired₀, hhandled, -⟩
      · right
        rw [hsame, hnow] at hexpired ⊢
        rw [Function.update_self, hnone, filter_wakeups_self]
        exact ⟨hexpired, rfl, rfl⟩
      · rw [hhandled, hnow] at hexpired
        exact absurd hexpired (not_expired_handled hexpired₀)
    · rw [Function.update_of_ne hne, filter_wakeups_of_ne _ _ hne.symm, List.append_nil]
      exact htimers y

theorem timerList_deactivate {l : List Nat} (hactive : (s.timers x).active = true)
    (hlist : s.timerList = x :: l) : (timerDeactivate s x).timerList = l := by
  rw [timerDeactivate, if_pos hactive]
  change s.timerList.erase x = l
  rw [hlist, List.erase_cons_head]

theorem timerList_update {l : List Nat} (hactive : (s.timers x).active = true)
    (hlist : s.timerList = x :: l) : (timerUpdate s x).timerList.Perm (x :: l) := by
  have hinactive : ((timerDeactivate s x).timers x).active = false := by
    rw [timers_deactivate hactive, Function.update_self]
  rw [timerUpdate, timerActivate, hinactive, if_neg (by simp)]
  change (insertStable _ x (timerDeactivate s x).timerList).Perm _
  rw [timerList_deactivate hactive hlist]
  exact perm_insertStable ..

theorem timers_queueWakeup (s : State) (x : Nat) (all : Bool) (eax : Nat) :
    (queueWakeup s x all eax).timers x = { s.timers x with
      waiters := (s.timers x).waiters.drop (targets all (s.timers x).waiters).length } :=
  Function.update_self ..

/-- A timer whose timeout is not moved by the interrupt. -/
structure Stays (s : State) : Prop where
  list : s.timerList = [0]
  active : (s.timers 0).active = true
  timeout : (s.timers 0).timeout = 0
  interval : (s.timers 0).interval = 2 ^ 31
  low : 2 ^ 31 ≤ s.currentKernelTimestamp
  high : s.currentKernelTimestamp < 2 ^ 32

theorem Stays.repeated (h : Stays s) :
    repeated s.currentKernelTimestamp (s.timers 0) = s.timers 0 := by
  have hlow := h.low
  have hhigh := h.high
  have hcount : eventCount s.currentKernelTimestamp (s.timers 0) = 2 := by
    rw [eventCount, h.timeout, h.interval]
    omega
  have htimeout : ((s.timers 0).timeout + 2 * (s.timers 0).interval % 2 ^ 32) % 2 ^ 64 =
      (s.timers 0).timeout := by
    have hzero := h.timeout
    have hinterval := h.interval
    omega
  rw [Timers.repeated, hcount, htimeout]

theorem Stays.round (h : Stays s) : Stays (irqRound s 0) := by
  have hne : (s.timers 0).interval ≠ 0 := by
    rw [h.interval]
    decide
  have hself : ∀ all eax, ∃ w, (queueWakeup (timerUpdate (s.setTimer 0 (s.timers 0)) 0) 0 all
      eax).timers 0 = { s.timers 0 with waiters := w } := by
    intro all eax
    refine ⟨(s.timers 0).waiters.drop (targets all (s.timers 0).waiters).length, ?_⟩
    rw [timers_queueWakeup, timers_setTimer_update h.active, Function.update_self]
  rw [irqRound, if_pos hne, h.repeated]
  obtain ⟨w, hw⟩ := hself (s.timers 0).wakeupAll
    (eventCount s.currentKernelTimestamp (s.timers 0))
  refine ⟨?_, ?_, ?_, ?_, ?_, ?_⟩
  · refine List.perm_singleton.mp (timerList_update ?_ h.list)
    change (Function.update s.timers 0 _ 0).active = true
    rw [Function.update_self]
    exact h.active
  · rw [hw]
    exact h.active
  · rw [hw]
    exact h.timeout
  · rw [hw]
    exact h.interval
  · change 2 ^ 31 ≤ (timerUpdate _ 0).currentKernelTimestamp
    rw [now_update]
    exact h.low
  · change (timerUpdate _ 0).currentKernelTimestamp < 2 ^ 32
    rw [now_update]
    exact h.high

theorem Stays.diverges (h : Stays s) (fuel : Nat) : irqLoop fuel s = none := by
  induction fuel generalizing s with
  | zero => rfl
  | succ fuel ih =>
      have hle : ¬(s.timers 0).timeout > s.currentKernelTimestamp := by
        rw [h.timeout]
        exact Nat.not_lt_zero _
      rw [irqLoop, h.list]
      dsimp only
      rw [if_neg hle]
      exact ih h.round

/-- A periodic timer which was shut down. -/
def asleep : State := timerShutdown (timerWrite (timerCreate {} false true).1 0 12 0 (2 ^ 31)).1 0

end

end Ibnos.TimerInterrupts
