import Ibnos.CreationFailures
import Ibnos.Lives
import Mathlib.Data.Finset.Card
import Mathlib.Logic.Relation

/-!
Waiting for an event, which waits for the objects it is attached to. A wait which comes
back to an event it has not left yet does not return.
-/

namespace Ibnos.EventWaits

open Ibnos.Lifetimes
open Ibnos.Lives
open Ibnos.ObjectStores
open Ibnos.Objects
open Ibnos.Programs
open Ibnos.Syscalls

/-- A wait for an object which is no event returns at once. -/
def Ready (s : Store) (x mode : Nat) : Prop :=
  match s.objects x with
  | none => False
  | some (.thread t) => t.process = none
  | some (.process p) => p.threads = []
  | some (.event _) => False
  | some (.semaphore value) => value ≠ 0
  | some (.timer t) => t.timeout ≤ s.timestamp
  | some (.pipe p) => (PipeQueues.pipeWait p (mode ≠ 0)).isSome = true
  | some _ => True

/-- Something is ready which the object is attached to by subEvents that are not blocked. -/
inductive Triggered (s : Store) : Nat → Nat → Prop
  | ready {x mode : Nat} (h : Ready s x mode) : Triggered s x mode
  | event {x mode y : Nat} {e : Event} {z : SubEvent} (hx : s.objects x = some (.event e))
      (hy : y ∈ e.subEvents) (hz : s.objects y = some (.subEvent z)) (hb : z.blocked = false)
      (h : Triggered s z.wait z.waitMode) : Triggered s x mode

/-- A wait for `x` gets past the subEvents, since none of them is on something triggered. -/
def Passes (s : Store) (ys : List Nat) : Prop :=
  ∀ y ∈ ys, ∀ z, s.objects y = some (.subEvent z) → z.blocked = false →
    ¬Triggered s z.wait z.waitMode

/-- A wait for the event `x` waits for the event `x'`. -/
def Calls (s : Store) (x x' : Nat) : Prop :=
  ∃ e ys y zs z, s.objects x = some (.event e) ∧ e.subEvents = ys ++ y :: zs ∧ Passes s ys ∧
    s.objects y = some (.subEvent z) ∧ z.blocked = false ∧ z.wait = x' ∧
      ∃ e', s.objects x' = some (.event e')

/-- Every way from event to event ends at some time. -/
def Grounded (s : Store) (x : Nat) : Prop := Acc (fun x' x => Calls s x x') x

/-- No wait on the way comes back to an event which it has not left yet. -/
def Acyclic (s : Store) (x : Nat) : Prop :=
  ∀ x', Relation.ReflTransGen (Calls s) x x' → ¬Relation.TransGen (Calls s) x' x'

/-- The subEvents of an event belong to it and keep what they are on. An active timer is
in the list of timers. -/
structure Attached (s : Store) : Prop where
  live : ∀ x, s.objects x ≠ none → x < s.fresh
  subEvents : ∀ x e, s.objects x = some (.event e) → ∀ y ∈ e.subEvents, ∃ z,
    s.objects y = some (.subEvent z) ∧ z.event = x ∧ s.objects z.wait ≠ none
  timers : ∀ x t, s.objects x = some (.timer t) → t.active = true → s.home x ≠ none

/-- What a wait for the event `x` returns: its queue, or the identifier of a subEvent. -/
def Answers (s : Store) (x : Nat) (w : Wait) : Prop :=
  w = .queue (.waiters x) ∨ ∃ e y z, s.objects x = some (.event e) ∧ y ∈ e.subEvents ∧
    s.objects y = some (.subEvent z) ∧ w = .result (.identifier z.wait z.identifier)

/-- A wait for the event returns. -/
def Returns (s : Store) (x mode : Nat) : Prop :=
  ∃ w s', objectWait x mode s = .ok (w, s') ∧ Answers s x w

/-- How an object may change during a wait which began in the state `s`. -/
inductive Kept (s : Store) : Object → Object → Prop
  | same (o : Object) : Kept s o o
  | event (e : Event) (r : Result) : Kept s (.event e) (.event { e with status := r })
  | timer (t : Timer) (b : Bool) : Kept s (.timer t) (.timer { t with active := b })
  | subEvent (z : SubEvent) (h : ¬Triggered s z.wait z.waitMode)
      (hgrounded : Grounded s z.wait) :
      Kept s (.subEvent z) (.subEvent { z with blocked := true })

/-- The states during a wait which began in the state `s`. -/
structure Waiting (s s' : Store) : Prop where
  kept : ∀ x o, s.objects x = some o → ∃ o', s'.objects x = some o' ∧ Kept s o o'
  timers : ∀ x t, s'.objects x = some (.timer t) → t.active = true → s'.home x ≠ none
  timestamp : s'.timestamp = s.timestamp

section

variable {s s' s'' : Store} {x y mode : Nat} {o o' o'' : Object} {e : Event} {z : SubEvent}
    {t : Timer}

theorem Kept.trans (h : Kept s o o') (h' : Kept s o' o'') : Kept s o o'' := by
  cases h with
  | same o => exact h'
  | event e r =>
      cases h' with
      | same => exact .event e r
      | event _ r' => exact .event e r'
  | timer t b =>
      cases h' with
      | same => exact .timer t b
      | timer _ b' => exact .timer t b'
  | subEvent z hz hgrounded =>
      cases h' with
      | same => exact .subEvent z hz hgrounded
      | subEvent _ _ _ => exact .subEvent z hz hgrounded

theorem waiting_refl (h : Attached s) : Waiting s s where
  kept _ o ho := ⟨o, ho, .same o⟩
  timers := h.timers
  timestamp := rfl

/-- An object is changed as it may be. -/
theorem Waiting.put (h : Waiting s s') (ho : s'.objects x = some o) (hk : Kept s o o')
    (ht : ∀ t, o' = .timer t → t.active = true → s'.home x ≠ none) :
    Waiting s (put s' x (some o')) := by
  constructor
  · intro y p hp
    obtain ⟨p', hp', hkept⟩ := h.kept y p hp
    by_cases hyx : y = x
    · subst hyx
      obtain rfl := Option.some.inj (hp'.symm.trans ho)
      exact ⟨o', Function.update_self .., hkept.trans hk⟩
    · exact ⟨p', (Function.update_of_ne hyx ..).trans hp', hkept⟩
  · intro y t hy hactive
    change Function.update s'.objects x (some o') y = _ at hy
    by_cases hyx : y = x
    · subst hyx
      rw [Function.update_self] at hy
      exact ht t (Option.some.inj hy) hactive
    · rw [Function.update_of_ne hyx] at hy
      exact h.timers y t hy hactive
  · exact h.timestamp

/-- An object is put into a list. -/
theorem Waiting.insert (h : Waiting s s') (q : Queue) (xs : List Nat) :
    Waiting s { s' with
      queues := Function.update s'.queues q xs
      home := Function.update s'.home y (some q) } where
  kept := h.kept
  timers x t hx hactive := by
    change Function.update s'.home y (some q) x ≠ none
    by_cases hxy : x = y
    · rw [hxy, Function.update_self]
      exact nofun
    · rw [Function.update_of_ne hxy]
      exact h.timers x t hx hactive
  timestamp := h.timestamp

/-- The events stay there. -/
def Eventful (s s' : Store) : Prop :=
  ∀ x e, s.objects x = some (.event e) → ∃ e', s'.objects x = some (.event e')

theorem Eventful.trans (h : Eventful s s') (h' : Eventful s' s'') : Eventful s s'' := by
  intro x e he
  obtain ⟨e', he'⟩ := h x e he
  exact h' x e' he'

theorem Waiting.eventful (h : Waiting s s') : Eventful s s' := by
  intro x e he
  obtain ⟨o', ho', hkept⟩ := h.kept x _ he
  cases hkept with
  | same => exact ⟨e, ho'⟩
  | event e r => exact ⟨_, ho'⟩

/-- An object which is no event is changed, or an event stays one. -/
theorem eventful_put (ho : s.objects x = some o) (h : ∀ e, o = .event e → ∃ e', o' = .event e') :
    Eventful s (put s x (some o')) := by
  intro y e he
  change ∃ e', Function.update s.objects x (some o') y = _
  by_cases hyx : y = x
  · subst hyx
    obtain ⟨e', rfl⟩ := h e (Option.some.inj (ho.symm.trans he))
    exact ⟨e', Function.update_self ..⟩
  · exact ⟨e, (Function.update_of_ne hyx ..).trans he⟩

/-- The store after a timer was inserted into the list of timers. -/
def activated (s : Store) (x : Nat) (t : Timer) : Store :=
  put { s with
    queues := Function.update s.queues .timerList
      (insertTimer (timeoutOf s) x (s.queues .timerList))
    home := Function.update s.home x (some .timerList) } x (some (.timer { t with active := true }))

theorem timerActivate_eq (ht : s.objects x = some (.timer t)) :
    timerActivate x s = .ok ((), if t.active then s else activated s x t) := by
  have hget : getTimer x s = .ok (t, s) := objectContainer_eq timerFunctions ht
  rw [timerActivate, bind_apply, hget]
  cases hactive : t.active with
  | true =>
      simp only [hactive, if_true]
      rfl
  | false =>
      simp only [hactive, Bool.false_eq_true, if_false]
      exact assign_eq timerFunctions (f := fun t => { t with active := true }) (s := { s with
        queues := Function.update s.queues .timerList
          (insertTimer (timeoutOf s) x (s.queues .timerList))
        home := Function.update s.home x (some .timerList) }) ht

theorem timerDeactivate_eq (ht : s.objects x = some (.timer t))
    (hhome : t.active = true → s.home x ≠ none) : ∃ s' t',
    timerDeactivate x s = .ok ((), s') ∧ s'.objects x = some (.timer t') ∧ Eventful s s' := by
  have hget : getTimer x s = .ok (t, s) := objectContainer_eq timerFunctions ht
  rw [timerDeactivate, bind_apply, hget]
  cases hactive : t.active with
  | false =>
      refine ⟨s, t, ?_, ht, fun x e he => ⟨e, he⟩⟩
      simp only [hactive]
      rfl
  | true =>
      obtain ⟨q, hq⟩ := Option.ne_none_iff_exists'.mp (hhome hactive)
      simp only [hactive, if_true]
      have hremove : llRemove x s = .ok (q, { s with
          queues := Function.update s.queues q ((s.queues q).erase x)
          home := Function.update s.home x none }) := by
        rw [llRemove, hq]
      rw [bind_apply, hremove]
      refine ⟨_, _, assign_eq timerFunctions (s := { s with
        queues := Function.update s.queues q ((s.queues q).erase x)
        home := Function.update s.home x none }) (a := t) ht, Function.update_self .., ?_⟩
      exact eventful_put (s := { s with
        queues := Function.update s.queues q ((s.queues q).erase x)
        home := Function.update s.home x none }) ht (by simp)

theorem timerWait_expired (ht : s.objects x = some (.timer t))
    (hhome : t.active = true → s.home x ≠ none)
    (hle : t.timeout ≤ s.timestamp) : ∃ r s', timerWait x t s = .ok (.result r, s') ∧
      Eventful s s' := by
  change ∃ r s', (if s.timestamp < t.timeout then _ else _ : Kernel Wait) s = _ ∧ _
  rw [if_neg (Nat.not_lt.mpr hle)]
  by_cases hinterval : t.interval ≠ 0
  · rw [if_pos hinterval]
    have hput : (put s x
      (some (timerFunctions.whole (advance t (eventCount s.timestamp t))))).objects x =
        some (.timer (advance t (eventCount s.timestamp t))) := Function.update_self ..
    obtain ⟨s₁, t', hdeactivate, ht', hs₁⟩ := timerDeactivate_eq hput hhome
    have hupdate : timerUpdate x
        (put s x (some (timerFunctions.whole (advance t (eventCount s.timestamp t))))) =
          .ok ((), if t'.active then s₁ else activated s₁ x t') := by
      rw [timerUpdate, bind_apply, hdeactivate]
      exact timerActivate_eq ht'
    refine ⟨.value (eventCount s.timestamp t), if t'.active then s₁ else activated s₁ x t', ?_, ?_⟩
    · rw [bind_apply, assign_eq timerFunctions ht]
      change (timerUpdate x >>= _) (put s x _) = _
      rw [bind_apply, hupdate]
      rfl
    · apply ((eventful_put ht nofun).trans hs₁).trans
      split_ifs
      · exact fun x e he => ⟨e, he⟩
      · exact eventful_put (s := { s₁ with
          queues := Function.update s₁.queues .timerList _
          home := Function.update s₁.home x (some .timerList) }) ht' nofun
  · rw [if_neg hinterval]
    obtain ⟨s₁, t', hdeactivate, -, hs₁⟩ := timerDeactivate_eq ht hhome
    refine ⟨.value (if t.active then 1 else 0), s₁, ?_, hs₁⟩
    rw [bind_apply, hdeactivate]
    rfl

theorem timerWait_running (h : Waiting s s') (ht : s'.objects x = some (.timer t))
    (hlt : s'.timestamp < t.timeout) : ∃ s'',
    timerWait x t s' = .ok (.queue (.waiters x), s'') ∧ Waiting s s'' := by
  change ∃ s'', (if s'.timestamp < t.timeout then _ else _ : Kernel Wait) s' = _ ∧ _
  rw [if_pos hlt, bind_apply, timerActivate_eq ht]
  refine ⟨_, rfl, ?_⟩
  split_ifs
  · exact h
  · apply (h.insert .timerList _).put ht (.timer t true)
    intro t' _ _
    change Function.update s'.home x (some .timerList) x ≠ none
    rw [Function.update_self]
    exact nofun

/-- A wait for an object which is no event. -/
theorem waitNested_object (h : Waiting s s') (hx : s.objects x = some o)
    (hne : ∀ e, o ≠ .event e) (fuel mode : Nat) : ∃ w s'',
    waitNested (fuel + 1) x mode s' = .ok (w, s'') ∧
      ((∃ r, w = .result r) ∧ Ready s x mode ∧ Eventful s s'' ∨
        (∃ q, w = .queue q) ∧ ¬Ready s x mode ∧ Waiting s s'') := by
  obtain ⟨o', ho', hkept⟩ := h.kept x o hx
  rw [waitNested, bind_apply, getObject_eq ho', Ready, hx]
  have htimer : ∀ t, s'.objects x = some (.timer t) → ∃ w s'',
      timerWait x t s' = .ok (w, s'') ∧
        ((∃ r, w = .result r) ∧ t.timeout ≤ s.timestamp ∧ Eventful s s'' ∨
        (∃ q, w = .queue q) ∧ ¬t.timeout ≤ s.timestamp ∧ Waiting s s'') := by
    intro t ht
    by_cases hle : t.timeout ≤ s'.timestamp
    · obtain ⟨r, s'', hw, hs''⟩ := timerWait_expired ht (h.timers x t ht) hle
      exact ⟨_, s'', hw, Or.inl ⟨⟨r, rfl⟩, h.timestamp ▸ hle, h.eventful.trans hs''⟩⟩
    · obtain ⟨s'', hw, hs''⟩ := timerWait_running h ht (Nat.lt_of_not_le hle)
      exact ⟨_, s'', hw, Or.inr ⟨⟨_, rfl⟩, h.timestamp ▸ hle, hs''⟩⟩
  cases hkept with
  | event e r => exact absurd rfl (hne e)
  | timer t b => exact htimer _ ho'
  | subEvent z hz hgrounded => exact ⟨_, s', rfl, Or.inl ⟨⟨_, rfl⟩, trivial, h.eventful⟩⟩
  | same o =>
      cases o with
      | event e => exact absurd rfl (hne e)
      | timer t => exact htimer t ho'
      | subEvent z => exact ⟨_, s', rfl, Or.inl ⟨⟨_, rfl⟩, trivial, h.eventful⟩⟩
      | other => exact ⟨_, s', rfl, Or.inl ⟨⟨_, rfl⟩, trivial, h.eventful⟩⟩
      | thread t =>
          refine ⟨_, s', rfl, ?_⟩
          by_cases hnone : t.process = none
          · exact Or.inl ⟨⟨_, if_pos hnone⟩, hnone, h.eventful⟩
          · exact Or.inr ⟨⟨_, if_neg hnone⟩, hnone, h⟩
      | process p =>
          refine ⟨_, s', rfl, ?_⟩
          by_cases hnil : p.threads = []
          · exact Or.inl ⟨⟨_, if_pos hnil⟩, hnil, h.eventful⟩
          · exact Or.inr ⟨⟨_, if_neg hnil⟩, hnil, h⟩
      | semaphore value =>
          by_cases hzero : value = 0
          · refine ⟨.queue (.waiters x), s', ?_, Or.inr ⟨⟨_, rfl⟩, fun hne => hne hzero, h⟩⟩
            simp only [hzero, if_true]
            rfl
          · refine ⟨.result (.value (value - 1)), put s' x (some (.semaphore (value - 1))), ?_,
              Or.inl ⟨⟨_, rfl⟩, hzero, h.eventful.trans (eventful_put ho' (by simp))⟩⟩
            simp only [hzero, if_false]
            rw [bind_apply, assign_eq semaphoreFunctions (a := value) ho']
            rfl
      | pipe p =>
          refine ⟨_, s', rfl, ?_⟩
          rw [pipeWait]
          cases hwait : PipeQueues.pipeWait p (mode ≠ 0) with
          | some r =>
              left
              refine ⟨⟨_, rfl⟩, ?_, h.eventful⟩
              change (PipeQueues.pipeWait p (mode ≠ 0)).isSome = true
              rw [hwait]
              rfl
          | none =>
              right
              refine ⟨⟨_, rfl⟩, ?_, h⟩
              change ¬(PipeQueues.pipeWait p (mode ≠ 0)).isSome = true
              rw [hwait]
              simp

/-- What a wait finds: either a result of something triggered or a queue. -/
structure Found (s : Store) (x mode : Nat) (w : Wait) (s' : Store) : Prop where
  grounded : Grounded s x
  found : (∃ r, w = .result r) ∧ Triggered s x mode ∧ Eventful s s' ∨
    (∃ q, w = .queue q) ∧ ¬Triggered s x mode ∧ Waiting s s'
  answers : ∀ e, s.objects x = some (.event e) → Answers s x w

theorem triggered_iff_ready (hx : s.objects x = some o) (hne : ∀ e, o ≠ .event e) :
    Triggered s x mode ↔ Ready s x mode := by
  constructor
  · intro h
    cases h with
    | ready h => exact h
    | event he => exact absurd (Option.some.inj (hx.symm.trans he)) (hne _)
  · exact .ready

/-- A wait for an event is triggered by one of its subEvents. -/
theorem triggered_iff_event (hx : s.objects x = some (.event e)) :
    Triggered s x mode ↔ ¬Passes s e.subEvents := by
  constructor
  · intro h hpasses
    cases h with
    | ready h =>
        rw [Ready, hx] at h
        exact h
    | event he hy hz hb h =>
        obtain ⟨⟩ := hx.symm.trans he
        exact hpasses _ hy _ hz hb h
  · intro h
    simp only [Passes, not_forall, not_not] at h
    obtain ⟨y, hy, z, hz, hb, h⟩ := h
    exact .event hx hy hz hb h

theorem Waiting.subEvent (h : Waiting s s') (hy : s.objects y = some (.subEvent z)) :
    s'.objects y = some (.subEvent z) ∨ s'.objects y = some (.subEvent { z with blocked := true }) ∧
      ¬Triggered s z.wait z.waitMode ∧ Grounded s z.wait := by
  obtain ⟨o', ho', hkept⟩ := h.kept y _ hy
  cases hkept with
  | same => exact Or.inl ho'
  | subEvent z hz hgrounded => exact Or.inr ⟨ho', hz, hgrounded⟩

/-- The status of an event is set. -/
theorem Waiting.setStatus {excused : Fault → Prop} (h : Waiting s s')
    (hx : s.objects x = some (.event e)) (r : Result) :
    Yields excused (assign eventFunctions x fun e => { e with status := r }) s'
      fun _ => Waiting s := by
  obtain ⟨e', he'⟩ := h.eventful x e hx
  exact yields_of_ok (assign_eq eventFunctions he') (h.put he' (.event e' r) nofun)

theorem Waiting.setBlocked {excused : Fault → Prop} (h : Waiting s s')
    (hy : s.objects y = some (.subEvent z)) (hz : ¬Triggered s z.wait z.waitMode)
    (hgrounded : Grounded s z.wait) :
    Yields excused (assign subEventFunctions y fun z => { z with blocked := true }) s'
      fun _ => Waiting s := by
  rcases h.subEvent hy with hy' | ⟨hy', -⟩
  · exact yields_of_ok (assign_eq subEventFunctions hy')
      (h.put hy' (.subEvent z hz hgrounded) nofun)
  · exact yields_of_ok (assign_eq subEventFunctions hy') (h.put hy' (.same _) nofun)

theorem mem_of_split {y y' : Nat} {ys zs ys' zs' : List Nat}
    (h : ys ++ y :: zs = ys' ++ y' :: zs') :
    y' ∈ ys ++ [y] ∨ y ∈ ys' := by
  rcases List.append_eq_append_iff.mp h with ⟨as, rfl, has⟩ | ⟨as, rfl, has⟩
  · cases as with
    | nil => simp_all
    | cons a as => simp_all
  · cases as with
    | nil => simp_all
    | cons a as => simp_all

section

variable {excused : Fault → Prop} {fuel : Nat}

/-- The loop of the wait for an event, behind subEvents which it has got past. -/
theorem eventWaitLoop_spec (hs : Attached s) (hx : s.objects x = some (.event e)) (mode : Nat)
    (hwait : ∀ x' mode s', s.objects x' ≠ none →
      (∀ e', s.objects x' = some (.event e') → Calls s x x') →
      Waiting s s' → Yields excused (waitNested fuel x' mode) s' (Found s x' mode))
    {front ys : List Nat} (hys : e.subEvents = front ++ ys) (hpasses : Passes s front)
    (hgrounded : ∀ y ∈ front, ∀ z, s.objects y = some (.subEvent z) → z.blocked = false →
      Grounded s z.wait) (h : Waiting s s') :
    Yields excused (eventWaitLoop (waitNested fuel) x ys) s' (Found s x mode) := by
  induction ys generalizing front s' with
  | nil =>
      rw [List.append_nil] at hys
      refine yields_pure ⟨⟨x, ?_⟩, Or.inr ⟨⟨_, rfl⟩, ?_, h⟩, fun _ _ => Or.inl rfl⟩
      · rintro _ ⟨e', ys, y, zs, z, he', hsplit, -, hy, hb, rfl, -⟩
        obtain ⟨⟩ := hx.symm.trans he'
        apply hgrounded y _ z hy hb
        rw [← hys, hsplit]
        simp
      · rw [triggered_iff_event hx, hys, not_not]
        exact hpasses
  | cons y ys ih =>
      obtain ⟨z, hy, hevent, hlive⟩ := hs.subEvents x e hx y (by simp [hys])
      have hnext : ∀ s'', ¬(z.blocked = false ∧ Triggered s z.wait z.waitMode) →
          (z.blocked = false → Grounded s z.wait) → Waiting s s'' →
          Yields excused (eventWaitLoop (waitNested fuel) x ys) s'' (Found s x mode) := by
        intro s'' hz hg hs''
        have hsplit : e.subEvents = (front ++ [y]) ++ ys := by simp [hys]
        refine ih hsplit ?_ ?_ hs''
        · intro y' hy' z' hz' hb ht
          rcases List.mem_append.mp hy' with hy' | hy'
          · exact hpasses y' hy' z' hz' hb ht
          · obtain rfl := List.mem_singleton.mp hy'
            obtain ⟨⟩ := hy.symm.trans hz'
            exact hz ⟨hb, ht⟩
        · intro y' hy' z' hz' hb
          rcases List.mem_append.mp hy' with hy' | hy'
          · exact hgrounded y' hy' z' hz' hb
          · obtain rfl := List.mem_singleton.mp hy'
            obtain ⟨⟩ := hy.symm.trans hz'
            exact hg hb
      have hget : ∀ z', s'.objects y = some (.subEvent z') → getSubEvent y s' = .ok (z', s') :=
        fun z' => objectContainer_eq subEventFunctions
      rw [eventWaitLoop]
      rcases h.subEvent hy with hy' | ⟨hy', hz, hg⟩
      · refine yields_ok_bind (hget z hy') ?_
        refine yields_ite (fun hblocked => ?_) (fun hblocked => ?_)
        · refine hnext s' (fun hb => ?_) (fun hb => ?_) h
          · exact absurd hblocked (by simp [hb.1])
          · exact absurd hblocked (by simp [hb])
        -- the subEvent is not blocked, so the wait goes on with what it is on
        · have hb : z.blocked = false := by simpa using hblocked
          have hassert : kernelAssert (z.event = x) s' = .ok ((), s') :=
            kernelAssert_eq_ok.mpr ⟨hevent, rfl⟩
          have hcall : ∀ e', s.objects z.wait = some (.event e') → Calls s x z.wait :=
            fun e' he' => ⟨e, front, y, ys, z, hx, hys, hpasses, hy, hb, rfl, e', he'⟩
          refine yields_ok_bind hassert ?_
          refine (h.setStatus hx (.value 0)).bind fun _ s₁ hs₁ => ?_
          refine (hwait z.wait z.waitMode s₁ hlive hcall hs₁).bind fun w s₂ hw => ?_
          rcases hw.found with ⟨⟨r, rfl⟩, ht, hs₂⟩ | ⟨⟨q, rfl⟩, ht, hs₂⟩
          · have hcalls : ∀ x', Calls s x x' → Grounded s x' := by
              rintro _ ⟨e', ys', y', zs', z', he', hsplit, hys', hz', hb', rfl, -⟩
              obtain ⟨⟩ := hx.symm.trans he'
              rcases mem_of_split (hys.symm.trans hsplit) with hmem | hmem
              · rcases List.mem_append.mp hmem with hmem | hmem
                · exact hgrounded y' hmem z' hz' hb'
                · obtain rfl := List.mem_singleton.mp hmem
                  obtain ⟨⟩ := hy.symm.trans hz'
                  exact hw.grounded
              · exact absurd ht (hys' y hmem z hy hb)
            have hmem : y ∈ e.subEvents := by simp [hys]
            obtain ⟨e', he'⟩ := hs₂ x e hx
            have hstatus : Eventful s₂ (put s₂ x (some (.event { e' with status := r }))) :=
              eventful_put he' fun _ _ => ⟨_, rfl⟩
            refine yields_ok_bind (assign_eq eventFunctions he') (yields_pure ⟨⟨x, hcalls⟩, ?_, ?_⟩)
            · exact Or.inl ⟨⟨_, rfl⟩, .event hx hmem hy hb ht, hs₂.trans hstatus⟩
            · exact fun _ _ => Or.inr ⟨e, y, z, hx, hmem, hy, rfl⟩
          · refine (hs₂.setBlocked hy ht hw.grounded).bind fun _ s₃ hs₃ => ?_
            exact hnext _ (fun hz => ht hz.2) (fun _ => hw.grounded) (hs₃.insert q _)
      · refine yields_ok_bind (hget _ hy') ?_
        rw [if_pos rfl]
        exact hnext s' (fun hb => hz hb.2) (fun _ => hg) h

theorem waitNested_event (hs : Attached s) (hx : s.objects x = some (.event e)) (mode : Nat)
    (hwait : ∀ x' mode s', s.objects x' ≠ none →
      (∀ e', s.objects x' = some (.event e') → Calls s x x') →
      Waiting s s' → Yields excused (waitNested fuel x' mode) s' (Found s x' mode))
        (h : Waiting s s') :
    Yields excused (waitNested (fuel + 1) x mode) s' (Found s x mode) := by
  obtain ⟨o', ho', hkept⟩ := h.kept x _ hx
  have hloop : ∀ ys, e.subEvents = ys →
      Yields excused (eventWaitLoop (waitNested fuel) x ys) s' (Found s x mode) := by
    intro ys hys
    have hsplit : e.subEvents = [] ++ ys := hys
    exact eventWaitLoop_spec hs hx mode hwait hsplit nofun nofun h
  refine yields_ok_bind (getObject_eq ho') ?_
  cases hkept with
  | same => exact hloop _ rfl
  | event e r => exact hloop _ rfl

theorem waitNested_other (h : Waiting s s') (hx : s.objects x ≠ none)
    (hne : ∀ e, s.objects x ≠ some (.event e)) (fuel mode : Nat) :
    Yields excused (waitNested (fuel + 1) x mode) s' (Found s x mode) := by
  obtain ⟨o, ho⟩ := Option.ne_none_iff_exists'.mp hx
  have hother : ∀ e, o ≠ .event e := by
    rintro e rfl
    exact hne e ho
  obtain ⟨w, s'', hw, hfound⟩ := waitNested_object h ho hother fuel mode
  refine yields_of_ok hw ⟨⟨x, ?_⟩, ?_, fun e he => absurd he (hne e)⟩
  · rintro x' ⟨e, _, _, _, _, he, -⟩
    exact absurd he (hne e)
  · rw [triggered_iff_ready ho hother]
    exact hfound

end

/-- If a wait does not run out of fuel, every way from event to event ends. -/
theorem waitNested_spec (hs : Attached s) (fuel : Nat) (hx : s.objects x ≠ none) (mode : Nat)
    (h : Waiting s s') : Yields (· = .outOfFuel) (waitNested fuel x mode) s' (Found s x mode) := by
  induction fuel generalizing x mode s' with
  | zero => exact yields_throw rfl
  | succ fuel ih =>
      by_cases hevent : ∃ e, s.objects x = some (.event e)
      · obtain ⟨e, he⟩ := hevent
        exact waitNested_event hs he mode (fun x' mode s' hx' _ hs' => ih hx' mode hs') h
      · exact waitNested_other h hx (fun e he => hevent ⟨e, he⟩) fuel mode

theorem calls_live (hs : Attached s) {l : Nat} (h : Relation.TransGen (Calls s) l x) :
    l < s.fresh := by
  obtain ⟨x', hcall, -⟩ := Relation.TransGen.head'_iff.mp h
  obtain ⟨e, _, _, _, _, he, -⟩ := hcall
  exact hs.live l (by simp [he])

/-- Events which lead to an event that does not lead to itself are not all there are. -/
theorem card_lt_fresh (hs : Attached s) (hx : s.objects x ≠ none)
    (hcycle : ¬Relation.TransGen (Calls s) x x) {L : Finset Nat}
    (hL : ∀ l ∈ L, Relation.TransGen (Calls s) l x) : L.card < s.fresh := by
  have hnot : x ∉ L := fun hmem => hcycle (hL x hmem)
  have hsub : insert x L ⊆ Finset.range s.fresh := by
    intro l hl
    rw [Finset.mem_range]
    rcases Finset.mem_insert.mp hl with rfl | hl
    · exact hs.live l hx
    · exact calls_live hs (hL l hl)
  have hcard := Finset.card_le_card hsub
  rw [Finset.card_insert_of_notMem hnot, Finset.card_range] at hcard
  exact hcard

theorem Acyclic.calls {x' : Nat} (h : Acyclic s x) (hcall : Calls s x x') : Acyclic s x' :=
  fun _ hx'' => h _ (hx''.head hcall)

/-- The events in `L` have been entered already. The wait for `x` does not come back to
them, so there are not too many. -/
theorem waitNested_fuel (hs : Attached s) (fuel : Nat) (hx : s.objects x ≠ none) (mode : Nat)
    (hacyclic : Acyclic s x) {L : Finset Nat} (hL : ∀ l ∈ L, Relation.TransGen (Calls s) l x)
    (hfuel : s.fresh ≤ fuel + L.card) (h : Waiting s s') :
    Yields (fun _ => False) (waitNested (fuel + 1) x mode) s' (Found s x mode) := by
  have hcycle : ∀ {x'}, Acyclic s x' → ¬Relation.TransGen (Calls s) x' x' := fun h => h _ .refl
  induction fuel generalizing x mode s' L with
  | zero =>
      have hcard := card_lt_fresh hs hx (hcycle hacyclic) hL
      omega
  | succ fuel ih =>
      by_cases hevent : ∃ e, s.objects x = some (.event e)
      · obtain ⟨e, he⟩ := hevent
        refine waitNested_event hs he mode (fun x' mode s' hx' hcall hs' => ?_) h
        by_cases hevent' : ∃ e', s.objects x' = some (.event e')
        · obtain ⟨e', he'⟩ := hevent'
          have hnot : x ∉ L := fun hmem => hcycle hacyclic (hL x hmem)
          apply ih hx' mode (hacyclic.calls (hcall e' he')) (L := insert x L) _ _ hs'
          · intro l hl
            rcases Finset.mem_insert.mp hl with rfl | hl
            · exact .single (hcall e' he')
            · exact (hL l hl).tail (hcall e' he')
          · rw [Finset.card_insert_of_notMem hnot]
            omega
        · exact waitNested_other hs' hx' (fun e' he' => hevent' ⟨e', he'⟩) fuel mode
      · exact waitNested_other h hx (fun e he => hevent ⟨e, he⟩) _ mode

theorem grounded_acyclic (h : Grounded s x) : Acyclic s x := by
  induction h with
  | intro x h ih =>
      intro x' hx' hcycle
      rcases hx'.cases_head with rfl | ⟨x'', hcall, hx'⟩
      · -- the first step of the circle leads to an event on it
        obtain ⟨x'', hcall, hback⟩ := Relation.TransGen.head'_iff.mp hcycle
        exact ih x'' hcall x'' .refl (Relation.TransGen.tail' hback hcall)
      · exact ih x'' hcall x' hx' hcycle

end

section

variable {s s' : Store} {x y mode ident : Nat} {u : Unit}

/-- An event has got a new subEvent. -/
theorem attached_of_attach (h : Attached s) {e : Event} {z : SubEvent}
    (hx : s.objects x = some (.event e)) (hz : z.event = x) (hwait : s'.objects z.wait ≠ none)
    (hobjects : s'.objects = Function.update
      (Function.update s.objects s.fresh (some (.subEvent z))) x
      (some (.event { e with subEvents := e.subEvents ++ [s.fresh] })))
    (hfresh : s'.fresh = s.fresh + 1) (hhome : s'.home = s.home) : Attached s' := by
  have hlt : x < s.fresh := h.live x (by simp [hx])
  have hself : s'.objects x = some (.event { e with subEvents := e.subEvents ++ [s.fresh] }) := by
    rw [hobjects, Function.update_self]
  have hnew : s'.objects s.fresh = some (.subEvent z) := by
    rw [hobjects, Function.update_of_ne (by omega), Function.update_self]
  have hold : ∀ {w}, w ≠ x → w ≠ s.fresh → s'.objects w = s.objects w := by
    intro w hwx hw
    rw [hobjects, Function.update_of_ne hwx, Function.update_of_ne hw]
  have hlive : ∀ {w}, s.objects w ≠ none → s'.objects w ≠ none := by
    intro w hw
    have hwlt := h.live w hw
    by_cases hwx : w = x
    · simp [hwx, hself]
    · rwa [hold hwx (by omega)]
  have hsub : ∀ {w e'}, s.objects w = some (.event e') → ∀ y ∈ e'.subEvents, ∃ z,
      s'.objects y = some (.subEvent z) ∧ z.event = w ∧ s'.objects z.wait ≠ none := by
    intro w e' he' y hy
    obtain ⟨z', hz', hevent, hwait'⟩ := h.subEvents w e' he' y hy
    have hylt := h.live y (by simp [hz'])
    have hyx : y ≠ x := by
      rintro rfl
      cases hx.symm.trans hz'
    exact ⟨z', (hold hyx (by omega)).trans hz', hevent, hlive hwait'⟩
  refine ⟨fun w hw => ?_, fun w e' he' y hy => ?_, fun w t ht hactive => ?_⟩
  · rw [hfresh]
    by_cases hwx : w = x
    · omega
    by_cases hwf : w = s.fresh
    · omega
    · have hwlt := h.live w (by rwa [← hold hwx hwf])
      omega
  · by_cases hwx : w = x
    · subst hwx
      obtain ⟨⟩ := hself.symm.trans he'
      rcases List.mem_append.mp hy with hy | hy
      · exact hsub hx y hy
      · obtain rfl := List.mem_singleton.mp hy
        exact ⟨z, hnew, hz, hwait⟩
    by_cases hwf : w = s.fresh
    · subst hwf
      cases hnew.symm.trans he'
    · exact hsub ((hold hwx hwf).symm.trans he') y hy
  · rw [hhome]
    by_cases hwx : w = x
    · subst hwx
      cases hself.symm.trans ht
    by_cases hwf : w = s.fresh
    · subst hwf
      cases hnew.symm.trans ht
    · exact h.timers w t ((hold hwx hwf).symm.trans ht) hactive

theorem attached_eventAttachObj (h : Attached s) {e : Event} (hx : s.objects x = some (.event e))
    (hm : eventAttachObj x y mode ident s = .ok (u, s')) : Attached s' := by
  obtain ⟨granted, s₁, hrequest, hm⟩ := bind_ok.mp hm
  cases hrequest
  rcases hgranted : s.grants s.requests with _ | _
  · rw [hgranted] at hm
    cases hm
    exact ⟨h.live, h.subEvents, h.timers⟩
  rw [hgranted] at hm
  obtain ⟨z, s₁, hinit, hm⟩ := bind_ok.mp hm
  cases hinit
  obtain ⟨_, s₂, hassign, hm⟩ := bind_ok.mp hm
  obtain ⟨e', he', rfl⟩ := assign_eq_ok.mp hassign
  obtain ⟨o, s₃, hget, hm⟩ := bind_ok.mp hm
  obtain ⟨ho, rfl⟩ := getObject_eq_ok.mp hget
  cases hm
  have hlt : x < s.fresh := h.live x (by simp [hx])
  have hne : x ≠ s.fresh := by omega
  have hxe : e' = e := by
    have hkeep := (Function.update_of_ne hne _ _).symm.trans he'
    exact Object.event.inj (Option.some.inj (hkeep.symm.trans hx))
  subst hxe
  exact attached_of_attach h hx (z := ⟨false, x, y, mode, ident⟩) rfl
    (Option.isSome_iff_ne_none.mp (ho ▸ rfl)) rfl rfl rfl

theorem attached_objectAttachObj (h : Attached s)
    (hm : objectAttachObj x y mode ident s = .ok (u, s')) : Attached s' := by
  obtain ⟨o, s₁, hget, hm⟩ := bind_ok.mp hm
  obtain ⟨ho, rfl⟩ := getObject_eq_ok.mp hget
  cases o with
  | event e => exact attached_eventAttachObj h ho hm
  | _ =>
      cases hm
      exact h

/-- SYSCALL_OBJECT_ATTACH_OBJ -/
def Attaches (i : Input) : Prop := ∃ t x y mode ident, i = .call t (.attach x y mode ident)

theorem attached_step {i : Input} (h : Attached s) (hi : Attaches i)
    (hm : Syscalls.step s i = .ok (s', u)) : Attached s' := by
  obtain ⟨t, x, y, mode, ident, rfl⟩ := hi
  obtain ⟨⟨_, s₁⟩, hm, hpure⟩ := Runs.bind_eq_ok.mp hm
  cases hpure
  obtain ⟨_, _, ⟨⟩, hm⟩ := bind_ok.mp hm
  rcases hrunning : running s t with _ | p
  · simp only [hrunning] at hm
    cases hm
    exact h
  · simp only [hrunning] at hm
    obtain ⟨handles, s₂, hhandles, hperform⟩ := bind_ok.mp hm
    obtain rfl := (getHandles_eq_ok hhandles).2
    change (if x ∈ handles ∧ y ∈ handles then objectAttachObj x y mode ident else pure ()) _ = _
      at hperform
    split_ifs at hperform
    · exact attached_objectAttachObj h hperform
    · cases hperform
      exact h

theorem attached_reaches {is : List Input} (h : Attached s) (his : ∀ i ∈ is, Attaches i)
    (hreaches : Reaches s is s') : Attached s' := by
  obtain ⟨os, hrun⟩ := hreaches
  exact Runs.run_invariant (fun _ _ _ _ hs hi hm => attached_step hs hi hm) h
    (Runs.along_of_forall (fun _ => his) s) hrun

end

section

variable {s : Store} {x mode : Nat}

theorem waitNested_outOfFuel (hs : Attached s) (hx : s.objects x ≠ none) (h : ¬Acyclic s x)
    (fuel mode : Nat) : waitNested fuel x mode s = .error .outOfFuel := by
  have hspec := waitNested_spec hs fuel hx mode (waiting_refl hs)
  cases hwait : waitNested fuel x mode s with
  | ok r => exact absurd (grounded_acyclic (hspec.of_ok hwait).grounded) h
  | error e => rw [hspec.of_error hwait]

theorem returns_iff (hs : Attached s) {e : Event} (hx : s.objects x = some (.event e)) :
    Returns s x mode ↔ Acyclic s x := by
  have hlive : s.objects x ≠ none := by simp [hx]
  constructor
  · rintro ⟨w, s', hwait, -⟩
    by_contra hcycle
    have hout := waitNested_outOfFuel hs hlive hcycle (s.fresh + 1) mode
    cases hout.symm.trans hwait
  · intro hacyclic
    have hspec := waitNested_fuel hs s.fresh hlive mode hacyclic (L := ∅) (by simp) (by simp)
      (waiting_refl hs)
    cases hwait : waitNested (s.fresh + 1) x mode s with
    | ok r => exact ⟨r.1, r.2, hwait, (hspec.of_ok hwait).answers e hx⟩
    | error e => exact absurd (hspec.of_error hwait) id

/-- After any attachments in any order a wait for an event returns if and only if it
does not come back to an event which it has not left yet. Otherwise it does not return
however deep the waits may be nested. -/
theorem event_wait_returns_iff {s₀ : Store} {is : List Input} {e : Event} (hs : Attached s₀)
    (his : ∀ i ∈ is, Attaches i) (hreaches : Reaches s₀ is s) (hx : s.objects x = some (.event e)) :
    (Returns s x mode ↔ Acyclic s x) ∧
      (¬Acyclic s x → ∀ fuel, waitNested fuel x mode s = .error .outOfFuel) := by
  have hattached := attached_reaches hs his hreaches
  constructor
  · exact returns_iff hattached hx
  · intro hcycle fuel
    exact waitNested_outOfFuel hattached (by simp [hx]) hcycle fuel mode

def partOf {α : Type} (functions : Functions α) (s : Store) (x : Nat) : Option α :=
  (s.objects x).bind functions.part

theorem partOf_eq_some {α : Type} {functions : Functions α} {a : α} :
    partOf functions s x = some a ↔ s.objects x = some (functions.whole a) := by
  rw [partOf, Option.bind_eq_some_iff]
  constructor
  · rintro ⟨o, ho, hpart⟩
    rw [functions.part_eq.mp hpart] at ho
    exact ho
  · intro h
    exact ⟨_, h, functions.part_eq.mpr rfl⟩

/-- Nothing is attached yet, and no timer is active. -/
theorem attached_of_reaches {s₀ : Store} {is : List Input} (hboot : Booted s₀)
    (hreaches : Reaches s₀ is s)
    (hempty : ∀ y < s.fresh, (∀ e ∈ partOf eventFunctions s y, e.subEvents = []) ∧
      ∀ t ∈ partOf timerFunctions s y, t.active = false) : Attached s := by
  have htidy := (CreationFailures.settled_of_reaches hboot hreaches).tidy
  constructor
  · intro y hy
    obtain ⟨o, ho⟩ := Option.ne_none_iff_exists'.mp hy
    exact htidy.lt ho
  · intro y e he z hz
    rw [(hempty y (htidy.lt he)).1 e (partOf_eq_some.mpr he)] at hz
    cases hz
  · intro y t ht hactive
    rw [(hempty y (htidy.lt ht)).2 t (partOf_eq_some.mpr ht)] at hactive
    cases hactive

/-- The only subEvent of an event is on one which has none. -/
theorem acyclic_of_last {e e' : Event} {y : Nat} {z : SubEvent} (hx : s.objects x = some (.event e))
    (he : e.subEvents = [y]) (hz : s.objects y = some (.subEvent z))
    (hwait : s.objects z.wait = some (.event e')) (he' : e'.subEvents = []) : Acyclic s x := by
  apply grounded_acyclic
  constructor
  rintro _ ⟨e₁, ys, y', zs, z', he₁, hsplit, -, hz', -, rfl, -⟩
  obtain ⟨⟩ := hx.symm.trans he₁
  obtain rfl : y' = y := by
    have hmem : y' ∈ ys ++ y' :: zs := by simp
    rw [← hsplit, he] at hmem
    exact List.mem_singleton.mp hmem
  obtain ⟨⟩ := hz.symm.trans hz'
  constructor
  rintro _ ⟨e₂, ys', _, zs', _, he₂, hsplit', -⟩
  obtain ⟨⟩ := hwait.symm.trans he₂
  simp [he'] at hsplit'

/-- The first subEvent of an event is on that event. -/
theorem not_acyclic_of_first {e : Event} {y : Nat} {ys : List Nat} {z : SubEvent}
    (hx : s.objects x = some (.event e)) (he : e.subEvents = y :: ys)
    (hz : s.objects y = some (.subEvent z)) (hb : z.blocked = false) (hwait : z.wait = x) :
    ¬Acyclic s x := by
  have hcall : Calls s x x := ⟨e, [], y, ys, z, hx, he, nofun, hz, hb, hwait, e, hx⟩
  exact fun h => h x .refl (.single hcall)

/-- There are two events. -/
def twoEvents :
    Store := runStore firstStore [.call 3 (.createEvent true), .call 3 (.createEvent true)]

theorem reaches_twoEvents :
    Reaches firstStore [.call 3 (.createEvent true), .call 3 (.createEvent true)] twoEvents :=
  reaches_runStore (by decide +kernel)

theorem attached_twoEvents : Attached twoEvents :=
  attached_of_reaches booted_firstStore reaches_twoEvents (by decide +kernel)

/-- One of the events is attached to the other one. -/
def nestedEvents : Store := runStore twoEvents [.call 3 (.attach 4 5 0 7)]

theorem reaches_nestedEvents : Reaches twoEvents [.call 3 (.attach 4 5 0 7)] nestedEvents :=
  reaches_runStore (by decide +kernel)

theorem acyclic_nestedEvents : Acyclic nestedEvents 4 := by
  have hx : partOf eventFunctions nestedEvents 4 = some ⟨[6], .value 0, true⟩ := by decide +kernel
  have hx := partOf_eq_some.mp hx
  have hy : partOf eventFunctions nestedEvents 5 = some ⟨[], .value 0, true⟩ := by decide +kernel
  have hy := partOf_eq_some.mp hy
  have hz : partOf subEventFunctions nestedEvents 6 = some ⟨false, 4, 5, 0, 7⟩ := by decide +kernel
  have hz := partOf_eq_some.mp hz
  generalize nestedEvents = s at hx hy hz ⊢
  exact acyclic_of_last hx rfl hz hy rfl

theorem event_wait_returns_nested : Returns nestedEvents 4 0 := by
  have hattaches : ∀ i ∈ [Input.call 3 (.attach 4 5 0 7)], Attaches i := by
    intro i hi
    exact ⟨3, 4, 5, 0, 7, List.mem_singleton.mp hi⟩
  have hx : partOf eventFunctions nestedEvents 4 = some ⟨[6], .value 0, true⟩ := by decide +kernel
  have hx := partOf_eq_some.mp hx
  exact (event_wait_returns_iff attached_twoEvents hattaches reaches_nestedEvents hx).1.mpr
    acyclic_nestedEvents

/-- An event is attached to itself. -/
def selfAttached : Store := runStore twoEvents [.call 3 (.attach 4 4 0 7)]

theorem reaches_selfAttached : Reaches twoEvents [.call 3 (.attach 4 4 0 7)] selfAttached :=
  reaches_runStore (by decide +kernel)

/-- No wait for the event ever returns. -/
theorem event_wait_diverges : Booted firstStore ∧
    Reaches firstStore [.call 3 (.createEvent true), .call 3 (.createEvent true)] twoEvents ∧
    Reaches twoEvents [.call 3 (.attach 4 4 0 7)] selfAttached ∧
    ¬Returns selfAttached 4 0 ∧ ∀ fuel, waitNested fuel 4 0 selfAttached = .error .outOfFuel := by
  have hx : partOf eventFunctions selfAttached 4 = some ⟨[6], .value 0, true⟩ := by decide +kernel
  have hx := partOf_eq_some.mp hx
  have hz : partOf subEventFunctions selfAttached 6 = some ⟨false, 4, 4, 0, 7⟩ := by decide +kernel
  have hz := partOf_eq_some.mp hz
  have hattached : Attached selfAttached := by
    apply attached_reaches attached_twoEvents _ reaches_selfAttached
    intro i hi
    exact ⟨3, 4, 4, 0, 7, List.mem_singleton.mp hi⟩
  have hcycle : ¬Acyclic selfAttached 4 := by
    clear hattached
    generalize selfAttached = s at hx hz ⊢
    exact not_acyclic_of_first hx rfl hz rfl rfl
  refine ⟨booted_firstStore, reaches_twoEvents, reaches_selfAttached, ?_, fun fuel => ?_⟩
  · rw [returns_iff hattached hx]
    exact hcycle
  · exact waitNested_outOfFuel hattached (by simp [hx]) hcycle fuel 0

end

end Ibnos.EventWaits
