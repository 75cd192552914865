import Ibnos.CreationFailures
import Ibnos.QueueWakeups

/-!
The tokens of a semaphore which is not attached to any event. Whoever waits for it gets a
token at once or from a signal, and nothing else changes how many there are.
-/

namespace Ibnos.SemaphoreTokens

open Ibnos.Lifetimes
open Ibnos.Objects
open Ibnos.ObjectStores
open Ibnos.Programs
open Ibnos.Syscalls

/-- The semaphore `x` is not attached to any event, unless it has been destroyed, and
blocked threads wait for it. Only the thread `but` may not be one of them anymore. -/
structure Almost (x : Nat) (but : Option Nat) (s : Store) : Prop where
  kind : ∀ o, s.objects x = some o → ∃ value, o = .semaphore value
  home : s.home x = none
  subEvents : ∀ y z, s.objects y = some (.subEvent z) → z.wait ≠ x
  members : ∀ y ∈ s.queues (.waiters x), s.home y = some (.waiters x) ∧
    ∃ t, s.objects y = some (.thread t) ∧ (but ≠ some y → t.blocked = true ∧ t.process ≠ none)
  nodup : (s.queues (.waiters x)).Nodup
  zero : s.queues (.waiters x) ≠ [] → s.objects x = some (.semaphore 0)

abbrev Plain (x : Nat) (s : Store) : Prop := Almost x none s

/-- The value of the semaphore does not change, and no threads are created. -/
structure Kept (x : Nat) (s s' : Store) : Prop where
  threads : ∀ y t', s'.objects y = some (.thread t') → ∃ t, s.objects y = some (.thread t)
  value : ∀ value, s'.objects x = some (.semaphore value) → s.objects x = some (.semaphore value)

/-- From a state in which `but` may be missing to one in which `but'` may be. -/
def Moves (x : Nat) (but but' : Option Nat) (s s' : Store) : Prop :=
  Almost x but s → Almost x but' s' ∧ Kept x s s'

abbrev Stays (x : Nat) (but : Option Nat) : Store → Store → Prop := Moves x but but

section

variable {s s' s'' : Store} {x y : Nat} {but but' but'' : Option Nat} {o o' : Object} {α β : Type}

theorem Kept.refl (x : Nat) (s : Store) : Kept x s s := ⟨fun _ t ht => ⟨t, ht⟩, fun _ h => h⟩

theorem Kept.trans (h : Kept x s s') (h' : Kept x s' s'') : Kept x s s'' where
  threads y t ht := by
    obtain ⟨t', ht'⟩ := h'.threads y t ht
    exact h.threads y t' ht'
  value v hv := h.value v (h'.value v hv)

theorem Moves.trans (h : Moves x but but' s s') (h' : Moves x but' but'' s' s'') :
    Moves x but but'' s s'' := by
  intro hs
  obtain ⟨hs', hkept⟩ := h hs
  obtain ⟨hs'', hkept'⟩ := h' hs'
  exact ⟨hs'', hkept.trans hkept'⟩

theorem Stays.refl (s : Store) : Stays x but s s := fun hs => ⟨hs, .refl x s⟩

theorem Almost.weaken (h : Plain x s) (but : Option Nat) : Almost x but s where
  kind := h.kind
  home := h.home
  subEvents := h.subEvents
  members y hy := by
    obtain ⟨hhome, t, ht, hblocked⟩ := h.members y hy
    exact ⟨hhome, t, ht, fun _ => hblocked nofun⟩
  nodup := h.nodup
  zero := h.zero

theorem Almost.not_mem (h : Almost x but s) (ho : s.objects y = some o)
    (hthread : ∀ t, o ≠ .thread t) :
    y ∉ s.queues (.waiters x) := by
  intro hy
  obtain ⟨-, t, ht, -⟩ := h.members y hy
  exact hthread t (Option.some.inj (ho.symm.trans ht))

theorem Almost.ne (h : Almost x but s) (ho : s.objects y = some o)
    (hsemaphore : ∀ v, o ≠ .semaphore v) :
    y ≠ x := by
  rintro rfl
  obtain ⟨v, hv⟩ := h.kind o ho
  exact hsemaphore v hv

/-- Only what does not matter here changes. -/
theorem stays_same (hobjects : s'.objects = s.objects) (hqueues : s'.queues = s.queues)
    (hhome : s'.home = s.home) : Stays x but s s' := by
  intro h
  refine ⟨⟨?_, ?_, ?_, ?_, ?_, ?_⟩, ?_, ?_⟩
  all_goals simp only [hobjects, hqueues, hhome]
  · exact h.kind
  · exact h.home
  · exact h.subEvents
  · exact h.members
  · exact h.nodup
  · exact h.zero
  · exact fun y t ht => ⟨t, ht⟩
  · exact fun v hv => hv

/-- An object is changed which is neither the semaphore nor a thread. -/
theorem almost_put (h : Almost x but s) (ho : s.objects y = some o) (hne : y ≠ x)
    (hthread : ∀ t, o ≠ .thread t) (hthread' : ∀ t, o' ≠ .thread t)
    (hwait : ∀ z, o' = .subEvent z → z.wait ≠ x) :
    Almost x but (put s y (some o')) ∧ Kept x s (put s y (some o')) := by
  have hx : (put s y (some o')).objects x = s.objects x := Function.update_of_ne hne.symm ..
  have hold : ∀ {w}, w ≠ y → (put s y (some o')).objects w = s.objects w :=
    fun hw => Function.update_of_ne hw ..
  have hself : (put s y (some o')).objects y = some o' := Function.update_self ..
  have hmem := h.not_mem ho hthread
  refine ⟨⟨?_, h.home, fun w z hz => ?_, fun w hw => ?_, h.nodup, ?_⟩, fun w t ht => ?_, ?_⟩
  · rw [hx]
    exact h.kind
  · by_cases hwy : w = y
    · subst hwy
      exact hwait z (Option.some.inj (hself.symm.trans hz))
    · exact h.subEvents w z ((hold hwy).symm.trans hz)
  · have hwy : w ≠ y := by
      rintro rfl
      exact hmem hw
    rw [hold hwy]
    exact h.members w hw
  · rw [hx]
    exact h.zero
  · by_cases hwy : w = y
    · subst hwy
      exact absurd (Option.some.inj (hself.symm.trans ht)) (hthread' t)
    · exact ⟨t, (hold hwy).symm.trans ht⟩
  · rw [hx]
    exact fun v hv => hv

/-- A thread is changed which does not wait for the semaphore, or does not count. -/
theorem almost_putThread (h : Almost x but s) {t t' : Thread} (ho : s.objects y = some (.thread t))
    (hy : y ∈ s.queues (.waiters x) → but ≠ some y →
      t.blocked = true ∧ t.process ≠ none → t'.blocked = true ∧ t'.process ≠ none) :
    Almost x but (put s y (some (.thread t'))) ∧ Kept x s (put s y (some (.thread t'))) := by
  have hne : y ≠ x := h.ne ho nofun
  have hx : (put s y (some (.thread t'))).objects x = s.objects x :=
    Function.update_of_ne hne.symm ..
  have hold : ∀ {w}, w ≠ y → (put s y (some (.thread t'))).objects w = s.objects w :=
    fun hw => Function.update_of_ne hw ..
  have hself : (put s y (some (.thread t'))).objects y = some (.thread t') :=
    Function.update_self ..
  refine ⟨⟨?_, h.home, fun w z hz => ?_, fun w hw => ?_, h.nodup, ?_⟩, fun w t₁ ht => ?_, ?_⟩
  · rw [hx]
    exact h.kind
  · by_cases hwy : w = y
    · subst hwy
      cases hself.symm.trans hz
    · exact h.subEvents w z ((hold hwy).symm.trans hz)
  · obtain ⟨hhome, t₁, ht₁, hblocked⟩ := h.members w hw
    by_cases hwy : w = y
    · subst hwy
      obtain ⟨⟩ := ho.symm.trans ht₁
      exact ⟨hhome, t', hself, fun hbut => hy hw hbut (hblocked hbut)⟩
    · exact ⟨hhome, t₁, (hold hwy).trans ht₁, hblocked⟩
  · rw [hx]
    exact h.zero
  · by_cases hwy : w = y
    · subst hwy
      exact ⟨t, ho⟩
    · exact ⟨t₁, (hold hwy).symm.trans ht⟩
  · rw [hx]
    exact fun v hv => hv

/-- An entry is taken out of its list, which may be the queue of the semaphore. -/
theorem moves_llRemove {q : Queue} (hbut : but = none ∨ but = some y)
    (hm : llRemove y s = .ok (q, s')) : Moves x but none s s' := by
  intro h
  rw [llRemove] at hm
  split at hm
  · cases hm
  · next q' hhome =>
    cases hm
    have hqueue : ∀ w ∈ Function.update s.queues q ((s.queues q).erase y) (.waiters x),
        w ∈ s.queues (.waiters x) ∧ w ≠ y := by
      intro w hw
      by_cases hq : Queue.waiters x = q
      · subst hq
        rw [Function.update_self] at hw
        exact (h.nodup.mem_erase_iff.mp hw).symm
      · rw [Function.update_of_ne hq] at hw
        refine ⟨hw, ?_⟩
        rintro rfl
        exact hq (Option.some.inj ((h.members w hw).1.symm.trans hhome))
    refine ⟨⟨h.kind, ?_, h.subEvents, fun w hw => ?_, ?_, fun hne => ?_⟩, fun w t ht => ⟨t, ht⟩,
      fun v hv => hv⟩
    · change Function.update s.home y none x = none
      by_cases hxy : x = y
      · rw [hxy, Function.update_self]
      · rw [Function.update_of_ne hxy, h.home]
    · obtain ⟨hmem, hne⟩ := hqueue w hw
      obtain ⟨hhome', t, ht, hblocked⟩ := h.members w hmem
      refine ⟨(Function.update_of_ne hne ..).trans hhome', t, ht, fun _ => hblocked ?_⟩
      rcases hbut with rfl | rfl
      · simp
      · exact fun heq => hne (Option.some.inj heq).symm
    · change (Function.update s.queues q ((s.queues q).erase y) (.waiters x)).Nodup
      by_cases hq : Queue.waiters x = q
      · subst hq
        rw [Function.update_self]
        exact h.nodup.erase y
      · rw [Function.update_of_ne hq]
        exact h.nodup
    · obtain ⟨w, hw⟩ := List.exists_mem_of_ne_nil _ hne
      exact h.zero (List.ne_nil_of_mem (hqueue w hw).1)

/-- An entry is put into another list. -/
theorem almost_insert (h : Almost x but s) {q : Queue} (hq : q ≠ .waiters x) (hne : y ≠ x)
    (hy : y ∉ s.queues (.waiters x)) (xs : List Nat) :
    Stays x but s { s with
      queues := Function.update s.queues q xs
      home := Function.update s.home y (some q) } := by
  intro _
  have hqueue : Function.update s.queues q xs (.waiters x) = s.queues (.waiters x) :=
    Function.update_of_ne hq.symm ..
  refine ⟨⟨h.kind, ?_, h.subEvents, fun w hw => ?_, ?_, fun hne => ?_⟩, fun w t ht => ⟨t, ht⟩,
    fun v hv => hv⟩
  · exact (Function.update_of_ne hne.symm ..).trans h.home
  · have hmem : w ∈ s.queues (.waiters x) := hqueue ▸ hw
    obtain ⟨hhome, hthread⟩ := h.members w hmem
    refine ⟨(Function.update_of_ne ?_ ..).trans hhome, hthread⟩
    rintro rfl
    exact hy hmem
  · change (Function.update s.queues q xs (.waiters x)).Nodup
    rw [hqueue]
    exact h.nodup
  · apply h.zero
    rw [← hqueue]
    exact hne

/-- An object is freed for which no thread of the queue is taken. -/
theorem stays_free (hy : y ∉ s.queues (.waiters x)) (hx : y = x → s.queues (.waiters x) = []) :
    Stays x but s (put s y none) := by
  intro h
  have hold : ∀ {w o}, (put s y none).objects w = some o → s.objects w = some o := by
    intro w o hw
    change Function.update s.objects y none w = _ at hw
    by_cases hwy : w = y
    · rw [hwy, Function.update_self] at hw
      cases hw
    · rwa [Function.update_of_ne hwy] at hw
  refine ⟨⟨fun o ho => h.kind o (hold ho), h.home, fun w z hz => h.subEvents w z (hold hz),
    fun w hw => ?_, h.nodup, fun hne => ?_⟩, fun w t ht => ⟨t, hold ht⟩, fun v hv => hold hv⟩
  · obtain ⟨hhome, t, ht, hblocked⟩ := h.members w hw
    refine ⟨hhome, t, (Function.update_of_ne ?_ ..).trans ht, hblocked⟩
    rintro rfl
    exact hy hw
  · refine (Function.update_of_ne ?_ ..).trans (h.zero hne)
    rintro rfl
    exact hne (hx rfl)

end

/-- Whatever the program does, the semaphore stays as it is. -/
abbrev Steady {α : Type} (x : Nat) (but : Option Nat) (m : Kernel α) : Prop := Keeps (Stays x but) m

section

variable {s s' : Store} {x y : Nat} {but : Option Nat} {α β : Type}

theorem steady_pure (a : α) : Steady x but (pure a) := keeps_pure Stays.refl a

theorem steady_throw (e : Objects.Fault) : Steady x but (throw e : Kernel α) := keeps_throw e

theorem steady_get : Steady x but get := keeps_get Stays.refl

theorem Steady.bind {m : Kernel α} {f : α → Kernel β} (hm : Steady x but m)
    (hf : ∀ a, Steady x but (f a)) :
    Steady x but (m >>= f) := Keeps.bind (fun _ _ _ => Moves.trans) hm hf

theorem steady_ite {c : Prop} {_ : Decidable c} {m m' : Kernel α} (hm : Steady x but m)
    (hm' : Steady x but m') : Steady x but (if c then m else m') := keeps_ite hm hm'

theorem steady_getObject (y : Nat) : Steady x but (getObject y) := by
  intro s o s' h
  obtain ⟨-, rfl⟩ := getObject_eq_ok.mp h
  exact .refl s'

theorem steady_objectContainer (functions : Functions α) (y : Nat) :
    Steady x but (objectContainer functions y) := by
  intro s a s' h
  obtain ⟨-, rfl⟩ := objectContainer_eq_ok.mp h
  exact .refl s'

theorem steady_kernelAssert (c : Prop) [Decidable c] : Steady x but (kernelAssert c) :=
  steady_ite (steady_pure ()) (steady_throw _)

/-- An object is assigned to which is neither a thread nor a semaphore. A subEvent stays on
what it is on. -/
theorem steady_assign {functions : Functions α} {f : α → α}
    (hthread : ∀ a t, functions.whole a ≠ .thread t)
    (hsemaphore : ∀ a v, functions.whole a ≠ .semaphore v)
    (hwait : ∀ a z, functions.whole (f a) = .subEvent z →
      ∃ z', functions.whole a = .subEvent z' ∧ z'.wait = z.wait) (y : Nat) :
    Steady x but (assign functions y f) := by
  intro s u s' h hs
  obtain ⟨a, ha, rfl⟩ := assign_eq_ok.mp h
  refine almost_put hs ha (hs.ne ha (hsemaphore a)) (hthread a) (hthread _) fun z hz => ?_
  obtain ⟨z', hz', heq⟩ := hwait a z hz
  rw [← heq]
  exact hs.subEvents y z' (ha.trans (congrArg some hz'))

theorem steady_assignProcess (f : Process → Process) (y : Nat) :
    Steady x but (assign processFunctions y f) := steady_assign nofun nofun nofun y

theorem steady_assignEvent (f : Event → Event) (y : Nat) :
    Steady x but (assign eventFunctions y f) := steady_assign nofun nofun nofun y

theorem steady_assignTimer (f : Timer → Timer) (y : Nat) :
    Steady x but (assign timerFunctions y f) := steady_assign nofun nofun nofun y

theorem steady_assignPipe (f : Pipes.Pipe → Pipes.Pipe) (y : Nat) :
    Steady x but (assign pipeFunctions y f) := steady_assign nofun nofun nofun y

theorem steady_setBlocked (b : Bool) (y : Nat) :
    Steady x but (assign subEventFunctions y fun z => { z with blocked := b }) := by
  refine steady_assign nofun nofun (fun z z' hz' => ⟨z, rfl, ?_⟩) y
  cases hz'
  rfl

theorem steady_assignSemaphore (f : Nat → Nat) (hne : y ≠ x) :
    Steady x but (assign semaphoreFunctions y f) := by
  intro s u s' h hs
  obtain ⟨v, hv, rfl⟩ := assign_eq_ok.mp h
  exact almost_put hs hv hne nofun nofun nofun

theorem steady_llRemove (y : Nat) : Steady x none (llRemove y) :=
  fun _ _ _ h => moves_llRemove (Or.inl rfl) h

theorem steady_logReturn (r : Return) : Steady x but (logReturn r) :=
  keeps_modify fun _ => stays_same rfl rfl rfl

theorem home_llRemove {q : Queue} (h : llRemove y s = .ok (q, s')) : s'.home y = none := by
  rw [llRemove] at h
  split at h
  · cases h
  · cases h
    exact Function.update_self ..

/-- Who is in no list is put into another one than the queue of the semaphore. -/
theorem moves_add {q : Queue} {xs : List Nat} {u : Unit} (hq : q ≠ .waiters x) (hne : y ≠ x)
    (hhome : s.home y = none) (h : llInsert q y xs s = .ok (u, s')) : Stays x but s s' := by
  intro hs
  cases h
  refine almost_insert hs hq hne (fun hy => ?_) xs hs
  rw [(hs.members y hy).1] at hhome
  cases hhome

theorem moves_addOther {q : Queue} {xs : List Nat} {o : Object} {u : Unit} (hq : q ≠ .waiters x)
    (ho : s.objects y = some o) (hthread : ∀ t, o ≠ .thread t) (hsemaphore : ∀ v, o ≠ .semaphore v)
    (h : llInsert q y xs s = .ok (u, s')) : Stays x but s s' := by
  intro hs
  cases h
  exact almost_insert hs hq (hs.ne ho hsemaphore) (hs.not_mem ho hthread) xs hs

/-- A thread which is being taken out does not count. -/
theorem moves_assignThread {f : Thread → Thread} {u : Unit}
    (h : assign threadFunctions y f s = .ok (u, s')) : Moves x none (some y) s s' := by
  intro hs
  obtain ⟨t, ht, rfl⟩ := assign_eq_ok.mp h
  exact almost_putThread (hs.weaken (some y)) ht fun _ hne => absurd rfl hne

/-- A thread is woken, or signalled in vain. -/
theorem steady_threadSignal (y : Nat) (r : Result) : Steady x none (threadSignal y r) := by
  intro s u s' hm hs
  obtain ⟨t, s₁, hget, hrest⟩ := bind_ok.mp hm
  obtain ⟨ht, rfl⟩ := objectContainer_eq_ok.mp hget
  split_ifs at hrest
  · cases hrest
    exact Stays.refl _ hs
  obtain ⟨_, s₂, hassign, hrest⟩ := bind_ok.mp hrest
  obtain ⟨q, s₃, hremove, hrest⟩ := bind_ok.mp hrest
  obtain ⟨_, s₄, hadd, hlog⟩ := bind_ok.mp hrest
  have hremoved : Moves x none none s₁ s₃ :=
    (moves_assignThread hassign).trans (moves_llRemove (Or.inr rfl) hremove)
  have hinsert : llInsert .threadList y (s₃.queues .threadList ++ [y]) s₃ = .ok ((), s₄) := hadd
  have hadded : Stays x none s₃ s₄ :=
    moves_add (q := .threadList) nofun (hs.ne ht nofun) (home_llRemove hremove) hinsert
  exact (hremoved.trans hadded).trans (steady_logReturn _ _ _ _ hlog) hs

end

section

variable {s s' : Store} {x y : Nat} {signal : Nat → Result → Kernel Unit}

theorem entryNext_eq_ok {q : Queue} {next : Option Nat} (h : entryNext q y s = .ok (next, s')) :
    s' = s ∧ s.home y = some q := by
  obtain ⟨_, _, ⟨⟩, hm⟩ := bind_ok.mp h
  split_ifs at hm with hhome
  · cases hm
    exact ⟨rfl, hhome⟩
  · cases hm

/-- The semaphore is in no list, so nobody who is woken is the semaphore. -/
theorem steady_wakeupLoop (hsignal : ∀ y r, y ≠ x → Steady x none (signal y r)) (q : Queue)
    (all : Bool) (r : Result) (fuel : Nat) (next : Option Nat) :
    Steady x none (wakeupLoop signal q all r fuel next) := by
  induction fuel generalizing next with
  | zero =>
      cases next with
      | none => exact steady_pure ()
      | some y => exact steady_throw _
  | succ fuel ih =>
      cases next with
      | none => exact steady_pure ()
      | some y =>
          intro s u s' hm hs
          obtain ⟨next, s₁, hnext, hrest⟩ := bind_ok.mp hm
          obtain ⟨rfl, hhome⟩ := entryNext_eq_ok hnext
          have hne : y ≠ x := by
            rintro rfl
            cases hs.home.symm.trans hhome
          exact ((hsignal y r hne).bind fun _ => steady_ite (ih next) (steady_pure ())) _ _
            _ hrest hs

theorem steady_queueWakeupWith (hsignal : ∀ y r, y ≠ x → Steady x none (signal y r)) (q : Queue)
    (all : Bool) (r : Result) : Steady x none (queueWakeupWith signal q all r) :=
  steady_get.bind fun _ => steady_wakeupLoop hsignal q all r _ _

theorem steady_subEventSignal (hsignal : ∀ y r, y ≠ x → Steady x none (signal y r)) (y : Nat)
    (r : Result) : Steady x none (subEventSignal signal y r) := by
  refine (steady_objectContainer _ _).bind fun z => steady_ite (steady_pure ()) ?_
  refine (steady_setBlocked false y).bind fun _ => (steady_llRemove y).bind fun _ => ?_
  refine (steady_assignEvent _ _).bind fun _ => (steady_objectContainer _ _).bind fun e => ?_
  exact steady_queueWakeupWith hsignal _ _ _

theorem steady_eventSignal (hsignal : ∀ y r, y ≠ x → Steady x none (signal y r)) (y : Nat)
    (r : Result) : Steady x none (eventSignal signal y r) := by
  refine (steady_assignEvent _ _).bind fun _ => (steady_objectContainer _ _).bind fun e => ?_
  exact steady_queueWakeupWith hsignal _ _ _

theorem steady_semaphoreSignal (hsignal : ∀ y r, y ≠ x → Steady x none (signal y r)) (hne : y ≠ x)
    (value : Nat) : Steady x none (semaphoreSignal signal y value) := by
  refine steady_get.bind fun s => steady_ite (steady_assignSemaphore _ hne) ?_
  exact (steady_kernelAssert _).bind fun _ => steady_queueWakeupWith hsignal _ _ _

theorem steady_signalNested (fuel : Nat) (y : Nat) (r : Result) (hne : y ≠ x) :
    Steady x none (signalNested fuel y r) := by
  induction fuel generalizing y r with
  | zero => exact steady_throw _
  | succ fuel ih =>
      refine (steady_getObject y).bind fun o => ?_
      split
      · exact steady_threadSignal y r
      · exact steady_subEventSignal ih y r
      · exact steady_eventSignal ih y r
      · exact steady_semaphoreSignal ih hne _
      · exact steady_queueWakeupWith ih _ _ _
      · exact steady_pure ()

theorem steady_objectSignal (r : Result) (hne : y ≠ x) : Steady x none (objectSignal y r) :=
  fun s u s' h => steady_signalNested (s.fresh + 2) y r hne s u s' h

theorem steady_queueWakeup (q : Queue) (all : Bool) (r : Result) :
    Steady x none (queueWakeup q all r) :=
  fun s u s' h => steady_queueWakeupWith (steady_signalNested (s.fresh + 2)) q all r s u s' h

theorem steady_timerDeactivate (y : Nat) : Steady x none (timerDeactivate y) := by
  refine (steady_objectContainer _ _).bind fun t => steady_ite ?_ (steady_pure ())
  exact (steady_llRemove y).bind fun _ => steady_assignTimer _ _

theorem steady_timerActivate (y : Nat) : Steady x none (timerActivate y) := by
  intro s u s' hm hs
  obtain ⟨t, s₁, hget, hrest⟩ := bind_ok.mp hm
  obtain ⟨ht, rfl⟩ := objectContainer_eq_ok.mp hget
  split_ifs at hrest
  · cases hrest
    exact Stays.refl _ hs
  · obtain ⟨_, _, ⟨⟩, hrest⟩ := bind_ok.mp hrest
    obtain ⟨_, s₂, hinsert, hassign⟩ := bind_ok.mp hrest
    have hinserted : Stays x none s₁ s₂ :=
      moves_addOther (q := .timerList) nofun ht nofun nofun hinsert
    exact hinserted.trans (steady_assignTimer _ _ _ _ _ hassign) hs

theorem steady_timerUpdate (y : Nat) : Steady x none (timerUpdate y) :=
  (steady_timerDeactivate y).bind fun _ => steady_timerActivate y

theorem steady_timerWait (y : Nat) (t : Timer) : Steady x none (timerWait y t) := by
  refine steady_get.bind fun s => steady_ite ?_ (steady_ite ?_ ?_)
  · exact (steady_timerActivate y).bind fun _ => steady_pure _
  · refine (steady_assignTimer _ _).bind fun _ => (steady_timerUpdate y).bind fun _ => ?_
    exact steady_pure _
  · exact (steady_timerDeactivate y).bind fun _ => steady_pure _

end

section

variable {s s' : Store} {x y : Nat} {wait : Nat → Nat → Kernel Wait}

theorem owner_ne {q : Queue} (hq : q.owner = some y) (hne : y ≠ x) : q ≠ .waiters x := by
  rintro rfl
  exact hne (Option.some.inj hq).symm

/-- The subEvents of an event are not on the semaphore. -/
theorem steady_eventWaitLoop (hwait : ∀ y mode, y ≠ x → Steady x none (wait y mode))
    (hqueue : ∀ y mode, CreationFailures.WaitsAt y (wait y mode)) (y : Nat) (zs : List Nat) :
    Steady x none (eventWaitLoop wait y zs) := by
  induction zs with
  | nil => exact steady_pure _
  | cons w zs ih =>
      intro s r s' hm hs
      obtain ⟨z, s₁, hget, hrest⟩ := bind_ok.mp hm
      obtain ⟨hz, rfl⟩ := objectContainer_eq_ok.mp hget
      have hne : z.wait ≠ x := hs.subEvents w z hz
      refine steady_ite ih ?_ _ _ _ hrest hs
      refine (steady_kernelAssert _).bind fun _ => (steady_assignEvent _ y).bind fun _ => ?_
      intro s₂ r s' hm hs₂
      obtain ⟨found, s₃, hw, hrest⟩ := bind_ok.mp hm
      have hwaited : Stays x none s₂ s₃ := hwait z.wait z.waitMode hne _ _ _ hw
      cases found with
      | result r =>
          exact hwaited.trans (((steady_assignEvent _ y).bind fun _ => steady_pure _) _ _ _ hrest)
            hs₂
      | queue q =>
          have hq := owner_ne (hqueue _ _ _ _ _ hw) hne
          obtain ⟨_, s₄, hassign, hrest⟩ := bind_ok.mp hrest
          obtain ⟨_, s₅, hadd, hrest⟩ := bind_ok.mp hrest
          have hblocked : Stays x none s₂ s₄ :=
            hwaited.trans (steady_setBlocked true w _ _ _ hassign)
          obtain ⟨z', hz'⟩ : ∃ z', s₄.objects w = some (.subEvent z') := by
            obtain ⟨z', -, rfl⟩ := assign_eq_ok.mp hassign
            exact ⟨_, Function.update_self ..⟩
          have hinsert : llInsert q w (w :: s₄.queues q) s₄ = .ok ((), s₅) := hadd
          have hinserted : Stays x none s₄ s₅ := moves_addOther hq hz' nofun nofun hinsert
          exact (hblocked.trans hinserted).trans (ih _ _ _ hrest) hs₂

theorem steady_waitNested (fuel : Nat) (y mode : Nat) (hne : y ≠ x) :
    Steady x none (waitNested fuel y mode) := by
  induction fuel generalizing y mode with
  | zero => exact steady_throw _
  | succ fuel ih =>
      refine (steady_getObject y).bind fun o => ?_
      split
      · exact steady_pure _
      · exact steady_pure _
      · exact steady_ite (steady_pure _)
          ((steady_assignSemaphore _ hne).bind fun _ => steady_pure _)
      · exact steady_timerWait y _
      · exact steady_pure _
      · exact steady_eventWaitLoop ih
          (fun y mode => CreationFailures.waitsAt_waitNested fuel y mode) y _
      · exact steady_pure _

/-- A running thread is put into another queue than the one of the semaphore. -/
theorem steady_threadWait (t mode : Nat) (hne : y ≠ x) : Steady x none (threadWait t y mode) := by
  intro s u s' hm hs
  obtain ⟨found, s₁, hw, hrest⟩ := bind_ok.mp hm
  have hwait : waitNested (s.fresh + 1) y mode s = .ok (found, s₁) := hw
  have hwaited : Stays x none s s₁ := steady_waitNested _ y mode hne _ _ _ hwait
  obtain ⟨hs₁, -⟩ := hwaited hs
  cases found with
  | result r =>
      obtain ⟨_, s₂, hassign, hlog⟩ := bind_ok.mp hrest
      have hassigned : Stays x none s₁ s₂ := by
        intro hs
        obtain ⟨t', ht', rfl⟩ := assign_eq_ok.mp hassign
        exact almost_putThread hs ht' fun _ _ => id
      exact (hwaited.trans hassigned).trans (steady_logReturn _ _ _ _ hlog) hs
  | queue q =>
      have hq := owner_ne (CreationFailures.waitsAt_waitNested _ y mode _ _ _ hwait) hne
      obtain ⟨thread, s₂, hget, hassert⟩ := bind_ok.mp hrest
      obtain ⟨ht, rfl⟩ := objectContainer_eq_ok.mp hget
      obtain ⟨_, s₃, hassert, hblock⟩ := bind_ok.mp hassert
      obtain ⟨-, rfl⟩ := kernelAssert_eq_ok.mp hassert
      obtain ⟨_, s₄, hassign, hmove⟩ := bind_ok.mp hblock
      obtain ⟨_, s₅, hremove, hadd⟩ := bind_ok.mp hmove
      have hremoved : Moves x none none _ s₅ :=
        (moves_assignThread hassign).trans (moves_llRemove (Or.inr rfl) hremove)
      have hinsert : llInsert q t (t :: s₅.queues q) s₅ = .ok (u, s') := hadd
      have hadded : Stays x none s₅ s' :=
        moves_add hq (hs₁.ne ht nofun) (home_llRemove hremove) hinsert
      exact (hwaited.trans (hremoved.trans hadded)) hs

end

section

variable {s s' : Store} {x y : Nat} {but : Option Nat} {release : Nat → Kernel Unit}

theorem steady_forEach {body : Nat → Kernel Unit} (h : ∀ y, Steady x but (body y)) (ys : List Nat) :
    Steady x but (forEach body ys) := by
  induction ys with
  | nil => exact steady_pure ()
  | cons y ys ih => exact (h y).bind fun _ => ih

theorem steady_abortWaits (q : Queue) : Steady x none (abortWaits q) := steady_queueWakeup q true _

theorem steady_assertEmpty (q : Queue) : Steady x but (assertEmpty q) :=
  steady_get.bind fun _ => steady_kernelAssert _

theorem steady_releasePageTable (y : Nat) :
    Steady x but (releasePageTable y) := steady_assignProcess _ y

theorem steady_handleTableFree (hrelease : ∀ y, Steady x none (release y)) (y : Nat) :
    Steady x none (handleTableFree release y) := by
  refine (steady_objectContainer _ _).bind fun p => ?_
  split
  · exact steady_pure ()
  · exact (steady_forEach hrelease _).bind fun _ => steady_assignProcess _ y

/-- What was no thread and not the semaphore at first is freed in the end. -/
theorem stays_freeLater {o : Object} {m : Kernel Unit} {u : Unit} (hm : Steady x none m)
    (ho : s.objects y = some o) (hthread : ∀ t, o ≠ .thread t) (hne : y ≠ x)
    (h : (m >>= fun _ => heapFree y) s = .ok (u, s')) : Stays x none s s' := by
  obtain ⟨_, s₁, hm', hfree⟩ := bind_ok.mp h
  cases hfree
  have hmoved : Stays x none s s₁ := hm _ _ _ hm'
  intro hs
  obtain ⟨hs₁, hkept⟩ := hmoved hs
  refine hmoved.trans (stays_free (fun hy => ?_) fun heq => absurd heq hne) hs
  obtain ⟨-, t, ht, -⟩ := hs₁.members y hy
  obtain ⟨t', ht'⟩ := hkept.threads y t ht
  exact hthread t' (Option.some.inj (ho.symm.trans ht'))

theorem stays_threadDestroy {t : Thread} {u : Unit} (ht : s.objects y = some (.thread t))
    (h : threadDestroy y t s = .ok (u, s')) : Stays x none s s' := by
  intro hs
  obtain ⟨_, s₁, hassert, hrest⟩ := bind_ok.mp h
  obtain ⟨_, _, ⟨⟩, hassert⟩ := bind_ok.mp hassert
  obtain ⟨-, rfl⟩ := kernelAssert_eq_ok.mp hassert
  obtain ⟨_, s₂, hprocess, hfree⟩ := bind_ok.mp hrest
  obtain ⟨hnone, rfl⟩ := kernelAssert_eq_ok.mp hprocess
  cases hfree
  refine stays_free (fun hy => ?_) (fun heq => absurd heq (hs.ne ht nofun)) hs
  obtain ⟨-, t', ht', hblocked⟩ := hs.members y hy
  obtain ⟨⟩ := ht.symm.trans ht'
  exact (hblocked nofun).2 hnone

theorem stays_processDestroy (hrelease : ∀ y, Steady x none (release y)) {p : Process} {u : Unit}
    (hp : s.objects y = some (.process p)) (h : processDestroy release y p s = .ok (u, s')) :
    Stays x none s s' := by
  intro hs
  have hbefore : Steady x none (do
      assertEmpty (.waiters y)
      kernelAssert (p.threads = [])
      releasePageTable y
      handleTableFree release y) := by
    refine (steady_assertEmpty _).bind fun _ => (steady_kernelAssert _).bind fun _ => ?_
    exact (steady_releasePageTable y).bind fun _ => steady_handleTableFree hrelease y
  refine stays_freeLater hbefore hp nofun (hs.ne hp nofun) (u := u) ?_ hs
  rw [← h, processDestroy]
  simp only [bind_assoc]

theorem steady_unlinkSubEvent (z : SubEvent) : Steady x none (unlinkSubEvent y z) :=
  steady_ite ((steady_llRemove y).bind fun _ => steady_pure ()) (steady_pure ())

theorem steady_removeSubEvent (hrelease : ∀ y, Steady x none (release y)) (w y : Nat) :
    Steady x none (removeSubEvent release w y) := by
  intro s u s' h hs
  obtain ⟨z, s₁, hget, hrest⟩ := bind_ok.mp h
  obtain ⟨hz, rfl⟩ := objectContainer_eq_ok.mp hget
  have hbefore : Steady x none (do
      unlinkSubEvent y z
      assign eventFunctions w fun e => { e with subEvents := e.subEvents.erase y }
      release z.wait) := by
    refine (steady_unlinkSubEvent z).bind fun _ => (steady_assignEvent _ w).bind fun _ => ?_
    exact hrelease z.wait
  refine stays_freeLater hbefore hz nofun (hs.ne hz nofun) (u := u) ?_ hs
  rw [← hrest]
  simp only [bind_assoc]

theorem stays_eventDestroy (hrelease : ∀ y, Steady x none (release y)) {e : Event} {u : Unit}
    (he : s.objects y = some (.event e)) (h : eventDestroy release y s = .ok (u, s')) :
    Stays x none s s' := by
  intro hs
  have hbefore : Steady x none (do
      abortWaits (.waiters y)
      assertEmpty (.waiters y)
      let e ← getEvent y
      forEach (removeSubEvent release y) e.subEvents) := by
    refine (steady_abortWaits _).bind fun _ => (steady_assertEmpty _).bind fun _ => ?_
    refine (steady_objectContainer _ _).bind fun e => ?_
    exact steady_forEach (steady_removeSubEvent hrelease y) _
  refine stays_freeLater hbefore he nofun (hs.ne he nofun) (u := u) ?_ hs
  rw [← h, eventDestroy]
  simp only [bind_assoc]

/-- All waits for the semaphore are aborted before it is freed. -/
theorem stays_semaphoreDestroy {v : Nat} {u : Unit} (hv : s.objects y = some (.semaphore v))
    (h : semaphoreDestroy y s = .ok (u, s')) : Stays x none s s' := by
  by_cases hyx : y = x
  · subst hyx
    obtain ⟨_, s₁, habort, hrest⟩ := bind_ok.mp h
    obtain ⟨_, s₂, hassert, hfree⟩ := bind_ok.mp hrest
    obtain ⟨_, _, ⟨⟩, hassert⟩ := bind_ok.mp hassert
    obtain ⟨hempty, rfl⟩ := kernelAssert_eq_ok.mp hassert
    cases hfree
    have haborted : Stays y none s _ := steady_abortWaits _ _ _ _ habort
    exact haborted.trans (stays_free (by simp [hempty]) fun _ => hempty)
  · have hbefore : Steady x none (do
        abortWaits (.waiters y)
        assertEmpty (.waiters y)) := (steady_abortWaits _).bind fun _ => steady_assertEmpty _
    refine stays_freeLater hbefore hv nofun hyx (u := u) ?_
    rw [← h, semaphoreDestroy]
    simp only [bind_assoc]

theorem stays_timerDestroy {t : Timer} {u : Unit} (ht : s.objects y = some (.timer t))
    (h : timerDestroy y s = .ok (u, s')) : Stays x none s s' := by
  intro hs
  have hbefore : Steady x none (do
      timerDeactivate y
      abortWaits (.waiters y)
      assertEmpty (.waiters y)) := by
    refine (steady_timerDeactivate y).bind fun _ => (steady_abortWaits _).bind fun _ => ?_
    exact steady_assertEmpty _
  refine stays_freeLater hbefore ht nofun (hs.ne ht nofun) (u := u) ?_ hs
  rw [← h, timerDestroy]
  simp only [bind_assoc]

theorem stays_pipeDestroy {p : Pipes.Pipe} {u : Unit} (hp : s.objects y = some (.pipe p))
    (h : pipeDestroy y s = .ok (u, s')) : Stays x none s s' := by
  intro hs
  have hbefore : Steady x none (do
      abortWaits (.writeWaiters y)
      abortWaits (.waiters y)
      assertEmpty (.writeWaiters y)
      assertEmpty (.waiters y)) := by
    refine (steady_abortWaits _).bind fun _ => (steady_abortWaits _).bind fun _ => ?_
    exact (steady_assertEmpty _).bind fun _ => steady_assertEmpty _
  refine stays_freeLater hbefore hp nofun (hs.ne hp nofun) (u := u) ?_ hs
  rw [← h, pipeDestroy]
  simp only [bind_assoc]

theorem steady_objectDestroy (hrelease : ∀ y, Steady x none (release y)) (y : Nat) :
    Steady x none (objectDestroy release y) := by
  intro s u s' h
  obtain ⟨o, s₁, hget, hrest⟩ := bind_ok.mp h
  obtain ⟨ho, rfl⟩ := getObject_eq_ok.mp hget
  cases o with
  | thread t => exact stays_threadDestroy ho hrest
  | process p => exact stays_processDestroy hrelease ho hrest
  | event e => exact stays_eventDestroy hrelease ho hrest
  | subEvent z => exact steady_pure () _ _ _ hrest
  | semaphore v => exact stays_semaphoreDestroy ho hrest
  | timer t => exact stays_timerDestroy ho hrest
  | pipe p => exact stays_pipeDestroy ho hrest
  | other =>
      intro hs
      exact stays_freeLater (steady_pure ()) ho nofun (hs.ne ho nofun) hrest hs

theorem steady_releaseNested (fuel y : Nat) : Steady x none (releaseNested fuel y) := by
  induction fuel generalizing y with
  | zero => exact steady_throw _
  | succ fuel ih =>
      refine (steady_getObject y).bind fun _ => Steady.bind ?_ fun _ => ?_
      · exact keeps_modify fun _ => stays_same rfl rfl rfl
      · exact steady_get.bind fun s => steady_ite (steady_objectDestroy ih y) (steady_pure ())

theorem steady_objectRelease (y : Nat) : Steady x none (objectRelease y) :=
  fun s u s' h => steady_releaseNested (s.fresh + 2) y s u s' h

theorem steady_objectAddRef (y : Nat) : Steady x but (objectAddRef y) :=
  (steady_getObject y).bind fun _ => keeps_modify fun _ => stays_same rfl rfl rfl

theorem steady_pagingReleasePhysMem (p t base length : Nat) :
    Steady x but (pagingReleasePhysMem p t base length) := by
  refine (steady_objectContainer _ _).bind fun process => ?_
  split
  · exact steady_throw _
  · refine steady_ite ((steady_assignProcess _ p).bind fun _ => ?_) (steady_throw _)
    exact keeps_modify fun _ => stays_same rfl rfl rfl

end

section

variable {s s' : Store} {x : Nat} {shutdown : Nat → Nat → Kernel Unit}

theorem steady_shutdownEmpty (hshutdown : ∀ y exitcode, Steady x none (shutdown y exitcode))
    (y exitcode : Nat) : Steady x none (shutdownEmpty shutdown y exitcode) :=
  (steady_objectContainer _ _).bind fun _ => steady_ite (hshutdown _ _) (steady_pure ())

/-- A thread leaves its queue when it ends. -/
theorem steady_threadShutdownWith (hshutdown : ∀ y exitcode, Steady x none (shutdown y exitcode))
    (y exitcode : Nat) : Steady x none (threadShutdownWith shutdown y exitcode) := by
  refine (steady_objectContainer _ _).bind fun t => ?_
  split
  · exact steady_pure ()
  · refine (steady_kernelAssert _).bind fun _ => (steady_kernelAssert _).bind fun _ => ?_
    intro s u s' h
    obtain ⟨_, s₁, hassign, hstorage⟩ := bind_ok.mp h
    obtain ⟨_, s₂, hstorage, hstack⟩ := bind_ok.mp hstorage
    obtain ⟨_, s₃, hstack, hremove⟩ := bind_ok.mp hstack
    obtain ⟨q, s₄, hremove, hrest⟩ := bind_ok.mp hremove
    have hassigned : Moves x none (some y) s s₁ := moves_assignThread hassign
    have hreleased : Stays x (some y) s₁ s₃ :=
      Moves.trans (steady_pagingReleasePhysMem _ _ _ _ _ _ _ hstorage)
        (steady_pagingReleasePhysMem _ _ _ _ _ _ _ hstack)
    have hremoved : Moves x (some y) none s₃ s₄ := moves_llRemove (Or.inr rfl) hremove
    refine ((hassigned.trans hreleased).trans hremoved).trans
      (Steady.bind ?_ (fun _ => ?_) _ _ _ hrest)
    · exact steady_assignProcess _ _
    · refine (steady_queueWakeup _ _ _).bind fun _ => ?_
      refine (steady_shutdownEmpty hshutdown _ _).bind fun _ => ?_
      exact (steady_objectRelease _).bind fun _ => steady_objectRelease _

theorem steady_shutdownLoop (hshutdown : ∀ y exitcode, Steady x none (shutdown y exitcode))
    (y fuel : Nat) (next : Option Nat) : Steady x none (shutdownLoop shutdown y fuel next) := by
  induction fuel generalizing next with
  | zero =>
      cases next with
      | none => exact steady_pure ()
      | some t => exact steady_throw _
  | succ fuel ih =>
      cases next with
      | none => exact steady_pure ()
      | some t =>
          refine Steady.bind ?_ fun next => ?_
          · exact (steady_objectContainer _ _).bind fun p => steady_ite (steady_pure _)
              (steady_throw _)
          · refine (steady_objectContainer _ _).bind fun p => ?_
            exact (hshutdown _ _).bind fun _ => ih next

theorem steady_processShutdownWith (hshutdown : ∀ y exitcode, Steady x none (shutdown y exitcode))
    (y exitcode : Nat) : Steady x none (processShutdownWith shutdown y exitcode) := by
  refine (steady_assignProcess _ y).bind fun _ => (steady_objectAddRef y).bind fun _ => ?_
  refine (steady_queueWakeup _ _ _).bind fun _ => (steady_objectContainer _ _).bind fun p => ?_
  refine (steady_shutdownLoop hshutdown _ _ _).bind fun _ => (steady_releasePageTable y).bind
    fun _ => ?_
  exact (steady_handleTableFree steady_objectRelease y).bind fun _ => steady_objectRelease y

theorem steady_processShutdownNested (fuel y exitcode : Nat) :
    Steady x none (processShutdownNested fuel y exitcode) := by
  induction fuel generalizing y exitcode with
  | zero => exact steady_throw _
  | succ fuel ih => exact steady_processShutdownWith (steady_threadShutdownWith ih) y exitcode

theorem steady_processShutdown (y exitcode : Nat) : Steady x none (processShutdown y exitcode) :=
  steady_processShutdownNested 2 y exitcode

theorem steady_threadShutdown (y exitcode : Nat) : Steady x none (threadShutdown y exitcode) :=
  steady_threadShutdownWith steady_processShutdown y exitcode

theorem steady_pipeShutdown (y : Nat) (p : Pipes.Pipe) (mode : Bool) :
    Steady x none (pipeShutdown y p mode) := by
  refine (steady_assignPipe _ y).bind fun _ => (steady_abortWaits _).bind fun _ => ?_
  exact steady_ite (steady_pure ()) (steady_abortWaits _)

theorem steady_objectShutdown (y mode : Nat) : Steady x none (objectShutdown y mode) := by
  refine (steady_getObject y).bind fun o => ?_
  split
  · exact steady_threadShutdown y mode
  · exact steady_processShutdown y mode
  · exact steady_abortWaits _
  · exact steady_abortWaits _
  · exact (steady_timerDeactivate y).bind fun _ => steady_abortWaits _
  · exact steady_pipeShutdown y _ _
  · exact steady_pure ()

end

/-- A thread waits for an object, or an object is signalled or shut down. Both may be
done to a thread which waits. -/
inductive Operation
  | wait (t y mode : Nat)
  | signal (y : Nat) (r : Result)
  | shutdown (y mode : Nat)

/-- Only a thread which runs can wait. -/
def operate : Operation → Kernel Unit
  | .wait t y mode => do
      let s ← get
      match running s t with
      | none => pure ()
      | some _ => threadWait t y mode
  | .signal y r => objectSignal y r
  | .shutdown y mode => objectShutdown y mode

/-- How many waits for `x` have returned. -/
def returns (x : Nat) (s : Store) : Nat := s.log.countP (·.object = some x)

/-- How many waits for `x` return with a token of it. -/
def tokens (x : Nat) (s s' : Store) : Operation → Nat
  | .wait _ y _ => if y = x then returns x s' - returns x s else 0
  | .signal y _ => if y = x then returns x s' - returns x s else 0
  | .shutdown _ _ => 0

def step (x : Nat) (s : Store) (o : Operation) : Except Objects.Fault (Store × Nat) := do
  let (_, s') ← operate o s
  return (s', tokens x s s' o)

/-- How many of the operations signal `x`. -/
def signals (x : Nat) (os : List Operation) : Nat :=
  os.countP fun
    | .signal y _ => y = x
    | _ => false

/-- The value of the semaphore can be increased. -/
def Below (x : Nat) (s : Store) (_ : Operation) : Prop :=
  ∀ v, s.objects x = some (.semaphore v) → v < WORD - 1

section

variable {s s' : Store} {x y : Nat} {v : Nat} {r : Result}

/-- The value changes while nobody waits. -/
theorem plain_setValue (h : Plain x s) (hv : s.objects x = some (.semaphore v))
    (hempty : s.queues (.waiters x) = []) (v' : Nat) :
      Plain x (put s x (some (.semaphore v'))) := by
  have hself : (put s x (some (.semaphore v'))).objects x = some (.semaphore v') :=
    Function.update_self ..
  refine ⟨fun o ho => ⟨v', ?_⟩, h.home, fun y z hz => ?_, fun y hy => ?_, h.nodup,
    fun hne => absurd hempty hne⟩
  · exact (Option.some.inj (hself.symm.trans ho)).symm
  · have hne : y ≠ x := by
      rintro rfl
      cases hself.symm.trans hz
    exact h.subEvents y z ((Function.update_of_ne hne ..).symm.trans hz)
  · have hmem : y ∈ s.queues (.waiters x) := hy
    rw [hempty] at hmem
    cases hmem

/-- The first of the threads which wait gets the token. -/
theorem signal_first (h : Plain x s) {ys : List Nat} (hys : s.queues (.waiters x) = y :: ys)
    (fuel : Nat) :
    ∃ s', queueWakeupWith (signalNested (fuel + 1)) (.waiters x) false (.value 0) s = .ok ((), s') ∧
      s'.objects x = s.objects x ∧ returns x s' = returns x s + 1 := by
  obtain ⟨hhome, t, ht, hblocked⟩ := h.members y (by simp [hys])
  obtain ⟨hb, hprocess⟩ := hblocked nofun
  let d : QueueWakeups.Signal := ⟨y, .waiters x, .value 0, none⟩
  have hne : x ≠ y := (h.ne ht nofun).symm
  have hsignal : signalNested (fuel + 1) y (.value 0) s = .ok ((), QueueWakeups.deliver s d) := by
    rw [signalNested, bind_apply, getObject_eq ht]
    exact QueueWakeups.threadSignal_eq (d := d) hhome ht hprocess hb
  refine ⟨QueueWakeups.deliver s d, ?_, ?_, ?_⟩
  · rw [queueWakeupWith, bind_apply, get_apply]
    simp only [hys, List.length_cons, List.head?_cons]
    rw [wakeupLoop, bind_apply, QueueWakeups.entryNext_eq hhome hys]
    simp only
    rw [bind_apply, hsignal]
    rfl
  · rw [QueueWakeups.deliver, ht]
    exact Function.update_of_ne hne ..
  · have hlog : (QueueWakeups.deliver s d).log = ⟨y, some x, .value 0⟩ :: s.log := by
      rw [QueueWakeups.deliver, ht]
      rfl
    rw [returns, hlog, List.countP_cons_of_pos (by simp)]
    rfl

/-- A signal increases the value or wakes one thread. -/
theorem signal_spec (h : Plain x s) (hv : s.objects x = some (.semaphore v)) (hlt : v < WORD - 1)
    (r : Result) :
    ∃ s' v', objectSignal x r s = .ok ((), s') ∧ Plain x s' ∧ s'.objects x = some (.semaphore v') ∧
      v + 1 = v' + (returns x s' - returns x s) := by
  have hsignal : objectSignal x r s = semaphoreSignal (signalNested (s.fresh + 1)) x v s := by
    rw [objectSignal, signalNested, bind_apply, getObject_eq hv]
  rw [hsignal, semaphoreSignal, bind_apply, get_apply]
  by_cases hempty : s.queues (.waiters x) = []
  · have hmod : (v + 1) % WORD = v + 1 := Nat.mod_eq_of_lt (by omega)
    refine ⟨put s x (some (.semaphore (v + 1))), v + 1, ?_, plain_setValue h hv hempty _,
      Function.update_self .., ?_⟩
    · simp only [hempty, if_true, hmod]
      exact assign_eq semaphoreFunctions hv
    · change v + 1 = v + 1 + (returns x s - returns x s)
      omega
  · obtain ⟨y, ys, hys⟩ := List.exists_cons_of_ne_nil hempty
    obtain rfl : v = 0 := by
      have hzero := h.zero hempty
      rw [hv] at hzero
      exact Object.semaphore.inj (Option.some.inj hzero)
    obtain ⟨s', hwake, hx, hreturns⟩ := signal_first h hys s.fresh
    have hassert : kernelAssert (0 = 0) s = .ok ((), s) := kernelAssert_eq_ok.mpr ⟨rfl, rfl⟩
    refine ⟨s', 0, ?_, ?_, hx.trans hv, ?_⟩
    · simp only [hempty, if_false]
      rw [bind_apply, hassert]
      exact hwake
    · exact (steady_queueWakeupWith (steady_signalNested _) _ _ _ _ _ _ hwake h).1
    · omega

theorem same_llRemove {q : Queue} (h : llRemove y s = .ok (q, s')) :
    s'.objects = s.objects ∧ s'.log = s.log := by
  rw [llRemove] at h
  split at h
  · cases h
  · cases h
    exact ⟨rfl, rfl⟩

/-- A blocked thread which is in no list is put into the queue. -/
theorem plain_join (h : Plain x s) (hv : s.objects x = some (.semaphore 0)) {t : Thread}
    (ht : s.objects y = some (.thread t)) (hb : t.blocked = true) (hprocess : t.process ≠ none)
    (hhome : s.home y = none) {u : Unit} (hm : llAddAfter (.waiters x) y s = .ok (u, s')) :
    Plain x s' ∧ s'.objects = s.objects ∧ s'.log = s.log := by
  have hinsert : llInsert (.waiters x) y (y :: s.queues (.waiters x)) s = .ok (u, s') := hm
  cases hinsert
  have hqueue : Function.update s.queues (.waiters x) (y :: s.queues (.waiters x)) (.waiters x) =
      y :: s.queues (.waiters x) := Function.update_self ..
  have hnot : y ∉ s.queues (.waiters x) := by
    intro hy
    rw [(h.members y hy).1] at hhome
    cases hhome
  refine ⟨⟨h.kind, ?_, h.subEvents, fun w hw => ?_, ?_, fun _ => hv⟩, rfl, rfl⟩
  · exact (Function.update_of_ne (h.ne ht nofun).symm ..).trans h.home
  · by_cases hwy : w = y
    · subst hwy
      exact ⟨Function.update_self .., t, ht, fun _ => ⟨hb, hprocess⟩⟩
    · have hmem : w ∈ y :: s.queues (.waiters x) := hqueue ▸ hw
      obtain ⟨hhome', hthread⟩ := h.members w ((List.mem_cons.mp hmem).resolve_left hwy)
      exact ⟨(Function.update_of_ne hwy ..).trans hhome', hthread⟩
  · change (Function.update s.queues (.waiters x) (y :: s.queues (.waiters x)) (.waiters x)).Nodup
    rw [hqueue]
    exact List.nodup_cons.mpr ⟨hnot, h.nodup⟩

theorem running_thread {t p : Nat} (h : running s t = some p) :
    ∃ thread, s.objects t = some (.thread thread) ∧ thread.process = some p := by
  rw [running] at h
  split at h
  · split_ifs at h
    exact ⟨_, by assumption, h⟩
  · cases h

/-- A wait takes a token or puts the thread into the queue. -/
theorem wait_spec (h : Plain x s) (hv : s.objects x = some (.semaphore v)) {t p mode : Nat}
    {u : Unit}
    (hrunning : running s t = some p) (hm : threadWait t x mode s = .ok (u, s')) :
    Plain x s' ∧ ∃ v', s'.objects x = some (.semaphore v') ∧
      v = v' + (returns x s' - returns x s) := by
  obtain ⟨thread, ht, hprocess⟩ := running_thread hrunning
  have hne : t ≠ x := h.ne ht nofun
  obtain ⟨w, s₁, hw, hrest⟩ := bind_ok.mp hm
  rw [objectWait, waitNested, bind_apply, getObject_eq hv] at hw
  by_cases hzero : v = 0
  · simp only [hzero, if_true] at hw
    cases hw
    obtain ⟨thread', s₂, hget, hassert⟩ := bind_ok.mp hrest
    obtain ⟨-, rfl⟩ := objectContainer_eq_ok.mp hget
    obtain ⟨_, s₃, hassert, hblock⟩ := bind_ok.mp hassert
    obtain ⟨-, rfl⟩ := kernelAssert_eq_ok.mp hassert
    obtain ⟨_, s₄, hassign, hmove⟩ := bind_ok.mp hblock
    obtain ⟨q, s₅, hremove, hadd⟩ := bind_ok.mp hmove
    have hremoved : Moves x none none _ s₅ :=
      (moves_assignThread hassign).trans (moves_llRemove (Or.inr rfl) hremove)
    obtain ⟨hobjects, hlog⟩ := same_llRemove hremove
    obtain ⟨t₁, ht₁, rfl⟩ := assign_eq_ok.mp hassign
    obtain ⟨⟩ := ht.symm.trans ht₁
    have hx : s₅.objects x = some (.semaphore 0) := by
      rw [hobjects]
      exact (Function.update_of_ne hne.symm ..).trans (hzero ▸ hv)
    have ht₅ : s₅.objects t = some (.thread { thread with blocked := true, eax := .value 0 }) := by
      rw [hobjects]
      exact Function.update_self ..
    obtain ⟨hplain, hobjects', hlog'⟩ := plain_join (hremoved h).1 hx ht₅ rfl (by simp [hprocess])
      (home_llRemove hremove) hadd
    have hsame : returns x s' = returns x s₃ := by
      rw [returns, returns, hlog', hlog]
      rfl
    refine ⟨hplain, 0, hobjects' ▸ hx, ?_⟩
    omega
  · simp only [hzero, if_false] at hw
    obtain ⟨_, s₂, hassign, hw⟩ := bind_ok.mp hw
    cases hw
    obtain ⟨v₁, hv₁, rfl⟩ := assign_eq_ok.mp hassign
    have hempty : s.queues (.waiters x) = [] := by
      by_contra hne
      have hsemaphore := h.zero hne
      rw [hv] at hsemaphore
      exact hzero (Object.semaphore.inj (Option.some.inj hsemaphore))
    obtain ⟨_, s₃, hassign, hlog⟩ := bind_ok.mp hrest
    obtain ⟨t₁, ht₁, rfl⟩ := assign_eq_ok.mp hassign
    have hput : Plain x (put (put s x (some (.semaphore (v - 1)))) t
        (some (.thread { t₁ with eax := .value (v - 1) }))) := by
      refine (almost_putThread (plain_setValue h hv hempty (v - 1)) ht₁ ?_).1
      exact fun _ _ hb => hb
    refine ⟨(steady_logReturn _ _ _ _ hlog hput).1, v - 1, ?_⟩
    cases hlog
    constructor
    · exact (Function.update_of_ne hne.symm ..).trans (Function.update_self ..)
    · have hreturns : ∀ l : List Return, (⟨t, some x, .value (v - 1)⟩ :: l).countP
        (·.object = some x) =
          l.countP (·.object = some x) + 1 := fun l => List.countP_cons_of_pos (by simp)
      change v = v - 1 + (List.countP _ (_ :: s.log) - List.countP _ s.log)
      rw [hreturns]
      omega

theorem Stays.balance (hstays : Stays x none s s') (h : Plain x s) : Plain x s' ∧
    ∀ v', s'.objects x = some (.semaphore v') → ∃ v, s.objects x = some (.semaphore v) ∧
      v + 0 = v' + 0 := by
  obtain ⟨h', hkept⟩ := hstays h
  exact ⟨h', fun v' hv' => ⟨v', hkept.value v' hv', rfl⟩⟩

theorem wait_balance (h : Plain x s) {t mode : Nat} {u : Unit}
    (hm : operate (.wait t y mode) s = .ok (u, s')) : Plain x s' ∧
      ∀ v', s'.objects x = some (.semaphore v') →
        ∃ v, s.objects x = some (.semaphore v) ∧ v + 0 = v' + tokens x s s' (.wait t y mode) := by
  obtain ⟨_, _, ⟨⟩, hm⟩ := bind_ok.mp hm
  cases hrunning : running s t with
  | none =>
      simp only [hrunning] at hm
      cases hm
      refine ⟨h, fun v' hv' => ⟨v', hv', ?_⟩⟩
      rw [tokens, Nat.sub_self, ite_self]
  | some p =>
      simp only [hrunning] at hm
      by_cases hyx : y = x
      · subst hyx
        obtain ⟨w, s₁, hw, -⟩ := bind_ok.mp hm
        obtain ⟨o, s₂, hget, -⟩ := bind_ok.mp hw
        have ho := (getObject_eq_ok.mp hget).1
        obtain ⟨v, rfl⟩ := h.kind o ho
        obtain ⟨h', v₁, hv₁, hsum⟩ := wait_spec h ho hrunning hm
        refine ⟨h', fun v' hv' => ⟨v, ho, ?_⟩⟩
        obtain ⟨⟩ := hv₁.symm.trans hv'
        rw [tokens, if_pos rfl]
        exact hsum
      · rw [tokens, if_neg hyx]
        exact Stays.balance (steady_threadWait t mode hyx _ _ _ hm) h

theorem signal_balance (h : Plain x s)
    (hbelow : ∀ v, s.objects x = some (.semaphore v) → v < WORD - 1)
    {u : Unit} (hm : objectSignal y r s = .ok (u, s')) : Plain x s' ∧
      ∀ v', s'.objects x = some (.semaphore v') → ∃ v, s.objects x = some (.semaphore v) ∧
        v + signals x [.signal y r] = v' + tokens x s s' (.signal y r) := by
  by_cases hyx : y = x
  · subst hyx
    obtain ⟨o, s₁, hget, -⟩ := bind_ok.mp hm
    have ho := (getObject_eq_ok.mp hget).1
    obtain ⟨v, rfl⟩ := h.kind o ho
    obtain ⟨s₂, v₁, hsignal, h', hv₁, hsum⟩ := signal_spec h ho (hbelow v ho) r
    obtain ⟨⟩ := hsignal.symm.trans hm
    refine ⟨h', fun v' hv' => ⟨v, ho, ?_⟩⟩
    obtain ⟨⟩ := hv₁.symm.trans hv'
    rw [tokens, if_pos rfl, signals, List.countP_singleton, if_pos (by simp)]
    exact hsum
  · rw [tokens, if_neg hyx, signals, List.countP_singleton, if_neg (by simpa using hyx)]
    exact Stays.balance (steady_objectSignal r hyx _ _ _ hm) h

/-- Every operation keeps the balance, whatever it is done to. -/
theorem step_spec {o : Operation} {n : Nat} (h : Plain x s) (hbelow : Below x s o)
    (hstep : step x s o = .ok (s', n)) : Plain x s' ∧ ∀ v', s'.objects x = some (.semaphore v') →
      ∃ v, s.objects x = some (.semaphore v) ∧ v + signals x [o] = v' + n := by
  obtain ⟨⟨u, s₁⟩, hoperate, hpure⟩ := Runs.bind_eq_ok.mp hstep
  cases hpure
  cases o with
  | wait t y mode => exact wait_balance h hoperate
  | signal y r => exact signal_balance h hbelow hoperate
  | shutdown y mode => exact Stays.balance (steady_objectShutdown y mode _ _ _ hoperate) h

theorem signals_cons (o : Operation) (os : List Operation) :
    signals x (o :: os) = signals x [o] + signals x os := by
  rw [signals, signals, signals, ← List.countP_append]
  rfl

theorem run_spec {os : List Operation} {ns : List Nat} (h : Plain x s)
    (hbelow : Runs.Along (step x) (Below x) s os) (hrun : Runs.run (step x) s os = .ok (s', ns)) :
    Plain x s' ∧ ∀ v', s'.objects x = some (.semaphore v') →
      ∃ v, s.objects x = some (.semaphore v) ∧ v + signals x os = v' + ns.sum := by
  induction os generalizing s ns with
  | nil =>
      cases hrun
      exact ⟨h, fun v' hv' => ⟨v', hv', rfl⟩⟩
  | cons o os ih =>
      obtain ⟨s₁, n, ms, hstep, hrest, hns⟩ := Runs.run_cons_eq_ok hrun
      obtain rfl : ns = n :: ms := hns
      obtain ⟨h₁, hbalance⟩ := step_spec h hbelow.1 hstep
      obtain ⟨h', hbalances⟩ := ih h₁ (hbelow.tail hstep) hrest
      refine ⟨h', fun v' hv' => ?_⟩
      obtain ⟨v₁, hv₁, hsum⟩ := hbalances v' hv'
      obtain ⟨v, hv, hone⟩ := hbalance v₁ hv₁
      refine ⟨v, hv, ?_⟩
      rw [signals_cons, List.sum_cons]
      omega

/-- The value is too small for the signals of the run to make it wrap around. -/
theorem along_of_signals {os : List Operation} (h : Plain x s)
    (hsmall : ∀ v, s.objects x = some (.semaphore v) → v + signals x os < WORD - 1) :
    Runs.Along (step x) (Below x) s os := by
  induction os generalizing s with
  | nil => exact trivial
  | cons o os ih =>
      have hbelow : Below x s o := by
        intro v hv
        have hlt := hsmall v hv
        omega
      refine ⟨hbelow, ?_⟩
      split
      · next s₁ n hstep =>
        obtain ⟨h₁, hbalance⟩ := step_spec h hbelow hstep
        refine ih h₁ fun v₁ hv₁ => ?_
        obtain ⟨v, hv, hsum⟩ := hbalance v₁ hv₁
        have hlt := hsmall v hv
        rw [signals_cons] at hlt
        omega
      · exact trivial

/-- The tokens of a semaphore are kept, whatever is done to it and to the threads which
wait for it. Its queue is empty unless the value is zero, so a signal does not fail. -/
theorem semaphore_conserves {s₀ : Store} {os : List Operation} {ns : List Nat} {v₀ : Nat}
    (h : Plain x s₀)
    (hv₀ : s₀.objects x = some (.semaphore v₀)) (hbelow : Runs.Along (step x) (Below x) s₀ os)
    (hrun : Runs.run (step x) s₀ os = .ok (s, ns)) (hv : s.objects x = some (.semaphore v)) :
    (s.queues (.waiters x) ≠ [] → v = 0) ∧ v₀ + signals x os = v + ns.sum ∧
      (v < WORD - 1 → ∀ r, ∃ s', objectSignal x r s = .ok ((), s')) := by
  obtain ⟨h', hbalance⟩ := run_spec h hbelow hrun
  obtain ⟨v₁, hv₁, hsum⟩ := hbalance v hv
  obtain ⟨⟩ := hv₀.symm.trans hv₁
  refine ⟨fun hne => ?_, hsum, fun hlt r => ?_⟩
  · have hzero := h'.zero hne
    rw [hv] at hzero
    exact Object.semaphore.inj (Option.some.inj hzero)
  · obtain ⟨s', _, hsignal, -⟩ := signal_spec h' hv hlt r
    exact ⟨s', hsignal⟩

/-- A semaphore for which nobody waits. -/
theorem plain_of_empty (htidy : CreationFailures.Tidy s) (hv : s.objects x = some (.semaphore v))
    (hhome : s.home x = none) (hempty : s.queues (.waiters x) = [])
    (hwait : ∀ y < s.fresh, ∀ z ∈ (s.objects y).bind subEventFunctions.part, z.wait ≠ x) :
      Plain x s where
  kind o ho := ⟨v, (Option.some.inj (hv.symm.trans ho)).symm⟩
  home := hhome
  subEvents y z hz := by
    apply hwait y (htidy.lt hz) z
    rw [hz]
    rfl
  members y hy := by
    rw [hempty] at hy
    cases hy
  nodup := by
    rw [hempty]
    exact List.nodup_nil
  zero hne := absurd hempty hne

def semaphoreStore : Store := runStore firstStore [.call 3 (.createSemaphore 1)]

theorem reaches_semaphoreStore : Reaches firstStore [.call 3 (.createSemaphore 1)] semaphoreStore :=
  reaches_runStore (by decide +kernel)

theorem semaphoreStore_value : semaphoreStore.objects 4 = some (.semaphore 1) := by
  have hvalue : (semaphoreStore.objects 4).bind semaphoreFunctions.part =
    some 1 := by decide +kernel
  obtain ⟨o, ho, hpart⟩ := Option.bind_eq_some_iff.mp hvalue
  rw [ho, semaphoreFunctions.part_eq.mp hpart]
  rfl

theorem plain_semaphoreStore : Plain 4 semaphoreStore :=
  plain_of_empty (CreationFailures.settled_of_reaches booted_firstStore reaches_semaphoreStore).tidy
    semaphoreStore_value (by decide +kernel) (by decide +kernel) (by decide +kernel)

/-- One wait returns at once, and a signal ends the other one. -/
theorem semaphore_conserves_first : ∃ s,
    Runs.run (step 4) semaphoreStore [.wait 3 4 0, .wait 3 4 0, .signal 4 (.value 9)] =
        .ok (s, [1, 0, 1]) ∧
      ∀ v, s.objects 4 = some (.semaphore v) →
        (s.queues (.waiters 4) ≠ [] → v = 0) ∧
          1 + signals 4 [.wait 3 4 0, .wait 3 4 0, .signal 4 (.value 9)] = v + [1, 0, 1].sum ∧
            (v < WORD - 1 → ∀ r, ∃ s', objectSignal 4 r s = .ok ((), s')) := by
  have hsnd : (Runs.run (step 4) semaphoreStore
      [.wait 3 4 0, .wait 3 4 0, .signal 4 (.value 9)]).toOption.map Prod.snd = some [1, 0, 1] := by
    decide +kernel
  obtain ⟨⟨s, ns⟩, hrun, rfl⟩ := Option.map_eq_some_iff.mp hsnd
  have hrun := Runs.toOption_eq_some hrun
  refine ⟨s, hrun, fun v hv => ?_⟩
  refine semaphore_conserves plain_semaphoreStore semaphoreStore_value ?_ hrun hv
  apply along_of_signals plain_semaphoreStore
  intro v hv
  obtain ⟨⟩ := semaphoreStore_value.symm.trans hv
  decide

end

end Ibnos.SemaphoreTokens
