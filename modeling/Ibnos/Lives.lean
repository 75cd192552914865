import Ibnos.ObjectStores
import Ibnos.Syscalls

/-!
What decides about the end of threads and processes. Only the functions which shut
down or create threads have an effect on it; waits and signals, and the release of
objects, have none.
-/

namespace Ibnos.Lives

open Ibnos.AddressSpaces
open Ibnos.Lifetimes
open Ibnos.ObjectStores
open Ibnos.Objects
open Ibnos.Pipes
open Ibnos.Programs
open Ibnos.Runs
open Ibnos.Syscalls

/-- What decides about the end of an object. -/
inductive Life
  | thread (process : Option Nat) (exitcode : Nat)
  | process (threads : List Nat) (exitcode : Nat)
  | other

def lifeOf : Object → Life
  | .thread t => .thread t.process t.exitcode
  | .process p => .process p.threads p.exitcode
  | _ => .other

def life (s : Store) (x : Nat) : Option Life := (s.objects x).map lifeOf

/-- A thread or process which has ended with an exit code. -/
def Life.endedWith : Life → Option Nat
  | .thread none exitcode => some exitcode
  | .process [] exitcode => some exitcode
  | _ => none

def exitcodeOf (s : Store) (x : Nat) : Option Nat := (life s x).bind Life.endedWith

def Old (s : Store) : Prop := ∀ x, life s x ≠ none → x < s.fresh

/-- Whatever is over or has never lived. -/
def Removable (x : Nat) (s : Store) : Prop :=
  ∀ l, life s x = some l → l = .other ∨ l.endedWith ≠ none

/-- Something about threads and processes which waits and signals have no effect on.
It may depend on the pages which the ends of threads have unmapped. -/
structure Aspect where
  V : Type
  of : Object → V
  unmaps : Bool
  thread : ∀ t b r, of (.thread { t with blocked := b, eax := r }) = of (.thread t)
  process : ∀ p handles, of (.process { p with handles := handles }) = of (.process p)
  other : ∀ o o', lifeOf o = .other → lifeOf o' = .other → of o = of o'

/-- Nothing is looked at. -/
def anything : Aspect where
  V := Unit
  of := fun _ => ()
  unmaps := false
  thread := fun _ _ _ => rfl
  process := fun _ _ => rfl
  other := fun _ _ _ _ => rfl

/-- No object becomes another one, what is new has not begun to live, and what goes
away does not live. The aspect is the same for all the others. -/
structure Mild (A : Aspect) (s s' : Store) : Prop where
  fresh : s.fresh ≤ s'.fresh
  old : Old s'
  life : ∀ x, life s' x = life s x ∨ life s' x = none ∧ Removable x s ∨
    s.fresh ≤ x ∧ (life s' x = some .other ∨ life s' x = some (.process [] MINUS_ONE))
  aspect : ∀ x, Removable x s ∨ (s'.objects x).map A.of = (s.objects x).map A.of
  unmaps : A.unmaps = true → s'.unmaps = s.unmaps

/-- The object is a thread or process, unless it is gone. -/
def Typed (y : Nat) (s : Store) : Prop := y < s.fresh ∧ life s y ≠ some .other

/-- Every wait for `y` which returns does so with the exit code. -/
def Said (y exitcode : Nat) (s s' : Store) : Prop :=
  ∃ new, s'.log = new ++ s.log ∧ ∀ r ∈ new, r.object = some y → r.result = .value exitcode

def Calm (A : Aspect) (y exitcode : Nat) (s s' : Store) : Prop :=
  Old s → Mild A s s' ∧ (Typed y s → Said y exitcode s s')

section

variable {A : Aspect} {s s' s'' : Store} {x y c : Nat} {α β : Type}

theorem Mild.refl (h : Old s) : Mild A s s :=
  ⟨Nat.le_refl _, h, fun _ => Or.inl rfl, fun _ => Or.inr rfl, fun _ => rfl⟩

theorem Old.eq_none (h : Old s) (hx : s.fresh ≤ x) : life s x = none := by
  by_contra hne
  exact Nat.not_lt.mpr hx (h x hne)

/-- What does not live after a mild change did not live before it. -/
theorem Mild.removable_of (hold : Old s) (h : Mild A s s') (hx : Removable x s') :
    Removable x s := by
  intro l hl
  rcases h.life x with hlife | ⟨-, hremovable⟩ | ⟨hfresh, -⟩
  · exact hx l (hlife.trans hl)
  · exact hremovable l hl
  · cases (hold.eq_none hfresh).symm.trans hl

theorem Mild.trans (hold : Old s) (h : Mild A s s') (h' : Mild A s' s'') : Mild A s s'' := by
  refine ⟨h.fresh.trans h'.fresh, h'.old, fun x => ?_, fun x => ?_, fun hA => ?_⟩
  · rcases h'.life x with hx' | ⟨hx', hremovable⟩ | ⟨hfresh, hx'⟩
    · rw [hx']
      exact h.life x
    · exact Or.inr (Or.inl ⟨hx', h.removable_of hold hremovable⟩)
    · exact Or.inr (Or.inr ⟨h.fresh.trans hfresh, hx'⟩)
  · rcases h.aspect x with hx | hx
    · exact Or.inl hx
    · rcases h'.aspect x with hx' | hx'
      · exact Or.inl (h.removable_of hold hx')
      · exact Or.inr (hx'.trans hx)
  · exact (h'.unmaps hA).trans (h.unmaps hA)

theorem Mild.typed (h : Mild A s s') (hy : Typed y s) : Typed y s' := by
  refine ⟨hy.1.trans_le h.fresh, ?_⟩
  rcases h.life y with hy' | ⟨hy', -⟩ | ⟨hfresh, -⟩
  · rw [hy']
    exact hy.2
  · rw [hy']
    exact nofun
  · exact (Nat.not_lt.mpr hfresh hy.1).elim

theorem Mild.removable (h : Mild A s s') (hx : Removable x s) : Removable x s' := by
  rcases h.life x with hx' | ⟨hx', -⟩ | ⟨-, hx'⟩
  · exact fun l hl => hx l (hx'.symm.trans hl)
  · exact fun l hl => nomatch hx'.symm.trans hl
  · intro l hl
    rcases hx' with hx' | hx'
    · exact Or.inl (Option.some.inj (hl.symm.trans hx'))
    · cases hl.symm.trans hx'
      exact Or.inr nofun

theorem Said.refl (y c : Nat) (s : Store) : Said y c s s := ⟨[], rfl, nofun⟩

theorem Said.trans (h : Said y c s s') (h' : Said y c s' s'') :
    Said y c s s'' := by
  obtain ⟨new, hnew, hsaid⟩ := h
  obtain ⟨new', hnew', hsaid'⟩ := h'
  refine ⟨new' ++ new, ?_, fun r hr => ?_⟩
  · rw [hnew', hnew, List.append_assoc]
  · rcases List.mem_append.mp hr with hr | hr
    · exact hsaid' r hr
    · exact hsaid r hr

theorem Calm.refl (y c : Nat) (s : Store) : Calm A y c s s :=
  fun hold => ⟨.refl hold, fun _ => .refl y c s⟩

theorem Calm.trans (h : Calm A y c s s') (h' : Calm A y c s' s'') :
    Calm A y c s s'' := by
  intro hold
  obtain ⟨hmild, hsaid⟩ := h hold
  obtain ⟨hmild', hsaid'⟩ := h' hmild.old
  exact ⟨hmild.trans hold hmild', fun hy => (hsaid hy).trans (hsaid' (hmild.typed hy))⟩

/-- Whatever the program does is calm. -/
def Calms (A : Aspect) (y c : Nat) (m : Kernel α) : Prop := Keeps (Calm A y c) m

theorem calms_pure (a : α) : Calms A y c (pure a) := keeps_pure (Calm.refl y c) a

theorem calms_throw (e : Objects.Fault) : Calms A y c (throw e : Kernel α) := keeps_throw e

theorem calms_get : Calms A y c (get : Kernel Store) := keeps_get (Calm.refl y c)

theorem Calms.bind {m : Kernel α} {f : α → Kernel β} (hm : Calms A y c m)
    (hf : ∀ a, Calms A y c (f a)) : Calms A y c (m >>= f) :=
  Keeps.bind (fun _ _ _ => Calm.trans) hm hf

theorem calms_ite {b : Prop} {_ : Decidable b} {m m' : Kernel α} (ht : Calms A y c m)
    (hf : Calms A y c m') : Calms A y c (if b then m else m') := keeps_ite ht hf

/-- The store after a change which no wait returns from. -/
theorem calm_of_life (hfresh : s'.fresh = s.fresh) (hlog : s'.log = s.log)
    (hunmaps : A.unmaps = true → s'.unmaps = s.unmaps)
    (hlife : ∀ x, life s' x = life s x ∨ life s' x = none ∧ Removable x s)
    (haspect : ∀ x, Removable x s ∨ (s'.objects x).map A.of = (s.objects x).map A.of) :
    Calm A y c s s' := by
  intro hold
  refine ⟨⟨hfresh.ge, fun x hx => ?_, fun x => ?_, haspect, hunmaps⟩,
    fun _ => ⟨[], hlog, nofun⟩⟩
  · rw [hfresh]
    refine hold x fun hnone => hx ?_
    rcases hlife x with hx' | ⟨hx', -⟩
    · exact hx'.trans hnone
    · exact hx'
  · rcases hlife x with hx | hx
    · exact Or.inl hx
    · exact Or.inr (Or.inl hx)

theorem calm_of_objects (hobjects : s'.objects = s.objects) (hfresh : s'.fresh = s.fresh)
    (hlog : s'.log = s.log) (hunmaps : A.unmaps = true → s'.unmaps = s.unmaps) :
      Calm A y c s s' := by
  refine calm_of_life hfresh hlog hunmaps (fun x => Or.inl ?_) fun x => Or.inr ?_
  · rw [life, life, hobjects]
  · rw [hobjects]

theorem life_update (s : Store) (x : Nat) (v : Option Object) (z : Nat) :
    (Function.update s.objects x v z).map lifeOf =
      if z = x then v.map lifeOf else life s z := by
  rw [Function.update_apply]
  split_ifs <;> rfl

theorem calm_setObject {o o' : Object} (ho : s.objects x = some o) (hlife : lifeOf o' = lifeOf o)
    (haspect : Removable x s ∨ A.of o' = A.of o) : Calm A y c s (put s x (some o')) := by
  refine calm_of_life rfl rfl (fun _ => rfl) (fun z => Or.inl ?_) fun z => ?_
  · change (Function.update s.objects x (some o') z).map lifeOf = _
    rw [life_update]
    split_ifs with hz
    · rw [hz, life, ho]
      exact congrArg some hlife
    · rfl
  · rcases eq_or_ne z x with rfl | hz
    · refine haspect.imp_right fun haspect => ?_
      rw [objects_put, Function.update_self, ho]
      exact congrArg some haspect
    · rw [objects_put, Function.update_of_ne hz]
      exact Or.inr rfl

theorem calms_getObject : Calms A y c (getObject x) := by
  intro s o s' h
  obtain ⟨-, rfl⟩ := getObject_eq_ok.mp h
  exact .refl _ _ _

theorem calms_objectContainer {functions : Functions α} :
    Calms A y c (objectContainer functions x) := by
  intro s a s' h
  obtain ⟨-, rfl⟩ := objectContainer_eq_ok.mp h
  exact .refl _ _ _

/-- Fields are assigned which have nothing to do with the end of the object. -/
theorem calms_assign {functions : Functions α} {f : α → α}
    (hf : ∀ a, lifeOf (functions.whole (f a)) = lifeOf (functions.whole a))
    (hA : ∀ a, A.of (functions.whole (f a)) = A.of (functions.whole a)) :
    Calms A y c (assign functions x f) := by
  intro s u s' h
  obtain ⟨a, ha, rfl⟩ := assign_eq_ok.mp h
  exact calm_setObject ha (hf a) (Or.inr (hA a))

theorem calms_assignThread (b : Thread → Bool) (r : Thread → Result) :
    Calms A y c (assign threadFunctions x fun t => { t with blocked := b t, eax := r t }) :=
  calms_assign (fun _ => rfl) fun t => A.thread t (b t) (r t)

theorem calms_assignHandles (handles : Option (List Nat)) :
    Calms A y c (assign processFunctions x fun p => { p with handles := handles }) :=
  calms_assign (fun _ => rfl) fun p => A.process p handles

theorem calms_kernelAssert {b : Prop} {_ : Decidable b} : Calms A y c (kernelAssert b) :=
  calms_ite (calms_pure ()) (calms_throw _)

theorem calms_request : Calms A y c request := by
  rintro s b s' ⟨⟩
  exact calm_of_objects rfl rfl rfl fun _ => rfl

theorem calms_llRemove : Calms A y c (llRemove x) := by
  intro s q s' h
  rw [llRemove] at h
  split at h
  · cases h
  · cases h
    exact calm_of_objects rfl rfl rfl fun _ => rfl

theorem calms_llInsert (q : Queue) (xs : List Nat) : Calms A y c (llInsert q x xs) := by
  rintro s _ s' ⟨⟩
  exact calm_of_objects rfl rfl rfl fun _ => rfl

theorem calms_llAddAfter (q : Queue) : Calms A y c (llAddAfter q x) :=
  calms_get.bind fun _ => calms_llInsert q _

theorem calms_llAddTail (q : Queue) : Calms A y c (llAddTail q x) :=
  calms_get.bind fun _ => calms_llInsert q _

/-- What the program does is calm, if the object `x` does not live. -/
def Frees (A : Aspect) (y c x : Nat) (m : Kernel α) : Prop :=
  Keeps (fun s s' => Removable x s → Calm A y c s s') m

theorem Calms.frees {m : Kernel α} (hm : Calms A y c m) : Frees A y c x m :=
  fun s a s' h _ => hm s a s' h

theorem Frees.bind {m : Kernel α} {f : α → Kernel β} (hm : Frees A y c x m)
    (hf : ∀ a, Frees A y c x (f a)) : Frees A y c x (m >>= f) := by
  refine Keeps.bind (fun s s' s'' h h' hx hold => ?_) hm hf
  exact (h hx).trans (h' ((h hx hold).1.removable hx)) hold

theorem frees_heapFree : Frees A y c x (heapFree x) := by
  rintro s _ s' ⟨⟩ hx
  refine calm_of_life rfl rfl (fun _ => rfl) (fun z => ?_) fun z => ?_
  · rcases eq_or_ne z x with rfl | hz
    · refine Or.inr ⟨?_, hx⟩
      change (Function.update s.objects z none z).map lifeOf = _
      rw [Function.update_self]
      rfl
    · refine Or.inl ?_
      change (Function.update s.objects x none z).map lifeOf = _
      rw [life_update, if_neg hz]
  · rcases eq_or_ne z x with rfl | hz
    · exact Or.inl hx
    · refine Or.inr ?_
      change (Function.update s.objects x none z).map A.of = _
      rw [Function.update_of_ne hz]

theorem calms_objectInit {o : Object}
    (ho : lifeOf o = .other ∨ lifeOf o = .process [] MINUS_ONE) : Calms A y c (objectInit o) := by
  rintro s _ s' ⟨⟩ hold
  have hlife : ∀ z, (Function.update s.objects s.fresh (some o) z).map lifeOf =
      if z = s.fresh then some (lifeOf o) else life s z := life_update s s.fresh (some o)
  refine ⟨⟨Nat.le_succ _, fun z hz => ?_, fun z => ?_, fun z => ?_, fun _ => rfl⟩,
    fun _ => ⟨[], rfl, nofun⟩⟩
  · change (Function.update s.objects s.fresh (some o) z).map lifeOf ≠ none at hz
    rw [hlife] at hz
    split_ifs at hz with hzf
    · rw [hzf]
      exact Nat.lt_succ_self _
    · exact (hold z hz).trans (Nat.lt_succ_self _)
  · change (Function.update s.objects s.fresh (some o) z).map lifeOf = _ ∨
      (Function.update s.objects s.fresh (some o) z).map lifeOf = _ ∧ _ ∨
      _ ∧ ((Function.update s.objects s.fresh (some o) z).map lifeOf = _ ∨
        (Function.update s.objects s.fresh (some o) z).map lifeOf = _)
    rw [hlife]
    rcases eq_or_ne z s.fresh with rfl | hz
    · rw [if_pos rfl]
      exact Or.inr (Or.inr ⟨Nat.le_refl _, ho.imp (congrArg some) (congrArg some)⟩)
    · rw [if_neg hz]
      exact Or.inl rfl
  · rcases eq_or_ne z s.fresh with rfl | hz
    · exact Or.inl fun l hl => nomatch (hold.eq_none (Nat.le_refl _)).symm.trans hl
    · refine Or.inr ?_
      change (Function.update s.objects s.fresh (some o) z).map A.of = _
      rw [Function.update_of_ne hz]

theorem calms_modifyRefcount (f : Store → Nat → Nat) :
    Calms A y c (modify fun s => { s with refcount := f s }) := by
  rintro s _ s' ⟨⟩
  exact calm_of_objects rfl rfl rfl fun _ => rfl

theorem calms_objectAddRef : Calms A y c (objectAddRef x) :=
  calms_getObject.bind fun _ => calms_modifyRefcount _

theorem calms_assignOther {functions : Functions α} {f : α → α}
    (hf : ∀ a, lifeOf (functions.whole a) = .other) : Calms A y c (assign functions x f) :=
  calms_assign (fun a => (hf (f a)).trans (hf a).symm) fun a => A.other _ _ (hf (f a)) (hf a)

/-- A thread is signalled by those for whose sake it waits. -/
theorem threadSignal_calm {r : Result} {u : Unit}
    (hr : ∀ q, s.home x = some q → q.owner = some y → r = .value c)
    (h : threadSignal x r s = .ok (u, s')) : Calm A y c s s' := by
  obtain ⟨t, s₁, ht, hm⟩ := bind_ok.mp h
  obtain ⟨-, rfl⟩ := objectContainer_eq_ok.mp ht
  split at hm
  · cases hm
    exact .refl _ _ _
  · obtain ⟨_, s₂, hassign, hm⟩ := bind_ok.mp hm
    obtain ⟨q, s₃, hremove, hm⟩ := bind_ok.mp hm
    obtain ⟨_, s₄, hadd, hm⟩ := bind_ok.mp hm
    obtain ⟨-, rfl⟩ := Prod.mk.inj (Except.ok.inj hm)
    have hcalms : Calms A y c (assign threadFunctions x fun t =>
      { t with blocked := false, eax := r }) := calms_assignThread _ _
    have hcalm : Calm A y c s₁ s₄ :=
      ((hcalms _ _ _ hassign).trans (calms_llRemove _ _ _ hremove)).trans
        (calms_llAddTail _ _ _ _ hadd)
    have hq : s₁.home x = some q := by
      obtain ⟨t', -, rfl⟩ := assign_eq_ok.mp hassign
      rw [llRemove] at hremove
      split at hremove
      · cases hremove
      · cases hremove
        assumption
    refine hcalm.trans fun hold => ⟨⟨Nat.le_refl _, hold, fun _ => Or.inl rfl, fun _ => Or.inr rfl,
      fun _ => rfl⟩, fun _ => ?_⟩
    refine ⟨[⟨x, q.owner, r⟩], rfl, ?_⟩
    intro e he howner
    obtain rfl := List.mem_singleton.mp he
    exact hr q hq howner

/-- A signal to an object, where waits for `y` return with the exit code if the
object is in the queue of `y`. -/
def CalmSignal (A : Aspect) (signal : Nat → Result → Kernel Unit) : Prop :=
  ∀ y c x r s u s', (∀ q, s.home x = some q → q.owner = some y → r = .value c) →
    signal x r s = .ok (u, s') → Calm A y c s s'

theorem wakeupLoop_calms {signal : Nat → Result → Kernel Unit} (hsignal : CalmSignal A signal)
    {q : Queue} {r : Result} (hr : q.owner = some y → r = .value c) (all : Bool) (fuel : Nat)
    (next : Option Nat) : Calms A y c (wakeupLoop signal q all r fuel next) := by
  induction fuel generalizing next with
  | zero =>
      rcases next with _ | x
      · exact calms_pure ()
      · exact calms_throw _
  | succ fuel ih =>
      rcases next with _ | x
      · exact calms_pure ()
      · intro s u s' h
        rw [wakeupLoop] at h
        obtain ⟨next', s₁, hnext, hm⟩ := bind_ok.mp h
        have hs₁ : s₁ = s ∧ s.home x = some q := by
          rw [entryNext, bind_apply, get_apply] at hnext
          change (if s.home x = some q then _ else _ : Kernel _) s = _ at hnext
          split_ifs at hnext with hhome
          · cases hnext
            exact ⟨rfl, hhome⟩
          · cases hnext
        obtain ⟨rfl, hhome⟩ := hs₁
        obtain ⟨_, s₂, hx, hm⟩ := bind_ok.mp hm
        refine Calm.trans (hsignal y c x r _ _ _ (fun q' hq' => ?_) hx) ?_
        · cases hhome.symm.trans hq'
          exact hr
        · exact calms_ite (ih next') (calms_pure ()) _ _ _ hm

theorem queueWakeupWith_calms {signal : Nat → Result → Kernel Unit} (hsignal : CalmSignal A signal)
    {q : Queue} {r : Result} (hr : q.owner = some y → r = .value c) (all : Bool) :
    Calms A y c (queueWakeupWith signal q all r) :=
  calms_get.bind fun _ => wakeupLoop_calms hsignal hr all _ _

theorem removable_of_other (hx : life s x = some .other) : Removable x s :=
  fun _ hl => Or.inl (Option.some.inj (hl.symm.trans hx))

/-- No wait for `y` returns where an object of another type is concerned. -/
theorem calm_of_other {m : Kernel α} {a : α} (hx : life s x = some .other)
    (hm : ∀ z, z ≠ x → ∀ e, Frees A z e x m) (h : m s = .ok (a, s')) : Calm A y c s s' := by
  have hremovable := removable_of_other hx
  rcases eq_or_ne y x with rfl | hyx
  · intro hold
    refine ⟨(hm (y + 1) (Nat.succ_ne_self y) 0 _ _ _ h hremovable hold).1, fun htyped => ?_⟩
    exact (htyped.2 hx).elim
  · exact hm y hyx c _ _ _ h hremovable


theorem life_eq {o : Object} (ho : s.objects x = some o) : life s x = some (lifeOf o) := by
  rw [life, ho]
  rfl

/-- The queue of an object which is neither thread nor process is woken up. -/
theorem queueWakeupWith_other {signal : Nat → Result → Kernel Unit} (hsignal : CalmSignal A signal)
    {q : Queue} (hq : q.owner = some x) (hx : life s x = some .other) {all : Bool} {r : Result}
    {u : Unit} (h : queueWakeupWith signal q all r s = .ok (u, s')) : Calm A y c s s' := by
  refine calm_of_other hx (fun z hz e => Calms.frees ?_) h
  refine queueWakeupWith_calms hsignal (fun hz' => ?_) all
  exact (hz (Option.some.inj (hq.symm.trans hz')).symm).elim

theorem subEventSignal_calm {signal : Nat → Result → Kernel Unit} (hsignal : CalmSignal A signal)
    {r : Result} {u : Unit} (h : subEventSignal signal x r s = .ok (u, s')) :
    Calm A y c s s' := by
  obtain ⟨e, s₁, he, hm⟩ := bind_ok.mp h
  refine Calm.trans (calms_objectContainer _ _ _ he) ?_
  split_ifs at hm
  · cases hm
    exact .refl _ _ _
  · obtain ⟨_, s₂, hassign, hm⟩ := bind_ok.mp hm
    obtain ⟨_, s₃, hremove, hm⟩ := bind_ok.mp hm
    obtain ⟨_, s₄, hassign', hm⟩ := bind_ok.mp hm
    obtain ⟨e', s₅, he', hwake⟩ := bind_ok.mp hm
    obtain ⟨hevent, rfl⟩ := objectContainer_eq_ok.mp he'
    have hfirst := (calms_assignOther (A := A) (y := y) (c := c) fun _ => rfl) _ _ _ hassign
    have hsecond := (calms_assignOther (A := A) (y := y) (c := c) fun _ => rfl) _ _ _ hassign'
    refine ((hfirst.trans (calms_llRemove _ _ _ hremove)).trans hsecond).trans ?_
    exact queueWakeupWith_other hsignal rfl (life_eq hevent) hwake

theorem signalNested_calm (fuel : Nat) : CalmSignal A (signalNested fuel) := by
  induction fuel with
  | zero => exact fun _ _ _ _ _ _ _ _ h => nomatch h
  | succ fuel ih =>
      intro y c x r s u s' hr h
      obtain ⟨o, s₁, ho, hm⟩ := bind_ok.mp h
      obtain ⟨ho, rfl⟩ := getObject_eq_ok.mp ho
      rcases o with t | p | e | e | value | t | p | _
      · exact threadSignal_calm hr hm
      · cases hm
        exact .refl _ _ _
      · obtain ⟨_, s₂, hassign, hm⟩ := bind_ok.mp hm
        obtain ⟨e', s₃, he', hwake⟩ := bind_ok.mp hm
        obtain ⟨hevent, rfl⟩ := objectContainer_eq_ok.mp he'
        refine Calm.trans (calms_assignOther (fun _ => rfl) _ _ _ hassign) ?_
        exact queueWakeupWith_other ih rfl (life_eq hevent) hwake
      · exact subEventSignal_calm ih hm
      · refine calm_of_other (life_eq ho) (fun z hz c' => Calms.frees ?_) hm
        refine calms_get.bind fun _ => calms_ite ?_ (calms_kernelAssert.bind fun _ => ?_)
        · exact calms_assignOther fun _ => rfl
        · refine queueWakeupWith_calms ih (fun hz' => ?_) false
          exact (hz (Option.some.inj hz').symm).elim
      · exact queueWakeupWith_other ih rfl (life_eq ho) hm
      · cases hm
        exact .refl _ _ _
      · cases hm
        exact .refl _ _ _

theorem calms_queueWakeup {q : Queue} {r : Result} (hr : q.owner = some y → r = .value c)
    (all : Bool) : Calms A y c (queueWakeup q all r) := by
  intro s u s' h
  exact queueWakeupWith_calms (signalNested_calm _) hr all s u s' h

theorem objectSignal_mild {r : Result} {u : Unit} (hold : Old s)
    (h : objectSignal x r s = .ok (u, s')) : Mild A s s' := by
  obtain ⟨y, hy⟩ : ∃ y, ∀ q, s.home x = some q → q.owner ≠ some y := by
    refine ⟨((s.home x).bind Queue.owner).getD 0 + 1, fun q hq howner => ?_⟩
    rw [hq, Option.bind_some, howner] at howner
    exact Nat.succ_ne_self _ (Option.some.inj howner).symm
  exact (signalNested_calm (s.fresh + 2) y 0 x r s u s' (fun q hq howner =>
    (hy q hq howner).elim) h hold).1


theorem calms_timerDeactivate : Calms A y c (timerDeactivate x) := by
  refine calms_objectContainer.bind fun t => calms_ite ?_ (calms_pure ())
  exact calms_llRemove.bind fun _ => calms_assignOther fun _ => rfl

theorem calms_timerUpdate : Calms A y c (timerUpdate x) := by
  refine calms_timerDeactivate.bind fun _ => calms_objectContainer.bind fun t => ?_
  refine calms_ite (calms_pure ()) (calms_get.bind fun _ => (calms_llInsert _ _).bind fun _ => ?_)
  exact calms_assignOther fun _ => rfl

theorem calms_forEach {body : Nat → Kernel Unit} (hbody : ∀ x, Calms A y c (body x))
    (xs : List Nat) :
    Calms A y c (forEach body xs) := by
  induction xs with
  | nil => exact calms_pure ()
  | cons x xs ih => exact (hbody x).bind fun _ => ih

theorem calms_assertEmpty (q : Queue) : Calms A y c (assertEmpty q) :=
  calms_get.bind fun _ => calms_kernelAssert

theorem frees_releasePageTable : Frees A y c x (releasePageTable x) := by
  intro s u s' h hx
  obtain ⟨p, hp, rfl⟩ := assign_eq_ok.mp h
  exact calm_setObject hp rfl (Or.inl hx)

theorem calms_handleTableFree {release : Nat → Kernel Unit}
    (hrelease : ∀ x, Calms A y c (release x)) :
    Calms A y c (handleTableFree release x) := by
  refine calms_objectContainer.bind fun p => ?_
  split
  · exact calms_pure ()
  · exact (calms_forEach hrelease _).bind fun _ => calms_assignHandles none

theorem calms_removeSubEvent {release : Nat → Kernel Unit} (hrelease : ∀ x, Calms A y c (release x))
    (z : Nat) : Calms A y c (removeSubEvent release x z) := by
  intro s u s' h
  obtain ⟨e, s₁, he, hm⟩ := bind_ok.mp h
  obtain ⟨he, rfl⟩ := objectContainer_eq_ok.mp he
  refine Frees.bind (m := unlinkSubEvent z e) ?_ (fun _ => ?_) _ _ _ hm
    (removable_of_other (life_eq he))
  · exact (calms_ite (calms_llRemove.bind fun _ => calms_pure ()) (calms_pure ())).frees
  · refine (Calms.frees (calms_assignOther fun _ => rfl)).bind fun _ => ?_
    exact (hrelease _).frees.bind fun _ => frees_heapFree

/-- The waits for an object of another type are aborted. -/
theorem calms_abortWaits {q : Queue} (hq : q.owner = some x) (hyx : y ≠ x) :
    Calms A y c (abortWaits q) :=
  calms_queueWakeup (fun howner => (hyx (Option.some.inj (hq.symm.trans howner)).symm).elim) true

theorem threadDestroy_calm {t : Thread} {u : Unit} (ht : s.objects x = some (.thread t))
    (h : threadDestroy x t s = .ok (u, s')) : Calm A y c s s' := by
  obtain ⟨_, s₁, hempty, hm⟩ := bind_ok.mp h
  obtain ⟨_, s₂, hassert, hm⟩ := bind_ok.mp hm
  rcases hp : t.process with _ | p
  · have hfrees : Frees A y c x (threadDestroy x t) :=
      (calms_assertEmpty _).frees.bind fun _ => calms_kernelAssert.frees.bind fun _ =>
        frees_heapFree
    refine hfrees _ _ _ h fun l hl => ?_
    cases (life_eq ht).symm.trans hl
    rw [lifeOf, hp]
    exact Or.inr nofun
  · rw [hp] at hassert
    cases hassert

theorem processDestroy_calm {release : Nat → Kernel Unit} (hrelease : ∀ x, Calms A y c (release x))
    {p : Process} {u : Unit} (hx : s.objects x = some (.process p))
    (h : processDestroy release x p s = .ok (u, s')) : Calm A y c s s' := by
  obtain ⟨_, s₁, hempty, hm⟩ := bind_ok.mp h
  obtain ⟨_, s₂, hassert, hm⟩ := bind_ok.mp hm
  rcases hp : p.threads with _ | ⟨t, ts⟩
  · have hfrees : Frees A y c x (processDestroy release x p) := by
      refine (calms_assertEmpty _).frees.bind fun _ => calms_kernelAssert.frees.bind fun _ => ?_
      refine frees_releasePageTable.bind fun _ => ?_
      exact (calms_handleTableFree hrelease).frees.bind fun _ => frees_heapFree
    refine hfrees _ _ _ h fun l hl => ?_
    cases (life_eq hx).symm.trans hl
    rw [lifeOf, hp]
    exact Or.inr nofun
  · rw [hp] at hassert
    cases hassert

theorem objectDestroy_calms {release : Nat → Kernel Unit}
    (hrelease : ∀ y c x, Calms A y c (release x)) : Calms A y c (objectDestroy release x) := by
  intro s u s' h
  obtain ⟨o, s₁, ho, hm⟩ := bind_ok.mp h
  obtain ⟨ho, rfl⟩ := getObject_eq_ok.mp ho
  rcases o with t | p | e | e | value | t | p | _
  · exact threadDestroy_calm ho hm
  · exact processDestroy_calm (hrelease y c) ho hm
  · refine calm_of_other (life_eq ho) (fun z hz c' => ?_) hm
    refine (calms_abortWaits rfl hz).frees.bind fun _ => (calms_assertEmpty _).frees.bind fun _ =>
      ?_
    refine calms_objectContainer.frees.bind fun e => ?_
    refine (calms_forEach (calms_removeSubEvent (hrelease z c')) _).frees.bind fun _ => ?_
    exact frees_heapFree
  · cases hm
    exact .refl _ _ _
  · refine calm_of_other (life_eq ho) (fun z hz c' => ?_) hm
    refine (calms_abortWaits rfl hz).frees.bind fun _ => (calms_assertEmpty _).frees.bind fun _ =>
      ?_
    exact frees_heapFree
  · refine calm_of_other (life_eq ho) (fun z hz c' => ?_) hm
    refine calms_timerDeactivate.frees.bind fun _ => (calms_abortWaits rfl hz).frees.bind fun _ =>
      ?_
    exact (calms_assertEmpty _).frees.bind fun _ => frees_heapFree
  · refine calm_of_other (life_eq ho) (fun z hz c' => ?_) hm
    refine (calms_abortWaits rfl hz).frees.bind fun _ => (calms_abortWaits rfl hz).frees.bind
      fun _ => ?_
    refine (calms_assertEmpty _).frees.bind fun _ => (calms_assertEmpty _).frees.bind fun _ => ?_
    exact frees_heapFree
  · exact frees_heapFree _ _ _ hm (removable_of_other (life_eq ho))

theorem releaseNested_calms (fuel : Nat) (y c x : Nat) : Calms A y c (releaseNested fuel x) := by
  induction fuel generalizing y c x with
  | zero => exact calms_throw _
  | succ fuel ih =>
      refine calms_getObject.bind fun _ => (calms_modifyRefcount _).bind fun _ => ?_
      refine calms_get.bind fun s => calms_ite ?_ (calms_pure ())
      exact objectDestroy_calms ih

theorem calms_objectRelease : Calms A y c (objectRelease x) := by
  intro s u s' h
  exact releaseNested_calms (s.fresh + 2) y c x s u s' h

/-- Whatever the program does is mild. -/
def Milds (A : Aspect) (m : Kernel α) : Prop := Keeps (fun s s' => Old s → Mild A s s') m

theorem Calms.milds {m : Kernel α} (hm : Calms A 0 0 m) : Milds A m :=
  fun s a s' h hold => (hm s a s' h hold).1

theorem milds_pure (a : α) : Milds A (pure a) := (calms_pure a).milds

theorem Milds.bind {m : Kernel α} {f : α → Kernel β} (hm : Milds A m) (hf : ∀ a, Milds A (f a)) :
    Milds A (m >>= f) := by
  refine Keeps.bind (fun s s' s'' h h' hold => ?_) hm hf
  exact (h hold).trans hold (h' (h hold).old)

theorem milds_ite {b : Prop} {_ : Decidable b} {m m' : Kernel α} (ht : Milds A m)
    (hf : Milds A m') : Milds A (if b then m else m') := keeps_ite ht hf

theorem milds_queueWakeup (q : Queue) (all : Bool) (r : Result) :
    Milds A (queueWakeup q all r) := by
  intro s u s' h hold
  refine (calms_queueWakeup (y := q.owner.getD 0 + 1) (c := 0) (fun howner => ?_) all s u s'
    h hold).1
  rw [howner] at howner
  exact (Nat.succ_ne_self _ (Option.some.inj howner).symm).elim

theorem milds_objectSignal (r : Result) : Milds A (objectSignal x r) :=
  fun _ _ _ h hold => objectSignal_mild hold h

theorem milds_assignOther {functions : Functions α} {f : α → α}
    (hf : ∀ a, lifeOf (functions.whole a) = .other) : Milds A (assign functions x f) :=
  (calms_assignOther hf).milds

theorem milds_logReturn (r : Return) : Milds A (logReturn r) := by
  rintro s _ s' ⟨⟩ hold
  exact ⟨Nat.le_refl _, hold, fun _ => Or.inl rfl, fun _ => Or.inr rfl, fun _ => rfl⟩

theorem milds_timerActivate : Milds A (timerActivate x) := by
  refine calms_objectContainer.milds.bind fun t => milds_ite (milds_pure ()) ?_
  refine calms_get.milds.bind fun _ => (calms_llInsert _ _).milds.bind fun _ => ?_
  exact milds_assignOther fun _ => rfl

theorem milds_timerWait (t : Timer) : Milds A (timerWait x t) := by
  refine calms_get.milds.bind fun s => milds_ite ?_ (milds_ite ?_ ?_)
  · exact milds_timerActivate.bind fun _ => milds_pure _
  · refine (milds_assignOther fun _ => rfl).bind fun _ => ?_
    exact calms_timerUpdate.milds.bind fun _ => milds_pure _
  · exact calms_timerDeactivate.milds.bind fun _ => milds_pure _

theorem milds_eventWaitLoop {wait : Nat → Nat → Kernel Wait}
    (hwait : ∀ x mode, Milds A (wait x mode))
    (x : Nat) (ys : List Nat) : Milds A (eventWaitLoop wait x ys) := by
  induction ys with
  | nil => exact milds_pure _
  | cons y ys ih =>
      refine calms_objectContainer.milds.bind fun e => milds_ite ih ?_
      refine calms_kernelAssert.milds.bind fun _ => (milds_assignOther fun _ => rfl).bind fun _ =>
        ?_
      refine (hwait _ _).bind fun r => ?_
      rcases r with q | r
      · refine (milds_assignOther fun _ => rfl).bind fun _ => ?_
        exact (calms_llAddAfter q).milds.bind fun _ => ih
      · exact (milds_assignOther fun _ => rfl).bind fun _ => milds_pure _

theorem milds_waitNested (fuel x mode : Nat) : Milds A (waitNested fuel x mode) := by
  induction fuel generalizing x mode with
  | zero => exact (calms_throw _).milds
  | succ fuel ih =>
      refine calms_getObject.milds.bind fun o => ?_
      rcases o with t | p | e | e | value | t | p | _
      · exact milds_pure _
      · exact milds_pure _
      · exact milds_eventWaitLoop ih x _
      · exact milds_pure _
      · exact milds_ite (milds_pure _) ((milds_assignOther fun _ => rfl).bind fun _ => milds_pure _)
      · exact milds_timerWait t
      · exact milds_pure _
      · exact milds_pure _

theorem milds_threadWait (t x mode : Nat) : Milds A (threadWait t x mode) := by
  have hwait : Milds A (objectWait x mode) :=
    fun s a s' h => milds_waitNested (s.fresh + 1) x mode s a s' h
  refine hwait.bind fun r => ?_
  rcases r with q | r
  · refine calms_objectContainer.milds.bind fun _ => calms_kernelAssert.milds.bind fun _ => ?_
    refine Milds.bind (calms_assignThread _ _).milds fun _ => calms_llRemove.milds.bind fun _ => ?_
    exact (calms_llAddAfter q).milds
  · exact Milds.bind (calms_assignThread _ _).milds fun _ => milds_logReturn _

theorem milds_pipeShutdown (p : Pipe) (mode : Bool) : Milds A (pipeShutdown x p mode) := by
  refine (milds_assignOther fun _ => rfl).bind fun _ => (milds_queueWakeup _ _ _).bind fun _ => ?_
  exact milds_ite (milds_pure ()) (milds_queueWakeup _ _ _)

theorem milds_objectCreate {o : Object}
    (ho : lifeOf o = .other ∨ lifeOf o = .process [] MINUS_ONE) : Milds A (objectCreate o) :=
  calms_request.milds.bind fun _ =>
    milds_ite ((calms_objectInit ho).milds.bind fun _ => milds_pure _) (milds_pure _)

theorem milds_eventAttachObj (y mode ident : Nat) : Milds A (eventAttachObj x y mode ident) := by
  refine calms_request.milds.bind fun _ => milds_ite ?_ (milds_pure ())
  refine (calms_objectInit (Or.inl rfl)).milds.bind fun z => ?_
  exact (milds_assignOther fun _ => rfl).bind fun _ => calms_objectAddRef.milds

theorem milds_eventDetachObj (ident : Nat) : Milds A (eventDetachObj x ident) := by
  refine calms_objectContainer.milds.bind fun e => (calms_forEach (fun y => ?_) _).milds
  refine calms_objectContainer.bind fun _ => calms_ite ?_ (calms_pure ())
  exact calms_removeSubEvent (fun _ => calms_objectRelease) y

theorem getHandles_eq_ok {p : Nat} {handles : List Nat} (h : getHandles p s = .ok (handles, s')) :
    (∃ q, s.objects p = some (.process q) ∧ q.handles = some handles) ∧ s' = s := by
  obtain ⟨q, s₁, hq, hm⟩ := bind_ok.mp h
  obtain ⟨hq, rfl⟩ := objectContainer_eq_ok.mp hq
  rcases hhandles : q.handles with _ | handles'
  · rw [hhandles] at hm
    cases hm
  · rw [hhandles] at hm
    cases hm
    exact ⟨⟨q, hq, hhandles⟩, rfl⟩

theorem calms_getHandles (p : Nat) : Calms A y c (getHandles p) := by
  intro s handles s' h
  obtain ⟨-, rfl⟩ := getHandles_eq_ok h
  exact .refl _ _ _

theorem calms_setHandles (p : Nat) (handles : List Nat) : Calms A y c (setHandles p handles) :=
  calms_assignHandles _

theorem calms_handleAllocate (p x : Nat) : Calms A y c (handleAllocate p x) := by
  refine calms_request.bind fun _ => calms_ite ?_ (calms_pure ())
  refine (calms_getHandles p).bind fun _ => calms_objectAddRef.bind fun _ => ?_
  exact calms_setHandles _ _

theorem calms_handleRelease (p x : Nat) : Calms A y c (handleRelease p x) :=
  (calms_getHandles p).bind fun _ => (calms_setHandles _ _).bind fun _ => calms_objectRelease

theorem calms_handleSet (p x : Nat) (old : Option Nat) : Calms A y c (handleSet p x old) := by
  refine (calms_getHandles p).bind fun _ => calms_objectAddRef.bind fun _ => ?_
  rcases old with _ | y
  · exact calms_setHandles _ _
  · exact (calms_setHandles _ _).bind fun _ => calms_objectRelease

theorem milds_returnHandle (p : Nat) {create : Kernel (Option Nat)} (hcreate : Milds A create) :
    Milds A (returnHandle p create) := by
  refine hcreate.bind fun r => ?_
  rcases r with _ | x
  · exact milds_pure ()
  · exact (calms_handleAllocate p x).milds.bind fun _ => calms_objectRelease.milds

theorem milds_liftPipe (r : Except Pipes.Fault α) : Milds A (liftPipe r) := by
  rcases r with e | a
  · exact (calms_throw _).milds
  · exact milds_pure a

theorem milds_objectWrite (buf : List UInt8) : Milds A (objectWrite x buf) := by
  refine calms_getObject.milds.bind fun o => ?_
  split
  · refine calms_get.milds.bind fun s => (milds_liftPipe _).bind fun r => ?_
    refine (milds_assignOther fun _ => rfl).bind fun _ => ?_
    split
    · exact milds_pure ()
    · exact milds_queueWakeup _ _ _
  · exact milds_pure ()

theorem milds_objectRead (length : Nat) : Milds A (objectRead x length) := by
  refine calms_getObject.milds.bind fun o => ?_
  split
  · refine (milds_liftPipe _).bind fun r => (milds_assignOther fun _ => rfl).bind fun _ => ?_
    split
    · exact milds_pure ()
    · exact milds_queueWakeup _ _ _
  · exact milds_pure ()

theorem milds_timerWrite (timeout interval : Nat) : Milds A (timerWrite x timeout interval) := by
  refine calms_getObject.milds.bind fun o => ?_
  split
  · refine calms_get.milds.bind fun s => (milds_assignOther fun _ => rfl).bind fun _ => ?_
    exact calms_timerUpdate.milds
  · exact milds_pure ()

theorem milds_expire (t : Timer) (now : Nat) : Milds A (expire x t now) := by
  refine milds_ite ?_ (calms_timerDeactivate.milds.bind fun _ => milds_queueWakeup _ _ _)
  refine (milds_assignOther fun _ => rfl).bind fun _ => calms_timerUpdate.milds.bind fun _ => ?_
  exact milds_queueWakeup _ _ _

theorem milds_timerLoop (fuel : Nat) : Milds A (timerLoop fuel) := by
  induction fuel with
  | zero => exact (calms_throw _).milds
  | succ fuel ih =>
      refine calms_get.milds.bind fun s => ?_
      split
      · exact milds_pure ()
      · refine calms_objectContainer.milds.bind fun t => milds_ite (milds_pure ()) ?_
        exact (milds_expire t _).bind fun _ => ih

theorem milds_timerIrq : Milds A timerIrq := by
  have htime : Milds A (modify fun s : Store =>
      { s with timestamp := (s.timestamp + TIMER_INTERRUPT_DELTA) % (WORD * WORD) }) := by
    rintro s _ s' ⟨⟩ hold
    exact ⟨Nat.le_refl _, hold, fun _ => Or.inl rfl, fun _ => Or.inr rfl, fun _ => rfl⟩
  exact htime.bind fun _ => calms_get.milds.bind fun s => milds_timerLoop _

end

end Ibnos.Lives
