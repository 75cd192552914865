import Ibnos.Lives
import Ibnos.ObjectPrograms

/-!
System calls which create an object and have no handle for it. What was created is
released once, but a thread has a reference on itself and one on its process.
-/

namespace Ibnos.CreationFailures

open Ibnos.AddressSpaces
open Ibnos.Lifetimes
open Ibnos.ObjectPrograms
open Ibnos.Objects
open Ibnos.ObjectStores
open Ibnos.Programs
open Ibnos.Syscalls

section

variable {s s' s'' : Store} {x : Nat} {α β : Type}

/-- Nothing is at an address which was not given out yet, and nobody waits there. -/
structure Tidy (s : Store) : Prop where
  objects : ∀ x, s.fresh ≤ x → s.objects x = none
  queues : ∀ q x, q.owner = some x → s.fresh ≤ x → s.queues q = []

/-- Addresses are not taken back. -/
structure Onward (s s' : Store) : Prop where
  fresh : s.fresh ≤ s'.fresh
  tidy : Tidy s → Tidy s'

theorem Onward.refl (s : Store) : Onward s s := ⟨le_rfl, id⟩

theorem Onward.trans (h : Onward s s') (h' : Onward s' s'') : Onward s s'' :=
  ⟨h.fresh.trans h'.fresh, fun hs => h'.tidy (h.tidy hs)⟩

theorem Tidy.lt (h : Tidy s) {o : Object} (hx : s.objects x = some o) : x < s.fresh := by
  rw [← not_le]
  intro hle
  rw [h.objects x hle] at hx
  cases hx

theorem onward_bind {m : Kernel α} {f : α → Kernel β} (hm : Keeps Onward m)
    (hf : ∀ a, Keeps Onward (f a)) : Keeps Onward (m >>= f) :=
  Keeps.bind (fun _ _ _ => Onward.trans) hm hf

theorem onward_same (hobjects : s'.objects = s.objects) (hqueues : s'.queues = s.queues)
    (hfresh : s'.fresh = s.fresh) : Onward s s' := by
  refine ⟨hfresh.ge, fun hs => ⟨fun x hx => ?_, fun q x hq hx => ?_⟩⟩
  · rw [hobjects]
    exact hs.objects x (hfresh ▸ hx)
  · rw [hqueues]
    exact hs.queues q x hq (hfresh ▸ hx)

theorem onward_put {o : Object} (hx : s.objects x = some o) (v : Option Object) :
    Onward s (put s x v) := by
  refine ⟨le_rfl, fun hs => ⟨fun y hy => ?_, hs.queues⟩⟩
  have hne : y ≠ x := by
    rintro rfl
    exact absurd (hs.lt hx) (Nat.not_lt.mpr hy)
  rw [objects_put, Function.update_of_ne hne]
  exact hs.objects y hy

theorem onward_assign (functions : Functions α) (x : Nat) (f : α → α) :
    Keeps Onward (assign functions x f) := by
  intro s u s' h
  obtain ⟨a, ha, rfl⟩ := assign_eq_ok.mp h
  exact onward_put ha _

theorem onward_getObject (x : Nat) : Keeps Onward (getObject x) := by
  intro s o s' h
  obtain ⟨-, rfl⟩ := getObject_eq_ok.mp h
  exact Onward.refl s'

theorem onward_heapFree (x : Nat) : Keeps Onward (heapFree x) := by
  refine keeps_modify fun s => ⟨le_rfl, fun hs => ⟨fun y hy => ?_, hs.queues⟩⟩
  rcases eq_or_ne y x with rfl | hne
  · exact Function.update_self _ _ _
  · exact (Function.update_of_ne hne _ _).trans (hs.objects y hy)

theorem onward_objectInit (o : Object) : Keeps Onward (objectInit o) := by
  rintro s _ _ ⟨⟩
  refine ⟨Nat.le_succ _, fun hs => ⟨fun y hy => ?_, fun q y hq hy => ?_⟩⟩
  · have hlt : s.fresh < y := hy
    exact (Function.update_of_ne (by omega) _ _).trans (hs.objects y (by omega))
  · exact hs.queues q y hq (Nat.le_of_succ_le hy)

theorem onward_llRemove (x : Nat) : Keeps Onward (llRemove x) := by
  intro s q s' h
  rw [llRemove] at h
  split at h
  · cases h
  · next q' hhome =>
    cases h
    refine ⟨le_rfl, fun hs => ⟨hs.objects, fun p y hp hy => ?_⟩⟩
    rcases eq_or_ne p q with rfl | hne
    · refine (Function.update_self _ _ _).trans ?_
      rw [hs.queues p y hp hy]
      rfl
    · exact (Function.update_of_ne hne _ _).trans (hs.queues p y hp hy)

/-- An entry is put into a list which there is already. -/
theorem onward_llInsert {q : Queue} (hq : ∀ y, q.owner = some y → y < s.fresh) {xs : List Nat}
    {u : Unit}
    (h : llInsert q x xs s = .ok (u, s')) : Onward s s' := by
  cases h
  refine ⟨le_rfl, fun hs => ⟨hs.objects, fun p y hp hy => ?_⟩⟩
  have hne : p ≠ q := by
    rintro rfl
    exact absurd (hq y hp) (Nat.not_lt.mpr hy)
  exact (Function.update_of_ne hne _ _).trans (hs.queues p y hp hy)

end

section

variable {s s' : Store} {x : Nat}

theorem onward_objectAddRef (x : Nat) : Keeps Onward (objectAddRef x) :=
  onward_bind (onward_getObject x) fun _ => keeps_modify fun _ => onward_same rfl rfl rfl

theorem objectsClosed_onward : ObjectsClosed fun _ m => Keeps Onward m where
  pure := keeps_pure Onward.refl
  throw := keeps_throw
  bind := onward_bind
  get := keeps_get Onward.refl
  request := by
    rintro s _ _ ⟨⟩
    exact onward_same rfl rfl rfl
  getObject := onward_getObject
  assign functions x f _ := onward_assign functions x f
  heapFree := onward_heapFree
  objectInit := onward_objectInit
  objectAddRef := onward_objectAddRef
  llRemove := onward_llRemove
  llInsertThread _ _ _ _ _ h := onward_llInsert (fun _ hq => by cases hq) h
  llInsertTimer _ _ _ _ _ h := onward_llInsert (fun _ hq => by cases hq) h
  setLog _ := keeps_modify fun _ => onward_same rfl rfl rfl
  setUnmaps _ := keeps_modify fun _ => onward_same rfl rfl rfl
  setTimestamp _ := keeps_modify fun _ => onward_same rfl rfl rfl
  setStdin _ := keeps_modify fun _ => onward_same rfl rfl rfl

/-- Who has to wait does so in a list of the object. -/
def WaitsAt (x : Nat) (m : Kernel Wait) : Prop :=
  ∀ s q s', m s = .ok (.queue q, s') → q.owner = some x

theorem waitsAt_pure {r : Wait} (h : ∀ q, r = .queue q → q.owner = some x) :
    WaitsAt x (pure r) := by
  rintro s q s' hok
  cases hok
  exact h q rfl

theorem waitsAt_bind {α : Type} {m : Kernel α} {f : α → Kernel Wait} (hf : ∀ a, WaitsAt x (f a)) :
    WaitsAt x (m >>= f) := by
  intro s q s'' h
  obtain ⟨a, s', -, ha⟩ := bind_ok.mp h
  exact hf a s' q s'' ha

theorem waitsAt_ite {c : Prop} {_ : Decidable c} {m m' : Kernel Wait} (hm : WaitsAt x m)
    (hm' : WaitsAt x m') : WaitsAt x (if c then m else m') := by
  split
  · exact hm
  · exact hm'

theorem waitsAt_timerWait (x : Nat) (t : Timer) : WaitsAt x (timerWait x t) := by
  refine waitsAt_bind fun s => waitsAt_ite ?_ (waitsAt_ite ?_ ?_)
  · refine waitsAt_bind fun _ => waitsAt_pure ?_
    rintro _ ⟨⟩
    rfl
  · exact waitsAt_bind fun _ => waitsAt_bind fun _ => waitsAt_pure nofun
  · exact waitsAt_bind fun _ => waitsAt_pure nofun

theorem waitsAt_eventWaitLoop {wait : Nat → Nat → Kernel Wait} (x : Nat) (ys : List Nat) :
    WaitsAt x (eventWaitLoop wait x ys) := by
  induction ys with
  | nil =>
      refine waitsAt_pure ?_
      rintro _ ⟨⟩
      rfl
  | cons y ys ih =>
      refine waitsAt_bind fun s => waitsAt_ite ih ?_
      refine waitsAt_bind fun _ => waitsAt_bind fun _ => waitsAt_bind fun r => ?_
      rcases r with q | r
      · exact waitsAt_bind fun _ => waitsAt_bind fun _ => ih
      · exact waitsAt_bind fun _ => waitsAt_pure nofun

theorem waitsAt_waitNested (fuel x mode : Nat) : WaitsAt x (waitNested fuel x mode) := by
  cases fuel with
  | zero => exact fun s q s' hok => by cases hok
  | succ fuel =>
      refine waitsAt_bind fun o => ?_
      split
      · refine waitsAt_pure fun q hq => ?_
        split at hq
        · cases hq
        · cases hq
          rfl
      · refine waitsAt_pure fun q hq => ?_
        split at hq
        · cases hq
        · cases hq
          rfl
      · refine waitsAt_ite (waitsAt_pure ?_) (waitsAt_bind fun _ => waitsAt_pure nofun)
        rintro _ ⟨⟩
        rfl
      · exact waitsAt_timerWait x _
      · refine waitsAt_pure fun q hq => ?_
        rw [pipeWait] at hq
        split at hq
        · cases hq
        · cases hq
          split
          · rfl
          · rfl
      · exact waitsAt_eventWaitLoop x _
      · exact waitsAt_pure nofun

end

section

variable {s s' : Store} {x : Nat}

/-- A wait for an object, which has to be there. -/
structure Waiting (wait : Nat → Nat → Kernel Wait) : Prop where
  onward : ∀ x mode, Keeps Onward (wait x mode)
  owner : ∀ x mode, WaitsAt x (wait x mode)
  live : ∀ x mode s r s', wait x mode s = .ok (r, s') → s.objects x ≠ none

/-- An entry is put into the list in which a wait for `x` is made. -/
theorem Waiting.enqueue {wait : Nat → Nat → Kernel Wait} (hwait : Waiting wait) {mode y : Nat}
    {q : Queue}
    {s s₁ s₂ s₃ : Store} {u : Unit} (hok : wait x mode s = .ok (.queue q, s₁)) (h₁₂ : Onward s₁ s₂)
    (hadd : llAddAfter q y s₂ = .ok (u, s₃)) : Onward s s₃ := by
  have h : Onward s s₂ := (hwait.onward x mode _ _ _ hok).trans h₁₂
  have hinsert : llInsert q y (y :: s₂.queues q) s₂ = .ok (u, s₃) := hadd
  have hfresh : s₂.fresh ≤ s₃.fresh := by
    cases hinsert
    exact le_rfl
  refine ⟨h.fresh.trans hfresh, fun hs => ?_⟩
  refine (onward_llInsert (fun z hz => ?_) hinsert).tidy (h.tidy hs)
  rw [hwait.owner x mode _ _ _ hok] at hz
  cases hz
  rcases ho : s.objects x with _ | o
  · exact (hwait.live x mode _ _ _ hok ho).elim
  · exact (hs.lt ho).trans_le h.fresh

theorem onward_eventWaitLoop {wait : Nat → Nat → Kernel Wait} (hwait : Waiting wait) (x : Nat)
    (ys : List Nat) : Keeps Onward (eventWaitLoop wait x ys) := by
  induction ys with
  | nil => exact keeps_pure Onward.refl _
  | cons y ys ih =>
      refine onward_bind (objectsClosed_onward.objectContainer subEventFunctions y) fun e => ?_
      refine keeps_ite ih (onward_bind (objectsClosed_onward.kernelAssert _) fun _ => ?_)
      refine onward_bind (onward_assign _ _ _) fun _ => ?_
      intro s r s' hok
      obtain ⟨w, s₁, hw, hok₁⟩ := bind_ok.mp hok
      rcases w with q | r'
      · obtain ⟨_, s₂, hassign, hok₂⟩ := bind_ok.mp hok₁
        obtain ⟨_, s₃, hadd, hok₃⟩ := bind_ok.mp hok₂
        have h₂ := onward_assign _ _ _ _ _ _ hassign
        exact (hwait.enqueue hw h₂ hadd).trans (ih _ _ _ hok₃)
      · refine (hwait.onward _ _ _ _ _ hw).trans ?_
        exact onward_bind (onward_assign _ _ _) (fun _ => keeps_pure Onward.refl _) _ _ _ hok₁

theorem waiting_waitNested (fuel : Nat) : Waiting (waitNested fuel) := by
  induction fuel with
  | zero =>
      refine ⟨fun x mode => keeps_throw _, fun x mode => waitsAt_waitNested 0 x mode, ?_⟩
      intro x mode s r s' hok
      cases hok
  | succ fuel ih =>
      refine ⟨fun x mode => ?_, waitsAt_waitNested (fuel + 1), fun x mode s r s' hok hnone => ?_⟩
      · refine onward_bind (onward_getObject x) fun o => ?_
        split
        · exact keeps_pure Onward.refl _
        · exact keeps_pure Onward.refl _
        · refine keeps_ite (keeps_pure Onward.refl _) ?_
          exact onward_bind (onward_assign _ _ _) fun _ => keeps_pure Onward.refl _
        · exact objectsClosed_onward.timerWait x _
        · exact keeps_pure Onward.refl _
        · exact onward_eventWaitLoop ih x _
        · exact keeps_pure Onward.refl _
      · obtain ⟨o, s₁, hget, -⟩ := bind_ok.mp hok
        rw [(getObject_eq_ok.mp hget).1] at hnone
        cases hnone

theorem onward_threadWait (t x mode : Nat) : Keeps Onward (threadWait t x mode) := by
  intro s u s' hok
  obtain ⟨w, s₁, hw, hok₁⟩ := bind_ok.mp hok
  have hw : waitNested (s.fresh + 1) x mode s = .ok (w, s₁) := hw
  have hwait := waiting_waitNested (s.fresh + 1)
  rcases w with q | r
  · obtain ⟨thread, s₂, hthread, hok₂⟩ := bind_ok.mp hok₁
    obtain ⟨_, s₃, hassert, hok₃⟩ := bind_ok.mp hok₂
    obtain ⟨_, s₄, hassign, hok₄⟩ := bind_ok.mp hok₃
    obtain ⟨_, s₅, hremove, hadd⟩ := bind_ok.mp hok₄
    have h₂ := objectsClosed_onward.objectContainer threadFunctions t _ _ _ hthread
    have h₃ := objectsClosed_onward.kernelAssert _ _ _ _ hassert
    have h₄ := onward_assign _ _ _ _ _ _ hassign
    have h₅ := onward_llRemove t _ _ _ hremove
    exact hwait.enqueue hw (h₂.trans (h₃.trans (h₄.trans h₅))) hadd
  · refine (hwait.onward x mode _ _ _ hw).trans ?_
    exact onward_bind (onward_assign _ _ _) (fun _ => objectsClosed_onward.logReturn _) _ _ _ hok₁

theorem releasesClosed_onward : ReleasesClosed fun _ m => Keeps Onward m where
  toObjectsClosed := objectsClosed_onward
  threadWait := onward_threadWait
  releaseWith {release} hrelease x := by
    refine onward_bind (onward_getObject x) fun _ => onward_bind ?_ fun _ => ?_
    · exact keeps_modify fun _ => onward_same rfl rfl rfl
    · refine onward_bind (keeps_get Onward.refl) fun _ => ?_
      exact keeps_ite (objectsClosed_onward.objectDestroy hrelease x) (keeps_pure Onward.refl _)

end

section

variable {s s' s'' : Store} {x : Nat}

/-- An object without references which is still there. The subEvents are left out, since
nothing is done when one is released. -/
def Stale (s : Store) (x : Nat) : Prop :=
  s.refcount x = 0 ∧ ∃ o, s.objects x = some o ∧ isSubEvent o = false

/-- No object becomes stale. -/
def Sound (s s' : Store) : Prop := ∀ x, Stale s' x → Stale s x

theorem Sound.refl (s : Store) : Sound s s := fun _ => id

theorem Sound.trans (h : Sound s s') (h' : Sound s' s'') : Sound s s'' := fun x hx => h x (h' x hx)

theorem sound_same (hobjects : s'.objects = s.objects) (hrefcount : s'.refcount = s.refcount) :
    Sound s s' := by
  intro x hx
  rw [Stale, hobjects, hrefcount] at hx
  exact hx

theorem sound_assign {α : Type} (functions : Functions α) (x : Nat) (f : α → α)
    (htype : ∀ a b, isSubEvent (functions.whole a) = isSubEvent (functions.whole b)) :
    Keeps Sound (assign functions x f) := by
  intro s u s' h
  obtain ⟨a, ha, rfl⟩ := assign_eq_ok.mp h
  rintro y ⟨hzero, o, hy, ho⟩
  refine ⟨hzero, ?_⟩
  rw [objects_put] at hy
  rcases eq_or_ne y x with rfl | hne
  · rw [Function.update_self] at hy
    cases hy
    exact ⟨_, ha, (htype a (f a)).trans ho⟩
  · rw [Function.update_of_ne hne] at hy
    exact ⟨o, hy, ho⟩

theorem sound_heapFree (x : Nat) : Keeps Sound (heapFree x) := by
  refine keeps_modify ?_
  rintro s y ⟨hzero, o, hy, ho⟩
  refine ⟨hzero, o, ?_, ho⟩
  rcases eq_or_ne y x with rfl | hne
  · cases (Function.update_self y none s.objects).symm.trans hy
  · exact (Function.update_of_ne hne _ _).symm.trans hy

theorem sound_objectInit (o : Object) : Keeps Sound (objectInit o) := by
  rintro s _ _ ⟨⟩ y ⟨hzero, o', hy, ho⟩
  rcases eq_or_ne y s.fresh with rfl | hne
  · cases (Function.update_self s.fresh 1 s.refcount).symm.trans hzero
  · refine ⟨(Function.update_of_ne hne _ _).symm.trans hzero, o', ?_, ho⟩
    exact (Function.update_of_ne hne _ _).symm.trans hy

/-- Only the object of which the references are counted can become stale. -/
theorem stale_setRefcount {n y : Nat} (hne : y ≠ x)
    (h : Stale { s with refcount := Function.update s.refcount x n } y) : Stale s y :=
  ⟨(Function.update_of_ne hne _ _).symm.trans h.1, h.2⟩

theorem sound_objectAddRef (x : Nat) : Keeps Sound (objectAddRef x) := by
  intro s u s' h
  obtain ⟨o, s₁, hget, hmodify⟩ := bind_ok.mp h
  obtain ⟨-, rfl⟩ := getObject_eq_ok.mp hget
  cases hmodify
  intro y hy
  rcases eq_or_ne y x with rfl | hne
  · cases (Function.update_self y (s₁.refcount y + 1) s₁.refcount).symm.trans hy.1
  · exact stale_setRefcount hne hy

theorem sound_llInsert (q : Queue) (x : Nat) (xs : List Nat) : Keeps Sound (llInsert q x xs) :=
  keeps_modify fun _ => sound_same rfl rfl

theorem sound_llRemove (x : Nat) : Keeps Sound (llRemove x) := by
  intro s q s' h
  rw [llRemove] at h
  split at h
  · cases h
  · cases h
    exact sound_same rfl rfl

theorem objectsClosed_sound : ObjectsClosed fun _ m => Keeps Sound m where
  pure := keeps_pure Sound.refl
  throw := keeps_throw
  bind := Keeps.bind fun _ _ _ => Sound.trans
  get := keeps_get Sound.refl
  request := by
    rintro s _ _ ⟨⟩
    exact sound_same rfl rfl
  getObject x s o s' h := by
    obtain ⟨-, rfl⟩ := getObject_eq_ok.mp h
    exact Sound.refl s'
  assign := sound_assign
  heapFree := sound_heapFree
  objectInit := sound_objectInit
  objectAddRef := sound_objectAddRef
  llRemove := sound_llRemove
  llInsertThread := sound_llInsert _
  llInsertTimer := sound_llInsert _
  setLog _ := keeps_modify fun _ => sound_same rfl rfl
  setUnmaps _ := keeps_modify fun _ => sound_same rfl rfl
  setTimestamp _ := keeps_modify fun _ => sound_same rfl rfl
  setStdin _ := keeps_modify fun _ => sound_same rfl rfl

end

section

variable {s s' : Store} {x : Nat} {α β : Type}

/-- The object is gone at the end. -/
def Frees (x : Nat) (m : Kernel α) : Prop := ∀ s a s', m s = .ok (a, s') → s'.objects x = none

theorem frees_bind {m : Kernel α} {f : α → Kernel β} (hf : ∀ a, Frees x (f a)) :
    Frees x (m >>= f) := by
  intro s b s'' h
  obtain ⟨a, s', -, ha⟩ := bind_ok.mp h
  exact hf a s' b s'' ha

theorem frees_heapFree (x : Nat) : Frees x (heapFree x) := by
  rintro s _ _ ⟨⟩
  exact Function.update_self _ _ _

/-- Every destructor but the one of a subEvent frees the memory of its object. -/
theorem objectDestroy_frees {release : Nat → Kernel Unit} {o : Object} {u : Unit}
    (ho : s.objects x = some o)
    (hsub : isSubEvent o = false) (h : objectDestroy release x s = .ok (u, s')) :
      s'.objects x = none := by
  obtain ⟨o', s₁, hget, hok⟩ := bind_ok.mp h
  obtain ⟨ho', rfl⟩ := getObject_eq_ok.mp hget
  obtain rfl : o' = o := Option.some.inj (ho'.symm.trans ho)
  split at hok
  · exact frees_bind (fun _ => frees_bind fun _ => frees_heapFree x) _ _ _ hok
  · refine frees_bind (fun _ => frees_bind fun _ => frees_bind fun _ => frees_bind fun _ => ?_)
      _ _ _ hok
    exact frees_heapFree x
  · refine frees_bind (fun _ => frees_bind fun _ => frees_bind fun _ => frees_bind fun _ => ?_)
      _ _ _ hok
    exact frees_heapFree x
  · cases hsub
  · exact frees_bind (fun _ => frees_bind fun _ => frees_heapFree x) _ _ _ hok
  · exact frees_bind (fun _ => frees_bind fun _ => frees_bind fun _ => frees_heapFree x) _ _ _ hok
  · refine frees_bind (fun _ => frees_bind fun _ => frees_bind fun _ => frees_bind fun _ => ?_)
      _ _ _ hok
    exact frees_heapFree x
  · exact frees_heapFree x _ _ _ hok

theorem sound_releaseWith {release : Nat → Kernel Unit} (hrelease : ∀ x, Keeps Sound (release x))
    (x : Nat) :
    Keeps Sound (releaseWith release x) := by
  intro s u s' h
  obtain ⟨o, s₁, hget, hok₁⟩ := bind_ok.mp h
  obtain ⟨ho, rfl⟩ := getObject_eq_ok.mp hget
  obtain ⟨_, s₂, hmodify, hok₂⟩ := bind_ok.mp hok₁
  cases hmodify
  obtain ⟨_, s₃, hread, hok₃⟩ := bind_ok.mp hok₂
  cases hread
  intro y hy
  split at hok₃
  · have hbefore := objectsClosed_sound.objectDestroy hrelease x _ _ _ hok₃ y hy
    rcases eq_or_ne y x with rfl | hne
    · obtain ⟨-, o', ho', hsub⟩ := hbefore
      have hgone := objectDestroy_frees ho' hsub hok₃
      obtain ⟨-, o'', ho'', -⟩ := hy
      rw [hgone] at ho''
      cases ho''
    · exact stale_setRefcount hne hbefore
  · next hcount =>
    cases hok₃
    rcases eq_or_ne y x with rfl | hne
    · exact absurd hy.1 hcount
    · exact stale_setRefcount hne hy

theorem releasesClosed_sound : ReleasesClosed fun _ m => Keeps Sound m where
  toObjectsClosed := objectsClosed_sound
  threadWait := objectsClosed_sound.threadWait sound_llInsert
  releaseWith hrelease := sound_releaseWith hrelease

/-- What holds in every state which is reached. -/
structure Settled (s : Store) : Prop where
  tidy : Tidy s
  counted : ∀ x, ¬Stale s x

theorem tidy_emptyStore (grants : Nat → Bool) (data : Nat → Nat → UInt8) :
    Tidy (emptyStore grants data) :=
  ⟨fun _ _ => rfl, fun _ _ _ _ => rfl⟩

theorem settled_of_reaches {s₀ : Store} {is : List Input} (hboot : Booted s₀)
    (hreaches : Reaches s₀ is s) :
    Settled s := by
  have htidy : Tidy s₀ :=
    booted_of_closed releasesClosed_onward (fun _ _ h => h.tidy) tidy_emptyStore hboot
  have hsound : ∀ s s', Sound s s' → (∀ x, ¬Stale s x) → ∀ x, ¬Stale s' x :=
    fun _ _ h hs x hx => hs x (h x hx)
  have hcounted : ∀ x, ¬Stale s₀ x := by
    refine booted_of_closed (I := fun s => ∀ x, ¬Stale s x) releasesClosed_sound hsound ?_ hboot
    rintro grants data x ⟨-, o, ho, -⟩
    cases ho
  refine ⟨reaches_of_closed releasesClosed_onward (fun _ _ h => h.tidy) htidy hreaches, ?_⟩
  exact reaches_of_closed (I := fun s => ∀ x, ¬Stale s x) releasesClosed_sound hsound
    hcounted hreaches

end

section

/-- The calls which create an object and return a handle of it. -/
inductive Creation
  | fork
  | createThread
  | createEvent (wakeupAll : Bool)
  | createSemaphore (value : Nat)
  | createPipe
  | createTimer (wakeupAll : Bool)
  deriving DecidableEq, Repr

def Creation.call : Creation → Call
  | .fork => .fork
  | .createThread => .createThread
  | .createEvent wakeupAll => .createEvent wakeupAll
  | .createSemaphore value => .createSemaphore value
  | .createPipe => .createPipe
  | .createTimer wakeupAll => .createTimer wakeupAll

/-- `handleAllocate`, which tells whether the handle is not -1. -/
def handleAllocated (p x : Nat) : Kernel Bool := do
  if ← request then
    let handles ← getHandles p
    objectAddRef x
    setHandles p (handles ++ [x])
    pure true
  else pure false

/-- `eax` was set to -1 before. -/
def returned (p : Nat) (create : Kernel (Option Nat)) : Kernel Bool := do
  match ← create with
  | none => pure false
  | some x =>
      let r ← handleAllocated p x
      objectRelease x
      pure r

def threadForked (t p newP : Nat) : Kernel Bool := do
  match ← threadCreate newP (some t) with
  | none => pure false
  | some newT =>
      let r ← handleAllocated p newP
      objectRelease newT
      pure r

def forked (t p : Nat) : Kernel Bool := do
  match ← processCreate (some p) with
  | none => pure false
  | some newP =>
      let r ← threadForked t p newP
      objectRelease newP
      pure r

def performed (t p : Nat) : Creation → Kernel Bool
  | .fork => forked t p
  | .createThread => returned p (threadCreate p none)
  | .createEvent wakeupAll => returned p (objectCreate (.event { wakeupAll := wakeupAll }))
  | .createSemaphore value => returned p (objectCreate (.semaphore (value % WORD)))
  | .createPipe => returned p pipeCreate
  | .createTimer wakeupAll => returned p (objectCreate (.timer { wakeupAll := wakeupAll }))

/-- One call, which tells whether its result is not -1. -/
def called (t : Nat) (c : Creation) : Kernel Bool := do
  let s ← get
  match running s t with
  | none => pure true
  | some p =>
      let _ ← getHandles p
      performed t p c

theorem handleAllocate_eq (p x : Nat) :
    handleAllocate p x = (do let _ ← handleAllocated p x; pure ()) := by
  rw [handleAllocate, handleAllocated]
  simp only [bind_assoc]
  congr
  funext granted
  rcases granted with _ | _
  · rfl
  · simp

theorem returnHandle_eq (p : Nat) (create : Kernel (Option Nat)) :
    returnHandle p create = (do let _ ← returned p create; pure ()) := by
  rw [returnHandle, returned]
  simp only [bind_assoc, handleAllocate_eq]
  congr
  funext x
  rcases x with _ | x
  · rfl
  · simp

theorem forkThread_eq (t p newP : Nat) :
    forkThread t p newP = (do let _ ← threadForked t p newP; pure ()) := by
  rw [forkThread, threadForked]
  simp only [bind_assoc, handleAllocate_eq]
  congr
  funext x
  rcases x with _ | x
  · rfl
  · simp

theorem fork_eq (t p : Nat) : fork t p = (do let _ ← forked t p; pure ()) := by
  rw [fork, forked]
  simp only [bind_assoc, forkThread_eq]
  congr
  funext x
  rcases x with _ | x
  · rfl
  · simp

theorem perform_eq (t p : Nat) (handles : List Nat) (c : Creation) :
    perform t p handles c.call = (do let _ ← performed t p c; pure ()) := by
  cases c with
  | fork => exact fork_eq t p
  | createThread => exact returnHandle_eq p _
  | createEvent wakeupAll => exact returnHandle_eq p _
  | createSemaphore value => exact returnHandle_eq p _
  | createPipe => exact returnHandle_eq p _
  | createTimer wakeupAll => exact returnHandle_eq p _

/-- The result is told of what the kernel does. -/
theorem handle_eq (t : Nat) (c : Creation) :
    handle (.call t c.call) = (do let _ ← called t c; pure ()) := by
  rw [handle, called]
  simp only [bind_assoc, perform_eq]
  congr
  funext s
  rcases running s t with _ | p
  · rfl
  · simp

end

section

variable {s s' : Store} {x : Nat}

/-- The objects are those from before, with what they hold and with the references on them.
Nobody has come into a list or has left one. -/
structure CreatesNothing (s s' : Store) : Prop where
  objects : s'.objects = s.objects
  refcount : ∀ x, s.objects x ≠ none → s'.refcount x = s.refcount x
  queues : s'.queues = s.queues
  home : s'.home = s.home

/-- An object at the next address, after `n` requests for its memory. -/
def created (s : Store) (n : Nat) (o : Object) : Store := { s with
  objects := Function.update s.objects s.fresh (some o)
  refcount := Function.update s.refcount s.fresh 1
  fresh := s.fresh + 1
  requests := s.requests + n }

/-- The memory of an object is given back together with its last reference. -/
def freed (s : Store) (x : Nat) : Store := { s with
  objects := Function.update s.objects x none
  refcount := Function.update s.refcount x 0 }

theorem createsNothing_refused (n : Nat) : CreatesNothing s { s with requests := n } :=
  ⟨rfl, fun _ _ => rfl, rfl, rfl⟩

theorem createsNothing_freed (hs : Tidy s) {n m : Nat} {o : Object} :
    CreatesNothing s (freed { created s n o with requests := m } s.fresh) := by
  refine ⟨?_, fun x hx => ?_, rfl, rfl⟩
  · funext x
    rcases eq_or_ne x s.fresh with rfl | hne
    · exact (Function.update_self _ _ _).trans (hs.objects _ le_rfl).symm
    · exact (Function.update_of_ne hne _ _).trans (Function.update_of_ne hne _ _)
  · have hne : x ≠ s.fresh := by
      rintro rfl
      exact hx (hs.objects _ le_rfl)
    exact (Function.update_of_ne hne _ _).trans (Function.update_of_ne hne _ _)

theorem abortWaits_empty {q : Queue} (h : s.queues q = []) : abortWaits q s = .ok ((), s) := by
  rw [abortWaits, queueWakeup, queueWakeupWith, bind_apply, get_apply]
  simp only [h]
  rfl

theorem assertEmpty_ok {q : Queue} (h : s.queues q = []) : assertEmpty q s = .ok ((), s) := by
  rw [assertEmpty, bind_apply, get_apply]
  exact kernelAssert_eq_ok.mpr ⟨h, rfl⟩

/-- An object which only its creator knows. -/
def Idle : Object → Prop
  | .event e => e.subEvents = []
  | .timer t => t.active = false
  | .semaphore _ => True
  | .pipe _ => True
  | _ => False

theorem objectDestroy_idle {release : Nat → Kernel Unit} {o : Object} (ho : s.objects x = some o)
    (hidle : Idle o) (hempty : ∀ q : Queue, q.owner = some x → s.queues q = []) :
    objectDestroy release x s = .ok ((), put s x none) := by
  have habort := abortWaits_empty (hempty (.waiters x) rfl)
  have hassert := assertEmpty_ok (hempty (.waiters x) rfl)
  refine bind_ok.mpr ⟨o, s, getObject_eq ho, ?_⟩
  cases o with
  | thread t => exact hidle.elim
  | process p => exact hidle.elim
  | subEvent e => exact hidle.elim
  | other => exact hidle.elim
  | semaphore value => exact bind_ok.mpr ⟨(), s, habort, bind_ok.mpr ⟨(), s, hassert, rfl⟩⟩
  | event e =>
      refine bind_ok.mpr ⟨(), s, habort, bind_ok.mpr ⟨(), s, hassert, ?_⟩⟩
      refine bind_ok.mpr ⟨e, s, objectContainer_eq eventFunctions ho, ?_⟩
      refine bind_ok.mpr ⟨(), s, ?_, rfl⟩
      rw [show e.subEvents = [] from hidle]
      rfl
  | timer t =>
      refine bind_ok.mpr ⟨(), s, ?_, bind_ok.mpr ⟨(), s, habort, bind_ok.mpr ⟨(), s, hassert, rfl⟩⟩⟩
      refine bind_ok.mpr ⟨t, s, objectContainer_eq timerFunctions ho, ?_⟩
      rw [if_neg (by rw [show t.active = false from hidle]; exact Bool.false_ne_true)]
      rfl
  | pipe p =>
      have habort' := abortWaits_empty (hempty (.writeWaiters x) rfl)
      have hassert' := assertEmpty_ok (hempty (.writeWaiters x) rfl)
      refine bind_ok.mpr ⟨(), s, habort', bind_ok.mpr ⟨(), s, habort, ?_⟩⟩
      exact bind_ok.mpr ⟨(), s, hassert', bind_ok.mpr ⟨(), s, hassert, rfl⟩⟩

theorem decrement_succ (n : Nat) : decrement (n + 1) = n := by simp [decrement]

/-- The references of `x`, which are counted. -/
def recount (s : Store) (x n : Nat) : Store := { s with refcount := Function.update s.refcount x n }

theorem releaseNested_eq {n fuel : Nat} {o : Object} (ho : s.objects x = some o)
    (hcount : s.refcount x = n + 1) :
    releaseNested (fuel + 1) x s =
      (if n = 0 then objectDestroy (releaseNested fuel) x else pure ()) (recount s x n) := by
  rw [releaseNested, bind_apply, getObject_eq ho]
  change (if Function.update s.refcount x (decrement (s.refcount x)) x = 0
    then objectDestroy (releaseNested fuel) x else pure ())
      (recount s x (decrement (s.refcount x))) = _
  rw [Function.update_self, hcount, decrement_succ]

/-- An object which still has references stays as it is, and so does a subEvent. -/
theorem releaseNested_kept {n : Nat} (fuel : Nat) {o : Object} (ho : s.objects x = some o)
    (hcount : s.refcount x = n + 1) (hkept : n = 0 → isSubEvent o = true) :
    releaseNested (fuel + 1) x s = .ok ((), recount s x n) := by
  rw [releaseNested_eq ho hcount]
  split
  · next hn =>
    refine bind_ok.mpr ⟨o, _, getObject_eq ho, ?_⟩
    have hsub := hkept hn
    cases o with
    | subEvent e => rfl
    | _ => cases hsub
  · rfl

theorem objectRelease_idle {o : Object} (ho : s.objects x = some o) (hidle : Idle o)
    (hcount : s.refcount x = 1) (hempty : ∀ q : Queue, q.owner = some x → s.queues q = []) :
    objectRelease x s = .ok ((), freed s x) := by
  rw [objectRelease, releaseNested_eq ho hcount, if_pos rfl]
  exact objectDestroy_idle (s := recount s x 0) ho hidle hempty

end

section

variable {s s' : Store} {p x : Nat}

theorem request_refused {α : Type} {m : Kernel α} {a b : α}
    (h : (do if ← request then m else pure b : Kernel α) s = .ok (a, s')) :
    s.grants s.requests = false ∧ a = b ∧ s' = { s with requests := s.requests + 1 } ∨
      s.grants s.requests = true ∧ m { s with requests := s.requests + 1 } = .ok (a, s') := by
  obtain ⟨granted, s₁, hrequest, hok⟩ := bind_ok.mp h
  cases hrequest
  rcases hgrant : s.grants s.requests with _ | _
  · rw [hgrant, if_neg Bool.false_ne_true] at hok
    cases hok
    exact .inl ⟨rfl, rfl, rfl⟩
  · rw [hgrant, if_pos rfl] at hok
    exact .inr ⟨rfl, hok⟩

theorem handleAllocated_false (h : handleAllocated p x s = .ok (false, s')) :
    s' = { s with requests := s.requests + 1 } := by
  rcases request_refused h with ⟨-, -, rfl⟩ | ⟨-, hok⟩
  · rfl
  · obtain ⟨_, s₁, -, hok₁⟩ := bind_ok.mp hok
    obtain ⟨_, s₂, -, hok₂⟩ := bind_ok.mp hok₁
    obtain ⟨_, s₃, -, hok₃⟩ := bind_ok.mp hok₂
    cases hok₃

/-- Either nothing was allocated, or the object has no handle and is released. -/
theorem returned_false {create : Kernel (Option Nat)} (h : returned p create s = .ok (false, s')) :
    create s = .ok (none, s') ∨
      ∃ x s₁, create s = .ok (some x, s₁) ∧
        objectRelease x { s₁ with requests := s₁.requests + 1 } = .ok ((), s') := by
  obtain ⟨r, s₁, hcreate, hok⟩ := bind_ok.mp h
  rcases r with _ | x
  · cases hok
    exact .inl hcreate
  · obtain ⟨r, s₂, hallocate, hok₂⟩ := bind_ok.mp hok
    obtain ⟨_, s₃, hrelease, hpure⟩ := bind_ok.mp hok₂
    cases hpure
    rw [handleAllocated_false hallocate] at hrelease
    exact .inr ⟨x, s₁, hcreate, hrelease⟩

/-- An object without a handle is destroyed by its creator. -/
theorem createsNothing_returned (hs : Tidy s) {create : Kernel (Option Nat)}
    (hcreate : ∀ r s₁, create s = .ok (r, s₁) → (∃ n, s₁ = { s with requests := n }) ∧ r = none ∨
      ∃ o n, Idle o ∧ r = some s.fresh ∧ s₁ = created s n o)
    (h : returned p create s = .ok (false, s')) : CreatesNothing s s' := by
  rcases returned_false h with hnone | ⟨x, s₁, hsome, hrelease⟩
  · rcases hcreate _ _ hnone with ⟨⟨n, rfl⟩, -⟩ | ⟨o, n, -, hr, -⟩
    · exact createsNothing_refused n
    · cases hr
  · rcases hcreate _ _ hsome with ⟨-, hr⟩ | ⟨o, n, hidle, hr, rfl⟩
    · cases hr
    · cases hr
      have hempty : ∀ q : Queue, q.owner = some s.fresh → s.queues q = [] :=
        fun q hq => hs.queues q _ hq le_rfl
      have hfreed :=
        objectRelease_idle (s := { created s n o with requests := (created s n o).requests + 1 })
        (Function.update_self s.fresh _ _) hidle (Function.update_self s.fresh _ _) hempty
      cases hrelease.symm.trans hfreed
      exact createsNothing_freed hs

theorem objectCreate_ok {o : Object} {r : Option Nat} (h : objectCreate o s = .ok (r, s')) :
    s' = { s with requests := s.requests + 1 } ∧ r = none ∨ r = some s.fresh ∧
      s' = created s 1 o := by
  rcases request_refused h with ⟨-, hr, hs'⟩ | ⟨-, hok⟩
  · exact .inl ⟨hs', hr⟩
  · cases hok
    exact .inr ⟨rfl, rfl⟩

theorem createsNothing_objectCreate (hs : Tidy s) {o : Object} (hidle : Idle o)
    (h : returned p (objectCreate o) s = .ok (false, s')) : CreatesNothing s s' := by
  refine createsNothing_returned hs (fun r s₁ hr => ?_) h
  rcases objectCreate_ok hr with ⟨hs₁, rfl⟩ | ⟨rfl, hs₁⟩
  · exact .inl ⟨⟨_, hs₁⟩, rfl⟩
  · exact .inr ⟨o, 1, hidle, rfl, hs₁⟩

theorem createsNothing_pipeCreate (hs : Tidy s) (h : returned p pipeCreate s = .ok (false, s')) :
    CreatesNothing s s' := by
  refine createsNothing_returned hs (fun r s₁ hr => ?_) h
  rcases request_refused hr with ⟨-, rfl, rfl⟩ | ⟨-, hok⟩
  · exact .inl ⟨⟨_, rfl⟩, rfl⟩
  · rcases objectCreate_ok hok with ⟨rfl, rfl⟩ | ⟨rfl, rfl⟩
    · exact .inl ⟨⟨_, rfl⟩, rfl⟩
    · exact .inr ⟨.pipe _, 2, trivial, rfl, rfl⟩

end

section

variable {s s' : Store} {p t x : Nat} {u : Unit}

theorem objectRelease_shared (hcount : 2 ≤ s.refcount x) (h : objectRelease x s = .ok (u, s')) :
    s' = recount s x (s.refcount x - 1) := by
  obtain ⟨o, s₁, hget, -⟩ := bind_ok.mp h
  obtain ⟨ho, -⟩ := getObject_eq_ok.mp hget
  have hkept := releaseNested_kept (s.fresh + 1) ho (n := s.refcount x - 1) (by omega) (by omega)
  cases h.symm.trans hkept
  rfl

theorem objectAddRef_eq {o : Object} (ho : s.objects x = some o) :
    objectAddRef x s = .ok ((), recount s x (s.refcount x + 1)) :=
  bind_ok.mpr ⟨o, s, getObject_eq ho, rfl⟩

theorem objectAddRef_ok (h : objectAddRef x s = .ok (u, s')) :
    s.objects x ≠ none ∧ s' = recount s x (s.refcount x + 1) := by
  obtain ⟨o, s₁, hget, hmodify⟩ := bind_ok.mp h
  obtain ⟨ho, rfl⟩ := getObject_eq_ok.mp hget
  cases hmodify
  exact ⟨by rw [ho]; exact Option.some_ne_none o, rfl⟩

/-- The new thread has a reference on itself and one on its process. -/
theorem threadCreate_some {original : Option Nat}
    (h : threadCreate x original s = .ok (some t, s')) :
    ∃ thread s₁, initialThread x s.fresh original { s with requests := s.requests + 1 } =
      .ok (thread, s₁) ∧
      t = s₁.fresh ∧ (∃ o, s'.objects t = some o) ∧ s'.refcount t = 2 ∧
        s'.refcount x = s₁.refcount x + 1 := by
  rcases request_refused h with ⟨-, hr, -⟩ | ⟨-, hok⟩
  · cases hr
  · obtain ⟨_, _, hread, hok₀⟩ := bind_ok.mp hok
    cases hread
    obtain ⟨thread, s₁, hinitial, hok₁⟩ := bind_ok.mp hok₀
    obtain ⟨t', s₂, hinit, hok₂⟩ := bind_ok.mp hok₁
    obtain ⟨_, s₃, hadd, hok₃⟩ := bind_ok.mp hok₂
    obtain ⟨_, s₄, hassign, hok₄⟩ := bind_ok.mp hok₃
    obtain ⟨_, s₅, hself, hok₅⟩ := bind_ok.mp hok₄
    obtain ⟨_, s₆, hprocess, hpure⟩ := bind_ok.mp hok₅
    cases hpure
    cases hinit
    cases hadd
    obtain ⟨a, ha, rfl⟩ := assign_eq_ok.mp hassign
    have hne : s₁.fresh ≠ x := by
      rintro rfl
      cases (Function.update_self s₁.fresh (some (Object.thread thread)) s₁.objects).symm.trans ha
    obtain ⟨-, rfl⟩ := objectAddRef_ok hself
    obtain ⟨-, rfl⟩ := objectAddRef_ok hprocess
    refine ⟨thread, s₁, hinitial, rfl, ⟨.thread thread, ?_⟩, ?_, ?_⟩
    · exact (Function.update_of_ne hne _ _).trans (Function.update_self s₁.fresh _ _)
    · refine (Function.update_of_ne hne _ _).trans ((Function.update_self s₁.fresh _ _).trans ?_)
      exact congrArg (· + 1) (Function.update_self s₁.fresh 1 _)
    · refine (Function.update_self x _ _).trans (congrArg (· + 1) ?_)
      exact (Function.update_of_ne hne.symm _ _).trans (Function.update_of_ne hne.symm _ _)

theorem threadCreate_none {original : Option Nat} (h : threadCreate x original s = .ok (none, s')) :
    s.grants s.requests = false ∧ s' = { s with requests := s.requests + 1 } := by
  rcases request_refused h with ⟨hgrant, -, hs'⟩ | ⟨-, hok⟩
  · exact ⟨hgrant, hs'⟩
  · obtain ⟨_, _, -, hok₀⟩ := bind_ok.mp hok
    obtain ⟨_, s₁, -, hok₁⟩ := bind_ok.mp hok₀
    obtain ⟨_, s₂, -, hok₂⟩ := bind_ok.mp hok₁
    obtain ⟨_, s₃, -, hok₃⟩ := bind_ok.mp hok₂
    obtain ⟨_, s₄, -, hok₄⟩ := bind_ok.mp hok₃
    obtain ⟨_, s₅, -, hok₅⟩ := bind_ok.mp hok₄
    obtain ⟨_, s₆, -, hpure⟩ := bind_ok.mp hok₅
    cases hpure

theorem not_createsNothing (hs : Tidy s) (hfresh : s.fresh ≤ t) {o : Object}
    (ht : s'.objects t = some o) :
    ¬CreatesNothing s s' := by
  intro h
  rw [h.objects, hs.objects t hfresh] at ht
  cases ht

/-- A thread without a handle goes on, since it has a reference on itself. -/
theorem returned_threadCreate (hs : Tidy s)
    (h : returned p (threadCreate x none) s = .ok (false, s')) :
    CreatesNothing s s' ↔ s.grants s.requests = false := by
  rcases returned_false h with hnone | ⟨t, s₁, hsome, hrelease⟩
  · obtain ⟨hgrant, rfl⟩ := threadCreate_none hnone
    exact ⟨fun _ => hgrant, fun _ => createsNothing_refused _⟩
  · obtain ⟨thread, s₂, hinitial, rfl, ⟨o, ho⟩, hcount, -⟩ := threadCreate_some hsome
    have hgrant : s.grants s.requests = true := by
      rcases request_refused hsome with ⟨-, hr, -⟩ | ⟨hgrant, -⟩
      · cases hr
      · exact hgrant
    have hfresh : s.fresh ≤ s₂.fresh :=
      (releasesClosed_onward.initialThread _ _ _ _ _ _ hinitial).fresh
    cases objectRelease_shared (s := { s₁ with requests := s₁.requests + 1 }) hcount.ge hrelease
    rw [hgrant]
    exact iff_of_false (not_createsNothing hs hfresh ho) (by decide)

end

section

variable {s s' : Store} {p t x : Nat} {u : Unit} {handles : List Nat}

theorem recount_self {n : Nat} : (recount s x n).refcount x = n := Function.update_self _ _ _

theorem recount_of_ne {n y : Nat} (hne : y ≠ x) : (recount s x n).refcount y = s.refcount y :=
  Function.update_of_ne hne _ _

/-- The references which the handles of a process are. -/
def share (s : Store) (handles : List Nat) : Store :=
  { s with refcount := fun y => s.refcount y + handles.count y }

theorem forEach_objectAddRef (h : forEach objectAddRef handles s = .ok (u, s')) :
    s' = share s handles ∧ ∀ y ∈ handles, s.objects y ≠ none := by
  induction handles generalizing s with
  | nil =>
      cases h
      exact ⟨rfl, fun y hy => by cases hy⟩
  | cons x handles ih =>
      obtain ⟨_, s₁, hadd, hok⟩ := bind_ok.mp h
      obtain ⟨hx, rfl⟩ := objectAddRef_ok hadd
      obtain ⟨rfl, hlive⟩ := ih hok
      refine ⟨?_, ?_⟩
      · refine congrArg (fun r => { s with refcount := r }) (funext fun y => ?_)
        rcases eq_or_ne y x with rfl | hne
        · rw [recount_self, List.count_cons_self]
          omega
        · rw [recount_of_ne hne, List.count_cons_of_ne hne.symm]
      · intro y hy
        rcases List.mem_cons.mp hy with rfl | hy
        · exact hx
        · exact hlive y hy

/-- References are given back. -/
def unshare (s : Store) (handles : List Nat) : Store :=
  { s with refcount := fun y => s.refcount y - handles.count y }

/-- References which are not the last ones. -/
def Spare (s : Store) (handles : List Nat) : Prop :=
  ∀ y ∈ handles, ∃ o n, s.objects y = some o ∧ s.refcount y = n + handles.count y ∧
    (n = 0 → isSubEvent o = true)

theorem forEach_release {fuel : Nat} (hspare : Spare s handles) :
    forEach (releaseNested (fuel + 1)) handles s =
      .ok ((), unshare s handles) := by
  induction handles generalizing s with
  | nil => rfl
  | cons x handles ih =>
      obtain ⟨o, n, ho, hcount, hn⟩ := hspare x List.mem_cons_self
      rw [List.count_cons_self] at hcount
      have hfirst := releaseNested_kept fuel ho (n := n + handles.count x) (by omega) fun h =>
        hn (by omega)
      refine bind_ok.mpr ⟨(), _, hfirst, ?_⟩
      rw [ih]
      · refine congrArg
          (fun r => (.ok ((), { s with refcount := r }) : Except Objects.Fault (Unit × Store)))
          (funext fun y => ?_)
        rcases eq_or_ne y x with rfl | hne
        · rw [recount_self, List.count_cons_self]
          omega
        · rw [recount_of_ne hne, List.count_cons_of_ne hne.symm]
      · intro y hy
        rcases eq_or_ne y x with rfl | hne
        · exact ⟨o, n, ho, recount_self, hn⟩
        · obtain ⟨o', n', ho', hcount', hn'⟩ := hspare y (List.mem_cons_of_mem x hy)
          rw [List.count_cons_of_ne hne.symm] at hcount'
          exact ⟨o', n', ho', (recount_of_ne hne).trans hcount', hn'⟩

theorem handleTableFree_eq {fuel : Nat} {process : Process}
    (ho : s.objects x = some (.process process))
    (hhandles : process.handles = some handles) (hspare : Spare s handles) :
    handleTableFree (releaseNested (fuel + 1)) x s =
      .ok ((), put (unshare s handles) x (some (.process { process with handles := none }))) := by
  refine bind_ok.mpr ⟨process, s, objectContainer_eq processFunctions ho, ?_⟩
  rw [hhandles]
  refine bind_ok.mpr ⟨(), unshare s handles, forEach_release hspare, ?_⟩
  exact assign_eq processFunctions (s := unshare s handles) ho

/-- A process without threads is destroyed, and its handles are released. -/
theorem objectRelease_process {process : Process} (ho : s.objects x = some (.process process))
    (hthreads : process.threads = []) (hhandles : process.handles = some handles)
    (hcount : s.refcount x = 1)
    (hempty : s.queues (.waiters x) = []) (hx : x ∉ handles) (hspare : Spare s handles) :
    objectRelease x s = .ok ((), freed (unshare s handles) x) := by
  rw [objectRelease, releaseNested_eq ho hcount, if_pos rfl]
  have hne : ∀ y ∈ handles, y ≠ x := fun y hy heq => hx (heq ▸ hy)
  have hspare' : Spare (put (recount s x 0) x (some (.process { process with pages := none })))
    handles := by
    intro y hy
    obtain ⟨o, n, hy', hcount', hn⟩ := hspare y hy
    exact ⟨o, n, (Function.update_of_ne (hne y hy) _ _).trans hy',
      (recount_of_ne (hne y hy)).trans hcount', hn⟩
  refine bind_ok.mpr ⟨_, recount s x 0, getObject_eq ho, ?_⟩
  refine bind_ok.mpr ⟨(), _, assertEmpty_ok hempty, ?_⟩
  refine bind_ok.mpr ⟨(), _, kernelAssert_eq_ok.mpr ⟨hthreads, rfl⟩, ?_⟩
  refine bind_ok.mpr ⟨(), _, assign_eq processFunctions ho, ?_⟩
  refine bind_ok.mpr ⟨(), _, handleTableFree_eq (Function.update_self x _ _) hhandles hspare', ?_⟩
  refine congrArg₂
    (fun o r => (.ok ((), { s with objects := o, refcount := r }) : Except Objects.Fault
    (Unit × Store))) ?_ ?_
  · exact (Function.update_idem _ _ _).trans (Function.update_idem _ _ _)
  · funext y
    rcases eq_or_ne y x with rfl | hy
    · rw [Function.update_self]
      exact (congrArg (· - handles.count y) recount_self).trans (Nat.zero_sub _)
    · rw [Function.update_of_ne hy]
      exact congrArg (· - handles.count y) (recount_of_ne hy)

end

section

variable {s s' : Store} {p t x : Nat} {handles : List Nat}

/-- The process which is forked has new references on everything it has handles of. -/
theorem processCreate_fork {r : Option Nat} (h : processCreate (some p) s = .ok (r, s')) :
    s.grants s.requests = false ∧ r = none ∧ s' = { s with requests := s.requests + 1 } ∨
      s.grants s.requests = true ∧ r = some s.fresh ∧ ∃ pages handles,
        s' = created (share s handles) 1 (.process { pages := pages, handles := some handles }) ∧
          ∀ y ∈ handles, s.objects y ≠ none := by
  rcases request_refused h with ⟨hgrant, hr, hs'⟩ | ⟨hgrant, hok⟩
  · exact .inl ⟨hgrant, hr, hs'⟩
  · obtain ⟨process, s₁, hfork, hok₁⟩ := bind_ok.mp hok
    obtain ⟨original, s₂, hget, hfork₂⟩ := bind_ok.mp hfork
    obtain ⟨-, rfl⟩ := objectContainer_eq_ok.mp hget
    rcases hhandles : original.handles with _ | handles
    · rw [hhandles] at hfork₂
      cases hfork₂
    · rw [hhandles] at hfork₂
      obtain ⟨_, s₃, hadd, hpure⟩ := bind_ok.mp hfork₂
      obtain ⟨rfl, hlive⟩ := forEach_objectAddRef hadd
      cases hpure
      cases hok₁
      exact .inr ⟨hgrant, rfl, original.pages, handles, rfl, hlive⟩

/-- A process for which there is no thread is destroyed. -/
theorem createsNothing_process (hs : Settled s) {pages : Option Pages}
    (hlive : ∀ y ∈ handles, s.objects y ≠ none)
    {n : Nat} {u : Unit} (h : objectRelease s.fresh { created (share s handles) 1
      (.process { pages := pages, handles := some handles }) with requests := n } = .ok (u, s')) :
    CreatesNothing s s' := by
  have hne : ∀ y, s.objects y ≠ none → y ≠ s.fresh := by
    rintro y hy rfl
    exact hy (hs.tidy.objects _ le_rfl)
  have hspare :
    Spare { created (share s handles) 1 (.process { pages := pages, handles := some handles })
      with requests := n } handles := by
    intro y hy
    obtain ⟨o, ho⟩ := Option.ne_none_iff_exists'.mp (hlive y hy)
    refine ⟨o, s.refcount y, ?_, ?_, fun hzero => ?_⟩
    · exact (Function.update_of_ne (hne y (hlive y hy)) _ _).trans ho
    · exact Function.update_of_ne (hne y (hlive y hy)) _ _
    · exact Bool.of_not_eq_false fun hsub => hs.counted y ⟨hzero, o, ho, hsub⟩
  have hfreed := objectRelease_process (s := { created (share s handles) 1
    (.process { pages := pages, handles := some handles }) with requests := n })
      (Function.update_self s.fresh _ _) rfl rfl
    (Function.update_self s.fresh _ _) (hs.tidy.queues (.waiters s.fresh) _ rfl le_rfl)
    (fun hmem => hlive _ hmem (hs.tidy.objects _ le_rfl)) hspare
  cases h.symm.trans hfreed
  refine ⟨?_, fun y hy => ?_, rfl, rfl⟩
  · refine (Function.update_idem _ _ _).trans (Function.update_eq_self_iff.mpr ?_)
    exact (hs.tidy.objects _ le_rfl).symm
  · refine (Function.update_of_ne (hne y hy) _ _).trans ?_
    refine (congrArg (· - handles.count y) (Function.update_of_ne (hne y hy) _ _)).trans ?_
    exact Nat.add_sub_cancel _ _

theorem threadForked_false {newP : Nat} (h : threadForked t p newP s = .ok (false, s')) :
    s.grants s.requests = false ∧ s' = { s with requests := s.requests + 1 } ∨
      s.grants s.requests = true ∧ ∃ newT s₁, threadCreate newP (some t) s = .ok (some newT, s₁) ∧
        objectRelease newT { s₁ with requests := s₁.requests + 1 } = .ok ((), s') := by
  obtain ⟨r, s₁, hcreate, hok⟩ := bind_ok.mp h
  rcases r with _ | newT
  · cases hok
    exact .inl (threadCreate_none hcreate)
  · obtain ⟨r, s₂, hallocate, hok₂⟩ := bind_ok.mp hok
    obtain ⟨_, s₃, hrelease, hpure⟩ := bind_ok.mp hok₂
    cases hpure
    rw [handleAllocated_false hallocate] at hrelease
    rcases request_refused hcreate with ⟨-, hr, -⟩ | ⟨hgrant, -⟩
    · cases hr
    · exact .inr ⟨hgrant, newT, s₁, hcreate, hrelease⟩

theorem forkedThread_ok {new original : Nat} {thread : Thread}
    (h : forkedThread x original new s = .ok (thread, s')) :
    s'.fresh = s.fresh ∧ s'.refcount = s.refcount := by
  obtain ⟨_, s₁, hget, hok₁⟩ := bind_ok.mp h
  obtain ⟨-, rfl⟩ := objectContainer_eq_ok.mp hget
  obtain ⟨_, s₂, hassert, hok₂⟩ := bind_ok.mp hok₁
  obtain ⟨-, rfl⟩ := kernelAssert_eq_ok.mp hassert
  obtain ⟨_, s₃, hassign, hpure⟩ := bind_ok.mp hok₂
  obtain ⟨_, -, rfl⟩ := assign_eq_ok.mp hassign
  cases hpure
  exact ⟨rfl, rfl⟩

/-- A thread in a process without a handle keeps both of them. -/
theorem forked_false (hs : Settled s) (h : forked t p s = .ok (false, s')) :
    CreatesNothing s s' ↔ ¬(s.grants s.requests = true ∧ s.grants (s.requests + 1) = true) := by
  obtain ⟨r, s₁, hcreate, hok⟩ := bind_ok.mp h
  rcases processCreate_fork hcreate with ⟨hgrant, rfl, rfl⟩ | ⟨hgrant, rfl, pages, handles,
    rfl, hlive⟩
  · cases hok
    rw [hgrant]
    exact iff_of_true (createsNothing_refused _) (by simp)
  · obtain ⟨r, s₂, hthread, hok₂⟩ := bind_ok.mp hok
    obtain ⟨_, s₃, hrelease, hpure⟩ := bind_ok.mp hok₂
    cases hpure
    rcases threadForked_false hthread with ⟨hrefused, rfl⟩ | ⟨hgrant', newT, s₄, hnew, hreleaseT⟩
    · refine iff_of_true (createsNothing_process hs hlive hrelease) ?_
      rintro ⟨-, hgrant'⟩
      cases hgrant'.symm.trans hrefused
    · refine iff_of_false ?_ (not_not.mpr ⟨hgrant, hgrant'⟩)
      obtain ⟨thread, s₅, hinitial, rfl, ⟨o, ho⟩, hcount, hcountP⟩ := threadCreate_some hnew
      obtain ⟨hfresh, hrefcount⟩ := forkedThread_ok hinitial
      have hfresh : s₅.fresh = s.fresh + 1 := hfresh
      cases objectRelease_shared (s := { s₄ with requests := s₄.requests + 1 }) hcount.ge hreleaseT
      have hcountP : s₄.refcount s.fresh = 2 := by
        rw [hcountP, hrefcount]
        exact congrArg (· + 1) (Function.update_self s.fresh 1 _)
      have hne : s.fresh ≠ s₅.fresh := by omega
      have hshared :
        (recount { s₄ with requests := s₄.requests + 1 } s₅.fresh
        (s₄.refcount s₅.fresh - 1)).refcount
          s.fresh = 2 := (recount_of_ne hne).trans hcountP
      cases objectRelease_shared hshared.ge hrelease
      exact not_createsNothing hs.tidy (by omega) ho

end

section

variable {s s' s₀ : Store} {is : List Input} {t : Nat} {c : Creation}

/-- The memory for a thread is there. -/
def StartsThread (s : Store) : Creation → Prop
  | .fork => s.grants s.requests = true ∧ s.grants (s.requests + 1) = true
  | .createThread => s.grants s.requests = true
  | _ => False

theorem performed_false {p : Nat} (hs : Settled s) (h : performed t p c s = .ok (false, s')) :
    CreatesNothing s s' ↔ ¬StartsThread s c := by
  cases c with
  | fork => exact forked_false hs h
  | createThread => exact (returned_threadCreate hs.tidy h).trans (Bool.not_eq_true _).to_iff.symm
  | createEvent wakeupAll =>
      have hidle : Idle (.event { wakeupAll := wakeupAll }) := rfl
      exact iff_of_true (createsNothing_objectCreate hs.tidy hidle h) id
  | createSemaphore value =>
      have hidle : Idle (.semaphore (value % WORD)) := trivial
      exact iff_of_true (createsNothing_objectCreate hs.tidy hidle h) id
  | createPipe => exact iff_of_true (createsNothing_pipeCreate hs.tidy h) id
  | createTimer wakeupAll =>
      have hidle : Idle (.timer { wakeupAll := wakeupAll }) := rfl
      exact iff_of_true (createsNothing_objectCreate hs.tidy hidle h) id

theorem called_false (h : called t c s = .ok (false, s')) :
    ∃ p, running s t = some p ∧ performed t p c s = .ok (false, s') := by
  obtain ⟨_, _, hread, hok⟩ := bind_ok.mp h
  cases hread
  rcases hrunning : running s t with _ | p
  · rw [hrunning] at hok
    cases hok
  · rw [hrunning] at hok
    obtain ⟨handles, s₁, hget, hok₁⟩ := bind_ok.mp hok
    obtain ⟨-, rfl⟩ := Lives.getHandles_eq_ok hget
    exact ⟨p, rfl, hok₁⟩

end

section

/-! A process which has as many handles as there can be. -/

def addHandles (x n : Nat) : Object → Object
  | .process process =>
      .process { process with handles := process.handles.map (· ++ List.replicate n x) }
  | o => o

/-- The object `x` was duplicated `n` times. -/
def duplicated (s : Store) (p x n : Nat) : Store := { s with
  objects := Function.update s.objects p ((s.objects p).map (addHandles x n))
  refcount := Function.update s.refcount x (s.refcount x + n)
  requests := s.requests + n }

variable {s : Store} {t p x n : Nat}

/-- A thread of a process which can make calls with a handle of `x`. -/
structure Calls (s : Store) (t p x : Nat) : Prop where
  running : running s t = some p
  process : ∃ process handles, s.objects p = some (.process process) ∧
    process.handles = some handles ∧ x ∈ handles
  object : x ≠ p ∧ ∃ o, s.objects x = some o

def handlesOf (s : Store) (p : Nat) : Option (List Nat) :=
  ((s.objects p).bind processFunctions.part).bind (·.handles)

theorem handlesOf_duplicated (s : Store) (p x n : Nat) :
    handlesOf (duplicated s p x n) p = (handlesOf s p).map (· ++ List.replicate n x) := by
  have hp : (duplicated s p x n).objects p = (s.objects p).map (addHandles x n) :=
    Function.update_self p _ _
  rw [handlesOf, handlesOf, hp]
  rcases s.objects p with _ | o
  · rfl
  · cases o with
    | process process => rfl
    | _ => rfl

theorem duplicated_zero (s : Store) (p x : Nat) : duplicated s p x 0 = s := by
  have hid : addHandles x 0 = id := by
    funext o
    cases o with
    | process process => simp [addHandles]
    | _ => rfl
  simp [duplicated, hid]

theorem step_duplicated (hcalls : Calls s t p x) (hgrant : s.grants (s.requests + n) = true) :
    Syscalls.step (duplicated s p x n) (.call t (.dup x)) = .ok (duplicated s p x (n + 1), ()) := by
  obtain ⟨process, handles, hp, hhandles, hx⟩ := hcalls.process
  obtain ⟨hne, o, ho⟩ := hcalls.object
  have hp' : (duplicated s p x n).objects p =
      some (.process { process with handles := some (handles ++ List.replicate n x) }) := by
    refine (Function.update_self p _ _).trans ?_
    rw [hp, Option.map_some, addHandles, hhandles]
    rfl
  have hget : ∀ m, getHandles p { duplicated s p x n with requests := m } =
      .ok (handles ++ List.replicate n x, { duplicated s p x n with requests := m }) := by
    intro m
    exact bind_ok.mpr ⟨_, _, objectContainer_eq processFunctions hp', rfl⟩
  have htp : t ≠ p := by
    rintro rfl
    have hrunning := hcalls.running
    rw [running, hp] at hrunning
    cases hrunning
  have hrunning : running (duplicated s p x n) t = some p := by
    have ht : (duplicated s p x n).objects t = s.objects t := Function.update_of_ne htp _ _
    rw [running, ht]
    exact hcalls.running
  have hallocate : handleAllocate p x (duplicated s p x n) =
    .ok ((), duplicated s p x (n + 1)) := by
    refine bind_ok.mpr ⟨true, { duplicated s p x n with requests := s.requests + (n + 1) }, ?_, ?_⟩
    · exact congrArg
        (fun b => Except.ok (b, { duplicated s p x n with requests := s.requests + (n + 1) }))
        hgrant
    · rw [if_pos rfl]
      refine bind_ok.mpr ⟨_, _, hget _, ?_⟩
      refine bind_ok.mpr ⟨(), _, objectAddRef_eq ((Function.update_of_ne hne _ _).trans ho), ?_⟩
      refine bind_ok.mpr ⟨_, _, objectContainer_eq processFunctions hp', ?_⟩
      refine congrArg₂
        (fun o r => (.ok
        ((), { s with objects := o, refcount := r, requests := s.requests + (n + 1) }) :
        Except Objects.Fault (Unit × Store))) ?_ ?_
      · refine (Function.update_idem _ _ _).trans (congrArg (Function.update s.objects p) ?_)
        rw [hp, Option.map_some, addHandles, hhandles, Option.map_some, List.replicate_succ',
          List.append_assoc]
        rfl
      · refine (Function.update_idem _ _ _).trans (congrArg (Function.update s.refcount x) ?_)
        exact congrArg (· + 1) (Function.update_self x _ _)
  have hhandle : handle (.call t (.dup x)) (duplicated s p x n) =
    .ok ((), duplicated s p x (n + 1)) := by
    refine bind_ok.mpr ⟨_, _, rfl, ?_⟩
    rw [hrunning]
    refine bind_ok.mpr ⟨_, _, hget _, ?_⟩
    rw [perform, if_pos (List.mem_append_left _ hx)]
    exact hallocate
  rw [Syscalls.step, hhandle]
  rfl

theorem reaches_duplicated (hcalls : Calls s t p x)
    (hgrants : ∀ i < n, s.grants (s.requests + i) = true) :
    Reaches s (List.replicate n (.call t (.dup x))) (duplicated s p x n) := by
  induction n with
  | zero =>
      rw [duplicated_zero]
      exact ⟨[], rfl⟩
  | succ n ih =>
      obtain ⟨os, hrun⟩ := ih fun i hi => hgrants i (Nat.lt_succ_of_lt hi)
      have hstep := step_duplicated hcalls (hgrants n (Nat.lt_succ_self n))
      have hlast : Runs.run Syscalls.step (duplicated s p x n) [.call t (.dup x)] =
          .ok (duplicated s p x (n + 1), [()]) := by
        rw [Runs.run, hstep]
        rfl
      rw [List.replicate_succ']
      exact ⟨_, Runs.run_append hrun hlast⟩

end

section

/-- What is granted is decided once and for all. -/
def SameGrants (s s' : Store) : Prop := s'.grants = s.grants

theorem objectsClosed_grants : ObjectsClosed fun _ m => Keeps SameGrants m where
  pure := keeps_pure fun _ => rfl
  throw := keeps_throw
  bind := Keeps.bind fun _ _ _ h h' => h'.trans h
  get := keeps_get fun _ => rfl
  request := by
    rintro s _ _ ⟨⟩
    rfl
  getObject x s o s' h := by
    obtain ⟨-, rfl⟩ := getObject_eq_ok.mp h
    rfl
  assign functions x f _ s u s' h := by
    obtain ⟨a, -, rfl⟩ := assign_eq_ok.mp h
    rfl
  heapFree _ := keeps_modify fun _ => rfl
  objectInit o := by
    rintro s _ _ ⟨⟩
    rfl
  objectAddRef x s u s' h := by
    obtain ⟨-, rfl⟩ := objectAddRef_ok h
    rfl
  llRemove x s q s' h := by
    rw [llRemove] at h
    split at h
    · cases h
    · cases h
      rfl
  llInsertThread _ _ := keeps_modify fun _ => rfl
  llInsertTimer _ _ := keeps_modify fun _ => rfl
  setLog _ := keeps_modify fun _ => rfl
  setUnmaps _ := keeps_modify fun _ => rfl
  setTimestamp _ := keeps_modify fun _ => rfl
  setStdin _ := keeps_modify fun _ => rfl

theorem releasesClosed_grants : ReleasesClosed fun _ m => Keeps SameGrants m where
  toObjectsClosed := objectsClosed_grants
  threadWait := objectsClosed_grants.threadWait fun _ _ _ => keeps_modify fun _ => rfl
  releaseWith hrelease x := by
    refine objectsClosed_grants.bind (objectsClosed_grants.getObject x) fun _ => ?_
    refine objectsClosed_grants.bind (keeps_modify fun _ => rfl) fun _ => ?_
    refine objectsClosed_grants.bind objectsClosed_grants.get fun _ => ?_
    exact keeps_ite (objectsClosed_grants.objectDestroy hrelease x) (objectsClosed_grants.pure _)

theorem boot_grants {grants : Nat → Bool} {data : Nat → Nat → UInt8} {load : Pages → Option Pages}
    {s : Store}
    {u : Unit} (h : boot grants data load = .ok (s, u)) : s.grants = grants := by
  obtain ⟨⟨_, s₁⟩, hmain, hpure⟩ := Runs.bind_eq_ok.mp h
  cases hpure
  exact releasesClosed_grants.kernelMain load _ _ _ hmain

end

section

variable {s s' s₀ : Store} {is : List Input} {t : Nat} {c : Creation}

/-- A call which fails leaves nothing behind, unless it has started a thread. -/
theorem creation_failure_iff (hboot : Booted s₀) (hreaches : Reaches s₀ is s)
    (h : called t c s = .ok (false, s')) : CreatesNothing s s' ↔ ¬StartsThread s c := by
  obtain ⟨p, -, hperformed⟩ := called_false h
  exact performed_false (settled_of_reaches hboot hreaches) hperformed

/-- Memory is there, but there are only so many handles. -/
def limitedGrants : Nat → Bool := fun i => i != 5 + 65533 + 1

def limitedStore : Store :=
  reached (emptyStore limitedGrants fun _ _ => 0) (boot limitedGrants (fun _ _ => 0) some)

theorem boot_limitedStore : ∃ u, boot limitedGrants (fun _ _ => 0) some = .ok (limitedStore, u) :=
  eq_ok_reached (by decide +kernel)

theorem booted_limitedStore :
    Booted limitedStore := ⟨limitedGrants, fun _ _ => 0, some, boot_limitedStore⟩

/-- The first process has a handle of the standard input and two of the standard output. -/
theorem limitedStore_handles : handlesOf limitedStore 2 = some [1, 0, 0] := by decide +kernel

theorem calls_limitedStore : Calls limitedStore 3 2 0 := by
  obtain ⟨process, hprocess, hhandles⟩ := Option.bind_eq_some_iff.mp limitedStore_handles
  obtain ⟨o, ho, hpart⟩ := Option.bind_eq_some_iff.mp hprocess
  cases processFunctions.part_eq.mp hpart
  refine ⟨by decide +kernel, ⟨process, [1, 0, 0], ho, hhandles, by decide⟩, by decide, ?_⟩
  exact Option.isSome_iff_exists.mp (by decide +kernel)

def fullStore : Store := duplicated limitedStore 2 0 65533

theorem reaches_fullStore :
    Reaches limitedStore (List.replicate 65533 (.call 3 (.dup 0))) fullStore := by
  refine reaches_duplicated calls_limitedStore fun i hi => ?_
  have hrequests : limitedStore.requests = 5 := by decide +kernel
  obtain ⟨u, hboot⟩ := boot_limitedStore
  have hgrants := boot_grants hboot
  rw [hrequests, hgrants, limitedGrants, bne_iff_ne]
  omega

theorem called_of_fst {c : Creation}
    (h : (called 3 c fullStore).toOption.map Prod.fst = some false) :
    ∃ s', called 3 c fullStore = .ok (false, s') := by
  obtain ⟨⟨b, s'⟩, hok, rfl⟩ := Option.map_eq_some_iff.mp h
  exact ⟨s', Runs.toOption_eq_some hok⟩

/-- The event for which there is no handle is gone. -/
theorem creation_failure_event : ∃ s', called 3 (.createEvent true) fullStore = .ok (false, s') ∧
    CreatesNothing fullStore s' := by
  obtain ⟨s', h⟩ := called_of_fst (c := .createEvent true) (by decide +kernel)
  exact ⟨s', h, (creation_failure_iff booted_limitedStore reaches_fullStore h).mpr id⟩

/-- The thread for which there is no handle is still there. -/
theorem creation_failure_thread : Booted limitedStore ∧
    Reaches limitedStore (List.replicate 65533 (.call 3 (.dup 0))) fullStore ∧
    (handlesOf fullStore 2).map List.length = some 0x10000 ∧
    ∃ s', called 3 .createThread fullStore = .ok (false, s') ∧ ¬CreatesNothing fullStore s' := by
  obtain ⟨s', h⟩ := called_of_fst (c := .createThread) (by decide +kernel)
  obtain ⟨p, -, hperformed⟩ := called_false h
  have hs := settled_of_reaches booted_limitedStore reaches_fullStore
  have hstarts : fullStore.grants fullStore.requests = true := by decide +kernel
  refine ⟨booted_limitedStore, reaches_fullStore, ?_, s', h, ?_⟩
  · rw [fullStore, handlesOf_duplicated, limitedStore_handles, Option.map_some, Option.map_some,
      List.length_append, List.length_replicate]
    rfl
  · exact fun hnothing => (performed_false hs hperformed).mp hnothing hstarts

end

end Ibnos.CreationFailures
