import Ibnos.ObjectStores
import Ibnos.Syscalls
import Mathlib.Data.Finset.Card
import Mathlib.Data.List.Nodup
import Mathlib.Logic.Relation

/-!
Waking the objects in a queue. A subEvent which is signalled wakes the queue of its event
in its turn, while the queue it was taken from is still walked through.
-/

namespace Ibnos.QueueWakeups

open Ibnos.Lifetimes
open Ibnos.Objects
open Ibnos.ObjectStores
open Ibnos.Programs
open Ibnos.Syscalls

/-- An object is taken out of the queue with a result, by the call itself or through the
event of the subEvent `source`. -/
structure Signal where
  object : Nat
  queue : Queue
  result : Result
  source : Option Nat
  deriving DecidableEq, Repr

def unlink (s : Store) (x : Nat) (q : Queue) : Store :=
  { s with
    queues := Function.update s.queues q ((s.queues q).erase x)
    home := Function.update s.home x none }

def setStatus (s : Store) (x : Nat) (r : Result) : Store :=
  match s.objects x with
  | some (.event e) => put s x (some (.event { e with status := r }))
  | _ => s

/-- What becomes of an object which is signalled. A thread can run again. -/
def deliver (s : Store) (d : Signal) : Store :=
  match s.objects d.object with
  | some (.thread t) =>
      let s' := unlink (put s d.object (some (.thread { t with blocked := false, eax := d.result })))
        d.object d.queue
      { s' with
        queues := Function.update s'.queues .threadList (s'.queues .threadList ++ [d.object])
        home := Function.update s'.home d.object (some .threadList)
        log := ⟨d.object, d.queue.owner, d.result⟩ :: s'.log }
  | some (.subEvent z) =>
      setStatus (unlink (put s d.object (some (.subEvent { z with blocked := false })))
        d.object d.queue)
        z.event d.result
  | _ => s

/-- Whoever signals `w` signals the event `x`. -/
def Edge (s : Store) (w x : Nat) : Prop :=
  ∃ y z, s.objects y = some (.subEvent z) ∧ z.wait = w ∧ z.event = x

/-- An object which waits for `w`: a blocked thread, or a subEvent which is on `w`. -/
inductive Queued (s : Store) (w x : Nat) : Prop
  | thread (t : Thread) (hx : s.objects x = some (.thread t)) (hprocess : t.process ≠ none)
      (hb : t.blocked = true)
  | subEvent (z : SubEvent) (e : Event) (hx : s.objects x = some (.subEvent z))
      (hb : z.blocked = true) (hwait : z.wait = w) (he : s.objects z.event = some (.event e))

/-- The blocked threads and subEvents are in the wait queues, each in one of them. No event
is attached to itself, not even through others. -/
structure Distributed (s : Store) : Prop where
  live : ∀ x e, s.objects x = some (.event e) → x < s.fresh
  home : ∀ q w x, q.owner = some w → x ∈ s.queues q → s.home x = some q
  nodup : ∀ q w, q.owner = some w → (s.queues q).Nodup
  queued : ∀ q w x, q.owner = some w → x ∈ s.queues q → Queued s w x
  acyclic : ∀ x, ¬Relation.TransGen (Edge s) x x

/-- An object without what a signal may change. -/
def shape : Object → Object
  | .thread t => .thread { t with blocked := false, eax := .value 0 }
  | .event e => .event { e with status := .value 0 }
  | .subEvent z => .subEvent { z with blocked := false }
  | o => o

/-- Two states which differ in nothing that decides who is attached to whom. -/
structure Alike (s s' : Store) : Prop where
  fresh : s'.fresh = s.fresh
  shapes : ∀ x, (s'.objects x).map shape = (s.objects x).map shape

section

variable {s s' s'' : Store} {x w w' : Nat} {q : Queue} {o o' : Object}

theorem Alike.refl (s : Store) : Alike s s := ⟨rfl, fun _ => rfl⟩

theorem Alike.symm (h : Alike s s') : Alike s' s := ⟨h.fresh.symm, fun x => (h.shapes x).symm⟩

theorem Alike.trans (h : Alike s s') (h' : Alike s' s'') : Alike s s'' :=
  ⟨h'.fresh.trans h.fresh, fun x => (h'.shapes x).trans (h.shapes x)⟩

theorem Alike.put (h : Alike s s') (ho : s'.objects x = some o) (hshape : shape o' = shape o) :
    Alike s (put s' x (some o')) := by
  refine h.trans ⟨rfl, fun y => ?_⟩
  rw [objects_put]
  by_cases hyx : y = x
  · subst hyx
    rw [Function.update_self, ho, Option.map_some, Option.map_some, hshape]
  · rw [Function.update_of_ne hyx]

theorem Alike.object (h : Alike s s') (ho : s'.objects x = some o') :
    ∃ o, s.objects x = some o ∧ shape o = shape o' := by
  have hshape := h.shapes x
  rw [ho, Option.map_some] at hshape
  exact Option.map_eq_some_iff.mp hshape.symm

theorem Alike.subEvent (h : Alike s s') {z' : SubEvent} (hx : s'.objects x = some (.subEvent z')) :
    ∃ z, s.objects x = some (.subEvent z) ∧ z.wait = z'.wait ∧ z.event = z'.event ∧
      z.identifier = z'.identifier := by
  obtain ⟨o, ho, hshape⟩ := h.object hx
  cases o with
  | subEvent z =>
      cases z
      simp only [shape, Object.subEvent.injEq, SubEvent.mk.injEq] at hshape
      exact ⟨_, ho, hshape.2.2.1, hshape.2.1, hshape.2.2.2.2⟩
  | _ => cases hshape

theorem Alike.event (h : Alike s s') {e' : Event} (hx : s'.objects x = some (.event e')) :
    ∃ e, s.objects x = some (.event e) ∧ e.wakeupAll = e'.wakeupAll := by
  obtain ⟨o, ho, hshape⟩ := h.object hx
  cases o with
  | event e =>
      simp only [shape, Object.event.injEq, Event.mk.injEq] at hshape
      exact ⟨e, ho, hshape.2.2⟩
  | _ => cases hshape

theorem Alike.thread (h : Alike s s') {t' : Thread} (hx : s'.objects x = some (.thread t')) :
    ∃ t, s.objects x = some (.thread t) := by
  obtain ⟨o, ho, hshape⟩ := h.object hx
  cases o with
  | thread t => exact ⟨t, ho⟩
  | _ => cases hshape

theorem Alike.edge (h : Alike s s') (hedge : Edge s' w x) : Edge s w x := by
  obtain ⟨y, z', hy, rfl, rfl⟩ := hedge
  obtain ⟨z, hz, hwait, hevent, -⟩ := h.subEvent hy
  exact ⟨y, z, hz, hwait, hevent⟩

/-- Whoever signals `w` signals the event `x`, at least through other events. -/
abbrev Leads (s : Store) (w x : Nat) : Prop := Relation.TransGen (Edge s) w x

theorem Alike.leads (h : Alike s s') (hleads : Leads s' w x) : Leads s w x :=
  Relation.TransGen.mono (fun _ _ => h.edge) _ _ hleads

end

/-- What a signal does to an object in a queue. -/
structure Delivered (s : Store) (d : Signal) (s' : Store) : Prop where
  alike : Alike s s'
  queues : ∀ q w, q.owner = some w →
    s'.queues q = if q = d.queue then (s.queues q).erase d.object else s.queues q
  objects : ∀ x, x ≠ d.object → (∀ e, s.objects x ≠ some (.event e)) → s'.objects x = s.objects x
  home : ∀ x, x ≠ d.object → s'.home x = s.home x

section

variable {s s' : Store} {d : Signal} {w x : Nat} {q : Queue} {T T' : List Signal}

theorem owner_ne_threadList (h : q.owner = some w) : q ≠ .threadList := by
  rintro rfl
  cases h

theorem deliver_thread {t : Thread} (hx : s.objects d.object = some (.thread t)) :
    Delivered s d (deliver s d) := by
  rw [deliver, hx]
  refine ⟨?_, fun q w hq => ?_, fun x hne _ => ?_, fun x hne => ?_⟩
  · have hput :
      Alike s (put s d.object (some (.thread { t with blocked := false, eax := d.result }))) :=
      (Alike.refl s).put hx rfl
    exact ⟨hput.fresh, hput.shapes⟩
  · change Function.update (Function.update s.queues d.queue _) .threadList _ q = _
    rw [Function.update_of_ne (owner_ne_threadList hq), Function.update_apply]
    split_ifs with hqd
    · rw [hqd]
      rfl
    · rfl
  · exact Function.update_of_ne hne ..
  · change Function.update (Function.update s.home d.object none) d.object _ x = _
    rw [Function.update_of_ne hne, Function.update_of_ne hne]

theorem deliver_subEvent {z : SubEvent} {e : Event} (hx : s.objects d.object = some (.subEvent z))
    (he : s.objects z.event = some (.event e)) :
    deliver s d = put (unlink (put s d.object (some (.subEvent { z with blocked := false })))
      d.object d.queue) z.event (some (.event { e with status := d.result })) := by
  have hne : z.event ≠ d.object := by
    intro heq
    rw [heq] at he
    cases hx.symm.trans he
  have he' : (unlink (put s d.object (some (.subEvent { z with blocked := false })))
      d.object d.queue).objects z.event = some (.event e) := (Function.update_of_ne hne ..).trans he
  rw [deliver, hx]
  simp only [setStatus, he']

theorem delivered_subEvent {z : SubEvent} {e : Event} (hx : s.objects d.object = some (.subEvent z))
    (he : s.objects z.event = some (.event e)) : Delivered s d (deliver s d) := by
  have hne : z.event ≠ d.object := by
    intro heq
    rw [heq] at he
    cases hx.symm.trans he
  rw [deliver_subEvent hx he]
  refine ⟨?_, fun q w hq => ?_, fun x hxd hevent => ?_, fun x hxd => ?_⟩
  · have hput : Alike s (put s d.object (some (.subEvent { z with blocked := false }))) :=
      (Alike.refl s).put hx rfl
    have hunlink : Alike s (unlink (put s d.object (some (.subEvent { z with blocked := false })))
        d.object d.queue) := ⟨hput.fresh, hput.shapes⟩
    exact hunlink.put ((Function.update_of_ne hne ..).trans he) rfl
  · change Function.update s.queues d.queue _ q = _
    rw [Function.update_apply]
    split_ifs with hqd
    · rw [hqd]
      rfl
    · rfl
  · have hxe : x ≠ z.event := by
      rintro rfl
      exact hevent e he
    change Function.update (Function.update s.objects d.object _) z.event _ x = _
    rw [Function.update_of_ne hxe, Function.update_of_ne hxd]
  · exact Function.update_of_ne hxd ..

/-- The object is in its queue. -/
def Waits (s : Store) (d : Signal) : Prop := d.queue.owner ≠ none ∧ d.object ∈ s.queues d.queue

theorem Distributed.delivered (hs : Distributed s) (hd : Waits s d) :
    Delivered s d (deliver s d) := by
  obtain ⟨w, hw⟩ := Option.ne_none_iff_exists'.mp hd.1
  cases hs.queued d.queue w d.object hw hd.2 with
  | thread t hx _ _ => exact deliver_thread hx
  | subEvent z e hx _ _ he => exact delivered_subEvent hx he

theorem Delivered.mem (h : Delivered s d s') (hq : q.owner = some w) (hx : x ∈ s'.queues q) :
    x ∈ s.queues q := by
  rw [h.queues q w hq] at hx
  split_ifs at hx
  · exact List.mem_of_mem_erase hx
  · exact hx

/-- The object which was signalled is in no wait queue anymore. -/
theorem Distributed.not_mem (hs : Distributed s) (hd : Waits s d) (hq : q.owner = some w)
    (hx : x ∈ (deliver s d).queues q) : x ≠ d.object := by
  rintro rfl
  have hdelivered := hs.delivered hd
  obtain ⟨w', hw'⟩ := Option.ne_none_iff_exists'.mp hd.1
  have hqd : q = d.queue := by
    have hhome := hs.home q w _ hq (hdelivered.mem hq hx)
    rw [hs.home d.queue w' _ hw' hd.2] at hhome
    exact (Option.some.inj hhome).symm
  subst hqd
  rw [hdelivered.queues _ w hq, if_pos rfl] at hx
  exact (hs.nodup _ w hq).not_mem_erase hx

theorem distributed_deliver (hs : Distributed s) (hd : Waits s d) : Distributed (deliver s d) := by
  have h := hs.delivered hd
  constructor
  · intro x e he
    obtain ⟨e', he', -⟩ := h.alike.event he
    rw [h.alike.fresh]
    exact hs.live x e' he'
  · intro q w x hq hx
    rw [h.home x (hs.not_mem hd hq hx)]
    exact hs.home q w x hq (h.mem hq hx)
  · intro q w hq
    rw [h.queues q w hq]
    split_ifs
    · exact (hs.nodup q w hq).erase _
    · exact hs.nodup q w hq
  · intro q w x hq hx
    have hne := hs.not_mem hd hq hx
    cases hs.queued q w x hq (h.mem hq hx) with
    | thread t ht hprocess hb =>
        refine .thread t ?_ hprocess hb
        rw [h.objects x hne (by simp [ht]), ht]
    | subEvent z e hz hb hwait he =>
        obtain ⟨e', he', -⟩ := h.alike.symm.event he
        refine .subEvent z e' ?_ hb hwait he'
        rw [h.objects x hne (by simp [hz]), hz]
  · intro x hcycle
    exact hs.acyclic x (h.alike.leads hcycle)

/-- Every object is in its queue when it is signalled. -/
def Legal : Store → List Signal → Prop
  | _, [] => True
  | s, d :: T => Waits s d ∧ Legal (deliver s d) T

theorem legal_append : Legal s (T ++ T') ↔ Legal s T ∧ Legal (T.foldl deliver s) T' := by
  induction T generalizing s with
  | nil => simp [Legal]
  | cons d T ih =>
      rw [List.cons_append, Legal, Legal, ih, and_assoc]
      rfl

theorem distributed_run (hs : Distributed s) (hT : Legal s T) :
    Distributed (T.foldl deliver s) := by
  induction T generalizing s with
  | nil => exact hs
  | cons d T ih => exact ih (distributed_deliver hs hT.1) hT.2

theorem alike_run (hs : Distributed s) (hT : Legal s T) : Alike s (T.foldl deliver s) := by
  induction T generalizing s with
  | nil => exact .refl s
  | cons d T ih => exact (hs.delivered hT.1).alike.trans (ih (distributed_deliver hs hT.1) hT.2)

/-- A wait queue loses the objects which are signalled in it. -/
theorem mem_run (hs : Distributed s) (hT : Legal s T) (hq : q.owner = some w) :
    x ∈ (T.foldl deliver s).queues q ↔ x ∈ s.queues q ∧ x ∉ T.map Signal.object := by
  induction T generalizing s with
  | nil => simp
  | cons d T ih =>
      have hd := hs.delivered hT.1
      rw [List.foldl_cons, ih (distributed_deliver hs hT.1) hT.2, List.map_cons,
        List.mem_cons, not_or]
      constructor
      · rintro ⟨hx, hnot⟩
        exact ⟨hd.mem hq hx, hs.not_mem hT.1 hq hx, hnot⟩
      · rintro ⟨hx, hne, hnot⟩
        refine ⟨?_, hnot⟩
        rw [hd.queues q w hq]
        split_ifs
        · exact (List.mem_erase_of_ne hne).mpr hx
        · exact hx

/-- A wait queue in which nobody is signalled does not change. -/
theorem queues_run (hs : Distributed s) (hT : Legal s T) (hq : q.owner = some w)
    (hnot : ∀ d ∈ T, d.queue ≠ q) : (T.foldl deliver s).queues q = s.queues q := by
  induction T generalizing s with
  | nil => rfl
  | cons d T ih =>
      have hd := hs.delivered hT.1
      rw [List.foldl_cons, ih (distributed_deliver hs hT.1) hT.2 fun d' hd' =>
        hnot d' (by simp [hd']),
        hd.queues q w hq, if_neg (Ne.symm (hnot d (by simp)))]

theorem mem_queue (hs : Distributed s) (hT : Legal s T) (hd : d ∈ T) :
    d.object ∈ s.queues d.queue := by
  obtain ⟨T₀, T₁, rfl⟩ := List.append_of_mem hd
  rw [legal_append] at hT
  obtain ⟨w, hw⟩ := Option.ne_none_iff_exists'.mp hT.2.1.1
  exact ((mem_run hs hT.1 hw).mp hT.2.1.2).1

theorem nodup_run (hs : Distributed s) (hT : Legal s T) : (T.map Signal.object).Nodup := by
  induction T generalizing s with
  | nil => exact List.nodup_nil
  | cons d T ih =>
      rw [List.map_cons, List.nodup_cons]
      refine ⟨fun hmem => ?_, ih (distributed_deliver hs hT.1) hT.2⟩
      obtain ⟨d', hd', heq⟩ := List.mem_map.mp hmem
      have hwaits := mem_queue (distributed_deliver hs hT.1) hT.2 hd'
      have howner : d'.queue.owner ≠ none := by
        obtain ⟨T₀, T₁, rfl⟩ := List.append_of_mem hd'
        exact (legal_append.mp hT.2).2.1.1
      obtain ⟨w, hw⟩ := Option.ne_none_iff_exists'.mp howner
      exact hs.not_mem hT.1 hw hwaits heq

end

/-- The objects in a queue which are woken. -/
def chosen (all : Bool) (xs : List Nat) : List Nat := if all then xs else xs.take 1

/-- The subEvent by which `d` was reached is the first one to do so: an event which wakes
all was not signalled before by another of its subEvents, and one which wakes only one
object at a time has not woken another one for this subEvent. -/
structure First (s : Store) (T : List Signal) (d : Signal) (x : Nat) (z : SubEvent) (e : Event) :
    Prop where
  source : d.source = some x
  signalled : x ∈ T.map Signal.object
  subEvent : s.objects x = some (.subEvent z)
  event : s.objects z.event = some (.event e)
  queue : d.queue = .waiters z.event
  result : d.result = .identifier z.wait z.identifier
  all : e.wakeupAll = true → ∀ d' ∈ T, ∀ z', s.objects d'.object = some (.subEvent z') →
    z'.event = z.event → d'.object = x
  one : e.wakeupAll = false → ∀ d' ∈ T, d'.source ≠ some x

/-- The events which wake all have done so. -/
def Emptied (s : Store) (T : List Signal) (s' : Store) : Prop :=
  ∀ d ∈ T, ∀ z e, s.objects d.object = some (.subEvent z) → s.objects z.event = some (.event e) →
    e.wakeupAll = true → s'.queues (.waiters z.event) = []

/-- The signals `T` which follow from the signal `d` for an object that waits for `w`. -/
structure Block (s : Store) (w : Nat) (d : Signal) (T : List Signal) : Prop where
  legal : Legal s (d :: T)
  places : ∀ d' ∈ T, ∃ x, Leads s w x ∧ d'.queue = .waiters x
  sources : ∀ d' ∈ T, ∃ x ∈ (d :: T).map Signal.object, d'.source = some x
  emptied : Emptied s (d :: T) ((d :: T).foldl deliver s)
  first : ∀ T₀ d' T₁, T = T₀ ++ d' :: T₁ → ∃ x z e, First s (d :: T₀) d' x z e

/-- The signals `T` by which the objects `xs` in the queue `q` of `w` are woken. -/
structure Woken (s : Store) (b : Option Nat) (q : Queue) (w : Nat) (r : Result) (xs : List Nat)
    (T : List Signal) : Prop where
  legal : Legal s T
  places : ∀ d ∈ T, d.queue = q ∨ ∃ x, Leads s w x ∧ d.queue = .waiters x
  sources : ∀ d ∈ T, (d.source = b ∧ d.queue = q ∧ d.result = r) ∨
    ∃ x ∈ T.map Signal.object, d.source = some x
  outer : (T.filter (·.source = b)).map Signal.object = xs
  emptied : Emptied s T (T.foldl deliver s)
  first : ∀ T₀ d T₁, T = T₀ ++ d :: T₁ → d.source ≠ b → ∃ x z e, First s T₀ d x z e

/-- The subEvent for which a queue is woken is in no queue anymore. -/
def Gone (s : Store) (b : Option Nat) : Prop :=
  ∀ x, b = some x → ∀ q w, q.owner = some w → x ∉ s.queues q

section

variable {s s' : Store} {d : Signal} {w x : Nat} {q : Queue} {T T' : List Signal} {b : Option Nat}
  {r : Result} {xs : List Nat} {z : SubEvent} {e : Event}

theorem First.alike (h : First s' T d x z e) (halike : Alike s s') :
    ∃ z' e', First s T d x z' e' := by
  obtain ⟨z', hz', hwait, hevent, hidentifier⟩ := halike.subEvent h.subEvent
  obtain ⟨e', he', hall⟩ := halike.event h.event
  refine ⟨z', e', h.source, h.signalled, hz', hevent ▸ he', ?_, ?_,
    fun he d' hd' z₁ hz₁ heq => ?_, ?_⟩
  · rw [hevent, h.queue]
  · rw [hwait, hidentifier, h.result]
  · obtain ⟨z₂, hz₂, -, hevent₂, -⟩ := halike.symm.subEvent hz₁
    exact h.all (hall ▸ he) d' hd' z₂ hz₂ (by rw [hevent₂, heq, hevent])
  · exact fun he => h.one (hall ▸ he)

/-- More signals came before. -/
theorem First.prepend (h : First s T d x z e)
    (hall : e.wakeupAll = true → ∀ d' ∈ T', ∀ z', s.objects d'.object = some (.subEvent z') →
      z'.event ≠ z.event) (hone : ∀ d' ∈ T', d'.source ≠ some x) : First s (T' ++ T) d x z e where
  source := h.source
  signalled := by
    rw [List.map_append, List.mem_append]
    exact Or.inr h.signalled
  subEvent := h.subEvent
  event := h.event
  queue := h.queue
  result := h.result
  all he d' hd' z' hz' heq := by
    rcases List.mem_append.mp hd' with hd' | hd'
    · exact absurd heq (hall he d' hd' z' hz')
    · exact h.all he d' hd' z' hz' heq
  one he d' hd' := by
    rcases List.mem_append.mp hd' with hd' | hd'
    · exact hone d' hd'
    · exact h.one he d' hd'

theorem Emptied.alike {s₁ : Store} (h : Emptied s₁ T s') (halike : Alike s s₁) :
    Emptied s T s' := by
  intro d hd z e hz he hall
  obtain ⟨z', hz', -, hevent, -⟩ := halike.symm.subEvent hz
  rw [← hevent] at he ⊢
  obtain ⟨e', he', hall'⟩ := halike.symm.event he
  exact h d hd z' e' hz' he' (hall' ▸ hall)

/-- What is empty stays empty. -/
theorem Emptied.run (h : Emptied s T s') (hs' : Distributed s') (hT : Legal s' T') :
    Emptied s T (T'.foldl deliver s') := by
  intro d hd z e hz he hall
  rw [List.eq_nil_iff_forall_not_mem]
  intro x hx
  have hmem := ((mem_run hs' hT (w := z.event) rfl).mp hx).1
  rw [h d hd z e hz he hall] at hmem
  cases hmem

theorem Gone.run (h : Gone s b) (hs : Distributed s) (hT : Legal s T) :
    Gone (T.foldl deliver s) b :=
  fun x hx q w hq hmem => h x hx q w hq ((mem_run hs hT hq).mp hmem).1

theorem owner_of_legal (hT : Legal s T) (hd : d ∈ T) : ∃ w, d.queue.owner = some w := by
  obtain ⟨T₀, T₁, rfl⟩ := List.append_of_mem hd
  exact Option.ne_none_iff_exists'.mp (legal_append.mp hT).2.1.1

theorem Gone.source_ne (h : Gone s b) (hs : Distributed s) (hT : Legal s T)
    (hx : x ∈ T.map Signal.object) :
    b ≠ some x := by
  obtain ⟨d, hd, rfl⟩ := List.mem_map.mp hx
  obtain ⟨w, hw⟩ := owner_of_legal hT hd
  exact fun hb => h _ hb _ w hw (mem_queue hs hT hd)

/-- A subEvent which is signalled because of the event `x` is not one of that event. -/
theorem event_ne (hs : Distributed s) (hT : Legal s T) (hd : d ∈ T)
    (hplace : ∃ y, d.queue = .waiters y ∧
    (y = x ∨ Leads s x y)) (hz : s.objects d.object = some (.subEvent z)) : z.event ≠ x := by
  rintro rfl
  obtain ⟨y, hy, hlead⟩ := hplace
  have hedge : Edge s y z.event := by
    cases hs.queued d.queue y d.object (by rw [hy]; rfl) (mem_queue hs hT hd) with
    | thread t ht _ _ => cases hz.symm.trans ht
    | subEvent z' e' hz' _ hwait _ =>
        obtain ⟨⟩ := hz.symm.trans hz'
        exact ⟨_, z, hz, hwait, rfl⟩
  rcases hlead with rfl | hlead
  · exact hs.acyclic _ (.single hedge)
  · exact hs.acyclic _ (hlead.tail hedge)

theorem block_thread {t : Thread} (hd : Waits s d) (hx : s.objects d.object = some (.thread t)) :
    Block s w d [] where
  legal := ⟨hd, trivial⟩
  places := nofun
  sources := nofun
  emptied := by
    intro d' hd' z e hz
    rw [List.mem_singleton.mp hd'] at hz
    cases hx.symm.trans hz
  first T₀ d' T₁ h := by simp at h

theorem woken_nil : Woken s b q w r [] [] where
  legal := trivial
  places := nofun
  sources := nofun
  outer := rfl
  emptied := nofun
  first T₀ d T₁ h := by simp at h

theorem split_append {A B T₀ T₁ : List Signal} (h : A ++ B = T₀ ++ d :: T₁) :
    (∃ T₂, A = T₀ ++ d :: T₂) ∨ ∃ T₂, T₀ = A ++ T₂ ∧ B = T₂ ++ d :: T₁ := by
  rcases List.append_eq_append_iff.mp h with ⟨T₂, hT₀, hB⟩ | ⟨T₂, hA, hT₁⟩
  · exact Or.inr ⟨T₂, hT₀, hB⟩
  · cases T₂ with
    | nil =>
        rw [List.append_nil] at hA
        exact Or.inr ⟨[], by simp [hA], by simpa using hT₁.symm⟩
    | cons d' T₂ =>
        obtain ⟨rfl, -⟩ := List.cons.inj hT₁
        exact Or.inl ⟨T₂, hA⟩

/-- One object after the other. -/
theorem woken_cons (hs : Distributed s) (hb : Gone s b)
    (h : Block s w ⟨x, q, r, b⟩ T)
    (h' : Woken ((⟨x, q, r, b⟩ :: T).foldl deliver s) b q w r xs T') :
    Woken s b q w r (x :: xs) (⟨x, q, r, b⟩ :: T ++ T') := by
  have hs' := distributed_run hs h.legal
  have halike := alike_run hs h.legal
  have hlegal := legal_append.mpr ⟨h.legal, h'.legal⟩
  have hfold : (⟨x, q, r, b⟩ :: T ++ T').foldl deliver s =
      T'.foldl deliver ((⟨x, q, r, b⟩ :: T).foldl deliver s) := List.foldl_append ..
  have hnodup := nodup_run hs hlegal
  rw [List.map_append, List.nodup_append] at hnodup
  have hsource : ∀ d ∈ T, d.source ≠ b := by
    intro d hd hsource
    obtain ⟨y, hy, hsource'⟩ := h.sources d hd
    exact hb.source_ne hs h.legal hy (hsource.symm.trans hsource')
  constructor
  · exact hlegal
  · intro d hd
    rcases List.mem_append.mp hd with hd | hd
    · rcases List.mem_cons.mp hd with rfl | hd
      · exact Or.inl rfl
      · exact Or.inr (h.places d hd)
    · rcases h'.places d hd with hplace | ⟨y, hlead, hplace⟩
      · exact Or.inl hplace
      · exact Or.inr ⟨y, halike.leads hlead, hplace⟩
  · intro d hd
    rw [List.map_append]
    rcases List.mem_append.mp hd with hd | hd
    · rcases List.mem_cons.mp hd with rfl | hd
      · exact Or.inl ⟨rfl, rfl, rfl⟩
      · obtain ⟨y, hy, hsource⟩ := h.sources d hd
        exact Or.inr ⟨y, List.mem_append_left _ hy, hsource⟩
    · rcases h'.sources d hd with hsource | ⟨y, hy, hsource⟩
      · exact Or.inl hsource
      · exact Or.inr ⟨y, List.mem_append_right _ hy, hsource⟩
  · have hfilter : T.filter (·.source = b) = [] := by
      rw [List.filter_eq_nil_iff]
      intro d hd
      simpa using hsource d hd
    rw [List.filter_append, List.filter_cons_of_pos (by simp), hfilter, List.map_append, h'.outer]
    rfl
  · intro d hd
    rw [hfold]
    rcases List.mem_append.mp hd with hd | hd
    · exact h.emptied.run hs' h'.legal d hd
    · exact h'.emptied.alike halike d hd
  · intro T₀ d T₁ hsplit hne
    rcases split_append hsplit with ⟨T₂, hT⟩ | ⟨T₂, rfl, rfl⟩
    · cases T₀ with
      | nil =>
          obtain ⟨rfl, -⟩ := List.cons.inj hT
          exact absurd rfl hne
      | cons d₀ T₀ =>
          obtain ⟨rfl, rfl⟩ := List.cons.inj hT
          exact h.first T₀ d T₂ rfl
    -- the block of the first object comes before, and it has emptied its events
    · obtain ⟨y, z, e, hfirst⟩ := h'.first T₂ d T₁ rfl hne
      obtain ⟨z', e', hfirst⟩ := hfirst.alike halike
      have hd : d ∈ T₂ ++ d :: T₁ := by simp
      have hy : y ∈ (T₂ ++ d :: T₁).map Signal.object := by
        rw [List.map_append, List.mem_append]
        exact Or.inl hfirst.signalled
      refine ⟨y, z', e', hfirst.prepend (fun hall d' hd' z₁ hz₁ heq => ?_)
        (fun d' hd' hsource' => ?_)⟩
      · have hempty := h.emptied d' hd' z₁ e' hz₁ (heq ▸ hfirst.event) hall
        have hmem := mem_queue hs' h'.legal hd
        rw [hfirst.queue, ← heq, hempty] at hmem
        cases hmem
      · rcases List.mem_cons.mp hd' with rfl | hd'
        · exact hb.source_ne hs hlegal (by rw [List.map_append]; exact List.mem_append_right _ hy)
            hsource'
        · obtain ⟨y', hy', hsource⟩ := h.sources d' hd'
          obtain rfl := Option.some.inj (hsource'.symm.trans hsource)
          exact hnodup.2.2 y hy' y hy rfl

theorem gone_deliver (hs : Distributed s) (hd : Waits s d) :
    Gone (deliver s d) (some d.object) := by
  rintro _ ⟨⟩ q w hq hmem
  exact hs.not_mem hd hq hmem rfl

/-- Only one object is woken at a time, so no other one was before it. -/
theorem not_mem_of_one {T₀ T₁ : List Signal}
    (hlength : ((T₀ ++ d :: T₁).filter (·.source = b)).length ≤ 1)
    (hd : d.source = b) {d' : Signal} (hd' : d' ∈ T₀) : d'.source ≠ b := by
  intro hsource
  have hmem : d' ∈ T₀.filter (·.source = b) := by simp [hd', hsource]
  have hpos := List.length_pos_of_mem hmem
  rw [List.filter_append, List.filter_cons_of_pos (by simp [hd]), List.length_append,
    List.length_cons] at hlength
  omega

/-- The event of a subEvent which was signalled wakes its queue. -/
theorem block_subEvent (hs : Distributed s) (hd : Waits s d) (hw : d.queue.owner = some w)
    (hb : Gone s d.source) (hz : s.objects d.object = some (.subEvent z))
    (he : s.objects z.event = some (.event e))
    (h : Woken (deliver s d) (some d.object) (.waiters z.event) z.event
      (.identifier z.wait z.identifier)
      (chosen e.wakeupAll ((deliver s d).queues (.waiters z.event))) T) : Block s w d T := by
  have hs₁ := distributed_deliver hs hd
  have halike := (hs.delivered hd).alike
  have hlegal : Legal s (d :: T) := ⟨hd, h.legal⟩
  have hnodup := nodup_run hs hlegal
  rw [List.map_cons, List.nodup_cons] at hnodup
  have hedge : Edge s w z.event := by
    cases hs.queued d.queue w d.object hw hd.2 with
    | thread t ht _ _ => cases hz.symm.trans ht
    | subEvent z' e' hz' _ hwait _ =>
        obtain ⟨⟩ := hz.symm.trans hz'
        exact ⟨_, z, hz, hwait, rfl⟩
  have hplaces : ∀ d' ∈ T, ∃ y, d'.queue = .waiters y ∧
    (y = z.event ∨ Leads (deliver s d) z.event y) := by
    intro d' hd'
    rcases h.places d' hd' with hplace | ⟨y, hlead, hplace⟩
    · exact ⟨_, hplace, Or.inl rfl⟩
    · exact ⟨y, hplace, Or.inr hlead⟩
  -- no subEvent of the same event is signalled because of it
  have hother : ∀ d' ∈ T, ∀ z', s.objects d'.object = some (.subEvent z') → z'.event ≠ z.event := by
    intro d' hd' z' hz'
    obtain ⟨z₁, hz₁, -, hevent, -⟩ := halike.symm.subEvent hz'
    rw [← hevent]
    exact event_ne hs₁ h.legal hd' (hplaces d' hd') hz₁
  constructor
  · exact hlegal
  · intro d' hd'
    obtain ⟨y, hplace, rfl | hlead⟩ := hplaces d' hd'
    · exact ⟨_, .single hedge, hplace⟩
    · exact ⟨y, (halike.leads hlead).head hedge, hplace⟩
  · intro d' hd'
    rcases h.sources d' hd' with ⟨hsource, -, -⟩ | ⟨y, hy, hsource⟩
    · exact ⟨d.object, by simp, hsource⟩
    · exact ⟨y, List.mem_cons_of_mem _ hy, hsource⟩
  · intro d' hd' z' e' hz' he' hall
    rcases List.mem_cons.mp hd' with rfl | hd'
    · obtain ⟨⟩ := hz.symm.trans hz'
      obtain ⟨⟩ := he.symm.trans he'
      have houter := h.outer
      rw [hall, chosen, if_pos rfl] at houter
      rw [List.eq_nil_iff_forall_not_mem]
      intro x hx
      rw [List.foldl_cons, mem_run hs₁ h.legal (w := z.event) rfl, ← houter] at hx
      obtain ⟨hfilter, hnot⟩ := hx
      obtain ⟨d', hd', rfl⟩ := List.mem_map.mp hfilter
      exact hnot (List.mem_map_of_mem (List.mem_of_mem_filter hd'))
    · exact h.emptied.alike halike d' hd' z' e' hz' he' hall
  · intro T₀ d' T₁ hT
    have hd' : d' ∈ T := by simp [hT]
    have hT₀ : ∀ {d''}, d'' ∈ T₀ → d'' ∈ T := fun hd'' => by simp [hT, hd'']
    by_cases hsource : d'.source = some d.object
    · have hfirst : d'.queue = .waiters z.event ∧ d'.result = .identifier z.wait z.identifier := by
        rcases h.sources d' hd' with ⟨-, hqueue, hresult⟩ | ⟨y, hy, hsource'⟩
        · exact ⟨hqueue, hresult⟩
        · obtain rfl := Option.some.inj (hsource.symm.trans hsource')
          exact absurd hy hnodup.1
      refine ⟨d.object, z, e, hsource, by simp, hz, he, hfirst.1, hfirst.2,
        fun _ d'' hd'' z' hz' heq => ?_, fun hone d'' hd'' => ?_⟩
      · rcases List.mem_cons.mp hd'' with rfl | hd''
        · rfl
        · exact absurd heq (hother d'' (hT₀ hd'') z' hz')
      · rcases List.mem_cons.mp hd'' with rfl | hd''
        · exact hb.source_ne hs hlegal (by simp)
        · have hlength := congrArg List.length h.outer
          rw [hone, chosen, if_neg (by simp), List.length_map, List.length_take, hT] at hlength
          exact not_mem_of_one (hlength.le.trans (min_le_left ..)) hsource hd''
    · obtain ⟨y, z₁, e₁, hfirst⟩ := h.first T₀ d' T₁ hT hsource
      obtain ⟨z', e', hfirst⟩ := hfirst.alike halike
      have hy : y ∈ T.map Signal.object := by
        obtain ⟨d₁, hd₁, rfl⟩ := List.mem_map.mp hfirst.signalled
        exact List.mem_map_of_mem (hT₀ hd₁)
      have hmore : First s ([d] ++ T₀) d' y z' e' := by
        refine hfirst.prepend (fun _ d'' hd'' z'' hz'' heq => ?_) (fun d'' hd'' => ?_)
        · rw [List.mem_singleton.mp hd''] at hz''
          obtain ⟨⟩ := hz.symm.trans hz''
          obtain ⟨d₁, hd₁, rfl⟩ := List.mem_map.mp hfirst.signalled
          exact hother d₁ (hT₀ hd₁) z' hfirst.subEvent heq.symm
        · rw [List.mem_singleton.mp hd'']
          exact hb.source_ne hs hlegal (List.mem_cons_of_mem _ hy)
      exact ⟨y, z', e', hmore⟩

end

section

variable {s s' : Store} {d : Signal} {w x : Nat} {q : Queue} {b : Option Nat} {r : Result}
  {z : SubEvent} {e : Event}

theorem home_of_waits (hs : Distributed s) (hd : Waits s d) : s.home d.object = some d.queue := by
  obtain ⟨w, hw⟩ := Option.ne_none_iff_exists'.mp hd.1
  exact hs.home d.queue w d.object hw hd.2

theorem llRemove_eq (h : s.home x = some q) : llRemove x s = .ok (q, unlink s x q) := by
  rw [llRemove, h]
  rfl

theorem threadSignal_eq {t : Thread} (hhome : s.home d.object = some d.queue)
    (hx : s.objects d.object = some (.thread t)) (hprocess : t.process ≠ none)
    (hb : t.blocked = true) :
    threadSignal d.object d.result s = .ok ((), deliver s d) := by
  let s₁ := put s d.object (some (.thread { t with blocked := false, eax := d.result }))
  have hget : getThread d.object s = .ok (t, s) := objectContainer_eq threadFunctions hx
  have hassign : assign threadFunctions d.object
    (fun t => { t with blocked := false, eax := d.result }) s =
      .ok ((), s₁) := assign_eq threadFunctions hx
  have hhome' : s₁.home d.object = some d.queue := hhome
  rw [threadSignal, bind_apply, hget]
  simp only [hprocess, hb, Bool.true_eq_false, or_self, if_false]
  rw [bind_apply, hassign]
  simp only
  rw [bind_apply, llRemove_eq hhome', deliver, hx]
  rfl

theorem subEventSignal_eq {signal : Nat → Result → Kernel Unit} (hs : Distributed s)
    (hd : Waits s d)
    (hz : s.objects d.object = some (.subEvent z)) (hb : z.blocked = true)
    (he : s.objects z.event = some (.event e)) :
    subEventSignal signal d.object d.result s = queueWakeupWith signal
    (.waiters z.event) e.wakeupAll
      (.identifier z.wait z.identifier) (deliver s d) := by
  let s₁ := put s d.object (some (.subEvent { z with blocked := false }))
  have hget : getSubEvent d.object s = .ok (z, s) := objectContainer_eq subEventFunctions hz
  have hassign : assign subEventFunctions d.object (fun z => { z with blocked := false }) s =
      .ok ((), s₁) := assign_eq subEventFunctions hz
  have hhome : s₁.home d.object = some d.queue := (home_of_waits hs hd :)
  have hne : z.event ≠ d.object := by
    intro heq
    rw [heq] at he
    cases hz.symm.trans he
  have hstatus : assign eventFunctions z.event (fun e => { e with status := d.result })
      (unlink s₁ d.object d.queue) = .ok ((), deliver s d) := by
    rw [deliver_subEvent hz he]
    exact assign_eq eventFunctions ((Function.update_of_ne hne ..).trans he)
  have hevent : getEvent z.event (deliver s d) =
    .ok ({ e with status := d.result }, deliver s d) := by
    apply objectContainer_eq eventFunctions
    rw [deliver_subEvent hz he]
    exact Function.update_self ..
  rw [subEventSignal, bind_apply, hget]
  simp only [hb, Bool.true_eq_false, if_false]
  rw [bind_apply, hassign]
  simp only
  rw [bind_apply, llRemove_eq hhome]
  simp only
  rw [bind_apply, hstatus]
  simp only
  rw [bind_apply, hevent]

/-- The next object in the queue is the one behind `x`. -/
theorem entryNext_eq {xs : List Nat} (hhome : s.home x = some q) (hxs : s.queues q = x :: xs) :
    entryNext q x s = .ok (xs.head?, s) := by
  rw [entryNext, bind_apply, get_apply]
  simp only [hhome, hxs, if_true]
  rw [List.dropWhile_cons_of_neg (by simp)]
  rfl

/-- A signal which takes an object out of the queue, whatever else it does. -/
def Signals (signal : Nat → Result → Kernel Unit) (s : Store) (w : Nat) (q : Queue) (r : Result)
    (b : Option Nat) : Prop :=
  ∀ s' x, Alike s s' → Distributed s' → Gone s' b → x ∈ s'.queues q → ∃ T,
    signal x r s' = .ok ((), (⟨x, q, r, b⟩ :: T).foldl deliver s') ∧ Block s' w ⟨x, q, r, b⟩ T

/-- The rest of the queue is as it was. -/
theorem queues_block {T : List Signal} {xs : List Nat} (hs : Distributed s) (hq : q.owner = some w)
    (h : Block s w ⟨x, q, r, b⟩ T) (hxs : s.queues q = x :: xs) :
    ((⟨x, q, r, b⟩ :: T).foldl deliver s).queues q = xs := by
  have hs₁ := distributed_deliver hs h.legal.1
  have hplaces : ∀ d ∈ T, d.queue ≠ q := by
    rintro d hd rfl
    obtain ⟨y, hlead, hplace⟩ := h.places d hd
    rw [hplace] at hq
    obtain rfl : y = w := Option.some.inj hq
    exact hs.acyclic y hlead
  rw [List.foldl_cons, queues_run hs₁ h.legal.2 hq hplaces, (hs.delivered h.legal.1).queues q w hq,
    if_pos rfl, hxs, List.erase_cons_head]

/-- The loop does what the signals `signal'` do one after the other, which are the same. -/
theorem wakeupLoop_woken {signal signal' : Nat → Result → Kernel Unit} (hq : q.owner = some w)
    (hsignal : Signals signal s w q r b)
    (hsame : ∀ s' x, Alike s s' → signal' x r s' = signal x r s')
    (all : Bool) {xs : List Nat} (halike : Alike s s')
    (hs : Distributed s') (hb : Gone s' b) (hxs : s'.queues q = xs) : ∃ T,
    wakeupLoop signal q all r xs.length xs.head? s' = .ok ((), T.foldl deliver s') ∧
      forEach (fun x => signal' x r) (chosen all xs) s' = .ok ((), T.foldl deliver s') ∧
        Woken s' b q w r (chosen all xs) T := by
  induction xs generalizing s' with
  | nil =>
      refine ⟨[], rfl, ?_⟩
      cases all with
      | true => exact ⟨rfl, woken_nil⟩
      | false => exact ⟨rfl, woken_nil⟩
  | cons x xs ih =>
      have hmem : x ∈ s'.queues q := by simp [hxs]
      obtain ⟨T, hx, hblock⟩ := hsignal s' x halike hs hb hmem
      have hnext := entryNext_eq (hs.home q w x hq hmem) hxs
      have hs₁ := distributed_run hs hblock.legal
      have hchosen : chosen all (x :: xs) = x :: (chosen all (x :: xs)).tail := by
        cases all with
        | true => rfl
        | false => rfl
      obtain ⟨T', hrest, hsignals, hwoken⟩ : ∃ T',
          (if all then wakeupLoop signal q all r xs.length xs.head? else pure ())
            ((⟨x, q, r, b⟩ :: T).foldl deliver s') =
              .ok ((), T'.foldl deliver ((⟨x, q, r, b⟩ :: T).foldl deliver s')) ∧
          forEach (fun x => signal' x r) (chosen all (x :: xs)).tail
            ((⟨x, q, r, b⟩ :: T).foldl deliver s') =
              .ok ((), T'.foldl deliver ((⟨x, q, r, b⟩ :: T).foldl deliver s')) ∧
          Woken ((⟨x, q, r, b⟩ :: T).foldl deliver s') b q w r (chosen all (x :: xs)).tail T' := by
        cases all with
        | true =>
            exact ih (halike.trans (alike_run hs hblock.legal)) hs₁ (hb.run hs hblock.legal)
              (queues_block hs hq hblock hxs)
        | false => exact ⟨[], rfl, rfl, woken_nil⟩
      refine ⟨⟨x, q, r, b⟩ :: T ++ T', ?_, ?_, ?_⟩
      · rw [List.foldl_append, List.length_cons, List.head?_cons, wakeupLoop, bind_apply, hnext]
        simp only
        rw [bind_apply, hx]
        exact hrest
      · rw [List.foldl_append, hchosen, forEach, bind_apply, hsame s' x halike, hx]
        exact hsignals
      · rw [hchosen]
        exact woken_cons hs hb hblock hwoken

/-- The events in `L` are being signalled. They are not all there are, since no event
leads back to itself. -/
theorem signalNested_block {fuel : Nat} {L : Finset Nat} (hs : Distributed s) (hd : Waits s d)
    (hw : d.queue.owner = some w) (hb : Gone s d.source)
    (hL : ∀ l ∈ L, l < s.fresh ∧ Relation.ReflTransGen (Edge s) l w)
    (hfuel : s.fresh + 2 ≤ fuel + L.card) : ∃ T,
    signalNested fuel d.object d.result s = .ok ((), (d :: T).foldl deliver s) ∧ Block s w d T := by
  induction fuel generalizing s d w L with
  | zero =>
      have hsub : L ⊆ Finset.range s.fresh := fun l hl => Finset.mem_range.mpr (hL l hl).1
      have hcard := Finset.card_le_card hsub
      rw [Finset.card_range] at hcard
      omega
  | succ fuel ih =>
      cases hs.queued d.queue w d.object hw hd.2 with
      | thread t hx hprocess hblocked =>
          refine ⟨[], ?_, block_thread hd hx⟩
          rw [signalNested, bind_apply, getObject_eq hx]
          exact threadSignal_eq (home_of_waits hs hd) hx hprocess hblocked
      | subEvent z e hz hblocked hwait he =>
          have hs₁ := distributed_deliver hs hd
          have halike₁ := (hs.delivered hd).alike
          have hedge : Edge s w z.event := ⟨_, z, hz, hwait, rfl⟩
          have hnot : z.event ∉ L := fun hmem =>
            hs.acyclic _ (Relation.TransGen.tail' (hL _ hmem).2 hedge)
          have hsignal : Signals (signalNested fuel) (deliver s d) z.event (.waiters z.event)
              (.identifier z.wait z.identifier) (some d.object) := by
            intro s' x halike hs' hgone hx
            have hsame := halike₁.trans halike
            have hwaits :
              Waits s' ⟨x, .waiters z.event, .identifier z.wait z.identifier, some d.object⟩ :=
              ⟨Option.some_ne_none z.event, hx⟩
            apply ih hs' hwaits rfl hgone (L := insert z.event L)
            · intro l hl
              rw [hsame.fresh]
              rcases Finset.mem_insert.mp hl with rfl | hl
              · exact ⟨hs.live _ e he, .refl⟩
              · refine ⟨(hL l hl).1, Relation.ReflTransGen.mono (fun _ _ => hsame.symm.edge) _ _ ?_⟩
                exact (hL l hl).2.tail hedge
            · rw [hsame.fresh, Finset.card_insert_of_notMem hnot]
              omega
          obtain ⟨T, hloop, -, hwoken⟩ := wakeupLoop_woken rfl hsignal (fun _ _ _ => rfl)
            e.wakeupAll (.refl _) hs₁ (gone_deliver hs hd) rfl
          refine ⟨T, ?_, block_subEvent hs hd hw hb hz he hwoken⟩
          rw [signalNested, bind_apply, getObject_eq hz]
          change subEventSignal (signalNested fuel) d.object d.result s = _
          rw [subEventSignal_eq hs hd hz hblocked he]
          exact hloop

end

def isThread (s : Store) (x : Nat) : Bool :=
  match s.objects x with
  | some (.thread _) => true
  | _ => false

/-- Everybody who was woken was so exactly once. -/
structure Awakened (s : Store) (q : Queue) (all : Bool) (r : Result) (T : List Signal)
    (s' : Store) :
    Prop where
  outer : (T.filter (·.source = none)).map Signal.object = chosen all (s.queues q)
  results : ∀ d ∈ T, d.source = none → d.queue = q ∧ d.result = r
  nodup : (T.map Signal.object).Nodup
  members : ∀ d ∈ T, d.object ∈ s.queues d.queue
  first : ∀ T₀ d T₁, T = T₀ ++ d :: T₁ → d.source ≠ none → ∃ x z e, First s T₀ d x z e
  empty : all = true → s'.queues q = []
  emptied : Emptied s T s'
  threadList : s'.queues .threadList =
    s.queues .threadList ++ (T.map Signal.object).filter (isThread s)
  threads : ∀ d ∈ T, ∀ t, s.objects d.object = some (.thread t) →
    s'.objects d.object = some (.thread { t with blocked := false, eax := d.result }) ∧
      s'.home d.object = some .threadList

section

variable {s s' : Store} {d : Signal} {T : List Signal} {w x : Nat} {q : Queue} {r : Result}

theorem Alike.isThread (h : Alike s s') : isThread s' = isThread s := by
  funext x
  rw [Bool.eq_iff_iff]
  simp only [QueueWakeups.isThread]
  constructor
  · intro hx
    split at hx
    · obtain ⟨t, ht⟩ := h.thread (by assumption)
      rw [ht]
    · cases hx
  · intro hx
    split at hx
    · obtain ⟨t, ht⟩ := h.symm.thread (by assumption)
      rw [ht]
    · cases hx

theorem threadList_deliver (hs : Distributed s) (hd : Waits s d) :
    (deliver s d).queues .threadList = s.queues .threadList ++ [d.object].filter (isThread s) := by
  obtain ⟨w, hw⟩ := Option.ne_none_iff_exists'.mp hd.1
  have hunlink : (unlink s d.object d.queue).queues .threadList = s.queues .threadList :=
    Function.update_of_ne (owner_ne_threadList hw).symm ..
  cases hs.queued d.queue w d.object hw hd.2 with
  | thread t hx _ _ =>
      rw [List.filter_cons_of_pos (by rw [isThread, hx]), deliver, hx]
      change Function.update (unlink s d.object d.queue).queues .threadList
        ((unlink s d.object d.queue).queues .threadList ++ [d.object]) .threadList = _
      rw [Function.update_self, hunlink]
      rfl
  | subEvent z e hz _ _ he =>
      rw [List.filter_cons_of_neg (by rw [isThread, hz]; simp), deliver_subEvent hz he]
      change (unlink s d.object d.queue).queues .threadList = _
      rw [hunlink, List.filter_nil, List.append_nil]

theorem threadList_run (hs : Distributed s) (hT : Legal s T) :
    (T.foldl deliver s).queues .threadList =
    s.queues .threadList ++ (T.map Signal.object).filter (isThread s) := by
  induction T generalizing s with
  | nil => simp
  | cons d T ih =>
      rw [List.foldl_cons, ih (distributed_deliver hs hT.1) hT.2, threadList_deliver hs hT.1,
        (hs.delivered hT.1).alike.isThread, List.append_assoc, ← List.filter_append]
      rfl

/-- Who is not signalled stays as it is. -/
theorem thread_run (hs : Distributed s) (hT : Legal s T) (hnot : x ∉ T.map Signal.object)
    {t : Thread}
    (hx : s.objects x = some (.thread t)) :
    (T.foldl deliver s).objects x = some (.thread t) ∧ (T.foldl deliver s).home x = s.home x := by
  induction T generalizing s with
  | nil => exact ⟨hx, rfl⟩
  | cons d T ih =>
      rw [List.map_cons, List.mem_cons, not_or] at hnot
      have hd := hs.delivered hT.1
      have hx' : (deliver s d).objects x = some (.thread t) := by
        rw [hd.objects x hnot.1 (by simp [hx]), hx]
      have hrest := ih (distributed_deliver hs hT.1) hT.2 hnot.2 hx'
      rw [hd.home x hnot.1] at hrest
      exact hrest

theorem thread_woken (hs : Distributed s) (hT : Legal s T) (hd : d ∈ T) {t : Thread}
    (hx : s.objects d.object = some (.thread t)) :
    (T.foldl deliver s).objects d.object =
      some (.thread { t with blocked := false, eax := d.result }) ∧
      (T.foldl deliver s).home d.object = some .threadList := by
  obtain ⟨T₀, T₁, rfl⟩ := List.append_of_mem hd
  have hnodup := nodup_run hs hT
  rw [List.map_append, List.nodup_append, List.map_cons, List.nodup_cons] at hnodup
  have hnot : d.object ∉ T₀.map Signal.object := fun hmem => hnodup.2.2 _ hmem _ (by simp) rfl
  rw [legal_append] at hT
  have hs₁ := distributed_run hs hT.1
  obtain ⟨hx₁, -⟩ := thread_run hs hT.1 hnot hx
  rw [List.foldl_append, List.foldl_cons]
  have hx₂ : (deliver (T₀.foldl deliver s) d).objects d.object =
      some (.thread { t with blocked := false, eax := d.result }) := by
    rw [deliver, hx₁]
    exact Function.update_self ..
  have hhome : (deliver (T₀.foldl deliver s) d).home d.object = some .threadList := by
    rw [deliver, hx₁]
    exact Function.update_self ..
  obtain ⟨hobjects, hhomes⟩ := thread_run (distributed_deliver hs₁ hT.2.1) hT.2.2 hnodup.2.1.1 hx₂
  exact ⟨hobjects, hhomes.trans hhome⟩

theorem Woken.awakened (hs : Distributed s) (hq : q.owner = some w) {all : Bool}
    (h : Woken s none q w r (chosen all (s.queues q)) T) :
      Awakened s q all r T (T.foldl deliver s) where
  outer := h.outer
  results d hd hsource := by
    rcases h.sources d hd with hresult | ⟨x, -, hx⟩
    · exact hresult.2
    · cases hsource.symm.trans hx
  nodup := nodup_run hs h.legal
  members d hd := mem_queue hs h.legal hd
  first := h.first
  empty hall := by
    have houter := h.outer
    rw [hall, chosen, if_pos rfl] at houter
    rw [List.eq_nil_iff_forall_not_mem]
    intro x hx
    rw [mem_run hs h.legal hq, ← houter] at hx
    obtain ⟨hfilter, hnot⟩ := hx
    obtain ⟨d, hd, rfl⟩ := List.mem_map.mp hfilter
    exact hnot (List.mem_map_of_mem (List.mem_of_mem_filter hd))
  emptied := h.emptied
  threadList := threadList_run hs h.legal
  threads d hd t hx := thread_woken hs h.legal hd hx

/-- Waking a queue signals the objects in it one after the other, or only the first of
them, and everybody who is woken is so exactly once, by the first who reaches him. -/
theorem queueWakeup_awakens (hs : Distributed s) (hq : q.owner = some w) (all : Bool) (r : Result) :
    ∃ T, queueWakeup q all r s = .ok ((), T.foldl deliver s) ∧
      forEach (fun x => objectSignal x r) (chosen all (s.queues q)) s =
        .ok ((), T.foldl deliver s) ∧
        Awakened s q all r T (T.foldl deliver s) := by
  have hsignal : Signals (signalNested (s.fresh + 2)) s w q r none := by
    intro s' x halike hs' hgone hx
    have hwaits : Waits s' ⟨x, q, r, none⟩ := ⟨by simp [hq], hx⟩
    exact signalNested_block hs' hwaits hq hgone (L := ∅) (by simp) (by rw [halike.fresh]; omega)
  have hsame : ∀ s' x, Alike s s' → objectSignal x r s' = signalNested (s.fresh + 2) x r s' := by
    intro s' x halike
    rw [objectSignal, halike.fresh]
  obtain ⟨T, hloop, hsignals, hwoken⟩ :=
    wakeupLoop_woken hq hsignal hsame all (.refl s) hs nofun rfl
  exact ⟨T, hloop, hsignals, hwoken.awakened hs hq⟩

/-- Two threads wait, one for a semaphore and one for an event which is attached to it
twice. -/
def crowd : Store :=
  let thread : Object := .thread ⟨some 9, true, MINUS_ONE, .value 0, 0, 0, 0, 0⟩
  { emptyStore (fun _ => true) (fun _ _ => 0) with
    objects := fun
      | 0 => some (.semaphore 0)
      | 1 => some (.event ⟨[4, 5], .value 0, true⟩)
      | 2 => some thread
      | 3 => some thread
      | 4 => some (.subEvent ⟨true, 1, 0, 0, 40⟩)
      | 5 => some (.subEvent ⟨true, 1, 0, 0, 50⟩)
      | _ => none
    queues := fun
      | .waiters 0 => [4, 2, 5]
      | .waiters 1 => [3]
      | _ => []
    home := fun
      | 2 => some (.waiters 0)
      | 3 => some (.waiters 1)
      | 4 => some (.waiters 0)
      | 5 => some (.waiters 0)
      | _ => none
    fresh := 6 }

theorem edge_crowd {w x : Nat} (h : Edge crowd w x) : w = 0 ∧ x = 1 := by
  obtain ⟨y, z, hz, rfl, rfl⟩ := h
  rcases y with _ | _ | _ | _ | _ | _ | y
  all_goals cases hz
  · exact ⟨rfl, rfl⟩
  · exact ⟨rfl, rfl⟩

theorem queues_crowd {q : Queue} {x : Nat} (h : x ∈ crowd.queues q) :
    (q = .waiters 0 ∧ (x = 4 ∨ x = 2 ∨ x = 5)) ∨ q = .waiters 1 ∧ x = 3 := by
  rcases q with _ | _ | (_ | _ | n) | n
  · cases h
  · cases h
  · exact Or.inl ⟨rfl, by simpa [crowd] using h⟩
  · exact Or.inr ⟨rfl, List.mem_singleton.mp h⟩
  · cases h
  · cases h

theorem distributed_crowd : Distributed crowd := by
  constructor
  · intro x e he
    rcases x with _ | _ | _ | _ | _ | _ | x
    all_goals cases he
    decide
  · intro q w x _ hx
    rcases queues_crowd hx with ⟨rfl, rfl | rfl | rfl⟩ | ⟨rfl, rfl⟩
    all_goals rfl
  · intro q w _
    rcases q with _ | _ | (_ | _ | n) | n
    · exact List.nodup_nil
    · exact List.nodup_nil
    · exact (by decide : [4, 2, 5].Nodup)
    · exact List.nodup_singleton 3
    · exact List.nodup_nil
    · exact List.nodup_nil
  · intro q w x hw hx
    rcases queues_crowd hx with ⟨rfl, rfl | rfl | rfl⟩ | ⟨rfl, rfl⟩
    · exact .subEvent _ _ rfl rfl (Option.some.inj hw) rfl
    · exact .thread _ rfl (by simp) rfl
    · exact .subEvent _ _ rfl rfl (Option.some.inj hw) rfl
    · exact .thread _ rfl (by simp) rfl
  · intro x hcycle
    obtain ⟨y, hfirst, -⟩ := Relation.TransGen.head'_iff.mp hcycle
    obtain ⟨z, -, hlast⟩ := Relation.TransGen.tail'_iff.mp hcycle
    have hzero := (edge_crowd hfirst).1
    have hone := (edge_crowd hlast).2
    omega

theorem queueWakeup_awakens_crowd : ∃ T,
    queueWakeup (.waiters 0) true (.value 7) crowd = .ok ((), T.foldl deliver crowd) ∧
      forEach (fun x => objectSignal x (.value 7)) (chosen true [4, 2, 5]) crowd =
        .ok ((), T.foldl deliver crowd) ∧
      Awakened crowd (.waiters 0) true (.value 7) T (T.foldl deliver crowd) :=
  queueWakeup_awakens distributed_crowd rfl true (.value 7)

/-- The thread which waits for the event is woken by the first of its subEvents. -/
example : (queueWakeup (.waiters 0) true (.value 7) crowd).toOption.map (fun r => r.2.log) =
    some [⟨2, some 0, .value 7⟩, ⟨3, some 1, .identifier 0 40⟩] := by
  decide +kernel

end

end Ibnos.QueueWakeups
