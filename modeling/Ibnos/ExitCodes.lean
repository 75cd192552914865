import Ibnos.Lives

/-!
Exit codes. All threads and processes which end during one system call do so with
the same exit code, and whoever waits for one of them is told this code. It is the
one which is found later, unless a process without threads is shut down again.
-/

namespace Ibnos.ExitCodes

open Ibnos.AddressSpaces
open Ibnos.Lifetimes
open Ibnos.Lives
open Ibnos.ObjectStores
open Ibnos.Objects
open Ibnos.Programs
open Ibnos.Runs
open Ibnos.Syscalls

/-- A thread which lives is one of the threads of its process. -/
structure Sound (s : Store) : Prop where
  old : Old s
  live : ∀ t p c, life s t = some (.thread (some p) c) →
    ∃ ts c', life s p = some (.process ts c') ∧ t ∈ ts

/-- What becomes of an object when threads are shut down with an exit code. It
cannot be told what a process without threads does whose shutdown is `forced`. -/
inductive Turned (code : Nat) (forced : Prop) : Option Life → Option Life → Prop
  | same (l : Option Life) : Turned code forced l l
  | gone (l : Option Life) : Turned code forced l none
  | thread (p e : Nat) :
      Turned code forced (some (.thread (some p) e)) (some (.thread none code))
  | process (t : Nat) (ts ts' : List Nat) (e e' : Nat) (he : e' = e ∨ e' = code)
      (hts : ts' = [] → e' = code) :
      Turned code forced (some (.process (t :: ts) e)) (some (.process ts' e'))
  | forced (e : Nat) (h : forced) :
      Turned code forced (some (.process [] e)) (some (.process [] code))

/-- The change of the objects below `n` while threads are shut down. -/
structure Turn (code : Nat) (forced : Nat → Prop) (n : Nat) (s s' : Store) : Prop where
  fresh : s.fresh ≤ s'.fresh
  sound : Sound s'
  life : ∀ x < n, Turned code (forced x) (life s x) (life s' x)
  said : ∀ y < n, Typed y s → Said y code s s'

section

variable {A : Aspect} {s s' s'' : Store} {x y p n code : Nat} {forced : Nat → Prop} {b b' : Prop}
  {l l' l'' : Option Life} {α β : Type}

theorem Turned.trans (h : Turned code b l l') (h' : Turned code b l' l'') :
    Turned code b l l'' := by
  cases h with
  | same => exact h'
  | gone =>
      cases h' with
      | same => exact .gone _
      | gone => exact .gone _
  | thread p e =>
      cases h' with
      | same => exact .thread p e
      | gone => exact .gone _
  | process t ts ts' e e' he hts =>
      cases h' with
      | same => exact .process t ts ts' e e' he hts
      | gone => exact .gone _
      | process t' ts'' ts₃ _ e₃ he₃ hts₃ =>
          refine .process t ts ts₃ e e₃ ?_ hts₃
          rcases he₃ with rfl | rfl
          · exact he
          · exact Or.inr rfl
      | forced _ hb => exact .process t ts [] e code (Or.inr rfl) fun _ => rfl
  | forced e hb =>
      cases h' with
      | same => exact .forced e hb
      | gone => exact .gone _
      | forced _ _ => exact .forced e hb

theorem Turned.mono (h : Turned code b l l') (hb : b → b') : Turned code b' l l' := by
  cases h with
  | same => exact .same _
  | gone => exact .gone _
  | thread p e => exact .thread p e
  | process t ts ts' e e' he hts => exact .process t ts ts' e e' he hts
  | forced e h => exact .forced e (hb h)

theorem Turned.ne_other (h : Turned code b l l') (hl : l ≠ some .other) : l' ≠ some .other := by
  cases h with
  | same => exact hl
  | gone => exact nofun
  | thread p e => exact nofun
  | process t ts ts' e e' he hts => exact nofun
  | forced e h => exact nofun

theorem Turn.trans (h : Turn code forced n s s') (h' : Turn code forced n s' s'') :
    Turn code forced n s s'' where
  fresh := h.fresh.trans h'.fresh
  sound := h'.sound
  life := fun x hx => (h.life x hx).trans (h'.life x hx)
  said := fun y hyn hy => (h.said y hyn hy).trans
    (h'.said y hyn ⟨hy.1.trans_le h.fresh, (h.life y hyn).ne_other hy.2⟩)

theorem sound_of_mild (h : Mild A s s') (hs : Sound s) : Sound s' := by
  refine ⟨h.old, fun t p c ht => ?_⟩
  have ht' : life s t = some (.thread (some p) c) := by
    rcases h.life t with hl | ⟨hl, -⟩ | ⟨-, hl | hl⟩
    · exact hl.symm.trans ht
    · cases hl.symm.trans ht
    · cases hl.symm.trans ht
    · cases hl.symm.trans ht
  obtain ⟨ts, c', hp, hmem⟩ := hs.live t p c ht'
  have hlt : p < s.fresh := hs.old p (by rw [hp]; exact nofun)
  rcases h.life p with hl | ⟨-, hremovable⟩ | ⟨hfresh, -⟩
  · exact ⟨ts, c', hl.trans hp, hmem⟩
  · rcases hremovable _ hp with hother | hended
    · cases hother
    · cases ts with
      | nil => cases hmem
      | cons t ts => exact (hended rfl).elim
  · exact (Nat.not_lt.mpr hfresh hlt).elim

theorem turned_of_mild (h : Mild A s s') (hx : x < s.fresh) :
    Turned code b (life s x) (life s' x) := by
  rcases h.life x with hl | ⟨hl, -⟩ | ⟨hfresh, -⟩
  · rw [hl]
    exact .same _
  · rw [hl]
    exact .gone _
  · exact (Nat.not_lt.mpr hfresh hx).elim

theorem turn_of_calm (hcalm : ∀ y, Calm anything y code s s') (hs : Sound s) (hn : n ≤ s.fresh) :
    Turn code forced n s s' where
  fresh := (hcalm 0 hs.old).1.fresh
  sound := sound_of_mild (hcalm 0 hs.old).1 hs
  life := fun _ hx => turned_of_mild (hcalm 0 hs.old).1 (hx.trans_le hn)
  said := fun y _ hy => (hcalm y hs.old).2 hy

theorem Turn.refl (hs : Sound s) (hn : n ≤ s.fresh) : Turn code forced n s s :=
  turn_of_calm (fun y => Calm.refl y code s) hs hn

/-- Whatever the program does is a turn. -/
def Turns (code : Nat) (forced : Nat → Prop) (m : Kernel α) : Prop :=
  ∀ n, Keeps (fun s s' => Sound s → n ≤ s.fresh → Turn code forced n s s') m

theorem turns_of_calms {m : Kernel α} (hm : ∀ y, Calms anything y code m) : Turns code forced m :=
  fun _ s a s' h hs hn => turn_of_calm (fun y => hm y s a s' h) hs hn

theorem Turns.bind {m : Kernel α} {f : α → Kernel β} (hm : Turns code forced m)
    (hf : ∀ a, Turns code forced (f a)) : Turns code forced (m >>= f) := by
  refine fun n => Keeps.bind (fun s s' s'' h h' hs hn => ?_) (hm n) fun a => hf a n
  have hturn := h hs hn
  exact hturn.trans (h' hturn.sound (hn.trans hturn.fresh))

/-- If the process is still there, then with this exit code. -/
def CodeIs (p code : Nat) (s : Store) : Prop :=
  ∀ ts e, life s p = some (.process ts e) → e = code

theorem Turned.codeIs (h : Turned code b (life s p) (life s' p)) (hs : CodeIs p code s) :
    CodeIs p code s' := by
  intro ts' e' hl'
  rw [hl'] at h
  generalize hl : life s p = l at h
  cases h with
  | same => exact hs _ _ hl
  | process t ts _ e _ he _ =>
      rcases he with rfl | rfl
      · exact hs _ _ hl
      · rfl
  | forced => rfl

/-- The thread is not in the list of a process anymore, which is shut down
if that was the last one. -/
def Ends (code : Nat) (shutdown : Nat → Nat → Kernel Unit) : Prop :=
  ∀ p, Turns code (· = p) (shutdown p code) ∧
    ∀ s u s', Sound s → shutdown p code s = .ok (u, s') → CodeIs p code s'

theorem lt_of_life (hs : Sound s) {l : Life} (hl : life s x = some l) : x < s.fresh :=
  hs.old x (by rw [hl]; exact nofun)

theorem life_put (s : Store) (x : Nat) (o : Object) (z : Nat) :
    life (put s x (some o)) z = if z = x then some (lifeOf o) else life s z :=
  life_update s x (some o) z

theorem process_of_mild (h : Mild A s s') (hs : Sound s) {q : Process} {ts : List Nat} {e : Nat}
    (hp : life s p = some (.process ts e)) (hq : s'.objects p = some (.process q)) :
    q.threads = ts ∧ q.exitcode = e := by
  have hl' := life_eq hq
  rcases h.life p with hl | ⟨hl, -⟩ | ⟨hfresh, -⟩
  · cases hp.symm.trans (hl.symm.trans hl')
    exact ⟨rfl, rfl⟩
  · cases hl.symm.trans hl'
  · exact (Nat.not_lt.mpr hfresh (lt_of_life hs hp)).elim

theorem old_put (hs : Sound s) {o : Object} {l : Life} (hx : life s x = some l) :
    Old (put s x (some o)) := by
  intro z hz
  rw [life_put] at hz
  split_ifs at hz with hzx
  · rw [hzx]
    exact (lt_of_life hs hx : x < s.fresh)
  · exact hs.old z hz

/-- A thread does not live anymore. -/
theorem sound_put_thread (hs : Sound s) {l : Option Nat} {e : Nat}
    (hx : life s x = some (.thread l e)) {t : Thread} (ht : t.process = none) :
    Sound (put s x (some (.thread t))) := by
  refine ⟨old_put hs hx, fun z p c hz => ?_⟩
  rw [life_put] at hz
  split_ifs at hz with hzx
  · rw [lifeOf, ht] at hz
    cases hz
  · obtain ⟨ts, c', hp, hmem⟩ := hs.live z p c hz
    refine ⟨ts, c', ?_, hmem⟩
    rw [life_put, if_neg]
    · exact hp
    · rintro rfl
      cases hx.symm.trans hp

/-- The threads of a process become others, but not less of those which live. -/
theorem sound_put_process (hs : Sound s) {ts : List Nat} {e : Nat}
    (hp : life s p = some (.process ts e)) {q : Process}
    (hq : ∀ t c, life s t = some (.thread (some p) c) → t ∈ ts → t ∈ q.threads) :
    Sound (put s p (some (.process q))) := by
  refine ⟨old_put hs hp, fun z p' c hz => ?_⟩
  rw [life_put] at hz
  split_ifs at hz with hzp
  · cases hz
  · obtain ⟨ts', c', hp', hmem⟩ := hs.live z p' c hz
    rw [life_put]
    split_ifs with hpp
    · subst hpp
      cases hp.symm.trans hp'
      exact ⟨q.threads, q.exitcode, rfl, hq z c hz hmem⟩
    · exact ⟨ts', c', hp', hmem⟩

theorem turn_put {o : Object} (hsound : Sound (put s x (some o)))
    (hx : Turned code (forced x) (life s x) (some (lifeOf o))) :
    Turn code forced n s (put s x (some o)) where
  fresh := Nat.le_refl _
  sound := hsound
  life := by
    intro z _
    rw [life_put]
    split_ifs with hzx
    · rw [hzx]
      exact hx
    · exact .same _
  said := fun y _ _ => ⟨[], rfl, nofun⟩

theorem calms_assignPages (y : Nat) (f : Process → Option Pages) :
    Calms anything y code (assign processFunctions x fun p => { p with pages := f p }) :=
  calms_assign (fun _ => rfl) fun _ => rfl

theorem calms_logUnmaps (y t : Nat) (uses : List Use) :
    Calms anything y code (logUnmaps t uses) := by
  rintro s _ s' ⟨⟩
  exact calm_of_objects rfl rfl rfl nofun

theorem calms_pagingReleasePhysMem (y t base length : Nat) :
    Calms anything y code (pagingReleasePhysMem x t base length) := by
  refine calms_objectContainer.bind fun p => ?_
  split
  · exact calms_throw _
  · refine calms_ite (Calms.bind (calms_assignPages y _) fun _ => ?_) (calms_throw _)
    exact calms_logUnmaps y t _

theorem calms_wakeup (code : Nat) (q : Queue) (all : Bool) (y : Nat) :
    Calms anything y code (queueWakeup q all (.value code)) := calms_queueWakeup (fun _ => rfl) all

/-- The thread leaves its process, which is shut down if that was the last one. -/
theorem leave_turn {shutdown : Nat → Nat → Kernel Unit} (hshutdown : Ends code shutdown)
    (hs : Sound s) (hn : n ≤ s.fresh) {ts : List Nat} {e : Nat}
    (hp : life s p = some (.process ts e)) (hmem : x ∈ ts)
    (hx : ∀ q c, life s x ≠ some (.thread (some q) c)) {u : Unit}
    (h : (do unlinkThread p x
             queueWakeup (.waiters x) true (.value code)
             shutdownEmpty shutdown p code : Kernel Unit) s = .ok (u, s')) :
    Turn code (fun _ => False) n s s' := by
  obtain ⟨_, s₁, hunlink, hm⟩ := bind_ok.mp h
  obtain ⟨_, s₂, hwake, hm⟩ := bind_ok.mp hm
  obtain ⟨q, s₃, hq, hend⟩ := bind_ok.mp hm
  obtain ⟨q₀, hq₀, hs₁⟩ := assign_eq_ok.mp hunlink
  obtain ⟨hq, rfl⟩ := objectContainer_eq_ok.mp hq
  obtain ⟨rfl, rfl⟩ : q₀.threads = ts ∧ q₀.exitcode = e := by
    cases (life_eq hq₀).symm.trans hp
    exact ⟨rfl, rfl⟩
  have hsound₁ : Sound s₁ := by
    rw [hs₁]
    refine sound_put_process hs (life_eq hq₀) fun t c ht hmem' => ?_
    refine (List.mem_erase_of_ne ?_).mpr hmem'
    rintro rfl
    exact hx p c ht
  have hmild := (calms_wakeup code _ true 0 s₁ _ s₃ hwake hsound₁.old).1
  have hlife₁ : ∀ z, life s₁ z = if z = p then some (.process (q₀.threads.erase x) q₀.exitcode)
      else life s z := by
    intro z
    rw [hs₁, life_put]
    rfl
  obtain ⟨hthreads, hexit⟩ := process_of_mild hmild hsound₁ (by rw [hlife₁, if_pos rfl]) hq
  obtain ⟨t, ts, hts⟩ := List.exists_cons_of_ne_nil (List.ne_nil_of_mem hmem)
  have hfresh : s₁.fresh = s.fresh := by rw [hs₁]; rfl
  have hwoken : Turn code (fun _ => False) n s₁ s₃ :=
    turns_of_calms (calms_wakeup code _ _) n _ _ _ hwake hsound₁ (hfresh.ge.trans' hn)
  have hlog : s₁.log = s.log := by rw [hs₁]; rfl
  have htyped : ∀ y < n, Typed y s → Typed y s₁ := by
    intro y _ hy
    refine ⟨hfresh.ge.trans_lt' hy.1, ?_⟩
    rw [hlife₁]
    split_ifs
    · exact nofun
    · exact hy.2
  have hsaid : ∀ y < n, Typed y s → Said y code s s₃ := by
    intro y hyn hy
    obtain ⟨new, hnew, hsaid⟩ := hwoken.said y hyn (htyped y hyn hy)
    exact ⟨new, hnew.trans (by rw [hlog]), hsaid⟩
  have hlife₃ : life s₃ p = some (.process (q₀.threads.erase x) q₀.exitcode) := by
    rw [← hthreads, ← hexit]
    exact life_eq hq
  have hother : ∀ z < n, z ≠ p → Turned code False (life s z) (life s₃ z) := by
    intro z hz hzp
    have hturned := hwoken.life z hz
    rw [hlife₁, if_neg hzp] at hturned
    exact hturned
  split_ifs at hend with hempty
  · -- The last thread: the process ends with the code of this thread.
    rw [hthreads] at hempty
    rw [hempty] at hlife₃
    have hturn :=
      (hshutdown p).1 n _ _ _ hend hwoken.sound (hn.trans (hfresh.ge.trans hwoken.fresh))
    have hcode := (hshutdown p).2 _ _ _ hwoken.sound hend
    refine ⟨hfresh.ge.trans (hwoken.fresh.trans hturn.fresh), hturn.sound, fun z hz => ?_, ?_⟩
    · rcases eq_or_ne z p with rfl | hzp
      · have hturned := hturn.life z hz
        rw [hlife₃] at hturned
        rw [hp, hts]
        generalize hl : life s' z = l at hturned
        cases hturned with
        | same => exact .process t ts [] _ _ (Or.inl rfl) fun _ => hcode _ _ hl
        | gone => exact .gone _
        | forced => exact .process t ts [] _ _ (Or.inr rfl) fun _ => rfl
      · exact (hother z hz hzp).trans ((hturn.life z hz).mono hzp)
    · intro y hyn hy
      refine (hsaid y hyn hy).trans (hturn.said y hyn ⟨?_, ?_⟩)
      · exact (htyped y hyn hy).1.trans_le hwoken.fresh
      · exact (hwoken.life y hyn).ne_other (htyped y hyn hy).2
  · cases hend
    rw [hthreads] at hempty
    refine ⟨hfresh.ge.trans hwoken.fresh, hwoken.sound, fun z hz => ?_, hsaid⟩
    rcases eq_or_ne z p with rfl | hzp
    · rw [hlife₃, hp, hts]
      rw [hts] at hempty
      exact .process t ts _ _ _ (Or.inl rfl) fun h => (hempty h).elim
    · exact hother z hz hzp

/-- A thread which has just been shut down. -/
def ended (t : Thread) (code : Nat) : Thread :=
  { t with process := none, exitcode := code, userThreadLocalBase := 0, userRing3StackBase := 0 }

theorem threadShutdownWith_turns {shutdown : Nat → Nat → Kernel Unit}
    (hshutdown : Ends code shutdown) :
    Turns code (fun _ => False) (threadShutdownWith shutdown x code) := by
  intro n s u s' h hs hn
  obtain ⟨t, s₁, ht, hm⟩ := bind_ok.mp h
  obtain ⟨ht, rfl⟩ := objectContainer_eq_ok.mp ht
  rcases hprocess : t.process with _ | p
  · rw [hprocess] at hm
    cases hm
    exact .refl hs hn
  · rw [hprocess] at hm
    obtain ⟨_, s₂, hassert, hm⟩ := bind_ok.mp hm
    obtain ⟨_, s₃, hassert', hm⟩ := bind_ok.mp hm
    obtain ⟨_, s₄, hassign, hm⟩ := bind_ok.mp hm
    obtain ⟨_, s₅, hstorage, hm⟩ := bind_ok.mp hm
    obtain ⟨_, s₆, hstack, hm⟩ := bind_ok.mp hm
    obtain ⟨_, s₇, hremove, hm⟩ := bind_ok.mp hm
    obtain ⟨_, s₈, hunlink, hm⟩ := bind_ok.mp hm
    obtain ⟨_, s₉, hwake, hm⟩ := bind_ok.mp hm
    obtain ⟨_, s₁₀, hempty, hrelease⟩ := bind_ok.mp hm
    obtain ⟨-, rfl⟩ := kernelAssert_eq_ok.mp hassert
    obtain ⟨-, rfl⟩ := kernelAssert_eq_ok.mp hassert'
    obtain ⟨t', ht', rfl⟩ := assign_eq_ok.mp hassign
    cases ht.symm.trans ht'
    have hx : life s₃ x = some (.thread (some p) t.exitcode) := by
      rw [← hprocess]
      exact life_eq ht
    obtain ⟨ts, e, hp, hmem⟩ := hs.live x p _ hx
    have hpx : p ≠ x := by
      rintro rfl
      cases hx.symm.trans hp
    have hfirst : Turn code (fun _ => False) n s₃ (put s₃ x (some (.thread (ended t code)))) := by
      refine turn_put (sound_put_thread hs hx rfl) ?_
      rw [hx]
      exact .thread p _
    have hcalm : ∀ y, Calm anything y code (put s₃ x (some (.thread (ended t code)))) s₇ := fun y =>
      ((calms_pagingReleasePhysMem y _ _ _ _ _ _ hstorage).trans
        (calms_pagingReleasePhysMem y _ _ _ _ _ _ hstack)).trans (calms_llRemove _ _ _ hremove)
    have hsecond : Turn code (fun _ => False) n _ s₇ := turn_of_calm hcalm hfirst.sound hn
    obtain ⟨q, hq, -⟩ := assign_eq_ok.mp hunlink
    have hmild := (hcalm 0 hfirst.sound.old).1
    have hpxlife := life_put s₃ x (.thread (ended t code))
    obtain ⟨hthreads, hexit⟩ := process_of_mild hmild hfirst.sound
      (by rw [hpxlife, if_neg hpx]; exact hp) hq
    have hthird : Turn code (fun _ => False) n s₇ s₁₀ := by
      refine leave_turn (x := x) hshutdown hsecond.sound (hn.trans hsecond.fresh) (life_eq hq) ?_ ?_
        (bind_ok.mpr ⟨_, _, hunlink, bind_ok.mpr ⟨_, _, hwake, hempty⟩⟩)
      · rw [hthreads]
        exact hmem
      · intro p' c hlive
        rcases hmild.life x with hl | ⟨hl, -⟩ | ⟨-, hl | hl⟩
        · rw [hl, hpxlife, if_pos rfl] at hlive
          cases hlive
        · cases hl.symm.trans hlive
        · cases hl.symm.trans hlive
        · cases hl.symm.trans hlive
    have hlast : Turns code (fun _ => False) (objectRelease x >>= fun _ => objectRelease p) :=
      turns_of_calms fun y => calms_objectRelease.bind fun _ => calms_objectRelease
    have hthree := (hfirst.trans hsecond).trans hthird
    exact hthree.trans (hlast n _ _ _ hrelease hthree.sound (hn.trans hthree.fresh))

theorem Turn.codeIs (h : Turn code forced n s s') (hs : CodeIs p code s) (hp : p < n) :
    CodeIs p code s' := (h.life p hp).codeIs hs

theorem shutdownLoop_turns {shutdown : Nat → Nat → Kernel Unit}
    (hshutdown : ∀ t, Turns code (fun _ => False) (shutdown t code)) (fuel : Nat)
    (next : Option Nat)
    (n : Nat) {u : Unit} (hs : Sound s) (hn : n ≤ s.fresh) (hp : p < s.fresh)
    (hcode : CodeIs p code s)
    (h : shutdownLoop shutdown p fuel next s = .ok (u, s')) :
    Turn code (fun _ => False) n s s' := by
  induction fuel generalizing next n s with
  | zero =>
      rcases next with _ | t
      · cases h
        exact .refl hs hn
      · cases h
  | succ fuel ih =>
      rcases next with _ | t
      · cases h
        exact .refl hs hn
      · obtain ⟨next', s₁, hnext, hm⟩ := bind_ok.mp h
        obtain ⟨q, s₂, hq, hm⟩ := bind_ok.mp hm
        obtain ⟨_, s₃, ht, hloop⟩ := bind_ok.mp hm
        obtain ⟨hq, rfl⟩ := objectContainer_eq_ok.mp hq
        obtain rfl : s₂ = s := by
          obtain ⟨_, s₄, hq', hm'⟩ := bind_ok.mp hnext
          obtain ⟨-, rfl⟩ := objectContainer_eq_ok.mp hq'
          split_ifs at hm'
          · cases hm'
            rfl
          · cases hm'
        rw [hcode _ _ (life_eq hq)] at ht
        have hturn := hshutdown t n _ _ _ ht hs hn
        have hall := hshutdown t s₂.fresh _ _ _ ht hs (Nat.le_refl _)
        exact hturn.trans (ih next' n hturn.sound (hn.trans hturn.fresh) (hp.trans_le hturn.fresh)
          (hall.codeIs hcode hp) hloop)

theorem Turn.mono {forced' : Nat → Prop} (h : Turn code forced n s s')
    (hf : ∀ x, forced x → forced' x) : Turn code forced' n s s' :=
  ⟨h.fresh, h.sound, fun x hx => (h.life x hx).mono (hf x), h.said⟩

theorem processShutdownWith_turn {shutdown : Nat → Nat → Kernel Unit}
    (hshutdown : ∀ t, Turns code (fun _ => False) (shutdown t code)) {u : Unit} (hs : Sound s)
    (h : processShutdownWith shutdown p code s = .ok (u, s')) :
    Turn code (· = p) s.fresh s s' ∧ CodeIs p code s' := by
  obtain ⟨_, s₁, hassign, hm⟩ := bind_ok.mp h
  obtain ⟨_, s₂, hadd, hm⟩ := bind_ok.mp hm
  obtain ⟨_, s₃, hwake, hm⟩ := bind_ok.mp hm
  obtain ⟨q', s₄, hq', hm⟩ := bind_ok.mp hm
  obtain ⟨_, s₅, hloop, hend⟩ := bind_ok.mp hm
  obtain ⟨-, rfl⟩ := objectContainer_eq_ok.mp hq'
  obtain ⟨q, hq, hs₁⟩ := assign_eq_ok.mp hassign
  have hp : p < s.fresh := lt_of_life hs (life_eq hq)
  have hlife₁ : life s₁ p = some (.process q.threads code) := by
    rw [hs₁, life_put, if_pos rfl]
    rfl
  have hfirst : Turn code (· = p) s.fresh s s₁ := by
    rw [hs₁]
    refine turn_put (sound_put_process hs (life_eq hq) fun _ _ _ h => h) ?_
    rw [life_eq hq]
    change Turned code (p = p) (some (.process q.threads q.exitcode))
      (some (.process q.threads code))
    rcases q.threads with _ | ⟨t, ts⟩
    · exact .forced _ rfl
    · exact .process t ts _ _ _ (Or.inr rfl) fun _ => rfl
  have hcode₁ : CodeIs p code s₁ := by
    intro ts e hl
    cases hlife₁.symm.trans hl
    rfl
  have hsecond : Turn code (fun _ => False) s.fresh s₁ s₄ := by
    refine turns_of_calms (m := objectAddRef p >>= fun _ =>
      queueWakeup (.waiters p) true (.value code)) (fun y => ?_) _ _ _ _
      (bind_ok.mpr ⟨_, _, hadd, hwake⟩) hfirst.sound hfirst.fresh
    exact calms_objectAddRef.bind fun _ => calms_wakeup code _ true y
  have hthird := shutdownLoop_turns hshutdown _ _ s.fresh hsecond.sound
    (hfirst.fresh.trans hsecond.fresh) (hp.trans_le (hfirst.fresh.trans hsecond.fresh))
    (hsecond.codeIs hcode₁ hp) hloop
  have hlast : Turn code (fun _ => False) s.fresh s₅ s' := by
    refine turns_of_calms (m := releasePageTable p >>= fun _ =>
      handleTableFree objectRelease p >>= fun _ => objectRelease p) (fun y => ?_) _ _ _ _ hend
      hthird.sound (hfirst.fresh.trans (hsecond.fresh.trans hthird.fresh))
    refine Calms.bind (calms_assignPages y _) fun _ => ?_
    exact (calms_handleTableFree fun _ => calms_objectRelease).bind fun _ => calms_objectRelease
  have hrest := (hsecond.trans hthird).trans hlast
  exact ⟨hfirst.trans (hrest.mono nofun), hrest.codeIs hcode₁ hp⟩

theorem Turn.restrict (h : Turn code forced n s s') {m : Nat} (hm : m ≤ n) :
    Turn code forced m s s' :=
  ⟨h.fresh, h.sound, fun x hx => h.life x (hx.trans_le hm), fun y hy => h.said y (hy.trans_le hm)⟩

theorem processShutdownNested_ends (fuel code : Nat) : Ends code (processShutdownNested fuel) := by
  induction fuel with
  | zero => exact fun p => ⟨fun _ _ _ _ h => (nomatch h), fun _ _ _ _ h => (nomatch h)⟩
  | succ fuel ih =>
      intro p
      have hthread : ∀ t, Turns code (fun _ => False)
          (threadShutdownWith (processShutdownNested fuel) t code) :=
        fun t => threadShutdownWith_turns ih
      refine ⟨fun n s u s' h hs hn => ?_, fun s u s' hs h => ?_⟩
      · exact (processShutdownWith_turn hthread hs h).1.restrict hn
      · exact (processShutdownWith_turn hthread hs h).2

theorem processShutdown_turns (p code : Nat) : Turns code (· = p) (processShutdown p code) :=
  (processShutdownNested_ends 2 code p).1

theorem threadShutdown_turns (x code : Nat) : Turns code (fun _ => False) (threadShutdown x code) :=
  threadShutdownWith_turns (processShutdownNested_ends 2 code)

theorem calms_pagingTryAllocatePhysMem (y length : Nat) (use : Use) :
    Calms anything y code (pagingTryAllocatePhysMem x length use) := by
  refine calms_objectContainer.bind fun p => calms_get.bind fun s => ?_
  split
  · exact calms_throw _
  · split
    · exact calms_pure _
    · refine calms_kernelAssert.bind fun _ => Calms.bind (calms_assignPages y _) fun _ => ?_
      exact calms_pure _

theorem calms_pagingAllocatePhysMem (y length : Nat) (use : Use) :
    Calms anything y code (pagingAllocatePhysMem x length use) := by
  refine (calms_pagingTryAllocatePhysMem y length use).bind fun r => ?_
  split
  · exact calms_throw _
  · exact calms_pure _

theorem calms_allocateAreas (y t : Nat) : Calms anything y code (allocateAreas x t) :=
  (calms_pagingAllocatePhysMem y _ _).bind fun _ =>
    (calms_pagingAllocatePhysMem y _ _).bind fun _ => calms_pure _

theorem calms_initialThread (y new : Nat) (original : Option Nat) :
    Calms anything y code (initialThread x new original) := by
  rcases original with _ | t
  · exact (calms_allocateAreas y new).bind fun _ => calms_pure _
  · refine calms_objectContainer.bind fun _ => calms_kernelAssert.bind fun _ => ?_
    exact Calms.bind (calms_assignPages y _) fun _ => calms_pure _

theorem allocateAreas_process {new : Nat} {f : Thread → Thread}
    (h : allocateAreas x new s = .ok (f, s')) (t : Thread) : (f t).process = t.process ∧
      (f t).exitcode = t.exitcode := by
  obtain ⟨_, s₁, -, hm⟩ := bind_ok.mp h
  obtain ⟨_, s₂, -, hm⟩ := bind_ok.mp hm
  cases hm
  exact ⟨rfl, rfl⟩

theorem initialThread_process {new : Nat} {original : Option Nat} {t : Thread}
    (h : initialThread x new original s = .ok (t, s')) : t.process = some x := by
  rcases original with _ | t₀
  · obtain ⟨f, s₁, hf, hm⟩ := bind_ok.mp h
    cases hm
    exact (allocateAreas_process hf _).1
  · obtain ⟨_, s₁, -, hm⟩ := bind_ok.mp h
    obtain ⟨_, s₂, -, hm⟩ := bind_ok.mp hm
    obtain ⟨_, s₃, -, hm⟩ := bind_ok.mp hm
    cases hm
    rfl

/-- A new thread of a process which is a new one or has threads. -/
def Inhabited (n p : Nat) (s : Store) : Prop :=
  n ≤ p ∨ ∃ t ts e, life s p = some (.process (t :: ts) e)

/-- The new thread has been put into the list of its process. -/
theorem admit_turn (hs : Sound s) (hn : n ≤ s.fresh) {t : Thread} {q : Process}
    (ht : t.process = some p) (hq : s.objects p = some (.process q)) (hp : Inhabited n p s)
    (hlife : ∀ z, life s' z = if z = p then some (.process (q.threads ++ [s.fresh]) q.exitcode)
      else if z = s.fresh then some (lifeOf (.thread t)) else life s z)
    (hfresh : s'.fresh = s.fresh + 1) (hlog : s'.log = s.log) :
    Turn code (fun _ => False) n s s' := by
  have hpfresh : p < s.fresh := lt_of_life hs (life_eq hq)
  refine ⟨hfresh.ge.trans' (Nat.le_succ _), ⟨fun z hz => ?_, fun z p' c hz => ?_⟩, fun z hz => ?_,
    fun y _ _ => ⟨[], hlog, nofun⟩⟩
  · rw [hfresh]
    rw [hlife] at hz
    split_ifs at hz with hzp hznew
    · rw [hzp]
      exact hpfresh.trans (Nat.lt_succ_self _)
    · rw [hznew]
      exact Nat.lt_succ_self _
    · exact (hs.old z hz).trans (Nat.lt_succ_self _)
  · rw [hlife] at hz
    split_ifs at hz with hzp hznew
    · cases hz
    · subst hznew
      rw [lifeOf, ht] at hz
      cases hz
      exact ⟨_, _, by rw [hlife, if_pos rfl], List.mem_append_right _ List.mem_cons_self⟩
    · obtain ⟨ts, c', hp', hmem⟩ := hs.live z p' c hz
      rw [hlife]
      split_ifs with hpp hpnew
      · subst hpp
        cases (life_eq hq).symm.trans hp'
        exact ⟨_, _, rfl, List.mem_append_left _ hmem⟩
      · exact ((lt_of_life hs hp').ne hpnew).elim
      · exact ⟨ts, c', hp', hmem⟩
  · rw [hlife]
    split_ifs with hzp hznew
    · subst hzp
      rcases hp with hp | ⟨t', ts, e, hp⟩
      · exact (Nat.not_lt.mpr hp hz).elim
      · obtain ⟨-, rfl⟩ : q.threads = t' :: ts ∧ q.exitcode = e :=
          process_of_mild (A := anything) (.refl hs.old) hs hp hq
        rw [hp]
        refine .process t' ts _ _ _ (Or.inl rfl) fun hnil => ?_
        exact (List.append_ne_nil_of_right_ne_nil _ (List.cons_ne_nil _ _) hnil).elim
    · exact ((hz.trans_le hn).ne hznew).elim
    · exact .same _

theorem threadCreate_turn (code : Nat) {original : Option Nat} {r : Option Nat} (hs : Sound s)
    (hn : n ≤ s.fresh) (hp : Inhabited n p s)
    (h : threadCreate p original s = .ok (r, s')) : Turn code (fun _ => False) n s s' := by
  obtain ⟨granted, s₁, hrequest, hm⟩ := bind_ok.mp h
  have hone : Turn code (fun _ => False) n s s₁ :=
    turns_of_calms (fun y => calms_request) n _ _ _ hrequest hs hn
  split_ifs at hm
  · obtain ⟨s₀, _, hget, hm⟩ := bind_ok.mp hm
    cases hget
    obtain ⟨t, s₂, ht, hm⟩ := bind_ok.mp hm
    obtain ⟨x, s₃, hinit, hm⟩ := bind_ok.mp hm
    obtain ⟨_, s₄, hadd, hm⟩ := bind_ok.mp hm
    obtain ⟨_, s₅, hassign, hrefs⟩ := bind_ok.mp hm
    have hcalm : ∀ y, Calm anything y code s s₂ := fun y =>
      (calms_request _ _ _ hrequest).trans (calms_initialThread y _ original _ _ _ ht)
    have hmild := (hcalm 0 hs.old).1
    have htwo : Turn code (fun _ => False) n s s₂ := turn_of_calm hcalm hs hn
    obtain ⟨q, hq, hs₅⟩ := assign_eq_ok.mp hassign
    cases hinit
    cases hadd
    have hpfresh : p ≠ s₂.fresh := by
      rintro rfl
      cases (Function.update_self _ _ _).symm.trans hq
    have hq₂ : s₂.objects p = some (.process q) := (Function.update_of_ne hpfresh _ _).symm.trans hq
    have hp₂ : Inhabited n p s₂ := by
      rcases hp with hp | ⟨t', ts, e, hp⟩
      · exact Or.inl hp
      · obtain ⟨hthreads, hexit⟩ := process_of_mild hmild hs hp hq₂
        refine Or.inr ⟨t', ts, e, ?_⟩
        rw [← hthreads, ← hexit]
        exact life_eq hq₂
    have hthree : Turn code (fun _ => False) n s₂ s₅ := by
      refine admit_turn htwo.sound (hn.trans htwo.fresh) (initialThread_process ht) hq₂ hp₂ ?_ ?_ ?_
      · intro z
        rw [hs₅, life_put, life, life_update]
        rfl
      · rw [hs₅]
        rfl
      · rw [hs₅]
        rfl
    have hlast : Turns code (fun _ => False) (objectAddRef s₂.fresh >>= fun _ =>
        objectAddRef p >>= fun _ => pure (some s₂.fresh)) :=
      turns_of_calms fun y => calms_objectAddRef.bind fun _ => calms_objectAddRef.bind fun _ =>
        calms_pure _
    have hall := htwo.trans hthree
    exact hall.trans (hlast n _ _ _ hrefs hall.sound (hn.trans hall.fresh))
  · cases hm
    exact hone

theorem Turned.drop (h : Turned code b l l') (hl : ∀ e, l ≠ some (.process [] e)) :
    Turned code b' l l' := by
  cases h with
  | same => exact .same _
  | gone => exact .gone _
  | thread p e => exact .thread p e
  | process t ts ts' e e' he hts => exact .process t ts ts' e e' he hts
  | forced e h => exact (hl e rfl).elim

/-- The exit code of a process without threads is set again. -/
def Forces (i : Input) (code x : Nat) : Prop := ∃ t, i = .call t (.shutdown x code)

/-- What one input does with the threads and processes there are. -/
def Outcome (i : Input) (s s' : Store) : Prop :=
  Mild anything s s' ∨ ∃ code, Turn code (Forces i code) s.fresh s s'

theorem running_life {t : Nat} (h : running s t = some p) :
    ∃ e, life s t = some (.thread (some p) e) := by
  rw [running] at h
  split at h
  · rename_i thread hthread
    split_ifs at h
    rw [← h]
    exact ⟨thread.exitcode, life_eq hthread⟩
  · cases h

theorem otherThreadsLoop_turns (t p fuel : Nat) (next : Option Nat) :
    Turns (WORD - 3) (fun _ => False) (otherThreadsLoop t p fuel next) := by
  induction fuel generalizing next with
  | zero =>
      rcases next with _ | x
      · exact turns_of_calms fun y => calms_pure ()
      · exact turns_of_calms fun y => calms_throw _
  | succ fuel ih =>
      rcases next with _ | x
      · exact turns_of_calms fun y => calms_pure ()
      · refine Turns.bind (turns_of_calms fun y => ?_) fun next' => Turns.bind ?_ fun _ => ih next'
        · exact calms_objectContainer.bind fun _ => calms_ite (calms_pure _) (calms_throw _)
        · rw [shutdownOther]
          split_ifs
          · exact turns_of_calms fun y => calms_pure ()
          · exact threadShutdown_turns x _

theorem executeProgram_turns (t p : Nat) (load : Pages → Option Pages) :
    Turns (WORD - 3) (fun _ => False) (executeProgram t p load) := by
  refine Turns.bind (turns_of_calms fun y => calms_get) fun s => ?_
  split
  · exact turns_of_calms fun y => calms_pure ()
  · refine Turns.bind (turns_of_calms fun y => calms_assignPages y _) fun _ => ?_
    refine Turns.bind (turns_of_calms fun y => calms_objectContainer) fun process => ?_
    refine (otherThreadsLoop_turns t p _ _).bind fun _ => ?_
    intro n s a s' h hs hn
    obtain ⟨f, s₁, hf, hm⟩ := bind_ok.mp h
    have hareas : Turn (WORD - 3) (fun _ => False) n s s₁ :=
      turns_of_calms (fun y => calms_allocateAreas y t) n _ _ _ hf hs hn
    refine hareas.trans ?_
    have hf' : ∀ y, Calms anything y (WORD - 3) (assign threadFunctions t f) := by
      refine fun y => calms_assign (fun thread => ?_) fun _ => rfl
      obtain ⟨hprocess, hexit⟩ := allocateAreas_process hf thread
      change Life.thread (f thread).process (f thread).exitcode =
        .thread thread.process thread.exitcode
      rw [hprocess, hexit]
    exact turns_of_calms hf' n _ _ _ hm hareas.sound (hn.trans hareas.fresh)

theorem forkThread_turn (code : Nat) {t newP : Nat} {u : Unit} (hs : Sound s) (hn : n ≤ s.fresh)
    (hnew : n ≤ newP) (h : forkThread t p newP s = .ok (u, s')) :
    Turn code (fun _ => False) n s s' := by
  obtain ⟨r, s₁, hr, hm⟩ := bind_ok.mp h
  have hfirst := threadCreate_turn code hs hn (Or.inl hnew) hr
  rcases r with _ | newT
  · cases hm
    exact hfirst
  · refine hfirst.trans
      (turns_of_calms (fun y => ?_) n _ _ _ hm hfirst.sound (hn.trans hfirst.fresh))
    exact (calms_handleAllocate p newP).bind fun _ => calms_objectRelease

theorem calms_initialProcess (y : Nat) (original : Option Nat) :
    Calms anything y code (initialProcess original) := by
  rcases original with _ | p
  · exact calms_get.bind fun _ => calms_pure _
  · refine calms_objectContainer.bind fun q => ?_
    split
    · exact calms_throw _
    · exact (calms_forEach (fun _ => calms_objectAddRef) _).bind fun _ => calms_pure _

theorem initialProcess_eq_ok {original : Option Nat} {q : Process}
    (h : initialProcess original s = .ok (q, s')) : q.threads = [] ∧ q.exitcode = MINUS_ONE := by
  rcases original with _ | p
  · cases h
    exact ⟨rfl, rfl⟩
  · obtain ⟨q₀, s₁, -, hm⟩ := bind_ok.mp h
    rcases hhandles : q₀.handles with _ | handles
    · rw [hhandles] at hm
      cases hm
    · rw [hhandles] at hm
      obtain ⟨_, s₂, -, hm⟩ := bind_ok.mp hm
      cases hm
      exact ⟨rfl, rfl⟩

/-- The new process is a new object. -/
theorem processCreate_spec (code : Nat) {original r : Option Nat} (hold : Old s)
    (h : processCreate original s = .ok (r, s')) : (∀ y, Calm anything y code s s') ∧ ∀ x ∈ r,
      s.fresh ≤ x := by
  obtain ⟨granted, s₁, hrequest, hm⟩ := bind_ok.mp h
  split_ifs at hm
  · obtain ⟨q, s₂, hq, hm⟩ := bind_ok.mp hm
    have hcalm : ∀ y, Calm anything y code s s₂ := fun y =>
      (calms_request _ _ _ hrequest).trans (calms_initialProcess y original _ _ _ hq)
    obtain ⟨hthreads, hexit⟩ := initialProcess_eq_ok hq
    have hlife : lifeOf (.process q) = .process [] MINUS_ONE := by
      rw [← hthreads, ← hexit]
      rfl
    refine ⟨fun y => (hcalm y).trans ?_, ?_⟩
    · exact Calms.bind (calms_objectInit (Or.inr hlife)) (fun _ => calms_pure _) _ _ _ hm
    · obtain ⟨x, s₃, hinit, hm⟩ := bind_ok.mp hm
      cases hinit
      cases hm
      rintro _ ⟨⟩
      exact (hcalm 0 hold).1.fresh
  · cases hm
    exact ⟨fun y => calms_request _ _ _ hrequest, nofun⟩

theorem fork_turn {t : Nat} {u : Unit} (hs : Sound s) (h : fork t p s = .ok (u, s')) :
    Turn code (fun _ => False) s.fresh s s' := by
  obtain ⟨r, s₁, hr, hm⟩ := bind_ok.mp h
  obtain ⟨hcalm, hfresh⟩ := processCreate_spec code hs.old hr
  have hfirst : Turn code (fun _ => False) s.fresh s s₁ := turn_of_calm hcalm hs (Nat.le_refl _)
  rcases r with _ | newP
  · cases hm
    exact hfirst
  · obtain ⟨_, s₂, hthread, hm⟩ := bind_ok.mp hm
    have hsecond := forkThread_turn code hfirst.sound hfirst.fresh (hfresh newP rfl) hthread
    have htwo := hfirst.trans hsecond
    exact htwo.trans
      (turns_of_calms (fun y => calms_objectRelease) _ _ _ _ hm htwo.sound htwo.fresh)

theorem returnThread_turn {u : Unit} (hs : Sound s) (hp : Inhabited s.fresh p s)
    (h : returnHandle p (threadCreate p none) s = .ok (u, s')) :
    Turn code (fun _ => False) s.fresh s s' := by
  obtain ⟨r, s₁, hr, hm⟩ := bind_ok.mp h
  have hfirst := threadCreate_turn code hs (Nat.le_refl _) hp hr
  rcases r with _ | x
  · cases hm
    exact hfirst
  · refine hfirst.trans (turns_of_calms (fun y => ?_) _ _ _ _ hm hfirst.sound hfirst.fresh)
    exact (calms_handleAllocate p x).bind fun _ => calms_objectRelease

theorem objectShutdown_outcome {t mode : Nat} {u : Unit} (hs : Sound s)
    (h : objectShutdown x mode s = .ok (u, s')) : Outcome (.call t (.shutdown x mode)) s s' := by
  obtain ⟨o, s₁, ho, hm⟩ := bind_ok.mp h
  obtain ⟨ho, rfl⟩ := getObject_eq_ok.mp ho
  rcases o with t' | q | e | e | value | t' | q | _
  · refine Or.inr ⟨mode, (threadShutdown_turns x mode _ _ _ _ hm hs (Nat.le_refl _)).mono nofun⟩
  · refine Or.inr ⟨mode, (processShutdown_turns x mode _ _ _ _ hm hs (Nat.le_refl _)).mono ?_⟩
    rintro _ rfl
    exact ⟨t, rfl⟩
  · exact Or.inl (milds_queueWakeup _ _ _ _ _ _ hm hs.old)
  · cases hm
    exact Or.inl (.refl hs.old)
  · exact Or.inl (milds_queueWakeup _ _ _ _ _ _ hm hs.old)
  · refine Or.inl (Milds.bind calms_timerDeactivate.milds (fun _ => ?_) _ _ _ hm hs.old)
    exact milds_queueWakeup _ _ _
  · exact Or.inl (milds_pipeShutdown q _ _ _ _ hm hs.old)
  · cases hm
    exact Or.inl (.refl hs.old)

theorem exitProcess_outcome {i : Input} {t : Nat} {u : Unit} (hs : Sound s)
    (hrun : running s t = some p) (h : processShutdown p code s = .ok (u, s')) :
      Outcome i s s' := by
  have hturn := processShutdown_turns p code _ _ _ _ h hs (Nat.le_refl _)
  refine Or.inr ⟨code, hturn.fresh, hturn.sound, fun x hx => ?_, hturn.said⟩
  obtain ⟨e, ht⟩ := running_life hrun
  obtain ⟨ts, e', hp, hmem⟩ := hs.live t p e ht
  rcases eq_or_ne x p with rfl | hxp
  · refine (hturn.life x hx).drop fun e'' hl => ?_
    cases hp.symm.trans hl
    cases hmem
  · exact (hturn.life x hx).mono fun h => (hxp h).elim

theorem milds_allocateMemory (p length : Nat) : Milds anything (allocateMemory p length) :=
  (calms_pagingTryAllocatePhysMem 0 length _).milds.bind fun _ => milds_pure ()

theorem milds_releaseMemory (p addr length : Nat) :
    Milds anything (releaseMemory p addr length) := by
  refine calms_objectContainer.milds.bind fun process => ?_
  split
  · exact (calms_throw _).milds
  · exact (calms_assignPages 0 _).milds

theorem perform_outcome {t : Nat} {handles : List Nat} {call : Call} {u : Unit} (hs : Sound s)
    (hrun : running s t = some p) (h : perform t p handles call s = .ok (u, s')) :
    Outcome (.call t call) s s' := by
  have hquiet : ∀ {m : Kernel Unit}, Milds anything m → m s = .ok (u, s') →
    Outcome (.call t call) s s' :=
    fun hm h => Or.inl (hm _ _ _ h hs.old)
  have hinhabited : Inhabited s.fresh p s := by
    obtain ⟨e, ht⟩ := running_life hrun
    obtain ⟨ts, e', hp, hmem⟩ := hs.live t p e ht
    obtain ⟨t', ts', rfl⟩ := List.exists_cons_of_ne_nil (List.ne_nil_of_mem hmem)
    exact Or.inr ⟨t', ts', e', hp⟩
  cases call with
  | exitProcess exitcode => exact exitProcess_outcome hs hrun h
  | exitThread exitcode =>
      exact Or.inr ⟨exitcode,
        (threadShutdown_turns t exitcode _ _ _ _ h hs (Nat.le_refl _)).mono nofun⟩
  | getCurrentProcess => exact hquiet (calms_handleAllocate p p).milds h
  | getCurrentThread => exact hquiet (calms_handleAllocate p t).milds h
  | executeProgram load =>
      exact Or.inr ⟨_, (executeProgram_turns t p load _ _ _ _ h hs (Nat.le_refl _)).mono nofun⟩
  | allocateMemory length => exact hquiet (milds_allocateMemory p _) h
  | releaseMemory addr length => exact hquiet (milds_releaseMemory p addr _) h
  | fork => exact Or.inr ⟨0, (fork_turn hs h).mono nofun⟩
  | createThread => exact Or.inr ⟨0, (returnThread_turn hs hinhabited h).mono nofun⟩
  | createEvent wakeupAll => exact hquiet (milds_returnHandle p (milds_objectCreate (Or.inl rfl))) h
  | createSemaphore value => exact hquiet (milds_returnHandle p (milds_objectCreate (Or.inl rfl))) h
  | createPipe =>
      refine hquiet (milds_returnHandle p (calms_request.milds.bind fun _ => ?_)) h
      refine milds_ite (calms_get.milds.bind fun _ => ?_) (milds_pure _)
      exact milds_objectCreate (Or.inl rfl)
  | createTimer wakeupAll => exact hquiet (milds_returnHandle p (milds_objectCreate (Or.inl rfl))) h
  | openOther => exact hquiet (milds_returnHandle p (milds_objectCreate (Or.inl rfl))) h
  | dup x => exact hquiet (milds_ite (calms_handleAllocate p x).milds (milds_pure ())) h
  | dup2 x old => exact hquiet (milds_ite (calms_handleSet p x old).milds (milds_pure ())) h
  | close x => exact hquiet (milds_ite (calms_handleRelease p x).milds (milds_pure ())) h
  | shutdown x mode =>
      change (if x ∈ handles then objectShutdown x mode else pure () : Kernel Unit) s = _ at h
      split_ifs at h
      · exact objectShutdown_outcome hs h
      · exact hquiet (milds_pure ()) h
  | wait x mode => exact hquiet (milds_ite (milds_threadWait t x mode) (milds_pure ())) h
  | signal x result => exact hquiet (milds_ite (milds_objectSignal _) (milds_pure ())) h
  | write x buf => exact hquiet (milds_ite (milds_objectWrite buf) (milds_pure ())) h
  | writeTimer x timeout interval =>
      exact hquiet (milds_ite (milds_timerWrite timeout interval) (milds_pure ())) h
  | read x length => exact hquiet (milds_ite (milds_objectRead length) (milds_pure ())) h
  | attach x y mode ident =>
      refine hquiet (milds_ite (calms_getObject.milds.bind fun o => ?_) (milds_pure ())) h
      split
      · exact milds_eventAttachObj y mode ident
      · exact milds_pure ()
  | detach x ident =>
      refine hquiet (milds_ite (calms_getObject.milds.bind fun o => ?_) (milds_pure ())) h
      split
      · exact milds_eventDetachObj ident
      · exact milds_pure ()

theorem handle_outcome {i : Input} {u : Unit} (hs : Sound s) (h : handle i s = .ok (u, s')) :
    Outcome i s s' := by
  rcases i with ⟨t, call⟩ | _ | buf
  · obtain ⟨s₁, s₂, hget, hm⟩ := bind_ok.mp h
    cases hget
    rcases hrun : running s t with _ | p
    · rw [hrun] at hm
      cases hm
      exact Or.inl (.refl hs.old)
    · rw [hrun] at hm
      obtain ⟨handles, s₃, hhandles, hperform⟩ := bind_ok.mp hm
      obtain ⟨-, rfl⟩ := getHandles_eq_ok hhandles
      exact perform_outcome hs hrun hperform
  · exact Or.inl (milds_timerIrq _ _ _ h hs.old)
  · refine Or.inl (Milds.bind calms_get.milds (fun s => ?_) _ _ _ h hs.old)
    split
    · exact milds_pure ()
    · exact milds_objectWrite buf

theorem step_outcome {i : Input} {o : Unit} (hs : Sound s) (h : step s i = .ok (s', o)) :
    Outcome i s s' := by
  obtain ⟨⟨u, s₁⟩, hhandle, hm⟩ := bind_eq_ok.mp h
  cases hm
  exact handle_outcome hs hhandle

theorem Outcome.sound {i : Input} (h : Outcome i s s') (hs : Sound s) : Sound s' := by
  rcases h with hmild | ⟨code, hturn⟩
  · exact sound_of_mild hmild hs
  · exact hturn.sound

theorem Outcome.fresh_le {i : Input} (h : Outcome i s s') : s.fresh ≤ s'.fresh := by
  rcases h with hmild | ⟨code, hturn⟩
  · exact hmild.fresh
  · exact hturn.fresh

/-- A process without threads is shut down with its own exit code, if at all. -/
def Respects (s : Store) (i : Input) : Prop :=
  ∀ t x mode p, i = .call t (.shutdown x mode) → s.objects x = some (.process p) →
    p.threads = [] → mode = p.exitcode

/-- The object has ended with an exit code, or is not there anymore. -/
def Over (x c : Nat) (s : Store) : Prop :=
  x < s.fresh ∧ (life s x = none ∨ exitcodeOf s x = some c)

theorem objects_of_process {ts : List Nat} {e : Nat} (h : life s x = some (.process ts e)) :
    ∃ p, s.objects x = some (.process p) ∧ p.threads = ts ∧ p.exitcode = e := by
  rw [life] at h
  rcases hx : s.objects x with _ | o
  · rw [hx] at h
    cases h
  · rw [hx] at h
    cases o with
    | process p =>
        cases h
        exact ⟨p, rfl, rfl, rfl⟩
    | _ => cases h

theorem exitcodeOf_of_life (h : life s' x = life s x) : exitcodeOf s' x = exitcodeOf s x := by
  rw [exitcodeOf, exitcodeOf, h]

/-- Those which wait for an object when it ends are told its exit code. -/
theorem Outcome.said {i : Input} (h : Outcome i s s') (hs : Sound s) {c : Nat}
    (hx : life s x ≠ none) (halive : exitcodeOf s x = none) (hend : exitcodeOf s' x = some c) :
    Said x c s s' := by
  have hlt := hs.old x hx
  rcases h with hmild | ⟨code, hturn⟩
  · rcases hmild.life x with hl | ⟨hl, -⟩ | ⟨hfresh, -⟩
    · rw [exitcodeOf_of_life hl, halive] at hend
      cases hend
    · rw [exitcodeOf, hl] at hend
      cases hend
    · exact (Nat.not_lt.mpr hfresh hlt).elim
  · have hturned := hturn.life x hlt
    rw [exitcodeOf] at halive hend
    generalize hl : life s x = l at *
    generalize hl' : life s' x = l' at *
    have hcode : c = code ∧ l ≠ some .other := by
      cases hturned with
      | same => cases halive.symm.trans hend
      | gone => cases hend
      | thread p e =>
          cases hend
          exact ⟨rfl, nofun⟩
      | process t ts ts' e e' he hts =>
          rcases ts' with _ | ⟨t', ts'⟩
          · cases hend
            exact ⟨hts rfl, nofun⟩
          · cases hend
      | forced => cases halive
    rw [hcode.1]
    exact hturn.said x hlt ⟨hlt, hl ▸ hcode.2⟩

theorem Outcome.over {i : Input} (h : Outcome i s s') (hi : Respects s i) {c : Nat}
    (hx : Over x c s) : Over x c s' := by
  refine ⟨hx.1.trans_le h.fresh_le, ?_⟩
  rcases h with hmild | ⟨code, hturn⟩
  · rcases hmild.life x with hl | ⟨hl, -⟩ | ⟨hfresh, -⟩
    · rw [exitcodeOf_of_life hl, hl]
      exact hx.2
    · exact Or.inl hl
    · exact (Nat.not_lt.mpr hfresh hx.1).elim
  · have hturned := hturn.life x hx.1
    obtain ⟨-, hover⟩ := hx
    rw [exitcodeOf] at hover ⊢
    generalize hl : life s x = l at *
    generalize hl' : life s' x = l' at *
    cases hturned with
    | same => exact hover
    | gone => exact Or.inl rfl
    | thread p e => rcases hover with hover | hover <;> cases hover
    | process t ts ts' e e' he hts => rcases hover with hover | hover <;> cases hover
    | forced e hforced =>
        obtain ⟨t, rfl⟩ := hforced
        rcases hover with hover | hover
        · cases hover
        · obtain ⟨p, hp, hthreads, hexit⟩ := objects_of_process hl
          rw [hi t x code p rfl hp hthreads, hexit]
          exact Or.inr hover

theorem run_sound {is : List Input} {r : Store × List Unit} (hs : Sound s)
    (h : run step s is = .ok r) : Sound r.1 :=
  run_invariant (fun _ _ _ _ hs _ h => (step_outcome hs h).sound hs) hs (along_true step s is) h

/-- Both ways to ask for the exit code of an object which has ended. -/
theorem exitcode_told {c : Nat} (h : exitcodeOf s x = some c) (mode : Nat) :
    objectGetStatus s x mode = some (.value c) ∧
      objectWait x mode s = .ok (.result (.value c), s) := by
  rw [exitcodeOf, life] at h
  rcases hx : s.objects x with _ | o
  · rw [hx] at h
    cases h
  · rw [hx] at h
    rw [objectGetStatus, hx, objectWait, waitNested, bind_apply, getObject_eq hx]
    cases o with
    | thread t =>
        change (Life.thread t.process t.exitcode).endedWith = some c at h
        rcases hp : t.process with _ | p
        · rw [hp] at h
          cases h
          simp [hp]
          rfl
        · rw [hp] at h
          cases h
    | process p =>
        change (Life.process p.threads p.exitcode).endedWith = some c at h
        rcases hp : p.threads with _ | ⟨t, ts⟩
        · rw [hp] at h
          cases h
          simp [hp]
          rfl
        · rw [hp] at h
          cases h
    | _ => cases h

theorem sound_emptyStore (grants : Nat → Bool) (data : Nat → Nat → UInt8) :
    Sound (emptyStore grants data) := ⟨fun _ h => (h rfl).elim, fun _ _ _ h => nomatch h⟩

/-- Whatever the program does, the threads which live stay in their processes. -/
def Sounds (m : Kernel α) : Prop := Keeps (fun s s' => Sound s → Sound s') m

theorem sounds_of_milds {m : Kernel α} (hm : Milds anything m) : Sounds m :=
  fun s a s' h hs => sound_of_mild (hm s a s' h hs.old) hs

theorem Sounds.bind {m : Kernel α} {f : α → Kernel β} (hm : Sounds m) (hf : ∀ a, Sounds (f a)) :
    Sounds (m >>= f) := Keeps.bind (fun _ _ _ h h' hs => h' (h hs)) hm hf

theorem sounds_demand {create : Kernel (Option Nat)} (hcreate : Sounds create) :
    Sounds (demand create) := by
  refine hcreate.bind fun r => ?_
  split
  · exact sounds_of_milds (calms_throw _).milds
  · exact sounds_of_milds (milds_pure _)

theorem sounds_threadCreate (p : Nat) (original : Option Nat) : Sounds (threadCreate p original) :=
  fun _ _ _ h hs => (threadCreate_turn (n := 0) 0 hs (Nat.zero_le _)
    (Or.inl (Nat.zero_le _)) h).sound

theorem sounds_loadELFModule (load : Pages → Option Pages) : Sounds (loadELFModule load) := by
  refine (sounds_demand fun s r s' h hs => ?_).bind fun p => ?_
  · exact sound_of_mild ((processCreate_spec 0 hs.old h).1 0 hs.old).1 hs
  · refine (sounds_of_milds (calms_objectContainer.milds.bind fun q => ?_)).bind fun _ => ?_
    · split
      · exact (calms_throw _).milds
      · exact (calms_assignPages 0 _).milds
    · refine (sounds_demand (sounds_threadCreate p none)).bind fun t => sounds_of_milds ?_
      refine calms_objectRelease.milds.bind fun _ => calms_objectRelease.milds.bind fun _ => ?_
      exact milds_pure p

theorem booted_sound (h : Booted s) : Sound s := by
  obtain ⟨grants, data, load, u, h⟩ := h
  obtain ⟨⟨u, s⟩, h, hm⟩ := bind_eq_ok.mp h
  cases hm
  have hother : ∀ o, lifeOf o = .other → Sounds (objectCreate o) :=
    fun o ho => sounds_of_milds (milds_objectCreate (Or.inl ho))
  have hmain : Sounds (kernelMain load) := by
    refine (sounds_demand (hother _ rfl)).bind fun stdout => ?_
    refine (sounds_demand ?_).bind fun stdin => ?_
    · refine (sounds_of_milds calms_request.milds).bind fun _ => keeps_ite ?_ ?_
      · exact (sounds_of_milds calms_get.milds).bind fun _ => hother _ rfl
      · exact sounds_of_milds (milds_pure _)
    · refine Sounds.bind ?_ fun _ => (sounds_loadELFModule load).bind fun p => sounds_of_milds ?_
      · rintro s _ s' ⟨⟩ hs
        exact ⟨hs.old, hs.live⟩
      · refine (calms_handleSet p stdin none).milds.bind fun _ => ?_
        exact (calms_handleSet p stdout none).milds.bind fun _ =>
          (calms_handleSet p stdout none).milds
  exact hmain _ _ _ h (sound_emptyStore grants data)

theorem run_over {is : List Input} {r : Store × List Unit} {c : Nat} (hs : Sound s)
    (hx : Over x c s) (hok : Along step Respects s is) (h : run step s is = .ok r) :
      Over x c r.1 := by
  have hinv : Sound r.1 ∧ Over x c r.1 := by
    refine run_invariant (I := fun s => Sound s ∧ Over x c s) ?_ ⟨hs, hx⟩ hok h
    rintro s i s' o ⟨hs, hx⟩ hi hstep
    have hout := step_outcome hs hstep
    exact ⟨hout.sound hs, hout.over hi hx⟩
  exact hinv.2

/-- A thread or process ends at some point of a run. Those who wait for it then are
told the exit code which is found from then on. -/
theorem run_final {s₀ s₁ s₂ s₃ : Store} {before after : List Input} {i : Input} {c : Nat}
    (hboot : Booted s₀) (hbefore : Reaches s₀ before s₁) (hstep : Reaches s₁ [i] s₂)
    (hx : s₁.objects x ≠ none) (halive : exitcodeOf s₁ x = none) (hend : exitcodeOf s₂ x = some c)
    (hafter : Reaches s₂ after s₃) (hok : Along step Respects s₂ after) :
    (∃ new, s₂.log = new ++ s₁.log ∧ ∀ r ∈ new, r.object = some x → r.result = .value c) ∧
      (s₃.objects x = none ∨ ∀ mode, objectGetStatus s₃ x mode = some (.value c) ∧
        objectWait x mode s₃ = .ok (.result (.value c), s₃)) := by
  obtain ⟨os, hbefore⟩ := hbefore
  obtain ⟨os', hstep⟩ := hstep
  obtain ⟨os'', hafter⟩ := hafter
  obtain ⟨s, o, _, hstep, hnil, -⟩ := run_cons_eq_ok hstep
  cases hnil
  have hs₁ : Sound s₁ := run_sound (booted_sound hboot) hbefore
  have hout := step_outcome hs₁ hstep
  have hlife : life s₁ x ≠ none := fun hnone => hx (Option.map_eq_none_iff.mp hnone)
  have hover : Over x c s₂ := ⟨(hs₁.old x hlife).trans_le hout.fresh_le, Or.inr hend⟩
  refine ⟨hout.said hs₁ hlife halive hend, ?_⟩
  rcases (run_over (hout.sound hs₁) hover hok hafter).2 with hgone | hcode
  · exact Or.inl (Option.map_eq_none_iff.mp hgone)
  · exact Or.inr fun mode => exitcode_told hcode mode

end

/-- The first thread waits for the process which it has forked. -/
def parentWaits : Store := runStore firstStore [.call 3 .fork, .call 3 (.wait 4 0)]

/-- The process which was forked has ended with the exit code 5. -/
def childExited : Store := runStore parentWaits [.call 5 (.exitProcess 5)]

theorem reaches_parentWaits : Reaches firstStore [.call 3 .fork, .call 3 (.wait 4 0)] parentWaits :=
  reaches_runStore (by decide +kernel)

theorem reaches_childExited : Reaches parentWaits [.call 5 (.exitProcess 5)] childExited :=
  reaches_runStore (by decide +kernel)

theorem run_final_child :
    objectGetStatus (runStore childExited [.call 3 (.shutdown 4 5)]) 4 0 = some (.value 5) := by
  have hexit : exitcodeOf childExited 4 = some 5 := by decide +kernel
  have hok : Along step Respects childExited [.call 3 (.shutdown 4 5)] := by
    refine ⟨?_, ?_⟩
    · rintro _ _ _ p ⟨⟩ hp hthreads
      have hcode : (Life.process p.threads p.exitcode).endedWith = some 5 := by
        rw [exitcodeOf, life_eq hp] at hexit
        exact hexit
      rw [hthreads] at hcode
      exact (Option.some.inj hcode).symm
    · split <;> exact trivial
  have hparent : (parentWaits.objects 4).isSome = true := by decide +kernel
  have hchild : ((runStore childExited [.call 3 (.shutdown 4 5)]).objects 4).isSome = true := by
    decide +kernel
  obtain ⟨-, hgone | htold⟩ := run_final booted_firstStore reaches_parentWaits reaches_childExited
    (Option.isSome_iff_ne_none.mp hparent) (by decide +kernel) hexit
    (reaches_runStore (by decide +kernel)) hok
  · exact (Option.isSome_iff_ne_none.mp hchild hgone).elim
  · exact (htold 0).1

theorem shutdown_again : Booted firstStore ∧
    Reaches firstStore [.call 3 .fork, .call 3 (.wait 4 0)] parentWaits ∧
    Reaches parentWaits [.call 5 (.exitProcess 5)] childExited ∧
    exitcodeOf parentWaits 4 = none ∧ exitcodeOf childExited 4 = some 5 ∧
    childExited.log = [⟨3, some 4, .value 5⟩] ∧
    ∃ s, Reaches childExited [.call 3 (.shutdown 4 7)] s ∧
      objectGetStatus s 4 0 = some (.value 7) :=
  ⟨booted_firstStore, reaches_parentWaits,
    reaches_childExited, by decide +kernel, by decide +kernel,
    by decide +kernel, _, reaches_runStore (by decide +kernel), by decide +kernel⟩

end Ibnos.ExitCodes
