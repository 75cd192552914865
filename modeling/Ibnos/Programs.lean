import Mathlib.Tactic.Common

/-!
Programs over a state which may stop for a reason. `Yields` says what holds of
the result of a program from one state, where some reasons to stop are excused;
`Keeps` says how every result is related to the state before, whatever it was.
-/

namespace Ibnos.Programs

variable {σ ε α β : Type}

abbrev Program (σ ε α : Type) := StateT σ (Except ε) α

/-- From the state `s` the program stops for an excused reason or reaches a
result in `Q`. -/
def Yields (excused : ε → Prop) (m : Program σ ε α) (s : σ) (Q : α → σ → Prop) : Prop :=
  match m s with
  | .ok (a, s') => Q a s'
  | .error e => excused e

section

variable {excused : ε → Prop} {m : Program σ ε α} {f : α → Program σ ε β} {s : σ}
  {Q Q' : α → σ → Prop} {R : β → σ → Prop}

theorem Yields.of_ok (h : Yields excused m s Q) {a : α} {s' : σ} (hm : m s = .ok (a, s')) :
    Q a s' := by
  rw [Yields, hm] at h
  exact h

theorem Yields.of_error (h : Yields excused m s Q) {e : ε} (hm : m s = .error e) :
    excused e := by
  rw [Yields, hm] at h
  exact h

theorem yields_iff : Yields excused m s Q ↔
    (∀ a s', m s = .ok (a, s') → Q a s') ∧ ∀ e, m s = .error e → excused e := by
  constructor
  · intro h
    exact ⟨fun a s' hm => h.of_ok hm, fun e hm => h.of_error hm⟩
  · rintro ⟨hok, herror⟩
    rw [Yields]
    split
    · exact hok _ _ (by assumption)
    · exact herror _ (by assumption)

theorem Yields.mono (h : Yields excused m s Q) (hQ : ∀ a s', Q a s' → Q' a s') :
    Yields excused m s Q' :=
  yields_iff.mpr ⟨fun a s' hm => hQ a s' (h.of_ok hm), fun _ hm => h.of_error hm⟩

/-- What else is known of the result, whatever is excused for it. -/
theorem Yields.also {excused' : ε → Prop} (h : Yields excused m s Q) (h' : Yields excused' m s Q') :
    Yields excused m s fun a s' => Q a s' ∧ Q' a s' :=
  yields_iff.mpr ⟨fun _ _ hm => ⟨h.of_ok hm, h'.of_ok hm⟩, fun _ hm => h.of_error hm⟩

theorem Yields.excuse {excused' : ε → Prop} (h : Yields excused m s Q)
    (he : ∀ e, excused e → excused' e) : Yields excused' m s Q :=
  yields_iff.mpr ⟨fun _ _ hm => h.of_ok hm, fun e hm => he e (h.of_error hm)⟩

theorem Yields.and (h : Yields excused m s Q) (h' : Yields excused m s Q') :
    Yields excused m s fun a s' => Q a s' ∧ Q' a s' := h.also h'

theorem bind_apply (m : Program σ ε α) (f : α → Program σ ε β) (s : σ) :
    (m >>= f) s = match m s with
      | .ok (a, s') => f a s'
      | .error e => .error e := by
  change (m s >>= _) = _
  rcases m s with e | ⟨a, s'⟩ <;> rfl

theorem get_apply (s : σ) : (get : Program σ ε σ) s = .ok (s, s) := rfl

theorem bind_ok {m : Program σ ε α} {f : α → Program σ ε β} {s s'' : σ} {b : β} :
    (m >>= f) s = .ok (b, s'') ↔ ∃ a s', m s = .ok (a, s') ∧ f a s' = .ok (b, s'') := by
  rw [bind_apply]
  constructor
  · intro h
    split at h
    · exact ⟨_, _, by assumption, h⟩
    · cases h
  · rintro ⟨a, s', hm, hf⟩
    rw [hm]
    exact hf

theorem Yields.bind (h : Yields excused m s Q)
    (hf : ∀ a s', Q a s' → Yields excused (f a) s' R) : Yields excused (m >>= f) s R := by
  refine yields_iff.mpr ⟨fun b s'' hb => ?_, fun e he => ?_⟩
  · obtain ⟨a, s', hm, hb⟩ := bind_ok.mp hb
    exact (hf a s' (h.of_ok hm)).of_ok hb
  · rw [bind_apply] at he
    split at he
    · rename_i a s' hm
      exact (hf a s' (h.of_ok hm)).of_error he
    · cases he
      exact h.of_error (by assumption)

/-- The run of the first part may be used for what comes behind it. -/
theorem Yields.bind_of (h : Yields excused m s Q)
    (hf : ∀ a s', m s = .ok (a, s') → Q a s' → Yields excused (f a) s' R) :
    Yields excused (m >>= f) s R := by
  have hrun : Yields excused m s fun a s' => m s = .ok (a, s') ∧ Q a s' :=
    yields_iff.mpr ⟨fun a s' hm => ⟨hm, h.of_ok hm⟩, fun _ hm => h.of_error hm⟩
  exact hrun.bind fun a s' hs' => hf a s' hs'.1 hs'.2

theorem yields_pure {a : α} (h : Q a s) : Yields excused (pure a : Program σ ε α) s Q := h

theorem yields_of_ok {a : α} {s' : σ} (hm : m s = .ok (a, s')) (h : Q a s') :
    Yields excused m s Q := by
  rw [Yields, hm]
  exact h

theorem yields_of_error {e : ε} (hm : m s = .error e) (h : excused e) : Yields excused m s Q := by
  rw [Yields, hm]
  exact h

/-- A program which does the same from another state. -/
theorem Yields.of_eq {m' : Program σ ε α} {s' : σ} (h : Yields excused m' s' Q)
    (heq : m s = m' s') : Yields excused m s Q := by
  rw [Yields, heq]
  exact h

theorem yields_ok_bind {a : α} {s' : σ} (hm : m s = .ok (a, s'))
    (h : Yields excused (f a) s' R) : Yields excused (m >>= f) s R := by
  rw [Yields, bind_apply, hm]
  exact h

theorem yields_throw {e : ε} (h : excused e) : Yields excused (throw e : Program σ ε α) s Q := h

theorem yields_get_bind {f : σ → Program σ ε β} (h : Yields excused (f s) s R) :
    Yields excused (get >>= f) s R := h

theorem yields_modify {g : σ → σ} {Q : PUnit → σ → Prop} (h : Q ⟨⟩ (g s)) :
    Yields excused (modify g : Program σ ε PUnit) s Q := h

theorem yields_modify_bind {g : σ → σ} {f : PUnit → Program σ ε β}
    (h : Yields excused (f ⟨⟩) (g s) R) : Yields excused (modify g >>= f) s R := h

theorem yields_ite {c : Prop} {_ : Decidable c} {m m' : Program σ ε α}
    (ht : c → Yields excused m s Q) (hf : ¬c → Yields excused m' s Q) :
    Yields excused (if c then m else m') s Q := by
  split
  · exact ht (by assumption)
  · exact hf (by assumption)

end

/-- Whatever the program does, its results are related to the state before. -/
def Keeps (R : σ → σ → Prop) (m : Program σ ε α) : Prop :=
  ∀ s a s', m s = .ok (a, s') → R s s'

section

variable {R : σ → σ → Prop} {m : Program σ ε α} {f : α → Program σ ε β}

theorem keeps_pure (hR : ∀ s, R s s) (a : α) : Keeps R (pure a : Program σ ε α) := by
  rintro s _ _ ⟨⟩
  exact hR s

theorem keeps_throw (e : ε) : Keeps R (throw e : Program σ ε α) := by
  rintro s a s' ⟨⟩

theorem keeps_get (hR : ∀ s, R s s) : Keeps R (get : Program σ ε σ) := by
  rintro s _ _ ⟨⟩
  exact hR s

theorem keeps_modify {g : σ → σ} (hg : ∀ s, R s (g s)) :
    Keeps R (modify g : Program σ ε PUnit) := by
  rintro s _ _ ⟨⟩
  exact hg s

theorem Keeps.bind (hR : ∀ s s' s'', R s s' → R s' s'' → R s s'') (hm : Keeps R m)
    (hf : ∀ a, Keeps R (f a)) : Keeps R (m >>= f) := by
  intro s b s'' h
  obtain ⟨a, s', hm', hf'⟩ := bind_ok.mp h
  exact hR s s' s'' (hm s a s' hm') (hf a s' b s'' hf')

theorem keeps_ite {c : Prop} {_ : Decidable c} {m m' : Program σ ε α} (ht : Keeps R m)
    (hf : Keeps R m') : Keeps R (if c then m else m') := by
  split
  · exact ht
  · exact hf

end

end Ibnos.Programs
