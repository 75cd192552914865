import Mathlib.Tactic.Common

/-!
Runs of a step function which may stop with an error, and the two rules by
which something is shown about all of them: an invariant, and a forward
simulation by a step function which never stops.
-/

namespace Ibnos.Runs

variable {σ τ ι ο ε α β : Type}

theorem bind_eq_ok {x : Except ε α} {f : α → Except ε β} {b : β} :
    (x >>= f) = .ok b ↔ ∃ a, x = .ok a ∧ f a = .ok b := by
  cases x with
  | error e => exact ⟨nofun, nofun⟩
  | ok a =>
      constructor
      · intro h
        exact ⟨a, rfl, h⟩
      · rintro ⟨_, ⟨⟩, h⟩
        exact h

theorem ok_bind (a : α) (k : α → Except ε β) : (Except.ok a >>= k) = k a := rfl

theorem toOption_eq_some {x : Except ε α} {a : α} (h : x.toOption = some a) :
    x = .ok a := by
  rcases x with e | b
  · cases h
  · cases h
    rfl

/-- The computation does not stop, and its result is in `P`. -/
def Finishes (r : Except ε α) (P : α → Prop) : Prop := ∃ a, r = .ok a ∧ P a

theorem finishes_ok {P : α → Prop} {a : α} (h : P a) : Finishes (.ok a : Except ε α) P := ⟨a, rfl, h⟩

theorem Finishes.bind {P : α → Prop} {Q : β → Prop} {r : Except ε α} {k : α → Except ε β}
    (h : Finishes r P) (hk : ∀ a, P a → Finishes (k a) Q) : Finishes (r >>= k) Q := by
  obtain ⟨a, rfl, ha⟩ := h
  exact hk a ha

theorem Finishes.mono {P Q : α → Prop} {r : Except ε α} (h : Finishes r P) (hPQ : ∀ a, P a → Q a) :
    Finishes r Q := by
  obtain ⟨a, hr, ha⟩ := h
  exact ⟨a, hr, hPQ a ha⟩

/-- All inputs one after the other. The outputs are collected in order. -/
def run (step : σ → ι → Except ε (σ × ο)) : σ → List ι → Except ε (σ × List ο)
  | s, [] => .ok (s, [])
  | s, i :: is => do
      let (s, o) ← step s i
      let (s, os) ← run step s is
      return (s, o :: os)

/-- The same for a step function which never stops. -/
def runTotal (step : σ → ι → σ × ο) : σ → List ι → σ × List ο
  | s, [] => (s, [])
  | s, i :: is =>
      ((runTotal step (step s i).1 is).1, (step s i).2 :: (runTotal step (step s i).1 is).2)

/-- Every input of the run meets the condition in the state it is taken in. -/
def Along (step : σ → ι → Except ε (σ × ο)) (ok : σ → ι → Prop) : σ → List ι → Prop
  | _, [] => True
  | s, i :: is => ok s i ∧
      match step s i with
      | .ok (s', _) => Along step ok s' is
      | .error _ => True

theorem Along.tail {step : σ → ι → Except ε (σ × ο)} {ok : σ → ι → Prop} {s s' : σ} {i : ι}
    {o : ο} {is : List ι} (h : Along step ok s (i :: is)) (hstep : step s i = .ok (s', o)) :
    Along step ok s' is := by
  have htail := h.2
  rw [hstep] at htail
  exact htail

theorem along_of_forall {step : σ → ι → Except ε (σ × ο)} {ok : σ → ι → Prop} {is : List ι}
    (h : ∀ s, ∀ i ∈ is, ok s i) (s : σ) : Along step ok s is := by
  induction is generalizing s with
  | nil => exact trivial
  | cons i is ih =>
      refine ⟨h s i List.mem_cons_self, ?_⟩
      split
      · exact ih (fun s j hj => h s j (List.mem_cons_of_mem i hj)) _
      · exact trivial

theorem along_true (step : σ → ι → Except ε (σ × ο)) (s : σ) (is : List ι) :
    Along step (fun _ _ => True) s is := along_of_forall (fun _ _ _ => trivial) s

theorem run_cons_eq_ok {step : σ → ι → Except ε (σ × ο)} {s : σ} {i : ι} {is : List ι}
    {r : σ × List ο} (h : run step s (i :: is) = .ok r) :
    ∃ s' o os, step s i = .ok (s', o) ∧ run step s' is = .ok (r.1, os) ∧ r.2 = o :: os := by
  obtain ⟨⟨s', o⟩, hstep, h⟩ := bind_eq_ok.mp h
  obtain ⟨⟨s'', os⟩, hrun, h⟩ := bind_eq_ok.mp h
  cases h
  exact ⟨s', o, os, hstep, hrun, rfl⟩

theorem along_append {step : σ → ι → Except ε (σ × ο)} {ok : σ → ι → Prop} {s s' : σ}
    {is js : List ι}
    {os : List ο} (h : Along step ok s is) (hrun : run step s is = .ok (s', os))
    (h' : Along step ok s' js) :
    Along step ok s (is ++ js) := by
  induction is generalizing s os with
  | nil =>
      cases hrun
      exact h'
  | cons i is ih =>
      obtain ⟨s₁, o, os', hstep, hrest, -⟩ := run_cons_eq_ok hrun
      refine ⟨h.1, ?_⟩
      rw [hstep]
      exact ih (h.tail hstep) hrest

theorem run_append {step : σ → ι → Except ε (σ × ο)} {s s' : σ} {is js : List ι} {os : List ο}
    {r : σ × List ο} (h : run step s is = .ok (s', os)) (h' : run step s' js = .ok r) :
    run step s (is ++ js) = .ok (r.1, os ++ r.2) := by
  induction is generalizing s os with
  | nil =>
      cases h
      exact h'
  | cons i is ih =>
      obtain ⟨s₁, o, os', hi, hrun, rfl⟩ := run_cons_eq_ok h
      exact bind_eq_ok.mpr ⟨(s₁, o), hi, bind_eq_ok.mpr ⟨_, ih hrun, rfl⟩⟩

theorem run_invariant {step : σ → ι → Except ε (σ × ο)} {ok : σ → ι → Prop} {I : σ → Prop}
    (hstep : ∀ s i s' o, I s → ok s i → step s i = .ok (s', o) → I s') {s : σ} {is : List ι}
    {r : σ × List ο} (hs : I s) (hok : Along step ok s is) (h : run step s is = .ok r) :
    I r.1 := by
  induction is generalizing s r with
  | nil =>
      cases h
      exact hs
  | cons i is ih =>
      obtain ⟨s', o, os, hi, hrun, -⟩ := run_cons_eq_ok h
      exact ih (r := (r.1, os)) (hstep s i s' o hs hok.1 hi) (hok.tail hi) hrun

/-- Where every step keeps the invariant or stops for a reason in `E`, so does a run. -/
theorem run_outcome {step : σ → ι → Except ε (σ × ο)} {I : σ → Prop} {E : ε → Prop}
    (hstep : ∀ s i, I s →
      (∃ e, step s i = .error e ∧ E e) ∨ ∃ s' o, step s i = .ok (s', o) ∧ I s')
    {s : σ} (hs : I s) (is : List ι) :
    (∃ e, run step s is = .error e ∧ E e) ∨ ∃ s' os, run step s is = .ok (s', os) ∧ I s' := by
  induction is generalizing s with
  | nil => exact Or.inr ⟨s, [], rfl, hs⟩
  | cons i is ih =>
      rcases hstep s i hs with ⟨e, he, hE⟩ | ⟨s', o, hi, hI⟩
      · refine Or.inl ⟨e, ?_, hE⟩
        rw [run, he]
        rfl
      · rcases ih hI with ⟨e, he, hE⟩ | ⟨s'', os, hrun, hI'⟩
        · refine Or.inl ⟨e, ?_, hE⟩
          rw [run, hi]
          change (run step s' is >>= _) = _
          rw [he]
          rfl
        · exact Or.inr ⟨s'', o :: os,
            bind_eq_ok.mpr ⟨(s', o), hi, bind_eq_ok.mpr ⟨(s'', os), hrun, rfl⟩⟩, hI'⟩

/-- Where every step which meets the condition keeps the invariant and does not
stop, neither does a run. -/
theorem run_along {step : σ → ι → Except ε (σ × ο)} {ok : σ → ι → Prop} {I : σ → Prop}
    (hstep : ∀ s i, I s → ok s i → ∃ s' o, step s i = .ok (s', o) ∧ I s') {s : σ} {is : List ι}
    (hs : I s) (hok : Along step ok s is) : ∃ s' os, run step s is = .ok (s', os) ∧ I s' := by
  induction is generalizing s with
  | nil => exact ⟨s, [], rfl, hs⟩
  | cons i is ih =>
      obtain ⟨s', o, hi, hI⟩ := hstep s i hs hok.1
      obtain ⟨s'', os, hrun, hI'⟩ := ih hI (hok.tail hi)
      exact ⟨s'', o :: os, bind_eq_ok.mpr ⟨(s', o), hi, bind_eq_ok.mpr ⟨(s'', os), hrun, rfl⟩⟩, hI'⟩

/-- A run which is simulated step by step has the outputs of its simulation. -/
theorem run_simulation {step : σ → ι → Except ε (σ × ο)} {spec : τ → ι → τ × ο}
    {ok : σ → ι → Prop} {R : σ → τ → Prop}
    (hstep : ∀ s t i s' o, R s t → ok s i → step s i = .ok (s', o) →
      R s' (spec t i).1 ∧ o = (spec t i).2)
    {s : σ} {t : τ} {is : List ι} {r : σ × List ο} (hs : R s t) (hok : Along step ok s is)
    (h : run step s is = .ok r) :
    R r.1 (runTotal spec t is).1 ∧ r.2 = (runTotal spec t is).2 := by
  induction is generalizing s t r with
  | nil =>
      cases h
      exact ⟨hs, rfl⟩
  | cons i is ih =>
      obtain ⟨s', o, os, hi, hrun, hr⟩ := run_cons_eq_ok h
      obtain ⟨hR, ho⟩ := hstep s t i s' o hs hok.1 hi
      obtain ⟨hR', hos⟩ := ih hR (hok.tail hi) hrun
      refine ⟨hR', ?_⟩
      rw [hr, ho]
      exact congrArg (List.cons _) hos

/-- Where every step which meets the condition is one of a step function which never stops, so is
a run. -/
theorem run_refines {step : σ → ι → Except ε (σ × ο)} {spec : τ → ι → τ × ο}
    {ok : σ → ι → Prop} {R : σ → τ → Prop}
    (hstep : ∀ s t i, R s t → ok s i →
      ∃ s', step s i = .ok (s', (spec t i).2) ∧ R s' (spec t i).1)
    {s : σ} {t : τ} {is : List ι} (hs : R s t) (hok : Along step ok s is) :
    ∃ s', run step s is = .ok (s', (runTotal spec t is).2) ∧ R s' (runTotal spec t is).1 := by
  induction is generalizing s t with
  | nil => exact ⟨s, rfl, hs⟩
  | cons i is ih =>
      obtain ⟨s', hi, hR⟩ := hstep s t i hs hok.1
      obtain ⟨s'', hrun, hR'⟩ := ih hR (hok.tail hi)
      exact ⟨s'', bind_eq_ok.mpr ⟨_, hi, bind_eq_ok.mpr ⟨_, hrun, rfl⟩⟩, hR'⟩

end Ibnos.Runs
