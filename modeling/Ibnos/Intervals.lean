import Mathlib.Order.Lattice
import Mathlib.Tactic.Common

/-!
Sets of points as sorted lists of half-open intervals which neither overlap nor
touch each other. There is only one such list for a set.
-/

namespace Ibnos.Intervals

variable {α : Type}

structure Stretch (α : Type) where
  start : α
  stop : α
  deriving DecidableEq, Repr

section

variable [LinearOrder α]

def Covers (l : List (Stretch α)) (n : α) : Prop := ∃ i ∈ l, i.start ≤ n ∧ n < i.stop

structure Canonical (l : List (Stretch α)) : Prop where
  nonempty : ∀ i ∈ l, i.start < i.stop
  apart : l.Pairwise fun i j => i.stop < j.start

/-- Some of the intervals may be empty. -/
structure Separate (l : List (Stretch α)) : Prop where
  ordered : ∀ i ∈ l, i.start ≤ i.stop
  apart : l.Pairwise fun i j => i.stop < j.start

variable {i j : Stretch α} {l l' : List (Stretch α)} {n : α}

theorem Canonical.separate (h : Canonical l) : Separate l :=
  ⟨fun i hi => (h.nonempty i hi).le, h.apart⟩

theorem separate_nil : Separate ([] : List (Stretch α)) := ⟨nofun, .nil⟩

theorem separate_cons_iff : Separate (i :: l) ↔
    i.start ≤ i.stop ∧ (∀ j ∈ l, i.stop < j.start) ∧ Separate l := by
  constructor
  · rintro ⟨hordered, hapart⟩
    obtain ⟨hi, hl⟩ := List.pairwise_cons.mp hapart
    exact ⟨hordered i List.mem_cons_self, hi,
      fun j hj => hordered j (List.mem_cons_of_mem _ hj), hl⟩
  · rintro ⟨hi, hapart, hl⟩
    refine ⟨fun j hj => ?_, List.pairwise_cons.mpr ⟨hapart, hl.apart⟩⟩
    rcases List.mem_cons.mp hj with rfl | hj
    · exact hi
    · exact hl.ordered j hj

theorem canonical_nil : Canonical ([] : List (Stretch α)) := ⟨nofun, .nil⟩

theorem canonical_cons_iff : Canonical (i :: l) ↔
    i.start < i.stop ∧ (∀ j ∈ l, i.stop < j.start) ∧ Canonical l := by
  constructor
  · rintro ⟨hnonempty, hapart⟩
    obtain ⟨hi, hl⟩ := List.pairwise_cons.mp hapart
    exact ⟨hnonempty i List.mem_cons_self, hi,
      fun j hj => hnonempty j (List.mem_cons_of_mem _ hj), hl⟩
  · rintro ⟨hi, hapart, hl⟩
    refine ⟨fun j hj => ?_, List.pairwise_cons.mpr ⟨hapart, hl.apart⟩⟩
    rcases List.mem_cons.mp hj with rfl | hj
    · exact hi
    · exact hl.nonempty j hj

@[simp]
theorem not_covers_nil : ¬Covers ([] : List (Stretch α)) n := nofun

theorem covers_cons : Covers (i :: l) n ↔ (i.start ≤ n ∧ n < i.stop) ∨ Covers l n := by
  constructor
  · rintro ⟨j, hj, hn⟩
    rcases List.mem_cons.mp hj with rfl | hj
    · exact Or.inl hn
    · exact Or.inr ⟨j, hj, hn⟩
  · rintro (hn | ⟨j, hj, hn⟩)
    · exact ⟨i, List.mem_cons_self, hn⟩
    · exact ⟨j, List.mem_cons_of_mem _ hj, hn⟩

/-- The points of the later intervals come after the first one. -/
theorem Canonical.stop_lt (h : Canonical (i :: l)) (hn : Covers l n) : i.stop < n := by
  obtain ⟨j, hj, hstart, -⟩ := hn
  exact ((canonical_cons_iff.mp h).2.1 j hj).trans_le hstart

theorem Canonical.start_le (h : Canonical (i :: l)) (hn : Covers (i :: l) n) : i.start ≤ n := by
  rcases covers_cons.mp hn with hn | hn
  · exact hn.1
  · exact ((canonical_cons_iff.mp h).1.trans (h.stop_lt hn)).le

theorem Canonical.covers_start (h : Canonical (i :: l)) : Covers (i :: l) i.start :=
  covers_cons.mpr (Or.inl ⟨le_rfl, (canonical_cons_iff.mp h).1⟩)

/-- The first interval goes on until the first point which is not covered. -/
theorem Canonical.not_covers_stop (h : Canonical (i :: l)) : ¬Covers (i :: l) i.stop := by
  intro hn
  rcases covers_cons.mp hn with hn | hn
  · exact lt_irrefl _ hn.2
  · exact lt_irrefl _ (h.stop_lt hn)

theorem Canonical.covers_tail (h : Canonical (i :: l)) :
    Covers l n ↔ Covers (i :: l) n ∧ i.stop ≤ n := by
  constructor
  · intro hn
    exact ⟨covers_cons.mpr (Or.inr hn), (h.stop_lt hn).le⟩
  · rintro ⟨hn, hle⟩
    rcases covers_cons.mp hn with hn | hn
    · exact (hle.not_gt hn.2).elim
    · exact hn

theorem Canonical.stop_le (h : Canonical (j :: l')) (hstart : i.start = j.start)
    (hcovers : ∀ n, Covers (i :: l) n ↔ Covers (j :: l') n) : i.stop ≤ j.stop := by
  by_contra hlt
  refine h.not_covers_stop ((hcovers j.stop).mp (covers_cons.mpr (Or.inl ⟨?_, not_le.mp hlt⟩)))
  rw [hstart]
  exact (canonical_cons_iff.mp h).1.le

theorem Canonical.ext (h : Canonical l) (h' : Canonical l')
    (hcovers : ∀ n, Covers l n ↔ Covers l' n) : l = l' := by
  induction l generalizing l' with
  | nil =>
      cases l' with
      | nil => rfl
      | cons j l' => exact ((hcovers j.start).mpr h'.covers_start |> not_covers_nil).elim
  | cons i l ih =>
      cases l' with
      | nil => exact ((hcovers i.start).mp h.covers_start |> not_covers_nil).elim
      | cons j l' =>
          have hstart : i.start = j.start := le_antisymm
            (h.start_le ((hcovers _).mpr h'.covers_start))
              (h'.start_le ((hcovers _).mp h.covers_start))
          have hstop : i.stop = j.stop := le_antisymm (h'.stop_le hstart hcovers)
            (h.stop_le hstart.symm fun n => (hcovers n).symm)
          obtain rfl : i = j := by
            cases i
            cases j
            rw [Stretch.mk.injEq]
            exact ⟨hstart, hstop⟩
          refine congrArg (List.cons i) (ih (canonical_cons_iff.mp h).2.2
            (canonical_cons_iff.mp h').2.2 fun n => ?_)
          rw [h.covers_tail, h'.covers_tail, hcovers n]

end

end Ibnos.Intervals
