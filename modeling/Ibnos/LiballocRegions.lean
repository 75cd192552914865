import Ibnos.LiballocRuns

/-!
What the allocator keeps of the pages which came from the kernel, and which of its free
tags `malloc` takes.
-/

namespace Ibnos.LiballocRegions

open Ibnos.BoundaryTags
open Ibnos.ByteMemories
open Ibnos.Chains
open Ibnos.Liballoc
open Ibnos.LiballocCalls
open Ibnos.LiballocRuns
open Ibnos.Runs
open Ibnos.TagLayout
open Ibnos.TagOperations
open Ibnos.Tilings
open Ibnos.WordRecords

def Reached (s : State) : Prop :=
  ∃ memory calls ps, run step (State.init memory) calls = .ok (s, ps)

/-- Every block of the program is behind a tag which is in no list. -/
def Represents (s : State) (L : Layout) : Prop :=
  ∀ p n, s.live p = some n ↔
    ∃ x, p = x + TAG_SIZE ∧ Used L x ∧ (view s.arena).size x = n

/-- The tags of a list in their order. -/
def FreeList (s : Arena) (i : Nat) (xs : List Nat) : Prop :=
  Chain (view s).free 0 xs ∧ s.freePages i = xs.headD 0

section

variable {s s' : State} {v : View} {L : Layout} {b x : Nat}

theorem step_faithful {call : Call} {p : Nat} (h : ∃ w L, Faithful s w L)
    (hstep : step s call = .ok (s', p)) : ∃ w L, Faithful s' w L := by
  obtain ⟨w, L, h⟩ := h
  have hrecorded : recordedStep (s, w) call = .ok ((s', record w p call), p) := by
    rw [recordedStep, hstep]
    rfl
  rcases step_safe h call with ⟨e, he, -⟩ | ⟨r, q, hr, L', hL'⟩
  · rw [hrecorded] at he
    cases he
  · rw [hrecorded] at hr
    cases hr
    exact ⟨_, L', hL'⟩

theorem Reached.faithful (h : Reached s) : ∃ w L, Faithful s w L := by
  obtain ⟨memory, calls, ps, hrun⟩ := h
  exact run_invariant (I := fun s => ∃ w L, Faithful s w L)
    (fun s call s' p hs _ hstep => step_faithful hs hstep) ⟨_, _, faithful_init memory⟩
    (along_true step _ calls) hrun

end

theorem step_malloc_live {s s' : State} {size p : Nat} {r : Region}
    (h : step s (.malloc size r) = .ok (s', p)) : s'.live = hold s.live p size := by
  rw [step] at h
  split_ifs at h
  obtain ⟨⟨q, arena⟩, -, h⟩ := bind_eq_ok.mp h
  cases h
  rfl

theorem step_free_live {s s' : State} {p q : Nat} (h : step s (.free p) = .ok (s', q)) :
    s'.live = Function.update s.live p none := by
  rw [step] at h
  split_ifs at h
  obtain ⟨arena, -, h⟩ := bind_eq_ok.mp h
  cases h
  rfl

/-- A process which gets a block from the pages 16 to 31 and gives it back. -/
theorem exists_returned :
    ∃ s, Reached s ∧ (∀ p, s.live p = none) ∧ s.arena.owned 16 = true := by
  have hfacts : (run step (State.init fun _ => 0)
      [.malloc 100 ⟨16, fun _ => 0⟩, .free 65568]).toOption.map
        (fun r => (r.2, r.1.arena.owned 16)) = some ([65568, 0], true) := by
    decide +kernel
  obtain ⟨⟨s, ps⟩, hrun, hps⟩ := Option.map_eq_some_iff.mp hfacts
  have hrun := toOption_eq_some hrun
  obtain ⟨rfl, howned⟩ := Prod.mk.injEq .. ▸ hps
  refine ⟨s, ⟨_, _, _, hrun⟩, fun p => ?_, howned⟩
  obtain ⟨s₁, p₁, os, hmalloc, hrest, hos⟩ := run_cons_eq_ok hrun
  obtain ⟨s₂, p₂, os₂, hfree, hend, -⟩ := run_cons_eq_ok hrest
  cases hend
  cases hos
  have hlive := step_free_live hfree
  rw [step_malloc_live hmalloc] at hlive
  change s.live = _ at hlive
  rw [hlive]
  rcases eq_or_ne p 65568 with rfl | hp
  · exact Function.update_self ..
  · rw [Function.update_of_ne hp]
    exact Function.update_of_ne hp ..

/-- `malloc` takes the first tag which is large enough from the list for the size and from no
other list. If there is none, it depends on the kernel. -/
theorem malloc_first_fit {s : State} {size : Nat} (h : Reached s) (hsize : size ≤ MAX_SIZE)
    (r : Region) : ∃ xs s', FreeList s.arena (listIndex size) xs ∧
      liballocMallocR s.arena size r =
        .ok (match xs.find? fun x => TAG_SIZE + size + TAG_SIZE ≤ (view s.arena).realSize x with
          | some x => x + TAG_SIZE
          | none => if r.Suitable s.arena (pagesFor (size + TAG_SIZE)) then
              r.page * PAGE_SIZE + TAG_SIZE else 0, s') := by
  obtain ⟨w, L, hfaithful⟩ := h.faithful
  have hsound := hfaithful.valid.tidy.sound
  obtain ⟨xs, hxs⟩ : ∃ xs, xs = L.lists (listIndex size) := ⟨_, rfl⟩
  have hlist : FreeList s.arena (listIndex size) xs := by
    rw [hxs]
    exact ⟨hsound.list _, hsound.head _⟩
  have hnull : ∀ x ∈ xs, x ≠ 0 := by
    rintro x hx rfl
    exact hlist.1.null_not_mem hx
  have hanswer : ∀ x, chosenTag s.arena xs size r = x →
      (match xs.find? fun x => TAG_SIZE + size + TAG_SIZE ≤ (view s.arena).realSize x with
        | some x => x + TAG_SIZE
        | none => if r.Suitable s.arena (pagesFor (size + TAG_SIZE)) then
            r.page * PAGE_SIZE + TAG_SIZE else 0) = if x = 0 then 0 else x + TAG_SIZE := by
    rintro x rfl
    rw [chosenTag]
    cases hfind : xs.find? fun x => decide (TAG_SIZE + size + TAG_SIZE ≤
        (view s.arena).realSize x) with
    | some x => exact (if_neg (hnull x (List.mem_of_find?_eq_some hfind))).symm
    | none =>
        rw [Option.getD_none, regionTag]
        by_cases hr : r.Suitable s.arena (pagesFor (size + TAG_SIZE))
        · have hpos : r.page * PAGE_SIZE ≠ 0 := (Nat.mul_pos hr.1 (by decide)).ne'
          simp only [if_pos hr, if_neg hpos]
        · simp only [if_neg hr, if_true]
  rcases liballocMallocR_eq (r := r) hfaithful.valid hsize with
    ⟨s', hcall, hchosen, -⟩ | ⟨x, s', L', hcall, ⟨hx, hchosen⟩, -⟩
  · rw [← hxs] at hchosen
    refine ⟨xs, s', hlist, ?_⟩
    rw [hcall, hanswer 0 hchosen, if_pos rfl]
  · rw [← hxs] at hchosen
    refine ⟨xs, s', hlist, ?_⟩
    rw [hcall, hanswer x hchosen, if_neg hx]

theorem malloc_first_fit_sample : ∃ s, Reached s ∧ s.arena.owned 16 = true ∧
    ∃ xs s', FreeList s.arena (listIndex 200) xs ∧
      liballocMallocR s.arena 200 ⟨0, fun _ => 0⟩ =
        .ok (match xs.find? fun x => TAG_SIZE + 200 + TAG_SIZE ≤ (view s.arena).realSize x with
          | some x => x + TAG_SIZE
          | none => if Region.Suitable ⟨0, fun _ => 0⟩ s.arena (pagesFor (200 + TAG_SIZE)) then
              0 * PAGE_SIZE + TAG_SIZE else 0, s') := by
  obtain ⟨s, hs, -, howned⟩ := exists_returned
  exact ⟨s, hs, howned, malloc_first_fit hs (by decide) ⟨0, fun _ => 0⟩⟩

end Ibnos.LiballocRegions
