import Ibnos.PagingPrograms

/-!
The paging functions do not look at what is stored in the frames. They can only
copy whole frames, so that two runs which differ in the contents of some frames
stay together.
-/

namespace Ibnos.FrameContents

open Ibnos.Memory
open Ibnos.Physmem
open Ibnos.Paging
open Ibnos.Programs
open Ibnos.PagingPrograms

section

variable {α β : Type}

/-- With other contents of the frames the program does the same, and `origin` says which frame
each frame was copied from. -/
def Oblivious (m : M α) : Prop :=
  ∀ s, ∃ origin : Nat → Nat, ∀ memory, m (withMemory s memory) =
    (m s).map fun r => (r.1, withMemory r.2 fun f => memory (origin f))

theorem oblivious_pure (a : α) : Oblivious (pure a) := fun _ => ⟨id, fun _ => rfl⟩

theorem oblivious_throw (e : Stop) : Oblivious (throw e : M α) := fun _ => ⟨id, fun _ => rfl⟩

theorem oblivious_modify {g : Machine → Machine}
    (hg : ∀ s memory, g (withMemory s memory) = withMemory (g s) memory) :
      Oblivious (modify g) := by
  refine fun s => ⟨id, fun memory => ?_⟩
  change Except.ok ((), g (withMemory s memory)) = _
  rw [hg]
  rfl

theorem Oblivious.bind {m : M α} {f : α → M β} (hm : Oblivious m) (hf : ∀ a, Oblivious (f a)) :
    Oblivious (m >>= f) := by
  intro s
  obtain ⟨origin, horigin⟩ := hm s
  rcases hs : m s with e | ⟨a, s'⟩
  · refine ⟨id, fun memory => ?_⟩
    rw [bind_apply, bind_apply, horigin, hs]
    rfl
  · obtain ⟨origin', horigin'⟩ := hf a s'
    refine ⟨origin ∘ origin', fun memory => ?_⟩
    rw [bind_apply, bind_apply, horigin, hs]
    exact horigin' fun f => memory (origin f)

theorem oblivious_get_bind {f : Machine → M β} (hf : ∀ s memory, f (withMemory s memory) = f s)
    (hb : ∀ s, Oblivious (f s)) : Oblivious (get >>= f) := by
  intro s
  obtain ⟨origin, horigin⟩ := hb s s
  refine ⟨origin, fun memory => ?_⟩
  change f (withMemory s memory) (withMemory s memory) = (f s s).map _
  rw [hf]
  exact horigin memory

end

section

theorem closed_oblivious : Closed fun _ m => Oblivious m where
  pure := oblivious_pure
  throw := oblivious_throw
  bind := Oblivious.bind
  get_bind := oblivious_get_bind
  setKernel _ _ := oblivious_modify fun _ _ => rfl
  setEntry p _ _ := oblivious_modify fun _ _ => by cases p <;> rfl
  setInfo _ _ := oblivious_modify fun _ _ => rfl
  take _ := oblivious_modify fun _ _ => rfl
  free _ := oblivious_modify fun _ _ => rfl
  setKernelTable _ _ := oblivious_modify fun _ _ => rfl
  setExtra _ _ := oblivious_modify fun _ _ => rfl

theorem oblivious_ite {α : Type} {c : Prop} {_ : Decidable c} {m m' : M α} (hm : Oblivious m)
    (hm' : Oblivious m') : Oblivious (if c then m else m') :=
  closed_ite (C := fun _ m => Oblivious m) hm hm'

theorem oblivious_mapPageTable (pid i : Nat) : Oblivious (mapPageTable pid i) := by
  have h := closed_oblivious
  refine oblivious_get_bind (fun _ _ => rfl) fun s => oblivious_ite ?_ (oblivious_pure _)
  refine Oblivious.bind (h.physMemAddRefPage _) fun _ => ?_
  exact Oblivious.bind (h.pagingMapPhysMem _ _ _ _) fun _ => oblivious_modify fun _ _ => rfl

theorem oblivious_getProcessEntry (pid page : Nat) (alloc : Bool) :
    Oblivious (getProcessEntry pid page alloc) := by
  have h := closed_oblivious
  refine oblivious_get_bind (fun _ _ => rfl) fun s => Oblivious.bind (h.check _) fun _ => ?_
  refine Oblivious.bind (h.accessDirectory _) fun _ => oblivious_get_bind (fun _ _ => rfl) fun s =>
    ?_
  refine oblivious_ite (oblivious_ite ?_ (oblivious_pure _)) ?_
  · refine Oblivious.bind (h.physMemAllocPage _) fun _ => ?_
    refine (oblivious_modify fun _ _ => rfl).bind fun _ => (oblivious_mapPageTable _ _).bind
      fun _ => ?_
    refine Oblivious.bind (h.accessTable _ _) fun _ => ?_
    exact (oblivious_modify fun _ _ => rfl).bind fun _ => oblivious_pure _
  · refine Oblivious.bind (h.requirePresent _) fun _ => Oblivious.bind (h.check _) fun _ => ?_
    exact (oblivious_mapPageTable _ _).bind fun _ => oblivious_pure _

/-- The only function which moves contents. -/
theorem oblivious_copyPage (destination source : Nat) :
    Oblivious (copyPage destination source) := by
  intro s
  rcases hdst : s.translate (pageOf destination) with _ | dst
  · refine ⟨id, fun memory => ?_⟩
    have hdst' : (withMemory s memory).translate (pageOf destination) = none := hdst
    rw [copyPage, bind_apply, bind_apply, get_apply, get_apply]
    simp only [hdst, hdst']
    rfl
  · rcases hsrc : s.translate (pageOf source) with _ | src
    · refine ⟨id, fun memory => ?_⟩
      have hdst' : (withMemory s memory).translate (pageOf destination) = some dst := hdst
      have hsrc' : (withMemory s memory).translate (pageOf source) = none := hsrc
      rw [copyPage, bind_apply, bind_apply, get_apply, get_apply]
      simp only [hdst, hdst', hsrc, hsrc']
      rfl
    · refine ⟨Function.update id dst src, fun memory => ?_⟩
      have hdst' : (withMemory s memory).translate (pageOf destination) = some dst := hdst
      have hsrc' : (withMemory s memory).translate (pageOf source) = some src := hsrc
      rw [copyPage, bind_apply, bind_apply, get_apply, get_apply]
      simp only [hdst, hdst', hsrc, hsrc']
      change Except.ok ((), { withMemory s memory with
        memory := Function.update memory dst (memory src) }) = Except.ok ((), _)
      congr 2
      change withMemory s _ = withMemory s _
      congr 1
      funext f
      rcases eq_or_ne f dst with rfl | hne
      · rw [Function.update_self, Function.update_self]
      · rw [Function.update_of_ne hne, Function.update_of_ne hne]
        rfl

theorem oblivious_dropPageTable (pid i : Nat) : Oblivious (dropPageTable pid i) := by
  have h := closed_oblivious
  refine oblivious_get_bind (fun _ _ => rfl) fun s => ?_
  split
  · exact Oblivious.bind (h.pagingReleasePhysMem _ _) fun _ => oblivious_modify fun _ _ => rfl
  · exact oblivious_pure _

theorem oblivious_dropDirectoryEntry (pid i : Nat) : Oblivious (dropDirectoryEntry pid i) := by
  have h := closed_oblivious
  refine Oblivious.bind (h.accessDirectory _) fun _ => oblivious_get_bind (fun _ _ => rfl) fun s =>
    ?_
  refine oblivious_ite (oblivious_pure _) (Oblivious.bind (h.requirePresent _) fun _ => ?_)
  refine (oblivious_modify fun _ _ => rfl).bind fun _ => ?_
  exact Oblivious.bind (h.physMemReleasePage _) fun _ => oblivious_pure _

theorem oblivious_dropTables (pid rounds i : Nat) : Oblivious (dropTables pid rounds i) := by
  induction rounds generalizing i with
  | zero => exact oblivious_pure _
  | succ rounds ih =>
      refine (oblivious_dropPageTable _ _).bind fun _ => ?_
      exact (oblivious_dropDirectoryEntry _ _).bind fun _ => ih _

theorem oblivious_dropDirectory (pid : Nat) : Oblivious (dropDirectory pid) := by
  have h := closed_oblivious
  refine oblivious_get_bind (fun _ _ => rfl) fun s => ?_
  split
  · exact Oblivious.bind (h.pagingReleasePhysMem _ _) fun _ => oblivious_modify fun _ _ => rfl
  · exact oblivious_throw _

theorem processClosed_oblivious : ProcessClosed fun _ m => Oblivious m where
  toClosed := closed_oblivious
  getProcessEntry := oblivious_getProcessEntry
  copyPage := oblivious_copyPage
  setPageDirectory _ _ := oblivious_modify fun _ _ => rfl
  dropTables := oblivious_dropTables
  dropDirectory := oblivious_dropDirectory

end

end Ibnos.FrameContents
