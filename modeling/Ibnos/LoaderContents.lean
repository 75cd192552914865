import Ibnos.ElfLoader
import Ibnos.FreshMemory

/-!
The loader does not look at what is stored in the frames. Whatever was left there, it gives the
same answer or stops for the same reason.
-/

namespace Ibnos.LoaderContents

open Ibnos.ElfLoader
open Ibnos.FrameContents
open Ibnos.FreshMemory
open Ibnos.Memory
open Ibnos.Paging
open Ibnos.PagingPrograms
open Ibnos.Programs
open Ibnos.UserAccesses

section

/-! Programs which cannot see a part of their state. -/

variable {σ τ ε α β : Type} {erase : σ → τ}

/-- Two runs from states which only differ in what is erased go the same way. -/
def Blind (erase : σ → τ) (m : Program σ ε α) : Prop :=
  ∀ s s', erase s = erase s' → (∃ e, m s = .error e ∧ m s' = .error e) ∨
    ∃ a s₁ s₁', m s = .ok (a, s₁) ∧ m s' = .ok (a, s₁') ∧ erase s₁ = erase s₁'

theorem blind_pure (a : α) : Blind erase (pure a : Program σ ε α) :=
  fun s s' hs => Or.inr ⟨a, s, s', rfl, rfl, hs⟩

theorem blind_throw (e : ε) : Blind erase (throw e : Program σ ε α) :=
  fun _ _ _ => Or.inl ⟨e, rfl, rfl⟩

theorem blind_modify {g : σ → σ} (hg : ∀ s s', erase s = erase s' → erase (g s) = erase (g s')) :
    Blind erase (modify g : Program σ ε PUnit) :=
  fun s s' hs => Or.inr ⟨⟨⟩, g s, g s', rfl, rfl, hg s s' hs⟩

theorem Blind.bind {m : Program σ ε α} {f : α → Program σ ε β} (hm : Blind erase m)
    (hf : ∀ a, Blind erase (f a)) : Blind erase (m >>= f) := by
  intro s s' hs
  rw [bind_apply, bind_apply]
  rcases hm s s' hs with ⟨e, he, he'⟩ | ⟨a, s₁, s₁', hok, hok', hs₁⟩
  · rw [he, he']
    exact Or.inl ⟨e, rfl, rfl⟩
  · rw [hok, hok']
    exact hf a s₁ s₁' hs₁

theorem blind_get_bind {f : σ → Program σ ε β} (hf : ∀ s s', erase s = erase s' → f s = f s')
    (hb : ∀ s, Blind erase (f s)) : Blind erase (get >>= f) := by
  intro s s' hs
  rw [bind_apply, bind_apply, get_apply, get_apply]
  simp only
  rw [← hf s s' hs]
  exact hb s s s' hs

theorem blind_ite {c : Prop} {_ : Decidable c} {m m' : Program σ ε α} (hm : Blind erase m)
    (hm' : Blind erase m') : Blind erase (if c then m else m') := by
  split
  · exact hm
  · exact hm'

end

section

variable {α : Type} {m : M α}

theorem blind_of_oblivious (h : Oblivious m) : Blind blank m := by
  have hrun : ∀ s, ∃ origin : Nat → Nat, m s =
      (m (blank s)).map fun r => (r.1, withMemory r.2 fun f => s.memory (origin f)) := by
    intro s
    obtain ⟨origin, horigin⟩ := h (blank s)
    exact ⟨origin, horigin s.memory⟩
  intro s s' hs
  obtain ⟨origin, hm⟩ := hrun s
  obtain ⟨origin', hm'⟩ := hrun s'
  rw [← hs] at hm'
  rcases hblank : m (blank s) with e | ⟨a, s₁⟩ <;> rw [hblank] at hm hm'
  · exact Or.inl ⟨e, hm, hm'⟩
  · exact Or.inr ⟨a, _, _, hm, hm', rfl⟩

theorem blind_storeByte (page offset : Nat) (value : BitVec 8) :
    Blind blank (storeByte page offset value) := by
  refine blind_get_bind (fun s s' hs => ?_) fun s => ?_
  · have htranslate : (blank s).translate page = (blank s').translate page := by rw [hs]
    have hholds : (blank s).holdsTable = (blank s').holdsTable := by rw [hs]
    change s.translate page = s'.translate page at htranslate
    change s.holdsTable = s'.holdsTable at hholds
    rw [htranslate, hholds]
  · split
    · exact blind_throw _
    · exact blind_ite (blind_throw _) (blind_modify fun _ _ hs => hs)

theorem blind_storeBytes (values : List (BitVec 8)) (addr : Nat) :
    Blind blank (storeBytes addr values) := by
  induction values generalizing addr with
  | nil => exact blind_pure _
  | cons value values ih => exact (blind_storeByte _ _ _).bind fun _ => ih _

theorem blind_accessUserMemory (pid src_addr length : Nat) (rw : Bool) :
    Blind blank (accessUserMemory (some pid) src_addr length rw) := by
  refine blind_ite (blind_pure _) (Blind.bind ?_ fun _ => blind_pure _)
  exact blind_of_oblivious (processClosed_oblivious.pagingTryMapUserMem _ _ _ _)

theorem blind_releaseUserMemory (k : UserMemory) : Blind blank (releaseUserMemory k) := by
  rw [releaseUserMemory]
  split
  · exact blind_of_oblivious (closed_oblivious.pagingReleasePhysMem _ _)
  · exact blind_pure _

end

section

variable {α : Type} {heap : Heap} {b : Buffer} {header : ElfHeader}

/-- The loader before anything was stored in a frame. -/
def emptied (s : Loader) : Loader := { s with machine := blank s.machine }

theorem emptied_eq {s s' : Loader} (hs : emptied s = emptied s') :
    blank s.machine = blank s'.machine ∧ s.blocks = s'.blocks ∧ s.entryPoint = s'.entryPoint :=
  Loader.mk.inj hs

theorem emptied_congr {s s' : Loader} (hmachine : blank s.machine = blank s'.machine)
    (hblocks : s.blocks = s'.blocks) (hentry : s.entryPoint = s'.entryPoint) :
    emptied s = emptied s' := by
  rw [emptied, emptied, hmachine, hblocks, hentry]

theorem blind_onMachine {m : M α} (hm : Blind blank m) : Blind emptied (onMachine m) := by
  intro s s' hs
  obtain ⟨hmachine, hblocks, hentry⟩ := emptied_eq hs
  rw [onMachine, onMachine]
  rcases hm _ _ hmachine with ⟨e, he, he'⟩ | ⟨a, s₁, s₁', hok, hok', hs₁⟩
  · rw [he, he']
    exact Or.inl ⟨e, rfl, rfl⟩
  · rw [hok, hok']
    exact Or.inr ⟨a, _, _, rfl, rfl, emptied_congr hs₁ hblocks hentry⟩

theorem blind_heapAlloc (heap : Heap) : Blind emptied (heapAlloc heap) := by
  intro s s' hs
  obtain ⟨hmachine, hblocks, hentry⟩ := emptied_eq hs
  rw [heapAlloc, heapAlloc, hblocks]
  exact Or.inr ⟨_, _, _, rfl, rfl, emptied_congr hmachine rfl hentry⟩

theorem blind_heapFree (block : Nat) : Blind emptied (heapFree block) := by
  intro s s' hs
  obtain ⟨hmachine, hblocks, hentry⟩ := emptied_eq hs
  rw [heapFree, bind_apply, bind_apply, get_apply, get_apply]
  simp only [hblocks]
  split
  · exact Or.inr ⟨_, _, _, rfl, rfl, emptied_congr hmachine rfl hentry⟩
  · exact Or.inl ⟨_, rfl, rfl⟩

theorem blind_readBuffer (b : Buffer) (a length : Nat) (r : α) :
    Blind emptied (readBuffer b a length r) :=
  blind_ite (blind_pure _) (blind_throw _)

theorem blind_nextSection (b : Buffer) (header : ElfHeader) (offset : Nat) :
    Blind emptied (nextSection b header offset) :=
  blind_ite (blind_pure _) ((blind_readBuffer _ _ _ _).bind fun _ => blind_pure _)

theorem blind_insertEntry (heap : Heap) (start stop : Nat) (pages : List RequiredPages) :
    Blind emptied (insertEntry heap start stop pages) :=
  (blind_heapAlloc heap).bind fun _ => blind_pure _

theorem blind_insertRequiredLoop (pages : List RequiredPages) (start stop : Nat) :
    Blind emptied (insertRequiredLoop heap pages start stop) := by
  induction pages generalizing start stop with
  | nil => exact blind_insertEntry _ _ _ _
  | cons it rest ih =>
      refine blind_ite (blind_insertEntry _ _ _ _) (blind_ite ?_ (blind_ite (blind_pure _) ?_))
      · exact (ih _ _).bind fun _ => blind_pure _
      · exact (blind_heapFree _).bind fun _ => ih _ _

theorem blind_requireLoop (rounds offset : Nat) (pages : List RequiredPages) :
    Blind emptied (requireLoop heap b header rounds offset pages) := by
  induction rounds generalizing offset pages with
  | zero => exact blind_pure _
  | succ rounds ih =>
      refine (blind_nextSection b header offset).bind fun e => ?_
      rcases e with _ | e
      · exact blind_pure _
      · refine blind_ite (ih _ _) (blind_ite (blind_pure _) (Blind.bind ?_ fun _ => ?_))
        · exact blind_onMachine (blind_of_oblivious (closed_oblivious.check _))
        · refine Blind.bind ?_ fun _ => ih _ _
          exact blind_ite (blind_pure _) (blind_insertRequiredLoop _ _ _)

theorem blind_allocateLoop (pid : Nat) (pages : List RequiredPages) :
    Blind emptied (allocateLoop pid pages) := by
  induction pages with
  | nil => exact blind_pure _
  | cons it rest ih =>
      refine Blind.bind (blind_onMachine ?_) fun _ => (blind_heapFree _).bind fun _ => ih
      exact blind_of_oblivious (processClosed_oblivious.pagingAllocatePhysMemFixed _ _ _ _ _)

theorem blind_storeSection (pid : Nat) (b : Buffer) (e : ElfSection) :
    Blind emptied (storeSection pid b e) := by
  refine (blind_onMachine (blind_accessUserMemory _ _ _ _)).bind fun r => ?_
  refine blind_ite ?_ (blind_pure _)
  refine Blind.bind (blind_ite (blind_pure _) (blind_readBuffer _ _ _ _)) fun values => ?_
  refine (blind_onMachine (blind_storeBytes _ _)).bind fun _ => ?_
  exact (blind_onMachine (blind_releaseUserMemory _)).bind fun _ => blind_pure _

theorem blind_storeLoop (pid rounds offset : Nat) :
    Blind emptied (storeLoop pid b header rounds offset) := by
  induction rounds generalizing offset with
  | zero => exact blind_pure _
  | succ rounds ih =>
      refine (blind_nextSection b header offset).bind fun e => ?_
      rcases e with _ | e
      · exact blind_pure _
      · refine blind_ite (ih _) ((blind_storeSection pid b e).bind fun stored => ?_)
        exact blind_ite (ih _) (blind_pure _)

theorem blind_elfLoadBinary (heap : Heap) (pid : Nat) (b : Buffer) :
    Blind emptied (elfLoadBinary heap pid b) := by
  refine blind_ite (blind_pure _) ((blind_readBuffer _ _ _ _).bind fun header => ?_)
  refine blind_ite (blind_pure _) (blind_ite (blind_pure _) ?_)
  refine (blind_requireLoop _ _ _).bind fun pages => ?_
  rcases pages with _ | pages
  · exact blind_pure _
  · refine (blind_allocateLoop pid pages).bind fun _ => ?_
    refine (blind_storeLoop _ _ _).bind fun stored => blind_ite ?_ (blind_pure _)
    refine Blind.bind (blind_modify fun s s' hs => ?_) fun _ => blind_pure _
    obtain ⟨hmachine, hblocks, hentry⟩ := emptied_eq hs
    exact emptied_congr hmachine hblocks (by rw [hentry])

/-- Whatever the frames hold, the loader stops for the same reasons. -/
theorem elfLoadBinary_error_congr {pid : Nat} {s s' : Loader} {e : Stop}
    (hs : emptied s = emptied s') (herror : elfLoadBinary heap pid b s = .error e) :
    elfLoadBinary heap pid b s' = .error e := by
  rcases blind_elfLoadBinary heap pid b s s' hs with ⟨e', he, he'⟩ | ⟨a, s₁, s₁', hok, -, -⟩
  · rwa [← herror, he]
  · rw [herror] at hok
    cases hok

end

end Ibnos.LoaderContents
