import Ibnos.HeapPayloads

/-!
Runs of the heap with the contents of the blocks. Whatever was written to a block
is there until the block is given back, wherever the block moves in the meantime.
-/

namespace Ibnos.HeapContents

open Ibnos.Allocator hiding State Call step heapAlloc heapReAlloc
open Ibnos.ByteMemories
open Ibnos.HeapBytes
open Ibnos.HeapLayout
open Ibnos.HeapOperations
open Ibnos.HeapPayloads
open Ibnos.HeapRuns hiding step_alloc step_free step_realloc step_write
open Ibnos.HeapWrites
open Ibnos.Runs

/-- The heap, and the pointers its users hold. -/
structure State where
  store : Store
  live : List Nat

inductive Call
  | alloc (length : Nat) (fresh : FreshPages)
  | realloc (addr length : Nat) (fresh : FreshPages) (copied : Garbage)
  | free (addr : Nat)
  /-- the owner of a block writes to it -/
  | write (addr offset : Nat) (bytes : List (BitVec 8)) (garbage : Garbage)

def put (s : Store) (start : Nat) (bytes : List (BitVec 8)) (garbage : Garbage) : Store where
  heap := s.heap.overwrite start (start + bytes.length) garbage
  bytes := putBytes s.bytes start bytes

/-- A call with the pointer it returns. -/
def step (image : Heap → Memory) (s : State) : Call → Except Stop (State × Nat)
  | .alloc length fresh =>
      if length ≤ MAX_LENGTH then do
        let (addr, store) ← heapAlloc image s.store length fresh
        return (⟨store, hold s.live addr⟩, addr)
      else .error .invalidCall
  | .realloc addr length fresh copied =>
      if (addr = 0 ∨ addr ∈ s.live) ∧ length ≤ MAX_LENGTH then do
        let (newAddr, store) ← heapReAlloc image s.store addr length fresh copied
        return (⟨store, hold (s.live.erase addr) newAddr⟩, newAddr)
      else .error .invalidCall
  | .free addr =>
      if addr = 0 ∨ addr ∈ s.live then do
        let heap ← heapFree s.store.heap addr
        return (⟨s.store.write image heap, s.live.erase addr⟩, 0)
      else .error .invalidCall
  | .write addr offset bytes garbage =>
      if addr ∈ s.live then do
        let size ← heapSize s.store.heap addr
        if offset + bytes.length ≤ size then
          return ({ s with store := put s.store (addr + offset) bytes garbage }, 0)
        else .error .invalidCall
      else .error .invalidCall

/-- What a call which returns `result` is meant to do to the contents: a new block has none, a
block which is resized keeps what it has room for, and a write replaces some of them. -/
def record (w : Contents) (result : Nat) : Call → Contents
  | .alloc _ _ => w.drop result
  | .realloc addr length _ _ =>
      Function.update (w.drop addr) result fun i => if i < length then w addr i else none
  | .free addr => w.drop addr
  | .write addr offset bytes _ =>
      Function.update w addr fun i =>
        if offset ≤ i ∧ i < offset + bytes.length then bytes[i - offset]? else w addr i

def recordedStep (image : Heap → Memory) (r : State × Contents) (call : Call) :
    Except Stop ((State × Contents) × Nat) := do
  let (s, result) ← step image r.1 call
  return ((s, record r.2 result call), result)

/-- The heap at boot, with arbitrary bytes in it. -/
def State.init (entries : Nat → HeapEntry) (bytes : Memory) : State where
  store := ⟨(Allocator.State.init entries).heap, bytes⟩
  live := []

/-- What was written is where it should be. -/
def Holding (s : Store) (L : Layout) (w : Contents) : Prop :=
  ∀ addr i b, w addr i = some b → ∃ x, addr = x + 16 ∧ Used s.heap L x ∧
    16 + i < (s.heap.entries x).length ∧ s.bytes (x + (16 + i)) = b

/-- The invariant of a run. -/
structure Faithful (r : State × Contents) (L : Layout) : Prop where
  running : Running ⟨r.1.store.heap, r.1.live⟩ L
  holding : Holding r.1.store L r.2

section

variable {image : Heap → Memory} {s : State} {store : Store} {w w' : Contents} {L L' : Layout}
  {x y addr : Nat}

/-- The blocks which satisfy `P` stay as they are. -/
theorem Holding.transfer {P : Nat → Prop} (h : Holding s.store L w)
    (hkeep : ∀ x, Used s.store.heap L x → P (x + 16) → Used store.heap L' x ∧
      store.heap.entries x = s.store.heap.entries x ∧
      Kept s.store store x (s.store.heap.entries x).length)
    (hw : ∀ addr i b, w' addr i = some b → w addr i = some b ∧ P addr) :
    Holding store L' w' := by
  intro addr i b hb
  obtain ⟨hb, hP⟩ := hw addr i b hb
  obtain ⟨x, rfl, hx, hi, rfl⟩ := h addr i b hb
  obtain ⟨hx', hentry, hkept⟩ := hkeep x hx hP
  exact ⟨x, rfl, hx', by rwa [hentry], hkept (16 + i) (by omega) hi⟩

theorem zero_not_live (h : Running ⟨s.store.heap, s.live⟩ L) : (0 : Nat) ∉ s.live := by
  intro hzero
  obtain ⟨x, hx, -⟩ := (h.live 0).mp hzero
  omega

theorem step_alloc (image : Heap → Memory) (h : Faithful (s, w) L) (length : Nat)
    (fresh : FreshPages) :
    (∃ e, recordedStep image (s, w) (.alloc length fresh) = .error e ∧ Excused e) ∨
      ∃ r addr, recordedStep image (s, w) (.alloc length fresh) = .ok (r, addr) ∧
        ∃ L', Faithful r L' := by
  rw [recordedStep, step]
  split_ifs with hmax
  · rcases Nat.eq_zero_or_pos length with rfl | hpos
    · exact Or.inr ⟨_, _, rfl, L, h.running,
        h.holding.transfer (P := fun _ => True) (fun x hx _ => ⟨hx, rfl, fun _ _ _ => rfl⟩)
          fun _ _ _ hb => ⟨(drop_some hb).2, trivial⟩⟩
    · rcases heapAlloc_eq h.running.valid hpos hmax fresh.toFresh with
        halloc | ⟨y, heap, L', halloc, hvalid, hallocated, -⟩
      · rw [heapOnly_error (heapAlloc_heap.trans halloc)]
        exact Or.inl ⟨_, rfl, Or.inl rfl⟩
      · have halloc : heapOnly (heapAlloc image s.store length fresh) = .ok (y + 16, heap) :=
          heapAlloc_heap.trans halloc
        obtain ⟨store, hstore, rfl⟩ := heapOnly_ok halloc
        have hkept := heapAlloc_kept h.running.valid hpos hstore
        rw [hstore]
        refine Or.inr ⟨_, _, rfl, L', h.running.allocated hvalid hallocated,
          h.holding.transfer (P := fun a => a ≠ y + 16) ?_ fun _ _ _ hb => ?_⟩
        · exact fun x hx _ =>
            ⟨(hallocated.used x).mpr (Or.inl hx), hallocated.entries x hx, hkept x hx⟩
        · exact ⟨(drop_some hb).2, (drop_some hb).1⟩
  · exact Or.inl ⟨_, rfl, Or.inr rfl⟩

theorem free_block (image : Heap → Memory) (h : Faithful (s, w) L) (hx : Used s.store.heap L x) :
    ∃ heap L', heapFree s.store.heap (x + 16) = .ok heap ∧
      Faithful (⟨s.store.write image heap, s.live.erase (x + 16)⟩, w.drop (x + 16)) L' := by
  obtain ⟨heap, L', hfree, hvalid, hfreed⟩ := heapFree_eq h.running.valid hx
  refine ⟨heap, L', hfree, h.running.freed hvalid hfreed,
    h.holding.transfer (P := fun a => a ≠ x + 16) ?_ fun _ _ _ hb => ?_⟩
  · intro z hz hzx
    have hzx : z ≠ x := by omega
    exact ⟨(hfreed.used z).mpr ⟨hz, hzx⟩, hfreed.entries z hz hzx,
      kept_write (heapFree_untouched h.running.valid hx hfree hz hzx)⟩
  · exact ⟨(drop_some hb).2, (drop_some hb).1⟩

theorem step_free (h : Faithful (s, w) L) (addr : Nat) :
    (∃ e, recordedStep image (s, w) (.free addr) = .error e ∧ Excused e) ∨
      ∃ r addr', recordedStep image (s, w) (.free addr) = .ok (r, addr') ∧
        ∃ L', Faithful r L' := by
  rw [recordedStep, step]
  split_ifs with hlive
  · right
    rcases hlive with rfl | hlive
    · have hself : s.store.write image s.store.heap = s.store := write_self s.store
      refine ⟨_, _, rfl, L, ?_, ?_⟩
      · rw [List.erase_of_not_mem (zero_not_live h.running)]
        exact h.running
      · rw [hself]
        exact h.holding.transfer (P := fun _ => True) (fun x hx _ => ⟨hx, rfl, fun _ _ _ => rfl⟩)
          fun _ _ _ hb => ⟨(drop_some hb).2, trivial⟩
    · obtain ⟨x, rfl, hx⟩ := (h.running.live addr).mp hlive
      obtain ⟨heap, L', hfree, hfaithful⟩ := free_block image h hx
      rw [hfree]
      exact ⟨_, _, rfl, L', hfaithful⟩
  · exact Or.inl ⟨_, rfl, Or.inr rfl⟩

/-- What is written into a block is there, and nothing else changes. -/
theorem holding_put {offset : Nat} {bytes : List (BitVec 8)} {garbage : Garbage}
    (h : Faithful (s, w) L) (hx : Used s.store.heap L x)
    (hfits : offset + bytes.length ≤ (s.store.heap.entries x).length - 16)
    (hsame : SameUsed s.store.heap L (put s.store (x + 16 + offset) bytes garbage).heap L) :
    Holding (put s.store (x + 16 + offset) bytes garbage) L
      (Function.update w (x + 16) fun i =>
        if offset ≤ i ∧ i < offset + bytes.length then bytes[i - offset]? else w (x + 16) i) := by
  have hge := Block.length_ge h.running.valid.toSound (Used.block hx)
  dsimp only at hge
  intro a i b hb
  rcases eq_or_ne a (x + 16) with rfl | hne
  · rw [Function.update_self] at hb
    refine ⟨x, rfl, (hsame.used x).mpr hx, ?_⟩
    rw [hsame.entries x hx]
    split_ifs at hb with hin
    · refine ⟨by omega, ?_⟩
      change putBytes s.store.bytes (x + 16 + offset) bytes (x + (16 + i)) = b
      rw [putBytes, if_pos (by omega), show x + (16 + i) - (x + 16 + offset) = i - offset by omega,
        List.getD_eq_getElem?_getD, hb]
      rfl
    · obtain ⟨y, hy, -, hi, rfl⟩ := h.holding _ i b hb
      obtain rfl : x = y := by omega
      exact ⟨hi, putBytes_frame (by omega)⟩
  · rw [Function.update_of_ne hne] at hb
    obtain ⟨z, rfl, hz, hi, rfl⟩ := h.holding a i b hb
    have hdisjoint := blocks_disjoint h.running.valid.toSound (Used.block hx) (Used.block hz)
      (by omega)
    dsimp only at hi hdisjoint
    refine ⟨z, rfl, (hsame.used z).mpr hz, ?_, putBytes_frame (by omega)⟩
    rwa [hsame.entries z hz]

theorem step_write (h : Faithful (s, w) L) (addr offset : Nat) (bytes : List (BitVec 8))
    (garbage : Garbage) :
    (∃ e, recordedStep image (s, w) (.write addr offset bytes garbage) = .error e ∧ Excused e) ∨
      ∃ r addr', recordedStep image (s, w) (.write addr offset bytes garbage) = .ok (r, addr') ∧
        ∃ L', Faithful r L' := by
  rw [recordedStep, step]
  split_ifs with hlive
  · obtain ⟨x, rfl, hx⟩ := (h.running.live addr).mp hlive
    have hsize := heapSize_eq h.running.valid hx
    dsimp only at hsize
    rw [hsize]
    simp only [bind, Except.bind]
    split_ifs with hbounds
    · right
      have hge := Block.length_ge h.running.valid.toSound (Used.block hx)
      dsimp only at hge
      obtain ⟨hvalid, hsame⟩ := valid_overwrite h.running.valid (Used.block hx) (x + 16 + offset)
        (x + 16 + offset + bytes.length) garbage (by omega) (by dsimp only; omega)
      refine ⟨_, _, rfl, L, ⟨hvalid, fun addr => ?_, h.running.nodup⟩, ?_⟩
      · exact (h.running.live addr).trans
          (exists_congr fun y => and_congr_right fun _ => (hsame.used y).symm)
      · exact holding_put h hx hbounds hsame
    · exact Or.inl ⟨_, rfl, Or.inr rfl⟩
  · exact Or.inl ⟨_, rfl, Or.inr rfl⟩

/-- A block which is resized keeps what was written to it. -/
theorem holding_carried {length : Nat} (h : Faithful (s, w) L)
    (hcarried : Carried s.store L x length y store L') :
    Holding store L' (Function.update (w.drop (x + 16)) (y + 16) fun i =>
      if i < length then w (x + 16) i else none) := by
  intro a i b hb
  rcases eq_or_ne a (y + 16) with rfl | hne
  · rw [Function.update_self] at hb
    split_ifs at hb with hi
    · obtain ⟨z, hz, -, hlt, rfl⟩ := h.holding _ i b hb
      obtain rfl : x = z := by omega
      have hroom := hcarried.room
      exact ⟨y, rfl, (hcarried.moved.used y).mpr (Or.inr rfl), by omega,
        hcarried.payload (16 + i) (by omega) hlt (by omega)⟩
  · rw [Function.update_of_ne hne] at hb
    obtain ⟨hax, hb⟩ := drop_some hb
    obtain ⟨z, rfl, hz, hlt, rfl⟩ := h.holding a i b hb
    have hzx : z ≠ x := by omega
    refine ⟨z, rfl, (hcarried.moved.used z).mpr (Or.inl ⟨hz, hzx⟩), ?_,
      hcarried.others z hz hzx (16 + i) (by omega) hlt⟩
    rwa [hcarried.moved.entries z hz hzx]

theorem step_realloc (h : Faithful (s, w) L) (addr length : Nat) (fresh : FreshPages)
    (copied : Garbage) :
    (∃ e, recordedStep image (s, w) (.realloc addr length fresh copied) = .error e ∧ Excused e) ∨
      ∃ r addr', recordedStep image (s, w) (.realloc addr length fresh copied) = .ok (r, addr') ∧
        ∃ L', Faithful r L' := by
  have hzero := zero_not_live h.running
  rw [recordedStep, step]
  split_ifs with hcall
  · obtain ⟨hlive, hmax⟩ := hcall
    rcases hlive with rfl | hlive
    · -- without a block it is an allocation
      have hw : w 0 = fun _ => none := by
        funext i
        rcases hb : w 0 i with _ | b
        · rfl
        · obtain ⟨x, hx, -⟩ := h.holding 0 i b hb
          omega
      have hrecord : ∀ r, record w r (.realloc 0 length fresh copied) =
          record w r (.alloc length fresh) := by
        intro r
        have hdrop : w.drop 0 = w := by
          rw [Contents.drop, ← hw]
          exact Function.update_eq_self 0 w
        simp only [record, hdrop, hw, ite_self]
        rfl
      have halloc := step_alloc image h length fresh
      rw [recordedStep, step, if_pos hmax] at halloc
      rw [heapReAlloc, if_pos rfl, List.erase_of_not_mem hzero]
      simp only [hrecord]
      exact halloc
    · obtain ⟨x, rfl, hx⟩ := (h.running.live addr).mp hlive
      rcases Nat.eq_zero_or_pos length with rfl | hpos
      · right
        obtain ⟨heap, L', hfree, hfaithful⟩ := free_block image h hx
        rw [heapReAlloc, if_neg (by omega), if_pos rfl, hfree]
        refine ⟨_, _, rfl, L', hfaithful.running, ?_⟩
        refine hfaithful.holding.transfer (P := fun _ => True)
          (fun x hx _ => ⟨hx, rfl, fun _ _ _ => rfl⟩) fun a i b hb => ⟨?_, trivial⟩
        rcases eq_or_ne a 0 with rfl | hne
        · simp [record] at hb
        · simpa [record, hne] using hb
      · rcases heapReAlloc_carried image fresh h.running.valid hx hpos hmax
          copied with hrealloc | ⟨y, store, L', hrealloc, hcarried⟩
        · rw [hrealloc]
          exact Or.inl ⟨_, rfl, Or.inl rfl⟩
        · rw [hrealloc]
          exact Or.inr ⟨_, _, rfl, L', h.running.moved hcarried.valid hcarried.moved,
            holding_carried h hcarried⟩
  · exact Or.inl ⟨_, rfl, Or.inr rfl⟩

end

end Ibnos.HeapContents
