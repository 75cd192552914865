import Ibnos.Allocator
import Ibnos.ByteMemories

/-!
The heap with the bytes of its memory. The functions which get pages from the paging
layer or copy data are written out again with what they do to the bytes; the other ones
write to nothing but headers.
-/

namespace Ibnos.HeapBytes

open Ibnos.Allocator
open Ibnos.ByteMemories

/-- A header at `w` would be the same as before. -/
def Quiet (s s' : Heap) (w : Nat) : Prop :=
  s'.entries w = s.entries w ∧ s'.links.next (.entry w) = s.links.next (.entry w) ∧
    s'.links.prev (.entry w) = s.links.prev (.entry w)

instance (s s' : Heap) (w : Nat) : Decidable (Quiet s s' w) :=
  inferInstanceAs (Decidable (_ ∧ _ ∧ _))

theorem Quiet.refl (s : Heap) (w : Nat) : Quiet s s w := ⟨rfl, rfl, rfl⟩

theorem Quiet.trans {s s' s'' : Heap} {w : Nat} (h : Quiet s s' w) (h' : Quiet s' s'' w) :
    Quiet s s'' w :=
  ⟨h'.1.trans h.1, h'.2.1.trans h.2.1, h'.2.2.trans h.2.2⟩

structure Store where
  heap : Heap
  bytes : Memory

/-- Pages as they come from the paging layer, with arbitrary bytes in them. -/
structure FreshPages extends Fresh where
  bytes : Memory

/-- The byte at `y` belongs to a header which is written. -/
def wrote (s s' : Heap) (y : Nat) : Bool :=
  (List.range ENTRY_SIZE).any fun i => i ≤ y ∧ ¬Quiet s s' (y - i)

section

/-! Headers are stored as `image` says. -/

variable (image : Heap → Memory)

/-- Some headers are written, which turns the heap into `heap`. -/
def Store.write (s : Store) (heap : Heap) : Store where
  heap := heap
  bytes y := if wrote s.heap heap y then image heap y else s.bytes y

/-- `memcpy` -/
def Store.memcpy (s : Store) (dst src n : Nat) (copied : Garbage) : Store where
  heap := s.heap.overwrite dst (dst + n) copied
  bytes := copy s.bytes src s.bytes dst n

def pagingAllocatePhysMem (s : Store) (n : Nat) (fresh : FreshPages) :
    Except Stop (Nat × Store) := do
  let (heap, h) ← Allocator.pagingAllocatePhysMem s.heap n fresh.toFresh
  return (heap, ⟨h, copy fresh.bytes heap s.bytes heap (n * PAGE_SIZE)⟩)

/-- The bytes move with the pages. -/
def pagingReAllocatePhysMem (s : Store) (heap old new : Nat) (fresh : FreshPages) :
    Except Stop (Nat × Store) := do
  let (newHeap, h) ← Allocator.pagingReAllocatePhysMem s.heap heap old new fresh.toFresh
  let bytes := copy fresh.bytes newHeap s.bytes newHeap (new * PAGE_SIZE)
  return (newHeap, ⟨h, copy s.bytes heap bytes newHeap (min old new * PAGE_SIZE)⟩)

def smallTake (s : Store) (length : Nat) (fresh : FreshPages) :
    Except Stop (Nat × Nat × Store) := do
  let (found, h) ← smallFindUnusedHeapEntry s.heap length
  let s := s.write image h
  match found with
  | some heap =>
      let e ← readEntry s.heap heap
      check (e.heapMagic = SMALL_HEAP_MAGIC)
      check (e.length % HEAP_ALIGN_SIZE = 0)
      check (length ≤ e.length)
      check (e.reserved = false)
      return (heap, e.length, s)
  | none =>
      let (heap, s) ← pagingAllocatePhysMem s 1 fresh
      return (heap, PAGE_SIZE, s)

/-- `__smallAlloc` -/
def smallAlloc (s : Store) (length : Nat) (fresh : FreshPages) : Except Stop (Nat × Store) := do
  let (heap, origHeapLength, s) ← smallTake image s (blockLength length) fresh
  let length := usedLength (blockLength length) origHeapLength
  let h ← writeEntry s.heap heap
    { heapMagic := SMALL_HEAP_MAGIC, length := length, reserved := true }
  let h ← smallReturnRest { h with links := h.links.addAfter .smallHeap (.entry heap) }
    heap length origHeapLength
  return (heap, s.write image h)

/-- `__largeAlloc` -/
def largeAlloc (s : Store) (length : Nat) (fresh : FreshPages) : Except Stop (Nat × Store) := do
  let length := largeLength length
  let (heap, s) ← pagingAllocatePhysMem s (length / PAGE_SIZE) fresh
  let h ← writeEntry s.heap heap
    { heapMagic := LARGE_HEAP_MAGIC, length := length % 2 ^ 31, reserved := true }
  return (heap, s.write image { h with links := h.links.addAfter .largeHeap (.entry heap) })

/-- `__largeReAlloc` -/
def largeReAlloc (s : Store) (heap length : Nat) (fresh : FreshPages) :
    Except Stop (Option Nat × Store) := do
  check (heap % PAGE_SIZE = 0)
  let e ← readEntry s.heap heap
  check (e.heapMagic = LARGE_HEAP_MAGIC)
  check (e.length % PAGE_SIZE = 0)
  if length ≤ 1024 - ENTRY_SIZE then return (none, s)
  else if largeLength length = e.length then return (some heap, s)
  else
    let s := s.write image { s.heap with links := s.heap.links.remove (.entry heap) }
    let (heap, s) ← pagingReAllocatePhysMem s heap (e.length / PAGE_SIZE)
      (largeLength length / PAGE_SIZE) fresh
    let e ← readEntry s.heap heap
    check (e.heapMagic = LARGE_HEAP_MAGIC)
    let h ← writeEntry s.heap heap { e with length := largeLength length % 2 ^ 31, reserved := true }
    return (some heap, s.write image { h with links := h.links.addAfter .largeHeap (.entry heap) })

/-- The block of `heapAlloc`. -/
def allocBlock (s : Store) (length : Nat) (fresh : FreshPages) : Except Stop (Nat × Store) :=
  if length ≤ 1024 - ENTRY_SIZE then smallAlloc image s length fresh
  else largeAlloc image s length fresh

/-- `heapAlloc` -/
def heapAlloc (s : Store) (length : Nat) (fresh : FreshPages) : Except Stop (Nat × Store) :=
  if length = 0 then .ok (0, s)
  else do
    let (heap, s) ← allocBlock image s length fresh
    return (heap + ENTRY_SIZE, s)

/-- The end of `heapReAlloc`: allocate a new block and copy the data. -/
def heapMove (s : Store) (addr heap length : Nat) (fresh : FreshPages) (copied : Garbage) :
    Except Stop (Nat × Store) := do
  let (newAddr, s) ← heapAlloc image s length fresh
  if newAddr = 0 then return (0, s)
  else
    let e ← readEntry s.heap heap
    let length := min length (payloadLength e)
    let s := s.memcpy newAddr addr length copied
    let h ← heapFree s.heap addr
    return (newAddr, s.write image h)

/-- The block of `heapReAlloc`, if it can be resized without a copy. -/
def reallocBlock (s : Store) (heap : Nat) (e : HeapEntry) (length : Nat) (fresh : FreshPages) :
    Except Stop (Option Nat × Store) :=
  if e.heapMagic = SMALL_HEAP_MAGIC then do
    let (newHeap, h) ← smallReAlloc s.heap heap length
    return (newHeap, s.write image h)
  else largeReAlloc image s heap length fresh

/-- `heapReAlloc` -/
def heapReAlloc (s : Store) (addr length : Nat) (fresh : FreshPages) (copied : Garbage) :
    Except Stop (Nat × Store) :=
  if addr = 0 then heapAlloc image s length fresh
  else if length = 0 then do
    let h ← heapFree s.heap addr
    return (0, s.write image h)
  else do
    let (heap, e) ← heapOf s.heap addr
    let (newHeap, s) ← reallocBlock image s heap e length fresh
    match newHeap with
    | some newHeap => return (newHeap + ENTRY_SIZE, s)
    | none => heapMove image s addr heap length fresh copied

end

section

variable {image : Heap → Memory} {s : Store} {length addr heap : Nat} {fresh : FreshPages}
  {copied : Garbage}

/-- What a function returns, without the bytes. -/
def heapOnly {α : Type} (r : Except Stop (α × Store)) : Except Stop (α × Heap) :=
  r.map fun r => (r.1, r.2.heap)

theorem heapOnly_ok {α : Type} {r : Except Stop (α × Store)} {a : α} {h : Heap}
    (hr : heapOnly r = .ok (a, h)) : ∃ s, r = .ok (a, s) ∧ s.heap = h := by
  rcases r with e | ⟨b, s⟩
  · cases hr
  · cases hr
    exact ⟨s, rfl, rfl⟩

theorem heapOnly_error {α : Type} {r : Except Stop (α × Store)} {e : Stop}
    (hr : heapOnly r = .error e) : r = .error e := by
  rcases r with e | ⟨b, s⟩
  · cases hr
    rfl
  · cases hr

theorem heapOnly_bind {α β γ : Type} {x : Except Stop α} {x' : Except Stop γ} {g : α → γ}
    {f : α → Except Stop (β × Store)} {f' : γ → Except Stop (β × Heap)} (hx : x.map g = x')
    (hf : ∀ a, heapOnly (f a) = f' (g a)) : heapOnly (x >>= f) = x' >>= f' := by
  subst hx
  rcases x with e | a
  · rfl
  · exact hf a

theorem map_bind {α β γ : Type} {x : Except Stop α} {f : α → Except Stop β} {g : β → γ}
    {f' : α → Except Stop γ} (hf : ∀ a, (f a).map g = f' a) : (x >>= f).map g = x >>= f' := by
  rcases x with e | a
  · rfl
  · exact hf a

theorem heapOnly_lift {α β : Type} {x : Except Stop α} {f : α → Except Stop (β × Store)}
    {f' : α → Except Stop (β × Heap)} (hf : ∀ a, heapOnly (f a) = f' a) :
    heapOnly (x >>= f) = x >>= f' := map_bind hf

theorem heapOnly_ite {α : Type} {c : Prop} [Decidable c] {r₁ r₂ : Except Stop (α × Store)}
    {r₁' r₂' : Except Stop (α × Heap)} (h₁ : heapOnly r₁ = r₁') (h₂ : heapOnly r₂ = r₂') :
    heapOnly (if c then r₁ else r₂) = if c then r₁' else r₂' := by
  split
  · exact h₁
  · exact h₂

theorem pagingAllocatePhysMem_heap (fresh : FreshPages) (n : Nat) :
    heapOnly (pagingAllocatePhysMem s n fresh) =
      Allocator.pagingAllocatePhysMem s.heap n fresh.toFresh := by
  rw [pagingAllocatePhysMem]
  rcases Allocator.pagingAllocatePhysMem s.heap n fresh.toFresh with e | ⟨heap, h⟩ <;> rfl

theorem smallTake_heap : (smallTake image s length fresh).map (fun r => (r.1, r.2.1, r.2.2.heap)) =
    Allocator.smallTake s.heap length fresh.toFresh := by
  refine map_bind ?_
  rintro ⟨_ | x, h⟩
  · have halloc := pagingAllocatePhysMem_heap (s := s.write image h) fresh 1
    change Except.map _ (pagingAllocatePhysMem (s.write image h) 1 fresh >>= _) =
      Allocator.pagingAllocatePhysMem (s.write image h).heap 1 fresh.toFresh >>= _
    rw [← halloc]
    rcases pagingAllocatePhysMem (s.write image h) 1 fresh with e | ⟨heap, s'⟩ <;> rfl
  · exact map_bind fun _ => map_bind fun _ => map_bind fun _ => map_bind fun _ =>
      map_bind fun _ => rfl

theorem smallAlloc_heap : heapOnly (smallAlloc image s length fresh) =
    Allocator.smallAlloc s.heap length fresh.toFresh := by
  refine heapOnly_bind smallTake_heap ?_
  rintro ⟨heap, orig, s'⟩
  exact heapOnly_lift fun _ => heapOnly_lift fun _ => rfl

theorem largeAlloc_heap : heapOnly (largeAlloc image s length fresh) =
    Allocator.largeAlloc s.heap length fresh.toFresh := by
  refine heapOnly_bind (pagingAllocatePhysMem_heap fresh _) ?_
  rintro ⟨heap, s'⟩
  exact heapOnly_lift fun _ => rfl

theorem heapAlloc_heap : heapOnly (heapAlloc image s length fresh) =
    Allocator.heapAlloc s.heap length fresh.toFresh := by
  refine heapOnly_ite rfl (heapOnly_bind (heapOnly_ite smallAlloc_heap largeAlloc_heap) ?_)
  exact fun _ => rfl

end

end Ibnos.HeapBytes
