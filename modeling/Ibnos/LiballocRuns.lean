import Ibnos.LiballocFrees

/-!
Runs of the allocator with the contents of the blocks. What the program has written to a
block is there until it gives the block back, also if `realloc` moves it.
-/

namespace Ibnos.LiballocRuns

open Ibnos.BoundaryTags
open Ibnos.ByteMemories
open Ibnos.Liballoc
open Ibnos.LiballocCalls
open Ibnos.LiballocFrees
open Ibnos.Runs
open Ibnos.TagLayout
open Ibnos.TagOperations
open Ibnos.WordRecords

/-- What a call which returns `result` is meant to do to the contents: a new block has none or
zeros, a block which is resized keeps what it has room for, and a write replaces some of them. -/
def record (w : Contents) (result : Nat) : Call → Contents
  | .malloc _ _ => w.drop result
  | .calloc nobj size _ =>
      Function.update w result fun i => if i < nobj * size % 2 ^ 32 then some 0 else none
  | .realloc p size _ =>
      Function.update (w.drop p) result fun i => if i < size then w p i else none
  | .free p => w.drop p
  | .write p offset bytes =>
      Function.update w p fun i =>
        if offset ≤ i ∧ i < offset + bytes.length then bytes[i - offset]? else w p i

def recordedStep (r : State × Contents) (call : Call) :
    Except Stop ((State × Contents) × Nat) := do
  let (s, result) ← step r.1 call
  return ((s, record r.2 result call), result)

/-- The kernel has no pages for the block, and no free tag is found for it. -/
def NoMemory (s : Arena) (size : Nat) (r : Region) : Prop :=
  ∃ s', liballocMallocR s size r = .ok (0, s')

/-- How a call may fail. Neither `calloc` nor `realloc` asks whether `malloc` has succeeded. -/
inductive Excused (s : State) : Call → Stop → Prop
  | invalid (call : Call) : Excused s call .invalidCall
  | calloc {nobj size : Nat} {r : Region} (hpos : 0 < nobj * size % 2 ^ 32)
      (h : NoMemory s.arena (nobj * size % 2 ^ 32) r) : Excused s (.calloc nobj size r) .pageFault
  | long {nobj size : Nat} {r : Region} (h : 2 ^ 31 ≤ nobj * size % 2 ^ 32) :
      Excused s (.calloc nobj size r) .overflow
  | realloc {p size : Nat} {r : Region} (hpos : 0 < size) (h : NoMemory s.arena size r) :
      Excused s (.realloc p size r) .pageFault

/-- The invariant of a run. -/
structure Faithful (s : State) (w : Contents) (L : Layout) : Prop where
  valid : Valid s.arena L
  live : ∀ p n, s.live p = some n ↔
    ∃ x, p = x + TAG_SIZE ∧ Used L x ∧ (view s.arena).size x = n
  holding : ∀ p i b, w p i = some b → ∃ x, p = x + TAG_SIZE ∧ Used L x ∧
    i < (view s.arena).size x ∧ s.arena.memory (x + TAG_SIZE + i) = b

section

variable {s s' : Arena} {L L' : Layout} {x y z n a i size : Nat} {r : Region} {c : BitVec 8}

/-- The program writes to a block of it. -/
theorem valid_overwrite (h : Valid s L) (hx : Used L x) {m : Memory}
    (hm : ∀ a, a < x + TAG_SIZE ∨ x + TAG_SIZE + (view s).size x ≤ a → m a = s.memory a) :
    Valid { s with memory := m } L ∧
      (∀ z, Tag L z → (view { s with memory := m }).size z = (view s).size z) ∧
      ∀ z, Used L z → z ≠ x → Kept s { s with memory := m } z := by
  have hroom := h.tidy.room x hx
  have hsize : boundaryTag.size = TAG_SIZE := rfl
  have hfield : ∀ z, Tag L z → ∀ f, (view { s with memory := m }).field z f = (view s).field z f := by
    intro z hz f
    rw [view_field, view_field]
    refine get_congr fun a hle hlt => hm a ?_
    have hge := h.tidy.sound.realSize_ge hz
    rcases eq_or_ne z x with rfl | hzx
    · omega
    · rcases h.tidy.sound.disjoint_tags hz hx.1 hzx with hd | hd <;> omega
  refine ⟨⟨h.tidy.congr hfield rfl rfl, h.owns, h.ready, h.unlocked⟩,
    fun z hz => hfield z hz .size, fun z hz hzx => ⟨hfield z hz.1 .size, fun i hi => hm _ ?_⟩⟩
  have hroomz := h.tidy.room z hz
  rcases h.tidy.sound.disjoint_tags hz.1 hx.1 hzx with hd | hd <;> omega

theorem block_mapped (h : Valid s L) (hx : Used L x) (hle : x + TAG_SIZE ≤ a) (hn : 0 < n)
    (hlt : a + n ≤ x + TAG_SIZE + (view s).size x) : s.mapped a n = true := by
  have hroom := h.tidy.room x hx
  exact mapped_of_tag h.tidy.sound h.owns hx.1 (by omega) hn (by omega)

/-- The null pointer cannot be accessed. -/
theorem null_not_mapped (h : Valid s L) (hn : 0 < n) (hle : n ≤ PAGE_SIZE) :
    s.mapped 0 n = false := by
  have hnull : s.owned 0 = false := by
    rw [← Bool.not_eq_true, h.owns 0]
    rintro ⟨b, hb, hle, -⟩
    have hpos := (h.tidy.sound.area b hb).pos
    omega
  have hpage : (0 + (n - 1)) / PAGE_SIZE = 0 := Nat.div_eq_of_lt (by omega)
  rw [Arena.mapped, hpage, Nat.zero_div, hnull]
  rfl

theorem memsetLoop_eq (hmapped : ∀ j, i ≤ j → j < i + n → s.mapped (a + j) 1 = true)
    (hlt : i + n < 2 ^ 31) :
    memsetLoop s a c n i = .ok { s with memory := fill s.memory (a + i) n c } := by
  induction n generalizing s i with
  | zero =>
      have hfill : fill s.memory (a + i) 0 c = s.memory := by
        funext y
        exact fill_frame (by omega)
      rw [memsetLoop, hfill]
  | succ n ih =>
      rw [memsetLoop, storeByte, if_pos (hmapped i (Nat.le_refl i) (by omega)), ok_bind,
        if_pos (by omega), ih _ (by omega)]
      · have hfill : fill (Function.update s.memory (a + i) c) (a + (i + 1)) n c =
            fill s.memory (a + i) (n + 1) c := by
          funext y
          rcases Nat.lt_trichotomy y (a + i) with hy | rfl | hy
          · rw [fill_frame (by omega), fill_frame (by omega), Function.update_of_ne (by omega)]
          · rw [fill_frame (by omega), Function.update_self]
            exact (fill_apply (i := 0) (by omega)).symm
          · by_cases hin : y < a + i + (n + 1)
            · rw [fill, if_pos (by omega), fill, if_pos (by omega)]
            · rw [fill_frame (by omega), fill_frame (by omega), Function.update_of_ne (by omega)]
        rw [hfill]
      · exact fun j hj hlt => hmapped j (by omega) (by omega)

/-- The index gets too large. -/
theorem memsetLoop_long (hmapped : ∀ j, i ≤ j → j < i + n → s.mapped (a + j) 1 = true)
    (hlt : i < 2 ^ 31) (hle : 2 ^ 31 ≤ i + n) :
    memsetLoop s a c n i = .error .overflow := by
  induction n generalizing s i with
  | zero => omega
  | succ n ih =>
      rw [memsetLoop, storeByte, if_pos (hmapped i (Nat.le_refl i) (by omega)), ok_bind]
      split_ifs with hnext
      · exact ih (fun j hj hlt => hmapped j (by omega) (by omega)) hnext (by omega)
      · rfl

theorem memsetLoop_null (h : Valid s L) (hn : 0 < n) :
    memsetLoop s 0 c n 0 = .error .pageFault := by
  obtain ⟨n, rfl⟩ : ∃ k, n = k + 1 := ⟨n - 1, by omega⟩
  rw [memsetLoop, storeByte, null_not_mapped h (by decide) (by decide)]
  rfl

theorem liballocMemcpy_eq {dst src : Nat}
    (hdst : ∀ j k, 0 < k → j + k ≤ n → s.mapped (dst + j) k = true)
    (hsrc : ∀ j k, 0 < k → j + k ≤ n → s.mapped (src + j) k = true)
    (hdisjoint : dst + n ≤ src ∨ src + n ≤ dst) :
    liballocMemcpy s dst src n = .ok { s with memory := copy s.memory src s.memory dst n } := by
  fun_induction liballocMemcpy s dst src n with
  | case1 s dst src n ih =>
      have hdst₀ : s.mapped dst 4 = true := hdst 0 4 (by decide) (by omega)
      have hsrc₀ : s.mapped src 4 = true := hsrc 0 4 (by decide) (by omega)
      rw [loadWord, if_pos hsrc₀, ok_bind, storeWord, if_pos hdst₀, ok_bind, putWord_word]
      refine (ih _ (fun j k hk hle => ?_) (fun j k hk hle => ?_) (by omega)).trans ?_
      · rw [Nat.add_assoc]
        exact hdst (4 + j) k hk (by omega)
      · rw [Nat.add_assoc]
        exact hsrc (4 + j) k hk (by omega)
      · have hcount : n.succ.succ.succ.succ = 4 + n := by omega
        rw [hcount, copy_add (by omega)]
  | case2 s dst src =>
      have hcopy : copy s.memory src s.memory dst 0 = s.memory := by
        funext y
        exact copy_frame (by omega)
      rw [hcopy]
  | case3 s dst src n hsmall ih =>
      have hdst₀ : s.mapped dst 1 = true := hdst 0 1 (by decide) (by omega)
      have hsrc₀ : s.mapped src 1 = true := hsrc 0 1 (by decide) (by omega)
      have hbyte : Function.update s.memory dst (s.memory src) =
          copy s.memory src s.memory dst 1 := by
        funext y
        rcases eq_or_ne y dst with rfl | hy
        · rw [Function.update_self]
          exact (copy_apply (i := 0) (by decide)).symm
        · rw [Function.update_of_ne hy, copy_frame (by omega)]
      rw [loadByte, if_pos hsrc₀, ok_bind, storeByte, if_pos hdst₀, ok_bind, hbyte]
      refine (ih _ (fun j k hk hle => ?_) (fun j k hk hle => ?_) (by omega)).trans ?_
      · rw [Nat.add_assoc]
        exact hdst (1 + j) k hk (by omega)
      · rw [Nat.add_assoc]
        exact hsrc (1 + j) k hk (by omega)
      · have hcount : n.succ = 1 + n := by omega
        rw [hcount, copy_add (by omega)]

/-- A copy to the null pointer fails at its first byte. -/
theorem liballocMemcpy_null (h : Valid s L) {src : Nat} (hn : 0 < n)
    (hsrc : ∀ k, 0 < k → k ≤ n → s.mapped src k = true) :
    liballocMemcpy s 0 src n = .error .pageFault := by
  have hnull : ∀ k, 0 < k → k ≤ 4 → s.mapped 0 k = false := fun k hk hle =>
    null_not_mapped h hk (hle.trans (by decide))
  fun_cases liballocMemcpy s 0 src n with
  | case1 n =>
      rw [loadWord, if_pos (hsrc 4 (by decide) (by omega)), ok_bind, storeWord,
        hnull 4 (by decide) (by decide)]
      rfl
  | case2 => cases hn
  | case3 n =>
      rw [loadByte, if_pos (hsrc 1 (by decide) (by omega)), ok_bind, storeByte,
        hnull 1 (by decide) (by decide)]
      rfl

end

section

variable {s : State} {a : Arena} {w : Contents} {L L' : Layout} {x y size : Nat} {r : Region}

theorem Faithful.live_self (h : Faithful s w L) (hx : Used L x) :
    s.live (x + TAG_SIZE) = some ((view s.arena).size x) :=
  (h.live _ _).mpr ⟨x, rfl, hx, rfl⟩

theorem Faithful.live_zero (h : Faithful s w L) : s.live 0 = none := by
  rcases hlive : s.live 0 with _ | n
  · rfl
  · obtain ⟨x, hx, -⟩ := (h.live 0 n).mp hlive
    rw [TAG_SIZE] at hx
    omega

/-- Nothing is known behind the null pointer. -/
theorem Faithful.contents_zero (h : Faithful s w L) : w 0 = fun _ => none := by
  funext i
  rcases hb : w 0 i with _ | b
  · rfl
  · obtain ⟨x, hx, -⟩ := h.holding 0 i b hb
    rw [TAG_SIZE] at hx
    omega

theorem Faithful.same (h : Faithful s w L) (hvalid : Valid a L) (hmemory : a.memory = s.arena.memory) :
    Faithful ⟨a, s.live⟩ w L := by
  have hview : ∀ z, (view a).size z = (view s.arena).size z := by
    intro z
    change get boundaryTag a.memory z .size = get boundaryTag s.arena.memory z .size
    rw [hmemory]
  refine ⟨hvalid, fun p n => ?_, fun p i b hb => ?_⟩
  · rw [h.live]
    simp only [hview]
  · obtain ⟨x, hp, hx, hi, hbyte⟩ := h.holding p i b hb
    refine ⟨x, hp, hx, ?_, ?_⟩
    · rwa [hview]
    · rwa [hmemory]

/-- The program gets a block. -/
theorem Faithful.allocated (h : Faithful s w L) (hvalid : Valid a L')
    (hx : Allocated s.arena L x size a L') :
    Faithful ⟨a, Function.update s.live (x + TAG_SIZE) (some size)⟩ (w.drop (x + TAG_SIZE)) L' := by
  refine ⟨hvalid, fun p n => ?_, fun p i b hb => ?_⟩
  · dsimp only
    rcases eq_or_ne p (x + TAG_SIZE) with rfl | hpx
    · rw [Function.update_self]
      constructor
      · intro hn
        exact ⟨x, rfl, (hx.used x).mpr (Or.inr rfl), hx.size.trans (Option.some.inj hn)⟩
      · rintro ⟨z, hz, -, rfl⟩
        obtain rfl : x = z := by omega
        rw [hx.size]
    · rw [Function.update_of_ne hpx, h.live]
      refine exists_congr fun z => and_congr_right fun hp => ?_
      have hzx : z ≠ x := by
        rintro rfl
        exact hpx hp
      rw [hx.used, or_iff_left hzx]
      exact and_congr_right fun hz => by rw [(hx.kept z hz).size]
  · obtain ⟨hpx, hb⟩ := drop_some hb
    obtain ⟨z, rfl, hz, hi, hbyte⟩ := h.holding p i b hb
    refine ⟨z, rfl, (hx.used z).mpr (Or.inl hz), ?_, ?_⟩
    · rwa [(hx.kept z hz).size]
    · rwa [(hx.kept z hz).bytes i hi]

/-- The program gives a block back. -/
theorem Faithful.freed (h : Faithful s w L) (hvalid : Valid a L')
    (hx : Freed s.arena L x a L') :
    Faithful ⟨a, Function.update s.live (x + TAG_SIZE) none⟩ (w.drop (x + TAG_SIZE)) L' := by
  refine ⟨hvalid, fun p n => ?_, fun p i b hb => ?_⟩
  · dsimp only
    rcases eq_or_ne p (x + TAG_SIZE) with rfl | hpx
    · rw [Function.update_self]
      constructor
      · intro hn
        cases hn
      · rintro ⟨z, hz, hused, -⟩
        obtain rfl : x = z := by omega
        exact absurd rfl ((hx.used x).mp hused).2
    · rw [Function.update_of_ne hpx, h.live]
      refine exists_congr fun z => and_congr_right fun hp => ?_
      have hzx : z ≠ x := by
        rintro rfl
        exact hpx hp
      rw [hx.used, and_iff_left hzx]
      exact and_congr_right fun hz => by rw [(hx.kept z hz hzx).size]
  · obtain ⟨hpx, hb⟩ := drop_some hb
    obtain ⟨z, rfl, hz, hi, hbyte⟩ := h.holding p i b hb
    have hzx : z ≠ x := by
      rintro rfl
      exact hpx rfl
    refine ⟨z, rfl, (hx.used z).mpr ⟨hz, hzx⟩, ?_, ?_⟩
    · rwa [(hx.kept z hz hzx).size]
    · rwa [(hx.kept z hz hzx).bytes i hi]

/-- A block is written to, and `f` is in it now. -/
theorem Faithful.overwrite (h : Faithful s w L) (hx : Used L x) {m : Memory}
    (hm : ∀ y, y < x + TAG_SIZE ∨ x + TAG_SIZE + (view s.arena).size x ≤ y →
      m y = s.arena.memory y)
    {f : Nat → Option (BitVec 8)}
    (hf : ∀ i b, f i = some b → i < (view s.arena).size x ∧ m (x + TAG_SIZE + i) = b) :
    Faithful ⟨{ s.arena with memory := m }, s.live⟩ (Function.update w (x + TAG_SIZE) f) L := by
  obtain ⟨hvalid, hsize, hkept⟩ := valid_overwrite h.valid hx hm
  refine ⟨hvalid, fun p n => ?_, fun p i b hb => ?_⟩
  · rw [h.live]
    refine exists_congr fun z => and_congr_right fun _ => and_congr_right fun hz => ?_
    rw [hsize z hz.1]
  · rcases eq_or_ne p (x + TAG_SIZE) with rfl | hpx
    · rw [Function.update_self] at hb
      obtain ⟨hi, hbyte⟩ := hf i b hb
      refine ⟨x, rfl, hx, ?_, hbyte⟩
      rwa [hsize x hx.1]
    · rw [Function.update_of_ne hpx] at hb
      obtain ⟨z, rfl, hz, hi, hbyte⟩ := h.holding p i b hb
      have hzx : z ≠ x := by
        rintro rfl
        exact hpx rfl
      refine ⟨z, rfl, hz, ?_, ?_⟩
      · rwa [hsize z hz.1]
      · exact ((hkept z hz hzx).bytes i hi).trans hbyte

/-- The call keeps the invariant, or it fails for an excused reason. -/
def Safe (s : State) (w : Contents) (call : Call) : Prop :=
  (∃ e, recordedStep (s, w) call = .error e ∧ Excused s call e) ∨
    ∃ r p, recordedStep (s, w) call = .ok (r, p) ∧ ∃ L, Faithful r.1 r.2 L

theorem safe_of_error {call : Call} {e : Stop} (h : step s call = .error e)
    (he : Excused s call e) : Safe s w call := by
  refine Or.inl ⟨e, ?_, he⟩
  rw [recordedStep, h]
  rfl

theorem safe_of_ok {call : Call} (s' : State) (p : Nat) (h : step s call = .ok (s', p))
    (hs : Faithful s' (record w p call) L) : Safe s w call := by
  refine Or.inr ⟨(s', record w p call), p, ?_, L, hs⟩
  rw [recordedStep, h]
  rfl

theorem hold_block (live : Nat → Option Nat) (x size : Nat) :
    hold live (x + TAG_SIZE) size = Function.update live (x + TAG_SIZE) (some size) := by
  rw [hold, if_neg (by rw [TAG_SIZE]; omega)]

theorem Faithful.drop_zero (h : Faithful s w L) : w.drop 0 = w := by
  rw [Contents.drop, ← h.contents_zero]
  exact Function.update_eq_self 0 w

/-- No byte is known of a block without bytes. -/
theorem update_zero (h : Faithful s w L) {f : Nat → Option (BitVec 8)} (hf : ∀ i, f i = none) :
    Function.update w 0 f = w := by
  have hf : f = w 0 := by
    rw [h.contents_zero]
    exact funext hf
  rw [hf]
  exact Function.update_eq_self 0 w

theorem step_malloc (h : Faithful s w L) (size : Nat) (r : Region) :
    Safe s w (.malloc size r) := by
  by_cases hsize : size ≤ MAX_SIZE
  · rcases liballocMallocR_eq (r := r) h.valid hsize with
      ⟨a, hcall, -, hvalid, hmemory⟩ | ⟨x, a, L', hcall, -, hvalid, hx⟩
    · refine safe_of_ok (L := L) ⟨a, s.live⟩ 0 ?_ ?_
      · rw [step, if_pos hsize, hcall]
        rfl
      · rw [record, h.drop_zero]
        exact h.same hvalid hmemory
    · refine safe_of_ok _ _ ?_ (h.allocated hvalid hx)
      rw [step, if_pos hsize, hcall, ← hold_block]
      rfl
  · refine safe_of_error ?_ (.invalid _)
    rw [step, if_neg hsize]

theorem byte_mapped (h : Valid a L) (hx : Used L x) {j : Nat} (hj : j < (view a).size x) :
    a.mapped (x + TAG_SIZE + j) 1 = true :=
  block_mapped h hx (by omega) (by decide) (by omega)

theorem step_calloc (h : Faithful s w L) (nobj size : Nat) (r : Region) :
    Safe s w (.calloc nobj size r) := by
  obtain ⟨n, hn⟩ : ∃ n, n = nobj * size % 2 ^ 32 := ⟨_, rfl⟩
  by_cases hsize : n ≤ MAX_SIZE
  · have hstep : step s (.calloc nobj size r) =
        (liballocCallocR s.arena nobj size r >>= fun q => .ok (⟨q.2, hold s.live q.1 n⟩, q.1)) := by
      rw [step, ← hn, if_pos hsize]
      rfl
    rcases liballocMallocR_eq (r := r) h.valid hsize with
      ⟨a, hcall, -, hvalid, hmemory⟩ | ⟨x, a, L', hcall, -, hvalid, hx⟩
    · have hcalloc : liballocCallocR s.arena nobj size r =
          (memsetLoop a 0 0 n 0 >>= fun a' => .ok (0, a')) := by
        rw [liballocCallocR, ← hn, hcall, ok_bind]
        rfl
      rcases Nat.eq_zero_or_pos n with rfl | hpos
      · refine safe_of_ok (L := L) ⟨a, s.live⟩ 0 ?_ ?_
        · rw [hstep, hcalloc]
          rfl
        · rw [record, update_zero h fun i => by rw [← hn, if_neg (Nat.not_lt_zero i)]]
          exact h.same hvalid hmemory
      · refine safe_of_error ?_ (.calloc (by rwa [← hn]) (by rw [← hn]; exact ⟨a, hcall⟩))
        rw [hstep, hcalloc, memsetLoop_null hvalid hpos]
        rfl
    · have hcalloc : liballocCallocR s.arena nobj size r =
          (memsetLoop a (x + TAG_SIZE) 0 n 0 >>= fun a' => .ok (x + TAG_SIZE, a')) := by
        rw [liballocCallocR, ← hn, hcall, ok_bind]
        rfl
      have hused := (hx.used x).mpr (Or.inr rfl)
      have hmapped : ∀ j, 0 ≤ j → j < 0 + n → a.mapped (x + TAG_SIZE + j) 1 = true :=
        fun j _ hj => byte_mapped hvalid hused (by rw [hx.size]; omega)
      by_cases hlong : n < 2 ^ 31
      · have hfaithful := (h.allocated hvalid hx).overwrite hused
          (m := fill a.memory (x + TAG_SIZE) n 0)
          (f := fun i => if i < nobj * size % 2 ^ 32 then some 0 else none)
          (fun y hy => fill_frame (by rwa [hx.size] at hy)) fun i b hb => by
            rw [← hn] at hb
            split_ifs at hb with hi
            cases hb
            exact ⟨by rwa [hx.size], fill_apply hi⟩
        rw [Contents.drop, Function.update_idem] at hfaithful
        refine safe_of_ok ⟨{ a with memory := fill a.memory (x + TAG_SIZE) n 0 }, _⟩ _ ?_ hfaithful
        rw [hstep, hcalloc, memsetLoop_eq hmapped (by omega), ok_bind, ok_bind, hold_block]
        rfl
      · refine safe_of_error ?_ (.long (by rw [← hn]; omega))
        rw [hstep, hcalloc, memsetLoop_long hmapped (by decide) (by omega)]
        rfl
  · refine safe_of_error ?_ (.invalid _)
    rw [step, ← hn, if_neg hsize]

/-- The program gives back a block, or nothing. -/
theorem free_eq (h : Faithful s w L) {p : Nat} (hp : p = 0 ∨ (s.live p).isSome = true) :
    ∃ a L', liballocFreeR s.arena p = .ok a ∧
      Faithful ⟨a, Function.update s.live p none⟩ (w.drop p) L' := by
  rcases hp with rfl | hp
  · refine ⟨s.arena, L, rfl, ?_⟩
    have hsame : Function.update s.live 0 none = s.live := by
      rw [← h.live_zero]
      exact Function.update_eq_self 0 s.live
    rw [hsame, h.drop_zero]
    exact h
  · obtain ⟨n, hn⟩ := Option.isSome_iff_exists.mp hp
    obtain ⟨x, rfl, hx, -⟩ := (h.live p n).mp hn
    obtain ⟨a, L', hcall, hvalid, hfreed⟩ := liballocFreeR_eq h.valid hx
    exact ⟨a, L', hcall, h.freed hvalid hfreed⟩

theorem step_free (h : Faithful s w L) (p : Nat) : Safe s w (.free p) := by
  by_cases hp : p = 0 ∨ (s.live p).isSome = true
  · obtain ⟨a, L', hcall, hfaithful⟩ := free_eq h hp
    refine safe_of_ok _ 0 ?_ hfaithful
    rw [step, if_pos hp, hcall]
    rfl
  · refine safe_of_error ?_ (.invalid _)
    rw [step, if_neg hp]

theorem step_write (h : Faithful s w L) (p offset : Nat) (bytes : List (BitVec 8)) :
    Safe s w (.write p offset bytes) := by
  rcases hlive : s.live p with _ | n
  · refine safe_of_error ?_ (.invalid _)
    rw [step, hlive]
  · by_cases hfits : offset + bytes.length ≤ n
    · obtain ⟨x, rfl, hx, rfl⟩ := (h.live p n).mp hlive
      refine safe_of_ok _ 0 ?_ (h.overwrite hx
        (m := putBytes s.arena.memory (x + TAG_SIZE + offset) bytes)
        (f := fun i => if offset ≤ i ∧ i < offset + bytes.length then bytes[i - offset]?
          else w (x + TAG_SIZE) i)
        (fun y hy => putBytes_frame (by omega)) fun i b hb => ?_)
      · rw [step, hlive]
        dsimp only
        rw [if_pos hfits]
      · split_ifs at hb with hin
        · refine ⟨by omega, ?_⟩
          have hindex : x + TAG_SIZE + i - (x + TAG_SIZE + offset) = i - offset := by omega
          rw [putBytes, if_pos (by omega), hindex, List.getD_eq_getElem?_getD, hb]
          rfl
        · obtain ⟨y, hy, -, hi, rfl⟩ := h.holding _ i b hb
          obtain rfl : x = y := by omega
          exact ⟨hi, putBytes_frame (by omega)⟩
    · refine safe_of_error ?_ (.invalid _)
      rw [step, hlive]
      dsimp only
      rw [if_neg hfits]

theorem blockSize_eq (h : Valid a L) (hx : Used L x) :
    blockSize a (x + TAG_SIZE) = .ok ((view a).size x, a) := by
  have hlock : liballocLock a = .ok { a with locked := true } := by
    rw [liballocLock, h.unlocked]
    rfl
  have hunlock : liballocUnlock { a with locked := true } = a := by
    rcases a with ⟨_, _, _, _, _, locked⟩
    obtain rfl : locked = false := h.unlocked
    rfl
  have htidy : Tidy (view { a with locked := true }) L := h.tidy
  have howns : Owns { a with locked := true } L := h.owns.congr rfl (fun _ => Iff.rfl) rfl
  have hscope := scope_of_sound htidy.sound howns
  rw [blockSize, hlock, ok_bind, sub32_tag (hscope.lt x hx.1), load_eq (Shows.refl _ _) hscope hx.1,
    ok_bind, hunlock]
  rfl

/-- Without a block it is an allocation. -/
theorem step_realloc_null (h : Faithful s w L) (hpos : 0 < size) (r : Region) :
    Safe s w (.realloc 0 size r) := by
  have hlive : Function.update s.live 0 none = s.live := by
    rw [← h.live_zero]
    exact Function.update_eq_self 0 s.live
  have hrecord : ∀ q, record w q (.realloc 0 size r) = record w q (.malloc size r) := by
    intro q
    simp only [record, h.drop_zero, h.contents_zero, ite_self]
    rfl
  have hstep : step s (.realloc 0 size r) = step s (.malloc size r) := by
    rw [step, step]
    by_cases hsize : size ≤ MAX_SIZE
    · rw [if_pos hsize, if_pos ⟨Or.inl rfl, hsize⟩, liballocReallocR, if_neg (by omega),
        if_pos rfl, hlive]
    · rw [if_neg hsize, if_neg fun hcall => hsize hcall.2]
  have heq : recordedStep (s, w) (.realloc 0 size r) = recordedStep (s, w) (.malloc size r) := by
    simp only [recordedStep, hstep, hrecord]
  rw [Safe, heq]
  rcases step_malloc h size r with ⟨e, he, hexcused⟩ | hok
  · refine Or.inl ⟨e, he, ?_⟩
    cases hexcused
    exact .invalid _
  · exact Or.inr hok

theorem min_eq (n size : Nat) : (if size < n then size else n) = min n size := by
  split_ifs <;> omega

/-- A block moves to a larger or a smaller one. -/
theorem step_realloc_block (h : Faithful s w L) (hx : Used L x) (hpos : 0 < size)
    (hsize : size ≤ MAX_SIZE) (r : Region) : Safe s w (.realloc (x + TAG_SIZE) size r) := by
  obtain ⟨n, hn⟩ : ∃ n, n = (view s.arena).size x := ⟨_, rfl⟩
  have hstep : step s (.realloc (x + TAG_SIZE) size r) =
      (liballocMallocR s.arena size r >>= fun q =>
        liballocMemcpy q.2 q.1 (x + TAG_SIZE) (min n size) >>= fun a =>
          liballocFreeR a (x + TAG_SIZE) >>= fun a =>
            .ok (⟨a, hold (Function.update s.live (x + TAG_SIZE) none) q.1 size⟩, q.1)) := by
    rw [step, if_pos ⟨Or.inr (by rw [h.live_self hx]; rfl), hsize⟩, liballocReallocR,
      if_neg (by omega), if_neg (by rw [TAG_SIZE]; omega), blockSize_eq h.valid hx, ok_bind]
    dsimp only
    rw [min_eq, ← hn]
    rcases liballocMallocR s.arena size r with e | ⟨q, a⟩
    · rfl
    · simp only [ok_bind]
      rcases liballocMemcpy a q (x + TAG_SIZE) (min n size) with e | a
      · rfl
      · simp only [ok_bind]
        rcases liballocFreeR a (x + TAG_SIZE) with e | a <;> rfl
  rcases liballocMallocR_eq (r := r) h.valid hsize with
    ⟨a, hcall, -, hvalid, hmemory⟩ | ⟨y, a, L', hcall, -, hvalid, hy⟩
  · have hnull := h.same hvalid hmemory
    have hsame : (view a).size x = n := by
      rw [hn]
      exact (Option.some.inj ((hnull.live_self hx).symm.trans (h.live_self hx)))
    rw [hcall, ok_bind] at hstep
    dsimp only at hstep
    rcases Nat.eq_zero_or_pos n with rfl | hn0
    · -- There is nothing to copy.
      obtain ⟨a', L', hfree, hvalid', hfreed⟩ := liballocFreeR_eq hvalid hx
      have hfaithful := hnull.freed hvalid' hfreed
      refine safe_of_ok (L := L') ⟨a', Function.update s.live (x + TAG_SIZE) none⟩ 0 ?_ ?_
      · rw [hstep, Nat.zero_min, liballocMemcpy, ok_bind, hfree]
        rfl
      · have hnone : ∀ i, (if i < size then w (x + TAG_SIZE) i else none) = none := by
          intro i
          rcases hb : w (x + TAG_SIZE) i with _ | b
          · exact ite_self _
          · obtain ⟨z, hz, -, hi, -⟩ := h.holding _ i b hb
            obtain rfl : x = z := by omega
            omega
        rw [record, update_zero hfaithful hnone]
        exact hfaithful
    · refine safe_of_error ?_ (.realloc hpos ⟨a, hcall⟩)
      rw [hstep, liballocMemcpy_null hvalid (by omega) fun k hk hle =>
        block_mapped hvalid hx (Nat.le_refl _) hk (by rw [hsame]; omega)]
      rfl
  · have hxy : x ≠ y := by
      rintro rfl
      exact hy.fresh hx
    have hx' := (hy.used x).mpr (Or.inl hx)
    have hy' := (hy.used y).mpr (Or.inr rfl)
    have hkept := hy.kept x hx
    have hxsize : (view a).size x = n := by rw [hkept.size, hn]
    have hroomx := hvalid.tidy.room x hx'
    have hroomy := hvalid.tidy.room y hy'
    rw [hxsize] at hroomx
    rw [hy.size] at hroomy
    have hcopy : liballocMemcpy a (y + TAG_SIZE) (x + TAG_SIZE) (min n size) = _ :=
      liballocMemcpy_eq
        (fun j k hk hle => block_mapped hvalid hy' (by omega) hk (by rw [hy.size]; omega))
        (fun j k hk hle => block_mapped hvalid hx' (by omega) hk (by rw [hxsize]; omega))
        (by rcases hvalid.tidy.sound.disjoint_tags hx'.1 hy'.1 hxy with hd | hd <;> omega)
    have hfaithful := (h.allocated hvalid hy).overwrite hy'
      (m := copy a.memory (x + TAG_SIZE) a.memory (y + TAG_SIZE) (min n size))
      (f := fun i => if i < size then w (x + TAG_SIZE) i else none)
      (fun z hz => copy_frame (by rw [hy.size] at hz; omega)) fun i b hb => by
        split_ifs at hb with hi
        obtain ⟨z, hz, -, hlt, rfl⟩ := h.holding _ i b hb
        obtain rfl : x = z := by omega
        refine ⟨by rwa [hy.size], ?_⟩
        rw [copy_apply (by omega)]
        exact hkept.bytes i hlt
    obtain ⟨a', L'', hfree, hvalid', hfreed⟩ := liballocFreeR_eq hfaithful.valid hx'
    have hfaithful' := hfaithful.freed hvalid' hfreed
    have hne : x + TAG_SIZE ≠ y + TAG_SIZE := by omega
    rw [Contents.drop, Contents.drop, Function.update_idem, Function.update_comm hne.symm,
      Function.update_comm hne.symm] at hfaithful'
    refine safe_of_ok _ _ ?_ hfaithful'
    rw [hstep, hcall, ok_bind, hcopy, ok_bind, hfree, ok_bind, hold_block]

theorem step_realloc (h : Faithful s w L) (p size : Nat) (r : Region) :
    Safe s w (.realloc p size r) := by
  by_cases hcall : (p = 0 ∨ (s.live p).isSome) ∧ size ≤ MAX_SIZE
  · rcases Nat.eq_zero_or_pos size with rfl | hpos
    · -- The block is given back.
      obtain ⟨a, L', hfree, hfaithful⟩ := free_eq h hcall.1
      refine safe_of_ok (L := L') ⟨a, Function.update s.live p none⟩ 0 ?_ ?_
      · rw [step, if_pos hcall, liballocReallocR, if_pos rfl, hfree]
        rfl
      · rw [record, update_zero hfaithful fun i => if_neg (Nat.not_lt_zero i)]
        exact hfaithful
    · rcases eq_or_ne p 0 with rfl | hp
      · exact step_realloc_null h hpos r
      · obtain ⟨n, hn⟩ := Option.isSome_iff_exists.mp (hcall.1.resolve_left hp)
        obtain ⟨x, rfl, hx, -⟩ := (h.live p n).mp hn
        exact step_realloc_block h hx hpos hcall.2 r
  · refine safe_of_error ?_ (.invalid _)
    rw [step, if_neg hcall]

theorem step_safe (h : Faithful s w L) (call : Call) : Safe s w call := by
  cases call with
  | malloc size r => exact step_malloc h size r
  | calloc nobj size r => exact step_calloc h nobj size r
  | realloc p size r => exact step_realloc h p size r
  | free p => exact step_free h p
  | write p offset bytes => exact step_write h p offset bytes

end

/-- The layout of a process which has no pages. -/
def Layout.empty : Layout where
  tiles _ := []
  pages _ := 0
  lists _ := []

theorem tidy_empty (memory : Memory) : Tidy (view (State.init memory).arena) Layout.empty := by
  have htag : ∀ x, ¬Tag Layout.empty x := by
    rintro x ⟨b, hb⟩
    cases hb
  have hsound : Sound (view (State.init memory).arena) Layout.empty :=
    { area := fun b hb => absurd rfl hb
      disjoint := fun b c hb => absurd rfl hb
      magic := fun x hx => absurd hx (htag x)
      list := fun i => ⟨trivial, List.nodup_singleton 0⟩
      head := fun i => rfl
      listed := fun i x hx => by cases hx
      loose := fun x hx => absurd hx (htag x) }
  exact ⟨hsound, fun b => List.isChain_nil, fun i => rfl, fun i => (by decide : (0 : Int) ≤ 5),
    fun z hz => absurd hz.1 (htag z)⟩

theorem faithful_init (memory : Memory) :
    Faithful (State.init memory) (fun _ _ => none) Layout.empty := by
  have howns : Owns (State.init memory).arena Layout.empty := by
    intro pg
    constructor
    · intro h
      cases h
    · rintro ⟨b, hb, -⟩
      exact absurd rfl hb
  refine ⟨⟨tidy_empty memory, howns, Or.inr fun b => rfl, rfl⟩, fun p n => ?_, nofun⟩
  constructor
  · intro h
    cases h
  · rintro ⟨x, -, ⟨⟨b, hb⟩, -⟩, -⟩
    cases hb

end Ibnos.LiballocRuns
