import Ibnos.TagOperations
import Mathlib.Data.List.Find
import Mathlib.Data.List.Perm.Subperm

/-!
What the calls of the allocator do to a memory in which the tags are as they should be.
-/

namespace Ibnos.LiballocCalls

open Ibnos.BoundaryTags
open Ibnos.ByteMemories
open Ibnos.Chains
open Ibnos.Liballoc
open Ibnos.LinkedLists
open Ibnos.Runs
open Ibnos.TagLayout
open Ibnos.TagOperations
open Ibnos.WordRecords

/-- The pages which came from the kernel are those of the regions. -/
def Owns (s : Arena) (L : Layout) : Prop :=
  ∀ pg, s.owned pg = true ↔
    ∃ b, L.tiles b ≠ [] ∧ b ≤ pg * PAGE_SIZE ∧ pg * PAGE_SIZE < L.stop b

/-- The block behind the tag at `z` is as before. -/
structure Kept (s s' : Arena) (z : Nat) : Prop where
  size : (view s').size z = (view s).size z
  bytes : ∀ i, i < (view s).size z → s'.memory (z + TAG_SIZE + i) = s.memory (z + TAG_SIZE + i)

theorem Kept.refl (s : Arena) (z : Nat) : Kept s s z := ⟨rfl, fun _ _ => rfl⟩

theorem Kept.trans {s s' s'' : Arena} {z : Nat} (h : Kept s s' z) (h' : Kept s' s'' z) :
    Kept s s'' z where
  size := h'.size.trans h.size
  bytes i hi := (h'.bytes i (by rwa [h.size])).trans (h.bytes i hi)

section

variable {T : Set Nat} {s s' s₀ : Arena} {v v' : View} {L L' : Layout} {b i x y z size : Nat}
  {xs ys : List Nat} {r : Region}

theorem Owns.congr (h : Owns s L) (howned : s'.owned = s.owned)
    (htiles : ∀ b, L'.tiles b = [] ↔ L.tiles b = []) (hpages : L'.pages = L.pages) :
    Owns s' L' := by
  intro pg
  rw [howned, h pg]
  refine exists_congr fun b => ?_
  rw [Layout.stop, Layout.stop, hpages, Ne, Ne, htiles]

theorem owned_address (hsound : Sound v L) (ho : Owns s L) {a : Nat} (hb : L.tiles b ≠ [])
    (hle : b ≤ a) (hlt : a < L.stop b) : s.owned (a / PAGE_SIZE) = true := by
  have haligned := (hsound.area b hb).aligned
  refine (ho _).mpr ⟨b, hb, ?_, ?_⟩
  · simp only [PAGE_SIZE] at *
    omega
  · simp only [PAGE_SIZE] at *
    omega

/-- All bytes of a tag and of the block behind it can be accessed. -/
theorem mapped_of_tag (hsound : Sound v L) (ho : Owns s L) (hx : Tag L x) {a n : Nat}
    (hle : x ≤ a) (hn : 0 < n) (hlt : a + n ≤ x + v.realSize x) : s.mapped a n = true := by
  obtain ⟨b, hb⟩ := hx
  have hmem := (hsound.tag_area hb).mem hb
  have hne := List.ne_nil_of_mem hb
  rw [Arena.mapped, owned_address hsound ho hne (by omega) (by omega),
    owned_address hsound ho hne (by omega) (by omega)]
  rfl

/-- Wherever there is a tag, it can be accessed, and it does not overlap with other ones. -/
theorem scope_of_sound (hsound : Sound v L) (ho : Owns s L) : Scope {x | Tag L x} s where
  apart x hx y hy := by
    rcases eq_or_ne x y with hxy | hxy
    · exact Or.inl hxy
    · have hx' := hsound.realSize_ge hx
      have hy' := hsound.realSize_ge hy
      have hsize : boundaryTag.size = TAG_SIZE := rfl
      rcases hsound.disjoint_tags hx hy hxy with h | h
      · exact Or.inr (Or.inl (by omega))
      · exact Or.inr (Or.inr (by omega))
  lt x hx := by
    have hbounds := (hsound.bounds hx).2
    have hge := hsound.realSize_ge hx
    have hTAG : TAG_SIZE = 32 := rfl
    omega
  mapped x hx f := by
    have hge := hsound.realSize_ge hx
    have hfits : f.offset + 4 ≤ TAG_SIZE := boundaryTag.fits f
    exact mapped_of_tag hsound ho hx (by omega) (by omega) (by omega)

/-- What the memory shows is what `v` says. -/
theorem shows_field (h : Shows T s₀ s v) (hx : x ∈ T) (f : Field) :
    (view s).field x f = v.field x f := (BoundaryTags.view_field s x f).trans (h.field x hx f)

theorem shows_held (h : Shows T s₀ s v) (hsub : ∀ z, Tag L z → z ∈ T)
    (hheld : Held v L b xs x ys) : Held (view s) L b xs x ys :=
  hheld.congr (fun z hz f => shows_field h (hsub z hz) f) h.freePages h.completePages

theorem shows_tidy (h : Shows T s₀ s v) (hsub : ∀ z, Tag L z → z ∈ T) (htidy : Tidy v L) :
    Tidy (view s) L :=
  htidy.congr (fun z hz f => shows_field h (hsub z hz) f) h.freePages h.completePages

/-- Tags are written, but no blocks. -/
theorem shows_kept (h : Shows {x | Tag L x} s s' v) (hsound : Sound v' L) (hz : Tag L z)
    (hsize : v.size z = (view s).size z) (hroom : TAG_SIZE + (view s).size z ≤ v'.realSize z) :
    Kept s s' z where
  size := (shows_field h hz .size).trans hsize
  bytes i hi := by
    refine h.frame _ fun x hx => ?_
    rcases eq_or_ne x z with rfl | hxz
    · exact Or.inr (by omega)
    · have hge := hsound.realSize_ge hx
      rcases hsound.disjoint_tags hx hz hxz with hle | hle <;> omega

/-! The search. -/

/-- There is no room for more tags. -/
theorem length_le_max (hsound : Sound v L) (hxs : ∀ x ∈ xs, Tag L x) (hnodup : xs.Nodup) :
    xs.length ≤ MAX_TAGS := by
  have hTAG : TAG_SIZE = 32 := rfl
  have hdivided : (xs.map (· / 32)).Nodup := by
    refine List.Nodup.map_on (fun x hx y hy hxy => ?_) hnodup
    by_contra hne
    have hx' := hsound.realSize_ge (hxs x hx)
    have hy' := hsound.realSize_ge (hxs y hy)
    rcases hsound.disjoint_tags (hxs x hx) (hxs y hy) hne with h | h <;> omega
  have hsub : xs.map (· / 32) ⊆ List.range MAX_TAGS := by
    intro k hk
    obtain ⟨x, hx, rfl⟩ := List.mem_map.mp hk
    have hge := hsound.realSize_ge (hxs x hx)
    have hle := (hsound.bounds (hxs x hx)).2
    simp only [List.mem_range, MAX_TAGS]
    omega
  have hlength := (List.subperm_of_subset hdivided hsub).length_le
  rwa [List.length_map, List.length_range] at hlength

theorem findTag_eq (h : Shows T s₀ s v) (hT : Scope T s₀) {p fuel : Nat}
    (hchain : Segment v.free p xs 0) (hxs : ∀ x ∈ xs, x ∈ T ∧ x ≠ 0) (hfuel : xs.length < fuel) :
    findTag s size fuel (xs.headD 0) =
      .ok ((xs.find? fun x => enough (v.realSize x) size).getD 0) := by
  induction xs generalizing p fuel with
  | nil =>
      obtain ⟨fuel, rfl⟩ : ∃ k, fuel = k + 1 := ⟨fuel - 1, by simp at hfuel; omega⟩
      rfl
  | cons x xs ih =>
      obtain ⟨fuel, rfl⟩ : ∃ k, fuel = k + 1 := ⟨fuel - 1, by omega⟩
      obtain ⟨hx, hne⟩ := hxs x List.mem_cons_self
      obtain ⟨-, hnext, hrest⟩ := hchain
      rw [List.headD_cons, findTag, if_neg hne, load_eq h hT hx]
      change (if enough (v.realSize x) size = true then _ else _) = _
      rw [List.find?_cons]
      cases hcond : enough (v.realSize x) size with
      | true => rfl
      | false =>
          rw [if_neg (by simp), load_eq h hT hx]
          change findTag s size fuel (v.free.next x) = _
          rw [hnext]
          exact ih hrest (fun y hy => hxs y (List.mem_cons_of_mem x hy)) (by simpa using hfuel)

/-! What `liballoc_malloc_r` does. -/

/-- A call has got the tag `x`, of which the program knows nothing yet. -/
structure Acquired (s : Arena) (L : Layout) (x size : Nat) (s' : Arena) (L' : Layout) : Prop where
  held : ∃ b xs ys, Held (view s') L' b xs x ys ∧ ∀ z ∈ ys.head?, ¬Listed L' z
  owns : Owns s' L'
  room : TAG_SIZE + size ≤ (view s').realSize x
  lt : x + TAG_SIZE < 2 ^ 32
  fresh : ¬Used L x
  used : ∀ z, Used L' z ↔ Used L z ∨ z = x
  kept : ∀ z, Used L z → Kept s s' z
  initialized : s'.initialized = s.initialized
  locked : s'.locked = s.locked

theorem pagesFor_bounds (usage : Nat) :
    PAGE_COUNT ≤ pagesFor usage ∧ usage ≤ pagesFor usage * PAGE_SIZE := by
  obtain ⟨pages, hpages⟩ : ∃ pages, pages = if usage % PAGE_SIZE ≠ 0 then usage / PAGE_SIZE + 1
      else usage / PAGE_SIZE := ⟨_, rfl⟩
  have hle : usage ≤ pages * PAGE_SIZE := by
    have hPAGE : PAGE_SIZE = 4096 := rfl
    rw [hpages]
    by_cases hrest : usage % PAGE_SIZE = 0
    · rw [if_neg (not_not.mpr hrest), hPAGE]
      rw [hPAGE] at hrest
      omega
    · rw [if_pos hrest, hPAGE]
      omega
  change PAGE_COUNT ≤ (if (if _ then _ else _) < PAGE_COUNT then _ else (if _ then _ else _)) ∧
    usage ≤ (if (if _ then _ else _) < PAGE_COUNT then _ else (if _ then _ else _)) * _
  rw [← hpages]
  split_ifs with hfew
  · refine ⟨Nat.le_refl _, hle.trans (Nat.mul_le_mul_right _ hfew.le)⟩
  · exact ⟨Nat.le_of_not_lt hfew, hle⟩

theorem liballocAlloc_eq (hr : r.Suitable s i) : liballocAlloc s i r =
    (r.page * PAGE_SIZE, { s.setOwned r.page i true with
      memory := copy r.bytes (r.page * PAGE_SIZE) s.memory (r.page * PAGE_SIZE)
        (i * PAGE_SIZE) }) := if_pos hr

/-- The pages of the kernel are in no region. -/
theorem vacant_of_suitable (hsound : Sound v L) (ho : Owns s L) (hr : r.Suitable s i)
    (hi : 0 < i) :
    Vacant L (r.page * PAGE_SIZE) (r.page * PAGE_SIZE + i * PAGE_SIZE) := by
  obtain ⟨-, -, hfree⟩ := hr
  intro c hc
  by_contra hcontra
  obtain ⟨h₁, h₂⟩ := not_or.mp hcontra
  have harea := hsound.area c hc
  have haligned := harea.aligned
  have hpages := harea.pages_ge
  -- The first page which both have.
  obtain ⟨pg, hpg⟩ : ∃ pg, pg = max r.page (c / PAGE_SIZE) := ⟨_, rfl⟩
  have hin : ∃ k, k < i ∧ pg = r.page + k := by
    refine ⟨pg - r.page, ?_, ?_⟩ <;> simp only [PAGE_SIZE, PAGE_COUNT, Layout.stop] at * <;>
      omega
  obtain ⟨k, hk, hpgk⟩ := hin
  have howned : s.owned pg = true := by
    refine (ho pg).mpr ⟨c, hc, ?_, ?_⟩ <;> simp only [PAGE_SIZE, PAGE_COUNT, Layout.stop] at * <;>
      omega
  have hnot := hfree k hk
  rw [← hpgk, howned] at hnot
  cases hnot

/-- The arena after the kernel has handed out pages. -/
def extended (s : Arena) (r : Region) (n : Nat) : Arena :=
  { s.setOwned r.page n true with
    memory := copy r.bytes (r.page * PAGE_SIZE) s.memory (r.page * PAGE_SIZE) (n * PAGE_SIZE) }

theorem extended_memory {n a : Nat}
    (ha : a < r.page * PAGE_SIZE ∨ r.page * PAGE_SIZE + n * PAGE_SIZE ≤ a) :
    (extended s r n).memory a = s.memory a := if_neg (by omega)

/-- A tag and its block are not in the new pages. -/
theorem outside_of_vacant (hsound : Sound v L) {stop : Nat} (hvacant : Vacant L b stop)
    (hz : Tag L z) : z + v.realSize z ≤ b ∨ stop ≤ z := by
  obtain ⟨c, hc⟩ := hz
  have hmem := (hsound.tag_area hc).mem hc
  rcases hvacant c (List.ne_nil_of_mem hc) with hle | hle
  · exact Or.inl (hmem.2.2.trans hle)
  · exact Or.inr (hle.trans hmem.2.1)

theorem extended_field {n : Nat} (hsound : Sound (view s) L)
    (hvacant : Vacant L (r.page * PAGE_SIZE) (r.page * PAGE_SIZE + n * PAGE_SIZE))
    (hz : Tag L z) (f : Field) :
    (view (extended s r n)).field z f = (view s).field z f := by
  have hge := hsound.realSize_ge hz
  have hsize : boundaryTag.size = TAG_SIZE := rfl
  rw [BoundaryTags.view_field, BoundaryTags.view_field]
  refine get_congr fun a hle hlt => extended_memory ?_
  rcases outside_of_vacant hsound hvacant hz with h | h <;> omega

theorem owns_extended {n : Nat} (ho : Owns s L)
    (hnil : L.tiles (r.page * PAGE_SIZE) = []) :
    Owns (extended s r n) (L.addRegion (r.page * PAGE_SIZE) n) := by
  obtain ⟨htiles, hstop⟩ := addRegion_self L (r.page * PAGE_SIZE) n
  intro pg
  change (if r.page ≤ pg ∧ pg < r.page + n then true else s.owned pg) = true ↔ _
  constructor
  · intro howned
    by_cases hin : r.page ≤ pg ∧ pg < r.page + n
    · refine ⟨r.page * PAGE_SIZE, ?_, ?_, ?_⟩
      · rw [htiles]
        simp
      · exact Nat.mul_le_mul_right _ hin.1
      · rw [hstop, ← Nat.add_mul]
        exact (Nat.mul_lt_mul_right (by decide)).mpr hin.2
    · rw [if_neg hin] at howned
      obtain ⟨b, hb, hle, hlt⟩ := (ho pg).mp howned
      have hne : b ≠ r.page * PAGE_SIZE := by
        rintro rfl
        exact hb hnil
      obtain ⟨htiles', hstop'⟩ := addRegion_of_ne hne L n
      exact ⟨b, by rwa [htiles'], hle, by rwa [hstop']⟩
  · rintro ⟨b, hb, hle, hlt⟩
    split_ifs with hin
    · rfl
    · rcases eq_or_ne b (r.page * PAGE_SIZE) with rfl | hne
      · rw [hstop, ← Nat.add_mul] at hlt
        refine absurd ⟨?_, ?_⟩ hin
        · exact (Nat.mul_le_mul_right_iff (by decide)).mp hle
        · exact (Nat.mul_lt_mul_right (by decide)).mp hlt
      · obtain ⟨htiles', hstop'⟩ := addRegion_of_ne hne L n
        rw [htiles'] at hb
        rw [hstop'] at hlt
        exact (ho pg).mpr ⟨b, hb, hle, hlt⟩

/-- The tag of the region which the kernel hands out, or the null pointer. -/
def regionTag (s : Arena) (size : Nat) (r : Region) : Nat :=
  if r.Suitable s (pagesFor (size + TAG_SIZE)) then r.page * PAGE_SIZE else 0

/-- The tag for a block: the first one of the list which is large enough, or a new one. -/
def chosenTag (s : Arena) (xs : List Nat) (size : Nat) (r : Region) : Nat :=
  (xs.find? fun x => TAG_SIZE + size + TAG_SIZE ≤ (view s).realSize x).getD (regionTag s size r)

theorem allocateNewTag_eq (h : Tidy (view s) L) (ho : Owns s L) (hsize : size ≤ MAX_SIZE) :
    (allocateNewTag s size r = .ok (0, s) ∧ regionTag s size r = 0) ∨
      ∃ x s' L', allocateNewTag s size r = .ok (x, s') ∧ x ≠ 0 ∧ regionTag s size r = x ∧
        Acquired s L x size s' L' := by
  obtain ⟨n, hn⟩ : ∃ n, n = pagesFor ((size + TAG_SIZE) % 2 ^ 32) := ⟨_, rfl⟩
  have hregion : regionTag s size r = if r.Suitable s n then r.page * PAGE_SIZE else 0 := by
    have hmod : (size + TAG_SIZE) % 2 ^ 32 = size + TAG_SIZE := by
      refine Nat.mod_eq_of_lt ?_
      simp only [MAX_SIZE, TAG_SIZE] at *
      omega
    rw [hn, hmod]
    rfl
  by_cases hr : r.Suitable s n
  · right
    rw [if_pos hr] at hregion
    obtain ⟨hcount, hroom⟩ := pagesFor_bounds ((size + TAG_SIZE) % 2 ^ 32)
    rw [← hn] at hcount hroom
    have hbytes := region_bytes hcount
    have hPAGE : PAGE_SIZE = 4096 := rfl
    have hn0 : 0 < n := Nat.lt_of_lt_of_le (by decide) hcount
    have hvacant := vacant_of_suitable h.sound ho hr hn0
    obtain ⟨hpos, hmax, -⟩ := id hr
    have hbpos : 0 < r.page * PAGE_SIZE := Nat.mul_pos hpos (by decide)
    have hble : r.page * PAGE_SIZE + n * PAGE_SIZE ≤ 2 ^ 32 := by
      rw [hPAGE]
      omega
    have hbtag := h.sound.not_tag_of_vacant hvacant (Nat.le_refl _) (by omega)
    have hnil := h.sound.tiles_of_vacant hvacant (by omega)
    obtain ⟨s₁, hs₁⟩ : ∃ s₁, s₁ = extended s r n := ⟨_, rfl⟩
    have hfield : ∀ z, Tag L z → ∀ f, (view s₁).field z f = (view s).field z f := by
      rw [hs₁]
      exact fun z hz f => extended_field h.sound hvacant hz f
    have htidy : Tidy (view s₁) L := h.congr hfield (by rw [hs₁]; rfl) (by rw [hs₁]; rfl)
    have howns : Owns s₁ (L.addRegion (r.page * PAGE_SIZE) n) := by
      rw [hs₁]
      exact owns_extended ho hnil
    have hheld : Held ((view s₁).create (r.page * PAGE_SIZE) size (n * PAGE_SIZE))
        (L.addRegion (r.page * PAGE_SIZE) n) (r.page * PAGE_SIZE) [] (r.page * PAGE_SIZE) [] :=
      htidy.create (Nat.mul_mod_left r.page PAGE_SIZE) hbpos hcount hble hvacant
    have hmod : n * PAGE_SIZE % 2 ^ 32 = n * PAGE_SIZE := Nat.mod_eq_of_lt (by omega)
    have hscope := scope_of_sound hheld.sound howns
    have hsize' : size < 2 ^ 32 := by
      simp only [MAX_SIZE, TAG_SIZE] at hsize
      omega
    have halloc : s₁ = (liballocAlloc s (pagesFor ((size + TAG_SIZE) % 2 ^ 32)) r).2 := by
      rw [hs₁, ← hn, liballocAlloc_eq hr]
      rfl
    obtain ⟨⟨x, s'⟩, hok, hx, hshows⟩ := allocateNewTag_shows (hn ▸ hr) halloc hscope hheld.tag
      hsize'
    obtain rfl : x = r.page * PAGE_SIZE := hx
    rw [← hn, hmod] at hshows
    have hheld' := shows_held hshows (fun z hz => hz) hheld
    have hused : ∀ z, Used (L.addRegion (r.page * PAGE_SIZE) n) z ↔
        Used L z ∨ z = r.page * PAGE_SIZE := by
      intro z
      rw [Used, Used, tag_addRegion hnil]
      constructor
      · rintro ⟨rfl | hz, hl⟩
        · exact Or.inr rfl
        · exact Or.inl ⟨hz, hl⟩
      · rintro (⟨hz, hl⟩ | rfl)
        · exact ⟨Or.inr hz, hl⟩
        · exact ⟨Or.inl rfl, hheld.loose⟩
    have hownsize : (view s').realSize (r.page * PAGE_SIZE) = n * PAGE_SIZE :=
      (shows_field hshows hheld.tag .realSize).trans (Function.update_self ..)
    have hlt : r.page * PAGE_SIZE + TAG_SIZE < 2 ^ 32 := by
      rw [TAG_SIZE]
      omega
    refine ⟨_, s', _, hok, by omega, hregion, ⟨⟨_, _, _, hheld', by simp⟩, ?_, ?_, hlt, fun hu => hbtag hu.1,
      hused, fun z hz => ?_, ?_, ?_⟩⟩
    · exact howns.congr hshows.owned (fun _ => Iff.rfl) rfl
    · rw [hownsize]
      simp only [MAX_SIZE, TAG_SIZE] at hsize hroom ⊢
      omega
    · have hzb : z ≠ r.page * PAGE_SIZE := by
        rintro rfl
        exact hbtag hz.1
      have hroomz := h.room z hz
      have hsizez : (view s₁).size z = (view s).size z := hfield z hz.1 .size
      have hrealz : (view s₁).realSize z = (view s).realSize z := hfield z hz.1 .realSize
      have hkept₁ : Kept s s₁ z := by
        refine ⟨hsizez, fun i hi => ?_⟩
        rw [hs₁]
        refine extended_memory ?_
        rcases outside_of_vacant h.sound hvacant hz.1 with hout | hout <;> omega
      refine hkept₁.trans (shows_kept hshows hheld.sound ((hused z).mpr (Or.inl hz)).1 ?_ ?_)
      · exact Function.update_of_ne hzb ..
      · have hreal' : ((view s₁).create (r.page * PAGE_SIZE) size (n * PAGE_SIZE)).realSize z =
            (view s₁).realSize z := Function.update_of_ne hzb ..
        rw [hreal', hsizez, hrealz]
        exact hroomz
    · rw [hshows.initialized, hs₁]
      rfl
    · rw [hshows.locked, hs₁]
      rfl
  · left
    rw [if_neg hr] at hregion
    refine ⟨?_, hregion⟩
    rw [allocateNewTag, ← hn, liballocAlloc, if_neg hr]
    rfl

theorem whole_eq (h : Shows T s₀ s v) (hT : Scope T s₀) (hx : x ∈ T) :
    whole s x = .ok (isWhole v x) := by
  rw [whole, load_eq h hT hx, load_eq h hT hx]
  change (if v.split.prev x ≠ 0 then Except.ok false
    else Except.ok (decide (v.split.next x = 0))) = _
  by_cases hleft : v.split.prev x = 0 <;> simp [isWhole, hleft]

theorem enough_iff {realSize : Nat} (hsize : size ≤ MAX_SIZE) (hge : TAG_SIZE ≤ realSize)
    (hlt : realSize < 2 ^ 32) :
    enough realSize size = true ↔ TAG_SIZE + size + TAG_SIZE ≤ realSize := by
  have hTAG : TAG_SIZE = 32 := rfl
  rw [MAX_SIZE] at hsize
  rw [enough, decide_eq_true_eq, sub32_eq hlt hge, Nat.mod_eq_of_lt (by omega)]
  omega

/-- The links of a tag in a list. -/
theorem free_pointers (h : Sound v L) (hx : x ∈ L.lists i) :
    Pointer {x | Tag L x} (v.free.next x) ∧ Pointer {x | Tag L x} (v.free.prev x) := by
  obtain ⟨hnext, hprev⟩ := (h.list i).neighbours hx
  have hpointer : ∀ y ∈ 0 :: L.lists i, Pointer {x | Tag L x} y := by
    intro y hy
    rcases List.mem_cons.mp hy with rfl | hy
    · exact Or.inl rfl
    · exact Or.inr (h.listed i y hy).1
  exact ⟨hpointer _ hnext, hpointer _ hprev⟩

theorem split_pointers (h : Sound v L) (hx : x ∈ L.tiles b) :
    Pointer {x | Tag L x} (v.split.next x) ∧ Pointer {x | Tag L x} (v.split.prev x) := by
  obtain ⟨hnext, hprev⟩ := (h.tag_area hx).chain.neighbours hx
  have hpointer : ∀ y ∈ 0 :: L.tiles b, Pointer {x | Tag L x} y := by
    intro y hy
    rcases List.mem_cons.mp hy with rfl | hy
    · exact Or.inl rfl
    · exact Or.inr ⟨b, hy⟩
  exact ⟨hpointer _ hnext, hpointer _ hprev⟩

theorem head_pointer (h : Sound v L) (i : Nat) : Pointer {x | Tag L x} (v.freePages i) := by
  rw [h.head i]
  rcases headD_mem (L.lists i) 0 with heq | hmem
  · exact Or.inl heq
  · exact Or.inr (h.listed i _ hmem).1

theorem take_size (v : View) (x i : Nat) : (take v x i).size = v.size := by
  rw [take]
  split_ifs <;> rfl

theorem completePage_eq (h : Shows T s₀ s v) (hi : i < MAXEXP) :
    completePage s i = .ok (v.completePages i) := by
  rw [completePage, if_pos hi, h.completePages]

theorem takeListed_shows (hsound : Sound (view s) L) (ho : Owns s L) (hx : x ∈ L.lists i) :
    Finishes (takeListed s x i) fun s' => Shows {x | Tag L x} s s' (take (view s) x i) := by
  obtain ⟨htag, hindex, -⟩ := hsound.listed i x hx
  have hi := hsound.listed_lt hx
  have hscope := scope_of_sound hsound ho
  obtain ⟨hnext, hprev⟩ := free_pointers hsound hx
  refine (removeTag_shows (Shows.refl _ s) hscope htag (hindex ▸ hi) hnext hprev).bind
    fun s₁ h₁ => ?_
  have hwhole : isWhole ((view s).removeTag x) x = isWhole (view s) x := rfl
  rw [whole_eq h₁ hscope htag, hwhole]
  change Finishes (if isWhole (view s) x = true then _ else _) _
  rw [take]
  split_ifs
  · rw [completePage_eq h₁ hi]
    exact setCompletePage_shows h₁ hi _
  · exact finishes_ok h₁

theorem acquired_listed (h : Tidy (view s) L) (ho : Owns s L) (hx : x ∈ L.lists i)
    (hroom : TAG_SIZE + size + TAG_SIZE ≤ (view s).realSize x) :
    ∃ s' L', takeListed s x i = .ok s' ∧ Acquired s L x size s' L' := by
  have hTAG : TAG_SIZE = 32 := rfl
  have hbounds := h.sound.bounds (h.sound.listed i x hx).1
  obtain ⟨as, bs, hlist⟩ := List.append_of_mem hx
  obtain ⟨s', hok, hshows⟩ := takeListed_shows h.sound ho hx
  obtain ⟨b, xs, ys, hheld, hright⟩ := h.take hlist
  refine ⟨s', L.setList i (as ++ bs), hok,
    ⟨⟨b, xs, ys, shows_held hshows (fun z hz => hz) hheld, hright⟩,
    ho.congr hshows.owned (fun _ => Iff.rfl) rfl, ?_, by omega, fun hu => hu.2 ⟨i, hx⟩, fun z => ?_,
    fun z hz => ?_, hshows.initialized, hshows.locked⟩⟩
  · have hsize : (view s').realSize x = (take (view s) x i).realSize x :=
      shows_field hshows hheld.tag .realSize
    have hreal : (take (view s) x i).realSize x = (view s).realSize x :=
      take_field (view s) x i x .realSize
    rw [hsize, hreal]
    omega
  · rcases eq_or_ne z x with rfl | hzx
    · exact ⟨fun _ => Or.inr rfl, fun _ => hheld.used⟩
    · constructor
      · rintro ⟨hz, hl⟩
        exact Or.inl ⟨hz, fun hl' => hl ((listed_of_ne hlist hzx).mpr hl')⟩
      · rintro (⟨hz, hl⟩ | hz)
        · exact ⟨hz, fun hl' => hl ((listed_of_ne hlist hzx).mp hl')⟩
        · exact absurd hz hzx
  · refine shows_kept hshows h.sound hz.1 ?_ (h.room z hz)
    rw [take_size]

/-- The tag which `liballoc_malloc_r` finds in its list, or a new one. -/
theorem takeTag_eq (h : Tidy (view s) L) (ho : Owns s L) (hsize : size ≤ MAX_SIZE) :
    (takeTag s size r = .ok (0, s) ∧ chosenTag s (L.lists (listIndex size)) size r = 0) ∨
      ∃ x s' L', takeTag s size r = .ok (x, s') ∧ x ≠ 0 ∧
        chosenTag s (L.lists (listIndex size)) size r = x ∧ Acquired s L x size s' L' := by
  obtain ⟨i, hi⟩ : ∃ i, i = listIndex size := ⟨_, rfl⟩
  have hilt : i < MAXEXP := by
    rw [hi]
    exact (listIndex_bounds size).2
  have hscope := scope_of_sound h.sound ho
  have hshows := Shows.refl {x | Tag L x} s
  have hchain := h.sound.list i
  have hmem : ∀ x ∈ L.lists i, x ∈ {x | Tag L x} ∧ x ≠ 0 := fun x hx =>
    ⟨(h.sound.listed i x hx).1, fun hx0 => hchain.null_not_mem (hx0 ▸ hx)⟩
  have hlength := length_le_max h.sound (fun x hx => (hmem x hx).1) hchain.nodup_tail
  have hfind : findTag s size (MAX_TAGS + 1) ((L.lists i).headD 0) = _ :=
    findTag_eq hshows hscope hchain.segment hmem (Nat.lt_succ_of_le hlength)
  have hhead : freePage s i = .ok ((L.lists i).headD 0) := by
    rw [freePage_eq hshows hilt, h.sound.head i]
  have hcondition : ∀ x ∈ L.lists i, enough ((view s).realSize x) size =
      decide (TAG_SIZE + size + TAG_SIZE ≤ (view s).realSize x) := by
    intro x hx
    obtain ⟨hxT, -⟩ := hmem x hx
    have henough := enough_iff hsize (h.sound.realSize_ge hxT) (hshows.field_lt hxT .realSize)
    rw [Bool.eq_iff_iff, henough, decide_eq_true_eq]
  obtain ⟨call, hcall⟩ : ∃ call, call = takeTag s size r := ⟨_, rfl⟩
  rw [← hcall]
  rw [takeTag, ← hi, hhead] at hcall
  change call = findTag s size (MAX_TAGS + 1) ((L.lists i).headD 0) >>= _ at hcall
  rw [hfind, List.find?_congr hcondition] at hcall
  rw [chosenTag, ← hi]
  cases hfound : (L.lists i).find? fun x => decide (TAG_SIZE + size + TAG_SIZE ≤
      (view s).realSize x) with
  | none =>
      rw [hfound] at hcall
      rw [hcall]
      exact allocateNewTag_eq h ho hsize
  | some x =>
      right
      rw [hfound] at hcall
      have hx := List.mem_of_find?_eq_some hfound
      have hroom : TAG_SIZE + size + TAG_SIZE ≤ (view s).realSize x := by
        simpa using List.find?_some hfound
      obtain ⟨hxT, hx0⟩ := hmem x hx
      obtain ⟨s', L', htake, hacquired⟩ := acquired_listed h ho hx hroom
      refine ⟨x, s', L', ?_, hx0, rfl, hacquired⟩
      rw [hcall]
      change (if x = 0 then _ else (takeListed s x i >>= _)) = _
      rw [if_neg hx0, htake]
      rfl

/-- From `s` to `s'` the program has got the same blocks, and the calls have left them alone. -/
structure Preserved (s : Arena) (L : Layout) (s' : Arena) (L' : Layout) : Prop where
  tidy : Tidy (view s') L'
  owns : Owns s' L'
  used : ∀ z, Used L' z ↔ Used L z
  kept : ∀ z, Used L z → Kept s s' z
  initialized : s'.initialized = s.initialized
  locked : s'.locked = s.locked

theorem setTiles_nil_iff {zs : List Nat} (hb : L.tiles b ≠ []) (hzs : zs ≠ []) (c : Nat) :
    (L.setTiles b zs).tiles c = [] ↔ L.tiles c = [] := by
  rcases eq_or_ne c b with rfl | hcb
  · rw [setTiles_self]
    exact ⟨fun h => absurd h hzs, fun h => absurd h hb⟩
  · rw [setTiles_of_ne hcb]

theorem setTiles_tags (h : Sound v L) (htiles : L.tiles b = xs ++ x :: ys) (hy : ¬Tag L y) :
    ∀ z, Tag (L.setTiles b (xs ++ x :: y :: ys)) z ↔ Tag L z ∨ z = y := by
  intro z
  rw [h.tag_setTiles, htiles]
  constructor
  · rintro (hz | ⟨hz, -⟩)
    · by_cases hzy : z = y
      · exact Or.inr hzy
      · refine Or.inl ⟨b, ?_⟩
        rw [htiles]
        simp only [List.mem_append, List.mem_cons] at hz ⊢
        tauto
    · exact Or.inl hz
  · rintro (hz | rfl)
    · by_cases hmem : z ∈ xs ++ x :: ys
      · left
        simp only [List.mem_append, List.mem_cons] at hmem ⊢
        tauto
      · exact Or.inr ⟨hz, hmem⟩
    · simp

/-- What is left of a large enough tag becomes a free tag. -/
theorem splitTag_eq (h : Held (view s) L b xs x ys) (hright : ∀ z ∈ ys.head?, ¬Listed L z)
    (ho : Owns s L) (hroom : TAG_SIZE + (view s).size x + TAG_SIZE ≤ (view s).realSize x) :
    ∃ s' L', splitTag s x = .ok s' ∧ Preserved s L s' L' := by
  have hTAG : TAG_SIZE = 32 := rfl
  obtain ⟨y, hy⟩ : ∃ y, y = x + TAG_SIZE + (view s).size x := ⟨_, rfl⟩
  have hdivided := h.divide hy hroom
  have hytag : ¬Tag L y := h.sound.not_tag h.tag (by omega) (by omega)
  have htags := setTiles_tags h.sound h.tiles hytag
  have hmemx : x ∈ L.tiles b := by
    rw [h.tiles]
    simp
  have howns : Owns s (L.setTiles b (xs ++ x :: y :: ys)) :=
    ho.congr rfl (setTiles_nil_iff (List.ne_nil_of_mem hmemx) (by simp)) rfl
  have hscope := scope_of_sound hdivided.sound howns
  have hpointer : ∀ z, Pointer {x | Tag L x} z →
      Pointer {z | Tag (L.setTiles b (xs ++ x :: y :: ys)) z} z := by
    rintro z (hz | hz)
    · exact Or.inl hz
    · exact Or.inr ((htags z).mpr (Or.inl hz))
  obtain ⟨i, hi⟩ : ∃ i, i = listIndex ((view s).realSize x - (y - x) - TAG_SIZE) := ⟨_, rfl⟩
  obtain ⟨s', hok, hshows⟩ := splitTag_shows (Shows.refl _ s) hscope ((htags x).mpr (Or.inl h.tag))
    hy ((htags y).mpr (Or.inr rfl)) (hpointer _ (split_pointers h.sound hmemx).1) hroom
    (listIndex_bounds _).2 (hpointer _ (head_pointer h.sound _))
  rw [← hi] at hshows
  have hsizey : ((view s).divide x y).realSize y = (view s).realSize x - (y - x) :=
    (Function.update_of_ne (by omega) ..).trans (Function.update_self ..)
  have hwhole : isWhole ((view s).divide x y) y = false := by
    rw [← Bool.not_eq_true, isWhole_eq_iff hdivided.sound hdivided.tiles]
    simp
  have htidy := hdivided.enlist (i := i) (by rw [hsizey]; exact hi)
    (fun z hz => by
      obtain rfl : x = z := by simpa using hz
      exact h.loose)
    hright (fun hcontra => by simp [hwhole] at hcontra)
  rw [give, hwhole, if_neg (by simp)] at htidy
  have hused : ∀ z, Used ((L.setTiles b (xs ++ x :: y :: ys)).setList i (y :: L.lists i)) z ↔
      Used L z := by
    intro z
    have hlisted : Listed ((L.setTiles b (xs ++ x :: y :: ys)).setList i (y :: L.lists i)) z ↔
        z = y ∨ Listed L z := listed_setList_cons
    constructor
    · rintro ⟨hz, hl⟩
      rw [hlisted, not_or] at hl
      exact ⟨((htags z).mp hz).resolve_right hl.1, hl.2⟩
    · rintro ⟨hz, hl⟩
      refine ⟨(htags z).mpr (Or.inl hz), ?_⟩
      rw [hlisted, not_or]
      refine ⟨?_, hl⟩
      rintro rfl
      exact hytag hz
  refine ⟨s', (L.setTiles b (xs ++ x :: y :: ys)).setList i (y :: L.lists i), hok,
    shows_tidy hshows (fun z hz => hz) htidy,
    howns.congr hshows.owned (fun _ => Iff.rfl) rfl, hused, fun z hz => ?_, hshows.initialized,
    hshows.locked⟩
  have hroomz := htidy.room z ((hused z).mpr hz)
  have hshows : Shows {z | Tag ((L.setTiles b (xs ++ x :: y :: ys)).setList i (y :: L.lists i)) z}
      s s' _ := hshows
  exact shows_kept hshows htidy.sound ((htags z).mpr (Or.inl hz.1)) rfl hroomz

theorem remainder_le {realSize : Nat} (hlt : realSize < 2 ^ 32)
    (hroom : TAG_SIZE + size ≤ realSize)
    (h : sub32 (sub32 realSize size) (TAG_SIZE * 2) < 2 ^ 31) :
    TAG_SIZE + size + TAG_SIZE ≤ realSize := by
  have hTAG : TAG_SIZE = 32 := rfl
  by_contra hfew
  rw [sub32_eq hlt (by omega), sub32, hTAG] at h
  omega

theorem reuseExcess_eq (h : Held (view s) L b xs x ys) (hright : ∀ z ∈ ys.head?, ¬Listed L z)
    (ho : Owns s L) (hroom : TAG_SIZE + (view s).size x ≤ (view s).realSize x) :
    ∃ s' L', reuseExcess s x ((view s).size x) = .ok s' ∧ Preserved s L s' L' := by
  have hTAG : TAG_SIZE = 32 := rfl
  have hscope := scope_of_sound h.sound ho
  have hshows := Shows.refl {x | Tag L x} s
  have hlt : (view s).realSize x < 2 ^ 32 := hshows.field_lt h.tag .realSize
  have hsame : Preserved s L s L := ⟨h.tidy hroom, ho, fun _ => Iff.rfl, fun _ _ => Kept.refl s _,
    rfl, rfl⟩
  obtain ⟨call, hcall⟩ : ∃ call, call = reuseExcess s x ((view s).size x) := ⟨_, rfl⟩
  rw [← hcall]
  rw [reuseExcess, load_eq hshows hscope h.tag, ok_bind] at hcall
  dsimp only at hcall
  split_ifs at hcall with hremainder hexp
  · rw [hcall]
    exact splitTag_eq h hright ho (remainder_le hlt hroom hremainder.2)
  · exact ⟨s, L, hcall, hsame⟩
  · exact ⟨s, L, hcall, hsame⟩

/-- The invariant of the allocator between two calls. -/
structure Valid (s : Arena) (L : Layout) : Prop where
  tidy : Tidy (view s) L
  owns : Owns s L
  ready : s.initialized = true ∨ ∀ b, L.tiles b = []
  unlocked : s.locked = false

/-- Nothing is cleared by the first call. -/
theorem initLists_eq (h : Tidy (view s) L) (hready : s.initialized = true ∨ ∀ b, L.tiles b = []) :
    initLists s = { s with initialized := true } := by
  rw [initLists]
  rcases hready with hinit | hnil
  · rw [if_pos hinit]
    rcases s with ⟨_, _, _, _, initialized, _⟩
    obtain rfl : initialized = true := hinit
    rfl
  · have hlists : ∀ i, L.lists i = [] := by
      intro i
      refine List.eq_nil_iff_forall_not_mem.mpr fun x hx => ?_
      obtain ⟨⟨b, hb⟩, -⟩ := h.sound.listed i x hx
      rw [hnil b] at hb
      cases hb
    have hfree : ∀ i, s.freePages i = 0 := by
      intro i
      have hhead := h.sound.head i
      rwa [hlists i] at hhead
    have hcomplete : ∀ i, s.completePages i = 0 := by
      intro i
      have hcount := h.counted i
      rwa [hlists i] at hcount
    split_ifs with hinit
    · rcases s with ⟨_, _, _, _, initialized, _⟩
      obtain rfl : initialized = true := hinit
      rfl
    · simp only [hfree, hcomplete, ite_self]
      rcases s with ⟨_, _, freePages, completePages, _, _⟩
      obtain rfl : freePages = fun _ => 0 := funext hfree
      obtain rfl : completePages = fun _ => 0 := funext hcomplete
      rfl

theorem Held.setSize (h : Held v L b xs x ys) (w : Nat) : Held (v.set x .size w) L b xs x ys where
  sound := by
    have hs := h.sound
    exact ⟨fun c hc => ⟨(hs.area c hc).aligned, (hs.area c hc).pos, (hs.area c hc).pages_ge,
      (hs.area c hc).stop_le, (hs.area c hc).tiling, (hs.area c hc).chain⟩, hs.disjoint, hs.magic,
      hs.list, hs.head, hs.listed, fun z hz hl =>
        ⟨(hs.loose z hz hl).index, (hs.loose z hz hl).next, (hs.loose z hz hl).prev⟩⟩
  tiles := h.tiles
  loose := h.loose
  coalesced := h.coalesced
  counted := h.counted
  bounded := h.bounded
  room z hz hzx := by
    have hsize : (v.set x .size w).size z = v.size z := Function.update_of_ne hzx ..
    rw [hsize]
    exact h.room z hz hzx

/-- A call has returned the block behind the tag `x`. -/
structure Allocated (s : Arena) (L : Layout) (x size : Nat) (s' : Arena) (L' : Layout) : Prop where
  lt : x + TAG_SIZE < 2 ^ 32
  fresh : ¬Used L x
  used : ∀ z, Used L' z ↔ Used L z ∨ z = x
  size : (view s').size x = size
  kept : ∀ z, Used L z → Kept s s' z

theorem liballocMallocR_eq (h : Valid s L) (hsize : size ≤ MAX_SIZE) :
    (∃ s', liballocMallocR s size r = .ok (0, s') ∧
      chosenTag s (L.lists (listIndex size)) size r = 0 ∧ Valid s' L ∧ s'.memory = s.memory) ∨
      ∃ x s' L', liballocMallocR s size r = .ok (x + TAG_SIZE, s') ∧
        (x ≠ 0 ∧ chosenTag s (L.lists (listIndex size)) size r = x) ∧ Valid s' L' ∧
          Allocated s L x size s' L' := by
  obtain ⟨s₀, hs₀⟩ : ∃ s₀, s₀ = { s with initialized := true, locked := true } := ⟨_, rfl⟩
  have hview : view s₀ = view s := by
    rw [hs₀]
    rfl
  have hmemory : s₀.memory = s.memory := by
    rw [hs₀]
  have htidy : Tidy (view s₀) L := by
    rw [hview]
    exact h.tidy
  have howns : Owns s₀ L := h.owns.congr (by rw [hs₀]) (fun _ => Iff.rfl) rfl
  have hinit : initLists { s with locked := true } = s₀ := by
    have htidy' : Tidy (view { s with locked := true }) L := h.tidy
    rw [initLists_eq htidy' h.ready, hs₀]
  have hlock : liballocLock s = .ok { s with locked := true } := by
    rw [liballocLock, h.unlocked]
    rfl
  obtain ⟨call, hcall⟩ : ∃ call, call = liballocMallocR s size r := ⟨_, rfl⟩
  rw [← hcall]
  rw [liballocMallocR, hlock, ok_bind, hinit] at hcall
  have hchosen : chosenTag s₀ (L.lists (listIndex size)) size r =
      chosenTag s (L.lists (listIndex size)) size r := by
    rw [hs₀]
    rfl
  rcases takeTag_eq (r := r) htidy howns hsize with
    ⟨htake, hnone⟩ | ⟨x, s₁, L₁, htake, hx0, hsome, hacquired⟩
  · left
    rw [htake, ok_bind] at hcall
    refine ⟨liballocUnlock s₀, hcall, hchosen ▸ hnone, ⟨?_, ?_, ?_, rfl⟩, hmemory⟩
    · exact htidy
    · exact howns.congr rfl (fun _ => Iff.rfl) rfl
    · left
      rw [hs₀]
      rfl
  · right
    rw [htake, ok_bind] at hcall
    dsimp only at hcall
    rw [if_neg hx0] at hcall
    obtain ⟨b, xs, ys, hheld, hright⟩ := hacquired.held
    have hscope := scope_of_sound hheld.sound hacquired.owns
    have hsize' : size < 2 ^ 32 := by
      simp only [MAX_SIZE, TAG_SIZE] at hsize
      omega
    obtain ⟨s₂, hstore, hshows⟩ := store_shows (f := .size) (Shows.refl _ s₁) hscope hheld.tag hsize'
    have hheld₂ := shows_held hshows (fun z hz => hz) (Held.setSize hheld size)
    have hsize₂ : (view s₂).size x = size :=
      (shows_field hshows hheld.tag .size).trans (Function.update_self ..)
    have hreal₂ : (view s₂).realSize x = (view s₁).realSize x := shows_field hshows hheld.tag .realSize
    have howns₂ := hacquired.owns.congr hshows.owned (fun _ => Iff.rfl) rfl
    obtain ⟨s₃, L₃, hreuse, hpreserved⟩ := reuseExcess_eq hheld₂ hright howns₂
      (by rw [hsize₂, hreal₂]; exact hacquired.room)
    rw [hsize₂] at hreuse
    rw [hstore, ok_bind, hreuse, ok_bind, Nat.mod_eq_of_lt hacquired.lt] at hcall
    have hkept : ∀ z, Used L z → Kept s₁ s₂ z := by
      intro z hz
      have hzx : z ≠ x := by
        rintro rfl
        exact hacquired.fresh hz
      have hz₁ := (hacquired.used z).mpr (Or.inl hz)
      refine shows_kept hshows hheld.sound hz₁.1 (Function.update_of_ne hzx ..)
        (hheld.room z hz₁ hzx)
    refine ⟨x, liballocUnlock s₃, L₃, hcall, ⟨hx0, hchosen ▸ hsome⟩, ⟨hpreserved.tidy, ?_, Or.inl ?_, rfl⟩,
      hacquired.lt, hacquired.fresh, fun z => ?_, ?_, fun z hz => ?_⟩
    · exact hpreserved.owns.congr rfl (fun _ => Iff.rfl) rfl
    · change s₃.initialized = true
      rw [hpreserved.initialized, hshows.initialized, hacquired.initialized, hs₀]
    · rw [hpreserved.used, hacquired.used]
    · change (view s₃).size x = size
      rw [(hpreserved.kept x hheld₂.used).size, hsize₂]
    · have hz₁ := (hacquired.used z).mpr (Or.inl hz)
      have hall := ((hacquired.kept z hz).trans (hkept z hz)).trans (hpreserved.kept z hz₁)
      refine ⟨?_, fun i hi => ?_⟩
      · rw [← hview]
        exact hall.size
      · rw [← hmemory]
        exact hall.bytes i (by rwa [hview])

end

end Ibnos.LiballocCalls
