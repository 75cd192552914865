import Ibnos.Creations

/-!
The references which a lookup leaves behind. Every directory which it creates
keeps the reference that `directoryCreate` returned.
-/

namespace Ibnos.LookupReferences

open Ibnos.Creations
open Ibnos.Filesystem
open Ibnos.FilesystemReleases
open Ibnos.FilesystemTrees
open Ibnos.Forests
open Ibnos.Lookups
open Ibnos.Programs
open Ibnos.Strings
open Ibnos.Tallies

/-- The caller gives up the reference which it got. -/
def dropReference (r : Option Nat) : Kernel Unit :=
  match r with
  | none => pure ()
  | some x => objectRelease x

/-- After the call and the caller's release all references belong to an owner,
those on objects which existed before are as many as before, and an object which
was created is destroyed when it is deleted. -/
def Balances (s : Store) (held : Nat → Nat) (m : Kernel (Option Nat)) : Prop :=
  ∃ r s₁ s₂, m s = .ok (r, s₁) ∧ dropReference r s₁ = .ok ((), s₂) ∧
    (∀ x, s₂.objects x ≠ none → s₂.refcount x = owners s₂ held x) ∧
    (∀ x, s.objects x ≠ none → s₂.objects x ≠ none ∧ s₂.refcount x = s.refcount x) ∧
    ∀ x, s.objects x = none → s₂.objects x ≠ none →
      ∃ s₃, objectShutdown x s₂ = .ok ((), s₃) ∧ s₃.objects x = none

/-- The search for a directory creates one. -/
def MakesDirectory (s : Store) (directory : Option Nat) (path : Bytes) (after : Nat → UInt8)
    (create : Bool) : Prop :=
  Makes s after create (path.length + 1) (directory.getD s.root) path

/-- The search for a file creates a directory. -/
def MakesFor (s : Store) (directory : Option Nat) (path : Bytes) (after : Nat → UInt8)
    (create : Bool) : Prop :=
  filePart path ≠ [] ∧
    MakesDirectory s directory (directoryPart path) (afterDirectory path after) create

section

variable {s s' s'' : Store} {held : Nat → Nat} {directory : Option Nat} {path : Bytes}
  {after : Nat → UInt8} {create : Bool} {n x : Nat} {cs : List Bytes}

theorem Created.live (hc : Created cs n s s') (x : Nat) :
    s'.objects x ≠ none ↔ s.objects x ≠ none ∨ (s.fresh ≤ x ∧ x < s.fresh + n) := by
  have := hc.induction (P := fun m t => t.fresh = s.fresh + m ∧
    ∀ x, t.objects x ≠ none ↔ s.objects x ≠ none ∨ (s.fresh ≤ x ∧ x < s.fresh + m)) (m := 0)
    (fun _ _ _ h => h) (fun m t t' p c ht _ _ _ hg => ?_) ⟨rfl, fun x => ?_⟩
  · rw [Nat.zero_add] at this
    exact this.2 x
  · refine ⟨by rw [hg.fresh, ht.1, Nat.add_assoc], fun x => ?_⟩
    rw [hg.live, ht.2, ht.1]
    constructor
    · rintro (rfl | h | h)
      · exact Or.inr ⟨by omega, by omega⟩
      · exact Or.inl h
      · exact Or.inr ⟨h.1, by omega⟩
    · rintro (h | h)
      · exact Or.inr (Or.inl h)
      · rcases Nat.lt_or_ge x (s.fresh + m) with hlt | hge
        · exact Or.inr (Or.inr ⟨h.1, hlt⟩)
        · exact Or.inl (by omega)
  · exact ⟨Or.inl, fun h => h.elim id fun h => absurd h (by omega)⟩

theorem Created.refcount (hc : Created cs n s s') (hx : x < s.fresh) :
    s'.refcount x = s.refcount x := by
  have := hc.induction (P := fun m t => s.fresh ≤ t.fresh ∧ t.refcount x = s.refcount x) (m := 0)
    (fun _ _ _ h => h) (fun m t t' p c ht _ _ _ hg => ?_) ⟨Nat.le_refl _, rfl⟩
  · exact this.2
  · refine ⟨by rw [hg.fresh]; omega, ?_⟩
    rw [hg.refcount, Function.update_of_ne (by omega)]
    exact ht.2

theorem Created.root (hc : Created cs n s s') : s'.root = s.root :=
  hc.induction (P := fun _ t => t.root = s.root) (m := 0) (fun _ _ _ h => h)
    (fun _ _ _ _ _ ht _ _ _ hg => hg.root.trans ht) rfl

/-- The store `s'` was reached by creating `n` directories and possibly a file,
and all references but those of the directories have an owner. -/
structure Settles (s : Store) (held : Nat → Nat) (n : Nat) (s' : Store) : Prop where
  inv : Inv s' (leaked held s.fresh n)
  positive : Positive s'
  root : s'.root = s.root
  old : ∀ x, s.objects x ≠ none → s'.objects x ≠ none ∧ s'.refcount x = s.refcount x
  new : ∀ x, s.fresh ≤ x → x < s.fresh + n → s'.objects x ≠ none
  alone : ∀ x, s.objects x = none → s'.objects x ≠ none → ∀ y, target s' y ≠ some x

theorem target_created (hc : Created cs n s s') : target s' = target s :=
  hc.induction (P := fun _ t => target t = target s) (m := 0) (fun _ _ _ h => h)
    (fun _ _ _ _ _ ht _ _ _ hg => by
      rw [← ht]
      funext y
      rw [target, hg.opened]
      rfl) rfl

theorem target_live (h : Inv s held) (hx : s.objects x = none) (y : Nat) : target s y ≠ some x := by
  intro hy
  obtain ⟨⟨k, z⟩, hz, rfl⟩ := Option.map_eq_some_iff.mp hy
  exact live_of_kind (h.opened y k z hz) hx

theorem settles_created (h : Inv s held) (hpos : Positive s) (hc : Created cs n s s') :
    Settles s held n s' where
  inv := (hc.inv h).1
  positive := hc.positive hpos
  root := Created.root hc
  old x hx := ⟨(Created.live hc x).mpr (Or.inl hx), Created.refcount hc (h.lt_fresh x hx)⟩
  new x hge hlt := (Created.live hc x).mpr (Or.inr ⟨hge, hlt⟩)
  alone x hx _ y := by
    rw [target_created hc]
    exact target_live h hx y

theorem Settles.alloc (h : Settles s held n s') (a : Nat) :
    Settles s held n { s' with allocs := a } :=
  ⟨inv_alloc h.inv, h.positive, h.root, h.old, h.new, h.alone⟩

theorem settles_grown {p : Nat} {c : Bytes} (h : Inv s held) (hpos : Positive s)
    (hc : Created cs n s s') (hp : (shape s').kind p = some .directory)
    (hg : Grows .file p c s' s'') :
    ∃ s₂, objectRelease s'.fresh s'' = .ok ((), s₂) ∧ Settles s held n s₂ := by
  have hs' := settles_created h hpos hc
  have hcount : s''.refcount s'.fresh = 0 + 2 := by
    rw [hg.refcount, Function.update_self]
  have hlive : s''.objects s'.fresh ≠ none := (hg.live _).mpr (Or.inl rfl)
  have hfresh := (hc.inv h).2
  have hinv := inv_decrement (inv_grows hs'.inv hp hg)
  rw [hcount] at hinv
  have htarget : target s'' = target s := by
    rw [← target_created hc]
    funext y
    rw [target, hg.opened]
    rfl
  refine ⟨_, objectRelease_eq hlive hcount, hinv, ?_, hg.root.trans hs'.root, ?_, ?_, ?_⟩
  · intro y hy
    rw [refcount_count, Function.update_apply]
    split_ifs
    · exact Nat.succ_pos 0
    · exact positive_grows hs'.positive hg y hy
  · intro x hx
    have hlt := h.lt_fresh x hx
    obtain ⟨hlive', hold⟩ := hs'.old x hx
    refine ⟨(hg.live x).mpr (Or.inr hlive'), ?_⟩
    rw [refcount_count, Function.update_of_ne (by omega), hg.refcount,
      Function.update_of_ne (by omega)]
    exact hold
  · intro x hge hlt
    exact (hg.live x).mpr (Or.inr (hs'.new x hge hlt))
  · intro x hx _ y
    change target s'' y ≠ some x
    rw [htarget]
    exact target_live h hx y

/-- A reference on an object which existed is given up again. -/
theorem release_again (hpos : Positive s) (hx : s.objects x ≠ none) :
    objectRelease x (count s x (s.refcount x + 1)) = .ok ((), s) := by
  obtain ⟨n, hn⟩ := Nat.exists_eq_succ_of_ne_zero (hpos x hx).ne'
  have hcount : (count s x (s.refcount x + 1)).refcount x = n + 2 := by
    rw [refcount_count, Function.update_self, hn]
  rw [objectRelease_eq (s := count s x (s.refcount x + 1)) hx hcount, count_count]
  change Except.ok ((), count s x n.succ) = _
  rw [← hn, count_self]

theorem fileSystemSearchDirectory_settles (directory : Option Nat) (path : Bytes)
    (after : Nat → UInt8) (create : Bool) (h : Inv s held) (hpos : Positive s)
    (hstart : (shape s).kind (directory.getD s.root) = some .directory) :
    ∃ r s₁ s₂ n, fileSystemSearchDirectory directory path after create s = .ok (r, s₁) ∧
      dropReference r s₁ = .ok ((), s₂) ∧ Settles s held n s₂ ∧
        (n ≠ 0 ↔ MakesDirectory s directory path after create) := by
  obtain ⟨r, s₁, s', n, hsearch, hc, hends, hmakes⟩ :=
    searchFrom_spec after create (Nat.lt_add_one path.length) h hstart
  refine ⟨r, s₁, s', n, hsearch, ?_, settles_created h hpos hc, hmakes⟩
  rcases r with _ | e
  · rw [show s₁ = s' from hends]
    rfl
  · rw [hends.2]
    exact release_again (hc.positive hpos) (live_of_kind hends.1)

theorem fileSystemSearchFile_settles (directory : Option Nat) (path : Bytes)
    (after : Nat → UInt8) (create : Bool) (h : Inv s held) (hpos : Positive s)
    (hstart : (shape s).kind (directory.getD s.root) = some .directory) :
    ∃ r s₁ s₂ n, fileSystemSearchFile directory path after create s = .ok (r, s₁) ∧
      dropReference r s₁ = .ok ((), s₂) ∧ Settles s held n s₂ ∧
        (n ≠ 0 ↔ MakesFor s directory path after create) := by
  rw [fileSystemSearchFile, MakesFor]
  rcases eq_or_ne (filePart path) [] with hname | hname
  · rw [if_pos hname]
    exact ⟨none, s, s, 0, rfl, rfl,
      settles_created h hpos (.done s : Created [] 0 s s), by simp [hname]⟩
  · rw [if_neg hname]
    obtain ⟨r, s₁, s', n, hsearch, hc, hends, hmakes⟩ :=
      searchFrom_spec (afterDirectory path after) create
        (Nat.lt_add_one (directoryPart path).length) h hstart
    have hsearch' : fileSystemSearchDirectory directory (directoryPart path)
        (afterDirectory path after) create s = .ok (r, s₁) := hsearch
    have hiff : n ≠ 0 ↔ filePart path ≠ [] ∧
        MakesDirectory s directory (directoryPart path) (afterDirectory path after) create :=
      hmakes.trans (and_iff_right hname).symm
    have hs' := settles_created h hpos hc
    rw [bind_apply, hsearch']
    rcases r with _ | e
    · exact ⟨none, s₁, s', n, rfl, by rw [show s₁ = s' from hends]; rfl, hs', hiff⟩
    · obtain ⟨he, rfl⟩ := hends
      obtain ⟨r, s₂, hfile, hends⟩ := searchFileIn_spec create hs'.positive hs'.inv he hname
        (filePart_slash path)
      rcases r with _ | f
      · obtain ⟨a, rfl⟩ := hends
        exact ⟨none, _, _, n, hfile, rfl, hs'.alloc a, hiff⟩
      · rcases hends with ⟨hf, rfl⟩ | ⟨rfl, -, p, hp, -, hg⟩
        · exact ⟨some f, _, s', n, hfile, release_again hs'.positive (live_of_kind hf), hs', hiff⟩
        · obtain ⟨s₃, hrelease, hs₃⟩ := settles_grown h hpos hc hp hg
          exact ⟨some s'.fresh, s₂, s₃, n, hfile, hrelease, hs₃, hiff⟩

theorem balances_iff {m : Kernel (Option Nat)} {r : Option Nat} {s₁ s₂ : Store} (h : Inv s held)
    (hm : m s = .ok (r, s₁)) (hdrop : dropReference r s₁ = .ok ((), s₂))
    (hs : Settles s held n s₂) : Balances s held m ↔ n = 0 := by
  constructor
  · rintro ⟨r', s₁', s₂', hm', hdrop', hbalanced, -⟩
    obtain ⟨rfl, rfl⟩ := Prod.mk.inj (Except.ok.inj (hm.symm.trans hm'))
    obtain rfl := (Prod.mk.inj (Except.ok.inj (hdrop.symm.trans hdrop'))).2
    by_contra hn
    have hlive := hs.new s.fresh (Nat.le_refl _) (by omega)
    have hleaked := hs.inv.balanced s.fresh hlive
    rw [hbalanced s.fresh hlive, owners, owners] at hleaked
    have hone : leaked held s.fresh n s.fresh = held s.fresh + 1 := by
      rw [leaked, if_pos ⟨Nat.le_refl _, by omega⟩]
    rw [hone] at hleaked
    omega
  · rintro rfl
    have hleaked : leaked held s.fresh 0 = held := by
      funext x
      rw [leaked, if_neg (by omega)]
      rfl
    have hinv := hs.inv
    rw [hleaked] at hinv
    refine ⟨r, s₁, s₂, hm, hdrop, hinv.balanced, hs.old, fun x hx hlive => ?_⟩
    refine objectShutdown_destroys hinv hs.positive hlive ?_ ?_ (hs.alone x hx hlive)
    · by_contra hheld
      exact h.held_live x (Nat.pos_of_ne_zero hheld) hx
    · rw [hs.root]
      rintro rfl
      exact live_of_kind h.root hx

/-- A lookup balances its references if and only if it creates no directory. -/
theorem search_balances_iff (s : Store) (held : Nat → Nat) (directory : Option Nat) (path : Bytes)
    (after : Nat → UInt8) (create : Bool) (h : Inv s held) (hpos : Positive s)
    (hdirectory : ∀ d, directory = some d → (shape s).kind d = some .directory) :
    (Balances s held (fileSystemSearchDirectory directory path after create) ↔
      ¬MakesDirectory s directory path after create) ∧
    (Balances s held (fileSystemSearchFile directory path after create) ↔
      ¬MakesFor s directory path after create) := by
  have hstart : (shape s).kind (directory.getD s.root) = some .directory := by
    rcases directory with _ | d
    · exact h.root
    · exact hdirectory d rfl
  constructor
  · obtain ⟨r, s₁, s₂, n, hm, hdrop, hs, hmakes⟩ :=
      fileSystemSearchDirectory_settles directory path after create h hpos hstart
    rw [balances_iff h hm hdrop hs, ← hmakes, not_not]
  · obtain ⟨r, s₁, s₂, n, hm, hdrop, hs, hmakes⟩ :=
      fileSystemSearchFile_settles directory path after create h hpos hstart
    rw [balances_iff h hm hdrop hs, ← hmakes, not_not]

theorem objects_init (heap : Nat → Bool) (x : Nat) : (fileSystemInit heap).objects x =
    if x = 0 then some (.directory { parent := none, name := none }) else none := by
  change Function.update (fun _ : Nat => none) 0 _ x = _
  rw [Function.update_apply]

theorem kind_init (heap : Nat → Bool) (x : Nat) : (shape (fileSystemInit heap)).kind x =
    if x = 0 then some .directory else none := by
  change ((fileSystemInit heap).objects x).bind kindOf = _
  rw [objects_init]
  split_ifs <;> rfl

theorem parent_init (heap : Nat → Bool) (x : Nat) :
    (shape (fileSystemInit heap)).parent x = none := by
  change ((fileSystemInit heap).objects x).bind parentOf = _
  rw [objects_init]
  split_ifs <;> rfl

theorem children_init (heap : Nat → Bool) (k : Kind) (x : Nat) :
    (shape (fileSystemInit heap)).children k x = [] := by
  change (((fileSystemInit heap).objects x).map _).getD [] = _
  rw [objects_init]
  split_ifs
  · rcases k with _ | _ <;> rfl
  · rfl

theorem opened_init (heap : Nat → Bool) (x : Nat) : opened (fileSystemInit heap) x = none := by
  rw [opened, objects_init]
  split_ifs <;> rfl

theorem live_init {heap : Nat → Bool} {x : Nat} (h : (fileSystemInit heap).objects x ≠ none) :
    x = 0 := by
  by_contra hx
  exact h ((objects_init heap x).trans (if_neg hx))

theorem inv_init (heap : Nat → Bool) : Inv (fileSystemInit heap) fun _ => 0 := by
  refine ⟨⟨fun k p x => ?_, fun k p => ?_, fun x p hp => ?_⟩, fun x hx => ?_, kind_init heap 0,
    parent_init heap 0, fun x k y hy => ?_, fun x hx => ?_, fun x hx => ?_⟩
  · rw [children_init, parent_init]
    simp
  · rw [children_init]
    exact List.nodup_nil
  · rw [parent_init] at hp
    cases hp
  · rw [live_init hx]
    exact Nat.succ_pos 0
  · rw [opened_init] at hy
    cases hy
  · cases hx
  · have htally : tally (target (fileSystemInit heap)) x = 0 := by
      rw [tally, Set.ncard_eq_zero (finitary_target (fun x hx => by
        rw [live_init hx]
        exact Nat.succ_pos 0) |>.places x)]
      ext y
      rw [Set.mem_ofPred_eq, target, opened_init]
      simp
    rw [owners, parent_init, htally, live_init hx]
    rfl

theorem positive_init (heap : Nat → Bool) : Positive (fileSystemInit heap) := by
  intro x hx
  rw [live_init hx]
  exact Nat.succ_pos 0

theorem search_balances_root :
    Inv (fileSystemInit fun _ => true) (fun _ => 0) ∧ Positive (fileSystemInit fun _ => true) ∧
    Balances (fileSystemInit fun _ => true) (fun _ => 0)
      (fileSystemSearchFile none [97] (fun _ => 0) true) := by
  refine ⟨inv_init _, positive_init _, ?_⟩
  refine (search_balances_iff _ _ none [97] (fun _ => 0) true (inv_init _) (positive_init _)
    nofun).2.mpr ?_
  rintro ⟨-, h⟩
  exact h

/-- A directory which a lookup has created keeps a reference for nobody. -/
theorem searchDirectory_unbalanced :
    (∃ s₁ s₂, fileSystemSearchDirectory none [97] (fun _ => 0) true
        (fileSystemInit fun _ => true) = .ok (some 1, s₁) ∧
      objectRelease 1 s₁ = .ok ((), s₂) ∧ s₂.refcount 1 = 2) ∧
    Inv (fileSystemInit fun _ => true) (fun _ => 0) ∧
    ¬Balances (fileSystemInit fun _ => true) (fun _ => 0)
      (fileSystemSearchDirectory none [97] (fun _ => 0) true) := by
  refine ⟨⟨_, _, rfl, rfl, rfl⟩, inv_init _, ?_⟩
  obtain ⟨r, s₁, s₂, n, hm, hdrop, hs, hmakes⟩ := fileSystemSearchDirectory_settles none [97]
    (fun _ => 0) true (inv_init fun _ => true) (positive_init _) rfl
  rw [balances_iff (inv_init _) hm hdrop hs]
  exact hmakes.mpr ⟨rfl, rfl, rfl, rfl⟩

end

end Ibnos.LookupReferences
