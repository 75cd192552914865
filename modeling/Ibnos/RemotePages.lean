import Ibnos.PagingOperations

/-!
Memory of one address space which is mapped into another one.
-/

namespace Ibnos.RemotePages

open Ibnos.Memory
open Ibnos.Physmem
open Ibnos.Paging
open Ibnos.Programs
open Ibnos.References
open Ibnos.KernelPages
open Ibnos.ProcessPages
open Ibnos.PagingOperations

section

variable {slack : Nat → Nat} {P : Nat → ℤ} {s s' s'' : Machine} {pid page : Nat}
  {p : Option Nat} {e : PagingEntry}

theorem entry_of_grows (h : Structured s) (h' : Structured s') (hg : Grows s s')
    (hpage : page < PAGE_COUNT) (hm : Mapped s p page)
    (hpresent : (s.entry p page).present = true) : s'.entry p page = s.entry p page := by
  rcases p with _ | pid
  · refine hg.kernel page fun hzero => ?_
    rw [Machine.entry, hzero] at hpresent
    cases hpresent
  · have hmapping := hg.mapping pid page
    rw [mapping_of_mapped h hpage hm, if_pos hpresent,
      mapping_of_mapped h' hpage (hg.extends.mapped _ _ hm)] at hmapping
    split at hmapping
    · exact Option.some.inj hmapping
    · cases hmapping

/-- An entry which names nothing still does so after a page was duplicated. -/
theorem named_of_duplicateIf {b : Bool} {p' : Option Nat} {page' : Nat} (h : Structured s)
    (h' : Structured s') (hpage : page < PAGE_COUNT) (hm : Mapped s p page)
    (hm' : Mapped s' p page) (hne : s.entry p page ≠ .zero)
    (hnone : named (s.entry p page) = none) (hpresent : (s.entry p' page').present = true)
    (hsame : b = false → s' = s) (hd : b = true → Duplicated slack p' page' s s') :
    named (s'.entry p page) = none := by
  rcases b with _ | _
  · rw [hsame rfl]
    exact hnone
  have hdiff : ¬(p' = p ∧ page = page') := by
    rintro ⟨rfl, rfl⟩
    rw [named, hpresent] at hnone
    cases hnone
  rcases p with _ | pid
  · rw [Machine.entry, (hd rfl).kernel page hne hdiff]
    exact hnone
  · have hmapping := (hd rfl).other pid page hdiff
    rw [mapping_of_mapped h hpage hm, mapping_of_mapped h' hpage hm'] at hmapping
    rw [named] at hnone ⊢
    split at hnone
    · cases hnone
    · rename_i hfalse
      rw [if_neg hfalse] at hmapping
      split at hmapping
      · cases hmapping
      · rename_i hfalse'
        exact if_neg hfalse'

variable {dst_p src_p : Option Nat} {dst_page src_page : Nat}

/-- The entry for the frame of another one. -/
def remoteEntry (rw user : Bool) (e : PagingEntry) : PagingEntry :=
  { e with rw := rw, user := user }

/-- An entry is written which names the frame of another one. -/
theorem mapEntry_spec {α : Type} {Q : α → Machine → Prop} {k : M α} {rw user : Bool}
    (h : Inv slack 0 s) (hdst : dst_page < PAGE_COUNT) (hsrc : src_page < PAGE_COUNT)
    (hmd : Mapped s dst_p dst_page) (hms : Mapped s src_p src_page)
    (hw : Writable s dst_p dst_page) (hnone : named (s.entry dst_p dst_page) = none)
    (hpresent : (s.entry src_p src_page).present = true)
    (hk : ∀ s', Inv slack 0 s' →
      KernelGrows (s.setEntry dst_p dst_page
        (remoteEntry rw user (s.entry src_p src_page))) s' → Steps k s' Q) :
    Steps (do
      let src ← loadEntry src_p src_page
      storeEntry dst_p dst_page (remoteEntry rw user src)
      let _ ← physMemAddRefPage src.frame
      k) s Q := by
  refine yields_ok_bind (h.structured.loadEntry_ok hsrc hms) ?_
  refine yields_ok_bind (h.structured.storeEntry_ok hdst hmd _) ?_
  have hinv := h.setEntry hdst hmd hw (remoteEntry rw user (s.entry src_p src_page))
  have hused := used_of_entry h zero_nonneg hsrc hms hpresent
  refine (physMemAddRefPage_spec hinv (by rw [used_setEntry]; exact hused)).bind ?_
  rintro _ s' ⟨-, h', hg⟩
  have hnew : named (remoteEntry rw user (s.entry src_p src_page)) =
      some (s.entry src_p src_page).frame := by
    rw [named, remoteEntry, hpresent]
    rfl
  rw [hnone, hnew, due_none, add_zero, zero_sub, neg_add_cancel] at h'
  exact hk s' h' hg

/-- The processes share no more memory if the user cannot reach the new entry. -/
theorem private_mapEntry {rw user : Bool} (h : Inv slack 0 s) (hdst : dst_page < PAGE_COUNT)
    (hsrc : src_page < PAGE_COUNT) (hmd : Mapped s dst_p dst_page)
    (hms : Mapped s src_p src_page) (hpresent : (s.entry src_p src_page).present = true)
    (hg : KernelGrows (s.setEntry dst_p dst_page
      (remoteEntry rw user (s.entry src_p src_page))) s')
    (huser : dst_p = none ∨ user = false) (hs : Private s) : Private s' := by
  rcases dst_p with _ | pid
  · have hs' : Private (s.setEntry none dst_page (remoteEntry rw user (s.entry src_p src_page))) :=
      hs.of_mapping rfl fun _ _ _ _ hf => hf
    refine hs'.of_grows_used hg.toGrows fun pid page e he => ?_
    rw [used_setEntry]
    exact used_of_mapping h zero_nonneg he
  · have huser := huser.resolve_left nofun
    refine (hs.setHidden h.structured hdst hmd (Or.inr huser)).of_grows_used hg.toGrows ?_
    intro pid' page' e he
    rw [used_setEntry]
    rw [mapping_setTable h.structured hdst hmd] at he
    split at he
    · split at he
      · cases he
        exact used_of_entry h zero_nonneg hsrc hms hpresent
      · cases he
    · exact used_of_mapping h zero_nonneg he

end

section

variable {slack : Nat → Nat} {P : Nat → ℤ} {s s' s'' : Machine} {pid page : Nat}
  {dst_p src_p : Option Nat}

/-- What a loop over remote pages keeps. The new entries share memory between the processes
only if the user can reach them. -/
structure Shared (slack : Nat → Nat) (hidden : Prop) (s s' : Machine) : Prop where
  inv : Inv slack 0 s'
  extends' : Extends s s'
  priv : hidden → Private s → Private s'

theorem Shared.trans {hidden : Prop} (h : Shared slack hidden s s')
    (h' : Shared slack hidden s' s'') : Shared slack hidden s s'' :=
  ⟨h'.inv, h.extends'.trans h'.extends', fun hh hs => h'.priv hh (h.priv hh hs)⟩

theorem shared_of_kept {hidden : Prop} (h : Kept slack s s') : Shared slack hidden s s' :=
  ⟨h.inv, h.extends', fun _ => h.priv⟩

theorem reserved_spec {e : PagingEntry} (h : e.isReserved = true) :
    e ≠ .zero ∧ named e = none := by
  simp only [PagingEntry.isReserved, Bool.and_eq_true, Bool.not_eq_true', beq_iff_eq] at h
  refine ⟨?_, ?_⟩
  · rintro rfl
    exact absurd h.2 (by decide)
  · rw [named, h.1]
    rfl

theorem present_of_duplicateIf {b : Bool} {p : Option Nat}
    (hpresent : (s.entry p page).present = true) (hsame : b = false → s' = s)
    (hd : b = true → Duplicated slack p page s s') : (s'.entry p page).present = true := by
  rcases b with _ | _
  · rw [hsame rfl]
    exact hpresent
  · obtain ⟨f, hentry, -⟩ := (hd rfl).entry
    rw [hentry]
    exact hpresent

theorem ne_zero_of_present {e : PagingEntry} (hpresent : e.present = true) : e ≠ .zero := by
  rintro rfl
  cases hpresent

theorem remoteLoop_spec {rw user : Bool} {length dst_cur src_cur : Nat} (h : Inv slack 0 s)
    (ha : Area s dst_p length dst_cur) :
    Steps (remoteLoop dst_p src_p rw user length dst_cur src_cur) s fun _ s' =>
      Shared slack (dst_p = none ∨ user = false) s s' := by
  induction length generalizing s dst_cur src_cur with
  | zero => exact yields_pure (shared_of_kept (Kept.refl h))
  | succ length ih =>
      rw [remoteLoop]
      refine (getPagingEntry_spec h zero_nonneg (pageOf_lt src_cur) src_p false).bind ?_
      rintro r s₁ ⟨h₁, hg₁, hmapped, -, -⟩
      refine steps_check_bind fun hr => ?_
      have hms₁ := hmapped hr
      refine yields_ok_bind (h₁.structured.loadEntry_ok (pageOf_lt _) hms₁) ?_
      refine steps_check_bind fun _ => ?_
      refine (getPagingEntry_spec h₁ zero_nonneg (pageOf_lt dst_cur) dst_p true).bind ?_
      rintro r' s₂ ⟨h₂, hg₂, hmapped', hr', -⟩
      have hmd₂ := hmapped' (hr' rfl)
      refine yields_ok_bind (h₂.structured.loadEntry_ok (pageOf_lt _) hmd₂) ?_
      refine steps_check_bind fun hreserved => steps_requirePresent_bind fun hpresent => ?_
      obtain ⟨hne, hnone⟩ := reserved_spec hreserved
      have hentry := entry_of_grows h₁.structured h₂.structured hg₂ (pageOf_lt _) hms₁ hpresent
      rw [← hentry] at hpresent ⊢
      have hms₂ := hg₂.extends.mapped _ _ hms₁
      refine (duplicateIf_spec h₂ (pageOf_lt _) hms₂ fun hb => ?_).bind ?_
      · simp only [Bool.and_eq_true, Bool.not_eq_true', beq_iff_eq] at hb
        exact ⟨hpresent, hb.1.2, hb.2⟩
      rintro _ s₃ ⟨hkept, -, hsame, hd⟩
      have hms₃ := hkept.extends'.mapped _ _ hms₂
      have hmd₃ := hkept.extends'.mapped _ _ hmd₂
      have hnone₃ := named_of_duplicateIf h₂.structured hkept.inv.structured (pageOf_lt _) hmd₂ hmd₃
        hne hnone hpresent hsame hd
      have hg := hg₁.trans hg₂
      have hkept₃ := (kept_of_grows h h₂ hg).trans hkept
      have hw := (ha.mono hkept₃.extends').writable
      have hpresent₃ := present_of_duplicateIf hpresent hsame hd
      refine mapEntry_spec hkept.inv (pageOf_lt _) (pageOf_lt _) hmd₃ hms₃ hw hnone₃ hpresent₃ ?_
      intro s₄ h₄ hg₄
      have hshared : Shared slack (dst_p = none ∨ user = false) s s₄ := by
        refine (shared_of_kept hkept₃).trans ⟨h₄, ?_, ?_⟩
        · refine (extends_setEntry hw ?_).trans hg₄.toGrows.extends
          exact ne_zero_of_present hpresent₃
        · exact private_mapEntry hkept.inv (pageOf_lt _) (pageOf_lt _) hmd₃ hms₃ hpresent₃ hg₄
      exact (ih h₄ (ha.tail.mono hshared.extends')).mono fun _ s' hs' => hshared.trans hs'

/-- A place which is given for memory of the kernel is below its page tables. -/
def RemoteFits (dst_p : Option Nat) (dst_addr length : Nat) : Prop :=
  dst_p = none → dst_addr ≠ 0 → pageOf dst_addr + length ≤ KERNEL_PAGE

theorem pagingMapRemoteMemory_spec {dst_addr src_addr length : Nat} (h : Inv slack 0 s)
    (hfits : RemoteFits dst_p dst_addr length) (rw user : Bool) :
    Steps (pagingMapRemoteMemory dst_p src_p dst_addr src_addr length rw user) s fun _ s' =>
      Shared slack (dst_p = none ∨ user = false) s s' := by
  have hloop : ∀ {s₁ s₂ : Machine} {addr : Nat}, Kept slack s s₁ → Kept slack s₁ s₂ →
      Area s₂ dst_p length addr → Steps (do
        remoteLoop dst_p src_p rw user length addr src_addr
        return some (addr ||| src_addr % PAGE_SIZE)) s₂ fun _ s' =>
          Shared slack (dst_p = none ∨ user = false) s s' := by
    intro s₁ s₂ addr hkept₁ hkept₂ harea
    refine (remoteLoop_spec hkept₂.inv harea).bind fun _ s' hs' => yields_pure ?_
    exact (shared_of_kept (hkept₁.trans hkept₂)).trans hs'
  rw [pagingMapRemoteMemory, areaOf]
  by_cases hnull : dst_addr = 0
  · rw [if_pos hnull]
    refine (pagingSearchArea_spec h zero_nonneg dst_p length).bind ?_
    rintro addr s₁ ⟨h₁, hg₁, -, hb⟩
    have hkept₁ := kept_of_grows h h₁ hg₁
    refine yields_ite (fun _ => yields_pure (shared_of_kept hkept₁)) fun _ => ?_
    refine (pagingReserveArea_found h₁ hb).bind ?_
    rintro _ s₂ ⟨hkept₂, harea, -⟩
    exact hloop hkept₁ hkept₂ harea
  · rw [if_neg hnull, pure_bind]
    refine yields_ite (fun _ => yields_pure (shared_of_kept (Kept.refl h))) fun _ => ?_
    refine (pagingReserveArea_spec h fun hp => hfits hp hnull).bind ?_
    rintro _ s₂ ⟨hkept₂, harea⟩
    exact hloop (Kept.refl h) hkept₂ harea

end

end Ibnos.RemotePages
