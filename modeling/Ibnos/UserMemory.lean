import Ibnos.Teardowns

/-!
Memory of a user which the kernel accesses. Its pages are mapped into the kernel
one by one, and the first one which the user could not access itself undoes all
of it.
-/

namespace Ibnos.UserMemory

open Ibnos.Memory
open Ibnos.Physmem
open Ibnos.Paging
open Ibnos.Programs
open Ibnos.References
open Ibnos.KernelPages
open Ibnos.ProcessPages
open Ibnos.PagingOperations
open Ibnos.RemotePages
open Ibnos.NewPages
open Ibnos.Locality

section

variable {slack : Nat → Nat} {s s' s'' : Machine} {pid page cur length : Nat} {e : PagingEntry}

theorem pagingReserveArea_kernel {user : Bool} (h : Inv slack 0 s)
    (hend : pageOf cur + length ≤ KERNEL_PAGE) :
    Steps (pagingReserveArea none user length cur) s fun _ s' =>
      KernelGrows s s' ∧ Adds (Span length cur) s s' := by
  induction length generalizing s cur with
  | zero => exact yields_pure ⟨KernelGrows.refl s, adds_of_eq rfl⟩
  | succ length ih =>
      have hlt : pageOf cur < KERNEL_PAGE := by omega
      rw [pagingReserveArea]
      refine ((getKernelEntry_spec h (pageOf_lt cur) true).and
        (getKernelEntry_adds (Span (length + 1) cur) h (pageOf cur) true)).bind ?_
      rintro r s₁ ⟨⟨h₁, hg₁, -, hmapped, hr, -⟩, ha₁⟩
      have hm := hmapped (hr rfl)
      refine yields_ok_bind (h₁.structured.loadEntry_ok (pageOf_lt cur) hm) ?_
      refine steps_check_bind fun hzero => ?_
      have hzero : s₁.kernel (pageOf cur) = .zero := by simpa [Machine.entry] using hzero
      refine yields_ok_bind (h₁.structured.storeEntry_ok (pageOf_lt cur) hm _) ?_
      have hkept := kept_reserve (p := none) user h₁ (pageOf_lt cur) hm (fun _ => hlt) hzero
        hg₁.toGrows h
      have hg₂ := hg₁.trans (setKernel_grows hzero
        ⟨false, false, user, PAGING_AVAIL_NOTPRESENT_RESERVED, 0⟩)
      have ha₂ : Adds (Span (length + 1) cur) s (s₁.setKernel (pageOf cur)
          ⟨false, false, user, PAGING_AVAIL_NOTPRESENT_RESERVED, 0⟩) := by
        intro q hq hzero' hne
        have hkernel : (s₁.setKernel (pageOf cur)
            ⟨false, false, user, PAGING_AVAIL_NOTPRESENT_RESERVED, 0⟩).kernel q = s₁.kernel q :=
          Function.update_of_ne (fun heq => hq (Or.inl heq)) _ _
        rw [hkernel] at hne ⊢
        exact ha₁ q hq hzero' hne
      refine (ih hkept.inv ?_).mono ?_
      · rw [pageOf_nextPage]
        · omega
        · simp only [KERNEL_PAGE, PAGE_COUNT] at *
          omega
      · rintro _ s' ⟨hg', ha'⟩
        exact ⟨hg₂.trans hg', ha₂.trans (ha'.mono fun _ => Or.inr) hg₂.toGrows hg'.toGrows⟩

/-- A page of a process is mapped into the kernel. -/
structure Open (s : Machine) (pid : Nat) (rw : Bool) (dst_page src_page : Nat) : Prop where
  entry : ∃ e, mapping s pid src_page = some e ∧ e.user = true ∧ (rw = true → e.rw = true) ∧
    s.kernel dst_page = remoteEntry rw false e

theorem Open.mono {rw : Bool} {dst_page src_page : Nat} (h : Open s pid rw dst_page src_page)
    (hmapping : mapping s' pid src_page = mapping s pid src_page)
    (hkernel : s'.kernel dst_page = s.kernel dst_page) : Open s' pid rw dst_page src_page := by
  obtain ⟨e, he, huser, hrw, hentry⟩ := h.entry
  exact ⟨e, hmapping.trans he, huser, hrw, hkernel.trans hentry⟩

/-- The page and what may have been done to it before. -/
structure PageOpened (slack : Nat → Nat) (src_p : Option Nat) (rw : Bool) (dst_page src_page : Nat)
    (s s' : Machine) : Prop extends Kept slack s s' where
  present : (s.entry src_p src_page).present = true
  views : view s' = view s
  kernel : ∀ page, s.kernel page ≠ .zero → page ≠ dst_page → ¬(src_p = none ∧ page = src_page) →
    s'.kernel page = s.kernel page
  others : ∀ q page, ¬(src_p = some q ∧ page = src_page) → mapping s' q page = mapping s q page
  opened : ∀ pid, src_p = some pid → Open s' pid rw dst_page src_page
  direct : (rw = true → (s.entry src_p src_page).rw = true) → ∀ pid, Quiet pid (· = dst_page) s s'
  tidy : src_p ≠ none → Tidy (· = dst_page) s s'

end

section

variable {slack : Nat → Nat} {s s₁ s' : Machine} {src_p : Option Nat} {rw : Bool}
  {dst_page src_page : Nat}

/-- What the copy on write leaves of an entry. -/
theorem entry_of_duplicateIf {b : Bool} (hsame : b = false → s₁ = s)
    (hd : b = true → Duplicated slack src_p src_page s s₁) :
    (s₁.entry src_p src_page).user = (s.entry src_p src_page).user ∧
      (s₁.entry src_p src_page).present = (s.entry src_p src_page).present ∧
      (b = true → (s₁.entry src_p src_page).rw = true) := by
  rcases b with _ | _
  · rw [hsame rfl]
    exact ⟨rfl, rfl, nofun⟩
  · obtain ⟨f, hentry, -⟩ := (hd rfl).entry
    rw [hentry]
    exact ⟨rfl, rfl, fun _ => rfl⟩

theorem kernel_of_duplicateIf {b : Bool} {page : Nat} (hsame : b = false → s₁ = s)
    (hd : b = true → Duplicated slack src_p src_page s s₁) (hne : s.kernel page ≠ .zero)
    (hpage : ¬(src_p = none ∧ page = src_page)) : s₁.kernel page = s.kernel page := by
  rcases b with _ | _
  · rw [hsame rfl]
  · exact (hd rfl).kernel page hne hpage

theorem mapping_of_duplicateIf {b : Bool} {q page : Nat} (hsame : b = false → s₁ = s)
    (hd : b = true → Duplicated slack src_p src_page s s₁)
    (hpage : ¬(src_p = some q ∧ page = src_page)) : mapping s₁ q page = mapping s q page := by
  rcases b with _ | _
  · rw [hsame rfl]
  · exact (hd rfl).other q page hpage

/-- The entry is written in the state `s₁`, and the references are counted after that. -/
theorem tidy_of_duplicateIf {b : Bool} {pid : Nat} (h : Inv slack 0 s) (h₁ : Structured s₁)
    (hsrc : src_page < PAGE_COUNT) (hms : Mapped s (some pid) src_page)
    (hms₁ : Mapped s₁ (some pid) src_page) (hpresent : (s.entry (some pid) src_page).present = true)
    (hsame : b = false → s₁ = s) (hd : b = true → Duplicated slack (some pid) src_page s s₁) :
    Tidy (fun _ => False) s s₁ := by
  rcases b with _ | _
  · obtain rfl := hsame rfl
    exact ⟨fun _ _ _ => rfl, fun q page f hname => Or.inr ⟨page, hname⟩, apart_refl _ _⟩
  have hd := hd rfl
  have hother : ∀ q page f, ¬(q = pid ∧ page = src_page) → names s₁ (.table q page) = some f →
      names s (.table q page) = some f := by
    intro q page f hne hname
    rwa [names_table_of_mapping (hd.other q page ?_)] at hname
    rintro ⟨hq, hpage⟩
    exact hne ⟨(Option.some.inj hq).symm, hpage⟩
  have hself : ∀ f, names s₁ (.table pid src_page) = some f →
    f = (s₁.entry (some pid) src_page).frame := by
    intro f hname
    rw [names, mapping_of_mapped h₁ hsrc hms₁] at hname
    split at hname
    · exact (Option.some.inj hname).symm
    · cases hname
  refine ⟨fun k _ hne => hd.kernel k hne (by simp), fun q page f hname => ?_,
    fun k f _ hzero hname q page htable => ?_⟩
  · rcases Classical.em (q = pid ∧ page = src_page) with ⟨rfl, rfl⟩ | hne
    · obtain ⟨f', hentry, hcase⟩ := hd.entry
      obtain rfl : f = f' := by rw [hself f hname, hentry, duplicated]
      rcases hcase with ⟨hf, -⟩ | ⟨hf, -⟩
      · refine Or.inr ⟨page, ?_⟩
        rw [names, mapping_of_mapped h.structured hsrc hms, if_pos hpresent, hf]
        rfl
      · exact Or.inl hf
    · exact Or.inr ⟨page, hother q page f hne hname⟩
  · obtain ⟨hunused, hne⟩ := hd.adds k hzero (kernel_ne_zero_of_names hname).2
    rw [frame_of_names h₁ hname] at hunused hne
    rcases Classical.em (q = pid ∧ page = src_page) with ⟨rfl, rfl⟩ | hout
    · exact hne (hself f htable)
    · rw [used_of_names h zero_nonneg (hother q page f hout htable)] at hunused
      cases hunused

theorem pageOpened_of_grows {b : Bool} (h₁ : Inv slack 0 s₁)
    (hkept : Kept slack s s₁) (hview : view s₁ = view s) (hsame : b = false → s₁ = s)
    (hd : b = true → Duplicated slack src_p src_page s s₁) (h : Inv slack 0 s)
    (hms₀ : Mapped s src_p src_page) (hb : b = (rw && !(s.entry src_p src_page).rw))
    (hsrc : src_page < PAGE_COUNT)
    (hdst : dst_page < KERNEL_PAGE) (hms : Mapped s₁ src_p src_page)
    (hmd : Mapped s₁ none dst_page) (hw : Writable s₁ none dst_page)
    (hpresent : (s.entry src_p src_page).present = true)
    (huser : (s.entry src_p src_page).user = true) (h' : Inv slack 0 s')
    (hg : KernelGrows (s₁.setEntry none dst_page (remoteEntry rw false (s₁.entry src_p src_page)))
      s')
    (ha : Adds (fun _ => False)
      (s₁.setEntry none dst_page (remoteEntry rw false (s₁.entry src_p src_page))) s') :
    PageOpened slack src_p rw dst_page src_page s s' := by
  obtain ⟨huser₁, hpresent₁, hrw₁⟩ := entry_of_duplicateIf hsame hd
  rw [hpresent] at hpresent₁
  have hne : remoteEntry rw false (s₁.entry src_p src_page) ≠ .zero :=
    ne_zero_of_present (e := remoteEntry rw false (s₁.entry src_p src_page)) hpresent₁
  have hkernel : ∀ page, page ≠ dst_page →
      (s₁.setEntry none dst_page (remoteEntry rw false (s₁.entry src_p src_page))).kernel page =
        s₁.kernel page := fun page hpage => Function.update_of_ne hpage _ _
  have hself : (s₁.setEntry none dst_page
      (remoteEntry rw false (s₁.entry src_p src_page))).kernel dst_page =
        remoteEntry rw false (s₁.entry src_p src_page) := Function.update_self ..
  refine ⟨hkept.trans ⟨h', (extends_setEntry hw hne).trans hg.toGrows.extends, fun hs => ?_⟩,
    hpresent,
    ?_, fun page hpage hdst' hsrc' => ?_, fun q page hpage => ?_, ?_, fun hdirect => ?_,
      fun hp => ?_⟩
  · exact private_mapEntry h₁ (kernel_lt hdst) hsrc hmd hms hpresent₁ hg (Or.inl rfl) hs
  · rw [view_of_grows hg.toGrows, ← hview]
    rfl
  · have hold := kernel_of_duplicateIf hsame hd hpage hsrc'
    rw [hg.kernel page (by rw [hkernel page hdst', hold]; exact hpage), hkernel page hdst', hold]
  · have hold := mapping_of_duplicateIf hsame hd hpage
    rw [hg.mapping, ← hold]
    rfl
  · rintro pid rfl
    refine ⟨s₁.entry (some pid) src_page, ?_, huser₁.trans huser, fun hrw => ?_, ?_⟩
    · rw [hg.mapping]
      exact (mapping_of_mapped h₁.structured hsrc hms).trans (if_pos hpresent₁)
    · rcases hold : (s.entry (some pid) src_page).rw with _ | _
      · exact hrw₁ (by rw [hb, hrw, hold]; rfl)
      · rw [hsame (by rw [hb, hold, Bool.not_true, Bool.and_false])]
        exact hold
    · rw [hg.kernel dst_page (by rw [hself]; exact hne), hself]
  · have hfalse : b = false := by
      rw [hb]
      rcases rw with _ | _
      · rfl
      · rw [hdirect rfl]
        rfl
    obtain rfl := hsame hfalse
    refine fun pid =>
      ⟨hg.memory, fun q page => hg.mapping q page, fun q _ => by rw [hg.process]; rfl,
      fun f hf => hg.used f (by rwa [used_setEntry]), fun page hpage hne' => ?_, fun r k hr => ?_,
      fun r k hr => ?_, fun page hpage hzero hne' => ?_⟩
    · rw [hg.kernel page (by rwa [hkernel page hpage]), hkernel page hpage]
    · exact hg.homes r k (by rwa [home_setEntry])
    · rcases hg.fresh r k hr with hr | hzero
      · rw [home_setEntry] at hr
        exact Or.inl hr
      · have hk : k ≠ dst_page := by
          rintro rfl
          rw [hself] at hzero
          exact hne hzero
        rw [hkernel k hk] at hzero
        exact Or.inr hzero
    · have hpage' : page ≠ dst_page := fun heq => hpage (Or.inl heq)
      have := ha page nofun (by rw [hkernel page hpage']; exact hzero) hne'
      rwa [used_setEntry] at this
  · obtain ⟨pid, rfl⟩ := Option.ne_none_iff_exists'.mp hp
    have htidy := tidy_of_duplicateIf h h₁.structured hsrc hms₀ hms hpresent hsame hd
    have hmapping : ∀ q page, mapping s' q page = mapping s₁ q page :=
      fun q page => hg.mapping q page
    have hold : ∀ k, k ≠ dst_page → s₁.kernel k ≠ .zero → s'.kernel k = s₁.kernel k := by
      intro k hk hne'
      rw [hg.kernel k (by rwa [hkernel k hk]), hkernel k hk]
    refine ⟨fun k hk hne' => ?_, fun q page f hname => ?_,
      fun k f hk hzero hname q page htable => ?_⟩
    · have heq := htidy.kernel k nofun hne'
      rw [hold k hk (by rwa [heq]), heq]
    · rw [names_table_of_mapping (hmapping q page)] at hname
      exact htidy.tables q page f hname
    · rw [names_table_of_mapping (hmapping q page)] at htable
      rcases Classical.em (s₁.kernel k = .zero) with hzero₁ | hne₁
      · have hunused :=
          ha k nofun (by rw [hkernel k hk]; exact hzero₁) (kernel_ne_zero_of_names hname).2
        rw [frame_of_names h'.structured hname, used_setEntry,
          used_of_names h₁ zero_nonneg htable] at hunused
        cases hunused
      · have hname₁ := names_of_kernel_eq h₁.structured h'.structured (hold k hk hne₁) hname
        exact htidy.apart k f nofun hzero hname₁ q page htable

theorem duplicate_of_accepted {e : PagingEntry} (hpresent : e.present = true)
    (hok : rejects rw e = false)
    (hb : (rw && !e.rw) = true) :
    e.present = true ∧ e.rw = false ∧ e.avail = PAGING_AVAIL_PRESENT_ON_WRITE_DUPLICATE := by
  simp only [rejects, hpresent, Bool.not_true, Bool.false_and, Bool.true_and, Bool.false_or,
    Bool.and_eq_false_iff, Bool.not_eq_false', bne_eq_false_iff_eq] at hok
  simp only [Bool.and_eq_true, Bool.not_eq_true'] at hb
  rcases hok with (hok | hok) | hok
  · rw [hb.1] at hok
    cases hok
  · rw [hb.2] at hok
    cases hok
  · exact ⟨hpresent, hb.2, hok⟩

theorem mapUserPage_spec (h : Inv slack 0 s) (hdst : dst_page < KERNEL_PAGE)
    (hsrc : src_page < PAGE_COUNT) (hmd : Mapped s none dst_page) (hms : Mapped s src_p src_page)
    (hw : Writable s none dst_page) (hreserved : (s.kernel dst_page).isReserved = true)
    (huser : (s.entry src_p src_page).user = true)
    (hok : rejects rw (s.entry src_p src_page) = false) :
    Steps (mapUserPage src_p rw dst_page src_page (s.entry src_p src_page)) s fun _ s' =>
      PageOpened slack src_p rw dst_page src_page s s' := by
  obtain ⟨hne, hnone⟩ := reserved_spec hreserved
  rw [mapUserPage]
  refine steps_requirePresent_bind fun hpresent => ?_
  refine (duplicateIf_spec h hsrc hms (duplicate_of_accepted hpresent hok)).bind ?_
  rintro _ s₁ ⟨hkept, hview, hsame, hd⟩
  have h₁ := hkept.inv
  have hmd₁ := hkept.extends'.mapped _ _ hmd
  have hms₁ := hkept.extends'.mapped _ _ hms
  have hw₁ : Writable s₁ none dst_page := writable_of_extends hw hne hkept.extends'
  have hnone₁ := named_of_duplicateIf (p := none) h.structured h₁.structured (kernel_lt hdst) hmd
    hmd₁ hne hnone hpresent hsame hd
  have hpresent₁ := present_of_duplicateIf hpresent hsame hd
  refine yields_ok_bind (h₁.structured.loadEntry_ok hsrc hms₁) ?_
  refine yields_ok_bind (h₁.structured.storeEntry_ok (kernel_lt hdst) hmd₁ _) ?_
  have hinv := h₁.setEntry (kernel_lt hdst) hmd₁ hw₁
    (remoteEntry rw false (s₁.entry src_p src_page))
  have hnew : named (remoteEntry rw false (s₁.entry src_p src_page)) =
      some (s₁.entry src_p src_page).frame := if_pos hpresent₁
  rw [hnone₁, hnew, due_none, add_zero] at hinv
  have hused := used_of_entry h₁ zero_nonneg hsrc hms₁ hpresent₁
  refine ((physMemAddRefPage_spec hinv (by rw [used_setEntry]; exact hused)).and
    (physMemAddRefPage_adds (fun _ => False) hinv _)).bind ?_
  rintro _ s' ⟨⟨-, h', hg⟩, ha⟩
  rw [sub_add_cancel] at h'
  exact yields_pure (pageOpened_of_grows h₁ hkept hview hsame hd h hms rfl hsrc hdst hms₁ hmd₁ hw₁
    hpresent huser h' hg ha)

end

section

variable {slack : Nat → Nat} {s₀ s s' : Machine} {src_p : Option Nat} {rw : Bool}
  {total dst_addr src_addr n pid page : Nat}

/-- No page which the user can access has to be duplicated. -/
def Plain (s : Machine) (pid : Nat) (rw : Bool) : Prop :=
  rw = true → ∀ page e, mapping s pid page = some e → e.user = true → e.rw = true

theorem Plain.of_mapping (h : Plain s pid rw) (hmapping : ∀ page, mapping s' pid page =
    mapping s pid page) : Plain s' pid rw := by
  intro hrw page e he
  rw [hmapping] at he
  exact h hrw page e he

/-- The first `n` pages are mapped. -/
structure Opening (slack : Nat → Nat) (src_p : Option Nat) (rw : Bool)
    (total dst_addr src_addr : Nat) (s₀ : Machine) (n : Nat) (s : Machine) : Prop
    extends Kept slack s₀ s where
  views : view s = view s₀
  kernel : src_p ≠ none → ∀ page, ¬Span total dst_addr page → s₀.kernel page ≠ .zero →
    s.kernel page = s₀.kernel page
  opened : ∀ pid, src_p = some pid → ∀ j, j < n →
    Open s pid rw (pageOf dst_addr + j) ((pageOf src_addr + j) % PAGE_COUNT)
  quiet : ∀ pid, src_p = some pid → Plain s₀ pid rw → Quiet pid (Span total dst_addr) s₀ s

theorem present_of_mapping {e : PagingEntry} (he : mapping s pid page = some e) :
    e.present = true := by
  rw [mapping] at he
  split at he
  · rename_i hall
    cases he
    exact hall.2.2.2
  · cases he

theorem Open.kernel_ne_zero {dst_page src_page : Nat} (h : Open s pid rw dst_page src_page) :
    s.kernel dst_page ≠ .zero := by
  obtain ⟨e, he, -, -, hentry⟩ := h.entry
  have hpresent := present_of_mapping he
  rw [hentry]
  exact ne_zero_of_present (e := remoteEntry rw false e) hpresent

theorem Opening.of_grows (h : Opening slack src_p rw total dst_addr src_addr s₀ n s)
    (h' : Inv slack 0 s') (hg : Grows s s') (haside : ∀ pid, src_p = some pid → Aside pid s s')
    (harea : ∀ page, Span total dst_addr page → ¬Owned s' page) :
    Opening slack src_p rw total dst_addr src_addr s₀ n s' := by
  refine ⟨h.toKept.trans (kept_of_grows h.inv h' hg), (view_of_grows hg).trans h.views,
    fun hp page hpage hne => ?_, fun pid hp j hj => ?_, fun pid hp hplain => ?_⟩
  · have hkernel := h.kernel hp page hpage hne
    rw [hg.kernel page (by rwa [hkernel]), hkernel]
  · have hopen := h.opened pid hp j hj
    exact hopen.mono (hg.mapping _ _) (hg.kernel _ hopen.kernel_ne_zero)
  · exact (h.quiet pid hp hplain).trans (quiet_of_grows hg (haside pid hp)) harea

theorem span_add (hend : pageOf dst_addr + total ≤ KERNEL_PAGE) {j : Nat} (hj : j < total) :
    Span total dst_addr (pageOf dst_addr + j) := by
  refine (span_iff ?_).mpr ⟨by omega, by omega⟩
  simp only [KERNEL_PAGE, PAGE_COUNT] at *
  omega

theorem Opening.next (h : Opening slack src_p rw total dst_addr src_addr s₀ n s)
    (hend : pageOf dst_addr + total ≤ KERNEL_PAGE) (hn : n < total)
    (hs' : PageOpened slack src_p rw (pageOf dst_addr + n)
      ((pageOf src_addr + n) % PAGE_COUNT) s s')
    (hdirect : ∀ pid, src_p = some pid → Plain s pid rw →
      rw = true → (s.entry src_p ((pageOf src_addr + n) % PAGE_COUNT)).rw = true)
    (harea : ∀ page, Span total dst_addr page → ¬Owned s' page) :
    Opening slack src_p rw total dst_addr src_addr s₀ (n + 1) s' := by
  refine ⟨h.toKept.trans hs'.toKept, hs'.views.trans h.views, fun hp page hpage hne => ?_,
    fun pid hp j hj => ?_, fun pid hp hplain => ?_⟩
  · have hkernel := h.kernel hp page hpage hne
    have hne' : page ≠ pageOf dst_addr + n := by
      rintro rfl
      exact hpage (span_add hend hn)
    rw [hs'.kernel page (by rwa [hkernel]) hne' fun h => hp h.1, hkernel]
  · rcases Nat.lt_succ_iff_lt_or_eq.mp hj with hj | rfl
    · have hopen := h.opened pid hp j hj
      refine hopen.mono (hs'.others pid _ fun heq => ?_)
        (hs'.kernel _ hopen.kernel_ne_zero (by omega) fun h => by rw [hp] at h; cases h.1)
      have := heq.2
      simp only [KERNEL_PAGE, PAGE_COUNT] at *
      omega
    · exact hs'.opened pid hp
  · have hquiet := h.quiet pid hp hplain
    have hplain' : Plain s pid rw := hplain.of_mapping fun page => hquiet.mapping pid page
    refine hquiet.trans ((hs'.direct (hdirect pid hp hplain') pid).mono ?_) harea
    rintro page rfl
    exact span_add hend hn

end

section

variable {slack : Nat → Nat} {s₀ s s' : Machine} {src_p : Option Nat} {rw : Bool}
  {total dst_addr src_addr n pid page length : Nat}

/-- The user can access a page of its own. -/
def Accessible (s : Machine) (pid : Nat) (rw : Bool) (page : Nat) : Prop :=
  ∃ contents w, view s pid page = some (contents, w) ∧ (rw = true → w = true)

/-- All pages are unmapped again, for the reason that the user cannot access one of them. -/
structure Refused (slack : Nat → Nat) (src_p : Option Nat) (rw : Bool)
    (total dst_addr src_addr : Nat) (s₀ s' : Machine) : Prop where
  inv : Inv slack 0 s'
  priv : Private s₀ → Private s'
  views : view s' = view s₀
  kernel : src_p ≠ none → ∀ page, ¬Span total dst_addr page → s₀.kernel page ≠ .zero →
    s'.kernel page = s₀.kernel page
  clear : ∀ page, Span total dst_addr page → s'.kernel page = .zero
  quiet : ∀ pid, src_p = some pid → Plain s₀ pid rw →
    ∃ s₁, Quiet pid (Span total dst_addr) s₀ s₁ ∧ Released (Span total dst_addr) s₁ s'
  reason : ∀ pid, src_p = some pid →
    ∃ j, j < total ∧ ¬Accessible s₀ pid rw ((pageOf src_addr + j) % PAGE_COUNT)

theorem view_of_released {pages : Nat → Prop} (hr : Released pages s s') : view s' = view s :=
  view_of_mapping (mapping_of_process hr.process) hr.memory

/-- Whether they are mapped or still reserved, all pages of the area are released. -/
theorem invalid_released (h : Inv slack 0 s) (haddr : dst_addr < 2 ^ 32)
    (hend : pageOf dst_addr + total ≤ KERNEL_PAGE) (hn : n + (length + 1) = total)
    (ha : Area s none total dst_addr) :
    Steps (userLoop.invalid dst_addr length ((dst_addr + n * PAGE_SIZE) % 2 ^ 32)) s fun r s' =>
      r = false ∧ Inv slack 0 s' ∧ Released (Span total dst_addr) s s' ∧
        ∀ page, Span total dst_addr page → s'.kernel page = .zero := by
  have hpages : ∀ page, Span total dst_addr page → page < KERNEL_PAGE ∧ ¬Owned s page :=
    fun page hpage => ⟨(ha rfl page hpage).1, (ha rfl page hpage).2.2⟩
  have hlength : ((dst_addr + n * PAGE_SIZE) % 2 ^ 32 + 2 ^ 32 - dst_addr) % 2 ^ 32 / PAGE_SIZE +
      (length + 1) = total := by
    rw [length_of_add haddr]
    · exact hn
    · simp only [KERNEL_PAGE, PAGE_COUNT] at *
      omega
  rw [userLoop.invalid, hlength]
  refine ((pagingReleasePhysMem_kernel h zero_nonneg hpages).and
    (pagingReleasePhysMem_clears h zero_nonneg hpages)).bind ?_
  rintro _ s' ⟨⟨h', hr⟩, hclear⟩
  exact yields_pure ⟨rfl, h', hr, hclear⟩

theorem invalid_spec (h : Opening slack src_p rw total dst_addr src_addr s₀ n s)
    (haddr : dst_addr < 2 ^ 32) (hend : pageOf dst_addr + total ≤ KERNEL_PAGE)
    (hn : n + (length + 1) = total) (ha : Area s none total dst_addr)
    (hreason : ∀ pid, src_p = some pid →
      ¬Accessible s pid rw ((pageOf src_addr + n) % PAGE_COUNT)) :
    Steps (userLoop.invalid dst_addr length ((dst_addr + n * PAGE_SIZE) % 2 ^ 32)) s fun r s' =>
      r = false ∧ Refused slack src_p rw total dst_addr src_addr s₀ s' := by
  refine (invalid_released h.inv haddr hend hn ha).mono ?_
  rintro _ s' ⟨rfl, h', hr, hclear⟩
  refine ⟨rfl, h', fun hs => (h.priv hs).of_released hr, (view_of_released hr).trans h.views,
    fun hp page hpage hne => ?_, hclear, ?_, ?_⟩
  · rw [hr.kernel page hpage, h.kernel hp page hpage hne]
  · exact fun pid hp hplain => ⟨s, h.quiet pid hp hplain, hr⟩
  · refine fun pid hp => ⟨n, by omega, ?_⟩
    rw [Accessible, ← h.views]
    exact hreason pid hp

theorem not_accessible_of_none (hnone : view s pid page = none) : ¬Accessible s pid rw page := by
  rintro ⟨contents, w, hview, -⟩
  rw [hnone] at hview
  cases hview

/-- A page which is rejected is not accessible in the way which is asked for. -/
theorem not_accessible_of_rejects (h : Structured s) (hpage : page < PAGE_COUNT)
    (hm : Mapped s (some pid) page)
    (hrejects : rejects rw (s.entry (some pid) page) = true) : ¬Accessible s pid rw page := by
  rcases hpresent : (s.entry (some pid) page).present with _ | _
  · exact not_accessible_of_none (view_eq_none_of_mapped h hpage hm (Or.inl hpresent))
  · rcases huser : (s.entry (some pid) page).user with _ | _
    · exact not_accessible_of_none (view_eq_none_of_mapped h hpage hm (Or.inr huser))
    · rintro ⟨contents, w, hview, hw⟩
      rw [view_of_mapped h hpage hm hpresent huser, Option.some.injEq, Prod.mk.injEq] at hview
      simp only [rejects, hpresent, Bool.not_true, Bool.false_and, Bool.true_and, Bool.false_or,
        Bool.and_eq_true, Bool.not_eq_true', bne_iff_ne] at hrejects
      obtain ⟨⟨hrw, hro⟩, havail⟩ := hrejects
      have hwrite := hview.2
      rw [hw hrw, hro, Bool.false_or, beq_iff_eq] at hwrite
      exact havail hwrite

end

section

variable {slack : Nat → Nat} {s₀ s s' : Machine} {src_p : Option Nat} {rw : Bool}
  {total dst_addr src_addr n pid page length : Nat}

theorem getPagingEntry_aside (h : Inv slack 0 s) (hpage : page < PAGE_COUNT) (p : Option Nat)
    (alloc : Bool) :
    Steps (getPagingEntry p page alloc) s fun _ s' => ∀ pid, p = some pid → Aside pid s s' := by
  rcases p with _ | q
  · exact (getKernelEntry_spec h hpage alloc).mono fun _ _ _ => nofun
  · refine (getProcessEntry_aside h zero_nonneg hpage alloc).mono fun _ s' hs' pid hp => ?_
    cases hp
    exact hs'

theorem pageOf_src :
    pageOf ((src_addr + n * PAGE_SIZE) % 2 ^ 32) = (pageOf src_addr + n) % PAGE_COUNT := by
  unfold pageOf
  simp only [PAGE_SIZE, PAGE_COUNT]
  omega

theorem userLoop_spec (h : Opening slack src_p rw total dst_addr src_addr s₀ n s)
    (haddr : dst_addr < 2 ^ 32) (hend : pageOf dst_addr + total ≤ KERNEL_PAGE)
    (hn : n + length = total) (ha : Area s none total dst_addr) :
    Steps (userLoop src_p rw dst_addr length ((dst_addr + n * PAGE_SIZE) % 2 ^ 32)
      ((src_addr + n * PAGE_SIZE) % 2 ^ 32)) s fun r s' =>
        (r = true → Opening slack src_p rw total dst_addr src_addr s₀ total s' ∧
          Area s' none total dst_addr) ∧
          (r = false → Refused slack src_p rw total dst_addr src_addr s₀ s') := by
  induction length generalizing s n with
  | zero =>
      rw [Nat.add_zero] at hn
      rw [← hn]
      rw [← hn] at h
      exact yields_pure ⟨fun _ => ⟨h, by rwa [hn]⟩, by simp⟩
  | succ length ih =>
      have hlt : n < total := by omega
      have hdst : pageOf ((dst_addr + n * PAGE_SIZE) % 2 ^ 32) = pageOf dst_addr + n := by
        refine pageOf_add ?_
        simp only [KERNEL_PAGE, PAGE_COUNT] at *
        omega
      have hsrc : pageOf ((src_addr + n * PAGE_SIZE) % 2 ^ 32) =
          (pageOf src_addr + n) % PAGE_COUNT := pageOf_src
      have hsrc_lt : (pageOf src_addr + n) % PAGE_COUNT < PAGE_COUNT := Nat.mod_lt _ (by decide)
      -- wherever the loop stops, the user could not access the page
      have hstop : ∀ {s₁}, Opening slack src_p rw total dst_addr src_addr s₀ n s₁ →
          Area s₁ none total dst_addr → (∀ pid, src_p = some pid →
            ¬Accessible s₁ pid rw ((pageOf src_addr + n) % PAGE_COUNT)) →
          Steps (userLoop.invalid dst_addr length ((dst_addr + n * PAGE_SIZE) % 2 ^ 32)) s₁
            fun r s' => (r = true → Opening slack src_p rw total dst_addr src_addr s₀ total s' ∧
              Area s' none total dst_addr) ∧
              (r = false → Refused slack src_p rw total dst_addr src_addr s₀ s') := by
        intro s₁ ho₁ ha₁ hreason
        refine (invalid_spec ho₁ haddr hend hn ha₁ hreason).mono ?_
        rintro _ s' ⟨rfl, hrefused⟩
        exact ⟨by simp, fun _ => hrefused⟩
      rw [userLoop, hdst, hsrc]
      refine ((getPagingEntry_none h.inv zero_nonneg hsrc_lt src_p).and
        (getPagingEntry_aside h.inv hsrc_lt src_p false)).bind ?_
      rintro r s₁ ⟨⟨h₁, hg₁, hmapped, hnone⟩, haside⟩
      have ha₁ := ha.mono hg₁.extends
      have ho₁ := h.of_grows h₁ hg₁ haside fun page hpage => (ha₁ rfl page hpage).2.2
      refine yields_ite (fun hr => ?_) fun hr => hstop ho₁ ha₁ fun pid hp => ?_
      swap
      · refine not_accessible_of_none ?_
        rw [view_of_grows hg₁, view, hnone (by simpa using hr) pid hp]
        rfl
      have hms := hmapped hr
      refine yields_ok_bind (h₁.structured.loadEntry_ok hsrc_lt hms) ?_
      refine yields_ite (fun hbad => hstop ho₁ ha₁ ?_) fun hgood => ?_
      · rintro pid rfl
        refine not_accessible_of_none (view_eq_none_of_mapped h₁.structured hsrc_lt hms ?_)
        rcases hbad with hzero | huser
        · rw [hzero]
          exact Or.inl rfl
        · exact Or.inr huser
      have huser : (s₁.entry src_p ((pageOf src_addr + n) % PAGE_COUNT)).user = true := by
        simpa using fun huser => hgood (Or.inr huser)
      have hdst_lt : pageOf dst_addr + n < KERNEL_PAGE := by omega
      refine ((getKernelEntry_spec h₁ (kernel_lt hdst_lt) true).and
        (getKernelEntry_adds (fun _ => False) h₁ _ true)).bind ?_
      rintro r' s₂ ⟨⟨h₂, hg₂, -, hmapped', hr', -⟩, hadds⟩
      have hmd := hmapped' (hr' rfl)
      have ha₂ := ha₁.mono hg₂.toGrows.extends
      have ho₂ := ho₁.of_grows h₂ hg₂.toGrows
        (fun pid _ => ⟨fun q _ => by rw [hg₂.process], hadds.mono (by simp)⟩)
        fun page hpage => (ha₂ rfl page hpage).2.2
      have hms₂ := hg₂.toGrows.extends.mapped _ _ hms
      refine yields_ok_bind (h₂.structured.loadEntry_ok (kernel_lt hdst_lt) hmd) ?_
      refine steps_check_bind fun hreserved => ?_
      have hentry : s₂.entry src_p ((pageOf src_addr + n) % PAGE_COUNT) =
          s₁.entry src_p ((pageOf src_addr + n) % PAGE_COUNT) := by
        refine entry_of_process (fun _ => hg₂.kernel _) hg₂.process fun hzero => ?_
        exact hgood (Or.inl hzero)
      rw [← hentry] at huser ⊢
      refine yields_ite (fun hrejects => hstop ho₂ ha₂ ?_) fun hok => ?_
      · rintro pid rfl
        exact not_accessible_of_rejects h₂.structured hsrc_lt hms₂ hrejects
      have hw : Writable s₂ none (pageOf dst_addr + n) :=
        ⟨hdst_lt, (ha₂ rfl _ (span_add hend hlt)).2.2⟩
      refine (mapUserPage_spec h₂ hdst_lt hsrc_lt hmd hms₂ hw hreserved huser
        (by simpa using hok)).bind ?_
      intro _ s₃ hs₃
      have ha₃ := ha₂.mono hs₃.extends'
      rw [nextPage_add, nextPage_add]
      refine ih (ho₂.next hend hlt hs₃ ?_ fun page hpage => (ha₃ rfl page hpage).2.2) (by omega) ha₃
      rintro pid rfl hplain hrw
      refine hplain hrw ((pageOf src_addr + n) % PAGE_COUNT) _ ?_ huser
      rw [mapping_of_mapped h₂.structured hsrc_lt hms₂, if_pos hs₃.present]

end

section

variable {slack : Nat → Nat} {s₀ s s' : Machine} {src_p : Option Nat} {rw : Bool}
  {total dst_addr src_addr pid page length : Nat}

/-- An area which was not in use before is mapped or it is unused again. -/
structure Attempted (slack : Nat → Nat) (src_p : Option Nat) (rw : Bool) (total src_addr : Nat)
    (s : Machine) (dst_addr : Nat) (r : Bool) (s' : Machine) : Prop where
  aligned : dst_addr % PAGE_SIZE = 0
  bound : dst_addr < 2 ^ 32
  pos : 1 ≤ pageOf dst_addr
  fits : pageOf dst_addr + total ≤ KERNEL_PAGE
  unused : ∀ page, Span total dst_addr page → s.kernel page = .zero
  success : r = true → Opening slack src_p rw total dst_addr src_addr s total s' ∧
    Area s' none total dst_addr
  failure : r = false → Refused slack src_p rw total dst_addr src_addr s s'

theorem opening_reserved (src_p : Option Nat) (rw : Bool) (src_addr : Nat) {user : Bool}
    (h : Inv slack 0 s)
    (hend : pageOf dst_addr + total ≤ KERNEL_PAGE) :
    Steps (pagingReserveArea none user total dst_addr) s fun _ s' =>
      Opening slack src_p rw total dst_addr src_addr s 0 s' ∧ Area s' none total dst_addr := by
  refine ((pagingReserveArea_spec (p := none) h fun _ => hend).and
    (pagingReserveArea_kernel h hend)).mono ?_
  rintro _ s' ⟨⟨hkept, harea⟩, hg, ha⟩
  exact ⟨⟨hkept, view_of_grows hg.toGrows, fun _ page _ hne => hg.kernel page hne,
    fun _ _ _ hj => absurd hj (Nat.not_lt_zero _),
    fun _ _ _ => quiet_of_kernelGrows hg ha⟩, harea⟩

theorem pagingTryMapUserMem_spec (h : Inv slack 0 s) (src_p : Option Nat)
    (hsrc : src_addr < 2 ^ 32) (length : Nat) (rw : Bool) :
    Steps (pagingTryMapUserMem src_p src_addr length rw) s fun r s' =>
      ∃ dst_addr, Attempted slack src_p rw length src_addr s dst_addr r.isSome s' ∧
        ∀ addr, r = some addr → addr = (dst_addr ||| src_addr % PAGE_SIZE) := by
  rw [pagingTryMapUserMem]
  refine (pagingSearchArea_spec h zero_nonneg none length).bind ?_
  rintro dst_addr s₁ ⟨-, -, hsame, hbounds⟩
  obtain rfl := hsame rfl
  obtain ⟨start, hstart, hone, hlt, hcase⟩ := hbounds rfl
  have hpage : pageOf dst_addr = start := by
    rw [hstart, pageOf_mul (kernel_lt hlt)]
  rcases hcase with ⟨hend, hzero⟩ | hover
  · have hend' : pageOf dst_addr + length ≤ KERNEL_PAGE := by rwa [hpage]
    have haddr : dst_addr < 2 ^ 32 := by
      simp only [KERNEL_PAGE, PAGE_SIZE] at *
      omega
    refine (opening_reserved src_p rw src_addr h hend').bind ?_
    rintro _ s₂ ⟨ho, ha⟩
    have hloop := userLoop_spec ho haddr hend' (Nat.zero_add length) ha
    rw [Nat.zero_mul, Nat.add_zero, Nat.add_zero, Nat.mod_eq_of_lt haddr,
      Nat.mod_eq_of_lt hsrc] at hloop
    refine hloop.bind ?_
    rintro r s' ⟨hsuccess, hfailure⟩
    have hunused : ∀ page, Span length dst_addr page → s₁.kernel page = .zero := by
      intro page hspan
      have hle : pageOf dst_addr + length ≤ PAGE_COUNT := by
        simp only [KERNEL_PAGE, PAGE_COUNT] at *
        omega
      rw [span_iff hle, hpage] at hspan
      exact hzero page hspan.1 hspan.2
    refine yields_pure ⟨dst_addr, ⟨?_, haddr, by omega, hend', hunused, ?_, ?_⟩, ?_⟩
    · rw [hstart, Nat.mul_mod_left]
    · rcases r with _ | _
      · simp
      · exact fun _ => hsuccess rfl
    · rcases r with _ | _
      · exact fun _ => hfailure rfl
      · simp
    · rcases r with _ | _
      · simp
      · intro addr haddr
        exact (Option.some.inj haddr).symm
  · refine (pagingReserveArea_overrun (Or.inl ⟨⟨0, h⟩, by rwa [hpage]⟩) ?_ ?_).bind fun _ _ =>
      False.elim
    · simp only [KERNEL_PAGE, KERNEL_DIR] at *
      omega
    · simp only [KERNEL_DIR] at *
      omega

end

section

variable {slack : Nat → Nat} {s s' : Machine} {rw : Bool}
  {dst_addr src_addr byte_length pid page length : Nat}

/-- Every byte of a buffer is in a page of the process which it can access, and the kernel sees
this page at the same distance from the start of its own mapping. -/
structure Covered (s s' : Machine) (pid : Nat) (rw : Bool) (src_addr byte_length : Nat)
    (k : Paging.UserMemory) : Prop where
  fits : src_addr % PAGE_SIZE + byte_length ≤ k.length * PAGE_SIZE
  accessible : ∀ i, i < byte_length → Accessible s pid rw (pageOf (src_addr + i))
  mapped : ∃ addr, k.addr = some addr ∧ ∀ i, i < byte_length →
    Open s' pid rw (pageOf (addr + i)) (pageOf (src_addr + i))

theorem Open.accessible {dst_page src_page : Nat} (h : Open s' pid rw dst_page src_page)
    (hview : view s' = view s) : Accessible s pid rw src_page := by
  obtain ⟨e, he, huser, hrw, -⟩ := h.entry
  refine ⟨s'.memory e.frame, e.rw || e.avail == PAGING_AVAIL_PRESENT_ON_WRITE_DUPLICATE, ?_,
    fun hw => ?_⟩
  · rw [← hview, view, he, Option.bind_some, if_pos huser]
  · rw [hrw hw, Bool.true_or]

theorem or_offset (haligned : dst_addr % PAGE_SIZE = 0) (offset : Nat) :
    (dst_addr ||| offset % PAGE_SIZE) = dst_addr + offset % PAGE_SIZE := by
  have hlt : offset % 2 ^ 12 < 2 ^ 12 := Nat.mod_lt _ (by decide)
  have hdst : dst_addr = 2 ^ 12 * (dst_addr / 2 ^ 12) := by
    simp only [PAGE_SIZE] at haligned
    omega
  have := Nat.two_pow_add_eq_or_of_lt hlt (dst_addr / 2 ^ 12)
  rw [← hdst] at this
  exact this.symm

/-- The byte `i` of a buffer is in the page `j` of it. -/
theorem pageOf_byte {addr i : Nat} : pageOf (addr + i) =
    (pageOf addr + (addr % PAGE_SIZE + i) / PAGE_SIZE) % PAGE_COUNT := by
  unfold pageOf
  simp only [PAGE_SIZE, PAGE_COUNT]
  omega

theorem Opening.byte {i : Nat}
    (h : Opening slack (some pid) rw length dst_addr src_addr s length s')
    (haligned : dst_addr % PAGE_SIZE = 0) (hend : pageOf dst_addr + length ≤ KERNEL_PAGE)
    (hi : src_addr % PAGE_SIZE + i < length * PAGE_SIZE) :
    Open s' pid rw (pageOf ((dst_addr ||| src_addr % PAGE_SIZE) + i)) (pageOf (src_addr + i)) ∧
      pageOf ((dst_addr ||| src_addr % PAGE_SIZE) + i) < KERNEL_PAGE := by
  have hj : (src_addr % PAGE_SIZE + i) / PAGE_SIZE < length := by
    refine Nat.div_lt_of_lt_mul ?_
    rwa [Nat.mul_comm]
  have hdst : pageOf ((dst_addr ||| src_addr % PAGE_SIZE) + i) =
      pageOf dst_addr + (src_addr % PAGE_SIZE + i) / PAGE_SIZE := by
    rw [or_offset haligned, Nat.add_assoc, pageOf_byte, haligned, Nat.zero_add]
    refine Nat.mod_eq_of_lt ?_
    simp only [KERNEL_PAGE, PAGE_COUNT] at *
    omega
  rw [hdst, pageOf_byte]
  exact ⟨h.opened pid rfl _ hj, by omega⟩

theorem Opening.covered (h : Opening slack (some pid) rw length dst_addr src_addr s length s')
    (haligned : dst_addr % PAGE_SIZE = 0) (hend : pageOf dst_addr + length ≤ KERNEL_PAGE)
    (hfits : src_addr % PAGE_SIZE + byte_length ≤ length * PAGE_SIZE) :
    Covered s s' pid rw src_addr byte_length
      ⟨some (dst_addr ||| src_addr % PAGE_SIZE), length⟩ := by
  have hopen := fun i (hi : i < byte_length) => (h.byte haligned hend (i := i) (by omega)).1
  exact ⟨hfits, fun i hi => (hopen i hi).accessible h.views, _, rfl, hopen⟩

/-- The pages of a buffer are counted in 32 bits. -/
theorem accessUserMemory_covered (h : Inv slack 0 s) (pid : Nat) (hsrc : src_addr < 2 ^ 32)
    (hpos : 0 < byte_length) (rw : Bool) {k : Paging.UserMemory}
    (hok : accessUserMemory (some pid) src_addr byte_length rw s = .ok ((true, k), s')) :
    Covered s s' pid rw src_addr byte_length k ↔
      src_addr % PAGE_SIZE + byte_length + (PAGE_SIZE - 1) < 2 ^ 32 := by
  rw [accessUserMemory, if_neg hpos.ne'] at hok
  obtain ⟨r, s₁, hmap, hok⟩ := bind_ok.mp hok
  obtain ⟨dst_addr, ha, haddr⟩ := (pagingTryMapUserMem_spec h (some pid) hsrc _ rw).of_ok hmap
  rcases r with _ | addr
  · cases hok
  cases hok
  constructor
  · intro hcovered
    have hfits := hcovered.fits
    simp only [PAGE_SIZE] at *
    omega
  · intro hlt
    obtain ⟨ho, -⟩ := ha.success rfl
    rw [haddr addr rfl]
    refine ho.covered ha.aligned ha.fits ?_
    rw [Nat.mod_eq_of_lt hlt]
    simp only [PAGE_SIZE]
    omega

end

end Ibnos.UserMemory
