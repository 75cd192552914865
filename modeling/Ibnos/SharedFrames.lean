import Ibnos.BootPaging
import Ibnos.RemotePages

/-!
How often a frame can be shared. The reference count of a frame is a field of
seven bits, and nothing but a lack of memory stops the functions which change it
as long as the count stays within these bits.
-/

namespace Ibnos.SharedFrames

open Ibnos.Memory
open Ibnos.Physmem
open Ibnos.Paging
open Ibnos.Programs
open Ibnos.References
open Ibnos.KernelPages
open Ibnos.ProcessPages
open Ibnos.PagingOperations
open Ibnos.FrameSupply
open Ibnos.Tallies

section

/-! A frame with a record. -/

variable {slack : Nat → Nat} {P : Nat → ℤ} {s s' : Machine} {f r : Nat}

/-- The frame is in use with `r` references, and there is a table with its record. -/
structure Held (slack : Nat → Nat) (f r : Nat) (s : Machine) : Prop where
  inv : ∃ P, Inv slack P s
  enabled : s.pagingEnabled = true
  record : s.physMemExtra (f / PHYSMEMEXTRA_COUNT) ≠ none
  used : used s f = true
  refs : refs s f = r

/-- Everything but the result of the count. -/
theorem physMemAddRefPage_of_record {s₁ : Machine} (h₁ : Structured s₁) (hr : Recorded s₁)
    (hx : s₁.physMemExtra (f / PHYSMEMEXTRA_COUNT) ≠ none) (hused : used s₁ f = true)
    (hrecord : getPhysMemExtraInfo EXTRA_FUEL f true s = .ok (true, s₁)) :
    physMemAddRefPage f s =
      if refs s₁ f = 127 then .error .assertion
      else .ok (f, s₁.setInfo f
        { (s₁.extraInfo f).started with ref := refs s₁ f + 1 }) := by
  obtain ⟨-, href, hone, hlt⟩ := started_spec hr hused
  simp only [physMemAddRefPage, bind_apply, hrecord, check_ok rfl, h₁.loadInfo_ok hx,
    h₁.storeInfo_ok hx, href]
  rcases eq_or_ne (refs s₁ f) 127 with hfull | hfull
  · rw [hfull, if_pos rfl]
    rfl
  · have hmod : (refs s₁ f + 1) % 2 ^ 7 = refs s₁ f + 1 := by omega
    rw [hmod, check_ok (by simp), if_neg hfull]
    rfl

theorem Held.addRef (h : Held slack f r s) (hf : f < PAGE_COUNT) (hr : r ≤ 126) :
    ∃ s', physMemAddRefPage f s = .ok (f, s') ∧ Held slack f (r + 1) s' := by
  obtain ⟨P, hinv⟩ := h.inv
  have heq := physMemAddRefPage_of_record hinv.structured hinv.recorded h.record h.used
    (getPhysMemExtraInfo_present _ _ h.enabled hf h.record)
  obtain ⟨hpresent, -⟩ := started_spec hinv.recorded h.used
  rw [h.refs, if_neg (by omega)] at heq
  refine ⟨_, heq, ⟨⟨_, ((physMemAddRefPage_spec hinv h.used).of_ok heq).2.1⟩, h.enabled, h.record,
    h.used, ?_⟩⟩
  rw [refs_setInfo, if_pos rfl, if_pos h.used, if_neg]
  intro hzero
  have := congrArg PhysMemExtraInfo.present hzero
  rw [hpresent] at this
  cases this

theorem Held.addRef_full (h : Held slack f 127 s) (hf : f < PAGE_COUNT) :
    physMemAddRefPage f s = .error .assertion := by
  obtain ⟨P, hinv⟩ := h.inv
  rw [physMemAddRefPage_of_record hinv.structured hinv.recorded h.record h.used
    (getPhysMemExtraInfo_present _ _ h.enabled hf h.record), if_pos h.refs]

def repeated (m : M Nat) : Nat → M Unit
  | 0 => return ()
  | k + 1 => do
      let _ ← m
      repeated m k

theorem Held.addRefs (h : Held slack f r s) (hf : f < PAGE_COUNT) {k : Nat} (hle : r + k ≤ 127) :
    ∃ s', repeated (physMemAddRefPage f) k s = .ok ((), s') ∧ Held slack f (r + k) s' := by
  induction k generalizing r s with
  | zero => exact ⟨s, rfl, h⟩
  | succ k ih =>
      obtain ⟨s₁, heq, h₁⟩ := h.addRef hf (by omega)
      obtain ⟨s', heq', h'⟩ := ih h₁ (by omega)
      refine ⟨s', ?_, by rwa [Nat.add_right_comm, Nat.add_assoc] at h'⟩
      rw [repeated, bind_apply, heq]
      exact heq'

theorem Held.addRefs_full (h : Held slack f r s) (hf : f < PAGE_COUNT) {k : Nat} (hr : r ≤ 127)
    (hlt : 127 < r + k) : repeated (physMemAddRefPage f) k s = .error .assertion := by
  induction k generalizing r s with
  | zero => omega
  | succ k ih =>
      rw [repeated, bind_apply]
      rcases hr.lt_or_eq with hr | rfl
      · obtain ⟨s₁, heq, h₁⟩ := h.addRef hf (by omega)
        rw [heq]
        exact ih h₁ (by omega) (by omega)
      · rw [h.addRef_full hf]

/-- The frame has `r` references, which may be none. -/
structure Counts (f r : Nat) (s : Machine) : Prop where
  structured : Structured s
  recorded : Recorded s
  enabled : s.pagingEnabled = true
  refs : refs s f = r

theorem Held.counts (h : Held slack f r s) : Counts f r s := by
  obtain ⟨P, hinv⟩ := h.inv
  exact ⟨hinv.structured, hinv.recorded, h.enabled, h.refs⟩

theorem Counts.used_iff (h : Counts f r s) : used s f = true ↔ r ≠ 0 := by
  rw [← refs_pos_iff h.recorded, h.refs, Nat.one_le_iff_ne_zero]

theorem recorded_free (h : Recorded s) : Recorded ((s.setInfo f .zero).setBit f false) := by
  have hinfo : ((s.setInfo f .zero).setBit f false).extraInfo =
      Function.update s.extraInfo f .zero := rfl
  have hother : ∀ g, g ≠ f → Function.update s.extraInfo f .zero g = s.extraInfo g :=
    fun g hg => Function.update_of_ne hg _ _
  refine ⟨fun g hg => ?_, fun g hg => ?_, fun g hg => ?_⟩ <;> rw [hinfo] at * <;>
    rcases eq_or_ne g f with rfl | hgf
  · exact Function.update_self ..
  · rw [used_setBit, if_neg hgf] at hg
    exact (hother g hgf).trans (h.unused g hg)
  · exact Function.update_self ..
  · exact (hother g hgf).trans (h.missing g hg)
  · exact (hg (Function.update_self ..)).elim
  · rw [hother g hgf] at hg ⊢
    exact h.present g hg

theorem recorded_setInfo {info : PhysMemExtraInfo} (h : Recorded s)
    (hx : s.physMemExtra (f / PHYSMEMEXTRA_COUNT) ≠ none) (hused : used s f = true)
    (hinfo : info.present = true ∧ 1 ≤ info.ref ∧ info.ref < 2 ^ 7) :
    Recorded (s.setInfo f info) := by
  have hother : ∀ g, g ≠ f → Function.update s.extraInfo f info g = s.extraInfo g :=
    fun g hg => Function.update_of_ne hg _ _
  refine ⟨fun g hg => ?_, fun g hg => ?_, fun g hg => ?_⟩ <;>
    rcases eq_or_ne g f with rfl | hgf
  · rw [show used (s.setInfo g info) g = used s g from rfl, hused] at hg
    cases hg
  · exact (hother g hgf).trans (h.unused g hg)
  · exact (hx hg).elim
  · exact (hother g hgf).trans (h.missing g hg)
  · rw [show (s.setInfo g info).extraInfo g = info from Function.update_self ..]
    exact hinfo
  · rw [show (s.setInfo f info).extraInfo g = s.extraInfo g from hother g hgf] at hg ⊢
    exact h.present g hg

theorem Counts.free (h : Counts f r s) (hsame : SameTables s s')
    (hs' : s' = (s.setInfo f .zero).setBit f false) : Counts f 0 s' := by
  subst hs'
  refine ⟨hsame.structured h.structured, recorded_free h.recorded, h.enabled, ?_⟩
  exact refs_of_not_used (by rw [used_setBit, if_pos rfl])

theorem Counts.release (h : Counts f (r + 1) s) (hf : f < PAGE_COUNT) :
    ∃ s', physMemReleasePage f s = .ok (r, s') ∧ Counts f r s' := by
  have hused := h.used_iff.mpr (Nat.succ_ne_zero r)
  have hbit : check ((s.physMemMap (f / 32)).getLsbD (f % 32)) s = .ok ((), s) := check_ok hused
  have hrefs : refCount s f = r + 1 := by
    have := h.refs
    rwa [References.refs, if_pos hused] at this
  have hfree : s.extraInfo f = .zero →
      Counts f 0 (s.setBit f false) ∧ r = 0 := by
    intro hzero
    refine ⟨h.free (by constructor <;> rfl) ?_, ?_⟩
    · rw [Machine.setInfo, Function.update_eq_self_iff.mpr hzero.symm]
    · rw [refCount, if_pos hzero] at hrefs
      omega
  rcases hx : s.physMemExtra (f / PHYSMEMEXTRA_COUNT) with _ | k
  · obtain ⟨hcounts, rfl⟩ := hfree (h.recorded.missing f hx)
    refine ⟨_, ?_, hcounts⟩
    have hi := decide_eq_true (extra_index_lt hf)
    have hrecord : getPhysMemExtraInfo 0 f false s = .ok (false, s) := by
      rw [getPhysMemExtraInfo]
      simp only [bind_apply, get_apply, check_ok h.enabled, check_ok hi, hx]
      rfl
    simp only [physMemReleasePage, bind_apply, get_apply, hbit, hrecord]
    rfl
  · have hx : s.physMemExtra (f / PHYSMEMEXTRA_COUNT) ≠ none := by
      rw [hx]
      simp
    have hrecord := getPhysMemExtraInfo_present 0 false h.enabled hf hx
    simp only [physMemReleasePage, bind_apply, get_apply, hbit, hrecord, if_true, releaseRecord,
      h.structured.loadInfo_ok hx]
    rcases eq_or_ne (s.extraInfo f) .zero with hzero | hne
    · obtain ⟨hcounts, rfl⟩ := hfree hzero
      rw [if_pos hzero]
      exact ⟨_, rfl, hcounts⟩
    · obtain ⟨hpresent, hone, hlt⟩ := h.recorded.present f hne
      rw [refCount, if_neg hne] at hrefs
      have hdec : ((s.extraInfo f).ref + 2 ^ 7 - 1) % 2 ^ 7 = r := by omega
      have hstore : ∀ info, storeInfo f info s = .ok ((), s.setInfo f info) :=
        h.structured.storeInfo_ok hx
      rw [if_neg hne, bind_apply, check_ok hpresent]
      simp only [hdec, bind_apply, hstore]
      rcases eq_or_ne r 0 with rfl | hpos
      · rw [if_neg (not_not.mpr rfl), bind_apply]
        have hstructured := (setInfo_same s f { s.extraInfo f with ref := 0 }).structured
          h.structured
        rw [hstructured.storeInfo_ok hx]
        refine ⟨_, rfl, h.free (by constructor <;> rfl) ?_⟩
        rw [Machine.setInfo, Machine.setInfo, Function.update_idem]
        rfl
      · rw [if_pos hpos]
        have hnext : ({ s.extraInfo f with ref := r } : PhysMemExtraInfo) ≠ .zero := by
          intro hzero
          exact hpos (congrArg PhysMemExtraInfo.ref hzero)
        refine ⟨_, rfl, (setInfo_same s f _).structured h.structured,
          recorded_setInfo h.recorded hx hused ⟨hpresent, ?_, ?_⟩, h.enabled, ?_⟩
        · change 1 ≤ r
          omega
        · change r < 2 ^ 7
          omega
        · rw [refs_setInfo, if_pos rfl, if_pos hused, if_neg hnext]

theorem Counts.releases (h : Counts f r s) (hf : f < PAGE_COUNT) {j : Nat} (hle : j ≤ r) :
    ∃ s', repeated (physMemReleasePage f) j s = .ok ((), s') ∧ Counts f (r - j) s' := by
  induction j generalizing r s with
  | zero => exact ⟨s, rfl, h⟩
  | succ j ih =>
      obtain ⟨r, rfl⟩ := Nat.exists_eq_add_of_lt hle
      obtain ⟨s₁, heq, h₁⟩ := h.release hf
      obtain ⟨s', heq', h'⟩ := ih h₁ (by omega)
      refine ⟨s', ?_, by rwa [Nat.add_sub_add_right]⟩
      rw [repeated, bind_apply, heq]
      exact heq'

end

section

variable {slack : Nat → Nat} {P : Nat → ℤ} {s s₁ : Machine} {f r k : Nat}

/-- There is a record for the frame, or memory for one. -/
def Recordable (s : Machine) (f : Nat) : Prop :=
  ∃ s', getPhysMemExtraInfo EXTRA_FUEL f true s = .ok (true, s')

/-- A record is only refused for lack of memory. -/
theorem not_recordable (h : Inv slack P s) (henabled : s.pagingEnabled = true)
    (hf : f < PAGE_COUNT) (hno : ¬Recordable s f) :
    ∃ e, Lack e ∧ getPhysMemExtraInfo EXTRA_FUEL f true s = .error e := by
  have hproceeds := getPhysMemExtraInfo_proceeds h henabled hf (missing_lt s)
  rcases hrun : getPhysMemExtraInfo EXTRA_FUEL f true s with e | ⟨r, s'⟩
  · exact ⟨e, hproceeds.of_error hrun, rfl⟩
  · obtain ⟨rfl, -⟩ := hproceeds.of_ok hrun
    exact (hno ⟨s', hrun⟩).elim

theorem held_of_record (h : Inv slack P s) (henabled : s.pagingEnabled = true)
    (hf : f < PAGE_COUNT) (hused : used s f = true)
    (hrecord : getPhysMemExtraInfo EXTRA_FUEL f true s = .ok (true, s₁)) :
    Held slack f (refs s f) s₁ := by
  obtain ⟨h₁, hg, hx, -⟩ :=
    (getPhysMemExtraInfo_spec h f true fun _ => missing_lt s).of_ok hrecord
  obtain ⟨-, hsteady, -⟩ :=
    (getPhysMemExtraInfo_proceeds h henabled hf (missing_lt s)).of_ok hrecord
  exact ⟨⟨P, h₁⟩, hsteady.enabled.trans henabled, hx rfl, hg.used f hused, hsteady.refs f hused⟩

/-- The first reference is added as if the record had been there before. -/
theorem addRef_of_record (h₁ : Held slack f r s₁) (hf : f < PAGE_COUNT)
    (hrecord : getPhysMemExtraInfo EXTRA_FUEL f true s = .ok (true, s₁)) :
    physMemAddRefPage f s = physMemAddRefPage f s₁ := by
  obtain ⟨P, hinv⟩ := h₁.inv
  rw [physMemAddRefPage_of_record hinv.structured hinv.recorded h₁.record h₁.used hrecord,
    physMemAddRefPage_of_record hinv.structured hinv.recorded h₁.record h₁.used
      (getPhysMemExtraInfo_present _ _ h₁.enabled hf h₁.record)]

theorem addRef_not_recordable {e : Stop}
    (he : getPhysMemExtraInfo EXTRA_FUEL f true s = .error e) :
    physMemAddRefPage f s = .error e := by
  rw [physMemAddRefPage, bind_apply, he]

/-- After `k` references were added, `k` releases leave the frame in use and one more frees
it. -/
def FreedAfter (s : Machine) (f k : Nat) : Prop :=
  ∃ s₁, repeated (physMemAddRefPage f) k s = .ok ((), s₁) ∧
    (∀ j ≤ k, ∃ s₂, repeated (physMemReleasePage f) j s₁ = .ok ((), s₂) ∧ used s₂ f = true) ∧
    ∃ s₂, repeated (physMemReleasePage f) (k + 1) s₁ = .ok ((), s₂) ∧ used s₂ f = false

theorem Counts.freed (h : Counts f (k + 1) s) (hf : f < PAGE_COUNT) :
    (∀ j ≤ k, ∃ s', repeated (physMemReleasePage f) j s = .ok ((), s') ∧ used s' f = true) ∧
      ∃ s', repeated (physMemReleasePage f) (k + 1) s = .ok ((), s') ∧ used s' f = false := by
  constructor
  · intro j hj
    obtain ⟨s', heq, h'⟩ := h.releases hf (j := j) (by omega)
    exact ⟨s', heq, h'.used_iff.mpr (by omega)⟩
  · obtain ⟨s', heq, h'⟩ := h.releases hf le_rfl
    refine ⟨s', heq, Bool.eq_false_iff.mpr fun hused => ?_⟩
    exact h'.used_iff.mp hused (Nat.sub_self _)

theorem freedAfter_iff (h : Inv slack P s) (henabled : s.pagingEnabled = true)
    (hf : f < PAGE_COUNT) (hrefs : refs s f = 1) :
    FreedAfter s f k ↔ k ≤ 126 ∧ (k = 0 ∨ Recordable s f) := by
  have hused : used s f = true := (refs_pos_iff h.recorded).mp hrefs.ge
  cases k with
  | zero =>
      refine ⟨fun _ => ⟨by omega, Or.inl rfl⟩, fun _ => ⟨s, rfl, ?_⟩⟩
      exact Counts.freed ⟨h.structured, h.recorded, henabled, hrefs⟩ hf
  | succ k =>
      rcases Classical.em (Recordable s f) with ⟨s₁, hrecord⟩ | hno
      · have h₁ := held_of_record h henabled hf hused hrecord
        rw [hrefs] at h₁
        have hsame : repeated (physMemAddRefPage f) (k + 1) s =
            repeated (physMemAddRefPage f) (k + 1) s₁ := by
          rw [repeated, bind_apply, bind_apply, addRef_of_record h₁ hf hrecord]
        rw [FreedAfter, hsame]
        constructor
        · rintro ⟨s₂, heq, -⟩
          refine ⟨?_, Or.inr ⟨s₁, hrecord⟩⟩
          by_contra hlt
          rw [h₁.addRefs_full hf (by omega) (by omega)] at heq
          cases heq
        · rintro ⟨hle, -⟩
          obtain ⟨s₂, heq, h₂⟩ := h₁.addRefs hf (k := k + 1) (by omega)
          rw [Nat.add_comm] at h₂
          exact ⟨s₂, heq, h₂.counts.freed hf⟩
      · obtain ⟨e, -, he⟩ := not_recordable h henabled hf hno
        constructor
        · rintro ⟨s₁, heq, -⟩
          rw [repeated, bind_apply, addRef_not_recordable he] at heq
          cases heq
        · rintro ⟨-, hzero | hrecord⟩
          · cases hzero
          · exact (hno hrecord).elim

end

section

/-! The shared pages of the system are mapped into the next process. -/

variable {slack : Nat → Nat} {P : Nat → ℤ} {s s' : Machine} {f pid page i : Nat}

theorem physMemAddRefPage_proceeds (h : Inv slack P s) (henabled : s.pagingEnabled = true)
    (hf : f < PAGE_COUNT) (hused : used s f = true) (hle : refs s f ≤ 126) :
    Proceeds (physMemAddRefPage f) s fun _ s' =>
      s'.pagingEnabled = true ∧
        ∀ g, g ≠ f → used s g = true → used s' g = true ∧ refs s' g = refs s g := by
  rcases Classical.em (Recordable s f) with ⟨s₁, hrecord⟩ | hno
  · have h₁ := held_of_record h henabled hf hused hrecord
    obtain ⟨-, hsteady, -⟩ :=
      (getPhysMemExtraInfo_proceeds h henabled hf (missing_lt s)).of_ok hrecord
    obtain ⟨P₁, hinv⟩ := h₁.inv
    have heq := physMemAddRefPage_of_record hinv.structured hinv.recorded h₁.record h₁.used hrecord
    rw [h₁.refs, if_neg (by omega)] at heq
    refine yields_of_ok heq ⟨h₁.enabled, fun g hgf hg => ⟨hsteady.used g hg, ?_⟩⟩
    rw [refs_setInfo, if_neg hgf]
    exact hsteady.refs g hg
  · obtain ⟨e, hlack, he⟩ := not_recordable h henabled hf hno
    exact yields_of_error (addRef_not_recordable he) hlack

theorem physMemAddRefPage_full (h : Inv slack P s) (henabled : s.pagingEnabled = true)
    (hf : f < PAGE_COUNT) (hfull : 126 < refs s f) (a : Nat) (s' : Machine) :
    physMemAddRefPage f s ≠ .ok (a, s') := by
  have hused : used s f = true := (refs_pos_iff h.recorded).mp (by omega)
  have hrefs : refs s f = 127 := by
    have := (started_spec h.recorded hused).2.2.2
    omega
  rcases Classical.em (Recordable s f) with ⟨s₁, hrecord⟩ | hno
  · have h₁ := held_of_record h henabled hf hused hrecord
    rw [hrefs] at h₁
    rw [addRef_of_record h₁ hf hrecord, h₁.addRef_full hf]
    exact nofun
  · obtain ⟨e, -, he⟩ := not_recordable h henabled hf hno
    rw [addRef_not_recordable he]
    exact nofun

theorem findUnused_proceeds (h : Inv slack P s) {rounds i : Nat} (hend : i + rounds ≤ KERNEL_PAGE) :
    Proceeds (findUnused rounds i) s fun _ s' => Steady s s' := by
  induction rounds generalizing s i with
  | zero => exact yields_pure (Steady.refl s)
  | succ rounds ih =>
      have hi : i < KERNEL_PAGE := by omega
      rw [findUnused]
      refine (proceeds_and (getKernelEntry_proceeds h (kernel_lt hi) true)
        (getKernelEntry_spec h (kernel_lt hi) true)).bind ?_
      rintro r s₁ ⟨⟨hsteady, -⟩, h₁, -, -, hmapped, hr, -⟩
      have hm := hmapped (hr rfl)
      refine yields_ok_bind (h₁.structured.loadEntry_ok (kernel_lt hi) hm) ?_
      refine yields_ite (fun _ => yields_pure hsteady) fun _ => ?_
      exact (ih h₁ (by omega)).mono fun _ s' hs' => hsteady.trans hs'

theorem pagingMapPhysMem_proceeds (h : Inv slack P s) (f : Nat) (rw user : Bool) :
    Proceeds (pagingMapPhysMem f 0 rw user) s fun _ s' => Steady s s' := by
  rw [pagingMapPhysMem, if_neg (by simp)]
  have hend : 1 + (KERNEL_PAGE - 1) ≤ KERNEL_PAGE := by decide
  refine (proceeds_and (findUnused_proceeds h hend) (findUnused_spec h hend)).bind ?_
  rintro (_ | page) s₁ ⟨hsteady, h₁, -, hr⟩
  · exact yields_throw (Or.inr (Or.inr rfl))
  · obtain ⟨-, hlt, hm, -⟩ := hr page rfl
    refine yields_ok_bind (h₁.structured.storeEntry_ok (kernel_lt hlt) hm _) (yields_pure ?_)
    exact hsteady.trans (steady_of_eq rfl rfl rfl)

theorem accessDirectory_ok (h : Structured s) (hdir : (s.process pid).pageDirectory ≠ none) :
    accessDirectory pid s = .ok ((), s) := by
  rcases hk : (s.process pid).pageDirectory with _ | k
  · exact (hdir hk).elim
  · simp only [accessDirectory, bind_apply, get_apply, hk]
    exact access_ok (h.homes (.directory pid) k hk).2.1

/-- Nothing happens if the table is there. -/
theorem getProcessEntry_mapped (h : Structured s) (henabled : s.pagingEnabled = true)
    (hm : Mapped s (some pid) page) (alloc : Bool) :
    getProcessEntry pid page alloc s = .ok (true, s) := by
  obtain ⟨hdir, hpresent, -⟩ := h.table_present hm
  have hne : (s.process pid).directory (page / PAGETABLE_COUNT) ≠ .zero := by
    intro hzero
    rw [hzero] at hpresent
    cases hpresent
  have havail := ((h.processes pid).directory hdir _ hne).2
  simp only [getProcessEntry, bind_apply, get_apply, check_ok henabled,
    accessDirectory_ok h hdir, if_neg hne, requirePresent_ok hpresent,
    check_ok (beq_iff_eq.mpr havail), mapPageTable, if_neg hm]
  rfl

theorem getKernelEntry_mapped (h : Structured s) (hpage : page < PAGE_COUNT)
    (hm : Mapped s none page) (alloc : Bool) : getKernelEntry page alloc s = .ok (true, s) := by
  have hself : s.translate KERNEL_DIR = some (s.kernelTable KERNEL_DIR_ENTRY) :=
    h.translate_table (i := KERNEL_DIR_ENTRY) (by decide) h.self
  have hready := h.ready hpage hm
  have hne : s.kernel (KERNEL_PAGE + page / PAGETABLE_COUNT) ≠ .zero := hm
  simp only [getKernelEntry, bind_apply, get_apply, access_ok hself, if_neg hne,
    requirePresent_ok hready.present, check_ok (beq_iff_eq.mpr hready.avail)]
  rfl

/-- Only the count of the table itself may have changed. -/
theorem mapPageTable_proceeds (h : Inv slack P s) (hP : ∀ f, 0 ≤ P f)
    (henabled : s.pagingEnabled = true) (hdir : (s.process pid).pageDirectory ≠ none)
    (hi : i < PAGETABLE_COUNT) (hentry : (s.process pid).directory i = ⟨true, true, true, 0, f⟩)
    (hf : f < PAGE_COUNT) (hle : refs s f ≤ 126) :
    Proceeds (mapPageTable pid i) s fun _ s' =>
      s'.pagingEnabled = true ∧
        ∀ g, g ≠ f → used s g = true → used s' g = true ∧ refs s' g = refs s g := by
  rw [mapPageTable]
  refine yields_get_bind (yields_ite (fun hnone => ?_) fun _ => ?_)
  · have hname : names s (.directory pid i) = some f := by
      simp [names, hi, hentry, Option.isSome_iff_ne_none.mpr hdir]
    have hused := (refs_pos_iff h.recorded).mp (h.refs_pos hname (hP _))
    simp only [hentry]
    refine (proceeds_and (physMemAddRefPage_proceeds h henabled hf hused hle)
      (physMemAddRefPage_spec h hused)).bind ?_
    rintro _ s₁ ⟨⟨henabled₁, hkeep⟩, rfl, h₁, -⟩
    refine (pagingMapPhysMem_proceeds h₁ _ true false).bind fun addr s₂ hsteady => ?_
    refine yields_modify ⟨hsteady.enabled.trans henabled₁, fun g hgf hg => ?_⟩
    obtain ⟨hused₁, hrefs⟩ := hkeep g hgf hg
    exact ⟨hsteady.used g hused₁, (hsteady.refs g hused₁).trans hrefs⟩
  · exact yields_pure ⟨henabled, fun g _ hg => ⟨hg, rfl⟩⟩

/-- A new page table takes frames which were not in use. -/
theorem getProcessEntry_proceeds (h : Inv slack P s) (hP : ∀ f, 0 ≤ P f)
    (henabled : s.pagingEnabled = true) (hpage : page < PAGE_COUNT)
    (hdir : (s.process pid).pageDirectory ≠ none)
    (htable : (s.process pid).directory (page / PAGETABLE_COUNT) = .zero ∨
      Mapped s (some pid) page) :
    Proceeds (getProcessEntry pid page true) s fun _ s' => Steady s s' := by
  rcases htable with hzero | hm
  · have hi := table_lt hpage
    rw [getProcessEntry]
    refine yields_get_bind (yields_ok_bind (check_ok henabled) ?_)
    refine yields_ok_bind (accessDirectory_ok h.structured hdir) (yields_get_bind ?_)
    simp only [hzero, if_true]
    refine (proceeds_and (physMemAllocPage_proceeds h false) (physMemAllocPage_spec h false)).bind
      ?_
    rintro f s₁ ⟨⟨hsteady₁, -, hlt, hone, h₁⟩, -, hsame, -, hunused, hused, -⟩
    rw [← hsame.process] at hdir hzero
    have h₂ := inv_addTable h₁ hdir hi hzero f
    rw [add_sub_cancel_right] at h₂
    have hsteady₂ : Steady s₁ (Machine.addTable s₁ pid (page / PAGETABLE_COUNT) f) :=
      steady_of_eq rfl rfl rfl
    have hprocess : (Machine.addTable s₁ pid (page / PAGETABLE_COUNT) f).process pid =
        (s₁.process pid).setDirectory (page / PAGETABLE_COUNT) ⟨true, true, true, 0, f⟩ :=
      setProcess_self
    have hentry : ((Machine.addTable s₁ pid (page / PAGETABLE_COUNT) f).process pid).directory
        (page / PAGETABLE_COUNT) = ⟨true, true, true, 0, f⟩ := by
      rw [hprocess]
      exact Function.update_self ..
    refine yields_modify_bind ?_
    refine (proceeds_and (mapPageTable_proceeds h₂ hP ?_ (by rw [hprocess]; exact hdir) hi hentry
      hlt ?_) (mapPageTable_spec h₂ hP (by rw [hprocess]; exact hdir) hi (by rw [hentry]))).bind ?_
    · exact hsteady₁.enabled.trans henabled
    · rw [hsteady₂.refs f hused, hone]
      decide
    · rintro _ s₃ ⟨⟨henabled₃, hkeep⟩, h₃, -, hm, -⟩
      refine yields_ok_bind (h₃.structured.accessTable_ok (p := some pid) hpage hm) ?_
      have hne : ∀ g, used s g = true → g ≠ f := by
        rintro g hg rfl
        rw [hunused] at hg
        cases hg
      have hsteady := hsteady₁.trans hsteady₂
      refine yields_modify_bind (yields_pure ⟨henabled₃.trans henabled.symm, fun g hg => ?_,
        fun g hg => ?_⟩)
      · exact (hkeep g (hne g hg) (hsteady.used g hg)).1
      · exact (hkeep g (hne g hg) (hsteady.used g hg)).2.trans (hsteady.refs g hg)
  · exact yields_of_ok (getProcessEntry_mapped h.structured henabled hm true) (Steady.refl s)

end

section

variable {slack : Nat → Nat} {P : Nat → ℤ} {s s' : Machine} {f pid source page addr src_addr : Nat}
  {p : Option Nat} {rw user : Bool}

/-- A page of the kernel which every process gets. It is not duplicated on write. -/
structure SystemPage (s : Machine) (page f : Nat) : Prop where
  bound : page < PAGE_COUNT
  mapped : Mapped s none page
  present : (s.kernel page).present = true
  avail : (s.kernel page).avail ≠ PAGING_AVAIL_PRESENT_ON_WRITE_DUPLICATE
  frame : (s.kernel page).frame = f

/-- The process has nothing at a page, and its page tables are those it made itself. -/
structure Vacant (s : Machine) (pid page : Nat) : Prop where
  directory : (s.process pid).pageDirectory ≠ none
  table : (s.process pid).directory (page / PAGETABLE_COUNT) = .zero ∨ Mapped s (some pid) page
  unused : Unused s pid page

theorem steady_setEntry (e : PagingEntry) : Steady s (s.setEntry p page e) := by
  rcases p with _ | pid
  · exact steady_of_eq rfl rfl rfl
  · exact steady_of_eq rfl rfl rfl

/-- The entry of a vacant page can be written. -/
theorem Vacant.getPagingEntry (h : Inv slack 0 s) (henabled : s.pagingEnabled = true)
    (hpage : page < PAGE_COUNT) (hv : Vacant s pid page) :
    Proceeds (getPagingEntry (some pid) page true) s fun _ s' =>
      Steady s s' ∧ Inv slack 0 s' ∧ Grows s s' ∧ Mapped s' (some pid) page ∧
        s'.entry (some pid) page = .zero := by
  refine (proceeds_and (getProcessEntry_proceeds h zero_nonneg henabled hpage hv.directory
    hv.table) (getProcessEntry_spec h zero_nonneg hpage true)).mono ?_
  rintro r s' ⟨hsteady, h', hg, hmapped, hr, -, hunused⟩
  have hm := hmapped (hr rfl)
  refine ⟨hsteady, h', hg, hm, ?_⟩
  exact (entry_eq_zero_iff h'.structured hm).mpr ((hunused page).mpr hv.unused)

/-- What is left to do once a page is reserved for a page of the system: its entry is copied,
and the frame gets another reference. -/
theorem remoteLoop_one (h : Structured s) (henabled : s.pagingEnabled = true)
    (hsystem : SystemPage s (pageOf src_addr) f) (hm : Mapped s (some pid) (pageOf addr))
    (hreserved : (s.entry (some pid) (pageOf addr)).isReserved = true) :
    remoteLoop (some pid) none rw user 1 addr src_addr s =
      (physMemAddRefPage f >>= fun _ => pure ()) (s.setEntry (some pid) (pageOf addr)
        { s.kernel (pageOf src_addr) with rw := rw, user := user }) := by
  have hne : ((s.entry none (pageOf src_addr)) != .zero) = true := by
    rw [bne_iff_ne]
    intro hzero
    have := hsystem.present
    rw [Machine.entry] at hzero
    rw [hzero] at this
    cases this
  have hdup : (rw && !(s.entry none (pageOf src_addr)).rw &&
      (s.entry none (pageOf src_addr)).avail == PAGING_AVAIL_PRESENT_ON_WRITE_DUPLICATE) =
        false := by
    have : ((s.entry none (pageOf src_addr)).avail ==
        PAGING_AVAIL_PRESENT_ON_WRITE_DUPLICATE) = false := beq_eq_false_iff_ne.mpr hsystem.avail
    rw [this, Bool.and_false]
  have hload := h.loadEntry_ok (pageOf_lt src_addr) hsystem.mapped
  have hpresent : (s.entry none (pageOf src_addr)).present = true := hsystem.present
  rw [remoteLoop]
  simp only [bind_apply, Paging.getPagingEntry,
    getKernelEntry_mapped h (pageOf_lt src_addr) hsystem.mapped,
    getProcessEntry_mapped h henabled hm, check_ok rfl, hload, check_ok hne,
    h.loadEntry_ok (pageOf_lt addr) hm, check_ok hreserved, requirePresent_ok hpresent, hdup,
    duplicateIf, Bool.false_eq_true, if_false]
  rw [show (pure () : M Unit) s = .ok ((), s) from rfl]
  simp only [hload, h.storeEntry_ok (pageOf_lt addr) hm]
  rw [Machine.entry, hsystem.frame]
  rfl

theorem SystemPage.mono (h : SystemPage s page f) (hg : Grows s s') : SystemPage s' page f := by
  have hne : s.kernel page ≠ .zero := by
    intro hzero
    have := h.present
    rw [hzero] at this
    cases this
  have heq := hg.kernel page hne
  refine ⟨h.bound, hg.extends.mapped _ _ h.mapped, ?_, ?_, ?_⟩ <;> rw [heq]
  · exact h.present
  · exact h.avail
  · exact h.frame

theorem SystemPage.used (hsystem : SystemPage s page f) (h : Inv slack 0 s) :
    used s f = true := by
  have := used_of_entry h zero_nonneg hsystem.bound hsystem.mapped hsystem.present
  rwa [Machine.entry, hsystem.frame] at this

theorem reserve_one (user : Bool) (h : Inv slack 0 s) (henabled : s.pagingEnabled = true)
    (hsystem : SystemPage s page f) (hv : Vacant s pid (pageOf addr)) :
    Proceeds (pagingReserveArea (some pid) user 1 addr) s fun _ s' =>
      Steady s s' ∧ Inv slack 0 s' ∧ SystemPage s' page f ∧ Mapped s' (some pid) (pageOf addr) ∧
        (s'.entry (some pid) (pageOf addr)).isReserved = true := by
  rw [pagingReserveArea]
  refine (hv.getPagingEntry h henabled (pageOf_lt addr)).bind ?_
  rintro r s₁ ⟨hsteady, h₁, hg, hm, hzero⟩
  refine yields_ok_bind (h₁.structured.loadEntry_ok (pageOf_lt addr) hm) ?_
  refine yields_ok_bind (check_ok (beq_iff_eq.mpr hzero)) ?_
  refine yields_ok_bind (h₁.structured.storeEntry_ok (pageOf_lt addr) hm _) (yields_pure ?_)
  have hkept := kept_reserve user h₁ (pageOf_lt addr) hm (by simp) hzero (Grows.refl s₁) h₁
  have hsystem₁ := hsystem.mono hg
  refine ⟨hsteady.trans (steady_setEntry _), hkept.inv, ⟨hsystem₁.bound, hsystem₁.mapped,
    hsystem₁.present, hsystem₁.avail, hsystem₁.frame⟩, mapped_setEntry trivial hm, ?_⟩
  rw [entry_setEntry_self]
  rfl

/-- The last thing a program does is to add a reference. -/
theorem limit_of_last (slack : Nat → Nat) {α : Type} {m : M α} {k : α → M Unit}
    (henabled : s.pagingEnabled = true)
    (hf : f < PAGE_COUNT) (hused : used s f = true)
    (hm : Proceeds m s fun a s₁ => ∃ s₂, Steady s s₂ ∧ (∃ P, Inv slack P s₂) ∧
      k a s₁ = (physMemAddRefPage f >>= fun _ => pure ()) s₂) :
    (refs s f ≤ 126 → Proceeds (m >>= k) s fun _ _ => True) ∧
      (126 < refs s f → ∀ r s', (m >>= k) s ≠ .ok (r, s')) := by
  constructor
  · intro hle
    refine hm.bind ?_
    rintro a s₁ ⟨s₂, hsteady, ⟨P, h₂⟩, heq⟩
    refine Yields.of_eq ?_ heq
    refine (physMemAddRefPage_proceeds h₂ (hsteady.enabled.trans henabled) hf
      (hsteady.used f hused) ?_).bind fun _ _ _ => yields_pure trivial
    rw [hsteady.refs f hused]
    exact hle
  · intro hlt r s' hrun
    obtain ⟨a, s₁, ha, hb⟩ := bind_ok.mp hrun
    obtain ⟨s₂, hsteady, ⟨P, h₂⟩, heq⟩ := hm.of_ok ha
    rw [heq] at hb
    obtain ⟨index, s₃, hc, -⟩ := bind_ok.mp hb
    refine physMemAddRefPage_full h₂ (hsteady.enabled.trans henabled) hf ?_ index s₃ hc
    rw [hsteady.refs f hused]
    exact hlt

/-- The number of references decides whether the page of the system can be mapped. -/
theorem pagingMapRemoteMemory_limit (h : Inv slack 0 s) (henabled : s.pagingEnabled = true)
    (hf : f < PAGE_COUNT) (hsystem : SystemPage s (pageOf src_addr) f)
    (haddr : pageOf addr ≠ 0) (hv : Vacant s pid (pageOf addr)) (rw user : Bool) :
    (refs s f ≤ 126 →
      Proceeds (pagingMapRemoteMemory (some pid) none addr src_addr 1 rw user) s fun r _ =>
        r = some (addr ||| src_addr % PAGE_SIZE)) ∧
    (126 < refs s f → ∀ r s',
      pagingMapRemoteMemory (some pid) none addr src_addr 1 rw user s ≠ .ok (r, s')) := by
  have hne : addr ≠ 0 := by
    rintro rfl
    exact haddr (by unfold pageOf; rfl)
  have hlimit :=
    limit_of_last slack (k := fun _ => remoteLoop (some pid) none rw user 1 addr src_addr)
    henabled hf (hsystem.used h) ((reserve_one user h henabled hsystem hv).mono ?_)
  · rw [pagingMapRemoteMemory, areaOf, if_neg hne, pure_bind, if_neg haddr, ← bind_assoc]
    refine ⟨fun hle => (hlimit.1 hle).bind fun _ _ _ => yields_pure rfl, fun hlt r s' hrun => ?_⟩
    obtain ⟨_, s₁, ha, -⟩ := bind_ok.mp hrun
    exact hlimit.2 hlt _ _ ha
  · rintro _ s₁ ⟨hsteady, h₁, hsystem₁, hm, hreserved⟩
    exact ⟨_, hsteady.trans (steady_setEntry _), ⟨_, h₁.setEntry (pageOf_lt addr) hm trivial _⟩,
      remoteLoop_one h₁.structured (hsteady.enabled.trans henabled) hsystem₁ hm hreserved⟩

/-- The kinds of pages which a child gets. -/
def Forked (e : PagingEntry) : Prop :=
  e.present = true ∧ (e.avail = 0 ∨ e.avail = PAGING_AVAIL_PRESENT_SHARED ∨
    e.avail = PAGING_AVAIL_PRESENT_ON_WRITE_DUPLICATE)

/-- The entry of a page which the parent and the child duplicate on write. -/
def duplicated (e : PagingEntry) : PagingEntry :=
  { e with rw := false, avail := PAGING_AVAIL_PRESENT_ON_WRITE_DUPLICATE }

theorem forkEntry_last (h : Inv slack 0 s) (hpage : page < PAGE_COUNT)
    (hms : Mapped s (some source) page) (hmd : Mapped s (some pid) page)
    (hforked : Forked (s.entry (some source) page)) :
    ∃ s₂, Steady s s₂ ∧ (∃ P, Inv slack P s₂) ∧
      forkEntry pid source page (s.entry (some source) page) s =
        (physMemAddRefPage (s.entry (some source) page).frame >>= fun _ => pure ()) s₂ := by
  rw [forkEntry]
  split
  · have h₁ := h.setEntry hpage hms trivial (duplicated (s.entry (some source) page))
    have hmd₁ : Mapped (s.setEntry (some source) page (duplicated (s.entry (some source) page)))
        (some pid) page := extends_setTable.mapped _ _ hmd
    refine ⟨_, (steady_setEntry _).trans
      (steady_setEntry (duplicated (s.entry (some source) page))),
      ⟨_, h₁.setEntry hpage hmd₁ trivial _⟩, ?_⟩
    have hstore := h.structured.storeEntry_ok hpage hms (duplicated (s.entry (some source) page))
    have hstore₁ := h₁.structured.storeEntry_ok hpage hmd₁ (duplicated (s.entry (some source) page))
    rw [duplicated] at hstore hstore₁
    simp only [bind_apply, hstore, hstore₁]
    rfl
  · rw [if_pos hforked.2]
    refine ⟨_, steady_setEntry (s.entry (some source) page),
      ⟨_, h.setEntry hpage hmd trivial _⟩, ?_⟩
    simp only [bind_apply, h.structured.storeEntry_ok hpage hmd]

/-- The same for a page which a child gets from its parent. -/
theorem forkPage_limit (h : Inv slack 0 s) (henabled : s.pagingEnabled = true)
    (hf : f < PAGE_COUNT) (hpage : page < PAGE_COUNT) (hms : Mapped s (some source) page)
    (hforked : Forked (s.entry (some source) page))
    (hframe : (s.entry (some source) page).frame = f) (hv : Vacant s pid page) :
    (refs s f ≤ 126 → Proceeds (forkPage pid source page) s fun _ _ => True) ∧
      (126 < refs s f → ∀ r s', forkPage pid source page s ≠ .ok (r, s')) := by
  have hne : s.entry (some source) page ≠ .zero := RemotePages.ne_zero_of_present hforked.1
  have hused := used_of_entry h zero_nonneg hpage hms hforked.1
  rw [hframe] at hused
  have hsame : forkPage pid source page s = (getPagingEntry (some pid) page true >>= fun _ => do
      let dst ← loadEntry (some pid) page
      check (dst == .zero)
      forkEntry pid source page (s.entry (some source) page)) s := by
    rw [forkPage, bind_apply, h.structured.loadEntry_ok hpage hms]
    simp only [if_neg hne, hforked.1, if_true]
  have hlimit := limit_of_last slack (k := fun _ => do
      let dst ← loadEntry (some pid) page
      check (dst == .zero)
      forkEntry pid source page (s.entry (some source) page))
    henabled hf hused ((hv.getPagingEntry h henabled hpage).mono ?_)
  · rw [hsame]
    exact ⟨fun hle => (hlimit.1 hle).of_eq hsame, hlimit.2⟩
  · rintro r s₁ ⟨hsteady, h₁, hg, hm, hzero⟩
    have hms₁ := hg.extends.mapped _ _ hms
    have hentry := RemotePages.entry_of_grows h.structured h₁.structured hg hpage hms hforked.1
    obtain ⟨s₂, hsteady₂, hinv, heq⟩ := forkEntry_last h₁ hpage hms₁ hm (by rwa [hentry])
    rw [hentry, hframe] at heq
    refine ⟨s₂, hsteady.trans hsteady₂, hinv, ?_⟩
    simp only [bind_apply, h₁.structured.loadEntry_ok hpage hm,
      check_ok (beq_iff_eq.mpr hzero), heq]

end

section

variable {slack : Nat → Nat} {P : Nat → ℤ} {s : Machine} {f pid source page addr src_addr : Nat}
  {live : Finset Nat}

/-- The frame is behind a page of the kernel and behind the same page of every process which is
alive. -/
structure SharedBy (slack : Nat → Nat) (s : Machine) (f kernelPage page : Nat)
    (live : Finset Nat) : Prop where
  handedOut : slack f = 0
  system : SystemPage s kernelPage f
  places : ∀ place, names s place = some f ↔
    place = .kernel kernelPage ∨ ∃ pid ∈ live, place = .table pid page

/-- The kernel has one reference, and every process has one. -/
theorem refs_shared (h : Inv slack 0 s) (hshared : SharedBy slack s f source page live) :
    refs s f = live.card + 1 := by
  have hset : {place | names s place = some f} =
      insert (.kernel source) ((fun pid => Place.table pid page) '' (live : Set Nat)) := by
    ext place
    rw [Set.mem_ofPred_eq, hshared.places, Set.mem_insert_iff, Set.mem_image]
    simp only [Finset.mem_coe, eq_comm]
  have hnot : Place.kernel source ∉ (fun pid => Place.table pid page) '' (live : Set Nat) := by
    rintro ⟨pid, -, heq⟩
    cases heq
  have htally : tally (names s) f = live.card + 1 := by
    rw [tally, hset, Set.ncard_insert_of_notMem hnot (live.finite_toSet.image _),
      Set.ncard_image_of_injective _ fun pid pid' heq => by injection heq, Set.ncard_coe_finset]
  have := h.balance f
  rw [htally, hshared.handedOut, Pi.zero_apply] at this
  push_cast at this
  omega

/-- A program which only a lack of memory stops up to a limit, and which never ends beyond
it. -/
def LimitedTo {α : Type} (limit n : Nat) (m : M α) (s : Machine) (Q : α → Machine → Prop) : Prop :=
  (n ≤ limit → Proceeds m s Q) ∧ (limit < n → ∀ a s', m s ≠ .ok (a, s'))

theorem LimitedTo.of_refs {α : Type} {m : M α} {Q : α → Machine → Prop} (h : Inv slack 0 s)
    (hshared : SharedBy slack s f source page live)
    (hm : (refs s f ≤ 126 → Proceeds m s Q) ∧ (126 < refs s f → ∀ a s', m s ≠ .ok (a, s'))) :
    LimitedTo 125 live.card m s Q := by
  rw [refs_shared h hshared] at hm
  exact ⟨fun hle => hm.1 (by omega), fun hlt => hm.2 (by omega)⟩

theorem entry_of_shared (hshared : SharedBy slack s f source page live)
    (hlive : pid ∈ live) : page < PAGE_COUNT ∧ (s.entry (some pid) page).frame = f := by
  have hname := (hshared.places (.table pid page)).mpr (Or.inr ⟨pid, hlive, rfl⟩)
  rw [names, Option.map_eq_some_iff] at hname
  obtain ⟨e, hmapping, hframe⟩ := hname
  rw [mapping] at hmapping
  split at hmapping
  · rename_i hbound
    cases hmapping
    exact ⟨hbound.1, hframe⟩
  · cases hmapping

/-- A frame can have 126 references besides the first one, which is enough for 126 processes
besides the kernel. -/
theorem frame_sharing_limit (h : Inv slack P s) (henabled : s.pagingEnabled = true)
    (hf : f < PAGE_COUNT) :
    (refs s f = 1 → ∀ k, FreedAfter s f k ↔ k ≤ 126 ∧ (k = 0 ∨ Recordable s f)) ∧
    (P = 0 → ∀ live addr src_addr pid,
      SharedBy slack s f (pageOf src_addr) (pageOf addr) live → pageOf addr ≠ 0 →
      Vacant s pid (pageOf addr) →
      (∀ rw user, LimitedTo 125 live.card
        (pagingMapRemoteMemory (some pid) none addr src_addr 1 rw user) s
        fun r _ => r = some (addr ||| src_addr % PAGE_SIZE)) ∧
      ∀ source ∈ live, Mapped s (some source) (pageOf addr) →
        Forked (s.entry (some source) (pageOf addr)) →
        LimitedTo 125 live.card (forkPage pid source (pageOf addr)) s fun _ _ => True) := by
  refine ⟨fun hrefs k => freedAfter_iff h henabled hf hrefs, ?_⟩
  rintro rfl live addr src_addr pid hshared haddr hv
  constructor
  · intro rw user
    refine LimitedTo.of_refs h hshared ?_
    exact pagingMapRemoteMemory_limit h henabled hf hshared.system haddr hv rw user
  · intro source hlive hms hforked
    obtain ⟨hpage, hframe⟩ := entry_of_shared hshared hlive
    refine LimitedTo.of_refs h hshared ?_
    exact forkPage_limit h henabled hf hpage hms hforked hframe hv

end

section

/-! A machine without a boot map, a page of the kernel for the kernel stack, and the first
process. -/

def sampleRun : M Nat := do
  pagingInit []
  let kernelStack ← pagingAllocatePhysMem none 1 true false
  pagingAllocProcessPageTable 0
  return kernelStack

/-- What the run gives, and what can be read off its result. -/
def sampleFacts (s : Machine) : Bool :=
  s.pagingEnabled && refs s 257 == 1 && s.kernel 1 == ⟨true, true, false, 0, 257⟩ &&
    (s.process 0).pageDirectory.isSome &&
    (getPhysMemExtraInfo EXTRA_FUEL 257 true s).toOption.any fun r => r.1

theorem sampleRun_facts : (sampleRun (BootPaging.unstarted fun _ => 0)).toOption.map
    (fun r => (r.1, sampleFacts r.2)) = some (0x1000, true) := by
  decide +kernel

theorem sampleRun_ok : ∃ slack s, sampleRun (BootPaging.unstarted fun _ => 0) = .ok (0x1000, s) ∧
    Inv slack 0 s ∧ slack 257 = 0 ∧ sampleFacts s = true ∧
    ∀ i, (s.process 0).directory i = .zero := by
  have hfacts := sampleRun_facts
  rcases hrun : sampleRun (BootPaging.unstarted fun _ => 0) with e | ⟨addr, s⟩
  · rw [hrun] at hfacts
    cases hfacts
  rw [hrun] at hfacts
  obtain ⟨rfl, hfacts⟩ := Prod.mk.inj (Option.some.inj hfacts)
  obtain ⟨_, s₁, h₁, ha⟩ := bind_ok.mp hrun
  obtain ⟨kernelStack, s₂, h₂, hb⟩ := bind_ok.mp ha
  obtain ⟨_, s₃, h₃, hc⟩ := bind_ok.mp hb
  obtain ⟨-, rfl⟩ := Prod.mk.inj (Except.ok.inj hc)
  have hbooted := (BootPaging.pagingInit_booted (l := [])
    ⟨rfl, fun _ => rfl, fun _ => rfl, fun _ => rfl⟩ (fun _ => rfl)
      ⟨List.nodup_nil, nofun, nofun, nofun⟩
    (fun n hn => (Intervals.not_covers_nil hn).elim) rfl rfl).of_ok h₁
  have hkept := (pagingAllocatePhysMem_spec hbooted.inv none 1 true false).of_ok h₂
  obtain ⟨hinv, -, -, hdirectory⟩ := (pagingAllocProcessPageTable_spec hkept.inv).of_ok h₃
  exact ⟨_, s₃, rfl, hinv, rfl, hfacts, hdirectory⟩

theorem sampleFacts_iff {s : Machine} : sampleFacts s = true ↔
    s.pagingEnabled = true ∧ refs s 257 = 1 ∧ s.kernel 1 = ⟨true, true, false, 0, 257⟩ ∧
      (s.process 0).pageDirectory.isSome = true ∧
      ((getPhysMemExtraInfo EXTRA_FUEL 257 true s).toOption.any fun r => r.1) = true := by
  simp only [sampleFacts, Bool.and_eq_true, beq_iff_eq, and_assoc]

theorem recordable_of_any {s : Machine} {f : Nat}
    (h : ((getPhysMemExtraInfo EXTRA_FUEL f true s).toOption.any fun r => r.1) = true) :
    Recordable s f := by
  rcases hrun : getPhysMemExtraInfo EXTRA_FUEL f true s with e | ⟨r, s'⟩
  · rw [hrun] at h
    cases h
  · rw [hrun] at h
    obtain rfl : r = true := h
    exact ⟨s', hrun⟩

/-- The stack of the kernel is the only thing which is mapped to its frame. -/
theorem sharedBy_sample {slack : Nat → Nat} {s : Machine} (h : Inv slack 0 s)
    (hslack : slack 257 = 0) (hrefs : refs s 257 = 1)
    (hkernel : s.kernel 1 = ⟨true, true, false, 0, 257⟩) (page : Nat) :
    SharedBy slack s 257 1 page ∅ := by
  have hne : s.kernel 1 ≠ .zero := by
    rw [hkernel]
    simp [PagingEntry.zero]
  have hready := ready_of_ne_zero h.structured (show 1 < KERNEL_PAGE by decide) hne
  have hname : names s (.kernel 1) = some 257 := by
    rw [names, if_pos (by decide), translate_of_ready hready, hkernel]
    rfl
  have htally : tally (names s) 257 = 1 := by
    have hbalance := h.balance 257
    rw [hrefs, hslack, Pi.zero_apply] at hbalance
    push_cast at hbalance
    omega
  refine ⟨hslack, ⟨by decide, RemotePages.ne_zero_of_present hready.present, ?_, ?_, ?_⟩,
    fun place => ⟨fun hplace => Or.inl ?_, ?_⟩⟩
  · rw [hkernel]
  · rw [hkernel]
    decide
  · rw [hkernel]
  · exact eq_of_tally_eq_one h.finite htally hplace hname
  · rintro (rfl | ⟨pid, hpid, -⟩)
    · exact hname
    · exact absurd hpid (Finset.notMem_empty pid)

theorem frame_sharing_limit_sample : ∃ s,
    sampleRun (BootPaging.unstarted fun _ => 0) = .ok (0x1000, s) ∧ FreedAfter s 257 126 ∧
      LimitedTo 125 0 (pagingMapRemoteMemory (some 0) none 0xFF800000 0x1000 1 true false) s
        fun r _ => r = some (0xFF800000 ||| 0x1000 % PAGE_SIZE) := by
  obtain ⟨slack, s, hrun, hinv, hslack, hfacts, hdirectory⟩ := sampleRun_ok
  obtain ⟨henabled, hrefs, hkernel, hdir, hrecord⟩ := sampleFacts_iff.mp hfacts
  have hpage : pageOf 0x1000 = 1 := by
    unfold pageOf
    rfl
  have hshared := sharedBy_sample hinv hslack hrefs hkernel (pageOf 0xFF800000)
  rw [← hpage] at hshared
  obtain ⟨hfreed, hshares⟩ := frame_sharing_limit hinv henabled (show 257 < PAGE_COUNT by decide)
  refine ⟨s, hrun, (hfreed hrefs 126).mpr ⟨le_rfl, Or.inr (recordable_of_any hrecord)⟩, ?_⟩
  refine (hshares rfl ∅ 0xFF800000 0x1000 0 hshared ?_ ⟨?_, Or.inl (hdirectory _),
    Or.inl (hdirectory _)⟩).1 true false
  · unfold pageOf
    decide
  · exact Option.isSome_iff_ne_none.mp hdir

/-- With one reference more the count is 0 again. -/
theorem frame_sharing_overflow : ∃ s,
    sampleRun (BootPaging.unstarted fun _ => 0) = .ok (0x1000, s) ∧
      repeated (physMemAddRefPage 257) 127 s = .error .assertion ∧ ¬FreedAfter s 257 127 := by
  obtain ⟨slack, s, hrun, hinv, hslack, hfacts, -⟩ := sampleRun_ok
  obtain ⟨henabled, hrefs, -, -, hrecord⟩ := sampleFacts_iff.mp hfacts
  obtain ⟨s₁, hs₁⟩ := recordable_of_any hrecord
  have hf : 257 < PAGE_COUNT := by decide
  have hused : used s 257 = true := (refs_pos_iff hinv.recorded).mp hrefs.ge
  have hheld := held_of_record hinv henabled hf hused hs₁
  rw [hrefs] at hheld
  have hfull : repeated (physMemAddRefPage 257) 127 s = .error .assertion := by
    rw [repeated, bind_apply, addRef_of_record hheld hf hs₁, ← bind_apply]
    exact hheld.addRefs_full hf (k := 127) (by decide) (by decide)
  refine ⟨s, hrun, hfull, ?_⟩
  rintro ⟨s', hok, -⟩
  rw [hfull] at hok
  cases hok

end

end Ibnos.SharedFrames
