import Ibnos.Forks

/-!
What an operation on the address space of one process leaves alone. The pages of
the kernel through which it sees the tables of that process belong to the
process; every other place keeps the frame it names, and new places name frames
which were not in use.
-/

namespace Ibnos.Locality

open Ibnos.Memory
open Ibnos.Physmem
open Ibnos.Paging
open Ibnos.Programs
open Ibnos.References
open Ibnos.KernelPages
open Ibnos.NewPages
open Ibnos.ProcessPages
open Ibnos.PagingOperations
open Ibnos.Tallies

section

variable {slack : Nat → Nat} {P : Nat → ℤ} {s s' s'' : Machine} {f pid page : Nat}

/-- The places through which a process has its memory. -/
def Belongs (s : Machine) (pid : Nat) : Place → Prop
  | .kernel page => home s (.directory pid) = some page ∨ ∃ i, home s (.table pid i) = some page
  | .directory q _ => q = pid
  | .table q _ => q = pid

/-- Somebody else has the frame. -/
def Foreign (slack : Nat → Nat) (pid : Nat) (s : Machine) (f : Nat) : Prop :=
  slack f ≠ 0 ∨ ∃ place, ¬Belongs s pid place ∧ names s place = some f

/-- Only what belongs to one process changes. -/
structure Local (slack : Nat → Nat) (pid : Nat) (s s' : Machine) : Prop where
  process : ∀ q, q ≠ pid → s'.process q = s.process q
  kept : ∀ place f, ¬Belongs s pid place → names s place = some f →
    ¬Belongs s' pid place ∧ names s' place = some f
  fresh : ∀ place f, ¬Belongs s' pid place → names s' place = some f →
    ¬Belongs s pid place ∧ names s place = some f ∨ ¬Foreign slack pid s f
  memory : ∀ f, Foreign slack pid s f → s'.memory f = s.memory f

theorem Local.refl (s : Machine) : Local slack pid s s :=
  ⟨fun _ _ => rfl, fun _ _ hp hf => ⟨hp, hf⟩, fun _ _ hp hf => Or.inl ⟨hp, hf⟩, fun _ _ => rfl⟩

theorem Local.foreign (h : Local slack pid s s') (hf : Foreign slack pid s f) :
    Foreign slack pid s' f := by
  rcases hf with hslack | ⟨place, hplace, hf⟩
  · exact Or.inl hslack
  · exact Or.inr ⟨place, h.kept place f hplace hf⟩

theorem Local.trans (h : Local slack pid s s') (h' : Local slack pid s' s'') :
    Local slack pid s s'' := by
  refine ⟨fun q hq => (h'.process q hq).trans (h.process q hq), fun place f hplace hf => ?_,
    fun place f hplace hf => ?_, fun f hf => ?_⟩
  · obtain ⟨hplace', hf'⟩ := h.kept place f hplace hf
    exact h'.kept place f hplace' hf'
  · rcases h'.fresh place f hplace hf with ⟨hplace', hf'⟩ | hnot
    · exact h.fresh place f hplace' hf'
    · exact Or.inr fun hf => hnot (h.foreign hf)
  · exact (h'.memory f (h.foreign hf)).trans (h.memory f hf)

theorem Foreign.used (hf : Foreign slack pid s f) (h : Inv slack P s) (hP : ∀ f, 0 ≤ P f) :
    used s f = true := by
  rw [← refs_pos_iff h.recorded]
  rcases hf with hslack | ⟨place, -, hf⟩
  · have hbalance := h.balance f
    have hnonneg := h.nonneg f
    have : (1 : ℤ) ≤ slack f := by
      exact_mod_cast Nat.one_le_iff_ne_zero.mpr hslack
    omega
  · exact h.refs_pos hf (hP f)

theorem names_kernel_eq (h : Structured s) (hpage : page < PAGE_COUNT)
    (hne : s.kernel page ≠ .zero) : names s (.kernel page) = named (s.kernel page) := by
  have hready : TableReady s (page / PAGETABLE_COUNT) := by
    rcases Nat.lt_or_ge page KERNEL_PAGE with hlt | hge
    · exact ready_of_ne_zero h hlt hne
    · rw [window_div hge hpage]
      exact h.self
  rw [names, if_pos hpage, translate_of_ready hready]
  rfl

theorem kernel_ne_zero_of_names (hf : names s (.kernel page) = some f) :
    page < PAGE_COUNT ∧ s.kernel page ≠ .zero := by
  rw [names] at hf
  split at hf
  · rename_i hpage
    refine ⟨hpage, fun hzero => ?_⟩
    rw [Machine.translate, hzero] at hf
    simp [PagingEntry.zero] at hf
  · cases hf

theorem names_process_eq (hprocess : s'.process pid = s.process pid) (i : Nat) :
    names s' (.directory pid i) = names s (.directory pid i) ∧
      names s' (.table pid i) = names s (.table pid i) := by
  simp only [names, mapping, hprocess, and_self]

theorem local_of_kernel (h : Inv slack P s) (hP : ∀ f, 0 ≤ P f) (h' : Structured s')
    (hkernel : ∀ page, s.kernel page ≠ .zero → s'.kernel page = s.kernel page)
    (hhomes : ∀ r k, home s r = some k → home s' r = some k)
    (hfresh : ∀ r k, home s' r = some k → home s r = some k ∨ s.kernel k = .zero)
    (hprocess : ∀ q, q ≠ pid → s'.process q = s.process q)
    (ha : Adds (fun page => Belongs s' pid (.kernel page)) s s')
    (hmemory : ∀ f, Foreign slack pid s f → s'.memory f = s.memory f) : Local slack pid s s' := by
  refine ⟨hprocess, fun place f hplace hf => ?_, fun place f hplace hf => ?_, hmemory⟩
  · cases place with
    | kernel page =>
        obtain ⟨hpage, hne⟩ := kernel_ne_zero_of_names hf
        have hkernel := hkernel page hne
        refine ⟨?_, ?_⟩
        · rintro (hhome | ⟨i, hhome⟩)
          · exact (hfresh _ _ hhome).elim (fun hhome => hplace (Or.inl hhome)) hne
          · exact (hfresh _ _ hhome).elim (fun hhome => hplace (Or.inr ⟨i, hhome⟩)) hne
        · rw [names_kernel_eq h.structured hpage hne] at hf
          rw [names_kernel_eq h' hpage (by rwa [hkernel]), hkernel, hf]
    | directory q i => exact ⟨hplace, (names_process_eq (hprocess q hplace) i).1.trans hf⟩
    | table q page => exact ⟨hplace, (names_process_eq (hprocess q hplace) page).2.trans hf⟩
  · cases place with
    | kernel page =>
        obtain ⟨hpage, hne⟩ := kernel_ne_zero_of_names hf
        rw [names_kernel_eq h' hpage hne] at hf
        rcases Classical.em (s.kernel page = .zero) with hzero | hold
        · refine Or.inr fun hforeign => ?_
          have hunused := ha page hplace hzero hne
          have hframe : (s'.kernel page).frame = f := by
            rw [named] at hf
            split at hf
            · exact Option.some.inj hf
            · cases hf
          rw [hframe, hforeign.used h hP] at hunused
          cases hunused
        · refine Or.inl ⟨?_, ?_⟩
          · rintro (hhome | ⟨i, hhome⟩)
            · exact hplace (Or.inl (hhomes _ _ hhome))
            · exact hplace (Or.inr ⟨i, hhomes _ _ hhome⟩)
          · rw [names_kernel_eq h.structured hpage hold, ← hkernel page hold, hf]
    | directory q i =>
        exact Or.inl ⟨hplace, (names_process_eq (hprocess q hplace) i).1.symm.trans hf⟩
    | table q page =>
        exact Or.inl ⟨hplace, (names_process_eq (hprocess q hplace) page).2.symm.trans hf⟩

theorem local_of_grows (h : Inv slack P s) (hP : ∀ f, 0 ≤ P f) (h' : Structured s')
    (hg : Grows s s') (hprocess : ∀ q, q ≠ pid → s'.process q = s.process q)
    (ha : Adds (fun page => Belongs s' pid (.kernel page)) s s') : Local slack pid s s' :=
  local_of_kernel h hP h' hg.kernel hg.homes hg.fresh hprocess ha fun f _ => by rw [hg.memory]

end

section

variable {slack : Nat → Nat} {P : Nat → ℤ} {s s' s'' : Machine} {f pid page i : Nat}

theorem belongs_of_home (hhome : home s' = home s) (place : Place) :
    Belongs s' pid place ↔ Belongs s pid place := by
  cases place <;> simp only [Belongs, hhome]

/-- Nothing but the process and new pages of the kernel, which are behind new frames or show
the tables of the process. -/
structure Aside (pid : Nat) (s s' : Machine) : Prop where
  process : ∀ q, q ≠ pid → s'.process q = s.process q
  adds : Adds (fun page => Belongs s' pid (.kernel page)) s s'

theorem Aside.trans (h : Aside pid s s') (h' : Aside pid s' s'') (hg : Grows s s')
    (hg' : Grows s' s'') : Aside pid s s'' := by
  refine ⟨fun q hq => (h'.process q hq).trans (h.process q hq), ?_⟩
  refine (h.adds.mono fun page hpage => ?_).trans h'.adds hg hg'
  exact hpage.imp (hg'.homes _ _) fun ⟨i, hi⟩ => ⟨i, hg'.homes _ _ hi⟩

theorem aside_of_kernel (hprocess : ∀ q, q ≠ pid → s'.process q = s.process q)
    (hkernel : s'.kernel = s.kernel) : Aside pid s s' := ⟨hprocess, adds_of_eq hkernel⟩

theorem mapPageTable_aside (h : Inv slack P s) (hP : ∀ f, 0 ≤ P f)
    (hdir : (s.process pid).pageDirectory ≠ none) (hi : i < PAGETABLE_COUNT)
    (hpresent : ((s.process pid).directory i).present = true) :
    Steps (mapPageTable pid i) s fun _ s' => Aside pid s s' := by
  rw [mapPageTable]
  refine yields_get_bind (yields_ite (fun _ => ?_) fun _ => ?_)
  · have hname : names s (.directory pid i) = some ((s.process pid).directory i).frame := by
      simp [names, hi, hpresent, Option.isSome_iff_ne_none.mpr hdir]
    have hused := (refs_pos_iff h.recorded).mp (h.refs_pos hname (hP _))
    refine ((physMemAddRefPage_spec h hused).and
      (physMemAddRefPage_adds (fun _ => False) h _)).bind ?_
    rintro _ s₁ ⟨⟨rfl, h₁, hg₁⟩, ha₁⟩
    refine ((pagingMapPhysMem_spec h₁ true false).and (pagingMapPhysMem_adds h₁ _ true false)).bind
      ?_
    rintro addr s₂ ⟨⟨-, hg₂, -⟩, ha₂⟩
    have hprocess : s₂.process = s.process := hg₂.process.trans hg₁.process
    refine yields_modify ⟨fun q hq => ?_, ?_⟩
    · rw [setProcess_of_ne hq, hprocess]
    · have hadds : Adds (fun page => page = pageOf addr) s s₂ :=
        (ha₁.mono (by simp)).trans ha₂ hg₁.toGrows hg₂.toGrows
      intro page hbut
      refine hadds page fun hpage => hbut (Or.inr ⟨i, ?_⟩)
      rw [home, setProcess_self, hpage, Process.setPageTable]
      exact Function.update_self ..
  · exact yields_pure (aside_of_kernel (fun _ _ => rfl) rfl)

theorem getProcessEntry_aside (h : Inv slack P s) (hP : ∀ f, 0 ≤ P f) (hpage : page < PAGE_COUNT)
    (alloc : Bool) :
    Steps (getProcessEntry pid page alloc) s fun _ s' => Aside pid s s' := by
  have hi := table_lt hpage
  rw [getProcessEntry]
  refine yields_get_bind (steps_check_bind fun _ => accessDirectory_steps h.structured fun hdir =>
    yields_get_bind ?_)
  refine yields_ite (fun hzero => yields_ite (fun _ => ?_) fun _ => ?_) fun _ => ?_
  · refine (physMemAllocPage_spec h false).bind ?_
    rintro f s₁ ⟨h₁, hsame, hg₁, hunused, -⟩
    rw [← hsame.process] at hdir hzero
    have h₂ := inv_addTable h₁ hdir hi hzero f
    rw [add_sub_cancel_right] at h₂
    have hg₂ := grows_addTable hg₁.toGrows h₁.structured hzero hunused
    have ha₂ : Aside pid s (Machine.addTable s₁ pid (page / PAGETABLE_COUNT) f) := by
      refine aside_of_kernel (fun q hq => ?_) hsame.kernel
      rw [← hsame.process]
      exact setProcess_of_ne hq
    refine yields_modify_bind ?_
    have hprocess : (Machine.addTable s₁ pid (page / PAGETABLE_COUNT) f).process pid =
        (s₁.process pid).setDirectory (page / PAGETABLE_COUNT) ⟨true, true, true, 0, f⟩ :=
      setProcess_self
    have hdir₂ : ((Machine.addTable s₁ pid (page / PAGETABLE_COUNT) f).process pid).pageDirectory ≠
        none := by
      rw [hprocess]
      exact hdir
    have hpresent : (((Machine.addTable s₁ pid (page / PAGETABLE_COUNT) f).process pid).directory
        (page / PAGETABLE_COUNT)).present = true := by
      rw [hprocess]
      simp [Process.setDirectory]
    refine ((mapPageTable_spec h₂ hP hdir₂ hi hpresent).and
      (mapPageTable_aside h₂ hP hdir₂ hi hpresent)).bind ?_
    rintro _ s₃ ⟨⟨h₃, hg₃, hm, -⟩, ha₃⟩
    refine yields_ok_bind (h₃.structured.accessTable_ok (p := some pid) hpage hm) ?_
    have ha := ha₂.trans ha₃ hg₂ hg₃
    refine yields_modify_bind (yields_pure ⟨fun q hq => ?_, ?_⟩)
    · rw [← ha.process q hq]
      exact setProcess_of_ne hq
    · have hhome : home (Machine.clearTable s₃ pid (page / PAGETABLE_COUNT)) = home s₃ :=
        home_setProcess rfl rfl
      intro q hbut
      exact ha.adds q fun hq => hbut ((belongs_of_home hhome _).mpr hq)
  · exact yields_pure (aside_of_kernel (fun _ _ => rfl) rfl)
  · refine steps_requirePresent_bind fun hpresent => steps_check_bind fun _ => ?_
    exact (mapPageTable_aside h hP hdir hi hpresent).bind fun _ s' hs' => yields_pure hs'

theorem getProcessEntry_local (h : Inv slack P s) (hP : ∀ f, 0 ≤ P f) (hpage : page < PAGE_COUNT)
    (alloc : Bool) :
    Steps (getProcessEntry pid page alloc) s fun _ s' => Local slack pid s s' := by
  refine ((getProcessEntry_spec h hP hpage alloc).and (getProcessEntry_aside h hP hpage alloc)).mono
    ?_
  rintro r s' ⟨⟨h', hg, -⟩, haside⟩
  exact local_of_grows h hP h'.structured hg haside.process haside.adds

/-- Every other place names what it named before. -/
theorem local_of_names (hprocess : ∀ q, q ≠ pid → s'.process q = s.process q)
    (hnames : ∀ place, ¬Belongs s pid place → names s' place = names s place)
    (hbelongs : ∀ place, Belongs s' pid place ↔ Belongs s pid place)
    (hmemory : s'.memory = s.memory) : Local slack pid s s' := by
  refine ⟨hprocess, fun place f hplace hf =>
    ⟨fun hplace' => hplace ((hbelongs place).mp hplace'), ?_⟩,
    fun place f hplace hf => ?_, fun f _ => by rw [hmemory]⟩
  · rw [hnames place hplace, hf]
  · have hold : ¬Belongs s pid place := fun hplace' => hplace ((hbelongs place).mpr hplace')
    exact Or.inl ⟨hold, by rw [← hnames place hold, hf]⟩

theorem SameTables.local (h : SameTables s s') : Local slack pid s s' :=
  local_of_names (fun _ _ => by rw [h.process]) (fun _ _ => by rw [h.names])
    (belongs_of_home h.homes) h.memory

theorem local_setEntry {e : PagingEntry} : Local slack pid s (s.setEntry (some pid) page e) := by
  have hprocess : ∀ q, q ≠ pid → (s.setEntry (some pid) page e).process q = s.process q :=
    fun q hq => setProcess_of_ne hq
  refine local_of_names hprocess (fun place hplace => ?_) (belongs_of_home home_setEntry)
    memory_setEntry
  cases place with
  | kernel q => rfl
  | directory q i => exact (names_process_eq (hprocess q hplace) i).1
  | table q i => exact (names_process_eq (hprocess q hplace) i).2

end

section

/-! Changes besides the pages of an area of the kernel. -/

variable {slack : Nat → Nat} {P : Nat → ℤ} {s s' s'' : Machine} {pid page : Nat}
  {area : Nat → Prop}

/-- Outside of an area of the kernel there are only new pages, as for `Grows` and `Aside`. -/
structure Quiet (pid : Nat) (area : Nat → Prop) (s s' : Machine) : Prop where
  memory : s'.memory = s.memory
  mapping : ∀ q page, mapping s' q page = References.mapping s q page
  process : ∀ q, q ≠ pid → s'.process q = s.process q
  used : ∀ f, used s f = true → References.used s' f = true
  kernel : ∀ page, ¬area page → s.kernel page ≠ .zero → s'.kernel page = s.kernel page
  homes : ∀ r k, home s r = some k → home s' r = some k
  fresh : ∀ r k, home s' r = some k → home s r = some k ∨ s.kernel k = .zero
  adds : Adds (fun page => area page ∨ Belongs s' pid (.kernel page)) s s'

theorem quiet_of_grows (hg : Grows s s') (ha : Aside pid s s') : Quiet pid area s s' :=
  ⟨hg.memory, hg.mapping, ha.process, hg.used, fun page _ => hg.kernel page, hg.homes, hg.fresh,
    ha.adds.mono fun _ => Or.inr⟩

theorem quiet_of_kernelGrows (hg : KernelGrows s s') (ha : Adds area s s') :
    Quiet pid area s s' :=
  ⟨hg.memory, hg.mapping, fun q _ => by rw [hg.process], hg.used, fun page _ => hg.kernel page,
    hg.homes, hg.fresh, ha.mono fun _ => Or.inl⟩

theorem Quiet.mono {area' : Nat → Prop} (h : Quiet pid area s s')
    (hsub : ∀ page, area page → area' page) : Quiet pid area' s s' :=
  ⟨h.memory, h.mapping, h.process, h.used, fun page hpage => h.kernel page fun hp =>
    hpage (hsub page hp),
    h.homes, h.fresh, h.adds.mono fun page => Or.imp_left (hsub page)⟩

theorem Quiet.trans (h : Quiet pid area s s') (h' : Quiet pid area s' s'')
    (harea : ∀ page, area page → ¬Owned s'' page) : Quiet pid area s s'' := by
  refine ⟨h'.memory.trans h.memory, fun q page => (h'.mapping q page).trans (h.mapping q page),
    fun q hq => (h'.process q hq).trans (h.process q hq), fun f hf => h'.used f (h.used f hf),
    fun page hpage hne => ?_, fun r k hr => h'.homes r k (h.homes r k hr), fun r k hr => ?_,
    fun page hbut hzero hne => ?_⟩
  · have hkernel := h.kernel page hpage hne
    rw [h'.kernel page hpage (by rwa [hkernel]), hkernel]
  · rcases h'.fresh r k hr with hr' | hzero
    · exact h.fresh r k hr'
    · refine Or.inr (Classical.byContradiction fun hne => ?_)
      have hout : ¬area k := fun hk => harea k hk ⟨r, hr⟩
      rw [h.kernel k hout hne] at hzero
      exact hne hzero
  · have hout : ¬area page := fun hpage => hbut (Or.inl hpage)
    rcases Classical.em (s'.kernel page = .zero) with hzero' | hne'
    · refine Bool.eq_false_iff.mpr fun hused => ?_
      have := h'.adds page hbut hzero' hne
      rw [h.used _ hused] at this
      cases this
    · rw [h'.kernel page hout hne']
      refine h.adds page (fun hor => hbut (hor.imp id fun hb => ?_)) hzero hne'
      exact hb.imp (h'.homes _ _) fun ⟨i, hi⟩ => ⟨i, h'.homes _ _ hi⟩

end

section

variable {slack : Nat → Nat} {s s₁ s₂ : Machine} {pid : Nat} {area : Nat → Prop}

end

section

/-! New pages of the kernel and the frames which processes have. -/

variable {slack : Nat → Nat} {P : Nat → ℤ} {s s' s'' : Machine} {f page : Nat}
  {but but' : Nat → Prop}

/-- New pages of the kernel, except for some, name no frame which a process has. -/
def Apart (but : Nat → Prop) (s s' : Machine) : Prop :=
  ∀ k f, ¬but k → s.kernel k = .zero → names s' (.kernel k) = some f →
    ∀ q page, names s' (.table q page) ≠ some f

/-- Moreover the processes have no frames which only the kernel had. -/
structure Tidy (but : Nat → Prop) (s s' : Machine) : Prop where
  kernel : ∀ k, ¬but k → s.kernel k ≠ .zero → s'.kernel k = s.kernel k
  tables : ∀ q page f, names s' (.table q page) = some f →
    used s f = false ∨ ∃ page', names s (.table q page') = some f
  apart : Apart but s s'

theorem Tidy.mono (h : Tidy but s s') (hsub : ∀ k, but k → but' k) : Tidy but' s s' where
  kernel k hk := h.kernel k fun hk' => hk (hsub k hk')
  tables := h.tables
  apart k f hk := h.apart k f fun hk' => hk (hsub k hk')

theorem apart_refl (but : Nat → Prop) (s : Machine) : Apart but s s := by
  intro k f _ hzero hname
  exact ((kernel_ne_zero_of_names hname).2 hzero).elim

theorem used_of_names (h : Inv slack P s) (hP : ∀ f, 0 ≤ P f) {place : Place}
    (hname : names s place = some f) : used s f = true :=
  (refs_pos_iff h.recorded).mp (h.refs_pos hname (hP f))

theorem names_of_kernel_eq (hs : Structured s) (hs' : Structured s')
    (heq : s'.kernel page = s.kernel page)
    (hname : names s' (.kernel page) = some f) : names s (.kernel page) = some f := by
  obtain ⟨hpage, hne⟩ := kernel_ne_zero_of_names hname
  rw [names_kernel_eq hs' hpage hne, heq] at hname
  rw [names_kernel_eq hs hpage (heq ▸ hne), hname]

theorem Apart.trans (h : Apart but s s') (h' : Tidy but s' s'') (hs' : Inv slack P s')
    (hP : ∀ f, 0 ≤ P f) (hs'' : Structured s'') : Apart but s s'' := by
  intro k f hk hzero hname q page htable
  rcases Classical.em (s'.kernel k = .zero) with hzero' | hne'
  · exact h'.apart k f hk hzero' hname q page htable
  · have hname' := names_of_kernel_eq hs'.structured hs'' (h'.kernel k hk hne') hname
    rcases h'.tables q page f htable with hunused | ⟨page', hold⟩
    · rw [used_of_names hs' hP hname'] at hunused
      cases hunused
    · exact h k f hk hzero hname' q page' hold

theorem names_table_of_mapping {q : Nat} (h : mapping s' q page = mapping s q page) :
    names s' (.table q page) = names s (.table q page) := by
  rw [names, names, h]

theorem frame_of_names (hs : Structured s) (hname : names s (.kernel page) = some f) :
    (s.kernel page).frame = f := by
  obtain ⟨hpage, hne⟩ := kernel_ne_zero_of_names hname
  rw [names_kernel_eq hs hpage hne, named] at hname
  split at hname
  · exact Option.some.inj hname
  · cases hname

theorem tidy_of_grows (h : Inv slack P s) (hP : ∀ f, 0 ≤ P f) (hs' : Structured s')
    (hg : Grows s s')
    (ha : Adds but s s') : Tidy but s s' where
  kernel k _ hne := hg.kernel k hne
  tables q page f hname := by
    rw [names_table_of_mapping (hg.mapping q page)] at hname
    exact Or.inr ⟨page, hname⟩
  apart k f hk hzero hname q page htable := by
    have hunused := ha k hk hzero (kernel_ne_zero_of_names hname).2
    rw [names_table_of_mapping (hg.mapping q page)] at htable
    rw [frame_of_names hs' hname, used_of_names h hP htable] at hunused
    cases hunused

end

end Ibnos.Locality
