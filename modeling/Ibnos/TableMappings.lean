import Ibnos.PagingPrograms

/-!
Every page table of a process is mapped into the kernel as soon as it exists, so
that `__getPagingEntry` never has to map one which is there already.
-/

namespace Ibnos.TableMappings

open Ibnos.Memory
open Ibnos.Physmem
open Ibnos.Paging
open Ibnos.Programs
open Ibnos.References
open Ibnos.UserAccesses
open Ibnos.BootPaging
open Ibnos.PagingRuns
open Ibnos.PagingPrograms
open Ibnos.Runs

section

/-- The page directories and the pages behind them, but not the page tables. -/
structure SameDirectories (s s' : Machine) : Prop where
  enabled : s'.pagingEnabled = s.pagingEnabled
  pageDirectory : ∀ q, (s'.process q).pageDirectory = (s.process q).pageDirectory
  pageTables : ∀ q, (s'.process q).pageTables = (s.process q).pageTables
  directory : ∀ q, (s'.process q).directory = (s.process q).directory

theorem sameDirectories_of_process {s s' : Machine} (henabled : s'.pagingEnabled = s.pagingEnabled)
    (hprocess : s'.process = s.process) : SameDirectories s s' := by
  refine ⟨henabled, fun q => ?_, fun q => ?_, fun q => ?_⟩ <;> rw [hprocess]

theorem sameDirectories_refl (s : Machine) :
    SameDirectories s s := sameDirectories_of_process rfl rfl

theorem SameDirectories.trans {s s' s'' : Machine} (h : SameDirectories s s')
    (h' : SameDirectories s' s'') : SameDirectories s s'' where
  enabled := h'.enabled.trans h.enabled
  pageDirectory q := (h'.pageDirectory q).trans (h.pageDirectory q)
  pageTables q := (h'.pageTables q).trans (h.pageTables q)
  directory q := (h'.directory q).trans (h.directory q)

theorem SameDirectories.mapped {s s' : Machine} {pid page : Nat} (h : SameDirectories s s') :
    Mapped s' (some pid) page ↔ Mapped s (some pid) page := by
  rw [Mapped, Mapped, h.pageTables]

theorem sameDirectories_setEntry (p : Option Nat) (page : Nat) (e : PagingEntry) (s : Machine) :
    SameDirectories s (s.setEntry p page e) := by
  rcases p with _ | pid
  · exact sameDirectories_of_process rfl rfl
  · refine ⟨rfl, fun q => ?_, fun q => ?_, fun q => ?_⟩ <;>
      rcases eq_or_ne q pid with rfl | hne <;>
      simp [Machine.setEntry, Machine.setProcess, Process.setTable, *]

theorem closed_sameDirectories : Closed fun _ m => Keeps SameDirectories m where
  pure := keeps_pure sameDirectories_refl
  throw := keeps_throw
  bind := Keeps.bind fun _ _ _ => SameDirectories.trans
  get_bind _ hf := Keeps.bind (fun _ _ _ => SameDirectories.trans)
    (keeps_get sameDirectories_refl) hf
  setKernel page e := keeps_modify (sameDirectories_setEntry none page e)
  setEntry p page e := keeps_modify (sameDirectories_setEntry p page e)
  setInfo _ _ := keeps_modify fun _ => sameDirectories_of_process rfl rfl
  take _ := keeps_modify fun _ => sameDirectories_of_process rfl rfl
  free _ := keeps_modify fun _ => sameDirectories_of_process rfl rfl
  setKernelTable _ _ := keeps_modify fun _ => sameDirectories_of_process rfl rfl
  setExtra _ _ := keeps_modify fun _ => sameDirectories_of_process rfl rfl

end

section

/-- The page tables of a process, except for one, are mapped. -/
def SettledBut (i : Option Nat) (p : Process) : Prop :=
  p.pageDirectory ≠ none → ∀ j, some j ≠ i → p.directory j ≠ .zero → p.pageTables j ≠ none

structure Settled (s : Machine) : Prop where
  enabled : s.pagingEnabled = true
  tables : ∀ pid, SettledBut none (s.process pid)

def KeepsSettled (s s' : Machine) : Prop := Settled s → Settled s'

theorem settledBut_congr {i : Option Nat} {p p' : Process}
    (hdirectory : p'.pageDirectory = p.pageDirectory) (htables : p'.pageTables = p.pageTables)
    (hentries : p'.directory = p.directory) (h : SettledBut i p) : SettledBut i p' := by
  intro hdir j hj hne
  rw [htables]
  rw [hdirectory] at hdir
  rw [hentries] at hne
  exact h hdir j hj hne

theorem SameDirectories.settledBut {s s' : Machine} (h : SameDirectories s s') {i : Option Nat}
    {q : Nat} (hq : SettledBut i (s.process q)) : SettledBut i (s'.process q) :=
  settledBut_congr (h.pageDirectory q) (h.pageTables q) (h.directory q) hq

theorem SameDirectories.keepsSettled {s s' : Machine} (h : SameDirectories s s') :
    KeepsSettled s s' :=
  fun hs => ⟨h.enabled.trans hs.enabled, fun q => h.settledBut (hs.tables q)⟩

theorem keeps_settled {α : Type} {m : M α} (h : Keeps SameDirectories m) : Keeps KeepsSettled m :=
  fun s a s' hok => (h s a s' hok).keepsSettled

theorem KeepsSettled.trans {s s' s'' : Machine} (h : KeepsSettled s s') (h' : KeepsSettled s' s'') :
    KeepsSettled s s'' := fun hs => h' (h hs)

/-- Afterwards the page table `i` is mapped, and the other ones are as before. -/
theorem mapPageTable_settles {s s' : Machine} {pid i : Nat} {u : Unit}
    (hok : mapPageTable pid i s = .ok (u, s')) (henabled : s.pagingEnabled = true)
    (hs : ∀ q, SettledBut (if q = pid then some i else none) (s.process q)) : Settled s' := by
  rw [mapPageTable, bind_apply, get_apply] at hok
  dsimp only at hok
  split at hok
  · obtain ⟨index, s₁, h₁, hok⟩ := bind_ok.mp hok
    obtain ⟨addr, s₂, h₂, hok⟩ := bind_ok.mp hok
    cases hok
    have hsame := (closed_sameDirectories.physMemAddRefPage _ _ _ _ h₁).trans
      (closed_sameDirectories.pagingMapPhysMem _ _ _ _ _ _ _ h₂)
    refine ⟨hsame.enabled.trans henabled, fun q => ?_⟩
    have hq := hsame.settledBut (hs q)
    rcases eq_or_ne q pid with rfl | hne
    · rw [if_pos rfl] at hq
      intro hdir j _ hj
      simp only [Machine.setProcess, Function.update_self, Process.setPageTable] at hdir hj ⊢
      rcases eq_or_ne j i with rfl | hji
      · simp
      · rw [Function.update_of_ne hji]
        exact hq hdir j (fun heq => hji (Option.some.inj heq)) hj
    · rw [if_neg hne] at hq
      simpa only [Machine.setProcess, Function.update_of_ne hne] using hq
  · rename_i hmapped
    cases hok
    refine ⟨henabled, fun q => ?_⟩
    rcases eq_or_ne q pid with rfl | hne
    · have hq := hs q
      rw [if_pos rfl] at hq
      intro hdir j _ hj
      rcases eq_or_ne j i with rfl | hji
      · exact hmapped
      · exact hq hdir j (fun heq => hji (Option.some.inj heq)) hj
    · have hq := hs q
      rwa [if_neg hne] at hq

end

section

theorem keeps_settled_bind {α β : Type} {m : M α} {f : α → M β} (hm : Keeps KeepsSettled m)
    (hf : ∀ a, Keeps KeepsSettled (f a)) : Keeps KeepsSettled (m >>= f) :=
  Keeps.bind (fun _ _ _ => KeepsSettled.trans) hm hf

theorem settledBut_none {i : Option Nat} {p : Process} (h : SettledBut none p) : SettledBut i p :=
  fun hdir j _ => h hdir j nofun

theorem settledBut_addTable {s : Machine} (hs : Settled s) (pid i frame q : Nat) :
    SettledBut (if q = pid then some i else none) ((Machine.addTable s pid i frame).process q) := by
  rcases eq_or_ne q pid with rfl | hne
  · rw [if_pos rfl]
    intro hdir j hj hzero
    have hji : j ≠ i := fun heq => hj (congrArg some heq)
    simp only [Machine.addTable, Machine.setProcess, Function.update_self, Process.setDirectory,
      Function.update_of_ne hji] at hdir hzero ⊢
    exact hs.tables q hdir j (by simp) hzero
  · rw [if_neg hne]
    simpa only [Machine.addTable, Machine.setProcess, Function.update_of_ne hne] using hs.tables q

theorem keeps_getProcessEntry (pid page : Nat) (alloc : Bool) :
    Keeps KeepsSettled (getProcessEntry pid page alloc) := by
  have h := closed_sameDirectories
  have hmap : Keeps KeepsSettled (mapPageTable pid (page / PAGETABLE_COUNT)) :=
    fun s a s' hok hs => mapPageTable_settles hok hs.enabled fun q =>
      settledBut_none (hs.tables q)
  refine keeps_settled_bind (keeps_get fun _ => id) fun s => ?_
  refine keeps_settled_bind (keeps_settled (h.check _)) fun _ => ?_
  refine keeps_settled_bind (keeps_settled (h.accessDirectory _)) fun _ => ?_
  refine keeps_settled_bind (keeps_get fun _ => id) fun s => ?_
  refine keeps_ite (keeps_ite ?_ (keeps_pure (fun _ => id) _)) ?_
  · refine keeps_settled_bind (keeps_settled (h.physMemAllocPage _)) fun frame => ?_
    -- the new table is mapped by the next step only
    intro s a s' hok hs
    obtain ⟨_, s₁, ⟨⟩, hok⟩ := bind_ok.mp hok
    obtain ⟨_, s₂, hmapped, hok⟩ := bind_ok.mp hok
    have hs₂ : Settled s₂ := mapPageTable_settles hmapped hs.enabled fun q =>
      settledBut_addTable hs pid _ frame q
    obtain ⟨_, s₃, haccess, hok⟩ := bind_ok.mp hok
    have hs₃ := (h.accessTable _ _ _ _ _ haccess).keepsSettled hs₂
    obtain ⟨_, s₄, ⟨⟩, hok⟩ := bind_ok.mp hok
    cases hok
    refine ⟨hs₃.enabled, fun q => ?_⟩
    rcases eq_or_ne q pid with rfl | hne
    · refine settledBut_congr ?_ ?_ ?_ (hs₃.tables q) <;>
        simp only [Machine.clearTable, Machine.setProcess, Function.update_self]
    · simpa only [Machine.clearTable, Machine.setProcess,
        Function.update_of_ne hne] using hs₃.tables q
  · refine keeps_settled_bind (keeps_settled (h.requirePresent _)) fun _ => ?_
    refine keeps_settled_bind (keeps_settled (h.check _)) fun _ => ?_
    exact keeps_settled_bind hmap fun _ => keeps_pure (fun _ => id) _

/-- A page table is unmapped right before its entry of the page directory is cleared. -/
theorem keeps_dropTable (pid i : Nat) :
    Keeps KeepsSettled (dropPageTable pid i >>= fun _ => dropDirectoryEntry pid i) := by
  have h := closed_sameDirectories
  intro s a s' hok hs
  obtain ⟨_, s₁, hdrop, hok⟩ := bind_ok.mp hok
  have hs₁ : s₁.pagingEnabled = true ∧
      ∀ q, SettledBut (if q = pid then some i else none) (s₁.process q) := by
    rw [dropPageTable, bind_apply, get_apply] at hdrop
    rcases htable : (s.process pid).pageTables i with _ | k <;> simp only [htable] at hdrop
    · cases hdrop
      exact ⟨hs.enabled, fun q => settledBut_none (hs.tables q)⟩
    · obtain ⟨_, s₂, hrelease, hdrop⟩ := bind_ok.mp hdrop
      cases hdrop
      have hs₂ := (h.pagingReleasePhysMem _ _ _ _ _ hrelease).keepsSettled hs
      refine ⟨hs₂.enabled, fun q => ?_⟩
      rcases eq_or_ne q pid with rfl | hne
      · rw [if_pos rfl]
        intro hdir j hj hzero
        have hji : j ≠ i := fun heq => hj (congrArg some heq)
        simp only [Machine.setProcess, Function.update_self, Process.setPageTable,
          Function.update_of_ne hji] at hdir hzero ⊢
        exact hs₂.tables q hdir j (by simp) hzero
      · rw [if_neg hne]
        simpa only [Machine.setProcess, Function.update_of_ne hne] using hs₂.tables q
  rw [dropDirectoryEntry] at hok
  obtain ⟨_, s₂, haccess, hok⟩ := bind_ok.mp hok
  have hsame := h.accessDirectory _ _ _ _ haccess
  have hs₂ : ∀ q, SettledBut (if q = pid then some i else none) (s₂.process q) := fun q =>
    hsame.settledBut (hs₁.2 q)
  rw [bind_apply, get_apply] at hok
  dsimp only at hok
  split at hok
  · rename_i hzero
    cases hok
    refine ⟨hsame.enabled.trans hs₁.1, fun q => ?_⟩
    rcases eq_or_ne q pid with rfl | hne
    · intro hdir j _ hj
      have hji : some j ≠ some i := by
        rintro ⟨⟩
        exact hj hzero
      have hq := hs₂ q
      rw [if_pos rfl] at hq
      exact hq hdir j hji hj
    · have hq := hs₂ q
      rwa [if_neg hne] at hq
  · obtain ⟨_, s₃, hpresent, hok⟩ := bind_ok.mp hok
    have hsame₃ := h.requirePresent _ _ _ _ hpresent
    obtain ⟨_, s₄, ⟨⟩, hok⟩ := bind_ok.mp hok
    obtain ⟨_, s₅, hrelease, hok⟩ := bind_ok.mp hok
    cases hok
    refine (h.physMemReleasePage _ _ _ _ hrelease).keepsSettled
      ⟨(hsame.trans hsame₃).enabled.trans hs₁.1, fun q => ?_⟩
    have hq := hsame₃.settledBut (hs₂ q)
    rcases eq_or_ne q pid with rfl | hne
    · rw [if_pos rfl] at hq
      intro hdir j _ hj
      simp only [Machine.setProcess, Function.update_self, Process.setDirectory] at hdir hj ⊢
      rcases eq_or_ne j i with rfl | hji
      · simp at hj
      · rw [Function.update_of_ne hji] at hj
        exact hq hdir j (fun heq => hji (Option.some.inj heq)) hj
    · rw [if_neg hne] at hq
      simpa only [Machine.setProcess, Function.update_of_ne hne] using hq

end

section

theorem keeps_dropTables (pid rounds i : Nat) : Keeps KeepsSettled (dropTables pid rounds i) := by
  induction rounds generalizing i with
  | zero => exact keeps_pure (fun _ => id) _
  | succ rounds ih =>
      intro s a s' hok hs
      obtain ⟨_, s₁, h₁, hok⟩ := bind_ok.mp hok
      obtain ⟨_, s₂, h₂, hok⟩ := bind_ok.mp hok
      exact ih _ _ _ _ hok (keeps_dropTable pid i _ _ _ (bind_ok.mpr ⟨_, s₁, h₁, h₂⟩) hs)

theorem keeps_dropDirectory (pid : Nat) : Keeps KeepsSettled (dropDirectory pid) := by
  intro s a s' hok hs
  rw [dropDirectory, bind_apply, get_apply] at hok
  rcases hdir : (s.process pid).pageDirectory with _ | k <;> simp only [hdir] at hok
  · cases hok
  · obtain ⟨_, s₁, hrelease, hok⟩ := bind_ok.mp hok
    cases hok
    have hs₁ := (closed_sameDirectories.pagingReleasePhysMem _ _ _ _ _ hrelease).keepsSettled hs
    refine ⟨hs₁.enabled, fun q => ?_⟩
    rcases eq_or_ne q pid with rfl | hne
    · intro hne
      simp [Machine.setProcess] at hne
    · simpa only [Machine.setProcess, Function.update_of_ne hne] using hs₁.tables q

theorem keeps_copyPage (destination source : Nat) :
    Keeps KeepsSettled (copyPage destination source) := by
  refine keeps_settled_bind (keeps_get fun _ => id) fun s => ?_
  split
  · exact keeps_modify fun _ hs => ⟨hs.enabled, hs.tables⟩
  · exact keeps_throw _

theorem settled_setPageDirectory (pid addr : Nat) (s : Machine) (hs : Settled s) :
    Settled (Machine.setPageDirectory s pid addr) := by
  refine ⟨hs.enabled, fun q => ?_⟩
  rcases eq_or_ne q pid with rfl | hne
  · intro _ j _ hj
    simp [Machine.setPageDirectory, Machine.setProcess] at hj
  · simpa only [Machine.setPageDirectory, Machine.setProcess,
      Function.update_of_ne hne] using hs.tables q

theorem processClosed_settled : ProcessClosed fun _ m => Keeps KeepsSettled m where
  pure := keeps_pure fun _ => id
  throw := keeps_throw
  bind := keeps_settled_bind
  get_bind _ hf := keeps_settled_bind (keeps_get fun _ => id) hf
  setKernel page e := keeps_settled (closed_sameDirectories.setKernel page e)
  setEntry p page e := keeps_settled (closed_sameDirectories.setEntry p page e)
  setInfo index info := keeps_settled (closed_sameDirectories.setInfo index info)
  take index := keeps_settled (closed_sameDirectories.take index)
  free index := keeps_settled (closed_sameDirectories.free index)
  setKernelTable i frame := keeps_settled (closed_sameDirectories.setKernelTable i frame)
  setExtra i addr := keeps_settled (closed_sameDirectories.setExtra i addr)
  getProcessEntry := keeps_getProcessEntry
  copyPage := keeps_copyPage
  setPageDirectory pid addr := keeps_modify fun s hs => settled_setPageDirectory pid addr s hs
  dropTables := keeps_dropTables
  dropDirectory := keeps_dropDirectory

end

section

theorem keeps_settled_pure {α : Type} (a : α) : Keeps KeepsSettled (pure a : M α) :=
  keeps_pure (fun _ => id) a

theorem keeps_loadUser (pid addr : Nat) : Keeps KeepsSettled (loadUser pid addr) :=
  keeps_settled_bind (keeps_get fun _ => id) fun _ => keeps_settled_pure _

theorem keeps_storeUser (pid addr : Nat) (value : BitVec 8) :
    Keeps KeepsSettled (storeUser pid addr value) := by
  refine keeps_settled_bind (keeps_get fun _ => id) fun s => ?_
  split
  · refine keeps_ite (keeps_ite (keeps_throw _) ?_) (keeps_settled_pure _)
    exact keeps_settled_bind (keeps_modify fun _ hs => ⟨hs.enabled, hs.tables⟩) fun _ =>
      keeps_settled_pure _
  · exact keeps_settled_pure _

theorem keeps_touchPages {length : Nat} (start : Nat) (rw : Bool) (touches : Touches length) :
    Keeps KeepsSettled (touchPages start rw touches) := by
  induction touches with
  | nil => exact keeps_settled_pure _
  | cons t touches ih =>
      obtain ⟨j, offset, value⟩ := t
      cases value with
      | none =>
          refine keeps_settled_bind (keeps_settled_bind (keeps_get fun _ => id) fun s => ?_)
            fun _ =>
            keeps_settled_bind ih fun _ => keeps_settled_pure _
          split
          · exact keeps_throw _
          · exact keeps_settled_pure _
      | some value =>
          cases rw with
          | false =>
              exact keeps_settled_bind (f := fun _ => touchPages start false touches)
                (keeps_settled_pure ()) fun _ => ih
          | true =>
              refine keeps_settled_bind (keeps_settled_bind (keeps_get fun _ => id) fun s => ?_)
                fun _ => ih
              split
              · exact keeps_throw _
              · exact keeps_ite (keeps_throw _) (keeps_modify fun _ hs => ⟨hs.enabled, hs.tables⟩)

theorem keeps_perform (a : Access) : Keeps KeepsSettled (perform a) := by
  have h := processClosed_settled
  cases a with
  | read pid addr =>
      refine keeps_settled_bind (keeps_settled_bind (keeps_loadUser _ _) fun value => ?_) fun _ =>
        keeps_settled_pure _
      cases value with
      | some value => exact keeps_settled_pure _
      | none =>
          refine keeps_settled_bind (h.pageFaultHandler _ _ _ _) fun _ => ?_
          exact keeps_ite (keeps_loadUser _ _) (keeps_settled_pure _)
  | write pid addr value =>
      refine keeps_settled_bind (keeps_settled_bind (keeps_storeUser _ _ _) fun _ => ?_) fun _ =>
        keeps_settled_pure _
      refine keeps_ite (keeps_settled_pure _)
        (keeps_settled_bind (h.pageFaultHandler _ _ _ _) fun _ => ?_)
      exact keeps_ite (keeps_storeUser _ _ _) (keeps_settled_pure _)
  | kernel pid src_addr length rw touches =>
      refine keeps_settled_bind (keeps_settled_bind (h.pagingTryMapUserMem _ _ _ _) fun addr => ?_)
        fun _ => keeps_settled_pure _
      cases addr with
      | none => exact keeps_settled_pure _
      | some addr =>
          refine keeps_settled_bind (keeps_touchPages _ _ _) fun _ => ?_
          exact keeps_settled_bind (h.pagingReleasePhysMem _ _) fun _ => keeps_settled_pure _
  | fork destination source =>
      exact keeps_settled_bind (h.pagingForkProcessPageTable _ _) fun _ => keeps_settled_pure _
  | release pid addr length =>
      exact keeps_settled_bind (h.releaseLoop (h.getPagingEntry _) _ _ _ _) fun _ =>
        keeps_settled_pure _
  | teardown pid =>
      exact keeps_settled_bind (h.pagingReleaseProcessPageTable _) fun _ => keeps_settled_pure _

theorem keeps_happen (event : Event) : Keeps KeepsSettled (happen event) := by
  cases event with
  | operation op =>
      exact keeps_settled_bind (processClosed_settled.operate op) fun _ => keeps_settled_pure _
  | access a => exact keeps_perform a

theorem Reached.settled {s : Machine} (h : Reached s) : Settled s := by
  obtain ⟨s₀, events, answers, hstarted, -, hrun⟩ := h
  obtain ⟨_, -, henabled, hempty⟩ := hstarted.inv_empty
  have hs₀ : Settled s₀ := by
    refine ⟨henabled, fun pid hdir => ?_⟩
    rw [hempty pid] at hdir
    exact (hdir rfl).elim
  refine run_invariant (I := Settled) (fun s event s' answer hs _ hnext => ?_) hs₀
    (along_true next s₀ events) hrun
  exact keeps_happen event _ _ _ (map_eq_ok hnext) hs

end

section

variable {s s' : Machine} {page : Nat} {p : Option Nat}

/-- With all page tables mapped, looking for an entry changes nothing. -/
theorem getPagingEntry_settled (hs : Settled s) {r : Bool}
    (hok : getPagingEntry p page false s = .ok (r, s')) : s' = s := by
  cases p with
  | none =>
      rw [getPagingEntry, getKernelEntry] at hok
      obtain ⟨_, _, ⟨⟩, hok₁⟩ := bind_ok.mp hok
      obtain ⟨_, s₁, haccess, hok₂⟩ := bind_ok.mp hok₁
      obtain rfl := keeps_access _ _ _ _ _ haccess
      obtain ⟨_, _, ⟨⟩, hok₃⟩ := bind_ok.mp hok₂
      split at hok₃
      · cases hok₃
        rfl
      · obtain ⟨_, s₂, hpresent, hok₄⟩ := bind_ok.mp hok₃
        obtain rfl := requirePresent_inv hpresent
        obtain ⟨_, s₃, hcheck, hok₅⟩ := bind_ok.mp hok₄
        obtain ⟨-, rfl⟩ := check_inv hcheck
        cases hok₅
        rfl
  | some pid =>
      rw [getPagingEntry, getProcessEntry] at hok
      obtain ⟨_, _, ⟨⟩, hok₁⟩ := bind_ok.mp hok
      obtain ⟨_, s₁, hcheck, hok₂⟩ := bind_ok.mp hok₁
      obtain ⟨-, rfl⟩ := check_inv hcheck
      obtain ⟨_, s₂, haccess, hok₃⟩ := bind_ok.mp hok₂
      obtain rfl := keeps_accessDirectory _ _ _ _ haccess
      obtain ⟨_, _, ⟨⟩, hok₄⟩ := bind_ok.mp hok₃
      split at hok₄
      · cases hok₄
        rfl
      · next hne =>
        have hdir : (s₁.process pid).pageDirectory ≠ none := by
          intro hnone
          obtain ⟨_, _, ⟨⟩, haccess₁⟩ := bind_ok.mp haccess
          rw [hnone] at haccess₁
          cases haccess₁
        obtain ⟨_, s₃, hpresent, hok₅⟩ := bind_ok.mp hok₄
        obtain rfl := requirePresent_inv hpresent
        obtain ⟨_, s₄, hcheck', hok₆⟩ := bind_ok.mp hok₅
        obtain ⟨-, rfl⟩ := check_inv hcheck'
        obtain ⟨_, s₅, hmap, hok₇⟩ := bind_ok.mp hok₆
        rw [mapPageTable] at hmap
        obtain ⟨_, _, ⟨⟩, hmap₁⟩ := bind_ok.mp hmap
        rw [if_neg (hs.tables pid hdir _ (by simp) hne)] at hmap₁
        cases hmap₁
        cases hok₇
        rfl

end

end Ibnos.TableMappings
