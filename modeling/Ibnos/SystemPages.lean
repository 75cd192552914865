import Ibnos.SectionStores

/-!
The page table of a new program. It starts with the pages which every process has, and the user
can access none of them.
-/

namespace Ibnos.SystemPages

open Ibnos.ElfLoader
open Ibnos.Intervals
open Ibnos.KernelPages
open Ibnos.LoadedPages
open Ibnos.LoaderRemains
open Ibnos.Memory
open Ibnos.Paging
open Ibnos.PagingOperations
open Ibnos.PagingPrograms
open Ibnos.PagingRuns
open Ibnos.ProcessPages
open Ibnos.Programs
open Ibnos.References
open Ibnos.Runs
open Ibnos.SectionStores
open Ibnos.SectionTables

def USERMODE_KERNELSTACK_ADDRESS : Nat := 0xFF800000

def USERMODE_GDT_ADDRESS : Nat := 0xFF801000

def USERMODE_IDT_ADDRESS : Nat := 0xFF811000

def USERMODE_INTJMP_ADDRESS : Nat := 0xFF812000

def USERMODE_TASK_ADDRESS : Nat := 0xFF813000

def GDT_MAX_PAGES : Nat := 16

/-- What `SYSCALL_EXECUTE_PROGRAM` does before it loads the program. -/
def allocProgramPageTable (pid kernelStack intJmpTable_user : Nat) : M Unit := do
  pagingAllocProcessPageTable pid
  let _ ← pagingMapRemoteMemory (some pid) none USERMODE_KERNELSTACK_ADDRESS kernelStack 1 true false
  let _ ← pagingMapRemoteMemory (some pid) none USERMODE_GDT_ADDRESS USERMODE_GDT_ADDRESS GDT_MAX_PAGES
    false false
  let _ ← pagingMapRemoteMemory (some pid) none USERMODE_IDT_ADDRESS USERMODE_IDT_ADDRESS 1 false false
  let _ ← pagingMapRemoteMemory (some pid) none USERMODE_INTJMP_ADDRESS intJmpTable_user 1 false false
  let _ ← pagingMapRemoteMemory (some pid) none USERMODE_TASK_ADDRESS USERMODE_TASK_ADDRESS 1 false false
  return ()

section

variable {s s' : Machine} {pid page i : Nat} {e : PagingEntry} {X : Nat → Prop}

/-- The user can access no page, except perhaps for some. -/
structure PreparedBut (X : Nat → Prop) (s : Machine) (pid : Nat) : Prop where
  directory : (s.process pid).pageDirectory ≠ none
  blocked : ∀ page, ¬X page → Blocked s pid page

/-- A process which has system pages only. -/
def Prepared (s : Machine) (pid : Nat) : Prop := PreparedBut (fun _ => False) s pid

def KeepsPrepared (X : Nat → Prop) (pid : Nat) (s s' : Machine) : Prop :=
  PreparedBut X s pid → PreparedBut X s' pid

theorem preparedBut_setProcess {p : Process} (hdir : p.pageDirectory ≠ none)
    (h : ∀ page, ¬X page → p.directory (page / PAGETABLE_COUNT) = .zero ∨
      (p.table page).user = false) :
    PreparedBut X (s.setProcess pid p) pid := by
  refine ⟨by rwa [setProcess_self], fun page hpage => ?_⟩
  rw [Blocked, setProcess_self]
  exact h page hpage

theorem keepsPrepared_of_process (X : Nat → Prop) (pid : Nat) (h : s'.process = s.process) :
    KeepsPrepared X pid s s' := by
  refine fun hs => ⟨by rw [h]; exact hs.directory, fun page hpage => ?_⟩
  rw [Blocked, h]
  exact hs.blocked page hpage

theorem keepsPrepared_refl (X : Nat → Prop) (pid : Nat) (s : Machine) :
    KeepsPrepared X pid s s := id

theorem KeepsPrepared.trans {s'' : Machine} (h : KeepsPrepared X pid s s')
    (h' : KeepsPrepared X pid s' s'') :
    KeepsPrepared X pid s s'' := fun hs => h' (h hs)

theorem kernelClosed_keepsPrepared (X : Nat → Prop) (pid : Nat) :
    KernelClosed fun _ m => Keeps (KeepsPrepared X pid) m where
  pure := keeps_pure (keepsPrepared_refl X pid)
  throw := keeps_throw
  bind := Keeps.bind fun _ _ _ => KeepsPrepared.trans
  get_bind _ hf := Keeps.bind (fun _ _ _ => KeepsPrepared.trans)
    (keeps_get (keepsPrepared_refl X pid)) hf
  setKernel _ _ := keeps_modify fun _ => keepsPrepared_of_process X pid rfl
  setInfo _ _ := keeps_modify fun _ => keepsPrepared_of_process X pid rfl
  take _ := keeps_modify fun _ => keepsPrepared_of_process X pid rfl
  setKernelTable _ _ := keeps_modify fun _ => keepsPrepared_of_process X pid rfl
  setExtra _ _ := keeps_modify fun _ => keepsPrepared_of_process X pid rfl

theorem keepsPrepared_free (X : Nat → Prop) (pid index : Nat) :
    Keeps (KeepsPrepared X pid) (modify fun s => s.setBit index false : M Unit) :=
  keeps_modify fun _ => keepsPrepared_of_process X pid rfl

theorem keepsPrepared_copyPage (X : Nat → Prop) (pid destination source : Nat) :
    Keeps (KeepsPrepared X pid) (copyPage destination source) := by
  have h := kernelClosed_keepsPrepared X pid
  refine h.bind (keeps_get (keepsPrepared_refl X pid)) fun s => ?_
  split
  · exact keeps_modify fun _ => keepsPrepared_of_process X pid rfl
  · exact h.throw _

theorem keepsPrepared_duplicateIf (X : Nat → Prop) (pid page : Nat) (b : Bool) :
    Keeps (KeepsPrepared X pid) (duplicateIf b none page) := by
  have h := kernelClosed_keepsPrepared X pid
  refine closed_ite (C := fun _ m => Keeps (KeepsPrepared X pid) m) ?_ (h.pure ())
  exact h.duplicatePage (keepsPrepared_free X pid) (keepsPrepared_copyPage X pid)
    (h.storeKernelEntry page)

theorem keepsPrepared_storeEntry (h : X page ∨ e.user = false) :
    Keeps (KeepsPrepared X pid) (storeEntry (some pid) page e) := by
  have hclosed := kernelClosed_keepsPrepared X pid
  refine hclosed.bind (hclosed.accessTable _ _) fun _ => keeps_modify fun s hs => ?_
  refine preparedBut_setProcess hs.directory fun page' hpage' => (hs.blocked page' hpage').imp id
    fun hold => ?_
  rcases eq_or_ne page' page with rfl | hne
  · exact (congrArg _ (Function.update_self ..)).trans (h.resolve_left hpage')
  · exact (congrArg _ (Function.update_of_ne hne ..)).trans hold

theorem keepsPrepared_mapPageTable (X : Nat → Prop) (pid i : Nat) :
    Keeps (KeepsPrepared X pid) (mapPageTable pid i) := by
  have h := kernelClosed_keepsPrepared X pid
  refine h.get_bind (fun _ _ => rfl) fun s => ?_
  dsimp only
  refine closed_ite (C := fun _ m => Keeps (KeepsPrepared X pid) m) ?_ (h.pure ())
  refine h.bind (h.physMemAddRefPage _) fun _ => h.bind (h.pagingMapPhysMem _ _ _ _) fun addr => ?_
  exact keeps_modify fun s hs => preparedBut_setProcess hs.directory hs.blocked

/-- A new page table may hold anything before it is cleared. -/
theorem preparedBut_addTable (i frame : Nat) (h : PreparedBut X s pid) :
    PreparedBut (fun page => X page ∨ page / PAGETABLE_COUNT = i) (Machine.addTable s pid i frame)
      pid := by
  have hprocess : (Machine.addTable s pid i frame).process =
      (s.setProcess pid ((s.process pid).setDirectory i ⟨true, true, true, 0, frame⟩)).process :=
        rfl
  refine keepsPrepared_of_process _ pid hprocess
    (preparedBut_setProcess h.directory fun page hpage => ?_)
  rw [not_or] at hpage
  refine (h.blocked page hpage.1).imp (fun hzero => ?_) id
  exact (Function.update_of_ne hpage.2 ..).trans hzero

theorem preparedBut_clearTable
    (h : PreparedBut (fun page => X page ∨ page / PAGETABLE_COUNT = i) s pid) :
    PreparedBut X (Machine.clearTable s pid i) pid := by
  refine preparedBut_setProcess h.directory fun page hpage => ?_
  dsimp only
  rcases eq_or_ne (page / PAGETABLE_COUNT) i with heq | hne
  · rw [if_pos heq]
    exact Or.inr rfl
  · rw [if_neg hne]
    exact h.blocked page (not_or.mpr ⟨hpage, hne⟩)

theorem keepsPrepared_getProcessEntry (X : Nat → Prop) (pid page : Nat) (alloc : Bool) :
    Keeps (KeepsPrepared X pid) (getProcessEntry pid page alloc) := by
  have h := kernelClosed_keepsPrepared X pid
  refine h.bind (keeps_get (keepsPrepared_refl X pid)) fun _ => h.bind (h.check _) fun _ => ?_
  refine h.bind (h.accessDirectory _) fun _ => h.bind (keeps_get (keepsPrepared_refl X pid))
    fun _ => ?_
  refine keeps_ite (keeps_ite ?_ (h.pure _)) ?_
  · refine h.bind (h.physMemAllocPage _) fun frame s a s' hok hs => ?_
    obtain ⟨_, s₁, ⟨⟩, hok₁⟩ := bind_ok.mp hok
    obtain ⟨_, s₂, hmapped, hok₂⟩ := bind_ok.mp hok₁
    obtain ⟨_, s₃, haccess, hok₃⟩ := bind_ok.mp hok₂
    obtain ⟨_, s₄, ⟨⟩, hok₄⟩ := bind_ok.mp hok₃
    cases hok₄
    refine preparedBut_clearTable
      ((kernelClosed_keepsPrepared _ pid).accessTable _ _ _ _ _ haccess ?_)
    exact keepsPrepared_mapPageTable _ _ _ _ _ _ hmapped (preparedBut_addTable _ _ hs)
  · refine h.bind (h.requirePresent _) fun _ => h.bind (h.check _) fun _ => ?_
    exact h.bind (keepsPrepared_mapPageTable _ _ _) fun _ => h.pure _

theorem keepsPrepared_reserveArea (X : Nat → Prop) (pid length cur : Nat) :
    Keeps (KeepsPrepared X pid) (pagingReserveArea (some pid) false length cur) := by
  have h := kernelClosed_keepsPrepared X pid
  induction length generalizing cur with
  | zero => exact h.pure _
  | succ length ih =>
      refine h.bind (keepsPrepared_getProcessEntry _ _ _ _) fun _ =>
        h.bind (h.loadEntry _ _) fun _ => ?_
      exact h.bind (h.check _) fun _ => h.bind (keepsPrepared_storeEntry (Or.inr rfl)) fun _ => ih _

theorem keepsPrepared_remoteLoop (X : Nat → Prop) (pid : Nat) (rw : Bool)
    (length dst_cur src_cur : Nat) :
    Keeps (KeepsPrepared X pid) (remoteLoop (some pid) none rw false length dst_cur src_cur) := by
  have h := kernelClosed_keepsPrepared X pid
  induction length generalizing dst_cur src_cur with
  | zero => exact h.pure _
  | succ length ih =>
      refine h.bind (h.getKernelEntry _ _) fun _ => h.bind (h.check _) fun _ => ?_
      refine h.bind (h.loadEntry _ _) fun _ => h.bind (h.check _) fun _ => ?_
      refine h.bind (keepsPrepared_getProcessEntry _ _ _ _) fun _ =>
        h.bind (h.loadEntry _ _) fun _ => ?_
      refine h.bind (h.check _) fun _ => h.bind (h.requirePresent _) fun _ => ?_
      refine h.bind (keepsPrepared_duplicateIf _ _ _ _) fun _ =>
        h.bind (h.loadEntry _ _) fun _ => ?_
      refine h.bind (keepsPrepared_storeEntry (Or.inr rfl)) fun _ => ?_
      exact h.bind (h.physMemAddRefPage _) fun _ => ih _ _

/-- Memory of the kernel which a process gets is not shown to its user. -/
theorem keepsPrepared_mapRemoteMemory (X : Nat → Prop) (pid : Nat) {dst_addr : Nat}
    (haddr : dst_addr ≠ 0)
    (src_addr length : Nat) (rw : Bool) :
    Keeps (KeepsPrepared X pid)
    (pagingMapRemoteMemory (some pid) none dst_addr src_addr length rw false) := by
  have h := kernelClosed_keepsPrepared X pid
  rw [pagingMapRemoteMemory, areaOf, if_neg haddr, pure_bind]
  refine keeps_ite (h.pure _) (h.bind (keepsPrepared_reserveArea _ _ _ _) fun _ => ?_)
  exact h.bind (keepsPrepared_remoteLoop _ _ _ _ _ _) fun _ => h.pure _

theorem keepsPrepared_fixedLoop {addr : Nat} {rw user : Bool} {length cur : Nat}
    (hX : ∀ page, Span length cur page → X page) :
    Keeps (KeepsPrepared X pid) (fixedLoop (some pid) addr rw user length cur) := by
  have h := kernelClosed_keepsPrepared X pid
  have hfree := keepsPrepared_free X pid
  induction length generalizing cur with
  | zero => exact h.pure _
  | succ length ih =>
      refine h.bind (h.physMemAllocPage _) fun _ => h.bind (keepsPrepared_getProcessEntry _ _ _ _)
        fun _ => ?_
      refine h.bind (h.loadEntry _ _) fun _ => keeps_ite ?_ ?_
      · refine h.bind (h.physMemReleasePage hfree _) fun _ => ?_
        exact h.bind (h.pagingReleasePhysMem hfree _ _) fun _ => h.pure _
      · refine h.bind (keepsPrepared_storeEntry (Or.inl (hX _ (Or.inl rfl)))) fun _ => ?_
        exact ih fun page hpage => hX page (Or.inr hpage)

theorem keepsPrepared_allocatePhysMemFixed {addr length : Nat} {rw user : Bool}
    (hX : ∀ page, Span length addr page → X page) :
    Keeps (KeepsPrepared X pid) (pagingAllocatePhysMemFixed (some pid) addr length rw user) := by
  have h := kernelClosed_keepsPrepared X pid
  refine h.bind (closed_ite (C := fun _ m => Keeps (KeepsPrepared X pid) m) (h.pure _) ?_)
    fun addr => ?_
  · exact h.bind (keepsPrepared_fixedLoop hX) fun _ => h.pure _
  · cases addr with
    | none => exact h.throw _
    | some addr => exact h.pure _

/-- The new pages of a program are the only ones which its user can access. -/
theorem allocateLoop_prepared {pages : List RequiredPages} {s s' : Loader} {u : Unit}
    (hc : Canonical (ranges pages)) (hlt : ∀ n, Covers (ranges pages) n → n < PAGE_COUNT)
    (hX : ∀ n, Covers (ranges pages) n → X n) (h : PreparedBut X s.machine pid)
    (hok : allocateLoop pid pages s = .ok (u, s')) : PreparedBut X s'.machine pid := by
  induction pages generalizing s with
  | nil =>
      cases hok
      exact h
  | cons it rest ih =>
      obtain ⟨hlt', -, hrest⟩ := canonical_cons_iff.mp hc
      have hrange := covers_ranges_cons it rest
      obtain ⟨-, -, hspan⟩ := span_range hlt' fun n hstart hstop =>
        hlt n ((hrange n).mpr (Or.inl ⟨hstart, hstop⟩))
      obtain ⟨r, s₁, hallocate, hok₁⟩ := bind_ok.mp hok
      obtain ⟨_, s₂, hfree, hok₂⟩ := bind_ok.mp hok₁
      have hmachine := (heapFree_same hfree).machine
      have h₁ : PreparedBut X s₁.machine pid := by
        refine keepsPrepared_allocatePhysMemFixed (fun n hn => ?_) _ _ _
          (onMachine_ok hallocate).1 h
        exact hX n ((hrange n).mpr (Or.inl ((hspan n).mp hn)))
      exact ih hrest (fun n hn => hlt n ((hrange n).mpr (Or.inr hn)))
        (fun n hn => hX n ((hrange n).mpr (Or.inr hn))) (hmachine ▸ h₁) hok₂

theorem allocProgramPageTable_prepared {kernelStack intJmpTable_user : Nat} {slack : Nat → Nat}
    (h : Inv slack 0 s) {u : Unit}
    (hok : allocProgramPageTable pid kernelStack intJmpTable_user s = .ok (u, s')) :
      Prepared s' pid := by
  have hclosed := kernelClosed_keepsPrepared (fun _ => False) pid
  obtain ⟨_, s₁, halloc, hok₁⟩ := bind_ok.mp hok
  obtain ⟨-, -, hdir, hzero⟩ := (pagingAllocProcessPageTable_spec h).of_ok halloc
  have h₁ : Prepared s₁ pid := ⟨hdir, fun page _ => Or.inl (hzero _)⟩
  refine hclosed.bind (keepsPrepared_mapRemoteMemory _ pid (by decide) _ _ _)
    (fun _ => ?_) _ _ _ hok₁ h₁
  refine hclosed.bind (keepsPrepared_mapRemoteMemory _ pid (by decide) _ _ _) fun _ => ?_
  refine hclosed.bind (keepsPrepared_mapRemoteMemory _ pid (by decide) _ _ _) fun _ => ?_
  refine hclosed.bind (keepsPrepared_mapRemoteMemory _ pid (by decide) _ _ _) fun _ => ?_
  refine hclosed.bind (keepsPrepared_mapRemoteMemory _ pid (by decide) _ _ _) fun _ => ?_
  exact hclosed.pure _

end

section

variable {s s' : Machine} {op : Operation}

theorem reached_operate {u : Unit} (h : Reached s) (hok : operate op s = .ok (u, s'))
    (hproper : Proper s op)
    (hconfined : PagingRuns.Confined op) : Reached s' := by
  obtain ⟨s₀, events, answers, hstarted, halong, hrun⟩ := h
  have hnext : next s (.operation op) = .ok (s', .none) := by
    rw [next, happen, bind_apply, hok]
    rfl
  have hlast : Along next Lawful s [.operation op] := by
    refine ⟨⟨hproper, hconfined⟩, ?_⟩
    rw [hnext]
    exact trivial
  have hstep : run next s [.operation op] = .ok (s', [.none]) := by
    rw [run, hnext]
    rfl
  exact ⟨s₀, events ++ [.operation op], answers ++ [.none], hstarted,
    along_append halong hrun hlast,
    run_append hrun hstep⟩

theorem reached_mapRemoteMemory {pid dst_addr src_addr length : Nat} {rw : Bool} {r : Option Nat}
    (h : Reached s)
    (hdst : dst_addr < 2 ^ 32) (hsrc : src_addr < 2 ^ 32) (hlength : length < 2 ^ 32)
    (hok : pagingMapRemoteMemory (some pid) none dst_addr src_addr length rw false s = .ok (r, s'))
      : Reached s' := by
  have hoperate :
    operate (.mapRemoteMemory (some pid) none (BitVec.ofNat 32 dst_addr) (BitVec.ofNat 32 src_addr)
      (BitVec.ofNat 32 length) rw false) s = .ok ((), s') := by
    rw [operate, bind_apply]
    simp only [BitVec.toNat_ofNat, Nat.mod_eq_of_lt, hdst, hsrc, hlength, hok]
    rfl
  exact reached_operate h hoperate nofun (Or.inr rfl)

theorem reached_allocProgramPageTable {pid kernelStack intJmpTable_user : Nat} (h : Reached s)
    (hk : kernelStack < 2 ^ 32) (hi : intJmpTable_user < 2 ^ 32) {u : Unit}
    (hok : allocProgramPageTable pid kernelStack intJmpTable_user s = .ok (u, s')) :
      Reached s' := by
  obtain ⟨_, s₁, halloc, hok₁⟩ := bind_ok.mp hok
  have hoperate : operate (.allocProcessPageTable pid) s = .ok ((), s₁) := halloc
  have h₁ : Reached s₁ := reached_operate h hoperate trivial trivial
  obtain ⟨_, s₂, hstack, hok₂⟩ := bind_ok.mp hok₁
  have h₂ := reached_mapRemoteMemory h₁ (by decide) hk (by decide) hstack
  obtain ⟨_, s₃, hgdt, hok₃⟩ := bind_ok.mp hok₂
  have h₃ := reached_mapRemoteMemory h₂ (by decide) (by decide) (by decide) hgdt
  obtain ⟨_, s₄, hidt, hok₄⟩ := bind_ok.mp hok₃
  have h₄ := reached_mapRemoteMemory h₃ (by decide) (by decide) (by decide) hidt
  obtain ⟨_, s₅, hintjmp, hok₅⟩ := bind_ok.mp hok₄
  have h₅ := reached_mapRemoteMemory h₄ (by decide) hi (by decide) hintjmp
  obtain ⟨_, s₆, htask, ⟨⟩⟩ := bind_ok.mp hok₅
  exact reached_mapRemoteMemory h₅ (by decide) (by decide) (by decide) htask

end

end Ibnos.SystemPages
