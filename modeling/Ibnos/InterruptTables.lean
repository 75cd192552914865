import Ibnos.InterruptStubs

/-!
Where the tables are: the gates, the stubs and the code behind them do not overlap.
-/

namespace Ibnos.InterruptStubs

open Ibnos.Instructions
open Ibnos.StackFrames

/-- Both tables have a page of their own. -/
def IsTable (x : Address) : Prop := (x - USERMODE_IDT_ADDRESS).toNat < 0x2000

/-- The memory behind `gdtInit`, of the kernel or of a process. -/
def installTables (table : Memory → Memory) (codeRing0 : BitVec 16) (m : Memory) : Memory :=
  fillIdt codeRing0 (table m)

/-- Only the tables are known. -/
def Installed (table : Memory → Memory) (codeRing0 : BitVec 16) (m : Memory) : Prop :=
  ∃ m₀, ∀ x, IsTable x → m x = installTables table codeRing0 m₀ x

section

variable {table : Memory → Memory} {stub : Nat → List Byte} {code : List Byte}
  {codeRing0 : BitVec 16} {a x : Address} {m m' : Memory}
  {i k : Nat}

theorem Installed.congr (h : Installed table codeRing0 m) (hm : ∀ x, IsTable x → m' x = m x) :
    Installed table codeRing0 m' := by
  obtain ⟨m₀, h⟩ := h
  exact ⟨m₀, fun x hx => (hm x hx).trans (h x hx)⟩

theorem callBytes_length (cur target : Address) : (callBytes cur target).length = 5 := rfl

theorem kernelStub_length (i : Nat) : (kernelStub i).length = INTJMP_ENTRY_SIZE := by
  rw [kernelStub, reserveBytes]
  split_ifs <;> rfl

theorem idtEntry_length (codeRing0 : BitVec 16) (i : Nat) : (idtEntry codeRing0 i).length = 8 :=
  rfl

theorem dispatcherBytes_length (handler : Address) : (dispatcherBytes handler).length = 172 := by
  have hsave : saveBytes.flatten.length = 107 := by decide
  have hrestore : restoreBytes.flatten.length = 59 := by decide
  simp [dispatcherBytes, callBytes_length, hsave, hrestore]

/-! The bytes of the tables. -/

theorem entry_sub (a : Address) (s i k : Nat) :
    a + BitVec.ofNat 32 (s * i) + BitVec.ofNat 32 k - a = BitVec.ofNat 32 (s * i + k) := by
  rw [add_assoc, ← BitVec.ofNat_add, add_sub_cancel_left]

theorem isTable_gate (hi : i < IDT_MAX_COUNT) (hk : k < 8) :
    IsTable (USERMODE_IDT_ADDRESS + BitVec.ofNat 32 (8 * i) + BitVec.ofNat 32 k) := by
  rw [IDT_MAX_COUNT] at hi
  rw [IsTable, entry_sub, BitVec.toNat_ofNat]
  omega

theorem isTable_code (hk : k < 0x1000) :
    IsTable (USERMODE_INTJMP_ADDRESS + BitVec.ofNat 32 k) := by
  have hsub : USERMODE_INTJMP_ADDRESS + BitVec.ofNat 32 k - USERMODE_IDT_ADDRESS =
      BitVec.ofNat 32 (0x1000 + k) := by
    rw [BitVec.ofNat_add, USERMODE_INTJMP_ADDRESS, USERMODE_IDT_ADDRESS]
    bv_omega
  rw [IsTable, hsub, BitVec.toNat_ofNat]
  omega

theorem fillIdt_code (hk : k < 0x1000) :
    fillIdt codeRing0 m (USERMODE_INTJMP_ADDRESS + BitVec.ofNat 32 k) =
      m (USERMODE_INTJMP_ADDRESS + BitVec.ofNat 32 k) := by
  apply storeTable_frame (idtEntry_length codeRing0)
  have hsub : USERMODE_INTJMP_ADDRESS + BitVec.ofNat 32 k - USERMODE_IDT_ADDRESS =
      BitVec.ofNat 32 (0x1000 + k) := by
    rw [BitVec.ofNat_add, USERMODE_INTJMP_ADDRESS, USERMODE_IDT_ADDRESS]
    bv_omega
  rw [hsub, IDT_MAX_COUNT, BitVec.toNat_ofNat]
  omega

theorem Installed.table_code (h : Installed table codeRing0 m) :
    ∃ m₀, ∀ k < 0x1000, m (USERMODE_INTJMP_ADDRESS + BitVec.ofNat 32 k) =
      table m₀ (USERMODE_INTJMP_ADDRESS + BitVec.ofNat 32 k) := by
  obtain ⟨m₀, h⟩ := h
  refine ⟨m₀, fun k hk => ?_⟩
  rw [h _ (isTable_code hk), installTables, fillIdt_code hk]

theorem Installed.code_behind (h : Installed (generateTable stub dispatcher code) codeRing0 m)
    (hcode : code.length ≤ 0x800) : CodeAt m dispatcher code := by
  obtain ⟨m₀, h⟩ := h.table_code
  intro k hk
  rw [dispatcher, add_assoc, ← BitVec.ofNat_add,
    h _ (by rw [INTJMP_ENTRY_SIZE, IDT_MAX_COUNT]; omega), BitVec.ofNat_add, ← add_assoc]
  exact storeBytes_apply hk (by omega)

theorem Installed.stub_code (h : Installed (generateTable stub dispatcher code) codeRing0 m)
    (hstub : ∀ i, (stub i).length = INTJMP_ENTRY_SIZE) (hcode : code.length ≤ 0x800)
    (hi : i < IDT_MAX_COUNT) : CodeAt m (entryAddress i) (stub i) := by
  obtain ⟨m₀, h⟩ := h.table_code
  intro k hk
  rw [hstub, INTJMP_ENTRY_SIZE] at hk
  have hmax : IDT_MAX_COUNT = 256 := rfl
  rw [entryAddress, add_assoc, ← BitVec.ofNat_add, h _ (by rw [INTJMP_ENTRY_SIZE]; omega),
    generateTable, storeBytes_frame, BitVec.ofNat_add, ← add_assoc]
  · exact storeTable_apply hstub (by decide) hi hk
  · rw [dispatcher, add_sub_add_left_eq_sub, INTJMP_ENTRY_SIZE, IDT_MAX_COUNT, BitVec.toNat_sub,
      BitVec.toNat_ofNat, BitVec.toNat_ofNat]
    omega

theorem Installed.entry (h : Installed table codeRing0 m) (hi : i < IDT_MAX_COUNT) :
    CodeAt m (USERMODE_IDT_ADDRESS + BitVec.ofNat 32 (8 * i)) (idtEntry codeRing0 i) := by
  obtain ⟨m₀, h⟩ := h
  intro k hk
  rw [h _ (isTable_gate hi hk)]
  exact storeTable_apply (idtEntry_length codeRing0) (by decide) hi hk

theorem gate_eq (h : CodeAt m a (idtEntry codeRing0 i)) :
    gate m a =
      { offset := entryAddress i
        selector := codeRing0
        type := 0xE
        dpl := if i = 0x80 then 3 else 0
        present := true } := by
  obtain ⟨h, hhigh⟩ := codeAt_append h
  obtain ⟨h, htype⟩ := codeAt_append h
  obtain ⟨hlow, hselector⟩ := codeAt_append h
  have hbyte : m (a + 5#32) = 1#1 ++ (if i = 0x80 then 3 else 0 : BitVec 2) ++ 0#1 ++ 0xE#4 := by
    have hbyte := htype 1 (by simp)
    rwa [add_assoc] at hbyte
  have hoffset : loadHalf m (a + 6#32) ++ loadHalf m a = entryAddress i := by
    rw [loadHalf_of_codeAt hlow]
    exact (congrArg (· ++ _) (loadHalf_of_codeAt hhigh)).trans (append_halves _)
  rw [gate, hoffset, hbyte]
  congr
  · exact loadHalf_of_codeAt hselector
  · split_ifs <;> decide
  · split_ifs <;> decide
  · split_ifs <;> decide
/-- The processor finds the stub of every interrupt. -/
theorem Installed.gate (h : Installed table codeRing0 m) (hi : i < IDT_MAX_COUNT) :
    gate m (USERMODE_IDT_ADDRESS + BitVec.ofNat 32 (8 * i)) =
      { offset := entryAddress i
        selector := codeRing0
        type := 0xE
        dpl := if i = 0x80 then 3 else 0
        present := true } :=
  gate_eq (h.entry hi)

end

end Ibnos.InterruptStubs
