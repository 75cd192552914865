import Ibnos.ByteMemories
import Ibnos.PagingRuns

/-!
The arguments and the environment of a program on their way through `execve`. The
caller stores them behind a table of offsets, the kernel copies both into new pages,
and the new program turns the offsets into pointers. The space which the strings may
take shrinks by the entries of the table which were already read, so strings close to
the end of the last page are lost.
-/

namespace Ibnos.ProgramArguments

open Ibnos.ByteMemories
open Ibnos.Memory
open Ibnos.Physmem
open Ibnos.Paging
open Ibnos.Programs
open Ibnos.KernelPages
open Ibnos.BootPaging
open Ibnos.PagingRuns
open Ibnos.Runs

section

/-- A nullterminated string. -/
structure CString where
  bytes : List (BitVec 8)
  nul_free : 0 ∉ bytes

def strlen (s : CString) : Nat := s.bytes.length

/-- The pointers in front of the terminating one. -/
def entries (argv : Option (List CString)) : List CString := argv.getD []

def buflen (strings : List CString) : Nat :=
  strings.foldl (fun buflen s => (buflen + (4 + strlen s + 1)) % 2 ^ 32) 4

/-- The loop which fills the buffer. -/
def encodeLoop (buf : Nat) : List CString → Nat → Nat → Memory → Memory
  | [], offsets, _, mem => putWord mem offsets 0
  | s :: strings, offsets, cur, mem =>
      let mem := putWord mem offsets (cur - buf)
      let mem := putBytes mem cur (s.bytes ++ [0])
      encodeLoop buf strings (offsets + 4) (cur + (strlen s + 1)) mem

def encode (buf : Nat) (strings : List CString) (mem : Memory) : Memory :=
  encodeLoop buf strings buf (buf + 4 * (strings.length + 1)) mem

/-- What `executeProgram` is called with. -/
structure Request where
  memory : Memory
  buf_argv : Nat
  buflen_argv : Nat
  buf_envp : Nat
  buflen_envp : Nat

/-- The two buffers are those which `malloc` returned, if it did. -/
def request (buf_argv buf_envp : Option Nat) (argv envp : Option (List CString)) (mem : Memory) :
    Option Request := do
  let buf_argv ← buf_argv
  let buf_envp ← buf_envp
  let mem := encode buf_argv (entries argv) mem
  let mem := encode buf_envp (entries envp) mem
  return ⟨mem, buf_argv, buflen (entries argv), buf_envp, buflen (entries envp)⟩

inductive Errno where
  | none
  | ENOENT
  | ENOEXEC

/-- `_execve_r`, with the result of the search for the file. -/
def execve (fileobj : Int) (buf_argv buf_envp : Option Nat) (executeProgram : Request → Int)
    (argv envp : Option (List CString)) (mem : Memory) : Int × Errno :=
  if fileobj < 0 then (-1, .ENOENT)
  else
    let ret := match request buf_argv buf_envp argv envp mem with
      | none => -1
      | some r => executeProgram r
    (ret, if 0 ≤ ret then .none else .ENOEXEC)

/-- The pages for a buffer. -/
def bufferPages (length : Nat) : Nat := (length + 0xFFF) % 2 ^ 32 / 2 ^ 12

/-- What the system call reports of them. -/
def bufferLength (pages : Nat) : Nat := pages * 2 ^ 12 % 2 ^ 32

/-- The loop which turns offsets into pointers. -/
def decodeLoop (buf offset buflen : Nat) (mem : Memory) : Memory :=
  if buflen < 4 then mem
  else if word mem offset = 0 ∨ buflen ≤ word mem offset ∨ buflen < 2 * 4 then putWord mem offset 0
  else decodeLoop buf (offset + 4) (buflen - 4) (putWord mem offset (word mem offset + buf))
termination_by buflen

/-- The pointers are made by the first call only. -/
def decode (init : Bool) (buf buflen : Nat) (mem : Memory) : Nat × Bool × Memory :=
  if init = false ∧ buf ≠ 0 ∧ 4 ≤ buflen then
    (buf, true, decodeLoop buf buf buflen (putBytes mem (buf + (buflen - 1)) [0]))
  else (buf, init, mem)

def getIbnosArgv (init : Bool) (buf buflen : Nat) (mem : Memory) : Nat × Bool × Memory :=
  decode init buf buflen mem

def getIbnosEnvp (init : Bool) (buf buflen : Nat) (mem : Memory) : Nat × Bool × Memory :=
  decode init buf buflen mem

end

section

/-- The bytes of the strings. -/
def total (strings : List CString) : Nat := (strings.map fun s => strlen s + 1).sum

/-- The bytes of the whole buffer. -/
def encodedLength (strings : List CString) : Nat := 4 * (strings.length + 1) + total strings

/-- The table from `offset` on and the strings from `cur` on. -/
def Encoded (mem : Memory) (buf : Nat) : Nat → Nat → List CString → Prop
  | offset, _, [] => word mem (buf + offset) = 0
  | offset, cur, s :: strings => word mem (buf + offset) = cur ∧
      Holds mem (buf + cur) (s.bytes ++ [0]) ∧
      Encoded mem buf (offset + 4) (cur + (strlen s + 1)) strings

/-- A pointer to a string which lies in the buffer. -/
structure PointsTo (mem : Memory) (buf length ptr : Nat) (s : CString) : Prop where
  lower : buf ≤ ptr
  upper : ptr + strlen s < buf + length
  holds : Holds mem ptr (s.bytes ++ [0])

/-- A nullterminated array of pointers into the buffer. -/
def Denotes (mem : Memory) (buf length : Nat) : Nat → List CString → Prop
  | argv, [] => word mem argv = 0
  | argv, s :: strings => word mem argv ≠ 0 ∧ PointsTo mem buf length (word mem argv) s ∧
      Denotes mem buf length (argv + 4) strings

/-- No string starts too close to the end. -/
def Reachable (length : Nat) : Nat → Nat → List CString → Prop
  | _, _, [] => True
  | offset, cur, s :: strings => cur + offset < length ∧
      Reachable length (offset + 4) (cur + (strlen s + 1)) strings

end

section

variable {mem mem' : Memory} {buf buf' offset cur length x : Nat} {strings : List CString}

@[simp] theorem total_nil : total [] = 0 := rfl

@[simp] theorem total_cons (s : CString) (strings : List CString) :
    total (s :: strings) = strlen s + 1 + total strings := by
  simp [total]

theorem length_nul (s : CString) : (s.bytes ++ [0]).length = strlen s + 1 := by
  simp [strlen]

theorem foldl_buflen {acc : Nat} (h : acc + 4 * strings.length + total strings < 2 ^ 32) :
    strings.foldl (fun buflen s => (buflen + (4 + strlen s + 1)) % 2 ^ 32) acc =
      acc + 4 * strings.length + total strings := by
  induction strings generalizing acc with
  | nil => simp
  | cons s strings ih =>
      simp only [total_cons, List.length_cons] at *
      rw [List.foldl_cons, Nat.mod_eq_of_lt (by omega), ih (by omega)]
      omega

theorem buflen_eq (h : encodedLength strings < 2 ^ 32) :
    buflen strings = encodedLength strings := by
  unfold encodedLength at *
  rw [buflen, foldl_buflen (by omega)]
  omega

/-- The loop stores the table and the strings only. -/
theorem encodeLoop_frame (hcur : offset + 4 * (strings.length + 1) ≤ cur)
    (hx : x < offset ∨ offset + 4 * (strings.length + 1) ≤ x ∧ x < cur ∨ cur + total strings ≤ x) :
    encodeLoop buf strings offset cur mem x = mem x := by
  induction strings generalizing offset cur mem with
  | nil =>
      simp only [List.length_nil, total_nil] at hcur hx
      exact putWord_frame (by omega)
  | cons s strings ih =>
      simp only [List.length_cons, total_cons] at hcur hx
      rw [encodeLoop, ih (by omega) (by omega), putBytes_frame, putWord_frame (by omega)]
      rw [length_nul]
      omega

theorem encodeLoop_encoded (hcur : offset + 4 * (strings.length + 1) ≤ cur)
    (hend : cur + total strings < 2 ^ 32) :
    Encoded (encodeLoop buf strings (buf + offset) (buf + cur) mem) buf offset cur strings := by
  induction strings generalizing offset cur mem with
  | nil =>
      exact (word_putWord _ _ _).trans (Nat.zero_mod _)
  | cons s strings ih =>
      simp only [List.length_cons, total_cons] at hcur hend
      have hframe : ∀ {x m}, x < buf + (offset + 4) ∨
          buf + cur ≤ x ∧ x < buf + (cur + (strlen s + 1)) →
          encodeLoop buf strings (buf + (offset + 4)) (buf + (cur + (strlen s + 1))) m x = m x :=
        fun hx => encodeLoop_frame (by omega) (by omega)
      rw [encodeLoop, Nat.add_assoc buf offset, Nat.add_assoc buf cur, Nat.add_sub_cancel_left]
      refine ⟨?_, ?_, ih (by omega) (by omega)⟩
      · -- the entry is in front of everything that is stored later
        rw [word_congr fun i hi => (hframe (Or.inl (by omega))).trans
          (putBytes_frame (Or.inl (by omega))), word_putWord]
        exact Nat.mod_eq_of_lt (by omega)
      · refine (holds_putBytes _ _ _).congr fun i hi => hframe (Or.inr ?_)
        rw [length_nul] at hi
        omega

/-- The buffer may be somewhere else. -/
theorem Encoded.congr (h : Encoded mem buf offset cur strings)
    (hcur : offset + 4 * (strings.length + 1) ≤ cur)
    (hmem : ∀ i, offset ≤ i → i < cur + total strings → mem' (buf' + i) = mem (buf + i)) :
    Encoded mem' buf' offset cur strings := by
  induction strings generalizing offset cur with
  | nil =>
      simp only [List.length_nil, total_nil] at hcur hmem
      rw [Encoded] at h ⊢
      rw [word_congr fun i hi => ?_, h]
      rw [Nat.add_assoc, Nat.add_assoc]
      exact hmem _ (by omega) (by omega)
  | cons s strings ih =>
      simp only [List.length_cons, total_cons] at hcur hmem
      obtain ⟨hword, hholds, hrest⟩ := h
      refine ⟨?_, hholds.congr fun i hi => ?_, ih hrest (by omega) fun i hle hi => ?_⟩
      · rw [← hword]
        refine word_congr fun i hi => ?_
        rw [Nat.add_assoc, Nat.add_assoc]
        exact hmem _ (by omega) (by omega)
      · rw [length_nul] at hi
        rw [Nat.add_assoc, Nat.add_assoc]
        exact hmem _ (by omega) (by omega)
      · exact hmem i (by omega) (by omega)

/-- The last string ends with the buffer. -/
theorem Encoded.last (h : Encoded mem buf offset cur strings) (hne : strings ≠ []) :
    mem (buf + (cur + total strings - 1)) = 0 := by
  induction strings generalizing offset cur with
  | nil => exact (hne rfl).elim
  | cons s strings ih =>
      obtain ⟨-, hholds, hrest⟩ := h
      rcases strings with _ | ⟨s', strings⟩
      · have hlast := hholds (strlen s) (by rw [length_nul]; omega)
        rw [strlen, List.getD_append_right _ _ _ _ le_rfl, Nat.sub_self] at hlast
        simpa [total, strlen, Nat.add_assoc] using hlast
      · have hlast := ih hrest nofun
        rwa [Nat.add_assoc, ← total_cons] at hlast

end

section

variable {mem : Memory} {buf offset cur length rest x : Nat} {s : CString} {strings : List CString}

theorem Encoded.tail (h : Encoded mem buf offset cur (s :: strings))
    (hcur : offset + 4 * ((s :: strings).length + 1) ≤ cur) (w : Nat) :
    Encoded (putWord mem (buf + offset) w) buf (offset + 4) (cur + (strlen s + 1)) strings := by
  rw [List.length_cons] at hcur
  exact h.2.2.congr (by omega) fun i hle hi => putWord_frame (by omega)

/-- The loop stores the table only. -/
theorem decodeLoop_frame (h : Encoded mem buf offset cur strings)
    (hcur : offset + 4 * (strings.length + 1) ≤ cur)
    (hx : x < buf + offset ∨ buf + offset + 4 * (strings.length + 1) ≤ x) :
    decodeLoop buf (buf + offset) rest mem x = mem x := by
  induction strings generalizing offset cur rest mem with
  | nil =>
      rw [List.length_nil] at hx
      rw [Encoded] at h
      rw [decodeLoop]
      split_ifs with hrest hstop
      · rfl
      · exact putWord_frame (by omega)
      · exact (hstop (Or.inl h)).elim
  | cons s strings ih =>
      have htail := h.tail hcur (word mem (buf + offset) + buf)
      rw [List.length_cons] at hcur hx
      rw [decodeLoop]
      split_ifs
      · rfl
      · exact putWord_frame (by omega)
      · rw [Nat.add_assoc, ih htail (by omega) (by omega)]
        exact putWord_frame (by omega)

/-- The strings which are found are those whose start is not too close to the end. -/
theorem decodeLoop_denotes (h : Encoded mem buf offset cur strings)
    (hcur : offset + 4 * (strings.length + 1) ≤ cur) (hend : cur + total strings ≤ length)
    (hlength : buf + length ≤ 2 ^ 32) :
    Denotes (decodeLoop buf (buf + offset) (length - offset) mem) buf length
    (buf + offset) strings ↔
      Reachable length offset cur strings := by
  induction strings generalizing offset cur mem with
  | nil =>
      rw [List.length_nil] at hcur
      rw [Encoded] at h
      rw [decodeLoop, if_neg (by omega), if_pos (Or.inl h), Denotes, Reachable, word_putWord]
      exact iff_of_true rfl trivial
  | cons s strings ih =>
      have htail := h.tail hcur (cur + buf)
      obtain ⟨hword, hholds, -⟩ := h
      rw [List.length_cons] at hcur
      rw [total_cons] at hend
      rw [decodeLoop, if_neg (by omega), hword]
      split_ifs with hstop
      · refine iff_of_false (fun hdenotes => hdenotes.1 (word_putWord _ _ _)) fun hreachable => ?_
        have := hreachable.1
        omega
      · have hframe : ∀ x, x < buf + (offset + 4) ∨ buf + cur ≤ x →
            decodeLoop buf (buf + (offset + 4)) (length - (offset + 4))
              (putWord mem (buf + offset) (cur + buf)) x =
              putWord mem (buf + offset) (cur + buf) x := fun x hx =>
          decodeLoop_frame htail (by omega) (by omega)
        rw [Nat.add_assoc, Nat.sub_sub]
        have hptr : word (decodeLoop buf (buf + (offset + 4)) (length - (offset + 4))
            (putWord mem (buf + offset) (cur + buf))) (buf + offset) = cur + buf := by
          rw [word_congr fun i hi => hframe _ (Or.inl (by omega)), word_putWord]
          exact Nat.mod_eq_of_lt (by omega)
        have hpoints : PointsTo (decodeLoop buf (buf + (offset + 4)) (length - (offset + 4))
            (putWord mem (buf + offset) (cur + buf))) buf length (cur + buf) s := by
          refine ⟨by omega, by omega, ?_⟩
          rw [Nat.add_comm cur buf]
          refine hholds.congr fun i hi => ?_
          rw [Nat.add_comm buf cur, hframe _ (Or.inr (by omega))]
          exact putWord_frame (by omega)
        rw [Denotes, Reachable, hptr, Nat.add_assoc, ih htail (by omega) (by omega)]
        constructor
        · rintro ⟨-, -, hreachable⟩
          exact ⟨by omega, hreachable⟩
        · rintro ⟨-, hreachable⟩
          exact ⟨by omega, hpoints, hreachable⟩

end

section

variable {mem : Memory} {buf base offset cur length : Nat} {strings : List CString}

/-- The length in whole pages. -/
def pageRound (n : Nat) : Nat := (n + 0xFFF) / 2 ^ 12 * 2 ^ 12

/-- The start of the last string and the entries of the table in front of its own. -/
def lastReach (strings : List CString) : Nat :=
  4 * (strings.length + 1) + total strings.dropLast + 4 * (strings.length - 1)

/-- The last string does not start too close to the end of the last page. -/
def Accepted (strings : List CString) : Prop :=
  strings ≠ [] → lastReach strings < pageRound (encodedLength strings)

theorem reachable_iff : Reachable length offset cur strings ↔
    (strings ≠ [] → cur + total strings.dropLast + (offset + 4 * (strings.length - 1)) <
      length) := by
  induction strings generalizing offset cur with
  | nil => simp [Reachable]
  | cons s strings ih =>
      rcases strings with _ | ⟨s', strings⟩
      · simp [Reachable]
      · rw [Reachable, ih, List.dropLast_cons_cons, total_cons]
        simp only [List.length_cons, ne_eq, reduceCtorEq, not_false_iff, forall_const]
        omega

theorem bufferLength_eq {n : Nat} (h : n < 2 ^ 31) :
    bufferLength (bufferPages n) = pageRound n := by
  simp only [bufferLength, bufferPages, pageRound]
  omega

/-- The strings are copied to the pages at `base` and decoded there. -/
def Survives (get : Nat → Nat → Memory → Nat × Bool × Memory) (memory : Memory)
    (buf buflen base : Nat) (new : Memory) (strings : List CString) : Prop :=
  let length := bufferLength (bufferPages buflen)
  let decoded := get base length (copy memory buf new base buflen)
  Denotes decoded.2.2 base length decoded.1 strings

theorem survives_iff (h : Encoded mem buf 0 (4 * (strings.length + 1)) strings)
    (hsize : encodedLength strings < 2 ^ 31) (hbase : base ≠ 0)
    (hend : base + pageRound (encodedLength strings) ≤ 2 ^ 32) (new : Memory) :
    Survives (decode false) mem buf (buflen strings) base new strings ↔ Accepted strings := by
  have hround : encodedLength strings ≤ pageRound (encodedLength strings) := by
    simp only [pageRound]
    omega
  have hfour : 4 ≤ encodedLength strings := by
    simp only [encodedLength]
    omega
  rw [Survives, buflen_eq (by omega), bufferLength_eq hsize, decode, if_pos ⟨rfl, hbase, by omega⟩]
  -- the last byte of the pages is either behind the strings or the end of the last one
  have hcopied : Encoded (putBytes (copy mem buf new base (encodedLength strings))
      (base + (pageRound (encodedLength strings) - 1)) [0]) base 0 (4 * (strings.length + 1))
      strings := by
    refine h.congr (by omega) fun i _ hi => ?_
    have hi' : i < encodedLength strings := hi
    rcases eq_or_ne i (pageRound (encodedLength strings) - 1) with heq | hne
    · have hne : strings ≠ [] := by
        rintro rfl
        simp only [encodedLength, pageRound, List.length_nil, total_nil] at *
        omega
      have hlast := h.last hne
      rw [show 4 * (strings.length + 1) + total strings - 1 = i by
        simp only [encodedLength] at *; omega] at hlast
      rw [hlast, heq, putBytes, if_pos (by simp), Nat.sub_self]
      rfl
    · rw [putBytes_frame (by simp; omega)]
      exact copy_apply hi'
  have hdenotes := decodeLoop_denotes hcopied (by omega) hround hend
  rw [Nat.sub_zero, Nat.add_zero] at hdenotes
  refine hdenotes.trans (reachable_iff.trans ?_)
  rw [Nat.zero_add]
  rfl

end

section

variable {base pages : Nat}

/-- The area which is found for a process lies below the page tables. -/
theorem searchLoop_bounds {pid length rounds i start addr : Nat} {s s' : Machine}
    (hle : start ≤ i)
    (hok : searchLoop (getPagingEntry (some pid)) (some pid) length rounds i start s =
      .ok (some addr, s')) :
    ∃ first, start ≤ first ∧ first < KERNEL_PAGE ∧ addr = first * PAGE_SIZE ∧
      lastPage first length < KERNEL_PAGE := by
  induction rounds generalizing s i start with
  | zero => cases hok
  | succ rounds ih =>
      rw [searchLoop] at hok
      split at hok
      · next hi =>
        have hmask : i ≤ i ||| 0x3FF ∧ i ||| 0x3FF < KERNEL_PAGE := by
          rw [or_mask]
          simp only [KERNEL_PAGE] at *
          omega
        obtain ⟨r, s₁, -, hok⟩ := bind_ok.mp hok
        split at hok
        · obtain ⟨e, s₂, -, hok⟩ := bind_ok.mp hok
          split at hok
          · obtain ⟨first, hfirst, hrest⟩ := ih le_rfl hok
            exact ⟨first, by omega, hrest⟩
          · split at hok
            · cases hok
              exact ⟨start, le_rfl, by omega, rfl, by omega⟩
            · exact ih (by omega) hok
        · split at hok
          · cases hok
            exact ⟨start, le_rfl, by omega, rfl, by omega⟩
          · exact ih (by omega) hok
      · cases hok

/-- Pages which were handed out to a process. -/
def Allocated (pages base : Nat) : Prop :=
  ∃ pid s s', pagingTryAllocatePhysMem (some pid) pages true true s = .ok (some base, s')

theorem Allocated.bounds (h : Allocated pages base) (hpages : pages < 2 ^ 20) :
    base ≠ 0 ∧ base + pages * 2 ^ 12 ≤ 2 ^ 32 := by
  obtain ⟨pid, s, s', hok⟩ := h
  rw [pagingTryAllocatePhysMem, tryAllocatePhysMem] at hok
  obtain ⟨addr, s₁, hsearch, hok⟩ := bind_ok.mp hok
  rcases addr with _ | addr
  · cases hok
  · obtain ⟨_, s₂, -, ⟨⟩⟩ := bind_ok.mp hok
    rw [trySearchArea] at hsearch
    split at hsearch
    · cases hsearch
    · next hne =>
      obtain ⟨first, hone, hlt, rfl, hend⟩ := searchLoop_bounds le_rfl hsearch
      unfold lastPage at hend
      simp only [KERNEL_PAGE, PAGE_SIZE] at *
      omega

end

section

variable {argv envp : Option (List CString)} {buf_argv buf_envp : Option Nat} {mem : Memory}
  {r : Request} {base base' : Nat}

/-- The buffers do not overlap. -/
def Apart (r : Request) : Prop :=
  r.buf_argv + r.buflen_argv ≤ r.buf_envp ∨ r.buf_envp + r.buflen_envp ≤ r.buf_argv

theorem encode_encoded {strings : List CString} (hsize : encodedLength strings < 2 ^ 32) (buf : Nat)
    (mem : Memory) :
    Encoded (encode buf strings mem) buf 0 (4 * (strings.length + 1)) strings := by
  have hcur : 0 + 4 * (strings.length + 1) ≤ 4 * (strings.length + 1) := by omega
  exact encodeLoop_encoded hcur hsize

theorem encode_frame {strings : List CString} {buf x : Nat}
    (hx : x < buf ∨ buf + encodedLength strings ≤ x) : encode buf strings mem x = mem x := by
  rw [encodedLength] at hx
  exact encodeLoop_frame le_rfl (by omega)

/-- Both buffers are filled as if the other one was not. -/
theorem request_encoded (hargv : encodedLength (entries argv) < 2 ^ 31)
    (henvp : encodedLength (entries envp) < 2 ^ 31)
    (hr : request buf_argv buf_envp argv envp mem = some r) (hapart : Apart r) :
    (r.buflen_argv = buflen (entries argv) ∧
      Encoded r.memory r.buf_argv 0 (4 * ((entries argv).length + 1)) (entries argv)) ∧
    r.buflen_envp = buflen (entries envp) ∧
      Encoded r.memory r.buf_envp 0 (4 * ((entries envp).length + 1)) (entries envp) := by
  obtain ⟨buf, -, hr⟩ := Option.bind_eq_some_iff.mp hr
  obtain ⟨buf', -, hr⟩ := Option.bind_eq_some_iff.mp hr
  cases hr
  simp only [Apart, buflen_eq (Nat.lt_trans hargv (by decide)),
    buflen_eq (Nat.lt_trans henvp (by decide))] at hapart
  refine ⟨⟨rfl, ?_⟩, rfl, encode_encoded (by omega) _ _⟩
  refine (encode_encoded (by omega) buf mem).congr (by omega) fun i _ hi => encode_frame ?_
  have hi' : i < encodedLength (entries argv) := hi
  dsimp only
  omega

theorem Allocated.survives_iff {strings : List CString} {buf : Nat}
    (hsize : encodedLength strings < 2 ^ 31)
    (h : Encoded mem buf 0 (4 * (strings.length + 1)) strings)
    (hbase : Allocated (bufferPages (buflen strings)) base) (new : Memory) :
    Survives (decode false) mem buf (buflen strings) base new strings ↔ Accepted strings := by
  have hpages : bufferPages (encodedLength strings) < 2 ^ 20 := by
    simp only [bufferPages]
    omega
  have hlength : bufferPages (encodedLength strings) * 2 ^ 12 =
    pageRound (encodedLength strings) := by
    simp only [bufferPages, pageRound]
    omega
  rw [buflen_eq (by omega)] at hbase
  obtain ⟨hne, hend⟩ := hbase.bounds hpages
  rw [hlength] at hend
  exact ProgramArguments.survives_iff h hsize hne hend new

/-- The strings arrive if and only if the last one does not start too close to the end of the
pages they are copied to. -/
theorem program_arguments_survive_iff (hargv : encodedLength (entries argv) < 2 ^ 31)
    (henvp : encodedLength (entries envp) < 2 ^ 31)
    (hr : request buf_argv buf_envp argv envp mem = some r) (hapart : Apart r)
    (hbase : Allocated (bufferPages r.buflen_argv) base)
    (hbase' : Allocated (bufferPages r.buflen_envp) base') (new new' : Memory) :
    (Survives (getIbnosArgv false) r.memory r.buf_argv r.buflen_argv base new (entries argv) ↔
      Accepted (entries argv)) ∧
    (Survives (getIbnosEnvp false) r.memory r.buf_envp r.buflen_envp base' new' (entries envp) ↔
      Accepted (entries envp)) := by
  obtain ⟨⟨hlength, hencoded⟩, hlength', hencoded'⟩ := request_encoded hargv henvp hr hapart
  rw [hlength] at hbase ⊢
  rw [hlength'] at hbase' ⊢
  exact ⟨hbase.survives_iff hargv hencoded new, hbase'.survives_iff henvp hencoded' new'⟩

end

section

/-! Two strings which fill a page, of which the second one is empty. -/

def letters (n : Nat) : CString where
  bytes := List.replicate n 97
  nul_free h := absurd (List.eq_of_mem_replicate h) (by decide)

theorem strlen_letters (n : Nat) : strlen (letters n) = n := List.length_replicate

def shortArguments : List CString := [letters 2, letters 3]

def fullArguments : List CString := [letters 4082, letters 0]

theorem allocated_facts : ((pagingInit [] sampleMachine).toOption.bind fun r =>
    (run next r.2 sampleEvents).toOption.bind fun r =>
      (pagingTryAllocatePhysMem (some 0) 1 true true r.1).toOption.map Prod.fst) =
    some (some 0x1000) := by
  decide +kernel

theorem allocated_sample : Allocated 1 0x1000 := by
  obtain ⟨⟨_, s₀⟩, -, hfacts⟩ := Option.bind_eq_some_iff.mp allocated_facts
  obtain ⟨⟨s, answers⟩, -, hfacts⟩ := Option.bind_eq_some_iff.mp hfacts
  obtain ⟨⟨base, s'⟩, hok, rfl⟩ := Option.map_eq_some_iff.mp hfacts
  exact ⟨0, s, s', toOption_eq_some hok⟩

/-- The two buffers of a process. -/
def sampleRequest (strings : List CString) : Option Request :=
  request (some 0x10000) (some 0x20000) (some strings) none fun _ => 0

theorem program_arguments_survive_iff_sample : ∃ r, sampleRequest shortArguments = some r ∧
    Survives (getIbnosArgv false) r.memory r.buf_argv r.buflen_argv 0x1000 (fun _ => 1)
      shortArguments := by
  obtain ⟨r, hr⟩ : ∃ r, sampleRequest shortArguments = some r := ⟨_, rfl⟩
  have hargv : encodedLength (entries (some shortArguments)) < 2 ^ 31 := by decide
  have henvp : encodedLength (entries none) < 2 ^ 31 := by decide
  have hlength : r.buf_argv = 0x10000 ∧ r.buflen_argv = 19 ∧ r.buf_envp = 0x20000 ∧
      r.buflen_envp = 4 := by
    cases hr
    exact ⟨rfl, rfl, rfl, rfl⟩
  have hapart : Apart r := by
    rw [Apart]
    omega
  have hbase : Allocated (bufferPages r.buflen_argv) 0x1000 := by
    rw [hlength.2.1]
    exact allocated_sample
  have hbase' : Allocated (bufferPages r.buflen_envp) 0x1000 := by
    rw [hlength.2.2.2]
    exact allocated_sample
  have h := program_arguments_survive_iff hargv henvp hr hapart hbase hbase' (fun _ => 1) fun _ => 1
  refine ⟨r, hr, h.1.mpr fun _ => ?_⟩
  decide

/-- The second string is lost. -/
theorem program_arguments_lost : ∃ r, sampleRequest fullArguments = some r ∧ Apart r ∧
    encodedLength fullArguments < 2 ^ 31 ∧ Allocated (bufferPages r.buflen_argv) 0x1000 ∧
    ¬Survives (getIbnosArgv false) r.memory r.buf_argv r.buflen_argv 0x1000 (fun _ => 0)
      fullArguments := by
  obtain ⟨r, hr⟩ : ∃ r, sampleRequest fullArguments = some r := ⟨_, rfl⟩
  have hlength : encodedLength (entries (some fullArguments)) = 4096 := by
    simp [entries, encodedLength, fullArguments, strlen_letters]
  have henvp : encodedLength (entries none) < 2 ^ 31 := by decide
  have hbuflen : buflen (entries (some fullArguments)) = 4096 := by
    rw [buflen_eq (by omega), hlength]
  have hr' : r.buf_argv = 0x10000 ∧ r.buflen_argv = buflen (entries (some fullArguments)) ∧
      r.buf_envp = 0x20000 ∧ r.buflen_envp = 4 := by
    cases hr
    exact ⟨rfl, rfl, rfl, rfl⟩
  have hapart : Apart r := by
    rw [Apart]
    omega
  have hbase : Allocated (bufferPages (buflen (entries (some fullArguments)))) 0x1000 := by
    rw [hbuflen]
    exact allocated_sample
  obtain ⟨⟨-, hencoded⟩, -⟩ := request_encoded (by omega) henvp hr hapart
  refine ⟨r, hr, hapart, hlength.trans_lt (by decide), ?_, fun hsurvives => ?_⟩
  · rw [hr'.2.1]
    exact hbase
  · rw [hr'.2.1] at hsurvives
    have haccepted := (hbase.survives_iff (by omega) hencoded _).mp hsurvives (List.cons_ne_nil _ _)
    rw [hlength] at haccepted
    simp [lastReach, entries, fullArguments, strlen_letters, pageRound] at haccepted

end

end Ibnos.ProgramArguments
