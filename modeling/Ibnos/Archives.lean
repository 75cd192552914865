import Ibnos.CanonicalPaths
import Ibnos.RepeatedSearches
import Mathlib.Data.Nat.Digits.Lemmas

/-!
The archive which `fileSystemInit` reads. Pointers into the archive are offsets.
A file which is recorded keeps the range of the archive which holds its data.
-/

namespace Ibnos.Archives

open Ibnos.Creations
open Ibnos.Filesystem
open Ibnos.FilesystemReleases
open Ibnos.FilesystemRuns
open Ibnos.FilesystemTrees
open Ibnos.Lookups
open Ibnos.Programs
open Ibnos.RepeatedSearches
open Ibnos.Strings

def WORD : Nat := 2 ^ 32

def SPACE : UInt8 := 32

def isOctal (c : UInt8) : Bool := 48 ≤ c ∧ c < 56

/-- The digits of a number, behind leading spaces. -/
def octalDigits (str : Bytes) : Bytes := (str.dropWhile (· = SPACE)).takeWhile isOctal

/-- What stands behind the digits and further spaces. -/
def behindDigits (str : Bytes) : Bytes :=
  ((str.dropWhile (· = SPACE)).dropWhile isOctal).dropWhile (· = SPACE)

def stringParseOctal (str : Bytes) : Nat :=
  match behindDigits str with
  | c :: _ => if c ≠ 0 then WORD - 1 else octalValue (octalDigits str)
  | [] => octalValue (octalDigits str)
where
  octalValue (digits : Bytes) : Nat :=
    digits.foldl (fun value c => (value <<< 3 ||| (c.toNat - 48)) % WORD) 0

/-- The number which is written in a field, if there is nothing else in it. -/
def octalNumber (str : Bytes) : Option Nat :=
  if (behindDigits str).head?.getD 0 = 0 then
    some (Nat.ofDigits 8 ((octalDigits str).map (·.toNat - 48)).reverse)
  else none

/-- `sizeof(struct tarHeader)` -/
def HEADER : Nat := 512

def field (archive : Bytes) (offset length : Nat) : Bytes := (archive.drop offset).take length

def tarSize (archive : Bytes) (tar : Nat) : Bytes := field archive (tar + 124) 12

def tarChecksum (archive : Bytes) (tar : Nat) : Bytes := field archive (tar + 148) 8

def tarTypeflag (archive : Bytes) (tar : Nat) : UInt8 := archive.getD (tar + 156) 0

def tarMagic (archive : Bytes) (tar : Nat) : Bytes := field archive (tar + 257) 6

def tarPrefix (archive : Bytes) (tar : Nat) : Bytes := field archive (tar + 345) 155

def TAR_TYPE_FILE : UInt8 := 48

/-- The bytes are signed. -/
def signedSum (bytes : Bytes) : Int := (bytes.map fun b => b.toInt8.toInt).sum

def tarVerifyChecksum (archive : Bytes) (tar : Nat) : Bool :=
  (signedSum (field archive tar 148) + 8 * 32 + signedSum (field archive (tar + 156) 356)) % WORD =
    stringParseOctal (tarChecksum archive tar)

def tarIsEOF (archive : Bytes) (tar length : Nat) : Bool :=
  if length < 2 * HEADER then false
  else (field archive tar (2 * HEADER)).all (· = 0)

/-- "ustar" -/
def USTAR : Bytes := [117, 115, 116, 97, 114]

/-- Whether the prefix of a header is used. -/
def hasPrefix (archive : Bytes) (tar : Nat) : Bool :=
  stringIsEqual (some USTAR) (tarMagic archive tar) && archive.getD (tar + 345) 0 != 0

/-- `tar->prefix[sizeof(tar->prefix) - 1] = 0` -/
def endPrefix (archive : Bytes) (tar : Nat) : Bytes :=
  if hasPrefix archive tar then archive.set (tar + 345 + 154) 0 else archive

/-- What is written to `namebuf`, where the prefix was ended before. -/
def namebuf (archive : Bytes) (tar : Nat) : Bytes :=
  (if hasPrefix archive tar then cstring (tarPrefix archive tar) ++ [SLASH] else []) ++
    field archive tar 100 ++ [0]

/-- `buffers` holds the `buffer` and the `size` of the files which were recorded. -/
structure Reader where
  store : Store
  buffers : Nat → Option (Nat × Nat)
  archive : Bytes
  tar : Nat
  length : Nat
  rounds : Nat

abbrev Reading := Program Reader Fault

def readerAssert (c : Bool) : Reading Unit := if c then pure () else throw .assertion

/-- A call which only concerns the objects of the file system. -/
def onStore {α : Type} (m : Kernel α) : Reading α := fun s =>
  match m s.store with
  | .ok (a, store) => .ok (a, { s with store := store })
  | .error e => .error e

section

/-! `stack` holds the bytes of `namebuf` and behind it which a round does not write. -/

variable (stack : Nat → Nat → UInt8)

/-- The bytes behind the path, which is a nullterminated string in `namebuf`. -/
def behindPath (buf : Bytes) (round i : Nat) : UInt8 :=
  (buf.drop (cstring buf).length).getD i (stack round i)

def recordFile (size : Nat) : Reading Unit := do
  let s ← get
  let buf := namebuf s.archive s.tar
  match ← onStore (fileSystemSearchFile none (cstring buf) (behindPath stack buf s.rounds) true) with
  | none => throw .assertion
  | some f =>
      modify fun s =>
        { s with buffers := Function.update s.buffers f (some (s.tar + HEADER, size)) }
      onStore (objectRelease f)

def isFile (archive : Bytes) (tar : Nat) : Bool :=
  tarTypeflag archive tar = 0 || tarTypeflag archive tar = TAR_TYPE_FILE

/-- `sizeof(struct tarHeader) + ((size + 511) & ~511)` -/
def entrySize (size : Nat) : Nat := (HEADER + (size + 511) % WORD / 512 * 512) % WORD

/-- The header is valid. -/
def checkHeader : Reading Nat := do
  let s ← get
  readerAssert (tarVerifyChecksum s.archive s.tar)
  let size := stringParseOctal (tarSize s.archive s.tar)
  readerAssert (size ≠ WORD - 1)
  readerAssert ((HEADER + size) % WORD ≤ s.length)
  return size

def createFile (size : Nat) : Reading Unit := do
  let s ← get
  if isFile s.archive s.tar then recordFile stack size else pure ()

/-- Whether there is a next header. -/
def advance (size : Nat) : Reading Bool := do
  let s ← get
  if entrySize size > s.length then return false
  else do
    set { s with
      tar := s.tar + entrySize size
      length := s.length - entrySize size
      rounds := s.rounds + 1 }
    return true

/-- One round of the loop. The result tells whether there is another one. -/
def readEntry : Reading Bool := do
  let s ← get
  if s.length < HEADER then return false
  else if tarIsEOF s.archive s.tar s.length then return false
  else do
    let size ← checkHeader
    modify fun s => { s with archive := endPrefix s.archive s.tar }
    createFile stack size
    advance size

def readLoop : Nat → Reading Unit
  | 0 => throw .outOfFuel
  | fuel + 1 => do
      if ← readEntry stack then readLoop fuel else pure ()

/-- The reader after the root directory was created. -/
def firstReader (heap : Nat → Bool) (archive : Bytes) : Reader where
  store := Filesystem.fileSystemInit heap
  buffers := fun _ => none
  archive := archive
  tar := 0
  length := archive.length
  rounds := 0

/-- The readers which the loop comes to. The flag tells whether another round follows. -/
inductive Reached (heap : Nat → Bool) (archive : Bytes) : Bool → Reader → Prop
  | start (h : heap 0 = true) : Reached heap archive true (firstReader heap archive)
  | round {s s' : Reader} {b : Bool} (hs : Reached heap archive true s)
      (h : readEntry stack s = .ok (b, s')) : Reached heap archive b s'

/-- `heap` tells which of the calls of `heapAlloc` succeed. -/
def fileSystemInit (heap : Nat → Bool) (archive : Bytes) (fuel : Nat) : Except Fault Reader :=
  if heap 0 then (readLoop stack fuel (firstReader heap archive)).map Prod.snd
  else .error .assertion

/-- The ranges of the files lie in the archive and have the sizes which are written there. -/
def Right (archive : Bytes) (buffers : Nat → Option (Nat × Nat)) : Prop :=
  ∀ f buffer size, buffers f = some (buffer, size) → HEADER ≤ buffer ∧
    buffer + size ≤ archive.length ∧ octalNumber (tarSize archive (buffer - HEADER)) = some size

/-- The loop ends, be it in an assertion, and all files are recorded as they should be. -/
def Safe (heap : Nat → Bool) (archive : Bytes) : Prop :=
  (∃ fuel, fileSystemInit stack heap archive fuel ≠ .error .outOfFuel) ∧
    ∀ b s, Reached stack heap archive b s → Right archive s.buffers

/-- There is a header at which no assertion fails. -/
structure Accepted (s : Reader) : Prop where
  length : HEADER ≤ s.length
  more : tarIsEOF s.archive s.tar s.length = false
  passes : ∃ r, readEntry stack s = .ok r

/-- The number in a header is small enough for its file, and it does not let the
loop stay at the header. Such a loop ends only if the header is changed when its prefix is ended. -/
def Bounded (s : Reader) : Prop :=
  Accepted stack s → ∀ n, octalNumber (tarSize s.archive s.tar) = some n →
    (isFile s.archive s.tar = true → n < WORD - HEADER) ∧
    (WORD - 2 * HEADER < n % WORD → n % WORD ≤ WORD - HEADER →
      endPrefix s.archive s.tar ≠ s.archive)

end

section

variable {stack : Nat → Nat → UInt8} {s s' : Reader} {archive : Bytes} {tar size : Nat}

theorem octalValue_eq {digits : Bytes} (h : ∀ c ∈ digits, isOctal c = true) :
    stringParseOctal.octalValue digits =
      Nat.ofDigits 8 (digits.map (·.toNat - 48)).reverse % WORD := by
  induction digits using List.reverseRecOn with
  | nil => rfl
  | append_singleton digits c ih =>
      have hc : isOctal c = true := h c (by simp)
      have hlt : c.toNat - 48 < 2 ^ 3 := by
        rw [isOctal, decide_eq_true_eq] at hc
        have := UInt8.lt_iff_toNat_lt.mp hc.2
        change c.toNat < 56 at this
        omega
      have ih' := ih fun c hc => h c (List.mem_append_left _ hc)
      rw [stringParseOctal.octalValue] at ih' ⊢
      rw [List.foldl_append, List.foldl_cons, List.foldl_nil, ih',
        ← Nat.shiftLeft_add_eq_or_of_lt hlt, Nat.shiftLeft_eq, List.map_append, List.reverse_append]
      change _ = Nat.ofDigits 8 ((c.toNat - 48) :: (digits.map (·.toNat - 48)).reverse) % WORD
      rw [Nat.ofDigits_cons, WORD]
      push_cast
      omega

theorem stringParseOctal_eq (str : Bytes) : stringParseOctal str =
    match octalNumber str with
    | some n => n % WORD
    | none => WORD - 1 := by
  have hdigits : ∀ c ∈ octalDigits str, isOctal c = true := fun c hc => List.mem_takeWhile_imp hc
  rw [stringParseOctal, octalNumber]
  rcases behindDigits str with _ | ⟨c, cs⟩
  · exact octalValue_eq hdigits
  · rcases eq_or_ne c 0 with rfl | hc
    · exact octalValue_eq hdigits
    · simp [hc]

def headerSize (s : Reader) : Nat := stringParseOctal (tarSize s.archive s.tar)

/-- The assertions about a header hold. -/
structure Checked (s : Reader) : Prop where
  checksum : tarVerifyChecksum s.archive s.tar = true
  valid : headerSize s ≠ WORD - 1
  fits : (HEADER + headerSize s) % WORD ≤ s.length

theorem readerAssert_bind {α : Type} (c : Bool) (f : Unit → Reading α) :
    (readerAssert c >>= f) s = if c then f () s else .error .assertion := by
  rcases c with _ | _
  · rfl
  · rfl

theorem checkHeader_cases (s : Reader) : Checked s ∧ checkHeader s = .ok (headerSize s, s) ∨
    ¬Checked s ∧ checkHeader s = .error .assertion := by
  rw [checkHeader, bind_apply, get_apply]
  change Checked s ∧ (readerAssert (tarVerifyChecksum s.archive s.tar) >>= _) s = _ ∨
    ¬Checked s ∧ (readerAssert (tarVerifyChecksum s.archive s.tar) >>= _) s = _
  rw [readerAssert_bind]
  split_ifs with hchecksum
  · change Checked s ∧ (readerAssert (decide (headerSize s ≠ WORD - 1)) >>= _) s = _ ∨
      ¬Checked s ∧ (readerAssert (decide (headerSize s ≠ WORD - 1)) >>= _) s = _
    rw [readerAssert_bind]
    split_ifs with hvalid
    · rw [readerAssert_bind]
      split_ifs with hfits
      · exact Or.inl ⟨⟨hchecksum, of_decide_eq_true hvalid, of_decide_eq_true hfits⟩, rfl⟩
      · exact Or.inr ⟨fun h => hfits (decide_eq_true h.fits), rfl⟩
    · exact Or.inr ⟨fun h => hvalid (decide_eq_true h.valid), rfl⟩
  · exact Or.inr ⟨fun h => hchecksum h.checksum, rfl⟩

/-- The path of the file of a header whose prefix was ended. -/
def filePath (s : Reader) : Bytes := cstring (namebuf s.archive s.tar)

theorem createFile_of_not (h : isFile s.archive s.tar = false) :
    createFile stack size s = .ok ((), s) := by
  rw [createFile, bind_apply, get_apply]
  change (if isFile s.archive s.tar = true then recordFile stack size else pure ()) s = _
  rw [h]
  rfl

theorem createFile_of_file (h : isFile s.archive s.tar = true) :
    createFile stack size s = recordFile stack size s := by
  rw [createFile, bind_apply, get_apply]
  change (if isFile s.archive s.tar = true then recordFile stack size else pure ()) s = _
  rw [if_pos h]

/-- The reader after a file was recorded. -/
def recorded (s : Reader) (store : Store) (f size : Nat) : Reader :=
  { s with
    store := store
    buffers := Function.update s.buffers f (some (s.tar + HEADER, size)) }

theorem onStore_eq {α : Type} {m : Kernel α} {a : α} {store : Store}
    (h : m s.store = .ok (a, store)) : onStore m s = .ok (a, { s with store := store }) := by
  rw [onStore, h]

theorem recordFile_eq {f : Nat} {store store' : Store}
    (hsearch : fileSystemSearchFile none (filePath s)
      (behindPath stack (namebuf s.archive s.tar) s.rounds) true s.store = .ok (some f, store))
    (hrelease : objectRelease f store = .ok ((), store')) :
    recordFile stack size s = .ok ((), recorded s store' f size) := by
  have hstore : onStore (fileSystemSearchFile none (filePath s)
      (behindPath stack (namebuf s.archive s.tar) s.rounds) true) s =
        .ok (some f, { s with store := store }) := onStore_eq hsearch
  rw [recordFile, bind_apply, get_apply]
  change (onStore (fileSystemSearchFile none (filePath s) _ true) >>= _) s = _
  rw [bind_apply, hstore]
  exact onStore_eq hrelease

theorem sound_released {f : Nat} {store store' : Store}
    (h : Sound (withHandle (fun _ => 0) (some f)) store)
    (hrelease : objectRelease f store = .ok ((), store')) : Sound (fun _ => 0) store' := by
  have hpos : 0 < oneMore (fun _ => 0) f f := by
    rw [oneMore, Function.update_self]
    exact Nat.one_pos
  have hspec : ∃ store'', objectRelease f store = .ok ((), store'') ∧
      Sound (Function.update (oneMore (fun _ => 0) f) f (oneMore (fun _ => 0) f f - 1)) store'' ∧
        Change (fun _ => True) store store'' := objectRelease_sound h hpos
  obtain ⟨store'', hrelease', hsound, -⟩ := hspec
  rw [hrelease] at hrelease'
  obtain rfl : store' = store'' := by simpa using hrelease'
  have hzero : Function.update (oneMore (fun _ => 0) f) f (oneMore (fun _ => 0) f f - 1) =
      fun _ => 0 := by
    funext y
    rw [oneMore, Function.update_self, Function.update_idem, Function.update_apply]
    simp
  rwa [hzero] at hsound

theorem zero_notMem_filePath (s : Reader) : 0 ∉ filePath s := zero_notMem_cstring _

theorem createFile_cases (stack : Nat → Nat → UInt8) (size : Nat) (h : Sound (fun _ => 0) s.store) :
    createFile stack size s = .error .assertion ∨
      isFile s.archive s.tar = false ∧ createFile stack size s = .ok ((), s) ∨
      isFile s.archive s.tar = true ∧ ∃ f store e, Sound (fun _ => 0) store ∧
        Finds store (filePath s) e f ∧
          createFile stack size s = .ok ((), recorded s store f size) := by
  rcases hfile : isFile s.archive s.tar with _ | _
  · exact Or.inr (Or.inl ⟨rfl, createFile_of_not hfile⟩)
  · rw [createFile_of_file hfile]
    obtain ⟨leaks, hinv, -⟩ := id h
    have hspec : ∃ r store, fileSystemSearchFile none (filePath s)
        (behindPath stack (namebuf s.archive s.tar) s.rounds) true s.store = .ok (r, store) ∧
          Sound (withHandle (fun _ => 0) r) store ∧ Change (fun _ => True) s.store store :=
      fileSystemSearchFile_sound (filePath s) _ true h hinv.root fun _ _ _ => trivial
    obtain ⟨r, store, hsearch, hsound, -⟩ := hspec
    rcases r with _ | f
    · left
      have hstore : onStore (fileSystemSearchFile none (filePath s)
          (behindPath stack (namebuf s.archive s.tar) s.rounds) true) s =
            .ok (none, { s with store := store }) := onStore_eq hsearch
      rw [recordFile, bind_apply, get_apply]
      change (onStore (fileSystemSearchFile none (filePath s) _ true) >>= _) s = _
      rw [bind_apply, hstore]
      rfl
    · obtain ⟨e, store', hrelease, hfinds⟩ := finds_again h (zero_notMem_filePath s) hsearch
      exact Or.inr (Or.inr ⟨rfl, f, store', e, sound_released hsound hrelease, hfinds,
        recordFile_eq hsearch hrelease⟩)

/-- The reader at the next header. -/
def advanced (s : Reader) (size : Nat) : Reader :=
  { s with
    tar := s.tar + entrySize size
    length := s.length - entrySize size
    rounds := s.rounds + 1 }

theorem advance_eq (size : Nat) (s : Reader) : advance size s =
    if entrySize size > s.length then .ok (false, s) else .ok (true, advanced s size) := by
  rw [advance, bind_apply, get_apply]
  change (if entrySize size > s.length then _ else _ : Reading Bool) s = _
  split_ifs
  · rfl
  · rfl

/-- The reader whose header has its prefix ended. -/
def ended (s : Reader) : Reader := { s with archive := endPrefix s.archive s.tar }

theorem readEntry_of_none (h : s.length < HEADER ∨ tarIsEOF s.archive s.tar s.length = true) :
    readEntry stack s = .ok (false, s) := by
  rw [readEntry, bind_apply, get_apply]
  change (if s.length < HEADER then _ else if tarIsEOF s.archive s.tar s.length = true then _
    else _ : Reading Bool) s = _
  rcases h with h | h
  · rw [if_pos h]
    rfl
  · rw [if_pos h, ite_self]
    rfl

theorem readEntry_of_header (hlength : HEADER ≤ s.length)
    (hmore : tarIsEOF s.archive s.tar s.length = false) :
    readEntry stack s = (checkHeader >>= fun size => do
      modify fun s => { s with archive := endPrefix s.archive s.tar }
      createFile stack size
      advance size) s := by
  rw [readEntry, bind_apply, get_apply]
  change (if s.length < HEADER then _ else if tarIsEOF s.archive s.tar s.length = true then _
    else checkHeader >>= _ : Reading Bool) s = _
  rw [if_neg (Nat.not_lt.mpr hlength), hmore, if_neg Bool.false_ne_true]

theorem readEntry_of_checked (hlength : HEADER ≤ s.length)
    (hmore : tarIsEOF s.archive s.tar s.length = false) (hchecked : Checked s) :
    readEntry stack s =
      (createFile stack (headerSize s) >>= fun _ => advance (headerSize s)) (ended s) := by
  rw [readEntry_of_header hlength hmore, bind_apply]
  rcases checkHeader_cases s with ⟨-, heq⟩ | ⟨hnot, -⟩
  · rw [heq]
    rfl
  · exact absurd hchecked hnot

theorem getD_endPrefix (archive : Bytes) (tar : Nat) {i : Nat} (hi : i ≠ tar + 499) :
    (endPrefix archive tar)[i]? = archive[i]? := by
  rw [endPrefix]
  split_ifs
  · rw [List.getElem?_set_ne (by omega)]
  · rfl

theorem field_congr {archive archive' : Bytes} {offset length : Nat}
    (h : ∀ i, offset ≤ i → i < offset + length → archive[i]? = archive'[i]?) :
    field archive offset length = field archive' offset length := by
  refine List.ext_getElem? fun i => ?_
  rw [field, field, List.getElem?_take, List.getElem?_take, List.getElem?_drop, List.getElem?_drop]
  split_ifs with hi
  · exact h _ (by omega) (by omega)
  · rfl

theorem isFile_congr {archive archive' : Bytes} (h : archive[tar + 156]? = archive'[tar + 156]?) :
    isFile archive tar = isFile archive' tar := by
  rw [isFile, isFile, tarTypeflag, tarTypeflag, List.getD_eq_getElem?_getD,
    List.getD_eq_getElem?_getD, h]

theorem isFile_endPrefix (archive : Bytes) (tar : Nat) :
    isFile (endPrefix archive tar) tar = isFile archive tar :=
  isFile_congr (getD_endPrefix _ _ (by omega))

/-- What a round does to the reader when it has read a header. -/
structure Round (s : Reader) (b : Bool) (s' : Reader) : Prop where
  checked : Checked s
  archive : s'.archive = endPrefix s.archive s.tar
  sound : Sound (fun _ => 0) s'.store
  buffers : isFile s.archive s.tar = false → s'.buffers = s.buffers
  file : isFile s.archive s.tar = true → ∃ e f, Finds s'.store (filePath (ended s)) e f ∧
    s'.buffers = Function.update s.buffers f (some (s.tar + HEADER, headerSize s))
  tar : s'.tar = if b then s.tar + entrySize (headerSize s) else s.tar
  length : s'.length = if b then s.length - entrySize (headerSize s) else s.length
  more : b = true ↔ entrySize (headerSize s) ≤ s.length

theorem round_advance {t : Reader} (hchecked : Checked s) (ht : t.archive = (ended s).archive)
    (htar : t.tar = s.tar) (hlength : t.length = s.length) (hsound : Sound (fun _ => 0) t.store)
    (hbuffers : isFile s.archive s.tar = false → t.buffers = s.buffers)
    (hfile : isFile s.archive s.tar = true → ∃ e f, Finds t.store (filePath (ended s)) e f ∧
      t.buffers = Function.update s.buffers f (some (s.tar + HEADER, headerSize s))) :
    ∃ b s', advance (headerSize s) t = .ok (b, s') ∧ Round s b s' := by
  rw [advance_eq, hlength]
  split_ifs with hmore
  · exact ⟨false, t, rfl, hchecked, ht, hsound, hbuffers, hfile, htar, hlength,
      by simp [hmore]⟩
  · refine ⟨true, _, rfl, hchecked, ht, hsound, hbuffers, hfile, ?_, ?_, by simp; omega⟩
    · rw [if_pos rfl, ← htar]
      rfl
    · rw [if_pos rfl, ← hlength]
      rfl

theorem readEntry_cases (stack : Nat → Nat → UInt8) (h : Sound (fun _ => 0) s.store) :
    (s.length < HEADER ∨ tarIsEOF s.archive s.tar s.length = true) ∧
        readEntry stack s = .ok (false, s) ∨
      (HEADER ≤ s.length ∧ tarIsEOF s.archive s.tar s.length = false) ∧
        (readEntry stack s = .error .assertion ∨
          ∃ b s', readEntry stack s = .ok (b, s') ∧ Round s b s') := by
  rcases Classical.em
    (s.length < HEADER ∨ tarIsEOF s.archive s.tar s.length = true) with hnone | hsome
  · exact Or.inl ⟨hnone, readEntry_of_none hnone⟩
  · rw [not_or, Nat.not_lt, Bool.not_eq_true] at hsome
    refine Or.inr ⟨hsome, ?_⟩
    rcases checkHeader_cases s with ⟨hchecked, -⟩ | ⟨-, heq⟩
    · rw [readEntry_of_checked hsome.1 hsome.2 hchecked, bind_apply]
      rcases createFile_cases stack (s := ended s) (headerSize s) h with
        herror | ⟨hfile, heq⟩ | ⟨hfile, f, store, e, hsound, hfinds, heq⟩
      · exact Or.inl (by rw [herror])
      · rw [heq]
        rw [ended, isFile_endPrefix] at hfile
        refine Or.inr (round_advance hchecked rfl rfl rfl h (fun _ => rfl) fun hfile' => ?_)
        exact absurd (hfile.symm.trans hfile') Bool.false_ne_true
      · rw [heq]
        rw [ended, isFile_endPrefix] at hfile
        refine Or.inr (round_advance hchecked rfl rfl rfl hsound (fun hfile' => ?_)
          fun _ => ⟨e, f, hfinds, rfl⟩)
        exact absurd (hfile'.symm.trans hfile) Bool.false_ne_true
    · rw [readEntry_of_header hsome.1 hsome.2, bind_apply, heq]
      exact Or.inl rfl

theorem hasPrefix_endPrefix (archive : Bytes) (tar : Nat) :
    hasPrefix (endPrefix archive tar) tar = hasPrefix archive tar := by
  have hmagic : tarMagic (endPrefix archive tar) tar = tarMagic archive tar :=
    field_congr fun i _ hi => getD_endPrefix archive tar (by omega)
  rw [hasPrefix, hasPrefix, hmagic, List.getD_eq_getElem?_getD, List.getD_eq_getElem?_getD,
    getD_endPrefix archive tar (by omega)]

theorem endPrefix_endPrefix (archive : Bytes) (tar : Nat) :
    endPrefix (endPrefix archive tar) tar = endPrefix archive tar := by
  rw [endPrefix, hasPrefix_endPrefix]
  split_ifs with h
  · rw [endPrefix, if_pos h, List.set_set]
  · rfl

theorem entrySize_cases (size : Nat) : entrySize size = 0 ∨ HEADER ≤ entrySize size := by
  simp only [entrySize, HEADER, WORD]
  omega

theorem entrySize_eq_zero_iff (h : size < WORD) :
    entrySize size = 0 ↔ WORD - 2 * HEADER < size ∧ size ≤ WORD - HEADER := by
  simp only [entrySize, HEADER, WORD] at h ⊢
  omega

/-- What holds of every reader which the loop comes to. The bytes in front of the
header were read before. -/
structure Valid (archive : Bytes) (s : Reader) : Prop where
  sound : Sound (fun _ => 0) s.store
  ends : s.tar + s.length = archive.length
  same : ∀ i, s.tar ≤ i → i ≠ s.tar + 499 → s.archive[i]? = archive[i]?

theorem Valid.round {b : Bool} (h : Valid archive s) (hr : Round s b s') : Valid archive s' := by
  have hends := h.ends
  have hsame : ∀ i, s.tar ≤ i → i ≠ s.tar + 499 → s'.archive[i]? = archive[i]? := by
    intro i hi hne
    rw [hr.archive, getD_endPrefix _ _ hne]
    exact h.same i hi hne
  have htar := hr.tar
  have hlength := hr.length
  rcases b with _ | _
  · rw [if_neg Bool.false_ne_true] at htar hlength
    refine ⟨hr.sound, by omega, ?_⟩
    rw [htar]
    exact hsame
  · rw [if_pos rfl] at htar hlength
    have hmore := hr.more.mp rfl
    refine ⟨hr.sound, by omega, fun i hi hne => ?_⟩
    rcases entrySize_cases (headerSize s) with hzero | hstep
    · rw [hzero] at htar
      exact hsame i (by omega) (by omega)
    · rw [HEADER] at hstep
      exact hsame i (by omega) (by omega)

theorem valid_firstReader (heap : Nat → Bool) (archive : Bytes) :
    Valid archive (firstReader heap archive) := by
  refine ⟨?_, Nat.zero_add _, fun _ _ _ => rfl⟩
  exact CanonicalPaths.sound_initial heap

theorem Reached.valid {heap : Nat → Bool} {b : Bool} (h : Reached stack heap archive b s) :
    Valid archive s := by
  induction h with
  | start _ => exact valid_firstReader heap archive
  | @round s s' b _ h ih =>
      rcases readEntry_cases stack ih.sound with ⟨-, heq⟩ | ⟨-, herror | ⟨b', s'', heq, hr⟩⟩
      · rw [h] at heq
        obtain ⟨-, rfl⟩ : b = false ∧ s' = s := by simpa using heq
        exact ih
      · rw [h] at herror
        cases herror
      · rw [h] at heq
        obtain ⟨rfl, rfl⟩ : b = b' ∧ s' = s'' := by simpa using heq
        exact ih.round hr

theorem headerSize_lt (s : Reader) : headerSize s < WORD := by
  rw [headerSize, stringParseOctal_eq]
  have hpos : 0 < WORD := by decide
  rcases octalNumber (tarSize s.archive s.tar) with _ | n
  · exact Nat.sub_one_lt hpos.ne'
  · exact Nat.mod_lt n hpos

theorem Checked.number (h : Checked s) :
    ∃ n, octalNumber (tarSize s.archive s.tar) = some n ∧ headerSize s = n % WORD := by
  have hsize := stringParseOctal_eq (tarSize s.archive s.tar)
  rcases hn : octalNumber (tarSize s.archive s.tar) with _ | n
  · rw [hn] at hsize
    exact absurd hsize h.valid
  · rw [hn] at hsize
    exact ⟨n, rfl, hsize⟩

theorem Valid.tarSize (h : Valid archive s) :
    tarSize s.archive s.tar = Archives.tarSize archive s.tar :=
  field_congr fun i hi hlt => h.same i (by omega) (by omega)

theorem right_round {b : Bool} (h : Valid archive s) (hr : Round s b s')
    (hright : Right archive s.buffers)
    (hsmall : isFile s.archive s.tar = true →
      ∀ n, octalNumber (tarSize s.archive s.tar) = some n → n < WORD - HEADER) :
    Right archive s'.buffers := by
  rcases hfile : isFile s.archive s.tar with _ | _
  · rw [hr.buffers hfile]
    exact hright
  · have hends := h.ends
    have hfits := hr.checked.fits
    obtain ⟨n, hn, hsize⟩ := hr.checked.number
    have hlt := hsmall hfile n hn
    obtain ⟨-, g, -, heq⟩ := hr.file hfile
    rw [Nat.mod_eq_of_lt (by omega)] at hsize
    rw [hsize, Nat.mod_eq_of_lt (by simp only [HEADER, WORD] at hlt ⊢; omega)] at hfits
    rw [h.tarSize] at hn
    intro f buffer size hf
    rw [heq, hsize, Function.update_apply] at hf
    split_ifs at hf with hfg
    · obtain ⟨rfl, rfl⟩ : s.tar + HEADER = buffer ∧ n = size := by simpa using hf
      rw [Nat.add_sub_cancel]
      exact ⟨Nat.le_add_left _ _, by omega, hn⟩
    · exact hright f buffer size hf

theorem lt_of_right {b : Bool} {n : Nat} (hlength : archive.length < WORD) (h : Valid archive s)
    (hr : Round s b s') (hfile : isFile s.archive s.tar = true)
    (hn : octalNumber (tarSize s.archive s.tar) = some n) (hright : Right archive s'.buffers) :
    n < WORD - HEADER := by
  obtain ⟨-, f, -, heq⟩ := hr.file hfile
  obtain ⟨-, hle, hnumber⟩ := hright f (s.tar + HEADER) (headerSize s)
    (by rw [heq, Function.update_self])
  rw [Nat.add_sub_cancel, ← h.tarSize, hn] at hnumber
  obtain rfl := Option.some.inj hnumber
  simp only [HEADER, WORD] at hle hlength ⊢
  omega

end

section

/-! A loop which stays at a header never ends. -/

variable {stack : Nat → Nat → UInt8} {s s' : Reader} {archive : Bytes}

structure Stuck (s : Reader) : Prop where
  sound : Sound (fun _ => 0) s.store
  length : HEADER ≤ s.length
  more : tarIsEOF s.archive s.tar s.length = false
  checked : Checked s
  stays : entrySize (headerSize s) = 0
  same : endPrefix s.archive s.tar = s.archive
  file : isFile s.archive s.tar = true → ∃ e f, Finds s.store (filePath s) e f

theorem ended_eq (h : endPrefix s.archive s.tar = s.archive) : ended s = s := by
  rw [ended, h]

/-- A round which does not move on ends where it started. -/
theorem stuck_round {b : Bool} (hlength : HEADER ≤ s.length)
    (hmore : tarIsEOF s.archive s.tar s.length = false) (hr : Round s b s')
    (hstays : entrySize (headerSize s) = 0) (hsame : endPrefix s.archive s.tar = s.archive) :
    b = true ∧ Stuck s' := by
  obtain rfl : b = true := hr.more.mpr (by omega)
  have harchive := hr.archive
  have htar := hr.tar
  have hlen := hr.length
  rw [hsame] at harchive
  rw [if_pos rfl, hstays, Nat.add_zero] at htar
  rw [if_pos rfl, hstays, Nat.sub_zero] at hlen
  have hsize : headerSize s' = headerSize s := by
    rw [headerSize, headerSize, harchive, htar]
  have hchecked := hr.checked
  refine ⟨rfl, hr.sound, by omega, ?_, ⟨?_, ?_, ?_⟩, ?_, ?_, ?_⟩
  · rw [harchive, htar, hlen]
    exact hmore
  · rw [harchive, htar]
    exact hchecked.checksum
  · rw [hsize]
    exact hchecked.valid
  · rw [hsize, hlen]
    exact hchecked.fits
  · rw [hsize, hstays]
  · rw [harchive, htar, hsame]
  · rw [harchive, htar]
    intro hfile
    obtain ⟨e, f, hfinds, -⟩ := hr.file hfile
    have hpath : filePath s' = filePath (ended s) := by
      rw [filePath, filePath, ended_eq hsame, harchive, htar]
    rw [hpath]
    exact ⟨e, f, hfinds⟩

theorem Stuck.round (stack : Nat → Nat → UInt8) (h : Stuck s) :
    ∃ s', readEntry stack s = .ok (true, s') ∧ Stuck s' := by
  have hcreate : ∃ t, createFile stack (headerSize s) s = .ok ((), t) := by
    rcases hfile : isFile s.archive s.tar with _ | _
    · exact ⟨s, createFile_of_not hfile⟩
    · obtain ⟨e, f, hfinds⟩ := h.file hfile
      obtain ⟨leaks, hinv, hpos, -⟩ := h.sound
      have hlive : s.store.objects f ≠ none := by
        have hkind := ((hinv.forest.mem_children .file e f).mp
          (List.mem_of_find?_eq_some hfinds.file)).1
        exact live_of_kind hkind
      rw [createFile_of_file hfile]
      exact ⟨_, recordFile_eq (hfinds.search (Creations.Inv.tree hinv) hpos _ true)
        (LookupReferences.release_again hpos hlive)⟩
  rcases readEntry_cases stack h.sound with ⟨hnone, -⟩ | ⟨-, herror | ⟨b, s', heq, hr⟩⟩
  · rw [h.more] at hnone
    have hlength := h.length
    rcases hnone with hlt | hfalse
    · omega
    · cases hfalse
  · obtain ⟨t, ht⟩ := hcreate
    rw [readEntry_of_checked h.length h.more h.checked, ended_eq h.same, bind_apply, ht] at herror
    change advance (headerSize s) t = _ at herror
    rw [advance_eq] at herror
    split_ifs at herror
  · obtain ⟨rfl, hstuck⟩ := stuck_round h.length h.more hr h.stays h.same
    exact ⟨s', heq, hstuck⟩

theorem readLoop_succ {fuel : Nat} (h : readEntry stack s = .ok (true, s')) :
    readLoop stack (fuel + 1) s = readLoop stack fuel s' := by
  rw [readLoop, bind_apply, h]
  rfl

theorem Stuck.diverges (h : Stuck s) (fuel : Nat) : readLoop stack fuel s = .error .outOfFuel := by
  induction fuel generalizing s with
  | zero => rfl
  | succ fuel ih =>
      obtain ⟨s', hround, hstuck⟩ := h.round stack
      rw [readLoop_succ hround]
      exact ih hstuck

/-- The rest of a loop which ends ends, too. -/
theorem Reached.ends {heap : Nat → Bool} {fuel : Nat} (h : Reached stack heap archive true s)
    (hends : fileSystemInit stack heap archive fuel ≠ .error .outOfFuel) :
    ∃ fuel, readLoop stack fuel s ≠ .error .outOfFuel := by
  generalize hb : true = b at h
  induction h with
  | start hheap =>
      refine ⟨fuel, fun hloop => hends ?_⟩
      rw [fileSystemInit, if_pos hheap, hloop]
      rfl
  | @round s s' b hs h ih =>
      obtain ⟨fuel', hfuel'⟩ := ih rfl
      rcases fuel' with _ | fuel'
      · exact absurd rfl hfuel'
      · rw [← hb] at h
        rw [readLoop_succ h] at hfuel'
        exact ⟨fuel', hfuel'⟩

/-- Decreases in every round. The prefix of a header is ended only once. -/
def remaining (s : Reader) : Nat :=
  2 * s.length + if endPrefix s.archive s.tar = s.archive then 0 else 1

theorem remaining_lt (hr : Round s true s')
    (hstays : entrySize (headerSize s) = 0 → endPrefix s.archive s.tar ≠ s.archive) :
    remaining s' < remaining s := by
  have hlength := hr.length
  have hmore := hr.more.mp rfl
  rw [if_pos rfl] at hlength
  rw [remaining, remaining]
  rcases entrySize_cases (headerSize s) with hzero | hstep
  · have htar := hr.tar
    rw [if_pos rfl, hzero, Nat.add_zero] at htar
    have hsame : endPrefix s'.archive s'.tar = s'.archive := by
      rw [hr.archive, htar, endPrefix_endPrefix]
    rw [if_pos hsame, if_neg (hstays hzero)]
    omega
  · rw [HEADER] at hstep
    split_ifs <;> omega

theorem Round.stays {b : Bool} (hr : Round s b s') (h : Bounded stack s)
    (haccepted : Accepted stack s) (hzero : entrySize (headerSize s) = 0) :
    endPrefix s.archive s.tar ≠ s.archive := by
  obtain ⟨n, hn, hsize⟩ := hr.checked.number
  rw [entrySize_eq_zero_iff (headerSize_lt s), hsize] at hzero
  exact (h haccepted n hn).2 hzero.1 hzero.2

theorem readLoop_ends {heap : Nat → Bool} {fuel : Nat}
    (hbounded : ∀ s, Reached stack heap archive true s → Bounded stack s)
    (hs : Reached stack heap archive true s) (hfuel : remaining s < fuel) :
    readLoop stack fuel s ≠ .error .outOfFuel := by
  induction fuel generalizing s with
  | zero => omega
  | succ fuel ih =>
      rcases readEntry_cases stack hs.valid.sound with
        ⟨-, heq⟩ | ⟨hheader, herror | ⟨b, s', heq, hr⟩⟩
      · rw [readLoop, bind_apply, heq]
        exact nofun
      · rw [readLoop, bind_apply, herror]
        exact nofun
      · rcases b with _ | _
        · rw [readLoop, bind_apply, heq]
          exact nofun
        · rw [readLoop_succ heq]
          have hlt := remaining_lt hr
            (hr.stays (hbounded s hs) ⟨hheader.1, hheader.2, _, heq⟩)
          exact ih (hs.round heq) (by omega)

theorem Reached.right {heap : Nat → Bool} {b : Bool} (h : Reached stack heap archive b s)
    (hbounded : ∀ s, Reached stack heap archive true s → Bounded stack s) :
    Right archive s.buffers := by
  induction h with
  | start _ => exact fun _ _ _ h => nomatch h
  | @round s s' b hs h ih =>
      rcases readEntry_cases stack hs.valid.sound with
        ⟨-, heq⟩ | ⟨hheader, herror | ⟨b', s'', heq, hr⟩⟩
      · rw [h] at heq
        obtain ⟨-, rfl⟩ : b = false ∧ s' = s := by simpa using heq
        exact ih
      · rw [h] at herror
        cases herror
      · rw [h] at heq
        obtain ⟨rfl, rfl⟩ : b = b' ∧ s' = s'' := by simpa using heq
        exact right_round hs.valid hr ih fun hfile n hn =>
          (hbounded s hs ⟨hheader.1, hheader.2, _, h⟩ n hn).1 hfile

theorem bounded_of_safe {heap : Nat → Bool} (hlength : archive.length < WORD)
    (hsafe : Safe stack heap archive) (hs : Reached stack heap archive true s) :
    Bounded stack s := by
  obtain ⟨⟨fuel, hends⟩, hright⟩ := hsafe
  rintro ⟨hheader, hmore, r, hround⟩ n hn
  rcases readEntry_cases stack hs.valid.sound with
    ⟨hnone, -⟩ | ⟨-, herror | ⟨b, s', heq, hr⟩⟩
  · rw [hmore] at hnone
    rcases hnone with hlt | hfalse
    · omega
    · cases hfalse
  · rw [hround] at herror
    cases herror
  · refine ⟨fun hfile => ?_, fun hlow hhigh hsame => ?_⟩
    · exact lt_of_right hlength hs.valid hr hfile hn (hright b s' (hs.round heq))
    · obtain ⟨n', hn', hsize⟩ := hr.checked.number
      obtain rfl : n = n' := Option.some.inj (hn.symm.trans hn')
      have hzero : entrySize (headerSize s) = 0 := by
        rw [entrySize_eq_zero_iff (headerSize_lt s), hsize]
        exact ⟨hlow, hhigh⟩
      obtain ⟨rfl, hstuck⟩ := stuck_round hheader hmore hr hzero hsame
      obtain ⟨fuel', hfuel'⟩ := (hs.round heq).ends hends
      exact hfuel' (hstuck.diverges fuel')

theorem fileSystemInit_safe_iff (stack : Nat → Nat → UInt8) (heap : Nat → Bool) (archive : Bytes)
    (hlength : archive.length < WORD) : Safe stack heap archive ↔
      ∀ s, Reached stack heap archive true s → Bounded stack s := by
  constructor
  · exact fun hsafe s hs => bounded_of_safe hlength hsafe hs
  · intro hbounded
    refine ⟨?_, fun b s hs => hs.right hbounded⟩
    rcases hheap : heap 0 with _ | _
    · refine ⟨0, ?_⟩
      rw [fileSystemInit, hheap]
      exact nofun
    · refine ⟨remaining (firstReader heap archive) + 1, ?_⟩
      have hloop := readLoop_ends hbounded (.start hheap) (Nat.lt_add_one _)
      rw [fileSystemInit, if_pos hheap]
      intro herror
      rcases hrun : readLoop stack (remaining (firstReader heap archive) + 1)
        (firstReader heap archive) with e | r
      · rw [hrun] at herror
        exact hloop (hrun.trans (by simpa [Except.map] using herror))
      · rw [hrun] at herror
        cases herror

/-- The header of a file "a". -/
def sampleHeader (size checksum : Bytes) : Bytes :=
  [97] ++ List.replicate 123 0 ++ size ++ List.replicate 12 0 ++ checksum ++ [TAR_TYPE_FILE] ++
    List.replicate 355 0

/-- An archive with one file of one byte. -/
def sampleArchive : Bytes :=
  sampleHeader [48, 48, 48, 48, 48, 48, 48, 48, 48, 48, 49, 0] [48, 48, 49, 54, 52, 50, 0, 32] ++
    [120] ++ List.replicate 1535 0

theorem fileSystemInit_safe_iff_sample : sampleArchive.length < WORD ∧
    ((readEntry (fun _ _ => 0) (firstReader (fun _ => true) sampleArchive)).toOption.map
      fun r => r.2.buffers 1) = some (some (512, 1)) ∧
    (Safe (fun _ _ => 0) (fun _ => true) sampleArchive ↔
      ∀ s, Reached (fun _ _ => 0) (fun _ => true) sampleArchive true s →
        Bounded (fun _ _ => 0) s) :=
  ⟨by decide +kernel, by decide +kernel, fileSystemInit_safe_iff _ _ _ (by decide +kernel)⟩

/-- The size is the octal number 37777777000, which is 2 ^ 32 - 512. -/
def hugeHeader : Bytes :=
  sampleHeader [51, 55, 55, 55, 55, 55, 55, 55, 48, 48, 48, 0] [48, 48, 49, 55, 50, 53, 0, 32]

theorem hugeHeader_not_safe : ¬Safe (fun _ _ => 0) (fun _ => true) hugeHeader := by
  rintro ⟨-, hright⟩
  have hbuffers : ((readEntry (fun _ _ => 0) (firstReader (fun _ => true) hugeHeader)).toOption.map
      fun r => r.2.buffers 1) = some (some (512, 4294966784)) := by decide +kernel
  have hlength : hugeHeader.length = 512 := by decide +kernel
  rcases hround : readEntry (fun _ _ => 0) (firstReader (fun _ => true) hugeHeader) with e | ⟨b, s⟩
  · rw [hround] at hbuffers
    cases hbuffers
  · rw [hround] at hbuffers
    have hrange := (hright b s (.round (.start rfl) hround) 1 512 4294966784
      (Option.some.inj hbuffers)).2.1
    omega

end

end Ibnos.Archives
