import Ibnos.Programs
import Ibnos.Strings
import Mathlib.Logic.Function.Basic

/-!
The objects of the file system. Addresses are given out in the order in which
the objects are created. The contents of files are not part of the model.
-/

namespace Ibnos.Filesystem

open Ibnos.Programs
open Ibnos.Strings

inductive Fault
  | assertion
  | useAfterFree
  | outOfFuel
  deriving DecidableEq, Repr

/-- The name is without the zero byte which is stored behind it. The link `next`
is the one which `ll_remove` leaves behind, none for the head of the list. -/
structure Directory where
  parent : Option Nat
  name : Option Bytes
  files : List Nat := []
  directories : List Nat := []
  next : Option Nat := none
  deriving DecidableEq, Repr

structure File where
  parent : Option Nat
  name : Option Bytes
  next : Option Nat := none
  deriving DecidableEq, Repr

structure OpenedFile where
  file : Nat
  deriving DecidableEq, Repr

structure OpenedDirectory where
  directory : Nat
  pos : Option Nat := none
  deriving DecidableEq, Repr

/-- An object with its type, as told by its `functions`. -/
inductive Object
  | directory (d : Directory)
  | file (f : File)
  | openedFile (h : OpenedFile)
  | openedDirectory (h : OpenedDirectory)
  deriving DecidableEq, Repr

/-- `heap` tells which of the calls of `heapAlloc` succeed. -/
structure Store where
  objects : Nat → Option Object
  refcount : Nat → Nat
  fresh : Nat
  root : Nat
  heap : Nat → Bool
  allocs : Nat

abbrev Kernel := Program Store Fault

def heapAlloc : Kernel Bool :=
  fun s => .ok (s.heap s.allocs, { s with allocs := s.allocs + 1 })

def kernelAssert (c : Prop) [Decidable c] : Kernel Unit :=
  if c then pure () else throw .assertion

def getObject (x : Nat) : Kernel Object := fun s =>
  match s.objects x with
  | some o => .ok (o, s)
  | none => .error .useAfterFree

def setObject (x : Nat) (o : Object) : Kernel Unit :=
  modify fun s => { s with objects := Function.update s.objects x (some o) }

def heapFree (x : Nat) : Kernel Unit :=
  modify fun s => { s with objects := Function.update s.objects x none }

/-- `objectContainer` for a directory -/
def getDirectory (x : Nat) : Kernel Directory := do
  match ← getObject x with
  | .directory d => pure d
  | _ => throw .assertion

/-- `objectContainer` for a file -/
def getFile (x : Nat) : Kernel File := do
  match ← getObject x with
  | .file f => pure f
  | _ => throw .assertion

/-- The name of a file or directory. -/
def getName (x : Nat) : Kernel (Option Bytes) := do
  match ← getObject x with
  | .directory d => pure d.name
  | .file f => pure f.name
  | _ => throw .assertion

/-- `__objectAddRef` -/
def objectAddRef (x : Nat) : Kernel Unit := do
  let _ ← getObject x
  modify fun s => { s with refcount := Function.update s.refcount x (s.refcount x + 1) }

/-- `__objectInit` on memory which was allocated for it. -/
def objectInit (o : Object) : Kernel Nat := fun s =>
  .ok (s.fresh, { s with
    objects := Function.update s.objects s.fresh (some o)
    refcount := Function.update s.refcount s.fresh 1
    fresh := s.fresh + 1 })

/-- The entry behind `x` in a list, none if it is the last one. -/
def successor (xs : List Nat) (x : Nat) : Option Nat := (xs.dropWhile (· ≠ x)).tail.head?

/-- `ll_remove(&f->obj.entry); f->parent = NULL` -/
def unlinkFile (x : Nat) (f : File) (p : Nat) : Kernel Unit := do
  let d ← getDirectory p
  setObject p (.directory { d with files := d.files.erase x })
  setObject x (.file { f with parent := none, next := successor d.files x })

/-- `ll_remove(&d->obj.entry); d->parent = NULL` -/
def unlinkDirectory (x : Nat) (e : Directory) (p : Nat) : Kernel Unit := do
  let d ← getDirectory p
  setObject p (.directory { d with directories := d.directories.erase x })
  setObject x (.directory { e with parent := none, next := successor d.directories x })

section

variable (release : Nat → Kernel Unit)

/-- `__fileShutdown` -/
def fileShutdown (x : Nat) : Kernel Unit := do
  let f ← getFile x
  match f.parent with
  | none => pure ()
  | some p =>
      unlinkFile x f p
      release x

/-- `__directoryShutdown` -/
def directoryShutdown (x : Nat) : Kernel Unit := do
  let d ← getDirectory x
  match d.parent with
  | none => pure ()
  | some p =>
      unlinkDirectory x d p
      release x

/-- `LL_FOR_EACH_SAFE`. The entry behind the current one is read before the body
is executed, which takes at most the current one out of the list. -/
def forEach (body : Nat → Kernel Unit) : List Nat → Kernel Unit
  | [] => pure ()
  | x :: xs => do
      body x
      forEach body xs

/-- `__directoryShutdownChilds` -/
def directoryShutdownChilds (x : Nat) : Kernel Unit := do
  let d ← getDirectory x
  forEach (fileShutdown release) d.files
  let d ← getDirectory x
  forEach (directoryShutdown release) d.directories

/-- `__directoryDestroy` -/
def directoryDestroy (x : Nat) : Kernel Unit := do
  let d ← getDirectory x
  kernelAssert (d.parent = none)
  directoryShutdownChilds release x
  let d ← getDirectory x
  kernelAssert (d.files = [] ∧ d.directories = [])
  heapFree x

/-- `__fileDestroy` -/
def fileDestroy (x : Nat) : Kernel Unit := do
  let f ← getFile x
  kernelAssert (f.parent = none)
  heapFree x

/-- `__openedFileDestroy` -/
def openedFileDestroy (x : Nat) (h : OpenedFile) : Kernel Unit := do
  heapFree x
  release h.file

/-- `__openedDirectoryDestroy` -/
def openedDirectoryDestroy (x : Nat) (h : OpenedDirectory) : Kernel Unit := do
  match h.pos with
  | none => pure ()
  | some y => release y
  heapFree x
  release h.directory

def objectDestroy (x : Nat) : Kernel Unit := do
  match ← getObject x with
  | .directory _ => directoryDestroy release x
  | .file _ => fileDestroy x
  | .openedFile h => openedFileDestroy release x h
  | .openedDirectory h => openedDirectoryDestroy release x h

end

/-- `--obj->refcount`. A count of zero wraps around. -/
def decrement (n : Nat) : Nat := if n = 0 then 4294967295 else n - 1

/-- `__objectRelease`, nested in at most `fuel` others. -/
def releaseNested : Nat → Nat → Kernel Unit
  | 0, _ => throw .outOfFuel
  | fuel + 1, x => do
      let _ ← getObject x
      modify fun s => { s with refcount := Function.update s.refcount x (decrement (s.refcount x)) }
      let s ← get
      if s.refcount x = 0 then objectDestroy (releaseNested fuel) x else pure ()

/-- `__objectRelease`. A directory is nested in its parent, which is older. -/
def objectRelease (x : Nat) : Kernel Unit := fun s => releaseNested (s.fresh + 2) x s

/-- `__objectShutdown`. Shutting down an openedFile truncates the file, which
has no effect on the objects. -/
def objectShutdown (x : Nat) : Kernel Unit := do
  match ← getObject x with
  | .directory _ => directoryShutdown objectRelease x
  | .file _ => fileShutdown objectRelease x
  | _ => pure ()

/-- Memory for an object and for a copy of its name. -/
def allocNamed (name : Option Bytes) : Kernel Bool := do
  if ← heapAlloc then
    match name with
    | none => pure true
    | some _ => heapAlloc
  else pure false

def directoryCreate (parent : Option Nat) (name : Option Bytes) : Kernel (Option Nat) := do
  if ← allocNamed name then
    let x ← objectInit (.directory { parent := parent, name := name })
    match parent with
    | none => pure (some x)
    | some p =>
        let d ← getDirectory p
        setObject p (.directory { d with directories := d.directories ++ [x] })
        objectAddRef x
        pure (some x)
  else pure none

def fileCreate (parent : Option Nat) (name : Option Bytes) : Kernel (Option Nat) := do
  if ← allocNamed name then
    let x ← objectInit (.file { parent := parent, name := name })
    match parent with
    | none => pure (some x)
    | some p =>
        let d ← getDirectory p
        setObject p (.directory { d with files := d.files ++ [x] })
        objectAddRef x
        pure (some x)
  else pure none

/-- `LL_FOR_EACH` up to the first entry of that name which is not `current`. -/
def findName (current : Option Nat) (buf : Bytes) : List Nat → Kernel (Option Nat)
  | [] => pure none
  | x :: xs => do
      let name ← getName x
      if some x ≠ current ∧ stringIsEqual name buf then pure (some x) else findName current buf xs

/-- `__isValidFilename` -/
def isValidFilename (current : Nat) (parent : Option Nat) (buf : Bytes) : Kernel Bool := do
  if stringIsEqual (some DOT) buf ∨ stringIsEqual (some DOTDOT) buf then pure false
  else
    match parent with
    | none => pure true
    | some p =>
        let d ← getDirectory p
        match ← findName current buf d.files with
        | some _ => pure false
        | none =>
            match ← findName current buf d.directories with
            | some _ => pure false
            | none => pure true

/-- The common part of `__fileWrite` and `__directoryWrite`. The object is
stored with its new name by `setName`. -/
def rename (x : Nat) (parent : Option Nat) (setName : Option Bytes → Kernel Unit) (buf : Bytes) :
    Kernel Int := do
  let name := strip buf
  if name = [] then
    setName none
    pure 0
  else if ← isValidFilename x parent name then
    if ← heapAlloc then
      setName (some name)
      pure name.length
    else
      setName none
      pure 0
  else pure (-1)

/-- `__fileWrite` -/
def fileWrite (x : Nat) (buf : Bytes) : Kernel Int := do
  let f ← getFile x
  rename x f.parent (fun name => setObject x (.file { f with name := name })) buf

/-- `__directoryWrite` -/
def directoryWrite (x : Nat) (buf : Bytes) : Kernel Int := do
  let d ← getDirectory x
  rename x d.parent (fun name => setObject x (.directory { d with name := name })) buf

/-- `__objectWrite` on a file or directory. What is written to an openedFile has no
effect on the objects. -/
def objectWrite (x : Nat) (buf : Bytes) : Kernel Unit := do
  match ← getObject x with
  | .directory _ =>
      let _ ← directoryWrite x buf
      pure ()
  | .file _ =>
      let _ ← fileWrite x buf
      pure ()
  | _ => pure ()

def fileOpen (x : Nat) : Kernel (Option Nat) := do
  if ← heapAlloc then
    let h ← objectInit (.openedFile { file := x })
    objectAddRef x
    pure (some h)
  else pure none

def directoryOpen (x : Nat) : Kernel (Option Nat) := do
  if ← heapAlloc then
    let h ← objectInit (.openedDirectory { directory := x })
    objectAddRef x
    pure (some h)
  else pure none

/-- `obj.entry.next` of a file or directory, where `siblings` is the list it is
in unless it was taken out. -/
def entryNext (siblings : List Nat) (x : Nat) : Kernel (Option Nat) := do
  match ← getObject x with
  | .directory d => pure (if d.parent.isSome then successor siblings x else d.next)
  | .file f => pure (if f.parent.isSome then successor siblings x else f.next)
  | _ => throw .assertion

/-- The loop over the entries without a name. -/
def skipNameless (siblings : List Nat) : Nat → Option Nat → Kernel (Option Nat)
  | _, none => pure none
  | 0, some _ => throw .outOfFuel
  | fuel + 1, some x => do
      let name ← getName x
      if name.isSome then pure (some x)
      else
        let next ← entryNext siblings x
        skipNameless siblings fuel next

/-- What is copied to the buffer of a caller, with the zero byte behind it. -/
def output (name : Option Bytes) (length : Nat) : Bytes := (readName name ++ [0]).take length

/-- `__openedDirectoryRead` from the label `enumdir` on. -/
def enumerateDirectories (x : Nat) (h : OpenedDirectory) (length : Nat) (d : Option Nat) :
    Kernel (Option Bytes) := do
  let directory ← getDirectory h.directory
  let s ← get
  match ← skipNameless directory.directories s.fresh d with
  | none =>
      setObject x (.openedDirectory { h with pos := none })
      pure none
  | some y =>
      setObject x (.openedDirectory { h with pos := some y })
      let name ← getName y
      pure (some (output name length))

/-- `__openedDirectoryRead` for a cursor which is at a file or at the beginning. -/
def enumerateFiles (x : Nat) (h : OpenedDirectory) (length : Nat) (f : Option Nat) :
    Kernel (Option Bytes) := do
  let directory ← getDirectory h.directory
  let s ← get
  match ← skipNameless directory.files s.fresh f with
  | none => enumerateDirectories x h length directory.directories.head?
  | some y =>
      setObject x (.openedDirectory { h with pos := some y })
      let name ← getName y
      pure (some (output name length))

/-- `__openedDirectoryRead`. There is no result at the end of the directory. -/
def openedDirectoryRead (x length : Nat) : Kernel (Option Bytes) := do
  match ← getObject x with
  | .openedDirectory h =>
      let directory ← getDirectory h.directory
      match h.pos with
      | none => enumerateFiles x h length directory.files.head?
      | some y =>
          match ← getObject y with
          | .file _ =>
              let next ← entryNext directory.files y
              enumerateFiles x h length next
          | .directory _ =>
              let next ← entryNext directory.directories y
              enumerateDirectories x h length next
          | _ => throw .assertion
  | _ => throw .assertion

/-- The `length` bytes behind a component, which may reach beyond the path. -/
def behind (after : Nat → UInt8) (rest : Bytes) (length : Nat) : Bytes :=
  rest.take length ++ (List.range (length - rest.length)).map after

/-- The loop of `fileSystemSearchDirectory`. The memory behind the path holds
the bytes `after`. -/
def searchFrom (after : Nat → UInt8) (create : Bool) :
    Nat → Nat → Bytes → Kernel (Option Nat)
  | 0, _, _ => throw .outOfFuel
  | fuel + 1, directory, path =>
      if component path = [] then do
        objectAddRef directory
        pure (some directory)
      else if stringIsEqual (some DOT) (component path) ∨
          stringIsEqual (some DOTDOT) (component path) then do
        -- the path was already advanced when it is compared again
        let d ← getDirectory directory
        if stringIsEqual (some DOTDOT) (behind after (rest path) (component path).length) then
          searchFrom after create fuel (d.parent.getD directory) (rest path)
        else searchFrom after create fuel directory (rest path)
      else do
        let d ← getDirectory directory
        match ← findName none (component path) d.directories with
        | some e => searchFrom after create fuel e (rest path)
        | none =>
            if create then
              match ← findName none (component path) d.files with
              | some _ => pure none
              | none =>
                  match ← directoryCreate (some directory) (some (component path)) with
                  | none => pure none
                  | some e => searchFrom after create fuel e (rest path)
            else pure none

def fileSystemIsValidDirectory (obj : Option Nat) : Kernel (Option Nat) := do
  match obj with
  | none => pure none
  | some x =>
      match ← getObject x with
      | .openedDirectory h =>
          match h.pos with
          | none => pure none
          | some y =>
              match ← getObject y with
              | .directory _ => pure (some y)
              | _ => pure none
      | .directory _ => pure (some x)
      | _ => pure none

def fileSystemIsValidFile (obj : Option Nat) : Kernel (Option Nat) := do
  match obj with
  | none => pure none
  | some x =>
      match ← getObject x with
      | .openedDirectory h =>
          match h.pos with
          | none => pure none
          | some y =>
              match ← getObject y with
              | .file _ => pure (some y)
              | _ => pure none
      | .file _ => pure (some x)
      | _ => pure none

/-- A directory of NULL stands for the root. -/
def startAt (directory : Option Nat) : Kernel Nat := do
  let s ← get
  pure (directory.getD s.root)

def fileSystemSearchDirectory (directory : Option Nat) (path : Bytes) (after : Nat → UInt8)
    (create : Bool) : Kernel (Option Nat) := do
  let start ← startAt directory
  searchFrom after create (path.length + 1) start path

/-- The path up to its last slash. -/
def directoryPart (path : Bytes) : Bytes := path.rdropWhile (· ≠ SLASH)

/-- The path behind its last slash. -/
def filePart (path : Bytes) : Bytes := path.rtakeWhile (· ≠ SLASH)

/-- The part of `fileSystemSearchFile` behind the search for the directory `x`. -/
def searchFileIn (x : Nat) (name : Bytes) (create : Bool) : Kernel (Option Nat) := do
  if stringIsEqual (some DOT) name ∨ stringIsEqual (some DOTDOT) name then
    objectRelease x
    pure none
  else
    let d ← getDirectory x
    match ← findName none name d.files with
    | some f =>
        objectAddRef f
        objectRelease x
        pure (some f)
    | none =>
        if create then
          match ← findName none name d.directories with
          | some _ =>
              objectRelease x
              pure none
          | none =>
              let f ← fileCreate (some x) (some name)
              objectRelease x
              pure f
        else
          objectRelease x
          pure none

/-- The bytes behind the directory part of a path to a file. -/
def afterDirectory (path : Bytes) (after : Nat → UInt8) (i : Nat) : UInt8 :=
  (filePart path).getD i (after (i - (filePart path).length))

def fileSystemSearchFile (directory : Option Nat) (path : Bytes) (after : Nat → UInt8)
    (create : Bool) : Kernel (Option Nat) := do
  if filePart path = [] then pure none
  else
    match ← fileSystemSearchDirectory directory (directoryPart path) (afterDirectory path after)
        create with
    | none => pure none
    | some x => searchFileIn x (filePart path) create

/-- `fileSystemInit` without an archive. -/
def fileSystemInit (heap : Nat → Bool) : Store where
  objects := Function.update (fun _ => none) 0 (some (.directory { parent := none, name := none }))
  refcount := Function.update (fun _ => 0) 0 1
  fresh := 1
  root := 0
  heap := heap
  allocs := 1

end Ibnos.Filesystem
