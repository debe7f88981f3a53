import CertsManager.Interleave.Pool
import CertsManager.Storage.KeyPath

/-!
# Filesystem — writing and removing an object, file-system step by file-system step

`PutObject`, `putIfMatch` and `RemoveObject` (storage/filesystem.go), for the calls one process
makes on one key.  A put writes a temporary file and publishes it under the key's path: by `link`
for a put that only creates (`IfNoneMatch: "*"`), by `rename` under the process-wide mutex for one
that only replaces a given version (`IfMatch`), and by a bare `rename` otherwise.  A removal takes
the mutex too.

A temporary file has a name of its own, so it is modelled by what it holds: the step that publishes
it carries the data and the modification time the copy was given.  Every step may fail, with a
reason the environment chooses and no effect; `link` and `rename` are one step each.
-/

namespace CertsManager
namespace Storage

open Interleave

/-! ## What the calls say -/

abbrev Bytes : Type := List UInt8

structure File where
  content : Bytes
  modTime : Nat
deriving DecidableEq, Repr

/-- The errors of package `os` the backend tells apart. -/
inductive OsError where
  | exist
  | notExist
  | other (reason : String)
deriving DecidableEq, Repr

def OsError.text : OsError → String
  | .exist => "file exists"
  | .notExist => "no such file or directory"
  | .other reason => reason

inductive StoreError where
  | pathTraversal
  | conditionalPut (key : String)
  | failed (text : String)
deriving DecidableEq, Repr

/-- The conditions of a put; both empty for a plain one. -/
structure PutOptions where
  ifNoneMatch : String
  ifMatch : String
deriving DecidableEq, Repr

inductive FileOp where
  | mkdirAll (dir : String)
  | createTemp (dir : String)
  | copy (data : Bytes)
  | sync
  | close
  | link (tmp : File)
  | lock
  | stat
  | rename (tmp : File)
  | unlock
  | remove
  | syncDir (dir : String)
  | removeTemp
deriving DecidableEq, Repr

/-- What each step is answered: the copy its modification time, `stat` the object's. -/
def FileRes : FileOp → Type
  | .copy _ | .stat => Except OsError Nat
  | .lock | .unlock => Unit
  | _ => Except OsError Unit

abbrev FileProg : Type → Type :=
  Prog FileOp FileRes

namespace Os

abbrev call (o : FileOp) : FileProg (FileRes o) :=
  Prog.perform o

abbrev mkdirAll (dir : String) : FileProg (Except OsError Unit) :=
  call (.mkdirAll dir)

abbrev createTemp (dir : String) : FileProg (Except OsError Unit) :=
  call (.createTemp dir)

abbrev copy (data : Bytes) : FileProg (Except OsError Nat) :=
  call (.copy data)

abbrev sync : FileProg (Except OsError Unit) :=
  call .sync

abbrev close : FileProg (Except OsError Unit) :=
  call .close

abbrev link (tmp : File) : FileProg (Except OsError Unit) :=
  call (.link tmp)

abbrev lock : FileProg Unit :=
  call .lock

abbrev stat : FileProg (Except OsError Nat) :=
  call .stat

abbrev rename (tmp : File) : FileProg (Except OsError Unit) :=
  call (.rename tmp)

abbrev unlock : FileProg Unit :=
  call .unlock

abbrev remove : FileProg (Except OsError Unit) :=
  call .remove

abbrev syncDir (dir : String) : FileProg (Except OsError Unit) :=
  call (.syncDir dir)

abbrev removeTemp : FileProg (Except OsError Unit) :=
  call .removeTemp

end Os

/-! ## The calls -/

/-- `filepath.Dir`. -/
def dirOf (path : String) : String :=
  String.ofList (Lexical.clean (path.toList.reverse.dropWhile (· ≠ '/')).reverse)

/-- The parts of an ETag: the text of a modification time, and the hex digest. -/
structure Digest where
  timeString : Nat → String
  md5 : String → String

def generateETag (d : Digest) (key : String) (modTime : Nat) : String :=
  d.md5 (key ++ d.timeString modTime)

/-- Write the temporary file and close it; what it then holds. -/
def writeTemp (data : Bytes) : FileProg (Except StoreError File) := do
  match ← Os.copy data with
  | .error e => do
      let _ ← Os.close
      pure (.error (.failed ("failed to write data: " ++ e.text)))
  | .ok modTime => do
      match ← Os.sync with
      | .error e => do
          let _ ← Os.close
          pure (.error (.failed ("failed to fsync temp file: " ++ e.text)))
      | .ok () => do
          match ← Os.close with
          | .error e => pure (.error (.failed ("failed to close temp file: " ++ e.text)))
          | .ok () => pure (.ok ⟨data, modTime⟩)

/-- The compare and the rename of `putIfMatch`, between lock and unlock. -/
def compareAndRename (d : Digest) (key ifMatch : String) (tmp : File) :
    FileProg (Option StoreError) := do
  match ← Os.stat with
  | .error .notExist => pure (some (.conditionalPut key))
  | .error e => pure (some (.failed ("failed to stat file for conditional put: " ++ e.text)))
  | .ok modTime =>
      if generateETag d key modTime ≠ ifMatch then pure (some (.conditionalPut key))
      else do
        match ← Os.rename tmp with
        | .error e => pure (some (.failed ("failed to rename file: " ++ e.text)))
        | .ok () => pure none

def putIfMatch (d : Digest) (key ifMatch : String) (tmp : File) :
    FileProg (Option StoreError) := do
  Os.lock
  let err ← compareAndRename d key ifMatch tmp
  Os.unlock
  pure err

/-- Give the temporary file the object's name. -/
def publish (d : Digest) (key : String) (opts : PutOptions) (tmp : File) :
    FileProg (Option StoreError) :=
  if opts.ifNoneMatch = "*" then do
    match ← Os.link tmp with
    | .error .exist => pure (some (.conditionalPut key))
    | .error e => pure (some (.failed ("failed to link file: " ++ e.text)))
    | .ok () => pure none
  else if opts.ifMatch ≠ "" then putIfMatch d key opts.ifMatch tmp
  else do
    match ← Os.rename tmp with
    | .error e => pure (some (.failed ("failed to rename file: " ++ e.text)))
    | .ok () => pure none

/-- What `PutObject` does once it has a temporary file, up to its deferred removal. -/
def putTemp (d : Digest) (dir key : String) (data : Bytes) (opts : PutOptions) :
    FileProg (Option StoreError) := do
  match ← writeTemp data with
  | .error err => pure (some err)
  | .ok tmp => do
      match ← publish d key opts tmp with
      | some err => pure (some err)
      | none => do
          -- best effort: the object is there, a failure is only logged
          let _ ← Os.syncDir dir
          pure none

def FilesystemBackend.putObject (f : FilesystemBackend) (d : Digest) (key : String) (data : Bytes)
    (opts : PutOptions) : FileProg (Option StoreError) :=
  match f.getFullPath key with
  | none => pure (some .pathTraversal)
  | some fullPath => do
      let dir := dirOf fullPath
      match ← Os.mkdirAll dir with
      | .error e => pure (some (.failed ("failed to create directory " ++ dir ++ ": " ++ e.text)))
      | .ok () => do
          match ← Os.createTemp dir with
          | .error e => pure (some (.failed ("failed to create temp file: " ++ e.text)))
          | .ok () => do
              let err ← putTemp d dir key data opts
              let _ ← Os.removeTemp
              pure err

def FilesystemBackend.removeObject (f : FilesystemBackend) (key : String) :
    FileProg (Option StoreError) :=
  match f.getFullPath key with
  | none => pure (some .pathTraversal)
  | some _ => do
      Os.lock
      let err ← (do
        match ← Os.remove with
        | .error .notExist => pure none
        | .error e => pure (some (.failed ("failed to remove file: " ++ e.text)))
        | .ok () => pure none : FileProg (Option StoreError))
      Os.unlock
      pure err

/-! ## The file system and the process -/

/-- What the environment decides: a step is carried out (a copy at some time), or it fails. -/
inductive Ans where
  | go
  | time (modTime : Nat)
  | fail (reason : String)
deriving DecidableEq, Repr

/-- One step on the file the object is kept in. -/
def onFile (object : Option File) : (o : FileOp) → Ans → Option (FileRes o × Option File)
  | .copy _, .time modTime => some (.ok modTime, object)
  | .copy _, .fail reason => some (.error (.other reason), object)
  | .copy _, .go => none
  | .lock, .go | .unlock, .go => some ((), object)
  | .lock, _ | .unlock, _ => none
  | .stat, .go =>
      match object with
      | some file => some (.ok file.modTime, object)
      | none => some (.error .notExist, object)
  | .stat, .fail reason => some (.error (.other reason), object)
  | .stat, .time _ => none
  | .link tmp, .go =>
      match object with
      | some _ => some (.error .exist, object)
      | none => some (.ok (), some tmp)
  | .rename tmp, .go => some (.ok (), some tmp)
  | .remove, .go =>
      match object with
      | some _ => some (.ok (), none)
      | none => some (.error .notExist, none)
  | .mkdirAll _, .go | .createTemp _, .go | .sync, .go | .close, .go | .syncDir _, .go
  | .removeTemp, .go => some (.ok (), object)
  | .link _, .fail reason | .rename _, .fail reason | .remove, .fail reason
  | .mkdirAll _, .fail reason | .createTemp _, .fail reason | .sync, .fail reason
  | .close, .fail reason | .syncDir _, .fail reason | .removeTemp, .fail reason =>
      some (.error (.other reason), object)
  | _, .time _ => none

/-- The object and the holder of `fsCondPutMu`. -/
structure Disk (T : Type) where
  object : Option File
  mutex : Option T

/-- The mutex is taken when it is free; a thread that finds it taken waits. -/
def onMutex {T : Type} (mutex : Option T) (t : T) : FileOp → Option (Option T)
  | .lock => if mutex.isNone then some (some t) else none
  | .unlock => some none
  | _ => some mutex

def onDisk {T : Type} (s : Disk T) (t : T) (o : FileOp) (a : Ans) : Option (FileRes o × Disk T) :=
  match onMutex s.mutex t o with
  | none => none
  | some mutex =>
      match onFile s.object o a with
      | none => none
      | some (r, object) => some (r, ⟨object, mutex⟩)

inductive Req where
  | put (data : Bytes) (opts : PutOptions)
  | remove
deriving DecidableEq, Repr

def FilesystemBackend.serve (f : FilesystemBackend) (d : Digest) (key : String) :
    Req → FileProg (Option StoreError)
  | .put data opts => f.putObject d key data opts
  | .remove => f.removeObject key

/-- The process: any number of threads, each making calls on one key. -/
def FilesystemBackend.process (f : FilesystemBackend) (d : Digest) (key : String) (T : Type) :
    Machine FileOp FileRes (Disk T) T Req (Option StoreError) Ans where
  exec := onDisk
  body := f.serve d key

end Storage
end CertsManager
