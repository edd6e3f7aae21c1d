/-
  The directory of a cache, and the primitives that write to it: a file is
  written under a temporary name and renamed into place.

  Every call of the file system either is done, or raises, or sees the process
  die, and in the last two cases part of it may have taken effect.  What the
  calls of a run meet is a list of fates, one a call.
-/
import Mathlib
import ResumableBatch.Engine
import ResumableBatch.Lib.EState
import ResumableBatch.Lib.Json

namespace ResumableBatch

open Text Json

/-! ## The directory -/

/-- What stands under a name. -/
inductive Node where
  | file (bytes : ByteArray)
  /-- a file that cannot be read -/
  | unreadable
  | dir
  deriving DecidableEq

/-- `path.is_file()`. -/
def Node.isFile : Node → Bool
  | .file _ | .unreadable => true
  | .dir => false

/-- The children of the cache directory. -/
abbrev Disk := AList fun _ : Str => Node

/-! ## Exceptions -/

/-- An exception that escapes Python's own functions or injected code. -/
inductive Raised (E : Type) where
  | py (e : PyError)
  | other (e : E)
  deriving DecidableEq

/-- Where a payload hash was found that is not the expected one. -/
inductive HashSource where
  | manifest
  | payload
  deriving DecidableEq

/-- Everything a store can raise. -/
inductive Exc (F E : Type) where
  /-- `RuntimeError`: `AtomicManifestStore requires a HELD run()-scope lock ..` -/
  | lockNotHeld
  /-- `ValueError`: `store requires a non-empty fingerprint` -/
  | emptyFingerprint
  /-- `ValueError`: `unsafe content_key {key} ..` -/
  | unsafeKey (key : Str)
  /-- `ContentKeyCollisionError` -/
  | contentKeyCollision (source : HashSource) (key : Str) (stored : PyVal F) (expected : Str)
  /-- `RuntimeError`: `load() on uncommitted key {key}` -/
  | uncommitted (key : Str)
  /-- `RuntimeError`: `checkpoint {key} unreadable` -/
  | unreadable (key : Str)
  /-- `RuntimeError`: `checkpoint {key} failed identity validation (stale)` -/
  | stale (key : Str)
  | osError
  | raised (e : Raised E)
  deriving DecidableEq

/-- `isinstance(exc, Exception)`. -/
def Exc.isException {F E : Type} (isException : E → Bool) : Exc F E → Bool
  | .raised (.other e) => isException e
  | _ => true

/-- How a call of the store ends early. -/
inductive Halt (F E : Type) where
  | raised (exc : Exc F E)
  | died
  deriving DecidableEq

/-! ## Calls of the file system -/

/-- What takes effect of a call that is not done. -/
inductive Part where
  | nothing
  | all
  /-- a file that was being written is left like this -/
  | garbled (left : Option Node)

/-- What a call meets. -/
inductive Fate (F E : Type) where
  | done
  | raises (exc : Exc F E) (part : Part)
  | dies (part : Part)

/-- `self._entries[key]`. -/
abbrev Entry (F : Type) := Value F .members

abbrev Entries (F : Type) := AList fun _ : Str => Entry F

/-- A store: the directory, and the map `_entries`. -/
structure Store (F : Type) where
  disk : Disk
  entries : Entries F

/-- A store, and the fates of the calls to come. -/
structure Session (F E : Type) extends Store F where
  fates : List (Fate F E) := []

variable {F E : Type}

/-- Code that reads and writes the directory and the entries of a store. -/
abbrev Fs (F E : Type) := EStateM (Halt F E) (Session F E)

def Part.on (effect : Disk → Disk) (garble : Option Node → Disk → Disk) : Part → Disk → Disk
  | .nothing => id
  | .all => effect
  | .garbled left => garble left

/-- How code ends on a store, if its calls meet the given fates. -/
def Fs.run (code : Fs F E Unit) (s : Store F) (fates : List (Fate F E)) :
    Ended (Exc F E) × Store F :=
  match code ⟨s, fates⟩ with
  | .ok _ p => (.returned, p.toStore)
  | .error (.raised exc) p => (.raised exc, p.toStore)
  | .error .died p => (.died, p.toStore)

/-- A call with a given effect. -/
def syscall (effect : Disk → Disk) (garble : Option Node → Disk → Disk) : Fs F E Unit := do
  let p ← get
  match p.fates with
  | [] => set { p with disk := effect p.disk }
  | .done :: rest => set { p with disk := effect p.disk, fates := rest }
  | .raises exc part :: rest =>
    set { p with disk := part.on effect garble p.disk, fates := rest }
    throw (.raised exc)
  | .dies part :: rest =>
    set { p with disk := part.on effect garble p.disk, fates := rest }
    throw .died

/-- A call without effect on what can be read. -/
def quiet : Fs F E Unit := syscall id fun _ => id

/-- What is left under a name. -/
def leave (path : Str) : Option Node → Disk → Disk
  | none => (·.erase path)
  | some node => (·.insert path node)

/-- `open(path, "w")` and all writes to it. -/
def writeFile (path : Str) (bytes : ByteArray) : Fs F E Unit := do
  if (← get).disk.lookup path = some .dir then throw (.raised .osError)
  else syscall (·.insert path (.file bytes)) (leave path)

/-- `_fsync_file`. -/
def fsyncFile (path : Str) : Fs F E Unit := do
  match (← get).disk.lookup path with
  | some (.file _) => quiet
  | _ => throw (.raised .osError)

/-- `_fsync_dir`; on Windows it does nothing, like a call that is done. -/
def fsyncDir : Fs F E Unit := quiet

/-- `os.replace`. -/
def osReplace (src dst : Str) : Fs F E Unit := do
  let p ← get
  match p.disk.lookup src, p.disk.lookup dst with
  | none, _ | _, some .dir => throw (.raised .osError)
  | some node, _ => syscall (fun d => (d.erase src).insert dst node) fun _ => id

/-- `_atomic_replace_file`: fsync file, replace, fsync dir. -/
def atomicReplaceFile (tmp final : Str) : Fs F E Unit := do
  fsyncFile tmp
  osReplace tmp final
  fsyncDir

/-- `bytes.hex()`. -/
def hexText (bytes : List (Fin 256)) : Str :=
  bytes.flatMap fun b : Fin 256 => [hexDigit (b.val / 16), hexDigit (b.val % 16)]

/-- `_tmp_name`: the process id and four random bytes after the name. -/
def tmpName (final : Str) (pid : ℕ) (random : Fin 4 → Fin 256) : Str :=
  final ++ lit ".tmp." ++ natText pid ++ lit "." ++ hexText (List.ofFn random)

/-- `path.unlink()`. -/
def unlink (path : Str) : Fs F E Unit := do
  match (← get).disk.lookup path with
  | none | some .dir => throw (.raised .osError)
  | _ => syscall (·.erase path) fun _ => id

/-- `try: child.unlink()` / `except OSError: pass`. -/
def unlinkQuietly (path : Str) : Fs F E Unit :=
  tryCatch (unlink path) fun
    | .raised .osError => pure ()
    | halt => throw halt

end ResumableBatch
