/-
  `AtomicManifestStore`: identity, atomicity, the digest of the result and the
  binding of payload and manifest by a generation id.

  A `Store` is the directory and the map `_entries`, which is loaded once when
  the store is opened.  `Codec` is the contract of the subclasses, `Platform` the
  interpreter and the file system, and `Setup` what is fixed about a store besides
  its fingerprint; `manifestStore` is the store as the engine sees it.
-/
import ResumableBatch.Durability
import ResumableBatch.Lib.JsonDepth

namespace ResumableBatch

open Text Json

/-! ## Content keys -/

/-- `[A-Za-z0-9]` -/
def isAlnum (c : Code) : Bool :=
  65 ≤ c ∧ c ≤ 90 ∨ 97 ≤ c ∧ c ≤ 122 ∨ 48 ≤ c ∧ c ≤ 57

/-- `[A-Za-z0-9._-]` -/
def isKeyChar (c : Code) : Bool := isAlnum c ∨ c = 46 ∨ c = 95 ∨ c = 45

/-- `_SAFE_KEY.match(content_key)` -/
def matchesSafeKey : Str → Bool
  | [] => false
  | c :: rest => isAlnum c && rest.all isKeyChar

/-- `_is_safe_key`. -/
def isSafeKey (key : Str) : Bool :=
  key ≠ lit "." ∧ key ≠ lit ".." ∧ 47 ∉ key ∧ 92 ∉ key ∧ matchesSafeKey key

/-! ## The contract of subclasses -/

/-- The identity block embedded in a payload file. -/
abbrev Meta := AList fun _ : Str => Str

/-- `text.encode("utf-8")` -/
def utf8 {E : Type} (text : Str) : Except (Raised E) ByteArray :=
  match encodeUtf8 text with
  | some bytes => .ok bytes
  | none => .error (.py .unicodeEncodeError)

/-- Serialize and deserialize one result. -/
structure Codec (R E : Type) where
  /-- `SUFFIX` -/
  suffix : Str
  canonicalBytes : R → Except (Raised E) ByteArray
  /-- `_canonical_bytes` below `_check`, one frame further in than below `commit` -/
  checkedBytes : R → Except (Raised E) ByteArray
  recordCount : R → ℕ
  /-- the content of the file `_write_file` writes -/
  fileBytes : R → Meta → Except (Raised E) ByteArray
  /-- `_read_file` of what stands under the path -/
  readFile : Option Node → Except (Raised E) (Option (R × Meta))
  validateStructure : R → Meta → Except (Raised E) Bool
  validateCommit : R → Except (Raised E) Unit
  commitExtraMeta : R → Except (Raised E) Meta
  checked_upTo : ∀ r, Except.UpTo (.py .recursionError) (checkedBytes r) (canonicalBytes r)

/-- The hooks that read, called with less of the stack left. -/
structure Codec.Within {R E : Type} (D C : Codec R E) : Prop where
  suffix : D.suffix = C.suffix
  readFile : ∀ node, Except.UpTo (.py .recursionError) (D.readFile node) (C.readFile node)
  validateStructure : ∀ r info, Except.UpTo (.py .recursionError)
    (D.validateStructure r info) (C.validateStructure r info)
  checkedBytes : ∀ r, Except.UpTo (.py .recursionError) (D.checkedBytes r) (C.checkedBytes r)
  recordCount : D.recordCount = C.recordCount

theorem Codec.Within.refl {R E : Type} (C : Codec R E) : C.Within C where
  suffix := rfl
  readFile _ := .refl _ _
  validateStructure _ _ := .refl _ _
  checkedBytes _ := .refl _ _
  recordCount := rfl

def manifestPath : Str := lit manifestName

/-- The interpreter and the file system a store runs on. -/
structure Platform (F : Type) where
  interp : Interp F
  /-- the interpreter below `load_all` and `iter_results`, with less of the stack left -/
  nested : Interp F
  nested_within : nested.Within interp
  /-- `path.stat()` raises an `OSError` that does not say that nothing is there: the
      name is too long, or may not be looked up -/
  refuses : Str → Bool
  takes_manifest : refuses manifestPath = false

/-- What a store rests on. -/
structure Setup (F R E : Type) extends Platform F where
  codec : Codec R E
  /-- the codec below `load_all` and `iter_results` -/
  nestedCodec : Codec R E
  nestedCodec_within : nestedCodec.Within codec
  /-- `hashlib.sha256(body).digest()` -/
  sha256 : ByteArray → List (Fin 256)
  /-- `isinstance(exc, Exception)` for what injected code raises -/
  isException : E → Bool

/-- The store below `load_all` and `iter_results`. -/
def Setup.below {F R E : Type} (S : Setup F R E) : Setup F R E where
  interp := S.nested
  nested := S.nested
  nested_within := .refl S.nested
  refuses := S.refuses
  takes_manifest := S.takes_manifest
  codec := S.nestedCodec
  nestedCodec := S.nestedCodec
  nestedCodec_within := .refl S.nestedCodec
  sha256 := S.sha256
  isException := S.isException

instance neZero_byte : NeZero 256 := ⟨by decide⟩

/-- What the clock and the random sources answer while a store is opened or a
    result committed. -/
structure Draw (F : Type) where
  uuid : Fin 16 → Fin 256
  time : F
  pid : ℕ
  payloadRandom : Fin 4 → Fin 256
  manifestRandom : Fin 4 → Fin 256
  /-- what a serializer that raises has written under the temporary name -/
  left : Option Node

/-- `uuid.uuid4().hex`. -/
def Draw.generation {F : Type} (draw : Draw F) : Str := hexText (List.ofFn draw.uuid)

variable {F R E : Type}

/-- Run a hook. -/
def hook {α : Type} : Except (Raised E) α → Fs F E α
  | .ok a => pure a
  | .error e => throw (.raised (.raised e))

/-- `entry.get(field)`. -/
def Entry.field [DecidableEq F] (entry : Entry F) (field : Str) : PyVal F :=
  (Value.get (.str field) entry).getD .none

section
variable [DecidableEq F] (S : Setup F R E) (fingerprint : Str)

/-! ## The manifest -/

/-- `_entries_well_formed`. -/
def entriesWellFormed (entries : Value F .members) : Bool :=
  entries.toList.all fun
    | (.str key, .dict entry) => isSafeKey key &&
      [lit "payload_hash", lit "generation_id", lit "result_digest"].all fun f =>
        match Entry.field entry f with
        | .str _ => true
        | _ => false
    | _ => false

/-- `dict(raw["entries"])`. -/
def entriesOf (entries : Value F .members) : Entries F :=
  (entries.toList.filterMap fun
    | (.str key, .dict entry) => some (⟨key, entry⟩ : Sigma fun _ : Str => Entry F)
    | _ => none).toAList

/-- `value == number`. -/
def eqInt (v : PyVal F) (n : ℤ) : Bool :=
  match v with
  | .int m => m = n
  | .bool b => n = if b then 1 else 0
  | .float x => S.interp.floatEqInt x n
  | _ => false

/-- The entries of a manifest that is admitted. -/
def admitted (raw : PyVal F) : Option (Entries F) :=
  match raw with
  | .dict doc =>
    match Value.get (.str (lit "entries")) doc with
    | some (.dict entries) =>
      if Entry.field doc (lit "fingerprint") = .str fingerprint ∧
          eqInt S (Entry.field doc (lit "schema_version")) schemaVersion ∧
          entriesWellFormed entries then
        some (entriesOf entries)
      else none
    | _ => none
  | _ => none

/-- `json.loads(self._manifest_path.read_text())`; `none` where there is nothing
    to read or `OSError` or `ValueError` is caught. -/
def readManifest (node : Option Node) : Except (Raised E) (Option (PyVal F)) :=
  match node with
  | some (.file bytes) =>
    match decodeUtf8 bytes with
    | none => .ok none
    | some text =>
      match loads S.interp (universalNewlines text) with
      | .ok raw => .ok (some raw)
      | .error .recursionError => .error (.py .recursionError)
      | .error _ => .ok none
  | _ => .ok none

/-- `_wipe_tree`. -/
def wipeTree : Fs F E Unit := do
  (← get).disk.entries.forM fun child => do
    if child.2.isFile then unlinkQuietly child.1

/-- `child` matches `*.tmp.*`, where case counts as it does on POSIX. -/
def isTmp (name : Str) : Bool := lit ".tmp." <:+: name

/-- `_sweep_orphan_tmps`. -/
def sweepOrphanTmps : Fs F E Unit := do
  ((← get).disk.keys.filter isTmp).forM unlinkQuietly

/-- The document of a manifest. -/
def manifestDoc (entries : Entries F) : PyVal F :=
  .dict (.ofList [
    (.str (lit "schema_version"), .int schemaVersion),
    (.str (lit "fingerprint"), .str fingerprint),
    (.str (lit "entries"), .dict (.ofList (entries.entries.map fun p => (.str p.1, .dict p.2))))])

/-- The text of a manifest, as bytes. -/
def manifestBytes (entries : Entries F) : Except (Raised E) ByteArray := do
  match dumps S.interp true (manifestDoc fingerprint entries) with
  | .error e => .error (.py e)
  | .ok text =>
    match encodeUtf8 text with
    | none => .error (.py .unicodeEncodeError)
    | some bytes => .ok bytes

/-- `_write_manifest`. -/
def writeManifest (draw : Draw F) : Fs F E Unit := do
  let tmp := tmpName manifestPath draw.pid draw.manifestRandom
  let bytes ← hook (manifestBytes S fingerprint (← get).entries)
  writeFile tmp bytes
  atomicReplaceFile tmp manifestPath

/-- `_load_or_invalidate_manifest`. -/
def loadOrInvalidateManifest (draw : Draw F) : Fs F E Unit := do
  let raw ← hook (readManifest S ((← get).disk.lookup manifestPath))
  match raw.bind (admitted S fingerprint) with
  | some entries => modify fun p => { p with entries := entries }
  | none =>
    wipeTree
    modify fun p => { p with entries := ∅ }
    writeManifest S fingerprint draw

/-- `AtomicManifestStore(cache_dir, lock=lock, fingerprint=fingerprint)`; `held` is
    `lock.held`. -/
def openStore (held : Bool) (draw : Draw F) : Fs F E Unit := do
  if !held then throw (.raised .lockNotHeld)
  if fingerprint = [] then throw (.raised .emptyFingerprint)
  -- `self.cache_dir.mkdir(parents=True, exist_ok=True)`
  quiet
  modify fun p => { p with entries := ∅ }
  loadOrInvalidateManifest S fingerprint draw
  sweepOrphanTmps

/-! ## Verification -/

/-- `_path_for`. -/
def pathFor (key : Str) : Except (Exc F E) Str :=
  if isSafeKey key then .ok (key ++ S.codec.suffix) else .error (.unsafeKey key)

/-- `hashlib.sha256(body).hexdigest()`. -/
def hexdigest (body : ByteArray) : Str := hexText (S.sha256 body)

/-- `_digest_info`, with `_canonical_bytes` as it is called here. -/
def digestOf (canonicalBytes : R → Except (Raised E) ByteArray) (result : R) :
    Except (Raised E) (Str × ℕ × ℕ) := do
  let body ← canonicalBytes result
  return (hexdigest S body, body.size, S.codec.recordCount result)

/-- `_digest_info` below `commit`. -/
def digestInfo (result : R) : Except (Raised E) (Str × ℕ × ℕ) :=
  digestOf S S.codec.canonicalBytes result

/-- `_digest_info` below `_check`. -/
def checkedInfo (result : R) : Except (Raised E) (Str × ℕ × ℕ) :=
  digestOf S S.codec.checkedBytes result

/-- What `_check` returns. -/
inductive Status where
  | ok
  | miss
  deriving DecidableEq

/-- `str` of a length, which has few digits. -/
def lengthText (n : ℕ) : Str := intText n

/-- Python's `str`, in code that may raise. -/
def pyText (v : PyVal F) : Except (Raised E) Str :=
  match pyStr S.interp v with
  | .ok s => .ok s
  | .error e => .error (.py e)

/-- `meta.get(field)`, as a value. -/
def Meta.field (info : Meta) (field : Str) : PyVal F :=
  match info.lookup field with
  | some s => .str s
  | none => .none

/-- What is recomputed from a result agrees with its metadata and its entry. -/
def checkBody (result : R) (info : Meta) (entry : Entry F) : Except (Raised E) Status := do
  let (digest, byteLen, count) ← checkedInfo S result
  if info.lookup (lit "result_digest") ≠ some digest then return .miss
  if info.lookup (lit "byte_len") ≠ some (lengthText byteLen) then return .miss
  if info.lookup (lit "record_count") ≠ some (lengthText count) then return .miss
  if Meta.field info (lit "generation_id") ≠ entry.field (lit "generation_id") then return .miss
  if Meta.field info (lit "result_digest") ≠ entry.field (lit "result_digest") then return .miss
  if (← pyText S (entry.field (lit "byte_len"))) ≠ lengthText byteLen then return .miss
  if (← pyText S (entry.field (lit "record_count"))) ≠ lengthText count then return .miss
  return .ok

/-- `_check`. -/
def check (key expectedHash : Str) (result : R) (info : Meta) (entry : Entry F) :
    Except (Exc F E) Status :=
  match info.lookup (lit "payload_hash") with
  | none => .ok .miss
  | some storedHash =>
    if storedHash ≠ expectedHash then
      .error (.contentKeyCollision .payload key (.str storedHash) expectedHash)
    else if info.lookup (lit "content_key") ≠ some key then .ok .miss
    else if info.lookup (lit "fingerprint") ≠ some fingerprint then .ok .miss
    else if info.lookup (lit "schema_version") ≠ some (intText schemaVersion) then .ok .miss
    else match S.codec.validateStructure result info with
      | .error e => .error (.raised e)
      | .ok false => .ok .miss
      | .ok true => (checkBody S result info entry).mapError .raised

/-- What `open(path)` finds. -/
def Setup.found (S : Setup F R E) (disk : Disk) (path : Str) : Option Node :=
  if S.refuses path then none else disk.lookup path

/-- `_read_file(path)`. -/
def readPayload (node : Option Node) : Except (Exc F E) (Option (R × Meta)) :=
  (S.codec.readFile node).mapError .raised

/-- `entry.get("payload_hash") != expected_payload_hash` -/
def entryCollides (entry : Entry F) (expectedHash : Str) : Bool :=
  entry.field (lit "payload_hash") ≠ .str expectedHash

/-! ## The public interface -/

/-- `has`. -/
def has (s : Store F) (key expectedHash : Str) : Except (Exc F E) Bool :=
  match s.entries.lookup key with
  | none => .ok false
  | some entry => do
    if entryCollides entry expectedHash then
      throw (.contentKeyCollision .manifest key (entry.field (lit "payload_hash")) expectedHash)
    let path ← pathFor S key
    -- `exists` passes on what does not say that nothing is there
    if S.refuses path then throw .osError
    match s.disk.lookup path with
    | none => return false
    | some node =>
      match ← readPayload S (some node) with
      | none => return false
      | some (result, info) =>
        return (← check S fingerprint key expectedHash result info entry) = .ok

/-- `load`. -/
def load (s : Store F) (key expectedHash : Str) : Except (Exc F E) R :=
  match s.entries.lookup key with
  | none => .error (.uncommitted key)
  | some entry => do
    if entryCollides entry expectedHash then
      throw (.contentKeyCollision .manifest key (entry.field (lit "payload_hash")) expectedHash)
    let path ← pathFor S key
    match ← readPayload S (S.found s.disk path) with
    | none => throw (.unreadable key)
    | some (result, info) =>
      match ← check S fingerprint key expectedHash result info entry with
      | .ok => return result
      | .miss => throw (.stale key)

/-- The metadata `commit` embeds in a payload file, without extra fields. -/
def identityMeta (key payloadHash digest byteLen count generation : Str) : Meta :=
  [⟨lit "content_key", key⟩, ⟨lit "payload_hash", payloadHash⟩,
    ⟨lit "fingerprint", fingerprint⟩, ⟨lit "schema_version", intText schemaVersion⟩,
    ⟨lit "result_digest", digest⟩, ⟨lit "byte_len", byteLen⟩, ⟨lit "record_count", count⟩,
    (⟨lit "generation_id", generation⟩ : Sigma fun _ : Str => Str)].toAList

/-- The entry `commit` publishes, without extra fields. -/
def identityEntry (payloadHash digest : Str) (byteLen count : ℕ) (generation : Str) (time : F) :
    Entry F :=
  .ofList [(.str (lit "payload_hash"), .str payloadHash),
    (.str (lit "schema_version"), .int schemaVersion),
    (.str (lit "result_digest"), .str digest), (.str (lit "byte_len"), .int byteLen),
    (.str (lit "record_count"), .int count), (.str (lit "generation_id"), .str generation),
    (.str (lit "committed_at"), .float time)]

/-- `entry.update(extra)`. -/
def Entry.update (entry : Entry F) (extra : Meta) : Entry F :=
  extra.entries.foldl (fun e p => Value.set (.str p.1) (.str p.2) e) entry

/-- `_write_file(tmp, result, meta)`. -/
def writePayload (tmp : Str) (result : R) (info : Meta) (draw : Draw F) : Fs F E Unit := do
  if S.refuses tmp then throw (.raised .osError)
  match S.codec.fileBytes result info with
  | .ok bytes => writeFile tmp bytes
  | .error e =>
    modify fun p => { p with disk := leave tmp draw.left p.disk }
    throw (.raised (.raised e))

/-- `_atomic_replace_file(tmp, final)` of a payload. -/
def replacePayload (tmp final : Str) : Fs F E Unit := do
  if S.refuses final then
    fsyncFile tmp
    throw (.raised .osError)
  else atomicReplaceFile tmp final

/-- `except Exception:` takes this. -/
def Halt.isException (isException : E → Bool) : Halt F E → Bool
  | .raised exc => exc.isException isException
  | .died => false

/-- `self._entries[key] = prior`, or `self._entries.pop(key, None)`. -/
def restoreEntry (entries : Entries F) (key : Str) : Option (Entry F) → Entries F
  | some prior => entries.insert key prior
  | none => entries.erase key

/-- `commit`. -/
def commit (key payloadHash : Str) (result : R) (draw : Draw F) : Fs F E Unit := do
  hook (S.codec.validateCommit result)
  let (digest, byteLen, count) ← hook (digestInfo S result)
  let extra ← hook (S.codec.commitExtraMeta result)
  let info := extra ∪ identityMeta fingerprint key payloadHash digest (lengthText byteLen)
    (lengthText count) draw.generation
  let final ← match pathFor (F := F) S key with
    | .ok path => pure path
    | .error exc => throw (.raised exc)
  let tmp := tmpName final draw.pid draw.payloadRandom
  writePayload S tmp result info draw
  replacePayload S tmp final
  -- the manifest is the commit boundary, written last
  let entry := (identityEntry payloadHash digest byteLen count draw.generation draw.time).update extra
  let prior := (← get).entries.lookup key
  modify fun p => { p with entries := p.entries.insert key entry }
  tryCatch (writeManifest S fingerprint draw) fun halt => do
    if halt.isException S.isException then
      modify fun p => { p with entries := restoreEntry p.entries key prior }
    throw halt

/-- `cached_keys`. -/
def cachedKeys (s : Store F) : Finset Str := s.entries.keys.toFinset

/-- `uuid.uuid4()` returns an id that no entry has. -/
def Draw.Fresh (draw : Draw F) (s : Store F) : Prop :=
  ∀ key entry, s.entries.lookup key = some entry →
    entry.field (lit "generation_id") ≠ .str draw.generation

/-- The store as the engine sees it. -/
def manifestStore : ResultStore (Store F) Str Str R (Exc F E) where
  has := has S fingerprint
  -- called by `load_all` and `iter_results` only
  load := load S.below fingerprint
  commit s key payloadHash result ended s' := ∃ draw fates, draw.Fresh s ∧
    (commit S fingerprint key payloadHash result draw).run s fates = (ended, s')
  -- `shutil.rmtree(self.cache_dir, ignore_errors=True)`
  cleanup s := { s with disk := ∅ }

end

end ResumableBatch
