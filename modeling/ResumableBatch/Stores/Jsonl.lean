/-
  `JsonlResultStore`: a result is a list of records, one JSON text a line; line
  0 is a header that carries the identity block.
-/
import ResumableBatch.Lib.JsonRoundTrip
import ResumableBatch.Stores.Base

namespace ResumableBatch

open Text Json

variable {F E : Type}

/-- `_META_KEY` -/
def metaKey : Str := lit "__resumable_batch_meta__"

section
variable (I : Interp F)

/-! ## Writing -/

/-- `b"".join(parts)` -/
def joinBytes (parts : List ByteArray) : ByteArray := parts.foldr (· ++ ·) .empty

/-- `json.dumps(v, sort_keys=True, separators=(",", ":"), ensure_ascii=False)` -/
def canonicalText (v : PyVal F) : Except (Raised E) Str := (dumps I false v).mapError .py

/-- `_canonical_record_bytes`. -/
def canonicalRecordBytes (records : List (PyVal F)) : Except (Raised E) ByteArray := do
  let parts ← records.mapM fun rec => do
    return (← utf8 (← canonicalText I rec)) ++ "\n".toByteArray
  return joinBytes parts

variable {I} in
theorem canonicalRecordBytes_upTo {J : Interp F} (h : J.Within I) (records : List (PyVal F)) :
    Except.UpTo (.py .recursionError) (canonicalRecordBytes (E := E) J records)
      (canonicalRecordBytes I records) :=
  .bind (.mapM fun rec => .bind (dumps_upTo h false rec).mapError fun _ => .refl _ _)
    fun _ => .refl _ _

/-- `{_META_KEY: meta}` -/
def headerDoc (info : Meta) : PyVal F :=
  .dict (.item (.str metaKey)
    (.dict (.ofList (info.entries.map fun p => (.str p.1, .str p.2)))) .empty)

/-- `fh.write(json.dumps(v, ..) + "\n")` -/
def lineBytes (v : PyVal F) : Except (Raised E) ByteArray := do
  utf8 ((← canonicalText I v) ++ [newline])

/-- `_write_file`. -/
def jsonlFileBytes (result : List (PyVal F)) (info : Meta) : Except (Raised E) ByteArray := do
  let header ← lineBytes I (headerDoc info)
  let lines ← result.mapM (lineBytes I)
  return header ++ joinBytes lines

/-! ## Reading -/

section
variable [DecidableEq F]

/-- `json.loads(text)`, with `ValueError` caught. -/
def loadsQuietly (text : Str) : Except (Raised E) (Option (PyVal F)) :=
  match loads I text with
  | .ok v => .ok (some v)
  | .error .valueError => .ok none
  | .error e => .error (.py e)

/-- `for raw in lines[1:]: ..` -/
def readRecords : List Str → Except (Raised E) (Option (List (PyVal F)))
  | [] => .ok (some [])
  | raw :: rest =>
    if raw = [] then readRecords rest
    else do
      match ← loadsQuietly I raw with
      | none => return none
      | some v =>
        match ← readRecords rest with
        | none => return none
        | some vs => return some (v :: vs)

/-- `{str(k): str(v) for k, v in meta.items()}`; the keys of a dictionary that
    was read are strings. -/
def metaOf (info : Value F .members) : Except (Raised E) Meta := do
  let items ← info.toList.mapM fun p => do
    return (⟨p.1.asStr, ← (pyStr I p.2).mapError .py⟩ : Sigma fun _ : Str => Str)
  return items.toAList

/-- `lines`, without the empty one after the last newline. -/
def dropTrailing (lines : List Str) : List Str :=
  if lines.getLast? = some [] then lines.dropLast else lines

/-- `_read_file`, once the file is decoded. -/
def readLines (lines : List Str) : Except (Raised E) (Option (List (PyVal F) × Meta)) :=
  match dropTrailing lines with
  | [] => .ok none
  | first :: rest => do
    match ← loadsQuietly I first with
    | some (.dict head) =>
      match Value.get (.str metaKey) head with
      | some (.dict info) =>
        match ← readRecords I rest with
        | none => return none
        | some records => return some (records, ← metaOf I info)
      | _ => return none
    | _ => return none

/-- `_read_file`. -/
def jsonlReadFile (node : Option Node) : Except (Raised E) (Option (List (PyVal F) × Meta)) :=
  match node with
  | some (.file bytes) =>
    match decodeUtf8 bytes with
    | none => .ok none
    | some text => readLines I ((universalNewlines text).splitOn newline)
  | _ => .ok none

/-! ## Less of the stack -/

section
variable {I} {J : Interp F} (h : J.Within I)
include h

theorem loadsQuietly_upTo (text : Str) :
    Except.UpTo (.py .recursionError) (loadsQuietly (E := E) J text) (loadsQuietly I text) := by
  unfold loadsQuietly
  rcases loads_upTo h text with hJ | hJ
  · rw [hJ]
    exact Or.inl rfl
  · rw [hJ]
    exact .refl _ _

theorem readRecords_upTo (lines : List Str) :
    Except.UpTo (.py .recursionError) (readRecords (E := E) J lines) (readRecords I lines) := by
  induction lines with
  | nil => exact .refl _ _
  | cons raw rest ih =>
    rw [readRecords, readRecords]
    split_ifs
    · exact ih
    · refine .bind (loadsQuietly_upTo h raw) fun v => ?_
      cases v with
      | none => exact .refl _ _
      | some v => exact .bind ih fun _ => .refl _ _

omit [DecidableEq F] in
theorem metaOf_upTo (info : Value F .members) :
    Except.UpTo (.py .recursionError) (metaOf (E := E) J info) (metaOf I info) :=
  .bind (.mapM fun p => .bind (pyStr_upTo h p.2).mapError fun _ => .refl _ _) fun _ => .refl _ _

theorem readLines_upTo (lines : List Str) :
    Except.UpTo (.py .recursionError) (readLines (E := E) J lines) (readLines I lines) := by
  unfold readLines
  cases dropTrailing lines with
  | nil => exact .refl _ _
  | cons first rest =>
    refine .bind (loadsQuietly_upTo h first) fun v => ?_
    split
    · split
      · refine .bind (readRecords_upTo h rest) fun records => ?_
        cases records with
        | none => exact .refl _ _
        | some records => exact .bind (metaOf_upTo h _) fun _ => .refl _ _
      · exact .refl _ _
    · exact .refl _ _

theorem jsonlReadFile_upTo (node : Option Node) :
    Except.UpTo (.py .recursionError) (jsonlReadFile (E := E) J node) (jsonlReadFile I node) := by
  unfold jsonlReadFile
  split
  · split
    · exact .refl _ _
    · exact readLines_upTo h _
  · exact .refl _ _

end

/-! ## The store -/

/-- `all(self.record_validator(r) for r in result)` -/
def allValid (validator : PyVal F → Except E Bool) : List (PyVal F) → Except (Raised E) Bool
  | [] => .ok true
  | r :: rest =>
    match validator r with
    | .error e => .error (.other e)
    | .ok false => .ok false
    | .ok true => allValid validator rest

/-- `JsonlResultStore(.., record_validator=recordValidator)`. -/
def jsonlCodec (recordValidator : Option (PyVal F → Except E Bool)) : Codec (List (PyVal F)) E where
  suffix := lit ".jsonl"
  canonicalBytes := canonicalRecordBytes I
  checkedBytes := canonicalRecordBytes I.inner
  recordCount := List.length
  fileBytes := jsonlFileBytes I
  readFile := jsonlReadFile I
  validateStructure result _ :=
    match recordValidator with
    | some validator => allValid validator result
    | none => .ok true
  -- the base's: accept
  validateCommit _ := .ok ()
  commitExtraMeta _ := .ok ∅
  checked_upTo := canonicalRecordBytes_upTo I.inner_within

theorem jsonlCodec_within {J I : Interp F} (h : J.Within I)
    (recordValidator : Option (PyVal F → Except E Bool)) :
    (jsonlCodec J recordValidator).Within (jsonlCodec I recordValidator) where
  suffix := rfl
  readFile := jsonlReadFile_upTo h
  validateStructure _ _ := .refl _ _
  checkedBytes := canonicalRecordBytes_upTo h.inner
  recordCount := rfl

end

end

/-- A `JsonlResultStore`. -/
def jsonlSetup [DecidableEq F] (M : Platform F) (recordValidator : Option (PyVal F → Except E Bool))
    (sha256 : ByteArray → List (Fin 256)) (isException : E → Bool) :
    Setup F (List (PyVal F)) E where
  toPlatform := M
  codec := jsonlCodec M.interp recordValidator
  nestedCodec := jsonlCodec M.nested recordValidator
  nestedCodec_within := jsonlCodec_within M.nested_within recordValidator
  sha256 := sha256
  isException := isException

/-- The small interpreter, with two more frames in use. -/
def Half.nested : Interp Half where
  __ := Half.interp
  encodeDepth := 985
  scanDepth := 988
  innerDepth := 984
  depth_le := by decide
  inner_le := by decide
  three_le := by decide

theorem half_nested_within : Half.nested.Within Half.interp :=
  { Interp.Within.refl Half.interp with
    encodeDepth := by decide
    innerDepth := by decide
    scanDepth := by decide }

/-- The small interpreter, and a file system with names of at most 255 bytes. -/
def plainPlatform : Platform Half where
  interp := Half.interp
  nested := Half.nested
  nested_within := half_nested_within
  refuses name := 255 < name.length
  takes_manifest := by decide

/-- A store of records over a small interpreter; the bytes are their own digest. -/
def plainSetup (recordValidator : Option (PyVal Half → Except Bool Bool)) :
    Setup Half (List (PyVal Half)) Bool :=
  jsonlSetup plainPlatform recordValidator (fun body => body.data.toList.map UInt8.toFin) id

/-- Some answers of the clock and the random sources. -/
def plainDraw : Draw Half where
  uuid _ := 7
  time := .half 3
  pid := 12
  payloadRandom _ := 1
  manifestRandom _ := 2
  left := none

end ResumableBatch
