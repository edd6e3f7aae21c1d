/-
  `ParquetResultStore`: a result is a data frame, kept in a Parquet file with the
  identity block and the fingerprint of its schema.  pandas and pyarrow are given
  (`Arrow`).
-/
import ResumableBatch.Stores.Base

namespace ResumableBatch

open Text

/-! ## The schema fingerprint -/

/-- What `_arrow_kind` asks of a type of pyarrow. -/
structure ArrowType where
  isInteger : Bool := false
  isFloating : Bool := false
  isBoolean : Bool := false
  isString : Bool := false
  isLargeString : Bool := false
  isTemporal : Bool := false
  /-- `str(arrow_type)` -/
  text : Str

/-- `_arrow_kind`. -/
def arrowKind (arrowType : ArrowType) : Str :=
  if arrowType.isInteger then lit "int"
  else if arrowType.isFloating then lit "float"
  else if arrowType.isBoolean then lit "bool"
  else if arrowType.isString ∨ arrowType.isLargeString then lit "str"
  else if arrowType.isTemporal then lit "temporal"
  else arrowType.text

/-- `:` -/
def colon : Code := 58

/-- `;` -/
def semicolon : Code := 59

/-- `_schema_fp_from_pairs`. -/
def schemaFpFromPairs (pairs : List (Str × Str)) : Str :=
  [semicolon].intercalate (pairs.map fun p => p.1 ++ colon :: p.2)

/-- `_table_schema_fp`. -/
def tableSchemaFp (schema : List (Str × ArrowType)) : Str :=
  schemaFpFromPairs (schema.map fun f => (f.1, arrowKind f.2))

/-- `_names_of_fp`. -/
def namesOfFp (fp : Str) : Finset Str :=
  (((fp.splitOn semicolon).filter (· ≠ [])).map fun seg => seg.takeWhile (· ≠ colon)).toFinset

/-! ## The store -/

/-- The metadata of a schema. -/
abbrev SchemaMeta := AList fun _ : ByteArray => ByteArray

/-- What the store takes from pandas and pyarrow. -/
structure Arrow (Frame Table E : Type) where
  /-- `pa.Table.from_pandas(frame, preserve_index=False)` -/
  fromPandas : Frame → Except E Table
  /-- `table.to_pandas()` -/
  toPandas : Table → Except E Frame
  /-- `frame.to_csv(index=False)` -/
  toCsv : Frame → Except E Str
  /-- `len(frame)` -/
  len : Frame → ℕ
  /-- `set(frame.columns)` -/
  columns : Frame → Finset Str
  /-- the names and types of `table.schema` -/
  schema : Table → List (Str × ArrowType)
  /-- `table.schema.metadata or {}` -/
  metadata : Table → SchemaMeta
  /-- `table.replace_schema_metadata(kv)` -/
  replaceSchemaMetadata : SchemaMeta → Table → Table
  /-- the content of the file `_write_parquet` leaves -/
  writeParquet : Table → Except E ByteArray
  /-- `pq.read_table(path)` -/
  readTable : Option Node → Except E Table

variable {Frame Table E : Type} (A : Arrow Frame Table E)

/-- `_table_for`. -/
def tableFor (result : Frame) : Except (Raised E) Table := (A.fromPandas result).mapError .other

/-- `_table_schema_fp(self._table_for(result).schema)`. -/
def frameSchemaFp (result : Frame) : Except (Raised E) Str := do
  return tableSchemaFp (A.schema (← tableFor A result))

/-- `_canonical_bytes`. -/
def canonicalFrameBytes (result : Frame) : Except (Raised E) ByteArray := do
  let normalized ← (A.toPandas (← tableFor A result)).mapError .other
  utf8 (← (A.toCsv normalized).mapError .other)

/-- `{k.encode(): v.encode() for k, v in meta.items()}`. -/
def encodeMeta (info : Meta) : Except (Raised E) SchemaMeta := do
  let items ← info.entries.mapM fun p => do
    return (⟨← utf8 p.1, ← utf8 p.2⟩ : Sigma fun _ : ByteArray => ByteArray)
  return items.toAList

/-- `_decode_meta`; `none` where `decode` raises. -/
def decodeMeta (kv : SchemaMeta) : Option Meta := do
  let items ← kv.entries.mapM fun p => do
    return (⟨← decodeUtf8 p.1, ← decodeUtf8 p.2⟩ : Sigma fun _ : Str => Str)
  return items.toAList

/-- `_read_file`; every `Exception` is caught. -/
def parquetReadFile (isException : E → Bool) (node : Option Node) :
    Except (Raised E) (Option (Frame × Meta)) :=
  match A.readTable node with
  | .error e => if isException e then .ok none else .error (.other e)
  | .ok table =>
    match decodeMeta (A.metadata table) with
    | none => .ok none
    | some info =>
      match A.toPandas table with
      | .error e => if isException e then .ok none else .error (.other e)
      | .ok frame => .ok (some (frame, info))

/-- `ParquetResultStore(.., expected_schema=expectedSchema)`, with the names that
    `_expected_name_set` makes of the schema. -/
def parquetCodec (isException : E → Bool) (expectedSchema : Option (Finset Str)) :
    Codec Frame E where
  suffix := lit ".parquet"
  canonicalBytes := canonicalFrameBytes A
  -- pandas and pyarrow do not recurse
  checkedBytes := canonicalFrameBytes A
  recordCount := A.len
  fileBytes result info := do
    let table ← tableFor A result
    let kv := (← encodeMeta info) ∪ A.metadata table
    (A.writeParquet (A.replaceSchemaMetadata kv table)).mapError .other
  readFile := parquetReadFile A isException
  validateStructure result info :=
    match info.lookup (lit "schema_fingerprint") with
    | none => .ok false
    | some storedFp => do
      let actualFp ← frameSchemaFp A result
      if actualFp ≠ storedFp then return false
      match expectedSchema with
      | some expected => return A.columns result = expected
      | none => return true
  validateCommit result :=
    match expectedSchema with
    | some expected => if A.columns result ≠ expected then .error (.py .valueError) else .ok ()
    | none => .ok ()
  commitExtraMeta result := do
    return ([⟨lit "schema_fingerprint", ← frameSchemaFp A result⟩] :
      List (Sigma fun _ : Str => Str)).toAList
  checked_upTo _ := .refl _ _

end ResumableBatch
