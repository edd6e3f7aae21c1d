/-
  The store of JSON lines: what it promises the base (`jsonl_readsBack`), and when
  a result that was committed is found again.
-/
import ResumableBatch.Proof.Jsonl
import ResumableBatch.Proof.Published

namespace ResumableBatch

open Text Json

variable {F E : Type} {I : Interp F}

/-! ## The contract -/

/-- The strings of the metadata have an encoding. -/
theorem headerDoc_scalar {info : Meta} (h : (headerDoc (F := F) info).Strings Scalar) {f v : Str}
    (hf : info.lookup f = some v) : Scalar f ∧ Scalar v := by
  obtain ⟨-, hinner, -⟩ := h
  have hmem : ((.str f : Key F), (.str v : PyVal F)) ∈
      info.entries.map fun p => ((.str p.1 : Key F), (.str p.2 : PyVal F)) :=
    List.mem_map.2 ⟨⟨f, v⟩, AList.mem_lookup_iff.1 hf, rfl⟩
  exact (Value.strings_ofList _).1 hinner _ hmem

theorem allValid_ok {validator : PyVal F → Except E Bool} {records : List (PyVal F)} :
    allValid validator records = .ok true ↔ ∀ rec ∈ records, validator rec = .ok true := by
  induction records with
  | nil => simp [allValid]
  | cons rec records ih =>
    rw [List.forall_mem_cons, ← ih, allValid]
    cases h : validator rec with
    | error e => simp
    | ok b => cases b <;> simp

/-- In the document of the record the keys of every object, which `json.dumps` has
    sorted before it made strings of them, are sorted as strings too. -/
def SortedAsText (I : Interp F) (rec : PyVal F) : Prop :=
  ∃ t : Tree F .value, encode I rec = .ok t ∧ t.Sorted

theorem sortedAsText_iff {records : List (PyVal F)} {ts : List (Tree F .value)}
    (hts : List.Forall₂ (fun v (t : Tree F .value) => encode I v = .ok t) records ts) :
    (∀ rec ∈ records, SortedAsText I rec) ↔ ∀ t ∈ ts, t.Sorted := by
  constructor
  · intro h t ht
    obtain ⟨rec, hrec, hrt⟩ := hts.mem_right ht
    obtain ⟨t', ht', hs⟩ := h rec hrec
    rwa [Except.ok.inj (hrt.symm.trans ht')]
  · intro h rec hrec
    obtain ⟨t, ht, hrt⟩ := hts.mem_left hrec
    exact ⟨t, hrt, h t ht⟩

variable [DecidableEq F]

/-- **The store keeps the contract of the base.** -/
theorem jsonl_readsBack (I : Interp F) (recordValidator : Option (PyVal F → Except E Bool)) :
    (jsonlCodec I recordValidator).ReadsBack where
  apart := Codec.apart_jsonl rfl
  missing := rfl
  reads h := by
    obtain ⟨ts, info', -, hread, hlookup⟩ := readFile_written h
    exact ⟨_, info', hread, fun f v hf => (hlookup f).trans hf⟩
  scalar h f v hf := by
    obtain ⟨header, texts, hw⟩ := jsonlFileBytes_ok.1 h
    have hheader : Scalar header := by
      have hall : Scalar (unlines (header :: texts)) := encodeUtf8_isSome.1 ⟨_, hw.bytes⟩
      intro c hc
      exact hall c (List.mem_flatMap.2 ⟨header, List.mem_cons_self, List.mem_append_left _ hc⟩)
    obtain ⟨t, ht, rfl, -⟩ := dumps_ok I hw.header_text
    have hstrings := (scalar_render I t).1 hheader
    exact headerDoc_scalar ((encode_strings I (headerDoc_isJson _) ht).1 hstrings) hf
  extra h f _ := by
    cases h
    rfl

/-- A list of JSON values is read back, but for the order of the items of dictionaries. -/
theorem jsonl_stable {recordValidator : Option (PyVal F → Except E Bool)}
    {records : List (PyVal F)} (hjson : ∀ rec ∈ records, rec.IsJson)
    (hdepth : ∀ rec ∈ records, rec.depth ≤ I.innerDepth)
    (hvalid : ∀ info, (jsonlCodec I recordValidator).validateStructure
      (records.map Value.sortKeys) info = .ok true) :
    (jsonlCodec I recordValidator).Stable records (records.map Value.sortKeys) where
  reads h := by
    obtain ⟨info', hread, -⟩ := readFile_json hjson h
    exact ⟨info', hread, hvalid info'⟩
  canonical h := by
    refine (canonicalRecordBytes_within I.inner_within).2 ⟨canonicalRecordBytes_sortKeys hjson h, ?_⟩
    refine List.forall_mem_map.2 fun rec hrec => ?_
    rw [rec.depth_sortKeys]
    exact hdepth rec hrec
  count := List.length_map _

/-! ## Validated records -/

section
variable {M : Platform F} {validator : PyVal F → Except E Bool} {sha256 : ByteArray → List (Fin 256)}
  {isException : E → Bool} {fingerprint key payloadHash : Str} {records : List (PyVal F)}
  {draw : Draw F} {s s' : Store F} {fates : List (Fate F E)}

/-- **What was committed is found exactly if the validator accepts it as it is read
    back, and `_check` can encode it**: `commit` itself does not ask the validator,
    and encodes with one frame less on the stack. -/
theorem found_iff_valid (hjson : ∀ rec ∈ records, rec.IsJson)
    (h : (commit (jsonlSetup M (some validator) sha256 isException) fingerprint key payloadHash
      records draw).run s fates = (.returned, s')) :
    (has (jsonlSetup M (some validator) sha256 isException) fingerprint s' key payloadHash =
        .ok true ∧
      (∃ records', load (jsonlSetup M (some validator) sha256 isException) fingerprint s' key
        payloadHash = .ok records' ∧ List.Forall₂ Value.Same records records') ∧
      load (jsonlSetup M (some validator) sha256 isException).below fingerprint s' key payloadHash ≠
        .error (.stale key)) ↔
      ∀ rec ∈ records, validator rec.sortKeys = .ok true ∧ rec.depth ≤ M.interp.innerDepth := by
  have hC := jsonl_readsBack M.interp (some validator)
  obtain ⟨pub, bytes, hb, he, hd⟩ := commit_returned hC.apart h
  have hsame : List.Forall₂ Value.Same records (records.map Value.sortKeys) := by
    rw [List.forall₂_map_right_iff, List.forall₂_same]
    exact fun rec _ => rec.same_sortKeys
  constructor
  · rintro ⟨-, ⟨records', hload, -⟩, -⟩
    obtain ⟨info, entry, hit⟩ := load_ok.1 hload
    obtain ⟨info', hread, -⟩ := readFile_json hjson pub.file
    have hfile := hit.read
    rw [pub.found, hd] at hfile
    obtain ⟨rfl, -⟩ := Prod.mk.inj (Option.some.inj (Except.ok.inj (hread.symm.trans hfile)))
    obtain ⟨_, _, _, hbody⟩ := hit.checked.body
    obtain ⟨body, hencoded, -⟩ := digestOf_ok.1 hbody.digested
    have hdepth := ((canonicalRecordBytes_within M.interp.inner_within).1 hencoded).2
    have hvalid := List.forall_mem_map.1 (allValid_ok.1 hit.checked.valid)
    refine fun rec hrec => ⟨hvalid rec hrec, ?_⟩
    rw [← rec.depth_sortKeys]
    exact List.forall_mem_map.1 hdepth rec hrec
  · intro hall
    have hstable : (jsonlCodec M.interp (some validator)).Stable records
        (records.map Value.sortKeys) :=
      jsonl_stable hjson (fun rec hrec => (hall rec hrec).2)
        fun _ => allValid_ok.2 (List.forall_mem_map.2 fun rec hrec => (hall rec hrec).1)
    have hload := pub.load_published hC hstable hb he hd
    refine ⟨(has_true hC.missing).2 ⟨_, hload⟩, ⟨_, hload, hsame⟩, fun hstale => ?_⟩
    have hbelow := load_upTo (S := jsonlSetup M (some validator) sha256 isException)
      fingerprint s' key payloadHash
    rcases hbelow with hover | hsame
    · rw [hstale] at hover
      cases hover
    · rw [hstale, hload] at hsame
      cases hsame

theorem found_iff_valid_sample : ∃ s s' : Store Half,
    (openStore (plainSetup (some fun _ => .ok true)) (lit "f") true plainDraw).run ⟨∅, ∅⟩ [] =
      (.returned, s) ∧
    (commit (plainSetup (some fun _ => .ok true)) (lit "f") (lit "k") (lit "h") [.dict .empty]
      plainDraw).run s [] = (.returned, s') ∧
    has (plainSetup (some fun _ => .ok true)) (lit "f") s' (lit "k") (lit "h") = .ok true := by
  have hjson : ∀ rec ∈ [(.dict .empty : PyVal Half)], rec.IsJson := by
    simp [Value.IsJson, Value.toList]
  have hall : ∀ rec ∈ [(.dict .empty : PyVal Half)], (.ok true : Except Bool Bool) = .ok true ∧
      rec.depth ≤ plainPlatform.interp.innerDepth := by
    intro rec hrec
    rw [List.mem_singleton.1 hrec]
    exact ⟨rfl, by decide⟩
  obtain ⟨s, s', hopen, hcommit⟩ : ∃ s s' : Store Half,
      (openStore (plainSetup (some fun _ => .ok true)) (lit "f") true plainDraw).run ⟨∅, ∅⟩ [] =
        (.returned, s) ∧
      (commit (plainSetup (some fun _ => .ok true)) (lit "f") (lit "k") (lit "h") [.dict .empty]
        plainDraw).run s [] = (.returned, s') :=
    runs_returned (by decide +kernel)
  exact ⟨s, s', hopen, hcommit, ((found_iff_valid hjson hcommit).2 hall).1⟩

end

/-- A dictionary is committed to a new directory, and rejected when it is read. -/
theorem commit_takes_invalid : ∃ s s' : Store Half,
    (openStore (plainSetup (some fun _ => .ok false)) (lit "f") true plainDraw).run ⟨∅, ∅⟩ [] =
      (.returned, s) ∧
    (commit (plainSetup (some fun _ => .ok false)) (lit "f") (lit "k") (lit "h") [.dict .empty]
      plainDraw).run s [] = (.returned, s') ∧
    has (plainSetup (some fun _ => .ok false)) (lit "f") s' (lit "k") (lit "h") = .ok false :=
  runs_returned_then (by decide +kernel)

/-! ## The order of keys -/

/-- Records that are sorted are read back with the same bytes. -/
theorem jsonl_stable_sorted {recordValidator : Option (PyVal F → Except E Bool)}
    {records : List (PyVal F)} {ts : List (Tree F .value)}
    (hts : List.Forall₂ (fun v (t : Tree F .value) => encode I v = .ok t) records ts)
    (hs : ∀ t ∈ ts, t.Sorted) (hdepth : ∀ rec ∈ records, rec.depth ≤ I.innerDepth)
    (hvalid : ∀ info, (jsonlCodec I recordValidator).validateStructure (ts.map Tree.toValue) info =
      .ok true) :
    (jsonlCodec I recordValidator).Stable records (ts.map Tree.toValue) where
  reads h := by
    obtain ⟨ts', info', hts', hread, -⟩ := readFile_written h
    have hsame : ts' = ts := Relator.RightUnique.forall₂
      (fun _ _ _ ht ht' => Except.ok.inj (ht.symm.trans ht')) hts' hts
    exact ⟨info', hsame ▸ hread, hvalid info'⟩
  canonical h := (digest_checked hts h).2 ⟨hs, hdepth⟩
  count := (List.length_map _).trans hts.length_eq.symm

/-- **The digest survives the file exactly if the keys are sorted as text**, and a
    result is found after its commit exactly if `_check` can encode it as well. -/
theorem digest_survives_iff (M : Platform F) (records : List (PyVal F)) :
    (∀ info b, jsonlFileBytes (E := E) M.interp records info = .ok b → ∃ records' info',
      jsonlReadFile (E := E) M.interp (some (.file b)) = .ok (some (records', info')) ∧
      (canonicalRecordBytes (E := E) M.interp records' = canonicalRecordBytes M.interp records ↔
        ∀ rec ∈ records, SortedAsText M.interp rec) ∧
      (canonicalRecordBytes (E := E) M.interp.inner records' =
          canonicalRecordBytes M.interp records ↔
        (∀ rec ∈ records, SortedAsText M.interp rec) ∧
          ∀ rec ∈ records, rec.depth ≤ M.interp.innerDepth)) ∧
    ∀ (sha256 : ByteArray → List (Fin 256)) (isException : E → Bool)
    (fingerprint key payloadHash : Str)
      (draw : Draw F) (s s' : Store F) (fates : List (Fate F E)),
      (commit (jsonlSetup M none sha256 isException) fingerprint key payloadHash records draw).run
        s fates = (.returned, s') →
      ((∀ rec ∈ records, SortedAsText M.interp rec) →
        (∀ rec ∈ records, rec.depth ≤ M.interp.innerDepth) →
        has (jsonlSetup M none sha256 isException) fingerprint s' key payloadHash = .ok true) ∧
      (Function.Injective sha256 →
        has (jsonlSetup M none sha256 isException) fingerprint s' key payloadHash = .ok true →
        (∀ rec ∈ records, SortedAsText M.interp rec) ∧
          ∀ rec ∈ records, rec.depth ≤ M.interp.innerDepth) := by
  constructor
  · intro info b h
    obtain ⟨ts, info', hts, hread, -⟩ := readFile_written h
    obtain ⟨body, hbody⟩ : ∃ body, canonicalRecordBytes (E := E) M.interp records = .ok body := by
      rw [jsonlFileBytes_eq] at h
      obtain ⟨header, -, h⟩ := Except.bind_ok.1 h
      obtain ⟨body, hbody, -⟩ := Except.bind_ok.1 h
      exact ⟨body, hbody⟩
    refine ⟨_, info', hread, ?_⟩
    rw [sortedAsText_iff hts, hbody]
    exact ⟨digest_stable hts hbody, digest_checked hts hbody⟩
  · intro sha256 isException fingerprint key payloadHash draw s s' fates h
    have hC := jsonl_readsBack (E := E) M.interp none
    obtain ⟨pub, bytes, hb, he, hd⟩ := commit_returned hC.apart h
    obtain ⟨ts, info', hts, hread, -⟩ := readFile_written pub.file
    obtain ⟨body, hbody, hdigest, -⟩ := digestOf_ok.1 pub.prepared.digested
    rw [sortedAsText_iff hts]
    constructor
    · intro hs hdepth
      have hstable : (jsonlCodec (E := E) M.interp none).Stable records (ts.map Tree.toValue) :=
        jsonl_stable_sorted hts hs hdepth fun _ => rfl
      exact (has_true hC.missing).2 ⟨_, pub.load_published hC hstable hb he hd⟩
    · intro hinj hhas
      obtain ⟨records', hload⟩ := (has_true hC.missing).1 hhas
      obtain ⟨info, entry, hit⟩ := load_ok.1 hload
      obtain rfl := Option.some.inj (he.symm.trans hit.entry_at)
      have hfile := hit.read
      rw [pub.found, hd] at hfile
      obtain ⟨rfl, -⟩ := Prod.mk.inj (Option.some.inj (Except.ok.inj (hread.symm.trans hfile)))
      obtain ⟨digest, _, _, hchecked⟩ := hit.checked.body
      obtain ⟨body', hbody', hdigest', -⟩ := digestOf_ok.1 hchecked.digested
      -- the digest in the entry is that of what was committed, and of what was read
      have hsame : (.str pub.digest : PyVal F) = .str digest :=
        (pub.entry_digest hC).symm.trans hchecked.entry_digest
      rw [Value.str.injEq, hdigest, hdigest'] at hsame
      obtain rfl := hinj (hexText_inj hsame)
      exact (digest_checked hts hbody).1 hbody'

theorem digest_survives_iff_sample : ∃ s s' : Store Half,
    (openStore (plainSetup none) (lit "f") true plainDraw).run ⟨∅, ∅⟩ [] = (.returned, s) ∧
    (commit (plainSetup none) (lit "f") (lit "k") (lit "h")
      [.dict (.item (.int 1) .none (.item (.int 2) .none .empty))] plainDraw).run s [] =
        (.returned, s') ∧
    has (plainSetup none) (lit "f") s' (lit "k") (lit "h") = .ok true := by
  have hsorted : ∀ rec ∈ [(.dict (.item (.int 1) .none (.item (.int 2) .none .empty)) :
      PyVal Half)], SortedAsText Half.interp rec := by
    intro rec hrec
    rw [List.mem_singleton.1 hrec]
    exact ⟨.object (.member [49] .null (.member [50] .null .empty)), by decide +kernel,
      by decide, trivial, trivial, trivial⟩
  obtain ⟨s, s', hopen, hcommit⟩ : ∃ s s' : Store Half,
      (openStore (plainSetup none) (lit "f") true plainDraw).run ⟨∅, ∅⟩ [] = (.returned, s) ∧
      (commit (plainSetup none) (lit "f") (lit "k") (lit "h")
        [.dict (.item (.int 1) .none (.item (.int 2) .none .empty))] plainDraw).run s [] =
          (.returned, s') :=
    runs_returned (by decide +kernel)
  exact ⟨s, s', hopen, hcommit, ((digest_survives_iff _ _).2 _ _ _ _ _ _ _ _ _ hcommit).1 hsorted
    fun rec hrec => by rw [List.mem_singleton.1 hrec]; decide⟩

/-- The records `[{9: null, 10: null}]`: the keys are written as `9` and `10`, and
    after they are read the other way round. -/
theorem digest_of_numbers : ∃ s s' : Store Half,
    (openStore (plainSetup none) (lit "f") true plainDraw).run ⟨∅, ∅⟩ [] = (.returned, s) ∧
    (commit (plainSetup none) (lit "f") (lit "k") (lit "h")
      [.dict (.item (.int 9) .none (.item (.int 10) .none .empty))] plainDraw).run s [] =
        (.returned, s') ∧
    has (plainSetup none) (lit "f") s' (lit "k") (lit "h") = .ok false :=
  runs_returned_then (by decide +kernel)

end ResumableBatch
