/-
  A payload file of JSON lines with any content.  What is read of it is checked
  before it is believed, but what the scanner, `str` and the encoder raise on it
  is not all caught (`corruption_contained_iff`).
-/
import ResumableBatch.Proof.Live

namespace ResumableBatch

open Text Json

variable {F E : Type} [DecidableEq F]

/-! ## What escapes -/

def Exc.isCollision : Exc F E → Bool
  | .contentKeyCollision .. => true
  | _ => false

/-- `has` answers or finds a collision, and `load` returns, misses or finds a collision. -/
structure Contained {R : Type} (S : Setup F R E) (fingerprint : Str) (s : Store F)
    (key hash : Str) : Prop where
  has : ∀ exc, has S fingerprint s key hash = .error exc → exc.isCollision
  load : ∀ exc, load S fingerprint s key hash = .error exc → exc.isMiss ∨ exc.isCollision

theorem contained_iff {R : Type} {S : Setup F R E} {fingerprint : Str} {s : Store F} {key hash : Str}
    (hmiss : S.codec.readFile none = .ok none) (htaken : S.refuses (S.path key) = false) :
    Contained S fingerprint s key hash ↔
      ∀ exc, load S fingerprint s key hash = .error exc → exc.isMiss ∨ exc.isCollision := by
  constructor
  · exact fun h => h.load
  · intro h
    refine ⟨fun exc hexc => ?_, h⟩
    rw [has_eq_load hmiss (not_refused htaken)] at hexc
    cases hload : ResumableBatch.load S fingerprint s key hash with
    | ok r =>
      rw [hload] at hexc
      cases hexc
    | error exc' =>
      rw [hload] at hexc
      simp only at hexc
      split_ifs at hexc with hm
      cases hexc
      exact (h _ hload).resolve_left hm

/-- The entry of a key that was committed with a payload hash. -/
structure CommittedEntry {R : Type} (S : Setup F R E) (key hash : Str) (entry : Entry F) :
    Prop where
  safe : isSafeKey key
  taken : S.refuses (S.path key) = false
  payload_hash : entry.field (lit "payload_hash") = .str hash
  byte_len : ∃ n : ℕ, entry.field (lit "byte_len") = .int n ∧
    (natText n).length ≤ S.interp.maxDigits
  record_count : ∃ n : ℕ, entry.field (lit "record_count") = .int n ∧
    (natText n).length ≤ S.interp.maxDigits

theorem CommittedEntry.same {R : Type} {S : Setup F R E} {key hash : Str} {entry entry' : Entry F}
    (h : CommittedEntry S key hash entry) (hsame : entry.Same entry') :
    CommittedEntry S key hash entry' := by
  obtain ⟨n, hn, hlen⟩ := h.byte_len
  obtain ⟨m, hm, hcount⟩ := h.record_count
  exact ⟨h.safe, h.taken, (hsame _ (.str hash) trivial).2 h.payload_hash,
    ⟨n, (hsame _ (.int n) trivial).2 hn, hlen⟩, ⟨m, (hsame _ (.int m) trivial).2 hm, hcount⟩⟩

/-- **The entry of a commit that returned**, in the instance and when the directory is
    opened again. -/
theorem committedEntry_of_commit {R : Type} {S : Setup F R E} (hC : S.codec.ReadsBack)
    {fingerprint key hash : Str} {left : Set Str} {s s' : Store F} {result : R} {draw : Draw F}
    {fates : List (Fate F E)} (hs : Instance S fingerprint left s)
    (h : (commit S fingerprint key hash result draw).run s fates = (.returned, s')) :
    (∃ entry, s'.entries.lookup key = some entry ∧ CommittedEntry S key hash entry) ∧
    ∃ D entry, readEntries S fingerprint (s'.disk.lookup manifestPath) = some D ∧
      D.lookup key = some entry ∧ CommittedEntry S key hash entry := by
  obtain ⟨pub, b, hb, he, hd⟩ := commit_published h
  obtain ⟨hfp, hentry⟩ := pub.entryOk hC
  have hcommitted : CommittedEntry S key hash pub.entry :=
    ⟨pub.prepared.safe, pub.taken, pub.entry_hash hC,
      ⟨_, pub.entry_len hC, pub.digits hb (pub.entry_len hC)⟩,
      ⟨_, pub.entry_count hC, pub.digits hb (pub.entry_count hC)⟩⟩
  refine ⟨⟨pub.entry, by rw [he, AList.lookup_insert], hcommitted⟩, ?_⟩
  obtain ⟨D, hD, hlookup⟩ := readEntries_written hfp ((hs.entriesOk hC).insert hentry) hb
  refine ⟨D, pub.entry.sorted, ?_, ?_, hcommitted.same (same_sorted hentry.json)⟩
  · rw [hd _ (ne_payloadTmp isTmp_manifest) (ne_manifestTmp isTmp_manifest), if_pos rfl, hD]
  · rw [hlookup, AList.lookup_insert]
    rfl

/-! ## The lines of a payload file -/

/-- The lines that are read; a file that is missing or cannot be decoded has none. -/
def payloadLines (node : Option Node) : List Str :=
  match node with
  | some (.file bytes) =>
    match decodeUtf8 bytes with
    | none => []
    | some text => dropTrailing ((universalNewlines text).splitOn newline)
  | _ => []

/-- The records of some lines; empty lines have none. -/
inductive Records (I : Interp F) : List Str → List (PyVal F) → Prop where
  | nil : Records I [] []
  | blank {rest : List Str} {vs : List (PyVal F)} : Records I rest vs → Records I ([] :: rest) vs
  | line {raw : Str} {rest : List Str} {v : PyVal F} {vs : List (PyVal F)} : raw ≠ [] →
      loads I raw = .ok v → Records I rest vs → Records I (raw :: rest) (v :: vs)

/-- The scanner gives up on a line, after lines that it reads. -/
def TooDeep (I : Interp F) (lines : List Str) : Prop :=
  ∃ before raw after vs, lines = before ++ raw :: after ∧ Records I before vs ∧
    loads I raw = .error .recursionError

/-- The first line is a header with the given identity block. -/
def Header (I : Interp F) (first : Str) (info : Value F .members) : Prop :=
  ∃ head, loads I first = .ok (.dict head) ∧ Value.get (.str metaKey) head = some (.dict info)

/-- The identity block is that of a checkpoint. -/
structure Identified (fingerprint key hash : Str) (info : Meta) : Prop where
  payload_hash : info.lookup (lit "payload_hash") = some hash
  content_key : info.lookup (lit "content_key") = some key
  fingerprint : info.lookup (lit "fingerprint") = some fingerprint
  schema_version : info.lookup (lit "schema_version") = some (intText schemaVersion)

/-- A value that was read can be written, below `_check`. -/
def Writable (I : Interp F) (v : PyVal F) : Prop := v.Strings Scalar ∧ v.depth ≤ I.innerDepth

/-- The contents of a payload file that raise. -/
inductive Escapes (E : Type) (I : Interp F) (fingerprint key hash : Str) : List Str → Prop where
  | header {first : Str} {rest : List Str} : loads I first = .error .recursionError →
      Escapes E I fingerprint key hash (first :: rest)
  | record {first : Str} {rest : List Str} {info : Value F .members} : Header I first info →
      TooDeep I rest → Escapes E I fingerprint key hash (first :: rest)
  | metadata {first : Str} {rest : List Str} {info : Value F .members} {vs : List (PyVal F)} :
      Header I first info → Records I rest vs →
      (∃ p ∈ info.toList, pyStr I p.2 = .error .recursionError) →
      Escapes E I fingerprint key hash (first :: rest)
  | result {first : Str} {rest : List Str} {info : Value F .members} {vs : List (PyVal F)}
      {m : Meta} : Header I first info → Records I rest vs → metaOf (E := E) I info = .ok m →
      Identified fingerprint key hash m → (∃ v ∈ vs, ¬ Writable I v) →
      Escapes E I fingerprint key hash (first :: rest)

/-! ## Reading -/

variable {I : Interp F}

theorem loads_error {s : Str} {e : PyError} (h : loads I s = .error e) :
    e = .valueError ∨ e = .recursionError := by
  rcases Except.bind_error.1 h with h | ⟨t, -, h⟩
  · exact parse_error I h
  · cases h

/-- The three ways in which `json.loads` ends where `ValueError` is caught. -/
theorem loadsQuietly_cases (s : Str) :
    (∃ v, loads I s = .ok v ∧ loadsQuietly (E := E) I s = .ok (some v)) ∨
    (loads I s = .error .valueError ∧ loadsQuietly (E := E) I s = .ok none) ∨
    (loads I s = .error .recursionError ∧
      loadsQuietly (E := E) I s = .error (.py .recursionError)) := by
  unfold loadsQuietly
  cases h : loads I s with
  | ok v => exact Or.inl ⟨v, rfl, rfl⟩
  | error e =>
    rcases loads_error h with rfl | rfl
    · exact Or.inr (Or.inl ⟨rfl, rfl⟩)
    · exact Or.inr (Or.inr ⟨rfl, rfl⟩)

theorem loads_nil : loads I [] = .error .valueError := by
  rw [loads, parse, if_neg (by simp), show skipWs [] = [] from rfl, scanValue]
  rfl

theorem records_blank {rest : List Str} {vs : List (PyVal F)} :
    Records I ([] :: rest) vs ↔ Records I rest vs := by
  refine ⟨fun h => ?_, .blank⟩
  cases h with
  | blank h => exact h
  | line hne => exact absurd rfl hne

theorem records_line {raw : Str} {rest : List Str} {vs : List (PyVal F)} (hne : raw ≠ []) :
    Records I (raw :: rest) vs ↔
      ∃ v vs', vs = v :: vs' ∧ loads I raw = .ok v ∧ Records I rest vs' := by
  constructor
  · intro h
    cases h with
    | blank => exact absurd rfl hne
    | line _ hv h => exact ⟨_, _, rfl, hv, h⟩
  · rintro ⟨v, vs', rfl, hv, h⟩
    exact .line hne hv h

theorem Records.unique {lines : List Str} {vs vs' : List (PyVal F)} (h : Records I lines vs)
    (h' : Records I lines vs') : vs = vs' := by
  induction h generalizing vs' with
  | nil => cases h'; rfl
  | blank _ ih => exact ih (records_blank.1 h')
  | line hne hv _ ih =>
    obtain ⟨v', vs'', rfl, hv', h'⟩ := (records_line hne).1 h'
    rw [Except.ok.inj (hv.symm.trans hv'), ih h']

theorem Records.loaded {lines : List Str} {vs : List (PyVal F)} (h : Records I lines vs) :
    ∀ v ∈ vs, ∃ s, loads I s = .ok v := by
  induction h with
  | nil => exact nofun
  | blank _ ih => exact ih
  | line _ hv _ ih => exact List.forall_mem_cons.2 ⟨⟨_, hv⟩, ih⟩

/-- A line that is read, or is empty, is passed on the way to one that is not. -/
theorem tooDeep_cons {raw : Str} {rest : List Str} :
    TooDeep I (raw :: rest) ↔ loads I raw = .error .recursionError ∨
      ((raw = [] ∨ ∃ v, loads I raw = .ok v) ∧ TooDeep I rest) := by
  constructor
  · rintro ⟨before, raw', after, vs, hlines, hbefore, hdeep⟩
    cases before with
    | nil =>
      obtain ⟨rfl, -⟩ := List.cons.inj hlines
      exact Or.inl hdeep
    | cons first before =>
      obtain ⟨rfl, rfl⟩ := List.cons.inj hlines
      cases hbefore with
      | blank hbefore => exact Or.inr ⟨Or.inl rfl, before, raw', after, _, rfl, hbefore, hdeep⟩
      | line hne hv hbefore =>
        exact Or.inr ⟨Or.inr ⟨_, hv⟩, before, raw', after, _, rfl, hbefore, hdeep⟩
  · rintro (hdeep | ⟨hraw, before, raw', after, vs, rfl, hbefore, hdeep⟩)
    · exact ⟨[], raw, rest, [], rfl, .nil, hdeep⟩
    · by_cases hne : raw = []
      · subst hne
        exact ⟨[] :: before, raw', after, vs, rfl, .blank hbefore, hdeep⟩
      · obtain ⟨v, hv⟩ := hraw.resolve_left hne
        exact ⟨raw :: before, raw', after, v :: vs, rfl, .line hne hv hbefore, hdeep⟩

theorem tooDeep_blank {rest : List Str} : TooDeep I ([] :: rest) ↔ TooDeep I rest := by
  rw [tooDeep_cons, loads_nil]
  simp

theorem not_tooDeep_nil : ¬ TooDeep I [] := by
  rintro ⟨before, raw, after, vs, h, -⟩
  simp at h

/-- **The lines after the header**: they are read, or there is one that is no JSON, or
    one that is too deep. -/
theorem readRecords_cases (lines : List Str) :
    (∃ vs, Records I lines vs ∧ ¬ TooDeep I lines ∧
      readRecords (E := E) I lines = .ok (some vs)) ∨
    ((∀ vs, ¬ Records I lines vs) ∧ ¬ TooDeep I lines ∧
      readRecords (E := E) I lines = .ok none) ∨
    ((∀ vs, ¬ Records I lines vs) ∧ TooDeep I lines ∧
      readRecords (E := E) I lines = .error (.py .recursionError)) := by
  induction lines with
  | nil => exact Or.inl ⟨[], .nil, not_tooDeep_nil, rfl⟩
  | cons raw rest ih =>
    by_cases hne : raw = []
    · subst hne
      simp only [records_blank, tooDeep_blank, readRecords, if_true]
      exact ih
    simp only [records_line hne, tooDeep_cons, hne, false_or, readRecords, if_false]
    rcases loadsQuietly_cases (I := I) (E := E) raw with ⟨v, hv, hq⟩ | ⟨hv, hq⟩ | ⟨hv, hq⟩
    · simp only [hv, hq, bind, Except.bind]
      -- the line is read, and the others decide
      rcases ih with ⟨vs, hvs, hnot, hread⟩ | ⟨hvs, hnot, hread⟩ | ⟨hvs, hdeep, hread⟩
      · refine Or.inl ⟨v :: vs, ⟨v, vs, rfl, rfl, hvs⟩, ?_, by rw [hread]; rfl⟩
        simp [hnot]
      · refine Or.inr (Or.inl ⟨?_, ?_, by rw [hread]; rfl⟩)
        · rintro _ ⟨_, vs, -, -, h⟩
          exact hvs vs h
        · simp [hnot]
      · refine Or.inr (Or.inr ⟨?_, Or.inr ⟨⟨v, rfl⟩, hdeep⟩, by rw [hread]⟩)
        rintro _ ⟨_, vs, -, -, h⟩
        exact hvs vs h
    · refine Or.inr (Or.inl ⟨?_, ?_, by rw [hq]; rfl⟩)
      · rintro _ ⟨v, _, -, hv', -⟩
        rw [hv] at hv'
        cases hv'
      · simp [hv]
    · refine Or.inr (Or.inr ⟨?_, Or.inl hv, by rw [hq]; rfl⟩)
      rintro _ ⟨v, _, -, hv', -⟩
      rw [hv] at hv'
      cases hv'

/-! ## The identity block -/

theorem header_unique {first : Str} {info info' : Value F .members} (h : Header I first info)
    (h' : Header I first info') : info = info' := by
  obtain ⟨head, hhead, hinfo⟩ := h
  obtain ⟨head', hhead', hinfo'⟩ := h'
  obtain rfl : head = head' := by
    have := hhead.symm.trans hhead'
    rwa [Except.ok.injEq, Value.dict.injEq] at this
  have := hinfo.symm.trans hinfo'
  rwa [Option.some.injEq, Value.dict.injEq] at this

/-- `str` of what stands in an identity block only overflows the stack. -/
theorem Header.str_error {first : Str} {info : Value F .members} (h : Header I first info)
    {p : Key F × PyVal F} (hp : p ∈ info.toList) {e : PyError} (he : pyStr I p.2 = .error e) :
    e = .recursionError := by
  obtain ⟨head, hhead, hinfo⟩ := h
  obtain ⟨t, ht, htv⟩ := Except.bind_ok.1 hhead
  obtain ⟨t', ht'⟩ := encode_toValue_ok I (parse_ok I ht false nofun).1
  rw [Except.ok.inj htv] at ht'
  obtain ⟨u, hu⟩ := encode_get I ht' hinfo
  obtain ⟨ps, -, hps, -⟩ := encode_dict.1 hu
  obtain ⟨y, hy⟩ := (encode_members_ok I info).1 ⟨ps, hps⟩ p hp
  have hinside : ∀ {c : Code} {v : PyVal F}, (do .ok (c :: (← I.strInside v)) :
      Except PyError Str) = .error e → e = .recursionError := by
    intro c v h
    rcases Except.bind_error.1 h with h | ⟨s, -, h⟩
    · exact I.strInside_error _ _ h
    · cases h
  cases hv : p.2 with
  | int n =>
    rw [hv] at he hy
    rw [pyStr, intRepr, if_neg (not_lt.2 (encode_int.1 hy).1)] at he
    cases he
  | bool b =>
    rw [hv] at he
    cases b <;> cases he
  | list xs | tuple xs | dict xs =>
    rw [hv] at he
    exact hinside he
  | none | float x | str s =>
    rw [hv] at he
    cases he

/-- The identity block has no value that `str` overflows on, or there is no metadata. -/
theorem metaOf_cases {first : Str} {info : Value F .members} (h : Header I first info) :
    ((∃ p ∈ info.toList, pyStr I p.2 = .error .recursionError) ∧
      metaOf (E := E) I info = .error (.py .recursionError)) ∨
    ((¬ ∃ p ∈ info.toList, pyStr I p.2 = .error .recursionError) ∧
      ∃ m, metaOf (E := E) I info = .ok m) := by
  have hitem : ∀ p : Key F × PyVal F, ∀ e : Raised E,
      ((do return ⟨p.1.asStr, ← (pyStr I p.2).mapError Raised.py⟩ :
        Except (Raised E) (Sigma fun _ : Str => Str)) = .error e ↔
        ∃ e', pyStr I p.2 = .error e' ∧ e = .py e') := by
    intro p e
    cases pyStr I p.2 with
    | error e' =>
      simp only [Except.mapError, bind, Except.bind, Except.error.injEq, exists_eq_left']
      exact eq_comm
    | ok s => simp [Except.mapError, bind, Except.bind, pure, Except.pure]
  unfold metaOf
  cases hm : info.toList.mapM fun p => (do
    return (⟨p.1.asStr, ← (pyStr I p.2).mapError Raised.py⟩ : Sigma fun _ : Str => Str) :
      Except (Raised E) _) with
  | error e =>
    obtain ⟨p, hp, he⟩ := Except.mapM_eq_error hm
    obtain ⟨e', he', rfl⟩ := (hitem p e).1 he
    obtain rfl := h.str_error hp he'
    exact Or.inl ⟨⟨p, hp, he'⟩, rfl⟩
  | ok items =>
    refine Or.inr ⟨?_, _, rfl⟩
    rintro ⟨p, hp, he⟩
    obtain ⟨q, -, hq⟩ := (Except.mapM_eq_ok.1 hm).mem_left hp
    rw [(hitem p _).2 ⟨_, he, rfl⟩] at hq
    cases hq

/-! ## Records that are written again -/

/-- **A value that was read is encoded exactly if it is `Writable`.** -/
theorem lineBytes_loaded {s : Str} {v : PyVal F} (h : loads I s = .ok v) :
    (∃ b, lineBytes (E := E) I.inner v = .ok b) ↔ Writable I v := by
  obtain ⟨tree, htree, htv⟩ := Except.bind_ok.1 h
  obtain ⟨t, ht⟩ : ∃ t : Tree F .value, encode I v = .ok t := by
    obtain ⟨t, ht⟩ := encode_toValue_ok I (parse_ok I htree false nofun).1
    exact ⟨t, Except.ok.inj htv ▸ ht⟩
  have hstrings := encode_strings I (p := Scalar) (loads_ok I h).1 ht
  constructor
  · rintro ⟨b, hb⟩
    obtain ⟨text, hline⟩ := lineBytes_ok.1 hb
    obtain ⟨hdumps, hd⟩ := (dumps_within I.inner_within).1 hline.text
    obtain ⟨t', ht', rfl, -⟩ := dumps_ok I hdumps
    obtain rfl : t = t' := Except.ok.inj (ht.symm.trans ht')
    have hscalar : Scalar (render I false t) := fun c hc =>
      encodeUtf8_isSome.1 ⟨b, hline.bytes⟩ c (List.mem_append_left _ hc)
    exact ⟨hstrings.1 ((scalar_render I t).1 hscalar), hd⟩
  · rintro ⟨hs, hd⟩
    have hscalar : Scalar (render I false t ++ [newline]) := by
      intro c hc
      rcases List.mem_append.1 hc with hc | hc
      · exact (scalar_render I t).2 (hstrings.2 hs) c hc
      · rw [List.mem_singleton.1 hc]
        decide
    obtain ⟨b, hb⟩ := encodeUtf8_isSome.2 hscalar
    refine ⟨b, lineBytes_ok.2 ⟨render I false t, (dumps_within I.inner_within).2 ⟨?_, hd⟩, hb⟩⟩
    rw [dumps, if_neg (not_lt.2 (hd.trans I.inner_le)), ht]
    rfl

theorem canonicalBytes_loaded {lines : List Str} {vs : List (PyVal F)} (h : Records I lines vs) :
    (∃ body, canonicalRecordBytes (E := E) I.inner vs = .ok body) ↔ ∀ v ∈ vs, Writable I v := by
  rw [canonicalRecordBytes_eq]
  constructor
  · rintro ⟨body, hbody⟩ v hv
    obtain ⟨parts, hparts, -⟩ := Except.bind_ok.1 hbody
    obtain ⟨b, -, hb⟩ := (Except.mapM_eq_ok.1 hparts).mem_left hv
    obtain ⟨s, hs⟩ := h.loaded v hv
    exact (lineBytes_loaded hs).1 ⟨b, hb⟩
  · intro hall
    have hline : ∀ v ∈ vs, ∃ b, lineBytes (E := E) I.inner v = .ok b := by
      intro v hv
      obtain ⟨s, hs⟩ := h.loaded v hv
      exact (lineBytes_loaded hs).2 (hall v hv)
    obtain ⟨parts, hparts⟩ := List.exists_forall₂ hline
    exact ⟨_, Except.bind_ok.2 ⟨parts, Except.mapM_eq_ok.2 hparts, rfl⟩⟩

/-! ## A payload file with any content -/

/-- A file is read line by line, or has no lines. -/
theorem readFile_lines (node : Option Node) :
    (payloadLines node = [] ∧ jsonlReadFile (E := E) I node = .ok none) ∨
    ∃ lines, payloadLines node = dropTrailing lines ∧
      jsonlReadFile (E := E) I node = readLines I lines := by
  rcases node with _ | bytes | _ | _
  · exact Or.inl ⟨rfl, rfl⟩
  · simp only [payloadLines, jsonlReadFile]
    cases hd : decodeUtf8 bytes with
    | none => exact Or.inl ⟨rfl, rfl⟩
    | some text => exact Or.inr ⟨_, rfl, rfl⟩
  · exact Or.inl ⟨rfl, rfl⟩
  · exact Or.inl ⟨rfl, rfl⟩

theorem readFile_cons {node : Option Node} {first : Str} {rest : List Str}
    (h : payloadLines node = first :: rest) : ∃ lines, dropTrailing lines = first :: rest ∧
      jsonlReadFile (E := E) I node = readLines I lines := by
  rcases readFile_lines (I := I) (E := E) node with ⟨hnil, -⟩ | ⟨lines, hlines, hread⟩
  · rw [hnil] at h
    cases h
  · exact ⟨lines, hlines.symm.trans h, hread⟩

theorem readFile_nil {node : Option Node} (h : payloadLines node = []) :
    jsonlReadFile (E := E) I node = .ok none := by
  rcases readFile_lines (I := I) (E := E) node with ⟨-, hread⟩ | ⟨lines, hlines, hread⟩
  · exact hread
  · rw [hread, readLines, ← hlines, h]

/-- A file whose first line is too deep, or no header. -/
theorem readFile_headless {node : Option Node} {first : Str} {rest : List Str}
    (h : payloadLines node = first :: rest) (hhead : ∀ info, ¬ Header I first info) :
    (loads I first = .error .recursionError ∧
      jsonlReadFile (E := E) I node = .error (.py .recursionError)) ∨
    (loads I first ≠ .error .recursionError ∧ jsonlReadFile (E := E) I node = .ok none) := by
  obtain ⟨lines, hlines, hread⟩ := readFile_cons (I := I) (E := E) h
  rw [hread]
  simp only [readLines, hlines]
  rcases loadsQuietly_cases (I := I) (E := E) first with ⟨v, hv, hq⟩ | ⟨hv, hq⟩ | ⟨hv, hq⟩
  · refine Or.inr ⟨fun h => (by rw [hv] at h; cases h), ?_⟩
    rw [hq]
    cases v with
    | dict head =>
      simp only [bind, Except.bind]
      split
      · rename_i info hget
        exact absurd ⟨head, hv, hget⟩ (hhead info)
      · rfl
    | _ => rfl
  · refine Or.inr ⟨fun h => (by rw [hv] at h; cases h), ?_⟩
    rw [hq]
    rfl
  · refine Or.inl ⟨hv, ?_⟩
    rw [hq]
    rfl

theorem readFile_header {node : Option Node} {first : Str} {rest : List Str}
    (h : payloadLines node = first :: rest) {info : Value F .members} (hhead : Header I first info) :
    jsonlReadFile (E := E) I node = (do
      match ← readRecords I rest with
      | none => return none
      | some records => return some (records, ← metaOf I info)) := by
  obtain ⟨lines, hlines, hread⟩ := readFile_cons (I := I) (E := E) h
  obtain ⟨head, hv, hget⟩ := hhead
  rw [hread]
  rcases hrest : readRecords (E := E) I rest with e | _ | records
  · simp only [readLines, hlines, loadsQuietly_ok hv, bind, Except.bind, hget, hrest]
  · simp only [readLines, hlines, loadsQuietly_ok hv, bind, Except.bind, hget, hrest]
  · cases hmeta : metaOf (E := E) I info <;>
      simp only [readLines, hlines, loadsQuietly_ok hv, bind, Except.bind, hget, hrest, hmeta]

/-- How a file is read, and when its content raises. -/
inductive ReadOf (E : Type) (I : Interp F) (fingerprint key hash : Str) (node : Option Node) : Prop
  | rejected (hread : jsonlReadFile (E := E) I node = .ok none)
      (hfine : ¬ Escapes E I fingerprint key hash (payloadLines node))
  | raised (e : Raised E) (hread : jsonlReadFile I node = .error e)
      (hbad : Escapes E I fingerprint key hash (payloadLines node))
  | read (vs : List (PyVal F)) (m : Meta) (hread : jsonlReadFile (E := E) I node = .ok (some (vs, m)))
      (hencoded : (∃ body, canonicalRecordBytes (E := E) I.inner vs = .ok body) ↔
        ∀ v ∈ vs, Writable I v)
      (hbad : Escapes E I fingerprint key hash (payloadLines node) ↔
        Identified fingerprint key hash m ∧ ∃ v ∈ vs, ¬ Writable I v)

theorem readOf (fingerprint key hash : Str) (node : Option Node) :
    ReadOf E I fingerprint key hash node := by
  cases hlines : payloadLines node with
  | nil =>
    refine .rejected (readFile_nil hlines) ?_
    rw [hlines]
    exact nofun
  | cons first rest =>
    by_cases hhead : ∃ info, Header I first info
    · obtain ⟨info, hhead⟩ := hhead
      have hread := readFile_header (E := E) hlines hhead
      have hfirst : loads I first ≠ .error .recursionError := by
        obtain ⟨head, hv, -⟩ := hhead
        rw [hv]
        nofun
      rcases readRecords_cases (I := I) (E := E) rest with
        ⟨vs, hvs, hnot, hrec⟩ | ⟨hvs, hnot, hrec⟩ | ⟨hvs, hdeep, hrec⟩
      · rw [hrec] at hread
        rcases metaOf_cases (E := E) hhead with ⟨hp, hm⟩ | ⟨hp, m, hm⟩
        · refine .raised (.py .recursionError) ?_ ?_
          · rw [hread, hm]
            rfl
          · rw [hlines]
            exact .metadata hhead hvs hp
        · refine .read vs m ?_ (canonicalBytes_loaded hvs) ?_
          · rw [hread, hm]
            rfl
          · rw [hlines]
            constructor
            · intro h
              cases h with
              | header h => exact absurd h hfirst
              | record _ h => exact absurd h hnot
              | metadata hhead' _ h =>
                rw [header_unique hhead hhead'] at hp
                exact absurd h hp
              | result hhead' hvs' hm' hid hv =>
                rw [← header_unique hhead hhead', hm] at hm'
                cases hm'
                rw [hvs.unique hvs']
                exact ⟨hid, hv⟩
            · rintro ⟨hid, hv⟩
              exact .result hhead hvs hm hid hv
      · refine .rejected ?_ ?_
        · rw [hread, hrec]
          rfl
        · rw [hlines]
          intro h
          cases h with
          | header h => exact hfirst h
          | record _ h => exact hnot h
          | metadata _ h => exact hvs _ h
          | result _ h => exact hvs _ h
      · refine .raised (.py .recursionError) ?_ ?_
        · rw [hread, hrec]
          rfl
        · rw [hlines]
          exact .record hhead hdeep
    · rw [not_exists] at hhead
      rcases readFile_headless (E := E) hlines hhead with ⟨hv, hread⟩ | ⟨hv, hread⟩
      · refine .raised _ hread ?_
        rw [hlines]
        exact .header hv
      · refine .rejected hread ?_
        rw [hlines]
        intro h
        cases h with
        | header h => exact hv h
        | record h => exact hhead _ h
        | metadata h => exact hhead _ h
        | result h => exact hhead _ h

/-! ## The checks -/

theorem checkBody_error {R : Type} {S : Setup F R E} {result : R} {info : Meta} {entry : Entry F}
    (hlen : ∃ text, pyText (E := E) S (entry.field (lit "byte_len")) = .ok text)
    (hcount : ∃ text, pyText (E := E) S (entry.field (lit "record_count")) = .ok text) :
    (∃ e, checkBody S result info entry = .error e) ↔
      ∃ e, S.codec.checkedBytes result = .error e := by
  obtain ⟨len, hlen⟩ := hlen
  obtain ⟨count, hcount⟩ := hcount
  unfold checkBody checkedInfo digestOf
  cases hbody : S.codec.checkedBytes result with
  | error e => exact ⟨fun _ => ⟨e, rfl⟩, fun _ => ⟨e, rfl⟩⟩
  | ok body =>
    simp only [hlen, hcount, bind, Except.bind, pure, Except.pure]
    constructor
    · rintro ⟨e, h⟩
      split_ifs at h
    · rintro ⟨e, h⟩
      cases h

/-- What `_check` raises is a collision, or was raised by what it recomputes. -/
theorem check_raises {R : Type} {S : Setup F R E} {fingerprint key hash : Str} {result : R}
    {info : Meta} {entry : Entry F} (hvalid : S.codec.validateStructure result info = .ok true) :
    (∀ exc, check S fingerprint key hash result info entry = .error exc → exc.isCollision) ↔
      ¬ (Identified fingerprint key hash info ∧
        ∃ e, checkBody S result info entry = .error e) := by
  unfold check
  rw [hvalid]
  cases hp : info.lookup (lit "payload_hash") with
  | none =>
    refine iff_of_true (fun exc h => by cases h) ?_
    rintro ⟨hid, -⟩
    rw [hid.payload_hash] at hp
    cases hp
  | some storedHash =>
    by_cases h₁ : storedHash = hash
    · by_cases h₂ : info.lookup (lit "content_key") = some key
      · by_cases h₃ : info.lookup (lit "fingerprint") = some fingerprint
        · by_cases h₄ : info.lookup (lit "schema_version") = some (intText schemaVersion)
          · have hid : Identified fingerprint key hash info := ⟨h₁ ▸ hp, h₂, h₃, h₄⟩
            simp only [h₁, h₂, h₃, h₄, ne_eq, not_true_eq_false, if_false, hid, true_and]
            cases checkBody S result info entry with
            | error e =>
              refine iff_of_false (fun h => ?_) (fun h => h ⟨e, rfl⟩)
              cases h _ rfl
            | ok status => exact iff_of_true (fun exc h => by cases h) (by rintro ⟨e, h⟩; cases h)
          · simp only [h₁, h₂, h₃, h₄, ne_eq, not_true_eq_false, if_false, not_false_iff, if_true]
            exact iff_of_true (fun exc h => by cases h) fun h => h₄ h.1.schema_version
        · simp only [h₁, h₂, h₃, ne_eq, not_true_eq_false, if_false, not_false_iff, if_true]
          exact iff_of_true (fun exc h => by cases h) fun h => h₃ h.1.fingerprint
      · simp only [h₁, h₂, ne_eq, not_true_eq_false, if_false, not_false_iff, if_true]
        exact iff_of_true (fun exc h => by cases h) fun h => h₂ h.1.content_key
    · simp only [h₁, ne_eq, not_false_iff, if_true]
      refine iff_of_true (fun exc h => by cases h; rfl) fun h => h₁ ?_
      rw [h.1.payload_hash] at hp
      exact (Option.some.inj hp).symm

section
variable {M : Platform F} {sha256 : ByteArray → List (Fin 256)} {isException : E → Bool}
  {fingerprint key hash : Str} {s : Store F} {entry : Entry F}

/-- **Corruption is contained exactly if the content of the file does not raise**:
    whatever the store holds, for a committed key and any payload file, no exception but
    those that are promised leaves `has` and `load` if and only if the lines of the file
    are not of the kinds of `Escapes`. -/
theorem corruption_contained_iff (he : s.entries.lookup key = some entry)
    (hentry : CommittedEntry (jsonlSetup M none sha256 isException) key hash entry) :
    Contained (jsonlSetup M none sha256 isException) fingerprint s key hash ↔
      ¬ Escapes E M.interp fingerprint key hash
        (payloadLines (s.disk.lookup ((jsonlSetup M none sha256 isException).path key))) := by
  have hfound : (jsonlSetup M none sha256 isException).found s.disk
      ((jsonlSetup M none sha256 isException).path key) =
      s.disk.lookup ((jsonlSetup M none sha256 isException).path key) := by
    rw [Setup.found, hentry.taken]
    rfl
  rw [contained_iff (jsonl_readsBack (E := E) M.interp none).missing hentry.taken,
    load_at he hentry.payload_hash hentry.safe, hfound]
  cases readOf (I := M.interp) (E := E) fingerprint key hash
      (s.disk.lookup ((jsonlSetup M none sha256 isException).path key)) with
  | rejected hread hfine =>
    have hread' : (jsonlSetup M none sha256 isException).codec.readFile
      (s.disk.lookup ((jsonlSetup M none sha256 isException).path key)) = .ok none := hread
    rw [hread']
    refine iff_of_true (fun exc h => ?_) hfine
    cases h
    exact Or.inl rfl
  | raised e hread hbad =>
    have hread' : (jsonlSetup M none sha256 isException).codec.readFile
      (s.disk.lookup ((jsonlSetup M none sha256 isException).path key)) = .error e := hread
    rw [hread']
    refine iff_of_false (fun h => ?_) (not_not.2 hbad)
    rcases h _ rfl with h | h <;> cases h
  | read vs m hread hencoded hbad =>
    have hread' : (jsonlSetup M none sha256 isException).codec.readFile
      (s.disk.lookup ((jsonlSetup M none sha256 isException).path key)) = .ok (some (vs, m)) :=
        hread
    have hbody : (∃ e, checkBody (jsonlSetup M none sha256 isException) vs m entry = .error e) ↔
        ∃ v ∈ vs, ¬ Writable M.interp v := by
      have htext : ∀ {f : Str}, (∃ n : ℕ, entry.field f = .int n ∧
          (natText n).length ≤ M.interp.maxDigits) → ∃ text,
            pyText (E := E) (jsonlSetup M none sha256 isException) (entry.field f) = .ok text := by
        rintro f ⟨n, hn, hlen⟩
        exact ⟨_, hn ▸ pyText_natCast (S := jsonlSetup M none sha256 isException) hlen⟩
      rw [checkBody_error (htext hentry.byte_len) (htext hentry.record_count)]
      show (∃ e, canonicalRecordBytes (E := E) M.interp.inner vs = .error e) ↔ _
      rw [← not_iff_not]
      push Not
      rw [← hencoded]
      cases canonicalRecordBytes (E := E) M.interp.inner vs <;> simp
    rw [hbad, hread', ← hbody, ← check_raises (S := jsonlSetup M none sha256 isException) rfl]
    -- a status is no error, and no error of `_check` is a miss
    simp only
    cases hch : check (jsonlSetup M none sha256 isException) fingerprint key hash vs m entry with
    | error exc =>
      simp only [Except.error.injEq, forall_eq', check_error hch, Bool.false_eq_true, false_or]
    | ok status =>
      refine iff_of_true (fun exc h => ?_) fun exc h => ?_
      · cases status <;> cases h
        exact Or.inl rfl
      · cases h

/-- The payload of a committed key is overwritten by a byte that is no text. -/
theorem corruption_contained_sample : ∃ s s' : Store Half,
    (commit (plainSetup none) (lit "f") (lit "a") (lit "h") plainRecords plainDraw).run s [] =
      (.returned, s') ∧
    Contained (plainSetup none) (lit "f")
      { s' with disk := s'.disk.insert (lit "a.jsonl") (.file ⟨#[255]⟩) } (lit "a") (lit "h") := by
  obtain ⟨s, s', hopen, hcommit⟩ := plain_committed
  have hC := jsonl_readsBack (E := Bool) Half.interp none
  obtain ⟨⟨entry, he, hentry⟩, -⟩ := committedEntry_of_commit hC (.opened hopen) hcommit
  refine ⟨s, s', hcommit, (corruption_contained_iff (s := { s' with
    disk := s'.disk.insert (lit "a.jsonl") (.file ⟨#[255]⟩) }) he hentry).2 fun h => ?_⟩
  have hpath : (s'.disk.insert (lit "a.jsonl") (.file ⟨#[255]⟩)).lookup
      ((plainSetup none).path (lit "a")) = some (.file ⟨#[255]⟩) := AList.lookup_insert _
  have hlines : payloadLines ((s'.disk.insert (lit "a.jsonl") (.file ⟨#[255]⟩)).lookup
      ((plainSetup none).path (lit "a"))) = [] := by
    rw [hpath]
    decide +kernel
  have hnil : Escapes Bool Half.interp (lit "f") (lit "a") (lit "h") [] := hlines ▸ h
  cases hnil

end

/-! ## A lone surrogate -/

/-- A header for the key `a`, and the record `"\ud800"`. -/
def surrogateText : String :=
  "\x7b\"__resumable_batch_meta__\":\x7b\"content_key\":\"a\",\"fingerprint\":\"f\"," ++
    "\"payload_hash\":\"h\",\"schema_version\":\"2\"\x7d\x7d\n\"\\ud800\"\n"

def surrogateInfo : Value Half .members :=
  .ofList [(.str (lit "content_key"), .str (lit "a")), (.str (lit "fingerprint"), .str (lit "f")),
    (.str (lit "payload_hash"), .str (lit "h")), (.str (lit "schema_version"), .str (lit "2"))]

theorem surrogate_lines : ∃ first rest, payloadLines (some (.file surrogateText.toByteArray)) =
    first :: rest ∧ Header Half.interp first surrogateInfo ∧
    readRecords (E := Bool) Half.interp rest = .ok (some [.str [0xd800]]) := by
  refine ⟨(lit surrogateText).takeWhile (· ≠ newline), [lit "\"\\ud800\""], ?_, ?_, ?_⟩
  · rw [payloadLines]
    simp only [decodeUtf8_encodeUtf8 (encodeUtf8_lit surrogateText)]
    decide +kernel
  · exact ⟨.item (.str metaKey) (.dict surrogateInfo) .empty, by decide +kernel, rfl⟩
  · decide +kernel

/-- The record is decoded, but it has no bytes. -/
theorem surrogate_raises {s : Store Half} {entry : Entry Half}
    (he : s.entries.lookup (lit "a") = some entry)
    (hentry : CommittedEntry (plainSetup none) (lit "a") (lit "h") entry) {first : Str}
    {rest : List Str}
    (hlines : payloadLines (s.disk.lookup ((plainSetup none).path (lit "a"))) = first :: rest)
    (hhead : Header Half.interp first surrogateInfo)
    (hrest : readRecords (E := Bool) Half.interp rest = .ok (some [.str [0xd800]])) :
    load (plainSetup none) (lit "f") s (lit "a") (lit "h") =
      .error (.raised (.py .unicodeEncodeError)) := by
  obtain ⟨m, hm, hid⟩ : ∃ m, metaOf (E := Bool) Half.interp surrogateInfo = .ok m ∧
      Identified (lit "f") (lit "a") (lit "h") m :=
    ⟨_, rfl, by decide +kernel, by decide +kernel, by decide +kernel, by decide +kernel⟩
  have hread : jsonlReadFile (E := Bool) Half.interp ((plainSetup none).found s.disk
      ((plainSetup none).path (lit "a"))) = .ok (some ([.str [0xd800]], m)) := by
    rw [Setup.found, hentry.taken, if_neg Bool.false_ne_true, readFile_header hlines hhead, hrest, hm]
    rfl
  have hbody : checkBody (plainSetup none) [.str [0xd800]] m entry =
      .error (.py .unicodeEncodeError) := by
    have hdigest : checkedInfo (plainSetup none) [.str [0xd800]] =
        .error (.py .unicodeEncodeError) := by decide +kernel
    rw [checkBody, hdigest]
    rfl
  have hvalid : (plainSetup none).codec.validateStructure [.str [0xd800]] m = .ok true := rfl
  rw [load_of_read he hentry.payload_hash hentry.safe hread, check, hvalid, hbody]
  simp only [hid.payload_hash, hid.content_key, hid.fingerprint, hid.schema_version, ne_eq,
    not_true_eq_false, if_false]
  rfl

/-- **Damage that escapes**: the payload of a committed key is overwritten by a header
    that names the checkpoint and a record that is a lone surrogate. -/
theorem corruption_escapes : ∃ s s' : Store Half,
    (openStore (plainSetup none) (lit "f") true plainDraw).run ⟨∅, ∅⟩ [] = (.returned, s) ∧
    (commit (plainSetup none) (lit "f") (lit "a") (lit "h") plainRecords plainDraw).run s [] =
      (.returned, s') ∧
    has (plainSetup none) (lit "f")
      { s' with disk := s'.disk.insert (lit "a.jsonl") (.file surrogateText.toByteArray) }
      (lit "a") (lit "h") = .error (.raised (.py .unicodeEncodeError)) := by
  obtain ⟨s, s', hopen, hcommit⟩ := plain_committed
  have hC := jsonl_readsBack (E := Bool) Half.interp none
  obtain ⟨⟨entry, he, hentry⟩, -⟩ := committedEntry_of_commit hC (.opened hopen) hcommit
  obtain ⟨first, rest, hlines, hhead, hrest⟩ := surrogate_lines
  have hload := surrogate_raises (s := { s' with
    disk := s'.disk.insert (lit "a.jsonl") (.file surrogateText.toByteArray) }) he hentry
      (by rw [← hlines]; exact congrArg _ (AList.lookup_insert _)) hhead hrest
  refine ⟨s, s', hopen, hcommit, ?_⟩
  rw [has_eq_load hC.missing (not_refused hentry.taken), hload]
  rfl

end ResumableBatch
