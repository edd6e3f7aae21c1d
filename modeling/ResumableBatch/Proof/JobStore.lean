/-
  The stores under the engine.  A store keeps what a run asks of it, for results that
  survive the file (`jsonl_keeps`), and while every call of the file system is done it
  is faithful to a whole job (`jsonl_faithful`).
-/
import ResumableBatch.Proof.Forward
import ResumableBatch.Proof.Predict
import ResumableBatch.Proof.Transparent

namespace ResumableBatch

open Text Json

variable {F R E : Type} [DecidableEq F] {S : Setup F R E} {fingerprint : Str} {s s' : Store F}
  {key k hash payloadHash : Str} {result r : R} {draw : Draw F} {fates : List (Fate F E)}
  {ended : Ended (Exc F E)} {draws : Set (Draw F)}

/-! ## Results that survive -/

/-- The result is read back as `r`, below `load_all` as well. -/
structure Setup.Survives (S : Setup F R E) (result r : R) : Prop where
  stable : S.codec.Stable result r
  reads : ∀ {info b}, S.codec.fileBytes result info = .ok b → ∃ info',
    S.nestedCodec.readFile (some (.file b)) = .ok (some (r, info')) ∧
      S.nestedCodec.validateStructure r info' = .ok true
  canonical : ∀ {body}, S.codec.canonicalBytes result = .ok body →
    S.nestedCodec.checkedBytes r = .ok body

/-- A commit that returns makes a hit, and `load_all` loads it. -/
theorem Setup.Survives.committed (hC : S.codec.ReadsBack) (hr : S.Survives result r)
    (h : (commit S fingerprint key payloadHash result draw).run s fates = (.returned, s')) :
    load S fingerprint s' key payloadHash = .ok r ∧
      load S.below fingerprint s' key payloadHash = .ok r := by
  obtain ⟨pub, b, hb, he, hd⟩ := commit_returned hC.apart h
  have hload := pub.load_published hC hr.stable hb he hd
  obtain ⟨info, entry, hit⟩ := load_ok.1 hload
  refine ⟨hload, load_ok.2 ⟨info, entry, hit.below ?_⟩⟩
  obtain ⟨info', hread, hvalid⟩ := hr.reads pub.file
  have hfound : S.found s'.disk (S.path key) = some (.file pub.bytes) := by rw [pub.found, hd]
  -- what is read there is what is read here
  have hsame := hit.read.symm.trans
    ((S.nestedCodec_within.readFile _).ok (by rw [hfound]; exact hread))
  obtain ⟨-, rfl⟩ := Prod.mk.inj (Option.some.inj (Except.ok.inj hsame))
  obtain ⟨body, hbody, -⟩ := digestOf_ok.1 pub.prepared.digested
  rintro (hover | hover | hover)
  · rw [hfound, hread] at hover
    cases hover
  · rw [hvalid] at hover
    cases hover
  · rw [hr.canonical hbody] at hover
    cases hover

namespace Committed

/-- `has` of another key. -/
theorem has_ne (hA : S.codec.Apart)
    (h : Committed S fingerprint key payloadHash result draw s s' ended) (hk : k ≠ key) :
    has S fingerprint s' k hash = has S fingerprint s k hash :=
  has_congr (lookup_ne h hk) (disk_ne hA h hk)

/-- `load_all` of another key. -/
theorem load_below_ne (hA : S.codec.Apart)
    (h : Committed S fingerprint key payloadHash result draw s s' ended) (hk : k ≠ key) :
    load S.below fingerprint s' k hash = load S.below fingerprint s k hash := by
  refine load_congr (lookup_ne h hk) ?_
  rw [path_below]
  exact disk_ne hA h hk

end Committed

/-- `load_all` loads whatever `has` finds. -/
def LoadsBelow (S : Setup F R E) (fingerprint : Str) (s : Store F) : Prop :=
  ∀ key hash, has S fingerprint s key hash = .ok true →
    ∃ r, load S.below fingerprint s key hash = .ok r

theorem LoadsBelow.empty (h : s.entries = ∅) : LoadsBelow S fingerprint s := by
  intro key hash hhas
  rw [has, h] at hhas
  cases hhas

/-- What is found after a commit is found under its hash. -/
theorem has_committed_hash (hC : S.codec.ReadsBack)
    (h : (commit S fingerprint key payloadHash result draw).run s fates = (.returned, s'))
    (hhas : has S fingerprint s' key hash = .ok true) : hash = payloadHash := by
  obtain ⟨pub, b, -, he, -⟩ := commit_returned hC.apart h
  obtain ⟨r, hload⟩ := (has_true hC.missing).1 hhas
  obtain ⟨info, entry, hit⟩ := load_ok.1 hload
  obtain rfl := Option.some.inj (he.symm.trans hit.entry_at)
  exact Value.str.inj (hit.entry_hash.symm.trans (pub.entry_hash hC))

/-- **A store keeps what a run commits**, if it survives the file. -/
theorem manifestStore_keeps (hC : S.codec.ReadsBack) :
    (manifestStore S fingerprint).Keeps (LoadsBelow S fingerprint)
      (fun _ _ result => ∃ r, S.Survives result r) where
  commit_hit := by
    rintro s key hash result s' - ⟨r, hr⟩ ⟨draw, fates, -, h⟩
    exact (has_true hC.missing).2 ⟨r, (hr.committed hC h).1⟩
  kept := by
    rintro s k hash key payloadHash result s' - - hhas ⟨draw, fates, -, h⟩ hne
    exact ((commit_cases h).has_ne hC.apart hne.symm).trans hhas
  inv := by
    rintro s key payloadHash result s' hs ⟨r, hr⟩ ⟨draw, fates, -, h⟩ k hash hhas
    by_cases hk : k = key
    · subst hk
      rw [has_committed_hash hC h hhas]
      exact ⟨r, (hr.committed hC h).2⟩
    · rw [(commit_cases h).load_below_ne hC.apart hk]
      rw [(commit_cases h).has_ne hC.apart hk] at hhas
      exact hs k hash hhas
  hit_loads hs hhas := hs _ _ hhas

/-! ## While every call is done -/

/-- The store as the engine sees it while every call of the file system is done; `draws`
    is what the clock and the random sources may answer. -/
def calmStore (S : Setup F R E) (fingerprint : Str) (draws : Set (Draw F)) :
    ResultStore (Store F) Str Str R (Exc F E) :=
  { manifestStore S fingerprint with
    commit := fun s key payloadHash result ended s' => ∃ draw ∈ draws,
      (commit S fingerprint key payloadHash result draw).run s [] = (ended, s') }

/-- The result can be committed under the key and the hash, and survives the file. -/
structure Storable (S : Setup F R E) (fingerprint : Str) (draws : Set (Draw F))
    (key payloadHash : Str) (result r : R) : Prop where
  survives : S.Survives result r
  publication : ∀ draw ∈ draws, ∃ pub : Publication S fingerprint key payloadHash result draw,
    pub.entry.Writable S.interp
  tmp_taken : ∀ draw ∈ draws, S.refuses (S.payloadTmp key draw) = false

/-- No directory is in the way of a commit, and the manifest can be written. -/
structure Store.Writable (I : Interp F) (s : Store F) : Prop where
  dirs : NoDirs s.disk
  entriesOk : EntriesOk s.entries
  entries : ∀ key entry, s.entries.lookup key = some entry → entry.Writable I

theorem Storable.commits (hC : S.codec.ReadsBack) (hdigits : 1 ≤ S.interp.maxDigits)
    (hs : s.Writable S.interp) (hq : Storable S fingerprint draws key payloadHash result r)
    (hdraw : draw ∈ draws) :
    ∃ s', (commit S fingerprint key payloadHash result draw).run s [] = (.returned, s') ∧
      s'.Writable S.interp := by
  obtain ⟨pub, hentry⟩ := hq.publication draw hdraw
  have hentries : ∀ k entry, (s.entries.insert key pub.entry).lookup k = some entry →
      entry.Writable S.interp := by
    intro k entry he
    by_cases hk : k = key
    · rw [hk, AList.lookup_insert] at he
      exact Option.some.inj he ▸ hentry
    · rw [AList.lookup_insert_ne hk] at he
      exact hs.entries k entry he
  have hok := hs.entriesOk.insert (pub.entryOk hC).2
  obtain ⟨b, hb⟩ : ∃ b, manifestBytes S fingerprint (s.entries.insert key pub.entry) = .ok b :=
    manifestBytes_writable hok hdigits hentries
  obtain ⟨s', hrun, he, hd⟩ := commit_done hC.apart pub (.nil 8) hs.dirs (hq.tmp_taken draw hdraw) hb
  exact ⟨s', hrun, hd, he ▸ hok, he ▸ hentries⟩

/-- **A store is faithful to a job** whose results can be committed. -/
theorem calmStore_faithful (hC : S.codec.ReadsBack) (hdigits : 1 ≤ S.interp.maxDigits)
    (hdraws : draws.Nonempty) (img : R → R) :
    (calmStore S fingerprint draws).Faithful (Store.Writable S.interp)
      (fun key hash result => Storable S fingerprint draws key hash result (img result)) img where
  ends s key hash result := ⟨_, _, hdraws.some, hdraws.some_mem, rfl⟩
  returns := by
    rintro s key hash result ended s' hs hq ⟨draw, hdraw, h⟩
    obtain ⟨_, hrun, -⟩ := hq.commits hC hdigits hs hdraw
    exact congrArg Prod.fst (h.symm.trans hrun)
  inv := by
    rintro s key hash result s' hs hq ⟨draw, hdraw, h⟩
    obtain ⟨_, hrun, hs'⟩ := hq.commits hC hdigits hs hdraw
    obtain rfl := congrArg Prod.snd (h.symm.trans hrun)
    exact hs'
  hit := by
    rintro s key hash result s' - hq ⟨draw, -, h⟩
    exact (has_true hC.missing).2 ⟨_, (hq.survives.committed hC h).1⟩
  loads := by
    rintro s key hash result s' - hq ⟨draw, -, h⟩
    exact (hq.survives.committed hC h).2
  has_other := by
    rintro s key hash k' h' result s' - - ⟨draw, -, h⟩ hne
    exact (commit_cases h).has_ne hC.apart hne
  load_other := by
    rintro s key hash k' h' result s' - - ⟨draw, -, h⟩ hne
    exact (commit_cases h).load_below_ne hC.apart hne

/-- A new directory is ready for commits. -/
theorem Store.Writable.of_new (hfp : fingerprint ≠ []) (hdigits : 1 ≤ S.interp.maxDigits)
    (draw : Draw F) : ∃ s', (openStore S fingerprint true draw).run ⟨∅, ∅⟩ [] = (.returned, s') ∧
      s'.Writable S.interp ∧ LoadsBelow S fingerprint s' := by
  have hdirs : NoDirs ∅ := fun name h => by cases h
  obtain ⟨b, hb⟩ : ∃ b, manifestBytes S fingerprint (∅ : Entries F) = .ok b :=
    manifestBytes_writable .empty hdigits fun key entry h => by cases h
  let disk := moved ∅ draw.manifestTmp manifestPath b
  have hwrite : writeManifest S fingerprint draw ⟨⟨∅, ∅⟩, []⟩ =
      .ok () (⟨⟨disk, ∅⟩, []⟩ : Session F E) :=
    writeManifest_done (.nil 4) hb (hdirs _) (hdirs _)
  have hload : loadOrInvalidateManifest S fingerprint draw ⟨⟨∅, ∅⟩, []⟩ = .ok () ⟨⟨disk, ∅⟩, []⟩ :=
    (loadOrInvalidate_eq ⟨⟨∅, ∅⟩, []⟩).trans
      (EStateM.bind_ok.2 ⟨(), _, rfl, EStateM.bind_ok.2 ⟨(), _, rfl, hwrite⟩⟩)
  -- the manifest is no temporary file
  have hkeys : disk.keys.filter isTmp = [] := by
    refine List.filter_eq_nil_iff.2 fun n hn htmp => ?_
    have hne : n ≠ manifestPath := by
      rintro rfl
      rw [isTmp_manifest] at htmp
      cases htmp
    exact AList.lookup_eq_none.1 (lookup_moved hne rfl) hn
  have hsweep : sweepOrphanTmps (⟨⟨disk, ∅⟩, []⟩ : Session F E) = .ok () ⟨⟨disk, ∅⟩, []⟩ := by
    refine EStateM.bind_ok.2 ⟨_, _, rfl, ?_⟩
    rw [hkeys]
    rfl
  have hrun : openStore S fingerprint true draw ⟨⟨∅, ∅⟩, []⟩ = .ok () ⟨⟨disk, ∅⟩, []⟩ := by
    rw [openStore_eq, if_neg (by simp), if_neg hfp]
    exact EStateM.bind_ok.2 ⟨(), _, rfl, EStateM.bind_ok.2
      ⟨(), _, rfl, EStateM.bind_ok.2 ⟨(), _, hload, hsweep⟩⟩⟩
  exact ⟨⟨disk, ∅⟩, by rw [Fs.run, hrun],
      ⟨hdirs.moved _ _ _, .empty, fun _ _ h => by cases h⟩, .empty rfl⟩

/-! ## Records that survive -/

section
variable {M : Platform F} {recordValidator : Option (PyVal F → Except E Bool)}
  {sha256 : ByteArray → List (Fin 256)} {isException : E → Bool} {records : List (PyVal F)}

/-- JSON values that are accepted as they are read back, nested no deeper than can be
    encoded below `load_all`. -/
structure RecordsFit (M : Platform F) (recordValidator : Option (PyVal F → Except E Bool))
    (records : List (PyVal F)) : Prop where
  json : ∀ rec ∈ records, rec.IsJson
  depth : ∀ rec ∈ records, rec.depth ≤ M.nested.innerDepth
  valid : ∀ validator, recordValidator = some validator →
    ∀ rec ∈ records, validator rec.sortKeys = .ok true

theorem RecordsFit.validated (h : RecordsFit M recordValidator records) (I : Interp F) (info : Meta) :
    (jsonlCodec I recordValidator).validateStructure (records.map Value.sortKeys) info =
      .ok true := by
  cases hv : recordValidator with
  | none => rfl
  | some validator => exact allValid_ok.2 (List.forall_mem_map.2 (h.valid validator hv))

theorem RecordsFit.stable (h : RecordsFit M recordValidator records) :
    (jsonlCodec M.interp recordValidator).Stable records (records.map Value.sortKeys) :=
  jsonl_stable h.json (fun rec hrec => (h.depth rec hrec).trans M.nested_within.innerDepth)
    (h.validated M.interp)

theorem RecordsFit.survives (h : RecordsFit M recordValidator records) :
    (jsonlSetup M recordValidator sha256 isException).Survives records
      (records.map Value.sortKeys) where
  stable := h.stable
  reads hb := by
    have hdepth : ∀ rec ∈ records, rec.depth ≤ M.nested.encodeDepth := fun rec hrec =>
      (h.depth rec hrec).trans M.nested.inner_le
    obtain ⟨info', hread, -⟩ :=
      readFile_json h.json (jsonlFileBytes_within M.nested_within hb hdepth)
    exact ⟨info', hread, h.validated M.nested info'⟩
  canonical hbody := by
    have hchecked := h.stable.canonical hbody
    refine (canonicalRecordBytes_within M.nested_within.inner).2 ⟨hchecked, ?_⟩
    refine List.forall_mem_map.2 fun rec hrec => ?_
    rw [rec.depth_sortKeys]
    exact h.depth rec hrec

omit [DecidableEq F] in
/-- A header without surrogates has a line. -/
theorem headerDoc_line {info : Meta} (hs : ∀ f v, info.lookup f = some v → Scalar f ∧ Scalar v)
    (I : Interp F) :
    ∃ b, lineBytes (E := E) I (headerDoc info) = .ok b := by
  have hjson := headerDoc_isJson (F := F) info
  obtain ⟨⟨hkeys, -⟩, ⟨⟨hinner, -⟩, -⟩, -⟩ := headerDoc_isJson (F := F) info
  obtain ⟨t, ht⟩ := (encodes_dict I hkeys).2 fun p hp => by
    rw [List.mem_singleton.1 hp]
    refine (encodes_dict I hinner).2 ?_
    rw [Value.toList_ofList]
    exact List.forall_mem_map.2 fun q _ => ⟨_, rfl⟩
  have hdepth : (headerDoc (F := F) info).depth ≤ I.encodeDepth :=
    (headerDoc_depth info).trans ((Nat.le_succ 2).trans (I.three_le.trans I.inner_le))
  have hstrings : (headerDoc (F := F) info).Strings Scalar := by
    refine ⟨scalar_of_lt (lit_chars rfl), ?_, trivial⟩
    exact (Value.strings_ofList _).2 (List.forall_mem_map.2 fun p hp =>
      hs _ _ (AList.mem_lookup_iff.2 hp))
  obtain ⟨b, hb⟩ := encodeUtf8_isSome.2 (scalar_append.2
    ⟨(scalar_render I t).2 ((encode_strings I hjson ht).2 hstrings),
      scalar_singleton (c := newline) (by decide)⟩)
  exact ⟨b, lineBytes_ok.2 ⟨_, dumps_of_encode I hdepth ht, hb⟩⟩

/-- **The JSONL store keeps what a run commits.** -/
theorem jsonl_keeps :
    (manifestStore (jsonlSetup M recordValidator sha256 isException) fingerprint).Keeps
      (LoadsBelow (jsonlSetup M recordValidator sha256 isException) fingerprint)
      (fun _ _ records => RecordsFit M recordValidator records) :=
  (manifestStore_keeps (jsonl_readsBack M.interp recordValidator)).mono
    fun _ _ _ h => ⟨_, h.survives⟩

/-! ## Records that can be committed -/

theorem scalar_of_lt_surrogate {s : Str} (h : ∀ c ∈ s, c.val < 0xd800) : Scalar s :=
  fun c hc => Or.inl (h c hc)

theorem scalar_hexText (bytes : List (Fin 256)) : Scalar (hexText bytes) := by
  refine scalar_of_lt_surrogate fun c hc => ?_
  have hhex := hexText_chars hc
  simp only [isHexChar, isDigit, Bool.decide_and, Bool.decide_or, Bool.or_eq_true, Bool.and_eq_true,
    decide_eq_true_eq] at hhex
  rcases hhex with h | h
  · exact lt_of_le_of_lt (Fin.le_def.1 h.2) (by decide)
  · exact lt_of_le_of_lt (Fin.le_def.1 h.2) (by decide)

theorem scalar_key (h : isSafeKey key) : Scalar key :=
  scalar_of_lt_surrogate fun c hc => (isKeyChar_lt ((isSafeKey_chars h).2 c hc)).trans (by decide)

theorem scalar_lit {s : String} (h : s.toList.all fun c => 32 ≤ c.toNat ∧ c.toNat < 128) :
    Scalar (lit s) :=
  scalar_of_lt (lit_chars h)

/-- The identity block of a key and a hash without surrogates has none. -/
theorem identityMeta_scalar {fp digest generation : Str} {byteLen count : ℕ} (hfp : Scalar fp)
    (hkey : isSafeKey key) (hhash : Scalar hash) (hdigest : Scalar digest) (hgen : Scalar generation)
    {f v : Str} (hf : (identityMeta fp key hash digest (lengthText byteLen) (lengthText count)
      generation).lookup f = some v) : Scalar f ∧ Scalar v := by
  rw [identityMeta, AList.lookup_to_alist] at hf
  have hmem := List.of_mem_dlookup hf
  simp only [List.mem_cons, Sigma.mk.injEq, heq_eq_eq, List.not_mem_nil, or_false] at hmem
  have hlen : ∀ n : ℕ, Scalar (lengthText n) := fun n => scalar_of_lt (intText_chars n)
  rcases hmem with ⟨rfl, rfl⟩ | ⟨rfl, rfl⟩ | ⟨rfl, rfl⟩ | ⟨rfl, rfl⟩ | ⟨rfl, rfl⟩ | ⟨rfl, rfl⟩ |
    ⟨rfl, rfl⟩ | ⟨rfl, rfl⟩
  · exact ⟨scalar_lit rfl, scalar_key hkey⟩
  · exact ⟨scalar_lit rfl, hhash⟩
  · exact ⟨scalar_lit rfl, hfp⟩
  · exact ⟨scalar_lit rfl, scalar_of_lt (intText_chars _)⟩
  · exact ⟨scalar_lit rfl, hdigest⟩
  · exact ⟨scalar_lit rfl, hlen _⟩
  · exact ⟨scalar_lit rfl, hlen _⟩
  · exact ⟨scalar_lit rfl, hgen⟩

/-- Records that survive, under a key and a hash that the store and the file system take. -/
structure RecordsStorable (M : Platform F) (recordValidator : Option (PyVal F → Except E Bool))
    (fingerprint : Str) (draws : Set (Draw F)) (key payloadHash : Str) (records : List (PyVal F)) :
    Prop where
  fit : RecordsFit M recordValidator records
  /-- no surrogate, and no number with too many digits -/
  bytes : ∃ body, canonicalRecordBytes (E := E) M.interp records = .ok body ∧
    (natText body.size).length ≤ M.interp.maxDigits
  count : (natText records.length).length ≤ M.interp.maxDigits
  safe : isSafeKey key
  fingerprint_scalar : Scalar fingerprint
  hash_scalar : Scalar payloadHash
  taken : M.refuses (key ++ lit ".jsonl") = false
  tmp_taken : ∀ draw ∈ draws,
    M.refuses (tmpName (key ++ lit ".jsonl") draw.pid draw.payloadRandom) = false

omit [DecidableEq F] in
theorem one_le_digits {I : Interp F} {n : ℕ} (h : (natText n).length ≤ I.maxDigits) :
    1 ≤ I.maxDigits := by
  obtain ⟨c, t, hn, -⟩ := natText_head n
  rw [hn] at h
  exact (Nat.succ_pos _).trans_le h

omit [DecidableEq F] in
/-- The entry of a commit without extra fields. -/
theorem identityEntry_writable {I : Interp F} {digest generation : Str} {byteLen count : ℕ}
    {time : F}
    (hlen : (natText byteLen).length ≤ I.maxDigits) (hcount : (natText count).length ≤ I.maxDigits) :
    (identityEntry payloadHash digest byteLen count generation time).Writable I := by
  have hversion : (natText schemaVersion.natAbs).length ≤ I.maxDigits := one_le_digits hlen
  rw [Entry.Writable, identityEntry, Value.toList_ofList]
  simp only [List.forall_mem_cons, List.not_mem_nil, false_imp_iff, implies_true, and_true]
  exact ⟨⟨rfl, _, rfl⟩, ⟨rfl, _, encode_int.2 ⟨hversion, rfl⟩⟩, ⟨rfl, _, rfl⟩,
    ⟨rfl, _, encode_int.2 ⟨hlen, rfl⟩⟩, ⟨rfl, _, encode_int.2 ⟨hcount, rfl⟩⟩, ⟨rfl, _, rfl⟩,
      rfl, _, rfl⟩

theorem RecordsStorable.storable
    (h : RecordsStorable M recordValidator fingerprint draws key payloadHash records) :
    Storable (jsonlSetup M recordValidator sha256 isException) fingerprint draws key
      payloadHash records
      (records.map Value.sortKeys) where
  survives := h.fit.survives
  publication draw _ := by
    obtain ⟨body, hbody, hlen⟩ := h.bytes
    obtain ⟨header, hheader⟩ : ∃ b, lineBytes (E := E) M.interp (headerDoc
        (identityMeta fingerprint key payloadHash (hexText (sha256 body)) (lengthText body.size)
          (lengthText records.length) draw.generation)) = .ok b :=
      headerDoc_line (fun f v => identityMeta_scalar h.fingerprint_scalar h.safe h.hash_scalar
        (scalar_hexText _) (scalar_hexText _)) M.interp
    refine ⟨⟨hexText (sha256 body), body.size, records.length, ∅, header ++ body,
      ⟨rfl, digestOf_ok.2 ⟨body, hbody, rfl, rfl, rfl⟩, rfl, h.safe⟩, ?_, h.taken⟩,
      identityEntry_writable hlen h.count⟩
    show jsonlFileBytes M.interp records _ = .ok _
    rw [AList.empty_union, jsonlFileBytes_eq, hheader, hbody]
    rfl
  tmp_taken := h.tmp_taken

/-- **The JSONL store is faithful to a job** whose records can be committed, while every
    call of the file system is done. -/
theorem jsonl_faithful (hdigits : 1 ≤ M.interp.maxDigits) (hdraws : draws.Nonempty) :
    (calmStore (jsonlSetup M recordValidator sha256 isException) fingerprint draws).Faithful
      (Store.Writable M.interp) (RecordsStorable M recordValidator fingerprint draws)
      (List.map Value.sortKeys) :=
  (calmStore_faithful (jsonl_readsBack M.interp recordValidator) hdigits hdraws _).mono
    fun _ _ _ h => h.storable

/-- **A run over the JSONL store is stitched** when it is done, if its records survive. -/
theorem jsonl_stitched {P A O : Type} {cfg : Config (Store F) Str Str (List (PyVal F)) (Exc F E)}
    (hcfg : cfg.store = manifestStore (jsonlSetup M recordValidator sha256 isException) fingerprint)
    {w : Hooks P Str Str (Exc F E)} {W : Set (World P Str Str (Exc F E))}
    {items : List (CheckpointItem P)} {st : Store F} {s₀ s : State (Store F) P Str Str _ (Exc F E)}
    {tr : List (Event P Str Str _ (Exc F E))} (mode : CombineMode (List (PyVal F)) (Exc F E) A O)
    (hst : LoadsBelow (jsonlSetup M recordValidator sha256 isException) fingerprint st)
    (hb : begin w items st = .ok s₀) (hr : Lts.Run (cfg.step W) s₀ tr s)
    (hfit : Commits (fun _ _ records => RecordsFit M recordValidator records) tr) (hd : s.loc = .done)
    (hmode : ∀ results, ∃ o, mode.over results = .ok o) :
    ∃ res, outcome cfg mode s = some (.ok res) := by
  -- the stitch decides whether keys are the same by their order
  have hbegin : @begin P Str Str _ _ _ LinearOrder.toDecidableEq w items st = .ok s₀ := by
    convert hb
  have hrun : Lts.Run (@Config.step P Str Str _ _ _ LinearOrder.toDecidableEq cfg W) s₀ tr s := by
    convert hr
  exact outcome_returns mode (hcfg ▸ jsonl_keeps) hst hbegin hrun hfit hd hmode

end

/-- The plain record can be committed on a new directory. -/
theorem jsonl_faithful_sample : RecordsStorable (E := Bool) plainPlatform none (lit "f") {plainDraw}
      (lit "a") (lit "h") plainRecords ∧
    ∃ s, (openStore (plainSetup none) (lit "f") true plainDraw).run ⟨∅, ∅⟩ [] = (.returned, s) ∧
      s.Writable Half.interp := by
  have hname : lit "f" ≠ [] := by decide
  obtain ⟨s₁, hopen, hs₁, -⟩ :=
    Store.Writable.of_new (S := plainSetup none) hname (by decide) plainDraw
  refine ⟨?_, s₁, hopen, hs₁⟩
  have hC := jsonl_readsBack (E := Bool) Half.interp none
  obtain ⟨s, s', -, hcommit⟩ := plain_committed
  obtain ⟨pub, b, hb, -, -⟩ := commit_returned hC.apart hcommit
  obtain ⟨body, hbody, -, hlen, hcount⟩ := digestOf_ok.1 pub.prepared.digested
  have hlen' := pub.digits hb (pub.entry_len hC)
  have hcount' := pub.digits hb (pub.entry_count hC)
  rw [hlen] at hlen'
  rw [hcount] at hcount'
  refine ⟨⟨plainRecords_json, fun rec hrec => ?_, nofun⟩, ⟨body, hbody, hlen'⟩, hcount', by decide,
    scalar_lit rfl, scalar_lit rfl, pub.taken, ?_⟩
  · rw [List.mem_singleton.1 hrec]
    decide
  · rintro draw rfl
    decide +kernel

end ResumableBatch
