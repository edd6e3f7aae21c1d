/-
  What a commit publishes: an entry that a manifest can hold, and a payload file
  that carries the generation id of the commit.
-/
import ResumableBatch.Proof.Open

namespace ResumableBatch

open Text Json

variable {F R E : Type}

/-- The fields that `commit` fills in itself. -/
def identityFields : List Str :=
  [lit "content_key", lit "payload_hash", lit "fingerprint", lit "schema_version",
    lit "result_digest", lit "byte_len", lit "record_count", lit "generation_id",
    lit "committed_at"]

/-- What the base relies on in a subclass: a file that was written is read, with the
    metadata embedded in it, and the extra metadata leaves the identity alone. -/
structure Codec.ReadsBack (C : Codec R E) : Prop where
  apart : C.Apart
  missing : C.readFile none = .ok none
  reads : ∀ {r info b}, C.fileBytes r info = .ok b → ∃ r' info',
    C.readFile (some (.file b)) = .ok (some (r', info')) ∧
      ∀ f v, info.lookup f = some v → info'.lookup f = some v
  scalar : ∀ {r info b}, C.fileBytes r info = .ok b →
    ∀ f v, info.lookup f = some v → Scalar f ∧ Scalar v
  extra : ∀ {r extra}, C.commitExtraMeta r = .ok extra →
    ∀ f ∈ identityFields, extra.lookup f = none

/-! ## Identity fields -/

section
variable {payloadHash digest generation : Str} {byteLen count : ℕ} {time : F}

theorem identityEntry_isJson :
    (Value.dict (identityEntry payloadHash digest byteLen count generation time)).IsJson := by
  refine ⟨⟨?_, ?_⟩, (Value.isJson_members _).2 ?_⟩
  · rw [identityEntry, Value.toList_ofList]
    simp [Key.isStr]
  · rw [identityEntry, Value.toList_ofList]
    exact List.Nodup.map (fun a b h => Key.str.inj h) (l := [lit "payload_hash",
      lit "schema_version", lit "result_digest", lit "byte_len", lit "record_count",
      lit "generation_id", lit "committed_at"]) (by decide)
  · rw [identityEntry, Value.toList_ofList]
    simp [Value.IsJson]

theorem identityEntry_strings (hp : NoPair payloadHash) (hd : NoPair digest)
    (hg : NoPair generation) :
    (identityEntry payloadHash digest byteLen count generation time).Strings NoPair :=
  ⟨noPair_lit rfl, hp, noPair_lit rfl, trivial, noPair_lit rfl, hd, noPair_lit rfl, trivial,
    noPair_lit rfl, trivial, noPair_lit rfl, hg, noPair_lit rfl, trivial, trivial⟩

end

/-! ## The payload file -/

variable {S : Setup F R E} {fingerprint key payloadHash : Str} {result : R} {draw : Draw F}

namespace Publication

/-- The identity in the payload file. -/
structure Identity (pub : Publication S fingerprint key payloadHash result draw) (info : Meta) :
    Prop where
  content_key : info.lookup (lit "content_key") = some key
  payload_hash : info.lookup (lit "payload_hash") = some payloadHash
  fingerprint : info.lookup (lit "fingerprint") = some fingerprint
  schema_version : info.lookup (lit "schema_version") = some (intText schemaVersion)
  result_digest : info.lookup (lit "result_digest") = some pub.digest
  byte_len : info.lookup (lit "byte_len") = some (lengthText pub.byteLen)
  record_count : info.lookup (lit "record_count") = some (lengthText pub.count)
  generation_id : info.lookup (lit "generation_id") = some draw.generation

variable (pub : Publication S fingerprint key payloadHash result draw)

theorem identity (hC : S.codec.ReadsBack) : pub.Identity pub.info := by
  have hfield : ∀ f ∈ identityFields, pub.info.lookup f =
      (identityMeta fingerprint key payloadHash pub.digest (lengthText pub.byteLen)
        (lengthText pub.count) draw.generation).lookup f := fun f hf =>
    AList.lookup_union_right (AList.lookup_eq_none.1 (hC.extra pub.prepared.extras f hf))
  constructor <;>
  · rw [hfield _ (by decide), identityMeta, AList.lookup_to_alist]
    rfl

/-- What is read of the payload file carries the identity. -/
theorem reads (hC : S.codec.ReadsBack) : ∃ r' info',
    S.codec.readFile (some (.file pub.bytes)) = .ok (some (r', info')) ∧ pub.Identity info' := by
  obtain ⟨r', info', hread, hinfo⟩ := hC.reads pub.file
  have h := pub.identity hC
  exact ⟨r', info', hread, hinfo _ _ h.content_key, hinfo _ _ h.payload_hash,
    hinfo _ _ h.fingerprint, hinfo _ _ h.schema_version, hinfo _ _ h.result_digest,
    hinfo _ _ h.byte_len, hinfo _ _ h.record_count, hinfo _ _ h.generation_id⟩

end Publication

/-- What `_digest_info` computes. -/
theorem digestOf_ok {canonicalBytes : R → Except (Raised E) ByteArray} {r : R} {digest : Str}
    {byteLen count : ℕ} :
    digestOf S canonicalBytes r = .ok (digest, byteLen, count) ↔ ∃ body, canonicalBytes r = .ok body ∧
      digest = hexdigest S body ∧ byteLen = body.size ∧ count = S.codec.recordCount r := by
  rw [digestOf, Except.bind_ok]
  refine exists_congr fun body => and_congr_right fun _ => ?_
  show Except.ok _ = Except.ok _ ↔ _
  rw [Except.ok.injEq, Prod.mk.injEq, Prod.mk.injEq]
  exact and_congr eq_comm (and_congr eq_comm eq_comm)

/-! ## Extra fields -/

section
variable [DecidableEq F]

theorem update_cons (entry : Entry F) (p : Sigma fun _ : Str => Str)
    (l : List (Sigma fun _ : Str => Str)) :
    (p :: l).foldl (fun e p => Value.set (.str p.1) (.str p.2) e) entry =
      l.foldl (fun e p => Value.set (.str p.1) (.str p.2) e)
        (Value.set (.str p.1) (.str p.2) entry) := rfl

/-- A field that is not updated. -/
theorem field_update {entry : Entry F} {extra : Meta} {f : Str} (h : extra.lookup f = none) :
    (entry.update extra).field f = entry.field f := by
  have hmem : f ∉ extra.entries.map Sigma.fst := AList.lookup_eq_none.1 h
  unfold Entry.update
  generalize extra.entries = l at hmem
  induction l generalizing entry with
  | nil => rfl
  | cons p l ih =>
    rw [List.map_cons, List.mem_cons, not_or] at hmem
    rw [update_cons, ih hmem.2, Entry.field, Value.get_set, if_neg]
    · rfl
    · intro he
      exact hmem.1 (Key.str.inj he)

/-- What holds of an entry and of a field that is set holds when fields are updated. -/
theorem update_of {p : Entry F → Prop} {entry : Entry F} {extra : Meta} (h : p entry)
    (hset : ∀ e f v, extra.lookup f = some v → p e → p (Value.set (.str f) (.str v) e)) :
    p (entry.update extra) := by
  have hset' : ∀ q ∈ extra.entries, ∀ e, p e → p (Value.set (.str q.1) (.str q.2) e) :=
    fun q hq e => hset e q.1 q.2 (AList.mem_lookup_iff.2 hq)
  unfold Entry.update
  generalize extra.entries = l at hset'
  induction l generalizing entry with
  | nil => exact h
  | cons q l ih =>
    rw [List.forall_mem_cons] at hset'
    exact ih (hset'.1 _ h) hset'.2

/-- A dictionary with strings as keys to which a string is added. -/
theorem isJson_set {e : Entry F} {f v : Str} (h : (Value.dict e).IsJson) :
    (Value.dict (Value.set (.str f) (.str v) e)).IsJson := by
  obtain ⟨⟨hs, hnd⟩, hms⟩ := h
  refine ⟨⟨fun p hp => ?_, Value.nodup_set hnd⟩, (Value.isJson_members _).2 fun p hp => ?_⟩
  · rcases Value.mem_set hp with rfl | hp
    · rfl
    · exact hs p hp
  · rcases Value.mem_set hp with rfl | hp
    · trivial
    · exact (Value.isJson_members _).1 hms p hp

theorem strings_set {q : Str → Prop} {e : Entry F} {f v : Str} (hf : q f) (hv : q v)
    (h : e.Strings q) : (Value.set (.str f) (.str v) e).Strings q := by
  refine (Value.strings_members _).2 fun p hp => ?_
  rcases Value.mem_set hp with rfl | hp
  · exact ⟨hf, hv⟩
  · exact (Value.strings_members _).1 h p hp

/-! ## The entry -/

namespace Publication

variable (pub : Publication S fingerprint key payloadHash result draw)

/-- The fields of the entry. -/
theorem entry_field (hC : S.codec.ReadsBack) {f : Str} (hf : f ∈ identityFields) :
    pub.entry.field f = (identityEntry payloadHash pub.digest pub.byteLen pub.count
      draw.generation draw.time).field f :=
  field_update (hC.extra pub.prepared.extras f hf)

theorem entry_hash (hC : S.codec.ReadsBack) :
    pub.entry.field (lit "payload_hash") = .str payloadHash := by
  rw [pub.entry_field hC (by decide)]
  rfl

theorem entry_digest (hC : S.codec.ReadsBack) :
    pub.entry.field (lit "result_digest") = .str pub.digest := by
  rw [pub.entry_field hC (by decide)]
  rfl

theorem entry_generation (hC : S.codec.ReadsBack) :
    pub.entry.field (lit "generation_id") = .str draw.generation := by
  rw [pub.entry_field hC (by decide)]
  rfl

theorem entry_len (hC : S.codec.ReadsBack) :
    pub.entry.field (lit "byte_len") = .int pub.byteLen := by
  rw [pub.entry_field hC (by decide)]
  rfl

theorem entry_count (hC : S.codec.ReadsBack) :
    pub.entry.field (lit "record_count") = .int pub.count := by
  rw [pub.entry_field hC (by decide)]
  rfl

/-- **A manifest can hold the entry of a commit.** -/
theorem entryOk (hC : S.codec.ReadsBack) : NoPair fingerprint ∧ EntryOk key pub.entry := by
  have hid := pub.identity hC
  have hscalar : ∀ {f v}, pub.info.lookup f = some v → NoPair v := fun h =>
    noPair_of_scalar (hC.scalar pub.file _ _ h).2
  refine ⟨hscalar hid.fingerprint, pub.prepared.safe, ?_, ?_, ?_⟩
  · exact update_of (p := fun e => (Value.dict e).IsJson) identityEntry_isJson
      fun e f v _ h => isJson_set h
  · refine update_of (p := fun e => e.Strings NoPair) (identityEntry_strings
      (hscalar hid.payload_hash) (hscalar hid.result_digest) (hscalar hid.generation_id))
      fun e f v hf h => ?_
    have hmem : pub.info.lookup f = some v := AList.mem_lookup_union.2 (Or.inl hf)
    obtain ⟨hsf, hsv⟩ := hC.scalar pub.file _ _ hmem
    exact strings_set (noPair_of_scalar hsf) (noPair_of_scalar hsv) h
  · intro f hf
    simp only [List.mem_cons, List.not_mem_nil, or_false] at hf
    rcases hf with rfl | rfl | rfl
    · exact ⟨_, pub.entry_hash hC⟩
    · exact ⟨_, pub.entry_generation hC⟩
    · exact ⟨_, pub.entry_digest hC⟩

end Publication

/-! ## What is read back of a commit -/

/-- A commit that returned has published its result. -/
theorem commit_published {s s' : Store F} {fates : List (Fate F E)}
    (h : (commit S fingerprint key payloadHash result draw).run s fates = (.returned, s')) :
    ∃ (pub : Publication S fingerprint key payloadHash result draw) (bytes : ByteArray),
      manifestBytes S fingerprint (s.entries.insert key pub.entry) = .ok bytes ∧
      s'.entries = s.entries.insert key pub.entry ∧
      ∀ n, n ≠ S.payloadTmp key draw → n ≠ draw.manifestTmp → s'.disk.lookup n =
        if n = manifestPath then some (.file bytes)
        else if n = S.path key then some (.file pub.bytes) else s.disk.lookup n := by
  cases commit_cases h with
  | untouched hne => exact absurd rfl hne
  | torn _ hne => exact absurd rfl hne
  | published pub bytes hb hrec hd =>
    refine ⟨pub, bytes, hb, ?_, hd⟩
    cases hrec with
    | returned he => exact he
    | restored hne => exact absurd rfl hne
    | kept hne => exact absurd rfl hne

theorem commit_returned (hA : S.codec.Apart) {s s' : Store F} {fates : List (Fate F E)}
    (h : (commit S fingerprint key payloadHash result draw).run s fates = (.returned, s')) :
    ∃ (pub : Publication S fingerprint key payloadHash result draw) (bytes : ByteArray),
      manifestBytes S fingerprint (s.entries.insert key pub.entry) = .ok bytes ∧
      s'.entries.lookup key = some pub.entry ∧
      s'.disk.lookup (S.path key) = some (.file pub.bytes) := by
  obtain ⟨pub, bytes, hb, he, hd⟩ := commit_published h
  refine ⟨pub, bytes, hb, ?_, ?_⟩
  · rw [he, AList.lookup_insert]
  · rw [hd _ hA.path_payloadTmp hA.path_manifestTmp, if_neg hA.path_manifest, if_pos rfl]

omit [DecidableEq F] in
/-- What `open` finds under the path of a payload that was published. -/
theorem Publication.found (pub : Publication S fingerprint key payloadHash result draw)
    (disk : Disk) : S.found disk (S.path key) = disk.lookup (S.path key) := by
  rw [Setup.found, pub.taken]
  rfl

/-- The result `r` is read back as `r'`, and `_check` computes its canonical bytes. -/
structure Codec.Stable (C : Codec R E) (r r' : R) : Prop where
  reads : ∀ {info b}, C.fileBytes r info = .ok b → ∃ info',
    C.readFile (some (.file b)) = .ok (some (r', info')) ∧ C.validateStructure r' info' = .ok true
  canonical : ∀ {body}, C.canonicalBytes r = .ok body → C.checkedBytes r' = .ok body
  count : C.recordCount r' = C.recordCount r

omit [DecidableEq F] in
theorem pyText_natCast {n : ℕ} (h : (natText n).length ≤ S.interp.maxDigits) :
    pyText (E := E) S (.int n) = .ok (lengthText n) := by
  rw [pyText, pyStr, intRepr, Int.natAbs_natCast, if_neg (not_lt.2 h)]
  rfl

/-- The lengths of an entry that stands in a manifest have a text. -/
theorem Publication.digits (pub : Publication S fingerprint key payloadHash result draw)
    {entries : Entries F} {b : ByteArray}
    (hb : manifestBytes S fingerprint (entries.insert key pub.entry) = .ok b) {f : Str} {n : ℕ}
    (hf : pub.entry.field f = .int n) : (natText n).length ≤ S.interp.maxDigits := by
  obtain ⟨t, ht⟩ := field_written hb (AList.lookup_insert _) hf nofun
  exact (encode_int.1 ht).1

/-- **The result of a commit is loaded**, if its canonical bytes survive the file. -/
theorem Publication.load_published (hC : S.codec.ReadsBack)
    (pub : Publication S fingerprint key payloadHash result draw) {r' : R}
    (hstable : S.codec.Stable result r') {entries : Entries F} {b : ByteArray}
    (hb : manifestBytes S fingerprint (entries.insert key pub.entry) = .ok b) {s : Store F}
    (he : s.entries.lookup key = some pub.entry)
    (hd : s.disk.lookup (S.path key) = some (.file pub.bytes)) :
    load S fingerprint s key payloadHash = .ok r' := by
  obtain ⟨info', hread, hvalid⟩ := hstable.reads pub.file
  obtain ⟨r'', info'', hread', hid⟩ := pub.reads hC
  obtain ⟨rfl, rfl⟩ := Prod.mk.inj (Option.some.inj (Except.ok.inj (hread.symm.trans hread')))
  obtain ⟨body, hbody, hdigest, hlen, hcount⟩ := digestOf_ok.1 pub.prepared.digested
  have htext : ∀ {f : Str} {n : ℕ}, pub.entry.field f = .int n →
      pyText (E := E) S (.int n) = .ok (lengthText n) :=
    fun hf => pyText_natCast (pub.digits hb hf)
  refine load_ok.2 ⟨info', pub.entry, he, pub.entry_hash hC, pub.prepared.safe,
    by rw [pub.found, hd, hread],
    hid.payload_hash, hid.content_key, hid.fingerprint, hid.schema_version, hvalid, pub.digest,
    pub.byteLen, pub.count, ?_, hid.result_digest, hid.byte_len, hid.record_count, ?_,
    pub.entry_digest hC, ?_, ?_⟩
  · exact digestOf_ok.2 ⟨body, hstable.canonical hbody, hdigest, hlen, by rw [hcount, hstable.count]⟩
  · rw [Meta.field, hid.generation_id, pub.entry_generation hC]
  · rw [pub.entry_len hC]
    exact htext (pub.entry_len hC)
  · rw [pub.entry_count hC]
    exact htext (pub.entry_count hC)

end

end ResumableBatch
