/-
  The manifest: what is read of it is what was written (`readManifest_written`), and so
  are the entries that are admitted (`readEntries_written`).
-/
import ResumableBatch.Lib.JsonStrings
import ResumableBatch.Proof.Commit
import ResumableBatch.Proof.Names

namespace ResumableBatch

open Text Json

variable {F R E : Type}

/-! ## Entries -/

/-- The entry as it is read back. -/
def Entry.sorted (entry : Entry F) : Entry F := .ofList (sortByKey entry.sortKeys.toList)

section
variable [DecidableEq F]

/-- An entry that a manifest can hold. -/
structure EntryOk (key : Str) (entry : Entry F) : Prop where
  safe : isSafeKey key
  json : (Value.dict entry).IsJson
  strings : entry.Strings NoPair
  fields : ∀ f ∈ [lit "payload_hash", lit "generation_id", lit "result_digest"],
    ∃ v, entry.field f = .str v

def EntriesOk (entries : Entries F) : Prop :=
  ∀ key entry, entries.lookup key = some entry → EntryOk key entry

/-- Two entries agree in all fields that are no containers. -/
def Entry.Same (entry entry' : Entry F) : Prop :=
  ∀ (f : Str) (v : PyVal F), v.IsAtom → (entry'.field f = v ↔ entry.field f = v)

theorem Entry.Same.refl (entry : Entry F) : entry.Same entry := fun _ _ _ => Iff.rfl

theorem Entry.Same.trans {e₁ e₂ e₃ : Entry F} (h : e₁.Same e₂) (h' : e₂.Same e₃) : e₁.Same e₃ :=
  fun f v hv => (h' f v hv).trans (h f v hv)

theorem field_sorted {entry : Entry F} (h : (Value.dict entry).IsJson) (f : Str) :
    entry.sorted.field f = (entry.field f).sortKeys := by
  rw [Entry.field, Entry.field, Entry.sorted, Value.get_sorted h.1.2]
  cases Value.get (Key.str f) entry <;> rfl

theorem same_sorted {entry : Entry F} (h : (Value.dict entry).IsJson) : entry.Same entry.sorted :=
  fun f v hv => by rw [field_sorted h, Value.sortKeys_eq_atom hv]

end

/-! ## Strings of a manifest -/

theorem noPair_of_lt {s : Str} (h : ∀ c ∈ s, c.val < 0xd800) : NoPair s := by
  induction s with
  | nil => exact .nil
  | cons c s ih =>
    rw [List.forall_mem_cons] at h
    refine List.isChain_cons.2 ⟨fun d _ hp => ?_, ih h.2⟩
    have := hp.1.1
    omega

theorem noPair_of_scalar {s : Str} (h : Scalar s) : NoPair s := by
  induction s with
  | nil => exact .nil
  | cons c s ih =>
    rw [Scalar, List.forall_mem_cons] at h
    refine List.isChain_cons.2 ⟨fun d _ hp => ?_, ih h.2⟩
    obtain ⟨h₁, h₂⟩ := hp.1
    have := h.1
    unfold Nat.isValidChar at this
    omega

theorem noPair_lit {s : String} (h : s.toList.all fun c => 32 ≤ c.toNat ∧ c.toNat < 128) :
    NoPair (lit s) :=
  noPair_of_lt fun c hc => (lit_chars h c hc).2.trans (by decide)

theorem isKeyChar_lt {c : Code} (h : isKeyChar c) : c.val < 128 := by
  simp only [isKeyChar, isAlnum, decide_eq_true_eq] at h
  have hle : ∀ {d : Code}, c ≤ d → d.val < 128 → c.val < 128 := fun h h' => lt_of_le_of_lt h h'
  rcases h with ((h | h | h) | h | h | h)
  · exact hle h.2 (by decide)
  · exact hle h.2 (by decide)
  · exact hle h.2 (by decide)
  all_goals
    rw [h]
    decide

theorem noPair_key {key : Str} (h : isSafeKey key) : NoPair key :=
  noPair_of_lt fun c hc => (isKeyChar_lt ((isSafeKey_chars h).2 c hc)).trans (by decide)

/-! ## The document -/

/-- The value of `"entries"`. -/
def entriesValue (entries : Entries F) : Value F .members :=
  .ofList (entries.entries.map fun p => (.str p.1, .dict p.2))

theorem entriesValue_nodup (entries : Entries F) :
    ((entriesValue entries).toList.map Prod.fst).Nodup := by
  rw [entriesValue, Value.toList_ofList, List.map_map]
  have hkeys := entries.nodupKeys
  rw [List.NodupKeys, List.keys] at hkeys
  have : entries.entries.map (Prod.fst ∘ fun p => ((.str p.1 : Key F), (.dict p.2 : PyVal F))) =
      (entries.entries.map Sigma.fst).map Key.str := by rw [List.map_map]; rfl
  rw [this]
  exact hkeys.map fun a b h => Key.str.inj h

/-- The members of a manifest. -/
def manifestMembers (fingerprint : Str) (entries : Entries F) : Value F .members :=
  .ofList [(.str (lit "schema_version"), .int schemaVersion),
    (.str (lit "fingerprint"), .str fingerprint),
    (.str (lit "entries"), .dict (entriesValue entries))]

theorem manifestMembers_nodup (fingerprint : Str) (entries : Entries F) :
    ((manifestMembers fingerprint entries).toList.map Prod.fst).Nodup := by
  rw [manifestMembers, Value.toList_ofList]
  exact List.Nodup.map (fun a b h => Key.str.inj h)
    (l := [lit "schema_version", lit "fingerprint", lit "entries"]) (by decide)

theorem mem_entries {entries : Entries F} {p : Sigma fun _ : Str => Entry F}
    (h : p ∈ entries.entries) :
    entries.lookup p.1 = some p.2 :=
  AList.mem_lookup_iff.2 h

/-- The entries as they are read back, in the order of the text. -/
theorem entriesValue_read (entries : Entries F) :
    (Value.ofList (sortByKey (entriesValue entries).sortKeys.toList)).toList.Perm
      (entries.entries.map fun p => ((.str p.1 : Key F), (.dict p.2.sorted : PyVal F))) := by
  rw [Value.toList_ofList]
  refine (sortByKey_perm _).trans (List.Perm.of_eq ?_)
  rw [Value.toList_sortKeys, entriesValue, Value.toList_ofList, List.map_map]
  rfl

/-- The entry that an item is. -/
def entryItem : Key F × PyVal F → Option (Sigma fun _ : Str => Entry F)
  | (.str key, .dict entry) => some ⟨key, entry⟩
  | _ => none

theorem entriesOf_eq (items : Value F .members) :
    entriesOf items = (items.toList.filterMap entryItem).toAList := rfl

/-- The map of some items. -/
theorem lookup_entriesOf {items : Value F .members} {l : List (Sigma fun _ : Str => Entry F)}
    (h : items.toList.Perm (l.map fun p => (.str p.1, .dict p.2))) (hnd : l.NodupKeys) (k : Str) :
    (entriesOf items).lookup k = l.dlookup k := by
  have hperm := h.filterMap entryItem
  have hid : l.filterMap (entryItem ∘ fun p : Sigma fun _ : Str => Entry F =>
      ((.str p.1 : Key F), (.dict p.2 : PyVal F))) = l := List.filterMap_some
  rw [List.filterMap_map, hid] at hperm
  rw [entriesOf_eq, AList.lookup_to_alist]
  exact List.perm_dlookup k ((List.perm_nodupKeys hperm).2 hnd) hperm

theorem manifestBytes_ok {S : Setup F R E} {fingerprint : Str} {entries : Entries F} {b : ByteArray} :
    manifestBytes S fingerprint entries = .ok b ↔ ∃ text,
      dumps S.interp true (manifestDoc fingerprint entries) = .ok text ∧
        encodeUtf8 text = some b := by
  unfold manifestBytes
  rcases dumps S.interp true (manifestDoc fingerprint entries) with e | text
  · simp
  · cases hb : encodeUtf8 text <;> simp [hb]

section
variable [DecidableEq F] {entries : Entries F} {fingerprint : Str}

theorem manifest_isJson (he : EntriesOk entries) :
    (Value.dict (manifestMembers fingerprint entries)).IsJson := by
  refine ⟨⟨?_, manifestMembers_nodup fingerprint entries⟩, trivial, trivial, ⟨⟨?_, ?_⟩, ?_⟩, trivial⟩
  · rw [manifestMembers, Value.toList_ofList]
    simp [Key.isStr]
  · intro q hq
    rw [entriesValue, Value.toList_ofList] at hq
    obtain ⟨p, -, rfl⟩ := List.mem_map.1 hq
    rfl
  · exact entriesValue_nodup entries
  · rw [Value.isJson_members, entriesValue, Value.toList_ofList]
    intro q hq
    obtain ⟨p, hp, rfl⟩ := List.mem_map.1 hq
    exact (he _ _ (mem_entries hp)).json

theorem manifest_strings (hfp : NoPair fingerprint) (he : EntriesOk entries) :
    (Value.dict (manifestMembers fingerprint entries)).Strings NoPair := by
  refine ⟨noPair_lit rfl, trivial, noPair_lit rfl, hfp, noPair_lit rfl, ?_, trivial⟩
  refine (Value.strings_members _).2 fun q hq => ?_
  rw [entriesValue, Value.toList_ofList] at hq
  obtain ⟨p, hp, rfl⟩ := List.mem_map.1 hq
  exact ⟨noPair_key (he _ _ (mem_entries hp)).safe, (he _ _ (mem_entries hp)).strings⟩

variable (S : Setup F R E)

/-- The entries that are loaded from what stands under the name of the manifest. -/
def readEntries (fingerprint : Str) (node : Option Node) : Option (Entries F) :=
  match readManifest (E := E) S node with
  | .ok raw => raw.bind (admitted S fingerprint)
  | .error _ => none

variable {S}

theorem readEntries_eq {node : Option Node} {raw : PyVal F}
    (h : readManifest (E := E) S node = .ok (some raw)) :
    readEntries S fingerprint node = admitted S fingerprint raw := by
  rw [readEntries, h]
  rfl

/-- What was dumped is read back. -/
theorem readManifest_written (hfp : NoPair fingerprint) (he : EntriesOk entries) {b : ByteArray}
    (h : manifestBytes S fingerprint entries = .ok b) : readManifest (E := E) S (some (.file b)) =
      .ok (some (.dict (.ofList
        (sortByKey (manifestMembers fingerprint entries).sortKeys.toList)))) := by
  obtain ⟨text, htext, hb⟩ := manifestBytes_ok.1 h
  have hload := loads_dumps_strings S.interp htext (manifest_isJson he)
    fun _ => manifest_strings hfp he
  have hret : carriageReturn ∉ text := by
    obtain ⟨t, -, rfl, -⟩ := dumps_ok S.interp htext
    exact fun hc => absurd (render_chars S.interp t _ hc) (by decide)
  rw [readManifest]
  simp only [decodeUtf8_encodeUtf8 hb, universalNewlines_of_not_mem hret, hload]
  rfl

/-- **The manifest is admitted as it was written.** -/
theorem admitted_written (he : EntriesOk entries) : ∃ D : Entries F,
    admitted S fingerprint (.dict (.ofList
      (sortByKey (manifestMembers fingerprint entries).sortKeys.toList))) = some D ∧
    ∀ k, D.lookup k = (entries.lookup k).map Entry.sorted := by
  have hget : ∀ {k v}, (k, v) ∈ (manifestMembers fingerprint entries).toList → Value.get k
      (.ofList (sortByKey (manifestMembers fingerprint entries).sortKeys.toList)) =
        some v.sortKeys := by
    intro k v hmem
    rw [Value.get_sorted (manifestMembers_nodup fingerprint entries),
      (Value.get_iff (manifestMembers_nodup fingerprint entries)).2 hmem]
    rfl
  have hread := entriesValue_read entries
  have hmap : entries.entries.map (fun p => ((.str p.1 : Key F), (.dict p.2.sorted : PyVal F))) =
      (entries.entries.map (Sigma.map id fun _ => Entry.sorted :
        (Sigma fun _ : Str => Entry F) → Sigma fun _ : Str => Entry F)).map
        fun p => (.str p.1, .dict p.2) := by
    rw [List.map_map]
    rfl
  have hentries : Value.get (.str (lit "entries")) (.ofList
      (sortByKey (manifestMembers fingerprint entries).sortKeys.toList)) =
        some (.dict (.ofList (sortByKey (entriesValue entries).sortKeys.toList))) :=
    hget (v := .dict (entriesValue entries)) (by simp [manifestMembers, Value.toList_ofList])
  have hfp : Entry.field (.ofList (sortByKey
      (manifestMembers fingerprint entries).sortKeys.toList)) (lit "fingerprint") =
        .str fingerprint := by
    rw [Entry.field, hget (v := .str fingerprint) (by simp [manifestMembers, Value.toList_ofList])]
    rfl
  have hschema : Entry.field (.ofList (sortByKey
      (manifestMembers fingerprint entries).sortKeys.toList)) (lit "schema_version") =
        .int schemaVersion := by
    rw [Entry.field, hget (v := .int schemaVersion) (by simp [manifestMembers, Value.toList_ofList])]
    rfl
  have hwell : entriesWellFormed
      (.ofList (sortByKey (entriesValue entries).sortKeys.toList)) = true := by
    refine List.all_eq_true.2 fun q hq => ?_
    obtain ⟨p, hp, rfl⟩ := List.mem_map.1 (hread.mem_iff.1 hq)
    have hok := he _ _ (mem_entries hp)
    have hfields : ∀ f ∈ [lit "payload_hash", lit "generation_id", lit "result_digest"],
        ∃ v, p.2.sorted.field f = .str v := by
      intro f hf
      obtain ⟨v, hv⟩ := hok.fields f hf
      exact ⟨v, by rw [field_sorted hok.json, hv]; rfl⟩
    simp only [hok.safe, Bool.true_and, List.all_eq_true]
    intro f hf
    obtain ⟨v, hv⟩ := hfields f hf
    rw [hv]
  refine ⟨entriesOf (.ofList (sortByKey (entriesValue entries).sortKeys.toList)), ?_, fun k => ?_⟩
  · simp only [admitted, hentries]
    rw [if_pos ⟨hfp, by rw [hschema, eqInt]; exact decide_eq_true rfl, hwell⟩]
  · rw [lookup_entriesOf (hread.trans (.of_eq hmap)), List.dlookup_map₂]
    · rfl
    · rw [List.NodupKeys, List.keys, List.map_map]
      exact entries.nodupKeys

/-- **What was written is loaded.** -/
theorem readEntries_written (hfp : NoPair fingerprint) (he : EntriesOk entries) {b : ByteArray}
    (h : manifestBytes S fingerprint entries = .ok b) : ∃ D : Entries F,
    readEntries S fingerprint (some (.file b)) = some D ∧
      ∀ k, D.lookup k = (entries.lookup k).map Entry.sorted := by
  obtain ⟨D, hD, hlookup⟩ := @admitted_written _ _ _ _ _ fingerprint S he
  exact ⟨D, (readEntries_eq (readManifest_written hfp he h)).trans hD, hlookup⟩

/-- The fields of an entry that was written have documents. -/
theorem field_written {b : ByteArray} (h : manifestBytes S fingerprint entries = .ok b) {key : Str}
    {entry : Entry F} (hentry : entries.lookup key = some entry) {f : Str} {v : PyVal F}
    (hv : entry.field f = v) (hne : v ≠ .none) : ∃ t : Tree F .value, encode S.interp v = .ok t := by
  obtain ⟨text, htext, -⟩ := manifestBytes_ok.1 h
  obtain ⟨t, ht, -⟩ := dumps_ok S.interp htext
  have hkey : Value.get (.str key) (entriesValue entries) = some (.dict entry) := by
    rw [Value.get_iff (entriesValue_nodup entries), entriesValue, Value.toList_ofList]
    exact List.mem_map.2 ⟨⟨key, entry⟩, AList.mem_lookup_iff.1 hentry, rfl⟩
  obtain ⟨es, hes⟩ := encode_get S.interp ht (k := .str (lit "entries"))
    (v := .dict (entriesValue entries)) rfl
  obtain ⟨e, he⟩ := encode_get S.interp hes hkey
  refine encode_get S.interp he (k := .str f) ?_
  rw [Entry.field] at hv
  cases hget : Value.get (Key.str f) entry with
  | none =>
    rw [hget] at hv
    exact absurd hv.symm hne
  | some w =>
    rw [hget] at hv
    exact congrArg some hv

/-- The entry holds no containers, and its numbers have texts. -/
def Entry.Writable (I : Interp F) (entry : Entry F) : Prop :=
  ∀ p ∈ entry.toList, p.2.depth = 0 ∧ ∃ t : Tree F .value, encode I p.2 = .ok t

theorem entriesValue_writable {I : Interp F} (he : EntriesOk entries)
    (hw : ∀ key entry, entries.lookup key = some entry → entry.Writable I) :
    ∀ p ∈ (entriesValue entries).toList, p.2.depth ≤ 1 ∧
      ∃ t : Tree F .value, encode I p.2 = .ok t := by
  rw [entriesValue, Value.toList_ofList]
  refine List.forall_mem_map.2 fun p hp => ⟨?_, ?_⟩
  · rw [Value.depth, Nat.add_le_add_iff_right, Value.depth_members]
    exact fun q hq => (hw _ _ (mem_entries hp) q hq).1.le
  · exact (encodes_dict I (he _ _ (mem_entries hp)).json.1.1).2
      fun q hq => (hw _ _ (mem_entries hp) q hq).2

/-- **The manifest of such entries can be written.** -/
theorem manifestBytes_writable (he : EntriesOk entries) (hdigits : 1 ≤ S.interp.maxDigits)
    (hw : ∀ key entry, entries.lookup key = some entry → entry.Writable S.interp) :
    ∃ b, manifestBytes S fingerprint entries = .ok b := by
  have hentry := entriesValue_writable he hw
  obtain ⟨⟨hstr, -⟩, -, -, ⟨⟨hkeys, -⟩, -⟩, -⟩ :
    (Value.dict (manifestMembers fingerprint entries)).IsJson :=
    manifest_isJson he
  have hmember : ∀ p ∈ (manifestMembers fingerprint entries).toList, p.2.depth ≤ 2 ∧
      ∃ t : Tree F .value, encode S.interp p.2 = .ok t := by
    rw [manifestMembers, Value.toList_ofList]
    simp only [List.forall_mem_cons, List.not_mem_nil, false_imp_iff, implies_true, and_true]
    refine ⟨⟨Nat.zero_le _, _, encode_int.2 ⟨hdigits, rfl⟩⟩, ⟨Nat.zero_le _, _, rfl⟩, ?_, ?_⟩
    · rw [Value.depth, Nat.add_le_add_iff_right, Value.depth_members]
      exact fun p hp => (hentry p hp).1
    · exact (encodes_dict _ hkeys).2 fun p hp => (hentry p hp).2
  obtain ⟨t, ht⟩ := (encodes_dict S.interp hstr).2 fun p hp => (hmember p hp).2
  obtain ⟨b, hb⟩ := encodeUtf8_isSome.2 (scalar_render_ascii S.interp t)
  have hdepth : (manifestDoc fingerprint entries).depth ≤ S.interp.encodeDepth := by
    refine le_trans ?_ (S.interp.three_le.trans S.interp.inner_le)
    show (Value.dict (manifestMembers fingerprint entries)).depth ≤ 3
    rw [Value.depth, Nat.add_le_add_iff_right, Value.depth_members]
    exact fun p hp => (hmember p hp).1
  exact ⟨b, manifestBytes_ok.2 ⟨_, dumps_of_encode S.interp hdepth ht, hb⟩⟩

/-! ## What is loaded -/

theorem readManifest_ok {node : Option Node} {raw : PyVal F}
    (h : readManifest (E := E) S node = .ok (some raw)) : raw.IsJson ∧ raw.Strings NoPair := by
  unfold readManifest at h
  split at h
  · rename_i bytes
    split at h
    · cases h
    · rename_i text htext
      split at h
      · rename_i v hload
        cases h
        obtain ⟨hjson, hstr⟩ := loads_ok S.interp hload
        exact ⟨hjson, hstr (scalar_universalNewlines
          (encodeUtf8_isSome.1 ⟨_, encodeUtf8_decodeUtf8 htext⟩))⟩
      · cases h
      · cases h
  · cases h

theorem get_json {k : Key F} {ms : Value F .members} {v : PyVal F} (hjson : (Value.dict ms).IsJson)
    (hstr : (Value.dict ms).Strings NoPair) (h : Value.get k ms = some v) :
    v.IsJson ∧ v.Strings NoPair := by
  have hmem := (Value.get_iff hjson.1.2).1 h
  exact ⟨(Value.isJson_members ms).1 hjson.2 _ hmem, ((Value.strings_members ms).1 hstr _ hmem).2⟩

/-- **What is loaded can be written again.** -/
theorem readEntries_ok {node : Option Node} {D : Entries F}
    (h : readEntries S fingerprint node = some D) : NoPair fingerprint ∧ EntriesOk D := by
  unfold readEntries at h
  split at h
  case h_2 => cases h
  rename_i raw hraw
  cases raw with
  | none => cases h
  | some raw =>
    obtain ⟨hjson, hstr⟩ := readManifest_ok hraw
    simp only [Option.bind_some, admitted] at h
    split at h
    case h_2 => cases h
    rename_i doc
    split at h
    case h_2 => cases h
    rename_i items hget
    split_ifs at h with hadm
    obtain ⟨hfp, -, hwell⟩ := hadm
    cases h
    obtain ⟨hjson', hstr'⟩ := get_json hjson hstr hget
    constructor
    · unfold Entry.field at hfp
      cases hf : Value.get (.str (lit "fingerprint")) doc with
      | none => rw [hf] at hfp; cases hfp
      | some v =>
        rw [hf] at hfp
        obtain rfl : v = .str fingerprint := hfp
        exact (get_json hjson hstr hf).2
    · intro key entry hlookup
      rw [entriesOf_eq, AList.lookup_to_alist] at hlookup
      obtain ⟨q, hq, hitem⟩ := List.mem_filterMap.1 (List.of_mem_dlookup hlookup)
      obtain ⟨k, v⟩ := q
      have hqe : k = .str key ∧ v = .dict entry := by
        unfold entryItem at hitem
        split at hitem
        · rename_i heq
          cases hitem
          exact Prod.mk.inj heq
        · cases hitem
      obtain ⟨rfl, rfl⟩ := hqe
      have hw := List.all_eq_true.1 hwell _ hq
      simp only [Bool.and_eq_true, List.all_eq_true] at hw
      refine ⟨hw.1, (Value.isJson_members items).1 hjson'.2 _ hq,
        ((Value.strings_members items).1 hstr' _ hq).2, fun f hf => ?_⟩
      have hfield := hw.2 f hf
      split at hfield
      · exact ⟨_, ‹_›⟩
      · cases hfield

end

end ResumableBatch
