/-
  The JSONL file format.

  * `Written`: the text of a file that was written, line by line;
  * `readFile_written`: what is read of it;
  * `jsonl_round_trip`: for JSON values that is what was written.
-/
import ResumableBatch.Lib.JsonCanonical
import ResumableBatch.Stores.Jsonl

namespace ResumableBatch

open Text Json

variable {F E : Type} {I : Interp F}

/-! ## Lines -/

theorem utf8_ok {text : Str} {b : ByteArray} :
    utf8 (E := E) text = .ok b ↔ encodeUtf8 text = some b := by
  unfold utf8
  cases encodeUtf8 text <;> simp

theorem canonicalText_ok {v : PyVal F} {s : Str} :
    canonicalText (E := E) I v = .ok s ↔ dumps I false v = .ok s :=
  Except.mapError_ok

theorem newline_bytes : encodeUtf8 [newline] = some "\n".toByteArray :=
  encodeUtf8_lit "\n"

/-- A line of the file, as text. -/
structure Line (I : Interp F) (v : PyVal F) (s : Str) (b : ByteArray) : Prop where
  text : dumps I false v = .ok s
  bytes : encodeUtf8 (s ++ [newline]) = some b

theorem lineBytes_ok {v : PyVal F} {b : ByteArray} :
    lineBytes (E := E) I v = .ok b ↔ ∃ s, Line I v s b := by
  unfold lineBytes
  rw [Except.bind_ok]
  constructor
  · rintro ⟨s, hs, hb⟩
    exact ⟨s, canonicalText_ok.1 hs, utf8_ok.1 hb⟩
  · rintro ⟨s, hs, hb⟩
    exact ⟨s, canonicalText_ok.2 hs, utf8_ok.2 hb⟩

/-- The canonical bytes are those of the lines. -/
theorem canonicalRecordBytes_eq (records : List (PyVal F)) :
    canonicalRecordBytes (E := E) I records = (do
      return joinBytes (← records.mapM (lineBytes I))) := by
  have hline : ∀ v : PyVal F, (do
      return (← utf8 (E := E) (← canonicalText I v)) ++ "\n".toByteArray) = lineBytes I v := by
    intro v
    unfold lineBytes
    cases hs : canonicalText (E := E) I v with
    | error e => rfl
    | ok s =>
      simp only [bind, Except.bind, utf8]
      cases hb : encodeUtf8 s with
      | none =>
        have hnone : encodeUtf8 (s ++ [newline]) = none := by
          rw [Option.eq_none_iff_forall_not_mem]
          intro b h
          obtain ⟨x, y, hx, -⟩ := encodeUtf8_append.1 h
          rw [hb] at hx
          cases hx
        rw [hnone]
      | some x =>
        rw [encodeUtf8_append.2 ⟨x, _, hb, newline_bytes, rfl⟩]
        rfl
  unfold canonicalRecordBytes
  simp only [hline]

theorem jsonlFileBytes_eq (records : List (PyVal F)) (info : Meta) :
    jsonlFileBytes (E := E) I records info = (do
      let header ← lineBytes I (headerDoc info)
      return header ++ (← canonicalRecordBytes I records)) := by
  unfold jsonlFileBytes
  rw [canonicalRecordBytes_eq]
  simp only [bind_assoc, pure_bind]

/-- Encoded lines, joined, are the encoded text. -/
theorem encode_lines {texts : List Str} {parts : List ByteArray}
    (h : List.Forall₂ (fun s b => encodeUtf8 (s ++ [newline]) = some b) texts parts) :
    encodeUtf8 (unlines texts) = some (joinBytes parts) := by
  induction h with
  | nil => exact encodeUtf8_lit ""
  | cons hs _ ih => exact encodeUtf8_append.2 ⟨_, _, hs, ih, rfl⟩

theorem encode_lines_inv {texts : List Str} {b : ByteArray}
    (h : encodeUtf8 (unlines texts) = some b) : ∃ parts, joinBytes parts = b ∧
      List.Forall₂ (fun s b => encodeUtf8 (s ++ [newline]) = some b) texts parts := by
  induction texts generalizing b with
  | nil =>
    have hnil : encodeUtf8 [] = some b := h
    rw [show ([] : Str) = lit "" from rfl, encodeUtf8_lit] at hnil
    cases hnil
    exact ⟨[], rfl, .nil⟩
  | cons s texts ih =>
    obtain ⟨x, y, hx, hy, rfl⟩ := encodeUtf8_append.1 h
    obtain ⟨parts, rfl, hparts⟩ := ih hy
    exact ⟨x :: parts, rfl, .cons hx hparts⟩

theorem lines_ok {records : List (PyVal F)} {parts : List ByteArray} :
    records.mapM (lineBytes (E := E) I) = .ok parts ↔ ∃ texts,
      List.Forall₂ (fun v s => dumps I false v = .ok s) records texts ∧
      List.Forall₂ (fun s b => encodeUtf8 (s ++ [newline]) = some b) texts parts := by
  rw [Except.mapM_eq_ok]
  constructor
  · intro h
    induction h with
    | nil => exact ⟨[], .nil, .nil⟩
    | cons hv _ ih =>
      obtain ⟨s, hs⟩ := lineBytes_ok.1 hv
      obtain ⟨texts, h₁, h₂⟩ := ih
      exact ⟨s :: texts, .cons hs.text h₁, .cons hs.bytes h₂⟩
  · rintro ⟨texts, h₁, h₂⟩
    induction h₁ generalizing parts with
    | nil => cases h₂; exact .nil
    | cons hs _ ih =>
      cases h₂ with
      | cons hb h₂ => exact .cons (lineBytes_ok.2 ⟨_, hs, hb⟩) (ih h₂)

/-- **The canonical bytes** are the encoded text of the lines of the records. -/
theorem canonicalRecordBytes_ok {records : List (PyVal F)} {body : ByteArray} :
    canonicalRecordBytes (E := E) I records = .ok body ↔ ∃ texts,
      List.Forall₂ (fun v s => dumps I false v = .ok s) records texts ∧
      encodeUtf8 (unlines texts) = some body := by
  rw [canonicalRecordBytes_eq, Except.bind_ok]
  constructor
  · rintro ⟨parts, hparts, hbody⟩
    obtain ⟨texts, h₁, h₂⟩ := lines_ok.1 hparts
    cases hbody
    exact ⟨texts, h₁, encode_lines h₂⟩
  · rintro ⟨texts, h₁, h₂⟩
    obtain ⟨parts, rfl, hparts⟩ := encode_lines_inv h₂
    exact ⟨parts, lines_ok.2 ⟨texts, h₁, hparts⟩, rfl⟩

/-- A text that `dumps` writes is one line, and not empty. -/
theorem dumps_line {v : PyVal F} {s : Str} (h : dumps I false v = .ok s) :
    s ≠ [] ∧ newline ∉ s ∧ carriageReturn ∉ s := by
  obtain ⟨t, -, rfl, -⟩ := dumps_ok I h
  refine ⟨?_, fun hc => ?_, fun hc => ?_⟩
  · obtain ⟨c, r, hr, -⟩ := render_head I false t
    rw [hr]
    exact List.cons_ne_nil c r
  · exact absurd (render_chars I t _ hc) (by decide)
  · exact absurd (render_chars I t _ hc) (by decide)

theorem unlines_inj {texts texts' : List Str} (h : ∀ s ∈ texts, newline ∉ s)
    (h' : ∀ s ∈ texts', newline ∉ s) (he : unlines texts = unlines texts') : texts = texts' := by
  have := congrArg (fun s : Str => s.splitOn newline) he
  simp only [splitOn_unlines h, splitOn_unlines h'] at this
  exact (List.append_left_inj _).1 this

/-- **The canonical bytes determine the records**: they have the same documents. -/
theorem canonicalRecordBytes_inj {records records' : List (PyVal F)} {body : ByteArray}
    (h : canonicalRecordBytes (E := E) I records = .ok body)
    (h' : canonicalRecordBytes (E := E) I records' = .ok body) : List.Forall₂
      (fun v v' => ∃ t : Tree F .value, encode I v = .ok t ∧ encode I v' = .ok t)
      records records' := by
  obtain ⟨texts, ht, hb⟩ := canonicalRecordBytes_ok.1 h
  obtain ⟨texts', ht', hb'⟩ := canonicalRecordBytes_ok.1 h'
  have hline : ∀ {records : List (PyVal F)} {texts : List Str},
      List.Forall₂ (fun v s => dumps I false v = .ok s) records texts →
        ∀ s ∈ texts, newline ∉ s := fun {_ _} ht s hs => by
    obtain ⟨v, -, hv⟩ := ht.mem_right hs
    exact (dumps_line hv).2.1
  obtain rfl := unlines_inj (hline ht) (hline ht') (encodeUtf8_inj hb hb')
  clear h h' hb hb'
  induction ht generalizing records' with
  | nil => cases ht'; exact .nil
  | cons hs _ ih =>
    cases ht' with
    | cons hs' ht' => exact .cons (dumps_inj I hs hs') (ih ht')

/-- A file that was written: its header, its lines, and their bytes. -/
structure Written (I : Interp F) (records : List (PyVal F)) (info : Meta) (b : ByteArray)
    (header : Str) (texts : List Str) : Prop where
  header_text : dumps I false (headerDoc info) = .ok header
  texts_text : List.Forall₂ (fun v s => dumps I false v = .ok s) records texts
  bytes : encodeUtf8 (unlines (header :: texts)) = some b

theorem jsonlFileBytes_ok {records : List (PyVal F)} {info : Meta} {b : ByteArray} :
    jsonlFileBytes (E := E) I records info = .ok b ↔ ∃ header texts,
      Written I records info b header texts := by
  rw [jsonlFileBytes_eq, Except.bind_ok]
  constructor
  · rintro ⟨hb, hheader, h⟩
    obtain ⟨body, hbody, h⟩ := Except.bind_ok.1 h
    cases h
    obtain ⟨header, hh⟩ := lineBytes_ok.1 hheader
    obtain ⟨texts, h₁, h₂⟩ := canonicalRecordBytes_ok.1 hbody
    exact ⟨header, texts, hh.text, h₁, encodeUtf8_append.2 ⟨_, _, hh.bytes, h₂, rfl⟩⟩
  · rintro ⟨header, texts, hw⟩
    obtain ⟨x, y, hx, hy, rfl⟩ := encodeUtf8_append.1 hw.bytes
    exact ⟨x, lineBytes_ok.2 ⟨header, hw.header_text, hx⟩,
      Except.bind_ok.2 ⟨y, canonicalRecordBytes_ok.2 ⟨texts, hw.texts_text, hy⟩, rfl⟩⟩

theorem headerDoc_depth (info : Meta) : (headerDoc (F := F) info).depth ≤ 2 := by
  have hmembers : (Value.ofList (info.entries.map fun p =>
    ((.str p.1 : Key F), .str p.2))).depth ≤ 0 := by
    rw [Value.depth_members, Value.toList_ofList]
    exact List.forall_mem_map.2 fun _ _ => le_rfl
  simp only [headerDoc, Value.depth]
  omega

/-- What is written with less of the stack left. -/
theorem jsonlFileBytes_within {J : Interp F} (h : J.Within I) {records : List (PyVal F)} {info : Meta}
    {b : ByteArray} (hb : jsonlFileBytes (E := E) I records info = .ok b)
    (hdepth : ∀ rec ∈ records, rec.depth ≤ J.encodeDepth) :
    jsonlFileBytes (E := E) J records info = .ok b := by
  obtain ⟨header, texts, hw⟩ := jsonlFileBytes_ok.1 hb
  have hheader : (headerDoc (F := F) info).depth ≤ J.encodeDepth :=
    (headerDoc_depth info).trans ((Nat.le_succ 2).trans (J.three_le.trans J.inner_le))
  have htexts := ((List.forall₂_and_left _ _).2 ⟨hdepth, hw.texts_text⟩).imp fun _ _ hv =>
    (dumps_within h).2 hv.symm
  exact jsonlFileBytes_ok.2
    ⟨header, texts, (dumps_within h).2 ⟨hw.header_text, hheader⟩, htexts, hw.bytes⟩

/-! ## Texts as lines -/

theorem unlines_no_return {texts : List Str} (h : ∀ s ∈ texts, carriageReturn ∉ s) :
    carriageReturn ∉ unlines texts := by
  intro hc
  obtain ⟨s, hs, hc⟩ := List.mem_flatMap.1 hc
  rcases List.mem_append.1 hc with hc | hc
  · exact h s hs hc
  · exact absurd (List.mem_singleton.1 hc) (by decide)

/-- The lines of a file that was written are read as they are. -/
theorem lines_of_written {texts : List Str} (h : ∀ s ∈ texts, newline ∉ s ∧ carriageReturn ∉ s) :
    dropTrailing ((universalNewlines (unlines texts)).splitOn newline) = texts := by
  rw [universalNewlines_of_not_mem (unlines_no_return fun s hs => (h s hs).2),
    splitOn_unlines fun s hs => (h s hs).1, dropTrailing, if_pos (by simp)]
  exact List.dropLast_concat

/-! ## The header -/

/-- The items of the identity block. -/
def Meta.items (info : Meta) : List (Key F × Str) :=
  info.entries.map fun p => (.str p.1, p.2)

theorem headerDoc_isJson (info : Meta) : (headerDoc (F := F) info).IsJson := by
  have hinner : (Value.dict (Value.ofList (info.entries.map fun p =>
      ((.str p.1 : Key F), (.str p.2 : PyVal F))))).IsJson := by
    refine ⟨⟨fun p hp => ?_, ?_⟩, (Value.isJson_members _).2 fun p hp => ?_⟩
    · rw [Value.toList_ofList] at hp
      obtain ⟨q, -, rfl⟩ := List.mem_map.1 hp
      rfl
    · rw [Value.toList_ofList, List.map_map]
      have hkeys := info.nodupKeys
      rw [List.NodupKeys, List.keys] at hkeys
      have : info.entries.map (Prod.fst ∘ fun p => ((.str p.1 : Key F), (.str p.2 : PyVal F))) =
          (info.entries.map Sigma.fst).map Key.str := by rw [List.map_map]; rfl
      rw [this]
      exact hkeys.map fun a b h => Key.str.inj h
    · rw [Value.toList_ofList] at hp
      obtain ⟨q, -, rfl⟩ := List.mem_map.1 hp
      trivial
  exact ⟨⟨fun p hp => by rw [List.mem_singleton.1 hp]; rfl, List.nodup_singleton _⟩, hinner, trivial⟩

/-- The identity block, as it is read. -/
theorem metaOf_sorted (info : Meta) : ∃ info', metaOf (E := E) I
    (.ofList ((sortByKey info.items).map fun p => ((p.1 : Key F), (.str p.2 : PyVal F)))) =
      .ok info' ∧ ∀ f, info'.lookup f = info.lookup f := by
  have hitems : ∀ {ps : List (Key F × Str)}, (ps.map fun p => (p.1, (.str p.2 : PyVal F))).mapM
      (fun p => do return (⟨p.1.asStr, ← (pyStr I p.2).mapError Raised.py⟩ :
        Sigma fun _ : Str => Str)) = (.ok (ps.map fun p => ⟨p.1.asStr, p.2⟩) :
          Except (Raised E) _) := by
    intro ps
    rw [Except.mapM_eq_ok, List.forall₂_map_left_iff, List.forall₂_map_right_iff,
      List.forall₂_same]
    exact fun p _ => rfl
  refine ⟨((sortByKey (info.items (F := F))).map fun p => ⟨p.1.asStr, p.2⟩).toAList, ?_, ?_⟩
  · rw [metaOf, Value.toList_ofList, hitems]
    rfl
  · intro f
    have hperm : ((sortByKey (info.items (F := F))).map fun p =>
        (⟨p.1.asStr, p.2⟩ : Sigma fun _ : Str => Str)).Perm info.entries := by
      have := (sortByKey_perm (info.items (F := F))).map fun p =>
        (⟨p.1.asStr, p.2⟩ : Sigma fun _ : Str => Str)
      rw [Meta.items, List.map_map] at this
      exact this.trans (by rw [show ((fun p : Key F × Str => (⟨p.1.asStr, p.2⟩ :
        Sigma fun _ : Str => Str)) ∘ fun p : Sigma fun _ : Str => Str => (.str p.1, p.2)) = id
          from rfl, List.map_id])
    have hnd := List.perm_nodupKeys hperm |>.2 info.nodupKeys
    rw [AList.lookup_to_alist]
    exact List.perm_dlookup f hnd hperm

/-! ## Reading what was written -/

section
variable [DecidableEq F]

theorem loadsQuietly_ok {s : Str} {v : PyVal F} (h : loads I s = .ok v) :
    loadsQuietly (E := E) I s = .ok (some v) := by
  rw [loadsQuietly, h]

theorem readRecords_ok {texts : List Str} {vs : List (PyVal F)}
    (h : List.Forall₂ (fun s v => s ≠ [] ∧ loads I s = .ok v) texts vs) :
    readRecords (E := E) I texts = .ok (some vs) := by
  induction h with
  | nil => rfl
  | cons hv _ ih =>
    rw [readRecords, if_neg hv.1, loadsQuietly_ok hv.2, ih]
    rfl

theorem headerDoc_read (info : Meta) : ∃ head : Value F .members,
    (headerDoc info).sortKeys = .dict head ∧ Value.get (.str metaKey) head =
      some (.dict (.ofList ((sortByKey info.items).map fun p => (p.1, .str p.2)))) := by
  have hsort : ∀ {qs : List (Sigma fun _ : Str => Str)}, (Value.ofList (qs.map fun p =>
      ((.str p.1 : Key F), (.str p.2 : PyVal F)))).sortKeys.toList =
        qs.map fun p => (.str p.1, .str p.2) := by
    intro qs
    induction qs with
    | nil => rfl
    | cons q qs ih => exact congrArg _ ih
  refine ⟨.item (.str metaKey) _ .empty, rfl, ?_⟩
  rw [Value.get, if_pos rfl, Value.sortKeys, hsort]
  have hitems : (info.entries.map fun p => ((.str p.1 : Key F), (.str p.2 : PyVal F))) =
      (info.items (F := F)).map fun p => (p.1, .str p.2) := by
    rw [Meta.items, List.map_map]
    rfl
  rw [hitems, sortByKey_map]

/-- **What is read of a file that was written**: the metadata, and the records as
    their documents are read. -/
theorem readFile_written {records : List (PyVal F)} {info : Meta} {b : ByteArray}
    (h : jsonlFileBytes (E := E) I records info = .ok b) : ∃ ts info',
      List.Forall₂ (fun v (t : Tree F .value) => encode I v = .ok t) records ts ∧
      jsonlReadFile (E := E) I (some (.file b)) = .ok (some (ts.map Tree.toValue, info')) ∧
      ∀ f, info'.lookup f = info.lookup f := by
  obtain ⟨header, texts, hw⟩ := jsonlFileBytes_ok.1 h
  obtain ⟨head, hhead, hget⟩ := headerDoc_read (F := F) info
  obtain ⟨info', hinfo, hlookup⟩ := metaOf_sorted (I := I) (E := E) info
  have hload := loads_dumps_json I hw.header_text (headerDoc_isJson info)
  rw [hhead] at hload
  -- the records, one by one
  have hrecords : ∃ ts : List (Tree F .value),
      List.Forall₂ (fun v t => encode I v = .ok t) records ts ∧
      List.Forall₂ (fun s v => s ≠ [] ∧ loads I s = .ok v) texts (ts.map Tree.toValue) := by
    have htexts := hw.texts_text
    clear hw h
    induction htexts with
    | nil => exact ⟨[], .nil, .nil⟩
    | cons hs _ ih =>
      obtain ⟨ts, h₁, h₂⟩ := ih
      obtain ⟨t, ht, -, hfine, -⟩ := dumps_ok I hs
      exact ⟨t :: ts, .cons ht h₁, .cons ⟨(dumps_line hs).1, loads_dumps I hs ht hfine⟩ h₂⟩
  obtain ⟨ts, hts, hread⟩ := hrecords
  refine ⟨ts, info', hts, ?_, hlookup⟩
  have hlines : ∀ s ∈ header :: texts, newline ∉ s ∧ carriageReturn ∉ s := by
    rw [List.forall_mem_cons]
    refine ⟨(dumps_line hw.header_text).2, fun s hs => ?_⟩
    obtain ⟨v, -, hv⟩ := hw.texts_text.mem_right hs
    exact (dumps_line hv).2
  simp only [jsonlReadFile, decodeUtf8_encodeUtf8 hw.bytes, readLines, lines_of_written hlines,
    loadsQuietly_ok hload, bind, Except.bind, hget, readRecords_ok hread, hinfo]
  rfl

/-- **The digest of records is stable** under writing and reading exactly if their
    documents are sorted. -/
theorem digest_stable {records : List (PyVal F)} {ts : List (Tree F .value)} {body : ByteArray}
    (hts : List.Forall₂ (fun v (t : Tree F .value) => encode I v = .ok t) records ts)
    (h : canonicalRecordBytes (E := E) I records = .ok body) :
    canonicalRecordBytes (E := E) I (ts.map Tree.toValue) = .ok body ↔ ∀ t ∈ ts, t.Sorted := by
  constructor
  · intro h' t ht
    have hsame := canonicalRecordBytes_inj h h'
    rw [List.forall₂_map_right_iff] at hsame
    have hboth := List.Forall₂.mp (fun _ _ => And.intro) hts hsame
    obtain ⟨v, -, hv, t', hv', ht'⟩ := hboth.mem_right ht
    obtain rfl : t = t' := Except.ok.inj (hv.symm.trans hv')
    exact encode_sorted I t.isJson_toValue ht'
  · intro hs
    obtain ⟨texts, htexts, hb⟩ := canonicalRecordBytes_ok.1 h
    refine canonicalRecordBytes_ok.2 ⟨texts, ?_, hb⟩
    rw [List.forall₂_map_left_iff]
    clear h hb
    induction hts generalizing texts with
    | nil => cases htexts; exact .nil
    | @cons v t records ts ht _ ih =>
      cases htexts with
      | cons hv htexts =>
        rw [List.forall_mem_cons] at hs
        refine .cons ?_ (ih hs.2 _ htexts)
        obtain ⟨t', ht', rfl, hfine, -⟩ := dumps_ok I hv
        obtain rfl : t = t' := Except.ok.inj (ht.symm.trans ht')
        have hdepth : t.toValue.depth ≤ I.encodeDepth := by
          refine t.depth_toValue.trans ((encode_depth_le I ht).2 ?_)
          unfold dumps at hv
          split_ifs at hv with hd
          exact not_lt.1 hd
        rw [dumps, if_neg (not_lt.2 hdepth), encode_toValue I hfine hs.1]
        rfl

omit [DecidableEq F] in
/-- What is rendered with less of the stack left. -/
theorem canonicalRecordBytes_within {J : Interp F} (h : J.Within I) {records : List (PyVal F)}
    {body : ByteArray} :
    canonicalRecordBytes (E := E) J records = .ok body ↔
      canonicalRecordBytes (E := E) I records = .ok body ∧
        ∀ rec ∈ records, rec.depth ≤ J.encodeDepth := by
  simp only [canonicalRecordBytes_ok, dumps_within h]
  constructor
  · rintro ⟨texts, htexts, hb⟩
    refine ⟨⟨texts, htexts.imp fun _ _ => And.left, hb⟩, fun rec hrec => ?_⟩
    obtain ⟨s, -, -, hs⟩ := htexts.mem_left hrec
    exact hs
  · rintro ⟨⟨texts, htexts, hb⟩, hdepth⟩
    exact ⟨texts, ((List.forall₂_and_left _ _).2 ⟨hdepth, htexts⟩).imp fun _ _ => And.symm, hb⟩

/-- `_check` finds the digest of the records exactly if their documents are sorted, and
    no record is nested deeper than it can encode. -/
theorem digest_checked {records : List (PyVal F)} {ts : List (Tree F .value)} {body : ByteArray}
    (hts : List.Forall₂ (fun v (t : Tree F .value) => encode I v = .ok t) records ts)
    (h : canonicalRecordBytes (E := E) I records = .ok body) :
    canonicalRecordBytes (E := E) I.inner (ts.map Tree.toValue) = .ok body ↔
      (∀ t ∈ ts, t.Sorted) ∧ ∀ rec ∈ records, rec.depth ≤ I.innerDepth := by
  rw [canonicalRecordBytes_within I.inner_within, digest_stable hts h]
  refine and_congr_right fun hs => ?_
  have hdepth : ∀ v t, v ∈ records → t ∈ ts → encode I v = .ok t →
      (t.toValue.depth ≤ I.innerDepth ↔ v.depth ≤ I.innerDepth) := by
    intro v t hv ht hvt
    obtain ⟨texts, htexts, -⟩ := canonicalRecordBytes_ok.1 h
    obtain ⟨s, -, hs'⟩ := htexts.mem_left hv
    obtain ⟨t', ht', -, hfine, -⟩ := dumps_ok I hs'
    obtain rfl : t = t' := Except.ok.inj (hvt.symm.trans ht')
    rw [(hs t ht).depth I hfine]
    exact encode_depth_le I hvt
  rw [List.forall_mem_map]
  constructor
  · intro hall v hv
    obtain ⟨t, ht, hvt⟩ := hts.mem_left hv
    exact (hdepth v t hv ht hvt).1 (hall t ht)
  · intro hall t ht
    obtain ⟨v, hv, hvt⟩ := hts.mem_right ht
    exact (hdepth v t hv ht hvt).2 (hall v hv)

/-- JSON values are read back with their dictionaries sorted. -/
theorem toValues_encode {records : List (PyVal F)} {ts : List (Tree F .value)}
    (hjson : ∀ r ∈ records, r.IsJson)
    (hts : List.Forall₂ (fun v (t : Tree F .value) => encode I v = .ok t) records ts) :
    ts.map Tree.toValue = records.map Value.sortKeys := by
  induction hts with
  | nil => rfl
  | cons ht _ ih =>
    rw [List.forall_mem_cons] at hjson
    rw [List.map_cons, List.map_cons, ih hjson.2]
    exact congrArg₂ _ (toValue_encode I hjson.1 ht) rfl

/-- JSON values are read back as they were written, but for the order of the items of
    their dictionaries. -/
theorem readFile_json {records : List (PyVal F)} {info : Meta} {b : ByteArray}
    (hjson : ∀ r ∈ records, r.IsJson) (h : jsonlFileBytes (E := E) I records info = .ok b) :
    ∃ info', jsonlReadFile (E := E) I (some (.file b)) =
        .ok (some (records.map Value.sortKeys, info')) ∧ ∀ f, info'.lookup f = info.lookup f := by
  obtain ⟨ts, info', hts, hread, hlookup⟩ := readFile_written h
  rw [toValues_encode hjson hts] at hread
  exact ⟨info', hread, hlookup⟩

/-- The canonical bytes of JSON values are stable. -/
theorem canonicalRecordBytes_sortKeys {records : List (PyVal F)} {body : ByteArray}
    (hjson : ∀ r ∈ records, r.IsJson)
    (h : canonicalRecordBytes (E := E) I records = .ok body) :
    canonicalRecordBytes (E := E) I (records.map Value.sortKeys) = .ok body := by
  obtain ⟨texts, htexts, -⟩ := canonicalRecordBytes_ok.1 h
  obtain ⟨ts, hts⟩ : ∃ ts : List (Tree F .value),
      List.Forall₂ (fun v t => encode I v = .ok t) records ts := by
    refine List.exists_forall₂ fun v hv => ?_
    obtain ⟨s, -, hs⟩ := htexts.mem_left hv
    obtain ⟨t, ht, -⟩ := dumps_ok I hs
    exact ⟨t, ht⟩
  rw [← toValues_encode hjson hts]
  refine (digest_stable hts h).2 fun t ht => ?_
  obtain ⟨v, hv, hvt⟩ := hts.mem_right ht
  exact encode_sorted I (hjson v hv) hvt

/-- **The format decodes what it encodes.**  The records come back in their order,
    each the same JSON value, and with them the metadata; after its first line the
    file is the canonical bytes. -/
theorem jsonl_round_trip {records : List (PyVal F)} {info : Meta} {b : ByteArray}
    (hjson : ∀ r ∈ records, r.IsJson) (h : jsonlFileBytes (E := E) I records info = .ok b) :
    (∃ records' info', jsonlReadFile (E := E) I (some (.file b)) = .ok (some (records', info')) ∧
      List.Forall₂ Value.Same records records' ∧ ∀ f, info'.lookup f = info.lookup f) ∧
    ∃ line header body, newline ∉ line ∧ encodeUtf8 (line ++ [newline]) = some header ∧
      canonicalRecordBytes (E := E) I records = .ok body ∧ b = header ++ body := by
  constructor
  · obtain ⟨info', hread, hlookup⟩ := readFile_json hjson h
    refine ⟨_, info', hread, ?_, hlookup⟩
    rw [List.forall₂_map_right_iff, List.forall₂_same]
    exact fun r _ => r.same_sortKeys
  · rw [jsonlFileBytes_eq] at h
    obtain ⟨header, hheader, h⟩ := Except.bind_ok.1 h
    obtain ⟨body, hbody, h⟩ := Except.bind_ok.1 h
    cases h
    obtain ⟨line, hline⟩ := lineBytes_ok.1 hheader
    exact ⟨line, header, body, (dumps_line hline.text).2.1, hline.bytes, hbody, rfl⟩

theorem jsonl_round_trip_sample : ∃ b records' info',
    jsonlFileBytes (E := Bool) Half.interp [.str (lit "a\r\n"), .dict .empty] ∅ = .ok b ∧
    jsonlReadFile (E := Bool) Half.interp (some (.file b)) = .ok (some (records', info')) ∧
    List.Forall₂ Value.Same [.str (lit "a\r\n"), .dict .empty] records' := by
  have hok : (jsonlFileBytes (E := Bool) Half.interp [.str (lit "a\r\n"), .dict .empty] ∅).isOk := by
    decide +kernel
  cases h : jsonlFileBytes (E := Bool) Half.interp [.str (lit "a\r\n"), .dict .empty] ∅ with
  | error e =>
    rw [h] at hok
    cases hok
  | ok b =>
    have hjson : ∀ r ∈ [(.str (lit "a\r\n") : PyVal Half), .dict .empty], r.IsJson := by
      simp [Value.IsJson, Value.toList]
    obtain ⟨⟨records', info', hread, hsame, -⟩, -⟩ := jsonl_round_trip hjson h
    exact ⟨b, records', info', rfl, hread, hsame⟩

end

end ResumableBatch
