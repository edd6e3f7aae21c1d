/-
  Reading a checkpoint.  `has` and `load` repeat one ladder of checks; they agree
  wherever the file system takes the path of the payload (`has_eq_load`).
-/
import ResumableBatch.Stores.Jsonl

namespace ResumableBatch

open Text Json

variable {F R E : Type}

/-- The path of a key. -/
def Setup.path (S : Setup F R E) (key : Str) : Str := key ++ S.codec.suffix

/-- The `RuntimeError`s of `load`. -/
def Exc.isMiss : Exc F E → Bool
  | .uncommitted _ | .unreadable _ | .stale _ => true
  | _ => false

theorem readPayload_error {S : Setup F R E} {node : Option Node} {exc : Exc F E}
    (h : readPayload S node = .error exc) : exc.isMiss = false := by
  unfold readPayload at h
  cases hr : S.codec.readFile node with
  | error e => rw [hr] at h; cases h; rfl
  | ok read => rw [hr] at h; cases h

section
variable [DecidableEq F] {S : Setup F R E} {fingerprint : Str} {s s' : Store F} {key hash : Str}

/-! ## The ladder of checks -/

/-- `_check` raises nothing that `load` raises for a miss. -/
theorem check_error {result : R} {info : Meta} {entry : Entry F} {exc : Exc F E}
    (h : check S fingerprint key hash result info entry = .error exc) : exc.isMiss = false := by
  unfold check at h
  cases hp : info.lookup (lit "payload_hash") with
  | none => rw [hp] at h; cases h
  | some storedHash =>
    simp only [hp] at h
    split_ifs at h
    · cases h; rfl
    cases hv : S.codec.validateStructure result info with
    | error e => rw [hv] at h; cases h; rfl
    | ok valid =>
      rw [hv] at h
      cases valid with
      | false => cases h
      | true =>
        cases hb : checkBody S result info entry with
        | error e => rw [hb] at h; cases h; rfl
        | ok status => rw [hb] at h; cases h

/-- What is recomputed agrees with the metadata and the entry. -/
structure CheckedBody (S : Setup F R E) (result : R) (info : Meta) (entry : Entry F)
    (digest : Str) (byteLen count : ℕ) : Prop where
  digested : checkedInfo S result = .ok (digest, byteLen, count)
  info_digest : info.lookup (lit "result_digest") = some digest
  info_len : info.lookup (lit "byte_len") = some (lengthText byteLen)
  info_count : info.lookup (lit "record_count") = some (lengthText count)
  generation : Meta.field info (lit "generation_id") = entry.field (lit "generation_id")
  entry_digest : entry.field (lit "result_digest") = .str digest
  entry_len : pyText (E := E) S (entry.field (lit "byte_len")) = .ok (lengthText byteLen)
  entry_count : pyText (E := E) S (entry.field (lit "record_count")) = .ok (lengthText count)

theorem checkBody_ok {result : R} {info : Meta} {entry : Entry F} :
    checkBody S result info entry = .ok .ok ↔
      ∃ digest byteLen count, CheckedBody S result info entry digest byteLen count := by
  unfold checkBody
  rw [Except.bind_ok]
  constructor
  · rintro ⟨⟨digest, byteLen, count⟩, hdigest, h⟩
    simp only [pure, Except.pure] at h
    -- every comparison that fails is a miss
    split_ifs at h with h₁ h₂ h₃ h₄ h₅
    iterate 5 cases h
    obtain ⟨lenText, hlen, h⟩ := Except.bind_ok.1 h
    split_ifs at h with h₆
    · cases h
    obtain ⟨countText, hcount, h⟩ := Except.bind_ok.1 h
    split_ifs at h with h₇
    · cases h
    rw [not_not] at h₁ h₂ h₃ h₄ h₅ h₆ h₇
    have hentry : entry.field (lit "result_digest") = .str digest := by
      rw [← h₅, Meta.field, h₁]
    exact ⟨digest, byteLen, count, hdigest, h₁, h₂, h₃, h₄, hentry, h₆ ▸ hlen, h₇ ▸ hcount⟩
  · rintro ⟨digest, byteLen, count, h⟩
    refine ⟨_, h.digested, ?_⟩
    have h₅ : Meta.field info (lit "result_digest") = entry.field (lit "result_digest") := by
      rw [h.entry_digest, Meta.field, h.info_digest]
    simp only [h.info_digest, h.info_len, h.info_count, h.generation, h₅, h.entry_len,
      h.entry_count, ne_eq, not_true_eq_false, if_false, bind, Except.bind, pure, Except.pure]

/-- Everything that makes `_check` accept. -/
structure Checked (S : Setup F R E) (fingerprint key hash : Str) (result : R) (info : Meta)
    (entry : Entry F) : Prop where
  payload_hash : info.lookup (lit "payload_hash") = some hash
  content_key : info.lookup (lit "content_key") = some key
  fingerprint : info.lookup (lit "fingerprint") = some fingerprint
  schema_version : info.lookup (lit "schema_version") = some (intText schemaVersion)
  valid : S.codec.validateStructure result info = .ok true
  body : ∃ digest byteLen count, CheckedBody S result info entry digest byteLen count

/-- **What `_check` checks.** -/
theorem check_ok {result : R} {info : Meta} {entry : Entry F} :
    check S fingerprint key hash result info entry = .ok .ok ↔
      Checked S fingerprint key hash result info entry := by
  unfold check
  constructor
  · intro h
    split at h
    · cases h
    · rename_i storedHash hhash
      split_ifs at h with h₁ h₂ h₃ h₄
      iterate 3 cases h
      rw [not_not] at h₁ h₂ h₃ h₄
      split at h
      · cases h
      · cases h
      · rename_i hvalid
        exact ⟨h₁ ▸ hhash, h₂, h₃, h₄, hvalid, checkBody_ok.1 (Except.mapError_ok.1 h)⟩
  · intro h
    simp only [h.payload_hash, h.content_key, h.fingerprint, h.schema_version, h.valid, ne_eq,
      not_true_eq_false, if_false]
    exact Except.mapError_ok.2 (checkBody_ok.2 h.body)

/-- What `has` and `load` do with a file that was read. -/
theorem has_entry {entry : Entry F} (he : s.entries.lookup key = some entry) :
    has S fingerprint s key hash =
      if entryCollides entry hash then
        .error (.contentKeyCollision .manifest key (entry.field (lit "payload_hash")) hash)
      else if isSafeKey key then
        if S.refuses (S.path key) then .error .osError
        else match s.disk.lookup (S.path key) with
        | none => .ok false
        | some node =>
          match readPayload S (some node) with
          | .error exc => .error exc
          | .ok none => .ok false
          | .ok (some (result, info)) =>
            match check S fingerprint key hash result info entry with
            | .error exc => .error exc
            | .ok status => .ok (status = .ok)
      else .error (.unsafeKey key) := by
  unfold has
  simp only [he]
  by_cases hc : entryCollides entry hash
  · simp only [hc, if_true]
    rfl
  by_cases hk : isSafeKey key
  · simp only [hc, hk, pathFor, if_true, Bool.false_eq_true, if_false]
    by_cases href : S.refuses (S.path key)
    · simp only [href, if_true]
      show (if S.refuses (S.path key) then _ else _) = _
      rw [if_pos href]
      rfl
    simp only [href, Bool.false_eq_true, if_false]
    show (if S.refuses (S.path key) then _ else (match s.disk.lookup (S.path key) with
      | none => _
      | some node => _)) = _
    rw [if_neg href]
    cases s.disk.lookup (S.path key) with
    | none => rfl
    | some node =>
      show (readPayload S (some node) >>= _) = match readPayload S (some node) with
        | .error exc => _
        | .ok none => _
        | .ok (some (result, info)) => _
      rcases readPayload S (some node) with exc | _ | ⟨result, info⟩
      · rfl
      · rfl
      · show (check S fingerprint key hash result info entry >>= _) = match
          check S fingerprint key hash result info entry with
        | .error exc => _
        | .ok status => _
        cases check S fingerprint key hash result info entry <;> rfl
  · simp only [hc, hk, pathFor]
    rfl

theorem load_entry {entry : Entry F} (he : s.entries.lookup key = some entry) :
    load S fingerprint s key hash =
      if entryCollides entry hash then
        .error (.contentKeyCollision .manifest key (entry.field (lit "payload_hash")) hash)
      else if isSafeKey key then
        match readPayload S (S.found s.disk (S.path key)) with
        | .error exc => .error exc
        | .ok none => .error (.unreadable key)
        | .ok (some (result, info)) =>
          match check S fingerprint key hash result info entry with
          | .error exc => .error exc
          | .ok .ok => .ok result
          | .ok .miss => .error (.stale key)
      else .error (.unsafeKey key) := by
  unfold load
  simp only [he]
  by_cases hc : entryCollides entry hash
  · simp only [hc, if_true]
    rfl
  by_cases hk : isSafeKey key
  · simp only [hc, hk, pathFor, if_true, Bool.false_eq_true, if_false]
    show (readPayload S (S.found s.disk (S.path key)) >>= _) = _
    rcases readPayload S (S.found s.disk (S.path key)) with exc | _ | ⟨result, info⟩
    · rfl
    · rfl
    · show (check S fingerprint key hash result info entry >>= _) = match
        check S fingerprint key hash result info entry with
      | .error exc => _
      | .ok .ok => _
      | .ok .miss => _
      rcases check S fingerprint key hash result info entry with exc | _ | _ <;> rfl
  · simp only [hc, hk, pathFor]
    rfl

/-- What `load` makes of the payload file, under an entry with the expected hash. -/
theorem load_at {entry : Entry F} (he : s.entries.lookup key = some entry)
    (hhash : entry.field (lit "payload_hash") = .str hash) (hkey : isSafeKey key) :
    load S fingerprint s key hash =
      match S.codec.readFile (S.found s.disk (S.path key)) with
      | .error e => .error (.raised e)
      | .ok none => .error (.unreadable key)
      | .ok (some (result, info)) =>
        match check S fingerprint key hash result info entry with
        | .error exc => .error exc
        | .ok .ok => .ok result
        | .ok .miss => .error (.stale key) := by
  have hc : entryCollides entry hash = false := by
    rw [entryCollides, hhash]
    simp
  rw [load_entry he, hc, readPayload]
  simp only [hkey]
  rcases S.codec.readFile (S.found s.disk (S.path key)) with e | _ | ⟨result, info⟩ <;> rfl

/-- A payload that can be read is as good as `_check` finds it. -/
theorem load_of_read {entry : Entry F} (he : s.entries.lookup key = some entry)
    (hhash : entry.field (lit "payload_hash") = .str hash) (hkey : isSafeKey key) {result : R}
    {info : Meta} (hread : S.codec.readFile (S.found s.disk (S.path key)) =
      .ok (some (result, info))) :
    load S fingerprint s key hash =
      match check S fingerprint key hash result info entry with
      | .error exc => .error exc
      | .ok .ok => .ok result
      | .ok .miss => .error (.stale key) := by
  rw [load_at he hhash hkey, hread]

/-- A checkpoint that is found and verified. -/
structure Hit (S : Setup F R E) (fingerprint : Str) (s : Store F) (key hash : Str) (result : R)
    (info : Meta) (entry : Entry F) : Prop where
  entry_at : s.entries.lookup key = some entry
  entry_hash : entry.field (lit "payload_hash") = .str hash
  safe : isSafeKey key
  read : S.codec.readFile (S.found s.disk (S.path key)) = .ok (some (result, info))
  checked : Checked S fingerprint key hash result info entry

/-- **What `load` returns.** -/
theorem load_ok {result : R} : load S fingerprint s key hash = .ok result ↔
    ∃ info entry, Hit S fingerprint s key hash result info entry := by
  constructor
  · intro h
    cases he : s.entries.lookup key with
    | none =>
      simp only [load, he] at h
      cases h
    | some entry =>
      rw [load_entry he] at h
      split_ifs at h with hc hk
      rw [entryCollides, decide_eq_true_eq, not_not] at hc
      rcases hr : readPayload S (S.found s.disk (S.path key)) with exc | _ | ⟨result', info⟩
      · rw [hr] at h
        cases h
      · rw [hr] at h
        cases h
      · rw [hr] at h
        simp only at h
        rcases hch : check S fingerprint key hash result' info entry with exc | _ | _
        · rw [hch] at h
          cases h
        · rw [hch] at h
          cases h
          exact ⟨info, entry, he, hc, hk, Except.mapError_ok.1 hr, check_ok.1 hch⟩
        · rw [hch] at h
          cases h
  · rintro ⟨info, entry, h⟩
    rw [load_of_read h.entry_at h.entry_hash h.safe h.read, check_ok.2 h.checked]

/-- The file system takes the path of a payload that is read. -/
theorem Hit.taken {result : R} {info : Meta} {entry : Entry F}
    (h : Hit S fingerprint s key hash result info entry) (hmiss : S.codec.readFile none = .ok none) :
    S.refuses (S.path key) = false := by
  refine Bool.eq_false_iff.2 fun href => ?_
  have hread := h.read
  rw [Setup.found, if_pos href, hmiss] at hread
  cases hread

/-- The entry of the key has the expected hash, and the file system refuses its path. -/
structure Refused (S : Setup F R E) (s : Store F) (key hash : Str) : Prop where
  entry : ∃ entry, s.entries.lookup key = some entry ∧ entry.field (lit "payload_hash") = .str hash
  safe : isSafeKey key
  refuses : S.refuses (S.path key)

omit [DecidableEq F] in
theorem not_refused [DecidableEq F] (h : S.refuses (S.path key) = false) :
    ¬ Refused S s key hash := by
  intro hrefused
  have := hrefused.refuses
  rw [h] at this
  cases this

/-- `has` raises there, and `load` does not find the payload. -/
theorem Refused.answers (fingerprint : Str) (hmiss : S.codec.readFile none = .ok none)
    (h : Refused S s key hash) :
    has S fingerprint s key hash = .error .osError ∧
      load S fingerprint s key hash = .error (.unreadable key) := by
  obtain ⟨⟨entry, he, hhash⟩, hsafe, href⟩ := h
  have hc : entryCollides entry hash = false := by
    rw [entryCollides, hhash]
    simp
  constructor
  · rw [has_entry he, hc]
    simp only [hsafe, href, Bool.false_eq_true, if_true, if_false]
  · rw [load_at he hhash hsafe, Setup.found, if_pos href, hmiss]

/-- **Elsewhere `has` answers what `load` does.** -/
theorem has_eq_load (hmiss : S.codec.readFile none = .ok none) (href : ¬ Refused S s key hash) :
    has S fingerprint s key hash =
      match load S fingerprint s key hash with
      | .ok _ => .ok true
      | .error exc => if exc.isMiss then .ok false else .error exc := by
  cases he : s.entries.lookup key with
  | none => simp only [has, load, he, Exc.isMiss, if_true]
  | some entry =>
    rw [has_entry he, load_entry he]
    by_cases hc : entryCollides entry hash
    · simp only [hc, if_true]
      rfl
    by_cases hk : isSafeKey key
    · have htaken : S.refuses (S.path key) = false := by
        refine Bool.eq_false_iff.2 fun h => href ⟨⟨entry, he, ?_⟩, hk, h⟩
        rwa [entryCollides, decide_eq_true_eq, not_not] at hc
      simp only [hc, hk, htaken, Setup.found, if_true, Bool.false_eq_true, if_false]
      cases hd : s.disk.lookup (S.path key) with
      | none =>
        have : readPayload S none = .ok none := by rw [readPayload, hmiss]; rfl
        rw [this]
        rfl
      | some node =>
        simp only
        rcases hr : readPayload S (some node) with exc | _ | ⟨result, info⟩
        · simp only [readPayload_error hr]
          rfl
        · rfl
        · simp only
          rcases hch : check S fingerprint key hash result info entry with exc | _ | _
          · simp only [check_error hch]
            rfl
          · rfl
          · rfl
    · simp only [hc, hk]
      rfl

theorem has_true (hmiss : S.codec.readFile none = .ok none) :
    has S fingerprint s key hash = .ok true ↔ ∃ r, load S fingerprint s key hash = .ok r := by
  by_cases href : Refused S s key hash
  · obtain ⟨hhas, hload⟩ := href.answers fingerprint hmiss
    simp [hhas, hload]
  rw [has_eq_load hmiss href]
  rcases load S fingerprint s key hash with exc | r
  · simp only
    split_ifs <;> simp
  · simp

/-- A miss of `load` names the key. -/
theorem load_miss {exc : Exc F E} (h : load S fingerprint s key hash = .error exc)
    (hmiss : exc.isMiss) : exc = .uncommitted key ∨ exc = .unreadable key ∨ exc = .stale key := by
  cases he : s.entries.lookup key with
  | none =>
    rw [load] at h
    simp only [he] at h
    cases h
    exact Or.inl rfl
  | some entry =>
    rw [load_entry he] at h
    split_ifs at h with hc hk
    · cases h; cases hmiss
    · rcases hr : readPayload S (S.found s.disk (S.path key)) with exc' | _ | ⟨result, info⟩
      · rw [hr] at h
        cases h
        rw [readPayload_error hr] at hmiss
        cases hmiss
      · rw [hr] at h
        cases h
        exact Or.inr (Or.inl rfl)
      · rw [hr] at h
        simp only at h
        rcases hch : check S fingerprint key hash result info entry with exc' | _ | _
        · rw [hch] at h
          cases h
          rw [check_error hch] at hmiss
          cases hmiss
        · rw [hch] at h
          cases h
        · rw [hch] at h
          cases h
          exact Or.inr (Or.inr rfl)
    · cases h; cases hmiss

omit [DecidableEq F] in
theorem found_congr {disk disk' : Disk} {path : Str} (h : disk'.lookup path = disk.lookup path) :
    S.found disk' path = S.found disk path := by
  rw [Setup.found, Setup.found, h]

/-- `has` and `load` read one entry and one file. -/
theorem load_congr (he : s'.entries.lookup key = s.entries.lookup key)
    (hd : s'.disk.lookup (S.path key) = s.disk.lookup (S.path key)) :
    load S fingerprint s' key hash = load S fingerprint s key hash := by
  cases h : s.entries.lookup key with
  | none =>
    rw [h] at he
    simp only [load, h, he]
  | some entry => rw [load_entry (he.trans h), load_entry h, found_congr hd]

theorem has_congr (he : s'.entries.lookup key = s.entries.lookup key)
    (hd : s'.disk.lookup (S.path key) = s.disk.lookup (S.path key)) :
    has S fingerprint s' key hash = has S fingerprint s key hash := by
  cases h : s.entries.lookup key with
  | none =>
    rw [h] at he
    simp only [has, h, he]
  | some entry => rw [has_entry (he.trans h), has_entry h, hd]

/-! ## Below `load_all` and `iter_results` -/

omit [DecidableEq F] in
theorem pyText_upTo (v : PyVal F) :
    Except.UpTo (.py .recursionError) (pyText (E := E) S.below v) (pyText S v) := by
  unfold pyText
  rcases pyStr_upTo S.nested_within v with h | h
  · exact Or.inl (by rw [show pyStr S.below.interp v = _ from h])
  · exact Or.inr (by rw [show pyStr S.below.interp v = _ from h])

omit [DecidableEq F] in
theorem checkedInfo_upTo (result : R) :
    Except.UpTo (.py .recursionError) (checkedInfo S.below result) (checkedInfo S result) := by
  refine .bind (S.nestedCodec_within.checkedBytes result) fun body => Or.inr ?_
  show Except.ok (_, _, S.nestedCodec.recordCount result) = _
  rw [S.nestedCodec_within.recordCount]
  rfl

theorem checkBody_upTo (result : R) (info : Meta) (entry : Entry F) :
    Except.UpTo (.py .recursionError) (checkBody S.below result info entry)
      (checkBody S result info entry) := by
  refine .bind (checkedInfo_upTo result) fun d => ?_
  obtain ⟨digest, byteLen, count⟩ := d
  simp only
  split_ifs
  iterate 5 exact .refl _ _
  refine .bind (pyText_upTo _) fun lenText => ?_
  split_ifs
  · exact .refl _ _
  refine .bind (pyText_upTo _) fun countText => ?_
  split_ifs <;> exact .refl _ _

theorem check_upTo (fingerprint key hash : Str) (result : R) (info : Meta) (entry : Entry F) :
    Except.UpTo (.raised (.py .recursionError)) (check S.below fingerprint key hash result info entry)
      (check S fingerprint key hash result info entry) := by
  unfold check
  cases info.lookup (lit "payload_hash") with
  | none => exact .refl _ _
  | some storedHash =>
    simp only
    split_ifs
    iterate 4 exact .refl _ _
    rcases S.nestedCodec_within.validateStructure result info with h | h
    · exact Or.inl (by rw [show S.below.codec.validateStructure result info = _ from h])
    · rw [show S.below.codec.validateStructure result info = _ from h]
      rcases S.codec.validateStructure result info with e | _ | _
      · exact .refl _ _
      · exact .refl _ _
      · exact (checkBody_upTo result info entry).mapError

omit [DecidableEq F] in
theorem path_below : S.below.path key = S.path key := by
  show key ++ S.nestedCodec.suffix = key ++ S.codec.suffix
  rw [S.nestedCodec_within.suffix]

/-- **`load` below `load_all` does the same, or overflows the stack.** -/
theorem load_upTo (fingerprint : Str) (s : Store F) (key hash : Str) :
    Except.UpTo (.raised (.py .recursionError)) (load S.below fingerprint s key hash)
      (load S fingerprint s key hash) := by
  cases he : s.entries.lookup key with
  | none =>
    refine Or.inr ?_
    simp only [load, he]
  | some entry =>
    rw [load_entry he, load_entry he, path_below]
    split_ifs
    · exact .refl _ _
    · have hread := (S.nestedCodec_within.readFile (S.found s.disk (S.path key))).mapError
        (f := Exc.raised (F := F))
      change Except.UpTo _ (readPayload S.below (S.below.found s.disk (S.path key)))
        (readPayload S (S.found s.disk (S.path key))) at hread
      rcases hread with h | h
      · exact Or.inl (by rw [h])
      · rw [h]
        rcases readPayload S (S.found s.disk (S.path key)) with exc | _ | ⟨result, info⟩
        · exact .refl _ _
        · exact .refl _ _
        · simp only
          rcases check_upTo (S := S) fingerprint key hash result info entry with h | h
          · exact Or.inl (by rw [h])
          · rw [h]
            exact .refl _ _
    · exact .refl _ _

end

end ResumableBatch
