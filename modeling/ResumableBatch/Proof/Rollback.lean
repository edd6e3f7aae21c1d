/-
  What a commit that fails leaves behind: all other keys as they were, and its own
  key too unless the payload of an earlier commit was replaced (`failed_commit`).
-/
import ResumableBatch.Proof.Live

namespace ResumableBatch

open Text Json

variable {F R E : Type} [DecidableEq F] {S : Setup F R E} {fingerprint key payloadHash hash : Str}
  {result : R} {draw : Draw F} {s s' : Store F}

/-! ## A payload and an entry of different commits -/

/-- A payload that was committed with another hash. -/
theorem check_other_hash {r : R} {info : Meta} {entry : Entry F} {stored : Str}
    (h : info.lookup (lit "payload_hash") = some stored) (hne : stored ≠ hash) :
    check S fingerprint key hash r info entry =
      .error (.contentKeyCollision .payload key (.str stored) hash) := by
  rw [check, h]
  exact if_pos hne

/-- A payload of another generation than the entry. -/
theorem checkBody_other_generation {r : R} {info : Meta} {entry : Entry F}
    (hg : Meta.field info (lit "generation_id") ≠ entry.field (lit "generation_id"))
    {digest : Str} {byteLen count : ℕ} (hd : checkedInfo S r = .ok (digest, byteLen, count)) :
    checkBody S r info entry = .ok .miss := by
  rw [checkBody, hd, Except.bind_ok]
  refine ⟨_, rfl, ?_⟩
  simp only [pure, Except.pure]
  by_cases h₁ : info.lookup (lit "result_digest") ≠ some digest
  · rw [if_pos h₁]
  rw [if_neg h₁]
  by_cases h₂ : info.lookup (lit "byte_len") ≠ some (lengthText byteLen)
  · rw [if_pos h₂]
  rw [if_neg h₂]
  by_cases h₃ : info.lookup (lit "record_count") ≠ some (lengthText count)
  · rw [if_pos h₃]
  rw [if_neg h₃, if_pos hg]

namespace Publication

variable (pub : Publication S fingerprint key payloadHash result draw)

/-- What `_check` says of the payload of a commit under the entry of another one. -/
theorem check_stale (hC : S.codec.ReadsBack) {r' : R} {entry : Entry F}
    (hstable : S.codec.Stable result r')
    (hg : entry.field (lit "generation_id") ≠ .str draw.generation) : ∃ info,
    S.codec.readFile (some (.file pub.bytes)) = .ok (some (r', info)) ∧
      check S fingerprint key payloadHash r' info entry = .ok .miss := by
  obtain ⟨info', hread, hvalid⟩ := hstable.reads pub.file
  obtain ⟨_, _, hread', hid⟩ := pub.reads hC
  obtain ⟨rfl, rfl⟩ := Prod.mk.inj (Option.some.inj (Except.ok.inj (hread.symm.trans hread')))
  obtain ⟨body, hbody, -⟩ := digestOf_ok.1 pub.prepared.digested
  have hdigest : checkedInfo S r' = .ok (_, _, _) :=
    digestOf_ok.2 ⟨body, hstable.canonical hbody, rfl, rfl, rfl⟩
  have hne : Meta.field info' (lit "generation_id") ≠ entry.field (lit "generation_id") := by
    rw [Meta.field, hid.generation_id]
    exact hg.symm
  refine ⟨info', hread, ?_⟩
  simp only [check, hid.payload_hash, hid.content_key, hid.fingerprint, hid.schema_version, hvalid,
    ne_eq, not_true_eq_false, if_false, checkBody_other_generation hne hdigest]
  rfl

end Publication

/-! ## A commit that fails -/

/-- A commit that raises an `Exception` leaves the entries alone. -/
theorem Committed.failed {exc : Exc F E}
    (h : Committed S fingerprint key payloadHash result draw s s' (.raised exc))
    (hA : S.codec.Apart) (hexc : exc.isException S.isException) :
    (∀ k, s'.entries.lookup k = s.entries.lookup k) ∧
      (s'.disk.lookup (S.path key) = s.disk.lookup (S.path key) ∨
        ∃ pub : Publication S fingerprint key payloadHash result draw,
          s'.disk.lookup (S.path key) = some (.file pub.bytes)) := by
  have hcalm : (Ended.raised exc).isCalm S.isException := hexc
  have hentries : ∀ {entry : Entry F}, Recalled S s s' key entry (.raised exc) →
      ∀ k, s'.entries.lookup k = s.entries.lookup k := by
    intro entry hrec
    rcases hrec.calm hcalm with ⟨hret, -⟩ | he
    · cases hret
    · exact he
  cases h with
  | untouched _ he hd => exact ⟨fun k => by rw [he], Or.inl (hd _ hA.path_payloadTmp)⟩
  | torn pub _ hrec hd =>
    refine ⟨hentries hrec, Or.inr ⟨pub, ?_⟩⟩
    rw [hd _ hA.path_payloadTmp hA.path_manifestTmp, if_pos rfl]
  | published pub _ _ hrec hd =>
    refine ⟨hentries hrec, Or.inr ⟨pub, ?_⟩⟩
    rw [hd _ hA.path_payloadTmp hA.path_manifestTmp, if_neg hA.path_manifest, if_pos rfl]

omit [DecidableEq F] in
theorem cachedKeys_congr (h : ∀ k, s'.entries.lookup k = s.entries.lookup k) :
    cachedKeys s' = cachedKeys s := by
  ext k
  rw [cachedKeys, cachedKeys, List.mem_toFinset, List.mem_toFinset, ← AList.mem_keys,
    ← AList.mem_keys, ← AList.lookup_isSome, ← AList.lookup_isSome, h]

/-- What the key of a failed commit answers, if its payload was replaced. -/
theorem Publication.after_failure (hC : S.codec.ReadsBack)
    (pub : Publication S fingerprint key payloadHash result draw) (hfresh : draw.Fresh s)
    {entry : Entry F} (he : s.entries.lookup key = some entry)
    (he' : s'.entries.lookup key = some entry)
    (hd : s'.disk.lookup (S.path key) = some (.file pub.bytes)) (hash : Str) :
    (entry.field (lit "payload_hash") ≠ .str hash →
      has S fingerprint s' key hash = has S fingerprint s key hash ∧
      load S fingerprint s' key hash = load S fingerprint s key hash) ∧
    (entry.field (lit "payload_hash") = .str hash → hash ≠ payloadHash →
      has S fingerprint s' key hash =
        .error (.contentKeyCollision .payload key (.str payloadHash) hash) ∧
      load S fingerprint s' key hash =
        .error (.contentKeyCollision .payload key (.str payloadHash) hash)) ∧
    (entry.field (lit "payload_hash") = .str hash → hash = payloadHash →
      (∀ r, load S fingerprint s' key hash ≠ .ok r) ∧
      ∀ r', S.codec.Stable result r' → has S fingerprint s' key hash = .ok false ∧
        load S fingerprint s' key hash = .error (.stale key)) := by
  have hhas : ∀ {exc}, load S fingerprint s' key hash = .error exc →
      has S fingerprint s' key hash = if exc.isMiss then .ok false else .error exc := by
    intro exc hload
    rw [has_eq_load hC.missing (not_refused pub.taken), hload]
  have hfound := (pub.found s'.disk).trans hd
  refine ⟨fun hhash => ?_, fun hhash hne => ?_, fun hhash heq => ⟨fun r hload => ?_, ?_⟩⟩
  · have hc : entryCollides entry hash = true := by simp [entryCollides, hhash]
    rw [has_entry he, has_entry he', load_entry he, load_entry he', hc]
    exact ⟨rfl, rfl⟩
  · obtain ⟨r', info', hread, hid⟩ := pub.reads hC
    have hload : load S fingerprint s' key hash =
        .error (.contentKeyCollision .payload key (.str payloadHash) hash) := by
      rw [load_of_read he' hhash pub.prepared.safe (hfound ▸ hread),
        check_other_hash hid.payload_hash hne.symm]
    exact ⟨hhas hload, hload⟩
  · exact pub.load_other hC he' (hfresh key entry he) hd hload
  · intro r' hstable
    subst heq
    obtain ⟨info, hread, hcheck⟩ := pub.check_stale hC hstable (hfresh key entry he)
    have hload : load S fingerprint s' key hash = .error (.stale key) := by
      rw [load_of_read he' hhash pub.prepared.safe (hfound ▸ hread), hcheck]
    exact ⟨hhas hload, hload⟩

/-- **A commit that raises an `Exception`** changes no other key and no entry; its own
    key is as it was, unless it had an entry and its payload was replaced: then it is
    no longer found. -/
theorem failed_commit (hC : S.codec.ReadsBack) (hfresh : draw.Fresh s) {exc : Exc F E}
    {fates : List (Fate F E)}
    (h : (commit S fingerprint key payloadHash result draw).run s fates = (.raised exc, s'))
    (hexc : exc.isException S.isException) :
    cachedKeys s' = cachedKeys s ∧
    (∀ k hash, k ≠ key → has S fingerprint s' k hash = has S fingerprint s k hash ∧
      load S fingerprint s' k hash = load S fingerprint s k hash) ∧
    (s.entries.lookup key = none ∨ s'.disk.lookup (S.path key) = s.disk.lookup (S.path key) →
      ∀ hash, has S fingerprint s' key hash = has S fingerprint s key hash ∧
        load S fingerprint s' key hash = load S fingerprint s key hash) ∧
    ∀ entry, s.entries.lookup key = some entry →
      s'.disk.lookup (S.path key) ≠ s.disk.lookup (S.path key) → ∀ hash,
      (entry.field (lit "payload_hash") ≠ .str hash →
        has S fingerprint s' key hash = has S fingerprint s key hash ∧
        load S fingerprint s' key hash = load S fingerprint s key hash) ∧
      (entry.field (lit "payload_hash") = .str hash → hash ≠ payloadHash →
        has S fingerprint s' key hash =
          .error (.contentKeyCollision .payload key (.str payloadHash) hash) ∧
        load S fingerprint s' key hash =
          .error (.contentKeyCollision .payload key (.str payloadHash) hash)) ∧
      (entry.field (lit "payload_hash") = .str hash → hash = payloadHash →
        (∀ r, load S fingerprint s' key hash ≠ .ok r) ∧
        ∀ r', S.codec.Stable result r' → has S fingerprint s' key hash = .ok false ∧
          load S fingerprint s' key hash = .error (.stale key)) := by
  have hcommitted := commit_cases h
  obtain ⟨he, hdisk⟩ := hcommitted.failed hC.apart hexc
  refine ⟨cachedKeys_congr he, fun k hash hk => ?_, ?_, fun entry hentry hne hash => ?_⟩
  · have hd := hcommitted.disk_ne hC.apart hk
    exact ⟨has_congr (he k) hd, load_congr (he k) hd⟩
  · rintro (hnone | hd) hash
    · have hnone' := (he key).trans hnone
      simp only [has, load, hnone, hnone', and_self]
    · exact ⟨has_congr (he key) hd, load_congr (he key) hd⟩
  · rcases hdisk with hd | ⟨pub, hd⟩
    · exact absurd hd hne
    · exact pub.after_failure hC hfresh hentry ((he key).trans hentry) hd hash

/-! ## A second commit of the same key -/

/-- The answers of another time. -/
def laterDraw : Draw Half := { plainDraw with uuid := fun _ => 8 }

/-- The answers of a still later time. -/
def lastDraw : Draw Half := { plainDraw with uuid := fun _ => 9 }

/-- The keys `b` and `a` are committed, and `a` is committed again: the manifest cannot
    be written. -/
theorem recommit_fails : ∃ s s₁ s₂ s' : Store Half,
    (openStore (plainSetup none) (lit "f") true plainDraw).run ⟨∅, ∅⟩ [] = (.returned, s) ∧
    (commit (plainSetup none) (lit "f") (lit "b") (lit "h") plainRecords plainDraw).run s [] =
      (.returned, s₁) ∧
    (commit (plainSetup none) (lit "f") (lit "a") (lit "h") plainRecords laterDraw).run s₁ [] =
      (.returned, s₂) ∧
    (commit (plainSetup none) (lit "f") (lit "a") (lit "h") plainRecords lastDraw).run s₂
      [.done, .done, .done, .done, .raises .osError .nothing] = (.raised .osError, s') ∧
    s'.disk.lookup (lit "a.jsonl") ≠ s₂.disk.lookup (lit "a.jsonl") := by
  obtain ⟨w, x, y, z, rfl, rfl, rfl, rfl, hw, hx, hy, hz, hne⟩ :
      ∃ w x y z : Ended (Exc Half Bool) × Store Half,
      (openStore (plainSetup none) (lit "f") true plainDraw).run ⟨∅, ∅⟩ [] = w ∧
      (commit (plainSetup none) (lit "f") (lit "b") (lit "h") plainRecords plainDraw).run w.2 [] =
        x ∧
      (commit (plainSetup none) (lit "f") (lit "a") (lit "h") plainRecords laterDraw).run x.2 [] =
        y ∧
      (commit (plainSetup none) (lit "f") (lit "a") (lit "h") plainRecords lastDraw).run y.2
        [.done, .done, .done, .done, .raises .osError .nothing] = z ∧
      w.1 = .returned ∧ x.1 = .returned ∧ y.1 = .returned ∧ z.1 = .raised .osError ∧
      z.2.disk.lookup (lit "a.jsonl") ≠ y.2.disk.lookup (lit "a.jsonl") :=
    ⟨_, _, _, _, rfl, rfl, rfl, rfl, by decide +kernel⟩
  exact ⟨_, _, _, _, run_returned hw, run_returned hx, run_returned hy, run_ended hz, hne⟩

/-- The store on which the commit fails was opened, and its last commit returned. -/
theorem recommit_committed {s s₁ s₂ : Store Half}
    (hopen : (openStore (plainSetup none) (lit "f") true plainDraw).run ⟨∅, ∅⟩ [] = (.returned, s))
    (hb : (commit (plainSetup none) (lit "f") (lit "b") (lit "h") plainRecords plainDraw).run s [] =
      (.returned, s₁))
    (ha : (commit (plainSetup none) (lit "f") (lit "a") (lit "h") plainRecords laterDraw).run s₁ [] =
      (.returned, s₂)) :
    lastDraw.Fresh s₂ ∧
    has (plainSetup none) (lit "f") s₂ (lit "a") (lit "h") = .ok true ∧
    has (plainSetup none) (lit "f") s₂ (lit "b") (lit "h") = .ok true ∧
    load (plainSetup none) (lit "f") s₂ (lit "b") (lit "h") = .ok plainRecords := by
  have hC := jsonl_readsBack (E := Bool) Half.interp none
  have hempty := entries_of_new rfl hopen
  have hloaded := load_committed plainRecords_json plainRecords_depth hb
  have hloaded' := load_committed plainRecords_json plainRecords_depth ha
  have hother : load (plainSetup none) (lit "f") s₂ (lit "b") (lit "h") = .ok plainRecords := by
    have hk : lit "b" ≠ lit "a" := by decide
    rw [load_congr ((commit_cases ha).lookup_ne hk) ((commit_cases ha).disk_ne hC.apart hk)]
    exact hloaded
  exact ⟨((Draw.Fresh.of_empty hempty).after_commit hC (by decide) hb).after_commit hC (by decide) ha,
    (has_true hC.missing).2 ⟨_, hloaded'⟩, (has_true hC.missing).2 ⟨_, hother⟩, hother⟩

theorem failed_commit_sample : ∃ s₂ s' : Store Half,
    (commit (plainSetup none) (lit "f") (lit "a") (lit "h") plainRecords lastDraw).run s₂
      [.done, .done, .done, .done, .raises .osError .nothing] = (.raised .osError, s') ∧
    cachedKeys s' = cachedKeys s₂ ∧
    has (plainSetup none) (lit "f") s' (lit "b") (lit "h") = .ok true ∧
    load (plainSetup none) (lit "f") s' (lit "b") (lit "h") = .ok plainRecords ∧
    has (plainSetup none) (lit "f") s₂ (lit "a") (lit "h") = .ok true ∧
    has (plainSetup none) (lit "f") s' (lit "a") (lit "h") = .ok false ∧
    load (plainSetup none) (lit "f") s' (lit "a") (lit "h") = .error (.stale (lit "a")) := by
  have hC := jsonl_readsBack (E := Bool) Half.interp none
  obtain ⟨s, s₁, s₂, s', hopen, hb, ha, hfail, hne⟩ := recommit_fails
  obtain ⟨hfresh, hhas, hhas', hload'⟩ := recommit_committed hopen hb ha
  obtain ⟨hkeys, hother, -, hown⟩ := failed_commit hC hfresh hfail rfl
  obtain ⟨hhas_b, hload_b⟩ := hother (lit "b") (lit "h") (by decide)
  obtain ⟨r, hload⟩ := (has_true hC.missing).1 hhas
  obtain ⟨info, entry, hit⟩ := load_ok.1 hload
  have hstable : (jsonlCodec (E := Bool) Half.interp none).Stable plainRecords plainRecords :=
    jsonl_stable plainRecords_json plainRecords_depth fun _ => rfl
  obtain ⟨hhas_a, hload_a⟩ :=
    ((hown entry hit.entry_at hne (lit "h")).2.2 hit.entry_hash rfl).2 _ hstable
  exact ⟨s₂, s', hfail, hkeys, hhas_b.trans hhas', hload_b.trans hload', hhas, hhas_a, hload_a⟩

/-- The key was found in a store that was opened and committed it, and is not found after
    its second commit failed. -/
theorem failed_commit_loses : ∃ s s₁ s₂ s' : Store Half,
    (openStore (plainSetup none) (lit "f") true plainDraw).run ⟨∅, ∅⟩ [] = (.returned, s) ∧
    (commit (plainSetup none) (lit "f") (lit "b") (lit "h") plainRecords plainDraw).run s [] =
      (.returned, s₁) ∧
    (commit (plainSetup none) (lit "f") (lit "a") (lit "h") plainRecords laterDraw).run s₁ [] =
      (.returned, s₂) ∧
    (commit (plainSetup none) (lit "f") (lit "a") (lit "h") plainRecords lastDraw).run s₂
      [.done, .done, .done, .done, .raises .osError .nothing] = (.raised .osError, s') ∧
    has (plainSetup none) (lit "f") s₂ (lit "a") (lit "h") = .ok true ∧
    has (plainSetup none) (lit "f") s' (lit "a") (lit "h") = .ok false := by
  have hC := jsonl_readsBack (E := Bool) Half.interp none
  obtain ⟨s, s₁, s₂, s', hopen, hb, ha, hfail, hne⟩ := recommit_fails
  obtain ⟨hfresh, hhas, -⟩ := recommit_committed hopen hb ha
  obtain ⟨r, hload⟩ := (has_true hC.missing).1 hhas
  obtain ⟨info, entry, hit⟩ := load_ok.1 hload
  obtain ⟨he, hdisk⟩ := (commit_cases hfail).failed hC.apart rfl
  have hstable : (jsonlCodec (E := Bool) Half.interp none).Stable plainRecords plainRecords :=
    jsonl_stable plainRecords_json plainRecords_depth fun _ => rfl
  rcases hdisk with hd | ⟨pub, hd⟩
  · exact absurd hd hne
  · have hafter := pub.after_failure hC hfresh hit.entry_at ((he _).trans hit.entry_at) hd (lit "h")
    exact ⟨s, s₁, s₂, s', hopen, hb, ha, hfail, hhas,
      ((hafter.2.2 hit.entry_hash rfl).2 _ hstable).1⟩

end ResumableBatch
