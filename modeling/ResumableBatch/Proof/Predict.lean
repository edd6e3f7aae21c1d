/-
  `has` as a predictor of `load`: they agree wherever the file system takes the path
  of the payload, and a hit can still be stitched if the hooks do not overflow the
  stack below `load_all` (`has_predicts_load_iff`).
-/
import ResumableBatch.Proof.Reopen

namespace ResumableBatch

open Text Json

variable {F R E : Type} [DecidableEq F] {S : Setup F R E} {fingerprint : Str} {s s' : Store F}
  {key hash : Str} {r : R} {info : Meta} {entry : Entry F}

/-! ## Below `load_all` -/

omit [DecidableEq F] in
theorem pyStr_atom {J I : Interp F} (h : J.Within I) {v : PyVal F} (hv : v.IsAtom) :
    pyStr J v = pyStr I v := by
  cases v with
  | none => rfl
  | bool b => cases b <;> rfl
  | int n => exact intRepr_within h n
  | float x => rw [pyStr, pyStr, h.strFloat]
  | str t => rfl
  | list xs => cases hv
  | tuple xs => cases hv
  | dict ms => cases hv

omit [DecidableEq F] in
/-- The text of a length takes no stack. -/
theorem pyText_below {v : PyVal F} {n : ℕ} (h : pyText (E := E) S v = .ok (lengthText n)) :
    pyText (E := E) S.below v = .ok (lengthText n) := by
  have hsame : pyStr S.below.interp v = pyStr S.interp v := pyStr_atom S.nested_within (pyText_atom h)
  rw [pyText, hsame]
  exact h

/-- A hook raises `RecursionError` below `load_all`, on the payload that is read. -/
def OverflowsBelow (S : Setup F R E) (s : Store F) (key : Str) (r : R) (info : Meta) : Prop :=
  S.nestedCodec.readFile (S.found s.disk (S.path key)) = .error (.py .recursionError) ∨
    S.nestedCodec.validateStructure r info = .error (.py .recursionError) ∨
    S.nestedCodec.checkedBytes r = .error (.py .recursionError)

/-- A checkpoint that is found below `load_all` is found. -/
theorem Hit.of_below (h : Hit S.below fingerprint s key hash r info entry) :
    ¬ OverflowsBelow S s key r info := by
  have hread : S.nestedCodec.readFile (S.found s.disk (S.path key)) = .ok (some (r, info)) := by
    rw [← path_below]
    exact h.read
  have hvalid : S.nestedCodec.validateStructure r info = .ok true := h.checked.valid
  obtain ⟨_, _, _, hbody⟩ := h.checked.body
  obtain ⟨body, hbytes, -⟩ := digestOf_ok.1 hbody.digested
  rintro (hover | hover | hover)
  · rw [hread] at hover
    cases hover
  · rw [hvalid] at hover
    cases hover
  · exact absurd (hbytes.symm.trans hover) nofun

/-- **A checkpoint is found below `load_all` as well**, if no hook overflows. -/
theorem Hit.below (h : Hit S fingerprint s key hash r info entry)
    (hfits : ¬ OverflowsBelow S s key r info) : Hit S.below fingerprint s key hash r info entry := by
  rw [OverflowsBelow, not_or, not_or] at hfits
  obtain ⟨hread, hvalid, hbytes⟩ := hfits
  have hcodec := S.nestedCodec_within
  have hread' := ((hcodec.readFile _).resolve_left hread).trans h.read
  have hvalid' := ((hcodec.validateStructure r info).resolve_left hvalid).trans h.checked.valid
  have hbytes' := (hcodec.checkedBytes r).resolve_left hbytes
  obtain ⟨digest, byteLen, count, hbody⟩ := h.checked.body
  have hinfo : checkedInfo S.below r = .ok (digest, byteLen, count) := by
    obtain ⟨body, hb, hd, hl, hc⟩ := digestOf_ok.1 hbody.digested
    exact digestOf_ok.2 ⟨body, hbytes'.trans hb, hd, hl, hc.trans (by rw [← hcodec.recordCount]; rfl)⟩
  have hchecked : CheckedBody S.below r info entry digest byteLen count :=
    { hbody with
      digested := hinfo
      entry_len := pyText_below hbody.entry_len
      entry_count := pyText_below hbody.entry_count }
  refine ⟨h.entry_at, h.entry_hash, h.safe, ?_,
    { h.checked with valid := hvalid', body := ⟨digest, byteLen, count, hchecked⟩ }⟩
  rw [path_below]
  exact hread'

/-- **What is found is loaded below `load_all` exactly if no hook overflows.** -/
theorem Hit.loads_below (h : Hit S fingerprint s key hash r info entry) :
    (∃ r', load S.below fingerprint s key hash = .ok r') ↔ ¬ OverflowsBelow S s key r info := by
  constructor
  · rintro ⟨r', hload⟩
    obtain ⟨info', entry', hit⟩ := load_ok.1 hload
    have hread : S.nestedCodec.readFile (S.found s.disk (S.path key)) = .ok (some (r', info')) := by
      rw [← path_below]
      exact hit.read
    -- what is read there is what is read here
    have hsame := h.read.symm.trans ((S.nestedCodec_within.readFile _).ok hread)
    obtain ⟨rfl, rfl⟩ := Prod.mk.inj (Option.some.inj (Except.ok.inj hsame))
    exact hit.of_below
  · exact fun hfits => ⟨r, load_ok.2 ⟨info, entry, h.below hfits⟩⟩

/-! ## The prediction -/

/-- `has` predicts `load`: a miss of `load` is that it is uncommitted, unreadable or
    stale, and `load_all` loads what `has` has found, while its entry and its file stay. -/
structure Predicts (S : Setup F R E) (fingerprint : Str) (s : Store F) (key hash : Str) : Prop where
  hit : has S fingerprint s key hash = .ok true ↔ ∃ r, load S fingerprint s key hash = .ok r
  miss : has S fingerprint s key hash = .ok false ↔
    ∃ exc, load S fingerprint s key hash = .error exc ∧
      (exc = .uncommitted key ∨ exc = .unreadable key ∨ exc = .stale key)
  collision : ∀ source k stored expected,
    has S fingerprint s key hash = .error (.contentKeyCollision source k stored expected) ↔
      load S fingerprint s key hash = .error (.contentKeyCollision source k stored expected)
  raised : ∀ exc, has S fingerprint s key hash = .error exc ↔
    load S fingerprint s key hash = .error exc ∧ exc.isMiss = false
  stitched : ∀ s', has S fingerprint s key hash = .ok true →
    s'.entries.lookup key = s.entries.lookup key →
    s'.disk.lookup (S.path key) = s.disk.lookup (S.path key) →
    ∃ r, load S.below fingerprint s' key hash = .ok r

/-- Both raise the same, but for the misses of `load`. -/
theorem has_error (hmiss : S.codec.readFile none = .ok none) (href : ¬ Refused S s key hash)
    {exc : Exc F E} : has S fingerprint s key hash = .error exc ↔
      load S fingerprint s key hash = .error exc ∧ exc.isMiss = false := by
  rw [has_eq_load hmiss href]
  rcases load S fingerprint s key hash with exc' | r
  · simp only
    split_ifs with hm
    · refine ⟨nofun, ?_⟩
      rintro ⟨h, hn⟩
      cases h
      rw [hm] at hn
      cases hn
    · constructor
      · intro h
        cases h
        exact ⟨rfl, Bool.eq_false_iff.2 hm⟩
      · rintro ⟨h, -⟩
        cases h
        rfl
  · simp

theorem has_false (hmiss : S.codec.readFile none = .ok none) (href : ¬ Refused S s key hash) :
    has S fingerprint s key hash = .ok false ↔ ∃ exc, load S fingerprint s key hash = .error exc ∧
      (exc = .uncommitted key ∨ exc = .unreadable key ∨ exc = .stale key) := by
  rw [has_eq_load hmiss href]
  constructor
  · intro h
    cases hl : load S fingerprint s key hash with
    | ok r =>
      rw [hl] at h
      cases h
    | error exc =>
      rw [hl] at h
      simp only at h
      split_ifs at h with hm
      exact ⟨exc, rfl, load_miss hl hm⟩
  · rintro ⟨exc, hl, hexc⟩
    have hm : exc.isMiss = true := by
      rcases hexc with rfl | rfl | rfl <;> rfl
    rw [hl]
    simp only [hm, if_true]

/-- **`has` predicts `load` exactly if** the file system does not refuse the path of a
    payload that has an entry, and the hooks do not overflow the stack below `load_all`
    on a payload that is found. -/
theorem has_predicts_load_iff (hmiss : S.codec.readFile none = .ok none) (s : Store F)
    (key hash : Str) : Predicts S fingerprint s key hash ↔ ¬ Refused S s key hash ∧
      ∀ r info entry, Hit S fingerprint s key hash r info entry →
        ¬ OverflowsBelow S s key r info := by
  constructor
  · intro h
    refine ⟨fun href => ?_, fun r info entry hit => ?_⟩
    · obtain ⟨hhas, hload⟩ := href.answers fingerprint hmiss
      have := h.miss.2 ⟨_, hload, Or.inr (Or.inl rfl)⟩
      rw [hhas] at this
      cases this
    · have hhas := h.hit.2 ⟨r, load_ok.2 ⟨info, entry, hit⟩⟩
      exact hit.loads_below.1 (h.stitched s hhas rfl rfl)
  · rintro ⟨href, hfits⟩
    refine ⟨has_true hmiss, has_false hmiss href, fun source k stored expected => ?_,
      fun exc => has_error hmiss href, fun s' hhas he hd => ?_⟩
    · rw [has_error hmiss href]
      exact and_iff_left rfl
    · obtain ⟨r, hload⟩ := (has_true hmiss).1 hhas
      obtain ⟨info, entry, hit⟩ := load_ok.1 hload
      obtain ⟨r', hbelow⟩ := hit.loads_below.2 (hfits r info entry hit)
      refine ⟨r', ?_⟩
      rw [← hbelow]
      exact load_congr he (by rw [path_below, hd])

/-- On a store with one record. -/
theorem has_predicts_load_sample : ∃ s s' : Store Half,
    (commit (plainSetup none) (lit "f") (lit "a") (lit "h") plainRecords plainDraw).run s [] =
      (.returned, s') ∧ has (plainSetup none) (lit "f") s' (lit "a") (lit "h") = .ok true ∧
    Predicts (plainSetup none) (lit "f") s' (lit "a") (lit "h") := by
  have hC := jsonl_readsBack (E := Bool) Half.interp none
  obtain ⟨s, s', hopen, hcommit, hbelow⟩ : ∃ s s' : Store Half,
      (openStore (plainSetup none) (lit "f") true plainDraw).run ⟨∅, ∅⟩ [] = (.returned, s) ∧
      (commit (plainSetup none) (lit "f") (lit "a") (lit "h") plainRecords plainDraw).run s [] =
        (.returned, s') ∧
      load (plainSetup none).below (lit "f") s' (lit "a") (lit "h") = .ok plainRecords :=
    runs_returned_then (by decide +kernel)
  obtain ⟨-, hload⟩ := Instance.of_new plainRecords_json plainRecords_depth hopen hcommit
  exact ⟨s, s', hcommit, (has_true hC.missing).2 ⟨_, hload⟩,
    (has_predicts_load_iff hC.missing s' _ _).2 ⟨not_refused (by decide),
      fun r info entry hit => hit.loads_below.1 ⟨_, hbelow⟩⟩⟩

/-! ### A long name -/

/-- A safe key of 250 characters; with its suffix it is too long for a file name. -/
def longKey : Str := List.replicate 250 97

def longEntries : Entries Half :=
  (∅ : Entries Half).insert longKey (identityEntry (lit "h") (lit "d") 0 0 (lit "g") (.half 3))

theorem longEntries_ok : EntriesOk longEntries := by
  refine EntriesOk.empty.insert ⟨by decide +kernel, identityEntry_isJson,
    identityEntry_strings (noPair_lit rfl) (noPair_lit rfl) (noPair_lit rfl), fun f hf => ?_⟩
  fin_cases hf <;> exact ⟨_, rfl⟩

theorem longEntries_written :
    ∃ b, manifestBytes (E := Bool) (plainSetup none) (lit "f") longEntries = .ok b := by
  have hok : (manifestBytes (E := Bool) (plainSetup none) (lit "f") longEntries).isOk = true := by
    decide +kernel
  cases h : manifestBytes (E := Bool) (plainSetup none) (lit "f") longEntries with
  | ok b => exact ⟨b, rfl⟩
  | error e =>
    rw [h] at hok
    cases hok

/-- **A manifest that was written elsewhere** is admitted, and has a key whose payload has too
    long a name here: `has` raises where `load` reports a miss. -/
theorem has_raises_on_miss : ∃ s s' : Store Half,
    (openStore (plainSetup none) (lit "f") true plainDraw).run s [] = (.returned, s') ∧
    has (plainSetup none) (lit "f") s' longKey (lit "h") = .error .osError ∧
    load (plainSetup none) (lit "f") s' longKey (lit "h") = .error (.unreadable longKey) := by
  have hC := jsonl_readsBack (E := Bool) Half.interp none
  obtain ⟨b, hb⟩ := longEntries_written
  obtain ⟨D, hD, hlookup⟩ := readEntries_written (noPair_lit rfl) longEntries_ok hb
  let s : Store Half := ⟨(∅ : Disk).insert manifestPath (.file b), ∅⟩
  have hm : readEntries (plainSetup none) (lit "f") (s.disk.lookup manifestPath) = some D := by
    rw [AList.lookup_insert, hD]
  obtain ⟨s', hopen, he, -⟩ := open_returns (E := Bool) plainDraw (by decide) hm
  have hfound := hlookup longKey
  rw [longEntries, AList.lookup_insert] at hfound
  have hrefused : Refused (plainSetup none) s' longKey (lit "h") :=
    ⟨⟨_, he ▸ hfound, by decide +kernel⟩, by decide +kernel, by decide +kernel⟩
  exact ⟨s, s', hopen, hrefused.answers _ hC.missing⟩

end ResumableBatch
