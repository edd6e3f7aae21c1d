/-
  The names in a cache directory, and what is left of a checkpoint when the
  directory is opened again (`payload_survives_iff`).
-/
import ResumableBatch.Proof.Live

namespace ResumableBatch

open Text Json

variable {F R E : Type} [DecidableEq F] {S : Setup F R E} {fingerprint : Str}

/-! ## Later opens -/

/-- Opens of the directory, one after the other, however they end. -/
inductive Reopened (S : Setup F R E) (fingerprint : Str) (d : Disk) : Disk → Prop where
  | refl : Reopened S fingerprint d d
  | opened {s s' : Store F} {held : Bool} {draw : Draw F} {fates : List (Fate F E)}
      {ended : Ended (Exc F E)} : Reopened S fingerprint d s.disk →
      (openStore S fingerprint held draw).run s fates = (ended, s') →
      Reopened S fingerprint d s'.disk

variable {key hash : Str} {r : R}

theorem OnDisk.reopened (hA : S.codec.Apart) {d d' : Disk} (h : OnDisk S fingerprint d key hash r)
    (hkey : ¬ tmpLike key) (hd : Reopened S fingerprint d d') :
    OnDisk S fingerprint d' key hash r := by
  induction hd with
  | refl => exact h
  | opened _ hopen ih => exact (ih.after_open hA hkey rfl (open_cases hopen).1).1

/-- What an instance has after a commit that returned is on disk. -/
theorem onDisk_committed (hC : S.codec.ReadsBack) {s s' : Store F} {payloadHash : Str} {result : R}
    {draw : Draw F} {fates : List (Fate F E)} (hs : EntriesOk s.entries)
    (hrun : (commit S fingerprint key payloadHash result draw).run s fates = (.returned, s'))
    {k : Str} (hload : load S fingerprint s' k hash = .ok r) :
    OnDisk S fingerprint s'.disk k hash r := by
  obtain ⟨pub, b, hb, he, hd⟩ := commit_published hrun
  obtain ⟨hfp, hentry⟩ := pub.entryOk hC
  refine OnDisk.of_written hfp (he ▸ hs.insert hentry) (he ▸ hb) ?_ hload
  rw [hd _ (ne_payloadTmp isTmp_manifest) (ne_manifestTmp isTmp_manifest), if_pos rfl]

/-- Without its payload a checkpoint is missed. -/
theorem has_of_missing {s : Store F} {entry : Entry F} (he : s.entries.lookup key = some entry)
    (hhash : entry.field (lit "payload_hash") = .str hash) (hkey : isSafeKey key)
    (htaken : S.refuses (S.path key) = false) (hd : s.disk.lookup (S.path key) = none) :
    has S fingerprint s key hash = .ok false := by
  have hc : entryCollides entry hash = false := by
    rw [entryCollides, hhash]
    simp
  rw [has_entry he, hc, hd]
  simp only [hkey, htaken]
  rfl

/-- The next open takes the payload of such a key for a temporary file. -/
theorem OnDisk.swept_away (hC : S.codec.ReadsBack) (draw : Draw F) {s : Store F}
    (hfp : fingerprint ≠ []) (h : OnDisk S fingerprint s.disk key hash r) (hkey : tmpLike key)
    (hdir : s.disk.lookup (S.path key) ≠ some .dir) :
    ∃ s', (openStore S fingerprint true draw).run s [] = (.returned, s') ∧
      has S fingerprint s' key hash = .ok false := by
  obtain ⟨D, hD, hload⟩ := h
  obtain ⟨info, entry, hit⟩ := load_ok.1 hload
  obtain ⟨s', hrun, he, hswept⟩ := open_returns draw hfp hD
  have hentry : s'.entries.lookup key = some entry := by
    rw [he]
    exact hit.entry_at
  exact ⟨s', hrun, has_of_missing hentry hit.entry_hash hit.safe
    (hit.taken hC.missing) (hswept _ ((hC.apart.sweep key).2 hkey) hdir)⟩

/-! ## Names -/

/-- **The names in a directory**: that of a payload is none of the others, but the
    sweep matches it exactly if its key looks temporary, and exactly then a
    committed result may not survive the next open. -/
theorem payload_survives_iff (hC : S.codec.ReadsBack)
    (hsuffix : S.codec.suffix = lit ".jsonl" ∨ S.codec.suffix = lit ".parquet")
    (hkey : isSafeKey key) :
    (IsComponent (S.path key) ∧ (∀ key', S.path key' = S.path key → key' = key) ∧
      S.path key ≠ manifestPath ∧ (∀ final pid random, S.path key ≠ tmpName final pid random) ∧
      isTmp manifestPath = false) ∧
    (isTmp (S.path key) = false ↔ ¬ tmpLike key) ∧
    ∀ (left : Set Str) (s s' : Store F) (payloadHash : Str) (result : R) (draw : Draw F)
      (fates : List (Fate F E)), Instance S fingerprint left s →
      (commit S fingerprint key payloadHash result draw).run s fates = (.returned, s') →
      load S fingerprint s' key payloadHash = .ok r →
      ((∀ (s₁ s₂ : Store F) held draw fates, Reopened S fingerprint s'.disk s₁.disk →
          (openStore S fingerprint held draw).run s₁ fates = (.returned, s₂) →
          has S fingerprint s₂ key payloadHash = .ok true ∧
            load S fingerprint s₂ key payloadHash = .ok r) ↔
        ¬ tmpLike key) := by
  have hsweep := hC.apart.sweep key
  refine ⟨⟨isComponent_payload hkey hsuffix, fun key' he => Setup.path_inj he,
    hC.apart.path_manifest, hC.apart.tmp key, isTmp_manifest⟩, ?_, ?_⟩
  · rw [← Bool.not_eq_true]
    exact not_congr hsweep
  · intro left s s' payloadHash result draw fates hs hrun hload
    have hdisk := onDisk_committed hC (hs.entriesOk hC) hrun hload
    constructor
    · intro hall htmp
      obtain ⟨pub, -, -, -, hfile⟩ := commit_returned hC.apart hrun
      have hdir : s'.disk.lookup (S.path key) ≠ some .dir := by
        rw [hfile]
        nofun
      obtain ⟨s₂, hopen, hmiss⟩ := hdisk.swept_away hC draw hs.fingerprint_ne htmp hdir
      have hhas := (hall s' s₂ _ _ _ .refl hopen).1
      rw [hmiss] at hhas
      cases hhas
    · intro htmp s₁ s₂ held draw fates hd hopen
      have hload' := ((hdisk.reopened hC.apart htmp hd).after_open hC.apart htmp rfl
        (open_cases hopen).1).2 rfl
      exact ⟨(has_true hC.missing).2 ⟨r, hload'⟩, hload'⟩

theorem payload_survives_sample : ∃ s s' : Store Half,
    (commit (plainSetup none) (lit "f") (lit "a") (lit "h") plainRecords plainDraw).run s [] =
      (.returned, s') ∧
    ∀ s₂, (openStore (plainSetup none) (lit "f") true plainDraw).run s' [] = (.returned, s₂) →
      has (plainSetup none) (lit "f") s₂ (lit "a") (lit "h") = .ok true := by
  have hC := jsonl_readsBack (E := Bool) Half.interp none
  obtain ⟨s, s', hopen, hcommit⟩ := plain_committed
  obtain ⟨-, hload⟩ := Instance.of_new plainRecords_json plainRecords_depth hopen hcommit
  have hsurvives := (payload_survives_iff hC (Or.inl rfl) (by decide)).2.2 _ s s' _ _ _ _
    (.opened hopen) hcommit hload
  have htmp : ¬ tmpLike (lit "a") := by decide
  exact ⟨s, s', hcommit, fun s₂ hopen' => (hsurvives.2 htmp s' s₂ _ _ _ .refl hopen').1⟩

/-- The key `a.tmp.b` is accepted, and its payload is deleted by the next open. -/
theorem payload_swept_away : isSafeKey (lit "a.tmp.b") ∧ ∃ s s' s₂ : Store Half,
    (openStore (plainSetup none) (lit "f") true plainDraw).run ⟨∅, ∅⟩ [] = (.returned, s) ∧
    (commit (plainSetup none) (lit "f") (lit "a.tmp.b") (lit "h") plainRecords plainDraw).run s [] =
      (.returned, s') ∧
    has (plainSetup none) (lit "f") s' (lit "a.tmp.b") (lit "h") = .ok true ∧
    (openStore (plainSetup none) (lit "f") true plainDraw).run s' [] = (.returned, s₂) ∧
    has (plainSetup none) (lit "f") s₂ (lit "a.tmp.b") (lit "h") = .ok false := by
  have hC := jsonl_readsBack (E := Bool) Half.interp none
  obtain ⟨s, s', hopen, hcommit⟩ : ∃ s s' : Store Half,
      (openStore (plainSetup none) (lit "f") true plainDraw).run ⟨∅, ∅⟩ [] = (.returned, s) ∧
      (commit (plainSetup none) (lit "f") (lit "a.tmp.b") (lit "h") plainRecords plainDraw).run s [] =
        (.returned, s') :=
    runs_returned (by decide +kernel)
  obtain ⟨hs, hload⟩ := Instance.of_new plainRecords_json plainRecords_depth hopen hcommit
  obtain ⟨pub, -, -, -, hfile⟩ := commit_returned hC.apart hcommit
  have hdir : s'.disk.lookup ((plainSetup none).path (lit "a.tmp.b")) ≠ some .dir := by
    rw [hfile]
    nofun
  obtain ⟨s₂, hopen₂, hmiss⟩ := ((hs.live hC).vouched nofun hload).swept_away hC plainDraw
    hs.fingerprint_ne (by decide) hdir
  exact ⟨by decide, s, s', s₂, hopen, hcommit, (has_true hC.missing).2 ⟨_, hload⟩, hopen₂, hmiss⟩

end ResumableBatch
