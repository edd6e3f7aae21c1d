/-
  The instance and the directory: what the instance vouches for, a store freshly
  opened on the directory vouches for too (`live_vouches_for_disk`).
-/
import ResumableBatch.Proof.JsonlStore

namespace ResumableBatch

open Text Json

variable {F R E : Type} {S : Setup F R E} {fingerprint : Str}

/-! ## Entries that agree -/

theorem natText_head (n : ℕ) : ∃ c t, natText n = c :: t ∧ isDigit c = true := by
  have hd := natText_digits n
  cases h : natText n with
  | nil =>
    rcases natText_intPart n with h' | ⟨d, ds, h', -⟩
    · rw [h] at h'
      cases h'
    · rw [h] at h'
      cases h'
  | cons c t =>
    rw [h, List.all_cons, Bool.and_eq_true] at hd
    exact ⟨c, t, rfl, hd.1⟩

/-- A value with the text of a number is no container. -/
theorem pyText_atom {v : PyVal F} {n : ℕ} (h : pyText (E := E) S v = .ok (lengthText n)) :
    v.IsAtom := by
  obtain ⟨c, t, ht, hd⟩ := natText_head n
  have htext : lengthText n = c :: t := ht
  have hbracket : ∀ {x : Code} {inside : Except PyError Str}, isDigit x = false →
      pyStr S.interp v = (do .ok (x :: (← inside))) → False := by
    intro x inside hx hv
    rw [pyText, hv] at h
    cases inside with
    | error e => cases h
    | ok s =>
      rw [htext] at h
      have : x = c := (List.cons.inj (Except.ok.inj h)).1
      rw [this, hd] at hx
      cases hx
  cases v with
  | list xs => exact hbracket (x := 91) (by decide) rfl
  | tuple xs => exact hbracket (x := 40) (by decide) rfl
  | dict ms => exact hbracket (x := 123) (by decide) rfl
  | _ => trivial

theorem metaField_atom (info : Meta) (f : Str) : (Meta.field info f : PyVal F).IsAtom := by
  unfold Meta.field
  split <;> trivial

/-! ## The entries after a commit -/

/-- The call returned, or raised an `Exception`. -/
def Ended.isCalm (isException : E → Bool) : Ended (Exc F E) → Bool
  | .returned => true
  | .raised exc => exc.isException isException
  | .died => false

section
variable {s s' : Store F} {key k : Str} {entry : Entry F} {ended : Ended (Exc F E)}

theorem Recalled.lookup_ne (h : Recalled S s s' key entry ended) (hk : k ≠ key) :
    s'.entries.lookup k = s.entries.lookup k := by
  cases h with
  | returned h => rw [h, AList.lookup_insert_ne hk]
  | restored _ h => exact h k
  | kept _ _ h => rw [h, AList.lookup_insert_ne hk]

/-- What a commit that is not interrupted leaves in memory. -/
theorem Recalled.calm (h : Recalled S s s' key entry ended)
    (hcalm : ended.isCalm S.isException) : (ended = .returned ∧
      s'.entries = s.entries.insert key entry) ∨ ∀ k, s'.entries.lookup k = s.entries.lookup k := by
  cases h with
  | returned h => exact Or.inl ⟨rfl, h⟩
  | restored _ h => exact Or.inr h
  | kept hne hexc _ =>
    cases ended with
    | returned => exact absurd rfl hne
    | raised exc =>
      have := hexc exc rfl
      rw [Ended.isCalm, this] at hcalm
      cases hcalm
    | died => cases hcalm

end

variable [DecidableEq F]

/-! ## What a hit rests on -/

theorem Checked.same {key hash : Str} {result : R} {info : Meta} {entry entry' : Entry F}
    (h : Checked S fingerprint key hash result info entry) (hsame : entry.Same entry') :
    Checked S fingerprint key hash result info entry' := by
  obtain ⟨digest, byteLen, count, hb⟩ := h.body
  have hlen := (hsame _ _ (pyText_atom hb.entry_len)).2 rfl
  have hcount := (hsame _ _ (pyText_atom hb.entry_count)).2 rfl
  refine ⟨h.payload_hash, h.content_key, h.fingerprint, h.schema_version, h.valid, digest, byteLen,
    count, hb.digested, hb.info_digest, hb.info_len, hb.info_count, ?_, ?_, ?_, ?_⟩
  · exact ((hsame _ _ (metaField_atom info _)).2 hb.generation.symm).symm
  · exact (hsame _ (.str digest) trivial).2 hb.entry_digest
  · rw [hlen]
    exact hb.entry_len
  · rw [hcount]
    exact hb.entry_count

/-- A hit rests on the file of its key and on the atoms of its entry. -/
theorem Hit.same {s s' : Store F} {key hash : Str} {result : R} {info : Meta}
    {entry entry' : Entry F} (h : Hit S fingerprint s key hash result info entry)
    (he : s'.entries.lookup key = some entry')
    (hd : s'.disk.lookup (S.path key) = s.disk.lookup (S.path key)) (hsame : entry.Same entry') :
    Hit S fingerprint s' key hash result info entry' :=
  ⟨he, (hsame _ (.str hash) trivial).2 h.entry_hash, h.safe, by rw [found_congr hd]; exact h.read,
    h.checked.same hsame⟩

/-! ## What survives the instance -/

/-- A store freshly loaded from the directory has the checkpoint. -/
def OnDisk (S : Setup F R E) (fingerprint : Str) (d : Disk) (key hash : Str) (r : R) : Prop :=
  ∃ D, readEntries S fingerprint (d.lookup manifestPath) = some D ∧
    load S fingerprint ⟨d, D⟩ key hash = .ok r

theorem OnDisk.of_same {d d' : Disk} {key hash : Str} {r : R}
    (h : OnDisk S fingerprint d key hash r)
    (hm : d'.lookup manifestPath = d.lookup manifestPath)
    (hp : d'.lookup (S.path key) = d.lookup (S.path key)) :
    OnDisk S fingerprint d' key hash r := by
  obtain ⟨D, hD, hload⟩ := h
  refine ⟨D, hm ▸ hD, ?_⟩
  have hload' : load S fingerprint ⟨d', D⟩ key hash = load S fingerprint ⟨d, D⟩ key hash :=
    load_congr rfl hp
  rw [hload', hload]

/-- The manifest that an instance writes has what the instance has. -/
theorem OnDisk.of_written {s : Store F} {key hash : Str} {r : R} {b : ByteArray}
    (hfp : NoPair fingerprint) (he : EntriesOk s.entries)
    (hb : manifestBytes S fingerprint s.entries = .ok b)
    (hm : s.disk.lookup manifestPath = some (.file b))
    (hload : load S fingerprint s key hash = .ok r) :
    OnDisk S fingerprint s.disk key hash r := by
  obtain ⟨D, hD, hlookup⟩ := readEntries_written hfp he hb
  obtain ⟨info, entry, hit⟩ := load_ok.1 hload
  refine ⟨D, hm ▸ hD, load_ok.2 ⟨info, entry.sorted, ?_⟩⟩
  refine hit.same ?_ rfl (same_sorted (he _ _ hit.entry_at).json)
  rw [hlookup, hit.entry_at]
  rfl

/-! ## A commit, seen from other keys -/

section
variable {key payloadHash : Str} {result : R} {draw : Draw F} {s s' : Store F}
  {ended : Ended (Exc F E)} {k hash : Str} {r : R}

theorem EntriesOk.insert {entries : Entries F} {entry : Entry F} (he : EntriesOk entries)
    (hentry : EntryOk key entry) : EntriesOk (entries.insert key entry) := by
  intro k e h
  by_cases hk : k = key
  · subst hk
    rw [AList.lookup_insert] at h
    cases h
    exact hentry
  · rw [AList.lookup_insert_ne hk] at h
    exact he _ _ h

theorem EntriesOk.empty : EntriesOk (∅ : Entries F) := fun _ _ he => by cases he

theorem EntriesOk.congr {entries entries' : Entries F} (he : EntriesOk entries)
    (h : ∀ k, entries'.lookup k = entries.lookup k) : EntriesOk entries' :=
  fun k e hk => he k e (by rw [← h, hk])

theorem Recalled.entriesOk {entry : Entry F} (h : Recalled S s s' key entry ended)
    (he : EntriesOk s.entries) (hentry : EntryOk key entry) : EntriesOk s'.entries := by
  cases h with
  | returned h => exact h ▸ he.insert hentry
  | restored _ h => exact he.congr h
  | kept _ _ h => exact h ▸ he.insert hentry

namespace Committed

/-- A commit keeps the entries fit for a manifest. -/
theorem entriesOk (hC : S.codec.ReadsBack)
    (h : Committed S fingerprint key payloadHash result draw s s' ended)
    (he : EntriesOk s.entries) : EntriesOk s'.entries := by
  cases h with
  | untouched _ hs _ => exact hs ▸ he
  | torn pub _ hrec _ => exact hrec.entriesOk he (pub.entryOk hC).2
  | published pub _ _ hrec _ => exact hrec.entriesOk he (pub.entryOk hC).2

theorem lookup_ne (h : Committed S fingerprint key payloadHash result draw s s' ended)
    (hk : k ≠ key) : s'.entries.lookup k = s.entries.lookup k := by
  cases h with
  | untouched _ he _ => rw [he]
  | torn _ _ hrec _ => exact hrec.lookup_ne hk
  | published _ _ _ hrec _ => exact hrec.lookup_ne hk

theorem disk_ne (hA : S.codec.Apart)
    (h : Committed S fingerprint key payloadHash result draw s s' ended) (hk : k ≠ key) :
    s'.disk.lookup (S.path k) = s.disk.lookup (S.path k) := by
  have hpath : S.path k ≠ S.path key := fun he => hk (Setup.path_inj he)
  cases h with
  | untouched _ _ hd => exact hd _ hA.path_payloadTmp
  | torn _ _ _ hd => rw [hd _ hA.path_payloadTmp hA.path_manifestTmp, if_neg hpath]
  | published _ _ _ _ hd =>
    rw [hd _ hA.path_payloadTmp hA.path_manifestTmp, if_neg hA.path_manifest, if_neg hpath]

/-- **A commit is seen by no other key.** -/
theorem load_ne (hA : S.codec.Apart)
    (h : Committed S fingerprint key payloadHash result draw s s' ended) (hk : k ≠ key) :
    load S fingerprint s' k hash = load S fingerprint s k hash :=
  load_congr (lookup_ne h hk) (disk_ne hA h hk)

/-- The manifest after a commit. -/
theorem manifest (hA : S.codec.Apart)
    (h : Committed S fingerprint key payloadHash result draw s s' ended) :
    (ended ≠ .returned ∧ s'.disk.lookup manifestPath = s.disk.lookup manifestPath) ∨
      ∃ (pub : Publication S fingerprint key payloadHash result draw) (bytes : ByteArray),
        manifestBytes S fingerprint (s.entries.insert key pub.entry) = .ok bytes ∧
        s'.disk.lookup manifestPath = some (.file bytes) := by
  have hp : manifestPath ≠ S.payloadTmp key draw := ne_payloadTmp isTmp_manifest
  have hm : manifestPath ≠ draw.manifestTmp := ne_manifestTmp isTmp_manifest
  cases h with
  | untouched hne _ hd => exact Or.inl ⟨hne, hd _ hp⟩
  | torn _ hne _ hd => exact Or.inl ⟨hne, by rw [hd _ hp hm, if_neg hA.path_manifest.symm]⟩
  | published pub bytes hb _ hd => exact Or.inr ⟨pub, bytes, hb, by rw [hd _ hp hm, if_pos rfl]⟩

/-- **A commit loses no checkpoint of another key**, however it ends. -/
theorem onDisk_ne (hC : S.codec.ReadsBack)
    (h : Committed S fingerprint key payloadHash result draw s s' ended) (he : EntriesOk s.entries)
    (hk : k ≠ key) (hload : load S fingerprint s k hash = .ok r)
    (hdisk : ended ≠ .returned → s'.disk.lookup manifestPath = s.disk.lookup manifestPath →
      OnDisk S fingerprint s.disk k hash r) : OnDisk S fingerprint s'.disk k hash r := by
  rcases manifest hC.apart h with ⟨hne, hm⟩ | ⟨pub, bytes, hb, hm⟩
  · exact (hdisk hne hm).of_same hm (disk_ne hC.apart h hk)
  · obtain ⟨hfp, hentry⟩ := pub.entryOk hC
    -- the store that the manifest was written for
    have hdisk_ne := disk_ne hC.apart h hk
    have hload' : load S fingerprint ⟨s'.disk, s.entries.insert key pub.entry⟩ k hash = .ok r := by
      rw [← hload]
      exact load_congr (AList.lookup_insert_ne hk) hdisk_ne
    exact OnDisk.of_written (s := ⟨s'.disk, s.entries.insert key pub.entry⟩) hfp (he.insert hentry)
      hb hm hload'

end Committed

/-! ## An instance -/

/-- A payload of another generation is not loaded. -/
theorem Publication.load_other (hC : S.codec.ReadsBack)
    (pub : Publication S fingerprint key payloadHash result draw) {entry : Entry F}
    (he : s'.entries.lookup key = some entry)
    (hg : entry.field (lit "generation_id") ≠ .str draw.generation)
    (hd : s'.disk.lookup (S.path key) = some (.file pub.bytes)) :
    load S fingerprint s' key hash ≠ .ok r := by
  intro hload
  obtain ⟨info, entry', hit⟩ := load_ok.1 hload
  obtain rfl := Option.some.inj (he.symm.trans hit.entry_at)
  obtain ⟨r', info', hread, hid⟩ := pub.reads hC
  obtain ⟨rfl, rfl⟩ := Prod.mk.inj (Option.some.inj
    (Except.ok.inj (hread.symm.trans (hd ▸ pub.found s'.disk ▸ hit.read))))
  obtain ⟨_, _, _, hbody⟩ := hit.checked.body
  refine hg (hbody.generation.symm.trans ?_)
  rw [Meta.field, hid.generation_id]

/-- A commit that fails in between is not loaded again: its payload has another
    generation than the entry that was restored. -/
theorem Publication.load_restored (hC : S.codec.ReadsBack)
    (pub : Publication S fingerprint key payloadHash result draw) (hfresh : draw.Fresh s)
    (he : s'.entries.lookup key = s.entries.lookup key)
    (hd : s'.disk.lookup (S.path key) = some (.file pub.bytes)) :
    load S fingerprint s' key hash ≠ .ok r := by
  intro hload
  obtain ⟨info, entry, hit⟩ := load_ok.1 hload
  exact pub.load_other hC hit.entry_at (hfresh key entry (by rw [← he, hit.entry_at])) hd hload

/-- The keys whose entries the directory may lack after a commit: one that is ended with
    its entry in memory, and no manifest written, leaves it there; a manifest that is
    written has them all. -/
def unsaved (left : Set Str) (key : Str) (s s' : Store F) (ended : Ended (Exc F E)) : Set Str :=
  {k | ended ≠ .returned ∧ s'.disk.lookup manifestPath = s.disk.lookup manifestPath ∧
    (k ∈ left ∨ k = key ∧ s'.entries.lookup k ≠ s.entries.lookup k)}

/-- The entries of a store that was opened fit in a manifest. -/
theorem Opened.entriesOk (h : Opened S fingerprint s s' (.returned : Ended (Exc F E))) :
    EntriesOk s'.entries := by
  cases h with
  | loaded D hD he _ =>
    rw [he rfl]
    exact (readEntries_ok hD).2
  | wiped _ _ h => exact (h rfl).1 ▸ .empty

/-- The invariant of an instance: its entries fit in a manifest, and what it loads
    is loaded from the directory too, but for some keys that were left. -/
structure Live (S : Setup F R E) (fingerprint : Str) (left : Set Str) (s : Store F) : Prop where
  entries : EntriesOk s.entries
  vouched : ∀ {key hash r}, key ∉ left → load S fingerprint s key hash = .ok r →
    OnDisk S fingerprint s.disk key hash r

namespace Live

variable {left : Set Str}

/-- **A commit** keeps the invariant, however it ends. -/
theorem committed (hC : S.codec.ReadsBack) (hlive : Live S fingerprint left s)
    (hfresh : draw.Fresh s)
    (h : Committed S fingerprint key payloadHash result draw s s' ended) :
    Live S fingerprint (unsaved left key s s' ended) s' := by
  refine ⟨h.entriesOk hC hlive.entries, fun {k hash r} hsaved hload => ?_⟩
  -- unless a manifest was written, the key was not left and its entry is the old one
  have hold : ended ≠ .returned → s'.disk.lookup manifestPath = s.disk.lookup manifestPath →
      k ∉ left ∧ (k = key → s'.entries.lookup k = s.entries.lookup k) := by
    intro hne hm
    refine ⟨fun hl => hsaved ⟨hne, hm, Or.inl hl⟩, fun hk => ?_⟩
    by_contra he
    exact hsaved ⟨hne, hm, Or.inr ⟨hk, he⟩⟩
  by_cases hk : k = key
  · subst hk
    have hpath : ∀ {b : ByteArray}, (if S.path k = S.path k then some (.file b)
        else s.disk.lookup (S.path k)) = some (.file b) := if_pos rfl
    have hmanifest : manifestPath ≠ S.payloadTmp k draw := ne_payloadTmp isTmp_manifest
    have hmanifest' : manifestPath ≠ draw.manifestTmp := ne_manifestTmp isTmp_manifest
    cases h with
    | untouched hne he hd =>
      have hp := hd (S.path k) hC.apart.path_payloadTmp
      have hm := hd _ hmanifest
      rw [load_congr (by rw [he]) hp] at hload
      exact (hlive.vouched (hold hne hm).1 hload).of_same hm hp
    | torn pub hne hrec hd =>
      have hm : s'.disk.lookup manifestPath = s.disk.lookup manifestPath := by
        rw [hd _ hmanifest hmanifest', if_neg hC.apart.path_manifest.symm]
      refine absurd hload (pub.load_restored hC hfresh ((hold hne hm).2 rfl) ?_)
      rw [hd _ hC.apart.path_payloadTmp hC.apart.path_manifestTmp, hpath]
    | published pub b hb hrec hd =>
      have hkept : s'.entries = s.entries.insert k pub.entry →
        OnDisk S fingerprint s'.disk k hash r := by
        intro he
        obtain ⟨hfp, hentry⟩ := pub.entryOk hC
        refine OnDisk.of_written hfp (he ▸ hlive.entries.insert hentry) (he ▸ hb) ?_ hload
        rw [hd _ hmanifest hmanifest', if_pos rfl]
      cases hrec with
      | returned he => exact hkept he
      | kept _ _ he => exact hkept he
      | restored _ he =>
        refine absurd hload (pub.load_restored hC hfresh (he k) ?_)
        rw [hd _ hC.apart.path_payloadTmp hC.apart.path_manifestTmp, if_neg hC.apart.path_manifest,
          hpath]
  · have hload' := hload
    rw [h.load_ne hC.apart hk] at hload'
    exact h.onDisk_ne hC hlive.entries hk hload' fun hne hm =>
      hlive.vouched (hold hne hm).1 hload'

/-- An open that returns establishes it. -/
theorem opened (h : Opened S fingerprint s s' (.returned : Ended (Exc F E))) :
    Live S fingerprint left s' := by
  refine ⟨h.entriesOk, fun _ hload => ?_⟩
  cases h with
  | loaded D hD he hd =>
    obtain rfl := he rfl
    exact ⟨_, by rw [hd _ isTmp_manifest, hD], hload⟩
  | wiped _ _ h =>
    obtain ⟨he, -⟩ := h rfl
    obtain ⟨info, entry, hit⟩ := load_ok.1 hload
    have := hit.entry_at
    rw [he] at this
    cases this

end Live

/-- An instance of a store: it was opened, and then committed results; the keys that are
    left are those that the directory may lack. -/
inductive Instance (S : Setup F R E) (fingerprint : Str) : Set Str → Store F → Prop where
  | opened {s s' : Store F} {held : Bool} {draw : Draw F} {fates : List (Fate F E)} :
      (openStore S fingerprint held draw).run s fates = (.returned, s') →
      Instance S fingerprint ∅ s'
  | committed {left : Set Str} {s s' : Store F} {key payloadHash : Str} {result : R} {draw : Draw F}
      {fates : List (Fate F E)} {ended : Ended (Exc F E)} : Instance S fingerprint left s →
      draw.Fresh s →
      (commit S fingerprint key payloadHash result draw).run s fates = (ended, s') →
      ended ≠ .died → Instance S fingerprint (unsaved left key s s' ended) s'

namespace Instance

variable {left : Set Str}

theorem entriesOk (hC : S.codec.ReadsBack) (h : Instance S fingerprint left s) :
    EntriesOk s.entries := by
  induction h with
  | opened h => exact Opened.entriesOk (open_cases h).1
  | committed _ _ h _ ih => exact (commit_cases h).entriesOk hC ih

theorem live (hC : S.codec.ReadsBack) (h : Instance S fingerprint left s) :
    Live S fingerprint left s := by
  induction h with
  | opened h => exact .opened (open_cases h).1
  | committed _ hfresh h _ ih => exact ih.committed hC hfresh (commit_cases h)

/-- **A commit that returns or raises an `Exception`** leaves no key. -/
theorem committed_calm {fates : List (Fate F E)} (hs : Instance S fingerprint ∅ s)
    (hfresh : draw.Fresh s)
    (h : (commit S fingerprint key payloadHash result draw).run s fates = (ended, s'))
    (hcalm : ended.isCalm S.isException) : Instance S fingerprint ∅ s' := by
  have hdied : ended ≠ .died := by
    rintro rfl
    cases hcalm
  have hinst := hs.committed hfresh h hdied
  have hnone : unsaved ∅ key s s' ended = ∅ := by
    refine Set.eq_empty_iff_forall_notMem.2 ?_
    rintro k ⟨hne, -, hk | ⟨-, hk⟩⟩
    · exact hk
    · cases commit_cases h with
      | untouched _ he _ => exact hk (by rw [he])
      | torn _ _ hrec _ => exact hk (((hrec.calm hcalm).resolve_left fun hret => hne hret.1) k)
      | published _ _ _ hrec _ =>
        exact hk (((hrec.calm hcalm).resolve_left fun hret => hne hret.1) k)
  rwa [hnone] at hinst

theorem fingerprint_ne (h : Instance S fingerprint left s) : fingerprint ≠ [] := by
  induction h with
  | opened h => exact ((open_cases h).2 rfl).2
  | committed _ _ _ _ ih => exact ih

end Instance

/-! ## Fresh generations -/

theorem Draw.Fresh.of_empty (h : s.entries = ∅) : draw.Fresh s := by
  intro k entry hk
  rw [h] at hk
  cases hk

/-- A generation stays fresh when a commit returns that took another one. -/
theorem Draw.Fresh.after_commit (hC : S.codec.ReadsBack) {draw' : Draw F}
    (hfresh : draw'.Fresh s) (hne : draw'.generation ≠ draw.generation) {fates : List (Fate F E)}
    (h : (commit S fingerprint key payloadHash result draw).run s fates = (.returned, s')) :
    draw'.Fresh s' := by
  obtain ⟨pub, -, -, he, -⟩ := commit_published h
  intro k entry hk
  rw [he] at hk
  by_cases hkey : k = key
  · subst hkey
    rw [AList.lookup_insert] at hk
    obtain rfl := Option.some.inj hk
    rw [pub.entry_generation hC]
    exact fun hg => hne (Value.str.inj hg).symm
  · rw [AList.lookup_insert_ne hkey] at hk
    exact hfresh k entry hk

/-! ## A store opened afresh -/

/-- A key of hexadecimal digits is not mistaken for a temporary file. -/
theorem not_tmpLike_hex (h : ∀ c ∈ key, isHexChar c) : ¬ tmpLike key := by
  have hdot : (46 : Code) ∉ key := fun hc => absurd (h _ hc) (by decide)
  rintro (htmp | htmp)
  · exact hdot (htmp.subset (by decide))
  · exact hdot (htmp.subset (by decide))

/-- **An open loses no checkpoint**, however it ends. -/
theorem OnDisk.after_open (hA : S.codec.Apart) {d : Disk} (h : OnDisk S fingerprint d key hash r)
    (hkey : ¬ tmpLike key) (hd : s.disk = d) (hopen : Opened S fingerprint s s' ended) :
    OnDisk S fingerprint s'.disk key hash r ∧
      (ended = .returned → load S fingerprint s' key hash = .ok r) := by
  subst hd
  obtain ⟨D, hD, hload⟩ := h
  have htmp : isTmp (S.path key) = false :=
    Bool.eq_false_iff.2 fun htmp => hkey ((hA.sweep key).1 htmp)
  cases hopen with
  | loaded D' hD' he hdisk =>
    obtain rfl := Option.some.inj (hD.symm.trans hD')
    have hp := hdisk _ htmp
    refine ⟨OnDisk.of_same ⟨D, hD, hload⟩ (hdisk _ isTmp_manifest) hp, fun hret => ?_⟩
    rw [← hload]
    exact load_congr (s := ⟨s.disk, D⟩) (by rw [he hret]) hp
  | wiped hnone _ _ =>
    rw [hD] at hnone
    cases hnone

/-- **The instance vouches for no more than the directory does**: a checkpoint that
    it has is loaded by every store freshly opened on the directory. -/
theorem live_vouches_for_disk (hC : S.codec.ReadsBack) {s : Store F} {key hash : Str}
    (hs : Instance S fingerprint ∅ s) (hkey : ∀ c ∈ key, isHexChar c)
    (hhas : has S fingerprint s key hash = .ok true) :
    ∃ r, load S fingerprint s key hash = .ok r ∧
      (∀ (s₀ s' : Store F) held draw fates, s₀.disk = s.disk →
        (openStore S fingerprint held draw).run s₀ fates = (.returned, s') →
        has S fingerprint s' key hash = .ok true ∧ load S fingerprint s' key hash = .ok r) ∧
      ∀ draw, ∃ s', (openStore S fingerprint true draw).run s [] = (.returned, s') := by
  obtain ⟨r, hload⟩ := (has_true hC.missing).1 hhas
  have hdisk := (hs.live hC).vouched (Set.notMem_empty key) hload
  refine ⟨r, hload, fun s₀ s' held draw fates hd hopen => ?_, fun draw => ?_⟩
  · have hload' := (hdisk.after_open hC.apart (not_tmpLike_hex hkey) hd (open_cases hopen).1).2 rfl
    exact ⟨(has_true hC.missing).2 ⟨r, hload'⟩, hload'⟩
  · obtain ⟨D, hD, -⟩ := hdisk
    obtain ⟨s', hrun, -⟩ := open_returns draw hs.fingerprint_ne hD
    exact ⟨s', hrun⟩

/-- An instance on a new directory starts without entries. -/
theorem entries_of_new {held : Bool} {fates : List (Fate F E)}
    (hm : s.disk.lookup manifestPath = none)
    (h : (openStore S fingerprint held draw).run s fates = (.returned, s')) : s'.entries = ∅ := by
  cases (open_cases h).1 with
  | loaded D hD =>
    rw [hm] at hD
    cases hD
  | wiped _ _ h => exact (h rfl).1

end

/-- Records that were committed are loaded. -/
theorem load_committed {F E : Type} [DecidableEq F] {M : Platform F}
    {sha256 : ByteArray → List (Fin 256)} {isException : E → Bool}
    {fingerprint key payloadHash : Str} {draw : Draw F} {s s' : Store F}
    {records : List (PyVal F)} {fates : List (Fate F E)} (hjson : ∀ rec ∈ records, rec.IsJson)
    (hdepth : ∀ rec ∈ records, rec.depth ≤ M.interp.innerDepth)
    (hcommit : (commit (jsonlSetup M none sha256 isException) fingerprint key payloadHash records
      draw).run s fates = (.returned, s')) :
    load (jsonlSetup M none sha256 isException) fingerprint s' key payloadHash =
      .ok (records.map Value.sortKeys) := by
  have hC := jsonl_readsBack (E := E) M.interp none
  obtain ⟨pub, b, hb, he, hd⟩ := commit_returned hC.apart hcommit
  have hstable : (jsonlCodec (E := E) M.interp none).Stable records (records.map Value.sortKeys) :=
    jsonl_stable hjson hdepth fun _ => rfl
  exact pub.load_published hC hstable hb he hd

/-- A commit on a new directory is an instance that has what it committed. -/
theorem Instance.of_new {F E : Type} [DecidableEq F] {M : Platform F}
    {sha256 : ByteArray → List (Fin 256)} {isException : E → Bool}
    {fingerprint key payloadHash : Str} {held : Bool} {draw draw' : Draw F} {s s' : Store F}
    {records : List (PyVal F)} (hjson : ∀ rec ∈ records, rec.IsJson)
    (hdepth : ∀ rec ∈ records, rec.depth ≤ M.interp.innerDepth)
    (hopen : (openStore (jsonlSetup M none sha256 isException) fingerprint held draw).run ⟨∅, ∅⟩ [] =
      (.returned, s))
    (hcommit : (commit (jsonlSetup M none sha256 isException) fingerprint key payloadHash records
      draw').run s [] = (.returned, s')) :
    Instance (jsonlSetup M none sha256 isException) fingerprint ∅ s' ∧
      load (jsonlSetup M none sha256 isException) fingerprint s' key payloadHash =
        .ok (records.map Value.sortKeys) := by
  have hfresh : draw'.Fresh s := .of_empty (entries_of_new rfl hopen)
  exact ⟨.committed_calm (.opened hopen) hfresh hcommit rfl, load_committed hjson hdepth hcommit⟩

/-- The record `{"n": 1}`. -/
def plainRecords : List (PyVal Half) := [.dict (.item (.str (lit "n")) (.int 1) .empty)]

theorem plainRecords_json : ∀ rec ∈ plainRecords, rec.IsJson := by
  simp [plainRecords, Value.IsJson, Value.toList, Key.isStr]

theorem plainRecords_depth : ∀ rec ∈ plainRecords, rec.depth ≤ plainPlatform.interp.innerDepth := by
  intro rec hrec
  rw [List.mem_singleton.1 hrec]
  decide

theorem plainRecords_sorted : plainRecords.map Value.sortKeys = plainRecords := rfl

/-- The record is committed on a new directory. -/
theorem plain_committed : ∃ s s' : Store Half,
    (openStore (plainSetup none) (lit "f") true plainDraw).run ⟨∅, ∅⟩ [] = (.returned, s) ∧
    (commit (plainSetup none) (lit "f") (lit "a") (lit "h") plainRecords plainDraw).run s [] =
      (.returned, s') :=
  runs_returned (by decide +kernel)

theorem hex_a : ∀ c ∈ lit "a", isHexChar c := by
  intro c hc
  rw [List.mem_singleton.1 hc]
  decide

theorem live_vouches_for_disk_sample : ∃ s s' : Store Half,
    (openStore (plainSetup none) (lit "f") true plainDraw).run s [] = (.returned, s') ∧
      s'.entries ≠ ∅ ∧ has (plainSetup none) (lit "f") s' (lit "a") (lit "h") = .ok true ∧
      load (plainSetup none) (lit "f") s' (lit "a") (lit "h") = .ok plainRecords := by
  have hC := jsonl_readsBack (E := Bool) Half.interp none
  obtain ⟨s₀, s, hopen₀, hcommit⟩ := plain_committed
  obtain ⟨hs, hload⟩ := Instance.of_new plainRecords_json plainRecords_depth hopen₀ hcommit
  have hhas := (has_true hC.missing).2 ⟨_, hload⟩
  obtain ⟨r, hr, hagain, hopens⟩ := live_vouches_for_disk hC hs hex_a hhas
  obtain ⟨s', hopen⟩ := hopens plainDraw
  obtain ⟨hhas', hload'⟩ := hagain _ _ _ _ _ rfl hopen
  obtain rfl := Except.ok.inj (hr.symm.trans hload)
  refine ⟨s, s', hopen, fun he => ?_, hhas', plainRecords_sorted ▸ hload'⟩
  rw [has, he] at hhas'
  cases hhas'

end ResumableBatch
