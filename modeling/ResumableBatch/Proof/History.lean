/-
  The history of a directory: stores are opened on it under any fingerprints, and
  commit results.  Whatever survives of it, what is found is the result of the
  commit whose entry stands in the manifest (`no_wrong_hit`).
-/
import ResumableBatch.Proof.Admission

namespace ResumableBatch

open Text Json

variable {F R E : Type}

/-! ## Histories -/

/-- The arguments of a commit, the fingerprint of its store, and what it drew. -/
structure CommitCall (F R : Type) where
  fingerprint : Str
  key : Str
  payloadHash : Str
  result : R
  draw : Draw F

/-- A call of a store, and the directory after it. -/
structure Moment (F R : Type) where
  /-- the commit, if the call was one -/
  commit : Option (CommitCall F R)
  disk : Disk

/-- The commits of a history. -/
def commitCalls (tr : List (Moment F R)) : List (CommitCall F R) := tr.filterMap (·.commit)

theorem commitCalls_snoc (tr : List (Moment F R)) (m : Moment F R) :
    commitCalls (tr ++ [m]) = commitCalls tr ++ m.commit.toList := by
  rw [commitCalls, List.filterMap_append]
  cases h : m.commit <;> simp [commitCalls, h]

/-- What stood under a name after some call. -/
def Version (tr : List (Moment F R)) (name : Str) (node : Node) : Prop :=
  ∃ m ∈ tr, m.disk.lookup name = some node

/-- A directory, and the stores opened on it: the fingerprint of each, and its map
    `_entries`. -/
structure Cache (F : Type) where
  disk : Disk
  stores : List (Str × Entries F) := []

section
variable [DecidableEq F]

/-- A store is opened under any fingerprint, or one of the stores commits a result; the
    call may end in any way. -/
inductive Cache.Step (S : Setup F R E) : Cache F → Moment F R → Cache F → Prop where
  | opened {s fingerprint held draw fates st} :
      (openStore S fingerprint held draw).run ⟨s.disk, ∅⟩ fates = (.returned, st) →
      Step S s ⟨none, st.disk⟩ ⟨st.disk, s.stores ++ [(fingerprint, st.entries)]⟩
  | openFails {s fingerprint held draw fates ended st} : ended ≠ .returned →
      (openStore S fingerprint held draw).run ⟨s.disk, ∅⟩ fates = (ended, st) →
      Step S s ⟨none, st.disk⟩ ⟨st.disk, s.stores⟩
  | commit {s n fingerprint entries key payloadHash result draw fates ended st} :
      s.stores[n]? = some (fingerprint, entries) →
      (ResumableBatch.commit S fingerprint key payloadHash result draw).run ⟨s.disk, entries⟩ fates =
        (ended, st) →
      Step S s ⟨some ⟨fingerprint, key, payloadHash, result, draw⟩, st.disk⟩
        ⟨st.disk, s.stores.set n (fingerprint, st.entries)⟩

/-- No store has been opened on the directory, and it has no manifest. -/
def Cache.New (s : Cache F) : Prop := s.stores = [] ∧ s.disk.lookup manifestPath = none

/-! ## What commits leave -/

variable {S : Setup F R E} {fingerprint key : Str} {log log' : List (CommitCall F R)}
  {tr : List (Moment F R)} {c : CommitCall F R} {s s' st : Store F} {ended : Ended (Exc F E)}

/-- The commit published the entry, but for the order of its fields. -/
def CommitCall.Entered (S : Setup F R E) (c : CommitCall F R) (entry : Entry F) : Prop :=
  ∃ pub : Publication S c.fingerprint c.key c.payloadHash c.result c.draw, pub.entry.Same entry

/-- The entries are those of commits under the fingerprint. -/
def From (S : Setup F R E) (log : List (CommitCall F R)) (fingerprint : Str) (entries : Entries F) :
    Prop :=
  ∀ key entry, entries.lookup key = some entry →
    ∃ c ∈ log, c.fingerprint = fingerprint ∧ c.key = key ∧ c.Entered S entry

/-- A manifest that was written for such entries. -/
def ManifestFrom (S : Setup F R E) (log : List (CommitCall F R)) (node : Node) : Prop :=
  ∃ fingerprint entries b, node = .file b ∧ manifestBytes S fingerprint entries = .ok b ∧
    (NoPair fingerprint ∨ entries = ∅) ∧ EntriesOk entries ∧ From S log fingerprint entries

theorem from_empty : From S log fingerprint ∅ := by
  intro key entry h
  cases h

theorem From.mono (hlog : ∀ c ∈ log, c ∈ log') {entries : Entries F}
    (h : From S log fingerprint entries) : From S log' fingerprint entries := by
  intro key entry he
  obtain ⟨c, hc, hentered⟩ := h key entry he
  exact ⟨c, hlog c hc, hentered⟩

theorem ManifestFrom.mono (hlog : ∀ c ∈ log, c ∈ log') {node : Node}
    (h : ManifestFrom S log node) : ManifestFrom S log' node := by
  obtain ⟨fingerprint, entries, b, hnode, hb, hpair, he, hfrom⟩ := h
  exact ⟨fingerprint, entries, b, hnode, hb, hpair, he, hfrom.mono hlog⟩

/-- **What is loaded from such a manifest** are entries of commits, with lengths that have
    a text. -/
theorem ManifestFrom.read {node : Node} (h : ManifestFrom S log node) {D : Entries F}
    (hD : readEntries S fingerprint (some node) = some D) : From S log fingerprint D ∧
      ∀ key entry, D.lookup key = some entry → ∀ (f : Str) (n : ℕ), entry.field f = .int n →
        (natText n).length ≤ S.interp.maxDigits := by
  obtain ⟨fp, entries, b, rfl, hb, hpair, he, hfrom⟩ := h
  -- the fingerprint of a manifest without entries may be read as another one
  obtain ⟨fp', hpair', hb', hfrom'⟩ : ∃ fp', NoPair fp' ∧ manifestBytes S fp' entries = .ok b ∧
      From S log fp' entries := by
    rcases hpair with hpair | rfl
    · exact ⟨fp, hpair, hb, hfrom⟩
    · obtain ⟨fp', hpair', hrender⟩ := renderStr_joined fp
      exact ⟨fp', hpair', (manifestBytes_congr hrender).trans hb, from_empty⟩
  obtain ⟨D', hD', hlookup⟩ := readEntries_written hpair' he hb'
  obtain ⟨rfl, rfl⟩ := readEntries_unique hD hD'
  have hsorted : ∀ {key entry}, D.lookup key = some entry →
      ∃ e, entries.lookup key = some e ∧ e.Same entry := by
    intro key entry hentry
    rw [hlookup, Option.map_eq_some_iff] at hentry
    obtain ⟨e, hl, rfl⟩ := hentry
    exact ⟨e, hl, same_sorted (he _ _ hl).json⟩
  constructor
  · intro key entry hentry
    obtain ⟨e, hl, hsame⟩ := hsorted hentry
    obtain ⟨c, hc, hfp, hkey, pub, hpub⟩ := hfrom' key e hl
    exact ⟨c, hc, hfp, hkey, pub, hpub.trans hsame⟩
  · intro key entry hentry f n hf
    obtain ⟨e, hl, hsame⟩ := hsorted hentry
    obtain ⟨t, ht⟩ := field_written hb' hl ((hsame f (.int n) trivial).1 hf) nofun
    exact (encode_int.1 ht).1

/-! ## One call -/

/-- What an open loads. -/
theorem From.opened (hm : ∀ node, s.disk.lookup manifestPath = some node → ManifestFrom S log node)
    (h : Opened S fingerprint s st (.returned : Ended (Exc F E))) :
    From S log fingerprint st.entries := by
  cases h with
  | loaded D hD he _ =>
    rw [he rfl]
    cases hnode : s.disk.lookup manifestPath with
    | none =>
      rw [hnode] at hD
      cases hD
    | some node => exact ((hm node hnode).read (hnode ▸ hD)).1
  | wiped _ _ h =>
    rw [(h rfl).1]
    exact from_empty

theorem ManifestFrom.opened
    (hm : ∀ node, s.disk.lookup manifestPath = some node → ManifestFrom S log node)
    (h : Opened S fingerprint s st ended) {node : Node}
    (hnode : st.disk.lookup manifestPath = some node) : ManifestFrom S log node := by
  cases h with
  | loaded _ _ _ hd =>
    rw [hd _ isTmp_manifest] at hnode
    exact hm node hnode
  | wiped _ hw _ =>
    rcases hw.manifest with hsame | hnone | ⟨b, hb, hwritten⟩
    · exact hm node (hsame ▸ hnode)
    · rw [hnone] at hnode
      cases hnode
    · rw [hwritten] at hnode
      obtain rfl := Option.some.inj hnode
      exact ⟨_, ∅, b, rfl, hb, Or.inr rfl, .empty, from_empty⟩

/-- The entries after one more was put in. -/
theorem From.insert {entries : Entries F} (h : From S log c.fingerprint entries)
    (pub : Publication S c.fingerprint c.key c.payloadHash c.result c.draw) :
    From S (log ++ [c]) c.fingerprint (entries.insert c.key pub.entry) := by
  intro key entry he
  by_cases hk : key = c.key
  · subst hk
    rw [AList.lookup_insert] at he
    obtain rfl := Option.some.inj he
    exact ⟨c, by simp, rfl, rfl, pub, .refl _⟩
  · rw [AList.lookup_insert_ne hk] at he
    exact h.mono (fun _ => List.mem_append_left _) key entry he

theorem From.recalled (h : From S log c.fingerprint s.entries)
    (pub : Publication S c.fingerprint c.key c.payloadHash c.result c.draw)
    (hrec : Recalled S s st c.key pub.entry ended) :
    From S (log ++ [c]) c.fingerprint st.entries := by
  cases hrec with
  | returned he =>
    rw [he]
    exact h.insert pub
  | restored _ he =>
    intro key entry hentry
    rw [he] at hentry
    exact h.mono (fun _ => List.mem_append_left _) key entry hentry
  | kept _ _ he =>
    rw [he]
    exact h.insert pub

/-- What a commit leaves in memory. -/
theorem From.committed (h : From S log c.fingerprint s.entries)
    (hcommit : Committed S c.fingerprint c.key c.payloadHash c.result c.draw s st ended) :
    From S (log ++ [c]) c.fingerprint st.entries := by
  cases hcommit with
  | untouched _ he _ =>
    rw [he]
    exact h.mono fun _ => List.mem_append_left _
  | torn pub _ hrec _ => exact h.recalled pub hrec
  | published pub _ _ hrec _ => exact h.recalled pub hrec

/-- The manifest that it leaves. -/
theorem ManifestFrom.committed (hC : S.codec.ReadsBack) (he : EntriesOk s.entries)
    (h : From S log c.fingerprint s.entries)
    (hm : ∀ node, s.disk.lookup manifestPath = some node → ManifestFrom S log node)
    (hcommit : Committed S c.fingerprint c.key c.payloadHash c.result c.draw s st ended)
    {node : Node} (hnode : st.disk.lookup manifestPath = some node) :
    ManifestFrom S (log ++ [c]) node := by
  rcases hcommit.manifest hC.apart with ⟨-, hsame⟩ | ⟨pub, b, hb, hwritten⟩
  · exact (hm node (hsame ▸ hnode)).mono fun _ => List.mem_append_left _
  · rw [hwritten] at hnode
    obtain rfl := Option.some.inj hnode
    obtain ⟨hpair, hentry⟩ := pub.entryOk hC
    exact ⟨_, _, b, rfl, hb, Or.inl hpair, he.insert hentry, h.insert pub⟩

/-! ## The whole history -/

/-- The invariant of a history. -/
structure Accounted (S : Setup F R E) (tr : List (Moment F R)) (s : Cache F) : Prop where
  stores : ∀ fingerprint entries, (fingerprint, entries) ∈ s.stores →
    EntriesOk entries ∧ From S (commitCalls tr) fingerprint entries
  manifest : ∀ node, s.disk.lookup manifestPath = some node →
    ManifestFrom S (commitCalls tr) node
  versions : ∀ node, Version tr manifestPath node → ManifestFrom S (commitCalls tr) node

namespace Accounted

variable {x x' : Cache F} {m : Moment F R}

theorem initial (h : x.New) : Accounted S ([] : List (Moment F R)) x := by
  obtain ⟨hstores, hm⟩ := h
  refine ⟨fun fp entries hmem => ?_, fun node hnode => ?_, ?_⟩
  · rw [hstores] at hmem
    cases hmem
  · rw [hm] at hnode
    cases hnode
  · rintro node ⟨m, hmem, -⟩
    cases hmem

/-- The directory after a call is the last version. -/
theorem snoc (h : Accounted S tr x) (hdisk : m.disk = x'.disk)
    (hstores : ∀ fingerprint entries, (fingerprint, entries) ∈ x'.stores →
      EntriesOk entries ∧ From S (commitCalls (tr ++ [m])) fingerprint entries)
    (hm : ∀ node, x'.disk.lookup manifestPath = some node →
      ManifestFrom S (commitCalls (tr ++ [m])) node) : Accounted S (tr ++ [m]) x' := by
  refine ⟨hstores, hm, ?_⟩
  rintro node ⟨m', hmem, hnode⟩
  rw [List.mem_append, List.mem_singleton] at hmem
  rcases hmem with hmem | rfl
  · refine (h.versions node ⟨m', hmem, hnode⟩).mono fun c hc => ?_
    rw [commitCalls_snoc]
    exact List.mem_append_left _ hc
  · exact hm node (hdisk ▸ hnode)

/-- **Every call keeps the accounts.** -/
theorem step (hC : S.codec.ReadsBack) (h : Accounted S tr x) (hstep : x.Step S m x') :
    Accounted S (tr ++ [m]) x' := by
  cases hstep with
  | @opened fingerprint held draw fates st hrun =>
    have hopen := (open_cases hrun).1
    refine h.snoc rfl (fun fp entries hmem => ?_) fun node hnode => ?_
    · rw [commitCalls_snoc, Option.toList_none, List.append_nil]
      rw [List.mem_append, List.mem_singleton] at hmem
      rcases hmem with hmem | hnew
      · exact h.stores fp entries hmem
      · obtain ⟨rfl, rfl⟩ := Prod.mk.inj hnew
        exact ⟨hopen.entriesOk, .opened h.manifest hopen⟩
    · rw [commitCalls_snoc, Option.toList_none, List.append_nil]
      exact .opened h.manifest hopen hnode
  | openFails _ hrun =>
    refine h.snoc rfl (fun fp entries hmem => ?_) fun node hnode => ?_
    · rw [commitCalls_snoc, Option.toList_none, List.append_nil]
      exact h.stores fp entries hmem
    · rw [commitCalls_snoc, Option.toList_none, List.append_nil]
      exact .opened h.manifest (open_cases hrun).1 hnode
  | @commit n fingerprint entries key payloadHash result draw fates ended st hn hrun =>
    obtain ⟨he, hfrom⟩ := h.stores _ _ (List.mem_of_getElem? hn)
    let c : CommitCall F R := ⟨fingerprint, key, payloadHash, result, draw⟩
    have hcommit : Committed S c.fingerprint c.key c.payloadHash c.result c.draw _ st ended :=
      commit_cases hrun
    refine h.snoc rfl (fun fp entries' hmem => ?_) fun node hnode => ?_
    · rw [commitCalls_snoc, Option.toList_some]
      rcases List.mem_or_eq_of_mem_set hmem with hmem | hnew
      · obtain ⟨he', hfrom'⟩ := h.stores fp entries' hmem
        exact ⟨he', hfrom'.mono fun _ => List.mem_append_left _⟩
      · obtain ⟨rfl, rfl⟩ := Prod.mk.inj hnew
        exact ⟨hcommit.entriesOk hC he, hfrom.committed hcommit⟩
    · rw [commitCalls_snoc, Option.toList_some]
      exact .committed hC he hfrom h.manifest hcommit hnode

theorem run (hC : S.codec.ReadsBack) (hnew : x.New) (h : Lts.Run (Cache.Step S) x tr x') :
    Accounted S tr x' :=
  h.inv (Accounted S) (initial hnew) fun _ hacc hstep => hacc.step hC hstep

end Accounted

/-! ## What is found afterwards -/

/-- What may stand under the name of the manifest after a crash: nothing, any version, or
    something that the open rejects. -/
def Survives (S : Setup F R E) (fingerprint : Str) (tr : List (Moment F R)) (node : Option Node) :
    Prop :=
  (∀ n, node = some n → Version tr manifestPath n) ∨ readEntries S fingerprint node = none

/-- The entry of a commit stands in the manifest. -/
def CommitCall.StandsIn (S : Setup F R E) (c : CommitCall F R) (fingerprint key : Str)
    (node : Option Node) : Prop :=
  ∃ D entry, readEntries S fingerprint node = some D ∧ D.lookup key = some entry ∧ c.Entered S entry

/-- Whatever is read with the canonical bytes of a result is that result. -/
def Codec.Determines (C : Codec R E) (Eqv : R → R → Prop) (r : R) : Prop :=
  ∀ {node r' info body}, C.readFile node = .ok (some (r', info)) → C.canonicalBytes r = .ok body →
    C.canonicalBytes r' = .ok body → Eqv r r'

/-- What was entered under one generation was entered by one commit. -/
theorem CommitCall.Entered.unique (hC : S.codec.ReadsBack)
    (hgen : (log.map (·.draw.generation)).Nodup) {c' : CommitCall F R} (hc : c ∈ log)
    (hc' : c' ∈ log) {entry : Entry F} (h : c.Entered S entry) (h' : c'.Entered S entry) :
    c' = c := by
  obtain ⟨pub, hsame⟩ := h
  obtain ⟨pub', hsame'⟩ := h'
  have hg := (hsame _ (.str c.draw.generation) trivial).2 (pub.entry_generation hC)
  have hg' := (hsame' _ (.str c'.draw.generation) trivial).2 (pub'.entry_generation hC)
  have heq : c'.draw.generation = c.draw.generation := Value.str.inj (hg'.symm.trans hg)
  exact List.inj_on_of_nodup_map hgen hc' hc heq

/-- **A hit is the result of the commit** whose entry it rests on. -/
theorem CommitCall.Entered.hit (hC : S.codec.ReadsBack) (hsha : Function.Injective S.sha256)
    {Eqv : R → R → Prop} (hdet : S.codec.Determines Eqv c.result) {entry : Entry F}
    (h : c.Entered S entry) {hash : Str} {r : R} {info : Meta}
    (hit : Hit S fingerprint st key hash r info entry) :
    c.payloadHash = hash ∧ Eqv c.result r := by
  obtain ⟨pub, hsame⟩ := h
  have hhash := (hsame _ (.str c.payloadHash) trivial).2 (pub.entry_hash hC)
  have hdigest := (hsame _ (.str pub.digest) trivial).2 (pub.entry_digest hC)
  refine ⟨Value.str.inj (hhash.symm.trans hit.entry_hash), ?_⟩
  -- one digest, and so one body
  obtain ⟨digest, _, _, hchecked⟩ := hit.checked.body
  obtain ⟨body, hbody, hpub, -⟩ := digestOf_ok.1 pub.prepared.digested
  obtain ⟨body', hbody', hread, -⟩ := digestOf_ok.1 hchecked.digested
  have heq := Value.str.inj (hdigest.symm.trans hchecked.entry_digest)
  rw [hpub, hread] at heq
  obtain rfl := hsha (hexText_inj heq)
  exact hdet hit.read hbody ((S.codec.checked_upTo r).ok hbody')

/-- What an open of a surviving directory loads. -/
theorem Survives.loaded (hacc : ∀ node, Version tr manifestPath node → ManifestFrom S log node)
    {d : Disk} (hd : Survives S fingerprint tr (d.lookup manifestPath)) {entries : Entries F}
    (hopen : Opened S fingerprint ⟨d, entries⟩ st (.returned : Ended (Exc F E))) {entry : Entry F}
    (he : st.entries.lookup key = some entry) :
    readEntries S fingerprint (d.lookup manifestPath) = some st.entries ∧
      From S log fingerprint st.entries ∧ ∀ (f : Str) (n : ℕ), entry.field f = .int n →
        (natText n).length ≤ S.interp.maxDigits := by
  cases hopen with
  | loaded D hD hentries _ =>
    obtain rfl := hentries rfl
    have hD' : readEntries S fingerprint (d.lookup manifestPath) = some st.entries := hD
    refine ⟨hD', ?_⟩
    rcases hd with hversion | hnone
    · cases hnode : d.lookup manifestPath with
      | none =>
        rw [hnode] at hD'
        cases hD'
      | some node =>
        obtain ⟨hfrom, hdigits⟩ := (hacc node (hversion node hnode)).read (hnode ▸ hD')
        exact ⟨hfrom, hdigits _ _ he⟩
    · rw [hnone] at hD'
      cases hD'
  | wiped _ _ h =>
    rw [(h rfl).1] at he
    cases he

/-! ### Lines of JSON -/

/-- What a record is read back as: the value of its document, but for the order of the
    items of dictionaries. -/
def ReadsAs (I : Interp F) (v v' : PyVal F) : Prop :=
  ∃ t : Tree F .value, encode I v = .ok t ∧ t.toValue = v'.sortKeys

/-- What is read of a file are JSON values. -/
theorem jsonlReadFile_isJson {I : Interp F} {node : Option Node} {records : List (PyVal F)}
    {info : Meta} (h : jsonlReadFile (E := E) I node = .ok (some (records, info))) :
    ∀ rec ∈ records, rec.IsJson := by
  cases hlines : payloadLines node with
  | nil =>
    rw [readFile_nil hlines] at h
    cases h
  | cons first rest =>
    by_cases hhead : ∃ head, Header I first head
    · obtain ⟨head, hhead⟩ := hhead
      rw [readFile_header hlines hhead] at h
      obtain ⟨read, hrest, h⟩ := Except.bind_ok.1 h
      rcases readRecords_cases (I := I) (E := E) rest with ⟨vs, hvs, -, hread⟩ | ⟨-, -, hread⟩ |
        ⟨-, -, hread⟩
      · obtain rfl := Except.ok.inj (hread.symm.trans hrest)
        obtain ⟨m, -, h⟩ := Except.bind_ok.1 h
        cases h
        intro rec hrec
        obtain ⟨s, hs⟩ := hvs.loaded rec hrec
        exact (loads_ok I hs).1
      · obtain rfl := Except.ok.inj (hread.symm.trans hrest)
        cases h
      · rw [hread] at hrest
        cases hrest
    · rcases readFile_headless (E := E) hlines fun info hinfo => hhead ⟨info, hinfo⟩ with
        ⟨-, hread⟩ | ⟨-, hread⟩
      · rw [hread] at h
        cases h
      · rw [hread] at h
        cases h

/-- **The canonical bytes determine the records.** -/
theorem jsonl_determines (I : Interp F) (validator : Option (PyVal F → Except E Bool))
    (records : List (PyVal F)) :
    (jsonlCodec I validator).Determines (List.Forall₂ (ReadsAs I)) records := by
  intro node records' info body hread hbody hbody'
  have hjson := jsonlReadFile_isJson hread
  have hdocs := canonicalRecordBytes_inj hbody hbody'
  clear hread hbody hbody'
  induction hdocs with
  | nil => exact .nil
  | cons hdoc _ ih =>
    rw [List.forall_mem_cons] at hjson
    obtain ⟨t, ht, ht'⟩ := hdoc
    exact .cons ⟨t, ht, toValue_encode I hjson.1 ht'⟩ (ih hjson.2)

/-- A JSON value is read back as it was, but for the order of the items of dictionaries. -/
theorem ReadsAs.of_json {I : Interp F} {v v' : PyVal F} (hv : v.IsJson) (h : ReadsAs I v v') :
    v.sortKeys = v'.sortKeys := by
  obtain ⟨t, ht, hread⟩ := h
  exact (toValue_encode I hv ht).symm.trans hread

/-- **No wrong, stale or incomplete hit.**  Whatever is left of a history, a checkpoint that
    is found is the result of the one commit whose entry stands in the manifest, if the
    canonical bytes determine a result; and for lines of JSON they do. -/
theorem no_wrong_hit (hC : S.codec.ReadsBack) (hsha : Function.Injective S.sha256)
    {Eqv : R → R → Prop} {x x' : Cache F} (hnew : x.New) (hrun : Lts.Run (Cache.Step S) x tr x')
    (hgen : ((commitCalls tr).map (·.draw.generation)).Nodup)
    (hdet : ∀ c ∈ commitCalls tr, S.codec.Determines Eqv c.result) {d : Disk}
    (hd : Survives S fingerprint tr (d.lookup manifestPath)) {entries : Entries F} {held : Bool}
    {draw : Draw F} {fates : List (Fate F E)}
    (hopen : (openStore S fingerprint held draw).run ⟨d, entries⟩ fates = (.returned, st))
    {hash : Str} (hhas : has S fingerprint st key hash = .ok true) :
    (∃ c, (∀ c', c' ∈ commitCalls tr ∧ c'.StandsIn S fingerprint key (d.lookup manifestPath) ↔
        c' = c) ∧ c.fingerprint = fingerprint ∧ c.key = key ∧ c.payloadHash = hash ∧
      ∃ r, load S fingerprint st key hash = .ok r ∧ Eqv c.result r) ∧
    ∀ (I : Interp F) (validator : Option (PyVal F → Except E Bool)) (records : List (PyVal F)),
      (jsonlCodec I validator).Determines (List.Forall₂ (ReadsAs I)) records ∧
        ∀ v v' : PyVal F, v.IsJson → ReadsAs I v v' → v.sortKeys = v'.sortKeys := by
  refine ⟨?_, fun I validator records =>
    ⟨jsonl_determines I validator records, fun _ _ => ReadsAs.of_json⟩⟩
  obtain ⟨r, hload⟩ := (has_true hC.missing).1 hhas
  obtain ⟨info, entry, hit⟩ := load_ok.1 hload
  obtain ⟨hD, hfrom, -⟩ := hd.loaded (Accounted.run hC hnew hrun).versions (open_cases hopen).1
    hit.entry_at
  obtain ⟨c, hc, hfp, hkey, hentered⟩ := hfrom key entry hit.entry_at
  obtain ⟨hhash, heqv⟩ := hentered.hit hC hsha (hdet c hc) hit
  refine ⟨c, fun c' => ⟨?_, ?_⟩, hfp, hkey, hhash, r, hload, heqv⟩
  · rintro ⟨hc', D, entry', hD', hentry', hentered'⟩
    obtain rfl := Option.some.inj (hD.symm.trans hD')
    obtain rfl := Option.some.inj (hit.entry_at.symm.trans hentry')
    exact hentered.unique hC hgen hc hc' hentered'
  · rintro rfl
    exact ⟨hc, st.entries, entry, hD, hit.entry_at, hentered⟩

end

theorem plain_sha256_injective : Function.Injective (plainSetup none).sha256 := by
  rintro ⟨⟨l⟩⟩ ⟨⟨l'⟩⟩ h
  have hinj : Function.Injective UInt8.toFin := fun a b => UInt8.toFin_inj.1
  have hl : l = l' := List.map_injective_iff.2 hinj h
  rw [hl]

/-- A cache that is opened again. -/
theorem no_wrong_hit_sample : ∃ s st : Store Half,
    (openStore (E := Bool) (plainSetup none) (lit "f") true plainDraw).run ⟨s.disk, ∅⟩ [] =
      (.returned, st) ∧
    has (plainSetup none) (lit "f") st (lit "a") (lit "h") = .ok true ∧
    ∃ records, load (plainSetup none) (lit "f") st (lit "a") (lit "h") = .ok records ∧
      List.Forall₂ (ReadsAs Half.interp) plainRecords records := by
  have hC := jsonl_readsBack (E := Bool) Half.interp none
  obtain ⟨s₀, s, hopen₀, hcommit⟩ := plain_committed
  obtain ⟨hs, hload⟩ := Instance.of_new plainRecords_json plainRecords_depth hopen₀ hcommit
  -- the checkpoint is on disk, and so found after the next open
  have hdisk := (hs.live hC).vouched (Set.notMem_empty _) hload
  obtain ⟨D, hD, -⟩ := id hdisk
  have hfp : lit "f" ≠ [] := by decide
  obtain ⟨st, hopen, -⟩ := open_returns (E := Bool) (s := ⟨s.disk, ∅⟩) plainDraw hfp hD
  have hhas := (has_true hC.missing).2 ⟨_, (hdisk.after_open (s := ⟨s.disk, ∅⟩) hC.apart
    (not_tmpLike_hex hex_a) rfl (open_cases hopen).1).2 rfl⟩
  -- the history: an open and a commit
  have hrun := (Lts.Run.single (Cache.Step.opened (s := ⟨∅, []⟩) hopen₀)).snoc
    (Cache.Step.commit (n := 0) rfl hcommit)
  have hnew : Cache.New (⟨∅, []⟩ : Cache Half) := ⟨rfl, rfl⟩
  have hdet : ∀ records, (plainSetup none).codec.Determines (List.Forall₂ (ReadsAs Half.interp))
      records := jsonl_determines Half.interp none
  obtain ⟨⟨c, hc, -, -, -, r, hr, heqv⟩, -⟩ := no_wrong_hit hC plain_sha256_injective hnew hrun
    (List.nodup_singleton _) (fun c _ => hdet c.result)
    (Or.inl fun n hn => ⟨_, List.mem_append_right _ (List.mem_singleton_self _), hn⟩) hopen hhas
  obtain rfl := List.mem_singleton.1 ((hc c).2 rfl).1
  exact ⟨s, st, hopen, hhas, r, hr, heqv⟩

end ResumableBatch
