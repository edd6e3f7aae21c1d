/-
  A directory that was torn: any version of the manifest stands with any versions of
  the payloads.  A torn payload is missed, and the key committed again, exactly if it
  was committed with the expected hash (`torn_payload_missed_iff`).
-/
import ResumableBatch.Proof.History
import ResumableBatch.Proof.Reopen
import ResumableBatch.Proof.Rollback

namespace ResumableBatch

open Text Json

variable {F R E : Type} [DecidableEq F] {S : Setup F R E} {fingerprint key hash : Str}
  {draw : Draw F} {s s' st : Store F} {ended : Ended (Exc F E)} {log log' : List (CommitCall F R)}
  {tr : List (Moment F R)} {c : CommitCall F R}

/-! ## Files that an open leaves -/

/-- **An open writes nothing but the manifest**: any other file is as it was, or gone. -/
theorem open_keeps {held : Bool} {fates : List (Fate F E)}
    (h : (openStore S fingerprint held draw).run s fates = (ended, s')) {n : Str}
    (hm : n ≠ manifestPath) (ht : n ≠ draw.manifestTmp) :
    s'.disk.lookup n = s.disk.lookup n ∨ s'.disk.lookup n = none := by
  let Kept (p p' : Session F E) : Prop :=
    p'.disk.lookup n = p.disk.lookup n ∨ p'.disk.lookup n = none
  have hrefl : ∀ p, Kept p p := fun p => Or.inl rfl
  have htrans : ∀ {p p' p''}, Kept p p' → Kept p' p'' → Kept p p'' := by
    rintro p p' p'' h (h' | h')
    · exact h.imp h'.trans h'.trans
    · exact Or.inr h'
  have hprunes : ∀ {names code}, Prunes names code → EStateM.Moves Kept code :=
    fun hp p p' h => ((hp p p' h).disk n).imp_right And.right
  have hentries : ∀ D : Entries F, EStateM.Moves Kept
      (modify fun p => { p with entries := D } : Fs F E Unit) := by
    rintro D p p' (⟨_, h⟩ | ⟨_, h⟩)
    · obtain rfl := EStateM.modify_ok.1 h
      exact Or.inl rfl
    · exact absurd h EStateM.modify_error
  have hquiet : EStateM.Moves Kept (quiet : Fs F E Unit) := by
    rintro p p' (⟨_, h⟩ | ⟨_, h⟩)
    · exact Or.inl (by rw [(quiet_ok h).1])
    · exact Or.inl (by rw [(quiet_error h).1])
  have hwrite : EStateM.Moves Kept (writeManifest S fingerprint draw) := by
    rintro p p' (⟨_, h⟩ | ⟨_, h⟩)
    · obtain ⟨b, -, hrep⟩ := writeManifest_ok h
      exact Or.inl (by rw [hrep.disk n ht, if_neg hm])
    · rcases writeManifest_error h with hsame | ⟨b, -, hrep⟩
      · exact Or.inl (hsame.disk n ht)
      · exact Or.inl (by rw [hrep.disk n ht, if_neg hm])
  have hload : EStateM.Moves Kept (loadOrInvalidateManifest S fingerprint draw) := by
    intro p p' h
    cases hr : readEntries S fingerprint (p.disk.lookup manifestPath) with
    | some D =>
      rw [loadOrInvalidate_some hr] at h
      rcases h with ⟨_, h⟩ | ⟨_, h⟩
      · cases h
        exact hrefl _
      · cases h
    | none =>
      rcases loadOrInvalidate_none draw hr with ⟨e, he⟩ | hi
      · rw [he] at h
        rcases h with ⟨_, h⟩ | ⟨_, h⟩
        · cases h
        · cases h
          exact hrefl _
      · rw [hi] at h
        exact EStateM.Moves.bind @htrans (hprunes prunes_wipeTree)
          (fun _ => EStateM.Moves.bind @htrans (hentries ∅) fun _ => hwrite) p p' h
  have hopen : EStateM.Moves Kept (openStore S fingerprint held draw) := by
    rw [openStore_eq]
    split_ifs
    · exact EStateM.Moves.throw hrefl _
    · exact EStateM.Moves.throw hrefl _
    · exact EStateM.Moves.bind @htrans hquiet fun _ => EStateM.Moves.bind @htrans (hentries ∅)
        fun _ => EStateM.Moves.bind @htrans hload fun _ => hprunes prunes_sweep
  rcases Fs.run_cases h with ⟨p, hrun, rfl, rfl⟩ | ⟨halt, p, hrun, rfl, rfl⟩
  · exact hopen _ p (Or.inl ⟨_, hrun⟩)
  · exact hopen _ p (Or.inr ⟨_, hrun⟩)

/-! ## Payloads of a history -/

/-- The node is the payload file that the commit wrote. -/
def CommitCall.Wrote (S : Setup F R E) (c : CommitCall F R) (node : Node) : Prop :=
  ∃ pub : Publication S c.fingerprint c.key c.payloadHash c.result c.draw, node = .file pub.bytes

omit [DecidableEq F] in
/-- What is read of a payload carries the identity of its commit. -/
theorem CommitCall.Wrote.reads (hC : S.codec.ReadsBack) {node : Node} (h : c.Wrote S node) :
    ∃ r info, S.codec.readFile (some node) = .ok (some (r, info)) ∧
      info.lookup (lit "content_key") = some c.key ∧
      info.lookup (lit "payload_hash") = some c.payloadHash := by
  obtain ⟨pub, rfl⟩ := h
  obtain ⟨r, info, hread, hid⟩ := pub.reads hC
  exact ⟨r, info, hread, hid.content_key, hid.payload_hash⟩

omit [DecidableEq F] in
theorem CommitCall.Wrote.unique (hC : S.codec.ReadsBack) {c' : CommitCall F R} {node : Node}
    (h : c.Wrote S node) (h' : c'.Wrote S node) :
    c.key = c'.key ∧ c.payloadHash = c'.payloadHash := by
  obtain ⟨r, info, hread, hkey, hhash⟩ := h.reads hC
  obtain ⟨r', info', hread', hkey', hhash'⟩ := h'.reads hC
  obtain ⟨rfl, rfl⟩ := Prod.mk.inj (Option.some.inj (Except.ok.inj (hread.symm.trans hread')))
  exact ⟨Option.some.inj (hkey.symm.trans hkey'), Option.some.inj (hhash.symm.trans hhash')⟩

/-- The payloads in the directory are those of commits of their keys. -/
def PayloadsFrom (S : Setup F R E) (log : List (CommitCall F R)) (d : Disk) : Prop :=
  ∀ key node, d.lookup (S.path key) = some node → ∃ c ∈ log, c.key = key ∧ c.Wrote S node

omit [DecidableEq F] in
theorem PayloadsFrom.mono (hlog : ∀ c ∈ log, c ∈ log') {d : Disk} (h : PayloadsFrom S log d) :
    PayloadsFrom S log' d := by
  intro key node hnode
  obtain ⟨c, hc, hwrote⟩ := h key node hnode
  exact ⟨c, hlog c hc, hwrote⟩

theorem PayloadsFrom.opened (hA : S.codec.Apart) {held : Bool} {fates : List (Fate F E)}
    (h : PayloadsFrom S log s.disk)
    (hrun : (openStore S fingerprint held draw).run s fates = (ended, st)) :
    PayloadsFrom S log st.disk := by
  intro key node hnode
  rcases open_keeps hrun hA.path_manifest hA.path_manifestTmp (n := S.path key) with hsame | hnone
  · exact h key node (hsame ▸ hnode)
  · rw [hnone] at hnode
    cases hnode

theorem PayloadsFrom.committed (hA : S.codec.Apart) (h : PayloadsFrom S log s.disk)
    (hcommit : Committed S c.fingerprint c.key c.payloadHash c.result c.draw s st ended) :
    PayloadsFrom S (log ++ [c]) st.disk := by
  have hold : PayloadsFrom S (log ++ [c]) s.disk := h.mono fun _ => List.mem_append_left _
  intro key node hnode
  have hnew : ∀ pub : Publication S c.fingerprint c.key c.payloadHash c.result c.draw,
      (if S.path key = S.path c.key then some (.file pub.bytes) else s.disk.lookup (S.path key)) =
        some node → ∃ c' ∈ log ++ [c], c'.key = key ∧ c'.Wrote S node := by
    intro pub hlookup
    split_ifs at hlookup with hpath
    · exact ⟨c, by simp, (Setup.path_inj hpath).symm, pub, (Option.some.inj hlookup).symm⟩
    · exact hold key node hlookup
  cases hcommit with
  | untouched _ _ hd =>
    rw [hd _ hA.path_payloadTmp] at hnode
    exact hold key node hnode
  | torn pub _ _ hd =>
    rw [hd _ hA.path_payloadTmp hA.path_manifestTmp] at hnode
    exact hnew pub hnode
  | published pub _ _ _ hd =>
    rw [hd _ hA.path_payloadTmp hA.path_manifestTmp, if_neg hA.path_manifest] at hnode
    exact hnew pub hnode

/-- **Every version of a payload was written by a commit**, if there were no payloads at
    first. -/
theorem payloads_run (hA : S.codec.Apart) {x x' : Cache F} (hempty : PayloadsFrom S [] x.disk)
    (h : Lts.Run (Cache.Step S) x tr x') : PayloadsFrom S (commitCalls tr) x'.disk ∧
      ∀ m ∈ tr, PayloadsFrom S (commitCalls tr) m.disk := by
  induction h with
  | nil => exact ⟨hempty, nofun⟩
  | @snoc tr x' m x'' _ hstep ih =>
    obtain ⟨hpay, hall⟩ := ih
    -- it is enough to know what the last call leaves
    have hsnoc : m.disk = x''.disk → PayloadsFrom S (commitCalls (tr ++ [m])) x''.disk →
        PayloadsFrom S (commitCalls (tr ++ [m])) x''.disk ∧
          ∀ m' ∈ tr ++ [m], PayloadsFrom S (commitCalls (tr ++ [m])) m'.disk := by
      refine fun hdisk hlast => ⟨hlast, fun m' hm' => ?_⟩
      rw [List.mem_append, List.mem_singleton] at hm'
      rcases hm' with hm' | rfl
      · refine (hall m' hm').mono fun c hc => ?_
        rw [commitCalls_snoc]
        exact List.mem_append_left _ hc
      · exact hdisk ▸ hlast
    cases hstep with
    | opened hrun =>
      refine hsnoc rfl ?_
      rw [commitCalls_snoc, Option.toList_none, List.append_nil]
      exact hpay.opened hA hrun
    | openFails _ hrun =>
      refine hsnoc rfl ?_
      rw [commitCalls_snoc, Option.toList_none, List.append_nil]
      exact hpay.opened hA hrun
    | @commit n fingerprint entries key payloadHash result draw fates ended st _ hrun =>
      let c : CommitCall F R := ⟨fingerprint, key, payloadHash, result, draw⟩
      have hcommit : Committed S c.fingerprint c.key c.payloadHash c.result c.draw _ st ended :=
        commit_cases hrun
      refine hsnoc rfl ?_
      rw [commitCalls_snoc, Option.toList_some]
      exact hpay.committed hA hcommit

/-! ## A payload under an entry -/

/-- The hooks of the subclass raise nothing on what is read of a committed result. -/
def Codec.Rechecks (C : Codec R E) (r : R) : Prop :=
  ∀ {info b r' info'}, C.fileBytes r info = .ok b →
    C.readFile (some (.file b)) = .ok (some (r', info')) →
    (∃ valid, C.validateStructure r' info' = .ok valid) ∧ ∃ body, C.checkedBytes r' = .ok body

/-- What `has` makes of a payload that is read, under an entry with the expected hash. -/
theorem has_of_read {entry : Entry F} (he : st.entries.lookup key = some entry)
    (hhash : entry.field (lit "payload_hash") = .str hash) (hkey : isSafeKey key)
    (htaken : S.refuses (S.path key) = false) {node : Node}
    (hnode : st.disk.lookup (S.path key) = some node) {r : R} {info : Meta}
    (hread : S.codec.readFile (some node) = .ok (some (r, info))) :
    has S fingerprint st key hash =
      match check S fingerprint key hash r info entry with
      | .error exc => .error exc
      | .ok status => .ok (status = .ok) := by
  have hc : entryCollides entry hash = false := by
    rw [entryCollides, hhash]
    simp
  have hpay : readPayload S (some node) = .ok (some (r, info)) := by
    rw [readPayload, hread]
    rfl
  rw [has_entry he, hc, hnode]
  simp only [hkey, htaken, hpay]
  rfl

/-- **A payload that was committed with another hash is taken for a collision.** -/
theorem has_other_hash (hC : S.codec.ReadsBack) {entry : Entry F}
    (he : st.entries.lookup key = some entry)
    (hhash : entry.field (lit "payload_hash") = .str hash) (hkey : isSafeKey key)
    (htaken : S.refuses (S.path key) = false) {node : Node}
    (hnode : st.disk.lookup (S.path key) = some node) (hwrote : c.Wrote S node)
    (hne : c.payloadHash ≠ hash) : has S fingerprint st key hash =
      .error (.contentKeyCollision .payload key (.str c.payloadHash) hash) := by
  obtain ⟨r, info, hread, -, hstored⟩ := hwrote.reads hC
  rw [has_of_read he hhash hkey htaken hnode hread, check_other_hash hstored hne]

/-- With the expected hash, `_check` raises no collision. -/
theorem check_same_hash {r : R} {info : Meta} {entry : Entry F}
    (h : info.lookup (lit "payload_hash") = some hash) {exc : Exc F E}
    (hcheck : check S fingerprint key hash r info entry = .error exc) : ∃ e, exc = .raised e := by
  simp only [check, h, ne_eq, not_true_eq_false, if_false] at hcheck
  split_ifs at hcheck
  cases hv : S.codec.validateStructure r info with
  | error e =>
    rw [hv] at hcheck
    cases hcheck
    exact ⟨e, rfl⟩
  | ok valid =>
    rw [hv] at hcheck
    cases valid with
    | false => cases hcheck
    | true =>
      cases hb : checkBody S r info entry with
      | error e =>
        rw [hb] at hcheck
        cases hcheck
        exact ⟨e, rfl⟩
      | ok status =>
        rw [hb] at hcheck
        cases hcheck

/-- It raises nothing if nothing that it calls does. -/
theorem check_returns {r : R} {info : Meta} {entry : Entry F}
    (h : info.lookup (lit "payload_hash") = some hash)
    (hvalid : ∃ valid, S.codec.validateStructure r info = .ok valid)
    (hbody : ∃ body, S.codec.checkedBytes r = .ok body)
    (hlen : ∃ text, pyText (E := E) S (entry.field (lit "byte_len")) = .ok text)
    (hcount : ∃ text, pyText (E := E) S (entry.field (lit "record_count")) = .ok text) :
    ∃ status, check S fingerprint key hash r info entry = .ok status := by
  obtain ⟨valid, hvalid⟩ := hvalid
  obtain ⟨body, hbody⟩ := hbody
  have hcheck : ∃ status, checkBody S r info entry = .ok status := by
    cases hb : checkBody S r info entry with
    | error e =>
      obtain ⟨e', he'⟩ := (checkBody_error hlen hcount).1 ⟨e, hb⟩
      rw [hbody] at he'
      cases he'
    | ok status => exact ⟨status, rfl⟩
  obtain ⟨status, hstatus⟩ := hcheck
  simp only [check, h, ne_eq, not_true_eq_false, if_false, hvalid]
  split_ifs
  · cases valid with
    | false => exact ⟨_, rfl⟩
    | true =>
      rw [hstatus]
      exact ⟨_, rfl⟩
  iterate 3 exact ⟨_, rfl⟩

/-! ## Torn directories -/

/-- Under one fingerprint a key is committed with one hash. -/
def OneHash (log : List (CommitCall F R)) : Prop :=
  ∀ c ∈ log, ∀ c' ∈ log, c.fingerprint = c'.fingerprint → c.key = c'.key →
    c.payloadHash = c'.payloadHash

/-- If a key has an entry and a payload, the payload was committed with the hash. -/
def PayloadMatches (S : Setup F R E) (log : List (CommitCall F R)) (st : Store F)
    (key hash : Str) : Prop :=
  st.entries.lookup key ≠ none → ∀ node, st.disk.lookup (S.path key) = some node →
    ∀ c ∈ log, c.Wrote S node → c.payloadHash = hash

section
variable {x x' : Cache F} {d : Disk} {entries : Entries F} {held : Bool} {fates : List (Fate F E)}

/-- Versions of payloads that stand in a directory that is opened. -/
theorem payloads_opened (hA : S.codec.Apart) (hempty : ∀ k, x.disk.lookup (S.path k) = none)
    (hrun : Lts.Run (Cache.Step S) x tr x')
    (hpay : ∀ k node, d.lookup (S.path k) = some node → Version tr (S.path k) node)
    (hopen : (openStore S fingerprint held draw).run ⟨d, entries⟩ fates = (.returned, st)) :
    PayloadsFrom S (commitCalls tr) st.disk := by
  have hnone : PayloadsFrom S ([] : List (CommitCall F R)) x.disk := by
    intro k node hnode
    rw [hempty] at hnode
    cases hnode
  have hd : PayloadsFrom S (commitCalls tr) d := by
    intro k node hnode
    obtain ⟨m, hm, hversion⟩ := hpay k node hnode
    exact (payloads_run hA hnone hrun).2 m hm k node hversion
  exact PayloadsFrom.opened (s := ⟨d, entries⟩) hA hd hopen

/-- **What `has` does on a torn directory.** -/
theorem has_torn_cases (hC : S.codec.ReadsBack) (hnew : x.New)
    (hempty : ∀ k, x.disk.lookup (S.path k) = none) (hrun : Lts.Run (Cache.Step S) x tr x')
    (hd : Survives S fingerprint tr (d.lookup manifestPath))
    (hpay : ∀ k node, d.lookup (S.path k) = some node → Version tr (S.path k) node)
    (hopen : (openStore S fingerprint held draw).run ⟨d, entries⟩ fates = (.returned, st))
    (hhash : ∀ entry, st.entries.lookup key = some entry →
      entry.field (lit "payload_hash") = .str hash) :
    (PayloadMatches S (commitCalls tr) st key hash ∧
      (∀ exc, has S fingerprint st key hash = .error exc → ∃ e, exc = .raised e) ∧
      ((∀ c ∈ commitCalls tr, S.codec.Rechecks c.result) →
        ∃ b, has S fingerprint st key hash = .ok b)) ∨
    ¬ PayloadMatches S (commitCalls tr) st key hash ∧ ∃ stored,
      has S fingerprint st key hash = .error (.contentKeyCollision .payload key stored hash) := by
  have hfalse : PayloadMatches S (commitCalls tr) st key hash →
      has S fingerprint st key hash = .ok false → PayloadMatches S (commitCalls tr) st key hash ∧
      (∀ exc, has S fingerprint st key hash = .error exc → ∃ e, exc = .raised e) ∧
      ((∀ c ∈ commitCalls tr, S.codec.Rechecks c.result) →
        ∃ b, has S fingerprint st key hash = .ok b) := by
    refine fun hm hhas => ⟨hm, fun exc hexc => ?_, fun _ => ⟨false, hhas⟩⟩
    rw [hhas] at hexc
    cases hexc
  cases he : st.entries.lookup key with
  | none =>
    refine Or.inl (hfalse (fun hne => absurd he hne) ?_)
    rw [has, he]
  | some entry =>
    obtain ⟨hD, hfrom, hdigits⟩ := hd.loaded (Accounted.run hC hnew hrun).versions
      (open_cases hopen).1 he
    have hsafe := ((readEntries_ok hD).2 key entry he).safe
    have hhash := hhash entry he
    -- the entry is that of a commit, and so the file system takes the path
    obtain ⟨c', -, -, hkey', pub', hsame'⟩ := hfrom key entry he
    have htaken : S.refuses (S.path key) = false := hkey' ▸ pub'.taken
    cases hnode : st.disk.lookup (S.path key) with
    | none =>
      refine Or.inl (hfalse (fun _ node hsome => ?_) (has_of_missing he hhash hsafe htaken hnode))
      rw [hnode] at hsome
      cases hsome
    | some node =>
      obtain ⟨c, hc, -, hwrote⟩ := payloads_opened hC.apart hempty hrun hpay hopen key node hnode
      by_cases hsame : c.payloadHash = hash
      · left
        obtain ⟨r, info, hread, -, hstored⟩ := hwrote.reads hC
        rw [hsame] at hstored
        have hhas : has S fingerprint st key hash = _ :=
          has_of_read he hhash hsafe htaken hnode hread
        refine ⟨fun _ node' hnode' c' _ hwrote' => ?_, fun exc hexc => ?_, fun hrechecks => ?_⟩
        · obtain rfl := Option.some.inj (hnode.symm.trans hnode')
          exact (hwrote'.unique hC hwrote).2.trans hsame
        · rw [hhas] at hexc
          cases hcheck : check S fingerprint key hash r info entry with
          | error exc' =>
            rw [hcheck] at hexc
            cases hexc
            exact check_same_hash hstored hcheck
          | ok status =>
            rw [hcheck] at hexc
            cases hexc
        · -- the lengths in the entry have a text, and the hooks raise nothing
          obtain ⟨pub, rfl⟩ := hwrote
          obtain ⟨hvalid, hbody⟩ := hrechecks c hc pub.file hread
          have htext : ∀ (f : Str) (n : ℕ), pub'.entry.field f = .int n →
              ∃ text, pyText (E := E) S (entry.field f) = .ok text := by
            intro f n hf
            have hfield : entry.field f = .int n := (hsame' f (.int n) trivial).2 hf
            exact ⟨_, by rw [hfield, pyText_natCast (hdigits f n hfield)]⟩
          obtain ⟨status, hstatus⟩ : ∃ status, check S fingerprint key hash r info entry =
            .ok status :=
            check_returns hstored hvalid hbody (htext _ _ (pub'.entry_len hC))
              (htext _ _ (pub'.entry_count hC))
          exact ⟨_, by rw [hhas, hstatus]⟩
      · refine Or.inr ⟨fun hm => ?_, _, has_other_hash hC he hhash hsafe htaken hnode hwrote hsame⟩
        exact hsame (hm (by rw [he]; exact fun h => by cases h) node hnode c hc hwrote)

/-- **A torn payload is a miss exactly if it was committed with the expected hash**: otherwise
    `has` takes it for a collision of keys.  A payload of the same fingerprint always was, if
    under one fingerprint a key is committed with one hash. -/
theorem torn_payload_missed_iff (hC : S.codec.ReadsBack) (hnew : x.New)
    (hempty : ∀ k, x.disk.lookup (S.path k) = none) (hrun : Lts.Run (Cache.Step S) x tr x')
    (hd : Survives S fingerprint tr (d.lookup manifestPath))
    (hpay : ∀ k node, d.lookup (S.path k) = some node → Version tr (S.path k) node)
    (hopen : (openStore S fingerprint held draw).run ⟨d, entries⟩ fates = (.returned, st))
    (hhash : ∀ entry, st.entries.lookup key = some entry →
      entry.field (lit "payload_hash") = .str hash) :
    ((∀ exc, has S fingerprint st key hash = .error exc → ¬ exc.isCollision) ↔
      PayloadMatches S (commitCalls tr) st key hash) ∧
    ((∀ c ∈ commitCalls tr, S.codec.Rechecks c.result) →
      ((∃ b, has S fingerprint st key hash = .ok b) ↔
        PayloadMatches S (commitCalls tr) st key hash)) ∧
    (OneHash (commitCalls tr) → (∀ node, st.disk.lookup (S.path key) = some node →
        ∀ c ∈ commitCalls tr, c.Wrote S node → c.fingerprint = fingerprint) →
      PayloadMatches S (commitCalls tr) st key hash) := by
  have hcases := has_torn_cases hC hnew hempty hrun hd hpay hopen hhash
  refine ⟨?_, fun hrechecks => ?_, fun hone hfp hne node hnode c hc hwrote => ?_⟩
  · rcases hcases with ⟨hm, hraised, -⟩ | ⟨hm, stored, hhas⟩
    · refine iff_of_true (fun exc hexc => ?_) hm
      obtain ⟨e, rfl⟩ := hraised exc hexc
      nofun
    · exact iff_of_false (fun h => h _ hhas rfl) hm
  · rcases hcases with ⟨hm, -, hreturns⟩ | ⟨hm, stored, hhas⟩
    · exact iff_of_true (hreturns hrechecks) hm
    · refine iff_of_false ?_ hm
      rintro ⟨b, hb⟩
      rw [hhas] at hb
      cases hb
  · -- the entry is that of another commit of the key under the fingerprint
    obtain ⟨entry, he⟩ := Option.ne_none_iff_exists'.1 hne
    obtain ⟨-, hfrom, -⟩ := hd.loaded (Accounted.run hC hnew hrun).versions (open_cases hopen).1 he
    obtain ⟨c', hc', hfp', hkey', pub, hsame⟩ := hfrom key entry he
    obtain ⟨c₀, -, hkey, hwrote₀⟩ := payloads_opened hC.apart hempty hrun hpay hopen key node hnode
    have hentry := (hsame _ (.str c'.payloadHash) trivial).2 (pub.entry_hash hC)
    rw [hone c hc c' hc' ((hfp node hnode c hc hwrote).trans hfp'.symm)
      (((hwrote.unique hC hwrote₀).1.trans hkey).trans hkey'.symm)]
    exact Value.str.inj (hentry.symm.trans (hhash entry he))

end

/-- The hooks of the store of JSON lines raise nothing on JSON values that `_check` can
    encode. -/
theorem jsonl_rechecks {I : Interp F} {records : List (PyVal F)} (hjson : ∀ rec ∈ records, rec.IsJson)
    (hdepth : ∀ rec ∈ records, rec.depth ≤ I.innerDepth) :
    (jsonlCodec (E := E) I none).Rechecks records := by
  intro info b records' info' hb hread
  obtain ⟨info'', hread', -⟩ := readFile_json hjson hb
  obtain ⟨rfl, -⟩ := Prod.mk.inj (Option.some.inj (Except.ok.inj (hread'.symm.trans hread)))
  have hfile : jsonlFileBytes (E := E) I records info = .ok b := hb
  rw [jsonlFileBytes_eq] at hfile
  obtain ⟨header, -, hfile⟩ := Except.bind_ok.1 hfile
  obtain ⟨body, hbody, -⟩ := Except.bind_ok.1 hfile
  have hstable : (jsonlCodec (E := E) I none).Stable records (records.map Value.sortKeys) :=
    jsonl_stable hjson hdepth fun _ => rfl
  exact ⟨⟨true, rfl⟩, body, hstable.canonical hbody⟩

/-- A payload that is lost. -/
theorem torn_payload_missed_sample : ∃ s st : Store Half,
    (openStore (E := Bool) (plainSetup none) (lit "f") true plainDraw).run
      ⟨s.disk.erase ((plainSetup none).path (lit "a")), ∅⟩ [] = (.returned, st) ∧
    ∃ b, has (plainSetup none) (lit "f") st (lit "a") (lit "h") = .ok b := by
  have hC := jsonl_readsBack (E := Bool) Half.interp none
  obtain ⟨s₀, s, hopen₀, hcommit⟩ := plain_committed
  obtain ⟨hs, hload⟩ := Instance.of_new plainRecords_json plainRecords_depth hopen₀ hcommit
  obtain ⟨D, hD, -⟩ := (hs.live hC).vouched (Set.notMem_empty _) hload
  have hm : (s.disk.erase ((plainSetup none).path (lit "a"))).lookup manifestPath =
      s.disk.lookup manifestPath := AList.lookup_erase_ne (hC.apart.manifest _).symm
  have hfp : lit "f" ≠ [] := by decide
  obtain ⟨st, hopen, -⟩ := open_returns (E := Bool) (S := plainSetup none)
    (s := ⟨s.disk.erase ((plainSetup none).path (lit "a")), ∅⟩) plainDraw hfp (hm ▸ hD)
  -- the history: an open and a commit
  have hrun := (Lts.Run.single (Cache.Step.opened (s := ⟨∅, []⟩) hopen₀)).snoc
    (Cache.Step.commit (n := 0) rfl hcommit)
  have hnew : Cache.New (⟨∅, []⟩ : Cache Half) := ⟨rfl, rfl⟩
  have hversion : ∀ n node, (s.disk.erase ((plainSetup none).path (lit "a"))).lookup n = some node →
      Version ([(⟨none, s₀.disk⟩ : Moment Half (List (PyVal Half)))] ++
        [⟨some ⟨lit "f", lit "a", lit "h", plainRecords, plainDraw⟩, s.disk⟩]) n node := by
    intro n node hnode
    refine ⟨_, List.mem_append_right _ (List.mem_singleton_self _), ?_⟩
    by_cases hn : n = (plainSetup none).path (lit "a")
    · subst hn
      rw [AList.lookup_erase] at hnode
      cases hnode
    · rwa [AList.lookup_erase_ne hn] at hnode
  have hd : Survives (plainSetup none) (lit "f") _ _ := Or.inl fun n hn => hversion _ n hn
  have hcall : ∀ c ∈ commitCalls ([(⟨none, s₀.disk⟩ : Moment Half (List (PyVal Half)))] ++
      [⟨some ⟨lit "f", lit "a", lit "h", plainRecords, plainDraw⟩, s.disk⟩]),
      c = ⟨lit "f", lit "a", lit "h", plainRecords, plainDraw⟩ := fun c hc => List.mem_singleton.1 hc
  have hhash : ∀ entry, st.entries.lookup (lit "a") = some entry →
      entry.field (lit "payload_hash") = .str (lit "h") := by
    intro entry he
    obtain ⟨-, hfrom, -⟩ := hd.loaded (Accounted.run hC hnew hrun).versions (open_cases hopen).1 he
    obtain ⟨c, hc, -, -, pub, hsame⟩ := hfrom _ entry he
    obtain rfl := hcall c hc
    exact (hsame _ (.str (lit "h")) trivial).2 (pub.entry_hash hC)
  obtain ⟨-, hreturns, hmatches⟩ := torn_payload_missed_iff hC hnew (fun _ => rfl) hrun hd
    (fun k node hnode => hversion _ node hnode) hopen hhash
  refine ⟨s, st, hopen, (hreturns fun c hc => ?_).2 (hmatches (fun c hc c' hc' _ _ => ?_)
    fun _ _ c hc _ => ?_)⟩
  · rw [hcall c hc]
    exact jsonl_rechecks plainRecords_json plainRecords_depth
  · rw [hcall c hc, hcall c' hc']
  · rw [hcall c hc]

/-- One key is committed under two fingerprints, with two hashes. -/
theorem moved_runs : ∃ s₁ s₂ s₃ s₄ : Store Half,
    (openStore (E := Bool) (plainSetup none) (lit "f") true plainDraw).run ⟨∅, ∅⟩ [] =
      (.returned, s₁) ∧
    (commit (plainSetup none) (lit "f") (lit "a") (lit "h") plainRecords plainDraw).run s₁ [] =
      (.returned, s₂) ∧
    (openStore (plainSetup none) (lit "g") true plainDraw).run ⟨s₂.disk, ∅⟩ [] = (.returned, s₃) ∧
    (commit (plainSetup none) (lit "g") (lit "a") (lit "i") plainRecords laterDraw).run s₃ [] =
      (.returned, s₄) := by
  obtain ⟨x, y, z, w, rfl, rfl, rfl, rfl, hx, hy, hz, hw⟩ :
      ∃ x y z w : Ended (Exc Half Bool) × Store Half,
      (openStore (plainSetup none) (lit "f") true plainDraw).run ⟨∅, ∅⟩ [] = x ∧
      (commit (plainSetup none) (lit "f") (lit "a") (lit "h") plainRecords plainDraw).run x.2 [] = y ∧
      (openStore (plainSetup none) (lit "g") true plainDraw).run ⟨y.2.disk, ∅⟩ [] = z ∧
      (commit (plainSetup none) (lit "g") (lit "a") (lit "i") plainRecords laterDraw).run z.2 [] = w ∧
      x.1 = .returned ∧ y.1 = .returned ∧ z.1 = .returned ∧ w.1 = .returned :=
    ⟨_, _, _, _, rfl, rfl, rfl, rfl, by decide +kernel⟩
  exact ⟨_, _, _, _, run_returned hx, run_returned hy, run_returned hz, run_returned hw⟩

/-- **A torn payload that is taken for a collision**: the payload that was committed under
    `f` stands again under the manifest of `g`. -/
theorem torn_payload_collides : ∃ (x : Cache Half) (tr : List (Moment Half (List (PyVal Half))))
    (d : Disk) (st : Store Half), Lts.Run (Cache.Step (plainSetup none)) ⟨∅, []⟩ tr x ∧
    OneHash (commitCalls tr) ∧ Survives (plainSetup none) (lit "g") tr (d.lookup manifestPath) ∧
    (∀ k node, d.lookup ((plainSetup none).path k) = some node →
      Version tr ((plainSetup none).path k) node) ∧
    (openStore (plainSetup none) (lit "g") true plainDraw).run ⟨d, ∅⟩ [] = (.returned, st) ∧
    (∀ entry, st.entries.lookup (lit "a") = some entry →
      entry.field (lit "payload_hash") = .str (lit "i")) ∧
    has (plainSetup none) (lit "g") st (lit "a") (lit "i") =
      .error (.contentKeyCollision .payload (lit "a") (.str (lit "h")) (lit "i")) := by
  have hC := jsonl_readsBack (E := Bool) Half.interp none
  obtain ⟨s₁, s₂, s₃, s₄, hopen₁, hcommit₁, hopen₂, hcommit₂⟩ := moved_runs
  have hrun := (((Lts.Run.single (Cache.Step.opened (s := ⟨∅, []⟩) hopen₁)).snoc
    (Cache.Step.commit (n := 0) rfl hcommit₁)).snoc (Cache.Step.opened hopen₂)).snoc
      (Cache.Step.commit (n := 1) rfl hcommit₂)
  obtain ⟨pub₁, -, -, -, hpay₁⟩ := commit_returned hC.apart hcommit₁
  obtain ⟨pub₂, b, hb, -, hd₂⟩ := commit_published hcommit₂
  obtain ⟨hpair, hentry⟩ := pub₂.entryOk hC
  let d := s₄.disk.insert ((plainSetup none).path (lit "a")) (.file pub₁.bytes)
  have hm₄ : s₄.disk.lookup manifestPath = some (.file b) := by
    rw [hd₂ _ (ne_payloadTmp isTmp_manifest) (ne_manifestTmp isTmp_manifest), if_pos rfl]
  have hm : d.lookup manifestPath = some (.file b) := by
    rw [← hm₄]
    exact AList.lookup_insert_ne (hC.apart.manifest _).symm
  -- the manifest is that of `g`
  obtain ⟨D, hD, hlookup⟩ := readEntries_written hpair
    ((open_cases hopen₂).1.entriesOk.insert hentry) hb
  have hfp : lit "g" ≠ [] := by decide
  obtain ⟨st, hopen, hst, -⟩ := open_returns (E := Bool) (s := ⟨d, ∅⟩) plainDraw hfp (hm ▸ hD)
  have he : st.entries.lookup (lit "a") = some pub₂.entry.sorted := by
    rw [hst, hlookup, AList.lookup_insert]
    rfl
  have hhash : pub₂.entry.sorted.field (lit "payload_hash") = .str (lit "i") :=
    (same_sorted hentry.json _ (.str (lit "i")) trivial).2 (pub₂.entry_hash hC)
  -- and the payload that of `f`
  have hnode : st.disk.lookup ((plainSetup none).path (lit "a")) = some (.file pub₁.bytes) := by
    have htmp : isTmp ((plainSetup none).path (lit "a")) = false := by decide
    cases (open_cases hopen).1 with
    | loaded _ _ _ hdisk =>
      rw [hdisk _ htmp]
      exact AList.lookup_insert _
    | wiped hnone _ _ =>
      have hnone' : readEntries (plainSetup none) (lit "g") (d.lookup manifestPath) = none := hnone
      rw [hm, hD] at hnone'
      cases hnone'
  refine ⟨_, _, d, st, hrun, ?_, Or.inl fun n hn => ?_, fun k node hk => ?_, hopen,
    fun entry hentry' => ?_, ?_⟩
  · intro c hc c' hc' hfps _
    rcases List.mem_pair.1 hc with rfl | rfl <;> rcases List.mem_pair.1 hc' with rfl | rfl
    · rfl
    · exact absurd hfps (by decide)
    · exact absurd hfps (by decide)
    · rfl
  · rw [hm, ← hm₄] at hn
    exact ⟨_, List.mem_append_right _ (List.mem_singleton_self _), hn⟩
  · by_cases hka : k = lit "a"
    · subst hka
      rw [AList.lookup_insert, ← hpay₁] at hk
      exact ⟨_, List.mem_append_left _ (List.mem_append_left _
        (List.mem_append_right _ (List.mem_singleton_self _))), hk⟩
    · rw [AList.lookup_insert_ne fun h => hka (Setup.path_inj h)] at hk
      exact ⟨_, List.mem_append_right _ (List.mem_singleton_self _), hk⟩
  · obtain rfl := Option.some.inj (he.symm.trans hentry')
    exact hhash
  · exact has_other_hash (c := ⟨lit "f", lit "a", lit "h", plainRecords, plainDraw⟩) hC he hhash
      pub₂.prepared.safe pub₂.taken hnode ⟨pub₁, rfl⟩ (by decide)

end ResumableBatch
