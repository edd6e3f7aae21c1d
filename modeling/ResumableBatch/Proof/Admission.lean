/-
  A manifest with any content.  It is admitted whole, or everything is wiped and
  a fresh one is written, unless its text is nested too deeply for the scanner
  (`manifest_whole_iff`).
-/
import ResumableBatch.Proof.Corruption
import ResumableBatch.Proof.Forward

namespace ResumableBatch

open Text Json

variable {F R E : Type}

/-! ## The document of a manifest -/

section
variable [DecidableEq F] {S : Setup F R E} {fingerprint : Str}

/-- The JSON document that stands under the name of the manifest. -/
def Document (S : Setup F R E) (node : Option Node) (raw : PyVal F) : Prop :=
  ∃ bytes text, node = some (.file bytes) ∧ decodeUtf8 bytes = some text ∧
    loads S.interp (universalNewlines text) = .ok raw

/-- The scanner gives up on the text of the manifest. -/
def Overflows (S : Setup F R E) (node : Option Node) : Prop :=
  ∃ bytes text, node = some (.file bytes) ∧ decodeUtf8 bytes = some text ∧
    loads S.interp (universalNewlines text) = .error .recursionError

theorem Document.unique {node : Option Node} {raw raw' : PyVal F} (h : Document S node raw)
    (h' : Document S node raw') : raw = raw' := by
  obtain ⟨bytes, text, rfl, htext, hload⟩ := h
  obtain ⟨bytes', text', hnode, htext', hload'⟩ := h'
  cases hnode
  obtain rfl := Option.some.inj (htext.symm.trans htext')
  exact Except.ok.inj (hload.symm.trans hload')

/-- What is made of the content of the manifest. -/
theorem readManifest_cases (S : Setup F R E) (node : Option Node) :
    (∃ raw, Document S node raw ∧ ¬ Overflows S node ∧
      readManifest (E := E) S node = .ok (some raw)) ∨
    ((∀ raw, ¬ Document S node raw) ∧ ¬ Overflows S node ∧
      readManifest (E := E) S node = .ok none) ∨
    ((∀ raw, ¬ Document S node raw) ∧ Overflows S node ∧
      readManifest (E := E) S node = .error (.py .recursionError)) := by
  have hother : (∀ bytes, node ≠ some (.file bytes)) → readManifest (E := E) S node = .ok none →
      (∀ raw, ¬ Document S node raw) ∧ ¬ Overflows S node ∧
        readManifest (E := E) S node = .ok none := by
    refine fun hne hread => ⟨?_, ?_, hread⟩
    · rintro raw ⟨bytes, -, hnode, -⟩
      exact hne bytes hnode
    · rintro ⟨bytes, -, hnode, -⟩
      exact hne bytes hnode
  rcases node with _ | bytes | _ | _
  · exact Or.inr (Or.inl (hother (fun _ h => by cases h) rfl))
  · -- a file: it is decoded, and its text scanned
    have hdoc : ∀ raw, Document S (some (.file bytes)) raw ↔ ∃ text, decodeUtf8 bytes = some text ∧
        loads S.interp (universalNewlines text) = .ok raw := by
      intro raw
      constructor
      · rintro ⟨_, text, ⟨⟩, h⟩
        exact ⟨text, h⟩
      · rintro ⟨text, h⟩
        exact ⟨bytes, text, rfl, h⟩
    have hdeep : Overflows S (some (.file bytes)) ↔ ∃ text, decodeUtf8 bytes = some text ∧
        loads S.interp (universalNewlines text) = .error .recursionError := by
      constructor
      · rintro ⟨_, text, ⟨⟩, h⟩
        exact ⟨text, h⟩
      · rintro ⟨text, h⟩
        exact ⟨bytes, text, rfl, h⟩
    simp only [hdoc, hdeep, readManifest]
    cases htext : decodeUtf8 bytes with
    | none => simp
    | some text =>
      simp only [Option.some.injEq, exists_eq_left']
      cases hload : loads S.interp (universalNewlines text) with
      | ok raw => simp
      | error e =>
        rcases loads_error hload with rfl | rfl
        · simp
        · simp
  · exact Or.inr (Or.inl (hother (fun _ h => by cases h) rfl))
  · exact Or.inr (Or.inl (hother (fun _ h => by cases h) rfl))

/-! ## What is admitted -/

/-- The document of a manifest with the given entries that the store admits. -/
structure Admissible (S : Setup F R E) (fingerprint : Str) (doc items : Value F .members) : Prop where
  fingerprint : Value.get (.str (lit "fingerprint")) doc = some (.str fingerprint)
  schema_version : ∃ v, Value.get (.str (lit "schema_version")) doc = some v ∧
    eqInt S v schemaVersion
  entries : Value.get (.str (lit "entries")) doc = some (.dict items)
  well_formed : ∀ p ∈ items.toList, ∃ key entry, p = (.str key, .dict entry) ∧ isSafeKey key ∧
    ∀ f ∈ [lit "payload_hash", lit "generation_id", lit "result_digest"],
      ∃ v, Value.get (.str f) entry = some (.str v)

/-- A field that is not `None` is there. -/
theorem field_eq_iff {entry : Entry F} {f : Str} {v : PyVal F} (hv : v ≠ .none) :
    entry.field f = v ↔ Value.get (.str f) entry = some v := by
  rw [Entry.field]
  cases Value.get (.str f) entry with
  | none => simp [hv.symm]
  | some w => simp

theorem entriesWellFormed_iff {items : Value F .members} : entriesWellFormed items = true ↔
    ∀ p ∈ items.toList, ∃ key entry, p = (.str key, .dict entry) ∧ isSafeKey key ∧
      ∀ f ∈ [lit "payload_hash", lit "generation_id", lit "result_digest"],
        ∃ v, Value.get (.str f) entry = some (.str v) := by
  rw [entriesWellFormed, List.all_eq_true]
  refine forall₂_congr fun p _ => ?_
  constructor
  · intro h
    split at h
    · rename_i key entry _
      rw [Bool.and_eq_true, List.all_eq_true] at h
      refine ⟨key, entry, rfl, h.1, fun f hf => ?_⟩
      have hfield := h.2 f hf
      split at hfield
      · rename_i v hv
        exact ⟨v, (field_eq_iff (v := .str v) nofun).1 hv⟩
      · cases hfield
    · cases h
  · rintro ⟨key, entry, rfl, hsafe, hfields⟩
    rw [Bool.and_eq_true, List.all_eq_true]
    refine ⟨hsafe, fun f hf => ?_⟩
    obtain ⟨v, hv⟩ := hfields f hf
    rw [(field_eq_iff (v := .str v) nofun).2 hv]

theorem admitted_iff {raw : PyVal F} {D : Entries F} : admitted S fingerprint raw = some D ↔
    ∃ doc items, raw = .dict doc ∧ Admissible S fingerprint doc items ∧ entriesOf items = D := by
  have heq : ∀ v, eqInt S v schemaVersion = true → v ≠ .none := by
    rintro v hv rfl
    cases hv
  constructor
  · intro h
    unfold admitted at h
    split at h
    case h_2 => cases h
    rename_i doc
    split at h
    case h_2 => cases h
    rename_i items hitems
    split_ifs at h with hadm
    obtain ⟨hfp, hschema, hwell⟩ := hadm
    exact ⟨doc, items, rfl, ⟨(field_eq_iff (v := .str fingerprint) (fun h => by cases h)).1 hfp,
      ⟨_, (field_eq_iff (heq _ hschema)).1 rfl, hschema⟩, hitems, entriesWellFormed_iff.1 hwell⟩,
      Option.some.inj h⟩
  · rintro ⟨doc, items, rfl, h, rfl⟩
    obtain ⟨v, hv, hschema⟩ := h.schema_version
    have hfield : Entry.field doc (lit "schema_version") = v := (field_eq_iff (heq _ hschema)).2 hv
    simp only [admitted, h.entries]
    rw [if_pos ⟨(field_eq_iff (v := .str fingerprint) (fun h => by cases h)).2 h.fingerprint,
      by rw [hfield]; exact hschema, entriesWellFormed_iff.2 h.well_formed⟩]

/-- What is loaded are the entries of an admissible document. -/
theorem readEntries_iff {node : Option Node} {D : Entries F} :
    readEntries S fingerprint node = some D ↔ ∃ doc items, Document S node (.dict doc) ∧
      Admissible S fingerprint doc items ∧ entriesOf items = D := by
  rcases readManifest_cases S node with ⟨raw, hdoc, -, hread⟩ | ⟨hdoc, -, hread⟩ | ⟨hdoc, -, hread⟩
  · rw [readEntries_eq hread, admitted_iff]
    constructor
    · rintro ⟨doc, items, rfl, hadm, hD⟩
      exact ⟨doc, items, hdoc, hadm, hD⟩
    · rintro ⟨doc, items, hdoc', hadm, hD⟩
      exact ⟨doc, items, hdoc.unique hdoc', hadm, hD⟩
  · rw [readEntries, hread]
    simp only [Option.bind_none, reduceCtorEq, false_iff]
    rintro ⟨doc, -, h, -⟩
    exact hdoc _ h
  · rw [readEntries, hread]
    simp only [reduceCtorEq, false_iff]
    rintro ⟨doc, -, h, -⟩
    exact hdoc _ h

/-- A manifest is admitted under one fingerprint, and with the same entries. -/
theorem readEntries_unique {fingerprint' : Str} {node : Option Node} {D D' : Entries F}
    (h : readEntries S fingerprint node = some D) (h' : readEntries S fingerprint' node = some D') :
    fingerprint = fingerprint' ∧ D = D' := by
  obtain ⟨doc, items, hdoc, hadm, rfl⟩ := readEntries_iff.1 h
  obtain ⟨doc', items', hdoc', hadm', rfl⟩ := readEntries_iff.1 h'
  obtain rfl := Value.dict.inj (hdoc.unique hdoc')
  have hfp := hadm.fingerprint.symm.trans hadm'.fingerprint
  have hitems := hadm.entries.symm.trans hadm'.entries
  exact ⟨Value.str.inj (Option.some.inj hfp),
      congrArg entriesOf (Value.dict.inj (Option.some.inj hitems))⟩

/-- The map has exactly the entries of the document. -/
theorem lookup_entriesOf_iff {node : Option Node} {doc items : Value F .members}
    (hdoc : Document S node (.dict doc)) (h : Admissible S fingerprint doc items) {key : Str}
    {entry : Entry F} : (entriesOf items).lookup key = some entry ↔
      (.str key, .dict entry) ∈ items.toList := by
  obtain ⟨_, _, -, -, hload⟩ := hdoc
  obtain ⟨⟨-, hnd⟩, -⟩ : (Value.dict items).IsJson := by
    have hjson := (loads_ok S.interp hload).1
    exact (Value.isJson_members doc).1 hjson.2 _ ((Value.get_iff hjson.1.2).1 h.entries)
  -- every item is an entry
  have hitems : items.toList = (items.toList.filterMap entryItem).map
      fun p => ((.str p.1 : Key F), (.dict p.2 : PyVal F)) := by
    have hall := h.well_formed
    generalize items.toList = l at hall
    induction l with
    | nil => rfl
    | cons p l ih =>
      rw [List.forall_mem_cons] at hall
      obtain ⟨⟨k, e, rfl, -⟩, hall⟩ := hall
      have hcons : ((.str k, .dict e) :: l : List (Key F × PyVal F)).filterMap entryItem =
          ⟨k, e⟩ :: l.filterMap entryItem := rfl
      rw [hcons, List.map_cons, ← ih hall]
  have hkeys : (items.toList.filterMap entryItem).NodupKeys := by
    rw [hitems, List.map_map] at hnd
    exact List.Nodup.of_map Key.str (by rwa [List.keys, List.map_map])
  rw [lookup_entriesOf (.of_eq hitems) hkeys, ← Option.mem_def, List.mem_dlookup_iff hkeys]
  constructor
  · intro hmem
    rw [hitems]
    exact List.mem_map.2 ⟨_, hmem, rfl⟩
  · intro hmem
    exact List.mem_filterMap.2 ⟨_, hmem, rfl⟩

end

/-! ## Deletions that may fail -/

/-- The call is done, or refused with `OSError`. -/
def Fate.Mild : Fate F E → Prop
  | .done | .raises .osError _ => True
  | _ => False

/-- A deletion that is refused is passed over. -/
theorem unlinkQuietly_mild (name : Str) {p : Session F E} (h : ∀ fate ∈ p.fates, fate.Mild) :
    ∃ p', unlinkQuietly name p = .ok () p' ∧ (∀ fate ∈ p'.fates, fate.Mild) ∧
      ∀ node, p.disk.lookup name = some node → node.isFile → ∀ fate rest, p.fates = fate :: rest →
        p'.fates = rest ∧ (fate = .done → p'.disk.lookup name = none) := by
  have hskip : (∀ node, p.disk.lookup name = some node → ¬ node.isFile) →
      unlink name p = .error (.raised .osError) p → ∃ p', unlinkQuietly name p = .ok () p' ∧
        (∀ fate ∈ p'.fates, fate.Mild) ∧ ∀ node, p.disk.lookup name = some node → node.isFile →
          ∀ fate rest, p.fates = fate :: rest →
            p'.fates = rest ∧ (fate = .done → p'.disk.lookup name = none) :=
    fun hno hu => ⟨p, EStateM.tryCatch_ok.2 (Or.inr ⟨_, p, hu, rfl⟩), h,
      fun node hn hfile => absurd hfile (hno node hn)⟩
  have hcall : unlink name p = (syscall (·.erase name) fun _ => id : Fs F E Unit) p →
      ∃ p', unlinkQuietly name p = .ok () p' ∧ (∀ fate ∈ p'.fates, fate.Mild) ∧
        ∀ node, p.disk.lookup name = some node → node.isFile → ∀ fate rest, p.fates = fate :: rest →
          p'.fates = rest ∧ (fate = .done → p'.disk.lookup name = none) := by
    intro hu
    obtain ⟨⟨disk, entries⟩, fates⟩ := p
    cases fates with
    | nil => exact ⟨_, EStateM.tryCatch_ok.2 (Or.inl hu), h, nofun⟩
    | cons fate fates =>
      rw [List.forall_mem_cons] at h
      cases fate with
      | done =>
        refine ⟨⟨⟨disk.erase name, entries⟩, fates⟩, EStateM.tryCatch_ok.2 (Or.inl hu), h.2, ?_⟩
        rintro node - - fate rest ⟨⟩
        exact ⟨rfl, fun _ => AList.lookup_erase _ _⟩
      | raises exc part =>
        cases exc with
        | osError =>
          refine ⟨_, EStateM.tryCatch_ok.2 (Or.inr ⟨_, _, hu, rfl⟩), h.2, ?_⟩
          rintro node - - fate rest ⟨⟩
          exact ⟨rfl, nofun⟩
        | _ => exact h.1.elim
      | dies part => exact h.1.elim
  have heq := unlink_eq name p
  rcases hn : p.disk.lookup name with _ | _ | _ | _ <;> rw [hn] at heq
  · exact hn ▸ hskip (by rw [hn]; nofun) heq
  · exact hn ▸ hcall heq
  · exact hn ▸ hcall heq
  · refine hn ▸ hskip ?_ heq
    rw [hn]
    rintro _ ⟨⟩
    nofun

/-- The files that `_wipe_tree` finds. -/
def Disk.files (d : Disk) : List (Sigma fun _ : Str => Node) := d.entries.filter (·.2.isFile)

theorem prunes_wipeLoop (l : List (Sigma fun _ : Str => Node)) : Prunes (fun _ => True)
    (l.forM fun child => if child.2.isFile then unlinkQuietly child.1 else pure () :
      Fs F E Unit) := by
  refine prunes_forM fun child _ => ?_
  split_ifs
  · exact prunes_unlinkQuietly trivial
  · exact EStateM.Moves.pure (fun p => Store.Pruned.refl p.toStore) _

/-- **A wipe deletes every file that can be deleted.** -/
theorem wipeTree_mild {p : Session F E} {fate : Str → Fate F E} (hfate : ∀ n, (fate n).Mild)
    {rest : List (Fate F E)} (hrest : ∀ f ∈ rest, f.Mild)
    (hp : p.fates = p.disk.files.map (fun c => fate c.1) ++ rest) :
    ∃ p', wipeTree p = .ok () p' ∧ p'.fates = rest ∧
      ∀ c ∈ p.disk.files, fate c.1 = .done → p'.disk.lookup c.1 = none := by
  rw [wipeTree_eq]
  have hlookup : ∀ c ∈ p.disk.entries, p.disk.lookup c.1 = some c.2 := fun c hc =>
    AList.mem_lookup_iff.2 hc
  have hnd := p.disk.nodupKeys
  unfold Disk.files at hp ⊢
  generalize p.disk.entries = l at hp hlookup hnd
  -- along the children that are left, which are still there
  induction l generalizing p with
  | nil => exact ⟨p, rfl, hp, nofun⟩
  | cons c l ih =>
    rw [List.forall_mem_cons] at hlookup
    rw [List.nodupKeys_cons] at hnd
    by_cases hfile : c.2.isFile
    · have hcons : (c :: l).filter (·.2.isFile) = c :: l.filter (·.2.isFile) :=
        List.filter_cons_of_pos hfile
      rw [hcons, List.map_cons, List.cons_append] at hp
      obtain ⟨p₁, h₁, -, hstep⟩ := unlinkQuietly_mild c.1 (p := p) fun f hf => by
        rw [hp, List.mem_cons, List.mem_append] at hf
        rcases hf with rfl | hf | hf
        · exact hfate _
        · obtain ⟨x, -, rfl⟩ := List.mem_map.1 hf
          exact hfate _
        · exact hrest f hf
      obtain ⟨hfates, hgone⟩ := hstep c.2 hlookup.1 hfile _ _ hp
      have hpruned : p.toStore.Pruned (· = c.1) p₁.toStore :=
        @prunes_unlinkQuietly F E (fun n => n = c.1) c.1 rfl p p₁ (Or.inl ⟨_, h₁⟩)
      obtain ⟨p₂, h₂, hfates₂, hall⟩ := ih hfates (fun x hx => by
        rcases hpruned.disk x.1 with hd | ⟨he, -⟩
        · rw [hd]
          exact hlookup.2 x hx
        · exact absurd (he ▸ List.mem_map_of_mem hx) hnd.1) hnd.2
      have hchild : (if c.2.isFile then unlinkQuietly c.1 else pure () : Fs F E Unit) p =
          .ok () p₁ := by
        rw [if_pos hfile]
        exact h₁
      refine ⟨p₂, EStateM.bind_ok.2 ⟨_, p₁, hchild, h₂⟩, hfates₂, ?_⟩
      rw [hcons, List.forall_mem_cons]
      refine ⟨fun hdone => ?_, hall⟩
      rcases (prunes_wipeLoop l p₁ p₂ (Or.inl ⟨_, h₂⟩)).disk c.1 with hd | ⟨-, hd⟩
      · rw [hd]
        exact hgone hdone
      · exact hd
    · have hcons : (c :: l).filter (·.2.isFile) = l.filter (·.2.isFile) :=
        List.filter_cons_of_neg hfile
      rw [hcons] at hp
      obtain ⟨p₂, h₂, hfates₂, hall⟩ := ih hp hlookup.2 hnd.2
      have hchild : (if c.2.isFile then unlinkQuietly c.1 else pure () : Fs F E Unit) p =
          .ok () p := by
        rw [if_neg hfile]
        rfl
      refine ⟨p₂, EStateM.bind_ok.2 ⟨_, p, hchild, h₂⟩, hfates₂, ?_⟩
      rw [hcons]
      exact hall

theorem sweep_mild {p : Session F E} (h : ∀ fate ∈ p.fates, fate.Mild) :
    ∃ p', sweepOrphanTmps p = .ok () p' := by
  have hall : ∀ (l : List Str) {p : Session F E}, (∀ fate ∈ p.fates, fate.Mild) →
      ∃ p', (l.forM unlinkQuietly : Fs F E Unit) p = .ok () p' := by
    intro l
    induction l with
    | nil => exact fun {p} _ => ⟨p, rfl⟩
    | cons name l ih =>
      intro p h
      obtain ⟨p₁, h₁, hf₁, -⟩ := unlinkQuietly_mild name h
      obtain ⟨p₂, h₂⟩ := ih hf₁
      exact ⟨p₂, EStateM.bind_ok.2 ⟨_, p₁, h₁, h₂⟩⟩
  exact hall _ h

/-! ## A fresh manifest -/

section
variable {S : Setup F R E} {fingerprint : Str} {draw : Draw F}

/-- The document of a manifest without entries. -/
def emptyDoc (F : Type) (fingerprint : Str) : Tree F .value :=
  .object (.member (lit "entries") (.object .empty) (.member (lit "fingerprint") (.str fingerprint)
    (.member (lit "schema_version") (.int schemaVersion) .empty)))

/-- The text of a manifest without entries. -/
theorem dumps_empty (fingerprint : Str) :
    dumps S.interp true (manifestDoc fingerprint (∅ : Entries F)) =
      (do let _ ← intRepr S.interp schemaVersion
          .ok (render S.interp true (emptyDoc F fingerprint))) := by
  have hdepth : ¬ S.interp.encodeDepth < (manifestDoc fingerprint (∅ : Entries F)).depth := by
    have hthree := S.interp.three_le.trans S.interp.inner_le
    have htwo : (manifestDoc fingerprint (∅ : Entries F)).depth = 2 := rfl
    omega
  have hdoc : (manifestDoc fingerprint (∅ : Entries F)) =
      .dict (.item (.str (lit "schema_version")) (.int schemaVersion)
        (.item (.str (lit "fingerprint")) (.str fingerprint)
          (.item (.str (lit "entries")) (.dict .empty) .empty))) := rfl
  rw [dumps, if_neg hdepth, hdoc]
  simp only [encode]
  cases intRepr S.interp schemaVersion <;> rfl

/-- Fingerprints that are rendered alike have one empty manifest. -/
theorem manifestBytes_congr {fingerprint' : Str}
    (h : renderStr true fingerprint' = renderStr true fingerprint) :
    manifestBytes S fingerprint' (∅ : Entries F) = manifestBytes S fingerprint (∅ : Entries F) := by
  have hrender : render S.interp true (emptyDoc F fingerprint') =
      render S.interp true (emptyDoc F fingerprint) := by
    simp only [emptyDoc, render, h]
  rw [manifestBytes, manifestBytes, dumps_empty, dumps_empty, hrender]

end

/-! ## Opening -/

section
variable [DecidableEq F] {S : Setup F R E} {fingerprint : Str} {draw : Draw F}

/-- What the calls of an open meet where nothing fails but deletions: the directory is made,
    the files are deleted or not, the four calls that write the manifest are done, and the
    sweep may fail again. -/
def openFates (d : Disk) (fate : Str → Fate F E) (rest : List (Fate F E)) : List (Fate F E) :=
  .done :: (d.files.map (fun c => fate c.1) ++ .done :: .done :: .done :: .done :: rest)

omit [DecidableEq F] in
theorem openFates_mild {d : Disk} {fate : Str → Fate F E} {rest : List (Fate F E)}
    (hfate : ∀ n, (fate n).Mild) (hrest : ∀ f ∈ rest, f.Mild) :
    ∀ f ∈ openFates d fate rest, f.Mild := by
  intro f hf
  simp only [openFates, List.mem_cons, List.mem_append, List.mem_map] at hf
  rcases hf with rfl | ⟨c, -, rfl⟩ | rfl | rfl | rfl | rfl | hf
  · trivial
  · exact hfate _
  all_goals first | trivial | exact hrest f hf

/-- The open, after the directory was made. -/
theorem open_run {s : Store F} {fates : List (Fate F E)} (hfp : fingerprint ≠ [])
    {p' : Session F E}
    (h : loadAndSweep S fingerprint draw ⟨⟨s.disk, ∅⟩, fates⟩ = .ok () p') :
    (openStore S fingerprint true draw).run s (.done :: fates) = (.returned, p'.toStore) := by
  have hrun : openStore (E := E) S fingerprint true draw ⟨s, .done :: fates⟩ = .ok () p' := by
    rw [openStore_eq, if_neg (by simp), if_neg hfp]
    refine EStateM.bind_ok.2 ⟨_, ⟨s, fates⟩, rfl, EStateM.bind_ok.2 ⟨_, _, rfl, h⟩⟩
  rw [Fs.run, hrun]

theorem Overflows.read {node : Option Node} (h : Overflows S node) :
    readManifest (E := E) S node = .error (.py .recursionError) := by
  rcases readManifest_cases (E := E) S node with ⟨raw, -, hnot, -⟩ | ⟨-, hnot, -⟩ | ⟨-, -, hread⟩
  · exact absurd h hnot
  · exact absurd h hnot
  · exact hread

/-- An open that returns has read the manifest. -/
theorem not_overflows_of_open {held : Bool} {s s' : Store F} {fates : List (Fate F E)}
    (h : (openStore S fingerprint held draw).run s fates = (.returned, s')) :
    ¬ Overflows S (s.disk.lookup manifestPath) := by
  intro hdeep
  rcases Fs.run_cases h with ⟨p, hrun, -, -⟩ | ⟨halt, p, -, he, -⟩
  · rw [openStore_eq] at hrun
    split_ifs at hrun
    · exact absurd hrun EStateM.throw_ok
    · exact absurd hrun EStateM.throw_ok
    · obtain ⟨_, p₁, h₁, hrun⟩ := EStateM.bind_ok.1 hrun
      obtain ⟨_, p₂, h₂, hrun⟩ := EStateM.bind_ok.1 hrun
      obtain ⟨hd, -⟩ := quiet_ok h₁
      obtain rfl := EStateM.modify_ok.1 h₂
      obtain ⟨_, p₃, h₃, -⟩ := EStateM.bind_ok.1 hrun
      rw [loadOrInvalidate_eq, show p₁.disk = s.disk from hd, hdeep.read] at h₃
      exact absurd h₃ EStateM.throw_ok
  · exact absurd he.symm halt.ended_ne

/-- What the scanner raises is not caught. -/
theorem open_overflows (draw : Draw F) (hfp : fingerprint ≠ []) {s : Store F}
    (h : Overflows S (s.disk.lookup manifestPath)) :
    (openStore S fingerprint true draw).run s [] =
      (.raised (.raised (.py .recursionError)), ⟨s.disk, ∅⟩) := by
  have hrun : openStore (E := E) S fingerprint true draw ⟨s, []⟩ =
      .error (.raised (.raised (.py .recursionError))) ⟨⟨s.disk, ∅⟩, []⟩ := by
    rw [openStore_eq, if_neg (by simp), if_neg hfp]
    refine EStateM.bind_error.2 (Or.inr ⟨_, ⟨s, []⟩, rfl, ?_⟩)
    refine EStateM.bind_error.2 (Or.inr ⟨_, ⟨⟨s.disk, ∅⟩, []⟩, rfl, ?_⟩)
    refine EStateM.bind_error.2 (Or.inl ?_)
    rw [loadOrInvalidate_eq, h.read]
    rfl
  rw [Fs.run, hrun]

/-- The entries are those of the manifest, or everything has been wiped. -/
structure Whole (S : Setup F R E) (fingerprint : Str) (fate : Str → Fate F E) (s s' : Store F) :
    Prop where
  kept : ∀ doc items, Document S (s.disk.lookup manifestPath) (.dict doc) →
    Admissible S fingerprint doc items →
    (∀ key entry, s'.entries.lookup key = some entry ↔ (.str key, .dict entry) ∈ items.toList) ∧
      ∀ n, isTmp n = false → s'.disk.lookup n = s.disk.lookup n
  wiped : (∀ doc items, Document S (s.disk.lookup manifestPath) (.dict doc) →
      ¬ Admissible S fingerprint doc items) →
    s'.entries = ∅ ∧
    (∃ doc items, Document S (s'.disk.lookup manifestPath) (.dict doc) ∧
      Admissible S fingerprint doc items ∧ items.toList = []) ∧
    ∀ n node, s.disk.lookup n = some node → node.isFile → fate n = .done → n ≠ manifestPath →
      s'.disk.lookup n = none

/-- The manifest is admitted whole or not at all. -/
theorem open_whole (hfp : fingerprint ≠ []) (hpair : NoPair fingerprint)
    (hdigits : 1 ≤ S.interp.maxDigits) {s : Store F}
    (htmp : s.disk.lookup draw.manifestTmp ≠ some .dir)
    (hdir : s.disk.lookup manifestPath ≠ some .dir)
    (hdeep : ¬ Overflows S (s.disk.lookup manifestPath)) {fate : Str → Fate F E}
    {rest : List (Fate F E)} (hfate : ∀ n, (fate n).Mild) (hrest : ∀ f ∈ rest, f.Mild) :
    ∃ s', (openStore S fingerprint true draw).run s (openFates s.disk fate rest) =
      (.returned, s') ∧ Whole S fingerprint fate s s' := by
  cases hr : readEntries S fingerprint (s.disk.lookup manifestPath) with
  | some D =>
    obtain ⟨doc, items, hdoc, hadm, rfl⟩ := readEntries_iff.1 hr
    have hload : loadOrInvalidateManifest S fingerprint draw
        ⟨⟨s.disk, ∅⟩, (openFates s.disk fate rest).tail⟩ =
          .ok () ⟨⟨s.disk, entriesOf items⟩, (openFates s.disk fate rest).tail⟩ :=
      loadOrInvalidate_some hr
    obtain ⟨p', hsweep⟩ := sweep_mild
      (p := ⟨⟨s.disk, entriesOf items⟩, (openFates s.disk fate rest).tail⟩)
      fun f hf => openFates_mild hfate hrest f (List.mem_of_mem_tail hf)
    have hp := prunes_sweep _ p' (Or.inl ⟨_, hsweep⟩)
    refine ⟨p'.toStore, open_run hfp (EStateM.bind_ok.2 ⟨_, _, hload, hsweep⟩), ?_, ?_⟩
    · intro doc' items' hdoc' hadm'
      obtain rfl : doc = doc' := by
        have := hdoc.unique hdoc'
        rwa [Value.dict.injEq] at this
      obtain rfl : items = items' := by
        have := hadm.entries.symm.trans hadm'.entries
        rwa [Option.some.injEq, Value.dict.injEq] at this
      refine ⟨fun key entry => ?_, fun n hn => hp.not_tmp hn⟩
      rw [hp.entries]
      exact lookup_entriesOf_iff hdoc hadm
    · exact fun hnone => absurd hadm (hnone doc items hdoc)
  | none =>
    -- the manifest is read, and its content not admitted
    have hload : loadOrInvalidateManifest (E := E) S fingerprint draw
        ⟨⟨s.disk, ∅⟩, (openFates s.disk fate rest).tail⟩ =
          invalidate S fingerprint draw ⟨⟨s.disk, ∅⟩, (openFates s.disk fate rest).tail⟩ := by
      rcases loadOrInvalidate_none draw (p := ⟨⟨s.disk, ∅⟩, (openFates s.disk fate rest).tail⟩) hr
        with ⟨e, he⟩ | hi
      · rw [loadOrInvalidate_eq] at he
        rcases readManifest_cases (E := E) S (s.disk.lookup manifestPath) with
          ⟨raw, -, -, hread⟩ | ⟨-, -, hread⟩ | ⟨-, h, -⟩
        · rw [readEntries_eq hread] at hr
          simp only [hread, Option.bind_some, hr] at he
          rw [loadOrInvalidate_eq]
          simp only [hread, Option.bind_some, hr]
        · rw [loadOrInvalidate_eq]
          simp only [hread, Option.bind_none]
        · exact absurd h hdeep
      · exact hi
    obtain ⟨b, hb⟩ : ∃ b, manifestBytes S fingerprint (∅ : Entries F) = .ok b :=
      manifestBytes_writable .empty hdigits fun key entry h => by cases h
    have hrest' : ∀ f ∈ (.done :: .done :: .done :: .done :: rest : List (Fate F E)), f.Mild :=
      fun f hf => openFates_mild (d := ∅) hfate hrest f (List.mem_cons_of_mem _ hf)
    obtain ⟨p₁, h₁, hf₁, hgone⟩ := wipeTree_mild
      (p := ⟨⟨s.disk, ∅⟩, (openFates s.disk fate rest).tail⟩) hfate hrest' rfl
    have hp₁ := prunes_wipeTree _ p₁ (Or.inl ⟨_, h₁⟩)
    have hnodir : ∀ {n}, s.disk.lookup n ≠ some .dir → p₁.disk.lookup n ≠ some .dir := by
      intro n hn
      rcases hp₁.disk n with hd | ⟨-, hd⟩
      · rw [hd]
        exact hn
      · rw [hd]
        nofun
    have hdone : Done 4 p₁.fates := by
      rw [hf₁]
      simp [Done]
    obtain ⟨p₂, h₂, hf₂, hnone⟩ : ∃ p₂ : Session F E,
        writeManifest S fingerprint draw { p₁ with entries := ∅ } = .ok () p₂ ∧ p₂.fates = rest ∧
        ∀ n, n ≠ manifestPath → p₁.disk.lookup n = none → p₂.disk.lookup n = none := by
      refine ⟨_, writeManifest_done (p := { p₁ with entries := ∅ }) hdone hb (hnodir htmp)
        (hnodir hdir),
        ?_, fun n hn hnone => lookup_moved hn hnone⟩
      rw [hf₁]
      rfl
    obtain ⟨p₃, h₃⟩ := sweep_mild (p := p₂) fun f hf => hrest f (hf₂ ▸ hf)
    have hp₃ := prunes_sweep _ p₃ (Or.inl ⟨_, h₃⟩)
    have hrun := open_run (s := s) hfp (EStateM.bind_ok.2 ⟨_, _, hload.trans
      (EStateM.bind_ok.2 ⟨_, _, h₁, EStateM.bind_ok.2 ⟨_, _, rfl, h₂⟩⟩), h₃⟩)
    refine ⟨p₃.toStore, hrun, fun doc items hdoc hadm => ?_, fun _ => ?_⟩
    · rw [readEntries_iff.2 ⟨doc, items, hdoc, hadm, rfl⟩] at hr
      cases hr
    · cases (open_cases hrun).1 with
      | loaded D hD =>
        rw [hr] at hD
        cases hD
      | wiped _ _ h =>
        obtain ⟨he, b', hb', hm⟩ := h rfl
        refine ⟨he, ?_, fun n node hn hfile hdone hne => ?_⟩
        · obtain ⟨D, hD, hlookup⟩ := readEntries_written hpair .empty hb'
          obtain ⟨doc, items, hdoc, hadm, rfl⟩ := readEntries_iff.1 hD
          refine ⟨doc, items, hm ▸ hdoc, hadm, List.eq_nil_iff_forall_not_mem.2 fun x hx => ?_⟩
          obtain ⟨key, entry, rfl, -⟩ := hadm.well_formed x hx
          have hfound := (lookup_entriesOf_iff hdoc hadm).2 hx
          rw [hlookup] at hfound
          cases hfound
        · have hwiped := hgone ⟨n, node⟩
            (List.mem_filter.2 ⟨AList.mem_lookup_iff.1 hn, hfile⟩) hdone
          rcases hp₃.disk n with hd | ⟨-, hd⟩
          · rw [hd]
            exact hnone n hne hwiped
          · exact hd

/-! ## Reading under a manifest -/

/-- What a hook of the subclass raises while a payload file is read and checked. -/
def Codec.Raises (C : Codec R E) (e : Raised E) : Prop :=
  (∃ node, C.readFile node = .error e) ∨ (∃ r info, C.validateStructure r info = .error e) ∨
    ∃ r, C.canonicalBytes r = .error e

/-- What a reader is prepared for: a miss, a collision, what the hooks of the subclass raise on a
    payload file, and what `str` raises on too many digits or on too deep a nesting. -/
def Exc.Expected (C : Codec R E) (exc : Exc F E) : Prop :=
  exc.isMiss ∨ exc.isCollision ∨ ∃ e, exc = .raised e ∧
    (C.Raises e ∨ e = .py .valueError ∨ e = .py .recursionError)

omit [DecidableEq F] in
theorem pyText_error {v : PyVal F} {e : Raised E} (h : pyText S v = .error e) :
    e = .py .valueError ∨ e = .py .recursionError := by
  obtain ⟨e', he', rfl⟩ : ∃ e', pyStr S.interp v = .error e' ∧ e = .py e' := by
    unfold pyText at h
    cases hs : pyStr S.interp v with
    | ok s =>
      rw [hs] at h
      cases h
    | error e' =>
      rw [hs] at h
      cases h
      exact ⟨e', rfl, rfl⟩
  have hinside : ∀ {c : Code} {v : PyVal F}, (do .ok (c :: (← S.interp.strInside v)) :
      Except PyError Str) = .error e' → e' = .recursionError := by
    intro c v h
    rcases Except.bind_error.1 h with h | ⟨s, -, h⟩
    · exact S.interp.strInside_error _ _ h
    · cases h
  cases v with
  | int n =>
    rw [pyStr, intRepr] at he'
    split_ifs at he'
    cases he'
    exact Or.inl rfl
  | bool b => cases b <;> cases he'
  | list xs | tuple xs | dict xs =>
    rw [hinside he']
    exact Or.inr rfl
  | none | float x | str s => cases he'

theorem checkBody_raises {result : R} {info : Meta} {entry : Entry F} {e : Raised E}
    (h : checkBody S result info entry = .error e) :
    S.codec.Raises e ∨ e = .py .valueError ∨ e = .py .recursionError := by
  rcases Except.bind_error.1 h with h | ⟨⟨digest, byteLen, count⟩, -, h⟩
  · rcases Except.bind_error.1 h with h | ⟨body, -, h⟩
    · rcases S.codec.checked_upTo result with hover | hsame
      · rw [hover] at h
        cases h
        exact Or.inr (Or.inr rfl)
      · exact Or.inl (Or.inr (Or.inr ⟨result, hsame ▸ h⟩))
    · cases h
  · simp only [pure, Except.pure] at h
    split_ifs at h
    rcases Except.bind_error.1 h with h | ⟨len, -, h⟩
    · exact Or.inr (pyText_error h)
    split_ifs at h
    rcases Except.bind_error.1 h with h | ⟨count', -, h⟩
    · exact Or.inr (pyText_error h)
    · split_ifs at h

theorem check_expected {key hash : Str} {result : R} {info : Meta} {entry : Entry F} {exc : Exc F E}
    (h : check S fingerprint key hash result info entry = .error exc) : exc.Expected S.codec := by
  unfold check at h
  split at h
  · cases h
  split_ifs at h
  · cases h
    exact Or.inr (Or.inl rfl)
  split at h
  · rename_i e he
    cases h
    exact Or.inr (Or.inr ⟨e, rfl, Or.inl (Or.inr (Or.inl ⟨result, info, he⟩))⟩)
  · cases h
  · cases hb : checkBody S result info entry with
    | ok status =>
      rw [hb] at h
      cases h
    | error e =>
      rw [hb] at h
      cases h
      exact Or.inr (Or.inr ⟨e, rfl, checkBody_raises hb⟩)

/-- **No entry that was admitted is of a type that readers cannot take.** -/
theorem load_expected {s : Store F} (hs : EntriesOk s.entries) {key hash : Str} {exc : Exc F E}
    (h : load S fingerprint s key hash = .error exc) : exc.Expected S.codec := by
  cases he : s.entries.lookup key with
  | none =>
    simp only [load, he] at h
    cases h
    exact Or.inl rfl
  | some entry =>
    have hsafe := (hs key entry he).safe
    rw [load_entry he] at h
    split_ifs at h
    · cases h
      exact Or.inr (Or.inl rfl)
    · unfold readPayload at h
      rcases hr : S.codec.readFile (S.found s.disk (S.path key)) with e | _ | ⟨result, info⟩
      · rw [hr] at h
        cases h
        exact Or.inr (Or.inr ⟨e, rfl, Or.inl (Or.inl ⟨_, hr⟩)⟩)
      · rw [hr] at h
        cases h
        exact Or.inl rfl
      · rw [hr] at h
        simp only [Except.mapError] at h
        rcases hch : check S fingerprint key hash result info entry with exc' | _ | _
        · rw [hch] at h
          cases h
          exact check_expected hch
        · rw [hch] at h
          cases h
        · rw [hch] at h
          cases h
          exact Or.inl rfl

/-! ## The manifest, whole or not at all -/

/-- A manifest with the given entries is admitted with exactly these, but for the order of the
    items of dictionaries. -/
def HoldsExactly (S : Setup F R E) (fingerprint : Str) (b : ByteArray) (entries : Entries F) : Prop :=
  ∃ doc items, Document S (some (.file b)) (.dict doc) ∧ Admissible S fingerprint doc items ∧
    ∀ key, (∀ entry, entries.lookup key = some entry → ∃ entry',
        (.str key, .dict entry') ∈ items.toList ∧ (Value.dict entry).Same (.dict entry')) ∧
      (entries.lookup key = none → ∀ v, (.str key, v) ∉ items.toList)

theorem holdsExactly_written (hpair : NoPair fingerprint) {entries : Entries F}
    (he : EntriesOk entries)
    {b : ByteArray} (hb : manifestBytes S fingerprint entries = .ok b) :
    HoldsExactly S fingerprint b entries := by
  obtain ⟨D, hD, hlookup⟩ := readEntries_written hpair he hb
  obtain ⟨doc, items, hdoc, hadm, rfl⟩ := readEntries_iff.1 hD
  refine ⟨doc, items, hdoc, hadm, fun key => ⟨fun entry hentry => ?_, fun hnone v hv => ?_⟩⟩
  · refine ⟨entry.sorted, (lookup_entriesOf_iff hdoc hadm).1 ?_,
      .dict entry.same_sortKeys (sortByKey_perm _)⟩
    rw [hlookup, hentry]
    rfl
  · obtain ⟨key', entry, hkv, -⟩ := hadm.well_formed _ hv
    obtain ⟨hkey, rfl⟩ := Prod.mk.inj hkv
    obtain rfl := Key.str.inj hkey
    have hfound := (lookup_entriesOf_iff hdoc hadm).2 hv
    rw [hlookup, hnone] at hfound
    cases hfound

/-- **The manifest is admitted whole or not at all**, and whatever it holds is safe to read,
    exactly if its text is not nested too deeply for the scanner and the fingerprint has no two
    code points that are the halves of a surrogate pair. -/
theorem manifest_whole_iff (hC : S.codec.ReadsBack) (hfp : fingerprint ≠ [])
    (hdigits : 1 ≤ S.interp.maxDigits) (s : Store F) (draw : Draw F)
    (htmp : s.disk.lookup draw.manifestTmp ≠ some .dir)
    (hdir : s.disk.lookup manifestPath ≠ some .dir) {fate : Str → Fate F E}
    {rest : List (Fate F E)} (hfate : ∀ n, (fate n).Mild) (hrest : ∀ f ∈ rest, f.Mild) :
    (∃ s', (openStore S fingerprint true draw).run s (openFates s.disk fate rest) =
        (.returned, s') ∧ Whole S fingerprint fate s s' ∧
      (∀ key hash exc,
        (has S fingerprint s' key hash = .error exc →
          exc.Expected S.codec ∨ exc = .osError ∧ Refused S s' key hash) ∧
        (load S fingerprint s' key hash = .error exc → exc.Expected S.codec)) ∧
      ∀ left t b, Instance S fingerprint left t → manifestBytes S fingerprint t.entries = .ok b →
        HoldsExactly S fingerprint b t.entries) ↔
    NoPair fingerprint ∧ ¬ Overflows S (s.disk.lookup manifestPath) := by
  constructor
  · rintro ⟨s', hrun, hwhole, -⟩
    refine ⟨?_, not_overflows_of_open hrun⟩
    -- a manifest is admitted before or after the open
    by_cases hadm : ∃ doc items, Document S (s.disk.lookup manifestPath) (.dict doc) ∧
        Admissible S fingerprint doc items
    · obtain ⟨doc, items, hdoc, hadm⟩ := hadm
      exact (readEntries_ok (readEntries_iff.2 ⟨doc, items, hdoc, hadm, rfl⟩)).1
    · obtain ⟨-, ⟨doc, items, hdoc, hadm', -⟩, -⟩ := hwhole.wiped fun doc items hdoc hadm' =>
        hadm ⟨doc, items, hdoc, hadm'⟩
      exact (readEntries_ok (readEntries_iff.2 ⟨doc, items, hdoc, hadm', rfl⟩)).1
  · rintro ⟨hpair, hdeep⟩
    obtain ⟨s', hrun, hwhole⟩ := open_whole hfp hpair hdigits htmp hdir hdeep hfate hrest
    have hok := (open_cases hrun).1.entriesOk
    refine ⟨s', hrun, hwhole, fun key hash exc => ⟨fun h => ?_, fun h => load_expected hok h⟩,
      fun left t b ht hb => holdsExactly_written hpair (ht.entriesOk hC) hb⟩
    by_cases href : Refused S s' key hash
    · rw [(href.answers _ hC.missing).1] at h
      cases h
      exact Or.inr ⟨rfl, href⟩
    · rw [has_eq_load hC.missing href] at h
      cases hload : load S fingerprint s' key hash with
      | ok r =>
        rw [hload] at h
        cases h
      | error exc' =>
        rw [hload] at h
        simp only at h
        split_ifs at h
        cases h
        exact Or.inl (load_expected hok hload)

end

/-- A directory with a manifest and a payload is opened: its entry is kept. -/
theorem manifest_whole_iff_sample : ∃ s s' : Store Half,
    (commit (plainSetup none) (lit "f") (lit "a") (lit "h") plainRecords plainDraw).run s [] =
      (.returned, s') ∧
    ∃ t : Store Half, (openStore (E := Bool) (plainSetup none) (lit "f") true plainDraw).run s'
      (openFates s'.disk (fun _ => .done) []) = (.returned, t) ∧
        t.entries.lookup (lit "a") ≠ none := by
  have hC := jsonl_readsBack (E := Bool) Half.interp none
  obtain ⟨s, s', hopen, hcommit, htmp⟩ : ∃ s s' : Store Half,
      (openStore (plainSetup none) (lit "f") true plainDraw).run ⟨∅, ∅⟩ [] = (.returned, s) ∧
      (commit (plainSetup none) (lit "f") (lit "a") (lit "h") plainRecords plainDraw).run s [] =
        (.returned, s') ∧ s'.disk.lookup plainDraw.manifestTmp ≠ some .dir :=
    runs_returned_then (by decide +kernel)
  obtain ⟨hs, hload⟩ := Instance.of_new plainRecords_json plainRecords_depth hopen hcommit
  obtain ⟨D, hD, hfound⟩ := (hs.live hC).vouched (Set.notMem_empty _) hload
  obtain ⟨t₀, hopen₀, -⟩ := open_returns plainDraw hs.fingerprint_ne hD
  obtain ⟨doc, items, hdoc, hadm, rfl⟩ := readEntries_iff.1 hD
  have hdir : s'.disk.lookup manifestPath ≠ some .dir := by
    obtain ⟨bytes, text, hfile, -⟩ := hdoc
    rw [hfile]
    exact fun h => by cases h
  have hfate : ∀ n : Str, ((fun _ => .done : Str → Fate Half Bool) n).Mild := fun _ => trivial
  have hrest : ∀ f ∈ ([] : List (Fate Half Bool)), f.Mild := nofun
  have hpair : NoPair (lit "f") := noPair_lit rfl
  obtain ⟨t, hrun, hwhole, -⟩ := (manifest_whole_iff hC hs.fingerprint_ne (by decide) s' plainDraw
    htmp hdir hfate hrest).2 ⟨hpair, not_overflows_of_open hopen₀⟩
  obtain ⟨info, entry, hit⟩ := load_ok.1 hfound
  have hentry := ((hwhole.kept doc items hdoc hadm).1 (lit "a") entry).2
    ((lookup_entriesOf_iff hdoc hadm).1 hit.entry_at)
  exact ⟨s, s', hcommit, t, hrun, by rw [hentry]; simp⟩

/-! ### Brackets -/

theorem scan_brackets {I : Interp F} (rest : Str) : ∀ depth,
    scanValue I depth (List.replicate (depth + 1) 91 ++ rest) = .error .recursionError
  | 0 => rfl
  | depth + 1 => by
    have ih := scan_brackets (I := I) rest depth
    rw [List.replicate_succ, List.cons_append] at ih ⊢
    rw [List.replicate_succ, List.cons_append]
    have hitems : ∀ fuel, scanItems (scanValue I depth) (fuel + 1)
        (91 :: (List.replicate depth 91 ++ rest)) = .error .recursionError := by
      intro fuel
      rw [scanItems, ih]
      rfl
    have harray : scanArray (scanValue I depth) (91 :: (List.replicate depth 91 ++ rest)) =
        .error .recursionError := hitems _
    show (scanArray (scanValue I depth) (91 :: (List.replicate depth 91 ++ rest)) >>= _) = _
    rw [harray]
    rfl

/-- **A manifest that is neither admitted nor wiped**: a thousand opening brackets. -/
theorem manifest_overflows : ∃ b, encodeUtf8 (List.replicate 1000 91) = some b ∧
    ∀ s : Store Half, s.disk.lookup manifestPath = some (.file b) →
      (openStore (E := Bool) (plainSetup none) (lit "f") true plainDraw).run s [] =
        (.raised (.raised (.py .recursionError)), ⟨s.disk, ∅⟩) := by
  have hmem : ∀ {c : Code}, c ∈ List.replicate 1000 91 → c = 91 := fun h => List.eq_of_mem_replicate h
  obtain ⟨b, hb⟩ := encodeUtf8_isSome.2 (show Scalar (List.replicate 1000 91) from fun c hc => by
    rw [hmem hc]
    decide)
  refine ⟨b, hb, fun s hs => open_overflows plainDraw (by decide) ?_⟩
  refine ⟨b, _, hs, decodeUtf8_encodeUtf8 hb, ?_⟩
  have hret : carriageReturn ∉ List.replicate 1000 (91 : Code) := fun h => by
    have := hmem h
    revert this
    decide
  rw [universalNewlines_of_not_mem hret]
  have hscan := scan_brackets (I := Half.interp) (List.replicate 9 91) 990
  rw [List.replicate_append_replicate] at hscan
  have hspace : skipWs (List.replicate 1000 91) = List.replicate 1000 91 := rfl
  rw [loads, parse, if_neg (by decide), hspace]
  show (scanValue Half.interp 990 (List.replicate 1000 91) >>= _) >>= _ = _
  rw [hscan]
  rfl

end ResumableBatch
