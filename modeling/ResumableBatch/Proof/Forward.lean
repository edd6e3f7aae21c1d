/-
  The directory forwards: where the calls of the file system are done, a file is moved
  to its place, and a commit returns (`commit_done`).
-/
import ResumableBatch.Proof.Open

namespace ResumableBatch

open Text Json

variable {F R E : Type}

/-! ## Calls that are done -/

/-- The next `n` calls are done; where no fate is left, all are. -/
def Done (n : ℕ) (fates : List (Fate F E)) : Prop := ∀ f ∈ fates.take n, f = .done

theorem Done.nil (n : ℕ) : Done n ([] : List (Fate F E)) := by simp [Done]

theorem Done.drop {k m n : ℕ} {fates : List (Fate F E)} (h : Done n fates) (hn : m + k ≤ n) :
    Done k (fates.drop m) := by
  intro f hf
  refine h f ((List.take_subset_take_left fates hn) ?_)
  rw [List.take_add]
  exact List.mem_append_right _ hf

variable {p : Session F E} {tmp final name : Str} {b : ByteArray}

theorem syscall_done {effect : Disk → Disk} {garble : Option Node → Disk → Disk}
    (h : Done 1 p.fates) :
    syscall effect garble p = .ok () { p with disk := effect p.disk, fates := p.fates.drop 1 } := by
  obtain ⟨⟨disk, entries⟩, fates⟩ := p
  cases fates with
  | nil => rfl
  | cons f rest =>
    obtain rfl := h f (by simp)
    rfl

theorem writeFile_done (h : Done 1 p.fates) (hdir : p.disk.lookup name ≠ some .dir) :
    writeFile name b p =
      .ok () { p with disk := p.disk.insert name (.file b), fates := p.fates.drop 1 } := by
  refine EStateM.bind_ok.2 ⟨p, p, rfl, ?_⟩
  rw [if_neg hdir]
  exact syscall_done h

/-- A file is moved to its place. -/
theorem atomicReplaceFile_done (h : Done 3 p.fates) (hnode : p.disk.lookup tmp = some (.file b))
    (hdir : p.disk.lookup final ≠ some .dir) : atomicReplaceFile tmp final p =
      .ok () { p with
        disk := (p.disk.erase tmp).insert final (.file b), fates := p.fates.drop 3 } := by
  obtain ⟨⟨disk, entries⟩, fates⟩ := p
  have h₁ : fsyncFile tmp ⟨⟨disk, entries⟩, fates⟩ = .ok () ⟨⟨disk, entries⟩, fates.drop 1⟩ := by
    rw [fsyncFile_eq, hnode]
    exact syscall_done (h.drop (m := 0) (by decide))
  have h₂ : osReplace tmp final ⟨⟨disk, entries⟩, fates.drop 1⟩ =
      .ok () ⟨⟨(disk.erase tmp).insert final (.file b), entries⟩, (fates.drop 1).drop 1⟩ := by
    have hcall : syscall (fun d => (d.erase tmp).insert final (.file b)) (fun _ => id)
        ⟨⟨disk, entries⟩, fates.drop 1⟩ =
          .ok () ⟨⟨(disk.erase tmp).insert final (.file b), entries⟩, (fates.drop 1).drop 1⟩ :=
      syscall_done (h.drop (by decide))
    rw [osReplace_eq, hnode]
    rcases hd : disk.lookup final with _ | _ | _ | _
    · exact hcall
    · exact hcall
    · exact hcall
    · exact absurd hd hdir
  refine EStateM.bind_ok.2 ⟨_, _, h₁, EStateM.bind_ok.2 ⟨_, _, h₂, ?_⟩⟩
  have h₃ : Done 1 ((fates.drop 1).drop 1) := by
    rw [List.drop_drop]
    exact h.drop (by decide)
  refine (syscall_done h₃).trans ?_
  simp only [List.drop_drop]
  rfl

/-! ## Directories -/

/-- No directory stands under a name. -/
def NoDirs (d : Disk) : Prop := ∀ name, d.lookup name ≠ some .dir

theorem NoDirs.insert {d : Disk} (h : NoDirs d) (name : Str) (b : ByteArray) :
    NoDirs (d.insert name (.file b)) := by
  intro n
  by_cases hn : n = name
  · rw [hn, AList.lookup_insert]
    nofun
  · rw [AList.lookup_insert_ne hn]
    exact h n

theorem NoDirs.erase {d : Disk} (h : NoDirs d) (name : Str) : NoDirs (d.erase name) := by
  intro n
  by_cases hn : n = name
  · rw [hn, AList.lookup_erase]
    nofun
  · rw [AList.lookup_erase_ne hn]
    exact h n

/-- The directory after a file was moved to its place. -/
def moved (d : Disk) (tmp final : Str) (b : ByteArray) : Disk :=
  ((d.insert tmp (.file b)).erase tmp).insert final (.file b)

theorem NoDirs.moved {d : Disk} (h : NoDirs d) (tmp final : Str) (b : ByteArray) :
    NoDirs (moved d tmp final b) :=
  ((h.insert tmp b).erase tmp).insert final b

theorem lookup_moved {d : Disk} {n : Str} (hn : n ≠ final) (hnone : d.lookup n = none) :
    (moved d tmp final b).lookup n = none := by
  rw [moved, AList.lookup_insert_ne hn]
  by_cases ht : n = tmp
  · rw [ht, AList.lookup_erase]
  · rw [AList.lookup_erase_ne ht, AList.lookup_insert_ne ht, hnone]

/-! ## A commit -/

section
variable {S : Setup F R E} {fingerprint key payloadHash : Str} {draw : Draw F} {result : R}

/-- The manifest is written. -/
theorem writeManifest_done (h : Done 4 p.fates) (hb : manifestBytes S fingerprint p.entries = .ok b)
    (htmp : p.disk.lookup draw.manifestTmp ≠ some .dir)
    (hdir : p.disk.lookup manifestPath ≠ some .dir) : writeManifest S fingerprint draw p =
      .ok () { p with
        disk := moved p.disk draw.manifestTmp manifestPath b, fates := p.fates.drop 4 } := by
  have h₁ : writeFile draw.manifestTmp b p = .ok () { p with
      disk := p.disk.insert draw.manifestTmp (.file b), fates := p.fates.drop 1 } :=
    writeFile_done (h.drop (m := 0) (by decide)) htmp
  refine EStateM.bind_ok.2 ⟨p, p, rfl, EStateM.bind_ok.2 ⟨b, p, hook_ok.2 ⟨hb, rfl⟩, ?_⟩⟩
  refine EStateM.bind_ok.2 ⟨_, _, h₁, ?_⟩
  refine (atomicReplaceFile_done (b := b) (h.drop (by decide)) (AList.lookup_insert _) ?_).trans ?_
  · rw [AList.lookup_insert_ne (ne_manifestTmp isTmp_manifest)]
    exact hdir
  · simp only [List.drop_drop]
    rfl

variable (draw) in
theorem publishEntry_done {entry : Entry F} (h : Done 4 p.fates) (hdirs : NoDirs p.disk)
    (hb : manifestBytes S fingerprint (p.entries.insert key entry) = .ok b) :
    publishEntry S fingerprint key entry draw p =
      .ok () ⟨⟨moved p.disk draw.manifestTmp manifestPath b,
      p.entries.insert key entry⟩, p.fates.drop 4⟩ := by
  have hwrite := writeManifest_done (p := { p with entries := p.entries.insert key entry }) h hb
    (hdirs draw.manifestTmp) (hdirs manifestPath)
  refine EStateM.bind_ok.2 ⟨_, p, rfl, EStateM.bind_ok.2 ⟨_, _, rfl, ?_⟩⟩
  exact EStateM.tryCatch_ok.2 (Or.inl hwrite)

/-- The name of a payload is none of those the calls before left. -/
theorem publish_done (hA : S.codec.Apart) {info : Meta} {entry : Entry F} {bytes : ByteArray}
    (h : Done 8 p.fates) (hdirs : NoDirs p.disk) (hfile : S.codec.fileBytes result info = .ok bytes)
    (htmp : S.refuses (S.payloadTmp key draw) = false) (htaken : S.refuses (S.path key) = false)
    (hb : manifestBytes S fingerprint (p.entries.insert key entry) = .ok b) :
    publish S fingerprint key result info entry draw p = .ok () ⟨⟨moved
      (moved p.disk (S.payloadTmp key draw) (S.path key) bytes) draw.manifestTmp manifestPath b,
      p.entries.insert key entry⟩, p.fates.drop 8⟩ := by
  have h₁ : writePayload S (S.payloadTmp key draw) result info draw p = .ok ()
      { p with
        disk := p.disk.insert (S.payloadTmp key draw) (.file bytes), fates := p.fates.drop 1 } := by
    simp only [writePayload, htmp, hfile, Bool.false_eq_true, if_false]
    exact writeFile_done (h.drop (m := 0) (by decide)) (hdirs _)
  have h₂ : replacePayload S (S.payloadTmp key draw) (S.path key)
      { p with
        disk := p.disk.insert (S.payloadTmp key draw) (.file bytes), fates := p.fates.drop 1 } =
      .ok () { p with
        disk := moved p.disk (S.payloadTmp key draw) (S.path key) bytes
        fates := p.fates.drop 4 } := by
    rw [replacePayload, if_neg (by simp [htaken])]
    refine (atomicReplaceFile_done (b := bytes) (h.drop (by decide))
      (AList.lookup_insert _) ?_).trans ?_
    · rw [AList.lookup_insert_ne hA.path_payloadTmp]
      exact hdirs _
    · simp only [List.drop_drop]
      rfl
  have h₃ := publishEntry_done draw
    (p := ⟨⟨moved p.disk (S.payloadTmp key draw) (S.path key) bytes, p.entries⟩, p.fates.drop 4⟩)
    (h.drop (by decide)) (hdirs.moved _ _ _) hb
  simp only [List.drop_drop] at h₃
  exact EStateM.bind_ok.2 ⟨_, _, h₁, EStateM.bind_ok.2 ⟨_, _, h₂, h₃⟩⟩

/-- **A commit returns where every call is done**, if what it publishes can be written. -/
theorem commit_done [DecidableEq F] (hA : S.codec.Apart) {s : Store F} {fates : List (Fate F E)}
    (pub : Publication S fingerprint key payloadHash result draw) (h : Done 8 fates)
    (hdirs : NoDirs s.disk) (htmp : S.refuses (S.payloadTmp key draw) = false)
    (hb : manifestBytes S fingerprint (s.entries.insert key pub.entry) = .ok b) :
    ∃ s', (commit S fingerprint key payloadHash result draw).run s fates = (.returned, s') ∧
      s'.entries = s.entries.insert key pub.entry ∧ NoDirs s'.disk := by
  obtain ⟨p', hpublish, he, hd⟩ : ∃ p', publish S fingerprint key result pub.info pub.entry draw
      ⟨s, fates⟩ = .ok () p' ∧ p'.entries = s.entries.insert key pub.entry ∧ NoDirs p'.disk :=
    ⟨_, publish_done hA h hdirs pub.file htmp pub.taken hb, rfl, (hdirs.moved _ _ _).moved _ _ _⟩
  have hrun : commit S fingerprint key payloadHash result draw ⟨s, fates⟩ = .ok () p' := by
    rw [commit_eq]
    refine EStateM.bind_ok.2 ⟨_, _, hook_ok.2 ⟨pub.prepared.validated, rfl⟩, ?_⟩
    refine EStateM.bind_ok.2 ⟨_, _, hook_ok.2 ⟨pub.prepared.digested, rfl⟩, ?_⟩
    refine EStateM.bind_ok.2 ⟨_, _, hook_ok.2 ⟨pub.prepared.extras, rfl⟩, ?_⟩
    rw [if_pos pub.prepared.safe]
    exact hpublish
  exact ⟨p'.toStore, by rw [Fs.run, hrun], he, hd⟩

end

end ResumableBatch
