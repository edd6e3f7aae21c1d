/-
  What a commit does to the directory and to the entries: nothing, or it
  replaces the payload, or the payload and then the manifest (`commit_cases`).
  Every later fact about commits is read off these three cases.
-/
import ResumableBatch.Proof.Verify

namespace ResumableBatch

open Text Json

variable {F R E : Type}

/-! ## How code ends -/

/-- How code ends that halts. -/
def Halt.ended : Halt F E → Ended (Exc F E)
  | .raised exc => .raised exc
  | .died => .died

theorem Halt.ended_ne (halt : Halt F E) : halt.ended ≠ .returned := by
  cases halt <;> simp [Halt.ended]

theorem run_ended {x : Ended (Exc F E) × Store F} {ended : Ended (Exc F E)} (h : x.1 = ended) :
    x = (ended, x.2) :=
  Prod.ext h rfl

theorem run_returned {x : Ended (Exc F E) × Store F} (h : x.1 = .returned) :
    x = (.returned, x.2) :=
  run_ended h

/-- Two runs that return, one on what the other leaves, and what is seen after them. -/
theorem runs_returned_then {a b : Fs F E Unit} {s : Store F} {p : Store F → Prop}
    (h : (a.run s []).1 = .returned ∧ (b.run (a.run s []).2 []).1 = .returned ∧
      p (b.run (a.run s []).2 []).2) :
    ∃ s₁ s₂, a.run s [] = (.returned, s₁) ∧ b.run s₁ [] = (.returned, s₂) ∧ p s₂ :=
  ⟨_, _, run_returned h.1, run_returned h.2.1, h.2.2⟩

theorem runs_returned {a b : Fs F E Unit} {s : Store F}
    (h : (a.run s []).1 = .returned ∧ (b.run (a.run s []).2 []).1 = .returned) :
    ∃ s₁ s₂, a.run s [] = (.returned, s₁) ∧ b.run s₁ [] = (.returned, s₂) :=
  ⟨_, _, run_returned h.1, run_returned h.2⟩

theorem Fs.run_cases {code : Fs F E Unit} {s s' : Store F} {fates : List (Fate F E)}
    {ended : Ended (Exc F E)} (h : code.run s fates = (ended, s')) :
    (∃ p, code ⟨s, fates⟩ = .ok () p ∧ ended = .returned ∧ s' = p.toStore) ∨
      ∃ halt p, code ⟨s, fates⟩ = .error halt p ∧ ended = halt.ended ∧ s' = p.toStore := by
  unfold Fs.run at h
  rcases hrun : code ⟨s, fates⟩ with ⟨⟨⟩, p⟩ | ⟨exc | _, p⟩
  · rw [hrun] at h
    cases h
    exact Or.inl ⟨p, rfl, rfl, rfl⟩
  · rw [hrun] at h
    cases h
    exact Or.inr ⟨.raised exc, p, rfl, rfl, rfl⟩
  · rw [hrun] at h
    cases h
    exact Or.inr ⟨.died, p, rfl, rfl, rfl⟩

/-! ## Calls of the file system -/

theorem syscall_ok {effect : Disk → Disk} {garble : Option Node → Disk → Disk}
    {p p' : Session F E} {u : Unit} (h : syscall effect garble p = .ok u p') :
    p'.disk = effect p.disk ∧ p'.entries = p.entries := by
  obtain ⟨⟨disk, entries⟩, fates⟩ := p
  cases fates with
  | nil => cases h; exact ⟨rfl, rfl⟩
  | cons fate rest =>
    cases fate with
    | done => cases h; exact ⟨rfl, rfl⟩
    | raises exc part => cases h
    | dies part => cases h

theorem syscall_error {effect : Disk → Disk} {garble : Option Node → Disk → Disk}
    {p p' : Session F E} {halt : Halt F E} (h : syscall effect garble p = .error halt p') :
    ∃ part : Part, p'.disk = part.on effect garble p.disk ∧ p'.entries = p.entries := by
  obtain ⟨⟨disk, entries⟩, fates⟩ := p
  cases fates with
  | nil => cases h
  | cons fate rest =>
    cases fate with
    | done => cases h
    | raises exc part => cases h; exact ⟨part, rfl, rfl⟩
    | dies part => cases h; exact ⟨part, rfl, rfl⟩

theorem quiet_ok {p p' : Session F E} {u : Unit} (h : quiet p = .ok u p') :
    p'.disk = p.disk ∧ p'.entries = p.entries :=
  syscall_ok h

theorem quiet_error {p p' : Session F E} {halt : Halt F E} (h : quiet p = .error halt p') :
    p'.disk = p.disk ∧ p'.entries = p.entries := by
  obtain ⟨part, hd, he⟩ := syscall_error h
  cases part <;> exact ⟨hd, he⟩

/-- Nothing changed but what stands under one name. -/
structure Store.SameBut (s s' : Store F) (name : Str) : Prop where
  disk : ∀ n, n ≠ name → s'.disk.lookup n = s.disk.lookup n
  entries : s'.entries = s.entries

theorem Store.SameBut.of_eq {s s' : Store F} (name : Str) (hd : s'.disk = s.disk)
    (he : s'.entries = s.entries) : s.SameBut s' name :=
  ⟨fun _ _ => by rw [hd], he⟩

theorem Store.SameBut.trans {s s' s'' : Store F} {name : Str} (h : s.SameBut s' name)
    (h' : s'.SameBut s'' name) : s.SameBut s'' name :=
  ⟨fun n hn => (h'.disk n hn).trans (h.disk n hn), h'.entries.trans h.entries⟩

theorem leave_lookup {name n : Str} (hn : n ≠ name) (left : Option Node) (d : Disk) :
    (leave name left d).lookup n = d.lookup n := by
  cases left with
  | none => exact AList.lookup_erase_ne hn
  | some node => exact AList.lookup_insert_ne hn

theorem writeFile_ok {name : Str} {bytes : ByteArray} {p p' : Session F E} {u : Unit}
    (h : writeFile name bytes p = .ok u p') :
    p.SameBut p'.toStore name ∧ p'.disk.lookup name = some (.file bytes) := by
  unfold writeFile at h
  rw [EStateM.bind_ok] at h
  obtain ⟨_, _, hget, h⟩ := h
  obtain ⟨rfl, rfl⟩ := EStateM.get_ok.1 hget
  split_ifs at h
  · cases h
  · obtain ⟨hd, he⟩ := syscall_ok h
    refine ⟨⟨fun n hn => ?_, he⟩, ?_⟩
    · rw [hd]
      exact AList.lookup_insert_ne hn
    · rw [hd]
      exact AList.lookup_insert _

theorem writeFile_error {name : Str} {bytes : ByteArray} {p p' : Session F E} {halt : Halt F E}
    (h : writeFile name bytes p = .error halt p') : p.SameBut p'.toStore name := by
  unfold writeFile at h
  rw [EStateM.bind_error] at h
  rcases h with hget | ⟨_, _, hget, h⟩
  · exact absurd hget EStateM.get_error
  · obtain ⟨rfl, rfl⟩ := EStateM.get_ok.1 hget
    split_ifs at h
    · cases h
      exact .of_eq name rfl rfl
    · obtain ⟨part, hd, he⟩ := syscall_error h
      refine ⟨fun n hn => ?_, he⟩
      rw [hd]
      cases part with
      | nothing => rfl
      | all => exact AList.lookup_insert_ne hn
      | garbled left => exact leave_lookup hn left _

/-- One file was written under a temporary name and moved to its place. -/
structure Store.Replaced (s s' : Store F) (tmp final : Str) (node : Node) : Prop where
  disk : ∀ n, n ≠ tmp → s'.disk.lookup n = if n = final then some node else s.disk.lookup n
  entries : s'.entries = s.entries

theorem Store.SameBut.replaced {s s' s'' : Store F} {tmp final : Str} {node : Node}
    (h : s.SameBut s' tmp) (h' : s'.Replaced s'' tmp final node) : s.Replaced s'' tmp final node := by
  refine ⟨fun n hn => ?_, h'.entries.trans h.entries⟩
  rw [h'.disk n hn, h.disk n hn]

theorem Store.Replaced.same {s s' s'' : Store F} {tmp final : Str} {node : Node}
    (h : s.Replaced s' tmp final node) (hd : s''.disk = s'.disk) (he : s''.entries = s'.entries) :
    s.Replaced s'' tmp final node :=
  ⟨fun n hn => by rw [hd, h.disk n hn], he.trans h.entries⟩

theorem replaced_move {s s' : Store F} {tmp final : Str} {node : Node}
    (hd : s'.disk = (s.disk.erase tmp).insert final node) (he : s'.entries = s.entries) :
    s.Replaced s' tmp final node := by
  refine ⟨fun n hn => ?_, he⟩
  rw [hd]
  split_ifs with hf
  · rw [hf]
    exact AList.lookup_insert _
  · rw [AList.lookup_insert_ne hf, AList.lookup_erase_ne hn]

theorem fsyncFile_eq (name : Str) (p : Session F E) :
    fsyncFile name p = (match p.disk.lookup name with
      | some (.file _) => quiet
      | _ => throw (Halt.raised .osError) : Fs F E Unit) p := rfl

theorem osReplace_eq (tmp final : Str) (p : Session F E) :
    osReplace tmp final p = (match p.disk.lookup tmp, p.disk.lookup final with
      | none, _ | _, some .dir => throw (Halt.raised .osError)
      | some node, _ => syscall (fun d => (d.erase tmp).insert final node) fun _ => id :
        Fs F E Unit) p := rfl

theorem fsyncFile_ok {name : Str} {p p' : Session F E} {u : Unit}
    (h : fsyncFile name p = .ok u p') : p'.disk = p.disk ∧ p'.entries = p.entries := by
  rw [fsyncFile_eq] at h
  generalize p.disk.lookup name = node at h
  rcases node with _ | _ | _ | _
  · cases h
  · exact quiet_ok h
  · cases h
  · cases h

theorem fsyncFile_error {name : Str} {p p' : Session F E} {halt : Halt F E}
    (h : fsyncFile name p = .error halt p') : p'.disk = p.disk ∧ p'.entries = p.entries := by
  rw [fsyncFile_eq] at h
  generalize p.disk.lookup name = node at h
  rcases node with _ | _ | _ | _
  · cases h; exact ⟨rfl, rfl⟩
  · exact quiet_error h
  · cases h; exact ⟨rfl, rfl⟩
  · cases h; exact ⟨rfl, rfl⟩

theorem osReplace_ok {tmp final : Str} {p p' : Session F E} {u : Unit} {node : Node}
    (hnode : p.disk.lookup tmp = some node) (h : osReplace tmp final p = .ok u p') :
    p.Replaced p'.toStore tmp final node := by
  rw [osReplace_eq, hnode] at h
  generalize p.disk.lookup final = target at h
  rcases target with _ | _ | _ | _
  · exact replaced_move (syscall_ok h).1 (syscall_ok h).2
  · exact replaced_move (syscall_ok h).1 (syscall_ok h).2
  · exact replaced_move (syscall_ok h).1 (syscall_ok h).2
  · cases h

theorem osReplace_error {tmp final : Str} {p p' : Session F E} {halt : Halt F E} {node : Node}
    (hnode : p.disk.lookup tmp = some node) (h : osReplace tmp final p = .error halt p') :
    p.SameBut p'.toStore tmp ∨ p.Replaced p'.toStore tmp final node := by
  have hcall : syscall (fun d => (d.erase tmp).insert final node) (fun _ => id) p =
      .error halt p' → p.SameBut p'.toStore tmp ∨ p.Replaced p'.toStore tmp final node := by
    intro h
    obtain ⟨part, hd, he⟩ := syscall_error h
    cases part with
    | nothing => exact Or.inl (.of_eq tmp hd he)
    | all => exact Or.inr (replaced_move hd he)
    | garbled left => exact Or.inl (.of_eq tmp hd he)
  rw [osReplace_eq, hnode] at h
  generalize p.disk.lookup final = target at h
  rcases target with _ | _ | _ | _
  · exact hcall h
  · exact hcall h
  · exact hcall h
  · cases h; exact Or.inl (.of_eq tmp rfl rfl)

/-- `_atomic_replace_file` moves the file to its place. -/
theorem atomicReplaceFile_ok {tmp final : Str} {p p' : Session F E} {u : Unit} {node : Node}
    (hnode : p.disk.lookup tmp = some node) (h : atomicReplaceFile tmp final p = .ok u p') :
    p.Replaced p'.toStore tmp final node := by
  obtain ⟨_, p₁, h₁, h⟩ := EStateM.bind_ok.1 h
  obtain ⟨_, p₂, h₂, h₃⟩ := EStateM.bind_ok.1 h
  obtain ⟨hd₁, he₁⟩ := fsyncFile_ok h₁
  obtain ⟨hd₃, he₃⟩ := quiet_ok h₃
  have hmove := osReplace_ok (by rw [hd₁, hnode]) h₂
  exact (Store.SameBut.of_eq tmp hd₁ he₁).replaced (hmove.same hd₃ he₃)

/-- Where it raises, the file may have been moved or not. -/
theorem atomicReplaceFile_error {tmp final : Str} {p p' : Session F E} {halt : Halt F E}
    {node : Node} (hnode : p.disk.lookup tmp = some node)
    (h : atomicReplaceFile tmp final p = .error halt p') :
    p.SameBut p'.toStore tmp ∨ p.Replaced p'.toStore tmp final node := by
  rcases EStateM.bind_error.1 h with h₁ | ⟨_, p₁, h₁, h⟩
  · obtain ⟨hd₁, he₁⟩ := fsyncFile_error h₁
    exact Or.inl (.of_eq tmp hd₁ he₁)
  · obtain ⟨hd₁, he₁⟩ := fsyncFile_ok h₁
    have hsame := Store.SameBut.of_eq tmp hd₁ he₁
    have hnode₁ : p₁.disk.lookup tmp = some node := by rw [hd₁, hnode]
    rcases EStateM.bind_error.1 h with h₂ | ⟨_, p₂, h₂, h₃⟩
    · exact (osReplace_error hnode₁ h₂).imp hsame.trans hsame.replaced
    · obtain ⟨hd₃, he₃⟩ := quiet_error h₃
      exact Or.inr (hsame.replaced ((osReplace_ok hnode₁ h₂).same hd₃ he₃))

theorem hook_ok {α : Type} {x : Except (Raised E) α} {p p' : Session F E} {a : α} :
    hook x p = .ok a p' ↔ x = .ok a ∧ p = p' := by
  cases x <;> simp [hook]

theorem hook_error {α : Type} {x : Except (Raised E) α} {p p' : Session F E} {halt : Halt F E} :
    hook x p = .error halt p' ↔ ∃ e, x = .error e ∧ halt = .raised (.raised e) ∧ p = p' := by
  cases x with
  | ok a => simp [hook]
  | error e =>
    rw [hook, EStateM.throw_error]
    constructor
    · rintro ⟨rfl, rfl⟩
      exact ⟨e, rfl, rfl, rfl⟩
    · rintro ⟨_, ⟨⟩, rfl, rfl⟩
      exact ⟨rfl, rfl⟩

/-! ## The manifest -/

section
variable {S : Setup F R E} {fingerprint : Str} {draw : Draw F}

/-- The temporary name of the manifest. -/
def Draw.manifestTmp (draw : Draw F) : Str := tmpName manifestPath draw.pid draw.manifestRandom

theorem writeManifest_ok {p p' : Session F E} {u : Unit}
    (h : writeManifest S fingerprint draw p = .ok u p') :
    ∃ bytes, manifestBytes S fingerprint p.entries = .ok bytes ∧
      p.Replaced p'.toStore draw.manifestTmp manifestPath (.file bytes) := by
  obtain ⟨_, _, hget, h⟩ := EStateM.bind_ok.1 h
  obtain ⟨rfl, rfl⟩ := EStateM.get_ok.1 hget
  obtain ⟨bytes, _, hb, h⟩ := EStateM.bind_ok.1 h
  obtain ⟨hbytes, rfl⟩ := hook_ok.1 hb
  obtain ⟨_, p₁, h₁, h₂⟩ := EStateM.bind_ok.1 h
  obtain ⟨hsame, hnode⟩ := writeFile_ok h₁
  exact ⟨bytes, hbytes, hsame.replaced (atomicReplaceFile_ok hnode h₂)⟩

theorem writeManifest_error {p p' : Session F E} {halt : Halt F E}
    (h : writeManifest S fingerprint draw p = .error halt p') :
    p.SameBut p'.toStore draw.manifestTmp ∨
      ∃ bytes, manifestBytes S fingerprint p.entries = .ok bytes ∧
        p.Replaced p'.toStore draw.manifestTmp manifestPath (.file bytes) := by
  rcases EStateM.bind_error.1 h with hget | ⟨_, _, hget, h⟩
  · exact absurd hget EStateM.get_error
  obtain ⟨rfl, rfl⟩ := EStateM.get_ok.1 hget
  rcases EStateM.bind_error.1 h with hb | ⟨bytes, _, hb, h⟩
  · obtain ⟨_, -, -, rfl⟩ := hook_error.1 hb
    exact Or.inl (.of_eq _ rfl rfl)
  obtain ⟨hbytes, rfl⟩ := hook_ok.1 hb
  rcases EStateM.bind_error.1 h with h₁ | ⟨_, p₁, h₁, h₂⟩
  · exact Or.inl (writeFile_error h₁)
  obtain ⟨hsame, hnode⟩ := writeFile_ok h₁
  rcases atomicReplaceFile_error hnode h₂ with h₂ | h₂
  · exact Or.inl (hsame.trans h₂)
  · exact Or.inr ⟨bytes, hbytes, hsame.replaced h₂⟩

/-! ## The payload -/

variable {result : R}

/-- The payload is written. -/
theorem writePayload_ok {tmp : Str} {info : Meta} {p p' : Session F E} {u : Unit}
    (h : writePayload S tmp result info draw p = .ok u p') :
    ∃ bytes, S.codec.fileBytes result info = .ok bytes ∧ p.SameBut p'.toStore tmp ∧
      p'.disk.lookup tmp = some (.file bytes) := by
  unfold writePayload at h
  split_ifs at h
  · exact absurd (EStateM.bind_ok.1 h) (by simp)
  cases hb : S.codec.fileBytes result info with
  | ok bytes =>
    rw [hb] at h
    exact ⟨bytes, rfl, writeFile_ok h⟩
  | error e =>
    rw [hb] at h
    obtain ⟨_, _, -, h⟩ := EStateM.bind_ok.1 h
    exact absurd h EStateM.throw_ok

theorem writePayload_error {tmp : Str} {info : Meta} {p p' : Session F E} {halt : Halt F E}
    (h : writePayload S tmp result info draw p = .error halt p') : p.SameBut p'.toStore tmp := by
  unfold writePayload at h
  split_ifs at h
  · rcases EStateM.bind_error.1 h with h | ⟨_, _, h, -⟩
    · obtain ⟨-, rfl⟩ := EStateM.throw_error.1 h
      exact .of_eq tmp rfl rfl
    · exact absurd h EStateM.throw_ok
  cases hb : S.codec.fileBytes result info with
  | ok bytes =>
    rw [hb] at h
    exact writeFile_error h
  | error e =>
    rw [hb] at h
    rcases EStateM.bind_error.1 h with h | ⟨_, _, hm, h⟩
    · exact absurd h EStateM.modify_error
    · have hp := EStateM.modify_ok.1 hm
      obtain ⟨-, rfl⟩ := EStateM.throw_error.1 h
      rw [← hp]
      exact ⟨fun n hn => leave_lookup hn _ _, rfl⟩

/-- The payload is moved to a name that the file system takes. -/
theorem replacePayload_ok {tmp final : Str} {p p' : Session F E} {u : Unit} {node : Node}
    (hnode : p.disk.lookup tmp = some node) (h : replacePayload S tmp final p = .ok u p') :
    S.refuses final = false ∧ p.Replaced p'.toStore tmp final node := by
  unfold replacePayload at h
  split_ifs at h with href
  · obtain ⟨_, _, -, h⟩ := EStateM.bind_ok.1 h
    exact absurd h EStateM.throw_ok
  · exact ⟨Bool.eq_false_iff.2 href, atomicReplaceFile_ok hnode h⟩

theorem replacePayload_error {tmp final : Str} {p p' : Session F E} {halt : Halt F E} {node : Node}
    (hnode : p.disk.lookup tmp = some node) (h : replacePayload S tmp final p = .error halt p') :
    p.SameBut p'.toStore tmp ∨
      S.refuses final = false ∧ p.Replaced p'.toStore tmp final node := by
  unfold replacePayload at h
  split_ifs at h with href
  · rcases EStateM.bind_error.1 h with h | ⟨_, p₁, h₁, h⟩
    · obtain ⟨hd, he⟩ := fsyncFile_error h
      exact Or.inl (.of_eq tmp hd he)
    · obtain ⟨hd, he⟩ := fsyncFile_ok h₁
      obtain ⟨-, rfl⟩ := EStateM.throw_error.1 h
      exact Or.inl (.of_eq tmp hd he)
  · exact (atomicReplaceFile_error hnode h).imp_right fun h => ⟨Bool.eq_false_iff.2 href, h⟩

/-! ## The commit boundary -/

/-- The end of `commit`: the entry is put in the map and the manifest written. -/
def publishEntry (S : Setup F R E) (fingerprint key : Str) (entry : Entry F) (draw : Draw F) :
    Fs F E Unit := do
  let prior := (← get).entries.lookup key
  modify fun p => { p with entries := p.entries.insert key entry }
  tryCatch (writeManifest S fingerprint draw) fun halt => do
    if halt.isException S.isException then
      modify fun p => { p with entries := restoreEntry p.entries key prior }
    throw halt

variable {key : Str}

theorem publishEntry_ok {entry : Entry F} {p p' : Session F E} {u : Unit}
    (h : publishEntry S fingerprint key entry draw p = .ok u p') :
    ∃ bytes, manifestBytes S fingerprint (p.entries.insert key entry) = .ok bytes ∧
      p'.entries = p.entries.insert key entry ∧
      ∀ n, n ≠ draw.manifestTmp → p'.disk.lookup n =
        if n = manifestPath then some (.file bytes) else p.disk.lookup n := by
  obtain ⟨_, _, hget, h⟩ := EStateM.bind_ok.1 h
  obtain ⟨rfl, rfl⟩ := EStateM.get_ok.1 hget
  obtain ⟨_, p₁, hm, h⟩ := EStateM.bind_ok.1 h
  obtain rfl := EStateM.modify_ok.1 hm
  rcases EStateM.tryCatch_ok.1 h with h | ⟨halt, p₂, -, h⟩
  · obtain ⟨bytes, hbytes, hrep⟩ := writeManifest_ok h
    exact ⟨bytes, hbytes, hrep.entries, hrep.disk⟩
  · split_ifs at h
    · obtain ⟨_, _, -, h⟩ := EStateM.bind_ok.1 h
      exact absurd h EStateM.throw_ok
    · exact absurd h EStateM.throw_ok

theorem lookup_restoreEntry (entries : Entries F) (key : Str) (entry : Entry F) (k : Str) :
    (restoreEntry (entries.insert key entry) key (entries.lookup key)).lookup k =
      entries.lookup k := by
  by_cases hk : k = key
  · subst hk
    cases hp : entries.lookup k with
    | some prior => exact AList.lookup_insert _
    | none => exact AList.lookup_erase _ _
  · cases hp : entries.lookup key with
    | some prior =>
      rw [restoreEntry, AList.lookup_insert_ne hk, AList.lookup_insert_ne hk]
    | none => rw [restoreEntry, AList.lookup_erase_ne hk, AList.lookup_insert_ne hk]

/-- What is left of a commit in memory: its entry, or what was there before. -/
inductive Recalled (S : Setup F R E) (s s' : Store F) (key : Str) (entry : Entry F) :
    Ended (Exc F E) → Prop where
  | returned : s'.entries = s.entries.insert key entry → Recalled S s s' key entry .returned
  | restored {ended : Ended (Exc F E)} : ended ≠ .returned →
      (∀ k, s'.entries.lookup k = s.entries.lookup k) → Recalled S s s' key entry ended
  /-- the commit dies, or what it raises is not an `Exception` -/
  | kept {ended : Ended (Exc F E)} : ended ≠ .returned →
      (∀ exc, ended = .raised exc → exc.isException S.isException = false) →
      s'.entries = s.entries.insert key entry → Recalled S s s' key entry ended

theorem Recalled.of_entries {S : Setup F R E} {s₁ s₂ s' : Store F} {key : Str} {entry : Entry F}
    {ended : Ended (Exc F E)} (h : Recalled S s₁ s' key entry ended)
    (he : s₁.entries = s₂.entries) : Recalled S s₂ s' key entry ended := by
  cases h with
  | returned h => exact .returned (he ▸ h)
  | restored hne h => exact .restored hne (he ▸ h)
  | kept hne hexc h => exact .kept hne hexc (he ▸ h)

theorem publishEntry_error {entry : Entry F} {p p' : Session F E} {halt : Halt F E}
    (h : publishEntry S fingerprint key entry draw p = .error halt p') :
    Recalled S p.toStore p'.toStore key entry halt.ended ∧
      ((∀ n, n ≠ draw.manifestTmp → p'.disk.lookup n = p.disk.lookup n) ∨
        ∃ bytes, manifestBytes S fingerprint (p.entries.insert key entry) = .ok bytes ∧
          ∀ n, n ≠ draw.manifestTmp → p'.disk.lookup n =
            if n = manifestPath then some (.file bytes) else p.disk.lookup n) := by
  rcases EStateM.bind_error.1 h with hget | ⟨_, _, hget, h⟩
  · exact absurd hget EStateM.get_error
  obtain ⟨rfl, rfl⟩ := EStateM.get_ok.1 hget
  rcases EStateM.bind_error.1 h with hm | ⟨_, p₁, hm, h⟩
  · exact absurd hm EStateM.modify_error
  obtain rfl := EStateM.modify_ok.1 hm
  obtain ⟨halt', p₂, hw, h⟩ := EStateM.tryCatch_error.1 h
  have hdisk := writeManifest_error hw
  have hentries : p₂.entries = p.entries.insert key entry := by
    rcases hdisk with hd | ⟨_, _, hd⟩
    · exact hd.entries
    · exact hd.entries
  have hend : halt' = halt ∧ p'.disk = p₂.disk ∧
      Recalled S p.toStore p'.toStore key entry halt'.ended := by
    split_ifs at h with hexc
    · rcases EStateM.bind_error.1 h with hm | ⟨_, p₃, hm, h⟩
      · exact absurd hm EStateM.modify_error
      obtain rfl := EStateM.modify_ok.1 hm
      obtain ⟨rfl, rfl⟩ := EStateM.throw_error.1 h
      refine ⟨rfl, rfl, .restored halt'.ended_ne fun k => ?_⟩
      show (restoreEntry p₂.entries key (p.entries.lookup key)).lookup k = _
      rw [hentries, lookup_restoreEntry]
    · obtain ⟨rfl, rfl⟩ := EStateM.throw_error.1 h
      refine ⟨rfl, rfl, .kept halt'.ended_ne (fun exc he => ?_) hentries⟩
      cases halt' with
      | raised exc' =>
        cases he
        exact Bool.eq_false_iff.2 hexc
      | died => cases he
  obtain ⟨rfl, hd, hrec⟩ := hend
  refine ⟨hrec, ?_⟩
  rw [hd]
  rcases hdisk with hsame | ⟨bytes, hbytes, hrep⟩
  · exact Or.inl hsame.disk
  · exact Or.inr ⟨bytes, hbytes, hrep.disk⟩

/-- The temporary name of a payload. -/
def Setup.payloadTmp (S : Setup F R E) (key : Str) (draw : Draw F) : Str :=
  tmpName (S.path key) draw.pid draw.payloadRandom

/-- The payload is written and moved, and the entry published. -/
def publish (S : Setup F R E) (fingerprint key : Str) (result : R) (info : Meta) (entry : Entry F)
    (draw : Draw F) : Fs F E Unit := do
  writePayload S (S.payloadTmp key draw) result info draw
  replacePayload S (S.payloadTmp key draw) (S.path key)
  publishEntry S fingerprint key entry draw

theorem publish_ok {p p' : Session F E} {u : Unit} {info : Meta} {entry : Entry F}
    (h : publish S fingerprint key result info entry draw p = .ok u p') :
    ∃ bytes manifest, S.codec.fileBytes result info = .ok bytes ∧
      S.refuses (S.path key) = false ∧
      manifestBytes S fingerprint (p.entries.insert key entry) = .ok manifest ∧
      p'.entries = p.entries.insert key entry ∧
      ∀ n, n ≠ S.payloadTmp key draw → n ≠ draw.manifestTmp → p'.disk.lookup n =
        if n = manifestPath then some (.file manifest)
        else if n = S.path key then some (.file bytes) else p.disk.lookup n := by
  obtain ⟨_, p₁, h₁, h⟩ := EStateM.bind_ok.1 h
  obtain ⟨_, p₂, h₂, h₃⟩ := EStateM.bind_ok.1 h
  obtain ⟨bytes, hbytes, hsame, hnode⟩ := writePayload_ok h₁
  obtain ⟨htaken, h₂⟩ := replacePayload_ok hnode h₂
  have hrep := hsame.replaced h₂
  obtain ⟨manifest, hmanifest, hentries, hdisk⟩ := publishEntry_ok h₃
  rw [hrep.entries] at hmanifest hentries
  refine ⟨bytes, manifest, hbytes, htaken, hmanifest, hentries, fun n hn hm => ?_⟩
  rw [hdisk n hm, hrep.disk n hn]

/-- A publication that halts. -/
theorem publish_error {p p' : Session F E} {halt : Halt F E} {info : Meta} {entry : Entry F}
    (h : publish S fingerprint key result info entry draw p = .error halt p') :
    p.SameBut p'.toStore (S.payloadTmp key draw) ∨
    ∃ bytes, S.codec.fileBytes result info = .ok bytes ∧ S.refuses (S.path key) = false ∧
      Recalled S p.toStore p'.toStore key entry halt.ended ∧
      ((∀ n, n ≠ S.payloadTmp key draw → n ≠ draw.manifestTmp → p'.disk.lookup n =
        if n = S.path key then some (.file bytes) else p.disk.lookup n) ∨
      ∃ manifest, manifestBytes S fingerprint (p.entries.insert key entry) = .ok manifest ∧
        ∀ n, n ≠ S.payloadTmp key draw → n ≠ draw.manifestTmp → p'.disk.lookup n =
          if n = manifestPath then some (.file manifest)
          else if n = S.path key then some (.file bytes) else p.disk.lookup n) := by
  rcases EStateM.bind_error.1 h with h₁ | ⟨_, p₁, h₁, h⟩
  · exact Or.inl (writePayload_error h₁)
  obtain ⟨bytes, hbytes, hsame, hnode⟩ := writePayload_ok h₁
  rcases EStateM.bind_error.1 h with h₂ | ⟨_, p₂, h₂, h₃⟩
  · rcases replacePayload_error hnode h₂ with h₂ | ⟨htaken, h₂⟩
    · exact Or.inl (hsame.trans h₂)
    · have hrep := hsame.replaced h₂
      refine Or.inr ⟨bytes, hbytes, htaken, .restored halt.ended_ne fun k => ?_,
        Or.inl fun n hn _ => ?_⟩
      · rw [hrep.entries]
      · exact hrep.disk n hn
  · obtain ⟨htaken, h₂⟩ := replacePayload_ok hnode h₂
    have hrep := hsame.replaced h₂
    obtain ⟨hrec, hdisk⟩ := publishEntry_error h₃
    refine Or.inr ⟨bytes, hbytes, htaken, hrec.of_entries hrep.entries, ?_⟩
    rcases hdisk with hd | ⟨manifest, hmanifest, hd⟩
    · refine Or.inl fun n hn hm => ?_
      rw [hd n hm, hrep.disk n hn]
    · rw [hrep.entries] at hmanifest
      refine Or.inr ⟨manifest, hmanifest, fun n hn hm => ?_⟩
      rw [hd n hm, hrep.disk n hn]

/-! ## A commit -/

/-- What `commit` computes from its arguments, before it writes anything. -/
structure Prepared (S : Setup F R E) (key : Str) (result : R) (digest : Str) (byteLen count : ℕ)
    (extra : Meta) : Prop where
  validated : S.codec.validateCommit result = .ok ()
  digested : digestInfo S result = .ok (digest, byteLen, count)
  extras : S.codec.commitExtraMeta result = .ok extra
  safe : isSafeKey key

/-- What a commit publishes: the payload file and the entry. -/
structure Publication (S : Setup F R E) (fingerprint key payloadHash : Str) (result : R)
    (draw : Draw F) where
  digest : Str
  byteLen : ℕ
  count : ℕ
  extra : Meta
  bytes : ByteArray
  prepared : Prepared S key result digest byteLen count extra
  file : S.codec.fileBytes result (extra ∪ identityMeta fingerprint key payloadHash digest
    (lengthText byteLen) (lengthText count) draw.generation) = .ok bytes
  /-- the file system takes the name of the file -/
  taken : S.refuses (S.path key) = false

variable [DecidableEq F] {payloadHash : Str}

namespace Publication

/-- The metadata in the payload file. -/
def info (pub : Publication S fingerprint key payloadHash result draw) : Meta :=
  pub.extra ∪ identityMeta fingerprint key payloadHash pub.digest (lengthText pub.byteLen)
    (lengthText pub.count) draw.generation

/-- The entry of the manifest. -/
def entry (pub : Publication S fingerprint key payloadHash result draw) : Entry F :=
  (identityEntry payloadHash pub.digest pub.byteLen pub.count draw.generation draw.time).update
    pub.extra

end Publication

/-- What a commit may do. -/
inductive Committed (S : Setup F R E) (fingerprint key payloadHash : Str) (result : R)
    (draw : Draw F) (s s' : Store F) (ended : Ended (Exc F E)) : Prop where
  /-- neither file was replaced -/
  | untouched : ended ≠ .returned → s'.entries = s.entries →
      (∀ n, n ≠ S.payloadTmp key draw → s'.disk.lookup n = s.disk.lookup n) → Committed S ..
  /-- only the payload was replaced -/
  | torn (pub : Publication S fingerprint key payloadHash result draw) : ended ≠ .returned →
      Recalled S s s' key pub.entry ended →
      (∀ n, n ≠ S.payloadTmp key draw → n ≠ draw.manifestTmp → s'.disk.lookup n =
        if n = S.path key then some (.file pub.bytes) else s.disk.lookup n) → Committed S ..
  /-- both files were replaced -/
  | published (pub : Publication S fingerprint key payloadHash result draw) (bytes : ByteArray) :
      manifestBytes S fingerprint (s.entries.insert key pub.entry) = .ok bytes →
      Recalled S s s' key pub.entry ended →
      (∀ n, n ≠ S.payloadTmp key draw → n ≠ draw.manifestTmp → s'.disk.lookup n =
        if n = manifestPath then some (.file bytes)
        else if n = S.path key then some (.file pub.bytes) else s.disk.lookup n) → Committed S ..

theorem commit_eq : commit S fingerprint key payloadHash result draw = (do
    hook (S.codec.validateCommit result)
    let d ← hook (digestInfo S result)
    let extra ← hook (S.codec.commitExtraMeta result)
    if isSafeKey key then
      publish S fingerprint key result (extra ∪ identityMeta fingerprint key payloadHash d.1
        (lengthText d.2.1) (lengthText d.2.2) draw.generation)
        ((identityEntry payloadHash d.1 d.2.1 d.2.2 draw.generation draw.time).update extra) draw
    else throw (.raised (.unsafeKey key))) := by
  unfold commit
  by_cases hsafe : isSafeKey key
  · simp only [pathFor, hsafe, if_true]
    rfl
  · simp only [pathFor, hsafe]
    rfl

/-- **What a commit does.** -/
theorem commit_cases {s s' : Store F} {ended : Ended (Exc F E)} {fates : List (Fate F E)}
    (h : (commit S fingerprint key payloadHash result draw).run s fates = (ended, s')) :
    Committed S fingerprint key payloadHash result draw s s' ended := by
  have huntouched : ∀ {p' : Session F E} {halt : Halt F E}, p'.toStore = s →
      Committed S fingerprint key payloadHash result draw s p'.toStore halt.ended := by
    rintro p' halt rfl
    exact .untouched halt.ended_ne rfl fun _ _ => rfl
  rcases Fs.run_cases h with ⟨p, hrun, rfl, rfl⟩ | ⟨halt, p, hrun, rfl, rfl⟩
  · rw [commit_eq] at hrun
    obtain ⟨_, _, hh, hrun⟩ := EStateM.bind_ok.1 hrun
    obtain ⟨hvalid, rfl⟩ := hook_ok.1 hh
    obtain ⟨⟨digest, byteLen, count⟩, _, hh, hrun⟩ := EStateM.bind_ok.1 hrun
    obtain ⟨hdigest, rfl⟩ := hook_ok.1 hh
    obtain ⟨extra, _, hh, hrun⟩ := EStateM.bind_ok.1 hrun
    obtain ⟨hextra, rfl⟩ := hook_ok.1 hh
    split_ifs at hrun with hsafe
    · obtain ⟨bytes, manifest, hbytes, htaken, hmanifest, hentries, hdisk⟩ := publish_ok hrun
      let pub : Publication S fingerprint key payloadHash result draw :=
        ⟨digest, byteLen, count, extra, bytes, ⟨hvalid, hdigest, hextra, hsafe⟩, hbytes, htaken⟩
      exact .published pub manifest hmanifest (.returned hentries) hdisk
    · exact absurd hrun EStateM.throw_ok
  · rw [commit_eq] at hrun
    rcases EStateM.bind_error.1 hrun with hh | ⟨_, _, hh, hrun⟩
    · obtain ⟨_, -, -, rfl⟩ := hook_error.1 hh
      exact huntouched rfl
    obtain ⟨hvalid, rfl⟩ := hook_ok.1 hh
    rcases EStateM.bind_error.1 hrun with hh | ⟨⟨digest, byteLen, count⟩, _, hh, hrun⟩
    · obtain ⟨_, -, -, rfl⟩ := hook_error.1 hh
      exact huntouched rfl
    obtain ⟨hdigest, rfl⟩ := hook_ok.1 hh
    rcases EStateM.bind_error.1 hrun with hh | ⟨extra, _, hh, hrun⟩
    · obtain ⟨_, -, -, rfl⟩ := hook_error.1 hh
      exact huntouched rfl
    obtain ⟨hextra, rfl⟩ := hook_ok.1 hh
    split_ifs at hrun with hsafe
    · rcases publish_error hrun with hsame | ⟨bytes, hbytes, htaken, hrec, hdisk⟩
      · exact .untouched halt.ended_ne hsame.entries hsame.disk
      · let pub : Publication S fingerprint key payloadHash result draw :=
          ⟨digest, byteLen, count, extra, bytes, ⟨hvalid, hdigest, hextra, hsafe⟩, hbytes, htaken⟩
        rcases hdisk with hdisk | ⟨manifest, hmanifest, hdisk⟩
        · exact .torn pub halt.ended_ne hrec hdisk
        · exact .published pub manifest hmanifest hrec hdisk
    · obtain ⟨-, rfl⟩ := EStateM.throw_error.1 hrun
      exact huntouched rfl

end

end ResumableBatch
