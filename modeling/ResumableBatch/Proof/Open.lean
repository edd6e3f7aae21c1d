/-
  Opening a directory: the entries of its manifest are loaded, or everything is
  wiped and an empty manifest written (`open_cases`).
-/
import ResumableBatch.Proof.Manifest

namespace ResumableBatch

open Text Json

variable {F R E : Type}

/-! ## Deleting files -/

/-- Files under some names may be gone; nothing else has changed. -/
structure Store.Pruned (names : Str → Prop) (s s' : Store F) : Prop where
  entries : s'.entries = s.entries
  disk : ∀ n, s'.disk.lookup n = s.disk.lookup n ∨ names n ∧ s'.disk.lookup n = none

namespace Store.Pruned

variable {names : Str → Prop} {s s' s'' : Store F}

theorem refl (s : Store F) : s.Pruned names s := ⟨rfl, fun _ => Or.inl rfl⟩

theorem trans (h : s.Pruned names s') (h' : s'.Pruned names s'') : s.Pruned names s'' := by
  refine ⟨h'.entries.trans h.entries, fun n => ?_⟩
  rcases h'.disk n with hn | hn
  · rw [hn]
    exact h.disk n
  · exact Or.inr hn

theorem of_same (hd : s'.disk = s.disk) (he : s'.entries = s.entries) : s.Pruned names s' :=
  ⟨he, fun _ => Or.inl (by rw [hd])⟩

end Store.Pruned

/-- Code that deletes nothing but files under some names. -/
abbrev Prunes (names : Str → Prop) (code : Fs F E Unit) : Prop :=
  EStateM.Moves (fun p p' : Session F E => p.toStore.Pruned names p'.toStore) code

theorem prunes_erase {names : Str → Prop} {name : Str} (hn : names name) :
    Prunes names (syscall (·.erase name) fun _ => id : Fs F E Unit) := by
  have herase : ∀ {p p' : Session F E}, p'.disk = p.disk.erase name → p'.entries = p.entries →
      p.toStore.Pruned names p'.toStore := by
    intro p p' hd he
    refine ⟨he, fun n => ?_⟩
    rw [hd]
    by_cases h : n = name
    · subst h
      exact Or.inr ⟨hn, AList.lookup_erase _ _⟩
    · exact Or.inl (AList.lookup_erase_ne h)
  rintro p p' (⟨u, h⟩ | ⟨halt, h⟩)
  · obtain ⟨hd, he⟩ := syscall_ok h
    exact herase hd he
  · obtain ⟨part, hd, he⟩ := syscall_error h
    cases part with
    | nothing => exact .of_same hd he
    | all => exact herase hd he
    | garbled left => exact .of_same hd he

theorem unlink_eq (name : Str) (p : Session F E) :
    unlink name p = (match p.disk.lookup name with
      | none | some .dir => throw (Halt.raised .osError)
      | _ => syscall (·.erase name) fun _ => id : Fs F E Unit) p := rfl

theorem prunes_unlink {names : Str → Prop} {name : Str} (hn : names name) :
    Prunes names (unlink name : Fs F E Unit) := by
  have hthrow : Prunes names (throw (Halt.raised .osError) : Fs F E Unit) :=
    EStateM.Moves.throw (fun p => Store.Pruned.refl p.toStore) _
  intro p p' h
  rw [unlink_eq] at h
  generalize p.disk.lookup name = node at h
  rcases node with _ | _ | _ | _
  · exact hthrow p p' h
  · exact prunes_erase hn p p' h
  · exact prunes_erase hn p p' h
  · exact hthrow p p' h

theorem prunes_unlinkQuietly {names : Str → Prop} {name : Str} (hn : names name) :
    Prunes names (unlinkQuietly name : Fs F E Unit) := by
  refine EStateM.Moves.tryCatch (fun h h' => h.trans h') (prunes_unlink hn) fun halt => ?_
  split
  · exact EStateM.Moves.pure (fun p => Store.Pruned.refl p.toStore) _
  · exact EStateM.Moves.throw (fun p => Store.Pruned.refl p.toStore) _

theorem prunes_forM {names : Str → Prop} {α : Type} {code : α → Fs F E Unit} {l : List α}
    (h : ∀ a ∈ l, Prunes names (code a)) : Prunes names (l.forM code) :=
  EStateM.Moves.forM (fun p => Store.Pruned.refl p.toStore) (fun h h' => h.trans h') h

theorem wipeTree_eq (p : Session F E) :
    wipeTree p = (p.disk.entries.forM fun child =>
      if child.2.isFile then unlinkQuietly child.1 else pure ()) p := rfl

theorem prunes_wipeTree : Prunes (fun _ => True) (wipeTree : Fs F E Unit) := by
  intro p p' h
  rw [wipeTree_eq] at h
  refine prunes_forM (fun child _ => ?_) p p' h
  split_ifs
  · exact prunes_unlinkQuietly trivial
  · exact EStateM.Moves.pure (fun p => Store.Pruned.refl p.toStore) _

theorem Store.Pruned.not_tmp {s s' : Store F} (h : s.Pruned (isTmp · = true) s') {n : Str}
    (hn : isTmp n = false) : s'.disk.lookup n = s.disk.lookup n := by
  rcases h.disk n with hd | ⟨ht, -⟩
  · exact hd
  · rw [hn] at ht
    cases ht

/-- The sweep deletes nothing but what it takes for temporary files. -/
theorem prunes_sweep : Prunes (isTmp · = true) (sweepOrphanTmps : Fs F E Unit) := by
  intro p p' h
  exact prunes_forM (fun n hn =>
    prunes_unlinkQuietly (List.mem_filter.1 hn).2) p p' h

/-! ## Calls that are all done -/

theorem unlinkQuietly_done (name : Str) {p : Session F E} (h : p.fates = []) :
    ∃ p', unlinkQuietly name p = .ok () p' ∧ p'.fates = [] ∧
      (p'.disk.lookup name = none ∨ p'.disk.lookup name = some .dir) := by
  have hthrow : (p.disk.lookup name = none ∨ p.disk.lookup name = some .dir) →
      unlink name p = .error (.raised .osError) p → ∃ p', unlinkQuietly name p = .ok () p' ∧
        p'.fates = [] ∧ (p'.disk.lookup name = none ∨ p'.disk.lookup name = some .dir) :=
    fun hn hu => ⟨p, EStateM.tryCatch_ok.2 (Or.inr ⟨_, p, hu, rfl⟩), h, hn⟩
  have herase : unlink name p = (syscall (·.erase name) fun _ => id : Fs F E Unit) p →
      ∃ p', unlinkQuietly name p = .ok () p' ∧ p'.fates = [] ∧
        (p'.disk.lookup name = none ∨ p'.disk.lookup name = some .dir) := by
    intro hu
    obtain ⟨⟨disk, entries⟩, fates⟩ := p
    cases h
    refine ⟨⟨⟨disk.erase name, entries⟩, []⟩, EStateM.tryCatch_ok.2 (Or.inl ?_), rfl,
      Or.inl (AList.lookup_erase _ _)⟩
    rw [hu]
    rfl
  have heq := unlink_eq name p
  rcases hn : p.disk.lookup name with _ | _ | _ | _ <;> rw [hn] at heq
  · exact hthrow (Or.inl hn) heq
  · exact herase heq
  · exact herase heq
  · exact hthrow (Or.inr hn) heq

theorem unlinkAll_done (l : List Str) {p : Session F E} (h : p.fates = []) :
    ∃ p', (l.forM unlinkQuietly : Fs F E Unit) p = .ok () p' ∧ p'.fates = [] ∧
      ∀ n ∈ l, p'.disk.lookup n = none ∨ p'.disk.lookup n = some .dir := by
  induction l generalizing p with
  | nil => exact ⟨p, rfl, h, nofun⟩
  | cons name l ih =>
    obtain ⟨p₁, h₁, hf₁, hn₁⟩ := unlinkQuietly_done name h
    obtain ⟨p₂, h₂, hf₂, hn₂⟩ := ih hf₁
    refine ⟨p₂, EStateM.bind_ok.2 ⟨_, p₁, h₁, h₂⟩, hf₂, List.forall_mem_cons.2 ⟨?_, hn₂⟩⟩
    have hp : p₁.toStore.Pruned (· ∈ l) p₂.toStore :=
      prunes_forM (fun n hn => prunes_unlinkQuietly hn) p₁ p₂ (Or.inl ⟨_, h₂⟩)
    rcases hp.disk name with hd | ⟨-, hd⟩
    · rw [hd]
      exact hn₁
    · exact Or.inl hd

/-- Where nothing fails, the sweep deletes every file that it takes for a temporary
    one. -/
theorem sweep_done {p : Session F E} (h : p.fates = []) :
    ∃ p', sweepOrphanTmps p = .ok () p' ∧
      ∀ n, isTmp n = true → p'.disk.lookup n = none ∨ p'.disk.lookup n = some .dir := by
  obtain ⟨p', hrun, -, hall⟩ := unlinkAll_done (p.disk.keys.filter isTmp) h
  refine ⟨p', hrun, fun n hn => ?_⟩
  by_cases hmem : n ∈ p.disk.keys
  · exact hall n (List.mem_filter.2 ⟨hmem, hn⟩)
  · left
    rcases (prunes_sweep p p' (Or.inl ⟨_, hrun⟩)).disk n with hd | ⟨-, hd⟩
    · rw [hd]
      exact AList.lookup_eq_none.2 hmem
    · exact hd

/-! ## Loading the manifest -/

section
variable {S : Setup F R E} {fingerprint : Str} {draw : Draw F}

theorem ne_manifestTmp {n : Str} (h : isTmp n = false) : n ≠ draw.manifestTmp := by
  rintro rfl
  rw [Draw.manifestTmp, isTmp_tmpName] at h
  cases h

theorem ne_payloadTmp {n key : Str} (h : isTmp n = false) : n ≠ S.payloadTmp key draw := by
  rintro rfl
  rw [Setup.payloadTmp, isTmp_tmpName] at h
  cases h

theorem Codec.Apart.path_payloadTmp (hA : S.codec.Apart) {k key : Str} :
    S.path k ≠ S.payloadTmp key draw :=
  hA.tmp k _ _ _

theorem Codec.Apart.path_manifestTmp (hA : S.codec.Apart) {k : Str} :
    S.path k ≠ draw.manifestTmp :=
  hA.tmp k _ _ _

theorem Codec.Apart.path_manifest (hA : S.codec.Apart) {k : Str} : S.path k ≠ manifestPath :=
  hA.manifest k

/-- What a wipe may do, however it ends: payloads are there or gone, the manifest
    too, or it is an empty one. -/
structure Wiped (S : Setup F R E) (fingerprint : Str) (d d' : Disk) : Prop where
  disk : ∀ n, isTmp n = false → n ≠ manifestPath → d'.lookup n = d.lookup n ∨ d'.lookup n = none
  manifest : d'.lookup manifestPath = d.lookup manifestPath ∨ d'.lookup manifestPath = none ∨
    ∃ b, manifestBytes S fingerprint ∅ = .ok b ∧ d'.lookup manifestPath = some (.file b)

theorem Wiped.refl (d : Disk) : Wiped S fingerprint d d :=
  ⟨fun _ _ _ => Or.inl rfl, Or.inl rfl⟩

/-- A wipe before which more was deleted. -/
theorem Wiped.pruned {names : Str → Prop} {s s' : Store F} {d : Disk} (h : s.Pruned names s')
    (hw : Wiped S fingerprint s'.disk d) : Wiped S fingerprint s.disk d := by
  refine ⟨fun n hn hne => ?_, ?_⟩
  · rcases hw.disk n hn hne with hd | hd
    · rw [hd]
      exact (h.disk n).imp_right And.right
    · exact Or.inr hd
  · rcases hw.manifest with hd | hd
    · rw [hd]
      exact (h.disk _).imp_right fun h => Or.inl h.2
    · exact Or.inr hd

theorem Wiped.written {s s' : Store F} {b : ByteArray}
    (hb : manifestBytes S fingerprint ∅ = .ok b)
    (hrep : s.Replaced s' draw.manifestTmp manifestPath (.file b)) :
    Wiped S fingerprint s.disk s'.disk ∧ s'.disk.lookup manifestPath = some (.file b) := by
  have hm : s'.disk.lookup manifestPath = some (.file b) := by
    rw [hrep.disk _ (ne_manifestTmp isTmp_manifest), if_pos rfl]
  refine ⟨⟨fun n hn hne => Or.inl ?_, Or.inr (Or.inr ⟨b, hb, hm⟩)⟩, hm⟩
  rw [hrep.disk n (ne_manifestTmp hn), if_neg hne]

theorem Wiped.same_but {s s' : Store F} (hsame : s.SameBut s' draw.manifestTmp) :
    Wiped S fingerprint s.disk s'.disk :=
  ⟨fun n hn _ => Or.inl (hsame.disk n (ne_manifestTmp hn)),
    Or.inl (hsame.disk _ (ne_manifestTmp isTmp_manifest))⟩

/-- The sweep leaves a wiped directory wiped. -/
theorem Wiped.swept {s s' : Store F} {d : Disk} (hw : Wiped S fingerprint d s.disk)
    (h : s.Pruned (isTmp · = true) s') : Wiped S fingerprint d s'.disk := by
  refine ⟨fun n hn hne => ?_, ?_⟩
  · rw [h.not_tmp hn]
    exact hw.disk n hn hne
  · rw [h.not_tmp isTmp_manifest]
    exact hw.manifest

/-- `_load_or_invalidate_manifest`, where no entries can be loaded. -/
def invalidate (S : Setup F R E) (fingerprint : Str) (draw : Draw F) : Fs F E Unit := do
  wipeTree
  modify fun p => { p with entries := ∅ }
  writeManifest S fingerprint draw

theorem invalidate_ok {p p' : Session F E} {u : Unit}
    (h : invalidate S fingerprint draw p = .ok u p') : p'.entries = ∅ ∧
      Wiped S fingerprint p.disk p'.disk ∧ ∃ b, manifestBytes S fingerprint ∅ = .ok b ∧
        p'.disk.lookup manifestPath = some (.file b) := by
  obtain ⟨_, p₁, h₁, h⟩ := EStateM.bind_ok.1 h
  obtain ⟨_, p₂, h₂, h₃⟩ := EStateM.bind_ok.1 h
  have hp := prunes_wipeTree p p₁ (Or.inl ⟨_, h₁⟩)
  obtain rfl := EStateM.modify_ok.1 h₂
  obtain ⟨b, hb, hrep⟩ := writeManifest_ok h₃
  obtain ⟨hw, hm⟩ := Wiped.written hb hrep
  exact ⟨hrep.entries, hw.pruned hp, b, hb, hm⟩

theorem invalidate_error {p p' : Session F E} {halt : Halt F E}
    (h : invalidate S fingerprint draw p = .error halt p') :
    Wiped S fingerprint p.disk p'.disk := by
  rcases EStateM.bind_error.1 h with h₁ | ⟨_, p₁, h₁, h⟩
  · exact (Wiped.refl _).pruned (prunes_wipeTree p p' (Or.inr ⟨_, h₁⟩))
  have hp := prunes_wipeTree p p₁ (Or.inl ⟨_, h₁⟩)
  rcases EStateM.bind_error.1 h with h₂ | ⟨_, p₂, h₂, h₃⟩
  · exact absurd h₂ EStateM.modify_error
  obtain rfl := EStateM.modify_ok.1 h₂
  rcases writeManifest_error h₃ with hsame | ⟨b, hb, hrep⟩
  · exact (Wiped.same_but hsame).pruned hp
  · exact (Wiped.written hb hrep).1.pruned hp

variable [DecidableEq F]

theorem loadOrInvalidate_eq (p : Session F E) : loadOrInvalidateManifest S fingerprint draw p =
    (match readManifest S (p.disk.lookup manifestPath) with
      | .error e => throw (.raised (.raised e))
      | .ok raw =>
        match raw.bind (admitted S fingerprint) with
        | some entries => modify fun p => { p with entries := entries }
        | none => invalidate S fingerprint draw : Fs F E Unit) p := by
  show (hook (readManifest S (p.disk.lookup manifestPath)) >>= _ : Fs F E Unit) p = _
  cases readManifest S (p.disk.lookup manifestPath) <;> rfl

/-- The entries of the manifest are loaded. -/
theorem loadOrInvalidate_some {p : Session F E} {D : Entries F}
    (h : readEntries S fingerprint (p.disk.lookup manifestPath) = some D) :
    loadOrInvalidateManifest S fingerprint draw p = .ok () { p with entries := D } := by
  rw [loadOrInvalidate_eq]
  unfold readEntries at h
  split at h
  · rename_i raw hraw
    rw [hraw]
    simp only [h]
    rfl
  · cases h

theorem loadOrInvalidate_none (draw : Draw F) {p : Session F E}
    (h : readEntries S fingerprint (p.disk.lookup manifestPath) = none) :
    (∃ e, loadOrInvalidateManifest S fingerprint draw p = .error (.raised (.raised e)) p) ∨
      loadOrInvalidateManifest S fingerprint draw p = invalidate S fingerprint draw p := by
  rw [loadOrInvalidate_eq]
  unfold readEntries at h
  split at h
  · rename_i raw hraw
    rw [hraw]
    simp only [h]
    exact Or.inr trivial
  · rename_i e he
    rw [he]
    exact Or.inl ⟨e, rfl⟩

/-- What an open may do. -/
inductive Opened (S : Setup F R E) (fingerprint : Str) (s s' : Store F)
    (ended : Ended (Exc F E)) : Prop where
  /-- the manifest is admitted; only temporary files are swept -/
  | loaded (D : Entries F) : readEntries S fingerprint (s.disk.lookup manifestPath) = some D →
      (ended = .returned → s'.entries = D) →
      (∀ n, isTmp n = false → s'.disk.lookup n = s.disk.lookup n) → Opened S ..
  | wiped : readEntries S fingerprint (s.disk.lookup manifestPath) = none →
      Wiped S fingerprint s.disk s'.disk →
      (ended = .returned → s'.entries = ∅ ∧ ∃ b, manifestBytes S fingerprint ∅ = .ok b ∧
        s'.disk.lookup manifestPath = some (.file b)) → Opened S ..

/-- The end of an open. -/
def loadAndSweep (S : Setup F R E) (fingerprint : Str) (draw : Draw F) : Fs F E Unit := do
  loadOrInvalidateManifest S fingerprint draw
  sweepOrphanTmps

theorem loadAndSweep_ok {p p' : Session F E} {u : Unit}
    (h : loadAndSweep S fingerprint draw p = .ok u p') :
    Opened S fingerprint p.toStore p'.toStore (.returned : Ended (Exc F E)) := by
  obtain ⟨_, p₁, h₁, h₂⟩ := EStateM.bind_ok.1 h
  have hp := prunes_sweep p₁ p' (Or.inl ⟨_, h₂⟩)
  cases hr : readEntries S fingerprint (p.disk.lookup manifestPath) with
  | some D =>
    rw [loadOrInvalidate_some hr] at h₁
    cases h₁
    exact .loaded D hr (fun _ => hp.entries) fun n hn => hp.not_tmp hn
  | none =>
    rcases loadOrInvalidate_none draw hr with ⟨e, he⟩ | hi
    · rw [he] at h₁
      cases h₁
    · rw [hi] at h₁
      obtain ⟨hentries, hw, b, hb, hm⟩ := invalidate_ok h₁
      refine .wiped hr (hw.swept hp) fun _ => ⟨hp.entries.trans hentries, b, hb, ?_⟩
      rw [hp.not_tmp isTmp_manifest, hm]

theorem loadAndSweep_error {p p' : Session F E} {halt : Halt F E}
    (h : loadAndSweep S fingerprint draw p = .error halt p') :
    Opened S fingerprint p.toStore p'.toStore halt.ended := by
  have hne : ∀ {q : Prop}, halt.ended = .returned → q := fun h => absurd h halt.ended_ne
  cases hr : readEntries S fingerprint (p.disk.lookup manifestPath) with
  | some D =>
    rcases EStateM.bind_error.1 h with h₁ | ⟨_, p₁, h₁, h₂⟩
    · rw [loadOrInvalidate_some hr] at h₁
      cases h₁
    · rw [loadOrInvalidate_some hr] at h₁
      cases h₁
      exact .loaded D hr hne fun n hn => (prunes_sweep _ p' (Or.inr ⟨_, h₂⟩)).not_tmp hn
  | none =>
    have hload := loadOrInvalidate_none draw hr
    rcases EStateM.bind_error.1 h with h₁ | ⟨_, p₁, h₁, h₂⟩
    · rcases hload with ⟨e, he⟩ | hi
      · rw [he] at h₁
        cases h₁
        exact .wiped hr (Wiped.refl _) hne
      · rw [hi] at h₁
        exact .wiped hr (invalidate_error h₁) hne
    · rcases hload with ⟨e, he⟩ | hi
      · rw [he] at h₁
        cases h₁
      · rw [hi] at h₁
        obtain ⟨-, hw, -⟩ := invalidate_ok h₁
        exact .wiped hr (hw.swept (prunes_sweep p₁ p' (Or.inr ⟨_, h₂⟩))) hne

theorem openStore_eq (held : Bool) : openStore S fingerprint held draw =
    if held = false then throw (.raised .lockNotHeld)
    else if fingerprint = [] then throw (.raised .emptyFingerprint)
    else (do
      quiet
      modify fun p => { p with entries := ∅ }
      loadAndSweep S fingerprint draw : Fs F E Unit) := by
  unfold openStore
  cases held with
  | false => rfl
  | true =>
    by_cases hfp : fingerprint = []
    · simp only [hfp, if_true]
      rfl
    · simp only [hfp, if_false]
      rfl

/-- An open that touches nothing. -/
theorem Opened.untouched {s s' : Store F} {ended : Ended (Exc F E)} (hne : ended ≠ .returned)
    (hd : s'.disk = s.disk) : Opened S fingerprint s s' ended := by
  cases hr : readEntries S fingerprint (s.disk.lookup manifestPath) with
  | some D => exact .loaded D hr (fun h => absurd h hne) fun n _ => by rw [hd]
  | none => exact .wiped hr (hd ▸ Wiped.refl _) fun h => absurd h hne

/-- An open that starts on the same directory. -/
theorem Opened.of_disk {s₁ s₂ s' : Store F} {ended : Ended (Exc F E)}
    (h : Opened S fingerprint s₁ s' ended) (hd : s₁.disk = s₂.disk) :
    Opened S fingerprint s₂ s' ended := by
  cases h with
  | loaded D hr he hdisk => exact .loaded D (hd ▸ hr) he (hd ▸ hdisk)
  | wiped hr hw he => exact .wiped (hd ▸ hr) (hd ▸ hw) he

/-- **What an open does.** -/
theorem open_cases {held : Bool} {s s' : Store F} {ended : Ended (Exc F E)}
    {fates : List (Fate F E)}
    (h : (openStore S fingerprint held draw).run s fates = (ended, s')) :
    Opened S fingerprint s s' ended ∧ (ended = .returned → held = true ∧ fingerprint ≠ []) := by
  rcases Fs.run_cases h with ⟨p, hrun, rfl, rfl⟩ | ⟨halt, p, hrun, rfl, rfl⟩
  · rw [openStore_eq] at hrun
    split_ifs at hrun with hheld hfp
    · exact absurd hrun EStateM.throw_ok
    · exact absurd hrun EStateM.throw_ok
    · obtain ⟨_, p₁, h₁, hrun⟩ := EStateM.bind_ok.1 hrun
      obtain ⟨_, p₂, h₂, hrun⟩ := EStateM.bind_ok.1 hrun
      obtain ⟨hd, -⟩ := quiet_ok h₁
      obtain rfl := EStateM.modify_ok.1 h₂
      exact ⟨(loadAndSweep_ok hrun).of_disk hd, fun _ => ⟨Bool.eq_true_of_not_eq_false hheld, hfp⟩⟩
  · refine ⟨?_, fun h => absurd h halt.ended_ne⟩
    rw [openStore_eq] at hrun
    split_ifs at hrun with hheld hfp
    · obtain ⟨rfl, rfl⟩ := EStateM.throw_error.1 hrun
      exact .untouched (Halt.ended_ne _) rfl
    · obtain ⟨rfl, rfl⟩ := EStateM.throw_error.1 hrun
      exact .untouched (Halt.ended_ne _) rfl
    · rcases EStateM.bind_error.1 hrun with h₁ | ⟨_, p₁, h₁, hrun⟩
      · exact .untouched halt.ended_ne (quiet_error h₁).1
      obtain ⟨hd, -⟩ := quiet_ok h₁
      rcases EStateM.bind_error.1 hrun with h₂ | ⟨_, p₂, h₂, hrun⟩
      · exact absurd h₂ EStateM.modify_error
      obtain rfl := EStateM.modify_ok.1 h₂
      exact (loadAndSweep_error hrun).of_disk hd

/-- Where nothing fails, the open of a directory whose manifest is admitted returns,
    and every file that looks temporary is gone. -/
theorem open_returns (draw : Draw F) {s : Store F} {D : Entries F} (hfp : fingerprint ≠ [])
    (h : readEntries S fingerprint (s.disk.lookup manifestPath) = some D) :
    ∃ s', (openStore S fingerprint true draw).run s [] = (.returned, s') ∧ s'.entries = D ∧
      ∀ n, isTmp n = true → s.disk.lookup n ≠ some .dir → s'.disk.lookup n = none := by
  obtain ⟨p', hsweep, htmp⟩ := sweep_done (E := E) (p := ⟨⟨s.disk, D⟩, []⟩) rfl
  have hp := prunes_sweep _ p' (Or.inl ⟨_, hsweep⟩)
  refine ⟨p'.toStore, ?_, hp.entries, fun n hn hdir => ?_⟩
  · have hrun : openStore (E := E) S fingerprint true draw ⟨s, []⟩ = .ok () p' := by
      rw [openStore_eq, if_neg (by simp), if_neg hfp]
      refine EStateM.bind_ok.2 ⟨_, ⟨s, []⟩, rfl, EStateM.bind_ok.2 ⟨_, _, rfl, ?_⟩⟩
      exact EStateM.bind_ok.2 ⟨_, _, loadOrInvalidate_some h, hsweep⟩
    rw [Fs.run, hrun]
  · rcases htmp n hn with hnone | hd
    · exact hnone
    · rcases hp.disk n with hsame | ⟨-, hnone⟩
      · exact absurd (hsame.symm.trans hd) hdir
      · exact hnone

end

end ResumableBatch
