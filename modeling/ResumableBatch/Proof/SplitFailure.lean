/-
  A split happens as a whole or not at all.
-/
import ResumableBatch.Proof.Job

namespace ResumableBatch

variable {P K H R E σ A O : Type} [DecidableEq K]

/-! ## How a split fails -/

/-- The ways a split of `ad` can fail in the state `c`. -/
inductive SplitFails (cfg : Config σ K H R E) (w : Hooks P K H E) (policy : SplitPolicy P E)
    (ad : Admitted P K H) (c : Coord P K H R E) : Prop where
  | depthCap : (ad.depth : ℤ) + 1 > cfg.maxSplitDepth → SplitFails cfg w policy ad c
  | splitRaises {exc} : policy.split ad.item = .error exc → SplitFails cfg w policy ad c
  | noChildren : policy.split ad.item = .ok [] → SplitFails cfg w policy ad c
  | parentSize {exc} : w.splitSizeFn ad.item = .error exc → SplitFails cfg w policy ad c
  | childSize {children it exc} : policy.split ad.item = .ok children → it ∈ children →
      w.splitSizeFn it = .error exc → SplitFails cfg w policy ad c
  /-- all sizes are positive, and a child is at least as large as its parent -/
  | notShrunk {children parentSz childSzs} : policy.split ad.item = .ok children →
      w.splitSizeFn ad.item = .ok parentSz → children.mapM w.splitSizeFn = .ok childSzs →
      parentSz > 0 → (∀ s ∈ childSzs, s > 0) → (∃ s ∈ childSzs, s ≥ parentSz) →
      SplitFails cfg w policy ad c
  | keyRaises {children it exc} : policy.split ad.item = .ok children → it ∈ children →
      w.contentKeyFn it.payload = .error exc → SplitFails cfg w policy ad c
  /-- the key of a child is live, or that of a child before it -/
  | keyAdmitted {before it after earlier ck ph} : policy.split ad.item = .ok (before ++ it :: after) →
      List.Forall₂ (AdmittedAs w (ad.depth + 1)) before earlier →
      w.contentKeyFn it.payload = .ok (ck, ph) →
      (c.liveMap ck ≠ none ∨ ∃ a ∈ earlier, a.contentKey = ck) → SplitFails cfg w policy ad c

section
variable {cfg : Config σ K H R E} {w : Hooks P K H E} {policy : SplitPolicy P E}
  {ad : Admitted P K H} {c c' : Coord P K H R E}

/-- Why the admission of a list of items fails. -/
theorem admitAll_error_cases {d : ℕ} {its : List (CheckpointItem P)} {e : Fault K H E}
    (h : (its.mapM fun it => admitItem w it d) c = .error e c') :
    (∃ it ∈ its, ∃ exc, w.contentKeyFn it.payload = .error exc) ∨
      ∃ before it after earlier ck ph, its = before ++ it :: after ∧
        List.Forall₂ (AdmittedAs w d) before earlier ∧ w.contentKeyFn it.payload = .ok (ck, ph) ∧
        (c.liveMap ck ≠ none ∨ ∃ a ∈ earlier, a.contentKey = ck) := by
  induction its generalizing c with
  | nil => simp at h
  | cons it its ih =>
    simp only [List.mapM_cons, EStateM.bind_error, EStateM.pure_error, and_false, exists_false,
      or_false] at h
    rcases h with h | ⟨ad, c₁, h₁, h⟩
    · obtain ⟨-, ⟨exc, hk, -⟩ | ⟨ck, old, new, hk, hl, -⟩⟩ := admitItem_error h
      · exact Or.inl ⟨it, by simp, exc, hk⟩
      · exact Or.inr ⟨[], it, its, [], ck, new, rfl, .nil, hk, Or.inl (by simp [hl])⟩
    · obtain ⟨ha, -, rfl⟩ := admitItem_ok h₁
      rcases ih h with ⟨it', hit, exc, hk⟩ | ⟨before, it', after, earlier, ck, ph, rfl, has, hk, hck⟩
      · exact Or.inl ⟨it', by simp [hit], exc, hk⟩
      · refine Or.inr ⟨it :: before, it', after, ad :: earlier, ck, ph, rfl, .cons ha has, hk, ?_⟩
        simp only [register_live, List.mem_singleton, exists_eq_left] at hck
        simp only [List.exists_mem_cons_iff]
        tauto

theorem SplitFails.of_error {e : Fault K H E} (h : handleSplit cfg w policy ad c = .error e c') :
    SplitFails cfg w policy ad c := by
  simp only [handleSplit, EStateM.bind_error, raiseIf_ok, raiseIf_error, call_ok, call_error,
    EStateM.modify_error, and_false, exists_false, or_false] at h
  rcases h with ⟨hd, -⟩ | ⟨_, _, ⟨-, rfl⟩, h⟩
  · exact .depthCap hd
  rcases h with ⟨_, hs, -⟩ | ⟨children, _, ⟨hs, rfl⟩, h⟩
  · exact .splitRaises hs
  rcases h with ⟨rfl, -⟩ | ⟨_, _, ⟨-, rfl⟩, h⟩
  · exact .noChildren hs
  rcases h with ⟨_, hp, -⟩ | ⟨parentSz, _, ⟨hp, rfl⟩, h⟩
  · exact .parentSize hp
  rcases h with ⟨exc, hc, -⟩ | ⟨childSzs, _, ⟨hc, rfl⟩, h⟩
  · obtain ⟨it, hit, hit'⟩ := Except.mapM_eq_error hc
    exact .childSize hs hit hit'
  rcases h with ⟨⟨⟨hpos, hcs⟩, hge⟩, -⟩ | ⟨_, _, ⟨-, rfl⟩, h⟩
  · exact .notShrunk hs hp hc hpos hcs hge
  rcases admitAll_error_cases h with ⟨it, hit, exc, hk⟩ | ⟨before, it, after, earlier, ck, ph, rfl,
    has, hk, hck⟩
  · exact .keyRaises hs hit hk
  · exact .keyAdmitted hs has hk hck

/-- A split that fails in one of these ways does not happen. -/
theorem SplitFails.not_ok (hf : SplitFails cfg w policy ad c) :
    handleSplit cfg w policy ad c ≠ .ok () c' := by
  intro h
  obtain ⟨children, ads, c₁, ⟨hd, hs, hne, psz, csz, hp, hc, hshr⟩, ha, rfl⟩ := handleSplit_ok.1 h
  obtain ⟨has, hnd, hfr, rfl⟩ := admitAll_ok ha
  cases hf with
  | depthCap hd' => omega
  | splitRaises hs' => rw [hs'] at hs; cases hs
  | noChildren hs' => rw [hs'] at hs; cases hs; exact hne rfl
  | parentSize hp' => rw [hp'] at hp; cases hp
  | childSize hs' hit he =>
    rw [hs'] at hs; cases hs
    obtain ⟨s, -, hs⟩ := (Except.mapM_eq_ok.1 hc).mem_left hit
    rw [he] at hs; cases hs
  | notShrunk hs' hp' hc' hpos hcs hge =>
    rw [hs'] at hs; cases hs
    rw [hp'] at hp; cases hp
    rw [hc'] at hc; cases hc
    exact hshr ⟨⟨hpos, hcs⟩, hge⟩
  | keyRaises hs' hit he =>
    rw [hs'] at hs; cases hs
    obtain ⟨a, -, hk⟩ := has.mem_left hit
    rw [hk.key] at he; cases he
  | keyAdmitted hs' has' hk hck =>
    rw [hs'] at hs; cases hs
    obtain ⟨k, old, new, c', he⟩ := admitAll_collision (d := ad.depth + 1) _ has' hk hck
    rw [he] at ha; cases ha

/-- A split that fails leaves the schedule alone. -/
theorem SplitFails.error (hf : SplitFails cfg w policy ad c) :
    ∃ e c', handleSplit cfg w policy ad c = .error e c' ∧ c.SameSchedule c' := by
  cases h : handleSplit cfg w policy ad c with
  | ok u c' => exact absurd h hf.not_ok
  | error e c' => exact ⟨e, c', rfl, handleSplit_error h⟩

/-- Every other split happens. -/
theorem handleSplit_of_not_fails (hf : ¬ SplitFails cfg w policy ad c) :
    ∃ children ads, policy.split ad.item = .ok children ∧
      List.Forall₂ (AdmittedAs w (ad.depth + 1)) children ads ∧
      (ads.map (·.contentKey)).Nodup ∧
      handleSplit cfg w policy ad c = .ok () (c.splitInto ad ads) := by
  cases h : handleSplit cfg w policy ad c with
  | error e c' => exact absurd (.of_error h) hf
  | ok u c' =>
    obtain ⟨children, ads, c₁, hs, ha, rfl⟩ := handleSplit_ok.1 h
    obtain ⟨has, hnd, -, rfl⟩ := admitAll_ok ha
    exact ⟨children, ads, hs.split, has, hnd, by rw [register_replace]⟩

/-- Routing of an exception on which the policy wants a split, OOM or not. -/
theorem routeException_wants {w : World P K H E} {exc : E} {oom : Bool} (ho : w.isOom exc = .ok oom)
    (hw : WantsSplit w.toHooks exc ad policy) :
    routeException cfg w ad exc c = splitOrFatal cfg w.toHooks policy ad c := by
  have hws : wantsSplit (R := R) w.toHooks exc ad = pure (some policy) := by
    simp [wantsSplit, hw.1, hw.2, call]
  cases oom <;> simp [routeException, ho, hws, call]

theorem splitOrFatal_of_ok (h : handleSplit cfg w policy ad c = .ok () c') :
    splitOrFatal cfg w policy ad c = .ok none c' := by
  simp only [splitOrFatal, EStateM.tryCatch_ok, EStateM.bind_ok, EStateM.pure_ok]
  exact Or.inl ⟨(), _, h, trivial, rfl⟩

theorem splitOrFatal_of_error {e : Fault K H E} (h : handleSplit cfg w policy ad c = .error e c') :
    splitOrFatal cfg w policy ad c = .ok (some e) c' ∨
      splitOrFatal cfg w policy ad c = .error e c' := by
  simp only [splitOrFatal, EStateM.tryCatch_ok, EStateM.tryCatch_error, EStateM.bind_ok,
    EStateM.bind_error, EStateM.pure_ok, EStateM.pure_error, and_false, exists_false, or_false]
  cases e with
  | splitFatal reason => exact Or.inl (Or.inr ⟨_, c', h, by simp⟩)
  | _ => exact Or.inr ⟨_, c', h, by simp⟩

end

/-! ## The run after a failed split -/

section
variable {cfg : Config σ K H R E} {w : World P K H E} {W : Set (World P K H E)}
  {s s' : State σ P K H R E} {ev : Event P K H R E} {fault : Fault K H E}

/-- The exception `fault` is on its way out of the loop, or has left it. -/
def State.Raising (fault : Fault K H E) (s : State σ P K H R E) : Prop :=
  s.loc.raising fault ∨
    s.c.fatalExc = some fault ∧ (s.loc = .promote ∨ (∃ now, s.loc = .pop now) ∨ s.loc = .head)

theorem State.Raising.step (hs : s.Raising fault) (h : Step cfg w s ev s') : s'.Raising fault := by
  unfold State.Raising at *
  cases h <;> simp_all [Loc.raising]

/-- All the run can return is the exception. -/
theorem State.Raising.run {tr : List (Event P K H R E)} (hs : s.Raising fault)
    (hr : Lts.Run (cfg.step W) s tr s') : s'.Raising fault := by
  refine hr.inv (fun _ s => s.Raising fault) hs ?_
  rintro tr s ev s' - hs ⟨w, -, h⟩
  exact hs.step h

/-- The pool can be drained. -/
theorem shutdown_ends (exc : E) (hw : w ∈ W) (n : ℕ) {c : Coord P K H R E} (st : σ)
    (hn : c.inflight.countP Call.isRunning = n) :
    ∃ tr s', Lts.Run (cfg.step W) ⟨.shutdown (some fault), c, st⟩ tr s' ∧
      s'.loc = .failed fault := by
  induction n generalizing c with
  | zero =>
    have hrun : ∀ x ∈ c.inflight, x.state ≠ .running := by
      intro x hx he
      rw [List.countP_eq_zero] at hn
      exact hn x hx (by simp [Call.isRunning, he])
    exact ⟨_, _, .single ⟨w, hw, .failed hrun⟩, rfl⟩
  | succ n ih =>
    obtain ⟨x, hx, hrun⟩ := List.countP_pos_iff.1 (by omega : 0 < c.inflight.countP Call.isRunning)
    obtain ⟨pre, post, hi⟩ := List.append_of_mem hx
    obtain ⟨f, ad, state⟩ := x
    cases state with
    | running =>
      have hcount : (pre ++ ⟨f, ad, .finished (.error exc)⟩ :: post).countP Call.isRunning = n := by
        simp only [hi, List.countP_append, List.countP_cons, Call.isRunning] at hn ⊢
        simp only [if_true] at hn
        simp only [Bool.false_eq_true, if_false]
        omega
      obtain ⟨tr, s', hr, hl⟩ :=
        ih (c := { c with inflight := pre ++ ⟨f, ad, .finished (.error exc)⟩ :: post }) hcount
      exact ⟨_, s', .cons ⟨w, hw, .finish (.error exc) (by simp) hi⟩ hr, hl⟩
    | finished o => simp [Call.isRunning] at hrun
    | cancelled => simp [Call.isRunning] at hrun

theorem head_ends (exc : E) (hw : w ∈ W) {c : Coord P K H R E} (st : σ)
    (hf : c.fatalExc = some fault) :
    ∃ tr s', Lts.Run (cfg.step W) ⟨.head, c, st⟩ tr s' ∧ s'.loc = .failed fault := by
  obtain ⟨tr, s', hr, hl⟩ := shutdown_ends exc hw _ st (c := c.cancel []) rfl
  exact ⟨_, s', .cons ⟨w, hw, .cancel [] hf⟩ hr, hl⟩

theorem pop_ends (exc : E) (hw : w ∈ W) (now : ℚ) (ds : List (Retry P K H))
    {c : Coord P K H R E} (st : σ) (hf : c.fatalExc = some fault) (hd : c.delayed = ds) :
    ∃ tr s', Lts.Run (cfg.step W) ⟨.pop now, c, st⟩ tr s' ∧ s'.loc = .failed fault := by
  induction ds generalizing c with
  | nil =>
    obtain ⟨tr, s', hr, hl⟩ := head_ends exc hw st hf
    exact ⟨_, s', .cons ⟨w, hw, .popped (by simp [hd])⟩ hr, hl⟩
  | cons d ds ih =>
    by_cases hle : d.readyAt.le (.fin now)
    · obtain ⟨tr, s', hr, hl⟩ := ih (c := { c with delayed := ds, ready := c.ready ++ [d.ad] }) hf rfl
      exact ⟨_, s', .cons ⟨w, hw, .pop hd hle⟩ hr, hl⟩
    · obtain ⟨tr, s', hr, hl⟩ := head_ends exc hw st hf
      exact ⟨_, s', .cons ⟨w, hw, .popped (by simp [hd, hle])⟩ hr, hl⟩

/-- The run can end, and only by raising. -/
def EndsRaising (cfg : Config σ K H R E) (W : Set (World P K H E)) (s : State σ P K H R E)
    (fault : Fault K H E) : Prop :=
  (∃ tr s', Lts.Run (cfg.step W) s tr s' ∧ s'.loc = .failed fault) ∧
    ∀ tr s', Lts.Run (cfg.step W) s tr s' → s'.loc ≠ .done ∧ ∀ fault', s'.loc = .failed fault' →
      fault' = fault

theorem State.Raising.only {tr : List (Event P K H R E)} (hs : s.Raising fault)
    (hr : Lts.Run (cfg.step W) s tr s') :
    s'.loc ≠ .done ∧ ∀ fault', s'.loc = .failed fault' → fault' = fault := by
  rcases hs.run hr with h | ⟨-, h | ⟨now, h⟩ | h⟩
  · refine ⟨fun hd => ?_, fun fault' hl => ?_⟩
    · rw [hd] at h; exact h
    · rw [hl] at h; exact h
  all_goals
    refine ⟨fun hd => ?_, fun fault' hl => ?_⟩
    · rw [h] at hd; cases hd
    · rw [h] at hl; cases hl

/-- What the coordinator schedules from is the same. -/
structure Coord.Unmoved (c c' : Coord P K H R E) : Prop where
  ready : c'.ready = c.ready
  delayed : c'.delayed = c.delayed
  terminalKeys : c'.terminalKeys = c.terminalKeys
  terminalHash : c'.terminalHash = c.terminalHash
  splits : c'.splits = c.splits
  transientRetries : c'.transientRetries = c.transientRetries

omit [DecidableEq K] in
theorem Coord.SameSchedule.unmoved {c c' : Coord P K H R E} (h : c.SameSchedule c') :
    c.Unmoved c' := by
  obtain ⟨m, t, rfl⟩ := h
  constructor <;> rfl

/-- What a step does at a future whose call raised an `Exception`. -/
theorem Step.at_failure {c : Coord P K H R E} {st : σ} {f : Future} {fs : List Future}
    {pre post : List (Call P K H R E)} {ad : Admitted P K H} {exc : E} (hp : c.PoolOk cfg)
    (hi : c.inflight = pre ++ ⟨f, ad, .finished (.error exc)⟩ :: post) (hx : cfg.isException exc)
    (h : Step cfg w ⟨.collect (f :: fs), c, st⟩ ev s') :
    (∃ f' ad' o, ev = .finish f' ad' o) ∨
      (∃ c', routeException cfg w ad exc { c with inflight := pre ++ post } = .ok none c' ∧
        s' = ⟨.collect fs, c', st⟩) ∨
      (∃ fault c',
        routeException cfg w ad exc { c with inflight := pre ++ post } = .ok (some fault) c' ∧
        s' = ⟨.promote, { c' with fatalExc := some fault }, st⟩) ∨
      ∃ fault c', routeException cfg w ad exc { c with inflight := pre ++ post } = .error fault c' ∧
        s' = ⟨.shutdown (some fault), c', st⟩ := by
  cases h with
  | finish => exact Or.inl ⟨_, _, _, rfl⟩
  | commit hi' _ => obtain ⟨-, h, -⟩ := hp.unique hi hi' rfl; cases h
  | commitRaises hi' _ => obtain ⟨-, h, -⟩ := hp.unique hi hi' rfl; cases h
  | commitDies hi' _ => obtain ⟨-, h, -⟩ := hp.unique hi hi' rfl; cases h
  | requeue hi' _ hr _ =>
    obtain ⟨rfl, h, rfl⟩ := hp.unique hi hi' rfl
    cases h; exact Or.inr (Or.inl ⟨_, hr, rfl⟩)
  | split hi' _ hr _ =>
    obtain ⟨rfl, h, rfl⟩ := hp.unique hi hi' rfl
    cases h; exact Or.inr (Or.inl ⟨_, hr, rfl⟩)
  | fatal hi' _ hr =>
    obtain ⟨rfl, h, rfl⟩ := hp.unique hi hi' rfl
    cases h; exact Or.inr (Or.inr (Or.inl ⟨_, _, hr, rfl⟩))
  | routeRaises hi' _ hr =>
    obtain ⟨rfl, h, rfl⟩ := hp.unique hi hi' rfl
    cases h; exact Or.inr (Or.inr (Or.inr ⟨_, _, hr, rfl⟩))
  | notCaught hi' hx' =>
    obtain ⟨-, h, -⟩ := hp.unique hi hi' rfl
    cases h; exact absurd hx hx'

end

section
variable {cfg : Config σ K H R E} {w : World P K H E} {policy : SplitPolicy P E}
  {ad : Admitted P K H} {exc : E} {oom : Bool} {c : Coord P K H R E}

/-- The routing of a split that fails. -/
theorem routeException_fails (ho : w.isOom exc = .ok oom) (hw : WantsSplit w.toHooks exc ad policy)
    (hf : SplitFails cfg w.toHooks policy ad c) :
    ∃ fault c', (routeException cfg w ad exc c = .ok (some fault) c' ∨
      routeException cfg w ad exc c = .error fault c') ∧ c.Unmoved c' := by
  obtain ⟨e, c', he, hs⟩ := hf.error
  rw [routeException_wants ho hw]
  exact ⟨e, c', splitOrFatal_of_error he, hs.unmoved⟩

/-- A failed split in a run. -/
theorem failed_split_step {W : Set (World P K H E)} {w₀ : Hooks P K H E}
    {items : List (CheckpointItem P)} {st : σ} {s₀ s s' : State σ P K H R E}
    {tr : List (Event P K H R E)} {ev : Event P K H R E} {f : Future} {fs : List Future}
    {pre post : List (Call P K H R E)} (ho : w.isOom exc = .ok oom)
    (hw : WantsSplit w.toHooks exc ad policy) (hmem : w ∈ W) (hb : begin w₀ items st = .ok s₀)
    (hr : Lts.Run (cfg.step W) s₀ tr s) (hloc : s.loc = .collect (f :: fs))
    (hi : s.c.inflight = pre ++ ⟨f, ad, .finished (.error exc)⟩ :: post)
    (hx : cfg.isException exc)
    (hf : SplitFails cfg w.toHooks policy ad { s.c with inflight := pre ++ post })
    (h : Step cfg w s ev s') :
    (∃ f' ad' o, ev = .finish f' ad' o) ∨
      (s.c.Unmoved s'.c ∧ ad.contentKey ∈ s'.c.terminalKeys ∧
        s'.c.terminalHash ad.contentKey = some ad.payloadHash ∧
        ∃ fault, EndsRaising cfg W s' fault) := by
  obtain ⟨hwf, hL⟩ := Ledger.run hb hr
  have hcall : (⟨f, ad, .finished (.error exc)⟩ : Call P K H R E) ∈ s.c.inflight := by simp [hi]
  have hleaf : ad ∈ leaves s.c tr :=
    List.mem_append_left _ (List.mem_append_left _
      (List.mem_append_right _ (List.mem_map_of_mem (f := (·.ad)) hcall)))
  have hkey : ad.contentKey ∈ s.c.terminalKeys := by
    rw [hL.keys, List.mem_toFinset]
    exact List.mem_map_of_mem hleaf
  have hhash : s.c.terminalHash ad.contentKey = some ad.payloadHash :=
    (hL.hash _ _).2 ⟨ad, hleaf, rfl, rfl⟩
  obtain ⟨fault, c', hroute, hun⟩ := routeException_fails ho hw hf
  obtain ⟨loc, c, store⟩ := s
  subst hloc
  have hkey' : ad.contentKey ∈ c'.terminalKeys := hun.terminalKeys ▸ hkey
  have hhash' : c'.terminalHash ad.contentKey = some ad.payloadHash := by
    rw [hun.terminalHash]; exact hhash
  obtain ⟨h₁, h₂, h₃, h₄, h₅, h₆⟩ := hun
  rcases Step.at_failure hwf.pool hi hx h with hfin | ⟨c'', hr', rfl⟩ | ⟨fault', c'', hr', rfl⟩ |
    ⟨fault', c'', hr', rfl⟩
  · exact Or.inl hfin
  · rcases hroute with hroute | hroute <;> rw [hr'] at hroute <;> cases hroute
  · obtain ⟨rfl, rfl⟩ : c'' = c' ∧ fault' = fault := by
      rcases hroute with hroute | hroute <;> rw [hr'] at hroute <;> cases hroute
      exact ⟨rfl, rfl⟩
    refine Or.inr ⟨⟨h₁, h₂, h₃, h₄, h₅, h₆⟩, hkey', hhash', fault', ?_, ?_⟩
    · obtain ⟨tr', s', hr', hl⟩ := pop_ends exc hmem w.monotonic _ store
        (c := { c'' with fatalExc := some fault' }) rfl rfl
      exact ⟨_, s', .cons ⟨w, hmem, .promote⟩ hr', hl⟩
    · exact fun tr' s' hr' => State.Raising.only (Or.inr ⟨rfl, Or.inl rfl⟩) hr'
  · obtain ⟨rfl, rfl⟩ : c'' = c' ∧ fault' = fault := by
      rcases hroute with hroute | hroute <;> rw [hr'] at hroute <;> cases hroute
      exact ⟨rfl, rfl⟩
    refine Or.inr ⟨⟨h₁, h₂, h₃, h₄, h₅, h₆⟩, hkey', hhash', fault', ?_, ?_⟩
    · exact shutdown_ends exc hmem _ store rfl
    · exact fun tr' s' hr' =>
        State.Raising.only (s := ⟨.shutdown (some fault'), c'', store⟩) (Or.inl rfl) hr'

/-- **A failed split changes nothing it schedules from**, and the run ends by
    raising; a split that succeeds replaces the parent by all its children. -/
theorem split_all_or_nothing (ho : w.isOom exc = .ok oom)
    (hw : WantsSplit w.toHooks exc ad policy) :
    (SplitFails cfg w.toHooks policy ad c →
      ∃ fault c', (routeException cfg w ad exc c = .ok (some fault) c' ∨
        routeException cfg w ad exc c = .error fault c') ∧ c.Unmoved c') ∧
    (¬ SplitFails cfg w.toHooks policy ad c →
      ∃ children ads c', policy.split ad.item = .ok children ∧
        List.Forall₂ (AdmittedAs w.toHooks (ad.depth + 1)) children ads ∧
        routeException cfg w ad exc c = .ok none c' ∧
        c'.ready = c.ready ++ ads ∧ c'.delayed = c.delayed ∧ c'.inflight = c.inflight ∧
        c'.terminalKeys =
          c.terminalKeys.erase ad.contentKey ∪ (ads.map (·.contentKey)).toFinset ∧
        (∀ a ∈ ads, c'.terminalHash a.contentKey = some a.payloadHash) ∧
        (∀ k, (∀ a ∈ ads, a.contentKey ≠ k) →
          c'.terminalHash k = if k = ad.contentKey then none else c.terminalHash k) ∧
        c'.splits = c.splits + 1 ∧ c'.transientRetries = c.transientRetries) ∧
    ∀ (W : Set (World P K H E)) (w₀ : Hooks P K H E) (items : List (CheckpointItem P)) (st : σ)
      (s₀ s s' : State σ P K H R E) (tr : List (Event P K H R E)) (ev : Event P K H R E)
      (f : Future) (fs : List Future) (pre post : List (Call P K H R E)), w ∈ W →
      begin w₀ items st = .ok s₀ → Lts.Run (cfg.step W) s₀ tr s → s.loc = .collect (f :: fs) →
      s.c.inflight = pre ++ ⟨f, ad, .finished (.error exc)⟩ :: post → cfg.isException exc →
      SplitFails cfg w.toHooks policy ad { s.c with inflight := pre ++ post } →
      Step cfg w s ev s' →
      (∃ f' ad' o, ev = .finish f' ad' o) ∨
        (s.c.Unmoved s'.c ∧ ad.contentKey ∈ s'.c.terminalKeys ∧
          s'.c.terminalHash ad.contentKey = some ad.payloadHash ∧
          ∃ fault, EndsRaising cfg W s' fault) := by
  refine ⟨routeException_fails ho hw, fun hf => ?_, ?_⟩
  · obtain ⟨children, ads, hs, has, hnd, hsplit⟩ := handleSplit_of_not_fails hf
    have hroute : routeException cfg w ad exc c = .ok none (c.splitInto ad ads) := by
      rw [routeException_wants ho hw]
      exact splitOrFatal_of_ok hsplit
    refine ⟨children, ads, _, hs, has, hroute, rfl, rfl, rfl, rfl, ?_, ?_, rfl, rfl⟩
    · intro a ha
      exact setAll_of_mem hnd ha
    · intro k hk
      rw [Coord.splitInto_terminalHash, setAll_of_not_mem hk, Function.update_apply]
  · intro W w₀ items st s₀ s s' tr ev f fs pre post hmem hb hr hloc hi hx hf h
    exact failed_split_step ho hw hmem hb hr hloc hi hx hf h

/-- The payloads `12` and `2` were admitted, and `12` is in flight. -/
def admittedBoth : Coord (List ℕ) ℕ ℕ ℕ Bool where
  liveMap := Function.update (Function.update (fun _ => none) 12 (some 2)) 2 (some 1)
  ready := [⟨⟨[2], {}⟩, 2, 1, 0⟩]
  terminalKeys := {12, 2}
  terminalHash := Function.update (Function.update (fun _ => none) 12 (some 2)) 2 (some 1)
  attemptsTotal := 1

/-- The second half of `12` has the key of the other item, and the first half was
    admitted before: nothing is scheduled. -/
theorem split_all_or_nothing_sample :
    ∃ fault c', (routeException sampleConfig sampleWorld ⟨⟨[1, 2], {}⟩, 12, 2, 0⟩ true admittedBoth =
        .ok (some fault) c' ∨
      routeException sampleConfig sampleWorld ⟨⟨[1, 2], {}⟩, 12, 2, 0⟩ true admittedBoth =
        .error fault c') ∧
      c'.ready = [⟨⟨[2], {}⟩, 2, 1, 0⟩] ∧ c'.terminalKeys = {12, 2} ∧ c'.splits = 0 := by
  have hlive : admittedBoth.liveMap 2 ≠ none := by simp [admittedBoth]
  have hfails : ∀ policy, sampleWorld.splitPolicy = some policy → SplitFails sampleConfig
      sampleWorld.toHooks policy ⟨⟨[1, 2], {}⟩, 12, 2, 0⟩ admittedBoth := by
    rintro _ ⟨⟩
    have hfirst : AdmittedAs sampleWorld.toHooks 1 ⟨[1], {}⟩ ⟨⟨[1], {}⟩, 1, 1, 1⟩ := ⟨rfl, rfl, rfl⟩
    have hsplit : (.ok [⟨[1], {}⟩, ⟨[2], {}⟩] : Except Bool (List (CheckpointItem (List ℕ)))) =
        .ok ([⟨[1], {}⟩] ++ ⟨[2], {}⟩ :: []) := rfl
    exact .keyAdmitted hsplit (.cons hfirst .nil) rfl (Or.inl hlive)
  obtain ⟨fault, c', hroute, hun⟩ := (split_all_or_nothing rfl ⟨rfl, rfl⟩).1 (hfails _ rfl)
  exact ⟨fault, c', hroute, hun.ready, hun.terminalKeys, hun.splits⟩

end

end ResumableBatch
