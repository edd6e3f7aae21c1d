/-
  What admission, splits and routing do to the coordinator's variables.
-/
import Mathlib.Tactic.Simps.Basic
import ResumableBatch.Lib.EState
import ResumableBatch.Engine

namespace ResumableBatch

variable {P K H R E σ : Type}

@[simp] theorem call_ok {α : Type} {x : Except E α} {a : α} {c c' : Coord P K H R E} :
    call x c = .ok a c' ↔ x = .ok a ∧ c = c' := by
  cases x <;> simp [call]

@[simp] theorem call_error {α : Type} {x : Except E α} {e : Fault K H E} {c c' : Coord P K H R E} :
    call x c = .error e c' ↔ ∃ exc, x = .error exc ∧ .raised exc = e ∧ c = c' := by
  cases x <;> simp [call]

@[simp] theorem raiseIf_ok {p : Prop} [Decidable p] {e : Fault K H E} {u : Unit}
    {c c' : Coord P K H R E} : raiseIf p e c = .ok u c' ↔ ¬ p ∧ c = c' := by
  unfold raiseIf; split <;> simp [*]

@[simp] theorem raiseIf_error {p : Prop} [Decidable p] {e e' : Fault K H E}
    {c c' : Coord P K H R E} : raiseIf p e c = .error e' c' ↔ p ∧ e = e' ∧ c = c' := by
  unfold raiseIf; split <;> simp [*]

/-- All variables but `live_map` and `transient_attempts` are the same. -/
def Coord.SameSchedule (c c' : Coord P K H R E) : Prop :=
  ∃ m t, c' = { c with liveMap := m, transientAttempts := t }

theorem Coord.SameSchedule.rfl' (c : Coord P K H R E) : c.SameSchedule c := ⟨_, _, rfl⟩

theorem Coord.SameSchedule.trans {c c' c'' : Coord P K H R E} (h : c.SameSchedule c')
    (h' : c'.SameSchedule c'') : c.SameSchedule c'' := by
  obtain ⟨_, _, rfl⟩ := h
  obtain ⟨m, t, rfl⟩ := h'
  exact ⟨m, t, rfl⟩

/-! ## Whether the policy wants a split -/

/-- The policy wants the item split on this exception. -/
def WantsSplit (w : Hooks P K H E) (exc : E) (ad : Admitted P K H) (policy : SplitPolicy P E) :
    Prop :=
  w.splitPolicy = some policy ∧ policy.shouldSplit exc ad.item = .ok true

/-- There is no policy, or it does not want the item split. -/
def NoSplit (w : Hooks P K H E) (exc : E) (ad : Admitted P K H) : Prop :=
  ∀ policy, w.splitPolicy = some policy → policy.shouldSplit exc ad.item = .ok false

theorem wantsSplit_ok {w : Hooks P K H E} {exc : E} {ad : Admitted P K H}
    {o : Option (SplitPolicy P E)} {c c' : Coord P K H R E} :
    wantsSplit w exc ad c = .ok o c' ↔ c = c' ∧
      ((∃ policy, o = some policy ∧ WantsSplit w exc ad policy) ∨ o = none ∧ NoSplit w exc ad) := by
  unfold wantsSplit WantsSplit NoSplit
  cases w.splitPolicy with
  | none => simp [eq_comm, and_comm]
  | some policy =>
    simp only [EStateM.bind_ok, call_ok, EStateM.pure_ok]
    constructor
    · rintro ⟨b, _, ⟨hb, rfl⟩, ho, rfl⟩
      cases b with
      | true => exact ⟨rfl, Or.inl ⟨policy, ho.symm, rfl, hb⟩⟩
      | false => exact ⟨rfl, Or.inr ⟨ho.symm, fun _ hp => by cases hp; exact hb⟩⟩
    · rintro ⟨rfl, ⟨p, rfl, hp, hb⟩ | ⟨rfl, h⟩⟩
      · cases hp; exact ⟨true, c, ⟨hb, rfl⟩, rfl, rfl⟩
      · exact ⟨false, c, ⟨h policy rfl, rfl⟩, rfl, rfl⟩

theorem wantsSplit_error {w : Hooks P K H E} {exc : E} {ad : Admitted P K H} {e : Fault K H E}
    {c c' : Coord P K H R E} (h : wantsSplit w exc ad c = .error e c') : c = c' := by
  unfold wantsSplit at h
  cases hp : w.splitPolicy with
  | none => simp [hp] at h
  | some policy =>
    simp only [hp, EStateM.bind_error, call_error, EStateM.pure_error, and_false, exists_false,
      or_false] at h
    obtain ⟨_, -, -, h⟩ := h; exact h

variable [DecidableEq K]

/-! ## Admission -/

/-- The identities of `ads` are entered in a dictionary. -/
def setAll (m : K → Option H) (ads : List (Admitted P K H)) : K → Option H :=
  ads.foldl (fun m ad => Function.update m ad.contentKey (some ad.payloadHash)) m

theorem setAll_cons (m : K → Option H) (a : Admitted P K H) (ads : List (Admitted P K H)) :
    setAll m (a :: ads) = setAll (Function.update m a.contentKey (some a.payloadHash)) ads := rfl

theorem setAll_of_not_mem {m : K → Option H} {ads : List (Admitted P K H)} {k : K}
    (h : ∀ a ∈ ads, a.contentKey ≠ k) : setAll m ads k = m k := by
  induction ads generalizing m with
  | nil => rfl
  | cons a ads ih =>
    rw [setAll_cons, ih fun b hb => h b (by simp [hb])]
    exact Function.update_of_ne (Ne.symm (h a (by simp))) _ _

theorem setAll_of_mem {m : K → Option H} {ads : List (Admitted P K H)} {a : Admitted P K H}
    (hnd : (ads.map (·.contentKey)).Nodup) (ha : a ∈ ads) :
    setAll m ads a.contentKey = some a.payloadHash := by
  induction ads generalizing m with
  | nil => simp at ha
  | cons b ads ih =>
    rw [List.map_cons, List.nodup_cons] at hnd
    rw [setAll_cons]
    rcases List.mem_cons.1 ha with rfl | ha
    · rw [setAll_of_not_mem fun c hc he => hnd.1 (List.mem_map.2 ⟨c, hc, he⟩)]
      exact Function.update_self ..
    · exact ih hnd.2 ha

/-- The identities of `ads` are registered in `live_map`. -/
def Coord.register (c : Coord P K H R E) (ads : List (Admitted P K H)) : Coord P K H R E :=
  { c with liveMap := setAll c.liveMap ads }

/-- `ad` is the item `it` with the identity derived from its payload. -/
structure AdmittedAs (w : Hooks P K H E) (d : ℕ) (it : CheckpointItem P) (ad : Admitted P K H) :
    Prop where
  item : ad.item = it
  key : w.contentKeyFn it.payload = .ok (ad.contentKey, ad.payloadHash)
  depth : ad.depth = d

theorem admitItem_ok {w : Hooks P K H E} {item : CheckpointItem P} {d : ℕ} {ad : Admitted P K H}
    {c c' : Coord P K H R E} (h : admitItem w item d c = .ok ad c') :
    AdmittedAs w d item ad ∧ c.liveMap ad.contentKey = none ∧ c' = c.register [ad] := by
  simp only [admitItem, EStateM.bind_ok, call_ok, EStateM.get_ok] at h
  obtain ⟨⟨ck, ph⟩, _, ⟨hk, rfl⟩, _, _, ⟨rfl, rfl⟩, h⟩ := h
  cases hl : c.liveMap ck with
  | some old => simp [hl] at h
  | none =>
    simp only [hl, EStateM.bind_ok, EStateM.modify_ok, EStateM.pure_ok] at h
    obtain ⟨_, _, rfl, rfl, rfl⟩ := h
    exact ⟨⟨rfl, hk, rfl⟩, hl, rfl⟩

/-- An admission fails on a raising `content_key_fn` or a key admitted before. -/
theorem admitItem_error {w : Hooks P K H E} {item : CheckpointItem P} {d : ℕ} {e : Fault K H E}
    {c c' : Coord P K H R E} (h : admitItem w item d c = .error e c') : c' = c ∧
      ((∃ exc, w.contentKeyFn item.payload = .error exc ∧ e = .raised exc) ∨
        ∃ ck old new, w.contentKeyFn item.payload = .ok (ck, new) ∧ c.liveMap ck = some old ∧
          e = .contentKeyCollision ck old new) := by
  simp only [admitItem, EStateM.bind_error, call_ok, call_error, EStateM.get_ok,
    EStateM.get_error, false_or] at h
  rcases h with ⟨exc, hk, rfl, rfl⟩ | ⟨⟨ck, ph⟩, _, ⟨hk, rfl⟩, _, _, ⟨rfl, rfl⟩, h⟩
  · exact ⟨rfl, Or.inl ⟨exc, hk, rfl⟩⟩
  · cases hl : c.liveMap ck with
    | none =>
      simp only [hl, EStateM.bind_error, EStateM.modify_error, EStateM.pure_error, false_or,
        and_false, exists_false] at h
    | some old =>
      simp only [hl, EStateM.throw_error] at h
      exact ⟨h.2.symm, Or.inr ⟨ck, old, ph, hk, hl, h.1.symm⟩⟩

theorem register_nil (c : Coord P K H R E) : c.register [] = c := rfl

theorem register_append (c : Coord P K H R E) (as bs : List (Admitted P K H)) :
    (c.register as).register bs = c.register (as ++ bs) := by
  simp [Coord.register, setAll]

theorem register_live (c : Coord P K H R E) (as : List (Admitted P K H)) (k : K) :
    (c.register as).liveMap k ≠ none ↔ c.liveMap k ≠ none ∨ ∃ ad ∈ as, ad.contentKey = k := by
  induction as generalizing c with
  | nil => simp [register_nil]
  | cons a as ih =>
    rw [show a :: as = [a] ++ as by rfl, ← register_append, ih]
    by_cases hk : a.contentKey = k
    · simp [Coord.register, setAll, hk]
    · simp [Coord.register, setAll, Function.update_of_ne (Ne.symm hk), hk]

/-- A fresh key before keys that are fresh once it is registered. -/
theorem fresh_cons {c : Coord P K H R E} {ad : Admitted P K H} {ads : List (Admitted P K H)}
    (hfresh : c.liveMap ad.contentKey = none) (hnd : (ads.map (·.contentKey)).Nodup)
    (hfr : ∀ b ∈ ads, (c.register [ad]).liveMap b.contentKey = none) :
    ((ad :: ads).map (·.contentKey)).Nodup ∧ ∀ b ∈ ad :: ads, c.liveMap b.contentKey = none := by
  have hnew : ∀ b ∈ ads, b.contentKey ≠ ad.contentKey ∧ c.liveMap b.contentKey = none := by
    intro b hb
    have := (register_live c [ad] b.contentKey).not.1 (by simpa using hfr b hb)
    simp only [ne_eq, List.mem_singleton, exists_eq_left, not_or, not_not] at this
    exact ⟨Ne.symm this.2, this.1⟩
  refine ⟨?_, ?_⟩
  · rw [List.map_cons, List.nodup_cons]
    refine ⟨fun hm => ?_, hnd⟩
    obtain ⟨b, hb, hbk⟩ := List.mem_map.1 hm
    exact (hnew b hb).1 hbk
  · intro b hb
    rcases List.mem_cons.1 hb with rfl | hb
    · exact hfresh
    · exact (hnew b hb).2

/-- Admitting a list of items: fresh, pairwise distinct keys. -/
theorem admitAll_ok {w : Hooks P K H E} {d : ℕ} : ∀ {items : List (CheckpointItem P)}
    {ads : List (Admitted P K H)} {c c' : Coord P K H R E},
    (items.mapM fun item => admitItem w item d) c = .ok ads c' →
      List.Forall₂ (AdmittedAs w d) items ads ∧ (ads.map (·.contentKey)).Nodup ∧
        (∀ ad ∈ ads, c.liveMap ad.contentKey = none) ∧ c' = c.register ads
  | [], ads, c, c', h => by
    simp only [List.mapM_nil, EStateM.pure_ok] at h
    obtain ⟨rfl, rfl⟩ := h
    exact ⟨.nil, by simp, by simp, rfl⟩
  | item :: items, ads, c, c', h => by
    simp only [List.mapM_cons, EStateM.bind_ok, EStateM.pure_ok] at h
    obtain ⟨ad, c₁, h₁, ads', _, h₂, rfl, rfl⟩ := h
    obtain ⟨ha, hfresh, rfl⟩ := admitItem_ok h₁
    obtain ⟨has, hnd, hfr, rfl⟩ := admitAll_ok h₂
    obtain ⟨hnd', hfr'⟩ := fresh_cons hfresh hnd hfr
    exact ⟨.cons ha has, hnd', hfr', register_append c [ad] ads'⟩

theorem Coord.SameSchedule.register (c : Coord P K H R E) (ads : List (Admitted P K H)) :
    c.SameSchedule (c.register ads) := ⟨_, _, rfl⟩

theorem admitAll_error {w : Hooks P K H E} {d : ℕ} {e : Fault K H E} :
    ∀ {items : List (CheckpointItem P)} {c c' : Coord P K H R E},
      (items.mapM fun item => admitItem w item d) c = .error e c' → c.SameSchedule c'
  | [], c, c', h => by simp at h
  | item :: items, c, c', h => by
    simp only [List.mapM_cons, EStateM.bind_error, EStateM.pure_error, and_false, exists_false,
      or_false] at h
    rcases h with h | ⟨ad, c₁, h₁, h⟩
    · rw [(admitItem_error h).1]; exact .rfl' c
    · rw [(admitItem_ok h₁).2.2] at h
      exact (Coord.SameSchedule.register c [ad]).trans (admitAll_error h)

/-! ## Splits -/

/-- Placing several items. -/
theorem foldl_place (c : Coord P K H R E) (ads : List (Admitted P K H)) :
    ads.foldl Coord.place c = { c with
      terminalKeys := c.terminalKeys ∪ (ads.map (·.contentKey)).toFinset
      terminalHash := setAll c.terminalHash ads
      ready := c.ready ++ ads } := by
  induction ads generalizing c with
  | nil => simp [setAll]
  | cons a ads ih =>
    rw [List.foldl_cons, ih]
    simp [Coord.place, setAll, Finset.insert_union]

/-- Admitting the input items: fresh, pairwise distinct keys. -/
theorem admitRoots_ok {w : Hooks P K H E} : ∀ {items : List (CheckpointItem P)}
    {c c' : Coord P K H R E}, admitRoots w items c = .ok () c' →
      ∃ ads, List.Forall₂ (AdmittedAs w 0) items ads ∧ (ads.map (·.contentKey)).Nodup ∧
        (∀ ad ∈ ads, c.liveMap ad.contentKey = none) ∧ c' = ads.foldl Coord.place (c.register ads)
  | [], c, c', h => by
    simp only [admitRoots, List.forM_eq_forM, List.forM_nil, EStateM.pure_ok] at h
    exact ⟨[], .nil, by simp, by simp, h.2.symm⟩
  | item :: items, c, c', h => by
    simp only [admitRoots, List.forM_eq_forM, List.forM_cons, EStateM.bind_ok,
      EStateM.modify_ok] at h
    obtain ⟨_, _, ⟨ad, _, h₁, rfl⟩, h₂⟩ := h
    obtain ⟨ha, hfresh, rfl⟩ := admitItem_ok h₁
    obtain ⟨ads, has, hnd, hfr, rfl⟩ := admitRoots_ok (by simpa [admitRoots] using h₂)
    obtain ⟨hnd', hfr'⟩ := fresh_cons hfresh hnd hfr
    exact ⟨ad :: ads, .cons ha has, hnd', hfr', rfl⟩

/-- What `_handle_split` asks of a split before it admits the children. -/
structure Splittable (cfg : Config σ K H R E) (w : Hooks P K H E) (policy : SplitPolicy P E)
    (ad : Admitted P K H) (children : List (CheckpointItem P)) : Prop where
  depth : (ad.depth : ℤ) + 1 ≤ cfg.maxSplitDepth
  split : policy.split ad.item = .ok children
  ne : children ≠ []
  sizes : ∃ parentSz childSzs, w.splitSizeFn ad.item = .ok parentSz ∧
    children.mapM w.splitSizeFn = .ok childSzs ∧
    ¬ ((parentSz > 0 ∧ ∀ s ∈ childSzs, s > 0) ∧ ∃ s ∈ childSzs, s ≥ parentSz)

theorem handleSplit_ok {cfg : Config σ K H R E} {w : Hooks P K H E} {policy : SplitPolicy P E}
    {ad : Admitted P K H} {c c' : Coord P K H R E} :
    handleSplit cfg w policy ad c = .ok () c' ↔
      ∃ children ads c₁, Splittable cfg w policy ad children ∧
        (children.mapM fun it => admitItem w it (ad.depth + 1)) c = .ok ads c₁ ∧
        c' = c₁.replace ad.contentKey ads := by
  simp only [handleSplit, EStateM.bind_ok, raiseIf_ok, call_ok, EStateM.modify_ok]
  constructor
  · rintro ⟨_, _, ⟨hd, rfl⟩, children, _, ⟨hs, rfl⟩, _, _, ⟨hne, rfl⟩, psz, _, ⟨hp, rfl⟩, csz, _,
      ⟨hc, rfl⟩, _, _, ⟨hshr, rfl⟩, ads, c₁, ha, rfl⟩
    exact ⟨children, ads, c₁, ⟨not_lt.1 hd, hs, hne, psz, csz, hp, hc, hshr⟩, ha, rfl⟩
  · rintro ⟨children, ads, c₁, ⟨hd, hs, hne, psz, csz, hp, hc, hshr⟩, ha, rfl⟩
    exact ⟨(), c, ⟨not_lt.2 hd, rfl⟩, children, c, ⟨hs, rfl⟩, (), c, ⟨hne, rfl⟩, psz, c, ⟨hp, rfl⟩,
      csz, c, ⟨hc, rfl⟩, (), c, ⟨hshr, rfl⟩, ads, c₁, ha, rfl⟩

theorem handleSplit_error {cfg : Config σ K H R E} {w : Hooks P K H E} {policy : SplitPolicy P E}
    {ad : Admitted P K H} {e : Fault K H E} {c c' : Coord P K H R E}
    (h : handleSplit cfg w policy ad c = .error e c') : c.SameSchedule c' := by
  simp only [handleSplit, EStateM.bind_error, raiseIf_ok, raiseIf_error, call_ok, call_error,
    EStateM.modify_error, and_false, exists_false, or_false] at h
  rcases h with ⟨-, -, rfl⟩ | ⟨_, _, ⟨-, rfl⟩, ⟨_, -, -, rfl⟩ | ⟨_, _, ⟨-, rfl⟩, ⟨-, -, rfl⟩ |
    ⟨_, _, ⟨-, rfl⟩, ⟨_, -, -, rfl⟩ | ⟨_, _, ⟨-, rfl⟩, ⟨_, -, -, rfl⟩ | ⟨_, _, ⟨-, rfl⟩,
    ⟨-, -, rfl⟩ | ⟨_, _, ⟨-, rfl⟩, h⟩⟩⟩⟩⟩⟩
  all_goals first | exact .rfl' _ | exact admitAll_error h

/-! ## Routing -/

/-- A split either happens or is reported; it leaves the schedule alone when it
    fails. -/
theorem splitOrFatal_cases {cfg : Config σ K H R E} {w : Hooks P K H E} {policy : SplitPolicy P E}
    {ad : Admitted P K H} {c c' : Coord P K H R E} {o : Option (Fault K H E)}
    (h : splitOrFatal cfg w policy ad c = .ok o c') :
    (o = none ∧ handleSplit cfg w policy ad c = .ok () c') ∨
      ∃ reason, o = some (.splitFatal reason) ∧ c.SameSchedule c' := by
  simp only [splitOrFatal, EStateM.tryCatch_ok, EStateM.bind_ok, EStateM.bind_error,
    EStateM.pure_ok, EStateM.pure_error, and_false, exists_false, or_false] at h
  rcases h with ⟨_, _, h, rfl, rfl⟩ | ⟨e, c₁, h, h'⟩
  · exact Or.inl ⟨rfl, h⟩
  · cases e with
    | splitFatal reason =>
      simp only [EStateM.pure_ok] at h'
      obtain ⟨rfl, rfl⟩ := h'; exact Or.inr ⟨reason, rfl, handleSplit_error h⟩
    | _ => simp at h'

theorem splitOrFatal_error {cfg : Config σ K H R E} {w : Hooks P K H E} {policy : SplitPolicy P E}
    {ad : Admitted P K H} {c c' : Coord P K H R E} {e : Fault K H E}
    (h : splitOrFatal cfg w policy ad c = .error e c') : c.SameSchedule c' := by
  simp only [splitOrFatal, EStateM.tryCatch_error, EStateM.bind_error, EStateM.pure_error,
    and_false, exists_false, or_false] at h
  obtain ⟨e', c₁, h, h'⟩ := h
  cases e' with
  | splitFatal reason => simp at h'
  | _ =>
    simp only [EStateM.throw_error] at h'
    obtain ⟨-, rfl⟩ := h'; exact handleSplit_error h

/-- `ad` joins the heap after its `n`-th transient failure. -/
@[simps]
def Coord.requeue (c : Coord P K H R E) (ad : Admitted P K H) (n : ℕ) (readyAt : PyFloat) :
    Coord P K H R E :=
  { c with
    transientAttempts := Function.update c.transientAttempts ad.contentKey n
    delayed := heappush ⟨readyAt, c.seqCounter, ad⟩ c.delayed
    seqCounter := c.seqCounter + 1
    transientRetries := c.transientRetries + 1 }

/-- What `retryTransient` asks of a requeue, and its result. -/
structure Requeued (cfg : Config σ K H R E) (w : World P K H E) (ad : Admitted P K H) (exc : E)
    (c c' : Coord P K H R E) : Prop where
  budget : ((c.transientAttempts ad.contentKey + 1 : ℕ) : ℤ) < cfg.retry.maxAttempts
  eq : ∃ server hint backoff, w.serverDelay exc = .ok server ∧
    serverHint cfg ad.contentKey server = .ok hint ∧
    backoffDelay cfg.floatMax cfg.retry (c.transientAttempts ad.contentKey + 1) w.uniform =
      some backoff ∧
    c' = c.requeue ad (c.transientAttempts ad.contentKey + 1)
      (PyFloat.addTo w.monotonic (PyFloat.max backoff hint))

theorem retryTransient_cases {cfg : Config σ K H R E} {w : World P K H E} {ad : Admitted P K H}
    {exc : E} {c c' : Coord P K H R E} {o : Option (Fault K H E)}
    (h : retryTransient cfg w ad exc c = .ok o c') :
    (o = none ∧ Requeued cfg w ad exc c c') ∨ o ≠ none ∧ c.SameSchedule c' := by
  simp only [retryTransient, EStateM.bind_ok, EStateM.get_ok, EStateM.modify_ok] at h
  obtain ⟨_, _, ⟨rfl, rfl⟩, _, c₁, rfl, h⟩ := h
  split at h
  · rename_i hn
    simp only [EStateM.bind_ok, call_ok] at h
    obtain ⟨server, _, ⟨hs, rfl⟩, h⟩ := h
    cases hh : serverHint cfg ad.contentKey server with
    | error reason =>
      simp only [hh, EStateM.pure_ok] at h
      obtain ⟨rfl, rfl⟩ := h; exact Or.inr ⟨by simp, _, _, rfl⟩
    | ok hint =>
      simp only [hh] at h
      cases hb : backoffDelay cfg.floatMax cfg.retry (c.transientAttempts ad.contentKey + 1)
          w.uniform with
      | none => simp [hb] at h
      | some backoff =>
        simp only [hb, EStateM.bind_ok, EStateM.modify_ok, EStateM.pure_ok] at h
        obtain ⟨_, _, rfl, rfl, rfl⟩ := h
        exact Or.inl ⟨rfl, hn, server, hint, backoff, hs, hh, hb, rfl⟩
  · simp only [EStateM.pure_ok] at h
    obtain ⟨rfl, rfl⟩ := h; exact Or.inr ⟨by simp, _, _, rfl⟩

theorem retryTransient_error {cfg : Config σ K H R E} {w : World P K H E} {ad : Admitted P K H}
    {exc : E} {c c' : Coord P K H R E} {e : Fault K H E}
    (h : retryTransient cfg w ad exc c = .error e c') : c.SameSchedule c' := by
  simp only [retryTransient, EStateM.bind_error, EStateM.get_ok, EStateM.get_error,
    EStateM.modify_ok, EStateM.modify_error, false_or] at h
  obtain ⟨_, _, ⟨rfl, rfl⟩, _, _, rfl, h⟩ := h
  split at h
  · simp only [EStateM.bind_error, call_ok, call_error] at h
    rcases h with ⟨_, -, -, rfl⟩ | ⟨server, _, ⟨-, rfl⟩, h⟩
    · exact ⟨_, _, rfl⟩
    · cases hh : serverHint cfg ad.contentKey server with
      | error reason => simp [hh] at h
      | ok hint =>
        simp only [hh] at h
        cases hb : backoffDelay cfg.floatMax cfg.retry (c.transientAttempts ad.contentKey + 1)
            w.uniform with
        | none =>
          simp only [hb, EStateM.throw_error] at h
          rw [← h.2]; exact ⟨_, _, rfl⟩
        | some backoff =>
          simp only [hb, EStateM.bind_error, EStateM.modify_error, EStateM.pure_error, and_false,
            exists_false, or_false] at h
  · simp at h

/-- `ad` leaves the terminal set, its children `ads` join it and the ready queue. -/
@[simps]
def Coord.splitInto (c : Coord P K H R E) (ad : Admitted P K H) (ads : List (Admitted P K H)) :
    Coord P K H R E :=
  { c with
    liveMap := setAll c.liveMap ads
    terminalKeys := c.terminalKeys.erase ad.contentKey ∪ (ads.map (·.contentKey)).toFinset
    terminalHash := setAll (Function.update c.terminalHash ad.contentKey none) ads
    ready := c.ready ++ ads
    splits := c.splits + 1 }

theorem register_replace (c : Coord P K H R E) (ad : Admitted P K H)
    (ads : List (Admitted P K H)) :
    (c.register ads).replace ad.contentKey ads = c.splitInto ad ads := by
  rw [Coord.replace, foldl_place]; rfl

/-- `ad` is split into `ads`. -/
structure SplitInto (cfg : Config σ K H R E) (w : Hooks P K H E) (exc : E) (ad : Admitted P K H)
    (ads : List (Admitted P K H)) (c c' : Coord P K H R E) : Prop where
  admitted : ∃ policy items, WantsSplit w exc ad policy ∧ Splittable cfg w policy ad items ∧
    List.Forall₂ (AdmittedAs w (ad.depth + 1)) items ads
  nodup : (ads.map (·.contentKey)).Nodup
  fresh : ∀ a ∈ ads, c.liveMap a.contentKey = none
  eq : c' = c.splitInto ad ads

theorem splitInto_of_handleSplit {cfg : Config σ K H R E} {w : Hooks P K H E}
    {policy : SplitPolicy P E} {exc : E} {ad : Admitted P K H} {c c' : Coord P K H R E}
    (hw : WantsSplit w exc ad policy) (h : handleSplit cfg w policy ad c = .ok () c') :
    ∃ ads, SplitInto cfg w exc ad ads c c' := by
  obtain ⟨items, ads, c₁, hs, ha, rfl⟩ := handleSplit_ok.1 h
  obtain ⟨has, hnd, hfr, rfl⟩ := admitAll_ok ha
  exact ⟨ads, ⟨policy, items, hw, hs, has⟩, hnd, hfr, register_replace c ad ads⟩

/-- What routing does when it reports no fatal error: a split, tried first, or
    a delayed requeue of an exception that is neither an OOM nor to be split. -/
theorem routeException_none {cfg : Config σ K H R E} {w : World P K H E} {ad : Admitted P K H}
    {exc : E} {c c' : Coord P K H R E} (h : routeException cfg w ad exc c = .ok none c') :
    (∃ ads, SplitInto cfg w.toHooks exc ad ads c c') ∨
      (w.isOom exc = .ok false ∧ NoSplit w.toHooks exc ad ∧ w.isTransient exc = .ok true ∧
        Requeued cfg w ad exc c c') := by
  simp only [routeException, EStateM.bind_ok, call_ok] at h
  obtain ⟨oom, _, ⟨ho, rfl⟩, h⟩ := h
  cases oom with
  | true =>
    simp only [if_true, EStateM.bind_ok, wantsSplit_ok] at h
    obtain ⟨_, _, ⟨rfl, ⟨policy, rfl, hw⟩ | ⟨rfl, -⟩⟩, h⟩ := h
    · rcases splitOrFatal_cases h with ⟨-, h⟩ | ⟨_, h, -⟩
      · exact Or.inl (splitInto_of_handleSplit hw h)
      · cases h
    · simp at h
  | false =>
    simp only [Bool.false_eq_true, if_false, EStateM.bind_ok, wantsSplit_ok] at h
    obtain ⟨_, _, ⟨rfl, ⟨policy, rfl, hw⟩ | ⟨rfl, hn⟩⟩, h⟩ := h
    · rcases splitOrFatal_cases h with ⟨-, h⟩ | ⟨_, h, -⟩
      · exact Or.inl (splitInto_of_handleSplit hw h)
      · cases h
    · simp only [EStateM.bind_ok, call_ok] at h
      obtain ⟨tr, _, ⟨ht, rfl⟩, h⟩ := h
      cases tr with
      | false => simp at h
      | true =>
        rcases retryTransient_cases h with ⟨-, hr⟩ | ⟨h, -⟩
        · exact Or.inr ⟨ho, hn, ht, hr⟩
        · exact absurd rfl h

/-- Routing that reports a fatal error leaves the schedule alone. -/
theorem routeException_some {cfg : Config σ K H R E} {w : World P K H E} {ad : Admitted P K H}
    {exc : E} {c c' : Coord P K H R E} {fault : Fault K H E}
    (h : routeException cfg w ad exc c = .ok (some fault) c') : c.SameSchedule c' := by
  simp only [routeException, EStateM.bind_ok, call_ok] at h
  obtain ⟨oom, _, ⟨-, rfl⟩, h⟩ := h
  cases oom with
  | true =>
    simp only [if_true, EStateM.bind_ok, wantsSplit_ok] at h
    obtain ⟨_, _, ⟨rfl, ⟨policy, rfl, -⟩ | ⟨rfl, -⟩⟩, h⟩ := h
    · rcases splitOrFatal_cases h with ⟨h, -⟩ | ⟨_, -, h⟩
      · cases h
      · exact h
    · simp only [EStateM.pure_ok] at h; rw [h.2]; exact .rfl' _
  | false =>
    simp only [Bool.false_eq_true, if_false, EStateM.bind_ok, wantsSplit_ok] at h
    obtain ⟨_, _, ⟨rfl, ⟨policy, rfl, -⟩ | ⟨rfl, -⟩⟩, h⟩ := h
    · rcases splitOrFatal_cases h with ⟨h, -⟩ | ⟨_, -, h⟩
      · cases h
      · exact h
    · simp only [EStateM.bind_ok, call_ok] at h
      obtain ⟨tr, _, ⟨-, rfl⟩, h⟩ := h
      cases tr with
      | false =>
        simp only [Bool.false_eq_true, if_false, EStateM.pure_ok] at h
        rw [h.2]; exact .rfl' _
      | true =>
        rcases retryTransient_cases h with ⟨h, -⟩ | ⟨-, h⟩
        · cases h
        · exact h

/-- So does routing that raises. -/
theorem routeException_error {cfg : Config σ K H R E} {w : World P K H E} {ad : Admitted P K H}
    {exc : E} {c c' : Coord P K H R E} {fault : Fault K H E}
    (h : routeException cfg w ad exc c = .error fault c') : c.SameSchedule c' := by
  simp only [routeException, EStateM.bind_error, call_ok, call_error] at h
  rcases h with ⟨_, -, -, rfl⟩ | ⟨oom, _, ⟨-, rfl⟩, h⟩
  · exact .rfl' _
  cases oom with
  | true =>
    simp only [if_true, EStateM.bind_error, wantsSplit_ok] at h
    rcases h with h | ⟨_, _, ⟨rfl, ⟨policy, rfl, -⟩ | ⟨rfl, -⟩⟩, h⟩
    · rw [wantsSplit_error h]; exact .rfl' _
    · exact splitOrFatal_error h
    · simp at h
  | false =>
    simp only [Bool.false_eq_true, if_false, EStateM.bind_error, wantsSplit_ok] at h
    rcases h with h | ⟨_, _, ⟨rfl, ⟨policy, rfl, -⟩ | ⟨rfl, -⟩⟩, h⟩
    · rw [wantsSplit_error h]; exact .rfl' _
    · exact splitOrFatal_error h
    · simp only [EStateM.bind_error, call_ok, call_error] at h
      rcases h with ⟨_, -, -, rfl⟩ | ⟨tr, _, ⟨-, rfl⟩, h⟩
      · exact .rfl' _
      · cases tr with
        | false => simp at h
        | true => exact retryTransient_error h

end ResumableBatch
