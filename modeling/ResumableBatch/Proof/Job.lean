/-
  One job: pure callables, executions that succeed with a fixed result or ask
  for a split, apart from transient failures.  No run of it fails.
-/
import ResumableBatch.Proof.Interrupt
import ResumableBatch.Proof.Waits

namespace ResumableBatch

variable {P K H R E σ : Type}

/-! ## Routing, forwards -/

section
variable [DecidableEq K] {cfg : Config σ K H R E} {w : Hooks P K H E} {d : ℕ}

/-- Fresh, pairwise distinct keys are admitted. -/
theorem admitAll_fresh {its : List (CheckpointItem P)} {ads : List (Admitted P K H)}
    {c : Coord P K H R E} (has : List.Forall₂ (AdmittedAs w d) its ads)
    (hnd : (ads.map (·.contentKey)).Nodup) (hfr : ∀ a ∈ ads, c.liveMap a.contentKey = none) :
    (its.mapM fun it => admitItem w it d) c = .ok ads (c.register ads) := by
  induction has generalizing c with
  | nil => simp only [List.mapM_nil, EStateM.pure_ok]; exact ⟨trivial, rfl⟩
  | @cons it a its ads ha _ ih =>
    rw [List.map_cons, List.nodup_cons] at hnd
    have hfr' : ∀ b ∈ ads, (c.register [a]).liveMap b.contentKey = none := by
      intro b hb
      by_contra hne
      rcases (register_live c [a] b.contentKey).1 hne with h | ⟨a', ha', hk⟩
      · exact h (hfr b (List.mem_cons_of_mem _ hb))
      · rw [List.mem_singleton.1 ha'] at hk
        exact hnd.1 (hk ▸ List.mem_map_of_mem hb)
    simp only [List.mapM_cons, EStateM.bind_ok, EStateM.pure_ok]
    exact ⟨a, _, admitItem_fresh ha (hfr a List.mem_cons_self), ads, _, ih hnd.2 hfr', rfl,
      register_append c [a] ads⟩

theorem admitRoots_fresh {its : List (CheckpointItem P)} {ads : List (Admitted P K H)}
    {c : Coord P K H R E} (has : List.Forall₂ (AdmittedAs w 0) its ads)
    (hnd : (ads.map (·.contentKey)).Nodup) (hfr : ∀ a ∈ ads, c.liveMap a.contentKey = none) :
    ∃ c', admitRoots w its c = .ok () c' := by
  induction has generalizing c with
  | nil => exact ⟨c, by simp [admitRoots]⟩
  | @cons it a its ads ha _ ih =>
    rw [List.map_cons, List.nodup_cons] at hnd
    have hfr' : ∀ b ∈ ads, ((c.register [a]).place a).liveMap b.contentKey = none := by
      intro b hb
      by_contra hne
      rcases (register_live c [a] b.contentKey).1 hne with h | ⟨a', ha', hk⟩
      · exact h (hfr b (List.mem_cons_of_mem _ hb))
      · rw [List.mem_singleton.1 ha'] at hk
        exact hnd.1 (hk ▸ List.mem_map_of_mem hb)
    obtain ⟨c', h⟩ := ih hnd.2 hfr'
    refine ⟨c', ?_⟩
    simp only [admitRoots, List.forM_eq_forM, List.forM_cons, EStateM.bind_ok,
      EStateM.modify_ok] at h ⊢
    exact ⟨(), _, ⟨a, _, admitItem_fresh ha (hfr a List.mem_cons_self), rfl⟩, h⟩

/-- A split whose children are fresh is carried out. -/
theorem routeException_splits {w : World P K H E} {policy : SplitPolicy P E} {ad : Admitted P K H}
    {exc : E} {oom : Bool} {its : List (CheckpointItem P)} {ads : List (Admitted P K H)}
    {c : Coord P K H R E} (ho : w.isOom exc = .ok oom) (hw : WantsSplit w.toHooks exc ad policy)
    (hs : Splittable cfg w.toHooks policy ad its)
    (has : List.Forall₂ (AdmittedAs w.toHooks (ad.depth + 1)) its ads)
    (hnd : (ads.map (·.contentKey)).Nodup) (hfr : ∀ a ∈ ads, c.liveMap a.contentKey = none) :
    ∃ c', routeException cfg w ad exc c = .ok none c' := by
  have hh : handleSplit cfg w.toHooks policy ad c =
      .ok () ((c.register ads).replace ad.contentKey ads) :=
    handleSplit_ok.2 ⟨its, ads, _, hs, admitAll_fresh has hnd hfr, rfl⟩
  have hf : splitOrFatal cfg w.toHooks policy ad c =
      .ok none ((c.register ads).replace ad.contentKey ads) := by
    simp only [splitOrFatal, EStateM.tryCatch_ok, EStateM.bind_ok, EStateM.pure_ok]
    exact Or.inl ⟨(), _, hh, trivial, rfl⟩
  have hws : wantsSplit w.toHooks exc ad c = .ok (some policy) c :=
    wantsSplit_ok.2 ⟨rfl, Or.inl ⟨policy, rfl, hw⟩⟩
  refine ⟨(c.register ads).replace ad.contentKey ads, ?_⟩
  rw [routeException, EStateM.bind_ok]
  refine ⟨oom, c, call_ok.2 ⟨ho, rfl⟩, ?_⟩
  cases oom <;> simp only [Bool.false_eq_true, if_true, if_false, EStateM.bind_ok] <;>
    exact ⟨_, c, hws, hf⟩

/-- A transient failure within its budget is requeued. -/
theorem routeException_requeues {w : World P K H E} {ad : Admitted P K H} {exc : E}
    {server : Option PyFloat} {hint backoff : PyFloat} {c : Coord P K H R E}
    (ho : w.isOom exc = .ok false) (hn : NoSplit w.toHooks exc ad)
    (ht : w.isTransient exc = .ok true)
    (hbud : ((c.transientAttempts ad.contentKey + 1 : ℕ) : ℤ) < cfg.retry.maxAttempts)
    (hs : w.serverDelay exc = .ok server) (hh : serverHint cfg ad.contentKey server = .ok hint)
    (hb : backoffDelay cfg.floatMax cfg.retry (c.transientAttempts ad.contentKey + 1) w.uniform =
      some backoff) : ∃ c', routeException cfg w ad exc c = .ok none c' := by
  have hfail : TransientFailure cfg w ad exc _ c := ⟨ho, hn, ht, rfl, hbud⟩
  exact ⟨_, by rw [hfail.route hs, hh, hb]⟩

end

/-! ## The executions of a job -/

/-- The exception goes to the transient branch. -/
def Hooks.isRetried (w : Hooks P K H E) (exc : E) (ad : Admitted P K H) : Bool :=
  (match w.isOom exc with
    | .ok false => true
    | _ => false) &&
  (match w.splitPolicy with
    | none => true
    | some policy =>
      match policy.shouldSplit exc ad.item with
      | .ok false => true
      | _ => false) &&
  match w.isTransient exc with
  | .ok true => true
  | _ => false

theorem Hooks.isRetried_iff {w : Hooks P K H E} {exc : E} {ad : Admitted P K H} :
    w.isRetried exc ad = true ↔
      w.isOom exc = .ok false ∧ NoSplit w exc ad ∧ w.isTransient exc = .ok true := by
  rw [Hooks.isRetried, Bool.and_eq_true, Bool.and_eq_true, and_assoc]
  refine and_congr ?_ (and_congr ?_ ?_)
  · rcases w.isOom exc with e | (_ | _) <;> simp
  · unfold NoSplit
    cases w.splitPolicy with
    | none => simp
    | some policy =>
      have h : ∀ o : Except E Bool, (match o with
          | .ok false => true
          | _ => false) = true ↔ o = .ok false := by
        rintro (e | (_ | _)) <;> simp
      simp only [Option.some.injEq, forall_eq']
      exact h _
  · rcases w.isTransient exc with e | (_ | _) <;> simp

/-- The exception is routed to a split. -/
structure SplitsOn (cfg : Config σ K H R E) (w : Hooks P K H E) (exc : E) (ad : Admitted P K H) :
    Prop where
  isException : cfg.isException exc
  oom : ∃ oom, w.isOom exc = .ok oom
  wants : ∃ policy, WantsSplit w exc ad policy

/-- The exception is transient, with no hint of the server or a valid one. -/
structure Retries (cfg : Config σ K H R E) (w : Hooks P K H E) (exc : E) (ad : Admitted P K H) :
    Prop where
  isException : cfg.isException exc
  retried : w.isRetried exc ad = true
  hint : ∃ server hint, w.serverDelay exc = .ok server ∧
    serverHint cfg ad.contentKey server = .ok hint

/-- An execution succeeds with the payload's result or asks for a split where
    there is none, apart from transient failures. -/
def Conforming (cfg : Config σ K H R E) (w : Hooks P K H E) (result : P → Option R)
    (ad : Admitted P K H) : Except E R → Prop
  | .ok r => result ad.item.payload = some r
  | .error exc => Retries cfg w exc ad ∨ (result ad.item.payload = none ∧ SplitsOn cfg w exc ad)

section
variable [DecidableEq K]

/-- A failure of the key `k` that is routed to the transient branch. -/
def Event.fails (w : Hooks P K H E) (k : K) : Event P K H R E → Bool
  | .finish _ ad (.error exc) => ad.contentKey = k && w.isRetried exc ad
  | _ => false

def transientFailures (w : Hooks P K H E) (k : K) (tr : List (Event P K H R E)) : ℕ :=
  tr.countP (Event.fails w k)

theorem transientFailures_snoc (w : Hooks P K H E) (k : K) (tr : List (Event P K H R E))
    (ev : Event P K H R E) : transientFailures w k (tr ++ [ev]) =
      transientFailures w k tr + if ev.fails w k then 1 else 0 := by
  simp [transientFailures, List.countP_append, List.countP_singleton]

/-- The executions of a run are those of the job, and the pool takes every call. -/
structure Conforms (cfg : Config σ K H R E) (w : Hooks P K H E) (result : P → Option R)
    (tr : List (Event P K H R E)) : Prop where
  outcomes : ∀ f ad o, .finish f ad o ∈ tr → Conforming cfg w result ad o
  budget : ∀ k, transientFailures w k tr = 0 ∨
    (transientFailures w k tr : ℤ) < cfg.retry.maxAttempts
  pool : ∀ ad fault, .abort none ad fault ∉ tr

omit [DecidableEq K] in
theorem Conforming.concurrency {cfg : Config σ K H R E} {w : Hooks P K H E}
    {result : P → Option R} {ad : Admitted P K H} {o : Except E R} (n : ℤ)
    (h : Conforming cfg w result ad o) :
    Conforming { cfg with concurrency := n } w result ad o := by
  cases o with
  | ok r => exact h
  | error exc =>
    rcases h with ⟨hx, hret, hhint⟩ | ⟨hnone, hx, ho, hws⟩
    · exact Or.inl ⟨hx, hret, hhint⟩
    · exact Or.inr ⟨hnone, hx, ho, hws⟩

theorem Conforms.concurrency {cfg : Config σ K H R E} {w : Hooks P K H E} {result : P → Option R}
    {tr : List (Event P K H R E)} (n : ℤ) (h : Conforms cfg w result tr) :
    Conforms { cfg with concurrency := n } w result tr :=
  ⟨fun f ad o hf => (h.outcomes f ad o hf).concurrency n, h.budget, h.pool⟩

/-- The backoff after each transient failure of the run is a number, and neither it
    nor the hint of the server is longer than `sleep` and `wait` take. -/
structure BacksOff (cfg : Config σ K H R E) (w : Hooks P K H E) (W : Set (World P K H E))
    (tr : List (Event P K H R E)) : Prop where
  delays : ∀ k n, 0 < n → n ≤ transientFailures w k tr → ∀ w' ∈ W,
    ∃ q, backoffDelay cfg.floatMax cfg.retry n w'.uniform = some (.fin q) ∧ cfg.Takes (.fin q)
  hints : ∀ f ad exc server hint, .finish f ad (.error exc) ∈ tr → w.isRetried exc ad →
    w.serverDelay exc = .ok server → serverHint cfg ad.contentKey server = .ok hint →
    cfg.Takes hint

variable {cfg : Config σ K H R E} {w : Hooks P K H E} {W : Set (World P K H E)}
  {result : P → Option R} {tr tr' : List (Event P K H R E)}

theorem transientFailures_le (k : K) :
    transientFailures w k tr ≤ transientFailures w k (tr ++ tr') := by
  rw [transientFailures, transientFailures, List.countP_append]; omega

theorem Conforms.left (h : Conforms cfg w result (tr ++ tr')) : Conforms cfg w result tr := by
  refine ⟨fun f ad o hf => h.outcomes f ad o (List.mem_append_left _ hf), fun k => ?_,
    fun ad fault hf => h.pool ad fault (List.mem_append_left _ hf)⟩
  have hle : transientFailures w k tr ≤ transientFailures w k (tr ++ tr') := transientFailures_le k
  have hb := h.budget k
  omega

theorem BacksOff.left (h : BacksOff cfg w W (tr ++ tr')) : BacksOff cfg w W tr :=
  ⟨fun k n hn hle => h.delays k n hn (hle.trans (transientFailures_le k)),
    fun f ad exc server hint hf => h.hints f ad exc server hint (List.mem_append_left _ hf)⟩

end

/-! ## The forest of a job -/

namespace Event

/-- The item split, with its children. -/
def forks : Event P K H R E → List (Admitted P K H × List (Admitted P K H))
  | split _ ad _ children => [(ad, children)]
  | _ => []

theorem forks_parents (ev : Event P K H R E) : ev.forks.map (·.1) = ev.parents := by
  cases ev <;> rfl

theorem forks_added (ev : Event P K H R E) : ev.forks.flatMap (·.2) = ev.added := by
  cases ev <;> simp [forks, added]

end Event

/-- The nodes grown from roots by splits. -/
def grown (roots : List (Admitted P K H)) (forks : List (Admitted P K H × List (Admitted P K H))) :
    List (Admitted P K H) :=
  roots ++ forks.flatMap (·.2)

theorem nodes_grown (roots : List (Admitted P K H)) (tr : List (Event P K H R E)) :
    nodes roots tr = grown roots (tr.flatMap Event.forks) := by
  rw [nodes, grown, List.flatMap_assoc]
  simp only [Event.forks_added]

/-- The roots and splits of a complete run of the job: exactly the items without
    a result are split, and every node descends from the roots. -/
structure Forest (cfg : Config σ K H R E) (w : Hooks P K H E) (result : P → Option R)
    (roots : List (Admitted P K H)) (forks : List (Admitted P K H × List (Admitted P K H))) :
    Prop where
  nodup : ((grown roots forks).map (·.contentKey)).Nodup
  key : ∀ a ∈ grown roots forks, w.contentKeyFn a.item.payload = .ok (a.contentKey, a.payloadHash)
  parents : (forks.map (·.1)).Nodup
  split : ∀ p ∈ forks, ∃ policy its, w.splitPolicy = some policy ∧ Splittable cfg w policy p.1 its ∧
    List.Forall₂ (AdmittedAs w (p.1.depth + 1)) its p.2
  no_result : ∀ p ∈ forks, result p.1.item.payload = none
  complete : ∀ a ∈ grown roots forks, result a.item.payload = none → ∃ cs, (a, cs) ∈ forks
  descends : ∀ S : Admitted P K H → Prop, (∀ a ∈ roots, S a) →
    (∀ p ∈ forks, S p.1 → ∀ a ∈ p.2, S a) → ∀ a ∈ grown roots forks, S a

theorem Forest.concurrency {cfg : Config σ K H R E} {w : Hooks P K H E} {result : P → Option R}
    {roots : List (Admitted P K H)} {forks : List (Admitted P K H × List (Admitted P K H))} {n : ℤ}
    (h : Forest { cfg with concurrency := n } w result roots forks) :
    Forest cfg w result roots forks := by
  refine ⟨h.nodup, h.key, h.parents, fun p hp => ?_, h.no_result, h.complete, h.descends⟩
  obtain ⟨policy, its, hw, ⟨hd, hs, hne, hsz⟩, has⟩ := h.split p hp
  exact ⟨policy, its, hw, ⟨hd, hs, hne, hsz⟩, has⟩

/-! ## Stores -/

/-- A commit returns, and makes a hit that loads the image of the result; other entries
    are left alone.  All this is asked of results as in `Q` only, and in states as in `I`,
    which these commits keep. -/
structure ResultStore.Faithful (store : ResultStore σ K H R E) (I : σ → Prop)
    (Q : K → H → R → Prop) (img : R → R) : Prop where
  ends : store.Ends
  returns : ∀ {s k h r e s'}, I s → Q k h r → store.commit s k h r e s' → e = .returned
  inv : ∀ {s k h r s'}, I s → Q k h r → store.commit s k h r .returned s' → I s'
  hit : ∀ {s k h r s'}, I s → Q k h r → store.commit s k h r .returned s' →
    store.has s' k h = .ok true
  loads : ∀ {s k h r s'}, I s → Q k h r → store.commit s k h r .returned s' →
    store.load s' k h = .ok (img r)
  has_other : ∀ {s k h k' h' r s'}, I s → Q k h r → store.commit s k h r .returned s' →
    k' ≠ k → store.has s' k' h' = store.has s k' h'
  load_other : ∀ {s k h k' h' r s'}, I s → Q k h r → store.commit s k h r .returned s' →
    k' ≠ k → store.load s' k' h' = store.load s k' h'

theorem ResultStore.Faithful.mono {store : ResultStore σ K H R E} {I : σ → Prop}
    {Q Q' : K → H → R → Prop} {img : R → R} (hst : store.Faithful I Q img)
    (hQ : ∀ k h r, Q' k h r → Q k h r) : store.Faithful I Q' img where
  ends := hst.ends
  returns hs hq := hst.returns hs (hQ _ _ _ hq)
  inv hs hq := hst.inv hs (hQ _ _ _ hq)
  hit hs hq := hst.hit hs (hQ _ _ _ hq)
  loads hs hq := hst.loads hs (hQ _ _ _ hq)
  has_other hs hq := hst.has_other hs (hQ _ _ _ hq)
  load_other hs hq := hst.load_other hs (hQ _ _ _ hq)

theorem ResultStore.Faithful.holds {store : ResultStore σ K H R E} {I : σ → Prop}
    {Q : K → H → R → Prop} {img : R → R} (h : store.Faithful I Q img) : store.Holds I Q where
  commit_hit := h.hit
  kept hs hq hhit hc hne := by rw [h.has_other hs hq hc hne.symm]; exact hhit
  inv := h.inv

/-- The result of an item of the job, under its key and hash. -/
def JobResult (w : Hooks P K H E) (result : P → Option R) (k : K) (h : H) (r : R) : Prop :=
  ∃ p, w.contentKeyFn p = .ok (k, h) ∧ result p = some r

/-- The item is a miss, or a hit that loads the image of its result. -/
def Cached (store : ResultStore σ K H R E) (result : P → Option R) (img : R → R) (s : σ)
    (a : Admitted P K H) : Prop :=
  store.has s a.contentKey a.payloadHash = .ok false ∨
    (store.has s a.contentKey a.payloadHash = .ok true ∧ ∃ r, result a.item.payload = some r ∧
      store.load s a.contentKey a.payloadHash = .ok (img r))

theorem Cached.commit {store : ResultStore σ K H R E} {I : σ → Prop} {Q : K → H → R → Prop}
    {result : P → Option R} {img : R → R} {s s' : σ} {a b : Admitted P K H} {r : R}
    (hst : store.Faithful I Q img) (hI : I s) (ha : Cached store result img s a)
    (hr : result b.item.payload = some r) (hq : Q b.contentKey b.payloadHash r)
    (hab : a.contentKey = b.contentKey → a = b)
    (hc : store.commit s b.contentKey b.payloadHash r .returned s') :
    Cached store result img s' a := by
  by_cases hk : a.contentKey = b.contentKey
  · rw [hab hk]
    exact Or.inr ⟨hst.hit hI hq hc, r, hr, hst.loads hI hq hc⟩
  · rw [Cached, hst.has_other hI hq hc hk, hst.load_other hI hq hc hk]; exact ha

/-! ## Runs of the job -/

section
variable [DecidableEq K]

/-- The call ended in a transient failure of the key `k`. -/
def Call.fails (w : Hooks P K H E) (k : K) (x : Call P K H R E) : Bool :=
  match x.state with
  | .finished (.error exc) => x.ad.contentKey = k && w.isRetried exc x.ad
  | _ => false

def Coord.pending (c : Coord P K H R E) (w : Hooks P K H E) (k : K) : ℕ :=
  c.inflight.countP (Call.fails w k)

theorem Coord.pending_take {c : Coord P K H R E} {pre post : List (Call P K H R E)}
    {x : Call P K H R E} (hi : c.inflight = pre ++ x :: post) (w : Hooks P K H E) (k : K) :
    c.pending w k =
      { c with inflight := pre ++ post }.pending w k + if x.fails w k then 1 else 0 := by
  simp only [Coord.pending, hi, List.countP_append, List.countP_cons]; omega

/-- A run of the job has met no failure and grows its forest. -/
structure OnTrack (store : ResultStore σ K H R E) (w : Hooks P K H E) (result : P → Option R)
    (img : R → R) (I : σ → Prop) (roots : List (Admitted P K H))
    (forks : List (Admitted P K H × List (Admitted P K H))) (tr : List (Event P K H R E))
    (s : State σ P K H R E) : Prop where
  healthy : s.Healthy
  inv : I s.store
  grows : ∀ p ∈ tr.flatMap Event.forks, p ∈ forks
  cached : ∀ a ∈ grown roots forks, Cached store result img s.store a
  attempts : ∀ k, s.c.transientAttempts k + s.c.pending w k ≤ transientFailures w k tr

variable {cfg : Config σ K H R E} {w : Hooks P K H E} {w' : World P K H E}
  {W : Set (World P K H E)} {result : P → Option R} {img : R → R} {I : σ → Prop}
  {roots roots' : List (Admitted P K H)} {forks : List (Admitted P K H × List (Admitted P K H))}
  {tr : List (Event P K H R E)} {ev : Event P K H R E} {s s' : State σ P K H R E}

omit [DecidableEq K] in
/-- Splits of the forest grow nodes of the forest. -/
theorem grown_subperm (hroots : roots'.Perm roots)
    {fs : List (Admitted P K H × List (Admitted P K H))}
    (hnd : (fs.map (·.1)).Nodup) (hsub : ∀ p ∈ fs, p ∈ forks) :
    (grown roots' fs).Subperm (grown roots forks) := by
  obtain ⟨l, hp, hl⟩ : fs.Subperm forks := (hnd.of_map _).subperm hsub
  exact hroots.subperm.append ⟨_, hp.flatMap_right _, hl.flatMap _⟩

/-- The children of an item that is not split yet are new. -/
theorem Forest.fresh (hF : Forest cfg w result roots forks) (hroots : roots'.Perm roots)
    (hL : Ledger roots' tr s) (hh : s.Healthy) (hg : ∀ p ∈ tr.flatMap Event.forks, p ∈ forks)
    {ad : Admitted P K H} {cs : List (Admitted P K H)} (had : ad ∈ s.c.work)
    (hcs : (ad, cs) ∈ forks) :
    (cs.map (·.contentKey)).Nodup ∧ ∀ a ∈ cs, s.c.liveMap a.contentKey = none := by
  have hparents : tr.flatMap Event.parents = (tr.flatMap Event.forks).map (·.1) := by
    rw [List.map_flatMap]; simp only [Event.forks_parents]
  have hbal : (leaves s.c tr ++ tr.flatMap Event.parents).Nodup :=
    hL.balance.nodup_iff.2 (hL.nodup.of_map _)
  -- with this split the run still grows within the forest
  have hsub : (grown roots' (tr.flatMap Event.forks ++ [(ad, cs)])).Subperm (grown roots forks) := by
    refine grown_subperm hroots ?_ ?_
    · rw [List.map_append, ← hparents, List.map_singleton, List.nodup_append]
      refine ⟨(List.nodup_append.1 hbal).2.1, by simp, fun a ha b hb => ?_⟩
      rw [List.mem_singleton.1 hb]
      exact ((List.nodup_append.1 hbal).2.2 ad (by simp [leaves, had]) a ha).symm
    · intro p hp
      rcases List.mem_append.1 hp with hp | hp
      · exact hg p hp
      · rw [List.mem_singleton.1 hp]; exact hcs
  have hnd : ((nodes roots' tr ++ cs).map (·.contentKey)).Nodup := by
    obtain ⟨l, hp, hl⟩ := hsub
    have h := (hp.map (·.contentKey)).nodup_iff.1 (hF.nodup.sublist (hl.map _))
    rw [nodes_grown, grown, List.append_assoc]
    simpa [grown] using h
  rw [List.map_append, List.nodup_append] at hnd
  refine ⟨hnd.2.1, fun a ha => ?_⟩
  by_contra hne
  obtain ⟨b, hb, hk⟩ := (hL.live hh).ne_none.1 hne
  exact hnd.2.2 _ (List.mem_map_of_mem hb) _ (List.mem_map_of_mem ha) hk

theorem OnTrack.node (hroots : roots'.Perm roots)
    (ht : OnTrack cfg.store w result img I roots forks tr s) (hL : Ledger roots' tr s)
    {a : Admitted P K H} (ha : a ∈ nodes roots' tr) : a ∈ grown roots forks := by
  have hparents : (tr.flatMap Event.forks).map (·.1) = tr.flatMap Event.parents := by
    rw [List.map_flatMap]; simp only [Event.forks_parents]
  rw [nodes_grown] at ha
  refine (grown_subperm hroots ?_ ht.grows).subset ha
  rw [hparents]
  exact (List.nodup_append.1 (hL.balance.nodup_iff.2 (hL.nodup.of_map _))).2.1

/-- Routing the exception of an ended call meets no failure. -/
theorem OnTrack.routes (hF : Forest cfg w result roots forks) (hroots : roots'.Perm roots)
    (ht : OnTrack cfg.store w result img I roots forks tr s) (hL : Ledger roots' tr s)
    (hT : Traced tr s.c) (hC : Conforms cfg w result tr) (hB : BacksOff cfg w W tr)
    (hw : w' ∈ W) (hpure : w'.toHooks = w) {f : Future} {ad : Admitted P K H} {exc : E}
    {pre post : List (Call P K H R E)}
    (hi : s.c.inflight = pre ++ ⟨f, ad, .finished (.error exc)⟩ :: post) :
    cfg.isException exc ∧
      ∃ c', routeException cfg w' ad exc { s.c with inflight := pre ++ post } = .ok none c' := by
  have hx : ⟨f, ad, .finished (.error exc)⟩ ∈ s.c.inflight := by simp [hi]
  have hwork : ad ∈ s.c.work := List.mem_append_right _ (List.mem_map_of_mem (f := (·.ad)) hx)
  subst hpure
  rcases hC.outcomes f ad _ (hT.ended _ hx _ rfl) with ⟨hexc, hret, server, hint, hsrv, hhint⟩ |
    ⟨hnone, hexc, ⟨oom, ho⟩, policy, hws⟩
  · obtain ⟨ho, hn, htr⟩ := Hooks.isRetried_iff.1 hret
    have hpend : 0 < s.c.pending w'.toHooks ad.contentKey :=
      List.countP_pos_iff.2 ⟨_, hx, by simp [Call.fails, hret]⟩
    have hatt := ht.attempts ad.contentKey
    have hbud := hC.budget ad.contentKey
    obtain ⟨q, hq, -⟩ := hB.delays ad.contentKey (s.c.transientAttempts ad.contentKey + 1) (by omega)
      (by omega) w' hw
    exact ⟨hexc, routeException_requeues ho hn htr (by push_cast; omega) hsrv hhint hq⟩
  · obtain ⟨cs, hcs⟩ := hF.complete ad (ht.node hroots hL (hL.work_node hwork)) hnone
    obtain ⟨policy', its, hp, hsp, has⟩ := hF.split _ hcs
    obtain ⟨hnd, hfr⟩ := hF.fresh hroots hL ht.healthy ht.grows hwork hcs
    have hpol : policy' = policy := Option.some.inj (hp.symm.trans hws.1)
    subst hpol
    exact ⟨hexc, routeException_splits ho hws hsp has hnd hfr⟩

/-- A run of the job does not fail. -/
theorem OnTrack.healthy_step (hF : Forest cfg w result roots forks) (hroots : roots'.Perm roots)
    (hst : cfg.store.Faithful I (JobResult w result) img)
    (ht : OnTrack cfg.store w result img I roots forks tr s)
    (hL : Ledger roots' tr s) (hT : Traced tr s.c) (hC : Conforms cfg w result (tr ++ [ev]))
    (hB : BacksOff cfg w W tr) (hw : w' ∈ W) (hpure : w'.toHooks = w) (h : Step cfg w' s ev s')
    (hlong : ev ≠ .overlong) : s'.Healthy := by
  have hroute : ∀ {f ad exc pre post},
      s.c.inflight = pre ++ ⟨f, ad, .finished (.error exc)⟩ :: post → _ :=
    fun hi => ht.routes hF hroots hL hT hC.left hB hw hpure hi
  have hresult : ∀ {f ad r pre post}, s.c.inflight = pre ++ ⟨f, ad, .finished (.ok r)⟩ :: post →
      JobResult w result ad.contentKey ad.payloadHash r := by
    intro f ad r pre post hi
    have hwork : ad ∈ s.c.work := by simp [Coord.work, hi]
    exact ⟨_, hF.key _ (ht.node hroots hL (hL.work_node hwork)),
      hC.left.outcomes f ad _ (hT.ended ⟨f, ad, .finished (.ok r)⟩ (by simp [hi]) _ rfl)⟩
  have hev : ¬ ev.halts := by
    cases h with
    | @hasRaises _ _ ad _ _ hr _ hh =>
      have hnode := ht.node hroots hL (hL.work_node (a := ad) (by simp [Coord.work, hr]))
      rcases ht.cached _ hnode with hc | ⟨hc, -⟩ <;> rw [hh] at hc <;> cases hc
    | submitRaises =>
      exact absurd (List.mem_append_right _ (List.mem_singleton_self _)) (hC.pool _ _)
    | commitRaises hi hc => cases hst.returns ht.inv (hresult hi) hc
    | commitDies hi hc => cases hst.returns ht.inv (hresult hi) hc
    | fatal hi _ hr =>
      obtain ⟨-, c', hr'⟩ := hroute hi
      rw [hr] at hr'; cases hr'
    | routeRaises hi _ hr =>
      obtain ⟨-, c', hr'⟩ := hroute hi
      rw [hr] at hr'; cases hr'
    | notCaught hi hx => exact absurd (hroute hi).1 hx
    | waitRaises | sleepRaises => exact absurd rfl hlong
    | _ => exact id
  by_contra hn
  exact hev (h.meets ht.healthy hn)

/-- An item that is split has no result. -/
theorem Step.split_none (hT : Traced tr s.c) (hC : Conforms cfg w result tr)
    (hpure : w'.toHooks = w) {f : Future} {ad : Admitted P K H} {exc : E}
    {cs : List (Admitted P K H)} (h : Step cfg w' s (.split f ad exc cs) s') :
    ad ∈ s.c.work ∧ result ad.item.payload = none ∧ SplitsOn cfg w exc ad := by
  obtain ⟨fs, pre, post, -, -, -, hi, -, ⟨policy, its, hws, -⟩, -⟩ := h.split_inv
  have hx : ⟨f, ad, .finished (.error exc)⟩ ∈ s.c.inflight := by simp [hi]
  refine ⟨List.mem_append_right _ (List.mem_map_of_mem (f := (·.ad)) hx), ?_⟩
  subst hpure
  rcases hC.outcomes f ad _ (hT.ended _ hx _ rfl) with ⟨-, hret, -⟩ | hnone
  · have hno := (Hooks.isRetried_iff.1 hret).2.1 policy hws.1
    rw [hws.2] at hno; cases hno
  · exact hnone

omit [DecidableEq K] in
theorem admitted_unique {d : ℕ} {its : List (CheckpointItem P)} {as bs : List (Admitted P K H)}
    (has : List.Forall₂ (AdmittedAs w d) its as) (hbs : List.Forall₂ (AdmittedAs w d) its bs) :
    as = bs := by
  induction has generalizing bs with
  | nil => cases hbs; rfl
  | cons ha _ ih =>
    cases hbs with
    | cons hb hbs => rw [ha.unique hb, ih hbs]

/-- The splits of the run are those of the forest. -/
theorem OnTrack.grows_step (hF : Forest cfg w result roots forks) (hroots : roots'.Perm roots)
    (ht : OnTrack cfg.store w result img I roots forks tr s) (hL : Ledger roots' tr s)
    (hT : Traced tr s.c) (hC : Conforms cfg w result tr) (hpure : w'.toHooks = w)
    (h : Step cfg w' s ev s') : ∀ p ∈ ev.forks, p ∈ forks := by
  intro p hp
  cases ev with
  | split f ad exc cs =>
    rw [List.mem_singleton.1 hp]
    obtain ⟨hwork, hnone, -⟩ := h.split_none hT hC hpure
    obtain ⟨cs', hcs'⟩ := hF.complete ad (ht.node hroots hL (hL.work_node hwork)) hnone
    obtain ⟨policy', its', hp', hsp', has'⟩ := hF.split _ hcs'
    obtain ⟨-, -, -, -, -, -, -, -, ⟨policy, its, hws, hsp, has⟩, -⟩ := h.split_inv
    subst hpure
    cases hp'.symm.trans hws.1
    cases Except.ok.inj (hsp'.split.symm.trans hsp.split)
    rw [admitted_unique has has']; exact hcs'
  | _ => cases hp

/-- A commit of the run stores the result of its item. -/
theorem Step.cached (hst : cfg.store.Faithful I (JobResult w result) img) (hL : Ledger roots' tr s)
    (hT : Traced tr s.c) (hC : Conforms cfg w result tr)
    (hkey : ∀ b ∈ nodes roots' tr, w.contentKeyFn b.item.payload = .ok (b.contentKey, b.payloadHash))
    (hh : s'.Healthy) (h : Step cfg w' s ev s') (hI : I s.store) :
    I s'.store ∧ ∀ a : Admitted P K H,
      (∀ b ∈ nodes roots' tr, a.contentKey = b.contentKey → a = b) →
      Cached cfg.store result img s.store a → Cached cfg.store result img s'.store a := by
  rcases h.store hh with ⟨he, -⟩ | ⟨f, ad, r, rfl, hc⟩
  · rw [he]; exact ⟨hI, fun a _ ha => ha⟩
  · obtain ⟨pre, post, hi, -, -⟩ := h.commit_inv
    have hx : ⟨f, ad, .finished (.ok r)⟩ ∈ s.c.inflight := by simp [hi]
    have hnode := hL.work_node (List.mem_append_right _ (List.mem_map_of_mem (f := (·.ad)) hx))
    have hres : result ad.item.payload = some r := hC.outcomes f ad _ (hT.ended _ hx _ rfl)
    have hq : JobResult w result ad.contentKey ad.payloadHash r := ⟨_, hkey ad hnode, hres⟩
    exact ⟨hst.inv hI hq hc, fun a hab ha => ha.commit hst hI hres hq (hab ad hnode) hc⟩

/-- The transient failures met so far are counted or still wait in flight. -/
theorem Step.pending (h : Step cfg w' s ev s') (hpure : w'.toHooks = w) (hh : s'.Healthy) (k : K) :
    s'.c.transientAttempts k + s'.c.pending w k ≤
      s.c.transientAttempts k + s.c.pending w k + if ev.fails w k then 1 else 0 := by
  have take : ∀ {c : Coord P K H R E} {pre post y}, c.inflight = pre ++ y :: post →
      { c with inflight := pre ++ post }.pending w k ≤ c.pending w k := by
    intro c pre post y hi
    rw [Coord.pending_take hi]; omega
  subst hpure
  rw [State.healthy_iff] at hh
  cases h with
  | submit => simp [Coord.pending, List.countP_append, Event.fails, Call.fails]
  | commit hi _ => exact Nat.add_le_add_left (take hi) _
  | split hi _ hr hs =>
    obtain ⟨ads, -, -, -, -, rfl⟩ := split_spec hr hs
    exact Nat.add_le_add_left (take hi) _
  | @requeue c _ _ f fs pre post ad exc hi _ hr hs =>
    obtain ⟨ho, hn, htr, -, _, _, _, -, -, -, rfl⟩ := requeue_spec hr hs
    have hret : w'.isRetried exc ad = true := Hooks.isRetried_iff.2 ⟨ho, hn, htr⟩
    show Function.update c.transientAttempts ad.contentKey _ k +
      { c with inflight := pre ++ post }.pending w'.toHooks k ≤
        c.transientAttempts k + c.pending w'.toHooks k + _
    rw [Coord.pending_take hi w'.toHooks k]
    by_cases hk : ad.contentKey = k
    · subst hk
      simp only [Function.update_self, Call.fails, hret, decide_true, Bool.and_self, if_true]
      omega
    · rw [Function.update_of_ne (Ne.symm hk)]
      omega
  | @finish loc c st f pre post ad o _ hi =>
    have hev : Event.fails w'.toHooks k (.finish f ad o) =
        Call.fails w'.toHooks k ⟨f, ad, .finished o⟩ := by
      cases o <;> rfl
    have hnew := Coord.pending_take (c := { c with inflight := pre ++ ⟨f, ad, .finished o⟩ :: post })
      rfl w'.toHooks k
    have hold := Coord.pending_take hi w'.toHooks k
    simp only at hnew hold ⊢
    rw [hnew, hold, hev]; omega
  | fatal => simp at hh
  | routeRaises => exact absurd trivial hh.2
  | notCaught => exact absurd trivial hh.2
  | commitRaises => exact absurd trivial hh.2
  | commitDies => exact absurd trivial hh.2
  | cancel _ hf => simp [Coord.cancel, hf] at hh
  | _ => exact Nat.le_add_right _ _

/-- A requeue is that of a call that ended in a transient failure. -/
theorem Step.requeue_call {f : Future} {ad : Admitted P K H} {exc : E}
    (h : Step cfg w' s (.requeue f ad exc) s') :
    ⟨f, ad, .finished (.error exc)⟩ ∈ s.c.inflight ∧ w'.isRetried exc ad = true := by
  generalize hev : Event.requeue f ad exc = ev at h
  cases h with
  | requeue hi _ hr hs =>
    cases hev
    obtain ⟨ho, hn, htr, -⟩ := requeue_spec hr hs
    exact ⟨by simp [hi], Hooks.isRetried_iff.2 ⟨ho, hn, htr⟩⟩
  | _ => cases hev

/-- The delay of a retry of the job can be waited for. -/
theorem OnTrack.waitable (ht : OnTrack cfg.store w result img I roots forks tr s)
    (hT : Traced tr s.c) (hB : BacksOff cfg w W tr) (hw : w' ∈ W) (hpure : w'.toHooks = w)
    (h : Step cfg w' s ev s') : Waitable cfg s (w', ev) := by
  rintro f ad exc server hint backoff he - hs hh hb
  obtain rfl : ev = .requeue f ad exc := he
  obtain ⟨hx, hret⟩ := h.requeue_call
  subst hpure
  have hpend : 0 < s.c.pending w'.toHooks ad.contentKey :=
    List.countP_pos_iff.2 ⟨_, hx, by simp [Call.fails, hret]⟩
  have hle := ht.attempts ad.contentKey
  obtain ⟨q, hq, hqt⟩ := hB.delays ad.contentKey (s.c.transientAttempts ad.contentKey + 1)
    (by omega) (by omega) w' hw
  have hht := hB.hints f ad exc server hint (hT.ended _ hx _ rfl) hret hs hh
  obtain ⟨b, rfl, -⟩ := serverHint_fin hh
  obtain rfl : backoff = .fin q := Option.some.inj (hb.symm.trans hq)
  exact ⟨max q b, PyFloat.max_fin q b, hqt.max hht⟩

/-- One step of a run of the job. -/
theorem OnTrack.step (hF : Forest cfg w result roots forks) (hroots : roots'.Perm roots)
    (hst : cfg.store.Faithful I (JobResult w result) img)
    (ht : OnTrack cfg.store w result img I roots forks tr s)
    (hL : Ledger roots' tr s) (hT : Traced tr s.c) (hC : Conforms cfg w result (tr ++ [ev]))
    (hB : BacksOff cfg w W tr) (hw : w' ∈ W) (hpure : w'.toHooks = w) (h : Step cfg w' s ev s')
    (hlong : ev ≠ .overlong) : OnTrack cfg.store w result img I roots forks (tr ++ [ev]) s' := by
  have hh := ht.healthy_step hF hroots hst hL hT hC hB hw hpure h hlong
  obtain ⟨hI, hcached⟩ := h.cached hst hL hT hC.left (fun b hb => hF.key b (ht.node hroots hL hb))
    hh ht.inv
  refine ⟨hh, hI, fun p hp => ?_, fun a ha => ?_, fun k => ?_⟩
  · rw [List.flatMap_append, List.mem_append, List.flatMap_singleton] at hp
    exact hp.elim (ht.grows p) (ht.grows_step hF hroots hL hT hC.left hpure h p)
  · exact hcached a
      (fun b hb => List.inj_on_of_nodup_map hF.nodup ha (ht.node hroots hL hb)) (ht.cached a ha)
  · have hp := h.pending hpure hh k
    have hle := ht.attempts k
    rw [transientFailures_snoc]; omega

variable {items : List (CheckpointItem P)} {st : σ} {s₀ : State σ P K H R E}

/-- A run of the job: its clock does not go back, its executions are those of the job,
    and its retries can be waited for. -/
structure JobRun (cfg : Config σ K H R E) (w : Hooks P K H E) (W : Set (World P K H E))
    (result : P → Option R) (tr : List (World P K H E × Event P K H R E)) : Prop where
  worlds : ∀ l ∈ tr, l.1 ∈ W
  clock : tr.Pairwise fun l l' => l.1.monotonic ≤ l'.1.monotonic
  conforms : Conforms cfg w result (tr.map Prod.snd)
  backsOff : BacksOff cfg w W (tr.map Prod.snd)

theorem JobRun.left {tr tr' : List (World P K H E × Event P K H R E)}
    (h : JobRun cfg w W result (tr ++ tr')) : JobRun cfg w W result tr := by
  have hC := h.conforms
  have hB := h.backsOff
  rw [List.map_append] at hC hB
  exact ⟨fun l hl => h.worlds l (List.mem_append_left _ hl), (List.pairwise_append.1 h.clock).1,
    hC.left, hB.left⟩

/-- **No run of the job fails.** -/
theorem OnTrack.run {tr : List (World P K H E × Event P K H R E)}
    (hF : Forest cfg w result roots forks) (hroots : s₀.c.ready.Perm roots)
    (hst : cfg.store.Faithful I (JobResult w result) img) (hI : I st)
    (hb : begin w items st = .ok s₀) (hr : Lts.Run cfg.timedStep s₀ tr s)
    (hpure : ∀ w' ∈ W, w'.toHooks = w)
    (hcache : ∀ a ∈ grown roots forks, Cached cfg.store result img st a)
    (hJ : JobRun cfg w W result tr) :
    OnTrack cfg.store w result img I roots forks (tr.map Prod.snd) s ∧ Due cfg tr s := by
  induction hr with
  | nil =>
    refine ⟨?_, Due.begin hb⟩
    obtain ⟨-, -, h₀⟩ := begin_ok hb
    have hstore : s₀.store = st := by rw [h₀]
    have hfatal : s₀.c.fatalExc = none := by rw [h₀]
    have hloc : s₀.loc = .head := by rw [h₀]
    have hin : s₀.c.inflight = [] := by rw [h₀]
    have hatt : s₀.c.transientAttempts = fun _ => 0 := by rw [h₀]
    refine ⟨⟨hfatal, by rw [hloc]; exact id⟩, by rw [hstore]; exact hI, by simp,
      by rw [hstore]; exact hcache, fun k => ?_⟩
    simp [hatt, Coord.pending, hin]
  | @snoc tr s l s' hr hs ih =>
    obtain ⟨ht, hdue⟩ := ih hJ.left
    have hC := hJ.conforms
    have hw : l.1 ∈ W := hJ.worlds l (by simp)
    have hT := Traced.run hb (untimed hr)
    have hlong : l.2 ≠ .overlong := Step.not_overlong hs <| hdue.taken fun l' hl' =>
      (List.pairwise_append.1 hJ.clock).2.2 l' hl' l (by simp)
    rw [List.map_append, List.map_singleton] at hC ⊢
    exact ⟨ht.step hF hroots hst (Ledger.run hb (untimed hr)).2 hT hC hJ.left.backsOff hw
        (hpure _ hw) hs hlong,
      hdue.step hs (ht.waitable hT hJ.left.backsOff hw (hpure _ hw) hs)⟩

/-- The key of a node is that of its payload. -/
theorem node_key (hb : begin w items st = .ok s₀) (hr : Lts.Run (cfg.step W) s₀ tr s)
    (hpure : ∀ w' ∈ W, w'.toHooks = w) {a : Admitted P K H} (ha : a ∈ nodes s₀.c.ready tr) :
    w.contentKeyFn a.item.payload = .ok (a.contentKey, a.payloadHash) := by
  have hkey : ∀ {d its} {as : List (Admitted P K H)}, List.Forall₂ (AdmittedAs w d) its as →
      a ∈ as → w.contentKeyFn a.item.payload = .ok (a.contentKey, a.payloadHash) := by
    intro d its as has ha
    obtain ⟨it, -, hd⟩ := has.mem_right ha
    rw [hd.item]; exact hd.key
  rcases List.mem_append.1 ha with ha | ha
  · exact hkey (begin_ok hb).1 ha
  · obtain ⟨ev, hev, ha⟩ := List.mem_flatMap.1 ha
    cases ev with
    | split f ad exc children =>
      obtain ⟨w', hw, c, c', ⟨policy, its, -, -, has⟩, -⟩ := split_of_mem hr hev
      rw [hpure w' hw] at has
      exact hkey has ha
    | _ => cases ha

/-- The store of a run of the job, as far as it meets no failure. -/
theorem cached_run {U : List (Admitted P K H)} (hU : (U.map (·.contentKey)).Nodup)
    (hst : cfg.store.Faithful I (JobResult w result) img) (hI : I st)
    (hb : begin w items st = .ok s₀) (hr : Lts.Run (cfg.step W) s₀ tr s)
    (hpure : ∀ w' ∈ W, w'.toHooks = w) (hsub : ∀ a ∈ nodes s₀.c.ready tr, a ∈ U)
    (hcache : ∀ a ∈ U, Cached cfg.store result img st a) (hC : Conforms cfg w result tr)
    (hh : s.Healthy) : I s.store ∧ ∀ a ∈ U, Cached cfg.store result img s.store a := by
  induction hr with
  | nil =>
    obtain ⟨-, -, h₀⟩ := begin_ok hb
    rw [h₀]; exact ⟨hI, hcache⟩
  | snoc hr hs ih =>
    obtain ⟨w', hw, h⟩ := hs
    have hsub' : ∀ a ∈ nodes s₀.c.ready _, a ∈ U := fun a ha =>
      hsub a (by rw [nodes_snoc]; exact List.mem_append_left _ ha)
    obtain ⟨hI', hold⟩ := ih hsub' hC.left (h.healthy_back hh).1
    obtain ⟨hI'', hcached⟩ := h.cached hst (Ledger.run hb hr).2 (Traced.run hb hr) hC.left
      (fun b hb' => node_key hb hr hpure hb') hh hI'
    exact ⟨hI'', fun a ha => hcached a
      (fun b hb => List.inj_on_of_nodup_map hU ha (hsub' b hb)) (hold a ha)⟩

end

end ResumableBatch
