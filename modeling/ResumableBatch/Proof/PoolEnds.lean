/-
  The pool never deadlocks and cannot run forever (`pool_terminates`).
-/
import ResumableBatch.Proof.Workers

namespace ResumableBatch

variable {P K H R E σ C : Type}

/-- What a thread has still to do, besides its call. -/
def Thread.weight : Thread C → ℕ
  | .starting => 3
  | .taken _ _ => 2
  | .idle _ | .busy _ _ => 1
  | .ended => 0

namespace Pool

/-- A statement that only tests, waits or reads the clock. -/
def Act.idle : Act P K H R E C → Prop
  | .coordinator .tau | .cancel | .leave => True
  | _ => False

/-- What the pool has still to do for the calls submitted so far. -/
def load (p : Pool σ P K H R E C) : ℕ :=
  2 * p.queue.length + (p.threads.map Thread.weight).sum + (p.created.length - p.torn)

/-- `run_checkpointed` has returned or raised, or the process is dead. -/
def Over (p : Pool σ P K H R E C) : Prop :=
  p.run.loc = .done ∨ (∃ fault, p.run.loc = .failed fault) ∨ p.run.loc = .dead ∨ p.escaped ≠ none

theorem load_set {p : Pool σ P K H R E C} {t : ℕ} {th : Thread C} (h : p.threads[t]? = some th)
    (th' : Thread C) : ((p.threads.set t th').map Thread.weight).sum + th.weight =
      (p.threads.map Thread.weight).sum + th'.weight := by
  obtain ⟨pre, post, he, hset⟩ := List.set_of_getElem? h
  rw [hset, he]
  simp only [List.map_append, List.map_cons, List.sum_append, List.sum_cons]
  omega

section
variable [DecidableEq K] {cfg : Config σ K H R E} {hooks : WorkerHooks E} {w : World P K H E}
  {W : Set (World P K H E)} {p p' : Pool σ P K H R E C} {act : Act P K H R E C}

/-! ## The measure -/

/-- The states of the runs of the pool. -/
def Reached (cfg : Config σ K H R E) (hooks : WorkerHooks E) (W : Set (World P K H E))
    (p : Pool σ P K H R E C) : Prop :=
  ∃ (w₀ : Hooks P K H E) (items : List (CheckpointItem P)) (st : σ) (s₀ : State σ P K H R E)
    (tr : List (Act P K H R E C)),
    begin w₀ items st = .ok s₀ ∧ Lts.Run (Pool.step cfg hooks W) (Pool.start s₀) tr p

theorem Reached.step (hp : Reached cfg hooks W p) (h : Pool.step cfg hooks W p act p') :
    Reached cfg hooks W p' := by
  obtain ⟨w₀, items, st, s₀, tr, hb, hr⟩ := hp
  exact ⟨w₀, items, st, s₀, tr ++ [act], hb, hr.snoc h⟩

theorem Reached.run (hp : Reached cfg hooks W p) : p.Ok cfg ∧ Reachable cfg W p.run := by
  obtain ⟨w₀, items, st, s₀, tr, hb, hr⟩ := hp
  obtain ⟨hok, hrun⟩ := pool_refines hb hr
  exact ⟨hok, w₀, items, st, s₀, _, hb, hrun⟩

/-- The rank of the coordinator, then the load of its pool. -/
noncomputable def measure (cfg : Config σ K H R E) (p : Pool σ P K H R E C) :
    (ℕ × Multiset Weight) × ℕ :=
  (p.run.measure cfg, p.load)

def Lower : (ℕ × Multiset Weight) × ℕ → (ℕ × Multiset Weight) × ℕ → Prop :=
  Prod.Lex (Relation.TransGen ResumableBatch.Lower) (· < ·)

theorem lower_wf : WellFounded Lower :=
  WellFounded.prod_lex ResumableBatch.lower_wf.transGen wellFounded_lt

/-- A run in which no step is idle lowers the measure. -/
theorem Reachable.run_lower {s s' : State σ P K H R E} {tr : List (Event P K H R E)}
    (hs : Reachable cfg W s) (hr : Lts.Run (cfg.step W) s tr s') (htr : ∀ ev ∈ tr, ev ≠ .tau) :
    Reachable cfg W s' ∧ (s'.measure cfg = s.measure cfg ∨
      Relation.TransGen ResumableBatch.Lower (s'.measure cfg) (s.measure cfg)) := by
  induction hr with
  | nil => exact ⟨hs, Or.inl rfl⟩
  | snoc _ h ih =>
    obtain ⟨h₁, hm⟩ := ih fun ev hev => htr ev (List.mem_append_left _ hev)
    have hlow := h₁.lower h (htr _ (by simp))
    refine ⟨h₁.step h, Or.inr ?_⟩
    rcases hm with hm | hm
    · rw [hm] at hlow; exact .single hlow
    · exact .head hlow hm

/-- A step that is not idle moves an item, ends a call, or lowers the load. -/
theorem Step.load_lt (h : Step cfg hooks w p act p') (hact : ¬ act.idle) :
    (∃ ev, act.events hooks.brokenPool = [ev] ∧ ev ≠ .tau) ∨
      p'.load < p.load ∧ ∀ ev ∈ act.events hooks.brokenPool, ev ≠ .tau := by
  cases h with
  | @coordinator ev =>
    refine Or.inl ⟨ev, rfl, ?_⟩
    rintro rfl
    exact hact trivial
  | submit => exact Or.inl ⟨_, rfl, by simp⟩
  | refused => exact Or.inl ⟨_, rfl, by simp⟩
  | ends => exact Or.inl ⟨_, rfl, by simp⟩
  | cancel | leave => exact absurd trivial hact
  | @setup t ctx _ ht _ =>
    refine Or.inr ⟨?_, by simp [Act.events]⟩
    have := load_set ht (.idle ctx)
    simp only [load, List.length_append, List.length_singleton, Thread.weight] at this ⊢
    omega
  | @setupRaises t _ ht _ =>
    have hev : ∀ ev ∈ (Act.setupRaises t (p.run.c.unended p.queue) : Act P K H R E C).events
        hooks.brokenPool, ev ≠ .tau := fun ev hev => by
      obtain ⟨x, -, rfl⟩ := List.mem_map.1 hev
      simp
    refine Or.inr ⟨?_, hev⟩
    have := load_set ht .ended
    simp only [load, List.length_nil, Thread.weight] at this ⊢
    omega
  | @take t ctx f pre post _ ht hq =>
    refine Or.inr ⟨?_, by simp [Act.events]⟩
    have := load_set ht (.taken ctx f)
    simp only [load, hq, List.length_append, List.length_cons, Thread.weight] at this ⊢
    omega
  | @start t ctx f ad _ ht _ =>
    refine Or.inr ⟨?_, by simp [Act.events]⟩
    have := load_set ht (.busy ctx f)
    simp only [load, Thread.weight] at this ⊢
    omega
  | @skip t ctx f ad _ ht _ =>
    refine Or.inr ⟨?_, by simp [Act.events]⟩
    have := load_set ht (.idle ctx)
    simp only [load, Thread.weight] at this ⊢
    omega
  | exit _ ht _ =>
    refine Or.inr ⟨?_, by simp [Act.events]⟩
    have := load_set ht .ended
    simp only [load, Thread.weight] at this ⊢
    omega
  | teardown _ _ _ _ hc | teardownEscapes _ _ _ _ hc =>
    refine Or.inr ⟨?_, by simp [Act.events]⟩
    have := (List.getElem?_eq_some_iff.1 hc).1
    simp only [load]
    omega

theorem Reached.lower (hp : Reached cfg hooks W p) (h : Pool.step cfg hooks W p act p')
    (hact : ¬ act.idle) : Lower (p'.measure cfg) (p.measure cfg) := by
  obtain ⟨hok, hreach⟩ := hp.run
  have hsim := hok.simulate h
  obtain ⟨w, hw, h⟩ := h
  rcases h.load_lt hact with ⟨ev, hev, hne⟩ | ⟨hlt, hev⟩
  · rw [hev] at hsim
    exact .left _ _ (.single (hreach.lower hsim.of_single hne))
  · rcases (Reachable.run_lower hreach hsim hev).2 with hm | hm
    · rw [measure, measure, hm]
      exact .right _ hlt
    · exact .left _ _ hm

theorem Reached.measure_idle (hp : Reached cfg hooks W p) (h : Pool.step cfg hooks W p act p')
    (hact : act.idle) : p'.measure cfg = p.measure cfg := by
  obtain ⟨hok, -⟩ := hp.run
  have hsim := hok.simulate h
  obtain ⟨w, hw, h⟩ := h
  have key : act.events hooks.brokenPool = [.tau] → p'.load = p.load →
      p'.measure cfg = p.measure cfg := fun he hl => by
    rw [he] at hsim
    obtain ⟨w, -, hs⟩ := hsim.of_single
    rw [measure, measure, hl, hs.measure_idle]
  cases h with
  | @coordinator ev =>
    cases ev with
    | tau => exact key rfl rfl
    | _ => exact hact.elim
  | cancel | leave => exact key rfl rfl
  | _ => exact hact.elim

/-! ## The way on -/

/-- The run is over, or after some idle steps there is one that is not idle. -/
inductive Onward (cfg : Config σ K H R E) (hooks : WorkerHooks E) (W : Set (World P K H E)) :
    Pool σ P K H R E C → Prop where
  | over {a} : Over a → Onward cfg hooks W a
  | idle {a e b} : Pool.step cfg hooks W a e b → e.idle → Onward cfg hooks W b → Onward cfg hooks W a
  | act {a e b} : Pool.step cfg hooks W a e b → ¬ e.idle → Onward cfg hooks W a

/-- A thread goes on, unless it has ended or waits for a call. -/
theorem Ok.thread_onward (hp : p.Ok cfg) (hw : w ∈ W) (hd : p.run.loc ≠ .dead) {th : Thread C}
    (hm : th ∈ p.threads) (hne : th ≠ .ended)
    (hq : p.queue ≠ [] ∨ p.run.loc.inFinally ∨ th.pending ≠ [] ∨ th.executing ≠ []) :
    Onward cfg hooks W p := by
  obtain ⟨t, ht⟩ := List.mem_iff_getElem?.1 hm
  cases th with
  | starting => exact .act ⟨w, hw, .setup hd ht fun _ => rfl⟩ id
  | ended => exact absurd rfl hne
  | taken ctx f =>
    have hf : f ∈ p.pending := List.mem_append_right _
      (List.mem_flatMap.2 ⟨_, hm, by simp [Thread.pending]⟩)
    obtain ⟨ad, hx | hx⟩ := hp.pending f hf
    · exact .act ⟨w, hw, .start hd ht hx⟩ id
    · exact .act ⟨w, hw, .skip hd ht hx⟩ id
  | busy ctx f =>
    obtain ⟨ad, hx⟩ := hp.busy f (List.mem_flatMap.2 ⟨_, hm, by simp [Thread.executing]⟩)
    obtain ⟨pre, post, hi⟩ := List.append_of_mem hx
    exact .act ⟨w, hw, .ends (.error hooks.brokenPool) hd ht hi⟩ id
  | idle ctx =>
    by_cases hnil : p.queue = []
    · rcases hq with hq | hq | hq
      · exact absurd hnil hq
      · exact .act ⟨w, hw, .exit hq ht hnil⟩ id
      · exact absurd rfl (hq.elim id id)
    · obtain ⟨f, rest, hq⟩ := List.exists_cons_of_ne_nil hnil
      exact .act ⟨w, hw, .take hd ht (show p.queue = [] ++ f :: rest from hq)⟩ id

/-- A call that is still to end is held by a thread, or by the queue of a live pool. -/
theorem Ok.call_onward (hp : p.Ok cfg) (hw : w ∈ W) (hd : p.run.loc ≠ .dead) {x : Call P K H R E}
    (hx : x ∈ p.run.c.inflight) (hrun : x.state = .running) : Onward cfg hooks W p := by
  obtain ⟨f, ad, _⟩ := x
  cases hrun
  have held : ∀ g : Thread C → List Future, f ∈ p.threads.flatMap g →
      (∀ th, g th ≠ [] → th ≠ .ended ∧ (th.pending ≠ [] ∨ th.executing ≠ [])) →
      Onward cfg hooks W p := by
    intro g hf hg
    obtain ⟨th, hm, hf⟩ := List.mem_flatMap.1 hf
    obtain ⟨hne, hth⟩ := hg th (List.ne_nil_of_mem hf)
    exact hp.thread_onward hw hd hm hne (Or.inr (Or.inr hth))
  rcases List.mem_append.1 (hp.running f ad hx) with hq | hb
  · rcases List.mem_append.1 hq with hq | ht
    swap
    · refine held Thread.pending ht fun th hth => ⟨?_, Or.inl hth⟩
      rintro rfl
      exact hth rfl
    have hne : p.queue ≠ [] := List.ne_nil_of_mem hq
    obtain ⟨th, ths, hth⟩ := List.exists_cons_of_ne_nil (hp.staffed hne)
    have hm : th ∈ p.threads := by simp [hth]
    refine hp.thread_onward hw hd hm ?_ (Or.inl hne)
    rintro rfl
    exact hne (hp.ended hm).1
  · refine held Thread.executing hb fun th hth => ⟨?_, Or.inr hth⟩
    rintro rfl
    exact hth rfl

/-- The `finally` comes to its end. -/
theorem Ok.finally_onward (hp : p.Ok cfg) (ht : p.torn ≤ p.created.length) (hw : w ∈ W)
    (hl : p.run.loc.inFinally) : Onward cfg hooks W p := by
  have hd : p.run.loc ≠ .dead := fun h => by rw [h] at hl; cases hl
  by_cases hall : ∀ x ∈ p.threads, x = .ended
  · by_cases hesc : p.escaped = none
    · by_cases hmore : hooks.hasTeardown ∧ p.torn < p.created.length
      · exact .act ⟨w, hw, .teardown hl hall hesc hmore.1 (List.getElem?_eq_getElem hmore.2)⟩ id
      · refine .idle ⟨w, hw, .leave hl hall hesc fun h => ?_⟩ trivial (.over ?_)
        · exact ht.antisymm (not_lt.1 fun hlt => hmore ⟨h, hlt⟩)
        · cases hloc : p.run.loc with
          | shutdown exc =>
            cases exc with
            | none => exact Or.inl rfl
            | some fault => exact Or.inr (Or.inl ⟨fault, rfl⟩)
          | _ => rw [hloc] at hl; cases hl
    · exact .over (Or.inr (Or.inr (Or.inr hesc)))
  · push Not at hall
    obtain ⟨th, hm, hne⟩ := hall
    exact hp.thread_onward hw hd hm hne (Or.inr (Or.inl hl))

/-- A miss is submitted, or refused by a broken pool. -/
theorem submit_onward (hw : w ∈ W) {ad : Admitted P K H} {rest : List (Admitted P K H)}
    (hl : p.run.loc = .dispatch) (hr : p.run.c.ready = ad :: rest)
    (hlt : p.run.c.inflight.length < cfg.maxWorkers)
    (hh : cfg.store.has p.run.store ad.contentKey ad.payloadHash = .ok false) :
    ∃ act p', Pool.step cfg hooks W p act p' ∧ ¬ act.idle := by
  obtain ⟨⟨loc, c, st⟩, queue, threads, created, broken, torn, escaped⟩ := p
  subst hl
  by_cases hb : broken
  · exact ⟨_, _, ⟨w, hw, .refused hb (.submitRaises hr hlt hh)⟩, id⟩
  · refine ⟨_, _, ⟨w, hw, .submit (decide (threads = [])) hb (.submit hr hlt hh) ?_ ?_⟩, id⟩
    · intro hnil
      rw [decide_eq_true_eq] at hnil
      rw [hnil, Config.maxWorkers, List.length_nil]
      omega
    · exact fun hnil => decide_eq_true hnil

/-- A step of the coordinator is one of the pool, or a call is submitted or refused. -/
theorem lift (hw : w ∈ W) {ev : Event P K H R E} {s' : State σ P K H R E}
    (hl : ¬ p.run.loc.inFinally) (hf : ev = .tau → p.run.loc = .head → p.run.c.fatalExc = none)
    (h : ResumableBatch.Step cfg w p.run ev s') (hev : ∀ f ad o, ev ≠ .finish f ad o) :
    Pool.step cfg hooks W p (.coordinator ev) { p with run := s' } ∨
      ev ≠ .tau ∧ ∃ act p', Pool.step cfg hooks W p act p' ∧ ¬ act.idle := by
  by_cases hi : ev.isInternal
  · exact Or.inl ⟨w, hw, .coordinator hl h hi (h.inflight_sublist hi hf)⟩
  · refine Or.inr ⟨?_, ?_⟩
    · rintro rfl
      exact hi rfl
    · obtain ⟨s, queue, threads, created, broken, torn, escaped⟩ := p
      cases h with
      | submit hr hlt hh => exact submit_onward hw rfl hr hlt hh
      | submitRaises hr hlt hh => exact submit_onward hw rfl hr hlt hh
      | finish => exact absurd rfl (hev _ _ _)
      | _ => exact absurd rfl hi

theorem Ok.tau_onward (hp : p.Ok cfg) (hw : w ∈ W) {s' : State σ P K H R E}
    (hl : ¬ p.run.loc.inFinally) (hf : p.run.loc = .head → p.run.c.fatalExc = none)
    (h : ResumableBatch.Step cfg w p.run .tau s')
    (ho : Ok cfg { p with run := s' } → Onward cfg hooks W { p with run := s' }) :
    Onward cfg hooks W p := by
  rcases lift hw hl (fun _ => hf) h (by simp) with ⟨w', hw', h⟩ | ⟨hne, -⟩
  · exact .idle ⟨w', hw', h⟩ trivial (ho (hp.step h))
  · exact absurd rfl hne

theorem move_onward (hw : w ∈ W) {ev : Event P K H R E} {s' : State σ P K H R E}
    (hl : ¬ p.run.loc.inFinally) (h : ResumableBatch.Step cfg w p.run ev s') (hev : ev.moves) :
    Onward cfg hooks W p := by
  have htau : ev ≠ .tau := by
    rintro rfl
    exact hev
  have hfin : ∀ f ad o, ev ≠ .finish f ad o := by
    rintro f ad o rfl
    exact hev
  rcases lift hw hl (fun he => absurd he htau) h hfin with h | ⟨-, act, p', h, hact⟩
  · refine .act h ?_
    cases ev with
    | tau => exact absurd rfl htau
    | _ => exact id
  · exact .act h hact

/-- The in-flight calls are cancelled, and the `finally` entered. -/
theorem Ok.cancel_onward (hp : p.Ok cfg) (ht : p.torn ≤ p.created.length) (hw : w ∈ W)
    {fault : Fault K H E} (hl : p.run.loc = .head) (hf : p.run.c.fatalExc = some fault) :
    Onward cfg hooks W p :=
  .idle ⟨w, hw, .cancel hl hf⟩ trivial ((hp.cancel hl).finally_onward ht hw rfl)

theorem onward_of_healthy (hw : w ∈ W) (hp : p.Ok cfg) (ht : p.torn ≤ p.created.length)
    (h : ResumableBatch.Onward cfg w p.run) : Onward cfg hooks W p := by
  generalize hs : p.run = s at h
  induction h generalizing p with
  | done hd => exact .over (Or.inl (hs ▸ hd))
  | tau hstep _ ih =>
    subst hs
    by_cases hl : p.run.loc.inFinally
    · exact hp.finally_onward ht hw hl
    by_cases hf : p.run.loc = .head ∧ p.run.c.fatalExc ≠ none
    · obtain ⟨fault, hf'⟩ := Option.ne_none_iff_exists'.1 hf.2
      exact hp.cancel_onward ht hw hf.1 hf'
    · rw [not_and, not_not] at hf
      exact hp.tau_onward hw hl hf hstep fun hp' => ih hp' ht rfl
  | move hstep hmoves =>
    subst hs
    by_cases hl : p.run.loc.inFinally
    · exact hp.finally_onward ht hw hl
    · exact move_onward hw hl hstep hmoves
  | call x hx hrun hd =>
    subst hs
    exact hp.call_onward hw hd hx hrun

/-- Once an exception is met the run goes to its `finally`. -/
theorem onward_of_leaving (hw : w ∈ W) (hp : p.Ok cfg) (ht : p.torn ≤ p.created.length)
    (hl : p.run.loc.leaving) (hf : p.run.c.fatalExc ≠ none) : Onward cfg hooks W p := by
  obtain ⟨fault, hf⟩ := Option.ne_none_iff_exists'.1 hf
  have pop : ∀ {q : Pool σ P K H R E C} {now}, q.Ok cfg → q.torn ≤ q.created.length →
      q.run.loc = .pop now → q.run.c.fatalExc = some fault → Onward cfg hooks W q := by
    intro q now hq ht hl hf
    obtain ⟨⟨loc, c, st⟩, _⟩ := q
    subst hl
    by_cases hd : ∀ d ∈ c.delayed.head?, ¬ d.readyAt.le (.fin now)
    · exact hq.tau_onward hw (by simp [Loc.inFinally]) (by simp) (.popped hd) fun hq' =>
        hq'.cancel_onward ht hw rfl hf
    · push Not at hd
      obtain ⟨d, hd, hle⟩ := hd
      obtain ⟨ds, hds⟩ := List.head?_eq_some_iff.1 hd
      exact move_onward hw (by simp [Loc.inFinally]) (.pop hds hle) trivial
  obtain ⟨⟨loc, c, st⟩, _⟩ := p
  cases loc with
  | head => exact hp.cancel_onward ht hw rfl hf
  | promote =>
    exact hp.tau_onward hw (by simp [Loc.inFinally]) (by simp) .promote fun hp' => pop hp' ht rfl hf
  | pop now => exact pop hp ht rfl hf
  | shutdown exc => exact hp.finally_onward ht hw rfl
  | failed fault => exact .over (Or.inr (Or.inl ⟨fault, rfl⟩))
  | _ => exact hl.elim

theorem Reached.onward (hp : Reached cfg hooks W p) (hends : cfg.store.Ends)
    (hclock : ∀ t, ∃ w ∈ W, t ≤ w.monotonic)
    (hdel : ∀ d ∈ p.run.c.delayed, ∃ q, d.readyAt = .fin q) : Onward cfg hooks W p := by
  obtain ⟨w₀, items, st, s₀, tr, hb, hr⟩ := hp
  obtain ⟨hok, -, hc, -⟩ := Invariant.run hb hr
  have hrun := (pool_refines hb hr).2
  have hwf := (Ledger.run hb hrun).1
  -- a world whose clock has reached all retries
  obtain ⟨t, -, hlate⟩ := exists_late [] hdel
  obtain ⟨w, hw, hle⟩ := hclock t
  by_cases hh : p.run.Healthy
  · exact onward_of_healthy hw hok hc.torn_le
      (ResumableBatch.onward hends hwf (State.LocOk.run hb hrun) hh (hlate _ hle))
  · by_cases hf : p.run.c.fatalExc = none
    · have hl : p.run.loc.failing := by
        by_contra hl
        exact hh ⟨hf, hl⟩
      cases hloc : p.run.loc with
      | shutdown exc => exact hok.finally_onward hc.torn_le hw (by rw [hloc]; rfl)
      | failed fault => exact .over (Or.inr (Or.inl ⟨fault, hloc⟩))
      | dead => exact .over (Or.inr (Or.inr (Or.inl hloc)))
      | _ => rw [hloc] at hl; exact hl.elim
    · exact onward_of_leaving hw hok hc.torn_le (hwf.leaving hf) hf

end

end Pool

/-- **The pool never deadlocks and cannot run forever.** -/
theorem pool_terminates [DecidableEq K] {cfg : Config σ K H R E} {hooks : WorkerHooks E}
    {W : Set (World P K H E)} :
    (WellFounded fun p' p : Pool σ P K H R E C =>
      Pool.Reached cfg hooks W p ∧ Lts.Advance (Pool.step cfg hooks W) Pool.Act.idle p p') ∧
    (∀ (p : ℕ → Pool σ P K H R E C) (act : ℕ → Pool.Act P K H R E C),
      Pool.Reached cfg hooks W (p 0) → (∀ n, Pool.step cfg hooks W (p n) (act n) (p (n + 1))) →
      ∃ N, ∀ n ≥ N, (act n).idle) ∧
    ∀ p : Pool σ P K H R E C, Pool.Reached cfg hooks W p → cfg.store.Ends →
      (∀ t, ∃ w ∈ W, t ≤ w.monotonic) → (∀ d ∈ p.run.c.delayed, ∃ q, d.readyAt = .fin q) →
      Pool.Onward cfg hooks W p :=
  ⟨Lts.wellFounded_advance (Pool.Reached cfg hooks W) Pool.Reached.step (Pool.measure cfg)
      Pool.Reached.measure_idle Pool.Lower Pool.lower_wf Pool.Reached.lower,
    fun p act h₀ hf => @Lts.eventually_idle _ _ _ (Pool.step cfg hooks W) Pool.Act.idle
      (Pool.Reached cfg hooks W) Pool.Reached.step (Pool.measure cfg) Pool.Reached.measure_idle
      Pool.Lower Pool.lower_wf Pool.Reached.lower p act h₀ hf,
    fun _ hp hends hclock hdel => hp.onward hends hclock hdel⟩

theorem pool_terminates_sample : Pool.Onward sampleConfig ⟨true, true, false⟩
    {w | ∃ t, w = { sampleWorld with monotonic := t }} (Pool.start poolStart : Pool _ _ _ _ _ _ ℕ) :=
  pool_terminates.2.2 _ ⟨_, _, _, _, [], poolStart_begins, .nil⟩ memStore_ends
    (fun t => ⟨_, ⟨t, rfl⟩, le_rfl⟩) (by simp [Pool.start, poolStart])

end ResumableBatch
