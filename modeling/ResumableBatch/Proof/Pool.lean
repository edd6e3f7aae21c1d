/-
  The coordinator with its pool: what the coordinator sees of a run is a run of
  `Step` (`pool_refines`).
-/
import ResumableBatch.Pool
import ResumableBatch.Proof.Interrupt

namespace ResumableBatch

variable {P K H R E σ C : Type}

/-! ## Calls that are still to end -/

theorem CallState.isRunning_iff {state : CallState R E} : state.isRunning ↔ state = .running := by
  cases state <;> simp [CallState.isRunning]

theorem Coord.mem_unended {c : Coord P K H R E} {fs : List Future} {f : Future}
    {ad : Admitted P K H} :
    (f, ad) ∈ c.unended fs ↔ ⟨f, ad, .running⟩ ∈ c.inflight ∧ f ∈ fs := by
  simp only [Coord.unended, List.mem_map, List.mem_filter, Bool.and_eq_true, decide_eq_true_eq,
    CallState.isRunning_iff, Prod.mk.injEq]
  constructor
  · rintro ⟨⟨f, ad, _⟩, ⟨hx, rfl, hf⟩, rfl, rfl⟩
    exact ⟨hx, hf⟩
  · rintro ⟨hx, hf⟩
    exact ⟨_, ⟨hx, rfl, hf⟩, rfl, rfl⟩

theorem Coord.mem_failAll {c : Coord P K H R E} {fs : List Future} {exc : E}
    {x : Call P K H R E} (hx : x ∈ (c.failAll fs exc).inflight) :
    (x ∈ c.inflight ∧ (x.state = .running → x.fut ∉ fs)) ∨
      ⟨x.fut, x.ad, .running⟩ ∈ c.inflight ∧ x.fut ∈ fs ∧ x.state = .finished (.error exc) := by
  obtain ⟨y, hy, rfl⟩ := List.mem_map.1 hx
  split_ifs with h
  · rw [Bool.and_eq_true, CallState.isRunning_iff, decide_eq_true_eq] at h
    obtain ⟨f, ad, _⟩ := y
    obtain ⟨rfl, hf⟩ := h
    exact Or.inr ⟨hy, hf, rfl⟩
  · rw [Bool.and_eq_true, CallState.isRunning_iff, decide_eq_true_eq] at h
    exact Or.inl ⟨hy, fun hr hf => h ⟨hr, hf⟩⟩

theorem Coord.failAll_mem {c : Coord P K H R E} {fs : List Future} {exc : E}
    {x : Call P K H R E} (hx : x ∈ c.inflight) (hf : x.state = .running → x.fut ∉ fs) :
    x ∈ (c.failAll fs exc).inflight := by
  refine List.mem_map.2 ⟨x, hx, if_neg ?_⟩
  rw [Bool.and_eq_true, CallState.isRunning_iff, decide_eq_true_eq]
  exact fun h => hf h.1 h.2

theorem Coord.cancel_mem {c : Coord P K H R E} {fs : List Future} {x : Call P K H R E}
    (hx : x ∈ c.inflight) (hs : x.state = .running → x.fut ∉ fs) :
    x ∈ (c.cancel fs).inflight := by
  obtain ⟨f, ad, state⟩ := x
  refine List.mem_map.2 ⟨_, hx, ?_⟩
  cases state with
  | running => exact if_neg (hs rfl)
  | _ => rfl

theorem Coord.failAll_pool (c : Coord P K H R E) (fs : List Future) (exc : E) :
    (c.failAll fs exc).pool = c.pool := by
  unfold Coord.pool Coord.failAll
  rw [List.map_map]
  refine List.map_congr_left fun x _ => ?_
  simp only [Function.comp_apply]
  split_ifs <;> rfl

section
variable [DecidableEq K] {cfg : Config σ K H R E} {W : Set (World P K H E)} {w : World P K H E}

/-- The calls that fail with the pool end one after the other. -/
theorem run_failAll (hw : w ∈ W) {loc : Loc K H E} (hd : loc ≠ .dead) (c : Coord P K H R E) (st : σ)
    (fs : List Future) (exc : E) :
    Lts.Run (cfg.step W) ⟨loc, c, st⟩
      ((c.unended fs).map fun x => .finish x.1 x.2 (.error exc)) ⟨loc, c.failAll fs exc, st⟩ := by
  let q (x : Call P K H R E) : Bool := x.state.isRunning && x.fut ∈ fs
  let g (x : Call P K H R E) : Call P K H R E :=
    if q x then { x with state := .finished (.error exc) } else x
  have key : ∀ pre post : List (Call P K H R E),
      Lts.Run (cfg.step W) ⟨loc, { c with inflight := pre ++ post }, st⟩
        ((post.filter q).map fun x => .finish x.fut x.ad (.error exc))
        ⟨loc, { c with inflight := pre ++ post.map g }, st⟩ := by
    intro pre post
    induction post generalizing pre with
    | nil => exact .nil
    | cons x post ih =>
      have hrest := ih (pre ++ [g x])
      rw [List.append_assoc, List.append_assoc, List.singleton_append, List.singleton_append] at hrest
      rw [List.map_cons, List.filter_cons]
      split_ifs with hx
      · obtain ⟨f, ad, state⟩ := x
        have hrun : state = .running := by
          rw [Bool.and_eq_true, CallState.isRunning_iff] at hx
          exact hx.1
        subst hrun
        rw [show g ⟨f, ad, .running⟩ = ⟨f, ad, .finished (.error exc)⟩ from if_pos hx] at hrest ⊢
        exact .cons ⟨w, hw, .finish (.error exc) hd rfl⟩ hrest
      · rwa [show g x = x from if_neg hx] at hrest ⊢
  rw [Coord.unended, List.map_map]
  exact key [] c.inflight

/-! ## What a step of the coordinator does to its calls -/

/-- A call that has not ended stays in flight, while the pool is left alone. -/
theorem Step.unended_kept {s s' : State σ P K H R E} {ev : Event P K H R E}
    (h : Step cfg w s ev s') (hev : ev.isInternal) (hsub : s'.c.inflight.Sublist s.c.inflight)
    {x : Call P K H R E} (hx : x ∈ s.c.inflight) (hs : ∀ o, x.state ≠ .finished o) :
    x ∈ s'.c.inflight := by
  have stay : ∀ {c : Coord P K H R E} {pre post f ad o},
      c.inflight = pre ++ ⟨f, ad, .finished o⟩ :: post → x ∈ c.inflight → x ∈ pre ++ post := by
    intro c pre post f ad o hi hx
    rw [hi, List.mem_append, List.mem_cons] at hx
    rw [List.mem_append]
    rcases hx with hx | rfl | hx
    · exact Or.inl hx
    · exact absurd rfl (hs o)
    · exact Or.inr hx
  cases h with
  | submit | finish => cases hev
  | commit hi _ => exact stay hi hx
  | commitRaises hi _ => exact stay hi hx
  | commitDies hi _ => exact stay hi hx
  | notCaught hi _ => exact stay hi hx
  | requeue hi _ hr hs' =>
    obtain ⟨-, -, -, -, _, _, _, -, -, -, rfl⟩ := requeue_spec hr hs'
    exact stay hi hx
  | split hi _ hr hs' =>
    obtain ⟨ads, -, -, -, -, rfl⟩ := split_spec hr hs'
    exact stay hi hx
  | fatal hi _ hr =>
    obtain ⟨m, t, rfl⟩ := routeException_some hr
    exact stay hi hx
  | routeRaises hi _ hr =>
    obtain ⟨m, t, rfl⟩ := routeException_error hr
    exact stay hi hx
  | cancel =>
    have he := hsub.eq_of_length (List.length_map _)
    rw [he]; exact hx
  | _ => exact hx

/-- Short of a cancellation, calls only leave. -/
theorem Step.inflight_sublist {s s' : State σ P K H R E} {ev : Event P K H R E}
    (h : Step cfg w s ev s') (hev : ev.isInternal)
    (hf : ev = .tau → s.loc = .head → s.c.fatalExc = none) :
    s'.c.inflight.Sublist s.c.inflight := by
  have take : ∀ {c : Coord P K H R E} {pre post x}, c.inflight = pre ++ x :: post →
      (pre ++ post).Sublist c.inflight := by
    intro c pre post x hi
    rw [hi]
    exact List.Sublist.append (.refl _) (List.sublist_cons_self ..)
  cases h with
  | submit | finish => cases hev
  | commit hi _ => exact take hi
  | commitRaises hi _ => exact take hi
  | commitDies hi _ => exact take hi
  | notCaught hi _ => exact take hi
  | requeue hi _ hr hs' =>
    obtain ⟨-, -, -, -, _, _, _, -, -, -, rfl⟩ := requeue_spec hr hs'
    exact take hi
  | split hi _ hr hs' =>
    obtain ⟨ads, -, -, -, -, rfl⟩ := split_spec hr hs'
    exact take hi
  | fatal hi _ hr =>
    obtain ⟨m, t, rfl⟩ := routeException_some hr
    exact take hi
  | routeRaises hi _ hr =>
    obtain ⟨m, t, rfl⟩ := routeException_error hr
    exact take hi
  | cancel fs hfatal => rw [hf rfl rfl] at hfatal; cases hfatal
  | _ => exact .refl _

/-- The loop is left, or its `finally` is over. -/
def Loc.atEnd {K H E : Type} : Loc K H E → Prop
  | .shutdown _ | .done | .failed _ => True
  | _ => False

theorem Loc.atEnd_of_inFinally {K H E : Type} {loc : Loc K H E} (h : loc.inFinally) : loc.atEnd := by
  cases loc with
  | shutdown => trivial
  | _ => cases h

theorem Loc.afterFinally_atEnd {K H E : Type} {loc : Loc K H E} (h : loc.inFinally) :
    loc.afterFinally.atEnd := by
  cases loc with
  | shutdown exc => cases exc <;> trivial
  | _ => cases h

theorem Step.not_atEnd {s s' : State σ P K H R E} {ev : Event P K H R E} (h : Step cfg w s ev s')
    (hev : ev.isInternal) (hs : ¬ s.loc.inFinally) : ¬ s.loc.atEnd := by
  cases h with
  | left | failed => exact absurd rfl hs
  | finish => cases hev
  | _ => exact id

theorem Step.submit_dispatch {s s' : State σ P K H R E} {f : Future} {ad : Admitted P K H}
    (h : Step cfg w s (.submit f ad) s') : s.loc = .dispatch ∧ s'.loc = .dispatch ∧
      f = s.c.attemptsTotal ∧ s'.c.inflight = s.c.inflight ++ [⟨f, ad, .running⟩] := by
  generalize hev : Event.submit f ad = ev at h
  cases h with
  | submit => cases hev; exact ⟨rfl, rfl, rfl, rfl⟩
  | _ => cases hev

theorem Step.refused_inv {s s' : State σ P K H R E} {ad : Admitted P K H} {exc : E}
    (h : Step cfg w s (.abort none ad (.raised exc)) s') : s.loc = .dispatch ∧
      s'.loc = .shutdown (some (.raised exc)) ∧ s'.c.inflight = s.c.inflight := by
  generalize hev : Event.abort none ad (.raised exc) = ev at h
  cases h with
  | submitRaises => cases hev; exact ⟨rfl, rfl, rfl⟩
  | _ => cases hev

/-- The `finally` is entered with the pool still open. -/
theorem Step.not_over {s s' : State σ P K H R E} {ev : Event P K H R E} (h : Step cfg w s ev s')
    (hs : ¬ s.loc.inFinally) (hev : ∀ f ad o, ev ≠ .finish f ad o) :
    s'.loc ≠ .done ∧ ∀ fault, s'.loc ≠ .failed fault := by
  cases h with
  | left | failed => exact absurd rfl hs
  | finish => exact absurd rfl (hev _ _ _)
  | _ => simp

end

/-! ## The calls the pool holds -/

/-- The call a thread executes. -/
def Thread.executing : Thread C → List Future
  | .busy _ f => [f]
  | _ => []

namespace Pool

/-- The calls in the queue and in the threads. -/
def held (p : Pool σ P K H R E C) : List Future :=
  p.pending ++ p.threads.flatMap Thread.executing

theorem pending_submit (p : Pool σ P K H R E C) (f : Future) (spawn : Bool) :
    (p.queue ++ [f] ++ (if spawn then p.threads ++ [.starting] else p.threads).flatMap
      Thread.pending).Perm (f :: p.pending) := by
  have hnone : (if spawn then p.threads ++ [.starting] else p.threads).flatMap Thread.pending =
      p.threads.flatMap Thread.pending := by
    split <;> simp [Thread.pending]
  rw [hnone, List.append_assoc, List.singleton_append]
  exact List.perm_middle

/-- What the pool knows of the calls in flight, and when its threads end. -/
structure Ok (cfg : Config σ K H R E) (p : Pool σ P K H R E C) : Prop where
  calls : p.run.c.PoolOk cfg
  workers : p.threads.length ≤ cfg.maxWorkers
  nodup : p.held.Nodup
  /-- every call that is still to end is in the queue or in a thread -/
  running : ∀ f ad, ⟨f, ad, .running⟩ ∈ p.run.c.inflight → f ∈ p.held
  pending : ∀ f ∈ p.pending, ∃ ad, ⟨f, ad, .running⟩ ∈ p.run.c.inflight ∨
    ⟨f, ad, .cancelled⟩ ∈ p.run.c.inflight
  busy : ∀ f ∈ p.threads.flatMap Thread.executing, ∃ ad, ⟨f, ad, .running⟩ ∈ p.run.c.inflight
  staffed : p.queue ≠ [] → p.threads ≠ []
  ended : .ended ∈ p.threads → p.queue = [] ∧ (p.broken ∨ p.run.loc.atEnd)
  broken : p.broken → p.queue = []
  /-- nothing runs once the contexts are taken back -/
  closed : 0 < p.torn ∨ p.run.loc = .done ∨ (∃ fault, p.run.loc = .failed fault) →
    p.run.loc.atEnd ∧ ∀ x ∈ p.threads, x = .ended

/-- A future tells its call. -/
theorem Ok.unique {cfg : Config σ K H R E} {p : Pool σ P K H R E C} (hp : p.Ok cfg)
    {x y : Call P K H R E} (hx : x ∈ p.run.c.inflight) (hy : y ∈ p.run.c.inflight)
    (hf : x.fut = y.fut) : x = y := by
  obtain ⟨pre, post, hi⟩ := List.append_of_mem hx
  obtain ⟨pre', post', hi'⟩ := List.append_of_mem hy
  exact (hp.calls.unique hi hi' hf).2.1

theorem Ok.held_inflight {cfg : Config σ K H R E} {p : Pool σ P K H R E C} (hp : p.Ok cfg)
    {f : Future} (hf : f ∈ p.held) : ∃ x ∈ p.run.c.inflight, x.fut = f := by
  rcases List.mem_append.1 hf with hf | hf
  · obtain ⟨ad, hx | hx⟩ := hp.pending f hf
    · exact ⟨_, hx, rfl⟩
    · exact ⟨_, hx, rfl⟩
  · obtain ⟨ad, hx⟩ := hp.busy f hf
    exact ⟨_, hx, rfl⟩

/-- Nothing is held once all threads have ended. -/
theorem Ok.held_nil {cfg : Config σ K H R E} {p : Pool σ P K H R E C} (hp : p.Ok cfg)
    (h : ∀ x ∈ p.threads, x = .ended) : p.held = [] := by
  rw [held, Pool.pending, List.append_eq_nil_iff, List.append_eq_nil_iff, List.flatMap_eq_nil_iff,
    List.flatMap_eq_nil_iff]
  refine ⟨⟨by_contra fun hq => ?_, fun x hx => ?_⟩, fun x hx => ?_⟩
  · obtain ⟨x, xs, hx⟩ := List.exists_cons_of_ne_nil (hp.staffed hq)
    have hm : x ∈ p.threads := by simp [hx]
    exact hq (hp.ended (h x hm ▸ hm)).1
  · rw [h x hx]; rfl
  · rw [h x hx]; rfl

theorem Ok.init [DecidableEq K] {cfg : Config σ K H R E} {w : Hooks P K H E}
    {items : List (CheckpointItem P)} {st : σ} {s₀ : State σ P K H R E}
    (hb : begin w items st = .ok s₀) : (Pool.start s₀ : Pool σ P K H R E C).Ok cfg := by
  obtain ⟨-, -, h⟩ := begin_ok hb
  have hi : s₀.c.inflight = [] := by rw [h]
  have hl : s₀.loc = .head := by rw [h]
  have hp : s₀.c.pool = [] := by rw [Coord.pool, hi]; rfl
  have hc : s₀.c.PoolOk cfg := by constructor <;> simp [hp]
  constructor <;> simp [Pool.start, held, Pool.pending, hi, hl, hc]

section
variable [DecidableEq K] {cfg : Config σ K H R E} {hooks : WorkerHooks E} {w : World P K H E}
  {p : Pool σ P K H R E C} {s' : State σ P K H R E}

theorem Ok.coordinator (hp : p.Ok cfg) {ev : Event P K H R E} (hl : ¬ p.run.loc.inFinally)
    (h : ResumableBatch.Step cfg w p.run ev s') (hev : ev.isInternal)
    (hsub : s'.c.inflight.Sublist p.run.c.inflight) : Ok cfg { p with run := s' } where
  calls := h.poolOk hp.calls
  workers := hp.workers
  nodup := hp.nodup
  running f ad hx := hp.running f ad (hsub.subset hx)
  pending f hf := by
    obtain ⟨ad, hx | hx⟩ := hp.pending f hf
    · exact ⟨ad, Or.inl (h.unended_kept hev hsub hx (by simp))⟩
    · exact ⟨ad, Or.inr (h.unended_kept hev hsub hx (by simp))⟩
  busy f hf := by
    obtain ⟨ad, hx⟩ := hp.busy f hf
    exact ⟨ad, h.unended_kept hev hsub hx (by simp)⟩
  staffed := hp.staffed
  ended hm := by
    obtain ⟨hq, hb | hat⟩ := hp.ended hm
    · exact ⟨hq, Or.inl hb⟩
    · exact absurd hat (h.not_atEnd hev hl)
  broken := hp.broken
  closed hc := by
    have hover := h.not_over hl fun f ad o he => by rw [he] at hev; cases hev
    rcases hc with ht | hd | ⟨fault, hd⟩
    · exact absurd (hp.closed (Or.inl ht)).1 (h.not_atEnd hev hl)
    · exact absurd hd hover.1
    · exact absurd hd (hover.2 fault)

theorem Ok.submit (hp : p.Ok cfg) {f : Future} {ad : Admitted P K H} (spawn : Bool)
    (hb : ¬ p.broken) (h : ResumableBatch.Step cfg w p.run (.submit f ad) s')
    (hw : spawn → p.threads.length < cfg.maxWorkers) (hne : p.threads = [] → spawn) :
    Ok cfg { p with
      run := s'
      queue := p.queue ++ [f]
      threads := if spawn then p.threads ++ [.starting] else p.threads } := by
  obtain ⟨hl, hl', hf, hi⟩ := h.submit_dispatch
  have hnew : f ∉ p.held := fun hm => by
    obtain ⟨x, hx, rfl⟩ := hp.held_inflight hm
    have := hp.calls.submitted _ (List.mem_map_of_mem hx)
    exact absurd hf this.ne
  have hmem : .ended ∈ (if spawn then p.threads ++ [.starting] else p.threads : List (Thread C)) →
      .ended ∈ p.threads := fun hm => by
    split at hm
    · simpa using hm
    · exact hm
  have hexec : (if spawn then p.threads ++ [.starting] else p.threads).flatMap Thread.executing =
      p.threads.flatMap Thread.executing := by
    split <;> simp [Thread.executing]
  have hpend := pending_submit p f spawn
  have hheld : (p.queue ++ [f] ++ (if spawn then p.threads ++ [.starting] else p.threads).flatMap
      Thread.pending ++ p.threads.flatMap Thread.executing).Perm (f :: p.held) :=
    hpend.append_right _
  constructor
  case calls => exact h.poolOk hp.calls
  case workers =>
    dsimp only
    split
    · rw [List.length_append]; exact hw ‹_›
    · exact hp.workers
  case nodup =>
    rw [held, Pool.pending, hexec, hheld.nodup_iff, List.nodup_cons]
    exact ⟨hnew, hp.nodup⟩
  case running =>
    intro g a hx
    rw [held, Pool.pending, hexec, hheld.mem_iff, List.mem_cons]
    rw [hi, List.mem_append, List.mem_singleton] at hx
    rcases hx with hx | hx
    · exact Or.inr (hp.running g a hx)
    · cases hx; exact Or.inl rfl
  case pending =>
    intro g hg
    rw [Pool.pending, hpend.mem_iff, List.mem_cons] at hg
    rw [hi]
    rcases hg with rfl | hg
    · exact ⟨ad, Or.inl (by simp)⟩
    · obtain ⟨a, hx⟩ := hp.pending g hg
      exact ⟨a, hx.imp (List.mem_append_left _) (List.mem_append_left _)⟩
  case busy =>
    intro g hg
    rw [hexec] at hg
    rw [hi]
    obtain ⟨a, hx⟩ := hp.busy g hg
    exact ⟨a, List.mem_append_left _ hx⟩
  case staffed =>
    intro _ hnil
    dsimp only at hnil
    split at hnil
    · simp at hnil
    · exact absurd (hne hnil) ‹_›
  case ended =>
    intro hm
    obtain ⟨-, hb' | hat⟩ := hp.ended (hmem hm)
    · exact absurd hb' hb
    · rw [hl] at hat; exact hat.elim
  case broken => exact fun h => absurd h hb
  case closed =>
    rintro (ht | hd | ⟨fault, hd⟩)
    · have := (hp.closed (Or.inl ht)).1
      rw [hl] at this; exact this.elim
    · rw [hl'] at hd; cases hd
    · rw [hl'] at hd; cases hd

theorem Ok.refused (hp : p.Ok cfg) {ad : Admitted P K H} {exc : E} (hb : p.broken)
    (h : ResumableBatch.Step cfg w p.run (.abort none ad (.raised exc)) s') :
    Ok cfg { p with run := s' } := by
  obtain ⟨hl, hl', hi⟩ := h.refused_inv
  constructor
  case calls => exact h.poolOk hp.calls
  case workers => exact hp.workers
  case nodup => exact hp.nodup
  case running => intro f a hx; exact hp.running f a (hi ▸ hx)
  case pending => intro f hf; rw [hi]; exact hp.pending f hf
  case busy => intro f hf; rw [hi]; exact hp.busy f hf
  case staffed => exact hp.staffed
  case ended => exact fun hm => ⟨(hp.ended hm).1, Or.inl hb⟩
  case broken => exact hp.broken
  case closed =>
    rintro (ht | hd | ⟨fault, hd⟩)
    · have := (hp.closed (Or.inl ht)).1
      rw [hl] at this; exact this.elim
    · rw [hl'] at hd; cases hd
    · rw [hl'] at hd; cases hd

end

section
variable {cfg : Config σ K H R E} {p : Pool σ P K H R E C}

theorem Ok.cancel (hp : p.Ok cfg) {fault : Fault K H E} (hl : p.run.loc = .head) :
    Ok cfg { p with run :=
      { p.run with loc := .shutdown (some fault), c := p.run.c.cancel p.pending } } := by
  constructor
  case calls =>
    obtain ⟨h₁, h₂, h₃⟩ := hp.calls
    constructor <;> rw [Coord.cancel_pool] <;> assumption
  case workers => exact hp.workers
  case nodup => exact hp.nodup
  case running =>
    intro f ad hx
    obtain ⟨⟨g, a, state⟩, hy, he⟩ := List.mem_map.1 hx
    refine hp.running f ad ?_
    cases state with
    | running =>
      dsimp only at he
      split at he
      · cases he
      · exact he ▸ hy
    | _ => cases he
  case pending =>
    intro f hf
    obtain ⟨ad, hx | hx⟩ := hp.pending f hf
    · exact ⟨ad, Or.inr (List.mem_map.2 ⟨_, hx, if_pos hf⟩)⟩
    · exact ⟨ad, Or.inr (Coord.cancel_mem hx (by simp))⟩
  case busy =>
    intro f hf
    obtain ⟨ad, hx⟩ := hp.busy f hf
    -- a call that is executed was started
    exact ⟨ad, Coord.cancel_mem hx fun _ hq => List.disjoint_of_nodup_append hp.nodup hq hf⟩
  case staffed => exact hp.staffed
  case ended => exact fun hm => ⟨(hp.ended hm).1, Or.inr trivial⟩
  case broken => exact hp.broken
  case closed =>
    rintro (ht | hd | ⟨fault, hd⟩)
    · have := (hp.closed (Or.inl ht)).1
      rw [hl] at this; exact this.elim
    · cases hd
    · cases hd

theorem flatMap_set {threads : List (Thread C)} {t : ℕ} {th : Thread C} (ht : threads[t]? = some th)
    (th' : Thread C) (g : Thread C → List Future) : ∃ pre post,
      threads.flatMap g = pre ++ g th ++ post ∧
      (threads.set t th').flatMap g = pre ++ g th' ++ post := by
  obtain ⟨pre, post, he, hset⟩ := List.set_of_getElem? ht
  refine ⟨pre.flatMap g, post.flatMap g, ?_, ?_⟩
  · rw [he]; simp
  · rw [hset]; simp

/-- What the threads hold stays the same when one of them changes and holds the same. -/
theorem flatMap_set_same {threads : List (Thread C)} {t : ℕ} {th th' : Thread C}
    {g : Thread C → List Future} (ht : threads[t]? = some th) (hg : g th' = g th) :
    (threads.set t th').flatMap g = threads.flatMap g := by
  obtain ⟨pre, post, he, hset⟩ := flatMap_set ht th' g
  rw [he, hset, hg]

/-- A thread that holds no call changes. -/
theorem Ok.thread (hp : p.Ok cfg) {t : ℕ} {th th' : Thread C} (ht : p.threads[t]? = some th)
    (hpend : th'.pending = th.pending) (hexec : th'.executing = th.executing) (hne : th ≠ .ended)
    (hended : th' = .ended → p.queue = [] ∧ p.run.loc.atEnd) (created : List (Option C)) :
    Ok cfg { p with threads := p.threads.set t th', created := created } := by
  have hpending : Pool.pending { p with threads := p.threads.set t th', created := created } =
      p.pending := by
    rw [Pool.pending, flatMap_set_same ht hpend]; rfl
  have hheld : held { p with threads := p.threads.set t th', created := created } = p.held := by
    rw [held, hpending, flatMap_set_same ht hexec]; rfl
  constructor
  case calls => exact hp.calls
  case workers => rw [List.length_set]; exact hp.workers
  case nodup => rw [hheld]; exact hp.nodup
  case running => rw [hheld]; exact hp.running
  case pending => rw [hpending]; exact hp.pending
  case busy => rw [flatMap_set_same ht hexec]; exact hp.busy
  case staffed =>
    intro hq hnil
    exact hp.staffed hq ((List.set_eq_nil_iff ..).1 hnil)
  case ended =>
    intro hm
    rcases List.mem_or_eq_of_mem_set hm with hm | he
    · exact hp.ended hm
    · exact (hended he.symm).imp_right Or.inr
  case broken => exact hp.broken
  case closed =>
    intro hc
    exact absurd ((hp.closed hc).2 th (List.mem_of_getElem? ht)) hne

theorem Ok.setupRaises (hp : p.Ok cfg) {t : ℕ} (ht : p.threads[t]? = some .starting) (exc : E) :
    Ok cfg { p with
      run := { p.run with c := p.run.c.failAll p.queue exc }
      queue := []
      threads := p.threads.set t .ended
      broken := true } := by
  have hpend : (p.threads.set t .ended).flatMap Thread.pending =
      p.threads.flatMap Thread.pending := flatMap_set_same ht rfl
  have hexec : (p.threads.set t .ended).flatMap Thread.executing =
      p.threads.flatMap Thread.executing := flatMap_set_same ht rfl
  have hheld : p.held = p.queue ++ (p.threads.flatMap Thread.pending ++
      p.threads.flatMap Thread.executing) := List.append_assoc ..
  -- a call in a thread is no longer in the queue
  have hnot : ∀ f ∈ p.threads.flatMap Thread.pending ++ p.threads.flatMap Thread.executing,
      f ∉ p.queue := fun f hf hq => List.disjoint_of_nodup_append (hheld ▸ hp.nodup) hq hf
  constructor
  case calls =>
    obtain ⟨h₁, h₂, h₃⟩ := hp.calls
    constructor <;> rw [Coord.failAll_pool] <;> assumption
  case workers => rw [List.length_set]; exact hp.workers
  case nodup =>
    rw [held, Pool.pending, hpend, hexec]
    exact (hheld ▸ hp.nodup).of_append_right
  case running =>
    intro f ad hx
    rw [held, Pool.pending, hpend, hexec]
    rcases Coord.mem_failAll hx with ⟨hx, hf⟩ | ⟨-, -, hs⟩
    · have hm := hp.running f ad hx
      rw [hheld] at hm
      exact (List.mem_append.1 hm).resolve_left (hf rfl)
    · cases hs
  case pending =>
    intro f hf
    rw [Pool.pending, hpend] at hf
    have hq := hnot f (List.mem_append_left _ hf)
    obtain ⟨ad, hx⟩ := hp.pending f (List.mem_append_right _ hf)
    exact ⟨ad, hx.imp (fun h => Coord.failAll_mem h fun _ => hq)
      fun h => Coord.failAll_mem h fun _ => hq⟩
  case busy =>
    intro f hf
    rw [hexec] at hf
    obtain ⟨ad, hx⟩ := hp.busy f hf
    exact ⟨ad, Coord.failAll_mem hx fun _ => hnot f (List.mem_append_right _ hf)⟩
  case staffed => exact fun hq => absurd rfl hq
  case ended => exact fun _ => ⟨rfl, Or.inl rfl⟩
  case broken => exact fun _ => rfl
  case closed =>
    intro hc
    cases (hp.closed hc).2 _ (List.mem_of_getElem? ht)

/-- A call taken from the queue stays pending. -/
theorem pending_take {t : ℕ} {ctx : Option C} {f : Future} {pre post : List Future}
    (ht : p.threads[t]? = some (.idle ctx)) (hq : p.queue = pre ++ f :: post) :
    (pre ++ post ++ (p.threads.set t (.taken ctx f)).flatMap Thread.pending).Perm p.pending := by
  obtain ⟨thpre, thpost, he, hset⟩ := flatMap_set ht (.taken ctx f) Thread.pending
  rw [pending, hq, he, hset]
  simp only [Thread.pending, List.append_assoc, List.cons_append, List.nil_append]
  refine .append_left pre ?_
  rw [← List.append_assoc, ← List.append_assoc]
  exact List.perm_middle

theorem Ok.take (hp : p.Ok cfg) {t : ℕ} {ctx : Option C} {f : Future} {pre post : List Future}
    (ht : p.threads[t]? = some (.idle ctx)) (hq : p.queue = pre ++ f :: post) :
    Ok cfg { p with queue := pre ++ post, threads := p.threads.set t (.taken ctx f) } := by
  have hpend := pending_take ht hq
  have hexec : (p.threads.set t (.taken ctx f)).flatMap Thread.executing =
      p.threads.flatMap Thread.executing := flatMap_set_same ht rfl
  have hheld : (pre ++ post ++ (p.threads.set t (.taken ctx f)).flatMap Thread.pending ++
      (p.threads.set t (.taken ctx f)).flatMap Thread.executing).Perm p.held := by
    rw [hexec]
    exact hpend.append_right _
  have hne : p.queue ≠ [] := by simp [hq]
  constructor
  case calls => exact hp.calls
  case workers => rw [List.length_set]; exact hp.workers
  case nodup => exact hheld.nodup_iff.2 hp.nodup
  case running => intro g a hg; exact hheld.mem_iff.2 (hp.running g a hg)
  case pending => intro g hg; exact hp.pending g (hpend.mem_iff.1 hg)
  case busy => rw [hexec]; exact hp.busy
  case staffed =>
    intro _ hnil
    rw [(List.set_eq_nil_iff ..).1 hnil] at ht; cases ht
  case ended =>
    intro hm
    rcases List.mem_or_eq_of_mem_set hm with hm | hm
    · exact absurd (hp.ended hm).1 hne
    · cases hm
  case broken => intro hb; exact absurd (hp.broken hb) hne
  case closed =>
    intro hc
    cases (hp.closed hc).2 _ (List.mem_of_getElem? ht)

/-- A taken call leaves the pending ones when it is started or skipped. -/
theorem pending_leave {t : ℕ} {ctx : Option C} {f : Future} {th : Thread C}
    (ht : p.threads[t]? = some (.taken ctx f)) (hth : th.pending = []) :
    p.pending.Perm (f :: (p.queue ++ (p.threads.set t th).flatMap Thread.pending)) := by
  obtain ⟨thpre, thpost, he, hset⟩ := flatMap_set ht th Thread.pending
  rw [pending, he, hset, hth]
  simp only [Thread.pending, List.append_assoc, List.cons_append, List.nil_append]
  rw [← List.append_assoc, ← List.append_assoc]
  exact List.perm_middle

theorem Ok.start (hp : p.Ok cfg) {t : ℕ} {ctx : Option C} {f : Future} {ad : Admitted P K H}
    (ht : p.threads[t]? = some (.taken ctx f)) (hx : ⟨f, ad, .running⟩ ∈ p.run.c.inflight) :
    Ok cfg { p with threads := p.threads.set t (.busy ctx f) } := by
  have hpend := pending_leave ht (rfl : (Thread.busy ctx f).pending = [])
  obtain ⟨thpre, thpost, he, hset⟩ := flatMap_set ht (.busy ctx f) Thread.executing
  have hheld : (p.queue ++ (p.threads.set t (.busy ctx f)).flatMap Thread.pending ++
      (p.threads.set t (.busy ctx f)).flatMap Thread.executing).Perm p.held := by
    refine .trans ?_ (hpend.append_right _).symm
    rw [he, hset]
    simp only [Thread.executing, List.append_assoc, List.cons_append, List.nil_append]
    rw [← List.append_assoc, ← List.append_assoc, ← List.append_assoc, ← List.append_assoc]
    exact List.perm_middle
  constructor
  case calls => exact hp.calls
  case workers => rw [List.length_set]; exact hp.workers
  case nodup => exact hheld.nodup_iff.2 hp.nodup
  case running => intro g a hg; exact hheld.mem_iff.2 (hp.running g a hg)
  case pending => intro g hg; exact hp.pending g (hpend.mem_iff.2 (List.mem_cons_of_mem _ hg))
  case busy =>
    intro g hg
    rw [hset] at hg
    by_cases hgf : g = f
    · exact ⟨ad, hgf ▸ hx⟩
    · refine hp.busy g ?_
      rw [he]
      simpa [Thread.executing, hgf] using hg
  case staffed =>
    intro hq hnil
    exact hp.staffed hq ((List.set_eq_nil_iff ..).1 hnil)
  case ended =>
    intro hm
    rcases List.mem_or_eq_of_mem_set hm with hm | hm
    · exact hp.ended hm
    · cases hm
  case broken => exact hp.broken
  case closed =>
    intro hc
    cases (hp.closed hc).2 _ (List.mem_of_getElem? ht)

theorem Ok.skip (hp : p.Ok cfg) {t : ℕ} {ctx : Option C} {f : Future} {ad : Admitted P K H}
    (ht : p.threads[t]? = some (.taken ctx f)) (hx : ⟨f, ad, .cancelled⟩ ∈ p.run.c.inflight) :
    Ok cfg { p with threads := p.threads.set t (.idle ctx) } := by
  have hpend := pending_leave ht (rfl : (Thread.idle ctx).pending = [])
  have hexec : (p.threads.set t (.idle ctx)).flatMap Thread.executing =
      p.threads.flatMap Thread.executing := flatMap_set_same ht rfl
  have hheld : p.held.Perm (f :: (p.queue ++ (p.threads.set t (.idle ctx)).flatMap Thread.pending ++
      (p.threads.set t (.idle ctx)).flatMap Thread.executing)) := by
    rw [hexec]
    exact hpend.append_right _
  constructor
  case calls => exact hp.calls
  case workers => rw [List.length_set]; exact hp.workers
  case nodup => exact (List.nodup_cons.1 (hheld.nodup_iff.1 hp.nodup)).2
  case running =>
    intro g a hg
    refine (List.mem_cons.1 (hheld.mem_iff.1 (hp.running g a hg))).resolve_left ?_
    rintro rfl
    cases hp.unique hx hg rfl
  case pending => intro g hg; exact hp.pending g (hpend.mem_iff.2 (List.mem_cons_of_mem _ hg))
  case busy => rw [hexec]; exact hp.busy
  case staffed =>
    intro hq hnil
    exact hp.staffed hq ((List.set_eq_nil_iff ..).1 hnil)
  case ended =>
    intro hm
    rcases List.mem_or_eq_of_mem_set hm with hm | hm
    · exact hp.ended hm
    · cases hm
  case broken => exact hp.broken
  case closed =>
    intro hc
    cases (hp.closed hc).2 _ (List.mem_of_getElem? ht)

theorem Ok.ends (hp : p.Ok cfg) {t : ℕ} {ctx : Option C} {f : Future} {ad : Admitted P K H}
    {pre post : List (Call P K H R E)} (o : Except E R) (ht : p.threads[t]? = some (.busy ctx f))
    (hi : p.run.c.inflight = pre ++ ⟨f, ad, .running⟩ :: post) :
    Ok cfg { p with
      run := { p.run with c :=
        { p.run.c with inflight := pre ++ ⟨f, ad, .finished o⟩ :: post } }
      threads := p.threads.set t (.idle ctx) } := by
  have hpend : (p.threads.set t (.idle ctx)).flatMap Thread.pending =
      p.threads.flatMap Thread.pending := flatMap_set_same ht rfl
  obtain ⟨thpre, thpost, he, hset⟩ := flatMap_set ht (.idle ctx) Thread.executing
  have hheld : p.held.Perm
      (f :: (p.pending ++ (p.threads.set t (.idle ctx)).flatMap Thread.executing)) := by
    rw [held, hset, he]
    simp only [Thread.executing, List.append_assoc, List.cons_append, List.nil_append]
    rw [← List.append_assoc, ← List.append_assoc]
    exact List.perm_middle
  have hnd := hheld.nodup_iff.1 hp.nodup
  rw [List.nodup_cons] at hnd
  have hpool : (pre ++ ⟨f, ad, .finished o⟩ :: post).map (fun x : Call P K H R E => (x.fut, x.ad)) =
      p.run.c.pool := by
    rw [Coord.pool, hi]; simp
  have stay : ∀ {g a state}, g ≠ f → ⟨g, a, state⟩ ∈ p.run.c.inflight →
      (⟨g, a, state⟩ : Call P K H R E) ∈ pre ++ ⟨f, ad, .finished o⟩ :: post := by
    intro g a state hne hx
    rw [hi, List.mem_append, List.mem_cons] at hx
    rw [List.mem_append, List.mem_cons]
    rcases hx with hx | hx | hx
    · exact Or.inl hx
    · cases hx; exact absurd rfl hne
    · exact Or.inr (Or.inr hx)
  constructor
  case calls =>
    obtain ⟨h₁, h₂, h₃⟩ := hp.calls
    constructor <;> rw [Coord.pool, hpool] <;> assumption
  case workers => rw [List.length_set]; exact hp.workers
  case nodup =>
    rw [held, Pool.pending, hpend]
    exact hnd.2
  case running =>
    intro g a hg
    have hx : ⟨g, a, .running⟩ ∈ p.run.c.inflight := by
      rw [List.mem_append, List.mem_cons] at hg
      rw [hi, List.mem_append, List.mem_cons]
      rcases hg with hg | hg | hg
      · exact Or.inl hg
      · cases hg
      · exact Or.inr (Or.inr hg)
    rw [held, Pool.pending, hpend]
    refine (List.mem_cons.1 (hheld.mem_iff.1 (hp.running g a hx))).resolve_left ?_
    -- the call that ends is the only one under its future
    rintro rfl
    obtain ⟨prex, postx, hix⟩ := List.append_of_mem hg
    have hf : ((pre ++ ⟨g, ad, .finished o⟩ :: post).map (·.fut)).Nodup := by
      have := hp.calls.futures
      rw [← hpool, List.map_map] at this
      exact this
    obtain ⟨-, h, -⟩ := List.append_cons_unique hf hix rfl
    cases h
  case pending =>
    intro g hg
    rw [Pool.pending, hpend] at hg
    have hne : g ≠ f := by
      rintro rfl
      exact hnd.1 (List.mem_append_left _ hg)
    obtain ⟨a, hx⟩ := hp.pending g hg
    exact ⟨a, hx.imp (stay hne) (stay hne)⟩
  case busy =>
    intro g hg
    have hne : g ≠ f := by
      rintro rfl
      exact hnd.1 (List.mem_append_right _ hg)
    rw [hset] at hg
    obtain ⟨a, hx⟩ := hp.busy g (by
      rw [he]
      simp only [List.append_assoc, List.mem_append, Thread.executing, List.not_mem_nil,
        false_or] at hg ⊢
      exact hg.imp_right Or.inr)
    exact ⟨a, stay hne hx⟩
  case staffed =>
    intro hq hnil
    exact hp.staffed hq ((List.set_eq_nil_iff ..).1 hnil)
  case ended =>
    intro hm
    rcases List.mem_or_eq_of_mem_set hm with hm | hm
    · exact hp.ended hm
    · cases hm
  case broken => exact hp.broken
  case closed =>
    intro hc
    cases (hp.closed hc).2 _ (List.mem_of_getElem? ht)

theorem Ok.teardown (hp : p.Ok cfg) (hl : p.run.loc.inFinally) (hall : ∀ x ∈ p.threads, x = .ended)
    (escaped : Option E) : Ok cfg { p with torn := p.torn + 1, escaped := escaped } where
  calls := hp.calls
  workers := hp.workers
  nodup := hp.nodup
  running := hp.running
  pending := hp.pending
  busy := hp.busy
  staffed := hp.staffed
  ended := hp.ended
  broken := hp.broken
  closed _ := ⟨Loc.atEnd_of_inFinally hl, hall⟩

theorem Ok.leave (hp : p.Ok cfg) (hl : p.run.loc.inFinally) (hall : ∀ x ∈ p.threads, x = .ended) :
    Ok cfg { p with run := { p.run with loc := p.run.loc.afterFinally } } where
  calls := hp.calls
  workers := hp.workers
  nodup := hp.nodup
  running := hp.running
  pending := hp.pending
  busy := hp.busy
  staffed := hp.staffed
  ended hm := (hp.ended hm).imp_right fun _ => Or.inr (Loc.afterFinally_atEnd hl)
  broken := hp.broken
  closed _ := ⟨Loc.afterFinally_atEnd hl, hall⟩

end

section
variable [DecidableEq K] {cfg : Config σ K H R E} {hooks : WorkerHooks E} {w : World P K H E}
  {W : Set (World P K H E)} {p p' : Pool σ P K H R E C} {act : Act P K H R E C}

theorem Ok.step (hp : p.Ok cfg) (h : Step cfg hooks w p act p') : p'.Ok cfg := by
  cases h with
  | coordinator hl hs hev hsub => exact hp.coordinator hl hs hev hsub
  | submit spawn hb hs hw hne => exact hp.submit spawn hb hs hw hne
  | refused hb hs => exact hp.refused hb hs
  | cancel hl _ => exact hp.cancel hl
  | @setup _ ctx _ ht _ =>
    exact hp.thread ht (rfl : (Thread.idle ctx).pending = _) rfl (by simp) (by simp) _
  | setupRaises _ ht _ => exact hp.setupRaises ht _
  | take _ ht hq => exact hp.take ht hq
  | start _ ht hx => exact hp.start ht hx
  | skip _ ht hx => exact hp.skip ht hx
  | ends o _ ht hi => exact hp.ends o ht hi
  | exit hl ht hq =>
    exact hp.thread ht (rfl : Thread.ended.pending = _) rfl (by simp)
      (fun _ => ⟨hq, Loc.atEnd_of_inFinally hl⟩) _
  | teardown hl hall _ _ _ => exact hp.teardown hl hall _
  | teardownEscapes hl hall _ _ _ _ => exact hp.teardown hl hall _
  | leave hl hall _ _ => exact hp.leave hl hall

/-- The `finally` is over only when no call is left. -/
theorem Ok.leave_run (hp : p.Ok cfg) (hw : w ∈ W) (hl : p.run.loc.inFinally)
    (hall : ∀ x ∈ p.threads, x = .ended) :
    cfg.step W p.run .tau { p.run with loc := p.run.loc.afterFinally } := by
  have hnone : ∀ x ∈ p.run.c.inflight, x.state ≠ .running := by
    rintro ⟨f, ad, state⟩ hx rfl
    have := hp.running f ad hx
    rw [hp.held_nil hall] at this
    cases this
  obtain ⟨⟨loc, c, st⟩, _⟩ := p
  cases loc with
  | shutdown exc =>
    cases exc with
    | none => exact ⟨w, hw, .left hnone⟩
    | some fault => exact ⟨w, hw, .failed hnone⟩
  | _ => cases hl

/-- What the coordinator sees of one step. -/
theorem Ok.simulate (hp : p.Ok cfg) (h : Pool.step cfg hooks W p act p') :
    Lts.Run (cfg.step W) p.run (act.events hooks.brokenPool) p'.run := by
  obtain ⟨w, hw, h⟩ := h
  cases h with
  | coordinator _ hs _ _ => exact .single ⟨w, hw, hs⟩
  | submit _ _ hs _ _ => exact .single ⟨w, hw, hs⟩
  | refused _ hs => exact .single ⟨w, hw, hs⟩
  | cancel hl hf =>
    obtain ⟨⟨loc, c, st⟩, _⟩ := p
    subst hl
    exact .single ⟨w, hw, .cancel _ hf⟩
  | setupRaises hd _ _ => exact run_failAll hw hd _ _ _ _
  | ends o hd _ hi => exact .single ⟨w, hw, .finish o hd hi⟩
  | leave hl hall _ _ => exact .single (hp.leave_run hw hl hall)
  | _ => exact .nil

end

end Pool

/-- **The pool refines the coordinator's loop.**  What the coordinator sees of any
    interleaving of its threads is a run of `Step`. -/
theorem pool_refines [DecidableEq K] {cfg : Config σ K H R E} {hooks : WorkerHooks E}
    {w₀ : Hooks P K H E} {W : Set (World P K H E)} {items : List (CheckpointItem P)} {st : σ}
    {s₀ : State σ P K H R E} {tr : List (Pool.Act P K H R E C)} {p : Pool σ P K H R E C}
    (hb : begin w₀ items st = .ok s₀) (hr : Lts.Run (Pool.step cfg hooks W) (Pool.start s₀) tr p) :
    p.Ok cfg ∧ Lts.Run (cfg.step W) s₀ (tr.flatMap (Pool.Act.events hooks.brokenPool)) p.run :=
  hr.simulate Pool.run (Pool.Act.events hooks.brokenPool) (Pool.Ok cfg)
    (fun hp ⟨_, _, h⟩ => hp.step h) Pool.Ok.simulate (.init hb)

/-! ### Two threads -/

def poolItem (d : ℕ) : Admitted (List ℕ) ℕ ℕ := ⟨⟨[d], {}⟩, d, 1, 0⟩

/-- The payloads `1` and `2` are admitted. -/
def poolStart : State (List (ℕ × ℕ)) (List ℕ) ℕ ℕ ℕ Bool :=
  ⟨.head,
    { liveMap := Function.update (Function.update (fun _ => none) 1 (some 1)) 2 (some 1)
      terminalKeys := {2, 1}
      terminalHash := Function.update (Function.update (fun _ => none) 1 (some 1)) 2 (some 1)
      ready := [poolItem 1, poolItem 2] }, []⟩

theorem poolStart_begins :
    begin sampleWorld.toHooks [⟨[1], {}⟩, ⟨[2], {}⟩] [] = .ok poolStart := rfl

/-- The second thread takes the first call and starts it last; both calls end before `wait`
    returns. -/
def poolTrace : List (Pool.Act (List ℕ) ℕ ℕ ℕ Bool ℕ) :=
  [.coordinator .tau, .coordinator (.submit 0 (poolItem 1)), .coordinator (.submit 1 (poolItem 2)),
    .setup 1 (some 8), .take 1 0, .setup 0 (some 7), .take 0 1, .start 0 (some 7) 1,
    .start 1 (some 8) 0,
    .coordinator .tau, .ends 0 1 (poolItem 2) (.ok 20), .ends 1 0 (poolItem 1) (.ok 10),
    .coordinator .tau, .coordinator (.commit 1 (poolItem 2) 20),
    .coordinator (.commit 0 (poolItem 1) 10), .coordinator .tau, .coordinator .tau,
    .coordinator .tau, .coordinator .tau, .exit 0, .exit 1, .teardown (some 8),
    .teardown (some 7), .leave]

def poolEnd : Pool (List (ℕ × ℕ)) (List ℕ) ℕ ℕ ℕ Bool ℕ where
  run := ⟨.done, { poolStart.c with ready := [], attemptsTotal := 2, committed := 2 },
    [(1, 10), (2, 20)]⟩
  threads := [.ended, .ended]
  created := [some 8, some 7]
  torn := 2

theorem poolTrace_run : Lts.Run (Pool.step sampleConfig ⟨true, true, false⟩ {sampleWorld})
    (Pool.start poolStart) poolTrace poolEnd := by
  refine .cons ⟨_, rfl, .coordinator (by decide) (.enter (Or.inl (by decide)) rfl) rfl (.refl _)⟩ ?_
  refine .cons ⟨_, rfl, .submit true (by decide) (.submit rfl (by decide) rfl) (by decide)
    (by decide)⟩ ?_
  dsimp only
  refine .cons ⟨_, rfl, .submit true (by decide) (.submit rfl (by decide) rfl) (by decide)
    (by decide)⟩ ?_
  dsimp only
  refine .cons ⟨_, rfl, .setup (by decide) rfl (by decide)⟩ ?_
  dsimp only
  refine .cons ⟨_, rfl, .take (by decide) rfl (rfl : _ = [] ++ _ :: [_])⟩ ?_
  dsimp only
  refine .cons ⟨_, rfl, .setup (by decide) rfl (by decide)⟩ ?_
  dsimp only
  refine .cons ⟨_, rfl, .take (by decide) rfl (rfl : _ = [] ++ _ :: [])⟩ ?_
  dsimp only
  refine .cons ⟨_, rfl, .start (by decide) rfl (.tail _ (.head _))⟩ ?_
  dsimp only
  refine .cons ⟨_, rfl, .start (by decide) rfl (.head _)⟩ ?_
  dsimp only
  refine .cons ⟨_, rfl, .coordinator (by decide) (.toWait (Or.inl rfl) (by simp)) rfl (.refl _)⟩ ?_
  dsimp only
  refine .cons ⟨_, rfl, .ends _ (by decide) rfl (rfl : _ = [_] ++ _ :: [])⟩ ?_
  dsimp only
  refine .cons ⟨_, rfl, .ends _ (by decide) rfl (rfl : _ = [] ++ _ :: [_])⟩ ?_
  dsimp only
  refine .cons ⟨_, rfl, .coordinator (by decide) (.woke [1, 0] (by decide) ?_
    (fun h => by cases h)) rfl (.refl _)⟩ ?_
  · intro f hf
    rcases List.mem_cons.1 hf with rfl | hf
    · exact ⟨_, _, .tail _ (.head _)⟩
    · cases List.mem_singleton.1 hf; exact ⟨_, _, .head _⟩
  dsimp only
  refine .cons ⟨_, rfl, .coordinator (by decide) (.commit (rfl : _ = [_] ++ _ :: []) ⟨rfl, rfl⟩) rfl
    (by simp)⟩ ?_
  dsimp only
  refine .cons ⟨_, rfl, .coordinator (by decide) (.commit (rfl : _ = [] ++ _ :: []) ⟨rfl, rfl⟩) rfl
    (by simp)⟩ ?_
  dsimp only
  refine .cons ⟨_, rfl, .coordinator (by decide) .collected rfl (.refl _)⟩ ?_
  dsimp only
  refine .cons ⟨_, rfl, .coordinator (by decide) .promote rfl (.refl _)⟩ ?_
  dsimp only
  refine .cons ⟨_, rfl, .coordinator (by decide) (.popped (by simp)) rfl (.refl _)⟩ ?_
  dsimp only
  refine .cons ⟨_, rfl, .coordinator (by decide) (.leave (by simp [Coord.busy]) rfl) rfl
    (.refl _)⟩ ?_
  dsimp only
  refine .cons ⟨_, rfl, .exit rfl rfl rfl⟩ ?_
  dsimp only
  refine .cons ⟨_, rfl, .exit rfl rfl rfl⟩ ?_
  dsimp only
  refine .cons ⟨_, rfl, .teardown rfl (by decide) rfl rfl rfl⟩ ?_
  dsimp only
  refine .cons ⟨_, rfl, .teardown rfl (by decide) rfl rfl rfl⟩ ?_
  dsimp only
  exact .cons ⟨_, rfl, .leave rfl (by decide) rfl fun _ => rfl⟩ .nil

theorem pool_refines_sample :
    Lts.Run (sampleConfig.step {sampleWorld}) poolStart
      [.tau, .submit 0 (poolItem 1), .submit 1 (poolItem 2), .tau, .finish 1 (poolItem 2) (.ok 20),
        .finish 0 (poolItem 1) (.ok 10), .tau, .commit 1 (poolItem 2) 20,
        .commit 0 (poolItem 1) 10, .tau, .tau, .tau, .tau, .tau] poolEnd.run :=
  (pool_refines poolStart_begins poolTrace_run).2

end ResumableBatch
