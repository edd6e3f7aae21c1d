/-
  When a retry runs: its delay, the order in which retries leave the heap, and what
  happens to a hint of the server that is refused (`retry_timing`).
-/
import ResumableBatch.Proof.SplitFailure
import ResumableBatch.Proof.Waits

namespace ResumableBatch

variable {P K H R E σ : Type}

/-! ## The heap -/

namespace Retry

/-- `x` is ready before `y`, or at the same time and was requeued before. -/
def Earlier (x y : Retry P K H) : Prop :=
  ∃ p q, x.readyAt = .fin p ∧ y.readyAt = .fin q ∧ (p < q ∨ p = q ∧ x.seq < y.seq)

theorem Earlier.trans {x y z : Retry P K H} (h : x.Earlier y) (h' : y.Earlier z) : x.Earlier z := by
  obtain ⟨p, q, hx, hy, hpq⟩ := h
  obtain ⟨q', r, hy', hz, hqr⟩ := h'
  obtain rfl := PyFloat.fin.inj (hy.symm.trans hy')
  refine ⟨p, r, hx, hz, ?_⟩
  rcases hpq with hpq | ⟨rfl, hpq⟩
  · rcases hqr with hqr | ⟨rfl, -⟩
    · exact Or.inl (hpq.trans hqr)
    · exact Or.inl hpq
  · rcases hqr with hqr | ⟨rfl, hqr⟩
    · exact Or.inl hqr
    · exact Or.inr ⟨rfl, hpq.trans hqr⟩

theorem Earlier.asymm {x y : Retry P K H} (h : x.Earlier y) : ¬ y.Earlier x := by
  intro h'
  obtain ⟨p, q, hx, hy, hpq⟩ := h.trans h'
  obtain rfl := PyFloat.fin.inj (hx.symm.trans hy)
  rcases hpq with hpq | ⟨-, hpq⟩
  · exact lt_irrefl p hpq
  · exact lt_irrefl _ hpq

theorem before_iff {x y : Retry P K H} {p q : ℚ} (hx : x.readyAt = .fin p)
    (hy : y.readyAt = .fin q) : x.before y ↔ x.Earlier y := by
  have hlt : x.before y ↔ p < q ∨ p = q ∧ x.seq < y.seq := by
    unfold before
    rw [hx, hy]
    by_cases hpq : p = q
    · simp [hpq]
    · simp [hpq, PyFloat.lt]
  rw [hlt]
  constructor
  · exact fun h => ⟨p, q, hx, hy, h⟩
  · rintro ⟨p', q', hx', hy', h⟩
    obtain rfl := PyFloat.fin.inj (hx.symm.trans hx')
    obtain rfl := PyFloat.fin.inj (hy.symm.trans hy')
    exact h

end Retry

/-- The heap is in order, and `n` is the number of the next requeue. -/
structure HeapOk (n : ℕ) (heap : List (Retry P K H)) : Prop where
  sorted : heap.Pairwise Retry.Earlier
  finite : ∀ r ∈ heap, ∃ q, r.readyAt = .fin q
  seq : ∀ r ∈ heap, r.seq < n

namespace HeapOk

variable {n : ℕ} {heap : List (Retry P K H)} {r : Retry P K H}

theorem tail (h : HeapOk n (r :: heap)) : HeapOk n heap :=
  ⟨(List.pairwise_cons.1 h.sorted).2, fun x hx => h.finite x (List.mem_cons_of_mem _ hx),
    fun x hx => h.seq x (List.mem_cons_of_mem _ hx)⟩

/-- A new entry is pushed in its place. -/
theorem sorted_push (h : HeapOk n heap) {q : ℚ} {ad : Admitted P K H} :
    (heappush ⟨.fin q, n, ad⟩ heap).Pairwise Retry.Earlier := by
  induction heap with
  | nil => exact List.pairwise_singleton _ _
  | cons x xs ih =>
    obtain ⟨hx, hxs⟩ := List.pairwise_cons.1 h.sorted
    obtain ⟨p, hp⟩ := h.finite x List.mem_cons_self
    have hseq : x.seq < n := h.seq x List.mem_cons_self
    unfold heappush
    by_cases hlt : Retry.before ⟨.fin q, n, ad⟩ x
    · rw [if_pos hlt, List.pairwise_cons]
      have hfirst := (Retry.before_iff rfl hp).1 hlt
      refine ⟨fun y hy => ?_, h.sorted⟩
      rcases List.mem_cons.1 hy with rfl | hy
      · exact hfirst
      · exact hfirst.trans (hx y hy)
    · rw [if_neg hlt, List.pairwise_cons]
      refine ⟨fun y hy => ?_, ih h.tail⟩
      rw [(heappush_perm _ _).mem_iff, List.mem_cons] at hy
      rcases hy with rfl | hy
      · refine ⟨p, q, hp, rfl, ?_⟩
        rw [Retry.before_iff rfl hp] at hlt
        by_contra hnot
        refine hlt ⟨q, p, rfl, hp, Or.inl ?_⟩
        rcases lt_trichotomy p q with hpq | hpq | hpq
        · exact absurd (Or.inl hpq) hnot
        · exact absurd (Or.inr ⟨hpq, hseq⟩) hnot
        · exact hpq
      · exact hx y hy

theorem push (h : HeapOk n heap) (q : ℚ) (ad : Admitted P K H) :
    HeapOk (n + 1) (heappush ⟨.fin q, n, ad⟩ heap) := by
  refine ⟨h.sorted_push, fun r hr => ?_, fun r hr => ?_⟩ <;>
    rw [(heappush_perm _ _).mem_iff, List.mem_cons] at hr <;> rcases hr with rfl | hr
  · exact ⟨q, rfl⟩
  · exact h.finite r hr
  · exact Nat.lt_succ_self n
  · exact (h.seq r hr).trans (Nat.lt_succ_self n)

end HeapOk

/-! ## The delay of a requeue -/

section
variable [DecidableEq K] {cfg : Config σ K H R E} {w : World P K H E} {ad : Admitted P K H}
  {exc : E} {c c' : Coord P K H R E}

/-- The bounds of the delay `d` after the `n`-th transient failure. -/
structure Envelope (cfg : Config σ K H R E) (w : World P K H E) (exc : E) (n : ℕ) (d : ℚ) :
    Prop where
  server : ∀ v, w.serverDelay exc = .ok (some v) → ∃ hint, v = .fin hint ∧ hint ≤ d
  lower : max 0 (1 - cfg.retry.jitter) * cfg.retry.capped n ≤ d
  upper : (d : WithTop ℚ) ≤ max (cfg.retry.maxDelay * ((1 + cfg.retry.jitter : ℚ) : WithTop ℚ))
    (cfg.retry.maxServerDelay : WithTop ℚ)

/-- **The delay of a requeue in exact arithmetic.** -/
theorem Requeued.envelope (hexact : cfg.floatMax = ⊤) (hpol : cfg.retry.Nonneg)
    (hu : IsUniform w.uniform) (h : Requeued cfg w ad exc c c') :
    ∃ d, Envelope cfg w exc (c.transientAttempts ad.contentKey + 1) d ∧
      c'.delayed = heappush ⟨.fin (w.monotonic + d), c.seqCounter, ad⟩ c.delayed ∧
      c'.seqCounter = c.seqCounter + 1 := by
  obtain ⟨-, server, hint, backoff, hs, hh, hb, rfl⟩ := h
  obtain ⟨hlow, hhigh⟩ := hpol.delay (n := c.transientAttempts ad.contentKey + 1) hu
  rw [hexact, backoffDelay_exact] at hb
  generalize max 0 (cfg.retry.capped (c.transientAttempts ad.contentKey + 1) *
    cfg.retry.factor w.uniform) = d at hlow hhigh hb
  cases hb
  -- no hint is as good as a hint of zero
  obtain ⟨q, rfl, hq, hserver⟩ : ∃ q, hint = .fin q ∧ q ≤ cfg.retry.maxServerDelay ∧
      ∀ v, server = some v → v = .fin q := by
    rcases serverHint_ok.1 hh with ⟨rfl, rfl⟩ | ⟨q, rfl, -, hq, rfl⟩
    · exact ⟨0, rfl, cfg.retry.maxServerDelay_nonneg, nofun⟩
    · exact ⟨q, rfl, hq, fun v hv => (Option.some.inj hv).symm⟩
  refine ⟨max d q, ⟨fun v hv => ?_, ?_, ?_⟩, ?_, rfl⟩
  · rw [hs] at hv
    exact ⟨q, hserver v (Except.ok.inj hv), le_max_right _ _⟩
  · exact hlow.trans (le_max_left _ _)
  · rw [WithTop.coe_max]
    exact max_le_max hhigh (WithTop.coe_le_coe.2 hq)
  · rw [Coord.requeue_delayed, PyFloat.max_fin]
    rfl

end

/-! ## What a step does to the heap -/

namespace Event

/-- The item taken from the ready queue. -/
def dispatched : Event P K H R E → Option (Admitted P K H)
  | resume ad | submit _ ad | storeRaises none ad _ | abort none ad _ => some ad
  | _ => none

end Event

section
variable [DecidableEq K] {cfg : Config σ K H R E} {w : World P K H E} {s s' : State σ P K H R E}
  {ev : Event P K H R E}

/-- The clock of the promotion loop is read when it is entered. -/
theorem Step.reads_clock (h : Step cfg w s ev s') {now : ℚ} (hl : s'.loc = .pop now) :
    s.loc = .pop now ∨ w.monotonic = now := by
  cases h <;> simp_all

theorem Step.dispatched (h : Step cfg w s ev s') {ad : Admitted P K H}
    (hd : ev.dispatched = some ad) : ad ∈ s.c.ready := by
  cases h with
  | resume hr => cases hd; simp [hr]
  | submit hr => cases hd; simp [hr]
  | hasRaises hr => cases hd; simp [hr]
  | submitRaises hr => cases hd; simp [hr]
  | _ => cases hd

end

/-! ## Runs with a clock -/

section
variable [DecidableEq K] {cfg : Config σ K H R E} {w : World P K H E}
  {s₀ s s' : State σ P K H R E} {tr : List (World P K H E × Event P K H R E)}

/-- The items requeued, in order. -/
def requeues (tr : List (World P K H E × Event P K H R E)) : List (Admitted P K H) :=
  tr.filterMap fun l => l.2.requeued

omit [DecidableEq K] in
theorem requeues_snoc (tr : List (World P K H E × Event P K H R E))
    (l : World P K H E × Event P K H R E) :
    requeues (tr ++ [l]) = requeues tr ++ l.2.requeued.toList := by
  simp [requeues, List.filterMap_append, List.filterMap_cons]
  cases l.2.requeued <;> rfl

/-- The heap and the counters after the steps `tr`. -/
structure Timed (tr : List (World P K H E × Event P K H R E)) (s : State σ P K H R E) : Prop where
  heap : HeapOk s.c.seqCounter s.c.delayed
  counter : s.c.seqCounter = (requeues tr).length
  attempts : s.Healthy →
    ∀ k, s.c.transientAttempts k = (requeues tr).countP fun ad => ad.contentKey = k

theorem Timed.step {l : World P K H E × Event P K H R E} (hexact : cfg.floatMax = ⊤)
    (hpol : cfg.retry.Nonneg) (hu : IsUniform l.1.uniform) (hw : s.Wf cfg) (ht : Timed tr s)
    (h : cfg.timedStep s l s') : Timed (tr ++ [l]) s' := by
  rcases h.heap with ⟨hev, hd, hc⟩ | ⟨d, now, hev, hd, hc, -, -⟩ |
    ⟨f, ad, exc, pre, post, hev, ⟨fs, hloc⟩, -, hreq⟩
  · have hsame : requeues (tr ++ [l]) = requeues tr := by simp [requeues_snoc, hev]
    refine ⟨by rw [hd, hc]; exact ht.heap, by rw [hc, hsame]; exact ht.counter, fun hh k => ?_⟩
    rw [h.attempts hh (by rintro f ad exc he; simp [he, Event.requeued] at hev), hsame]
    exact ht.attempts (h.healthy_back hh).1 k
  · have hsame : requeues (tr ++ [l]) = requeues tr := by simp [requeues_snoc, hev]
    refine ⟨?_, by rw [hc, hsame]; exact ht.counter, fun hh k => ?_⟩
    · rw [hc]
      exact (hd ▸ ht.heap).tail
    · rw [h.attempts hh (by rintro f ad exc he; simp [he, Event.requeued] at hev), hsame]
      exact ht.attempts (h.healthy_back hh).1 k
  · obtain ⟨d, -, hd, hc⟩ := hreq.envelope hexact hpol hu
    have hmore : requeues (tr ++ [l]) = requeues tr ++ [ad] := by
      simp [requeues_snoc, hev, Event.requeued]
    have hs : s.Healthy := hw.healthy (by rw [hloc]; exact id) (by rw [hloc]; exact id)
    refine ⟨?_, ?_, fun _ k => ?_⟩
    · rw [hd, hc]
      exact ht.heap.push _ _
    · rw [hc, hmore, List.length_append, ← ht.counter]
      rfl
    · obtain ⟨w, ev⟩ := l
      obtain rfl : ev = .requeue f ad exc := hev
      obtain ⟨-, -, -, -, hatt⟩ := Step.requeue_inv h
      rw [hatt, hmore, List.countP_append, ← ht.attempts hs, Function.update_apply,
        List.countP_singleton]
      by_cases hk : k = ad.contentKey
      · rw [if_pos hk, hk]
        simp
      · rw [if_neg hk]
        simp [Ne.symm hk]

theorem Timed.run {w₀ : Hooks P K H E} {items : List (CheckpointItem P)} {st : σ}
    (hexact : cfg.floatMax = ⊤) (hpol : cfg.retry.Nonneg) (hb : begin w₀ items st = .ok s₀)
    (hr : Lts.Run cfg.timedStep s₀ tr s) (hu : ∀ l ∈ tr, IsUniform l.1.uniform) : Timed tr s := by
  induction hr with
  | nil =>
    obtain ⟨-, -, h⟩ := begin_ok hb
    rw [h]
    exact ⟨⟨.nil, nofun, nofun⟩, rfl, fun _ _ => rfl⟩
  | snoc hr hs ih =>
    rw [List.forall_mem_append] at hu
    have hw := (Ledger.run hb (untimed hr)).1
    exact (ih hu.1).step hexact hpol (hu.2 _ List.mem_cons_self) hw hs

/-- The clock was read while the promotion loop was not yet entered. -/
theorem clock_read (hr : Lts.Run cfg.timedStep s tr s') (hs : ∀ now, s.loc ≠ .pop now) {now : ℚ}
    (hl : s'.loc = .pop now) : ∃ l ∈ tr, l.1.monotonic = now := by
  induction hr with
  | nil => exact absurd hl (hs now)
  | @snoc tr _ l _ _ h ih =>
    rcases h.reads_clock hl with hl | hnow
    · obtain ⟨l', hl', hnow⟩ := ih hl
      exact ⟨l', List.mem_append_left _ hl', hnow⟩
    · exact ⟨l, List.mem_append_right _ (List.mem_singleton_self l), hnow⟩

/-- An entry is in the heap until the clock has reached its time. -/
theorem waits {r : Retry P K H} {q : ℚ} (hr : Lts.Run cfg.timedStep s tr s')
    (hs : ∀ now, s.loc ≠ .pop now) (hmem : r ∈ s.c.delayed) (hq : r.readyAt = .fin q) :
    r ∈ s'.c.delayed ∨ ∃ l ∈ tr, q ≤ l.1.monotonic := by
  induction hr with
  | nil => exact Or.inl hmem
  | @snoc tr s₁ l s₂ hr h ih =>
    rcases ih with hin | ⟨l', hl', hle⟩
    · rcases h.heap with ⟨-, hd, -⟩ | ⟨d, now, -, hd, -, hloc, hle⟩ | ⟨f, ad, exc, pre, post, -, -, -,
        -, _, _, _, -, -, -, hc⟩
      · exact Or.inl (by rw [hd]; exact hin)
      · rw [hd, List.mem_cons] at hin
        rcases hin with rfl | hin
        · obtain ⟨l', hl', rfl⟩ := clock_read hr hs hloc
          rw [hq] at hle
          simp only [PyFloat.le, PyFloat.lt, Bool.not_eq_true', decide_eq_false_iff_not,
            not_lt] at hle
          exact Or.inr ⟨l', List.mem_append_left _ hl', hle⟩
        · exact Or.inl hin
      · left
        rw [hc, Coord.requeue_delayed, (heappush_perm _ _).mem_iff]
        exact List.mem_cons_of_mem _ hin
    · exact Or.inr ⟨l', List.mem_append_left _ hl', hle⟩

/-- A key that is delayed is not ready. -/
theorem Ledger.not_ready {roots : List (Admitted P K H)} {tr : List (Event P K H R E)}
    (hL : Ledger roots tr s) {r : Retry P K H} (hr : r ∈ s.c.delayed) {ad : Admitted P K H}
    (hready : ad ∈ s.c.ready) : ad.contentKey ≠ r.ad.contentKey := by
  have hnd := hL.nodup_leaves
  rw [leaves, Coord.work, List.append_assoc, List.append_assoc, List.append_assoc, List.map_append,
    List.map_append] at hnd
  have hr' : r.ad.contentKey ∈ (s.c.delayed.map (·.ad)).map (·.contentKey) :=
    List.mem_map_of_mem (List.mem_map_of_mem hr)
  exact (List.nodup_append.1 hnd).2.2 _ (List.mem_map_of_mem hready) _
    (List.mem_append_left _ hr')

/-- A step takes no entry of the heap before an earlier one. -/
theorem HeapOk.step (hs : HeapOk s.c.seqCounter s.c.delayed) (h : Step cfg w s ev s')
    {x y : Retry P K H} (hx : x ∈ s.c.delayed) (hy : y ∈ s.c.delayed) (hxy : x.Earlier y) :
    y ∈ s'.c.delayed := by
  rcases h.heap with ⟨-, hd, -⟩ | ⟨d, now, -, hd, -⟩ | ⟨f, ad, exc, pre, post, -, -, -, -, _, _, _,
    -, -, -, hc⟩
  · rw [hd]
    exact hy
  · have hsorted := hs.sorted
    rw [hd] at hx hy hsorted
    rcases List.mem_cons.1 hy with rfl | hy
    · rcases List.mem_cons.1 hx with rfl | hx
      · exact absurd hxy hxy.asymm
      · exact absurd ((List.pairwise_cons.1 hsorted).1 x hx) hxy.asymm
    · exact hy
  · rw [hc, Coord.requeue_delayed, (heappush_perm _ _).mem_iff]
    exact List.mem_cons_of_mem _ hy

/-- An entry that a step brings into the heap is new. -/
theorem HeapOk.step_back (h : Step cfg w s ev s') {x : Retry P K H} (hx : x ∈ s'.c.delayed)
    (hseq : x.seq < s.c.seqCounter) : x ∈ s.c.delayed := by
  rcases h.heap with ⟨-, hd, -⟩ | ⟨d, now, -, hd, -⟩ | ⟨f, ad, exc, pre, post, -, -, -, -, _, _, _,
    -, -, -, hc⟩
  · exact hd ▸ hx
  · rw [hd]
    exact List.mem_cons_of_mem _ hx
  · rw [hc, Coord.requeue_delayed, (heappush_perm _ _).mem_iff] at hx
    rcases List.mem_cons.1 hx with rfl | hx
    · exact absurd hseq (lt_irrefl _)
    · exact hx

theorem Step.seqCounter_le (h : Step cfg w s ev s') : s.c.seqCounter ≤ s'.c.seqCounter := by
  rcases h.heap with ⟨-, -, hc⟩ | ⟨_, _, -, -, hc, -⟩ | ⟨f, ad, exc, pre, post, -, -, -, -, _, _, _,
    -, -, -, hc⟩
  · exact hc.ge
  · exact hc.ge
  · rw [hc]
    exact Nat.le_succ _

end

/-! ## A hint that is refused -/

/-- Not a number, infinite, negative or above the bound. -/
def PyFloat.Refused (bound : ℚ) : PyFloat → Prop
  | .fin q => q < 0 ∨ bound < q
  | _ => True

theorem serverHint_refused {cfg : Config σ K H R E} {k : K} {v : PyFloat}
    (h : v.Refused cfg.retry.maxServerDelay) :
    ∃ reason, serverHint cfg k (some v) = .error reason := by
  cases hv : serverHint cfg k (some v) with
  | error reason => exact ⟨reason, rfl⟩
  | ok hint =>
    rcases serverHint_ok.1 hv with ⟨hnone, -⟩ | ⟨q, hq, hpos, hbound, -⟩
    · cases hnone
    · cases hq
      rcases h with h | h
      · exact absurd hpos (not_le.2 h)
      · exact absurd hbound (not_le.2 h)

section
variable [DecidableEq K] {cfg : Config σ K H R E} {w : World P K H E} {W : Set (World P K H E)}
  {s s' : State σ P K H R E} {ev : Event P K H R E}

/-- While an exception is on its way out the heap only shrinks, and nothing sleeps. -/
theorem State.Raising.heap {fault : Fault K H E} {tr : List (Event P K H R E)}
    (hs : s.Raising fault) (hr : Lts.Run (cfg.step W) s tr s') :
    s'.loc ≠ .sleep ∧ s'.c.delayed <:+ s.c.delayed := by
  have hraising : s'.Raising fault := hs.run hr
  constructor
  · intro hl
    rw [State.Raising, hl] at hraising
    simp [Loc.raising] at hraising
  · clear hraising
    induction hr with
    | nil => exact List.suffix_rfl
    | snoc hr h ih =>
      obtain ⟨w, -, h⟩ := h
      rcases h.heap with ⟨-, hd, -⟩ | ⟨d, now, -, hd, -⟩ | ⟨f, ad, exc, pre, post, -, ⟨fs, hl⟩, -⟩
      · rw [hd]
        exact ih
      · exact (hd ▸ List.suffix_cons _ _).trans ih
      · have := hs.run hr
        rw [State.Raising, hl] at this
        simp [Loc.raising] at this

/-- **A hint that is refused** delays nothing and ends the run. -/
theorem refused_hint_step {f : Future} {fs : List Future} {pre post : List (Call P K H R E)}
    {ad : Admitted P K H} {exc : E} {n : ℕ} {v : PyFloat} (hp : s.c.PoolOk cfg)
    (hloc : s.loc = .collect (f :: fs))
    (hi : s.c.inflight = pre ++ ⟨f, ad, .finished (.error exc)⟩ :: post) (hx : cfg.isException exc)
    (hfail : TransientFailure cfg w ad exc n s.c) (hv : w.serverDelay exc = .ok (some v))
    (href : v.Refused cfg.retry.maxServerDelay) (h : Step cfg w s ev s') :
    (∃ f' ad' o, ev = .finish f' ad' o) ∨
      s'.c.delayed = s.c.delayed ∧ ∃ reason, ∀ W : Set (World P K H E), w ∈ W →
        EndsRaising cfg W s' (.retryAfter reason) ∧
        ∀ tr s'', Lts.Run (cfg.step W) s' tr s'' →
          s''.loc ≠ .sleep ∧ s''.c.delayed <:+ s.c.delayed := by
  obtain ⟨loc, c, store⟩ := s
  subst hloc
  obtain ⟨reason, hreason⟩ := serverHint_refused (k := ad.contentKey) href
  have hfail' : TransientFailure cfg w ad exc n { c with inflight := pre ++ post } :=
    ⟨hfail.oom, hfail.whole, hfail.transient, hfail.nth, hfail.budget⟩
  have hroute := hfail'.route hv
  rw [hreason] at hroute
  rcases h.at_failure hp hi hx with hfin | ⟨c'', hr, rfl⟩ | ⟨fault, c'', hr, rfl⟩ |
    ⟨fault, c'', hr, rfl⟩
  · exact Or.inl hfin
  · rw [hr] at hroute
    cases hroute
  · rw [hr] at hroute
    cases hroute
    refine Or.inr ⟨rfl, reason, fun W hmem => ?_⟩
    have hraising : State.Raising (.retryAfter reason) (⟨.promote,
        { Coord.counted { c with inflight := pre ++ post } ad n with
          fatalExc := some (.retryAfter reason) }, store⟩ : State σ P K H R E) :=
      Or.inr ⟨rfl, Or.inl rfl⟩
    refine ⟨⟨?_, fun tr' s'' hr' => hraising.only hr'⟩, fun tr s'' hr' => hraising.heap hr'⟩
    obtain ⟨tr', s'', hr', hl⟩ := pop_ends exc hmem w.monotonic _ store
      (c := { Coord.counted { c with inflight := pre ++ post } ad n with
        fatalExc := some (.retryAfter reason) }) rfl rfl
    exact ⟨_, s'', .cons ⟨w, hmem, .promote⟩ hr', hl⟩
  · rw [hr] at hroute
    cases hroute

end

/-! ## The timing of retries -/

section
variable [DecidableEq K] {cfg : Config σ K H R E} {s₀ s : State σ P K H R E}
  {tr : List (World P K H E × Event P K H R E)} {w₀ : Hooks P K H E}
  {items : List (CheckpointItem P)} {st : σ}

/-- The key of a requeue is dispatched only when the clock has reached its time. -/
theorem requeue_waits (hexact : cfg.floatMax = ⊤) (hpol : cfg.retry.Nonneg)
    (hb : begin w₀ items st = .ok s₀) (hr : Lts.Run cfg.timedStep s₀ tr s)
    (hu : ∀ l ∈ tr, IsUniform l.1.uniform)
    (hclock : tr.Pairwise fun l l' => l.1.monotonic ≤ l'.1.monotonic)
    {pre post : List (World P K H E × Event P K H R E)} {w : World P K H E} {f : Future}
    {ad : Admitted P K H} {exc : E} (htr : tr = pre ++ (w, .requeue f ad exc) :: post) :
    ∃ d s₁, Envelope cfg w exc
        ((requeues pre).countP (fun a => a.contentKey = ad.contentKey) + 1) d ∧
      Lts.Run cfg.timedStep s₀ (pre ++ [(w, .requeue f ad exc)]) s₁ ∧
      ⟨.fin (w.monotonic + d), (requeues pre).length, ad⟩ ∈ s₁.c.delayed ∧
      Lts.Run cfg.timedStep s₁ post s ∧
      ∀ l ∈ post, ∀ ad', l.2.dispatched = some ad' → ad'.contentKey = ad.contentKey →
        w.monotonic + d ≤ l.1.monotonic := by
  subst htr
  rw [List.forall_mem_append, List.forall_mem_cons] at hu
  rw [show pre ++ (w, Event.requeue f ad exc) :: post =
    (pre ++ [(w, .requeue f ad exc)]) ++ post by simp] at hr
  obtain ⟨s₁, hr₁, hr₂⟩ := hr.split
  obtain ⟨sₚ, hrₚ, hstep⟩ := hr₁.snoc_inv
  have ht := Timed.run hexact hpol hb hrₚ hu.1
  have hwf := (Ledger.run hb (untimed hrₚ)).1
  rcases Step.heap hstep with ⟨hev, -⟩ | ⟨_, _, hev, -⟩ | ⟨f', ad', exc', pre', post', hev,
    ⟨fs, hloc⟩, ⟨fs', hloc'⟩, hreq⟩
  · cases hev
  · cases hev
  obtain ⟨rfl, rfl, rfl⟩ : f = f' ∧ ad = ad' ∧ exc = exc' := by
    cases hev
    exact ⟨rfl, rfl, rfl⟩
  obtain ⟨d, henv, hd, -⟩ := hreq.envelope hexact hpol hu.2.1
  have hs : sₚ.Healthy := hwf.healthy (by rw [hloc]; exact id) (by rw [hloc]; exact id)
  have hmem : ⟨.fin (w.monotonic + d), (requeues pre).length, ad⟩ ∈ s₁.c.delayed := by
    rw [hd, (heappush_perm _ _).mem_iff, ← ht.counter]
    exact List.mem_cons_self
  refine ⟨d, s₁, ?_, hr₁, hmem, hr₂, ?_⟩
  · rw [← ht.attempts hs]
    exact henv
  · intro l hl ad' hdisp hkey
    obtain ⟨before, after, s₂, s₃, rfl, hr₃, hdstep, -⟩ := hr₂.step_of_mem hl
    have hready := Step.dispatched hdstep hdisp
    have hnot : ∀ now, s₁.loc ≠ .pop now := by
      intro now hpop
      rw [hloc'] at hpop
      cases hpop
    rcases waits hr₃ hnot hmem rfl with hin | ⟨l', hl', hle⟩
    · have hL := (Ledger.run hb (untimed (hr₁.append hr₃))).2
      exact absurd hkey (hL.not_ready hin hready)
    · refine hle.trans ?_
      have hpost := (List.pairwise_cons.1 (List.pairwise_append.1 hclock).2.1).2
      exact (List.pairwise_append.1 hpost).2.2 l' hl' l List.mem_cons_self

/-- An earlier entry that is still in the heap was not pushed again, and a later one
    is there too. -/
theorem later_stays {x y : Retry P K H} (hseq : x.seq < s.c.seqCounter) (hy : y ∈ s.c.delayed)
    (hxy : x.Earlier y) {tr' : List (World P K H E × Event P K H R E)} {s' : State σ P K H R E}
    (hheap : ∀ pre s₁, pre <+: tr' → Lts.Run cfg.timedStep s pre s₁ →
      HeapOk s₁.c.seqCounter s₁.c.delayed)
    (hr' : Lts.Run cfg.timedStep s tr' s') :
    x.seq < s'.c.seqCounter ∧ (x ∈ s'.c.delayed → y ∈ s'.c.delayed) := by
  induction hr' with
  | nil => exact ⟨hseq, fun _ => hy⟩
  | @snoc tr' s₁ l s₂ hr' h ih =>
    obtain ⟨hlt, hin⟩ := ih fun pre s₁ hpre => hheap pre s₁ (hpre.trans (List.prefix_append _ _))
    refine ⟨hlt.trans_le (Step.seqCounter_le h), fun hx' => ?_⟩
    have hback := HeapOk.step_back h hx' hlt
    exact (hheap tr' s₁ (List.prefix_append _ _) hr').step h hback (hin hback) hxy

/-- Of two retries the earlier one leaves the heap first. -/
theorem leaves_in_order (hexact : cfg.floatMax = ⊤) (hpol : cfg.retry.Nonneg)
    (hb : begin w₀ items st = .ok s₀) (hr : Lts.Run cfg.timedStep s₀ tr s)
    (hu : ∀ l ∈ tr, IsUniform l.1.uniform) {x y : Retry P K H} (hx : x ∈ s.c.delayed)
    (hy : y ∈ s.c.delayed) (hxy : x.Earlier y)
    {tr' : List (World P K H E × Event P K H R E)} {s' s'' : State σ P K H R E}
    (hr' : Lts.Run cfg.timedStep s tr' s') (hu' : ∀ l ∈ tr', IsUniform l.1.uniform)
    {l : World P K H E × Event P K H R E} (h : cfg.timedStep s' l s'') (hx' : x ∈ s'.c.delayed) :
    y ∈ s''.c.delayed := by
  have hheap : ∀ pre s₁, pre <+: tr' → Lts.Run cfg.timedStep s pre s₁ →
      HeapOk s₁.c.seqCounter s₁.c.delayed := by
    intro pre s₁ hpre hr₁
    refine (Timed.run hexact hpol hb (hr.append hr₁) (List.forall_mem_append.2 ⟨hu, ?_⟩)).heap
    exact fun l hl => hu' l (hpre.subset hl)
  have hseq := (hheap [] s (List.nil_prefix) .nil).seq x hx
  have hin := (later_stays hseq hy hxy hheap hr').2 hx'
  exact (hheap tr' s' List.prefix_rfl hr').step h hx' hin hxy

/-- **The timing of retries**: the delay of every requeue is in its envelope, its key
    is not dispatched before it is over, retries leave the heap in order, and a hint
    that is refused ends the run. -/
theorem retry_timing (hexact : cfg.floatMax = ⊤) (hpol : cfg.retry.Nonneg)
    (hb : begin w₀ items st = .ok s₀) (hr : Lts.Run cfg.timedStep s₀ tr s)
    (hu : ∀ l ∈ tr, IsUniform l.1.uniform)
    (hclock : tr.Pairwise fun l l' => l.1.monotonic ≤ l'.1.monotonic) :
    (∀ pre w f ad exc post, tr = pre ++ (w, .requeue f ad exc) :: post →
      ∃ d s₁, Envelope cfg w exc
          ((requeues pre).countP (fun a => a.contentKey = ad.contentKey) + 1) d ∧
        Lts.Run cfg.timedStep s₀ (pre ++ [(w, .requeue f ad exc)]) s₁ ∧
        ⟨.fin (w.monotonic + d), (requeues pre).length, ad⟩ ∈ s₁.c.delayed ∧
        Lts.Run cfg.timedStep s₁ post s ∧
        ∀ l ∈ post, ∀ ad', l.2.dispatched = some ad' → ad'.contentKey = ad.contentKey →
          w.monotonic + d ≤ l.1.monotonic) ∧
    (∀ x ∈ s.c.delayed, ∀ y ∈ s.c.delayed, x.Earlier y →
      ∀ tr' s' l s'', Lts.Run cfg.timedStep s tr' s' → (∀ l ∈ tr', IsUniform l.1.uniform) →
        cfg.timedStep s' l s'' → x ∈ s'.c.delayed → y ∈ s''.c.delayed) ∧
    ∀ w ev s' f fs pre post ad exc n v, s.loc = .collect (f :: fs) →
      s.c.inflight = pre ++ ⟨f, ad, .finished (.error exc)⟩ :: post → cfg.isException exc →
      TransientFailure cfg w ad exc n s.c → w.serverDelay exc = .ok (some v) →
      v.Refused cfg.retry.maxServerDelay → Step cfg w s ev s' →
      (∃ f' ad' o, ev = .finish f' ad' o) ∨
        s'.c.delayed = s.c.delayed ∧ ∃ reason, ∀ W : Set (World P K H E), w ∈ W →
          EndsRaising cfg W s' (.retryAfter reason) ∧
          ∀ tr s'', Lts.Run (cfg.step W) s' tr s'' →
            s''.loc ≠ .sleep ∧ s''.c.delayed <:+ s.c.delayed := by
  refine ⟨fun pre w f ad exc post htr => requeue_waits hexact hpol hb hr hu hclock htr, ?_, ?_⟩
  · intro x hx y hy hxy tr' s' l s'' hr' hu' h hx'
    exact leaves_in_order hexact hpol hb hr hu hx hy hxy hr' hu' h hx'
  · intro w ev s' f fs pre post ad exc n v hloc hi hx hfail hv href h
    have hp := (Ledger.run hb (untimed hr)).1.pool
    exact refused_hint_step hp hloc hi hx hfail hv href h

end

/-! ## A sample run -/

/-- All floats are exact. -/
def exactConfig : Config (List (ℕ × ℕ)) ℕ ℕ ℕ Bool := { sampleConfig with floatMax := ⊤ }

/-- The payload `7` fails once. -/
def retryPlay :=
  playFrom exactConfig memCommit sampleWorld [⟨[7], {}⟩] []
    [.go, .go, .go, .ends 0 (.error false), .go [0], .go]

theorem retryPlay_isSome : retryPlay.isSome := by decide +kernel

theorem exact_nonneg : exactConfig.retry.Nonneg := by
  constructor <;> norm_num [exactConfig, sampleConfig]

theorem retryPlay_trace : (retryPlay.get retryPlay_isSome).2.1 =
    [.tau, .submit 0 ⟨⟨[7], {}⟩, 7, 1, 0⟩, .tau,
      .finish 0 ⟨⟨[7], {}⟩, 7, 1, 0⟩ (.error false), .tau] ++
      [.requeue 0 ⟨⟨[7], {}⟩, 7, 1, 0⟩ false] := rfl

theorem retry_timing_sample : ∃ d, Envelope exactConfig sampleWorld false 1 d ∧
    ∃ s : State (List (ℕ × ℕ)) (List ℕ) ℕ ℕ ℕ Bool,
      ⟨.fin (0 + d), 0, ⟨⟨[7], {}⟩, 7, 1, 0⟩⟩ ∈ s.c.delayed := by
  obtain ⟨hb, hr⟩ := playFrom_sound memCommit_spec (Option.some_get retryPlay_isSome).symm
  have hlabel : ∀ l ∈ (retryPlay.get retryPlay_isSome).2.1.map fun ev => (sampleWorld, ev),
      l.1 = sampleWorld := by
    intro l hl
    obtain ⟨ev, -, rfl⟩ := List.mem_map.1 hl
    rfl
  have hu : ∀ l ∈ (retryPlay.get retryPlay_isSome).2.1.map fun ev => (sampleWorld, ev),
      IsUniform l.1.uniform := by
    intro l hl
    rw [hlabel l hl]
    exact isUniform_left
  have hclock : ((retryPlay.get retryPlay_isSome).2.1.map fun ev => (sampleWorld, ev)).Pairwise
      fun l l' => l.1.monotonic ≤ l'.1.monotonic := by
    refine List.pairwise_of_forall_mem_list fun l hl l' hl' => ?_
    rw [hlabel l hl, hlabel l' hl']
  have htrace := congrArg (List.map fun ev => (sampleWorld, ev)) retryPlay_trace
  rw [List.map_append] at htrace
  obtain ⟨d, s, henv, -, hmem, -⟩ :=
    (retry_timing rfl exact_nonneg hb (timed hr) hu hclock).1 _ _ _ _ _ [] htrace
  exact ⟨d, henv, s, hmem⟩

end ResumableBatch
