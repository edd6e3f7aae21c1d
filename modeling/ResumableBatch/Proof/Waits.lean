/-
  Timeouts: how long `sleep` and `wait` are asked to wait for a retry, and when neither
  they nor the delay raise `OverflowError` (`backoff_defined_iff`).
-/
import ResumableBatch.Lib.EState
import ResumableBatch.Proof.Backoff
import ResumableBatch.Proof.Returns

namespace ResumableBatch

variable {P K H R E σ : Type}

/-! ## Timeouts -/

namespace PyFloat

theorem overlong_fin {bound : WithTop ℚ} {q : ℚ} :
    (fin q).overlong bound ↔ 0 < q ∧ bound < (q : WithTop ℚ) := by
  simp [overlong]

theorem overlong_mono {bound : WithTop ℚ} {p q : ℚ} (hpq : p ≤ q) (h : (fin p).overlong bound) :
    (fin q).overlong bound := by
  rw [overlong_fin] at h ⊢
  exact ⟨h.1.trans_le hpq, h.2.trans_le (WithTop.coe_le_coe.2 hpq)⟩

end PyFloat

theorem timeLeft_fin (q now : ℚ) : timeLeft (.fin q) now = .fin (max 0 (q - now)) := by
  rw [timeLeft, PyFloat.addTo, PyFloat.max_fin, neg_add_eq_sub]

/-- Neither `sleep` nor `wait` refuses the timeout. -/
def Config.Takes (cfg : Config σ K H R E) (timeout : PyFloat) : Prop :=
  ¬ timeout.overlong cfg.sleepMax ∧ ¬ timeout.overlong cfg.waitMax

namespace Config

variable {cfg : Config σ K H R E} {p q t now : ℚ}

theorem Takes.mono (h : cfg.Takes (.fin q)) (hpq : p ≤ q) : cfg.Takes (.fin p) :=
  ⟨fun hp => h.1 (PyFloat.overlong_mono hpq hp), fun hp => h.2 (PyFloat.overlong_mono hpq hp)⟩

theorem takes_zero : cfg.Takes (.fin 0) := by
  constructor <;> simp [PyFloat.overlong_fin]

theorem Takes.max (hp : cfg.Takes (.fin p)) (hq : cfg.Takes (.fin q)) :
    cfg.Takes (.fin (max p q)) := by
  rcases max_choice p q with h | h <;> rwa [h]

/-- The time left is no longer than the delay was. -/
theorem Takes.left (h : cfg.Takes (.fin q)) (hnow : t ≤ now) :
    cfg.Takes (timeLeft (.fin (t + q)) now) := by
  rw [timeLeft_fin]
  exact takes_zero.max (h.mono (by linarith))

/-- A delay can be waited for exactly when it is no longer than the bounds. -/
theorem takes_iff (hq : 0 ≤ q) :
    (∀ t now, t ≤ now → cfg.Takes (timeLeft (.fin (t + q)) now)) ↔ cfg.Takes (.fin q) := by
  refine ⟨fun h => ?_, fun h t now hnow => h.left hnow⟩
  have := h 0 0 le_rfl
  rwa [timeLeft_fin, zero_add, sub_zero, max_eq_right hq] at this

end Config

/-! ## What a step does to the heap -/

/-- The item requeued. -/
def Event.requeued : Event P K H R E → Option (Admitted P K H)
  | requeue _ ad _ => some ad
  | _ => none

section
variable [DecidableEq K] {cfg : Config σ K H R E} {w : World P K H E}
  {s s' s₀ : State σ P K H R E} {ev : Event P K H R E}
  {tr : List (World P K H E × Event P K H R E)} {l : World P K H E × Event P K H R E}

/-- An entry is pushed by a requeue and popped by a promotion. -/
theorem Step.heap (h : Step cfg w s ev s') :
    (ev.requeued = none ∧ s'.c.delayed = s.c.delayed ∧ s'.c.seqCounter = s.c.seqCounter) ∨
    (∃ d now, ev.requeued = none ∧ s.c.delayed = d :: s'.c.delayed ∧
      s'.c.seqCounter = s.c.seqCounter ∧ s.loc = .pop now ∧ d.readyAt.le (.fin now)) ∨
    ∃ f ad exc pre post, ev = .requeue f ad exc ∧ (∃ fs, s.loc = .collect (f :: fs)) ∧
      (∃ fs, s'.loc = .collect fs) ∧
      Requeued cfg w ad exc { s.c with inflight := pre ++ post } s'.c := by
  cases h with
  | @requeue _ _ _ f _ pre post ad exc hi _ hr hs =>
    obtain ⟨-, -, -, hreq⟩ := requeue_spec hr hs
    exact Or.inr (Or.inr ⟨f, ad, exc, pre, post, rfl, ⟨_, rfl⟩, ⟨_, rfl⟩, hreq⟩)
  | split _ _ hr hs =>
    obtain ⟨ads, -, -, -, -, rfl⟩ := split_spec hr hs
    exact Or.inl ⟨rfl, rfl, rfl⟩
  | fatal _ _ hr =>
    obtain ⟨_, _, rfl⟩ := routeException_some hr
    exact Or.inl ⟨rfl, rfl, rfl⟩
  | routeRaises _ _ hr =>
    obtain ⟨_, _, rfl⟩ := routeException_error hr
    exact Or.inl ⟨rfl, rfl, rfl⟩
  | pop hd hle => exact Or.inr (Or.inl ⟨_, _, rfl, hd, rfl, rfl, hle⟩)
  | _ => exact Or.inl ⟨rfl, rfl, rfl⟩

/-- No retry in the heap is too long to wait for, from the clock reading at which it
    was pushed. -/
def Due (cfg : Config σ K H R E) (tr : List (World P K H E × Event P K H R E))
    (s : State σ P K H R E) : Prop :=
  ∀ d ∈ s.c.delayed, ∃ l ∈ tr, ∃ q, d.readyAt = .fin (l.1.monotonic + q) ∧ cfg.Takes (.fin q)

omit [DecidableEq K] in
theorem Due.taken (hd : Due cfg tr s) (hclock : ∀ l ∈ tr, l.1.monotonic ≤ w.monotonic) :
    ∀ d ∈ s.c.delayed, cfg.Takes (timeLeft d.readyAt w.monotonic) := by
  intro d hmem
  obtain ⟨l, hl, q, hq, ht⟩ := hd d hmem
  rw [hq]
  exact ht.left (hclock l hl)

omit [DecidableEq K] in
theorem Due.finite (hd : Due cfg tr s) : ∀ d ∈ s.c.delayed, ∃ q, d.readyAt = .fin q := by
  intro d hmem
  obtain ⟨l, -, q, hq, -⟩ := hd d hmem
  exact ⟨_, hq⟩

/-- The delay of a requeue can be waited for. -/
def Waitable (cfg : Config σ K H R E) (s : State σ P K H R E)
    (l : World P K H E × Event P K H R E) : Prop :=
  ∀ f ad exc server hint backoff, l.2 = .requeue f ad exc →
    ((s.c.transientAttempts ad.contentKey + 1 : ℕ) : ℤ) < cfg.retry.maxAttempts →
    l.1.serverDelay exc = .ok server →
    serverHint cfg ad.contentKey server = .ok hint →
    backoffDelay cfg.floatMax cfg.retry (s.c.transientAttempts ad.contentKey + 1) l.1.uniform =
      some backoff →
    ∃ q, PyFloat.max backoff hint = .fin q ∧ cfg.Takes (.fin q)

theorem Due.step (hd : Due cfg tr s) (h : cfg.timedStep s l s') (hwait : Waitable cfg s l) :
    Due cfg (tr ++ [l]) s' := by
  have hold : ∀ d ∈ s.c.delayed, ∃ l' ∈ tr ++ [l], ∃ q,
      d.readyAt = .fin (l'.1.monotonic + q) ∧ cfg.Takes (.fin q) := by
    intro d hmem
    obtain ⟨l', hl', h⟩ := hd d hmem
    exact ⟨l', List.mem_append_left _ hl', h⟩
  intro d hmem
  rcases Step.heap h with ⟨-, hsame, -⟩ | ⟨_, _, -, hpop, -⟩ |
    ⟨f, ad, exc, pre, post, hev, -, -, hbud, server, hint, backoff, hs, hh, hb, hc⟩
  · exact hold d (hsame ▸ hmem)
  · exact hold d (hpop ▸ List.mem_cons_of_mem _ hmem)
  · obtain ⟨q, hq, ht⟩ := hwait f ad exc server hint backoff hev hbud hs hh hb
    rw [hc, Coord.requeue_delayed, (heappush_perm _ _).mem_iff, List.mem_cons] at hmem
    rcases hmem with rfl | hmem
    · exact ⟨l, by simp, q, by rw [hq]; rfl, ht⟩
    · exact hold d hmem

theorem Due.begin {w₀ : Hooks P K H E} {items : List (CheckpointItem P)} {st : σ}
    (hb : begin w₀ items st = .ok s₀) : Due cfg [] s₀ := by
  obtain ⟨-, -, h⟩ := begin_ok hb
  rw [h]
  exact nofun

/-- A timeout is refused only when some retry is too far away. -/
theorem Step.not_overlong (h : Step cfg w s ev s')
    (ht : ∀ d ∈ s.c.delayed, cfg.Takes (timeLeft d.readyAt w.monotonic)) : ev ≠ .overlong := by
  rintro rfl
  cases h with
  | waitRaises hd _ hlong => exact (ht _ (by simp [hd])).2 hlong
  | sleepRaises hd hlong => exact (ht _ (by simp [hd])).1 hlong

end

/-! ## `OverflowError` -/

section
variable [DecidableEq K] {cfg : Config σ K H R E} {w : World P K H E}

open EStateM

omit [DecidableEq K] in
theorem call_yields {α : Type} (o : Except E α) :
    Yields (fun _ => True) (· ≠ .overflow) (call o : Co P K H R E α) := by
  cases o with
  | ok a => exact .pure trivial
  | error e => exact .throw (by simp)

omit [DecidableEq K] in
theorem raiseIf_yields {p : Prop} [Decidable p] {fault : Fault K H E} (h : fault ≠ .overflow) :
    Yields (fun _ => True) (· ≠ .overflow) (raiseIf p fault : Co P K H R E Unit) :=
  .ite (fun _ => .throw h) fun _ => .pure trivial

theorem admitItem_yields (w : Hooks P K H E) (item : CheckpointItem P) (d : ℕ) :
    Yields (fun _ => True) (· ≠ .overflow) (admitItem w item d : Co P K H R E (Admitted P K H)) := by
  refine (call_yields _).bind fun _ _ => .bind .get fun c _ => ?_
  split
  · exact .throw (by simp)
  · exact .bind .modify fun _ _ => .pure trivial

theorem handleSplit_yields (w : Hooks P K H E) (policy : SplitPolicy P E) (ad : Admitted P K H) :
    Yields (fun _ => True) (· ≠ .overflow) (handleSplit cfg w policy ad) := by
  refine (raiseIf_yields (by simp)).bind fun _ _ => (call_yields _).bind fun _ _ => ?_
  refine (raiseIf_yields (by simp)).bind fun _ _ => (call_yields _).bind fun _ _ => ?_
  refine (call_yields _).bind fun _ _ => (raiseIf_yields (by simp)).bind fun _ _ => ?_
  exact (Yields.mapM fun _ => admitItem_yields _ _ _).bind fun _ _ => .modify

theorem splitOrFatal_yields (w : Hooks P K H E) (policy : SplitPolicy P E) (ad : Admitted P K H) :
    Yields (· ≠ some .overflow) (· ≠ .overflow) (splitOrFatal cfg w policy ad) := by
  refine .tryCatch ((handleSplit_yields w policy ad).bind fun _ _ => .pure (by simp)) ?_
  intro e he
  cases e with
  | splitFatal reason => exact .pure (by simp)
  | _ => exact .throw he

omit [DecidableEq K] in
theorem wantsSplit_yields (w : Hooks P K H E) (exc : E) (ad : Admitted P K H) :
    Yields (fun _ => True) (· ≠ .overflow)
      (wantsSplit w exc ad : Co P K H R E (Option (SplitPolicy P E))) := by
  unfold wantsSplit
  split
  · exact .pure trivial
  · refine (call_yields _).bind fun _ _ => ?_
    split <;> exact .pure trivial

/-- The delays of the transient failures within the budget are numbers. -/
def World.Delays (cfg : Config σ K H R E) (w : World P K H E) : Prop :=
  ∀ (n : ℕ) k exc server hint, 0 < n → (n : ℤ) < cfg.retry.maxAttempts →
    w.serverDelay exc = .ok server →
    serverHint cfg k server = .ok hint → backoffDelay cfg.floatMax cfg.retry n w.uniform ≠ none

theorem retryTransient_yields (hw : w.Delays cfg) (ad : Admitted P K H) (exc : E) :
    Yields (· ≠ some .overflow) (· ≠ .overflow) (retryTransient cfg w ad exc) := by
  refine .bind .get fun c _ => .bind .modify fun _ _ => .ite (fun hlt => ?_) fun _ => .pure (by simp)
  refine Yields.bind (Q := fun server => w.serverDelay exc = .ok server) ?_ fun server hs => ?_
  · cases hs : w.serverDelay exc with
    | ok server => exact .pure rfl
    | error e => exact .throw (by simp)
  · cases hh : serverHint cfg ad.contentKey server with
    | error reason => exact .pure (by simp)
    | ok hint =>
      dsimp only
      split
      · rename_i hnone
        exact absurd hnone (hw _ _ _ _ _ (Nat.succ_pos _) hlt hs hh)
      · exact .bind .modify fun _ _ => .pure (by simp)

/-- Routing raises `OverflowError` only for a delay that is no number. -/
theorem routeException_yields (hw : w.Delays cfg) (ad : Admitted P K H) (exc : E) :
    Yields (· ≠ some .overflow) (· ≠ .overflow) (routeException cfg w ad exc) := by
  refine (call_yields _).bind fun oom _ => .ite (fun _ => ?_) fun _ => ?_
  · refine (wantsSplit_yields _ _ _).bind fun policy _ => ?_
    cases policy with
    | some policy => exact splitOrFatal_yields _ _ _
    | none => exact .pure (by simp)
  · refine (wantsSplit_yields _ _ _).bind fun policy _ => ?_
    cases policy with
    | some policy => exact splitOrFatal_yields _ _ _
    | none =>
      exact (call_yields _).bind fun _ _ => .ite (fun _ => retryTransient_yields hw _ _)
        fun _ => .pure (by simp)

/-- `OverflowError` ends the run. -/
def State.Overflows (s : State σ P K H R E) : Prop :=
  s.c.fatalExc = some .overflow ∨ s.loc = .shutdown (some .overflow) ∨ s.loc = .failed .overflow

/-- It is met only in routing, and in waiting for a retry that is too far away. -/
theorem Step.not_overflows {s s' : State σ P K H R E} {ev : Event P K H R E}
    (h : Step cfg w s ev s') (hw : w.Delays cfg)
    (ht : ∀ d ∈ s.c.delayed, cfg.Takes (timeLeft d.readyAt w.monotonic)) (hs : ¬ s.Overflows) :
    ¬ s'.Overflows := by
  unfold State.Overflows at hs ⊢
  cases h with
  | requeue hi _ hr hq =>
    obtain ⟨-, -, -, -, _, _, _, -, -, -, rfl⟩ := requeue_spec hr hq
    simpa using hs
  | split hi _ hr hq =>
    obtain ⟨ads, -, -, -, -, rfl⟩ := split_spec hr hq
    simpa using hs
  | @fatal _ _ _ _ _ _ _ ad exc fault hi _ hr =>
    have hne := (routeException_yields hw ad exc).of_ok hr
    simpa using hne
  | @routeRaises _ _ _ _ _ _ _ ad exc fault hi _ hr =>
    have hne := (routeException_yields hw ad exc).of_error hr
    obtain ⟨m, t, rfl⟩ := routeException_error hr
    simp only [reduceCtorEq, Loc.shutdown.injEq, Option.some.injEq, or_false] at hs ⊢
    exact not_or.2 ⟨hs, hne⟩
  | waitRaises hd _ hlong => exact absurd hlong (ht _ (by simp [hd])).2
  | sleepRaises hd hlong => exact absurd hlong (ht _ (by simp [hd])).1
  | _ => simp_all [Coord.cancel]

end

/-! ## Backoff is defined -/

/-- The delay after the `n`-th failure is a number, and neither it nor the hint of the
    server is longer than `sleep` and `wait` take. -/
def Config.Bears (cfg : Config σ K H R E) (n : ℕ) (uniform : ℚ → ℚ → ℚ) (hint : ℚ) : Prop :=
  cfg.retry.Fits cfg.floatMax n uniform ∧
    cfg.Takes (.fin (max (cfg.retry.capped n * cfg.retry.factor uniform) hint))

/-- So are the delays of all failures within the budget. -/
def World.Bears (cfg : Config σ K H R E) (w : World P K H E) : Prop :=
  ∀ (n : ℕ) k exc server hint, 0 < n → (n : ℤ) < cfg.retry.maxAttempts →
    w.serverDelay exc = .ok server → serverHint cfg k server = .ok (.fin hint) →
    cfg.Bears n w.uniform hint

theorem serverHint_fin {cfg : Config σ K H R E} {k : K} {server : Option PyFloat} {hint : PyFloat}
    (h : serverHint cfg k server = .ok hint) : ∃ q, hint = .fin q ∧ 0 ≤ q := by
  rcases serverHint_ok.1 h with ⟨-, rfl⟩ | ⟨q, -, hq, -, rfl⟩
  · exact ⟨0, rfl, le_rfl⟩
  · exact ⟨q, rfl, hq⟩

section
variable [DecidableEq K] {cfg : Config σ K H R E} (hpol : cfg.retry.Nonneg)
  (hj : cfg.retry.jitter ≤ 1)
  (htop : cfg.retry.maxDelay ≤ cfg.floatMax ∨ cfg.retry.maxDelay = ⊤)
include hpol hj htop

omit [DecidableEq K] in
/-- The delay that can be waited for. -/
theorem bears_iff {n : ℕ} {uniform : ℚ → ℚ → ℚ} {hint : ℚ} (hu : IsUniform uniform)
    (hhint : 0 ≤ hint) :
    (∃ d, backoffDelay cfg.floatMax cfg.retry n uniform = some (.fin d) ∧
      (d : WithTop ℚ) ≤ cfg.retry.maxDelay * ((1 + cfg.retry.jitter : ℚ) : WithTop ℚ) ∧
      ∀ t now, t ≤ now → cfg.Takes (timeLeft (.fin (t + max d hint)) now)) ↔
    cfg.Bears n uniform hint := by
  have hpos : ∀ d : ℚ, 0 ≤ max d hint := fun d => hhint.trans (le_max_right _ _)
  constructor
  · rintro ⟨d, hd, -, ht⟩
    obtain ⟨hfits, rfl⟩ := (backoffDelay_finite_iff hpol hj htop hu).1 hd
    exact ⟨hfits, (Config.takes_iff (hpos _)).1 ht⟩
  · rintro ⟨hfits, ht⟩
    exact ⟨_, hfits.delay hpol hj htop hu, hpol.delay_le hu, (Config.takes_iff (hpos _)).2 ht⟩

variable {s₀ s : State σ P K H R E} {tr : List (World P K H E × Event P K H R E)}

omit [DecidableEq K] in
theorem World.Bears.waitable {l : World P K H E × Event P K H R E} (h : l.1.Bears cfg)
    (hu : IsUniform l.1.uniform) : Waitable cfg s l := by
  intro f ad exc server hint backoff _ hbud hs hh hb
  obtain ⟨q, rfl, -⟩ := serverHint_fin hh
  obtain ⟨hfits, ht⟩ := h _ _ _ _ _ (Nat.succ_pos _) hbud hs hh
  rw [hfits.delay hpol hj htop hu] at hb
  cases hb
  exact ⟨_, PyFloat.max_fin _ _, ht⟩

omit [DecidableEq K] in
theorem World.Bears.delays {w : World P K H E} (h : w.Bears cfg) (hu : IsUniform w.uniform) :
    w.Delays cfg := by
  intro n k exc server hint hn hbud hs hh
  obtain ⟨q, rfl, -⟩ := serverHint_fin hh
  obtain ⟨hfits, -⟩ := h n k exc server q hn hbud hs hh
  rw [hfits.delay hpol hj htop hu]
  simp

/-- A run whose delays can all be waited for does not end with `OverflowError`. -/
theorem not_overflows {w₀ : Hooks P K H E} {items : List (CheckpointItem P)} {st : σ}
    (hb : begin w₀ items st = .ok s₀) (hr : Lts.Run cfg.timedStep s₀ tr s)
    (hclock : tr.Pairwise fun l l' => l.1.monotonic ≤ l'.1.monotonic)
    (hu : ∀ l ∈ tr, IsUniform l.1.uniform) (hbears : ∀ l ∈ tr, l.1.Bears cfg) :
    Due cfg tr s ∧ ¬ s.Overflows := by
  induction hr with
  | nil =>
    refine ⟨Due.begin hb, ?_⟩
    obtain ⟨-, -, h⟩ := begin_ok hb
    rw [h]
    simp [State.Overflows]
  | @snoc tr s l s' hr hs ih =>
    rw [List.forall_mem_append, List.forall_mem_singleton] at hu hbears
    rw [List.pairwise_append] at hclock
    obtain ⟨hdue, hno⟩ := ih hclock.1 hu.1 hbears.1
    have ht := hdue.taken (w := l.1) fun l' hl' => hclock.2.2 l' hl' l (by simp)
    exact ⟨hdue.step hs (hbears.2.waitable hpol hj htop hu.2),
      Step.not_overflows hs (hbears.2.delays hpol hj htop hu.2) ht hno⟩

/-- **Backoff is defined, a retry within its budget is requeued and can be waited for,
    exactly when its delay is not too large.**  A run whose delays are not too large
    does not end with `OverflowError`. -/
theorem backoff_defined_iff :
    (∀ n uniform hint, IsUniform uniform → 0 ≤ hint →
      (((∃ d, backoffDelay cfg.floatMax cfg.retry n uniform = some (.fin d) ∧
          (d : WithTop ℚ) ≤ cfg.retry.maxDelay * ((1 + cfg.retry.jitter : ℚ) : WithTop ℚ) ∧
          ∀ t now, t ≤ now → cfg.Takes (timeLeft (.fin (t + max d hint)) now)) ∧
        ∀ (w : World P K H E) ad exc (c : Coord P K H R E) server, w.uniform = uniform →
          TransientFailure cfg w ad exc n c → w.serverDelay exc = .ok server →
          (∀ c', routeException cfg w ad exc c ≠ .error .overflow c') ∧
          (serverHint cfg ad.contentKey server = .ok (.fin hint) →
            ∃ c', routeException cfg w ad exc c = .ok none c' ∧ Requeued cfg w ad exc c c')) ↔
      cfg.Bears n uniform hint)) ∧
    ∀ (w₀ : Hooks P K H E) items st (s₀ s : State σ P K H R E) tr, begin w₀ items st = .ok s₀ →
      Lts.Run cfg.timedStep s₀ tr s →
      tr.Pairwise (fun l l' => l.1.monotonic ≤ l'.1.monotonic) →
      (∀ l ∈ tr, IsUniform l.1.uniform ∧ l.1.Bears cfg) → s.loc ≠ .failed .overflow := by
  refine ⟨fun n uniform hint hu hhint => ⟨fun h => ?_, fun h => ⟨?_, ?_⟩⟩, ?_⟩
  · exact (bears_iff hpol hj htop hu hhint).1 h.1
  · exact (bears_iff hpol hj htop hu hhint).2 h
  · rintro w ad exc c server rfl hfail hs
    have hdelay := h.1.delay hpol hj htop hu
    have hroute := hfail.route hs
    constructor
    · intro c' he
      rw [he] at hroute
      cases hh : serverHint cfg ad.contentKey server <;> simp [hh, hdelay] at hroute
    · intro hh
      obtain ⟨-, -, -, rfl, hbud⟩ := hfail
      rw [hh, hdelay] at hroute
      exact ⟨_, hroute, hbud, server, .fin hint, _, hs, hh, hdelay, rfl⟩
  · intro w₀ items st s₀ s tr hb hr hclock hworlds hloc
    exact (not_overflows hpol hj htop hb hr hclock (fun l hl => (hworlds l hl).1)
      fun l hl => (hworlds l hl).2).2 (Or.inr (Or.inr hloc))

end

/-! ### Runs that retry -/

/-- The largest double is smaller than the power of the 1025th attempt. -/
theorem doubleMax_lt : doubleMax < ((|2 ^ 1024| : ℚ) : WithTop ℚ) := by
  rw [doubleMax, WithTop.coe_lt_coe, abs_of_nonneg (by positivity)]
  exact sub_lt_self _ (by positivity)

theorem le_doubleMax {q : ℚ} (h : q ≤ 2 ^ 8) : (q : WithTop ℚ) ≤ doubleMax := by
  have h₁ : (2 : ℚ) ^ 8 ≤ 2 ^ 1023 := pow_le_pow_right₀ one_le_two (by omega)
  have h₂ : (2 : ℚ) ^ 971 ≤ 2 ^ 1023 := pow_le_pow_right₀ one_le_two (by omega)
  have h₃ : (2 : ℚ) ^ 1024 = 2 ^ 1023 * 2 := pow_succ 2 1023
  rw [doubleMax, WithTop.coe_le_coe, h₃, mul_two]
  exact h.trans (h₁.trans (le_sub_iff_add_le.2 (add_le_add_right h₂ _)))

/-- A day can be waited for. -/
theorem takes_le {cfg : Config σ K H R E} (hs : cfg.sleepMax = clockMax)
    (hw : cfg.waitMax = timeoutMax)
    {q : ℚ} (h : q ≤ 86400) : cfg.Takes (.fin q) := by
  have hclock : ((q : ℚ) : WithTop ℚ) ≤ clockMax :=
    WithTop.coe_le_coe.2 (h.trans (by norm_num))
  have htimeout : ((q : ℚ) : WithTop ℚ) ≤ timeoutMax :=
    WithTop.coe_le_coe.2 (h.trans (by norm_num))
  rw [Config.Takes, hs, hw, PyFloat.overlong_fin, PyFloat.overlong_fin]
  exact ⟨fun h' => not_lt.2 hclock h'.2, fun h' => not_lt.2 htimeout h'.2⟩

theorem isUniform_left : IsUniform fun a _ => a := fun _ _ h => ⟨le_rfl, h⟩

theorem sample_nonneg : sampleConfig.retry.Nonneg := by
  constructor <;> norm_num [sampleConfig]

theorem sample_top : sampleConfig.retry.maxDelay ≤ sampleConfig.floatMax ∨
    sampleConfig.retry.maxDelay = ⊤ := Or.inl (le_doubleMax (by norm_num))

theorem sample_capped (n : ℕ) : sampleConfig.retry.capped n = min 60 (2 * 2 ^ (n - 1)) := rfl

theorem sample_factor : sampleConfig.retry.factor sampleWorld.uniform = 1 / 2 := by
  norm_num [sampleConfig, sampleWorld, RetryPolicy.factor]

/-- The delays of the default policy: one, two and four seconds. -/
theorem sample_bears : sampleWorld.Bears sampleConfig := by
  intro n k exc server hint hpos hbud hs hh
  cases hs
  cases hh
  have hn : n = 1 ∨ n = 2 ∨ n = 3 := by
    have hlt : (n : ℤ) < 4 := hbud
    omega
  rw [Config.Bears, RetryPolicy.Fits, sample_capped, sample_factor]
  refine ⟨⟨le_doubleMax ?_, Or.inr ⟨le_doubleMax ?_, le_doubleMax ?_⟩⟩, takes_le rfl rfl ?_⟩ <;>
    rcases hn with rfl | rfl | rfl <;> norm_num [sampleConfig]

/-- The payload `7` fails once, and the coordinator sleeps. -/
def patientPlay :=
  playFrom sampleConfig memCommit sampleWorld [⟨[7], {}⟩] []
    ([.go, .go, .go, .ends 0 (.error false), .go [0]] ++ List.replicate 7 .go)

theorem patientPlay_shows : patientPlay.any fun x =>
    x.2.2.loc = .promote ∧ x.2.2.c.delayed.map (·.readyAt) = [.fin 1] := by
  decide +kernel

theorem patientPlay_isSome : patientPlay.isSome := Option.isSome_of_any patientPlay_shows

theorem backoff_defined_sample :
    (∃ d, backoffDelay doubleMax sampleConfig.retry 3 (fun a _ => a) = some (.fin d) ∧
      (d : WithTop ℚ) ≤ 60 * ((1 + 1 / 2 : ℚ) : WithTop ℚ)) ∧
    (patientPlay.get patientPlay_isSome).2.2.loc ≠ .failed .overflow := by
  obtain ⟨hb, hr⟩ := playFrom_sound memCommit_spec (Option.some_get patientPlay_isSome).symm
  have hlabel : ∀ l ∈ (patientPlay.get patientPlay_isSome).2.1.map fun ev => (sampleWorld, ev),
      l.1 = sampleWorld := by
    intro l hl
    obtain ⟨ev, -, rfl⟩ := List.mem_map.1 hl
    rfl
  have hclock : ((patientPlay.get patientPlay_isSome).2.1.map fun ev => (sampleWorld, ev)).Pairwise
      fun l l' => l.1.monotonic ≤ l'.1.monotonic := by
    refine List.pairwise_of_forall_mem_list fun l hl l' hl' => ?_
    rw [hlabel l hl, hlabel l' hl']
  have hbears : sampleConfig.Bears 3 (fun a _ => a) 0 :=
    sample_bears 3 0 false none 0 (by decide) (by decide) rfl rfl
  have hdefined := backoff_defined_iff (P := List ℕ) (E := Bool) sample_nonneg
    (by norm_num [sampleConfig]) sample_top
  obtain ⟨⟨d, hd, hle, -⟩, -⟩ := (hdefined.1 3 (fun a _ => a) 0 isUniform_left le_rfl).2 hbears
  refine ⟨⟨d, hd, hle⟩, ?_⟩
  refine hdefined.2 _ _ _ _ _ _ hb (timed hr) hclock fun l hl => ?_
  rw [hlabel l hl]
  exact ⟨isUniform_left, sample_bears⟩

/-- A budget of 2000 attempts, and all else as it is by default. -/
def patientConfig : Config (List (ℕ × ℕ)) ℕ ℕ ℕ Bool :=
  { sampleConfig with retry := { maxAttempts := 2000 } }

theorem patient_nonneg : patientConfig.retry.Nonneg := by
  constructor <;> norm_num [patientConfig]

/-- A delay of three centuries. -/
def centuriesConfig : Config (List (ℕ × ℕ)) ℕ ℕ ℕ Bool :=
  { sampleConfig with retry :=
      { baseDelay := 10 ^ 10, maxDelay := ((10 ^ 10 : ℚ) : WithTop ℚ), jitter := 0 } }

theorem centuries_nonneg : centuriesConfig.retry.Nonneg := by
  constructor <;> norm_num [centuriesConfig]

/-- The payload `7` fails once. -/
def centuriesPlay :=
  playFrom centuriesConfig memCommit sampleWorld [⟨[7], {}⟩] []
    ([.go, .go, .go, .ends 0 (.error false), .go [0]] ++ List.replicate 8 .go)

theorem centuriesPlay_shows : centuriesPlay.any fun x => x.2.2.loc = .failed .overflow := by
  decide +kernel

theorem centuriesPlay_isSome : centuriesPlay.isSome := Option.isSome_of_any centuriesPlay_shows

/-- The default policy with a budget of 2000 attempts has no delay for the 1025th, and
    one whose delay is too long for `sleep` ends the run at the first failure. -/
theorem backoff_overflows :
    (patientConfig.retry.Nonneg ∧ 1 ≤ patientConfig.retry.multiplier ∧
      patientConfig.retry.jitter ≤ 1 ∧ IsUniform sampleWorld.uniform ∧
      (1025 : ℤ) < patientConfig.retry.maxAttempts ∧
      backoffDelay patientConfig.floatMax patientConfig.retry 1025 sampleWorld.uniform = none ∧
      ∃ (ad : Admitted (List ℕ) ℕ ℕ) (c c' : Coord (List ℕ) ℕ ℕ ℕ Bool),
        TransientFailure patientConfig sampleWorld ad false 1025 c ∧
        routeException patientConfig sampleWorld ad false c = .error .overflow c') ∧
    centuriesConfig.retry.Nonneg ∧ 1 ≤ centuriesConfig.retry.multiplier ∧
      centuriesConfig.retry.jitter ≤ 1 ∧
      ∃ s₀ tr s, begin sampleWorld.toHooks [⟨[7], {}⟩] [] = .ok s₀ ∧
        Lts.Run (centuriesConfig.step {sampleWorld}) s₀ tr s ∧ s.loc = .failed .overflow := by
  have hfail : TransientFailure patientConfig sampleWorld ⟨⟨[7], {}⟩, 7, 1, 0⟩ false 1025
      { transientAttempts := fun _ => 1024 } := by
    refine ⟨rfl, ?_, rfl, rfl, by norm_num [patientConfig]⟩
    intro policy hp
    cases hp
    rfl
  have hnone : backoffDelay patientConfig.floatMax patientConfig.retry 1025 sampleWorld.uniform =
      none := backoffDelay_none doubleMax_lt
  have hroute := hfail.route (rfl : sampleWorld.serverDelay _ = .ok none)
  rw [show serverHint patientConfig 7 none = .ok (.fin 0) from rfl, hnone] at hroute
  obtain ⟨hb, hr⟩ := playFrom_sound memCommit_spec (Option.some_get centuriesPlay_isSome).symm
  refine ⟨⟨patient_nonneg, ?_, ?_, isUniform_left, ?_, hnone, _, _, _, hfail, hroute⟩,
    centuries_nonneg, ?_, ?_, _, _, _, hb, hr, ?_⟩
  · norm_num [patientConfig]
  · norm_num [patientConfig]
  · norm_num [patientConfig]
  · norm_num [centuriesConfig]
  · norm_num [centuriesConfig]
  · exact of_decide_eq_true (Option.get_of_any_eq_true _ _ centuriesPlay_shows)

end ResumableBatch
