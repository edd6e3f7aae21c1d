/-
  The delay before a retry: its bounds in exact arithmetic, and when it is a number
  at all.
-/
import Mathlib.Algebra.Order.Ring.WithTop
import Mathlib.Tactic.Linarith
import ResumableBatch.Proof.Stitch

namespace ResumableBatch

variable {P K H R E σ : Type}

/-! ## Floats that are finite -/

namespace PyFloat

theorem max_fin (a b : ℚ) : PyFloat.max (.fin a) (.fin b) = .fin (Max.max a b) := by
  unfold PyFloat.max PyFloat.lt
  by_cases h : a < b
  · rw [if_pos (decide_eq_true h), max_eq_right h.le]
  · rw [if_neg (by simpa using h), max_eq_left (not_lt.1 h)]

/-- The smaller of a number and a cap that may be missing. -/
def capped (cap : WithTop ℚ) (q : ℚ) : ℚ := Min.min (cap.untopD q) q

theorem coe_capped (cap : WithTop ℚ) (q : ℚ) :
    ((capped cap q : ℚ) : WithTop ℚ) = Min.min cap q := by
  induction cap using WithTop.recTopCoe with
  | top => simp [capped]
  | coe m => simp [capped]

theorem min_ofTop (cap : WithTop ℚ) (q : ℚ) :
    PyFloat.min (ofTop cap) (.fin q) = .fin (capped cap q) := by
  induction cap using WithTop.recTopCoe with
  | top => simp [capped, ofTop, PyFloat.min, PyFloat.lt]
  | coe m =>
    show PyFloat.min (.fin m) (.fin q) = .fin (Min.min m q)
    unfold PyFloat.min PyFloat.lt
    by_cases h : q < m
    · rw [if_pos (decide_eq_true h), min_eq_right h.le]
    · rw [if_neg (by simpa using h), min_eq_left (not_lt.1 h)]

theorem saturate_top (q : ℚ) : saturate ⊤ q = .fin q := by
  simp [saturate]

variable {top : WithTop ℚ} {q : ℚ}

/-- What is not too large is not changed. -/
theorem saturate_le (hq : 0 ≤ q) (h : (q : WithTop ℚ) ≤ top) : saturate top q = .fin q := by
  have hneg : ((-q : ℚ) : WithTop ℚ) ≤ top :=
    (WithTop.coe_le_coe.2 (neg_le_self hq)).trans h
  rw [saturate, if_neg (not_lt.2 h), if_neg (not_lt.2 hneg)]

theorem saturate_gt (h : top < (q : WithTop ℚ)) : saturate top q = posInf := if_pos h

end PyFloat

/-! ## The delay -/

section
variable {top : WithTop ℚ} {retry : RetryPolicy} {n : ℕ} {uniform : ℚ → ℚ → ℚ}

/-- The delay before jitter. -/
def RetryPolicy.capped (retry : RetryPolicy) (n : ℕ) : ℚ :=
  PyFloat.capped retry.maxDelay (retry.baseDelay * retry.multiplier ^ (n - 1))

/-- The factor of the jitter. -/
def RetryPolicy.factor (retry : RetryPolicy) (uniform : ℚ → ℚ → ℚ) : ℚ :=
  if retry.jitter = 0 then 1 else uniform (1 - retry.jitter) (1 + retry.jitter)

/-- The delay, once the power is computed. -/
theorem backoffDelay_some (h : ((|retry.multiplier ^ (n - 1)| : ℚ) : WithTop ℚ) ≤ top) :
    backoffDelay top retry n uniform = some (PyFloat.max (.fin 0)
      (if retry.jitter ≠ 0 then
        (PyFloat.min (PyFloat.ofTop retry.maxDelay)
          (PyFloat.saturate top (retry.baseDelay * retry.multiplier ^ (n - 1)))).mul top
            (uniform (1 - retry.jitter) (1 + retry.jitter))
      else PyFloat.min (PyFloat.ofTop retry.maxDelay)
        (PyFloat.saturate top (retry.baseDelay * retry.multiplier ^ (n - 1))))) := by
  rw [backoffDelay, PyFloat.pow, if_neg (not_lt.2 h)]
  rfl

theorem backoffDelay_none (h : top < ((|retry.multiplier ^ (n - 1)| : ℚ) : WithTop ℚ)) :
    backoffDelay top retry n uniform = none := by
  rw [backoffDelay, PyFloat.pow, if_pos h]
  rfl

/-- **The delay in exact arithmetic.** -/
theorem backoffDelay_exact : backoffDelay ⊤ retry n uniform =
    some (.fin (max 0 (retry.capped n * retry.factor uniform))) := by
  rw [backoffDelay_some le_top]
  simp only [PyFloat.saturate_top, PyFloat.min_ofTop, PyFloat.mul]
  unfold RetryPolicy.capped RetryPolicy.factor
  by_cases hj : retry.jitter = 0
  · simp only [hj, ne_eq, not_true_eq_false, if_false, if_true, mul_one, PyFloat.max_fin]
  · simp only [hj, ne_eq, not_false_eq_true, if_true, if_false, PyFloat.max_fin]

/-- A policy whose fields are not negative. -/
structure RetryPolicy.Nonneg (retry : RetryPolicy) : Prop where
  base : 0 ≤ retry.baseDelay
  cap : 0 ≤ retry.maxDelay
  multiplier : 0 ≤ retry.multiplier
  jitter : 0 ≤ retry.jitter

/-- What `rng.uniform` promises. -/
def IsUniform (uniform : ℚ → ℚ → ℚ) : Prop :=
  ∀ a b, a ≤ b → a ≤ uniform a b ∧ uniform a b ≤ b

theorem RetryPolicy.Nonneg.raw (h : retry.Nonneg) :
    0 ≤ retry.baseDelay * retry.multiplier ^ (n - 1) :=
  mul_nonneg h.base (pow_nonneg h.multiplier _)

theorem RetryPolicy.capped_le (retry : RetryPolicy) (n : ℕ) :
    ((retry.capped n : ℚ) : WithTop ℚ) ≤ retry.maxDelay := by
  rw [RetryPolicy.capped, PyFloat.coe_capped]
  exact min_le_left _ _

theorem RetryPolicy.Nonneg.capped (h : retry.Nonneg) : 0 ≤ retry.capped n := by
  rw [← WithTop.coe_le_coe, RetryPolicy.capped, PyFloat.coe_capped]
  exact le_min h.cap (WithTop.coe_le_coe.2 h.raw)

theorem RetryPolicy.Nonneg.factor (h : retry.Nonneg) (hu : IsUniform uniform) :
    1 - retry.jitter ≤ retry.factor uniform ∧ retry.factor uniform ≤ 1 + retry.jitter := by
  have hj := h.jitter
  unfold RetryPolicy.factor
  split_ifs with h0
  · rw [h0]
    constructor <;> norm_num
  · exact hu _ _ (by linarith)

/-- **The envelope of the delay.** -/
theorem RetryPolicy.Nonneg.delay (h : retry.Nonneg) (hu : IsUniform uniform) :
    max 0 (1 - retry.jitter) * retry.capped n ≤ max 0 (retry.capped n * retry.factor uniform) ∧
      ((max 0 (retry.capped n * retry.factor uniform) : ℚ) : WithTop ℚ) ≤
        retry.maxDelay * ((1 + retry.jitter : ℚ) : WithTop ℚ) := by
  have hc := h.capped (n := n)
  have hj := h.jitter
  obtain ⟨hlow, hhigh⟩ := h.factor hu
  constructor
  · rcases le_total 0 (1 - retry.jitter) with hpos | hneg
    · rw [max_eq_right hpos]
      calc (1 - retry.jitter) * retry.capped n = retry.capped n * (1 - retry.jitter) := mul_comm _ _
        _ ≤ retry.capped n * retry.factor uniform := mul_le_mul_of_nonneg_left hlow hc
        _ ≤ _ := le_max_right _ _
    · rw [max_eq_left hneg, zero_mul]
      exact le_max_left _ _
  · have hpos : 0 < 1 + retry.jitter := by linarith
    have hfactor : max 0 (retry.capped n * retry.factor uniform) ≤
        retry.capped n * (1 + retry.jitter) :=
      max_le (mul_nonneg hc hpos.le) (mul_le_mul_of_nonneg_left hhigh hc)
    have hcap := retry.capped_le n
    revert hcap
    generalize retry.maxDelay = cap
    induction cap using WithTop.recTopCoe with
    | top =>
      rw [WithTop.top_mul (by exact_mod_cast hpos.ne')]
      exact fun _ => le_top
    | coe m =>
      intro hcap
      rw [← WithTop.coe_mul, WithTop.coe_le_coe]
      exact hfactor.trans (mul_le_mul_of_nonneg_right (WithTop.coe_le_coe.1 hcap) hpos.le)

/-! ## When it is defined -/

/-- The power, the capped delay and the jittered one are no larger than the largest
    float.  A factor of zero undoes an infinite delay. -/
def RetryPolicy.Fits (top : WithTop ℚ) (retry : RetryPolicy) (n : ℕ) (uniform : ℚ → ℚ → ℚ) :
    Prop :=
  ((retry.multiplier ^ (n - 1) : ℚ) : WithTop ℚ) ≤ top ∧
    (retry.factor uniform = 0 ∨ ((retry.capped n : ℚ) : WithTop ℚ) ≤ top ∧
      ((retry.capped n * retry.factor uniform : ℚ) : WithTop ℚ) ≤ top)

/-- The cap undoes the saturation. -/
theorem min_saturate (h : retry.Nonneg) (hcap : ((retry.capped n : ℚ) : WithTop ℚ) ≤ top) :
    PyFloat.min (PyFloat.ofTop retry.maxDelay)
      (PyFloat.saturate top (retry.baseDelay * retry.multiplier ^ (n - 1))) =
      .fin (retry.capped n) := by
  by_cases hle : ((retry.baseDelay * retry.multiplier ^ (n - 1) : ℚ) : WithTop ℚ) ≤ top
  · rw [PyFloat.saturate_le h.raw hle, PyFloat.min_ofTop]
    rfl
  · have hgt := not_le.1 hle
    have hlt : retry.maxDelay < ((retry.baseDelay * retry.multiplier ^ (n - 1) : ℚ) : WithTop ℚ) := by
      by_contra hge
      rw [RetryPolicy.capped, PyFloat.coe_capped, min_eq_right (not_lt.1 hge)] at hcap
      exact hle hcap
    obtain ⟨m, hm⟩ := WithTop.ne_top_iff_exists.1 (hlt.trans_le le_top).ne
    rw [← hm, WithTop.coe_lt_coe] at hlt
    rw [PyFloat.saturate_gt hgt, RetryPolicy.capped, ← hm]
    show PyFloat.fin m = .fin (min m _)
    rw [min_eq_left hlt.le]

/-- Without a cap it stays. -/
theorem min_saturate_inf (htop : retry.maxDelay ≤ top ∨ retry.maxDelay = ⊤)
    (hcap : ¬ ((retry.capped n : ℚ) : WithTop ℚ) ≤ top) :
    PyFloat.min (PyFloat.ofTop retry.maxDelay)
      (PyFloat.saturate top (retry.baseDelay * retry.multiplier ^ (n - 1))) = .posInf := by
  rw [RetryPolicy.capped, PyFloat.coe_capped, min_le_iff, not_or, not_le, not_le] at hcap
  rw [PyFloat.saturate_gt hcap.2, htop.resolve_left (not_le.2 hcap.1)]
  rfl

theorem RetryPolicy.Nonneg.jittered (h : retry.Nonneg) (hj : retry.jitter ≤ 1)
    (hu : IsUniform uniform) : 0 ≤ retry.factor uniform ∧
      0 ≤ retry.capped n * retry.factor uniform := by
  have hfactor : 0 ≤ retry.factor uniform := by linarith [(h.factor hu).1]
  exact ⟨hfactor, mul_nonneg h.capped hfactor⟩

/-- The delay of a policy whose jitter is at most one, once the power is computed. -/
theorem backoffDelay_jittered (h : retry.Nonneg) (hj : retry.jitter ≤ 1) (hu : IsUniform uniform)
    (hpow : ((retry.multiplier ^ (n - 1) : ℚ) : WithTop ℚ) ≤ top)
    (hcap : ((retry.capped n : ℚ) : WithTop ℚ) ≤ top) :
    backoffDelay top retry n uniform =
      some (PyFloat.saturate top (retry.capped n * retry.factor uniform)) := by
  have habs : |retry.multiplier ^ (n - 1)| = retry.multiplier ^ (n - 1) :=
    abs_of_nonneg (pow_nonneg h.multiplier _)
  have hnonneg := (h.jittered (n := n) hj hu).2
  rw [backoffDelay_some (by rwa [habs]), min_saturate h hcap]
  congr 1
  by_cases h0 : retry.jitter = 0
  · rw [if_neg (not_not.2 h0), PyFloat.max_fin, max_eq_right h.capped, RetryPolicy.factor,
      if_pos h0, mul_one, PyFloat.saturate_le h.capped hcap]
  · rw [if_pos h0, RetryPolicy.factor, if_neg h0, PyFloat.mul]
    rw [RetryPolicy.factor, if_neg h0] at hnonneg
    by_cases hle : ((retry.capped n * uniform (1 - retry.jitter) (1 + retry.jitter) : ℚ) :
        WithTop ℚ) ≤ top
    · rw [PyFloat.saturate_le hnonneg hle, PyFloat.max_fin, max_eq_right hnonneg]
    · rw [PyFloat.saturate_gt (not_le.1 hle)]
      rfl

/-- An infinite delay stays infinite, unless the factor of the jitter is zero. -/
theorem backoffDelay_inf (h : retry.Nonneg) (hj : retry.jitter ≤ 1)
    (htop : retry.maxDelay ≤ top ∨ retry.maxDelay = ⊤) (hu : IsUniform uniform)
    (hpow : ((retry.multiplier ^ (n - 1) : ℚ) : WithTop ℚ) ≤ top)
    (hcap : ¬ ((retry.capped n : ℚ) : WithTop ℚ) ≤ top) :
    backoffDelay top retry n uniform =
      some (if retry.factor uniform = 0 then .fin 0 else .posInf) := by
  have habs : |retry.multiplier ^ (n - 1)| = retry.multiplier ^ (n - 1) :=
    abs_of_nonneg (pow_nonneg h.multiplier _)
  have hnonneg := (h.jittered (n := n) hj hu).1
  rw [backoffDelay_some (by rwa [habs]), min_saturate_inf htop hcap]
  congr 1
  rw [RetryPolicy.factor] at hnonneg ⊢
  by_cases h0 : retry.jitter = 0
  · simp [h0, PyFloat.max, PyFloat.lt]
  · rw [if_neg h0] at hnonneg ⊢
    rw [if_pos h0, PyFloat.mul, if_neg (not_lt.2 hnonneg)]
    rcases hnonneg.eq_or_lt with hzero | hpos
    · simp [← hzero, PyFloat.max, PyFloat.lt]
    · simp [hpos, hpos.ne', PyFloat.max, PyFloat.lt]

/-- The delay that fits. -/
theorem RetryPolicy.Fits.delay (h : retry.Nonneg) (hj : retry.jitter ≤ 1)
    (htop : retry.maxDelay ≤ top ∨ retry.maxDelay = ⊤) (hu : IsUniform uniform)
    (hfits : retry.Fits top n uniform) :
    backoffDelay top retry n uniform = some (.fin (retry.capped n * retry.factor uniform)) := by
  obtain ⟨hpow, hfits⟩ := hfits
  by_cases hcap : ((retry.capped n : ℚ) : WithTop ℚ) ≤ top
  · rw [backoffDelay_jittered h hj hu hpow hcap]
    rcases hfits with hzero | ⟨-, hle⟩
    · have hsame : retry.capped n * retry.factor uniform = 0 := by rw [hzero, mul_zero]
      rw [hsame, PyFloat.saturate_le le_rfl ((WithTop.coe_le_coe.2 h.capped).trans hcap)]
    · rw [PyFloat.saturate_le (h.jittered hj hu).2 hle]
  · have hzero := hfits.resolve_right fun hle => hcap hle.1
    rw [backoffDelay_inf h hj htop hu hpow hcap, if_pos hzero, hzero, mul_zero]

/-- The delay is finite exactly when nothing in it is too large. -/
theorem backoffDelay_finite_iff (h : retry.Nonneg) (hj : retry.jitter ≤ 1)
    (htop : retry.maxDelay ≤ top ∨ retry.maxDelay = ⊤) (hu : IsUniform uniform) {d : ℚ} :
    backoffDelay top retry n uniform = some (.fin d) ↔
      retry.Fits top n uniform ∧ d = retry.capped n * retry.factor uniform := by
  have habs : |retry.multiplier ^ (n - 1)| = retry.multiplier ^ (n - 1) :=
    abs_of_nonneg (pow_nonneg h.multiplier _)
  constructor
  · intro hd
    have hfits : retry.Fits top n uniform := by
      by_cases hpow : ((retry.multiplier ^ (n - 1) : ℚ) : WithTop ℚ) ≤ top
      · refine ⟨hpow, ?_⟩
        by_cases hcap : ((retry.capped n : ℚ) : WithTop ℚ) ≤ top
        · refine Or.inr ⟨hcap, not_lt.1 fun hgt => ?_⟩
          rw [backoffDelay_jittered h hj hu hpow hcap, PyFloat.saturate_gt hgt] at hd
          cases hd
        · rw [backoffDelay_inf h hj htop hu hpow hcap] at hd
          by_contra hne
          rw [not_or] at hne
          rw [if_neg hne.1] at hd
          cases hd
      · rw [backoffDelay_none (by rw [habs]; exact not_le.1 hpow)] at hd
        cases hd
    rw [hfits.delay h hj htop hu] at hd
    cases hd
    exact ⟨hfits, rfl⟩
  · rintro ⟨hfits, rfl⟩
    exact hfits.delay h hj htop hu

/-- It is within the cap and the jitter. -/
theorem RetryPolicy.Nonneg.delay_le (h : retry.Nonneg) (hu : IsUniform uniform) :
    ((retry.capped n * retry.factor uniform : ℚ) : WithTop ℚ) ≤
      retry.maxDelay * ((1 + retry.jitter : ℚ) : WithTop ℚ) :=
  (WithTop.coe_le_coe.2 (le_max_right 0 _)).trans (h.delay hu).2

end

/-! ## The server's hint -/

/-- The hints that are accepted. -/
theorem serverHint_ok {cfg : Config σ K H R E} {k : K} {server : Option PyFloat}
    {hint : PyFloat} : serverHint cfg k server = .ok hint ↔
      server = none ∧ hint = .fin 0 ∨
        ∃ q, server = some (.fin q) ∧ 0 ≤ q ∧ q ≤ cfg.retry.maxServerDelay ∧ hint = .fin q := by
  cases server with
  | none => simp [serverHint, eq_comm]
  | some v =>
    cases v with
    | fin q =>
      simp only [serverHint, PyFloat.isfinite, PyFloat.lt, Bool.not_true, Bool.false_or,
        decide_eq_true_eq, reduceCtorEq, false_and, false_or, Option.some.injEq,
        PyFloat.fin.injEq, exists_eq_left']
      split_ifs with h₁ h₂
      · simp [not_le.2 h₁]
      · simp [not_le.2 h₂]
      · simp [not_lt.1 h₁, not_lt.1 h₂, eq_comm]
    | _ => simp [serverHint, PyFloat.isfinite]

/-! ## Routing a transient failure -/

section
variable [DecidableEq K] {cfg : Config σ K H R E} {w : World P K H E} {ad : Admitted P K H}
  {exc : E} {n : ℕ} {c : Coord P K H R E} {server : Option PyFloat} {hint : PyFloat}

/-- The `n`-th transient failure of `ad`, within the budget. -/
structure TransientFailure (cfg : Config σ K H R E) (w : World P K H E) (ad : Admitted P K H)
    (exc : E) (n : ℕ) (c : Coord P K H R E) : Prop where
  oom : w.isOom exc = .ok false
  whole : NoSplit w.toHooks exc ad
  transient : w.isTransient exc = .ok true
  nth : c.transientAttempts ad.contentKey + 1 = n
  budget : (n : ℤ) < cfg.retry.maxAttempts

/-- Only the count of the failures is changed. -/
def Coord.counted (c : Coord P K H R E) (ad : Admitted P K H) (n : ℕ) : Coord P K H R E :=
  { c with transientAttempts := Function.update c.transientAttempts ad.contentKey n }

theorem routeException_transient (ho : w.isOom exc = .ok false) (hn : NoSplit w.toHooks exc ad)
    (ht : w.isTransient exc = .ok true) :
    routeException cfg w ad exc c = retryTransient cfg w ad exc c := by
  have hws : wantsSplit (R := R) w.toHooks exc ad = pure none := by
    unfold wantsSplit
    cases hp : w.splitPolicy with
    | none => rfl
    | some policy => simp [hn policy hp, call]
  simp [routeException, ho, ht, hws, call]

/-- The three ways of a failure within the budget. -/
theorem TransientFailure.route (h : TransientFailure cfg w ad exc n c)
    (hs : w.serverDelay exc = .ok server) :
    routeException cfg w ad exc c =
      match serverHint cfg ad.contentKey server with
      | .error reason => .ok (some (.retryAfter reason)) (c.counted ad n)
      | .ok hint =>
        match backoffDelay cfg.floatMax cfg.retry n w.uniform with
        | none => .error .overflow (c.counted ad n)
        | some backoff =>
          .ok none (c.requeue ad n (PyFloat.addTo w.monotonic (PyFloat.max backoff hint))) := by
  obtain ⟨ho, hn, ht, rfl, hbud⟩ := h
  rw [routeException_transient ho hn ht]
  change (ite (((c.transientAttempts ad.contentKey + 1 : ℕ) : ℤ) < cfg.retry.maxAttempts) _ _ :
    Co P K H R E _) (c.counted ad _) = _
  rw [if_pos hbud, hs, call, pure_bind]
  cases serverHint cfg ad.contentKey server with
  | error reason => rfl
  | ok hint =>
    cases backoffDelay cfg.floatMax cfg.retry (c.transientAttempts ad.contentKey + 1) w.uniform <;>
      rfl

end

end ResumableBatch
