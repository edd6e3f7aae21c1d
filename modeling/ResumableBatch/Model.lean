/-
  The core data model: items, policies, the errors the engine raises on its own
  behalf, and the run result; floats as the engine computes with them.
-/
import Mathlib.Algebra.Order.Field.Rat
import Mathlib.Order.WithBot
import Mathlib.Tactic.NormNum

namespace ResumableBatch

/-- Bumped on any breaking change to the on-disk format. -/
def schemaVersion : ℤ := 2

def manifestName : String := "manifest.json"

/-! ## Floats

Exact rationals with the three special values.  Rounding is left out; the
largest finite value is a parameter, `⊤` for exact arithmetic. -/

inductive PyFloat where
  | nan
  | negInf
  | posInf
  | fin (q : ℚ)
  deriving DecidableEq

/-- The largest finite double. -/
def doubleMax : WithTop ℚ := ((2 ^ 1024 - 2 ^ 971 : ℚ) : WithTop ℚ)

/-- The seconds that fit in the nanoseconds of the C clock. -/
def clockMax : WithTop ℚ := (((2 ^ 63 - 1) / 10 ^ 9 : ℚ) : WithTop ℚ)

/-- `threading.TIMEOUT_MAX`. -/
def timeoutMax : WithTop ℚ := ((9223372036 : ℚ) : WithTop ℚ)

namespace PyFloat

/-- `a < b`; false as soon as one side is `nan`. -/
def lt : PyFloat → PyFloat → Bool
  | nan, _ | _, nan => false
  | negInf, negInf => false
  | negInf, _ => true
  | _, negInf => false
  | posInf, _ => false
  | fin _, posInf => true
  | fin a, fin b => a < b

/-- `a <= b`. -/
def le : PyFloat → PyFloat → Bool
  | nan, _ | _, nan => false
  | a, b => !lt b a

/-- `max(a, b)`: the first argument unless the second is greater. -/
def max (a b : PyFloat) : PyFloat := if lt a b then b else a

/-- `min(a, b)`: the first argument unless the second is smaller. -/
def min (a b : PyFloat) : PyFloat := if lt b a then b else a

/-- `math.isfinite`. -/
def isfinite : PyFloat → Bool
  | fin _ => true
  | _ => false

/-- A finite result, saturated beyond the largest finite value. -/
def saturate (top : WithTop ℚ) (q : ℚ) : PyFloat :=
  if top < (q : WithTop ℚ) then posInf else if top < ((-q : ℚ) : WithTop ℚ) then negInf else fin q

/-- `x * u` for a finite factor. -/
def mul (top : WithTop ℚ) : PyFloat → ℚ → PyFloat
  | nan, _ => nan
  | negInf, u => if u < 0 then posInf else if 0 < u then negInf else nan
  | posInf, u => if u < 0 then negInf else if 0 < u then posInf else nan
  | fin q, u => saturate top (q * u)

/-- `t + d` for a finite clock reading `t`. -/
def addTo (t : ℚ) : PyFloat → PyFloat
  | fin q => fin (t + q)
  | d => d

/-- A cap that may be missing. -/
def ofTop : WithTop ℚ → PyFloat
  | ⊤ => posInf
  | (q : ℚ) => fin q

/-- `sleep` and `wait` raise `OverflowError` for a timeout above the bound of the
    platform; none of zero is refused. -/
def overlong (bound : WithTop ℚ) : PyFloat → Bool
  | fin q => 0 < q ∧ bound < (q : WithTop ℚ)
  | posInf => true
  | _ => false

/-- `x ** n`, or `none` where the float power raises `OverflowError`. -/
def pow (top : WithTop ℚ) (x : ℚ) (n : ℕ) : Option ℚ :=
  if top < ((|x ^ n| : ℚ) : WithTop ℚ) then none else some (x ^ n)

end PyFloat

/-! ## Items -/

/-- Scheduling metadata only, never a cache identity. -/
structure SchedMeta where
  rootOrder : ℤ := 0
  rangeStart : ℤ := 0
  rangeEnd : ℤ := 0
  targetSize : ℤ := 0
  deriving DecidableEq

/-- An immutable unit of work.  Its identity is derived by the coordinator from
    the payload and is not stored here. -/
structure CheckpointItem (P : Type) where
  payload : P
  sched : SchedMeta := {}
  deriving DecidableEq

/-! ## Errors -/

/-- Why a split can make no strict progress (`_SplitFatal`). -/
inductive SplitFault (K : Type) where
  /-- `split depth cap {cap} exceeded on {key}` -/
  | depthCap (cap : ℤ) (key : K)
  /-- `split produced no children for {key}` -/
  | noChildren (key : K)
  /-- `split did not strictly shrink {key} (parent size .., children ..)` -/
  | notShrunk (key : K) (parentSz : ℤ) (childSzs : List ℤ)
  deriving DecidableEq

/-- Why a server `Retry-After` value is refused (`RetryAfterError`). -/
inductive RetryAfterFault (K : Type) where
  /-- `malformed Retry-After {server} on {key}` -/
  | malformed (server : PyFloat) (key : K)
  /-- `server Retry-After {server}s exceeds operational bound {bound}s on {key}` -/
  | aboveBound (server : PyFloat) (bound : ℚ) (key : K)
  deriving DecidableEq

/-- Everything `run_checkpointed` can raise. -/
inductive Fault (K H E : Type) where
  /-- ``provide exactly one of `combine` OR (`reduce` + `finalize`)`` -/
  | notOneCombineMode
  /-- ``incremental combine requires BOTH `reduce` and `finalize` `` -/
  | halfIncremental
  /-- `RetryPolicy.max_server_delay must be finite and >= 0 (got {value})` -/
  | badMaxServerDelay (value : PyFloat)
  /-- `duplicate live content_key {key} (existing hash={old}, new hash={new}) ..` -/
  | contentKeyCollision (key : K) (old new : H)
  | splitFatal (reason : SplitFault K)
  | retryAfter (reason : RetryAfterFault K)
  /-- `OverflowError`, of the float power of the backoff or of a timeout that is too long -/
  | overflow
  /-- A terminal key without a hash. -/
  | keyError
  /-- An exception of an injected callable, of the store or of the pool. -/
  | raised (exc : E)
  deriving DecidableEq

/-! ## Policies -/

/-- The default of `max_server_delay` passes its check. -/
theorem maxServerDelay_default : (0 : ℚ) ≤ 300 := by norm_num

/-- Bounded exponential backoff with full jitter.  `max_server_delay` is finite
    and not negative in every policy that can be built. -/
structure RetryPolicy where
  maxAttempts : ℤ := 4
  baseDelay : ℚ := 2
  /-- `inf` where there is no cap -/
  maxDelay : WithTop ℚ := ((60 : ℚ) : WithTop ℚ)
  multiplier : ℚ := 2
  jitter : ℚ := 1 / 2
  maxServerDelay : ℚ := 300
  maxServerDelay_nonneg : 0 ≤ maxServerDelay := by exact maxServerDelay_default
  deriving DecidableEq

/-- `RetryPolicy(..)` with its `__post_init__`. -/
def RetryPolicy.new {K H E : Type} (maxAttempts : ℤ) (baseDelay : ℚ) (maxDelay : WithTop ℚ)
    (multiplier jitter : ℚ) (maxServerDelay : PyFloat) : Except (Fault K H E) RetryPolicy :=
  match maxServerDelay with
  | .fin q =>
    if h : 0 ≤ q then .ok ⟨maxAttempts, baseDelay, maxDelay, multiplier, jitter, q, h⟩
    else .error (.badMaxServerDelay (.fin q))
  | v => .error (.badMaxServerDelay v)

/-- Domain-defined split trigger and splitter. -/
structure SplitPolicy (P E : Type) where
  shouldSplit : E → CheckpointItem P → Except E Bool
  split : CheckpointItem P → Except E (List (CheckpointItem P))

/-- `_default_split_size`. -/
def defaultSplitSize {P : Type} (item : CheckpointItem P) : ℤ := item.sched.targetSize

/-- The stitched output and the run telemetry. -/
structure CheckpointResult (O : Type) where
  frame : O
  attempts : ℕ
  committedKeys : ℕ
  resumedKeys : ℕ
  transientRetries : ℕ
  splits : ℕ
  deriving DecidableEq

end ResumableBatch
