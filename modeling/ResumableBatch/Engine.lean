/-
  The orchestrator `run_checkpointed`: admission, routing, the coordinator loop
  over the thread pool, and the final stitch.

  * `Coord` holds the local variables of `run_checkpointed`; `admitItem`,
    `handleSplit` and `routeException` are its closures, run in the monad `Co`
    (an exception keeps the variables as they are when it is raised);
  * `Step` is the loop, one constructor a statement: dispatch, wait, the batch
    of completed futures, promotion of matured retries, the way out.  The
    pool's threads finish their calls at any time between two statements;
  * `outcome` is what the call returns or raises once the loop is left.
-/
import Mathlib.Data.Finset.Sort
import Mathlib.Data.Rat.Defs
import ResumableBatch.Lib.Lts
import ResumableBatch.Model

namespace ResumableBatch

/-! ## What the coordinator is given -/

/-- The injected callables; each may raise. -/
structure Hooks (P K H E : Type) where
  contentKeyFn : P → Except E (K × H)
  isOom : E → Except E Bool
  isTransient : E → Except E Bool
  splitPolicy : Option (SplitPolicy P E)
  splitSizeFn : CheckpointItem P → Except E ℤ
  retryAfterFn : Option (E → Except E (Option PyFloat))

/-- What the callables, the clock and the random source answer in one step.
    A run may meet another `World` at every step: the callables need not be
    pure. -/
structure World (P K H E : Type) extends Hooks P K H E where
  monotonic : ℚ
  uniform : ℚ → ℚ → ℚ

/-- How a call that writes to the store ends. -/
inductive Ended (E : Type) where
  | returned
  | raised (exc : E)
  /-- the process dies inside the call -/
  | died
  deriving DecidableEq

/-- The `ResultStore` protocol.  `commit` is a relation: generation ids, times
    and faults of the file system are not determined by its arguments. -/
structure ResultStore (σ K H R E : Type) where
  has : σ → K → H → Except E Bool
  load : σ → K → H → Except E R
  commit : σ → K → H → R → Ended E → σ → Prop
  cleanup : σ → σ

structure Config (σ K H R E : Type) where
  store : ResultStore σ K H R E
  retry : RetryPolicy
  concurrency : ℤ := 1
  maxSplitDepth : ℤ := 64
  /-- the largest finite float -/
  floatMax : WithTop ℚ := doubleMax
  /-- the longest time `sleep` takes -/
  sleepMax : WithTop ℚ := clockMax
  /-- the longest timeout `wait` takes -/
  waitMax : WithTop ℚ := timeoutMax
  /-- `isinstance(exc, Exception)` -/
  isException : E → Bool
  cleanupOnSuccess : Bool := false

variable {P K H R E σ A O : Type}

/-- `max_workers = max(1, int(concurrency))`. -/
def Config.maxWorkers (cfg : Config σ K H R E) : ℕ := (max 1 cfg.concurrency).toNat

/-! ## The coordinator's variables -/

/-- Runtime identity derived once at admission. -/
structure Admitted (P K H : Type) where
  item : CheckpointItem P
  contentKey : K
  payloadHash : H
  depth : ℕ := 0
  deriving DecidableEq

/-- An entry of the `delayed` heap. -/
structure Retry (P K H : Type) where
  readyAt : PyFloat
  seq : ℕ
  ad : Admitted P K H

/-- `max(0.0, delayed[0][0] - monotonic())`. -/
def timeLeft (readyAt : PyFloat) (now : ℚ) : PyFloat :=
  PyFloat.max (.fin 0) (PyFloat.addTo (-now) readyAt)

/-- The order of the heap's tuples. -/
def Retry.before (a b : Retry P K H) : Bool :=
  if a.readyAt = b.readyAt then a.seq < b.seq else PyFloat.lt a.readyAt b.readyAt

/-- `heapq.heappush`; the heap is kept as the list of its entries in order, so
    that `heappop` takes the head. -/
def heappush (r : Retry P K H) : List (Retry P K H) → List (Retry P K H)
  | [] => [r]
  | x :: xs => if r.before x then r :: x :: xs else x :: heappush r xs

/-- Futures, by submission number. -/
abbrev Future := ℕ

/-- A submitted call: still to end, ended with a result or an exception, or
    cancelled before it started. -/
inductive CallState (R E : Type) where
  | running
  | finished (o : Except E R)
  | cancelled

structure Call (P K H R E : Type) where
  fut : Future
  ad : Admitted P K H
  state : CallState R E

/-- `fut.done()` of a call that was not cancelled. -/
def Call.isFinished (x : Call P K H R E) : Bool :=
  match x.state with
  | .finished _ => true
  | _ => false

/-- The local variables of `run_checkpointed`.  A dictionary is a partial
    function; `transientAttempts` is read with default `0`. -/
structure Coord (P K H R E : Type) where
  liveMap : K → Option H := fun _ => none
  ready : List (Admitted P K H) := []
  delayed : List (Retry P K H) := []
  inflight : List (Call P K H R E) := []
  terminalKeys : Finset K := ∅
  terminalHash : K → Option H := fun _ => none
  transientAttempts : K → ℕ := fun _ => 0
  seqCounter : ℕ := 0
  attemptsTotal : ℕ := 0
  committed : ℕ := 0
  resumed : ℕ := 0
  transientRetries : ℕ := 0
  splits : ℕ := 0
  fatalExc : Option (Fault K H E) := none

/-- `ready or delayed or inflight`. -/
def Coord.busy (c : Coord P K H R E) : Prop := c.ready ≠ [] ∨ c.delayed ≠ [] ∨ c.inflight ≠ []

/-- Code that reads and writes the coordinator's variables and may raise. -/
abbrev Co (P K H R E : Type) := EStateM (Fault K H E) (Coord P K H R E)

/-- Call an injected callable. -/
def call {α : Type} : Except E α → Co P K H R E α
  | .ok a => pure a
  | .error e => throw (.raised e)

/-- `if p: raise fault`. -/
def raiseIf (p : Prop) [Decidable p] (fault : Fault K H E) : Co P K H R E Unit :=
  if p then throw fault else pure ()

section
variable [DecidableEq K]

/-! ## Admission and splits -/

/-- `_admit`. -/
def admitItem (w : Hooks P K H E) (item : CheckpointItem P) (depth : ℕ := 0) :
    Co P K H R E (Admitted P K H) := do
  let (ck, ph) ← call (w.contentKeyFn item.payload)
  match (← get).liveMap ck with
  | some old => throw (.contentKeyCollision ck old ph)
  | none =>
    modify fun c => { c with liveMap := Function.update c.liveMap ck (some ph) }
    return { item, contentKey := ck, payloadHash := ph, depth }

/-- An admitted item joins the terminal set and the ready queue. -/
def Coord.place (c : Coord P K H R E) (ad : Admitted P K H) : Coord P K H R E :=
  { c with
    terminalKeys := insert ad.contentKey c.terminalKeys
    terminalHash := Function.update c.terminalHash ad.contentKey (some ad.payloadHash)
    ready := c.ready ++ [ad] }

/-- `terminal_keys.discard(ck)` and `terminal_hash.pop(ck, None)`. -/
def Coord.discard (c : Coord P K H R E) (ck : K) : Coord P K H R E :=
  { c with
    terminalKeys := c.terminalKeys.erase ck
    terminalHash := Function.update c.terminalHash ck none }

/-- `for item in items: ..`, before the loop. -/
def admitRoots (w : Hooks P K H E) (items : List (CheckpointItem P)) : Co P K H R E Unit :=
  items.forM fun item => do
    let ad ← admitItem w item
    modify (·.place ad)

/-- The parent is replaced by its admitted children. -/
def Coord.replace (c : Coord P K H R E) (ck : K) (ads : List (Admitted P K H)) :
    Coord P K H R E :=
  { ads.foldl Coord.place (c.discard ck) with splits := c.splits + 1 }

/-- `_handle_split`. -/
def handleSplit (cfg : Config σ K H R E) (w : Hooks P K H E) (policy : SplitPolicy P E)
    (ad : Admitted P K H) : Co P K H R E Unit := do
  raiseIf ((ad.depth : ℤ) + 1 > cfg.maxSplitDepth)
    (.splitFatal (.depthCap cfg.maxSplitDepth ad.contentKey))
  let children ← call (policy.split ad.item)
  raiseIf (children = []) (.splitFatal (.noChildren ad.contentKey))
  let parentSz ← call (w.splitSizeFn ad.item)
  let childSzs ← call (children.mapM w.splitSizeFn)
  -- sizes are meaningful only when all of them are positive
  raiseIf ((parentSz > 0 ∧ ∀ s ∈ childSzs, s > 0) ∧ ∃ s ∈ childSzs, s ≥ parentSz)
    (.splitFatal (.notShrunk ad.contentKey parentSz childSzs))
  -- all children are admitted before the parent is replaced
  let childAds ← children.mapM fun it => admitItem w it (ad.depth + 1)
  modify (·.replace ad.contentKey childAds)

/-! ## Routing -/

/-- `_backoff_delay`: `min(max_delay, base * multiplier**(attempt-1))` with full
    jitter; `none` where the float power raises `OverflowError`. -/
def backoffDelay (top : WithTop ℚ) (retry : RetryPolicy) (attempt : ℕ) (uniform : ℚ → ℚ → ℚ) :
    Option PyFloat := do
  let factor ← PyFloat.pow top retry.multiplier (attempt - 1)
  let raw := PyFloat.saturate top (retry.baseDelay * factor)
  let capped := PyFloat.min (PyFloat.ofTop retry.maxDelay) raw
  let capped := if retry.jitter ≠ 0 then
      capped.mul top (uniform (1 - retry.jitter) (1 + retry.jitter))
    else capped
  return PyFloat.max (.fin 0) capped

/-- `split_policy is not None and split_policy.should_split(exc, ad.item)`: the
    policy that is to split the item. -/
def wantsSplit (w : Hooks P K H E) (exc : E) (ad : Admitted P K H) :
    Co P K H R E (Option (SplitPolicy P E)) :=
  match w.splitPolicy with
  | none => return none
  | some policy => do return if ← call (policy.shouldSplit exc ad.item) then some policy else none

/-- `try: _handle_split(ad); return None` / `except _SplitFatal as sf: return sf`. -/
def splitOrFatal (cfg : Config σ K H R E) (w : Hooks P K H E) (policy : SplitPolicy P E)
    (ad : Admitted P K H) : Co P K H R E (Option (Fault K H E)) :=
  tryCatch (do handleSplit cfg w policy ad; return none) fun
    | .splitFatal reason => return some (.splitFatal reason)
    | e => throw e

/-- `retry.retry_after_fn(exc) if retry.retry_after_fn is not None else None`. -/
def Hooks.serverDelay (w : Hooks P K H E) (exc : E) : Except E (Option PyFloat) :=
  match w.retryAfterFn with
  | none => .ok none
  | some retryAfterFn => retryAfterFn exc

/-- The server's hint, or the fatal error for a malformed or excessive one. -/
def serverHint (cfg : Config σ K H R E) (ck : K) :
    Option PyFloat → Except (RetryAfterFault K) PyFloat
  | none => .ok (.fin 0)
  | some server =>
    if !server.isfinite || server.lt (.fin 0) then .error (.malformed server ck)
    else if PyFloat.lt (.fin cfg.retry.maxServerDelay) server then
      .error (.aboveBound server cfg.retry.maxServerDelay ck)
    else .ok server

/-- The transient branch of `_route_exception`: a delayed requeue of the same
    key, within its budget. -/
def retryTransient (cfg : Config σ K H R E) (w : World P K H E) (ad : Admitted P K H) (exc : E) :
    Co P K H R E (Option (Fault K H E)) := do
  let n := (← get).transientAttempts ad.contentKey + 1
  modify fun c => { c with transientAttempts := Function.update c.transientAttempts ad.contentKey n }
  if (n : ℤ) < cfg.retry.maxAttempts then
    let server ← call (w.serverDelay exc)
    match serverHint cfg ad.contentKey server with
    | .error reason => return some (.retryAfter reason)
    | .ok hint =>
      match backoffDelay cfg.floatMax cfg.retry n w.uniform with
      | none => throw .overflow
      | some backoff =>
        let readyAt := PyFloat.addTo w.monotonic (PyFloat.max backoff hint)
        modify fun c => { c with
          delayed := heappush ⟨readyAt, c.seqCounter, ad⟩ c.delayed
          seqCounter := c.seqCounter + 1
          transientRetries := c.transientRetries + 1 }
        return none
  else
    return some (.raised exc)

/-- `_route_exception`: OOM first, then the domain split, then the bounded
    transient retry; everything else is fatal. -/
def routeException (cfg : Config σ K H R E) (w : World P K H E) (ad : Admitted P K H) (exc : E) :
    Co P K H R E (Option (Fault K H E)) := do
  if ← call (w.isOom exc) then
    match ← wantsSplit w.toHooks exc ad with
    | some policy => splitOrFatal cfg w.toHooks policy ad
    -- an unsplittable OOM is never reclassified as transient
    | none => return some (.raised exc)
  else
    match ← wantsSplit w.toHooks exc ad with
    | some policy => splitOrFatal cfg w.toHooks policy ad
    | none =>
      if ← call (w.isTransient exc) then retryTransient cfg w ad exc
      else return some (.raised exc)

end

/-! ## The coordinator loop -/

/-- Where the coordinator stands. -/
inductive Loc (K H E : Type) where
  /-- at the guard of the `while` -/
  | head
  /-- in the dispatch loop -/
  | dispatch
  /-- in `wait(list(inflight), ..)` -/
  | wait
  /-- before `sleep(wait_s)` -/
  | sleep
  /-- in `for fut in done`, these futures still to come -/
  | collect (done : List Future)
  /-- calling `_promote_matured` -/
  | promote
  /-- in the loop of `_promote_matured`, having read the clock -/
  | pop (now : ℚ)
  /-- in `pool.shutdown(wait=True)`, with the exception on its way out -/
  | shutdown (exc : Option (Fault K H E))
  /-- the loop and its `finally` are over without an exception -/
  | done
  /-- the exception has left `run_checkpointed` -/
  | failed (exc : Fault K H E)
  /-- the process is dead -/
  | dead
  deriving DecidableEq

structure State (σ P K H R E : Type) where
  loc : Loc K H E
  c : Coord P K H R E
  store : σ

/-- What a step does to an item.  Steps that only test, wait or read the clock
    are `tau`. -/
inductive Event (P K H R E : Type) where
  | tau
  /-- a verified hit at dispatch -/
  | resume (ad : Admitted P K H)
  | submit (fut : Future) (ad : Admitted P K H)
  /-- the pool ends the call -/
  | finish (fut : Future) (ad : Admitted P K H) (o : Except E R)
  | commit (fut : Future) (ad : Admitted P K H) (r : R)
  | requeue (fut : Future) (ad : Admitted P K H) (exc : E)
  | split (fut : Future) (ad : Admitted P K H) (exc : E) (children : List (Admitted P K H))
  | fatal (fut : Future) (ad : Admitted P K H) (exc : E) (fault : Fault K H E)
  | promote (ad : Admitted P K H)
  /-- `store.has` or `store.commit` raises -/
  | storeRaises (fut : Option Future) (ad : Admitted P K H) (exc : E)
  /-- another exception leaves the loop -/
  | abort (fut : Option Future) (ad : Admitted P K H) (fault : Fault K H E)
  /-- `sleep` or `wait` refuses its timeout -/
  | overlong
  /-- the process dies in `store.commit` -/
  | die (fut : Future) (ad : Admitted P K H)

/-- `fut.cancel()` on every in-flight future: it takes effect on those of `fs`,
    whose call no thread has started. -/
def Coord.cancel (c : Coord P K H R E) (fs : List Future) : Coord P K H R E :=
  { c with inflight := c.inflight.map fun x =>
      match x.state with
      | .running => if x.fut ∈ fs then { x with state := .cancelled } else x
      | _ => x }

/-- One statement of the coordinator, or the end of a call in the pool. -/
inductive Step [DecidableEq K] (cfg : Config σ K H R E) (w : World P K H E) :
    State σ P K H R E → Event P K H R E → State σ P K H R E → Prop where
  /-- `while (ready or delayed or inflight) and fatal_exc is None` -/
  | enter {c s} : c.busy → c.fatalExc = none → Step cfg w ⟨.head, c, s⟩ .tau ⟨.dispatch, c, s⟩
  /-- `while ready and len(inflight) < max_workers` -/
  | resume {c s ad rest} : c.ready = ad :: rest → c.inflight.length < cfg.maxWorkers →
      cfg.store.has s ad.contentKey ad.payloadHash = .ok true →
      Step cfg w ⟨.dispatch, c, s⟩ (.resume ad)
        ⟨.dispatch, { c with ready := rest, resumed := c.resumed + 1 }, s⟩
  | submit {c s ad rest} : c.ready = ad :: rest → c.inflight.length < cfg.maxWorkers →
      cfg.store.has s ad.contentKey ad.payloadHash = .ok false →
      Step cfg w ⟨.dispatch, c, s⟩ (.submit c.attemptsTotal ad)
        ⟨.dispatch, { c with
          ready := rest
          inflight := c.inflight ++ [⟨c.attemptsTotal, ad, .running⟩]
          attemptsTotal := c.attemptsTotal + 1 }, s⟩
  | hasRaises {c s ad rest exc} : c.ready = ad :: rest → c.inflight.length < cfg.maxWorkers →
      cfg.store.has s ad.contentKey ad.payloadHash = .error exc →
      Step cfg w ⟨.dispatch, c, s⟩ (.storeRaises none ad exc)
        ⟨.shutdown (some (.raised exc)), { c with ready := rest }, s⟩
  /-- a pool broken by its `worker_setup` refuses the call -/
  | submitRaises {c s ad rest exc} : c.ready = ad :: rest → c.inflight.length < cfg.maxWorkers →
      cfg.store.has s ad.contentKey ad.payloadHash = .ok false →
      Step cfg w ⟨.dispatch, c, s⟩ (.abort none ad (.raised exc))
        ⟨.shutdown (some (.raised exc)), { c with ready := rest }, s⟩
  /-- the dispatch loop is over: `if inflight`, `elif delayed`, or neither -/
  | toWait {c s} : (c.ready = [] ∨ cfg.maxWorkers ≤ c.inflight.length) → c.inflight ≠ [] →
      Step cfg w ⟨.dispatch, c, s⟩ .tau ⟨.wait, c, s⟩
  | toSleep {c s} : (c.ready = [] ∨ cfg.maxWorkers ≤ c.inflight.length) → c.inflight = [] →
      c.delayed ≠ [] → Step cfg w ⟨.dispatch, c, s⟩ .tau ⟨.sleep, c, s⟩
  | toHead {c s} : (c.ready = [] ∨ cfg.maxWorkers ≤ c.inflight.length) → c.inflight = [] →
      c.delayed = [] → Step cfg w ⟨.dispatch, c, s⟩ .tau ⟨.head, c, s⟩
  /-- `wait` returns ended calls in any order, or none at its timeout; it has a
      timeout only when some retry is delayed -/
  | woke {c s} (done : List Future) : done.Nodup →
      (∀ f ∈ done, ∃ ad o, ⟨f, ad, .finished o⟩ ∈ c.inflight) →
      (done = [] → ∃ d ∈ c.delayed.head?, ¬ (timeLeft d.readyAt w.monotonic).overlong cfg.waitMax) →
      Step cfg w ⟨.wait, c, s⟩ .tau ⟨.collect done, c, s⟩
  /-- `wait` looks at its timeout when no call has ended -/
  | waitRaises {c s d ds} : c.delayed = d :: ds → (∀ x ∈ c.inflight, ¬ x.isFinished) →
      (timeLeft d.readyAt w.monotonic).overlong cfg.waitMax →
      Step cfg w ⟨.wait, c, s⟩ .overlong ⟨.shutdown (some .overflow), c, s⟩
  /-- `fut.result()` returns: `store.commit(..)` -/
  | commit {c s s' f fs pre post ad r} : c.inflight = pre ++ ⟨f, ad, .finished (.ok r)⟩ :: post →
      cfg.store.commit s ad.contentKey ad.payloadHash r .returned s' →
      Step cfg w ⟨.collect (f :: fs), c, s⟩ (.commit f ad r)
        ⟨.collect fs, { c with inflight := pre ++ post, committed := c.committed + 1 }, s'⟩
  | commitRaises {c s s' f fs pre post ad r exc} :
      c.inflight = pre ++ ⟨f, ad, .finished (.ok r)⟩ :: post →
      cfg.store.commit s ad.contentKey ad.payloadHash r (.raised exc) s' →
      Step cfg w ⟨.collect (f :: fs), c, s⟩ (.storeRaises (some f) ad exc)
        ⟨.shutdown (some (.raised exc)), { c with inflight := pre ++ post }, s'⟩
  | commitDies {c s s' f fs pre post ad r} :
      c.inflight = pre ++ ⟨f, ad, .finished (.ok r)⟩ :: post →
      cfg.store.commit s ad.contentKey ad.payloadHash r .died s' →
      Step cfg w ⟨.collect (f :: fs), c, s⟩ (.die f ad)
        ⟨.dead, { c with inflight := pre ++ post }, s'⟩
  /-- `fut.result()` raises an `Exception`: `_route_exception(ad, exc)` -/
  | requeue {c c' s f fs pre post ad exc} :
      c.inflight = pre ++ ⟨f, ad, .finished (.error exc)⟩ :: post → cfg.isException exc →
      routeException cfg w ad exc { c with inflight := pre ++ post } = .ok none c' →
      c'.splits = c.splits →
      Step cfg w ⟨.collect (f :: fs), c, s⟩ (.requeue f ad exc) ⟨.collect fs, c', s⟩
  | split {c c' s f fs pre post ad exc} :
      c.inflight = pre ++ ⟨f, ad, .finished (.error exc)⟩ :: post → cfg.isException exc →
      routeException cfg w ad exc { c with inflight := pre ++ post } = .ok none c' →
      c'.splits ≠ c.splits →
      Step cfg w ⟨.collect (f :: fs), c, s⟩ (.split f ad exc (c'.ready.drop c.ready.length))
        ⟨.collect fs, c', s⟩
  | fatal {c c' s f fs pre post ad exc fault} :
      c.inflight = pre ++ ⟨f, ad, .finished (.error exc)⟩ :: post → cfg.isException exc →
      routeException cfg w ad exc { c with inflight := pre ++ post } = .ok (some fault) c' →
      Step cfg w ⟨.collect (f :: fs), c, s⟩ (.fatal f ad exc fault)
        ⟨.promote, { c' with fatalExc := some fault }, s⟩
  | routeRaises {c c' s f fs pre post ad exc fault} :
      c.inflight = pre ++ ⟨f, ad, .finished (.error exc)⟩ :: post → cfg.isException exc →
      routeException cfg w ad exc { c with inflight := pre ++ post } = .error fault c' →
      Step cfg w ⟨.collect (f :: fs), c, s⟩ (.abort (some f) ad fault) ⟨.shutdown (some fault), c', s⟩
  /-- an exception that is no `Exception` is not caught -/
  | notCaught {c s f fs pre post ad exc} :
      c.inflight = pre ++ ⟨f, ad, .finished (.error exc)⟩ :: post → ¬ cfg.isException exc →
      Step cfg w ⟨.collect (f :: fs), c, s⟩ (.abort (some f) ad (.raised exc))
        ⟨.shutdown (some (.raised exc)), { c with inflight := pre ++ post }, s⟩
  | collected {c s} : Step cfg w ⟨.collect [], c, s⟩ .tau ⟨.promote, c, s⟩
  | slept {c s d ds} : c.delayed = d :: ds →
      ¬ (timeLeft d.readyAt w.monotonic).overlong cfg.sleepMax →
      Step cfg w ⟨.sleep, c, s⟩ .tau ⟨.promote, c, s⟩
  | sleepRaises {c s d ds} : c.delayed = d :: ds →
      (timeLeft d.readyAt w.monotonic).overlong cfg.sleepMax →
      Step cfg w ⟨.sleep, c, s⟩ .overlong ⟨.shutdown (some .overflow), c, s⟩
  /-- `_promote_matured` -/
  | promote {c s} : Step cfg w ⟨.promote, c, s⟩ .tau ⟨.pop w.monotonic, c, s⟩
  | pop {c s now d ds} : c.delayed = d :: ds → d.readyAt.le (.fin now) →
      Step cfg w ⟨.pop now, c, s⟩ (.promote d.ad)
        ⟨.pop now, { c with delayed := ds, ready := c.ready ++ [d.ad] }, s⟩
  | popped {c s now} : (∀ d ∈ c.delayed.head?, ¬ d.readyAt.le (.fin now)) →
      Step cfg w ⟨.pop now, c, s⟩ .tau ⟨.head, c, s⟩
  /-- the way out -/
  | leave {c s} : ¬ c.busy → c.fatalExc = none →
      Step cfg w ⟨.head, c, s⟩ .tau ⟨.shutdown none, c, s⟩
  | cancel {c s fault} (fs : List Future) : c.fatalExc = some fault →
      Step cfg w ⟨.head, c, s⟩ .tau ⟨.shutdown (some fault), c.cancel fs, s⟩
  | left {c s} : (∀ x ∈ c.inflight, x.state ≠ .running) →
      Step cfg w ⟨.shutdown none, c, s⟩ .tau ⟨.done, c, s⟩
  | failed {c s fault} : (∀ x ∈ c.inflight, x.state ≠ .running) →
      Step cfg w ⟨.shutdown (some fault), c, s⟩ .tau ⟨.failed fault, c, s⟩
  /-- a thread of the pool ends its call -/
  | finish {loc c s f pre post ad} (o : Except E R) : loc ≠ .dead →
      c.inflight = pre ++ ⟨f, ad, .running⟩ :: post →
      Step cfg w ⟨loc, c, s⟩ (.finish f ad o)
        ⟨loc, { c with inflight := pre ++ ⟨f, ad, .finished o⟩ :: post }, s⟩

/-- One step, where the world answers in one of the ways `W`. -/
def Config.step [DecidableEq K] (cfg : Config σ K H R E) (W : Set (World P K H E))
    (s : State σ P K H R E) (ev : Event P K H R E) (s' : State σ P K H R E) : Prop :=
  ∃ w ∈ W, Step cfg w s ev s'

/-- One step, labelled with what the world answers in it. -/
def Config.timedStep [DecidableEq K] (cfg : Config σ K H R E) (s : State σ P K H R E)
    (l : World P K H E × Event P K H R E) (s' : State σ P K H R E) : Prop :=
  Step cfg l.1 s l.2 s'

/-! ## The whole call -/

/-- One combine mode, as validated. -/
inductive CombineMode (R E A O : Type) where
  | combine (combine : List R → Except E O)
  | incremental (reduce : A → R → Except E A) (finalize : A → Except E O) (initial : A)

/-- The combine-mode validation. -/
def combineMode (combine : Option (List R → Except E O)) (reduce : Option (A → R → Except E A))
    (finalize : Option (A → Except E O)) (initial : A) :
    Except (Fault K H E) (CombineMode R E A O) :=
  match combine, reduce, finalize with
  | some combine, none, none => .ok (.combine combine)
  | none, some reduce, some finalize => .ok (.incremental reduce finalize initial)
  | none, some _, none | none, none, some _ => .error .halfIncremental
  | none, none, none | some _, some _, _ | some _, _, some _ => .error .notOneCombineMode

/-- The state at the first loop head. -/
def begin [DecidableEq K] (w : Hooks P K H E) (items : List (CheckpointItem P)) (s : σ) :
    Except (Fault K H E) (State σ P K H R E) :=
  match admitRoots w items {} with
  | .ok _ c => .ok ⟨.head, c, s⟩
  | .error e _ => .error e

section
variable [LinearOrder K]

/-- `sorted({ck: terminal_hash[ck] for ck in terminal_keys}.items())`; `none`
    on a key without a hash. -/
def Coord.expected (c : Coord P K H R E) : Option (List (K × H)) :=
  (c.terminalKeys.sort (· ≤ ·)).mapM fun ck => (c.terminalHash ck).map fun h => (ck, h)

/-- `load_all`. -/
def ResultStore.loadAll (store : ResultStore σ K H R E) (s : σ) (pairs : List (K × H)) :
    Except E (List R) :=
  pairs.mapM fun p => store.load s p.1 p.2

/-- `for result in iter_results(..): acc = reduce(acc, result)`. -/
def ResultStore.foldResults (store : ResultStore σ K H R E) (s : σ) (reduce : A → R → Except E A)
    (initial : A) (pairs : List (K × H)) : Except E A :=
  pairs.foldlM (fun acc p => do reduce acc (← store.load s p.1 p.2)) initial

/-- The output over the live terminal leaves. -/
def stitch (store : ResultStore σ K H R E) (s : σ) (mode : CombineMode R E A O)
    (pairs : List (K × H)) : Except E O :=
  match mode with
  | .combine combine => do combine (← store.loadAll s pairs)
  | .incremental reduce finalize initial => do
    finalize (← store.foldResults s reduce initial pairs)

/-- What `run_checkpointed` returns or raises in a state where its loop is over. -/
def outcome (cfg : Config σ K H R E) (mode : CombineMode R E A O) (s : State σ P K H R E) :
    Option (Except (Fault K H E) (CheckpointResult O)) :=
  match s.loc with
  | .failed fault => some (.error fault)
  | .done =>
    match s.c.expected with
    | none => some (.error .keyError)
    | some pairs =>
      match stitch cfg.store s.store mode pairs with
      | .error e => some (.error (.raised e))
      | .ok frame => some (.ok
        { frame, attempts := s.c.attemptsTotal, committedKeys := s.c.committed,
          resumedKeys := s.c.resumed, transientRetries := s.c.transientRetries,
          splits := s.c.splits })
  | _ => none

/-- The store `run_checkpointed` leaves behind. -/
def storeAfter (cfg : Config σ K H R E) (mode : CombineMode R E A O) (s : State σ P K H R E) : σ :=
  match outcome cfg mode s with
  | some (.ok _) => if cfg.cleanupOnSuccess then cfg.store.cleanup s.store else s.store
  | _ => s.store

end

end ResumableBatch
