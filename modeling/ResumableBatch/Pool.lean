/-
  The pool of `run_checkpointed`: its queue and its threads, and the contexts that
  `worker_setup` makes and `worker_teardown` takes back.

  `Pool.Step` is the coordinator together with the threads.  A statement of the
  coordinator that concerns the pool (`submit`, `cancel`, `shutdown`) has a
  constructor of its own; in `Step` the pool is left open, and a call may end at
  any time.
-/
import ResumableBatch.Engine

namespace ResumableBatch

variable {P K H R E σ C : Type}

/-- What `run_checkpointed` is given for its workers. -/
structure WorkerHooks (E : Type) where
  /-- `worker_setup is not None` -/
  hasSetup : Bool := true
  /-- `worker_teardown is not None` -/
  hasTeardown : Bool := true
  /-- `BrokenThreadPool` -/
  brokenPool : E

/-- A thread of the pool. -/
inductive Thread (C : Type) where
  /-- in `_init_worker` -/
  | starting
  /-- in `work_queue.get` -/
  | idle (ctx : Option C)
  /-- with a call from the queue, which can still be cancelled -/
  | taken (ctx : Option C) (fut : Future)
  /-- in `execute(payload, ctx)` -/
  | busy (ctx : Option C) (fut : Future)
  | ended
  deriving DecidableEq

/-- The call a thread has taken and not started. -/
def Thread.pending : Thread C → List Future
  | .taken _ f => [f]
  | _ => []

/-- The coordinator and its pool; a context is `none` without `worker_setup`. -/
structure Pool (σ P K H R E C : Type) where
  run : State σ P K H R E
  /-- `_work_queue` -/
  queue : List Future := []
  threads : List (Thread C) := []
  created : List (Option C) := []
  /-- `_broken` -/
  broken : Bool := false
  /-- how many of `created` were given to `worker_teardown` -/
  torn : ℕ := 0
  /-- what `worker_teardown` raised that is no `Exception` -/
  escaped : Option E := none

/-- The calls that no thread has started. -/
def Pool.pending (p : Pool σ P K H R E C) : List Future :=
  p.queue ++ p.threads.flatMap Thread.pending

/-- `pool.shutdown(wait=True)` and what follows it in `finally`. -/
def Loc.inFinally {K H E : Type} : Loc K H E → Bool
  | .shutdown _ => true
  | _ => false

/-- What follows `finally`. -/
def Loc.afterFinally {K H E : Type} : Loc K H E → Loc K H E
  | .shutdown none => .done
  | .shutdown (some fault) => .failed fault
  | loc => loc

/-- A statement of the coordinator that leaves the pool alone. -/
def Event.isInternal : Event P K H R E → Bool
  | .submit _ _ | .finish _ _ _ | .abort none _ _ => false
  | _ => true

def CallState.isRunning : CallState R E → Bool
  | .running => true
  | _ => false

/-- The calls of `fs` that are still to end. -/
def Coord.unended (c : Coord P K H R E) (fs : List Future) : List (Future × Admitted P K H) :=
  (c.inflight.filter fun x => x.state.isRunning && x.fut ∈ fs).map fun x => (x.fut, x.ad)

/-- The futures of `fs` that are still to end get an exception. -/
def Coord.failAll (c : Coord P K H R E) (fs : List Future) (exc : E) : Coord P K H R E :=
  { c with inflight := c.inflight.map fun x =>
      if x.state.isRunning && x.fut ∈ fs then { x with state := .finished (.error exc) } else x }

namespace Pool

/-- What the coordinator or a thread does. -/
inductive Act (P K H R E C : Type) where
  | coordinator (ev : Event P K H R E)
  | cancel
  /-- `worker_setup` has returned in a thread -/
  | setup (t : ℕ) (ctx : Option C)
  /-- `worker_setup` raises; the queued calls end with the pool -/
  | setupRaises (t : ℕ) (calls : List (Future × Admitted P K H))
  /-- a call is taken from the queue -/
  | take (t : ℕ) (fut : Future)
  /-- `execute(payload, ctx)` is called -/
  | start (t : ℕ) (ctx : Option C) (fut : Future)
  /-- the call was cancelled -/
  | skip (t : ℕ) (fut : Future)
  /-- `execute` returns or raises -/
  | ends (t : ℕ) (fut : Future) (ad : Admitted P K H) (o : Except E R)
  | exit (t : ℕ)
  /-- `worker_teardown(ctx)` returns, or raises an `Exception` -/
  | teardown (ctx : Option C)
  | teardownEscapes (ctx : Option C) (exc : E)
  /-- the `finally` is over -/
  | leave

/-- One statement of the coordinator or of a thread. -/
inductive Step [DecidableEq K] (cfg : Config σ K H R E) (hooks : WorkerHooks E)
    (w : World P K H E) : Pool σ P K H R E C → Act P K H R E C → Pool σ P K H R E C → Prop where
  | coordinator {p ev s'} : ¬ p.run.loc.inFinally → ResumableBatch.Step cfg w p.run ev s' →
      ev.isInternal → s'.c.inflight.Sublist p.run.c.inflight →
      Step cfg hooks w p (.coordinator ev) { p with run := s' }
  /-- `pool.submit`; it may start a thread, the first one at once -/
  | submit {p f ad s'} (spawn : Bool) : ¬ p.broken →
      ResumableBatch.Step cfg w p.run (.submit f ad) s' →
      (spawn → p.threads.length < cfg.maxWorkers) → (p.threads = [] → spawn) →
      Step cfg hooks w p (.coordinator (.submit f ad))
        { p with
          run := s'
          queue := p.queue ++ [f]
          threads := if spawn then p.threads ++ [.starting] else p.threads }
  /-- `pool.submit` on a broken pool -/
  | refused {p ad s'} : p.broken →
      ResumableBatch.Step cfg w p.run (.abort none ad (.raised hooks.brokenPool)) s' →
      Step cfg hooks w p (.coordinator (.abort none ad (.raised hooks.brokenPool)))
        { p with run := s' }
  /-- `fut.cancel()` on all in-flight futures: it takes effect on those not started -/
  | cancel {p fault} : p.run.loc = .head → p.run.c.fatalExc = some fault →
      Step cfg hooks w p .cancel
        { p with run :=
            { p.run with loc := .shutdown (some fault), c := p.run.c.cancel p.pending } }
  /-- `_init_worker` -/
  | setup {p t ctx} : p.run.loc ≠ .dead → p.threads[t]? = some .starting →
      (¬ hooks.hasSetup → ctx = none) →
      Step cfg hooks w p (.setup t ctx)
        { p with threads := p.threads.set t (.idle ctx), created := p.created ++ [ctx] }
  | setupRaises {p t} : p.run.loc ≠ .dead → p.threads[t]? = some .starting → hooks.hasSetup →
      Step cfg hooks w p (.setupRaises t (p.run.c.unended p.queue))
        { p with
          run := { p.run with c := p.run.c.failAll p.queue hooks.brokenPool }
          queue := []
          threads := p.threads.set t .ended
          broken := true }
  /-- any call of the queue may come next: a thread goes on while the coordinator
      cancels the calls one by one -/
  | take {p t ctx f pre post} : p.run.loc ≠ .dead → p.threads[t]? = some (.idle ctx) →
      p.queue = pre ++ f :: post →
      Step cfg hooks w p (.take t f)
        { p with queue := pre ++ post, threads := p.threads.set t (.taken ctx f) }
  /-- `_run_one` -/
  | start {p t ctx f ad} : p.run.loc ≠ .dead → p.threads[t]? = some (.taken ctx f) →
      ⟨f, ad, .running⟩ ∈ p.run.c.inflight →
      Step cfg hooks w p (.start t ctx f) { p with threads := p.threads.set t (.busy ctx f) }
  | skip {p t ctx f ad} : p.run.loc ≠ .dead → p.threads[t]? = some (.taken ctx f) →
      ⟨f, ad, .cancelled⟩ ∈ p.run.c.inflight →
      Step cfg hooks w p (.skip t f) { p with threads := p.threads.set t (.idle ctx) }
  | ends {p t ctx f pre post ad} (o : Except E R) : p.run.loc ≠ .dead →
      p.threads[t]? = some (.busy ctx f) →
      p.run.c.inflight = pre ++ ⟨f, ad, .running⟩ :: post →
      Step cfg hooks w p (.ends t f ad o)
        { p with
          run := { p.run with c :=
            { p.run.c with inflight := pre ++ ⟨f, ad, .finished o⟩ :: post } }
          threads := p.threads.set t (.idle ctx) }
  /-- the pool shuts down, and nothing is left in the queue -/
  | exit {p t ctx} : p.run.loc.inFinally → p.threads[t]? = some (.idle ctx) → p.queue = [] →
      Step cfg hooks w p (.exit t) { p with threads := p.threads.set t .ended }
  /-- `for ctx in created`, when all threads are joined -/
  | teardown {p ctx} : p.run.loc.inFinally → (∀ x ∈ p.threads, x = .ended) → p.escaped = none →
      hooks.hasTeardown → p.created[p.torn]? = some ctx →
      Step cfg hooks w p (.teardown ctx) { p with torn := p.torn + 1 }
  | teardownEscapes {p ctx exc} : p.run.loc.inFinally → (∀ x ∈ p.threads, x = .ended) →
      p.escaped = none → hooks.hasTeardown → p.created[p.torn]? = some ctx →
      ¬ cfg.isException exc →
      Step cfg hooks w p (.teardownEscapes ctx exc)
        { p with torn := p.torn + 1, escaped := some exc }
  | leave {p} : p.run.loc.inFinally → (∀ x ∈ p.threads, x = .ended) → p.escaped = none →
      (hooks.hasTeardown → p.torn = p.created.length) →
      Step cfg hooks w p .leave { p with run := { p.run with loc := p.run.loc.afterFinally } }

/-- One step, where the world answers in one of the ways `W`. -/
def step [DecidableEq K] (cfg : Config σ K H R E) (hooks : WorkerHooks E)
    (W : Set (World P K H E)) (p : Pool σ P K H R E C) (act : Act P K H R E C)
    (p' : Pool σ P K H R E C) : Prop :=
  ∃ w ∈ W, Step cfg hooks w p act p'

/-- The new pool, when the coordinator enters its loop. -/
def start (s : State σ P K H R E) : Pool σ P K H R E C := { run := s }

/-- What the coordinator sees of an act. -/
def Act.events (broken : E) : Act P K H R E C → List (Event P K H R E)
  | .coordinator ev => [ev]
  | .cancel | .leave => [.tau]
  | .setupRaises _ calls => calls.map fun x => .finish x.1 x.2 (.error broken)
  | .ends _ f ad o => [.finish f ad o]
  | _ => []

end Pool

end ResumableBatch
