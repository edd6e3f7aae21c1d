/-
  The coordinator as a program: given the order in which the pool ends its
  calls, it computes a run of the step relation.
-/
import ResumableBatch.Engine

namespace ResumableBatch

variable {P K H R E σ : Type}

/-- What the pool and the threads decide. -/
inductive Choice (R E : Type) where
  /-- the coordinator goes on; `wait` returns this batch, `cancel` takes effect on it -/
  | go (batch : List Future := [])
  /-- a call ends -/
  | ends (f : Future) (o : Except E R)

/-- The calls before, at and after a future. -/
def findCall (f : Future) : List (Call P K H R E) →
    Option (List (Call P K H R E) × Call P K H R E × List (Call P K H R E))
  | [] => none
  | x :: xs =>
    if x.fut = f then some ([], x, xs)
    else (findCall f xs).map fun (pre, y, post) => (x :: pre, y, post)

def Call.isRunning (x : Call P K H R E) : Bool :=
  match x.state with
  | .running => true
  | _ => false

variable [DecidableEq K]

/-- The statement the coordinator executes next. -/
def next (cfg : Config σ K H R E) (commit : σ → K → H → R → Ended E × σ) (w : World P K H E)
    (batch : List Future) (c : Coord P K H R E) (st : σ) :
    Loc K H E → Option (Event P K H R E × State σ P K H R E)
  | .head =>
    match c.fatalExc with
    | some fault => some (.tau, ⟨.shutdown (some fault), c.cancel batch, st⟩)
    | none =>
      if c.ready = [] ∧ c.delayed = [] ∧ c.inflight = [] then some (.tau, ⟨.shutdown none, c, st⟩)
      else some (.tau, ⟨.dispatch, c, st⟩)
  | .dispatch =>
    if c.inflight.length < cfg.maxWorkers then
      match c.ready with
      | ad :: rest =>
        match cfg.store.has st ad.contentKey ad.payloadHash with
        | .ok true =>
          some (.resume ad, ⟨.dispatch, { c with ready := rest, resumed := c.resumed + 1 }, st⟩)
        | .ok false =>
          some (.submit c.attemptsTotal ad, ⟨.dispatch, { c with
            ready := rest
            inflight := c.inflight ++ [⟨c.attemptsTotal, ad, .running⟩]
            attemptsTotal := c.attemptsTotal + 1 }, st⟩)
        | .error exc =>
          some (.storeRaises none ad exc,
            ⟨.shutdown (some (.raised exc)), { c with ready := rest }, st⟩)
      | [] =>
        if c.inflight ≠ [] then some (.tau, ⟨.wait, c, st⟩)
        else if c.delayed ≠ [] then some (.tau, ⟨.sleep, c, st⟩)
        else some (.tau, ⟨.head, c, st⟩)
    else if c.inflight ≠ [] then some (.tau, ⟨.wait, c, st⟩)
    else none
  | .wait =>
    match batch, c.delayed with
    | [], [] => none
    | [], d :: _ =>
      if (timeLeft d.readyAt w.monotonic).overlong cfg.waitMax then
        if c.inflight.any Call.isFinished then none
        else some (.overlong, ⟨.shutdown (some .overflow), c, st⟩)
      else some (.tau, ⟨.collect [], c, st⟩)
    | f :: fs, _ =>
      if (f :: fs).Nodup ∧
          (∀ g ∈ f :: fs, c.inflight.any fun x => x.fut = g && x.isFinished) then
        some (.tau, ⟨.collect (f :: fs), c, st⟩)
      else none
  | .sleep =>
    match c.delayed with
    | [] => none
    | d :: _ =>
      if (timeLeft d.readyAt w.monotonic).overlong cfg.sleepMax then
        some (.overlong, ⟨.shutdown (some .overflow), c, st⟩)
      else some (.tau, ⟨.promote, c, st⟩)
  | .collect [] => some (.tau, ⟨.promote, c, st⟩)
  | .collect (f :: fs) =>
    match findCall f c.inflight with
    | some (pre, ⟨_, ad, .finished (.ok r)⟩, post) =>
      let c' := { c with inflight := pre ++ post }
      match commit st ad.contentKey ad.payloadHash r with
      | (.returned, st') =>
        some (.commit f ad r, ⟨.collect fs, { c' with committed := c.committed + 1 }, st'⟩)
      | (.raised exc, st') => some (.storeRaises (some f) ad exc,
        ⟨.shutdown (some (.raised exc)), c', st'⟩)
      | (.died, st') => some (.die f ad, ⟨.dead, c', st'⟩)
    | some (pre, ⟨_, ad, .finished (.error exc)⟩, post) =>
      let c' := { c with inflight := pre ++ post }
      if cfg.isException exc then
        match routeException cfg w ad exc c' with
        | .ok none c'' =>
          if c''.splits = c.splits then some (.requeue f ad exc, ⟨.collect fs, c'', st⟩)
          else some (.split f ad exc (c''.ready.drop c.ready.length), ⟨.collect fs, c'', st⟩)
        | .ok (some fault) c'' =>
          some (.fatal f ad exc fault, ⟨.promote, { c'' with fatalExc := some fault }, st⟩)
        | .error fault c'' =>
          some (.abort (some f) ad fault, ⟨.shutdown (some fault), c'', st⟩)
      else some (.abort (some f) ad (.raised exc), ⟨.shutdown (some (.raised exc)), c', st⟩)
    | _ => none
  | .promote => some (.tau, ⟨.pop w.monotonic, c, st⟩)
  | .pop now =>
    match c.delayed with
    | [] => some (.tau, ⟨.head, c, st⟩)
    | d :: ds =>
      if d.readyAt.le (.fin now) then
        some (.promote d.ad, ⟨.pop now, { c with delayed := ds, ready := c.ready ++ [d.ad] }, st⟩)
      else some (.tau, ⟨.head, c, st⟩)
  | .shutdown exc =>
    if c.inflight.any Call.isRunning then none
    else match exc with
      | none => some (.tau, ⟨.done, c, st⟩)
      | some fault => some (.tau, ⟨.failed fault, c, st⟩)
  | .done | .failed _ | .dead => none

/-- One choice carried out. -/
def advance (cfg : Config σ K H R E) (commit : σ → K → H → R → Ended E × σ) (w : World P K H E)
    (choice : Choice R E) (s : State σ P K H R E) :
    Option (Event P K H R E × State σ P K H R E) :=
  match choice with
  | .go batch => next cfg commit w batch s.c s.store s.loc
  | .ends f o =>
    match s.loc, findCall f s.c.inflight with
    | .dead, _ => none
    | loc, some (pre, ⟨_, ad, .running⟩, post) =>
      some (.finish f ad o,
        ⟨loc, { s.c with inflight := pre ++ ⟨f, ad, .finished o⟩ :: post }, s.store⟩)
    | _, _ => none

/-- All choices carried out, one after the other. -/
def play (cfg : Config σ K H R E) (commit : σ → K → H → R → Ended E × σ) (w : World P K H E) :
    List (Choice R E) → State σ P K H R E → Option (List (Event P K H R E) × State σ P K H R E)
  | [], s => some ([], s)
  | choice :: rest, s => do
    let (ev, s') ← advance cfg commit w choice s
    let (tr, s'') ← play cfg commit w rest s'
    return (ev :: tr, s'')

/-- The run on `items` as far as `choices` go: its start, its trace and its end. -/
def playFrom (cfg : Config σ K H R E) (commit : σ → K → H → R → Ended E × σ) (w : World P K H E)
    (items : List (CheckpointItem P)) (st : σ) (choices : List (Choice R E)) :
    Option (State σ P K H R E × List (Event P K H R E) × State σ P K H R E) := do
  let s₀ ← (begin w.toHooks items st).toOption
  return (s₀, ← play cfg commit w choices s₀)

/-! ## Soundness -/

omit [DecidableEq K] in
theorem findCall_some {f : Future} {xs pre post : List (Call P K H R E)} {x : Call P K H R E}
    (h : findCall f xs = some (pre, x, post)) : xs = pre ++ x :: post ∧ x.fut = f := by
  induction xs generalizing pre with
  | nil => cases h
  | cons y ys ih =>
    unfold findCall at h
    split at h
    · cases h; exact ⟨rfl, ‹_›⟩
    · rw [Option.map_eq_some_iff] at h
      obtain ⟨⟨pre', z, post'⟩, h, he⟩ := h
      cases he
      obtain ⟨rfl, hf⟩ := ih h
      exact ⟨rfl, hf⟩

variable {cfg : Config σ K H R E} {commit : σ → K → H → R → Ended E × σ} {w : World P K H E}

theorem next_sound (hc : ∀ s k h r, cfg.store.commit s k h r (commit s k h r).1 (commit s k h r).2)
    {batch : List Future} {loc : Loc K H E} {c : Coord P K H R E} {st : σ}
    {ev : Event P K H R E} {s' : State σ P K H R E}
    (h : next cfg commit w batch c st loc = some (ev, s')) : Step cfg w ⟨loc, c, st⟩ ev s' := by
  cases loc with
  | head =>
    simp only [next] at h
    split at h
    · cases h; exact .cancel batch ‹_›
    · split at h
      · rename_i hf hb
        cases h; exact .leave (by simp [Coord.busy, hb]) hf
      · rename_i hf hb
        cases h; exact .enter (by simp only [Coord.busy]; tauto) hf
  | dispatch =>
    simp only [next] at h
    split at h
    · rename_i hlt
      split at h
      · rename_i ad rest hr
        split at h
        · cases h; exact .resume hr hlt ‹_›
        · cases h; exact .submit hr hlt ‹_›
        · cases h; exact .hasRaises hr hlt ‹_›
      · rename_i hr
        split_ifs at h with h₁ h₂
        · cases h; exact .toWait (Or.inl hr) h₁
        · cases h; exact .toSleep (Or.inl hr) (not_not.1 h₁) h₂
        · cases h; exact .toHead (Or.inl hr) (not_not.1 h₁) (not_not.1 h₂)
    · rename_i hle
      split_ifs at h with h₁
      cases h; exact .toWait (Or.inr (not_lt.1 hle)) h₁
  | wait =>
    simp only [next] at h
    split at h
    · cases h
    · rename_i d ds hd
      split_ifs at h with hlong hany
      · rw [List.any_eq_true] at hany
        cases h; exact .waitRaises hd (fun x hx hf => hany ⟨x, hx, hf⟩) hlong
      · cases h; exact .woke [] .nil nofun fun _ => ⟨d, by simp [hd], hlong⟩
    · rename_i _ f fs
      split_ifs at h with hb
      cases h
      refine .woke (f :: fs) hb.1 (fun g hg => ?_) nofun
      have := hb.2 g hg
      simp only [List.any_eq_true, Bool.and_eq_true, decide_eq_true_eq] at this
      obtain ⟨⟨f', ad, state⟩, hx, rfl, hs⟩ := this
      cases state with
      | finished o => exact ⟨ad, o, hx⟩
      | _ => cases hs
  | sleep =>
    simp only [next] at h
    split at h
    · cases h
    · rename_i d ds hd
      split_ifs at h with hlong
      · cases h; exact .sleepRaises hd hlong
      · cases h; exact .slept hd hlong
  | collect fs =>
    cases fs with
    | nil => cases h; exact .collected
    | cons f fs =>
      simp only [next] at h
      split at h
      · rename_i pre f' ad r post hf
        obtain ⟨hi, rfl⟩ := findCall_some hf
        have hcr := hc st ad.contentKey ad.payloadHash r
        split at h
        · rename_i st' he
          cases h; rw [he] at hcr; exact .commit hi hcr
        · rename_i exc st' he
          cases h; rw [he] at hcr; exact .commitRaises hi hcr
        · rename_i st' he
          cases h; rw [he] at hcr; exact .commitDies hi hcr
      · rename_i pre f' ad exc post hf
        obtain ⟨hi, rfl⟩ := findCall_some hf
        split_ifs at h with hx
        · split at h
          · rename_i c'' hr
            split_ifs at h with hs
            · cases h; exact .requeue hi hx hr hs
            · cases h; exact .split hi hx hr hs
          · cases h; exact .fatal hi hx ‹_›
          · cases h; exact .routeRaises hi hx ‹_›
        · cases h; exact .notCaught hi hx
      · cases h
  | promote => cases h; exact .promote
  | pop now =>
    simp only [next] at h
    split at h
    · rename_i hd
      cases h; exact .popped (by simp [hd])
    · rename_i d ds hd
      split_ifs at h with hle
      · cases h; exact .pop hd hle
      · cases h; exact .popped (by simp [hd, hle])
  | shutdown exc =>
    simp only [next] at h
    split_ifs at h with hr
    have hnr : ∀ x ∈ c.inflight, x.state ≠ .running := fun x hx he => by
      apply hr
      rw [List.any_eq_true]; exact ⟨x, hx, by simp [Call.isRunning, he]⟩
    cases exc with
    | none => cases h; exact .left hnr
    | some fault => cases h; exact .failed hnr
  | _ => cases h

theorem advance_sound
    (hc : ∀ s k h r, cfg.store.commit s k h r (commit s k h r).1 (commit s k h r).2)
    {choice : Choice R E} {s s' : State σ P K H R E} {ev : Event P K H R E}
    (h : advance cfg commit w choice s = some (ev, s')) : Step cfg w s ev s' := by
  obtain ⟨loc, c, st⟩ := s
  cases choice with
  | go batch => exact next_sound hc h
  | ends f o =>
    simp only [advance] at h
    split at h
    · cases h
    · rename_i hd hf
      obtain ⟨hi, rfl⟩ := findCall_some hf
      cases h; exact .finish o hd hi
    · cases h

/-- What `play` computes is a run. -/
theorem play_sound (hc : ∀ s k h r, cfg.store.commit s k h r (commit s k h r).1 (commit s k h r).2)
    {choices : List (Choice R E)} {s s' : State σ P K H R E} {tr : List (Event P K H R E)}
    (h : play cfg commit w choices s = some (tr, s')) : Lts.Run (cfg.step {w}) s tr s' := by
  induction choices generalizing s tr with
  | nil => cases h; exact .nil
  | cons choice rest ih =>
    simp only [play, Option.bind_eq_bind, Option.bind_eq_some_iff] at h
    obtain ⟨⟨ev, s₁⟩, h₁, ⟨tr', s₂⟩, h₂, he⟩ := h
    cases he
    exact .cons ⟨w, rfl, advance_sound hc h₁⟩ (ih h₂)

theorem playFrom_sound
    (hc : ∀ s k h r, cfg.store.commit s k h r (commit s k h r).1 (commit s k h r).2)
    {items : List (CheckpointItem P)} {st : σ} {choices : List (Choice R E)}
    {s₀ s : State σ P K H R E} {tr : List (Event P K H R E)}
    (h : playFrom cfg commit w items st choices = some (s₀, tr, s)) :
    begin w.toHooks items st = .ok s₀ ∧ Lts.Run (cfg.step {w}) s₀ tr s := by
  simp only [playFrom, Option.bind_eq_bind, Option.bind_eq_some_iff] at h
  obtain ⟨s₁, hb, ⟨tr', s'⟩, hp, he⟩ := h
  cases he
  refine ⟨?_, play_sound hc hp⟩
  cases hb' : begin (R := R) w.toHooks items st with
  | error e => rw [hb'] at hb; cases hb
  | ok s₁ => rw [hb'] at hb; cases hb; rfl

end ResumableBatch
