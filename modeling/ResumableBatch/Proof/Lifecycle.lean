/-
  The life cycle of one key: what happens to it in a run, and in which order.
-/
import ResumableBatch.Proof.Frontier

namespace ResumableBatch

variable {P K H R E σ : Type}

/-! ## The history of a key -/

/-- An event, for the key it is about. -/
inductive KeyEvent (R E : Type) where
  | admitted
  | resume
  | submit (fut : Future)
  | finish (fut : Future) (o : Except E R)
  | requeue (fut : Future) (exc : E)
  | promote
  | commit (fut : Future) (r : R)
  | split (fut : Future) (exc : E)
  /-- the run fails on the outcome of the call -/
  | fail (fut : Future)

/-- Where an item stands. -/
inductive Stage (R E : Type) where
  | queued
  | running (fut : Future)
  | ended (fut : Future) (o : Except E R)
  | waiting
  | settled
  | split
  | failed

namespace Event

/-- The item an event moves. -/
def moved : Event P K H R E → Option (Admitted P K H × KeyEvent R E)
  | resume ad => some (ad, .resume)
  | submit f ad => some (ad, .submit f)
  | finish f ad o => some (ad, .finish f o)
  | commit f ad r => some (ad, .commit f r)
  | requeue f ad exc => some (ad, .requeue f exc)
  | split f ad exc _ => some (ad, .split f exc)
  | promote ad => some (ad, .promote)
  | fatal f ad _ _ | storeRaises (some f) ad _ | abort (some f) ad _ | die f ad =>
    some (ad, .fail f)
  | tau | overlong | storeRaises none _ _ | abort none _ _ => none

/-- The item an event takes out of the queues. -/
def closed : Event P K H R E → List (Admitted P K H × Stage R E)
  | resume ad | commit _ ad _ => [(ad, .settled)]
  | split _ ad _ _ => [(ad, .split)]
  | fatal _ ad _ _ | storeRaises (some _) ad _ | abort (some _) ad _ | die _ ad => [(ad, .failed)]
  -- the run fails at the dispatch, no call was made
  | storeRaises none ad _ | abort none ad _ => [(ad, .queued)]
  | _ => []

theorem closed_fst (ev : Event P K H R E) :
    ev.closed.map (·.1) = ev.settled ++ ev.parents ++ ev.lost := by
  cases ev with
  | storeRaises fut => cases fut <;> rfl
  | abort fut => cases fut <;> rfl
  | _ => rfl

/-- The events on the key `k`. -/
def on [DecidableEq K] (k : K) (ev : Event P K H R E) : List (KeyEvent R E) :=
  (match ev.moved with
    | some (ad, e) => if ad.contentKey = k then [e] else []
    | none => []) ++ if k ∈ ev.added.map (·.contentKey) then [.admitted] else []

end Event

/-- What happened to the key `k`. -/
def history [DecidableEq K] (k : K) (roots : List (Admitted P K H))
    (tr : List (Event P K H R E)) : List (KeyEvent R E) :=
  (if k ∈ roots.map (·.contentKey) then [.admitted] else []) ++ tr.flatMap (Event.on k)

/-- Executions that ended in a transient failure, each requeued and promoted. -/
def retries (rs : List (Future × E)) : List (KeyEvent R E) :=
  rs.flatMap fun r => [.submit r.1, .finish r.1 (.error r.2), .requeue r.1 r.2, .promote]

/-- The histories of a key whose item stands at a stage. -/
def Life (l : List (KeyEvent R E)) : Stage R E → Prop
  | .queued => ∃ rs, l = .admitted :: retries rs
  | .running f => ∃ rs, l = .admitted :: retries rs ++ [.submit f]
  | .ended f o => ∃ rs, l = .admitted :: retries rs ++ [.submit f, .finish f o]
  | .waiting => ∃ rs f exc,
      l = .admitted :: retries rs ++ [.submit f, .finish f (.error exc), .requeue f exc]
  | .settled => l = [.admitted, .resume] ∨
      ∃ rs f r, l = .admitted :: retries rs ++ [.submit f, .finish f (.ok r), .commit f r]
  | .split => ∃ rs f exc,
      l = .admitted :: retries rs ++ [.submit f, .finish f (.error exc), .split f exc]
  | .failed => ∃ rs f o, l = .admitted :: retries rs ++ [.submit f, .finish f o, .fail f]

/-- A whole life: one resume, or executions of which all but the last were
    requeued and the last was committed or split. -/
def LifeCycle (l : List (KeyEvent R E)) : Prop := Life l .settled ∨ Life l .split

namespace KeyEvent

def isSubmit : KeyEvent R E → Bool
  | submit _ => true
  | _ => false

def isRequeue : KeyEvent R E → Bool
  | requeue .. => true
  | _ => false

def isCommit : KeyEvent R E → Bool
  | commit .. => true
  | _ => false

end KeyEvent

theorem retries_cons (r : Future × E) (rs : List (Future × E)) :
    retries (R := R) (r :: rs) = .submit r.1 :: .finish r.1 (.error r.2) :: .requeue r.1 r.2 ::
      .promote :: retries rs := rfl

theorem retries_submits (rs : List (Future × E)) :
    (retries (R := R) rs).countP KeyEvent.isSubmit = rs.length := by
  induction rs with
  | nil => rfl
  | cons r rs ih => simp [retries_cons, List.countP_cons, KeyEvent.isSubmit, ih]

theorem retries_requeues (rs : List (Future × E)) :
    (retries (R := R) rs).countP KeyEvent.isRequeue = rs.length := by
  induction rs with
  | nil => rfl
  | cons r rs ih => simp [retries_cons, List.countP_cons, KeyEvent.isRequeue, ih]

theorem retries_commits (rs : List (Future × E)) :
    (retries (R := R) rs).countP KeyEvent.isCommit = 0 := by
  induction rs with
  | nil => rfl
  | cons r rs ih => simp only [retries_cons, List.countP_cons, KeyEvent.isCommit, ih]; rfl

/-- An item is submitted once, and once more after each requeue. -/
theorem Life.submits {l : List (KeyEvent R E)} {st : Stage R E} (h : Life l st) :
    l.countP KeyEvent.isSubmit ≤ l.countP KeyEvent.isRequeue + 1 := by
  have key : ∀ (rs : List (Future × E)) (tail : List (KeyEvent R E)),
      tail.countP KeyEvent.isSubmit ≤ tail.countP KeyEvent.isRequeue + 1 →
      (KeyEvent.admitted :: retries rs ++ tail).countP KeyEvent.isSubmit ≤
        (KeyEvent.admitted :: retries rs ++ tail).countP KeyEvent.isRequeue + 1 := by
    intro rs tail ht
    have h₁ : (KeyEvent.admitted :: retries rs ++ tail).countP KeyEvent.isSubmit =
        rs.length + tail.countP KeyEvent.isSubmit := by
      rw [List.cons_append, List.countP_cons_of_neg (by simp [KeyEvent.isSubmit]),
        List.countP_append, retries_submits]
    have h₂ : (KeyEvent.admitted :: retries rs ++ tail).countP KeyEvent.isRequeue =
        rs.length + tail.countP KeyEvent.isRequeue := by
      rw [List.cons_append, List.countP_cons_of_neg (by simp [KeyEvent.isRequeue]),
        List.countP_append, retries_requeues]
    omega
  cases st with
  | queued => obtain ⟨rs, rfl⟩ := h; simpa using key rs [] (Nat.zero_le _)
  | settled =>
    rcases h with rfl | ⟨rs, f, r, rfl⟩
    · exact Nat.zero_le _
    · exact key rs [.submit f, .finish f (.ok r), .commit f r] le_rfl
  | running f => obtain ⟨rs, rfl⟩ := h; exact key rs [.submit f] le_rfl
  | ended f o => obtain ⟨rs, rfl⟩ := h; exact key rs [.submit f, .finish f o] le_rfl
  | waiting =>
    obtain ⟨rs, f, exc, rfl⟩ := h
    exact key rs [.submit f, .finish f (.error exc), .requeue f exc] (Nat.le_succ 1)
  | split =>
    obtain ⟨rs, f, exc, rfl⟩ := h
    exact key rs [.submit f, .finish f (.error exc), .split f exc] le_rfl
  | failed =>
    obtain ⟨rs, f, o, rfl⟩ := h
    exact key rs [.submit f, .finish f o, .fail f] le_rfl

theorem Life.commits {l : List (KeyEvent R E)} {st : Stage R E} (h : Life l st) :
    l.countP KeyEvent.isCommit ≤ 1 := by
  cases st with
  | queued => obtain ⟨rs, rfl⟩ := h; simp [retries_commits, KeyEvent.isCommit]
  | settled =>
    rcases h with rfl | ⟨rs, f, r, rfl⟩
    · simp [KeyEvent.isCommit]
    · simp [retries_commits, KeyEvent.isCommit]
  | running f => obtain ⟨rs, rfl⟩ := h; simp [retries_commits, KeyEvent.isCommit]
  | ended f o => obtain ⟨rs, rfl⟩ := h; simp [retries_commits, KeyEvent.isCommit]
  | _ => obtain ⟨rs, f, o, rfl⟩ := h; simp [retries_commits, KeyEvent.isCommit]

/-- A history that did not fail can still become a whole life. -/
theorem Life.completes {l : List (KeyEvent R E)} {st : Stage R E} (h : Life l st)
    (hst : st ≠ .failed) (r : R) : ∃ l', LifeCycle (l ++ l') := by
  cases st with
  | queued =>
    obtain ⟨rs, rfl⟩ := h
    exact ⟨[.submit 0, .finish 0 (.ok r), .commit 0 r], Or.inl (Or.inr ⟨rs, 0, r, rfl⟩)⟩
  | running f =>
    obtain ⟨rs, rfl⟩ := h
    exact ⟨[.finish f (.ok r), .commit f r], Or.inl (Or.inr ⟨rs, f, r, by simp⟩)⟩
  | ended f o =>
    obtain ⟨rs, rfl⟩ := h
    cases o with
    | ok r => exact ⟨[.commit f r], Or.inl (Or.inr ⟨rs, f, r, by simp⟩)⟩
    | error exc => exact ⟨[.split f exc], Or.inr ⟨rs, f, exc, by simp⟩⟩
  | waiting =>
    obtain ⟨rs, f, exc, rfl⟩ := h
    exact ⟨[.promote, .submit 0, .finish 0 (.ok r), .commit 0 r],
      Or.inl (Or.inr ⟨rs ++ [(f, exc)], 0, r, by simp [retries]⟩)⟩
  | settled => exact ⟨[], by rw [List.append_nil]; exact Or.inl h⟩
  | split => exact ⟨[], by rw [List.append_nil]; exact Or.inr h⟩
  | failed => exact absurd rfl hst

/-- Any history is the beginning of a whole life, closed at most by a failure. -/
theorem Life.begins {l : List (KeyEvent R E)} {st : Stage R E} (h : Life l st) :
    ∃ l₀ last, l = l₀ ++ last ∧ (last = [] ∨ ∃ f o l₁, l₀ = l₁ ++ [.submit f, .finish f o] ∧
      last = [.fail f]) ∧ (R → ∃ l', LifeCycle (l₀ ++ l')) := by
  by_cases hst : st = .failed
  · subst hst
    obtain ⟨rs, f, o, rfl⟩ := h
    have hended : Life (.admitted :: retries rs ++ [.submit f, .finish f o]) (.ended f o) :=
      ⟨rs, rfl⟩
    exact ⟨.admitted :: retries rs ++ [.submit f, .finish f o], [.fail f], by simp,
      Or.inr ⟨f, o, _, rfl, rfl⟩, hended.completes (by simp)⟩
  · exact ⟨l, [], by simp, Or.inl rfl, h.completes hst⟩

/-- How an event moves an item. -/
inductive Moves : Stage R E → KeyEvent R E → Stage R E → Prop where
  | resume : Moves .queued .resume .settled
  | submit (f) : Moves .queued (.submit f) (.running f)
  | finish (f o) : Moves (.running f) (.finish f o) (.ended f o)
  | requeue (f exc) : Moves (.ended f (.error exc)) (.requeue f exc) .waiting
  | promote : Moves .waiting .promote .queued
  | commit (f r) : Moves (.ended f (.ok r)) (.commit f r) .settled
  | split (f exc) : Moves (.ended f (.error exc)) (.split f exc) .split
  | fail (f o) : Moves (.ended f o) (.fail f) .failed

theorem Life.step {l : List (KeyEvent R E)} {st st' : Stage R E} {e : KeyEvent R E}
    (h : Life l st) (hm : Moves st e st') (hres : e = .resume → l = [.admitted]) :
    Life (l ++ [e]) st' := by
  cases hm with
  | resume => exact Or.inl (by rw [hres rfl]; rfl)
  | submit f =>
    obtain ⟨rs, rfl⟩ := h
    exact ⟨rs, rfl⟩
  | finish f o =>
    obtain ⟨rs, rfl⟩ := h
    exact ⟨rs, by simp⟩
  | requeue f exc =>
    obtain ⟨rs, rfl⟩ := h
    exact ⟨rs, f, exc, by simp⟩
  | promote =>
    obtain ⟨rs, f, exc, rfl⟩ := h
    exact ⟨rs ++ [(f, exc)], by simp [retries]⟩
  | commit f r =>
    obtain ⟨rs, rfl⟩ := h
    exact Or.inr ⟨rs, f, r, by simp⟩
  | split f exc =>
    obtain ⟨rs, rfl⟩ := h
    exact ⟨rs, f, exc, by simp⟩
  | fail f o =>
    obtain ⟨rs, rfl⟩ := h
    exact ⟨rs, f, o, by simp⟩

/-! ## Where the items stand -/

def Call.stage (x : Call P K H R E) : Stage R E :=
  match x.state with
  | .finished o => .ended x.fut o
  | _ => .running x.fut

/-- Every node of the forest with its stage. -/
def places (c : Coord P K H R E) (tr : List (Event P K H R E)) :
    Multiset (Admitted P K H × Stage R E) :=
  Multiset.ofList (c.ready.map (·, .queued)) +
    Multiset.ofList (c.delayed.map fun d => (d.ad, .waiting)) +
    Multiset.ofList (c.inflight.map fun x => (x.ad, x.stage)) +
    Multiset.ofList (tr.flatMap Event.closed)

theorem places_snoc (c : Coord P K H R E) (tr : List (Event P K H R E)) (ev : Event P K H R E) :
    places c (tr ++ [ev]) = places c tr + Multiset.ofList ev.closed := by
  simp only [places, List.flatMap_append, List.flatMap_singleton, ← Multiset.coe_add, add_assoc]

theorem cancel_places (c : Coord P K H R E) (fs : List Future) (tr : List (Event P K H R E)) :
    places (c.cancel fs) tr = places c tr := by
  have h : (c.cancel fs).inflight.map (fun x => (x.ad, x.stage)) =
      c.inflight.map (fun x => (x.ad, x.stage)) := by
    simp only [Coord.cancel, List.map_map]
    refine List.map_congr_left fun x _ => ?_
    obtain ⟨f, ad, state⟩ := x
    cases state <;> simp only [Function.comp]
    split <;> rfl
  simp only [places, h]; rfl

theorem places_take {c : Coord P K H R E} {pre post : List (Call P K H R E)} {x : Call P K H R E}
    (hi : c.inflight = pre ++ x :: post) (tr : List (Event P K H R E)) :
    places c tr = {(x.ad, x.stage)} + places { c with inflight := pre ++ post } tr := by
  simp only [places, hi, List.map_append, List.map_cons, ← Multiset.coe_add, ← Multiset.cons_coe,
    ← Multiset.singleton_add]
  abel

theorem places_ready {c : Coord P K H R E} {ad : Admitted P K H} {rest : List (Admitted P K H)}
    (hr : c.ready = ad :: rest) (tr : List (Event P K H R E)) :
    places c tr = {(ad, .queued)} + places { c with ready := rest } tr := by
  simp only [places, hr, List.map_cons, ← Multiset.cons_coe, ← Multiset.singleton_add]
  abel

section
variable [DecidableEq K] {cfg : Config σ K H R E} {w : World P K H E} {s s' : State σ P K H R E}
  {ev : Event P K H R E}

/-- A step moves one item, by one transition of its life, or none. -/
theorem Step.places (h : Step cfg w s ev s') (tr : List (Event P K H R E)) :
    (ev.moved = none ∧ ev.added = [] ∧
      places s'.c (tr ++ [ev]) = ResumableBatch.places s.c tr) ∨
    ∃ ad e st st' rest, ev.moved = some (ad, e) ∧ Moves st e st' ∧
      ResumableBatch.places s.c tr = {(ad, st)} + rest ∧
      ResumableBatch.places s'.c (tr ++ [ev]) =
        {(ad, st')} + rest + Multiset.ofList (ev.added.map (·, .queued)) := by
  -- a call taken out of the pool
  have take : ∀ {c c' : Coord P K H R E} {pre post f ad o ev e st'},
      c.inflight = pre ++ ⟨f, ad, .finished o⟩ :: post →
      ResumableBatch.places c' tr = ResumableBatch.places { c with inflight := pre ++ post } tr →
      Event.moved ev = some (ad, e) → Moves (.ended f o) e st' → ev.added = [] →
      ev.closed = [(ad, st')] →
      ∃ ad e st st' rest, ev.moved = some (ad, e) ∧ Moves st e st' ∧
        ResumableBatch.places c tr = {(ad, st)} + rest ∧
        ResumableBatch.places c' (tr ++ [ev]) =
          {(ad, st')} + rest + Multiset.ofList (ev.added.map (·, .queued)) := by
    intro c c' pre post f ad o ev e st' hi hc hm hmv ha hcl
    refine ⟨ad, e, _, st', _, hm, hmv, places_take hi tr, ?_⟩
    rw [places_snoc, hc, hcl, ha, List.map_nil, Multiset.coe_nil, add_zero, add_comm]; rfl
  cases h with
  | resume hr _ _ =>
    refine Or.inr ⟨_, _, _, _, _, rfl, .resume, places_ready hr tr, ?_⟩
    rw [places_snoc, add_comm]; exact (add_zero _).symm
  | @submit c _ ad rest hr _ _ =>
    refine Or.inr ⟨_, _, _, _, _, rfl, .submit c.attemptsTotal, places_ready hr tr, ?_⟩
    rw [places_snoc]
    simp only [ResumableBatch.places, List.map_append, List.map_cons, List.map_nil,
      ← Multiset.coe_add, ← Multiset.cons_coe, ← Multiset.singleton_add, Multiset.coe_nil,
      Event.closed, Event.added, Call.stage]
    abel
  | hasRaises hr _ _ =>
    refine Or.inl ⟨rfl, rfl, ?_⟩
    rw [places_snoc, places_ready hr, add_comm]; rfl
  | submitRaises hr _ _ =>
    refine Or.inl ⟨rfl, rfl, ?_⟩
    rw [places_snoc, places_ready hr, add_comm]; rfl
  | commit hi _ => exact Or.inr (take hi rfl rfl (.commit ..) rfl rfl)
  | commitRaises hi _ => exact Or.inr (take hi rfl rfl (.fail ..) rfl rfl)
  | commitDies hi _ => exact Or.inr (take hi rfl rfl (.fail ..) rfl rfl)
  | @requeue c _ _ f _ _ _ ad exc hi _ hr hs =>
    obtain ⟨-, -, -, -, _, _, _, -, -, -, rfl⟩ := requeue_spec hr hs
    refine Or.inr ⟨ad, _, _, _, _, rfl, .requeue f exc, places_take hi tr, ?_⟩
    rw [places_snoc]
    simp only [ResumableBatch.places, Coord.requeue_ready, Coord.requeue_delayed,
      Coord.requeue_inflight, coe_map_heappush, Event.closed, Event.added, List.map_nil,
      Multiset.coe_nil]
    abel
  | @split _ _ _ f _ _ _ ad exc hi _ hr hs =>
    obtain ⟨ads, hads, -, -, -, rfl⟩ := split_spec hr hs
    refine Or.inr ⟨ad, _, _, _, _, rfl, .split f exc, places_take hi tr, ?_⟩
    rw [places_snoc, hads]
    simp only [ResumableBatch.places, Coord.splitInto_ready, Coord.splitInto_delayed,
      Coord.splitInto_inflight, List.map_append, ← Multiset.coe_add, Event.closed, Event.added,
      Multiset.coe_singleton]
    abel
  | fatal hi _ hr =>
    obtain ⟨m, t, rfl⟩ := routeException_some hr
    exact Or.inr (take hi rfl rfl (.fail ..) rfl rfl)
  | routeRaises hi _ hr =>
    obtain ⟨m, t, rfl⟩ := routeException_error hr
    exact Or.inr (take hi rfl rfl (.fail ..) rfl rfl)
  | notCaught hi _ => exact Or.inr (take hi rfl rfl (.fail ..) rfl rfl)
  | @pop c _ _ d ds hd _ =>
    refine Or.inr ⟨d.ad, _, _, _, ResumableBatch.places { c with delayed := ds } tr, rfl,
      .promote, ?_, ?_⟩
    · simp only [ResumableBatch.places, hd, List.map_cons, ← Multiset.cons_coe,
        ← Multiset.singleton_add]
      abel
    · rw [places_snoc]
      simp only [ResumableBatch.places, List.map_append, List.map_cons, List.map_nil,
        ← Multiset.coe_add, ← Multiset.cons_coe, ← Multiset.singleton_add, Multiset.coe_nil,
        Event.closed, Event.added]
      abel
  | cancel fs _ => exact Or.inl ⟨rfl, rfl, by rw [places_snoc, cancel_places]; exact add_zero _⟩
  | @finish _ c _ f pre post ad o _ hi =>
    refine Or.inr ⟨ad, _, _, _, _, rfl, .finish f o, places_take hi tr, ?_⟩
    rw [places_snoc]
    simp only [ResumableBatch.places, List.map_append, List.map_cons, ← Multiset.coe_add,
      ← Multiset.cons_coe, ← Multiset.singleton_add, Event.closed, Event.added, List.map_nil,
      Multiset.coe_nil, Call.stage]
    abel
  | _ => exact Or.inl ⟨rfl, rfl, by rw [places_snoc]; exact add_zero _⟩

end

/-! ## The history of every item -/

/-- The store changes the entry of a key only by a commit of that key. -/
def ResultStore.Frame (store : ResultStore σ K H R E) : Prop :=
  ∀ {s k h k' h' r s'}, store.commit s k' h' r .returned s' → k' ≠ k →
    store.has s' k h = store.has s k h

section
variable [DecidableEq K]

theorem history_snoc (k : K) (roots : List (Admitted P K H)) (tr : List (Event P K H R E))
    (ev : Event P K H R E) : history k roots (tr ++ [ev]) = history k roots tr ++ ev.on k := by
  simp [history]

theorem Event.on_other {ev : Event P K H R E} {k : K}
    (hm : ∀ ad e, ev.moved = some (ad, e) → ad.contentKey ≠ k)
    (ha : ∀ a ∈ ev.added, a.contentKey ≠ k) : ev.on k = [] := by
  have hk : k ∉ ev.added.map (·.contentKey) := by simpa using fun a h => ha a h
  unfold Event.on
  cases he : ev.moved with
  | none => simp [hk]
  | some p => simp [hk, hm p.1 p.2 he]

omit [DecidableEq K] in
theorem places_fst (c : Coord P K H R E) (tr : List (Event P K H R E)) :
    (places c tr).map (·.1) =
      Multiset.ofList (leaves c tr) + Multiset.ofList (tr.flatMap Event.parents) := by
  have hcl : Multiset.ofList ((tr.flatMap Event.closed).map (·.1)) =
      Multiset.ofList (tr.flatMap Event.settled) + Multiset.ofList (tr.flatMap Event.parents) +
        Multiset.ofList (tr.flatMap Event.lost) := by
    induction tr with
    | nil => rfl
    | cons ev tr ih =>
      simp only [List.flatMap_cons, List.map_append, ← Multiset.coe_add, ih, Event.closed_fst]
      abel
  simp only [places, Multiset.map_add, Multiset.map_coe, hcl, List.map_map, Function.comp_def,
    List.map_id', leaves, ← Multiset.coe_add, Coord.coe_work]
  abel

variable {cfg : Config σ K H R E} {w : World P K H E} {W : Set (World P K H E)}
  {s s' s₀ : State σ P K H R E} {ev : Event P K H R E} {roots : List (Admitted P K H)}
  {tr : List (Event P K H R E)} {store : ResultStore σ K H R E}

/-- Every node has the history of its stage; other keys have none. -/
structure Lives (store : ResultStore σ K H R E) (roots : List (Admitted P K H))
    (tr : List (Event P K H R E)) (s : State σ P K H R E) : Prop where
  life : ∀ p ∈ places s.c tr, Life (history p.1.contentKey roots tr) p.2
  absent : ∀ k, (∀ a ∈ nodes roots tr, a.contentKey ≠ k) → history k roots tr = []
  missed : s.Healthy → ∀ a ∈ s.c.work, history a.contentKey roots tr ≠ [.admitted] →
    store.has s.store a.contentKey a.payloadHash = .ok false

omit [DecidableEq K] in
theorem Event.moved_resume {ad : Admitted P K H} (h : ev.moved = some (ad, .resume)) :
    ev = .resume ad := by
  cases ev with
  | resume => cases h; rfl
  | storeRaises fut => cases fut <;> cases h
  | abort fut => cases fut <;> cases h
  | _ => cases h

omit [DecidableEq K] in
theorem Event.moved_submit {ad : Admitted P K H} {f : Future}
    (h : ev.moved = some (ad, .submit f)) : ev = .submit f ad := by
  cases ev with
  | submit => cases h; rfl
  | storeRaises fut => cases fut <;> cases h
  | abort fut => cases fut <;> cases h
  | _ => cases h

theorem Ledger.nodup_places (hL : Ledger roots tr s) :
    ((places s.c tr).map fun p => p.1.contentKey).Nodup := by
  have h : (places s.c tr).map (fun p => p.1.contentKey) =
      Multiset.ofList ((nodes roots tr).map (·.contentKey)) := by
    rw [← Multiset.map_coe, ← Multiset.coe_eq_coe.2 hL.balance, ← Multiset.coe_add, ← places_fst,
      Multiset.map_map]
    rfl
  rw [h]; exact Multiset.coe_nodup.2 hL.nodup

theorem Ledger.node_of_place (hL : Ledger roots tr s) {p : Admitted P K H × Stage R E}
    (hp : p ∈ places s.c tr) : p.1 ∈ nodes roots tr := by
  have := Multiset.mem_map_of_mem (·.1) hp
  rw [places_fst, Multiset.coe_add, Multiset.mem_coe] at this
  exact hL.balance.mem_iff.1 this

/-- The children of a split have no history but their admission. -/
theorem Lives.child (hL' : Ledger roots (tr ++ [ev]) s') (hl : Lives store roots tr s)
    {a : Admitted P K H} (ha : a ∈ ev.added)
    (hm : ∀ ad e, ev.moved = some (ad, e) → ad ∈ nodes roots tr) :
    history a.contentKey roots (tr ++ [ev]) = [.admitted] := by
  have hnd := hL'.nodup
  rw [nodes_snoc, List.map_append, List.nodup_append] at hnd
  have hne : ∀ b ∈ nodes roots tr, b.contentKey ≠ a.contentKey := fun b hb =>
    hnd.2.2 _ (List.mem_map_of_mem hb) _ (List.mem_map_of_mem ha)
  rw [history_snoc, hl.absent _ hne, List.nil_append, Event.on,
    if_pos (List.mem_map_of_mem ha)]
  cases he : ev.moved with
  | none => rfl
  | some p => simp [hne _ (hm p.1 p.2 he)]

/-- What a step does to the history of a node that is not the one it moves. -/
theorem history_other (hL' : Ledger roots (tr ++ [ev]) s') {a : Admitted P K H}
    (ha : a ∈ nodes roots tr) (hm : ∀ ad e, ev.moved = some (ad, e) → ad.contentKey ≠ a.contentKey) :
    history a.contentKey roots (tr ++ [ev]) = history a.contentKey roots tr := by
  have hnd := hL'.nodup
  rw [nodes_snoc, List.map_append, List.nodup_append] at hnd
  rw [history_snoc, Event.on_other hm fun b hb =>
    (hnd.2.2 _ (List.mem_map_of_mem ha) _ (List.mem_map_of_mem hb)).symm, List.append_nil]

theorem history_moved (hL' : Ledger roots (tr ++ [ev]) s') {a : Admitted P K H}
    {e : KeyEvent R E} (ha : a ∈ nodes roots tr) (hm : ev.moved = some (a, e)) :
    history a.contentKey roots (tr ++ [ev]) = history a.contentKey roots tr ++ [e] := by
  have hnd := hL'.nodup
  rw [nodes_snoc, List.map_append, List.nodup_append] at hnd
  have hk : a.contentKey ∉ ev.added.map (·.contentKey) := fun h =>
    hnd.2.2 _ (List.mem_map_of_mem ha) _ h rfl
  rw [history_snoc, Event.on, if_neg hk, hm]; simp

theorem Lives.life_step (hL : Ledger roots tr s) (hL' : Ledger roots (tr ++ [ev]) s')
    (hl : Lives store roots tr s) (h : Step cfg w s ev s')
    (hres : ∀ ad, ev = .resume ad → history ad.contentKey roots tr = [.admitted]) :
    ∀ p ∈ places s'.c (tr ++ [ev]), Life (history p.1.contentKey roots (tr ++ [ev])) p.2 := by
  rcases h.places tr with ⟨hm, -, he⟩ | ⟨ad, e, st, st', rest, hm, hmv, he, he'⟩
  · intro p hp
    rw [he] at hp
    rw [history_other hL' (hL.node_of_place hp) (by simp [hm])]
    exact hl.life p hp
  · have had : (ad, st) ∈ places s.c tr := by simp [he]
    have hnode := hL.node_of_place had
    intro p hp
    rw [he', Multiset.mem_add, Multiset.mem_add, Multiset.mem_singleton] at hp
    rcases hp with (rfl | hp) | hp
    · rw [history_moved hL' hnode hm]
      refine (hl.life _ had).step hmv ?_
      rintro rfl
      exact hres ad (Event.moved_resume hm)
    · have hp' : p ∈ places s.c tr := by simp [he, hp]
      rw [history_other hL' (hL.node_of_place hp') ?_]
      · exact hl.life p hp'
      · intro ad' e' hm' hk
        rw [hm] at hm'
        cases hm'
        have hnd := hL.nodup_places
        rw [he, Multiset.map_add, Multiset.map_singleton, Multiset.nodup_add] at hnd
        exact Multiset.disjoint_left.1 hnd.2.2 (Multiset.mem_singleton_self _)
          (hk ▸ Multiset.mem_map_of_mem _ hp)
    · obtain ⟨a, ha, rfl⟩ := List.mem_map.1 (Multiset.mem_coe.1 hp)
      rw [hl.child hL' ha]
      · exact ⟨[], rfl⟩
      · rintro ad' e' hm'
        rw [hm] at hm'; cases hm'; exact hnode

omit [DecidableEq K] in
/-- A key that was only admitted stands in the ready queue. -/
theorem life_admit {st : Stage R E} (h : Life [.admitted] st) : st = .queued := by
  cases st with
  | queued => rfl
  | settled =>
    rcases h with h | ⟨rs, f, r, h⟩
    · simp at h
    · simp at h
  | running f => obtain ⟨rs, h⟩ := h; simp at h
  | ended f o => obtain ⟨rs, h⟩ := h; simp at h
  | waiting => obtain ⟨rs, f, exc, h⟩ := h; simp at h
  | split => obtain ⟨rs, f, exc, h⟩ := h; simp at h
  | failed => obtain ⟨rs, f, o, h⟩ := h; simp at h

theorem Step.submit_inv {f : Future} {ad : Admitted P K H} (h : Step cfg w s (.submit f ad) s') :
    cfg.store.has s.store ad.contentKey ad.payloadHash = .ok false ∧ s.loc = .dispatch ∧
      ad ∈ s.c.work := by
  generalize hev : Event.submit f ad = ev at h
  cases h with
  | submit hr _ hh => cases hev; exact ⟨hh, rfl, by simp [Coord.work, hr]⟩
  | _ => cases hev

theorem Step.resume_inv {ad : Admitted P K H} (h : Step cfg w s (.resume ad) s') :
    s.loc = .dispatch ∧ ad ∈ s.c.work ∧
      cfg.store.has s.store ad.contentKey ad.payloadHash = .ok true := by
  generalize hev : Event.resume ad = ev at h
  cases h with
  | resume hr _ hh => cases hev; exact ⟨rfl, by simp [Coord.work, hr], hh⟩
  | _ => cases hev

theorem Step.mem_work (h : Step cfg w s ev s') {a : Admitted P K H} (ha : a ∈ s'.c.work) :
    a ∈ s.c.work ∨ a ∈ ev.added := by
  have hw : a ∈ (s'.c.work : Multiset (Admitted P K H)) + (ev.settled + ev.parents + ev.lost) :=
    Multiset.mem_add.2 (Or.inl (Multiset.mem_coe.2 ha))
  rw [h.work, Multiset.mem_add, Multiset.mem_coe, Multiset.mem_coe] at hw
  exact hw

theorem Ledger.work_node (hL : Ledger roots tr s) {a : Admitted P K H} (ha : a ∈ s.c.work) :
    a ∈ nodes roots tr := hL.leaf (by simp [leaves, ha])

theorem Lives.missed_step (hst : cfg.store.Frame) (hL : Ledger roots tr s)
    (hL' : Ledger roots (tr ++ [ev]) s') (hl : Lives cfg.store roots tr s)
    (h : Step cfg w s ev s') (hh : s'.Healthy) {a : Admitted P K H} (ha : a ∈ s'.c.work)
    (hne : history a.contentKey roots (tr ++ [ev]) ≠ [.admitted]) :
    cfg.store.has s'.store a.contentKey a.payloadHash = .ok false := by
  have hs := (h.healthy_back hh).1
  -- an item still in the queues was not settled by this step
  have hset : ∀ b ∈ ev.settled, b.contentKey ≠ a.contentKey := by
    intro b hb
    have hnd := hL'.nodup_leaves
    rw [hL'.leaves_healthy hh, List.map_append, List.nodup_append] at hnd
    exact (hnd.2.2 _ (List.mem_map_of_mem ha) _ (List.mem_map_of_mem (by simp [hb]))).symm
  have hkeep : cfg.store.has s'.store a.contentKey a.payloadHash =
      cfg.store.has s.store a.contentKey a.payloadHash := by
    rcases h.store hh with ⟨he, -⟩ | ⟨f, ad, r, rfl, hc⟩
    · rw [he]
    · exact hst hc (hset ad (by simp [Event.settled]))
  have hmv : ∀ ad e, ev.moved = some (ad, e) → ad ∈ nodes roots tr := fun ad e hm => by
    rcases h.places tr with ⟨hm', -, -⟩ | ⟨ad', e', st, st', rest, hm', -, he, -⟩
    · rw [hm] at hm'; cases hm'
    · rw [hm] at hm'; cases hm'; exact hL.node_of_place (p := (ad, st)) (by simp [he])
  rcases h.mem_work ha with hw | hadd
  · by_cases hadm : history a.contentKey roots tr = [.admitted]
    · rcases h.places tr with ⟨hm, -, -⟩ | ⟨ad, e, st, st', rest, hm, hmov, he, -⟩
      · rw [history_other hL' (hL.work_node hw) (by simp [hm])] at hne
        exact absurd hadm hne
      · by_cases hk : ad.contentKey = a.contentKey
        · have had : ad = a :=
            List.inj_on_of_nodup_map hL.nodup (hmv ad e hm) (hL.work_node hw) hk
          subst had
          have hst' := hl.life (ad, st) (by simp [he])
          rw [hadm] at hst'
          cases life_admit hst'
          cases hmov with
          | resume =>
            cases Event.moved_resume hm
            exact absurd rfl (hset ad (by simp [Event.settled]))
          | submit f =>
            cases Event.moved_submit hm
            rw [hkeep]; exact h.submit_inv.1
        · rw [history_other hL' (hL.work_node hw) fun ad' e' hm' => by
            rw [hm] at hm'; cases hm'; exact hk] at hne
          exact absurd hadm hne
    · rw [hkeep]; exact hl.missed hs a hw hadm
  · exact absurd (hl.child hL' hadd hmv) hne

theorem Lives.step (hst : cfg.store.Frame) (hw : s.Wf cfg) (hL : Ledger roots tr s)
    (hl : Lives cfg.store roots tr s) (h : Step cfg w s ev s') :
    Lives cfg.store roots (tr ++ [ev]) s' := by
  have hL' := hL.step hw h
  refine ⟨hl.life_step hL hL' h ?_, fun k hk => ?_, fun hh a => hl.missed_step hst hL hL' h hh⟩
  · rintro ad rfl
    obtain ⟨hloc, had, hhit⟩ := h.resume_inv
    by_contra hne
    have hs : s.Healthy := hw.healthy (by rw [hloc]; exact id) (by rw [hloc]; exact id)
    rw [hl.missed hs ad had hne] at hhit; cases hhit
  · rw [nodes_snoc] at hk
    rw [history_snoc, hl.absent k fun a ha => hk a (List.mem_append_left _ ha), List.nil_append]
    refine Event.on_other (fun ad e hm => ?_) fun a ha => hk a (List.mem_append_right _ ha)
    rcases h.places tr with ⟨hm', -, -⟩ | ⟨ad', e', st, st', rest, hm', -, he, -⟩
    · rw [hm] at hm'; cases hm'
    · rw [hm] at hm'; cases hm'
      exact hk _ (List.mem_append_left _ (hL.node_of_place (p := (ad, st)) (by simp [he])))

theorem Lives.run {w₀ : Hooks P K H E} {items : List (CheckpointItem P)} {st : σ}
    (hst : cfg.store.Frame) (hb : begin w₀ items st = .ok s₀) (hr : Lts.Run (cfg.step W) s₀ tr s) :
    Lives cfg.store s₀.c.ready tr s := by
  obtain ⟨hw₀, hL₀⟩ := Ledger.run hb (.nil : Lts.Run (cfg.step W) s₀ [] s₀)
  have hadm : ∀ a ∈ s₀.c.ready, history a.contentKey s₀.c.ready ([] : List (Event P K H R E)) =
      [.admitted] := fun a ha => by
    simp only [history, if_pos (List.mem_map_of_mem ha)]; rfl
  refine (hr.inv (fun tr s => s.Wf cfg ∧ Ledger s₀.c.ready tr s ∧ Lives cfg.store s₀.c.ready tr s)
    ⟨hw₀, hL₀, ?_⟩ ?_).2.2
  · obtain ⟨-, -, h₀⟩ := begin_ok hb
    have hd : s₀.c.delayed = [] := by rw [h₀]
    have hi : s₀.c.inflight = [] := by rw [h₀]
    refine ⟨fun p hp => ?_, fun k hk => ?_, fun _ a ha hne => absurd (hadm a ?_) hne⟩
    · simp only [places, hd, hi, List.map_nil, List.flatMap_nil, Multiset.coe_nil, add_zero,
        Multiset.mem_coe] at hp
      obtain ⟨a, ha, rfl⟩ := List.mem_map.1 hp
      rw [hadm a ha]; exact ⟨[], rfl⟩
    · have : k ∉ s₀.c.ready.map (·.contentKey) := by
        simpa [nodes] using hk
      simp [history, this]
    · simpa [Coord.work, hd, hi] using ha
  · rintro tr s ev s' - ⟨hw, hL, hl⟩ ⟨w, -, h⟩
    exact ⟨h.wf hw, hL.step hw h, hl.step hst hw hL h⟩

/-! ## From one stage on -/

/-- A step leaves an item where it stands, or moves it by a transition of its life. -/
theorem Ledger.place_step (hL : Ledger roots tr s) (hL' : Ledger roots (tr ++ [ev]) s')
    {ad : Admitted P K H} {st : Stage R E} (hp : (ad, st) ∈ places s.c tr)
    (h : Step cfg w s ev s') :
    (ev.on ad.contentKey = [] ∧ (ad, st) ∈ places s'.c (tr ++ [ev])) ∨
      ∃ e st', ev.moved = some (ad, e) ∧ ev.on ad.contentKey = [e] ∧ Moves st e st' ∧
        (ad, st') ∈ places s'.c (tr ++ [ev]) := by
  have hnode : ad ∈ nodes roots tr := hL.node_of_place hp
  have hnew : ∀ a ∈ ev.added, a.contentKey ≠ ad.contentKey := fun a ha => by
    have hnd := hL'.nodup
    rw [nodes_snoc, List.map_append, List.nodup_append] at hnd
    exact (hnd.2.2 _ (List.mem_map_of_mem hnode) _ (List.mem_map_of_mem ha)).symm
  rcases h.places tr with ⟨hm, -, he⟩ | ⟨a, e, st₁, st₂, rest, hm, hmv, he, he'⟩
  · exact Or.inl ⟨Event.on_other (by simp [hm]) hnew, he ▸ hp⟩
  · by_cases hk : a.contentKey = ad.contentKey
    · have hst : (a, st₁) = (ad, st) := Multiset.inj_on_of_nodup_map hL.nodup_places _
        (by simp [he]) _ hp hk
      cases hst
      refine Or.inr ⟨e, st₂, hm, ?_, hmv, by simp [he']⟩
      have hnk : ad.contentKey ∉ ev.added.map (·.contentKey) := by simpa using hnew
      simp [Event.on, hm, hnk]
    · refine Or.inl ⟨Event.on_other (fun a' e' hm' => ?_) hnew, ?_⟩
      · rw [hm] at hm'; cases hm'; exact hk
      · have hne : (ad, st) ≠ (a, st₁) := fun h => hk (congrArg (·.1.contentKey) h).symm
        rw [he, Multiset.mem_add, Multiset.mem_singleton] at hp
        simp [he', hp.resolve_left hne]

/-- Stages that the steps of the run do not leave are never left. -/
theorem stays {w₀ : Hooks P K H E} {items : List (CheckpointItem P)} {st₀ : σ}
    {s₁ : State σ P K H R E} {tr₁ tr₂ : List (Event P K H R E)} {ad : Admitted P K H}
    {st : Stage R E} {T : Stage R E → Prop} {Q : KeyEvent R E → Prop}
    (hb : begin w₀ items st₀ = .ok s₀) (h₁ : Lts.Run (cfg.step W) s₀ tr₁ s₁)
    (hp : (ad, st) ∈ places s₁.c tr₁) (hT : T st)
    (hstep : ∀ {w s s' ev e st st'}, w ∈ W → Step cfg w s ev s' → ev.moved = some (ad, e) →
      T st → Moves st e st' → T st' ∧ Q e)
    (h₂ : Lts.Run (cfg.step W) s₁ tr₂ s) : ∀ ev ∈ tr₂, ∀ e ∈ ev.on ad.contentKey, Q e := by
  refine (h₂.inv (fun tr s => (∃ st, T st ∧ (ad, st) ∈ places s.c (tr₁ ++ tr)) ∧
    ∀ ev ∈ tr, ∀ e ∈ ev.on ad.contentKey, Q e) ⟨⟨st, hT, by simpa using hp⟩, by simp⟩ ?_).2
  rintro tr s ev s' hr ⟨⟨st, hT, hp⟩, hQ⟩ ⟨w, hw, h⟩
  obtain ⟨hwf, hL⟩ := Ledger.run hb (h₁.append hr)
  have hL' := hL.step hwf h
  rw [← List.append_assoc]
  rcases hL.place_step hL' hp h with ⟨hon, hp'⟩ | ⟨e, st', hm, hon, hmv, hp'⟩
  · refine ⟨⟨st, hT, hp'⟩, fun ev' hev => ?_⟩
    rcases List.mem_append.1 hev with hev | hev
    · exact hQ ev' hev
    · rw [List.mem_singleton.1 hev, hon]; simp
  · obtain ⟨hT', hQe⟩ := hstep hw h hm hT hmv
    refine ⟨⟨st', hT', hp'⟩, fun ev' hev => ?_⟩
    rcases List.mem_append.1 hev with hev | hev
    · exact hQ ev' hev
    · rw [List.mem_singleton.1 hev, hon]; simpa using hQe

/-! ## The retry budget -/

theorem Step.requeue_inv {f : Future} {ad : Admitted P K H} {exc : E}
    (h : Step cfg w s (.requeue f ad exc) s') :
    w.isOom exc = .ok false ∧ NoSplit w.toHooks exc ad ∧ (∃ fs, s.loc = .collect (f :: fs)) ∧
      ((s.c.transientAttempts ad.contentKey + 1 : ℕ) : ℤ) < cfg.retry.maxAttempts ∧
      s'.c.transientAttempts = Function.update s.c.transientAttempts ad.contentKey
        (s.c.transientAttempts ad.contentKey + 1) := by
  generalize hev : Event.requeue f ad exc = ev at h
  cases h with
  | requeue _ _ hr hs =>
    cases hev
    obtain ⟨ho, hn, -, hbud, _, _, _, -, -, -, rfl⟩ := requeue_spec hr hs
    exact ⟨ho, hn, ⟨_, rfl⟩, hbud, rfl⟩
  | _ => cases hev

/-- Only a requeue counts as an attempt. -/
theorem Step.attempts (h : Step cfg w s ev s') (hh : s'.Healthy)
    (hev : ∀ f ad exc, ev ≠ .requeue f ad exc) :
    s'.c.transientAttempts = s.c.transientAttempts := by
  rw [State.healthy_iff] at hh
  cases h with
  | requeue => exact absurd rfl (hev _ _ _)
  | split _ _ hr hs =>
    obtain ⟨ads, -, -, -, -, rfl⟩ := split_spec hr hs
    rfl
  | fatal => simp at hh
  | routeRaises => exact absurd trivial hh.2
  | _ => rfl

theorem Event.on_requeues (k : K) (hev : ∀ f ad exc, ev ≠ .requeue f ad exc) :
    (ev.on k).countP KeyEvent.isRequeue = 0 := by
  rw [List.countP_eq_zero]
  intro e he
  rcases List.mem_append.1 he with he | he
  · cases ev with
    | requeue => exact absurd rfl (hev _ _ _)
    | storeRaises fut =>
      cases fut <;> simp [Event.moved] at he
      rw [he.2]; simp [KeyEvent.isRequeue]
    | abort fut =>
      cases fut <;> simp [Event.moved] at he
      rw [he.2]; simp [KeyEvent.isRequeue]
    | tau | overlong => simp [Event.moved] at he
    | _ => simp [Event.moved] at he; rw [he.2]; simp [KeyEvent.isRequeue]
  · split at he
    · rw [List.mem_singleton.1 he]; simp [KeyEvent.isRequeue]
    · simp at he

/-- The requeues of a key, as counted in `transient_attempts`, are within budget. -/
structure Budget (cfg : Config σ K H R E) (k : K) (roots : List (Admitted P K H))
    (tr : List (Event P K H R E)) (s : State σ P K H R E) : Prop where
  bound : (history k roots tr).countP KeyEvent.isRequeue = 0 ∨
    ((history k roots tr).countP KeyEvent.isRequeue : ℤ) < cfg.retry.maxAttempts
  counted : s.Healthy → s.c.transientAttempts k = (history k roots tr).countP KeyEvent.isRequeue

theorem Budget.step {k : K} (hw : s.Wf cfg) (hB : Budget cfg k roots tr s)
    (h : Step cfg w s ev s') : Budget cfg k roots (tr ++ [ev]) s' := by
  by_cases hev : ∃ f ad exc, ev = .requeue f ad exc
  · obtain ⟨f, ad, exc, rfl⟩ := hev
    obtain ⟨-, -, ⟨fs, hloc⟩, hbud, ht⟩ := h.requeue_inv
    have hs : s.Healthy := hw.healthy (by rw [hloc]; exact id) (by rw [hloc]; exact id)
    by_cases hk : ad.contentKey = k
    · subst hk
      have hn : (history ad.contentKey roots (tr ++ [.requeue f ad exc])).countP
          KeyEvent.isRequeue = s.c.transientAttempts ad.contentKey + 1 := by
        rw [history_snoc, List.countP_append, hB.counted hs]
        simp [Event.on, Event.moved, Event.added, KeyEvent.isRequeue]
      refine ⟨Or.inr (by rw [hn]; exact hbud), fun _ => ?_⟩
      rw [hn, ht, Function.update_self]
    · have hn : history k roots (tr ++ [.requeue f ad exc]) = history k roots tr := by
        rw [history_snoc]; simp [Event.on, Event.moved, Event.added, hk]
      refine ⟨by rw [hn]; exact hB.bound, fun _ => ?_⟩
      rw [hn, ht, Function.update_of_ne (Ne.symm hk), hB.counted hs]
  · push Not at hev
    have hn : (history k roots (tr ++ [ev])).countP KeyEvent.isRequeue =
        (history k roots tr).countP KeyEvent.isRequeue := by
      rw [history_snoc, List.countP_append, Event.on_requeues k hev, add_zero]
    refine ⟨by rw [hn]; exact hB.bound, fun hh => ?_⟩
    rw [hn, h.attempts hh hev, hB.counted (h.healthy_back hh).1]

theorem Budget.run {w₀ : Hooks P K H E} {items : List (CheckpointItem P)} {st : σ} (k : K)
    (hb : begin w₀ items st = .ok s₀) (hr : Lts.Run (cfg.step W) s₀ tr s) :
    Budget cfg k s₀.c.ready tr s := by
  have h₀ : (history k s₀.c.ready ([] : List (Event P K H R E))).countP
      KeyEvent.isRequeue = 0 := by
    unfold history; split <;> rfl
  refine hr.inv (Budget cfg k s₀.c.ready) ⟨Or.inl h₀, fun _ => ?_⟩ ?_
  · obtain ⟨-, -, hs⟩ := begin_ok hb
    rw [h₀, hs]
  · rintro tr s ev s' hr' hB ⟨w, -, h⟩
    exact hB.step (Ledger.run hb hr').1 h

/-! ## The whole run -/

omit [DecidableEq K] in
theorem mem_places_settled {c : Coord P K H R E} {a : Admitted P K H}
    (ha : a ∈ tr.flatMap Event.settled) : (a, .settled) ∈ places c tr := by
  refine Multiset.mem_add.2 (Or.inr (Multiset.mem_coe.2 ?_))
  obtain ⟨ev, hev, ha⟩ := List.mem_flatMap.1 ha
  refine List.mem_flatMap.2 ⟨ev, hev, ?_⟩
  cases ev with
  | resume | commit => rw [List.mem_singleton.1 ha]; exact List.mem_singleton_self _
  | _ => cases ha

omit [DecidableEq K] in
theorem mem_places_split {c : Coord P K H R E} {a : Admitted P K H}
    (ha : a ∈ tr.flatMap Event.parents) : (a, .split) ∈ places c tr := by
  refine Multiset.mem_add.2 (Or.inr (Multiset.mem_coe.2 ?_))
  obtain ⟨f, exc, cs, h⟩ := mem_parents.1 ha
  exact List.mem_flatMap.2 ⟨_, h, List.mem_singleton_self _⟩

/-- The stages an item can reach once its execution raised an exception that
    asks for a split. -/
def Stage.unretried (f : Future) (exc : E) : Stage R E → Prop
  | .ended f' (.error exc') => f' = f ∧ exc' = exc
  | .split | .failed => True
  | _ => False

theorem not_resubmitted {w₀ : Hooks P K H E} {items : List (CheckpointItem P)} {st : σ}
    {tr₁ tr₂ : List (Event P K H R E)} {f : Future} {ad : Admitted P K H} {exc : E}
    (hb : begin w₀ items st = .ok s₀)
    (hr : Lts.Run (cfg.step W) s₀ (tr₁ ++ .finish f ad (.error exc) :: tr₂) s)
    (hexc : ∀ w ∈ W, w.isOom exc = .ok true ∨ ∃ policy, WantsSplit w.toHooks exc ad policy) :
    ∀ ev ∈ tr₂, ∀ e ∈ ev.on ad.contentKey, e.isSubmit = false := by
  rw [List.append_cons] at hr
  obtain ⟨s₁, h₁, h₂⟩ := hr.split
  obtain ⟨s', -, w, -, hs⟩ := h₁.snoc_inv
  have hp : (ad, .ended f (.error exc)) ∈
      places s₁.c (tr₁ ++ [.finish f ad (.error exc)]) := by
    rcases hs.places tr₁ with ⟨hm, -⟩ | ⟨a, e, st₁, st₂, rest, hm, hmv, -, he⟩
    · cases hm
    · cases hm; cases hmv; simp [he]
  refine stays (T := Stage.unretried f exc) hb h₁ hp ⟨rfl, rfl⟩ ?_ h₂
  rintro w s s' ev e st st' hw hs hm hT hmv
  cases hmv with
  | requeue f' exc' =>
    obtain ⟨rfl, rfl⟩ := hT
    cases ev with
    | requeue f' a exc' =>
      cases hm
      obtain ⟨ho, hn, -⟩ := hs.requeue_inv
      rcases hexc w hw with h | ⟨policy, hp, hws⟩
      · rw [ho] at h; cases h
      · rw [hn policy hp] at hws; cases hws
    | storeRaises fut => cases fut <;> cases hm
    | abort fut => cases fut <;> cases hm
    | _ => cases hm
  | split | fail => exact ⟨trivial, rfl⟩
  | _ => exact hT.elim

end

section
variable [LinearOrder K] {cfg : Config σ K H R E} {W : Set (World P K H E)}

/-- **The life cycle of one key.** -/
theorem life_cycle {w₀ : Hooks P K H E} {items : List (CheckpointItem P)} {st : σ}
    {s₀ s : State σ P K H R E} {tr : List (Event P K H R E)} (hst : cfg.store.Frame)
    (hb : begin w₀ items st = .ok s₀) (hr : Lts.Run (cfg.step W) s₀ tr s) (k : K) :
    ((∀ a ∈ nodes s₀.c.ready tr, a.contentKey ≠ k) → history k s₀.c.ready tr = []) ∧
    ((∃ a ∈ nodes s₀.c.ready tr, a.contentKey = k) →
      (s.loc = .done → LifeCycle (history k s₀.c.ready tr)) ∧
      ∃ l last, history k s₀.c.ready tr = l ++ last ∧
        (last = [] ∨ ∃ f o l₁, l = l₁ ++ [.submit f, .finish f o] ∧ last = [.fail f]) ∧
        (R → ∃ l', LifeCycle (l ++ l'))) ∧
    (∀ tr₁ ad tr₂, tr = tr₁ ++ .resume ad :: tr₂ →
      ∃ s₁, Lts.Run (cfg.step W) s₀ tr₁ s₁ ∧
        cfg.store.has s₁.store ad.contentKey ad.payloadHash = .ok true) ∧
    ((history k s₀.c.ready tr).countP KeyEvent.isSubmit : ℤ) ≤ max 1 cfg.retry.maxAttempts ∧
    (history k s₀.c.ready tr).countP KeyEvent.isCommit ≤ 1 ∧
    (∀ tr₁ f ad exc children tr₂, tr = tr₁ ++ .split f ad exc children :: tr₂ →
      ad.contentKey = k → k ∉ s.c.terminalKeys ∧ ∀ ev ∈ tr₂, ev.on k = []) ∧
    ∀ tr₁ f ad exc tr₂, tr = tr₁ ++ .finish f ad (.error exc) :: tr₂ → ad.contentKey = k →
      (∀ w ∈ W, w.isOom exc = .ok true ∨ ∃ policy, WantsSplit w.toHooks exc ad policy) →
      ∀ ev ∈ tr₂, ∀ e ∈ ev.on k, e.isSubmit = false := by
  obtain ⟨-, hL⟩ := Ledger.run hb hr
  have hl := Lives.run hst hb hr
  have hB := Budget.run k hb hr
  have hplace : ∀ a ∈ nodes s₀.c.ready tr, ∃ st, (a, st) ∈ places s.c tr := fun a ha => by
    rw [← hL.balance.mem_iff, ← Multiset.mem_coe, ← Multiset.coe_add, ← places_fst] at ha
    obtain ⟨⟨a, st⟩, hp, rfl⟩ := Multiset.mem_map.1 ha
    exact ⟨st, hp⟩
  refine ⟨hl.absent k, ?_, ?_, ?_, ?_, ?_, ?_⟩
  · rintro ⟨a, ha, rfl⟩
    refine ⟨fun hd => ?_, ?_⟩
    · obtain ⟨-, -, -, -, hleaf⟩ := done_settled hb hr hd
      rw [← hL.balance.mem_iff, List.mem_append, hleaf] at ha
      rcases ha with ha | ha
      · exact Or.inl (hl.life _ (mem_places_settled ha))
      · exact Or.inr (hl.life _ (mem_places_split ha))
    · obtain ⟨st, hp⟩ := hplace a ha
      exact (hl.life _ hp).begins
  · rintro tr₁ ad tr₂ rfl
    rw [List.append_cons] at hr
    obtain ⟨s₂, h, -⟩ := hr.split
    obtain ⟨s₁, h₁, w, -, hs⟩ := h.snoc_inv
    exact ⟨s₁, h₁, hs.resume_inv.2.2⟩
  · have hsub : (history k s₀.c.ready tr).countP KeyEvent.isSubmit ≤
        (history k s₀.c.ready tr).countP KeyEvent.isRequeue + 1 := by
      by_cases hk : ∃ a ∈ nodes s₀.c.ready tr, a.contentKey = k
      · obtain ⟨a, ha, rfl⟩ := hk
        obtain ⟨st, hp⟩ := hplace a ha
        exact (hl.life _ hp).submits
      · push Not at hk
        rw [hl.absent k hk]; exact Nat.zero_le _
    have := hB.bound
    omega
  · by_cases hk : ∃ a ∈ nodes s₀.c.ready tr, a.contentKey = k
    · obtain ⟨a, ha, rfl⟩ := hk
      obtain ⟨st, hp⟩ := hplace a ha
      exact (hl.life _ hp).commits
    · push Not at hk
      rw [hl.absent k hk]; exact Nat.zero_le _
  · rintro tr₁ f ad exc children tr₂ rfl rfl
    refine ⟨split_not_terminal hb hr (mem_parents.2 ⟨f, exc, children, by simp⟩), fun ev hev => ?_⟩
    rw [List.append_cons] at hr
    obtain ⟨s₁, h₁, h₂⟩ := hr.split
    have hp : (ad, .split) ∈ places s₁.c (tr₁ ++ [.split f ad exc children]) :=
      mem_places_split (mem_parents.2 ⟨f, exc, children, by simp⟩)
    -- no transition leaves the stage of a split item
    have hnone := stays (T := (· = .split)) (Q := fun _ => False) hb h₁ hp rfl
      (by rintro w s s' ev e st st' - - - rfl hmv; cases hmv) h₂ ev hev
    exact List.eq_nil_iff_forall_not_mem.2 hnone
  · rintro tr₁ f ad exc tr₂ rfl rfl hexc
    exact not_resubmitted hb hr hexc

theorem memStore_frame : memStore.Frame := by
  rintro s k h k' h' r s' ⟨-, rfl⟩ hne
  have hk : (k == k') = false := by simpa using Ne.symm hne
  simp [memStore, List.lookup_cons, hk]

theorem life_cycle_sample :
    LifeCycle (history 12 sample.1.c.ready sample.2.1) ∧ 12 ∉ sample.2.2.c.terminalKeys := by
  obtain ⟨-, h, -, -, -, hs, -⟩ := life_cycle memStore_frame sample_run.1 sample_run.2 12
  exact ⟨(h ⟨⟨⟨[1, 2], {}⟩, 12, 2, 0⟩, by decide, rfl⟩).1 rfl, by decide⟩

end

end ResumableBatch
