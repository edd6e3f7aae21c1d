/-
  The run accounting: the counters of a run that returns balance.
-/
import ResumableBatch.Proof.Stitch

namespace ResumableBatch

variable {P K H R E σ A O : Type}

namespace Event

/-- The item committed. -/
def committed : Event P K H R E → List (Admitted P K H)
  | commit _ ad _ => [ad]
  | _ => []

/-- By how many items a step changes the number of leaves. -/
def growth : Event P K H R E → ℤ
  | split _ _ _ children => children.length - 1
  | _ => 0

theorem growth_eq (ev : Event P K H R E) :
    ev.growth = (ev.added.length : ℤ) - ev.parents.length := by
  cases ev <;> simp [growth, added, parents]

theorem sum_growth (tr : List (Event P K H R E)) : (tr.map growth).sum =
    ((tr.flatMap added).length : ℤ) - (tr.flatMap parents).length := by
  induction tr with
  | nil => simp
  | cons ev tr ih =>
    simp only [List.map_cons, List.sum_cons, List.flatMap_cons, List.length_append, growth_eq, ih]
    omega

theorem committed_sublist (tr : List (Event P K H R E)) :
    (tr.flatMap committed).Sublist (tr.flatMap settled) := by
  induction tr with
  | nil => exact .refl _
  | cons ev tr ih =>
    simp only [List.flatMap_cons]
    refine List.Sublist.append ?_ ih
    cases ev with
    | commit => exact .refl _
    | _ => exact List.nil_sublist _

end Event

section
variable [DecidableEq K] {cfg : Config σ K H R E} {w : World P K H E} {s s' : State σ P K H R E}
  {ev : Event P K H R E} {tr : List (Event P K H R E)}

/-- The counters and the trace agree; calls in flight are attempts without an outcome yet. -/
structure Tally (tr : List (Event P K H R E)) (s : State σ P K H R E) : Prop where
  attempts : s.Healthy → s.c.attemptsTotal =
    s.c.committed + s.c.transientRetries + s.c.splits + s.c.inflight.length
  settled : s.c.committed + s.c.resumed = (tr.flatMap Event.settled).length
  committed : s.c.committed = (tr.flatMap Event.committed).length

/-- A call submitted is in flight until it is committed, requeued or split. -/
theorem Step.attempts_balance (h : Step cfg w s ev s') (hh : s'.Healthy) (ht : s.c.attemptsTotal =
      s.c.committed + s.c.transientRetries + s.c.splits + s.c.inflight.length) :
    s'.c.attemptsTotal =
      s'.c.committed + s'.c.transientRetries + s'.c.splits + s'.c.inflight.length := by
  rw [State.healthy_iff] at hh
  cases h with
  | requeue hi _ hr hs =>
    obtain ⟨-, -, -, -, _, _, _, -, -, -, rfl⟩ := requeue_spec hr hs
    simp only [hi, List.length_append, List.length_cons] at ht
    simp only [Coord.requeue_attemptsTotal, Coord.requeue_committed, Coord.requeue_transientRetries,
      Coord.requeue_splits, Coord.requeue_inflight, List.length_append]
    omega
  | split hi _ hr hs =>
    obtain ⟨ads, -, -, -, -, rfl⟩ := split_spec hr hs
    simp only [hi, List.length_append, List.length_cons] at ht
    simp only [Coord.splitInto_attemptsTotal, Coord.splitInto_committed,
      Coord.splitInto_transientRetries, Coord.splitInto_splits, Coord.splitInto_inflight,
      List.length_append]
    omega
  | commit hi _ =>
    simp only [hi, List.length_append, List.length_cons] at ht ⊢
    omega
  | submit =>
    simp only [List.length_append, List.length_singleton] at ht ⊢
    omega
  | finish o _ hi => simpa [hi] using ht
  | fatal => simp at hh
  | cancel _ hf => simp [Loc.failing] at hh
  | _ => first | exact ht | simp [Loc.failing] at hh

theorem Step.counts (h : Step cfg w s ev s') :
    s'.c.committed = s.c.committed + ev.committed.length ∧
      s'.c.committed + s'.c.resumed = s.c.committed + s.c.resumed + ev.settled.length := by
  cases h with
  | requeue hi _ hr hs =>
    obtain ⟨-, -, -, -, _, _, _, -, -, -, rfl⟩ := requeue_spec hr hs
    exact ⟨rfl, rfl⟩
  | split hi _ hr hs =>
    obtain ⟨ads, -, -, -, -, rfl⟩ := split_spec hr hs
    exact ⟨rfl, rfl⟩
  | fatal hi _ hr =>
    obtain ⟨m, t, rfl⟩ := routeException_some hr
    exact ⟨rfl, rfl⟩
  | routeRaises hi _ hr =>
    obtain ⟨m, t, rfl⟩ := routeException_error hr
    exact ⟨rfl, rfl⟩
  | commit =>
    refine ⟨rfl, ?_⟩
    simp only [Event.settled, List.length_singleton]
    omega
  | resume =>
    refine ⟨rfl, ?_⟩
    simp only [Event.settled, List.length_singleton]
    omega
  | _ => exact ⟨rfl, rfl⟩

theorem Tally.step (ht : Tally tr s) (h : Step cfg w s ev s') : Tally (tr ++ [ev]) s' := by
  obtain ⟨hc, hs⟩ := h.counts
  constructor
  · intro hh
    exact h.attempts_balance hh (ht.attempts (h.healthy_back hh).1)
  · rw [hs, ht.settled, List.flatMap_append, List.flatMap_singleton, List.length_append]
  · rw [hc, ht.committed, List.flatMap_append, List.flatMap_singleton, List.length_append]

theorem Tally.run {w₀ : Hooks P K H E} {W : Set (World P K H E)} {items : List (CheckpointItem P)}
    {st : σ} {s₀ : State σ P K H R E} (hb : begin w₀ items st = .ok s₀)
    (hr : Lts.Run (cfg.step W) s₀ tr s) : Tally tr s := by
  refine hr.inv Tally ?_ ?_
  · obtain ⟨-, -, h⟩ := begin_ok hb
    rw [h]
    constructor <;> simp
  · rintro tr s ev s' - ht ⟨w, -, h⟩
    exact ht.step h

end

section
variable [LinearOrder K] {cfg : Config σ K H R E} {w₀ : Hooks P K H E} {W : Set (World P K H E)}
  {items : List (CheckpointItem P)} {st : σ} {s₀ s : State σ P K H R E}
  {tr : List (Event P K H R E)}

/-- The leaves of a run that is over: the input plus what the splits added. -/
theorem terminal_card (hb : begin w₀ items st = .ok s₀) (hr : Lts.Run (cfg.step W) s₀ tr s)
    (hd : s.loc = .done) :
    s.c.terminalKeys.card = (tr.flatMap Event.settled).length ∧
      (s.c.terminalKeys.card : ℤ) = items.length + (tr.map Event.growth).sum := by
  obtain ⟨-, hL⟩ := Ledger.run hb hr
  obtain ⟨-, -, -, -, hleaf⟩ := done_settled hb hr hd
  have hcard : s.c.terminalKeys.card = (tr.flatMap Event.settled).length := by
    rw [hL.keys, List.toFinset_card_of_nodup hL.nodup_leaves, List.length_map, hleaf]
  have hroots : items.length = s₀.c.ready.length := (begin_ok hb).1.length_eq
  have hbal := hL.balance.length_eq
  rw [hleaf, nodes] at hbal
  simp only [List.length_append] at hbal
  refine ⟨hcard, ?_⟩
  rw [Event.sum_growth]
  omega

/-- **The accounting of a run that returns balances.** -/
theorem accounting_balances {mode : CombineMode R E A O} {res : CheckpointResult O}
    (hb : begin w₀ items st = .ok s₀) (hr : Lts.Run (cfg.step W) s₀ tr s)
    (hout : outcome cfg mode s = some (.ok res)) :
    res.attempts = res.committedKeys + res.transientRetries + res.splits ∧
      res.committedKeys + res.resumedKeys = s.c.terminalKeys.card ∧
      (s.c.terminalKeys.card : ℤ) = items.length + (tr.map Event.growth).sum ∧
      res.committedKeys =
        ((tr.flatMap Event.committed).map (·.contentKey)).toFinset.card := by
  obtain ⟨hd, frame, rfl⟩ := outcome_ok hout
  obtain ⟨hh, -, -, hi, hleaf⟩ := done_settled hb hr hd
  obtain ⟨hcard, hsum⟩ := terminal_card hb hr hd
  have ht := Tally.run hb hr
  have hatt := ht.attempts hh
  have hnd : ((tr.flatMap Event.committed).map (·.contentKey)).Nodup := by
    have hnd := (Ledger.run hb hr).2.nodup_leaves
    rw [hleaf] at hnd
    exact hnd.sublist ((Event.committed_sublist tr).map _)
  rw [hi, List.length_nil, Nat.add_zero] at hatt
  refine ⟨hatt, ?_, hsum, ?_⟩
  · rw [ht.settled, hcard]
  · rw [List.toFinset_card_of_nodup hnd, List.length_map, ht.committed]

end

/-- One split in two, one half resumed and one committed. -/
theorem accounting_balances_sample :
    ∃ res : CheckpointResult ℕ, res.attempts = res.committedKeys + res.transientRetries + res.splits ∧
      res.committedKeys + res.resumedKeys = sample.2.2.c.terminalKeys.card := by
  obtain ⟨res, hout⟩ := outcome_returns (A := Unit) (.combine fun rs => .ok rs.sum) memStore_keeps
    trivial sample_run.1 sample_run.2 (fun _ _ _ _ => trivial) rfl fun rs => ⟨rs.sum, rfl⟩
  obtain ⟨h₁, h₂, -⟩ := accounting_balances sample_run.1 sample_run.2 hout
  exact ⟨res, h₁, h₂⟩

end ResumableBatch
