/-
  The coordinator cannot run forever, and does not get stuck.

  Each item carries a weight: the split levels it may still open, the transient
  failures its key may still meet, and how far it is from the end of its next
  execution.  A step replaces one item by items of lower weight, or takes the
  run out of the healthy states.
-/
import Mathlib.Data.Prod.Lex
import Mathlib.Data.Set.Finite.Basic
import Mathlib.Logic.Hydra
import ResumableBatch.Proof.Stitch

namespace ResumableBatch

open Relation

variable {P K H R E σ : Type}

/-! ## Weights -/

abbrev Weight := ℕ ×ₗ ℕ ×ₗ ℕ

/-- The weight of an item whose key has met `n` transient failures. -/
def weight (cfg : Config σ K H R E) (depth n phase : ℕ) : Weight :=
  toLex (cfg.maxSplitDepth.toNat - depth, toLex (cfg.retry.maxAttempts.toNat - n, phase))

/-- An ended call is ahead of one that still runs. -/
def Call.phase (x : Call P K H R E) : ℕ :=
  match x.state with
  | .finished _ => 0
  | _ => 1

/-- The items with their distance from the end of their next execution. -/
def Coord.phases (c : Coord P K H R E) : Multiset (Admitted P K H × ℕ) :=
  Multiset.ofList (c.ready.map (·, 2)) + Multiset.ofList (c.delayed.map fun d => (d.ad, 3)) +
    Multiset.ofList (c.inflight.map fun x => (x.ad, x.phase))

def weigh (cfg : Config σ K H R E) (attempts : K → ℕ) (p : Admitted P K H × ℕ) : Weight :=
  weight cfg p.1.depth (attempts p.1.contentKey) p.2

def Coord.weights (cfg : Config σ K H R E) (c : Coord P K H R E) : Multiset Weight :=
  c.phases.map (weigh cfg c.transientAttempts)

open Classical in
/-- Healthy states come before the others. -/
noncomputable def State.rank (s : State σ P K H R E) : ℕ := if s.Healthy then 1 else 0

noncomputable def State.measure (cfg : Config σ K H R E) (s : State σ P K H R E) :
    ℕ × Multiset Weight :=
  (s.rank, s.c.weights cfg)

/-- The order in which every step that is not idle goes down. -/
def Lower : ℕ × Multiset Weight → ℕ × Multiset Weight → Prop :=
  Prod.Lex (· < ·) (CutExpand (· < ·))

theorem lower_wf : WellFounded Lower := WellFounded.prod_lex wellFounded_lt wellFounded_lt.cutExpand

theorem weight_phase (cfg : Config σ K H R E) (depth n : ℕ) {p p' : ℕ} (h : p' < p) :
    weight cfg depth n p' < weight cfg depth n p :=
  Prod.Lex.right _ (Prod.Lex.right _ h)

theorem weight_retry (cfg : Config σ K H R E) (depth : ℕ) {n : ℕ} (p p' : ℕ)
    (h : ((n + 1 : ℕ) : ℤ) < cfg.retry.maxAttempts) :
    weight cfg depth (n + 1) p' < weight cfg depth n p :=
  Prod.Lex.right _ (Prod.Lex.left _ _ (by omega))

theorem weight_split (cfg : Config σ K H R E) {depth : ℕ} (n n' p p' : ℕ)
    (h : (depth : ℤ) + 1 ≤ cfg.maxSplitDepth) :
    weight cfg (depth + 1) n' p' < weight cfg depth n p :=
  Prod.Lex.left _ _ (by omega)

theorem State.rank_congr {s s' : State σ P K H R E} (h : s'.Healthy ↔ s.Healthy) :
    s'.rank = s.rank := by
  by_cases hs : s.Healthy <;> simp [State.rank, h, hs]

theorem State.rank_lt {s s' : State σ P K H R E} (h : s.Healthy) (h' : ¬ s'.Healthy) :
    s'.rank < s.rank := by
  simp [State.rank, h, h']

/-! ## Every step goes down -/

theorem Coord.cancel_phases (c : Coord P K H R E) (fs : List Future) :
    (c.cancel fs).phases = c.phases := by
  have h : (c.cancel fs).inflight.map (fun x => (x.ad, x.phase)) =
      c.inflight.map (fun x => (x.ad, x.phase)) := by
    simp only [Coord.cancel, List.map_map]
    refine List.map_congr_left fun x _ => ?_
    obtain ⟨f, ad, state⟩ := x
    cases state <;> simp only [Function.comp]
    split <;> rfl
  simp only [Coord.phases, h]; rfl

/-- An item replaced by items of lower weight. -/
theorem cut_of_phases {cfg : Config σ K H R E} {t : K → ℕ} {X Y A : Multiset (Admitted P K H × ℕ)}
    {p : Admitted P K H × ℕ} (h : Y + {p} = X + A) (hA : ∀ q ∈ A, weigh cfg t q < weigh cfg t p) :
    CutExpand (· < ·) (Y.map (weigh cfg t)) (X.map (weigh cfg t)) := by
  refine ⟨A.map (weigh cfg t), weigh cfg t p, fun v hv => ?_, ?_⟩
  · obtain ⟨q, hq, rfl⟩ := Multiset.mem_map.1 hv
    exact hA q hq
  · rw [← Multiset.map_singleton, ← Multiset.map_add, h, Multiset.map_add]

theorem phases_take {c : Coord P K H R E} {pre post : List (Call P K H R E)}
    {x : Call P K H R E} (hi : c.inflight = pre ++ x :: post) :
    Coord.phases { c with inflight := pre ++ post } + {(x.ad, x.phase)} = c.phases := by
  simp only [Coord.phases, hi, List.map_append, List.map_cons, ← Multiset.coe_add,
    ← Multiset.cons_coe, ← Multiset.singleton_add]
  abel

theorem phases_fst (c : Coord P K H R E) :
    c.phases.map (·.1) = (c.work : Multiset (Admitted P K H)) := by
  simp only [Coord.phases, Coord.coe_work, Multiset.map_add, Multiset.map_coe, List.map_map,
    Function.comp_def, List.map_id']

section
variable [DecidableEq K] {cfg : Config σ K H R E} {w : World P K H E} {s s' : State σ P K H R E}
  {ev : Event P K H R E}

/-- A requeue spends one attempt of its own key. -/
theorem requeue_weights {c : Coord P K H R E} {pre post : List (Call P K H R E)}
    {x : Call P K H R E} {readyAt : PyFloat} (hi : c.inflight = pre ++ x :: post)
    (hnd : (c.work.map (·.contentKey)).Nodup)
    (hbud : ((c.transientAttempts x.ad.contentKey + 1 : ℕ) : ℤ) < cfg.retry.maxAttempts) :
    CutExpand (· < ·)
      (Coord.weights cfg (Coord.requeue { c with inflight := pre ++ post } x.ad
        (c.transientAttempts x.ad.contentKey + 1) readyAt)) (c.weights cfg) := by
  generalize hrest : Coord.phases { c with inflight := pre ++ post } = rest
  have hc : c.phases = rest + {(x.ad, x.phase)} := by rw [← hrest]; exact (phases_take hi).symm
  have hother : ∀ q ∈ rest, q.1.contentKey ≠ x.ad.contentKey := by
    intro q hq he
    rw [← Multiset.coe_nodup, ← Multiset.map_coe, ← phases_fst, hc, Multiset.map_map,
      Multiset.map_add, Multiset.map_singleton, Multiset.nodup_add] at hnd
    exact Multiset.disjoint_left.1 hnd.2.2 (Multiset.mem_map.2 ⟨q, hq, he⟩) (by simp)
  have hq : Coord.phases (Coord.requeue { c with inflight := pre ++ post } x.ad
      (c.transientAttempts x.ad.contentKey + 1) readyAt) = rest + {(x.ad, 3)} := by
    simp only [← hrest, Coord.phases, Coord.requeue_ready, Coord.requeue_delayed,
      Coord.requeue_inflight, coe_map_heappush]
    abel
  generalize ht : Function.update c.transientAttempts x.ad.contentKey
    (c.transientAttempts x.ad.contentKey + 1) = t
  have hw : rest.map (weigh cfg t) = rest.map (weigh cfg c.transientAttempts) :=
    Multiset.map_congr rfl fun q hq => by
      simp only [weigh, ← ht, Function.update_of_ne (hother q hq)]
  show CutExpand _ ((Coord.phases _).map (weigh cfg (Function.update c.transientAttempts
    x.ad.contentKey (c.transientAttempts x.ad.contentKey + 1)))) _
  rw [ht, Coord.weights, hq, hc, Multiset.map_add, Multiset.map_add, hw, Multiset.map_singleton,
    Multiset.map_singleton]
  refine cutExpand_add_single _ ?_
  simp only [weigh, ← ht, Function.update_self]
  exact weight_retry cfg _ _ _ hbud

theorem Step.measure_idle (h : Step cfg w s .tau s') : s'.measure cfg = s.measure cfg := by
  generalize hev : Event.tau = ev at h
  have hm : ∀ {s s' : State σ P K H R E}, (s'.Healthy ↔ s.Healthy) →
      s'.c.weights cfg = s.c.weights cfg → s'.measure cfg = s.measure cfg := fun hh hc => by
    simp only [State.measure, State.rank_congr hh, hc]
  cases h with
  | cancel fs hf =>
    refine hm (by simp [State.healthy_iff, Coord.cancel, hf]) ?_
    simp only [Coord.weights, Coord.cancel_phases]; rfl
  | failed => exact hm (by simp [State.healthy_iff, Loc.failing]) rfl
  | _ => first
    | cases hev; done
    | exact hm (by simp [State.healthy_iff, Loc.failing]) rfl

/-- A step that takes one item out, or puts items of lower weight in its place. -/
theorem Step.weights (hw : s.Wf cfg) (hnd : (s.c.work.map (·.contentKey)).Nodup)
    (h : Step cfg w s ev s') (hev : ev ≠ .tau) (hh : s.Healthy → s'.Healthy) :
    CutExpand (· < ·) (s'.c.weights cfg) (s.c.weights cfg) := by
  have hloc : ¬ s.loc.leaving → ¬ s.loc.failing → s'.Healthy := fun hl hf =>
    hh (hw.healthy hl hf)
  rw [State.healthy_iff] at hloc
  cases h with
  | @resume _ _ ad _ hr _ _ =>
    refine cut_of_phases (p := (ad, 2)) (A := 0) ?_ (by simp)
    simp only [Coord.phases, hr, List.map_cons, ← Multiset.cons_coe, ← Multiset.singleton_add]
    abel
  | @submit _ _ ad _ hr _ _ =>
    refine cut_of_phases (p := (ad, 2)) (A := {(ad, 1)}) ?_ ?_
    · simp only [Coord.phases, hr, List.map_cons, List.map_append, List.map_nil,
        ← Multiset.cons_coe, ← Multiset.coe_add, ← Multiset.singleton_add, Multiset.coe_nil,
        Call.phase]
      abel
    · rintro q hq
      rw [Multiset.mem_singleton.1 hq]; exact weight_phase cfg _ _ Nat.one_lt_two
  | @commit _ _ _ _ _ _ _ ad _ hi _ =>
    exact cut_of_phases (p := (ad, 0)) (A := 0) ((phases_take hi).trans (add_zero _).symm) (by simp)
  | @requeue _ _ _ f _ _ _ ad exc hi _ hr hs =>
    obtain ⟨-, -, -, hbud, _, _, _, -, -, -, rfl⟩ := requeue_spec hr hs
    exact requeue_weights (x := ⟨f, ad, .finished (.error exc)⟩) hi hnd hbud
  | @split _ _ _ _ _ _ _ ad _ hi _ hr hs =>
    obtain ⟨ads, -, ⟨policy, its, -, hsp, has⟩, -, -, rfl⟩ := split_spec hr hs
    refine cut_of_phases (p := (ad, 0)) (A := Multiset.ofList (ads.map (·, 2))) ?_ ?_
    · rw [← phases_take hi]
      simp only [Coord.phases, Coord.splitInto_ready, Coord.splitInto_delayed,
        Coord.splitInto_inflight, List.map_append, ← Multiset.coe_add, Call.phase]
      abel
    · intro q hq
      obtain ⟨a, ha, rfl⟩ := List.mem_map.1 (Multiset.mem_coe.1 hq)
      obtain ⟨it, -, hd⟩ := has.mem_right ha
      simp only [weigh, hd.depth]
      exact weight_split cfg _ _ _ _ hsp.depth
  | @pop _ _ _ d _ hd _ =>
    refine cut_of_phases (p := (d.ad, 3)) (A := {(d.ad, 2)}) ?_ ?_
    · simp only [Coord.phases, hd, List.map_cons, List.map_append, List.map_nil,
        ← Multiset.cons_coe, ← Multiset.coe_add, ← Multiset.singleton_add, Multiset.coe_nil]
      abel
    · rintro q hq
      rw [Multiset.mem_singleton.1 hq]; exact weight_phase cfg _ _ (Nat.lt_succ_self 2)
  | @finish _ _ _ _ _ _ ad o hd hi =>
    refine cut_of_phases (p := (ad, 1)) (A := {(ad, 0)}) ?_ ?_
    · simp only [Coord.phases, hi, List.map_cons, List.map_append, ← Multiset.cons_coe,
        ← Multiset.coe_add, ← Multiset.singleton_add, Call.phase]
      abel
    · rintro q hq
      rw [Multiset.mem_singleton.1 hq]; exact weight_phase cfg _ _ Nat.one_pos
  | _ => first
    | exact absurd rfl hev
    | simp [Loc.leaving, Loc.failing] at hloc

theorem Step.lower (hw : s.Wf cfg) (hnd : (s.c.work.map (·.contentKey)).Nodup)
    (h : Step cfg w s ev s') (hev : ev ≠ .tau) : Lower (s'.measure cfg) (s.measure cfg) := by
  by_cases hh : s.Healthy → s'.Healthy
  · rw [State.measure, State.measure, State.rank_congr ⟨fun h' => (h.healthy_back h').1, hh⟩]
    exact Prod.Lex.right _ (h.weights hw hnd hev hh)
  · push Not at hh
    exact Prod.Lex.left _ _ (State.rank_lt hh.1 hh.2)

end

/-! ## Progress -/

/-- A step of the coordinator that moves an item. -/
def Event.moves : Event P K H R E → Prop
  | .tau | .finish .. | .abort none .. | .overlong => False
  | _ => True

section
variable [DecidableEq K] {cfg : Config σ K H R E} {w : World P K H E} {s s' : State σ P K H R E}

/-- Left to itself in this world, the coordinator can move an item next. -/
def CanMove (cfg : Config σ K H R E) (w : World P K H E) (s : State σ P K H R E) : Prop :=
  ∃ tr s₁ ev s₂, Lts.Run (Step cfg w) s tr s₁ ∧ (∀ l ∈ tr, l = .tau) ∧ Step cfg w s₁ ev s₂ ∧
    ev.moves

theorem CanMove.of_step {ev : Event P K H R E} (h : Step cfg w s ev s') (hev : ev.moves) :
    CanMove cfg w s := ⟨[], s, ev, s', .nil, by simp, h, hev⟩

theorem CanMove.tau (h : Step cfg w s .tau s') (hc : CanMove cfg w s') : CanMove cfg w s := by
  obtain ⟨tr, s₁, ev, s₂, hr, htr, hs, hev⟩ := hc
  exact ⟨.tau :: tr, s₁, ev, s₂, .cons h hr, by simpa using htr, hs, hev⟩

/-- Every call of `commit` comes to an end. -/
def ResultStore.Ends (store : ResultStore σ K H R E) : Prop :=
  ∀ s k h r, ∃ e s', store.commit s k h r e s'

variable {c : Coord P K H R E} {st : σ}

/-- What is ready is not waited for. -/
theorem not_overlong {readyAt : PyFloat} {now : ℚ} (h : readyAt.le (.fin now))
    (bound : WithTop ℚ) : ¬ (timeLeft readyAt now).overlong bound := by
  have hzero : timeLeft readyAt now = .fin 0 := by
    unfold timeLeft
    cases readyAt with
    | fin q =>
      have hle : q ≤ now := by
        simpa only [PyFloat.le, PyFloat.lt, Bool.not_eq_true', decide_eq_false_iff_not,
          not_lt] using h
      simp [PyFloat.addTo, PyFloat.max, PyFloat.lt, hle.not_gt]
    | negInf => rfl
    | nan | posInf => simp [PyFloat.le, PyFloat.lt] at h
  simp [hzero, PyFloat.overlong]

theorem canMove_dispatch (hr : c.ready ≠ []) (hlt : c.inflight.length < cfg.maxWorkers) :
    CanMove cfg w ⟨.dispatch, c, st⟩ := by
  obtain ⟨ad, rest, hr⟩ := List.exists_cons_of_ne_nil hr
  cases hh : cfg.store.has st ad.contentKey ad.payloadHash with
  | error exc => exact .of_step (.hasRaises hr hlt hh) trivial
  | ok hit =>
    cases hit with
    | true => exact .of_step (.resume hr hlt hh) trivial
    | false => exact .of_step (.submit hr hlt hh) trivial

/-- An ended call in the batch moves its item. -/
theorem canMove_collect (hends : cfg.store.Ends) {x : Call P K H R E} {o : Except E R}
    (fs : List Future) (hx : x ∈ c.inflight) (ho : x.state = .finished o) :
    CanMove cfg w ⟨.collect (x.fut :: fs), c, st⟩ := by
  obtain ⟨pre, post, hi⟩ := List.append_of_mem hx
  obtain ⟨f, ad, state⟩ := x
  simp only at ho
  subst ho
  cases o with
  | ok r =>
    obtain ⟨e, st', hc⟩ := hends st ad.contentKey ad.payloadHash r
    cases e with
    | returned => exact .of_step (.commit hi hc) trivial
    | raised exc => exact .of_step (.commitRaises hi hc) trivial
    | died => exact .of_step (.commitDies hi hc) trivial
  | error exc =>
    by_cases hexc : cfg.isException exc
    · cases hr : routeException cfg w ad exc { c with inflight := pre ++ post } with
      | error fault c' => exact .of_step (.routeRaises hi hexc hr) trivial
      | ok o c' =>
        cases o with
        | some fault => exact .of_step (.fatal hi hexc hr) trivial
        | none =>
          by_cases hs : c'.splits = c.splits
          · exact .of_step (.requeue hi hexc hr hs) trivial
          · exact .of_step (.split hi hexc hr hs) trivial
    · exact .of_step (.notCaught hi hexc) trivial

theorem canMove_ended (hends : cfg.store.Ends) (hf : c.fatalExc = none) {x : Call P K H R E}
    {o : Except E R} (hx : x ∈ c.inflight) (ho : x.state = .finished o) :
    CanMove cfg w ⟨.head, c, st⟩ := by
  have hne : c.inflight ≠ [] := List.ne_nil_of_mem hx
  refine .tau (.enter (Or.inr (Or.inr hne)) hf) ?_
  by_cases hd : c.ready ≠ [] ∧ c.inflight.length < cfg.maxWorkers
  · exact canMove_dispatch hd.1 hd.2
  · have hd' : c.ready = [] ∨ cfg.maxWorkers ≤ c.inflight.length := by
      rw [not_and_or, not_not, not_lt] at hd; exact hd
    refine .tau (.toWait hd' hne) (.tau (.woke [x.fut] (by simp) ?_ (by simp)) ?_)
    · intro f hf
      rw [List.mem_singleton.1 hf]
      exact ⟨x.ad, o, by rw [← ho]; exact hx⟩
    · exact canMove_collect hends [] hx ho

/-- The guard of the loop holds: an item can move now, once a call in flight
    has ended, or once the clock has reached the head of the heap. -/
theorem progress (hends : cfg.store.Ends) (hf : c.fatalExc = none) (hb : c.busy)
    (hrun : ∀ x ∈ c.inflight, x.state ≠ .cancelled) :
    (∀ w, CanMove cfg w ⟨.head, c, st⟩) ∨
      (c.inflight ≠ [] ∧ ∀ x ∈ c.inflight, ∀ o w, ∃ s',
        Step cfg w ⟨.head, c, st⟩ (.finish x.fut x.ad o) s' ∧ CanMove cfg w s') ∨
      ∃ d ds, c.delayed = d :: ds ∧
        ∀ w : World P K H E, d.readyAt.le (.fin w.monotonic) → CanMove cfg w ⟨.head, c, st⟩ := by
  by_cases hi : c.inflight = []
  · have hlt : c.inflight.length < cfg.maxWorkers := by
      rw [hi, Config.maxWorkers, List.length_nil]; omega
    by_cases hr : c.ready = []
    · have hd : c.delayed ≠ [] := by
        simpa [Coord.busy, hi, hr] using hb
      obtain ⟨d, ds, hd'⟩ := List.exists_cons_of_ne_nil hd
      refine Or.inr (Or.inr ⟨d, ds, hd', fun w hle => ?_⟩)
      refine .tau (.enter hb hf) (.tau (.toSleep (Or.inl hr) hi hd) (.tau (.slept hd' ?_)
        (.tau .promote ?_)))
      · exact not_overlong hle _
      exact .of_step (.pop hd' hle) trivial
    · exact Or.inl fun w => .tau (.enter hb hf) (canMove_dispatch hr hlt)
  · by_cases he : ∃ x ∈ c.inflight, ∃ o, x.state = .finished o
    · obtain ⟨x, hx, o, ho⟩ := he
      exact Or.inl fun w => canMove_ended hends hf hx ho
    · refine Or.inr (Or.inl ⟨hi, fun x hx o w => ?_⟩)
      obtain ⟨pre, post, hsplit⟩ := List.append_of_mem hx
      obtain ⟨f, ad, state⟩ := x
      cases state with
      | finished o' => exact absurd ⟨_, hx, o', rfl⟩ he
      | cancelled => exact absurd rfl (hrun _ hx)
      | running =>
        exact ⟨_, .finish o (by simp) hsplit, canMove_ended hends hf (o := o)
          (x := ⟨f, ad, .finished o⟩) (by simp) rfl⟩

end

/-! ## Termination -/

section
variable [DecidableEq K] {cfg : Config σ K H R E} {W : Set (World P K H E)}

/-- The states of the runs of `run_checkpointed`. -/
def Reachable (cfg : Config σ K H R E) (W : Set (World P K H E)) (s : State σ P K H R E) : Prop :=
  ∃ (w₀ : Hooks P K H E) (items : List (CheckpointItem P)) (st : σ) (s₀ : State σ P K H R E)
    (tr : List (Event P K H R E)),
    begin w₀ items st = .ok s₀ ∧ Lts.Run (cfg.step W) s₀ tr s

theorem Reachable.step {s s' : State σ P K H R E} {ev : Event P K H R E} (hs : Reachable cfg W s)
    (h : cfg.step W s ev s') : Reachable cfg W s' := by
  obtain ⟨w₀, items, st, s₀, tr, hb, hr⟩ := hs
  exact ⟨w₀, items, st, s₀, tr ++ [ev], hb, hr.snoc h⟩

theorem Reachable.lower {s s' : State σ P K H R E} {ev : Event P K H R E} (hs : Reachable cfg W s)
    (h : cfg.step W s ev s') (hev : ev ≠ .tau) : Lower (s'.measure cfg) (s.measure cfg) := by
  obtain ⟨w₀, items, st, s₀, tr, hb, hr⟩ := hs
  obtain ⟨hw, hL⟩ := Ledger.run hb hr
  obtain ⟨w, -, h⟩ := h
  refine h.lower hw ?_ hev
  have hnd := hL.nodup_leaves
  rw [leaves, List.append_assoc, List.map_append] at hnd
  exact hnd.of_append_left

theorem Reachable.measure_idle {s s' : State σ P K H R E} {ev : Event P K H R E}
    (_ : Reachable cfg W s) (h : cfg.step W s ev s') (hev : ev = .tau) :
    s'.measure cfg = s.measure cfg := by
  obtain ⟨w, -, h⟩ := h
  subst hev; exact h.measure_idle

/-- From some point on an infinite run only waits. -/
theorem Reachable.eventually_idle {s : ℕ → State σ P K H R E} {ev : ℕ → Event P K H R E}
    (h₀ : Reachable cfg W (s 0)) (hs : ∀ n, cfg.step W (s n) (ev n) (s (n + 1))) :
    ∃ N, ∀ n ≥ N, ev n = .tau :=
  @Lts.eventually_idle _ _ _ (cfg.step W) (· = Event.tau) (Reachable cfg W)
    Reachable.step (State.measure cfg) Reachable.measure_idle Lower lower_wf
      Reachable.lower s ev h₀ hs

/-- **The coordinator cannot run forever.** -/
theorem coordinator_terminates :
    (WellFounded fun s' s : State σ P K H R E =>
      Reachable cfg W s ∧ Lts.Advance (cfg.step W) (· = .tau) s s') ∧
    (∀ (s : ℕ → State σ P K H R E) (ev : ℕ → Event P K H R E), Reachable cfg W (s 0) →
      (∀ n, cfg.step W (s n) (ev n) (s (n + 1))) →
      (∃ N, ∀ n ≥ N, ev n = .tau) ∧ {n | ∃ f ad, ev n = .submit f ad}.Finite) ∧
    ∀ c st, Reachable cfg W ⟨.head, c, st⟩ → c.busy → c.fatalExc = none → cfg.store.Ends →
      (∀ w, CanMove cfg w ⟨.head, c, st⟩) ∨
      (c.inflight ≠ [] ∧ ∀ x ∈ c.inflight, ∀ o w, ∃ s',
        Step cfg w ⟨.head, c, st⟩ (.finish x.fut x.ad o) s' ∧ CanMove cfg w s') ∨
      ∃ d ds, c.delayed = d :: ds ∧
        ∀ w : World P K H E, d.readyAt.le (.fin w.monotonic) → CanMove cfg w ⟨.head, c, st⟩ := by
  refine ⟨?_, ?_, ?_⟩
  · exact Lts.wellFounded_advance (Reachable cfg W) Reachable.step (State.measure cfg)
      Reachable.measure_idle Lower lower_wf Reachable.lower
  · intro s ev h₀ hf
    have hN := h₀.eventually_idle hf
    refine ⟨hN, ?_⟩
    obtain ⟨N, hN⟩ := hN
    refine (Set.finite_lt_nat N).subset ?_
    rintro n ⟨f, ad, he⟩
    by_contra hn
    rw [hN n (not_lt.1 hn)] at he; cases he
  · intro c st hs hb hf hends
    obtain ⟨w₀, items, st₀, s₀, tr, hb₀, hr⟩ := hs
    exact progress hends hf hb ((Ledger.run hb₀ hr).1.uncancelled id)

theorem memStore_ends : memStore.Ends := fun _ _ _ _ => ⟨_, _, memCommit_spec ..⟩

theorem coordinator_terminates_sample : ∀ w, CanMove sampleConfig w sample.1 := by
  refine ((coordinator_terminates (W := {sampleWorld})).2.2 sample.1.c sample.1.store
    ⟨_, _, _, _, _, sample_run.1, .nil⟩ (Or.inl (by decide)) rfl memStore_ends).resolve_right ?_
  rintro (⟨h, -⟩ | ⟨d, ds, h, -⟩)
  · exact h rfl
  · cases h

end

end ResumableBatch
