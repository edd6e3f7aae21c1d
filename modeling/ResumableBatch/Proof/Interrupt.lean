/-
  What a run that fails leaves behind: which results are in the store when the
  exception leaves `run_checkpointed`, and what a later run does with them.
-/
import ResumableBatch.Proof.Lifecycle

namespace ResumableBatch

variable {P K H R E σ : Type}

namespace Event

/-- The call that meets the exception, if it is met on a call. -/
def failedCall : Event P K H R E → Option Future
  | fatal f _ _ _ | die f _ => some f
  | storeRaises fut _ _ | abort fut _ _ => fut
  | _ => none

/-- `store.has` or `store.commit` raises. -/
def isStoreRaises : Event P K H R E → Prop
  | storeRaises .. => True
  | _ => False

/-- A call to the store that does not return. -/
def storeFails : Event P K H R E → Prop
  | storeRaises .. | die .. => True
  | _ => False

end Event

/-! ## The calls of a run -/

/-- Every call in flight ended as the trace says; the committed ones left. -/
structure Traced (tr : List (Event P K H R E)) (c : Coord P K H R E) : Prop where
  submitted : ∀ x ∈ c.inflight, .submit x.fut x.ad ∈ tr
  ended : ∀ x ∈ c.inflight, ∀ o, x.state = .finished o → .finish x.fut x.ad o ∈ tr
  gone : ∀ f ad r, .commit f ad r ∈ tr → f < c.attemptsTotal ∧ ∀ x ∈ c.inflight, x.fut ≠ f

/-- Every result is committed, or still waits in flight. -/
def Kept (tr : List (Event P K H R E)) (c : Coord P K H R E) : Prop :=
  ∀ f ad r, .finish f ad (.ok r) ∈ tr →
    .commit f ad r ∈ tr ∨ ⟨f, ad, .finished (.ok r)⟩ ∈ c.inflight

section
variable [DecidableEq K] {cfg : Config σ K H R E} {w : World P K H E} {W : Set (World P K H E)}
  {s s' s₀ : State σ P K H R E} {ev : Event P K H R E} {tr : List (Event P K H R E)}

theorem Step.finish_inv {f : Future} {ad : Admitted P K H} {o : Except E R}
    (h : Step cfg w s (.finish f ad o) s') : ∃ pre post,
      s.c.inflight = pre ++ ⟨f, ad, .running⟩ :: post ∧
      s'.c.inflight = pre ++ ⟨f, ad, .finished o⟩ :: post := by
  generalize hev : Event.finish f ad o = ev at h
  cases h with
  | finish _ _ hi => cases hev; exact ⟨_, _, hi, rfl⟩
  | _ => cases hev

theorem Step.commit_inv {f : Future} {ad : Admitted P K H} {r : R}
    (h : Step cfg w s (.commit f ad r) s') : ∃ pre post,
      s.c.inflight = pre ++ ⟨f, ad, .finished (.ok r)⟩ :: post ∧
      s'.c.inflight = pre ++ post ∧
      cfg.store.commit s.store ad.contentKey ad.payloadHash r .returned s'.store := by
  generalize hev : Event.commit f ad r = ev at h
  cases h with
  | commit hi hc => cases hev; exact ⟨_, _, hi, rfl, hc⟩
  | _ => cases hev

theorem Step.not_dead (h : Step cfg w s ev s') : s.loc ≠ .dead := by
  cases h with
  | finish _ hl _ => exact hl
  | _ => simp

theorem Step.die_dead {f : Future} {ad : Admitted P K H} (h : Step cfg w s (.die f ad) s') :
    s'.loc = .dead := by
  generalize hev : Event.die f ad = ev at h
  cases h with
  | commitDies => rfl
  | _ => cases hev

/-- A call in flight after a step was there before, or the step put it there. -/
theorem Step.calls (h : Step cfg w s ev s') {x : Call P K H R E} (hx : x ∈ s'.c.inflight) :
    x ∈ s.c.inflight ∨ (ev = .submit x.fut x.ad ∧ x.state = .running) ∨
      (⟨x.fut, x.ad, .running⟩ ∈ s.c.inflight ∧
        ∀ o, x.state = .finished o → ev = .finish x.fut x.ad o) := by
  have back : ∀ {c : Coord P K H R E} {pre post y}, c.inflight = pre ++ y :: post →
      x ∈ pre ++ post → x ∈ c.inflight := by
    intro c pre post y hi hx
    rw [hi]; exact List.mem_append_cons_of_mem hx
  cases h with
  | submit =>
    rcases List.mem_append.1 hx with hx | hx
    · exact Or.inl hx
    · cases List.mem_singleton.1 hx; exact Or.inr (Or.inl ⟨rfl, rfl⟩)
  | @finish _ c _ f pre post ad o _ hi =>
    rcases List.mem_append.1 hx with hx | hx
    · exact Or.inl (by simp [hi, hx])
    rcases List.mem_cons.1 hx with rfl | hx
    · exact Or.inr (Or.inr ⟨by simp [hi], by rintro o ⟨⟩; rfl⟩)
    · exact Or.inl (by simp [hi, hx])
  | @cancel c _ _ fs _ =>
    obtain ⟨y, hy, rfl⟩ := List.mem_map.1 hx
    obtain ⟨f, ad, state⟩ := y
    cases state with
    | running =>
      by_cases hf : f ∈ fs
      · exact Or.inr (Or.inr ⟨by simpa [hf] using hy, by simp [hf]⟩)
      · exact Or.inl (by simpa [hf] using hy)
    | _ => exact Or.inl hy
  | commit hi _ => exact Or.inl (back hi hx)
  | commitRaises hi _ => exact Or.inl (back hi hx)
  | commitDies hi _ => exact Or.inl (back hi hx)
  | notCaught hi _ => exact Or.inl (back hi hx)
  | requeue hi _ hr hs =>
    obtain ⟨-, -, -, -, _, _, _, -, -, -, rfl⟩ := requeue_spec hr hs
    exact Or.inl (back hi hx)
  | split hi _ hr hs =>
    obtain ⟨ads, -, -, -, -, rfl⟩ := split_spec hr hs
    exact Or.inl (back hi hx)
  | fatal hi _ hr =>
    obtain ⟨m, t, rfl⟩ := routeException_some hr
    exact Or.inl (back hi hx)
  | routeRaises hi _ hr =>
    obtain ⟨m, t, rfl⟩ := routeException_error hr
    exact Or.inl (back hi hx)
  | _ => exact Or.inl hx

/-- A result in flight stays there until it is committed, unless the store fails. -/
theorem Step.result_kept (h : Step cfg w s ev s') (hev : ¬ ev.storeFails) {f : Future}
    {ad : Admitted P K H} {r : R} (hx : ⟨f, ad, .finished (.ok r)⟩ ∈ s.c.inflight) :
    ev = .commit f ad r ∨ ⟨f, ad, .finished (.ok r)⟩ ∈ s'.c.inflight := by
  have stay : ∀ {c : Coord P K H R E} {pre post y}, c.inflight = pre ++ y :: post →
      y.state ≠ .finished (.ok r) → ⟨f, ad, .finished (.ok r)⟩ ∈ c.inflight →
      ⟨f, ad, .finished (.ok r)⟩ ∈ pre ++ post := by
    intro c pre post y hi hne hx
    rw [hi, List.mem_append, List.mem_cons] at hx
    rw [List.mem_append]
    rcases hx with hx | rfl | hx
    · exact Or.inl hx
    · exact absurd rfl hne
    · exact Or.inr hx
  cases h with
  | submit => exact Or.inr (List.mem_append_left _ hx)
  | commit hi _ =>
    rw [hi, List.mem_append, List.mem_cons] at hx
    rcases hx with hx | hx | hx
    · exact Or.inr (List.mem_append_left _ hx)
    · cases hx; exact Or.inl rfl
    · exact Or.inr (List.mem_append_right _ hx)
  | commitRaises => exact absurd trivial hev
  | commitDies => exact absurd trivial hev
  | notCaught hi _ => exact Or.inr (stay hi (by simp) hx)
  | requeue hi _ hr hs =>
    obtain ⟨-, -, -, -, _, _, _, -, -, -, rfl⟩ := requeue_spec hr hs
    exact Or.inr (stay hi (by simp) hx)
  | split hi _ hr hs =>
    obtain ⟨ads, -, -, -, -, rfl⟩ := split_spec hr hs
    exact Or.inr (stay hi (by simp) hx)
  | fatal hi _ hr =>
    obtain ⟨m, t, rfl⟩ := routeException_some hr
    exact Or.inr (stay hi (by simp) hx)
  | routeRaises hi _ hr =>
    obtain ⟨m, t, rfl⟩ := routeException_error hr
    exact Or.inr (stay hi (by simp) hx)
  | cancel => exact Or.inr (List.mem_map.2 ⟨_, hx, rfl⟩)
  | finish o _ hi =>
    have := stay hi (by simp) hx
    simp only [List.mem_append, List.mem_cons] at this ⊢
    tauto
  | _ => exact Or.inr hx

theorem Traced.step (hw : s.Wf cfg) (hT : Traced tr s.c) (h : Step cfg w s ev s') :
    Traced (tr ++ [ev]) s'.c := by
  refine ⟨fun x hx => ?_, fun x hx o ho => ?_, fun f ad r hc => ?_⟩
  · rcases h.calls hx with hx | ⟨rfl, -⟩ | ⟨hrun, -⟩
    · exact List.mem_append_left _ (hT.submitted x hx)
    · exact List.mem_append_right _ (List.mem_singleton_self _)
    · have hsub := hT.submitted _ hrun
      exact List.mem_append_left _ hsub
  · rcases h.calls hx with hx | ⟨-, hs⟩ | ⟨-, he⟩
    · exact List.mem_append_left _ (hT.ended x hx o ho)
    · rw [hs] at ho; cases ho
    · rw [he o ho]; exact List.mem_append_right _ (List.mem_singleton_self _)
  · have hpool : ∀ x ∈ s'.c.inflight, (x.fut, x.ad) ∈ s'.c.pool := fun x hx =>
      List.mem_map.2 ⟨x, hx, rfl⟩
    rcases List.mem_append.1 hc with hc | hc
    · obtain ⟨hlt, hne⟩ := hT.gone f ad r hc
      have hold : ∀ p ∈ s.c.pool, p.1 ≠ f := by
        intro p hp
        obtain ⟨x, hx, rfl⟩ := List.mem_map.1 hp
        exact hne x hx
      rcases h.pool with ⟨ha, hsub⟩ | ⟨a, -, -, hp, ha⟩
      · exact ⟨ha ▸ hlt, fun x hx => hold _ (hsub.subset (hpool x hx))⟩
      · refine ⟨by omega, fun x hx => ?_⟩
        have := hpool x hx
        rw [hp, List.mem_append, List.mem_singleton] at this
        rcases this with this | this
        · exact hold _ this
        · rw [(Prod.mk.inj this).1]; exact hlt.ne'
    · cases List.mem_singleton.1 hc
      obtain ⟨pre, post, hi, hi', -⟩ := h.commit_inv
      have hmem : ⟨f, ad, .finished (.ok r)⟩ ∈ s.c.inflight := by simp [hi]
      refine ⟨?_, fun x hx he => ?_⟩
      · have hlt := hw.pool.submitted (f, ad) (List.mem_map_of_mem hmem)
        rcases h.pool with ⟨ha, -⟩ | ⟨a, he, -⟩
        · exact ha ▸ hlt
        · cases he
      · -- the futures in flight are distinct
        have hnd := hw.pool.futures
        rw [Coord.pool, List.map_map, hi, List.map_append, List.map_cons, List.nodup_middle,
          ← List.map_append, List.nodup_cons] at hnd
        rw [hi'] at hx
        exact hnd.1 (List.mem_map.2 ⟨x, hx, he⟩)

theorem Kept.step (hK : Kept tr s.c) (h : Step cfg w s ev s') (hev : ¬ ev.storeFails) :
    Kept (tr ++ [ev]) s'.c := by
  intro f ad r hf
  rcases List.mem_append.1 hf with hf | hf
  · rcases hK f ad r hf with hc | hx
    · exact Or.inl (List.mem_append_left _ hc)
    · refine (h.result_kept hev hx).imp_left fun he => ?_
      rw [he]; exact List.mem_append_right _ (List.mem_singleton_self _)
  · cases List.mem_singleton.1 hf
    obtain ⟨pre, post, -, hi⟩ := h.finish_inv
    exact Or.inr (by rw [hi]; simp)

variable {w₀ : Hooks P K H E} {items : List (CheckpointItem P)} {st : σ}

theorem Traced.run (hb : begin w₀ items st = .ok s₀) (hr : Lts.Run (cfg.step W) s₀ tr s) :
    Traced tr s.c := by
  refine hr.inv (fun tr s => Traced tr s.c) ?_ ?_
  · have hi : s₀.c.inflight = [] := by
      obtain ⟨-, -, h⟩ := begin_ok hb
      rw [h]
    exact ⟨by simp [hi], by simp [hi], by simp⟩
  · rintro tr s ev s' hr hT ⟨w, -, h⟩
    exact hT.step (Ledger.run hb hr).1 h

theorem Kept.run (hr : Lts.Run (cfg.step W) s₀ tr s) (hev : ∀ ev ∈ tr, ¬ ev.storeFails) :
    Kept tr s.c := by
  induction hr with
  | nil => intro f ad r h; cases h
  | snoc _ hs ih =>
    obtain ⟨w, -, h⟩ := hs
    exact (ih fun ev he => hev ev (List.mem_append_left _ he)).step h (hev _ (by simp))

/-! ## After the failure -/

/-- Once an exception is met, no item is submitted or committed, and no other is met. -/
theorem Step.unhealthy (hw : s.Wf cfg) (h : Step cfg w s ev s') (hs : ¬ s.Healthy) :
    ¬ ev.halts ∧ (∀ f ad, ev ≠ .submit f ad) ∧ ∀ f ad r, ev ≠ .commit f ad r := by
  have hloc : s.loc.leaving ∨ s.loc.failing := by
    by_contra hno
    rw [not_or] at hno
    exact hs (hw.healthy hno.1 hno.2)
  cases h with
  | enter | promote | pop | popped | leave | cancel | left | failed | finish => simp [Event.halts]
  | _ => simp [Loc.leaving, Loc.failing] at hloc

theorem Step.meets (h : Step cfg w s ev s') (hs : s.Healthy) (hs' : ¬ s'.Healthy) :
    ev.halts := by
  by_contra hl
  apply hs'
  rw [State.healthy_iff] at hs ⊢
  cases h with
  | requeue hi _ hr hq =>
    obtain ⟨-, -, -, -, _, _, _, -, -, -, rfl⟩ := requeue_spec hr hq
    exact ⟨hs.1, id⟩
  | split hi _ hr hq =>
    obtain ⟨ads, -, -, -, -, rfl⟩ := split_spec hr hq
    exact ⟨hs.1, id⟩
  | finish => exact hs
  | _ => simp_all [Loc.failing, Event.halts]

/-- The step on which the run fails: the call that failed has no result, and
    the others stay in flight. -/
theorem Step.fails (hw : s.Wf cfg) (h : Step cfg w s ev s') (hev : ev.halts)
    (hst : ¬ ev.storeFails) :
    (∀ f ad r, ev.failedCall = some f → ⟨f, ad, .finished (.ok r)⟩ ∉ s.c.inflight) ∧
      ∀ p ∈ s'.c.pool, p ∈ s.c.pool ∧ ev.failedCall ≠ some p.1 := by
  -- the call taken out of the pool is the only one under its future
  have take : ∀ {c : Coord P K H R E} {pre post f ad exc}, c.PoolOk cfg →
      c.inflight = pre ++ ⟨f, ad, .finished (.error exc)⟩ :: post →
      (∀ f' ad' r, some f = some f' → ⟨f', ad', .finished (.ok r)⟩ ∉ c.inflight) ∧
        ∀ p ∈ (pre ++ post).map (fun x : Call P K H R E => (x.fut, x.ad)),
          p ∈ c.pool ∧ some f ≠ some p.1 := by
    intro c pre post f ad exc hp hi
    constructor
    · rintro f' ad' r ⟨⟩ hx
      obtain ⟨pre', post', hi'⟩ := List.append_of_mem hx
      obtain ⟨-, h, -⟩ := hp.unique hi hi' rfl
      cases h
    · intro p hpm
      obtain ⟨x, hx, rfl⟩ := List.mem_map.1 hpm
      refine ⟨List.mem_map_of_mem (by rw [hi]; exact List.mem_append_cons_of_mem hx), ?_⟩
      rintro ⟨⟩
      have hnd := hp.futures
      rw [Coord.pool, List.map_map, hi, List.map_append, List.map_cons, List.nodup_middle,
        ← List.map_append, List.nodup_cons] at hnd
      exact hnd.1 (List.mem_map.2 ⟨x, hx, rfl⟩)
  have hpool := hw.pool
  cases h with
  | fatal hi _ hr =>
    obtain ⟨m, t, rfl⟩ := routeException_some hr
    exact take hpool hi
  | routeRaises hi _ hr =>
    obtain ⟨m, t, rfl⟩ := routeException_error hr
    exact take hpool hi
  | notCaught hi _ => exact take hpool hi
  | submitRaises | waitRaises | sleepRaises =>
    exact ⟨by rintro f ad r ⟨⟩, fun p hp => ⟨hp, by rintro ⟨⟩⟩⟩
  | hasRaises | commitRaises | commitDies => exact absurd trivial hst
  | _ => exact hev.elim

/-- Only a commit, or a failure of the store, changes it. -/
theorem Step.store_same (h : Step cfg w s ev s') (hc : ∀ f ad r, ev ≠ .commit f ad r)
    (hst : ¬ ev.storeFails) : s'.store = s.store := by
  cases h with
  | commit => exact absurd rfl (hc _ _ _)
  | commitRaises | commitDies => exact absurd trivial hst
  | _ => rfl

/-- After the failure the calls in flight only end; the store is left alone. -/
theorem drained (hb : begin w₀ items st = .ok s₀) {tr₁ tr₂ : List (Event P K H R E)}
    {s₁ : State σ P K H R E} (h₁ : Lts.Run (cfg.step W) s₀ tr₁ s₁) (hs₁ : ¬ s₁.Healthy)
    (h₂ : Lts.Run (cfg.step W) s₁ tr₂ s) (hst : ∀ ev ∈ tr₂, ¬ ev.storeFails) :
    ¬ s.Healthy ∧ s.store = s₁.store ∧ (∀ p ∈ s.c.pool, p ∈ s₁.c.pool) ∧
      (∀ ev ∈ tr₂, ¬ ev.halts ∧ ∀ f ad r, ev ≠ .commit f ad r) ∧
      ∀ f ad o, .finish f ad o ∈ tr₂ → (f, ad) ∈ s₁.c.pool := by
  induction h₂ with
  | nil => exact ⟨hs₁, rfl, fun _ h => h, by simp, by simp⟩
  | @snoc tr s ev s' hr hs ih =>
    obtain ⟨hn, he, hp, hl, hf⟩ := ih fun ev hev => hst ev (List.mem_append_left _ hev)
    obtain ⟨w, -, h⟩ := hs
    obtain ⟨hlost, hsub, hcom⟩ := h.unhealthy (Ledger.run hb (h₁.append hr)).1 hn
    refine ⟨fun hh => hn (h.healthy_back hh).1, ?_, fun p hpm => ?_, ?_, fun f ad o hfin => ?_⟩
    · rw [h.store_same hcom (hst ev (by simp)), he]
    · rcases h.pool with ⟨-, hsl⟩ | ⟨ad, he, -⟩
      · exact hp p (hsl.subset hpm)
      · exact absurd he (hsub _ _)
    · intro ev' hev
      rcases List.mem_append.1 hev with hev | hev
      · exact hl ev' hev
      · rw [List.mem_singleton.1 hev]; exact ⟨hlost, hcom⟩
    · rcases List.mem_append.1 hfin with hfin | hfin
      · exact hf f ad o hfin
      · cases List.mem_singleton.1 hfin
        obtain ⟨pre, post, hi, -⟩ := h.finish_inv
        have hmem : ⟨f, ad, .running⟩ ∈ s.c.inflight := by simp [hi]
        exact hp _ (List.mem_map_of_mem hmem)

/-! ## Results at the time of a failure -/

/-- Every result an execution returned is in the store. -/
def AllCommitted (tr : List (Event P K H R E)) : Prop :=
  ∀ f ad r, .finish f ad (.ok r) ∈ tr → .commit f ad r ∈ tr

/-- When the run meets the exception that ends it, no other call in flight has
    returned a result, and none returns one later. -/
def NoneElseReturns (cfg : Config σ K H R E) (W : Set (World P K H E)) (s₀ : State σ P K H R E)
    (tr : List (Event P K H R E)) : Prop :=
  ∀ tr₁ ev tr₂ s₁, tr = tr₁ ++ ev :: tr₂ → ev.halts → Lts.Run (cfg.step W) s₀ tr₁ s₁ →
    ∀ x ∈ s₁.c.inflight, ev.failedCall ≠ some x.fut →
      ∀ r, x.state ≠ .finished (.ok r) ∧ .finish x.fut x.ad (.ok r) ∉ tr₂

theorem allCommitted_of_none (hb : begin w₀ items st = .ok s₀)
    (hr : Lts.Run (cfg.step W) s₀ tr s) (hst : ∀ ev ∈ tr, ¬ ev.storeFails)
    (hend : s.loc = .done ∨ ∃ fault, s.loc = .failed fault)
    (hnone : ∀ tr₁ ev tr₂ s₁ s₂, tr = tr₁ ++ ev :: tr₂ → ev.halts → Lts.Run (cfg.step W) s₀ tr₁ s₁ →
      cfg.step W s₁ ev s₂ → ∀ x ∈ s₁.c.inflight, ev.failedCall ≠ some x.fut →
      ∀ r, x.state ≠ .finished (.ok r) ∧ .finish x.fut x.ad (.ok r) ∉ tr₂) : AllCommitted tr := by
  intro f ad r hf
  rcases hend with hd | ⟨fault, hd⟩
  · rcases Kept.run hr hst f ad r hf with hc | hx
    · exact hc
    · obtain ⟨hbusy, -⟩ := (Ledger.run hb hr).1.ended (by rw [hd]; trivial)
      exact absurd (Or.inr (Or.inr (List.ne_nil_of_mem hx))) hbusy
  · have hs₀ : ¬ ¬ s₀.Healthy := by
      obtain ⟨-, -, h⟩ := begin_ok hb
      rw [not_not, h]; exact ⟨rfl, id⟩
    have hs : ¬ s.Healthy := fun hh => hh.loc (by rw [hd]; trivial)
    obtain ⟨tr₁, ev, tr₂, s₁, s₂, rfl, h₁, hs₁, ⟨w, hw, h⟩, hs₂, h₂⟩ :=
      hr.enters (P := fun s => ¬ s.Healthy) hs₀ hs
    have hwf := (Ledger.run hb h₁).1
    have hmeets : ev.halts := h.meets (not_not.1 hs₁) hs₂
    obtain ⟨hno, hpool⟩ := h.fails hwf hmeets (hst ev (by simp))
    have none : ∀ x ∈ s₁.c.inflight, ev.failedCall ≠ some x.fut →
        ∀ r, x.state ≠ .finished (.ok r) ∧ .finish x.fut x.ad (.ok r) ∉ tr₂ :=
      hnone tr₁ ev tr₂ s₁ s₂ rfl hmeets h₁ ⟨w, hw, h⟩
    rcases List.mem_append.1 hf with hf₁ | hf₂
    · -- it had returned when the exception was met
      rcases Kept.run h₁ (fun ev hev => hst ev (List.mem_append_left _ hev)) f ad r hf₁ with hc | hx
      · exact List.mem_append_left _ hc
      · exact absurd rfl (none _ hx (fun he => hno f ad r he hx) r).1
    · -- it returns afterwards
      rcases List.mem_cons.1 hf₂ with rfl | hf₂
      · exact hmeets.elim
      · obtain ⟨-, -, -, -, hfin⟩ := drained hb (h₁.snoc ⟨w, hw, h⟩) hs₂ h₂
          fun ev hev => hst ev (by simp [hev])
        obtain ⟨hp, hne⟩ := hpool _ (hfin f ad _ hf₂)
        obtain ⟨x, hx, he⟩ := List.mem_map.1 hp
        cases he
        exact absurd hf₂ (none x hx hne r).2

theorem none_of_allCommitted (hb : begin w₀ items st = .ok s₀)
    (hr : Lts.Run (cfg.step W) s₀ tr s) (hst : ∀ ev ∈ tr, ¬ ev.storeFails)
    (hall : AllCommitted tr) : NoneElseReturns cfg W s₀ tr := by
  rintro tr₁ ev tr₂ s₁ rfl hmeets h₁ x hx hne r
  have hT := Traced.run hb h₁
  -- nothing is committed once the exception is met
  have hcom : .commit x.fut x.ad r ∉ tr₁ ++ ev :: tr₂ := by
    rw [List.append_cons] at hr
    obtain ⟨s', hr₁, hr₂⟩ := hr.split
    obtain ⟨s, hr₀, w, hw, h⟩ := hr₁.snoc_inv
    have hs' : ¬ s'.Healthy := fun hh => (h.healthy_back hh).2 hmeets
    obtain ⟨-, -, -, hno, -⟩ := drained hb hr₁ hs' hr₂ fun ev hev => hst ev (by simp [hev])
    intro hc
    rcases List.mem_append.1 hc with hc | hc
    · exact (hT.gone _ _ _ hc).2 x hx rfl
    rcases List.mem_cons.1 hc with rfl | hc
    · exact hmeets
    · exact (hno _ hc).2 _ _ _ rfl
  refine ⟨fun he => hcom (hall _ _ _ ?_), fun hf => hcom (hall _ _ _ ?_)⟩
  · exact List.mem_append_left _ (hT.ended x hx _ he)
  · exact List.mem_append_right _ (List.mem_cons_of_mem _ hf)

/-- With one worker nothing else is in flight, unless `wait` refuses its timeout. -/
theorem Step.alone (hp : s.c.PoolOk cfg) (hone : cfg.maxWorkers = 1) (h : Step cfg w s ev s')
    (hev : ev.halts) (hst : ¬ ev.storeFails) (hlong : ev ≠ .overlong) :
    ∀ x ∈ s.c.inflight, ev.failedCall = some x.fut := by
  have only : ∀ {c : Coord P K H R E} {pre post y}, c.PoolOk cfg → c.inflight = pre ++ y :: post →
      ∀ x ∈ c.inflight, some y.fut = some x.fut := by
    intro c pre post y hp hi x hx
    have hlen := hp.workers
    rw [Coord.pool, List.length_map, hone, hi, List.length_append, List.length_cons] at hlen
    obtain rfl : pre = [] := List.eq_nil_of_length_eq_zero (by omega)
    obtain rfl : post = [] := List.eq_nil_of_length_eq_zero (by omega)
    rw [hi, List.nil_append, List.mem_singleton] at hx
    rw [hx]
  cases h with
  | fatal hi _ _ => exact only hp hi
  | routeRaises hi _ _ => exact only hp hi
  | notCaught hi _ => exact only hp hi
  | submitRaises _ hlt _ =>
    rw [hone, Nat.lt_one_iff, List.length_eq_zero_iff] at hlt
    simp [hlt]
  | waitRaises | sleepRaises => exact absurd rfl hlong
  | hasRaises | commitRaises | commitDies => exact absurd trivial hst
  | _ => exact hev.elim

/-- So at concurrency 1 a failure drops no result. -/
theorem none_of_single (hone : cfg.maxWorkers = 1) (hb : begin w₀ items st = .ok s₀)
    (hr : Lts.Run (cfg.step W) s₀ tr s) (hst : ∀ ev ∈ tr, ¬ ev.storeFails)
    (hend : s.loc = .done ∨ ∃ fault, s.loc = .failed fault) (hlong : .overlong ∉ tr) :
    NoneElseReturns cfg W s₀ tr := by
  refine none_of_allCommitted hb hr hst (allCommitted_of_none hb hr hst hend ?_)
  rintro tr₁ ev tr₂ s₁ s₂ rfl hev h₁ ⟨w, -, h⟩ x hx hne
  refine absurd (h.alone (Ledger.run hb h₁).1.pool hone hev (hst ev (by simp)) ?_ x hx) hne
  rintro rfl
  exact hlong (by simp)

/-! ## The run that follows -/

section
variable {I : σ → Prop} {Q : K → H → R → Prop}

/-- An item that is a hit when a run starts is not executed in it. -/
theorem hit_not_submitted {k : K} {h : H} (hk : cfg.store.Holds I Q) (hI : I st)
    (hb : begin w₀ items st = .ok s₀) (hr : Lts.Run (cfg.step W) s₀ tr s) (hQ : Commits Q tr)
    (hhit : cfg.store.has st k h = .ok true) :
    ∀ f ad, .submit f ad ∈ tr → ad.contentKey = k → ad.payloadHash ≠ h := by
  refine (hr.inv (fun tr s => Commits Q tr → (∀ f ad, .submit f ad ∈ tr → ad.contentKey = k →
    ad.payloadHash ≠ h) ∧ (s.Healthy → (∃ a ∈ nodes s₀.c.ready tr, a.contentKey = k ∧
      a.payloadHash ≠ h) ∨ cfg.store.has s.store k h = .ok true))
    (fun _ => ⟨by simp, fun _ => ?_⟩) ?_ hQ).1
  · obtain ⟨-, -, h₀⟩ := begin_ok hb
    rw [h₀]; exact Or.inr hhit
  · rintro tr s ev s' hr ih ⟨w, -, hs⟩ hQ
    obtain ⟨hsub, hst⟩ := ih hQ.left
    obtain ⟨hw, hL⟩ := Ledger.run hb hr
    refine ⟨fun f ad hf hkey hhash => ?_, fun hh => ?_⟩
    · rcases List.mem_append.1 hf with hf | hf
      · exact hsub f ad hf hkey hhash
      · cases List.mem_singleton.1 hf
        obtain ⟨hmiss, hloc, hwork⟩ := hs.submit_inv
        have hhs : s.Healthy := hw.healthy (by rw [hloc]; exact id) (by rw [hloc]; exact id)
        rcases hst hhs with ⟨a, ha, hak, hah⟩ | hhit
        · have := List.inj_on_of_nodup_map hL.nodup ha (hL.work_node hwork) (hak.trans hkey.symm)
          exact hah (this ▸ hhash)
        · rw [hkey, hhash, hhit] at hmiss; cases hmiss
    · have hnodes : ∀ a ∈ nodes s₀.c.ready tr, a ∈ nodes s₀.c.ready (tr ++ [ev]) := by
        intro a ha
        rw [nodes_snoc]; exact List.mem_append_left _ ha
      rcases hst (hs.healthy_back hh).1 with ⟨a, ha, hak, hah⟩ | hhit
      · exact Or.inl ⟨a, hnodes a ha, hak, hah⟩
      · rcases hs.store hh with ⟨he, -⟩ | ⟨f, ad, r, rfl, hc⟩
        · rw [he]; exact Or.inr hhit
        · by_cases hkey : ad.contentKey = k
          · -- the key is committed under another hash
            obtain ⟨pre, post, hi, -, -⟩ := hs.commit_inv
            have hx : ⟨f, ad, .finished (.ok r)⟩ ∈ s.c.inflight := by simp [hi]
            have hwork : ad ∈ s.c.work :=
              List.mem_append_right _ (List.mem_map_of_mem (f := (·.ad)) hx)
            exact Or.inl ⟨ad, hnodes _ (hL.work_node hwork), hkey,
              hsub f ad ((Traced.run hb hr).submitted _ hx) hkey⟩
          · have hinv := hk.run hI hb hr hQ.left (hs.healthy_back hh).1
            exact Or.inr (hk.kept hinv hQ.last hhit hc hkey)

/-- What was committed is a hit when the run is over, and the invariant still holds. -/
theorem committed_hit (hk : cfg.store.Holds I Q) (hI : I st) (hb : begin w₀ items st = .ok s₀)
    (hr : Lts.Run (cfg.step W) s₀ tr s) (hQ : Commits Q tr) (hst : ∀ ev ∈ tr, ¬ ev.storeFails) :
    I s.store ∧ ∀ f ad r, .commit f ad r ∈ tr →
      cfg.store.has s.store ad.contentKey ad.payloadHash = .ok true := by
  have hset : ∀ {tr' : List (Event P K H R E)} {f ad r}, .commit f ad r ∈ tr' →
      ad ∈ tr'.flatMap Event.settled := fun h => List.mem_flatMap.2 ⟨_, h, by simp [Event.settled]⟩
  by_cases hs : s.Healthy
  · exact ⟨hk.run hI hb hr hQ hs, fun f ad r hc => settled_hits hk hI hb hr hQ hs (hset hc)⟩
  · have hs₀ : ¬ ¬ s₀.Healthy := by
      obtain ⟨-, -, h⟩ := begin_ok hb
      rw [not_not, h]; exact ⟨rfl, id⟩
    obtain ⟨tr₁, ev, tr₂, s₁, s₂, rfl, h₁, hs₁, ⟨w, hw, h⟩, hs₂, h₂⟩ :=
      hr.enters (P := fun s => ¬ s.Healthy) hs₀ hs
    have hmeets := h.meets (not_not.1 hs₁) hs₂
    obtain ⟨-, he, -, hno, -⟩ := drained hb (h₁.snoc ⟨w, hw, h⟩) hs₂ h₂
      fun ev hev => hst ev (by simp [hev])
    have hne : ∀ f ad r, ev ≠ .commit f ad r := by
      rintro f ad r rfl
      exact hmeets
    rw [he, h.store_same hne (hst ev (by simp))]
    refine ⟨hk.run hI hb h₁ hQ.left (not_not.1 hs₁), fun f ad r hc => ?_⟩
    have hc₁ : .commit f ad r ∈ tr₁ := by
      rcases List.mem_append.1 hc with hc | hc
      · exact hc
      rcases List.mem_cons.1 hc with hc | hc
      · exact absurd hc.symm (hne _ _ _)
      · exact absurd rfl ((hno _ hc).2 f ad r)
    exact settled_hits hk hI hb h₁ hQ.left (not_not.1 hs₁) (hset hc₁)

end

end

/-- **A fatal failure keeps the finished work exactly when nothing else finishes.**
    So it does with one worker; and no later run executes that work again. -/
theorem fatal_keeps_results [DecidableEq K] {cfg : Config σ K H R E} {w₀ : Hooks P K H E}
    {W : Set (World P K H E)} {items : List (CheckpointItem P)} {st : σ}
    {s₀ s : State σ P K H R E} {tr : List (Event P K H R E)}
    (hb : begin w₀ items st = .ok s₀) (hr : Lts.Run (cfg.step W) s₀ tr s)
    (hend : s.loc = .done ∨ ∃ fault, s.loc = .failed fault) (hst : ∀ ev ∈ tr, ¬ ev.isStoreRaises) :
    (AllCommitted tr ↔ NoneElseReturns cfg W s₀ tr) ∧
    (cfg.maxWorkers = 1 → .overlong ∉ tr → NoneElseReturns cfg W s₀ tr) ∧
    (∀ (I : σ → Prop) (Q : K → H → R → Prop), cfg.store.Holds I Q → I st → Commits Q tr →
      NoneElseReturns cfg W s₀ tr →
      ∀ (cfg' : Config σ K H R E) (w₁ : Hooks P K H E) (W' : Set (World P K H E))
        (items' : List (CheckpointItem P)) (s₁ s' : State σ P K H R E) (tr' : List (Event P K H R E)),
        cfg'.store = cfg.store → begin w₁ items' s.store = .ok s₁ →
        Lts.Run (cfg'.step W') s₁ tr' s' → Commits Q tr' →
        ∀ f ad r f' ad', .finish f ad (.ok r) ∈ tr → .submit f' ad' ∈ tr' →
          ad'.contentKey = ad.contentKey → ad'.payloadHash ≠ ad.payloadHash) := by
  have hfail : ∀ ev ∈ tr, ¬ ev.storeFails := fun ev hev hf => by
    cases ev with
    | storeRaises => exact hst _ hev trivial
    | die f ad =>
      -- no run goes on once the process is dead
      obtain ⟨tr₁, tr₂, a, b, -, -, ⟨w, -, h⟩, h₂⟩ := hr.step_of_mem hev
      have hdead : s.loc = .dead := h₂.inv (fun _ s => s.loc = .dead) h.die_dead fun _ hl hs => by
        obtain ⟨w, -, hs⟩ := hs
        exact (hs.not_dead hl).elim
      rcases hend with he | ⟨fault, he⟩ <;> rw [hdead] at he <;> cases he
    | _ => exact hf
  have hall : NoneElseReturns cfg W s₀ tr → AllCommitted tr := fun hnone =>
    allCommitted_of_none hb hr hfail hend fun tr₁ ev tr₂ s₁ s₂ htr hev h₁ _ =>
      hnone tr₁ ev tr₂ s₁ htr hev h₁
  refine ⟨⟨none_of_allCommitted hb hr hfail, hall⟩,
    fun hone => none_of_single hone hb hr hfail hend, ?_⟩
  intro I Q hk hI hQ hnone cfg' w₁ W' items' s₁ s' tr' hcfg hb' hr' hQ' f ad r f' ad' hf hs'
  obtain ⟨hI', hhit⟩ := committed_hit hk hI hb hr hQ hfail
  refine hit_not_submitted (hcfg ▸ hk) hI' hb' hr' hQ' ?_ f' ad' hs'
  rw [hcfg]; exact hhit f ad r (hall hnone f ad r hf)

/-! ### Two calls in one batch -/

/-- The sample world, where the exception `false` is fatal. -/
def fatalWorld : World (List ℕ) ℕ ℕ Bool := { sampleWorld with isTransient := fun _ => .ok false }

/-- The payload `1` fails, `2` returns, and `wait` hands both out in the order `batch`. -/
def fatalPlay (batch : List Future) (steps : ℕ) :=
  playFrom sampleConfig memCommit fatalWorld [⟨[1], {}⟩, ⟨[2], {}⟩] []
    ([.go, .go, .go, .go, .ends 0 (.error false), .ends 1 (.ok 20), .go batch] ++
      List.replicate steps .go)

theorem dropPlay_isSome : (fatalPlay [0, 1] 5).isSome := by decide

theorem keepPlay_isSome : (fatalPlay [1, 0] 6).isSome := by decide

/-- The fatal future comes first in the batch. -/
def dropping := (fatalPlay [0, 1] 5).get dropPlay_isSome

/-- The result comes first. -/
def keeping := (fatalPlay [1, 0] 6).get keepPlay_isSome

def fatalItem (d : ℕ) : Admitted (List ℕ) ℕ ℕ := ⟨⟨[d], {}⟩, d, 1, 0⟩

theorem dropping_trace : dropping.2.1 =
    [.tau, .submit 0 (fatalItem 1), .submit 1 (fatalItem 2), .tau,
      .finish 0 (fatalItem 1) (.error false), .finish 1 (fatalItem 2) (.ok 20), .tau,
      .fatal 0 (fatalItem 1) false (.raised false), .tau, .tau, .tau, .tau] := rfl

theorem keeping_trace : keeping.2.1 =
    [.tau, .submit 0 (fatalItem 1), .submit 1 (fatalItem 2), .tau,
      .finish 0 (fatalItem 1) (.error false), .finish 1 (fatalItem 2) (.ok 20), .tau,
      .commit 1 (fatalItem 2) 20, .fatal 0 (fatalItem 1) false (.raised false), .tau, .tau, .tau,
      .tau] := rfl

/-- The result beside the fatal failure is dropped, though no call to the store raised. -/
theorem finished_result_dropped :
    begin fatalWorld.toHooks [⟨[1], {}⟩, ⟨[2], {}⟩] [] = .ok dropping.1 ∧
      Lts.Run (sampleConfig.step {fatalWorld}) dropping.1 dropping.2.1 dropping.2.2 ∧
      dropping.2.2.loc = .failed (.raised false) ∧ (∀ ev ∈ dropping.2.1, ¬ ev.isStoreRaises) ∧
      ¬ AllCommitted dropping.2.1 := by
  obtain ⟨hb, hr⟩ := playFrom_sound memCommit_spec (Option.some_get dropPlay_isSome).symm
  refine ⟨hb, hr, rfl, ?_, fun h => ?_⟩
  · rw [dropping_trace]; simp [Event.isStoreRaises]
  · have hc := h 1 (fatalItem 2) 20 (by rw [dropping_trace]; simp)
    rw [dropping_trace] at hc
    simp at hc

theorem keeping_run : begin fatalWorld.toHooks [⟨[1], {}⟩, ⟨[2], {}⟩] [] = .ok keeping.1 ∧
    Lts.Run (sampleConfig.step {fatalWorld}) keeping.1 keeping.2.1 keeping.2.2 :=
  playFrom_sound memCommit_spec (Option.some_get keepPlay_isSome).symm

theorem fatal_keeps_results_sample :
    NoneElseReturns sampleConfig {fatalWorld} keeping.1 keeping.2.1 := by
  have hall : AllCommitted keeping.2.1 := by
    intro f ad r h
    rw [keeping_trace] at h ⊢
    simp at h ⊢
    tauto
  refine (fatal_keeps_results keeping_run.1 keeping_run.2 (Or.inr ⟨.raised false, rfl⟩) ?_).1.1 hall
  rw [keeping_trace]; simp [Event.isStoreRaises]

end ResumableBatch
