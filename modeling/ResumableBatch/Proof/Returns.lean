/-
  A run that meets no failure can always be carried on until its loop is over.
-/
import Mathlib.Data.Set.Finite.Lattice
import ResumableBatch.Proof.Terminates

namespace ResumableBatch

variable {P K H R E σ : Type}

/-- What the position in the loop says about the calls in flight. -/
def State.LocOk (s : State σ P K H R E) : Prop :=
  match s.loc with
  | .wait => s.c.inflight ≠ []
  | .sleep => s.c.delayed ≠ []
  | .collect fs => fs.Nodup ∧ ∀ f ∈ fs, ∃ ad o, ⟨f, ad, .finished o⟩ ∈ s.c.inflight
  | _ => True

variable [DecidableEq K] {cfg : Config σ K H R E} {w : World P K H E} {W : Set (World P K H E)}
  {s s' s₀ : State σ P K H R E} {ev : Event P K H R E} {tr : List (Event P K H R E)}

/-! ## The batch of `wait` -/

theorem Step.locOk (h : Step cfg w s ev s') (hl : s.LocOk) : s'.LocOk := by
  -- the rest of the batch is still in flight
  have rest : ∀ {c : Coord P K H R E} {pre post f fs ad o},
      c.inflight = pre ++ ⟨f, ad, .finished o⟩ :: post →
      ((f :: fs).Nodup ∧ ∀ g ∈ f :: fs, ∃ ad o, ⟨g, ad, .finished o⟩ ∈ c.inflight) →
      fs.Nodup ∧ ∀ g ∈ fs, ∃ ad o, ⟨g, ad, .finished o⟩ ∈ pre ++ post := by
    intro c pre post f fs ad o hi hl
    rw [List.nodup_cons] at hl
    refine ⟨hl.1.2, fun g hg => ?_⟩
    obtain ⟨ad', o', hx⟩ := hl.2 g (List.mem_cons_of_mem _ hg)
    rw [hi, List.mem_append, List.mem_cons] at hx
    rcases hx with hx | hx | hx
    · exact ⟨ad', o', List.mem_append_left _ hx⟩
    · cases hx; exact absurd hg hl.1.1
    · exact ⟨ad', o', List.mem_append_right _ hx⟩
  cases h with
  | toWait _ hne => exact hne
  | toSleep _ _ hne => exact hne
  | woke done hnd hfin _ => exact ⟨hnd, hfin⟩
  | commit hi _ => exact rest hi hl
  | requeue hi _ hr hs =>
    obtain ⟨-, -, -, -, _, _, _, -, -, -, rfl⟩ := requeue_spec hr hs
    exact rest hi hl
  | split hi _ hr hs =>
    obtain ⟨ads, -, -, -, -, rfl⟩ := split_spec hr hs
    exact rest hi hl
  | @finish loc c st f pre post ad o _ hi =>
    cases loc with
    | wait => simp [State.LocOk]
    | sleep => exact hl
    | collect fs =>
      refine ⟨hl.1, fun g hg => ?_⟩
      obtain ⟨ad', o', hx⟩ := hl.2 g hg
      simp only [hi, List.mem_append, List.mem_cons] at hx ⊢
      rcases hx with hx | hx | hx
      · exact ⟨ad', o', Or.inl hx⟩
      · cases hx
      · exact ⟨ad', o', Or.inr (Or.inr hx)⟩
    | _ => trivial
  | _ => trivial

theorem State.LocOk.run {w₀ : Hooks P K H E} {items : List (CheckpointItem P)} {st : σ}
    (hb : begin w₀ items st = .ok s₀) (hr : Lts.Run (cfg.step W) s₀ tr s) : s.LocOk := by
  refine hr.inv (fun _ s => s.LocOk) ?_ ?_
  · obtain ⟨-, -, h⟩ := begin_ok hb
    rw [h]; trivial
  · rintro _ s ev s' - hl ⟨w, -, h⟩
    exact h.locOk hl

/-! ## The way on -/

/-- The loop is over, or after some idle steps an item moves or a call can end. -/
inductive Onward (cfg : Config σ K H R E) (w : World P K H E) : State σ P K H R E → Prop where
  | done {a} : a.loc = .done → Onward cfg w a
  | tau {a b} : Step cfg w a .tau b → Onward cfg w b → Onward cfg w a
  | move {a e b} : Step cfg w a e b → e.moves → Onward cfg w a
  | call {a} (x : Call P K H R E) : x ∈ a.c.inflight → x.state = .running → a.loc ≠ .dead →
      Onward cfg w a

theorem Onward.of_canMove (h : CanMove cfg w s) : Onward cfg w s := by
  obtain ⟨tr, s₁, ev, s₂, hr, htr, hs, hev⟩ := h
  have h₁ : Onward cfg w s₁ := .move hs hev
  clear hs
  induction hr with
  | nil => exact h₁
  | snoc _ hs ih =>
    refine ih (fun l hl => htr l (List.mem_append_left _ hl)) ?_
    cases htr _ (List.mem_append_right _ (List.mem_singleton_self _))
    exact .tau hs h₁

/-- The clock has reached all retries. -/
def Coord.Matured (c : Coord P K H R E) (now : ℚ) : Prop :=
  ∀ d ∈ c.delayed, d.readyAt.le (.fin now)

section
variable {c : Coord P K H R E} {st : σ} (hends : cfg.store.Ends)
include hends

theorem onward_head (hf : c.fatalExc = none) (hrun : ∀ x ∈ c.inflight, x.state ≠ .cancelled)
    (hlate : c.Matured w.monotonic) : Onward cfg w ⟨.head, c, st⟩ := by
  by_cases hb : c.busy
  · rcases progress hends hf hb hrun with h | ⟨hne, -⟩ | ⟨d, ds, hd, h⟩
    · exact .of_canMove (h w)
    · obtain ⟨x, xs, hi⟩ := List.exists_cons_of_ne_nil hne
      have hx : x ∈ c.inflight := by simp [hi]
      obtain ⟨f, ad, state⟩ := x
      cases state with
      | running => exact .call _ hx rfl (by simp)
      | finished o => exact .of_canMove (canMove_ended hends hf hx rfl)
      | cancelled => exact absurd rfl (hrun _ hx)
    · exact .of_canMove (h w (hlate d (by simp [hd])))
  · have hi : c.inflight = [] := by
      by_contra hne
      exact hb (Or.inr (Or.inr hne))
    refine .tau (.leave hb hf) (.tau (.left ?_) (.done rfl))
    simp [hi]

theorem onward_promote (hf : c.fatalExc = none) (hrun : ∀ x ∈ c.inflight, x.state ≠ .cancelled)
    (hlate : c.Matured w.monotonic) (now : ℚ) : Onward cfg w ⟨.pop now, c, st⟩ := by
  by_cases h : ∀ d ∈ c.delayed.head?, ¬ d.readyAt.le (.fin now)
  · exact .tau (.popped h) (onward_head hends hf hrun hlate)
  · push Not at h
    obtain ⟨d, hd, hle⟩ := h
    obtain ⟨ds, hds⟩ := List.head?_eq_some_iff.1 hd
    exact .move (.pop hds hle) trivial

/-- In every healthy state there is a way on, once the clock has reached all retries. -/
theorem onward (hw : s.Wf cfg) (hl : s.LocOk) (hh : s.Healthy)
    (hlate : s.c.Matured w.monotonic) : Onward cfg w s := by
  obtain ⟨loc, c, st⟩ := s
  have hf : c.fatalExc = none := hh.fatal
  have hrun : ∀ x ∈ c.inflight, x.state ≠ .cancelled := hw.uncancelled hh.loc
  have hhead : Onward cfg w ⟨.head, c, st⟩ := onward_head hends hf hrun hlate
  have hprom : Onward cfg w ⟨.promote, c, st⟩ :=
    .tau .promote (onward_promote hends hf hrun hlate _)
  -- waiting for a call in flight
  have hwait : c.inflight ≠ [] → Onward cfg w ⟨.wait, c, st⟩ := by
    intro hne
    obtain ⟨⟨f, ad, state⟩, xs, hi⟩ := List.exists_cons_of_ne_nil hne
    have hx : ⟨f, ad, state⟩ ∈ c.inflight := by simp [hi]
    cases state with
    | running => exact .call _ hx rfl (by simp)
    | cancelled => exact absurd rfl (hrun _ hx)
    | finished o =>
      refine .tau (.woke [f] (by simp) ?_ (by simp)) (.of_canMove (canMove_collect hends [] hx rfl))
      intro g hg
      rw [List.mem_singleton.1 hg]; exact ⟨ad, o, hx⟩
  -- waiting for a retry, which the clock has reached
  have hsleep : c.delayed ≠ [] → Onward cfg w ⟨.sleep, c, st⟩ := by
    intro hne
    obtain ⟨d, ds, hd⟩ := List.exists_cons_of_ne_nil hne
    exact .tau (.slept hd (not_overlong (hlate d (by simp [hd])) _)) hprom
  cases loc with
  | head => exact hhead
  | dispatch =>
    by_cases hd : c.ready ≠ [] ∧ c.inflight.length < cfg.maxWorkers
    · exact .of_canMove (canMove_dispatch hd.1 hd.2)
    · have hd' : c.ready = [] ∨ cfg.maxWorkers ≤ c.inflight.length := by
        rw [not_and_or, not_not, not_lt] at hd; exact hd
      by_cases hi : c.inflight = []
      · by_cases hdl : c.delayed = []
        · exact .tau (.toHead hd' hi hdl) hhead
        · exact .tau (.toSleep hd' hi hdl) (hsleep hdl)
      · exact .tau (.toWait hd' hi) (hwait hi)
  | wait => exact hwait hl
  | sleep => exact hsleep hl
  | collect fs =>
    cases fs with
    | nil => exact .tau .collected hprom
    | cons f fs =>
      obtain ⟨ad, o, hx⟩ := hl.2 f List.mem_cons_self
      exact .of_canMove (canMove_collect hends fs hx rfl)
  | promote => exact hprom
  | pop now => exact onward_promote hends hf hrun hlate now
  | shutdown exc =>
    cases exc with
    | some fault => exact absurd trivial hh.loc
    | none =>
      have hi : c.inflight = [] := by
        by_contra hne
        exact (hw.ended trivial).1 (Or.inr (Or.inr hne))
      exact .tau (.left (by simp [hi])) (.done rfl)
  | done => exact .done rfl
  | failed fault => exact absurd trivial hh.loc
  | dead => exact absurd trivial hh.loc

end

/-! ## Runs with a clock -/

section
variable {tr : List (World P K H E × Event P K H R E)}

theorem untimed (hr : Lts.Run cfg.timedStep s tr s') :
    Lts.Run (cfg.step Set.univ) s (tr.map Prod.snd) s' := by
  induction hr with
  | nil => exact .nil
  | snoc _ hs ih =>
    rw [List.map_append]
    exact ih.snoc ⟨_, trivial, hs⟩

/-- The worlds that answer in a run. -/
theorem untimed_in (hr : Lts.Run cfg.timedStep s tr s') (hW : ∀ l ∈ tr, l.1 ∈ W) :
    Lts.Run (cfg.step W) s (tr.map Prod.snd) s' := by
  induction hr with
  | nil => exact .nil
  | snoc _ hs ih =>
    rw [List.forall_mem_append] at hW
    rw [List.map_append]
    exact (ih hW.1).snoc ⟨_, hW.2 _ List.mem_cons_self, hs⟩

/-- A run in an unchanging world. -/
theorem timed {tr : List (Event P K H R E)} (hr : Lts.Run (cfg.step {w}) s tr s') :
    Lts.Run cfg.timedStep s (tr.map fun ev => (w, ev)) s' := by
  induction hr with
  | nil => exact .nil
  | snoc _ hs ih =>
    obtain ⟨_, rfl, hs⟩ := hs
    rw [List.map_append]
    exact ih.snoc hs

omit [DecidableEq K] in
/-- Some time is after all readings of the clock, and no retry is ready later. -/
theorem exists_late {c : Coord P K H R E} (tr : List (World P K H E × Event P K H R E))
    (hdel : ∀ d ∈ c.delayed, ∃ q, d.readyAt = .fin q) :
    ∃ t, (∀ l ∈ tr, l.1.monotonic ≤ t) ∧ ∀ now, t ≤ now → c.Matured now := by
  obtain ⟨t₁, h₁⟩ := (List.finite_toSet (tr.map (·.1.monotonic))).bddAbove
  obtain ⟨t₂, h₂⟩ : ∃ t, ∀ d ∈ c.delayed, ∀ q, d.readyAt = .fin q → q ≤ t := by
    choose! time htime using hdel
    obtain ⟨t, ht⟩ := (List.finite_toSet (c.delayed.map time)).bddAbove
    refine ⟨t, fun d hd q hq => ht (List.mem_map.2 ⟨d, hd, ?_⟩)⟩
    exact PyFloat.fin.inj ((htime d hd).symm.trans hq)
  refine ⟨max t₁ t₂, fun l hl => ?_, fun now hnow d hd => ?_⟩
  · exact (h₁ (List.mem_map_of_mem hl)).trans (le_max_left _ _)
  · obtain ⟨q, hq⟩ := hdel d hd
    simp only [hq, PyFloat.le, PyFloat.lt, Bool.not_eq_true', decide_eq_false_iff_not, not_lt]
    exact (h₂ d hd q hq).trans ((le_max_right _ _).trans hnow)

/-- **The run can return.**  It may be held to any condition `G` that the steps of the
    coordinator keep while the clock goes on, and that every call can end in. -/
theorem can_return (hends : cfg.store.Ends) (hclock : ∀ t, ∃ w ∈ W, t ≤ w.monotonic)
    {w₀ : Hooks P K H E} {items : List (CheckpointItem P)} {st₀ : σ}
    {G : List (World P K H E × Event P K H R E) → Prop} (hb : begin w₀ items st₀ = .ok s₀)
    (hG : ∀ {tr s}, Lts.Run cfg.timedStep s₀ tr s → G tr →
      s.Healthy ∧ ∀ d ∈ s.c.delayed, ∃ q, d.readyAt = .fin q)
    (hstep : ∀ {tr s l s'}, Lts.Run cfg.timedStep s₀ tr s → G tr → cfg.timedStep s l s' →
      l.1 ∈ W → (∀ l' ∈ tr, l'.1.monotonic ≤ l.1.monotonic) → l.2 = .tau ∨ l.2.moves →
      G (tr ++ [l]))
    (hend : ∀ {tr s x w}, Lts.Run cfg.timedStep s₀ tr s → G tr → x ∈ s.c.inflight → w ∈ W →
      (∀ l' ∈ tr, l'.1.monotonic ≤ w.monotonic) →
      ∃ o, G (tr ++ [(w, .finish x.fut x.ad o)]))
    (hr : Lts.Run cfg.timedStep s₀ tr s) (hg : G tr) :
    ∃ tr' s', Lts.Run cfg.timedStep s tr' s' ∧ G (tr ++ tr') ∧ s'.loc = .done := by
  obtain ⟨m, hm⟩ : ∃ m, s.measure cfg = m := ⟨_, rfl⟩
  induction m using lower_wf.induction generalizing tr s with
  | _ m ih =>
    -- a step that is not idle lowers the measure
    have lower : ∀ {tr s l s'}, Lts.Run cfg.timedStep s₀ tr s → s.measure cfg = m →
        cfg.timedStep s l s' → l.2 ≠ .tau → G (tr ++ [l]) →
        ∃ tr' s'', Lts.Run cfg.timedStep s tr' s'' ∧ G (tr ++ tr') ∧ s''.loc = .done := by
      intro tr s l s' hr hm hs hev hg
      have hlt := Reachable.lower ⟨w₀, items, st₀, s₀, _, hb, untimed hr⟩ ⟨_, trivial, hs⟩ hev
      obtain ⟨tr', s'', hr', hg', hd⟩ := ih _ (hm ▸ hlt) (hr.snoc hs) hg rfl
      exact ⟨l :: tr', s'', .cons hs hr', by simpa using hg', hd⟩
    obtain ⟨hh, hdel⟩ := hG hr hg
    -- a world whose clock has reached all retries
    obtain ⟨t, hbefore, hmature⟩ := exists_late tr hdel
    obtain ⟨w, hwW, hle⟩ := hclock t
    have hon := onward hends (Ledger.run hb (untimed hr)).1 (State.LocOk.run hb (untimed hr)) hh
      (hmature _ hle)
    replace hbefore : ∀ l ∈ tr, l.1.monotonic ≤ w.monotonic := fun l hl => (hbefore l hl).trans hle
    clear hh hdel hmature hle
    induction hon generalizing tr with
    | done hd => exact ⟨[], _, .nil, by simpa using hg, hd⟩
    | @tau a b hs _ ihs =>
      have hs' : cfg.timedStep a (w, .tau) b := hs
      have hbefore' : ∀ l ∈ tr ++ [(w, .tau)], l.1.monotonic ≤ w.monotonic :=
        List.forall_mem_append.2 ⟨hbefore, by simp⟩
      obtain ⟨tr', s', hr', hg', hd⟩ := ihs (hr.snoc hs')
        (hstep hr hg hs' hwW hbefore (Or.inl rfl)) (hs.measure_idle.trans hm) hbefore'
      exact ⟨(w, .tau) :: tr', s', .cons hs' hr', by simpa using hg', hd⟩
    | @move a e b hs hev =>
      have hs' : cfg.timedStep a (w, e) b := hs
      refine lower hr hm hs' ?_ (hstep hr hg hs' hwW hbefore (Or.inr hev))
      rintro rfl
      exact hev
    | @call s x hx hrun hdead =>
      obtain ⟨o, hg'⟩ := hend hr hg hx hwW hbefore
      obtain ⟨pre, post, hi⟩ := List.append_of_mem hx
      obtain ⟨f, ad, state⟩ := x
      simp only at hrun
      subst hrun
      have hs : cfg.timedStep s (w, .finish f ad o) _ := Step.finish o hdead hi
      exact lower hr hm hs (by simp) hg'

end

end ResumableBatch
