/-
  The ledger of a run: every node of the split forest is in a queue, settled,
  split, or the item the run fails on, and the target set is kept in step.
-/
import ResumableBatch.Lib.Lists
import ResumableBatch.Proof.Work

namespace ResumableBatch

variable {P K H R E σ : Type}

/-! ## Healthy states -/

/-- An exception is on its way out, or the process is dead. -/
def Loc.failing : Loc K H E → Prop
  | .shutdown (some _) | .failed _ | .dead => True
  | _ => False

/-- Where the coordinator can stand once `fatal_exc` is set. -/
def Loc.leaving : Loc K H E → Prop
  | .promote | .pop _ | .head | .shutdown (some _) | .failed _ => True
  | _ => False

/-- The loop is over without an exception. -/
def Loc.over : Loc K H E → Prop
  | .shutdown none | .done => True
  | _ => False

/-- No exception has been met. -/
@[mk_iff]
structure State.Healthy (s : State σ P K H R E) : Prop where
  fatal : s.c.fatalExc = none
  loc : ¬ s.loc.failing

/-- The pool holds no more calls than workers, under distinct futures. -/
structure Coord.PoolOk (cfg : Config σ K H R E) (c : Coord P K H R E) : Prop where
  workers : c.pool.length ≤ cfg.maxWorkers
  futures : (c.pool.map (·.1)).Nodup
  submitted : ∀ x ∈ c.pool, x.1 < c.attemptsTotal

/-- What the position in the loop says about the variables. -/
structure State.Wf (cfg : Config σ K H R E) (s : State σ P K H R E) : Prop where
  leaving : s.c.fatalExc ≠ none → s.loc.leaving
  ended : s.loc.over → ¬ s.c.busy ∧ s.c.fatalExc = none
  pool : s.c.PoolOk cfg
  uncancelled : ¬ s.loc.failing → ∀ x ∈ s.c.inflight, x.state ≠ .cancelled

theorem State.Wf.healthy {cfg : Config σ K H R E} {s : State σ P K H R E} (hw : s.Wf cfg)
    (hl : ¬ s.loc.leaving) (hf : ¬ s.loc.failing) : s.Healthy :=
  ⟨by_contra fun h => hl (hw.leaving h), hf⟩

/-- The target set is the same. -/
structure Coord.SameTargets (c c' : Coord P K H R E) : Prop where
  keys : c'.terminalKeys = c.terminalKeys
  hash : c'.terminalHash = c.terminalHash

/-- The call of a future is determined by the future. -/
theorem Coord.PoolOk.unique {cfg : Config σ K H R E} {c : Coord P K H R E} (hp : c.PoolOk cfg)
    {pre post pre' post' : List (Call P K H R E)} {x y : Call P K H R E}
    (hx : c.inflight = pre ++ x :: post) (hy : c.inflight = pre' ++ y :: post')
    (hf : x.fut = y.fut) : pre = pre' ∧ x = y ∧ post = post' := by
  have hnd := hp.futures
  rw [Coord.pool, List.map_map, hx] at hnd
  exact List.append_cons_unique hnd (hx.symm.trans hy) hf

variable [DecidableEq K]

section
variable {cfg : Config σ K H R E} {w : World P K H E} {s s' : State σ P K H R E}
  {ev : Event P K H R E}

theorem Step.healthy_back (h : Step cfg w s ev s') (hh : s'.Healthy) :
    s.Healthy ∧ ¬ ev.halts := by
  rw [State.healthy_iff] at hh ⊢
  cases h with
  | requeue hi _ hr hs =>
    obtain ⟨-, -, -, -, _, _, _, -, -, -, rfl⟩ := requeue_spec hr hs
    exact ⟨⟨hh.1, by simp [Loc.failing]⟩, id⟩
  | split hi _ hr hs =>
    obtain ⟨ads, -, -, -, -, rfl⟩ := split_spec hr hs
    exact ⟨⟨hh.1, by simp [Loc.failing]⟩, id⟩
  | finish => exact ⟨hh, id⟩
  | _ => simp_all [Loc.failing, Event.halts]

theorem Step.leaving (h : Step cfg w s ev s') (hs : s.c.fatalExc ≠ none → s.loc.leaving) :
    s'.c.fatalExc ≠ none → s'.loc.leaving := by
  cases h with
  | requeue hi _ hr hs' =>
    obtain ⟨-, -, -, -, _, _, _, -, -, -, rfl⟩ := requeue_spec hr hs'
    simp_all [Loc.leaving]
  | split hi _ hr hs' =>
    obtain ⟨ads, -, -, -, -, rfl⟩ := split_spec hr hs'
    simp_all [Loc.leaving]
  | _ => simp_all [Loc.leaving, Coord.cancel]

theorem Step.over (h : Step cfg w s ev s')
    (hs : s.loc.over → ¬ s.c.busy ∧ s.c.fatalExc = none) :
    s'.loc.over → ¬ s'.c.busy ∧ s'.c.fatalExc = none := by
  cases h with
  | finish o _ hi =>
    intro ho
    exact absurd (Or.inr (Or.inr (by simp [hi]))) (hs ho).1
  | leave hb hf => exact fun _ => ⟨hb, hf⟩
  | left => exact fun _ => hs trivial
  | _ => simp [Loc.over]

/-- What a step does to the pool: it submits one item, or adds none. -/
theorem Step.pool (h : Step cfg w s ev s') :
    (s'.c.attemptsTotal = s.c.attemptsTotal ∧ s'.c.pool.Sublist s.c.pool) ∨
      ∃ ad, ev = .submit s.c.attemptsTotal ad ∧ s.c.inflight.length < cfg.maxWorkers ∧
        s'.c.pool = s.c.pool ++ [(s.c.attemptsTotal, ad)] ∧
        s'.c.attemptsTotal = s.c.attemptsTotal + 1 := by
  have hsub : ∀ {c : Coord P K H R E} {pre post x}, c.inflight = pre ++ x :: post →
      ((pre ++ post).map fun x : Call P K H R E => (x.fut, x.ad)).Sublist c.pool := by
    intro c pre post x hi
    rw [Coord.pool, hi]
    exact (List.Sublist.append (.refl _) (List.sublist_cons_self ..)).map _
  cases h with
  | submit hr hlt hh => exact Or.inr ⟨_, rfl, hlt, by simp [Coord.pool], rfl⟩
  | commit hi _ => exact Or.inl ⟨rfl, hsub hi⟩
  | commitRaises hi _ => exact Or.inl ⟨rfl, hsub hi⟩
  | commitDies hi _ => exact Or.inl ⟨rfl, hsub hi⟩
  | notCaught hi _ => exact Or.inl ⟨rfl, hsub hi⟩
  | requeue hi _ hr hs =>
    obtain ⟨-, -, -, -, _, _, _, -, -, -, rfl⟩ := requeue_spec hr hs
    exact Or.inl ⟨rfl, hsub hi⟩
  | split hi _ hr hs =>
    obtain ⟨ads, -, -, -, -, rfl⟩ := split_spec hr hs
    exact Or.inl ⟨rfl, hsub hi⟩
  | fatal hi _ hr =>
    obtain ⟨m, t, rfl⟩ := routeException_some hr
    exact Or.inl ⟨rfl, hsub hi⟩
  | routeRaises hi _ hr =>
    obtain ⟨m, t, rfl⟩ := routeException_error hr
    exact Or.inl ⟨rfl, hsub hi⟩
  | finish o _ hi => exact Or.inl ⟨rfl, by simp [Coord.pool, hi]⟩
  | @cancel c _ _ fs _ => exact Or.inl ⟨rfl, by rw [Coord.cancel_pool]⟩
  | _ => exact Or.inl ⟨rfl, .refl _⟩

theorem Step.poolOk (h : Step cfg w s ev s') (hp : s.c.PoolOk cfg) : s'.c.PoolOk cfg := by
  obtain ⟨h₁, h₂, h₃⟩ := hp
  rcases h.pool with ⟨ha, hsub⟩ | ⟨ad, -, hlt, hp, ha⟩
  · exact ⟨hsub.length_le.trans h₁, h₂.sublist (hsub.map _),
      fun x hx => ha ▸ h₃ x (hsub.subset hx)⟩
  · refine ⟨?_, ?_, ?_⟩
    · rw [hp, List.length_append, List.length_singleton, Coord.pool, List.length_map]; exact hlt
    · rw [hp, List.map_append, List.nodup_append]
      refine ⟨h₂, by simp, fun f hf g hg => ?_⟩
      obtain ⟨x, hx, rfl⟩ := List.mem_map.1 hf
      rw [List.map_singleton, List.mem_singleton] at hg
      exact hg ▸ (h₃ x hx).ne
    · intro x hx
      rw [hp, List.mem_append, List.mem_singleton] at hx
      rw [ha]
      rcases hx with hx | rfl
      · exact (h₃ x hx).trans (Nat.lt_succ_self _)
      · exact Nat.lt_succ_self _

theorem Step.uncancelled (h : Step cfg w s ev s')
    (hs : ¬ s.loc.failing → ∀ x ∈ s.c.inflight, x.state ≠ .cancelled) :
    ¬ s'.loc.failing → ∀ x ∈ s'.c.inflight, x.state ≠ .cancelled := by
  cases h with
  | requeue hi _ hr hs' =>
    obtain ⟨-, -, -, -, _, _, _, -, -, -, rfl⟩ := requeue_spec hr hs'
    exact fun _ x hx => hs id x (by rw [hi]; exact List.mem_append_cons_of_mem hx)
  | split hi _ hr hs' =>
    obtain ⟨ads, -, -, -, -, rfl⟩ := split_spec hr hs'
    exact fun _ x hx => hs id x (by rw [hi]; exact List.mem_append_cons_of_mem hx)
  | fatal hi _ hr =>
    obtain ⟨m, t, rfl⟩ := routeException_some hr
    exact fun _ x hx => hs id x (by rw [hi]; exact List.mem_append_cons_of_mem hx)
  | commit hi => exact fun _ x hx => hs id x (by rw [hi]; exact List.mem_append_cons_of_mem hx)
  | submit =>
    intro _ x hx
    rcases List.mem_append.1 hx with hx | hx
    · exact hs id x hx
    · rw [List.mem_singleton.1 hx]; simp
  | @finish _ c _ f pre post ad o _ hi =>
    intro hl x hx
    rcases List.mem_append.1 hx with hx | hx
    · exact hs hl x (by rw [hi]; exact List.mem_append_left _ hx)
    rcases List.mem_cons.1 hx with rfl | hx
    · simp
    · exact hs hl x (by rw [hi]; exact List.mem_append_right _ (List.mem_cons_of_mem _ hx))
  | left => exact fun _ => hs id
  | _ => first
    | exact fun _ => hs id
    | exact fun hl => absurd trivial hl

theorem Step.wf (h : Step cfg w s ev s') (hs : s.Wf cfg) : s'.Wf cfg :=
  ⟨h.leaving hs.leaving, h.over hs.ended, h.poolOk hs.pool, h.uncancelled hs.uncancelled⟩

/-- The target set only changes in a split; short of a failure so does `live_map`. -/
theorem Step.targets (hw : s.Wf cfg) (h : Step cfg w s ev s') :
    (ev.parents = [] ∧ ev.added = [] ∧ s.c.SameTargets s'.c ∧
      (s'.Healthy → s'.c.liveMap = s.c.liveMap)) ∨
      ∃ f ad exc ads c, ev = .split f ad exc ads ∧ s.Healthy ∧ s'.Healthy ∧ ad ∈ s.c.work ∧
        s.c.SameTargets c ∧ c.liveMap = s.c.liveMap ∧
        SplitInto cfg w.toHooks exc ad ads c s'.c := by
  simp only [State.healthy_iff]
  cases h with
  | requeue hi _ hr hs =>
    obtain ⟨-, -, -, -, _, _, _, -, -, -, rfl⟩ := requeue_spec hr hs
    exact Or.inl ⟨rfl, rfl, ⟨rfl, rfl⟩, fun _ => rfl⟩
  | @split c _ _ _ _ _ _ _ _ hi _ hr hs =>
    obtain ⟨ads, hads, h⟩ := split_spec hr hs
    have hf : c.fatalExc = none := by
      by_contra hne; exact hw.leaving hne
    rw [hads]
    refine Or.inr ⟨_, _, _, _, _, rfl, ⟨hf, ?_⟩, ⟨?_, ?_⟩, ?_, ?_, ?_, h⟩
    · simp [Loc.failing]
    · simp [h.eq, hf]
    · simp [Loc.failing]
    · simp [Coord.work, hi]
    · exact ⟨rfl, rfl⟩
    · rfl
  | fatal hi _ hr =>
    obtain ⟨m, t, rfl⟩ := routeException_some hr
    exact Or.inl ⟨rfl, rfl, ⟨rfl, rfl⟩, fun hh => by simp at hh⟩
  | routeRaises hi _ hr =>
    obtain ⟨m, t, rfl⟩ := routeException_error hr
    exact Or.inl ⟨rfl, rfl, ⟨rfl, rfl⟩, fun hh => by simp [Loc.failing] at hh⟩
  | _ => exact Or.inl ⟨rfl, rfl, ⟨rfl, rfl⟩, fun _ => rfl⟩

end

/-! ## The ledger -/

/-- All nodes of the split forest. -/
def nodes (roots : List (Admitted P K H)) (tr : List (Event P K H R E)) : List (Admitted P K H) :=
  roots ++ tr.flatMap Event.added

/-- The leaves of the split forest. -/
def leaves (c : Coord P K H R E) (tr : List (Event P K H R E)) : List (Admitted P K H) :=
  c.work ++ tr.flatMap Event.settled ++ tr.flatMap Event.lost

/-- The dictionary `m` holds the identities of `ads`. -/
def Holds (m : K → Option H) (ads : List (Admitted P K H)) : Prop :=
  ∀ k h, m k = some h ↔ ∃ a ∈ ads, a.contentKey = k ∧ a.payloadHash = h

omit [DecidableEq K] in
theorem Holds.congr {m : K → Option H} {as bs : List (Admitted P K H)} (h : Holds m as)
    (hab : ∀ a, a ∈ bs ↔ a ∈ as) : Holds m bs := by
  intro k v; simp only [h k v, hab]

omit [DecidableEq K] in
theorem Holds.ne_none {m : K → Option H} {as : List (Admitted P K H)} (h : Holds m as) {k : K} :
    m k ≠ none ↔ ∃ a ∈ as, a.contentKey = k := by
  rw [Option.ne_none_iff_exists']
  constructor
  · rintro ⟨v, hv⟩
    obtain ⟨a, ha, hk, -⟩ := (h k v).1 hv
    exact ⟨a, ha, hk⟩
  · rintro ⟨a, ha, hk⟩
    exact ⟨a.payloadHash, (h k _).2 ⟨a, ha, hk, rfl⟩⟩

theorem Holds.setAll {m : K → Option H} {as bs : List (Admitted P K H)} (h : Holds m as)
    (hnd : (bs.map (·.contentKey)).Nodup) (hfr : ∀ b ∈ bs, m b.contentKey = none) :
    Holds (setAll m bs) (as ++ bs) := by
  intro k v
  by_cases hk : ∃ b ∈ bs, b.contentKey = k
  · obtain ⟨b, hb, rfl⟩ := hk
    rw [setAll_of_mem hnd hb]
    constructor
    · rintro ⟨⟩; exact ⟨b, by simp [hb], rfl, rfl⟩
    · rintro ⟨a, ha, hak, rfl⟩
      rcases List.mem_append.1 ha with ha | ha
      · exact absurd (hfr b hb) (h.ne_none.2 ⟨a, ha, hak⟩)
      · rw [List.inj_on_of_nodup_map hnd ha hb hak]
  · push Not at hk
    rw [setAll_of_not_mem hk, h k v]
    refine exists_congr fun a => and_congr_left fun ⟨hak, _⟩ => ?_
    rw [List.mem_append, or_iff_left fun ha => hk a ha hak]

theorem Holds.discard {m : K → Option H} {as : List (Admitted P K H)} (h : Holds m as) (k₀ : K) :
    Holds (Function.update m k₀ none) (as.filter (·.contentKey ≠ k₀)) := by
  intro k v
  by_cases hk : k = k₀
  · subst hk
    simp only [Function.update_self, List.mem_filter, decide_eq_true_eq]
    constructor
    · intro hv; cases hv
    · rintro ⟨a, ⟨-, hne⟩, hak, -⟩; exact absurd hak hne
  · rw [Function.update_of_ne hk, h k v]
    refine exists_congr fun a => and_congr_left fun ⟨hak, _⟩ => ?_
    simp [hak, hk]

structure Ledger (roots : List (Admitted P K H)) (tr : List (Event P K H R E))
    (s : State σ P K H R E) : Prop where
  balance : (leaves s.c tr ++ tr.flatMap Event.parents).Perm (nodes roots tr)
  nodup : ((nodes roots tr).map (·.contentKey)).Nodup
  live : s.Healthy → Holds s.c.liveMap (nodes roots tr)
  keys : s.c.terminalKeys = ((leaves s.c tr).map (·.contentKey)).toFinset
  hash : Holds s.c.terminalHash (leaves s.c tr)
  lost : s.Healthy → tr.flatMap Event.lost = []

section
variable {cfg : Config σ K H R E} {w : World P K H E} {s s' : State σ P K H R E}
  {ev : Event P K H R E} {roots : List (Admitted P K H)} {tr : List (Event P K H R E)}

omit [DecidableEq K] in
theorem nodes_snoc : nodes roots (tr ++ [ev]) = nodes roots tr ++ ev.added := by
  simp [nodes]

theorem Ledger.leaf (hL : Ledger roots tr s) {a : Admitted P K H} (ha : a ∈ leaves s.c tr) :
    a ∈ nodes roots tr :=
  hL.balance.mem_iff.1 (by simp [ha])

/-- What the leaves and the split items gain in a step. -/
theorem Step.leaves (h : Step cfg w s ev s') (tr : List (Event P K H R E)) :
    (leaves s'.c (tr ++ [ev]) ++ ev.parents).Perm (leaves s.c tr ++ ev.added) := by
  have hw := h.work
  rw [← Multiset.coe_eq_coe]
  simp only [ResumableBatch.leaves, List.flatMap_append, List.flatMap_singleton,
    ← Multiset.coe_add]
  calc _ = (s'.c.work : Multiset (Admitted P K H)) + (ev.settled + ev.parents + ev.lost) +
        (tr.flatMap Event.settled + tr.flatMap Event.lost) := by abel
    _ = _ := by rw [hw]; abel

theorem Ledger.balance_step (hL : Ledger roots tr s) (h : Step cfg w s ev s') :
    (leaves s'.c (tr ++ [ev]) ++ (tr ++ [ev]).flatMap Event.parents).Perm
      (nodes roots (tr ++ [ev])) := by
  have hb := Multiset.coe_eq_coe.2 hL.balance
  have hl := Multiset.coe_eq_coe.2 (h.leaves tr)
  rw [← Multiset.coe_eq_coe, nodes_snoc]
  simp only [List.flatMap_append, List.flatMap_singleton, ← Multiset.coe_add] at hb hl ⊢
  rw [← add_assoc, add_right_comm, hl, ← hb]; abel

/-- The leaves after a split: the parent is replaced by its children. -/
theorem Ledger.leaves_split (hL : Ledger roots tr s) {f : Future} {ad : Admitted P K H} {exc : E}
    {ads : List (Admitted P K H)} (h : Step cfg w s (.split f ad exc ads) s') (had : ad ∈ s.c.work)
    (hnd : ((nodes roots tr ++ ads).map (·.contentKey)).Nodup) (a : Admitted P K H) :
    a ∈ leaves s'.c (tr ++ [.split f ad exc ads]) ↔
      a ∈ (leaves s.c tr).filter (·.contentKey ≠ ad.contentKey) ++ ads := by
  have hp : (leaves s'.c (tr ++ [.split f ad exc ads]) ++ [ad]).Perm (leaves s.c tr ++ ads) :=
    h.leaves tr
  have hnd₁ : ((leaves s.c tr ++ ads).map (·.contentKey)).Nodup := by
    refine List.Nodup.sublist ?_ (((hL.balance.append_right ads).map _).nodup_iff.2 hnd)
    exact (List.append_sublist_append_right _ |>.2 (List.sublist_append_left ..)).map _
  have hne : ∀ b ∈ leaves s'.c (tr ++ [.split f ad exc ads]), b.contentKey ≠ ad.contentKey := by
    have := (hp.map (·.contentKey)).nodup_iff.2 hnd₁
    rw [List.map_append, List.nodup_append] at this
    exact fun b hb => this.2.2 _ (List.mem_map_of_mem hb) _ (by simp)
  have had' : ad ∈ leaves s.c tr := by simp [leaves, had]
  have hads : ∀ b ∈ ads, b.contentKey ≠ ad.contentKey := by
    rw [List.map_append, List.nodup_append] at hnd₁
    exact fun b hb => (hnd₁.2.2 _ (List.mem_map_of_mem had') _ (List.mem_map_of_mem hb)).symm
  simp only [List.mem_append, List.mem_filter, decide_eq_true_eq]
  constructor
  · intro ha
    have := hp.mem_iff.1 (List.mem_append_left _ ha)
    rcases List.mem_append.1 this with h | h
    · exact Or.inl ⟨h, hne a ha⟩
    · exact Or.inr h
  · intro ha
    have hak : a.contentKey ≠ ad.contentKey := ha.elim (·.2) (hads a)
    have := hp.mem_iff.2 (List.mem_append.2 (ha.imp_left (·.1)))
    rcases List.mem_append.1 this with h | h
    · exact h
    · exact absurd (by rw [List.mem_singleton.1 h]) hak

theorem Ledger.step (hw : s.Wf cfg) (hL : Ledger roots tr s) (h : Step cfg w s ev s') :
    Ledger roots (tr ++ [ev]) s' := by
  have hlost : s'.Healthy → (tr ++ [ev]).flatMap Event.lost = [] := fun hh => by
    obtain ⟨hs, he⟩ := h.healthy_back hh
    simp [hL.lost hs, Event.lost_eq_nil he]
  rcases h.targets hw with ⟨hp, ha, ht, hlive⟩ |
    ⟨f, ad, exc, ads, c, rfl, hs, hs', had, ht, hlive, hsp⟩
  · have hn : nodes roots (tr ++ [ev]) = nodes roots tr := by rw [nodes_snoc, ha, List.append_nil]
    have hleaf : (leaves s'.c (tr ++ [ev])).Perm (leaves s.c tr) := by
      simpa [hp, ha] using h.leaves tr
    refine ⟨hL.balance_step h, hn ▸ hL.nodup, fun hh => ?_, ?_, ?_, hlost⟩
    · rw [hlive hh, hn]; exact hL.live (h.healthy_back hh).1
    · rw [ht.keys, hL.keys]
      exact (List.toFinset_eq_of_perm _ _ (hleaf.map _)).symm
    · rw [ht.hash]
      exact hL.hash.congr fun a => hleaf.mem_iff
  · have hfr : ∀ a ∈ ads, s.c.liveMap a.contentKey = none := fun a ha => by
      rw [← hlive]; exact hsp.fresh a ha
    have hnd : ((nodes roots tr ++ ads).map (·.contentKey)).Nodup := by
      rw [List.map_append, List.nodup_append]
      refine ⟨hL.nodup, hsp.nodup, ?_⟩
      intro k hk k' hk' he
      obtain ⟨a, ha, rfl⟩ := List.mem_map.1 hk
      obtain ⟨b, hb, rfl⟩ := List.mem_map.1 hk'
      exact (hL.live hs).ne_none.2 ⟨a, ha, he⟩ (hfr b hb)
    have hleaf := hL.leaves_split h had hnd
    refine ⟨hL.balance_step h, by rw [nodes_snoc]; exact hnd, fun _ => ?_, ?_, ?_, hlost⟩
    · rw [hsp.eq, nodes_snoc]
      show Holds (setAll c.liveMap ads) _
      rw [hlive]; exact (hL.live hs).setAll hsp.nodup hfr
    · have hk : s'.c.terminalKeys =
          s.c.terminalKeys.erase ad.contentKey ∪ (ads.map (·.contentKey)).toFinset := by
        rw [hsp.eq, Coord.splitInto_terminalKeys, ht.keys]
      ext k
      simp only [hk, hL.keys, Finset.mem_union, Finset.mem_erase, List.mem_toFinset,
        List.mem_map, hleaf, List.mem_append, List.mem_filter, decide_eq_true_eq]
      constructor
      · rintro (⟨hne, a, ha, rfl⟩ | ⟨a, ha, rfl⟩)
        · exact ⟨a, Or.inl ⟨ha, hne⟩, rfl⟩
        · exact ⟨a, Or.inr ha, rfl⟩
      · rintro ⟨a, ⟨ha, hne⟩ | ha, rfl⟩
        · exact Or.inl ⟨hne, a, ha, rfl⟩
        · exact Or.inr ⟨a, ha, rfl⟩
    · rw [hsp.eq]
      show Holds (setAll (Function.update c.terminalHash ad.contentKey none) ads) _
      rw [ht.hash, ← hsp.eq]
      refine ((hL.hash.discard _).setAll hsp.nodup fun b hb => ?_).congr hleaf
      by_contra hne
      have hb' : s.c.terminalHash b.contentKey ≠ none := by
        rintro he; apply hne
        by_cases hk : b.contentKey = ad.contentKey
        · rw [hk, Function.update_self]
        · rw [Function.update_of_ne hk, he]
      obtain ⟨a, ha, hk⟩ := hL.hash.ne_none.1 hb'
      exact (hL.live hs).ne_none.2 ⟨a, hL.leaf ha, hk⟩ (hfr b hb)

theorem Ledger.nodup_leaves (hL : Ledger roots tr s) :
    ((leaves s.c tr).map (·.contentKey)).Nodup := by
  have h := (hL.balance.map (·.contentKey)).nodup_iff.2 hL.nodup
  rw [List.map_append] at h
  exact h.of_append_left

theorem Ledger.leaves_healthy (hL : Ledger roots tr s) (hh : s.Healthy) :
    leaves s.c tr = s.c.work ++ tr.flatMap Event.settled := by
  rw [leaves, hL.lost hh, List.append_nil]

/-! ## Runs -/

/-- A successful admission of the input. -/
theorem begin_ok {w : Hooks P K H E} {items : List (CheckpointItem P)} {st : σ}
    {s₀ : State σ P K H R E} (h : begin w items st = .ok s₀) :
    List.Forall₂ (AdmittedAs w 0) items s₀.c.ready ∧
      (s₀.c.ready.map (·.contentKey)).Nodup ∧
      s₀ = ⟨.head, { liveMap := setAll (fun _ => none) s₀.c.ready
                     terminalKeys := (s₀.c.ready.map (·.contentKey)).toFinset
                     terminalHash := setAll (fun _ => none) s₀.c.ready
                     ready := s₀.c.ready }, st⟩ := by
  unfold begin at h
  split at h
  · rename_i c hc
    cases h
    obtain ⟨ads, has, hnd, -, rfl⟩ := admitRoots_ok hc
    simp only [foldl_place, Coord.register, List.nil_append, Finset.empty_union]
    exact ⟨has, hnd, trivial⟩
  · cases h

theorem Ledger.begin {w : Hooks P K H E} {items : List (CheckpointItem P)} {st : σ}
    {s₀ : State σ P K H R E} (h : begin w items st = .ok s₀) :
    s₀.Wf cfg ∧ Ledger s₀.c.ready [] s₀ := by
  obtain ⟨-, hnd, h⟩ := begin_ok h
  generalize s₀.c.ready = ads at h hnd
  subst h
  have hempty : Holds (fun _ : K => (none : Option H)) ([] : List (Admitted P K H)) := by
    intro k v; simp
  have hset : Holds (ResumableBatch.setAll (fun _ => none) ads) ads := by
    simpa using hempty.setAll hnd fun _ _ => rfl
  refine ⟨⟨by simp, by simp [Loc.over], by constructor <;> simp [Coord.pool], by simp⟩, ?_⟩
  constructor <;> simp [leaves, nodes, Coord.work, hnd, hset]

/-- The ledger of every run. -/
theorem Ledger.run {w : Hooks P K H E} {W : Set (World P K H E)} {items : List (CheckpointItem P)}
    {st : σ} {s₀ : State σ P K H R E} (hb : ResumableBatch.begin w items st = .ok s₀)
    (hr : Lts.Run (cfg.step W) s₀ tr s) : s.Wf cfg ∧ Ledger s₀.c.ready tr s := by
  refine hr.inv (fun tr s => s.Wf cfg ∧ Ledger s₀.c.ready tr s) (Ledger.begin hb) ?_
  rintro tr s ev s' - ⟨hw, hL⟩ ⟨w, -, h⟩
  exact ⟨h.wf hw, hL.step hw h⟩

end

end ResumableBatch
