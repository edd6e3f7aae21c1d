/-
  Resume transparency and schedule independence: a run of a job returns what its
  run from the empty cache, one call at a time, returns.
-/
import ResumableBatch.Proof.Job
import ResumableBatch.Proof.Returns

namespace ResumableBatch

variable {P K H R E σ A O : Type}

/-! ## The forest of a run that returned -/

section
variable [LinearOrder K] {cfg : Config σ K H R E} {w : Hooks P K H E} {W : Set (World P K H E)}
  {result : P → Option R} {img : R → R} {I : σ → Prop} {items : List (CheckpointItem P)} {st : σ}
  {s₀ s : State σ P K H R E} {tr : List (Event P K H R E)}

omit [LinearOrder K] in
theorem mem_forks {p : Admitted P K H × List (Admitted P K H)} :
    p ∈ tr.flatMap Event.forks ↔ ∃ f exc, Event.split f p.1 exc p.2 ∈ tr := by
  rw [List.mem_flatMap]
  constructor
  · rintro ⟨ev, hev, hp⟩
    cases ev with
    | split f ad exc cs => rw [List.mem_singleton.1 hp]; exact ⟨f, exc, hev⟩
    | _ => cases hp
  · rintro ⟨f, exc, h⟩
    exact ⟨_, h, List.mem_singleton_self _⟩

/-- A run of the job commits its results. -/
theorem commits_job (hb : begin w items st = .ok s₀) (hr : Lts.Run (cfg.step W) s₀ tr s)
    (hpure : ∀ w' ∈ W, w'.toHooks = w)
    (hfin : ∀ f ad r, .finish f ad (.ok r) ∈ tr → result ad.item.payload = some r) :
    Commits (JobResult w result) tr := by
  intro f ad r hmem
  obtain ⟨tr₁, tr₂, s₁, s₂, rfl, hr₁, ⟨w', hw, hs⟩, -⟩ := hr.step_of_mem hmem
  obtain ⟨pre, post, hi, -, -⟩ := hs.commit_inv
  have hx : ⟨f, ad, .finished (.ok r)⟩ ∈ s₁.c.inflight := by simp [hi]
  have hwork : ad ∈ s₁.c.work := List.mem_append_right _ (List.mem_map_of_mem (f := (·.ad)) hx)
  exact ⟨_, node_key hb hr₁ hpure ((Ledger.run hb hr₁).2.work_node hwork),
    hfin f ad r (List.mem_append_left _ ((Traced.run hb hr₁).ended _ hx _ rfl))⟩

section
variable (hst : cfg.store.Faithful I (JobResult w result) img) (hI : I st)
    (hb : begin w items st = .ok s₀) (hr : Lts.Run (cfg.step W) s₀ tr s)
    (hQ : Commits (JobResult w result) tr)
include hst hI hb hr hQ

/-- What is settled in a run of the job has a result, and a hit that loads it. -/
theorem settled_result (hh : s.Healthy) {a : Admitted P K H}
    (ha : a ∈ tr.flatMap Event.settled) (hc : Cached cfg.store result img s.store a) :
    ∃ r, result a.item.payload = some r ∧
      cfg.store.load s.store a.contentKey a.payloadHash = .ok (img r) := by
  have hhit := settled_hits hst.holds hI hb hr hQ hh ha
  rcases hc with hc | ⟨-, h⟩
  · rw [hhit] at hc; cases hc
  · exact h

/-- When a run of the job is over, what it did not settle it split. -/
theorem split_of_none (hd : s.loc = .done) {a : Admitted P K H}
    (ha : a ∈ nodes s₀.c.ready tr) (hc : Cached cfg.store result img s.store a)
    (hnone : result a.item.payload = none) : ∃ cs, (a, cs) ∈ tr.flatMap Event.forks := by
  obtain ⟨hh, -, -, -, hleaf⟩ := done_settled hb hr hd
  have hL := (Ledger.run hb hr).2
  rw [← hL.balance.mem_iff, List.mem_append, hleaf] at ha
  rcases ha with ha | ha
  · obtain ⟨r, hr, -⟩ := settled_result hst hI hb hr hQ hh ha hc
    rw [hnone] at hr; cases hr
  · obtain ⟨f, exc, cs, h⟩ := mem_parents.1 ha
    exact ⟨cs, mem_forks.2 ⟨f, exc, h⟩⟩

end

theorem forest_of_run (hst : cfg.store.Faithful I (JobResult w result) img) (hI : I st)
    (hb : begin w items st = .ok s₀) (hr : Lts.Run (cfg.step W) s₀ tr s) (hd : s.loc = .done)
    (hpure : ∀ w' ∈ W, w'.toHooks = w)
    (hC : Conforms cfg w result tr)
    (hcache : ∀ a ∈ nodes s₀.c.ready tr, Cached cfg.store result img st a) :
    Forest cfg w result s₀.c.ready (tr.flatMap Event.forks) := by
  obtain ⟨hh, -⟩ := done_settled hb hr hd
  have hL := (Ledger.run hb hr).2
  have hcached := (cached_run hL.nodup hst hI hb hr hpure (fun a ha => ha) hcache hC hh).2
  have hQ := commits_job hb hr hpure fun f ad r => hC.outcomes f ad (.ok r)
  have hparents : (tr.flatMap Event.forks).map (·.1) = tr.flatMap Event.parents := by
    rw [List.map_flatMap]; simp only [Event.forks_parents]
  constructor
  · rw [← nodes_grown]; exact hL.nodup
  · rw [← nodes_grown]; exact fun a ha => node_key hb hr hpure ha
  · rw [hparents]
    exact (List.nodup_append.1 (hL.balance.nodup_iff.2 (hL.nodup.of_map _))).2.1
  · intro p hp
    obtain ⟨f, exc, h⟩ := mem_forks.1 hp
    obtain ⟨w', hw, c, c', ⟨policy, its, hws, hsp, has⟩, -⟩ := split_of_mem hr h
    rw [hpure w' hw] at hws hsp has
    exact ⟨policy, its, hws.1, hsp, has⟩
  · intro p hp
    obtain ⟨f, exc, h⟩ := mem_forks.1 hp
    obtain ⟨tr₁, tr₂, s₁, s₂, rfl, hr₁, ⟨w', hw, hs⟩, -⟩ := hr.step_of_mem h
    exact (hs.split_none (Traced.run hb hr₁) hC.left (hpure w' hw)).2.1
  · rw [← nodes_grown]
    exact fun a ha hnone => split_of_none hst hI hb hr hQ hd ha (hcached a ha) hnone
  · rw [← nodes_grown]
    intro S hroots hfork
    refine (hr.inv (fun tr' s' => (∀ p ∈ tr'.flatMap Event.forks, p ∈ tr.flatMap Event.forks) →
      ∀ a ∈ nodes s₀.c.ready tr', S a) ?_ ?_) fun p hp => hp
    · intro _ a ha
      exact hroots a (by simpa [nodes] using ha)
    · rintro tr' s₁ ev s₂ hr' ih ⟨w', hw, hs⟩ hsub a ha
      rw [List.flatMap_append, List.flatMap_singleton] at hsub
      have hold := ih fun p hp => hsub p (List.mem_append_left _ hp)
      rw [nodes_snoc, List.mem_append] at ha
      rcases ha with ha | ha
      · exact hold a ha
      · cases ev with
        | split f ad exc cs =>
          obtain ⟨fs, pre, post, -, -, -, hi, -⟩ := hs.split_inv
          have hwork : ad ∈ s₁.c.work := by simp [Coord.work, hi]
          exact hfork _ (hsub (ad, cs) (List.mem_append_right _ (List.mem_singleton_self _)))
            (hold ad ((Ledger.run hb hr').2.work_node hwork)) a ha
        | _ => cases ha

/-! ## What a run of the forest returns -/

variable {roots : List (Admitted P K H)} {forks : List (Admitted P K H × List (Admitted P K H))}

section
variable (hF : Forest cfg w result roots forks) (hroots : s₀.c.ready.Perm roots)
    (hst : cfg.store.Faithful I (JobResult w result) img) (hI : I st)
    (hb : begin w items st = .ok s₀) (hr : Lts.Run (cfg.step W) s₀ tr s)
    (hQ : Commits (JobResult w result) tr) (hd : s.loc = .done)
    (hg : ∀ p ∈ tr.flatMap Event.forks, p ∈ forks)
    (hc : ∀ a ∈ grown roots forks, Cached cfg.store result img s.store a)
include hF hroots hst hI hb hr hQ hd hg hc

/-- A run that is over has grown the whole forest. -/
theorem grown_all :
    ∀ a, a ∈ grown roots forks ↔ a ∈ nodes s₀.c.ready tr := by
  have hparents : (tr.flatMap Event.forks).map (·.1) = tr.flatMap Event.parents := by
    rw [List.map_flatMap]; simp only [Event.forks_parents]
  have hL := (Ledger.run hb hr).2
  have hsub : ∀ a ∈ nodes s₀.c.ready tr, a ∈ grown roots forks := by
    rw [nodes_grown]
    refine fun a ha => (grown_subperm hroots ?_ hg).subset ha
    rw [hparents]
    exact (List.nodup_append.1 (hL.balance.nodup_iff.2 (hL.nodup.of_map _))).2.1
  refine fun a => ⟨hF.descends (· ∈ nodes s₀.c.ready tr) ?_ ?_ a, hsub a⟩
  · intro a ha
    exact List.mem_append_left _ (hroots.mem_iff.2 ha)
  · intro p hp hn a ha
    obtain ⟨cs, hcs⟩ := split_of_none hst hI hb hr hQ hd hn (hc _ (hsub _ hn)) (hF.no_result p hp)
    have hpc : (p.1, cs) = p := List.inj_on_of_nodup_map hF.parents (hg _ hcs) hp rfl
    obtain ⟨f, exc, h⟩ := mem_forks.1 hcs
    refine List.mem_append_right _ (List.mem_flatMap.2 ⟨_, h, ?_⟩)
    rw [← hpc] at ha; exact ha

/-- Its terminal keys are those of the items with a result. -/
theorem terminal_of_forest (k : K) :
    k ∈ s.c.terminalKeys ↔
      ∃ a ∈ grown roots forks, result a.item.payload ≠ none ∧ a.contentKey = k := by
  have hall := grown_all hF hroots hst hI hb hr hQ hd hg hc
  have hL := (Ledger.run hb hr).2
  obtain ⟨hh, -, -, -, hleaf⟩ := done_settled hb hr hd
  rw [hL.keys, List.mem_toFinset, List.mem_map, hleaf]
  constructor
  · rintro ⟨a, ha, rfl⟩
    have hn : a ∈ grown roots forks := (hall a).2 (hL.leaf (hleaf ▸ ha))
    obtain ⟨r, hres, -⟩ := settled_result hst hI hb hr hQ hh ha (hc a hn)
    exact ⟨a, hn, by simp [hres], rfl⟩
  · rintro ⟨a, ha, hres, rfl⟩
    have hn := (hall a).1 ha
    rw [← hL.balance.mem_iff, List.mem_append, hleaf] at hn
    refine ⟨a, hn.resolve_right fun hp => hres ?_, rfl⟩
    obtain ⟨f, exc, cs, h⟩ := mem_parents.1 hp
    exact hF.no_result (a, cs) (hg _ (mem_forks.2 ⟨f, exc, h⟩))

/-- The items stitched and what the store loads for them. -/
theorem stitched_of_forest :
    ∃ (stitched : List (Admitted P K H)) (results : List R),
      stitched.map (·.contentKey) = s.c.terminalKeys.sort (· ≤ ·) ∧
      s.c.expected = some (stitched.map fun a => (a.contentKey, a.payloadHash)) ∧
      (∀ a ∈ stitched, a ∈ grown roots forks) ∧
      List.Forall₂ (fun a x => ∃ r, result a.item.payload = some r ∧ x = img r) stitched results ∧
      List.Forall₂ (fun p x => cfg.store.load s.store p.1 p.2 = .ok x)
        (stitched.map fun a => (a.contentKey, a.payloadHash)) results := by
  obtain ⟨stitched, hperm, hkeys, hexp⟩ := expected_eq hb hr hd
  obtain ⟨hh, -, -, -, hleaf⟩ := done_settled hb hr hd
  have hall := grown_all hF hroots hst hI hb hr hQ hd hg hc
  have hmem : ∀ a ∈ stitched, a ∈ grown roots forks := by
    intro a ha
    exact (hall a).2 ((Ledger.run hb hr).2.leaf (hleaf ▸ hperm.mem_iff.1 ha))
  have hload : ∀ a ∈ stitched, ∃ x, (∃ r, result a.item.payload = some r ∧ x = img r) ∧
      cfg.store.load s.store a.contentKey a.payloadHash = .ok x := by
    intro a ha
    obtain ⟨r, hres, hl⟩ :=
      settled_result hst hI hb hr hQ hh (hperm.mem_iff.1 ha) (hc a (hmem a ha))
    exact ⟨img r, ⟨r, hres, rfl⟩, hl⟩
  obtain ⟨results, hres⟩ := List.exists_forall₂ hload
  exact ⟨stitched, results, hkeys, hexp, hmem, hres.imp fun _ _ h => h.1,
    List.forall₂_map_left_iff.2 (hres.imp fun _ _ h => h.2)⟩

end

omit [LinearOrder K] in
theorem forall₂_image_unique {as : List (Admitted P K H)} {xs ys : List R}
    (hx : List.Forall₂ (fun a x => ∃ r, result a.item.payload = some r ∧ x = img r) as xs)
    (hy : List.Forall₂ (fun a x => ∃ r, result a.item.payload = some r ∧ x = img r) as ys) :
    xs = ys := by
  induction hx generalizing ys with
  | nil => cases hy; rfl
  | cons h _ ih =>
    cases hy with
    | cons h' hy =>
      obtain ⟨r, hr, rfl⟩ := h
      obtain ⟨r', hr', rfl⟩ := h'
      cases hr.symm.trans hr'
      rw [ih hy]

/-- Two runs of one forest return the same. -/
theorem same_output {cfg₁ cfg₂ : Config σ K H R E} {W₁ W₂ : Set (World P K H E)}
    {items₁ items₂ : List (CheckpointItem P)} {st₁ st₂ : σ}
    {a₁ s₁ a₂ s₂ : State σ P K H R E} {tr₁ tr₂ : List (Event P K H R E)}
    (hF : Forest cfg₁ w result roots forks) (hF' : Forest cfg₂ w result roots forks)
    (hst₁ : cfg₁.store.Faithful I (JobResult w result) img) (hI₁ : I st₁)
    (hst₂ : cfg₂.store.Faithful I (JobResult w result) img) (hI₂ : I st₂)
    (hb₁ : begin w items₁ st₁ = .ok a₁) (hr₁ : Lts.Run (cfg₁.step W₁) a₁ tr₁ s₁)
    (hb₂ : begin w items₂ st₂ = .ok a₂) (hr₂ : Lts.Run (cfg₂.step W₂) a₂ tr₂ s₂)
    (hQ₁ : Commits (JobResult w result) tr₁) (hQ₂ : Commits (JobResult w result) tr₂)
    (hroots₁ : a₁.c.ready.Perm roots) (hroots₂ : a₂.c.ready.Perm roots)
    (hd₁ : s₁.loc = .done) (hd₂ : s₂.loc = .done)
    (hg₁ : ∀ p ∈ tr₁.flatMap Event.forks, p ∈ forks)
    (hg₂ : ∀ p ∈ tr₂.flatMap Event.forks, p ∈ forks)
    (hc₁ : ∀ a ∈ grown roots forks, Cached cfg₁.store result img s₁.store a)
    (hc₂ : ∀ a ∈ grown roots forks, Cached cfg₂.store result img s₂.store a) :
    s₁.c.terminalKeys = s₂.c.terminalKeys ∧
      ∃ pairs results, s₁.c.expected = some pairs ∧ s₂.c.expected = some pairs ∧
        cfg₁.store.loadAll s₁.store pairs = .ok results ∧
        cfg₂.store.loadAll s₂.store pairs = .ok results ∧
        ∀ mode : CombineMode R E A O, stitch cfg₁.store s₁.store mode pairs =
          stitch cfg₂.store s₂.store mode pairs := by
  have hkeys : s₁.c.terminalKeys = s₂.c.terminalKeys := by
    ext k
    rw [terminal_of_forest hF hroots₁ hst₁ hI₁ hb₁ hr₁ hQ₁ hd₁ hg₁ hc₁,
      terminal_of_forest hF' hroots₂ hst₂ hI₂ hb₂ hr₂ hQ₂ hd₂ hg₂ hc₂]
  obtain ⟨as, xs, hk₁, he₁, hm₁, hi₁, hl₁⟩ :=
    stitched_of_forest hF hroots₁ hst₁ hI₁ hb₁ hr₁ hQ₁ hd₁ hg₁ hc₁
  obtain ⟨bs, ys, hk₂, he₂, hm₂, hi₂, hl₂⟩ :=
    stitched_of_forest hF' hroots₂ hst₂ hI₂ hb₂ hr₂ hQ₂ hd₂ hg₂ hc₂
  have hab : as = bs := by
    refine List.eq_of_map_eq ?_ (hk₁.trans (hkeys ▸ hk₂.symm))
    exact fun a ha b hb => List.inj_on_of_nodup_map hF.nodup (hm₁ a ha) (hm₂ b hb)
  subst hab
  have hxy := forall₂_image_unique hi₁ hi₂
  subst hxy
  exact ⟨hkeys, _, xs, he₁, he₂, Except.mapM_eq_ok.2 hl₁, Except.mapM_eq_ok.2 hl₂,
    fun mode => by rw [stitch_eq hl₁, stitch_eq hl₂]⟩

/-- The calls of a job can always end as the job says. -/
theorem conforming_end (hF : Forest cfg w result roots forks)
    (hexc : ∀ p ∈ forks, ∃ exc, SplitsOn cfg w exc p.1) {a : Admitted P K H}
    (ha : a ∈ grown roots forks) : ∃ o, Conforming cfg w result a o ∧
      ∀ f k, Event.fails w k (.finish f a o : Event P K H R E) = false := by
  cases hres : result a.item.payload with
  | some r => exact ⟨.ok r, hres, fun _ _ => rfl⟩
  | none =>
    obtain ⟨cs, hcs⟩ := hF.complete a ha hres
    obtain ⟨exc, hs⟩ := hexc _ hcs
    refine ⟨.error exc, Or.inr ⟨hres, hs⟩, fun f k => ?_⟩
    have hret : w.isRetried exc a = false := by
      rw [← Bool.not_eq_true, Hooks.isRetried_iff]
      rintro ⟨-, hn, -⟩
      obtain ⟨policy, hp, hw⟩ := hs.wants
      rw [hn policy hp] at hw; cases hw
    simp [Event.fails, hret]

/-- The permuted input is admitted as well. -/
theorem begin_perm {r₀ : State σ P K H R E} {items' : List (CheckpointItem P)}
    (hperm : items'.Perm items) (hb : begin w items st = .ok r₀) (st' : σ) :
    ∃ s₀ : State σ P K H R E, begin w items' st' = .ok s₀ ∧ s₀.c.ready.Perm r₀.c.ready := by
  obtain ⟨has, hnd, -⟩ := begin_ok hb
  obtain ⟨ads, has', hads⟩ := List.perm_comp_forall₂ hperm has
  have hnd' : (ads.map (·.contentKey)).Nodup := (hads.map _).nodup_iff.2 hnd
  obtain ⟨c, hc⟩ := admitRoots_fresh (R := R) (c := {}) has' hnd' fun _ _ => rfl
  have hb' : begin w items' st' = .ok ⟨.head, c, st'⟩ := by rw [begin, hc]
  refine ⟨_, hb', ?_⟩
  rw [admitted_unique (begin_ok hb').1 has']; exact hads

theorem Conforms.snoc {ev : Event P K H R E} (hC : Conforms cfg w result tr)
    (hB : BacksOff cfg w W tr) (hfin : ∀ f ad o, ev = .finish f ad o → Conforming cfg w result ad o)
    (hpool : ∀ ad fault, ev ≠ .abort none ad fault) (hfails : ∀ k, ev.fails w k = false) :
    Conforms cfg w result (tr ++ [ev]) ∧ BacksOff cfg w W (tr ++ [ev]) := by
  have hhint : ∀ f ad exc, ev = .finish f ad (.error exc) → w.isRetried exc ad ≠ true := by
    rintro f ad exc rfl
    simpa [Event.fails] using hfails ad.contentKey
  have hcount : ∀ k, transientFailures w k (tr ++ [ev]) = transientFailures w k tr := by
    intro k
    simp [transientFailures_snoc, hfails k]
  refine ⟨⟨fun f ad o hf => ?_, fun k => ?_, fun ad fault hf => ?_⟩, fun k n hn hle => ?_,
    fun f ad exc server hint hf hret => ?_⟩
  · rcases List.mem_append.1 hf with hf | hf
    · exact hC.outcomes f ad o hf
    · exact hfin f ad o (List.mem_singleton.1 hf).symm
  · rw [hcount]; exact hC.budget k
  · rcases List.mem_append.1 hf with hf | hf
    · exact hC.pool ad fault hf
    · exact hpool ad fault (List.mem_singleton.1 hf).symm
  · exact hB.delays k n hn (hcount k ▸ hle)
  · rcases List.mem_append.1 hf with hf | hf
    · exact hB.hints f ad exc server hint hf hret
    · exact absurd hret (hhint f ad exc (List.mem_singleton.1 hf).symm)

/-- A run of the job may go on with a step that is no transient failure. -/
theorem JobRun.snoc {tr : List (World P K H E × Event P K H R E)}
    {l : World P K H E × Event P K H R E} (hJ : JobRun cfg w W result tr) (hw : l.1 ∈ W)
    (hclock : ∀ l' ∈ tr, l'.1.monotonic ≤ l.1.monotonic)
    (hfin : ∀ f ad o, l.2 = .finish f ad o → Conforming cfg w result ad o)
    (hpool : ∀ ad fault, l.2 ≠ .abort none ad fault) (hfails : ∀ k, l.2.fails w k = false) :
    JobRun cfg w W result (tr ++ [l]) := by
  obtain ⟨hC, hB⟩ := hJ.conforms.snoc hJ.backsOff hfin hpool hfails
  refine ⟨List.forall_mem_append.2 ⟨hJ.worlds, by simpa⟩, ?_, by simpa using hC, by simpa using hB⟩
  rw [List.pairwise_append]
  exact ⟨hJ.clock, List.pairwise_singleton _ _, fun l' hl' => by simpa using hclock l' hl'⟩

/-! ## Resume transparency -/

/-- Pure callables; only the clock, which goes on, and the random source change. -/
structure PureWorlds (w : Hooks P K H E) (W : Set (World P K H E)) : Prop where
  pure : ∀ w' ∈ W, w'.toHooks = w
  clock : ∀ t, ∃ w' ∈ W, t ≤ w'.monotonic

/-- A run of the job, possibly interrupted, committed `r` under this identity. -/
def CommittedEarlier (cfg : Config σ K H R E) (w : Hooks P K H E) (W : Set (World P K H E))
    (result : P → Option R) (items : List (CheckpointItem P)) (k : K) (h : H) (r : R) : Prop :=
  ∃ (n : ℤ) (its : List (CheckpointItem P)) (st : σ) (s₀ s : State σ P K H R E)
    (tr : List (Event P K H R E)) (f : Future) (ad : Admitted P K H), its.Perm items ∧
    begin w its st = .ok s₀ ∧ Lts.Run ({ cfg with concurrency := n }.step W) s₀ tr s ∧
    (∀ f ad o, .finish f ad o ∈ tr → Conforming cfg w result ad o) ∧
    .commit f ad r ∈ tr ∧ ad.contentKey = k ∧ ad.payloadHash = h

/-- For the identities of `ads` the cache holds entries of earlier runs only. -/
def EarlierCache (cfg : Config σ K H R E) (w : Hooks P K H E) (W : Set (World P K H E))
    (result : P → Option R) (img : R → R) (items : List (CheckpointItem P)) (st : σ)
    (ads : List (Admitted P K H)) : Prop :=
  ∀ a ∈ ads, cfg.store.has st a.contentKey a.payloadHash = .ok false ∨
    (cfg.store.has st a.contentKey a.payloadHash = .ok true ∧
      ∃ r, CommittedEarlier cfg w W result items a.contentKey a.payloadHash r ∧
        cfg.store.load st a.contentKey a.payloadHash = .ok (img r))

theorem EarlierCache.cached (hW : PureWorlds w W)
    (hinj : ∀ p p' k h, w.contentKeyFn p = .ok (k, h) → w.contentKeyFn p' = .ok (k, h) → p = p')
    {ads : List (Admitted P K H)} (hcache : EarlierCache cfg w W result img items st ads)
    (hkey : ∀ a ∈ ads, w.contentKeyFn a.item.payload = .ok (a.contentKey, a.payloadHash)) :
    ∀ a ∈ ads, Cached cfg.store result img st a := by
  intro a ha
  refine (hcache a ha).imp_right ?_
  rintro ⟨hhit, r, ⟨n, its, st', s₀, s, tr, f, ad, -, hb, hr, hfin, hc, hk, hh⟩, hload⟩
  refine ⟨hhit, r, ?_, hload⟩
  obtain ⟨p, hp, hres⟩ := commits_job hb hr hW.pure (fun f ad r => hfin f ad (.ok r)) f ad r hc
  rw [hk, hh] at hp
  rw [hinj _ _ _ _ (hkey a ha) hp]; exact hres

/-- **Resume transparency and schedule independence.**  When the run from the empty
    cache at concurrency 1 returns, so does every run of the job, with the same
    terminal keys and the same output, as long as its retries can be waited for. -/
theorem resume_transparent {st₀ : σ} {r₀ r : State σ P K H R E} {tr₀ : List (Event P K H R E)}
    {items' : List (CheckpointItem P)} {mode : CombineMode R E A O} {res₀ : CheckpointResult O}
    (hW : PureWorlds w W) (hst : cfg.store.Faithful I (JobResult w result) img) (hI₀ : I st₀)
    (hI : I st)
    (hinj : ∀ p p' k h, w.contentKeyFn p = .ok (k, h) → w.contentKeyFn p' = .ok (k, h) → p = p')
    (hempty : ∀ k h, cfg.store.has st₀ k h = .ok false) (hb₀ : begin w items st₀ = .ok r₀)
    (hr₀ : Lts.Run ({ cfg with concurrency := 1 }.step W) r₀ tr₀ r)
    (hC₀ : Conforms cfg w result tr₀)
    (hout : outcome { cfg with concurrency := 1 } mode r = some (.ok res₀))
    (hperm : items'.Perm items)
    (hcache : EarlierCache cfg w W result img items st (nodes r₀.c.ready tr₀)) :
    ∃ s₀, begin w items' st = .ok s₀ ∧
      (∀ tr s, Lts.Run cfg.timedStep s₀ tr s → JobRun cfg w W result tr →
        s.Healthy ∧
        (∃ tr' s', Lts.Run cfg.timedStep s tr' s' ∧ JobRun cfg w W result (tr ++ tr') ∧
          s'.loc = .done) ∧
        (s.loc = .done → s.c.terminalKeys = r.c.terminalKeys ∧
          (∃ pairs results, s.c.expected = some pairs ∧ r.c.expected = some pairs ∧
            cfg.store.loadAll s.store pairs = .ok results ∧
            cfg.store.loadAll r.store pairs = .ok results) ∧
          ∃ res, outcome cfg mode s = some (.ok res) ∧ res.frame = res₀.frame)) ∧
      ∀ (f : ℕ → State σ P K H R E) (l : ℕ → Event P K H R E), f 0 = s₀ →
        (∀ i, cfg.step W (f i) (l i) (f (i + 1))) → ∃ N, ∀ i ≥ N, l i = .tau := by
  have hd₀ : r.loc = .done := (outcome_ok hout).1
  have hst₀ : ({ cfg with concurrency := 1 } : Config σ K H R E).store.Faithful I
    (JobResult w result) img := hst
  -- the forest of the job is that of the run from the empty cache
  have hF₀ := forest_of_run hst₀ hI₀ hb₀ hr₀ hd₀ hW.pure (hC₀.concurrency 1)
    fun a _ => Or.inl (hempty _ _)
  have hF := hF₀.concurrency
  have hL₀ := (Ledger.run hb₀ hr₀).2
  have hc₀ := (cached_run hL₀.nodup hst₀ hI₀ hb₀ hr₀ hW.pure (fun a ha => ha)
    (fun a _ => Or.inl (hempty _ _)) (hC₀.concurrency 1) (done_settled hb₀ hr₀ hd₀).1).2
  have hcached := hcache.cached hW hinj fun a ha => node_key hb₀ hr₀ hW.pure ha
  have hexc : ∀ p ∈ tr₀.flatMap Event.forks, ∃ exc, SplitsOn cfg w exc p.1 := by
    intro p hp
    obtain ⟨f, exc, h⟩ := mem_forks.1 hp
    obtain ⟨tr₁, tr₂, s₁, s₂, rfl, hr₁, ⟨w', hw, hs⟩, -⟩ := hr₀.step_of_mem h
    obtain ⟨-, -, hx, ho, hws⟩ :=
      hs.split_none (Traced.run hb₀ hr₁) (hC₀.left.concurrency 1) (hW.pure w' hw)
    exact ⟨exc, hx, ho, hws⟩
  rw [nodes_grown] at hc₀ hcached
  obtain ⟨s₀, hb, hroots⟩ := begin_perm hperm hb₀ st
  have track : ∀ {tr s}, Lts.Run cfg.timedStep s₀ tr s → JobRun cfg w W result tr →
      OnTrack cfg.store w result img I r₀.c.ready (tr₀.flatMap Event.forks) (tr.map Prod.snd) s ∧
        Due cfg tr s :=
    fun hr hJ => OnTrack.run hF hroots hst hI hb hr hW.pure hcached hJ
  refine ⟨s₀, hb, fun tr s hr hJ => ⟨(track hr hJ).1.healthy, ?_, fun hd => ?_⟩, ?_⟩
  · refine can_return hst.ends hW.clock hb
      (fun hr hJ => ⟨(track hr hJ).1.healthy, (track hr hJ).2.finite⟩) ?_ ?_ hr hJ
    · rintro tr s ⟨w', ev⟩ s' _ hJ _ hw hclock hev
      refine hJ.snoc hw hclock ?_ ?_ fun k => ?_
      · rintro f ad o rfl
        exact (hev.elim (by simp) id).elim
      · rintro ad fault rfl
        exact (hev.elim (by simp) id).elim
      · rcases hev with rfl | hm
        · rfl
        · cases ev <;> first | rfl | exact hm.elim
    · intro tr s x w' hr hJ hx hw hclock
      have hwork : x.ad ∈ s.c.work := List.mem_append_right _ (List.mem_map_of_mem (f := (·.ad)) hx)
      have hL := (Ledger.run hb (untimed hr)).2
      have hnode := (track hr hJ).1.node hroots hL (hL.work_node hwork)
      obtain ⟨o, ho, hf⟩ := conforming_end hF hexc hnode
      refine ⟨o, hJ.snoc hw hclock ?_ (by simp) (hf x.fut)⟩
      rintro f ad o' he
      cases he; exact ho
  · have ht := (track hr hJ).1
    have hr' := untimed_in hr hJ.worlds
    obtain ⟨hkeys, pairs, results, he, he₀, hl, hl₀, hstitch⟩ := same_output (A := A) (O := O)
      hF hF₀ hst hI hst₀ hI₀ hb hr' hb₀ hr₀
      (commits_job hb hr' hW.pure fun f ad r => hJ.conforms.outcomes f ad (.ok r))
      (commits_job hb₀ hr₀ hW.pure fun f ad r => hC₀.outcomes f ad (.ok r)) hroots (.refl _) hd hd₀
      ht.grows (fun p hp => hp) ht.cached hc₀
    refine ⟨hkeys, ⟨pairs, results, he, he₀, hl, hl₀⟩, ?_⟩
    simp only [outcome, hd₀, he₀] at hout
    simp only [outcome, hd, he, hstitch]
    cases hs : stitch cfg.store r.store mode pairs with
    | error e => rw [hs] at hout; cases hout
    | ok frame =>
      rw [hs] at hout
      cases hout
      exact ⟨_, rfl, rfl⟩
  · intro f l hf hs
    refine Reachable.eventually_idle ?_ hs
    rw [hf]; exact ⟨w, items', st, s₀, [], hb, .nil⟩

end

/-! ### A job with a cache -/

/-- A payload is its own key.  The exception `true` is an OOM, on which a number is
    split into its first digits and its last; `false` is transient. -/
def jobWorld : World ℕ ℕ ℕ Bool where
  contentKeyFn n := .ok (n, n)
  isOom e := .ok e
  isTransient e := .ok !e
  splitPolicy := some ⟨fun e _ => .ok e, fun item => .ok
    [{ payload := item.payload / 10 }, { payload := item.payload % 10 }]⟩
  splitSizeFn _ := .ok 0
  retryAfterFn := none
  monotonic := 0
  uniform a _ := a

/-- The worlds of the job: its clock may show any time. -/
def jobWorlds : Set (World ℕ ℕ ℕ Bool) := { w | ∃ t, w = { jobWorld with monotonic := t } }

def jobResult (n : ℕ) : Option ℕ := if n < 10 then some (10 * n) else none

/-- Retries at once; the policy's `multiplier` is left open. -/
def jobConfig (multiplier : ℚ) : Config (List (ℕ × ℕ)) ℕ ℕ ℕ Bool :=
  { store := memStore, retry := { baseDelay := 0, multiplier }, concurrency := 2,
    isException := fun _ => true }

/-- The coordinator goes on for `n` steps. -/
def goOn (n : ℕ) : List (Choice ℕ Bool) := List.replicate n .go

/-- The pool ends a call, and `wait` hands it out. -/
def endsWith (f : Future) (o : Except Bool ℕ) : List (Choice ℕ Bool) := [.ends f o, .go [f]]

/-- The payload `7` at concurrency 1, without a failure. -/
def smoothPlay :=
  playFrom { jobConfig (10 ^ 200) with concurrency := 1 } memCommit jobWorld [⟨7, {}⟩] []
    (List.flatten [goOn 3, endsWith 0 (.ok 70), goOn 6])

/-- The payload `7` fails three times. -/
def bumpyPlay :=
  playFrom (jobConfig (10 ^ 200)) memCommit jobWorld [⟨7, {}⟩] []
    (List.flatten [goOn 3, endsWith 0 (.error false), goOn 8, endsWith 1 (.error false), goOn 8,
      endsWith 2 (.error false), goOn 2])

/-- The payload `12` runs out of memory, is split, and both halves run. -/
def splitPlay :=
  playFrom { jobConfig 2 with concurrency := 1 } memCommit jobWorld [⟨12, {}⟩] []
    (List.flatten [goOn 3, endsWith 0 (.error true), goOn 7, endsWith 1 (.ok 10), goOn 7,
      endsWith 2 (.ok 20), goOn 6])

/-- The same from a cache with `1`; the call of `2` fails once. -/
def resumePlay :=
  playFrom (jobConfig 2) memCommit jobWorld [⟨12, {}⟩] [(1, 10)]
    (List.flatten [goOn 3, endsWith 0 (.error true), goOn 8, endsWith 1 (.error false), goOn 8,
      endsWith 2 (.ok 20), goOn 6])

/-- The calls that ended in a run, with their outcomes. -/
def finishes {P K H R E : Type} (tr : List (Event P K H R E)) :
    List (Admitted P K H × Except E R) :=
  tr.filterMap fun
    | .finish _ ad o => some (ad, o)
    | _ => none

/-- The commits of a run. -/
def commits {P K H R E : Type} (tr : List (Event P K H R E)) :
    List (Future × Admitted P K H × R) :=
  tr.filterMap fun
    | .commit f ad r => some (f, ad, r)
    | _ => none

theorem mem_commits {P K H R E : Type} {tr : List (Event P K H R E)} {f : Future}
    {ad : Admitted P K H} {r : R} (h : (f, ad, r) ∈ commits tr) : .commit f ad r ∈ tr := by
  obtain ⟨ev, hev, he⟩ := List.mem_filterMap.1 h
  cases ev <;> simp_all

theorem transientFailures_finishes {P K H R E : Type} [DecidableEq K] (w : Hooks P K H E) (k : K)
    (tr : List (Event P K H R E)) : transientFailures w k tr =
      (finishes tr).countP fun p => Event.fails w k (.finish 0 p.1 p.2) := by
  induction tr with
  | nil => rfl
  | cons ev tr ih =>
    rw [transientFailures, List.countP_cons, ← transientFailures, ih]
    cases ev with
    | finish f ad o =>
      rw [show finishes (.finish f ad o :: tr) = (ad, o) :: finishes tr from rfl, List.countP_cons]
      cases o <;> rfl
    | _ => rfl

def jobItem (n depth : ℕ) : Admitted ℕ ℕ ℕ := ⟨⟨n, {}⟩, n, n, depth⟩

/-- The trace has no call refused by the pool. -/
def poolTakes {P K H R E : Type} (tr : List (Event P K H R E)) : Bool :=
  tr.all fun
    | .abort none _ _ => false
    | _ => true

theorem smoothPlay_shows : smoothPlay.any fun x =>
    finishes x.2.1 = [(jobItem 7 0, .ok 70)] ∧ poolTakes x.2.1 ∧ x.2.2.loc = .done := by
  decide +kernel

theorem bumpyPlay_shows : bumpyPlay.any fun x =>
    finishes x.2.1 =
      [(jobItem 7 0, .error false), (jobItem 7 0, .error false), (jobItem 7 0, .error false)] ∧
    poolTakes x.2.1 ∧ x.2.2.loc = .failed .overflow := by
  decide +kernel

theorem splitPlay_shows : splitPlay.any fun x =>
    finishes x.2.1 =
      [(jobItem 12 0, .error true), (jobItem 1 1, .ok 10), (jobItem 2 1, .ok 20)] ∧
    poolTakes x.2.1 ∧ x.2.2.loc = .done ∧
    nodes x.1.c.ready x.2.1 = [jobItem 12 0, jobItem 1 1, jobItem 2 1] ∧
    (1, jobItem 1 1, 10) ∈ commits x.2.1 := by
  decide +kernel

theorem resumePlay_shows : resumePlay.any fun x =>
    finishes x.2.1 =
      [(jobItem 12 0, .error true), (jobItem 2 1, .error false), (jobItem 2 1, .ok 20)] ∧
    poolTakes x.2.1 ∧ x.2.2.loc = .done := by
  decide +kernel

theorem smoothPlay_isSome : smoothPlay.isSome := Option.isSome_of_any smoothPlay_shows

theorem bumpyPlay_isSome : bumpyPlay.isSome := Option.isSome_of_any bumpyPlay_shows

theorem splitPlay_isSome : splitPlay.isSome := Option.isSome_of_any splitPlay_shows

theorem resumePlay_isSome : resumePlay.isSome := Option.isSome_of_any resumePlay_shows

def smooth := smoothPlay.get smoothPlay_isSome

def bumpy := bumpyPlay.get bumpyPlay_isSome

def splitting := splitPlay.get splitPlay_isSome

def resuming := resumePlay.get resumePlay_isSome

theorem smooth_shows : finishes smooth.2.1 = [(jobItem 7 0, .ok 70)] ∧ poolTakes smooth.2.1 ∧
    smooth.2.2.loc = .done :=
  of_decide_eq_true (Option.get_of_any_eq_true _ _ smoothPlay_shows)

theorem bumpy_shows : finishes bumpy.2.1 =
      [(jobItem 7 0, .error false), (jobItem 7 0, .error false), (jobItem 7 0, .error false)] ∧
    poolTakes bumpy.2.1 ∧ bumpy.2.2.loc = .failed .overflow :=
  of_decide_eq_true (Option.get_of_any_eq_true _ _ bumpyPlay_shows)

theorem splitting_shows : finishes splitting.2.1 =
      [(jobItem 12 0, .error true), (jobItem 1 1, .ok 10), (jobItem 2 1, .ok 20)] ∧
    poolTakes splitting.2.1 ∧ splitting.2.2.loc = .done ∧
    nodes splitting.1.c.ready splitting.2.1 = [jobItem 12 0, jobItem 1 1, jobItem 2 1] ∧
    (1, jobItem 1 1, 10) ∈ commits splitting.2.1 :=
  of_decide_eq_true (Option.get_of_any_eq_true _ _ splitPlay_shows)

theorem resuming_shows : finishes resuming.2.1 =
      [(jobItem 12 0, .error true), (jobItem 2 1, .error false), (jobItem 2 1, .ok 20)] ∧
    poolTakes resuming.2.1 ∧ resuming.2.2.loc = .done :=
  of_decide_eq_true (Option.get_of_any_eq_true _ _ resumePlay_shows)

theorem conforms_of_finishes {cfg : Config (List (ℕ × ℕ)) ℕ ℕ ℕ Bool}
    {tr : List (Event ℕ ℕ ℕ ℕ Bool)}
    (hfin : ∀ p ∈ finishes tr, Conforming cfg jobWorld.toHooks jobResult p.1 p.2)
    (hbud : ∀ k, (transientFailures jobWorld.toHooks k tr : ℤ) < cfg.retry.maxAttempts)
    (hpool : poolTakes tr = true) : Conforms cfg jobWorld.toHooks jobResult tr := by
  refine ⟨fun f ad o h => ?_, fun k => Or.inr (hbud k), fun ad fault h => ?_⟩
  · exact hfin (ad, o) (List.mem_filterMap.2 ⟨_, h, rfl⟩)
  · rw [poolTakes, List.all_eq_true] at hpool
    exact absurd (hpool _ h) (by simp)

theorem job_conforming (multiplier : ℚ) {n d : ℕ} (hn : n < 10) :
    Conforming (jobConfig multiplier) jobWorld.toHooks jobResult (jobItem n d) (.ok (10 * n)) := by
  simp [Conforming, jobResult, jobItem, hn]

theorem job_splits (multiplier : ℚ) {n d : ℕ} (hn : 10 ≤ n) : Conforming (jobConfig multiplier)
    jobWorld.toHooks jobResult (jobItem n d) (.error true) :=
  Or.inr ⟨if_neg (not_lt.2 hn), rfl, ⟨true, rfl⟩, _, rfl, rfl⟩

theorem job_retries (multiplier : ℚ) (n d : ℕ) : Conforming (jobConfig multiplier)
    jobWorld.toHooks jobResult (jobItem n d) (.error false) :=
  Or.inl ⟨rfl, rfl, none, .fin 0, rfl, rfl⟩

theorem smooth_conforms : Conforms (jobConfig (10 ^ 200)) jobWorld.toHooks jobResult smooth.2.1 := by
  obtain ⟨hfin, hpool, -⟩ := smooth_shows
  refine conforms_of_finishes ?_ (fun k => ?_) hpool
  · simp only [hfin, List.forall_mem_singleton]
    exact job_conforming _ (by decide)
  · rw [transientFailures_finishes, hfin]
    refine lt_of_le_of_lt (Int.ofNat_le.2 List.countP_le_length) ?_
    decide

theorem bumpy_conforms : Conforms (jobConfig (10 ^ 200)) jobWorld.toHooks jobResult bumpy.2.1 := by
  obtain ⟨hfin, hpool, -⟩ := bumpy_shows
  refine conforms_of_finishes ?_ (fun k => ?_) hpool
  · simp only [hfin, List.forall_mem_cons, List.not_mem_nil, false_imp_iff,
      implies_true, and_true]
    exact ⟨job_retries .., job_retries .., job_retries ..⟩
  · rw [transientFailures_finishes, hfin]
    refine lt_of_le_of_lt (Int.ofNat_le.2 List.countP_le_length) ?_
    decide

theorem splitting_conforms : Conforms (jobConfig 2) jobWorld.toHooks jobResult splitting.2.1 := by
  obtain ⟨hfin, hpool, -, -, -⟩ := splitting_shows
  refine conforms_of_finishes ?_ (fun k => ?_) hpool
  · simp only [hfin, List.forall_mem_cons, List.not_mem_nil, false_imp_iff,
      implies_true, and_true]
    exact ⟨job_splits _ (by decide), job_conforming _ (by decide), job_conforming _ (by decide)⟩
  · rw [transientFailures_finishes, hfin]
    refine lt_of_le_of_lt (Int.ofNat_le.2 List.countP_le_length) ?_
    decide

theorem resuming_conforms : Conforms (jobConfig 2) jobWorld.toHooks jobResult resuming.2.1 := by
  obtain ⟨hfin, hpool, -⟩ := resuming_shows
  refine conforms_of_finishes ?_ (fun k => ?_) hpool
  · simp only [hfin, List.forall_mem_cons, List.not_mem_nil, false_imp_iff,
      implies_true, and_true]
    exact ⟨job_splits _ (by decide), job_retries .., job_conforming _ (by decide)⟩
  · rw [transientFailures_finishes, hfin]
    refine lt_of_le_of_lt (Int.ofNat_le.2 List.countP_le_length) ?_
    decide

theorem resuming_backoff : backoffDelay (jobConfig 2).floatMax (jobConfig 2).retry 1
    jobWorld.uniform = some (.fin 0) := by decide +kernel

theorem resuming_backs : BacksOff (jobConfig 2) jobWorld.toHooks jobWorlds resuming.2.1 := by
  refine ⟨?_, fun f ad exc server hint _ _ hs hh => ?_⟩
  swap
  · cases hs
    cases hh
    exact Config.takes_zero
  rintro k n hn hle w ⟨t, rfl⟩
  have hone : transientFailures jobWorld.toHooks k resuming.2.1 ≤ 1 := by
    rw [transientFailures_finishes, resuming_shows.1]
    simp only [List.countP_cons, List.countP_nil, Event.fails, Hooks.isRetried, jobWorld, jobItem]
    split_ifs <;> simp_all
  obtain rfl : n = 1 := by omega
  exact ⟨0, resuming_backoff, Config.takes_zero⟩

/-- The output is the sum of the results. -/
def sumMode : CombineMode ℕ Bool Unit ℕ := .combine fun results => .ok results.sum

theorem memStore_faithful (Q : ℕ → ℕ → ℕ → Prop) :
    memStore.Faithful (fun _ => True) Q id where
  ends := memStore_ends
  returns _ _ hc := hc.1
  inv _ _ _ := trivial
  hit _ _ hc := by obtain ⟨-, rfl⟩ := hc; simp [memStore]
  loads _ _ hc := by obtain ⟨-, rfl⟩ := hc; simp [memStore]
  has_other {s k h k' h' r s'} _ _ hc hne := by
    obtain ⟨-, rfl⟩ := hc
    have hk : (k' == k) = false := by simpa using hne
    simp [memStore, List.lookup_cons, hk]
  load_other {s k h k' h' r s'} _ _ hc hne := by
    obtain ⟨-, rfl⟩ := hc
    have hk : (k' == k) = false := by simpa using hne
    simp [memStore, List.lookup_cons, hk]

theorem jobWorlds_pure : PureWorlds jobWorld.toHooks jobWorlds where
  pure := by rintro _ ⟨t, rfl⟩; rfl
  clock t := ⟨_, ⟨t, rfl⟩, le_refl t⟩

theorem jobWorld_injective (p p' k h : ℕ) (hp : jobWorld.contentKeyFn p = .ok (k, h))
    (hp' : jobWorld.contentKeyFn p' = .ok (k, h)) : p = p' := by
  cases hp; cases hp'; rfl

theorem job_run {cfg : Config (List (ℕ × ℕ)) ℕ ℕ ℕ Bool} (hcfg : cfg.store = memStore)
    {items : List (CheckpointItem ℕ)} {st : List (ℕ × ℕ)} {choices : List (Choice ℕ Bool)}
    (h : (playFrom cfg memCommit jobWorld items st choices).isSome) :
    begin jobWorld.toHooks items st =
        .ok ((playFrom cfg memCommit jobWorld items st choices).get h).1 ∧
      Lts.Run (cfg.step jobWorlds) ((playFrom cfg memCommit jobWorld items st choices).get h).1
        ((playFrom cfg memCommit jobWorld items st choices).get h).2.1
        ((playFrom cfg memCommit jobWorld items st choices).get h).2.2 := by
  obtain ⟨hb, hr⟩ := playFrom_sound (hcfg ▸ memCommit_spec) (Option.some_get h).symm
  refine ⟨hb, hr.mono ?_⟩
  rintro s ev s' ⟨w, rfl, hs⟩
  exact ⟨_, ⟨0, rfl⟩, hs⟩

theorem splitting_run : begin jobWorld.toHooks [⟨12, {}⟩] [] = .ok splitting.1 ∧
    Lts.Run ({ jobConfig 2 with concurrency := 1 }.step jobWorlds)
      splitting.1 splitting.2.1 splitting.2.2 := job_run rfl splitPlay_isSome

theorem resuming_run : begin jobWorld.toHooks [⟨12, {}⟩] [(1, 10)] = .ok resuming.1 ∧
    Lts.Run (jobConfig 2).timedStep resuming.1 (resuming.2.1.map fun ev => (jobWorld, ev))
      resuming.2.2 := by
  obtain ⟨hb, hr⟩ := playFrom_sound memCommit_spec (Option.some_get resumePlay_isSome).symm
  exact ⟨hb, timed hr⟩

theorem resuming_job : JobRun (jobConfig 2) jobWorld.toHooks jobWorlds jobResult
    (resuming.2.1.map fun ev => (jobWorld, ev)) := by
  have hsame : (resuming.2.1.map fun ev => (jobWorld, ev)).map Prod.snd = resuming.2.1 := by
    simp [Function.comp_def]
  refine ⟨fun l hl => ?_, ?_, ?_, ?_⟩
  · obtain ⟨ev, -, rfl⟩ := List.mem_map.1 hl
    exact ⟨0, rfl⟩
  · rw [List.pairwise_map]
    exact List.pairwise_of_forall fun _ _ => le_rfl
  · rw [hsame]
    exact resuming_conforms
  · rw [hsame]
    exact resuming_backs

/-- Without a failure the job returns; with three transient failures of its only
    key, within the budget of four attempts, it raises `OverflowError`. -/
theorem overflow_breaks_transparency :
    begin jobWorld.toHooks [⟨7, {}⟩] [] = .ok smooth.1 ∧
    Lts.Run ({ jobConfig (10 ^ 200) with concurrency := 1 }.step jobWorlds)
      smooth.1 smooth.2.1 smooth.2.2 ∧
    Conforms (jobConfig (10 ^ 200)) jobWorld.toHooks jobResult smooth.2.1 ∧
    (∃ res, outcome { jobConfig (10 ^ 200) with concurrency := 1 } sumMode smooth.2.2 =
      some (.ok res)) ∧
    begin jobWorld.toHooks [⟨7, {}⟩] [] = .ok bumpy.1 ∧
    Lts.Run ((jobConfig (10 ^ 200)).step jobWorlds) bumpy.1 bumpy.2.1 bumpy.2.2 ∧
    Conforms (jobConfig (10 ^ 200)) jobWorld.toHooks jobResult bumpy.2.1 ∧
    outcome (jobConfig (10 ^ 200)) sumMode bumpy.2.2 = some (.error .overflow) := by
  obtain ⟨hb, hr⟩ := job_run rfl smoothPlay_isSome
  obtain ⟨hb', hr'⟩ := job_run rfl bumpyPlay_isSome
  obtain ⟨-, -, hdone⟩ := smooth_shows
  obtain ⟨-, -, hfailed⟩ := bumpy_shows
  have hout := outcome_returns sumMode memStore_keeps trivial hb hr (fun _ _ _ _ => trivial) hdone
    fun results => ⟨results.sum, rfl⟩
  refine ⟨hb, hr, smooth_conforms, hout, hb', hr', bumpy_conforms, ?_⟩
  simp only [outcome, hfailed]

theorem resume_transparent_sample :
    resuming.2.2.c.terminalKeys = splitting.2.2.c.terminalKeys ∧
      ∃ res res₀, outcome (jobConfig 2) sumMode resuming.2.2 = some (.ok res) ∧
        outcome { jobConfig 2 with concurrency := 1 } sumMode splitting.2.2 = some (.ok res₀) ∧
        res.frame = res₀.frame := by
  obtain ⟨hb₀, hr₀⟩ := splitting_run
  obtain ⟨hb, hr⟩ := resuming_run
  obtain ⟨-, -, hdone₀, hnodes, hcommits⟩ := splitting_shows
  obtain ⟨-, -, hdone⟩ := resuming_shows
  obtain ⟨res₀, hout⟩ := outcome_returns sumMode memStore_keeps trivial hb₀ hr₀
    (fun _ _ _ _ => trivial) hdone₀ fun results => ⟨results.sum, rfl⟩
  have hcache : EarlierCache (jobConfig 2) jobWorld.toHooks jobWorlds jobResult id [⟨12, {}⟩]
      [(1, 10)] (nodes splitting.1.c.ready splitting.2.1) := by
    rw [hnodes]
    simp only [EarlierCache, List.forall_mem_cons, List.not_mem_nil, false_imp_iff, implies_true,
      and_true]
    -- the cached entry is one the splitting run committed
    have hc : .commit 1 (jobItem 1 1) 10 ∈ splitting.2.1 := mem_commits hcommits
    exact ⟨Or.inl rfl, Or.inr ⟨rfl, 10, ⟨1, _, _, _, _, _, 1, jobItem 1 1, .refl _, hb₀, hr₀,
      splitting_conforms.outcomes, hc, rfl, rfl⟩, rfl⟩, Or.inl rfl⟩
  obtain ⟨s₀, hs, h, -⟩ := resume_transparent jobWorlds_pure (memStore_faithful _) trivial trivial
    jobWorld_injective (fun _ _ => rfl) hb₀ hr₀ splitting_conforms hout (.refl _) hcache
  obtain rfl : s₀ = resuming.1 := Except.ok.inj (hs.symm.trans hb)
  obtain ⟨-, -, h⟩ := h _ _ hr resuming_job
  obtain ⟨hkeys, -, res, hres, hframe⟩ := h hdone
  exact ⟨hkeys, res, res₀, hres, hout, hframe⟩

end ResumableBatch
