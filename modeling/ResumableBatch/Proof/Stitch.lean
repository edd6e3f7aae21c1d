/-
  No item is lost or duplicated, and the stitch reads one result per terminal
  key.
-/
import ResumableBatch.Exec
import ResumableBatch.Lib.Lists
import ResumableBatch.Proof.Ledger

namespace ResumableBatch

variable {P K H R E σ A O : Type}

/-! ## Stores that keep what they hold -/

/-- A commit makes a hit, and the commits of other keys do not undo it.  Both is asked of
    results as in `Q` only, and in states as in `I`, which these commits keep. -/
structure ResultStore.Holds (store : ResultStore σ K H R E) (I : σ → Prop)
    (Q : K → H → R → Prop) : Prop where
  commit_hit : ∀ {s k h r s'}, I s → Q k h r → store.commit s k h r .returned s' →
    store.has s' k h = .ok true
  kept : ∀ {s k h k' h' r s'}, I s → Q k' h' r → store.has s k h = .ok true →
    store.commit s k' h' r .returned s' → k' ≠ k → store.has s' k h = .ok true
  inv : ∀ {s k h r s'}, I s → Q k h r → store.commit s k h r .returned s' → I s'

/-- And a hit can be loaded. -/
structure ResultStore.Keeps (store : ResultStore σ K H R E) (I : σ → Prop)
    (Q : K → H → R → Prop) : Prop extends store.Holds I Q where
  hit_loads : ∀ {s k h}, I s → store.has s k h = .ok true → ∃ r, store.load s k h = .ok r

theorem ResultStore.Keeps.mono {store : ResultStore σ K H R E} {I : σ → Prop}
    {Q Q' : K → H → R → Prop}
    (h : store.Keeps I Q) (hQ : ∀ k h r, Q' k h r → Q k h r) : store.Keeps I Q' where
  commit_hit hs hq := h.commit_hit hs (hQ _ _ _ hq)
  kept hs hq := h.kept hs (hQ _ _ _ hq)
  inv hs hq := h.inv hs (hQ _ _ _ hq)
  hit_loads := h.hit_loads

/-- The results that are committed are as in `Q`. -/
def Commits (Q : K → H → R → Prop) (tr : List (Event P K H R E)) : Prop :=
  ∀ f ad r, .commit f ad r ∈ tr → Q ad.contentKey ad.payloadHash r

theorem Commits.left {Q : K → H → R → Prop} {tr tr' : List (Event P K H R E)}
    (h : Commits Q (tr ++ tr')) : Commits Q tr :=
  fun f ad r hc => h f ad r (List.mem_append_left _ hc)

theorem Commits.last {Q : K → H → R → Prop} {tr : List (Event P K H R E)} {f : Future}
    {ad : Admitted P K H} {r : R} (h : Commits Q (tr ++ [.commit f ad r])) :
    Q ad.contentKey ad.payloadHash r :=
  h f ad r (List.mem_append_right _ (List.mem_singleton_self _))

/-- The combine mode applied to results already at hand. -/
def CombineMode.over (mode : CombineMode R E A O) (results : List R) : Except E O :=
  match mode with
  | .combine f => f results
  | .incremental reduce finalize initial => do finalize (← results.foldlM reduce initial)

theorem foldResults_eq {store : ResultStore σ K H R E} {s : σ} (reduce : A → R → Except E A)
    (initial : A) {pairs : List (K × H)} {results : List R}
    (h : List.Forall₂ (fun p r => store.load s p.1 p.2 = .ok r) pairs results) :
    store.foldResults s reduce initial pairs = results.foldlM reduce initial := by
  induction h generalizing initial with
  | nil => rfl
  | @cons p r pairs results hp _ ih =>
    simp only [ResultStore.foldResults, List.foldlM_cons] at ih ⊢
    rw [hp]
    show reduce initial r >>= _ = _
    exact bind_congr fun acc => ih acc

/-- The two modes see the same results. -/
theorem stitch_eq {store : ResultStore σ K H R E} {s : σ} {pairs : List (K × H)} {results : List R}
    (h : List.Forall₂ (fun p r => store.load s p.1 p.2 = .ok r) pairs results)
    (mode : CombineMode R E A O) : stitch store s mode pairs = mode.over results := by
  cases mode with
  | combine combine =>
    simp only [stitch, ResultStore.loadAll, Except.mapM_eq_ok.2 h]; rfl
  | incremental reduce finalize initial =>
    simp only [stitch, CombineMode.over, foldResults_eq reduce initial h]

/-! ## The store along a run -/

section
variable [DecidableEq K] {cfg : Config σ K H R E} {w : World P K H E} {s₀ s s' : State σ P K H R E}
  {W : Set (World P K H E)} {ev : Event P K H R E} {tr : List (Event P K H R E)}

/-- Short of a failure, the store only changes by a commit that returns. -/
theorem Step.store (h : Step cfg w s ev s') (hh : s'.Healthy) :
    (s'.store = s.store ∧ ∀ ad ∈ ev.settled,
        cfg.store.has s.store ad.contentKey ad.payloadHash = .ok true) ∨
      ∃ f ad r, ev = .commit f ad r ∧
        cfg.store.commit s.store ad.contentKey ad.payloadHash r .returned s'.store := by
  rw [State.healthy_iff] at hh
  cases h with
  | resume _ _ hhit => exact Or.inl ⟨rfl, by simpa [Event.settled] using hhit⟩
  | commit _ hc => exact Or.inr ⟨_, _, _, rfl, hc⟩
  | commitRaises => simp [Loc.failing] at hh
  | commitDies => simp [Loc.failing] at hh
  | _ => exact Or.inl ⟨rfl, by simp [Event.settled]⟩

section
variable {I : σ → Prop} {Q : K → H → R → Prop} {w : Hooks P K H E} {items : List (CheckpointItem P)}
  {st : σ} (hst : cfg.store.Holds I Q) (hI : I st)
include hst hI

/-- The invariant of the store, along a run. -/
theorem ResultStore.Holds.run (hb : begin w items st = .ok s₀)
    (hr : Lts.Run (cfg.step W) s₀ tr s) (hQ : Commits Q tr) (hh : s.Healthy) : I s.store := by
  induction hr with
  | nil =>
    obtain ⟨-, -, h₀⟩ := begin_ok hb
    rw [h₀]
    exact hI
  | snoc _ hs ih =>
    obtain ⟨w', -, h⟩ := hs
    have hinv := ih hQ.left (h.healthy_back hh).1
    rcases h.store hh with ⟨he, -⟩ | ⟨f, ad, r, rfl, hc⟩
    · rw [he]
      exact hinv
    · exact hst.inv hinv hQ.last hc

/-- What was resumed or committed is still a hit. -/
theorem settled_hits (hb : begin w items st = .ok s₀) (hr : Lts.Run (cfg.step W) s₀ tr s)
    (hQ : Commits Q tr) (hh : s.Healthy) {ad : Admitted P K H}
    (had : ad ∈ tr.flatMap Event.settled) :
    cfg.store.has s.store ad.contentKey ad.payloadHash = .ok true := by
  induction hr with
  | nil => simp at had
  | @snoc tr s ev s' hr hs ih =>
    have hL := (Ledger.run hb (hr.snoc hs)).2
    obtain ⟨w', -, h⟩ := hs
    have hh' := (h.healthy_back hh).1
    have hinv := hst.run hI hb hr hQ.left hh'
    rw [List.flatMap_append, List.mem_append, List.flatMap_singleton] at had
    rcases h.store hh with ⟨he, hset⟩ | ⟨f, ad', r, rfl, hc⟩
    · rw [he]
      exact had.elim (ih hQ.left hh') (hset ad)
    · rcases had with had | had
      · refine hst.kept hinv hQ.last (ih hQ.left hh' had) hc fun hkey => ?_
        have hnd := hL.nodup_leaves
        simp only [hL.leaves_healthy hh, List.flatMap_append, List.flatMap_singleton, Event.settled,
          List.map_append, List.nodup_append] at hnd
        exact hnd.2.1.2.2 _ (List.mem_map_of_mem had) _ (List.mem_map_of_mem (by simp)) hkey.symm
      · simp only [Event.settled, List.mem_singleton] at had
        rw [had]; exact hst.commit_hit hinv hQ.last hc

end

end

/-! ## Nothing is lost or duplicated -/

section
variable [LinearOrder K] {cfg : Config σ K H R E} {w : Hooks P K H E}
  {W : Set (World P K H E)} {items : List (CheckpointItem P)} {st : σ} {s₀ s : State σ P K H R E}
  {tr : List (Event P K H R E)}

/-- A run that returned left its loop, and reports its counters. -/
theorem outcome_ok {mode : CombineMode R E A O} {res : CheckpointResult O}
    (h : outcome cfg mode s = some (.ok res)) :
    s.loc = .done ∧ ∃ frame, res =
      { frame, attempts := s.c.attemptsTotal, committedKeys := s.c.committed,
        resumedKeys := s.c.resumed, transientRetries := s.c.transientRetries,
        splits := s.c.splits } := by
  unfold outcome at h
  split at h
  · cases h
  · rename_i hd
    refine ⟨hd, ?_⟩
    split at h
    · cases h
    · split at h
      · cases h
      · cases h; exact ⟨_, rfl⟩
  · cases h

/-- The target set is the set of the leaves, under their own hashes. -/
theorem targets_leaves (hb : begin w items st = .ok s₀) (hr : Lts.Run (cfg.step W) s₀ tr s) :
    ((leaves s.c tr).map (·.contentKey)).Nodup ∧
      ((leaves s.c tr).map (·.contentKey)).toFinset = s.c.terminalKeys ∧
      (∀ k, k ∈ s.c.terminalKeys ↔ ∃ h, s.c.terminalHash k = some h) ∧
      ∀ k h, s.c.terminalHash k = some h →
        ∃ ad ∈ nodes s₀.c.ready tr, ad.contentKey = k ∧ ad.payloadHash = h := by
  obtain ⟨-, hL⟩ := Ledger.run hb hr
  refine ⟨hL.nodup_leaves, hL.keys.symm, fun k => ?_, fun k h he => ?_⟩
  · rw [← Option.ne_none_iff_exists', hL.hash.ne_none, hL.keys]
    simp
  · obtain ⟨a, ha, hk, hv⟩ := (hL.hash k h).1 he
    exact ⟨a, hL.leaf ha, hk, hv⟩

/-- A run that left its loop has settled every terminal key. -/
theorem done_settled (hb : begin w items st = .ok s₀) (hr : Lts.Run (cfg.step W) s₀ tr s)
    (hd : s.loc = .done) :
    s.Healthy ∧ s.c.ready = [] ∧ s.c.delayed = [] ∧ s.c.inflight = [] ∧
      leaves s.c tr = tr.flatMap Event.settled := by
  obtain ⟨hw, hL⟩ := Ledger.run hb hr
  obtain ⟨hbusy, hf⟩ := hw.ended (by rw [hd]; trivial)
  simp only [Coord.busy, not_or, not_not] at hbusy
  obtain ⟨h₁, h₂, h₃⟩ := hbusy
  have hh : s.Healthy := ⟨hf, by rw [hd]; exact id⟩
  refine ⟨hh, h₁, h₂, h₃, ?_⟩
  simp [hL.leaves_healthy hh, Coord.work, h₁, h₂, h₃]

/-- The stitch runs over the settled items, in ascending order of their keys. -/
theorem expected_eq (hb : begin w items st = .ok s₀) (hr : Lts.Run (cfg.step W) s₀ tr s)
    (hd : s.loc = .done) :
    ∃ stitched : List (Admitted P K H), stitched.Perm (tr.flatMap Event.settled) ∧
      stitched.map (·.contentKey) = s.c.terminalKeys.sort (· ≤ ·) ∧
      s.c.expected = some (stitched.map fun ad => (ad.contentKey, ad.payloadHash)) := by
  obtain ⟨-, hL⟩ := Ledger.run hb hr
  obtain ⟨hh, -, -, -, hleaf⟩ := done_settled hb hr hd
  have hnd := hL.nodup_leaves
  rw [hleaf] at hnd
  have hex : ∀ k ∈ s.c.terminalKeys.sort (· ≤ ·), ∃ ad : Admitted P K H,
      ad ∈ tr.flatMap Event.settled ∧ ad.contentKey = k := by
    intro k hk
    rw [Finset.mem_sort, hL.keys, List.mem_toFinset, List.mem_map, hleaf] at hk
    exact hk
  obtain ⟨stitched, hp⟩ := List.exists_forall₂ hex
  have hkeys : stitched.map (·.contentKey) = s.c.terminalKeys.sort (· ≤ ·) := by
    have hk := List.forall₂_map_right_iff.2 (hp.imp fun _ _ h => h.2.symm)
    rw [List.forall₂_eq_eq_eq] at hk; exact hk.symm
  have hmem : ∀ ad ∈ stitched, ad ∈ tr.flatMap Event.settled := fun ad had => by
    obtain ⟨k, -, h, -⟩ := hp.mem_right had
    exact h
  refine ⟨stitched, ?_, hkeys, ?_⟩
  · refine (List.perm_ext_iff_of_nodup ?_ hnd.of_map).2 fun ad => ⟨hmem ad, fun had => ?_⟩
    · refine List.Nodup.of_map (·.contentKey) ?_
      rw [hkeys]; exact Finset.sort_nodup ..
    · have hk : ad.contentKey ∈ stitched.map (·.contentKey) := by
        rw [hkeys, Finset.mem_sort, hL.keys, hleaf]
        exact List.mem_toFinset.2 (List.mem_map_of_mem had)
      obtain ⟨b, hb, hbk⟩ := List.mem_map.1 hk
      rwa [← List.inj_on_of_nodup_map hnd (hmem b hb) had hbk]
  · refine Option.mapM_eq_some.2 ?_
    rw [← hkeys, List.forall₂_map_left_iff, List.forall₂_map_right_iff, List.forall₂_same]
    intro ad had
    rw [(hL.hash _ _).2 ⟨ad, hleaf ▸ hmem ad had, rfl, rfl⟩]; rfl

section
variable {I : σ → Prop} {Q : K → H → R → Prop}

/-- The settled items can be loaded, and stitched. -/
theorem settled_loads (hkeeps : cfg.store.Keeps I Q) (hI : I st) (hb : begin w items st = .ok s₀)
    (hr : Lts.Run (cfg.step W) s₀ tr s) (hQ : Commits Q tr) (hh : s.Healthy)
    {stitched : List (Admitted P K H)} (hp : stitched.Perm (tr.flatMap Event.settled)) :
    ∃ results,
      List.Forall₂ (fun ad r => cfg.store.load s.store ad.contentKey ad.payloadHash = .ok r)
        stitched results ∧
      ∀ mode : CombineMode R E A O, stitch cfg.store s.store mode
        (stitched.map fun ad => (ad.contentKey, ad.payloadHash)) = mode.over results := by
  have hload : ∀ ad ∈ stitched, ∃ r,
      cfg.store.load s.store ad.contentKey ad.payloadHash = .ok r := fun ad had =>
    hkeeps.hit_loads (hkeeps.run hI hb hr hQ hh)
      (settled_hits hkeeps.toHolds hI hb hr hQ hh (hp.mem_iff.1 had))
  obtain ⟨results, hres⟩ := List.exists_forall₂ hload
  exact ⟨results, hres, stitch_eq (List.forall₂_map_left_iff.2 hres)⟩

/-- A complete run returns if the stitch never raises. -/
theorem outcome_returns (mode : CombineMode R E A O) (hkeeps : cfg.store.Keeps I Q) (hI : I st)
    (hb : begin w items st = .ok s₀) (hr : Lts.Run (cfg.step W) s₀ tr s) (hQ : Commits Q tr)
    (hd : s.loc = .done) (hmode : ∀ results, ∃ o, mode.over results = .ok o) :
    ∃ res, outcome cfg mode s = some (.ok res) := by
  obtain ⟨stitched, hp, -, he⟩ := expected_eq hb hr hd
  obtain ⟨results, -, hstitch⟩ :=
    settled_loads (A := A) (O := O) hkeeps hI hb hr hQ (done_settled hb hr hd).1 hp
  obtain ⟨o, ho⟩ := hmode results
  simp only [outcome, hd, he, hstitch mode, ho]
  exact ⟨_, rfl⟩

end

/-- **No item is lost or duplicated.**  In a healthy state the queues and the
    settled keys partition the target set.  When the loop is over all of it is
    settled, and the stitch runs over one result for each terminal key. -/
theorem no_item_lost (hb : begin w items st = .ok s₀) (hr : Lts.Run (cfg.step W) s₀ tr s) :
    (s.Healthy →
      (s.c.ready.map (·.contentKey) ++ s.c.delayed.map (·.ad.contentKey) ++
        s.c.inflight.map (·.ad.contentKey) ++
        (tr.flatMap Event.settled).map (·.contentKey)).Nodup ∧
      (s.c.ready.map (·.contentKey) ++ s.c.delayed.map (·.ad.contentKey) ++
        s.c.inflight.map (·.ad.contentKey) ++
        (tr.flatMap Event.settled).map (·.contentKey)).toFinset = s.c.terminalKeys ∧
      (∀ k, k ∈ s.c.terminalKeys ↔ ∃ h, s.c.terminalHash k = some h) ∧
      (∀ k h, s.c.terminalHash k = some h →
        ∃ ad ∈ nodes s₀.c.ready tr, ad.contentKey = k ∧ ad.payloadHash = h) ∧
      (s.c.inflight.length : ℤ) ≤ max 1 cfg.concurrency) ∧
    (s.loc = .done →
      s.c.ready = [] ∧ s.c.delayed = [] ∧ s.c.inflight = [] ∧
      (∀ k ∈ s.c.terminalKeys, ∃ ad ∈ tr.flatMap Event.settled, ad.contentKey = k) ∧
      ∃ stitched : List (Admitted P K H), stitched.Perm (tr.flatMap Event.settled) ∧
        stitched.map (·.contentKey) = s.c.terminalKeys.sort (· ≤ ·) ∧
        s.c.expected = some (stitched.map fun ad => (ad.contentKey, ad.payloadHash)) ∧
        (∀ (I : σ → Prop) (Q : K → H → R → Prop), cfg.store.Keeps I Q → I st → Commits Q tr →
          ∃ results, List.Forall₂
            (fun ad r => cfg.store.load s.store ad.contentKey ad.payloadHash = .ok r)
            stitched results ∧
          ∀ mode : CombineMode R E A O,
            stitch cfg.store s.store mode
              (stitched.map fun ad => (ad.contentKey, ad.payloadHash)) = mode.over results)) := by
  obtain ⟨hw, hL⟩ := Ledger.run hb hr
  constructor
  · intro hh
    obtain ⟨h₁, h₂, h₃, h₄⟩ := targets_leaves hb hr
    have hmap : (leaves s.c tr).map (·.contentKey) =
        s.c.ready.map (·.contentKey) ++ s.c.delayed.map (·.ad.contentKey) ++
          s.c.inflight.map (·.ad.contentKey) ++ (tr.flatMap Event.settled).map (·.contentKey) := by
      simp [hL.leaves_healthy hh, Coord.work, Function.comp_def]
    rw [← hmap]
    refine ⟨h₁, h₂, h₃, h₄, ?_⟩
    have := hw.pool.workers
    simp only [Config.maxWorkers, Coord.pool, List.length_map] at this; omega
  · intro hd
    obtain ⟨hh, hr₁, hr₂, hr₃, hleaf⟩ := done_settled hb hr hd
    obtain ⟨stitched, hp, hkeys, hexp⟩ := expected_eq hb hr hd
    refine ⟨hr₁, hr₂, hr₃, fun k hk => ?_, stitched, hp, hkeys, hexp,
      fun I Q hkeeps hI hQ => settled_loads hkeeps hI hb hr hQ hh hp⟩
    rw [hL.keys, hleaf, List.mem_toFinset, List.mem_map] at hk
    exact hk

end

/-! ## A sample job -/

/-- A store in memory. -/
def memStore : ResultStore (List (ℕ × ℕ)) ℕ ℕ ℕ Bool where
  has s k _ := .ok (s.lookup k).isSome
  load s k _ :=
    match s.lookup k with
    | some r => .ok r
    | none => .error false
  commit s k _ r e s' := e = .returned ∧ s' = (k, r) :: s
  cleanup _ := []

def memCommit (s : List (ℕ × ℕ)) (k _ r : ℕ) : Ended Bool × List (ℕ × ℕ) :=
  (.returned, (k, r) :: s)

theorem memCommit_spec (s : List (ℕ × ℕ)) (k h r : ℕ) :
    memStore.commit s k h r (memCommit s k h r).1 (memCommit s k h r).2 := ⟨rfl, rfl⟩

theorem memStore_keeps : memStore.Keeps (fun _ => True) (fun _ _ _ => True) where
  hit_loads {s k h} _ hh := by
    simp only [memStore, Except.ok.injEq, Option.isSome_iff_exists] at hh ⊢
    obtain ⟨r, hr⟩ := hh
    exact ⟨r, by rw [hr]⟩
  commit_hit {s k h r s'} _ _ hc := by
    obtain ⟨-, rfl⟩ := hc
    simp [memStore]
  inv _ _ _ := trivial
  kept {s k h k' h' r s'} _ _ hh hc hne := by
    obtain ⟨-, rfl⟩ := hc
    have hk : (k == k') = false := by simpa using Ne.symm hne
    simpa [memStore, List.lookup_cons, hk] using hh

def sampleConfig : Config (List (ℕ × ℕ)) ℕ ℕ ℕ Bool :=
  { store := memStore, retry := {}, concurrency := 2, isException := fun _ => true }

/-- A payload is a list of digits, its key the number they write.  The exception
    `true` is an OOM, on which a payload is split into halves; `false` is
    transient. -/
def sampleWorld : World (List ℕ) ℕ ℕ Bool where
  contentKeyFn ds := .ok (ds.foldl (fun n d => 10 * n + d) 0, ds.length)
  isOom e := .ok e
  isTransient e := .ok !e
  splitPolicy := some ⟨fun e _ => .ok e, fun item => .ok
    [{ payload := item.payload.take (item.payload.length / 2) },
      { payload := item.payload.drop (item.payload.length / 2) }]⟩
  splitSizeFn item := .ok item.payload.length
  retryAfterFn := none
  monotonic := 0
  uniform a _ := a

/-- The payload `12` runs out of memory; of its halves `1` is cached and `2` runs. -/
def samplePlay :=
  playFrom sampleConfig memCommit sampleWorld [⟨[1, 2], {}⟩] [(1, 10)]
    [.go, .go, .go, .ends 0 (.error true), .go [0], .go, .go, .go, .go, .go, .go, .go, .go,
      .ends 1 (.ok 20), .go [1], .go, .go, .go, .go, .go, .go]

theorem samplePlay_isSome : samplePlay.isSome := by decide

/-- Its start, its trace and its end. -/
def sample := samplePlay.get samplePlay_isSome

theorem sample_run : begin sampleWorld.toHooks [⟨[1, 2], {}⟩] [(1, 10)] = .ok sample.1 ∧
    Lts.Run (sampleConfig.step {sampleWorld}) sample.1 sample.2.1 sample.2.2 :=
  playFrom_sound memCommit_spec (Option.some_get samplePlay_isSome).symm

theorem no_item_lost_sample :
    sample.2.2.c.ready = [] ∧ ∃ stitched results, sample.2.2.c.expected = some stitched ∧
      List.Forall₂ (fun p r => memStore.load sample.2.2.store p.1 p.2 = .ok r) stitched results := by
  obtain ⟨hr, -, -, -, stitched, -, -, he, h⟩ :=
    (no_item_lost (A := Unit) (O := Unit) sample_run.1 sample_run.2).2 rfl
  obtain ⟨results, hres, -⟩ := h _ _ memStore_keeps trivial fun _ _ _ _ => trivial
  exact ⟨hr, _, results, he, List.forall₂_map_left_iff.2 hres⟩

end ResumableBatch
