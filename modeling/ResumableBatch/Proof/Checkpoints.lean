/-
  Checkpoints across runs: what is a hit when a run starts, and what it commits,
  is a hit ever after, however the run and all later ones end
  (`checkpoints_never_lost`).
-/
import ResumableBatch.Proof.Interrupt
import ResumableBatch.Proof.Reopen

namespace ResumableBatch

open Text Json

/-! ## The store in a step -/

section
variable {P K H R E σ : Type} [DecidableEq K] {cfg : Config σ K H R E} {w : World P K H E}
  {s s' : State σ P K H R E} {ev : Event P K H R E}

/-- A step leaves the store alone, or commits the result of a call in flight. -/
theorem Step.store_cases (h : Step cfg w s ev s') : s'.store = s.store ∨
    ∃ f ad r pre post ended, s.c.inflight = pre ++ ⟨f, ad, .finished (.ok r)⟩ :: post ∧
      s'.c.inflight = pre ++ post ∧
      cfg.store.commit s.store ad.contentKey ad.payloadHash r ended s'.store := by
  cases h with
  | commit hi hc => exact Or.inr ⟨_, _, _, _, _, _, hi, rfl, hc⟩
  | commitRaises hi hc => exact Or.inr ⟨_, _, _, _, _, _, hi, rfl, hc⟩
  | commitDies hi hc => exact Or.inr ⟨_, _, _, _, _, _, hi, rfl, hc⟩
  | _ => exact Or.inl rfl

/-- No two calls in flight have one key. -/
theorem Ledger.inflight_nodup {roots : List (Admitted P K H)} {tr : List (Event P K H R E)}
    (hL : Ledger roots tr s) : (s.c.inflight.map (·.ad.contentKey)).Nodup := by
  have hnd := hL.nodup_leaves
  rw [leaves, Coord.work, List.map_append, List.map_append, List.map_append] at hnd
  have := hnd.of_append_left.of_append_left.of_append_right
  rwa [List.map_map] at this

end

variable {F P R E : Type} [DecidableEq F] {S : Setup F R E} {fingerprint key hash : Str} {r : R}

/-! ## Vouched checkpoints -/

/-- A checkpoint is loaded from the instance, and from the directory without it. -/
structure Vouched (S : Setup F R E) (fingerprint key hash : Str) (r : R) (s : Store F) : Prop where
  entries : EntriesOk s.entries
  loaded : load S fingerprint s key hash = .ok r
  disk : OnDisk S fingerprint s.disk key hash r

namespace Vouched

variable {s s' : Store F}

/-- A key with a checkpoint is no miss under any hash. -/
theorem not_missed (hC : S.codec.ReadsBack) (h : Vouched S fingerprint key hash r s) (hash' : Str) :
    has S fingerprint s key hash' ≠ .ok false := by
  by_cases hh : hash' = hash
  · rw [hh, (has_true hC.missing).2 ⟨r, h.loaded⟩]
    simp
  · obtain ⟨info, entry, hit⟩ := load_ok.1 h.loaded
    have hc : entryCollides entry hash' = true := by
      rw [entryCollides, hit.entry_hash]
      simpa using fun he => hh he.symm
    rw [has_entry hit.entry_at, hc]
    simp

/-- A commit of another key keeps it, however it ends. -/
theorem commit_ne (hC : S.codec.ReadsBack) (h : Vouched S fingerprint key hash r s)
    {k payloadHash : Str} {result : R} {draw : Draw F} {ended : Ended (Exc F E)}
    (hcommit : Committed S fingerprint k payloadHash result draw s s' ended) (hk : key ≠ k) :
    Vouched S fingerprint key hash r s' := by
  refine ⟨hcommit.entriesOk hC h.entries, ?_,
    hcommit.onDisk_ne hC h.entries hk h.loaded fun _ _ => h.disk⟩
  rw [hcommit.load_ne hC.apart hk]
  exact h.loaded

/-- **A commit that returns vouches for its result**, as it is read back. -/
theorem of_commit (hC : S.codec.ReadsBack) (he : EntriesOk s.entries) {result : R} {draw : Draw F}
    {fates : List (Fate F E)} (hstable : S.codec.Stable result r)
    (h : (commit S fingerprint key hash result draw).run s fates = (.returned, s')) :
    Vouched S fingerprint key hash r s' := by
  obtain ⟨pub, b, hb, hentry, hd⟩ := commit_returned hC.apart h
  have hload := pub.load_published hC hstable hb hentry hd
  exact ⟨(commit_cases h).entriesOk hC he, hload, onDisk_committed hC he h hload⟩

end Vouched

/-! ## Along a run -/

section
variable {cfg : Config (Store F) Str Str R (Exc F E)} {w : World P Str Str (Exc F E)}
  {W : Set (World P Str Str (Exc F E))} {s s' s₀ : State (Store F) P Str Str R (Exc F E)}
  {ev : Event P Str Str R (Exc F E)} {tr : List (Event P Str Str R (Exc F E))}

/-- The checkpoint is vouched for, and no call for its key is in flight. -/
structure Guarded (S : Setup F R E) (fingerprint key hash : Str) (r : R)
    (s : State (Store F) P Str Str R (Exc F E)) : Prop where
  vouched : Vouched S fingerprint key hash r s.store
  idle : ∀ x ∈ s.c.inflight, x.ad.contentKey ≠ key

/-- **A step keeps a checkpoint**, and does not submit its key. -/
theorem Guarded.step (hC : S.codec.ReadsBack) (hcfg : cfg.store = manifestStore S fingerprint)
    (hg : Guarded S fingerprint key hash r s) (h : Step cfg w s ev s') :
    Guarded S fingerprint key hash r s' ∧ ∀ f ad, ev = .submit f ad → ad.contentKey ≠ key := by
  have hsubmit : ∀ f ad, ev = .submit f ad → ad.contentKey ≠ key := by
    rintro f ad rfl hkey
    have hmiss := h.submit_inv.1
    rw [hcfg, hkey] at hmiss
    exact hg.vouched.not_missed hC _ hmiss
  refine ⟨⟨?_, fun x hx => ?_⟩, hsubmit⟩
  · rcases h.store_cases with hs | ⟨f, ad, r', pre, post, ended, hi, -, hcommit⟩
    · rw [hs]
      exact hg.vouched
    · rw [hcfg] at hcommit
      obtain ⟨draw, fates, -, hrun⟩ := hcommit
      have hx : ⟨f, ad, .finished (.ok r')⟩ ∈ s.c.inflight := by rw [hi]; simp
      exact hg.vouched.commit_ne hC (commit_cases hrun) (hg.idle _ hx).symm
  · rcases h.calls hx with hold | ⟨he, -⟩ | ⟨hold, -⟩
    · exact hg.idle x hold
    · exact hsubmit _ _ he
    · have hne := hg.idle _ hold
      exact hne

theorem Guarded.run (hC : S.codec.ReadsBack) (hcfg : cfg.store = manifestStore S fingerprint)
    (hg : Guarded S fingerprint key hash r s₀) (h : Lts.Run (cfg.step W) s₀ tr s) :
    Guarded S fingerprint key hash r s ∧ ∀ f ad, .submit f ad ∈ tr → ad.contentKey ≠ key := by
  refine h.inv (fun tr s => Guarded S fingerprint key hash r s ∧
    ∀ f ad, .submit f ad ∈ tr → ad.contentKey ≠ key) ⟨hg, nofun⟩ ?_
  rintro tr s ev s' - ⟨hg, hsub⟩ ⟨w, -, hs⟩
  obtain ⟨hg', hev⟩ := hg.step hC hcfg hs
  refine ⟨hg', fun f ad hf => ?_⟩
  rcases List.mem_append.1 hf with hf | hf
  · exact hsub f ad hf
  · exact hev f ad (List.mem_singleton.1 hf).symm

/-- Nothing is in flight when a run starts. -/
theorem Guarded.begin {w : Hooks P Str Str (Exc F E)} {items : List (CheckpointItem P)}
    {st : Store F} (hb : begin w items st = .ok s₀) (h : Vouched S fingerprint key hash r st) :
    Guarded S fingerprint key hash r s₀ := by
  obtain ⟨-, -, h₀⟩ := begin_ok hb
  rw [h₀]
  exact ⟨h, nofun⟩

/-- What a run commits is guarded from then on. -/
theorem Guarded.of_commit (hC : S.codec.ReadsBack) (hcfg : cfg.store = manifestStore S fingerprint)
    (he : EntriesOk s.store.entries) {roots : List (Admitted P Str Str)} (hL : Ledger roots tr s)
    {f : Future} {ad : Admitted P Str Str} {result : R} (hstable : S.codec.Stable result r)
    (h : Step cfg w s (.commit f ad result) s') :
    Guarded S fingerprint ad.contentKey ad.payloadHash r s' := by
  obtain ⟨pre, post, hi, hi', hcommit⟩ := h.commit_inv
  rw [hcfg] at hcommit
  obtain ⟨draw, fates, -, hrun⟩ := hcommit
  refine ⟨.of_commit hC he hstable hrun, fun x hx hkey => ?_⟩
  have hnd := hL.inflight_nodup
  rw [hi, List.map_append, List.map_cons, List.nodup_middle, ← List.map_append,
    List.nodup_cons] at hnd
  rw [hi'] at hx
  exact hnd.1 (List.mem_map.2 ⟨x, hx, hkey⟩)

theorem entriesOk_run (hC : S.codec.ReadsBack) (hcfg : cfg.store = manifestStore S fingerprint)
    (he : EntriesOk s₀.store.entries) (h : Lts.Run (cfg.step W) s₀ tr s) :
    EntriesOk s.store.entries := by
  refine h.inv (fun _ s => EntriesOk s.store.entries) he ?_
  rintro tr s ev s' - he ⟨w, -, hs⟩
  rcases hs.store_cases with hsame | ⟨f, ad, r', pre, post, ended, -, -, hcommit⟩
  · rw [hsame]
    exact he
  · rw [hcfg] at hcommit
    obtain ⟨draw, fates, -, hrun⟩ := hcommit
    exact (commit_cases hrun).entriesOk hC he

end

/-! ## After the run -/

/-- What may happen to the directory later: opens that end in any way, and runs that do;
    `live` tells whether the store is an instance that can be used. -/
inductive After (S : Setup F R E) (fingerprint : Str) (P : Type) (live₀ : Prop) (st₀ : Store F) :
    Prop → Store F → Prop where
  | start : After S fingerprint P live₀ st₀ live₀ st₀
  | opened {live : Prop} {st s s' : Store F} {held : Bool} {draw : Draw F} {fates : List (Fate F E)}
      {ended : Ended (Exc F E)} : After S fingerprint P live₀ st₀ live st → s.disk = st.disk →
      (openStore S fingerprint held draw).run s fates = (ended, s') →
      After S fingerprint P live₀ st₀ (ended = .returned) s'
  | ran {live : Prop} {st : Store F} {cfg : Config (Store F) Str Str R (Exc F E)}
      {w : Hooks P Str Str (Exc F E)} {W : Set (World P Str Str (Exc F E))}
      {items : List (CheckpointItem P)} {s₀ s : State (Store F) P Str Str R (Exc F E)}
      {tr : List (Event P Str Str R (Exc F E))} : After S fingerprint P live₀ st₀ live st → live →
      cfg.store = manifestStore S fingerprint → begin w items st = .ok s₀ →
      Lts.Run (cfg.step W) s₀ tr s → After S fingerprint P live₀ st₀ (s.loc ≠ .dead) s.store

section
variable {live₀ live : Prop} {st₀ st : Store F}

/-- **What is vouched for stays so for good.** -/
theorem After.vouched (hC : S.codec.ReadsBack) (hkey : ¬ tmpLike key)
    (h : After S fingerprint P live₀ st₀ live st)
    (h₀ : Vouched S fingerprint key hash r st₀) :
    OnDisk S fingerprint st.disk key hash r ∧ (live → Vouched S fingerprint key hash r st) := by
  induction h with
  | start => exact ⟨h₀.disk, fun _ => h₀⟩
  | opened _ hd hopen ih =>
    have hcases := (open_cases hopen).1
    obtain ⟨hdisk, hload⟩ := ih.1.after_open hC.apart hkey hd hcases
    refine ⟨hdisk, fun hret => ⟨?_, hload hret, hdisk⟩⟩
    subst hret
    exact hcases.entriesOk
  | ran _ hlive hcfg hb hrun ih =>
    have hg := ((Guarded.begin hb (ih.2 hlive)).run hC hcfg hrun).1
    exact ⟨hg.vouched.disk, fun _ => hg.vouched⟩

/-- `has` is true, and `load` returns the result. -/
def Found (S : Setup F R E) (fingerprint key hash : Str) (r : R) (s : Store F) : Prop :=
  has S fingerprint s key hash = .ok true ∧ load S fingerprint s key hash = .ok r

/-- The checkpoints that a run must not lose: those found before, but for the keys that an
    interrupted commit left to the instance alone, and those it commits. -/
inductive Saved (S : Setup F R E) (fingerprint : Str) (left : Set Str) (st : Store F)
    (tr : List (Event P Str Str R (Exc F E))) : Str → Str → R → Prop where
  | before {key hash : Str} {r : R} : Found S fingerprint key hash r st → key ∉ left →
      Saved S fingerprint left st tr key hash r
  | during {f : Future} {ad : Admitted P Str Str} {result r : R} : .commit f ad result ∈ tr →
      S.codec.Stable result r → Saved S fingerprint left st tr ad.contentKey ad.payloadHash r

theorem Saved.vouched (hC : S.codec.ReadsBack) {cfg : Config (Store F) Str Str R (Exc F E)}
    (hcfg : cfg.store = manifestStore S fingerprint) {left : Set Str}
    (hst : Instance S fingerprint left st) {w : Hooks P Str Str (Exc F E)}
    {W : Set (World P Str Str (Exc F E))} {items : List (CheckpointItem P)}
    {s₀ s : State (Store F) P Str Str R (Exc F E)} {tr : List (Event P Str Str R (Exc F E))}
    (hb : begin w items st = .ok s₀) (hr : Lts.Run (cfg.step W) s₀ tr s)
    (h : Saved S fingerprint left st tr key hash r) : Vouched S fingerprint key hash r s.store := by
  have hstore : s₀.store = st := by
    obtain ⟨-, -, h₀⟩ := begin_ok hb
    rw [h₀]
  have hlive := hst.live hC
  cases h with
  | before hfound hnotin =>
    have hst : Vouched S fingerprint key hash r st :=
      ⟨hlive.entries, hfound.2, hlive.vouched hnotin hfound.2⟩
    exact ((Guarded.begin hb hst).run hC hcfg hr).1.vouched
  | during hmem hstable =>
    obtain ⟨tr₁, tr₂, s₁, s₂, rfl, h₁, ⟨w', -, hs⟩, h₂⟩ := hr.step_of_mem hmem
    have he : EntriesOk s₁.store.entries :=
      entriesOk_run hC hcfg (hstore ▸ hlive.entries) h₁
    exact ((Guarded.of_commit hC hcfg he (Ledger.run hb h₁).2 hstable hs).run hC hcfg h₂).1.vouched

/-- **Checkpoints are never lost**, but for those that only the instance knows of.
    However a run ends or is cut off, what was found before it, unless an interrupted
    commit left it, and what it committed is found with the same result after it, by the
    instance while it lives and by every store opened later, whatever opens and runs come
    in between and however they end; and no later run executes it.  The store of JSON
    lines keeps the contract that this rests on, for lists of JSON values that `_check`
    can encode. -/
theorem checkpoints_never_lost (hC : S.codec.ReadsBack)
    {cfg : Config (Store F) Str Str R (Exc F E)} (hcfg : cfg.store = manifestStore S fingerprint)
    {left : Set Str} (hst : Instance S fingerprint left st) {w : Hooks P Str Str (Exc F E)}
    {W : Set (World P Str Str (Exc F E))} {items : List (CheckpointItem P)}
    {s₀ s : State (Store F) P Str Str R (Exc F E)} {tr : List (Event P Str Str R (Exc F E))}
    (hb : begin w items st = .ok s₀) (hr : Lts.Run (cfg.step W) s₀ tr s)
    {A O : Type} (mode : CombineMode R (Exc F E) A O) (hclean : cfg.cleanupOnSuccess = false)
    (hkey : ∀ c ∈ key, isHexChar c) (h : Saved S fingerprint left st tr key hash r) :
    (∀ live t, After S fingerprint P (s.loc ≠ .dead) (storeAfter cfg mode s) live t →
      (live → Found S fingerprint key hash r t) ∧
      (∀ draw, ∃ t', (openStore S fingerprint true draw).run t [] = (.returned, t')) ∧
      (live → ∀ (cfg' : Config (Store F) Str Str R (Exc F E)) (w' : Hooks P Str Str (Exc F E))
        (W' : Set (World P Str Str (Exc F E))) (items' : List (CheckpointItem P))
        (s₀' s' : State (Store F) P Str Str R (Exc F E)) (tr' : List (Event P Str Str R (Exc F E))),
        cfg'.store = manifestStore S fingerprint → begin w' items' t = .ok s₀' →
        Lts.Run (cfg'.step W') s₀' tr' s' → ∀ f ad, .submit f ad ∈ tr' → ad.contentKey ≠ key)) ∧
    ∀ (I : Interp F), (jsonlCodec (E := E) I none).ReadsBack ∧
      ∀ records : List (PyVal F), (∀ rec ∈ records, rec.IsJson) →
        (∀ rec ∈ records, rec.depth ≤ I.innerDepth) →
        (jsonlCodec (E := E) I none).Stable records (records.map Value.sortKeys) := by
  have hnot := not_tmpLike_hex hkey
  have hafter : storeAfter cfg mode s = s.store := by
    rw [storeAfter, hclean]
    split <;> rfl
  have hvouched := h.vouched hC hcfg hst hb hr
  refine ⟨fun live t ht => ?_, fun I => ⟨jsonl_readsBack I none,
    fun records hjson hdepth => jsonl_stable hjson hdepth fun _ => rfl⟩⟩
  obtain ⟨hdisk, hlive⟩ := ht.vouched hC hnot (hafter ▸ hvouched)
  refine ⟨fun hl => ⟨(has_true hC.missing).2 ⟨r, (hlive hl).loaded⟩, (hlive hl).loaded⟩,
    fun draw => ?_, fun hl cfg' w' W' items' s₀' s' tr' hcfg' hb' hr' => ?_⟩
  · obtain ⟨D, hD, -⟩ := hdisk
    obtain ⟨t', hrun, -⟩ := open_returns draw hst.fingerprint_ne hD
    exact ⟨t', hrun⟩
  · exact ((Guarded.begin hb' (hlive hl)).run hC hcfg' hr').2

end

/-! ### One item -/

def cacheConfig : Config (Store Half) Str Str (List (PyVal Half)) (Exc Half Bool) :=
  { store := manifestStore (plainSetup none) (lit "f"), retry := {}, isException := fun _ => true }

/-- Every payload has the key `a` and the hash `h`. -/
def cacheWorld : World Unit Str Str (Exc Half Bool) where
  contentKeyFn _ := .ok (lit "a", lit "h")
  isOom _ := .ok false
  isTransient _ := .ok false
  splitPolicy := none
  splitSizeFn _ := .ok 1
  retryAfterFn := none
  monotonic := 0
  uniform a _ := a

def cacheItem : Admitted Unit Str Str :=
  { item := ⟨(), {}⟩, contentKey := lit "a", payloadHash := lit "h" }

/-- An item that is not in the cache is executed, and its result committed. -/
theorem cache_run {st st' : Store Half} (hnew : st.entries = ∅)
    (hcommit : (commit (plainSetup none) (lit "f") (lit "a") (lit "h") plainRecords plainDraw).run
      st [] = (.returned, st')) : ∃ s₀ s tr, begin cacheWorld.toHooks [⟨(), {}⟩] st = .ok s₀ ∧
      Lts.Run (cacheConfig.step {cacheWorld}) s₀ tr s ∧ .commit 0 cacheItem plainRecords ∈ tr ∧
        s.loc ≠ .dead := by
  have hmiss : cacheConfig.store.has st (lit "a") (lit "h") = .ok false := by
    show has (plainSetup none) (lit "f") st (lit "a") (lit "h") = .ok false
    rw [has, hnew]
    rfl
  have hfresh : plainDraw.Fresh st := .of_empty hnew
  obtain ⟨c, hb, hready, hidle, htotal, hfatal⟩ : ∃ c : Coord Unit Str Str (List (PyVal Half)) _,
      begin cacheWorld.toHooks [⟨(), {}⟩] st = .ok ⟨.head, c, st⟩ ∧ c.ready = [cacheItem] ∧
        c.inflight = [] ∧ c.attemptsTotal = 0 ∧ c.fatalExc = none := ⟨_, rfl, rfl, rfl, rfl, rfl⟩
  have hinflight (state : CallState (List (PyVal Half)) (Exc Half Bool)) :
      c.inflight ++ [⟨c.attemptsTotal, cacheItem, state⟩] = [] ++ ⟨0, cacheItem, state⟩ :: [] := by
    rw [hidle, htotal]
  have hfinished (x : Call Unit Str Str (List (PyVal Half)) (Exc Half Bool)) : x ∈ [] ++ x :: [] := by
    simp
  have step {s s' ev} (h : Step cacheConfig cacheWorld s ev s') :
      cacheConfig.step {cacheWorld} s ev s' := ⟨_, rfl, h⟩
  have h₁ : Lts.Run (cacheConfig.step {cacheWorld}) ⟨.head, c, st⟩ _ ⟨.dispatch, c, st⟩ :=
    .single (step (.enter (Or.inl (by rw [hready]; simp)) hfatal))
  have h₂ := h₁.snoc (step (.submit hready (by rw [hidle]; decide) hmiss))
  have h₃ := h₂.snoc (step (.finish (.ok plainRecords) (fun h => by cases h) (hinflight .running)))
  have h₄ := h₃.snoc (step (.toWait (Or.inl rfl) (fun h => by cases h)))
  have h₅ := h₄.snoc (step (.woke [0] (List.nodup_singleton 0) (fun f hf => by
    rw [List.mem_singleton.1 hf]
    exact ⟨_, _, hfinished _⟩) (fun h => by cases h)))
  have h₆ := h₅.snoc (step (.commit rfl ⟨plainDraw, [], hfresh, hcommit⟩))
  exact ⟨_, _, _, hb, h₆, by simp, fun h => by cases h⟩

theorem checkpoints_never_lost_sample : ∃ s : Store Half,
    (∃ s₀, (openStore (plainSetup none) (lit "f") true plainDraw).run s₀ [] = (.returned, s)) ∧
    Found (plainSetup none) (lit "f") (lit "a") (lit "h") plainRecords s := by
  have hC := jsonl_readsBack (E := Bool) Half.interp none
  obtain ⟨s, s', hopen, hcommit⟩ := plain_committed
  obtain ⟨s₀, s₁, tr, hb, hr, hmem, hlive⟩ := cache_run (entries_of_new rfl hopen) hcommit
  have hstable : (jsonlCodec (E := Bool) Half.interp none).Stable plainRecords
      (plainRecords.map Value.sortKeys) :=
    jsonl_stable plainRecords_json plainRecords_depth fun _ => rfl
  have hcfg : cacheConfig.store = manifestStore (plainSetup none) (lit "f") := rfl
  have h := (checkpoints_never_lost hC hcfg (.opened hopen) hb hr (A := Unit) (O := Unit)
    (.combine fun _ => .ok ()) rfl hex_a (.during hmem hstable)).1
  obtain ⟨t', hrun⟩ := (h _ _ .start).2.1 plainDraw
  exact ⟨t', ⟨_, hrun⟩, (h _ _ (.opened .start rfl hrun)).1 rfl⟩

/-- An item that is in the cache is not executed. -/
theorem cache_hit_run {st : Store Half}
    (hhit : has (plainSetup none) (lit "f") st (lit "a") (lit "h") = .ok true) :
    ∃ s₀ s tr, begin cacheWorld.toHooks [⟨(), {}⟩] st = .ok s₀ ∧
      Lts.Run (cacheConfig.step {cacheWorld}) s₀ tr s ∧ .resume cacheItem ∈ tr ∧
        s.loc = .done ∧ s.store = st := by
  obtain ⟨c, hb, hready, hidle, hdelayed, hfatal⟩ :
      ∃ c : Coord Unit Str Str (List (PyVal Half)) (Exc Half Bool),
      begin cacheWorld.toHooks [⟨(), {}⟩] st = .ok ⟨.head, c, st⟩ ∧ c.ready = [cacheItem] ∧
        c.inflight = [] ∧ c.delayed = [] ∧ c.fatalExc = none := ⟨_, rfl, rfl, rfl, rfl, rfl⟩
  have step {s s' ev} (h : Step cacheConfig cacheWorld s ev s') :
      cacheConfig.step {cacheWorld} s ev s' := ⟨_, rfl, h⟩
  have h₁ : Lts.Run (cacheConfig.step {cacheWorld}) ⟨.head, c, st⟩ _ ⟨.dispatch, c, st⟩ :=
    .single (step (.enter (Or.inl (by rw [hready]; simp)) hfatal))
  have h₂ := h₁.snoc (step (.resume hready (by rw [hidle]; decide) hhit))
  have h₃ := h₂.snoc (step (.toHead (Or.inl rfl) hidle hdelayed))
  have h₄ := h₃.snoc (step (.leave (by simp [Coord.busy, hidle, hdelayed]) hfatal))
  have h₅ := h₄.snoc (step (.left (by rw [hidle]; exact fun x hx => by cases hx)))
  exact ⟨_, _, _, hb, h₅, by simp, rfl, rfl⟩

/-- The manifest of the commit is not written: `KeyboardInterrupt`. -/
def interruptedFates : List (Fate Half Bool) :=
  [.done, .done, .done, .done, .raises (.raised (.other false)) .nothing]

/-- A commit is interrupted, and its entry stays in memory.  A run finds it there, skips
    its item and returns; a store opened after it does not find it. -/
theorem interrupted_commit_lost : ∃ s₁ s₂ s₃ : Store Half,
    (openStore (plainSetup none) (lit "f") true plainDraw).run ⟨∅, ∅⟩ [] = (.returned, s₁) ∧
    (commit (plainSetup none) (lit "f") (lit "a") (lit "h") plainRecords plainDraw).run s₁
      interruptedFates = (.raised (.raised (.other false)), s₂) ∧
    has (plainSetup none) (lit "f") s₂ (lit "a") (lit "h") = .ok true ∧
    (∃ s₀ s tr, begin cacheWorld.toHooks [⟨(), {}⟩] s₂ = .ok s₀ ∧
      Lts.Run (cacheConfig.step {cacheWorld}) s₀ tr s ∧ .resume cacheItem ∈ tr ∧
        s.loc = .done ∧ s.store = s₂) ∧
    (openStore (plainSetup none) (lit "f") true plainDraw).run s₂ [] = (.returned, s₃) ∧
    has (plainSetup none) (lit "f") s₃ (lit "a") (lit "h") = .ok false := by
  obtain ⟨s₁, s₂, s₃, hopen, hcommit, hhas, hopen', hhas'⟩ : ∃ s₁ s₂ s₃ : Store Half,
      (openStore (plainSetup none) (lit "f") true plainDraw).run ⟨∅, ∅⟩ [] = (.returned, s₁) ∧
      (commit (plainSetup none) (lit "f") (lit "a") (lit "h") plainRecords plainDraw).run s₁
        interruptedFates = (.raised (.raised (.other false)), s₂) ∧
      has (plainSetup none) (lit "f") s₂ (lit "a") (lit "h") = .ok true ∧
      (openStore (plainSetup none) (lit "f") true plainDraw).run s₂ [] = (.returned, s₃) ∧
      has (plainSetup none) (lit "f") s₃ (lit "a") (lit "h") = .ok false :=
    ⟨_, _, _, run_ended (by decide +kernel), run_ended (by decide +kernel), by decide +kernel,
      run_ended (by decide +kernel), by decide +kernel⟩
  exact ⟨s₁, s₂, s₃, hopen, hcommit, hhas, cache_hit_run hhas, hopen', hhas'⟩

end ResumableBatch
