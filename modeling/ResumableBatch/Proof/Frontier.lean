/-
  The terminal set is the frontier of the split forest and covers the input.
-/
import Mathlib.Algebra.BigOperators.Group.List.Basic
import ResumableBatch.Proof.Stitch

namespace ResumableBatch

variable {P K H R E σ : Type}

/-! ## Key collisions -/

section
variable [DecidableEq K] {w : Hooks P K H E} {d : ℕ}

omit [DecidableEq K] in
/-- The identity of an item is determined by its payload. -/
theorem AdmittedAs.unique {item : CheckpointItem P} {a b : Admitted P K H}
    (ha : AdmittedAs w d item a) (hb : AdmittedAs w d item b) : a = b := by
  obtain ⟨i, k, h, e⟩ := a
  obtain ⟨i', k', h', e'⟩ := b
  obtain ⟨h₁, h₂, h₃⟩ := ha
  obtain ⟨h₁', h₂', h₃'⟩ := hb
  have hk := h₂.symm.trans h₂'
  simp only [Except.ok.injEq, Prod.mk.injEq] at h₁ h₃ h₁' h₃' hk
  rw [← h₁'] at h₁
  rw [← h₃'] at h₃
  rw [h₁, hk.1, hk.2, h₃]

theorem admitItem_live {item : CheckpointItem P} {ck : K} {ph old : H} {c : Coord P K H R E}
    (hk : w.contentKeyFn item.payload = .ok (ck, ph)) (hl : c.liveMap ck = some old) :
    admitItem w item d c = .error (.contentKeyCollision ck old ph) c := by
  simp only [admitItem, EStateM.bind_error, call_ok, EStateM.get_ok]
  exact Or.inr ⟨_, _, ⟨hk, rfl⟩, Or.inr ⟨_, _, ⟨rfl, rfl⟩, by simp [hl]⟩⟩

theorem admitItem_fresh {item : CheckpointItem P} {a : Admitted P K H} {c : Coord P K H R E}
    (ha : AdmittedAs w d item a) (hl : c.liveMap a.contentKey = none) :
    admitItem w item d c = .ok a (c.register [a]) := by
  obtain ⟨item', ck, ph, d'⟩ := a
  obtain ⟨rfl, hk, rfl⟩ := ha
  simp only [admitItem, EStateM.bind_ok, call_ok, EStateM.get_ok]
  exact ⟨_, _, ⟨hk, rfl⟩, _, _, ⟨rfl, rfl⟩, by
    simp only [hl, EStateM.bind_ok, EStateM.modify_ok, EStateM.pure_ok]
    exact ⟨(), _, rfl, trivial, rfl⟩⟩

/-- A key that is live, or repeats one of the items before it, is refused. -/
theorem admitAll_collision {pre : List (CheckpointItem P)} {item : CheckpointItem P}
    (post : List (CheckpointItem P))
    {ads : List (Admitted P K H)} {ck : K} {ph : H} {c : Coord P K H R E}
    (hpre : List.Forall₂ (AdmittedAs w d) pre ads)
    (hk : w.contentKeyFn item.payload = .ok (ck, ph))
    (hck : c.liveMap ck ≠ none ∨ ∃ a ∈ ads, a.contentKey = ck) :
    ∃ k old new c', ((pre ++ item :: post).mapM fun it => admitItem w it d) c =
      .error (.contentKeyCollision k old new) c' := by
  induction hpre generalizing c with
  | nil =>
    obtain ⟨old, hl⟩ := Option.ne_none_iff_exists'.1 (hck.resolve_right (by simp))
    exact ⟨ck, old, ph, c, by
      simp only [List.nil_append, List.mapM_cons, EStateM.bind_error]
      exact Or.inl (admitItem_live hk hl)⟩
  | @cons it a pre ads ha _ ih =>
    simp only [List.cons_append, List.mapM_cons, EStateM.bind_error, EStateM.pure_error,
      and_false, exists_false, or_false]
    cases hl : c.liveMap a.contentKey with
    | some old => exact ⟨_, _, _, _, Or.inl (admitItem_live ha.key hl)⟩
    | none =>
      have hck' : (c.register [a]).liveMap ck ≠ none ∨ ∃ b ∈ ads, b.contentKey = ck := by
        simp only [register_live, List.mem_cons, List.not_mem_nil, or_false,
          exists_eq_or_imp, exists_eq_left] at hck ⊢
        tauto
      obtain ⟨k, old, new, c', h⟩ := ih hck'
      exact ⟨k, old, new, c', Or.inr ⟨a, _, admitItem_fresh ha hl, h⟩⟩

theorem admitRoots_collision {pre : List (CheckpointItem P)} {item : CheckpointItem P}
    (post : List (CheckpointItem P))
    {ads : List (Admitted P K H)} {ck : K} {ph : H} {c : Coord P K H R E}
    (hpre : List.Forall₂ (AdmittedAs w 0) pre ads)
    (hk : w.contentKeyFn item.payload = .ok (ck, ph))
    (hck : c.liveMap ck ≠ none ∨ ∃ a ∈ ads, a.contentKey = ck) :
    ∃ k old new c', admitRoots w (pre ++ item :: post) c =
      .error (.contentKeyCollision k old new) c' := by
  induction hpre generalizing c with
  | nil =>
    obtain ⟨old, hl⟩ := Option.ne_none_iff_exists'.1 (hck.resolve_right (by simp))
    exact ⟨ck, old, ph, c, by
      simp only [List.nil_append, admitRoots, List.forM_eq_forM, List.forM_cons,
        EStateM.bind_error]
      exact Or.inl (Or.inl (admitItem_live hk hl))⟩
  | @cons it a pre ads ha _ ih =>
    simp only [List.cons_append, admitRoots, List.forM_eq_forM, List.forM_cons,
      EStateM.bind_error, EStateM.bind_ok, EStateM.modify_error, EStateM.modify_ok, and_false,
      exists_false, or_false]
    cases hl : c.liveMap a.contentKey with
    | some old => exact ⟨_, _, _, _, Or.inl (admitItem_live ha.key hl)⟩
    | none =>
      have hck' : ((c.register [a]).place a).liveMap ck ≠ none ∨ ∃ b ∈ ads, b.contentKey = ck := by
        show (c.register [a]).liveMap ck ≠ none ∨ _
        simp only [register_live, List.mem_cons, List.not_mem_nil, or_false,
          exists_eq_or_imp, exists_eq_left] at hck ⊢
        tauto
      obtain ⟨k, old, new, c', h⟩ := ih hck'
      simp only [admitRoots, List.forM_eq_forM] at h
      exact ⟨k, old, new, c', Or.inr ⟨(), _, ⟨a, _, admitItem_fresh ha hl, rfl⟩, h⟩⟩

theorem handleSplit_collision {cfg : Config σ K H R E} {policy : SplitPolicy P E}
    {ad : Admitted P K H} {pre post : List (CheckpointItem P)} {item : CheckpointItem P}
    {ads : List (Admitted P K H)} {ck : K} {ph : H} {c : Coord P K H R E}
    (hs : Splittable cfg w policy ad (pre ++ item :: post))
    (hpre : List.Forall₂ (AdmittedAs w (ad.depth + 1)) pre ads)
    (hk : w.contentKeyFn item.payload = .ok (ck, ph))
    (hck : c.liveMap ck ≠ none ∨ ∃ a ∈ ads, a.contentKey = ck) :
    ∃ k old new c', handleSplit cfg w policy ad c = .error (.contentKeyCollision k old new) c' := by
  obtain ⟨hd, hsplit, hne, psz, csz, hp, hcs, hshr⟩ := hs
  obtain ⟨k, old, new, c', h⟩ := admitAll_collision post hpre hk hck
  refine ⟨k, old, new, c', ?_⟩
  simp only [handleSplit, EStateM.bind_error, raiseIf_ok, call_ok]
  refine Or.inr ⟨(), c, ⟨not_lt.2 hd, rfl⟩, Or.inr ⟨_, c, ⟨hsplit, rfl⟩, Or.inr ⟨(), c, ⟨hne, rfl⟩,
    Or.inr ⟨psz, c, ⟨hp, rfl⟩, Or.inr ⟨csz, c, ⟨hcs, rfl⟩, Or.inr ⟨(), c, ⟨hshr, rfl⟩,
    Or.inl h⟩⟩⟩⟩⟩⟩

end

section
variable [DecidableEq K] {cfg : Config σ K H R E} {w : World P K H E} {W : Set (World P K H E)}

/-- An error of `_handle_split` other than `_SplitFatal` leaves `_route_exception`. -/
theorem routeException_split_error {policy : SplitPolicy P E} {ad : Admitted P K H} {exc : E}
    {oom : Bool} {c c' : Coord P K H R E} {fault : Fault K H E} (ho : w.isOom exc = .ok oom)
    (hw : WantsSplit w.toHooks exc ad policy)
    (h : handleSplit cfg w.toHooks policy ad c = .error fault c')
    (hf : ∀ reason, fault ≠ .splitFatal reason) :
    routeException cfg w ad exc c = .error fault c' := by
  have hs : splitOrFatal cfg w.toHooks policy ad c = .error fault c' := by
    simp only [splitOrFatal, EStateM.tryCatch_error, EStateM.bind_error, EStateM.pure_error,
      and_false, exists_false, or_false]
    refine ⟨fault, c', h, ?_⟩
    cases fault with
    | splitFatal reason => exact absurd rfl (hf reason)
    | _ => simp
  have hws : wantsSplit w.toHooks exc ad c = .ok (some policy) c :=
    wantsSplit_ok.2 ⟨rfl, Or.inl ⟨policy, rfl, hw⟩⟩
  simp only [routeException, EStateM.bind_error, call_ok]
  refine Or.inr ⟨oom, c, ⟨ho, rfl⟩, ?_⟩
  cases oom <;> simp only [Bool.false_eq_true, if_true, if_false, EStateM.bind_error] <;>
    exact Or.inr ⟨_, c, hws, hs⟩

/-- A future whose routing raises takes the loop to its `finally`. -/
theorem Step.of_route_error {c c' : Coord P K H R E} {st : σ} {f : Future} {fs : List Future}
    {pre post : List (Call P K H R E)} {ad : Admitted P K H} {exc : E} {fault : Fault K H E}
    (hp : c.PoolOk cfg) (hi : c.inflight = pre ++ ⟨f, ad, .finished (.error exc)⟩ :: post)
    (hx : cfg.isException exc)
    (hr : routeException cfg w ad exc { c with inflight := pre ++ post } = .error fault c')
    {ev : Event P K H R E} {s' : State σ P K H R E}
    (h : Step cfg w ⟨.collect (f :: fs), c, st⟩ ev s') :
    (∃ f' ad' o, ev = .finish f' ad' o) ∨
      ev = .abort (some f) ad fault ∧ s' = ⟨.shutdown (some fault), c', st⟩ := by
  cases h with
  | finish => exact Or.inl ⟨_, _, _, rfl⟩
  | commit hi' _ => obtain ⟨-, h, -⟩ := hp.unique hi hi' rfl; cases h
  | commitRaises hi' _ => obtain ⟨-, h, -⟩ := hp.unique hi hi' rfl; cases h
  | commitDies hi' _ => obtain ⟨-, h, -⟩ := hp.unique hi hi' rfl; cases h
  | requeue hi' _ hr' _ =>
    obtain ⟨rfl, h, rfl⟩ := hp.unique hi hi' rfl
    cases h; rw [hr] at hr'; cases hr'
  | split hi' _ hr' _ =>
    obtain ⟨rfl, h, rfl⟩ := hp.unique hi hi' rfl
    cases h; rw [hr] at hr'; cases hr'
  | fatal hi' _ hr' =>
    obtain ⟨rfl, h, rfl⟩ := hp.unique hi hi' rfl
    cases h; rw [hr] at hr'; cases hr'
  | routeRaises hi' _ hr' =>
    obtain ⟨rfl, h, rfl⟩ := hp.unique hi hi' rfl
    cases h; rw [hr] at hr'; cases hr'; exact Or.inr ⟨rfl, rfl⟩
  | notCaught hi' hx' =>
    obtain ⟨-, h, -⟩ := hp.unique hi hi' rfl
    cases h; exact absurd hx hx'

/-- The exception `fault` leaves `run_checkpointed` once the pool is drained. -/
def Loc.raising (fault : Fault K H E) : Loc K H E → Prop
  | .shutdown (some fault') | .failed fault' => fault' = fault
  | _ => False

theorem raising_run {fault : Fault K H E} {s s' : State σ P K H R E} {tr : List (Event P K H R E)}
    (hr : Lts.Run (cfg.step W) s tr s') (hs : s.loc.raising fault) : s'.loc.raising fault := by
  refine hr.inv (fun _ s => s.loc.raising fault) hs ?_
  rintro tr s ev s' - hs ⟨w, -, h⟩
  cases h <;> simp_all [Loc.raising]

/-! ## The split forest -/

/-- The edges: a split item and one of its children. -/
def Edge (tr : List (Event P K H R E)) (a b : Admitted P K H) : Prop :=
  ∃ f exc children, Event.split f a exc children ∈ tr ∧ b ∈ children

variable {w₀ : Hooks P K H E} {items : List (CheckpointItem P)} {st : σ}
  {s₀ s : State σ P K H R E} {tr : List (Event P K H R E)}

omit [DecidableEq K] in
theorem mem_parents {a : Admitted P K H} :
    a ∈ tr.flatMap Event.parents ↔ ∃ f exc children, Event.split f a exc children ∈ tr := by
  simp only [List.mem_flatMap]
  constructor
  · rintro ⟨ev, hev, ha⟩
    cases ev with
    | split f ad exc children =>
      simp only [Event.parents, List.mem_singleton] at ha
      exact ⟨f, exc, children, ha ▸ hev⟩
    | _ => simp [Event.parents] at ha
  · rintro ⟨f, exc, children, h⟩
    exact ⟨_, h, by simp [Event.parents]⟩

/-- The step that made a split of a run. -/
theorem split_of_mem (hr : Lts.Run (cfg.step W) s₀ tr s) {f : Future} {ad : Admitted P K H}
    {exc : E} {children : List (Admitted P K H)} (h : Event.split f ad exc children ∈ tr) :
    ∃ w ∈ W, ∃ c c', SplitInto cfg w.toHooks exc ad children c c' := by
  obtain ⟨_, _, s₁, s₂, -, -, ⟨w, hw, hs⟩, -⟩ := hr.step_of_mem h
  obtain ⟨_, _, _, -, -, -, -, -, hsp⟩ := hs.split_inv
  exact ⟨w, hw, _, _, hsp⟩

theorem edge_iff (hr : Lts.Run (cfg.step W) s₀ tr s) {a : Admitted P K H} :
    (∃ b, Edge tr a b) ↔ a ∈ tr.flatMap Event.parents := by
  rw [mem_parents]
  constructor
  · rintro ⟨b, f, exc, children, h, -⟩
    exact ⟨f, exc, children, h⟩
  · rintro ⟨f, exc, children, h⟩
    obtain ⟨w, -, c, c', ⟨policy, its, -, hs, has⟩, -⟩ := split_of_mem hr h
    cases has with
    | nil => exact absurd rfl hs.ne
    | cons hb _ => exact ⟨_, f, exc, _, h, List.mem_cons_self⟩

/-- The terminal keys are those of the nodes without children. -/
theorem terminal_iff (hb : begin w₀ items st = .ok s₀) (hr : Lts.Run (cfg.step W) s₀ tr s) (k : K) :
    k ∈ s.c.terminalKeys ↔ ∃ a ∈ nodes s₀.c.ready tr, (∀ b, ¬ Edge tr a b) ∧ a.contentKey = k := by
  obtain ⟨-, hL⟩ := Ledger.run hb hr
  have hnd : (leaves s.c tr ++ tr.flatMap Event.parents).Nodup :=
    hL.balance.nodup_iff.2 hL.nodup.of_map
  simp only [hL.keys, List.mem_toFinset, List.mem_map, ← not_exists, edge_iff hr,
    ← hL.balance.mem_iff, List.mem_append]
  constructor
  · rintro ⟨a, ha, hk⟩
    exact ⟨a, Or.inl ha, fun hp => (List.nodup_append.1 hnd).2.2 a ha a hp rfl, hk⟩
  · rintro ⟨a, ha, hp, hk⟩
    exact ⟨a, ha.resolve_right hp, hk⟩

/-- A split item is never stitched beside its descendants. -/
theorem split_not_terminal (hb : begin w₀ items st = .ok s₀) (hr : Lts.Run (cfg.step W) s₀ tr s)
    {a : Admitted P K H} (ha : a ∈ tr.flatMap Event.parents) :
    a.contentKey ∉ s.c.terminalKeys := by
  intro hk
  obtain ⟨-, hL⟩ := Ledger.run hb hr
  obtain ⟨a', ha', hne, hkey⟩ := (terminal_iff hb hr _).1 hk
  have hnode : a ∈ nodes s₀.c.ready tr := hL.balance.mem_iff.1 (List.mem_append_right _ ha)
  rw [List.inj_on_of_nodup_map hL.nodup ha' hnode hkey] at hne
  exact (edge_iff hr).2 ha |>.elim hne

theorem depth_le (hb : begin w₀ items st = .ok s₀) (hr : Lts.Run (cfg.step W) s₀ tr s) :
    ∀ a ∈ nodes s₀.c.ready tr, (a.depth : ℤ) ≤ max 0 cfg.maxSplitDepth := by
  intro a ha
  rcases List.mem_append.1 ha with ha | ha
  · obtain ⟨it, -, hd⟩ := (begin_ok hb).1.mem_right ha
    simp [hd.depth]
  · rw [List.mem_flatMap] at ha
    obtain ⟨ev, hev, ha⟩ := ha
    cases ev with
    | split f ad exc children =>
      obtain ⟨w, -, c, c', ⟨policy, its, -, hs, has⟩, -⟩ := split_of_mem hr hev
      obtain ⟨it, -, hd⟩ := has.mem_right ha
      have := hs.depth
      rw [hd.depth]; push_cast; omega
    | _ => simp [Event.added] at ha

end

/-! ## Members of payloads -/

section
variable {M : Type} (members : P → Multiset M)

/-- The members of the payloads of some items. -/
def membersOf (ads : List (Admitted P K H)) : Multiset M :=
  (ads.map fun a => members a.item.payload).sum

/-- Every split in these worlds partitions the members of the payload. -/
def Partitions (W : Set (World P K H E)) : Prop :=
  ∀ w ∈ W, ∀ policy, w.splitPolicy = some policy → ∀ item children,
    policy.split item = .ok children →
      members item.payload = (children.map fun it => members it.payload).sum

theorem membersOf_append (as bs : List (Admitted P K H)) :
    membersOf members (as ++ bs) = membersOf members as + membersOf members bs := by
  simp [membersOf]

theorem membersOf_perm {as bs : List (Admitted P K H)} (h : as.Perm bs) :
    membersOf members as = membersOf members bs := (h.map _).sum_eq

theorem membersOf_admitted {w : Hooks P K H E} {d : ℕ} {its : List (CheckpointItem P)}
    {ads : List (Admitted P K H)} (h : List.Forall₂ (AdmittedAs w d) its ads) :
    membersOf members ads = (its.map fun it => members it.payload).sum := by
  induction h with
  | nil => rfl
  | cons ha _ ih =>
    simp only [membersOf, List.map_cons, List.sum_cons] at ih ⊢
    rw [ih, ha.item]

theorem membersOf_flatMap {tr : List (Event P K H R E)}
    {f g : Event P K H R E → List (Admitted P K H)}
    (h : ∀ ev ∈ tr, membersOf members (f ev) = membersOf members (g ev)) :
    membersOf members (tr.flatMap f) = membersOf members (tr.flatMap g) := by
  induction tr with
  | nil => rfl
  | cons ev tr ih =>
    rw [List.flatMap_cons, List.flatMap_cons, membersOf_append, membersOf_append, h ev (by simp),
      ih fun ev' h' => h ev' (by simp [h'])]

variable [DecidableEq K] {cfg : Config σ K H R E} {W : Set (World P K H E)} {w₀ : Hooks P K H E}
  {items : List (CheckpointItem P)} {st : σ} {s₀ s : State σ P K H R E}
  {tr : List (Event P K H R E)}

/-- The leaves hold the members of the input. -/
theorem members_leaves (hp : Partitions members W) (hb : begin w₀ items st = .ok s₀)
    (hr : Lts.Run (cfg.step W) s₀ tr s) :
    membersOf members (leaves s.c tr) = (items.map fun it => members it.payload).sum := by
  obtain ⟨-, hL⟩ := Ledger.run hb hr
  have hsplit : membersOf members (tr.flatMap Event.added) =
      membersOf members (tr.flatMap Event.parents) := by
    refine membersOf_flatMap members fun ev hev => ?_
    cases ev with
    | split f ad exc children =>
      obtain ⟨w, hw, c, c', ⟨policy, its, hws, hs, has⟩, -⟩ := split_of_mem hr hev
      rw [Event.added, membersOf_admitted members has, ← hp w hw policy hws.1 _ _ hs.split]
      simp [membersOf, Event.parents]
    | _ => rfl
  have h := membersOf_perm members hL.balance
  rw [nodes, membersOf_append, membersOf_append, hsplit, add_right_cancel_iff] at h
  rw [h, membersOf_admitted members (begin_ok hb).1]

end

/-! ## The frontier -/

section
variable [LinearOrder K] {cfg : Config σ K H R E} {W : Set (World P K H E)} {w₀ : Hooks P K H E}
  {items : List (CheckpointItem P)} {st : σ}

/-- The routing of a future splits `ad`, and the key of the child `item` is live
    or that of an earlier child. -/
structure Collides (cfg : Config σ K H R E) (w : World P K H E) (s : State σ P K H R E)
    (tr : List (Event P K H R E)) (roots : List (Admitted P K H)) (f : Future)
    (ad : Admitted P K H) : Prop where
  healthy : s.Healthy
  at_future : ∃ fs pre post exc oom policy before item after earlier ck ph,
    s.loc = .collect (f :: fs) ∧
    s.c.inflight = pre ++ ⟨f, ad, .finished (.error exc)⟩ :: post ∧ cfg.isException exc ∧
    w.isOom exc = .ok oom ∧ WantsSplit w.toHooks exc ad policy ∧
    Splittable cfg w.toHooks policy ad (before ++ item :: after) ∧
    List.Forall₂ (AdmittedAs w.toHooks (ad.depth + 1)) before earlier ∧
    w.contentKeyFn item.payload = .ok (ck, ph) ∧
    ∃ a ∈ nodes roots tr ++ earlier, a.contentKey = ck

theorem collides_step {s₀ s s' : State σ P K H R E} {tr : List (Event P K H R E)}
    {ev : Event P K H R E} {w : World P K H E} {f : Future} {ad : Admitted P K H}
    (hb : begin w₀ items st = .ok s₀) (hr : Lts.Run (cfg.step W) s₀ tr s)
    (hc : Collides cfg w s tr s₀.c.ready f ad) (h : Step cfg w s ev s') :
    (∃ f' ad' o, ev = .finish f' ad' o) ∨
      ∃ k old new, ev = .abort (some f) ad (.contentKeyCollision k old new) ∧
        s'.loc = .shutdown (some (.contentKeyCollision k old new)) := by
  obtain ⟨hw, hL⟩ := Ledger.run hb hr
  obtain ⟨hh, fs, pre, post, exc, oom, policy, before, item, after, earlier, ck, ph, hloc, hi, hx,
    ho, hws, hs, has, hk, a, ha, hak⟩ := hc
  obtain ⟨loc, c, st'⟩ := s
  subst hloc
  have hck : c.liveMap ck ≠ none ∨ ∃ a ∈ earlier, a.contentKey = ck := by
    rcases List.mem_append.1 ha with ha | ha
    · exact Or.inl ((hL.live hh).ne_none.2 ⟨a, ha, hak⟩)
    · exact Or.inr ⟨a, ha, hak⟩
  obtain ⟨k, old, new, c', hsp⟩ := handleSplit_collision (c := { c with inflight := pre ++ post })
    hs has hk hck
  have hroute := routeException_split_error ho hws hsp (by simp)
  rcases Step.of_route_error hw.pool hi hx hroute h with h | ⟨rfl, rfl⟩
  · exact Or.inl h
  · exact Or.inr ⟨k, old, new, rfl, rfl⟩

/-- **The terminal set is the frontier of the split forest and covers the
    input.** -/
theorem terminal_set_is_frontier {M : Type} {s₀ s : State σ P K H R E}
    {tr : List (Event P K H R E)} (hb : begin w₀ items st = .ok s₀)
    (hr : Lts.Run (cfg.step W) s₀ tr s) :
    ((nodes s₀.c.ready tr).map (·.contentKey)).Nodup ∧
    (∀ before item after earlier ck ph, List.Forall₂ (AdmittedAs w₀ 0) before earlier →
      w₀.contentKeyFn item.payload = .ok (ck, ph) → (∃ a ∈ earlier, a.contentKey = ck) →
      ∃ k old new, begin (R := R) w₀ (before ++ item :: after) st =
        .error (.contentKeyCollision k old new)) ∧
    (∀ w ∈ W, ∀ f ad ev s', Collides cfg w s tr s₀.c.ready f ad → Step cfg w s ev s' →
      (∃ f' ad' o, ev = .finish f' ad' o) ∨ ∃ k old new, ∀ tr' s'',
        Lts.Run (cfg.step W) s' tr' s'' → s''.loc.raising (.contentKeyCollision k old new)) ∧
    (∀ a ∈ nodes s₀.c.ready tr, (a.depth : ℤ) ≤ max 0 cfg.maxSplitDepth) ∧
    (∀ k, k ∈ s.c.terminalKeys ↔
      ∃ a ∈ nodes s₀.c.ready tr, (∀ b, ¬ Edge tr a b) ∧ a.contentKey = k) ∧
    (∀ a b, Edge tr a b → a.contentKey ∉ s.c.terminalKeys) ∧
    ∀ members : P → Multiset M, Partitions members W → s.loc = .done →
      ∃ stitched : List (Admitted P K H),
        s.c.expected = some (stitched.map fun a => (a.contentKey, a.payloadHash)) ∧
        stitched.map (·.contentKey) = s.c.terminalKeys.sort (· ≤ ·) ∧
        (∀ a ∈ stitched, a ∈ nodes s₀.c.ready tr) ∧
        membersOf members stitched = (items.map fun it => members it.payload).sum := by
  obtain ⟨-, hL⟩ := Ledger.run hb hr
  refine ⟨hL.nodup, ?_, fun w _ f ad ev s' hc h => ?_, depth_le hb hr, terminal_iff hb hr, ?_, ?_⟩
  · rintro before item after earlier ck ph has hk ⟨a, ha, hak⟩
    obtain ⟨k, old, new, c', h⟩ := admitRoots_collision (R := R) (c := {}) after has hk
      (Or.inr ⟨a, ha, hak⟩)
    exact ⟨k, old, new, by rw [begin, h]⟩
  · refine (collides_step hb hr hc h).imp_right ?_
    rintro ⟨k, old, new, -, hl⟩
    exact ⟨k, old, new, fun tr' s'' hr' => raising_run hr' (by rw [hl]; rfl)⟩
  · exact fun a b he => split_not_terminal hb hr ((edge_iff hr).1 ⟨b, he⟩)
  · intro members hp hd
    obtain ⟨-, -, -, -, hleaf⟩ := done_settled hb hr hd
    obtain ⟨stitched, hperm, hkeys, hexp⟩ := expected_eq hb hr hd
    rw [← hleaf] at hperm
    refine ⟨stitched, hexp, hkeys, fun a ha => hL.leaf (hperm.mem_iff.1 ha), ?_⟩
    rw [membersOf_perm members hperm, members_leaves members hp hb hr]

theorem sample_partitions : Partitions (fun ds : List ℕ => (ds : Multiset ℕ)) {sampleWorld} := by
  rintro w rfl policy hp item children hc
  cases hp
  cases hc
  simp

theorem terminal_set_is_frontier_sample : ∃ stitched : List (Admitted (List ℕ) ℕ ℕ),
    sample.2.2.c.expected = some (stitched.map fun a => (a.contentKey, a.payloadHash)) ∧
      membersOf (fun ds : List ℕ => (ds : Multiset ℕ)) stitched = {1, 2} := by
  obtain ⟨-, -, -, -, -, -, h⟩ :=
    terminal_set_is_frontier (M := ℕ) sample_run.1 sample_run.2
  obtain ⟨stitched, he, -, -, hm⟩ := h _ sample_partitions rfl
  exact ⟨stitched, he, hm⟩

end

end ResumableBatch
