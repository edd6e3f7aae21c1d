/-
  What one step does to the items: which ones it takes out of the queues, which
  ones it adds, and in which states a run still goes well.
-/
import Mathlib.Data.Multiset.AddSub
import Mathlib.Tactic.Abel
import ResumableBatch.Proof.Route

namespace ResumableBatch

variable {P K H R E σ : Type}

/-! ## Items of a state and of a trace -/

/-- The items in `ready`, `delayed` and `inflight`. -/
def Coord.work (c : Coord P K H R E) : List (Admitted P K H) :=
  c.ready ++ c.delayed.map (·.ad) ++ c.inflight.map (·.ad)

namespace Event

/-- The item resumed or committed. -/
def settled : Event P K H R E → List (Admitted P K H)
  | resume ad | commit _ ad _ => [ad]
  | _ => []

/-- The item split. -/
def parents : Event P K H R E → List (Admitted P K H)
  | split _ ad _ _ => [ad]
  | _ => []

/-- The children of the item split. -/
def added : Event P K H R E → List (Admitted P K H)
  | split _ _ _ children => children
  | _ => []

/-- The item on which the run fails. -/
def lost : Event P K H R E → List (Admitted P K H)
  | fatal _ ad _ _ | storeRaises _ ad _ | abort _ ad _ | die _ ad => [ad]
  | _ => []

/-- The run meets the exception that ends it. -/
def halts : Event P K H R E → Prop
  | fatal .. | storeRaises .. | abort .. | overlong | die .. => True
  | _ => False

theorem lost_eq_nil {ev : Event P K H R E} (h : ¬ ev.halts) : ev.lost = [] := by
  cases ev with
  | fatal | storeRaises | abort | die => exact absurd trivial h
  | _ => rfl

end Event

theorem heappush_perm (r : Retry P K H) (l : List (Retry P K H)) : (heappush r l).Perm (r :: l) := by
  induction l with
  | nil => exact .refl _
  | cons x xs ih =>
    unfold heappush; split
    · exact .refl _
    · exact (ih.cons x).trans (.swap r x xs)

theorem coe_map_heappush {α : Type} (g : Retry P K H → α) (r : Retry P K H)
    (l : List (Retry P K H)) :
    Multiset.ofList ((heappush r l).map g) = {g r} + Multiset.ofList (l.map g) :=
  Multiset.coe_eq_coe.2 ((heappush_perm r l).map g)

theorem Coord.coe_work (c : Coord P K H R E) :
    (c.work : Multiset (Admitted P K H)) =
      c.ready + (c.delayed.map (·.ad) : List _) + (c.inflight.map (·.ad) : List _) := by
  simp only [Coord.work, Multiset.coe_add]

/-- The in-flight futures with their items. -/
def Coord.pool (c : Coord P K H R E) : List (Future × Admitted P K H) :=
  c.inflight.map fun x => (x.fut, x.ad)

theorem Coord.cancel_pool (c : Coord P K H R E) (fs : List Future) :
    (c.cancel fs).pool = c.pool := by
  simp only [Coord.pool, Coord.cancel, List.map_map]
  refine List.map_congr_left fun x _ => ?_
  simp only [Function.comp]
  cases x.state <;> simp only; split <;> rfl

theorem Coord.cancel_work (c : Coord P K H R E) (fs : List Future) :
    (c.cancel fs).work = c.work := by
  have h : ∀ c : Coord P K H R E, c.inflight.map (·.ad) = c.pool.map (·.2) := fun c => by
    simp [Coord.pool, Function.comp_def]
  rw [Coord.work, h, c.cancel_pool, ← h]; rfl

variable [DecidableEq K]

/-! ## The two quiet outcomes of routing -/

/-- Routing that leaves `splits` alone requeues. -/
theorem requeue_spec {cfg : Config σ K H R E} {w : World P K H E} {ad : Admitted P K H} {exc : E}
    {c c' : Coord P K H R E} (h : routeException cfg w ad exc c = .ok none c')
    (hs : c'.splits = c.splits) :
    w.isOom exc = .ok false ∧ NoSplit w.toHooks exc ad ∧ w.isTransient exc = .ok true ∧
      Requeued cfg w ad exc c c' := by
  rcases routeException_none h with ⟨ads, h⟩ | h
  · rw [h.eq] at hs; simp at hs
  · exact h

/-- Routing that changes `splits` splits, and the new ready items are the children. -/
theorem split_spec {cfg : Config σ K H R E} {w : World P K H E} {ad : Admitted P K H} {exc : E}
    {c c' : Coord P K H R E} (h : routeException cfg w ad exc c = .ok none c')
    (hs : c'.splits ≠ c.splits) :
    ∃ ads, c'.ready.drop c.ready.length = ads ∧ SplitInto cfg w.toHooks exc ad ads c c' := by
  rcases routeException_none h with ⟨ads, h⟩ | ⟨-, -, -, h⟩
  · exact ⟨ads, by rw [h.eq]; simp, h⟩
  · obtain ⟨-, _, _, _, -, -, -, rfl⟩ := h
    exact absurd rfl hs

theorem Step.split_inv {cfg : Config σ K H R E} {w : World P K H E} {s s' : State σ P K H R E}
    {f : Future} {ad : Admitted P K H} {exc : E} {ads : List (Admitted P K H)}
    (h : Step cfg w s (.split f ad exc ads) s') :
    ∃ fs pre post, s.loc = .collect (f :: fs) ∧ s'.loc = .collect fs ∧ s'.store = s.store ∧
      s.c.inflight = pre ++ ⟨f, ad, .finished (.error exc)⟩ :: post ∧ cfg.isException exc ∧
      SplitInto cfg w.toHooks exc ad ads { s.c with inflight := pre ++ post } s'.c := by
  generalize hev : Event.split f ad exc ads = ev at h
  cases h with
  | split hi hx hr hs =>
    obtain ⟨ads, hads, h⟩ := split_spec hr hs
    cases hev
    rw [hads]
    exact ⟨_, _, _, rfl, rfl, rfl, hi, hx, h⟩
  | _ => cases hev

/-! ## Conservation of items -/

/-- No step loses or duplicates an item: what leaves the queues is settled,
    split or the item on which the run fails, and only a split adds items. -/
theorem Step.work {cfg : Config σ K H R E} {w : World P K H E} {s s' : State σ P K H R E}
    {ev : Event P K H R E} (h : Step cfg w s ev s') :
    (s'.c.work : Multiset (Admitted P K H)) + (ev.settled + ev.parents + ev.lost) =
      s.c.work + ev.added := by
  simp only [Coord.coe_work]
  cases h with
  | requeue hi _ hr hs =>
    obtain ⟨-, -, -, -, _, _, _, -, -, -, h⟩ := requeue_spec hr hs
    simp only [h, hi, Coord.requeue_ready, Coord.requeue_delayed, Coord.requeue_inflight,
      coe_map_heappush, Event.settled, Event.parents, Event.lost, Event.added, List.map_append,
      List.map_cons, ← Multiset.coe_add, ← Multiset.cons_coe, ← Multiset.singleton_add,
      Multiset.coe_nil]
    abel
  | split hi _ hr hs =>
    obtain ⟨ads, hads, -, -, -, h⟩ := split_spec hr hs
    rw [hads]
    simp only [h, hi, Coord.splitInto_ready, Coord.splitInto_delayed,
      Coord.splitInto_inflight, Event.settled, Event.parents, Event.lost, Event.added,
      List.map_append, List.map_cons, ← Multiset.coe_add, ← Multiset.cons_coe,
      ← Multiset.singleton_add, Multiset.coe_nil]
    abel
  | fatal hi _ hr =>
    obtain ⟨m, t, rfl⟩ := routeException_some hr
    simp only [hi, Event.settled, Event.parents, Event.lost, Event.added, List.map_append,
      List.map_cons, ← Multiset.coe_add, ← Multiset.cons_coe, ← Multiset.singleton_add,
      Multiset.coe_nil]
    abel
  | routeRaises hi _ hr =>
    obtain ⟨m, t, rfl⟩ := routeException_error hr
    simp only [hi, Event.settled, Event.parents, Event.lost, Event.added, List.map_append,
      List.map_cons, ← Multiset.coe_add, ← Multiset.cons_coe, ← Multiset.singleton_add,
      Multiset.coe_nil]
    abel
  | cancel fs _ =>
    simp only [← Coord.coe_work, Coord.cancel_work, Event.settled, Event.parents, Event.lost,
      Event.added, Multiset.coe_nil, add_zero]
  | _ =>
    simp only [*, Event.settled, Event.parents, Event.lost, Event.added, List.map_append,
      List.map_cons, List.map_nil, ← Multiset.coe_add, ← Multiset.cons_coe, Multiset.coe_nil,
      ← Multiset.singleton_add]
    try abel

end ResumableBatch
