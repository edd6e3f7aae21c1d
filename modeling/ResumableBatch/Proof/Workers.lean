/-
  The threads of the pool over a run: each sets its context up once and executes one
  call at a time on it (`worker_contexts`), each submitted call is executed once
  (`calls_executed`), and the run comes to its end (`pool_terminates`).
-/
import ResumableBatch.Proof.Pool
import ResumableBatch.Proof.Returns

namespace ResumableBatch

variable {P K H R E σ C : Type}

def Thread.isStarting : Thread C → Bool
  | .starting => true
  | _ => false

namespace Pool

/-! ## The life of a thread -/

namespace Act

/-- The thread that calls `worker_setup` or `execute`, or ends. -/
def thread : Act P K H R E C → Option ℕ
  | setup t _ | setupRaises t _ | start t _ _ | ends t _ _ _ | exit t => some t
  | _ => none

/-- The context that `worker_setup` returned. -/
def made : Act P K H R E C → List (Option C)
  | setup _ ctx => [ctx]
  | _ => []

/-- The context given to `worker_teardown`. -/
def tornDown : Act P K H R E C → List (Option C)
  | teardown ctx | teardownEscapes ctx _ => [ctx]
  | _ => []

/-- The calls executed. -/
def started : Act P K H R E C → List Future
  | start _ _ f => [f]
  | _ => []

/-- The calls that end without being executed, as their pool is broken. -/
def failed : Act P K H R E C → List Future
  | setupRaises _ calls => calls.map (·.1)
  | _ => []

end Act

/-- What a thread does, one act after the other. -/
inductive Turn (t : ℕ) : Thread C → Act P K H R E C → Thread C → Prop where
  | setup ctx : Turn t .starting (.setup t ctx) (.idle ctx)
  | setupRaises calls : Turn t .starting (.setupRaises t calls) .ended
  | take ctx f : Turn t (.idle ctx) (.take t f) (.taken ctx f)
  | start ctx f : Turn t (.taken ctx f) (.start t ctx f) (.busy ctx f)
  | skip ctx f : Turn t (.taken ctx f) (.skip t f) (.idle ctx)
  | ends ctx f ad o : Turn t (.busy ctx f) (.ends t f ad o) (.idle ctx)
  | exit ctx : Turn t (.idle ctx) (.exit t) .ended

/-- Calls executed in a thread on its context, one at a time. -/
def executions (t : ℕ) (ctx : Option C) (xs : List (Future × Admitted P K H × Except E R)) :
    List (Act P K H R E C) :=
  xs.flatMap fun x => [.start t ctx x.1, .ends t x.1 x.2.1 x.2.2]

/-- The acts of a thread up to now. -/
def Served (t : ℕ) : Thread C → List (Act P K H R E C) → Prop
  | .starting, l => l = []
  | .idle ctx, l | .taken ctx _, l => ∃ xs, l = .setup t ctx :: executions t ctx xs
  | .busy ctx f, l => ∃ xs, l = .setup t ctx :: executions t ctx xs ++ [.start t ctx f]
  | .ended, l => (∃ calls, l = [.setupRaises t calls]) ∨
      ∃ ctx xs, l = .setup t ctx :: executions t ctx xs ++ [.exit t]

theorem Served.turn {t : ℕ} {th th' : Thread C} {act : Act P K H R E C} {l : List (Act P K H R E C)}
    (h : Served t th l) (hs : Turn t th act th') :
    Served t th' (l ++ if act.thread = some t then [act] else []) := by
  cases hs with
  | setup ctx => cases h; exact ⟨[], by simp [Act.thread, executions]⟩
  | setupRaises calls => cases h; exact Or.inl ⟨calls, by simp [Act.thread]⟩
  | take | skip =>
    obtain ⟨xs, rfl⟩ := h
    exact ⟨xs, List.append_nil _⟩
  | start ctx f =>
    obtain ⟨xs, rfl⟩ := h
    exact ⟨xs, by simp [Act.thread]⟩
  | ends ctx f ad o =>
    obtain ⟨xs, rfl⟩ := h
    exact ⟨xs ++ [(f, ad, o)], by simp [Act.thread, executions]⟩
  | exit ctx =>
    obtain ⟨xs, rfl⟩ := h
    exact Or.inr ⟨ctx, xs, by simp [Act.thread]⟩

theorem Turn.thread {t u : ℕ} {th th' : Thread C} {act : Act P K H R E C} (h : Turn t th act th')
    (hu : u ≠ t) : act.thread ≠ some u := by
  cases h <;> simp [Act.thread, hu.symm]

theorem Turn.starting {t : ℕ} {th th' : Thread C} {act : Act P K H R E C} (h : Turn t th act th') :
    th'.isStarting = false ∧ (th.isStarting = false → act.made = []) := by
  cases h <;> simp [Thread.isStarting, Act.made]

/-- The acts of one thread. -/
def actsOf (t : ℕ) (tr : List (Act P K H R E C)) : List (Act P K H R E C) :=
  tr.filter fun act => act.thread = some t

theorem actsOf_snoc (t : ℕ) (tr : List (Act P K H R E C)) (act : Act P K H R E C) :
    actsOf t (tr ++ [act]) = actsOf t tr ++ if act.thread = some t then [act] else [] := by
  rw [actsOf, actsOf, List.filter_append, List.filter_cons, List.filter_nil]
  simp only [decide_eq_true_eq]

/-- The calls not started, those that were executed, and those that ended with the pool. -/
def calls (tr : List (Act P K H R E C)) (p : Pool σ P K H R E C) : List Future :=
  p.pending ++ (tr.flatMap Act.started ++ tr.flatMap Act.failed)

theorem calls_snoc (tr : List (Act P K H R E C)) (act : Act P K H R E C)
    (p : Pool σ P K H R E C) : calls (tr ++ [act]) p =
      p.pending ++ ((tr.flatMap Act.started ++ act.started) ++
        (tr.flatMap Act.failed ++ act.failed)) := by
  simp [calls]

/-- The calls that fail with the pool wait in the queue; all of it, if none is cancelled. -/
theorem Ok.unended {cfg : Config σ K H R E} {p : Pool σ P K H R E C} (hp : p.Ok cfg) :
    ((p.run.c.unended p.queue).map (·.1)).Subperm p.queue ∧
      ((∀ x ∈ p.run.c.inflight, x.state ≠ .cancelled) →
        ((p.run.c.unended p.queue).map (·.1)).Perm p.queue) := by
  have hnd : ((p.run.c.unended p.queue).map (·.1)).Nodup := by
    refine hp.calls.futures.sublist ?_
    rw [Coord.unended, Coord.pool, List.map_map, List.map_map]
    exact List.filter_sublist.map _
  have hsub : (p.run.c.unended p.queue).map (·.1) ⊆ p.queue := fun f hf => by
    obtain ⟨⟨f, ad⟩, hx, rfl⟩ := List.mem_map.1 hf
    exact (Coord.mem_unended.1 hx).2
  refine ⟨List.subperm_of_subset hnd hsub, fun hc => ?_⟩
  have hq : p.queue.Nodup := (hp.nodup.of_append_left).of_append_left
  refine (List.perm_ext_iff_of_nodup hnd hq).2 fun f => ⟨@hsub f, fun hf => ?_⟩
  obtain ⟨ad, hx | hx⟩ := hp.pending f (List.mem_append_left _ hf)
  · exact List.mem_map.2 ⟨_, Coord.mem_unended.2 ⟨hx, hf⟩, rfl⟩
  · exact absurd rfl (hc _ hx)

section
variable [DecidableEq K] {cfg : Config σ K H R E} {hooks : WorkerHooks E} {w : World P K H E}
  {W : Set (World P K H E)} {p p' : Pool σ P K H R E C} {act : Act P K H R E C}
  {tr : List (Act P K H R E C)}

/-- A step takes a turn in one thread, or starts threads at most. -/
theorem Step.turn (h : Step cfg hooks w p act p') :
    (∃ t th th', p.threads[t]? = some th ∧ Turn t th act th' ∧ p'.threads = p.threads.set t th') ∨
      act.thread = none ∧ (p'.threads = p.threads ∨ p'.threads = p.threads ++ [.starting]) := by
  cases h with
  | setup _ ht _ => exact Or.inl ⟨_, _, _, ht, .setup _, rfl⟩
  | setupRaises _ ht _ => exact Or.inl ⟨_, _, _, ht, .setupRaises _, rfl⟩
  | take _ ht _ => exact Or.inl ⟨_, _, _, ht, .take _ _, rfl⟩
  | start _ ht _ => exact Or.inl ⟨_, _, _, ht, .start _ _, rfl⟩
  | skip _ ht _ => exact Or.inl ⟨_, _, _, ht, .skip _ _, rfl⟩
  | ends o _ ht _ => exact Or.inl ⟨_, _, _, ht, .ends _ _ _ o, rfl⟩
  | exit _ ht _ => exact Or.inl ⟨_, _, _, ht, .exit _, rfl⟩
  | submit spawn =>
    cases spawn with
    | true => exact Or.inr ⟨rfl, Or.inr rfl⟩
    | false => exact Or.inr ⟨rfl, Or.inl rfl⟩
  | _ => exact Or.inr ⟨rfl, Or.inl rfl⟩

/-- The threads of the pool, and what each did. -/
structure Roster (tr : List (Act P K H R E C)) (threads : List (Thread C)) : Prop where
  served : ∀ t th, threads[t]? = some th → Served t th (actsOf t tr)
  unborn : ∀ t, threads.length ≤ t → actsOf t tr = []

theorem Roster.step (hr : Roster tr p.threads) (h : Step cfg hooks w p act p') :
    Roster (tr ++ [act]) p'.threads := by
  rcases h.turn with ⟨t, th, th', ht, hturn, he⟩ | ⟨hnone, he⟩
  · have hlt : t < p.threads.length := (List.getElem?_eq_some_iff.1 ht).1
    refine ⟨fun u x hx => ?_, fun u hu => ?_⟩
    · rw [he, List.getElem?_set] at hx
      rw [actsOf_snoc]
      split at hx
      · subst u
        rw [Option.some.injEq] at hx
        rw [← hx]
        exact (hr.served t th ht).turn hturn
      · rw [if_neg (hturn.thread (Ne.symm ‹_›)), List.append_nil]
        exact hr.served u x hx
    · rw [he, List.length_set] at hu
      rw [actsOf_snoc, if_neg (hturn.thread (by omega)), hr.unborn u hu]
      rfl
  · have hsame : ∀ u, actsOf u (tr ++ [act]) = actsOf u tr := fun u => by
      rw [actsOf_snoc, hnone, if_neg (by simp), List.append_nil]
    rcases he with he | he
    · rw [he]
      exact ⟨fun u x hx => hsame u ▸ hr.served u x hx, fun u hu => hsame u ▸ hr.unborn u hu⟩
    · rw [he]
      refine ⟨fun u x hx => ?_, fun u hu => ?_⟩
      · rw [hsame]
        rw [List.getElem?_append] at hx
        split at hx
        · exact hr.served u x hx
        · rw [List.getElem?_singleton] at hx
          split at hx
          · cases hx
            exact hr.unborn u (not_lt.1 ‹_›)
          · cases hx
      · rw [hsame]
        rw [List.length_append] at hu
        exact hr.unborn u (by omega)

/-! ## The contexts -/

/-- Nothing but `finally` goes on once the contexts are taken back. -/
theorem Step.after_teardown (hp : p.Ok cfg) (ht : 0 < p.torn) (h : Step cfg hooks w p act p') :
    act.tornDown ≠ [] ∨ act = .leave := by
  obtain ⟨hend, hall⟩ := hp.closed (Or.inl ht)
  have ended : ∀ {t th}, p.threads[t]? = some th → th = Thread.ended :=
    fun h => hall _ (List.mem_of_getElem? h)
  cases h with
  | coordinator hl hs hev _ => exact absurd hend (hs.not_atEnd hev hl)
  | submit _ _ hs => rw [hs.submit_dispatch.1] at hend; exact hend.elim
  | refused _ hs => rw [hs.refused_inv.1] at hend; exact hend.elim
  | cancel hl => rw [hl] at hend; exact hend.elim
  | setup _ ht => cases ended ht
  | setupRaises _ ht => cases ended ht
  | take _ ht => cases ended ht
  | start _ ht => cases ended ht
  | skip _ ht => cases ended ht
  | ends _ _ ht => cases ended ht
  | exit _ ht => cases ended ht
  | teardown => exact Or.inl (by simp [Act.tornDown])
  | teardownEscapes => exact Or.inl (by simp [Act.tornDown])
  | leave => exact Or.inr rfl

/-- The contexts made and taken back. -/
structure Contexts (hooks : WorkerHooks E) (tr : List (Act P K H R E C)) (p : Pool σ P K H R E C) :
    Prop where
  created : p.created = tr.flatMap Act.made
  torn : tr.flatMap Act.tornDown = p.created.take p.torn
  torn_le : p.torn ≤ p.created.length
  /-- a thread makes one context at most -/
  made : p.created.length + p.threads.countP Thread.isStarting ≤ p.threads.length
  last : ∀ tr₁ act tr₂, tr = tr₁ ++ act :: tr₂ → act.tornDown ≠ [] →
    0 < p.torn ∧ ∀ a ∈ tr₂, a.tornDown ≠ [] ∨ a = .leave
  all : p.run.loc = .done ∨ (∃ fault, p.run.loc = .failed fault) → hooks.hasTeardown →
    p.torn = p.created.length

/-- What a step does to the contexts. -/
theorem Step.contexts (h : Step cfg hooks w p act p') :
    (act.made = [] ∧ act.tornDown = [] ∧ p'.created = p.created ∧ p'.torn = p.torn) ∨
      (∃ t ctx, act = .setup t ctx ∧ p.threads[t]? = some .starting ∧
        p'.threads = p.threads.set t (.idle ctx) ∧ p'.created = p.created ++ [ctx] ∧
        p'.torn = p.torn ∧ p'.run = p.run) ∨
      ∃ ctx, act.made = [] ∧ act.tornDown = [ctx] ∧ p.run.loc.inFinally ∧ p'.run = p.run ∧
        p.created[p.torn]? = some ctx ∧ p'.created = p.created ∧ p'.threads = p.threads ∧
        p'.torn = p.torn + 1 := by
  cases h with
  | setup _ ht _ => exact Or.inr (Or.inl ⟨_, _, rfl, ht, rfl, rfl, rfl, rfl⟩)
  | teardown hl _ _ _ hc => exact Or.inr (Or.inr ⟨_, rfl, rfl, hl, rfl, hc, rfl, rfl, rfl⟩)
  | teardownEscapes hl _ _ _ hc => exact Or.inr (Or.inr ⟨_, rfl, rfl, hl, rfl, hc, rfl, rfl, rfl⟩)
  | _ => exact Or.inl ⟨rfl, rfl, rfl, rfl⟩

theorem Contexts.step (hp : p.Ok cfg) (hc : Contexts hooks tr p) (h : Step cfg hooks w p act p') :
    Contexts hooks (tr ++ [act]) p' where
  created := by
    rw [List.flatMap_append, List.flatMap_singleton, ← hc.created]
    rcases h.contexts with ⟨hm, -, he, -⟩ | ⟨t, ctx, rfl, -, -, he, -, -⟩ |
      ⟨ctx, hm, -, -, -, -, he, -⟩
    · rw [hm, he, List.append_nil]
    · rw [he]; rfl
    · rw [hm, he, List.append_nil]
  torn := by
    rw [List.flatMap_append, List.flatMap_singleton, hc.torn]
    rcases h.contexts with
      ⟨-, ht, he, hn⟩ | ⟨t, ctx, rfl, -, -, he, hn, -⟩ | ⟨ctx, -, ht, -, -, hx, he, -, hn⟩
    · rw [ht, he, hn, List.append_nil]
    · rw [he, hn, List.take_append_of_le_length hc.torn_le]
      exact List.append_nil _
    · rw [ht, he, hn, List.take_add_one, hx]; rfl
  torn_le := by
    rcases h.contexts with
      ⟨-, -, he, hn⟩ | ⟨t, ctx, -, -, -, he, hn, -⟩ | ⟨ctx, -, -, -, -, hx, he, -, hn⟩
    · rw [he, hn]; exact hc.torn_le
    · rw [he, hn, List.length_append]; exact hc.torn_le.trans (Nat.le_add_right _ _)
    · rw [he, hn]; exact (List.getElem?_eq_some_iff.1 hx).1
  made := by
    have hm := hc.made
    rcases h.contexts with ⟨hnone, -, he, -⟩ | ⟨t, ctx, -, hth, hset, he, -, -⟩ |
      ⟨ctx, -, -, -, -, -, he, hth, -⟩
    · rw [he]
      rcases h.turn with ⟨t, th, th', hth, hturn, hset⟩ | ⟨-, hth | hth⟩
      · obtain ⟨pre, post, hpre, hall⟩ := List.set_of_getElem? hth
        rw [hset, hall]
        rw [hpre] at hm
        simp only [List.countP_append, List.countP_cons, List.length_append, List.length_cons,
          hturn.starting.1] at hm ⊢
        simp only [Bool.false_eq_true, if_false]
        omega
      · rw [hth]; exact hm
      · rw [hth, List.countP_append, List.length_append]
        simp only [List.countP_cons, List.countP_nil, Thread.isStarting, if_true, List.length_cons,
          List.length_nil]
        omega
    · obtain ⟨pre, post, hpre, hall⟩ := List.set_of_getElem? hth
      rw [he, hset, hall]
      rw [hpre] at hm
      simp only [List.countP_append, List.countP_cons, List.length_append, List.length_cons,
        Thread.isStarting, if_true, Bool.false_eq_true, if_false, List.length_nil] at hm ⊢
      omega
    · rw [he, hth]; exact hm
  last := by
    intro tr₁ a tr₂ htr ha
    rcases List.eq_nil_or_concat tr₂ with rfl | ⟨tr₂, b, rfl⟩
    · obtain ⟨-, hact⟩ := List.append_inj' htr rfl
      cases hact
      rcases h.contexts with ⟨-, ht, -⟩ | ⟨t, ctx, rfl, -⟩ | ⟨ctx, -, -, -, -, -, -, -, hn⟩
      · exact absurd ht ha
      · exact absurd rfl ha
      · exact ⟨by omega, by simp⟩
    · rw [List.concat_eq_append, ← List.cons_append, ← List.append_assoc] at htr
      obtain ⟨hpre, hact⟩ := List.append_inj' htr rfl
      cases hact
      obtain ⟨hpos, hrest⟩ := hc.last tr₁ a tr₂ hpre ha
      refine ⟨?_, fun x hx => ?_⟩
      · rcases h.contexts with ⟨-, -, -, hn⟩ | ⟨t, ctx, -, -, -, -, hn, -⟩ |
          ⟨ctx, -, -, -, -, -, -, -, hn⟩ <;> omega
      · rw [List.concat_eq_append, List.mem_append, List.mem_singleton] at hx
        rcases hx with hx | rfl
        · exact hrest x hx
        · exact h.after_teardown hp hpos
  all := by
    intro hl ht
    cases h with
    | leave _ _ _ hall => exact hall ht
    | coordinator hf hs hev _ =>
      have := hs.not_over hf fun f ad o he => by rw [he] at hev; cases hev
      rcases hl with hl | ⟨fault, hl⟩
      · exact absurd hl this.1
      · exact absurd hl (this.2 fault)
    | submit _ _ hs =>
      rw [hs.submit_dispatch.2.1] at hl
      rcases hl with hl | ⟨_, hl⟩ <;> cases hl
    | refused _ hs =>
      rw [hs.refused_inv.2.1] at hl
      rcases hl with hl | ⟨_, hl⟩ <;> cases hl
    | cancel => rcases hl with hl | ⟨_, hl⟩ <;> cases hl
    | setup _ hth _ => cases (hp.closed (Or.inr hl)).2 _ (List.mem_of_getElem? hth)
    | teardown hf => rcases hl with hl | ⟨_, hl⟩ <;> rw [hl] at hf <;> cases hf
    | teardownEscapes hf => rcases hl with hl | ⟨_, hl⟩ <;> rw [hl] at hf <;> cases hf
    | _ => exact hc.all hl ht

/-! ## The calls -/

/-- A step submits a call, or the calls stay the same but for the cancelled ones. -/
theorem Step.calls (hp : p.Ok cfg) (tr : List (Act P K H R E C)) (h : Step cfg hooks w p act p') :
    (p'.run.c.attemptsTotal = p.run.c.attemptsTotal + 1 ∧
      (Pool.calls (tr ++ [act]) p').Perm (p.run.c.attemptsTotal :: Pool.calls tr p)) ∨
    p'.run.c.attemptsTotal = p.run.c.attemptsTotal ∧
      (Pool.calls (tr ++ [act]) p').Subperm (Pool.calls tr p) ∧
      ((∀ x ∈ p.run.c.inflight, x.state ≠ .cancelled) →
        (Pool.calls (tr ++ [act]) p').Perm (Pool.calls tr p)) := by
  have same : ∀ {l l' : List Future} {α : Prop}, l'.Perm l → l'.Subperm l ∧ (α → l'.Perm l) :=
    fun h => ⟨h.subperm, fun _ => h⟩
  rw [calls_snoc, Pool.calls]
  generalize hS : tr.flatMap Act.started = S
  generalize hF : tr.flatMap Act.failed = F
  -- a thread that executes nothing goes on
  have turn : ∀ {t : ℕ} {th th' : Thread C}, p.threads[t]? = some th → th'.pending = th.pending →
      p.queue ++ (p.threads.set t th').flatMap Thread.pending ++ (S ++ [] ++ (F ++ [])) =
        p.pending ++ (S ++ F) := by
    intro t th th' ht hth
    rw [flatMap_set_same ht hth, List.append_nil, List.append_nil]; rfl
  have rest : p.pending ++ (S ++ [] ++ (F ++ [])) = p.pending ++ (S ++ F) := by
    rw [List.append_nil, List.append_nil]
  cases h with
  | @submit f ad s' spawn hb hs =>
    obtain ⟨-, -, rfl, hi⟩ := hs.submit_dispatch
    refine Or.inl ⟨?_, ?_⟩
    · rcases hs.pool with ⟨-, hsub⟩ | ⟨ad, -, -, -, he⟩
      · have hlen := hsub.length_le
        rw [Coord.pool, Coord.pool, hi] at hlen
        simp at hlen
      · exact he
    · simp only [Act.started, Act.failed, List.append_nil]
      exact (pending_submit p _ spawn).append_right _
  | coordinator hl hs hev hsub =>
    refine Or.inr ⟨?_, same (.of_eq rest)⟩
    rcases hs.pool with ⟨he, -⟩ | ⟨ad, rfl, -⟩
    · exact he
    · cases hev
  | refused hb hs =>
    refine Or.inr ⟨?_, same (.of_eq rest)⟩
    rcases hs.pool with ⟨he, -⟩ | ⟨ad, he, -⟩
    · exact he
    · cases he
  | take _ ht hq =>
    refine Or.inr ⟨rfl, same ?_⟩
    simp only [Act.started, Act.failed, List.append_nil]
    exact (pending_take ht hq).append_right _
  | @start t ctx f ad _ ht =>
    have hleave := (pending_leave ht (rfl : (Thread.busy ctx f).pending = [])).append_right (S ++ F)
    refine Or.inr ⟨rfl, same (.trans ?_ hleave.symm)⟩
    simp only [Act.started, Act.failed, Pool.pending, List.append_nil, List.append_assoc,
      List.cons_append, List.nil_append]
    rw [← List.append_assoc, ← List.append_assoc, ← List.append_assoc, ← List.append_assoc]
    exact List.perm_middle
  | @skip t ctx f ad _ ht hx =>
    have hleave := (pending_leave ht (rfl : (Thread.idle ctx).pending = [])).append_right (S ++ F)
    refine Or.inr ⟨rfl, ?_, fun hc => absurd rfl (hc _ hx)⟩
    simp only [Act.started, Act.failed, List.append_nil]
    exact (List.sublist_cons_self _ _).subperm.trans hleave.symm.subperm
  | @setupRaises t _ ht =>
    obtain ⟨hsub, hperm⟩ := hp.unended
    have hswap : ∀ l : List Future, ([] ++ (p.threads.set t .ended).flatMap Thread.pending ++
        (S ++ [] ++ (F ++ l))).Perm (l ++ (p.threads.flatMap Thread.pending ++ (S ++ F))) := by
      intro l
      rw [flatMap_set_same ht (rfl : Thread.ended.pending = _), List.nil_append, List.append_nil,
        ← List.append_assoc S, ← List.append_assoc]
      exact List.perm_append_comm
    rw [show p.pending ++ (S ++ F) = p.queue ++ (p.threads.flatMap Thread.pending ++ (S ++ F)) from
      List.append_assoc ..]
    refine Or.inr ⟨rfl, (hswap _).subperm.trans ((List.subperm_append_right _).2 hsub), fun hc => ?_⟩
    exact (hswap _).trans ((hperm hc).append_right _)
  | setup _ ht => exact Or.inr ⟨rfl, same (.of_eq (turn ht (rfl : (Thread.idle _).pending = _)))⟩
  | ends _ _ ht => exact Or.inr ⟨rfl, same (.of_eq (turn ht (rfl : (Thread.idle _).pending = _)))⟩
  | exit _ ht => exact Or.inr ⟨rfl, same (.of_eq (turn ht (rfl : Thread.ended.pending = _)))⟩
  | _ => exact Or.inr ⟨rfl, same (.of_eq rest)⟩

/-- A step other than `cancel` cancels no call. -/
theorem Step.uncancelled (h : Step cfg hooks w p act p') (hact : act ≠ .cancel)
    (hp : ∀ x ∈ p.run.c.inflight, x.state ≠ .cancelled) :
    ∀ x ∈ p'.run.c.inflight, x.state ≠ .cancelled := by
  cases h with
  | coordinator _ _ _ hsub => exact fun x hx => hp x (hsub.subset hx)
  | submit _ _ hs =>
    intro x hx
    rw [hs.submit_dispatch.2.2.2, List.mem_append, List.mem_singleton] at hx
    rcases hx with hx | rfl
    · exact hp x hx
    · simp
  | refused _ hs => exact fun x hx => hp x (hs.refused_inv.2.2 ▸ hx)
  | cancel => exact absurd rfl hact
  | setupRaises =>
    intro x hx
    rcases Coord.mem_failAll hx with ⟨hx, -⟩ | ⟨-, -, hs⟩
    · exact hp x hx
    · rw [hs]; simp
  | ends o _ _ hi =>
    intro x hx
    rcases List.mem_append.1 hx with hx | hx
    · exact hp x (by rw [hi]; exact List.mem_append_left _ hx)
    rcases List.mem_cons.1 hx with rfl | hx
    · simp
    · exact hp x (by rw [hi]; exact List.mem_append_right _ (List.mem_cons_of_mem _ hx))
  | _ => exact hp

/-- Once the calls are cancelled the exception is on its way out. -/
theorem Step.cancelled (h : Step cfg hooks w p act p')
    (hp : ∃ fault, p.run.loc = .shutdown (some fault) ∨ p.run.loc = .failed fault) :
    ∃ fault, p'.run.loc = .shutdown (some fault) ∨ p'.run.loc = .failed fault := by
  obtain ⟨fault, hl⟩ := hp
  have hend : p.run.loc.atEnd := by rcases hl with hl | hl <;> rw [hl] <;> trivial
  cases h with
  | coordinator hf hs hev _ => exact absurd hend (hs.not_atEnd hev hf)
  | submit _ _ hs => rw [hs.submit_dispatch.1] at hend; exact hend.elim
  | refused _ hs => rw [hs.refused_inv.1] at hend; exact hend.elim
  | cancel hl => rw [hl] at hend; exact hend.elim
  | leave hf =>
    rcases hl with hl | hl
    · exact ⟨fault, Or.inr (by rw [hl]; rfl)⟩
    · rw [hl] at hf; cases hf
  | _ => exact ⟨fault, hl⟩

/-- Every submitted call waits to be started, was executed, or ended with the pool. -/
structure Dispatched (tr : List (Act P K H R E C)) (p : Pool σ P K H R E C) : Prop where
  nodup : (calls tr p).Nodup
  submitted : ∀ f ∈ calls tr p, f < p.run.c.attemptsTotal
  cancelled : .cancel ∈ tr → ∃ fault, p.run.loc = .shutdown (some fault) ∨ p.run.loc = .failed fault
  uncancelled : .cancel ∉ tr → (∀ x ∈ p.run.c.inflight, x.state ≠ .cancelled) ∧
    (calls tr p).length = p.run.c.attemptsTotal

theorem Dispatched.step (hp : p.Ok cfg) (hd : Dispatched tr p) (h : Step cfg hooks w p act p') :
    Dispatched (tr ++ [act]) p' where
  nodup := by
    rcases h.calls hp tr with ⟨-, hperm⟩ | ⟨-, ⟨l, hl, hsub⟩, -⟩
    · rw [hperm.nodup_iff, List.nodup_cons]
      exact ⟨fun hm => (hd.submitted _ hm).ne rfl, hd.nodup⟩
    · exact hl.nodup_iff.1 (hd.nodup.sublist hsub)
  submitted f hf := by
    rcases h.calls hp tr with ⟨ha, hperm⟩ | ⟨ha, hsub, -⟩
    · rw [ha]
      rcases List.mem_cons.1 (hperm.mem_iff.1 hf) with rfl | hf
      · exact Nat.lt_succ_self _
      · exact (hd.submitted f hf).trans (Nat.lt_succ_self _)
    · rw [ha]; exact hd.submitted f (hsub.subset hf)
  cancelled hc := by
    rcases List.mem_append.1 hc with hc | hc
    · exact h.cancelled (hd.cancelled hc)
    · cases List.mem_singleton.1 hc
      cases h with
      | cancel => exact ⟨_, Or.inl rfl⟩
  uncancelled hc := by
    rw [List.mem_append, List.mem_singleton, not_or] at hc
    obtain ⟨hun, hlen⟩ := hd.uncancelled hc.1
    refine ⟨h.uncancelled (Ne.symm hc.2) hun, ?_⟩
    rcases h.calls hp tr with ⟨ha, hperm⟩ | ⟨ha, -, hperm⟩
    · rw [ha, hperm.length_eq, List.length_cons, hlen]
    · rw [ha, (hperm hun).length_eq, hlen]


variable {w₀ : Hooks P K H E} {items : List (CheckpointItem P)} {st : σ} {s₀ : State σ P K H R E}

/-- What holds of the pool in every run. -/
structure Invariant (cfg : Config σ K H R E) (hooks : WorkerHooks E) (tr : List (Act P K H R E C))
    (p : Pool σ P K H R E C) : Prop where
  ok : p.Ok cfg
  roster : Roster tr p.threads
  contexts : Contexts hooks tr p
  dispatched : Dispatched tr p

theorem Invariant.run (hb : begin w₀ items st = .ok s₀)
    (hr : Lts.Run (Pool.step cfg hooks W) (Pool.start s₀) tr p) : Invariant cfg hooks tr p := by
  refine hr.inv (Invariant cfg hooks) ⟨.init hb, ?_, ?_, ?_⟩ ?_
  · constructor <;> simp [Pool.start, actsOf]
  · obtain ⟨-, -, h⟩ := begin_ok hb
    have hl : s₀.loc = .head := by rw [h]
    constructor <;> simp [Pool.start, hl]
  · obtain ⟨-, -, h⟩ := begin_ok hb
    have hi : s₀.c.inflight = [] := by rw [h]
    have ha : s₀.c.attemptsTotal = 0 := by rw [h]
    constructor <;> simp [Pool.start, calls, Pool.pending, hi, ha]
  · rintro tr p act p' - ⟨hp, hro, hc, hd⟩ ⟨w, -, h⟩
    exact ⟨hp.step h, hro.step h, hc.step hp h, hd.step hp h⟩

end

end Pool

/-- **Each thread has its own context, made once and taken back once.**  A thread
    executes one call at a time on it; the contexts are taken back in the order of
    their making, when every thread has ended. -/
theorem worker_contexts [DecidableEq K] {cfg : Config σ K H R E} {hooks : WorkerHooks E}
    {w₀ : Hooks P K H E} {W : Set (World P K H E)} {items : List (CheckpointItem P)} {st : σ}
    {s₀ : State σ P K H R E} {tr : List (Pool.Act P K H R E C)} {p : Pool σ P K H R E C}
    (hb : begin w₀ items st = .ok s₀) (hr : Lts.Run (Pool.step cfg hooks W) (Pool.start s₀) tr p) :
    (∀ t th, p.threads[t]? = some th → Pool.Served t th (Pool.actsOf t tr)) ∧
    (∀ t, p.threads.length ≤ t → Pool.actsOf t tr = []) ∧
    p.threads.length ≤ cfg.maxWorkers ∧ (tr.flatMap Pool.Act.made).length ≤ p.threads.length ∧
    (∃ n, tr.flatMap Pool.Act.tornDown = (tr.flatMap Pool.Act.made).take n) ∧
    (∀ tr₁ act tr₂, tr = tr₁ ++ act :: tr₂ → act.tornDown ≠ [] →
      (∀ th ∈ p.threads, th = .ended) ∧ ∀ a ∈ tr₂, a.tornDown ≠ [] ∨ a = .leave) ∧
    (p.run.loc = .done ∨ (∃ fault, p.run.loc = .failed fault) →
      (∀ th ∈ p.threads, th = .ended) ∧
        (hooks.hasTeardown → tr.flatMap Pool.Act.tornDown = tr.flatMap Pool.Act.made)) := by
  obtain ⟨hp, hro, hc, -⟩ := Pool.Invariant.run hb hr
  have hmade := hc.made
  rw [hc.created] at hmade
  refine ⟨hro.served, hro.unborn, hp.workers, (Nat.le_add_right _ _).trans hmade,
    ⟨p.torn, by rw [hc.torn, hc.created]⟩, fun tr₁ act tr₂ htr ha => ?_, fun hl => ⟨?_, fun ht => ?_⟩⟩
  · obtain ⟨hpos, hrest⟩ := hc.last tr₁ act tr₂ htr ha
    exact ⟨(hp.closed (Or.inl hpos)).2, hrest⟩
  · exact (hp.closed (Or.inr hl)).2
  · rw [hc.torn, hc.all hl ht, List.take_length, hc.created]

theorem worker_contexts_sample : poolTrace.flatMap Pool.Act.tornDown = [some 8, some 7] :=
  ((worker_contexts poolStart_begins poolTrace_run).2.2.2.2.2.2 (Or.inl rfl)).2 rfl

/-- **Each submitted call is executed once.**  When the run returns, `attempts` counts
    the calls of `execute` and those that ended with a broken pool; however it ends, no
    call of `execute` is left running. -/
theorem calls_executed [DecidableEq K] {cfg : Config σ K H R E} {hooks : WorkerHooks E}
    {w₀ : Hooks P K H E} {W : Set (World P K H E)} {items : List (CheckpointItem P)} {st : σ}
    {s₀ : State σ P K H R E} {tr : List (Pool.Act P K H R E C)} {p : Pool σ P K H R E C}
    (hb : begin w₀ items st = .ok s₀) (hr : Lts.Run (Pool.step cfg hooks W) (Pool.start s₀) tr p) :
    (p.pending ++ (tr.flatMap Pool.Act.started ++ tr.flatMap Pool.Act.failed)).Nodup ∧
    (.cancel ∉ tr → (p.pending ++ (tr.flatMap Pool.Act.started ++ tr.flatMap Pool.Act.failed)).Perm
      (List.range p.run.c.attemptsTotal)) ∧
    (p.run.loc = .done →
      (tr.flatMap Pool.Act.started ++ tr.flatMap Pool.Act.failed).Perm
        (List.range p.run.c.attemptsTotal) ∧
      p.run.c.attemptsTotal =
        (tr.flatMap Pool.Act.started).length + (tr.flatMap Pool.Act.failed).length) ∧
    (p.run.loc = .done ∨ (∃ fault, p.run.loc = .failed fault) →
      ∀ t ctx f, .start t ctx f ∈ tr → ∃ ad o, .ends t f ad o ∈ tr) := by
  obtain ⟨hp, hro, -, hd⟩ := Pool.Invariant.run hb hr
  have hperm : .cancel ∉ tr → (Pool.calls tr p).Perm (List.range p.run.c.attemptsTotal) :=
      fun hc => by
    have hsub : Pool.calls tr p ⊆ List.range p.run.c.attemptsTotal := fun f hf =>
      List.mem_range.2 (hd.submitted f hf)
    refine (List.subperm_of_subset hd.nodup hsub).perm_of_length_le ?_
    rw [List.length_range, (hd.uncancelled hc).2]
  refine ⟨hd.nodup, hperm, fun hl => ?_, fun hl t ctx f hf => ?_⟩
  · have hc : .cancel ∉ tr := fun hc => by
      obtain ⟨fault, h | h⟩ := hd.cancelled hc <;> rw [hl] at h <;> cases h
    have hq := hp.held_nil (hp.closed (Or.inr (Or.inl hl))).2
    rw [Pool.held, List.append_eq_nil_iff] at hq
    have h := hperm hc
    rw [Pool.calls, hq.1, List.nil_append] at h
    refine ⟨h, ?_⟩
    rw [← List.length_append, h.length_eq, List.length_range]
  · have hm : .start t ctx f ∈ Pool.actsOf t tr :=
      List.mem_filter.2 ⟨hf, by simp [Pool.Act.thread]⟩
    have hlt : t < p.threads.length := by
      by_contra hle
      rw [hro.unborn t (not_lt.1 hle)] at hm; cases hm
    have hs := hro.served t _ (List.getElem?_eq_getElem hlt)
    rw [(hp.closed (Or.inr hl)).2 _ (List.getElem_mem hlt)] at hs
    rcases hs with ⟨calls, hs⟩ | ⟨ctx', xs, hs⟩
    · rw [hs] at hm; simp at hm
    · -- the thread has ended, so its executions are complete
      rw [hs] at hm
      simp only [Pool.executions, List.cons_append, List.mem_cons, List.mem_append,
        List.mem_flatMap, List.not_mem_nil, or_false, reduceCtorEq, false_or] at hm
      obtain ⟨⟨g, ad, o⟩, hx, hm⟩ := hm
      obtain ⟨-, -, rfl⟩ := Pool.Act.start.inj hm
      have he : .ends t f ad o ∈ Pool.actsOf t tr := by
        rw [hs]
        exact List.mem_cons_of_mem _ (List.mem_append_left _
          (List.mem_flatMap.2 ⟨_, hx, by simp⟩))
      exact ⟨ad, o, List.mem_of_mem_filter he⟩

theorem calls_executed_sample : poolEnd.run.c.attemptsTotal = 2 ∧
    ∃ ad o, .ends 1 0 ad o ∈ poolTrace := by
  obtain ⟨-, -, h, hends⟩ := calls_executed poolStart_begins poolTrace_run
  exact ⟨(h rfl).2, hends (Or.inl rfl) 1 (some 8) 0 (by simp [poolTrace])⟩

end ResumableBatch
