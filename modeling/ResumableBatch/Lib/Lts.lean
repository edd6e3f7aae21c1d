/-
  Runs of a labelled transition relation: invariants along a run, and
  termination up to idle steps.
-/
import Mathlib.Data.List.Induction
import Mathlib.Order.WellFounded

namespace Lts

variable {S L α : Type}

/-- `Run step s tr s'`: from `s` the steps labelled `tr` lead to `s'`. -/
inductive Run (step : S → L → S → Prop) (s : S) : List L → S → Prop where
  | nil : Run step s [] s
  | snoc {tr s' l s''} : Run step s tr s' → step s' l s'' → Run step s (tr ++ [l]) s''

variable {step : S → L → S → Prop}

namespace Run

theorem single {s s' : S} {l : L} (h : step s l s') : Run step s [l] s' := by
  simpa using Run.snoc .nil h

theorem append {s s' s'' : S} {tr tr' : List L} (h : Run step s tr s') (h' : Run step s' tr' s'') :
    Run step s (tr ++ tr') s'' := by
  induction h' with
  | nil => simpa using h
  | snoc _ hs ih => rw [← List.append_assoc]; exact ih.snoc hs

theorem cons {s s' s'' : S} {l : L} {tr : List L} (h : step s l s') (h' : Run step s' tr s'') :
    Run step s (l :: tr) s'' := by
  simpa using (single h).append h'

/-- The last step of a run. -/
theorem snoc_inv {s s'' : S} {l : L} {tr : List L} (h : Run step s (tr ++ [l]) s'') :
    ∃ s', Run step s tr s' ∧ step s' l s'' := by
  generalize htr : tr ++ [l] = tr' at h
  cases h with
  | nil => simp at htr
  | snoc h hs =>
    obtain ⟨rfl, hl⟩ := List.append_inj' htr rfl
    cases hl; exact ⟨_, h, hs⟩

theorem of_single {s s' : S} {l : L} (h : Run step s [l] s') : step s l s' := by
  obtain ⟨s₁, h, hs⟩ := snoc_inv (show Run step s ([] ++ [l]) s' from h)
  generalize htr : ([] : List L) = tr at h
  cases h with
  | nil => exact hs
  | snoc => simp at htr

/-- A run passes through a state between any two parts of its trace. -/
theorem split {s s'' : S} {tr tr' : List L} (h : Run step s (tr ++ tr') s'') :
    ∃ s', Run step s tr s' ∧ Run step s' tr' s'' := by
  induction tr' using List.reverseRecOn generalizing s'' with
  | nil => exact ⟨s'', by simpa using h, .nil⟩
  | append_singleton tr' l ih =>
    rw [← List.append_assoc] at h
    obtain ⟨s₁, h₁, hs⟩ := h.snoc_inv
    obtain ⟨s', h', h₁⟩ := ih h₁
    exact ⟨s', h', h₁.snoc hs⟩

/-- The step of a run that carries a given label. -/
theorem step_of_mem {s s'' : S} {l : L} {tr : List L} (h : Run step s tr s'') (hl : l ∈ tr) :
    ∃ tr₁ tr₂ s₁ s₂, tr = tr₁ ++ l :: tr₂ ∧ Run step s tr₁ s₁ ∧ step s₁ l s₂ ∧
      Run step s₂ tr₂ s'' := by
  obtain ⟨tr₁, tr₂, rfl⟩ := List.append_of_mem hl
  rw [show tr₁ ++ l :: tr₂ = (tr₁ ++ [l]) ++ tr₂ by simp] at h
  obtain ⟨s₂, h, h₂⟩ := h.split
  obtain ⟨s₁, h₁, hs⟩ := h.snoc_inv
  exact ⟨tr₁, tr₂, s₁, s₂, rfl, h₁, hs, h₂⟩

/-- **The invariant rule**: what holds at first and is kept by every step of
    the run holds at its end. -/
theorem inv {s : S} (I : List L → S → Prop) (h₀ : I [] s)
    (hstep : ∀ {tr s' l s''}, Run step s tr s' → I tr s' → step s' l s'' → I (tr ++ [l]) s'')
    {tr : List L} {s' : S} (h : Run step s tr s') : I tr s' := by
  induction h with
  | nil => exact h₀
  | snoc h hs ih => exact hstep h ih hs

/-- A run that ends in a property it did not start with enters it at some step. -/
theorem enters {P : S → Prop} {s s' : S} {tr : List L} (h : Run step s tr s') (h₀ : ¬ P s)
    (h' : P s') : ∃ tr₁ l tr₂ s₁ s₂, tr = tr₁ ++ l :: tr₂ ∧ Run step s tr₁ s₁ ∧ ¬ P s₁ ∧
      step s₁ l s₂ ∧ P s₂ ∧ Run step s₂ tr₂ s' := by
  induction h with
  | nil => exact absurd h' h₀
  | @snoc tr s₁ l s₂ h hs ih =>
    by_cases h₁ : P s₁
    · obtain ⟨tr₁, l', tr₂, a, b, rfl, ha, hna, hab, hb, h₂⟩ := ih h₁
      exact ⟨tr₁, l', tr₂ ++ [l], a, b, by simp, ha, hna, hab, hb, h₂.snoc hs⟩
    · exact ⟨tr, l, [], s₁, s₂, rfl, h, h₁, hs, h', .nil⟩

/-- A run under a relation is one under any larger relation. -/
theorem mono {step' : S → L → S → Prop} (hle : ∀ {s l s'}, step s l s' → step' s l s')
    {s s' : S} {tr : List L} (h : Run step s tr s') : Run step' s tr s' := by
  induction h with
  | nil => exact .nil
  | snoc _ hs ih => exact ih.snoc (hle hs)

/-- **The simulation rule**: where each step of a run is matched by a run of another
    system, so is the whole run.  `f` and `g` are what the other system sees of a state
    and of a label, and `I` an invariant. -/
theorem simulate {T M : Type} {step' : T → M → T → Prop} (f : S → T) (g : L → List M)
    (I : S → Prop) (hI : ∀ {s l s'}, I s → step s l s' → I s')
    (hsim : ∀ {s l s'}, I s → step s l s' → Run step' (f s) (g l) (f s')) {s s' : S} {tr : List L}
    (h : Run step s tr s') (h₀ : I s) : I s' ∧ Run step' (f s) (tr.flatMap g) (f s') := by
  induction h with
  | nil => exact ⟨h₀, .nil⟩
  | snoc _ hs ih =>
    obtain ⟨h₁, hr⟩ := ih
    refine ⟨hI h₁ hs, ?_⟩
    rw [List.flatMap_append, List.flatMap_singleton]
    exact hr.append (hsim h₁ hs)

end Run

/-! ## Termination up to idle steps -/

section
variable (step) (idle : L → Prop)

/-- Some idle steps, then one that is not idle. -/
def Advance (s s' : S) : Prop :=
  ∃ tr s₁ l, Run step s tr s₁ ∧ (∀ l' ∈ tr, idle l') ∧ step s₁ l s' ∧ ¬ idle l

variable {step idle} (I : S → Prop) (hI : ∀ {s l s'}, I s → step s l s' → I s')
  (m : S → α) (hidle : ∀ {s l s'}, I s → step s l s' → idle l → m s' = m s)
include hI hidle

theorem Run.idle_measure {s s' : S} {tr : List L} (h : Run step s tr s') (hs : I s)
    (htr : ∀ l ∈ tr, idle l) : I s' ∧ m s' = m s := by
  induction h with
  | nil => exact ⟨hs, rfl⟩
  | @snoc tr s₁ l s₂ _ hl ih =>
    obtain ⟨h₁, hm⟩ := ih fun l' hl' => htr l' (by simp [hl'])
    exact ⟨hI h₁ hl, (hidle h₁ hl (htr l (by simp))).trans hm⟩

variable (r : α → α → Prop) (hr : WellFounded r)
  (hlt : ∀ {s l s'}, I s → step s l s' → ¬ idle l → r (m s') (m s))
include hr hlt

/-- **The measure rule**: if every step that is not idle lowers the measure and
    idle steps keep it, the steps that are not idle are well-founded. -/
theorem wellFounded_advance : WellFounded fun s' s => I s ∧ Advance step idle s s' := by
  refine Subrelation.wf (r := InvImage r m) ?_ (InvImage.wf m hr)
  rintro s' s ⟨hs, tr, s₁, l, h, htr, hl, hne⟩
  obtain ⟨h₁, hm⟩ := h.idle_measure I @hI m @hidle hs htr
  show r (m s') (m s)
  rw [← hm]; exact hlt h₁ hl hne

/-- No infinite run has infinitely many steps that are not idle. -/
theorem eventually_idle (f : ℕ → S) (l : ℕ → L) (h₀ : I (f 0))
    (hf : ∀ n, step (f n) (l n) (f (n + 1))) : ∃ N, ∀ n ≥ N, idle (l n) := by
  have hIf : ∀ n, I (f n) := fun n => by
    induction n with
    | zero => exact h₀
    | succ n ih => exact hI ih (hf n)
  -- a state of minimal measure is followed by idle steps only
  obtain ⟨_, ⟨N, rfl⟩, hmin⟩ := hr.has_min (Set.range fun n => m (f n)) ⟨_, 0, rfl⟩
  have hnlt : ∀ n, m (f n) = m (f N) → idle (l n) := fun n hn => by
    by_contra hne
    have := hlt (hIf n) (hf n) hne
    rw [hn] at this; exact hmin _ ⟨n + 1, rfl⟩ this
  have key : ∀ k, m (f (N + k)) = m (f N) := fun k => by
    induction k with
    | zero => rfl
    | succ k ih => exact (hidle (hIf _) (hf _) (hnlt _ ih)).trans ih
  exact ⟨N, fun n hn => by
    obtain ⟨k, rfl⟩ := Nat.exists_eq_add_of_le hn; exact hnlt _ (key k)⟩

end

end Lts
