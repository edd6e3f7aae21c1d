/-
  Computations in `EStateM`: what a sequence that returns or raises went through,
  relations between the states before and after that hold however it ends, and what
  code can return and raise at all.
-/
import Mathlib.Tactic.TypeStar

namespace EStateM

variable {ε σ α β : Type}

theorem bind_ok {x : EStateM ε σ α} {f : α → EStateM ε σ β} {s s'' : σ} {b : β} :
    (x >>= f) s = .ok b s'' ↔ ∃ a s', x s = .ok a s' ∧ f a s' = .ok b s'' := by
  show EStateM.bind x f s = _ ↔ _
  unfold EStateM.bind
  cases x s <;> simp [and_assoc]

theorem bind_error {x : EStateM ε σ α} {f : α → EStateM ε σ β} {s s'' : σ} {e : ε} :
    (x >>= f) s = .error e s'' ↔
      x s = .error e s'' ∨ ∃ a s', x s = .ok a s' ∧ f a s' = .error e s'' := by
  show EStateM.bind x f s = _ ↔ _
  unfold EStateM.bind
  cases x s <;> simp [and_assoc]

@[simp] theorem pure_ok {s s' : σ} {a b : α} :
    (pure a : EStateM ε σ α) s = .ok b s' ↔ a = b ∧ s = s' := by
  show Result.ok a s = _ ↔ _
  simp

@[simp] theorem pure_error {s s' : σ} {a : α} {e : ε} :
    (pure a : EStateM ε σ α) s ≠ .error e s' := by
  show Result.ok a s ≠ _
  simp

@[simp] theorem get_ok {s s' t : σ} : (get : EStateM ε σ σ) s = .ok t s' ↔ s = t ∧ s = s' := by
  show Result.ok s s = _ ↔ _
  simp

@[simp] theorem get_error {s s' : σ} {e : ε} : (get : EStateM ε σ σ) s ≠ .error e s' := by
  show Result.ok s s ≠ _
  simp

@[simp] theorem modify_ok {s s' : σ} {f : σ → σ} {u : PUnit} :
    (modify f : EStateM ε σ PUnit) s = .ok u s' ↔ f s = s' := by
  show Result.ok () (f s) = _ ↔ _
  simp

@[simp] theorem modify_error {s s' : σ} {f : σ → σ} {e : ε} :
    (modify f : EStateM ε σ PUnit) s ≠ .error e s' := by
  show Result.ok () (f s) ≠ _
  simp

@[simp] theorem throw_ok {s s' : σ} {a : α} {e : ε} :
    (throw e : EStateM ε σ α) s ≠ .ok a s' := by
  show Result.error e s ≠ _
  simp

@[simp] theorem throw_error {s s' : σ} {e e' : ε} :
    (throw e : EStateM ε σ α) s = .error e' s' ↔ e = e' ∧ s = s' := by
  show Result.error e s = _ ↔ _
  simp

/-- `try x catch h`: `x` returns, or it raises and the handler takes over in
    the state it leaves. -/
theorem tryCatch_ok {x : EStateM ε σ α} {h : ε → EStateM ε σ α} {s s'' : σ} {a : α} :
    (tryCatch x h : EStateM ε σ α) s = .ok a s'' ↔
      x s = .ok a s'' ∨ ∃ e s', x s = .error e s' ∧ h e s' = .ok a s'' := by
  show EStateM.tryCatch x h s = _ ↔ _
  unfold EStateM.tryCatch
  cases x s <;> simp [Backtrackable.restore, dummyRestore, and_assoc]

theorem tryCatch_error {x : EStateM ε σ α} {h : ε → EStateM ε σ α} {s s'' : σ} {e' : ε} :
    (tryCatch x h : EStateM ε σ α) s = .error e' s'' ↔
      ∃ e s', x s = .error e s' ∧ h e s' = .error e' s'' := by
  show EStateM.tryCatch x h s = _ ↔ _
  unfold EStateM.tryCatch
  cases x s <;> simp [Backtrackable.restore, dummyRestore, and_assoc]

/-! ## However code ends -/

/-- The state is moved along a relation, whether the code returns or raises. -/
def Moves (R : σ → σ → Prop) (x : EStateM ε σ α) : Prop :=
  ∀ s s', ((∃ a, x s = .ok a s') ∨ ∃ e, x s = .error e s') → R s s'

section
variable {R : σ → σ → Prop}

theorem Moves.pure (hrefl : ∀ s, R s s) (a : α) : Moves R (pure a : EStateM ε σ α) := by
  rintro s s' (⟨b, h⟩ | ⟨e, h⟩)
  · obtain ⟨-, rfl⟩ := pure_ok.1 h
    exact hrefl s
  · exact absurd h pure_error

theorem Moves.throw (hrefl : ∀ s, R s s) (e : ε) : Moves R (throw e : EStateM ε σ α) := by
  rintro s s' (⟨b, h⟩ | ⟨e', h⟩)
  · exact absurd h throw_ok
  · obtain ⟨-, rfl⟩ := throw_error.1 h
    exact hrefl s

theorem Moves.bind (htrans : ∀ {s t u}, R s t → R t u → R s u) {x : EStateM ε σ α}
    {f : α → EStateM ε σ β} (hx : Moves R x) (hf : ∀ a, Moves R (f a)) : Moves R (x >>= f) := by
  rintro s s'' (⟨b, h⟩ | ⟨e, h⟩)
  · obtain ⟨a, s', h₁, h₂⟩ := bind_ok.1 h
    exact htrans (hx s s' (Or.inl ⟨a, h₁⟩)) (hf a s' s'' (Or.inl ⟨b, h₂⟩))
  · rcases bind_error.1 h with h₁ | ⟨a, s', h₁, h₂⟩
    · exact hx s s'' (Or.inr ⟨e, h₁⟩)
    · exact htrans (hx s s' (Or.inl ⟨a, h₁⟩)) (hf a s' s'' (Or.inr ⟨e, h₂⟩))

theorem Moves.tryCatch (htrans : ∀ {s t u}, R s t → R t u → R s u) {x : EStateM ε σ α}
    {h : ε → EStateM ε σ α} (hx : Moves R x) (hh : ∀ e, Moves R (h e)) :
    Moves R (tryCatch x h : EStateM ε σ α) := by
  rintro s s'' (⟨a, h⟩ | ⟨e, h⟩)
  · rcases tryCatch_ok.1 h with h₁ | ⟨e, s', h₁, h₂⟩
    · exact hx s s'' (Or.inl ⟨a, h₁⟩)
    · exact htrans (hx s s' (Or.inr ⟨e, h₁⟩)) (hh e s' s'' (Or.inl ⟨a, h₂⟩))
  · obtain ⟨e', s', h₁, h₂⟩ := tryCatch_error.1 h
    exact htrans (hx s s' (Or.inr ⟨e', h₁⟩)) (hh e' s' s'' (Or.inr ⟨e, h₂⟩))

theorem Moves.forM (hrefl : ∀ s, R s s) (htrans : ∀ {s t u}, R s t → R t u → R s u)
    {f : α → EStateM ε σ PUnit} {l : List α} (hf : ∀ a ∈ l, Moves R (f a)) :
    Moves R (l.forM f) := by
  induction l with
  | nil => exact Moves.pure hrefl _
  | cons a l ih =>
    rw [List.forall_mem_cons] at hf
    exact Moves.bind (R := R) @htrans hf.1 fun _ => ih hf.2

end

/-! ## What code can return and raise -/

/-- What the code returns satisfies `Q`, and what it raises satisfies `X`, from any state. -/
def Yields (Q : α → Prop) (X : ε → Prop) (x : EStateM ε σ α) : Prop :=
  ∀ s, match x s with
    | .ok a _ => Q a
    | .error e _ => X e

namespace Yields

variable {Q Q' : α → Prop} {X : ε → Prop}

theorem of_ok {x : EStateM ε σ α} (h : Yields Q X x) {s s' : σ} {a : α} (hx : x s = .ok a s') :
    Q a := by
  have := h s
  rwa [hx] at this

theorem of_error {x : EStateM ε σ α} (h : Yields Q X x) {s s' : σ} {e : ε}
    (hx : x s = .error e s') : X e := by
  have := h s
  rwa [hx] at this

theorem pure {a : α} (ha : Q a) : Yields Q X (pure a : EStateM ε σ α) := fun _ => ha

theorem throw {e : ε} (he : X e) : Yields Q X (throw e : EStateM ε σ α) := fun _ => he

theorem get : Yields (fun _ => True) X (get : EStateM ε σ σ) := fun _ => trivial

theorem modify {f : σ → σ} : Yields (fun _ => True) X (modify f : EStateM ε σ PUnit) :=
  fun _ => trivial

theorem bind {x : EStateM ε σ α} {f : α → EStateM ε σ β} {Q' : β → Prop} (hx : Yields Q X x)
    (hf : ∀ a, Q a → Yields Q' X (f a)) : Yields Q' X (x >>= f) := by
  intro s
  show match EStateM.bind x f s with
    | .ok b _ => Q' b
    | .error e _ => X e
  have h := hx s
  unfold EStateM.bind
  cases hs : x s with
  | ok a s' =>
    rw [hs] at h
    exact hf a h s'
  | error e s' =>
    rw [hs] at h
    exact h

theorem tryCatch {x : EStateM ε σ α} {h : ε → EStateM ε σ α} {X' : ε → Prop} (hx : Yields Q X' x)
    (hh : ∀ e, X' e → Yields Q X (h e)) : Yields Q X (tryCatch x h : EStateM ε σ α) := by
  intro s
  show match EStateM.tryCatch x h s with
    | .ok a _ => Q a
    | .error e _ => X e
  have hs := hx s
  unfold EStateM.tryCatch
  cases he : x s with
  | ok a s' =>
    rw [he] at hs
    exact hs
  | error e s' =>
    rw [he] at hs
    exact hh e hs _

theorem ite {p : Prop} [Decidable p] {x y : EStateM ε σ α} (hx : p → Yields Q X x)
    (hy : ¬ p → Yields Q X y) : Yields Q X (if p then x else y) := by
  split
  · exact hx ‹_›
  · exact hy ‹_›

theorem mapM {f : α → EStateM ε σ β} {l : List α} (hf : ∀ a, Yields (fun _ => True) X (f a)) :
    Yields (fun _ => True) X (l.mapM f) := by
  induction l with
  | nil => exact fun _ => trivial
  | cons a l ih =>
    rw [List.mapM_cons]
    exact (hf a).bind fun _ _ => ih.bind fun _ _ => .pure trivial

end Yields

end EStateM
