/-
  Lists: `mapM` in `Option` and `Except`, entrywise relations, entries told
  apart by a key.
-/
import Mathlib.Data.List.Forall2

variable {α β ε : Type}

theorem Option.mapM_eq_some {f : α → Option β} {xs : List α} {ys : List β} :
    xs.mapM f = some ys ↔ List.Forall₂ (fun x y => f x = some y) xs ys := by
  induction xs generalizing ys with
  | nil => cases ys <;> simp
  | cons x xs ih =>
    cases hx : f x with
    | none => cases ys <;> simp [hx]
    | some y =>
      cases hxs : xs.mapM f with
      | none =>
        cases ys with
        | nil => simp [hx, hxs]
        | cons y' ys => simp [hx, hxs, ← ih]
      | some ys' =>
        cases ys with
        | nil => simp [hx, hxs]
        | cons y' ys => simp [hx, hxs, ← ih]

theorem Except.bind_ok {x : Except ε α} {f : α → Except ε β} {b : β} :
    (x >>= f) = .ok b ↔ ∃ a, x = .ok a ∧ f a = .ok b := by
  cases x <;> simp [bind, Except.bind]

theorem Except.bind_error {x : Except ε α} {f : α → Except ε β} {e : ε} :
    (x >>= f) = .error e ↔ x = .error e ∨ ∃ a, x = .ok a ∧ f a = .error e := by
  cases x <;> simp [bind, Except.bind]

theorem Except.mapError_ok {ε' : Type*} {f : ε → ε'} {x : Except ε α} {a : α} :
    x.mapError f = .ok a ↔ x = .ok a := by
  cases x <;> simp [Except.mapError]

theorem Except.mapM_eq_ok {f : α → Except ε β} {xs : List α} {ys : List β} :
    xs.mapM f = .ok ys ↔ List.Forall₂ (fun x y => f x = .ok y) xs ys := by
  induction xs generalizing ys with
  | nil => cases ys <;> simp [pure, Except.pure]
  | cons x xs ih =>
    cases hx : f x with
    | error e => cases ys <;> simp [hx, bind, Except.bind]
    | ok y =>
      cases hxs : xs.mapM f with
      | error e =>
        cases ys with
        | nil => simp [hx, hxs, bind, Except.bind]
        | cons y' ys => simp [hx, hxs, ← ih, bind, Except.bind]
      | ok ys' =>
        cases ys with
        | nil => simp [hx, hxs, bind, Except.bind, pure, Except.pure]
        | cons y' ys => simp [hx, hxs, ← ih, bind, Except.bind, pure, Except.pure]

/-- A `mapM` that raises does so at some entry. -/
theorem Except.mapM_eq_error {f : α → Except ε β} {xs : List α} {e : ε} (h : xs.mapM f = .error e) :
    ∃ x ∈ xs, f x = .error e := by
  induction xs with
  | nil => simp [pure, Except.pure] at h
  | cons x xs ih =>
    cases hx : f x with
    | error e' =>
      simp only [List.mapM_cons, hx, bind, Except.bind] at h
      cases h; exact ⟨x, by simp, hx⟩
    | ok y =>
      cases hxs : xs.mapM f with
      | error e' =>
        simp only [List.mapM_cons, hx, hxs, bind, Except.bind] at h
        cases h
        obtain ⟨x', hx', he⟩ := ih hxs
        exact ⟨x', by simp [hx'], he⟩
      | ok ys => simp [hx, hxs, bind, Except.bind, pure, Except.pure] at h

namespace List

variable {R : α → β → Prop}

/-- Related lists exist when every entry has a related one. -/
theorem exists_forall₂ {xs : List α} (h : ∀ x ∈ xs, ∃ y, R x y) : ∃ ys, Forall₂ R xs ys := by
  induction xs with
  | nil => exact ⟨[], .nil⟩
  | cons x xs ih =>
    obtain ⟨y, hy⟩ := h x (by simp)
    obtain ⟨ys, hys⟩ := ih fun a ha => h a (by simp [ha])
    exact ⟨y :: ys, .cons hy hys⟩

theorem Forall₂.mem_right {xs : List α} {ys : List β} (h : Forall₂ R xs ys) {y : β} (hy : y ∈ ys) :
    ∃ x ∈ xs, R x y := by
  induction h with
  | nil => simp at hy
  | cons hxy _ ih =>
    rcases mem_cons.1 hy with rfl | hy
    · exact ⟨_, by simp, hxy⟩
    · obtain ⟨x, hx, h⟩ := ih hy
      exact ⟨x, by simp [hx], h⟩

theorem Forall₂.mem_left {xs : List α} {ys : List β} (h : Forall₂ R xs ys) {x : α} (hx : x ∈ xs) :
    ∃ y ∈ ys, R x y :=
  h.flip.mem_right hx

/-- Lists of entries told apart by their images are equal if their images are. -/
theorem eq_of_map_eq {f : α → β} {xs ys : List α} (hinj : ∀ x ∈ xs, ∀ y ∈ ys, f x = f y → x = y)
    (h : xs.map f = ys.map f) : xs = ys := by
  induction xs generalizing ys with
  | nil => rw [map_nil, eq_comm, map_eq_nil_iff] at h; exact h.symm
  | cons x xs ih =>
    cases ys with
    | nil => simp at h
    | cons y ys =>
      rw [map_cons, map_cons, cons.injEq] at h
      rw [hinj x mem_cons_self y mem_cons_self h.1,
        ih (fun a ha b hb => hinj a (mem_cons_of_mem _ ha) b (mem_cons_of_mem _ hb)) h.2]

theorem mem_append_cons_of_mem {pre post : List α} {x y : α} (h : x ∈ pre ++ post) :
    x ∈ pre ++ y :: post :=
  (Sublist.append (.refl pre) (sublist_cons_self y post)).subset h

/-- The entry with a given key stands in one place. -/
theorem append_cons_unique {f : α → β} {pre post pre' post' : List α} {x y : α}
    (hnd : ((pre ++ x :: post).map f).Nodup) (h : pre ++ x :: post = pre' ++ y :: post')
    (hf : f x = f y) : pre = pre' ∧ x = y ∧ post = post' := by
  induction pre generalizing pre' with
  | nil =>
    cases pre' with
    | nil => simpa using h
    | cons z pre' =>
      obtain ⟨rfl, rfl⟩ := cons_eq_cons.1 h
      simp only [nil_append, map_cons, nodup_cons] at hnd
      exact absurd (mem_map.2 ⟨y, by simp, hf.symm⟩) hnd.1
  | cons z pre ih =>
    cases pre' with
    | nil =>
      obtain ⟨rfl, rfl⟩ := cons_eq_cons.1 h
      simp only [cons_append, map_cons, nodup_cons] at hnd
      exact absurd (mem_map.2 ⟨x, by simp, hf⟩) hnd.1
    | cons z' pre' =>
      rw [cons_append, cons_append, cons.injEq] at h
      rw [cons_append, map_cons, nodup_cons] at hnd
      obtain ⟨rfl, h⟩ := h
      obtain ⟨rfl, hxy⟩ := ih hnd.2 h
      exact ⟨rfl, hxy⟩

/-- Where `set` puts the new entry. -/
theorem set_of_getElem? {xs : List α} {i : ℕ} {x : α} (h : xs[i]? = some x) :
    ∃ pre post, xs = pre ++ x :: post ∧ ∀ y, xs.set i y = pre ++ y :: post := by
  obtain ⟨hi, rfl⟩ := getElem?_eq_some_iff.1 h
  refine ⟨xs.take i, xs.drop (i + 1), ?_, fun y => ?_⟩
  · rw [getElem_cons_drop, take_append_drop]
  · rw [set_eq_take_append_cons_drop, if_pos hi]

end List

/-! ## Computations that may give up -/

namespace Except

/-- `x` raises `e`, or it ends as `y` does. -/
def UpTo (e : ε) (x y : Except ε α) : Prop := x = .error e ∨ x = y

namespace UpTo

variable {e : ε} {x y z : Except ε α}

theorem refl (e : ε) (x : Except ε α) : UpTo e x x := Or.inr rfl

theorem ok {a : α} (h : UpTo e x y) (hx : x = .ok a) : y = .ok a := by
  rcases h with rfl | rfl
  · cases hx
  · exact hx

theorem bind {f g : α → Except ε β} (h : UpTo e x y) (hf : ∀ a, UpTo e (f a) (g a)) :
    UpTo e (x >>= f) (y >>= g) := by
  rcases h with rfl | rfl
  · exact Or.inl rfl
  · cases x with
    | error e' => exact Or.inr rfl
    | ok a => exact hf a

theorem mapM {f g : α → Except ε β} {l : List α} (h : ∀ a, UpTo e (f a) (g a)) :
    UpTo e (l.mapM f) (l.mapM g) := by
  induction l with
  | nil => exact refl e _
  | cons a l ih =>
    rw [List.mapM_cons, List.mapM_cons]
    exact bind (h a) fun b => bind ih fun bs => refl e _

theorem mapError {ε' : Type} {f : ε → ε'} (h : UpTo e x y) :
    UpTo (f e) (x.mapError f) (y.mapError f) := by
  rcases h with rfl | rfl
  · exact Or.inl rfl
  · exact refl _ _

end UpTo

end Except
