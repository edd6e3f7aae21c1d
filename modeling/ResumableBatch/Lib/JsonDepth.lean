/-
  The stack below `dumps`, `loads` and `str`: code that is called with less of it left
  does the same, or raises `RecursionError` (`dumps_upTo`, `loads_upTo`, `pyStr_upTo`).
-/
import ResumableBatch.Lib.Json
import ResumableBatch.Lib.Lists

namespace Json

open Text

variable {F : Type}

/-- The same interpreter, with no more of the stack left. -/
structure Interp.Within (J I : Interp F) : Prop where
  nan : J.nan = I.nan
  inf : J.inf = I.inf
  negInf : J.negInf = I.negInf
  floatstr : J.floatstr = I.floatstr
  parseFloat : J.parseFloat = I.parseFloat
  floatEqInt : J.floatEqInt = I.floatEqInt
  strFloat : J.strFloat = I.strFloat
  sortNumbers : J.sortNumbers = I.sortNumbers
  maxDigits : J.maxDigits = I.maxDigits
  strInside : ∀ v, Except.UpTo .recursionError (J.strInside v) (I.strInside v)
  encodeDepth : J.encodeDepth ≤ I.encodeDepth
  innerDepth : J.innerDepth ≤ I.innerDepth
  scanDepth : J.scanDepth ≤ I.scanDepth

namespace Interp

theorem Within.refl (I : Interp F) : I.Within I where
  nan := rfl
  inf := rfl
  negInf := rfl
  floatstr := rfl
  parseFloat := rfl
  floatEqInt := rfl
  strFloat := rfl
  sortNumbers := rfl
  maxDigits := rfl
  strInside _ := .refl _ _
  encodeDepth := le_rfl
  innerDepth := le_rfl
  scanDepth := le_rfl

theorem inner_within (I : Interp F) : I.inner.Within I :=
  { Within.refl I with encodeDepth := I.inner_le }

theorem Within.inner {J I : Interp F} (h : J.Within I) : J.inner.Within I.inner :=
  { h with encodeDepth := h.innerDepth }

end Interp

variable {J I : Interp F}

/-! ## Writing -/

theorem intRepr_within (h : J.Within I) (n : ℤ) : intRepr J n = intRepr I n := by
  rw [intRepr, intRepr, h.maxDigits]

theorem keyText_within (h : J.Within I) (k : Key F) : keyText J k = keyText I k := by
  cases k with
  | int n => exact intRepr_within h n
  | float x => rw [keyText, keyText, h.floatstr]
  | bool b => cases b <;> rfl
  | str s => rfl
  | none => rfl

theorem sortItems_within (h : J.Within I) (ps : List (Key F × Tree F .value)) :
    sortItems J ps = sortItems I ps := by
  rw [sortItems, sortItems, h.sortNumbers]

theorem encode_within (h : J.Within I) {sh : Shape} (v : Value F sh) : encode J v = encode I v := by
  induction v with
  | int n => rw [encode, encode, intRepr_within h]
  | list xs ih => rw [encode, encode, ih]
  | tuple xs ih => rw [encode, encode, ih]
  | dict ms ih =>
    rw [encode, encode, ih]
    simp only [sortItems_within h, keyText_within h]
  | cons x xs ih ihs => rw [encode, encode, ih, ihs]
  | item k x ms ih ihs => rw [encode, encode, ih, ihs]
  | _ => rfl

theorem render_within (h : J.Within I) (ascii : Bool) {sh : Shape} (t : Tree F sh) :
    render J ascii t = render I ascii t := by
  induction t with
  | bool b => cases b <;> rfl
  | float x => rw [render, render, h.floatstr]
  | array xs ih => rw [render, render, ih]
  | object ms ih => rw [render, render, ih]
  | cons x xs ih ihs => rw [render, render, ih, ihs]
  | member k x ms ih ihs => rw [render, render, ih, ihs]
  | _ => rfl

/-- **What is written with less of the stack left.** -/
theorem dumps_within (h : J.Within I) {ascii : Bool} {v : PyVal F} {s : Str} :
    dumps J ascii v = .ok s ↔ dumps I ascii v = .ok s ∧ v.depth ≤ J.encodeDepth := by
  unfold dumps
  simp only [encode_within h, render_within h]
  by_cases hJ : J.encodeDepth < v.depth
  · rw [if_pos hJ]
    simp [not_le.2 hJ]
  · have hle := not_lt.1 hJ
    rw [if_neg hJ, if_neg (not_lt.2 (hle.trans h.encodeDepth)), and_iff_left hle]

theorem dumps_upTo (h : J.Within I) (ascii : Bool) (v : PyVal F) :
    Except.UpTo .recursionError (dumps J ascii v) (dumps I ascii v) := by
  unfold dumps
  simp only [encode_within h, render_within h]
  by_cases hJ : J.encodeDepth < v.depth
  · rw [if_pos hJ]
    exact Or.inl rfl
  · rw [if_neg hJ, if_neg (not_lt.2 ((not_lt.1 hJ).trans h.encodeDepth))]
    exact .refl _ _

/-! ## Reading -/

theorem scanAtom_within (h : J.Within I) (s : Str) : scanAtom J s = scanAtom I s := by
  simp only [scanAtom, scanNumber, h.maxDigits, h.parseFloat, h.nan, h.inf, h.negInf]

section
variable {scan scan' : Str → Scanned F .value}
  (hscan : ∀ s, Except.UpTo .recursionError (scan s) (scan' s))
include hscan

theorem scanItems_upTo (fuel : ℕ) (s : Str) :
    Except.UpTo .recursionError (scanItems scan fuel s) (scanItems scan' fuel s) := by
  induction fuel generalizing s with
  | zero => exact .refl _ _
  | succ fuel ih =>
    rw [scanItems, scanItems]
    refine .bind (hscan s) fun p => ?_
    obtain ⟨x, s⟩ := p
    cases hs : skipWs s with
    | nil => simp only [hs]; exact .refl _ _
    | cons c s =>
      simp only [hs]
      split_ifs
      · exact .refl _ _
      · exact .bind (ih _) fun p => .refl _ _
      · exact .refl _ _

theorem scanArray_upTo (s : Str) :
    Except.UpTo .recursionError (scanArray scan s) (scanArray scan' s) := by
  unfold scanArray
  cases skipWs s with
  | nil => exact .refl _ _
  | cons c rest =>
    simp only
    split_ifs
    · exact .refl _ _
    · exact scanItems_upTo hscan _ _

theorem scanMembers_upTo (fuel : ℕ) (s : Str) :
    Except.UpTo .recursionError (scanMembers scan fuel s) (scanMembers scan' fuel s) := by
  induction fuel generalizing s with
  | zero => exact .refl _ _
  | succ fuel ih =>
    rw [scanMembers, scanMembers]
    refine .bind (.refl _ _) fun p => .bind (hscan p.2) fun q => ?_
    obtain ⟨x, s⟩ := q
    cases hs : skipWs s with
    | nil => simp only [hs]; exact .refl _ _
    | cons c s =>
      simp only [hs]
      split_ifs
      · exact .refl _ _
      · exact .bind (ih _) fun p => .refl _ _
      · exact .refl _ _

theorem scanObject_upTo (s : Str) :
    Except.UpTo .recursionError (scanObject scan s) (scanObject scan' s) := by
  unfold scanObject
  cases skipWs s with
  | nil => exact .refl _ _
  | cons c rest =>
    simp only
    split_ifs
    · exact .refl _ _
    · exact scanMembers_upTo hscan _ _

end

/-- Each bracket takes one level of the nesting that is left. -/
theorem scanValue_upTo (h : J.Within I) {d d' : ℕ} (hd : d ≤ d') (s : Str) :
    Except.UpTo .recursionError (scanValue J d s) (scanValue I d' s) := by
  induction d generalizing d' s with
  | zero =>
    cases s with
    | nil => simp only [scanValue]; exact .refl _ _
    | cons c rest =>
      cases d' <;> simp only [scanValue, scanAtom_within h] <;> split_ifs <;>
        first | exact .refl _ _ | exact Or.inl rfl
  | succ d ih =>
    obtain ⟨d', rfl⟩ := Nat.exists_eq_add_of_lt hd
    have hscan : ∀ s, Except.UpTo .recursionError (scanValue J d s) (scanValue I (d + d') s) :=
      fun s => ih (Nat.le_add_right d d') s
    cases s with
    | nil => simp only [scanValue]; exact .refl _ _
    | cons c rest =>
      simp only [scanValue, scanAtom_within h]
      split_ifs
      · exact .refl _ _
      · exact .bind (scanObject_upTo hscan rest) fun p => .refl _ _
      · exact .bind (scanArray_upTo hscan rest) fun p => .refl _ _
      · exact .refl _ _

/-- **What is read with less of the stack left.** -/
theorem loads_upTo [DecidableEq F] (h : J.Within I) (s : Str) :
    Except.UpTo .recursionError (loads J s) (loads I s) := by
  unfold loads parse
  split_ifs
  · exact .refl _ _
  · exact .bind (.bind (scanValue_upTo h h.scanDepth _) fun p => .refl _ _) fun t => .refl _ _

theorem pyStr_upTo (h : J.Within I) (v : PyVal F) :
    Except.UpTo .recursionError (pyStr J v) (pyStr I v) := by
  cases v with
  | bool b => cases b <;> exact .refl _ _
  | int n => rw [pyStr, pyStr, intRepr_within h]; exact .refl _ _
  | float x => rw [pyStr, pyStr, h.strFloat]; exact .refl _ _
  | list xs => exact .bind (h.strInside _) fun s => .refl _ _
  | tuple xs => exact .bind (h.strInside _) fun s => .refl _ _
  | dict ms => exact .bind (h.strInside _) fun s => .refl _ _
  | _ => exact .refl _ _

end Json
