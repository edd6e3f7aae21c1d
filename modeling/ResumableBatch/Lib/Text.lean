/-
  Text: strings are sequences of code points, lone surrogates included; their
  encoding in UTF-8, and lines.
-/
import Mathlib.Algebra.GroupWithZero.Nat
import Mathlib.Data.List.Lex
import Mathlib.Order.Fin.Basic
import ResumableBatch.Lib.Lists

namespace Text

/-- A code point; the surrogates are among them. -/
abbrev Code := Fin 0x110000

instance neZero_code : NeZero 0x110000 := ⟨by decide⟩

abbrev Str := List Code

theorem toNat_lt (c : Char) : c.toNat < 0x110000 := by
  have h := c.valid
  unfold UInt32.isValidChar Nat.isValidChar at h
  show c.val.toNat < _
  omega

/-- The code point of a character. -/
def ofChar (c : Char) : Code := ⟨c.toNat, toNat_lt c⟩

/-- The character of a code point that is no surrogate. -/
def toChar (c : Code) : Option Char :=
  if h : c.val.isValidChar then some (Char.ofNatAux c.val h) else none

/-- A string literal. -/
def lit (s : String) : Str := s.toList.map ofChar

def newline : Code := 10

def carriageReturn : Code := 13

/-! ## UTF-8 -/

/-- `s.encode("utf-8")`; `none` where it raises `UnicodeEncodeError`. -/
def encodeUtf8 (s : Str) : Option ByteArray :=
  (s.mapM toChar).map fun cs => (String.ofList cs).toByteArray

/-- `b.decode("utf-8")`; `none` where it raises `UnicodeDecodeError`. -/
def decodeUtf8 (b : ByteArray) : Option Str :=
  b.utf8Decode?.map fun cs => cs.toList.map ofChar

theorem toChar_ofChar (c : Char) : toChar (ofChar c) = some c := by
  have h : (ofChar c).val.isValidChar := c.valid
  rw [toChar, dif_pos h]
  rfl

theorem ofChar_of_toChar {c : Code} {x : Char} (h : toChar c = some x) : ofChar x = c := by
  unfold toChar at h
  by_cases hc : c.val.isValidChar
  · rw [dif_pos hc] at h
    cases h; rfl
  · rw [dif_neg hc] at h
    cases h

theorem mapM_toChar {s : Str} {cs : List Char} : s.mapM toChar = some cs ↔ cs.map ofChar = s := by
  rw [Option.mapM_eq_some]
  constructor
  · intro h
    induction h with
    | nil => rfl
    | cons hc _ ih => rw [List.map_cons, ih, ofChar_of_toChar hc]
  · rintro rfl
    rw [List.forall₂_map_left_iff, List.forall₂_same]
    exact fun c _ => toChar_ofChar c

theorem encodeUtf8_eq {s : Str} {b : ByteArray} :
    encodeUtf8 s = some b ↔ ∃ cs : List Char, cs.map ofChar = s ∧ cs.utf8Encode = b := by
  simp only [encodeUtf8, Option.map_eq_some_iff, mapM_toChar, String.toByteArray_ofList]

/-- What was encoded is decoded. -/
theorem decodeUtf8_encodeUtf8 {s : Str} {b : ByteArray} (h : encodeUtf8 s = some b) :
    decodeUtf8 b = some s := by
  obtain ⟨cs, rfl, rfl⟩ := encodeUtf8_eq.1 h
  simp [decodeUtf8, List.utf8Decode?_utf8Encode]

/-- What was decoded has an encoding. -/
theorem encodeUtf8_decodeUtf8 {s : Str} {b : ByteArray} (h : decodeUtf8 b = some s) :
    encodeUtf8 s = some b := by
  rw [decodeUtf8, Option.map_eq_some_iff] at h
  obtain ⟨cs, hcs, rfl⟩ := h
  have hsome : b.utf8Decode?.isSome := by rw [hcs]; rfl
  refine encodeUtf8_eq.2 ⟨cs.toList, rfl, ?_⟩
  have := ByteArray.utf8Encode_get_utf8Decode? (h := hsome)
  simpa [hcs] using this

theorem encodeUtf8_inj {s t : Str} {b : ByteArray} (hs : encodeUtf8 s = some b)
    (ht : encodeUtf8 t = some b) : s = t := by
  have := (decodeUtf8_encodeUtf8 hs).symm.trans (decodeUtf8_encodeUtf8 ht)
  exact Option.some.inj this

theorem encodeUtf8_append {s t : Str} {b : ByteArray} :
    encodeUtf8 (s ++ t) = some b ↔
      ∃ x y, encodeUtf8 s = some x ∧ encodeUtf8 t = some y ∧ x ++ y = b := by
  constructor
  · intro h
    obtain ⟨cs, hcs, rfl⟩ := encodeUtf8_eq.1 h
    obtain ⟨xs, ys, rfl, rfl, rfl⟩ := List.map_eq_append_iff.1 hcs
    exact ⟨_, _, encodeUtf8_eq.2 ⟨xs, rfl, rfl⟩, encodeUtf8_eq.2 ⟨ys, rfl, rfl⟩,
      List.utf8Encode_append.symm⟩
  · rintro ⟨x, y, hx, hy, rfl⟩
    obtain ⟨xs, rfl, rfl⟩ := encodeUtf8_eq.1 hx
    obtain ⟨ys, rfl, rfl⟩ := encodeUtf8_eq.1 hy
    exact encodeUtf8_eq.2 ⟨xs ++ ys, List.map_append, List.utf8Encode_append⟩

/-- A string without surrogates. -/
def Scalar (s : Str) : Prop := ∀ c ∈ s, c.val.isValidChar

/-- A string can be encoded if and only if it has no surrogate. -/
theorem encodeUtf8_isSome {s : Str} : (∃ b, encodeUtf8 s = some b) ↔ Scalar s := by
  constructor
  · rintro ⟨b, h⟩ c hc
    obtain ⟨cs, rfl, -⟩ := encodeUtf8_eq.1 h
    obtain ⟨x, -, rfl⟩ := List.mem_map.1 hc
    exact x.valid
  · intro h
    have hex : ∀ c ∈ s, ∃ x, toChar c = some x := fun c hc => ⟨_, dif_pos (h c hc)⟩
    obtain ⟨cs, hcs⟩ := List.exists_forall₂ hex
    exact ⟨_, encodeUtf8_eq.2 ⟨cs, mapM_toChar.1 (Option.mapM_eq_some.2 hcs), rfl⟩⟩

theorem encodeUtf8_lit (s : String) : encodeUtf8 (lit s) = some s.toByteArray := by
  refine encodeUtf8_eq.2 ⟨s.toList, rfl, ?_⟩
  rw [← String.toByteArray_ofList, String.ofList_toList]

/-! ## Lines -/

/-- The universal newlines of a text, right after a carriage return or not. -/
def translate (after : Bool) : Str → Str
  | [] => []
  | c :: rest =>
    if c = carriageReturn then newline :: translate true rest
    else if after ∧ c = newline then translate false rest
    else c :: translate false rest

/-- What a file opened for reading in text mode yields: every line ends in `\n`. -/
def universalNewlines (s : Str) : Str := translate false s

theorem universalNewlines_of_not_mem {s : Str} (h : carriageReturn ∉ s) :
    universalNewlines s = s := by
  unfold universalNewlines
  induction s with
  | nil => rfl
  | cons c s ih =>
    rw [List.mem_cons, not_or] at h
    rw [translate, if_neg (Ne.symm h.1), if_neg (by simp), ih h.2]

theorem mem_translate {after : Bool} {s : Str} {c : Code} (h : c ∈ translate after s) :
    c = newline ∨ c ∈ s := by
  induction s generalizing after with
  | nil => cases h
  | cons d s ih =>
    unfold translate at h
    split_ifs at h
    · rcases List.mem_cons.1 h with h | h
      · exact Or.inl h
      · exact (ih h).imp_right (List.mem_cons_of_mem _)
    · exact (ih h).imp_right (List.mem_cons_of_mem _)
    · rcases List.mem_cons.1 h with h | h
      · exact Or.inr (h ▸ List.mem_cons_self)
      · exact (ih h).imp_right (List.mem_cons_of_mem _)

theorem scalar_universalNewlines {s : Str} (h : Scalar s) : Scalar (universalNewlines s) := by
  intro c hc
  rcases mem_translate hc with rfl | hc
  · decide
  · exact h c hc

/-- Lines, each with its newline. -/
def unlines (lines : List Str) : Str := lines.flatMap fun l => l ++ [newline]

/-- Splitting at newlines undoes `unlines`, up to the empty string after the
    last newline. -/
theorem splitOn_unlines {lines : List Str} (h : ∀ l ∈ lines, newline ∉ l) :
    (unlines lines).splitOn newline = lines ++ [[]] := by
  induction lines with
  | nil => rfl
  | cons l lines ih =>
    rw [List.forall_mem_cons] at h
    rw [unlines, List.flatMap_cons, List.append_assoc, List.singleton_append,
      List.splitOn_append_cons_self_of_not_mem h.1, ← unlines, ih h.2]
    rfl

/-- Splitting leaves no separator. -/
theorem not_mem_of_mem_splitOn {a : Code} {s piece : Str} (h : piece ∈ s.splitOn a) :
    a ∉ piece := by
  induction s generalizing piece with
  | nil =>
    rw [List.splitOn_nil, List.mem_singleton] at h
    simp [h]
  | cons x s ih =>
    rw [List.splitOn_cons_eq_if_modifyHead] at h
    cases hs : s.splitOn a with
    | nil => exact absurd hs (List.splitOn_ne_nil a s)
    | cons first rest =>
      rw [hs] at h ih
      split_ifs at h with hx
      · rcases List.mem_cons.1 h with rfl | h
        · simp
        · exact ih h
      · rw [List.modifyHead_cons, List.mem_cons] at h
        rcases h with rfl | h
        · have hne : a ≠ x := fun he => hx (by simp [he])
          simp only [List.mem_cons, hne, false_or]
          exact ih List.mem_cons_self
        · exact ih (List.mem_cons_of_mem _ h)

/-- The last separator is found again. -/
theorem append_cons_inj {a : Code} {s t u v : Str} (ht : a ∉ t) (hv : a ∉ v)
    (h : s ++ a :: t = u ++ a :: v) : s = u ∧ t = v := by
  rcases List.append_eq_append_iff.1 h with ⟨c, hu, hc⟩ | ⟨c, hs, hc⟩
  · cases c with
    | nil =>
      rw [List.append_nil] at hu
      exact ⟨hu.symm, (List.cons.inj hc).2⟩
    | cons x c =>
      have htail : t = c ++ a :: v := (List.cons.inj hc).2
      exact absurd (by rw [htail]; simp) ht
  · cases c with
    | nil =>
      rw [List.append_nil] at hs
      exact ⟨hs, (List.cons.inj hc).2.symm⟩
    | cons x c =>
      have htail : v = c ++ a :: t := (List.cons.inj hc).2
      exact absurd (by rw [htail]; simp) hv

end Text
