/-
  The names in a cache directory: payloads, the manifest, temporary files, and
  what the sweep at every open takes for a temporary file.
-/
import ResumableBatch.Proof.Verify

namespace ResumableBatch

open Text Json

variable {F R E : Type}

/-! ## The families of names -/

/-- `[0-9a-f]` -/
def isHexChar (c : Code) : Bool := isDigit c ∨ 97 ≤ c ∧ c ≤ 102

theorem isHexChar_hexDigit {n : ℕ} (h : n < 16) : isHexChar (hexDigit n) = true := by
  have : ∀ d : Fin 16, isHexChar (hexDigit d) = true := by decide
  exact this ⟨n, h⟩

theorem hexText_chars {bytes : List (Fin 256)} {c : Code} (h : c ∈ hexText bytes) :
    isHexChar c = true := by
  obtain ⟨b, -, hc⟩ := List.mem_flatMap.1 h
  have hb := b.isLt
  rcases List.mem_cons.1 hc with rfl | hc
  · exact isHexChar_hexDigit (by omega)
  · rw [List.mem_singleton.1 hc]
    exact isHexChar_hexDigit (by omega)

theorem hexDigit_inj {m n : ℕ} (hm : m < 16) (hn : n < 16) (h : hexDigit m = hexDigit n) :
    m = n := by
  have : ∀ a b : Fin 16, hexDigit a = hexDigit b → a = b := by decide
  exact congrArg Fin.val (this ⟨m, hm⟩ ⟨n, hn⟩ h)

/-- Bytes are read off their hexadecimal text. -/
theorem hexText_inj {bytes bytes' : List (Fin 256)} (h : hexText bytes = hexText bytes') :
    bytes = bytes' := by
  have hcons : ∀ (b : Fin 256) (bs : List (Fin 256)), hexText (b :: bs) =
      hexDigit (b.val / 16) :: hexDigit (b.val % 16) :: hexText bs := fun _ _ => rfl
  induction bytes generalizing bytes' with
  | nil =>
    cases bytes' with
    | nil => rfl
    | cons b' bs' =>
      rw [hcons] at h
      cases h
  | cons b bs ih =>
    cases bytes' with
    | nil =>
      rw [hcons] at h
      cases h
    | cons b' bs' =>
      rw [hcons, hcons] at h
      obtain ⟨hhigh, h⟩ := List.cons.inj h
      obtain ⟨hlow, h⟩ := List.cons.inj h
      have hb := b.isLt
      have hb' := b'.isLt
      have hdiv := hexDigit_inj (by omega) (by omega) hhigh
      have hmod := hexDigit_inj (by omega) (by omega) hlow
      rw [ih h, show b = b' from Fin.ext (by omega)]

/-- The name of a temporary file ends in a hexadecimal digit. -/
theorem tmpName_last (final : Str) (pid : ℕ) (random : Fin 4 → Fin 256) :
    ∃ c, (tmpName final pid random).getLast? = some c ∧ isHexChar c = true := by
  have hne : hexText (List.ofFn random) ≠ [] := by
    rw [List.ofFn_succ]
    exact List.cons_ne_nil _ _
  refine ⟨(hexText (List.ofFn random)).getLast hne, ?_, hexText_chars (List.getLast_mem hne)⟩
  rw [tmpName, List.getLast?_append_of_ne_nil _ hne, List.getLast?_eq_getLast_of_ne_nil hne]

theorem Setup.path_inj {S : Setup F R E} {k k' : Str} (h : S.path k = S.path k') : k = k' :=
  List.append_cancel_right h

/-- A key whose payload the sweep takes for a temporary file. -/
def tmpLike (key : Str) : Prop := lit ".tmp." <:+: key ∨ lit ".tmp" <:+ key

instance (key : Str) : Decidable (tmpLike key) := inferInstanceAs (Decidable (_ ∨ _))

/-- What the sweep matches, of the payloads. -/
theorem isTmp_payload {key w : Str} (hw : (46 : Code) ∉ w) :
    isTmp (key ++ 46 :: w) = true ↔ tmpLike key := by
  have hdot : lit ".tmp." = lit ".tmp" ++ [46] := rfl
  rw [isTmp, decide_eq_true_iff, tmpLike]
  constructor
  · rintro ⟨a, b, h⟩
    rw [hdot, ← List.append_assoc, List.append_assoc, List.singleton_append] at h
    rcases List.append_eq_append_iff.1 h with ⟨c, hkey, hc⟩ | ⟨c, hkey, hc⟩
    · cases c with
      | nil =>
        rw [List.append_nil] at hkey
        exact Or.inr ⟨a, hkey.symm⟩
      | cons x c =>
        have hx : (46 : Code) = x := (List.cons.inj hc).1
        refine Or.inl ⟨a, c, ?_⟩
        rw [hkey, ← hx, hdot]
        simp
    · cases c with
      | nil =>
        rw [List.append_nil] at hkey
        exact Or.inr ⟨a, hkey⟩
      | cons x c =>
        have hw' : w = c ++ 46 :: b := (List.cons.inj hc).2
        exact absurd (by rw [hw']; simp) hw
  · rintro (h | ⟨a, rfl⟩)
    · exact h.trans (List.prefix_append key _).isInfix
    · exact ⟨a, w, by rw [hdot]; simp⟩

/-- The sweep matches every temporary file. -/
theorem isTmp_tmpName (final : Str) (pid : ℕ) (random : Fin 4 → Fin 256) :
    isTmp (tmpName final pid random) = true := by
  rw [isTmp, decide_eq_true_iff, tmpName, List.append_assoc, List.append_assoc, List.append_assoc]
  exact ⟨final, natText pid ++ (lit "." ++ hexText (List.ofFn random)), by simp⟩

theorem isTmp_manifest : isTmp manifestPath = false := by decide

/-- No payload is named like the manifest or like a temporary file, and the sweep
    matches those of certain keys only. -/
structure Codec.Apart (C : Codec R E) : Prop where
  manifest : ∀ key, key ++ C.suffix ≠ manifestPath
  tmp : ∀ key final pid random, key ++ C.suffix ≠ tmpName final pid random
  sweep : ∀ key, isTmp (key ++ C.suffix) = true ↔ tmpLike key

theorem Codec.apart_of_suffix {C : Codec R E} {w : Str} {c : Code} (hsuffix : C.suffix = 46 :: w)
    (hw : (46 : Code) ∉ w) (hlast : w.getLast? = some c) (hhex : isHexChar c = false)
    (hn : c ≠ 110) : C.Apart := by
  have hne : w ≠ [] := by
    rintro rfl
    cases hlast
  have hpath : ∀ key, (key ++ C.suffix).getLast? = some c := fun key => by
    rw [hsuffix, List.getLast?_append_of_ne_nil _ (List.cons_ne_nil _ _),
      List.getLast?_cons_of_ne_nil hne,
      hlast]
  refine ⟨fun key h => ?_, fun key final pid random h => ?_, fun key => ?_⟩
  · have := (hpath key).symm.trans (congrArg List.getLast? h)
    exact hn (Option.some.inj this)
  · obtain ⟨d, hd, hhd⟩ := tmpName_last final pid random
    have := (hpath key).symm.trans ((congrArg List.getLast? h).trans hd)
    rw [Option.some.inj this, hhd] at hhex
    cases hhex
  · rw [hsuffix]
    exact isTmp_payload hw

theorem Codec.apart_jsonl {C : Codec R E} (h : C.suffix = lit ".jsonl") : C.Apart :=
  apart_of_suffix (w := lit "jsonl") h (by decide) rfl (by decide) (by decide)

theorem Codec.apart_parquet {C : Codec R E} (h : C.suffix = lit ".parquet") : C.Apart :=
  apart_of_suffix (w := lit "parquet") h (by decide) rfl (by decide) (by decide)

/-- Characters of an accepted key. -/
theorem isSafeKey_chars {key : Str} (h : isSafeKey key) : key ≠ [] ∧ ∀ c ∈ key, isKeyChar c := by
  simp only [isSafeKey, decide_eq_true_eq] at h
  obtain ⟨-, -, -, -, h⟩ := h
  cases key with
  | nil => cases h
  | cons c rest =>
    rw [matchesSafeKey, Bool.and_eq_true] at h
    refine ⟨List.cons_ne_nil _ _, List.forall_mem_cons.2 ⟨?_, List.all_eq_true.1 h.2⟩⟩
    simp [isKeyChar, h.1]

/-- A name of one path component: not empty, no separator, not `.` or `..`. -/
def IsComponent (name : Str) : Prop :=
  name ≠ [] ∧ name ≠ lit "." ∧ name ≠ lit ".." ∧ 47 ∉ name ∧ 92 ∉ name ∧ 0 ∉ name

theorem isComponent_payload {key suffix : Str} (h : isSafeKey key)
    (hsuffix : suffix = lit ".jsonl" ∨ suffix = lit ".parquet") : IsComponent (key ++ suffix) := by
  obtain ⟨hne, hchars⟩ := isSafeKey_chars h
  have hlen : 3 ≤ suffix.length := by rcases hsuffix with rfl | rfl <;> decide
  have hlong : ∀ name : Str, name.length ≤ 2 → key ++ suffix ≠ name := by
    rintro name hname rfl
    rw [List.length_append] at hname
    omega
  have hmem : ∀ c, isKeyChar c = false → c ∉ suffix → c ∉ key ++ suffix := by
    intro c hc hs hmem
    rcases List.mem_append.1 hmem with hk | hk
    · rw [hchars c hk] at hc
      cases hc
    · exact hs hk
  refine ⟨hlong _ (by decide), hlong _ (by decide), hlong _ (by decide), hmem _ rfl ?_,
    hmem _ rfl ?_, hmem _ rfl ?_⟩ <;>
  · rcases hsuffix with rfl | rfl <;> decide

end ResumableBatch
