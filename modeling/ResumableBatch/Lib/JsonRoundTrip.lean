/-
  What `dumps` writes, `loads` reads: scanning undoes rendering (`scans`).  On any
  text the scanner returns a bounded document or raises one of two exceptions
  (`scanValue_sound`).
-/
import Mathlib.Data.Nat.Digits.Lemmas
import ResumableBatch.Lib.Json

namespace Json

open Text

variable {F : Type} (I : Interp F)

/-! ## Strings -/

/-- No two code points in a row form a surrogate pair. -/
def NoPair (s : Str) : Prop := s.IsChain fun c d => ¬ (High c ∧ Low d)

/-- What `escape` writes, as the scanner sees it. -/
def pieces (ascii : Bool) (c : Code) : List (Bool × Code) :=
  if c = 34 ∨ c = 92 ∨ c = 10 ∨ c = 13 ∨ c = 9 ∨ c = 12 ∨ c = 8 then [(false, c)]
  else if c < 32 then [(true, c)]
  else if ascii ∧ 127 ≤ c then
    if c.val < 0x10000 then [(true, c)]
    else [(true, Fin.ofNat _ (0xd800 + (c.val - 0x10000) / 1024)),
      (true, Fin.ofNat _ (0xdc00 + (c.val - 0x10000) % 1024))]
  else [(false, c)]

theorem hexValue_hexDigit {n : ℕ} (h : n < 16) : hexValue (hexDigit n) = some n := by
  have : ∀ d : Fin 16, hexValue (hexDigit d) = some d.val := by decide
  exact this ⟨n, h⟩

theorem ofNat_val (c : Code) : (Fin.ofNat 0x110000 c.val : Code) = c := by
  ext
  exact Nat.mod_eq_of_lt c.isLt

section
variable {rest rest' : Str} {cs : List (Bool × Code)}

theorem scanChars_quote (rest : Str) : scanChars (34 :: rest) = .ok ([], rest) := by
  rw [scanChars.eq_def]
  rfl

theorem scanChars_raw {c : Code} (h34 : c ≠ 34) (h92 : c ≠ 92) (h32 : ¬ c < 32)
    (h : scanChars rest = .ok (cs, rest')) :
    scanChars (c :: rest) = .ok ((false, c) :: cs, rest') := by
  rw [scanChars.eq_def]
  simp [h34, h92, h32, h, bind, Except.bind]

theorem scanChars_backslash {e u : Code} (he : e ≠ 117) (hu : backslash e = .ok u)
    (h : scanChars rest = .ok (cs, rest')) :
    scanChars (92 :: e :: rest) = .ok ((false, u) :: cs, rest') := by
  rw [scanChars.eq_def]
  simp [he, hu, h, bind, Except.bind]

theorem scanChars_unicodeEscape {n : ℕ} (hn : n < 0x10000)
    (h : scanChars rest = .ok (cs, rest')) :
    scanChars (unicodeEscape n ++ rest) = .ok ((true, Fin.ofNat _ n) :: cs, rest') := by
  have hv : ∀ m, hexValue (hexDigit (m % 16)) = some (m % 16) := fun m =>
    hexValue_hexDigit (Nat.mod_lt _ (by omega))
  have hex : hex4 (hexDigit (n / 4096 % 16)) (hexDigit (n / 256 % 16)) (hexDigit (n / 16 % 16))
      (hexDigit (n % 16)) = .ok (Fin.ofNat _ n) := by
    simp only [hex4, hv]
    congr 2
    omega
  rw [scanChars.eq_def]
  simp [unicodeEscape, hex, h, bind, Except.bind]

/-- The scanner takes an escaped code point apart. -/
theorem scanChars_escape (ascii : Bool) (c : Code) (h : scanChars rest = .ok (cs, rest')) :
    scanChars (escape ascii c ++ rest) = .ok (pieces ascii c ++ cs, rest') := by
  by_cases hs : c = 34 ∨ c = 92 ∨ c = 10 ∨ c = 13 ∨ c = 9 ∨ c = 12 ∨ c = 8
  · rw [pieces, if_pos hs]
    rcases hs with rfl | rfl | rfl | rfl | rfl | rfl | rfl <;>
      exact scanChars_backslash (by decide) rfl h
  · have hne := hs
    simp only [not_or] at hne
    obtain ⟨h34, h92, h10, h13, h9, h12, h8⟩ := hne
    rw [pieces, if_neg hs]
    simp only [escape, h34, h92, h10, h13, h9, h12, h8, if_false]
    split_ifs with hc ha hb
    · have hlt : c.val < 0x10000 := by
        have : c.val < 32 := hc
        omega
      rw [scanChars_unicodeEscape hlt h, ofNat_val]
      rfl
    · rw [scanChars_unicodeEscape hb h, ofNat_val]
      rfl
    · have hlt := c.isLt
      rw [List.append_assoc, scanChars_unicodeEscape (by omega)
        (scanChars_unicodeEscape (by omega) h)]
      rfl
    · exact scanChars_raw h34 h92 hc h

end

theorem scanChars_flatMap (ascii : Bool) (s rest : Str) :
    scanChars (s.flatMap (escape ascii) ++ 34 :: rest) = .ok (s.flatMap (pieces ascii), rest) := by
  induction s with
  | nil => exact scanChars_quote rest
  | cons c s ih =>
    rw [List.flatMap_cons, List.append_assoc, List.flatMap_cons]
    exact scanChars_escape ascii c ih

theorem joinPairs_cons {x : Bool × Code} {rest : List (Bool × Code)}
    (h : ∀ y ∈ rest.head?, ¬ (x.1 ∧ y.1 ∧ High x.2 ∧ Low y.2)) :
    joinPairs (x :: rest) = x.2 :: joinPairs rest := by
  cases rest with
  | nil => rfl
  | cons y rest => rw [joinPairs, if_neg (h y rfl)]

theorem high_val {c : Code} (hc : 0x10000 ≤ c.val) :
    (Fin.ofNat 0x110000 (0xd800 + (c.val - 0x10000) / 1024) : Code).val =
      0xd800 + (c.val - 0x10000) / 1024 := by
  have hlt := c.isLt
  exact Nat.mod_eq_of_lt (by omega)

theorem low_val (c : Code) :
    (Fin.ofNat 0x110000 (0xdc00 + (c.val - 0x10000) % 1024) : Code).val =
      0xdc00 + (c.val - 0x10000) % 1024 :=
  Nat.mod_eq_of_lt (by omega)

/-- The halves of a code point beyond the basic plane join to it. -/
theorem joinPairs_halves {c x y : Code} (hc : 0x10000 ≤ c.val)
    (hx : x.val = 0xd800 + (c.val - 0x10000) / 1024)
    (hy : y.val = 0xdc00 + (c.val - 0x10000) % 1024) (rest : List (Bool × Code)) :
    joinPairs ((true, x) :: (true, y) :: rest) = c :: joinPairs rest := by
  have hlt := c.isLt
  have hh : High x := by constructor <;> omega
  have hl : Low y := by constructor <;> omega
  have hc' : combine x y = c := by
    have hv : 0x10000 + (x.val - 0xd800) * 1024 + (y.val - 0xdc00) = c.val := by omega
    rw [combine, hv]
    exact ofNat_val c
  rw [joinPairs, if_pos ⟨rfl, rfl, hh, hl⟩, hc']

/-- The first of the pieces of a code point is the code point itself, or no
    second half of a pair. -/
theorem head_pieces {ascii : Bool} {c : Code} {rest : List (Bool × Code)} {y : Bool × Code}
    (h : y ∈ (pieces ascii c ++ rest).head?) : y.2 = c ∨ ¬ Low y.2 := by
  unfold pieces at h
  split_ifs at h with _ _ _ hb
  case neg =>
    cases h
    have hlt := c.isLt
    have hh := high_val (not_lt.1 hb)
    right
    rintro ⟨hl, -⟩
    rw [hh] at hl
    omega
  all_goals
    cases h
    exact Or.inl rfl

/-- **A string is read back**, if its surrogates were not escaped or form no
    pair. -/
theorem joinPairs_pieces {ascii : Bool} {s : Str} (hs : ascii → NoPair s) :
    joinPairs (s.flatMap (pieces ascii)) = s := by
  induction s with
  | nil => rfl
  | cons c s ih =>
    have ih := ih fun ha => (hs ha).of_cons
    -- a piece that is not joined with the next
    have one : ∀ e : Bool, (e → ascii = true ∨ ¬ High c) →
        joinPairs ((e, c) :: s.flatMap (pieces ascii)) = c :: s := by
      intro e he
      rw [joinPairs_cons, ih]
      rintro y hy ⟨h₁, -, hh, hl⟩
      have ha := (he h₁).resolve_right (not_not.2 hh)
      cases s with
      | nil => cases hy
      | cons d s =>
        rw [List.flatMap_cons] at hy
        rcases head_pieces hy with rfl | hn
        · exact ((List.isChain_cons_cons.1 (hs ha)).1 ⟨hh, hl⟩)
        · exact hn hl
    rw [List.flatMap_cons, pieces]
    split_ifs with h₁ h₂ h₃ h₄
    · exact one false (by simp)
    · refine one true fun _ => Or.inr fun hh => ?_
      have hlt : c.val < 32 := h₂
      have := hh.1
      omega
    · exact one true fun _ => Or.inl h₃.1
    · have hc := not_lt.1 h₄
      rw [List.cons_append, List.cons_append, List.nil_append,
        joinPairs_halves hc (high_val hc) (low_val c), ih]
    · exact one false (by simp)

theorem scanStr_renderStr {ascii : Bool} {s : Str} (hs : ascii → NoPair s) (rest : Str) :
    scanStr (s.flatMap (escape ascii) ++ 34 :: rest) = .ok (s, rest) := by
  simp only [scanStr, scanChars_flatMap, bind, Except.bind, joinPairs_pieces hs]

/-! ## Numbers -/

/-- What may follow a value in a document: a comma or a closing bracket. -/
def Stops (s : Str) : Prop := ∀ c ∈ s.head?, c = 44 ∨ c = 93 ∨ c = 125

theorem Stops.not_isDigit {s : Str} (h : Stops s) : ∀ c ∈ s.head?, isDigit c = false := by
  intro c hc
  rcases h c hc with rfl | rfl | rfl <;> rfl

theorem head_append_of_forall {p : Code → Prop} {s t : Str} (hs : ∀ c ∈ s.head?, p c)
    (ht : ∀ c ∈ t.head?, p c) : ∀ c ∈ (s ++ t).head?, p c := by
  cases s with
  | nil => exact ht
  | cons d s => exact hs

theorem takeWhile_digits {ds rest : Str} (hd : ds.all isDigit)
    (hr : ∀ c ∈ rest.head?, isDigit c = false) :
    (ds ++ rest).takeWhile isDigit = ds ∧ (ds ++ rest).dropWhile isDigit = rest := by
  rw [List.all_eq_true] at hd
  rw [List.takeWhile_append_of_pos hd, List.dropWhile_append_of_pos hd]
  cases rest with
  | nil => simp
  | cons c rest =>
    have hc := hr c rfl
    simp [hc]

theorem takeSign_append {sign s : Str} (hs : sign = [] ∨ sign = [45])
    (h : ∀ c ∈ s.head?, c ≠ 45) : takeSign (sign ++ s) = (sign, s) := by
  rcases hs with rfl | rfl
  · cases s with
    | nil => rfl
    | cons c s => exact if_neg (h c rfl)
  · rfl

theorem takeInt_append {ip s : Str} (hi : IntPart ip) (h : ∀ c ∈ s.head?, isDigit c = false) :
    takeInt (ip ++ s) = some (ip, s) := by
  rcases hi with rfl | ⟨d, ds, rfl, h₁, h₂, hds⟩
  · rfl
  · have hd : isDigit d = true := by
      simp only [isDigit, decide_eq_true_eq]
      exact ⟨le_trans (by decide) h₁, h₂⟩
    have hne : d ≠ 48 := by
      rintro rfl
      exact absurd h₁ (by decide)
    have hall : (d :: ds).all isDigit = true := by simp [hd, hds]
    obtain ⟨ht, hr⟩ := takeWhile_digits hall h
    rw [List.cons_append] at ht hr ⊢
    simp only [takeInt, hne, hd, if_false, if_true, ht, hr]

theorem takeFrac_append {fr s : Str} (hf : FracPart fr)
    (h : ∀ c ∈ s.head?, isDigit c = false ∧ c ≠ 46) : takeFrac (fr ++ s) = (fr, s) := by
  rcases hf with rfl | ⟨ds, rfl, hne, hds⟩
  · cases s with
    | nil => rfl
    | cons c s => exact if_neg fun hc => (h c rfl).2 hc.1
  · obtain ⟨ht, hr⟩ := takeWhile_digits hds fun c hc => (h c hc).1
    simp only [List.cons_append, takeFrac, ht, hr]
    rw [if_pos ⟨trivial, hne⟩]

theorem takeExp_append {ex s : Str} (he : ExpPart ex) (h : Stops s) :
    takeExp (ex ++ s) = (ex, s) := by
  rcases he with rfl | ⟨e, sign, ds, rfl, he, hs, hne, hds⟩
  · cases s with
    | nil => rfl
    | cons c s =>
      have hc : ¬ (c = 101 ∨ c = 69) := by
        rcases h c rfl with rfl | rfl | rfl <;> decide
      simp [takeExp, hc]
  · obtain ⟨ht, hr⟩ := takeWhile_digits hds h.not_isDigit
    have hsign : takeExpSign (sign ++ (ds ++ s)) = (sign, ds ++ s) := by
      rcases hs with rfl | rfl | rfl
      · cases ds with
        | nil => exact absurd rfl hne
        | cons d ds =>
          have hd : ¬ (d = 43 ∨ d = 45) := by
            rintro (rfl | rfl) <;> simp [isDigit] at hds
          exact if_neg hd
      · rfl
      · rfl
    simp only [List.cons_append, List.append_assoc, takeExp, hsign, ht, hr]
    rw [if_pos ⟨he, hne⟩]

/-- A number is scanned whole. -/
theorem scanNumber_append {sign ip fr ex rest : Str} (hs : sign = [] ∨ sign = [45])
    (hi : IntPart ip) (hf : FracPart fr) (he : ExpPart ex) (hr : Stops rest) :
    scanNumber I (sign ++ ip ++ fr ++ ex ++ rest) =
      if fr = [] ∧ ex = [] then
        if I.maxDigits < ip.length then some (.error .valueError)
        else some (.ok (.int (intValue sign ip), rest))
      else some (.ok (.float (I.parseFloat (sign ++ ip ++ fr ++ ex)), rest)) := by
  have hex : ∀ c ∈ (ex ++ rest).head?, isDigit c = false ∧ c ≠ 46 := by
    refine head_append_of_forall ?_ fun c hc => ⟨hr.not_isDigit c hc, ?_⟩
    · rcases he with rfl | ⟨e, _, _, rfl, rfl | rfl, _⟩ <;> simp [isDigit]
    · rcases hr c hc with rfl | rfl | rfl <;> decide
  have hfr : ∀ c ∈ (fr ++ (ex ++ rest)).head?, isDigit c = false := by
    refine head_append_of_forall ?_ fun c hc => (hex c hc).1
    rcases hf with rfl | ⟨_, rfl, _⟩ <;> simp [isDigit]
  have hip : ∀ c ∈ (ip ++ (fr ++ (ex ++ rest))).head?, c ≠ 45 := by
    rcases hi with rfl | ⟨d, ds, rfl, h₁, _⟩
    · simp
    · rintro _ ⟨⟩ rfl
      exact absurd h₁ (by decide)
  simp only [List.append_assoc, scanNumber, takeSign_append hs hip, takeInt_append hi hfr,
    takeFrac_append hf hex, takeExp_append he hr]

theorem digit_val {d : ℕ} (hd : d < 10) : (Fin.ofNat 0x110000 (48 + d) : Code).val = 48 + d :=
  Nat.mod_eq_of_lt (by omega)

theorem isDigit_ofNat {d : ℕ} (hd : d < 10) : isDigit (Fin.ofNat 0x110000 (48 + d)) = true := by
  have : ∀ d : Fin 10, isDigit (Fin.ofNat 0x110000 (48 + d.val)) = true := by decide
  exact this ⟨d, hd⟩

theorem natText_intPart (n : ℕ) : IntPart (natText n) := by
  unfold natText
  split_ifs with hn
  · exact Or.inl rfl
  · right
    obtain ⟨ds, d, hds⟩ := (List.eq_nil_or_concat (Nat.digits 10 n)).resolve_left
      (Nat.digits_ne_nil_iff_ne_zero.2 hn)
    have hlast : d ≠ 0 := by
      have := Nat.getLast_digit_ne_zero 10 hn
      simpa only [hds, List.concat_eq_append, List.getLast_append_singleton] using this
    have hlt : ∀ x ∈ ds ++ [d], x < 10 := by
      rw [← List.concat_eq_append, ← hds]
      exact fun x hx => Nat.digits_lt_base (by norm_num) hx
    have hd := hlt d (by simp)
    refine ⟨Fin.ofNat _ (48 + d), ds.reverse.map fun d => Fin.ofNat _ (48 + d), ?_, ?_, ?_, ?_⟩
    · rw [hds, List.concat_eq_append, List.reverse_concat, List.map_cons]
    · rw [Fin.le_def, digit_val hd]
      show 49 ≤ _
      omega
    · rw [Fin.le_def, digit_val hd]
      show _ ≤ 57
      omega
    · simp only [List.all_map, List.all_eq_true, List.mem_reverse, Function.comp]
      exact fun x hx => isDigit_ofNat (hlt x (List.mem_append_left _ hx))

theorem natText_digits (n : ℕ) : (natText n).all isDigit := by
  rcases natText_intPart n with h | ⟨d, ds, h, h₁, h₂, hds⟩
  · rw [h]
    rfl
  · have hd : isDigit d = true := by
      simp only [isDigit, decide_eq_true_eq]
      exact ⟨le_trans (by decide) h₁, h₂⟩
    rw [h, List.all_cons, hd, hds]
    rfl

theorem natValue_natText (n : ℕ) : natValue (natText n) = n := by
  unfold natText
  split_ifs with hn
  · rw [hn]
    rfl
  · have hval : (Nat.digits 10 n).map (fun d => (Fin.ofNat 0x110000 (48 + d) : Code).val - 48) =
        Nat.digits 10 n := by
      conv_rhs => rw [← List.map_id (Nat.digits 10 n)]
      refine List.map_congr_left fun d hd => ?_
      rw [digit_val (Nat.digits_lt_base (by norm_num) hd)]
      exact Nat.add_sub_cancel_left 48 d
    rw [natValue, ← List.map_reverse, List.reverse_reverse, List.map_map]
    show Nat.ofDigits 10 ((Nat.digits 10 n).map _) = n
    rw [show ((fun c : Code => c.val - 48) ∘ fun d => Fin.ofNat 0x110000 (48 + d)) =
      fun d => (Fin.ofNat 0x110000 (48 + d) : Code).val - 48 from rfl, hval, Nat.ofDigits_digits]

/-- The sign and the digits of an integer. -/
theorem intText_parts (n : ℤ) : ∃ sign, (sign = [] ∨ sign = [45]) ∧
    intText n = sign ++ natText n.natAbs ∧ intValue sign (natText n.natAbs) = n := by
  cases n with
  | ofNat n => exact ⟨[], Or.inl rfl, rfl, congrArg _ (natValue_natText n)⟩
  | negSucc n =>
    refine ⟨[45], Or.inr rfl, rfl, ?_⟩
    show -((natValue (natText (n + 1)) : ℕ) : ℤ) = _
    rw [natValue_natText]
    rfl

theorem scanNumber_intText {n : ℤ} (hn : (natText n.natAbs).length ≤ I.maxDigits) {rest : Str}
    (hr : Stops rest) : scanNumber I (intText n ++ rest) = some (.ok (.int n, rest)) := by
  obtain ⟨sign, hs, ht, hv⟩ := intText_parts n
  have h := scanNumber_append I hs (natText_intPart n.natAbs) (Or.inl rfl) (Or.inl rfl) hr
  rw [List.append_nil, List.append_nil, if_pos ⟨rfl, rfl⟩, if_neg (not_lt.2 hn), hv] at h
  rw [ht, h]

theorem scanNumber_float {t : Str} (ht : FloatToken t) {rest : Str} (hr : Stops rest) :
    scanNumber I (t ++ rest) = some (.ok (.float (I.parseFloat t), rest)) := by
  obtain ⟨sign, ip, fr, ex, rfl, hs, hi, hf, he, hne⟩ := ht.parts
  rw [scanNumber_append I hs hi hf he hr, if_neg]
  rintro ⟨rfl, rfl⟩
  simp at hne

/-! ## Values that are no strings and no containers -/

theorem expect_of_head {t s : Str} {c d : Code} (hc : t.head? = some c) (hd : s.head? = some d)
    (h : c ≠ d) : expect t s = none := by
  cases t with
  | nil => cases hc
  | cons x t =>
    cases s with
    | nil => cases hd
    | cons y s =>
      cases hc
      cases hd
      simp [expect, h]

/-- A text that starts with a sign or a digit is scanned as a number. -/
theorem scanAtom_number {s : Str} {c : Code} (hc : s.head? = some c) (hd : c = 45 ∨ isDigit c)
    {r : Scanned F .value} (h : scanNumber I s = some r) : scanAtom I s = r := by
  have hne : ∀ x : Code, x = 110 ∨ x = 116 ∨ x = 102 → x ≠ c := by
    rintro x hx rfl
    rcases hx with rfl | rfl | rfl <;> rcases hd with hd | hd <;> revert hd <;> decide
  have h₁ : expect (lit "null") s = none := expect_of_head rfl hc (hne _ (Or.inl rfl))
  have h₂ : expect (lit "true") s = none := expect_of_head rfl hc (hne _ (Or.inr (Or.inl rfl)))
  have h₃ : expect (lit "false") s = none := expect_of_head rfl hc (hne _ (Or.inr (Or.inr rfl)))
  simp [scanAtom, scanConstant, h₁, h₂, h₃, h]

theorem scanValue_atom {s : Str} {c : Code} (hc : s.head? = some c) (h34 : c ≠ 34) (h123 : c ≠ 123)
    (h91 : c ≠ 91) (d : ℕ) : scanValue I d s = scanAtom I s := by
  cases s with
  | nil => cases hc
  | cons x s =>
    cases hc
    cases d <;> simp [scanValue, h34, h123, h91]

theorem scanValue_number {s : Str} {c : Code} (hc : s.head? = some c) (hd : c = 45 ∨ isDigit c)
    {r : Scanned F .value} (h : scanNumber I s = some r) (d : ℕ) : scanValue I d s = r := by
  have hne : ∀ x : Code, x = 34 ∨ x = 123 ∨ x = 91 → c ≠ x := by
    rintro x hx rfl
    rcases hx with rfl | rfl | rfl <;> rcases hd with hd | hd <;> revert hd <;> decide
  rw [scanValue_atom I hc (hne _ (Or.inl rfl)) (hne _ (Or.inr (Or.inl rfl)))
    (hne _ (Or.inr (Or.inr rfl)))]
  exact scanAtom_number I hc hd h

theorem IntPart.head {ip : Str} (h : IntPart ip) : ∃ c t, ip = c :: t ∧ isDigit c = true := by
  rcases h with rfl | ⟨d, ds, rfl, h₁, h₂, -⟩
  · exact ⟨_, _, rfl, rfl⟩
  · refine ⟨_, _, rfl, ?_⟩
    simp only [isDigit, decide_eq_true_eq]
    exact ⟨le_trans (by decide) h₁, h₂⟩

theorem signed_head {sign ip : Str} (hs : sign = [] ∨ sign = [45]) (hi : IntPart ip) (s : Str) :
    ∃ c t, sign ++ ip ++ s = c :: t ∧ (c = 45 ∨ isDigit c = true) := by
  rcases hs with rfl | rfl
  · obtain ⟨c, t, rfl, hc⟩ := hi.head
    exact ⟨c, _, rfl, Or.inr hc⟩
  · exact ⟨45, _, rfl, Or.inl rfl⟩

theorem intText_head (n : ℤ) : ∃ c t, intText n = c :: t ∧ (c = 45 ∨ isDigit c = true) := by
  obtain ⟨sign, hs, ht, -⟩ := intText_parts n
  obtain ⟨c, t, h, hc⟩ := signed_head hs (natText_intPart n.natAbs) []
  exact ⟨c, t, by rw [ht, ← h, List.append_nil], hc⟩

theorem FloatToken.head {t : Str} (h : FloatToken t) :
    ∃ c r, t = c :: r ∧ (c = 45 ∨ isDigit c = true) := by
  obtain ⟨sign, ip, fr, ex, rfl, hs, hi, -⟩ := h.parts
  rw [List.append_assoc _ fr]
  exact signed_head hs hi _

theorem scanValue_int {n : ℤ} (hn : (natText n.natAbs).length ≤ I.maxDigits) {rest : Str}
    (hr : Stops rest) (d : ℕ) : scanValue I d (intText n ++ rest) = .ok (.int n, rest) := by
  obtain ⟨c, t, ht, hc⟩ := intText_head n
  have hh : (intText n ++ rest).head? = some c := by rw [ht]; rfl
  exact scanValue_number I hh hc (scanNumber_intText I hn hr) d

theorem scanValue_float (x : F) {rest : Str} (hr : Stops rest) (d : ℕ) :
    scanValue I d (I.floatstr x ++ rest) = .ok (.float x, rest) := by
  rcases I.floatstr_spec x with ⟨h, rfl⟩ | ⟨h, rfl⟩ | ⟨h, rfl⟩ | ⟨h, hx⟩
  · rw [h, scanValue_atom I (c := 78) rfl (by decide) (by decide) (by decide)]
    rfl
  · rw [h, scanValue_atom I (c := 73) rfl (by decide) (by decide) (by decide)]
    rfl
  · rw [h, scanValue_atom I (c := 45) rfl (by decide) (by decide) (by decide)]
    rfl
  · obtain ⟨c, t, ht, hc⟩ := h.head
    have hh : (I.floatstr x ++ rest).head? = some c := by rw [ht]; rfl
    have := scanValue_number I hh hc (scanNumber_float I h hr) d
    rwa [hx] at this

/-! ## Documents -/

/-- A document whose integers are within the limit and whose strings, if they
    are escaped, have no surrogate pair. -/
def Tree.Fine (ascii : Bool) {sh : Shape} : Tree F sh → Prop
  | .int n => (natText n.natAbs).length ≤ I.maxDigits
  | .str s => ascii → NoPair s
  | .array xs => Fine ascii xs
  | .object ms => Fine ascii ms
  | .cons x xs => Fine ascii x ∧ Fine ascii xs
  | .member k x ms => (ascii → NoPair k) ∧ Fine ascii x ∧ Fine ascii ms
  | _ => True

/-- The text of a value starts with a code point below 128 that is no white
    space and no closing bracket. -/
theorem render_head (ascii : Bool) (t : Tree F .value) : ∃ c r, render I ascii t = c :: r ∧
    isSpace c = false ∧ c ≠ 93 ∧ c ≠ 125 ∧ c < 128 := by
  have num : ∀ c : Code, c = 45 ∨ isDigit c = true →
      isSpace c = false ∧ c ≠ 93 ∧ c ≠ 125 ∧ c < 128 := by
    rintro c (rfl | hc)
    · decide
    · simp only [isDigit, decide_eq_true_eq] at hc
      refine ⟨?_, ?_, ?_, hc.2.trans_lt (by decide)⟩
      · simp only [isSpace, decide_eq_false_iff_not]
        rintro (rfl | rfl | rfl | rfl) <;> exact absurd hc (by decide)
      · rintro rfl
        exact absurd hc (by decide)
      · rintro rfl
        exact absurd hc (by decide)
  cases t with
  | null => exact ⟨_, _, rfl, rfl, by decide, by decide, by decide⟩
  | bool b => cases b <;> exact ⟨_, _, rfl, rfl, by decide, by decide, by decide⟩
  | int n =>
    obtain ⟨c, r, h, hc⟩ := intText_head n
    exact ⟨c, r, h, num c hc⟩
  | float x =>
    show ∃ c r, I.floatstr x = _ ∧ _
    rcases I.floatstr_spec x with ⟨h, -⟩ | ⟨h, -⟩ | ⟨h, -⟩ | ⟨h, -⟩
    · rw [h]; exact ⟨_, _, rfl, rfl, by decide, by decide, by decide⟩
    · rw [h]; exact ⟨_, _, rfl, rfl, by decide, by decide, by decide⟩
    · rw [h]; exact ⟨_, _, rfl, rfl, by decide, by decide, by decide⟩
    · obtain ⟨c, r, hr, hc⟩ := h.head
      exact ⟨c, r, hr, num c hc⟩
  | str s => exact ⟨_, _, rfl, rfl, by decide, by decide, by decide⟩
  | array xs => exact ⟨_, _, rfl, rfl, by decide, by decide, by decide⟩
  | object ms => exact ⟨_, _, rfl, rfl, by decide, by decide, by decide⟩

theorem skipWs_render (ascii : Bool) (t : Tree F .value) (rest : Str) :
    skipWs (render I ascii t ++ rest) = render I ascii t ++ rest := by
  obtain ⟨c, r, h, hc, -⟩ := render_head I ascii t
  rw [h, skipWs, List.cons_append, List.dropWhile_cons_of_neg (by simp [hc])]

theorem skipWs_cons {c : Code} (hc : isSpace c = false) (s : Str) : skipWs (c :: s) = c :: s :=
  List.dropWhile_cons_of_neg (by simp [hc])

/-- The scanner reads a piece of a document back, with `d` levels left. -/
def Scans (ascii : Bool) (d : ℕ) : {sh : Shape} → Tree F sh → Prop
  | .value, t => ∀ rest, Stops rest → scanValue I d (render I ascii t ++ rest) = .ok (t, rest)
  | .items, t => t = .nil ∨ ∀ fuel rest, (render I ascii t).length ≤ fuel →
      scanItems (scanValue I d) fuel ((render I ascii t).tail ++ 93 :: rest) = .ok (t, rest)
  | .members, t => t = .empty ∨ ∀ fuel rest, (render I ascii t).length ≤ fuel →
      scanMembers (scanValue I d) fuel ((render I ascii t).tail ++ 125 :: rest) = .ok (t, rest)

section
variable {I} {ascii : Bool} {d : ℕ}

theorem scans_cons {x : Tree F .value} {xs : Tree F .items} (hx : Scans I ascii d x)
    (hxs : Scans I ascii d xs) : Scans I ascii d (Tree.cons x xs) := by
  right
  intro fuel rest hf
  cases fuel with
  | zero => simp [render] at hf
  | succ fuel =>
    have hlen : (render I ascii xs).length ≤ fuel := by
      simp only [render, List.length_cons, List.length_append] at hf
      omega
    show scanItems _ _ (render I ascii x ++ render I ascii xs ++ 93 :: rest) = _
    rw [List.append_assoc]
    cases xs with
    | nil =>
      have h := hx (93 :: rest) (by rintro _ ⟨⟩; simp)
      simp only [render, List.nil_append, scanItems, h, bind, Except.bind]
      rw [skipWs_cons rfl]
      rfl
    | cons y ys =>
      have h := hx (44 :: (render I ascii y ++ render I ascii ys) ++ 93 :: rest)
        (by rintro _ ⟨⟩; simp)
      have h' := hxs.resolve_left (by simp) fuel rest hlen
      simp only [render, List.tail_cons, List.append_assoc, List.cons_append] at h h' ⊢
      simp only [scanItems, h, bind, Except.bind]
      rw [skipWs_cons rfl]
      simp only [skipWs_render, h']
      rfl

theorem scanKey_renderStr {k : Str} (hk : ascii → NoPair k) (x : Tree F .value) (rest : Str) :
    scanKey (renderStr ascii k ++ 58 :: (render I ascii x ++ rest)) =
      .ok (k, render I ascii x ++ rest) := by
  rw [renderStr, List.cons_append, List.append_assoc, List.singleton_append, scanKey, if_pos rfl,
    scanStr_renderStr hk]
  simp only [bind, Except.bind]
  rw [skipWs_cons rfl]
  simp [skipWs_render]

theorem scans_member {k : Str} {x : Tree F .value} {ms : Tree F .members}
    (hk : ascii → NoPair k) (hx : Scans I ascii d x) (hms : Scans I ascii d ms) :
    Scans I ascii d (Tree.member k x ms) := by
  right
  intro fuel rest hf
  cases fuel with
  | zero => simp [render] at hf
  | succ fuel =>
    have hlen : (render I ascii ms).length ≤ fuel := by
      simp only [render, List.length_cons, List.length_append] at hf
      omega
    cases ms with
    | empty =>
      have h := hx (125 :: rest) (by rintro _ ⟨⟩; simp)
      have hkey := scanKey_renderStr (I := I) hk x (125 :: rest)
      simp only [render, List.tail_cons, List.append_assoc, List.cons_append, List.nil_append]
        at hkey ⊢
      simp only [scanMembers, hkey, h, bind, Except.bind]
      rw [skipWs_cons rfl]
      rfl
    | member k' y ms =>
      have h := hx (render I ascii (Tree.member k' y ms) ++ 125 :: rest) (by rintro _ ⟨⟩; simp)
      have hkey := scanKey_renderStr (I := I) hk x
        (render I ascii (Tree.member k' y ms) ++ 125 :: rest)
      have h' := hms.resolve_left (by simp) fuel rest hlen
      have hskip : skipWs (renderStr ascii k' ++ 58 :: (render I ascii y ++
          (render I ascii ms ++ 125 :: rest))) = renderStr ascii k' ++ 58 :: (render I ascii y ++
          (render I ascii ms ++ 125 :: rest)) := skipWs_cons rfl _
      simp only [render, List.tail_cons, List.append_assoc, List.cons_append] at h hkey h' ⊢
      simp only [scanMembers, hkey, h, bind, Except.bind]
      rw [skipWs_cons rfl]
      simp only [hskip, h']
      rfl

theorem scans_array {xs : Tree F .items} (hxs : Scans I ascii d xs) :
    Scans I ascii (d + 1) (Tree.array xs) := by
  intro rest _
  have key : scanArray (scanValue I d) ((render I ascii xs).tail ++ 93 :: rest) = .ok (xs, rest) := by
    cases xs with
    | nil =>
      show scanArray _ (93 :: rest) = _
      rw [scanArray, skipWs_cons rfl]
      exact if_pos rfl
    | cons x xs =>
      have h := hxs.resolve_left (by simp)
        (((render I ascii (Tree.cons x xs)).tail ++ 93 :: rest).length + 1) rest
        (by simp only [render, List.tail_cons, List.length_cons, List.length_append]; omega)
      obtain ⟨c, r, hr, -, hc, -⟩ := render_head I ascii x
      simp only [render, List.tail_cons, List.append_assoc] at h ⊢
      rw [scanArray, skipWs_render]
      rw [hr, List.cons_append] at h ⊢
      exact (if_neg hc).trans h
  simp only [render, List.cons_append, List.append_assoc, List.nil_append, scanValue]
  simp [key, bind, Except.bind]

theorem scans_object {ms : Tree F .members} (hms : Scans I ascii d ms) :
    Scans I ascii (d + 1) (Tree.object ms) := by
  intro rest _
  have key : scanObject (scanValue I d) ((render I ascii ms).tail ++ 125 :: rest) =
      .ok (ms, rest) := by
    cases ms with
    | empty =>
      show scanObject _ (125 :: rest) = _
      rw [scanObject, skipWs_cons rfl]
      exact if_pos rfl
    | member k x ms =>
      have h := hms.resolve_left (by simp)
        (((render I ascii (Tree.member k x ms)).tail ++ 125 :: rest).length + 1) rest
        (by simp only [render, List.tail_cons, List.length_cons, List.length_append]; omega)
      simp only [render, renderStr, List.tail_cons, List.append_assoc, List.cons_append] at h ⊢
      rw [scanObject, skipWs_cons rfl]
      exact (if_neg (by decide)).trans h
  simp only [render, List.cons_append, List.append_assoc, List.nil_append, scanValue]
  simp [key, bind, Except.bind]

end

/-- **Scanning undoes rendering.** -/
theorem scans {ascii : Bool} {sh : Shape} (t : Tree F sh) {d : ℕ} (ht : t.Fine I ascii)
    (hd : t.depth ≤ d) : Scans I ascii d t := by
  induction t generalizing d with
  | null =>
    intro rest _
    rw [render, scanValue_atom I (c := 110) rfl (by decide) (by decide) (by decide)]
    rfl
  | bool b =>
    intro rest _
    cases b with
    | true =>
      rw [render, scanValue_atom I (c := 116) rfl (by decide) (by decide) (by decide)]
      rfl
    | false =>
      rw [render, scanValue_atom I (c := 102) rfl (by decide) (by decide) (by decide)]
      rfl
  | int n => exact fun rest hr => scanValue_int I ht hr d
  | float x => exact fun rest hr => scanValue_float I x hr d
  | str s =>
    intro rest _
    rw [render, renderStr, List.cons_append, List.append_assoc, List.singleton_append]
    cases d <;> simp [scanValue, scanStr_renderStr ht, bind, Except.bind]
  | array xs ih =>
    obtain ⟨d, rfl⟩ := Nat.exists_eq_add_of_le' (Nat.le_of_add_left_le hd)
    exact scans_array (ih ht (Nat.le_of_add_le_add_right hd))
  | object ms ih =>
    obtain ⟨d, rfl⟩ := Nat.exists_eq_add_of_le' (Nat.le_of_add_left_le hd)
    exact scans_object (ih ht (Nat.le_of_add_le_add_right hd))
  | nil => exact Or.inl rfl
  | cons x xs ihx ihxs =>
    exact scans_cons (ihx ht.1 ((le_max_left _ _).trans hd)) (ihxs ht.2 ((le_max_right _ _).trans hd))
  | empty => exact Or.inl rfl
  | member k x ms ihx ihms =>
    exact scans_member ht.1 (ihx ht.2.1 ((le_max_left _ _).trans hd))
      (ihms ht.2.2 ((le_max_right _ _).trans hd))

/-- **What was printed is read**: `parse` undoes `render`. -/
theorem parse_render {ascii : Bool} {t : Tree F .value} (ht : t.Fine I ascii)
    (hd : t.depth ≤ I.scanDepth) : parse I (render I ascii t) = .ok t := by
  have h := scans I t ht hd [] fun _ hc => by cases hc
  have hs := skipWs_render I ascii t []
  rw [List.append_nil] at h hs
  obtain ⟨c, r, hr, -, -, -, hc⟩ := render_head I ascii t
  rw [parse, if_neg, hs, h]
  · rfl
  · rw [hr]
    rintro ⟨⟩
    exact absurd hc (by decide)

theorem render_inj {ascii : Bool} {t t' : Tree F .value} (ht : t.Fine I ascii)
    (hd : t.depth ≤ I.scanDepth) (ht' : t'.Fine I ascii) (hd' : t'.depth ≤ I.scanDepth)
    (h : render I ascii t = render I ascii t') : t = t' := by
  have := (parse_render I ht hd).symm.trans ((congrArg (parse I) h).trans (parse_render I ht' hd'))
  exact Except.ok.inj this

/-! ## What the scanner may return -/

theorem hex4_error {a b c d : Code} {e : PyError} (h : hex4 a b c d = .error e) :
    e = .valueError := by
  unfold hex4 at h
  split at h
  · cases h
  · cases h; rfl

theorem backslash_error {c : Code} {e : PyError} (h : backslash c = .error e) :
    e = .valueError := by
  unfold backslash at h
  split_ifs at h
  cases h; rfl

theorem scanChars_error {s : Str} {e : PyError} (h : scanChars s = .error e) :
    e = .valueError := by
  fun_induction scanChars s with
  | case1 => cases h; rfl
  | case2 => cases h
  | case3 => cases h; rfl
  | case4 _ _ _ _ _ _ ih =>
    rcases Except.bind_error.1 h with h | ⟨u, -, h⟩
    · exact hex4_error h
    · rcases Except.bind_error.1 h with h | ⟨_, -, h⟩
      · exact ih h
      · cases h
  | case5 => cases h; rfl
  | case6 _ _ _ _ ih =>
    rcases Except.bind_error.1 h with h | ⟨u, -, h⟩
    · exact backslash_error h
    · rcases Except.bind_error.1 h with h | ⟨_, -, h⟩
      · exact ih h
      · cases h
  | case7 => cases h; rfl
  | case8 _ _ _ _ _ ih =>
    rcases Except.bind_error.1 h with h | ⟨_, -, h⟩
    · exact ih h
    · cases h

theorem scanStr_error {s : Str} {e : PyError} (h : scanStr s = .error e) : e = .valueError := by
  rcases Except.bind_error.1 h with h | ⟨_, -, h⟩
  · exact scanChars_error h
  · cases h

theorem scanKey_error {s : Str} {e : PyError} (h : scanKey s = .error e) : e = .valueError := by
  unfold scanKey at h
  split at h
  · cases h; rfl
  · split_ifs at h
    · rcases Except.bind_error.1 h with h | ⟨⟨k, s⟩, -, h⟩
      · exact scanStr_error h
      · revert h
        dsimp only
        split
        · rintro ⟨⟩; rfl
        · split_ifs
          · nofun
          · rintro ⟨⟩; rfl
    · cases h; rfl

theorem scalar_of_suffix {s t : Str} (hs : s <:+ t) (ht : Scalar t) : Scalar s :=
  fun c hc => ht c (hs.subset hc)

theorem skipWs_suffix (s : Str) : skipWs s <:+ s := List.dropWhile_suffix _

theorem backslash_valid {c u : Code} (h : backslash c = .ok u) : u.val.isValidChar := by
  unfold backslash at h
  split_ifs at h <;>
    · cases h
      decide

/-- What is not escaped in a string stands in the text. -/
theorem scanChars_ok {s rest : Str} {cs : List (Bool × Code)} (h : scanChars s = .ok (cs, rest)) :
    rest <:+ s ∧ (Scalar s → ∀ x ∈ cs, x.1 = false → x.2.val.isValidChar) := by
  fun_induction scanChars s generalizing cs rest with
  | case1 => cases h
  | case2 tail =>
    cases h
    exact ⟨List.suffix_cons _ _, by simp⟩
  | case3 => cases h
  | case4 x y z w tail _ ih =>
    obtain ⟨u, -, h⟩ := Except.bind_ok.1 h
    obtain ⟨⟨cs', rest'⟩, hscan, h⟩ := Except.bind_ok.1 h
    cases h
    obtain ⟨hsuf, hvalid⟩ := ih hscan
    have htail : tail <:+ 92 :: 117 :: x :: y :: z :: w :: tail := ⟨[92, 117, x, y, z, w], rfl⟩
    refine ⟨hsuf.trans htail, fun hs => ?_⟩
    simpa using hvalid (scalar_of_suffix htail hs)
  | case5 => cases h
  | case6 e tail _ _ ih =>
    obtain ⟨u, hu, h⟩ := Except.bind_ok.1 h
    obtain ⟨⟨cs', rest'⟩, hscan, h⟩ := Except.bind_ok.1 h
    cases h
    obtain ⟨hsuf, hvalid⟩ := ih hscan
    have htail : tail <:+ 92 :: e :: tail := ⟨[92, e], rfl⟩
    refine ⟨hsuf.trans htail, fun hs => List.forall_mem_cons.2 ⟨fun _ => backslash_valid hu, ?_⟩⟩
    exact hvalid (scalar_of_suffix htail hs)
  | case7 => cases h
  | case8 c tail _ _ _ ih =>
    obtain ⟨⟨cs', rest'⟩, hscan, h⟩ := Except.bind_ok.1 h
    cases h
    obtain ⟨hsuf, hvalid⟩ := ih hscan
    have htail : tail <:+ c :: tail := List.suffix_cons _ _
    refine ⟨hsuf.trans htail, fun hs => List.forall_mem_cons.2 ⟨fun _ => hs c (by simp), ?_⟩⟩
    exact hvalid (scalar_of_suffix htail hs)

theorem combine_val {c d : Code} (hc : High c) (hd : Low d) : 0x10000 ≤ (combine c d).val := by
  obtain ⟨h₁, h₂⟩ := hc
  obtain ⟨h₃, h₄⟩ := hd
  have : (combine c d).val = 0x10000 + (c.val - 0xd800) * 1024 + (d.val - 0xdc00) :=
    Nat.mod_eq_of_lt (by omega)
  omega

/-- No two code points of a string that was read form a pair, if none of its
    surrogates was written as it is. -/
theorem joinPairs_noPair {cs : List (Bool × Code)}
    (h : ∀ x ∈ cs, x.1 = false → x.2.val.isValidChar) :
    NoPair (joinPairs cs) ∧ ∀ c ∈ (joinPairs cs).head?, 0x10000 ≤ c.val ∨
      ∃ x ∈ cs.head?, c = x.2 := by
  fun_induction joinPairs cs with
  | case1 => exact ⟨.nil, nofun⟩
  | case2 x => exact ⟨.singleton _, fun c hc => Or.inr ⟨x, rfl, (Option.some.inj hc).symm⟩⟩
  | case3 x y rest hxy ih =>
    have hbig := combine_val hxy.2.2.1 hxy.2.2.2
    have ih := ih fun z hz => h z (by simp [hz])
    refine ⟨List.isChain_cons.2 ⟨fun d _ hd => ?_, ih.1⟩, ?_⟩
    · exact absurd (hbig.trans hd.1.2) (by decide)
    · intro c hc
      rw [List.head?_cons, Option.mem_some_iff] at hc
      exact Or.inl (hc ▸ hbig)
  | case4 x y rest hxy ih =>
    have ih := ih fun z hz => h z (List.mem_cons_of_mem _ hz)
    refine ⟨List.isChain_cons.2 ⟨fun d hd hp => ?_, ih.1⟩, ?_⟩
    · have hesc : ∀ z : Bool × Code, z ∈ x :: y :: rest → High z.2 ∨ Low z.2 → z.1 = true := by
        intro z hz hsur
        by_contra hne
        have hv := h z hz (Bool.eq_false_iff.2 hne)
        unfold Nat.isValidChar at hv
        rcases hsur with ⟨h₁, h₂⟩ | ⟨h₁, h₂⟩ <;> omega
      rcases ih.2 d hd with hbig | ⟨z, hz, rfl⟩
      · have := hp.2.2
        omega
      · cases hz
        exact hxy ⟨hesc x (by simp) (Or.inl hp.1), hesc y (by simp) (Or.inr hp.2), hp.1, hp.2⟩
    · intro c hc
      rw [List.head?_cons, Option.mem_some_iff] at hc
      exact Or.inr ⟨x, rfl, hc.symm⟩

theorem scanStr_ok {s k rest : Str} (h : scanStr s = .ok (k, rest)) :
    rest <:+ s ∧ (Scalar s → NoPair k) := by
  obtain ⟨⟨cs, rest'⟩, hscan, h⟩ := Except.bind_ok.1 h
  cases h
  obtain ⟨hsuf, hvalid⟩ := scanChars_ok hscan
  exact ⟨hsuf, fun hs => (joinPairs_noPair (hvalid hs)).1⟩

theorem scanKey_ok {s k rest : Str} (h : scanKey s = .ok (k, rest)) :
    rest <:+ s ∧ (Scalar s → NoPair k) := by
  unfold scanKey at h
  split at h
  · cases h
  rename_i c s
  split_ifs at h
  obtain ⟨⟨k', s'⟩, hstr, h⟩ := Except.bind_ok.1 h
  obtain ⟨hsuf, hpair⟩ := scanStr_ok hstr
  have hskip := skipWs_suffix s'
  dsimp only at h
  split at h
  · cases h
  rename_i d s'' hs''
  rw [hs''] at hskip
  split_ifs at h
  cases h
  have hcons : s <:+ c :: s := List.suffix_cons _ _
  refine ⟨?_, fun hs => hpair (scalar_of_suffix hcons hs)⟩
  exact (skipWs_suffix s'').trans (((List.suffix_cons d s'').trans hskip).trans (hsuf.trans hcons))

/-- A document of bounded integers and depth and the end of a text, or `ValueError`
    or `RecursionError`. -/
def Sound (ascii : Bool) (d : ℕ) {sh : Shape} : Scanned F sh → Prop
  | .ok (t, rest) => t.Fine I ascii ∧ t.depth ≤ d ∧ (ascii → Scalar rest)
  | .error e => e = .valueError ∨ e = .recursionError

section
variable {I} {ascii : Bool} {d : ℕ} {sh : Shape}

theorem Sound.bind {sh' : Shape} {d' : ℕ} {r : Scanned F sh} (hr : Sound I ascii d r)
    {f : Tree F sh × Str → Scanned F sh'}
    (hf : ∀ t s, t.Fine I ascii → t.depth ≤ d → (ascii → Scalar s) → Sound I ascii d' (f (t, s))) :
    Sound I ascii d' (r >>= f) := by
  cases r with
  | error e => exact hr
  | ok p => exact hf p.1 p.2 hr.1 hr.2.1 hr.2.2

theorem Sound.after {α : Type} {r : Except PyError α} (hr : ∀ e, r = .error e → e = .valueError)
    {f : α → Scanned F sh} (hf : ∀ a, r = .ok a → Sound I ascii d (f a)) :
    Sound I ascii d (r >>= f) := by
  cases r with
  | error e => exact Or.inl (hr e rfl)
  | ok a => exact hf a rfl

end

theorem takeInt_digits {s ip rest : Str} (h : takeInt s = some (ip, rest)) :
    ip ≠ [] ∧ ip.all isDigit := by
  unfold takeInt at h
  split at h
  · cases h
  · split_ifs at h with h₁ h₂
    · cases h; exact ⟨by simp, rfl⟩
    · cases h
      exact ⟨by simp [h₂], List.all_takeWhile⟩

/-- No number has more digits than its text. -/
theorem length_natText_natValue {ip : Str} (hne : ip ≠ []) (hd : ip.all isDigit) :
    (natText (natValue ip)).length ≤ ip.length := by
  unfold natText
  split_ifs with h
  · exact List.length_pos_iff.2 hne
  · rw [List.length_map, List.length_reverse, Nat.digits_length_le_iff (by norm_num)]
    have hlt : ∀ x ∈ ip.reverse.map fun c => c.val - 48, x < 10 := by
      simp only [List.mem_map, List.mem_reverse]
      rintro _ ⟨c, hc, rfl⟩
      have := List.all_eq_true.1 hd c hc
      simp only [isDigit, decide_eq_true_eq] at this
      have h57 : c.val ≤ 57 := this.2
      omega
    have := Nat.ofDigits_lt_base_pow_length (by norm_num) hlt
    rwa [List.length_map, List.length_reverse] at this

theorem intValue_natAbs (sign ip : Str) : (intValue sign ip).natAbs = natValue ip := by
  unfold intValue
  split_ifs
  · exact Int.natAbs_natCast _
  · rw [Int.natAbs_neg, Int.natAbs_natCast]

theorem scanConstant_mem {cs : List (Str × Tree F .value)} {s : Str} {r : Tree F .value × Str}
    (h : scanConstant cs s = some r) : r.1 ∈ cs.map Prod.snd ∧ r.2 <:+ s := by
  obtain ⟨⟨t, x⟩, hmem, hx⟩ := List.exists_of_findSome?_eq_some h
  obtain ⟨rest, hrest, rfl⟩ := Option.map_eq_some_iff.1 hx
  refine ⟨List.mem_map.2 ⟨_, hmem, rfl⟩, ?_⟩
  unfold expect at hrest
  split_ifs at hrest
  cases hrest
  exact List.drop_suffix _ _

theorem takeSign_suffix (s : Str) : (takeSign s).2 <:+ s := by
  unfold takeSign
  split
  · exact List.suffix_rfl
  · split_ifs
    · exact List.suffix_cons _ _
    · exact List.suffix_rfl

theorem takeInt_suffix {s ip rest : Str} (h : takeInt s = some (ip, rest)) : rest <:+ s := by
  unfold takeInt at h
  split at h
  · cases h
  · split_ifs at h
    · cases h; exact List.suffix_cons _ _
    · cases h; exact List.dropWhile_suffix _

theorem takeFrac_suffix (s : Str) : (takeFrac s).2 <:+ s := by
  unfold takeFrac
  split
  · exact List.suffix_rfl
  · split_ifs
    · exact (List.dropWhile_suffix _).trans (List.suffix_cons _ _)
    · exact List.suffix_rfl

theorem takeExpSign_suffix (s : Str) : (takeExpSign s).2 <:+ s := by
  unfold takeExpSign
  split
  · exact List.suffix_rfl
  · split_ifs
    · exact List.suffix_cons _ _
    · exact List.suffix_rfl

theorem takeExp_suffix (s : Str) : (takeExp s).2 <:+ s := by
  unfold takeExp
  split
  · exact List.suffix_rfl
  · rename_i e rest
    dsimp only
    split_ifs
    · exact (List.dropWhile_suffix _).trans ((takeExpSign_suffix rest).trans (List.suffix_cons _ _))
    · exact List.suffix_rfl

theorem scanNumber_sound (d : ℕ) {ascii : Bool} {s : Str} (hs : ascii → Scalar s)
    {r : Scanned F .value} (h : scanNumber I s = some r) : Sound I ascii d r := by
  simp only [scanNumber] at h
  split at h
  · cases h
  · rename_i ip s' hip
    obtain ⟨hne, hd⟩ := takeInt_digits hip
    have hsuf : (takeExp (takeFrac s').2).2 <:+ s := (takeExp_suffix _).trans
      ((takeFrac_suffix _).trans ((takeInt_suffix hip).trans (takeSign_suffix s)))
    have hrest : ascii → Scalar (takeExp (takeFrac s').2).2 := fun ha => scalar_of_suffix hsuf (hs ha)
    split_ifs at h with h₁ h₂
    · cases h; exact Or.inl rfl
    · cases h
      refine ⟨?_, Nat.zero_le d, hrest⟩
      show (natText (intValue _ ip).natAbs).length ≤ _
      rw [intValue_natAbs]
      exact (length_natText_natValue hne hd).trans (not_lt.1 h₂)
    · cases h; exact ⟨trivial, Nat.zero_le d, hrest⟩

theorem scanAtom_sound (d : ℕ) {ascii : Bool} {s : Str} (hs : ascii → Scalar s) :
    Sound I ascii d (scanAtom I s) := by
  unfold scanAtom
  split
  · rename_i r hr
    obtain ⟨hmem, hsuf⟩ := scanConstant_mem hr
    simp only [List.map_cons, List.map_nil, List.mem_cons, List.not_mem_nil, or_false] at hmem
    obtain ⟨t, rest⟩ := r
    have hrest : ascii → Scalar rest := fun ha => scalar_of_suffix hsuf (hs ha)
    rcases hmem with rfl | rfl | rfl <;> exact ⟨trivial, Nat.zero_le d, hrest⟩
  · split
    · exact scanNumber_sound I d hs ‹_›
    · split
      · rename_i r hr
        obtain ⟨hmem, hsuf⟩ := scanConstant_mem hr
        simp only [List.map_cons, List.map_nil, List.mem_cons, List.not_mem_nil, or_false] at hmem
        obtain ⟨t, rest⟩ := r
        have hrest : ascii → Scalar rest := fun ha => scalar_of_suffix hsuf (hs ha)
        rcases hmem with rfl | rfl | rfl <;> exact ⟨trivial, Nat.zero_le d, hrest⟩
      · exact Or.inl rfl

/-- What is left of a text without surrogates after white space has none. -/
theorem scalar_skipWs {ascii : Bool} {s t : Str} (hs : ascii → Scalar s) (ht : t <:+ skipWs s) :
    ascii → Scalar t :=
  fun ha => scalar_of_suffix (ht.trans (skipWs_suffix s)) (hs ha)

theorem scanItems_sound {d : ℕ} {ascii : Bool} {scan : Str → Scanned F .value}
    (hscan : ∀ s, (ascii → Scalar s) → Sound I ascii d (scan s)) (fuel : ℕ) (s : Str)
    (hs : ascii → Scalar s) : Sound I ascii d (scanItems scan fuel s) := by
  induction fuel generalizing s with
  | zero => exact Or.inl rfl
  | succ fuel ih =>
    refine (hscan s hs).bind fun x s hx hd hs => ?_
    dsimp only
    split
    · exact Or.inl rfl
    · rename_i c s' hs'
      have hs' : ascii → Scalar s' := scalar_skipWs hs (hs' ▸ List.suffix_cons _ _)
      split_ifs
      · exact ⟨⟨hx, trivial⟩, max_le hd (Nat.zero_le d), hs'⟩
      · exact (ih _ (scalar_skipWs hs' List.suffix_rfl)).bind fun xs s hxs hds hs =>
          ⟨⟨hx, hxs⟩, max_le hd hds, hs⟩
      · exact Or.inl rfl

theorem scanMembers_sound {d : ℕ} {ascii : Bool} {scan : Str → Scanned F .value}
    (hscan : ∀ s, (ascii → Scalar s) → Sound I ascii d (scan s)) (fuel : ℕ) (s : Str)
    (hs : ascii → Scalar s) : Sound I ascii d (scanMembers scan fuel s) := by
  induction fuel generalizing s with
  | zero => exact Or.inl rfl
  | succ fuel ih =>
    refine Sound.after (fun _ => scanKey_error) fun ⟨k, t⟩ hkey => ?_
    obtain ⟨hsuf, hpair⟩ := scanKey_ok hkey
    have hk : ascii → NoPair k := fun ha => hpair (hs ha)
    refine (hscan t fun ha => scalar_of_suffix hsuf (hs ha)).bind fun x s hx hd hs => ?_
    dsimp only
    split
    · exact Or.inl rfl
    · rename_i c s' hs'
      have hs' : ascii → Scalar s' := scalar_skipWs hs (hs' ▸ List.suffix_cons _ _)
      split_ifs
      · exact ⟨⟨hk, hx, trivial⟩, max_le hd (Nat.zero_le d), hs'⟩
      · exact (ih _ (scalar_skipWs hs' List.suffix_rfl)).bind fun ms s hms hds hs =>
          ⟨⟨hk, hx, hms⟩, max_le hd hds, hs⟩
      · exact Or.inl rfl

theorem scanStr_sound (d : ℕ) {ascii : Bool} {s : Str} (hs : ascii → Scalar s) :
    Sound I ascii d (do
      let (t, rest) ← scanStr s
      .ok (.str t, rest) : Scanned F .value) := by
  refine Sound.after (fun _ => scanStr_error) fun ⟨k, rest⟩ hk => ?_
  obtain ⟨hsuf, hpair⟩ := scanStr_ok hk
  exact ⟨fun ha => hpair (hs ha), Nat.zero_le d, fun ha => scalar_of_suffix hsuf (hs ha)⟩

/-- **What the scanner returns is bounded, and it raises nothing but `ValueError` and
    `RecursionError`.**  In a text without surrogates no string has a pair. -/
theorem scanValue_sound {ascii : Bool} (d : ℕ) (s : Str) (hs : ascii → Scalar s) :
    Sound I ascii d (scanValue I d s) := by
  induction d generalizing s with
  | zero =>
    cases s with
    | nil => exact Or.inl rfl
    | cons c rest =>
      have hrest : ascii → Scalar rest := fun ha => scalar_of_suffix (List.suffix_cons _ _) (hs ha)
      unfold scanValue
      split_ifs
      · exact scanStr_sound I 0 hrest
      · exact Or.inr rfl
      · exact Or.inr rfl
      · exact scanAtom_sound I 0 hs
  | succ d ih =>
    cases s with
    | nil => exact Or.inl rfl
    | cons c rest =>
      have hrest : ascii → Scalar rest := fun ha => scalar_of_suffix (List.suffix_cons _ _) (hs ha)
      unfold scanValue
      split_ifs
      · exact scanStr_sound I (d + 1) hrest
      · have h : Sound I ascii d (scanObject (scanValue I d) rest) := by
          unfold scanObject
          split
          · exact Or.inl rfl
          · rename_i c' s' hs'
            split_ifs
            · exact ⟨trivial, Nat.zero_le d, scalar_skipWs hrest (hs' ▸ List.suffix_cons _ _)⟩
            · exact scanMembers_sound I ih _ _ (scalar_skipWs hrest (hs' ▸ List.suffix_rfl))
        exact h.bind fun ms s hms hd hs => ⟨hms, Nat.succ_le_succ hd, hs⟩
      · have h : Sound I ascii d (scanArray (scanValue I d) rest) := by
          unfold scanArray
          split
          · exact Or.inl rfl
          · rename_i c' s' hs'
            split_ifs
            · exact ⟨trivial, Nat.zero_le d, scalar_skipWs hrest (hs' ▸ List.suffix_cons _ _)⟩
            · exact scanItems_sound I ih _ _ (scalar_skipWs hrest (hs' ▸ List.suffix_rfl))
        exact h.bind fun xs s hxs hd hs => ⟨hxs, Nat.succ_le_succ hd, hs⟩
      · exact scanAtom_sound I _ hs

/-- What `parse` returns. -/
theorem parse_ok {s : Str} {t : Tree F .value} (h : parse I s = .ok t) (ascii : Bool)
    (hascii : ascii → Scalar s) : t.Fine I ascii ∧ t.depth ≤ I.scanDepth := by
  have hs := scanValue_sound I I.scanDepth (skipWs s) (scalar_skipWs hascii List.suffix_rfl)
  unfold parse at h
  split_ifs at h
  obtain ⟨⟨t', rest⟩, ht, h⟩ := Except.bind_ok.1 h
  rw [ht] at hs
  dsimp only at h
  split_ifs at h
  cases h
  exact ⟨hs.1, hs.2.1⟩

theorem parse_error {s : Str} {e : PyError} (h : parse I s = .error e) :
    e = .valueError ∨ e = .recursionError := by
  have hs : Sound I false I.scanDepth (scanValue I I.scanDepth (skipWs s)) :=
    scanValue_sound I _ _ nofun
  unfold parse at h
  split_ifs at h
  · cases h; exact Or.inl rfl
  · rcases Except.bind_error.1 h with h | ⟨⟨t', rest⟩, -, h⟩
    · rw [h] at hs
      exact hs
    · dsimp only at h
      split_ifs at h
      cases h; exact Or.inl rfl

/-! ## An interpreter -/

/-- The floats `n + 1/2`, and those that are no numbers. -/
inductive Half where
  | nan
  | inf
  | negInf
  | half (n : ℕ)
  deriving DecidableEq

namespace Half

/-- `repr`, as `json` writes it. -/
def text : Half → Str
  | nan => lit "NaN"
  | inf => lit "Infinity"
  | negInf => lit "-Infinity"
  | half n => natText n ++ lit ".5"

def ofText (s : Str) : Half := half (natValue (s.takeWhile isDigit))

/-- Twice the number that a key is. -/
def twice : Key Half → ℤ
  | .int n => 2 * n
  | .bool b => if b then 2 else 0
  | .float (half n) => 2 * n + 1
  | _ => 0

theorem ofText_text (n : ℕ) : ofText (text (half n)) = half n := by
  have hd : (natText n).all isDigit := natText_digits n
  have hr : ∀ c ∈ (lit ".5").head?, isDigit c = false := by
    rintro _ ⟨⟩
    rfl
  rw [ofText, text, (takeWhile_digits hd hr).1, natValue_natText]

theorem floatToken_text (n : ℕ) : FloatToken (text (half n)) :=
  ⟨⟨[], natText n, lit ".5", [], by simp [text], Or.inl rfl, natText_intPart n,
    Or.inr ⟨lit "5", rfl, by decide, rfl⟩, Or.inl rfl, Or.inl (by decide)⟩⟩

/-- An interpreter with these floats. -/
def interp : Interp Half where
  nan := nan
  inf := inf
  negInf := negInf
  floatstr := text
  parseFloat := ofText
  floatEqInt _ _ := false
  strFloat := text
  strInside _ := .ok (lit "..")
  sortNumbers ps := ps.insertionSort fun a b => twice a.1 ≤ twice b.1
  maxDigits := 4300
  encodeDepth := 987
  scanDepth := 990
  innerDepth := 986
  floatstr_spec x := by
    cases x with
    | nan => exact Or.inl ⟨rfl, rfl⟩
    | inf => exact Or.inr (Or.inl ⟨rfl, rfl⟩)
    | negInf => exact Or.inr (Or.inr (Or.inl ⟨rfl, rfl⟩))
    | half n => exact Or.inr (Or.inr (Or.inr ⟨floatToken_text n, ofText_text n⟩))
  sortNumbers_perm ps := List.perm_insertionSort _ ps
  strInside_error v e h := by cases h
  depth_le := by decide
  inner_le := by decide
  three_le := by decide

end Half

end Json
