/-
  The strings of a value, and the items of its dictionaries, before and after it
  is written and read.
-/
import ResumableBatch.Lib.JsonCanonical

namespace Json

open Text

variable {F : Type} (I : Interp F) {p : Str → Prop}

/-! ## Strings -/

/-- All strings of a value, its keys included, have a property. -/
def Value.Strings (p : Str → Prop) {sh : Shape} : Value F sh → Prop
  | .str s => p s
  | .list xs | .tuple xs => Strings p xs
  | .dict ms => Strings p ms
  | .cons x xs => Strings p x ∧ Strings p xs
  | .item k x ms => p k.asStr ∧ Strings p x ∧ Strings p ms
  | _ => True

theorem Tree.strings_ofList (qs : List (Str × Tree F .value)) :
    (Tree.ofList qs).Strings p ↔ ∀ q ∈ qs, p q.1 ∧ q.2.Strings p := by
  induction qs with
  | nil => simp [Tree.ofList, Tree.Strings]
  | cons q qs ih => rw [List.forall_mem_cons, ← ih, and_assoc]; rfl

theorem Value.strings_ofList (qs : List (Key F × PyVal F)) :
    (Value.ofList qs).Strings p ↔ ∀ q ∈ qs, p q.1.asStr ∧ q.2.Strings p := by
  induction qs with
  | nil => simp [Value.ofList, Value.Strings]
  | cons q qs ih => rw [List.forall_mem_cons, ← ih, and_assoc]; rfl

theorem Value.strings_members (ms : Value F .members) :
    ms.Strings p ↔ ∀ q ∈ ms.toList, p q.1.asStr ∧ q.2.Strings p := by
  rw [← Value.strings_ofList, Value.ofList_toList]

/-- A document that is escaped must not have a surrogate pair in a string. -/
theorem Tree.fine_iff {ascii : Bool} {sh : Shape} (t : Tree F sh) :
    t.Fine I ascii ↔ t.Fine I false ∧ (ascii → t.Strings NoPair) := by
  induction t with
  | str s => simp [Tree.Fine, Tree.Strings]
  | array xs ih => exact ih
  | object ms ih => exact ih
  | cons x xs ihx ihxs =>
    simp only [Tree.Fine, Tree.Strings, ihx, ihxs, imp_and]
    exact and_and_and_comm
  | member k x ms ihx ihms =>
    simp only [Tree.Fine, Tree.Strings, ihx, ihms, imp_and, Bool.false_eq_true, false_implies,
      true_and]
    rw [and_and_and_comm]
    exact and_left_comm
  | _ => simp [Tree.Fine, Tree.Strings]

/-- A property of all strings, of what `encode` makes of a piece of a value. -/
def Encoded.Strings (p : Str → Prop) : {sh : Shape} → Encoded F sh → Prop
  | .value, (t : Tree F .value) => t.Strings p
  | .items, (t : Tree F .items) => t.Strings p
  | .members, (ps : List (Key F × Tree F .value)) => ∀ x ∈ ps, p x.1.asStr ∧ x.2.Strings p

/-- **A JSON value has the strings of its document.** -/
theorem encode_strings {sh : Shape} {v : Value F sh} (hv : v.IsJson) {t : Encoded F sh}
    (h : encode I v = .ok t) : Encoded.Strings p t ↔ v.Strings p := by
  induction v with
  | list xs ih =>
    obtain ⟨ts, hts, rfl⟩ := encode_list.1 h
    exact ih hv hts
  | tuple xs ih => exact hv.elim
  | dict ms ih =>
    obtain ⟨⟨hs, -⟩, hms⟩ := hv
    obtain ⟨ps, hps, rfl⟩ := (encode_dict_str I hs).1 h
    refine Iff.trans ?_ (ih hms hps)
    show (Tree.ofList _).Strings p ↔ _
    rw [Tree.strings_ofList, List.forall_mem_map]
    exact forall_congr' fun x => by rw [(sortByKey_perm ps).mem_iff]
  | cons x xs ihx ihxs =>
    obtain ⟨y, hy, ys, hys, rfl⟩ := encode_cons.1 h
    exact and_congr (ihx hv.1 hy) (ihxs hv.2 hys)
  | item k x ms ihx ihms =>
    obtain ⟨y, hy, qs, hqs, rfl⟩ := encode_item.1 h
    refine Iff.trans List.forall_mem_cons ?_
    rw [and_assoc]
    exact and_congr_right fun _ => and_congr (ihx hv.1 hy) (ihms hv.2 hqs)
  | int n =>
    obtain ⟨-, rfl⟩ := encode_int.1 h
    exact Iff.rfl
  | empty => cases h; simp [Encoded.Strings, Value.Strings]
  | _ => cases h; exact Iff.rfl

section
variable [DecidableEq F]

/-- What is read has no strings but those of the document. -/
theorem Tree.strings_toValue {sh : Shape} {t : Tree F sh} (h : t.Strings p) :
    t.toValue.Strings p := by
  induction t with
  | array xs ih => exact ih h
  | object ms ih =>
    refine (Value.strings_members _).2 fun q hq => ?_
    exact (Value.strings_members _).1 (ih h) q ((Value.dictOf_spec _).1 q hq)
  | cons x xs ihx ihxs => exact ⟨ihx h.1, ihxs h.2⟩
  | member k x ms ihx ihms => exact ⟨h.1, ihx h.2.1, ihms h.2.2⟩
  | str s => exact h
  | _ => trivial

/-- **What was written is read**, if no string has a surrogate pair that was
    escaped. -/
theorem loads_dumps_strings {ascii : Bool} {v : PyVal F} {s : Str} (h : dumps I ascii v = .ok s)
    (hv : v.IsJson) (hp : ascii → v.Strings NoPair) : loads I s = .ok v.sortKeys := by
  obtain ⟨t, ht, -, hfine, -⟩ := dumps_ok I h
  have hstr : ascii → t.Strings NoPair := fun ha => (encode_strings I hv ht).2 (hp ha)
  rw [loads_dumps I h ht ((Tree.fine_iff I t).2 ⟨hfine, hstr⟩)]
  exact congrArg _ (toValue_encode I hv ht)

/-- What is read of a text without surrogates. -/
theorem loads_ok {s : Str} {v : PyVal F} (h : loads I s = .ok v) :
    v.IsJson ∧ (Scalar s → v.Strings NoPair) := by
  obtain ⟨t, ht, hv⟩ := Except.bind_ok.1 h
  cases hv
  refine ⟨t.isJson_toValue, fun hs => Tree.strings_toValue ?_⟩
  exact ((Tree.fine_iff I t).1 (parse_ok I ht true fun _ => hs).1).2 rfl

end

/-! ## Surrogate pairs -/

theorem escape_of_le {c : Code} (hb : 127 ≤ c.val) : escape true c =
    if c.val < 0x10000 then unicodeEscape c.val
    else unicodeEscape (0xd800 + (c.val - 0x10000) / 1024) ++
      unicodeEscape (0xdc00 + (c.val - 0x10000) % 1024) := by
  have hne : ∀ {d : Code}, d.val < 127 → c ≠ d := by
    rintro d hd rfl
    omega
  have hlt : ¬ c < 32 := by
    intro h
    have : c.val < 32 := h
    omega
  have hle : (127 : Code) ≤ c := hb
  simp only [escape, hne (d := 34) (by decide), hne (d := 92) (by decide), hne (d := 10) (by decide),
    hne (d := 13) (by decide), hne (d := 9) (by decide), hne (d := 12) (by decide),
    hne (d := 8) (by decide), hlt, hle, if_false, and_self, if_true]

/-- The two halves of a code point are escaped like the code point. -/
theorem escape_combine {c d : Code} (hc : High c) (hd : Low d) :
    escape true (combine c d) = escape true c ++ escape true d := by
  have hbig := combine_val hc hd
  obtain ⟨h₁, h₂⟩ := hc
  obtain ⟨h₃, h₄⟩ := hd
  have hval : (combine c d).val = 0x10000 + (c.val - 0xd800) * 1024 + (d.val - 0xdc00) :=
    Nat.mod_eq_of_lt (by omega)
  have hhigh : 0xd800 + ((combine c d).val - 0x10000) / 1024 = c.val := by omega
  have hlow : 0xdc00 + ((combine c d).val - 0x10000) % 1024 = d.val := by omega
  rw [escape_of_le (by omega), if_neg (by omega), hhigh, hlow, escape_of_le (c := c) (by omega),
    if_pos (by omega), escape_of_le (c := d) (by omega), if_pos (by omega)]

/-- **A string is escaped like one without surrogate pairs.** -/
theorem escape_joined : ∀ s : Str, ∃ s', NoPair s' ∧
    (∀ c ∈ s'.head?, 0x10000 ≤ c.val ∨ s.head? = some c) ∧
    s'.flatMap (escape true) = s.flatMap (escape true)
  | [] => ⟨[], .nil, nofun, rfl⟩
  | [c] => ⟨[c], .singleton c, fun _ hc => Or.inr hc, rfl⟩
  | c :: d :: rest => by
    by_cases hpair : High c ∧ Low d
    · obtain ⟨s', hs', hhead, hesc⟩ := escape_joined rest
      have hbig := combine_val hpair.1 hpair.2
      refine ⟨combine c d :: s', List.isChain_cons.2 ⟨fun x _ hx => ?_, hs'⟩, ?_, ?_⟩
      · have := hx.1.2
        omega
      · intro x hx
        obtain rfl := Option.some.inj hx
        exact Or.inl hbig
      · rw [List.flatMap_cons, List.flatMap_cons, List.flatMap_cons, hesc,
          escape_combine hpair.1 hpair.2, List.append_assoc]
    · obtain ⟨s', hs', hhead, hesc⟩ := escape_joined (d :: rest)
      refine ⟨c :: s', List.isChain_cons.2 ⟨fun x hx hp => ?_, hs'⟩, ?_, ?_⟩
      · rcases hhead x hx with hbig | hd
        · have := hp.2.2
          omega
        · obtain rfl := Option.some.inj hd
          exact hpair hp
      · exact fun x hx => Or.inr hx
      · rw [List.flatMap_cons, hesc, ← List.flatMap_cons]

theorem renderStr_joined (s : Str) : ∃ s', NoPair s' ∧ renderStr true s' = renderStr true s := by
  obtain ⟨s', hs', -, hesc⟩ := escape_joined s
  exact ⟨s', hs', by rw [renderStr, renderStr, hesc]⟩

/-! ## Items of dictionaries -/

theorem Value.toList_sortKeys : ∀ ms : Value F .members,
    ms.sortKeys.toList = ms.toList.map fun q => (q.1, q.2.sortKeys)
  | .empty => rfl
  | .item k x ms => by
    rw [Value.sortKeys, Value.toList, Value.toList_sortKeys ms, Value.toList, List.map_cons]

section
variable [DecidableEq F]

/-- A dictionary looks up its items. -/
theorem Value.get_iff {k : Key F} {v : PyVal F} : ∀ {ms : Value F .members},
    (ms.toList.map Prod.fst).Nodup → (Value.get k ms = some v ↔ (k, v) ∈ ms.toList)
  | .empty, _ => by simp [Value.get, Value.toList]
  | .item k' x ms, h => by
    rw [Value.toList, List.map_cons, List.nodup_cons] at h
    rw [Value.get, Value.toList, List.mem_cons]
    split_ifs with hk
    · subst hk
      constructor
      · rintro hx
        exact Or.inl (by rw [Option.some.inj hx])
      · rintro (hx | hx)
        · rw [(Prod.mk.inj hx).2]
        · exact absurd (List.mem_map_of_mem (f := Prod.fst) hx) h.1
    · rw [Value.get_iff h.2]
      exact (or_iff_right fun hx => hk (Prod.mk.inj hx).1.symm).symm

theorem Value.mem_of_get {k : Key F} {v : PyVal F} : ∀ {ms : Value F .members},
    Value.get k ms = some v → (k, v) ∈ ms.toList
  | .item k' x ms, h => by
    rw [Value.get] at h
    split_ifs at h with hk
    · rw [← hk, ← Option.some.inj h]
      exact List.mem_cons_self
    · exact List.mem_cons_of_mem _ (Value.mem_of_get h)

/-- What a dictionary that has a document looks up has one too. -/
theorem encode_get {k : Key F} {v : PyVal F} {ms : Value F .members} {t : Tree F .value}
    (h : encode I (.dict ms) = .ok t) (hget : Value.get k ms = some v) :
    ∃ y : Tree F .value, encode I v = .ok y := by
  obtain ⟨ps, -, hps, -⟩ := encode_dict.1 h
  exact (encode_members_ok I ms).1 ⟨ps, hps⟩ _ (Value.mem_of_get hget)

theorem Value.get_perm {k : Key F} {ms ns : Value F .members} (h : ms.toList.Perm ns.toList)
    (hnd : (ms.toList.map Prod.fst).Nodup) : Value.get k ms = Value.get k ns := by
  have hnd' : (ns.toList.map Prod.fst).Nodup := (h.map _).nodup_iff.1 hnd
  refine Option.ext fun v => ?_
  rw [Value.get_iff hnd, Value.get_iff hnd', h.mem_iff]

theorem Value.get_map {k : Key F} (f : PyVal F → PyVal F) : ∀ {ms ns : Value F .members},
    ns.toList = (ms.toList.map fun q => (q.1, f q.2)) → Value.get k ns = (Value.get k ms).map f
  | .empty, .empty, _ => rfl
  | .item k' x ms, .item k'' y ns, h => by
    obtain ⟨hq, htail⟩ := List.cons.inj h
    obtain ⟨rfl, rfl⟩ := Prod.mk.inj hq
    rw [Value.get, Value.get]
    split_ifs
    · rfl
    · exact Value.get_map f htail

/-- What is looked up in a dictionary that was written and read. -/
theorem Value.get_sorted {k : Key F} {ms : Value F .members}
    (hnd : (ms.toList.map Prod.fst).Nodup) :
    Value.get k (.ofList (sortByKey ms.sortKeys.toList)) = (Value.get k ms).map Value.sortKeys := by
  have hperm : (Value.ofList (sortByKey ms.sortKeys.toList)).toList.Perm ms.sortKeys.toList := by
    rw [Value.toList_ofList]
    exact sortByKey_perm _
  have hkeys : (ms.sortKeys.toList.map Prod.fst).Nodup := by
    rw [Value.toList_sortKeys, List.map_map]
    exact hnd
  rw [Value.get_perm hperm ((hperm.map _).nodup_iff.2 hkeys)]
  exact Value.get_map Value.sortKeys (Value.toList_sortKeys ms)

theorem Value.get_set {k k' : Key F} {x : PyVal F} : ∀ {d : Value F .members},
    Value.get k' (Value.set k x d) = if k' = k then some x else Value.get k' d
  | .empty => by
    show Value.get k' (.item k x .empty) = _
    rw [Value.get]
    exact if_congr eq_comm rfl rfl
  | .item k'' y d => by
    rw [Value.set]
    split_ifs with h₁ h₂ h₂
    · rw [Value.get, if_pos (h₁.trans h₂.symm)]
    · rw [Value.get, if_neg (h₁ ▸ Ne.symm h₂), Value.get, if_neg (h₁ ▸ Ne.symm h₂)]
    · rw [Value.get, if_neg (h₂ ▸ h₁), Value.get_set, if_pos h₂]
    · rw [Value.get, Value.get, Value.get_set, if_neg h₂]

end

/-! ## Atoms -/

/-- A value that is no container. -/
def Value.IsAtom : PyVal F → Prop
  | .list _ | .tuple _ | .dict _ => False
  | _ => True

/-- Sorting turns nothing into an atom, and leaves atoms as they are. -/
theorem Value.sortKeys_eq_atom {v w : PyVal F} (hw : w.IsAtom) : v.sortKeys = w ↔ v = w := by
  cases v with
  | list | tuple | dict =>
    constructor
    · rintro rfl
      cases hw
    · rintro rfl
      cases hw
  | _ => exact Iff.rfl

end Json
