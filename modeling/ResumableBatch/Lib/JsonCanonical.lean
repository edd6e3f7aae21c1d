/-
  The canonical text of a value: `dumps` with sorted keys.

  * a value with string keys encodes to a document with sorted members
    (`encode_sorted`), and such a document is the encoding of what it is read as
    (`encode_toValue`);
  * a text read from `dumps` yields the value up to the order of dictionaries
    (`toValue_encode`), so that equal texts come from equal values;
  * the text is one line, and has an encoding unless a string of the value has a
    surrogate.
-/
import ResumableBatch.Lib.JsonRoundTrip

namespace Json

open Text

variable {F : Type} (I : Interp F)

/-! ## What `encode` makes -/

theorem Tree.depth_ofList {n : ℕ} {qs : List (Str × Tree F .value)} :
    (Tree.ofList qs).depth ≤ n ↔ ∀ q ∈ qs, q.2.depth ≤ n := by
  induction qs with
  | nil => simp [Tree.ofList, Tree.depth]
  | cons q qs ih => rw [Tree.ofList, Tree.depth, max_le_iff, List.forall_mem_cons, ih]

theorem Tree.fine_ofList {ascii : Bool} {qs : List (Str × Tree F .value)}
    (h : ∀ q ∈ qs, (ascii → NoPair q.1) ∧ q.2.Fine I ascii) : (Tree.ofList qs).Fine I ascii := by
  induction qs with
  | nil => trivial
  | cons q qs ih =>
    rw [List.forall_mem_cons] at h
    exact ⟨h.1.1, h.1.2, ih h.2⟩

/-- A property of documents, of what `encode` makes of a piece of a value. -/
def Encoded.All (p : ∀ {sh : Shape}, Tree F sh → Prop) : {sh : Shape} → Encoded F sh → Prop
  | .value, (t : Tree F .value) => p t
  | .items, (t : Tree F .items) => p t
  | .members, (ps : List (Key F × Tree F .value)) => ∀ x ∈ ps, p x.2

section
variable {I}

theorem encode_list {xs : Value F .items} {t : Tree F .value} :
    encode I (.list xs) = .ok t ↔ ∃ ts : Tree F .items, encode I xs = .ok ts ∧ .array ts = t := by
  simp only [encode, Except.bind_ok, Except.ok.injEq]

theorem encode_tuple {xs : Value F .items} {t : Tree F .value} :
    encode I (.tuple xs) = .ok t ↔ ∃ ts : Tree F .items, encode I xs = .ok ts ∧ .array ts = t := by
  simp only [encode, Except.bind_ok, Except.ok.injEq]

theorem encode_cons {x : PyVal F} {xs : Value F .items} {t : Tree F .items} :
    encode I (.cons x xs) = .ok t ↔ ∃ y : Tree F .value, encode I x = .ok y ∧
      ∃ ys : Tree F .items, encode I xs = .ok ys ∧ .cons y ys = t := by
  simp only [encode, Except.bind_ok, Except.ok.injEq]

theorem encode_item {k : Key F} {x : PyVal F} {ms : Value F .members}
    {ps : List (Key F × Tree F .value)} :
    encode I (.item k x ms) = .ok ps ↔ ∃ y : Tree F .value, encode I x = .ok y ∧
      ∃ qs : List (Key F × Tree F .value), encode I ms = .ok qs ∧ (k, y) :: qs = ps := by
  simp only [encode, Except.bind_ok, Except.ok.injEq]

theorem encode_int {n : ℤ} {t : Tree F .value} :
    encode I (.int n) = .ok t ↔ (natText n.natAbs).length ≤ I.maxDigits ∧ .int n = t := by
  simp only [encode, Except.bind_ok, Except.ok.injEq, intRepr]
  split_ifs with h
  · simp [not_le.2 h]
  · simp [not_lt.1 h]

/-- A dictionary: its items are sorted, and the keys turned into strings. -/
theorem encode_dict {ms : Value F .members} {t : Tree F .value} :
    encode I (.dict ms) = .ok t ↔ ∃ ps ps' : List (Key F × Tree F .value), encode I ms = .ok ps ∧
      sortItems I ps = .ok ps' ∧ ∃ qs, List.Forall₂
        (fun p q => keyText I p.1 = .ok q.1 ∧ p.2 = q.2) ps' qs ∧ .object (.ofList qs) = t := by
  simp only [encode, Except.bind_ok, Except.ok.injEq, Except.mapM_eq_ok]
  constructor
  · rintro ⟨ps, hps, ps', hps', qs, hqs, rfl⟩
    refine ⟨ps, ps', hps, hps', qs, hqs.imp ?_, rfl⟩
    rintro p q ⟨k, hk, rfl⟩
    exact ⟨hk, rfl⟩
  · rintro ⟨ps, ps', hps, hps', qs, hqs, rfl⟩
    refine ⟨ps, hps, ps', hps', qs, hqs.imp ?_, rfl⟩
    rintro ⟨k, x⟩ ⟨s, y⟩ ⟨hk, hx⟩
    exact ⟨s, hk, by rw [show x = y from hx]⟩

theorem sortItems_perm {ps ps' : List (Key F × Tree F .value)} (h : sortItems I ps = .ok ps') :
    ps'.Perm ps := by
  unfold sortItems at h
  split_ifs at h
  · cases h; rfl
  · cases h; exact List.perm_insertionSort _ _
  · cases h; exact I.sortNumbers_perm ps

/-- Strings are sorted. -/
theorem sortItems_str {ps : List (Key F × Tree F .value)} (h : ∀ p ∈ ps, p.1.isStr) :
    sortItems I ps = .ok (sortByKey ps) := by
  unfold sortItems
  split_ifs with h₁ h₂
  · match ps, h₁ with
    | [], _ => rfl
    | [p], _ => rfl
  · rfl
  · exact absurd (List.all_eq_true.2 h) h₂
  · exact absurd (List.all_eq_true.2 h) h₂

-- `{1: null, "a": null}`: numbers and strings cannot be compared
example : dumps Half.interp false (.dict (.item (.int 1) .none (.item (.str [97]) .none .empty))) =
    .error .typeError := by
  decide +kernel

end

/-- **A rule for what `encode` makes**: what holds of every document that is
    built from values with the property holds of the result. -/
theorem Encoded.all_of {p : ∀ {sh : Shape}, Tree F sh → Prop} (hnull : p (Tree.null (F := F)))
    (hbool : ∀ b, p (Tree.bool (F := F) b))
    (hint : ∀ n : ℤ, (natText n.natAbs).length ≤ I.maxDigits → p (Tree.int (F := F) n))
    (hfloat : ∀ x, p (Tree.float x)) (hstr : ∀ s, p (Tree.str (F := F) s))
    (harray : ∀ xs, p xs → p (Tree.array (F := F) xs))
    (hobject : ∀ qs : List (Str × Tree F .value), (∀ q ∈ qs, p q.2) → p (Tree.object (.ofList qs)))
    (hnil : p (Tree.nil (F := F)))
    (hcons : ∀ (x : Tree F .value) (xs : Tree F .items), p x → p xs → p (.cons x xs))
    {sh : Shape} {v : Value F sh} {t : Encoded F sh} (h : encode I v = .ok t) :
    Encoded.All p t := by
  induction v with
  | none => cases h; exact hnull
  | bool b => cases h; exact hbool b
  | int n =>
    obtain ⟨hn, rfl⟩ := encode_int.1 h
    exact hint n hn
  | float x => cases h; exact hfloat x
  | str s => cases h; exact hstr s
  | list xs ih =>
    obtain ⟨ts, hts, rfl⟩ := encode_list.1 h
    exact harray ts (ih hts)
  | tuple xs ih =>
    obtain ⟨ts, hts, rfl⟩ := encode_tuple.1 h
    exact harray ts (ih hts)
  | dict ms ih =>
    obtain ⟨ps, ps', hps, hps', qs, hqs, rfl⟩ := encode_dict.1 h
    refine hobject qs fun q hq => ?_
    obtain ⟨x, hx, hxq⟩ := hqs.mem_right hq
    rw [← hxq.2]
    exact ih hps x ((sortItems_perm hps').mem_iff.1 hx)
  | nil => cases h; exact hnil
  | cons x xs ihx ihxs =>
    obtain ⟨y, hy, ys, hys, rfl⟩ := encode_cons.1 h
    exact hcons y ys (ihx hy) (ihxs hys)
  | empty => cases h; simp [Encoded.All]
  | item k x ms ihx ihms =>
    obtain ⟨y, hy, qs, hqs, rfl⟩ := encode_item.1 h
    exact List.forall_mem_cons.2 ⟨ihx hy, ihms hqs⟩

/-- A value is nested as deep as the document that `encode` makes of it. -/
theorem encode_depth_le {n : ℕ} {sh : Shape} {v : Value F sh} {t : Encoded F sh}
    (h : encode I v = .ok t) : Encoded.All (fun t => t.depth ≤ n) t ↔ v.depth ≤ n := by
  induction v generalizing n with
  | list xs ih =>
    obtain ⟨ts, hts, rfl⟩ := encode_list.1 h
    show ts.depth + 1 ≤ n ↔ xs.depth + 1 ≤ n
    cases n with
    | zero => simp
    | succ n => rw [Nat.succ_le_succ_iff, Nat.succ_le_succ_iff]; exact ih hts
  | tuple xs ih =>
    obtain ⟨ts, hts, rfl⟩ := encode_tuple.1 h
    show ts.depth + 1 ≤ n ↔ xs.depth + 1 ≤ n
    cases n with
    | zero => simp
    | succ n => rw [Nat.succ_le_succ_iff, Nat.succ_le_succ_iff]; exact ih hts
  | dict ms ih =>
    obtain ⟨ps, ps', hps, hps', qs, hqs, rfl⟩ := encode_dict.1 h
    show (Tree.ofList qs).depth + 1 ≤ n ↔ ms.depth + 1 ≤ n
    cases n with
    | zero => simp
    | succ n =>
      rw [Nat.succ_le_succ_iff, Nat.succ_le_succ_iff, Tree.depth_ofList, ← ih hps]
      -- the members are those of the dictionary, in another order
      constructor
      · intro hall x hx
        obtain ⟨q, hq, hxq⟩ := hqs.mem_left ((sortItems_perm hps').mem_iff.2 hx)
        exact hxq.2 ▸ hall q hq
      · intro hall q hq
        obtain ⟨x, hx, hxq⟩ := hqs.mem_right hq
        exact hxq.2 ▸ hall x ((sortItems_perm hps').mem_iff.1 hx)
  | cons x xs ihx ihxs =>
    obtain ⟨y, hy, ys, hys, rfl⟩ := encode_cons.1 h
    show max y.depth ys.depth ≤ n ↔ max x.depth xs.depth ≤ n
    rw [max_le_iff, max_le_iff]
    exact and_congr (ihx hy) (ihxs hys)
  | item k x ms ihx ihms =>
    obtain ⟨y, hy, qs, hqs, rfl⟩ := encode_item.1 h
    show (∀ q ∈ (k, y) :: qs, q.2.depth ≤ n) ↔ max x.depth ms.depth ≤ n
    rw [List.forall_mem_cons, max_le_iff]
    exact and_congr (ihx hy) (ihms hqs)
  | int m =>
    obtain ⟨-, rfl⟩ := encode_int.1 h
    exact Iff.rfl
  | empty =>
    cases h
    simp [Encoded.All, Value.depth]
  | _ => cases h; exact Iff.rfl

theorem encode_fine {sh : Shape} {v : Value F sh} {t : Encoded F sh} (h : encode I v = .ok t) :
    Encoded.All (fun t => t.Fine I false) t := by
  refine Encoded.all_of I (p := fun t => t.Fine I false) trivial (fun _ => trivial) (fun _ h => h)
    (fun _ => trivial) (fun _ => nofun) (fun _ h => h) (fun qs hqs => ?_) trivial
    (fun _ _ hx hxs => ⟨hx, hxs⟩) h
  exact Tree.fine_ofList I fun q hq => ⟨nofun, hqs q hq⟩

/-- A text that `dumps` writes, and its document. -/
theorem dumps_ok {ascii : Bool} {v : PyVal F} {s : Str} (h : dumps I ascii v = .ok s) :
    ∃ t : Tree F .value, encode I v = .ok t ∧ s = render I ascii t ∧ t.Fine I false ∧
      t.depth ≤ I.scanDepth := by
  unfold dumps at h
  split_ifs at h with hd
  obtain ⟨t, ht, h⟩ := Except.bind_ok.1 h
  cases h
  exact ⟨t, ht, rfl, encode_fine I ht,
    (encode_depth_le I ht).2 ((not_lt.1 hd).trans I.depth_le)⟩

theorem dumps_of_encode {ascii : Bool} {v : PyVal F} {t : Tree F .value}
    (hd : v.depth ≤ I.encodeDepth)
    (ht : encode I v = .ok t) : dumps I ascii v = .ok (render I ascii t) := by
  rw [dumps, if_neg (not_lt.2 hd), ht]
  rfl

/-! ## String keys -/

/-- A JSON value: its dictionaries have distinct strings as keys, and its
    arrays are lists. -/
def Value.IsJson {sh : Shape} : Value F sh → Prop
  | .list xs => IsJson xs
  | .tuple _ => False
  | .dict ms => ((∀ p ∈ ms.toList, p.1.isStr) ∧ (ms.toList.map Prod.fst).Nodup) ∧ IsJson ms
  | .cons x xs => IsJson x ∧ IsJson xs
  | .item _ x ms => IsJson x ∧ IsJson ms
  | _ => True

/-- A document whose members stand in the order of their keys, no two of which
    are the same. -/
def Tree.Sorted {sh : Shape} : Tree F sh → Prop
  | .array xs => Sorted xs
  | .object ms => (ms.toList.map Prod.fst).Pairwise (· < ·) ∧ Sorted ms
  | .cons x xs => Sorted x ∧ Sorted xs
  | .member _ x ms => Sorted x ∧ Sorted ms
  | _ => True

/-- The value with its dictionaries in the order of their keys. -/
def Value.sortKeys {sh : Shape} : Value F sh → Value F sh
  | .list xs => .list (sortKeys xs)
  | .tuple xs => .tuple (sortKeys xs)
  | .dict ms => .dict (.ofList (sortByKey (sortKeys ms).toList))
  | .cons x xs => .cons (sortKeys x) (sortKeys xs)
  | .item k x ms => .item k (sortKeys x) (sortKeys ms)
  | v => v

theorem Tree.toList_ofList (qs : List (Str × Tree F .value)) : (Tree.ofList qs).toList = qs := by
  induction qs with
  | nil => rfl
  | cons q qs ih => rw [Tree.ofList, Tree.toList, ih]

theorem Value.toList_ofList (ps : List (Key F × PyVal F)) : (Value.ofList ps).toList = ps := by
  induction ps with
  | nil => rfl
  | cons p ps ih => rw [Value.ofList, Value.toList, ih]

theorem Tree.ofList_toList : ∀ ms : Tree F .members, Tree.ofList ms.toList = ms
  | .empty => rfl
  | .member k x ms => by rw [Tree.toList, Tree.ofList, Tree.ofList_toList ms]

theorem Value.ofList_toList : ∀ ms : Value F .members, Value.ofList ms.toList = ms
  | .empty => rfl
  | .item k x ms => by rw [Value.toList, Value.ofList, Value.ofList_toList ms]

/-- How deep a dictionary is nested inside. -/
theorem Value.depth_members {n : ℕ} (ms : Value F .members) :
    ms.depth ≤ n ↔ ∀ p ∈ ms.toList, p.2.depth ≤ n := by
  rw [← Value.ofList_toList ms, Value.toList_ofList]
  induction ms.toList with
  | nil => simp [Value.ofList, Value.depth]
  | cons p ps ih => rw [Value.ofList, Value.depth, max_le_iff, List.forall_mem_cons, ih]

theorem Tree.sorted_members : ∀ ms : Tree F .members, ms.Sorted ↔ ∀ p ∈ ms.toList, p.2.Sorted
  | .empty => by simp [Tree.Sorted, Tree.toList]
  | .member k x ms => by
    rw [Tree.toList, List.forall_mem_cons, ← Tree.sorted_members ms]
    rfl

theorem Value.isJson_members :
    ∀ ms : Value F .members, ms.IsJson ↔ ∀ p ∈ ms.toList, p.2.IsJson
  | .empty => by simp [Value.IsJson, Value.toList]
  | .item k x ms => by
    rw [Value.toList, List.forall_mem_cons, ← Value.isJson_members ms]
    rfl

theorem Key.str_asStr {k : Key F} (h : k.isStr) : .str k.asStr = k := by
  cases k <;> first | rfl | cases h

section
variable {α : Type} {ps : List (Key F × α)}

theorem sortByKey_perm (ps : List (Key F × α)) : (sortByKey ps).Perm ps :=
  List.perm_insertionSort _ ps

theorem sortByKey_pairwise (ps : List (Key F × α)) :
    ((sortByKey ps).map fun p => p.1.asStr).Pairwise (· ≤ ·) := by
  have htot : Std.Total fun a b : Key F × α => a.1.asStr ≤ b.1.asStr :=
    ⟨fun a b => le_total a.1.asStr b.1.asStr⟩
  have htrans : IsTrans (Key F × α) fun a b => a.1.asStr ≤ b.1.asStr :=
    ⟨fun _ _ _ => le_trans⟩
  exact List.pairwise_map.2 (List.pairwise_insertionSort _ ps)

/-- Distinct strings come out in strictly increasing order. -/
theorem sortByKey_strict (hs : ∀ p ∈ ps, p.1.isStr) (hnd : (ps.map Prod.fst).Nodup) :
    ((sortByKey ps).map fun p => p.1.asStr).Pairwise (· < ·) := by
  have hnd' : ((sortByKey ps).map fun p => p.1.asStr).Nodup := by
    rw [((sortByKey_perm ps).map _).nodup_iff]
    refine List.Nodup.of_map (Key.str (F := F)) ?_
    have heq : (ps.map fun p => p.1.asStr).map Key.str = ps.map Prod.fst := by
      rw [List.map_map]
      exact List.map_congr_left fun p hp => Key.str_asStr (hs p hp)
    rwa [heq]
  exact (sortByKey_pairwise ps).imp₂ (fun _ _ hle hne => lt_of_le_of_ne hle hne) hnd'

theorem sortByKey_of_sorted (h : (ps.map fun p => p.1.asStr).Pairwise (· < ·)) :
    sortByKey ps = ps :=
  List.Pairwise.insertionSort_eq ((List.pairwise_map.1 h).imp le_of_lt)

theorem sortByKey_map {β : Type} (f : α → β) (ps : List (Key F × α)) :
    sortByKey (ps.map fun p => (p.1, f p.2)) = (sortByKey ps).map fun p => (p.1, f p.2) :=
  (List.map_insertionSort _ _ (fun p : Key F × α => (p.1, f p.2)) _ fun _ _ _ _ => Iff.rfl).symm

end

/-- The members of an encoded dictionary have its keys. -/
theorem encode_keys : ∀ {ms : Value F .members} {ps : List (Key F × Tree F .value)},
    encode I ms = .ok ps → ps.map Prod.fst = ms.toList.map Prod.fst
  | .empty, _, h => by cases h; rfl
  | .item k x ms, _, h => by
    obtain ⟨y, -, qs, hqs, rfl⟩ := encode_item.1 h
    rw [List.map_cons, encode_keys hqs, Value.toList, List.map_cons]

theorem encode_isStr {ms : Value F .members} (hs : ∀ p ∈ ms.toList, p.1.isStr)
    {ps : List (Key F × Tree F .value)} (h : encode I ms = .ok ps) : ∀ p ∈ ps, p.1.isStr := by
  intro p hp
  have hmem : p.1 ∈ ms.toList.map Prod.fst := by
    rw [← encode_keys I h]
    exact List.mem_map_of_mem hp
  obtain ⟨q, hq, hqp⟩ := List.mem_map.1 hmem
  rw [← hqp]
  exact hs q hq

/-- A dictionary has a document if all its values have one. -/
theorem encode_members_ok : ∀ ms : Value F .members,
    (∃ ps : List (Key F × Tree F .value), encode I ms = .ok ps) ↔
      ∀ p ∈ ms.toList, ∃ y : Tree F .value, encode I p.2 = .ok y
  | .empty => by simp [encode, Value.toList]
  | .item k x ms => by
    rw [Value.toList, List.forall_mem_cons, ← encode_members_ok ms]
    constructor
    · rintro ⟨ps, hps⟩
      obtain ⟨y, hy, qs, hqs, -⟩ := encode_item.1 hps
      exact ⟨⟨y, hy⟩, qs, hqs⟩
    · rintro ⟨⟨y, hy⟩, qs, hqs⟩
      exact ⟨_, encode_item.2 ⟨y, hy, qs, hqs, rfl⟩⟩

/-- A dictionary whose keys are strings. -/
theorem encode_dict_str {ms : Value F .members} (hs : ∀ p ∈ ms.toList, p.1.isStr)
    {t : Tree F .value} : encode I (.dict ms) = .ok t ↔ ∃ ps : List (Key F × Tree F .value),
      encode I ms = .ok ps ∧
        .object (.ofList ((sortByKey ps).map fun p => (p.1.asStr, p.2))) = t := by
  have hkeys : ∀ {ps : List (Key F × Tree F .value)}, encode I ms = .ok ps →
      ∀ p ∈ ps, p.1.isStr := fun {_} => encode_isStr I hs
  have htext : ∀ {ps qs}, (∀ p ∈ ps, p.1.isStr) → (List.Forall₂ (fun (p : Key F × Tree F .value) q =>
      keyText I p.1 = .ok q.1 ∧ p.2 = q.2) ps qs ↔ (ps.map fun p => (p.1.asStr, p.2)) = qs) := by
    intro ps qs hps
    rw [← List.forall₂_eq_eq_eq, List.forall₂_map_left_iff]
    constructor
    · intro h
      refine List.forall₂_iff_zip.2 ⟨h.length_eq, fun {p q} hpq => ?_⟩
      obtain ⟨hk, hx⟩ := (List.forall₂_iff_zip.1 h).2 hpq
      have hstr := hps p (List.of_mem_zip hpq).1
      rw [← Key.str_asStr hstr] at hk
      exact Prod.ext (Except.ok.inj hk) hx
    · intro h
      refine List.forall₂_iff_zip.2 ⟨h.length_eq, fun {p q} hpq => ?_⟩
      have he := (List.forall₂_iff_zip.1 h).2 hpq
      have hstr := hps p (List.of_mem_zip hpq).1
      rw [← he, ← Key.str_asStr hstr]
      exact ⟨rfl, rfl⟩
  rw [encode_dict]
  constructor
  · rintro ⟨ps, ps', hps, hps', qs, hqs, rfl⟩
    rw [sortItems_str (hkeys hps)] at hps'
    cases hps'
    rw [htext fun p hp => hkeys hps p ((sortByKey_perm ps).mem_iff.1 hp)] at hqs
    exact ⟨ps, hps, by rw [hqs]⟩
  · rintro ⟨ps, hps, rfl⟩
    exact ⟨ps, _, hps, sortItems_str (hkeys hps), _,
      (htext fun p hp => hkeys hps p ((sortByKey_perm ps).mem_iff.1 hp)).2 rfl, rfl⟩

/-- Such a dictionary has a document exactly if its values have. -/
theorem encodes_dict {ms : Value F .members} (hs : ∀ p ∈ ms.toList, p.1.isStr) :
    (∃ t : Tree F .value, encode I (.dict ms) = .ok t) ↔
      ∀ p ∈ ms.toList, ∃ y : Tree F .value, encode I p.2 = .ok y := by
  rw [← encode_members_ok I ms]
  constructor
  · rintro ⟨t, ht⟩
    obtain ⟨ps, hps, -⟩ := (encode_dict_str I hs).1 ht
    exact ⟨ps, hps⟩
  · rintro ⟨ps, hps⟩
    exact ⟨_, (encode_dict_str I hs).2 ⟨ps, hps, rfl⟩⟩

/-- **The document of a JSON value is sorted.** -/
theorem encode_sorted {sh : Shape} {v : Value F sh} (hv : v.IsJson) {t : Encoded F sh}
    (h : encode I v = .ok t) : Encoded.All (fun t => t.Sorted) t := by
  induction v with
  | list xs ih =>
    obtain ⟨ts, hts, rfl⟩ := encode_list.1 h
    exact ih hv hts
  | tuple xs ih => exact hv.elim
  | dict ms ih =>
    obtain ⟨⟨hs, hnd⟩, hms⟩ := hv
    obtain ⟨ps, hps, rfl⟩ := (encode_dict_str I hs).1 h
    have hkeys := encode_keys I hps
    have hps' := encode_isStr I hs hps
    constructor
    · rw [Tree.toList_ofList, List.map_map]
      exact sortByKey_strict hps' (by rwa [hkeys])
    · rw [Tree.sorted_members, Tree.toList_ofList, List.forall_mem_map]
      exact fun p hp => ih hms hps p ((sortByKey_perm ps).mem_iff.1 hp)
  | cons x xs ihx ihxs =>
    obtain ⟨y, hy, ys, hys, rfl⟩ := encode_cons.1 h
    exact ⟨ihx hv.1 hy, ihxs hv.2 hys⟩
  | item k x ms ihx ihms =>
    obtain ⟨y, hy, qs, hqs, rfl⟩ := encode_item.1 h
    exact List.forall_mem_cons.2 ⟨ihx hv.1 hy, ihms hv.2 hqs⟩
  | int n =>
    obtain ⟨-, rfl⟩ := encode_int.1 h
    trivial
  | empty => cases h; simp [Encoded.All]
  | _ => cases h; trivial

/-! ## Reading back -/

section
variable [DecidableEq F]

theorem Value.mem_set {k : Key F} {x : PyVal F} :
    ∀ {d : Value F .members} {p : Key F × PyVal F}, p ∈ (Value.set k x d).toList →
      p = (k, x) ∨ p ∈ d.toList
  | .empty, p, h => Or.inl (List.mem_singleton.1 h)
  | .item k' y d, p, h => by
    unfold Value.set at h
    split_ifs at h with hk
    · rcases List.mem_cons.1 h with rfl | h
      · exact Or.inl (by rw [hk])
      · exact Or.inr (List.mem_cons_of_mem _ h)
    · rcases List.mem_cons.1 h with rfl | h
      · exact Or.inr List.mem_cons_self
      · exact (Value.mem_set h).imp_right (List.mem_cons_of_mem _)

theorem Value.keys_set (k : Key F) (x : PyVal F) : ∀ d : Value F .members,
    (Value.set k x d).toList.map Prod.fst =
      if k ∈ d.toList.map Prod.fst then d.toList.map Prod.fst else d.toList.map Prod.fst ++ [k]
  | .empty => rfl
  | .item k' y d => by
    unfold Value.set
    by_cases hk : k' = k
    · simp [Value.toList, hk]
    · have ih := Value.keys_set k x d
      simp only [hk, if_false, Value.toList, List.map_cons, ih, List.mem_cons, Ne.symm hk, false_or]
      split_ifs <;> rfl

theorem Value.nodup_set {k : Key F} {x : PyVal F} {d : Value F .members}
    (h : (d.toList.map Prod.fst).Nodup) : ((Value.set k x d).toList.map Prod.fst).Nodup := by
  rw [Value.keys_set]
  split_ifs with hk
  · exact h
  · exact List.nodup_append'.2 ⟨h, List.nodup_singleton k, by simpa using hk⟩

theorem Value.toList_set {k : Key F} {x : PyVal F} :
    ∀ {d : Value F .members}, k ∉ d.toList.map Prod.fst →
      (Value.set k x d).toList = d.toList ++ [(k, x)]
  | .empty, _ => rfl
  | .item k' y d, h => by
    rw [Value.toList, List.map_cons, List.mem_cons, not_or] at h
    rw [Value.set, if_neg (Ne.symm h.1), Value.toList, Value.toList_set h.2, Value.toList]
    rfl

/-- A dictionary has no items but the given ones, and no key twice. -/
theorem Value.dictOf_spec (ps : List (Key F × PyVal F)) :
    (∀ p ∈ (Value.dictOf ps).toList, p ∈ ps) ∧
      ((Value.dictOf ps).toList.map Prod.fst).Nodup := by
  unfold Value.dictOf
  induction ps using List.reverseRecOn with
  | nil => simp [Value.toList]
  | append_singleton ps p ih =>
    rw [List.foldl_append, List.foldl_cons, List.foldl_nil]
    refine ⟨fun q hq => ?_, Value.nodup_set ih.2⟩
    rcases Value.mem_set hq with rfl | hq
    · simp
    · exact List.mem_append_left _ (ih.1 q hq)

/-- Distinct keys are all kept. -/
theorem Value.toList_dictOf {ps : List (Key F × PyVal F)} (h : (ps.map Prod.fst).Nodup) :
    (Value.dictOf ps).toList = ps := by
  unfold Value.dictOf
  induction ps using List.reverseRecOn with
  | nil => rfl
  | append_singleton ps p ih =>
    rw [List.map_append, List.nodup_append'] at h
    have ih := ih h.1
    rw [List.foldl_append, List.foldl_cons, List.foldl_nil, Value.toList_set, ih]
    rw [ih]
    exact fun hp => h.2.2 hp (List.mem_singleton_self _)

theorem Tree.toList_toValue : ∀ ms : Tree F .members,
    ms.toValue.toList = ms.toList.map fun p => (.str p.1, p.2.toValue)
  | .empty => rfl
  | .member k x ms => by
    rw [Tree.toValue, Value.toList, Tree.toList_toValue ms, Tree.toList, List.map_cons]

/-- **What is read is a JSON value.** -/
theorem Tree.isJson_toValue {sh : Shape} (t : Tree F sh) : t.toValue.IsJson := by
  induction t with
  | array xs ih => exact ih
  | object ms ih =>
    obtain ⟨hmem, hnd⟩ := Value.dictOf_spec ms.toValue.toList
    refine ⟨⟨fun p hp => ?_, hnd⟩, (Value.isJson_members _).2 fun p hp => ?_⟩
    · have h := hmem p hp
      rw [Tree.toList_toValue] at h
      obtain ⟨q, -, rfl⟩ := List.mem_map.1 h
      rfl
    · exact (Value.isJson_members _).1 ih p (hmem p hp)
  | cons x xs ihx ihxs => exact ⟨ihx, ihxs⟩
  | member k x ms ihx ihms => exact ⟨ihx, ihms⟩
  | _ => trivial

/-- **What is read can be written again.** -/
theorem encode_toValue_ok {sh : Shape} {t : Tree F sh} (ht : t.Fine I false) :
    ∃ t', encode I t.toValue = .ok t' := by
  induction t with
  | int n => exact ⟨.int n, encode_int.2 ⟨ht, rfl⟩⟩
  | array xs ih =>
    obtain ⟨ts, hts⟩ := ih ht
    exact ⟨_, encode_list.2 ⟨ts, hts, rfl⟩⟩
  | object ms ih =>
    obtain ⟨⟨hs, -⟩, -⟩ := (Tree.object ms).isJson_toValue
    have hms := (encode_members_ok I _).1 (ih ht)
    have hok : ∃ ps : List (Key F × Tree F .value),
        encode I (Value.dictOf ms.toValue.toList) = .ok ps :=
      (encode_members_ok I _).2 fun p hp => hms p ((Value.dictOf_spec _).1 p hp)
    obtain ⟨ps, hps⟩ := hok
    exact ⟨_, (encode_dict_str I hs).2 ⟨ps, hps, rfl⟩⟩
  | cons x xs ihx ihxs =>
    obtain ⟨y, hy⟩ := ihx ht.1
    obtain ⟨ys, hys⟩ := ihxs ht.2
    exact ⟨_, encode_cons.2 ⟨y, hy, ys, hys, rfl⟩⟩
  | member k x ms ihx ihms =>
    obtain ⟨y, hy⟩ := ihx ht.2.1
    obtain ⟨qs, hqs⟩ := ihms ht.2.2
    exact ⟨_, encode_item.2 ⟨y, hy, qs, hqs, rfl⟩⟩
  | _ => exact ⟨_, rfl⟩

/-- What is read is nested no deeper than its document. -/
theorem Tree.depth_toValue {sh : Shape} (t : Tree F sh) : t.toValue.depth ≤ t.depth := by
  induction t with
  | array xs ih => exact Nat.succ_le_succ ih
  | object ms ih =>
    refine Nat.succ_le_succ ((Value.depth_members _).2 fun p hp => ?_)
    exact ((Value.depth_members _).1 ih) p ((Value.dictOf_spec _).1 p hp)
  | cons x xs ihx ihxs => exact max_le_max ihx ihxs
  | member k x ms ihx ihms => exact max_le_max ihx ihms
  | _ => exact le_rfl

/-- A document, seen as what `encode` makes. -/
def Tree.encoded {sh : Shape} : Tree F sh → Encoded F sh :=
  match sh with
  | .value => fun t => t
  | .items => fun t => t
  | .members => fun t => t.toList.map fun p => (.str p.1, p.2)

/-- **A sorted document is the document of what it is read as.** -/
theorem encode_toValue {sh : Shape} {t : Tree F sh} (ht : t.Fine I false) (hs : t.Sorted) :
    encode I t.toValue = .ok t.encoded := by
  induction t with
  | int n => exact encode_int.2 ⟨ht, rfl⟩
  | array xs ih => exact encode_list.2 ⟨_, ih ht hs, rfl⟩
  | object ms ih =>
    obtain ⟨hlt, hms⟩ := hs
    have hkeys : (ms.toValue.toList.map Prod.fst).Nodup := by
      rw [Tree.toList_toValue, List.map_map]
      have : ms.toList.map (Prod.fst ∘ fun p => ((.str p.1 : Key F), p.2.toValue)) =
          (ms.toList.map Prod.fst).map Key.str := by rw [List.map_map]; rfl
      rw [this]
      exact (hlt.imp ne_of_lt).map Key.str fun _ _ hne h => hne (Key.str.inj h)
    have hsame : Value.dictOf ms.toValue.toList = ms.toValue := by
      rw [← Value.ofList_toList (Value.dictOf _), Value.toList_dictOf hkeys, Value.ofList_toList]
    refine (encode_dict_str I (t := .object ms) (Tree.object ms).isJson_toValue.1.1).2
      ⟨ms.encoded, ?_, ?_⟩
    · rw [hsame]
      exact ih ht hms
    · rw [sortByKey_of_sorted]
      · rw [Tree.encoded, List.map_map]
        exact congrArg _ (Eq.trans (congrArg _ (List.map_id _)) (Tree.ofList_toList ms))
      · rw [Tree.encoded, List.map_map]
        exact hlt
  | cons x xs ihx ihxs => exact encode_cons.2 ⟨_, ihx ht.1 hs.1, _, ihxs ht.2 hs.2, rfl⟩
  | member k x ms ihx ihms =>
    exact encode_item.2 ⟨_, ihx ht.2.1 hs.1, _, ihms ht.2.2 hs.2, rfl⟩
  | _ => rfl

/-- A sorted document is nested as deep as what it is read as. -/
theorem Tree.Sorted.depth {t : Tree F .value} (ht : t.Fine I false) (hs : t.Sorted) :
    t.toValue.depth = t.depth :=
  le_antisymm t.depth_toValue ((encode_depth_le I (encode_toValue I ht hs)).2 le_rfl)

omit [DecidableEq F] in
/-- Sorting the keys does not change the nesting. -/
theorem Value.depth_sortKeys {sh : Shape} (v : Value F sh) : v.sortKeys.depth = v.depth := by
  induction v with
  | list xs ih => exact congrArg (· + 1) ih
  | tuple xs ih => exact congrArg (· + 1) ih
  | dict ms ih =>
    refine congrArg (· + 1) (Eq.trans ?_ ih)
    refine eq_of_forall_ge_iff fun n => ?_
    rw [Value.depth_members, Value.depth_members, Value.toList_ofList]
    exact forall_congr' fun p => imp_congr_left (List.perm_insertionSort _ _).mem_iff
  | cons x xs ihx ihxs => exact congrArg₂ max ihx ihxs
  | item k x ms ihx ihms => exact congrArg₂ max ihx ihms
  | _ => rfl

theorem Tree.toList_toValue_ofList (qs : List (Str × Tree F .value)) :
    (Tree.ofList qs).toValue.toList = qs.map fun q => (.str q.1, q.2.toValue) := by
  rw [Tree.toList_toValue, Tree.toList_ofList]

/-- What is read of a piece of a value that was encoded. -/
def Encoded.Reads {sh : Shape} (v : Value F sh) : Encoded F sh → Prop :=
  match sh with
  | .value => fun t : Tree F .value => t.toValue = v.sortKeys
  | .items => fun t : Tree F .items => t.toValue = v.sortKeys
  | .members => fun ps : List (Key F × Tree F .value) =>
    (ps.map fun p => (p.1, p.2.toValue)) = v.sortKeys.toList

/-- **What was written is read, up to the order of dictionaries.** -/
theorem toValue_encode {sh : Shape} {v : Value F sh} (hv : v.IsJson) {t : Encoded F sh}
    (h : encode I v = .ok t) : Encoded.Reads v t := by
  induction v with
  | list xs ih =>
    obtain ⟨ts, hts, rfl⟩ := encode_list.1 h
    exact congrArg Value.list (ih hv hts)
  | tuple xs ih => exact hv.elim
  | dict ms ih =>
    obtain ⟨⟨hs, hnd⟩, hms⟩ := hv
    obtain ⟨ps, hps, rfl⟩ := (encode_dict_str I hs).1 h
    have hkeys := encode_keys I hps
    have hps' := encode_isStr I hs hps
    -- the members that are read are the sorted items of the dictionary
    have hread : (Tree.ofList ((sortByKey ps).map fun p => (p.1.asStr, p.2))).toValue.toList =
        sortByKey ms.sortKeys.toList := by
      have ih : (ps.map fun p => (p.1, p.2.toValue)) = ms.sortKeys.toList := ih hms hps
      rw [Tree.toList_toValue_ofList, List.map_map, ← ih, sortByKey_map]
      refine List.map_congr_left fun p hp => ?_
      show (Key.str p.1.asStr, p.2.toValue) = _
      rw [Key.str_asStr (hps' p ((sortByKey_perm ps).mem_iff.1 hp))]
    show Value.dict (Value.dictOf (Tree.toValue _).toList) = Value.dict _
    rw [hread, ← Value.ofList_toList (Value.dictOf _), Value.toList_dictOf]
    rw [← hread, Tree.toList_toValue_ofList, List.map_map, List.map_map]
    refine List.Nodup.of_map Key.asStr ?_
    rw [List.map_map]
    exact (sortByKey_strict hps' (by rwa [hkeys])).imp ne_of_lt
  | cons x xs ihx ihxs =>
    obtain ⟨y, hy, ys, hys, rfl⟩ := encode_cons.1 h
    exact congrArg₂ Value.cons (ihx hv.1 hy) (ihxs hv.2 hys)
  | item k x ms ihx ihms =>
    obtain ⟨y, hy, qs, hqs, rfl⟩ := encode_item.1 h
    exact congrArg₂ List.cons (congrArg _ (ihx hv.1 hy)) (ihms hv.2 hqs)
  | int n =>
    obtain ⟨-, rfl⟩ := encode_int.1 h
    rfl
  | _ => cases h; rfl

/-- **`loads` undoes `dumps`.** -/
theorem loads_dumps {ascii : Bool} {v : PyVal F} {s : Str} (h : dumps I ascii v = .ok s)
    {t : Tree F .value} (ht : encode I v = .ok t) (hfine : t.Fine I ascii) :
    loads I s = .ok t.toValue := by
  obtain ⟨t', ht', rfl, -, hd⟩ := dumps_ok I h
  obtain rfl : t = t' := Except.ok.inj (ht.symm.trans ht')
  rw [loads, parse_render I hfine hd]
  rfl

theorem loads_dumps_json {v : PyVal F} {s : Str} (h : dumps I false v = .ok s)
    (hv : v.IsJson) : loads I s = .ok v.sortKeys := by
  obtain ⟨t, ht, -, hfine, -⟩ := dumps_ok I h
  rw [loads_dumps I h ht hfine]
  exact congrArg _ (toValue_encode I hv ht)

end

/-- Equal texts come from equal documents. -/
theorem dumps_inj {v v' : PyVal F} {s : Str} (h : dumps I false v = .ok s)
    (h' : dumps I false v' = .ok s) :
    ∃ t : Tree F .value, encode I v = .ok t ∧ encode I v' = .ok t := by
  obtain ⟨t, ht, hs, hfine, hd⟩ := dumps_ok I h
  obtain ⟨t', ht', hs', hfine', hd'⟩ := dumps_ok I h'
  rw [render_inj I hfine hd hfine' hd' (hs.symm.trans hs')] at ht
  exact ⟨t', ht, ht'⟩

/-- The value with the items of its dictionaries in another order. -/
inductive Value.Same : {sh : Shape} → Value F sh → Value F sh → Prop where
  | refl {sh : Shape} (v : Value F sh) : Same v v
  | list {xs ys : Value F .items} : Same xs ys → Same (.list xs) (.list ys)
  | tuple {xs ys : Value F .items} : Same xs ys → Same (.tuple xs) (.tuple ys)
  | dict {ms ns : Value F .members} {ps : List (Key F × PyVal F)} : Same ms ns →
      ps.Perm ns.toList → Same (.dict ms) (.dict (.ofList ps))
  | cons {x y : PyVal F} {xs ys : Value F .items} : Same x y → Same xs ys →
      Same (.cons x xs) (.cons y ys)
  | item {k : Key F} {x y : PyVal F} {ms ns : Value F .members} : Same x y → Same ms ns →
      Same (.item k x ms) (.item k y ns)

/-- Sorting the keys only changes the order of items. -/
theorem Value.same_sortKeys {sh : Shape} (v : Value F sh) : v.Same v.sortKeys := by
  induction v with
  | list xs ih => exact .list ih
  | tuple xs ih => exact .tuple ih
  | dict ms ih => exact .dict ih (sortByKey_perm _)
  | cons x xs ihx ihxs => exact .cons ihx ihxs
  | item k x ms ihx ihms => exact .item ihx ihms
  | _ => exact .refl _

/-! ## The text -/

theorem isDigit_bounds {c : Code} (h : isDigit c = true) : 48 ≤ c.val ∧ c.val ≤ 57 := by
  simp only [isDigit, decide_eq_true_eq] at h
  exact h

theorem IntPart.chars {s : Str} (h : IntPart s) : ∀ c ∈ s, 48 ≤ c.val ∧ c.val ≤ 57 := by
  rcases h with rfl | ⟨d, ds, rfl, h₁, h₂, hds⟩
  · intro c hc
    rw [List.mem_singleton.1 hc]
    decide
  · rw [List.all_eq_true] at hds
    rw [List.forall_mem_cons]
    exact ⟨⟨le_trans (by decide) (Fin.le_def.1 h₁), Fin.le_def.1 h₂⟩,
      fun c hc => isDigit_bounds (hds c hc)⟩

/-- The characters of a number are printable. -/
theorem FloatToken.chars {s : Str} (h : FloatToken s) : ∀ c ∈ s, 32 ≤ c.val ∧ c.val < 128 := by
  obtain ⟨sign, ip, fr, ex, rfl, hs, hi, hf, he, -⟩ := h.parts
  have hdigits : ∀ {ds : Str}, ds.all isDigit = true → ∀ c ∈ ds, 32 ≤ c.val ∧ c.val < 128 := by
    intro ds hds c hc
    have := isDigit_bounds (List.all_eq_true.1 hds c hc)
    omega
  have hsign : ∀ {sign : Str}, sign = [] ∨ sign = [43] ∨ sign = [45] →
      ∀ c ∈ sign, 32 ≤ c.val ∧ c.val < 128 := by
    rintro _ (rfl | rfl | rfl) c hc
    · cases hc
    · rw [List.mem_singleton.1 hc]; decide
    · rw [List.mem_singleton.1 hc]; decide
  intro c hc
  simp only [List.mem_append] at hc
  rcases hc with ((hc | hc) | hc) | hc
  · exact hsign (hs.imp_right Or.inr) c hc
  · have := hi.chars c hc
    omega
  · rcases hf with rfl | ⟨ds, rfl, -, hds⟩
    · cases hc
    · rcases List.mem_cons.1 hc with rfl | hc
      · decide
      · exact hdigits hds c hc
  · rcases he with rfl | ⟨e, sign, ds, rfl, he, hs, -, hds⟩
    · cases hc
    · rcases List.mem_append.1 hc with hc | hc
      · rcases List.mem_cons.1 hc with rfl | hc
        · rcases he with rfl | rfl <;> decide
        · exact hsign hs c hc
      · exact hdigits hds c hc

theorem intText_chars (n : ℤ) : ∀ c ∈ intText n, 32 ≤ c.val ∧ c.val < 128 := by
  obtain ⟨sign, hs, ht, -⟩ := intText_parts n
  intro c hc
  rw [ht] at hc
  rcases List.mem_append.1 hc with hc | hc
  · rcases hs with rfl | rfl
    · cases hc
    · rw [List.mem_singleton.1 hc]; decide
  · have := (natText_intPart n.natAbs).chars c hc
    omega

theorem lit_chars {s : String} (h : s.toList.all fun c => 32 ≤ c.toNat ∧ c.toNat < 128) :
    ∀ c ∈ lit s, 32 ≤ c.val ∧ c.val < 128 := by
  rw [List.all_eq_true] at h
  rw [lit, List.forall_mem_map]
  exact fun c hc => of_decide_eq_true (h c hc)

theorem floatstr_chars (x : F) : ∀ c ∈ I.floatstr x, 32 ≤ c.val ∧ c.val < 128 := by
  rcases I.floatstr_spec x with ⟨h, -⟩ | ⟨h, -⟩ | ⟨h, -⟩ | ⟨h, -⟩
  · rw [h]
    exact lit_chars rfl
  · rw [h]
    exact lit_chars rfl
  · rw [h]
    exact lit_chars rfl
  · exact h.chars

theorem unicodeEscape_chars (n : ℕ) : ∀ c ∈ unicodeEscape n, 32 ≤ c.val ∧ c.val < 128 := by
  have hex : ∀ m, 32 ≤ (hexDigit (m % 16)).val ∧ (hexDigit (m % 16)).val < 128 := fun m => by
    have : ∀ d : Fin 16, 32 ≤ (hexDigit d).val ∧ (hexDigit d).val < 128 := by decide
    exact this ⟨m % 16, Nat.mod_lt _ (by omega)⟩
  intro c hc
  simp only [unicodeEscape, List.mem_cons, List.not_mem_nil, or_false] at hc
  rcases hc with rfl | rfl | rfl | rfl | rfl | rfl
  · decide
  · decide
  all_goals exact hex _

/-- What stands for a code point in a string is the code point itself, or
    printable. -/
theorem escape_chars {ascii : Bool} {c d : Code} (h : d ∈ escape ascii c) :
    32 ≤ d.val ∧ (d.val < 128 ∨ d = c) := by
  have uni : ∀ {n}, d ∈ unicodeEscape n → 32 ≤ d.val ∧ (d.val < 128 ∨ d = c) := fun hd =>
    ⟨(unicodeEscape_chars _ d hd).1, Or.inl (unicodeEscape_chars _ d hd).2⟩
  by_cases hs : c = 34 ∨ c = 92 ∨ c = 10 ∨ c = 13 ∨ c = 9 ∨ c = 12 ∨ c = 8
  · have hpair : ∃ e : Code, escape ascii c = [92, e] ∧ 32 ≤ e.val ∧ e.val < 128 := by
      rcases hs with rfl | rfl | rfl | rfl | rfl | rfl | rfl <;>
        exact ⟨_, rfl, by decide, by decide⟩
    obtain ⟨e, he, h₁, h₂⟩ := hpair
    rw [he] at h
    rcases List.mem_cons.1 h with rfl | h
    · exact ⟨by decide, Or.inl (by decide)⟩
    · rw [List.mem_singleton.1 h]
      exact ⟨h₁, Or.inl h₂⟩
  · simp only [not_or] at hs
    obtain ⟨h34, h92, h10, h13, h9, h12, h8⟩ := hs
    simp only [escape, h34, h92, h10, h13, h9, h12, h8, if_false] at h
    split_ifs at h with h₁
    · exact uni h
    · exact uni h
    · exact (List.mem_append.1 h).elim uni uni
    · rw [List.mem_singleton.1 h]
      exact ⟨not_lt.1 h₁, Or.inr rfl⟩

/-- With `ensure_ascii` nothing else is left of a code point. -/
theorem escape_ascii {c d : Code} (h : d ∈ escape true c) : d.val < 128 := by
  rcases (escape_chars h).2 with hd | rfl
  · exact hd
  · by_contra hge
    rw [not_lt] at hge
    have hne : ∀ e : Code, e.val < 128 → d ≠ e := by
      rintro e he rfl
      omega
    have hlow : ¬ d < 32 := fun hlt => by
      have : d.val < 32 := hlt
      omega
    have hhigh : (127 : Code) ≤ d := by
      show 127 ≤ d.val
      omega
    simp only [escape, hne 34 (by decide), hne 92 (by decide), hne 10 (by decide),
      hne 13 (by decide), hne 9 (by decide), hne 12 (by decide), hne 8 (by decide), hlow, hhigh,
      if_false, and_self, if_true] at h
    have huni : ∀ {n}, d ∈ unicodeEscape n → d.val < 128 := fun hd => (unicodeEscape_chars _ d hd).2
    split_ifs at h
    · exact absurd (huni h) (not_lt.2 hge)
    · exact absurd ((List.mem_append.1 h).elim huni huni) (not_lt.2 hge)

/-- What holds of printable characters, and of what stands for code points in strings,
    holds of all characters in the text of a document. -/
theorem render_all {ascii : Bool} {p : Code → Prop} (hp : ∀ c : Code, 32 ≤ c.val → c.val < 128 → p c)
    (hescape : ∀ c d, d ∈ escape ascii c → p d) {sh : Shape} (t : Tree F sh) :
    ∀ c ∈ render I ascii t, p c := by
  have hlit : ∀ {s : String}, (s.toList.all fun c => 32 ≤ c.toNat ∧ c.toNat < 128) = true →
      ∀ c ∈ lit s, p c := fun h c hc => hp c (lit_chars h c hc).1 (lit_chars h c hc).2
  have hstr : ∀ s, ∀ c ∈ renderStr ascii s, p c := fun s c hc => by
    simp only [renderStr, List.mem_cons, List.mem_append, List.mem_flatMap, List.not_mem_nil,
      or_false] at hc
    rcases hc with rfl | ⟨d, -, hd⟩ | rfl
    · exact hp _ (by decide) (by decide)
    · exact hescape d c hd
    · exact hp _ (by decide) (by decide)
  induction t with
  | null => exact hlit rfl
  | bool b =>
    cases b with
    | true => exact hlit rfl
    | false => exact hlit rfl
  | int n => exact fun c hc => hp c (intText_chars n c hc).1 (intText_chars n c hc).2
  | float x => exact fun c hc => hp c (floatstr_chars I x c hc).1 (floatstr_chars I x c hc).2
  | str s => exact hstr s
  | array xs ih =>
    intro c hc
    simp only [render, List.mem_cons, List.mem_append, List.not_mem_nil, or_false] at hc
    rcases hc with rfl | hc | rfl
    · exact hp _ (by decide) (by decide)
    · exact ih c (List.mem_of_mem_tail hc)
    · exact hp _ (by decide) (by decide)
  | object ms ih =>
    intro c hc
    simp only [render, List.mem_cons, List.mem_append, List.not_mem_nil, or_false] at hc
    rcases hc with rfl | hc | rfl
    · exact hp _ (by decide) (by decide)
    · exact ih c (List.mem_of_mem_tail hc)
    · exact hp _ (by decide) (by decide)
  | cons x xs ihx ihxs =>
    intro c hc
    simp only [render, List.mem_cons, List.mem_append] at hc
    rcases hc with rfl | hc | hc
    · exact hp _ (by decide) (by decide)
    · exact ihx c hc
    · exact ihxs c hc
  | member k x ms ihx ihms =>
    intro c hc
    simp only [render, List.mem_cons, List.mem_append] at hc
    rcases hc with rfl | hc | rfl | hc | hc
    · exact hp _ (by decide) (by decide)
    · exact hstr k c hc
    · exact hp _ (by decide) (by decide)
    · exact ihx c hc
    · exact ihms c hc
  | _ => exact fun c hc => by cases hc

/-- **The text of a document has no control characters**, in particular it is one
    line. -/
theorem render_chars {ascii : Bool} {sh : Shape} (t : Tree F sh) :
    ∀ c ∈ render I ascii t, 32 ≤ c.val :=
  render_all I (fun _ h _ => h) (fun _ _ h => (escape_chars h).1) t

/-- With `ensure_ascii` the text of a document has an encoding. -/
theorem scalar_render_ascii {sh : Shape} (t : Tree F sh) : Text.Scalar (render I true t) := by
  have hascii := render_all I (p := fun c => c.val < 128) (fun _ _ h => h)
    (fun _ _ h => escape_ascii h) t
  exact fun c hc => Or.inl ((hascii c hc).trans (by decide))

/-! ## Surrogates -/

/-- All strings of a document have a property. -/
def Tree.Strings (p : Str → Prop) {sh : Shape} : Tree F sh → Prop
  | .str s => p s
  | .array xs => Strings p xs
  | .object ms => Strings p ms
  | .cons x xs => Strings p x ∧ Strings p xs
  | .member k x ms => p k ∧ Strings p x ∧ Strings p ms
  | _ => True

theorem scalar_of_lt {s : Str} (h : ∀ c ∈ s, 32 ≤ c.val ∧ c.val < 128) : Text.Scalar s :=
  fun c hc => Or.inl ((h c hc).2.trans (by decide))

theorem scalar_append {s t : Str} : Text.Scalar (s ++ t) ↔ Text.Scalar s ∧ Text.Scalar t :=
  List.forall_mem_append

theorem scalar_cons {c : Code} (hc : c.val.isValidChar) {s : Str} :
    Text.Scalar (c :: s) ↔ Text.Scalar s := by
  unfold Text.Scalar
  rw [List.forall_mem_cons]
  exact and_iff_right hc

theorem scalar_singleton {c : Code} (hc : c.val.isValidChar) : Text.Scalar [c] :=
  (scalar_cons hc).2 fun _ => nofun

theorem scalar_renderStr {s : Str} : Text.Scalar (renderStr false s) ↔ Text.Scalar s := by
  have key : Text.Scalar (s.flatMap (escape false)) ↔ Text.Scalar s := by
    constructor
    · intro h c hc
      by_cases hlt : c.val < 128
      · exact Or.inl (hlt.trans (by decide))
      · -- it stands for itself
        refine h c (List.mem_flatMap.2 ⟨c, hc, ?_⟩)
        have hne : ∀ x : Code, x.val < 128 → c ≠ x := by
          rintro x hx rfl
          exact hlt hx
        have h32 : ¬ c < 32 := fun h => hlt ((Fin.lt_def.1 h).trans (by decide))
        rw [escape, if_neg (hne _ (by decide)), if_neg (hne _ (by decide)),
          if_neg (hne _ (by decide)), if_neg (hne _ (by decide)), if_neg (hne _ (by decide)),
          if_neg (hne _ (by decide)), if_neg (hne _ (by decide)), if_neg h32, if_neg (by simp)]
        exact List.mem_singleton_self c
    · intro h d hd
      obtain ⟨c, hc, hd⟩ := List.mem_flatMap.1 hd
      rcases (escape_chars hd).2 with hlt | rfl
      · exact Or.inl (hlt.trans (by decide))
      · exact h d hc
  rw [renderStr, scalar_cons (by decide), scalar_append, key]
  exact and_iff_left (scalar_singleton (by decide))

theorem scalar_tail {s : Str} (h : ∀ c ∈ s.head?, c = 44) :
    Text.Scalar s.tail ↔ Text.Scalar s := by
  cases s with
  | nil => exact Iff.rfl
  | cons c s =>
    obtain rfl := h c rfl
    exact (scalar_cons (by decide)).symm

/-- **The canonical text has an encoding exactly if no string has a surrogate.** -/
theorem scalar_render {sh : Shape} (t : Tree F sh) :
    Text.Scalar (render I false t) ↔ t.Strings Text.Scalar := by
  have hitems : ∀ xs : Tree F .items, ∀ c ∈ (render I false xs).head?, c = 44 := by
    intro xs c hc
    cases xs <;> cases hc
    rfl
  have hmembers : ∀ ms : Tree F .members, ∀ c ∈ (render I false ms).head?, c = 44 := by
    intro ms c hc
    cases ms <;> cases hc
    rfl
  induction t with
  | null => exact iff_of_true (scalar_of_lt (lit_chars rfl)) trivial
  | bool b =>
    cases b with
    | true => exact iff_of_true (scalar_of_lt (lit_chars rfl)) trivial
    | false => exact iff_of_true (scalar_of_lt (lit_chars rfl)) trivial
  | int n => exact iff_of_true (scalar_of_lt (intText_chars n)) trivial
  | float x => exact iff_of_true (scalar_of_lt (floatstr_chars I x)) trivial
  | str s => exact scalar_renderStr
  | array xs ih =>
    rw [render, scalar_cons (by decide), scalar_append, scalar_tail (hitems xs)]
    exact (and_iff_left (scalar_singleton (by decide))).trans ih
  | object ms ih =>
    rw [render, scalar_cons (by decide), scalar_append, scalar_tail (hmembers ms)]
    exact (and_iff_left (scalar_singleton (by decide))).trans ih
  | cons x xs ihx ihxs =>
    rw [render, scalar_cons (by decide), scalar_append]
    exact and_congr ihx ihxs
  | member k x ms ihx ihms =>
    rw [render, scalar_cons (by decide), scalar_append, scalar_renderStr, scalar_cons (by decide),
      scalar_append]
    exact and_congr_right fun _ => and_congr ihx ihms
  | nil => exact iff_of_true (fun c hc => by cases hc) trivial
  | empty => exact iff_of_true (fun c hc => by cases hc) trivial

end Json
