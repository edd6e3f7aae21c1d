/-
  The schema fingerprint of a Parquet file: it tells schemas apart if no name of a
  column has a separator in it (`fingerprint_faithful_iff`).
-/
import ResumableBatch.Stores.Parquet

namespace ResumableBatch

open Text

/-! ## Kinds -/

/-- A type of one of the five categories. -/
def ArrowType.IsCoarse (arrowType : ArrowType) : Prop :=
  arrowType.isInteger ∨ arrowType.isFloating ∨ arrowType.isBoolean ∨ arrowType.isString ∨
    arrowType.isLargeString ∨ arrowType.isTemporal

/-- What `_arrow_kind` returns for the five categories. -/
def coarseKinds : List Str := [lit "int", lit "float", lit "bool", lit "str", lit "temporal"]

theorem arrowKind_coarse {arrowType : ArrowType} (h : arrowType.IsCoarse) :
    arrowKind arrowType ∈ coarseKinds := by
  unfold arrowKind
  split_ifs with h₁ h₂ h₃ h₄ h₅
  · simp [coarseKinds]
  · simp [coarseKinds]
  · simp [coarseKinds]
  · simp [coarseKinds]
  · simp [coarseKinds]
  · rw [not_or] at h₄
    rcases h with h | h | h | h | h | h
    · exact absurd h h₁
    · exact absurd h h₂
    · exact absurd h h₃
    · exact absurd h h₄.1
    · exact absurd h h₄.2
    · exact absurd h h₅

/-- A column: its name, and the kind of its type. -/
def IsColumn (p : Str × Str) : Prop := ∃ arrowType : ArrowType, arrowType.IsCoarse ∧
  p.2 = arrowKind arrowType

theorem IsColumn.kind {p : Str × Str} (h : IsColumn p) : colon ∉ p.2 ∧ semicolon ∉ p.2 := by
  have hall : ∀ k ∈ coarseKinds, colon ∉ k ∧ semicolon ∉ k := by decide
  obtain ⟨arrowType, ht, hp⟩ := h
  exact hall _ (hp ▸ arrowKind_coarse ht)

/-! ## Segments -/

/-- The segment of a column. -/
def segment (p : Str × Str) : Str := p.1 ++ colon :: p.2

theorem segment_inj {p q : Str × Str} (hp : IsColumn p) (hq : IsColumn q)
    (h : segment p = segment q) : p = q :=
  Prod.ext_iff.2 (append_cons_inj hp.kind.1 hq.kind.1 h)

theorem segment_name {p : Str × Str} (hp : colon ∉ p.1) :
    (segment p).takeWhile (· ≠ colon) = p.1 := by
  have hne : ∀ c ∈ p.1, decide (c ≠ colon) = true := by
    intro c hc
    refine decide_eq_true fun he => hp ?_
    rw [← he]
    exact hc
  rw [segment, List.takeWhile_append_of_pos hne]
  simp

theorem schemaFp_eq (pairs : List (Str × Str)) :
    schemaFpFromPairs pairs = [semicolon].intercalate (pairs.map segment) := rfl

/-- The segments are read off the fingerprint. -/
theorem splitOn_schemaFp {pairs : List (Str × Str)} (hne : pairs ≠ [])
    (hcols : ∀ p ∈ pairs, IsColumn p) (hnames : ∀ p ∈ pairs, semicolon ∉ p.1) :
    (schemaFpFromPairs pairs).splitOn semicolon = pairs.map segment := by
  rw [schemaFp_eq]
  refine List.splitOn_intercalate _ (fun s hs => ?_) (by simpa using hne)
  obtain ⟨p, hp, rfl⟩ := List.mem_map.1 hs
  intro hmem
  rcases List.mem_append.1 hmem with hmem | hmem
  · exact hnames p hp hmem
  · rcases List.mem_cons.1 hmem with hmem | hmem
    · exact absurd hmem (by decide)
    · exact (hcols p hp).kind.2 hmem

theorem schemaFp_nil {pairs : List (Str × Str)} : schemaFpFromPairs pairs = [] ↔ pairs = [] := by
  constructor
  · intro h
    cases pairs with
    | nil => rfl
    | cons p ps =>
      rw [schemaFp_eq, List.map_cons] at h
      cases ps with
      | nil => simp [segment] at h
      | cons q ps => simp [segment] at h
  · rintro rfl
    rfl

/-- **Schemas whose names have no `;` have different fingerprints.** -/
theorem schemaFp_inj {ps qs : List (Str × Str)} (hps : ∀ p ∈ ps, IsColumn p)
    (hqs : ∀ q ∈ qs, IsColumn q) (hp : ∀ p ∈ ps, semicolon ∉ p.1) (hq : ∀ q ∈ qs, semicolon ∉ q.1)
    (h : schemaFpFromPairs ps = schemaFpFromPairs qs) : ps = qs := by
  by_cases hnil : ps = []
  · subst hnil
    exact (schemaFp_nil.1 (h.symm.trans (schemaFp_nil.2 rfl))).symm
  · have hnil' : qs ≠ [] := fun he => hnil (schemaFp_nil.1 (h.trans (schemaFp_nil.2 he)))
    have hsplit := congrArg (fun s : Str => s.splitOn semicolon) h
    simp only [splitOn_schemaFp hnil hps hp, splitOn_schemaFp hnil' hqs hq] at hsplit
    exact List.eq_of_map_eq (fun p hp q hq he => segment_inj (hps p hp) (hqs q hq) he) hsplit

/-! ## Names -/

/-- A name that is read off a fingerprint has no separator. -/
theorem mem_namesOfFp {fp name : Str} (h : name ∈ namesOfFp fp) :
    colon ∉ name ∧ semicolon ∉ name := by
  rw [namesOfFp, List.mem_toFinset] at h
  obtain ⟨seg, hseg, rfl⟩ := List.mem_map.1 h
  constructor
  · intro hmem
    have hall := List.all_eq_true.1 (List.all_takeWhile (p := (· ≠ colon)) (l := seg)) _ hmem
    exact absurd rfl (of_decide_eq_true hall)
  · intro hmem
    exact not_mem_of_mem_splitOn (List.mem_filter.1 hseg).1 ((List.takeWhile_subset _) hmem)

theorem namesOfFp_schemaFp {pairs : List (Str × Str)} (hcols : ∀ p ∈ pairs, IsColumn p)
    (hnames : ∀ p ∈ pairs, colon ∉ p.1 ∧ semicolon ∉ p.1) :
    namesOfFp (schemaFpFromPairs pairs) = (pairs.map Prod.fst).toFinset := by
  by_cases hnil : pairs = []
  · subst hnil
    rfl
  · have hfilter : (pairs.map segment).filter (· ≠ []) = pairs.map segment := by
      refine List.filter_eq_self.2 fun s hs => ?_
      obtain ⟨p, -, rfl⟩ := List.mem_map.1 hs
      simp [segment]
    rw [namesOfFp, splitOn_schemaFp hnil hcols fun p hp => (hnames p hp).2, hfilter, List.map_map]
    refine congrArg _ (List.map_congr_left fun p hp => ?_)
    exact segment_name (hnames p hp).1

/-- **The fingerprint encodes its schema faithfully exactly if no name has a
    separator in it.** -/
theorem fingerprint_faithful_iff {ps qs : List (Str × Str)} (hps : ∀ p ∈ ps, IsColumn p)
    (hqs : ∀ q ∈ qs, IsColumn q) :
    ((schemaFpFromPairs ps = schemaFpFromPairs qs → ps = qs) ∧
      namesOfFp (schemaFpFromPairs ps) = (ps.map Prod.fst).toFinset ∧
      namesOfFp (schemaFpFromPairs qs) = (qs.map Prod.fst).toFinset) ↔
    ∀ p ∈ ps ++ qs, colon ∉ p.1 ∧ semicolon ∉ p.1 := by
  have hnames : ∀ {rs : List (Str × Str)},
      namesOfFp (schemaFpFromPairs rs) = (rs.map Prod.fst).toFinset →
        ∀ r ∈ rs, colon ∉ r.1 ∧ semicolon ∉ r.1 := by
    intro rs h r hr
    have hmem : r.1 ∈ namesOfFp (schemaFpFromPairs rs) := by
      rw [h, List.mem_toFinset]
      exact List.mem_map_of_mem hr
    exact mem_namesOfFp hmem
  rw [List.forall_mem_append]
  constructor
  · rintro ⟨-, hp, hq⟩
    exact ⟨hnames hp, hnames hq⟩
  · rintro ⟨hp, hq⟩
    refine ⟨?_, namesOfFp_schemaFp hps hp, namesOfFp_schemaFp hqs hq⟩
    exact schemaFp_inj hps hqs (fun p h => (hp p h).2) fun q h => (hq q h).2

theorem fingerprint_faithful_iff_sample :
    namesOfFp (schemaFpFromPairs [(lit "a", lit "int"), (lit "", lit "str")]) =
      {lit "a", lit ""} := by
  have hcols : ∀ p ∈ [(lit "a", lit "int"), (lit "", lit "str")], IsColumn p := by
    intro p hp
    rcases List.mem_cons.1 hp with rfl | hp
    · exact ⟨{ isInteger := true, text := [] }, Or.inl rfl, rfl⟩
    · rw [List.mem_singleton.1 hp]
      exact ⟨{ isString := true, text := [] }, Or.inr (Or.inr (Or.inr (Or.inl rfl))), rfl⟩
  have hnil : ∀ q ∈ ([] : List (Str × Str)), IsColumn q := nofun
  exact ((fingerprint_faithful_iff hcols hnil).2 (by decide)).2.1

/-- A column `a` of integers and a column `b` of strings have the fingerprint of one
    column `a:int;b` of strings. -/
theorem fingerprint_of_separators :
    schemaFpFromPairs [(lit "a", lit "int"), (lit "b", lit "str")] =
      schemaFpFromPairs [(lit "a:int;b", lit "str")] ∧
    namesOfFp (schemaFpFromPairs [(lit "a:int;b", lit "str")]) ≠ {lit "a:int;b"} := by
  decide

end ResumableBatch
