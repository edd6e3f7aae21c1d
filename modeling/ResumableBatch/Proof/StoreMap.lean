/-
  The store as a map: on one directory, whatever opens and commits come one after
  the other, a store answers as a map from keys to hashes and results does
  (`store_refines_map`).
-/
import ResumableBatch.Proof.Checkpoints

namespace ResumableBatch

open Text Json

variable {F R E : Type}

/-! ## The map -/

/-- What a cache is to say of a key. -/
inductive Cell (R : Type) where
  | absent
  | stored (hash : Str) (r : R)
  /-- the last commit of the key failed, or its result does not survive the file -/
  | unknown

/-- What changes a cache. -/
inductive CacheOp (R : Type) where
  | committed (key hash : Str) (r : R)
  | failed (key : Str)

/-- The map after one operation. -/
def CacheOp.apply (m : Str → Cell R) : CacheOp R → Str → Cell R
  | .committed key hash r => Function.update m key (.stored hash r)
  | .failed key => Function.update m key .unknown

/-- The map that a cache stands for. -/
def cacheOf (ops : List (CacheOp R)) : Str → Cell R := ops.foldl CacheOp.apply fun _ => .absent

theorem cacheOf_snoc (ops : List (CacheOp R)) (op : CacheOp R) :
    cacheOf (ops ++ [op]) = op.apply (cacheOf ops) := by
  rw [cacheOf, List.foldl_append]
  rfl

/-- The answer of `has`. -/
def Cell.has (key hash : Str) : Cell R → Except (Exc F E) Bool → Prop
  | .absent, a => a = .ok false
  | .stored h _, a => a = if hash = h then .ok true
      else .error (.contentKeyCollision .manifest key (.str h) hash)
  | .unknown, _ => True

/-- The answer of `load`. -/
def Cell.load (key hash : Str) : Cell R → Except (Exc F E) R → Prop
  | .absent, a => a = .error (.uncommitted key)
  | .stored h r, a => a = if hash = h then .ok r
      else .error (.contentKeyCollision .manifest key (.str h) hash)
  | .unknown, _ => True

/-- Whether the key is among `cached_keys`. -/
def Cell.cached : Cell R → Prop → Prop
  | .absent, p => ¬ p
  | .stored .., p => p
  | .unknown, _ => True

/-! ## The store -/

section
variable [DecidableEq F] (S : Setup F R E) (fingerprint : Str)

/-- A directory that starts without a manifest, the stores opened on it and their
    commits, in any order; `live` tells whether the store is an instance that can be
    used. -/
inductive Serves : Prop → List (CacheOp R) → Store F → Prop
  | new {s s' : Store F} {held : Bool} {draw : Draw F} {fates : List (Fate F E)} :
      s.disk.lookup manifestPath = none →
      (openStore S fingerprint held draw).run s fates = (.returned, s') → Serves True [] s'
  /-- a store is opened instead, whether the one before is still alive or not -/
  | opened {live ops} {st s s' : Store F} {held : Bool} {draw : Draw F} {fates : List (Fate F E)}
      {ended : Ended (Exc F E)} : Serves live ops st → s.disk = st.disk →
      (openStore S fingerprint held draw).run s fates = (ended, s') →
      Serves (ended = .returned) ops s'
  | committed {live ops} {s s' : Store F} {key hash : Str} {result r : R} {draw : Draw F}
      {fates : List (Fate F E)} : Serves live ops s → live → S.codec.Stable result r →
      (commit S fingerprint key hash result draw).run s fates = (.returned, s') →
      Serves True (ops ++ [.committed key hash r]) s'
  | failed {live ops} {s s' : Store F} {key hash : Str} {result : R} {draw : Draw F}
      {fates : List (Fate F E)} {ended : Ended (Exc F E)} : Serves live ops s → live →
      (commit S fingerprint key hash result draw).run s fates = (ended, s') →
      (ended = .returned → ∀ r, ¬ S.codec.Stable result r) →
      Serves (ended ≠ .died) (ops ++ [.failed key]) s'

variable {S fingerprint} {s s' : Store F} {key hash : Str}

/-- What the directory says of a key. -/
def DiskSays (S : Setup F R E) (fingerprint : Str) (d : Disk) (key : Str) : Cell R → Prop
  | .absent => ∀ D, readEntries S fingerprint (d.lookup manifestPath) = some D → D.lookup key = none
  | .stored hash r => OnDisk S fingerprint d key hash r
  | .unknown => True

/-- What an instance says of a key. -/
def StoreSays (S : Setup F R E) (fingerprint : Str) (s : Store F) (key : Str) : Cell R → Prop
  | .absent => s.entries.lookup key = none
  | .stored hash r => load S fingerprint s key hash = .ok r
  | .unknown => True

/-- The directory, and the instance on it, stand for the map. -/
structure Mirrors (S : Setup F R E) (fingerprint : Str) (live : Prop) (m : Str → Cell R)
    (s : Store F) : Prop where
  disk : ∀ key, ¬ tmpLike key → DiskSays S fingerprint s.disk key (m key)
  entries : live → EntriesOk s.entries
  store : live → ∀ key, ¬ tmpLike key → StoreSays S fingerprint s key (m key)

/-- A manifest that was written has the keys of its entries. -/
theorem lookup_written {entries D : Entries F} {b : ByteArray} (he : EntriesOk entries)
    (hb : manifestBytes S fingerprint entries = .ok b)
    (hD : readEntries S fingerprint (some (.file b)) = some D) (hkey : entries.lookup key = none) :
    D.lookup key = none := by
  obtain ⟨D', hD', hlookup⟩ := readEntries_written (readEntries_ok hD).1 he hb
  obtain rfl := Option.some.inj (hD.symm.trans hD')
  rw [hlookup, hkey]
  rfl

variable {m : Str → Cell R} {live : Prop} {ended : Ended (Exc F E)}

/-- **An open leaves the map as it is.** -/
theorem Mirrors.opened (hA : S.codec.Apart) {st : Store F} (h : Mirrors S fingerprint live m st)
    (hd : s.disk = st.disk) (hopen : Opened S fingerprint s s' ended) :
    Mirrors S fingerprint (ended = .returned) m s' := by
  have htells : ∀ key, ¬ tmpLike key → DiskSays S fingerprint s'.disk key (m key) ∧
      (ended = .returned → StoreSays S fingerprint s' key (m key)) := by
    intro key hkey
    have hdisk := h.disk key hkey
    rw [← hd] at hdisk
    cases hm : m key with
    | unknown => exact ⟨trivial, fun _ => trivial⟩
    | stored hash r =>
      rw [hm] at hdisk
      exact OnDisk.after_open hA hdisk hkey rfl hopen
    | absent =>
      rw [hm] at hdisk
      cases hopen with
      | loaded D hD he hsame =>
        refine ⟨fun D' hD' => hdisk D' ?_, fun hret => ?_⟩
        · rwa [hsame _ isTmp_manifest] at hD'
        · rw [StoreSays, he hret]
          exact hdisk D hD
      | wiped hnone hw hret =>
        refine ⟨fun D hD => ?_, fun hr => ?_⟩
        · rcases hw.manifest with he | he | ⟨b, hb, he⟩
          · rw [he, hnone] at hD
            cases hD
          · rw [he] at hD
            cases hD
          · rw [he] at hD
            exact lookup_written .empty hb hD rfl
        · rw [StoreSays, (hret hr).1]
          rfl
  refine ⟨fun key hkey => (htells key hkey).1, ?_, fun hret key hkey => (htells key hkey).2 hret⟩
  rintro rfl
  exact hopen.entriesOk

/-- **A commit leaves the other keys as they are**, however it ends. -/
theorem Mirrors.commit_ne (hC : S.codec.ReadsBack) (hs : Mirrors S fingerprint live m s)
    (hlive : live)
    {k payloadHash : Str} {result : R} {draw : Draw F}
    (hcommit : Committed S fingerprint k payloadHash result draw s s' ended) (hne : key ≠ k)
    (hkey : ¬ tmpLike key) : DiskSays S fingerprint s'.disk key (m key) ∧
      StoreSays S fingerprint s' key (m key) := by
  have hdisk := hs.disk key hkey
  have hstore := hs.store hlive key hkey
  have he := hs.entries hlive
  cases hm : m key with
  | unknown => exact ⟨trivial, trivial⟩
  | stored hash r =>
    rw [hm] at hdisk hstore
    have hv : Vouched S fingerprint key hash r s := ⟨he, hstore, hdisk⟩
    exact ⟨(hv.commit_ne hC hcommit hne).disk, (hv.commit_ne hC hcommit hne).loaded⟩
  | absent =>
    rw [hm] at hdisk hstore
    refine ⟨fun D hD => ?_, (hcommit.lookup_ne hne).trans hstore⟩
    rcases hcommit.manifest hC.apart with ⟨-, hman⟩ | ⟨pub, b, hb, hman⟩
    · exact hdisk D (hman ▸ hD)
    · rw [hman] at hD
      refine lookup_written (he.insert (pub.entryOk hC).2) hb hD ?_
      rw [AList.lookup_insert_ne hne]
      exact hstore

theorem Mirrors.committed (hC : S.codec.ReadsBack) (hs : Mirrors S fingerprint live m s)
    (hlive : live)
    {k hash : Str} {result r : R} {draw : Draw F} {fates : List (Fate F E)}
    (hstable : S.codec.Stable result r)
    (h : (commit S fingerprint k hash result draw).run s fates = (.returned, s')) :
    Mirrors S fingerprint True ((CacheOp.committed k hash r).apply m) s' := by
  have hcommit := commit_cases h
  have hv := Vouched.of_commit hC (hs.entries hlive) hstable h
  have htells : ∀ key, ¬ tmpLike key →
      DiskSays S fingerprint s'.disk key ((CacheOp.committed k hash r).apply m key) ∧
        StoreSays S fingerprint s' key ((CacheOp.committed k hash r).apply m key) := by
    intro key hkey
    by_cases hne : key = k
    · subst hne
      rw [CacheOp.apply, Function.update_self]
      exact ⟨hv.disk, hv.loaded⟩
    · rw [CacheOp.apply, Function.update_of_ne hne]
      exact hs.commit_ne hC hlive hcommit hne hkey
  exact ⟨fun key hkey => (htells key hkey).1, fun _ => hv.entries,
    fun _ key hkey => (htells key hkey).2⟩

theorem Mirrors.failed (hC : S.codec.ReadsBack) (hs : Mirrors S fingerprint live m s) (hlive : live)
    {k payloadHash : Str} {result : R} {draw : Draw F} (live' : Prop)
    (hcommit : Committed S fingerprint k payloadHash result draw s s' ended) :
    Mirrors S fingerprint live' ((CacheOp.failed k).apply m) s' := by
  have htells : ∀ key, ¬ tmpLike key →
      DiskSays S fingerprint s'.disk key ((CacheOp.failed k).apply m key) ∧
        StoreSays S fingerprint s' key ((CacheOp.failed k).apply m key) := by
    intro key hkey
    by_cases hne : key = k
    · subst hne
      rw [CacheOp.apply, Function.update_self]
      exact ⟨trivial, trivial⟩
    · rw [CacheOp.apply, Function.update_of_ne hne]
      exact hs.commit_ne hC hlive hcommit hne hkey
  exact ⟨fun key hkey => (htells key hkey).1, fun _ => hcommit.entriesOk hC (hs.entries hlive),
    fun _ key hkey => (htells key hkey).2⟩

/-- In every history the store stands for its map. -/
theorem Serves.stands (hC : S.codec.ReadsBack) {ops : List (CacheOp R)}
    (h : Serves S fingerprint live ops s) : Mirrors S fingerprint live (cacheOf ops) s := by
  induction h with
  | @new st st' _ _ _ hnone hopen =>
    have hstart : Mirrors S fingerprint False (fun _ => .absent) st :=
      ⟨fun _ _ D hD => absurd (hnone ▸ hD) (by simp [readEntries, readManifest]),
        False.elim, False.elim⟩
    have := hstart.opened hC.apart rfl (open_cases hopen).1
    exact ⟨this.disk, fun _ => this.entries rfl, fun _ => this.store rfl⟩
  | opened _ hd hopen ih => exact ih.opened hC.apart hd (open_cases hopen).1
  | committed _ hlive hstable hcommit ih =>
    rw [cacheOf_snoc]
    exact ih.committed hC hlive hstable hcommit
  | failed _ hlive hcommit _ ih =>
    rw [cacheOf_snoc]
    exact ih.failed hC hlive _ (commit_cases hcommit)

/-! ## The answers -/

theorem StoreSays.answers (hC : S.codec.ReadsBack) {cell : Cell R}
    (h : StoreSays S fingerprint s key cell) : cell.cached (key ∈ cachedKeys s) ∧
      ∀ hash, cell.has key hash (has S fingerprint s key hash) ∧
        cell.load key hash (load S fingerprint s key hash) := by
  have hcached : key ∈ cachedKeys s ↔ s.entries.lookup key ≠ none := by
    rw [cachedKeys, List.mem_toFinset, ← AList.mem_keys, ← AList.lookup_isSome,
      Option.isSome_iff_ne_none]
  cases cell with
  | unknown => exact ⟨trivial, fun _ => ⟨trivial, trivial⟩⟩
  | absent =>
    refine ⟨fun hm => hcached.1 hm h, fun hash => ?_⟩
    have hnone : s.entries.lookup key = none := h
    have hhas : has S fingerprint s key hash = .ok false := by rw [ResumableBatch.has, hnone]
    have hload : load S fingerprint s key hash = .error (.uncommitted key) := by
      rw [ResumableBatch.load, hnone]
    exact ⟨hhas, hload⟩
  | stored stored r =>
    have hload : load S fingerprint s key stored = .ok r := h
    obtain ⟨info, entry, hit⟩ := load_ok.1 hload
    refine ⟨hcached.2 (by rw [hit.entry_at]; simp), fun hash => ?_⟩
    by_cases hh : hash = stored
    · subst hh
      simp only [Cell.has, Cell.load, if_true]
      exact ⟨(has_true hC.missing).2 ⟨r, hload⟩, hload⟩
    · have hc : entryCollides entry hash = true := by
        rw [entryCollides, hit.entry_hash]
        simpa using fun he => hh he.symm
      simp only [Cell.has, Cell.load, if_neg hh]
      rw [has_entry hit.entry_at, load_entry hit.entry_at, hc, hit.entry_hash]
      exact ⟨rfl, rfl⟩

end

/-- **The store refines a map.**  Whatever opens and commits came before, and however
    they ended, `cached_keys`, `has` and `load` answer as the map of the commits does on
    each key whose last commit returned, with a result that survives the file, and on each
    that was never committed. -/
theorem store_refines_map [DecidableEq F] {S : Setup F R E} {fingerprint : Str}
    (hC : S.codec.ReadsBack) {live : Prop} {ops : List (CacheOp R)} {s : Store F}
    (h : Serves S fingerprint live ops s) (hlive : live) {key : Str} (hkey : ¬ tmpLike key) :
    (cacheOf ops key).cached (key ∈ cachedKeys s) ∧
      ∀ hash, (cacheOf ops key).has key hash (has S fingerprint s key hash) ∧
        (cacheOf ops key).load key hash (load S fingerprint s key hash) :=
  StoreSays.answers hC ((h.stands hC).store hlive key hkey)

theorem store_refines_map_sample : ∃ s s' : Store Half,
    (commit (plainSetup none) (lit "f") (lit "a") (lit "h") plainRecords plainDraw).run s [] =
      (.returned, s') ∧
    load (plainSetup none) (lit "f") s' (lit "a") (lit "h") = .ok plainRecords ∧
    has (plainSetup none) (lit "f") s' (lit "b") (lit "h") = .ok false := by
  have hC := jsonl_readsBack (E := Bool) Half.interp none
  obtain ⟨s, s', hopen, hcommit⟩ := plain_committed
  have hstable : (jsonlCodec (E := Bool) Half.interp none).Stable plainRecords plainRecords :=
    jsonl_stable plainRecords_json plainRecords_depth fun _ => rfl
  have hserves := Serves.committed (.new rfl hopen) trivial hstable hcommit
  have ha : cacheOf [CacheOp.committed (lit "a") (lit "h") plainRecords] (lit "a") =
      .stored (lit "h") plainRecords := rfl
  have hb : cacheOf [CacheOp.committed (lit "a") (lit "h") plainRecords] (lit "b") =
      .absent := rfl
  have hanswers := fun key (hkey : ¬ tmpLike key) => store_refines_map hC hserves trivial hkey
  have hfound := ((hanswers (lit "a") (by decide)).2 (lit "h")).2
  have hmissed := ((hanswers (lit "b") (by decide)).2 (lit "h")).1
  refine ⟨s, s', hcommit, ?_, ?_⟩
  · rw [List.nil_append, ha] at hfound
    exact hfound
  · rw [List.nil_append, hb] at hmissed
    exact hmissed

end ResumableBatch
