/-
  Processes that write to one directory under one lock: an entry is lost only to
  a store that was constructed before it was committed (`no_update_lost`).
-/
import ResumableBatch.Locking
import ResumableBatch.Proof.Live

namespace ResumableBatch

open Text Json

/-! ## The system -/

/-- Processes that share a lock file and a directory.  The stores are numbered in the
    order in which they were constructed. -/
structure System (ι F : Type) where
  disk : Disk
  lockFile : LockFile := {}
  party : ι → Party := fun _ => {}
  /-- the party that has constructed a store, and the map `_entries` of the store -/
  stores : List (ι × Entries F) := []

/-- What a party does. -/
inductive Act (ι F E : Type) where
  | acquire (i : ι)
  | tryLock (i : ι)
  | release (i : ι)
  | die (i : ι)
  | construct (i : ι) (n : ℕ)
  | constructFails (i : ι)
  | commit (n : ℕ) (key : Str) (ended : Ended (Exc F E))

section
variable {ι F R E : Type} [DecidableEq ι]

/-- A party has used the lock file. -/
def System.withLock (s : System ι F) (i : ι) (p : Party) (f : LockFile) : System ι F :=
  { s with lockFile := f, party := Function.update s.party i p }

/-- The party is dead if the process died in the call. -/
def System.settle (s : System ι F) (i : ι) : Ended (Exc F E) → System ι F
  | .died => s.withLock i ((s.party i).die s.lockFile).1 ((s.party i).die s.lockFile).2
  | _ => s

variable [DecidableEq F]

/-- One step of a party.  A store is constructed only under a lock that is held; nothing
    is checked when it commits. -/
inductive System.Step (S : Setup F R E) (fingerprint : Str) :
    System ι F → Act ι F E → System ι F → Prop where
  | acquire {s i a f} (now : ℚ) : (s.party i).alive → (s.party i).acquiring = none →
      (s.party i).lock.beginAcquire now s.lockFile = (a, f) →
      Step S fingerprint s (.acquire i) (s.withLock i { s.party i with acquiring := some a } f)
  | acquired {s i a lock f} (now : ℚ) : (s.party i).alive → (s.party i).acquiring = some a →
      (s.party i).lock.tryAcquire a now s.lockFile = (.acquired lock, f) →
      Step S fingerprint s (.tryLock i)
        (s.withLock i { s.party i with lock := lock, acquiring := none } f)
  | cacheLocked {s i a f} (now : ℚ) : (s.party i).alive → (s.party i).acquiring = some a →
      (s.party i).lock.tryAcquire a now s.lockFile = (.cacheLocked, f) →
      Step S fingerprint s (.tryLock i) (s.withLock i { s.party i with acquiring := none } f)
  | again {s i a f} (now : ℚ) : (s.party i).alive → (s.party i).acquiring = some a →
      (s.party i).lock.tryAcquire a now s.lockFile = (.again, f) →
      Step S fingerprint s (.tryLock i) { s with lockFile := f }
  | release {s i lock f} : (s.party i).alive →
      (s.party i).lock.release s.lockFile = (lock, f) →
      Step S fingerprint s (.release i) (s.withLock i { s.party i with lock := lock } f)
  | die {s i} : (s.party i).alive →
      Step S fingerprint s (.die i) (s.settle i (.died : Ended (Exc F E)))
  | construct {s i draw fates st} : (s.party i).alive →
      (openStore S fingerprint (s.party i).lock.held draw).run ⟨s.disk, ∅⟩ fates = (.returned, st) →
      Step S fingerprint s (.construct i s.stores.length)
        { s with disk := st.disk, stores := s.stores ++ [(i, st.entries)] }
  | constructFails {s i draw fates ended st} : (s.party i).alive → ended ≠ .returned →
      (openStore S fingerprint (s.party i).lock.held draw).run ⟨s.disk, ∅⟩ fates = (ended, st) →
      Step S fingerprint s (.constructFails i)
        (({ s with disk := st.disk } : System ι F).settle i ended)
  | commit {s n i entries key payloadHash result draw fates ended st} :
      s.stores[n]? = some (i, entries) → (s.party i).alive →
      (ResumableBatch.commit S fingerprint key payloadHash result draw).run ⟨s.disk, entries⟩ fates =
        (ended, st) →
      Step S fingerprint s (.commit n key ended)
        (({ s with disk := st.disk, stores := s.stores.set n (i, st.entries) } : System ι F).settle i
          ended)

/-- Nobody has used the lock or the directory yet. -/
def System.Initial (s : System ι F) : Prop :=
  s.lockFile = {} ∧ s.stores = [] ∧
    ∀ i, (s.party i).lock.fd = none ∧ (s.party i).lock.held = false ∧ (s.party i).acquiring = none

/-! ## The lock excludes -/

/-- Who holds the lock owns the lock file. -/
structure LockOk (f : LockFile) (party : ι → Party) : Prop where
  held : ∀ {i}, (party i).lock.held → ∃ fd, (party i).lock.fd = some fd
  owns : ∀ {i fd}, (party i).lock.fd = some fd → f.owner = some fd
  one : ∀ {i j fd fd'}, (party i).lock.fd = some fd → (party j).lock.fd = some fd' → i = j
  waits : ∀ {i a}, (party i).acquiring = some a → a.fd < f.opened ∧ f.owner ≠ some a.fd
  apart : ∀ {i j a b}, (party i).acquiring = some a → (party j).acquiring = some b →
    a.fd = b.fd → i = j
  opened : ∀ {fd}, f.owner = some fd → fd < f.opened

namespace LockOk

variable {f f' : LockFile} {party : ι → Party} {i : ι} {p : Party}

omit [DecidableEq ι] [DecidableEq F] in
theorem initial {s : System ι F} (h : s.Initial) : LockOk s.lockFile s.party := by
  obtain ⟨hf, -, hp⟩ := h
  constructor <;> intros <;> simp_all

/-- Handles of one party are closed. -/
theorem closed (h : LockOk f party) (hopened : f'.opened = f.opened)
    (howner : ∀ fd, f'.owner = some fd → f.owner = some fd)
    (hlock : p.lock.fd = none ∧ p.lock.held = false ∨ p.lock = (party i).lock)
    (hacq : p.acquiring = none ∨ p.acquiring = (party i).acquiring)
    (hkeep : ∀ j fd, (Function.update party i p j).lock.fd = some fd → f'.owner = some fd) :
    LockOk f' (Function.update party i p) := by
  have hfd : ∀ {j fd}, (Function.update party i p j).lock.fd = some fd →
      (party j).lock.fd = some fd := by
    intro j fd hj
    by_cases hji : j = i
    · subst hji
      rw [Function.update_self] at hj
      rcases hlock with ⟨hnone, -⟩ | hsame
      · rw [hnone] at hj
        cases hj
      · rw [← hsame, hj]
    · rwa [Function.update_of_ne hji] at hj
  have htry : ∀ {j a}, (Function.update party i p j).acquiring = some a →
      (party j).acquiring = some a := by
    intro j a hj
    by_cases hji : j = i
    · subst hji
      rw [Function.update_self] at hj
      rcases hacq with hnone | hsame
      · rw [hnone] at hj
        cases hj
      · rw [← hsame, hj]
    · rwa [Function.update_of_ne hji] at hj
  refine ⟨fun {j} hj => ?_, fun {j fd} => hkeep j fd, fun hi hj => h.one (hfd hi) (hfd hj),
    fun ha => ?_, fun ha hb => h.apart (htry ha) (htry hb), fun ho => ?_⟩
  · by_cases hji : j = i
    · subst hji
      rw [Function.update_self] at hj ⊢
      rcases hlock with ⟨-, hfalse⟩ | hsame
      · rw [hfalse] at hj
        cases hj
      · rw [hsame] at hj ⊢
        exact h.held hj
    · rw [Function.update_of_ne hji] at hj ⊢
      exact h.held hj
  · obtain ⟨hlt, hne⟩ := h.waits (htry ha)
    rw [hopened]
    exact ⟨hlt, fun ho => hne (howner _ ho)⟩
  · rw [hopened]
    exact h.opened (howner _ ho)

theorem die (h : LockOk f party) :
    LockOk ((party i).die f).2 (Function.update party i ((party i).die f).1) := by
  have howner : ∀ fd, ((party i).die f).2.owner = some fd → f.owner = some fd := by
    intro fd
    unfold Party.die
    cases (party i).lock.fd <;> cases (party i).acquiring <;>
      simp only [Option.elim, LockFile.owner_close] <;> tauto
  refine h.closed ?_ howner (Or.inl ⟨rfl, rfl⟩) (Or.inl rfl) fun j fd hj => ?_
  · unfold Party.die
    cases (party i).lock.fd <;> cases (party i).acquiring <;>
      simp only [Option.elim, LockFile.close_opened]
  · by_cases hji : j = i
    · subst hji
      rw [Function.update_self] at hj
      cases hj
    rw [Function.update_of_ne hji] at hj
    have hown := h.owns hj
    unfold Party.die
    -- what is closed is not the handle of another party
    have hlock : ∀ x, (party i).lock.fd = some x → fd ≠ x := fun x hx => (hji (h.one hj hx)).elim
    have hacq : ∀ a, (party i).acquiring = some a → fd ≠ a.fd := by
      rintro a ha rfl
      exact (h.waits ha).2 hown
    cases hl : (party i).lock.fd <;> cases ha : (party i).acquiring <;>
      simp only [Option.elim, LockFile.owner_close] <;> simp_all

/-- `acquire` opens a handle that nobody else has. -/
theorem acquire (h : LockOk f party) {a : Acquiring} {now : ℚ}
    (hp : (party i).lock.beginAcquire now f = (a, f')) :
    LockOk f' (Function.update party i { party i with acquiring := some a }) := by
  obtain ⟨hfd, rfl⟩ : a.fd = f.opened ∧ f' = { f with opened := f.opened + 1 } := by
    cases hp
    exact ⟨rfl, rfl⟩
  have hlock : ∀ j, (Function.update party i { party i with acquiring := some a } j).lock =
      (party j).lock := by
    intro j
    by_cases hji : j = i
    · subst hji
      rw [Function.update_self]
    · rw [Function.update_of_ne hji]
  have htry : ∀ {j b}, (Function.update party i { party i with acquiring := some a } j).acquiring =
      some b → j = i ∧ b.fd = f.opened ∨ j ≠ i ∧ (party j).acquiring = some b := by
    intro j b hb
    by_cases hji : j = i
    · subst hji
      rw [Function.update_self] at hb
      obtain rfl := Option.some.inj hb
      exact Or.inl ⟨rfl, hfd⟩
    · rw [Function.update_of_ne hji] at hb
      exact Or.inr ⟨hji, hb⟩
  refine ⟨fun {j} hj => ?_, fun {j fd} hj => ?_, fun {j k fd fd'} hj hk => ?_, fun {j b} hb => ?_,
    fun {j k b c} hb hc he => ?_, fun {fd} ho => ?_⟩
  · rw [hlock] at hj ⊢
    exact h.held hj
  · rw [hlock] at hj
    exact h.owns hj
  · rw [hlock] at hj hk
    exact h.one hj hk
  · rcases htry hb with ⟨-, hb⟩ | ⟨-, hb⟩
    · rw [hb]
      refine ⟨Nat.lt_succ_self _, fun ho => ?_⟩
      exact Nat.lt_irrefl _ (h.opened ho)
    · obtain ⟨hlt, hne⟩ := h.waits hb
      exact ⟨Nat.lt_succ_of_lt hlt, hne⟩
  · rcases htry hb with ⟨hj, hb⟩ | ⟨-, hb⟩ <;> rcases htry hc with ⟨hk, hc⟩ | ⟨-, hc⟩
    · rw [hj, hk]
    · have hlt := (h.waits hc).1
      rw [← he, hb] at hlt
      exact absurd hlt (Nat.lt_irrefl _)
    · have hlt := (h.waits hb).1
      rw [he, hc] at hlt
      exact absurd hlt (Nat.lt_irrefl _)
    · exact h.apart hb hc he
  · exact Nat.lt_succ_of_lt (h.opened ho)

/-- A try succeeds only if nobody owns the lock file. -/
theorem acquired (h : LockOk f party) {a : Acquiring} {lock : LockProvider} {now : ℚ}
    (ha : (party i).acquiring = some a)
    (hp : (party i).lock.tryAcquire a now f = (.acquired lock, f')) :
    LockOk f' (Function.update party i { party i with lock := lock, acquiring := none }) := by
  obtain ⟨hlt, hne⟩ := h.waits ha
  obtain ⟨hfree, rfl, hfd⟩ : f.owner = none ∧ f' = { f with owner := some a.fd } ∧
      lock.fd = some a.fd := by
    unfold LockProvider.tryAcquire LockFile.tryLock at hp
    cases ho : f.owner with
    | none =>
      rw [ho] at hp
      cases hp
      exact ⟨rfl, rfl, rfl⟩
    | some owner =>
      have hfd : owner ≠ a.fd := fun he => hne (he ▸ ho)
      simp only [ho, hfd, decide_false] at hp
      split_ifs at hp <;> cases hp
  have hnobody : ∀ {j fd}, (party j).lock.fd ≠ some fd := by
    intro j fd hj
    have hown := h.owns hj
    rw [hfree] at hown
    cases hown
  have hlock : ∀ {j fd}, (Function.update party i
      { party i with lock := lock, acquiring := none } j).lock.fd = some fd → j = i ∧ fd = a.fd := by
    intro j fd hj
    by_cases hji : j = i
    · subst hji
      rw [Function.update_self, hfd] at hj
      exact ⟨rfl, (Option.some.inj hj).symm⟩
    · rw [Function.update_of_ne hji] at hj
      exact absurd hj hnobody
  have htry : ∀ {j b}, (Function.update party i
      { party i with lock := lock, acquiring := none } j).acquiring = some b →
      j ≠ i ∧ (party j).acquiring = some b := by
    intro j b hb
    by_cases hji : j = i
    · subst hji
      rw [Function.update_self] at hb
      cases hb
    · rw [Function.update_of_ne hji] at hb
      exact ⟨hji, hb⟩
  refine ⟨fun {j} hj => ?_, fun hj => ?_, fun hj hk => ?_, fun {j b} hb => ?_,
    fun hb hc he => h.apart (htry hb).2 (htry hc).2 he, fun {fd} ho => ?_⟩
  · by_cases hji : j = i
    · subst hji
      exact ⟨a.fd, by rw [Function.update_self, hfd]⟩
    · rw [Function.update_of_ne hji] at hj
      obtain ⟨fd, hfd⟩ := h.held hj
      exact absurd hfd hnobody
  · rw [(hlock hj).2]
  · rw [(hlock hj).1, (hlock hk).1]
  · obtain ⟨hji, hb⟩ := htry hb
    refine ⟨(h.waits hb).1, fun ho => hji ?_⟩
    exact h.apart hb ha (Option.some.inj ho).symm
  · obtain rfl : a.fd = fd := Option.some.inj ho
    exact hlt

omit [DecidableEq ι] in
/-- A try that fails leaves the lock to its owner. -/
theorem tried (h : LockOk f party) {a : Acquiring} {t : Tried} {now : ℚ}
    (ha : (party i).acquiring = some a) (hp : (party i).lock.tryAcquire a now f = (t, f'))
    (ht : ∀ lock, t ≠ .acquired lock) : f'.opened = f.opened ∧ f'.owner = f.owner := by
  obtain ⟨-, hne⟩ := h.waits ha
  unfold LockProvider.tryAcquire LockFile.tryLock at hp
  cases ho : f.owner with
  | none =>
    rw [ho] at hp
    cases hp
    exact absurd rfl (ht _)
  | some owner =>
    have hfd : owner ≠ a.fd := fun he => hne (he ▸ ho)
    simp only [ho, hfd, decide_false] at hp
    split_ifs at hp
    · cases hp
      rw [LockFile.close, if_neg hne]
      exact ⟨rfl, ho⟩
    · cases hp
      exact ⟨rfl, ho⟩

theorem cacheLocked (h : LockOk f party) {a : Acquiring} {now : ℚ}
    (ha : (party i).acquiring = some a)
    (hp : (party i).lock.tryAcquire a now f = (.cacheLocked, f')) :
    LockOk f' (Function.update party i { party i with acquiring := none }) := by
  obtain ⟨hopened, howner⟩ := h.tried ha hp nofun
  refine h.closed hopened (fun fd ho => howner ▸ ho) (Or.inr rfl) (Or.inl rfl) fun j fd hj => ?_
  rw [howner]
  by_cases hji : j = i
  · subst hji
    rw [Function.update_self] at hj
    exact h.owns hj
  · rw [Function.update_of_ne hji] at hj
    exact h.owns hj

omit [DecidableEq ι] in
theorem again (h : LockOk f party) {a : Acquiring} {now : ℚ} (ha : (party i).acquiring = some a)
    (hp : (party i).lock.tryAcquire a now f = (.again, f')) : LockOk f' party := by
  obtain ⟨hopened, howner⟩ := h.tried ha hp nofun
  refine ⟨h.held, fun hfd => howner ▸ h.owns hfd, h.one, fun hb => ?_, h.apart, fun ho => ?_⟩
  · rw [hopened, howner]
    exact h.waits hb
  · rw [hopened]
    exact h.opened (howner ▸ ho)

theorem release (h : LockOk f party) {lock : LockProvider}
    (hp : (party i).lock.release f = (lock, f')) :
    LockOk f' (Function.update party i { party i with lock := lock }) := by
  unfold LockProvider.release at hp
  cases hl : (party i).lock.fd with
  | none =>
    rw [hl] at hp
    cases hp
    rw [Function.update_eq_self]
    exact h
  | some fd =>
    rw [hl] at hp
    cases hp
    refine h.closed (LockFile.close_opened _ _) (fun fd' ho => (LockFile.owner_close.1 ho).1)
      (Or.inl ⟨rfl, rfl⟩) (Or.inr rfl) fun j fd' hj => ?_
    by_cases hji : j = i
    · subst hji
      rw [Function.update_self] at hj
      cases hj
    · rw [Function.update_of_ne hji] at hj
      exact absurd (h.one hj hl) hji

end LockOk

section
variable {S : Setup F R E} {fingerprint : Str} {s₀ s s' : System ι F} {act : Act ι F E}
  {tr : List (Act ι F E)}

omit [DecidableEq F] in
theorem LockOk.settle (h : LockOk s.lockFile s.party) (i : ι) (ended : Ended (Exc F E)) :
    LockOk (s.settle i ended).lockFile (s.settle i ended).party := by
  cases ended with
  | died => exact h.die
  | _ => exact h

/-- Every step keeps the lock exclusive. -/
theorem LockOk.step (h : LockOk s.lockFile s.party) (hs : s.Step S fingerprint act s') :
    LockOk s'.lockFile s'.party := by
  cases hs with
  | acquire now _ _ hp => exact h.acquire hp
  | acquired now _ ha hp => exact h.acquired ha hp
  | cacheLocked now _ ha hp => exact h.cacheLocked ha hp
  | again now _ ha hp => exact h.again ha hp
  | release _ hp => exact h.release hp
  | die _ => exact h.die
  | construct _ _ => exact h
  | constructFails _ _ _ =>
    refine LockOk.settle ?_ _ _
    exact h
  | commit _ _ _ =>
    refine LockOk.settle ?_ _ _
    exact h

theorem lockOk_run (h₀ : s₀.Initial) (h : Lts.Run (System.Step S fingerprint) s₀ tr s) :
    LockOk s.lockFile s.party :=
  h.inv (fun _ s => LockOk s.lockFile s.party) (.initial h₀) fun _ h hs => h.step hs

/-- **At most one party holds the lock.** -/
theorem holder_unique (h₀ : s₀.Initial) (h : Lts.Run (System.Step S fingerprint) s₀ tr s) {i j : ι}
    (hi : (s.party i).lock.held) (hj : (s.party j).lock.held) : i = j := by
  have hok := lockOk_run h₀ h
  obtain ⟨fd, hfd⟩ := hok.held hi
  obtain ⟨fd', hfd'⟩ := hok.held hj
  exact hok.one hfd hfd'

/-! ## What a step writes -/

omit [DecidableEq F] in
@[simp] theorem System.settle_disk (s : System ι F) (i : ι) (ended : Ended (Exc F E)) :
    (s.settle i ended).disk = s.disk := by
  cases ended <;> rfl

omit [DecidableEq F] in
@[simp] theorem System.settle_stores (s : System ι F) (i : ι) (ended : Ended (Exc F E)) :
    (s.settle i ended).stores = s.stores := by
  cases ended <;> rfl

theorem getElem?_snoc {α : Type} {l : List α} {a b : α} {m : ℕ} (h : (l ++ [a])[m]? = some b) :
    l[m]? = some b ∨ m = l.length ∧ b = a := by
  rcases Nat.lt_trichotomy m l.length with hlt | rfl | hlt
  · rw [List.getElem?_append_left hlt] at h
    exact Or.inl h
  · rw [List.getElem?_concat_length] at h
    exact Or.inr ⟨rfl, (Option.some.inj h).symm⟩
  · rw [List.getElem?_eq_none (by simpa using hlt)] at h
    cases h

/-- What a step does to the directory and to the stores. -/
inductive Wrote (S : Setup F R E) (fingerprint : Str) (s s' : System ι F) : Act ι F E → Prop where
  | nothing {x} : s'.disk = s.disk → s'.stores = s.stores →
      (∀ n key ended, x ≠ .commit n key ended) → (∀ i n, x ≠ .construct i n) →
        Wrote S fingerprint s s' x
  | constructed {i st} : fingerprint ≠ [] →
      Opened S fingerprint ⟨s.disk, ∅⟩ st (.returned : Ended (Exc F E)) → s'.disk = st.disk →
      s'.stores = s.stores ++ [(i, st.entries)] →
        Wrote S fingerprint s s' (.construct i s.stores.length)
  | failed {i st} {ended : Ended (Exc F E)} : Opened S fingerprint ⟨s.disk, ∅⟩ st ended →
      s'.disk = st.disk → s'.stores = s.stores → Wrote S fingerprint s s' (.constructFails i)
  | committed {n i entries key payloadHash result draw ended st} :
      s.stores[n]? = some (i, entries) →
      Committed S fingerprint key payloadHash result draw ⟨s.disk, entries⟩ st ended →
      s'.disk = st.disk → s'.stores = s.stores.set n (i, st.entries) →
      Wrote S fingerprint s s' (.commit n key ended)

theorem System.Step.wrote (hs : s.Step S fingerprint act s') : Wrote S fingerprint s s' act := by
  cases hs with
  | construct _ hrun => exact .constructed ((open_cases hrun).2 rfl).2 (open_cases hrun).1 rfl rfl
  | constructFails _ _ hrun =>
    exact .failed (open_cases hrun).1 (System.settle_disk _ _ _) (System.settle_stores _ _ _)
  | commit hn _ hrun =>
    exact .committed hn (commit_cases hrun) (System.settle_disk _ _ _) (System.settle_stores _ _ _)
  | _ => exact .nothing rfl rfl nofun nofun

omit [DecidableEq ι] in
/-- Stores are added at the end. -/
theorem Wrote.length_le (h : Wrote S fingerprint s s' act) : s.stores.length ≤ s'.stores.length := by
  cases h with
  | nothing _ hst => rw [hst]
  | constructed _ _ _ hst => simp [hst]
  | failed _ _ hst => rw [hst]
  | committed _ _ _ hst => simp [hst]

/-- Where there is a store there is a fingerprint, and a manifest can hold its entries. -/
def StoresOk (fingerprint : Str) (s : System ι F) : Prop :=
  ∀ (n : ℕ) (i : ι) (entries : Entries F), s.stores[n]? = some (i, entries) →
    fingerprint ≠ [] ∧ EntriesOk entries

omit [DecidableEq ι] in
theorem StoresOk.step (hC : S.codec.ReadsBack) (hok : StoresOk fingerprint s)
    (h : Wrote S fingerprint s s' act) : StoresOk fingerprint s' := by
  intro m j entries hm
  cases h with
  | nothing _ hst =>
    rw [hst] at hm
    exact hok m j entries hm
  | failed _ _ hst =>
    rw [hst] at hm
    exact hok m j entries hm
  | constructed hfp hopen _ hst =>
    rw [hst] at hm
    rcases getElem?_snoc hm with hm | ⟨-, he⟩
    · exact hok m j entries hm
    · cases he
      exact ⟨hfp, hopen.entriesOk⟩
  | committed hn hc _ hst =>
    rw [hst, List.getElem?_set] at hm
    split_ifs at hm with hmn hlt
    · cases hm
      exact (hok _ _ _ hn).imp_right (hc.entriesOk hC)
    · exact hok m j entries hm

theorem storesOk_run (hC : S.codec.ReadsBack) (h₀ : s₀.Initial)
    (h : Lts.Run (System.Step S fingerprint) s₀ tr s) : StoresOk fingerprint s := by
  refine h.inv (fun _ s => StoresOk fingerprint s) ?_ fun _ h hs => h.step hC hs.wrote
  intro n i entries hn
  rw [h₀.2.1] at hn
  cases hn

/-! ## An entry that is kept -/

/-- The map has an entry for the key: the given one, unless the key was committed again. -/
def Carries (key : Str) (entry : Entry F) (again : Prop) (entries : Entries F) : Prop :=
  ∃ e, entries.lookup key = some e ∧ (again ∨ entry.Same e)

variable {key : Str} {entry : Entry F} {again : Prop}

/-- A commit takes no entry out of the map. -/
theorem Carries.committed {k payloadHash : Str} {result : R} {draw : Draw F} {t t' : Store F}
    {ended : Ended (Exc F E)} (h : Carries key entry again t.entries)
    (hagain : k = key → again)
    (hc : Committed S fingerprint k payloadHash result draw t t' ended) :
    Carries key entry again t'.entries := by
  obtain ⟨e, he, hsame⟩ := h
  by_cases hk : key = k
  · subst hk
    have hrec : ∀ {e'}, Recalled S t t' key e' ended → Carries key entry again t'.entries := by
      intro e' hrec
      cases hrec with
      | returned h => exact ⟨e', by rw [h, AList.lookup_insert], Or.inl (hagain rfl)⟩
      | restored _ h => exact ⟨e, by rw [h, he], hsame⟩
      | kept _ _ h => exact ⟨e', by rw [h, AList.lookup_insert], Or.inl (hagain rfl)⟩
    cases hc with
    | untouched _ h _ => exact ⟨e, by rw [h, he], hsame⟩
    | torn _ _ h _ => exact hrec h
    | published _ _ _ h _ => exact hrec h
  · exact ⟨e, by rw [hc.lookup_ne hk, he], hsame⟩

/-- What is written is loaded with the entry. -/
theorem Carries.written {entries : Entries F} {b : ByteArray} (hfp : NoPair fingerprint)
    (hok : EntriesOk entries) (hb : manifestBytes S fingerprint entries = .ok b)
    (h : Carries key entry again entries) : ∃ D,
      readEntries S fingerprint (some (.file b)) = some D ∧ Carries key entry again D := by
  obtain ⟨D, hD, hlookup⟩ := readEntries_written hfp hok hb
  obtain ⟨e, he, hsame⟩ := h
  refine ⟨D, hD, e.sorted, by rw [hlookup, he]; rfl, hsame.imp_right fun h => ?_⟩
  exact h.trans (same_sorted (hok _ _ he).json)

/-- The entry is in the manifest, and in the stores that may still write it: the one that
    committed it, and those constructed later. -/
structure Stands (S : Setup F R E) (fingerprint : Str) (n old : ℕ) (key : Str) (entry : Entry F)
    (again : Prop) (s : System ι F) : Prop where
  manifest : ∃ D, readEntries S fingerprint (s.disk.lookup manifestPath) = some D ∧
    Carries key entry again D
  known : ∀ (m : ℕ) (i : ι) (entries : Entries F), s.stores[m]? = some (i, entries) →
    m = n ∨ old ≤ m → Carries key entry again entries

omit [DecidableEq ι] in
/-- An open keeps the manifest in which the entry stands, and loads it. -/
theorem Stands.opened {n old : ℕ} {st st' : Store F} {ended : Ended (Exc F E)}
    (h : Stands S fingerprint n old key entry again s) (hd : st.disk = s.disk)
    (hopen : Opened S fingerprint st st' ended) :
    st'.disk.lookup manifestPath = s.disk.lookup manifestPath ∧
      (ended = .returned → Carries key entry again st'.entries) := by
  obtain ⟨D, hD, hcarries⟩ := h.manifest
  cases hopen with
  | loaded D' hD' he hdisk =>
    rw [hd, hD] at hD'
    obtain rfl := Option.some.inj hD'
    refine ⟨by rw [hdisk _ isTmp_manifest, hd], fun hret => ?_⟩
    rw [he hret]
    exact hcarries
  | wiped hnone _ _ =>
    rw [hd, hD] at hnone
    cases hnone

omit [DecidableEq ι] in
/-- **Every step keeps the entry**, but for commits of stores that do not know it. -/
theorem Stands.step (hC : S.codec.ReadsBack) {n old : ℕ}
    (h : Stands S fingerprint n old key entry again s) (hok : StoresOk fingerprint s)
    (hw : Wrote S fingerprint s s' act)
    (hlater : ∀ m k ended, act = .commit m k ended → m = n ∨ old ≤ m)
    (hagain : ∀ m ended, act = .commit m key ended → again) :
    Stands S fingerprint n old key entry again s' := by
  cases hw with
  | nothing hd hst _ _ =>
    refine ⟨by rw [hd]; exact h.manifest, fun m i entries hm => ?_⟩
    rw [hst] at hm
    exact h.known m i entries hm
  | constructed _ hopen hd hst =>
    obtain ⟨hm, hload⟩ := h.opened rfl hopen
    refine ⟨by rw [hd, hm]; exact h.manifest, fun m j entries hget hmo => ?_⟩
    rw [hst] at hget
    rcases getElem?_snoc hget with hget | ⟨-, he⟩
    · exact h.known m j entries hget hmo
    · cases he
      exact hload rfl
  | failed hopen hd hst =>
    obtain ⟨hm, -⟩ := h.opened rfl hopen
    refine ⟨by rw [hd, hm]; exact h.manifest, fun m j entries hget hmo => ?_⟩
    rw [hst] at hget
    exact h.known m j entries hget hmo
  | @committed m i entries k _ _ _ ended st hget hc hd hst =>
    have hk : k = key → again := by
      rintro rfl
      exact hagain m ended rfl
    have hknown := h.known m i entries hget (hlater m k ended rfl)
    refine ⟨?_, fun m' j entries' hget' hmo => ?_⟩
    · rw [hd]
      rcases hc.manifest hC.apart with ⟨-, hm⟩ | ⟨pub, b, hb, hm⟩
      · rw [hm]
        exact h.manifest
      · obtain ⟨hfp, hentry⟩ := pub.entryOk hC
        rw [hm]
        refine Carries.written hfp ((hok _ _ _ hget).2.insert hentry) hb ?_
        obtain ⟨e, he, hsame⟩ := hknown
        by_cases hkey : key = k
        · exact ⟨pub.entry, by rw [hkey, AList.lookup_insert], Or.inl (hk hkey.symm)⟩
        · exact ⟨e, by rw [AList.lookup_insert_ne hkey]; exact he, hsame⟩
    · rw [hst, List.getElem?_set] at hget'
      split_ifs at hget' with hmm hlt
      · cases hget'
        exact Carries.committed (t := ⟨s.disk, entries⟩) hknown hk hc
      · exact h.known m' j entries' hget' hmo

/-- A commit that returned has its entry in the manifest and in its store. -/
theorem Stands.of_commit (hC : S.codec.ReadsBack) (hok : StoresOk fingerprint s) {n : ℕ}
    (hs : s.Step S fingerprint (.commit n key .returned) s') :
    ∃ i entries entry, s'.stores[n]? = some (i, entries) ∧ entries.lookup key = some entry ∧
      ∀ again, Stands S fingerprint n s'.stores.length key entry again s' := by
  generalize hact : (.commit n key .returned : Act ι F E) = act at hs
  cases hs with
  | @commit n' i entries key' payloadHash result draw fates ended st hget halive hrun =>
    cases hact
    obtain ⟨pub, b, hb, he, hd⟩ := commit_published hrun
    obtain ⟨hfp, hentry⟩ := pub.entryOk hC
    have hlt : n < s.stores.length := (List.getElem?_eq_some_iff.1 hget).1
    have hcarries : ∀ again, Carries key pub.entry again (entries.insert key pub.entry) :=
      fun again => ⟨pub.entry, AList.lookup_insert _, Or.inr (.refl _)⟩
    refine ⟨i, st.entries, pub.entry, ?_, by rw [he, AList.lookup_insert], fun again => ⟨?_, ?_⟩⟩
    · rw [System.settle_stores, List.getElem?_set_self hlt]
    · rw [System.settle_disk]
      have hm : st.disk.lookup manifestPath = some (.file b) := by
        rw [hd _ (ne_payloadTmp isTmp_manifest) (ne_manifestTmp isTmp_manifest), if_pos rfl]
      rw [hm]
      exact (hcarries again).written hfp ((hok _ _ _ hget).2.insert hentry) hb
    · intro m j entries' hget' hmo
      rw [System.settle_stores] at hget' hmo
      have hmlt := (List.getElem?_eq_some_iff.1 hget').1
      rcases hmo with rfl | hmo
      · rw [List.getElem?_set_self hlt] at hget'
        cases hget'
        rw [he]
        exact hcarries again
      · omega
  | _ => cases hact

theorem Stands.run (hC : S.codec.ReadsBack) {n old : ℕ}
    (h₀ : Stands S fingerprint n old key entry again s₀) (hok : StoresOk fingerprint s₀)
    (hr : Lts.Run (System.Step S fingerprint) s₀ tr s)
    (hlater : ∀ m k ended, .commit m k ended ∈ tr → m = n ∨ old ≤ m)
    (hagain : ∀ m ended, .commit m key ended ∈ tr → again) :
    Stands S fingerprint n old key entry again s := by
  induction hr with
  | nil => exact h₀
  | @snoc tr s₁ act s₂ hr hs ih =>
    have hok₁ : StoresOk fingerprint s₁ :=
      hr.inv (fun _ s => StoresOk fingerprint s) hok fun _ h hs => h.step hC hs.wrote
    have hk := ih (fun m k ended hm => hlater m k ended (List.mem_append_left _ hm))
      fun m ended hm => hagain m ended (List.mem_append_left _ hm)
    refine hk.step hC hok₁ hs.wrote ?_ ?_
    · rintro m k ended rfl
      exact hlater m k ended (by simp)
    · rintro m ended rfl
      exact hagain m ended (by simp)

/-! ## One store at a time -/

/-- The store that a party has constructed last since it acquired the lock. -/
def Act.track (current : ι → Option ℕ) : Act ι F E → ι → Option ℕ
  | .construct i n => Function.update current i (some n)
  | .release i | .die i => Function.update current i none
  | _ => current

def currentStore (tr : List (Act ι F E)) : ι → Option ℕ := tr.foldl Act.track fun _ => none

/-- Every commit goes through the store that its party constructed last since it acquired
    the lock. -/
def Disciplined (tr : List (Act ι F E)) : Prop :=
  ∀ a n key ended b, tr = a ++ .commit n key ended :: b → ∃ i, currentStore a i = some n

omit [DecidableEq F] in
theorem currentStore_snoc (tr : List (Act ι F E)) (act : Act ι F E) :
    currentStore (tr ++ [act]) = act.track (currentStore tr) := by
  rw [currentStore, List.foldl_append]
  rfl

omit [DecidableEq F] in
/-- A store becomes current when it is constructed. -/
theorem track_some {current : ι → Option ℕ} {i : ι} {n : ℕ} (h : act.track current i = some n) :
    act = .construct i n ∨ current i = some n ∧ act ≠ .release i ∧ act ≠ .die i := by
  cases act with
  | construct j m =>
    by_cases hij : i = j
    · subst hij
      rw [Act.track, Function.update_self] at h
      exact Or.inl (by rw [Option.some.inj h])
    · rw [Act.track, Function.update_of_ne hij] at h
      exact Or.inr ⟨h, nofun, nofun⟩
  | release j =>
    by_cases hij : i = j
    · subst hij
      rw [Act.track, Function.update_self] at h
      cases h
    · rw [Act.track, Function.update_of_ne hij] at h
      exact Or.inr ⟨h, fun he => hij (by cases he; rfl), nofun⟩
  | die j =>
    by_cases hij : i = j
    · subst hij
      rw [Act.track, Function.update_self] at h
      cases h
    · rw [Act.track, Function.update_of_ne hij] at h
      exact Or.inr ⟨h, nofun, fun he => hij (by cases he; rfl)⟩
  | _ => exact Or.inr ⟨h, nofun, nofun⟩

omit [DecidableEq F] in
/-- Whoever is alive after a call was not the one that died in it. -/
theorem System.settle_party {i j : ι} {ended : Ended (Exc F E)}
    (h : ((s.settle i ended).party j).alive) : (s.settle i ended).party j = s.party j := by
  cases ended with
  | died =>
    by_cases hji : j = i
    · subst hji
      have hself : ((s.settle j (.died : Ended (Exc F E))).party j).alive = false := by
        show (Function.update s.party j ((s.party j).die s.lockFile).1 j).alive = false
        rw [Function.update_self]
        rfl
      rw [hself] at h
      cases h
    · exact Function.update_of_ne hji _ _
  | _ => rfl

theorem tryAcquire_held {lock lock' : LockProvider} {a : Acquiring} {now : ℚ} {f f' : LockFile}
    (h : lock.tryAcquire a now f = (.acquired lock', f')) : lock'.held = true := by
  unfold LockProvider.tryAcquire at h
  generalize f.tryLock a.fd = x at h
  obtain ⟨_ | _, g⟩ := x
  · simp only at h
    split_ifs at h <;> cases h
  · cases h
    rfl

/-- The lock stays held until it is released or the process dies. -/
theorem System.Step.party (hs : s.Step S fingerprint act s') {j : ι} (halive : (s'.party j).alive) :
    (s.party j).alive ∧ (act ≠ .release j → (s.party j).lock.held → (s'.party j).lock.held) := by
  have hupdate : ∀ {i : ι} {p : Party}, (Function.update s.party i p j).alive →
      (p.alive → (s.party i).alive) → (p.alive → act ≠ .release i → (s.party i).lock.held →
        p.lock.held) → (s.party j).alive ∧ (act ≠ .release j → (s.party j).lock.held →
          (Function.update s.party i p j).lock.held) := by
    intro i p hp ha hl
    by_cases hji : j = i
    · subst hji
      rw [Function.update_self] at hp ⊢
      exact ⟨ha hp, hl hp⟩
    · rw [Function.update_of_ne hji] at hp ⊢
      exact ⟨hp, fun _ h => h⟩
  cases hs with
  | acquire now _ _ _ => exact hupdate halive id fun _ _ h => h
  | acquired now _ _ hp => exact hupdate halive id fun _ _ _ => tryAcquire_held hp
  | cacheLocked now _ _ _ => exact hupdate halive id fun _ _ h => h
  | again now _ _ _ => exact ⟨halive, fun _ h => h⟩
  | release _ _ => exact hupdate halive id fun _ hne _ => absurd rfl hne
  | die _ =>
    have hp := System.settle_party halive
    rw [hp] at halive ⊢
    exact ⟨halive, fun _ h => h⟩
  | construct _ _ => exact ⟨halive, fun _ h => h⟩
  | constructFails _ _ _ =>
    have hp := System.settle_party halive
    rw [hp] at halive ⊢
    exact ⟨halive, fun _ h => h⟩
  | commit _ _ _ =>
    have hp := System.settle_party halive
    rw [hp] at halive ⊢
    exact ⟨halive, fun _ h => h⟩

/-- Whose store is current holds the lock, while it lives. -/
theorem current_held (hr : Lts.Run (System.Step S fingerprint) s₀ tr s) {i : ι} {n : ℕ}
    (h : currentStore tr i = some n) : (∃ entries, s.stores[n]? = some (i, entries)) ∧
      ((s.party i).alive → (s.party i).lock.held) := by
  induction hr generalizing i n with
  | nil => cases h
  | @snoc tr s₁ act s₂ hr hs ih =>
    rw [currentStore_snoc] at h
    rcases track_some h with rfl | ⟨h, hne, -⟩
    · cases hs with
      | construct _ hrun =>
        exact ⟨⟨_, List.getElem?_concat_length⟩, fun _ => ((open_cases hrun).2 rfl).1⟩
    · obtain ⟨⟨entries, hget⟩, hheld⟩ := ih h
      refine ⟨?_, fun halive => ?_⟩
      · cases hs.wrote with
        | nothing _ hst => exact ⟨entries, by rw [hst, hget]⟩
        | constructed _ _ _ hst =>
          have hlt := (List.getElem?_eq_some_iff.1 hget).1
          exact ⟨entries, by rw [hst, List.getElem?_append_left hlt, hget]⟩
        | failed _ _ hst => exact ⟨entries, by rw [hst, hget]⟩
        | @committed m j entries' _ _ _ _ _ st hget' _ _ hst =>
          rw [hst]
          by_cases hmn : m = n
          · subst hmn
            obtain ⟨rfl, rfl⟩ := Prod.mk.inj (Option.some.inj (hget.symm.trans hget'))
            exact ⟨st.entries, List.getElem?_set_self (List.getElem?_eq_some_iff.1 hget).1⟩
          · exact ⟨entries, by rw [List.getElem?_set_ne hmn, hget]⟩
      · obtain ⟨ha, hl⟩ := hs.party halive
        exact hl hne (hheld ha)

/-- Who commits is alive. -/
theorem System.Step.committer {n : ℕ} {key : Str} {ended : Ended (Exc F E)}
    (hs : s.Step S fingerprint (.commit n key ended) s') : ∃ i entries,
      s.stores[n]? = some (i, entries) ∧ (s.party i).alive ∧
        (ended = .returned → s'.party = s.party) := by
  cases hs with
  | @commit _ i entries _ _ _ _ _ _ st hget halive _ =>
    refine ⟨i, entries, hget, halive, ?_⟩
    rintro rfl
    rfl

/-- Under the discipline no store commits after another one but those constructed later. -/
theorem Disciplined.later (h₀ : s₀.Initial) {s₁ s₂ : System ι F} {a b : List (Act ι F E)} {n : ℕ}
    {key : Str} (ha : Lts.Run (System.Step S fingerprint) s₀ a s₁)
    (hs : s₁.Step S fingerprint (.commit n key .returned) s₂)
    (hb : Lts.Run (System.Step S fingerprint) s₂ b s)
    (hd : Disciplined (a ++ .commit n key .returned :: b)) {m : ℕ} {k : Str}
    {ended : Ended (Exc F E)} (hm : .commit m k ended ∈ b) : m = n ∨ s₂.stores.length ≤ m := by
  have hsplit : ∀ b' : List (Act ι F E), a ++ .commit n key .returned :: b' =
      (a ++ [.commit n key .returned]) ++ b' := fun b' => by simp
  have ha' := ha.snoc hs
  -- the party of the first commit is the only one with a current store
  have hfirst : ∀ j m, currentStore (a ++ [.commit n key .returned]) j = some m →
      (s₂.party j).alive → m = n := by
    intro j m hj halive
    obtain ⟨i, hi⟩ := hd a n key .returned b rfl
    obtain ⟨i', entries, hget, halive', hparty⟩ := hs.committer
    obtain ⟨⟨_, hget'⟩, hheld⟩ := current_held ha hi
    obtain ⟨rfl, -⟩ := Prod.mk.inj (Option.some.inj (hget.symm.trans hget'))
    have hheld_j := (current_held ha' hj).2 halive
    rw [hparty rfl] at hheld_j
    obtain rfl := holder_unique h₀ ha (hheld halive') hheld_j
    rw [currentStore_snoc] at hj
    exact Option.some.inj (hj.symm.trans hi)
  have hlater : ∀ {b' : List (Act ι F E)} {s'}, Lts.Run (System.Step S fingerprint) s₂ b' s' →
      s₂.stores.length ≤ s'.stores.length ∧ ∀ j m,
        currentStore ((a ++ [.commit n key .returned]) ++ b') j = some m → (s'.party j).alive →
          m = n ∨ s₂.stores.length ≤ m := by
    intro b' s' hr
    induction hr with
    | nil =>
      refine ⟨le_rfl, fun j m hj halive => Or.inl (hfirst j m ?_ halive)⟩
      rwa [List.append_nil] at hj
    | @snoc b' t act t' hr hs' ih =>
      obtain ⟨hlen, hcur⟩ := ih
      refine ⟨hlen.trans hs'.wrote.length_le, fun j m hj halive => ?_⟩
      rw [← List.append_assoc, currentStore_snoc] at hj
      rcases track_some hj with rfl | ⟨hj, -⟩
      · cases hs' with
        | construct _ _ => exact Or.inr hlen
      · exact hcur j m hj (hs'.party halive).1
  obtain ⟨b₁, b₂, t, t', rfl, h₁, hs', -⟩ := hb.step_of_mem hm
  obtain ⟨j, hj⟩ := hd (a ++ .commit n key .returned :: b₁) m k ended b₂ (by simp)
  obtain ⟨j', entries, hget, halive, -⟩ := hs'.committer
  rw [hsplit] at hj
  obtain ⟨⟨_, hget'⟩, -⟩ := current_held (ha'.append h₁) hj
  obtain ⟨rfl, -⟩ := Prod.mk.inj (Option.some.inj (hget.symm.trans hget'))
  exact (hlater h₁).2 _ m hj halive

/-! ## No update is lost -/

/-- **No update is lost but to a store that is out of date**: an entry whose commit
    returned is in the manifest at every later open, if no store that was constructed
    before that commit commits after it, but the one that made it; and so it is if
    every commit goes through the store that its party constructed last since it
    acquired the lock. -/
theorem no_update_lost (hC : S.codec.ReadsBack) (h₀ : s₀.Initial) {s₁ s₂ : System ι F}
    {a b : List (Act ι F E)} {n : ℕ} (ha : Lts.Run (System.Step S fingerprint) s₀ a s₁)
    (hs : s₁.Step S fingerprint (.commit n key .returned) s₂)
    (hb : Lts.Run (System.Step S fingerprint) s₂ b s)
    (h : (∀ m k ended, .commit m k ended ∈ b → m = n ∨ s₂.stores.length ≤ m) ∨
      Disciplined (a ++ .commit n key .returned :: b)) :
    ∃ i entries entry, s₂.stores[n]? = some (i, entries) ∧ entries.lookup key = some entry ∧
      (∀ (t t' : Store F) held draw fates, t.disk = s.disk →
        (openStore S fingerprint held draw).run t fates = (.returned, t') →
        ∃ entry', t'.entries.lookup key = some entry' ∧
          ((∀ m ended, .commit m key ended ∉ b) → entry.Same entry')) ∧
      (∀ draw, ∃ t',
        (openStore S fingerprint true draw).run ⟨s.disk, ∅⟩ [] = (.returned, t')) := by
  have hlater : ∀ m k ended, .commit m k ended ∈ b → m = n ∨ s₂.stores.length ≤ m := by
    rcases h with h | h
    · exact h
    · exact fun m k ended hm => h.later h₀ ha hs hb hm
  have hok := storesOk_run hC h₀ ha
  obtain ⟨i, entries, entry, hget, hentry, hkept⟩ := Stands.of_commit hC hok hs
  have hk := (hkept (∃ m ended, .commit m key ended ∈ b)).run hC (hok.step hC hs.wrote) hb hlater
    fun m ended hm => ⟨m, ended, hm⟩
  refine ⟨i, entries, entry, hget, hentry, fun t t' held draw fates hd hopen => ?_, fun draw => ?_⟩
  · obtain ⟨e, he, hsame⟩ := (hk.opened hd (open_cases hopen).1).2 rfl
    refine ⟨e, he, fun hnone => ?_⟩
    rcases hsame with ⟨m, ended, hm⟩ | hsame
    · exact absurd hm (hnone m ended)
    · exact hsame
  · obtain ⟨D, hD, -⟩ := hk.manifest
    have hfp := (hok.step hC hs.wrote _ _ _ hget).1
    obtain ⟨t', hrun, -⟩ := open_returns draw hfp (s := ⟨s.disk, ∅⟩) hD
    exact ⟨t', hrun⟩

/-! ### Two parties -/

/-- A store is constructed under the lock. -/
theorem System.Step.construct_next {i : ι} {draw : Draw F} {fates : List (Fate F E)} {st : Store F}
    (halive : (s.party i).alive) (hheld : (s.party i).lock.held = true)
    (hrun : (openStore S fingerprint true draw).run ⟨s.disk, ∅⟩ fates = (.returned, st)) :
    ∃ s' : System ι F, s.Step S fingerprint (.construct i s.stores.length) s' ∧
      s'.disk = st.disk ∧ s'.stores = s.stores ++ [(i, st.entries)] ∧ s'.party = s.party :=
  ⟨_, .construct halive (hheld ▸ hrun), rfl, rfl, rfl⟩

/-- A store commits. -/
theorem System.Step.commit_next {i : ι} {n : ℕ} {entries : Entries F} {payloadHash : Str} {result : R}
    {draw : Draw F} {fates : List (Fate F E)} {st : Store F} (halive : (s.party i).alive)
    (hn : s.stores[n]? = some (i, entries))
    (hrun : (ResumableBatch.commit S fingerprint key payloadHash result draw).run ⟨s.disk, entries⟩
      fates = (.returned, st)) :
    ∃ s' : System ι F, s.Step S fingerprint (.commit n key .returned) s' ∧
      s'.disk = st.disk ∧ s'.stores = s.stores.set n (i, st.entries) ∧ s'.party = s.party :=
  ⟨_, .commit hn halive hrun, rfl, rfl, rfl⟩

end

end

/-- A party acquires the lock on a new directory. -/
theorem locked : ∃ s₀ s : System Unit Half, s₀.Initial ∧ s.disk = ∅ ∧ s.stores = [] ∧
    (s.party ()).alive ∧ (s.party ()).lock.held = true ∧ ∃ tr : List (Act Unit Half Bool),
      Lts.Run (System.Step (plainSetup none) (lit "f")) s₀ tr s := by
  let s₀ : System Unit Half := { disk := ∅ }
  have h₁ : Lts.Run (System.Step (E := Bool) (plainSetup none) (lit "f")) s₀ _ _ :=
    .single (.acquire (i := ()) 0 rfl rfl rfl)
  have h₂ := h₁.snoc (.acquired (i := ()) 0 rfl rfl rfl)
  exact ⟨s₀, _, ⟨rfl, rfl, fun _ => ⟨rfl, rfl, rfl⟩⟩, rfl, rfl, rfl, rfl, _, h₂⟩

/-- Two stores on a new directory, one after the other: each commits a key. -/
theorem turns_run : ∃ sA cA sB cB : Store Half,
    (openStore (E := Bool) (plainSetup none) (lit "f") true plainDraw).run ⟨∅, ∅⟩ [] =
      (.returned, sA) ∧
    (commit (plainSetup none) (lit "f") (lit "a") (lit "h") plainRecords plainDraw).run
      ⟨sA.disk, sA.entries⟩ [] = (.returned, cA) ∧
    (openStore (E := Bool) (plainSetup none) (lit "f") true plainDraw).run ⟨cA.disk, ∅⟩ [] =
      (.returned, sB) ∧
    (commit (plainSetup none) (lit "f") (lit "b") (lit "h") plainRecords plainDraw).run
      ⟨sB.disk, sB.entries⟩ [] = (.returned, cB) :=
  ⟨_, _, _, _, run_returned (by decide +kernel), run_returned (by decide +kernel),
    run_returned (by decide +kernel), run_returned (by decide +kernel)⟩

/-- One party commits `a` and releases the lock; the other acquires it and commits `b`. -/
theorem no_update_lost_sample : ∃ (s : System Bool Half) (t' : Store Half) (entry : Entry Half),
    (openStore (E := Bool) (plainSetup none) (lit "f") true plainDraw).run ⟨s.disk, ∅⟩ [] =
      (.returned, t') ∧ t'.entries.lookup (lit "a") = some entry := by
  obtain ⟨sA, cA, sB, cB, hA, hcA, hB, hcB⟩ := turns_run
  let s₀ : System Bool Half := { disk := ∅ }
  have h₁ : Lts.Run (System.Step (E := Bool) (plainSetup none) (lit "f")) s₀ _ _ :=
    .single (.acquire (i := false) 0 rfl rfl rfl)
  have h₂ := h₁.snoc (.acquired (i := false) 0 rfl rfl rfl)
  have h₃ : Lts.Run (System.Step _ _) s₀ [.acquire false, .tryLock false, .construct false 0] _ :=
    h₂.snoc (.construct (i := false) rfl hA)
  -- a step from where a run ends
  have follow {a s₁} (_ : Lts.Run (System.Step (plainSetup none) (lit "f")) s₀ a s₁) {act s₂}
      (hs : s₁.Step (plainSetup none) (lit "f") act s₂) :
      s₁.Step (plainSetup none) (lit "f") act s₂ := hs
  have hs := follow h₃ (.commit (n := 0) rfl rfl hcA)
  have h₄ := Lts.Run.single (follow (h₃.snoc hs) (.release (i := false) rfl rfl))
  have h₅ := h₄.snoc (.acquire (i := true) 0 rfl rfl rfl)
  have h₆ := h₅.snoc (.acquired (i := true) 0 rfl rfl rfl)
  have h₇ := h₆.snoc (.construct (i := true) rfl hB)
  have h₈ : Lts.Run (System.Step _ _) _ [.release false, .acquire true, .tryLock true,
      .construct true 1,
      .commit 1 (lit "b") .returned] _ := h₇.snoc (.commit (n := 1) rfl rfl hcB)
  have hC := jsonl_readsBack (E := Bool) Half.interp none
  obtain ⟨i, entries, entry, -, -, hload, hopens⟩ := no_update_lost hC
    ⟨rfl, rfl, fun _ => ⟨rfl, rfl, rfl⟩⟩ h₃ hs h₈ (Or.inl fun m k ended hm => by
      simp only [List.mem_cons, reduceCtorEq, false_or, Act.commit.injEq, List.not_mem_nil,
        or_false] at hm
      exact Or.inr hm.1.ge)
  obtain ⟨t', hopen'⟩ := hopens plainDraw
  obtain ⟨e, he, -⟩ := hload _ t' true plainDraw [] rfl hopen'
  exact ⟨_, t', e, hopen', he⟩

/-- Two stores are opened on one new directory, and each commits a key. -/
theorem writers_run : ∃ sA sB cA cB : Store Half,
    (openStore (E := Bool) (plainSetup none) (lit "f") true plainDraw).run ⟨∅, ∅⟩ [] =
      (.returned, sA) ∧
    (openStore (E := Bool) (plainSetup none) (lit "f") true plainDraw).run ⟨sA.disk, ∅⟩ [] =
      (.returned, sB) ∧
    (commit (plainSetup none) (lit "f") (lit "a") (lit "h") plainRecords plainDraw).run
      ⟨sB.disk, sA.entries⟩ [] = (.returned, cA) ∧
    (commit (plainSetup none) (lit "f") (lit "b") (lit "h") plainRecords plainDraw).run
      ⟨cA.disk, sB.entries⟩ [] = (.returned, cB) := by
  obtain ⟨x, y, z, w, rfl, rfl, rfl, rfl, hx, hy, hz, hw⟩ :
      ∃ x y z w : Ended (Exc Half Bool) × Store Half,
      (openStore (plainSetup none) (lit "f") true plainDraw).run ⟨∅, ∅⟩ [] = x ∧
      (openStore (plainSetup none) (lit "f") true plainDraw).run ⟨x.2.disk, ∅⟩ [] = y ∧
      (commit (plainSetup none) (lit "f") (lit "a") (lit "h") plainRecords plainDraw).run
        ⟨y.2.disk, x.2.entries⟩ [] = z ∧
      (commit (plainSetup none) (lit "f") (lit "b") (lit "h") plainRecords plainDraw).run
        ⟨z.2.disk, y.2.entries⟩ [] = w ∧
      x.1 = .returned ∧ y.1 = .returned ∧ z.1 = .returned ∧ w.1 = .returned :=
    ⟨_, _, _, _, rfl, rfl, rfl, rfl, by decide +kernel⟩
  exact ⟨_, _, _, _, run_returned hx, run_returned hy, run_returned hz, run_returned hw⟩

/-- **Two stores under one lock**: both are constructed, the first commits `a`, and the
    second, which does not know it, commits `b`; whoever opens the directory then finds
    no `a`. -/
theorem update_lost : ∃ (s₀ s₁ s₂ s : System Unit Half) (a b : List (Act Unit Half Bool)),
    s₀.Initial ∧ Lts.Run (System.Step (plainSetup none) (lit "f")) s₀ a s₁ ∧
    s₁.Step (plainSetup none) (lit "f") (.commit 0 (lit "a") .returned) s₂ ∧
    Lts.Run (System.Step (plainSetup none) (lit "f")) s₂ b s ∧
    (∃ t', (openStore (E := Bool) (plainSetup none) (lit "f") true plainDraw).run ⟨s.disk, ∅⟩ [] =
      (.returned, t')) ∧
    ∀ (t t' : Store Half) held draw fates, t.disk = s.disk →
      (openStore (E := Bool) (plainSetup none) (lit "f") held draw).run t fates = (.returned, t') →
      t'.entries.lookup (lit "a") = none := by
  have hC := jsonl_readsBack (E := Bool) Half.interp none
  have hfp : NoPair (lit "f") := noPair_lit rfl
  obtain ⟨s₀, s, h₀, hdisk, hstores, halive, hheld, tr, hr⟩ := locked
  obtain ⟨sA, sB, cA, cB, hA, hB, hcA, hcB⟩ := writers_run
  -- the second store has loaded the manifest that the first one wrote for no entries
  obtain ⟨D, hD, hnone⟩ : ∃ D, readEntries (plainSetup none) (lit "f")
      (sA.disk.lookup manifestPath) = some D ∧ ∀ k, D.lookup k = none := by
    cases (open_cases hA).1 with
    | loaded D hD =>
      cases hD
    | wiped _ _ h =>
      obtain ⟨-, b, hb, hm⟩ := h rfl
      obtain ⟨D, hD, hlookup⟩ := readEntries_written hfp (fun _ _ he => by cases he) hb
      exact ⟨D, hm ▸ hD, fun k => by rw [hlookup]; rfl⟩
  have hBentries : sB.entries = D := by
    cases (open_cases hB).1 with
    | loaded D' hD' he _ =>
      rw [he rfl]
      exact Option.some.inj (hD'.symm.trans hD)
    | wiped hnone _ _ =>
      rw [hD] at hnone
      cases hnone
  -- the manifest at the end
  obtain ⟨pub, b, hb, -, hd⟩ := commit_published hcB
  have hm : cB.disk.lookup manifestPath = some (.file b) := by
    rw [hd _ (ne_payloadTmp isTmp_manifest) (ne_manifestTmp isTmp_manifest), if_pos rfl]
  have hok : EntriesOk (sB.entries.insert (lit "b") pub.entry) :=
    EntriesOk.insert (hBentries ▸ (readEntries_ok hD).2) (pub.entryOk hC).2
  obtain ⟨D', hD', hlookup⟩ := readEntries_written hfp hok hb
  have hlost : D'.lookup (lit "a") = none := by
    rw [hlookup, AList.lookup_insert_ne (by decide), hBentries, hnone]
    rfl
  obtain ⟨s₁, hs₁, hdisk₁, hstores₁, hparty₁⟩ := System.Step.construct_next halive hheld
    (hdisk ▸ hA)
  obtain ⟨s₂, hs₂, hdisk₂, hstores₂, hparty₂⟩ := System.Step.construct_next (hparty₁ ▸ halive)
    (hparty₁ ▸ hheld) (hdisk₁ ▸ hB)
  rw [hstores₁, hstores] at hstores₂
  rw [hparty₁] at hparty₂
  obtain ⟨s₃, hs₃, hdisk₃, hstores₃, hparty₃⟩ := System.Step.commit_next (n := 0)
    (hparty₂ ▸ halive) (by rw [hstores₂]; rfl) (hdisk₂ ▸ hcA)
  rw [hstores₂] at hstores₃
  rw [hparty₂] at hparty₃
  obtain ⟨s₄, hs₄, hdisk₄, -⟩ := System.Step.commit_next (n := 1) (hparty₃ ▸ halive)
    (by rw [hstores₃]; rfl) (hdisk₃ ▸ hcB)
  have hm₄ : readEntries (plainSetup none) (lit "f") (s₄.disk.lookup manifestPath) = some D' := by
    rw [hdisk₄, hm, hD']
  refine ⟨s₀, s₂, s₃, s₄, _, _, h₀, (hr.snoc hs₁).snoc hs₂, hs₃, .single hs₄, ?_, ?_⟩
  · obtain ⟨t', hopen, -⟩ := open_returns (E := Bool) (S := plainSetup none) plainDraw
      (s := ⟨s₄.disk, ∅⟩) (by decide) hm₄
    exact ⟨t', hopen⟩
  · intro t t' held draw fates ht hopen
    cases (open_cases hopen).1 with
    | loaded D'' hD'' he _ =>
      rw [ht, hm₄] at hD''
      rw [he rfl, ← Option.some.inj hD'', hlost]
    | wiped hnone' _ _ =>
      rw [ht, hm₄] at hnone'
      cases hnone'

end ResumableBatch
