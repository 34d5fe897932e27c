import DLStorage.Types
import DLStorage.Base.Dict

/-!
# The last-write-wins store

`LocalLWWStore`: every key holds a value or a tombstone with a timestamp and possibly an expiry instant.  An operation
takes the clock readings it makes and returns its result and the store it leaves.  Each operation is described by its
result and by what it does to the entry of every key (`entry_set`, `entry_delete`, `entry_getVersioned`,
`entry_purgeExpired`); later modules use only these descriptions.
-/

namespace DLStorage

open Base (Dict)

/-- What an entry holds: `_TOMBSTONE` or a value. -/
inductive Stored (V : Type)
  | tombstone
  | value (v : PyObj V)
  deriving DecidableEq

structure Entry (V τ : Type) where
  stored : Stored V
  expiresAt : Option τ
  ts : Int

/-- The answer `(value, ts_ns, is_tombstone)` of `get_versioned`. -/
structure Versioned (V : Type) where
  value : PyObj V
  ts : Int
  isTombstone : Bool
  deriving DecidableEq

structure LocalLWWStore (V τ : Type) where
  data : Dict String (Entry V τ)

variable {V τ : Type}

def Stored.isTombstone : Stored V → Bool
  | tombstone => true
  | value _ => false

/-- `pattern in key`. -/
def isIn (pattern key : String) : Bool := decide (pattern.toList <:+: key.toList)

namespace Entry

/-- The entry as `get_versioned` reports it. -/
def version (e : Entry V τ) : Versioned V :=
  match e.stored with
  | .tombstone => ⟨none, e.ts, true⟩
  | .value v => ⟨v, e.ts, false⟩

@[simp] theorem version_ts (e : Entry V τ) : e.version.ts = e.ts := by
  unfold version
  split <;> rfl

@[simp] theorem version_isTombstone (e : Entry V τ) : e.version.isTombstone = e.stored.isTombstone := by
  unfold version
  cases e.stored <;> rfl

variable [LinearOrder τ]

/-- The test of `get_versioned`: a value whose expiry instant has passed. -/
def readExpired (e : Entry V τ) (now : τ) : Bool :=
  !e.stored.isTombstone && e.expiresAt.any (fun x => decide (x < now))

/-- The test of `keys`, `scan` and `scan_keys`: a value whose expiry instant, if any, is still ahead. -/
def listed (e : Entry V τ) (now : τ) : Bool :=
  !e.stored.isTombstone && e.expiresAt.all (fun x => decide (now < x))

/-- The test of `purge_expired`: a value whose expiry instant has been reached. -/
def sweepable (e : Entry V τ) (now : τ) : Bool :=
  !e.stored.isTombstone && e.expiresAt.any (fun x => decide (x ≤ now))

theorem sweepable_of_readExpired {e : Entry V τ} {now : τ} (h : e.readExpired now = true) : e.sweepable now = true := by
  obtain ⟨s, x, ts⟩ := e
  cases x with
  | none => simp [readExpired] at h
  | some x =>
    simp only [readExpired, sweepable, Option.any_some, Bool.and_eq_true, decide_eq_true_eq] at h ⊢
    exact ⟨h.1, le_of_lt h.2⟩

theorem readExpired_mono {e : Entry V τ} {now later : τ} (hle : now ≤ later) (h : e.readExpired now = true) :
    e.readExpired later = true := by
  obtain ⟨s, x, ts⟩ := e
  cases x with
  | none => simp [readExpired] at h
  | some x =>
    simp only [readExpired, Option.any_some, Bool.and_eq_true, decide_eq_true_eq] at h ⊢
    exact ⟨h.1, lt_of_lt_of_le h.2 hle⟩

theorem expiresAt_of_sweepable {e : Entry V τ} {now : τ} (h : e.sweepable now = true) :
    ∃ x, e.expiresAt = some x ∧ x ≤ now := by
  obtain ⟨s, x, ts⟩ := e
  cases x with
  | none => simp [sweepable] at h
  | some x =>
    simp only [sweepable, Option.any_some, Bool.and_eq_true, decide_eq_true_eq] at h
    exact ⟨x, rfl, h.2⟩

end Entry

namespace LocalLWWStore

def empty : LocalLWWStore V τ := ⟨Dict.empty⟩

/-- `self._data.get(key)`. -/
def entry (s : LocalLWWStore V τ) (key : String) : Option (Entry V τ) := s.data.get key

/-- `self._data[key] = e`. -/
def put (s : LocalLWWStore V τ) (key : String) (e : Entry V τ) : LocalLWWStore V τ := ⟨s.data.set key e⟩

section Operations

variable [LinearOrder τ] [Add τ] (s : LocalLWWStore V τ) (c : Clock τ)

def set (key : String) (value : PyObj V) (ttl : Option τ) (ts : Option Int) : Bool × LocalLWWStore V τ :=
  let ts := ts.getD c.timeNs
  let expiresAt := ttl.map (c.monotonic + ·)
  match s.entry key with
  | some existing =>
    if existing.ts > ts then (false, s) -- newer write already present, so discard
    else (true, s.put key ⟨.value value, expiresAt, ts⟩)
  | none => (true, s.put key ⟨.value value, expiresAt, ts⟩)

def getVersioned (key : String) : Option (Versioned V) × LocalLWWStore V τ :=
  match s.entry key with
  | none => (none, s)
  | some e =>
    match e.stored with
    | .tombstone => (some ⟨none, e.ts, true⟩, s)
    | .value v =>
      -- an expired entry is removed together with its timestamp
      if e.expiresAt.any (fun x => decide (x < c.monotonic)) then (none, ⟨s.data.del key⟩)
      else (some ⟨v, e.ts, false⟩, s)

def get (key : String) : PyObj V × LocalLWWStore V τ :=
  match s.getVersioned c key with
  | (none, s') => (none, s')
  | (some r, s') => (if r.isTombstone then none else r.value, s')

def delete (key : String) (ts : Option Int) : Bool × LocalLWWStore V τ :=
  let ts := ts.getD c.timeNs
  match s.entry key with
  | some existing =>
    -- the result tells of the entry that was found, also when that stays
    let lived := !existing.stored.isTombstone
    if existing.ts ≤ ts then (lived, s.put key ⟨.tombstone, none, ts⟩) else (lived, s)
  | none => (false, s.put key ⟨.tombstone, none, ts⟩)

def «exists» (key : String) : Bool × LocalLWWStore V τ :=
  let (r, s') := s.get c key
  (r.isSome, s')

def keys : List String :=
  (s.data.items.filter (fun p => p.2.listed c.monotonic)).map Prod.fst

def scan (pattern : String) : List (String × PyObj V) :=
  (s.data.items.filter (fun p => isIn pattern p.1 && p.2.listed c.monotonic)).map
    (fun p => (p.1, p.2.version.value))

def scanKeys (pattern : String) : List String :=
  (s.data.items.filter (fun p => isIn pattern p.1 && p.2.listed c.monotonic)).map Prod.fst

def flushAll : LocalLWWStore V τ := empty

def flushKeys (pattern : String) : Nat × LocalLWWStore V τ :=
  let toDelete := (s.data.items.filter (fun p => isIn pattern p.1)).map Prod.fst
  (toDelete.length, ⟨s.data.delAll toDelete⟩)

def clear : LocalLWWStore V τ := empty

def purgeExpired : Nat × LocalLWWStore V τ :=
  let expired := (s.data.items.filter (fun p => p.2.sweepable c.monotonic)).map Prod.fst
  (expired.length, ⟨s.data.delAll expired⟩)

def len : Nat := (s.keys c).length

end Operations

/-! ### What the operations answer and do to the entries -/

@[simp] theorem entry_empty (k : String) : (empty : LocalLWWStore V τ).entry k = none := rfl

theorem entry_put (s : LocalLWWStore V τ) (k x : String) (e : Entry V τ) :
    (s.put k e).entry x = if x = k then some e else s.entry x :=
  Dict.get_set s.data k x e

theorem put_put (s : LocalLWWStore V τ) (k : String) (e e' : Entry V τ) : (s.put k e).put k e' = s.put k e' :=
  congrArg LocalLWWStore.mk (Dict.set_set s.data k e e')

/-- The store holds nothing newer than `ts` for `k`: the test that `set` and `delete` make. -/
def Admits (s : LocalLWWStore V τ) (k : String) (ts : Int) : Prop := ∀ e, s.entry k = some e → e.ts ≤ ts

instance (s : LocalLWWStore V τ) (k : String) (ts : Int) : Decidable (s.Admits k ts) :=
  match h : s.entry k with
  | none => isTrue (fun e he => by rw [h] at he; cases he)
  | some e =>
    if he : e.ts ≤ ts then isTrue (fun e' he' => by rw [h] at he'; cases he'; exact he)
    else isFalse (fun hs => he (hs e h))

theorem admits_of_none {s : LocalLWWStore V τ} {k : String} {ts : Int} (h : s.entry k = none) : s.Admits k ts := by
  intro e he
  rw [h] at he
  cases he

theorem admits_iff_of_some {s : LocalLWWStore V τ} {k : String} {ts : Int} {e : Entry V τ}
    (h : s.entry k = some e) : s.Admits k ts ↔ e.ts ≤ ts := by
  constructor
  · intro hs; exact hs e h
  · intro he e' he'
    rw [h] at he'
    cases he'
    exact he

theorem set_eq [Add τ] (s : LocalLWWStore V τ) (c : Clock τ) (k : String) (v : PyObj V) (ttl : Option τ)
    (ts : Option Int) :
    s.set c k v ttl ts =
      if s.Admits k (ts.getD c.timeNs) then
        (true, s.put k ⟨.value v, ttl.map (c.monotonic + ·), ts.getD c.timeNs⟩)
      else (false, s) := by
  unfold set
  cases h : s.entry k with
  | none => simp [admits_of_none h]
  | some e =>
    simp only [admits_iff_of_some h, gt_iff_lt]
    by_cases he : e.ts ≤ ts.getD c.timeNs
    · rw [if_neg (not_lt.2 he), if_pos he]
    · rw [if_pos (not_le.1 he), if_neg he]

theorem delete_eq (s : LocalLWWStore V τ) (c : Clock τ) (k : String) (ts : Option Int) :
    s.delete c k ts =
      ((s.entry k).any (fun e => !e.stored.isTombstone),
        if s.Admits k (ts.getD c.timeNs) then s.put k ⟨.tombstone, none, ts.getD c.timeNs⟩ else s) := by
  unfold delete
  cases h : s.entry k with
  | none => simp [admits_of_none h]
  | some e =>
    simp only [admits_iff_of_some h, Option.any_some]
    split <;> rfl

theorem set_fst [Add τ] (s : LocalLWWStore V τ) (c : Clock τ) (k : String) (v : PyObj V) (ttl : Option τ)
    (ts : Option Int) : (s.set c k v ttl ts).1 = decide (s.Admits k (ts.getD c.timeNs)) := by
  rw [set_eq]
  split <;> simp [*]

theorem entry_set [Add τ] (s : LocalLWWStore V τ) (c : Clock τ) (k x : String) (v : PyObj V) (ttl : Option τ)
    (ts : Option Int) :
    (s.set c k v ttl ts).2.entry x =
      if x = k ∧ s.Admits k (ts.getD c.timeNs) then
        some ⟨.value v, ttl.map (c.monotonic + ·), ts.getD c.timeNs⟩
      else s.entry x := by
  rw [set_eq]
  by_cases h : s.Admits k (ts.getD c.timeNs) <;> simp [h, entry_put]

theorem entry_delete (s : LocalLWWStore V τ) (c : Clock τ) (k x : String) (ts : Option Int) :
    (s.delete c k ts).2.entry x =
      if x = k ∧ s.Admits k (ts.getD c.timeNs) then some ⟨.tombstone, none, ts.getD c.timeNs⟩
      else s.entry x := by
  rw [delete_eq]
  by_cases h : s.Admits k (ts.getD c.timeNs) <;> simp [h, entry_put]

/-- A store admits again the timestamp that it has just stored. -/
theorem admits_put (s : LocalLWWStore V τ) (k : String) (e : Entry V τ) : (s.put k e).Admits k e.ts := by
  intro e' he'
  rw [entry_put, if_pos rfl, Option.some.injEq] at he'
  rw [he']

theorem entry_flushKeys (s : LocalLWWStore V τ) (pattern x : String) :
    (s.flushKeys pattern).2.entry x = (s.entry x).filter (fun _ => !isIn pattern x) :=
  Dict.get_delAll_filter s.data (fun p => isIn pattern p.1) x

variable [LinearOrder τ]

theorem getVersioned_eq (s : LocalLWWStore V τ) (c : Clock τ) (k : String) :
    s.getVersioned c k =
      match s.entry k with
      | none => (none, s)
      | some e => if e.readExpired c.monotonic then (none, ⟨s.data.del k⟩) else (some e.version, s) := by
  unfold getVersioned
  cases h : s.entry k with
  | none => rfl
  | some e =>
    obtain ⟨_ | v, x, ts⟩ := e
    · rfl
    · simp only [Entry.readExpired, Stored.isTombstone, Bool.not_false, Bool.true_and]
      split <;> rfl

/-- The version of `k` that the store reports at `now`. -/
def report (s : LocalLWWStore V τ) (now : τ) (k : String) : Option (Versioned V) :=
  ((s.entry k).filter (fun e => !e.readExpired now)).map Entry.version

theorem report_eq_some_iff {s : LocalLWWStore V τ} {now : τ} {k : String} {r : Versioned V} :
    s.report now k = some r ↔ ∃ e, s.entry k = some e ∧ e.readExpired now = false ∧ e.version = r := by
  rw [report, Option.map_eq_some_iff]
  constructor
  · rintro ⟨e, he, rfl⟩
    obtain ⟨he, hx⟩ := Option.filter_eq_some_iff.1 he
    exact ⟨e, he, by simpa using hx, rfl⟩
  · rintro ⟨e, he, hx, rfl⟩
    exact ⟨e, Option.filter_eq_some_iff.2 ⟨he, by simpa using hx⟩, rfl⟩

theorem getVersioned_fst (s : LocalLWWStore V τ) (c : Clock τ) (k : String) :
    (s.getVersioned c k).1 = s.report c.monotonic k := by
  rw [getVersioned_eq, report]
  cases s.entry k with
  | none => rfl
  | some e => by_cases h : e.readExpired c.monotonic = true <;> simp [h, Option.filter_some]

theorem entry_getVersioned (s : LocalLWWStore V τ) (c : Clock τ) (k x : String) :
    (s.getVersioned c k).2.entry x =
      if x = k then (s.entry k).filter (fun e => !e.readExpired c.monotonic) else s.entry x := by
  rw [getVersioned_eq]
  by_cases hx : x = k
  · subst hx
    rw [if_pos rfl]
    cases h : s.entry x with
    | none => exact h
    | some e =>
      by_cases he : e.readExpired c.monotonic = true
      · simp only [he, if_true]
        rw [Option.filter_some_neg (by simpa using he)]
        exact Dict.get_del_self s.data x
      · simp only [he]
        rw [Option.filter_some_pos (by simpa using he)]
        exact h
  · rw [if_neg hx]
    cases s.entry k with
    | none => rfl
    | some e =>
      by_cases he : e.readExpired c.monotonic = true
      · simp only [he, if_true]
        exact Dict.get_del_of_ne s.data hx
      · simp [he]

/-- A read that comes after another one answers as if it had been alone. -/
theorem getVersioned_getVersioned (s : LocalLWWStore V τ) {c c' : Clock τ} (hc : c.monotonic ≤ c'.monotonic)
    (k : String) : (s.getVersioned c k).2.getVersioned c' k = s.getVersioned c' k := by
  cases h : s.entry k with
  | none => simp only [getVersioned_eq, h]
  | some e =>
    by_cases he : e.readExpired c.monotonic = true
    · -- the first read has removed the entry, and the second would have
      have he' : e.readExpired c'.monotonic = true := Entry.readExpired_mono hc he
      have hgone : (⟨s.data.del k⟩ : LocalLWWStore V τ).entry k = none := Dict.get_del_self s.data k
      have hfirst : s.getVersioned c k = (none, ⟨s.data.del k⟩) := by simp only [getVersioned_eq, h, he, if_true]
      have hsecond : s.getVersioned c' k = (none, ⟨s.data.del k⟩) := by simp only [getVersioned_eq, h, he', if_true]
      rw [hfirst, hsecond, getVersioned_eq, hgone]
    · have hfirst : (s.getVersioned c k).2 = s := by simp [getVersioned_eq, h, he]
      rw [hfirst]

theorem get_fst (s : LocalLWWStore V τ) (c : Clock τ) (k : String) :
    (s.get c k).1 = (s.report c.monotonic k).bind (fun r => if r.isTombstone then none else r.value) := by
  rw [← getVersioned_fst, get]
  cases h : s.getVersioned c k with
  | mk r s' => cases r <;> rfl

theorem get_snd (s : LocalLWWStore V τ) (c : Clock τ) (k : String) :
    (s.get c k).2 = (s.getVersioned c k).2 := by
  rw [get]
  cases h : s.getVersioned c k with
  | mk r s' => cases r <;> rfl

theorem exists_snd (s : LocalLWWStore V τ) (c : Clock τ) (k : String) :
    (s.exists c k).2 = (s.getVersioned c k).2 := get_snd s c k

theorem entry_purgeExpired (s : LocalLWWStore V τ) (c : Clock τ) (x : String) :
    (s.purgeExpired c).2.entry x = (s.entry x).filter (fun e => !e.sweepable c.monotonic) :=
  Dict.get_delAll_filter s.data (fun p => p.2.sweepable c.monotonic) x

/-! ### Eviction -/

omit [LinearOrder τ] in
/-- A filter keeps what an option holds, or drops it. -/
theorem filter_eq_or_none {α : Type} (o : Option α) (p : α → Bool) :
    o.filter (fun a => !p a) = o ∨ (o.filter (fun a => !p a) = none ∧ ∃ a, o = some a ∧ p a = true) := by
  cases o with
  | none => exact Or.inl rfl
  | some a =>
    cases h : p a with
    | false => exact Or.inl (Option.filter_some_pos (by simp [h]))
    | true => exact Or.inr ⟨Option.filter_some_neg (by simp [h]), a, rfl, h⟩

/-- An entry is left alone, or dropped because it has expired at `now`. -/
def Evicts (now : τ) (o o' : Option (Entry V τ)) : Prop :=
  o' = o ∨ (o' = none ∧ ∃ e, o = some e ∧ e.sweepable now = true)

theorem evicts_filter {now : τ} {p : Entry V τ → Bool} (hp : ∀ e, p e = true → e.sweepable now = true)
    (o : Option (Entry V τ)) : Evicts now o (o.filter (fun e => !p e)) := by
  rcases filter_eq_or_none o p with h | ⟨h, e, he, hpe⟩
  · exact Or.inl h
  · exact Or.inr ⟨h, e, he, hp e hpe⟩

theorem evicts_getVersioned (s : LocalLWWStore V τ) (c : Clock τ) (k x : String) :
    Evicts c.monotonic (s.entry x) ((s.getVersioned c k).2.entry x) := by
  rw [entry_getVersioned]
  split
  · rename_i hx
    rw [hx]
    exact evicts_filter (fun e => Entry.sweepable_of_readExpired) (s.entry k)
  · exact Or.inl rfl

theorem evicts_purgeExpired (s : LocalLWWStore V τ) (c : Clock τ) (x : String) :
    Evicts c.monotonic (s.entry x) ((s.purgeExpired c).2.entry x) := by
  rw [entry_purgeExpired]
  exact evicts_filter (fun e he => he) (s.entry x)

/-- An entry without an expiry instant is not evicted. -/
theorem Evicts.eq_of_permanent {now : τ} {o o' : Option (Entry V τ)} (h : Evicts now o o')
    (hp : ∀ e, o = some e → e.expiresAt = none) : o' = o := by
  rcases h with h | ⟨-, e, he, hs⟩
  · exact h
  · obtain ⟨x, hx, -⟩ := Entry.expiresAt_of_sweepable hs
    exact absurd (hx.symm.trans (hp e he)) (by simp)

end LocalLWWStore

end DLStorage
