import DLStorage.Store.Run

/-!
# The plain store

`LocalStore`: every key holds a value and possibly an expiry instant; a deleted key is gone.  Its operations are given
like those of `LocalLWWStore`, and a call of the common interface as an event that either kind of store can execute.
-/

namespace DLStorage

open Base (Dict after)

structure LocalStore (V τ : Type) where
  data : Dict String (PyObj V × Option τ)

variable {V τ : Type}

namespace LocalStore

def empty : LocalStore V τ := ⟨Dict.empty⟩

/-- `self._data.get(key)`. -/
def entry (s : LocalStore V τ) (key : String) : Option (PyObj V × Option τ) := s.data.get key

variable [LinearOrder τ] [Add τ] (s : LocalStore V τ) (c : Clock τ)

def set (key : String) (value : PyObj V) (ttl : Option τ) : Bool × LocalStore V τ :=
  let expiresAt := ttl.map (c.monotonic + ·)
  (true, ⟨s.data.set key (value, expiresAt)⟩)

def get (key : String) : PyObj V × LocalStore V τ :=
  match s.entry key with
  | none => (none, s)
  | some (value, expiresAt) =>
    if expiresAt.any (fun x => decide (x < c.monotonic)) then (none, ⟨s.data.del key⟩) else (value, s)

/-- `pop` takes whatever lies under the key, expired or not. -/
def delete (key : String) : Bool × LocalStore V τ := ((s.entry key).isSome, ⟨s.data.del key⟩)

def «exists» (key : String) : Bool × LocalStore V τ :=
  let (v, s') := s.get c key
  (v.isSome, s')

/-- `exp is None or exp > now`. -/
def listed (now : τ) (e : PyObj V × Option τ) : Bool := e.2.all (fun x => decide (now < x))

/-- `exp is not None and exp <= now`. -/
def sweepable (now : τ) (e : PyObj V × Option τ) : Bool := e.2.any (fun x => decide (x ≤ now))

def keys : List String := (s.data.items.filter (fun p => listed c.monotonic p.2)).map Prod.fst

def scan (pattern : String) : List (String × PyObj V) :=
  (s.data.items.filter (fun p => isIn pattern p.1 && listed c.monotonic p.2)).map (fun p => (p.1, p.2.1))

def scanKeys (pattern : String) : List String :=
  (s.data.items.filter (fun p => isIn pattern p.1 && listed c.monotonic p.2)).map Prod.fst

def flushAll : LocalStore V τ := empty

def flushKeys (pattern : String) : Nat × LocalStore V τ :=
  let toDelete := (s.data.items.filter (fun p => isIn pattern p.1)).map Prod.fst
  (toDelete.length, ⟨s.data.delAll toDelete⟩)

def clear : LocalStore V τ := empty

def purgeExpired : Nat × LocalStore V τ :=
  let expired := (s.data.items.filter (fun p => sweepable c.monotonic p.2)).map Prod.fst
  (expired.length, ⟨s.data.delAll expired⟩)

def len : Nat := (s.keys c).length

end LocalStore

/-- A call of the interface `Store` and of `exists`, with the `ts` among the keyword arguments of `set` and `delete`. -/
inductive PlainCall (V τ : Type)
  | set (key : String) (value : PyObj V) (ttl : Option τ) (ts : Option Int)
  | get (key : String)
  | delete (key : String) (ts : Option Int)
  | exists (key : String)
  | keys
  | scan (pattern : String)
  | scanKeys (pattern : String)
  | flushAll
  | flushKeys (pattern : String)
  | clear
  | purgeExpired
  | len

namespace PlainCall

/-- The call, made on a `LocalLWWStore`. -/
def versioned : PlainCall V τ → StoreOp V τ
  | set k v ttl ts => .set k v ttl ts
  | get k => .get k
  | delete k ts => .delete k ts
  | .exists k => .exists k
  | keys => .keys
  | scan p => .scan p
  | scanKeys p => .scanKeys p
  | flushAll => .flushAll
  | flushKeys p => .flushKeys p
  | clear => .clear
  | purgeExpired => .purgeExpired
  | len => .len

def isFlushKeys : PlainCall V τ → Bool
  | flushKeys _ => true
  | _ => false

/-- The timestamp that the call gives to a `LocalLWWStore`. -/
def stamp (c : Clock τ) : PlainCall V τ → Option Int
  | set _ _ _ ts => some (ts.getD c.timeNs)
  | delete _ ts => some (ts.getD c.timeNs)
  | _ => none

variable [LinearOrder τ] [Add τ]

/-- The call, made on a `LocalStore`, which does not look at `ts`. -/
def apply (c : Clock τ) (s : LocalStore V τ) : PlainCall V τ → StoreResult V × LocalStore V τ
  | set k v ttl _ => let (b, s') := s.set c k v ttl; (.bool b, s')
  | get k => let (v, s') := s.get c k; (.obj v, s')
  | delete k _ => let (b, s') := s.delete k; (.bool b, s')
  | .exists k => let (b, s') := s.exists c k; (.bool b, s')
  | keys => (.keys (s.keys c), s)
  | scan p => (.items (s.scan c p), s)
  | scanKeys p => (.keys (s.scanKeys c p), s)
  | flushAll => (.none, LocalStore.flushAll)
  | flushKeys p => let (n, s') := s.flushKeys p; (.count n, s')
  | clear => (.none, LocalStore.clear)
  | purgeExpired => let (n, s') := s.purgeExpired c; (.count n, s')
  | len => (.count (s.len c), s)

end PlainCall

/-- A run of calls with their clock readings. -/
abbrev PlainRun (V τ : Type) := List (Clock τ × PlainCall V τ)

/-- The same calls, made on a `LocalLWWStore`. -/
def PlainRun.versioned (run : PlainRun V τ) : StoreRun V τ := run.map (fun x => (x.1, x.2.versioned))

/-- The timestamps given to a `LocalLWWStore` never decrease along the run. -/
def PlainRun.StampsMonotone (run : PlainRun V τ) : Prop :=
  run.Pairwise (fun x y => ∀ t ∈ x.2.stamp x.1, ∀ t' ∈ y.2.stamp y.1, t ≤ t')

/-- The `LocalStore` after a run that starts from a new one. -/
def plainAfter [LinearOrder τ] [Add τ] (run : PlainRun V τ) : LocalStore V τ :=
  after (fun s (x : Clock τ × PlainCall V τ) => (x.2.apply x.1 s).2) LocalStore.empty run

/-! ### What the operations do to the entries -/

namespace LocalStore

@[simp] theorem entry_empty (k : String) : (empty : LocalStore V τ).entry k = none := rfl

theorem entry_set [Add τ] (s : LocalStore V τ) (c : Clock τ) (k x : String) (v : PyObj V) (ttl : Option τ) :
    (s.set c k v ttl).2.entry x = if x = k then some (v, ttl.map (c.monotonic + ·)) else s.entry x :=
  Dict.get_set s.data k x _

theorem entry_delete (s : LocalStore V τ) (k x : String) :
    (s.delete k).2.entry x = if x = k then none else s.entry x :=
  Dict.get_del s.data k x

theorem entry_flushKeys (s : LocalStore V τ) (pattern x : String) :
    (s.flushKeys pattern).2.entry x = (s.entry x).filter (fun _ => !isIn pattern x) :=
  Dict.get_delAll_filter s.data (fun p => isIn pattern p.1) x

variable [LinearOrder τ]

theorem entry_purgeExpired (s : LocalStore V τ) (c : Clock τ) (x : String) :
    (s.purgeExpired c).2.entry x = (s.entry x).filter (fun e => !sweepable c.monotonic e) :=
  Dict.get_delAll_filter s.data (fun p => sweepable c.monotonic p.2) x

theorem get_fst (s : LocalStore V τ) (c : Clock τ) (k : String) :
    (s.get c k).1 = ((s.entry k).filter (fun e => !e.2.any (fun x => decide (x < c.monotonic)))).bind Prod.fst := by
  unfold get
  cases s.entry k with
  | none => rfl
  | some e =>
    obtain ⟨v, exp⟩ := e
    by_cases h : exp.any (fun x => decide (x < c.monotonic)) = true <;> simp [h, Option.filter_some]

theorem entry_get (s : LocalStore V τ) (c : Clock τ) (k x : String) :
    (s.get c k).2.entry x =
      if x = k then (s.entry k).filter (fun e => !e.2.any (fun x => decide (x < c.monotonic))) else s.entry x := by
  unfold get
  by_cases hx : x = k
  · subst hx
    rw [if_pos rfl]
    cases hs : s.entry x with
    | none => exact hs
    | some e =>
      obtain ⟨v, exp⟩ := e
      by_cases h : exp.any (fun x => decide (x < c.monotonic)) = true
      · simp only [h, if_true]
        rw [Option.filter_some_neg (by simpa using h)]
        exact Dict.get_del_self s.data x
      · simp only [h]
        rw [Option.filter_some_pos (by simpa using h)]
        exact hs
  · rw [if_neg hx]
    cases s.entry k with
    | none => rfl
    | some e =>
      obtain ⟨v, exp⟩ := e
      by_cases h : exp.any (fun x => decide (x < c.monotonic)) = true
      · simp only [h, if_true]
        exact Dict.get_del_of_ne s.data hx
      · simp [h]

end LocalStore

end DLStorage
