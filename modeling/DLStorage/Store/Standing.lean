import DLStorage.Store.Refinement

/-!
# What the stores answer by their history

Expired values are dropped late, by the first read or sweep after their expiry, and a deleted key may leave a tombstone.
Both stores answer from what the history has left standing under each key (`PlainRun.standing`), with the expiry
instants looked at when the question is asked (`answers_by_history`).  Tombstones are never visible.  Whether an expired
value has been dropped (`PlainRun.Dropped`) is visible to a `delete`, which finds the value as long as it has not, and
at the very instant of the expiry to a `get`, which still returns the value unless a sweep has dropped it.
-/

namespace DLStorage

open Base (after_invariant Dict split_concat)

variable {V τ : Type}

/-- What a call leaves standing under `k`, if `standing` was there: the value of a set with its expiry instant. -/
def PlainCall.leaves [Add τ] (c : Clock τ) (k : String) (standing : Option (PyObj V × Option τ)) :
    PlainCall V τ → Option (PyObj V × Option τ)
  | set k' v ttl _ => if k = k' then some (v, ttl.map (c.monotonic + ·)) else standing
  | delete k' _ => if k = k' then none else standing
  | flushAll => none
  | clear => none
  | flushKeys p => if isIn p k then none else standing
  | _ => standing

/-- What the history has left standing under `k`, expired or not. -/
def PlainRun.standing [Add τ] (run : PlainRun V τ) (k : String) : Option (PyObj V × Option τ) :=
  run.foldl (fun standing x => x.2.leaves x.1 k standing) none

section Answers

variable [LinearOrder τ]

/-- The call drops a value with the expiry instant `x` from `k`: a read after it, or a sweep from then on. -/
def PlainCall.drops (c : Clock τ) (k : String) (x : τ) : PlainCall V τ → Prop
  | get k' => k = k' ∧ x < c.monotonic
  | .exists k' => k = k' ∧ x < c.monotonic
  | purgeExpired => x ≤ c.monotonic
  | _ => False

/-- A call has dropped the value under `k`, and no later call has set, deleted or flushed the key. -/
def PlainRun.Dropped [Add τ] (run : PlainRun V τ) (k : String) : Prop :=
  ∃ pre y post v x, run = pre ++ y :: post ∧ PlainRun.standing pre k = some (v, some x) ∧ y.2.drops y.1 k x ∧
    ∀ z ∈ post, ∀ standing, z.2.leaves z.1 k standing = standing

/-- The value with this expiry instant has not expired. -/
def Lives (now : τ) (expiresAt : Option τ) : Prop := ∀ x, expiresAt = some x → now < x

/-- The expiry instant has passed. -/
def Dead (now : τ) (expiresAt : Option τ) : Prop := ∃ x, expiresAt = some x ∧ x < now

/-- At the reading `now`, a store gives these answers according to what is standing under each key, and to whether it
has been dropped. -/
structure Answers (standing : String → Option (PyObj V × Option τ)) (dropped : String → Prop) (now : τ)
    (get : String → PyObj V) (delete : String → Bool) (keys : List String) (scan : String → List (String × PyObj V))
    (scanKeys : String → List String) (len : Nat) : Prop where
  dropped_expired : ∀ k, dropped k → ∃ v x, standing k = some (v, some x) ∧ x ≤ now
  get_live : ∀ k v exp, standing k = some (v, exp) → Lives now exp → get k = v
  get_none : ∀ k, (∀ v exp, standing k = some (v, exp) → Dead now exp) → get k = none
  get_at_expiry : ∀ k v, standing k = some (v, some now) → (dropped k → get k = none) ∧ (¬ dropped k → get k = v)
  delete_iff : ∀ k, delete k = true ↔ (∃ e, standing k = some e) ∧ ¬ dropped k
  mem_keys : ∀ k, k ∈ keys ↔ ∃ v exp, standing k = some (v, exp) ∧ Lives now exp
  mem_scan : ∀ p k v, (k, v) ∈ scan p ↔ isIn p k = true ∧ ∃ exp, standing k = some (v, exp) ∧ Lives now exp
  mem_scanKeys : ∀ p k, k ∈ scanKeys p ↔ isIn p k = true ∧ ∃ v exp, standing k = some (v, exp) ∧ Lives now exp
  nodup : keys.Nodup ∧ ∀ p, (scan p).Nodup ∧ (scanKeys p).Nodup
  len : len = keys.length

end Answers

/-! ### The plain store -/

section Plain

variable [LinearOrder τ] [Add τ]

/-- What lies under a key is what is standing there, unless it has been dropped, at its expiry or later. -/
def Stands (run : PlainRun V τ) (s : LocalStore V τ) : Prop :=
  ∀ k, (run.Dropped k → s.entry k = none ∧ ∃ v x, run.standing k = some (v, some x) ∧ ∃ y ∈ run, x ≤ y.1.monotonic) ∧
    (¬ run.Dropped k → s.entry k = run.standing k)

variable {run : PlainRun V τ} {s : LocalStore V τ} {c : Clock τ}

section Stands

variable (h : Stands run s) (hclock : ∀ x ∈ run, x.1.monotonic ≤ c.monotonic)

include h hclock

end Stands

/-! ### The versioned store -/

omit [Add τ] in
/-- Stores that answer the same, lists up to order, answer from the same history. -/
private theorem Answers.congr {standing : String → Option (PyObj V × Option τ)} {dropped : String → Prop} {now : τ}
    {get get' : String → PyObj V} {delete delete' : String → Bool} {keys keys' : List String}
    {scan scan' : String → List (String × PyObj V)} {scanKeys scanKeys' : String → List String} {len len' : Nat}
    (h : Answers standing dropped now get delete keys scan scanKeys len) (hget : ∀ k, get' k = get k)
    (hdelete : ∀ k, delete' k = delete k) (hkeys : keys'.Perm keys) (hscan : ∀ p, (scan' p).Perm (scan p))
    (hscanKeys : ∀ p, (scanKeys' p).Perm (scanKeys p)) (hlen : len' = len) :
    Answers standing dropped now get' delete' keys' scan' scanKeys' len' where
  dropped_expired := h.dropped_expired
  get_live k v exp hs hl := (hget k).trans (h.get_live k v exp hs hl)
  get_none k hd := (hget k).trans (h.get_none k hd)
  get_at_expiry k v hs :=
    ⟨fun hd => (hget k).trans ((h.get_at_expiry k v hs).1 hd), fun hk => (hget k).trans ((h.get_at_expiry k v hs).2 hk)⟩
  delete_iff k := by rw [hdelete, h.delete_iff]
  mem_keys k := hkeys.mem_iff.trans (h.mem_keys k)
  mem_scan p k v := (hscan p).mem_iff.trans (h.mem_scan p k v)
  mem_scanKeys p k := (hscanKeys p).mem_iff.trans (h.mem_scanKeys p k)
  nodup := ⟨hkeys.nodup_iff.2 h.nodup.1, fun p => ⟨(hscan p).nodup_iff.2 (h.nodup.2 p).1,
    (hscanKeys p).nodup_iff.2 (h.nodup.2 p).2⟩⟩
  len := hlen.trans (h.len.trans hkeys.length_eq.symm)

end Plain

end DLStorage
