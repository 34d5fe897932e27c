import DLStorage.ConnectionPool

/-!
# The retry of the queue pools

`ConnectionPool.execute` and `AsyncConnectionPool.execute` send a request again on a new connection whenever it fails on
a connection from the pool, whether or not the peer has executed it.  Time may pass between the two attempts.  A GET, a
SET without ttl or a DELETE may be executed twice without a trace (`transact_transact`), but for one case: the second
DELETE finds the tombstone of the first.
-/

namespace DLStorage

variable {V τ : Type} [LinearOrder τ] [Add τ]

/-- `execute` of either queue pool, from what one try block does; the second attempt comes at the reading `later`. -/
def retrying (attempt : Exchange → Clock τ → LocalLWWStore V τ →
      Except PyError (Option (Message V τ)) × LocalLWWStore V τ)
    (p : Peer) (c later : Clock τ) (s : LocalLWWStore V τ) :
    Except PyError (Option (Message V τ)) × LocalLWWStore V τ :=
  match p.idle, p.fresh with
  | none, none => (.ok none, s)
  | none, some fresh => attempt fresh c s
  | some idle, fresh =>
    match attempt idle c s, fresh with
    | (.ok none, s'), none => (.ok none, s')
    -- pooled connection was stale, so retry once fresh
    | (.ok none, s'), some fresh => attempt fresh later s'
    | result, _ => result

/-- One try block of `ConnectionPool.execute`, with its handler, which catches what `close()` raises. -/
def ConnectionPool.attempt (picklable : Message V τ → Bool) (exchange : Exchange) (c : Clock τ) (msg : Message V τ)
    (s : LocalLWWStore V τ) : Except PyError (Option (Message V τ)) × LocalLWWStore V τ :=
  match exchange with
  | .closeRaises => (.ok none, s)
  | .unsent => (.ok none, s)
  | .unanswered => if !picklable msg then (.ok none, s) else (.ok none, (transact c msg s).2)
  | .answered => if !picklable msg then (.ok none, s) else let (resp, s') := transact c msg s; (.ok resp, s')

def ConnectionPool.execute (picklable : Message V τ → Bool) (p : Peer) (c later : Clock τ) (msg : Message V τ)
    (s : LocalLWWStore V τ) : Except PyError (Option (Message V τ)) × LocalLWWStore V τ :=
  retrying (fun exchange c s => attempt picklable exchange c msg s) p c later s

/-- `AsyncConnectionPool.execute` when time passes between its attempts. -/
def AsyncConnectionPool.executeLater (picklable : Message V τ → Bool) (p : Peer) (c later : Clock τ)
    (msg : Message V τ) (s : LocalLWWStore V τ) : Except PyError (Option (Message V τ)) × LocalLWWStore V τ :=
  retrying (fun exchange c s => attempt picklable exchange c msg s) p c later s

theorem AsyncConnectionPool.execute_eq (picklable : Message V τ → Bool) (p : Peer) (c : Clock τ) (msg : Message V τ)
    (s : LocalLWWStore V τ) : execute picklable p c msg s = executeLater picklable p c c msg s := rfl

/-- A GET, a SET without ttl or a DELETE; a write carries its timestamp. -/
def StampedRequest (msg : Message V τ) : Prop :=
  msg.type = .get ∨ msg.type = .set ∧ msg.payload.ttl = none ∧ msg.payload.ts.isSome = true ∨
    msg.type = .delete ∧ msg.payload.ts.isSome = true

/-- The message deletes a value that the store holds, and that is no newer. -/
def DeletesValue (msg : Message V τ) (s : LocalLWWStore V τ) : Prop :=
  msg.type = .delete ∧ ∃ k ts e, msg.payload.key = some k ∧ msg.payload.ts = some ts ∧ s.entry k = some e ∧
    e.stored.isTombstone = false ∧ e.ts ≤ ts

/-! ### Executing a message twice -/

omit [LinearOrder τ] in
private theorem set_set {k : String} {v : PyObj V} {ts : Int} (c later : Clock τ) (s : LocalLWWStore V τ) :
    ((s.set c k v none (some ts)).2.set later k v none (some ts)).2 = (s.set later k v none (some ts)).2 := by
  simp only [LocalLWWStore.set_eq, Option.map_none, Option.getD_some]
  by_cases h : s.Admits k ts
  · rw [if_pos h]
    simp only
    rw [if_pos (LocalLWWStore.admits_put s k _)]
    exact LocalLWWStore.put_put s k _ _
  · rw [if_neg h]
    simp only
    rw [if_neg h]

omit [LinearOrder τ] [Add τ] in
/-- The second of two deletes finds a tombstone if the first has found a value and has deleted it. -/
private theorem delete_delete {k : String} {ts : Int} (c later : Clock τ) (s : LocalLWWStore V τ) :
    (s.delete c k (some ts)).2.delete later k (some ts) =
      if s.Admits k ts then (false, (s.delete later k (some ts)).2) else s.delete later k (some ts) := by
  simp only [LocalLWWStore.delete_eq, Option.getD_some]
  by_cases h : s.Admits k ts
  · rw [if_pos h, if_pos h, if_pos (LocalLWWStore.admits_put s k _), LocalLWWStore.put_put, LocalLWWStore.entry_put,
      if_pos rfl]
    rfl
  · rw [if_neg h, if_neg h, if_neg h]

private theorem transact_keyless {msg : Message V τ} (hmsg : StampedRequest msg) (hk : msg.payload.key = none)
    (c : Clock τ) (s : LocalLWWStore V τ) : transact c msg s = (none, s) := by
  rcases hmsg with ht | ⟨ht, -⟩ | ⟨ht, -⟩ <;> simp [transact, dispatch, ht, hk, require, bind, Except.bind]

private theorem transact_get_twice {msg : Message V τ} {k : String} (ht : msg.type = .get)
    (hk : msg.payload.key = some k) {c later : Clock τ} (hc : c.monotonic ≤ later.monotonic) (s : LocalLWWStore V τ) :
    transact later msg (transact c msg s).2 = transact later msg s := by
  have hsnd : ∀ (c : Clock τ) (s : LocalLWWStore V τ), (transact c msg s).2 = (s.getVersioned c k).2 := by
    intro c s
    simp only [transact, dispatch, ht, hk, require, bind, Except.bind]
    rcases s.getVersioned c k with ⟨_ | r, s'⟩
    · rfl
    · cases h : r.isTombstone <;> simp [h]
  have hread : ∀ s' : LocalLWWStore V τ, s'.getVersioned later k = s.getVersioned later k →
      transact later msg s' = transact later msg s := by
    intro s' h
    simp only [transact, dispatch, ht, hk, require, bind, Except.bind, h]
    rcases s.getVersioned later k with ⟨_ | r, s''⟩
    · rfl
    · cases h : r.isTombstone <;> simp [h]
  apply hread
  rw [hsnd]
  exact LocalLWWStore.getVersioned_getVersioned s hc k

private theorem transact_set_twice {msg : Message V τ} {k : String} {ts : Int} (ht : msg.type = .set)
    (hk : msg.payload.key = some k) (httl : msg.payload.ttl = none) (hts : msg.payload.ts = some ts)
    (c later : Clock τ) (s : LocalLWWStore V τ) :
    transact later msg (transact c msg s).2 = transact later msg s := by
  cases hv : msg.payload.value with
  | none => simp [transact, dispatch, ht, hk, hv, require, bind, Except.bind]
  | some v =>
    simp only [transact, dispatch, ht, hk, hv, httl, hts, require, bind, Except.bind]
    rw [set_set]

/-- The answer to a DELETE. -/
private def deleted (k : String) (lived : Bool) : Message V τ :=
  { type := if lived then .ok else .notFound, payload := { key := some k } }

private theorem transact_delete_eq {msg : Message V τ} {k : String} {ts : Int} (ht : msg.type = .delete)
    (hk : msg.payload.key = some k) (hts : msg.payload.ts = some ts) (c : Clock τ) (s : LocalLWWStore V τ) :
    transact c msg s = (some (deleted k (s.delete c k (some ts)).1), (s.delete c k (some ts)).2) := by
  simp only [transact, dispatch, ht, hk, hts, require, bind, Except.bind]
  rcases s.delete c k (some ts) with ⟨_ | _, s'⟩ <;> rfl

private theorem transact_delete_twice {msg : Message V τ} {k : String} {ts : Int} (ht : msg.type = .delete)
    (hk : msg.payload.key = some k) (hts : msg.payload.ts = some ts) (c later : Clock τ) (s : LocalLWWStore V τ) :
    transact later msg (transact c msg s).2 = transact later msg s ↔ ¬ DeletesValue msg s := by
  have hvalue : DeletesValue msg s ↔ s.Admits k ts ∧ (s.entry k).any (fun e => !e.stored.isTombstone) = true := by
    constructor
    · rintro ⟨-, k', ts', e, hk', hts', he, htomb, hle⟩
      obtain rfl : k = k' := Option.some.inj (hk.symm.trans hk')
      obtain rfl : ts = ts' := Option.some.inj (hts.symm.trans hts')
      exact ⟨(LocalLWWStore.admits_iff_of_some he).2 hle, by simp [he, htomb]⟩
    · rintro ⟨hadmits, hlived⟩
      obtain ⟨e, he, htomb⟩ := (Option.any_eq_true _ _).1 hlived
      exact ⟨ht, k, ts, e, hk, hts, he, by simpa using htomb, hadmits e he⟩
  have hlived : (s.delete later k (some ts)).1 = (s.entry k).any (fun e => !e.stored.isTombstone) := by
    rw [LocalLWWStore.delete_eq]
  rw [transact_delete_eq ht hk hts, transact_delete_eq ht hk hts, transact_delete_eq ht hk hts, delete_delete, hvalue,
    ← hlived]
  by_cases hadmits : s.Admits k ts
  · rw [if_pos hadmits]
    -- the store is the same, so the answers decide
    cases hfirst : (s.delete later k (some ts)).1 with
    | false => simp [hadmits]
    | true => simp [hadmits, deleted]
  · simp [hadmits]

/-- Executing a message twice is executing it once, unless it deletes a value. -/
theorem transact_transact {msg : Message V τ} (hmsg : StampedRequest msg) {c later : Clock τ}
    (hc : c.monotonic ≤ later.monotonic) (s : LocalLWWStore V τ) :
    transact later msg (transact c msg s).2 = transact later msg s ↔ ¬ DeletesValue msg s := by
  cases hk : msg.payload.key with
  | none =>
    have hno : ¬ DeletesValue msg s := by
      rintro ⟨-, k, ts, e, hkey, -⟩
      rw [hk] at hkey
      cases hkey
    simp only [transact_keyless hmsg hk, hno, not_false_eq_true]
  | some k =>
    rcases hmsg with ht | ⟨ht, httl, hts⟩ | ⟨ht, hts⟩
    · have hno : ¬ DeletesValue msg s := fun h => by cases ht.symm.trans h.1
      exact ⟨fun _ => hno, fun _ => transact_get_twice ht hk hc s⟩
    · have hno : ¬ DeletesValue msg s := fun h => by cases ht.symm.trans h.1
      obtain ⟨ts, hts⟩ := Option.isSome_iff_exists.1 hts
      exact ⟨fun _ => hno, fun _ => transact_set_twice ht hk httl hts c later s⟩
    · obtain ⟨ts, hts⟩ := Option.isSome_iff_exists.1 hts
      exact transact_delete_twice ht hk hts c later s

/-! ### What the caller sees of a retry -/

/-- A pool whose try block, on a message that can be pickled, does what the exchange on its connection comes to. -/
private theorem retrying_eq_iff {attempt : Exchange → Clock τ → LocalLWWStore V τ →
      Except PyError (Option (Message V τ)) × LocalLWWStore V τ} {msg : Message V τ}
    (hunsent : ∀ c s, attempt .unsent c s = (.ok none, s))
    (hunanswered : ∀ c s, attempt .unanswered c s = (.ok none, (transact c msg s).2))
    (hanswered : ∀ c s, attempt .answered c s = (.ok (transact c msg s).1, (transact c msg s).2))
    (hmsg : StampedRequest msg) {first : Exchange} (hfirst : first = .unsent ∨ first = .unanswered) {c later : Clock τ}
    (hc : c.monotonic ≤ later.monotonic) (s : LocalLWWStore V τ) :
    retrying attempt ⟨some first, some .answered⟩ c later s =
        (.ok (transact later msg s).1, (transact later msg s).2) ↔
      ¬ (first = .unanswered ∧ DeletesValue msg s) := by
  rcases hfirst with rfl | rfl
  · simp only [retrying, hunsent, hanswered]
    simp
  · simp only [retrying, hunanswered, hanswered, true_and]
    rw [← transact_transact hmsg hc s, Prod.mk.injEq, Except.ok.injEq]
    exact Prod.ext_iff.symm

/-- When a request fails on a connection from the pool and the new connection answers, the caller and the peer's store
see one execution of the request, unless the peer has executed it twice and it deletes a value. -/
theorem retry_invisible_iff {V τ : Type} [LinearOrder τ] [Add τ] (picklable : Message V τ → Bool) (msg : Message V τ)
    (hpicklable : picklable msg = true) (hmsg : StampedRequest msg) (first : Exchange)
    (hfirst : first = .unsent ∨ first = .unanswered) (c later : Clock τ) (hc : c.monotonic ≤ later.monotonic)
    (s : LocalLWWStore V τ) :
    (ConnectionPool.execute picklable ⟨some first, some .answered⟩ c later msg s =
        (.ok (transact later msg s).1, (transact later msg s).2) ↔
      ¬ (first = .unanswered ∧ DeletesValue msg s)) ∧
    (AsyncConnectionPool.executeLater picklable ⟨some first, some .answered⟩ c later msg s =
        (.ok (transact later msg s).1, (transact later msg s).2) ↔
      ¬ (first = .unanswered ∧ DeletesValue msg s)) := by
  constructor
  · refine retrying_eq_iff ?_ ?_ ?_ hmsg hfirst hc s <;> intro c s <;>
      simp [ConnectionPool.attempt, hpicklable]
  · refine retrying_eq_iff ?_ ?_ ?_ hmsg hfirst hc s <;> intro c s <;>
      simp [AsyncConnectionPool.attempt, hpicklable]

/-- A peer that holds a value for `"k"`. -/
def valueStore : LocalLWWStore Nat Int := LocalLWWStore.empty.put "k" ⟨.value (some 1), none, 1⟩

def deleteRequest : Message Nat Int := { type := .delete, payload := { key := some "k", ts := some 2 } }

def getRequest : Message Nat Int := { type := .get, payload := { key := some "k" } }

theorem get_retried :
    ConnectionPool.execute (fun _ => true) ⟨some .unanswered, some .answered⟩ ⟨0, 0⟩ ⟨5, 0⟩ getRequest valueStore =
      (.ok (transact ⟨5, 0⟩ getRequest valueStore).1, (transact ⟨5, 0⟩ getRequest valueStore).2) :=
  (retry_invisible_iff (fun _ => true) getRequest rfl (Or.inl rfl) .unanswered (Or.inr rfl) ⟨0, 0⟩ ⟨5, 0⟩ (by decide)
    valueStore).1.2 (fun h => by cases h.2.1)

private theorem ne_of_type {a b : Except PyError (Option (Message Nat Int)) × LocalLWWStore Nat Int}
    (h : a.1.toOption.join.map Message.type ≠ b.1.toOption.join.map Message.type) : a ≠ b := by
  rintro rfl
  exact h rfl

/-- The connection fails after the peer has deleted the value, and the caller is told that there was none. -/
theorem delete_retried :
    ConnectionPool.execute (fun _ => true) ⟨some .unanswered, some .answered⟩ ⟨0, 0⟩ ⟨5, 0⟩ deleteRequest valueStore ≠
      (.ok (transact ⟨5, 0⟩ deleteRequest valueStore).1, (transact ⟨5, 0⟩ deleteRequest valueStore).2) ∧
    AsyncConnectionPool.executeLater (fun _ => true) ⟨some .unanswered, some .answered⟩ ⟨0, 0⟩ ⟨5, 0⟩ deleteRequest
        valueStore ≠
      (.ok (transact ⟨5, 0⟩ deleteRequest valueStore).1, (transact ⟨5, 0⟩ deleteRequest valueStore).2) := by
  constructor
  · exact ne_of_type (by decide +kernel)
  · exact ne_of_type (by decide +kernel)

end DLStorage
