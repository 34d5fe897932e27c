import DLStorage.Node.Handle

/-!
# Handles over the wire

What a remote handle gets from a replica that answers: the request is built, executed by `dispatch` on the store of
the replica, and the response is decoded.  The versioned answer survives the way through the two response types
except for a tombstone of timestamp `0` or less (`decode_versionedResponse`), so on a store whose timestamps are
positive a remote handle and a local one cannot be told apart but by the result of a set (`handles_transparent`).
-/

namespace DLStorage

variable {V τ : Type}

/-- All timestamps of the store are such as `time_ns` produces. -/
def LocalLWWStore.Stamped (s : LocalLWWStore V τ) : Prop := ∀ k e, s.entry k = some e → 1 ≤ e.ts

/-- An answer that a response can carry. -/
def Versioned.sendable (r : Versioned V) : Bool := !r.isTombstone || decide (0 < r.ts)

/-- The response to a GET on `k` that finds the given version. -/
def versionedResponse (k : String) : Option (Versioned V) → Message V τ
  | none => { type := .notFound, payload := { key := some k, ts := some 0 } }
  | some r =>
    if r.isTombstone then
      { type := .notFound, payload := { key := some k, ts := some r.ts, tombstone := some true } }
    else { type := .ok, payload := { key := some k, value := some r.value, ts := some r.ts } }

/-- Encoding a version into a response and decoding it gives the version back when a response can carry it. -/
theorem decode_versionedResponse (k : String) {r : Option (Versioned V)}
    (h : ∀ x, r = some x → x.isTombstone = true → x.value = none) :
    decodeVersioned (some (versionedResponse (τ := τ) k r)) = r.filter Versioned.sendable := by
  cases r with
  | none => rfl
  | some r =>
    obtain ⟨value, ts, isTombstone⟩ := r
    cases isTombstone with
    | false => rfl
    | true =>
      have hv : value = none := h _ rfl rfl
      subst hv
      by_cases hts : 0 < ts <;>
        simp [versionedResponse, decodeVersioned, Versioned.sendable, Option.filter_some, hts]

theorem Entry.value_of_tombstone {e : Entry V τ} (h : e.version.isTombstone = true) : e.version.value = none := by
  obtain ⟨_ | v, x, ts⟩ := e
  · rfl
  · cases h

variable [LinearOrder τ]

theorem LocalLWWStore.Stamped.sendable {s : LocalLWWStore V τ} (hs : s.Stamped) {now : τ} {k : String}
    {r : Versioned V} (h : s.report now k = some r) : r.sendable = true := by
  obtain ⟨e, he, -, rfl⟩ := LocalLWWStore.report_eq_some_iff.1 h
  have hpos := hs k e he
  unfold Versioned.sendable
  rw [Entry.version_ts, decide_eq_true (by omega), Bool.or_true]

theorem LocalLWWStore.Stamped.filter_report {s : LocalLWWStore V τ} (hs : s.Stamped) (now : τ) (k : String) :
    (s.report now k).filter Versioned.sendable = s.report now k := by
  cases h : s.report now k with
  | none => rfl
  | some r => exact Option.filter_some_pos (hs.sendable h)

variable [Add τ]

/-! ### The three requests -/

section Transact

variable (c : Clock τ) (s : LocalLWWStore V τ)

theorem transact_get (k : String) :
    transact c (getMessage k) s = (some (versionedResponse k (s.getVersioned c k).1), (s.getVersioned c k).2) := by
  simp only [transact, dispatch, getMessage, require, bind, Except.bind]
  cases s.getVersioned c k with
  | mk r s' =>
    cases r with
    | none => rfl
    | some r => cases h : r.isTombstone <;> simp [h, versionedResponse]

theorem transact_set (k : String) (v : PyObj V) (ttl : Option τ) (ts : Int) :
    transact c (setMessage k v ttl ts) s =
      (some { type := .ok, payload := { key := some k } }, (s.set c k v ttl (some ts)).2) := rfl

theorem transact_delete (k : String) (ts : Int) :
    transact c (deleteMessage k ts) s =
      (some { type := if (s.delete c k (some ts)).1 then .ok else .notFound, payload := { key := some k } },
        (s.delete c k (some ts)).2) := by
  have hd : dispatch c (deleteMessage k ts) s =
      if (s.delete c k (some ts)).1 then .ok ({ type := .ok, payload := { key := some k } }, (s.delete c k (some ts)).2)
      else .ok ({ type := .notFound, payload := { key := some k } }, (s.delete c k (some ts)).2) := rfl
  unfold transact
  rw [hd]
  cases (s.delete c k (some ts)).1 <;> rfl

/-- The answer to a GET, decoded. -/
theorem decode_transact_get (k : String) :
    decodeVersioned (transact c (getMessage k) s).1 = (s.report c.monotonic k).filter Versioned.sendable := by
  rw [transact_get, LocalLWWStore.getVersioned_fst]
  apply decode_versionedResponse
  intro r hr ht
  obtain ⟨e, -, -, rfl⟩ := LocalLWWStore.report_eq_some_iff.1 hr
  exact Entry.value_of_tombstone ht

theorem isOk_transact_delete (k : String) (ts : Int) :
    isOk (transact c (deleteMessage k ts) s).1 = (s.delete c k (some ts)).1 := by
  rw [transact_delete]
  cases (s.delete c k (some ts)).1 <;> rfl

end Transact

/-! ### Local and remote handles -/

/-- Two handles give the same answers to reads and deletes on the store and leave it in the same state. -/
structure ReplicaHandle.Matches (a b : ReplicaHandle V τ) (s : LocalLWWStore V τ) : Prop where
  getVersioned : ∀ key, a.getVersioned key s = b.getVersioned key s
  get : ∀ key, a.get key s = b.get key s
  set : ∀ key value ttl ts, (a.set key value ttl ts s).2 = (b.set key value ttl ts s).2
  delete : ∀ key ts, a.delete key ts s = b.delete key ts s

/-- The calls of a remote handle whose pool gets an answer, in terms of the request it makes. -/
theorem networkPool_answers {link : NodeInfo → Link} {n : NodeInfo} (h : link n = .answers) (c : Clock τ)
    (msg : Message V τ) (s : LocalLWWStore V τ) :
    networkPool link n c msg s = (.ok (transact c msg s).1, (transact c msg s).2) := by
  unfold networkPool
  rw [h]

section Remote

variable {link : NodeInfo → Link} {n : NodeInfo} (h : link n = .answers) (c : Clock τ) (s : LocalLWWStore V τ)

include h

theorem remote_getVersioned (k : String) :
    (remoteHandle n c (networkPool link)).getVersioned k s =
      (.ok ((s.report c.monotonic k).filter Versioned.sendable), (s.getVersioned c k).2) := by
  show StoreCall.map decodeVersioned (networkPool link n c (getMessage k)) s = _
  unfold StoreCall.map
  rw [networkPool_answers h, ← decode_transact_get, transact_get]
  rfl

theorem remote_get (k : String) :
    (remoteHandle n c (networkPool link)).get k s =
      (.ok (visible ((s.report c.monotonic k).filter Versioned.sendable)), (s.getVersioned c k).2) := by
  show StoreCall.map (fun resp => visible (decodeVersioned resp)) (networkPool link n c (getMessage k)) s = _
  unfold StoreCall.map
  rw [networkPool_answers h, ← decode_transact_get, transact_get]
  rfl

theorem remote_set (k : String) (v : PyObj V) (ttl : Option τ) (ts : Int) :
    (remoteHandle n c (networkPool link)).set k v ttl ts s = (.ok true, (s.set c k v ttl (some ts)).2) := by
  show StoreCall.map isOk (networkPool link n c (setMessage k v ttl ts)) s = _
  unfold StoreCall.map
  rw [networkPool_answers h, transact_set]
  rfl

theorem remote_delete (k : String) (ts : Int) :
    (remoteHandle n c (networkPool link)).delete k ts s =
      (.ok (s.delete c k (some ts)).1, (s.delete c k (some ts)).2) := by
  show StoreCall.map isOk (networkPool link n c (deleteMessage k ts)) s = _
  unfold StoreCall.map
  rw [networkPool_answers h, ← isOk_transact_delete, transact_delete]
  rfl

end Remote

section Local

variable (n : NodeInfo) (c : Clock τ) (s : LocalLWWStore V τ)

theorem local_getVersioned (k : String) :
    (localHandle n c).getVersioned k s = (.ok (s.report c.monotonic k), (s.getVersioned c k).2) := by
  rw [← LocalLWWStore.getVersioned_fst]
  rfl

theorem local_get (k : String) :
    (localHandle n c).get k s = (.ok (visible (s.report c.monotonic k)), (s.getVersioned c k).2) := by
  show (Except.ok (s.get c k).1, (s.get c k).2) = _
  rw [LocalLWWStore.get_snd, LocalLWWStore.get_fst]
  cases s.report c.monotonic k <;> rfl

theorem local_set (k : String) (v : PyObj V) (ttl : Option τ) (ts : Int) :
    (localHandle n c).set k v ttl ts s = (.ok (s.set c k v ttl (some ts)).1, (s.set c k v ttl (some ts)).2) := rfl

theorem local_delete (k : String) (ts : Int) :
    (localHandle n c).delete k ts s = (.ok (s.delete c k (some ts)).1, (s.delete c k (some ts)).2) := rfl

end Local

/-- A remote handle matches a local one on a store of positive timestamps. -/
private theorem remote_matches_local {link : NodeInfo → Link} {n : NodeInfo} (h : link n = .answers) (c : Clock τ)
    {s : LocalLWWStore V τ} (hs : s.Stamped) :
    (remoteHandle n c (networkPool link)).Matches (localHandle n c) s where
  getVersioned key := by rw [remote_getVersioned h, local_getVersioned, hs.filter_report]
  get key := by rw [remote_get h, local_get, hs.filter_report]
  set key value ttl ts := by rw [remote_set h, local_set]
  delete key ts := by rw [remote_delete h, local_delete]

/-- On a store of positive timestamps it makes no difference to reads, deletes and the state left whether the replica
is local or remote, in both kinds of nodes. -/
theorem handles_transparent {link : NodeInfo → Link} {n : NodeInfo} (h : link n = .answers) (c : Clock τ)
    {s : LocalLWWStore V τ} (hs : s.Stamped) :
    (SyncRemoteHandle n c (networkPool link)).Matches (SyncLocalHandle n c) s ∧
      (AsyncRemoteHandle n c (networkPool link)).Matches (AsyncLocalHandle n c) s :=
  ⟨remote_matches_local h c hs, remote_matches_local h c hs⟩

/-- A store with a live value, an expired one and a tombstone. -/
def mixedStore : LocalLWWStore Nat Int :=
  ⟨⟨[("live", ⟨.value (some 1), none, 1⟩), ("expired", ⟨.value (some 2), some 3, 2⟩), ("gone", ⟨.tombstone, none, 3⟩)],
    by decide⟩⟩

theorem mixedStore_transparent :
    (SyncRemoteHandle ⟨"a", 1⟩ ⟨5, 9⟩ (networkPool fun _ => .answers)).Matches (SyncLocalHandle ⟨"a", 1⟩ ⟨5, 9⟩)
        mixedStore ∧
      (AsyncRemoteHandle ⟨"a", 1⟩ ⟨5, 9⟩ (networkPool fun _ => .answers)).Matches (AsyncLocalHandle ⟨"a", 1⟩ ⟨5, 9⟩)
        mixedStore := by
  refine handles_transparent rfl ⟨5, 9⟩ ?_
  intro k e he
  have hmem := (Base.Dict.mem_items_iff mixedStore.data).2 he
  simp only [mixedStore, List.mem_cons, List.not_mem_nil, or_false, Prod.mk.injEq] at hmem
  rcases hmem with ⟨-, rfl⟩ | ⟨-, rfl⟩ | ⟨-, rfl⟩ <;> decide

end DLStorage
