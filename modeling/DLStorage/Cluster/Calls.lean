import DLStorage.Node.Writes
import DLStorage.Store.Writes

/-!
# Calls in a cluster where everyone answers

Nodes of both kinds issue sets, deletes and gets one after the other, all with the same ring, and every replica sweeps
now and then.  `ClusterEvent.entry_apply` says what an event does to the entry of a key at a replica.
-/

namespace DLStorage

open Base (Schedule)

variable {V τ : Type}

/-- The kind of the node that issues a call; the calls of an async node run in the order of some schedule. -/
inductive NodeKind (V τ : Type)
  | blocking
  | async (read : Schedule NodeInfo (LocalLWWStore V τ) PyError (Option (Versioned V)))
      (write : Schedule NodeInfo (LocalLWWStore V τ) PyError Bool)

/-- A call with the node that issues it and the readings it takes on all nodes, or a sweep of one replica. -/
inductive ClusterEvent (V τ : Type)
  | get (issuer : NodeInfo) (kind : NodeKind V τ) (clock : NodeInfo → Clock τ) (key : String)
  | set (issuer : NodeInfo) (kind : NodeKind V τ) (clock : NodeInfo → Clock τ) (key : String) (value : PyObj V)
      (ttl : Option τ)
  | delete (issuer : NodeInfo) (kind : NodeKind V τ) (clock : NodeInfo → Clock τ) (key : String)
  | purge (n : NodeInfo) (c : Clock τ)

/-- Every replica answers. -/
def allAnswer : NodeInfo → Link := fun _ => .answers

variable [LinearOrder τ] [Add τ]

namespace NodeKind

variable (sha256 : String → List UInt8) (view : NodeView) (clock : NodeInfo → Clock τ) (key : String)
  (stores : Stores V τ)

/-- `get` of a node of this kind. -/
def get (link : NodeInfo → Link) : NodeKind V τ → PyObj V × Stores V τ
  | blocking => (view.sync link).get sha256 clock key stores
  | async read _ => (view.async link read).get sha256 clock key stores

/-- The stores after `set` of a node of this kind. -/
def afterSet (value : PyObj V) (ttl : Option τ) : NodeKind V τ → Stores V τ
  | blocking => ((view.sync allAnswer).set sha256 clock key value ttl stores).2
  | async read write => ((view.async allAnswer read).set sha256 clock write key value ttl stores).2

/-- The stores after `delete` of a node of this kind. -/
def afterDelete : NodeKind V τ → Stores V τ
  | blocking => ((view.sync allAnswer).delete sha256 clock key stores).2
  | async read write => ((view.async allAnswer read).delete sha256 clock write key stores).2

end NodeKind

/-! ### A write applied at all replicas -/

section Write

variable (sha256 : String → List UInt8) (view : NodeView) (clock : NodeInfo → Clock τ) (stores : Stores V τ)

/-- The stores after a write has reached every replica. -/
def NodeView.applyWrite (w : Write V τ) : Stores V τ := fun n =>
  if n ∈ view.replicas sha256 w.key then (w.apply (clock n) (stores n)).2 else stores n

/-- A call that the local handle and every reachable remote handle carry out reaches a replica. -/
private theorem replicaCall_all {call : ReplicaHandle V τ → Int → StoreCall V τ Bool} {w : Write V τ} {n : NodeInfo}
    {s : LocalLWWStore V τ}
    (hlocal : ∃ b, call (SyncLocalHandle n (clock n)) (clock view.info).timeNs s = (.ok b, (w.apply (clock n) s).2))
    (hremote : ∃ b, call (remoteHandle n (clock n) (networkPool allAnswer)) (clock view.info).timeNs s =
      (.ok b, (w.apply (clock n) s).2)) :
    ∃ b, (view.sync allAnswer).replicaCall clock call n s = (.ok b, (w.apply (clock n) s).2) := by
  unfold StorageNode.replicaCall
  by_cases hn : n = view.info
  · subst hn
    rw [NodeView.handle_sync_self]
    exact hlocal
  · rw [NodeView.handle_sync_of_ne _ _ hn]
    exact hremote

private theorem set_replicaCall_all (key : String) (value : PyObj V) (ttl : Option τ) (n : NodeInfo)
    (s : LocalLWWStore V τ) : ∃ b,
    (view.sync allAnswer).replicaCall clock (fun h ts => h.set key value ttl ts) n s =
      (.ok b, ((Write.set key value ttl (clock view.info).timeNs).apply (clock n) s).2) := by
  apply replicaCall_all
  · exact ⟨_, rfl⟩
  · exact ⟨_, remote_set rfl (clock n) s key value ttl (clock view.info).timeNs⟩

private theorem delete_replicaCall_all (key : String) (n : NodeInfo) (s : LocalLWWStore V τ) : ∃ b,
    (view.sync allAnswer).replicaCall clock (fun h ts => h.delete key ts) n s =
      (.ok b, ((Write.delete key (clock view.info).timeNs).apply (clock n) s).2) := by
  apply replicaCall_all
  · exact ⟨_, rfl⟩
  · exact ⟨_, remote_delete rfl (clock n) s key (clock view.info).timeNs⟩

variable {call : ReplicaHandle V τ → Int → StoreCall V τ Bool}
  {direct : LocalLWWStore V τ → Clock τ → Int → Bool × LocalLWWStore V τ} {w : Write V τ}

private theorem afterWrite_all
    (hcall : ∀ n s, ∃ b, (view.sync allAnswer).replicaCall clock call n s = (.ok b, (w.apply (clock n) s).2)) :
    (view.sync allAnswer).afterWrite sha256 clock w.key call stores = view.applyWrite sha256 clock stores w := by
  funext n
  obtain ⟨b, hb⟩ := hcall n (stores n)
  unfold StorageNode.afterWrite NodeView.applyWrite
  rw [hb]
  rfl

private theorem sync_write_all (hd : CallsDirect direct call)
    (hcall : ∀ n s, ∃ b, (view.sync allAnswer).replicaCall clock call n s = (.ok b, (w.apply (clock n) s).2)) :
    ((view.sync allAnswer).write sha256 clock w.key direct call stores).2 = view.applyWrite sha256 clock stores w := by
  have hok : ∀ n ∈ view.ring.getNodes sha256 w.key view.replication,
      ((view.sync allAnswer).replicaCall clock call n (stores n)).1 =
        .ok (decide (((view.sync allAnswer).replicaCall clock call n (stores n)).1 = .ok true)) := by
    intro n _
    obtain ⟨b, hb⟩ := hcall n (stores n)
    rw [hb]
    cases b <;> rfl
  rw [StorageNode.write_eq sha256 (view.sync allAnswer) clock w.key stores hd hok]
  exact afterWrite_all sha256 view clock stores hcall

private theorem async_write_all (hd : CallsDirect direct call)
    (hcall : ∀ n s, ∃ b, (view.sync allAnswer).replicaCall clock call n s = (.ok b, (w.apply (clock n) s).2))
    (read : Schedule NodeInfo (LocalLWWStore V τ) PyError (Option (Versioned V)))
    (write : Schedule NodeInfo (LocalLWWStore V τ) PyError Bool) :
    ((view.async allAnswer read).write sha256 clock write w.key direct call stores).2 =
      view.applyWrite sha256 clock stores w := by
  rw [AsyncStorageNode.write_eq sha256 (view.async allAnswer read) clock w.key stores hd write]
  exact afterWrite_all sha256 view clock stores hcall

theorem NodeKind.afterSet_eq (kind : NodeKind V τ) (key : String) (value : PyObj V) (ttl : Option τ) :
    kind.afterSet sha256 view clock key stores value ttl =
      view.applyWrite sha256 clock stores (.set key value ttl (clock view.info).timeNs) := by
  have hcall := set_replicaCall_all view clock key value ttl
  cases kind with
  | blocking =>
    have hwrite := sync_write_all sha256 view clock stores (callsDirect_set key value ttl) hcall
    exact hwrite
  | async read write =>
    have hwrite := async_write_all sha256 view clock stores (callsDirect_set key value ttl) hcall read write
    exact hwrite

theorem NodeKind.afterDelete_eq (kind : NodeKind V τ) (key : String) :
    kind.afterDelete sha256 view clock key stores =
      view.applyWrite sha256 clock stores (.delete key (clock view.info).timeNs) := by
  have hcall := delete_replicaCall_all (V := V) view clock key
  cases kind with
  | blocking =>
    have hwrite := sync_write_all sha256 view clock stores (callsDirect_delete key) hcall
    exact hwrite
  | async read write =>
    have hwrite := async_write_all sha256 view clock stores (callsDirect_delete key) hcall read write
    exact hwrite

theorem NodeKind.get_snd (kind : NodeKind V τ) (key : String) (link : NodeInfo → Link) :
    (kind.get sha256 view clock key stores link).2 = view.afterRead sha256 link clock key stores := by
  cases kind with
  | blocking => exact NodeView.get_snd sha256 view link clock key stores
  | async read write =>
    show ((view.async link read).get sha256 clock key stores).2 = _
    rw [NodeView.async_get_eq]
    exact NodeView.get_snd sha256 view link clock key stores

/-- What both nodes return for every schedule is what a node of any kind returns. -/
theorem NodeKind.get_fst (kind : NodeKind V τ) {key : String} {link : NodeInfo → Link} {v : PyObj V}
    (h : ∀ sched, view.Returns sha256 link clock key stores sched v) :
    (kind.get sha256 view clock key stores link).1 = v := by
  cases kind with
  | blocking => exact (h Schedule.inOrder).1
  | async read write => exact (h read).2

end Write

/-! ### Events -/

namespace ClusterEvent

section Event

variable (sha256 : String → List UInt8) (ring : RendezvousRing) (replication : Nat)

/-- The stores after an event. -/
def apply (stores : Stores V τ) : ClusterEvent V τ → Stores V τ
  | get issuer kind clock key => (kind.get sha256 ⟨issuer, ring, replication⟩ clock key stores allAnswer).2
  | set issuer kind clock key value ttl => kind.afterSet sha256 ⟨issuer, ring, replication⟩ clock key stores value ttl
  | delete issuer kind clock key => kind.afterDelete sha256 ⟨issuer, ring, replication⟩ clock key stores
  | purge n c => Function.update stores n ((stores n).purgeExpired c).2

/-- The write that a call issues, with the timestamp that it reads. -/
def issued : ClusterEvent V τ → Option (Write V τ)
  | set issuer _ clock key value ttl => some (.set key value ttl (clock issuer).timeNs)
  | delete issuer _ clock key => some (.delete key (clock issuer).timeNs)
  | _ => none

/-- The readings on each node. -/
def clock : ClusterEvent V τ → NodeInfo → Clock τ
  | get _ _ clock _ => clock
  | set _ _ clock _ _ _ => clock
  | delete _ _ clock _ => clock
  | purge _ c => fun _ => c

/-- The replicas that an event works on. -/
def replicas : ClusterEvent V τ → List NodeInfo
  | get issuer _ _ key => (NodeView.mk issuer ring replication).replicas sha256 key
  | set issuer _ _ key _ _ => (NodeView.mk issuer ring replication).replicas sha256 key
  | delete issuer _ _ key => (NodeView.mk issuer ring replication).replicas sha256 key
  | purge n _ => [n]

/-- The reading of the monotonic clock that an event takes at a replica, if it works on it. -/
def reading (e : ClusterEvent V τ) (n : NodeInfo) : Option τ :=
  if n ∈ e.replicas sha256 ring replication then some (e.clock n).monotonic else none

/-- The node that issues a call. -/
def issuer : ClusterEvent V τ → Option NodeInfo
  | get i _ _ _ => some i
  | set i _ _ _ _ _ => some i
  | delete i _ _ _ => some i
  | purge _ _ => none

/-- The key of a call. -/
def key : ClusterEvent V τ → Option String
  | get _ _ _ k => some k
  | set _ _ _ k _ _ => some k
  | delete _ _ _ k => some k
  | purge _ _ => none

/-- The entry of a key is gone at a replica because it had expired at the reading of the event. -/
def Drops (e : ClusterEvent V τ) (stores stores' : Stores V τ) (n : NodeInfo) (k : String) : Prop :=
  (stores' n).entry k = none ∧ ∃ old x t, (stores n).entry k = some old ∧ old.expiresAt = some x ∧
    e.reading sha256 ring replication n = some t ∧ x ≤ t

end Event

section EntryApply

variable {sha256 : String → List UInt8} {ring : RendezvousRing} {replication : Nat}

omit [Add τ] in
private theorem drops_of_evicts {e : ClusterEvent V τ} {stores stores' : Stores V τ} {n : NodeInfo} {k : String}
    (hn : n ∈ e.replicas sha256 ring replication)
    (h : LocalLWWStore.Evicts (e.clock n).monotonic ((stores n).entry k) ((stores' n).entry k)) :
    (stores' n).entry k = (stores n).entry k ∨ e.Drops sha256 ring replication stores stores' n k := by
  rcases h with hsame | ⟨hnone, old, hold, hs⟩
  · exact Or.inl hsame
  · obtain ⟨x, hx, hle⟩ := Entry.expiresAt_of_sweepable hs
    exact Or.inr ⟨hnone, old, x, _, hold, hx, if_pos hn, hle⟩

variable (sha256) in
omit [LinearOrder τ] in
private theorem entry_applyWrite (view : NodeView) (clock : NodeInfo → Clock τ) (stores : Stores V τ) (w : Write V τ)
    (n : NodeInfo) (k : String) :
    (w.key = k ∧ n ∈ view.replicas sha256 w.key ∧ (view.applyWrite sha256 clock stores w n).entry k =
        if (stores n).Admits k w.ts then some (w.entry (clock n)) else (stores n).entry k) ∨
      (¬ (w.key = k ∧ n ∈ view.replicas sha256 w.key) ∧
        (view.applyWrite sha256 clock stores w n).entry k = (stores n).entry k) := by
  unfold NodeView.applyWrite
  by_cases hn : n ∈ view.replicas sha256 w.key
  · rw [if_pos hn, Write.entry_apply]
    by_cases hk : w.key = k
    · subst hk
      exact Or.inl ⟨rfl, hn, by simp⟩
    · exact Or.inr ⟨fun h => hk h.1, if_neg (fun h => hk h.1.symm)⟩
  · rw [if_neg hn]
    exact Or.inr ⟨fun h => hn h.2, rfl⟩

variable (sha256 ring replication) in
/-- What an event can do to the entry of `k` at a replica: put the entry of the write it issues when it is admitted;
otherwise leave the entry, or drop it because it has expired. -/
theorem entry_apply (e : ClusterEvent V τ) (stores : Stores V τ) (n : NodeInfo) (k : String) :
    (∃ w, e.issued = some w ∧ w.key = k ∧ n ∈ e.replicas sha256 ring replication ∧
      (e.apply sha256 ring replication stores n).entry k =
        if (stores n).Admits k w.ts then some (w.entry (e.clock n)) else (stores n).entry k) ∨
    ((∀ w, e.issued = some w → ¬ (w.key = k ∧ n ∈ e.replicas sha256 ring replication)) ∧
      ((e.apply sha256 ring replication stores n).entry k = (stores n).entry k ∨
        e.Drops sha256 ring replication stores (e.apply sha256 ring replication stores) n k)) := by
  cases e with
  | get i kind clock key =>
    refine Or.inr ⟨fun w hw => (by cases hw), ?_⟩
    have hs : (get i kind clock key : ClusterEvent V τ).apply sha256 ring replication stores n =
        (NodeView.mk i ring replication).afterRead sha256 allAnswer clock key stores n :=
      congrFun (NodeKind.get_snd sha256 ⟨i, ring, replication⟩ clock stores kind key allAnswer) n
    by_cases hn : n ∈ (NodeView.mk i ring replication).replicas sha256 key
    · refine drops_of_evicts hn ?_
      rw [hs, NodeView.afterRead, if_pos ⟨hn, Or.inr rfl⟩]
      exact (stores n).evicts_getVersioned (clock n) key k
    · left
      rw [hs, NodeView.afterRead, if_neg (fun h => hn h.1)]
  | set i kind clock key value ttl =>
    have hs : (set i kind clock key value ttl : ClusterEvent V τ).apply sha256 ring replication stores n = _ :=
      congrFun (NodeKind.afterSet_eq sha256 ⟨i, ring, replication⟩ clock stores kind key value ttl) n
    rw [hs]
    rcases entry_applyWrite sha256 ⟨i, ring, replication⟩ clock stores
      (.set key value ttl (clock i).timeNs) n k with ⟨hk, hn, h⟩ | ⟨hne, h⟩
    · exact Or.inl ⟨_, rfl, hk, hn, h⟩
    · exact Or.inr ⟨fun w hw => (by cases hw; exact hne), Or.inl h⟩
  | delete i kind clock key =>
    have hs : (delete i kind clock key : ClusterEvent V τ).apply sha256 ring replication stores n = _ :=
      congrFun (NodeKind.afterDelete_eq sha256 ⟨i, ring, replication⟩ clock stores kind key) n
    rw [hs]
    rcases entry_applyWrite sha256 ⟨i, ring, replication⟩ clock stores
      (.delete key (clock i).timeNs) n k with ⟨hk, hn, h⟩ | ⟨hne, h⟩
    · exact Or.inl ⟨_, rfl, hk, hn, h⟩
    · exact Or.inr ⟨fun w hw => (by cases hw; exact hne), Or.inl h⟩
  | purge m c =>
    refine Or.inr ⟨fun w hw => (by cases hw), ?_⟩
    by_cases hn : n = m
    · subst hn
      refine drops_of_evicts (List.mem_singleton.2 rfl) ?_
      show LocalLWWStore.Evicts _ _ ((Function.update stores n ((stores n).purgeExpired c).2 n).entry k)
      rw [Function.update_self]
      exact (stores n).evicts_purgeExpired c k
    · left
      show (Function.update stores m ((stores m).purgeExpired c).2 n).entry k = _
      rw [Function.update_of_ne hn]

end EntryApply

end ClusterEvent

end DLStorage
