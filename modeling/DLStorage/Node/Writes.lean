import DLStorage.Node.Reads

/-!
# Writes of the cluster

A set or a delete makes one call for each replica.  `AsyncStorageNode.write_eq` and `StorageNode.write_eq` give its
result and the stores it leaves in terms of these calls: the async node always, the blocking node when no call raises;
otherwise the blocking node raises (`StorageNode.write_error`).
-/

namespace DLStorage

open Base (Schedule fan)

variable {V τ : Type} [LinearOrder τ] [Add τ]

/-- What a node's calls depend on besides its pool. -/
def StorageNode.view (node : StorageNode V τ) : NodeView := ⟨node.info, node.ring, node.replication⟩

section Write

variable {sha256 : String → List UInt8} {node : StorageNode V τ} {clock : NodeInfo → Clock τ} {key : String}
  {direct : LocalLWWStore V τ → Clock τ → Int → Bool × LocalLWWStore V τ}
  {call : ReplicaHandle V τ → Int → StoreCall V τ Bool} {stores : Stores V τ}

/-- The call of a write for one replica. -/
def StorageNode.replicaCall (node : StorageNode V τ) (clock : NodeInfo → Clock τ)
    (call : ReplicaHandle V τ → Int → StoreCall V τ Bool) (n : NodeInfo) : StoreCall V τ Bool :=
  call (node.handle clock n) (clock node.info).timeNs

/-- The stores after a write: those of the replicas as their calls leave them. -/
def StorageNode.afterWrite (sha256 : String → List UInt8) (node : StorageNode V τ) (clock : NodeInfo → Clock τ)
    (key : String) (call : ReplicaHandle V τ → Int → StoreCall V τ Bool) (stores : Stores V τ) : Stores V τ :=
  fun n => if n ∈ node.view.replicas sha256 key then (node.replicaCall clock call n (stores n)).2 else stores n

/-- Through a local handle `call` is `direct`. -/
def CallsDirect (direct : LocalLWWStore V τ → Clock τ → Int → Bool × LocalLWWStore V τ)
    (call : ReplicaHandle V τ → Int → StoreCall V τ Bool) : Prop :=
  ∀ n c ts s, call (localHandle n c) ts s = (.ok (direct s c ts).1, (direct s c ts).2)

theorem callsDirect_set (key : String) (value : PyObj V) (ttl : Option τ) :
    CallsDirect (fun s c ts => s.set c key value ttl (some ts)) (fun h ts => h.set key value ttl ts) :=
  fun _ _ _ _ => rfl

theorem callsDirect_delete (key : String) :
    CallsDirect (V := V) (τ := τ) (fun s c ts => s.delete c key (some ts)) (fun h ts => h.delete key ts) :=
  fun _ _ _ _ => rfl

/-- The message that a write sends to a remote replica. -/
def CallsRemote (msg : Int → Message V τ) (call : ReplicaHandle V τ → Int → StoreCall V τ Bool) : Prop :=
  ∀ n c pool ts, call (remoteHandle n c pool) ts = StoreCall.map isOk (pool n c (msg ts))

omit [LinearOrder τ] [Add τ] in
theorem callsRemote_set (key : String) (value : PyObj V) (ttl : Option τ) :
    CallsRemote (setMessage key value ttl) (fun h ts => h.set key value ttl ts) := fun _ _ _ _ => rfl

omit [LinearOrder τ] [Add τ] in
theorem callsRemote_delete (key : String) :
    CallsRemote (V := V) (τ := τ) (deleteMessage key) (fun h ts => h.delete key ts) := fun _ _ _ _ => rfl

private theorem afterWrite_of_nil (hd : CallsDirect direct call)
    (h : node.ring.getNodes sha256 key node.replication = []) :
    node.afterWrite sha256 clock key call stores = Function.update stores node.info
      (direct (stores node.info) (clock node.info) (clock node.info).timeNs).2 := by
  have hm : ∀ n, n ∈ node.view.replicas sha256 key ↔ n = node.info := by
    intro n
    rw [NodeView.replicas_of_nil sha256 node.view h, List.mem_singleton]
    rfl
  funext n
  unfold StorageNode.afterWrite
  by_cases hn : n = node.info
  · subst hn
    rw [if_pos ((hm _).2 rfl), Function.update_self, StorageNode.replicaCall, StorageNode.handle_self, hd]
  · rw [if_neg (fun h => hn ((hm n).1 h)), Function.update_of_ne hn]

private theorem afterWrite_of_ne (h : node.ring.getNodes sha256 key node.replication ≠ []) :
    node.afterWrite sha256 clock key call stores = fun n =>
      if n ∈ node.ring.getNodes sha256 key node.replication then (node.replicaCall clock call n (stores n)).2
      else stores n := by
  have hr : node.view.replicas sha256 key = node.ring.getNodes sha256 key node.replication :=
    NodeView.replicas_of_ne sha256 node.view h
  funext n
  unfold StorageNode.afterWrite
  simp only [hr]

private theorem write_jobs (nodes : List NodeInfo) :
    (node.makeHandles clock nodes).map (fun h => (⟨h.node, call h (clock node.info).timeNs⟩ : StoreJob V τ Bool)) =
      fan (node.replicaCall clock call) nodes :=
  jobs_eq_fan (fun h => call h (clock node.info).timeNs) (node.node_handle clock) nodes

variable (sha256 node clock key stores)

/-- A write of the async node succeeds when the call for one replica returns `True` or the ring is empty. -/
theorem AsyncStorageNode.write_eq (hd : CallsDirect direct call)
    (sched : Schedule NodeInfo (LocalLWWStore V τ) PyError Bool) :
    AsyncStorageNode.write sha256 node clock sched key direct call stores =
      (decide (node.ring.getNodes sha256 key node.replication = []) ||
          (node.ring.getNodes sha256 key node.replication).any
            (fun n => decide ((node.replicaCall clock call n (stores n)).1 = .ok true)),
        node.afterWrite sha256 clock key call stores) := by
  unfold AsyncStorageNode.write
  by_cases h : node.ring.getNodes sha256 key node.replication = []
  · rw [afterWrite_of_nil hd h]
    simp only [h, if_true, decide_true, Bool.true_or]
  · rw [afterWrite_of_ne h]
    have hjobs : (AsyncStorageNode.makeHandles node clock (node.ring.getNodes sha256 key node.replication)).map
        (fun h => (⟨h.node, call h (clock node.info).timeNs⟩ : StoreJob V τ Bool)) =
        fan (node.replicaCall clock call) (node.ring.getNodes sha256 key node.replication) := write_jobs _
    simp only [h, if_false, decide_false, Bool.false_or, hjobs,
      Base.gather_fan sched (RendezvousRing.getNodes_nodup _ _ _), List.any_map]
    rfl

/-- A write of the blocking node in which no call raises. -/
theorem StorageNode.write_eq (hd : CallsDirect direct call) {f : NodeInfo → Bool}
    (hok : ∀ n ∈ node.ring.getNodes sha256 key node.replication,
      (node.replicaCall clock call n (stores n)).1 = .ok (f n)) :
    node.write sha256 clock key direct call stores =
      (.ok (decide (node.ring.getNodes sha256 key node.replication = []) ||
          (node.ring.getNodes sha256 key node.replication).any f),
        node.afterWrite sha256 clock key call stores) := by
  unfold StorageNode.write
  by_cases h : node.ring.getNodes sha256 key node.replication = []
  · rw [afterWrite_of_nil hd h]
    simp only [h, if_true, decide_true, Bool.true_or]
  · rw [afterWrite_of_ne h]
    simp only [h, if_false, decide_false, Bool.false_or, write_jobs,
      Base.comprehension_fan_ok (RendezvousRing.getNodes_nodup _ _ _) hok, Except.map, List.any_map]
    rfl

/-- A write of the blocking node in which a call raises. -/
theorem StorageNode.write_error {n : NodeInfo} (hn : n ∈ node.ring.getNodes sha256 key node.replication) {e : PyError}
    (he : (node.replicaCall clock call n (stores n)).1 = .error e) :
    ∃ e', (node.write sha256 clock key direct call stores).1 = .error e' := by
  have h : node.ring.getNodes sha256 key node.replication ≠ [] := List.ne_nil_of_mem hn
  obtain ⟨e', he'⟩ := Base.comprehension_fan_error (RendezvousRing.getNodes_nodup _ _ _) hn he
  refine ⟨e', ?_⟩
  unfold StorageNode.write
  simp only [h, if_false, write_jobs, he']
  rfl

/-- A write of the blocking node stops at the first call that raises; the calls before it are made. -/
theorem StorageNode.write_error_split {pre post : List NodeInfo} {n : NodeInfo}
    (hsplit : node.ring.getNodes sha256 key node.replication = pre ++ n :: post)
    (hok : ∀ m ∈ pre, ∃ b, (node.replicaCall clock call m (stores m)).1 = .ok b) {e : PyError}
    (he : (node.replicaCall clock call n (stores n)).1 = .error e) :
    node.write sha256 clock key direct call stores = (.error e, fun m =>
      if m ∈ pre ++ [n] then (node.replicaCall clock call m (stores m)).2 else stores m) := by
  have h : node.ring.getNodes sha256 key node.replication ≠ [] := by
    rw [hsplit]
    simp
  have hnodup : (pre ++ n :: post).Nodup := hsplit ▸ RendezvousRing.getNodes_nodup _ _ _
  unfold StorageNode.write
  simp only [h, if_false, write_jobs]
  rw [hsplit, Base.comprehension_fan_split hnodup hok he]
  rfl

end Write

end DLStorage
