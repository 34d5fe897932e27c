import DLStorage.Node.Writes

/-!
# The blocking and the async node

Both nodes make the same calls for a write, through different pools and with different fan-outs.  Over their default
pools, and with peers for which the two pools come to the same outcome on every message that can be pickled, they agree
exactly when no call of the blocking node raises (`writes_agree_iff`).  A call of its pool raises when closing a failed
connection raises, and when the message cannot be pickled but a connection to the peer is there, because it pickles the
message after taking the connection and outside its try block (`mux_raises_iff`).
-/

namespace DLStorage

open Base (Schedule)

variable {V τ : Type} [LinearOrder τ] [Add τ] (picklable : Message V τ → Bool)

/-- The multiplexed pool raises on the message. -/
def MuxRaises (p : Peer) (msg : Message V τ) : Prop :=
  ∃ exchange, p.acquire = some exchange ∧ (exchange = .closeRaises ∨ picklable msg = false)

/-- On messages that can be pickled the two default pools give the same outcome. -/
def SameOutcome (p p' : Peer) : Prop :=
  ∀ c msg s, picklable msg = true →
    MuxConnectionPool.execute picklable p c msg s = AsyncConnectionPool.execute picklable p' c msg s

variable {picklable}

theorem mux_raises_iff (p : Peer) (c : Clock τ) (msg : Message V τ) (s : LocalLWWStore V τ) :
    (∃ e, (MuxConnectionPool.execute picklable p c msg s).1 = .error e) ↔ MuxRaises picklable p msg := by
  unfold MuxConnectionPool.execute MuxRaises
  cases p.acquire with
  | none => simp
  | some exchange =>
    cases hp : picklable msg with
    | false => simp
    | true => cases exchange <;> simp

/-- Without a connection the multiplexed pool returns `None`. -/
private theorem mux_of_none {p : Peer} (h : p.acquire = none) (c : Clock τ) (msg : Message V τ)
    (s : LocalLWWStore V τ) : MuxConnectionPool.execute picklable p c msg s = (.ok none, s) := by
  unfold MuxConnectionPool.execute
  rw [h]

private theorem attempt_unpicklable {msg : Message V τ} (h : picklable msg = false) (exchange : Exchange) (c : Clock τ)
    (s : LocalLWWStore V τ) :
    AsyncConnectionPool.attempt picklable exchange c msg s = (.ok none, s) ∨
      AsyncConnectionPool.attempt picklable exchange c msg s = (.error .os, s) := by
  unfold AsyncConnectionPool.attempt
  cases exchange <;> simp [h]

/-- A message that cannot be pickled changes nothing through the async pool and gets no response. -/
private theorem async_unpicklable {msg : Message V τ} (h : picklable msg = false) (p : Peer) (c : Clock τ)
    (s : LocalLWWStore V τ) :
    AsyncConnectionPool.execute picklable p c msg s = (.ok none, s) ∨
      AsyncConnectionPool.execute picklable p c msg s = (.error .os, s) := by
  obtain ⟨idle, fresh⟩ := p
  unfold AsyncConnectionPool.execute
  cases idle with
  | none =>
    cases fresh with
    | none => exact Or.inl rfl
    | some fresh => exact attempt_unpicklable h fresh c s
  | some idle =>
    rcases attempt_unpicklable h idle c s with hi | hi <;> simp only [hi]
    · cases fresh with
      | none => exact Or.inl rfl
      | some fresh => exact attempt_unpicklable h fresh c s
    · cases fresh <;> exact Or.inr trivial

/-- The blocking node with this view and its default pool. -/
def NodeView.withMuxPool (picklable : Message V τ → Bool) (peers : NodeInfo → Peer) (view : NodeView) :
    StorageNode V τ :=
  ⟨view.info, view.ring, muxPool picklable peers, LWW.readResolve, view.replication⟩

/-- The async node with this view and its default pool. -/
def NodeView.withAsyncPool (picklable : Message V τ → Bool) (peers : NodeInfo → Peer)
    (sched : Schedule NodeInfo (LocalLWWStore V τ) PyError (Option (Versioned V))) (view : NodeView) :
    AsyncStorageNode V τ :=
  ⟨view.info, view.ring, asyncPool picklable peers, AsyncLWW.readResolve sched, view.replication⟩

section Agreement

variable {view : NodeView} {peers peers' : NodeInfo → Peer} {clock : NodeInfo → Clock τ} {key : String}
  {direct : LocalLWWStore V τ → Clock τ → Int → Bool × LocalLWWStore V τ}
  {call : ReplicaHandle V τ → Int → StoreCall V τ Bool} {msg : Int → Message V τ}
  {sched : Schedule NodeInfo (LocalLWWStore V τ) PyError (Option (Versioned V))}

private theorem mux_replicaCall (hr : CallsRemote msg call) {n : NodeInfo} (hn : n ≠ view.info) :
    (view.withMuxPool picklable peers).replicaCall clock call n =
      StoreCall.map isOk (MuxConnectionPool.execute picklable (peers n) (clock n) (msg (clock view.info).timeNs)) := by
  unfold StorageNode.replicaCall
  rw [StorageNode.handle_of_ne clock hn, hr]
  rfl

private theorem async_replicaCall (hr : CallsRemote msg call) {n : NodeInfo} (hn : n ≠ view.info) :
    (view.withAsyncPool picklable peers' sched).replicaCall clock call n =
      StoreCall.map isOk
        (AsyncConnectionPool.execute picklable (peers' n) (clock n) (msg (clock view.info).timeNs)) := by
  unfold StorageNode.replicaCall
  rw [StorageNode.handle_of_ne clock hn, hr]
  rfl

/-- The call of the blocking node for a replica raises exactly when its pool does. -/
private theorem mux_replicaCall_raises_iff (hd : CallsDirect direct call) (hr : CallsRemote msg call) (n : NodeInfo)
    (s : LocalLWWStore V τ) :
    (∃ e, ((view.withMuxPool picklable peers).replicaCall clock call n s).1 = .error e) ↔
      n ≠ view.info ∧ MuxRaises picklable (peers n) (msg (clock view.info).timeNs) := by
  by_cases hn : n = view.info
  · subst hn
    have hself : (view.withMuxPool picklable peers).replicaCall clock call view.info s =
        (.ok (direct s (clock view.info) (clock view.info).timeNs).1,
          (direct s (clock view.info) (clock view.info).timeNs).2) := by
      unfold StorageNode.replicaCall
      rw [show (view.withMuxPool picklable peers).handle clock view.info = localHandle view.info (clock view.info) from
        if_pos rfl, hd]
      rfl
    simp [hself]
  · rw [mux_replicaCall hr hn, ← mux_raises_iff (peers n) (clock n) (msg (clock view.info).timeNs) s]
    unfold StoreCall.map
    cases (MuxConnectionPool.execute picklable (peers n) (clock n) (msg (clock view.info).timeNs) s).1 with
    | error e => simp [hn, Except.map]
    | ok r => simp [Except.map]

/-- On the local store both nodes make the same call. -/
private theorem async_replicaCall_info :
    StorageNode.replicaCall (view.withAsyncPool picklable peers' sched) clock call view.info =
      (view.withMuxPool picklable peers).replicaCall clock call view.info := by
  unfold StorageNode.replicaCall
  rw [show StorageNode.handle (view.withAsyncPool picklable peers' sched) clock view.info =
      localHandle view.info (clock view.info) from if_pos rfl,
    show (view.withMuxPool picklable peers).handle clock view.info = localHandle view.info (clock view.info) from
      if_pos rfl]
  rfl

variable (sched) in
/-- Where the call of the blocking node does not raise, that of the async node has the same effect. -/
private theorem replicaCall_agrees (hr : CallsRemote msg call) {n : NodeInfo}
    (hsame : n ≠ view.info → SameOutcome picklable (peers n) (peers' n)) {s : LocalLWWStore V τ} {b : Bool}
    (hb : ((view.withMuxPool picklable peers).replicaCall clock call n s).1 = .ok b) :
    decide (((view.withAsyncPool picklable peers' sched).replicaCall clock call n s).1 = .ok true) = b ∧
      ((view.withAsyncPool picklable peers' sched).replicaCall clock call n s).2 =
        ((view.withMuxPool picklable peers).replicaCall clock call n s).2 := by
  have hdec : ∀ b : Bool, decide ((Except.ok b : Except PyError Bool) = .ok true) = b := by decide
  by_cases hn : n = view.info
  · subst hn
    rw [show (view.withAsyncPool picklable peers' sched).replicaCall clock call view.info = _ from
      async_replicaCall_info, hb]
    exact ⟨hdec b, rfl⟩
  · cases hp : picklable (msg (clock view.info).timeNs) with
    | true =>
      have heq : (view.withAsyncPool picklable peers' sched).replicaCall clock call n s =
          (view.withMuxPool picklable peers).replicaCall clock call n s := by
        rw [async_replicaCall hr hn, mux_replicaCall hr hn]
        unfold StoreCall.map
        rw [hsame hn (clock n) _ s hp]
      rw [heq, hb]
      exact ⟨hdec b, rfl⟩
    | false =>
      -- a message that cannot be pickled raises in the blocking pool, unless that has no connection for it
      rw [mux_replicaCall hr hn] at hb ⊢
      rw [async_replicaCall hr hn]
      have hnone : (peers n).acquire = none := by
        by_contra hne
        obtain ⟨exchange, hx⟩ := Option.ne_none_iff_exists'.1 hne
        obtain ⟨e, he⟩ := (mux_raises_iff (peers n) (clock n) (msg (clock view.info).timeNs) s).2
          ⟨exchange, hx, Or.inr hp⟩
        unfold StoreCall.map at hb
        rw [he] at hb
        cases hb
      unfold StoreCall.map at hb ⊢
      rw [mux_of_none hnone] at hb ⊢
      have hfalse : b = false := (Except.ok.inj hb).symm
      subst hfalse
      rcases async_unpicklable hp (peers' n) (clock n) s with h | h <;> rw [h]
      · exact ⟨rfl, rfl⟩
      · exact ⟨rfl, rfl⟩

private theorem write_agrees_iff (hd : CallsDirect direct call) (hr : CallsRemote msg call)
    (sha256 : String → List UInt8) (hsame : ∀ n ∈ view.ring.getNodes sha256 key view.replication, n ≠ view.info →
      SameOutcome picklable (peers n) (peers' n)) (stores : Stores V τ)
    (sched' : Schedule NodeInfo (LocalLWWStore V τ) PyError Bool) :
    (view.withMuxPool picklable peers).write sha256 clock key direct call stores =
        (.ok ((view.withAsyncPool picklable peers' sched).write sha256 clock sched' key direct call stores).1,
          ((view.withAsyncPool picklable peers' sched).write sha256 clock sched' key direct call stores).2) ↔
      ∀ n ∈ view.ring.getNodes sha256 key view.replication, n ≠ view.info →
        ¬ MuxRaises picklable (peers n) (msg (clock view.info).timeNs) := by
  constructor
  · intro h n hn hne hraise
    obtain ⟨e, he⟩ := (mux_replicaCall_raises_iff hd hr n (stores n)).2 ⟨hne, hraise⟩
    obtain ⟨e', he'⟩ := StorageNode.write_error sha256 (view.withMuxPool picklable peers) clock key
      stores hn he
    rw [h] at he'
    cases he'
  · intro h
    let called := fun n => StorageNode.replicaCall (view.withAsyncPool picklable peers' sched) clock call n (stores n)
    have hagree : ∀ n ∈ view.ring.getNodes sha256 key view.replication,
        ((view.withMuxPool picklable peers).replicaCall clock call n (stores n)).1 =
            .ok (decide ((called n).1 = .ok true)) ∧
          (called n).2 = ((view.withMuxPool picklable peers).replicaCall clock call n (stores n)).2 := by
      intro n hn
      cases hb : ((view.withMuxPool picklable peers).replicaCall clock call n (stores n)).1 with
      | ok b =>
        obtain ⟨hdec, hstore⟩ := replicaCall_agrees sched hr (hsame n hn) hb
        exact ⟨by rw [hdec], hstore⟩
      | error e =>
        obtain ⟨hne, hraise⟩ := (mux_replicaCall_raises_iff hd hr n (stores n)).1 ⟨e, hb⟩
        exact absurd hraise (h n hn hne)
    have hafter : (view.withMuxPool picklable peers).afterWrite sha256 clock key call stores =
        StorageNode.afterWrite sha256 (view.withAsyncPool picklable peers' sched) clock key call stores := by
      funext n
      unfold StorageNode.afterWrite
      by_cases hn : n ∈ view.replicas sha256 key
      · rw [if_pos (show n ∈ (view.withMuxPool picklable peers).view.replicas sha256 key from hn),
          if_pos (show n ∈ (StorageNode.view (view.withAsyncPool picklable peers' sched)).replicas sha256 key from hn)]
        by_cases hself : n = view.info
        · subst hself
          rw [async_replicaCall_info]
        · have hne : view.ring.getNodes sha256 key view.replication ≠ [] := by
            intro hnil
            rw [NodeView.replicas_of_nil sha256 view hnil] at hn
            exact hself (List.mem_singleton.1 hn)
          rw [NodeView.replicas_of_ne sha256 view hne] at hn
          exact (hagree n hn).2.symm
      · rw [if_neg (show n ∉ (view.withMuxPool picklable peers).view.replicas sha256 key from hn),
          if_neg (show n ∉ (StorageNode.view (view.withAsyncPool picklable peers' sched)).replicas sha256 key from hn)]
    rw [StorageNode.write_eq sha256 (view.withMuxPool picklable peers) clock key stores hd
        (fun n hn => (hagree n hn).1),
      AsyncStorageNode.write_eq sha256 (view.withAsyncPool picklable peers' sched) clock key stores hd, hafter]
    rfl

/-- Over their default pools the blocking and the async node agree on a set exactly when the blocking node's pool raises
for no selected remote replica, and likewise on a delete. -/
theorem writes_agree_iff (picklable : Message V τ → Bool) (sha256 : String → List UInt8) (view : NodeView)
    (peers peers' : NodeInfo → Peer) (clock : NodeInfo → Clock τ) (key : String) (value : PyObj V) (ttl : Option τ)
    (stores : Stores V τ) (sched : Schedule NodeInfo (LocalLWWStore V τ) PyError (Option (Versioned V)))
    (sched' : Schedule NodeInfo (LocalLWWStore V τ) PyError Bool)
    (hsame : ∀ n ∈ view.ring.getNodes sha256 key view.replication, n ≠ view.info →
      SameOutcome picklable (peers n) (peers' n)) :
    ((view.withMuxPool picklable peers).set sha256 clock key value ttl stores =
        (.ok ((view.withAsyncPool picklable peers' sched).set sha256 clock sched' key value ttl stores).1,
          ((view.withAsyncPool picklable peers' sched).set sha256 clock sched' key value ttl stores).2) ↔
      ∀ n ∈ view.ring.getNodes sha256 key view.replication, n ≠ view.info →
        ¬ MuxRaises picklable (peers n) (setMessage key value ttl (clock view.info).timeNs)) ∧
    ((view.withMuxPool picklable peers).delete sha256 clock key stores =
        (.ok ((view.withAsyncPool picklable peers' sched).delete sha256 clock sched' key stores).1,
          ((view.withAsyncPool picklable peers' sched).delete sha256 clock sched' key stores).2) ↔
      ∀ n ∈ view.ring.getNodes sha256 key view.replication, n ≠ view.info →
        ¬ MuxRaises picklable (peers n) (deleteMessage key (clock view.info).timeNs)) :=
  ⟨write_agrees_iff (callsDirect_set key value ttl) (callsRemote_set key value ttl) sha256 hsame stores sched',
    write_agrees_iff (callsDirect_delete key) (callsRemote_delete key) sha256 hsame stores sched'⟩

end Agreement

/-- Peers without idle connections give the same outcome through both pools. -/
theorem sameOutcome_fresh (picklable : Message V τ → Bool) (fresh : Option Exchange) :
    SameOutcome picklable ⟨none, fresh⟩ ⟨none, fresh⟩ := by
  intro c msg s hp
  cases fresh with
  | none => rfl
  | some exchange =>
    unfold MuxConnectionPool.execute AsyncConnectionPool.execute AsyncConnectionPool.attempt Peer.acquire
    cases exchange <;> simp [hp]

/-- Every object but `0` can be pickled. -/
def picklesNonzero (msg : Message Nat Int) : Bool := decide (msg.payload.value ≠ some (some 0))

/-- Peers to which both pools connect anew and which answer. -/
def answeringPeer : Peer := ⟨none, some .answered⟩

/-- With a value that can be pickled the two nodes agree. -/
theorem picklable_set_agrees :
    ((NodeView.mk (localhost 7001) localRing 2).withMuxPool picklesNonzero fun _ => answeringPeer).set sha256Digest
        (fun _ => ⟨1, 5⟩) "k" (some 1) none (fun _ => LocalLWWStore.empty) =
      (.ok (((NodeView.mk (localhost 7001) localRing 2).withAsyncPool picklesNonzero (fun _ => answeringPeer)
          Schedule.inOrder).set sha256Digest (fun _ => ⟨1, 5⟩) Schedule.inOrder "k" (some 1) none
          (fun _ => LocalLWWStore.empty)).1,
        (((NodeView.mk (localhost 7001) localRing 2).withAsyncPool picklesNonzero (fun _ => answeringPeer)
          Schedule.inOrder).set sha256Digest (fun _ => ⟨1, 5⟩) Schedule.inOrder "k" (some 1) none
          (fun _ => LocalLWWStore.empty)).2) := by
  refine (writes_agree_iff picklesNonzero sha256Digest ⟨localhost 7001, localRing, 2⟩ (fun _ => answeringPeer)
    (fun _ => answeringPeer) (fun _ => ⟨1, 5⟩) "k" (some 1) none (fun _ => LocalLWWStore.empty) Schedule.inOrder
    Schedule.inOrder (fun _ _ _ => sameOutcome_fresh _ _)).1.2 ?_
  rintro n - - ⟨exchange, hx, hraise⟩
  cases hx
  rcases hraise with h | h
  · cases h
  · cases h

/-- With a value that cannot be pickled the blocking node raises before it writes its own store, and the async node
writes its own store and returns `True`. -/
theorem unpicklable_set_disagrees :
    SameOutcome picklesNonzero answeringPeer answeringPeer ∧
    (((NodeView.mk (localhost 7001) localRing 2).withMuxPool picklesNonzero fun _ => answeringPeer).set sha256Digest
        (fun _ => ⟨1, 5⟩) "k" (some 0) none (fun _ => LocalLWWStore.empty)).1 = .error .pickling ∧
    (((NodeView.mk (localhost 7001) localRing 2).withAsyncPool picklesNonzero (fun _ => answeringPeer)
        Schedule.inOrder).set sha256Digest (fun _ => ⟨1, 5⟩) Schedule.inOrder "k" (some 0) none
        (fun _ => LocalLWWStore.empty)).1 = true := by
  refine ⟨sameOutcome_fresh _ _, ?_, ?_⟩
  · decide +kernel
  · decide +kernel

end DLStorage
