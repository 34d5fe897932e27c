import DLStorage.ConnectionPool.Retry
import DLStorage.PeerComm.Gossip

/-!
# The two pools of a blocking node compared

`ConnectionPool` and `MuxConnectionPool` on the same idle connections and the same peer.  The queue pool takes the
connection that was given back last and tries again on a new one; the multiplexed pool takes the one that was given
back first, since it pops and gives back at opposite ends of its deque, and does not try again.  So a peer that has
restarted may be reported as silent, and `_gossip_with` evicts it.
-/

namespace DLStorage

/-- What a request comes to on a connection, when nothing times out: the peer answers; the sending or the receiving
fails, since the peer has closed the connection; or `close()` raises after that. -/
inductive Outcome (ρ : Type)
  | answers (resp : ρ)
  | fails
  | closeRaises
  deriving DecidableEq

namespace Outcome

variable {ρ : Type}

/-- What one try block of `ConnectionPool.execute` returns; its handler catches what `close()` raises. -/
def received : Outcome ρ → Option ρ
  | answers resp => some resp
  | fails | closeRaises => none

/-- The peer is at the other end. -/
def isHealthy (o : Outcome ρ) : Bool := o.received.isSome

end Outcome

variable {ρ : Type}

/-- The response of `ConnectionPool.execute`; the connection that was given back last comes first, and `fresh` is a new
one, if the peer accepts it. -/
def ConnectionPool.respond (idle : List (Outcome ρ)) (fresh : Option (Outcome ρ)) : Option ρ :=
  match idle.head?, fresh with
  | none, none => none
  | none, some conn => conn.received
  | some conn, fresh =>
    match conn.received, fresh with
    | some resp, _ => some resp
    | none, none => none
    -- pooled connection was stale, so retry once fresh
    | none, some conn => conn.received

/-- The response of `MuxConnectionPool.execute`, which assumes that an idle socket is alive. -/
def MuxConnectionPool.respond (idle : List (Outcome ρ)) (fresh : Option (Outcome ρ)) : Except PyError (Option ρ) :=
  match idle.getLast? <|> fresh with
  | none => .ok none
  | some (.answers resp) => .ok (some resp)
  | some .fails => .ok none
  | some .closeRaises => .error .os

/-! ### The same calls on a store -/

section Store

variable {V τ : Type} [LinearOrder τ] [Add τ]

/-- What an exchange comes to with a peer that gives this response, if any. -/
def Exchange.outcome (resp : Option ρ) : Exchange → Outcome ρ
  | answered => match resp with
    | some resp => .answers resp
    | none => .fails
  | unsent | unanswered => .fails
  | closeRaises => .closeRaises

theorem MuxConnectionPool.execute_eq (picklable : Message V τ → Bool) (idle : List Exchange) (fresh : Option Exchange)
    (c : Clock τ) (msg : Message V τ) (hmsg : picklable msg = true) (s : LocalLWWStore V τ) :
    (execute picklable ⟨idle.getLast?, fresh⟩ c msg s).1 =
      respond (idle.map (Exchange.outcome (transact c msg s).1))
        (fresh.map (Exchange.outcome (transact c msg s).1)) := by
  have hacquire : ((idle.map (Exchange.outcome (transact c msg s).1)).getLast? <|>
      fresh.map (Exchange.outcome (transact c msg s).1)) =
        (idle.getLast? <|> fresh).map (Exchange.outcome (transact c msg s).1) := by
    rw [List.getLast?_map]
    cases idle.getLast? <;> rfl
  unfold execute respond Peer.acquire
  rw [hacquire]
  cases idle.getLast? <|> fresh with
  | none => rfl
  | some exchange =>
    simp only [hmsg, Option.map_some]
    cases exchange with
    | answered =>
      obtain ⟨_ | resp, s'⟩ := transact c msg s <;> rfl
    | unsent | unanswered | closeRaises => rfl

private theorem ConnectionPool.attempt_eq (picklable : Message V τ → Bool) (exchange : Exchange) (c : Clock τ)
    (msg : Message V τ) (hmsg : picklable msg = true) (s : LocalLWWStore V τ) :
    (attempt picklable exchange c msg s).1 = .ok (exchange.outcome (transact c msg s).1).received := by
  unfold attempt
  simp only [hmsg]
  cases exchange with
  | answered =>
    obtain ⟨_ | resp, s'⟩ := transact c msg s <;> rfl
  | unsent | unanswered | closeRaises => rfl

/-- The second attempt finds what the first has left in the store. -/
theorem ConnectionPool.execute_eq (picklable : Message V τ → Bool) (idle : List Exchange) (fresh : Option Exchange)
    (c later : Clock τ) (msg : Message V τ) (hmsg : picklable msg = true) (s : LocalLWWStore V τ) :
    (execute picklable ⟨idle.head?, fresh⟩ c later msg s).1 =
      .ok (respond (idle.map (Exchange.outcome (transact c msg s).1)) (fresh.map (Exchange.outcome
        (idle.head?.elim (transact c msg s) fun exchange =>
          transact later msg (attempt picklable exchange c msg s).2).1))) := by
  unfold execute retrying respond
  rw [List.head?_map]
  cases idle.head? with
  | none =>
    cases fresh with
    | none => rfl
    | some exchange => exact attempt_eq picklable exchange c msg hmsg s
  | some exchange =>
    have hfirst := attempt_eq picklable exchange c msg hmsg s
    simp only [Option.map_some, Option.elim_some]
    cases hattempt : attempt picklable exchange c msg s with
    | mk result s' =>
      rw [hattempt] at hfirst
      obtain rfl : result = _ := hfirst
      cases (exchange.outcome (transact c msg s).1).received with
      | some resp => cases fresh <;> rfl
      | none =>
        cases fresh with
        | none => rfl
        | some again => exact attempt_eq picklable again later msg hmsg s'

end Store

/-! ### When the pools agree -/

theorem ConnectionPool.respond_isSome_iff (idle : List (Outcome ρ)) (fresh : Option (Outcome ρ)) :
    (respond idle fresh).isSome = true ↔
      idle.head?.any Outcome.isHealthy = true ∨ fresh.any Outcome.isHealthy = true := by
  unfold respond
  cases idle.head? with
  | none => cases fresh <;> simp [Outcome.isHealthy]
  | some conn =>
    cases hconn : conn.received with
    | none => cases fresh <;> simp [Outcome.isHealthy, hconn]
    | some resp => simp [Outcome.isHealthy, hconn]

theorem MuxConnectionPool.respond_some_iff (idle : List (Outcome ρ)) (fresh : Option (Outcome ρ)) :
    (∃ resp, respond idle fresh = .ok (some resp)) ↔ (idle.getLast? <|> fresh).any Outcome.isHealthy = true := by
  unfold respond
  cases idle.getLast? <|> fresh with
  | none => simp
  | some conn => cases conn <;> simp [Outcome.isHealthy, Outcome.received]

private theorem not_mem_ring_evict {peer : NodeInfo} {m : Membership} : peer ∉ (m.evict peer).ring.nodes :=
  fun h => (Membership.mem_ring_evict.1 h).2 rfl

/-- `_gossip_with` keeps the peer in the ring if the pool returns a peer list, and evicts it if the pool does not. -/
private theorem mem_ring_gossip_iff {V τ : Type} (self : NodeInfo) {peer : NodeInfo} {m : Membership}
    (hpeer : peer ∈ m.ring.nodes) (result : Except PyError (Option (List NodeInfo))) :
    peer ∈ (Gossip.gossipWith (V := V) (τ := τ) self peer (result.map (Option.map Gossip.peerListing)) m).ring.nodes ↔
      ∃ view, result = .ok (some view) := by
  rcases result with e | _ | view
  · exact ⟨fun h => absurd h not_mem_ring_evict, fun ⟨view, h⟩ => by cases h⟩
  · exact ⟨fun h => absurd h not_mem_ring_evict, fun ⟨view, h⟩ => by cases h⟩
  · exact ⟨fun _ => ⟨view, rfl⟩, fun _ => Gossip.mem_ring_gossipWith.2 (Or.inl hpeer)⟩

/-- The multiplexed pool returns a response whenever the queue pool does if and only if the connection that was given
back first is healthy, or there is none, or the queue pool gets no response either; and a peer that accepts and answers
new connections stays in the ring under the first two alone. -/
theorem mux_dropIn_iff (V τ : Type) (idle : List (Outcome ρ)) (fresh : Option (Outcome ρ)) :
    (((ConnectionPool.respond idle fresh).isSome = true →
        ∃ resp, MuxConnectionPool.respond idle fresh = .ok (some resp)) ↔
      idle.getLast?.all Outcome.isHealthy = true ∨
        idle.head?.any Outcome.isHealthy = false ∧ fresh.any Outcome.isHealthy = false) ∧
    ∀ (idle : List (Outcome (List NodeInfo))) (view : List NodeInfo) (self peer : NodeInfo) (m : Membership),
      peer ∈ m.ring.nodes →
      (peer ∈ (Gossip.gossipWith (V := V) (τ := τ) self peer
          ((MuxConnectionPool.respond idle (some (.answers view))).map (Option.map Gossip.peerListing)) m).ring.nodes ↔
        idle.getLast?.all Outcome.isHealthy = true) := by
  constructor
  · rw [ConnectionPool.respond_isSome_iff, MuxConnectionPool.respond_some_iff]
    cases hlast : idle.getLast? with
    | none =>
      have hempty : idle = [] := List.getLast?_eq_none_iff.1 hlast
      subst hempty
      simp
    | some conn => cases hconn : conn.isHealthy <;> simp [hconn]
  · intro idle view self peer m hpeer
    rw [mem_ring_gossip_iff self hpeer, MuxConnectionPool.respond_some_iff]
    cases idle.getLast? with
    | none => exact ⟨fun _ => rfl, fun _ => rfl⟩
    | some conn => simp

/-- The peer has restarted since the connection was given back. -/
theorem restarted_peer_evicted :
    ConnectionPool.respond [.fails] (some (.answers ())) = some () ∧
    MuxConnectionPool.respond [.fails] (some (.answers ())) = .ok none ∧
    ∀ (self peer : NodeInfo) (m : Membership), peer ∉ (Gossip.gossipWith (V := Nat) (τ := Int) self peer
      ((MuxConnectionPool.respond [.fails] (some (.answers []))).map (Option.map Gossip.peerListing)) m).ring.nodes :=
  ⟨rfl, rfl, fun _ _ _ => not_mem_ring_evict⟩

end DLStorage
