import DLStorage.ConnectionPool
import DLStorage.Discovery
import DLStorage.Ring

/-!
# Gossip

What one node does in the gossip protocol: `handleMessage` answers a request, and `gossipWith` takes the outcome of an
exchange of peer lists that the node itself has asked for.  `Gossip` and `AsyncGossip` have the same code; they differ
in what may happen between the turns of the merge loop, which `mergeEntry` follows one by one.
-/

namespace DLStorage

/-- The ring and the discovery that the gossip of a node works on. -/
structure Membership where
  ring : RendezvousRing
  discovery : Discovery

variable {V τ : Type}

namespace Membership

/-- A peer is taken into the ring, and into the discovery if that is a `GossipDiscovery`. -/
def enlist (m : Membership) (peer : NodeInfo) : Membership := ⟨m.ring.add peer, m.discovery.addPeer peer⟩

/-- `_evict`; closing the connections to the peer is the pool's part. -/
def evict (m : Membership) (peer : NodeInfo) : Membership := ⟨m.ring.remove peer, m.discovery.removePeer peer⟩

/-- `_bootstrap` and the following `ring.add(self.info)`, for what `get_peers()` returned. -/
def bootstrap (self : NodeInfo) (peers : List NodeInfo) (m : Membership) : Membership :=
  { m with ring := (peers.foldl RendezvousRing.add m.ring).add self }

/-- The nodes that a broadcast addresses. -/
def others (self : NodeInfo) (m : Membership) : List NodeInfo := m.ring.nodes.filter (fun n => n ≠ self)

@[simp] theorem mem_ring_enlist {m : Membership} {peer x : NodeInfo} :
    x ∈ (m.enlist peer).ring.nodes ↔ x ∈ m.ring.nodes ∨ x = peer :=
  RendezvousRing.mem_add

@[simp] theorem mem_ring_evict {m : Membership} {peer x : NodeInfo} :
    x ∈ (m.evict peer).ring.nodes ↔ x ∈ m.ring.nodes ∧ x ≠ peer :=
  RendezvousRing.mem_remove

theorem mem_foldl_add (peers : List NodeInfo) (ring : RendezvousRing) (x : NodeInfo) :
    x ∈ (peers.foldl RendezvousRing.add ring).nodes ↔ x ∈ ring.nodes ∨ x ∈ peers := by
  induction peers generalizing ring with
  | nil => simp
  | cons p peers ih => rw [List.foldl_cons, ih, RendezvousRing.mem_add, List.mem_cons, or_assoc]

@[simp] theorem mem_ring_bootstrap {self : NodeInfo} {peers : List NodeInfo} {m : Membership} {x : NodeInfo} :
    x ∈ (m.bootstrap self peers).ring.nodes ↔ x ∈ m.ring.nodes ∨ x ∈ peers ∨ x = self := by
  rw [bootstrap, RendezvousRing.mem_add, mem_foldl_add, or_assoc]

@[simp] theorem mem_others {self : NodeInfo} {m : Membership} {x : NodeInfo} :
    x ∈ m.others self ↔ x ∈ m.ring.nodes ∧ x ≠ self := by
  simp [others]

end Membership

namespace Gossip

/-- The message of `announce_join`. -/
def announceJoin (self : NodeInfo) : Message V τ := { type := .peerAnnounce, payload := { peer := some self } }

/-- The message of `announce_leave`. -/
def announceLeave (self : NodeInfo) : Message V τ := { type := .peerLeave, payload := { peer := some self } }

/-- The request of `_gossip_with`. -/
def listRequest (self : NodeInfo) : Message V τ := { type := .peerList, payload := { requester := some self } }

/-- `handle_message`; the response, and the membership afterwards. -/
def handleMessage (self : NodeInfo) (m : Membership) (msg : Message V τ) : Except PyError (Message V τ × Membership) :=
  match msg.type with
  | .ping => .ok ({ type := .pong, payload := { node := some self } }, m)
  | .peerList => .ok ({ type := .peerList, payload := { peers := some ((m.others self).map some) } }, m)
  | .peerAnnounce => do
    let peer ← require "peer" msg.payload.peer
    -- a peer in the ring is not handed to the discovery either
    if peer ∈ m.ring.nodes then .ok ({ type := .ok }, m) else .ok ({ type := .ok }, m.enlist peer)
  | .peerLeave => do
    let peer ← require "peer" msg.payload.peer
    .ok ({ type := .ok }, m.evict peer)
  | t => .ok ({ type := .error, payload := { error := some ("unknown message type: " ++ t.str) } }, m)

/-- The peers from which `gossip_loop` draws its sample. -/
def candidates (self : NodeInfo) (peers : List NodeInfo) : List NodeInfo := peers.filter (fun n => n ≠ self)

@[simp] theorem mem_candidates {self : NodeInfo} {peers : List NodeInfo} {x : NodeInfo} :
    x ∈ candidates self peers ↔ x ∈ peers ∧ x ≠ self := by
  simp [candidates]

/-- `_GOSSIP_FANOUT`. -/
def fanout : Nat := 3

/-- What `random.sample` may draw: `min(fanout, n)` of the `n` elements, in any order. -/
def IsSample (sample peers : List NodeInfo) : Prop :=
  sample.Subperm peers ∧ sample.length = min fanout peers.length

instance (sample peers : List NodeInfo) : Decidable (IsSample sample peers) :=
  inferInstanceAs (Decidable (_ ∧ _))

/-- One turn of the loop in `_gossip_with`; `known` are the ring nodes when the loop began. -/
def mergeEntry (self : NodeInfo) (known : List NodeInfo) (m : Membership) (peer : NodeInfo) : Membership :=
  if peer ≠ self ∧ peer ∉ known then m.enlist peer else m

/-- The loop in `_gossip_with`.  An entry that does not parse ends it, and the peer that listed it is evicted. -/
def mergePeers (self peer : NodeInfo) (known : List NodeInfo) : List (Option NodeInfo) → Membership → Membership
  | [], m => m
  | none :: _, m => m.evict peer
  | some new :: rest, m => mergePeers self peer known rest (mergeEntry self known m new)

/-- `_gossip_with`, from what the pool returns or raises. -/
def gossipWith (self peer : NodeInfo) (resp : Except PyError (Option (Message V τ))) (m : Membership) : Membership :=
  match resp with
  | .error _ => m.evict peer
  | .ok none => m.evict peer
  | .ok (some resp) =>
    if resp.type = .peerList then mergePeers self peer m.ring.nodes (resp.payload.peers.getD []) m else m

/-! ### What a message changes -/

/-- A message changes nothing, adds the peer that it announces, or removes the peer whose departure it tells. -/
theorem handleMessage_cases {self : NodeInfo} {m m' : Membership} {msg resp : Message V τ}
    (h : handleMessage self m msg = .ok (resp, m')) :
    m' = m ∨
      (∃ peer, msg.type = .peerAnnounce ∧ msg.payload.peer = some peer ∧ m' = m.enlist peer) ∨
      (∃ peer, msg.type = .peerLeave ∧ msg.payload.peer = some peer ∧ m' = m.evict peer) := by
  obtain ⟨t, payload⟩ := msg
  cases t with
  | peerAnnounce =>
    cases hp : payload.peer with
    | none => simp [handleMessage, hp, require, bind, Except.bind] at h
    | some peer =>
      simp only [handleMessage, hp, require, bind, Except.bind] at h
      split at h
      · exact Or.inl (Prod.mk.inj (Except.ok.inj h)).2.symm
      · exact Or.inr (Or.inl ⟨peer, rfl, rfl, (Prod.mk.inj (Except.ok.inj h)).2.symm⟩)
  | peerLeave =>
    cases hp : payload.peer with
    | none => simp [handleMessage, hp, require, bind, Except.bind] at h
    | some peer =>
      simp only [handleMessage, hp, require, bind, Except.bind] at h
      exact Or.inr (Or.inr ⟨peer, rfl, rfl, (Prod.mk.inj (Except.ok.inj h)).2.symm⟩)
  | _ => exact Or.inl (Prod.mk.inj (Except.ok.inj h)).2.symm

theorem handleMessage_peerLeave {self peer : NodeInfo} {m : Membership} {msg : Message V τ}
    (ht : msg.type = .peerLeave) (hp : msg.payload.peer = some peer) :
    handleMessage self m msg = .ok ({ type := .ok }, m.evict peer) := by
  simp only [handleMessage, ht, hp, require]
  rfl

/-- An announced peer is in the ring afterwards. -/
theorem handleMessage_peerAnnounce (self : NodeInfo) (m : Membership) {peer : NodeInfo} {msg : Message V τ}
    (ht : msg.type = .peerAnnounce) (hp : msg.payload.peer = some peer) :
    ∃ resp m', handleMessage self m msg = .ok (resp, m') ∧ peer ∈ m'.ring.nodes := by
  simp only [handleMessage, ht, hp, require, bind, Except.bind]
  split
  · rename_i hmem
    exact ⟨_, m, rfl, hmem⟩
  · exact ⟨_, m.enlist peer, rfl, Membership.mem_ring_enlist.2 (Or.inr rfl)⟩

@[simp] theorem handleMessage_listRequest (self requester : NodeInfo) (m : Membership) :
    handleMessage (V := V) (τ := τ) self m (listRequest requester) =
      .ok ({ type := .peerList, payload := { peers := some ((m.others self).map some) } }, m) := rfl

/-- A turn of the merge loop adds at most its entry. -/
theorem mem_ring_mergeEntry {self : NodeInfo} {known : List NodeInfo} {m : Membership} {peer x : NodeInfo} :
    x ∈ (mergeEntry self known m peer).ring.nodes ↔
      x ∈ m.ring.nodes ∨ x = peer ∧ peer ≠ self ∧ peer ∉ known := by
  unfold mergeEntry
  split
  · rename_i h
    simp [h]
  · rename_i h
    simp [h]

/-- A list without malformed entries adds all its entries but the node itself and those it already knew. -/
theorem mem_ring_mergePeers {self peer : NodeInfo} {known view : List NodeInfo} {m : Membership} {x : NodeInfo} :
    x ∈ (mergePeers self peer known (view.map some) m).ring.nodes ↔
      x ∈ m.ring.nodes ∨ x ∈ view ∧ x ≠ self ∧ x ∉ known := by
  induction view generalizing m with
  | nil => simp [mergePeers]
  | cons new view ih =>
    rw [List.map_cons, mergePeers, ih, mem_ring_mergeEntry, List.mem_cons]
    constructor
    · rintro ((hold | ⟨rfl, hnew⟩) | ⟨hx, hnew⟩)
      · exact Or.inl hold
      · exact Or.inr ⟨Or.inl rfl, hnew⟩
      · exact Or.inr ⟨Or.inr hx, hnew⟩
    · rintro (hold | ⟨rfl | hx, hnew⟩)
      · exact Or.inl (Or.inl hold)
      · exact Or.inl (Or.inr ⟨rfl, hnew⟩)
      · exact Or.inr ⟨hx, hnew⟩

/-- A response with these nodes as its peers. -/
def peerListing (view : List NodeInfo) : Message V τ :=
  { type := .peerList, payload := { peers := some (view.map some) } }

/-- A peer list that is merged without interruption adds all its nodes but the node itself. -/
theorem mem_ring_gossipWith {self peer : NodeInfo} {view : List NodeInfo} {m : Membership} {x : NodeInfo} :
    x ∈ (gossipWith (V := V) (τ := τ) self peer (.ok (some (peerListing view))) m).ring.nodes ↔
      x ∈ m.ring.nodes ∨ x ∈ view ∧ x ≠ self := by
  show x ∈ (mergePeers self peer m.ring.nodes (view.map some) m).ring.nodes ↔ _
  rw [mem_ring_mergePeers]
  constructor
  · rintro (hold | ⟨hx, hother, -⟩)
    · exact Or.inl hold
    · exact Or.inr ⟨hx, hother⟩
  · rintro (hold | ⟨hx, hother⟩)
    · exact Or.inl hold
    · by_cases hold : x ∈ m.ring.nodes
      · exact Or.inl hold
      · exact Or.inr ⟨hx, hother, hold⟩

end Gossip

end DLStorage
