import DLStorage.Base.Run
import DLStorage.PeerComm.Gossip

/-!
# The peers that a node probes

One node over any history: it starts, handles messages with any content, and gossips with whatever outcome.  A handler
and an eviction run without interruption; so does a merge in an async node, while a blocking node may do anything else
between two turns of the loop.  Nothing else works on the node's ring and discovery.

`gossip_loop` draws its peers from `get_peers()`.  With a `GossipDiscovery` these follow the ring
(`gossip_never_drifts`), so that the node can probe it all (`FollowsSeed.probed`).
-/

namespace DLStorage

open Base (after after_keeps)
open Gossip

/-- A merge loop under way in a blocking node. -/
structure MergeLoop where
  peer : NodeInfo
  known : List NodeInfo
  rest : List (Option NodeInfo)

structure GossipNode where
  membership : Membership
  loops : List MergeLoop

inductive NodeEvent (V τ : Type)
  /-- `start()` up to `ring.add(self.info)`. -/
  | start (env : Environment)
  | handle (msg : Message V τ)
  /-- `_gossip_with` of an async node, after the request. -/
  | gossip (peer : NodeInfo) (resp : Except PyError (Option (Message V τ)))
  /-- `_gossip_with` of a blocking node, from the end of the request to the loop. -/
  | receive (peer : NodeInfo) (resp : Except PyError (Option (Message V τ)))
  /-- The next turn of a loop. -/
  | turn (i : Nat)

abbrev NodeRun (V τ : Type) := List (NodeEvent V τ)

variable {V τ : Type}

namespace GossipNode

variable (self : NodeInfo) (s : GossipNode)

/-- A node that has been constructed, with a ring of its own. -/
def new (discovery : Discovery) : GossipNode := ⟨⟨RendezvousRing.empty, discovery⟩, []⟩

/-- The next turn of loop `i`. -/
def turn (i : Nat) (l : MergeLoop) : GossipNode :=
  match l.rest with
  | [] => s
  | none :: _ => ⟨s.membership.evict l.peer, s.loops.set i { l with rest := [] }⟩
  | some new :: rest => ⟨mergeEntry self l.known s.membership new, s.loops.set i { l with rest := rest }⟩

/-- The node after an event. -/
def apply : NodeEvent V τ → GossipNode
  | .start env =>
    match s.membership.discovery.getPeers env with
    | none => s
    | some peers => { s with membership := s.membership.bootstrap self peers }
  | .handle msg =>
    match handleMessage self s.membership msg with
    | .ok (_, m) => { s with membership := m }
    | .error _ => s
  | .gossip peer resp => { s with membership := gossipWith self peer resp s.membership }
  | .receive peer resp =>
    match resp with
    | .error _ => { s with membership := s.membership.evict peer }
    | .ok none => { s with membership := s.membership.evict peer }
    | .ok (some resp) =>
      if resp.type = .peerList then
        { s with loops := s.loops ++ [⟨peer, s.membership.ring.nodes, resp.payload.peers.getD []⟩] }
      else s
  | .turn i =>
    match s.loops[i]? with
    | none => s
    | some l => s.turn self i l

end GossipNode

/-- The node after a run. -/
def nodeAfter (self : NodeInfo) (discovery : Discovery) (run : NodeRun V τ) : GossipNode :=
  after (GossipNode.apply self) (GossipNode.new discovery) run

/-! ### What every operation keeps -/

/-- A statement about the membership that a start, an addition and a removal keep. -/
structure Kept (node : NodeInfo) (P : Membership → Prop) : Prop where
  bootstrap : ∀ m env peers, m.discovery.getPeers env = some peers → P m → P (m.bootstrap node peers)
  enlist : ∀ m peer, P m → P (m.enlist peer)
  evict : ∀ m peer, P m → P (m.evict peer)

namespace Kept

variable {self : NodeInfo} {P : Membership → Prop} (hP : Kept self P)

include hP

theorem handleMessage {m m' : Membership} {msg resp : Message V τ}
    (h : Gossip.handleMessage self m msg = .ok (resp, m')) (hm : P m) : P m' := by
  rcases handleMessage_cases h with rfl | ⟨peer, -, -, rfl⟩ | ⟨peer, -, -, rfl⟩
  · exact hm
  · exact hP.enlist m peer hm
  · exact hP.evict m peer hm

theorem mergeEntry {m : Membership} (known : List NodeInfo) (new : NodeInfo) (hm : P m) :
    P (Gossip.mergeEntry self known m new) := by
  unfold Gossip.mergeEntry
  split
  · exact hP.enlist m new hm
  · exact hm

theorem mergePeers (peer : NodeInfo) (known : List NodeInfo) (rest : List (Option NodeInfo)) {m : Membership}
    (hm : P m) : P (Gossip.mergePeers self peer known rest m) := by
  induction rest generalizing m with
  | nil => exact hm
  | cons entry rest ih =>
    cases entry with
    | none => exact hP.evict m peer hm
    | some new => exact ih (hP.mergeEntry known new hm)

theorem gossipWith (peer : NodeInfo) (resp : Except PyError (Option (Message V τ))) {m : Membership} (hm : P m) :
    P (Gossip.gossipWith self peer resp m) := by
  unfold Gossip.gossipWith
  split
  · exact hP.evict m peer hm
  · exact hP.evict m peer hm
  · split
    · exact hP.mergePeers peer _ _ hm
    · exact hm

theorem turn {s : GossipNode} (i : Nat) (l : MergeLoop) (hs : P s.membership) :
    P (s.turn self i l).membership := by
  unfold GossipNode.turn
  split
  · exact hs
  · exact hP.evict _ l.peer hs
  · exact hP.mergeEntry l.known _ hs

theorem apply {s : GossipNode} (e : NodeEvent V τ) (hs : P s.membership) : P (s.apply self e).membership := by
  cases e with
  | start env =>
    simp only [GossipNode.apply]
    split
    · exact hs
    · rename_i peers found
      exact hP.bootstrap _ env peers found hs
  | handle msg =>
    simp only [GossipNode.apply]
    split
    · rename_i handled
      exact hP.handleMessage handled hs
    · exact hs
  | gossip peer resp => exact hP.gossipWith peer resp hs
  | receive peer resp =>
    simp only [GossipNode.apply]
    split
    · exact hP.evict _ peer hs
    · exact hP.evict _ peer hs
    · split <;> exact hs
  | turn i =>
    simp only [GossipNode.apply]
    split
    · exact hs
    · exact hP.turn i _ hs

theorem after {s : GossipNode} (hs : P s.membership) (run : NodeRun V τ) :
    P (Base.after (GossipNode.apply self) s run).membership := by
  exact after_keeps (P := fun t : GossipNode => P t.membership) hs (fun t e ht => hP.apply e ht) run

end Kept

/-! ### The ring and a `GossipDiscovery` -/

/-- The peers of the discovery are in the ring, and the ring holds nothing else but the seed and the node itself. -/
structure InStep (node : NodeInfo) (d : GossipDiscovery) (ring : RendezvousRing) : Prop where
  peers_ring : ∀ x ∈ d.peers, x ∈ ring.nodes
  ring_peers : ∀ x ∈ ring.nodes, x ∈ d.peers ∨ x = d.seed ∨ x = node

/-- The discovery is a `GossipDiscovery` with this seed, and the ring is in step with it. -/
def FollowsSeed (self seed : NodeInfo) (m : Membership) : Prop :=
  ∃ d, m.discovery = .gossip d ∧ d.seed = seed ∧ InStep self d m.ring

namespace InStep

variable {self : NodeInfo} {d : GossipDiscovery} {m : Membership}

private theorem bootstrap (hring : ∀ x ∈ m.ring.nodes, x ∈ d.peers ∨ x = d.seed ∨ x = self) :
    InStep self d (m.bootstrap self d.getPeers).ring := by
  constructor
  · intro x hx
    rw [Membership.mem_ring_bootstrap]
    exact Or.inr (Or.inl (List.mem_append_left _ hx))
  · intro x hx
    rw [Membership.mem_ring_bootstrap, GossipDiscovery.getPeers, List.mem_append, List.mem_singleton] at hx
    rcases hx with hold | (hpeer | hseed) | hself
    · exact hring x hold
    · exact Or.inl hpeer
    · exact Or.inr (Or.inl hseed)
    · exact Or.inr (Or.inr hself)

private theorem enlist (h : InStep self d m.ring) (peer : NodeInfo) :
    InStep self (d.addPeer peer).2 (m.enlist peer).ring := by
  have hseed : (d.addPeer peer).2.seed = d.seed := GossipDiscovery.seed_addPeer
  constructor
  · intro x hx
    rw [Membership.mem_ring_enlist]
    exact (GossipDiscovery.mem_addPeer.1 hx).imp_left (h.peers_ring x)
  · intro x hx
    rw [GossipDiscovery.mem_addPeer, hseed]
    rcases Membership.mem_ring_enlist.1 hx with hold | hnew
    · rcases h.ring_peers x hold with hpeer | hother
      · exact Or.inl (Or.inl hpeer)
      · exact Or.inr hother
    · exact Or.inl (Or.inr hnew)

private theorem evict (h : InStep self d m.ring) (peer : NodeInfo) :
    InStep self (d.removePeer peer) (m.evict peer).ring := by
  constructor
  · intro x hx
    obtain ⟨hpeer, hne⟩ := GossipDiscovery.mem_removePeer.1 hx
    exact Membership.mem_ring_evict.2 ⟨h.peers_ring x hpeer, hne⟩
  · intro x hx
    obtain ⟨hold, hne⟩ := Membership.mem_ring_evict.1 hx
    rw [GossipDiscovery.mem_removePeer]
    exact (h.ring_peers x hold).imp_left (fun hpeer => ⟨hpeer, hne⟩)

end InStep

/-- Every operation keeps ring and discovery in step. -/
theorem followsSeed_kept (self seed : NodeInfo) : Kept self (FollowsSeed self seed) := by
  constructor
  · rintro m env peers found ⟨d, hd, rfl, h⟩
    rw [hd, Discovery.getPeers, Option.some.injEq] at found
    subst found
    exact ⟨d, hd, rfl, InStep.bootstrap h.ring_peers⟩
  · rintro m peer ⟨d, hd, rfl, h⟩
    refine ⟨(d.addPeer peer).2, ?_, GossipDiscovery.seed_addPeer, h.enlist peer⟩
    rw [Membership.enlist, hd]
    rfl
  · rintro m peer ⟨d, hd, rfl, h⟩
    refine ⟨d.removePeer peer, ?_, rfl, h.evict peer⟩
    rw [Membership.evict, hd]
    rfl

/-- The ring is in step with a `GossipDiscovery` as soon as the node has started. -/
private theorem followsSeed_start (self : NodeInfo) (d : GossipDiscovery) (env : Environment) :
    FollowsSeed self d.seed ((GossipNode.new (.gossip d)).apply self (.start env : NodeEvent V τ)).membership :=
  ⟨d, rfl, rfl, InStep.bootstrap (m := ⟨RendezvousRing.empty, .gossip d⟩) (fun x hx => by cases hx)⟩

/-- From its start on, the ring of a node is in step with its `GossipDiscovery`. -/
theorem gossip_never_drifts (V τ : Type) (self : NodeInfo) (d : GossipDiscovery) (env : Environment)
    (run : NodeRun V τ) : FollowsSeed self d.seed (nodeAfter self (.gossip d) (.start env :: run)).membership :=
  (followsSeed_kept self d.seed).after (followsSeed_start self d env) run

/-! ### Who can be probed -/

/-- Each node in the ring other than the node itself is among the peers that `get_peers()` finds. -/
def Probed (self : NodeInfo) (env : Environment) (m : Membership) : Prop :=
  ∃ peers, m.discovery.getPeers env = some peers ∧ ∀ x ∈ m.ring.nodes, x ≠ self → x ∈ candidates self peers

/-- A node that is in step with its `GossipDiscovery` can probe the whole ring. -/
theorem FollowsSeed.probed {self seed : NodeInfo} {m : Membership} (h : FollowsSeed self seed m) (env : Environment) :
    Probed self env m := by
  obtain ⟨d, hd, -, hstep⟩ := h
  refine ⟨d.getPeers, by rw [hd, Discovery.getPeers], ?_⟩
  intro x hx hother
  rw [mem_candidates, GossipDiscovery.getPeers, List.mem_append, List.mem_singleton]
  rcases hstep.ring_peers x hx with hpeer | hseed | hself
  · exact ⟨Or.inl hpeer, hother⟩
  · exact ⟨Or.inr hseed, hother⟩
  · exact absurd hself hother

end DLStorage
