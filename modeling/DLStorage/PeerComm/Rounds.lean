import DLStorage.PeerComm.Probing

/-!
# The peers of one round

`get_peers()` of a `GossipDiscovery` lists the peers that the node has learnt of, and then the seed.  The seed is not
among the former at the start, but whatever takes a peer into the ring takes the seed in as well once it has left the
ring.  From then on the seed is listed twice, and a round may address it twice.  So the peers of every round are
distinct exactly when no event of the run takes the seed back in (`distinctPeers_iff`).
-/

namespace DLStorage

open Base (after_concat after_invariant)
open Gossip

variable {V τ : Type}

/-- `get_peers()` lists no peer twice, and no sample that `gossip_loop` may draw holds one twice. -/
def DistinctPeers (self : NodeInfo) (m : Membership) : Prop :=
  ∀ env peers, m.discovery.getPeers env = some peers →
    peers.Nodup ∧ ∀ sample, IsSample sample (candidates self peers) → sample.Nodup

/-- Merging the list takes `new` in: the list names it before its first malformed entry, it is neither the node itself
nor known, and it is not evicted for a malformed entry. -/
def ListAdmits (self peer : NodeInfo) (known : List NodeInfo) (entries : List (Option NodeInfo)) (new : NodeInfo) :
    Prop :=
  (some new ∈ entries.takeWhile Option.isSome ∧ new ≠ self ∧ new ∉ known) ∧ ¬ (none ∈ entries ∧ new = peer)

/-- The event takes the seed in, as it takes in any peer that is not in the ring. -/
def Readmits (self seed : NodeInfo) (s : GossipNode) : NodeEvent V τ → Prop
  | .handle msg => msg.type = .peerAnnounce ∧ msg.payload.peer = some seed ∧ seed ∉ s.membership.ring.nodes
  | .gossip peer (.ok (some resp)) =>
    resp.type = .peerList ∧ ListAdmits self peer s.membership.ring.nodes (resp.payload.peers.getD []) seed
  | .turn i => ∃ l rest, s.loops[i]? = some l ∧ l.rest = some seed :: rest ∧ seed ≠ self ∧ seed ∉ l.known
  | _ => False

/-- The discovery is a `GossipDiscovery` with this seed, which is among its learnt peers if and only if `b` holds. -/
def SeedLearnt (seed : NodeInfo) (m : Membership) (b : Prop) : Prop :=
  ∃ d, m.discovery = .gossip d ∧ d.seed = seed ∧ (seed ∈ d.peers ↔ b)

namespace SeedLearnt

variable {self seed : NodeInfo} {m : Membership} {b b' : Prop}

theorem congr (h : SeedLearnt seed m b) (hb : b ↔ b') : SeedLearnt seed m b' := by
  obtain ⟨d, hd, hseed, hlearnt⟩ := h
  exact ⟨d, hd, hseed, hlearnt.trans hb⟩

theorem bootstrap (h : SeedLearnt seed m b) (peers : List NodeInfo) : SeedLearnt seed (m.bootstrap self peers) b := h

theorem enlist (h : SeedLearnt seed m b) (peer : NodeInfo) : SeedLearnt seed (m.enlist peer) (b ∨ seed = peer) := by
  obtain ⟨d, hd, rfl, hlearnt⟩ := h
  refine ⟨(d.addPeer peer).2, ?_, GossipDiscovery.seed_addPeer, ?_⟩
  · rw [Membership.enlist, hd]
    rfl
  · rw [GossipDiscovery.mem_addPeer, hlearnt]

theorem evict (h : SeedLearnt seed m b) (peer : NodeInfo) : SeedLearnt seed (m.evict peer) (b ∧ seed ≠ peer) := by
  obtain ⟨d, hd, rfl, hlearnt⟩ := h
  refine ⟨d.removePeer peer, ?_, rfl, ?_⟩
  · rw [Membership.evict, hd]
    rfl
  · rw [GossipDiscovery.mem_removePeer, hlearnt]

theorem evict_of_not (h : SeedLearnt seed m False) (peer : NodeInfo) : SeedLearnt seed (m.evict peer) False :=
  (h.evict peer).congr (by simp)

theorem mergeEntry (h : SeedLearnt seed m b) (known : List NodeInfo) (new : NodeInfo) :
    SeedLearnt seed (Gossip.mergeEntry self known m new) (b ∨ seed = new ∧ seed ≠ self ∧ seed ∉ known) := by
  unfold Gossip.mergeEntry
  split
  · rename_i hnew
    refine (h.enlist new).congr (or_congr_right ⟨?_, And.left⟩)
    rintro rfl
    exact ⟨rfl, hnew⟩
  · rename_i hold
    refine h.congr ⟨Or.inl, ?_⟩
    rintro (hb | ⟨rfl, hnew⟩)
    · exact hb
    · exact absurd hnew hold

theorem mergePeers (h : SeedLearnt seed m b) (peer : NodeInfo) (known : List NodeInfo)
    (entries : List (Option NodeInfo)) :
    SeedLearnt seed (Gossip.mergePeers self peer known entries m)
      ((b ∨ some seed ∈ entries.takeWhile Option.isSome ∧ seed ≠ self ∧ seed ∉ known) ∧
        ¬ (none ∈ entries ∧ seed = peer)) := by
  induction entries generalizing m b with
  | nil => exact h.congr (by simp)
  | cons entry rest ih =>
    cases entry with
    | none => exact (h.evict peer).congr (by simp)
    | some new =>
      refine (ih (h.mergeEntry known new)).congr ?_
      rw [List.takeWhile_cons_of_pos (by rfl), List.mem_cons, List.mem_cons, Option.some.injEq]
      simp only [reduceCtorEq, false_or]
      tauto

theorem gossipWith (h : SeedLearnt seed m False) {peer : NodeInfo} {resp : Message V τ} :
    SeedLearnt seed (Gossip.gossipWith self peer (.ok (some resp)) m)
      (resp.type = .peerList ∧ ListAdmits self peer m.ring.nodes (resp.payload.peers.getD []) seed) := by
  unfold Gossip.gossipWith
  simp only
  split
  · rename_i htype
    exact (h.mergePeers peer _ _).congr (by simp [htype, ListAdmits])
  · rename_i htype
    exact h.congr (by simp [htype])

theorem handle {s : GossipNode} (h : SeedLearnt seed s.membership False) (msg : Message V τ) :
    SeedLearnt seed (s.apply self (.handle msg)).membership (Readmits self seed s (.handle msg)) := by
  obtain ⟨t, payload⟩ := msg
  simp only [GossipNode.apply, Readmits]
  cases t with
  | peerAnnounce =>
    cases hp : payload.peer with
    | none =>
      simp only [handleMessage, hp, require, bind, Except.bind]
      exact h.congr (by simp)
    | some peer =>
      by_cases hring : peer ∈ s.membership.ring.nodes
      · simp only [handleMessage, hp, require, bind, Except.bind, if_pos hring]
        refine h.congr ⟨False.elim, ?_⟩
        rintro ⟨-, heq, hgone⟩
        obtain rfl := Option.some.inj heq
        exact hgone hring
      · simp only [handleMessage, hp, require, bind, Except.bind, if_neg hring]
        refine (h.enlist peer).congr ⟨?_, ?_⟩
        · rintro (hfalse | rfl)
          · exact hfalse.elim
          · exact ⟨trivial, rfl, hring⟩
        · rintro ⟨-, heq, -⟩
          exact Or.inr (Option.some.inj heq).symm
  | peerLeave =>
    cases hp : payload.peer with
    | none =>
      simp only [handleMessage, hp, require, bind, Except.bind]
      exact h.congr (by simp)
    | some peer =>
      simp only [handleMessage, hp, require, bind, Except.bind]
      exact (h.evict_of_not peer).congr (by simp)
  | _ => exact h.congr (by simp)

theorem apply {s : GossipNode} (h : SeedLearnt seed s.membership False) (e : NodeEvent V τ) :
    SeedLearnt seed (s.apply self e).membership (Readmits self seed s e) := by
  cases e with
  | start env =>
    simp only [GossipNode.apply]
    split
    · exact h
    · exact h.bootstrap _
  | handle msg => exact h.handle msg
  | gossip peer resp =>
    rcases resp with error | _ | resp
    · exact h.evict_of_not peer
    · exact h.evict_of_not peer
    · exact h.gossipWith
  | receive peer resp =>
    rcases resp with error | _ | resp
    · exact h.evict_of_not peer
    · exact h.evict_of_not peer
    · simp only [GossipNode.apply]
      split <;> exact h
  | turn i =>
    simp only [GossipNode.apply]
    cases hl : s.loops[i]? with
    | none => exact h.congr (by simp [Readmits, hl])
    | some l =>
      simp only
      unfold GossipNode.turn
      split
      · rename_i hrest
        exact h.congr (by simp [Readmits, hl, hrest])
      · rename_i rest hrest
        exact (h.evict_of_not l.peer).congr (by simp [Readmits, hl, hrest])
      · rename_i new rest hrest
        refine (h.mergeEntry l.known new).congr ?_
        simp [Readmits, hl, hrest, eq_comm]

end SeedLearnt

theorem Gossip.IsSample.nodup {sample peers : List NodeInfo} (h : IsSample sample peers) (hpeers : peers.Nodup) :
    sample.Nodup := by
  obtain ⟨l, hperm, hsub⟩ := h.1
  exact hperm.nodup_iff.1 (hpeers.sublist hsub)

/-- The peers are distinct as long as the seed has not been learnt like another peer. -/
theorem SeedLearnt.distinct_iff {self seed : NodeInfo} {m : Membership} {b : Prop} (h : SeedLearnt seed m b) :
    DistinctPeers self m ↔ ¬ b := by
  obtain ⟨d, hd, rfl, hlearnt⟩ := h
  have hnodup : d.getPeers.Nodup ↔ d.seed ∉ d.peers := by
    rw [GossipDiscovery.getPeers, List.nodup_append_comm, List.singleton_append, List.nodup_cons]
    exact and_iff_left d.nodup
  rw [← hlearnt, ← hnodup]
  constructor
  · intro hdistinct
    exact (hdistinct {} d.getPeers (by rw [hd, Discovery.getPeers])).1
  · intro hpeers env peers hfound
    rw [hd, Discovery.getPeers, Option.some.injEq] at hfound
    subst hfound
    exact ⟨hpeers, fun sample hsample => hsample.nodup (hpeers.filter _)⟩

section Run

variable {self seed : NodeInfo} {run : NodeRun V τ}

private theorem seedLearnt_start (seed : NodeInfo) :
    SeedLearnt seed (GossipNode.new (.gossip (.new seed))).membership False :=
  ⟨.new seed, rfl, rfl, by simp [GossipDiscovery.new]⟩

private theorem SeedLearnt.concat {pre : NodeRun V τ}
    (h : SeedLearnt seed (nodeAfter self (.gossip (.new seed)) pre).membership False) (e : NodeEvent V τ) :
    SeedLearnt seed (nodeAfter self (.gossip (.new seed)) (pre ++ [e])).membership
      (Readmits self seed (nodeAfter self (.gossip (.new seed)) pre) e) := by
  have hafter : nodeAfter self (.gossip (.new seed)) (pre ++ [e]) =
      (nodeAfter self (.gossip (.new seed)) pre).apply self e := after_concat pre e
  rw [hafter]
  exact h.apply e

/-- While all peer lists are without repetition, the seed is not learnt. -/
private theorem seedLearnt_of_distinct
    (h : ∀ pre post, run = pre ++ post → DistinctPeers self (nodeAfter self (.gossip (.new seed)) pre).membership)
    {pre post : NodeRun V τ} (hrun : run = pre ++ post) :
    SeedLearnt seed (nodeAfter self (.gossip (.new seed)) pre).membership False := by
  induction pre using List.reverseRecOn generalizing post with
  | nil => exact seedLearnt_start seed
  | append_singleton pre e ih =>
    have hbefore := ih (show run = pre ++ e :: post by rw [hrun]; simp)
    exact (hbefore.concat e).congr (iff_false_intro ((hbefore.concat e).distinct_iff.1 (h _ _ hrun)))

/-- Every peer list of a node that uses `GossipDiscovery`, and every sample drawn from it, is without repetition exactly
when no event takes the seed back in after it has left the ring. -/
theorem distinctPeers_iff (self seed : NodeInfo) (run : NodeRun V τ) :
    (∀ pre post, run = pre ++ post → DistinctPeers self (nodeAfter self (.gossip (.new seed)) pre).membership) ↔
      ∀ pre e post, run = pre ++ e :: post → ¬ Readmits self seed (nodeAfter self (.gossip (.new seed)) pre) e := by
  constructor
  · intro h pre e post hrun
    have hbefore := seedLearnt_of_distinct h hrun
    exact (hbefore.concat e).distinct_iff.1 (h (pre ++ [e]) post (by rw [hrun]; simp))
  · intro h pre post hrun
    have hfresh : SeedLearnt seed (nodeAfter self (.gossip (.new seed)) pre).membership False := by
      refine after_invariant (P := fun _ s => SeedLearnt seed (GossipNode.membership s) False)
        (C := fun pre e => ¬ Readmits self seed (nodeAfter self (.gossip (.new seed)) pre) e)
        (seedLearnt_start seed) ?_ ?_
      · intro before e hreadmits hbefore
        exact (hbefore.apply e).congr (iff_false_intro hreadmits)
      · rintro before e after rfl
        exact h before e (after ++ post) (by rw [hrun]; simp)
    exact hfresh.distinct_iff.2 not_false

end Run

/-- The seed does not answer and is evicted; then it is back and announces itself. -/
def seedReturns : NodeRun Nat Int :=
  [.start {}, .gossip (localhost 7002) (.ok none), .handle (announceJoin (localhost 7002))]

/-- The seed is listed twice, and a round may ask it twice. -/
theorem returned_seed_listed_twice :
    ¬ DistinctPeers (localhost 7001)
        (nodeAfter (localhost 7001) (.gossip (.new (localhost 7002))) seedReturns).membership ∧
      IsSample [localhost 7002, localhost 7002] (candidates (localhost 7001) [localhost 7002, localhost 7002]) := by
  constructor
  · intro h
    have hpeers : (nodeAfter (localhost 7001) (.gossip (.new (localhost 7002)))
        seedReturns).membership.discovery.getPeers {} = some [localhost 7002, localhost 7002] := by decide
    exact absurd (h {} _ hpeers).1 (by decide)
  · decide

end DLStorage
