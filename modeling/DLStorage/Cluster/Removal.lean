import DLStorage.Cluster.Membership

/-!
# How long a removed peer stays away

A node that has handled a peer's departure, or has evicted the peer, keeps no record of it.  The peer comes back when
it announces itself, but also when a peer list is merged that was compiled while the answering node still had it, when
the node is started again and its discovery names the peer, and through any other node that works on the same ring
object.  `removed_until_readded` says that nothing else brings it back; the runs at the end show that each of these
does.
-/

namespace DLStorage

open Base (after after_concat after_becomes)
open Cluster

variable (V τ : Type) (L : Layout) (rings : Id → RendezvousRing) (discoveries : Id → Discovery)

/-- The cluster after a run. -/
def gossipAfter (run : GossipRun) : Cluster V τ := after (Cluster.apply L) (Cluster.initial rings discoveries) run

/-- In the run, a node that has removed `P` does not have it in its ring before an event for which `readds` holds. -/
def RemovedUntil (readds : GossipRun → GossipEvent → Id → NodeInfo → Prop) (run : GossipRun) : Prop :=
  ∀ pre e n P mid post, run = pre ++ e :: (mid ++ post) → (gossipAfter V τ L rings discoveries pre).Removes L e n P →
    P ∈ ((gossipAfter V τ L rings discoveries (pre ++ e :: mid)).rings (L.ring n)).nodes →
    ∃ mid₁ e' mid₂, mid = mid₁ ++ e' :: mid₂ ∧ readds (pre ++ e :: mid₁) e' n P

/-- Node `n` itself handles a `PEER_ANNOUNCE` from `P`. -/
def HeardFrom (past : GossipRun) (e : GossipEvent) (n : Id) (P : NodeInfo) : Prop :=
  (gossipAfter V τ L rings discoveries past).Hears L e n P

/-- Node `n` merges an entry for `P` of an answer that was given by a node with `P` in its ring. -/
def MergesAnswer (past : GossipRun) (e : GossipEvent) (n : Id) (P : NodeInfo) : Prop :=
  ∃ x peer known rest, e = .merge x ∧
    (gossipAfter V τ L rings discoveries past).exchanges[x]? = some ⟨n, peer, .merging known (some P :: rest)⟩ ∧
    P ≠ L.info n ∧ P ∉ known ∧
    ∃ before c since, past = before ++ .answer x c :: since ∧
      (gossipAfter V τ L rings discoveries before).Listens L c peer ∧
      P ∈ ((gossipAfter V τ L rings discoveries before).rings (L.ring c)).nodes ∧ P ≠ L.info c

/-- A node that works on the ring of `n` hears of `P`, finds `P` at its start, or merges an answer with `P`. -/
def Readds (past : GossipRun) (e : GossipEvent) (n : Id) (P : NodeInfo) : Prop :=
  ∃ c, L.ring c = L.ring n ∧
    ((gossipAfter V τ L rings discoveries past).Hears L e c P ∨
      (gossipAfter V τ L rings discoveries past).StartsWith L e c P ∨
      MergesAnswer V τ L rings discoveries past e c P)

variable {V τ L rings discoveries}

/-- What a node merges was listed by a node that answered earlier. -/
theorem mergesAnswer_of_merges {past : GossipRun} {e : GossipEvent} {n : Id} {P : NodeInfo}
    (h : (gossipAfter V τ L rings discoveries past).Merges L e n P) :
    MergesAnswer V τ L rings discoveries past e n P := by
  obtain ⟨x, peer, known, rest, rfl, hx, hother, hunknown⟩ := h
  have hstart : ¬ (gossipAfter V τ L rings discoveries []).Brings x n peer P := by
    rintro ⟨stage, hnil, -⟩
    cases hnil
  have hnow : (gossipAfter V τ L rings discoveries ([] ++ past)).Brings x n peer P :=
    ⟨.merging known (some P :: rest), hx, List.mem_cons_self⟩
  obtain ⟨before, e, since, rfl, hbefore, hafter⟩ :=
    after_becomes (Q := fun s : Cluster V τ => s.Brings x n peer P) hstart hnow
  obtain ⟨c, rfl, hlistens, hring, hne⟩ := (brings_apply hafter).resolve_left hbefore
  exact ⟨x, peer, known, rest, rfl, hx, hother, hunknown, before, c, since, rfl, hlistens, hring, hne⟩

/-- In every run a removed peer stays away until the node's ring gets it in one of the ways of `Readds`. -/
theorem removed_until_readded (V τ : Type) (L : Layout) (rings : Id → RendezvousRing) (discoveries : Id → Discovery)
    (run : GossipRun) : RemovedUntil V τ L rings discoveries (Readds V τ L rings discoveries) run := by
  rintro pre e n P mid post - hremoves hback
  -- the event that brings `P` back comes after the one that removed it
  have hgone : P ∉ ((gossipAfter V τ L rings discoveries (pre ++ [e])).rings (L.ring n)).nodes := by
    rw [gossipAfter, after_concat]
    exact notMem_of_removes hremoves
  rw [← List.singleton_append, ← List.append_assoc] at hback
  obtain ⟨mid₁, e', mid₂, rfl, hbefore, hafter⟩ :=
    after_becomes (Q := fun s : Cluster V τ => P ∈ (s.rings (L.ring n)).nodes) hgone hback
  refine ⟨mid₁, e', mid₂, rfl, ?_⟩
  rw [← List.singleton_append, ← List.append_assoc]
  obtain ⟨c, hc, hadds⟩ := (mem_rings_apply hafter).resolve_left hbefore
  exact ⟨c, hc, hadds.imp_right (Or.imp_right mergesAnswer_of_merges)⟩

/-! ### Each way back happens -/

/-- The nodes of one machine, each reached at its own address; they work on the rings that `ring` says. -/
def localLayout (ring : Id → Id) : Layout :=
  ⟨fun n => localhost (7001 + n), fun n address => address = localhost (7001 + n), ring, id⟩

def emptyRings : Id → RendezvousRing := fun _ => RendezvousRing.empty

/-- Each node finds all three through a discovery of its own. -/
def staticDiscoveries : Id → Discovery := fun _ => .static [localhost 7001, localhost 7002, localhost 7003]

def localAfter (ring : Id → Id) (run : GossipRun) : Cluster Nat Int :=
  gossipAfter Nat Int (localLayout ring) emptyRings staticDiscoveries run

/-- In the run, a removed peer stays away until it is heard from. -/
def LocallyFinal (ring : Id → Id) (run : GossipRun) : Prop :=
  RemovedUntil Nat Int (localLayout ring) emptyRings staticDiscoveries
    (HeardFrom Nat Int (localLayout ring) emptyRings staticDiscoveries) run

/-- Node 7002 has learnt that node 7003 leaves; it handles no other message and has node 7003 in its ring again. -/
private theorem not_locallyFinal {ring : Id → Id} (pre mid : GossipRun)
    (hsent : (localAfter ring pre).notices[1]? = some ⟨localhost 7002, Gossip.announceLeave (localhost 7003)⟩)
    (hphase : (localAfter ring pre).phase 1 = .running)
    (hback : localhost 7003 ∈ ((localAfter ring (pre ++ .deliver 1 1 :: mid)).rings (ring 1)).nodes)
    (hsilent : ∀ k, .deliver k 1 ∉ mid) : ¬ LocallyFinal ring (pre ++ .deliver 1 1 :: mid) := by
  intro h
  have hlistens : (localAfter ring pre).Listens (localLayout ring) 1 (localhost 7002) := by
    refine ⟨rfl, ?_⟩
    rw [hphase]
    decide
  obtain ⟨mid₁, e', mid₂, hmid, k, notice, rfl, -⟩ :=
    h pre (.deliver 1 1) 1 (localhost 7003) mid [] (by simp) (.leave hsent hlistens rfl rfl) hback
  exact hsilent k (by rw [hmid]; simp)

/-- Node 7001 answers node 7002, which gets the answer after node 7003 has left. -/
def staleAnswerRun : GossipRun :=
  [.start 0 {}, .start 1 {}, .start 2 {}, .round 1 {} [localhost 7001, localhost 7003], .answer 0 0, .announceLeave 2,
    .deliver 1 1, .receive 0, .merge 0, .merge 0]

/-- Node 7002 stops and starts again after node 7003 has left. -/
def restartRun : GossipRun :=
  [.start 0 {}, .start 1 {}, .start 2 {}, .announceLeave 2, .deliver 1 1, .announceLeave 1, .start 1 {}]

/-- Node 7003 joins again, which node 7001 hears of, but node 7002 does not. -/
def rejoinRun : GossipRun :=
  [.start 0 {}, .start 1 {}, .start 2 {}, .announceLeave 2, .deliver 1 1, .start 2 {}, .announceJoin 2, .deliver 2 0]

/-- Nodes 7001 and 7002 work on one ring. -/
def sharedRing (n : Id) : Id := if n = 2 then 1 else 0

/-- A removed peer comes back unheard through a stale answer, at a restart, and through a shared ring. -/
theorem removal_not_final :
    ¬ LocallyFinal id staleAnswerRun ∧ ¬ LocallyFinal id restartRun ∧ ¬ LocallyFinal sharedRing rejoinRun := by
  refine ⟨?_, ?_, ?_⟩
  · exact not_locallyFinal (staleAnswerRun.take 6) (staleAnswerRun.drop 7) rfl rfl (by decide +kernel)
      (by simp [staleAnswerRun])
  · exact not_locallyFinal (restartRun.take 4) (restartRun.drop 5) rfl rfl (by decide +kernel)
      (by simp [restartRun])
  · exact not_locallyFinal (rejoinRun.take 4) (rejoinRun.drop 5) rfl rfl (by decide +kernel)
      (by simp [rejoinRun])

end DLStorage
