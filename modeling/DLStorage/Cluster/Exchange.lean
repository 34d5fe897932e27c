import DLStorage.Cluster.Removal

/-!
# What an exchange of peer lists brings

The node that answers a `PEER_LIST` leaves itself out of the list, and the node that asks adds only what is listed.  So
an exchange does not bring back a peer that the asking node has evicted, although the peer has answered, and nobody
reads the field `requester` that names the asking node.
-/

namespace DLStorage

open Base (after after_concat after_append after_invariant)
open Cluster Gossip

variable (V τ : Type) (L : Layout) (rings : Id → RendezvousRing) (discoveries : Id → Discovery)

/-- At the end of the run, node `n` has the answer to exchange `x` still to merge, which the node `peer` has given and
which lists the rest of its ring, `view`. -/
structure Answered (run : GossipRun) (x : Nat) (n : Id) (peer : NodeInfo) (view : List NodeInfo) : Prop where
  given : ∃ before c since, run = before ++ .answer x c :: since ∧
    (gossipAfter V τ L rings discoveries before).Listens L c peer ∧ L.info c = peer ∧
    view = ((gossipAfter V τ L rings discoveries before).membership L c).others peer
  waiting : (gossipAfter V τ L rings discoveries run).exchanges[x]? = some ⟨n, peer, .answered (peerListing view)⟩

/-- The ring of node `n` has `peer` and every node of the view. -/
def Learnt (s : Cluster V τ) (n : Id) (peer : NodeInfo) (view : List NodeInfo) : Prop :=
  ∀ P ∈ peer :: view, P ∈ (s.rings (L.ring n)).nodes

/-- Node `n` has `peer` in its ring already, and itself if the view lists it. -/
def Acquainted (s : Cluster V τ) (n : Id) (peer : NodeInfo) (view : List NodeInfo) : Prop :=
  peer ∈ (s.rings (L.ring n)).nodes ∧ (L.info n ∈ view → L.info n ∈ (s.rings (L.ring n)).nodes)

/-- From the end of `run` on, no event of `mid` removes `peer` or a node of the view from the ring of node `n`. -/
def Retained (run mid : GossipRun) (n : Id) (peer : NodeInfo) (view : List NodeInfo) : Prop :=
  ∀ mid₁ e mid₂, mid = mid₁ ++ e :: mid₂ → ∀ c, L.ring c = L.ring n → ∀ P ∈ peer :: view,
    ¬ (gossipAfter V τ L rings discoveries (run ++ mid₁)).Removes L e c P

/-- The answer to exchange `x` arrives, and its view is merged without interruption. -/
def mergeAtOnce (x : Nat) (view : List NodeInfo) : GossipRun :=
  .receive x :: List.replicate (view.length + 1) (.merge x)

variable {V τ L rings discoveries}

theorem Answered.notMem {run : GossipRun} {x : Nat} {n : Id} {peer : NodeInfo} {view : List NodeInfo}
    (h : Answered V τ L rings discoveries run x n peer view) : peer ∉ view := by
  obtain ⟨before, c, since, -, -, -, rfl⟩ := h.given
  exact fun hmem => (Membership.mem_others.1 hmem).2 rfl

/-! ### A merge that other events interrupt -/

section Merging

variable {n : Id} {peer : NodeInfo} {view known : List NodeInfo}

/-- What is left of the view is still to be merged. -/
structure Merging (L : Layout) (s : Cluster V τ) (x : Nat) (n : Id) (peer : NodeInfo) (view known : List NodeInfo)
    (rest : List NodeInfo) : Prop where
  stage : s.exchanges[x]? = some ⟨n, peer, .merging known (rest.map some)⟩
  peer_mem : peer ∈ (s.rings (L.ring n)).nodes
  view_mem : ∀ P ∈ view, P ∈ (s.rings (L.ring n)).nodes ∨ P ∈ rest ∧ P ≠ L.info n ∧ P ∉ known

/-- The merge goes on, or it has ended and the whole view is in the ring. -/
def MergesOn (L : Layout) (x : Nat) (n : Id) (peer : NodeInfo) (view known : List NodeInfo) (s : Cluster V τ) : Prop :=
  (∃ rest, Merging L s x n peer view known rest) ∨
    s.exchanges[x]? = some ⟨n, peer, .ended⟩ ∧ Learnt V τ L s n peer view

variable {s : Cluster V τ}

/-- What nobody removes stays. -/
private theorem mem_apply {e : GossipEvent} {P : NodeInfo}
    (hkeep : ∀ c, L.ring c = L.ring n → ¬ s.Removes L e c P) (hP : P ∈ (s.rings (L.ring n)).nodes) :
    P ∈ ((s.apply L e).rings (L.ring n)).nodes := by
  by_contra hgone
  obtain ⟨c, hc, hremoves⟩ := removes_of_notMem hP hgone
  exact hkeep c hc hremoves

private theorem mergesOn_turn {x : Nat} {rest : List NodeInfo} (h : Merging L s x n peer view known rest) :
    MergesOn L x n peer view known (s.apply L (.merge x)) := by
  have hlt : x < s.exchanges.length := (List.getElem?_eq_some_iff.1 h.stage).1
  cases rest with
  | nil =>
    have hs : s.apply L (.merge x) = s.setStage x ⟨n, peer, .merging known []⟩ .ended := by
      simp only [apply, h.stage, List.map_nil, mergeTurn]
    rw [hs]
    refine Or.inr ⟨List.getElem?_set_self hlt, ?_⟩
    rintro P (_ | ⟨_, hP⟩)
    · exact h.peer_mem
    · exact (h.view_mem P hP).resolve_right (fun hrest => by cases hrest.1)
  | cons new rest =>
    have hs : s.apply L (.merge x) =
        (s.setMembership L n (mergeEntry (L.info n) known (s.membership L n) new)).setStage x
          ⟨n, peer, .merging known (some new :: rest.map some)⟩ (.merging known (rest.map some)) := by
      simp only [apply, h.stage, List.map_cons, mergeTurn]
    have hring : ∀ P, P ∈ ((s.apply L (.merge x)).rings (L.ring n)).nodes ↔
        P ∈ (s.rings (L.ring n)).nodes ∨ P = new ∧ new ≠ L.info n ∧ new ∉ known := by
      intro P
      rw [hs]
      show P ∈ ((s.setMembership L n _).rings (L.ring n)).nodes ↔ _
      rw [setMembership_rings_self]
      exact mem_ring_mergeEntry
    refine Or.inl ⟨rest, ?_, (hring peer).2 (Or.inl h.peer_mem), ?_⟩
    · rw [hs]
      exact List.getElem?_set_self hlt
    · intro P hP
      rw [hring]
      rcases h.view_mem P hP with hold | ⟨hrest, hnew⟩
      · exact Or.inl (Or.inl hold)
      · rcases List.mem_cons.1 hrest with rfl | hrest
        · exact Or.inl (Or.inr ⟨rfl, hnew⟩)
        · exact Or.inr ⟨hrest, hnew⟩

/-- One event of a merge, whatever it is. -/
private theorem mergesOn_apply {x : Nat} {e : GossipEvent}
    (hkeep : ∀ c, L.ring c = L.ring n → ∀ P ∈ peer :: view, ¬ s.Removes L e c P)
    (h : MergesOn L x n peer view known s) : MergesOn L x n peer view known (s.apply L e) := by
  have hstays : ∀ P ∈ peer :: view, P ∈ (s.rings (L.ring n)).nodes → P ∈ ((s.apply L e).rings (L.ring n)).nodes :=
    fun P hP => mem_apply (fun c hc => hkeep c hc P hP)
  rcases h with ⟨rest, h⟩ | ⟨hended, hlearnt⟩
  · by_cases he : e = .merge x
    · subst he
      exact mergesOn_turn h
    · refine Or.inl ⟨rest, exchange_apply h.stage rfl he, hstays peer List.mem_cons_self h.peer_mem, ?_⟩
      exact fun P hP => (h.view_mem P hP).imp_left (hstays P (List.mem_cons_of_mem _ hP))
  · refine Or.inr ⟨?_, fun P hP => hstays P hP (hlearnt P hP)⟩
    by_cases he : e = .merge x
    · subst he
      have hs : s.apply L (.merge x) = s := by simp only [apply, hended]
      rw [hs]
      exact hended
    · exact exchange_apply hended rfl he

/-- A merge that begins with `peer` in the ring, and that nothing disturbs, brings the whole view. -/
private theorem mergesOn_receive {x : Nat} (hx : s.exchanges[x]? = some ⟨n, peer, .answered (peerListing view)⟩)
    (hready : Acquainted V τ L s n peer view) :
    MergesOn L x n peer view (s.rings (L.ring n)).nodes (s.apply L (.receive x)) := by
  have hs : s.apply L (.receive x) = s.setStage x ⟨n, peer, .answered (peerListing view)⟩
      (.merging (s.rings (L.ring n)).nodes (view.map some)) := by
    simp only [apply, hx]
    rfl
  rw [hs]
  refine Or.inl ⟨view, List.getElem?_set_self (List.getElem?_eq_some_iff.1 hx).1, hready.1, ?_⟩
  intro P hP
  by_cases hring : P ∈ (s.rings (L.ring n)).nodes
  · exact Or.inl hring
  · refine Or.inr ⟨hP, ?_, hring⟩
    rintro rfl
    exact hring (hready.2 hP)

end Merging

variable {run : GossipRun} {x : Nat} {n : Id} {peer : NodeInfo} {view : List NodeInfo}

private theorem mergesOn_run (h : Answered V τ L rings discoveries run x n peer view)
    (hready : Acquainted V τ L (gossipAfter V τ L rings discoveries run) n peer view) {mid : GossipRun}
    (hkeep : Retained V τ L rings discoveries (run ++ [.receive x]) mid n peer view) :
    MergesOn L x n peer view ((gossipAfter V τ L rings discoveries run).rings (L.ring n)).nodes
      (gossipAfter V τ L rings discoveries (run ++ .receive x :: mid)) := by
  have hafter : ∀ l, gossipAfter V τ L rings discoveries (run ++ [.receive x] ++ l) =
      after (apply L) ((gossipAfter V τ L rings discoveries run).apply L (.receive x)) l := by
    intro l
    rw [gossipAfter, after_append, after_concat]
    rfl
  rw [List.append_cons, hafter]
  refine after_invariant
    (P := fun _ s => MergesOn L x n peer view ((gossipAfter V τ L rings discoveries run).rings (L.ring n)).nodes s)
    (C := fun pre e => ∀ c, L.ring c = L.ring n → ∀ P ∈ peer :: view,
      ¬ (gossipAfter V τ L rings discoveries (run ++ [GossipEvent.receive x] ++ pre)).Removes L e c P)
    (mergesOn_receive h.waiting hready) ?_ hkeep
  intro pre e hnot hmerges
  rw [hafter] at hnot
  exact mergesOn_apply hnot hmerges

/-- The ring of the asking node after a merge that nothing interrupts. -/
private theorem mem_ring_merged (h : Answered V τ L rings discoveries run x n peer view) (P : NodeInfo) :
    P ∈ ((gossipAfter V τ L rings discoveries (run ++ mergeAtOnce x view)).rings (L.ring n)).nodes ↔
      P ∈ ((gossipAfter V τ L rings discoveries run).rings (L.ring n)).nodes ∨ P ∈ view ∧ P ≠ L.info n := by
  have hlen : ((peerListing (V := V) (τ := τ) view).payload.peers.getD []).length = view.length := by
    simp [peerListing]
  have hmerge := (after_receive_merge (L := L) h.waiting).1
  rw [hlen] at hmerge
  have hring : (gossipAfter V τ L rings discoveries (run ++ mergeAtOnce x view)).rings (L.ring n) =
      (gossipWith (L.info n) peer (.ok (some (peerListing (V := V) (τ := τ) view)))
        ((gossipAfter V τ L rings discoveries run).membership L n)).ring := by
    rw [gossipAfter, after_append]
    exact congrArg Membership.ring hmerge
  rw [hring, mem_ring_gossipWith]
  rfl

/-- An exchange whose merge removes nothing brings the view and the peer if the node had the peer before; a merge that
nothing interrupts brings them only then. -/
theorem learnt_iff_acquainted (V τ : Type) (L : Layout) (rings : Id → RendezvousRing) (discoveries : Id → Discovery)
    (run : GossipRun) (x : Nat) (n : Id) (peer : NodeInfo) (view : List NodeInfo)
    (h : Answered V τ L rings discoveries run x n peer view) :
    (∀ mid, (gossipAfter V τ L rings discoveries (run ++ .receive x :: mid)).exchanges[x]? = some ⟨n, peer, .ended⟩ →
      Retained V τ L rings discoveries (run ++ [.receive x]) mid n peer view →
      Acquainted V τ L (gossipAfter V τ L rings discoveries run) n peer view →
      Learnt V τ L (gossipAfter V τ L rings discoveries (run ++ .receive x :: mid)) n peer view) ∧
    (Learnt V τ L (gossipAfter V τ L rings discoveries (run ++ mergeAtOnce x view)) n peer view ↔
      Acquainted V τ L (gossipAfter V τ L rings discoveries run) n peer view) := by
  constructor
  · intro mid hended hkeep hready
    rcases mergesOn_run h hready hkeep with ⟨rest, hmerging⟩ | ⟨-, hlearnt⟩
    · rw [hmerging.stage, Option.some.injEq, ListExchange.mk.injEq] at hended
      exact absurd hended.2.2 (by simp)
    · exact hlearnt
  · rw [Learnt, Acquainted, List.forall_mem_cons, mem_ring_merged h]
    constructor
    · rintro ⟨hpeer, hview⟩
      refine ⟨hpeer.resolve_right (fun hnew => h.notMem hnew.1), fun hself => ?_⟩
      exact ((mem_ring_merged h _).1 (hview _ hself)).resolve_right (fun hnew => hnew.2 rfl)
    · rintro ⟨hpeer, hself⟩
      refine ⟨Or.inl hpeer, fun P hP => (mem_ring_merged h P).2 ?_⟩
      by_cases heq : P = L.info n
      · subst heq
        exact Or.inl (hself hP)
      · exact Or.inr ⟨hP, heq⟩

/-- Node 7001 asks node 7002, which answers. -/
def askRun : GossipRun := [.start 0 {}, .start 1 {}, .round 0 {} [localhost 7002, localhost 7003], .answer 0 1]

/-- A request of node 7001 to node 7002 fails, and the next one is answered. -/
def evictedRun : GossipRun :=
  [.start 0 {}, .start 1 {}, .round 0 {} [localhost 7002, localhost 7003], .fail 0,
    .round 0 {} [localhost 7002, localhost 7003], .answer 2 1]

theorem learnt_askRun :
    Learnt Nat Int (localLayout id) (localAfter id (askRun ++ mergeAtOnce 0 [localhost 7001, localhost 7003])) 0
      (localhost 7002) [localhost 7001, localhost 7003] :=
  (learnt_iff_acquainted Nat Int (localLayout id) emptyRings staticDiscoveries askRun 0 0 (localhost 7002)
    [localhost 7001, localhost 7003]
    ⟨⟨askRun.take 3, 1, [], rfl, by decide +kernel, rfl, by decide +kernel⟩, rfl⟩).2.2
    ⟨by decide +kernel, fun _ => by decide +kernel⟩

/-- Node 7001 has evicted node 7002, which then answers; node 7001 does not take it back into its ring. -/
theorem evicted_not_learnt :
    Answered Nat Int (localLayout id) emptyRings staticDiscoveries evictedRun 2 0 (localhost 7002)
      [localhost 7001, localhost 7003] ∧
    (localAfter id (evictedRun ++ mergeAtOnce 2 [localhost 7001, localhost 7003])).exchanges[2]? =
      some ⟨0, localhost 7002, .ended⟩ ∧
    ¬ Learnt Nat Int (localLayout id) (localAfter id (evictedRun ++ mergeAtOnce 2 [localhost 7001, localhost 7003])) 0
      (localhost 7002) [localhost 7001, localhost 7003] := by
  refine ⟨⟨⟨evictedRun.take 5, 1, [], rfl, by decide +kernel, rfl, by decide +kernel⟩, rfl⟩, rfl, ?_⟩
  intro h
  exact absurd (h (localhost 7002) List.mem_cons_self) (by decide +kernel)

end DLStorage
