import DLStorage.Cluster.Removal

/-!
# A departed node is not gossiped back

A node that leaves is dropped by every node that learns of it, and may still come back through an answer that is under
way (`staleAnswerRun`).  Once no other node has it in its ring and no such answer is left, gossip alone never brings it
back: it takes an announcement, even an old one that is delivered late, or the start of a node that is told of it
(`forgotten_for_good`).  The departed node itself may go on exchanging peer lists, since it never lists itself.
-/

namespace DLStorage

open Base (after_append after_invariant)
open Cluster

variable {V τ : Type}

/-- No node but the one at `P` has `P` in its ring, and no answer under way lists it. -/
structure Forgotten (L : Layout) (s : Cluster V τ) (P : NodeInfo) : Prop where
  rings : ∀ n, L.info n ≠ P → P ∉ (s.rings (L.ring n)).nodes
  answers : ∀ x n peer, ¬ s.Brings x n peer P

/-- A node that works on the ring of one that is not at `P` hears of `P`, or finds `P` at its start. -/
def Reintroduces (L : Layout) (s : Cluster V τ) (e : GossipEvent) (P : NodeInfo) : Prop :=
  ∃ n c, L.info n ≠ P ∧ L.ring c = L.ring n ∧ (s.Hears L e c P ∨ s.StartsWith L e c P)

private theorem forgotten_apply {L : Layout} {s : Cluster V τ} {e : GossipEvent} {P : NodeInfo}
    (h : Forgotten L s P) (he : ¬ Reintroduces L s e P) : Forgotten L (s.apply L e) P := by
  constructor
  · intro n hn hmem
    rcases mem_rings_apply hmem with hold | ⟨c, hc, hhears | hstarts | hmerges⟩
    · exact h.rings n hn hold
    · exact he ⟨n, c, hn, hc, Or.inl hhears⟩
    · exact he ⟨n, c, hn, hc, Or.inr hstarts⟩
    · -- what is merged was listed by an answer
      obtain ⟨x, peer, known, rest, -, hx, -, -⟩ := hmerges
      exact h.answers x c peer ⟨_, hx, List.mem_cons_self⟩
  · intro x n peer hbrings
    rcases brings_apply hbrings with hold | ⟨c, -, -, hring, hne⟩
    · exact h.answers x n peer hold
    · exact h.rings c (Ne.symm hne) hring

/-- In every run of every cluster, a node that the others have forgotten stays forgotten until a node hears of it or
finds it at its start, and until then no other node routes a key to it. -/
theorem forgotten_for_good (V τ : Type) (L : Layout) (rings : Id → RendezvousRing) (discoveries : Id → Discovery)
    (pre post : GossipRun) (P : NodeInfo) (h : Forgotten L (gossipAfter V τ L rings discoveries pre) P)
    (hpost : ∀ mid e rest, post = mid ++ e :: rest →
      ¬ Reintroduces L (gossipAfter V τ L rings discoveries (pre ++ mid)) e P) :
    Forgotten L (gossipAfter V τ L rings discoveries (pre ++ post)) P ∧
      ∀ n, L.info n ≠ P → ∀ (sha256 : String → List UInt8) key replication,
        P ∉ ((gossipAfter V τ L rings discoveries (pre ++ post)).rings (L.ring n)).getNodes sha256 key replication := by
  have hafter : ∀ mid, gossipAfter V τ L rings discoveries (pre ++ mid) =
      Base.after (Cluster.apply L) (gossipAfter V τ L rings discoveries pre) mid := by
    intro mid
    rw [gossipAfter, after_append]
    rfl
  have hforgotten : Forgotten L (gossipAfter V τ L rings discoveries (pre ++ post)) P := by
    rw [hafter]
    refine after_invariant (P := fun _ s => Forgotten L s P)
      (C := fun mid e => ¬ Reintroduces L (gossipAfter V τ L rings discoveries (pre ++ mid)) e P) h ?_ hpost
    intro mid e he hforgotten
    rw [hafter] at he
    exact forgotten_apply hforgotten he
  refine ⟨hforgotten, ?_⟩
  intro n hn sha256 key replication hmem
  rw [RendezvousRing.getNodes_eq_top] at hmem
  exact hforgotten.rings n hn (Base.top_subset hmem)

/-- Node 7003 leaves, and the two others learn of it. -/
def departureRun : GossipRun :=
  [.start 0 {}, .start 1 {}, .start 2 {}, .announceLeave 2, .deliver 0 0, .deliver 1 1]

/-- Node 7001 asks the two others for their peer lists; node 7003 still answers. -/
def afterwardsRun : GossipRun :=
  [.round 0 {} [localhost 7002, localhost 7003], .answer 0 1, .answer 1 2, .receive 0, .merge 0, .merge 0, .receive 1,
    .merge 1, .merge 1, .merge 1]

private theorem departureRun_forgotten : Forgotten (localLayout id) (localAfter id departureRun) (localhost 7003) := by
  constructor
  · intro n hn
    match n, hn with
    | 0, _ => decide +kernel
    | 1, _ => decide +kernel
    | 2, hn => exact absurd rfl hn
    | n + 3, _ => exact List.not_mem_nil
  · rintro x n peer ⟨stage, hx, -⟩
    cases hx

/-- Node 7003 gets no key of node 7001 any more. -/
theorem departureRun_final :
    localhost 7003 ∉ ((localAfter id (departureRun ++ afterwardsRun)).rings 0).getNodes sha256Digest "k" 2 := by
  refine (forgotten_for_good Nat Int (localLayout id) emptyRings staticDiscoveries departureRun afterwardsRun
    (localhost 7003) departureRun_forgotten ?_).2 0 (by decide) sha256Digest "k" 2
  rintro mid e rest hrun ⟨n, c, -, -, h⟩
  have he : e ∈ afterwardsRun := by
    rw [hrun]
    simp
  rcases h with ⟨k, notice, rfl, -⟩ | ⟨env, peers, rfl, -⟩
  · simp [afterwardsRun] at he
  · simp [afterwardsRun] at he

end DLStorage
