import DLStorage.Cluster.Removal

/-!
# A node in its own ring

A node handles any `PEER_LEAVE` and evicts any peer without asking whether it is meant itself, so that it stays in its
own ring only as long as nothing of the kind is under way.  `Owned` collects what keeps it so: no broadcast goes to the
node that it names, and no node asks itself for its peer list.  An address may be taken over by another node object.
-/

namespace DLStorage

open Base (after_invariant after_keeps)
open Cluster

variable {V τ : Type} {L : Layout}

/-- Nodes with rings of their own, each of them reached at most at the address that it advertises. -/
structure Layout.Private (L : Layout) : Prop where
  rings : Function.Injective L.ring
  reached : ∀ c address, L.reached c address = true → L.info c = address

namespace Cluster

/-- Every node that has begun to start is in its ring, no message goes to the node that it names, and no node exchanges
peer lists with itself. -/
structure Owned (L : Layout) (s : Cluster V τ) : Prop where
  own : ∀ n, s.phase n ≠ .idle → L.info n ∈ (s.rings (L.ring n)).nodes
  notices : ∀ notice ∈ s.notices, notice.msg.payload.peer ≠ some notice.peer
  asked : ∀ (x : Nat) n peer stage, s.exchanges[x]? = some ⟨n, peer, stage⟩ → peer ≠ L.info n

variable {s : Cluster V τ} {e : GossipEvent} {n : Id}

namespace Owned

theorem initial (rings : Id → RendezvousRing) (discoveries : Id → Discovery) :
    (Cluster.initial rings discoveries : Cluster V τ).Owned L where
  own n hn := absurd rfl hn
  notices notice hnotice := by cases hnotice
  asked x n peer stage hx := by cases hx

/-- No node handles its own departure or evicts itself. -/
theorem not_removes (h : s.Owned L) (hL : L.Private) (e : GossipEvent) (n : Id) : ¬ s.Removes L e n (L.info n) := by
  intro hremoves
  cases hremoves with
  | @leave k c notice P sent reaches leaves names =>
    have haddress := hL.reached _ _ reaches.1
    rw [haddress] at names
    exact h.notices notice (List.mem_of_getElem? sent) names
  | unanswered asked waits => exact h.asked _ _ _ _ asked rfl
  | malformed turn => exact h.asked _ _ _ _ turn rfl

/-- No node hears of itself from another one. -/
theorem not_hears (h : s.Owned L) (hL : L.Private) (e : GossipEvent) (n : Id) : ¬ s.Hears L e n (L.info n) := by
  rintro ⟨k, notice, -, hsent, hlistens, -, hnames⟩
  rw [hL.reached _ _ hlistens.1] at hnames
  exact h.notices notice (List.mem_of_getElem? hsent) hnames

/-- A broadcast leaves its sender out. -/
private theorem notices_apply (h : s.Owned L) (e : GossipEvent) :
    ∀ notice ∈ (s.apply L e).notices, notice.msg.payload.peer ≠ some notice.peer := by
  have hbroadcast : ∀ (n : Id) (msg : Message V τ), msg.payload.peer = some (L.info n) →
      ∀ notice ∈ (s.broadcast L n msg).notices, notice.msg.payload.peer ≠ some notice.peer := by
    intro n msg hmsg notice hnotice
    rcases List.mem_append.1 hnotice with hold | hnew
    · exact h.notices notice hold
    · obtain ⟨peer, hpeer, rfl⟩ := List.mem_map.1 hnew
      have hne := (Membership.mem_others.1 hpeer).2
      simp only [hmsg, ne_eq, Option.some.injEq]
      exact fun heq => hne heq.symm
  rcases s.apply_cases e with hsame | hstep
  · rw [hsame]
    exact h.notices
  · generalize s.apply L e = t at hstep
    cases hstep with
    | announceJoin running => exact hbroadcast _ _ rfl
    | announceLeave running => exact hbroadcast _ _ rfl
    | _ => exact h.notices

theorem apply (h : s.Owned L) (hL : L.Private) (e : GossipEvent) : (s.apply L e).Owned L where
  own n hn := by
    by_cases hidle : s.phase n = .idle
    · -- the node starts, and adds itself
      obtain ⟨env, peers, rfl, found⟩ := starts_of_phase hidle hn
      simp only [Cluster.apply, found, setMembership_rings_self]
      exact Membership.mem_ring_bootstrap.2 (Or.inr (Or.inr rfl))
    · by_contra hgone
      obtain ⟨m, hm, hremoves⟩ := removes_of_notMem (h.own n hidle) hgone
      obtain rfl := hL.rings hm
      exact h.not_removes hL e m hremoves
  notices := h.notices_apply e
  asked x n peer stage hx := by
    rcases asked_apply hx with ⟨stage', hold⟩ | ⟨env, peers, -, hpeer⟩
    · exact h.asked x n peer stage' hold
    · exact (Gossip.mem_candidates.1 hpeer).2

end Owned

end Cluster

private theorem owned_after (hL : L.Private) (rings : Id → RendezvousRing) (discoveries : Id → Discovery)
    (run : GossipRun) : (gossipAfter V τ L rings discoveries run).Owned L :=
  after_keeps (P := Owned L) (Owned.initial rings discoveries) (fun _ e h => h.apply hL e) run

/-- The set of a discovery that only node `n` works on never gets the node itself. -/
private theorem not_discovered (hL : L.Private) (rings : Id → RendezvousRing) (discoveries : Id → Discovery) {n : Id}
    (halone : ∀ m, L.discovery m = L.discovery n → m = n)
    (hstart : ∀ d, discoveries (L.discovery n) = .gossip d → L.info n ∉ d.peers) (run : GossipRun) (d : GossipDiscovery)
    (hd : (gossipAfter V τ L rings discoveries run).discoveries (L.discovery n) = .gossip d) : L.info n ∉ d.peers := by
  revert d
  refine after_invariant (P := fun _ (s : Cluster V τ) => ∀ d, s.discoveries (L.discovery n) = .gossip d →
    L.info n ∉ d.peers) (C := fun _ _ => True) hstart ?_ (fun _ _ _ _ => trivial)
  intro pre e _ hold d hd
  rcases discoveries_apply (L := L) (gossipAfter V τ L rings discoveries pre) e (L.discovery n) with hsame | hchanged
  · exact hold d (hsame.symm.trans hd)
  · obtain ⟨m, P, hm, hchange⟩ := hchanged
    obtain rfl := halone m hm
    have howned : (gossipAfter V τ L rings discoveries pre).Owned L := owned_after hL rings discoveries pre
    cases hbefore : (gossipAfter V τ L rings discoveries pre).discoveries (L.discovery m) with
    | gossip d₀ =>
      have hd₀ := hold d₀ hbefore
      rw [hbefore] at hchange
      rcases hchange with ⟨hlearns, hnew⟩ | ⟨-, hnew⟩
      · have hP : P ≠ L.info m := by
          rcases hlearns with hhears | ⟨_, _, _, _, _, _, hother, _⟩
          · exact fun hP => howned.not_hears hL e m (hP ▸ hhears)
          · exact hother
        obtain rfl : (d₀.addPeer P).2 = d := Discovery.gossip.inj (hnew.symm.trans hd)
        rw [GossipDiscovery.mem_addPeer]
        exact fun hmem => hmem.elim hd₀ fun heq => hP heq.symm
      · obtain rfl : d₀.removePeer P = d := Discovery.gossip.inj (hnew.symm.trans hd)
        exact fun hmem => hd₀ (GossipDiscovery.mem_removePeer.1 hmem).1
    | static | dns | aRecord | custom =>
      rw [hbefore] at hchange
      rcases hchange with ⟨-, hnew⟩ | ⟨-, hnew⟩ <;> cases hnew.symm.trans hd

/-- In every run a node that has begun to start is in its ring; no departure is under way to the node that it names; no
node removes itself, or adds itself to its discovery. -/
theorem keeps_own_ring (V τ : Type) (L : Layout) (hL : L.Private) (rings : Id → RendezvousRing)
    (discoveries : Id → Discovery) (run : GossipRun) :
    let s : Cluster V τ := gossipAfter V τ L rings discoveries run
    (∀ n, s.phase n ≠ .idle → L.info n ∈ (s.rings (L.ring n)).nodes) ∧
    (∀ notice ∈ s.notices, notice.msg.type = .peerLeave → ∀ n, notice.msg.payload.peer = some (L.info n) →
      notice.peer ≠ L.info n ∧ ¬ s.Listens L n notice.peer) ∧
    (∀ e n, ¬ s.Removes L e n (L.info n)) ∧ (∀ e n, ¬ s.Hears L e n (L.info n) ∧ ¬ s.Merges L e n (L.info n)) ∧
    ∀ n, (∀ m, L.discovery m = L.discovery n → m = n) →
      (∀ d, discoveries (L.discovery n) = .gossip d → L.info n ∉ d.peers) →
      ∀ d, s.discoveries (L.discovery n) = .gossip d → L.info n ∉ d.peers := by
  intro s
  have h : s.Owned L := owned_after hL rings discoveries run
  refine ⟨h.own, fun notice hnotice _ n hnames => ?_, fun e n => h.not_removes hL e n, fun e n => ⟨?_, ?_⟩,
    fun n halone hstart => not_discovered hL rings discoveries halone hstart run⟩
  · have hne : notice.peer ≠ L.info n := fun heq => h.notices notice hnotice (heq ▸ hnames)
    exact ⟨hne, fun hlistens => hne (hL.reached n notice.peer hlistens.1).symm⟩
  · exact h.not_hears hL e n
  · intro hmerges
    obtain ⟨_, _, _, _, _, _, hother, _⟩ := hmerges
    exact hother rfl

private theorem localLayout_private : (localLayout id).Private where
  rings := Function.injective_id
  reached _ _ h := (of_decide_eq_true h).symm

/-- Node 7002 is in its ring after it has stopped and started again. -/
theorem restarted_in_own_ring :
    (localAfter id restartRun).phase 1 ≠ .idle ∧ localhost 7002 ∈ ((localAfter id restartRun).rings 1).nodes := by
  have hphase : (localAfter id restartRun).phase 1 ≠ .idle := by decide +kernel
  exact ⟨hphase, (keeps_own_ring Nat Int (localLayout id) localLayout_private emptyRings staticDiscoveries
    restartRun).1 1 hphase⟩

end DLStorage
