import DLStorage.Base.Run
import DLStorage.PeerComm.Gossip

/-!
# Gossip in a cluster

Any number of node objects start, stop, broadcast, and exchange peer lists.  A broadcast message is handled by a node
that is reached at the address it was sent to, late, several times (a pool repeats a request whose answer it missed) or
never.  An exchange passes through its stages one event at a time, so that everything else may happen between the
request, the answer, its arrival, and the turns of the merge loop of a blocking node; an async node merges without
interruption, which `after_receive_merge` shows to be `gossipWith`.  `apply_cases` says what each event does.
-/

namespace DLStorage

open Base (after)
open Gossip

/-- The identity of an object. -/
abbrev Id := Nat

/-- The address that each node object advertises, the addresses at which it is reached, and the ring and the discovery
object that it works on.  Nodes of one process may share these: those that are left on the default argument share one
ring. -/
structure Layout where
  info : Id → NodeInfo
  reached : Id → NodeInfo → Bool
  ring : Id → Id
  discovery : Id → Id

/-- A stopped node is one that has announced its departure; its threads may still be at work. -/
inductive Phase
  | idle
  | running
  | stopped
  deriving DecidableEq

/-- Where an exchange of peer lists stands. -/
inductive Stage (V τ : Type)
  | asked
  | answered (resp : Message V τ)
  | merging (known : List NodeInfo) (rest : List (Option NodeInfo))
  | ended

/-- A peer that `node` has asked for its peer list. -/
structure ListExchange (V τ : Type) where
  node : Id
  peer : NodeInfo
  stage : Stage V τ

/-- A message of a broadcast, with the address it was sent to. -/
structure Notice (V τ : Type) where
  peer : NodeInfo
  msg : Message V τ

structure Cluster (V τ : Type) where
  rings : Id → RendezvousRing
  discoveries : Id → Discovery
  phase : Id → Phase
  notices : List (Notice V τ)
  exchanges : List (ListExchange V τ)

inductive GossipEvent
  /-- `start()` up to `ring.add(self.info)`. -/
  | start (n : Id) (env : Environment)
  | announceJoin (n : Id)
  | announceLeave (n : Id)
  /-- Node `c` handles message `k` of those broadcast so far. -/
  | deliver (k : Nat) (c : Id)
  /-- A round of `gossip_loop` that draws `sample`. -/
  | round (n : Id) (env : Environment) (sample : List NodeInfo)
  /-- Node `c` answers the request of exchange `x`. -/
  | answer (x : Nat) (c : Id)
  /-- The pool of the asking node returns `None`, or raises. -/
  | fail (x : Nat)
  /-- The answer arrives. -/
  | receive (x : Nat)
  /-- The next turn of the merge loop. -/
  | merge (x : Nat)

abbrev GossipRun := List GossipEvent

variable {V τ : Type}

/-- The exchange still waits for its answer. -/
def Stage.isOpen : Stage V τ → Bool
  | asked => true
  | answered _ => true
  | _ => false

/-- The entries of the answer that have not been merged yet. -/
def Stage.entries : Stage V τ → List (Option NodeInfo)
  | answered resp => resp.payload.peers.getD []
  | merging _ rest => rest
  | _ => []

/-- The answer holds an entry for `P` that has not been merged yet. -/
def Stage.Lists (P : NodeInfo) : Stage V τ → Prop
  | answered resp => some P ∈ resp.payload.peers.getD []
  | merging _ rest => some P ∈ rest
  | _ => False

theorem Stage.lists_iff {stage : Stage V τ} {P : NodeInfo} : stage.Lists P ↔ some P ∈ stage.entries := by
  cases stage <;> simp [Stage.Lists, Stage.entries]

namespace Cluster

variable (L : Layout) (s : Cluster V τ)

/-- The cluster before anything happens. -/
def initial (rings : Id → RendezvousRing) (discoveries : Id → Discovery) : Cluster V τ :=
  ⟨rings, discoveries, fun _ => .idle, [], []⟩

def membership (n : Id) : Membership := ⟨s.rings (L.ring n), s.discoveries (L.discovery n)⟩

def setMembership (n : Id) (m : Membership) : Cluster V τ :=
  { s with
    rings := Function.update s.rings (L.ring n) m.ring
    discoveries := Function.update s.discoveries (L.discovery n) m.discovery }

def setStage (x : Nat) (e : ListExchange V τ) (stage : Stage V τ) : Cluster V τ :=
  { s with exchanges := s.exchanges.set x { e with stage := stage } }

/-- Node `c` serves requests at an address. -/
def Listens (c : Id) (address : NodeInfo) : Prop := L.reached c address = true ∧ s.phase c ≠ .idle

instance (c : Id) (address : NodeInfo) : Decidable (s.Listens L c address) := inferInstanceAs (Decidable (_ ∧ _))

/-- `_broadcast`. -/
def broadcast (n : Id) (msg : Message V τ) : Cluster V τ :=
  { s with notices := s.notices ++ ((s.membership L n).others (L.info n)).map (fun peer => ⟨peer, msg⟩) }

/-- A node handles a message, and its membership becomes what `handle_message` leaves. -/
def handle (c : Id) (msg : Message V τ) : Cluster V τ :=
  match handleMessage (L.info c) (s.membership L c) msg with
  | .ok (_, m) => s.setMembership L c m
  | .error _ => s

/-- The next turn of the merge loop of exchange `x`. -/
def mergeTurn (x : Nat) (e : ListExchange V τ) (known : List NodeInfo) : List (Option NodeInfo) → Cluster V τ
  | [] => s.setStage x e .ended
  | none :: _ => (s.setMembership L e.node ((s.membership L e.node).evict e.peer)).setStage x e .ended
  | some new :: rest =>
    (s.setMembership L e.node (mergeEntry (L.info e.node) known (s.membership L e.node) new)).setStage x e
      (.merging known rest)

/-- The cluster after an event; an event that cannot happen changes nothing. -/
def apply : GossipEvent → Cluster V τ
  | .start n env =>
    match (s.membership L n).discovery.getPeers env with
    -- the exception leaves `start()` before the ring has changed
    | none => s
    | some peers =>
      { s.setMembership L n ((s.membership L n).bootstrap (L.info n) peers) with
        phase := Function.update s.phase n .running }
  | .announceJoin n =>
    if s.phase n = .running then s.broadcast L n (Gossip.announceJoin (L.info n)) else s
  | .announceLeave n =>
    if s.phase n = .running then
      { s.broadcast L n (Gossip.announceLeave (L.info n)) with phase := Function.update s.phase n .stopped }
    else s
  | .deliver k c =>
    match s.notices[k]? with
    | none => s
    | some notice => if s.Listens L c notice.peer then s.handle L c notice.msg else s
  | .round n env sample =>
    match (s.membership L n).discovery.getPeers env with
    | none => s
    | some peers =>
      if s.phase n ≠ .idle ∧ IsSample sample (candidates (L.info n) peers) then
        { s with exchanges := s.exchanges ++ sample.map (fun peer => ⟨n, peer, .asked⟩) }
      else s
  | .answer x c =>
    match s.exchanges[x]? with
    | none => s
    | some e =>
      -- a request that the pool repeats may be answered again, and the later answer arrives
      if e.stage.isOpen = true ∧ s.Listens L c e.peer then
        match handleMessage (L.info c) (s.membership L c) (listRequest (L.info e.node)) with
        | .ok (resp, m) => (s.setMembership L c m).setStage x e (.answered resp)
        | .error _ => s
      else s
  | .fail x =>
    match s.exchanges[x]? with
    | none => s
    | some e =>
      if e.stage.isOpen = true then
        (s.setMembership L e.node ((s.membership L e.node).evict e.peer)).setStage x e .ended
      else s
  | .receive x =>
    match s.exchanges[x]? with
    | some ⟨n, peer, .answered resp⟩ =>
      if resp.type = .peerList then
        s.setStage x ⟨n, peer, .answered resp⟩
          (.merging (s.membership L n).ring.nodes (resp.payload.peers.getD []))
      else s.setStage x ⟨n, peer, .answered resp⟩ .ended
    | _ => s
  | .merge x =>
    match s.exchanges[x]? with
    | some ⟨n, peer, .merging known rest⟩ => s.mergeTurn L x ⟨n, peer, .merging known rest⟩ known rest
    | _ => s

/-! ### The steps -/

variable {L s}

@[simp] theorem membership_setMembership (n : Id) (m : Membership) : (s.setMembership L n m).membership L n = m := by
  simp [membership, setMembership]

@[simp] theorem setMembership_membership (n : Id) : s.setMembership L n (s.membership L n) = s := by
  simp [membership, setMembership]

@[simp] theorem membership_setStage (n : Id) (x : Nat) (e : ListExchange V τ) (stage : Stage V τ) :
    (s.setStage x e stage).membership L n = s.membership L n := rfl

@[simp] theorem setMembership_rings_self (n : Id) (m : Membership) :
    (s.setMembership L n m).rings (L.ring n) = m.ring :=
  Function.update_self ..

/-- The answer of a node to a request for its peer list. -/
def listing (L : Layout) (s : Cluster V τ) (c : Id) : Message V τ :=
  { type := .peerList, payload := { peers := some (((s.membership L c).others (L.info c)).map some) } }

/-- What an event that can happen does. -/
inductive Step (L : Layout) (s : Cluster V τ) : GossipEvent → Cluster V τ → Prop
  | start {n : Id} {env : Environment} {peers : List NodeInfo}
      (found : (s.membership L n).discovery.getPeers env = some peers) :
      Step L s (.start n env)
        { s.setMembership L n ((s.membership L n).bootstrap (L.info n) peers) with
          phase := Function.update s.phase n .running }
  | announceJoin {n : Id} (running : s.phase n = .running) :
      Step L s (.announceJoin n) (s.broadcast L n (Gossip.announceJoin (L.info n)))
  | announceLeave {n : Id} (running : s.phase n = .running) :
      Step L s (.announceLeave n)
        { s.broadcast L n (Gossip.announceLeave (L.info n)) with phase := Function.update s.phase n .stopped }
  | deliver {k : Nat} {c : Id} {notice : Notice V τ} {resp : Message V τ} {m : Membership}
      (sent : s.notices[k]? = some notice) (listens : s.Listens L c notice.peer)
      (handled : handleMessage (L.info c) (s.membership L c) notice.msg = .ok (resp, m)) :
      Step L s (.deliver k c) (s.setMembership L c m)
  | round {n : Id} {env : Environment} {peers sample : List NodeInfo}
      (found : (s.membership L n).discovery.getPeers env = some peers) (awake : s.phase n ≠ .idle)
      (drawn : IsSample sample (candidates (L.info n) peers)) :
      Step L s (.round n env sample)
        { s with exchanges := s.exchanges ++ sample.map (fun peer => ⟨n, peer, .asked⟩) }
  | answer {x : Nat} {c : Id} {e : ListExchange V τ} (asked : s.exchanges[x]? = some e)
      (waits : e.stage.isOpen = true) (listens : s.Listens L c e.peer) :
      Step L s (.answer x c) (s.setStage x e (.answered (s.listing L c)))
  | fail {x : Nat} {e : ListExchange V τ} (asked : s.exchanges[x]? = some e) (waits : e.stage.isOpen = true) :
      Step L s (.fail x) ((s.setMembership L e.node ((s.membership L e.node).evict e.peer)).setStage x e .ended)
  | receive {x : Nat} {n : Id} {peer : NodeInfo} {resp : Message V τ}
      (answered : s.exchanges[x]? = some ⟨n, peer, .answered resp⟩) (lists : resp.type = .peerList) :
      Step L s (.receive x) (s.setStage x ⟨n, peer, .answered resp⟩
        (.merging (s.membership L n).ring.nodes (resp.payload.peers.getD [])))
  | ignore {x : Nat} {n : Id} {peer : NodeInfo} {resp : Message V τ}
      (answered : s.exchanges[x]? = some ⟨n, peer, .answered resp⟩) (other : resp.type ≠ .peerList) :
      Step L s (.receive x) (s.setStage x ⟨n, peer, .answered resp⟩ .ended)
  | finish {x : Nat} {n : Id} {peer : NodeInfo} {known : List NodeInfo}
      (turn : s.exchanges[x]? = some ⟨n, peer, .merging known []⟩) :
      Step L s (.merge x) (s.setStage x ⟨n, peer, .merging known []⟩ .ended)
  | malformed {x : Nat} {n : Id} {peer : NodeInfo} {known : List NodeInfo} {rest : List (Option NodeInfo)}
      (turn : s.exchanges[x]? = some ⟨n, peer, .merging known (none :: rest)⟩) :
      Step L s (.merge x) ((s.setMembership L n ((s.membership L n).evict peer)).setStage x
        ⟨n, peer, .merging known (none :: rest)⟩ .ended)
  | merge {x : Nat} {n : Id} {peer new : NodeInfo} {known : List NodeInfo} {rest : List (Option NodeInfo)}
      (turn : s.exchanges[x]? = some ⟨n, peer, .merging known (some new :: rest)⟩) :
      Step L s (.merge x) ((s.setMembership L n (mergeEntry (L.info n) known (s.membership L n) new)).setStage x
        ⟨n, peer, .merging known (some new :: rest)⟩ (.merging known rest))

/-- An event changes nothing, or takes the step that it stands for. -/
theorem apply_cases (s : Cluster V τ) (e : GossipEvent) : s.apply L e = s ∨ s.Step L e (s.apply L e) := by
  cases e with
  | start n env =>
    simp only [apply]
    split
    · exact Or.inl rfl
    · rename_i found
      exact Or.inr (.start found)
  | announceJoin n =>
    simp only [apply]
    split
    · rename_i running
      exact Or.inr (.announceJoin running)
    · exact Or.inl rfl
  | announceLeave n =>
    simp only [apply]
    split
    · rename_i running
      exact Or.inr (.announceLeave running)
    · exact Or.inl rfl
  | deliver k c =>
    simp only [apply, handle]
    split
    · exact Or.inl rfl
    · rename_i sent
      split
      · rename_i listens
        split
        · rename_i handled
          exact Or.inr (.deliver sent listens handled)
        · exact Or.inl rfl
      · exact Or.inl rfl
  | round n env sample =>
    simp only [apply]
    split
    · exact Or.inl rfl
    · rename_i found
      split
      · rename_i ready
        exact Or.inr (.round found ready.1 ready.2)
      · exact Or.inl rfl
  | answer x c =>
    simp only [apply, handleMessage_listRequest, setMembership_membership]
    split
    · exact Or.inl rfl
    · rename_i asked
      split
      · rename_i ready
        exact Or.inr (.answer asked ready.1 ready.2)
      · exact Or.inl rfl
  | fail x =>
    simp only [apply]
    split
    · exact Or.inl rfl
    · rename_i asked
      split
      · rename_i waits
        exact Or.inr (.fail asked waits)
      · exact Or.inl rfl
  | receive x =>
    simp only [apply]
    split
    · rename_i answered
      split
      · rename_i lists
        exact Or.inr (.receive answered lists)
      · rename_i other
        exact Or.inr (.ignore answered other)
    · exact Or.inl rfl
  | merge x =>
    simp only [apply]
    split
    · rename_i n peer known rest turn
      match rest with
      | [] => exact Or.inr (.finish turn)
      | none :: rest => exact Or.inr (.malformed turn)
      | some new :: rest => exact Or.inr (.merge turn)
    · exact Or.inl rfl

/-! ### What an event does to the rings -/

/-- Node `n` handles a `PEER_ANNOUNCE` that names `P`. -/
def Hears (L : Layout) (s : Cluster V τ) (e : GossipEvent) (n : Id) (P : NodeInfo) : Prop :=
  ∃ k notice, e = .deliver k n ∧ s.notices[k]? = some notice ∧ s.Listens L n notice.peer ∧
    notice.msg.type = .peerAnnounce ∧ notice.msg.payload.peer = some P

/-- Node `n` starts and finds `P` through its discovery, or is `P` itself. -/
def StartsWith (L : Layout) (s : Cluster V τ) (e : GossipEvent) (n : Id) (P : NodeInfo) : Prop :=
  ∃ env peers, e = .start n env ∧ (s.membership L n).discovery.getPeers env = some peers ∧
    (P ∈ peers ∨ P = L.info n)

/-- Node `n` merges an entry for `P`, which it did not know when the merge began. -/
def Merges (L : Layout) (s : Cluster V τ) (e : GossipEvent) (n : Id) (P : NodeInfo) : Prop :=
  ∃ x peer known rest, e = .merge x ∧ s.exchanges[x]? = some ⟨n, peer, .merging known (some P :: rest)⟩ ∧
    P ≠ L.info n ∧ P ∉ known

/-- Node `n` handles a `PEER_LEAVE` for `P`, or evicts `P`. -/
inductive Removes (L : Layout) (s : Cluster V τ) : GossipEvent → Id → NodeInfo → Prop
  | leave {k : Nat} {c : Id} {notice : Notice V τ} {P : NodeInfo} (sent : s.notices[k]? = some notice)
      (reaches : s.Listens L c notice.peer) (leaves : notice.msg.type = .peerLeave)
      (names : notice.msg.payload.peer = some P) : Removes L s (.deliver k c) c P
  | unanswered {x : Nat} {n : Id} {P : NodeInfo} {stage : Stage V τ} (asked : s.exchanges[x]? = some ⟨n, P, stage⟩)
      (waits : stage.isOpen = true) : Removes L s (.fail x) n P
  | malformed {x : Nat} {n : Id} {P : NodeInfo} {known : List NodeInfo} {rest : List (Option NodeInfo)}
      (turn : s.exchanges[x]? = some ⟨n, P, .merging known (none :: rest)⟩) : Removes L s (.merge x) n P

/-- A ring that has gained `P` is the ring of a node whose new membership has it. -/
private theorem mem_setMembership {n r : Id} {m : Membership} {P : NodeInfo} {A : Prop}
    (hm : P ∈ m.ring.nodes → P ∈ (s.membership L n).ring.nodes ∨ A)
    (h : P ∈ ((s.setMembership L n m).rings r).nodes) : P ∈ (s.rings r).nodes ∨ L.ring n = r ∧ A := by
  by_cases hr : r = L.ring n
  · subst hr
    rw [setMembership_rings_self] at h
    rcases hm h with hold | ha
    · exact Or.inl hold
    · exact Or.inr ⟨rfl, ha⟩
  · have hs : (s.setMembership L n m).rings r = s.rings r := Function.update_of_ne hr ..
    rw [hs] at h
    exact Or.inl h

private theorem mem_evict {n r : Id} {peer P : NodeInfo}
    (h : P ∈ ((s.setMembership L n ((s.membership L n).evict peer)).rings r).nodes) : P ∈ (s.rings r).nodes := by
  refine (mem_setMembership (A := False) ?_ h).resolve_right (fun ha => ha.2)
  rw [Membership.mem_ring_evict]
  exact fun hold => Or.inl hold.1

/-- A ring gains only what a node that works on it hears of, finds at its start, or merges. -/
theorem mem_rings_apply {e : GossipEvent} {r : Id} {P : NodeInfo} (h : P ∈ ((s.apply L e).rings r).nodes) :
    P ∈ (s.rings r).nodes ∨
      ∃ n, L.ring n = r ∧ (s.Hears L e n P ∨ s.StartsWith L e n P ∨ s.Merges L e n P) := by
  rcases s.apply_cases e with hsame | hstep
  · rw [hsame] at h
    exact Or.inl h
  · generalize s.apply L e = t at h hstep
    cases hstep with
    | start found =>
      refine (mem_setMembership ?_ h).imp_right (fun ha => ⟨_, ha.1, Or.inr (Or.inl ⟨_, _, rfl, found, ha.2⟩)⟩)
      rw [Membership.mem_ring_bootstrap]
      exact id
    | deliver sent listens handled =>
      refine (mem_setMembership ?_ h).imp_right (fun ha => ⟨_, ha.1, Or.inl ⟨_, _, rfl, sent, listens, ha.2⟩⟩)
      rcases handleMessage_cases handled with rfl | ⟨peer, ht, hp, rfl⟩ | ⟨peer, ht, hp, rfl⟩
      · exact Or.inl
      · rw [Membership.mem_ring_enlist]
        rintro (hold | rfl)
        · exact Or.inl hold
        · exact Or.inr ⟨ht, hp⟩
      · rw [Membership.mem_ring_evict]
        exact fun hold => Or.inl hold.1
    | merge turn =>
      refine (mem_setMembership ?_ h).imp_right (fun ha => ⟨_, ha.1, Or.inr (Or.inr ha.2)⟩)
      rw [mem_ring_mergeEntry]
      rintro (hold | ⟨rfl, hother, hunknown⟩)
      · exact Or.inl hold
      · exact Or.inr ⟨_, _, _, _, rfl, turn, hother, hunknown⟩
    | fail asked waits => exact Or.inl (mem_evict h)
    | malformed turn => exact Or.inl (mem_evict h)
    | _ => exact Or.inl h

/-- A node that removes `P` does not have it in its ring afterwards. -/
theorem notMem_of_removes {e : GossipEvent} {n : Id} {P : NodeInfo} (h : s.Removes L e n P) :
    P ∉ ((s.apply L e).rings (L.ring n)).nodes := by
  cases h with
  | leave sent reaches leaves names =>
    simp only [apply, sent, if_pos reaches, handle, handleMessage_peerLeave leaves names, setMembership_rings_self]
    exact fun h => (Membership.mem_ring_evict.1 h).2 rfl
  | unanswered asked waits =>
    simp only [apply, asked, if_pos waits, setStage, setMembership_rings_self]
    exact fun h => (Membership.mem_ring_evict.1 h).2 rfl
  | malformed turn =>
    simp only [apply, turn, mergeTurn, setStage, setMembership_rings_self]
    exact fun h => (Membership.mem_ring_evict.1 h).2 rfl

private theorem notMem_setMembership {n r : Id} {m : Membership} {P : NodeInfo} (hP : P ∈ (s.rings r).nodes)
    (hgone : P ∉ ((s.setMembership L n m).rings r).nodes) :
    L.ring n = r ∧ P ∈ (s.membership L n).ring.nodes ∧ P ∉ m.ring.nodes := by
  by_cases hr : r = L.ring n
  · subst hr
    rw [setMembership_rings_self] at hgone
    exact ⟨rfl, hP, hgone⟩
  · have hs : (s.setMembership L n m).rings r = s.rings r := Function.update_of_ne hr ..
    exact absurd hP (hs ▸ hgone)

/-- A ring loses only what a node that works on it removes. -/
theorem removes_of_notMem {e : GossipEvent} {r : Id} {P : NodeInfo} (hP : P ∈ (s.rings r).nodes)
    (hgone : P ∉ ((s.apply L e).rings r).nodes) : ∃ n, L.ring n = r ∧ s.Removes L e n P := by
  rcases s.apply_cases e with hsame | hstep
  · rw [hsame] at hgone
    exact absurd hP hgone
  · generalize s.apply L e = t at hgone hstep
    cases hstep with
    | start found =>
      obtain ⟨-, hmem, hlost⟩ := notMem_setMembership hP hgone
      exact absurd (Membership.mem_ring_bootstrap.2 (Or.inl hmem)) hlost
    | deliver sent listens handled =>
      obtain ⟨hr, hmem, hlost⟩ := notMem_setMembership hP hgone
      refine ⟨_, hr, ?_⟩
      rcases handleMessage_cases handled with rfl | ⟨peer, ht, hp, rfl⟩ | ⟨peer, ht, hp, rfl⟩
      · exact absurd hmem hlost
      · exact absurd (Membership.mem_ring_enlist.2 (Or.inl hmem)) hlost
      · rw [Membership.mem_ring_evict, not_and_not_right] at hlost
        obtain rfl := hlost hmem
        exact .leave sent listens ht hp
    | @fail x e asked waits =>
      obtain ⟨hr, hmem, hlost⟩ := notMem_setMembership hP hgone
      rw [Membership.mem_ring_evict, not_and_not_right] at hlost
      obtain rfl := hlost hmem
      exact ⟨_, hr, .unanswered asked waits⟩
    | malformed turn =>
      obtain ⟨hr, hmem, hlost⟩ := notMem_setMembership hP hgone
      rw [Membership.mem_ring_evict, not_and_not_right] at hlost
      obtain rfl := hlost hmem
      exact ⟨_, hr, .malformed turn⟩
    | merge turn =>
      obtain ⟨-, hmem, hlost⟩ := notMem_setMembership hP hgone
      exact absurd (mem_ring_mergeEntry.2 (Or.inl hmem)) hlost
    | _ => exact absurd hP hgone

/-! ### What an event does to the phases, the discoveries and the broadcasts -/

/-- A node that has begun to start does not become idle again. -/
theorem phase_apply {e : GossipEvent} {n : Id} (hn : s.phase n ≠ .idle) : (s.apply L e).phase n ≠ .idle := by
  rcases s.apply_cases e with hsame | hstep
  · rw [hsame]
    exact hn
  · generalize s.apply L e = t at hstep
    cases hstep with
    | @start m env peers found =>
      show Function.update s.phase m .running n ≠ .idle
      rw [Function.update_apply]
      split
      · decide
      · exact hn
    | @announceLeave m running =>
      show Function.update s.phase m .stopped n ≠ .idle
      rw [Function.update_apply]
      split
      · decide
      · exact hn
    | _ => exact hn

/-- Only its start takes a node out of the idle phase. -/
theorem starts_of_phase {e : GossipEvent} {n : Id} (hidle : s.phase n = .idle) (hn : (s.apply L e).phase n ≠ .idle) :
    ∃ env peers, e = .start n env ∧ (s.membership L n).discovery.getPeers env = some peers := by
  rcases s.apply_cases e with hsame | hstep
  · rw [hsame] at hn
    exact absurd hidle hn
  · generalize s.apply L e = t at hn hstep
    cases hstep with
    | @start m env peers found =>
      by_cases hm : n = m
      · subst hm
        exact ⟨env, peers, rfl, found⟩
      · exact absurd ((Function.update_of_ne hm ..).trans hidle) hn
    | @announceLeave m running =>
      by_cases hm : n = m
      · subst hm
        rw [hidle] at running
        cases running
      · exact absurd ((Function.update_of_ne hm ..).trans hidle) hn
    | _ => exact absurd hidle hn

/-- Only an announced departure stops a node. -/
theorem leaves_of_phase {e : GossipEvent} {n : Id} (hn : s.phase n ≠ .stopped)
    (hstopped : (s.apply L e).phase n = .stopped) : e = .announceLeave n := by
  rcases s.apply_cases e with hsame | hstep
  · rw [hsame] at hstopped
    exact absurd hstopped hn
  · generalize s.apply L e = t at hstopped hstep
    cases hstep with
    | @start m env peers found =>
      by_cases hm : n = m
      · subst hm
        have hrunning : Phase.running = .stopped := (Function.update_self ..).symm.trans hstopped
        cases hrunning
      · exact absurd ((Function.update_of_ne hm ..).symm.trans hstopped) hn
    | @announceLeave m running =>
      by_cases hm : n = m
      · rw [hm]
      · exact absurd ((Function.update_of_ne hm ..).symm.trans hstopped) hn
    | _ => exact absurd hstopped hn

private theorem discoveries_setMembership {n : Id} {m : Membership} {f : Discovery → Discovery} (i : Id)
    (hm : m.discovery = f (s.membership L n).discovery) :
    (s.setMembership L n m).discoveries i = s.discoveries i ∨
      L.discovery n = i ∧ (s.setMembership L n m).discoveries i = f (s.discoveries i) := by
  by_cases hi : i = L.discovery n
  · subst hi
    exact Or.inr ⟨rfl, (Function.update_self ..).trans hm⟩
  · exact Or.inl (Function.update_of_ne hi ..)

/-- A discovery is told of a peer that a node which works on it hears of, merges or removes. -/
theorem discoveries_apply (s : Cluster V τ) (e : GossipEvent) (i : Id) :
    (s.apply L e).discoveries i = s.discoveries i ∨
      ∃ n P, L.discovery n = i ∧
        ((s.Hears L e n P ∨ s.Merges L e n P) ∧ (s.apply L e).discoveries i = (s.discoveries i).addPeer P ∨
          s.Removes L e n P ∧ (s.apply L e).discoveries i = (s.discoveries i).removePeer P) := by
  rcases s.apply_cases e with hsame | hstep
  · exact Or.inl (congrArg (fun t : Cluster V τ => t.discoveries i) hsame)
  · generalize s.apply L e = t at hstep
    cases hstep with
    | @start n env peers found =>
      have hnew := discoveries_setMembership (m := (s.membership L n).bootstrap (L.info n) peers) (f := id) i rfl
      exact Or.inl (hnew.elim id And.right)
    | @deliver k c notice resp m sent listens handled =>
      rcases handleMessage_cases handled with rfl | ⟨peer, ht, hp, rfl⟩ | ⟨peer, ht, hp, rfl⟩
      · rw [setMembership_membership]
        exact Or.inl rfl
      · refine (discoveries_setMembership i rfl).imp_right (fun hnew => ⟨c, peer, hnew.1, Or.inl ⟨Or.inl ?_, hnew.2⟩⟩)
        exact ⟨k, notice, rfl, sent, listens, ht, hp⟩
      · refine (discoveries_setMembership i rfl).imp_right (fun hnew => ⟨c, peer, hnew.1, Or.inr ⟨?_, hnew.2⟩⟩)
        exact .leave sent listens ht hp
    | @fail x e asked waits =>
      refine (discoveries_setMembership i rfl).imp_right (fun hnew => ⟨e.node, e.peer, hnew.1, Or.inr ⟨?_, hnew.2⟩⟩)
      exact .unanswered asked waits
    | @malformed x n peer known rest turn =>
      refine (discoveries_setMembership i rfl).imp_right (fun hnew => ⟨n, peer, hnew.1, Or.inr ⟨?_, hnew.2⟩⟩)
      exact .malformed turn
    | @merge x n peer new known rest turn =>
      by_cases hadds : new ≠ L.info n ∧ new ∉ known
      · rw [mergeEntry, if_pos hadds]
        refine (discoveries_setMembership i rfl).imp_right (fun hnew => ⟨n, new, hnew.1, Or.inl ⟨Or.inr ?_, hnew.2⟩⟩)
        exact ⟨x, peer, known, rest, rfl, turn, hadds⟩
      · rw [mergeEntry, if_neg hadds, setMembership_membership]
        exact Or.inl rfl
    | _ => exact Or.inl rfl

/-- A message is broadcast by a running node, and names that node. -/
theorem notices_apply {e : GossipEvent} {notice : Notice V τ} (h : notice ∈ (s.apply L e).notices) :
    notice ∈ s.notices ∨ ∃ n, s.phase n = .running ∧
      (e = .announceJoin n ∧ notice.msg = Gossip.announceJoin (L.info n) ∨
        e = .announceLeave n ∧ notice.msg = Gossip.announceLeave (L.info n)) := by
  rcases s.apply_cases e with hsame | hstep
  · rw [hsame] at h
    exact Or.inl h
  · generalize s.apply L e = t at h hstep
    cases hstep with
    | @announceJoin n running =>
      rcases List.mem_append.1 h with hold | hnew
      · exact Or.inl hold
      · obtain ⟨peer, -, rfl⟩ := List.mem_map.1 hnew
        exact Or.inr ⟨n, running, Or.inl ⟨rfl, rfl⟩⟩
    | @announceLeave n running =>
      rcases List.mem_append.1 h with hold | hnew
      · exact Or.inl hold
      · obtain ⟨peer, -, rfl⟩ := List.mem_map.1 hnew
        exact Or.inr ⟨n, running, Or.inr ⟨rfl, rfl⟩⟩
    | _ => exact Or.inl h

/-- A message that has been broadcast keeps its number. -/
theorem notice_kept {e : GossipEvent} {k : Nat} {notice : Notice V τ} (h : s.notices[k]? = some notice) :
    (s.apply L e).notices[k]? = some notice := by
  rcases s.apply_cases e with hsame | hstep
  · rw [hsame]
    exact h
  · have happend : ∀ l, (s.notices ++ l)[k]? = some notice := by
      intro l
      rw [List.getElem?_append_left (List.getElem?_eq_some_iff.1 h).1]
      exact h
    generalize s.apply L e = t at hstep
    cases hstep with
    | announceJoin running => exact happend _
    | announceLeave running => exact happend _
    | _ => exact h

/-- A node that hears of `P` has it in its ring afterwards. -/
theorem mem_of_hears {e : GossipEvent} {n : Id} {P : NodeInfo} (h : s.Hears L e n P) :
    P ∈ ((s.apply L e).rings (L.ring n)).nodes := by
  obtain ⟨k, notice, rfl, hsent, hlistens, ht, hp⟩ := h
  obtain ⟨resp, m, hm, hmem⟩ := handleMessage_peerAnnounce (L.info n) (s.membership L n) ht hp
  simp only [apply, hsent, if_pos hlistens, handle, hm, setMembership_rings_self]
  exact hmem

/-! ### What an event does to the exchanges -/

/-- Exchange `x` of node `n` with a peer brings `P`. -/
def Brings (s : Cluster V τ) (x : Nat) (n : Id) (peer P : NodeInfo) : Prop :=
  ∃ stage, s.exchanges[x]? = some ⟨n, peer, stage⟩ ∧ stage.Lists P

/-- The answer to exchange `x` of node `n` with a peer has this entry. -/
def Holds (s : Cluster V τ) (x : Nat) (n : Id) (peer : NodeInfo) (entry : Option NodeInfo) : Prop :=
  ∃ stage, s.exchanges[x]? = some ⟨n, peer, stage⟩ ∧ entry ∈ stage.entries

theorem brings_iff {x : Nat} {n : Id} {peer P : NodeInfo} : s.Brings x n peer P ↔ s.Holds x n peer (some P) :=
  exists_congr (fun _ => and_congr_right (fun _ => Stage.lists_iff))

/-- An exchange is as it was, or it has the stage that was set. -/
theorem setStage_cases {t : Cluster V τ} (ht : t.exchanges = s.exchanges) {x y : Nat} {e e' : ListExchange V τ}
    {stage : Stage V τ} (hy : s.exchanges[y]? = some e) (hx : (t.setStage y e stage).exchanges[x]? = some e') :
    s.exchanges[x]? = some e' ∨ x = y ∧ e' = { e with stage := stage } := by
  rw [setStage, ht, List.getElem?_set] at hx
  split at hx
  · rename_i hxy
    subst hxy
    rw [if_pos (List.getElem?_eq_some_iff.1 hy).1] at hx
    exact Or.inr ⟨rfl, (Option.some.inj hx).symm⟩
  · exact Or.inl hx

private theorem holds_setStage {t : Cluster V τ} (ht : t.exchanges = s.exchanges) {x y : Nat} {n : Id}
    {e : ListExchange V τ} {stage : Stage V τ} {peer : NodeInfo} {entry : Option NodeInfo}
    (hy : s.exchanges[y]? = some e) (h : (t.setStage y e stage).Holds x n peer entry) :
    s.Holds x n peer entry ∨ x = y ∧ e.node = n ∧ e.peer = peer ∧ entry ∈ stage.entries := by
  obtain ⟨stage', hx, hentry⟩ := h
  rcases setStage_cases ht hy hx with hold | ⟨rfl, heq⟩
  · exact Or.inl ⟨stage', hold, hentry⟩
  · obtain ⟨rfl, rfl, rfl⟩ := ListExchange.mk.inj heq
    exact Or.inr ⟨rfl, rfl, rfl, hentry⟩

private theorem holds_ended {t : Cluster V τ} (ht : t.exchanges = s.exchanges) {x y : Nat} {n : Id}
    {e : ListExchange V τ} {peer : NodeInfo} {entry : Option NodeInfo} (hy : s.exchanges[y]? = some e)
    (h : (t.setStage y e .ended).Holds x n peer entry) : s.Holds x n peer entry :=
  (holds_setStage ht hy h).resolve_right (fun ha => by cases ha.2.2.2)

/-- An answer has an entry from the moment when a node gives it, and the entry is a node of that node's ring. -/
theorem holds_apply {e : GossipEvent} {x : Nat} {n : Id} {peer : NodeInfo} {entry : Option NodeInfo}
    (h : (s.apply L e).Holds x n peer entry) :
    s.Holds x n peer entry ∨
      ∃ c P, e = .answer x c ∧ s.Listens L c peer ∧ entry = some P ∧ P ∈ (s.rings (L.ring c)).nodes ∧ P ≠ L.info c := by
  rcases s.apply_cases e with hsame | hstep
  · rw [hsame] at h
    exact Or.inl h
  · generalize s.apply L e = t at h hstep
    cases hstep with
    | round found awake drawn =>
      obtain ⟨stage, hx, hentry⟩ := h
      rw [List.getElem?_append] at hx
      split at hx
      · exact Or.inl ⟨stage, hx, hentry⟩
      · obtain ⟨p, -, hp⟩ := List.mem_map.1 (List.mem_of_getElem? hx)
        obtain ⟨-, -, rfl⟩ := ListExchange.mk.inj hp
        cases hentry
    | @answer y c e asked waits listens =>
      rcases holds_setStage rfl asked h with hold | ⟨rfl, rfl, rfl, hentry⟩
      · exact Or.inl hold
      · obtain ⟨P, hP, rfl⟩ := List.mem_map.1 (show entry ∈ ((s.membership L c).others (L.info c)).map some from hentry)
        obtain ⟨hring, hne⟩ := Membership.mem_others.1 hP
        exact Or.inr ⟨c, P, rfl, listens, rfl, hring, hne⟩
    | receive answered lists =>
      rcases holds_setStage rfl answered h with hold | ⟨rfl, rfl, rfl, hentry⟩
      · exact Or.inl hold
      · exact Or.inl ⟨_, answered, hentry⟩
    | merge turn =>
      rcases holds_setStage rfl turn h with hold | ⟨rfl, rfl, rfl, hentry⟩
      · exact Or.inl hold
      · exact Or.inl ⟨_, turn, List.mem_cons_of_mem _ hentry⟩
    | fail asked waits => exact Or.inl (holds_ended rfl asked h)
    | ignore answered other => exact Or.inl (holds_ended rfl answered h)
    | finish turn => exact Or.inl (holds_ended rfl turn h)
    | malformed turn => exact Or.inl (holds_ended rfl turn h)
    | _ => exact Or.inl h

/-- An exchange brings `P` from the moment when a listening node that has `P` in its ring answers it. -/
theorem brings_apply {e : GossipEvent} {x : Nat} {n : Id} {peer P : NodeInfo} (h : (s.apply L e).Brings x n peer P) :
    s.Brings x n peer P ∨
      ∃ c, e = .answer x c ∧ s.Listens L c peer ∧ P ∈ (s.rings (L.ring c)).nodes ∧ P ≠ L.info c := by
  rw [brings_iff] at h ⊢
  refine (holds_apply h).imp_right ?_
  rintro ⟨c, P', he, hlistens, heq, hring, hne⟩
  obtain rfl := Option.some.inj heq
  exact ⟨c, he, hlistens, hring, hne⟩

/-- Every exchange is with a peer that the discovery of its node once found. -/
theorem asked_apply {e : GossipEvent} {x : Nat} {n : Id} {peer : NodeInfo} {stage : Stage V τ}
    (h : (s.apply L e).exchanges[x]? = some ⟨n, peer, stage⟩) :
    (∃ stage', s.exchanges[x]? = some ⟨n, peer, stage'⟩) ∨
      ∃ env peers, (s.membership L n).discovery.getPeers env = some peers ∧ peer ∈ candidates (L.info n) peers := by
  have hset : ∀ {t : Cluster V τ} {y : Nat} {e' : ListExchange V τ} {stage' : Stage V τ},
      t.exchanges = s.exchanges → s.exchanges[y]? = some e' →
      (t.setStage y e' stage').exchanges[x]? = some ⟨n, peer, stage⟩ →
      ∃ stage', s.exchanges[x]? = some ⟨n, peer, stage'⟩ := by
    intro t y e' stage' ht hy hx
    rcases setStage_cases ht hy hx with hold | ⟨rfl, heq⟩
    · exact ⟨stage, hold⟩
    · obtain ⟨rfl, rfl, -⟩ := ListExchange.mk.inj heq
      exact ⟨e'.stage, hy⟩
  rcases s.apply_cases e with hsame | hstep
  · rw [hsame] at h
    exact Or.inl ⟨stage, h⟩
  · generalize s.apply L e = t at h hstep
    cases hstep with
    | @round m env peers sample found awake drawn =>
      rw [List.getElem?_append] at h
      split at h
      · exact Or.inl ⟨stage, h⟩
      · obtain ⟨p, hp, heq⟩ := List.mem_map.1 (List.mem_of_getElem? h)
        obtain ⟨rfl, rfl, -⟩ := ListExchange.mk.inj heq
        exact Or.inr ⟨env, peers, found, drawn.1.subset hp⟩
    | answer asked waits listens => exact Or.inl (hset rfl asked h)
    | fail asked waits => exact Or.inl (hset rfl asked h)
    | receive answered lists => exact Or.inl (hset rfl answered h)
    | ignore answered other => exact Or.inl (hset rfl answered h)
    | finish turn => exact Or.inl (hset rfl turn h)
    | malformed turn => exact Or.inl (hset rfl turn h)
    | merge turn => exact Or.inl (hset rfl turn h)
    | _ => exact Or.inl ⟨stage, h⟩

private theorem getElem?_setStage {t : Cluster V τ} (ht : t.exchanges = s.exchanges) {x y : Nat}
    {e : ListExchange V τ} {stage : Stage V τ} (hxy : x ≠ y) :
    (t.setStage y e stage).exchanges[x]? = s.exchanges[x]? := by
  rw [setStage, ht, List.getElem?_set_ne (Ne.symm hxy)]

/-- Once its answer has arrived, only the turns of its merge loop change an exchange. -/
theorem exchange_apply {e : GossipEvent} {x : Nat} {n : Id} {peer : NodeInfo} {stage : Stage V τ}
    (hx : s.exchanges[x]? = some ⟨n, peer, stage⟩) (hclosed : stage.isOpen = false) (he : e ≠ .merge x) :
    (s.apply L e).exchanges[x]? = some ⟨n, peer, stage⟩ := by
  rcases s.apply_cases e with hsame | hstep
  · rw [hsame]
    exact hx
  · -- the exchange that another event is about waits for its answer, or is another one
    have hother : ∀ {y : Nat} {e' : ListExchange V τ}, s.exchanges[y]? = some e' → e'.stage.isOpen = true → x ≠ y := by
      rintro y e' hy hopen rfl
      rw [hx, Option.some.injEq] at hy
      subst hy
      rw [hclosed] at hopen
      cases hopen
    generalize s.apply L e = t at hstep
    cases hstep with
    | round found awake drawn =>
      rw [List.getElem?_append_left (List.getElem?_eq_some_iff.1 hx).1]
      exact hx
    | answer asked waits listens => exact (getElem?_setStage rfl (hother asked waits)).trans hx
    | fail asked waits => exact (getElem?_setStage rfl (hother asked waits)).trans hx
    | receive answered lists => exact (getElem?_setStage rfl (hother answered rfl)).trans hx
    | ignore answered other => exact (getElem?_setStage rfl (hother answered rfl)).trans hx
    | finish turn => exact (getElem?_setStage rfl (fun hxy => he (congrArg GossipEvent.merge hxy.symm))).trans hx
    | malformed turn => exact (getElem?_setStage rfl (fun hxy => he (congrArg GossipEvent.merge hxy.symm))).trans hx
    | merge turn => exact (getElem?_setStage rfl (fun hxy => he (congrArg GossipEvent.merge hxy.symm))).trans hx
    | _ => exact hx

/-! ### An exchange that nothing interrupts -/

private theorem exchange_setStage {t : Cluster V τ} (ht : t.exchanges = s.exchanges) {x : Nat} {e : ListExchange V τ}
    (hx : s.exchanges[x]? = some e) (stage : Stage V τ) :
    (t.setStage x e stage).exchanges[x]? = some { e with stage := stage } := by
  rw [setStage, ht, List.getElem?_set_self (List.getElem?_eq_some_iff.1 hx).1]

/-- Exchange `x` has ended and left its node with membership `m`. -/
def Leaves (L : Layout) (s : Cluster V τ) (x : Nat) (n : Id) (peer : NodeInfo) (m : Membership) : Prop :=
  s.membership L n = m ∧ s.exchanges[x]? = some ⟨n, peer, .ended⟩

section Exchange

variable {x : Nat} {n : Id} {peer : NodeInfo}

private theorem leaves_setStage {t : Cluster V τ} (ht : t.exchanges = s.exchanges) {stage : Stage V τ}
    (hx : s.exchanges[x]? = some ⟨n, peer, stage⟩) :
    (t.setStage x ⟨n, peer, stage⟩ .ended).Leaves L x n peer (t.membership L n) :=
  ⟨rfl, exchange_setStage ht hx .ended⟩

private theorem after_merge_ended {m : Membership} (h : s.Leaves L x n peer m) (k : Nat) :
    after (apply L) s (List.replicate k (.merge x)) = s := by
  induction k with
  | zero => rfl
  | succ k ih =>
    have hs : s.apply L (.merge x) = s := by simp only [apply, h.2]
    show after (apply L) (s.apply L (.merge x)) (List.replicate k (.merge x)) = s
    rw [hs, ih]

private theorem after_merge {known : List NodeInfo} {rest : List (Option NodeInfo)}
    (hx : s.exchanges[x]? = some ⟨n, peer, .merging known rest⟩) :
    (after (apply L) s (List.replicate (rest.length + 1) (.merge x))).Leaves L x n peer
      (mergePeers (L.info n) peer known rest (s.membership L n)) := by
  induction rest generalizing s with
  | nil =>
    have hs : s.apply L (.merge x) = s.setStage x ⟨n, peer, .merging known []⟩ .ended := by
      simp only [apply, hx, mergeTurn]
    show (s.apply L (.merge x)).Leaves L x n peer (s.membership L n)
    rw [hs]
    exact leaves_setStage rfl hx
  | cons entry rest ih =>
    show (after (apply L) (s.apply L (.merge x)) (List.replicate (rest.length + 1) (.merge x))).Leaves L x n peer _
    cases entry with
    | none =>
      -- the malformed entry ends the exchange, and the turns that are left do nothing
      have hs : s.apply L (.merge x) = (s.setMembership L n ((s.membership L n).evict peer)).setStage x
          ⟨n, peer, .merging known (none :: rest)⟩ .ended := by
        simp only [apply, hx, mergeTurn]
      have hend := leaves_setStage (L := L) (t := s.setMembership L n ((s.membership L n).evict peer)) rfl hx
      rw [hs, after_merge_ended hend, mergePeers]
      rwa [membership_setMembership] at hend
    | some new =>
      have hs : s.apply L (.merge x) =
          (s.setMembership L n (mergeEntry (L.info n) known (s.membership L n) new)).setStage x
            ⟨n, peer, .merging known (some new :: rest)⟩ (.merging known rest) := by
        simp only [apply, hx, mergeTurn]
      rw [hs, mergePeers]
      have hnext := ih (exchange_setStage (s := s)
        (t := s.setMembership L n (mergeEntry (L.info n) known (s.membership L n) new)) rfl hx (.merging known rest))
      rwa [membership_setStage, membership_setMembership] at hnext

/-- An exchange whose answer is merged without interruption comes to `_gossip_with`. -/
theorem after_receive_merge {resp : Message V τ} (hx : s.exchanges[x]? = some ⟨n, peer, .answered resp⟩) :
    (after (apply L) s (.receive x :: List.replicate ((resp.payload.peers.getD []).length + 1) (.merge x))).Leaves L x n
      peer (gossipWith (L.info n) peer (.ok (some resp)) (s.membership L n)) := by
  show (after (apply L) (s.apply L (.receive x)) (List.replicate _ (.merge x))).Leaves L x n peer _
  by_cases ht : resp.type = .peerList
  · have hs : s.apply L (.receive x) = s.setStage x ⟨n, peer, .answered resp⟩
        (.merging (s.membership L n).ring.nodes (resp.payload.peers.getD [])) := by
      simp only [apply, hx, if_pos ht]
    rw [hs, gossipWith, if_pos ht]
    exact after_merge (exchange_setStage rfl hx _)
  · have hs : s.apply L (.receive x) = s.setStage x ⟨n, peer, .answered resp⟩ .ended := by
      simp only [apply, hx, if_neg ht]
    have hend := leaves_setStage (L := L) (t := s) rfl hx
    rw [hs, after_merge_ended hend, gossipWith, if_neg ht]
    exact hend

/-- An exchange that gets no answer comes to `_gossip_with` as well. -/
theorem apply_fail {stage : Stage V τ} (hx : s.exchanges[x]? = some ⟨n, peer, stage⟩) (hopen : stage.isOpen = true) :
    (s.apply L (.fail x)).Leaves L x n peer
      (gossipWith (V := V) (τ := τ) (L.info n) peer (.ok none) (s.membership L n)) := by
  have hs : s.apply L (.fail x) =
      (s.setMembership L n ((s.membership L n).evict peer)).setStage x ⟨n, peer, stage⟩ .ended := by
    simp only [apply, hx, if_pos hopen]
  have hend := leaves_setStage (L := L) (t := s.setMembership L n ((s.membership L n).evict peer)) rfl hx
  rw [membership_setMembership] at hend
  rw [hs]
  exact hend

end Exchange

end Cluster

end DLStorage
