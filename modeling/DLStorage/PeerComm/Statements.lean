import DLStorage.Base.Slots
import DLStorage.PeerComm.Probing

/-!
# Ring and discovery, statement by statement

The threads of a blocking node update the ring and the discovery one after the other, and between the two statements
another thread may come in.  `PeerThreads` cuts the handlers, the evictions and the merge loops there; a start is still
one step.

A peer that a thread has put into the ring is in the discovery, or the thread is about to put it there, as long as
nobody puts a peer into the ring while another thread is between the two statements of its removal (`Between.apply`).
A node whose updates run one at a time, as those of an async node do, never comes into such a state.
-/

namespace DLStorage

open Base (after after_concat after_invariant)
open Gossip

/-- Where a thread stands in an update of the ring and the discovery. -/
inductive UpdateStage
  | idle
  | adding (peer : NodeInfo)
  /-- `ring.add` is done, and `add_peer` comes next. -/
  | added (peer : NodeInfo)
  | removing (peer : NodeInfo)
  /-- `ring.remove` is done, and `remove_peer` comes next. -/
  | removed (peer : NodeInfo)
  deriving DecidableEq

structure PeerThread where
  stage : UpdateStage
  /-- The merge loop of `_gossip_with`, if the thread is in it. -/
  loop : Option MergeLoop

structure PeerThreads where
  membership : Membership
  threads : List PeerThread

inductive PeerEvent (V τ : Type)
  /-- `start()` up to `ring.add(self.info)`. -/
  | start (env : Environment)
  /-- A handler comes to its first update. -/
  | handle (msg : Message V τ)
  /-- `_gossip_with` gets what the pool returns or raises. -/
  | receive (peer : NodeInfo) (resp : Except PyError (Option (Message V τ)))
  /-- The next statement of a thread. -/
  | step (i : Nat)

abbrev PeerRun (V τ : Type) := List (PeerEvent V τ)

variable {V τ : Type}

namespace PeerThreads

variable (self : NodeInfo) (s : PeerThreads)

/-- A node that has been constructed, with a ring of its own. -/
def new (discovery : Discovery) : PeerThreads := ⟨⟨RendezvousRing.empty, discovery⟩, []⟩

/-- A thread that works on the ring from here on. -/
def spawn (stage : UpdateStage) (loop : Option MergeLoop) : PeerThreads :=
  { s with threads := s.threads ++ [⟨stage, loop⟩] }

def setThread (i : Nat) (stage : UpdateStage) (loop : Option MergeLoop) : PeerThreads :=
  { s with threads := s.threads.set i ⟨stage, loop⟩ }

/-- The next turn of the merge loop of thread `i`, up to the update that it makes. -/
def turn (i : Nat) (l : MergeLoop) : PeerThreads :=
  match l.rest with
  | [] => s.setThread i .idle none
  | none :: _ => s.setThread i (.removing l.peer) none
  | some new :: rest =>
    s.setThread i (if new ≠ self ∧ new ∉ l.known then .adding new else .idle) (some { l with rest := rest })

/-- The next statement of thread `i`.  The check and the insertion in `add_peer` amount to one insertion. -/
def step (i : Nat) (t : PeerThread) : PeerThreads :=
  match t.stage with
  | .adding peer =>
    { s.setThread i (.added peer) t.loop with membership := ⟨s.membership.ring.add peer, s.membership.discovery⟩ }
  | .added peer =>
    { s.setThread i .idle t.loop with membership := ⟨s.membership.ring, s.membership.discovery.addPeer peer⟩ }
  | .removing peer =>
    { s.setThread i (.removed peer) t.loop with
      membership := ⟨s.membership.ring.remove peer, s.membership.discovery⟩ }
  | .removed peer =>
    { s.setThread i .idle t.loop with membership := ⟨s.membership.ring, s.membership.discovery.removePeer peer⟩ }
  | .idle =>
    match t.loop with
    | none => s
    | some l => s.turn self i l

/-- The node after an event. -/
def apply : PeerEvent V τ → PeerThreads
  | .start env =>
    match s.membership.discovery.getPeers env with
    | none => s
    | some peers => { s with membership := s.membership.bootstrap self peers }
  | .handle msg =>
    match msg.type, msg.payload.peer with
    | .peerAnnounce, some peer => if peer ∈ s.membership.ring.nodes then s else s.spawn (.adding peer) none
    | .peerLeave, some peer => s.spawn (.removing peer) none
    | _, _ => s
  | .receive peer resp =>
    match resp with
    | .error _ => s.spawn (.removing peer) none
    | .ok none => s.spawn (.removing peer) none
    | .ok (some resp) =>
      if resp.type = .peerList then
        s.spawn .idle (some ⟨peer, s.membership.ring.nodes, resp.payload.peers.getD []⟩)
      else s
  | .step i =>
    match s.threads[i]? with
    | none => s
    | some t => s.step self i t

/-- The peers that an event puts into the ring. -/
def takes : PeerEvent V τ → List NodeInfo
  | .start env =>
    match s.membership.discovery.getPeers env with
    | none => []
    | some peers => peers ++ [self]
  | .step i =>
    match s.threads[i]? with
    | some ⟨.adding peer, _⟩ => [peer]
    | _ => []
  | _ => []

/-- The event puts a peer into the ring while a thread is between the two statements of its removal. -/
def Clashes (e : PeerEvent V τ) : Prop :=
  ∃ peer ∈ s.takes self e, ∃ t ∈ s.threads, t.stage = .removed peer

instance (e : PeerEvent V τ) : Decidable (s.Clashes self e) :=
  inferInstanceAs (Decidable (∃ peer ∈ s.takes self e, ∃ t ∈ s.threads, t.stage = .removed peer))

/-- A thread has put the peer into the ring and is about to tell the discovery. -/
def Adds (peer : NodeInfo) : Prop := ∃ t ∈ s.threads, t.stage = .added peer

end PeerThreads

/-- The node after a run. -/
def peersAfter (self : NodeInfo) (discovery : Discovery) (run : PeerRun V τ) : PeerThreads :=
  after (PeerThreads.apply self) (PeerThreads.new discovery) run

namespace PeerThreads

variable {self seed : NodeInfo} {s : PeerThreads}

/-! ### An update that nothing interrupts -/

section Uninterrupted

variable {i : Nat} {peer : NodeInfo} {loop : Option MergeLoop}

private theorem apply_step {t : PeerThread} (ht : s.threads[i]? = some t) :
    s.apply self (.step i : PeerEvent V τ) = s.step self i t := by
  simp only [PeerThreads.apply, ht]

theorem add_uninterrupted (ht : s.threads[i]? = some ⟨.adding peer, loop⟩) :
    after (PeerThreads.apply self) s [.step i, (.step i : PeerEvent V τ)] =
      { s.setThread i .idle loop with membership := s.membership.enlist peer } := by
  show (s.apply self (.step i : PeerEvent V τ)).apply self (.step i : PeerEvent V τ) = _
  rw [apply_step ht, apply_step (t := ⟨.added peer, loop⟩) (Base.getElem?_set_of_some ht)]
  simp only [step, setThread, List.set_set, Membership.enlist]

theorem remove_uninterrupted (ht : s.threads[i]? = some ⟨.removing peer, loop⟩) :
    after (PeerThreads.apply self) s [.step i, (.step i : PeerEvent V τ)] =
      { s.setThread i .idle loop with membership := s.membership.evict peer } := by
  show (s.apply self (.step i : PeerEvent V τ)).apply self (.step i : PeerEvent V τ) = _
  rw [apply_step ht, apply_step (t := ⟨.removed peer, loop⟩) (Base.getElem?_set_of_some ht)]
  simp only [step, setThread, List.set_set, Membership.evict]

/-- A handler that nothing interrupts leaves the membership that `handle_message` does. -/
theorem handle_uninterrupted {msg resp : Message V τ} {m : Membership}
    (h : handleMessage self s.membership msg = .ok (resp, m)) :
    ∃ rest : PeerRun V τ, (∀ e ∈ rest, e = .step s.threads.length) ∧
      (after (PeerThreads.apply self) s (.handle msg :: rest)).membership = m := by
  have hlast : ∀ stage, (s.spawn stage none).threads[s.threads.length]? = some ⟨stage, none⟩ :=
    fun stage => List.getElem?_concat_length
  obtain ⟨type, payload⟩ := msg
  cases type with
  | peerAnnounce =>
    cases hpeer : payload.peer with
    | none => simp [handleMessage, hpeer, require, bind, Except.bind] at h
    | some peer =>
      simp only [handleMessage, hpeer, require, bind, Except.bind] at h
      by_cases hold : peer ∈ s.membership.ring.nodes
      · refine ⟨[], fun e he => (by cases he), ?_⟩
        rw [if_pos hold] at h
        simp only [after, List.foldl_cons, List.foldl_nil, PeerThreads.apply, hpeer, if_pos hold]
        exact (Prod.mk.inj (Except.ok.inj h)).2
      · refine ⟨[.step s.threads.length, .step s.threads.length], fun e he => by simpa using he, ?_⟩
        rw [if_neg hold] at h
        have hhandle : s.apply self (.handle ⟨.peerAnnounce, payload⟩ : PeerEvent V τ) =
            s.spawn (.adding peer) none := by
          simp only [PeerThreads.apply, hpeer, if_neg hold]
        show (after (PeerThreads.apply self) (s.apply self (.handle ⟨.peerAnnounce, payload⟩)) _).membership = m
        rw [hhandle, add_uninterrupted (hlast _)]
        exact (Prod.mk.inj (Except.ok.inj h)).2
  | peerLeave =>
    cases hpeer : payload.peer with
    | none => simp [handleMessage, hpeer, require, bind, Except.bind] at h
    | some peer =>
      simp only [handleMessage, hpeer, require, bind, Except.bind] at h
      refine ⟨[.step s.threads.length, .step s.threads.length], fun e he => by simpa using he, ?_⟩
      have hhandle : s.apply self (.handle ⟨.peerLeave, payload⟩ : PeerEvent V τ) = s.spawn (.removing peer) none := by
        simp only [PeerThreads.apply, hpeer]
      show (after (PeerThreads.apply self) (s.apply self (.handle ⟨.peerLeave, payload⟩)) _).membership = m
      rw [hhandle, remove_uninterrupted (hlast _)]
      exact (Prod.mk.inj (Except.ok.inj h)).2
  | _ => exact ⟨[], fun e he => (by cases he), (Prod.mk.inj (Except.ok.inj h)).2⟩

/-- A turn of the merge loop that nothing interrupts leaves the membership that `mergePeers` does. -/
theorem turn_uninterrupted {l : MergeLoop} (ht : s.threads[i]? = some ⟨.idle, some l⟩) :
    ∃ rest : PeerRun V τ, (∀ e ∈ rest, e = .step i) ∧ (after (PeerThreads.apply self) s rest).membership =
      match l.rest with
      | [] => s.membership
      | none :: _ => s.membership.evict l.peer
      | some new :: _ => mergeEntry self l.known s.membership new := by
  have hturn : s.apply self (.step i : PeerEvent V τ) = s.turn self i l := apply_step ht
  cases hrest : l.rest with
  | nil => exact ⟨[], fun e he => (by cases he), rfl⟩
  | cons entry entries =>
    cases entry with
    | none =>
      refine ⟨[.step i, .step i, .step i], fun e he => by simpa using he, ?_⟩
      show (after (PeerThreads.apply self) (s.apply self (.step i : PeerEvent V τ)) _).membership = _
      rw [hturn]
      simp only [turn, hrest]
      have hthread : (s.setThread i (.removing l.peer) none).threads[i]? = some ⟨.removing l.peer, none⟩ :=
        Base.getElem?_set_of_some ht
      rw [remove_uninterrupted hthread]
      rfl
    | some new =>
      by_cases hnew : new ≠ self ∧ new ∉ l.known
      · refine ⟨[.step i, .step i, .step i], fun e he => by simpa using he, ?_⟩
        show (after (PeerThreads.apply self) (s.apply self (.step i : PeerEvent V τ)) _).membership = _
        rw [hturn]
        simp only [turn, hrest, mergeEntry, if_pos hnew]
        have hthread : (s.setThread i (.adding new) (some { l with rest := entries })).threads[i]? =
            some ⟨.adding new, some { l with rest := entries }⟩ := Base.getElem?_set_of_some ht
        rw [add_uninterrupted hthread]
        rfl
      · refine ⟨[], fun e he => (by cases he), ?_⟩
        simp only [mergeEntry, if_neg hnew]
        rfl

end Uninterrupted

/-! ### Who is in the ring -/

/-- A peer in the ring is in the discovery, or a thread is about to put it there; a peer that a thread is removing is
no longer in the ring. -/
structure Between (node seed : NodeInfo) (d : GossipDiscovery) (s : PeerThreads) : Prop where
  discovery : s.membership.discovery = .gossip d
  seed_eq : d.seed = seed
  ring : ∀ x ∈ s.membership.ring.nodes, x ∈ d.peers ∨ x = seed ∨ x = node ∨ s.Adds x
  removed : ∀ t ∈ s.threads, ∀ x, t.stage = .removed x → x ∉ s.membership.ring.nodes

/-- A thread that is about to tell the discovery is still there when another one moves. -/
private theorem Adds.setThread {x : NodeInfo} (h : s.Adds x) {i : Nat} {t : PeerThread} (ht : s.threads[i]? = some t)
    (hne : t.stage ≠ .added x) (stage : UpdateStage) (loop : Option MergeLoop) : (s.setThread i stage loop).Adds x := by
  obtain ⟨t', ht', hadded⟩ := h
  obtain ⟨j, hj⟩ := List.getElem?_of_mem ht'
  have hij : i ≠ j := by
    rintro rfl
    rw [ht] at hj
    exact hne (Option.some.inj hj ▸ hadded)
  exact ⟨t', List.mem_of_getElem? ((List.getElem?_set_ne hij).trans hj), hadded⟩

private theorem Adds.spawn {x : NodeInfo} (h : s.Adds x) (stage : UpdateStage) (loop : Option MergeLoop) :
    (s.spawn stage loop).Adds x := by
  obtain ⟨t, ht, hadded⟩ := h
  exact ⟨t, List.mem_append_left _ ht, hadded⟩

namespace Between

variable {d : GossipDiscovery} (h : s.Between self seed d)

include h

private theorem removed_setThread {i : Nat} {stage : UpdateStage} {loop : Option MergeLoop} {t : PeerThread}
    {x : NodeInfo} (ht : t ∈ (s.setThread i stage loop).threads) (hx : t.stage = .removed x) :
    x ∉ s.membership.ring.nodes ∨ stage = .removed x := by
  rcases List.mem_or_eq_of_mem_set ht with hold | rfl
  · exact Or.inl (h.removed t hold x hx)
  · exact Or.inr hx

private theorem ring_imp {x : NodeInfo} (hx : x ∈ s.membership.ring.nodes) {P : Prop} (hP : s.Adds x → P) :
    x ∈ d.peers ∨ x = seed ∨ x = self ∨ P := by
  rcases h.ring x hx with hpeer | hseed | hself | hadds
  · exact Or.inl hpeer
  · exact Or.inr (Or.inl hseed)
  · exact Or.inr (Or.inr (Or.inl hself))
  · exact Or.inr (Or.inr (Or.inr (hP hadds)))

/-- The thread does not touch ring and discovery. -/
private theorem moves {i : Nat} {t : PeerThread} (ht : s.threads[i]? = some t) (hidle : t.stage = .idle)
    {stage : UpdateStage} (hstage : ∀ x, stage ≠ .removed x) (loop : Option MergeLoop) :
    (s.setThread i stage loop).Between self seed d where
  discovery := h.discovery
  seed_eq := h.seed_eq
  ring x hx := h.ring_imp hx fun hadds =>
    hadds.setThread ht (by rw [hidle]; exact fun heq => by cases heq) stage loop
  removed t' ht' x hx := (h.removed_setThread ht' hx).resolve_right (hstage x)

private theorem spawn {stage : UpdateStage} (hstage : ∀ x, stage ≠ .removed x) (loop : Option MergeLoop) :
    (s.spawn stage loop).Between self seed d where
  discovery := h.discovery
  seed_eq := h.seed_eq
  ring x hx := h.ring_imp hx fun hadds => hadds.spawn stage loop
  removed t ht x hx := by
    rcases List.mem_append.1 ht with hold | hnew
    · exact h.removed t hold x hx
    · rw [List.mem_singleton.1 hnew] at hx
      exact absurd hx (hstage x)

private theorem turn {i : Nat} {t : PeerThread} (ht : s.threads[i]? = some t) (hidle : t.stage = .idle)
    (l : MergeLoop) : (s.turn self i l).Between self seed d := by
  unfold PeerThreads.turn
  split
  · exact h.moves ht hidle (fun x heq => by cases heq) _
  · exact h.moves ht hidle (fun x heq => by cases heq) _
  · refine h.moves ht hidle (fun x heq => ?_) _
    split at heq <;> cases heq

/-- The next statement of a thread, unless it puts a peer into the ring that another thread is removing. -/
private theorem step {i : Nat} {t : PeerThread} (ht : s.threads[i]? = some t)
    (hclash : ¬ s.Clashes self (.step i : PeerEvent V τ)) :
    ∃ d, (s.step self i t).Between self seed d := by
  obtain ⟨stage, loop⟩ := t
  cases stage with
  | idle =>
    cases loop with
    | none => exact ⟨d, h⟩
    | some l => exact ⟨d, h.turn ht rfl l⟩
  | adding peer =>
    refine ⟨d, ⟨h.discovery, h.seed_eq, fun x hx => ?_, fun t' ht' x hx => ?_⟩⟩
    · rcases RendezvousRing.mem_add.1 hx with hold | rfl
      · exact h.ring_imp hold fun hadds => hadds.setThread ht (fun heq => by cases heq) (.added peer) loop
      · exact Or.inr (Or.inr (Or.inr ⟨⟨.added x, loop⟩, List.mem_of_getElem? (Base.getElem?_set_of_some ht), rfl⟩))
    · have hold := (h.removed_setThread ht' hx).resolve_right (fun heq => by cases heq)
      intro hmem
      rcases RendezvousRing.mem_add.1 hmem with hmem | rfl
      · exact hold hmem
      · -- another thread is removing this peer
        have hother : t' ∈ s.threads := by
          rcases List.mem_or_eq_of_mem_set ht' with hsame | rfl
          · exact hsame
          · cases hx
        refine hclash ⟨x, ?_, t', hother, hx⟩
        simp only [takes, ht]
        exact List.mem_singleton.2 rfl
  | added peer =>
    have hseed : (d.addPeer peer).2.seed = seed := GossipDiscovery.seed_addPeer.trans h.seed_eq
    refine ⟨(d.addPeer peer).2, ⟨?_, hseed, fun x hx => ?_, fun t' ht' x hx => ?_⟩⟩
    · show s.membership.discovery.addPeer peer = _
      rw [h.discovery]
      rfl
    · rw [GossipDiscovery.mem_addPeer]
      rcases h.ring x hx with hpeer | hseed | hself | hadds
      · exact Or.inl (Or.inl hpeer)
      · exact Or.inr (Or.inl hseed)
      · exact Or.inr (Or.inr (Or.inl hself))
      · by_cases heq : peer = x
        · exact Or.inl (Or.inr heq.symm)
        · refine Or.inr (Or.inr (Or.inr (hadds.setThread ht ?_ .idle loop)))
          intro hstage
          injection hstage with hpeer
          exact heq hpeer
    · exact (h.removed_setThread ht' hx).resolve_right (fun heq => by cases heq)
  | removing peer =>
    refine ⟨d, ⟨h.discovery, h.seed_eq, fun x hx => ?_, fun t' ht' x hx => ?_⟩⟩
    · exact h.ring_imp (RendezvousRing.mem_remove.1 hx).1 fun hadds =>
        hadds.setThread ht (fun heq => by cases heq) (.removed peer) loop
    · intro hmem
      obtain ⟨hmem, hne⟩ := RendezvousRing.mem_remove.1 hmem
      rcases h.removed_setThread ht' hx with hold | heq
      · exact hold hmem
      · injection heq with hpeer
        exact hne hpeer.symm
  | removed peer =>
    refine ⟨d.removePeer peer, ⟨?_, h.seed_eq, fun x hx => ?_, fun t' ht' x hx => ?_⟩⟩
    · show s.membership.discovery.removePeer peer = _
      rw [h.discovery]
      rfl
    · have hne : x ≠ peer := by
        rintro rfl
        exact h.removed _ (List.mem_of_getElem? ht) x rfl hx
      rw [GossipDiscovery.mem_removePeer]
      rcases h.ring x hx with hpeer | hseed | hself | hadds
      · exact Or.inl ⟨hpeer, hne⟩
      · exact Or.inr (Or.inl hseed)
      · exact Or.inr (Or.inr (Or.inl hself))
      · exact Or.inr (Or.inr (Or.inr (hadds.setThread ht (fun heq => by cases heq) .idle loop)))
    · exact (h.removed_setThread ht' hx).resolve_right (fun heq => by cases heq)

/-- A start puts the peers of the discovery, the seed and the node itself into the ring. -/
private theorem start {env : Environment} (hclash : ¬ s.Clashes self (.start env : PeerEvent V τ)) :
    (s.apply self (.start env : PeerEvent V τ)).Between self seed d := by
  have hpeers : s.membership.discovery.getPeers env = some d.getPeers := by rw [h.discovery, Discovery.getPeers]
  simp only [PeerThreads.apply, hpeers]
  refine ⟨h.discovery, h.seed_eq, fun x hx => ?_, fun t ht x hx hmem => ?_⟩
  · rw [Membership.mem_ring_bootstrap, GossipDiscovery.getPeers, List.mem_append, List.mem_singleton, h.seed_eq] at hx
    rcases hx with hold | (hpeer | hseed) | hself
    · exact h.ring x hold
    · exact Or.inl hpeer
    · exact Or.inr (Or.inl hseed)
    · exact Or.inr (Or.inr (Or.inl hself))
  · rcases Membership.mem_ring_bootstrap.1 hmem with hold | hnew
    · exact h.removed t ht x hx hold
    · refine hclash ⟨x, ?_, t, ht, hx⟩
      simp only [takes, hpeers, List.mem_append, List.mem_singleton]
      exact hnew

theorem apply (e : PeerEvent V τ) (hclash : ¬ s.Clashes self e) : ∃ d, (s.apply self e).Between self seed d := by
  cases e with
  | start env => exact ⟨d, h.start hclash⟩
  | handle msg =>
    simp only [PeerThreads.apply]
    split
    · split
      · exact ⟨d, h⟩
      · exact ⟨d, h.spawn (fun x heq => by cases heq) none⟩
    · exact ⟨d, h.spawn (fun x heq => by cases heq) none⟩
    · exact ⟨d, h⟩
  | receive peer resp =>
    simp only [PeerThreads.apply]
    split
    · exact ⟨d, h.spawn (fun x heq => by cases heq) none⟩
    · exact ⟨d, h.spawn (fun x heq => by cases heq) none⟩
    · split
      · exact ⟨d, h.spawn (fun x heq => by cases heq) _⟩
      · exact ⟨d, h⟩
  | step i =>
    simp only [PeerThreads.apply]
    split
    · exact ⟨d, h⟩
    · rename_i t ht
      exact h.step ht hclash

end Between

/-- In a run without a clash every peer in the ring is in the discovery, or a thread is about to put it there. -/
theorem between_after (d : GossipDiscovery) {run : PeerRun V τ}
    (hclean : ∀ pre e post, run = pre ++ e :: post → ¬ (peersAfter self (.gossip d) pre).Clashes self e) :
    ∃ d', (peersAfter self (.gossip d) run).Between self d.seed d' := by
  refine after_invariant (P := fun _ s => ∃ d', PeerThreads.Between self d.seed d' s)
    (C := fun pre e => ¬ (peersAfter self (.gossip d) pre).Clashes self e) ?_ ?_ hclean
  · refine ⟨d, rfl, rfl, fun x hx => (by cases hx), fun t ht => ?_⟩
    cases ht
  · intro pre e hclash hs
    obtain ⟨d', h⟩ := hs
    exact h.apply e hclash

end PeerThreads

/-! ### Who can be probed -/

/-- With a `GossipDiscovery` every member of the ring can be probed, whatever happens after the start, when updates run
one at a time.  When those of several threads interleave, a member can be probed or is just being added, as long as no
peer is put into the ring within its removal. -/
theorem gossip_members_probed (V τ : Type) (self : NodeInfo) (d : GossipDiscovery) (env now : Environment) :
    (∀ run : NodeRun V τ, Probed self now (nodeAfter self (.gossip d) (.start env :: run)).membership) ∧
    ∀ run : PeerRun V τ,
      (∀ pre e post, run = pre ++ e :: post → ¬ (peersAfter self (.gossip d) pre).Clashes self e) →
      ∃ peers, (peersAfter self (.gossip d) run).membership.discovery.getPeers now = some peers ∧
        ∀ x ∈ (peersAfter self (.gossip d) run).membership.ring.nodes, x ≠ self →
          x ∈ candidates self peers ∨ (peersAfter self (.gossip d) run).Adds x := by
  refine ⟨fun run => (gossip_never_drifts V τ self d env run).probed now, fun run hclean => ?_⟩
  obtain ⟨d', h⟩ := PeerThreads.between_after d hclean
  refine ⟨d'.getPeers, by rw [h.discovery, Discovery.getPeers], fun x hx hother => ?_⟩
  rw [mem_candidates, GossipDiscovery.getPeers, List.mem_append, List.mem_singleton, h.seed_eq]
  rcases h.ring x hx with hpeer | hseed | hself | hadds
  · exact Or.inl ⟨Or.inl hpeer, hother⟩
  · exact Or.inl ⟨Or.inr hseed, hother⟩
  · exact absurd hself hother
  · exact Or.inr hadds

/-- Node 7003 announces itself to node 7001 while a handler is removing the seed. -/
def crossingRun : PeerRun Nat Int :=
  [.start {}, .handle (Gossip.announceLeave (localhost 7002)), .step 0,
    .handle (Gossip.announceJoin (localhost 7003)), .step 1, .step 0, .step 1]

theorem crossingRun_probed : ∃ peers, (peersAfter (localhost 7001) (.gossip (.new (localhost 7002)))
      crossingRun).membership.discovery.getPeers {} = some peers ∧
    ∀ x ∈ (peersAfter (localhost 7001) (.gossip (.new (localhost 7002))) crossingRun).membership.ring.nodes,
      x ≠ localhost 7001 → x ∈ candidates (localhost 7001) peers ∨
        (peersAfter (localhost 7001) (.gossip (.new (localhost 7002))) crossingRun).Adds x := by
  refine (gossip_members_probed Nat Int (localhost 7001) (.new (localhost 7002)) {} {}).2 crossingRun ?_
  intro pre e post h
  exact Base.forall_splits (C := fun pre e =>
    ¬ (peersAfter (localhost 7001) (.gossip (.new (localhost 7002))) pre).Clashes (localhost 7001) e) (by decide) h

/-- What the environment of node 7001 answers: node 7002 is the only peer. -/
def onePeer : Environment := { services := some [("127.0.0.1", 7002)], addresses := some ["127.0.0.1"] }

/-- Node 7001 starts with a backend, and node 7003 announces itself. -/
def strangerJoins (discovery : Discovery) : Membership :=
  (nodeAfter (localhost 7001) discovery
    [.start onePeer, .handle (Gossip.announceJoin (localhost 7003) : Message Nat Int)]).membership

/-- A handler has put node 7003 into the ring. -/
def joiningRun : PeerRun Nat Int := [.start onePeer, .handle (Gossip.announceJoin (localhost 7003)), .step 0]

/-- When node 7003 is known, it is evicted, and announces itself again between the two statements of the eviction. -/
def returnRun : PeerRun Nat Int :=
  joiningRun ++ [.step 0, .receive (localhost 7003) (.ok none), .step 1,
    .handle (Gossip.announceJoin (localhost 7003)), .step 2, .step 2, .step 1]

private theorem not_probed {m : Membership} (peers : List NodeInfo)
    (hpeers : m.discovery.getPeers onePeer = some peers) (hring : localhost 7003 ∈ m.ring.nodes)
    (hunknown : localhost 7003 ∉ peers) : ¬ Probed (localhost 7001) onePeer m := by
  rintro ⟨found, hfound, hall⟩
  have hmem := (mem_candidates.1 (hall _ hring (by decide))).1
  rw [hpeers, Option.some.injEq] at hfound
  exact hunknown (hfound ▸ hmem)

/-- A node that has joined since the start is in the ring, but no other backend names it to `gossip_loop`.  A
`GossipDiscovery` does not name it either while it is being added, nor after it has come back within its eviction. -/
theorem stranger_not_probed :
    ¬ Probed (localhost 7001) onePeer (strangerJoins (.static [localhost 7002])) ∧
      ¬ Probed (localhost 7001) onePeer (strangerJoins .dns) ∧
      ¬ Probed (localhost 7001) onePeer (strangerJoins (.aRecord 7002)) ∧
      ¬ Probed (localhost 7001) onePeer
        (peersAfter (localhost 7001) (.gossip (.new (localhost 7002))) joiningRun).membership ∧
      ¬ Probed (localhost 7001) onePeer
        (peersAfter (localhost 7001) (.gossip (.new (localhost 7002))) returnRun).membership := by
  refine ⟨?_, ?_, ?_, ?_, ?_⟩
  · exact not_probed [localhost 7002] rfl (by decide) (by decide)
  · exact not_probed [localhost 7002] (by decide) (by decide) (by decide)
  · exact not_probed [localhost 7002] (by decide) (by decide) (by decide)
  · exact not_probed [localhost 7002] (by decide) (by decide) (by decide)
  · exact not_probed [localhost 7002] (by decide) (by decide) (by decide)

end DLStorage
