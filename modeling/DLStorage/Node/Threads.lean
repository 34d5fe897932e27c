import DLStorage.Base.Run
import DLStorage.Base.Slots
import DLStorage.Dispatcher
import DLStorage.PeerComm.Gossip

/-!
# The threads of a blocking node

A `StorageNode` that has started: the accept thread, the purge thread, the gossip thread, a handler for every client
connection, and the thread that calls `stop()`.  Each is cut where it waits, and where another one may come in between;
an event is one step of one of them, in any order.  The node has its ring and its discovery to itself, and the pool is
any pool: `execute` sends the request, perhaps repeatedly, and returns a response, or returns `None`, or raises.

`stop()` tells the accept thread and the purge thread to end and gives each of its threads three seconds.  No loop of
the gossip thread or of a handler looks at the stop event, so that a node is silent afterwards only in a state that is
`Quiet` (`silent_iff_quiet`).
-/

namespace DLStorage

open Base (after after_keeps Never)
open Gossip

/-- Where `_handle_client` stands. -/
inductive HandlerStage (V τ : Type)
  | receiving
  | dispatching (msg : Message V τ)
  | answering (resp : Message V τ)
  | closed

/-- Where `_accept_loop` stands; `starting` is a connection that has no thread yet. -/
inductive AcceptStage
  | checking
  | accepting
  | starting
  | ended
  deriving DecidableEq

/-- Where `_purge_loop` stands. -/
inductive PurgeStage
  | waiting
  | purging
  | ended
  deriving DecidableEq

/-- Where `gossip_loop` stands; `rest` is the part of the sample that it has not asked yet. -/
inductive GossipStage
  | drawing
  | asking (peer : NodeInfo) (rest : List NodeInfo)
  | awaiting (peer : NodeInfo) (rest : List NodeInfo)
  | merging (peer : NodeInfo) (known : List NodeInfo) (entries : List (Option NodeInfo)) (rest : List NodeInfo)
  | sleeping
  deriving DecidableEq

/-- The members of `_threads`. -/
inductive Worker
  | accept
  | purge
  | gossip
  deriving DecidableEq

/-- Where `stop()` stands; it may be left by an exception. -/
inductive StopStage
  | notCalled
  | announcing (peers : List NodeInfo)
  | closing
  | joining (threads : List Worker)
  | returned
  | raised
  deriving DecidableEq

structure NodeThreads (V τ : Type) where
  membership : Membership
  store : LocalLWWStore V τ
  /-- `_stop.is_set()`. -/
  stopSet : Bool
  /-- The server socket is open. -/
  listening : Bool
  accept : AcceptStage
  purge : PurgeStage
  gossip : GossipStage
  handlers : List (HandlerStage V τ)
  stopper : StopStage

inductive AcceptEvent
  /-- The loop condition. -/
  | check
  /-- `accept()` returns a connection, or raises since the socket is closed. -/
  | connect
  | timeout
  /-- `accept()` raises, or the thread for the connection cannot be started. -/
  | fail
  | spawn

inductive PurgeEvent (τ : Type)
  /-- `wait` returns. -/
  | wake
  | sweep (c : Clock τ)

inductive GossipThreadEvent (V τ : Type)
  | draw (env : Environment) (sample : List NodeInfo)
  /-- `execute` sends the request. -/
  | send
  /-- `execute` returns `None`, or raises. -/
  | giveUp
  | receive (resp : Message V τ)
  /-- The next turn of the merge loop. -/
  | turn
  | wake

inductive HandlerEvent (V τ : Type)
  | receive (msg : Message V τ)
  /-- The client hangs up, or what it sends is no message. -/
  | hangUp
  | dispatch (c : Clock τ)
  /-- `send_message`, which may fail. -/
  | send (sent : Bool)

inductive StopEvent
  | call
  /-- The departure is announced to the next peer, whatever comes of it. -/
  | announce
  | fail
  /-- The next statement. -/
  | proceed
  /-- A `join` ends, after its timeout or with the thread. -/
  | join (expired : Bool)

inductive ThreadEvent (V τ : Type)
  | accept (e : AcceptEvent)
  | purge (e : PurgeEvent τ)
  | gossip (e : GossipThreadEvent V τ)
  | handler (h : Nat) (e : HandlerEvent V τ)
  | stop (e : StopEvent)

abbrev ThreadRun (V τ : Type) := List (ThreadEvent V τ)

variable {V τ : Type}

/-- The stage after a peer. -/
def GossipStage.next : List NodeInfo → GossipStage
  | [] => sleeping
  | peer :: rest => asking peer rest

section Model

variable [LinearOrder τ] [Add τ]

/-- What a handler makes of a message: the response, and the membership and the store afterwards. -/
def respond (self : NodeInfo) (c : Clock τ) (msg : Message V τ) (m : Membership) (store : LocalLWWStore V τ) :
    Except PyError (Message V τ × Membership × LocalLWWStore V τ) :=
  if msg.type.isGossip then (handleMessage self m msg).map (fun r => (r.1, r.2, store))
  else (dispatch c msg store).map (fun r => (r.1, m, r.2))

namespace NodeThreads

variable (self : NodeInfo) (s : NodeThreads V τ)

/-- The node when `start()` has returned. -/
def started (m : Membership) (store : LocalLWWStore V τ) : NodeThreads V τ :=
  ⟨m, store, false, true, .checking, .waiting, .drawing, [], .notCalled⟩

/-- `is_alive()`; the gossip thread never ends. -/
def isAlive : Worker → Bool
  | .accept => s.accept ≠ .ended
  | .purge => s.purge ≠ .ended
  | .gossip => true

def setHandler (h : Nat) (stage : HandlerStage V τ) : NodeThreads V τ := { s with handlers := s.handlers.set h stage }

/-- A step of the accept thread. -/
def acceptStep (e : AcceptEvent) : NodeThreads V τ :=
  match s.accept, e with
  | .checking, .check => { s with accept := if s.stopSet then .ended else .accepting }
  | .accepting, .connect => { s with accept := if s.listening then .starting else .ended }
  | .accepting, .timeout => { s with accept := .checking }
  | .accepting, .fail => { s with accept := .ended }
  | .starting, .spawn => { s with accept := .checking, handlers := s.handlers ++ [.receiving] }
  | .starting, .fail => { s with accept := .ended }
  | _, _ => s

/-- A step of the purge thread. -/
def purgeStep (e : PurgeEvent τ) : NodeThreads V τ :=
  match s.purge, e with
  | .waiting, .wake => { s with purge := if s.stopSet then .ended else .purging }
  | .purging, .sweep c => { s with store := (s.store.purgeExpired c).2, purge := .waiting }
  | _, _ => s

/-- A step of the gossip thread. -/
def gossipStep (e : GossipThreadEvent V τ) : NodeThreads V τ :=
  match s.gossip, e with
  | .drawing, .draw env sample =>
    match s.membership.discovery.getPeers env with
    | none => { s with gossip := .sleeping }
    | some peers => if IsSample sample (candidates self peers) then { s with gossip := .next sample } else s
  | .asking peer rest, .send => { s with gossip := .awaiting peer rest }
  | .asking peer rest, .giveUp => { s with membership := s.membership.evict peer, gossip := .next rest }
  | .awaiting peer rest, .giveUp => { s with membership := s.membership.evict peer, gossip := .next rest }
  | .awaiting peer rest, .receive resp =>
    if resp.type = .peerList then
      { s with gossip := .merging peer s.membership.ring.nodes (resp.payload.peers.getD []) rest }
    else { s with gossip := .next rest }
  | .merging _ _ [] rest, .turn => { s with gossip := .next rest }
  | .merging peer _ (none :: _) rest, .turn => { s with membership := s.membership.evict peer, gossip := .next rest }
  | .merging peer known (some new :: entries) rest, .turn =>
    { s with membership := mergeEntry self known s.membership new, gossip := .merging peer known entries rest }
  | .sleeping, .wake => { s with gossip := .drawing }
  | _, _ => s

/-- A step of the handler of one connection. -/
def handlerStep (h : Nat) (e : HandlerEvent V τ) : NodeThreads V τ :=
  match s.handlers[h]?, e with
  | some .receiving, .receive msg => s.setHandler h (.dispatching msg)
  | some .receiving, .hangUp => s.setHandler h .closed
  | some (.dispatching msg), .dispatch c =>
    match respond self c msg s.membership s.store with
    | .ok (resp, m, store) => { s.setHandler h (.answering resp) with membership := m, store := store }
    | .error _ => s.setHandler h .closed
  | some (.answering _), .send sent => s.setHandler h (if sent then .receiving else .closed)
  | _, _ => s

/-- A step of `stop()`. -/
def stopStep (e : StopEvent) : NodeThreads V τ :=
  match s.stopper, e with
  | .notCalled, .call => { s with stopper := .announcing (s.membership.others self) }
  | .announcing (_ :: peers), .announce => { s with stopper := .announcing peers }
  | .announcing _, .fail => { s with stopper := .raised }
  | .announcing [], .proceed => { s with stopSet := true, stopper := .closing }
  | .closing, .proceed => { s with listening := false, stopper := .joining [.accept, .purge, .gossip] }
  | .joining (t :: threads), .join expired =>
    if s.isAlive t → expired then { s with stopper := .joining threads } else s
  -- what is left is `close_all()`
  | .joining [], .proceed => { s with stopper := .returned }
  | _, _ => s

/-- The node after an event; an event that cannot happen changes nothing. -/
def apply : ThreadEvent V τ → NodeThreads V τ
  | .accept e => s.acceptStep e
  | .purge e => s.purgeStep e
  | .gossip e => s.gossipStep self e
  | .handler h e => s.handlerStep self h e
  | .stop e => s.stopStep self e

/-- The event sends a request to a peer. -/
def Sends : ThreadEvent V τ → Prop
  | .gossip .send => ∃ peer rest, s.gossip = .asking peer rest ∨ s.gossip = .awaiting peer rest
  | .stop .announce => ∃ peer peers, s.stopper = .announcing (peer :: peers)
  | _ => False

/-- The event answers a request on a connection. -/
def Answers : ThreadEvent V τ → Prop
  | .handler h (.send true) => ∃ resp, s.handlers[h]? = some (.answering resp)
  | _ => False

/-- The event changes the ring or the store. -/
def Changes (e : ThreadEvent V τ) : Prop :=
  (s.apply self e).membership.ring ≠ s.membership.ring ∨ (s.apply self e).store ≠ s.store

def Loud (e : ThreadEvent V τ) : Prop := s.Sends e ∨ s.Answers e ∨ s.Changes self e

/-- No further step of the node sends a request, answers one, or changes the ring or the store. -/
def Silent : Prop := Never (apply self) (Loud self) s

end NodeThreads

/-- The blocking node after a run from the end of its `start()`. -/
def threadsAfter (self : NodeInfo) (m : Membership) (store : LocalLWWStore V τ) (run : ThreadRun V τ) :
    NodeThreads V τ :=
  after (NodeThreads.apply self) (NodeThreads.started m store) run

end Model

/-! ### When the node is quiet -/

/-- The message lacks a field that its handling reads. -/
def Message.isIncomplete (msg : Message V τ) : Bool :=
  match msg.type with
  | .peerAnnounce | .peerLeave => msg.payload.peer.isNone
  | .get | .delete => msg.payload.key.isNone
  | .set => msg.payload.key.isNone || msg.payload.value.isNone
  | _ => false

/-- `get_peers()` names nobody but the node itself, whatever the environment answers. -/
def Discovery.Nameless (self : NodeInfo) (d : Discovery) : Prop :=
  ∀ env peers, d.getPeers env = some peers → candidates self peers = []

namespace Discovery

private theorem candidates_eq_nil_iff {self : NodeInfo} {peers : List NodeInfo} :
    candidates self peers = [] ↔ ∀ peer ∈ peers, peer = self := by
  simp [candidates, List.filter_eq_nil_iff]

theorem nameless_static {self : NodeInfo} {peers : List NodeInfo} :
    (static peers).Nameless self ↔ ∀ peer ∈ peers, peer = self := by
  rw [← candidates_eq_nil_iff]
  constructor
  · intro h
    exact h {} peers rfl
  · intro h env found hfound
    obtain rfl : peers = found := Option.some.inj hfound
    exact h

theorem nameless_gossip {self : NodeInfo} {d : GossipDiscovery} :
    (gossip d).Nameless self ↔ d.seed = self ∧ ∀ peer ∈ d.peers, peer = self := by
  have hpeers : candidates self d.getPeers = [] ↔ d.seed = self ∧ ∀ peer ∈ d.peers, peer = self := by
    rw [candidates_eq_nil_iff, GossipDiscovery.getPeers, List.forall_mem_append, List.forall_mem_singleton, and_comm]
  rw [← hpeers]
  constructor
  · intro h
    exact h {} d.getPeers rfl
  · intro h env found hfound
    obtain rfl : d.getPeers = found := Option.some.inj hfound
    exact h

/-- A backend that looks its peers up may always find one. -/
theorem not_nameless (self : NodeInfo) (port : Int) :
    ¬ dns.Nameless self ∧ ¬ (aRecord port).Nameless self ∧ ¬ custom.Nameless self := by
  have hhost : self.host ++ "x" ≠ self.host := by simp
  have hport : self.port + 1 ≠ self.port := by omega
  refine ⟨fun h => ?_, fun h => ?_, fun h => ?_⟩
  · have hnone := candidates_eq_nil_iff.1 (h { services := some [("", self.port + 1)] } _ rfl)
    have hpeer := hnone ⟨rstripDot "", self.port + 1⟩ (by simp)
    exact hport (congrArg NodeInfo.port hpeer)
  · have hnone := candidates_eq_nil_iff.1 (h { addresses := some [self.host ++ "x"] } _ rfl)
    have hpeer := hnone ⟨self.host ++ "x", port⟩ (by simp)
    exact hhost (congrArg NodeInfo.host hpeer)
  · have hnone := candidates_eq_nil_iff.1 (h { peers := some [⟨self.host, self.port + 1⟩] } _ rfl)
    have hpeer := hnone ⟨self.host, self.port + 1⟩ (by simp)
    exact hport (congrArg NodeInfo.port hpeer)

end Discovery

/-- The turns of a merge loop leave the ring as it is, and the discovery nameless. -/
def Membership.Settles (self peer : NodeInfo) (known : List NodeInfo) : List (Option NodeInfo) → Membership → Prop
  | [], m => m.discovery.Nameless self
  | none :: _, m => (m.evict peer).ring = m.ring ∧ (m.evict peer).discovery.Nameless self
  | some new :: entries, m =>
    (mergeEntry self known m new).ring = m.ring ∧ Settles self peer known entries (mergeEntry self known m new)

/-- The whole loop leaves the ring as it is, and nobody to ask. -/
theorem Membership.Settles.mergePeers {self peer : NodeInfo} {known : List NodeInfo} {entries : List (Option NodeInfo)}
    {m : Membership} (h : m.Settles self peer known entries) :
    (Gossip.mergePeers self peer known entries m).ring = m.ring ∧
      (Gossip.mergePeers self peer known entries m).discovery.Nameless self := by
  induction entries generalizing m with
  | nil => exact ⟨rfl, h⟩
  | cons entry entries ih =>
    cases entry with
    | none => exact h
    | some new =>
      obtain ⟨hring, hrest⟩ := h
      obtain ⟨hring', hnameless⟩ := ih hrest
      exact ⟨hring'.trans hring, hnameless⟩

/-- A sweep may remove something as long as any value has an expiry instant. -/
theorem LocalLWWStore.purgeExpired_eq_self_iff [LinearOrder τ] {store : LocalLWWStore V τ} :
    (∀ c, (store.purgeExpired c).2 = store) ↔
      ∀ k e, store.entry k = some e → e.stored.isTombstone = false → e.expiresAt = none := by
  constructor
  · intro hsame k e he hvalue
    cases hx : e.expiresAt with
    | none => rfl
    | some x =>
      -- a sweep at that instant removes it
      have hsweep : e.sweepable x = true := by simp [Entry.sweepable, hvalue, hx]
      have hentry := store.entry_purgeExpired ⟨x, 0⟩ k
      rw [hsame, he, Option.filter_some_neg (by simp [hsweep])] at hentry
      cases hentry
  · intro hpermanent c
    have hnone : store.data.items.filter (fun p => p.2.sweepable c.monotonic) = [] := by
      rw [List.filter_eq_nil_iff]
      intro p hp hsweep
      obtain ⟨x, hx, -⟩ := Entry.expiresAt_of_sweepable hsweep
      have hvalue : p.2.stored.isTombstone = false := by
        cases htombstone : p.2.stored.isTombstone with
        | false => rfl
        | true => simp [Entry.sweepable, htombstone] at hsweep
      have hentry : store.entry p.1 = some p.2 := store.data.mem_items_iff.1 hp
      rw [hpermanent p.1 p.2 hentry hvalue] at hx
      cases hx
    simp only [purgeExpired, hnone]
    rfl

/-- A handler has ended, or will end on a message that lacks a field. -/
def HandlerStage.IsQuiet : HandlerStage V τ → Prop
  | dispatching msg => msg.isIncomplete = true
  | closed => True
  | _ => False

/-- The gossip thread is between two rounds, or at the end of a round that changes nothing, and finds no peer for the
next one. -/
def GossipStage.IsQuiet (self : NodeInfo) (m : Membership) : GossipStage → Prop
  | drawing | sleeping => m.discovery.Nameless self
  | merging peer known entries rest => rest = [] ∧ m.Settles self peer known entries
  | _ => False

namespace NodeThreads

variable [LinearOrder τ]

/-- No thread of the node has anything to do that can be noticed. -/
structure Quiet (node : NodeInfo) (s : NodeThreads V τ) : Prop where
  handlers : ∀ stage ∈ s.handlers, stage.IsQuiet
  accept : s.accept ≠ .starting
  purge : s.purge = .purging → ∀ c, (s.store.purgeExpired c).2 = s.store
  gossip : s.gossip.IsQuiet node s.membership

end NodeThreads

section Proofs

variable [LinearOrder τ] [Add τ] {self : NodeInfo}

omit [LinearOrder τ] [Add τ] in
private theorem exists_map_ok {ε α β : Type} {x : Except ε α} {f : α → β} :
    (∃ r, x.map f = .ok r) ↔ ∃ r, x = .ok r := by
  cases x <;> simp [Except.map]

omit [LinearOrder τ] [Add τ] in
/-- Handling that only reads one field succeeds if the field is there. -/
private theorem exists_require_ok {α β : Type} {field : String} {o : Option α} {f : α → Except PyError β}
    (hf : ∀ a, ∃ r, f a = .ok r) : (∃ r, (require field o >>= f) = .ok r) ↔ o.isNone = false := by
  cases o with
  | none => simp [require, bind, Except.bind]
  | some a => simpa [require, bind, Except.bind] using hf a

/-- A message is answered unless it lacks a field, whatever the node holds. -/
theorem respond_eq_ok_iff (c : Clock τ) (msg : Message V τ) (m : Membership) (store : LocalLWWStore V τ) :
    (∃ r, respond self c msg m store = .ok r) ↔ msg.isIncomplete = false := by
  obtain ⟨t, payload⟩ := msg
  unfold respond
  cases t with
  | peerAnnounce =>
    refine exists_map_ok.trans (exists_require_ok fun peer => ?_)
    split <;> exact ⟨_, rfl⟩
  | peerLeave => exact exists_map_ok.trans (exists_require_ok fun peer => ⟨_, rfl⟩)
  | get =>
    refine exists_map_ok.trans (exists_require_ok fun key => ?_)
    split
    · exact ⟨_, rfl⟩
    · split <;> exact ⟨_, rfl⟩
  | set =>
    cases hvalue : payload.value with
    | none =>
      cases hkey : payload.key <;>
        simp [MessageType.isGossip, dispatch, require, bind, Except.bind, Except.map, Message.isIncomplete, hvalue,
          hkey]
    | some value =>
      have hcomplete : Message.isIncomplete (⟨.set, payload⟩ : Message V τ) = payload.key.isNone := by
        simp [Message.isIncomplete, hvalue]
      rw [hcomplete]
      refine exists_map_ok.trans (exists_require_ok fun key => ?_)
      simp only [hvalue]
      exact ⟨_, rfl⟩
  | delete =>
    refine exists_map_ok.trans (exists_require_ok fun key => ?_)
    dsimp only
    split <;> exact ⟨_, rfl⟩
  | ping | pong | peerList => exact ⟨fun _ => rfl, fun _ => ⟨_, rfl⟩⟩
  | ok | notFound | error => exact ⟨fun _ => rfl, fun _ => ⟨_, rfl⟩⟩

namespace NodeThreads

variable {s : NodeThreads V τ}

/-! ### What `stop()` leaves behind -/

/-- What `stop()` has done at each of its points. -/
def Marked (s : NodeThreads V τ) : Prop :=
  match s.stopper with
  | .closing => s.stopSet = true
  | .joining _ | .returned => s.stopSet = true ∧ s.listening = false
  | _ => True

omit [LinearOrder τ] [Add τ] in
theorem acceptStep_frame (s : NodeThreads V τ) (e : AcceptEvent) :
    ∃ stage handlers, s.acceptStep e = { s with accept := stage, handlers := handlers } := by
  unfold acceptStep
  split <;> exact ⟨_, _, rfl⟩

omit [Add τ] in
theorem purgeStep_frame (s : NodeThreads V τ) (e : PurgeEvent τ) :
    ∃ stage store, s.purgeStep e = { s with purge := stage, store := store } := by
  unfold purgeStep
  split <;> exact ⟨_, _, rfl⟩

omit [LinearOrder τ] [Add τ] in
theorem gossipStep_frame (self : NodeInfo) (s : NodeThreads V τ) (e : GossipThreadEvent V τ) :
    ∃ stage m, s.gossipStep self e = { s with gossip := stage, membership := m } := by
  unfold gossipStep
  split
  · split
    · exact ⟨_, _, rfl⟩
    · split <;> exact ⟨_, _, rfl⟩
  case h_5 => split <;> exact ⟨_, _, rfl⟩
  all_goals exact ⟨_, _, rfl⟩

theorem handlerStep_frame (self : NodeInfo) (s : NodeThreads V τ) (h : Nat) (e : HandlerEvent V τ) :
    ∃ handlers m store, s.handlerStep self h e = { s with handlers := handlers, membership := m, store := store } := by
  unfold handlerStep
  split
  case h_3 => split <;> exact ⟨_, _, _, rfl⟩
  all_goals exact ⟨_, _, _, rfl⟩

/-- Only `stop()` sets the stop event and closes the server. -/
private theorem apply_frame (self : NodeInfo) (s : NodeThreads V τ) {e : ThreadEvent V τ} (he : ∀ e', e ≠ .stop e') :
    (s.apply self e).stopper = s.stopper ∧ (s.apply self e).stopSet = s.stopSet ∧
      (s.apply self e).listening = s.listening := by
  cases e with
  | accept e =>
    obtain ⟨stage, handlers, heq⟩ := s.acceptStep_frame e
    rw [NodeThreads.apply, heq]
    exact ⟨rfl, rfl, rfl⟩
  | purge e =>
    obtain ⟨stage, store, heq⟩ := s.purgeStep_frame e
    rw [NodeThreads.apply, heq]
    exact ⟨rfl, rfl, rfl⟩
  | gossip e =>
    obtain ⟨stage, m, heq⟩ := s.gossipStep_frame self e
    rw [NodeThreads.apply, heq]
    exact ⟨rfl, rfl, rfl⟩
  | handler h e =>
    obtain ⟨handlers, m, store, heq⟩ := s.handlerStep_frame self h e
    rw [NodeThreads.apply, heq]
    exact ⟨rfl, rfl, rfl⟩
  | stop e => exact absurd rfl (he e)

namespace Marked

omit [LinearOrder τ] [Add τ] in
theorem stopStep (hs : s.Marked) (e : StopEvent) : (s.stopStep self e).Marked := by
  unfold NodeThreads.stopStep
  split
  · trivial
  · trivial
  · trivial
  · rfl
  · rename_i hstage
    simp only [Marked, hstage] at hs
    exact ⟨hs, rfl⟩
  · rename_i hstage
    split
    · simp only [Marked, hstage] at hs
      exact hs
    · exact hs
  · rename_i hstage
    simp only [Marked, hstage] at hs
    exact hs
  · exact hs

theorem apply (hs : s.Marked) (e : ThreadEvent V τ) : (s.apply self e).Marked := by
  by_cases he : ∃ e', e = .stop e'
  · obtain ⟨e', rfl⟩ := he
    exact hs.stopStep e'
  · obtain ⟨hstopper, hset, hlistening⟩ := s.apply_frame self (not_exists.1 he)
    simpa only [Marked, hstopper, hset, hlistening] using hs

end Marked

theorem marked_after (m : Membership) (store : LocalLWWStore V τ) (run : ThreadRun V τ) :
    (threadsAfter self m store run).Marked :=
  after_keeps (P := Marked) (show (started m store).Marked from trivial) (fun _ e hs => hs.apply e) run

/-! ### A quiet node stays quiet -/

namespace Quiet

omit [Add τ] in
theorem acceptStep (hs : s.Quiet self) (hset : s.stopSet = true) (hclosed : s.listening = false) (e : AcceptEvent) :
    (s.acceptStep e).Quiet self := by
  unfold NodeThreads.acceptStep
  split
  · exact { hs with accept := by simp [hset] }
  · exact { hs with accept := by simp [hclosed] }
  · exact { hs with accept := by simp }
  · exact { hs with accept := by simp }
  · rename_i hstage
    exact absurd hstage hs.accept
  · exact { hs with accept := by simp }
  · exact hs

omit [Add τ] in
theorem purgeStep (hs : s.Quiet self) (hset : s.stopSet = true) (e : PurgeEvent τ) :
    (s.purgeStep e).Quiet self ∧ (s.purgeStep e).store = s.store := by
  unfold NodeThreads.purgeStep
  split
  · exact ⟨{ hs with purge := by simp [hset] }, rfl⟩
  · rename_i c hstage
    exact ⟨{ hs with purge := by simp }, hs.purge hstage c⟩
  · exact ⟨hs, rfl⟩

omit [Add τ] in
theorem gossipStep (hs : s.Quiet self) (e : GossipThreadEvent V τ) :
    (s.gossipStep self e).Quiet self ∧ (s.gossipStep self e).membership.ring = s.membership.ring := by
  have hgossip := hs.gossip
  unfold NodeThreads.gossipStep
  split
  · rename_i env sample hstage
    rw [hstage] at hgossip
    split
    · exact ⟨{ hs with gossip := hgossip }, rfl⟩
    · rename_i peers hfound
      split
      · -- the sample of nobody is empty
        rename_i hsample
        rw [hgossip env peers hfound] at hsample
        obtain rfl : sample = [] := List.length_eq_zero_iff.1 hsample.2
        exact ⟨{ hs with gossip := hgossip }, rfl⟩
      · exact ⟨hs, rfl⟩
  · rename_i hstage
    simp [hstage, GossipStage.IsQuiet] at hgossip
  · rename_i hstage
    simp [hstage, GossipStage.IsQuiet] at hgossip
  · rename_i hstage
    simp [hstage, GossipStage.IsQuiet] at hgossip
  · rename_i hstage
    simp [hstage, GossipStage.IsQuiet] at hgossip
  · rename_i hstage
    rw [hstage] at hgossip
    obtain ⟨rfl, hnameless⟩ := hgossip
    exact ⟨{ hs with gossip := hnameless }, rfl⟩
  · rename_i hstage
    rw [hstage] at hgossip
    obtain ⟨rfl, hring, hnameless⟩ := hgossip
    exact ⟨{ hs with gossip := hnameless }, hring⟩
  · rename_i hstage
    rw [hstage] at hgossip
    obtain ⟨hrest, hring, hsettles⟩ := hgossip
    exact ⟨{ hs with gossip := ⟨hrest, hsettles⟩ }, hring⟩
  · rename_i hstage
    rw [hstage] at hgossip
    exact ⟨{ hs with gossip := hgossip }, rfl⟩
  · exact ⟨hs, rfl⟩

theorem handlerStep (hs : s.Quiet self) (h : Nat) (e : HandlerEvent V τ) :
    (s.handlerStep self h e).Quiet self ∧ (s.handlerStep self h e).membership = s.membership ∧
      (s.handlerStep self h e).store = s.store := by
  have hstages : ∀ stage, s.handlers[h]? = some stage → stage.IsQuiet := fun stage hh =>
    hs.handlers stage (List.mem_of_getElem? hh)
  unfold NodeThreads.handlerStep
  split
  · rename_i hh
    exact (hstages _ hh).elim
  · rename_i hh
    exact (hstages _ hh).elim
  · rename_i msg c hh
    have hincomplete : msg.isIncomplete = true := hstages _ hh
    split
    · rename_i r hok
      have := (respond_eq_ok_iff c msg s.membership s.store).1 ⟨_, hok⟩
      simp [hincomplete] at this
    · refine ⟨{ hs with handlers := ?_ }, rfl, rfl⟩
      intro stage hstage
      rcases List.mem_or_eq_of_mem_set hstage with hold | rfl
      · exact hs.handlers stage hold
      · trivial
  · rename_i hh
    exact (hstages _ hh).elim
  · exact ⟨hs, rfl, rfl⟩

/-- No thread but the one in `stop()` disturbs it. -/
theorem apply (hs : s.Quiet self) (hset : s.stopSet = true) (hclosed : s.listening = false) {e : ThreadEvent V τ}
    (he : ∀ e', e ≠ .stop e') :
    (s.apply self e).Quiet self ∧ (s.apply self e).membership.ring = s.membership.ring ∧
      (s.apply self e).store = s.store := by
  cases e with
  | accept e =>
    refine ⟨hs.acceptStep hset hclosed e, ?_⟩
    obtain ⟨stage, handlers, heq⟩ := s.acceptStep_frame e
    rw [NodeThreads.apply, heq]
    exact ⟨rfl, rfl⟩
  | purge e =>
    obtain ⟨hquiet, hstore⟩ := hs.purgeStep hset e
    obtain ⟨stage, store, heq⟩ := s.purgeStep_frame e
    exact ⟨hquiet, by rw [NodeThreads.apply, heq], hstore⟩
  | gossip e =>
    obtain ⟨hquiet, hring⟩ := hs.gossipStep e
    obtain ⟨stage, m, heq⟩ := s.gossipStep_frame self e
    exact ⟨hquiet, hring, by rw [NodeThreads.apply, heq]⟩
  | handler h e =>
    obtain ⟨hquiet, hmembership, hstore⟩ := hs.handlerStep h e
    exact ⟨hquiet, congrArg Membership.ring hmembership, hstore⟩
  | stop e => exact absurd rfl (he e)

end Quiet

/-- A node whose `stop()` has returned, and that is quiet. -/
structure Halted (node : NodeInfo) (s : NodeThreads V τ) : Prop where
  returned : s.stopper = .returned
  stopSet : s.stopSet = true
  closed : s.listening = false
  quiet : s.Quiet node

namespace Halted

omit [Add τ] in
theorem stopStep_eq (hs : s.Halted self) (e : StopEvent) : s.stopStep self e = s := by
  simp [stopStep, hs.returned]

theorem apply (hs : s.Halted self) (e : ThreadEvent V τ) :
    (s.apply self e).Halted self ∧ (s.apply self e).membership.ring = s.membership.ring ∧
      (s.apply self e).store = s.store := by
  by_cases he : ∃ e', e = .stop e'
  · obtain ⟨e', rfl⟩ := he
    rw [NodeThreads.apply, hs.stopStep_eq]
    exact ⟨hs, rfl, rfl⟩
  · obtain ⟨hstopper, hset, hlistening⟩ := s.apply_frame self (not_exists.1 he)
    obtain ⟨hquiet, hsame⟩ := hs.quiet.apply hs.stopSet hs.closed (not_exists.1 he)
    exact ⟨⟨hstopper.trans hs.returned, hset.trans hs.stopSet, hlistening.trans hs.closed, hquiet⟩, hsame⟩

omit [Add τ] in
theorem not_sends (hs : s.Halted self) (e : ThreadEvent V τ) : ¬ s.Sends e := by
  intro hsends
  have hgossip := hs.quiet.gossip
  unfold Sends at hsends
  split at hsends
  · obtain ⟨peer, rest, hstage | hstage⟩ := hsends <;> simp [hstage, GossipStage.IsQuiet] at hgossip
  · obtain ⟨peer, peers, hstage⟩ := hsends
    simp [hs.returned] at hstage
  · exact hsends

omit [Add τ] in
theorem not_answers (hs : s.Halted self) (e : ThreadEvent V τ) : ¬ s.Answers e := by
  intro hanswers
  unfold Answers at hanswers
  split at hanswers
  · obtain ⟨resp, hh⟩ := hanswers
    exact hs.quiet.handlers _ (List.mem_of_getElem? hh)
  · exact hanswers

theorem not_changes (hs : s.Halted self) (e : ThreadEvent V τ) : ¬ s.Changes self e := by
  obtain ⟨-, hring, hstore⟩ := hs.apply e
  intro hchanges
  rcases hchanges with hchanges | hchanges
  · exact hchanges hring
  · exact hchanges hstore

theorem silent (hs : s.Halted self) : s.Silent self := by
  refine Never.of_invariant hs (fun t e ht => (ht.apply e).1) ?_
  rintro t e ht (hsends | hanswers | hchanges)
  · exact ht.not_sends e hsends
  · exact ht.not_answers e hanswers
  · exact ht.not_changes e hchanges

end Halted

/-! ### A silent node is quiet -/

/-- The request that a silent node is put to the test with. -/
private def ping : Message V τ := { type := .ping }

namespace Silent

theorem next (hs : s.Silent self) (e : ThreadEvent V τ) : (s.apply self e).Silent self := Never.next hs e

theorem not_asking (hs : s.Silent self) {peer : NodeInfo} {rest : List NodeInfo} :
    s.gossip ≠ .asking peer rest ∧ s.gossip ≠ .awaiting peer rest := by
  have hsend : ¬ s.Sends (.gossip .send) := fun h => hs.now _ (Or.inl h)
  exact ⟨fun h => hsend ⟨peer, rest, Or.inl h⟩, fun h => hsend ⟨peer, rest, Or.inr h⟩⟩

theorem ring_eq (hs : s.Silent self) (e : ThreadEvent V τ) : (s.apply self e).membership.ring = s.membership.ring := by
  by_contra hring
  exact hs.now e (Or.inr (Or.inr (Or.inl hring)))

theorem store_eq (hs : s.Silent self) (e : ThreadEvent V τ) : (s.apply self e).store = s.store := by
  by_contra hstore
  exact hs.now e (Or.inr (Or.inr (Or.inr hstore)))

theorem not_answering (hs : s.Silent self) {h : Nat} {resp : Message V τ} :
    s.handlers[h]? ≠ some (.answering resp) :=
  fun hh => hs.now (.handler h (.send true)) (Or.inr (Or.inl ⟨resp, hh⟩))

variable [Inhabited τ]

/-- A handler that is dispatching would answer. -/
theorem incomplete (hs : s.Silent self) {h : Nat} {msg : Message V τ} (hh : s.handlers[h]? = some (.dispatching msg)) :
    msg.isIncomplete = true := by
  by_contra hcomplete
  rw [Bool.not_eq_true] at hcomplete
  obtain ⟨⟨resp, m, store⟩, hr⟩ : ∃ r, respond self ⟨default, 0⟩ msg s.membership s.store = .ok r :=
    (respond_eq_ok_iff _ msg s.membership s.store).2 hcomplete
  have hnext := hs.next (.handler h (.dispatch ⟨default, 0⟩))
  have hstep : s.apply self (.handler h (.dispatch ⟨default, 0⟩)) =
      { s.setHandler h (.answering resp) with membership := m, store := store } := by
    simp only [NodeThreads.apply, handlerStep, hh, hr]
  rw [hstep] at hnext
  exact hnext.not_answering (Base.getElem?_set_of_some hh)

/-- A handler that waits for a request would answer the next one. -/
theorem not_receiving (hs : s.Silent self) {h : Nat} : s.handlers[h]? ≠ some .receiving := by
  intro hh
  have hstep : s.apply self (.handler h (.receive ping)) = s.setHandler h (.dispatching ping) := by
    simp only [NodeThreads.apply, handlerStep, hh]
  have hnext := hs.next (.handler h (.receive ping))
  rw [hstep] at hnext
  have hping : (ping : Message V τ).isIncomplete = true := hnext.incomplete (Base.getElem?_set_of_some hh)
  cases hping

theorem handlers (hs : s.Silent self) : ∀ stage ∈ s.handlers, stage.IsQuiet := by
  intro stage hstage
  obtain ⟨h, hh⟩ := List.mem_iff_getElem?.1 hstage
  cases stage with
  | receiving => exact hs.not_receiving hh
  | dispatching msg => exact hs.incomplete hh
  | answering resp => exact hs.not_answering hh
  | closed => trivial

theorem accept (hs : s.Silent self) : s.accept ≠ .starting := by
  intro hstage
  have hstep : s.apply self (.accept .spawn) =
      { s with accept := .checking, handlers := s.handlers ++ [.receiving] } := by
    simp only [NodeThreads.apply, acceptStep, hstage]
  have hnext := (hs.next (.accept .spawn)).handlers
  rw [hstep] at hnext
  exact hnext .receiving (by simp)

omit [Inhabited τ] in
/-- A gossip thread that draws a sample asks whomever it has drawn. -/
theorem nameless_of_drawing (hs : s.Silent self) (hstage : s.gossip = .drawing) :
    s.membership.discovery.Nameless self := by
  intro env peers hfound
  by_contra hnonempty
  obtain ⟨peer, rest, hpeers⟩ := List.exists_cons_of_ne_nil hnonempty
  have hsample : IsSample ((candidates self peers).take fanout) (candidates self peers) :=
    ⟨(List.take_sublist _ _).subperm, List.length_take⟩
  have hstep : s.apply self (.gossip (.draw env ((candidates self peers).take fanout))) =
      { s with gossip := .asking peer (rest.take 2) } := by
    simp only [NodeThreads.apply, gossipStep, hstage, hfound, hsample, if_true]
    rw [hpeers]
    rfl
  have hnext := hs.next (.gossip (.draw env ((candidates self peers).take fanout)))
  rw [hstep] at hnext
  exact hnext.not_asking.1 rfl

omit [Inhabited τ] in
theorem nameless_of_sleeping (hs : s.Silent self) (hstage : s.gossip = .sleeping) :
    s.membership.discovery.Nameless self := by
  have hstep : s.apply self (.gossip .wake) = { s with gossip := .drawing } := by
    simp only [NodeThreads.apply, gossipStep, hstage]
  have hnext := hs.next (.gossip .wake)
  rw [hstep] at hnext
  exact hnext.nameless_of_drawing rfl

omit [Inhabited τ] in
/-- The round is over, and the next one will find nobody. -/
theorem nameless_of_next (hs : s.Silent self) {rest : List NodeInfo} (hstage : s.gossip = .next rest) :
    rest = [] ∧ s.membership.discovery.Nameless self := by
  cases rest with
  | nil => exact ⟨rfl, hs.nameless_of_sleeping hstage⟩
  | cons peer rest => exact absurd hstage hs.not_asking.1

omit [Inhabited τ] in
theorem settles (hs : s.Silent self) {peer : NodeInfo} {known rest : List NodeInfo} {entries : List (Option NodeInfo)}
    (hstage : s.gossip = .merging peer known entries rest) :
    rest = [] ∧ s.membership.Settles self peer known entries := by
  induction entries generalizing s with
  | nil =>
    have hstep : s.apply self (.gossip .turn) = { s with gossip := .next rest } := by
      simp only [NodeThreads.apply, gossipStep, hstage]
    have hnext := hs.next (.gossip .turn)
    rw [hstep] at hnext
    exact hnext.nameless_of_next rfl
  | cons entry entries ih =>
    have hnext := hs.next (.gossip .turn)
    have hring := hs.ring_eq (.gossip .turn)
    cases entry with
    | none =>
      have hstep : s.apply self (.gossip .turn) =
          { s with membership := s.membership.evict peer, gossip := .next rest } := by
        simp only [NodeThreads.apply, gossipStep, hstage]
      rw [hstep] at hnext hring
      obtain ⟨hrest, hnameless⟩ := hnext.nameless_of_next rfl
      exact ⟨hrest, hring, hnameless⟩
    | some new =>
      have hstep : s.apply self (.gossip .turn) =
          { s with membership := mergeEntry self known s.membership new,
                   gossip := .merging peer known entries rest } := by
        simp only [NodeThreads.apply, gossipStep, hstage]
      rw [hstep] at hnext hring
      obtain ⟨hrest, hsettles⟩ := ih hnext rfl
      exact ⟨hrest, hring, hsettles⟩

theorem quiet (hs : s.Silent self) : s.Quiet self where
  handlers := hs.handlers
  accept := hs.accept
  purge hstage c := by
    have hstore := hs.store_eq (.purge (.sweep c))
    simpa only [NodeThreads.apply, NodeThreads.purgeStep, hstage] using hstore
  gossip := by
    cases hstage : s.gossip with
    | drawing => exact hs.nameless_of_drawing hstage
    | asking peer rest => exact (hs.not_asking.1 hstage).elim
    | awaiting peer rest => exact (hs.not_asking.2 hstage).elim
    | merging peer known entries rest => exact hs.settles hstage
    | sleeping => exact hs.nameless_of_sleeping hstage

end Silent

end NodeThreads

open NodeThreads

/-- Once `stop()` has returned, the node is silent if and only if it is quiet. -/
theorem silent_iff_quiet [Inhabited τ] (m : Membership) (store : LocalLWWStore V τ) {run : ThreadRun V τ}
    (hreturned : (threadsAfter self m store run).stopper = .returned) :
    (threadsAfter self m store run).Silent self ↔ (threadsAfter self m store run).Quiet self := by
  have hmarked : (threadsAfter self m store run).Marked := marked_after m store run
  simp only [Marked, hreturned] at hmarked
  constructor
  · intro hsilent
    exact hsilent.quiet
  · intro hquiet
    exact Halted.silent ⟨hreturned, hmarked.1, hmarked.2, hquiet⟩

end Proofs

/-- Node 7001 when it has started with these peers in its static discovery. -/
def staticMembership (peers : List NodeInfo) : Membership :=
  Membership.bootstrap (localhost 7001) peers ⟨RendezvousRing.empty, .static peers⟩

/-- A client has connected when `stop()` is called.  The accept thread and the purge thread end, and `join` gives the
gossip thread up. -/
def stopRun : ThreadRun Nat Int :=
  [.accept .check, .accept .connect, .accept .spawn, .stop .call, .stop .announce, .stop .proceed, .accept .check,
    .purge .wake, .stop .proceed, .stop (.join false), .stop (.join false), .stop (.join true), .stop .proceed]

/-- After `stop()` has returned, the gossip thread asks node 7002 for its peers. -/
theorem stopped_node_gossips :
    (threadsAfter (localhost 7001) (staticMembership [localhost 7002]) .empty stopRun).stopper = .returned ∧
      ¬ (threadsAfter (localhost 7001) (staticMembership [localhost 7002]) .empty stopRun).Silent (localhost 7001) := by
  refine ⟨by decide +kernel, fun hsilent => ?_⟩
  have hnext := hsilent.next (.gossip (.draw {} [localhost 7002]))
  exact hnext.not_asking.1 (show _ = GossipStage.asking (localhost 7002) [] by decide +kernel)

-- and the handler of the connection stores what the client sends
example :
    ((threadsAfter (localhost 7001) (staticMembership []) .empty
      (stopRun ++ [.handler 0 (.receive { type := .set, payload := { key := some "k", value := some (some 1) } }),
        .handler 0 (.dispatch ⟨0, 0⟩)])).store.entry "k").isSome = true := by
  decide +kernel

/-- A node that no client has connected to, and that knows of no other node, is quiet. -/
theorem stopped_alone_quiet :
    (threadsAfter (localhost 7001) (staticMembership []) .empty (stopRun.drop 3)).stopper = .returned ∧
      (threadsAfter (localhost 7001) (staticMembership []) .empty (stopRun.drop 3)).Quiet (localhost 7001) := by
  refine ⟨by decide +kernel, ⟨?_, by decide +kernel, ?_, ?_⟩⟩
  · have hnone : (threadsAfter (localhost 7001) (staticMembership []) .empty (stopRun.drop 3)).handlers = [] := by
      rw [← List.length_eq_zero_iff]
      decide +kernel
    simp [hnone]
  · have hended : (threadsAfter (localhost 7001) (staticMembership []) .empty (stopRun.drop 3)).purge = .ended := by
      decide +kernel
    simp [hended]
  · have hdrawing : (threadsAfter (localhost 7001) (staticMembership []) .empty (stopRun.drop 3)).gossip =
        .drawing := by
      decide +kernel
    have hdiscovery : (threadsAfter (localhost 7001) (staticMembership []) .empty
        (stopRun.drop 3)).membership.discovery = .static [] := by
      decide +kernel
    rw [hdrawing, GossipStage.IsQuiet, hdiscovery, Discovery.nameless_static]
    simp

end DLStorage
