import DLStorage.Node.Threads

/-!
# The tasks of an async node

An `AsyncStorageNode` that has started: the gossip task with the requests of its round, the purge task, a handler for
every client connection, and the task that calls `stop()`.  All of them run on one event loop, so that an event is
what a task does from one `await` to the next.  A cancelled task gets a `CancelledError` where it waits, and does
nothing else.

`stop()` waits for every task that it has cancelled, and `wait_closed()` waits until all connections have finished, also
those whose handler it has not cancelled.  So the node is silent afterwards, whatever was under way
(`tasks_silent`).
-/

namespace DLStorage

open Base (after after_keeps Never)
open Gossip

/-- A client connection with its handler; `unsent` are the responses in the buffer of the transport. -/
inductive ClientTask (V τ : Type)
  /-- The handler has not begun. -/
  | created
  /-- The handler receives, or waits for the buffer to drain. -/
  | running (draining cancelled : Bool) (unsent : List (Message V τ))
  /-- The handler has ended, and the transport is closing. -/
  | ended (unsent : List (Message V τ))
  | lost

/-- Where `_gossip_with` stands. -/
inductive AskStage
  | asking
  | awaiting
  | ended
  deriving DecidableEq

structure AskTask where
  peer : NodeInfo
  stage : AskStage

/-- Where `gossip_loop` stands: before a round, or within one. -/
inductive GossipTask
  | sleeping
  | gathering (asks : List AskTask)
  | ended

/-- Where `stop()` stands, by what it waits for: the announcements, the background tasks, the handlers, or the
server. -/
inductive AsyncStopStage
  | notCalled
  | announcing (peers : List NodeInfo)
  | ending
  | hangingUp
  | closing
  | returned
  deriving DecidableEq

structure NodeTasks (V τ : Type) where
  membership : Membership
  store : LocalLWWStore V τ
  /-- The server has not been closed. -/
  serving : Bool
  /-- The gossip task, with its requests, and the purge task have been cancelled. -/
  cancelled : Bool
  gossip : GossipTask
  /-- The purge task has not ended. -/
  purging : Bool
  clients : List (ClientTask V τ)
  stopper : AsyncStopStage

inductive GossipTaskEvent (V τ : Type)
  | draw (env : Environment) (sample : List NodeInfo)
  /-- `execute` of request `i` sends it. -/
  | send (i : Nat)
  /-- `execute` returns `None`, or raises. -/
  | giveUp (i : Nat)
  | receive (i : Nat) (resp : Message V τ)
  /-- The `CancelledError` reaches request `i`. -/
  | unwind (i : Nat)
  /-- `gather` is done. -/
  | gathered
  /-- The `CancelledError` reaches the loop in its sleep. -/
  | cancel

inductive ClientEvent (V τ : Type)
  | begin
  | serve (c : Clock τ) (msg : Message V τ)
  | drained
  /-- The client has closed the connection, or something else is raised. -/
  | fail
  /-- The transport sends a response. -/
  | flush
  /-- The connection is lost.  The handler, which waits for it, ends before anybody else hears of that. -/
  | lose

inductive AsyncStopEvent
  | call
  | announce (peer : NodeInfo)
  /-- What `stop()` waits for has come about. -/
  | proceed

inductive TaskEvent (V τ : Type)
  /-- The server takes a connection. -/
  | accept
  | sweep (c : Clock τ)
  /-- The `CancelledError` reaches the purge task. -/
  | endPurge
  | gossip (e : GossipTaskEvent V τ)
  | client (h : Nat) (e : ClientEvent V τ)
  | stop (e : AsyncStopEvent)

abbrev TaskRun (V τ : Type) := List (TaskEvent V τ)

variable {V τ : Type}

namespace ClientTask

/-- `cancel()` on the handler, if it is among `_handler_tasks`. -/
def cancel : ClientTask V τ → ClientTask V τ
  | running draining _ unsent => running draining true unsent
  | client => client

/-- The handler has been cancelled and has not ended. -/
def isCancelled : ClientTask V τ → Bool
  | running _ cancelled _ => cancelled
  | _ => false

def isLost : ClientTask V τ → Bool
  | lost => true
  | _ => false

end ClientTask

section Model

variable [LinearOrder τ] [Add τ]

namespace NodeTasks

variable (self : NodeInfo) (s : NodeTasks V τ)

@[inherit_doc NodeThreads.started]
def started (m : Membership) (store : LocalLWWStore V τ) : NodeTasks V τ :=
  ⟨m, store, true, false, .sleeping, true, [], .notCalled⟩

def setAsk (asks : List AskTask) (i : Nat) (peer : NodeInfo) (stage : AskStage) : NodeTasks V τ :=
  { s with gossip := .gathering (asks.set i ⟨peer, stage⟩) }

def setClient (h : Nat) (client : ClientTask V τ) : NodeTasks V τ := { s with clients := s.clients.set h client }

/-- A step of request `i` of the round. -/
def askStep (asks : List AskTask) (i : Nat) (e : GossipTaskEvent V τ) : NodeTasks V τ :=
  match asks[i]?, s.cancelled, e with
  | some ⟨peer, .asking⟩, false, .send _ => s.setAsk asks i peer .awaiting
  | some ⟨peer, .asking⟩, false, .giveUp _ =>
    { s.setAsk asks i peer .ended with membership := s.membership.evict peer }
  | some ⟨peer, .awaiting⟩, false, .giveUp _ =>
    { s.setAsk asks i peer .ended with membership := s.membership.evict peer }
  | some ⟨peer, .awaiting⟩, false, .receive _ resp =>
    { s.setAsk asks i peer .ended with membership := gossipWith self peer (.ok (some resp)) s.membership }
  | some ⟨peer, _⟩, true, .unwind _ => s.setAsk asks i peer .ended
  | _, _, _ => s

/-- A step of the gossip task or of one of its requests. -/
def gossipStep (e : GossipTaskEvent V τ) : NodeTasks V τ :=
  match s.gossip, e with
  | .sleeping, .draw env sample =>
    match s.cancelled, s.membership.discovery.getPeers env with
    | false, some peers =>
      if IsSample sample (candidates self peers) then
        { s with gossip := if sample = [] then .sleeping else .gathering (sample.map (fun peer => ⟨peer, .asking⟩)) }
      else s
    | _, _ => s
  | .sleeping, .cancel => if s.cancelled then { s with gossip := .ended } else s
  | .gathering asks, .send i => s.askStep self asks i e
  | .gathering asks, .giveUp i => s.askStep self asks i e
  | .gathering asks, .receive i _ => s.askStep self asks i e
  | .gathering asks, .unwind i => s.askStep self asks i e
  | .gathering asks, .gathered =>
    if ∀ ask ∈ asks, ask.stage = .ended then { s with gossip := if s.cancelled then .ended else .sleeping } else s
  | _, _ => s

/-- A step of one connection or of its handler. -/
def clientStep (h : Nat) (e : ClientEvent V τ) : NodeTasks V τ :=
  match s.clients[h]?, e with
  | some .created, .begin => s.setClient h (.running false false [])
  | some (.running false false unsent), .serve c msg =>
    match respond self c msg s.membership s.store with
    | .ok (resp, m, store) =>
      { s.setClient h (.running true false (unsent ++ [resp])) with membership := m, store := store }
    | .error _ => s.setClient h (.ended unsent)
  | some (.running true false unsent), .drained => s.setClient h (.running false false unsent)
  | some (.running _ _ unsent), .fail => s.setClient h (.ended unsent)
  | some (.running draining cancelled (_ :: unsent)), .flush => s.setClient h (.running draining cancelled unsent)
  | some (.ended (_ :: unsent)), .flush => s.setClient h (.ended unsent)
  | some (.running _ _ _), .lose => s.setClient h .lost
  | some (.ended _), .lose => s.setClient h .lost
  | _, _ => s

/-- A step of `stop()`. -/
def stopStep (e : AsyncStopEvent) : NodeTasks V τ :=
  match s.stopper, e with
  | .notCalled, .call => { s with stopper := .announcing (s.membership.others self) }
  | .announcing _, .proceed => { s with cancelled := true, stopper := .ending }
  | .ending, .proceed =>
    match s.gossip, s.purging with
    | .ended, false => { s with clients := s.clients.map ClientTask.cancel, stopper := .hangingUp }
    | _, _ => s
  | .hangingUp, .proceed =>
    if ∀ client ∈ s.clients, client.isCancelled = false then { s with serving := false, stopper := .closing } else s
  -- `wait_closed()`, and then `close_all()`
  | .closing, .proceed =>
    if ∀ client ∈ s.clients, client.isLost = true then { s with stopper := .returned } else s
  | _, _ => s

/-- The node after an event; an event that cannot happen changes nothing. -/
def apply : TaskEvent V τ → NodeTasks V τ
  | .accept => if s.serving then { s with clients := s.clients ++ [.created] } else s
  | .sweep c => if s.purging ∧ s.cancelled = false then { s with store := (s.store.purgeExpired c).2 } else s
  | .endPurge => if s.cancelled then { s with purging := false } else s
  | .gossip e => s.gossipStep self e
  | .client h e => s.clientStep self h e
  | .stop e => s.stopStep self e

/-- The event sends a request to a peer. -/
def Sends : TaskEvent V τ → Prop
  | .gossip (.send i) => ∃ asks peer stage, s.gossip = .gathering asks ∧ s.cancelled = false ∧
      asks[i]? = some ⟨peer, stage⟩ ∧ stage ≠ .ended
  | .stop (.announce peer) => ∃ peers, s.stopper = .announcing peers ∧ peer ∈ peers
  | _ => False

/-- The event answers a request on a connection: the handler writes the response, or the transport sends it. -/
def Answers : TaskEvent V τ → Prop
  | .client h (.serve _ _) => ∃ unsent, s.clients[h]? = some (.running false false unsent)
  | .client h .flush => ∃ draining cancelled resp unsent,
      s.clients[h]? = some (.running draining cancelled (resp :: unsent)) ∨
        s.clients[h]? = some (.ended (resp :: unsent))
  | _ => False

/-- The event changes the ring or the store. -/
def Changes (e : TaskEvent V τ) : Prop :=
  (s.apply self e).membership.ring ≠ s.membership.ring ∨ (s.apply self e).store ≠ s.store

def Loud (e : TaskEvent V τ) : Prop := s.Sends e ∨ s.Answers e ∨ s.Changes self e

@[inherit_doc NodeThreads.Silent]
def Silent : Prop := Never (apply self) (Loud self) s

end NodeTasks

/-- The async node after a run from the end of its `start()`. -/
def tasksAfter (self : NodeInfo) (m : Membership) (store : LocalLWWStore V τ) (run : TaskRun V τ) : NodeTasks V τ :=
  after (NodeTasks.apply self) (NodeTasks.started m store) run

end Model

/-! ### What `stop()` leaves behind -/

namespace NodeTasks

variable {self : NodeInfo} {s : NodeTasks V τ}

/-- The background tasks have ended. -/
def Idle (s : NodeTasks V τ) : Prop := s.gossip = .ended ∧ s.purging = false

/-- What `stop()` has brought about at each of its points. -/
def Marked (s : NodeTasks V τ) : Prop :=
  match s.stopper with
  | .hangingUp => s.Idle
  | .closing => s.Idle ∧ s.serving = false
  | .returned => s.Idle ∧ s.serving = false ∧ ∀ client ∈ s.clients, client.isLost = true
  | _ => True

theorem gossipStep_frame (self : NodeInfo) (s : NodeTasks V τ) (e : GossipTaskEvent V τ) :
    ∃ m gossip, s.gossipStep self e = { s with membership := m, gossip := gossip } := by
  have hask : ∀ asks i, ∃ m gossip, s.askStep self asks i e = { s with membership := m, gossip := gossip } := by
    intro asks i
    unfold askStep
    split <;> exact ⟨_, _, rfl⟩
  unfold gossipStep
  split
  · split
    · split <;> exact ⟨_, _, rfl⟩
    · exact ⟨_, _, rfl⟩
  · split <;> exact ⟨_, _, rfl⟩
  · exact hask _ _
  · exact hask _ _
  · exact hask _ _
  · exact hask _ _
  · split <;> exact ⟨_, _, rfl⟩
  · exact ⟨_, _, rfl⟩

/-- A gossip task that has ended takes no step. -/
theorem gossipStep_ended (hs : s.gossip = .ended) (e : GossipTaskEvent V τ) : s.gossipStep self e = s := by
  simp [gossipStep, hs]

/-- A step of `stop()` takes it from one of its points to the next, or changes nothing. -/
theorem stopStep_cases (self : NodeInfo) (s : NodeTasks V τ) (e : AsyncStopEvent) :
    s.stopStep self e = s ∨
      s.stopStep self e = { s with stopper := .announcing (s.membership.others self) } ∨
      s.stopStep self e = { s with cancelled := true, stopper := .ending } ∨
      (s.stopper = .ending ∧ s.Idle ∧
        s.stopStep self e = { s with clients := s.clients.map ClientTask.cancel, stopper := .hangingUp }) ∨
      (s.stopper = .hangingUp ∧ (∀ client ∈ s.clients, client.isCancelled = false) ∧
        s.stopStep self e = { s with serving := false, stopper := .closing }) ∨
      (s.stopper = .closing ∧ (∀ client ∈ s.clients, client.isLost = true) ∧
        s.stopStep self e = { s with stopper := .returned }) := by
  unfold stopStep
  split
  · exact Or.inr (Or.inl rfl)
  · exact Or.inr (Or.inr (Or.inl rfl))
  · rename_i hstage
    split
    · rename_i hgossip hpurging
      exact Or.inr (Or.inr (Or.inr (Or.inl ⟨hstage, ⟨hgossip, hpurging⟩, rfl⟩)))
    · exact Or.inl rfl
  · rename_i hstage
    split
    · rename_i hcancelled
      exact Or.inr (Or.inr (Or.inr (Or.inr (Or.inl ⟨hstage, hcancelled, rfl⟩))))
    · exact Or.inl rfl
  · rename_i hstage
    split
    · rename_i hlost
      exact Or.inr (Or.inr (Or.inr (Or.inr (Or.inr ⟨hstage, hlost, rfl⟩))))
    · exact Or.inl rfl
  · exact Or.inl rfl

/-- `stop()` touches neither the background tasks nor the membership nor the store. -/
theorem stopStep_frame (self : NodeInfo) (s : NodeTasks V τ) (e : AsyncStopEvent) :
    ∃ cancelled serving clients stopper, s.stopStep self e =
      { s with cancelled := cancelled, serving := serving, clients := clients, stopper := stopper } := by
  rcases s.stopStep_cases self e with h | h | h | ⟨-, -, h⟩ | ⟨-, -, h⟩ | ⟨-, -, h⟩ <;> exact ⟨_, _, _, _, h⟩

variable [LinearOrder τ] [Add τ]

theorem clientStep_frame (self : NodeInfo) (s : NodeTasks V τ) (h : Nat) (e : ClientEvent V τ) :
    ∃ m store clients, s.clientStep self h e = { s with membership := m, store := store, clients := clients } := by
  unfold clientStep
  split
  case h_2 => split <;> exact ⟨_, _, _, rfl⟩
  all_goals exact ⟨_, _, _, rfl⟩

/-- Nothing happens on a connection that is lost. -/
theorem clientStep_lost (hs : ∀ client ∈ s.clients, client.isLost = true) (h : Nat) (e : ClientEvent V τ) :
    s.clientStep self h e = s := by
  unfold clientStep
  cases hclient : s.clients[h]? with
  | none => rfl
  | some client =>
    have hlost := hs client (List.mem_of_getElem? hclient)
    cases client with
    | lost => rfl
    | created | running | ended => cases hlost

/-- No background task takes a step once both have ended. -/
theorem Idle.apply (hs : s.Idle) (e : TaskEvent V τ) : (s.apply self e).Idle := by
  obtain ⟨hgossip, hpurging⟩ := hs
  cases e with
  | accept =>
    simp only [NodeTasks.apply]
    split <;> exact ⟨hgossip, hpurging⟩
  | sweep c => simpa [NodeTasks.apply, hpurging] using ⟨hgossip, hpurging⟩
  | endPurge =>
    simp only [NodeTasks.apply]
    split
    · exact ⟨hgossip, rfl⟩
    · exact ⟨hgossip, hpurging⟩
  | gossip e =>
    rw [NodeTasks.apply, gossipStep_ended hgossip]
    exact ⟨hgossip, hpurging⟩
  | client h e =>
    obtain ⟨m, store, clients, heq⟩ := s.clientStep_frame self h e
    rw [NodeTasks.apply, heq]
    exact ⟨hgossip, hpurging⟩
  | stop e =>
    obtain ⟨cancelled, serving, clients, stopper, heq⟩ := s.stopStep_frame self e
    rw [NodeTasks.apply, heq]
    exact ⟨hgossip, hpurging⟩

/-- `stop()` has returned, and nothing is left that could take a step. -/
structure Halted (s : NodeTasks V τ) : Prop where
  returned : s.stopper = .returned
  idle : s.Idle
  closed : s.serving = false
  lost : ∀ client ∈ s.clients, client.isLost = true

namespace Halted

theorem apply_eq (hs : s.Halted) (e : TaskEvent V τ) : s.apply self e = s := by
  obtain ⟨hgossip, hpurging⟩ := hs.idle
  cases e with
  | accept => simp [NodeTasks.apply, hs.closed]
  | sweep c => simp [NodeTasks.apply, hpurging]
  | endPurge =>
    simp only [NodeTasks.apply]
    split
    · rw [← hpurging]
    · rfl
  | gossip e => exact gossipStep_ended hgossip e
  | client h e => exact clientStep_lost hs.lost h e
  | stop e => simp [NodeTasks.apply, stopStep, hs.returned]

theorem silent (hs : s.Halted) : s.Silent self := by
  refine Never.of_invariant hs (fun t e ht => by rw [ht.apply_eq]; exact ht) ?_
  rintro t e ht (hsends | hanswers | hring | hstore)
  · unfold Sends at hsends
    split at hsends
    · obtain ⟨asks, peer, stage, hgossip, -⟩ := hsends
      rw [ht.idle.1] at hgossip
      cases hgossip
    · obtain ⟨peers, hannouncing, -⟩ := hsends
      rw [ht.returned] at hannouncing
      cases hannouncing
    · exact hsends
  · unfold Answers at hanswers
    split at hanswers
    · obtain ⟨unsent, hclient⟩ := hanswers
      cases ht.lost _ (List.mem_of_getElem? hclient)
    · obtain ⟨draining, cancelled, resp, unsent, hclient | hclient⟩ := hanswers <;>
        cases ht.lost _ (List.mem_of_getElem? hclient)
    · exact hanswers
  · rw [ht.apply_eq] at hring
    exact hring rfl
  · rw [ht.apply_eq] at hstore
    exact hstore rfl

end Halted

/-- Only `stop()` closes the server. -/
theorem apply_frame (self : NodeInfo) (s : NodeTasks V τ) {e : TaskEvent V τ} (he : ∀ e', e ≠ .stop e') :
    (s.apply self e).stopper = s.stopper ∧ (s.apply self e).serving = s.serving := by
  cases e with
  | accept =>
    simp only [NodeTasks.apply]
    split <;> exact ⟨rfl, rfl⟩
  | sweep c =>
    simp only [NodeTasks.apply]
    split <;> exact ⟨rfl, rfl⟩
  | endPurge =>
    simp only [NodeTasks.apply]
    split <;> exact ⟨rfl, rfl⟩
  | gossip e =>
    obtain ⟨m, gossip, heq⟩ := s.gossipStep_frame self e
    rw [NodeTasks.apply, heq]
    exact ⟨rfl, rfl⟩
  | client h e =>
    obtain ⟨m, store, clients, heq⟩ := s.clientStep_frame self h e
    rw [NodeTasks.apply, heq]
    exact ⟨rfl, rfl⟩
  | stop e => exact absurd rfl (he e)

namespace Marked

omit [LinearOrder τ] [Add τ] in
theorem stopStep (hs : s.Marked) (e : AsyncStopEvent) : (s.stopStep self e).Marked := by
  rcases s.stopStep_cases self e with h | h | h | ⟨-, hidle, h⟩ | ⟨hstage, -, h⟩ | ⟨hstage, hlost, h⟩
  · rw [h]
    exact hs
  · rw [h]
    trivial
  · rw [h]
    trivial
  · rw [h]
    exact hidle
  · simp only [Marked, hstage] at hs
    rw [h]
    exact ⟨hs, rfl⟩
  · simp only [Marked, hstage] at hs
    rw [h]
    exact ⟨hs.1, hs.2, hlost⟩

omit [LinearOrder τ] [Add τ] in
theorem halted (hs : s.Marked) (hreturned : s.stopper = .returned) : s.Halted := by
  simp only [Marked, hreturned] at hs
  exact ⟨hreturned, hs.1, hs.2.1, hs.2.2⟩

theorem apply (hs : s.Marked) (e : TaskEvent V τ) : (s.apply self e).Marked := by
  by_cases he : ∃ e', e = .stop e'
  · obtain ⟨e', rfl⟩ := he
    exact hs.stopStep e'
  · obtain ⟨hstopper, hserving⟩ := s.apply_frame self (not_exists.1 he)
    cases hstage : s.stopper with
    | returned =>
      rw [(hs.halted hstage).apply_eq]
      exact hs
    | hangingUp =>
      simp only [Marked, hstage] at hs
      simp only [Marked, hstopper, hstage]
      exact hs.apply e
    | closing =>
      simp only [Marked, hstage] at hs
      simp only [Marked, hstopper, hstage, hserving]
      exact ⟨hs.1.apply e, hs.2⟩
    | notCalled | announcing | ending => simp only [Marked, hstopper, hstage]

end Marked

theorem marked_after (m : Membership) (store : LocalLWWStore V τ) (run : TaskRun V τ) :
    (tasksAfter self m store run).Marked :=
  after_keeps (P := Marked) (show (started m store).Marked from trivial) (fun _ e hs => hs.apply e) run

end NodeTasks

section Stop

variable [LinearOrder τ] [Add τ] {self : NodeInfo}

/-- Once `stop()` has returned, the node is silent. -/
theorem tasks_silent (m : Membership) (store : LocalLWWStore V τ) {run : TaskRun V τ}
    (hreturned : (tasksAfter self m store run).stopper = .returned) : (tasksAfter self m store run).Silent self :=
  ((NodeTasks.marked_after m store run).halted hreturned).silent

end Stop

/-- Once `stop()` has returned, an async node is silent, and a blocking node is if and only if it is quiet. -/
theorem stop_silences_iff (V τ : Type) [LinearOrder τ] [Add τ] [Inhabited τ] (self : NodeInfo) (m : Membership)
    (store : LocalLWWStore V τ) :
    (∀ run : ThreadRun V τ, (threadsAfter self m store run).stopper = .returned →
      ((threadsAfter self m store run).Silent self ↔ (threadsAfter self m store run).Quiet self)) ∧
    ∀ run : TaskRun V τ, (tasksAfter self m store run).stopper = .returned →
      (tasksAfter self m store run).Silent self :=
  ⟨fun _ hreturned => silent_iff_quiet m store hreturned, fun _ hreturned => tasks_silent m store hreturned⟩

/-- `stop()` of an async node that is answering a client. -/
def asyncStopRun : TaskRun Nat Int :=
  [.accept, .client 0 .begin, .client 0 (.serve ⟨0, 0⟩ { type := .ping }), .stop .call, .stop .proceed,
    .gossip .cancel, .endPurge, .stop .proceed, .client 0 .fail, .stop .proceed, .client 0 .flush, .client 0 .lose,
    .stop .proceed]

theorem stopped_nodes_silent :
    (threadsAfter (localhost 7001) (staticMembership []) .empty (stopRun.drop 3)).Silent (localhost 7001) ∧
      (tasksAfter (localhost 7001) (staticMembership [localhost 7002]) .empty asyncStopRun).Silent
        (localhost 7001) := by
  constructor
  · have hsync := (stop_silences_iff Nat Int (localhost 7001) (staticMembership []) .empty).1 (stopRun.drop 3)
    exact (hsync stopped_alone_quiet.1).2 stopped_alone_quiet.2
  · have hasync := (stop_silences_iff Nat Int (localhost 7001) (staticMembership [localhost 7002]) .empty).2
    exact hasync asyncStopRun (by decide +kernel)

end DLStorage
