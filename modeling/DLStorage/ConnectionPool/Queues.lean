import DLStorage.Base.Dict
import DLStorage.Base.Run
import DLStorage.Base.Slots
import DLStorage.Types

/-!
# The queue pools

`ConnectionPool` and `AsyncConnectionPool` with any number of calls under way.  A call of `execute` is cut at its
blocking points and awaits, and so are its two attempts; `close_peer` and `close_all` have none and are one event each.
A connection carries whole messages, and its peer answers the requests on it in order with one response each.

Queues, connections and calls are numbered as they come into being, and a call keeps the number of the queue that it
looked up, whatever becomes of the table.  The table is keyed by the peer, which its address identifies
(`address_injective`).
-/

namespace DLStorage

open Base (Dict after)

inductive PoolKind
  | blocking
  | async
  deriving DecidableEq

/-- What a call puts on a connection. -/
structure Request (V τ : Type) where
  call : Nat
  msg : Message V τ

/-- What a peer sends in response to a request; the response may be `None`. -/
structure Answer (V τ : Type) where
  peer : NodeInfo
  request : Request V τ
  response : Option (Message V τ)

structure Connection (V τ : Type) where
  peer : NodeInfo
  isOpen : Bool
  /-- The requests that the peer has not answered, the oldest first. -/
  sent : List (Request V τ)
  /-- The answers that have not been read, the oldest first. -/
  inbox : List (Answer V τ)

/-- The requests whose answer has not been read. -/
def Connection.outstanding {V τ : Type} (conn : Connection V τ) : List (Request V τ) :=
  conn.inbox.map Answer.request ++ conn.sent

/-- A `LifoQueue` of idle connections, the top first. -/
structure IdleQueue where
  peer : NodeInfo
  conns : List Nat

/-- Where a call of `execute` is. -/
inductive CallStage (V τ : Type)
  /-- Before `get_nowait()`. -/
  | taking
  /-- In `_new_connection`. -/
  | connecting
  | sending (k : Nat) (reused : Bool)
  | awaiting (k : Nat) (reused : Bool)
  /-- Before `put_nowait()`. -/
  | returning (k : Nat) (reused : Bool) (answer : Answer V τ)
  | ended (result : Option (Answer V τ))
  | raised

namespace CallStage

variable {V τ : Type}

/-- The connection that the call holds. -/
def conn : CallStage V τ → Option Nat
  | sending k _ | awaiting k _ | returning k _ _ => some k
  | taking | connecting | ended _ | raised => none

/-- The answer that the call has read. -/
def answer : CallStage V τ → Option (Answer V τ)
  | returning _ _ a => some a
  | ended result => result
  | taking | connecting | sending _ _ | awaiting _ _ | raised => none

def isOver : CallStage V τ → Bool
  | ended _ | raised => true
  | taking | connecting | sending _ _ | awaiting _ _ | returning _ _ _ => false

/-- A call that is over holds no connection. -/
theorem conn_of_isOver {stage : CallStage V τ} (h : stage.isOver = true) : stage.conn = none := by
  cases stage with
  | taking | connecting | ended | raised => rfl
  | sending | awaiting | returning => cases h

end CallStage

/-- A call of `execute`, with the queue that it has looked up. -/
structure PoolCall (V τ : Type) where
  peer : NodeInfo
  msg : Message V τ
  queue : Nat
  stage : CallStage V τ

/-- The request of call `c` as far as it is on a connection. -/
def PoolCall.pending {V τ : Type} (call : PoolCall V τ) (c : Nat) : List (Request V τ) :=
  match call.stage with
  | .awaiting _ _ => [⟨c, call.msg⟩]
  | _ => []

structure QueuePool (V τ : Type) where
  /-- `_queues`. -/
  table : Dict NodeInfo Nat
  queues : List IdleQueue
  conns : List (Connection V τ)
  calls : List (PoolCall V τ)

inductive PoolEvent (V τ : Type)
  /-- `execute` begins, up to `_queue(address)`. -/
  | call (peer : NodeInfo) (msg : Message V τ)
  | take (c : Nat)
  | connect (c : Nat) (accepted : Bool)
  | send (c : Nat)
  | receive (c : Nat)
  /-- The sending or receiving of call `c` raises an `Exception`, as it does after a timeout. -/
  | fail (c : Nat) (closeRaises : Bool)
  | put (c : Nat) (closeRaises closeRaisesAgain : Bool)
  /-- A `CancelledError` at an await of call `c`. -/
  | cancel (c : Nat)
  /-- The peer of connection `k` answers the oldest request. -/
  | answer (k : Nat) (response : Option (Message V τ))
  /-- The transport of connection `k` in an async pool closes itself. -/
  | lose (k : Nat)
  | closePeer (peer : NodeInfo) (raises : Nat → Bool)
  | closeAll (raises : Nat → Bool)

abbrev PoolRun (V τ : Type) := List (PoolEvent V τ)

variable {V τ : Type}

namespace QueuePool

variable (s : QueuePool V τ)

def empty : QueuePool V τ := ⟨Dict.empty, [], [], []⟩

def setStage (c : Nat) (stage : CallStage V τ) : QueuePool V τ :=
  { s with calls := s.calls.modify c fun call => { call with stage := stage } }

def setIdle (q : Nat) (conns : List Nat) : QueuePool V τ :=
  { s with queues := s.queues.modify q fun queue => { queue with conns := conns } }

def setConn (k : Nat) (f : Connection V τ → Connection V τ) : QueuePool V τ :=
  { s with conns := s.conns.modify k f }

/-- `close()`, which closes the connection whether or not it raises. -/
def close (k : Nat) : QueuePool V τ := s.setConn k fun conn => { conn with isOpen := false }

def isOpen (k : Nat) : Bool := (s.conns[k]?).any Connection.isOpen

/-- The connections in queue `q`. -/
def idle (q : Nat) : List Nat := (s.queues[q]?.map IdleQueue.conns).getD []

/-- `_queue(address)`. -/
def queue (peer : NodeInfo) : Nat × QueuePool V τ :=
  match s.table.get peer with
  | some q => (q, s)
  | none =>
    (s.queues.length, { s with table := s.table.set peer s.queues.length, queues := s.queues ++ [⟨peer, []⟩] })

/-- `execute(host, port, msg)` up to its queue. -/
def call (peer : NodeInfo) (msg : Message V τ) : QueuePool V τ :=
  let (q, s) := s.queue peer
  { s with calls := s.calls ++ [⟨peer, msg, q, .taking⟩] }

/-- What `f` does with call `c`. -/
def atCall (c : Nat) (f : PoolCall V τ → QueuePool V τ) : QueuePool V τ :=
  match s.calls[c]? with
  | none => s
  | some call => f call

/-- The connections in queue `q` without those that an async pool discards because they are closing. -/
def usable (kind : PoolKind) (q : Nat) : List Nat :=
  match kind with
  | .blocking => s.idle q
  | .async => (s.idle q).dropWhile fun k => !s.isOpen k

/-- The loop with `get_nowait()`. -/
def take (kind : PoolKind) (c : Nat) : QueuePool V τ :=
  s.atCall c fun call =>
    match call.stage with
    | .taking =>
      match s.usable kind call.queue with
      | [] => (s.setIdle call.queue []).setStage c .connecting
      | k :: rest => (s.setIdle call.queue rest).setStage c (.sending k true)
    | _ => s

/-- The pool with a new connection to `peer`. -/
def accept (peer : NodeInfo) : QueuePool V τ :=
  { s with conns := s.conns ++ [{ peer := peer, isOpen := true, sent := [], inbox := [] }] }

/-- `_new_connection(host, port)`. -/
def connect (c : Nat) (accepted : Bool) : QueuePool V τ :=
  s.atCall c fun call =>
    match call.stage with
    | .connecting =>
      if accepted then
        (s.accept call.peer).setStage c (.sending s.conns.length false)
      else s.setStage c (.ended none)
    | _ => s

/-- `send_message(sock, msg)`. -/
def send (c : Nat) : QueuePool V τ :=
  s.atCall c fun call =>
    match call.stage with
    | .sending k reused =>
      (s.setConn k fun conn => { conn with sent := conn.sent ++ [⟨c, call.msg⟩] }).setStage c (.awaiting k reused)
    | _ => s

/-- `recv_message(sock)`, once there is a message. -/
def receive (c : Nat) : QueuePool V τ :=
  s.atCall c fun call =>
    match call.stage with
    | .awaiting k reused =>
      match (s.conns[k]?.map Connection.inbox).getD [] with
      | [] => s
      | answer :: rest =>
        (s.setConn k fun conn => { conn with inbox := rest }).setStage c (.returning k reused answer)
    | _ => s

/-- The handler of an attempt on connection `k`: only the blocking pool catches what `close()` raises. -/
def abandon (kind : PoolKind) (c k : Nat) (reused closeRaises : Bool) : QueuePool V τ :=
  (s.close k).setStage c
    (if kind = .async ∧ closeRaises = true then .raised
    -- pooled connection was stale, so retry once fresh
    else if reused then .connecting
    else .ended none)

def fail (kind : PoolKind) (c : Nat) (closeRaises : Bool) : QueuePool V τ :=
  s.atCall c fun call =>
    match call.stage with
    | .sending k reused | .awaiting k reused => s.abandon kind c k reused closeRaises
    | _ => s

/-- Whether `put_nowait()` on a queue of `n` connections raises. -/
def full (max : Int) (n : Nat) : Bool := 0 < max && max ≤ n

/-- `put_nowait()` and what follows it. -/
def put (kind : PoolKind) (max : Int) (c : Nat) (closeRaises closeRaisesAgain : Bool) : QueuePool V τ :=
  s.atCall c fun call =>
    match call.stage with
    | .returning k reused answer =>
      if kind = .async ∧ s.isOpen k = false then s.setStage c (.ended (some answer))
      else if full max (s.idle call.queue).length then
        -- what `close()` raises is caught as a failure of the attempt
        if closeRaises then s.abandon kind c k reused closeRaisesAgain
        else (s.close k).setStage c (.ended (some answer))
      else (s.setStage c (.ended (some answer))).setIdle call.queue (k :: s.idle call.queue)
    | _ => s

/-- No handler catches a cancellation, so the connection is neither closed nor put back. -/
def cancel (kind : PoolKind) (c : Nat) : QueuePool V τ :=
  s.atCall c fun call =>
    match kind, call.stage with
    | .async, .connecting | .async, .sending _ _ | .async, .awaiting _ _ => s.setStage c .raised
    | _, _ => s

def answer (k : Nat) (response : Option (Message V τ)) : QueuePool V τ :=
  s.setConn k fun conn =>
    match conn.sent with
    | [] => conn
    | request :: rest => { conn with sent := rest, inbox := conn.inbox ++ [⟨conn.peer, request, response⟩] }

def lose (kind : PoolKind) (k : Nat) : QueuePool V τ :=
  match kind with
  | .blocking => s
  | .async => s.close k

/-- The loop that closes what is in queue `q`, with whether a `close()` raised, which ends it. -/
def drain (raises : Nat → Bool) (q : Nat) : List Nat → QueuePool V τ → Bool × QueuePool V τ
  | [], s => (false, s)
  | k :: rest, s =>
    let s := (s.setIdle q rest).close k
    if raises k then (true, s) else drain raises q rest s

def closePeer (peer : NodeInfo) (raises : Nat → Bool) : QueuePool V τ :=
  match s.table.get peer with
  | none => s
  | some q => (drain raises q (s.idle q) { s with table := s.table.del peer }).2

/-- The loop of `close_all` over the queues of the table, with whether it raised. -/
def drainAll (kind : PoolKind) (raises : Nat → Bool) : List Nat → QueuePool V τ → Bool × QueuePool V τ
  | [], s => (false, { s with table := Dict.empty })
  | q :: rest, s =>
    let (raised, s) := drain raises q (s.idle q) s
    if kind = .async ∧ raised = true then (true, s) else drainAll kind raises rest s

/-- `close_all()`, with whether it raised. -/
def closeAll (kind : PoolKind) (raises : Nat → Bool) : Bool × QueuePool V τ :=
  drainAll kind raises (s.table.items.map Prod.snd) s

end QueuePool

/-- The pool after an event; an event that is out of place changes nothing. -/
def QueuePool.apply (kind : PoolKind) (max : Int) (s : QueuePool V τ) : PoolEvent V τ → QueuePool V τ
  | .call peer msg => s.call peer msg
  | .take c => s.take kind c
  | .connect c accepted => s.connect c accepted
  | .send c => s.send c
  | .receive c => s.receive c
  | .fail c closeRaises => s.fail kind c closeRaises
  | .put c closeRaises closeRaisesAgain => s.put kind max c closeRaises closeRaisesAgain
  | .cancel c => s.cancel kind c
  | .answer k response => s.answer k response
  | .lose k => s.lose kind k
  | .closePeer peer raises => s.closePeer peer raises
  | .closeAll raises => (s.closeAll kind raises).2

/-- The pool after a run. -/
def poolAfter (kind : PoolKind) (max : Int) (run : PoolRun V τ) : QueuePool V τ :=
  after (QueuePool.apply kind max) QueuePool.empty run

namespace QueuePool

/-- Where a connection can be. -/
inductive Place
  | idle (q : Nat)
  | held (c : Nat)

variable (s : QueuePool V τ)

def lies (k : Nat) : Place → Prop
  | .idle q => ∃ queue, s.queues[q]? = some queue ∧ k ∈ queue.conns
  | .held c => ∃ call, s.calls[c]? = some call ∧ call.stage.conn = some k

variable {s}

/-! ### The operations that events are made of -/

section Setters

variable {c c' k k' q q' : Nat} {stage : CallStage V τ} {l : List Nat} {f : Connection V τ → Connection V τ}

theorem getElem?_setStage {call : PoolCall V τ} (h : (s.setStage c stage).calls[c']? = some call) :
    ∃ old, s.calls[c']? = some old ∧ (c' = c ∧ call = { old with stage := stage } ∨ c' ≠ c ∧ call = old) :=
  Base.getElem?_modify_some h

theorem getElem?_setIdle {queue : IdleQueue} (h : (s.setIdle q l).queues[q']? = some queue) :
    ∃ old, s.queues[q']? = some old ∧ (q' = q ∧ queue = { old with conns := l } ∨ q' ≠ q ∧ queue = old) :=
  Base.getElem?_modify_some h

theorem getElem?_setConn {conn : Connection V τ} (h : (s.setConn k f).conns[k']? = some conn) :
    ∃ old, s.conns[k']? = some old ∧ (k' = k ∧ conn = f old ∨ k' ≠ k ∧ conn = old) :=
  Base.getElem?_modify_some h

/-- A queue keeps its peer. -/
theorem exists_setIdle {peer : NodeInfo} (h : ∃ queue, s.queues[q']? = some queue ∧ queue.peer = peer) :
    ∃ queue, (s.setIdle q l).queues[q']? = some queue ∧ queue.peer = peer := by
  obtain ⟨queue, hq, hpeer⟩ := h
  by_cases hqq : q' = q
  · subst hqq
    exact ⟨_, Base.getElem?_modify_of_some hq, hpeer⟩
  · exact ⟨queue, (List.getElem?_modify_ne _ _ (Ne.symm hqq)).trans hq, hpeer⟩

theorem lies_setStage {p : Place} (h : (s.setStage c stage).lies k p) :
    p = .held c ∧ stage.conn = some k ∨ p ≠ .held c ∧ s.lies k p := by
  cases p with
  | idle q => exact Or.inr ⟨nofun, h⟩
  | held c' =>
    obtain ⟨call, hcall, hk⟩ := h
    obtain ⟨old, hold, ⟨rfl, rfl⟩ | ⟨hc, rfl⟩⟩ := getElem?_setStage hcall
    · exact Or.inl ⟨rfl, hk⟩
    · exact Or.inr ⟨fun h => hc (Place.held.inj h), call, hold, hk⟩

theorem lies_setIdle {p : Place} (h : (s.setIdle q l).lies k p) :
    p = .idle q ∧ k ∈ l ∨ p ≠ .idle q ∧ s.lies k p := by
  cases p with
  | held c => exact Or.inr ⟨nofun, h⟩
  | idle q' =>
    obtain ⟨queue, hqueue, hk⟩ := h
    obtain ⟨old, hold, ⟨rfl, rfl⟩ | ⟨hq, rfl⟩⟩ := getElem?_setIdle hqueue
    · exact Or.inl ⟨rfl, hk⟩
    · exact Or.inr ⟨fun h => hq (Place.idle.inj h), queue, hold, hk⟩

end Setters

/-- A queue that is not empty is in its place. -/
theorem idle_setIdle {q k : Nat} (h : k ∈ s.idle q) (l : List Nat) : (s.setIdle q l).idle q = l := by
  unfold idle at h
  cases hq : s.queues[q]? with
  | none =>
    rw [hq] at h
    cases h
  | some queue =>
    show (((s.setIdle q l).queues[q]?).map IdleQueue.conns).getD [] = l
    have hset : (s.setIdle q l).queues[q]? = _ := Base.getElem?_modify_of_some hq
    rw [hset]
    rfl

theorem atCall_of {P : QueuePool V τ → Prop} {c : Nat} {f : PoolCall V τ → QueuePool V τ} (hs : P s)
    (hcall : ∀ call, s.calls[c]? = some call → P (f call)) : P (s.atCall c f) := by
  unfold atCall
  split
  · exact hs
  · rename_i call h
    exact hcall call h

theorem usable_sublist (kind : PoolKind) (q : Nat) : (s.usable kind q).Sublist (s.idle q) := by
  cases kind with
  | blocking => exact List.Sublist.refl _
  | async => exact List.dropWhile_sublist _

/-- `drain` changes queues and connections only. -/
theorem drain_frame (raises : Nat → Bool) (q : Nat) (l : List Nat) (s : QueuePool V τ) :
    (drain raises q l s).2.table = s.table ∧ (drain raises q l s).2.calls = s.calls := by
  induction l generalizing s with
  | nil => exact ⟨rfl, rfl⟩
  | cons k rest ih =>
    unfold drain
    simp only
    split
    · exact ⟨rfl, rfl⟩
    · exact ih ((s.setIdle q rest).close k)

/-! ### What the steps of one call leave alone -/

/-- A step of call `c` neither touches the table nor another call. -/
structure OwnStep (c : Nat) (s s' : QueuePool V τ) : Prop where
  table : s'.table = s.table
  calls : ∀ c', c' ≠ c → s'.calls[c']? = s.calls[c']?

namespace OwnStep

variable {c : Nat} {s' : QueuePool V τ}

theorem refl (c : Nat) (s : QueuePool V τ) : OwnStep c s s := ⟨rfl, fun _ _ => rfl⟩

theorem setStage (h : OwnStep c s s') (stage : CallStage V τ) : OwnStep c s (s'.setStage c stage) where
  table := h.table
  calls c' hne := (List.getElem?_modify_ne _ _ (Ne.symm hne)).trans (h.calls c' hne)

theorem setIdle (h : OwnStep c s s') (q : Nat) (l : List Nat) : OwnStep c s (s'.setIdle q l) := ⟨h.table, h.calls⟩

theorem setConn (h : OwnStep c s s') (k : Nat) (f : Connection V τ → Connection V τ) : OwnStep c s (s'.setConn k f) :=
  ⟨h.table, h.calls⟩

theorem accept (h : OwnStep c s s') (peer : NodeInfo) : OwnStep c s (s'.accept peer) := ⟨h.table, h.calls⟩

variable (s c)

theorem take (kind : PoolKind) : OwnStep c s (s.take kind c) := by
  refine atCall_of (refl c s) fun call _ => ?_
  split
  · split
    · exact ((refl c s).setIdle _ _).setStage _
    · exact ((refl c s).setIdle _ _).setStage _
  · exact refl c s

theorem connect (accepted : Bool) : OwnStep c s (s.connect c accepted) := by
  refine atCall_of (refl c s) fun call _ => ?_
  split
  · split
    · exact ((refl c s).accept _).setStage _
    · exact (refl c s).setStage _
  · exact refl c s

theorem send : OwnStep c s (s.send c) := by
  refine atCall_of (refl c s) fun call _ => ?_
  split
  · exact ((refl c s).setConn _ _).setStage _
  · exact refl c s

theorem receive : OwnStep c s (s.receive c) := by
  refine atCall_of (refl c s) fun call _ => ?_
  split
  · split
    · exact refl c s
    · exact ((refl c s).setConn _ _).setStage _
  · exact refl c s

theorem abandon (kind : PoolKind) (k : Nat) (reused closeRaises : Bool) :
    OwnStep c s (s.abandon kind c k reused closeRaises) :=
  ((refl c s).setConn k _).setStage _

theorem fail (kind : PoolKind) (closeRaises : Bool) : OwnStep c s (s.fail kind c closeRaises) := by
  refine atCall_of (refl c s) fun call _ => ?_
  split
  · exact abandon s c _ _ _ _
  · exact abandon s c _ _ _ _
  · exact refl c s

theorem put (kind : PoolKind) (max : Int) (closeRaises closeRaisesAgain : Bool) :
    OwnStep c s (s.put kind max c closeRaises closeRaisesAgain) := by
  refine atCall_of (refl c s) fun call _ => ?_
  split
  · split
    · exact (refl c s).setStage _
    · split
      · split
        · exact abandon s c _ _ _ _
        · exact ((refl c s).setConn _ _).setStage _
      · exact ((refl c s).setStage _).setIdle _ _
  · exact refl c s

theorem cancel (kind : PoolKind) : OwnStep c s (s.cancel kind c) := by
  refine atCall_of (refl c s) fun call _ => ?_
  split
  · exact (refl c s).setStage _
  · exact (refl c s).setStage _
  · exact (refl c s).setStage _
  · exact refl c s

end OwnStep

end QueuePool

end DLStorage
