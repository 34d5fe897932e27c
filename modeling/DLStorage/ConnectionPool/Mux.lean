import DLStorage.ConnectionPool.Queues
import DLStorage.ConnectionPool.Wire

/-!
# The multiplexed pool

`MuxConnectionPool` with any number of calls under way, its selector thread, and calls of `close_all`.  A caller takes a
socket, sends its request, hands the socket over to the selector thread and waits; the selector thread registers the
socket, collects the bytes of the answer as they come, gives the socket back and only then wakes the caller.  An event
is what a thread does from one blocking point or lock to the next.  A wait may end at any time, since it has a timeout.

A socket is closed when `close()` has been called on it.  A peer answers the requests on a socket in order with one
response each, whose bytes arrive at once but are read in chunks of any size.
-/

namespace DLStorage

open Base (Dict after frame ofBigEndian)

structure MuxSocket (V τ : Type) where
  peer : NodeInfo
  isOpen : Bool
  /-- The requests that the peer has not answered, the oldest first. -/
  sent : List (Request V τ)
  /-- The bytes that have not been read. -/
  unread : List UInt8

/-- The body of a response, with the request that it answers. -/
structure Response (V τ : Type) where
  peer : NodeInfo
  request : Request V τ
  body : List UInt8

/-- `_InFlight`. -/
structure InFlight (V τ : Type) where
  address : NodeInfo
  event : Bool
  result : Option (Message V τ)
  buf : List UInt8
  expected : Nat
  hdrDone : Bool

inductive MuxStage (V τ : Type)
  /-- In `_acquire`, without an idle socket. -/
  | connecting
  /-- Before `pickle.dumps`. -/
  | dumping (k : Nat)
  | sending (k : Nat)
  /-- Before `_reg_queue.put`. -/
  | handing (k : Nat)
  /-- In `event.wait`. -/
  | waiting
  | ended (result : Option (Message V τ))
  | raised

namespace MuxStage

variable {V τ : Type}

/-- The socket that the caller holds. -/
def socket : MuxStage V τ → Option Nat
  | dumping k | sending k | handing k => some k
  | connecting | waiting | ended _ | raised => none

def isOver : MuxStage V τ → Bool
  | ended _ | raised => true
  | connecting | dumping _ | sending _ | handing _ | waiting => false

/-- Whether the caller has handed its socket over. -/
def handed : MuxStage V τ → Bool
  | waiting | ended _ => true
  | connecting | dumping _ | sending _ | handing _ | raised => false

end MuxStage

/-- A call of `execute`, with the record that it hands over. -/
structure MuxCall (V τ : Type) where
  peer : NodeInfo
  msg : Message V τ
  stage : MuxStage V τ
  inflight : InFlight V τ

/-- Where the selector thread is. -/
inductive SelectorStage (V τ : Type)
  | polling
  /-- Before `_return`, with the socket unregistered. -/
  | returning (k c : Nat) (msg : Message V τ)
  /-- Before `inflight.result[0] = msg`. -/
  | delivering (c : Nat) (msg : Message V τ)
  /-- The loop has come to its end, or an exception has ended it. -/
  | ended

/-- Where a call of `close_all` is. -/
inductive ClosingStage
  | joining
  /-- Before the idle sockets are closed. -/
  | joined
  | returned
  deriving DecidableEq

structure MuxPool (V τ : Type) where
  /-- `_idle`; the right end of a deque is the end of the list. -/
  idle : Dict NodeInfo (List Nat)
  /-- `_reg_queue`, with the calls that the records belong to. -/
  regQueue : List (Nat × Nat)
  /-- The map of the selector. -/
  registered : List (Nat × Nat)
  sockets : List (MuxSocket V τ)
  calls : List (MuxCall V τ)
  /-- The responses that peers have given. -/
  given : List (Response V τ)
  running : Bool
  /-- Whether the selector is open. -/
  selOpen : Bool
  selector : SelectorStage V τ
  closings : List ClosingStage

inductive MuxEvent (V τ : Type)
  /-- `execute` begins and looks for an idle socket. -/
  | call (peer : NodeInfo) (msg : Message V τ)
  | connect (c : Nat) (accepted : Bool)
  | dump (c : Nat)
  | send (c : Nat) (accepted closeRaises : Bool)
  | handOver (c : Nat)
  /-- `event.wait` of call `c` returns, after the event or a timeout. -/
  | wake (c : Nat)
  /-- The peer of socket `k` answers the oldest request. -/
  | answer (k : Nat) (body : List UInt8)
  | register
  /-- `recv` on socket `k` yields at most `n + 1` bytes. -/
  | read (k n : Nat)
  /-- `recv` on socket `k` raises, or finds the end of the stream. -/
  | lose (k : Nat)
  | giveBack (closeRaises : Bool)
  | deliver
  /-- The loop ends since the pool does not run any more. -/
  | leave
  | closePeer (peer : NodeInfo)
  | closeAll
  /-- `join` of call `i` of `close_all` returns, after the end of the thread or a timeout; the selector is closed. -/
  | join (i : Nat)
  | closeIdle (i : Nat)

abbrev MuxRun (V τ : Type) := List (MuxEvent V τ)

variable {V τ : Type}

namespace InFlight

/-- `_InFlight(address=..., event=threading.Event(), result=[None])`. -/
def new (address : NodeInfo) : InFlight V τ :=
  { address := address, event := false, result := none, buf := [], expected := headerSize, hdrDone := false }

/-- `_handle_read` with a chunk: the record after it and, if the body is complete, what `pickle.loads` makes of it. -/
def feed (p : Pickle V τ) (r : InFlight V τ) (chunk : List UInt8) :
    InFlight V τ × Option (Except WireError (Message V τ)) :=
  let buf := r.buf ++ chunk
  if buf.length < r.expected then ({ r with buf := buf }, none)
  else if r.hdrDone then ({ r with buf := buf }, some (p.loads buf))
  else ({ r with expected := ofBigEndian (buf.take headerSize), buf := [], hdrDone := true }, none)

end InFlight

namespace MuxPool

variable (s : MuxPool V τ)

def empty : MuxPool V τ :=
  { idle := Dict.empty, regQueue := [], registered := [], sockets := [], calls := [], given := [], running := true,
    selOpen := true, selector := .polling, closings := [] }

def setStage (c : Nat) (stage : MuxStage V τ) : MuxPool V τ :=
  { s with calls := s.calls.modify c fun call => { call with stage := stage } }

def setInFlight (c : Nat) (r : InFlight V τ) : MuxPool V τ :=
  { s with calls := s.calls.modify c fun call => { call with inflight := r } }

def setSocket (k : Nat) (f : MuxSocket V τ → MuxSocket V τ) : MuxPool V τ :=
  { s with sockets := s.sockets.modify k f }

/-- `close()`, which closes the socket whether or not it raises. -/
def close (k : Nat) : MuxPool V τ := s.setSocket k fun sock => { sock with isOpen := false }

def isOpen (k : Nat) : Bool := (s.sockets[k]?).any MuxSocket.isOpen

/-- The deque of idle sockets of a peer. -/
def idleAt (peer : NodeInfo) : List Nat := (s.idle.get peer).getD []

def setIdle (peer : NodeInfo) (socks : List Nat) : MuxPool V τ := { s with idle := s.idle.set peer socks }

def setSelector (stage : SelectorStage V τ) : MuxPool V τ := { s with selector := stage }

/-- What `f` does with call `c`. -/
def atCall (c : Nat) (f : MuxCall V τ → MuxPool V τ) : MuxPool V τ :=
  match s.calls[c]? with
  | none => s
  | some call => f call

/-- The pool with a new call. -/
def start (peer : NodeInfo) (msg : Message V τ) (stage : MuxStage V τ) : MuxPool V τ :=
  { s with calls := s.calls ++ [{ peer := peer, msg := msg, stage := stage, inflight := InFlight.new peer }] }

/-- `execute(host, port, msg)` up to the connection, or to the idle socket that `_acquire` pops. -/
def call (peer : NodeInfo) (msg : Message V τ) : MuxPool V τ :=
  match (s.idleAt peer).getLast? with
  | none => s.start peer msg .connecting
  | some k => (s.setIdle peer (s.idleAt peer).dropLast).start peer msg (.dumping k)

/-- The pool with a new connection to `peer`. -/
def accept (peer : NodeInfo) : MuxPool V τ :=
  { s with sockets := s.sockets ++ [{ peer := peer, isOpen := true, sent := [], unread := [] }] }

/-- The rest of `_acquire`, which closes a socket that it cannot connect. -/
def connect (c : Nat) (accepted : Bool) : MuxPool V τ :=
  s.atCall c fun call =>
    match call.stage with
    | .connecting =>
      if accepted then (s.accept call.peer).setStage c (.dumping s.sockets.length) else s.setStage c (.ended none)
    | _ => s

/-- `pickle.dumps` and `to_bytes`, outside the try block. -/
def dump (p : Pickle V τ) (c : Nat) : MuxPool V τ :=
  s.atCall c fun call =>
    match call.stage with
    | .dumping k =>
      match (p.dumps call.msg).bind fun data => toBytes data.length with
      | .ok _ => s.setStage c (.sending k)
      | .error _ => s.setStage c .raised
    | _ => s

/-- `sock.sendall`. -/
def send (c : Nat) (accepted closeRaises : Bool) : MuxPool V τ :=
  s.atCall c fun call =>
    match call.stage with
    | .sending k =>
      if accepted then
        (s.setSocket k fun sock => { sock with sent := sock.sent ++ [⟨c, call.msg⟩] }).setStage c (.handing k)
      else (s.close k).setStage c (if closeRaises then .raised else .ended none)
    | _ => s

def enqueue (k c : Nat) : MuxPool V τ := { s with regQueue := s.regQueue ++ [(k, c)] }

/-- `_reg_queue.put((sock, inflight))`. -/
def handOver (c : Nat) : MuxPool V τ :=
  s.atCall c fun call =>
    match call.stage with
    | .handing k => (s.enqueue k c).setStage c .waiting
    | _ => s

/-- `return inflight.result[0]`. -/
def wake (c : Nat) : MuxPool V τ :=
  s.atCall c fun call =>
    match call.stage with
    | .waiting => s.setStage c (.ended call.inflight.result)
    | _ => s

/-- A peer cannot send a body whose length does not fit into the header. -/
def answer (k : Nat) (body : List UInt8) : MuxPool V τ :=
  match s.sockets[k]? with
  | none => s
  | some sock =>
    match sock.sent with
    | [] => s
    | request :: rest =>
      if body.length < 256 ^ headerSize then
        { s.setSocket k fun sock => { sock with sent := rest, unread := sock.unread ++ frame headerSize body } with
          given := s.given ++ [⟨sock.peer, request, body⟩] }
      else s

/-- `_reg_queue.get_nowait()` and `sel.register`, which raises when the selector is closed. -/
def register : MuxPool V τ :=
  match s.selector, s.regQueue with
  | .polling, entry :: rest =>
    if s.selOpen then { s with regQueue := rest, registered := s.registered ++ [entry] }
    else { s with regQueue := rest }.setSelector .ended
  | _, _ => s

def unregister (k : Nat) : MuxPool V τ := { s with registered := s.registered.filter fun entry => entry.1 ≠ k }

/-- `_fail(sock, inflight)`. -/
def fail (k c : Nat) : MuxPool V τ :=
  s.atCall c fun call => ((s.unregister k).close k).setInFlight c { call.inflight with event := true }

/-- What `f` does with a registered socket and its call. -/
def atRegistered (k : Nat) (f : Nat → MuxSocket V τ → MuxCall V τ → MuxPool V τ) : MuxPool V τ :=
  match s.selector, s.registered.find? (fun entry => entry.1 = k) with
  | .polling, some entry =>
    match s.sockets[k]?, s.calls[entry.2]? with
    | some sock, some call => f entry.2 sock call
    | _, _ => s
  | _, _ => s

/-- The end of `_handle_read(sock, inflight)`, up to `_return`; `unregister` raises when the selector is closed. -/
def settle (k c : Nat) : Option (Except WireError (Message V τ)) → MuxPool V τ
  | none => s
  | some (.error _) => s.fail k c
  | some (.ok msg) => if s.selOpen then (s.unregister k).setSelector (.returning k c msg) else s.setSelector .ended

/-- `_handle_read(sock, inflight)`. -/
def read (p : Pickle V τ) (k n : Nat) : MuxPool V τ :=
  s.atRegistered k fun c sock call =>
    let need := call.inflight.expected - call.inflight.buf.length
    let chunk := sock.unread.take (min (n + 1) need)
    -- `recv(0)` looks like the end of the stream
    if need = 0 then s.fail k c
    -- `BlockingIOError`
    else if chunk = [] then s
    else
      let fed := call.inflight.feed p chunk
      ((s.setSocket k fun sock => { sock with unread := sock.unread.drop chunk.length }).setInFlight c fed.1).settle k c
        fed.2

/-- `_handle_read(sock, inflight)` after a failed `recv`. -/
def lose (k : Nat) : MuxPool V τ := s.atRegistered k fun c _ _ => s.fail k c

/-- `_return(address, sock)`. -/
def giveBack (max : Int) (closeRaises : Bool) : MuxPool V τ :=
  match s.selector with
  | .returning k c msg =>
    s.atCall c fun call =>
      let address := call.inflight.address
      if (s.idleAt address).length < max then
        (s.setIdle address (k :: s.idleAt address)).setSelector (.delivering c msg)
      else
        -- what `close()` raises ends the thread
        ((s.setIdle address (s.idleAt address)).close k).setSelector (if closeRaises then .ended else .delivering c msg)
  | _ => s

/-- `inflight.result[0] = msg` and `inflight.event.set()`. -/
def deliver : MuxPool V τ :=
  match s.selector with
  | .delivering c msg =>
    s.atCall c fun call =>
      (s.setInFlight c { call.inflight with result := some msg, event := true }).setSelector .polling
  | _ => s

/-- Wake the callers whose sockets are registered. -/
def signalRegistered : MuxPool V τ :=
  { s with
    calls := s.calls.mapIdx fun c call =>
      if s.registered.any (fun entry => entry.2 = c) then { call with inflight := { call.inflight with event := true } }
      else call }

/-- The end of `_io_loop`; the map of a closed selector is `None`. -/
def leave : MuxPool V τ :=
  match s.selector, s.running with
  | .polling, false => if s.selOpen then s.signalRegistered.setSelector .ended else s.setSelector .ended
  | _, _ => s

/-- The pool with every socket of a list closed. -/
def closeEach (socks : List Nat) : MuxPool V τ := socks.foldl close s

def closePeer (peer : NodeInfo) : MuxPool V τ :=
  { s with idle := s.idle.del peer }.closeEach (s.idleAt peer)

/-- `close_all()` up to `join`. -/
def closeAll : MuxPool V τ := { s with running := false, closings := s.closings ++ [.joining] }

def join (i : Nat) : MuxPool V τ :=
  if s.closings[i]? = some .joining then { s with selOpen := false, closings := s.closings.set i .joined } else s

/-- The rest of `close_all()`. -/
def closeIdle (i : Nat) : MuxPool V τ :=
  if s.closings[i]? = some .joined then
    { s with idle := Dict.empty, closings := s.closings.set i .returned }.closeEach (s.idle.items.map Prod.snd).flatten
  else s

end MuxPool

/-- The pool after an event; an event that is out of place changes nothing. -/
def MuxPool.apply (p : Pickle V τ) (max : Int) (s : MuxPool V τ) : MuxEvent V τ → MuxPool V τ
  | .call peer msg => s.call peer msg
  | .connect c accepted => s.connect c accepted
  | .dump c => s.dump p c
  | .send c accepted closeRaises => s.send c accepted closeRaises
  | .handOver c => s.handOver c
  | .wake c => s.wake c
  | .answer k body => s.answer k body
  | .register => s.register
  | .read k n => s.read p k n
  | .lose k => s.lose k
  | .giveBack closeRaises => s.giveBack max closeRaises
  | .deliver => s.deliver
  | .leave => s.leave
  | .closePeer peer => s.closePeer peer
  | .closeAll => s.closeAll
  | .join i => s.join i
  | .closeIdle i => s.closeIdle i

/-- The pool after a run. -/
def muxAfter (p : Pickle V τ) (max : Int) (run : MuxRun V τ) : MuxPool V τ :=
  after (MuxPool.apply p max) MuxPool.empty run

end DLStorage
