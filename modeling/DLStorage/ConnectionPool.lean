import DLStorage.Dispatcher

/-!
# One call of a connection pool

What `execute(host, port, msg)` gives its caller and what it leaves in the store of the peer.  `networkPool` is a pool
described by its outcomes alone; `MuxConnectionPool.execute` and `AsyncConnectionPool.execute` follow the two default
pools through one call: which connection is taken, where the message is pickled, what is caught and when the request
is sent again.
-/

namespace DLStorage

/-- `execute` of a pool, for the peer with the given clock readings and store. -/
abbrev Pool (V τ : Type) :=
  NodeInfo → Clock τ → Message V τ → LocalLWWStore V τ → Except PyError (Option (Message V τ)) × LocalLWWStore V τ

/-- What a call to a peer comes to: the peer executes the request and its response is returned, the call returns
`None`, or it raises. -/
inductive Link
  | answers
  | silent
  | raises (e : PyError)
  deriving DecidableEq

/-- What a request comes to on one connection: answered; failed before the peer received it; executed by the peer, but
the answer is not read; or failed in such a way that closing the connection raises as well. -/
inductive Exchange
  | answered
  | unsent
  | unanswered
  | closeRaises
  deriving DecidableEq

/-- What a call finds for its peer: an idle connection that is not closing, if the pool has one, and a new one, if the
peer accepts it. -/
structure Peer where
  idle : Option Exchange
  fresh : Option Exchange
  deriving DecidableEq

variable {V τ : Type} [LinearOrder τ] [Add τ]

/-- The pool that returns or raises as `link` says. -/
def networkPool (link : NodeInfo → Link) : Pool V τ := fun node c msg s =>
  match link node with
  | .answers => let (resp, s') := transact c msg s; (.ok resp, s')
  | .silent => (.ok none, s)
  | .raises e => (.error e, s)

/-- The connection that `_acquire` hands out. -/
def Peer.acquire (p : Peer) : Option Exchange := p.idle <|> p.fresh

/-- `MuxConnectionPool.execute`; `picklable` tells which messages `pickle.dumps` turns into fewer than `2^32` bytes. -/
def MuxConnectionPool.execute (picklable : Message V τ → Bool) (p : Peer) (c : Clock τ) (msg : Message V τ)
    (s : LocalLWWStore V τ) : Except PyError (Option (Message V τ)) × LocalLWWStore V τ :=
  match p.acquire with
  | none => (.ok none, s)
  | some exchange =>
    -- the message is pickled outside the try block
    if !picklable msg then (.error .pickling, s)
    else
      match exchange with
      | .answered => let (resp, s') := transact c msg s; (.ok resp, s')
      | .unsent => (.ok none, s)
      | .unanswered => (.ok none, (transact c msg s).2)
      | .closeRaises => (.error .os, s)

/-- One try block of `AsyncConnectionPool.execute`, with its handler; `none` means that it failed and closed its
connection. -/
def AsyncConnectionPool.attempt (picklable : Message V τ → Bool) (exchange : Exchange) (c : Clock τ)
    (msg : Message V τ) (s : LocalLWWStore V τ) : Except PyError (Option (Message V τ)) × LocalLWWStore V τ :=
  match exchange with
  | .closeRaises => (.error .os, s)
  | .unsent => (.ok none, s)
  | .unanswered => if !picklable msg then (.ok none, s) else (.ok none, (transact c msg s).2)
  | .answered => if !picklable msg then (.ok none, s) else let (resp, s') := transact c msg s; (.ok resp, s')

def AsyncConnectionPool.execute (picklable : Message V τ → Bool) (p : Peer) (c : Clock τ) (msg : Message V τ)
    (s : LocalLWWStore V τ) : Except PyError (Option (Message V τ)) × LocalLWWStore V τ :=
  match p.idle, p.fresh with
  | none, none => (.ok none, s)
  | none, some fresh => attempt picklable fresh c msg s
  | some idle, fresh =>
    match attempt picklable idle c msg s, fresh with
    | (.ok none, s'), none => (.ok none, s')
    -- pooled connection was stale, so retry once fresh
    | (.ok none, s'), some fresh => attempt picklable fresh c msg s'
    | result, _ => result

/-- The multiplexed pool of a blocking node. -/
def muxPool (picklable : Message V τ → Bool) (peer : NodeInfo → Peer) : Pool V τ := fun node =>
  MuxConnectionPool.execute picklable (peer node)

/-- The pool of an async node. -/
def asyncPool (picklable : Message V τ → Bool) (peer : NodeInfo → Peer) : Pool V τ := fun node =>
  AsyncConnectionPool.execute picklable (peer node)

end DLStorage
