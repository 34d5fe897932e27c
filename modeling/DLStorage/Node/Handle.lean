import DLStorage.ConnectionPool
import DLStorage.Base.Fanout

/-!
# Replica handles

A handle makes a local or a remote replica look the same to the node: four calls, each of which works on the store of
one node and returns or raises.  The blocking and the async classes have the same bodies; a coroutine is the call it
makes when it runs.
-/

namespace DLStorage

open Base (Job fan)

variable {V τ : Type}

/-- A call on a store that returns or raises. -/
abbrev StoreCall (V τ ρ : Type) := LocalLWWStore V τ → Except PyError ρ × LocalLWWStore V τ

/-- A replica handle, with the node whose store it works on. -/
structure ReplicaHandle (V τ : Type) where
  node : NodeInfo
  get : String → StoreCall V τ (PyObj V)
  getVersioned : String → StoreCall V τ (Option (Versioned V))
  set : String → PyObj V → Option τ → Int → StoreCall V τ Bool
  delete : String → Int → StoreCall V τ Bool

/-- The calls of a fan-out, one on the store of each handle's node. -/
abbrev StoreJob (V τ ρ : Type) := Job NodeInfo (LocalLWWStore V τ) PyError ρ

/-- The jobs of one call for each of several nodes, made through the node's handle. -/
theorem jobs_eq_fan {ρ : Type} (call : ReplicaHandle V τ → StoreCall V τ ρ) {act : NodeInfo → ReplicaHandle V τ}
    (hact : ∀ n, (act n).node = n) (nodes : List NodeInfo) :
    (nodes.map act).map (fun h => (⟨h.node, call h⟩ : StoreJob V τ ρ)) = fan (fun n => call (act n)) nodes := by
  unfold fan
  rw [List.map_map]
  apply List.map_congr_left
  intro n _
  show (⟨(act n).node, _⟩ : StoreJob V τ ρ) = _
  rw [hact]

/-- The stores of all nodes. -/
abbrev Stores (V τ : Type) := NodeInfo → LocalLWWStore V τ

/-- The call that reads a versioned answer from a response. -/
def decodeVersioned : Option (Message V τ) → Option (Versioned V)
  | none => none
  | some resp =>
    match resp.type with
    | .ok => some ⟨resp.payload.value.getD none, resp.payload.ts.getD 0, false⟩
    | .notFound =>
      let ts := resp.payload.ts.getD 0
      let isTombstone := resp.payload.tombstone.getD false
      if ts > 0 then some ⟨none, ts, isTombstone⟩ else none
    | _ => none

/-- `resp is not None and resp.type == MessageType.OK`. -/
def isOk : Option (Message V τ) → Bool
  | none => false
  | some resp => resp.type = .ok

/-- The value that `get` returns for a versioned answer. -/
def visible : Option (Versioned V) → PyObj V
  | none => none
  | some r => if r.isTombstone then none else r.value

/-- Apply `f` to the result of a call. -/
def StoreCall.map {ρ ρ' : Type} (f : ρ → ρ') (call : StoreCall V τ ρ) : StoreCall V τ ρ' := fun s =>
  ((call s).1.map f, (call s).2)

def getMessage (key : String) : Message V τ := { type := .get, payload := { key := some key } }

/-- The SET message; its payload has a `ttl` only when there is one. -/
def setMessage (key : String) (value : PyObj V) (ttl : Option τ) (ts : Int) : Message V τ :=
  { type := .set, payload := { key := some key, value := some value, ts := some ts, ttl := ttl } }

def deleteMessage (key : String) (ts : Int) : Message V τ :=
  { type := .delete, payload := { key := some key, ts := some ts } }

variable [LinearOrder τ] [Add τ]

/-- A handle backed by the local store. -/
def localHandle (node : NodeInfo) (c : Clock τ) : ReplicaHandle V τ where
  node := node
  get := fun key s => let (v, s') := s.get c key; (.ok v, s')
  getVersioned := fun key s => let (r, s') := s.getVersioned c key; (.ok r, s')
  set := fun key value ttl ts s => let (b, s') := s.set c key value ttl (some ts); (.ok b, s')
  delete := fun key ts s => let (b, s') := s.delete c key (some ts); (.ok b, s')

/-- A handle backed by a connection pool. -/
def remoteHandle (node : NodeInfo) (c : Clock τ) (pool : Pool V τ) : ReplicaHandle V τ where
  node := node
  get := fun key => StoreCall.map (fun resp => visible (decodeVersioned resp)) (pool node c (getMessage key))
  getVersioned := fun key => StoreCall.map decodeVersioned (pool node c (getMessage key))
  set := fun key value ttl ts => StoreCall.map isOk (pool node c (setMessage key value ttl ts))
  delete := fun key ts => StoreCall.map isOk (pool node c (deleteMessage key ts))

def SyncLocalHandle (node : NodeInfo) (c : Clock τ) : ReplicaHandle V τ := localHandle node c

def SyncRemoteHandle (node : NodeInfo) (c : Clock τ) (pool : Pool V τ) : ReplicaHandle V τ := remoteHandle node c pool

def AsyncLocalHandle (node : NodeInfo) (c : Clock τ) : ReplicaHandle V τ := localHandle node c

def AsyncRemoteHandle (node : NodeInfo) (c : Clock τ) (pool : Pool V τ) : ReplicaHandle V τ := remoteHandle node c pool

end DLStorage
