import DLStorage.Node.Sync

/-!
# The async node

The store API of `AsyncStorageNode`.  It differs from the blocking node in the fan-out: the handles work concurrently,
in an order that the event loop chooses (`sched`), and an exception is an outcome like any other.  So a call never
raises.
-/

namespace DLStorage

open Base (Schedule gather)

/-- The fields of an async node that its store API reads. -/
abbrev AsyncStorageNode (V τ : Type) := StorageNode V τ

variable {V τ : Type} [LinearOrder τ] [Add τ]

namespace AsyncStorageNode

section Api

variable (sha256 : String → List UInt8) (node : AsyncStorageNode V τ) (clock : NodeInfo → Clock τ)

@[inherit_doc StorageNode.handle]
def handle (n : NodeInfo) : ReplicaHandle V τ :=
  if n = node.info then AsyncLocalHandle n (clock n) else AsyncRemoteHandle n (clock n) node.pool

def makeHandles (nodes : List NodeInfo) : List (ReplicaHandle V τ) := nodes.map (handle node clock)

def get (key : String) (stores : Stores V τ) : PyObj V × Stores V τ :=
  let candidates := node.ring.getNodes sha256 key node.replication
  if candidates = [] then
    let (value, s) := (stores node.info).get (clock node.info) key
    (value, Function.update stores node.info s)
  else node.mergeResolver key (makeHandles node clock candidates) stores

variable (sched : Schedule NodeInfo (LocalLWWStore V τ) PyError Bool)

@[inherit_doc StorageNode.write]
def write (key : String) (direct : LocalLWWStore V τ → Clock τ → Int → Bool × LocalLWWStore V τ)
    (call : ReplicaHandle V τ → Int → StoreCall V τ Bool) (stores : Stores V τ) : Bool × Stores V τ :=
  let nodes := node.ring.getNodes sha256 key node.replication
  let ts : Int := (clock node.info).timeNs
  if nodes = [] then
    let (_, s) := direct (stores node.info) (clock node.info) ts
    (true, Function.update stores node.info s)
  else
    let (results, stores') :=
      gather sched ((makeHandles node clock nodes).map (fun h => ⟨h.node, call h ts⟩)) stores
    (results.any (fun r => r = .ok true), stores')

def set (key : String) (value : PyObj V) (ttl : Option τ) (stores : Stores V τ) : Bool × Stores V τ :=
  write sha256 node clock sched key (fun s c ts => s.set c key value ttl (some ts))
    (fun h ts => h.set key value ttl ts) stores

def delete (key : String) (stores : Stores V τ) : Bool × Stores V τ :=
  write sha256 node clock sched key (fun s c ts => s.delete c key (some ts)) (fun h ts => h.delete key ts) stores

end Api

end AsyncStorageNode

end DLStorage
