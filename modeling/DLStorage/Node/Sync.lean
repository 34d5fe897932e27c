import DLStorage.Consistency
import DLStorage.Ring

/-!
# The blocking node

The store API of `StorageNode`.  A call works on the stores of all nodes: the ring gives the replicas of the key, a
handle is made for each, and the call is fanned out over the handles one after the other.  `clock n` are the readings
that the call takes on node `n`.
-/

namespace DLStorage

open Base (comprehension)

variable {V τ : Type}

/-- A policy that resolves a read. -/
abbrev MergeResolver (V τ : Type) :=
  String → List (ReplicaHandle V τ) → Stores V τ → PyObj V × Stores V τ

/-- The fields of a node that its store API reads. -/
structure StorageNode (V τ : Type) where
  info : NodeInfo
  ring : RendezvousRing
  pool : Pool V τ
  mergeResolver : MergeResolver V τ
  replication : Nat

variable [LinearOrder τ] [Add τ]

namespace StorageNode

section Api

variable (sha256 : String → List UInt8) (node : StorageNode V τ) (clock : NodeInfo → Clock τ)

/-- The handle of the node for one replica. -/
def handle (n : NodeInfo) : ReplicaHandle V τ :=
  if n = node.info then SyncLocalHandle n (clock n) else SyncRemoteHandle n (clock n) node.pool

def makeHandles (nodes : List NodeInfo) : List (ReplicaHandle V τ) := nodes.map (node.handle clock)

def get (key : String) (stores : Stores V τ) : PyObj V × Stores V τ :=
  let candidates := node.ring.getNodes sha256 key node.replication
  if candidates = [] then
    -- an empty ring, or a replication factor of 0: the local store answers
    let (value, s) := (stores node.info).get (clock node.info) key
    (value, Function.update stores node.info s)
  else node.mergeResolver key (node.makeHandles clock candidates) stores

/-- What `set` and `delete` have in common: `direct` is the call on the local store, made when the ring is empty, and
`call` the call on a handle; both get the timestamp of the write. -/
def write (key : String) (direct : LocalLWWStore V τ → Clock τ → Int → Bool × LocalLWWStore V τ)
    (call : ReplicaHandle V τ → Int → StoreCall V τ Bool) (stores : Stores V τ) : Except PyError Bool × Stores V τ :=
  let nodes := node.ring.getNodes sha256 key node.replication
  let ts : Int := (clock node.info).timeNs
  if nodes = [] then
    -- the result of the local store is not looked at
    let (_, s) := direct (stores node.info) (clock node.info) ts
    (.ok true, Function.update stores node.info s)
  else
    let (results, stores') :=
      comprehension ((node.makeHandles clock nodes).map (fun h => ⟨h.node, call h ts⟩)) stores
    (results.map (fun results => results.any id), stores')

def set (key : String) (value : PyObj V) (ttl : Option τ) (stores : Stores V τ) : Except PyError Bool × Stores V τ :=
  node.write sha256 clock key (fun s c ts => s.set c key value ttl (some ts))
    (fun h ts => h.set key value ttl ts) stores

def delete (key : String) (stores : Stores V τ) : Except PyError Bool × Stores V τ :=
  node.write sha256 clock key (fun s c ts => s.delete c key (some ts)) (fun h ts => h.delete key ts) stores

/-! ### The handles of a node -/

theorem handle_self : node.handle clock node.info = localHandle node.info (clock node.info) := if_pos rfl

variable {node} in
theorem handle_of_ne {n : NodeInfo} (h : n ≠ node.info) :
    node.handle clock n = remoteHandle n (clock n) node.pool := if_neg h

theorem node_handle (n : NodeInfo) : (node.handle clock n).node = n := by
  by_cases h : n = node.info
  · subst h; rw [handle_self]; rfl
  · rw [handle_of_ne clock h]; rfl

end Api

end StorageNode

end DLStorage
