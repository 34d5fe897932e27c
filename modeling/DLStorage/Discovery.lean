import DLStorage.Types
import Mathlib.Data.List.DropRight

/-!
# Discovery backends

`get_peers()` of each backend.  What a name server, or a backend that is not part of the package, answers is up to the
environment of the call.
-/

namespace DLStorage

/-- What the environment answers to one call of `get_peers()`; `none` is an exception. -/
structure Environment where
  /-- The targets and ports of the SRV records. -/
  services : Option (List (String × Int)) := none
  /-- The addresses that `getaddrinfo` lists. -/
  addresses : Option (List String) := none
  /-- The result of a backend of the user's own. -/
  peers : Option (List NodeInfo) := none

/-- `GossipDiscovery`; the set of peers is listed in the order in which it is iterated. -/
structure GossipDiscovery where
  seed : NodeInfo
  peers : List NodeInfo
  nodup : peers.Nodup
  deriving DecidableEq

namespace GossipDiscovery

def new (seed : NodeInfo) : GossipDiscovery := ⟨seed, [], List.nodup_nil⟩

def getPeers (d : GossipDiscovery) : List NodeInfo := d.peers ++ [d.seed]

/-- Whether the peer was new. -/
def addPeer (d : GossipDiscovery) (peer : NodeInfo) : Bool × GossipDiscovery :=
  if h : peer ∈ d.peers then (false, d)
  else (true, { d with
    peers := d.peers ++ [peer], nodup := d.nodup.append (List.nodup_singleton _) (by simpa using h) })

def removePeer (d : GossipDiscovery) (peer : NodeInfo) : GossipDiscovery :=
  { d with peers := d.peers.filter (fun n => n ≠ peer), nodup := d.nodup.filter _ }

@[simp] theorem mem_addPeer {d : GossipDiscovery} {peer x : NodeInfo} :
    x ∈ (d.addPeer peer).2.peers ↔ x ∈ d.peers ∨ x = peer := by
  unfold addPeer
  split
  · rename_i h
    constructor
    · exact Or.inl
    · rintro (hx | rfl) <;> assumption
  · simp

@[simp] theorem seed_addPeer {d : GossipDiscovery} {peer : NodeInfo} : (d.addPeer peer).2.seed = d.seed := by
  unfold addPeer
  split <;> rfl

@[simp] theorem mem_removePeer {d : GossipDiscovery} {peer x : NodeInfo} :
    x ∈ (d.removePeer peer).peers ↔ x ∈ d.peers ∧ x ≠ peer := by
  simp [removePeer]

end GossipDiscovery

inductive Discovery
  | static (peers : List NodeInfo)
  | dns
  | aRecord (port : Int)
  | gossip (d : GossipDiscovery)
  | custom
  deriving DecidableEq

namespace Discovery

/-- `str(target).rstrip(".")`. -/
def rstripDot (target : String) : String := String.ofList (target.toList.rdropWhile (fun c => c = '.'))

/-- `get_peers()`, or none when it raises. -/
def getPeers (env : Environment) : Discovery → Option (List NodeInfo)
  | static peers => some peers
  | dns => env.services.map (fun answers => answers.map (fun r => ⟨rstripDot r.1, r.2⟩))
  | aRecord port => env.addresses.map (fun results => results.eraseDups.map (fun ip => ⟨ip, port⟩))
  | gossip d => some d.getPeers
  | custom => env.peers

/-- `add_peer`, which only `GossipDiscovery` has. -/
def addPeer (peer : NodeInfo) : Discovery → Discovery
  | gossip d => gossip (d.addPeer peer).2
  | d => d

/-- `remove_peer`, which only `GossipDiscovery` has. -/
def removePeer (peer : NodeInfo) : Discovery → Discovery
  | gossip d => gossip (d.removePeer peer)
  | d => d

end Discovery

end DLStorage
