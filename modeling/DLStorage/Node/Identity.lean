import DLStorage.Node.Async
import DLStorage.PeerComm.Gossip
import DLStorage.Ring.Routing

/-!
# Addresses identify nodes

The source compares nodes by `==`, which compares addresses, and looks them up in sets by the hash of the address; the
model writes `=`.  Here the places where nodes are compared are restated with the comparisons of the source, and these
tell apart exactly the nodes that differ in host or port (`addresses_identify`).
-/

namespace DLStorage

open Gossip (candidates mergeEntry)

section Lookup

variable (hash : String → Int)

/-- Whether the lookup of `n` in a set stops at `element`. -/
def NodeInfo.meets (n element : NodeInfo) : Bool := n.hash hash = element.hash hash ∧ n.eq element

/-- `n in s`, for a set. -/
def inSet (s : List NodeInfo) (n : NodeInfo) : Bool := s.any (n.meets hash)

end Lookup

/-- Every comparison of nodes is the one of the source: in the ring, among peers and in the choice of a handle.  And no
two nodes of a ring are scored by one string. -/
structure OneIdentity (V τ : Type) [LinearOrder τ] [Add τ] (hash : String → Int) : Prop where
  add : ∀ (ring : RendezvousRing) (node : NodeInfo),
    (ring.add node).nodes = if inSet hash ring.nodes node then ring.nodes else ring.nodes ++ [node]
  remove : ∀ (ring : RendezvousRing) (node : NodeInfo),
    (ring.remove node).nodes = ring.nodes.filter (fun n => ! node.meets hash n)
  getNodes : ∀ (ring : RendezvousRing) (key : String), (ring.nodes.map (fun n => hashInput n key)).Nodup
  others : ∀ (self : NodeInfo) (m : Membership), m.others self = m.ring.nodes.filter (fun n => ! n.eq self)
  candidates : ∀ (self : NodeInfo) (peers : List NodeInfo),
    candidates self peers = peers.filter (fun n => ! n.eq self)
  mergeEntry : ∀ (self : NodeInfo) (known : List NodeInfo) (m : Membership) (peer : NodeInfo),
    mergeEntry self known m peer = if ! peer.eq self && ! inSet hash known peer then m.enlist peer else m
  makeHandles : ∀ (node : StorageNode V τ) (clock : NodeInfo → Clock τ) (nodes : List NodeInfo),
    node.makeHandles clock nodes = nodes.map (fun n =>
      if n.eq node.info then SyncLocalHandle n (clock n) else SyncRemoteHandle n (clock n) node.pool)
  asyncMakeHandles : ∀ (node : AsyncStorageNode V τ) (clock : NodeInfo → Clock τ) (nodes : List NodeInfo),
    AsyncStorageNode.makeHandles node clock nodes = nodes.map (fun n =>
      if n.eq node.info then AsyncLocalHandle n (clock n) else AsyncRemoteHandle n (clock n) node.pool)

/-! ### Comparisons -/

namespace NodeInfo

variable {hash : String → Int} {n m : NodeInfo}

@[simp] theorem eq_iff : n.eq m = true ↔ n = m := by
  simp [NodeInfo.eq, address_injective.eq_iff]

private theorem eq_iff_fields : n.eq m = true ↔ n.host = m.host ∧ n.port = m.port := by
  rw [eq_iff]
  cases n
  cases m
  simp

theorem not_eq (n m : NodeInfo) : (! n.eq m) = decide (n ≠ m) := by
  rw [Bool.eq_iff_iff, Bool.not_eq_true', ← Bool.not_eq_true, eq_iff, decide_eq_true_iff]

@[simp] theorem meets_iff : n.meets hash m = true ↔ n = m := by
  constructor
  · intro h
    simp only [meets, decide_eq_true_eq] at h
    exact eq_iff.1 h.2
  · rintro rfl
    simp [meets]

end NodeInfo

@[simp] theorem inSet_iff {hash : String → Int} {s : List NodeInfo} {n : NodeInfo} : inSet hash s n = true ↔ n ∈ s := by
  simp [inSet]

private theorem hashInput_eq_iff {n m : NodeInfo} {key : String} :
    hashInput n key = hashInput m key ↔ n.eq m = true := by
  rw [NodeInfo.eq_iff]
  exact (hashInput_injective key).eq_iff

private theorem oneIdentity (V τ : Type) [LinearOrder τ] [Add τ] (hash : String → Int) : OneIdentity V τ hash where
  add := by
    intro ring node
    simp only [RendezvousRing.add, inSet_iff]
    split <;> rfl
  remove := by
    intro ring node
    have hmeets (n : NodeInfo) : (! node.meets hash n) = decide (n ≠ node) := by
      rw [Bool.eq_iff_iff, Bool.not_eq_true', ← Bool.not_eq_true, NodeInfo.meets_iff, decide_eq_true_iff, ne_comm]
    simp only [RendezvousRing.remove, hmeets]
  getNodes := by
    intro ring key
    exact ring.nodup.map (hashInput_injective key)
  others := by
    intro self m
    simp only [Membership.others, NodeInfo.not_eq]
  candidates := by
    intro self peers
    simp only [Gossip.candidates, NodeInfo.not_eq]
  mergeEntry := by
    intro self known m peer
    have hcond : (! peer.eq self && ! inSet hash known peer) = true ↔ peer ≠ self ∧ peer ∉ known := by
      rw [Bool.and_eq_true, NodeInfo.not_eq, Bool.not_eq_true', ← Bool.not_eq_true, inSet_iff, decide_eq_true_iff]
    simp only [Gossip.mergeEntry, hcond]
  makeHandles := by
    intro node clock nodes
    simp only [StorageNode.makeHandles, NodeInfo.eq_iff]
    rfl
  asyncMakeHandles := by
    intro node clock nodes
    simp only [AsyncStorageNode.makeHandles, NodeInfo.eq_iff]
    rfl

/-- A node is read back from its address.  The comparison of the source, together with the hash, and the string that
`_score` hashes all tell apart the nodes that differ in host or port, and no others. -/
theorem addresses_identify (V τ : Type) [LinearOrder τ] [Add τ] (digits : UnicodeDigits) (hash : String → Int) :
    (∀ n : NodeInfo, NodeInfo.fromAddress digits n.address = some n) ∧
      (∀ n m : NodeInfo, n.eq m = true ↔ n.host = m.host ∧ n.port = m.port) ∧
      (∀ n m : NodeInfo, n.eq m = true ∧ n.hash hash = m.hash hash ↔ n.host = m.host ∧ n.port = m.port) ∧
      (∀ (n m : NodeInfo) (key : String), hashInput n key = hashInput m key ↔ n.eq m = true) ∧
      OneIdentity V τ hash := by
  refine ⟨fromAddress_address digits, fun _ _ => NodeInfo.eq_iff_fields, ?_, fun _ _ _ => hashInput_eq_iff,
    oneIdentity V τ hash⟩
  intro n m
  rw [← NodeInfo.eq_iff_fields, and_iff_left_iff_imp]
  intro h
  rw [NodeInfo.eq_iff.1 h]

end DLStorage
