import DLStorage.Types
import DLStorage.Base.Newest
import DLStorage.Base.Ranking
import DLStorage.Base.Sha256

/-!
# The rendezvous ring

`RendezvousRing`: a set of nodes, listed in the order in which the set is iterated.  The replicas of a key are the
nodes with the highest scores, so the library's `Base.top` describes them.  The results hold for any hash function
`sha256` of strings; the source uses `sha256Digest`.
-/

namespace DLStorage

open Base (top)

/-- `hashlib.sha256(s.encode()).digest()`. -/
def sha256Digest (s : String) : List UInt8 := Base.Sha256.digest (s.toList.flatMap String.utf8EncodeChar)

variable (sha256 : String → List UInt8)

/-- `int.from_bytes(h, "big")`. -/
def fromBytes (h : List UInt8) : Nat := h.foldl (fun n b => 256 * n + b.toNat) 0

def score (node : NodeInfo) (key : String) : Nat := fromBytes (sha256 (node.address ++ ":" ++ key))

structure RendezvousRing where
  nodes : List NodeInfo
  nodup : nodes.Nodup

namespace RendezvousRing

def empty : RendezvousRing := ⟨[], List.nodup_nil⟩

def add (ring : RendezvousRing) (node : NodeInfo) : RendezvousRing :=
  if h : node ∈ ring.nodes then ring
  else ⟨ring.nodes ++ [node], ring.nodup.append (List.nodup_singleton _) (by simpa using h)⟩

def remove (ring : RendezvousRing) (node : NodeInfo) : RendezvousRing :=
  ⟨ring.nodes.filter (fun n => n ≠ node), ring.nodup.filter _⟩

def getNode (ring : RendezvousRing) (key : String) : Option NodeInfo :=
  Base.leading (fun n => score sha256 n key) ring.nodes

def getNodes (ring : RendezvousRing) (key : String) (n : Nat) : List NodeInfo :=
  if ring.nodes = [] then []
  else ((ring.nodes.insertionSort (fun x y => score sha256 y key ≤ score sha256 x key)).take n)

def len (ring : RendezvousRing) : Nat := ring.nodes.length

@[simp] theorem mem_add {ring : RendezvousRing} {node x : NodeInfo} :
    x ∈ (ring.add node).nodes ↔ x ∈ ring.nodes ∨ x = node := by
  unfold add
  split
  · rename_i h
    constructor
    · exact Or.inl
    · rintro (hx | rfl) <;> assumption
  · simp

@[simp] theorem mem_remove {ring : RendezvousRing} {node x : NodeInfo} :
    x ∈ (ring.remove node).nodes ↔ x ∈ ring.nodes ∧ x ≠ node := by
  simp [remove]

variable {sha256}

theorem getNodes_eq_top (ring : RendezvousRing) (key : String) (n : Nat) :
    ring.getNodes sha256 key n = top (fun x => score sha256 x key) n ring.nodes := by
  unfold getNodes
  split
  · rename_i h
    rw [h]
    simp [top, Base.ranked]
  · rfl

theorem getNodes_nodup (ring : RendezvousRing) (key : String) (n : Nat) : (ring.getNodes sha256 key n).Nodup := by
  rw [getNodes_eq_top]
  exact Base.top_nodup ring.nodup

theorem getNodes_eq_nil_iff (ring : RendezvousRing) (key : String) {n : Nat} (hn : 0 < n) :
    ring.getNodes sha256 key n = [] ↔ ring.nodes = [] := by
  rw [getNodes_eq_top, Base.top_eq_nil_iff hn]

end RendezvousRing

/-- A node of a cluster on one machine. -/
def localhost (port : Int) : NodeInfo := ⟨"127.0.0.1", port⟩

def localRing : RendezvousRing := ⟨[localhost 7001, localhost 7002, localhost 7003], by decide⟩

theorem localRing_getNodes : localRing.getNodes sha256Digest "k" 2 = [localhost 7003, localhost 7001] := by
  decide +kernel

end DLStorage
