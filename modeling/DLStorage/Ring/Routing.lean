import DLStorage.Base.Run
import DLStorage.Ring

/-!
# Routing by membership

The replicas of a key depend on the members of the ring only, not on the calls that led to them nor on the order in
which the set is iterated (`routing_by_membership`), as long as the SHA-256 digests of the members' hash inputs differ.
A node that joins displaces at most one replica of a key, and none is moved when it leaves again (`minimal_remapping`).
-/

namespace DLStorage

open Base (after after_concat split_concat ScoreInjOn)

/-- A call that changes the ring. -/
inductive RingCall
  | add (node : NodeInfo)
  | remove (node : NodeInfo)

def RendezvousRing.apply (ring : RendezvousRing) : RingCall → RendezvousRing
  | .add node => ring.add node
  | .remove node => ring.remove node

/-- The ring after a sequence of calls. -/
def ringAfter (calls : List RingCall) : RendezvousRing := after RendezvousRing.apply RendezvousRing.empty calls

/-- The node has been added, and not removed since. -/
def Member (calls : List RingCall) (node : NodeInfo) : Prop :=
  ∃ pre post, calls = pre ++ .add node :: post ∧ .remove node ∉ post

/-- The string that `_score` hashes. -/
def hashInput (node : NodeInfo) (key : String) : String := node.address ++ ":" ++ key

/-! ### Scores -/

/-- Different nodes have different hash inputs. -/
theorem hashInput_injective (key : String) : Function.Injective fun node => hashInput node key := by
  intro x y h
  have hlist : x.address.toList ++ (":" ++ key).toList = y.address.toList ++ (":" ++ key).toList := by
    have := congrArg String.toList h
    simpa [hashInput, String.toList_append] using this
  exact address_injective (String.toList_injective (List.append_cancel_right hlist))

private theorem fromBytes_concat (h : List UInt8) (b : UInt8) : fromBytes (h ++ [b]) = 256 * fromBytes h + b.toNat := by
  simp [fromBytes]

/-- Digests of one length are compared as the numbers that they spell. -/
theorem fromBytes_injective {h h' : List UInt8} (hlen : h.length = h'.length) (heq : fromBytes h = fromBytes h') :
    h = h' := by
  induction h using List.reverseRecOn generalizing h' with
  | nil => exact (List.length_eq_zero_iff.1 hlen.symm).symm
  | append_singleton h b ih =>
    rcases List.eq_nil_or_concat h' with rfl | ⟨l, b', rfl⟩
    · simp at hlen
    · rw [List.concat_eq_append] at hlen heq ⊢
      rw [fromBytes_concat, fromBytes_concat] at heq
      have hb := b.toNat_lt
      have hb' := b'.toNat_lt
      have hlast : b = b' := UInt8.toNat_inj.1 (by omega)
      have hrest : h = l := ih (by simpa using hlen) (by omega)
      rw [hlast, hrest]

private theorem length_bytes (n x : Nat) : (Base.Sha256.bytes n x).length = n := by
  induction n generalizing x with
  | zero => rfl
  | succ n ih => simp [Base.Sha256.bytes, ih]

theorem length_sha256Digest (s : String) : (sha256Digest s).length = 32 := by
  simp [sha256Digest, Base.Sha256.digest, length_bytes]

/-- Members whose digests differ have different scores. -/
private theorem scoreInjOn {key : String} {l : List NodeInfo}
    (hdigest : ∀ x ∈ l, ∀ y ∈ l, sha256Digest (hashInput x key) = sha256Digest (hashInput y key) →
      hashInput x key = hashInput y key) : ScoreInjOn (fun x => score sha256Digest x key) l := by
  intro x hx y hy heq
  have hbytes : sha256Digest (hashInput x key) = sha256Digest (hashInput y key) :=
    fromBytes_injective (by rw [length_sha256Digest, length_sha256Digest]) heq
  exact hashInput_injective key (hdigest x hx y hy hbytes)

/-! ### Members -/

private theorem member_concat {calls : List RingCall} {call : RingCall} {x : NodeInfo} :
    Member (calls ++ [call]) x ↔ call = .add x ∨ call ≠ .remove x ∧ Member calls x := by
  constructor
  · rintro ⟨pre, post, hsplit, hpost⟩
    rcases split_concat hsplit with ⟨-, -, hlast⟩ | ⟨post', rfl, rfl⟩
    · exact Or.inl hlast
    · rw [List.mem_append, not_or] at hpost
      refine Or.inr ⟨?_, pre, post', rfl, hpost.1⟩
      rintro rfl
      exact hpost.2 (List.mem_singleton_self _)
  · rintro (rfl | ⟨hne, pre, post, rfl, hpost⟩)
    · exact ⟨calls, [], rfl, List.not_mem_nil⟩
    · refine ⟨pre, post ++ [call], by simp, ?_⟩
      rw [List.mem_append, List.mem_singleton, not_or]
      exact ⟨hpost, hne.symm⟩

/-- The ring holds the nodes whose last call was an `add`. -/
theorem mem_ringAfter {calls : List RingCall} {x : NodeInfo} : x ∈ (ringAfter calls).nodes ↔ Member calls x := by
  induction calls using List.reverseRecOn with
  | nil =>
    constructor
    · intro h
      cases h
    · rintro ⟨pre, post, hsplit, -⟩
      simp at hsplit
  | append_singleton calls call ih =>
    have hstep : ringAfter (calls ++ [call]) = (ringAfter calls).apply call := after_concat calls call
    rw [hstep, member_concat, ← ih]
    cases call with
    | add node =>
      have hadd : RingCall.add node = .add x ↔ x = node := by
        rw [RingCall.add.injEq, eq_comm]
      simp [RendezvousRing.apply, hadd, or_comm]
    | remove node =>
      have hremove : RingCall.remove node = .remove x ↔ x = node := by
        rw [RingCall.remove.injEq, eq_comm]
      simp [RendezvousRing.apply, hremove, and_comm]

/-- Calls that lead to the same members lead to the same set, iterated in some order. -/
private theorem ringAfter_perm {calls calls' : List RingCall} (h : ∀ x, Member calls x ↔ Member calls' x) :
    (ringAfter calls).nodes.Perm (ringAfter calls').nodes := by
  rw [List.perm_ext_iff_of_nodup (ringAfter calls).nodup (ringAfter calls').nodup]
  intro x
  rw [mem_ringAfter, mem_ringAfter, h x]

/-- However two nodes came to their members, and in whichever order they iterate over them, they route a key to the
same nodes: the best of the members by score. -/
theorem routing_by_membership (key : String) {calls calls' : List RingCall}
    (hmembers : ∀ x, Member calls x ↔ Member calls' x)
    (hdigest : ∀ x y, Member calls x → Member calls y →
      sha256Digest (hashInput x key) = sha256Digest (hashInput y key) → hashInput x key = hashInput y key)
    {ring ring' : RendezvousRing} (hring : ring.nodes.Perm (ringAfter calls).nodes)
    (hring' : ring'.nodes.Perm (ringAfter calls').nodes) (n : Nat) :
    ring.getNodes sha256Digest key n = ring'.getNodes sha256Digest key n ∧
    (ring.getNodes sha256Digest key n).length = min n ring.len ∧
    (ring.getNodes sha256Digest key n).Nodup ∧
    (∀ x ∈ ring.getNodes sha256Digest key n, Member calls x) ∧
    (ring.getNodes sha256Digest key n).Pairwise
      (fun x y => score sha256Digest y key < score sha256Digest x key) ∧
    (∀ x, Member calls x → x ∉ ring.getNodes sha256Digest key n → ∀ y ∈ ring.getNodes sha256Digest key n,
      score sha256Digest x key < score sha256Digest y key) ∧
    (∀ m ≤ n, ring.getNodes sha256Digest key m <+: ring.getNodes sha256Digest key n) ∧
    (1 ≤ n → ring.getNode sha256Digest key = (ring.getNodes sha256Digest key n).head?) ∧
    (ring.getNode sha256Digest key = none ↔ ∀ x, ¬ Member calls x) := by
  have hmem : ∀ x, x ∈ ring.nodes ↔ Member calls x := fun x => hring.mem_iff.trans mem_ringAfter
  have hinj : ScoreInjOn (fun x => score sha256Digest x key) ring.nodes := by
    apply scoreInjOn
    intro x hx y hy
    exact hdigest x y ((hmem x).1 hx) ((hmem y).1 hy)
  have hsame : ring.nodes.Perm ring'.nodes := hring.trans ((ringAfter_perm hmembers).trans hring'.symm)
  simp only [RendezvousRing.getNodes_eq_top]
  refine ⟨Base.top_eq_of_perm ring.nodup hinj hsame n, Base.length_top n _, Base.top_nodup ring.nodup, ?_,
    Base.top_strict ring.nodup hinj n, ?_, fun m hm => Base.top_prefix hm, ?_, ?_⟩
  · intro x hx
    exact (hmem x).1 (Base.top_subset hx)
  · intro x hx hout y hy
    exact Base.lt_of_notMem_top ring.nodup hinj ((hmem x).2 hx) hout hy
  · intro hn
    exact (Base.head?_top ring.nodup hinj hn).symm
  · constructor
    · intro hnone x hx
      have hnil : ring.nodes = [] := Base.best_eq_none_iff.1 hnone
      have hin := (hmem x).2 hx
      rw [hnil] at hin
      cases hin
    · intro hempty
      have hnil : ring.nodes = [] := List.eq_nil_iff_forall_not_mem.2 fun x hx => hempty x ((hmem x).1 hx)
      exact Base.best_eq_none_iff.2 hnil

/-- Three nodes join in one order, and in another with a node that leaves again. -/
def joins : List RingCall := [.add (localhost 7001), .add (localhost 7002), .add (localhost 7003)]

def otherJoins : List RingCall :=
  [.add (localhost 7004), .add (localhost 7003), .add (localhost 7001), .remove (localhost 7004), .add (localhost 7002)]

private theorem member_joins (x : NodeInfo) : Member joins x ↔ x ∈ [localhost 7001, localhost 7002, localhost 7003] :=
  mem_ringAfter.symm

private theorem member_otherJoins (x : NodeInfo) :
    Member otherJoins x ↔ x ∈ [localhost 7003, localhost 7001, localhost 7002] :=
  mem_ringAfter.symm

private theorem joins_scores :
    ([localhost 7001, localhost 7002, localhost 7003].map fun x => score sha256Digest x "k").Nodup := by
  decide +kernel

theorem joins_route_alike :
    (ringAfter joins).getNodes sha256Digest "k" 2 = (ringAfter otherJoins).getNodes sha256Digest "k" 2 := by
  have hring : (ringAfter joins).nodes.Perm (ringAfter joins).nodes := List.Perm.refl _
  have hring' : (ringAfter otherJoins).nodes.Perm (ringAfter otherJoins).nodes := List.Perm.refl _
  refine (routing_by_membership "k" (fun x => ?_) (fun x y hx hy => ?_) hring hring' 2).1
  · rw [member_joins, member_otherJoins]
    simp only [List.mem_cons, List.not_mem_nil, or_false]
    tauto
  · intro heq
    have hscore : score sha256Digest x "k" = score sha256Digest y "k" := congrArg fromBytes heq
    rw [List.inj_on_of_nodup_map joins_scores ((member_joins x).1 hx) ((member_joins y).1 hy) hscore]

/-! ### A node joins or leaves -/

section Remapping

variable {sha256 : String → List UInt8} {ring ring' ring'' : RendezvousRing} {x : NodeInfo} {key : String}

private theorem add_perm (hx : x ∉ ring.nodes) : (ring.add x).nodes.Perm (x :: ring.nodes) := by
  unfold RendezvousRing.add
  rw [dif_neg hx]
  exact List.perm_append_comm

private theorem remove_perm (hx : x ∉ ring.nodes) (hadd : ring'.nodes.Perm (ring.add x).nodes) :
    (ring'.remove x).nodes.Perm ring.nodes := by
  rw [List.perm_ext_iff_of_nodup (ring'.remove x).nodup ring.nodup]
  intro y
  rw [RendezvousRing.mem_remove, hadd.mem_iff, RendezvousRing.mem_add]
  constructor
  · rintro ⟨hy, hne⟩
    exact hy.resolve_right hne
  · intro hy
    refine ⟨Or.inl hy, ?_⟩
    rintro rfl
    exact hx hy

/-- A node that joins is inserted into the list of replicas at the place of its score, if at all, and displaces at most
the last one; when it leaves again, the list is what it was. -/
theorem minimal_remapping (hx : x ∉ ring.nodes)
    (hscores : ScoreInjOn (fun y => score sha256 y key) (x :: ring.nodes)) (hadd : ring'.nodes.Perm (ring.add x).nodes)
    (hremove : ring''.nodes.Perm (ring'.remove x).nodes) (n : Nat) :
    (ring'.getNodes sha256 key n = ring.getNodes sha256 key n ∨
      ∃ pre post, ring.getNodes sha256 key n = pre ++ post ∧
        (∀ y ∈ pre, score sha256 x key < score sha256 y key) ∧ (∀ y ∈ post, score sha256 y key < score sha256 x key) ∧
        ring'.getNodes sha256 key n = (pre ++ x :: post).take n) ∧
    (ring'.getNodes sha256 key n).filter (· ≠ x) <+: ring.getNodes sha256 key n ∧
    (ring.getNodes sha256 key n).length ≤ ((ring'.getNodes sha256 key n).filter (· ≠ x)).length + 1 ∧
    ring''.getNodes sha256 key n = ring.getNodes sha256 key n := by
  have hold : ScoreInjOn (fun y => score sha256 y key) ring.nodes := fun y hy z hz =>
    hscores y (List.mem_cons_of_mem x hy) z (List.mem_cons_of_mem x hz)
  have hnd : (x :: ring.nodes).Nodup := List.nodup_cons.2 ⟨hx, ring.nodup⟩
  have hperm : (x :: ring.nodes).Perm ring'.nodes := (hadd.trans (add_perm hx)).symm
  have hback : ring.nodes.Perm ring''.nodes := (hremove.trans (remove_perm hx hadd)).symm
  simp only [RendezvousRing.getNodes_eq_top]
  rw [← Base.top_eq_of_perm hnd hscores hperm n, ← Base.top_eq_of_perm ring.nodup hold hback n]
  refine ⟨?_, (Base.top_cons_displaces hx).1, (Base.top_cons_displaces hx).2, rfl⟩
  rcases @Base.top_cons NodeInfo Nat _ (fun y => score sha256 y key) n ring.nodes x with
    hsame | ⟨pre, post, hlist, hpre, hpost, hnew⟩
  · exact Or.inl hsame
  · refine Or.inr ⟨pre, post, hlist, hpre, fun y hy => lt_of_le_of_ne (hpost y hy) ?_, hnew⟩
    have hy' : y ∈ ring.nodes := Base.top_subset (hlist ▸ List.mem_append_right pre hy)
    intro heq
    obtain rfl := hscores y (List.mem_cons_of_mem x hy') x List.mem_cons_self heq
    exact hx hy'

end Remapping

private theorem localRing_scores :
    ScoreInjOn (fun y => score sha256Digest y "k") (localhost 7004 :: localRing.nodes) := by
  have hnodup : ((localhost 7004 :: localRing.nodes).map fun y => score sha256Digest y "k").Nodup := by decide +kernel
  exact fun y hy z hz heq => List.inj_on_of_nodup_map hnodup hy hz heq

/-- Node 7004 joins three others. -/
theorem localRing_remapped :
    ((localRing.add (localhost 7004)).getNodes sha256Digest "k" 2).filter (· ≠ localhost 7004) <+:
      localRing.getNodes sha256Digest "k" 2 :=
  (minimal_remapping (by decide) localRing_scores (List.Perm.refl _) (List.Perm.refl _) 2).2.1

end DLStorage
