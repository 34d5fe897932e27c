import DLStorage.Node.Writes

/-!
# Acknowledgements of sets

A local replica that rejects a set says so; a remote one does not, because `dispatch` answers OK to every SET.  So the
node may return `True` for a set that no replica accepted.  `set_truthful_iff` tells when its answer is the truth.
-/

namespace DLStorage

open Base (Schedule)

variable {V τ : Type}

/-- The replicas for which `reach` holds answer; the pool returns `None` for the others. -/
def linkTo (reach : NodeInfo → Bool) : NodeInfo → Link := fun n => if reach n then .answers else .silent

section Set

variable [Add τ]

variable (sha256 : String → List UInt8) (view : NodeView) (reach : NodeInfo → Bool) (clock : NodeInfo → Clock τ)
  (key : String) (value : PyObj V) (ttl : Option τ) (stores : Stores V τ)

/-- A replica that the node reaches accepts the set. -/
def NodeView.AcceptedSomewhere : Prop :=
  ∃ n ∈ view.replicas sha256 key, view.Reaches (linkTo reach) n ∧
    ((stores n).set (clock n) key value ttl (some (clock view.info).timeNs)).1 = true

/-- What the set through the handle for one replica returns. -/
private def acknowledges (n : NodeInfo) : Bool :=
  if n = view.info then ((stores n).set (clock n) key value ttl (some (clock view.info).timeNs)).1 else reach n

/-- What both nodes return. -/
private def acknowledged : Bool :=
  decide (view.ring.getNodes sha256 key view.replication = []) ||
    (view.ring.getNodes sha256 key view.replication).any (acknowledges view reach clock key value ttl stores)

private theorem accepted_acknowledged (h : view.AcceptedSomewhere sha256 reach clock key value ttl stores) :
    acknowledged sha256 view reach clock key value ttl stores = true := by
  unfold acknowledged
  by_cases hnil : view.ring.getNodes sha256 key view.replication = []
  · rw [decide_eq_true hnil, Bool.true_or]
  · obtain ⟨n, hn, hreach, hacc⟩ := h
    rw [NodeView.replicas_of_ne sha256 view hnil] at hn
    rw [decide_eq_false hnil, Bool.false_or, List.any_eq_true]
    refine ⟨n, hn, ?_⟩
    unfold acknowledges
    by_cases hself : n = view.info
    · rw [if_pos hself, hacc]
    · rw [if_neg hself]
      have hl := hreach.resolve_left hself
      unfold linkTo at hl
      cases hr : reach n with
      | true => rfl
      | false => rw [hr] at hl; cases hl

private theorem acknowledged_eq_false_iff (h : ¬ view.AcceptedSomewhere sha256 reach clock key value ttl stores) :
    acknowledged sha256 view reach clock key value ttl stores = false ↔
      view.ring.getNodes sha256 key view.replication ≠ [] ∧
        ∀ n ∈ view.replicas sha256 key, n ≠ view.info → reach n = false := by
  unfold acknowledged
  by_cases hnil : view.ring.getNodes sha256 key view.replication = []
  · simp [hnil]
  · rw [decide_eq_false hnil, Bool.false_or, List.any_eq_false, NodeView.replicas_of_ne sha256 view hnil]
    constructor
    · intro hall
      refine ⟨hnil, fun n hn hself => ?_⟩
      have := hall n hn
      unfold acknowledges at this
      rw [if_neg hself] at this
      simpa using this
    · rintro ⟨-, hall⟩ n hn
      unfold acknowledges
      by_cases hself : n = view.info
      · rw [if_pos hself]
        intro hacc
        refine h ⟨n, ?_, Or.inl hself, hacc⟩
        rw [NodeView.replicas_of_ne sha256 view hnil]
        exact hn
      · rw [if_neg hself, hall n hn hself]
        exact Bool.false_ne_true

private theorem acceptedSomewhere_iff :
    view.AcceptedSomewhere sha256 reach clock key value ttl stores ↔
      ∃ n ∈ view.replicas sha256 key, view.Reaches (linkTo reach) n ∧
        (stores n).Admits key (clock view.info).timeNs := by
  unfold NodeView.AcceptedSomewhere
  simp only [LocalLWWStore.set_fst, Option.getD_some, decide_eq_true_eq]

variable [LinearOrder τ]

/-- Both nodes return `True` for the set exactly when a replica that they reach accepts it. -/
def NodeView.SetTruthful (sched : Schedule NodeInfo (LocalLWWStore V τ) PyError (Option (Versioned V)))
    (sched' : Schedule NodeInfo (LocalLWWStore V τ) PyError Bool) : Prop :=
  (((view.sync (linkTo reach)).set sha256 clock key value ttl stores).1 = .ok true ↔
    view.AcceptedSomewhere sha256 reach clock key value ttl stores) ∧
  (((view.async (linkTo reach) sched).set sha256 clock sched' key value ttl stores).1 = true ↔
    view.AcceptedSomewhere sha256 reach clock key value ttl stores)

private theorem set_replicaCall (n : NodeInfo) :
    ((view.sync (linkTo reach)).replicaCall clock (fun h ts => h.set key value ttl ts) n (stores n)).1 =
      .ok (acknowledges view reach clock key value ttl stores n) := by
  unfold StorageNode.replicaCall acknowledges
  by_cases hn : n = view.info
  · subst hn
    rw [if_pos rfl, NodeView.handle_sync_self]
    rfl
  · rw [if_neg hn, NodeView.handle_sync_of_ne _ _ hn]
    cases hr : reach n with
    | true =>
      -- the peer answers OK whether or not it accepts the set
      have hl : linkTo reach n = .answers := if_pos hr
      exact congrArg Prod.fst (remote_set hl (clock n) (stores n) key value ttl _)
    | false =>
      have hl : linkTo reach n = .silent := if_neg (by simp [hr])
      show (networkPool (linkTo reach) n (clock n) _ (stores n)).1.map isOk = _
      unfold networkPool
      rw [hl]
      rfl

private theorem sync_set_fst :
    ((view.sync (linkTo reach)).set sha256 clock key value ttl stores).1 =
      .ok (acknowledged sha256 view reach clock key value ttl stores) :=
  congrArg Prod.fst (StorageNode.write_eq sha256 (view.sync (linkTo reach)) clock key stores
    (callsDirect_set key value ttl) (fun n _ => set_replicaCall view reach clock key value ttl stores n))

private theorem async_set_fst (sched : Schedule NodeInfo (LocalLWWStore V τ) PyError (Option (Versioned V)))
    (sched' : Schedule NodeInfo (LocalLWWStore V τ) PyError Bool) :
    ((view.async (linkTo reach) sched).set sha256 clock sched' key value ttl stores).1 =
      acknowledged sha256 view reach clock key value ttl stores := by
  refine (congrArg Prod.fst (AsyncStorageNode.write_eq sha256 (view.sync (linkTo reach)) clock key stores
    (callsDirect_set key value ttl) sched')).trans ?_
  simp only [set_replicaCall, Except.ok.injEq, Bool.decide_eq_true]
  rfl

/-- The answer to a set is the truth exactly when a reached replica holds nothing newer for the key, or the set is
fanned out and no remote replica is reached. -/
theorem set_truthful_iff (sched : Schedule NodeInfo (LocalLWWStore V τ) PyError (Option (Versioned V)))
    (sched' : Schedule NodeInfo (LocalLWWStore V τ) PyError Bool) :
    view.SetTruthful sha256 reach clock key value ttl stores sched sched' ↔
      (∃ n ∈ view.replicas sha256 key, view.Reaches (linkTo reach) n ∧
        (stores n).Admits key (clock view.info).timeNs) ∨
      (view.ring.getNodes sha256 key view.replication ≠ [] ∧
        ∀ n ∈ view.replicas sha256 key, n ≠ view.info → reach n = false) := by
  unfold NodeView.SetTruthful
  rw [sync_set_fst, async_set_fst, ← acceptedSomewhere_iff sha256 view reach clock key value ttl stores,
    Except.ok.injEq, and_self]
  by_cases h : view.AcceptedSomewhere sha256 reach clock key value ttl stores
  · simp only [h, accepted_acknowledged sha256 view reach clock key value ttl stores h, true_or]
  · rw [← acknowledged_eq_false_iff sha256 view reach clock key value ttl stores h]
    cases acknowledged sha256 view reach clock key value ttl stores <;> simp [h]

end Set

/-- A store that holds a version of timestamp 9. -/
def aheadStore : LocalLWWStore Nat Int := (LocalLWWStore.empty.set ⟨0, 9⟩ "k" (some 1) none none).2

/-- A node whose clock is behind is told that its set succeeded, although both remote replicas rejected it. -/
theorem rejected_set_acknowledged :
    ¬ (NodeView.mk (localhost 7002) localRing 2).SetTruthful sha256Digest (fun _ => true) (fun _ => ⟨1, 5⟩) "k" (some 2)
      none (fun _ => aheadStore) Schedule.inOrder Schedule.inOrder := by
  rintro ⟨hsync, -⟩
  obtain ⟨n, -, -, hacc⟩ := hsync.1 (by decide +kernel)
  have hrej : (aheadStore.set ⟨1, 5⟩ "k" (some 2) none (some 5)).1 = false := by decide
  exact absurd (hacc.symm.trans hrej) (by decide)

end DLStorage
