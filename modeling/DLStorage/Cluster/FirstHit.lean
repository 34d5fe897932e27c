import DLStorage.Cluster.Register
import DLStorage.Consistency.Fhw

/-!
# The register under first-hit-wins

Nodes of one cluster may resolve their reads under different policies.  When everyone answers, the replicas of a key
all hold its last write or have dropped it after its expiry, so the first live version is also the newest: in a
sequential run a read under either policy is a read of a register, although one under first-hit-wins leaves replicas
unasked that the other one visits (`fhw_register`).
-/

namespace DLStorage

open Base (Schedule after after_invariant)

variable {V τ : Type}

/-- An event of the cluster; a read is resolved under first-hit-wins or under last-write-wins. -/
structure PolicyEvent (V τ : Type) where
  fhw : Bool
  event : ClusterEvent V τ

abbrev PolicyRun (V τ : Type) := List (PolicyEvent V τ)

/-- The events without the policies. -/
def PolicyRun.events (run : PolicyRun V τ) : ClusterRun V τ := run.map PolicyEvent.event

variable [LinearOrder τ] [Add τ]

section Model

variable (sha256 : String → List UInt8)

/-- `get` of a node of this kind under one of the policies. -/
def NodeKind.getUnder (fhw : Bool) (view : NodeView) (clock : NodeInfo → Clock τ) (key : String) (stores : Stores V τ)
    (kind : NodeKind V τ) : PyObj V × Stores V τ :=
  if fhw then
    match kind with
    | blocking => (view.syncFhw allAnswer).get sha256 clock key stores
    | async _ _ => AsyncStorageNode.get sha256 (view.asyncFhw allAnswer) clock key stores
  else kind.get sha256 view clock key stores allAnswer

variable (ring : RendezvousRing) (replication : Nat)

/-- The stores after an event. -/
def PolicyEvent.apply (stores : Stores V τ) (e : PolicyEvent V τ) : Stores V τ :=
  match e.event with
  | .get issuer kind clock key => (kind.getUnder sha256 e.fhw ⟨issuer, ring, replication⟩ clock key stores).2
  | event => event.apply sha256 ring replication stores

/-- The stores after a run that starts with empty stores. -/
def policyAfter (run : PolicyRun V τ) : Stores V τ :=
  after (fun stores e => e.apply sha256 ring replication stores) (fun _ => LocalLWWStore.empty) run

end Model

variable {sha256 : String → List UInt8} {ring : RendezvousRing} {replication : Nat}

theorem NodeKind.getUnder_fhw (kind : NodeKind V τ) (view : NodeView) (clock : NodeInfo → Clock τ) (key : String)
    (stores : Stores V τ) :
    kind.getUnder sha256 true view clock key stores = (view.syncFhw allAnswer).get sha256 clock key stores := by
  cases kind with
  | blocking => rfl
  | async read write => exact NodeView.asyncFhw_get sha256 view allAnswer clock key stores

/-! ### Every event keeps what the replicas hold -/

/-- What an event does to the entry of a key at a replica does not depend on the policy. -/
private theorem entry_policy (e : PolicyEvent V τ) (stores : Stores V τ) (n : NodeInfo) (k : String) :
    (∃ w, e.event.issued = some w ∧ w.key = k ∧ n ∈ e.event.replicas sha256 ring replication ∧
      (e.apply sha256 ring replication stores n).entry k =
        if (stores n).Admits k w.ts then some (w.entry (e.event.clock n)) else (stores n).entry k) ∨
    ((∀ w, e.event.issued = some w → ¬ (w.key = k ∧ n ∈ e.event.replicas sha256 ring replication)) ∧
      ((e.apply sha256 ring replication stores n).entry k = (stores n).entry k ∨
        e.event.Drops sha256 ring replication stores (e.apply sha256 ring replication stores) n k)) := by
  have hevent := e.event.entry_apply sha256 ring replication stores n k
  obtain ⟨fhw, event⟩ := e
  cases event with
  | set i kind clock key value ttl => exact hevent
  | delete i kind clock key => exact hevent
  | purge m c => exact hevent
  | get i kind clock key =>
    cases fhw with
    | false => exact hevent
    | true =>
      refine Or.inr ⟨fun w hw => (by cases hw), ?_⟩
      let view : NodeView := ⟨i, ring, replication⟩
      have hs : (PolicyEvent.mk true (.get i kind clock key) : PolicyEvent V τ).apply sha256 ring replication stores =
          view.afterHit sha256 allAnswer clock key stores := by
        show (kind.getUnder sha256 true view clock key stores).2 = _
        rw [NodeKind.getUnder_fhw, NodeView.syncFhw_get]
      rw [hs]
      by_cases hn : n ∈ view.asked sha256 allAnswer clock key stores
      · have hreplica : n ∈ view.replicas sha256 key := Base.through_subset _ hn
        have hafter : view.afterHit sha256 allAnswer clock key stores n =
            ((stores n).getVersioned (clock n) key).2 := if_pos ⟨hn, Or.inr rfl⟩
        rcases (stores n).evicts_getVersioned (clock n) key k with hsame | ⟨hnone, old, hold, hswept⟩
        · left
          rw [hafter]
          exact hsame
        · right
          obtain ⟨x, hx, hle⟩ := Entry.expiresAt_of_sweepable hswept
          refine ⟨?_, old, x, _, hold, hx, if_pos hreplica, hle⟩
          rw [hafter]
          exact hnone
      · left
        have hafter : view.afterHit sha256 allAnswer clock key stores n = stores n := if_neg (fun h => hn h.1)
        rw [hafter]

/-- `Held` as a property of a run and the stores that it leads to. -/
private def HeldUnder (sha256 : String → List UInt8) (ring : RendezvousRing) (replication : Nat) (k : String)
    (n : NodeInfo) (past : PolicyRun V τ) (stores : Stores V τ) : Prop :=
  Held sha256 ring replication k past.events n (stores n)

private theorem held_policy {k : String} {run : PolicyRun V τ}
    (hstamps : run.events.Pairwise fun e e' => ∀ w w', e.issued = some w → e'.issued = some w' → w.ts ≤ w'.ts)
    {n : NodeInfo}
    (hreach : ∀ e ∈ run.events, ∀ w, e.issued = some w → w.key = k → n ∈ e.replicas sha256 ring replication) :
    Held sha256 ring replication k run.events n (policyAfter sha256 ring replication run n) := by
  have hinv : HeldUnder sha256 ring replication k n run (policyAfter sha256 ring replication run) := by
    refine after_invariant (C := fun (past : PolicyRun V τ) (e : PolicyEvent V τ) =>
      (∀ e₀ ∈ past.events, ∀ w₀ w, e₀.issued = some w₀ → e.event.issued = some w → w₀.ts ≤ w.ts) ∧
        ∀ w, e.event.issued = some w → w.key = k → n ∈ e.event.replicas sha256 ring replication) ?_ ?_ ?_
    · exact (rfl : LocalLWWStore.empty.entry k = none)
    · intro past e hC h
      unfold HeldUnder PolicyRun.events at h ⊢
      rw [List.map_append, List.map_singleton]
      exact held_step (entry_policy e _ n k) hC.1 hC.2 h
    · intro pre e post hrun
      rw [hrun] at hstamps hreach
      unfold PolicyRun.events at hstamps hreach
      rw [List.map_append, List.map_cons] at hstamps hreach
      refine ⟨?_, hreach e.event (by simp)⟩
      intro e₀ he₀ w₀ w hw₀ hw
      exact (List.pairwise_append.1 hstamps).2.2 e₀ he₀ e.event (List.mem_cons_self ..) w₀ w hw₀ hw
  exact hinv

/-! ### Reads of replicas that agree -/

/-- When all replicas that report a version report the same, both policies return its value, and `None` when none does.
-/
private theorem getUnder_of_agree (fhw : Bool) (kind : NodeKind V τ) {view : NodeView} {clock : NodeInfo → Clock τ}
    {k : String} {stores : Stores V τ} {m : Versioned V} (hpos : 0 ≤ m.ts)
    (hagree : ∀ n ∈ view.replicas sha256 k, ∀ r, view.reported allAnswer clock k stores n = some r → r = m) :
    ((∃ n ∈ view.replicas sha256 k, view.reported allAnswer clock k stores n = some m) →
        (kind.getUnder sha256 fhw view clock k stores).1 = visible (some m)) ∧
      ((∀ n ∈ view.replicas sha256 k, view.reported allAnswer clock k stores n = none) →
        (kind.getUnder sha256 fhw view clock k stores).1 = none) := by
  cases fhw with
  | false =>
    constructor
    · rintro ⟨n, hn, hm⟩
      refine kind.get_fst sha256 view clock stores (fun sched => ?_)
      refine NodeView.get_of_newest sha256 view allAnswer clock k stores sched hn hm hpos ?_
      intro n' hn' r hr
      rw [hagree n' hn' r hr]
      exact ⟨le_refl _, fun _ => rfl⟩
    · intro hnone
      exact kind.get_fst sha256 view clock stores (fun sched =>
        NodeView.get_of_none sha256 view allAnswer clock k stores sched hnone)
  | true =>
    rw [NodeKind.getUnder_fhw, NodeView.syncFhw_get]
    constructor
    · rintro ⟨n, hn, hm⟩
      cases hhit : view.hit sha256 allAnswer clock k stores with
      | none =>
        have htomb := (NodeView.hit_eq_none_iff sha256 view allAnswer clock k stores).1 hhit n hn m hm
        simp [visible, htomb]
      | some m' =>
        obtain ⟨pre, q, post, hsplit, -, hm', hlive, -⟩ :=
          NodeView.exists_of_hit sha256 view allAnswer clock k stores hhit
        obtain rfl := hagree q (by rw [hsplit]; simp) m' hm'
        simp [visible, hlive]
    · intro hnone
      have hhit : view.hit sha256 allAnswer clock k stores = none := by
        rw [NodeView.hit_eq_none_iff]
        intro n hn r hr
        rw [hnone n hn] at hr
        cases hr
      rw [hhit]
      rfl

/-- When no replica reports the only version that one may report, a read under either policy returns `None`. -/
private theorem getUnder_of_unreported {fhw : Bool} {kind : NodeKind V τ} {view : NodeView} {clock : NodeInfo → Clock τ}
    {k : String} {stores : Stores V τ} {m : Versioned V} (hpos : 0 ≤ m.ts)
    (hagree : ∀ n ∈ view.replicas sha256 k, ∀ r, view.reported allAnswer clock k stores n = some r → r = m)
    (hm : ∀ n ∈ view.replicas sha256 k, view.reported allAnswer clock k stores n ≠ some m) :
    (kind.getUnder sha256 fhw view clock k stores).1 = none := by
  apply (getUnder_of_agree fhw kind hpos hagree).2
  intro n hn
  cases hr : view.reported allAnswer clock k stores n with
  | none => rfl
  | some r =>
    rw [hagree n hn r hr] at hr
    exact absurd hr (hm n hn)

/-- In a sequential run in which everyone answers and nodes resolve their reads under either policy, every read is a
read of a register, when the ring is not empty or one node issues all calls. -/
theorem fhw_register {sha256 : String → List UInt8} {ring : RendezvousRing} {replication : Nat} (hpos : 0 < replication)
    {run : PolicyRun V τ} (hseq : run.events.Sequential sha256 ring replication) (hrouted : run.events.Routed ring)
    {pre post : PolicyRun V τ} {fhw : Bool} {i : NodeInfo} {kind : NodeKind V τ} {clock : NodeInfo → Clock τ}
    {k : String} (hrun : run = pre ++ ⟨fhw, .get i kind clock k⟩ :: post) :
    ReadsRegister k pre.events ((NodeView.mk i ring replication).replicas sha256 k) clock
      (kind.getUnder sha256 fhw ⟨i, ring, replication⟩ clock k (policyAfter sha256 ring replication pre)).1 := by
  let view : NodeView := ⟨i, ring, replication⟩
  let stores := policyAfter sha256 ring replication pre
  have hevents : run.events = pre.events ++ .get i kind clock k :: post.events := by
    rw [hrun]
    simp [PolicyRun.events]
  -- every replica of the view holds the last write on `k`, unless it has expired there
  have hheld : ∀ n ∈ view.replicas sha256 k, Held sha256 ring replication k pre.events n (stores n) :=
    fun n hn => held_policy (hseq.stamps_before hevents) (hrouted.replicas_before hevents hn hpos)
  unfold ReadsRegister
  cases hlast : lastWrite k pre.events with
  | none =>
    have hnone : ∀ n ∈ view.replicas sha256 k, view.reported allAnswer clock k stores n = none :=
      fun n hn => unreported_of_no_write hheld hlast hn
    have hagree : ∀ n ∈ view.replicas sha256 k, ∀ r, view.reported allAnswer clock k stores n = some r →
        r = ⟨none, 0, false⟩ := by
      intro n hn r hr
      rw [hnone n hn] at hr
      cases hr
    exact (getUnder_of_agree fhw kind (le_refl _) hagree).2 hnone
  | some x =>
    obtain ⟨w, clock₀⟩ := x
    obtain ⟨e, -, hw, -⟩ := exists_of_lastWrite hlast
    have hagree : ∀ n ∈ view.replicas sha256 k, ∀ r, view.reported allAnswer clock k stores n = some r →
        r = w.version := fun n hn r hr => (version_of_reported hheld hlast hn hr).1
    have hts : 0 ≤ w.version.ts := by
      rw [Write.version_ts]
      exact issued_ts_nonneg hw
    have hfound : ∀ n ∈ view.replicas sha256 k, view.reported allAnswer clock k stores n = some w.version →
        (kind.getUnder sha256 fhw view clock k stores).1 = visible (some w.version) :=
      fun n hn hr => (getUnder_of_agree fhw kind hts hagree).1 ⟨n, hn, hr⟩
    cases w with
    | delete key ts =>
      -- a read that finds the tombstone returns `None` as one that finds nothing does
      by_cases h : ∃ n ∈ view.replicas sha256 k,
          view.reported allAnswer clock k stores n = some (Write.delete key ts : Write V τ).version
      · obtain ⟨n, hn, hr⟩ := h
        exact hfound n hn hr
      · exact getUnder_of_unreported hts hagree (fun n hn hr => h ⟨n, hn, hr⟩)
    | set key value ttl ts =>
      constructor
      · intro hlive
        obtain ⟨n, hn⟩ := List.exists_mem_of_ne_nil _ (view.replicas_ne_nil sha256 k)
        exact hfound n hn (reported_of_live hheld hlast hn (hseq.readings_before hevents hn) (hlive n hn))
      · rintro ⟨l, rfl, hdead⟩
        exact getUnder_of_unreported hts hagree (fun n hn => unreported_of_expired hheld hlast hn (hdead n hn))

/-- A set with a lifetime, a read under first-hit-wins that leaves the second replica unasked, and a read by an async
node of the same policy. -/
def firstHitRun : PolicyRun Nat Int :=
  [⟨false, .set (localhost 7001) .blocking (fun _ => ⟨0, 5⟩) "k" (some 1) (some 3)⟩,
    ⟨true, .get (localhost 7003) .blocking (fun _ => ⟨0, 5⟩) "k"⟩,
    ⟨true, .get (localhost 7002) (.async Schedule.inOrder Schedule.inOrder) (fun _ => ⟨0, 5⟩) "k"⟩]

private theorem firstHitRun_clock : ∀ e ∈ firstHitRun.events, ∀ n, e.clock n = ⟨0, 5⟩ := by
  intro e he n
  simp only [firstHitRun, PolicyRun.events, List.map_cons, List.map_nil, List.mem_cons, List.not_mem_nil,
    or_false] at he
  rcases he with rfl | rfl | rfl <;> rfl

/-- The second read of `firstHitRun` returns the value that was set. -/
theorem firstHitRun_reads :
    ((NodeKind.async Schedule.inOrder Schedule.inOrder : NodeKind Nat Int).getUnder sha256Digest true
      ⟨localhost 7002, localRing, 2⟩ (fun _ => ⟨0, 5⟩) "k"
      (policyAfter sha256Digest localRing 2 (firstHitRun.take 2))).1 = some 1 := by
  have hrun : firstHitRun = firstHitRun.take 2 ++
      ⟨true, .get (localhost 7002) (.async Schedule.inOrder Schedule.inOrder) (fun _ => ⟨0, 5⟩) "k"⟩ :: [] := rfl
  refine (fhw_register (by decide) (ClusterRun.sequential_of_constant firstHitRun_clock) (Or.inl (by decide)) hrun).1 ?_
  intro n _ l hl
  cases hl
  show (0 : Int) < 0 + 3
  decide

end DLStorage
