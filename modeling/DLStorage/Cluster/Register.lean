import DLStorage.Cluster.Calls

/-!
# The cluster as a register

Seen from outside the cluster is a register for every key: it holds the last write that was issued (`lastWrite`), and a
read returns its value until it expires.  The replicas of the key all hold the entry of the last write, each with the
expiry instant it computed, or have dropped it after that instant (`Held`); every event preserves this, and a read
follows it (`get_register`).
-/

namespace DLStorage

open Base (Schedule after after_invariant)

variable {V τ : Type}

abbrev ClusterRun (V τ : Type) := List (ClusterEvent V τ)

/-! ### The last write -/

/-- The write on `k` that an event issues, with the readings it takes. -/
def ClusterEvent.writes (k : String) (e : ClusterEvent V τ) : Option (Write V τ × (NodeInfo → Clock τ)) :=
  match e.issued with
  | some w => if w.key = k then some (w, e.clock) else none
  | none => none

/-- The last write on `k` that was issued. -/
def lastWrite (k : String) (run : ClusterRun V τ) : Option (Write V τ × (NodeInfo → Clock τ)) :=
  (run.filterMap (ClusterEvent.writes k)).getLast?

theorem ClusterEvent.writes_eq_some_iff {k : String} {e : ClusterEvent V τ}
    {x : Write V τ × (NodeInfo → Clock τ)} :
    e.writes k = some x ↔ e.issued = some x.1 ∧ x.1.key = k ∧ e.clock = x.2 := by
  obtain ⟨w, clock⟩ := x
  unfold writes
  cases hi : e.issued with
  | none => simp
  | some w' =>
    by_cases hk : w'.key = k
    · simp only [hk, if_true, Option.some.injEq, Prod.mk.injEq]
      constructor
      · rintro ⟨rfl, rfl⟩
        exact ⟨rfl, hk, rfl⟩
      · rintro ⟨rfl, -, rfl⟩
        exact ⟨rfl, rfl⟩
    · simp only [hk, if_false, Option.some.injEq]
      constructor
      · intro h
        cases h
      · rintro ⟨rfl, h, -⟩
        exact absurd h hk

theorem lastWrite_concat (k : String) (run : ClusterRun V τ) (e : ClusterEvent V τ) :
    lastWrite k (run ++ [e]) = (e.writes k).or (lastWrite k run) := by
  unfold lastWrite
  rw [List.filterMap_append, List.getLast?_append]
  cases h : e.writes k <;> simp [h]

theorem exists_of_lastWrite {k : String} {run : ClusterRun V τ} {x : Write V τ × (NodeInfo → Clock τ)}
    (h : lastWrite k run = some x) : ∃ e ∈ run, e.issued = some x.1 ∧ x.1.key = k ∧ e.clock = x.2 := by
  obtain ⟨e, he, hx⟩ := List.mem_filterMap.1 (List.mem_of_getLast? h)
  exact ⟨e, he, ClusterEvent.writes_eq_some_iff.1 hx⟩

/-! ### Runs and what a read of a register returns -/

variable [LinearOrder τ] [Add τ]

section Model

variable (sha256 : String → List UInt8) (ring : RendezvousRing) (replication : Nat)

/-- The stores after a run that starts with empty stores. -/
def clusterAfter (run : ClusterRun V τ) : Stores V τ :=
  after (fun stores e => e.apply sha256 ring replication stores) (fun _ => LocalLWWStore.empty) run

/-- The timestamps of the writes and the readings of every replica's monotonic clock never decrease along the run. -/
structure ClusterRun.Sequential (run : ClusterRun V τ) : Prop where
  stamps : run.Pairwise fun e e' => ∀ w w', e.issued = some w → e'.issued = some w' → w.ts ≤ w'.ts
  clocks : ∀ n, run.Pairwise fun e e' => ∀ t t', e.reading sha256 ring replication n = some t →
    e'.reading sha256 ring replication n = some t' → t ≤ t'

/-- The ring is not empty, or one node issues all calls. -/
def ClusterRun.Routed (run : ClusterRun V τ) : Prop :=
  ring.nodes ≠ [] ∨ ∃ i, ∀ e ∈ run, ∀ j, e.issuer = some j → j = i

/-- The result `v` of a read of `k` is that of a register after the given run: nothing when no write was issued or the
last one is a delete; the value of the last set while no replica's clock has reached the expiry instant that the replica
recorded, and nothing when all of them have passed it. -/
def ReadsRegister (k : String) (past : ClusterRun V τ) (replicas : List NodeInfo) (clock : NodeInfo → Clock τ)
    (v : PyObj V) : Prop :=
  match lastWrite k past with
  | none => v = none
  | some (.delete _ _, _) => v = none
  | some (.set _ value ttl _, clock₀) =>
    ((∀ n ∈ replicas, ∀ l, ttl = some l → (clock n).monotonic < (clock₀ n).monotonic + l) → v = value) ∧
      ((∃ l, ttl = some l ∧ ∀ n ∈ replicas, (clock₀ n).monotonic + l < (clock n).monotonic) → v = none)

/-- What a replica holds for `k` after a run: the entry of the last write, or nothing when a reading has reached the
expiry instant of that entry. -/
def Held (k : String) (past : ClusterRun V τ) (n : NodeInfo) (s : LocalLWWStore V τ) : Prop :=
  match lastWrite k past with
  | none => s.entry k = none
  | some (w, clock) =>
    s.entry k = some (w.entry (clock n)) ∨
      (s.entry k = none ∧ ∃ x, (w.entry (clock n)).expiresAt = some x ∧
        ∃ e ∈ past, ∃ t, e.reading sha256 ring replication n = some t ∧ x ≤ t)

end Model

variable {sha256 : String → List UInt8} {ring : RendezvousRing} {replication : Nat}

/-! ### The invariant -/

/-- An event keeps `Held` when it leads to stores in which a write that it issues was tried and other entries are left
or have been dropped after their expiry. -/
theorem held_step {k : String} {past : ClusterRun V τ} {e : ClusterEvent V τ} {stores stores' : Stores V τ}
    {n : NodeInfo} (hentry : (∃ w, e.issued = some w ∧ w.key = k ∧ n ∈ e.replicas sha256 ring replication ∧
        (stores' n).entry k = if (stores n).Admits k w.ts then some (w.entry (e.clock n)) else (stores n).entry k) ∨
      ((∀ w, e.issued = some w → ¬ (w.key = k ∧ n ∈ e.replicas sha256 ring replication)) ∧
        ((stores' n).entry k = (stores n).entry k ∨ e.Drops sha256 ring replication stores stores' n k)))
    (hstamps : ∀ e₀ ∈ past, ∀ w₀ w, e₀.issued = some w₀ → e.issued = some w → w₀.ts ≤ w.ts)
    (hreach : ∀ w, e.issued = some w → w.key = k → n ∈ e.replicas sha256 ring replication)
    (h : Held sha256 ring replication k past n (stores n)) :
    Held sha256 ring replication k (past ++ [e]) n (stores' n) := by
  unfold Held at h ⊢
  rw [lastWrite_concat]
  rcases hentry with
    ⟨w, hw, hk, -, hentry⟩ | ⟨hother, hentry⟩
  · -- the last write is admitted because it is not older than the one before
    have hwrites : e.writes k = some (w, e.clock) := ClusterEvent.writes_eq_some_iff.2 ⟨hw, hk, rfl⟩
    rw [hwrites, Option.some_or]
    refine Or.inl ?_
    rw [hentry, if_pos]
    cases hlast : lastWrite k past with
    | none =>
      rw [hlast] at h
      exact LocalLWWStore.admits_of_none h
    | some x =>
      obtain ⟨e₀, he₀, hw₀, -, -⟩ := exists_of_lastWrite hlast
      rw [hlast] at h
      rcases h with h | ⟨h, -⟩
      · exact (LocalLWWStore.admits_iff_of_some h).2 (hstamps e₀ he₀ x.1 w hw₀ hw)
      · exact LocalLWWStore.admits_of_none h
  · have hnone : e.writes k = none := by
      rw [Option.eq_none_iff_forall_not_mem]
      intro x hx
      obtain ⟨hw, hk, -⟩ := ClusterEvent.writes_eq_some_iff.1 hx
      exact hother x.1 hw ⟨hk, hreach x.1 hw hk⟩
    rw [hnone, Option.none_or]
    cases hlast : lastWrite k past with
    | none =>
      rw [hlast] at h
      rcases hentry with hsame | ⟨-, old, x, t, hold, -⟩
      · exact hsame.trans h
      · exact absurd (hold.symm.trans h) (by simp)
    | some x =>
      rw [hlast] at h
      rcases hentry with hsame | ⟨hdrop, old, x', t, hold, hx', ht, hle⟩
      · rw [hsame]
        rcases h with h | ⟨h, x', hx', e₀, he₀, ht⟩
        · exact Or.inl h
        · exact Or.inr ⟨h, x', hx', e₀, List.mem_append_left _ he₀, ht⟩
      · rcases h with h | ⟨h, -⟩
        · rw [Option.some.inj (hold.symm.trans h)] at hx'
          exact Or.inr ⟨hdrop, x', hx', e, by simp, t, ht, hle⟩
        · exact absurd (hold.symm.trans h) (by simp)

/-- `Held` as a property of a run and the stores that it leads to. -/
private def HeldAt (sha256 : String → List UInt8) (ring : RendezvousRing) (replication : Nat) (k : String)
    (n : NodeInfo) (past : ClusterRun V τ) (stores : Stores V τ) : Prop :=
  Held sha256 ring replication k past n (stores n)

private theorem held_after {k : String} {run : ClusterRun V τ}
    (hstamps : run.Pairwise fun e e' => ∀ w w', e.issued = some w → e'.issued = some w' → w.ts ≤ w'.ts)
    {n : NodeInfo}
    (hreach : ∀ e ∈ run, ∀ w, e.issued = some w → w.key = k → n ∈ e.replicas sha256 ring replication) :
    Held sha256 ring replication k run n (clusterAfter sha256 ring replication run n) := by
  have hinv : HeldAt sha256 ring replication k n run (clusterAfter sha256 ring replication run) := by
    refine after_invariant (C := fun (past : ClusterRun V τ) (e : ClusterEvent V τ) =>
      (∀ e₀ ∈ past, ∀ w₀ w, e₀.issued = some w₀ → e.issued = some w → w₀.ts ≤ w.ts) ∧
        ∀ w, e.issued = some w → w.key = k → n ∈ e.replicas sha256 ring replication) ?_
      (fun past e hC h => held_step (ClusterEvent.entry_apply sha256 ring replication e _ n k) hC.1 hC.2 h) ?_
    · exact (rfl : LocalLWWStore.empty.entry k = none)
    intro pre e post hrun
    rw [hrun] at hstamps hreach
    refine ⟨?_, hreach e (by simp)⟩
    intro e₀ he₀ w₀ w hw₀ hw
    exact (List.pairwise_append.1 hstamps).2.2 e₀ he₀ e (List.mem_cons_self ..) w₀ w hw₀ hw
  exact hinv

omit [LinearOrder τ] [Add τ] in
/-- The replicas of a write are those of the view of the node that issues it. -/
theorem replicas_of_issued (sha256 : String → List UInt8) (ring : RendezvousRing) (replication : Nat)
    {e : ClusterEvent V τ} {w : Write V τ} (h : e.issued = some w) :
    ∃ i, e.issuer = some i ∧
      e.replicas sha256 ring replication = (NodeView.mk i ring replication).replicas sha256 w.key := by
  cases e with
  | get i kind clock key => cases h
  | purge n c => cases h
  | set i kind clock key value ttl => cases h; exact ⟨i, rfl, rfl⟩
  | delete i kind clock key => cases h; exact ⟨i, rfl, rfl⟩

omit [LinearOrder τ] [Add τ] in
/-- With a routed run the replicas of a key do not depend on the issuer. -/
theorem replicas_eq_of_routed (hpos : 0 < replication) {run : ClusterRun V τ} (h : run.Routed ring)
    {e e' : ClusterEvent V τ} (he : e ∈ run) (he' : e' ∈ run) {i i' : NodeInfo} (hi : e.issuer = some i)
    (hi' : e'.issuer = some i') (k : String) :
    (NodeView.mk i ring replication).replicas sha256 k = (NodeView.mk i' ring replication).replicas sha256 k := by
  rcases h with hne | ⟨j, hj⟩
  · have hnodes : ring.getNodes sha256 k replication ≠ [] := by
      rw [Ne, RendezvousRing.getNodes_eq_nil_iff ring k hpos]
      exact hne
    rw [NodeView.replicas_of_ne sha256 ⟨i, ring, replication⟩ hnodes,
      NodeView.replicas_of_ne sha256 ⟨i', ring, replication⟩ hnodes]
  · rw [hj e he i hi, hj e' he' i' hi']

section Before

variable {run pre post : ClusterRun V τ} {i : NodeInfo} {kind : NodeKind V τ} {clock : NodeInfo → Clock τ} {k : String}
  (hrun : run = pre ++ .get i kind clock k :: post) {n : NodeInfo}
  (hn : n ∈ (NodeView.mk i ring replication).replicas sha256 k)

include hrun hn

omit [LinearOrder τ] [Add τ] in
/-- In a routed run every write on the key of a read goes to the replicas that the read visits. -/
theorem ClusterRun.Routed.replicas_before (hrouted : run.Routed ring) (hpos : 0 < replication) :
    ∀ e ∈ pre, ∀ w, e.issued = some w → w.key = k → n ∈ e.replicas sha256 ring replication := by
  intro e he w hw hk
  have hget : (.get i kind clock k : ClusterEvent V τ) ∈ run := by rw [hrun]; simp
  have he' : e ∈ run := by rw [hrun]; simp [he]
  obtain ⟨i', hi', hr⟩ := replicas_of_issued sha256 ring replication hw
  rw [hr, hk, replicas_eq_of_routed hpos hrouted he' hget hi' rfl k]
  exact hn

omit [Add τ] in
/-- In a sequential run the replicas of a read have read no later time before it. -/
theorem ClusterRun.Sequential.readings_before (hseq : run.Sequential sha256 ring replication) :
    ∀ e ∈ pre, ∀ t, e.reading sha256 ring replication n = some t → t ≤ (clock n).monotonic := by
  intro e he t ht
  have h := hseq.clocks n
  rw [hrun] at h
  exact (List.pairwise_append.1 h).2.2 e he _ (List.mem_cons_self ..) t _ ht (if_pos hn)

end Before

omit [Add τ] in
theorem ClusterRun.Sequential.stamps_before {run pre post : ClusterRun V τ}
    (hseq : run.Sequential sha256 ring replication) (hrun : run = pre ++ post) :
    pre.Pairwise fun e e' => ∀ w w', e.issued = some w → e'.issued = some w' → w.ts ≤ w'.ts := by
  have h := hseq.stamps
  rw [hrun] at h
  exact (List.pairwise_append.1 h).1

/-! ### Reads -/

section Read

variable {view : NodeView} {k : String} {past : ClusterRun V τ} {stores : Stores V τ} {clock : NodeInfo → Clock τ}
  (hheld : ∀ n ∈ view.replicas sha256 k, Held sha256 ring replication k past n (stores n))
  (sched : Schedule NodeInfo (LocalLWWStore V τ) PyError (Option (Versioned V)))

include hheld

theorem unreported_of_no_write (hlast : lastWrite k past = none) {n : NodeInfo} (hn : n ∈ view.replicas sha256 k) :
    view.reported allAnswer clock k stores n = none := by
  cases hr : view.reported allAnswer clock k stores n with
  | none => rfl
  | some r =>
    obtain ⟨e, he, -⟩ := LocalLWWStore.report_eq_some_iff.1 (NodeView.report_of_reported _ _ _ _ _ hr).2
    have h := hheld n hn
    unfold Held at h
    rw [hlast] at h
    exact absurd (he.symm.trans h) (by simp)

/-- What a replica reports is the version of the last write. -/
theorem version_of_reported {w : Write V τ} {clock₀ : NodeInfo → Clock τ}
    (hlast : lastWrite k past = some (w, clock₀)) {n : NodeInfo} (hn : n ∈ view.replicas sha256 k) {r : Versioned V}
    (hr : view.reported allAnswer clock k stores n = some r) :
    r = w.version ∧ (w.entry (clock₀ n)).readExpired (clock n).monotonic = false := by
  obtain ⟨e, he, hx, rfl⟩ := LocalLWWStore.report_eq_some_iff.1 (NodeView.report_of_reported _ _ _ _ _ hr).2
  have h := hheld n hn
  unfold Held at h
  rw [hlast] at h
  rcases h with h | ⟨h, -⟩
  · rw [Option.some.inj (he.symm.trans h)] at hx ⊢
    exact ⟨Write.entry_version _ _, hx⟩
  · exact absurd (he.symm.trans h) (by simp)

/-- If some replica reports the last write a read returns what it carries. -/
private theorem returns_of_last {w : Write V τ} {clock₀ : NodeInfo → Clock τ}
    (hlast : lastWrite k past = some (w, clock₀)) (hpos : 0 ≤ w.ts) {n : NodeInfo} (hn : n ∈ view.replicas sha256 k)
    (hr : view.reported allAnswer clock k stores n = some w.version) :
    view.Returns sha256 allAnswer clock k stores sched (visible (some w.version)) := by
  refine NodeView.get_of_newest sha256 view allAnswer clock k stores sched hn hr hpos ?_
  intro n' hn' r hr'
  rw [(version_of_reported hheld hlast hn' hr').1]
  exact ⟨le_refl _, fun _ => rfl⟩

/-- If no replica reports the last write a read returns `None`. -/
private theorem returns_none_of_unreported {w : Write V τ} {clock₀ : NodeInfo → Clock τ}
    (hlast : lastWrite k past = some (w, clock₀))
    (h : ∀ n ∈ view.replicas sha256 k, view.reported allAnswer clock k stores n ≠ some w.version) :
    view.Returns sha256 allAnswer clock k stores sched none := by
  apply NodeView.get_of_none
  intro n hn
  cases hr : view.reported allAnswer clock k stores n with
  | none => rfl
  | some r =>
    rw [(version_of_reported hheld hlast hn hr).1] at hr
    exact absurd hr (h n hn)

/-- A read after a delete returns `None`. -/
private theorem returns_none_of_delete {key : String} {ts : Int} {clock₀ : NodeInfo → Clock τ}
    (hlast : lastWrite k past = some (.delete key ts, clock₀)) (hpos : 0 ≤ ts) :
    view.Returns sha256 allAnswer clock k stores sched none := by
  by_cases h : ∃ n ∈ view.replicas sha256 k,
      view.reported allAnswer clock k stores n = some (Write.delete key ts : Write V τ).version
  · obtain ⟨n, hn, hr⟩ := h
    exact returns_of_last hheld sched hlast hpos hn hr
  · exact returns_none_of_unreported hheld sched hlast (fun n hn hr => h ⟨n, hn, hr⟩)

/-- A replica at which the last set has not expired reports it. -/
theorem reported_of_live {key : String} {value : PyObj V} {ttl : Option τ} {ts : Int}
    {clock₀ : NodeInfo → Clock τ} (hlast : lastWrite k past = some (.set key value ttl ts, clock₀)) {n : NodeInfo}
    (hn : n ∈ view.replicas sha256 k)
    (hclock : ∀ e ∈ past, ∀ t, e.reading sha256 ring replication n = some t → t ≤ (clock n).monotonic)
    (hlive : ∀ l, ttl = some l → (clock n).monotonic < (clock₀ n).monotonic + l) :
    view.reported allAnswer clock k stores n = some (Write.set key value ttl ts).version := by
  have h := hheld n hn
  unfold Held at h
  rw [hlast] at h
  rcases h with h | ⟨-, x, hx, e, he, t, ht, hle⟩
  · refine NodeView.reported_of_report view allAnswer clock k stores (NodeView.reaches_of_answers rfl) ?_ rfl
    refine LocalLWWStore.report_eq_some_iff.2 ⟨_, h, ?_, Write.entry_version _ _⟩
    cases ttl with
    | none => rfl
    | some l =>
      have hlt := hlive l rfl
      simp [Entry.readExpired, Write.entry, Write.ttl, le_of_lt hlt]
  · obtain ⟨l, rfl, rfl⟩ := Option.map_eq_some_iff.1 hx
    exact absurd (lt_of_lt_of_le (hlive l rfl) (le_trans hle (hclock e he t ht))) (lt_irrefl _)

/-- A replica at which the last set has expired does not report it. -/
theorem unreported_of_expired {key : String} {value : PyObj V} {l : τ} {ts : Int} {clock₀ : NodeInfo → Clock τ}
    (hlast : lastWrite k past = some (.set key value (some l) ts, clock₀)) {n : NodeInfo}
    (hn : n ∈ view.replicas sha256 k) (hdead : (clock₀ n).monotonic + l < (clock n).monotonic) :
    view.reported allAnswer clock k stores n ≠ some (Write.set key value (some l) ts).version := by
  intro hr
  have hlive := (version_of_reported hheld hlast hn hr).2
  simp [Entry.readExpired, Write.entry, Write.ttl, Write.stored, Stored.isTombstone, hdead] at hlive

end Read

omit [LinearOrder τ] [Add τ] in
theorem issued_ts_nonneg {e : ClusterEvent V τ} {w : Write V τ} (h : e.issued = some w) : 0 ≤ w.ts := by
  cases e with
  | get i kind clock key => cases h
  | purge n c => cases h
  | set i kind clock key value ttl => cases h; exact Int.natCast_nonneg _
  | delete i kind clock key => cases h; exact Int.natCast_nonneg _

/-- Every read in a sequential run is a read of a register, when the ring is not empty or one node issues all calls. -/
theorem get_register {sha256 : String → List UInt8} {ring : RendezvousRing} {replication : Nat} (hpos : 0 < replication)
    {run : ClusterRun V τ} (hseq : run.Sequential sha256 ring replication) (hrouted : run.Routed ring)
    {pre post : ClusterRun V τ} {i : NodeInfo} {kind : NodeKind V τ} {clock : NodeInfo → Clock τ} {k : String}
    (hrun : run = pre ++ .get i kind clock k :: post) :
    ReadsRegister k pre ((NodeView.mk i ring replication).replicas sha256 k) clock
      (kind.get sha256 ⟨i, ring, replication⟩ clock k (clusterAfter sha256 ring replication pre) allAnswer).1 := by
  let view : NodeView := ⟨i, ring, replication⟩
  let stores := clusterAfter sha256 ring replication pre
  -- every replica of the view holds the last write on `k`, unless it has expired there
  have hheld : ∀ n ∈ view.replicas sha256 k, Held sha256 ring replication k pre n (stores n) :=
    fun n hn => held_after (hseq.stamps_before hrun) (hrouted.replicas_before hrun hn hpos)
  unfold ReadsRegister
  cases hlast : lastWrite k pre with
  | none =>
    exact kind.get_fst sha256 view clock stores (fun sched =>
      NodeView.get_of_none sha256 view allAnswer clock k stores sched (fun n hn => unreported_of_no_write hheld hlast hn))
  | some x =>
    obtain ⟨w, clock₀⟩ := x
    obtain ⟨e, -, hw, -⟩ := exists_of_lastWrite hlast
    have hts := issued_ts_nonneg hw
    cases w with
    | delete key ts =>
      exact kind.get_fst sha256 view clock stores (fun sched => returns_none_of_delete hheld sched hlast hts)
    | set key value ttl ts =>
      constructor
      · intro hlive
        obtain ⟨n, hn⟩ := List.exists_mem_of_ne_nil _ (view.replicas_ne_nil sha256 k)
        exact kind.get_fst sha256 view clock stores (fun sched => returns_of_last hheld sched hlast hts hn
          (reported_of_live hheld hlast hn (hseq.readings_before hrun hn) (hlive n hn)))
      · rintro ⟨l, rfl, hdead⟩
        exact kind.get_fst sha256 view clock stores (fun sched => returns_none_of_unreported hheld sched hlast
          (fun n hn => unreported_of_expired hheld hlast hn (hdead n hn)))

omit [Add τ] in
/-- A run in which every reading is the same is sequential. -/
theorem ClusterRun.sequential_of_constant {run : ClusterRun V τ} {c : Clock τ} (h : ∀ e ∈ run, ∀ n, e.clock n = c) :
    run.Sequential sha256 ring replication := by
  have hts : ∀ e ∈ run, ∀ w, e.issued = some w → w.ts = c.timeNs := by
    intro e he w hw
    cases e with
    | get i kind clock key => cases hw
    | purge n c => cases hw
    | set i kind clock key value ttl =>
      cases hw
      exact congrArg (fun c : Clock τ => (c.timeNs : Int)) (h _ he i)
    | delete i kind clock key =>
      cases hw
      exact congrArg (fun c : Clock τ => (c.timeNs : Int)) (h _ he i)
  have hclock : ∀ n, ∀ e ∈ run, ∀ t, e.reading sha256 ring replication n = some t → t = c.monotonic := by
    intro n e he t ht
    rw [ClusterEvent.reading, Option.ite_none_right_eq_some] at ht
    rw [← Option.some.inj ht.2, h e he n]
  constructor
  · rw [List.pairwise_iff_forall_sublist]
    intro e e' hsub w w' hw hw'
    rw [hts e (hsub.subset (by simp)) w hw, hts e' (hsub.subset (by simp)) w' hw']
  · intro n
    rw [List.pairwise_iff_forall_sublist]
    intro e e' hsub t t' ht ht'
    rw [hclock n e (hsub.subset (by simp)) t ht, hclock n e' (hsub.subset (by simp)) t' ht']

/-- A set with a lifetime issued by one node, a sweep, and a read at another node. -/
def sharedRun : ClusterRun Nat Int :=
  [.set (localhost 7001) .blocking (fun _ => ⟨0, 5⟩) "k" (some 1) (some 3), .purge (localhost 7003) ⟨0, 5⟩,
    .get (localhost 7002) (.async Schedule.inOrder Schedule.inOrder) (fun _ => ⟨0, 5⟩) "k"]

private theorem sharedRun_clock : ∀ e ∈ sharedRun, ∀ n, e.clock n = ⟨0, 5⟩ := by
  intro e he n
  simp only [sharedRun, List.mem_cons, List.not_mem_nil, or_false] at he
  rcases he with rfl | rfl | rfl <;> rfl

/-- The read of `sharedRun` returns the value that was set. -/
theorem sharedRun_reads :
    ((NodeKind.async Schedule.inOrder Schedule.inOrder : NodeKind Nat Int).get sha256Digest
      ⟨localhost 7002, localRing, 2⟩ (fun _ => ⟨0, 5⟩) "k"
      (clusterAfter sha256Digest localRing 2 (sharedRun.take 2)) allAnswer).1 = some 1 := by
  have hrun : sharedRun = sharedRun.take 2 ++ .get (localhost 7002) (.async Schedule.inOrder Schedule.inOrder)
      (fun _ => ⟨0, 5⟩) "k" :: [] := rfl
  refine (get_register (by decide) (ClusterRun.sequential_of_constant sharedRun_clock) (Or.inl (by decide)) hrun).1 ?_
  intro n _ l hl
  cases hl
  show (0 : Int) < 0 + 3
  decide

/-- A set and a read issued by two nodes with an empty ring. -/
def unroutedRun : ClusterRun Nat Int :=
  [.set (localhost 7001) .blocking (fun _ => ⟨0, 5⟩) "k" (some 1) none,
    .get (localhost 7002) .blocking (fun _ => ⟨0, 5⟩) "k"]

private theorem unroutedRun_clock : ∀ e ∈ unroutedRun, ∀ n, e.clock n = ⟨0, 5⟩ := by
  intro e he n
  simp only [unroutedRun, List.mem_cons, List.not_mem_nil, or_false] at he
  rcases he with rfl | rfl <;> rfl

/-- With an empty ring a node does not see what another one has set. -/
theorem unroutedRun_misses :
    unroutedRun.Sequential sha256Digest RendezvousRing.empty 1 ∧
      ¬ ReadsRegister "k" (unroutedRun.take 1)
        ((NodeView.mk (localhost 7002) RendezvousRing.empty 1).replicas sha256Digest "k") (fun _ => ⟨0, 5⟩)
        ((NodeKind.blocking : NodeKind Nat Int).get sha256Digest ⟨localhost 7002, RendezvousRing.empty, 1⟩
          (fun _ => ⟨0, 5⟩) "k" (clusterAfter sha256Digest RendezvousRing.empty 1 (unroutedRun.take 1))
          allAnswer).1 := by
  refine ⟨ClusterRun.sequential_of_constant unroutedRun_clock, ?_⟩
  intro h
  have hread := h.1 (fun n _ l hl => by cases hl)
  exact absurd hread (by decide +kernel)

end DLStorage
