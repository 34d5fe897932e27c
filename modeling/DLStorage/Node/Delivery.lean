import DLStorage.Node.Reads
import DLStorage.Store.Writes

/-!
# Reads under arbitrary delivery

Every replica has been given some of the writes, in some order and with repetitions.  As long as no write has a
lifetime and different writes on a key have different timestamps, a read returns what the newest write carries among
those given to a replica that it reaches (`get_newest_delivered`).
-/

namespace DLStorage

open Base (Schedule latest)

variable {V τ : Type}

/-- The writes given to each replica. -/
abbrev Delivered (V τ : Type) := NodeInfo → Deliveries V τ

namespace Delivered

variable (delivered : Delivered V τ)

/-- The store of each replica. -/
def stores [Add τ] : Stores V τ := fun n => replay (delivered n)

/-- Some replica was given the write. -/
def Sent (w : Write V τ) : Prop := ∃ n c, (c, w) ∈ delivered n

/-- No write has a lifetime, timestamps are such as `time_ns` produces, and different writes on a key have different
timestamps. -/
structure WellStamped : Prop where
  permanent : ∀ w, delivered.Sent w → w.ttl = none
  positive : ∀ w, delivered.Sent w → 1 ≤ w.ts
  distinct : ∀ w w', delivered.Sent w → delivered.Sent w' → w.key = w'.key → w.ts = w'.ts → w = w'

/-- A replica that the read reaches was given the write, and the write is on the key. -/
def Heard (sha256 : String → List UInt8) (view : NodeView) (link : NodeInfo → Link) (key : String) (w : Write V τ) :
    Prop :=
  ∃ n ∈ view.replicas sha256 key, view.Reaches link n ∧ w ∈ (delivered n).on key

variable {delivered}

theorem sent_of_on {n : NodeInfo} {key : String} {w : Write V τ} (h : w ∈ (delivered n).on key) :
    delivered.Sent w := by
  obtain ⟨⟨c, hc⟩, -⟩ := Deliveries.mem_on.1 h
  exact ⟨n, c, hc⟩

theorem WellStamped.permanent_at (h : delivered.WellStamped) (n : NodeInfo) : (delivered n).Permanent :=
  fun x hx => h.permanent x.2 ⟨n, x.1, hx⟩

theorem WellStamped.stamped [Add τ] (h : delivered.WellStamped) (n : NodeInfo) : (delivered.stores n).Stamped := by
  intro k e he
  rw [stores, entry_replay (h.permanent_at n)] at he
  obtain ⟨w, hw, rfl⟩ := Option.map_eq_some_iff.1 he
  exact h.positive w (sent_of_on (Base.best_mem hw))

variable [LinearOrder τ] [Add τ]

/-- A reached replica reports the newest write on the key that it was given. -/
theorem WellStamped.reported_eq (h : delivered.WellStamped) (view : NodeView) (link : NodeInfo → Link)
    (clock : NodeInfo → Clock τ) (key : String) (n : NodeInfo) :
    view.reported link clock key delivered.stores n =
      if view.Reaches link n then (latest Write.ts ((delivered n).on key)).map Write.version else none := by
  rw [NodeView.reported_of_stamped view link clock key _ (h.stamped n)]
  unfold stores
  rw [report_replay (h.permanent_at n)]

variable {sha256 : String → List UInt8} {view : NodeView} {link : NodeInfo → Link} {key : String}

/-- A reported version is that of a write heard of. -/
private theorem WellStamped.heard_of_reported (h : delivered.WellStamped) {clock : NodeInfo → Clock τ} {n : NodeInfo}
    (hn : n ∈ view.replicas sha256 key) {r : Versioned V}
    (hr : view.reported link clock key delivered.stores n = some r) :
    ∃ w, delivered.Heard sha256 view link key w ∧ w.version = r := by
  rw [h.reported_eq] at hr
  split at hr
  · rename_i hreach
    obtain ⟨w, hw, rfl⟩ := Option.map_eq_some_iff.1 hr
    exact ⟨w, ⟨n, hn, hreach, Base.best_mem hw⟩, rfl⟩
  · cases hr

/-- A newest of the writes heard of is reported. -/
private theorem WellStamped.reported_of_newest (h : delivered.WellStamped) (clock : NodeInfo → Clock τ) {w : Write V τ}
    (hw : delivered.Heard sha256 view link key w)
    (hmax : ∀ w', delivered.Heard sha256 view link key w' → w'.ts ≤ w.ts) :
    ∃ n ∈ view.replicas sha256 key, view.reported link clock key delivered.stores n = some w.version := by
  obtain ⟨n, hn, hreach, hon⟩ := hw
  refine ⟨n, hn, ?_⟩
  rw [h.reported_eq, if_pos hreach]
  have hlatest : latest Write.ts ((delivered n).on key) = some w := by
    refine Base.latest_of_max hon (fun x hx => hmax x ⟨n, hn, hreach, hx⟩) ?_
    intro x hx hts
    have hkey : x.key = w.key := (Deliveries.mem_on.1 hx).2.trans (Deliveries.mem_on.1 hon).2.symm
    exact h.distinct x w (sent_of_on hx) (sent_of_on hon) hkey hts
  rw [hlatest]
  rfl

end Delivered

theorem visible_version (w : Write V τ) : visible (some w.version) = w.carried := by
  cases w <;> rfl

variable [LinearOrder τ] [Add τ]

/-- A read returns what the newest write on the key carries among those given to the replicas it reaches, and `None`
when there is none. -/
theorem get_newest_delivered {delivered : Delivered V τ} (h : delivered.WellStamped) (sha256 : String → List UInt8)
    (view : NodeView) (link : NodeInfo → Link) (clock : NodeInfo → Clock τ) (key : String)
    (sched : Schedule NodeInfo (LocalLWWStore V τ) PyError (Option (Versioned V))) :
    (∀ w, delivered.Heard sha256 view link key w →
      (∀ w', delivered.Heard sha256 view link key w' → w'.ts ≤ w.ts) →
      view.Returns sha256 link clock key delivered.stores sched w.carried) ∧
    ((∀ w, ¬ delivered.Heard sha256 view link key w) →
      view.Returns sha256 link clock key delivered.stores sched none) := by
  constructor
  · intro w hw hmax
    obtain ⟨n, hn, hrep⟩ := h.reported_of_newest clock hw hmax
    have hpos : 0 ≤ w.version.ts := by
      obtain ⟨n', -, -, hon⟩ := hw
      have := h.positive w (Delivered.sent_of_on hon)
      rw [Write.version_ts]
      omega
    rw [← visible_version]
    refine NodeView.get_of_newest sha256 view link clock key _ sched hn hrep hpos ?_
    intro n' hn' r hr
    obtain ⟨w', hw', rfl⟩ := h.heard_of_reported hn' hr
    refine ⟨hmax w' hw', ?_⟩
    intro hts
    obtain ⟨n₁, -, -, hon⟩ := hw
    obtain ⟨n₂, -, -, hon'⟩ := hw'
    have hkey : w'.key = w.key := (Deliveries.mem_on.1 hon').2.trans (Deliveries.mem_on.1 hon).2.symm
    rw [h.distinct w' w (Delivered.sent_of_on hon') (Delivered.sent_of_on hon) hkey hts]
  · intro hnone
    apply NodeView.get_of_none
    intro n hn
    cases hr : view.reported link clock key delivered.stores n with
    | none => rfl
    | some r =>
      obtain ⟨w, hw, -⟩ := h.heard_of_reported hn hr
      exact absurd hw (hnone w)

/-- A replica that was given an old set, and one that was given a newer set between two copies of a delete. -/
def sampleDelivered : Delivered Nat Int := fun n =>
  if n = localhost 7001 then [(⟨0, 0⟩, .set "k" (some 1) none 5)]
  else if n = localhost 7003 then
    [(⟨0, 0⟩, .delete "k" 6), (⟨1, 0⟩, .set "k" (some 2) none 7), (⟨2, 0⟩, .delete "k" 6)]
  else []

private theorem sampleDelivered_sent {w : Write Nat Int} (h : sampleDelivered.Sent w) :
    w = .set "k" (some 1) none 5 ∨ w = .delete "k" 6 ∨ w = .set "k" (some 2) none 7 := by
  obtain ⟨n, c, h⟩ := h
  unfold sampleDelivered at h
  split at h
  · simp only [List.mem_singleton, Prod.mk.injEq] at h
    exact Or.inl h.2
  · split at h
    · simp only [List.mem_cons, List.not_mem_nil, or_false, Prod.mk.injEq] at h
      rcases h with ⟨-, rfl⟩ | ⟨-, rfl⟩ | ⟨-, rfl⟩ <;> simp
    · cases h

/-- A read at the first replica, with the second one answering, returns the value of the newer set. -/
theorem get_sampleDelivered :
    (NodeView.mk (localhost 7001) localRing 2).Returns sha256Digest (fun _ => .answers) (fun _ => ⟨3, 9⟩) "k"
      sampleDelivered.stores Schedule.inOrder (some 2) := by
  have hwell : sampleDelivered.WellStamped := by
    constructor
    · intro w hw
      rcases sampleDelivered_sent hw with rfl | rfl | rfl <;> rfl
    · intro w hw
      rcases sampleDelivered_sent hw with rfl | rfl | rfl <;> decide
    · intro w w' hw hw' _ hts
      rcases sampleDelivered_sent hw with rfl | rfl | rfl <;> rcases sampleDelivered_sent hw' with rfl | rfl | rfl <;>
        first | rfl | exact absurd hts (by decide)
  refine (get_newest_delivered hwell sha256Digest ⟨localhost 7001, localRing, 2⟩ (fun _ => .answers) (fun _ => ⟨3, 9⟩)
    "k" Schedule.inOrder).1 (.set "k" (some 2) none 7) ?_ ?_
  · refine ⟨localhost 7003, by rw [NodeView.replicas_localRing]; decide, Or.inr rfl, ?_⟩
    exact Deliveries.mem_on.2 ⟨⟨⟨1, 0⟩, by decide⟩, rfl⟩
  · rintro w ⟨n, -, -, hon⟩
    rcases sampleDelivered_sent (Delivered.sent_of_on hon) with rfl | rfl | rfl <;> decide

end DLStorage
