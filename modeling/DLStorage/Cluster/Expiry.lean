import DLStorage.Cluster.Calls

/-!
# What an expired version uncovers

Writes reach some replicas and not others, replicas sweep, and nodes with any views read while any of the replicas
answer.  A replica whose version has expired reports nothing, so a read cannot tell it from one that never had a
version, and an older value held elsewhere may win.  `noUncovering_iff` tells exactly when no read of a run returns a
value that is older than a write which one of the replicas that answer had accepted; without lifetimes none does
(`noUncovering_of_permanent`).
-/

namespace DLStorage

open Base (after after_invariant split_concat)

variable {V τ : Type} [LinearOrder τ]

/-! ### One read -/

namespace NodeView

section Read

variable (sha256 : String → List UInt8) (view : NodeView) (link : NodeInfo → Link) (clock : NodeInfo → Clock τ)
  (k : String) (stores : Stores V τ)

/-- The entry of a replica that takes part in a read: the replica is reached, the entry has not expired, and on the wire
it is not a tombstone without a positive timestamp. -/
def Shows (q : NodeInfo) (e : Entry V τ) : Prop :=
  view.Reaches link q ∧ (stores q).entry k = some e ∧ e.readExpired (clock q).monotonic = false ∧
    (q = view.info ∨ e.version.sendable = true)

/-- Another replica shows a newer entry, or an equally new one and stands earlier in the ring order. -/
def Outranked (q : NodeInfo) (e : Entry V τ) : Prop :=
  ∃ q' ∈ view.replicas sha256 k, ∃ e', view.Shows link clock k stores q' e' ∧
    (e.ts < e'.ts ∨
      (e'.ts = e.ts ∧ (view.replicas sha256 k).idxOf q' < (view.replicas sha256 k).idxOf q))

/-- A value that a read may return; on a ring that is not empty its timestamp is not negative. -/
def Live (e : Entry V τ) : Prop :=
  e.stored.isTombstone = false ∧ (view.ring.getNodes sha256 k view.replication = [] ∨ 0 ≤ e.ts)

/-- Replica `r` shows no entry as new as `T`. -/
def Lost (r : NodeInfo) (T : Int) : Prop := ∀ e, view.Shows link clock k stores r e → e.ts < T

variable {view link clock k stores}

theorem reported_eq_some_iff {q : NodeInfo} {m : Versioned V} :
    view.reported link clock k stores q = some m ↔ ∃ e, view.Shows link clock k stores q e ∧ e.version = m := by
  constructor
  · intro h
    obtain ⟨hreach, hreport⟩ := report_of_reported view link clock k stores h
    obtain ⟨e, he, hx, rfl⟩ := LocalLWWStore.report_eq_some_iff.1 hreport
    refine ⟨e, ⟨hreach, he, hx, ?_⟩, rfl⟩
    by_cases hq : q = view.info
    · exact Or.inl hq
    · rw [reported, if_neg hq, hreport] at h
      split at h
      · exact Or.inr (Option.filter_eq_some_iff.1 h).2
      · cases h
  · rintro ⟨e, ⟨hreach, he, hx, hsend⟩, rfl⟩
    have hreport : (stores q).report (clock q).monotonic k = some e.version :=
      LocalLWWStore.report_eq_some_iff.2 ⟨e, he, hx, rfl⟩
    rcases hsend with rfl | hsend
    · rw [reported_self, hreport]
    · exact reported_of_report view link clock k stores hreach hreport hsend

variable {sha256}

/-- A read returns the value of a live entry that is not outranked. -/
theorem returned_of_not_outranked {q : NodeInfo} {e : Entry V τ} (hq : q ∈ view.replicas sha256 k)
    (hshow : view.Shows link clock k stores q e) (hlive : view.Live sha256 k e)
    (hrank : ¬ view.Outranked sha256 link clock k stores q e) :
    view.returned sha256 link clock k stores = some e.version := by
  rw [returned_eq_some_iff, Entry.version_isTombstone, Entry.version_ts]
  refine ⟨hlive.1, hlive.2, q, hq, reported_eq_some_iff.2 ⟨e, hshow, rfl⟩, ?_⟩
  intro q' hq' m' hm'
  obtain ⟨e', hshow', rfl⟩ := reported_eq_some_iff.1 hm'
  rw [Entry.version_ts]
  constructor
  · by_contra hlt
    exact hrank ⟨q', hq', e', hshow', Or.inl (not_le.1 hlt)⟩
  · intro hts
    by_contra hlt
    exact hrank ⟨q', hq', e', hshow', Or.inr ⟨hts, not_le.1 hlt⟩⟩

/-- The version that a read returns is that of a live entry that is not outranked, and at least as new as any other. -/
theorem returned_spec {m : Versioned V} (h : view.returned sha256 link clock k stores = some m) :
    ∃ q ∈ view.replicas sha256 k, ∃ e, view.Shows link clock k stores q e ∧ e.version = m ∧ view.Live sha256 k e ∧
      ¬ view.Outranked sha256 link clock k stores q e ∧
      ∀ q' ∈ view.replicas sha256 k, ∀ e', view.Shows link clock k stores q' e' → e'.ts ≤ m.ts := by
  obtain ⟨hlive, hpos, q, hq, hm, hmax⟩ := (returned_eq_some_iff sha256 view link clock k stores).1 h
  obtain ⟨e, hshow, rfl⟩ := reported_eq_some_iff.1 hm
  have hmax' : ∀ q' ∈ view.replicas sha256 k, ∀ e', view.Shows link clock k stores q' e' → e'.ts ≤ e.ts ∧
      (e'.ts = e.ts → (view.replicas sha256 k).idxOf q ≤ (view.replicas sha256 k).idxOf q') := by
    intro q' hq' e' hshow'
    have h' := hmax q' hq' e'.version (reported_eq_some_iff.2 ⟨e', hshow', rfl⟩)
    rwa [Entry.version_ts, Entry.version_ts] at h'
  rw [Entry.version_isTombstone] at hlive
  rw [Entry.version_ts] at hpos
  refine ⟨q, hq, e, hshow, rfl, ⟨hlive, hpos⟩, ?_, ?_⟩
  · rintro ⟨q', hq', e', hshow', hlt | ⟨hts, hidx⟩⟩
    · exact absurd (hmax' q' hq' e' hshow').1 (not_le.2 hlt)
    · exact absurd ((hmax' q' hq' e' hshow').2 hts) (not_le.2 hidx)
  · intro q' hq' e' hshow'
    rw [Entry.version_ts]
    exact (hmax' q' hq' e' hshow').1

/-- A read returns nothing older than `T` exactly when replica `r` still shows an entry as new as `T` or every live
entry older than `T` is outranked. -/
theorem returned_ge_iff {r : NodeInfo} (hr : r ∈ view.replicas sha256 k) (T : Int) :
    (∀ m, view.returned sha256 link clock k stores = some m → T ≤ m.ts) ↔
      (view.Lost link clock k stores r T → ∀ q ∈ view.replicas sha256 k, ∀ e, view.Shows link clock k stores q e →
        view.Live sha256 k e → e.ts < T → view.Outranked sha256 link clock k stores q e) := by
  constructor
  · intro h _ q hq e hshow hlive hlt
    by_contra hrank
    have hle := h _ (returned_of_not_outranked hq hshow hlive hrank)
    rw [Entry.version_ts] at hle
    omega
  · intro h m hm
    obtain ⟨q, hq, e, hshow, rfl, hlive, hrank, hmax⟩ := returned_spec hm
    by_contra hlt
    rw [Entry.version_ts] at hlt hmax
    refine hrank (h ?_ q hq e hshow hlive (not_le.1 hlt))
    intro e' hshow'
    exact lt_of_le_of_lt (hmax r hr e' hshow') (not_le.1 hlt)

end Read

end NodeView

/-! ### Runs -/

/-- A write reaches a replica, a replica sweeps, or a node reads while the replicas answer as `link` says. -/
inductive ReplicaEvent (V τ : Type)
  | deliver (n : NodeInfo) (c : Clock τ) (w : Write V τ)
  | purge (n : NodeInfo) (c : Clock τ)
  | read (view : NodeView) (kind : NodeKind V τ) (link : NodeInfo → Link) (clock : NodeInfo → Clock τ) (key : String)

abbrev ReplicaRun (V τ : Type) := List (ReplicaEvent V τ)

variable [Add τ] (sha256 : String → List UInt8)

/-- The stores after an event. -/
def ReplicaEvent.apply (stores : Stores V τ) : ReplicaEvent V τ → Stores V τ
  | deliver n c w => Function.update stores n (w.apply c (stores n)).2
  | purge n c => Function.update stores n ((stores n).purgeExpired c).2
  | read view kind link clock key => (kind.get sha256 view clock key stores link).2

/-- The stores after a run that starts with empty stores. -/
def replicaAfter (run : ReplicaRun V τ) : Stores V τ :=
  after (fun stores e => e.apply sha256 stores) (fun _ => LocalLWWStore.empty) run

/-- In the run replica `r` accepts a write on `k` with timestamp `T`. -/
def AcceptedAt (run : ReplicaRun V τ) (r : NodeInfo) (k : String) (T : Int) : Prop :=
  ∃ pre c w post, run = pre ++ .deliver r c w :: post ∧ w.key = k ∧ w.ts = T ∧ (replicaAfter sha256 pre r).Admits k T

/-- No read returns a value that is older than a write on its key which a replica that it reaches had accepted. -/
def NoUncovering (run : ReplicaRun V τ) : Prop :=
  ∀ pre view kind link clock k post, run = pre ++ .read view kind link clock k :: post →
    ∀ r ∈ view.replicas sha256 k, view.Reaches link r → ∀ T, AcceptedAt sha256 pre r k T →
      ∀ m, view.returned sha256 link clock k (replicaAfter sha256 pre) = some m → T ≤ m.ts

/-- At every read, when a replica that it reaches had accepted a write of timestamp `T` and shows no entry as new as `T`
any more, every live entry older than `T` is outranked. -/
def LostOutranked (run : ReplicaRun V τ) : Prop :=
  ∀ pre view kind link clock k post, run = pre ++ .read view kind link clock k :: post →
    ∀ r ∈ view.replicas sha256 k, view.Reaches link r → ∀ T, AcceptedAt sha256 pre r k T →
      view.Lost link clock k (replicaAfter sha256 pre) r T →
        ∀ q ∈ view.replicas sha256 k, ∀ e, view.Shows link clock k (replicaAfter sha256 pre) q e →
          view.Live sha256 k e → e.ts < T → view.Outranked sha256 link clock k (replicaAfter sha256 pre) q e

/-- Reads uncover no older value exactly when the live entries older than a lost write are outranked at every read. -/
theorem noUncovering_iff (run : ReplicaRun V τ) : NoUncovering sha256 run ↔ LostOutranked sha256 run := by
  constructor
  · intro h pre view kind link clock k post hrun r hr hreach T hacc
    exact (NodeView.returned_ge_iff hr T).1 (h pre view kind link clock k post hrun r hr hreach T hacc)
  · intro h pre view kind link clock k post hrun r hr hreach T hacc
    exact (NodeView.returned_ge_iff hr T).2 (h pre view kind link clock k post hrun r hr hreach T hacc)

/-! ### Writes without lifetimes -/

variable {sha256}

/-- A replica holds for good an entry at least as new as every write that it accepted. -/
private def Keeps (sha256 : String → List UInt8) (past : ReplicaRun V τ) (stores : Stores V τ) : Prop :=
  (∀ n k e, (stores n).entry k = some e → e.expiresAt = none) ∧
    ∀ r k T, AcceptedAt sha256 past r k T → ∃ e, (stores r).entry k = some e ∧ T ≤ e.ts

/-- Where no entry has an expiry instant an event at most puts the entry of an admitted write. -/
private theorem entry_apply_of_permanent (sha256 : String → List UInt8) {stores : Stores V τ}
    (hp : ∀ n k e, (stores n).entry k = some e → e.expiresAt = none) (e : ReplicaEvent V τ) (n : NodeInfo)
    (k : String) :
    (e.apply sha256 stores n).entry k = (stores n).entry k ∨
      ∃ c w, e = .deliver n c w ∧ w.key = k ∧ (stores n).Admits k w.ts ∧
        (e.apply sha256 stores n).entry k = some (w.entry c) := by
  cases e with
  | deliver m c w =>
    by_cases hn : n = m
    · subst hn
      have hs : (ReplicaEvent.deliver n c w).apply sha256 stores n = (w.apply c (stores n)).2 :=
        Function.update_self ..
      rw [hs, Write.entry_apply]
      by_cases hk : k = w.key ∧ (stores n).Admits w.key w.ts
      · obtain ⟨rfl, ha⟩ := hk
        exact Or.inr ⟨c, w, rfl, rfl, ha, if_pos ⟨rfl, ha⟩⟩
      · exact Or.inl (if_neg hk)
    · left
      have hs : (ReplicaEvent.deliver m c w).apply sha256 stores n = stores n := Function.update_of_ne hn ..
      rw [hs]
  | purge m c =>
    left
    by_cases hn : n = m
    · subst hn
      have hs : (ReplicaEvent.purge n c).apply sha256 stores n = ((stores n).purgeExpired c).2 :=
        Function.update_self ..
      rw [hs]
      exact ((stores n).evicts_purgeExpired c k).eq_of_permanent (hp n k)
    · have hs : (ReplicaEvent.purge m c).apply sha256 stores n = stores n := Function.update_of_ne hn ..
      rw [hs]
  | read view kind link clock key =>
    left
    have hs : (ReplicaEvent.read view kind link clock key).apply sha256 stores n =
        view.afterRead sha256 link clock key stores n :=
      congrFun (NodeKind.get_snd sha256 view clock stores kind key link) n
    rw [hs, NodeView.afterRead]
    split
    · exact ((stores n).evicts_getVersioned (clock n) key k).eq_of_permanent (hp n k)
    · rfl

private theorem acceptedAt_concat {past : ReplicaRun V τ} {e : ReplicaEvent V τ} {r : NodeInfo} {k : String} {T : Int}
    (h : AcceptedAt sha256 (past ++ [e]) r k T) :
    AcceptedAt sha256 past r k T ∨
      ∃ c w, e = .deliver r c w ∧ w.key = k ∧ w.ts = T ∧ (replicaAfter sha256 past r).Admits k T := by
  obtain ⟨pre, c, w, post, hrun, hk, hT, ha⟩ := h
  rcases split_concat hrun with ⟨-, rfl, rfl⟩ | ⟨post', -, rfl⟩
  · exact Or.inr ⟨c, w, rfl, hk, hT, ha⟩
  · exact Or.inl ⟨pre, c, w, post', rfl, hk, hT, ha⟩

private theorem keeps_step {past : ReplicaRun V τ} {e : ReplicaEvent V τ}
    (he : ∀ n c w, e = .deliver n c w → w.ttl = none) (h : Keeps sha256 past (replicaAfter sha256 past)) :
    Keeps sha256 (past ++ [e]) (e.apply sha256 (replicaAfter sha256 past)) := by
  obtain ⟨hp, hkeep⟩ := h
  constructor
  · intro n k e' he'
    rcases entry_apply_of_permanent sha256 hp e n k with hsame | ⟨c, w, hw, -, -, hnew⟩
    · exact hp n k e' (hsame.symm.trans he')
    · rw [← Option.some.inj (hnew.symm.trans he'), Write.entry, he n c w hw]
      rfl
  · intro r k T hacc
    rcases acceptedAt_concat hacc with hacc | ⟨c, w, rfl, rfl, rfl, ha⟩
    · obtain ⟨e₀, he₀, hle⟩ := hkeep r k T hacc
      rcases entry_apply_of_permanent sha256 hp e r k with hsame | ⟨c, w, -, -, ha, hnew⟩
      · exact ⟨e₀, hsame.trans he₀, hle⟩
      · exact ⟨w.entry c, hnew, le_trans hle (ha e₀ he₀)⟩
    · refine ⟨w.entry c, ?_, le_refl _⟩
      have hs : (ReplicaEvent.deliver r c w).apply sha256 (replicaAfter sha256 past) r =
          (w.apply c (replicaAfter sha256 past r)).2 := Function.update_self ..
      rw [hs, Write.entry_apply, if_pos ⟨rfl, ha⟩]

private theorem keeps_after (sha256 : String → List UInt8) {run : ReplicaRun V τ}
    (h : ∀ n c w, .deliver n c w ∈ run → w.ttl = none) :
    Keeps sha256 run (replicaAfter sha256 run) := by
  refine after_invariant (C := fun _ e => ∀ n c w, e = .deliver n c w → w.ttl = none) ?_
    (fun pre e hC hk => keeps_step hC hk) ?_
  · constructor
    · intro n k e he
      cases he
    · rintro r k T ⟨pre, c, w, post, hrun, -⟩
      exact absurd hrun (by simp)
  · rintro pre e post rfl n c w rfl
    exact h n c w (by simp)

/-- Without lifetimes no read returns a value older than a write which a replica that it reaches had accepted. -/
theorem noUncovering_of_permanent {run : ReplicaRun V τ} (h : ∀ n c w, .deliver n c w ∈ run → w.ttl = none) :
    NoUncovering sha256 run := by
  rw [noUncovering_iff]
  intro pre view kind link clock k post hrun r hr hreach T hacc hlost q hq e hshow hlive hlt
  have hpre : ∀ n c w, .deliver n c w ∈ pre → w.ttl = none := fun n c w hw => h n c w (by rw [hrun]; simp [hw])
  obtain ⟨hp, hkeep⟩ := keeps_after sha256 hpre
  obtain ⟨e₀, he₀, hle⟩ := hkeep r k T hacc
  have hx : e₀.readExpired (clock r).monotonic = false := by
    rw [Entry.readExpired, hp r k e₀ he₀]
    simp
  by_cases hself : r = view.info
  · exact absurd (hlost e₀ ⟨hreach, he₀, hx, Or.inl hself⟩) (not_lt.2 hle)
  · cases hsend : e₀.version.sendable with
    | true => exact absurd (hlost e₀ ⟨hreach, he₀, hx, Or.inr hsend⟩) (not_lt.2 hle)
    | false =>
      -- a tombstone that the wire does not carry is older than every value that a read may return
      have hneg : e₀.ts ≤ 0 := by
        simp only [Versioned.sendable, Entry.version_ts, Bool.or_eq_false_iff, decide_eq_false_iff_not, not_lt] at hsend
        exact hsend.2
      rcases hlive.2 with hnil | hpos
      · rw [NodeView.replicas_of_nil sha256 view hnil] at hr
        exact absurd (List.mem_singleton.1 hr) hself
      · omega

/-- A replica misses a newer set with a lifetime, and the other one sees it expire. -/
def uncoveringRun : ReplicaRun Nat Int :=
  [.deliver (localhost 7003) ⟨0, 5⟩ (.set "k" (some 1) none 5),
    .deliver (localhost 7001) ⟨0, 9⟩ (.set "k" (some 2) (some 1) 9),
    .read ⟨localhost 7001, localRing, 2⟩ .blocking allAnswer (fun _ => ⟨2, 10⟩) "k"]

/-- The read of `uncoveringRun` returns the older value. -/
theorem uncoveringRun_uncovers : ¬ NoUncovering sha256Digest uncoveringRun := by
  intro h
  have hreplicas : localhost 7001 ∈ (NodeView.mk (localhost 7001) localRing 2).replicas sha256Digest "k" := by
    rw [NodeView.replicas_localRing]
    decide
  have hacc : AcceptedAt sha256Digest (uncoveringRun.take 2) (localhost 7001) "k" 9 :=
    ⟨uncoveringRun.take 1, ⟨0, 9⟩, .set "k" (some 2) (some 1) 9, [], rfl, rfl, rfl, by decide⟩
  have hle := h (uncoveringRun.take 2) _ _ _ _ _ [] rfl (localhost 7001) hreplicas (Or.inl rfl) 9 hacc
    ⟨some 1, 5, false⟩ (by decide +kernel)
  exact absurd hle (by decide)

end DLStorage
