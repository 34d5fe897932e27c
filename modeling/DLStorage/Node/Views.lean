import DLStorage.Node.Reads
import DLStorage.Store.Run

/-!
# Reads under diverging membership views

Writer and reader may have different rings.  When fewer nodes than the replication factor are missing in either of the
two rings, the replicas that the writer chose and those that the reader asks have a member in common
(`RendezvousRing.getNodes_inter`), and a newest write that reached all replicas of the writer is what the reader gets
(`get_across_views`).
-/

namespace DLStorage

open Base (Schedule ScoreInjOn after_invariant)

/-- The best nodes for a key of two rings have a member in common when fewer than `n` nodes are missing in either. -/
theorem RendezvousRing.getNodes_inter {sha256 : String → List UInt8} {ring ring' : RendezvousRing} {key : String}
    {n : Nat} (hinj : ScoreInjOn (fun x => score sha256 x key) (ring.nodes ++ ring'.nodes)) (hlen : n ≤ ring.len)
    (hgone : (ring.nodes.filter (· ∉ ring'.nodes)).length < n)
    (hnew : (ring'.nodes.filter (· ∉ ring.nodes)).length < n) :
    ∃ x, x ∈ ring.getNodes sha256 key n ∧ x ∈ ring'.getNodes sha256 key n := by
  rw [getNodes_eq_top, getNodes_eq_top]
  exact Base.top_inter ring.nodup ring'.nodup hinj hlen hgone hnew

variable {V τ : Type} [LinearOrder τ] [Add τ]

/-- The run does not flush, and each of its operations on `key` sets `value` for good with timestamp `ts` or has a
smaller timestamp. -/
def StoreRun.NewestSet (run : StoreRun V τ) (key : String) (value : PyObj V) (ts : Int) : Prop :=
  ∀ x ∈ run, x.2.flushes = false ∧
    ∀ T, WritesAt x key T → T < ts ∨ x.2 = .set key value none (some ts)

/-- The entry of a write without a lifetime. -/
private def settled (value : PyObj V) (ts : Int) : Entry V τ := ⟨.value value, none, ts⟩

/-- The entry of `key` is older than `ts` or the one that the newest set leaves, and it is this one once the set was
applied. -/
private def HoldsNewest (key : String) (value : PyObj V) (ts : Int) (past : StoreRun V τ) (s : LocalLWWStore V τ) :
    Prop :=
  (∀ e, s.entry key = some e → e.ts < ts ∨ e = settled value ts) ∧
    ((∃ c, (c, .set key value none (some ts)) ∈ past) → s.entry key = some (settled value ts))

omit [LinearOrder τ] in
private theorem written_newest {x : Clock τ × StoreOp V τ} {key : String} {value : PyObj V} {ts : Int}
    (hx : ∀ T, WritesAt x key T → T < ts ∨ x.2 = .set key value none (some ts)) {e : Entry V τ}
    (he : x.2.written x.1 key = some e) : e.ts < ts ∨ e = settled value ts := by
  rcases hx e.ts ⟨e, he, rfl⟩ with h | h
  · exact Or.inl h
  · rw [h] at he
    exact Or.inr (Option.some.inj (he.symm.trans (if_pos rfl)))

private theorem holdsNewest_step {past : StoreRun V τ} {s : LocalLWWStore V τ} {x : Clock τ × StoreOp V τ}
    {key : String} {value : PyObj V} {ts : Int} (hflush : x.2.flushes = false)
    (hx : ∀ T, WritesAt x key T → T < ts ∨ x.2 = .set key value none (some ts))
    (h : HoldsNewest key value ts past s) : HoldsNewest key value ts (past ++ [x]) (storeStep s x) := by
  obtain ⟨hold, hset⟩ := h
  have hmem : (∃ c, (c, StoreOp.set key value none (some ts)) ∈ past ++ [x]) →
      s.entry key = some (settled value ts) ∨ x.2.written x.1 key = some (settled value ts) := by
    rintro ⟨c, hc⟩
    rcases List.mem_append.1 hc with hc | hc
    · exact Or.inl (hset ⟨c, hc⟩)
    · rw [← List.mem_singleton.1 hc]
      exact Or.inr (if_pos rfl)
  rcases StoreOp.entry_apply x.2 x.1 s key with ⟨e, hw, ha, he⟩ | ⟨e, hw, ha, he⟩ | ⟨hw, he | ⟨he, hdrop⟩⟩
  · -- a write admitted over the newest entry is not older than it, hence the newest set once more
    have hnew := written_newest hx hw
    refine ⟨fun e' he' => Option.some.inj (he.symm.trans he') ▸ hnew, ?_⟩
    intro hm
    refine he.trans ?_
    rcases hmem hm with hs | hs
    · have hle : ts ≤ e.ts := ha _ hs
      rcases hnew with hlt | rfl
      · omega
      · rfl
    · exact hw.symm.trans hs
  · refine ⟨fun e' he' => hold e' (he.symm.trans he'), ?_⟩
    intro hm
    refine he.trans ?_
    rcases hmem hm with hs | hs
    · exact hs
    · have hee : e = settled value ts := Option.some.inj (hw.symm.trans hs)
      subst hee
      refine absurd ?_ ha
      intro e' he'
      show e'.ts ≤ ts
      rcases hold e' he' with hlt | rfl
      · omega
      · exact le_refl ts
  · refine ⟨fun e' he' => hold e' (he.symm.trans he'), ?_⟩
    intro hm
    refine he.trans ?_
    rcases hmem hm with hs | hs
    · exact hs
    · exact absurd (hw.symm.trans hs) (by simp)
  · refine ⟨fun e' he' => absurd (he.symm.trans he') (by simp), ?_⟩
    intro hm
    rcases hmem hm with hs | hs
    · -- without an expiry instant the newest entry is not evicted
      rcases hdrop with hf | ⟨e, he', hswept⟩
      · rw [hflush] at hf
        cases hf
      · rw [Option.some.inj (he'.symm.trans hs)] at hswept
        simp [Entry.sweepable, settled] at hswept
    · exact absurd (hw.symm.trans hs) (by simp)

private theorem holdsNewest_after {run : StoreRun V τ} {key : String} {value : PyObj V} {ts : Int}
    (h : run.NewestSet key value ts) : HoldsNewest key value ts run (storeAfter run) := by
  refine after_invariant (C := fun _ x => x ∈ run) ?_ ?_ ?_
  · constructor
    · intro e he
      cases he
    · rintro ⟨c, hc⟩
      cases hc
  · intro pre x hx hP
    exact holdsNewest_step (h x hx).1 (h x hx).2 hP
  · intro pre x post hrun
    rw [hrun]
    simp

/-- The stores of all nodes after their runs. -/
def storesAfter (runs : NodeInfo → StoreRun V τ) : Stores V τ := fun n => storeAfter (runs n)

/-- A newest write that reached all replicas of the writer's view is what a reader of another view gets, when fewer
nodes than the replication factor are missing in either view and all replicas of the reader's view answer. -/
theorem get_across_views {sha256 : String → List UInt8} {ring ring' : RendezvousRing} {replication : Nat}
    {key : String} (hinj : ScoreInjOn (fun x => score sha256 x key) (ring.nodes ++ ring'.nodes))
    (hlen : replication ≤ ring.len)
    (hgone : (ring.nodes.filter (· ∉ ring'.nodes)).length < replication)
    (hnew : (ring'.nodes.filter (· ∉ ring.nodes)).length < replication)
    {runs : NodeInfo → StoreRun V τ} {value : PyObj V} {ts : Nat} (hnewest : ∀ n, (runs n).NewestSet key value ts)
    (hwrite : ∀ n ∈ ring.getNodes sha256 key replication, ∃ c, (c, .set key value none (some ts)) ∈ runs n)
    {reader : NodeInfo} {link : NodeInfo → Link}
    (hanswer : ∀ n ∈ ring'.getNodes sha256 key replication, n = reader ∨ link n = .answers)
    (clock : NodeInfo → Clock τ) (sched : Schedule NodeInfo (LocalLWWStore V τ) PyError (Option (Versioned V))) :
    (NodeView.mk reader ring' replication).Returns sha256 link clock key (storesAfter runs) sched value := by
  let view : NodeView := ⟨reader, ring', replication⟩
  obtain ⟨n, hn, hn'⟩ := RendezvousRing.getNodes_inter hinj hlen hgone hnew
  have hreplicas : view.replicas sha256 key = ring'.getNodes sha256 key replication :=
    NodeView.replicas_of_ne sha256 view (List.ne_nil_of_mem hn')
  have hentry := (holdsNewest_after (hnewest n)).2 (hwrite n hn)
  have hreport : (storesAfter runs n).report (clock n).monotonic key = some ⟨value, ts, false⟩ :=
    LocalLWWStore.report_eq_some_iff.2 ⟨_, hentry, rfl, rfl⟩
  refine NodeView.get_of_newest sha256 view link clock key _ sched (hreplicas ▸ hn')
    (NodeView.reported_of_report view link clock key _ (hanswer n hn') hreport rfl) (Int.natCast_nonneg ts) ?_
  intro n' _ r hr
  obtain ⟨-, hr⟩ := NodeView.report_of_reported view link clock key _ hr
  obtain ⟨e, he, -, rfl⟩ := LocalLWWStore.report_eq_some_iff.1 hr
  rw [Entry.version_ts]
  show e.ts ≤ ts ∧ (e.ts = ts → _)
  rcases (holdsNewest_after (hnewest n')).1 e he with hlt | rfl
  · exact ⟨by omega, fun h => by omega⟩
  · exact ⟨le_refl _, fun _ => rfl⟩

/-- The ring of a reader that has lost one node of `localRing` and gained another. -/
def shiftedRing : RendezvousRing := ⟨[localhost 7001, localhost 7003, localhost 7004], by decide⟩

/-- Runs in which the two replicas of `localRing` for the key hold its newest write. -/
def shiftedRuns : NodeInfo → StoreRun Nat Int := fun n =>
  if n = localhost 7001 then
    [(⟨0, 3⟩, .set "k" (some 1) (some 5) (some 3)), (⟨1, 9⟩, .set "k" (some 2) none (some 9))]
  else if n = localhost 7003 then
    [(⟨0, 9⟩, .set "k" (some 2) none (some 9)), (⟨1, 4⟩, .delete "k" (some 4)), (⟨2, 0⟩, .purgeExpired)]
  else []

private theorem shiftedRuns_newest (n : NodeInfo) : (shiftedRuns n).NewestSet "k" (some 2) (9 : Nat) := by
  unfold shiftedRuns
  split
  · intro x hx
    simp only [List.mem_cons, List.not_mem_nil, or_false] at hx
    rcases hx with rfl | rfl
    · exact ⟨rfl, fun T hT => Or.inl (by rw [hT.unique (writesAt_set _ _ _ _ _)]; decide)⟩
    · exact ⟨rfl, fun T _ => Or.inr rfl⟩
  · split
    · intro x hx
      simp only [List.mem_cons, List.not_mem_nil, or_false] at hx
      rcases hx with rfl | rfl | rfl
      · exact ⟨rfl, fun T _ => Or.inr rfl⟩
      · exact ⟨rfl, fun T hT => Or.inl (by rw [hT.unique (writesAt_delete _ _ _)]; decide)⟩
      · exact ⟨rfl, fun T ⟨e, he, _⟩ => by cases he⟩
    · intro x hx
      cases hx

private theorem shiftedRing_scores :
    ScoreInjOn (fun x => score sha256Digest x "k") (localRing.nodes ++ shiftedRing.nodes) := by
  unfold ScoreInjOn
  decide +kernel

/-- The reader with the shifted ring gets the value of the newest write. -/
theorem get_across_shiftedRing :
    (NodeView.mk (localhost 7004) shiftedRing 2).Returns sha256Digest (fun _ => .answers) (fun _ => ⟨3, 10⟩) "k"
      (storesAfter shiftedRuns) Schedule.inOrder (some 2) := by
  refine get_across_views shiftedRing_scores (by decide) (by decide) (by decide) shiftedRuns_newest ?_
    (fun _ _ => Or.inr rfl) _ _
  intro n hn
  rw [localRing_getNodes] at hn
  simp only [List.mem_cons, List.not_mem_nil, or_false] at hn
  rcases hn with rfl | rfl
  · exact ⟨⟨0, 9⟩, List.mem_cons_self ..⟩
  · exact ⟨⟨1, 9⟩, List.mem_cons_of_mem _ (List.mem_cons_self ..)⟩

end DLStorage
