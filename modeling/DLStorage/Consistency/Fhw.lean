import DLStorage.Node.Reads

/-!
# First-hit-wins resolution of reads

`FHW.read_resolve` asks the handles one after the other, in the ring's order of preference, and returns the value of the
first version that is not a tombstone; the replicas behind that one are not asked.  The async resolver awaits the
handles one by one and has the same body.  A read of a node with this policy finds a version whenever one under
last-write-wins does, but perhaps an older one (`fhw_get`).
-/

namespace DLStorage

open Base (Schedule runUntil through fan)

variable {V τ : Type}

/-- The version that stops the loop. -/
def liveVersion (outcome : Except PyError (Option (Versioned V))) : Option (Versioned V) :=
  (outcomeVersion outcome).filter (fun r => !r.isTombstone)

/-- The loop over the handles. -/
def firstHit (key : String) : List (ReplicaHandle V τ) → Stores V τ → PyObj V × Stores V τ
  | [], stores => (none, stores)
  | h :: handles, stores =>
    match h.getVersioned key (stores h.node) with
    | (.error _, s) => firstHit key handles (Function.update stores h.node s)
    | (.ok none, s) => firstHit key handles (Function.update stores h.node s)
    | (.ok (some r), s) =>
      if r.isTombstone then firstHit key handles (Function.update stores h.node s)
      else (r.value, Function.update stores h.node s)

def FHW.readResolve (key : String) (handles : List (ReplicaHandle V τ)) (stores : Stores V τ) : PyObj V × Stores V τ :=
  firstHit key handles stores

def AsyncFHW.readResolve (key : String) (handles : List (ReplicaHandle V τ)) (stores : Stores V τ) :
    PyObj V × Stores V τ :=
  firstHit key handles stores

/-- The loop is the library's, stopped by a live version. -/
theorem firstHit_eq (key : String) (handles : List (ReplicaHandle V τ)) (stores : Stores V τ) :
    firstHit key handles stores =
      ((runUntil liveVersion (handles.map (versionJob key)) stores).1.bind Versioned.value,
        (runUntil liveVersion (handles.map (versionJob key)) stores).2) := by
  induction handles generalizing stores with
  | nil => rfl
  | cons h handles ih =>
    rw [List.map_cons]
    unfold firstHit runUntil
    simp only [Base.Job.outcome, Base.Job.perform, versionJob]
    cases h.getVersioned key (stores h.node) with
    | mk outcome s =>
      cases outcome with
      | error e =>
        have hlive : liveVersion (.error e : Except PyError (Option (Versioned V))) = none := rfl
        simp only [hlive]
        exact ih _
      | ok r =>
        cases r with
        | none =>
          have hlive : liveVersion (.ok none : Except PyError (Option (Versioned V))) = none := rfl
          simp only [hlive]
          exact ih _
        | some r =>
          have hlive : liveVersion (.ok (some r)) = if r.isTombstone then none else some r := by
            cases hr : r.isTombstone <;> simp [liveVersion, outcomeVersion, Option.filter_some, hr]
          simp only [hlive]
          cases r.isTombstone with
          | true => exact ih _
          | false => rfl

namespace NodeView

variable [LinearOrder τ] (sha256 : String → List UInt8) (view : NodeView) (link : NodeInfo → Link)

section Hit

variable (clock : NodeInfo → Clock τ) (key : String) (stores : Stores V τ)

/-- The live version that a read learns from a replica. -/
def liveReport (n : NodeInfo) : Option (Versioned V) :=
  (view.reported link clock key stores n).filter (fun r => !r.isTombstone)

/-- The version that a read finds: the first live one in the ring's order. -/
def hit : Option (Versioned V) := (view.replicas sha256 key).findSome? (view.liveReport link clock key stores)

/-- The replicas that a read asks. -/
def asked : List NodeInfo :=
  through (fun n => (view.liveReport link clock key stores n).isSome) (view.replicas sha256 key)

/-- The stores after a read. -/
def afterHit : Stores V τ := fun n =>
  if n ∈ view.asked sha256 link clock key stores ∧ view.Reaches link n then
    ((stores n).getVersioned (clock n) key).2
  else stores n

theorem liveReport_eq_some_iff {n : NodeInfo} {r : Versioned V} :
    view.liveReport link clock key stores n = some r ↔
      view.reported link clock key stores n = some r ∧ r.isTombstone = false := by
  unfold liveReport
  rw [Option.filter_eq_some_iff]
  simp

private theorem asked_of_nil (h : view.ring.getNodes sha256 key view.replication = []) :
    view.asked sha256 link clock key stores = view.replicas sha256 key := by
  unfold asked
  rw [replicas_of_nil sha256 view h]
  unfold through
  split
  · rfl
  · rfl

private theorem hit_of_nil (h : view.ring.getNodes sha256 key view.replication = []) :
    view.hit sha256 link clock key stores = view.returned sha256 link clock key stores := by
  unfold hit returned
  rw [replicas_of_nil sha256 view h, if_pos h, List.findSome?_singleton]
  unfold liveReport
  rw [reported_self]

theorem hit_eq_none_iff :
    view.hit sha256 link clock key stores = none ↔
      ∀ n ∈ view.replicas sha256 key, ∀ r, view.reported link clock key stores n = some r → r.isTombstone = true := by
  unfold hit
  rw [List.findSome?_eq_none_iff]
  constructor
  · intro h n hn r hr
    by_contra hlive
    rw [Bool.not_eq_true] at hlive
    have hnone := h n hn
    rw [(liveReport_eq_some_iff view link clock key stores).2 ⟨hr, hlive⟩] at hnone
    cases hnone
  · intro h n hn
    cases hr : view.liveReport link clock key stores n with
    | none => rfl
    | some r =>
      obtain ⟨hr, hlive⟩ := (liveReport_eq_some_iff view link clock key stores).1 hr
      rw [h n hn r hr] at hlive
      cases hlive

theorem exists_of_hit {m : Versioned V} (h : view.hit sha256 link clock key stores = some m) :
    ∃ pre q post, view.replicas sha256 key = pre ++ q :: post ∧
      (∀ n ∈ pre, ∀ r, view.reported link clock key stores n = some r → r.isTombstone = true) ∧
      view.reported link clock key stores q = some m ∧ m.isTombstone = false ∧
      view.asked sha256 link clock key stores = pre ++ [q] := by
  obtain ⟨pre, q, post, hsplit, hq, hpre⟩ := List.findSome?_eq_some_iff.1 h
  obtain ⟨hm, hlive⟩ := (liveReport_eq_some_iff view link clock key stores).1 hq
  refine ⟨pre, q, post, hsplit, ?_, hm, hlive, ?_⟩
  · intro n hn r hr
    by_contra hnot
    rw [Bool.not_eq_true] at hnot
    have hnone := hpre n hn
    rw [(liveReport_eq_some_iff view link clock key stores).2 ⟨hr, hnot⟩] at hnone
    cases hnone
  · unfold asked
    rw [hsplit]
    refine Base.through_split ?_ (by rw [hq]; rfl)
    intro n hn
    rw [hpre n hn]
    rfl

/-- A version behind a read under last-write-wins is live, so first-hit-wins finds one too; it is not newer, and it is
the same when it has the same timestamp. -/
theorem hit_of_returned {m : Versioned V} (h : view.returned sha256 link clock key stores = some m) :
    ∃ m', view.hit sha256 link clock key stores = some m' ∧ m'.ts ≤ m.ts ∧ (m'.ts = m.ts → m' = m) := by
  obtain ⟨hlive, -, q, hq, hm, hmax⟩ := (returned_eq_some_iff sha256 view link clock key stores).1 h
  cases hhit : view.hit sha256 link clock key stores with
  | none =>
    rw [(hit_eq_none_iff sha256 view link clock key stores).1 hhit q hq m hm] at hlive
    cases hlive
  | some m' =>
    obtain ⟨pre, q', post, hsplit, hpre, hm', hlive', -⟩ := exists_of_hit sha256 view link clock key stores hhit
    have hq' : q' ∈ view.replicas sha256 key := by
      rw [hsplit]
      simp
    obtain ⟨hle, hidx⟩ := hmax q' hq' m' hm'
    refine ⟨m', rfl, hle, ?_⟩
    intro hts
    -- the replica of `m` is not later than that of `m'`, and not among those before it
    have hidx' := hidx hts
    have hnot : q ∉ pre := by
      intro hmem
      rw [hpre q hmem m hm] at hlive
      cases hlive
    have hnot' : q' ∉ pre := by
      intro hmem
      rw [hpre q' hmem m' hm'] at hlive'
      cases hlive'
    rw [hsplit, List.idxOf_append_of_notMem hnot, List.idxOf_append_of_notMem hnot', List.idxOf_cons_self] at hidx'
    have hsame : q = q' := by
      by_contra hne
      rw [List.idxOf_cons_ne _ (fun h => hne h.symm)] at hidx'
      omega
    rw [hsame] at hm
    exact Option.some.inj (hm'.symm.trans hm)

/-- When last-write-wins finds nothing although a version is reported, there is a tombstone at least as new among the
reported versions, or none of their timestamps counts. -/
theorem superseded_of_returned {q : NodeInfo} {m : Versioned V} (hq : q ∈ view.replicas sha256 key)
    (hm : view.reported link clock key stores q = some m) (h : view.returned sha256 link clock key stores = none) :
    (∃ n ∈ view.replicas sha256 key, ∃ r, view.reported link clock key stores n = some r ∧ r.isTombstone = true ∧
        m.ts ≤ r.ts) ∨
      ∀ n ∈ view.replicas sha256 key, ∀ r, view.reported link clock key stores n = some r → r.ts < 0 := by
  cases hlead : Base.leading Versioned.ts
      ((view.replicas sha256 key).filterMap (view.reported link clock key stores)) with
  | none =>
    have hmem : m ∈ (view.replicas sha256 key).filterMap (view.reported link clock key stores) :=
      List.mem_filterMap.2 ⟨q, hq, hm⟩
    rw [Base.best_eq_none_iff.1 hlead] at hmem
    cases hmem
  | some b =>
    obtain ⟨n, hn, hb, hmax⟩ := Base.leading_filterMap_iff.1 hlead
    cases hdead : b.isTombstone with
    | true => exact Or.inl ⟨n, hn, b, hb, hdead, (hmax q hq m hm).1⟩
    | false =>
      right
      intro n' hn' r hr
      by_contra hneg
      -- then the newest version is live and counts, so that the read returns it
      have hpos : 0 ≤ b.ts := le_trans (not_lt.1 hneg) (hmax n' hn' r hr).1
      have hret := (returned_eq_some_iff sha256 view link clock key stores).2
        ⟨hdead, Or.inr hpos, n, hn, hb, hmax⟩
      rw [h] at hret
      cases hret

end Hit

variable [Add τ]

/-- The blocking node with this view and the policy FHW. -/
def syncFhw : StorageNode V τ := ⟨view.info, view.ring, networkPool link, FHW.readResolve, view.replication⟩

/-- The async node with this view and the policy FHW. -/
def asyncFhw : AsyncStorageNode V τ := ⟨view.info, view.ring, networkPool link, AsyncFHW.readResolve, view.replication⟩

variable (clock : NodeInfo → Clock τ) (key : String) (stores : Stores V τ)

private theorem firstHit_handles (hne : view.ring.getNodes sha256 key view.replication ≠ []) :
    firstHit key ((view.ring.getNodes sha256 key view.replication).map ((view.sync link).handle clock)) stores =
      ((view.hit sha256 link clock key stores).bind Versioned.value, view.afterHit sha256 link clock key stores) := by
  have hlive : ∀ n, liveVersion (((view.sync link).handle clock n).getVersioned key (stores n)).1 =
      view.liveReport link clock key stores n := by
    intro n
    unfold liveVersion liveReport
    rw [outcome_handle_sync]
  rw [firstHit_eq, show ((view.ring.getNodes sha256 key view.replication).map ((view.sync link).handle clock)).map
      (versionJob key) = fan (fun n => ((view.sync link).handle clock n).getVersioned key)
        (view.ring.getNodes sha256 key view.replication) from
      jobs_eq_fan (fun h => h.getVersioned key) (StorageNode.node_handle (view.sync link) clock) _,
    Base.runUntil_fan _ (RendezvousRing.getNodes_nodup _ _ _)]
  simp only [hlive, store_handle_sync]
  unfold hit afterHit asked
  simp only [replicas_of_ne sha256 view hne, Prod.mk.injEq, true_and]
  funext n
  split <;> split <;> simp_all

/-- Under the policy FHW a read of the blocking node returns the value of the first live version in the ring's order,
and works on the replicas up to the one that reports it. -/
theorem syncFhw_get :
    (view.syncFhw link).get sha256 clock key stores =
      ((view.hit sha256 link clock key stores).bind Versioned.value, view.afterHit sha256 link clock key stores) := by
  by_cases h : view.ring.getNodes sha256 key view.replication = []
  · -- the policy is not asked: the local store answers, as under last-write-wins
    have hsame : (view.syncFhw link).get sha256 clock key stores = (view.sync link).get sha256 clock key stores := by
      show (if view.ring.getNodes sha256 key view.replication = [] then _ else _) =
        (if view.ring.getNodes sha256 key view.replication = [] then _ else _)
      rw [if_pos h, if_pos h]
      rfl
    have hafter : view.afterHit sha256 link clock key stores = view.afterRead sha256 link clock key stores := by
      unfold afterHit afterRead
      rw [asked_of_nil sha256 view link clock key stores h]
    rw [hsame, hit_of_nil sha256 view link clock key stores h, hafter]
    refine Prod.ext ?_ ?_
    · exact (get_eq_returned sha256 view link clock key stores Schedule.inOrder).1
    · exact get_snd sha256 view link clock key stores
  · rw [← firstHit_handles sha256 view link clock key stores h]
    show (if view.ring.getNodes sha256 key view.replication = [] then _ else _) = _
    rw [if_neg h]
    rfl

/-- The async node makes the same calls one after the other. -/
theorem asyncFhw_get :
    AsyncStorageNode.get sha256 (view.asyncFhw link) clock key stores =
      (view.syncFhw link).get sha256 clock key stores := rfl

end NodeView

/-- A read under FHW asks the replicas in the ring's order up to the first that reports a live version, returns the
value of this version, and does not touch the stores of the others.  Last-write-wins finds nothing when FHW finds
nothing.  Otherwise it returns a version that is not older, or nothing because of a tombstone that is not older; only
where no reported timestamp counts does it return nothing without one. -/
theorem fhw_get (sha256 : String → List UInt8) (view : NodeView) (link : NodeInfo → Link) [LinearOrder τ] [Add τ]
    (clock : NodeInfo → Clock τ) (key : String) (stores : Stores V τ) :
    AsyncStorageNode.get sha256 (view.asyncFhw link) clock key stores =
        (view.syncFhw link).get sha256 clock key stores ∧
      (∀ sched, view.Returns sha256 link clock key stores sched
        ((view.returned sha256 link clock key stores).bind Versioned.value)) ∧
      (((∀ n ∈ view.replicas sha256 key, ∀ r, view.reported link clock key stores n = some r → r.isTombstone = true) ∧
          (view.syncFhw link).get sha256 clock key stores = (none, view.afterRead sha256 link clock key stores) ∧
          view.returned sha256 link clock key stores = none) ∨
        ∃ pre q post m, view.replicas sha256 key = pre ++ q :: post ∧
          (∀ n ∈ pre, ∀ r, view.reported link clock key stores n = some r → r.isTombstone = true) ∧
          view.reported link clock key stores q = some m ∧ m.isTombstone = false ∧
          (view.syncFhw link).get sha256 clock key stores =
            (m.value, fun n => if n ∈ pre ++ [q] ∧ view.Reaches link n then ((stores n).getVersioned (clock n) key).2
              else stores n) ∧
          ((∃ m₀, view.returned sha256 link clock key stores = some m₀ ∧ m.ts ≤ m₀.ts ∧ (m.ts = m₀.ts → m = m₀)) ∨
            view.returned sha256 link clock key stores = none ∧
              ((∃ n ∈ view.replicas sha256 key, ∃ r, view.reported link clock key stores n = some r ∧
                  r.isTombstone = true ∧ m.ts ≤ r.ts) ∨
                ∀ n ∈ view.replicas sha256 key, ∀ r, view.reported link clock key stores n = some r → r.ts < 0))) := by
  refine ⟨NodeView.asyncFhw_get sha256 view link clock key stores,
    NodeView.get_eq_returned sha256 view link clock key stores, ?_⟩
  rw [NodeView.syncFhw_get]
  cases hhit : view.hit sha256 link clock key stores with
  | none =>
    left
    have hnone := (NodeView.hit_eq_none_iff sha256 view link clock key stores).1 hhit
    have hasked : view.asked sha256 link clock key stores = view.replicas sha256 key := by
      apply Base.through_of_none
      intro n hn
      rw [List.findSome?_eq_none_iff.1 hhit n hn]
      rfl
    refine ⟨hnone, ?_, ?_⟩
    · unfold NodeView.afterHit NodeView.afterRead
      rw [hasked]
      rfl
    · cases hret : view.returned sha256 link clock key stores with
      | none => rfl
      | some m =>
        obtain ⟨m', hm', -⟩ := NodeView.hit_of_returned sha256 view link clock key stores hret
        rw [hhit] at hm'
        cases hm'
  | some m =>
    right
    obtain ⟨pre, q, post, hsplit, hpre, hm, hlive, hasked⟩ :=
      NodeView.exists_of_hit sha256 view link clock key stores hhit
    refine ⟨pre, q, post, m, hsplit, hpre, hm, hlive, ?_, ?_⟩
    · unfold NodeView.afterHit
      rw [hasked]
      rfl
    · cases hret : view.returned sha256 link clock key stores with
      | none =>
        have hq : q ∈ view.replicas sha256 key := by
          rw [hsplit]
          simp
        exact Or.inr ⟨rfl, NodeView.superseded_of_returned sha256 view link clock key stores hq hm hret⟩
      | some m₀ =>
        left
        obtain ⟨m', hm', hle, heq⟩ := NodeView.hit_of_returned sha256 view link clock key stores hret
        obtain rfl := Option.some.inj (hhit.symm.trans hm')
        exact ⟨m₀, rfl, hle, heq⟩

end DLStorage
