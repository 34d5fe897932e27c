import DLStorage.Node.Async
import DLStorage.Node.Wire

/-!
# Reads of the cluster

A node as the cluster sees it (`NodeView`), run as a blocking or an async node over a pool whose calls come to what
`link` says.  `NodeView.get_fst` and `NodeView.get_snd` describe a read of either node under last-write-wins: the value
is resolved from the versions that the reached replicas report, and each of these replicas is left as after a
`get_versioned`.  The result follows when one of the reported versions is newest (`NodeView.get_of_newest`).  A replica
reports what its store does; on the wire the report loses tombstones without a positive timestamp, which do not occur
in a store of positive timestamps (`NodeView.reported_of_stamped`).
-/

namespace DLStorage

open Base (Schedule)

/-- What a call on a node depends on besides the network, the clocks and the stores. -/
structure NodeView where
  info : NodeInfo
  ring : RendezvousRing
  replication : Nat

namespace NodeView

variable {V τ : Type} (sha256 : String → List UInt8) (view : NodeView) (link : NodeInfo → Link)

/-- The nodes on whose stores a call works: the best ring nodes for the key, and only the node itself when its ring is
empty. -/
def replicas (key : String) : List NodeInfo :=
  let nodes := view.ring.getNodes sha256 key view.replication
  if nodes = [] then [view.info] else nodes

/-- The store of the replica takes part in the calls of the node. -/
def Reaches (n : NodeInfo) : Prop := n = view.info ∨ link n = .answers

instance (n : NodeInfo) : Decidable (view.Reaches link n) :=
  inferInstanceAs (Decidable (n = view.info ∨ link n = .answers))

variable {view link} in
theorem reaches_self : view.Reaches link view.info := Or.inl rfl

variable {view link} in
theorem reaches_of_answers {n : NodeInfo} (h : link n = .answers) : view.Reaches link n := Or.inr h

variable {view link} in
theorem not_reaches {n : NodeInfo} (hn : n ≠ view.info) (h : link n ≠ .answers) : ¬ view.Reaches link n := by
  rintro (h' | h')
  · exact hn h'
  · exact h h'

theorem replicas_of_nil {key : String} (h : view.ring.getNodes sha256 key view.replication = []) :
    view.replicas sha256 key = [view.info] := if_pos h

theorem replicas_of_ne {key : String} (h : view.ring.getNodes sha256 key view.replication ≠ []) :
    view.replicas sha256 key = view.ring.getNodes sha256 key view.replication := if_neg h

theorem replicas_ne_nil (key : String) : view.replicas sha256 key ≠ [] := by
  by_cases h : view.ring.getNodes sha256 key view.replication = []
  · rw [replicas_of_nil sha256 view h]
    exact List.cons_ne_nil _ _
  · rw [replicas_of_ne sha256 view h]
    exact h

theorem replicas_localRing (info : NodeInfo) :
    (NodeView.mk info localRing 2).replicas sha256Digest "k" = [localhost 7003, localhost 7001] := by
  have h : localRing.getNodes sha256Digest "k" 2 ≠ [] := by rw [localRing_getNodes]; exact List.cons_ne_nil _ _
  exact (replicas_of_ne sha256Digest ⟨info, localRing, 2⟩ h).trans localRing_getNodes

variable [LinearOrder τ]

/-! ### What the replicas report -/

section Reports

variable (clock : NodeInfo → Clock τ) (key : String) (stores : Stores V τ)

/-- The version that a read learns from a replica. -/
def reported (n : NodeInfo) : Option (Versioned V) :=
  if n = view.info then (stores n).report (clock n).monotonic key
  else if link n = .answers then ((stores n).report (clock n).monotonic key).filter Versioned.sendable
  else none

/-- The stores after a read. -/
def afterRead : Stores V τ := fun n =>
  if n ∈ view.replicas sha256 key ∧ view.Reaches link n then ((stores n).getVersioned (clock n) key).2 else stores n

theorem reported_self :
    view.reported link clock key stores view.info = (stores view.info).report (clock view.info).monotonic key :=
  if_pos rfl

/-- Every reported version is held by a store that the read reaches. -/
theorem report_of_reported {n : NodeInfo} {r : Versioned V} (h : view.reported link clock key stores n = some r) :
    view.Reaches link n ∧ (stores n).report (clock n).monotonic key = some r := by
  unfold reported at h
  by_cases hn : n = view.info
  · subst hn
    rw [if_pos rfl] at h
    exact ⟨reaches_self, h⟩
  · rw [if_neg hn] at h
    by_cases hl : link n = .answers
    · rw [if_pos hl] at h
      exact ⟨reaches_of_answers hl, (Option.filter_eq_some_iff.1 h).1⟩
    · rw [if_neg hl] at h
      cases h

/-- A version that a response can carry is reported by a replica that the read reaches. -/
theorem reported_of_report {n : NodeInfo} {r : Versioned V} (hn : view.Reaches link n)
    (h : (stores n).report (clock n).monotonic key = some r) (hr : r.sendable = true) :
    view.reported link clock key stores n = some r := by
  unfold reported
  rw [h]
  by_cases he : n = view.info
  · rw [if_pos he]
  · rw [if_neg he, if_pos (hn.resolve_left he)]
    exact Option.filter_some_pos hr

theorem reported_of_stamped {n : NodeInfo} (hs : (stores n).Stamped) :
    view.reported link clock key stores n =
      if view.Reaches link n then (stores n).report (clock n).monotonic key else none := by
  unfold reported
  by_cases hn : n = view.info
  · rw [if_pos hn, if_pos (show view.Reaches link n from Or.inl hn)]
  · rw [if_neg hn, hs.filter_report]
    by_cases hl : link n = .answers
    · rw [if_pos hl, if_pos (reaches_of_answers hl)]
    · rw [if_neg hl, if_neg (not_reaches hn hl)]

end Reports

/-! ### The nodes of a view and their handles -/

variable [Add τ]

/-- The blocking node with this view. -/
def sync : StorageNode V τ := ⟨view.info, view.ring, networkPool link, LWW.readResolve, view.replication⟩

/-- The async node with this view. -/
def async (sched : Schedule NodeInfo (LocalLWWStore V τ) PyError (Option (Versioned V))) : AsyncStorageNode V τ :=
  ⟨view.info, view.ring, networkPool link, AsyncLWW.readResolve sched, view.replication⟩

variable (clock : NodeInfo → Clock τ) (key : String) (stores : Stores V τ)

theorem handle_sync_self :
    (view.sync link : StorageNode V τ).handle clock view.info = localHandle view.info (clock view.info) :=
  StorageNode.handle_self (view.sync link) clock

variable {view} in
theorem handle_sync_of_ne {n : NodeInfo} (h : n ≠ view.info) :
    (view.sync link : StorageNode V τ).handle clock n = remoteHandle n (clock n) (networkPool link) :=
  if_neg h

/-- A call to a peer that does not answer returns `None` or raises, and changes nothing. -/
theorem networkPool_of_ne {n : NodeInfo} (h : link n ≠ .answers) (c : Clock τ) (msg : Message V τ)
    (s : LocalLWWStore V τ) :
    (networkPool link n c msg s = (.ok none, s)) ∨ ∃ e, networkPool link n c msg s = (.error e, s) := by
  unfold networkPool
  cases hl : link n with
  | answers => exact absurd hl h
  | silent => exact Or.inl rfl
  | raises e => exact Or.inr ⟨e, rfl⟩

/-- The answer of a handle to a read. -/
theorem outcome_handle_sync (n : NodeInfo) :
    outcomeVersion (((view.sync link).handle clock n).getVersioned key (stores n)).1 =
      view.reported link clock key stores n := by
  unfold reported
  by_cases hn : n = view.info
  · subst hn
    rw [handle_sync_self, local_getVersioned, if_pos rfl]
    rfl
  · rw [handle_sync_of_ne _ _ hn, if_neg hn]
    by_cases hl : link n = .answers
    · rw [remote_getVersioned hl, if_pos hl]
      rfl
    · rw [if_neg hl]
      show outcomeVersion ((networkPool link n (clock n) (getMessage key) (stores n)).1.map decodeVersioned) = none
      rcases networkPool_of_ne link hl (clock n) (getMessage key) (stores n) with h | ⟨e, h⟩ <;> rw [h] <;> rfl

theorem store_handle_sync (n : NodeInfo) :
    (((view.sync link).handle clock n).getVersioned key (stores n)).2 =
      if view.Reaches link n then ((stores n).getVersioned (clock n) key).2 else stores n := by
  by_cases hn : n = view.info
  · subst hn
    rw [handle_sync_self, local_getVersioned, if_pos reaches_self]
  · rw [handle_sync_of_ne _ _ hn]
    by_cases hl : link n = .answers
    · rw [remote_getVersioned hl, if_pos (reaches_of_answers hl)]
    · rw [if_neg (not_reaches hn hl)]
      show (networkPool link n (clock n) (getMessage key) (stores n)).2 = _
      rcases networkPool_of_ne link hl (clock n) (getMessage key) (stores n) with h | ⟨e, h⟩ <;> rw [h]

/-! ### What a read returns and leaves -/

theorem resolve_singleton {r : Option (Versioned V)} (h : ∀ x, r = some x → 0 ≤ x.ts) : resolve [r] = visible r := by
  cases r with
  | none => rfl
  | some x =>
    have hx : 0 ≤ x.ts := h x rfl
    refine resolve_eq (List.mem_singleton.2 rfl) hx ?_ ?_
    · intro y hy
      rw [Option.some.inj (List.mem_singleton.1 hy)]
    · intro y hy _
      exact Option.some.inj (List.mem_singleton.1 hy)

omit [Add τ] in
private theorem afterRead_of_nil (h : view.ring.getNodes sha256 key view.replication = []) :
    view.afterRead sha256 link clock key stores =
      Function.update stores view.info ((stores view.info).getVersioned (clock view.info) key).2 := by
  have hm : ∀ n, n ∈ view.replicas sha256 key ↔ n = view.info := by
    intro n
    rw [replicas_of_nil sha256 view h, List.mem_singleton]
  funext n
  unfold afterRead
  by_cases hn : n = view.info
  · subst hn
    rw [if_pos ⟨(hm _).2 rfl, reaches_self⟩, Function.update_self]
  · rw [if_neg (fun h => hn ((hm n).1 h.1)), Function.update_of_ne hn]

private theorem afterRead_of_ne (h : view.ring.getNodes sha256 key view.replication ≠ []) :
    view.afterRead sha256 link clock key stores = fun n =>
      if n ∈ view.ring.getNodes sha256 key view.replication then
        (((view.sync link).handle clock n).getVersioned key (stores n)).2
      else stores n := by
  funext n
  unfold afterRead
  simp only [replicas_of_ne sha256 view h, store_handle_sync]
  by_cases hn : n ∈ view.ring.getNodes sha256 key view.replication <;> simp [hn]

private theorem get_of_nil (h : view.ring.getNodes sha256 key view.replication = []) :
    (view.sync link).get sha256 clock key stores =
      (visible ((stores view.info).report (clock view.info).monotonic key),
        view.afterRead sha256 link clock key stores) := by
  rw [afterRead_of_nil sha256 view link clock key stores h]
  have hlocal := local_get view.info (clock view.info) (stores view.info) key
  have hv : ((stores view.info).get (clock view.info) key).1 =
      visible ((stores view.info).report (clock view.info).monotonic key) :=
    Except.ok.inj (congrArg Prod.fst hlocal)
  have hs : ((stores view.info).get (clock view.info) key).2 =
      ((stores view.info).getVersioned (clock view.info) key).2 := congrArg Prod.snd hlocal
  show (if view.ring.getNodes sha256 key view.replication = [] then
    (((stores view.info).get (clock view.info) key).1,
      Function.update stores view.info ((stores view.info).get (clock view.info) key).2) else _) = _
  rw [if_pos h, hv, hs]

private theorem get_of_ne (h : view.ring.getNodes sha256 key view.replication ≠ []) :
    (view.sync link).get sha256 clock key stores =
      (resolve ((view.ring.getNodes sha256 key view.replication).map
          (fun n => outcomeVersion (((view.sync link).handle clock n).getVersioned key (stores n)).1)),
        view.afterRead sha256 link clock key stores) := by
  show (if view.ring.getNodes sha256 key view.replication = [] then _ else
    LWW.readResolve key ((view.ring.getNodes sha256 key view.replication).map ((view.sync link).handle clock)) stores) =
    _
  rw [if_neg h, LWW.readResolve_eq (StorageNode.node_handle (view.sync link) clock)
      (RendezvousRing.getNodes_nodup _ _ _),
    afterRead_of_ne sha256 view link clock key stores h]

variable (sched : Schedule NodeInfo (LocalLWWStore V τ) PyError (Option (Versioned V)))

/-- The blocking and the async node both return `v` for a read of `key`. -/
def Returns (v : PyObj V) : Prop :=
  ((view.sync link).get sha256 clock key stores).1 = v ∧ ((view.async link sched).get sha256 clock key stores).1 = v

/-- A read of the async node comes to the same as one of the blocking node. -/
theorem async_get_eq :
    (view.async link sched).get sha256 clock key stores = (view.sync link).get sha256 clock key stores := by
  by_cases h : view.ring.getNodes sha256 key view.replication = []
  · show (if view.ring.getNodes sha256 key view.replication = [] then _ else _) =
      (if view.ring.getNodes sha256 key view.replication = [] then _ else _)
    rw [if_pos h, if_pos h]
    rfl
  · show (if view.ring.getNodes sha256 key view.replication = [] then _ else
      AsyncLWW.readResolve sched key
        ((view.ring.getNodes sha256 key view.replication).map ((view.sync link).handle clock)) stores) = _
    rw [if_neg h, AsyncLWW.readResolve_eq (StorageNode.node_handle (view.sync link) clock)
        (RendezvousRing.getNodes_nodup _ _ _),
      get_of_ne sha256 view link clock key stores h, afterRead_of_ne sha256 view link clock key stores h]

/-- A read leaves every reached replica as after a `get_versioned` and does not touch the other stores. -/
theorem get_snd :
    ((view.sync link).get sha256 clock key stores).2 = view.afterRead sha256 link clock key stores := by
  by_cases h : view.ring.getNodes sha256 key view.replication = []
  · rw [get_of_nil sha256 view link clock key stores h]
  · rw [get_of_ne sha256 view link clock key stores h]

/-- A read returns what is resolved from the versions that the replicas report.  When the ring is empty the timestamp
of the local version is not looked at, and has to be such as `time_ns` produces. -/
theorem get_fst (h0 : view.ring.getNodes sha256 key view.replication = [] →
      ∀ r, (stores view.info).report (clock view.info).monotonic key = some r → 0 ≤ r.ts) :
    ((view.sync link).get sha256 clock key stores).1 =
      resolve ((view.replicas sha256 key).map (view.reported link clock key stores)) := by
  by_cases h : view.ring.getNodes sha256 key view.replication = []
  · rw [replicas_of_nil sha256 view h, get_of_nil sha256 view link clock key stores h, List.map_singleton,
      reported_self, resolve_singleton (h0 h)]
  · rw [replicas_of_ne sha256 view h, get_of_ne sha256 view link clock key stores h]
    refine congrArg resolve (List.map_congr_left ?_)
    intro n _
    exact outcome_handle_sync view link clock key stores n

/-- A newest version among those reported, without a different one of the same timestamp, is the result of the read. -/
theorem get_of_newest {n : NodeInfo} {m : Versioned V} (hn : n ∈ view.replicas sha256 key)
    (hm : view.reported link clock key stores n = some m) (hpos : 0 ≤ m.ts)
    (hmax : ∀ n' ∈ view.replicas sha256 key, ∀ r, view.reported link clock key stores n' = some r →
      r.ts ≤ m.ts ∧ (r.ts = m.ts → r = m)) :
    view.Returns sha256 link clock key stores sched (visible (some m)) := by
  have hmem : ∀ r, some r ∈ (view.replicas sha256 key).map (view.reported link clock key stores) →
      r.ts ≤ m.ts ∧ (r.ts = m.ts → r = m) := by
    intro r hr
    obtain ⟨n', hn', hr⟩ := List.mem_map.1 hr
    exact hmax n' hn' r hr
  have h0 : view.ring.getNodes sha256 key view.replication = [] →
      ∀ r, (stores view.info).report (clock view.info).monotonic key = some r → 0 ≤ r.ts := by
    intro h r hr
    rw [replicas_of_nil sha256 view h, List.mem_singleton] at hn
    subst hn
    rw [reported_self] at hm
    rw [Option.some.inj (hr.symm.trans hm)]
    exact hpos
  unfold Returns
  rw [async_get_eq, and_self, get_fst sha256 view link clock key stores h0]
  exact resolve_eq (hm ▸ List.mem_map_of_mem hn) hpos (fun r hr => (hmem r hr).1) (fun r hr => (hmem r hr).2)

/-- A read to which no replica reports a version returns `None`. -/
theorem get_of_none (h : ∀ n ∈ view.replicas sha256 key, view.reported link clock key stores n = none) :
    view.Returns sha256 link clock key stores sched none := by
  have h0 : view.ring.getNodes sha256 key view.replication = [] →
      ∀ r, (stores view.info).report (clock view.info).monotonic key = some r → 0 ≤ r.ts := by
    intro hnil r hr
    rw [replicas_of_nil sha256 view hnil] at h
    have hnone := h view.info (List.mem_singleton.2 rfl)
    rw [reported_self, hr] at hnone
    cases hnone
  unfold Returns
  rw [async_get_eq, and_self, get_fst sha256 view link clock key stores h0]
  apply resolve_none
  intro r hr
  obtain ⟨n, hn, hr⟩ := List.mem_map.1 hr
  exact absurd (hr.symm.trans (h n hn)) (by simp)

/-! ### The version behind the value -/

/-- The version whose value a read returns; none when the read returns `None` without one. -/
def returned : Option (Versioned V) :=
  if view.ring.getNodes sha256 key view.replication = [] then
    ((stores view.info).report (clock view.info).monotonic key).filter (fun r => !r.isTombstone)
  else
    let best := bestOf ((view.ring.getNodes sha256 key view.replication).map (view.reported link clock key stores))
    if best.ts < 0 || best.isTombstone then none else some best

/-- A read returns the value of the version behind it. -/
theorem get_eq_returned :
    view.Returns sha256 link clock key stores sched
      ((view.returned sha256 link clock key stores).bind Versioned.value) := by
  unfold Returns
  rw [async_get_eq, and_self]
  unfold returned
  by_cases h : view.ring.getNodes sha256 key view.replication = []
  · rw [if_pos h, get_of_nil sha256 view link clock key stores h]
    cases (stores view.info).report (clock view.info).monotonic key with
    | none => rfl
    | some r =>
      show visible (some r) = _
      unfold visible
      cases hr : r.isTombstone <;> simp [Option.filter_some, hr]
  · rw [if_neg h, get_of_ne sha256 view link clock key stores h]
    simp only [outcome_handle_sync]
    unfold resolve
    simp only
    split <;> rfl

omit [Add τ] in
/-- The version behind a read is live, and among the reported versions none is newer, and none of the same timestamp is
reported by an earlier replica. -/
theorem returned_eq_some_iff {m : Versioned V} :
    view.returned sha256 link clock key stores = some m ↔
      m.isTombstone = false ∧ (view.ring.getNodes sha256 key view.replication = [] ∨ 0 ≤ m.ts) ∧
        ∃ q ∈ view.replicas sha256 key, view.reported link clock key stores q = some m ∧
          ∀ q' ∈ view.replicas sha256 key, ∀ m', view.reported link clock key stores q' = some m' →
            m'.ts ≤ m.ts ∧
              (m'.ts = m.ts → (view.replicas sha256 key).idxOf q ≤ (view.replicas sha256 key).idxOf q') := by
  have hlead : Base.leading Versioned.ts
      ((view.replicas sha256 key).filterMap (view.reported link clock key stores)) = some m ↔ _ :=
    Base.leading_filterMap_iff
  rw [← hlead]
  clear hlead
  unfold returned
  by_cases h : view.ring.getNodes sha256 key view.replication = []
  · rw [if_pos h, replicas_of_nil sha256 view h, Option.filter_eq_some_iff, List.filterMap_cons, reported_self]
    cases (stores view.info).report (clock view.info).monotonic key with
    | none => simp [Base.leading, Base.best]
    | some r =>
      simp only [Base.leading, Base.best, List.filterMap_nil, List.foldl_cons, List.foldl_nil, Base.replace, h, true_or,
        true_and, Bool.not_eq_true']
      exact and_comm
  · rw [if_neg h, replicas_of_ne sha256 view h]
    have hmap : (view.ring.getNodes sha256 key view.replication).filterMap (view.reported link clock key stores) =
        ((view.ring.getNodes sha256 key view.replication).map (view.reported link clock key stores)).filterMap id := by
      rw [List.filterMap_map]
      rfl
    rw [hmap]
    simp only [h, false_or]
    constructor
    · intro hb
      split at hb
      · cases hb
      · rename_i hlive
        simp only [Bool.or_eq_true, decide_eq_true_eq, not_or, not_lt, Bool.not_eq_true] at hlive
        cases hb
        exact ⟨hlive.2, hlive.1, (bestOf_eq_iff hlive.1).1 rfl⟩
    · rintro ⟨hlive, hpos, hlead⟩
      rw [(bestOf_eq_iff hpos).2 hlead, hlive]
      simp [not_lt.2 hpos]

end NodeView

end DLStorage
