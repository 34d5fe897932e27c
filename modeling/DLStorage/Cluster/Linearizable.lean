import DLStorage.Cluster.Knowledge
import DLStorage.Base.Linearizable

/-!
# Linearizability of the cluster

Calls on one key overlap in any way, requests and answers are lost, and requests are executed twice or late.  Take the
reads that every replica answered, and the writes; a write counts as finished when it has returned and some replica
answered it.  When no write on the key has a lifetime and the timestamps increase in the order in which the writes are
issued, this history is that of a register (`cluster_linearizable`).
-/

namespace DLStorage

open Base (History Access register)

variable {V τ : Type}

/-! ### The history of a key -/

namespace ApiCall

variable (call : ApiCall V τ) (k : String)

/-- What the call does to the register of `k`. -/
def access : Option (Access (PyObj V)) :=
  match call.request with
  | .get key => if key = k then some .read else none
  | .write w => if w.key = k then some (.write w.carried) else none

/-- When the call has returned, and with what value: a read that all replicas answered, or a write that some replica
answered. -/
def returned : Option (Nat × Option (PyObj V)) :=
  match call.request, call.ended with
  | .get key, some (t, .value v) => if key = k ∧ call.replicas.all call.reached then some (t, some v) else none
  | .write w, some (t, _) => if w.key = k ∧ call.replicas.any call.reached then some (t, none) else none
  | _, _ => none

end ApiCall

/-- The history of the register of `k`. -/
def ClusterState.history (s : ClusterState V τ) (k : String) :
    History Nat (Access (PyObj V)) (Option (PyObj V)) where
  call i := s.calls[i]?.bind fun call => (call.access k).map fun a => (call.began, a)
  ret i := s.calls[i]?.bind fun call => call.returned k

namespace ClusterState

variable {sha256 : String → List UInt8} {ring : RendezvousRing} {replication : Nat}

section Run

variable [LinearOrder τ] [Add τ]

/-! #### Order in the list of calls -/

section Order

variable {run : ApiRun V τ} {k : String} {i j : Nat} {call call' : ApiCall V τ}
  (hi : (concurrentAfter sha256 ring replication run).calls[i]? = some call)
  (hj : (concurrentAfter sha256 ring replication run).calls[j]? = some call')

include hi hj

private theorem began_lt (hij : i < j) : call.began < call'.began := by
  obtain ⟨hi', rfl⟩ := List.getElem?_eq_some_iff.1 hi
  obtain ⟨hj', rfl⟩ := List.getElem?_eq_some_iff.1 hj
  have hpair := List.pairwise_map.1 (began_after sha256 ring replication run).1
  exact List.pairwise_iff_getElem.1 hpair i j hi' hj' hij

private theorem lt_of_began_lt (hlt : call.began < call'.began) : i < j := by
  by_contra hij
  rcases lt_or_eq_of_le (not_lt.1 hij) with hji | rfl
  · have := began_lt hj hi hji
    omega
  · rw [Option.some.inj (hi.symm.trans hj)] at hlt
    omega

private theorem ts_lt (hrun : run.StampedOn k) {w w' : Write V τ} (hw : call.request.writes k = some w)
    (hw' : call'.request.writes k = some w') (hij : i < j) : w.ts < w'.ts := by
  obtain ⟨hi', rfl⟩ := List.getElem?_eq_some_iff.1 hi
  obtain ⟨hj', rfl⟩ := List.getElem?_eq_some_iff.1 hj
  have hevents : (run.filterMap (ApiEvent.writes k)).Pairwise (fun w w' : Write V τ => w.ts < w'.ts) := by
    rw [List.pairwise_filterMap]
    exact hrun.increasing.imp fun h w hw w' hw' => h w w' hw hw'
  rw [← writes_after sha256 ring replication, List.pairwise_filterMap] at hevents
  exact List.pairwise_iff_getElem.1 hevents i j hi' hj' hij w hw w' hw'

end Order

/-! #### Stamps -/

/-- The place of a call in the order of the register: the timestamp of a write, and for a read that of the version whose
value it returns. -/
private def stamp (call : ApiCall V τ) : Int :=
  match call.request with
  | .get _ => (bestOf (call.replicas.map call.version)).ts
  | .write w => w.ts

private def stampOf (s : ClusterState V τ) (i : Nat) : Int := (s.calls[i]?.map stamp).getD 0

/-- The calls that the order of the register comprises: all writes, and the reads that returned. -/
private def Counts (k : String) (call : ApiCall V τ) : Bool :=
  (call.request.writes k).isSome || (call.returned k).isSome

private def counted (s : ClusterState V τ) (k : String) : List Nat :=
  (List.range s.calls.length).filter fun i => s.calls[i]?.any (Counts k)

section History

variable {s : ClusterState V τ} {k : String}

omit [LinearOrder τ] [Add τ]

private theorem mem_counted {i : Nat} : i ∈ counted s k ↔ ∃ call, s.calls[i]? = some call ∧ Counts k call = true := by
  unfold counted
  rw [List.mem_filter, List.mem_range, Option.any_eq_true]
  constructor
  · rintro ⟨-, h⟩
    exact h
  · rintro ⟨call, hi, hc⟩
    exact ⟨(List.getElem?_eq_some_iff.1 hi).1, call, hi, hc⟩

/-- A call that counts is a write or a read that has returned. -/
private theorem counts_cases {call : ApiCall V τ} (h : Counts k call = true) :
    (∃ w, call.request.writes k = some w) ∨ (call.request = .get k ∧ ∃ r, call.returned k = some r) := by
  unfold Counts at h
  rw [Bool.or_eq_true, Option.isSome_iff_exists, Option.isSome_iff_exists] at h
  rcases h with h | ⟨r, hr⟩
  · exact Or.inl h
  · cases hreq : call.request with
    | write w =>
      refine Or.inl ⟨w, ?_⟩
      unfold ApiCall.returned at hr
      simp only [hreq] at hr
      split at hr
      · rename_i heq _
        cases heq
      · rename_i w' t v heq _
        obtain rfl := ApiRequest.write.inj heq
        exact writes_eq_some_iff.2 ⟨rfl, (Option.ite_none_right_eq_some.1 hr).1.1⟩
      · cases hr
    | get key =>
      refine Or.inr ⟨?_, r, hr⟩
      unfold ApiCall.returned at hr
      simp only [hreq] at hr
      split at hr
      · rename_i key' t v heq _
        obtain rfl := ApiRequest.get.inj heq
        rw [(Option.ite_none_right_eq_some.1 hr).1.1]
      · rename_i heq _
        cases heq
      · cases hr

private theorem stampOf_eq {i : Nat} {call : ApiCall V τ} (hi : s.calls[i]? = some call) :
    stampOf s i = stamp call := by
  unfold stampOf
  rw [hi]
  rfl

private theorem call_eq {i : Nat} {call : ApiCall V τ} (hi : s.calls[i]? = some call) :
    (s.history k).call i = (call.access k).map fun a => (call.began, a) := by
  show s.calls[i]?.bind _ = _
  rw [hi]
  rfl

private theorem exists_of_call {i : Nat} {c : Nat × Access (PyObj V)} (h : (s.history k).call i = some c) :
    ∃ call, s.calls[i]? = some call ∧ call.began = c.1 ∧ call.access k = some c.2 := by
  obtain ⟨call, hi, hc⟩ := Option.bind_eq_some_iff.1 h
  obtain ⟨a, ha, rfl⟩ := Option.map_eq_some_iff.1 hc
  exact ⟨call, hi, rfl, ha⟩

private theorem exists_of_reads {i : Nat} (h : (s.history k).Reads i) :
    ∃ call, s.calls[i]? = some call ∧ call.request = .get k := by
  obtain ⟨t, ht⟩ := h
  obtain ⟨call, hi, -, ha⟩ := exists_of_call ht
  refine ⟨call, hi, ?_⟩
  unfold ApiCall.access at ha
  split at ha
  · rename_i key hreq
    rw [hreq, (Option.ite_none_right_eq_some.1 ha).1]
  · have := (Option.ite_none_right_eq_some.1 ha).2
    simp at this

private theorem exists_of_writes {i : Nat} {a : PyObj V} (h : (s.history k).Writes i a) :
    ∃ call w, s.calls[i]? = some call ∧ call.request.writes k = some w ∧ w.carried = a := by
  obtain ⟨t, ht⟩ := h
  obtain ⟨call, hi, -, ha⟩ := exists_of_call ht
  unfold ApiCall.access at ha
  split at ha
  · have := (Option.ite_none_right_eq_some.1 ha).2
    simp at this
  · rename_i w hreq
    obtain ⟨hk, ha⟩ := Option.ite_none_right_eq_some.1 ha
    simp only [Option.some.injEq, Access.write.injEq] at ha
    exact ⟨call, w, hi, writes_eq_some_iff.2 ⟨hreq, hk⟩, ha⟩

private theorem writes_of_exists {i : Nat} {call : ApiCall V τ} {w : Write V τ} (hi : s.calls[i]? = some call)
    (hw : call.request = .write w) (hk : w.key = k) : (s.history k).Writes i w.carried := by
  refine ⟨call.began, ?_⟩
  rw [call_eq hi]
  simp [ApiCall.access, hw, hk]

/-- A return in the history is that of a read which all replicas answered or of a write which some replica answered. -/
private theorem exists_of_ret {i : Nat} {r : Nat × Option (PyObj V)} (h : (s.history k).ret i = some r) :
    ∃ call, s.calls[i]? = some call ∧ Counts k call = true ∧
      ((call.request = .get k ∧ (∀ n ∈ call.replicas, call.reached n = true) ∧
          ∃ v, call.ended = some (r.1, .value v) ∧ r.2 = some v) ∨
        ∃ w, call.request.writes k = some w ∧ (∃ n ∈ call.replicas, call.reached n = true) ∧
          (∃ v, call.ended = some (r.1, v)) ∧ r.2 = none) := by
  obtain ⟨call, hi, hret⟩ := Option.bind_eq_some_iff.1 h
  have hcounts : Counts k call = true := by
    unfold Counts
    rw [hret, Option.isSome_some, Bool.or_true]
  refine ⟨call, hi, hcounts, ?_⟩
  unfold ApiCall.returned at hret
  split at hret
  · rename_i key t v hreq hended
    obtain ⟨⟨rfl, hall⟩, hr⟩ := Option.ite_none_right_eq_some.1 hret
    rw [← Option.some.inj hr]
    exact Or.inl ⟨hreq, List.all_eq_true.1 hall, v, hended, rfl⟩
  · rename_i w t v hreq hended
    obtain ⟨⟨hk, hany⟩, hr⟩ := Option.ite_none_right_eq_some.1 hret
    rw [← Option.some.inj hr]
    exact Or.inr ⟨w, writes_eq_some_iff.2 ⟨hreq, hk⟩, List.any_eq_true.1 hany, ⟨v, hended⟩, rfl⟩
  · cases hret

end History

omit [LinearOrder τ] [Add τ] in
private theorem stamp_of_writes {call : ApiCall V τ} {k : String} {w : Write V τ}
    (hw : call.request.writes k = some w) : stamp call = w.ts := by
  unfold stamp
  rw [(writes_eq_some_iff.1 hw).1]

section Read

variable {s : ClusterState V τ} {k : String} {i : Nat} {call : ApiCall V τ} (hreq : call.request = .get k)

omit [LinearOrder τ] [Add τ]

include hreq

private theorem stamp_of_read : stamp call = (bestOf (call.replicas.map call.version)).ts := by
  unfold stamp
  rw [hreq]

private theorem neg_one_le_stamp (h : s.Consistent k) (hi : s.calls[i]? = some call) : -1 ≤ stamp call := by
  rw [stamp_of_read hreq]
  rcases read_cases h hi hreq with ⟨n, hn, w, t, hr, -⟩ | ⟨hts, -⟩
  · have hpos := version_nonneg h hi hreq hr
    have := le_best h hi hreq hn hr
    omega
  · omega

end Read

section Stamps

variable (hpos : 0 < replication) {run : ApiRun V τ} (hrouted : run.Routed ring) {k : String} (hrun : run.StampedOn k)

include hpos hrouted hrun

/-- A read that begins after a call on the key has returned gets no smaller stamp. -/
private theorem stamp_le_read {i j : Nat} {call call' : ApiCall V τ}
    (hi : (concurrentAfter sha256 ring replication run).calls[i]? = some call)
    (hj : (concurrentAfter sha256 ring replication run).calls[j]? = some call') (hk : call.request.key = k)
    {t : Nat} {v : ApiResult V} (hended : call.ended = some (t, v)) (hlt : t < call'.began)
    (hreq : call'.request = .get k) (hall : ∀ n ∈ call'.replicas, call'.reached n = true) {n : NodeInfo}
    (hn : n ∈ call.replicas) {ts : Int} (hknows : call.Knows k n ts) : ts ≤ stamp call' := by
  have h := consistent_after sha256 ring replication hrun.toPermanentOn
  have hsame : call.replicas = call'.replicas :=
    same_replicas hpos hrouted (List.mem_of_getElem? hi) (List.mem_of_getElem? hj) hk (by rw [hreq]; rfl)
  rw [hsame] at hn
  obtain ⟨r, hr, hle⟩ := h.fresh i j call call' n ts t v hi hj hended hlt hknows hreq (hall n hn)
  rw [stamp_of_read hreq]
  exact le_trans hle (le_best h hj hreq hn hr)

omit hpos hrouted in
/-- A write that begins after a call on the key has returned gets a greater stamp. -/
private theorem stamp_lt_write {i j : Nat} {r : Nat × Option (PyObj V)} {call' : ApiCall V τ} {w' : Write V τ}
    (hret : ((concurrentAfter sha256 ring replication run).history k).ret i = some r)
    (hj : (concurrentAfter sha256 ring replication run).calls[j]? = some call')
    (hw' : call'.request.writes k = some w') (hlt : r.1 < call'.began) :
    stampOf (concurrentAfter sha256 ring replication run) i < w'.ts := by
  have h := consistent_after sha256 ring replication hrun.toPermanentOn
  obtain ⟨call, hi, -, ⟨hreq, -, v, hended, -⟩ | ⟨w, hw, -, ⟨v, hended⟩, -⟩⟩ := exists_of_ret hret
  · rw [stampOf_eq hi, stamp_of_read hreq]
    rcases read_cases h hi hreq with ⟨n, -, w, t, -, ⟨i', callw, hi', hreqw, hk, rfl⟩, hts, -, hbefore⟩ | ⟨hts, -⟩
    · -- the write that the read has heard of began before the read returned
      have hbegan := hbefore _ _ hended
      rw [hts]
      exact ts_lt hi' hj hrun (writes_eq_some_iff.2 ⟨hreqw, hk⟩) hw' (lt_of_began_lt hi' hj (by omega))
    · obtain ⟨hreqw, hk⟩ := writes_eq_some_iff.1 hw'
      have := (h.permanent w' call'.began ⟨j, call', hj, hreqw, hk, rfl⟩).2
      omega
  · have hbegan := (h.ended i call r.1 v hi hended).1
    rw [stampOf_eq hi, stamp_of_writes hw]
    exact ts_lt hi hj hrun hw hw' (lt_of_began_lt hi hj (by omega))

/-- The same for the stamps of the history. -/
private theorem stampOf_le_read {i j : Nat} {r : Nat × Option (PyObj V)}
    {call' : ApiCall V τ} (hret : ((concurrentAfter sha256 ring replication run).history k).ret i = some r)
    (hj : (concurrentAfter sha256 ring replication run).calls[j]? = some call') (hreq' : call'.request = .get k)
    (hall : ∀ n ∈ call'.replicas, call'.reached n = true) (hlt : r.1 < call'.began) :
    stampOf (concurrentAfter sha256 ring replication run) i ≤ stamp call' := by
  have h := consistent_after sha256 ring replication hrun.toPermanentOn
  obtain ⟨call, hi, -, ⟨hreq, -, v, hended, -⟩ | ⟨w, hw, ⟨n, hn, hreached⟩, ⟨v, hended⟩, -⟩⟩ := exists_of_ret hret
  · rw [stampOf_eq hi, stamp_of_read hreq]
    rcases read_cases h hi hreq with ⟨n, hn, w, t, hr, -, hts, -⟩ | ⟨hts, -⟩
    · refine stamp_le_read hpos hrouted hrun hi hj (by rw [hreq]; rfl) hended hlt hreq' hall hn ?_
      unfold ApiCall.Knows
      rw [hreq]
      exact ⟨rfl, _, hr, by rw [hts, Write.version_ts]⟩
    · rw [hts]
      exact neg_one_le_stamp hreq' h hj
  · obtain ⟨hreq, hk⟩ := writes_eq_some_iff.1 hw
    rw [stampOf_eq hi, stamp_of_writes hw]
    refine stamp_le_read hpos hrouted hrun hi hj (by rw [hreq]; exact hk) hended hlt hreq' hall hn ?_
    unfold ApiCall.Knows
    rw [hreq]
    exact ⟨hk, hreached, rfl⟩

omit hpos hrouted in
/-- A read returns the value of the write with its stamp. -/
private theorem read_stamped {i : Nat} (hcounted : i ∈ counted (concurrentAfter sha256 ring replication run) k)
    (hreads : ((concurrentAfter sha256 ring replication run).history k).Reads i) :
    ∃ t a, ((concurrentAfter sha256 ring replication run).history k).ret i = some (t, some a) ∧
      ((∃ j ∈ counted (concurrentAfter sha256 ring replication run) k,
          ((concurrentAfter sha256 ring replication run).history k).Writes j a ∧
            stampOf (concurrentAfter sha256 ring replication run) j =
              stampOf (concurrentAfter sha256 ring replication run) i) ∨
        (a = none ∧ ∀ j ∈ counted (concurrentAfter sha256 ring replication run) k, ∀ b,
          ((concurrentAfter sha256 ring replication run).history k).Writes j b →
            stampOf (concurrentAfter sha256 ring replication run) i <
              stampOf (concurrentAfter sha256 ring replication run) j)) := by
  have h := consistent_after sha256 ring replication hrun.toPermanentOn
  obtain ⟨call, hi, hreq⟩ := exists_of_reads hreads
  obtain ⟨call', hi', hcounts⟩ := mem_counted.1 hcounted
  obtain rfl := Option.some.inj (hi.symm.trans hi')
  rcases counts_cases hcounts with ⟨w, hw⟩ | ⟨-, r, hr⟩
  · rw [hreq] at hw
    cases hw
  have hret : ((concurrentAfter sha256 ring replication run).history k).ret i = some r := by
    show (concurrentAfter sha256 ring replication run).calls[i]?.bind _ = _
    rw [hi]
    exact hr
  obtain ⟨call', hi', -, ⟨-, -, v, hended, hv⟩ | ⟨w, hw, -⟩⟩ := exists_of_ret hret
  · obtain rfl := Option.some.inj (hi.symm.trans hi')
    have hresult : ApiResult.value v = call.result := (h.ended i call r.1 _ hi hended).2.2
    rw [result_of_read h hi hreq (framed_after sha256 ring replication run call (List.mem_of_getElem? hi)),
      ApiResult.value.injEq] at hresult
    refine ⟨r.1, v, by rw [hret, ← hv], ?_⟩
    rw [stampOf_eq hi, stamp_of_read hreq]
    rcases read_cases h hi hreq with ⟨n, -, w, t, -, ⟨j, callw, hj, hreqw, hk, -⟩, hts, hres, -⟩ | ⟨hts, hres⟩
    · have hw := writes_eq_some_iff.2 ⟨hreqw, hk⟩
      refine Or.inl ⟨j, mem_counted.2 ⟨callw, hj, by simp [Counts, hw]⟩, ?_, ?_⟩
      · rw [hresult, hres]
        exact writes_of_exists hj hreqw hk
      · rw [stampOf_eq hj, stamp_of_writes hw, hts]
    · refine Or.inr ⟨by rw [hresult, hres], ?_⟩
      intro j _ b hwj
      obtain ⟨callw, w, hj, hw, -⟩ := exists_of_writes hwj
      obtain ⟨hreqw, hk⟩ := writes_eq_some_iff.1 hw
      have := (h.permanent w callw.began ⟨j, callw, hj, hreqw, hk, rfl⟩).2
      rw [stampOf_eq hj, stamp_of_writes hw]
      omega
  · obtain rfl := Option.some.inj (hi.symm.trans hi')
    rw [hreq] at hw
    cases hw

omit hpos hrouted in
/-- A write that begins after a call has returned has a greater stamp. -/
private theorem stamp_lt_of_before {i j : Nat} {a : PyObj V}
    (hbefore : ((concurrentAfter sha256 ring replication run).history k).Before i j)
    (hwrites : ((concurrentAfter sha256 ring replication run).history k).Writes j a) :
    stampOf (concurrentAfter sha256 ring replication run) i <
      stampOf (concurrentAfter sha256 ring replication run) j := by
  obtain ⟨r, c, hret, hcall, hlt⟩ := hbefore
  obtain ⟨call', w', hj, hw', -⟩ := exists_of_writes hwrites
  obtain ⟨call'', hj', hbegan, -⟩ := exists_of_call hcall
  obtain rfl := Option.some.inj (hj.symm.trans hj')
  rw [stampOf_eq hj, stamp_of_writes hw']
  exact stamp_lt_write hrun hret hj hw' (by rwa [hbegan])

/-- A read that begins after a call has returned has no smaller stamp. -/
private theorem stamp_le_of_before {i j : Nat}
    (hbefore : ((concurrentAfter sha256 ring replication run).history k).Before i j) {call : ApiCall V τ}
    (hj : (concurrentAfter sha256 ring replication run).calls[j]? = some call) (hreq : call.request = .get k)
    {r' : Nat × Option (PyObj V)} (hr' : call.returned k = some r') :
    stampOf (concurrentAfter sha256 ring replication run) i ≤
      stampOf (concurrentAfter sha256 ring replication run) j := by
  obtain ⟨r, c, hret, hcall, hlt⟩ := hbefore
  obtain ⟨call'', hj', hbegan, -⟩ := exists_of_call hcall
  obtain rfl := Option.some.inj (hj.symm.trans hj')
  have hret' : ((concurrentAfter sha256 ring replication run).history k).ret j = some r' := by
    show (concurrentAfter sha256 ring replication run).calls[j]?.bind _ = _
    rw [hj]
    exact hr'
  obtain ⟨call'', hj', -, ⟨-, hall, -⟩ | ⟨w, hw, -⟩⟩ := exists_of_ret hret'
  · obtain rfl := Option.some.inj (hj.symm.trans hj')
    rw [stampOf_eq hj]
    exact stampOf_le_read hpos hrouted hrun hret hj hreq hall (by rwa [hbegan])
  · obtain rfl := Option.some.inj (hj.symm.trans hj')
    rw [hreq] at hw
    cases hw

/-- The stamps order the history as a register does. -/
private theorem history_stamped :
    ((concurrentAfter sha256 ring replication run).history k).Stamped none
      (counted (concurrentAfter sha256 ring replication run) k)
      (stampOf (concurrentAfter sha256 ring replication run)) := by
  have h := consistent_after sha256 ring replication hrun.toPermanentOn
  constructor
  · exact List.nodup_range.filter _
  · intro i hi
    obtain ⟨call, hcall, hcounts⟩ := mem_counted.1 hi
    rw [call_eq hcall]
    rcases counts_cases hcounts with ⟨w, hw⟩ | ⟨hreq, -⟩
    · obtain ⟨hreq, hk⟩ := writes_eq_some_iff.1 hw
      exact ⟨(call.began, .write w.carried), by simp [ApiCall.access, hreq, hk]⟩
    · exact ⟨(call.began, .read), by simp [ApiCall.access, hreq]⟩
  · intro i r hret
    obtain ⟨call, hi, hcounts, -⟩ := exists_of_ret hret
    exact mem_counted.2 ⟨call, hi, hcounts⟩
  · intro i c r hcall hret
    obtain ⟨call, hi, hbegan, -⟩ := exists_of_call hcall
    obtain ⟨call', hi', -, ⟨-, -, v, hended, -⟩ | ⟨w, -, -, ⟨v, hended⟩, -⟩⟩ := exists_of_ret hret
    · obtain rfl := Option.some.inj (hi.symm.trans hi')
      rw [← hbegan]
      exact (h.ended i call r.1 _ hi hended).1
    · obtain rfl := Option.some.inj (hi.symm.trans hi')
      rw [← hbegan]
      exact (h.ended i call r.1 _ hi hended).1
  · intro i a r hwrites hret
    obtain ⟨call, w, hi, hw, -⟩ := exists_of_writes hwrites
    obtain ⟨call', hi', -, ⟨hreq, -⟩ | ⟨-, -, -, -, hnone⟩⟩ := exists_of_ret hret
    · obtain rfl := Option.some.inj (hi.symm.trans hi')
      rw [hreq] at hw
      cases hw
    · exact hnone
  · intro i _ j _ a b hwi hwj heq
    obtain ⟨call, w, hi, hw, -⟩ := exists_of_writes hwi
    obtain ⟨call', w', hj, hw', -⟩ := exists_of_writes hwj
    rw [stampOf_eq hi, stampOf_eq hj, stamp_of_writes hw, stamp_of_writes hw'] at heq
    rcases lt_trichotomy i j with hij | rfl | hji
    · have := ts_lt hi hj hrun hw hw' hij
      omega
    · rfl
    · have := ts_lt hj hi hrun hw' hw hji
      omega
  · intro i hcounted hreads
    exact read_stamped hrun hcounted hreads
  · intro i _ j hcj hbefore
    obtain ⟨call', hj, hcounts⟩ := mem_counted.1 hcj
    rcases counts_cases hcounts with ⟨w', hw'⟩ | ⟨hreq', r', hr'⟩
    · obtain ⟨hreqw, hk⟩ := writes_eq_some_iff.1 hw'
      exact le_of_lt (stamp_lt_of_before hrun hbefore (writes_of_exists hj hreqw hk))
    · exact stamp_le_of_before hpos hrouted hrun hbefore hj hreq' hr'
  · intro i _ j _ a
    exact stamp_lt_of_before hrun

end Stamps

end Run

end ClusterState

variable [LinearOrder τ] [Add τ]

/-- The history of every key is that of a register: overlapping calls, lost and repeated requests included, the reads
that all replicas answered and the writes can be put in an order in which every read returns the last value written.  A
write is finished when it has returned and some replica answered it. -/
theorem cluster_linearizable {sha256 : String → List UInt8} {ring : RendezvousRing} {replication : Nat}
    (hpos : 0 < replication) {run : ApiRun V τ} (hrouted : run.Routed ring) {k : String} (hrun : run.StampedOn k) :
    ((concurrentAfter sha256 ring replication run).history k).Linearizable register none :=
  (ClusterState.history_stamped hpos hrouted hrun).linearizable

/-- Two sets and a read overlap; the read returns the value of the second set before either set has returned. -/
def overlappingRun : ApiRun Nat Int :=
  [.set (localhost 7001) true 5 "k" (some 1) none, .ask 0 (localhost 7003) ⟨0, 5⟩ .answers,
    .set (localhost 7002) false 6 "k" (some 2) none, .ask 1 (localhost 7001) ⟨0, 6⟩ .answers,
    .get (localhost 7001) false "k", .ask 2 (localhost 7001) ⟨0, 7⟩ .silent, .ask 2 (localhost 7003) ⟨0, 7⟩ .answers,
    .finish 2, .ask 0 (localhost 7001) ⟨0, 8⟩ .silent, .finish 0, .ask 1 (localhost 7003) ⟨0, 9⟩ .silent, .finish 1]

theorem overlappingRun_linearizable :
    ((concurrentAfter sha256Digest localRing 2 overlappingRun).history "k").Linearizable register none := by
  refine cluster_linearizable (by decide) (Or.inl (by decide)) ?_
  have hwrites : overlappingRun.filterMap (ApiEvent.writes "k") =
      [.set "k" (some 1) none 5, .set "k" (some 2) none 6] := rfl
  refine ApiRun.stampedOn_of_writes hwrites ?_ (by decide)
  intro w hw
  simp only [List.mem_cons, List.not_mem_nil, or_false] at hw
  rcases hw with rfl | rfl <;> decide

example : ((concurrentAfter sha256Digest localRing 2 overlappingRun).history "k").ret 2 = some (7, some (some 2)) := by
  decide +kernel

end DLStorage
