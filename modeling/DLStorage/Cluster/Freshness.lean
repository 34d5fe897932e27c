import DLStorage.Cluster.Knowledge

/-!
# Fresh reads

A read that only some of its replicas answer, with other calls under way and with lost, repeated and late requests,
still returns nothing older than what these replicas held when it began (`get_no_older`), and nothing older than what
an earlier call has written at or heard from one of them (`get_after_call`).  So a read that all replicas answer never
goes back behind what an earlier read has returned, or an earlier write has brought to some replica
(`reads_go_forward`).
-/

namespace DLStorage

open Base (after after_append after_invariant)

variable {V τ : Type} [LinearOrder τ] [Add τ]

namespace ClusterState

/-- What has become of the entries for `k` of an earlier state: they were only replaced by newer ones, and the reads
that began since have heard of them or of newer ones. -/
private structure Since (s₀ s : ClusterState V τ) (k : String) : Prop where
  count : s₀.calls.length ≤ s.calls.length
  grows : ∀ n e₀, (s₀.stores n).entry k = some e₀ → ∃ e, (s.stores n).entry k = some e ∧ e₀.ts ≤ e.ts
  hears : ∀ (i : Nat) (call : ApiCall V τ) n e₀, s₀.calls.length ≤ i → s.calls[i]? = some call →
    call.request = .get k → call.reached n = true → (s₀.stores n).entry k = some e₀ →
    ∃ r, call.version n = some r ∧ e₀.ts ≤ r.ts

variable {s₀ s : ClusterState V τ} {k : String}

omit [LinearOrder τ] [Add τ] in
private theorem since_refl : Since s s k where
  count := le_refl _
  grows _ e₀ he := ⟨e₀, he, le_refl _⟩
  hears i _ _ _ hlen hcall := by
    have := (List.getElem?_eq_some_iff.1 hcall).1
    omega

/-- The entries of the earlier state stay or grow when the store of a replica changes. -/
private theorem Since.grows_update (h : Since s₀ s k) (hs : s.Consistent k) {stores : Stores V τ}
    (heffect : ∀ n, s.Effect n (stores n)) {n : NodeInfo} {e₀ : Entry V τ} (he₀ : (s₀.stores n).entry k = some e₀) :
    ∃ e, (stores n).entry k = some e ∧ e₀.ts ≤ e.ts := by
  obtain ⟨e, he, hle⟩ := h.grows n e₀ he₀
  obtain ⟨e', he', hle'⟩ := hs.grows (heffect n) he
  exact ⟨e', he', le_trans hle hle'⟩

private theorem Since.ask (h : Since s₀ s k) (hs : s.Consistent k) {i : Nat} {call : ApiCall V τ}
    (hcall : s.calls[i]? = some call) {view : NodeView} (hview : view.info = call.issuer) (link : Link) (c : Clock τ)
    (n : NodeInfo) :
    Since s₀ { s.record i n (link, (call.request.ask (view.handle call.blocking link c n) (s.stores n)).1)
      (call.request.ask (view.handle call.blocking link c n) (s.stores n)).2 with now := s.now + 1 } k where
  count := by
    show _ ≤ (s.calls.modify i _).length
    rw [List.length_modify]
    exact h.count
  grows m e₀ he₀ := h.grows_update hs (effect_update (effect_ask hcall view call.blocking link c)) he₀
  hears j call' m e₀ hlen hj hreq hreached he₀ := by
    rcases calls_modify hcall hj with hj | ⟨rfl, rfl⟩
    · exact h.hears j call' m e₀ hlen hj hreq hreached he₀
    · have hreq' : call.request = .get k := hreq
      by_cases hm : m = n
      · -- the replica reports what it holds now
        subst hm
        obtain ⟨e, he, hle⟩ := h.grows m e₀ he₀
        refine ⟨e.version, ?_, by rwa [Entry.version_ts]⟩
        rw [ApiCall.version_record]
        exact hs.version_ask_of_entry hreq' hview c hreached he
      · rw [call.reached_record_of_ne _ hm] at hreached
        rw [call.version_record_of_ne _ hm]
        exact h.hears j call m e₀ hlen hcall hreq hreached he₀

variable (sha256 : String → List UInt8) (ring : RendezvousRing) (replication : Nat)

private theorem Since.apply (h : Since s₀ s k) (hs : s.Consistent k) (e : ApiEvent V τ) :
    Since s₀ (s.apply sha256 ring replication e) k := by
  unfold ClusterState.apply
  rcases perform_cases s sha256 ring replication e with ⟨issuer, blocking, request, -, heq⟩ |
    ⟨-, i, n, c, link, call, hcall, -, heq⟩ | ⟨-, i, call, -, -, heq⟩ | ⟨-, stores, heq, heffect⟩
  · rw [heq]
    refine ⟨?_, h.grows, ?_⟩
    · show _ ≤ (s.calls ++ [_]).length
      rw [List.length_append]
      exact le_trans h.count (Nat.le_add_right _ _)
    · intro j call n e₀ hlen hj hreq hreached he₀
      rcases Base.getElem?_concat_some hj with hj | ⟨-, rfl⟩
      · exact h.hears j call n e₀ hlen hj hreq hreached he₀
      · cases hreached
  · rw [heq]
    exact h.ask hs hcall rfl link c n
  · rw [heq]
    refine ⟨?_, h.grows, ?_⟩
    · show _ ≤ (s.calls.modify i _).length
      rw [List.length_modify]
      exact h.count
    · intro j call' n e₀ hlen hj hreq hreached he₀
      obtain ⟨call'', hj', ⟨-, rfl⟩ | ⟨-, rfl⟩⟩ := Base.getElem?_modify_some hj
      · exact h.hears j call'' n e₀ hlen hj' hreq hreached he₀
      · exact h.hears j call' n e₀ hlen hj' hreq hreached he₀
  · rw [heq]
    refine ⟨h.count, ?_, h.hears⟩
    intro n e₀ he₀
    exact h.grows_update hs heffect he₀

private theorem since_after {pre post : ApiRun V τ} (hrun : (pre ++ post).PermanentOn k) :
    Since (concurrentAfter sha256 ring replication pre) (concurrentAfter sha256 ring replication (pre ++ post)) k := by
  have hpre : pre.PermanentOn k :=
    ⟨fun e he => hrun.permanent e (List.mem_append_left _ he), fun e he => hrun.positive e (List.mem_append_left _ he)⟩
  have hpost : post.PermanentOn k :=
    ⟨fun e he => hrun.permanent e (List.mem_append_right _ he),
      fun e he => hrun.positive e (List.mem_append_right _ he)⟩
  have hboth :
      Since (concurrentAfter sha256 ring replication pre)
        (after (fun s e => s.apply sha256 ring replication e) (concurrentAfter sha256 ring replication pre) post) k ∧
      ClusterState.Consistent
        (after (fun s e => s.apply sha256 ring replication e) (concurrentAfter sha256 ring replication pre) post)
        k := by
    refine after_invariant (P := fun _ s => Since (concurrentAfter sha256 ring replication pre) s k ∧ s.Consistent k)
      (C := fun _ (e : ApiEvent V τ) => ∀ w, e.writes k = some w → w.ttl = none ∧ 1 ≤ w.ts)
      ⟨since_refl, consistent_after sha256 ring replication hpre⟩ ?_ (fun _ _ _ hsplit => hpost.of_split hsplit)
    intro mid e hnew h
    exact ⟨h.1.apply sha256 ring replication h.2 e, h.2.apply sha256 ring replication hnew⟩
  unfold concurrentAfter at hboth ⊢
  rw [after_append]
  exact hboth.1

/-- A read that has returned hears of no write, or it returns what the newest write carries of which it has heard. -/
private theorem value_of_read {run : ApiRun V τ}
    (h : (concurrentAfter sha256 ring replication run).Consistent k) {i : Nat} {call : ApiCall V τ}
    (hcall : (concurrentAfter sha256 ring replication run).calls[i]? = some call) (hreq : call.request = .get k) {t : Nat}
    {result : ApiResult V} (hended : call.ended = some (t, result)) :
    (∃ w t', (concurrentAfter sha256 ring replication run).Issued k w t' ∧ t' < t ∧ result = .value w.carried ∧
        (∃ n ∈ call.replicas, call.version n = some w.version) ∧
        ∀ n ∈ call.replicas, ∀ r, call.version n = some r → r.ts ≤ w.ts) ∨
      (result = .value none ∧ ∀ n ∈ call.replicas, call.version n = none) := by
  have hresult : result = .value (resolve (call.replicas.map call.version)) :=
    (h.ended _ call t _ hcall hended).2.2.trans
      (result_of_read h hcall hreq (framed_after sha256 ring replication run call (List.mem_of_getElem? hcall)))
  rcases read_cases h hcall hreq with ⟨n, hn, w, t', hw, hissued, hts, hres, hbefore⟩ | ⟨hts, hres⟩
  · refine Or.inl ⟨w, t', hissued, hbefore t _ hended, by rw [hresult, hres], ⟨n, hn, hw⟩, ?_⟩
    intro m hm r hr
    exact hts ▸ le_best h hcall hreq hm hr
  · refine Or.inr ⟨by rw [hresult, hres], ?_⟩
    intro n hn
    rw [Option.eq_none_iff_forall_ne_some]
    intro r hr
    have hpos := version_nonneg h hcall hreq hr
    have hle := le_best h hcall hreq hn hr
    omega

/-- A read that has heard of something returns what a write carries that is at least as new. -/
private theorem newer_of_heard {run : ApiRun V τ}
    (h : (concurrentAfter sha256 ring replication run).Consistent k) {i : Nat} {call : ApiCall V τ}
    (hcall : (concurrentAfter sha256 ring replication run).calls[i]? = some call) (hreq : call.request = .get k) {t : Nat}
    {v : PyObj V} (hended : call.ended = some (t, .value v)) {n : NodeInfo} (hn : n ∈ call.replicas) {r : Versioned V}
    (hr : call.version n = some r) :
    ∃ w t', (concurrentAfter sha256 ring replication run).Issued k w t' ∧ t' < t ∧ v = w.carried ∧ r.ts ≤ w.ts := by
  rcases value_of_read sha256 ring replication h hcall hreq hended with ⟨w, t', hw, hlt, hv, -, hmax⟩ | ⟨-, hnone⟩
  · exact ⟨w, t', hw, hlt, ApiResult.value.inj hv, hmax n hn r hr⟩
  · rw [hnone n hn] at hr
    cases hr

end ClusterState

/-- A read returns the value of a write that is not older than anything that the replicas which answered it held when
it began; it returns `None` without such a write only if they held nothing. -/
theorem get_no_older (sha256 : String → List UInt8) (ring : RendezvousRing) (replication : Nat) {k : String}
    {run pre post : ApiRun V τ} {issuer : NodeInfo} {blocking : Bool} (hrun : run.PermanentOn k)
    (hsplit : run = pre ++ .get issuer blocking k :: post) {call : ApiCall V τ}
    (hcall : (concurrentAfter sha256 ring replication run).calls[(concurrentAfter sha256 ring replication
      pre).calls.length]? = some call) {t : Nat} {v : PyObj V} (hended : call.ended = some (t, .value v)) :
    (∃ w t', (concurrentAfter sha256 ring replication run).Issued k w t' ∧ t' < t ∧ v = w.carried ∧
        ∀ n ∈ call.replicas, call.reached n = true →
          ∀ e, ((concurrentAfter sha256 ring replication pre).stores n).entry k = some e → e.ts ≤ w.ts) ∨
      (v = none ∧ ∀ n ∈ call.replicas, call.reached n = true →
        ((concurrentAfter sha256 ring replication pre).stores n).entry k = none) := by
  have h := ClusterState.consistent_after sha256 ring replication hrun
  have hsince : ClusterState.Since (concurrentAfter sha256 ring replication pre)
      (concurrentAfter sha256 ring replication run) k := by
    rw [hsplit]
    exact ClusterState.since_after sha256 ring replication (hsplit ▸ hrun)
  have hreq : call.request = .get k :=
    congrArg (fun x => x.2.2) (ClusterState.made_of_split sha256 ring replication hsplit rfl hcall)
  rcases ClusterState.value_of_read sha256 ring replication h hcall hreq hended with
    ⟨w, t', hw, hlt, hv, -, hmax⟩ | ⟨hv, hnone⟩
  · refine Or.inl ⟨w, t', hw, hlt, ApiResult.value.inj hv, ?_⟩
    intro n hn hreached e he
    obtain ⟨r, hr, hle⟩ := hsince.hears _ call n e (le_refl _) hcall hreq hreached he
    exact le_trans hle (hmax n hn r hr)
  · refine Or.inr ⟨ApiResult.value.inj hv, ?_⟩
    intro n hn hreached
    rw [Option.eq_none_iff_forall_ne_some]
    intro e he
    obtain ⟨r, hr, -⟩ := hsince.hears _ call n e (le_refl _) hcall hreq hreached he
    rw [hnone n hn] at hr
    cases hr

/-- A call sees what earlier calls have done or seen: when a replica has carried out a write of a call, or reported a
version to it, then a read that begins after that call has returned and that the replica answers returns nothing
older. -/
theorem get_after_call (sha256 : String → List UInt8) (ring : RendezvousRing) (replication : Nat) {k : String}
    {run : ApiRun V τ} (hrun : run.PermanentOn k) {i j : Nat} {call read : ApiCall V τ}
    (hcall : (concurrentAfter sha256 ring replication run).calls[i]? = some call)
    (hread : (concurrentAfter sha256 ring replication run).calls[j]? = some read) (hreq : read.request = .get k)
    {t t' : Nat} {result : ApiResult V} (hended : call.ended = some (t, result)) (hbegan : t < read.began)
    {v : PyObj V} (hended' : read.ended = some (t', .value v)) {n : NodeInfo} {ts : Int} (hknows : call.Knows k n ts)
    (hn : n ∈ read.replicas) (hreached : read.reached n = true) :
    ∃ w t'', (concurrentAfter sha256 ring replication run).Issued k w t'' ∧ t'' < t' ∧ v = w.carried ∧ ts ≤ w.ts := by
  have h := ClusterState.consistent_after sha256 ring replication hrun
  obtain ⟨r, hr, hle⟩ := h.fresh i j call read n ts t result hcall hread hended hbegan hknows hreq hreached
  obtain ⟨w, t'', hw, hlt, hv, hts⟩ := ClusterState.newer_of_heard sha256 ring replication h hread hreq hended' hn hr
  exact ⟨w, t'', hw, hlt, hv, le_trans hle hts⟩

/-- A read that all replicas answer never goes back.  When an earlier write has come back from some replica, the read
returns nothing older; and when an earlier read has returned what a write carries, the newest of those reported to it,
the read returns nothing older than this write. -/
theorem reads_go_forward (sha256 : String → List UInt8) (ring : RendezvousRing) {replication : Nat}
    (hpos : 0 < replication) {k : String} {run : ApiRun V τ} (hrouted : run.Routed ring) (hrun : run.PermanentOn k)
    {i j : Nat} {call read : ApiCall V τ}
    (hcall : (concurrentAfter sha256 ring replication run).calls[i]? = some call) (hkey : call.request.key = k)
    (hread : (concurrentAfter sha256 ring replication run).calls[j]? = some read) (hreq : read.request = .get k)
    {t t' : Nat} {result : ApiResult V} (hended : call.ended = some (t, result)) (hbegan : t < read.began)
    {v : PyObj V} (hended' : read.ended = some (t', .value v)) (hall : ∀ n ∈ read.replicas, read.reached n = true) :
    (∀ w, call.request = .write w → (∃ n ∈ call.replicas, call.reached n = true) →
      ∃ w' t'', (concurrentAfter sha256 ring replication run).Issued k w' t'' ∧ t'' < t' ∧ v = w'.carried ∧
        w.ts ≤ w'.ts) ∧
    (call.request = .get k →
      (∃ w t₀, (concurrentAfter sha256 ring replication run).Issued k w t₀ ∧ t₀ < t ∧ result = .value w.carried ∧
        (∃ n ∈ call.replicas, call.version n = some w.version) ∧
        (∀ n ∈ call.replicas, ∀ r, call.version n = some r → r.ts ≤ w.ts) ∧
        ∃ w' t'', (concurrentAfter sha256 ring replication run).Issued k w' t'' ∧ t'' < t' ∧ v = w'.carried ∧
          w.ts ≤ w'.ts) ∨
      (result = .value none ∧ ∀ n ∈ call.replicas, call.version n = none)) := by
  have h := ClusterState.consistent_after sha256 ring replication hrun
  have hsame : call.replicas = read.replicas :=
    ClusterState.same_replicas hpos hrouted (List.mem_of_getElem? hcall) (List.mem_of_getElem? hread) hkey
      (by rw [hreq, ApiRequest.key])
  -- what the call knows of a replica, the read hears of there
  have hforward : ∀ n ∈ call.replicas, ∀ ts, call.Knows k n ts →
      ∃ w' t'', (concurrentAfter sha256 ring replication run).Issued k w' t'' ∧ t'' < t' ∧ v = w'.carried ∧
        ts ≤ w'.ts := by
    intro n hn ts hknows
    rw [hsame] at hn
    obtain ⟨r, hr, hle⟩ := h.fresh i j call read n ts t result hcall hread hended hbegan hknows hreq (hall n hn)
    obtain ⟨w', t'', hw', hlt, hv, hts⟩ :=
      ClusterState.newer_of_heard sha256 ring replication h hread hreq hended' hn hr
    exact ⟨w', t'', hw', hlt, hv, le_trans hle hts⟩
  constructor
  · rintro w hwrite ⟨n, hn, hreached⟩
    refine hforward n hn w.ts ?_
    rw [hwrite] at hkey
    unfold ApiCall.Knows
    rw [hwrite]
    exact ⟨hkey, hreached, rfl⟩
  · intro hget
    rcases ClusterState.value_of_read sha256 ring replication h hcall hget hended with
      ⟨w, t₀, hw, hlt, hv, ⟨n, hn, hversion⟩, hmax⟩ | hnone
    · refine Or.inl ⟨w, t₀, hw, hlt, hv, ⟨n, hn, hversion⟩, hmax, hforward n hn w.ts ?_⟩
      unfold ApiCall.Knows
      rw [hget]
      exact ⟨rfl, w.version, hversion, w.version_ts⟩
    · exact Or.inr hnone

/-- A set that both replicas carry out. -/
def settledRun : ApiRun Nat Int :=
  [.set (localhost 7001) true 5 "k" (some 1) none, .ask 0 (localhost 7003) ⟨0, 5⟩ .answers,
    .ask 0 (localhost 7001) ⟨0, 5⟩ .silent, .finish 0]

/-- A read follows, of which only the local replica answers, while a delete is under way. -/
def lossyRun : ApiRun Nat Int :=
  settledRun ++ .get (localhost 7001) false "k" ::
    [.delete (localhost 7002) true 7 "k", .ask 2 (localhost 7003) ⟨0, 7⟩ .silent, .stray 2 (localhost 7003) ⟨0, 7⟩,
      .ask 1 (localhost 7003) ⟨0, 7⟩ .silent, .ask 1 (localhost 7001) ⟨0, 8⟩ .silent, .finish 1]

private theorem lossyRun_permanent : lossyRun.PermanentOn "k" := by
  have hwrites : lossyRun.filterMap (ApiEvent.writes "k") = [.set "k" (some 1) none 5, .delete "k" 7] := rfl
  refine ApiRun.permanentOn_of_writes hwrites ?_
  intro w hw
  simp only [List.mem_cons, List.not_mem_nil, or_false] at hw
  rcases hw with rfl | rfl <;> decide

private theorem settledRun_calls : (concurrentAfter sha256Digest localRing 2 settledRun).calls.length = 1 := by
  rw [← List.length_map (f := ApiCall.made), ClusterState.made_after]
  rfl

/-- Node 7001 has taken part in both calls. -/
private theorem lossyRun_calls :
    (((concurrentAfter sha256Digest localRing 2 lossyRun).calls[0]?.bind fun call : ApiCall Nat Int =>
      if call.reached (localhost 7001) = true then call.ended else none) = some (3, .ack true)) ∧
      ((concurrentAfter sha256Digest localRing 2 lossyRun).calls[1]?.bind fun call : ApiCall Nat Int =>
        if call.began = 4 ∧ localhost 7001 ∈ call.replicas ∧ call.reached (localhost 7001) = true then call.ended
        else none) = some (10, .value (some 1)) := by
  decide +kernel

theorem lossyRun_no_older : ∃ call, (concurrentAfter sha256Digest localRing 2 lossyRun).calls[1]? = some call ∧
    ((∃ w t', (concurrentAfter sha256Digest localRing 2 lossyRun).Issued "k" w t' ∧ t' < 10 ∧ some 1 = w.carried ∧
        ∀ n ∈ call.replicas, call.reached n = true →
          ∀ e, ((concurrentAfter sha256Digest localRing 2 settledRun).stores n).entry "k" = some e → e.ts ≤ w.ts) ∨
      ((some 1 : PyObj Nat) = none ∧ ∀ n ∈ call.replicas, call.reached n = true →
        ((concurrentAfter sha256Digest localRing 2 settledRun).stores n).entry "k" = none)) := by
  obtain ⟨call, hcall, hread⟩ := Option.bind_eq_some_iff.1 lossyRun_calls.2
  refine ⟨call, hcall, ?_⟩
  exact get_no_older sha256Digest localRing 2 lossyRun_permanent rfl (by rw [settledRun_calls]; exact hcall)
    (Option.ite_none_right_eq_some.1 hread).2

/-- The read comes after the set, which the local replica has carried out. -/
theorem lossyRun_after_call : ∃ w t, (concurrentAfter sha256Digest localRing 2 lossyRun).Issued "k" w t ∧ t < 10 ∧
    some 1 = w.carried ∧ 5 ≤ w.ts := by
  obtain ⟨call, hcall, hset⟩ := Option.bind_eq_some_iff.1 lossyRun_calls.1
  obtain ⟨read, hread, hended⟩ := Option.bind_eq_some_iff.1 lossyRun_calls.2
  obtain ⟨hwrote, hset⟩ := Option.ite_none_right_eq_some.1 hset
  obtain ⟨⟨hbegan, hn, hreached⟩, hended⟩ := Option.ite_none_right_eq_some.1 hended
  have hmade : some (localhost 7001, true, .write (.set "k" (some 1) none 5)) = some call.made :=
    ClusterState.made_getElem? sha256Digest localRing 2 hcall
  have hmade' : some (localhost 7001, false, .get "k") = some read.made :=
    ClusterState.made_getElem? sha256Digest localRing 2 hread
  have hreq : call.request = .write (.set "k" (some 1) none 5) :=
    congrArg (fun x => x.2.2) (Option.some.inj hmade).symm
  have hreq' : read.request = .get "k" := congrArg (fun x => x.2.2) (Option.some.inj hmade').symm
  have hknows : call.Knows "k" (localhost 7001) 5 := by
    unfold ApiCall.Knows
    rw [hreq]
    exact ⟨rfl, hwrote, rfl⟩
  exact get_after_call sha256Digest localRing 2 lossyRun_permanent hcall hread hreq' hset (by omega) hended hknows hn
    hreached

/-- While a delete is under way that one replica has carried out, two reads follow one another. -/
def rereadRun : ApiRun Nat Int :=
  settledRun ++
    [.delete (localhost 7002) true 7 "k", .ask 1 (localhost 7003) ⟨0, 7⟩ .answers, .get (localhost 7001) false "k",
      .ask 2 (localhost 7003) ⟨0, 8⟩ .answers, .ask 2 (localhost 7001) ⟨0, 8⟩ .silent, .finish 2,
      .get (localhost 7002) true "k", .ask 3 (localhost 7003) ⟨0, 9⟩ .answers, .ask 3 (localhost 7001) ⟨0, 9⟩ .answers,
      .finish 3]

private theorem rereadRun_permanent : rereadRun.PermanentOn "k" := by
  have hwrites : rereadRun.filterMap (ApiEvent.writes "k") = [.set "k" (some 1) none 5, .delete "k" 7] := rfl
  refine ApiRun.permanentOn_of_writes hwrites ?_
  intro w hw
  simp only [List.mem_cons, List.not_mem_nil, or_false] at hw
  rcases hw with rfl | rfl <;> decide

/-- The second read finds the delete again. -/
theorem rereadRun_forward : ∃ w t, (concurrentAfter sha256Digest localRing 2 rereadRun).Issued "k" w t ∧ t < 13 ∧
    (none : PyObj Nat) = w.carried ∧ 7 ≤ w.ts := by
  have hreads : (((concurrentAfter sha256Digest localRing 2 rereadRun).calls[2]?.bind fun call : ApiCall Nat Int =>
      if localhost 7003 ∈ call.replicas ∧ (call.version (localhost 7003)).map Versioned.ts = some 7 then call.ended
      else none) = some (9, .value none)) ∧
      ((concurrentAfter sha256Digest localRing 2 rereadRun).calls[3]?.bind fun call : ApiCall Nat Int =>
        if call.began = 10 ∧ ∀ n ∈ call.replicas, call.reached n = true then call.ended else none) =
          some (13, .value none) := by decide +kernel
  obtain ⟨call, hcall, hfirst⟩ := Option.bind_eq_some_iff.1 hreads.1
  obtain ⟨read, hread, hsecond⟩ := Option.bind_eq_some_iff.1 hreads.2
  obtain ⟨⟨hn, hversion⟩, hended⟩ := Option.ite_none_right_eq_some.1 hfirst
  obtain ⟨⟨hbegan, hall⟩, hended'⟩ := Option.ite_none_right_eq_some.1 hsecond
  obtain ⟨r, hr, hts⟩ := Option.map_eq_some_iff.1 hversion
  have hmade : some (localhost 7001, false, .get "k") = some call.made :=
    ClusterState.made_getElem? sha256Digest localRing 2 hcall
  have hmade' : some (localhost 7002, true, .get "k") = some read.made :=
    ClusterState.made_getElem? sha256Digest localRing 2 hread
  have hreq : call.request = .get "k" := congrArg (fun x => x.2.2) (Option.some.inj hmade).symm
  have hreq' : read.request = .get "k" := congrArg (fun x => x.2.2) (Option.some.inj hmade').symm
  have hforward := reads_go_forward sha256Digest localRing (by decide : 0 < 2) (Or.inl (by decide)) rereadRun_permanent
    hcall (by rw [hreq, ApiRequest.key]) hread hreq' hended (by omega) hended' hall
  rcases hforward.2 hreq with ⟨w, -, -, -, -, -, hmax, w', t, hw', hlt, hv, hle⟩ | ⟨-, hnone⟩
  · exact ⟨w', t, hw', hlt, hv, le_trans (hts ▸ hmax _ hn r hr) hle⟩
  · rw [hnone _ hn] at hr
    cases hr

end DLStorage
