import DLStorage.Cluster.Knowledge

/-!
# Where the value of a read comes from

Nothing is assumed about timestamps, lifetimes or the replicas that answer.  An entry of a store is that of a write
which the replica has executed (`Took`), and a read learns of an entry only while it has not expired.  So whatever value
a read returns, some `set` of the key has stored it at a replica that the read asked later, within its lifetime by the
clock of this replica (`get_has_origin`).
-/

namespace DLStorage

open Base (after after_invariant)

variable {V τ : Type}

/-- Replica `n` executes the request of call `j`, which node `issuer` has made, when its clock shows `c`. -/
def ApiEvent.Executes (e : ApiEvent V τ) (issuer : NodeInfo) (j : Nat) (n : NodeInfo) (c : Clock τ) : Prop :=
  (∃ link, (n = issuer ∨ link = .answers) ∧ e = .ask j n c link) ∨ e = .stray j n c

namespace ApiRun

/-- Replica `n` has executed a write on `k` that leaves the entry `e`. -/
def Took [Add τ] (run : ApiRun V τ) (n : NodeInfo) (k : String) (e : Entry V τ) : Prop :=
  ∃ e₀ ∈ run, ∃ j issuer blocking w c, (run.filterMap ApiEvent.made)[j]? = some (issuer, blocking, .write w) ∧
    w.key = k ∧ e₀.Executes issuer j n c ∧ e = w.entry c

theorem Took.append [Add τ] {run : ApiRun V τ} {n : NodeInfo} {k : String} {e : Entry V τ} (h : run.Took n k e)
    (run' : ApiRun V τ) : (run ++ run').Took n k e := by
  obtain ⟨e₀, he₀, j, issuer, blocking, w, c, hmade, hk, hexecutes, he⟩ := h
  refine ⟨e₀, List.mem_append_left _ he₀, j, issuer, blocking, w, c, ?_, hk, hexecutes, he⟩
  rw [List.filterMap_append, List.getElem?_append_left (List.getElem?_eq_some_iff.1 hmade).1]
  exact hmade

/-- Call `i` has asked replica `n` for `k` after this had taken the entry, which had not expired. -/
def Learnt [LinearOrder τ] [Add τ] (run : ApiRun V τ) (i : Nat) (n : NodeInfo) (k : String) (e : Entry V τ) : Prop :=
  ∃ pre c link post, run = pre ++ .ask i n c link :: post ∧ ApiRun.Took pre n k e ∧ e.readExpired c.monotonic = false

theorem Learnt.append [LinearOrder τ] [Add τ] {run : ApiRun V τ} {i : Nat} {n : NodeInfo} {k : String} {e : Entry V τ}
    (h : run.Learnt i n k e) (run' : ApiRun V τ) : (run ++ run').Learnt i n k e := by
  obtain ⟨pre, c, link, post, rfl, htook, hlive⟩ := h
  exact ⟨pre, c, link, post ++ run', by simp, htook, hlive⟩

end ApiRun

variable [LinearOrder τ] [Add τ]

/-! ### What one event does -/

omit [Add τ] in
private theorem entry_of_evicts {now : τ} {o o' : Option (Entry V τ)} (h : LocalLWWStore.Evicts now o o')
    {x : Entry V τ} (hx : o' = some x) : o = some x := by
  rcases h with hsame | ⟨hnone, -⟩
  · exact hsame.symm.trans hx
  · rw [hnone] at hx
    cases hx

omit [LinearOrder τ] in
private theorem entry_of_write {w : Write V τ} {c : Clock τ} {store : LocalLWWStore V τ} {k : String} {x : Entry V τ}
    (hx : (w.apply c store).2.entry k = some x) : store.entry k = some x ∨ w.key = k ∧ x = w.entry c := by
  rw [Write.entry_apply] at hx
  split at hx
  · rename_i h
    exact Or.inr ⟨h.1.symm, (Option.some.inj hx).symm⟩
  · exact Or.inl hx

namespace ClusterState

section Event

variable (sha256 : String → List UInt8) (ring : RendezvousRing) (replication : Nat) {s : ClusterState V τ}
  {e : ApiEvent V τ}

/-- An entry in the store that an asked replica leaves was there before, or is that of the write it is asked for. -/
private theorem entry_of_ask {call : ApiCall V τ} {link : Link} {c : Clock τ} {n : NodeInfo} {k : String} {x : Entry V τ}
    (hx : (call.request.ask ((NodeView.mk call.issuer ring replication).handle call.blocking link c n)
      (s.stores n)).2.entry k = some x) :
    (s.stores n).entry k = some x ∨ ∃ w, call.request = .write w ∧ w.key = k ∧
      (NodeView.mk call.issuer ring replication).Reaches (fun _ => link) n ∧ x = w.entry c := by
  cases hreq : call.request with
  | get key =>
    rw [hreq, ApiRequest.store_ask_get] at hx
    split at hx
    · exact Or.inl (entry_of_evicts ((s.stores n).evicts_getVersioned c key k) hx)
    · exact Or.inl hx
  | write w =>
    rw [hreq] at hx
    by_cases hreach : (NodeView.mk call.issuer ring replication).Reaches (fun _ => link) n
    · obtain ⟨b, hb⟩ := ApiRequest.ask_write call.blocking c (s.stores n) hreach w
      rw [hb] at hx
      rcases entry_of_write hx with hold | ⟨hk, hentry⟩
      · exact Or.inl hold
      · exact Or.inr ⟨w, rfl, hk, hreach, hentry⟩
    · obtain ⟨r, hr⟩ := ApiRequest.ask_write_of_not call.blocking c (s.stores n) hreach w
      rw [hr] at hx
      exact Or.inl hx

/-- An entry was there before, or is that of a write which the replica executes. -/
theorem entry_perform {n : NodeInfo} {k : String} {x : Entry V τ}
    (hx : ((s.perform sha256 ring replication e).stores n).entry k = some x) :
    (s.stores n).entry k = some x ∨ ∃ j call w c, s.calls[j]? = some call ∧ call.request = .write w ∧ w.key = k ∧
      e.Executes call.issuer j n c ∧ x = w.entry c := by
  have hupdate : ∀ m store, (Function.update s.stores m store n).entry k = some x →
      (s.stores n).entry k = some x ∨ n = m ∧ store.entry k = some x := by
    intro m store h
    by_cases hn : n = m
    · subst hn
      rw [Function.update_self] at h
      exact Or.inr ⟨rfl, h⟩
    · rw [Function.update_of_ne hn] at h
      exact Or.inl h
  cases e with
  | get issuer blocking key => exact Or.inl hx
  | set issuer blocking timeNs key value ttl => exact Or.inl hx
  | delete issuer blocking timeNs key => exact Or.inl hx
  | ask i m c link =>
    unfold perform ask at hx
    simp only at hx
    split at hx
    · exact Or.inl hx
    · rename_i call hcall
      split at hx
      · rcases hupdate m _ hx with hold | ⟨rfl, hnew⟩
        · exact Or.inl hold
        · rcases entry_of_ask ring replication hnew with hold | ⟨w, hreq, hk, hreach, hentry⟩
          · exact Or.inl hold
          · exact Or.inr ⟨i, call, w, c, hcall, hreq, hk, Or.inl ⟨link, hreach, rfl⟩, hentry⟩
      · exact Or.inl hx
  | stray i m c =>
    unfold perform stray at hx
    simp only at hx
    split at hx
    · exact Or.inl hx
    · rename_i call hcall
      split at hx
      · rcases hupdate m _ hx with hold | ⟨rfl, hnew⟩
        · exact Or.inl hold
        · rw [ApiRequest.store_transact] at hnew
          cases hreq : call.request with
          | get key =>
            rw [hreq] at hnew
            exact Or.inl (entry_of_evicts ((s.stores n).evicts_getVersioned c key k) hnew)
          | write w =>
            rw [hreq] at hnew
            rcases entry_of_write hnew with hold | ⟨hk, hentry⟩
            · exact Or.inl hold
            · exact Or.inr ⟨i, call, w, c, hcall, hreq, hk, Or.inr rfl, hentry⟩
      · exact Or.inl hx
  | finish i =>
    unfold perform finish at hx
    simp only at hx
    split at hx
    · exact Or.inl hx
    · split at hx <;> exact Or.inl hx
  | purge m c =>
    rcases hupdate m _ hx with hold | ⟨rfl, hnew⟩
    · exact Or.inl hold
    · exact Or.inl (entry_of_evicts ((s.stores n).evicts_purgeExpired c k) hnew)

/-- A call was the same before, or has just been made, has asked a replica, or has come to its end. -/
theorem calls_perform {i : Nat} {call' : ApiCall V τ}
    (h : (s.perform sha256 ring replication e).calls[i]? = some call') :
    s.calls[i]? = some call' ∨ ((∀ n, call'.version n = none) ∧ call'.ended = none) ∨
      (∃ n c link call, e = .ask i n c link ∧ s.calls[i]? = some call ∧ call.ended = none ∧
        call' = call.record n (link, (call.request.ask
          ((NodeView.mk call.issuer ring replication).handle call.blocking link c n) (s.stores n)).1)) ∨
      ∃ call, s.calls[i]? = some call ∧ call' = call.finish s.now := by
  have hbegin : ∀ issuer blocking request,
      (s.begin sha256 ring replication issuer blocking request).calls[i]? = some call' →
      s.calls[i]? = some call' ∨ ((∀ n, call'.version n = none) ∧ call'.ended = none) := by
    intro issuer blocking request h
    rcases Base.getElem?_concat_some h with hold | ⟨-, rfl⟩
    · exact Or.inl hold
    · exact Or.inr ⟨fun _ => rfl, rfl⟩
  cases e with
  | get issuer blocking key => exact (hbegin _ _ _ h).imp_right Or.inl
  | set issuer blocking timeNs key value ttl => exact (hbegin _ _ _ h).imp_right Or.inl
  | delete issuer blocking timeNs key => exact (hbegin _ _ _ h).imp_right Or.inl
  | ask j n c link =>
    unfold perform ask at h
    simp only at h
    split at h
    · exact Or.inl h
    · rename_i call hcall
      split at h
      · rename_i hmay
        obtain ⟨old, hold, ⟨rfl, rfl⟩ | ⟨-, rfl⟩⟩ := Base.getElem?_modify_some h
        · obtain rfl := Option.some.inj (hcall.symm.trans hold)
          simp only [ApiCall.mayAsk, Bool.and_eq_true, Option.isNone_iff_eq_none] at hmay
          exact Or.inr (Or.inr (Or.inl ⟨n, c, link, call, rfl, hcall, hmay.1.1, rfl⟩))
        · exact Or.inl hold
      · exact Or.inl h
  | stray j n c =>
    unfold perform stray at h
    simp only at h
    split at h
    · exact Or.inl h
    · split at h <;> exact Or.inl h
  | finish j =>
    unfold perform finish at h
    simp only at h
    split at h
    · exact Or.inl h
    · split at h
      · obtain ⟨old, hold, ⟨rfl, rfl⟩ | ⟨-, rfl⟩⟩ := Base.getElem?_modify_some h
        · exact Or.inr (Or.inr (Or.inr ⟨old, hold, rfl⟩))
        · exact Or.inl hold
      · exact Or.inl h
  | purge n c => exact Or.inl h

end Event

/-! ### Runs -/

/-- The entries, the versions that calls have learnt of, and their results come from the run. -/
structure Explained (run : ApiRun V τ) (s : ClusterState V τ) : Prop where
  entries : ∀ n k e, (s.stores n).entry k = some e → run.Took n k e
  versions : ∀ (i : Nat) (call : ApiCall V τ) n r k, s.calls[i]? = some call → call.request = .get k →
    call.version n = some r → ∃ e, run.Learnt i n k e ∧ e.version = r
  results : ∀ (i : Nat) (call : ApiCall V τ) t v, s.calls[i]? = some call → call.ended = some (t, v) → v = call.result

variable (sha256 : String → List UInt8) (ring : RendezvousRing) (replication : Nat)

private theorem explained_step {run : ApiRun V τ}
    (h : (concurrentAfter sha256 ring replication run).Explained run) (e : ApiEvent V τ) :
    ((concurrentAfter sha256 ring replication run).apply sha256 ring replication e).Explained (run ++ [e]) := by
  have hmade := made_after sha256 ring replication run
  constructor
  · intro n k x hx
    rcases entry_perform sha256 ring replication hx with hold | ⟨j, call, w, c, hcall, hw, hk, hexecutes, hentry⟩
    · exact (h.entries n k x hold).append [e]
    · refine ⟨e, by simp, j, call.issuer, call.blocking, w, c, ?_, hk, hexecutes, hentry⟩
      have hj : (run.filterMap ApiEvent.made)[j]? = some (call.issuer, call.blocking, .write w) := by
        rw [← hmade, List.getElem?_map, hcall, ← hw]
        rfl
      rw [List.filterMap_append, List.getElem?_append_left (List.getElem?_eq_some_iff.1 hj).1]
      exact hj
  · intro i call' n r k hcall' hreq hr
    have hlearnt : ∀ {call : ApiCall V τ}, (concurrentAfter sha256 ring replication run).calls[i]? = some call →
        call.request = .get k → call.version n = some r → ∃ e', (run ++ [e]).Learnt i n k e' ∧ e'.version = r := by
      intro call hcall hreq hr
      obtain ⟨e', he', hv⟩ := h.versions i call n r k hcall hreq hr
      exact ⟨e', he'.append [e], hv⟩
    rcases calls_perform sha256 ring replication hcall' with hold | ⟨hnone, -⟩ |
      ⟨m, c, link, call, rfl, hcall, -, rfl⟩ | ⟨call, hcall, rfl⟩
    · exact hlearnt hold hreq hr
    · rw [hnone] at hr
      cases hr
    · have hreq' : call.request = .get k := hreq
      by_cases hn : n = m
      · -- the version is that of the entry, which is live
        subst hn
        rw [ApiCall.version_record, hreq', ApiRequest.version_ask] at hr
        obtain ⟨-, hreport⟩ := NodeView.report_of_reported _ _ _ _ _ hr
        obtain ⟨e', he', hlive, hv⟩ := LocalLWWStore.report_eq_some_iff.1 hreport
        exact ⟨e', ⟨run, c, link, [], rfl, h.entries n k e' he', hlive⟩, hv⟩
      · rw [ApiCall.version_record_of_ne _ _ hn] at hr
        exact hlearnt hcall hreq' hr
    · exact hlearnt hcall hreq hr
  · intro i call' t v hcall' hended
    rcases calls_perform sha256 ring replication hcall' with hold | ⟨-, hnone⟩ |
      ⟨m, c, link, call, rfl, hcall, hopen, rfl⟩ | ⟨call, hcall, rfl⟩
    · exact h.results i call' t v hold hended
    · rw [hnone] at hended
      cases hended
    · have hended' : call.ended = some (t, v) := hended
      rw [hopen] at hended'
      cases hended'
    · have hresult : some (_, call.result) = some (t, v) := hended
      exact (congrArg Prod.snd (Option.some.inj hresult)).symm

private theorem explained_empty : (empty : ClusterState V τ).Explained [] where
  entries n k e he := by cases he
  versions i call n r k hcall := by cases hcall
  results i call t v hcall := by cases hcall

theorem explained_after (run : ApiRun V τ) : (concurrentAfter sha256 ring replication run).Explained run :=
  after_invariant (P := fun pre (s : ClusterState V τ) => s.Explained pre) (C := fun _ _ => True)
    explained_empty
    (fun _ e _ h => explained_step sha256 ring replication h e) fun _ _ _ _ => trivial

end ClusterState

/-- What a read returns, if it is not `None`, is the value of a version that was reported to it. -/
theorem exists_of_resolve {results : List (Option (Versioned V))} {v : V} (h : resolve results = some v) :
    ∃ r, some r ∈ results ∧ r.isTombstone = false ∧ r.value = some v := by
  unfold resolve at h
  simp only at h
  split at h
  · cases h
  · rename_i hnot
    rw [Bool.or_eq_true, decide_eq_true_eq, not_or, Bool.not_eq_true] at hnot
    have hmem := Base.best_mem (leading_bestOf results)
    rcases List.mem_cons.1 hmem with hinit | hmem
    · rw [hinit] at hnot
      exact absurd (show (-1 : Int) < 0 by omega) hnot.1
    · exact ⟨_, by simpa using hmem, hnot.2, h⟩

/-- Call `i` has asked a replica that had executed a `set` of `v` for `k` before, and by the clock of the replica the
lifetime of the value was not over. -/
def ApiRun.FindsLive (run : ApiRun V τ) (i : Nat) (k : String) (v : V) : Prop :=
  ∃ (n : NodeInfo) (pre post : ApiRun V τ) (c : Clock τ) (link : Link), run = pre ++ .ask i n c link :: post ∧
    ∃ (j : Nat) (issuer : NodeInfo) (blocking : Bool) (ttl : Option τ) (ts : Int) (e : ApiEvent V τ) (c₀ : Clock τ),
      (pre.filterMap ApiEvent.made)[j]? = some (issuer, blocking, .write (.set k (some v) ttl ts)) ∧
      e ∈ pre ∧ e.Executes issuer j n c₀ ∧ ∀ l, ttl = some l → ¬ c₀.monotonic + l < c.monotonic

/-- Whatever happens, the value that a read returns was stored by a `set` of the key, at a replica that executed the
`set` before the read asked it, and its lifetime was not over then. -/
theorem get_has_origin (sha256 : String → List UInt8) (ring : RendezvousRing) (replication : Nat) (run : ApiRun V τ)
    {i : Nat} {call : ApiCall V τ} {k : String} {t : Nat} {v : V}
    (hcall : (concurrentAfter sha256 ring replication run).calls[i]? = some call) (hget : call.request = .get k)
    (hended : call.ended = some (t, .value (some v))) : run.FindsLive i k v := by
  have h := ClusterState.explained_after sha256 ring replication run
  obtain ⟨n, r, hr, htomb, hvalue⟩ : ∃ n r, call.version n = some r ∧ r.isTombstone = false ∧ r.value = some v := by
    have hresult := (h.results i call t _ hcall hended).symm
    unfold ApiCall.result at hresult
    simp only [hget] at hresult
    split at hresult
    · have hvisible := ApiResult.value.inj hresult
      cases hr : call.version call.issuer with
      | none =>
        rw [hr] at hvisible
        cases hvisible
      | some r =>
        rw [hr] at hvisible
        unfold visible at hvisible
        simp only at hvisible
        split at hvisible
        · cases hvisible
        · rename_i htomb
          exact ⟨_, r, hr, by simpa using htomb, hvisible⟩
    · obtain ⟨r, hmem, htomb, hvalue⟩ := exists_of_resolve (ApiResult.value.inj hresult)
      obtain ⟨n, -, hr⟩ := List.mem_map.1 hmem
      exact ⟨n, r, hr, htomb, hvalue⟩
  obtain ⟨e, ⟨pre, c, link, post, hrun, htook, hlive⟩, hv⟩ := h.versions i call n r k hcall hget hr
  obtain ⟨e₀, he₀, j, issuer, blocking, w, c₀, hmade, hk, hexecutes, rfl⟩ := htook
  refine ⟨n, pre, post, c, link, hrun, j, issuer, blocking, ?_⟩
  rw [Write.entry_version] at hv
  cases w with
  | delete key ts =>
    rw [← hv] at htomb
    cases htomb
  | set key value ttl ts =>
    obtain rfl : key = k := hk
    obtain rfl : value = some v := by
      rw [← hv] at hvalue
      exact hvalue
    refine ⟨ttl, ts, e₀, c₀, hmade, he₀, hexecutes, ?_⟩
    rintro l rfl
    simpa [Entry.readExpired, Write.entry, Write.stored, Write.ttl, Stored.isTombstone] using hlive

/-- The answer to a `set` with a lifetime is lost, and the replica executes it once more; a read finds the value there
before it expires. -/
def briefRun : ApiRun Nat Int :=
  [.set (localhost 7001) true 5 "k" (some 1) (some 10), .ask 0 (localhost 7003) ⟨0, 5⟩ .silent,
    .stray 0 (localhost 7003) ⟨3, 5⟩, .get (localhost 7002) false "k", .ask 1 (localhost 7001) ⟨12, 20⟩ .answers,
    .ask 1 (localhost 7003) ⟨12, 20⟩ .answers, .finish 1]

theorem briefRun_has_origin : briefRun.FindsLive 1 "k" 1 := by
  have hread : (concurrentAfter sha256Digest localRing 2 briefRun).calls[1]?.bind ApiCall.ended =
      some (6, .value (some 1)) := by decide +kernel
  obtain ⟨call, hcall, hended⟩ := Option.bind_eq_some_iff.1 hread
  have hmade : some (localhost 7002, false, .get "k") = some call.made :=
    ClusterState.made_getElem? sha256Digest localRing 2 hcall
  have hget : call.request = .get "k" := congrArg (fun x => x.2.2) (Option.some.inj hmade).symm
  exact get_has_origin sha256Digest localRing 2 briefRun hcall hget hended

end DLStorage
