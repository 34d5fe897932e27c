import DLStorage.Cluster.Concurrent
import DLStorage.Node.Delivery

/-!
# What overlapping calls know

Take the calls on one key, where no write has a lifetime.  An entry of the key is only ever replaced by a newer one.  So
what a call has learnt of a replica, from a version that it reported or from a write that it carried out, stays true of
the replica, and a read that begins after the call has returned hears of something at least as new (`Consistent.fresh`).
`Consistent` holds in every reachable state (`consistent_after`).
-/

namespace DLStorage

open Base (after after_concat after_invariant)

variable {V τ : Type}

/-- A read returns the value of a reported version of greatest timestamp, or `None` when no version is reported. -/
theorem resolve_cases {results : List (Option (Versioned V))} (hpos : ∀ r, some r ∈ results → 0 ≤ r.ts) :
    (some (bestOf results) ∈ results ∧ (∀ r, some r ∈ results → r.ts ≤ (bestOf results).ts) ∧
        resolve results = visible (some (bestOf results))) ∨
      ((∀ r, some r ∉ results) ∧ (bestOf results).ts = -1 ∧ resolve results = none) := by
  have hmem : ∀ r, r ∈ results.filterMap id ↔ some r ∈ results := by simp
  cases hlead : Base.leading Versioned.ts (results.filterMap id) with
  | none =>
    have hnil := Base.best_eq_none_iff.1 hlead
    have hnone : ∀ r, some r ∉ results := by
      intro r hr
      rw [← hmem, hnil] at hr
      cases hr
    have hbest := leading_bestOf results
    rw [hnil] at hbest
    refine Or.inr ⟨hnone, ?_, resolve_none hnone⟩
    rw [← Option.some.inj hbest]
    rfl
  | some m =>
    have hm : some m ∈ results := (hmem m).1 (Base.best_mem hlead)
    have hbest : bestOf results = m := (bestOf_eq_iff (hpos m hm)).2 hlead
    rw [hbest]
    refine Or.inl ⟨hm, fun r hr => Base.leading_max hlead r ((hmem r).2 hr), ?_⟩
    have hnot : ¬ m.ts < 0 := not_lt.2 (hpos m hm)
    unfold resolve visible
    rw [hbest]
    cases m.isTombstone <;> simp [hnot]

/-! ### The writes on a key -/

/-- The write of the request, if it is on `k`. -/
def ApiRequest.writes (k : String) : ApiRequest V τ → Option (Write V τ)
  | get _ => none
  | write w => if w.key = k then some w else none

/-- The write on `k` that an event issues. -/
def ApiEvent.writes (k : String) (e : ApiEvent V τ) : Option (Write V τ) := e.made.bind fun x => x.2.2.writes k

/-- The writes on `k` have no lifetime, and their timestamps are such as `time_ns` produces. -/
structure ApiRun.PermanentOn (run : ApiRun V τ) (k : String) : Prop where
  permanent : ∀ e ∈ run, ∀ w, e.writes k = some w → w.ttl = none
  positive : ∀ e ∈ run, ∀ w, e.writes k = some w → 1 ≤ w.ts

/-- Moreover the timestamps increase in the order in which the writes are issued. -/
structure ApiRun.StampedOn (run : ApiRun V τ) (k : String) : Prop extends run.PermanentOn k where
  increasing : run.Pairwise fun e e' => ∀ w w', e.writes k = some w → e'.writes k = some w' → w.ts < w'.ts

theorem ApiRun.PermanentOn.of_split {run pre post : ApiRun V τ} {e : ApiEvent V τ} {k : String}
    (hrun : run.PermanentOn k) (hsplit : run = pre ++ e :: post) :
    ∀ w, e.writes k = some w → w.ttl = none ∧ 1 ≤ w.ts := by
  intro w hw
  have he : e ∈ run := by rw [hsplit]; simp
  exact ⟨hrun.permanent e he w hw, hrun.positive e he w hw⟩

theorem ApiRun.permanentOn_of_writes {run : ApiRun V τ} {k : String} {ws : List (Write V τ)}
    (hws : run.filterMap (ApiEvent.writes k) = ws) (h : ∀ w ∈ ws, w.ttl = none ∧ 1 ≤ w.ts) : run.PermanentOn k := by
  have hmem : ∀ e ∈ run, ∀ w, e.writes k = some w → w ∈ ws := by
    intro e he w hw
    rw [← hws]
    exact List.mem_filterMap.2 ⟨e, he, hw⟩
  exact ⟨fun e he w hw => (h w (hmem e he w hw)).1, fun e he w hw => (h w (hmem e he w hw)).2⟩

theorem ApiRun.stampedOn_of_writes {run : ApiRun V τ} {k : String} {ws : List (Write V τ)}
    (hws : run.filterMap (ApiEvent.writes k) = ws) (h : ∀ w ∈ ws, w.ttl = none ∧ 1 ≤ w.ts)
    (hpair : ws.Pairwise fun w w' => w.ts < w'.ts) : run.StampedOn k := by
  refine ⟨permanentOn_of_writes hws h, ?_⟩
  rw [← hws, List.pairwise_filterMap] at hpair
  exact hpair.imp fun h w w' hw hw' => h w hw w' hw'

/-- The ring is not empty, or one node issues all calls. -/
def ApiRun.Routed (run : ApiRun V τ) (ring : RendezvousRing) : Prop :=
  ring.nodes ≠ [] ∨ ∃ i, ∀ e ∈ run, ∀ x, e.made = some x → x.1 = i

/-! ### What calls know -/

/-- The call has learnt that a replica holds something for `k` with a timestamp of `ts` at least: a version that the
replica reported, or the write that it carried out. -/
def ApiCall.Knows (call : ApiCall V τ) (k : String) (n : NodeInfo) (ts : Int) : Prop :=
  match call.request with
  | .get key => key = k ∧ ∃ r, call.version n = some r ∧ r.ts = ts
  | .write w => w.key = k ∧ call.reached n = true ∧ w.ts = ts

namespace ClusterState

variable (s : ClusterState V τ)

/-- A write on `k` was issued, after `t` steps. -/
def Issued (k : String) (w : Write V τ) (t : Nat) : Prop :=
  ∃ (i : Nat) (call : ApiCall V τ), s.calls[i]? = some call ∧ call.request = .write w ∧ w.key = k ∧ call.began = t

/-- What holds of the calls on `k` and of the entries of `k`. -/
structure Consistent (k : String) : Prop where
  permanent : ∀ w t, s.Issued k w t → w.ttl = none ∧ 1 ≤ w.ts
  entry : ∀ n e, (s.stores n).entry k = some e → e.expiresAt = none ∧ ∃ w t, s.Issued k w t ∧ e.version = w.version
  began : ∀ (i : Nat) (call : ApiCall V τ), s.calls[i]? = some call → call.began < s.now
  ended : ∀ (i : Nat) (call : ApiCall V τ) t v, s.calls[i]? = some call → call.ended = some (t, v) →
    call.began < t ∧ t < s.now ∧ v = call.result
  known : ∀ (i : Nat) (call : ApiCall V τ) n ts, s.calls[i]? = some call → call.Knows k n ts →
    ∃ e, (s.stores n).entry k = some e ∧ ts ≤ e.ts
  heard : ∀ (i : Nat) (call : ApiCall V τ) n r, s.calls[i]? = some call → call.request = .get k →
    call.version n = some r →
    ∃ w t, s.Issued k w t ∧ r = w.version ∧ ∀ t' v, call.ended = some (t', v) → t < t'
  fresh : ∀ (i j : Nat) (call call' : ApiCall V τ) n ts t v, s.calls[i]? = some call → s.calls[j]? = some call' →
    call.ended = some (t, v) → t < call'.began → call.Knows k n ts → call'.request = .get k →
    call'.reached n = true → ∃ r, call'.version n = some r ∧ ts ≤ r.ts

end ClusterState

namespace ClusterState

variable {s : ClusterState V τ} {k : String}

theorem consistent_empty : (empty : ClusterState V τ).Consistent k := by
  have hnone : ∀ (i : Nat) (call : ApiCall V τ), (empty : ClusterState V τ).calls[i]? ≠ some call := by
    intro i call h
    cases h
  constructor
  · rintro w t ⟨i, call, hcall, -⟩
    exact absurd hcall (hnone i call)
  · intro n e he
    cases he
  · intro i call hcall
    exact absurd hcall (hnone i call)
  · intro i call t v hcall
    exact absurd hcall (hnone i call)
  · intro i call n ts hcall
    exact absurd hcall (hnone i call)
  · intro i call n r hcall
    exact absurd hcall (hnone i call)
  · intro i j call call' n ts t v hcall
    exact absurd hcall (hnone i call)

private theorem Consistent.entry_pos (h : s.Consistent k) {n : NodeInfo} {e : Entry V τ}
    (he : (s.stores n).entry k = some e) : 1 ≤ e.ts := by
  obtain ⟨-, w, t, hw, hv⟩ := h.entry n e he
  have hpos := (h.permanent w t hw).2
  have hts : e.ts = w.ts := by rw [← Entry.version_ts, hv, Write.version_ts]
  omega

variable [LinearOrder τ] [Add τ]

namespace Consistent

variable (h : s.Consistent k)

include h

/-! #### Entries -/

/-- A step leaves an entry or replaces it by that of a write that was issued and is not older. -/
private theorem entry_effect {n : NodeInfo} {store : LocalLWWStore V τ} (heffect : s.Effect n store) :
    store.entry k = (s.stores n).entry k ∨
      ∃ w t c, s.Issued k w t ∧ (s.stores n).Admits k w.ts ∧ store.entry k = some (w.entry c) := by
  rcases heffect k with hsame | ⟨now, hevicts⟩ | ⟨i, call, w, c, hcall, hw, hk, hadmits, hentry⟩
  · exact Or.inl hsame
  · exact Or.inl (hevicts.eq_of_permanent fun e he => (h.entry n e he).1)
  · exact Or.inr ⟨w, call.began, c, ⟨i, call, hcall, hw, hk, rfl⟩, hadmits, hentry⟩

theorem grows {n : NodeInfo} {store : LocalLWWStore V τ} (heffect : s.Effect n store) {e : Entry V τ}
    (he : (s.stores n).entry k = some e) : ∃ e', store.entry k = some e' ∧ e.ts ≤ e'.ts := by
  rcases h.entry_effect heffect with hsame | ⟨w, t, c, -, hadmits, hentry⟩
  · exact ⟨e, hsame.trans he, le_refl _⟩
  · exact ⟨w.entry c, hentry, hadmits e he⟩

private theorem entry_after {n : NodeInfo} {store : LocalLWWStore V τ} (heffect : s.Effect n store) {e : Entry V τ}
    (he : store.entry k = some e) : e.expiresAt = none ∧ ∃ w t, s.Issued k w t ∧ e.version = w.version := by
  rcases h.entry_effect heffect with hsame | ⟨w, t, c, hw, -, hentry⟩
  · exact h.entry n e (hsame.symm.trans he)
  · rw [← Option.some.inj (hentry.symm.trans he)]
    refine ⟨?_, w, t, hw, Write.entry_version c w⟩
    show w.ttl.map _ = none
    rw [(h.permanent w t hw).1]
    rfl

/-- The version that a handle returns is that of the entry, if the replica takes part. -/
theorem version_ask (view : NodeView) (blocking : Bool) (link : Link) (c : Clock τ) (n : NodeInfo) :
    ((ApiRequest.get k).ask (view.handle blocking link c n) (s.stores n)).1.toVersion =
      if view.Reaches (fun _ => link) n then ((s.stores n).entry k).map Entry.version else none := by
  have hreport : (s.stores n).report c.monotonic k = ((s.stores n).entry k).map Entry.version := by
    unfold LocalLWWStore.report
    cases he : (s.stores n).entry k with
    | none => rfl
    | some e => simp [Option.filter_some, Entry.readExpired, (h.entry n e he).1]
  have hsendable : (((s.stores n).entry k).map Entry.version).filter Versioned.sendable =
      ((s.stores n).entry k).map Entry.version := by
    cases he : (s.stores n).entry k with
    | none => rfl
    | some e =>
      have hpos := h.entry_pos he
      refine Option.filter_some_pos ?_
      unfold Versioned.sendable
      rw [Entry.version_ts, decide_eq_true (by omega), Bool.or_true]
  rw [ApiRequest.version_ask]
  unfold NodeView.reported NodeView.Reaches
  rw [hreport, hsendable]
  by_cases hn : n = view.info <;> by_cases hl : link = .answers <;> simp [hn, hl]

/-! #### Steps -/

/-- Stores change behind the back of all calls. -/
private theorem stores_step {stores : Stores V τ} (heffect : ∀ n, s.Effect n (stores n)) :
    ClusterState.Consistent { s with stores := stores, now := s.now + 1 } k where
  permanent := h.permanent
  entry n e he := h.entry_after (heffect n) he
  began i call hcall := Nat.lt_succ_of_lt (h.began i call hcall)
  ended i call t v hcall hended := by
    obtain ⟨hbegan, hnow, hv⟩ := h.ended i call t v hcall hended
    exact ⟨hbegan, Nat.lt_succ_of_lt hnow, hv⟩
  known i call n ts hcall hknows := by
    obtain ⟨e, he, hle⟩ := h.known i call n ts hcall hknows
    obtain ⟨e', he', hle'⟩ := h.grows (heffect n) he
    exact ⟨e', he', le_trans hle hle'⟩
  heard := h.heard
  fresh := h.fresh

end Consistent

omit [LinearOrder τ] [Add τ] in
theorem calls_modify {i : Nat} {call : ApiCall V τ} (hcall : s.calls[i]? = some call) {f : ApiCall V τ → ApiCall V τ}
    {j : Nat} {call' : ApiCall V τ} (hj : (s.calls.modify i f)[j]? = some call') :
    s.calls[j]? = some call' ∨ j = i ∧ call' = f call := by
  obtain ⟨call'', hj', ⟨rfl, rfl⟩ | ⟨-, rfl⟩⟩ := Base.getElem?_modify_some hj
  · exact Or.inr ⟨rfl, by rw [Option.some.inj (hcall.symm.trans hj')]⟩
  · exact Or.inl hj'

omit [LinearOrder τ] [Add τ] in
private theorem issued_modify {s' : ClusterState V τ} {i : Nat} {f : ApiCall V τ → ApiCall V τ}
    (hcalls : s'.calls = s.calls.modify i f)
    (hf : ∀ call, (f call).request = call.request ∧ (f call).began = call.began) {w : Write V τ} {t : Nat} :
    s'.Issued k w t ↔ s.Issued k w t := by
  constructor
  · rintro ⟨j, call, hcall, hw, hk, rfl⟩
    rw [hcalls] at hcall
    obtain ⟨call', hcall', ⟨-, rfl⟩ | ⟨-, rfl⟩⟩ := Base.getElem?_modify_some hcall
    · exact ⟨j, call', hcall', (hf call').1 ▸ hw, hk, ((hf call').2).symm⟩
    · exact ⟨j, call, hcall', hw, hk, rfl⟩
  · rintro ⟨j, call, hcall, hw, hk, rfl⟩
    by_cases hj : j = i
    · subst hj
      refine ⟨j, f call, ?_, (hf call).1.trans hw, hk, (hf call).2⟩
      rw [hcalls]
      exact Base.getElem?_modify_of_some hcall
    · refine ⟨j, call, ?_, hw, hk, rfl⟩
      rw [hcalls, List.getElem?_modify_ne _ _ (Ne.symm hj)]
      exact hcall

namespace Consistent

variable (h : s.Consistent k)

include h

omit [LinearOrder τ] [Add τ] in
/-- A call returns. -/
private theorem finish_step {i : Nat} {call : ApiCall V τ} (hi : s.calls[i]? = some call) (hopen : call.ended = none) :
    ClusterState.Consistent { s.setCall i (fun call => call.finish s.now) with
      now := s.now + 1 } k := by
  have hissued : ∀ w t, (ClusterState.Issued { s.setCall i
      (fun call => call.finish s.now) with now := s.now + 1 } k w t ↔ s.Issued k w t) :=
    fun w t => issued_modify (f := fun call => call.finish s.now) rfl (fun _ => ⟨rfl, rfl⟩)
  -- every call is as before, but for the end of call `i`
  have hold : ∀ (j : Nat) (call' : ApiCall V τ), (s.calls.modify i fun call => call.finish s.now)[j]? = some call' →
      ∃ call'' : ApiCall V τ, s.calls[j]? = some call'' ∧ (call' = call'' ∨
        call''.ended = none ∧ call' = call''.finish s.now) := by
    intro j call' hj
    obtain ⟨call'', hj', ⟨rfl, hcall'⟩ | ⟨-, hcall'⟩⟩ := Base.getElem?_modify_some hj
    · obtain rfl := Option.some.inj (hi.symm.trans hj')
      exact ⟨call, hj', Or.inr ⟨hopen, hcall'⟩⟩
    · exact ⟨call'', hj', Or.inl hcall'⟩
  constructor
  · intro w t hw
    exact h.permanent w t ((hissued w t).1 hw)
  · intro n e he
    obtain ⟨hx, w, t, hw, hv⟩ := h.entry n e he
    exact ⟨hx, w, t, (hissued w t).2 hw, hv⟩
  · intro j call' hj
    obtain ⟨call'', hj', rfl | ⟨-, rfl⟩⟩ := hold j call' hj
    · exact Nat.lt_succ_of_lt (h.began j _ hj')
    · exact Nat.lt_succ_of_lt (h.began j call'' hj')
  · intro j call' t v hj hended
    obtain ⟨call'', hj', rfl | ⟨-, rfl⟩⟩ := hold j call' hj
    · obtain ⟨hbegan, hnow, hv⟩ := h.ended j _ t v hj' hended
      exact ⟨hbegan, Nat.lt_succ_of_lt hnow, hv⟩
    · have hbegan := h.began j call'' hj'
      simp only [ApiCall.finish, Option.some.injEq, Prod.mk.injEq] at hended
      obtain ⟨rfl, rfl⟩ := hended
      exact ⟨hbegan, Nat.lt_succ_self _, rfl⟩
  · intro j call' n ts hj hknows
    obtain ⟨call'', hj', rfl | ⟨-, rfl⟩⟩ := hold j call' hj <;> exact h.known j _ n ts hj' hknows
  · intro j call' n r hj hreq hr
    obtain ⟨call'', hj', rfl | ⟨-, rfl⟩⟩ := hold j call' hj
    · obtain ⟨w, t, hw, hv, hlt⟩ := h.heard j _ n r hj' hreq hr
      exact ⟨w, t, (hissued w t).2 hw, hv, hlt⟩
    · obtain ⟨w, t, hw, hv, -⟩ := h.heard j call'' n r hj' hreq hr
      refine ⟨w, t, (hissued w t).2 hw, hv, ?_⟩
      intro t' v hended
      simp only [ApiCall.finish, Option.some.injEq, Prod.mk.injEq] at hended
      obtain ⟨j', call₀, hj₀, -, -, rfl⟩ := hw
      have := h.began j' call₀ hj₀
      omega
  · intro j j' call₁ call₂ n ts t v hj hj' hended hlt hknows hreq hreached
    obtain ⟨call₁', h₁, rfl | ⟨-, rfl⟩⟩ := hold j call₁ hj
    · obtain ⟨call₂', h₂, rfl | ⟨-, rfl⟩⟩ := hold j' call₂ hj'
      · exact h.fresh j j' _ _ n ts t v h₁ h₂ hended hlt hknows hreq hreached
      · exact h.fresh j j' _ call₂' n ts t v h₁ h₂ hended hlt hknows hreq hreached
    · -- no call begins after the present step
      obtain ⟨call₂', h₂, hcase⟩ := hold j' call₂ hj'
      have hbegan := h.began j' call₂' h₂
      have hsame : call₂.began = call₂'.began := by
        rcases hcase with rfl | ⟨-, rfl⟩ <;> rfl
      simp only [ApiCall.finish, Option.some.injEq, Prod.mk.injEq] at hended
      omega

omit [LinearOrder τ] [Add τ] in
/-- A call begins. -/
private theorem begin_step {new : ApiCall V τ} (hasked : new.asked = fun _ => none) (hopen : new.ended = none)
    (hnow : new.began = s.now) (hnew : ∀ w, new.request = .write w → w.key = k → w.ttl = none ∧ 1 ≤ w.ts) :
    ClusterState.Consistent { s with calls := s.calls ++ [new], now := s.now + 1 } k := by
  have hissued : ∀ w t, s.Issued k w t →
      ClusterState.Issued { s with calls := s.calls ++ [new], now := s.now + 1 } k w t := by
    rintro w t ⟨i, call, hcall, hrest⟩
    exact ⟨i, call, Base.getElem?_concat_of_some hcall, hrest⟩
  have hold : ∀ (i : Nat) (call : ApiCall V τ), (s.calls ++ [new])[i]? = some call →
      s.calls[i]? = some call ∨ call = new :=
    fun i call hcall => (Base.getElem?_concat_some hcall).imp_right And.right
  -- nothing is known to the new call, and it has not ended
  have hversion : ∀ n, new.version n = none := by
    intro n
    simp [ApiCall.version, hasked]
  have hreached : ∀ n, new.reached n = false := by
    intro n
    simp [ApiCall.reached, hasked]
  have hknows : ∀ n ts, ¬ new.Knows k n ts := by
    intro n ts hknows
    unfold ApiCall.Knows at hknows
    split at hknows
    · obtain ⟨-, r, hr, -⟩ := hknows
      rw [hversion] at hr
      cases hr
    · rw [hreached] at hknows
      cases hknows.2.1
  constructor
  · rintro w t ⟨i, call, hcall, hw, hk, hbegan⟩
    rcases hold i call hcall with hcall | rfl
    · exact h.permanent w t ⟨i, call, hcall, hw, hk, hbegan⟩
    · exact hnew w hw hk
  · intro n e he
    obtain ⟨hx, w, t, hw, hv⟩ := h.entry n e he
    exact ⟨hx, w, t, hissued w t hw, hv⟩
  · intro i call hcall
    rcases hold i call hcall with hcall | rfl
    · exact Nat.lt_succ_of_lt (h.began i call hcall)
    · rw [hnow]
      exact Nat.lt_succ_self _
  · intro i call t v hcall hended
    rcases hold i call hcall with hcall | rfl
    · obtain ⟨hbegan, hlt, hv⟩ := h.ended i call t v hcall hended
      exact ⟨hbegan, Nat.lt_succ_of_lt hlt, hv⟩
    · rw [hopen] at hended
      cases hended
  · intro i call n ts hcall hkn
    rcases hold i call hcall with hcall | rfl
    · exact h.known i call n ts hcall hkn
    · exact absurd hkn (hknows n ts)
  · intro i call n r hcall hreq hr
    rcases hold i call hcall with hcall | rfl
    · obtain ⟨w, t, hw, hrest⟩ := h.heard i call n r hcall hreq hr
      exact ⟨w, t, hissued w t hw, hrest⟩
    · rw [hversion] at hr
      cases hr
  · intro i j call call' n ts t v hcall hcall' hended hlt hkn hreq hre
    rcases hold i call hcall with hcall | rfl
    · rcases hold j call' hcall' with hcall' | rfl
      · exact h.fresh i j call call' n ts t v hcall hcall' hended hlt hkn hreq hre
      · rw [hreached] at hre
        cases hre
    · rw [hopen] at hended
      cases hended

/-- A read hears the entry of a replica that takes part. -/
theorem version_ask_of_entry {call : ApiCall V τ} (hreq : call.request = .get k) {view : NodeView}
    (hview : view.info = call.issuer) {link : Link} (c : Clock τ) {n : NodeInfo} {x : HandleOutcome V}
    (hreached : (call.record n (link, x)).reached n = true) {e : Entry V τ} (he : (s.stores n).entry k = some e) :
    (call.request.ask (view.handle call.blocking link c n) (s.stores n)).1.toVersion = some e.version := by
  have hreach : view.Reaches (fun _ => link) n := by
    unfold NodeView.Reaches
    rw [hview]
    exact (call.reached_record n _).1 hreached
  rw [hreq, h.version_ask, if_pos hreach, he]
  rfl

/-- What a read hears is the version of a write. -/
private theorem issued_of_version_ask {call : ApiCall V τ} (hreq : call.request = .get k) {view : NodeView} {link : Link}
    {c : Clock τ} {n : NodeInfo} {r : Versioned V}
    (hr : (call.request.ask (view.handle call.blocking link c n) (s.stores n)).1.toVersion = some r) :
    ∃ w t, s.Issued k w t ∧ r = w.version := by
  rw [hreq, h.version_ask] at hr
  split at hr
  · obtain ⟨e, he, rfl⟩ := Option.map_eq_some_iff.1 hr
    obtain ⟨-, w, t, hw, hv⟩ := h.entry n e he
    exact ⟨w, t, hw, hv⟩
  · cases hr

/-- What a handle returns tells of the store that it leaves. -/
private theorem knows_ask {i : Nat} {call : ApiCall V τ} (hcall : s.calls[i]? = some call) {view : NodeView}
    {link : Link} {c : Clock τ} {n : NodeInfo} {ts : Int}
    (hknows : ApiCall.Knows
      (call.record n (link, (call.request.ask (view.handle call.blocking link c n) (s.stores n)).1)) k n ts)
    (hview : view.info = call.issuer) :
    ∃ e, (call.request.ask (view.handle call.blocking link c n) (s.stores n)).2.entry k = some e ∧ ts ≤ e.ts := by
  have heffect := effect_ask (n := n) hcall view call.blocking link c
  unfold ApiCall.Knows at hknows
  rw [ApiCall.version_record, ApiCall.reached_record] at hknows
  cases hreq : call.request with
  | get key =>
    simp only [ApiCall.record, hreq] at hknows heffect
    obtain ⟨rfl, r, hr, rfl⟩ := hknows
    rw [h.version_ask] at hr
    split at hr
    · obtain ⟨e, he, rfl⟩ := Option.map_eq_some_iff.1 hr
      obtain ⟨e', he', hle⟩ := h.grows heffect he
      exact ⟨e', he', by rwa [Entry.version_ts]⟩
    · cases hr
  | write w =>
    simp only [ApiCall.record, hreq] at hknows
    obtain ⟨rfl, hreached, rfl⟩ := hknows
    have hreach : view.Reaches (fun _ => link) n := by
      unfold NodeView.Reaches
      rw [hview]
      exact hreached
    obtain ⟨b, hb⟩ := ApiRequest.ask_write call.blocking c (s.stores n) hreach w
    rw [hb, Write.entry_apply]
    by_cases hadmits : (s.stores n).Admits w.key w.ts
    · rw [if_pos ⟨rfl, hadmits⟩]
      exact ⟨_, rfl, le_refl _⟩
    · rw [if_neg (fun h => hadmits h.2)]
      simp only [LocalLWWStore.Admits, not_forall, not_le] at hadmits
      obtain ⟨e, he, hlt⟩ := hadmits
      exact ⟨e, he, le_of_lt hlt⟩

omit h in
omit [LinearOrder τ] [Add τ] in
private theorem knows_of_record {call : ApiCall V τ} {n m : NodeInfo} {x : Link × HandleOutcome V} {ts : Int}
    (hm : m ≠ n) (hknows : (call.record n x).Knows k m ts) : call.Knows k m ts := by
  unfold ApiCall.Knows at hknows ⊢
  rw [call.version_record_of_ne x hm, call.reached_record_of_ne x hm] at hknows
  exact hknows

section Ask

variable {i : Nat} {call : ApiCall V τ} (hcall : s.calls[i]? = some call) {view : NodeView}
  (hview : view.info = call.issuer) {link : Link} {c : Clock τ} {n : NodeInfo}

include hcall hview

/-- What a call knows after an answer is what the replica holds. -/
private theorem known_ask {j : Nat} {call' : ApiCall V τ} {m : NodeInfo} {ts : Int}
    (hj : (s.calls.modify i fun call' =>
      call'.record n (link, (call.request.ask (view.handle call.blocking link c n) (s.stores n)).1))[j]? = some call')
    (hknows : call'.Knows k m ts) :
    ∃ e, (Function.update s.stores n
      (call.request.ask (view.handle call.blocking link c n) (s.stores n)).2 m).entry k = some e ∧ ts ≤ e.ts := by
  have heffect := effect_update (effect_ask (n := n) hcall view call.blocking link c) m
  rcases calls_modify hcall hj with hj | ⟨rfl, rfl⟩
  · obtain ⟨e, he, hle⟩ := h.known j call' m ts hj hknows
    obtain ⟨e', he', hle'⟩ := h.grows heffect he
    exact ⟨e', he', le_trans hle hle'⟩
  · by_cases hm : m = n
    · subst hm
      rw [Function.update_self]
      exact h.knows_ask hcall hknows hview
    · obtain ⟨e, he, hle⟩ := h.known j call m ts hcall (knows_of_record hm hknows)
      obtain ⟨e', he', hle'⟩ := h.grows heffect he
      exact ⟨e', he', le_trans hle hle'⟩

omit hview in
/-- A version that a call has heard after an answer is that of a write. -/
private theorem heard_ask (hopen : call.ended = none) {j : Nat} {call' : ApiCall V τ} {m : NodeInfo} {r : Versioned V}
    (hj : (s.calls.modify i fun call' =>
      call'.record n (link, (call.request.ask (view.handle call.blocking link c n) (s.stores n)).1))[j]? = some call')
    (hreq : call'.request = .get k) (hr : call'.version m = some r) :
    ∃ w t, s.Issued k w t ∧ r = w.version ∧ ∀ t' v, call'.ended = some (t', v) → t < t' := by
  rcases calls_modify hcall hj with hj | ⟨rfl, rfl⟩
  · exact h.heard j call' m r hj hreq hr
  · by_cases hm : m = n
    · subst hm
      have hreq' : call.request = .get k := hreq
      rw [ApiCall.version_record] at hr
      obtain ⟨w, t, hw, hv⟩ := h.issued_of_version_ask hreq' hr
      exact ⟨w, t, hw, hv, fun t' v hended => absurd (hopen.symm.trans hended) (by simp)⟩
    · rw [call.version_record_of_ne _ hm] at hr
      exact h.heard j call m r hcall hreq hr

/-- A read that asks a replica after a call returned hears no less than the call knew. -/
private theorem fresh_ask (hopen : call.ended = none) {j j' : Nat} {call₁ call₂ : ApiCall V τ} {m : NodeInfo} {ts : Int}
    {t : Nat} {v : ApiResult V}
    (hj : (s.calls.modify i fun call' =>
      call'.record n (link, (call.request.ask (view.handle call.blocking link c n) (s.stores n)).1))[j]? = some call₁)
    (hj' : (s.calls.modify i fun call' =>
      call'.record n (link, (call.request.ask (view.handle call.blocking link c n) (s.stores n)).1))[j']? = some call₂)
    (hended : call₁.ended = some (t, v)) (hlt : t < call₂.began) (hknows : call₁.Knows k m ts)
    (hreq : call₂.request = .get k) (hreached : call₂.reached m = true) :
    ∃ r, call₂.version m = some r ∧ ts ≤ r.ts := by
  rcases calls_modify hcall hj with h₁ | ⟨rfl, rfl⟩
  · rcases calls_modify hcall hj' with h₂ | ⟨rfl, rfl⟩
    · exact h.fresh j j' call₁ call₂ m ts t v h₁ h₂ hended hlt hknows hreq hreached
    · by_cases hm : m = n
      · -- the replica still holds what the other call knew of it
        subst hm
        have hreq' : call.request = .get k := hreq
        obtain ⟨e, he, hle⟩ := h.known j call₁ m ts h₁ hknows
        refine ⟨e.version, ?_, by rwa [Entry.version_ts]⟩
        rw [ApiCall.version_record]
        exact h.version_ask_of_entry hreq' hview c hreached he
      · rw [call.reached_record_of_ne _ hm] at hreached
        rw [call.version_record_of_ne _ hm]
        exact h.fresh j j' call₁ call m ts t v h₁ hcall hended hlt hknows hreq hreached
  · exact absurd (hopen.symm.trans hended) (by simp)

/-- A call asks a replica. -/
private theorem ask_step (hopen : call.ended = none) (link : Link) (c : Clock τ) (n : NodeInfo) :
    ClusterState.Consistent { s.record i n
        (link, (call.request.ask (view.handle call.blocking link c n) (s.stores n)).1)
        (call.request.ask (view.handle call.blocking link c n) (s.stores n)).2 with now := s.now + 1 } k := by
  let x := (link, (call.request.ask (view.handle call.blocking link c n) (s.stores n)).1)
  let store := (call.request.ask (view.handle call.blocking link c n) (s.stores n)).2
  show ClusterState.Consistent { s.record i n x store with now := s.now + 1 } k
  have heffect : ∀ m, s.Effect m (Function.update s.stores n store m) :=
    effect_update (effect_ask hcall view call.blocking link c)
  have hissued : ∀ w t, (ClusterState.Issued { s.record i n x store with now := s.now + 1 } k w t ↔ s.Issued k w t) :=
    fun w t => issued_modify (f := fun call => call.record n x) rfl (fun _ => ⟨rfl, rfl⟩)
  constructor
  · intro w t hw
    exact h.permanent w t ((hissued w t).1 hw)
  · intro m e he
    obtain ⟨hx, w, t, hw, hv⟩ := h.entry_after (heffect m) he
    exact ⟨hx, w, t, (hissued w t).2 hw, hv⟩
  · intro j call' hj
    rcases calls_modify hcall hj with hj | ⟨rfl, rfl⟩
    · exact Nat.lt_succ_of_lt (h.began j call' hj)
    · exact Nat.lt_succ_of_lt (h.began j call hcall)
  · intro j call' t v hj hended
    rcases calls_modify hcall hj with hj | ⟨rfl, rfl⟩
    · obtain ⟨hbegan, hlt, hv⟩ := h.ended j call' t v hj hended
      exact ⟨hbegan, Nat.lt_succ_of_lt hlt, hv⟩
    · exact absurd (hopen.symm.trans hended) (by simp)
  · intro j call' m ts hj hknows
    exact h.known_ask hcall hview hj hknows
  · intro j call' m r hj hreq hr
    obtain ⟨w, t, hw, hrest⟩ := h.heard_ask hcall hopen hj hreq hr
    exact ⟨w, t, (hissued w t).2 hw, hrest⟩
  · intro j j' call₁ call₂ m ts t v hj hj' hended hlt hknows hreq hreached
    exact h.fresh_ask hcall hview hopen hj hj' hended hlt hknows hreq hreached

end Ask

end Consistent

/-! ### Runs -/

section Run

variable (sha256 : String → List UInt8) (ring : RendezvousRing) (replication : Nat)

/-- What a call is from its beginning to its end. -/
private theorem calls_apply {γ : Type} {f : ApiCall V τ → γ} (hrecord : ∀ call n x, f (call.record n x) = f call)
    (hfinish : ∀ call t, f (call.finish t) = f call) (s : ClusterState V τ) (e : ApiEvent V τ) :
    (s.apply sha256 ring replication e).calls.map f = s.calls.map f ++
      (e.made.map fun x => f (s.newCall sha256 ring replication x.1 x.2.1 x.2.2)).toList := by
  have hmodify : ∀ (i : Nat) (g : ApiCall V τ → ApiCall V τ), (∀ call, f (g call) = f call) →
      (s.calls.modify i g).map f = s.calls.map f := by
    intro i g hg
    refine List.ext_getElem? fun j => ?_
    rw [List.getElem?_map, List.getElem?_map, List.getElem?_modify]
    cases s.calls[j]? with
    | none => rfl
    | some call => by_cases hij : i = j <;> simp [hij, hg]
  show (s.perform sha256 ring replication e).calls.map f = _
  rcases perform_cases s sha256 ring replication e with ⟨issuer, blocking, request, hmade, heq⟩ |
    ⟨hmade, i, n, c, link, call, -, -, heq⟩ | ⟨hmade, i, call, -, -, heq⟩ | ⟨hmade, stores, heq, -⟩
  · rw [heq, hmade]
    simp [begin]
  · rw [heq, hmade, Option.map_none, Option.toList_none, List.append_nil]
    exact hmodify i _ (fun call => hrecord call n _)
  · rw [heq, hmade, Option.map_none, Option.toList_none, List.append_nil]
    exact hmodify i _ (fun call => hfinish call s.now)
  · rw [heq, hmade]
    simp

variable {sha256 ring replication}

variable (sha256 ring replication) in
/-- The calls of a run stand in the order in which they were made. -/
theorem made_after (run : ApiRun V τ) :
    (concurrentAfter sha256 ring replication run).calls.map ApiCall.made = run.filterMap ApiEvent.made := by
  unfold concurrentAfter
  induction run using List.reverseRecOn with
  | nil => rfl
  | append_singleton run e ih =>
    have hstep := calls_apply (f := ApiCall.made) sha256 ring replication (fun _ _ _ => rfl) (fun _ _ => rfl)
      (after (fun s e => s.apply sha256 ring replication e) ClusterState.empty run) e
    rw [after_concat, List.filterMap_append, ← ih, hstep]
    congr 1
    cases hmade : e.made with
    | none => simp [hmade]
    | some x => simp [hmade, newCall, ApiCall.made]

variable (sha256 ring replication) in
theorem writes_after (run : ApiRun V τ) (k : String) :
    (concurrentAfter sha256 ring replication run).calls.filterMap (fun call => call.request.writes k) =
      run.filterMap (ApiEvent.writes k) := by
  have hmade := congrArg (List.filterMap fun x => x.2.2.writes k) (made_after sha256 ring replication run)
  rw [List.filterMap_map, List.filterMap_filterMap] at hmade
  exact hmade

variable (sha256 ring replication) in
/-- What the `i`-th call of a run is. -/
theorem made_getElem? {run : ApiRun V τ} {i : Nat} {call : ApiCall V τ}
    (hcall : (concurrentAfter sha256 ring replication run).calls[i]? = some call) :
    (run.filterMap ApiEvent.made)[i]? = some call.made := by
  rw [← made_after sha256 ring replication, List.getElem?_map, hcall, Option.map_some]

variable (sha256 ring replication) in
/-- The call that an event of a run has begun. -/
theorem made_of_split {run pre post : ApiRun V τ} {e : ApiEvent V τ} (hsplit : run = pre ++ e :: post)
    {x : NodeInfo × Bool × ApiRequest V τ} (hx : e.made = some x) {call : ApiCall V τ}
    (hcall : (concurrentAfter sha256 ring replication run).calls[(concurrentAfter sha256 ring replication
      pre).calls.length]? = some call) : call.made = x := by
  have hlen : (concurrentAfter sha256 ring replication pre).calls.length = (pre.filterMap ApiEvent.made).length := by
    rw [← made_after sha256 ring replication, List.length_map]
  have hmade := made_getElem? sha256 ring replication hcall
  rw [hsplit, hlen, List.filterMap_append, List.filterMap_cons_some hx, List.getElem?_append_right (le_refl _),
    Nat.sub_self] at hmade
  exact (Option.some.inj hmade).symm

variable (sha256 ring replication) in
/-- The replicas of a call are those of the view of the node that issues it. -/
def Framed (call : ApiCall V τ) : Prop :=
  call.replicas = (NodeView.mk call.issuer ring replication).replicas sha256 call.request.key ∧
    call.direct = decide (ring.getNodes sha256 call.request.key replication = [])

variable (sha256 ring replication) in
theorem framed_after (run : ApiRun V τ) :
    ∀ call ∈ (concurrentAfter sha256 ring replication run).calls, Framed sha256 ring replication call := by
  refine Base.after_keeps (P := fun s : ClusterState V τ => ∀ call ∈ s.calls, Framed sha256 ring replication call)
    (fun call hcall => by cases hcall) ?_ run
  intro s e h call hcall
  have hstep := calls_apply (f := Framed sha256 ring replication) sha256 ring replication (fun _ _ _ => rfl)
    (fun _ _ => rfl) s e
  have hmem : Framed sha256 ring replication call ∈
      (s.apply sha256 ring replication e).calls.map (Framed sha256 ring replication) := List.mem_map_of_mem hcall
  rw [hstep, List.mem_append] at hmem
  rcases hmem with hmem | hmem
  · obtain ⟨call', hcall', heq⟩ := List.mem_map.1 hmem
    rw [← heq]
    exact h call' hcall'
  · rw [Option.mem_toList, Option.map_eq_some_iff] at hmem
    obtain ⟨x, -, heq⟩ := hmem
    rw [← heq]
    exact ⟨rfl, rfl⟩

variable (sha256 ring replication) in
/-- A call in the list began after those before it. -/
theorem began_after (run : ApiRun V τ) :
    ((concurrentAfter sha256 ring replication run).calls.map ApiCall.began).Pairwise (· < ·) ∧
      ∀ t ∈ (concurrentAfter sha256 ring replication run).calls.map ApiCall.began,
        t < (concurrentAfter sha256 ring replication run).now := by
  refine Base.after_keeps (P := fun s : ClusterState V τ => (s.calls.map ApiCall.began).Pairwise (· < ·) ∧
    ∀ t ∈ s.calls.map ApiCall.began, t < s.now) (by simp [ClusterState.empty]) ?_ run
  intro s e ⟨hpair, hlt⟩
  have hstep := calls_apply (f := ApiCall.began) sha256 ring replication (fun _ _ _ => rfl) (fun _ _ => rfl) s e
  have hnow : (s.apply sha256 ring replication e).now = s.now + 1 := rfl
  have hnew : ∀ t ∈ (e.made.map fun x => (s.newCall sha256 ring replication x.1 x.2.1 x.2.2).began).toList,
      t = s.now := by
    intro t ht
    rw [Option.mem_toList, Option.map_eq_some_iff] at ht
    obtain ⟨x, -, rfl⟩ := ht
    rfl
  rw [hstep, hnow]
  refine ⟨List.pairwise_append.2 ⟨hpair, ?_, ?_⟩, ?_⟩
  · cases e.made <;> simp
  · intro t ht t' ht'
    rw [hnew t' ht']
    exact hlt t ht
  · intro t ht
    rcases List.mem_append.1 ht with ht | ht
    · exact Nat.lt_succ_of_lt (hlt t ht)
    · rw [hnew t ht]
      exact Nat.lt_succ_self _

/-- With a routed run all calls on `k` work on the same replicas. -/
theorem same_replicas (hpos : 0 < replication) {run : ApiRun V τ} (hrouted : run.Routed ring) {k : String}
    {call call' : ApiCall V τ} (hcall : call ∈ (concurrentAfter sha256 ring replication run).calls)
    (hcall' : call' ∈ (concurrentAfter sha256 ring replication run).calls) (hk : call.request.key = k)
    (hk' : call'.request.key = k) : call.replicas = call'.replicas := by
  rw [(framed_after sha256 ring replication run call hcall).1,
    (framed_after sha256 ring replication run call' hcall').1, hk, hk']
  rcases hrouted with hne | ⟨i, hi⟩
  · have hnodes : ring.getNodes sha256 k replication ≠ [] := by
      rw [Ne, RendezvousRing.getNodes_eq_nil_iff ring k hpos]
      exact hne
    rw [NodeView.replicas_of_ne sha256 ⟨call.issuer, ring, replication⟩ hnodes,
      NodeView.replicas_of_ne sha256 ⟨call'.issuer, ring, replication⟩ hnodes]
  · have hissuer : ∀ c ∈ (concurrentAfter sha256 ring replication run).calls, c.issuer = i := by
      intro c hc
      have hmem : c.made ∈ (concurrentAfter sha256 ring replication run).calls.map ApiCall.made :=
        List.mem_map_of_mem hc
      rw [made_after, List.mem_filterMap] at hmem
      obtain ⟨e, he, hmade⟩ := hmem
      exact hi e he c.made hmade
    rw [hissuer call hcall, hissuer call' hcall']

variable (sha256 ring replication) in
theorem Consistent.apply {s : ClusterState V τ} {k : String} (h : s.Consistent k) {e : ApiEvent V τ}
    (hnew : ∀ w, e.writes k = some w → w.ttl = none ∧ 1 ≤ w.ts) :
    (s.apply sha256 ring replication e).Consistent k := by
  unfold ClusterState.apply
  rcases perform_cases s sha256 ring replication e with ⟨issuer, blocking, request, hmade, heq⟩ |
    ⟨-, i, n, c, link, call, hcall, hmay, heq⟩ | ⟨-, i, call, hcall, hmay, heq⟩ | ⟨-, stores, heq, heffect⟩
  · rw [heq]
    refine h.begin_step rfl rfl rfl ?_
    intro w hw hk
    refine hnew w ?_
    have hreq : request = .write w := hw
    simp [ApiEvent.writes, hmade, hreq, ApiRequest.writes, hk]
  · rw [heq]
    simp only [ApiCall.mayAsk, Bool.and_eq_true, Option.isNone_iff_eq_none] at hmay
    exact h.ask_step hcall rfl hmay.1.1 link c n
  · rw [heq]
    simp only [ApiCall.mayEnd, Bool.and_eq_true, Option.isNone_iff_eq_none] at hmay
    exact h.finish_step hcall hmay.1
  · rw [heq]
    exact h.stores_step heffect

variable (sha256 ring replication) in
/-- Every reachable state is consistent. -/
theorem consistent_after {run : ApiRun V τ} {k : String} (hrun : run.PermanentOn k) :
    (concurrentAfter sha256 ring replication run).Consistent k :=
  after_invariant (P := fun _ s => ClusterState.Consistent s k)
    (C := fun _ (e : ApiEvent V τ) => ∀ w, e.writes k = some w → w.ttl = none ∧ 1 ≤ w.ts) consistent_empty
    (fun _ _ hnew h => h.apply sha256 ring replication hnew) (fun _ _ _ hsplit => hrun.of_split hsplit)

/-! #### What a read returns -/

omit [LinearOrder τ] [Add τ] in
theorem writes_eq_some_iff {request : ApiRequest V τ} {k : String} {w : Write V τ} :
    request.writes k = some w ↔ request = .write w ∧ w.key = k := by
  cases request with
  | get key => simp [ApiRequest.writes]
  | write w' =>
    simp only [ApiRequest.writes, Option.ite_none_right_eq_some, Option.some.injEq, ApiRequest.write.injEq]
    constructor
    · rintro ⟨hk, rfl⟩
      exact ⟨rfl, hk⟩
    · rintro ⟨rfl, hk⟩
      exact ⟨hk, rfl⟩

omit [LinearOrder τ] [Add τ] in
theorem version_nonneg {s : ClusterState V τ} {k : String} (h : s.Consistent k) {i : Nat} {call : ApiCall V τ}
    (hi : s.calls[i]? = some call) (hreq : call.request = .get k) {n : NodeInfo} {r : Versioned V}
    (hr : call.version n = some r) : 0 ≤ r.ts := by
  obtain ⟨w, t, hw, rfl, -⟩ := h.heard i call n r hi hreq hr
  have := (h.permanent w t hw).2
  rw [Write.version_ts]
  omega

omit [LinearOrder τ] [Add τ] in
theorem result_of_read {s : ClusterState V τ} {k : String} (h : s.Consistent k) {i : Nat} {call : ApiCall V τ}
    (hi : s.calls[i]? = some call) (hreq : call.request = .get k) (hframed : Framed sha256 ring replication call) :
    call.result = .value (resolve (call.replicas.map call.version)) := by
  unfold ApiCall.result
  simp only [hreq]
  by_cases hdirect : call.direct = true
  · obtain ⟨hreplicas, hd⟩ := hframed
    rw [hd, decide_eq_true_eq] at hdirect
    have hself : call.replicas = [call.issuer] := by
      rw [hreplicas]
      exact NodeView.replicas_of_nil sha256 ⟨call.issuer, ring, replication⟩ hdirect
    rw [hd, decide_eq_true hdirect, if_pos rfl, hself, List.map_singleton, NodeView.resolve_singleton]
    intro r hr
    exact version_nonneg h hi hreq hr
  · rw [if_neg hdirect]

section Read

variable {s : ClusterState V τ} {k : String} (h : s.Consistent k) {i : Nat} {call : ApiCall V τ}
  (hi : s.calls[i]? = some call) (hreq : call.request = .get k)

omit [LinearOrder τ] [Add τ]

include h hi hreq

private theorem versions_nonneg : ∀ r, some r ∈ call.replicas.map call.version → 0 ≤ r.ts := by
  intro r hr
  obtain ⟨n, -, hr⟩ := List.mem_map.1 hr
  exact version_nonneg h hi hreq hr

/-- A read returns what some write carries that a replica reported, the newest of those reported; or it has heard of no
write. -/
theorem read_cases :
    (∃ n ∈ call.replicas, ∃ w t, call.version n = some w.version ∧ s.Issued k w t ∧
        (bestOf (call.replicas.map call.version)).ts = w.ts ∧
        resolve (call.replicas.map call.version) = w.carried ∧ ∀ t' v, call.ended = some (t', v) → t < t') ∨
      ((bestOf (call.replicas.map call.version)).ts = -1 ∧ resolve (call.replicas.map call.version) = none) := by
  rcases resolve_cases (versions_nonneg h hi hreq) with ⟨hbest, -, hres⟩ | ⟨-, hts, hres⟩
  · obtain ⟨n, hn, hr⟩ := List.mem_map.1 hbest
    obtain ⟨w, t, hw, hv, hlt⟩ := h.heard i call n _ hi hreq hr
    refine Or.inl ⟨n, hn, w, t, by rw [hr, hv], hw, ?_, ?_, hlt⟩
    · rw [hv, Write.version_ts]
    · rw [hres, hv, visible_version]
  · exact Or.inr ⟨hts, hres⟩

theorem le_best {n : NodeInfo} (hn : n ∈ call.replicas) {r : Versioned V} (hr : call.version n = some r) :
    r.ts ≤ (bestOf (call.replicas.map call.version)).ts := by
  have hmem : some r ∈ call.replicas.map call.version := List.mem_map.2 ⟨n, hn, hr⟩
  rcases resolve_cases (versions_nonneg h hi hreq) with ⟨-, hmax, -⟩ | ⟨hnone, -, -⟩
  · exact hmax r hmem
  · exact absurd hmem (hnone r)

end Read

end Run

end ClusterState

end DLStorage
