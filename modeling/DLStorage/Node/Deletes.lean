import DLStorage.Node.Wire
import DLStorage.Store.Liveness

/-!
# Acknowledgements of deletes

`delete` tells of the entry that it found, whether or not the tombstone replaces that entry and whether or not the
value has expired.  `dispatch` answers OK or NOT_FOUND accordingly, and the remote handle returns what the answer says.
All three tell the truth about a live value that the delete removes exactly when no value lies under the key that is
newer than the delete or has expired (`truthfulDelete_iff`).
-/

namespace DLStorage

open Base (after after_append after_invariant)

variable {V τ : Type} [LinearOrder τ]

namespace LocalLWWStore

/-- There is a live value under `k` immediately before the delete and none immediately after it. -/
def Removes (s : LocalLWWStore V τ) (c : Clock τ) (k : String) (ts : Int) : Prop :=
  s.Live c k ∧ ¬ (s.delete c k (some ts)).2.Live c k

/-- A value under `k` is not newer than the delete and has not expired. -/
def CurrentFor (s : LocalLWWStore V τ) (c : Clock τ) (k : String) (ts : Int) : Prop :=
  ∀ e, s.entry k = some e → e.stored.isTombstone = false → e.ts ≤ ts ∧ ∀ x, e.expiresAt = some x → c.monotonic ≤ x

/-- No value lies under `k`. -/
def Blank (s : LocalLWWStore V τ) (k : String) : Prop := ∀ e, s.entry k = some e → e.stored.isTombstone = true

variable {s : LocalLWWStore V τ} {c : Clock τ} {k : String} {ts : Int}

omit [LinearOrder τ] in
/-- A delete answers `True` when it finds a value. -/
theorem delete_fst_iff :
    (s.delete c k (some ts)).1 = true ↔ ∃ e, s.entry k = some e ∧ e.stored.isTombstone = false := by
  rw [delete_eq]
  cases h : s.entry k with
  | none => simp
  | some e => simp

omit [LinearOrder τ] in
/-- A delete that the store admits leaves no value. -/
theorem blank_delete (ha : s.Admits k ts) : (s.delete c k (some ts)).2.Blank k := by
  intro e he
  rw [entry_delete, Option.getD_some, if_pos ⟨rfl, ha⟩] at he
  obtain rfl := Option.some.inj he
  rfl

theorem Blank.not_live (h : s.Blank k) : ¬ s.Live c k := by
  intro hlive
  obtain ⟨e, he, htomb, -⟩ := live_iff.1 hlive
  rw [h e he] at htomb
  cases htomb

theorem Blank.get_fst (h : s.Blank k) : (s.get c k).1 = none := by
  rw [LocalLWWStore.get_fst]
  cases hr : s.report c.monotonic k with
  | none => rfl
  | some r =>
    obtain ⟨e, he, -, rfl⟩ := report_eq_some_iff.1 hr
    simp [h e he]

/-- A delete removes a live value when it finds a value that is not newer and has not expired. -/
theorem removes_iff (hcur : s.CurrentFor c k ts) :
    s.Removes c k ts ↔ ∃ e, s.entry k = some e ∧ e.stored.isTombstone = false := by
  constructor
  · rintro ⟨hlive, -⟩
    obtain ⟨e, he, htomb, -⟩ := live_iff.1 hlive
    exact ⟨e, he, htomb⟩
  · rintro ⟨e, he, htomb⟩
    obtain ⟨hts, hexp⟩ := hcur e he htomb
    have ha : s.Admits k ts := (admits_iff_of_some he).2 hts
    exact ⟨live_iff.2 ⟨e, he, htomb, hexp⟩, (blank_delete ha).not_live⟩

/-- When the answer is the truth, the value that was found is current. -/
theorem currentFor_of_truthful (h : (s.delete c k (some ts)).1 = true → s.Removes c k ts) : s.CurrentFor c k ts := by
  intro e he htomb
  obtain ⟨hlive, hgone⟩ := h (delete_fst_iff.2 ⟨e, he, htomb⟩)
  obtain ⟨e', he', -, hexp⟩ := live_iff.1 hlive
  obtain rfl := Option.some.inj (he.symm.trans he')
  refine ⟨?_, hexp⟩
  by_contra hnewer
  -- the store rejects the delete, and the value lives on
  have hadmits : ¬ s.Admits k ts := fun ha => hnewer ((admits_iff_of_some he).1 ha)
  have hsame : (s.delete c k (some ts)).2.entry k = some e := by
    rw [entry_delete, Option.getD_some, if_neg (fun h => hadmits h.2), he]
  exact hgone (live_iff.2 ⟨e, hsame, htomb, hexp⟩)

end LocalLWWStore

variable [Add τ]

/-- Where no value lies under a key, none does until a write on the key is accepted. -/
private theorem blank_after {s : LocalLWWStore V τ} {k : String} (hs : s.Blank k) {rest : StoreRun V τ}
    (hrest : ∀ pre x post t, rest = pre ++ x :: post → ¬ Accepts (after storeStep s pre) x k t) :
    (after storeStep s rest).Blank k := by
  refine after_invariant (P := fun _ (s' : LocalLWWStore V τ) => s'.Blank k)
    (C := fun pre x => ∀ t, ¬ Accepts (after storeStep s pre) x k t) hs ?_
    (fun pre x post hrun t => hrest pre x post t hrun)
  intro pre x hx hblank e he
  rcases StoreOp.entry_apply x.2 x.1 (after storeStep s pre) k with ⟨e', hw, ha, -⟩ | ⟨-, -, -, hsame⟩ |
    ⟨-, hsame | ⟨hnone, -⟩⟩
  · exact absurd ⟨⟨e', hw, rfl⟩, ha⟩ (hx e'.ts)
  · exact hblank e (hsame.symm.trans he)
  · exact hblank e (hsame.symm.trans he)
  · exact absurd (he.symm.trans hnone) (by simp)

/-- The delete and those who pass its result on tell the truth: about the moment of the delete, and with `True` about
the time until a write on the key is accepted. -/
structure TruthfulDelete (run : StoreRun V τ) (c : Clock τ) (k : String) (ts : Int) : Prop where
  result : ((storeAfter run).delete c k (some ts)).1 = true ↔ (storeAfter run).Removes c k ts
  answer : ∃ resp, (transact c (deleteMessage k ts) (storeAfter run)).1 = some resp ∧
    (resp.type = .ok ↔ (storeAfter run).Removes c k ts) ∧ (resp.type = .notFound ↔ ¬ (storeAfter run).Removes c k ts)
  handle : ∀ link n, link n = .answers →
    (((AsyncRemoteHandle n c (networkPool link)).delete k ts (storeAfter run)).1 = .ok true ↔
      (storeAfter run).Removes c k ts)
  gone : ((storeAfter run).delete c k (some ts)).1 = true → ∀ rest : StoreRun V τ,
    (∀ pre x post t, rest = pre ++ x :: post → ¬ Accepts (storeAfter (run ++ (c, .delete k (some ts)) :: pre)) x k t) →
    ∀ c', ((storeAfter (run ++ (c, .delete k (some ts)) :: rest)).get c' k).1 = none

private theorem storeAfter_delete (run rest : StoreRun V τ) (c : Clock τ) (k : String) (ts : Int) :
    storeAfter (run ++ (c, .delete k (some ts)) :: rest) =
      after storeStep ((storeAfter run).delete c k (some ts)).2 rest :=
  after_append run ((c, .delete k (some ts)) :: rest)

/-- The acknowledgement of a delete is truthful exactly when the value under the key, if there is one, is neither newer
than the delete nor expired. -/
theorem truthfulDelete_iff (run : StoreRun V τ) (c : Clock τ) (k : String) (ts : Int) :
    TruthfulDelete run c k ts ↔ (storeAfter run).CurrentFor c k ts := by
  constructor
  · intro h
    exact LocalLWWStore.currentFor_of_truthful h.result.1
  · intro hcur
    have hresult : ((storeAfter run).delete c k (some ts)).1 = true ↔ (storeAfter run).Removes c k ts :=
      LocalLWWStore.delete_fst_iff.trans (LocalLWWStore.removes_iff hcur).symm
    refine ⟨hresult, ?_, ?_, ?_⟩
    · rw [transact_delete]
      refine ⟨_, rfl, ?_, ?_⟩
      · rw [← hresult]
        cases ((storeAfter run).delete c k (some ts)).1 <;> simp
      · rw [← hresult]
        cases ((storeAfter run).delete c k (some ts)).1 <;> simp
    · intro link n hlink
      have hdelete := remote_delete hlink c (storeAfter run) k ts
      show ((remoteHandle n c (networkPool link)).delete k ts (storeAfter run)).1 = .ok true ↔ _
      rw [hdelete, ← hresult, Except.ok.injEq]
    · intro htrue rest hrest c'
      obtain ⟨e, he, htomb⟩ := LocalLWWStore.delete_fst_iff.1 htrue
      have ha : (storeAfter run).Admits k ts := (LocalLWWStore.admits_iff_of_some he).2 (hcur e he htomb).1
      rw [storeAfter_delete]
      refine (blank_after (LocalLWWStore.blank_delete ha) ?_).get_fst
      intro pre x post t hrun
      rw [← storeAfter_delete]
      exact hrest pre x post t hrun

/-- A delete that is older than the live value it finds is acknowledged although the value stays, and so is a delete
that finds an expired value. -/
theorem mortalRun_untruthful_deletes :
    ¬ TruthfulDelete mortalRun ⟨2, 7⟩ "key" 4 ∧ ¬ TruthfulDelete mortalRun ⟨5, 9⟩ "key" 9 := by
  refine ⟨fun h => ?_, fun h => ?_⟩
  · have hstays : ((storeAfter mortalRun).delete ⟨2, 7⟩ "key" (some 4)).2.Live ⟨2, 7⟩ "key" :=
      ⟨⟨some 1, 5, false⟩, by decide, rfl⟩
    exact (h.result.1 (by decide)).2 hstays
  · have hexpired : ((storeAfter mortalRun).getVersioned ⟨5, 9⟩ "key").1 = none := by decide
    obtain ⟨r, hr, -⟩ := (h.result.1 (by decide)).1
    rw [hexpired] at hr
    cases hr

end DLStorage
