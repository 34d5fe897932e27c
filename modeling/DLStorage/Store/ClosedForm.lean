import DLStorage.Base.Newest
import DLStorage.Store.Run

/-!
# The closed form of the store

Without lifetimes, and as long as nothing is flushed, the entry of a key is the last of the newest that sets and deletes
have written under it (`entry_storeAfter`), whatever is read or swept in between.  So `get_versioned` answers from the
history alone, and a set is rejected exactly when something newer has come before.
-/

namespace DLStorage

open Base (latest)

variable {V τ : Type}

/-- The operation stores nothing that expires, and flushes nothing. -/
def StoreOp.Permanent : StoreOp V τ → Prop
  | set _ _ ttl _ => ttl = none
  | flushAll | flushKeys _ | clear => False
  | get _ | getVersioned _ | delete _ _ | .exists _ | keys | scan _ | scanKeys _ | purgeExpired | len => True

/-- The entries that a run writes under `k`, rejected ones included. -/
def StoreRun.writtenUnder [Add τ] (run : StoreRun V τ) (k : String) : List (Entry V τ) :=
  run.filterMap fun x => x.2.written x.1 k

/-- Of the steps that write under `k` with the greatest timestamp, the last writes `e`. -/
def LastNewest [Add τ] (run : StoreRun V τ) (k : String) (e : Entry V τ) : Prop :=
  ∃ pre w post, run = pre ++ w :: post ∧ w.2.written w.1 k = some e ∧
    (∀ y ∈ pre, ∀ T, WritesAt y k T → T ≤ e.ts) ∧ ∀ y ∈ post, ∀ T, WritesAt y k T → T < e.ts

namespace StoreOp

variable {op : StoreOp V τ}

theorem Permanent.not_flushes (h : op.Permanent) : op.flushes = false := by
  cases op with
  | flushAll | flushKeys _ | clear => exact h.elim
  | set | get | getVersioned | delete | «exists» | keys | scan | scanKeys | purgeExpired | len => rfl

theorem Permanent.expiresAt [Add τ] (h : op.Permanent) {c : Clock τ} {k : String} {e : Entry V τ}
    (he : op.written c k = some e) : e.expiresAt = none := by
  cases op with
  | set k' v ttl ts =>
    obtain rfl : ttl = none := h
    obtain ⟨-, heq⟩ := Option.ite_none_right_eq_some.1 he
    obtain rfl := Option.some.inj heq
    rfl
  | delete k' ts =>
    obtain ⟨-, heq⟩ := Option.ite_none_right_eq_some.1 he
    obtain rfl := Option.some.inj heq
    rfl
  | get | getVersioned | «exists» | keys | scan | scanKeys | flushAll | flushKeys | clear | purgeExpired | len =>
    cases he

end StoreOp

/-! ### The history of a key -/

section History

variable [Add τ] {run : StoreRun V τ} {k : String}

private theorem writtenUnder_concat (run : StoreRun V τ) (x : Clock τ × StoreOp V τ) (k : String) :
    StoreRun.writtenUnder (run ++ [x]) k = run.writtenUnder k ++ (x.2.written x.1 k).toList := by
  unfold StoreRun.writtenUnder
  rw [List.filterMap_append]
  cases h : x.2.written x.1 k <;> simp [h]

private theorem mem_writtenUnder {e : Entry V τ} :
    e ∈ run.writtenUnder k ↔ ∃ x ∈ run, x.2.written x.1 k = some e :=
  List.mem_filterMap

/-- What the steps of a list write has a property of timestamps. -/
private theorem forall_writtenUnder (P : Int → Prop) {l : StoreRun V τ} :
    (∀ e ∈ l.writtenUnder k, P e.ts) ↔ ∀ y ∈ l, ∀ T, WritesAt y k T → P T := by
  constructor
  · rintro h y hy T ⟨e, he, rfl⟩
    exact h e (mem_writtenUnder.2 ⟨y, hy, he⟩)
  · intro h e he
    obtain ⟨y, hy, hw⟩ := mem_writtenUnder.1 he
    exact h y hy e.ts ⟨e, hw, rfl⟩

theorem latest_writtenUnder {e : Entry V τ} : latest Entry.ts (run.writtenUnder k) = some e ↔ LastNewest run k e := by
  rw [Base.latest_eq_some_iff]
  constructor
  · rintro ⟨pre, post, hsplit, hpre, hpost⟩
    obtain ⟨l₁, l', rfl, rfl, hl'⟩ := List.filterMap_eq_append_iff.1 hsplit
    obtain ⟨l₂, w, l₃, rfl, hnone, hw, rfl⟩ := List.filterMap_eq_cons_iff.1 hl'
    -- the steps of `l₂` write nothing under the key
    refine ⟨l₁ ++ l₂, w, l₃, by simp, hw, ?_, (forall_writtenUnder (· < e.ts)).1 hpost⟩
    intro y hy T hT
    rcases List.mem_append.1 hy with hy | hy
    · exact (forall_writtenUnder (· ≤ e.ts)).1 hpre y hy T hT
    · obtain ⟨e', he', -⟩ := hT
      rw [hnone y hy] at he'
      cases he'
  · rintro ⟨pre, w, post, rfl, hw, hpre, hpost⟩
    refine ⟨StoreRun.writtenUnder pre k, StoreRun.writtenUnder post k, ?_,
      (forall_writtenUnder (· ≤ e.ts)).2 hpre, (forall_writtenUnder (· < e.ts)).2 hpost⟩
    unfold StoreRun.writtenUnder
    rw [List.filterMap_append]
    simp [hw]

end History

section Run

variable [LinearOrder τ] [Add τ] {run : StoreRun V τ}

/-- The entry of a key is the last of the newest written under it. -/
theorem entry_storeAfter (hrun : ∀ x ∈ run, x.2.Permanent) (k : String) :
    (storeAfter run).entry k = latest Entry.ts (run.writtenUnder k) := by
  induction run using List.reverseRecOn with
  | nil => rfl
  | append_singleton run x ih =>
    have hold : ∀ y ∈ run, y.2.Permanent := fun y hy => hrun y (List.mem_append_left _ hy)
    have hx : x.2.Permanent := hrun x (by simp)
    have hentry := ih hold
    rw [storeAfter_concat, writtenUnder_concat]
    rcases StoreOp.entry_apply x.2 x.1 (storeAfter run) k with
      ⟨e, hw, hadmits, hnew⟩ | ⟨e, hw, hrejects, hsame⟩ | ⟨hw, hsame | ⟨-, hflush | ⟨e, he, hsweep⟩⟩⟩
    · rw [hw]
      show (storeStep (storeAfter run) x).entry k = latest Entry.ts (StoreRun.writtenUnder run k ++ [e])
      rw [show (storeStep (storeAfter run) x).entry k = some e from hnew]
      cases hlatest : latest Entry.ts (StoreRun.writtenUnder run k) with
      | none => rw [Base.latest_concat_of_none hlatest]
      | some b => rw [Base.latest_concat_of_some hlatest, if_pos (hadmits b (hentry.trans hlatest))]
    · rw [hw]
      show (storeStep (storeAfter run) x).entry k = latest Entry.ts (StoreRun.writtenUnder run k ++ [e])
      rw [show (storeStep (storeAfter run) x).entry k = (storeAfter run).entry k from hsame, hentry]
      cases hlatest : latest Entry.ts (StoreRun.writtenUnder run k) with
      | none => exact absurd (LocalLWWStore.admits_of_none (hentry.trans hlatest)) hrejects
      | some b =>
        have hnewer : ¬ b.ts ≤ e.ts := fun hle =>
          hrejects ((LocalLWWStore.admits_iff_of_some (hentry.trans hlatest)).2 hle)
        rw [Base.latest_concat_of_some hlatest, if_neg hnewer]
    · rw [hw, Option.toList_none, List.append_nil, ← hentry]
      exact hsame
    · rw [hx.not_flushes] at hflush
      cases hflush
    · -- what the history has written does not expire
      have hmem := Base.best_mem (hentry.symm.trans he)
      obtain ⟨y, hy, hwritten⟩ := mem_writtenUnder.1 hmem
      obtain ⟨t, ht, -⟩ := Entry.expiresAt_of_sweepable hsweep
      rw [(hold y hy).expiresAt hwritten] at ht
      cases ht

private theorem report_storeAfter (hrun : ∀ x ∈ run, x.2.Permanent) (now : τ) (k : String) :
    (storeAfter run).report now k = (latest Entry.ts (run.writtenUnder k)).map Entry.version := by
  unfold LocalLWWStore.report
  rw [entry_storeAfter hrun]
  cases hlatest : latest Entry.ts (run.writtenUnder k) with
  | none => rfl
  | some e =>
    obtain ⟨x, hx, hw⟩ := mem_writtenUnder.1 (Base.best_mem hlatest)
    have hlasting : e.readExpired now = false := by
      simp [Entry.readExpired, (hrun x hx).expiresAt hw]
    rw [Option.filter_some_pos (by simp [hlasting])]

private theorem admits_storeAfter (hrun : ∀ x ∈ run, x.2.Permanent) (k : String) (ts : Int) :
    (storeAfter run).Admits k ts ↔ ∀ y ∈ run, ∀ T, WritesAt y k T → T ≤ ts := by
  rw [← forall_writtenUnder (· ≤ ts)]
  unfold LocalLWWStore.Admits
  rw [entry_storeAfter hrun]
  constructor
  · intro h e he
    cases hlatest : latest Entry.ts (run.writtenUnder k) with
    | none =>
      rw [Base.best_eq_none_iff.1 hlatest] at he
      cases he
    | some b => exact (Base.latest_max hlatest e he).trans (h b hlatest)
  · intro h e he
    exact h e (Base.best_mem he)

/-- `get_versioned` reports the last of the newest sets and deletes on a key, and nothing if there is none; a set is
rejected exactly when a newer one has come before. -/
theorem store_closed_form (run : StoreRun V τ) (hrun : ∀ x ∈ run, x.2.Permanent) (k : String) :
    (∀ c, ((storeAfter run).getVersioned c k).1 = none ↔ ∀ x ∈ run, ∀ T, ¬ WritesAt x k T) ∧
    (∀ c r, ((storeAfter run).getVersioned c k).1 = some r ↔ ∃ e, LastNewest run k e ∧ e.version = r) ∧
    ∀ pre c v ts post, run = pre ++ (c, .set k v none (some ts)) :: post →
      (((storeAfter pre).set c k v none (some ts)).1 = false ↔ ∃ y ∈ pre, ∃ T, WritesAt y k T ∧ ts < T) := by
  refine ⟨fun c => ?_, fun c r => ?_, fun pre c v ts post hsplit => ?_⟩
  · rw [LocalLWWStore.getVersioned_fst, report_storeAfter hrun, Option.map_eq_none_iff]
    show Base.best _ _ = none ↔ _
    rw [Base.best_eq_none_iff, List.eq_nil_iff_forall_not_mem]
    constructor
    · rintro h x hx T ⟨e, he, -⟩
      exact h e (mem_writtenUnder.2 ⟨x, hx, he⟩)
    · intro h e he
      obtain ⟨x, hx, hw⟩ := mem_writtenUnder.1 he
      exact h x hx e.ts ⟨e, hw, rfl⟩
  · rw [LocalLWWStore.getVersioned_fst, report_storeAfter hrun, Option.map_eq_some_iff]
    simp only [latest_writtenUnder]
  · have hpre : ∀ x ∈ pre, x.2.Permanent := fun x hx => hrun x (hsplit ▸ List.mem_append_left _ hx)
    rw [LocalLWWStore.set_fst, decide_eq_false_iff_not, Option.getD_some, admits_storeAfter hpre]
    simp only [not_forall, not_le, exists_prop]

end Run

/-- Two tied sets around a sweep, and a set that comes late. -/
def tiedRun : StoreRun Nat Int :=
  [(⟨0, 5⟩, .set "k" (some 1) none (some 5)), (⟨1, 6⟩, .purgeExpired), (⟨2, 7⟩, .set "k" (some 2) none (some 5)),
    (⟨3, 8⟩, .set "k" (some 3) none (some 4))]

theorem tiedRun_rejects_late :
    ((storeAfter (tiedRun.take 3)).set ⟨3, 8⟩ "k" (some 3) none (some 4)).1 = false := by
  have hpermanent : ∀ x ∈ tiedRun, x.2.Permanent := by
    simp [tiedRun, StoreOp.Permanent]
  refine ((store_closed_form tiedRun hpermanent "k").2.2 (tiedRun.take 3) ⟨3, 8⟩ (some 3) 4 [] rfl).2 ?_
  exact ⟨(⟨0, 5⟩, .set "k" (some 1) none (some 5)), List.mem_cons_self, 5, ⟨_, rfl, rfl⟩, by decide⟩

end DLStorage
