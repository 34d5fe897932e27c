import DLStorage.Store.Lww
import DLStorage.Base.Run

/-!
# Runs of one store

Every operation of `LocalLWWStore` as an event, with the clock readings it takes.  `entry_apply` says once what an
operation can do to the entry of a key: write it when it admits the timestamp, leave it, or drop it.  From it follows
when a store never goes back behind a write it accepted (`noResurrection_iff`): the timestamps survive every operation
except eviction, so the only way back is a write that arrives after the entry was dropped and is older than one that
came before.
-/

namespace DLStorage

open Base (after after_concat after_invariant after_becomes)

inductive StoreOp (V τ : Type)
  | set (key : String) (value : PyObj V) (ttl : Option τ) (ts : Option Int)
  | get (key : String)
  | getVersioned (key : String)
  | delete (key : String) (ts : Option Int)
  | exists (key : String)
  | keys
  | scan (pattern : String)
  | scanKeys (pattern : String)
  | flushAll
  | flushKeys (pattern : String)
  | clear
  | purgeExpired
  | len

/-- What an operation returns. -/
inductive StoreResult (V : Type)
  | none
  | bool (b : Bool)
  | obj (v : PyObj V)
  | version (r : Option (Versioned V))
  | keys (ks : List String)
  | items (kvs : List (String × PyObj V))
  | count (n : Nat)

variable {V τ : Type}

namespace StoreOp

/-- The operations that empty the store or a part of it. -/
def flushes : StoreOp V τ → Bool
  | flushAll | flushKeys _ | clear => true
  | _ => false

variable [Add τ]

/-- The entry that an operation puts under `x` when the store admits it. -/
def written (c : Clock τ) (x : String) : StoreOp V τ → Option (Entry V τ)
  | set k v ttl ts => if k = x then some ⟨.value v, ttl.map (c.monotonic + ·), ts.getD c.timeNs⟩ else none
  | delete k ts => if k = x then some ⟨.tombstone, none, ts.getD c.timeNs⟩ else none
  | _ => none

variable [LinearOrder τ]

/-- Perform the operation. -/
def apply (c : Clock τ) (s : LocalLWWStore V τ) : StoreOp V τ → StoreResult V × LocalLWWStore V τ
  | set k v ttl ts => let (b, s') := s.set c k v ttl ts; (.bool b, s')
  | get k => let (v, s') := s.get c k; (.obj v, s')
  | getVersioned k => let (r, s') := s.getVersioned c k; (.version r, s')
  | delete k ts => let (b, s') := s.delete c k ts; (.bool b, s')
  | .exists k => let (b, s') := s.exists c k; (.bool b, s')
  | keys => (.keys (s.keys c), s)
  | scan p => (.items (s.scan c p), s)
  | scanKeys p => (.keys (s.scanKeys c p), s)
  | flushAll => (.none, LocalLWWStore.flushAll)
  | flushKeys p => let (n, s') := s.flushKeys p; (.count n, s')
  | clear => (.none, LocalLWWStore.clear)
  | purgeExpired => let (n, s') := s.purgeExpired c; (.count n, s')
  | len => (.count (s.len c), s)

/-- What an operation can do to the entry of `x`: put the entry that it writes when the store admits it, and leave `x`
alone otherwise; when it writes nothing, leave `x` alone or drop it, because it flushes or because the entry has
expired. -/
theorem entry_apply (op : StoreOp V τ) (c : Clock τ) (s : LocalLWWStore V τ) (x : String) :
    (∃ e, op.written c x = some e ∧ s.Admits x e.ts ∧ (op.apply c s).2.entry x = some e) ∨
    (∃ e, op.written c x = some e ∧ ¬ s.Admits x e.ts ∧ (op.apply c s).2.entry x = s.entry x) ∨
    (op.written c x = none ∧ ((op.apply c s).2.entry x = s.entry x ∨
      ((op.apply c s).2.entry x = none ∧
        (op.flushes = true ∨ ∃ e, s.entry x = some e ∧ e.sweepable c.monotonic = true)))) := by
  have hread : ∀ k s', s' = (s.getVersioned c k).2 → s'.entry x = s.entry x ∨
      (s'.entry x = none ∧ (false = true ∨ ∃ e, s.entry x = some e ∧ e.sweepable c.monotonic = true)) := by
    rintro k s' rfl
    exact (s.evicts_getVersioned c k x).imp_right (fun h => ⟨h.1, Or.inr h.2⟩)
  cases op with
  | set k v ttl ts =>
    simp only [written, apply, LocalLWWStore.entry_set]
    by_cases hk : k = x
    · subst hk
      by_cases ha : s.Admits k (ts.getD c.timeNs)
      · exact Or.inl ⟨_, if_pos rfl, ha, if_pos ⟨rfl, ha⟩⟩
      · exact Or.inr (Or.inl ⟨_, if_pos rfl, ha, if_neg (fun h => ha h.2)⟩)
    · exact Or.inr (Or.inr ⟨if_neg hk, Or.inl (if_neg (fun h => hk h.1.symm))⟩)
  | delete k ts =>
    simp only [written, apply, LocalLWWStore.entry_delete]
    by_cases hk : k = x
    · subst hk
      by_cases ha : s.Admits k (ts.getD c.timeNs)
      · exact Or.inl ⟨_, if_pos rfl, ha, if_pos ⟨rfl, ha⟩⟩
      · exact Or.inr (Or.inl ⟨_, if_pos rfl, ha, if_neg (fun h => ha h.2)⟩)
    · exact Or.inr (Or.inr ⟨if_neg hk, Or.inl (if_neg (fun h => hk h.1.symm))⟩)
  | get k => exact Or.inr (Or.inr ⟨rfl, hread k _ (LocalLWWStore.get_snd s c k)⟩)
  | getVersioned k => exact Or.inr (Or.inr ⟨rfl, hread k _ rfl⟩)
  | «exists» k => exact Or.inr (Or.inr ⟨rfl, hread k _ (LocalLWWStore.exists_snd s c k)⟩)
  | purgeExpired =>
    exact Or.inr (Or.inr ⟨rfl, (s.evicts_purgeExpired c x).imp_right (fun h => ⟨h.1, Or.inr h.2⟩)⟩)
  | flushKeys p =>
    refine Or.inr (Or.inr ⟨rfl, ?_⟩)
    show (s.flushKeys p).2.entry x = _ ∨ (s.flushKeys p).2.entry x = _ ∧ _
    rw [LocalLWWStore.entry_flushKeys]
    exact (LocalLWWStore.filter_eq_or_none (s.entry x) (fun _ => isIn p x)).imp_right (fun h => ⟨h.1, Or.inl rfl⟩)
  | flushAll => exact Or.inr (Or.inr ⟨rfl, Or.inr ⟨rfl, Or.inl rfl⟩⟩)
  | clear => exact Or.inr (Or.inr ⟨rfl, Or.inr ⟨rfl, Or.inl rfl⟩⟩)
  | keys => exact Or.inr (Or.inr ⟨rfl, Or.inl rfl⟩)
  | scan p => exact Or.inr (Or.inr ⟨rfl, Or.inl rfl⟩)
  | scanKeys p => exact Or.inr (Or.inr ⟨rfl, Or.inl rfl⟩)
  | len => exact Or.inr (Or.inr ⟨rfl, Or.inl rfl⟩)

end StoreOp

/-- A run of one store: operations with their clock readings. -/
abbrev StoreRun (V τ : Type) := List (Clock τ × StoreOp V τ)

/-- The readings of the monotonic clock never decrease along the run. -/
def StoreRun.ClockMonotone [LE τ] (run : StoreRun V τ) : Prop :=
  run.Pairwise (fun x y => x.1.monotonic ≤ y.1.monotonic)

/-- The step writes `k` with timestamp `ts`. -/
def WritesAt [Add τ] (x : Clock τ × StoreOp V τ) (k : String) (ts : Int) : Prop :=
  ∃ e, x.2.written x.1 k = some e ∧ e.ts = ts

theorem WritesAt.unique [Add τ] {x : Clock τ × StoreOp V τ} {k : String} {ts ts' : Int} (h : WritesAt x k ts)
    (h' : WritesAt x k ts') : ts = ts' := by
  obtain ⟨e, he, rfl⟩ := h
  obtain ⟨e', he', rfl⟩ := h'
  rw [Option.some.inj (he.symm.trans he')]

theorem writesAt_set [Add τ] (c : Clock τ) (k : String) (v : PyObj V) (ttl : Option τ) (ts : Option Int) :
    WritesAt (c, .set k v ttl ts) k (ts.getD c.timeNs) := ⟨_, if_pos rfl, rfl⟩

theorem writesAt_delete [Add τ] (c : Clock τ) (k : String) (ts : Option Int) :
    WritesAt ((c, .delete k ts) : Clock τ × StoreOp V τ) k (ts.getD c.timeNs) := ⟨_, if_pos rfl, rfl⟩

/-- The step is a set or delete on `k` with timestamp `ts` that the store accepts. -/
def Accepts [Add τ] (s : LocalLWWStore V τ) (x : Clock τ × StoreOp V τ) (k : String) (ts : Int) : Prop :=
  WritesAt x k ts ∧ s.Admits k ts

section Run

variable [LinearOrder τ] [Add τ]

/-- One step of a run. -/
def storeStep (s : LocalLWWStore V τ) (x : Clock τ × StoreOp V τ) : LocalLWWStore V τ := (x.2.apply x.1 s).2

/-- The store after a run that starts from a new store. -/
def storeAfter (run : StoreRun V τ) : LocalLWWStore V τ := after storeStep LocalLWWStore.empty run

theorem storeAfter_concat (run : StoreRun V τ) (x : Clock τ × StoreOp V τ) :
    storeAfter (run ++ [x]) = storeStep (storeAfter run) x :=
  after_concat run x

/-- After a write on `k` with timestamp `T` is accepted, no set on `k` with a smaller timestamp is accepted and
`get_versioned(k)` reports no smaller timestamp. -/
def NoResurrection (run : StoreRun V τ) : Prop :=
  ∀ pre w mid post k T, run = pre ++ w :: (mid ++ post) → Accepts (storeAfter pre) w k T →
    (∀ c r, ((storeAfter (pre ++ w :: mid)).getVersioned c k).1 = some r → T ≤ r.ts) ∧
    (∀ c v ttl ts post', post = (c, .set k v ttl ts) :: post' → ts.getD c.timeNs < T →
      ((storeAfter (pre ++ w :: mid)).set c k v ttl ts).1 = false)

/-- A set or delete on a key whose entry is gone is not older than any earlier set or delete on that key. -/
def NoLateWriteAfterEviction (run : StoreRun V τ) : Prop :=
  ∀ pre x post k ts, run = pre ++ x :: post → WritesAt x k ts → (storeAfter pre).entry k = none →
    ∀ y ∈ pre, ∀ T, WritesAt y k T → T ≤ ts

/-- Every entry is at least as new as every write that the store was given on its key. -/
private def Floor (past : StoreRun V τ) (s : LocalLWWStore V τ) : Prop :=
  ∀ k e, s.entry k = some e → ∀ y ∈ past, ∀ T, WritesAt y k T → T ≤ e.ts

private theorem floor_step {pre : StoreRun V τ} {s : LocalLWWStore V τ} {x : Clock τ × StoreOp V τ}
    (hx : ∀ k ts, WritesAt x k ts → s.entry k = none → ∀ y ∈ pre, ∀ T, WritesAt y k T → T ≤ ts)
    (h : Floor pre s) : Floor (pre ++ [x]) (storeStep s x) := by
  intro k e he y hy T hT
  rw [List.mem_append, List.mem_singleton] at hy
  rcases StoreOp.entry_apply x.2 x.1 s k with ⟨e', hw, ha, he'⟩ | ⟨e', hw, ha, he'⟩ | ⟨hw, he' | ⟨he', -⟩⟩
  · have hee : e' = e := Option.some.inj (he'.symm.trans he)
    subst hee
    rcases hy with hy | rfl
    · cases hs : s.entry k with
      | none => exact hx k e'.ts ⟨e', hw, rfl⟩ hs y hy T hT
      | some e₀ => exact le_trans (h k e₀ hs y hy T hT) (ha e₀ hs)
    · exact le_of_eq (hT.unique ⟨e', hw, rfl⟩)
  · have hs : s.entry k = some e := he'.symm.trans he
    rcases hy with hy | rfl
    · exact h k e hs y hy T hT
    · have hTe : T = e'.ts := hT.unique ⟨e', hw, rfl⟩
      rw [LocalLWWStore.admits_iff_of_some hs] at ha
      omega
  · have hs : s.entry k = some e := he'.symm.trans he
    rcases hy with hy | rfl
    · exact h k e hs y hy T hT
    · obtain ⟨e', hw', -⟩ := hT
      exact absurd (hw'.symm.trans hw) (by simp)
  · exact absurd (he.symm.trans he') (by simp)

private theorem floor_after {run : StoreRun V τ} (h : NoLateWriteAfterEviction run) : Floor run (storeAfter run) := by
  refine after_invariant (C := fun pre x => ∀ k ts, WritesAt x k ts → (storeAfter pre).entry k = none →
    ∀ y ∈ pre, ∀ T, WritesAt y k T → T ≤ ts) ?_ (fun pre x hx hf => floor_step hx hf) ?_
  · intro k e he
    cases he
  · intro pre x post hrun k ts hw hnone
    exact h pre x post k ts hrun hw hnone

private theorem NoLateWriteAfterEviction.of_append {run post : StoreRun V τ}
    (h : NoLateWriteAfterEviction (run ++ post)) : NoLateWriteAfterEviction run := by
  intro pre x post' k ts hrun
  exact h pre x (post' ++ post) k ts (by rw [hrun]; simp)

/-- The entry of a key was written by an accepted write of the run. -/
theorem entry_accepted (run : StoreRun V τ) {k : String} {e : Entry V τ} (he : (storeAfter run).entry k = some e) :
    ∃ pre w post, run = pre ++ w :: post ∧ Accepts (storeAfter pre) w k e.ts := by
  have hstart : ¬ (storeAfter ([] : StoreRun V τ)).entry k = some e := by
    intro h
    cases h
  -- the operation after which the store holds `e` for the first time put it there
  obtain ⟨pre, w, post, rfl, hbefore, hafter⟩ :=
    after_becomes (Q := fun s : LocalLWWStore V τ => s.entry k = some e) hstart he
  rcases StoreOp.entry_apply w.2 w.1 (storeAfter pre) k with ⟨e', hw, ha, he'⟩ | ⟨e', -, -, he'⟩ | ⟨-, he' | ⟨he', -⟩⟩
  · have hee : e' = e := Option.some.inj (he'.symm.trans hafter)
    subst hee
    exact ⟨pre, w, post, rfl, ⟨e', hw, rfl⟩, ha⟩
  · exact absurd (he'.symm.trans hafter) hbefore
  · exact absurd (he'.symm.trans hafter) hbefore
  · exact absurd (he'.symm.trans hafter) (by simp)

/-- Of the writes given to a store, a newest one was accepted. -/
theorem exists_accepted {run : StoreRun V τ} {y : Clock τ × StoreOp V τ} (hy : y ∈ run) {k : String} {T : Int}
    (hT : WritesAt y k T) :
    ∃ pre w post T', run = pre ++ w :: post ∧ Accepts (storeAfter pre) w k T' ∧ T ≤ T' := by
  obtain ⟨pre, post, rfl⟩ := List.append_of_mem hy
  by_cases ha : (storeAfter pre).Admits k T
  · exact ⟨pre, y, post, T, rfl, ⟨hT, ha⟩, le_refl _⟩
  · cases hs : (storeAfter pre).entry k with
    | none => exact absurd (LocalLWWStore.admits_of_none hs) ha
    | some e =>
      rw [LocalLWWStore.admits_iff_of_some hs, not_le] at ha
      obtain ⟨pre', w, post', rfl, hacc⟩ := entry_accepted pre hs
      exact ⟨pre', w, post' ++ y :: post, e.ts, by simp, hacc, le_of_lt ha⟩

/-- A set that reaches an evicted key is accepted, whatever was accepted before. -/
private theorem NoResurrection.set_not_older {run : StoreRun V τ} (h : NoResurrection run)
    {pre mid post : StoreRun V τ} {w : Clock τ × StoreOp V τ} {k : String} {T : Int}
    (hacc : Accepts (storeAfter pre) w k T) {c : Clock τ} {v : PyObj V} {ttl : Option τ} {ts : Option Int}
    (hrun : run = pre ++ w :: (mid ++ (c, .set k v ttl ts) :: post))
    (hnone : (storeAfter (pre ++ w :: mid)).entry k = none) : T ≤ ts.getD c.timeNs := by
  by_contra hlt
  have hrej := (h pre w mid _ k T hrun hacc).2 c v ttl ts post rfl (not_le.1 hlt)
  rw [LocalLWWStore.set_fst, decide_eq_false_iff_not] at hrej
  exact hrej (LocalLWWStore.admits_of_none hnone)

/-- A delete that reaches an evicted key leaves its tombstone, whatever was accepted before. -/
private theorem NoResurrection.delete_not_older {run : StoreRun V τ} (h : NoResurrection run)
    {pre mid post : StoreRun V τ} {w : Clock τ × StoreOp V τ} {k : String} {T : Int}
    (hacc : Accepts (storeAfter pre) w k T) {c : Clock τ} {ts : Option Int}
    (hrun : run = pre ++ w :: (mid ++ (c, .delete k ts) :: post))
    (hnone : (storeAfter (pre ++ w :: mid)).entry k = none) : T ≤ ts.getD c.timeNs := by
  have hs : storeAfter (pre ++ w :: (mid ++ [(c, .delete k ts)])) =
      storeStep (storeAfter (pre ++ w :: mid)) (c, .delete k ts) := by
    rw [← storeAfter_concat]
    simp
  have he : (storeAfter (pre ++ w :: (mid ++ [(c, .delete k ts)]))).entry k =
      some ⟨.tombstone, none, ts.getD c.timeNs⟩ := by
    rw [hs]
    show ((storeAfter (pre ++ w :: mid)).delete c k ts).2.entry k = _
    rw [LocalLWWStore.entry_delete, if_pos ⟨rfl, LocalLWWStore.admits_of_none hnone⟩]
  have hrun' : run = pre ++ w :: ((mid ++ [(c, .delete k ts)]) ++ post) := by rw [hrun]; simp
  refine (h pre w _ _ k T hrun' hacc).1 c ⟨none, ts.getD c.timeNs, true⟩ ?_
  rw [LocalLWWStore.getVersioned_eq, he]
  rfl

private theorem NoResurrection.noLateWrite {run : StoreRun V τ} (h : NoResurrection run) :
    NoLateWriteAfterEviction run := by
  intro pre x post k ts hrun hw hnone y hy T hT
  obtain ⟨pre₁, w, mid, T', rfl, hacc, hTT⟩ := exists_accepted hy hT
  have hrun' : run = pre₁ ++ w :: (mid ++ x :: post) := by rw [hrun]; simp
  obtain ⟨c, op⟩ := x
  refine le_trans hTT ?_
  obtain ⟨e, hwritten, -⟩ := id hw
  cases op with
  | set k' v ttl ts' =>
    obtain ⟨rfl, -⟩ := Option.ite_none_right_eq_some.1 hwritten
    rw [hw.unique (writesAt_set c k' v ttl ts')]
    exact h.set_not_older hacc hrun' hnone
  | delete k' ts' =>
    obtain ⟨rfl, -⟩ := Option.ite_none_right_eq_some.1 hwritten
    rw [hw.unique (writesAt_delete c k' ts')]
    exact h.delete_not_older hacc hrun' hnone
  | _ => cases hwritten

private theorem NoLateWriteAfterEviction.noResurrection {run : StoreRun V τ} (h : NoLateWriteAfterEviction run) :
    NoResurrection run := by
  intro pre w mid post k T hrun hacc
  have hfloor : Floor (pre ++ w :: mid) (storeAfter (pre ++ w :: mid)) := by
    apply floor_after
    have hpre : NoLateWriteAfterEviction ((pre ++ w :: mid) ++ post) := by
      rw [List.append_assoc, List.cons_append, ← hrun]
      exact h
    exact hpre.of_append
  have hmem : w ∈ pre ++ w :: mid := by simp
  refine ⟨?_, ?_⟩
  · intro c r hr
    rw [LocalLWWStore.getVersioned_fst, LocalLWWStore.report_eq_some_iff] at hr
    obtain ⟨e, he, -, rfl⟩ := hr
    rw [Entry.version_ts]
    exact hfloor k e he w hmem T hacc.1
  · intro c v ttl ts post' hpost hlt
    rw [LocalLWWStore.set_fst, decide_eq_false_iff_not]
    intro ha
    cases hs : (storeAfter (pre ++ w :: mid)).entry k with
    | none =>
      have hle := h (pre ++ w :: mid) (c, .set k v ttl ts) post' k (ts.getD c.timeNs)
        (by rw [hrun, hpost]; simp) (writesAt_set c k v ttl ts) hs w hmem T hacc.1
      omega
    | some e =>
      have h1 := hfloor k e hs w hmem T hacc.1
      have h2 := ha e hs
      omega

/-- A store never goes back behind a write it accepted exactly when no write that reaches an evicted key is older than
an earlier one. -/
theorem noResurrection_iff (run : StoreRun V τ) : NoResurrection run ↔ NoLateWriteAfterEviction run :=
  ⟨NoResurrection.noLateWrite, NoLateWriteAfterEviction.noResurrection⟩

end Run

/-- A delete, a newer set with a lifetime, a sweep after its expiry, and a set that is older than the delete. -/
def lateSetRun : StoreRun Nat Int :=
  [(⟨0, 5⟩, .delete "k" (some 5)), (⟨0, 6⟩, .set "k" (some 2) (some 1) (some 6)), (⟨2, 7⟩, .purgeExpired),
    (⟨3, 8⟩, .set "k" (some 1) none (some 3))]

/-- The late set of `lateSetRun` resurrects the deleted key. -/
theorem lateSetRun_resurrects :
    lateSetRun.ClockMonotone ∧ (∀ x ∈ lateSetRun, x.2.flushes = false) ∧ ¬ NoResurrection lateSetRun := by
  refine ⟨by unfold StoreRun.ClockMonotone; decide, by decide, ?_⟩
  intro h
  have hrej := (h [] (⟨0, 5⟩, .delete "k" (some 5))
    [(⟨0, 6⟩, .set "k" (some 2) (some 1) (some 6)), (⟨2, 7⟩, .purgeExpired)]
    [(⟨3, 8⟩, .set "k" (some 1) none (some 3))] "k" 5 rfl ⟨⟨_, rfl, rfl⟩, by decide⟩).2 _ _ _ _ _ rfl (by decide)
  exact absurd hrej (by decide)

end DLStorage
