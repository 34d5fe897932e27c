import DLStorage.Store.Basic

/-!
# The versioned store refines the plain store

Of a `LocalLWWStore` a plain store sees the values and their expiry instants, and no tombstones.  Every call of the
common interface that the versioned store does not reject keeps this relation (`Refines.step`) and returns the same
(`Refines.same`), but for the count of `flush_keys`, which includes tombstones.  Along a run whose timestamps never
decrease nothing is rejected, since every entry got its timestamp from an earlier call.
-/

namespace DLStorage

open Base (after_concat after_invariant Dict)

variable {V τ : Type}

/-- What a plain store sees of an entry. -/
def Entry.plain (e : Entry V τ) : Option (PyObj V × Option τ) :=
  match e.stored with
  | .tombstone => none
  | .value v => some (v, e.expiresAt)

/-- The plain store holds what it sees of the versioned one. -/
def LocalLWWStore.Refines (s : LocalLWWStore V τ) (p : LocalStore V τ) : Prop :=
  ∀ k, p.entry k = (s.entry k).bind Entry.plain

/-- The same result, lists compared up to order. -/
def StoreResult.Same : StoreResult V → StoreResult V → Prop
  | keys ks, keys ks' => ks.Perm ks'
  | items kvs, items kvs' => kvs.Perm kvs'
  | r, r' => r = r'

/-- Tests that agree on values pick the same, whatever they say of tombstones. -/
private theorem filter_bind_plain {t : Entry V τ → Bool} {t' : PyObj V × Option τ → Bool}
    (hvalue : ∀ v exp ts, t ⟨.value v, exp, ts⟩ = t' (v, exp)) (o : Option (Entry V τ)) :
    (o.bind Entry.plain).filter t' = (o.filter t).bind Entry.plain := by
  cases o with
  | none => rfl
  | some e =>
    obtain ⟨_ | v, exp, ts⟩ := e
    · rw [Option.filter_some]
      split <;> rfl
    · have hplain : (some (⟨.value v, exp, ts⟩ : Entry V τ)).bind Entry.plain = some (v, exp) := rfl
      rw [hplain, Option.filter_some, Option.filter_some, hvalue]
      split <;> rfl

variable [LinearOrder τ]

namespace LocalLWWStore.Refines

variable {s : LocalLWWStore V τ} {p : LocalStore V τ} (h : s.Refines p) (c : Clock τ)

include h

/-! ### Results -/

theorem get_fst (k : String) : (s.get c k).1 = (p.get c k).1 := by
  have hseen : (p.entry k).filter (fun q => !q.2.any (fun x => decide (x < c.monotonic))) =
      ((s.entry k).filter (fun e => !e.readExpired c.monotonic)).bind Entry.plain := by
    rw [h k]
    exact filter_bind_plain (fun _ _ _ => rfl) (s.entry k)
  rw [LocalStore.get_fst, hseen, LocalLWWStore.get_fst, report]
  cases (s.entry k).filter (fun e => !e.readExpired c.monotonic) with
  | none => rfl
  | some e =>
    obtain ⟨_ | v, exp, ts⟩ := e
    · rfl
    · rfl

omit [LinearOrder τ] in
theorem delete_fst (k : String) (ts : Option Int) : (s.delete c k ts).1 = (p.delete k).1 := by
  rw [delete_eq, LocalStore.delete, h k]
  cases s.entry k with
  | none => rfl
  | some e =>
    obtain ⟨_ | v, exp, ts⟩ := e
    · rfl
    · rfl

omit [LinearOrder τ] in
/-- Selections that leave tombstones out and agree on values are the same in some order. -/
private theorem select_perm {β : Type} {t : String × Entry V τ → Bool} {t' : String × PyObj V × Option τ → Bool}
    {g : String × Entry V τ → β} {g' : String × PyObj V × Option τ → β}
    (htombstone : ∀ k exp ts, t (k, ⟨.tombstone, exp, ts⟩) = false)
    (hvalue : ∀ k v exp ts, t (k, ⟨.value v, exp, ts⟩) = t' (k, v, exp))
    (hresult : ∀ k v exp ts, g (k, ⟨.value v, exp, ts⟩) = g' (k, v, exp)) :
    ((s.data.items.filter t).map g).Perm ((p.data.items.filter t').map g') := by
  refine Dict.select_perm h ?_
  rintro k ⟨_ | v, exp, ts⟩
  · rw [htombstone]
    rfl
  · simp only [Entry.plain, Option.map_some, Option.filter_some, hvalue, hresult, apply_ite (Option.map _),
      Option.map_none]

theorem keys_perm : (s.keys c).Perm (p.keys c) :=
  h.select_perm (fun _ _ _ => rfl) (fun _ _ _ _ => rfl) (fun _ _ _ _ => rfl)

theorem scan_perm (pattern : String) : (s.scan c pattern).Perm (p.scan c pattern) := by
  apply h.select_perm
  · intro k exp ts
    exact Bool.and_false _
  · exact fun _ _ _ _ => rfl
  · exact fun _ _ _ _ => rfl

theorem scanKeys_perm (pattern : String) : (s.scanKeys c pattern).Perm (p.scanKeys c pattern) := by
  apply h.select_perm
  · intro k exp ts
    exact Bool.and_false _
  · exact fun _ _ _ _ => rfl
  · exact fun _ _ _ _ => rfl

theorem purgeExpired_fst : (s.purgeExpired c).1 = (p.purgeExpired c).1 := by
  have hperm : ((s.data.items.filter (fun q => q.2.sweepable c.monotonic)).map Prod.fst).Perm
      ((p.data.items.filter (fun q => LocalStore.sweepable c.monotonic q.2)).map Prod.fst) :=
    h.select_perm (fun _ _ _ => rfl) (fun _ _ _ _ => rfl) (fun _ _ _ _ => rfl)
  exact hperm.length_eq

variable [Add τ]

/-- A call that is not rejected returns the same on both stores. -/
theorem same {call : PlainCall V τ} (ha : ∀ k t, WritesAt (c, call.versioned) k t → s.Admits k t)
    (hflush : call.isFlushKeys = false) : StoreResult.Same (call.versioned.apply c s).1 (call.apply c p).1 := by
  cases call with
  | set k v ttl ts =>
    have hset : (s.set c k v ttl ts).1 = true := by
      rw [set_fst, decide_eq_true (ha k _ (writesAt_set c k v ttl ts))]
    exact congrArg StoreResult.bool hset
  | get k => exact congrArg StoreResult.obj (h.get_fst c k)
  | delete k ts => exact congrArg StoreResult.bool (h.delete_fst c k ts)
  | «exists» k =>
    have hexists : (s.exists c k).1 = (p.exists c k).1 := congrArg Option.isSome (h.get_fst c k)
    exact congrArg StoreResult.bool hexists
  | keys => exact h.keys_perm c
  | scan pattern => exact h.scan_perm c pattern
  | scanKeys pattern => exact h.scanKeys_perm c pattern
  | flushAll => rfl
  | flushKeys pattern => cases hflush
  | clear => rfl
  | purgeExpired => exact congrArg StoreResult.count (h.purgeExpired_fst c)
  | len => exact congrArg StoreResult.count (h.keys_perm c).length_eq

/-! ### States -/

omit [Add τ] in
private theorem getVersioned (k : String) : (s.getVersioned c k).2.Refines (p.get c k).2 := by
  intro x
  rw [LocalStore.entry_get, entry_getVersioned]
  by_cases hx : x = k
  · rw [if_pos hx, if_pos hx, h k]
    exact filter_bind_plain (fun _ _ _ => rfl) (s.entry k)
  · rw [if_neg hx, if_neg hx, h x]

omit [LinearOrder τ] [Add τ] in
/-- An admitted entry, and what a plain store sees of it, are put under the same key. -/
private theorem write {s' : LocalLWWStore V τ} {p' : LocalStore V τ} {k : String} {t : Int} {e : Entry V τ}
    (ha : s.Admits k t) (hs : ∀ x, s'.entry x = if x = k ∧ s.Admits k t then some e else s.entry x)
    (hp : ∀ x, p'.entry x = if x = k then e.plain else p.entry x) : s'.Refines p' := by
  intro x
  rw [hs, hp]
  by_cases hx : x = k
  · rw [if_pos hx, if_pos ⟨hx, ha⟩]
    rfl
  · rw [if_neg hx, if_neg (fun hk => hx hk.1), h x]

/-- A call that is not rejected keeps the stores related. -/
theorem step {call : PlainCall V τ} (ha : ∀ k t, WritesAt (c, call.versioned) k t → s.Admits k t) :
    (call.versioned.apply c s).2.Refines (call.apply c p).2 := by
  cases call with
  | set k v ttl ts =>
    exact h.write (ha k _ (writesAt_set c k v ttl ts)) (fun x => entry_set s c k x v ttl ts)
      (fun x => LocalStore.entry_set p c k x v ttl)
  | delete k ts =>
    exact h.write (ha k _ (writesAt_delete c k ts)) (fun x => entry_delete s c k x ts)
      (fun x => LocalStore.entry_delete p k x)
  | get k =>
    show (s.get c k).2.Refines (p.get c k).2
    rw [get_snd]
    exact h.getVersioned c k
  | «exists» k =>
    show (s.exists c k).2.Refines (p.get c k).2
    rw [exists_snd]
    exact h.getVersioned c k
  | purgeExpired =>
    intro x
    show (p.purgeExpired c).2.entry x = ((s.purgeExpired c).2.entry x).bind Entry.plain
    rw [LocalStore.entry_purgeExpired, entry_purgeExpired, h x]
    exact filter_bind_plain (fun _ _ _ => rfl) (s.entry x)
  | flushKeys pattern =>
    intro x
    show (p.flushKeys pattern).2.entry x = ((s.flushKeys pattern).2.entry x).bind Entry.plain
    rw [LocalStore.entry_flushKeys, entry_flushKeys, h x]
    exact filter_bind_plain (fun _ _ _ => rfl) (s.entry x)
  | flushAll => exact fun x => rfl
  | clear => exact fun x => rfl
  | keys => exact h
  | scan pattern => exact h
  | scanKeys pattern => exact h
  | len => exact h

end LocalLWWStore.Refines

/-! ### Runs -/

variable [Add τ]

omit [LinearOrder τ] in
private theorem stamp_of_writesAt {x : Clock τ × PlainCall V τ} {k : String} {t : Int}
    (h : WritesAt (x.1, x.2.versioned) k t) : t ∈ x.2.stamp x.1 := by
  obtain ⟨c, call⟩ := x
  obtain ⟨e, he, rfl⟩ := h
  cases call with
  | set k' v ttl ts =>
    obtain rfl := Option.some.inj (Option.ite_none_right_eq_some.1 he).2
    rfl
  | delete k' ts =>
    obtain rfl := Option.some.inj (Option.ite_none_right_eq_some.1 he).2
    rfl
  | _ => cases he

/-- Along a run whose timestamps never decrease no call is rejected. -/
private theorem admits_of_stampsMonotone {pre post : PlainRun V τ} {x : Clock τ × PlainCall V τ}
    (h : PlainRun.StampsMonotone (pre ++ x :: post)) {k : String} {t : Int} (hx : WritesAt (x.1, x.2.versioned) k t) :
    (storeAfter (PlainRun.versioned pre)).Admits k t := by
  intro e he
  -- the entry got its timestamp from an earlier call
  obtain ⟨pre', w, post', hrun, hw, -⟩ := entry_accepted _ he
  have hmem : w ∈ PlainRun.versioned pre := by rw [hrun]; simp
  obtain ⟨y, hy, rfl⟩ := List.mem_map.1 hmem
  have hle := (List.pairwise_append.1 h).2.2 y hy x List.mem_cons_self
  exact hle e.ts (stamp_of_writesAt hw) t (stamp_of_writesAt hx)

theorem refines_after {run : PlainRun V τ} (h : run.StampsMonotone) :
    (storeAfter run.versioned).Refines (plainAfter run) := by
  refine after_invariant (P := fun pre p => (storeAfter (PlainRun.versioned pre)).Refines p)
    (C := fun pre x => ∀ k t, WritesAt (x.1, x.2.versioned) k t → (storeAfter (PlainRun.versioned pre)).Admits k t)
    (fun x => rfl) ?_ ?_
  · intro pre x ha hrefines
    have hversioned : PlainRun.versioned (pre ++ [x]) = PlainRun.versioned pre ++ [(x.1, x.2.versioned)] :=
      List.map_append
    rw [hversioned, storeAfter_concat]
    exact hrefines.step x.1 ha
  · rintro pre x post rfl k t hx
    exact admits_of_stampsMonotone h hx

/-- Every call of the run returns the same on a versioned store and on a plain one, lists compared up to order, except
for the count that `flush_keys` returns. -/
def PlainRun.SameResults (run : PlainRun V τ) : Prop :=
  ∀ pre x post, run = pre ++ x :: post → x.2.isFlushKeys = false →
    StoreResult.Same (x.2.versioned.apply x.1 (storeAfter (PlainRun.versioned pre))).1
      (x.2.apply x.1 (plainAfter pre)).1

/-- Where the timestamps never decrease, the versioned store refines the plain one. -/
theorem versioned_refines_plain (run : PlainRun V τ) (h : run.StampsMonotone) : run.SameResults := by
  rintro pre x post rfl hflush
  have hpre : PlainRun.StampsMonotone pre := (List.pairwise_append.1 h).1
  exact (refines_after hpre).same x.1 (fun k t hx => admits_of_stampsMonotone h hx) hflush

/-- A value that expires and is deleted, set again at the same timestamp and flushed. -/
def mirrorRun : PlainRun Nat Int :=
  [(⟨1, 5⟩, .set "k" (some 1) (some 3) none), (⟨5, 6⟩, .delete "k" none), (⟨5, 7⟩, .set "k" none none (some 6)),
    (⟨6, 8⟩, .scan ""), (⟨7, 9⟩, .flushKeys "k"), (⟨8, 9⟩, .len)]

theorem mirrorRun_same : mirrorRun.SameResults :=
  versioned_refines_plain mirrorRun (by unfold PlainRun.StampsMonotone; decide)

end DLStorage
