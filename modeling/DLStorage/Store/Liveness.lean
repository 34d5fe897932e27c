import DLStorage.Store.Run

/-!
# One notion of liveness

`get_versioned` still reports a value at its expiry instant, while `keys`, `scan`, `scan_keys` and `len` do not list it
and `purge_expired` removes it; `flush_keys` counts whatever it deletes.  The store has one notion of liveness at a
reading of the clock exactly when no value expires at that very reading and `flush_keys` meets live keys only
(`oneLiveness_iff`).
-/

namespace DLStorage

variable {V τ : Type} [LinearOrder τ]

namespace Entry

variable {e : Entry V τ} {now : τ}

theorem listed_iff : e.listed now = true ↔ e.stored.isTombstone = false ∧ ∀ x, e.expiresAt = some x → now < x := by
  cases hx : e.expiresAt with
  | none => simp [listed, hx]
  | some x => simp [listed, hx]

theorem readExpired_eq_false_iff :
    e.readExpired now = false ↔ e.stored.isTombstone = true ∨ ∀ x, e.expiresAt = some x → now ≤ x := by
  cases hx : e.expiresAt with
  | none => simp [readExpired, hx]
  | some x =>
    cases ht : e.stored.isTombstone with
    | true => simp [readExpired, ht]
    | false => simp [readExpired, hx, ht]

theorem sweepable_eq_false_iff :
    e.sweepable now = false ↔ e.stored.isTombstone = true ∨ ∀ x, e.expiresAt = some x → now < x := by
  cases hx : e.expiresAt with
  | none => simp [sweepable, hx]
  | some x =>
    cases ht : e.stored.isTombstone with
    | true => simp [sweepable, ht]
    | false => simp [sweepable, hx, ht]

end Entry

namespace LocalLWWStore

variable (s : LocalLWWStore V τ) (c : Clock τ) (p : String)

/-- `get_versioned` reports a value. -/
def Live (k : String) : Prop := ∃ r, (s.getVersioned c k).1 = some r ∧ r.isTombstone = false

/-- Every operation takes the same keys for live, with pattern `p` where it has one. -/
structure OneLiveness : Prop where
  keys : ∀ k, s.Live c k ↔ k ∈ s.keys c
  scanKeys : ∀ k, isIn p k = true → (s.Live c k ↔ k ∈ s.scanKeys c p)
  scan : ∀ k, isIn p k = true → ∀ v, (k, v) ∈ s.scan c p ↔ ∃ ts, (s.getVersioned c k).1 = some ⟨v, ts, false⟩
  purgeExpired : ∀ k, s.Live c k → ((s.purgeExpired c).2.entry k).isSome = true
  len : s.len c = {k | s.Live c k}.ncard
  flushKeys : (s.flushKeys p).1 = (s.scanKeys c p).length

/-- No value expires at this very reading. -/
def NoneExpiringNow : Prop :=
  ∀ k e, s.entry k = some e → e.stored.isTombstone = false → e.expiresAt ≠ some c.monotonic

/-- What lies under the keys that contain `p` is neither a tombstone nor expired. -/
def AllAlive : Prop :=
  ∀ k e, isIn p k = true → s.entry k = some e →
    e.stored.isTombstone = false ∧ ∀ x, e.expiresAt = some x → c.monotonic < x

variable {s} {c} {p} {k : String}

theorem live_iff : s.Live c k ↔
    ∃ e, s.entry k = some e ∧ e.stored.isTombstone = false ∧ ∀ x, e.expiresAt = some x → c.monotonic ≤ x := by
  constructor
  · rintro ⟨r, hr, htomb⟩
    rw [getVersioned_fst, report_eq_some_iff] at hr
    obtain ⟨e, he, hexp, rfl⟩ := hr
    rw [Entry.version_isTombstone] at htomb
    rw [Entry.readExpired_eq_false_iff, htomb] at hexp
    exact ⟨e, he, htomb, hexp.resolve_left (by simp)⟩
  · rintro ⟨e, he, htomb, hexp⟩
    refine ⟨e.version, ?_, by rw [Entry.version_isTombstone, htomb]⟩
    rw [getVersioned_fst, report_eq_some_iff]
    exact ⟨e, he, Entry.readExpired_eq_false_iff.2 (Or.inr hexp), rfl⟩

theorem mem_keys : k ∈ s.keys c ↔ ∃ e, s.entry k = some e ∧ e.listed c.monotonic = true := by
  simp [keys, entry, Base.Dict.mem_items_iff]

theorem mem_scanKeys :
    k ∈ s.scanKeys c p ↔ isIn p k = true ∧ ∃ e, s.entry k = some e ∧ e.listed c.monotonic = true := by
  simp only [scanKeys, List.mem_map, List.mem_filter, Bool.and_eq_true, Prod.exists, exists_and_right, exists_eq_right,
    Base.Dict.mem_items_iff]
  constructor
  · rintro ⟨e, he, hin, hlisted⟩
    exact ⟨hin, e, he, hlisted⟩
  · rintro ⟨hin, e, he, hlisted⟩
    exact ⟨e, he, hin, hlisted⟩

theorem mem_scan {v : PyObj V} : (k, v) ∈ s.scan c p ↔
    isIn p k = true ∧ ∃ e, s.entry k = some e ∧ e.listed c.monotonic = true ∧ e.version.value = v := by
  simp only [scan, List.mem_map, List.mem_filter, Bool.and_eq_true, Prod.exists, Prod.mk.injEq,
    Base.Dict.mem_items_iff]
  constructor
  · rintro ⟨k', e, ⟨he, hin, hlisted⟩, rfl, hv⟩
    exact ⟨hin, e, he, hlisted, hv⟩
  · rintro ⟨hin, e, he, hlisted, hv⟩
    exact ⟨k, e, ⟨he, hin, hlisted⟩, rfl, hv⟩

private theorem keys_nodup : (s.keys c).Nodup := by
  have hsub : (s.keys c).Sublist (s.data.items.map Prod.fst) := List.filter_sublist.map _
  exact s.data.nodup.sublist hsub

/-- Where no value expires right now, an entry that is reported is listed. -/
private theorem listed_of_live (h : s.NoneExpiringNow c) {e : Entry V τ} (he : s.entry k = some e)
    (htomb : e.stored.isTombstone = false) (hexp : ∀ x, e.expiresAt = some x → c.monotonic ≤ x) :
    e.listed c.monotonic = true := by
  rw [Entry.listed_iff]
  refine ⟨htomb, fun x hx => lt_of_le_of_ne (hexp x hx) ?_⟩
  rintro rfl
  exact h k e he htomb hx

private theorem live_iff_listed (h : s.NoneExpiringNow c) :
    s.Live c k ↔ ∃ e, s.entry k = some e ∧ e.listed c.monotonic = true := by
  rw [live_iff]
  constructor
  · rintro ⟨e, he, htomb, hexp⟩
    exact ⟨e, he, listed_of_live h he htomb hexp⟩
  · rintro ⟨e, he, hlisted⟩
    obtain ⟨htomb, hexp⟩ := Entry.listed_iff.1 hlisted
    exact ⟨e, he, htomb, fun x hx => le_of_lt (hexp x hx)⟩

/-- `flush_keys` counts the entries that `scan_keys` lists exactly when it meets live ones only. -/
private theorem flushKeys_iff : (s.flushKeys p).1 = (s.scanKeys c p).length ↔ s.AllAlive c p := by
  have hflush : (s.flushKeys p).1 = (s.data.items.filter fun q => isIn p q.1).length := List.length_map _
  have hscan : (s.scanKeys c p).length =
      ((s.data.items.filter fun q => isIn p q.1).filter fun q => q.2.listed c.monotonic).length := by
    rw [List.filter_filter]
    simp only [scanKeys, List.length_map, Bool.and_comm]
  rw [hflush, hscan, eq_comm, List.length_filter_eq_length_iff]
  constructor
  · intro hall k e hin he
    have hmem : (k, e) ∈ s.data.items.filter fun q => isIn p q.1 :=
      List.mem_filter.2 ⟨(Base.Dict.mem_items_iff _).2 he, hin⟩
    exact Entry.listed_iff.1 (hall (k, e) hmem)
  · rintro halive ⟨k, e⟩ hmem
    obtain ⟨hitem, hin⟩ := List.mem_filter.1 hmem
    exact Entry.listed_iff.2 (halive k e hin ((Base.Dict.mem_items_iff _).1 hitem))

/-- The store has one notion of liveness, with pattern `p`, exactly when no value expires at this very reading and only
live keys contain `p`. -/
theorem oneLiveness_iff (s : LocalLWWStore V τ) (c : Clock τ) (p : String) :
    s.OneLiveness c p ↔ s.NoneExpiringNow c ∧ s.AllAlive c p := by
  constructor
  · intro h
    refine ⟨?_, flushKeys_iff.1 h.flushKeys⟩
    intro k e he htomb hnow
    -- at its expiry instant the value is reported, but not listed
    have hlive : s.Live c k := live_iff.2 ⟨e, he, htomb, fun x hx => le_of_eq (Option.some.inj (hnow.symm.trans hx))⟩
    obtain ⟨e', he', hlisted⟩ := mem_keys.1 ((h.keys k).1 hlive)
    obtain rfl := Option.some.inj (he.symm.trans he')
    exact lt_irrefl _ ((Entry.listed_iff.1 hlisted).2 _ hnow)
  · rintro ⟨hnow, halive⟩
    have hkeys : ∀ k, s.Live c k ↔ k ∈ s.keys c := fun k => (live_iff_listed hnow).trans mem_keys.symm
    refine ⟨hkeys, ?_, ?_, ?_, ?_, flushKeys_iff.2 halive⟩
    · intro k hin
      rw [mem_scanKeys, live_iff_listed hnow]
      exact ⟨fun h => ⟨hin, h⟩, fun h => h.2⟩
    · intro k hin v
      rw [mem_scan, getVersioned_fst]
      constructor
      · rintro ⟨-, e, he, hlisted, rfl⟩
        obtain ⟨htomb, hexp⟩ := Entry.listed_iff.1 hlisted
        refine ⟨e.ts, report_eq_some_iff.2 ⟨e, he, ?_, ?_⟩⟩
        · exact Entry.readExpired_eq_false_iff.2 (Or.inr fun x hx => le_of_lt (hexp x hx))
        · rw [← htomb, ← Entry.version_isTombstone, ← Entry.version_ts]
      · rintro ⟨ts, hreport⟩
        obtain ⟨e, he, hexp, hversion⟩ := report_eq_some_iff.1 hreport
        have htomb : e.stored.isTombstone = false := by rw [← Entry.version_isTombstone, hversion]
        refine ⟨hin, e, he, listed_of_live hnow he htomb ?_, by rw [hversion]⟩
        exact (Entry.readExpired_eq_false_iff.1 hexp).resolve_left (by simp [htomb])
    · intro k hlive
      obtain ⟨e, he, hlisted⟩ := (live_iff_listed hnow).1 hlive
      have hstays : e.sweepable c.monotonic = false :=
        Entry.sweepable_eq_false_iff.2 (Or.inr (Entry.listed_iff.1 hlisted).2)
      rw [entry_purgeExpired, he, Option.filter_some_pos (by simp [hstays])]
      rfl
    · have hset : {k | s.Live c k} = ↑(s.keys c).toFinset := by
        ext k
        simp [hkeys k]
      rw [hset, Set.ncard_coe_finset, List.toFinset_card_of_nodup keys_nodup, len]

end LocalLWWStore

/-- A value with a lifetime of 3 from the reading 1 on, and a tombstone. -/
def mortalRun : StoreRun Nat Int := [(⟨1, 5⟩, .set "key" (some 1) (some 3) none), (⟨2, 6⟩, .delete "gone" none)]

/-- At the expiry instant of the value `keys` does not list what `get_versioned` reports, and `flush_keys` counts a
tombstone that `scan_keys` does not list. -/
theorem mortalRun_two_notions :
    ¬ (storeAfter mortalRun).OneLiveness ⟨4, 7⟩ "key" ∧ ¬ (storeAfter mortalRun).OneLiveness ⟨3, 7⟩ "gone" := by
  refine ⟨fun h => ?_, fun h => ?_⟩
  · have hlive : (storeAfter mortalRun).Live ⟨4, 7⟩ "key" := ⟨⟨some 1, 5, false⟩, by decide, rfl⟩
    have hkeys : (storeAfter mortalRun).keys ⟨4, 7⟩ = [] := by decide
    have hmem := (h.keys "key").1 hlive
    rw [hkeys] at hmem
    cases hmem
  · have hcount := h.flushKeys
    have hflush : ((storeAfter mortalRun).flushKeys "gone").1 = 1 := by decide
    have hscan : (storeAfter mortalRun).scanKeys ⟨3, 7⟩ "gone" = [] := by decide
    rw [hflush, hscan] at hcount
    cases hcount

end DLStorage
