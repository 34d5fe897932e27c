import DLStorage.Store.Lww
import DLStorage.Base.Newest
import DLStorage.Base.Run

/-!
# Replicated writes

A set or a delete as it travels to the replicas, with the timestamp its issuer gave it.  A store that is given writes
without a lifetime holds for every key the last of the writes of greatest timestamp (`entry_replay`), so the store is
a family of registers of the abstract kind `Base.latest`.  Two stores that are given the same writes in different
orders therefore agree exactly when ties at the top are ties between identical writes (`replicas_agree_iff`).
-/

namespace DLStorage

open Base (after after_concat latest TopAgree)

inductive Write (V τ : Type)
  | set (key : String) (value : PyObj V) (ttl : Option τ) (ts : Int)
  | delete (key : String) (ts : Int)
  deriving DecidableEq

variable {V τ : Type}

namespace Write

def key : Write V τ → String
  | set k _ _ _ => k
  | delete k _ => k

def ts : Write V τ → Int
  | set _ _ _ t => t
  | delete _ t => t

def ttl : Write V τ → Option τ
  | set _ _ l _ => l
  | delete _ _ => none

def stored : Write V τ → Stored V
  | set _ v _ _ => .value v
  | delete _ _ => .tombstone

/-- The value that a write carries: `None` for a delete. -/
def carried : Write V τ → PyObj V
  | set _ v _ _ => v
  | delete _ _ => none

/-- The entry that a write leaves when it is admitted. -/
def entry [Add τ] (c : Clock τ) (w : Write V τ) : Entry V τ := ⟨w.stored, w.ttl.map (c.monotonic + ·), w.ts⟩

/-- The version that a store reports of a write while it is not expired. -/
def version (w : Write V τ) : Versioned V := ⟨w.carried, w.ts, w.stored.isTombstone⟩

/-- Hand the write to a store. -/
def apply [Add τ] (c : Clock τ) (s : LocalLWWStore V τ) : Write V τ → Bool × LocalLWWStore V τ
  | set k v ttl ts => s.set c k v ttl (some ts)
  | delete k ts => s.delete c k (some ts)

@[simp] theorem version_ts (w : Write V τ) : w.version.ts = w.ts := rfl

theorem entry_version [Add τ] (c : Clock τ) (w : Write V τ) : (w.entry c).version = w.version := by
  cases w <;> rfl

theorem entry_apply [Add τ] (w : Write V τ) (c : Clock τ) (s : LocalLWWStore V τ) (x : String) :
    (w.apply c s).2.entry x =
      if x = w.key ∧ s.Admits w.key w.ts then some (w.entry c) else s.entry x := by
  cases w with
  | set k v ttl ts => exact s.entry_set c k x v ttl (some ts)
  | delete k ts => exact s.entry_delete c k x (some ts)

/-- The version of a permanent write determines the write, given its key. -/
theorem version_inj {w w' : Write V τ} (hk : w.key = w'.key) (hp : w.ttl = none) (hp' : w'.ttl = none)
    (h : w.version = w'.version) : w = w' := by
  cases w <;> cases w' <;> simp_all [key, ttl, version, carried, ts, stored, Stored.isTombstone]

end Write

/-- Writes as they reach a store, with the clock readings taken there. -/
abbrev Deliveries (V τ : Type) := List (Clock τ × Write V τ)

/-- The writes on `k`. -/
def Deliveries.on (d : Deliveries V τ) (k : String) : List (Write V τ) :=
  (d.map Prod.snd).filter (fun w => w.key = k)

theorem Deliveries.mem_on {d : Deliveries V τ} {k : String} {w : Write V τ} :
    w ∈ d.on k ↔ (∃ c, (c, w) ∈ d) ∧ w.key = k := by
  simp [Deliveries.on]

theorem Deliveries.on_concat (d : Deliveries V τ) (x : Clock τ × Write V τ) (k : String) :
    Deliveries.on (d ++ [x]) k = if x.2.key = k then d.on k ++ [x.2] else d.on k := by
  unfold Deliveries.on
  rw [List.map_append, List.filter_append]
  by_cases h : x.2.key = k <;> simp [h]

/-- No write of the list has a lifetime. -/
def Deliveries.Permanent (d : Deliveries V τ) : Prop := ∀ x ∈ d, x.2.ttl = none

/-- The writes of the list, in the given order, with arbitrary readings. -/
def Deliveries.Orders (d : Deliveries V τ) (ws : List (Write V τ)) : Prop := (d.map Prod.snd).Perm ws

private theorem on_perm {d : Deliveries V τ} {ws : List (Write V τ)} (h : d.Orders ws) (k : String) :
    (d.on k).Perm (ws.filter (fun w => w.key = k)) :=
  List.Perm.filter _ h

private theorem permanent_of_orders {d : Deliveries V τ} {ws : List (Write V τ)} (h : d.Orders ws)
    (hws : ∀ w ∈ ws, w.ttl = none) : d.Permanent := by
  intro x hx
  exact hws x.2 (h.mem_iff.1 (List.mem_map_of_mem hx))

/-- Every order of the writes on `k` extends to an order of all writes. -/
private theorem exists_orders [Inhabited τ] {ws l : List (Write V τ)} {k : String}
    (h : (ws.filter (fun w => w.key = k)).Perm l) : ∃ d : Deliveries V τ, d.Orders ws ∧ d.on k = l := by
  have hkeys : ∀ w ∈ l, w.key = k := by
    intro w hw
    simpa using (List.mem_filter.1 (h.mem_iff.2 hw)).2
  refine ⟨(l ++ ws.filter (fun w => !decide (w.key = k))).map (fun w => (⟨default, 0⟩, w)), ?_, ?_⟩
  · unfold Deliveries.Orders
    rw [List.map_map]
    show ((l ++ ws.filter (fun w => !decide (w.key = k))).map id).Perm ws
    rw [List.map_id]
    exact (h.symm.append_right _).trans (List.filter_append_perm _ ws)
  · unfold Deliveries.on
    rw [List.map_map]
    show ((l ++ ws.filter (fun w => !decide (w.key = k))).map id).filter (fun w => decide (w.key = k)) = l
    rw [List.map_id, List.filter_append, List.filter_filter, List.filter_eq_self.2 (by simpa using hkeys)]
    simp

private theorem latest_eq_of_report_eq {l l' : List (Write V τ)} {k : String}
    (h : (latest Write.ts l).map Write.version = (latest Write.ts l').map Write.version)
    (hl : ∀ w ∈ l, w.key = k ∧ w.ttl = none) (hl' : ∀ w ∈ l', w.key = k ∧ w.ttl = none) :
    latest Write.ts l = latest Write.ts l' := by
  cases hw : latest Write.ts l with
  | none => rw [hw] at h; exact (Option.map_eq_none_iff.1 h.symm).symm
  | some w =>
    cases hw' : latest Write.ts l' with
    | none => rw [hw, hw'] at h; cases h
    | some w' =>
      rw [hw, hw'] at h
      obtain ⟨hk, hp⟩ := hl w (Base.best_mem hw)
      obtain ⟨hk', hp'⟩ := hl' w' (Base.best_mem hw')
      rw [Write.version_inj (hk.trans hk'.symm) hp hp' (Option.some.inj h)]

section Replay

variable [Add τ]

/-- The store that is given the writes in this order, from a new store on. -/
def replay (d : Deliveries V τ) : LocalLWWStore V τ :=
  after (fun s x => (x.2.apply x.1 s).2) LocalLWWStore.empty d

theorem replay_concat (d : Deliveries V τ) (x : Clock τ × Write V τ) :
    replay (d ++ [x]) = (x.2.apply x.1 (replay d)).2 :=
  after_concat d x

/-- A store that is given permanent writes holds the last of the newest. -/
theorem entry_replay {d : Deliveries V τ} (hd : d.Permanent) (k : String) :
    (replay d).entry k = (latest Write.ts (d.on k)).map (fun w => ⟨w.stored, none, w.ts⟩) := by
  induction d using List.reverseRecOn with
  | nil => rfl
  | append_singleton d x ih =>
    have ih' := ih (fun y hy => hd y (by simp [hy]))
    have hx : x.2.ttl = none := hd x (by simp)
    have hentry : x.2.entry x.1 = ⟨x.2.stored, none, x.2.ts⟩ := by
      rw [Write.entry, hx]; rfl
    rw [replay_concat, Write.entry_apply, Deliveries.on_concat, hentry]
    by_cases hk : x.2.key = k
    · subst hk
      rw [if_pos rfl]
      cases hl : latest Write.ts (Deliveries.on d x.2.key) with
      | none =>
        have hnone : (replay d).entry x.2.key = none := by rw [ih', hl]; rfl
        rw [if_pos ⟨rfl, LocalLWWStore.admits_of_none hnone⟩, Base.latest_concat_of_none hl]
        rfl
      | some b =>
        have hsome : (replay d).entry x.2.key = some ⟨b.stored, none, b.ts⟩ := by rw [ih', hl]; rfl
        rw [Base.latest_concat_of_some hl]
        by_cases hle : b.ts ≤ x.2.ts
        · rw [if_pos ⟨rfl, (LocalLWWStore.admits_iff_of_some hsome).2 hle⟩, if_pos hle]
          rfl
        · rw [if_neg (fun h => hle ((LocalLWWStore.admits_iff_of_some hsome).1 h.2)), if_neg hle]
          exact hsome
    · rw [if_neg hk, if_neg (fun h => hk h.1.symm)]
      exact ih'

variable [LinearOrder τ]

theorem report_replay {d : Deliveries V τ} (hd : d.Permanent) (now : τ) (k : String) :
    (replay d).report now k = (latest Write.ts (d.on k)).map Write.version := by
  rw [LocalLWWStore.report, entry_replay hd]
  cases latest Write.ts (d.on k) with
  | none => rfl
  | some w => cases w <;> rfl

/-! ### Agreement of two replicas -/

/-- Two replicas that apply the same permanent writes in any two orders report the same version of every key exactly
when the newest writes on each key are all the same write. -/
theorem replicas_agree_iff [Inhabited τ] (ws : List (Write V τ)) (hws : ∀ w ∈ ws, w.ttl = none) :
    (∀ d d' : Deliveries V τ, d.Orders ws → d'.Orders ws → ∀ k c c',
      ((replay d).getVersioned c k).1 = ((replay d').getVersioned c' k).1) ↔
    ∀ k, TopAgree Write.ts (ws.filter (fun w => w.key = k)) := by
  constructor
  · intro h k
    rw [← Base.latest_perm_iff]
    intro l l' hl hl'
    obtain ⟨d, hd, rfl⟩ := exists_orders hl
    obtain ⟨d', hd', rfl⟩ := exists_orders hl'
    have hrep := h d d' hd hd' k ⟨default, 0⟩ ⟨default, 0⟩
    rw [LocalLWWStore.getVersioned_fst, LocalLWWStore.getVersioned_fst,
      report_replay (permanent_of_orders hd hws), report_replay (permanent_of_orders hd' hws)] at hrep
    have hon : ∀ d : Deliveries V τ, d.Orders ws → ∀ w ∈ d.on k, w.key = k ∧ w.ttl = none := by
      intro d hd w hw
      obtain ⟨⟨c, hc⟩, hk⟩ := Deliveries.mem_on.1 hw
      exact ⟨hk, permanent_of_orders hd hws _ hc⟩
    exact latest_eq_of_report_eq hrep (hon d hd) (hon d' hd')
  · intro h d d' hd hd' k c c'
    rw [LocalLWWStore.getVersioned_fst, LocalLWWStore.getVersioned_fst,
      report_replay (permanent_of_orders hd hws), report_replay (permanent_of_orders hd' hws),
      ← (h k).latest_perm (on_perm hd k).symm, ← (h k).latest_perm (on_perm hd' k).symm]

end Replay

/-- A set and a newer delete as they reach one replica, and another one in reverse. -/
def setThenDelete : Deliveries Nat Int := [(⟨0, 0⟩, .set "k" (some 1) none 5), (⟨1, 0⟩, .delete "k" 6)]

@[inherit_doc setThenDelete]
def deleteThenSet : Deliveries Nat Int := [(⟨0, 0⟩, .delete "k" 6), (⟨3, 0⟩, .set "k" (some 1) none 5)]

/-- Both replicas report the tombstone. -/
theorem replicas_agree_set_delete :
    ((replay setThenDelete).getVersioned ⟨2, 0⟩ "k").1 = ((replay deleteThenSet).getVersioned ⟨4, 0⟩ "k").1 := by
  refine (replicas_agree_iff [.set "k" (some 1) none 5, .delete "k" 6] (by simp [Write.ttl])).2 ?_
    setThenDelete deleteThenSet (List.Perm.refl _) (List.Perm.swap _ _ _) _ _ _
  intro k x hx y hy _ hxy
  have hx := (List.mem_filter.1 hx).1
  have hy := (List.mem_filter.1 hy).1
  simp only [List.mem_cons, List.not_mem_nil, or_false] at hx hy
  rcases hx with rfl | rfl <;> rcases hy with rfl | rfl <;> simp_all [Write.ts]

/-- Two sets of one key with the same timestamp, in both orders. -/
def tiedSets : Deliveries Nat Int := [(⟨0, 0⟩, .set "k" (some 1) none 5), (⟨1, 0⟩, .set "k" (some 2) none 5)]

@[inherit_doc tiedSets]
def tiedSetsReversed : Deliveries Nat Int :=
  [(⟨0, 0⟩, .set "k" (some 2) none 5), (⟨1, 0⟩, .set "k" (some 1) none 5)]

/-- Each replica keeps the set that reached it last. -/
theorem tied_sets_disagree :
    (tiedSets.map Prod.snd).Perm (tiedSetsReversed.map Prod.snd) ∧ tiedSets.Permanent ∧
      ((replay tiedSets).getVersioned ⟨2, 0⟩ "k").1 ≠ ((replay tiedSetsReversed).getVersioned ⟨2, 0⟩ "k").1 := by
  refine ⟨List.Perm.swap _ _ _, ?_, by decide⟩
  unfold Deliveries.Permanent
  decide

end DLStorage
