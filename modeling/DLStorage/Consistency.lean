import DLStorage.Node.Handle
import DLStorage.Base.Newest

/-!
# Last-write-wins resolution of reads

`LWW.read_resolve` asks every handle for its version of a key and returns the value of the version with the greatest
timestamp.  A handle that raises counts as one that has no version.  The fold over the versions is the library's
`Base.leading`, started at timestamp `-1` (`resolve_eq`).  Both resolvers ask every handle once, so on handles for
different nodes they resolve the versions that the stores hold when the read begins (`LWW.readResolve_eq`,
`AsyncLWW.readResolve_eq`).
-/

namespace DLStorage

open Base (Schedule runEach gather leading fan)

variable {V τ : Type}

/-- `best_value, best_ts, best_tombstone` before the first version. -/
def Versioned.initial : Versioned V := ⟨none, -1, false⟩

/-- The loop over the results. -/
def bestOf (results : List (Option (Versioned V))) : Versioned V :=
  results.foldl (fun best r =>
    match r with
    | none => best
    | some r => if r.ts > best.ts then r else best) .initial

/-- The value chosen from the results. -/
def resolve (results : List (Option (Versioned V))) : PyObj V :=
  let best := bestOf results
  if best.ts < 0 || best.isTombstone then none else best.value

/-- The version that an outcome counts as: none when the handle raised. -/
def outcomeVersion : Except PyError (Option (Versioned V)) → Option (Versioned V)
  | .error _ => none
  | .ok r => r

/-- Ask a handle for its version. -/
def versionJob (key : String) (h : ReplicaHandle V τ) : StoreJob V τ (Option (Versioned V)) :=
  ⟨h.node, h.getVersioned key⟩

/-- A call with its exceptions caught: the inner coroutine of the async resolver. -/
def guarded (call : StoreCall V τ (Option (Versioned V))) : StoreCall V τ (Option (Versioned V)) := fun s =>
  let (r, s') := call s
  (.ok (outcomeVersion r), s')

@[inherit_doc versionJob]
def guardedVersionJob (key : String) (h : ReplicaHandle V τ) : StoreJob V τ (Option (Versioned V)) :=
  ⟨h.node, guarded (h.getVersioned key)⟩

def LWW.readResolve (key : String) (handles : List (ReplicaHandle V τ)) (stores : Stores V τ) :
    PyObj V × Stores V τ :=
  let (outcomes, stores') := runEach (handles.map (versionJob key)) stores
  (resolve (outcomes.map outcomeVersion), stores')

def AsyncLWW.readResolve (sched : Schedule NodeInfo (LocalLWWStore V τ) PyError (Option (Versioned V))) (key : String)
    (handles : List (ReplicaHandle V τ)) (stores : Stores V τ) : PyObj V × Stores V τ :=
  let (outcomes, stores') := gather sched (handles.map (guardedVersionJob key)) stores
  (resolve (outcomes.map outcomeVersion), stores')

/-- The loop keeps the first of the versions of greatest timestamp, counting its initial triple as a version. -/
theorem leading_bestOf (results : List (Option (Versioned V))) :
    leading Versioned.ts (.initial :: results.filterMap id) = some (bestOf results) := by
  have h : ∀ b : Versioned V, (results.filterMap id).foldl (Base.replace (fun b x => b.ts < x.ts)) (some b) =
      some (results.foldl (fun best r =>
        match r with
        | none => best
        | some r => if r.ts > best.ts then r else best) b) := by
    induction results with
    | nil => intro b; rfl
    | cons r results ih =>
      intro b
      cases r with
      | none => exact ih b
      | some r =>
        show (results.filterMap id).foldl _ (if b.ts < r.ts then some r else some b) = _
        by_cases hlt : b.ts < r.ts <;> simp only [hlt, if_true, if_false, List.foldl_cons, gt_iff_lt] <;> exact ih _
  exact h .initial

/-- A version that the loop keeps is the first of the versions of greatest timestamp. -/
theorem bestOf_eq_iff {results : List (Option (Versioned V))} {m : Versioned V} (hm : 0 ≤ m.ts) :
    bestOf results = m ↔ leading Versioned.ts (results.filterMap id) = some m := by
  have hinit : (Versioned.initial : Versioned V).ts < m.ts := by
    show (-1 : Int) < m.ts
    omega
  have hbest := leading_bestOf results
  rw [Base.leading_eq_some_iff]
  constructor
  · rintro rfl
    obtain ⟨pre, post, hsplit, hpre, hpost⟩ := Base.leading_eq_some_iff.1 hbest
    cases pre with
    | nil =>
      rw [← (List.cons.inj hsplit).1] at hinit
      exact absurd hinit (lt_irrefl _)
    | cons x pre => exact ⟨pre, post, (List.cons.inj hsplit).2, fun y hy => hpre y (List.mem_cons_of_mem _ hy), hpost⟩
  · rintro ⟨pre, post, hsplit, hpre, hpost⟩
    have hlead : leading Versioned.ts (.initial :: results.filterMap id) = some m := by
      refine Base.leading_eq_some_iff.2 ⟨.initial :: pre, post, by rw [hsplit]; rfl, ?_, hpost⟩
      intro x hx
      rcases List.mem_cons.1 hx with rfl | hx
      · exact hinit
      · exact hpre x hx
    exact Option.some.inj (hbest.symm.trans hlead)

/-- A version among the results that is newest, and the only one of its timestamp, decides the read. -/
theorem resolve_eq {results : List (Option (Versioned V))} {m : Versioned V} (hm : some m ∈ results)
    (hpos : 0 ≤ m.ts) (hmax : ∀ r, some r ∈ results → r.ts ≤ m.ts)
    (huniq : ∀ r, some r ∈ results → r.ts = m.ts → r = m) : resolve results = visible (some m) := by
  have hinit : ∀ r : Versioned V, r ∈ Versioned.initial :: results.filterMap id →
      r = .initial ∨ some r ∈ results := by
    intro r hr
    rcases List.mem_cons.1 hr with rfl | hr
    · exact Or.inl rfl
    · exact Or.inr (by simpa using hr)
  have hbest : leading Versioned.ts (.initial :: results.filterMap id) = some m := by
    refine Base.leading_of_max (List.mem_cons_of_mem _ (by simpa using hm)) ?_ ?_
    · intro r hr
      rcases hinit r hr with rfl | hr
      · show (-1 : Int) ≤ m.ts
        omega
      · exact hmax r hr
    · intro r hr hts
      rcases hinit r hr with rfl | hr
      · have : (-1 : Int) = m.ts := hts
        omega
      · exact huniq r hr hts
  rw [leading_bestOf] at hbest
  unfold resolve visible
  rw [Option.some.inj hbest]
  have hneg : ¬ m.ts < 0 := not_lt.2 hpos
  cases m.isTombstone <;> simp [hneg]

/-- Without a version among the results the read returns `None`. -/
theorem resolve_none {results : List (Option (Versioned V))} (h : ∀ r, some r ∉ results) : resolve results = none := by
  have hnil : results.filterMap id = [] := by
    rw [List.filterMap_eq_nil_iff]
    intro r hr
    cases r with
    | none => rfl
    | some r => exact absurd hr (h r)
  have hbest := leading_bestOf results
  rw [hnil] at hbest
  have e : bestOf results = .initial := (Option.some.inj hbest).symm
  unfold resolve
  rw [e]
  rfl

/-! ### The resolvers on one handle for each of several nodes -/

section Handles

variable {act : NodeInfo → ReplicaHandle V τ} (hact : ∀ n, (act n).node = n) {nodes : List NodeInfo}
  (hnodes : nodes.Nodup) (key : String) (stores : Stores V τ)

include hact

include hnodes

theorem LWW.readResolve_eq :
    LWW.readResolve key (nodes.map act) stores =
      (resolve (nodes.map (fun n => outcomeVersion ((act n).getVersioned key (stores n)).1)),
        fun n => if n ∈ nodes then ((act n).getVersioned key (stores n)).2 else stores n) := by
  unfold LWW.readResolve
  rw [show (nodes.map act).map (versionJob key) = fan (fun n => (act n).getVersioned key) nodes from
    jobs_eq_fan (fun h => h.getVersioned key) hact nodes, Base.runEach_fan hnodes]
  simp only [List.map_map]
  rfl

theorem AsyncLWW.readResolve_eq (sched : Schedule NodeInfo (LocalLWWStore V τ) PyError (Option (Versioned V))) :
    AsyncLWW.readResolve sched key (nodes.map act) stores =
      (resolve (nodes.map (fun n => outcomeVersion ((act n).getVersioned key (stores n)).1)),
        fun n => if n ∈ nodes then ((act n).getVersioned key (stores n)).2 else stores n) := by
  unfold AsyncLWW.readResolve
  rw [show (nodes.map act).map (guardedVersionJob key) = fan (fun n => guarded ((act n).getVersioned key)) nodes from
    jobs_eq_fan (fun h => guarded (h.getVersioned key)) hact nodes, Base.gather_fan sched hnodes]
  simp only [List.map_map]
  rfl

end Handles

end DLStorage
