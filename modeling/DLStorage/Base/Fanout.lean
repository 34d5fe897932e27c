import Mathlib.Logic.Function.Basic
import Mathlib.Data.List.Perm.Basic
import Mathlib.Data.List.Nodup

/-!
# Jobs on separate parts of a state

A state is a family of parts; a job reads and writes one part and either returns or raises.  Four ways to run a list
of jobs: one after the other, stopping at the first that raises (`comprehension`); one after the other with every
exception caught on the spot (`runEach`); the same, stopping at the first outcome that one looks for (`runUntil`); and
concurrently, each to its end, in an order the scheduler chooses, with the outcomes listed in the order of the jobs
(`gather`).  When no two jobs share a part, `runEach` and `gather` have
the same outcome whatever the order (`gather_eq`), and `comprehension` has it too exactly when no job raises.
-/

namespace Base

variable {ι S ε ρ : Type}

/-- A job on the part `loc` of the state. -/
structure Job (ι S ε ρ : Type) where
  loc : ι
  act : S → Except ε ρ × S

/-- What the scheduler does: it reorders the jobs. -/
structure Schedule (ι S ε ρ : Type) where
  order : List (Job ι S ε ρ) → List (Job ι S ε ρ)
  perm : ∀ jobs, (order jobs).Perm jobs

/-- The scheduler that keeps the order. -/
def Schedule.inOrder : Schedule ι S ε ρ := ⟨id, fun _ => List.Perm.refl _⟩

/-- No two jobs share a part. -/
def Separate (jobs : List (Job ι S ε ρ)) : Prop := (jobs.map Job.loc).Nodup

theorem Separate.tail {j : Job ι S ε ρ} {jobs : List (Job ι S ε ρ)} (h : Separate (j :: jobs)) : Separate jobs :=
  (List.nodup_cons.1 h).2

theorem Separate.ne_head {j : Job ι S ε ρ} {jobs : List (Job ι S ε ρ)} (h : Separate (j :: jobs))
    {j' : Job ι S ε ρ} (hj' : j' ∈ jobs) : j'.loc ≠ j.loc := by
  intro e
  exact (List.nodup_cons.1 h).1 (e ▸ List.mem_map_of_mem hj')

theorem Separate.perm {jobs jobs' : List (Job ι S ε ρ)} (h : Separate jobs) (hp : jobs.Perm jobs') :
    Separate jobs' :=
  (hp.map _).nodup_iff.1 h

variable [DecidableEq ι]

/-- The outcome of a job in a state. -/
def Job.outcome (st : ι → S) (j : Job ι S ε ρ) : Except ε ρ := (j.act (st j.loc)).1

/-- The state after one job. -/
def Job.perform (st : ι → S) (j : Job ι S ε ρ) : ι → S := Function.update st j.loc (j.act (st j.loc)).2

/-- Run the jobs in order and stop at the first that raises: `[job() for job in jobs]`. -/
def comprehension : List (Job ι S ε ρ) → (ι → S) → Except ε (List ρ) × (ι → S)
  | [], st => (.ok [], st)
  | j :: jobs, st =>
    match j.outcome st with
    | .error e => (.error e, j.perform st)
    | .ok r =>
      match comprehension jobs (j.perform st) with
      | (.error e, st') => (.error e, st')
      | (.ok rs, st') => (.ok (r :: rs), st')

/-- Run the jobs in order and keep every outcome: a loop with `try` around each job. -/
def runEach : List (Job ι S ε ρ) → (ι → S) → List (Except ε ρ) × (ι → S)
  | [], st => ([], st)
  | j :: jobs, st =>
    let (rs, st') := runEach jobs (j.perform st)
    (j.outcome st :: rs, st')

/-- `asyncio.gather(*jobs, return_exceptions=True)`. -/
def gather (sched : Schedule ι S ε ρ) (jobs : List (Job ι S ε ρ)) (st : ι → S) : List (Except ε ρ) × (ι → S) :=
  let order := sched.order jobs
  let (rs, st') := runEach order st
  -- the results stand in the order of `jobs`, not in that of the schedule
  (jobs.filterMap (fun j => ((order.map Job.loc).zip rs).lookup j.loc), st')

/-- Every part after the job on it, if there is one. -/
def settle (jobs : List (Job ι S ε ρ)) (st : ι → S) : ι → S :=
  fun i => ((jobs.find? (fun j => j.loc = i)).map (fun j => (j.act (st i)).2)).getD (st i)

@[simp] theorem perform_self (j : Job ι S ε ρ) (st : ι → S) : j.perform st j.loc = (j.act (st j.loc)).2 := by
  simp [Job.perform]

theorem perform_of_ne (j : Job ι S ε ρ) (st : ι → S) {i : ι} (h : i ≠ j.loc) : j.perform st i = st i := by
  simp [Job.perform, h]

/-- Another job of the list does not change the outcome of a job. -/
theorem Separate.outcome_perform {j : Job ι S ε ρ} {jobs : List (Job ι S ε ρ)} (h : Separate (j :: jobs))
    {j' : Job ι S ε ρ} (hj' : j' ∈ jobs) (st : ι → S) : j'.outcome (j.perform st) = j'.outcome st := by
  unfold Job.outcome
  rw [perform_of_ne j st (h.ne_head hj')]

theorem Separate.find_loc {jobs : List (Job ι S ε ρ)} (h : Separate jobs) {j : Job ι S ε ρ} (hj : j ∈ jobs) :
    jobs.find? (fun j' => j'.loc = j.loc) = some j := by
  induction jobs with
  | nil => cases hj
  | cons a jobs ih =>
    rw [List.find?_cons]
    rcases List.mem_cons.1 hj with rfl | hj
    · simp
    · rw [decide_eq_false (fun e => h.ne_head hj e.symm)]
      exact ih h.tail hj

theorem settle_of_mem {jobs : List (Job ι S ε ρ)} (h : Separate jobs) {j : Job ι S ε ρ} (hj : j ∈ jobs)
    (st : ι → S) : settle jobs st j.loc = (j.act (st j.loc)).2 := by
  unfold settle
  rw [h.find_loc hj]
  rfl

theorem settle_of_not_mem {jobs : List (Job ι S ε ρ)} {i : ι} (h : ∀ j ∈ jobs, j.loc ≠ i) (st : ι → S) :
    settle jobs st i = st i := by
  unfold settle
  rw [List.find?_eq_none.2 (by simpa using h)]
  rfl

theorem settle_perm {jobs jobs' : List (Job ι S ε ρ)} (h : Separate jobs) (hp : jobs.Perm jobs') (st : ι → S) :
    settle jobs st = settle jobs' st := by
  funext i
  by_cases hi : ∃ j ∈ jobs, j.loc = i
  · obtain ⟨j, hj, rfl⟩ := hi
    rw [settle_of_mem h hj, settle_of_mem (h.perm hp) (hp.mem_iff.1 hj)]
  · have hi' : ∀ j ∈ jobs, j.loc ≠ i := fun j hj e => hi ⟨j, hj, e⟩
    rw [settle_of_not_mem hi', settle_of_not_mem (fun j hj => hi' j (hp.mem_iff.2 hj))]

private theorem settle_cons {j : Job ι S ε ρ} {jobs : List (Job ι S ε ρ)} (h : Separate (j :: jobs)) (st : ι → S) :
    settle jobs (j.perform st) = settle (j :: jobs) st := by
  funext i
  by_cases hi : i = j.loc
  · subst hi
    rw [settle_of_mem h (List.mem_cons_self ..), settle_of_not_mem (fun j' hj' => h.ne_head hj'), perform_self]
  · by_cases hm : ∃ j' ∈ jobs, j'.loc = i
    · obtain ⟨j', hj', rfl⟩ := hm
      rw [settle_of_mem h.tail hj', settle_of_mem h (List.mem_cons_of_mem _ hj'), perform_of_ne j st hi]
    · have hm' : ∀ j' ∈ jobs, j'.loc ≠ i := fun j' hj' e => hm ⟨j', hj', e⟩
      rw [settle_of_not_mem hm', settle_of_not_mem, perform_of_ne j st hi]
      intro j' hj'
      rcases List.mem_cons.1 hj' with rfl | hj'
      · exact fun e => hi e.symm
      · exact hm' j' hj'

/-- The loop gives every job its outcome in the initial state. -/
theorem runEach_eq {jobs : List (Job ι S ε ρ)} (h : Separate jobs) (st : ι → S) :
    runEach jobs st = (jobs.map (Job.outcome st), settle jobs st) := by
  induction jobs generalizing st with
  | nil => rfl
  | cons j jobs ih =>
    unfold runEach
    rw [ih h.tail, settle_cons h, List.map_cons]
    simp only [Prod.mk.injEq, List.cons.injEq, true_and, and_true]
    exact List.map_congr_left (fun j' hj' => h.outcome_perform hj' st)

private theorem lookup_zip_outcome {jobs : List (Job ι S ε ρ)} (h : Separate jobs) (st : ι → S) {j : Job ι S ε ρ}
    (hj : j ∈ jobs) : ((jobs.map Job.loc).zip (jobs.map (Job.outcome st))).lookup j.loc = some (j.outcome st) := by
  induction jobs with
  | nil => cases hj
  | cons a jobs ih =>
    rw [List.map_cons, List.map_cons, List.zip_cons_cons, List.lookup_cons]
    rcases List.mem_cons.1 hj with rfl | hj
    · simp
    · rw [beq_false_of_ne (h.ne_head hj)]
      exact ih h.tail hj

private theorem filterMap_eq_map {α β : Type} {f : α → Option β} {g : α → β} {l : List α}
    (h : ∀ a ∈ l, f a = some (g a)) : l.filterMap f = l.map g := by
  induction l with
  | nil => rfl
  | cons a l ih =>
    rw [List.filterMap_cons_some (h a (List.mem_cons_self ..)), List.map_cons,
      ih (fun b hb => h b (List.mem_cons_of_mem _ hb))]

/-- Concurrent jobs on separate parts have the outcome of the loop, in whatever order they run. -/
theorem gather_eq (sched : Schedule ι S ε ρ) {jobs : List (Job ι S ε ρ)} (h : Separate jobs) (st : ι → S) :
    gather sched jobs st = (jobs.map (Job.outcome st), settle jobs st) := by
  have hp := sched.perm jobs
  have hs : Separate (sched.order jobs) := h.perm hp.symm
  unfold gather
  simp only [runEach_eq hs, Prod.mk.injEq]
  refine ⟨filterMap_eq_map ?_, settle_perm hs hp st⟩
  intro j hj
  exact lookup_zip_outcome hs st (hp.mem_iff.2 hj)

/-- A comprehension in which no job raises returns every result. -/
theorem comprehension_ok {jobs : List (Job ι S ε ρ)} (h : Separate jobs) {st : ι → S} {f : Job ι S ε ρ → ρ}
    (hok : ∀ j ∈ jobs, j.outcome st = .ok (f j)) :
    comprehension jobs st = (.ok (jobs.map f), settle jobs st) := by
  induction jobs generalizing st with
  | nil => rfl
  | cons j jobs ih =>
    have htail : ∀ j' ∈ jobs, j'.outcome (j.perform st) = .ok (f j') := by
      intro j' hj'
      rw [h.outcome_perform hj']
      exact hok j' (List.mem_cons_of_mem _ hj')
    unfold comprehension
    rw [hok j (List.mem_cons_self ..), ih h.tail htail, settle_cons h]
    rfl

/-- A comprehension in which a job raises raises. -/
theorem comprehension_error {jobs : List (Job ι S ε ρ)} (h : Separate jobs) {st : ι → S} {j : Job ι S ε ρ}
    (hj : j ∈ jobs) {e : ε} (he : j.outcome st = .error e) : ∃ e', (comprehension jobs st).1 = .error e' := by
  induction jobs generalizing st with
  | nil => cases hj
  | cons a jobs ih =>
    unfold comprehension
    rcases List.mem_cons.1 hj with rfl | hj
    · rw [he]
      exact ⟨e, rfl⟩
    · cases ha : a.outcome st with
      | error e' => exact ⟨e', rfl⟩
      | ok r =>
        obtain ⟨e', h'⟩ := ih h.tail hj (by rw [h.outcome_perform hj]; exact he)
        cases hc : comprehension jobs (a.perform st) with
        | mk out st' =>
          rw [hc] at h'
          cases h'
          exact ⟨e', rfl⟩

/-! ### One job for each of a list of parts -/

/-- The job `act i` on every part of the list. -/
def fan (act : ι → S → Except ε ρ × S) (locs : List ι) : List (Job ι S ε ρ) := locs.map (fun i => ⟨i, act i⟩)

omit [DecidableEq ι] in
theorem fan_separate {act : ι → S → Except ε ρ × S} {locs : List ι} (h : locs.Nodup) : Separate (fan act locs) := by
  unfold Separate fan
  rw [List.map_map]
  show (locs.map id).Nodup
  rwa [List.map_id]

omit [DecidableEq ι] in
theorem map_outcome_fan (act : ι → S → Except ε ρ × S) (locs : List ι) (st : ι → S) :
    (fan act locs).map (Job.outcome st) = locs.map (fun i => (act i (st i)).1) := by
  unfold fan
  rw [List.map_map]
  rfl

theorem settle_fan {act : ι → S → Except ε ρ × S} {locs : List ι} (h : locs.Nodup) (st : ι → S) :
    settle (fan act locs) st = fun i => if i ∈ locs then (act i (st i)).2 else st i := by
  funext i
  by_cases hi : i ∈ locs
  · rw [if_pos hi]
    exact settle_of_mem (j := ⟨i, act i⟩) (fan_separate h) (List.mem_map_of_mem hi) st
  · rw [if_neg hi]
    apply settle_of_not_mem
    intro j hj
    obtain ⟨i', hi', rfl⟩ := List.mem_map.1 hj
    exact fun e => hi (e ▸ hi')

theorem runEach_fan {act : ι → S → Except ε ρ × S} {locs : List ι} (h : locs.Nodup) (st : ι → S) :
    runEach (fan act locs) st =
      (locs.map (fun i => (act i (st i)).1), fun i => if i ∈ locs then (act i (st i)).2 else st i) := by
  rw [runEach_eq (fan_separate h), map_outcome_fan, settle_fan h]

theorem gather_fan (sched : Schedule ι S ε ρ) {act : ι → S → Except ε ρ × S} {locs : List ι} (h : locs.Nodup)
    (st : ι → S) : gather sched (fan act locs) st =
      (locs.map (fun i => (act i (st i)).1), fun i => if i ∈ locs then (act i (st i)).2 else st i) := by
  rw [gather_eq sched (fan_separate h), map_outcome_fan, settle_fan h]

theorem comprehension_fan_ok {act : ι → S → Except ε ρ × S} {locs : List ι} (h : locs.Nodup) {st : ι → S} {f : ι → ρ}
    (hok : ∀ i ∈ locs, (act i (st i)).1 = .ok (f i)) :
    comprehension (fan act locs) st =
      (.ok (locs.map f), fun i => if i ∈ locs then (act i (st i)).2 else st i) := by
  have hjobs : ∀ j ∈ fan act locs, j.outcome st = .ok (f j.loc) := by
    intro j hj
    obtain ⟨i, hi, rfl⟩ := List.mem_map.1 hj
    exact hok i hi
  rw [comprehension_ok (f := fun j => f j.loc) (fan_separate h) hjobs, settle_fan h]
  unfold fan
  rw [List.map_map]
  rfl

theorem comprehension_fan_error {act : ι → S → Except ε ρ × S} {locs : List ι} (h : locs.Nodup) {st : ι → S} {i : ι}
    (hi : i ∈ locs) {e : ε} (he : (act i (st i)).1 = .error e) :
    ∃ e', (comprehension (fan act locs) st).1 = .error e' :=
  comprehension_error (j := ⟨i, act i⟩) (fan_separate h) (List.mem_map_of_mem hi) he

private theorem perform_act (act : ι → S → Except ε ρ × S) (st : ι → S) (a i : ι) :
    Job.perform st ⟨a, act a⟩ i = if i = a then (act i (st i)).2 else st i := by
  by_cases hi : i = a
  · subst hi
    rw [if_pos rfl]
    exact perform_self ⟨i, act i⟩ st
  · rw [if_neg hi]
    exact perform_of_ne ⟨a, act a⟩ st hi

/-- A comprehension stops after the first job that raises. -/
theorem comprehension_fan_split {act : ι → S → Except ε ρ × S} {pre post : List ι} {i : ι}
    (h : (pre ++ i :: post).Nodup) {st : ι → S} (hok : ∀ i' ∈ pre, ∃ r, (act i' (st i')).1 = .ok r) {e : ε}
    (he : (act i (st i)).1 = .error e) :
    comprehension (fan act (pre ++ i :: post)) st =
      (.error e, fun i' => if i' ∈ pre ++ [i] then (act i' (st i')).2 else st i') := by
  induction pre generalizing st with
  | nil =>
    have houtcome : Job.outcome st ⟨i, act i⟩ = .error e := he
    show comprehension (⟨i, act i⟩ :: fan act post) st = _
    unfold comprehension
    simp only [houtcome, Prod.mk.injEq, true_and]
    funext i'
    rw [perform_act]
    simp
  | cons a pre ih =>
    obtain ⟨hnot, htail⟩ := List.nodup_cons.1 h
    obtain ⟨r, hr⟩ := hok a (List.mem_cons_self ..)
    have houtcome : Job.outcome st ⟨a, act a⟩ = .ok r := hr
    have hother : ∀ i' ∈ pre ++ i :: post, Job.perform st ⟨a, act a⟩ i' = st i' := by
      intro i' hi'
      rw [perform_act, if_neg]
      rintro rfl
      exact hnot hi'
    have hrest : comprehension (fan act (pre ++ i :: post)) (Job.perform st ⟨a, act a⟩) = (.error e, fun i' =>
        if i' ∈ pre ++ [i] then (act i' (Job.perform st ⟨a, act a⟩ i')).2 else Job.perform st ⟨a, act a⟩ i') := by
      refine ih htail ?_ ?_
      · intro i' hi'
        rw [hother i' (List.mem_append_left _ hi')]
        exact hok i' (List.mem_cons_of_mem _ hi')
      · rw [hother i (by simp)]
        exact he
    show comprehension (⟨a, act a⟩ :: fan act (pre ++ i :: post)) st = _
    unfold comprehension
    simp only [houtcome, hrest, Prod.mk.injEq, true_and]
    funext i'
    by_cases hi : i' = a
    · subst hi
      have hmem : i' ∉ pre ++ [i] := by
        intro hmem
        refine hnot ?_
        rcases List.mem_append.1 hmem with hmem | hmem
        · exact List.mem_append_left _ hmem
        · rw [List.mem_singleton.1 hmem]
          simp
      rw [if_neg hmem, perform_act, if_pos rfl]
      simp
    · rw [perform_act, if_neg hi]
      simp [hi]

/-! ### A loop that stops at the first hit -/

/-- The list up to the first element with `p`, which is included. -/
def through {α : Type} (p : α → Bool) : List α → List α
  | [] => []
  | a :: l => if p a then [a] else a :: through p l

theorem through_subset {α : Type} (p : α → Bool) {l : List α} {a : α} (h : a ∈ through p l) : a ∈ l := by
  induction l with
  | nil => cases h
  | cons b l ih =>
    unfold through at h
    split at h
    · rw [List.mem_singleton.1 h]
      exact List.mem_cons_self ..
    · rcases List.mem_cons.1 h with rfl | h
      · exact List.mem_cons_self ..
      · exact List.mem_cons_of_mem _ (ih h)

private theorem through_congr {α : Type} {p q : α → Bool} {l : List α} (h : ∀ a ∈ l, p a = q a) :
    through p l = through q l := by
  induction l with
  | nil => rfl
  | cons b l ih =>
    unfold through
    rw [h b (List.mem_cons_self ..), ih (fun a ha => h a (List.mem_cons_of_mem _ ha))]

private theorem findSome?_congr {α β : Type} {f g : α → Option β} {l : List α} (h : ∀ a ∈ l, f a = g a) :
    l.findSome? f = l.findSome? g := by
  induction l with
  | nil => rfl
  | cons b l ih =>
    rw [List.findSome?_cons, List.findSome?_cons, h b (List.mem_cons_self ..),
      ih (fun a ha => h a (List.mem_cons_of_mem _ ha))]

theorem through_of_none {α : Type} {p : α → Bool} {l : List α} (h : ∀ a ∈ l, p a = false) : through p l = l := by
  induction l with
  | nil => rfl
  | cons b l ih =>
    unfold through
    rw [h b (List.mem_cons_self ..), ih (fun a ha => h a (List.mem_cons_of_mem _ ha))]
    simp

theorem through_split {α : Type} {p : α → Bool} {pre post : List α} {a : α} (h : ∀ b ∈ pre, p b = false)
    (ha : p a = true) : through p (pre ++ a :: post) = pre ++ [a] := by
  induction pre with
  | nil =>
    show through p (a :: post) = [a]
    unfold through
    rw [if_pos ha]
  | cons b pre ih =>
    show through p (b :: (pre ++ a :: post)) = b :: (pre ++ [a])
    unfold through
    rw [h b (List.mem_cons_self ..), ih (fun c hc => h c (List.mem_cons_of_mem _ hc))]
    simp

/-- Run the jobs in order until `hit` takes the outcome of one; the others do not run. -/
def runUntil {β : Type} (hit : Except ε ρ → Option β) : List (Job ι S ε ρ) → (ι → S) → Option β × (ι → S)
  | [], st => (none, st)
  | j :: jobs, st =>
    match hit (j.outcome st) with
    | some b => (some b, j.perform st)
    | none => runUntil hit jobs (j.perform st)

/-- The loop comes to the first hit among the outcomes in the initial state, and runs the jobs up to it. -/
theorem runUntil_fan {β : Type} (hit : Except ε ρ → Option β) {act : ι → S → Except ε ρ × S} {locs : List ι}
    (h : locs.Nodup) (st : ι → S) :
    runUntil hit (fan act locs) st =
      (locs.findSome? (fun i => hit (act i (st i)).1),
        fun i => if i ∈ through (fun i => (hit (act i (st i)).1).isSome) locs then (act i (st i)).2 else st i) := by
  induction locs generalizing st with
  | nil => rfl
  | cons a locs ih =>
    obtain ⟨hnot, htail⟩ := List.nodup_cons.1 h
    have hother : ∀ i ∈ locs, Job.perform st ⟨a, act a⟩ i = st i := by
      intro i hi
      rw [perform_act, if_neg]
      rintro rfl
      exact hnot hi
    show runUntil hit (⟨a, act a⟩ :: fan act locs) st = _
    unfold runUntil through
    simp only [Job.outcome, List.findSome?_cons]
    cases ha : hit (act a (st a)).1 with
    | some b =>
      simp only [Option.isSome_some, if_true, Prod.mk.injEq, true_and]
      funext i
      rw [perform_act]
      simp
    | none =>
      simp only [Option.isSome_none, Bool.false_eq_true, if_false]
      rw [ih htail]
      have houtcome : ∀ i ∈ locs, hit (act i (Job.perform st ⟨a, act a⟩ i)).1 = hit (act i (st i)).1 := by
        intro i hi
        rw [hother i hi]
      have h1 := findSome?_congr houtcome
      have h2 := through_congr (fun i hi => congrArg Option.isSome (houtcome i hi))
      simp only [h1, h2, Prod.mk.injEq, true_and]
      funext i
      by_cases hi : i = a
      · subst hi
        have hmem : i ∉ through (fun i => (hit (act i (st i)).1).isSome) locs := fun hm => hnot (through_subset _ hm)
        rw [if_neg hmem, perform_act]
        simp
      · rw [perform_act, if_neg hi]
        simp [hi]

end Base
