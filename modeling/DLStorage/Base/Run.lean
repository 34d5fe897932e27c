import Mathlib.Data.List.Induction

/-!
# Runs of a state machine

A run is a list of events; `after step init run` is the state it leads to.  `after_invariant` is the induction over
runs: a statement about the history and the state reached that holds at the start and is preserved by every step that
satisfies a condition holds after every run whose steps all satisfy it; `after_keeps` is the case of an invariant of the
state that every step preserves.  `after_becomes` finds the step that made a
statement true, `tally` counts steps, and `Never` says that no continuation has a step of a kind.
-/

namespace Base

variable {σ ε : Type} (step : σ → ε → σ) (init : σ)

/-- The state after a run. -/
def after (run : List ε) : σ := run.foldl step init

variable {step init}

@[simp] theorem after_nil : after step init [] = init := rfl

theorem after_concat (run : List ε) (e : ε) :
    after step init (run ++ [e]) = step (after step init run) e := by
  simp [after]

theorem after_append (run run' : List ε) :
    after step init (run ++ run') = after step (after step init run) run' :=
  List.foldl_append

/-- An event of a longer run is the last one or comes before it. -/
theorem split_concat {run pre post : List ε} {e e' : ε} (h : run ++ [e] = pre ++ e' :: post) :
    (post = [] ∧ run = pre ∧ e = e') ∨ ∃ post', post = post' ++ [e] ∧ run = pre ++ e' :: post' := by
  rcases List.eq_nil_or_concat post with rfl | ⟨post', e'', rfl⟩
  · obtain ⟨hpre, he⟩ := List.append_inj' h rfl
    exact Or.inl ⟨rfl, hpre, List.singleton_inj.1 he⟩
  · have hsplit : run ++ [e] = (pre ++ e' :: post') ++ [e''] := by simpa using h
    obtain ⟨hrun, he⟩ := List.append_inj' hsplit rfl
    obtain rfl := List.singleton_inj.1 he
    exact Or.inr ⟨post', by simp, hrun⟩

theorem after_invariant {P : List ε → σ → Prop} {C : List ε → ε → Prop} (h0 : P [] init)
    (hstep : ∀ pre e, C pre e → P pre (after step init pre) → P (pre ++ [e]) (step (after step init pre) e))
    {run : List ε} (hC : ∀ pre e post, run = pre ++ e :: post → C pre e) : P run (after step init run) := by
  induction run using List.reverseRecOn with
  | nil => exact h0
  | append_singleton run e ih =>
    rw [after_concat]
    apply hstep run e (hC run e [] rfl)
    exact ih (fun pre e' post h => hC pre e' (post ++ [e]) (by rw [h]; simp))

/-- The case of a statement about the state alone that every step preserves. -/
theorem after_keeps {P : σ → Prop} (hinit : P init) (hstep : ∀ s e, P s → P (step s e)) (run : List ε) :
    P (after step init run) :=
  after_invariant (P := fun _ s => P s) (C := fun _ _ => True) hinit (fun _ e _ hs => hstep _ e hs)
    (fun _ _ _ _ => trivial)

/-- Where a statement fails after one run and holds after a longer one, some event in between made it true. -/
theorem after_becomes {Q : σ → Prop} {pre run : List ε} (hpre : ¬ Q (after step init pre))
    (hrun : Q (after step init (pre ++ run))) :
    ∃ mid e post, run = mid ++ e :: post ∧ ¬ Q (after step init (pre ++ mid)) ∧
      Q (step (after step init (pre ++ mid)) e) := by
  induction run using List.reverseRecOn with
  | nil => exact absurd (by simpa using hrun) hpre
  | append_singleton run e ih =>
    -- either the statement held already before the last event, or this one made it true
    by_cases hlast : Q (after step init (pre ++ run))
    · obtain ⟨mid, e', post, rfl, h⟩ := ih hlast
      exact ⟨mid, e', post ++ [e], by simp, h⟩
    · rw [← List.append_assoc, after_concat] at hrun
      exact ⟨run, e, [], rfl, hlast, hrun⟩

/-- How many events of a run are counted, each in the state that it finds. -/
def tally (step : σ → ε → σ) (counts : σ → ε → Bool) (init : σ) : List ε → Nat
  | [] => 0
  | e :: run => (counts init e).toNat + tally step counts (step init e) run

theorem tally_concat (counts : σ → ε → Bool) (run : List ε) (e : ε) :
    tally step counts init (run ++ [e]) = tally step counts init run + (counts (after step init run) e).toNat := by
  induction run generalizing init with
  | nil => simp [tally]
  | cons e' run ih =>
    have hafter : after step init (e' :: run) = after step (step init e') run := rfl
    rw [List.cons_append, tally, tally, ih, hafter]
    omega

/-- A statement about the events of a run and what comes before each, position by position. -/
theorem forall_splits {run : List ε} {C : List ε → ε → Prop}
    (h : ∀ i, (hi : i < run.length) → C (run.take i) (run.get ⟨i, hi⟩)) {pre post : List ε} {e : ε}
    (hrun : run = pre ++ e :: post) : C pre e := by
  subst hrun
  simpa using h pre.length (by simp)

/-- No step of a kind comes after a state, however the run goes on. -/
def Never (step : σ → ε → σ) (bad : σ → ε → Prop) (init : σ) : Prop := ∀ run e, ¬ bad (after step init run) e

namespace Never

variable {bad : σ → ε → Prop}

/-- The rule for it: a statement that every step preserves and that excludes the kind of step. -/
theorem of_invariant {P : σ → Prop} (hinit : P init) (hstep : ∀ s e, P s → P (step s e))
    (hbad : ∀ s e, P s → ¬ bad s e) : Never step bad init := by
  intro run e
  exact hbad _ e (after_keeps hinit hstep run)

theorem now (h : Never step bad init) (e : ε) : ¬ bad init e := h [] e

theorem next (h : Never step bad init) (e : ε) : Never step bad (step init e) := fun run e' => h (e :: run) e'

end Never

end Base
