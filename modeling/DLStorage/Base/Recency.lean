import DLStorage.Base.Run

/-!
# What was put last

The steps of a machine put things into a list that the state holds.  `Latest` says which thing of a list was put last.
When every step either puts one new thing at the front or only takes things out, the list is in the order in which its
things were put, and its head is the latest (`latest_iff_head`).
-/

namespace Base

variable {σ ε α : Type} (step : σ → ε → σ) (puts : σ → ε → α → Prop) (init : σ)

/-- Of the things in `l`, `x` was put last. -/
def Latest (run : List ε) (l : List α) (x : α) : Prop :=
  x ∈ l ∧ ∃ pre e post, run = pre ++ e :: post ∧ puts (after step init pre) e x ∧
    ∀ y ∈ l, y ≠ x → ∀ mid e' rest, post = mid ++ e' :: rest → ¬ puts (after step init (pre ++ e :: mid)) e' y

/-- Whenever `y` was put, `x` was put afterwards. -/
def PutAfter (run : List ε) (x y : α) : Prop :=
  ∀ pre e post, run = pre ++ e :: post → puts (after step init pre) e y →
    ∃ mid e' rest, post = mid ++ e' :: rest ∧ puts (after step init (pre ++ e :: mid)) e' x

def WasPut (run : List ε) (x : α) : Prop := ∃ pre e post, run = pre ++ e :: post ∧ puts (after step init pre) e x

/-- A step puts one new thing at the front, or puts nothing that is held and takes things out only. -/
def PutsInFront (held : σ → List α) : Prop :=
  ∀ run e,
    (∃ x, (∀ y, puts (after step init run) e y ↔ y = x) ∧ x ∉ held (after step init run) ∧
      held (step (after step init run) e) = x :: held (after step init run)) ∨
    ((∀ y, ¬ puts (after step init run) e y) ∧
      (held (step (after step init run) e)).Sublist (held (after step init run)))

variable {step puts init}

private theorem PutAfter.concat {run : List ε} {e : ε} {x y : α} (h : PutAfter step puts init run x y)
    (hy : ¬ puts (after step init run) e y) : PutAfter step puts init (run ++ [e]) x y := by
  intro pre e' post hrun hput
  rcases split_concat hrun with ⟨-, rfl, rfl⟩ | ⟨post', rfl, hrun'⟩
  · exact absurd hput hy
  · obtain ⟨mid, e'', rest, rfl, hx⟩ := h pre e' post' hrun' hput
    exact ⟨mid, e'', rest ++ [e], by simp, hx⟩

/-- What is put now is put after everything else. -/
private theorem putAfter_of_puts {run : List ε} {e : ε} {x y : α} (hx : puts (after step init run) e x)
    (hy : ¬ puts (after step init run) e y) : PutAfter step puts init (run ++ [e]) x y := by
  intro pre e' post hrun hput
  rcases split_concat hrun with ⟨-, rfl, rfl⟩ | ⟨post', rfl, rfl⟩
  · exact absurd hput hy
  · exact ⟨post', e, [], rfl, hx⟩

private theorem WasPut.concat {run : List ε} {x : α} (h : WasPut step puts init run x) (e : ε) :
    WasPut step puts init (run ++ [e]) x := by
  obtain ⟨pre, e', post, rfl, hx⟩ := h
  exact ⟨pre, e', post ++ [e], by simp, hx⟩

/-- What was put was put one last time. -/
private theorem WasPut.last {run : List ε} {x : α} (h : WasPut step puts init run x) :
    ∃ pre e post, run = pre ++ e :: post ∧ puts (after step init pre) e x ∧
      ∀ mid e' rest, post = mid ++ e' :: rest → ¬ puts (after step init (pre ++ e :: mid)) e' x := by
  induction run using List.reverseRecOn with
  | nil =>
    obtain ⟨pre, e, post, hrun, -⟩ := h
    simp at hrun
  | append_singleton run e ih =>
    by_cases hnow : puts (after step init run) e x
    · exact ⟨run, e, [], rfl, hnow, fun mid e' rest hmid => by simp at hmid⟩
    · obtain ⟨pre, e', post, hrun, hx⟩ := h
      rcases split_concat hrun with ⟨-, rfl, rfl⟩ | ⟨post', rfl, rfl⟩
      · exact absurd hx hnow
      · obtain ⟨pre', e'', post'', hrun', hput, hlast⟩ := ih ⟨pre, e', post', rfl, hx⟩
        refine ⟨pre', e'', post'' ++ [e], by rw [hrun']; simp, hput, ?_⟩
        intro mid d rest hmid
        rcases split_concat hmid with ⟨-, rfl, rfl⟩ | ⟨rest', -, hmid'⟩
        · rw [← hrun']
          exact hnow
        · exact hlast mid d rest' hmid'

/-- The list is in the order in which its things were put, the latest first. -/
structure InOrder (step : σ → ε → σ) (puts : σ → ε → α → Prop) (init : σ) (run : List ε) (l : List α) : Prop where
  nodup : l.Nodup
  wasPut : ∀ x ∈ l, WasPut step puts init run x
  later : l.Pairwise (PutAfter step puts init run)

theorem InOrder.sublist {run : List ε} {l l' : List α} (h : InOrder step puts init run l)
    (hsub : l'.Sublist l) : InOrder step puts init run l' where
  nodup := h.nodup.sublist hsub
  wasPut x hx := h.wasPut x (hsub.subset hx)
  later := h.later.sublist hsub

private theorem InOrder.concat {run : List ε} {e : ε} {l : List α} (h : InOrder step puts init run l)
    (hnone : ∀ y ∈ l, ¬ puts (after step init run) e y) : InOrder step puts init (run ++ [e]) l where
  nodup := h.nodup
  wasPut x hx := (h.wasPut x hx).concat e
  later := h.later.imp_of_mem fun _ hy hxy => hxy.concat (hnone _ hy)

theorem PutsInFront.inOrder {held : σ → List α} (h : PutsInFront step puts init held) (hinit : held init = [])
    (run : List ε) : InOrder step puts init run (held (after step init run)) := by
  induction run using List.reverseRecOn with
  | nil =>
    rw [after_nil, hinit]
    exact ⟨List.nodup_nil, by simp, List.Pairwise.nil⟩
  | append_singleton run e ih =>
    rw [after_concat]
    rcases h run e with ⟨x, hx, hnew, hheld⟩ | ⟨hnone, hsub⟩
    · have hothers : ∀ y ∈ held (after step init run), ¬ puts (after step init run) e y := by
        intro y hy hput
        rw [hx] at hput
        exact hnew (hput ▸ hy)
      have hbefore := ih.concat hothers
      rw [hheld]
      refine ⟨List.nodup_cons.2 ⟨hnew, hbefore.nodup⟩, ?_, List.pairwise_cons.2 ⟨?_, hbefore.later⟩⟩
      · intro y hy
        rcases List.mem_cons.1 hy with rfl | hy
        · exact ⟨run, e, [], rfl, (hx y).2 rfl⟩
        · exact hbefore.wasPut y hy
      · intro y hy
        exact putAfter_of_puts ((hx x).2 rfl) (hothers y hy)
    · exact (ih.concat fun y _ => hnone y).sublist hsub

/-- In a list in this order the head, and nothing else, is the latest. -/
theorem InOrder.latest_iff_head {run : List ε} {l : List α} (h : InOrder step puts init run l) {x : α} :
    Latest step puts init run l x ↔ l.head? = some x := by
  cases l with
  | nil => simp [Latest]
  | cons y l =>
    obtain ⟨hhead, -⟩ := List.pairwise_cons.1 h.later
    rw [List.head?_cons, Option.some.injEq]
    constructor
    · rintro ⟨hx, pre, e, post, hrun, hput, hlast⟩
      rcases List.mem_cons.1 hx with rfl | hx
      · rfl
      · by_contra hne
        -- the head was put after the last time that `x` was
        obtain ⟨mid, e', rest, hpost, hput'⟩ := hhead x hx pre e post hrun hput
        exact hlast y List.mem_cons_self hne mid e' rest hpost hput'
    · rintro rfl
      obtain ⟨pre, e, post, hrun, hput, hlast⟩ := (h.wasPut y List.mem_cons_self).last
      refine ⟨List.mem_cons_self, pre, e, post, hrun, hput, ?_⟩
      rintro z hz hne mid e' rest rfl hputz
      have hzl : z ∈ l := (List.mem_cons.1 hz).resolve_left hne
      have hrun' : run = (pre ++ e :: mid) ++ e' :: rest := by rw [hrun]; simp
      obtain ⟨mid', e'', rest', rfl, hagain⟩ := hhead z hzl _ _ _ hrun' hputz
      refine hlast (mid ++ e' :: mid') e'' rest' (by simp) ?_
      simpa using hagain

end Base
