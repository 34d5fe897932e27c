import Mathlib

/-!
# Selecting an element by a replacement rule

`best r l` runs through `l` and replaces the element kept so far by the next one whenever `r` says so.  For the rules
that compare stamps this is the last (`latest`) or the first (`leading`) of the elements of greatest stamp.  The
selected element is described by the split of the list it stands in (`best_eq_some_iff`), and `latest` forgets the
order of the list exactly when its elements of greatest stamp are all equal (`latest_perm_iff`).
-/

namespace Base

variable {α : Type}

/-- One step of the selection: `x` replaces the element kept so far when `r` says so. -/
def replace (r : α → α → Prop) [DecidableRel r] : Option α → α → Option α
  | none, x => some x
  | some b, x => if r b x then some x else some b

/-- The element kept at the end of the list. -/
def best (r : α → α → Prop) [DecidableRel r] (l : List α) : Option α := l.foldl (replace r) none

section Rule

variable {r : α → α → Prop} [DecidableRel r]

@[simp] theorem best_nil : best r ([] : List α) = none := rfl

theorem best_concat (l : List α) (x : α) : best r (l ++ [x]) = replace r (best r l) x := by
  simp [best]

theorem best_mem {l : List α} {m : α} (h : best r l = some m) : m ∈ l := by
  induction l using List.reverseRecOn generalizing m with
  | nil => cases h
  | append_singleton l x ih =>
    rw [best_concat] at h
    cases hb : best r l with
    | none =>
      rw [hb] at h
      cases h
      simp
    | some b =>
      rw [hb] at h
      simp only [replace] at h
      split at h
      · cases h; simp
      · cases h
        exact List.mem_append_left _ (ih hb)

theorem best_eq_none_iff {l : List α} : best r l = none ↔ l = [] := by
  constructor
  · intro h
    rcases List.eq_nil_or_concat l with rfl | ⟨l', x, rfl⟩
    · rfl
    · rw [List.concat_eq_append, best_concat] at h
      cases hb : best r l' with
      | none => rw [hb] at h; cases h
      | some b =>
        rw [hb] at h
        simp only [replace] at h
        split at h <;> cases h
  · rintro rfl; rfl

private theorem foldl_replace_of_keep {m : α} {l : List α} (h : ∀ x ∈ l, ¬ r m x) :
    l.foldl (replace r) (some m) = some m := by
  induction l with
  | nil => rfl
  | cons x l ih =>
    rw [List.foldl_cons, replace, if_neg (h x (by simp))]
    exact ih (fun y hy => h y (by simp [hy]))

/-- An element that replaces everything before it and is replaced by nothing after it is selected. -/
theorem best_of_split {pre post : List α} {m : α} (hpre : ∀ x ∈ pre, r x m) (hpost : ∀ x ∈ post, ¬ r m x) :
    best r (pre ++ m :: post) = some m := by
  have hm : replace r (best r pre) m = some m := by
    cases hb : best r pre with
    | none => rfl
    | some b => rw [replace, if_pos (hpre b (best_mem hb))]
  show (pre ++ m :: post).foldl (replace r) none = some m
  rw [List.foldl_append, List.foldl_cons]
  show post.foldl (replace r) (replace r (best r pre) m) = some m
  rw [hm, foldl_replace_of_keep hpost]

/-- The selected element replaces everything before it and is replaced by nothing after it. -/
theorem best_eq_some_iff (htrans : ∀ {a b c}, r a b → r b c → r a c)
    (hneg : ∀ {a b c}, ¬ r b a → r b c → r a c) {l : List α} {m : α} :
    best r l = some m ↔
      ∃ pre post, l = pre ++ m :: post ∧ (∀ x ∈ pre, r x m) ∧ ∀ x ∈ post, ¬ r m x := by
  constructor
  · intro h
    induction l using List.reverseRecOn generalizing m with
    | nil => cases h
    | append_singleton l x ih =>
      rw [best_concat] at h
      cases hb : best r l with
      | none =>
        rw [hb] at h
        cases h
        refine ⟨[], [], ?_, by simp, by simp⟩
        rw [best_eq_none_iff.1 hb]
      | some b =>
        obtain ⟨pre, post, rfl, hpre, hpost⟩ := ih hb
        rw [hb] at h
        simp only [replace] at h
        split at h
        · rename_i hbx
          cases h
          -- `x` replaces `b`, and with it everything that `b` had kept out
          refine ⟨pre ++ b :: post, [], rfl, ?_, by simp⟩
          intro y hy
          rcases List.mem_append.1 hy with hy | hy
          · exact htrans (hpre y hy) hbx
          · rcases List.mem_cons.1 hy with rfl | hy
            · exact hbx
            · exact hneg (hpost y hy) hbx
        · rename_i hbx
          cases h
          refine ⟨pre, post ++ [x], by simp, hpre, ?_⟩
          intro y hy
          rcases List.mem_append.1 hy with hy | hy
          · exact hpost y hy
          · rw [List.mem_singleton.1 hy]; exact hbx
  · rintro ⟨pre, post, rfl, hpre, hpost⟩
    exact best_of_split hpre hpost

end Rule

/-! ### The last and the first element of greatest stamp -/

section Stamp

variable {T : Type} [LinearOrder T] (stamp : α → T)

/-- The last of the elements of greatest stamp. -/
def latest (l : List α) : Option α := best (fun b x => stamp b ≤ stamp x) l

/-- The first of the elements of greatest stamp. -/
def leading (l : List α) : Option α := best (fun b x => stamp b < stamp x) l

variable {stamp}

theorem latest_concat_of_none {l : List α} (h : latest stamp l = none) (x : α) :
    latest stamp (l ++ [x]) = some x := by
  unfold latest at h ⊢
  rw [best_concat, h, replace]

theorem latest_concat_of_some {l : List α} {b : α} (h : latest stamp l = some b) (x : α) :
    latest stamp (l ++ [x]) = if stamp b ≤ stamp x then some x else some b := by
  unfold latest at h ⊢
  rw [best_concat, h, replace]

theorem latest_eq_some_iff {l : List α} {m : α} :
    latest stamp l = some m ↔
      ∃ pre post, l = pre ++ m :: post ∧ (∀ x ∈ pre, stamp x ≤ stamp m) ∧ ∀ x ∈ post, stamp x < stamp m := by
  have h := best_eq_some_iff (r := fun b x => stamp b ≤ stamp x) (fun h h' => le_trans h h')
    (fun h h' => le_trans (le_of_not_ge h) h') (l := l) (m := m)
  simpa only [latest, not_le] using h

theorem leading_eq_some_iff {l : List α} {m : α} :
    leading stamp l = some m ↔
      ∃ pre post, l = pre ++ m :: post ∧ (∀ x ∈ pre, stamp x < stamp m) ∧ ∀ x ∈ post, stamp x ≤ stamp m := by
  have h := best_eq_some_iff (r := fun b x => stamp b < stamp x) (fun h h' => lt_trans h h')
    (fun h h' => lt_of_le_of_lt (le_of_not_gt h) h') (l := l) (m := m)
  simpa only [leading, not_lt] using h

theorem latest_max {l : List α} {m : α} (h : latest stamp l = some m) : ∀ x ∈ l, stamp x ≤ stamp m := by
  obtain ⟨pre, post, rfl, hpre, hpost⟩ := latest_eq_some_iff.1 h
  intro x hx
  simp only [List.mem_append, List.mem_cons] at hx
  rcases hx with hx | rfl | hx
  · exact hpre x hx
  · exact le_refl _
  · exact le_of_lt (hpost x hx)

theorem leading_max {l : List α} {m : α} (h : leading stamp l = some m) : ∀ x ∈ l, stamp x ≤ stamp m := by
  obtain ⟨pre, post, rfl, hpre, hpost⟩ := leading_eq_some_iff.1 h
  intro x hx
  simp only [List.mem_append, List.mem_cons] at hx
  rcases hx with hx | rfl | hx
  · exact le_of_lt (hpre x hx)
  · exact le_refl _
  · exact hpost x hx

/-- The leading element of the images of `l`: it is the image of an element that no image exceeds, and that stands
before every element with an image of the same stamp. -/
theorem leading_filterMap_iff {β : Type} [DecidableEq β] {f : β → Option α} {l : List β} {m : α} :
    leading stamp (l.filterMap f) = some m ↔
      ∃ a ∈ l, f a = some m ∧ ∀ b ∈ l, ∀ m', f b = some m' →
        stamp m' ≤ stamp m ∧ (stamp m' = stamp m → l.idxOf a ≤ l.idxOf b) := by
  rw [leading_eq_some_iff]
  constructor
  · rintro ⟨pre, post, hsplit, hpre, hpost⟩
    obtain ⟨l₁, l', rfl, rfl, hl'⟩ := List.filterMap_eq_append_iff.1 hsplit
    obtain ⟨l₂, a, l₃, rfl, hnone, ha, rfl⟩ := List.filterMap_eq_cons_iff.1 hl'
    have hbefore : ∀ b ∈ l₁ ++ l₂, ∀ m', f b = some m' → stamp m' < stamp m := by
      intro b hb m' hm'
      rcases List.mem_append.1 hb with hb | hb
      · exact hpre m' (List.mem_filterMap.2 ⟨b, hb, hm'⟩)
      · rw [hnone b hb] at hm'
        cases hm'
    have hnotmem : ∀ b, ∀ m', f b = some m' → stamp m' = stamp m → b ∉ l₁ ++ l₂ := by
      intro b m' hm' hts hb
      have := hbefore b hb m' hm'
      rw [hts] at this
      exact absurd this (lt_irrefl _)
    have hidx : (l₁ ++ (l₂ ++ a :: l₃)).idxOf a = (l₁ ++ l₂).length := by
      rw [← List.append_assoc, List.idxOf_append, if_neg (hnotmem a m ha rfl), List.idxOf_cons_self]
      omega
    refine ⟨a, by simp, ha, ?_⟩
    intro b hb m' hm'
    constructor
    · rw [← List.append_assoc, List.mem_append, List.mem_cons] at hb
      rcases hb with hb | rfl | hb
      · exact le_of_lt (hbefore b hb m' hm')
      · rw [Option.some.inj (hm'.symm.trans ha)]
      · exact hpost m' (List.mem_filterMap.2 ⟨b, hb, hm'⟩)
    · intro hts
      rw [hidx, ← List.append_assoc, List.idxOf_append, if_neg (hnotmem b m' hm' hts)]
      omega
  · rintro ⟨a, ha, hm, hmax⟩
    obtain ⟨l₁, l₂, rfl, hnotmem⟩ := List.eq_append_cons_of_mem ha
    refine ⟨l₁.filterMap f, l₂.filterMap f, ?_, ?_, ?_⟩
    · rw [List.filterMap_append, List.filterMap_cons_some hm]
    · intro x hx
      obtain ⟨b, hb, hx⟩ := List.mem_filterMap.1 hx
      obtain ⟨hle, hfirst⟩ := hmax b (by simp [hb]) x hx
      refine lt_of_le_of_ne hle ?_
      intro hts
      have hidx := hfirst hts
      rw [List.idxOf_append, if_neg hnotmem, List.idxOf_cons_self, List.idxOf_append, if_pos hb] at hidx
      have := List.idxOf_lt_length_of_mem hb
      omega
    · intro x hx
      obtain ⟨b, hb, hx⟩ := List.mem_filterMap.1 hx
      exact (hmax b (by simp [hb]) x hx).1

/-- An element of greatest stamp without a different rival is the latest. -/
theorem latest_of_max {l : List α} {m : α} (hm : m ∈ l) (hmax : ∀ x ∈ l, stamp x ≤ stamp m)
    (huniq : ∀ x ∈ l, stamp x = stamp m → x = m) : latest stamp l = some m := by
  cases h : latest stamp l with
  | none => rw [best_eq_none_iff.1 h] at hm; cases hm
  | some m' =>
    have hm' : m' ∈ l := best_mem h
    rw [huniq m' hm' (le_antisymm (hmax m' hm') (latest_max h m hm))]

/-- An element of greatest stamp without a different rival is the leading one. -/
theorem leading_of_max {l : List α} {m : α} (hm : m ∈ l) (hmax : ∀ x ∈ l, stamp x ≤ stamp m)
    (huniq : ∀ x ∈ l, stamp x = stamp m → x = m) : leading stamp l = some m := by
  cases h : leading stamp l with
  | none => rw [best_eq_none_iff.1 h] at hm; cases hm
  | some m' =>
    have hm' : m' ∈ l := best_mem h
    rw [huniq m' hm' (le_antisymm (hmax m' hm') (leading_max h m hm))]

/-! ### Order independence -/

variable (stamp) in
/-- All elements of greatest stamp are the same. -/
def TopAgree (l : List α) : Prop :=
  ∀ x ∈ l, ∀ y ∈ l, (∀ z ∈ l, stamp z ≤ stamp x) → stamp y = stamp x → y = x

theorem TopAgree.latest_eq {l : List α} (h : TopAgree stamp l) {m : α} (hm : m ∈ l)
    (hmax : ∀ x ∈ l, stamp x ≤ stamp m) : latest stamp l = some m :=
  latest_of_max hm hmax (fun x hx e => h m hm x hx hmax e)

theorem TopAgree.perm {l l' : List α} (h : TopAgree stamp l) (hp : l.Perm l') : TopAgree stamp l' := by
  intro x hx y hy hmax
  exact h x (hp.mem_iff.2 hx) y (hp.mem_iff.2 hy) (fun z hz => hmax z (hp.mem_iff.1 hz))

theorem TopAgree.latest_perm {l l' : List α} (h : TopAgree stamp l) (hp : l.Perm l') :
    latest stamp l = latest stamp l' := by
  cases hl : latest stamp l with
  | none =>
    have e : l = [] := best_eq_none_iff.1 hl
    subst e
    rw [List.nil_perm.1 hp]; rfl
  | some m =>
    refine ((h.perm hp).latest_eq (hp.mem_iff.1 (best_mem hl)) ?_).symm
    exact fun x hx => latest_max hl x (hp.mem_iff.2 hx)

/-- An element of greatest stamp is the latest in some order of the list. -/
theorem exists_perm_latest {l : List α} {m : α} (hm : m ∈ l) (hmax : ∀ x ∈ l, stamp x ≤ stamp m) :
    ∃ l', l.Perm l' ∧ latest stamp l' = some m := by
  obtain ⟨pre, post, rfl⟩ := List.append_of_mem hm
  refine ⟨(pre ++ post) ++ [m], ?_, latest_eq_some_iff.2 ⟨pre ++ post, [], rfl, ?_, by simp⟩⟩
  · exact List.perm_middle.trans (List.perm_append_singleton m _).symm
  · intro x hx
    apply hmax x
    rcases List.mem_append.1 hx with hx | hx <;> simp [hx]

/-- The latest element does not depend on the order exactly when the elements of greatest stamp are all the same. -/
theorem latest_perm_iff {l : List α} :
    (∀ l₁ l₂, l.Perm l₁ → l.Perm l₂ → latest stamp l₁ = latest stamp l₂) ↔ TopAgree stamp l := by
  constructor
  · intro h x hx y hy hmax hxy
    obtain ⟨l₁, hp₁, h₁⟩ := exists_perm_latest hx hmax
    obtain ⟨l₂, hp₂, h₂⟩ := exists_perm_latest hy (fun z hz => hxy ▸ hmax z hz)
    have := h l₁ l₂ hp₁ hp₂
    rw [h₁, h₂] at this
    exact (Option.some.inj this).symm
  · intro h l₁ l₂ hp₁ hp₂
    rw [← h.latest_perm hp₁, ← h.latest_perm hp₂]

end Stamp

end Base
