import DLStorage.Base.Newest
import Mathlib.Data.List.Sort
import Mathlib.Data.List.Nodup
import Mathlib.Order.Lattice.Nat
import Mathlib.Data.Finset.Max

/-!
# The best `n` elements of a set by score

`top score n l` sorts `l` by decreasing score and keeps the first `n` elements.  When no two elements have the same
score, an element is kept exactly when fewer than `n` elements score higher (`mem_top_iff`).  Consequently two sets
that differ little in both directions share one of their best elements (`top_inter`), the order in which a set is listed
does not matter (`top_eq_of_perm`), and one element more displaces at most one (`top_cons`, `top_cons_displaces`).
-/

namespace Base

variable {α β : Type} [LinearOrder β] (score : α → β)

/-- `l` by decreasing score; elements of equal score keep their order. -/
def ranked (l : List α) : List α := l.insertionSort (fun x y => score y ≤ score x)

/-- The `n` elements of `l` with the highest scores. -/
def top (n : Nat) (l : List α) : List α := (ranked score l).take n

/-- The elements of `l` that score higher than `x`. -/
def above (l : List α) (x : α) : List α := l.filter (fun y => score x < score y)

/-- No two elements of `l` have the same score. -/
def ScoreInjOn (l : List α) : Prop := ∀ x ∈ l, ∀ y ∈ l, score x = score y → x = y

variable {score}

theorem ranked_perm (l : List α) : (ranked score l).Perm l := List.perm_insertionSort _ l

private instance instTotalScore : Std.Total (fun x y : α => score y ≤ score x) := ⟨fun _ _ => le_total _ _⟩

private instance instTransScore : IsTrans α (fun x y : α => score y ≤ score x) := ⟨fun _ _ _ h h' => le_trans h' h⟩

theorem ranked_sorted (l : List α) : (ranked score l).Pairwise (fun x y => score y ≤ score x) :=
  List.pairwise_insertionSort _ l

theorem ranked_strict {l : List α} (hnd : l.Nodup) (hinj : ScoreInjOn score l) :
    (ranked score l).Pairwise (fun x y => score y < score x) := by
  have hp : (ranked score l).Perm l := ranked_perm l
  have hne : (ranked score l).Pairwise (fun x y => x ≠ y) := hp.nodup_iff.2 hnd
  refine ((ranked_sorted l).and hne).imp_of_mem ?_
  intro x y hx hy h
  refine lt_of_le_of_ne h.1 (fun e => h.2 ?_)
  exact (hinj y (hp.mem_iff.1 hy) x (hp.mem_iff.1 hx) e).symm

theorem top_subset {n : Nat} {l : List α} {x : α} (h : x ∈ top score n l) : x ∈ l :=
  (ranked_perm l).mem_iff.1 (List.mem_of_mem_take h)

theorem top_nodup {n : Nat} {l : List α} (h : l.Nodup) : (top score n l).Nodup :=
  ((ranked_perm l).nodup_iff.2 h).sublist (List.take_sublist _ _)

theorem length_top (n : Nat) (l : List α) : (top score n l).length = min n l.length := by
  unfold top
  rw [List.length_take, (ranked_perm l).length_eq]

theorem top_eq_nil_iff {n : Nat} (hn : 0 < n) {l : List α} : top score n l = [] ↔ l = [] := by
  rw [← List.length_eq_zero_iff, length_top, ← List.length_eq_zero_iff]
  omega

private theorem mem_take_iff_above {l : List α} (h : l.Pairwise (fun x y => score y < score x)) {x : α}
    (hx : x ∈ l) (n : Nat) : x ∈ l.take n ↔ (above score l x).length < n := by
  induction l generalizing n with
  | nil => cases hx
  | cons a l ih =>
    rw [List.pairwise_cons] at h
    cases n with
    | zero => simp
    | succ n =>
      rcases List.mem_cons.1 hx with rfl | hx
      · have hnil : above score (x :: l) x = [] := by
          unfold above
          rw [List.filter_eq_nil_iff]
          intro y hy
          rcases List.mem_cons.1 hy with rfl | hy
          · simp
          · simpa using le_of_lt (h.1 y hy)
        simp [hnil]
      · have hxa : score x < score a := h.1 x hx
        have hne : x ≠ a := fun e => by subst e; exact lt_irrefl _ hxa
        have hcons : above score (a :: l) x = a :: above score l x := by
          unfold above
          rw [List.filter_cons_of_pos (by simpa using hxa)]
        rw [List.take_succ_cons, List.mem_cons, ih h.2 hx n, hcons, List.length_cons]
        simp only [hne, false_or]
        omega

/-- An element is among the best `n` exactly when fewer than `n` elements score higher. -/
theorem mem_top_iff {l : List α} (hnd : l.Nodup) (hinj : ScoreInjOn score l) {x : α} (hx : x ∈ l) (n : Nat) :
    x ∈ top score n l ↔ (above score l x).length < n := by
  have hp : (ranked score l).Perm l := ranked_perm l
  unfold top
  rw [mem_take_iff_above (ranked_strict hnd hinj) (hp.mem_iff.2 hx)]
  unfold above
  rw [(hp.filter _).length_eq]

theorem above_length_mono {l : List α} {x y : α} (h : score x ≤ score y) :
    (above score l y).length ≤ (above score l x).length := by
  unfold above
  apply List.Sublist.length_le
  apply List.monotone_filter_right
  intro z hz
  simp only [decide_eq_true_eq] at hz ⊢
  exact lt_of_le_of_lt h hz

/-- Two sets of which fewer than `n` elements are missing in the other have one of their best `n` elements in
common, when the first has at least `n` elements. -/
theorem top_inter [DecidableEq α] {l l' : List α} {n : Nat} (hl : l.Nodup) (hl' : l'.Nodup)
    (hinj : ScoreInjOn score (l ++ l')) (hn : n ≤ l.length)
    (hgone : (l.filter (· ∉ l')).length < n) (hnew : (l'.filter (· ∉ l)).length < n) :
    ∃ x, x ∈ top score n l ∧ x ∈ top score n l' := by
  have hinjl : ScoreInjOn score l := fun x hx y hy =>
    hinj x (List.mem_append_left _ hx) y (List.mem_append_left _ hy)
  have hinjl' : ScoreInjOn score l' := fun x hx y hy =>
    hinj x (List.mem_append_right _ hx) y (List.mem_append_right _ hy)
  -- the best `n` of `l` cannot all be missing from `l'`
  have hsurv : ∃ x ∈ top score n l, x ∈ l' := by
    by_contra hnone
    have hsub : top score n l ⊆ l.filter (· ∉ l') := by
      intro x hx
      rw [List.mem_filter]
      exact ⟨top_subset hx, by simpa using fun h => hnone ⟨x, hx, h⟩⟩
    have hle := (List.subperm_of_subset (top_nodup hl) hsub).length_le
    rw [length_top] at hle
    omega
  -- the highest of the survivors is outscored in `l'` by newcomers only
  obtain ⟨x, hx, hmax⟩ := ((top score n l).filter (· ∈ l')).toFinset.exists_max_image score (by
    obtain ⟨x, hx, hx'⟩ := hsurv
    exact ⟨x, by simp [hx, hx']⟩)
  simp only [List.mem_toFinset, List.mem_filter, decide_eq_true_eq] at hx hmax
  refine ⟨x, hx.1, (mem_top_iff hl' hinjl' hx.2 n).2 ?_⟩
  have hsub : above score l' x ⊆ l'.filter (· ∉ l) := by
    intro y hy
    obtain ⟨hy', hxy⟩ := List.mem_filter.1 hy
    rw [decide_eq_true_eq] at hxy
    refine List.mem_filter.2 ⟨hy', ?_⟩
    rw [decide_eq_true_eq]
    intro hyl
    have hcount := (mem_top_iff hl hinjl (top_subset hx.1) n).1 hx.1
    have hytop : y ∈ top score n l := (mem_top_iff hl hinjl hyl n).2
      (lt_of_le_of_lt (above_length_mono (le_of_lt hxy)) hcount)
    exact absurd (hmax y ⟨hytop, hy'⟩) (not_le_of_gt hxy)
  have hle := (List.subperm_of_subset (hl'.filter _) hsub).length_le
  exact lt_of_le_of_lt hle hnew

/-! ### The ranking of a set -/

/-- The ranking forgets the order in which the elements are listed. -/
theorem ranked_eq_of_perm {l l' : List α} (hnd : l.Nodup) (hinj : ScoreInjOn score l) (h : l.Perm l') :
    ranked score l = ranked score l' := by
  have hinj' : ScoreInjOn score l' := fun x hx y hy => hinj x (h.mem_iff.2 hx) y (h.mem_iff.2 hy)
  have hp : (ranked score l).Perm (ranked score l') := (ranked_perm l).trans (h.trans (ranked_perm l').symm)
  apply hp.eq_of_pairwise _ (ranked_strict hnd hinj) (ranked_strict (h.nodup_iff.1 hnd) hinj')
  intro x y _ _ hxy hyx
  exact absurd hxy (lt_asymm hyx)

theorem top_eq_of_perm {l l' : List α} (hnd : l.Nodup) (hinj : ScoreInjOn score l) (h : l.Perm l') (n : Nat) :
    top score n l = top score n l' :=
  congrArg (List.take n) (ranked_eq_of_perm hnd hinj h)

theorem top_strict {l : List α} (hnd : l.Nodup) (hinj : ScoreInjOn score l) (n : Nat) :
    (top score n l).Pairwise (fun x y => score y < score x) :=
  (ranked_strict hnd hinj).sublist (List.take_sublist _ _)

/-- What is left out scores lower than what is kept. -/
theorem lt_of_notMem_top {l : List α} (hnd : l.Nodup) (hinj : ScoreInjOn score l) {n : Nat} {x y : α} (hx : x ∈ l)
    (hout : x ∉ top score n l) (hy : y ∈ top score n l) : score x < score y := by
  have hsplit : ranked score l = top score n l ++ (ranked score l).drop n := (List.take_append_drop n _).symm
  have hmem : x ∈ ranked score l := (ranked_perm l).mem_iff.2 hx
  rw [hsplit, List.mem_append] at hmem
  have hstrict := ranked_strict hnd hinj
  rw [hsplit, List.pairwise_append] at hstrict
  exact hstrict.2.2 y hy x (hmem.resolve_left hout)

theorem top_prefix {l : List α} {m n : Nat} (h : m ≤ n) : top score m l <+: top score n l :=
  List.take_prefix_take_left h

/-- The element of highest score is the first of the best. -/
theorem head?_top {l : List α} (hnd : l.Nodup) (hinj : ScoreInjOn score l) {n : Nat} (hn : 0 < n) :
    (top score n l).head? = leading score l := by
  have hp : (ranked score l).Perm l := ranked_perm l
  unfold top
  rw [List.head?_take, if_neg (by omega)]
  cases hlead : leading score l with
  | none =>
    obtain rfl : l = [] := best_eq_none_iff.1 hlead
    rfl
  | some m =>
    cases hr : ranked score l with
    | nil =>
      rw [hr] at hp
      obtain rfl := hp.symm.eq_nil
      cases hlead
    | cons x rest =>
      -- each of the two scores at least as high as the other
      have hx : x ∈ l := hp.mem_iff.1 (by rw [hr]; exact List.mem_cons_self)
      have hm : m ∈ l := best_mem hlead
      have hle : score x ≤ score m := leading_max hlead x hx
      have hge : score m ≤ score x := by
        have hmem : m ∈ x :: rest := hr ▸ hp.mem_iff.2 hm
        rcases List.mem_cons.1 hmem with rfl | hrest
        · exact le_refl _
        · have hsorted : (ranked score l).Pairwise (fun x y => score y ≤ score x) := ranked_sorted l
          rw [hr, List.pairwise_cons] at hsorted
          exact hsorted.1 m hrest
      rw [List.head?_cons, hinj x hx m hm (le_antisymm hle hge)]

/-! ### One element more -/

/-- A new element is inserted between those that score higher and the others. -/
private theorem exists_orderedInsert {l : List α} (h : l.Pairwise (fun x y => score y ≤ score x)) (x : α) :
    ∃ pre post, l = pre ++ post ∧ l.orderedInsert (fun x y => score y ≤ score x) x = pre ++ x :: post ∧
      (∀ y ∈ pre, score x < score y) ∧ ∀ y ∈ post, score y ≤ score x := by
  induction l with
  | nil => exact ⟨[], [], rfl, rfl, by simp, by simp⟩
  | cons a l ih =>
    rw [List.pairwise_cons] at h
    by_cases ha : score a ≤ score x
    · refine ⟨[], a :: l, rfl, List.orderedInsert_cons_of_le _ l ha, by simp, ?_⟩
      intro y hy
      rcases List.mem_cons.1 hy with rfl | hy
      · exact ha
      · exact le_trans (h.1 y hy) ha
    · obtain ⟨pre, post, rfl, hins, hpre, hpost⟩ := ih h.2
      refine ⟨a :: pre, post, rfl, ?_, ?_, hpost⟩
      · have hskip := List.orderedInsert_of_not_le (fun x y => score y ≤ score x) (pre ++ post) ha
        rw [hskip, hins]
        rfl
      · intro y hy
        rcases List.mem_cons.1 hy with rfl | hy
        · exact not_le.1 ha
        · exact hpre y hy

/-- A new element leaves the best `n` as they are, or is inserted among them at its place, and then only the first `n`
are kept. -/
theorem top_cons (n : Nat) (l : List α) (x : α) :
    top score n (x :: l) = top score n l ∨
      ∃ pre post, top score n l = pre ++ post ∧ (∀ y ∈ pre, score x < score y) ∧ (∀ y ∈ post, score y ≤ score x) ∧
        top score n (x :: l) = (pre ++ x :: post).take n := by
  have hsorted : (ranked score l).Pairwise (fun x y => score y ≤ score x) := ranked_sorted l
  obtain ⟨pre, post, hl, hins, hpre, hpost⟩ := exists_orderedInsert hsorted x
  have hnew : top score n (x :: l) = (pre ++ x :: post).take n := congrArg (List.take n) hins
  have hold : top score n l = (pre ++ post).take n := congrArg (List.take n) hl
  by_cases hlen : n ≤ pre.length
  · left
    rw [hnew, hold, List.take_append_of_le_length hlen, List.take_append_of_le_length hlen]
  · right
    refine ⟨pre, post.take (n - pre.length), ?_, hpre, fun y hy => hpost y (List.mem_of_mem_take hy), ?_⟩
    · rw [hold, List.take_append, List.take_of_length_le (by omega)]
    · rw [hnew, List.take_append, List.take_append, List.take_of_length_le (by omega)]
      obtain ⟨m, hm⟩ : ∃ m, n - pre.length = m + 1 := ⟨n - pre.length - 1, by omega⟩
      rw [hm, List.take_succ_cons, List.take_succ_cons, List.take_take]
      simp

/-- At most the last of the best is displaced by a new element, and the others keep their order. -/
theorem top_cons_displaces [DecidableEq α] {n : Nat} {l : List α} {x : α} (hx : x ∉ l) :
    (top score n (x :: l)).filter (· ≠ x) <+: top score n l ∧
      (top score n l).length ≤ ((top score n (x :: l)).filter (· ≠ x)).length + 1 := by
  have hne : ∀ {l' : List α}, l' ⊆ top score n l → l'.filter (· ≠ x) = l' := by
    intro l' hsub
    rw [List.filter_eq_self]
    intro y hy
    rw [decide_eq_true_eq]
    rintro rfl
    exact hx (top_subset (hsub hy))
  rcases @top_cons α β _ score n l x with heq | ⟨pre, post, hold, -, -, hnew⟩
  · rw [heq, hne (List.Subset.refl _)]
    exact ⟨List.prefix_refl _, by omega⟩
  · have hpre : pre.filter (· ≠ x) = pre := hne (hold ▸ List.subset_append_left _ _)
    have hpost : ∀ m, (post.take m).filter (· ≠ x) = post.take m :=
      fun m => hne (List.Subset.trans (List.take_subset m post) (hold ▸ List.subset_append_right _ _))
    have hlen : (pre ++ post).length ≤ n := by
      rw [← hold, length_top]
      omega
    rw [List.length_append] at hlen
    rw [hnew, hold, List.take_append, List.take_of_length_le (by omega), List.filter_append, hpre]
    cases hm : n - pre.length with
    | zero =>
      simp only [List.take_zero, List.filter_nil, List.append_nil, List.length_append]
      exact ⟨List.prefix_append _ _, by omega⟩
    | succ m =>
      rw [List.take_succ_cons, List.filter_cons_of_neg (by simp), hpost]
      constructor
      · exact (List.prefix_append_right_inj pre).2 (List.take_prefix m post)
      · simp only [List.length_append, List.length_take]
        omega

end Base
