import Mathlib.Data.List.Basic
import Mathlib.Data.List.Nodup

/-!
# Insertion-ordered dictionaries

A dictionary is a list of key/value pairs without repeated keys, in the order in which the keys were first
inserted: assigning to a present key keeps its place, assigning to a new key appends it, and deleting a key removes
its pair.  Every operation is characterised by what `get` answers afterwards (`get_set`, `get_del`, `get_delAll`).
-/

namespace Base

/-- A dictionary; the keys are pairwise distinct. -/
structure Dict (κ ν : Type) where
  items : List (κ × ν)
  nodup : (items.map Prod.fst).Nodup

variable {κ ν : Type} [DecidableEq κ]

/-- Assign `v` to `k` in a list of pairs: in place when `k` is there, at the end otherwise. -/
def assign (k : κ) (v : ν) : List (κ × ν) → List (κ × ν)
  | [] => [(k, v)]
  | p :: rest => if p.1 = k then (k, v) :: rest else p :: assign k v rest

private theorem mem_keys_assign {k x : κ} {v : ν} {l : List (κ × ν)} :
    x ∈ (assign k v l).map Prod.fst ↔ x = k ∨ x ∈ l.map Prod.fst := by
  induction l with
  | nil => simp [assign]
  | cons p rest ih =>
    unfold assign
    split
    · rename_i h
      simp [h]
    · simp only [List.map_cons, List.mem_cons, ih]
      exact or_left_comm

private theorem nodup_assign {k : κ} {v : ν} {l : List (κ × ν)} (h : (l.map Prod.fst).Nodup) :
    ((assign k v l).map Prod.fst).Nodup := by
  induction l with
  | nil => simp [assign]
  | cons p rest ih =>
    rw [List.map_cons, List.nodup_cons] at h
    unfold assign
    split
    · rename_i hk
      rw [List.map_cons, List.nodup_cons]
      exact ⟨hk ▸ h.1, h.2⟩
    · rename_i hk
      rw [List.map_cons, List.nodup_cons, mem_keys_assign]
      exact ⟨not_or.2 ⟨hk, h.1⟩, ih h.2⟩

namespace Dict

/-- The empty dictionary. -/
def empty : Dict κ ν := ⟨[], List.nodup_nil⟩

/-- `d.get(k)`. -/
def get (d : Dict κ ν) (k : κ) : Option ν := d.items.lookup k

/-- `d[k] = v`. -/
def set (d : Dict κ ν) (k : κ) (v : ν) : Dict κ ν := ⟨assign k v d.items, nodup_assign d.nodup⟩

/-- `d.pop(k, None)`, without its result. -/
def del (d : Dict κ ν) (k : κ) : Dict κ ν :=
  ⟨d.items.filter (fun p => p.1 ≠ k), d.nodup.sublist (List.filter_sublist.map _)⟩

/-- `for k in ks: del d[k]`. -/
def delAll (d : Dict κ ν) (ks : List κ) : Dict κ ν := ks.foldl del d

/-! ### What `get` answers -/

private theorem lookup_cons_ite (x : κ) (p : κ × ν) (l : List (κ × ν)) :
    (p :: l).lookup x = if x = p.1 then some p.2 else l.lookup x := by
  obtain ⟨a, b⟩ := p
  by_cases h : x = a
  · subst h; simp
  · rw [List.lookup_cons, beq_false_of_ne h, if_neg h]

private theorem lookup_assign (k x : κ) (v : ν) (l : List (κ × ν)) :
    (assign k v l).lookup x = if x = k then some v else l.lookup x := by
  induction l with
  | nil => rw [assign, lookup_cons_ite]
  | cons p rest ih =>
    unfold assign
    split
    · rename_i hk
      rw [lookup_cons_ite, lookup_cons_ite, hk]
      split <;> rfl
    · rename_i hk
      rw [lookup_cons_ite, lookup_cons_ite, ih]
      by_cases h : x = p.1
      · subst h; simp [hk]
      · simp [h]

private theorem assign_assign (k : κ) (v v' : ν) (l : List (κ × ν)) : assign k v' (assign k v l) = assign k v' l := by
  induction l with
  | nil => simp [assign]
  | cons p rest ih =>
    by_cases hk : p.1 = k
    · simp [assign, hk]
    · simp [assign, hk, ih]

private theorem lookup_filter_ne (k x : κ) (l : List (κ × ν)) :
    (l.filter (fun p => p.1 ≠ k)).lookup x = if x = k then none else l.lookup x := by
  induction l with
  | nil => simp
  | cons p rest ih =>
    by_cases hk : p.1 = k
    · rw [List.filter_cons_of_neg (by simpa using hk), ih, lookup_cons_ite, hk]
      split <;> rfl
    · rw [List.filter_cons_of_pos (by simpa using hk), lookup_cons_ite, lookup_cons_ite, ih]
      by_cases h : x = p.1
      · subst h; simp [hk]
      · simp [h]

@[simp] theorem get_empty (k : κ) : (empty : Dict κ ν).get k = none := rfl

theorem get_set (d : Dict κ ν) (k x : κ) (v : ν) :
    (d.set k v).get x = if x = k then some v else d.get x :=
  lookup_assign k x v d.items

@[simp] theorem get_set_self (d : Dict κ ν) (k : κ) (v : ν) : (d.set k v).get k = some v := by
  simp [get_set]

/-- The second of two assignments to a key counts. -/
theorem set_set (d : Dict κ ν) (k : κ) (v v' : ν) : (d.set k v).set k v' = d.set k v' := by
  unfold set
  congr 1
  exact assign_assign k v v' d.items

theorem get_del (d : Dict κ ν) (k x : κ) : (d.del k).get x = if x = k then none else d.get x :=
  lookup_filter_ne k x d.items

@[simp] theorem get_del_self (d : Dict κ ν) (k : κ) : (d.del k).get k = none := by
  simp [get_del]

theorem get_del_of_ne (d : Dict κ ν) {k x : κ} (h : x ≠ k) : (d.del k).get x = d.get x := by
  simp [get_del, h]

theorem get_delAll (d : Dict κ ν) (ks : List κ) (x : κ) :
    (d.delAll ks).get x = if x ∈ ks then none else d.get x := by
  induction ks generalizing d with
  | nil => simp [delAll]
  | cons k ks ih =>
    show ((d.del k).delAll ks).get x = _
    rw [ih, get_del]
    by_cases h : x = k <;> by_cases h' : x ∈ ks <;> simp [h, h']

/-- A pair is listed exactly when `get` answers with it. -/
theorem mem_items_iff (d : Dict κ ν) {k : κ} {v : ν} : (k, v) ∈ d.items ↔ d.get k = some v := by
  obtain ⟨l, h⟩ := d
  show (k, v) ∈ l ↔ l.lookup k = some v
  induction l with
  | nil => simp
  | cons p rest ih =>
    rw [List.map_cons, List.nodup_cons] at h
    rw [List.mem_cons, lookup_cons_ite, ih h.2]
    by_cases hk : k = p.1
    · subst hk
      have hn : rest.lookup p.1 ≠ some v := fun e =>
        h.1 (List.mem_map.2 ⟨(p.1, v), (ih h.2).2 e, rfl⟩)
      simp [hn, Prod.ext_iff, eq_comm]
    · simp [hk, Prod.ext_iff]

omit [DecidableEq κ] in
private theorem keys_filterMap_sublist {ν' : Type} (f : ν → Option ν') (l : List (κ × ν)) :
    ((l.filterMap fun p => (f p.2).map (Prod.mk p.1)).map Prod.fst).Sublist (l.map Prod.fst) := by
  induction l with
  | nil => exact List.Sublist.slnil
  | cons p rest ih =>
    rw [List.filterMap_cons, List.map_cons]
    cases f p.2 with
    | none => exact ih.cons p.1
    | some v => exact ih.cons_cons p.1

/-- Where `d'` answers with the images of the values of `d`, the images of the pairs of `d` are the pairs of `d'`. -/
theorem items_perm {ν' : Type} {d : Dict κ ν} {d' : Dict κ ν'} {f : ν → Option ν'}
    (h : ∀ k, d'.get k = (d.get k).bind f) :
    (d.items.filterMap fun p => (f p.2).map (Prod.mk p.1)).Perm d'.items := by
  have hleft : (d.items.filterMap fun p => (f p.2).map (Prod.mk p.1)).Nodup :=
    List.Nodup.of_map Prod.fst (d.nodup.sublist (keys_filterMap_sublist f d.items))
  rw [List.perm_ext_iff_of_nodup hleft (List.Nodup.of_map Prod.fst d'.nodup)]
  rintro ⟨k, w⟩
  rw [mem_items_iff, h, List.mem_filterMap, Option.bind_eq_some_iff]
  constructor
  · rintro ⟨⟨k', v⟩, hmem, hv⟩
    obtain ⟨w', hw', heq⟩ := Option.map_eq_some_iff.1 hv
    simp only [Prod.mk.injEq] at heq
    obtain ⟨rfl, rfl⟩ := heq
    exact ⟨v, (mem_items_iff d).1 hmem, hw'⟩
  · rintro ⟨v, hv, hw⟩
    exact ⟨(k, v), (mem_items_iff d).2 hv, by rw [hw]; rfl⟩

/-- Two selections from such dictionaries that agree pair by pair give the same list in some order. -/
theorem select_perm {ν' β : Type} {d : Dict κ ν} {d' : Dict κ ν'} {f : ν → Option ν'}
    (h : ∀ k, d'.get k = (d.get k).bind f) {t : κ × ν → Bool} {t' : κ × ν' → Bool} {g : κ × ν → β} {g' : κ × ν' → β}
    (hsel : ∀ k v, (((f v).map (Prod.mk k)).filter t').map g' = if t (k, v) then some (g (k, v)) else none) :
    ((d.items.filter t).map g).Perm ((d'.items.filter t').map g') := by
  refine List.Perm.trans (List.Perm.of_eq ?_) (((items_perm h).filter t').map g')
  rw [← List.filterMap_eq_map, List.filterMap_filter, List.filter_filterMap, List.map_filterMap]
  apply List.filterMap_congr
  rintro ⟨k, v⟩ -
  exact (hsel k v).symm

/-- Deleting the keys of all pairs that satisfy `p` leaves the pairs that do not. -/
theorem get_delAll_filter (d : Dict κ ν) (p : κ × ν → Bool) (x : κ) :
    (d.delAll ((d.items.filter p).map Prod.fst)).get x = (d.get x).filter (fun v => !p (x, v)) := by
  rw [get_delAll]
  cases hx : d.get x with
  | none => simp
  | some v =>
    have hm : x ∈ (d.items.filter p).map Prod.fst ↔ p (x, v) = true := by
      constructor
      · intro h
        obtain ⟨⟨a, b⟩, hab, rfl⟩ := List.mem_map.1 h
        obtain ⟨h1, h2⟩ := List.mem_filter.1 hab
        have e : d.get a = some b := (mem_items_iff d).1 h1
        rw [hx] at e
        cases e
        exact h2
      · intro h
        exact List.mem_map.2 ⟨(x, v), List.mem_filter.2 ⟨(mem_items_iff d).2 hx, h⟩, rfl⟩
    by_cases h : p (x, v) = true
    · rw [if_pos (hm.2 h), Option.filter_some_neg (by simpa using h)]
    · rw [if_neg (fun e => h (hm.1 e)), Option.filter_some_pos (by simpa using h)]

end Dict

end Base
