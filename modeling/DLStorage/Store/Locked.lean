import DLStorage.Base.Locked
import DLStorage.Store.Basic

/-!
# The stores under threads

The methods of `LocalLWWStore` and `LocalStore` statement by statement, as the threads of a node execute them.  A clock
is read, the dictionary is read, written or emptied, or an iterator over it moves on, in one step each; `set` and
`delete` read the wall clock, and `set` computes the expiry, before they take the lock.  `del` raises when the key is
gone, and an iterator when the dictionary has another size than at the start.

None of this is seen by the callers (`stores_thread_safe`): no call raises, and each has the result and the effect of
the operation of `Store.Lww` or `Store.Basic` at some instant between its call and its return, made with the clock
readings of the call.
-/

namespace DLStorage

open Base (Dict Prog)

/-- What a statement can raise. -/
inductive StoreError
  | keyError (key : String)
  | runtimeError -- dictionary changed size during iteration

/-- A piece of a method of a store whose dictionary has values in `ν`. -/
abbrev Statements (ν τ : Type) := ExceptT StoreError (Prog (Clock τ) (Dict String ν))

variable {V τ ν α β : Type}

namespace Statements

def monotonic : Statements ν τ τ := ExceptT.lift (.look fun c => .ret c.monotonic)

/-- `if ts is None: ts = time.time_ns()`. -/
def stamp (ts : Option Int) : Statements ν τ Int :=
  ExceptT.lift (match ts with
    | some ts => .ret ts
    | none => .look fun c => .ret c.timeNs)

/-- `time.monotonic() + ttl if ttl is not None else None`. -/
def expiry [Add τ] (ttl : Option τ) : Statements ν τ (Option τ) :=
  ExceptT.lift (match ttl with
    | some ttl => .look fun c => .ret (some (c.monotonic + ttl))
    | none => .ret none)

/-- One access to the dictionary; the result tells what was found. -/
def access (f : Dict String ν → Dict String ν) (found : Dict String ν → Except StoreError α) : Statements ν τ α :=
  ExceptT.mk (.touch f fun d => .ret (found d))

/-- `self._data.get(key)`. -/
def get (key : String) : Statements ν τ (Option ν) := access id fun d => .ok (d.get key)

/-- `self._data[key] = e`. -/
def set (key : String) (e : ν) : Statements ν τ Unit := access (·.set key e) fun _ => .ok ()

/-- `del self._data[key]`. -/
def del (key : String) : Statements ν τ Unit :=
  access (·.del key) fun d => if (d.get key).isSome then .ok () else .error (.keyError key)

/-- `self._data.pop(key, None)`. -/
def pop (key : String) : Statements ν τ (Option ν) := access (·.del key) fun d => .ok (d.get key)

/-- `self._data.clear()`. -/
def clear : Statements ν τ Unit := access (fun _ => Dict.empty) fun _ => .ok ()

/-- `iter(self._data.items())` keeps the size of the dictionary. -/
def size : Statements ν τ Nat := access id fun d => .ok d.items.length

/-- An iterator moves to its next pair, unless it is at the end. -/
def next (size i : Nat) : Statements ν τ (Option (String × ν)) :=
  access id fun d => if d.items.length = size then .ok d.items[i]? else .error .runtimeError

/-- The iterations of a list comprehension that are left. -/
def iterate (keep : String × ν → Bool) (out : String × ν → α) (size : Nat) : Nat → List α → Statements ν τ (List α)
  | 0, acc => do
    let _ ← next size size
    return acc
  | m + 1, acc => do
    match ← next size (size - (m + 1)) with
    | none => return acc
    | some p => iterate keep out size m (if keep p then acc ++ [out p] else acc)

/-- `[out(p) for p in self._data.items() if keep(p)]`. -/
def comprehension (keep : String × ν → Bool) (out : String × ν → α) : Statements ν τ (List α) := do
  let n ← size
  iterate keep out n n []

/-- `for k in ks: del self._data[k]`. -/
def delEach : List String → Statements ν τ Unit
  | [] => return ()
  | k :: ks => do
    del k
    delEach ks

/-- `with self._lock:`. -/
def locked (p : Statements ν τ α) : Statements ν τ α := ExceptT.mk (Prog.locked p.run)

end Statements

/-! ### The methods -/

section Methods

open Statements (stamp expiry monotonic comprehension delEach locked)

variable [LinearOrder τ] [Add τ]

namespace LocalLWWStore.Method

def set (key : String) (value : PyObj V) (ttl : Option τ) (ts : Option Int) : Statements (Entry V τ) τ Bool := do
  let ts ← stamp ts
  let expiresAt ← expiry ttl
  locked do
    let existing ← Statements.get key
    if existing.any (fun e => decide (e.ts > ts)) then
      return false
    else
      Statements.set key ⟨.value value, expiresAt, ts⟩
      return true

def getVersioned (key : String) : Statements (Entry V τ) τ (Option (Versioned V)) :=
  locked do
    match ← Statements.get key with
    | none => return none
    | some e =>
      match e.stored, e.expiresAt with
      | .tombstone, _ => return some ⟨none, e.ts, true⟩
      | .value v, none => return some ⟨v, e.ts, false⟩
      | .value v, some x =>
        let now ← monotonic
        if x < now then
          Statements.del key
          return none
        else
          return some ⟨v, e.ts, false⟩

def get (key : String) : Statements (Entry V τ) τ (PyObj V) := do
  match ← getVersioned key with
  | none => return none
  | some r => return if r.isTombstone then none else r.value

def delete (key : String) (ts : Option Int) : Statements (Entry V τ) τ Bool := do
  let ts ← stamp ts
  locked do
    let existing ← Statements.get key
    let lived := existing.any fun e => !e.stored.isTombstone
    if existing.all (fun e => decide (e.ts ≤ ts)) then
      Statements.set key ⟨.tombstone, none, ts⟩
    return lived

def «exists» (key : String) : Statements (Entry V τ) τ Bool := do
  let v : PyObj V ← get key
  return v.isSome

def keys : Statements (Entry V τ) τ (List String) :=
  locked do
    let now ← monotonic
    comprehension (fun p => p.2.listed now) Prod.fst

def scan (pattern : String) : Statements (Entry V τ) τ (List (String × PyObj V)) :=
  locked do
    let now ← monotonic
    comprehension (fun p => isIn pattern p.1 && p.2.listed now) fun p => (p.1, p.2.version.value)

def scanKeys (pattern : String) : Statements (Entry V τ) τ (List String) :=
  locked do
    let now ← monotonic
    comprehension (fun p => isIn pattern p.1 && p.2.listed now) Prod.fst

def flushAll : Statements (Entry V τ) τ Unit := locked Statements.clear

def flushKeys (pattern : String) : Statements (Entry V τ) τ Nat :=
  locked do
    let toDelete ← comprehension (fun p => isIn pattern p.1) Prod.fst
    delEach toDelete
    return toDelete.length

def clear : Statements (Entry V τ) τ Unit := locked Statements.clear

def purgeExpired : Statements (Entry V τ) τ Nat :=
  locked do
    let now ← monotonic
    let expired ← comprehension (fun p => p.2.sweepable now) Prod.fst
    delEach expired
    return expired.length

def len : Statements (Entry V τ) τ Nat := do
  let ks ← keys
  return ks.length

/-- The method that is called for an operation. -/
def body : StoreOp V τ → Statements (Entry V τ) τ (StoreResult V)
  | .set k v ttl ts => .bool <$> set k v ttl ts
  | .get k => .obj <$> get k
  | .getVersioned k => .version <$> getVersioned k
  | .delete k ts => .bool <$> delete k ts
  | .exists k => .bool <$> «exists» k
  | .keys => .keys <$> keys
  | .scan p => .items <$> scan p
  | .scanKeys p => .keys <$> scanKeys p
  | .flushAll => (fun _ => .none) <$> flushAll
  | .flushKeys p => .count <$> flushKeys p
  | .clear => (fun _ => .none) <$> clear
  | .purgeExpired => .count <$> purgeExpired
  | .len => .count <$> len

end LocalLWWStore.Method

namespace LocalStore.Method

def set (key : String) (value : PyObj V) (ttl : Option τ) : Statements (PyObj V × Option τ) τ Bool := do
  let expiresAt ← expiry ttl
  locked do
    Statements.set key (value, expiresAt)
    return true

def get (key : String) : Statements (PyObj V × Option τ) τ (PyObj V) :=
  locked do
    match ← Statements.get key with
    | none => return none
    | some (value, none) => return value
    | some (value, some x) =>
      let now ← monotonic
      if x < now then
        Statements.del key
        return none
      else
        return value

def delete (key : String) : Statements (PyObj V × Option τ) τ Bool :=
  locked do
    let found ← Statements.pop key
    return found.isSome

def «exists» (key : String) : Statements (PyObj V × Option τ) τ Bool := do
  let v : PyObj V ← get key
  return v.isSome

def keys : Statements (PyObj V × Option τ) τ (List String) :=
  locked do
    let now ← monotonic
    comprehension (fun p => listed now p.2) Prod.fst

def scan (pattern : String) : Statements (PyObj V × Option τ) τ (List (String × PyObj V)) :=
  locked do
    let now ← monotonic
    comprehension (fun p => isIn pattern p.1 && listed now p.2) fun p => (p.1, p.2.1)

def scanKeys (pattern : String) : Statements (PyObj V × Option τ) τ (List String) :=
  locked do
    let now ← monotonic
    comprehension (fun p => isIn pattern p.1 && listed now p.2) Prod.fst

def flushAll : Statements (PyObj V × Option τ) τ Unit := locked Statements.clear

def flushKeys (pattern : String) : Statements (PyObj V × Option τ) τ Nat :=
  locked do
    let toDelete ← comprehension (fun p => isIn pattern p.1) Prod.fst
    delEach toDelete
    return toDelete.length

def clear : Statements (PyObj V × Option τ) τ Unit := locked Statements.clear

def purgeExpired : Statements (PyObj V × Option τ) τ Nat :=
  locked do
    let now ← monotonic
    let expired ← comprehension (fun p => sweepable now p.2) Prod.fst
    delEach expired
    return expired.length

def len : Statements (PyObj V × Option τ) τ Nat := do
  let ks ← keys
  return ks.length

/-- The method that is called. -/
def body : PlainCall V τ → Statements (PyObj V × Option τ) τ (StoreResult V)
  | .set k v ttl _ => .bool <$> set k v ttl
  | .get k => .obj <$> get k
  | .delete k _ => .bool <$> delete k
  | .exists k => .bool <$> «exists» k
  | .keys => .keys <$> keys
  | .scan p => .items <$> scan p
  | .scanKeys p => .keys <$> scanKeys p
  | .flushAll => (fun _ => .none) <$> flushAll
  | .flushKeys p => .count <$> flushKeys p
  | .clear => (fun _ => .none) <$> clear
  | .purgeExpired => .count <$> purgeExpired
  | .len => .count <$> len

end LocalStore.Method

end Methods

/-! ### What the methods do when they run alone -/

/-- The readings are those of `c`: the wall clock is read first, the monotonic clock last. -/
def Clock.ReadFrom (c : Clock τ) (es : List (Clock τ)) : Prop :=
  (∀ e ∈ es.head?, e.timeNs = c.timeNs) ∧ ∀ e ∈ es.getLast?, e.monotonic = c.monotonic

namespace Statements

def alone (p : Statements ν τ α) (d : Dict String ν) (es : List (Clock τ)) :
    Option (Except StoreError α × Dict String ν × List (Clock τ)) :=
  Prog.alone p.run d es

section Alone

variable (d : Dict String ν) (es : List (Clock τ))

@[simp] theorem alone_pure (a : α) : (pure a : Statements ν τ α).alone d es = some (.ok a, d, es) := rfl

@[simp] theorem alone_bind (p : Statements ν τ α) (k : α → Statements ν τ β) :
    (p >>= k).alone d es = (p.alone d es).bind fun r =>
      match r.1 with
      | .ok a => (k a).alone r.2.1 r.2.2
      | .error e => some (.error e, r.2.1, r.2.2) := by
  show Prog.alone (p.run >>= ExceptT.bindCont k) d es = _
  rw [Prog.alone_bind]
  congr 1
  funext r
  obtain ⟨a | a, d', es'⟩ := r <;> rfl

@[simp] theorem alone_access (f : Dict String ν → Dict String ν) (found : Dict String ν → Except StoreError α) :
    (access f found : Statements ν τ α).alone d es = some (found d, f d, es) := rfl

@[simp] theorem alone_locked (p : Statements ν τ α) : (locked p).alone d es = p.alone d es := Prog.alone_locked ..

@[simp] theorem alone_monotonic_nil : (monotonic : Statements ν τ τ).alone d [] = none := rfl

@[simp] theorem alone_monotonic_cons (c : Clock τ) :
    (monotonic : Statements ν τ τ).alone d (c :: es) = some (.ok c.monotonic, d, es) := rfl

/-- A comprehension that nobody disturbs. -/
theorem alone_comprehension (keep : String × ν → Bool) (out : String × ν → α) :
    (comprehension keep out : Statements ν τ (List α)).alone d es =
      some (.ok ((d.items.filter keep).map out), d, es) := by
  have hiterate : ∀ m acc, m ≤ d.items.length →
      (iterate keep out d.items.length m acc : Statements ν τ (List α)).alone d es =
        some (.ok (acc ++ ((d.items.drop (d.items.length - m)).filter keep).map out), d, es) := by
    intro m
    induction m with
    | zero =>
      intro acc _
      simp [iterate, next]
    | succ m ih =>
      intro acc hm
      have hlt : d.items.length - (m + 1) < d.items.length := by omega
      have hdrop := List.drop_eq_getElem_cons hlt
      rw [show d.items.length - (m + 1) + 1 = d.items.length - m by omega] at hdrop
      simp only [iterate, next, alone_bind, alone_access, if_pos, Option.bind_some, List.getElem?_eq_getElem hlt, id]
      rw [ih _ (by omega), hdrop, List.filter_cons]
      split <;> simp
  simp [comprehension, size, hiterate]

theorem alone_delEach {ks : List String} (hnodup : ks.Nodup) (hks : ∀ k ∈ ks, (d.get k).isSome = true) :
    (delEach ks : Statements ν τ Unit).alone d es = some (.ok (), d.delAll ks, es) := by
  induction ks generalizing d with
  | nil => rfl
  | cons k ks ih =>
    rw [List.nodup_cons] at hnodup
    have hrest : ∀ k' ∈ ks, ((d.del k).get k').isSome = true := by
      intro k' hk'
      rw [Dict.get_del_of_ne d (ne_of_mem_of_not_mem hk' hnodup.1)]
      exact hks k' (List.mem_cons_of_mem _ hk')
    simp only [delEach, alone_bind, del, alone_access, hks k List.mem_cons_self, if_true, Option.bind_some]
    exact ih (d.del k) hnodup.2 hrest

/-- The keys that a comprehension has selected are all there to be deleted. -/
theorem alone_delEach_selected (keep : String × ν → Bool) :
    (delEach ((d.items.filter keep).map Prod.fst) : Statements ν τ Unit).alone d es =
      some (.ok (), d.delAll ((d.items.filter keep).map Prod.fst), es) := by
  apply alone_delEach
  · exact d.nodup.sublist (List.filter_sublist.map _)
  · intro k hk
    obtain ⟨⟨k', v⟩, hmem, rfl⟩ := List.mem_map.1 hk
    rw [(d.mem_items_iff).1 (List.mem_filter.1 hmem).1]
    rfl

end Alone

/-- When the method runs through, it does what `g` says of a clock that its readings show. -/
def Does (p : Statements ν τ α) (d : Dict String ν) (g : Clock τ → α × Dict String ν) : Prop :=
  ∀ es b d', p.alone d es = some (b, d', []) → ∃ c : Clock τ, c.ReadFrom es ∧ b = .ok (g c).1 ∧ d' = (g c).2

namespace Does

variable {p : Statements ν τ α} {d : Dict String ν} {g : Clock τ → α × Dict String ν}

theorem bind_pure (h : Does p d g) {k : α → Statements ν τ β} {f : α → β} (hk : ∀ a, k a = pure (f a)) :
    Does (p >>= k) d fun c => (f (g c).1, (g c).2) := by
  intro es b d' hrun
  rw [alone_bind, Option.bind_eq_some_iff] at hrun
  obtain ⟨⟨a, d₁, es₁⟩, hp, hrest⟩ := hrun
  cases a with
  | ok a =>
    simp only [hk, alone_pure, Option.some.injEq, Prod.mk.injEq] at hrest
    obtain ⟨rfl, rfl, rfl⟩ := hrest
    obtain ⟨c, hc, ha, hd⟩ := h es _ _ hp
    cases ha
    exact ⟨c, hc, rfl, hd⟩
  | error e =>
    simp only [Option.some.injEq, Prod.mk.injEq] at hrest
    obtain ⟨rfl, rfl, rfl⟩ := hrest
    obtain ⟨c, -, ha, -⟩ := h es _ _ hp
    cases ha

theorem map (h : Does p d g) (f : α → β) : Does (f <$> p) d fun c => (f (g c).1, (g c).2) := by
  have hmap : f <$> p = p >>= fun a => pure (f a) := by
    show ExceptT.map f p = ExceptT.bind p _
    unfold ExceptT.map ExceptT.bind
    congr 2
  rw [hmap]
  exact h.bind_pure fun _ => rfl

theorem locked (h : Does p d g) : Does (locked p) d g := by
  intro es b d' hrun
  rw [alone_locked] at hrun
  exact h es b d' hrun

/-- The dictionary is looked up first. -/
theorem get {key : String} {k : Option ν → Statements ν τ α} (h : Does (k (d.get key)) d g) :
    Does (do let found ← Statements.get key; k found) d g := h

/-- The monotonic clock is read, and then the method runs through. -/
theorem monotonic {k : τ → Statements ν τ α}
    (hk : ∀ c es, (k c.monotonic).alone d es = some (.ok (g c).1, (g c).2, es)) :
    Does (do let now ← Statements.monotonic; k now) d g := by
  intro es b d' hrun
  cases es with
  | nil => simp at hrun
  | cons c es =>
    rw [alone_bind, alone_monotonic_cons, Option.bind_some] at hrun
    simp only [hk, Option.some.injEq, Prod.mk.injEq] at hrun
    obtain ⟨rfl, rfl, rfl⟩ := hrun
    exact ⟨c, ⟨by simp, by simp⟩, rfl, rfl⟩

/-- No clock is read. -/
theorem timeless [Inhabited τ] (h : ∀ c es, p.alone d es = some (.ok (g c).1, (g c).2, es)) : Does p d g := by
  intro es b d' hrun
  rw [h ⟨default, 0⟩] at hrun
  simp only [Option.some.injEq, Prod.mk.injEq] at hrun
  obtain ⟨rfl, rfl, rfl⟩ := hrun
  exact ⟨⟨default, 0⟩, ⟨nofun, nofun⟩, rfl, rfl⟩

section Prelude

variable [Add τ] [Inhabited τ] {ts : Option Int} {ttl : Option τ}

/-- Clocks are read before the lock is taken, as far as they are needed. -/
theorem stamped {k : Int → Option τ → Statements ν τ α}
    (hk : ∀ c es, (k (ts.getD c.timeNs) (ttl.map (c.monotonic + ·))).alone d es = some (.ok (g c).1, (g c).2, es)) :
    Does (do let ts ← stamp ts; let expiresAt ← expiry ttl; k ts expiresAt) d g := by
  intro es b d' hrun
  -- the clock that the readings show, and what is left of them
  have hclock : ∃ (c : Clock τ) (rest : List (Clock τ)), (rest = [] → c.ReadFrom es) ∧
      (k (ts.getD c.timeNs) (ttl.map (c.monotonic + ·))).alone d rest = some (b, d', []) := by
    rw [alone_bind] at hrun
    cases ts with
    | some ts =>
      cases ttl with
      | none => exact ⟨⟨default, 0⟩, es, fun h => ⟨by simp [h], by simp [h]⟩, hrun⟩
      | some ttl =>
        cases es with
        | nil => cases hrun
        | cons c rest => exact ⟨c, rest, fun h => ⟨by simp, by simp [h]⟩, hrun⟩
    | none =>
      cases es with
      | nil => cases hrun
      | cons c rest =>
        cases ttl with
        | none => exact ⟨c, rest, fun h => ⟨by simp, by simp [h]⟩, hrun⟩
        | some ttl =>
          cases rest with
          | nil => cases hrun
          | cons c' rest => exact ⟨⟨c'.monotonic, c.timeNs⟩, rest, fun h => ⟨by simp, by simp [h]⟩, hrun⟩
  obtain ⟨c, rest, hread, hrun⟩ := hclock
  rw [hk] at hrun
  simp only [Option.some.injEq, Prod.mk.injEq] at hrun
  obtain ⟨rfl, rfl, rfl⟩ := hrun
  exact ⟨c, hread rfl, rfl, rfl⟩

theorem stamp {k : Int → Statements ν τ α}
    (hk : ∀ c es, (k (ts.getD c.timeNs)).alone d es = some (.ok (g c).1, (g c).2, es)) :
    Does (do let ts ← Statements.stamp ts; k ts) d g :=
  -- nothing is read for the expiry of an entry without one
  have h : Does (do let ts ← Statements.stamp ts; let _ ← Statements.expiry (none : Option τ); k ts) d g :=
    stamped hk
  h

theorem expiry {k : Option τ → Statements ν τ α}
    (hk : ∀ c es, (k (ttl.map (c.monotonic + ·))).alone d es = some (.ok (g c).1, (g c).2, es)) :
    Does (do let expiresAt ← Statements.expiry ttl; k expiresAt) d g :=
  have h : Does (do let _ ← Statements.stamp (some 0); let expiresAt ← Statements.expiry ttl; k expiresAt) d g :=
    stamped hk
  h

end Prelude

/-! Comprehensions and sweeps under the lock. -/

variable (d)

theorem listing (keep : τ → String × ν → Bool) (out : String × ν → α) :
    Does (Statements.locked do
        let now ← Statements.monotonic
        comprehension (keep now) out) d
      fun c => ((d.items.filter (keep c.monotonic)).map out, d) :=
  locked (monotonic fun _ es => alone_comprehension d es _ _)

private theorem alone_sweep (keep : String × ν → Bool) (es : List (Clock τ)) :
    (do
      let ks ← comprehension keep Prod.fst
      delEach ks
      return ks.length : Statements ν τ Nat).alone d es =
    some (.ok ((d.items.filter keep).map Prod.fst).length, d.delAll ((d.items.filter keep).map Prod.fst), es) := by
  rw [alone_bind, alone_comprehension, Option.bind_some]
  simp only [alone_bind, alone_delEach_selected, Option.bind_some, alone_pure]

theorem purging (keep : τ → String × ν → Bool) :
    Does (Statements.locked do
        let now ← Statements.monotonic
        let ks ← comprehension (keep now) Prod.fst
        delEach ks
        return ks.length) d
      fun c => (((d.items.filter (keep c.monotonic)).map Prod.fst).length,
        d.delAll ((d.items.filter (keep c.monotonic)).map Prod.fst)) :=
  locked (monotonic fun _ es => alone_sweep d _ es)

theorem flushing [Inhabited τ] (keep : String × ν → Bool) :
    Does (Statements.locked do
        let ks ← comprehension keep Prod.fst
        delEach ks
        return ks.length : Statements ν τ Nat) d
      fun _ => (((d.items.filter keep).map Prod.fst).length, d.delAll ((d.items.filter keep).map Prod.fst)) :=
  locked (timeless fun _ es => alone_sweep d keep es)

theorem clearing [Inhabited τ] : Does (Statements.locked clear : Statements ν τ Unit) d fun _ => ((), Dict.empty) :=
  locked (timeless fun _ _ => rfl)

end Does

end Statements

section Does

open Statements (Does)

variable [LinearOrder τ] [Add τ] [Inhabited τ]

namespace LocalLWWStore.Method

variable (d : Dict String (Entry V τ))

omit [LinearOrder τ] in
theorem does_set (key : String) (value : PyObj V) (ttl : Option τ) (ts : Option Int) :
    Does (set key value ttl ts) d fun c =>
      (((⟨d⟩ : LocalLWWStore V τ).set c key value ttl ts).1,
        ((⟨d⟩ : LocalLWWStore V τ).set c key value ttl ts).2.data) := by
  apply Does.stamped
  intro c es
  simp only [Statements.alone_locked, Statements.alone_bind, Statements.get, Statements.alone_access,
    Option.bind_some, id, LocalLWWStore.set, entry]
  cases d.get key with
  | none => simp [Statements.set, put]
  | some e =>
    by_cases h : e.ts > ts.getD c.timeNs
    · simp [h]
    · simp [h, Statements.set, put]

omit [LinearOrder τ] in
theorem does_delete (key : String) (ts : Option Int) :
    Does (delete key ts) d fun c =>
      (((⟨d⟩ : LocalLWWStore V τ).delete c key ts).1, ((⟨d⟩ : LocalLWWStore V τ).delete c key ts).2.data) := by
  apply Does.stamp
  intro c es
  simp only [Statements.alone_locked, Statements.alone_bind, Statements.get, Statements.alone_access,
    Option.bind_some, id, LocalLWWStore.delete, entry]
  cases d.get key with
  | none => simp [Statements.set, put]
  | some e =>
    by_cases h : e.ts ≤ ts.getD c.timeNs
    · simp [h, Statements.set, put]
    · simp [h]

omit [Add τ] in
theorem does_getVersioned (key : String) :
    Does (getVersioned key) d fun c =>
      (((⟨d⟩ : LocalLWWStore V τ).getVersioned c key).1, ((⟨d⟩ : LocalLWWStore V τ).getVersioned c key).2.data) := by
  apply Does.locked
  apply Does.get
  cases he : d.get key with
  | none => exact Does.timeless fun c es => by simp [LocalLWWStore.getVersioned, entry, he]
  | some e =>
    obtain ⟨stored, expiresAt, ts⟩ := e
    cases stored with
    | tombstone => exact Does.timeless fun c es => by simp [LocalLWWStore.getVersioned, entry, he]
    | value v =>
      cases expiresAt with
      | none => exact Does.timeless fun c es => by simp [LocalLWWStore.getVersioned, entry, he]
      | some x =>
        apply Does.monotonic
        intro c es
        by_cases hx : x < c.monotonic
        · simp [LocalLWWStore.getVersioned, entry, Statements.del, he, hx]
        · simp [LocalLWWStore.getVersioned, entry, he, hx]

omit [Add τ] in
theorem does_get (key : String) :
    Does (get key) d fun c =>
      (((⟨d⟩ : LocalLWWStore V τ).get c key).1, ((⟨d⟩ : LocalLWWStore V τ).get c key).2.data) := by
  let f : Option (Versioned V) → PyObj V := fun
    | none => none
    | some r => if r.isTombstone then none else r.value
  have hf : ∀ c, (⟨d⟩ : LocalLWWStore V τ).get c key =
      (f ((⟨d⟩ : LocalLWWStore V τ).getVersioned c key).1, ((⟨d⟩ : LocalLWWStore V τ).getVersioned c key).2) := by
    intro c
    unfold LocalLWWStore.get
    split <;> rename_i h <;> rw [h]
  simp only [hf]
  refine (does_getVersioned d key).bind_pure ?_
  intro a
  cases a <;> rfl

/-- Every method does what the operation of the store does. -/
theorem does_body (op : StoreOp V τ) :
    Does (body op) d fun c => ((op.apply c ⟨d⟩).1, (op.apply c ⟨d⟩).2.data) := by
  cases op with
  | set k v ttl ts => exact (does_set d k v ttl ts).map _
  | get k => exact (does_get d k).map _
  | getVersioned k => exact (does_getVersioned d k).map _
  | delete k ts => exact (does_delete d k ts).map _
  | «exists» k => exact ((does_get d k).bind_pure fun _ => rfl).map _
  | keys => exact (Does.listing d (fun now p => p.2.listed now) Prod.fst).map _
  | scan p => exact (Does.listing d (fun now q => isIn p q.1 && q.2.listed now) fun q => (q.1, q.2.version.value)).map _
  | scanKeys p => exact (Does.listing d (fun now q => isIn p q.1 && q.2.listed now) Prod.fst).map _
  | flushAll => exact (Does.clearing d).map _
  | flushKeys p => exact (Does.flushing d fun q => isIn p q.1).map _
  | clear => exact (Does.clearing d).map _
  | purgeExpired => exact (Does.purging d fun now p => p.2.sweepable now).map _
  | len => exact ((Does.listing d (fun now p => p.2.listed now) Prod.fst).bind_pure fun _ => rfl).map _

end LocalLWWStore.Method

namespace LocalStore.Method

variable (d : Dict String (PyObj V × Option τ))

omit [Add τ] in
theorem does_get (key : String) :
    Does (get key) d fun c => (((⟨d⟩ : LocalStore V τ).get c key).1, ((⟨d⟩ : LocalStore V τ).get c key).2.data) := by
  apply Does.locked
  apply Does.get
  cases he : d.get key with
  | none => exact Does.timeless fun c es => by simp [LocalStore.get, entry, he]
  | some e =>
    obtain ⟨value, expiresAt⟩ := e
    cases expiresAt with
    | none => exact Does.timeless fun c es => by simp [LocalStore.get, entry, he]
    | some x =>
      apply Does.monotonic
      intro c es
      by_cases hx : x < c.monotonic
      · simp [LocalStore.get, entry, Statements.del, he, hx]
      · simp [LocalStore.get, entry, he, hx]

theorem does_body (call : PlainCall V τ) :
    Does (body call) d fun c => ((call.apply c ⟨d⟩).1, (call.apply c ⟨d⟩).2.data) := by
  cases call with
  | set k v ttl ts =>
    have h : Does (set k v ttl) d fun c =>
        (((⟨d⟩ : LocalStore V τ).set c k v ttl).1, ((⟨d⟩ : LocalStore V τ).set c k v ttl).2.data) :=
      Does.expiry fun _ _ => rfl
    exact h.map _
  | get k => exact (does_get d k).map _
  | delete k ts =>
    have h : Does (delete k) d fun _ =>
        (((⟨d⟩ : LocalStore V τ).delete k).1, ((⟨d⟩ : LocalStore V τ).delete k).2.data) :=
      Does.locked (Does.timeless fun _ _ => rfl)
    exact h.map _
  | «exists» k => exact ((does_get d k).bind_pure fun _ => rfl).map _
  | keys => exact (Does.listing d (fun now p => listed now p.2) Prod.fst).map _
  | scan p => exact (Does.listing d (fun now q => isIn p q.1 && listed now q.2) fun q => (q.1, q.2.1)).map _
  | scanKeys p => exact (Does.listing d (fun now q => isIn p q.1 && listed now q.2) Prod.fst).map _
  | flushAll => exact (Does.clearing d).map _
  | flushKeys p => exact (Does.flushing d fun q => isIn p q.1).map _
  | clear => exact (Does.clearing d).map _
  | purgeExpired => exact (Does.purging d fun now p => sweepable now p.2).map _
  | len => exact ((Does.listing d (fun now p => listed now p.2) Prod.fst).bind_pure fun _ => rfl).map _

end LocalStore.Method

end Does

/-! ### The methods use the lock properly -/

namespace Statements

structure Lockless (p : Statements ν τ α) : Prop where
  prog : Prog.Lockless p.run

structure Guarded (p : Statements ν τ α) : Prop where
  prog : Prog.Guarded p.run

namespace Lockless

theorem pure (a : α) : Lockless (pure a : Statements ν τ α) := ⟨trivial⟩

theorem access {f : Dict String ν → Dict String ν} {found : Dict String ν → Except StoreError α} :
    Lockless (access f found : Statements ν τ α) := ⟨fun _ => trivial⟩

theorem monotonic : Lockless (monotonic : Statements ν τ τ) := ⟨fun _ => trivial⟩

theorem bind {p : Statements ν τ α} {k : α → Statements ν τ β} (hp : p.Lockless) (hk : ∀ a, (k a).Lockless) :
    (p >>= k).Lockless := by
  refine ⟨hp.prog.bind ?_⟩
  intro r
  cases r with
  | ok a => exact (hk a).prog
  | error e => trivial

theorem comprehension (keep : String × ν → Bool) (out : String × ν → α) :
    Lockless (comprehension keep out : Statements ν τ (List α)) := by
  have hiterate : ∀ size m acc, Lockless (iterate keep out size m acc : Statements ν τ (List α)) := by
    intro size m
    induction m with
    | zero => exact fun acc => bind access fun _ => pure acc
    | succ m ih =>
      intro acc
      refine bind access ?_
      intro found
      cases found with
      | none => exact pure acc
      | some p => exact ih _
  exact bind access fun n => hiterate n n []

theorem delEach (ks : List String) : Lockless (delEach ks : Statements ν τ Unit) := by
  induction ks with
  | nil => exact pure ()
  | cons k ks ih => exact bind access fun _ => ih

theorem sweep (keep : String × ν → Bool) :
    Lockless (do
      let ks ← Statements.comprehension keep Prod.fst
      Statements.delEach ks
      return ks.length : Statements ν τ Nat) :=
  bind (comprehension keep Prod.fst) fun ks => bind (delEach ks) fun _ => pure ks.length

theorem guarded {p : Statements ν τ α} (h : p.Lockless) : (locked p).Guarded := ⟨h.prog.guarded⟩

end Lockless

namespace Guarded

theorem bind_pure {p : Statements ν τ α} (h : p.Guarded) {k : α → Statements ν τ β} {f : α → β}
    (hk : ∀ a, k a = pure (f a)) : (p >>= k).Guarded := by
  refine ⟨h.prog.bind ?_⟩
  intro r
  cases r with
  | ok a =>
    refine ⟨.ok (f a), ?_⟩
    show (k a).run = _
    rw [hk]
    rfl
  | error e => exact ⟨.error e, rfl⟩

theorem map {p : Statements ν τ α} (h : p.Guarded) (f : α → β) : (f <$> p).Guarded := by
  refine ⟨h.prog.bind ?_⟩
  intro r
  cases r with
  | ok a => exact ⟨.ok (f a), rfl⟩
  | error e => exact ⟨.error e, rfl⟩

theorem stamp {ts : Option Int} {k : Int → Statements ν τ α} (hk : ∀ ts, (k ts).Guarded) :
    (Statements.stamp ts >>= k).Guarded := by
  cases ts with
  | none => exact ⟨fun c => (hk c.timeNs).prog⟩
  | some ts => exact ⟨(hk ts).prog⟩

theorem expiry [Add τ] {ttl : Option τ} {k : Option τ → Statements ν τ α} (hk : ∀ x, (k x).Guarded) :
    (Statements.expiry ttl >>= k).Guarded := by
  cases ttl with
  | none => exact ⟨(hk none).prog⟩
  | some ttl => exact ⟨fun c => (hk (some (c.monotonic + ttl))).prog⟩

theorem listing (keep : τ → String × ν → Bool) (out : String × ν → α) :
    Guarded (locked do
      let now ← Statements.monotonic
      Statements.comprehension (keep now) out) :=
  (Lockless.bind Lockless.monotonic fun now => Lockless.comprehension (keep now) out).guarded

theorem purging (keep : τ → String × ν → Bool) :
    Guarded (locked do
      let now ← Statements.monotonic
      let ks ← Statements.comprehension (keep now) Prod.fst
      Statements.delEach ks
      return ks.length) :=
  (Lockless.bind Lockless.monotonic fun now => Lockless.sweep (keep now)).guarded

theorem clearing : Guarded (locked clear : Statements ν τ Unit) := Lockless.access.guarded

end Guarded

end Statements

section Guarded

open Statements (Lockless Guarded)

variable [LinearOrder τ] [Add τ]

namespace LocalLWWStore.Method

omit [LinearOrder τ] in
theorem guarded_set (key : String) (value : PyObj V) (ttl : Option τ) (ts : Option Int) :
    Guarded (set key value ttl ts) := by
  refine Guarded.stamp fun ts => Guarded.expiry fun x => (Lockless.bind Lockless.access fun existing => ?_).guarded
  split
  · exact Lockless.pure false
  · exact Lockless.bind Lockless.access fun _ => Lockless.pure true

omit [LinearOrder τ] [Add τ] in
theorem guarded_delete (key : String) (ts : Option Int) : Guarded (delete key ts : Statements (Entry V τ) τ Bool) := by
  refine Guarded.stamp fun ts => (Lockless.bind Lockless.access fun existing => ?_).guarded
  dsimp only
  split
  · exact Lockless.bind Lockless.access fun _ => Lockless.pure _
  · exact Lockless.bind (Lockless.pure PUnit.unit) fun _ => Lockless.pure _

omit [Add τ] in
theorem guarded_getVersioned (key : String) : Guarded (getVersioned key : Statements (Entry V τ) τ _) := by
  refine (Lockless.bind Lockless.access fun found => ?_).guarded
  split
  · exact Lockless.pure _
  · split
    · exact Lockless.pure _
    · exact Lockless.pure _
    · refine Lockless.bind Lockless.monotonic fun now => ?_
      split
      · exact Lockless.bind Lockless.access fun _ => Lockless.pure _
      · exact Lockless.pure _

omit [Add τ] in
theorem guarded_get (key : String) : Guarded (get key : Statements (Entry V τ) τ _) := by
  refine (guarded_getVersioned key).bind_pure (f := fun
    | none => none
    | some r => if r.isTombstone then none else r.value) ?_
  intro r
  cases r <;> rfl

omit [Add τ] in
theorem guarded_keys : Guarded (keys : Statements (Entry V τ) τ (List String)) :=
  Guarded.listing (fun now (p : String × Entry V τ) => p.2.listed now) Prod.fst

theorem guarded_body (op : StoreOp V τ) : Guarded (body op) := by
  have hclear : Guarded (Statements.locked Statements.clear : Statements (Entry V τ) τ Unit) := Guarded.clearing
  cases op with
  | set k v ttl ts => exact (guarded_set k v ttl ts).map _
  | get k => exact (guarded_get k).map _
  | getVersioned k => exact (guarded_getVersioned k).map _
  | delete k ts => exact (guarded_delete k ts).map _
  | «exists» k => exact ((guarded_get k).bind_pure (f := fun v : PyObj V => v.isSome) fun _ => rfl).map _
  | keys => exact guarded_keys.map _
  | scan p =>
    have h : Guarded (scan p : Statements (Entry V τ) τ (List (String × PyObj V))) :=
      Guarded.listing (fun now (q : String × Entry V τ) => isIn p q.1 && q.2.listed now) fun q =>
        (q.1, q.2.version.value)
    exact h.map _
  | scanKeys p =>
    have h : Guarded (scanKeys p : Statements (Entry V τ) τ (List String)) :=
      Guarded.listing (fun now (q : String × Entry V τ) => isIn p q.1 && q.2.listed now) Prod.fst
    exact h.map _
  | flushAll => exact hclear.map _
  | flushKeys p => exact (Lockless.sweep fun q : String × Entry V τ => isIn p q.1).guarded.map _
  | clear => exact hclear.map _
  | purgeExpired => exact (Guarded.purging fun now (p : String × Entry V τ) => p.2.sweepable now).map _
  | len => exact (guarded_keys.bind_pure (f := List.length) fun _ => rfl).map _

end LocalLWWStore.Method

namespace LocalStore.Method

omit [Add τ] in
theorem guarded_get (key : String) : Guarded (get key : Statements (PyObj V × Option τ) τ _) := by
  refine (Lockless.bind Lockless.access fun found => ?_).guarded
  split
  · exact Lockless.pure _
  · exact Lockless.pure _
  · refine Lockless.bind Lockless.monotonic fun now => ?_
    split
    · exact Lockless.bind Lockless.access fun _ => Lockless.pure _
    · exact Lockless.pure _

omit [Add τ] in
theorem guarded_keys : Guarded (keys : Statements (PyObj V × Option τ) τ (List String)) :=
  Guarded.listing (fun now p => listed now p.2) Prod.fst

theorem guarded_body (call : PlainCall V τ) : Guarded (body call) := by
  have hclear : Guarded (Statements.locked Statements.clear : Statements (PyObj V × Option τ) τ Unit) :=
    Guarded.clearing
  cases call with
  | set k v ttl ts =>
    have h : Guarded (set k v ttl) :=
      Guarded.expiry fun x => (Lockless.bind Lockless.access fun _ => Lockless.pure true).guarded
    exact h.map _
  | get k => exact (guarded_get k).map _
  | delete k ts =>
    have h : Guarded (delete k : Statements (PyObj V × Option τ) τ Bool) :=
      (Lockless.bind Lockless.access fun _ => Lockless.pure _).guarded
    exact h.map _
  | «exists» k => exact ((guarded_get k).bind_pure (f := fun v : PyObj V => v.isSome) fun _ => rfl).map _
  | keys => exact guarded_keys.map _
  | scan p => exact (Guarded.listing (fun now q => isIn p q.1 && listed now q.2) fun q => (q.1, q.2.1)).map _
  | scanKeys p => exact (Guarded.listing (fun now q => isIn p q.1 && listed now q.2) Prod.fst).map _
  | flushAll => exact hclear.map _
  | flushKeys p => exact (Lockless.sweep fun q => isIn p q.1).guarded.map _
  | clear => exact hclear.map _
  | purgeExpired => exact (Guarded.purging fun now p => sweepable now p.2).map _
  | len => exact (guarded_keys.bind_pure (f := List.length) fun _ => rfl).map _

end LocalStore.Method

end Guarded

/-! ### The stores -/

section Stores

open Base (Shared Turn)

variable [LinearOrder τ] [Add τ]

/-- Threads call the methods of a `LocalLWWStore`, which is empty at first. -/
def LocalLWWStore.threaded (turns : List (Turn (Clock τ) (StoreOp V τ))) :
    Shared (Clock τ) (Dict String (Entry V τ)) (StoreOp V τ) (Except StoreError (StoreResult V)) :=
  Shared.reached (fun op => (Method.body op).run) Dict.empty turns

/-- Threads call the methods of a `LocalStore`, which is empty at first. -/
def LocalStore.threaded (turns : List (Turn (Clock τ) (PlainCall V τ))) :
    Shared (Clock τ) (Dict String (PyObj V × Option τ)) (PlainCall V τ) (Except StoreError (StoreResult V)) :=
  Shared.reached (fun call => (Method.body call).run) Dict.empty turns

/-- An operation with these readings raises nothing, and answers and leaves the dictionary as a whole operation. -/
def LocalLWWStore.Whole (d : Dict String (Entry V τ)) (op : StoreOp V τ × List (Clock τ))
    (b : Except StoreError (StoreResult V)) (d' : Dict String (Entry V τ)) : Prop :=
  ∃ c : Clock τ, c.ReadFrom op.2 ∧ b = .ok (op.1.apply c ⟨d⟩).1 ∧ d' = (op.1.apply c ⟨d⟩).2.data

def LocalStore.Whole (d : Dict String (PyObj V × Option τ)) (call : PlainCall V τ × List (Clock τ))
    (b : Except StoreError (StoreResult V)) (d' : Dict String (PyObj V × Option τ)) : Prop :=
  ∃ c : Clock τ, c.ReadFrom call.2 ∧ b = .ok (call.1.apply c ⟨d⟩).1 ∧ d' = (call.1.apply c ⟨d⟩).2.data

/-- Both stores are thread-safe.  Whichever way the statements of the threads are interleaved, no call raises, and the
calls can be put in an order that keeps real time and in which each answers as a whole operation made with the clock
readings of the call; and the threads that are under way can always get on until all have returned. -/
theorem stores_thread_safe [Inhabited τ] (versioned : List (Turn (Clock τ) (StoreOp V τ)))
    (plain : List (Turn (Clock τ) (PlainCall V τ))) :
    ((LocalLWWStore.threaded versioned).history.Linearizable LocalLWWStore.Whole Dict.empty ∧
      ∀ c, ∃ rest : List Nat, ∀ t ∈ (LocalLWWStore.threaded (versioned ++ rest.map fun i => .step i c)).threads,
        t.ended.isSome = true) ∧
    (LocalStore.threaded plain).history.Linearizable LocalStore.Whole Dict.empty ∧
      ∀ c, ∃ rest : List Nat, ∀ t ∈ (LocalStore.threaded (plain ++ rest.map fun i => .step i c)).threads,
        t.ended.isSome = true := by
  have hversioned : ∀ op : StoreOp V τ, (LocalLWWStore.Method.body op).run.Guarded :=
    fun op => (LocalLWWStore.Method.guarded_body op).prog
  have hplain : ∀ call : PlainCall V τ, (LocalStore.Method.body call).run.Guarded :=
    fun call => (LocalStore.Method.guarded_body call).prog
  refine ⟨⟨?_, Shared.can_finish hversioned Dict.empty versioned⟩, ?_, Shared.can_finish hplain Dict.empty plain⟩
  · refine (Shared.linearizable hversioned Dict.empty versioned).mono ?_
    intro d op b d' halone
    exact LocalLWWStore.Method.does_body d op.1 op.2 b d' halone
  · refine (Shared.linearizable hplain Dict.empty plain).mono ?_
    intro d call b d' halone
    exact LocalStore.Method.does_body d call.1 call.2 b d' halone

end Stores

end DLStorage
