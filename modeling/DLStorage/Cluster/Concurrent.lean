import DLStorage.Node.Writes
import DLStorage.Store.Writes
import DLStorage.Base.Slots

/-!
# Calls that overlap

Any number of `get`, `set` and `delete` calls of blocking and async nodes are under way at once.  A call asks its
replicas one at a time: a blocking node in ring order, stopping a write at the first handle that raises, and an async
node in any order.  Between two of its steps the other calls go on, replicas are swept, and requests that were sent are
executed by their replicas without the answer being read, because it was lost, came too late or because the pool sends
the request again.

When nothing interrupts a call it does what the node's method does; this is shown in `Cluster.Alone`.
-/

namespace DLStorage

open Base (Schedule after)

/-- What a call is to do.  A write has the timestamp that the node reads before it asks the first replica. -/
inductive ApiRequest (V τ : Type)
  | get (key : String)
  | write (w : Write V τ)

/-- What the handle of a replica returns or raises. -/
inductive HandleOutcome (V : Type)
  | version (r : Except PyError (Option (Versioned V)))
  | ack (r : Except PyError Bool)

inductive ApiResult (V : Type)
  | value (v : PyObj V)
  | ack (b : Bool)
  | raised (e : PyError)
  deriving DecidableEq

structure ApiCall (V τ : Type) where
  issuer : NodeInfo
  blocking : Bool
  request : ApiRequest V τ
  /-- The nodes on whose stores the call works. -/
  replicas : List NodeInfo
  /-- Whether the ring has no node for the key, so that the node calls its own store. -/
  direct : Bool
  /-- For each replica asked so far, what became of the request, if it was sent over the network, and the outcome. -/
  asked : NodeInfo → Option (Link × HandleOutcome V)
  /-- The number of steps before the call was made. -/
  began : Nat
  /-- The number of steps before the call returned, and its result. -/
  ended : Option (Nat × ApiResult V)

structure ClusterState (V τ : Type) where
  stores : Stores V τ
  calls : List (ApiCall V τ)
  /-- The number of steps so far. -/
  now : Nat

inductive ApiEvent (V τ : Type)
  | get (issuer : NodeInfo) (blocking : Bool) (key : String)
  | set (issuer : NodeInfo) (blocking : Bool) (timeNs : Nat) (key : String) (value : PyObj V) (ttl : Option τ)
  | delete (issuer : NodeInfo) (blocking : Bool) (timeNs : Nat) (key : String)
  /-- Call `i` asks a replica; a request over the network comes to what `link` says. -/
  | ask (i : Nat) (n : NodeInfo) (c : Clock τ) (link : Link)
  /-- A replica executes a request of call `i` whose answer nobody reads. -/
  | stray (i : Nat) (n : NodeInfo) (c : Clock τ)
  | finish (i : Nat)
  | purge (n : NodeInfo) (c : Clock τ)

abbrev ApiRun (V τ : Type) := List (ApiEvent V τ)

variable {V τ : Type}

/-- The write through a handle. -/
def Write.call (h : ReplicaHandle V τ) : Write V τ → StoreCall V τ Bool
  | set k v ttl ts => h.set k v ttl ts
  | delete k ts => h.delete k ts

namespace ApiRequest

def key : ApiRequest V τ → String
  | get k => k
  | write w => w.key

/-- The request as it travels to a remote replica. -/
def message : ApiRequest V τ → Message V τ
  | get k => getMessage k
  | write (.set k v ttl ts) => setMessage k v ttl ts
  | write (.delete k ts) => deleteMessage k ts

/-- Put the request to a handle. -/
def ask (h : ReplicaHandle V τ) (s : LocalLWWStore V τ) : ApiRequest V τ → HandleOutcome V × LocalLWWStore V τ
  | get k => let (r, s') := h.getVersioned k s; (.version r, s')
  | write w => let (r, s') := w.call h s; (.ack r, s')

end ApiRequest

namespace HandleOutcome

def toVersion : HandleOutcome V → Option (Versioned V)
  | version r => outcomeVersion r
  | ack _ => none

def toAck : HandleOutcome V → Option (Except PyError Bool)
  | version _ => none
  | ack r => some r

/-- The outcome ends a comprehension over the replicas. -/
def raises : HandleOutcome V → Bool
  | ack (.error _) => true
  | version _ | ack (.ok _) => false

end HandleOutcome

namespace ApiCall

variable (call : ApiCall V τ)

/-- Who made the call, whether that blocks, and the request. -/
def made : NodeInfo × Bool × ApiRequest V τ := (call.issuer, call.blocking, call.request)

/-- The first replica in ring order that was not asked. -/
def next : Option NodeInfo := call.replicas.find? fun n => (call.asked n).isNone

/-- A blocking write whose handle for some replica has raised. -/
def stopped : Bool := call.blocking && call.replicas.any fun n => (call.asked n).any fun x => x.2.raises

def mayAsk (n : NodeInfo) : Bool :=
  call.ended.isNone && !call.stopped &&
    if call.blocking then decide (call.next = some n) else decide (n ∈ call.replicas) && (call.asked n).isNone

def mayEnd : Bool := call.ended.isNone && (call.stopped || call.next.isNone)

/-- The request is on its way to a remote replica, or was. -/
def sent (n : NodeInfo) : Bool := decide (n ≠ call.issuer) && (call.mayAsk n || (call.asked n).isSome)

/-- The version that a replica has reported. -/
def version (n : NodeInfo) : Option (Versioned V) := (call.asked n).bind fun x => x.2.toVersion

/-- What the handles have answered to a write, in ring order. -/
def acks : List (Except PyError Bool) := call.replicas.filterMap fun n => (call.asked n).bind fun x => x.2.toAck

def result : ApiResult V :=
  match call.request with
  | .get _ =>
    if call.direct then .value (visible (call.version call.issuer))
    else .value (resolve (call.replicas.map call.version))
  | .write _ =>
    if call.direct then .ack true
    else if call.blocking then
      match call.acks.mapM id with
      | .ok results => .ack (results.any id)
      | .error e => .raised e
    else .ack (call.acks.any fun r => r = .ok true)

/-- The call after a replica was asked. -/
def record (n : NodeInfo) (x : Link × HandleOutcome V) : ApiCall V τ :=
  { call with asked := Function.update call.asked n (some x) }

/-- The call after its return. -/
def finish (t : Nat) : ApiCall V τ := { call with ended := some (t, call.result) }

/-- The replica has taken part in the call, and the call knows. -/
def reached (n : NodeInfo) : Bool := (call.asked n).any fun x => decide (n = call.issuer ∨ x.1 = .answers)

section Record

variable (n : NodeInfo) (x : Link × HandleOutcome V)

@[simp] theorem version_record : (call.record n x).version n = x.2.toVersion := by
  simp [record, version]

theorem reached_record : (call.record n x).reached n = true ↔ n = call.issuer ∨ x.1 = .answers := by
  have hasked : (call.record n x).asked n = some x := Function.update_self ..
  unfold reached
  rw [hasked]
  exact decide_eq_true_iff

variable {n} {m : NodeInfo} (hm : m ≠ n)

include hm

theorem version_record_of_ne : (call.record n x).version m = call.version m := by
  have hasked : (call.record n x).asked m = call.asked m := Function.update_of_ne hm ..
  unfold version
  rw [hasked]

theorem reached_record_of_ne : (call.record n x).reached m = call.reached m := by
  have hasked : (call.record n x).asked m = call.asked m := Function.update_of_ne hm ..
  unfold reached
  rw [hasked]
  rfl

end Record

end ApiCall

variable [LinearOrder τ] [Add τ]

/-- The handle for a replica in a node of either kind. -/
def NodeView.handle (view : NodeView) (blocking : Bool) (link : Link) (c : Clock τ) (n : NodeInfo) :
    ReplicaHandle V τ :=
  if blocking then (view.sync fun _ => link).handle (fun _ => c) n
  else AsyncStorageNode.handle (view.async (fun _ => link) Schedule.inOrder) (fun _ => c) n

namespace ClusterState

variable (s : ClusterState V τ)

section Steps

variable (sha256 : String → List UInt8) (ring : RendezvousRing) (replication : Nat)

/-- No call is under way, and the stores are empty. -/
def empty : ClusterState V τ := ⟨fun _ => LocalLWWStore.empty, [], 0⟩

def setStore (n : NodeInfo) (store : LocalLWWStore V τ) : ClusterState V τ :=
  { s with stores := Function.update s.stores n store }

def setCall (i : Nat) (f : ApiCall V τ → ApiCall V τ) : ClusterState V τ := { s with calls := s.calls.modify i f }

/-- A call that has not asked any replica. -/
def newCall (issuer : NodeInfo) (blocking : Bool) (request : ApiRequest V τ) : ApiCall V τ where
  issuer := issuer
  blocking := blocking
  request := request
  replicas := (NodeView.mk issuer ring replication).replicas sha256 request.key
  direct := decide (ring.getNodes sha256 request.key replication = [])
  asked _ := none
  began := s.now
  ended := none

/-- A node begins a call. -/
def begin (issuer : NodeInfo) (blocking : Bool) (request : ApiRequest V τ) : ClusterState V τ :=
  { s with calls := s.calls ++ [s.newCall sha256 ring replication issuer blocking request] }

/-- Replica `n` has been asked by call `i`, and is left with the given store. -/
def record (i : Nat) (n : NodeInfo) (x : Link × HandleOutcome V) (store : LocalLWWStore V τ) : ClusterState V τ :=
  (s.setStore n store).setCall i fun call => call.record n x

/-- Call `i` asks replica `n`. -/
def ask (i : Nat) (n : NodeInfo) (c : Clock τ) (link : Link) : ClusterState V τ :=
  match s.calls[i]? with
  | none => s
  | some call =>
    if call.mayAsk n then
      let handle := (NodeView.mk call.issuer ring replication).handle call.blocking link c n
      let (outcome, store) := call.request.ask handle (s.stores n)
      s.record i n (link, outcome) store
    else s

def stray (i : Nat) (n : NodeInfo) (c : Clock τ) : ClusterState V τ :=
  match s.calls[i]? with
  | none => s
  | some call => if call.sent n then s.setStore n (transact c call.request.message (s.stores n)).2 else s

def finish (i : Nat) : ClusterState V τ :=
  match s.calls[i]? with
  | none => s
  | some call =>
    if call.mayEnd then s.setCall i fun call => call.finish s.now else s

/-- The state after an event; an event that is out of place changes nothing. -/
def perform : ApiEvent V τ → ClusterState V τ
  | .get issuer blocking key => s.begin sha256 ring replication issuer blocking (.get key)
  | .set issuer blocking timeNs key value ttl =>
    s.begin sha256 ring replication issuer blocking (.write (.set key value ttl timeNs))
  | .delete issuer blocking timeNs key =>
    s.begin sha256 ring replication issuer blocking (.write (.delete key timeNs))
  | .ask i n c link => s.ask ring replication i n c link
  | .stray i n c => s.stray i n c
  | .finish i => s.finish i
  | .purge n c => s.setStore n ((s.stores n).purgeExpired c).2

def apply (e : ApiEvent V τ) : ClusterState V τ := { s.perform sha256 ring replication e with now := s.now + 1 }

end Steps

end ClusterState

/-- The state after a run that begins with empty stores. -/
def concurrentAfter (sha256 : String → List UInt8) (ring : RendezvousRing) (replication : Nat) (run : ApiRun V τ) :
    ClusterState V τ :=
  after (fun s e => s.apply sha256 ring replication e) ClusterState.empty run


/-! ### What a handle answers -/

section Ask

variable (view : NodeView) (blocking : Bool) (link : Link) (c : Clock τ) (n : NodeInfo) (store : LocalLWWStore V τ)

theorem NodeView.handle_eq :
    (view.handle blocking link c n : ReplicaHandle V τ) = (view.sync fun _ => link).handle (fun _ => c) n := by
  cases blocking with
  | true => rfl
  | false =>
    unfold NodeView.handle AsyncStorageNode.handle StorageNode.handle
    rfl

theorem ApiRequest.version_ask (k : String) :
    ((ApiRequest.get k).ask (view.handle blocking link c n) store).1.toVersion =
      view.reported (fun _ => link) (fun _ => c) k (fun _ => store) n := by
  rw [NodeView.handle_eq, ← NodeView.outcome_handle_sync]
  rfl

theorem ApiRequest.store_ask_get (k : String) :
    ((ApiRequest.get k).ask (view.handle blocking link c n) store).2 =
      if view.Reaches (fun _ => link) n then (store.getVersioned c k).2 else store := by
  rw [NodeView.handle_eq]
  exact NodeView.store_handle_sync view (fun _ => link) (fun _ => c) k (fun _ => store) n

omit [LinearOrder τ] [Add τ] in
private theorem ask_of_call {h : ReplicaHandle V τ} {w : Write V τ} {s s' : LocalLWWStore V τ} {r : Except PyError Bool}
    (hc : w.call h s = (r, s')) : (ApiRequest.write w).ask h s = (.ack r, s') := by
  show (HandleOutcome.ack (w.call h s).1, (w.call h s).2) = _
  rw [hc]

/-- A write at a replica that takes part. -/
theorem ApiRequest.ask_write {view : NodeView} {link : Link} {n : NodeInfo} (h : view.Reaches (fun _ => link) n)
    (w : Write V τ) : ∃ b, (ApiRequest.write w).ask (view.handle blocking link c n) store =
      (.ack (.ok b), (w.apply c store).2) := by
  rw [NodeView.handle_eq]
  by_cases hn : n = view.info
  · subst hn
    rw [NodeView.handle_sync_self]
    cases w <;> exact ⟨_, rfl⟩
  · have hlink : link = .answers := h.resolve_left hn
    rw [NodeView.handle_sync_of_ne _ _ hn]
    cases w with
    | set k v ttl ts => exact ⟨true, ask_of_call (remote_set hlink c store k v ttl ts)⟩
    | delete k ts => exact ⟨_, ask_of_call (remote_delete hlink c store k ts)⟩

/-- A write at a replica that does not answer. -/
theorem ApiRequest.ask_write_of_not {view : NodeView} {link : Link} {n : NodeInfo}
    (h : ¬ view.Reaches (fun _ => link) n) (w : Write V τ) :
    ∃ r, (ApiRequest.write w).ask (view.handle blocking link c n) store = (.ack r, store) := by
  have hn : n ≠ view.info := fun hn => h (Or.inl hn)
  have hlink : link ≠ .answers := fun hl => h (Or.inr hl)
  rw [NodeView.handle_eq, NodeView.handle_sync_of_ne _ _ hn]
  have hpool : ∀ msg, ∃ r, StoreCall.map isOk (networkPool (fun _ => link) n c msg) store = (r, store) := by
    intro msg
    rcases NodeView.networkPool_of_ne (fun _ => link) hlink c msg store with hs | ⟨e, hs⟩ <;>
      exact ⟨_, by unfold StoreCall.map; rw [hs]⟩
  cases w with
  | set k v ttl ts =>
    obtain ⟨r, hr⟩ := hpool (setMessage k v ttl ts)
    exact ⟨r, ask_of_call hr⟩
  | delete k ts =>
    obtain ⟨r, hr⟩ := hpool (deleteMessage k ts)
    exact ⟨r, ask_of_call hr⟩

theorem ApiRequest.store_transact (request : ApiRequest V τ) :
    (transact c request.message store).2 =
      match request with
      | .get k => (store.getVersioned c k).2
      | .write w => (w.apply c store).2 := by
  cases request with
  | get k => exact congrArg Prod.snd (transact_get c store k)
  | write w =>
    cases w with
    | set k v ttl ts => rfl
    | delete k ts => exact congrArg Prod.snd (transact_delete c store k ts)

end Ask

/-! ### What a step does -/

/-- The call that an event begins: its issuer, whether that blocks, and the request. -/
def ApiEvent.made : ApiEvent V τ → Option (NodeInfo × Bool × ApiRequest V τ)
  | .get issuer blocking key => some (issuer, blocking, .get key)
  | .set issuer blocking timeNs key value ttl => some (issuer, blocking, .write (.set key value ttl timeNs))
  | .delete issuer blocking timeNs key => some (issuer, blocking, .write (.delete key timeNs))
  | _ => none

namespace ClusterState

variable {s : ClusterState V τ} {n : NodeInfo}

variable (s n) in
/-- What a step can do to the entry of a key at a replica: leave it, drop it because it has expired, or put that of the
write of a call which the store admits. -/
def Effect (store : LocalLWWStore V τ) : Prop :=
  ∀ k, store.entry k = (s.stores n).entry k ∨
    (∃ now, LocalLWWStore.Evicts now ((s.stores n).entry k) (store.entry k)) ∨
    ∃ (i : Nat) (call : ApiCall V τ) (w : Write V τ) (c : Clock τ), s.calls[i]? = some call ∧
      call.request = .write w ∧ w.key = k ∧ (s.stores n).Admits k w.ts ∧ store.entry k = some (w.entry c)

theorem effect_refl : s.Effect n (s.stores n) := fun _ => Or.inl rfl

theorem effect_update {store : LocalLWWStore V τ} (h : s.Effect n store) (m : NodeInfo) :
    s.Effect m (Function.update s.stores n store m) := by
  by_cases hm : m = n
  · subst hm
    rw [Function.update_self]
    exact h
  · rw [Function.update_of_ne hm]
    exact effect_refl

theorem effect_getVersioned (c : Clock τ) (k : String) : s.Effect n ((s.stores n).getVersioned c k).2 :=
  fun x => Or.inr (Or.inl ⟨_, (s.stores n).evicts_getVersioned c k x⟩)

theorem effect_purgeExpired (c : Clock τ) : s.Effect n ((s.stores n).purgeExpired c).2 :=
  fun x => Or.inr (Or.inl ⟨_, (s.stores n).evicts_purgeExpired c x⟩)

theorem effect_write {i : Nat} {call : ApiCall V τ} {w : Write V τ} (hcall : s.calls[i]? = some call)
    (hw : call.request = .write w) (c : Clock τ) : s.Effect n (w.apply c (s.stores n)).2 := by
  intro k
  rw [Write.entry_apply]
  split
  · rename_i h
    obtain ⟨rfl, hadmits⟩ := h
    exact Or.inr (Or.inr ⟨i, call, w, c, hcall, hw, rfl, hadmits, rfl⟩)
  · exact Or.inl rfl

/-- A request leaves the store of the asked replica as the replica does when it takes part, and untouched otherwise. -/
theorem effect_ask {i : Nat} {call : ApiCall V τ} (hcall : s.calls[i]? = some call) (view : NodeView) (blocking : Bool)
    (link : Link) (c : Clock τ) :
    s.Effect n (call.request.ask (view.handle blocking link c n) (s.stores n)).2 := by
  cases hreq : call.request with
  | get k =>
    rw [ApiRequest.store_ask_get]
    split
    · exact effect_getVersioned c k
    · exact effect_refl
  | write w =>
    by_cases hreach : view.Reaches (fun _ => link) n
    · obtain ⟨b, hb⟩ := ApiRequest.ask_write blocking c (s.stores n) hreach w
      rw [hb]
      exact effect_write hcall hreq c
    · obtain ⟨r, hr⟩ := ApiRequest.ask_write_of_not blocking c (s.stores n) hreach w
      rw [hr]
      exact effect_refl

variable (sha256 : String → List UInt8) (ring : RendezvousRing) (replication : Nat)

variable (s) in
/-- What an event can do: begin a call; have a call ask a replica; let a call return; or change stores behind the back
of all calls. -/
theorem perform_cases (e : ApiEvent V τ) :
    (∃ issuer blocking request, e.made = some (issuer, blocking, request) ∧
      s.perform sha256 ring replication e = s.begin sha256 ring replication issuer blocking request) ∨
    (e.made = none ∧ ∃ i n c link call, s.calls[i]? = some call ∧ call.mayAsk n = true ∧
      s.perform sha256 ring replication e =
        s.record i n (link, (call.request.ask
            ((NodeView.mk call.issuer ring replication).handle call.blocking link c n) (s.stores n)).1)
          (call.request.ask ((NodeView.mk call.issuer ring replication).handle call.blocking link c n)
            (s.stores n)).2) ∨
    (e.made = none ∧ ∃ i call, s.calls[i]? = some call ∧ call.mayEnd = true ∧
      s.perform sha256 ring replication e =
        s.setCall i fun call => call.finish s.now) ∨
    (e.made = none ∧ ∃ stores, s.perform sha256 ring replication e = { s with stores := stores } ∧
      ∀ n, s.Effect n (stores n)) := by
  have hsame : e.made = none → s.perform sha256 ring replication e = s →
      e.made = none ∧ ∃ stores, s.perform sha256 ring replication e = { s with stores := stores } ∧
        ∀ n, s.Effect n (stores n) := fun hmade heq => ⟨hmade, s.stores, heq, fun _ => effect_refl⟩
  have hstore : ∀ n store, e.made = none → s.Effect n store →
      s.perform sha256 ring replication e = s.setStore n store →
      e.made = none ∧ ∃ stores, s.perform sha256 ring replication e = { s with stores := stores } ∧
        ∀ n, s.Effect n (stores n) := by
    intro n store hmade heffect heq
    exact ⟨hmade, Function.update s.stores n store, heq, effect_update heffect⟩
  cases e with
  | get issuer blocking key => exact Or.inl ⟨_, _, _, rfl, rfl⟩
  | set issuer blocking timeNs key value ttl => exact Or.inl ⟨_, _, _, rfl, rfl⟩
  | delete issuer blocking timeNs key => exact Or.inl ⟨_, _, _, rfl, rfl⟩
  | ask i n c link =>
    cases hcall : s.calls[i]? with
    | none => exact Or.inr (Or.inr (Or.inr (hsame rfl (by simp [perform, ask, hcall]))))
    | some call =>
      by_cases hmay : call.mayAsk n = true
      · exact Or.inr (Or.inl ⟨rfl, i, n, c, link, call, hcall, hmay, by simp [perform, ask, hcall, hmay]⟩)
      · exact Or.inr (Or.inr (Or.inr (hsame rfl (by simp [perform, ask, hcall, hmay]))))
  | stray i n c =>
    refine Or.inr (Or.inr (Or.inr ?_))
    cases hcall : s.calls[i]? with
    | none => exact hsame rfl (by simp [perform, stray, hcall])
    | some call =>
      by_cases hsent : call.sent n = true
      · have hstray : s.perform sha256 ring replication (.stray i n c) =
            s.setStore n (transact c call.request.message (s.stores n)).2 := by
          show s.stray i n c = _
          unfold stray
          rw [hcall]
          exact if_pos hsent
        refine hstore n _ rfl ?_ hstray
        rw [ApiRequest.store_transact]
        cases hreq : call.request with
        | get k => exact effect_getVersioned c k
        | write w => exact effect_write hcall hreq c
      · exact hsame rfl (by simp [perform, stray, hcall, hsent])
  | finish i =>
    cases hcall : s.calls[i]? with
    | none => exact Or.inr (Or.inr (Or.inr (hsame rfl (by simp [perform, finish, hcall]))))
    | some call =>
      by_cases hmay : call.mayEnd = true
      · exact Or.inr (Or.inr (Or.inl ⟨rfl, i, call, hcall, hmay, by simp [perform, finish, hcall, hmay]⟩))
      · exact Or.inr (Or.inr (Or.inr (hsame rfl (by simp [perform, finish, hcall, hmay]))))
  | purge n c => exact Or.inr (Or.inr (Or.inr (hstore n _ rfl (effect_purgeExpired c) rfl)))

end ClusterState

end DLStorage
