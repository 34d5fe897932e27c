import DLStorage.Cluster.Concurrent

/-!
# Calls that nothing interrupts

When the steps of a call follow one another, the call does what the method of the node does: it has the same result and
leaves the stores in the same state (`call_alone`).  An async call may ask its replicas in any order; a blocking write
stops at the first handle that raises, as the list comprehension of the blocking node does.

What the pools of the nodes do to a store and return is some executions of the request whose answers nobody reads,
followed by one step of the call (`muxPool_eq`, `asyncPool_eq`, `ClusterState.ask_pool`).
-/

namespace DLStorage

open Base (Schedule after after_concat comprehension fan)

variable {V τ : Type}

private theorem eq_ok_decide {r : Except PyError Bool} (h : ∃ b, r = .ok b) : r = .ok (decide (r = .ok true)) := by
  obtain ⟨b, rfl⟩ := h
  cases b <;> rfl

private theorem mapM_error {ε β : Type} {l : List (Except ε β)} (hok : ∀ r ∈ l, ∃ b, r = .ok b) (e : ε) :
    (l ++ [Except.error e]).mapM id = Except.error e := by
  induction l with
  | nil => rfl
  | cons r l ih =>
    obtain ⟨b, rfl⟩ := hok r (List.mem_cons_self ..)
    rw [List.cons_append, List.mapM_cons, ih (fun r hr => hok r (List.mem_cons_of_mem _ hr))]
    rfl

private theorem filter_mem_left {α : Type} [DecidableEq α] {l r : List α} (h : (l ++ r).Nodup) :
    (l ++ r).filter (· ∈ l) = l := by
  have hdisjoint := List.disjoint_of_nodup_append h
  have hl : l.filter (· ∈ l) = l := List.filter_eq_self.2 fun a ha => decide_eq_true ha
  have hr : r.filter (· ∈ l) = [] := List.filter_eq_nil_iff.2 fun a ha => by
    rw [decide_eq_true_iff]
    exact fun hmem => hdisjoint hmem ha
  rw [List.filter_append, hl, hr, List.append_nil]

/-- The result of a method that returns or raises. -/
def ApiResult.ofExcept : Except PyError Bool → ApiResult V
  | .ok b => .ack b
  | .error e => .raised e

variable [LinearOrder τ] [Add τ]

section Method

variable (sha256 : String → List UInt8) (ring : RendezvousRing) (replication : Nat) (link : NodeInfo → Link)
  (clock : NodeInfo → Clock τ) (sched : Schedule NodeInfo (LocalLWWStore V τ) PyError (Option (Versioned V)))
  (sched' : Schedule NodeInfo (LocalLWWStore V τ) PyError Bool)

/-- The method of a node that an event calls: its result and the stores that it leaves. -/
def ApiEvent.method (stores : Stores V τ) : ApiEvent V τ → Option (ApiResult V × Stores V τ)
  | .get issuer true key =>
    let (v, stores') := ((NodeView.mk issuer ring replication).sync link).get sha256 clock key stores
    some (.value v, stores')
  | .get issuer false key =>
    let (v, stores') := ((NodeView.mk issuer ring replication).async link sched).get sha256 clock key stores
    some (.value v, stores')
  | .set issuer true _ key value ttl =>
    let (r, stores') := ((NodeView.mk issuer ring replication).sync link).set sha256 clock key value ttl stores
    some (.ofExcept r, stores')
  | .set issuer false _ key value ttl =>
    let (b, stores') :=
      ((NodeView.mk issuer ring replication).async link sched).set sha256 clock sched' key value ttl stores
    some (.ack b, stores')
  | .delete issuer true _ key =>
    let (r, stores') := ((NodeView.mk issuer ring replication).sync link).delete sha256 clock key stores
    some (.ofExcept r, stores')
  | .delete issuer false _ key =>
    let (b, stores') := ((NodeView.mk issuer ring replication).async link sched).delete sha256 clock sched' key stores
    some (.ack b, stores')
  | _ => none

end Method

/-- The time that a write reads is that on the clock of its node. -/
def ApiEvent.Timed (clock : NodeInfo → Clock τ) : ApiEvent V τ → Prop
  | .set issuer _ timeNs _ _ _ | .delete issuer _ timeNs _ => (clock issuer).timeNs = timeNs
  | _ => True

/-- An order in which a call asks its replicas: that of the ring when the call blocks. -/
def NodeView.Asks (view : NodeView) (sha256 : String → List UInt8) (blocking : Bool) (key : String)
    (order : List NodeInfo) : Prop :=
  order.Perm (view.replicas sha256 key) ∧ (blocking = true → order = view.replicas sha256 key)

theorem NodeView.replicas_nodup (sha256 : String → List UInt8) (view : NodeView) (key : String) :
    (view.replicas sha256 key).Nodup := by
  by_cases h : view.ring.getNodes sha256 key view.replication = []
  · rw [replicas_of_nil sha256 view h]
    exact List.nodup_singleton _
  · rw [replicas_of_ne sha256 view h]
    exact RendezvousRing.getNodes_nodup _ _ _

theorem NodeView.handle_eq_sync (view : NodeView) (blocking : Bool) (link : NodeInfo → Link)
    (clock : NodeInfo → Clock τ) (n : NodeInfo) :
    (view.handle blocking (link n) (clock n) n : ReplicaHandle V τ) = (view.sync link).handle clock n := by
  rw [NodeView.handle_eq]
  rfl

/-- A read of a node whose ring is empty. -/
theorem NodeView.get_fst_of_nil (sha256 : String → List UInt8) (view : NodeView) (link : NodeInfo → Link)
    (clock : NodeInfo → Clock τ) (key : String) (stores : Stores V τ)
    (h : view.ring.getNodes sha256 key view.replication = []) :
    ((view.sync link).get sha256 clock key stores).1 =
      visible ((stores view.info).report (clock view.info).monotonic key) := by
  show (if view.ring.getNodes sha256 key view.replication = [] then
    (((stores view.info).get (clock view.info) key).1, _) else _).1 = _
  rw [if_pos h]
  exact Except.ok.inj (congrArg Prod.fst (local_get view.info (clock view.info) (stores view.info) key))

namespace ClusterState

section Alone

variable (sha256 : String → List UInt8) (ring : RendezvousRing) (replication : Nat) (s : ClusterState V τ)

/-- The steps of a call, with nothing in between. -/
def alone (e : ApiEvent V τ) (clock : NodeInfo → Clock τ) (link : NodeInfo → Link) (order : List NodeInfo) :
    ClusterState V τ :=
  after (fun s e => s.apply sha256 ring replication e) s
    (e :: order.map (fun n => .ask s.calls.length n (clock n) (link n)) ++ [.finish s.calls.length])

theorem alone_eq (e : ApiEvent V τ) (clock : NodeInfo → Clock τ) (link : NodeInfo → Link) (order : List NodeInfo) :
    s.alone sha256 ring replication e clock link order =
      (after (fun s e => s.apply sha256 ring replication e) (s.apply sha256 ring replication e)
        (order.map fun n => .ask s.calls.length n (clock n) (link n))).apply sha256 ring replication
          (.finish s.calls.length) := by
  show after _ (s.apply sha256 ring replication e) (_ ++ [_]) = _
  exact after_concat _ _

end Alone

/-- The result of a call that has returned. -/
def resultOf (s : ClusterState V τ) (i : Nat) : Option (ApiResult V) :=
  s.calls[i]?.bind fun call => call.ended.map Prod.snd

/-! ### The steps of the call -/

theorem perform_of_made {sha256 : String → List UInt8} {ring : RendezvousRing} {replication : Nat}
    {s : ClusterState V τ} {e : ApiEvent V τ} {issuer : NodeInfo} {blocking : Bool} {request : ApiRequest V τ}
    (he : e.made = some (issuer, blocking, request)) :
    s.perform sha256 ring replication e = s.begin sha256 ring replication issuer blocking request := by
  rcases perform_cases s sha256 ring replication e with ⟨issuer', blocking', request', he', heq⟩ | ⟨he', -⟩ | ⟨he', -⟩ |
    ⟨he', -⟩
  · obtain ⟨rfl, rfl, rfl⟩ : issuer' = issuer ∧ blocking' = blocking ∧ request' = request := by
      simpa using he'.symm.trans he
    exact heq
  all_goals rw [he] at he'; cases he'

section Steps

variable (ring : RendezvousRing) (replication : Nat) (clock : NodeInfo → Clock τ) (link : NodeInfo → Link)
  (s : ClusterState V τ) (call : ApiCall V τ)

/-- What asking a replica gives and leaves when it is in its first state. -/
private def outcomeAt (n : NodeInfo) : HandleOutcome V × LocalLWWStore V τ :=
  call.request.ask ((NodeView.mk call.issuer ring replication).handle call.blocking (link n) (clock n) n) (s.stores n)

/-- The call after it has asked the replicas of a list. -/
private def askedAll (asked : List NodeInfo) : ApiCall V τ :=
  { call with
    asked := fun n => if n ∈ asked then some (link n, (outcomeAt ring replication clock link s call n).1) else none }

/-- The state in which the replicas of a list have been asked. -/
private structure Midway (asked : List NodeInfo) (t : ClusterState V τ) : Prop where
  stores : t.stores = fun n => if n ∈ asked then (outcomeAt ring replication clock link s call n).2 else s.stores n
  calls : t.calls = s.calls ++ [askedAll ring replication clock link s call asked]

variable {ring replication clock link s call} {asked : List NodeInfo} {t : ClusterState V τ}

private theorem askedAll_asked (n : NodeInfo) :
    (askedAll ring replication clock link s call asked).asked n =
      if n ∈ asked then some (link n, (outcomeAt ring replication clock link s call n).1) else none := rfl

private theorem Midway.getElem (h : Midway ring replication clock link s call asked t) :
    t.calls[s.calls.length]? = some (askedAll ring replication clock link s call asked) := by
  rw [h.calls]
  exact List.getElem?_concat_length

private theorem Midway.modify (h : Midway ring replication clock link s call asked t) (f : ApiCall V τ → ApiCall V τ) :
    t.calls.modify s.calls.length f = s.calls ++ [f (askedAll ring replication clock link s call asked)] := by
  rw [h.calls]
  exact Base.modify_concat_length

private theorem record_askedAll (n : NodeInfo) :
    (askedAll ring replication clock link s call asked).record n
      (link n, (outcomeAt ring replication clock link s call n).1) =
        askedAll ring replication clock link s call (asked ++ [n]) := by
  have hasked : Function.update (askedAll ring replication clock link s call asked).asked n
      (some (link n, (outcomeAt ring replication clock link s call n).1)) =
        (askedAll ring replication clock link s call (asked ++ [n])).asked := by
    funext m
    rw [askedAll_asked]
    by_cases hm : m = n
    · subst hm
      simp
    · rw [Function.update_of_ne hm, askedAll_asked]
      simp [hm]
  unfold ApiCall.record
  rw [hasked]
  rfl

variable (sha256 : String → List UInt8)

private theorem Midway.ask (h : Midway ring replication clock link s call asked t) {n : NodeInfo} (hn : n ∉ asked)
    (hmay : (askedAll ring replication clock link s call asked).mayAsk n = true) :
    Midway ring replication clock link s call (asked ++ [n])
      (t.apply sha256 ring replication (.ask s.calls.length n (clock n) (link n))) := by
  have hstore : t.stores n = s.stores n := by
    rw [h.stores]
    exact if_neg hn
  have hperform : t.perform sha256 ring replication (.ask s.calls.length n (clock n) (link n)) =
      t.record s.calls.length n (link n, (outcomeAt ring replication clock link s call n).1)
        (outcomeAt ring replication clock link s call n).2 := by
    show t.ask ring replication s.calls.length n (clock n) (link n) = _
    unfold ClusterState.ask
    rw [h.getElem]
    simp only [hmay, if_true, hstore]
    rfl
  unfold ClusterState.apply
  rw [hperform]
  constructor
  · funext m
    show Function.update t.stores n _ m = _
    by_cases hm : m = n
    · subst hm
      simp
    · rw [Function.update_of_ne hm, h.stores]
      simp [hm]
  · show t.calls.modify _ _ = _
    rw [h.modify]
    rw [record_askedAll]

private theorem Midway.skip (h : Midway ring replication clock link s call asked t) {n : NodeInfo}
    (hmay : (askedAll ring replication clock link s call asked).mayAsk n = false) :
    Midway ring replication clock link s call asked
      (t.apply sha256 ring replication (.ask s.calls.length n (clock n) (link n))) := by
  have hperform : t.perform sha256 ring replication (.ask s.calls.length n (clock n) (link n)) = t := by
    show t.ask ring replication s.calls.length n (clock n) (link n) = _
    unfold ClusterState.ask
    rw [h.getElem]
    simp only [hmay, Bool.false_eq_true, if_false]
  unfold ClusterState.apply
  rw [hperform]
  exact ⟨h.stores, h.calls⟩

private theorem Midway.finish (h : Midway ring replication clock link s call asked t)
    (hmay : (askedAll ring replication clock link s call asked).mayEnd = true) :
    (t.apply sha256 ring replication (.finish s.calls.length)).stores = t.stores ∧
      (t.apply sha256 ring replication (.finish s.calls.length)).resultOf s.calls.length =
        some (askedAll ring replication clock link s call asked).result := by
  have hperform : t.perform sha256 ring replication (.finish s.calls.length) =
      t.setCall s.calls.length fun call => call.finish t.now := by
    show t.finish s.calls.length = _
    unfold ClusterState.finish
    rw [h.getElem]
    simp only [hmay, if_true]
  unfold ClusterState.apply
  rw [hperform]
  refine ⟨rfl, ?_⟩
  show (t.calls.modify _ _)[s.calls.length]?.bind _ = _
  rw [h.modify, List.getElem?_concat_length]
  rfl

/-! #### Asking the replicas of a list -/

private theorem not_stopped (h : call.blocking = true → ∀ n ∈ asked,
    (outcomeAt ring replication clock link s call n).1.raises = false) :
    (askedAll ring replication clock link s call asked).stopped = false := by
  rw [Bool.eq_false_iff]
  intro hstop
  unfold ApiCall.stopped at hstop
  rw [Bool.and_eq_true, List.any_eq_true] at hstop
  obtain ⟨hblocking, n, -, hn⟩ := hstop
  rw [askedAll_asked] at hn
  by_cases hmem : n ∈ asked
  · rw [if_pos hmem, Option.any_some, h hblocking n hmem] at hn
    cases hn
  · rw [if_neg hmem] at hn
    cases hn

private theorem stopped_of_raises (hblocking : call.blocking = true) {n : NodeInfo} (hn : n ∈ call.replicas)
    (hasked : n ∈ asked) (hraises : (outcomeAt ring replication clock link s call n).1.raises = true) :
    (askedAll ring replication clock link s call asked).stopped = true := by
  unfold ApiCall.stopped
  rw [Bool.and_eq_true, List.any_eq_true]
  refine ⟨hblocking, n, hn, ?_⟩
  rw [askedAll_asked, if_pos hasked]
  exact hraises

private theorem isNone_asked (n : NodeInfo) :
    ((askedAll ring replication clock link s call asked).asked n).isNone = !decide (n ∈ asked) := by
  rw [askedAll_asked]
  by_cases hn : n ∈ asked <;> simp [hn]

private theorem mayAsk_next (hended : call.ended = none) {n : NodeInfo} (hn : n ∈ call.replicas) (hnot : n ∉ asked)
    (hring : call.blocking = true → ∃ post, call.replicas = asked ++ n :: post)
    (hquiet : call.blocking = true → ∀ m ∈ asked,
      (outcomeAt ring replication clock link s call m).1.raises = false) :
    (askedAll ring replication clock link s call asked).mayAsk n = true := by
  have hnone : (askedAll ring replication clock link s call asked).ended.isNone = true := by
    show call.ended.isNone = true
    rw [hended]
    rfl
  unfold ApiCall.mayAsk
  rw [hnone, not_stopped hquiet, Bool.not_false, Bool.and_true, Bool.true_and]
  cases hblocking : call.blocking with
  | false =>
    rw [if_neg (show ¬ (askedAll ring replication clock link s call asked).blocking = true by
      show ¬ call.blocking = true
      rw [hblocking]
      exact Bool.false_ne_true)]
    rw [isNone_asked]
    simp [hnot]
    exact hn
  | true =>
    obtain ⟨post, hpost⟩ := hring hblocking
    rw [if_pos (show (askedAll ring replication clock link s call asked).blocking = true from hblocking)]
    have hfirst : ∀ m ∈ asked, ¬ ((askedAll ring replication clock link s call asked).asked m).isNone = true := by
      intro m hm
      rw [isNone_asked]
      simp [hm]
    have hnext : (askedAll ring replication clock link s call asked).next = some n := by
      show call.replicas.find? _ = some n
      rw [hpost, List.find?_append, List.find?_eq_none.2 hfirst, Option.none_or, List.find?_cons_of_pos]
      rw [isNone_asked]
      simp [hnot]
    exact decide_eq_true hnext

private theorem midway_asks (h : Midway ring replication clock link s call [] t) (hended : call.ended = none)
    {order : List NodeInfo} (hnodup : order.Nodup) (hsub : ∀ n ∈ order, n ∈ call.replicas)
    (hring : call.blocking = true → ∃ post, call.replicas = order ++ post)
    (hquiet : call.blocking = true → ∀ n ∈ order.dropLast,
      (outcomeAt ring replication clock link s call n).1.raises = false) :
    Midway ring replication clock link s call order
      (after (fun s e => s.apply sha256 ring replication e) t
        (order.map fun n => .ask s.calls.length n (clock n) (link n))) := by
  induction order using List.reverseRecOn with
  | nil => exact h
  | append_singleton order n ih =>
    rw [List.dropLast_concat] at hquiet
    have hnot : n ∉ order := fun hn => List.disjoint_of_nodup_append hnodup hn (List.mem_singleton_self n)
    rw [List.map_append, List.map_singleton, after_concat]
    refine Midway.ask sha256 (ih ?_ ?_ ?_ ?_) hnot (mayAsk_next hended (hsub n (by simp)) hnot ?_ hquiet)
    · exact (List.nodup_append.1 hnodup).1
    · intro m hm
      exact hsub m (List.mem_append_left _ hm)
    · intro hblocking
      obtain ⟨post, hpost⟩ := hring hblocking
      exact ⟨n :: post, by rw [hpost, List.append_assoc]; rfl⟩
    · intro hblocking m hm
      exact hquiet hblocking m (List.mem_of_mem_dropLast hm)
    · intro hblocking
      obtain ⟨post, hpost⟩ := hring hblocking
      exact ⟨post, by rw [hpost, List.append_assoc]; rfl⟩

/-- A call that has stopped asks no further replicas. -/
private theorem midway_skips (hstop : (askedAll ring replication clock link s call asked).stopped = true)
    (rest : List NodeInfo) (h : Midway ring replication clock link s call asked t) :
    Midway ring replication clock link s call asked
      (after (fun s e => s.apply sha256 ring replication e) t
        (rest.map fun n => .ask s.calls.length n (clock n) (link n))) := by
  induction rest generalizing t with
  | nil => exact h
  | cons n rest ih =>
    refine ih (h.skip sha256 ?_)
    unfold ApiCall.mayAsk
    rw [hstop]
    simp

end Steps

/-! ### Whole calls -/

section Whole

variable {sha256 : String → List UInt8} {ring : RendezvousRing} {replication : Nat} (clock : NodeInfo → Clock τ)
  (link : NodeInfo → Link) (s : ClusterState V τ) {e : ApiEvent V τ} {issuer : NodeInfo} {blocking : Bool}
  {request : ApiRequest V τ} (he : e.made = some (issuer, blocking, request))

/-- What asking a replica gives and leaves when a call of the node is not interrupted. -/
private abbrev outcomeOf (ring : RendezvousRing) (replication : Nat) (clock : NodeInfo → Clock τ)
    (link : NodeInfo → Link) (s : ClusterState V τ) (issuer : NodeInfo) (blocking : Bool) (request : ApiRequest V τ)
    (n : NodeInfo) : HandleOutcome V × LocalLWWStore V τ :=
  request.ask ((NodeView.mk issuer ring replication).handle blocking (link n) (clock n) n) (s.stores n)

include he

private theorem midway_begin :
    Midway ring replication clock link s (s.newCall sha256 ring replication issuer blocking request) []
      (s.apply sha256 ring replication e) := by
  unfold ClusterState.apply
  rw [perform_of_made he]
  constructor
  · funext n
    simp [ClusterState.begin]
  · show s.calls ++ [_] = s.calls ++ [_]
    refine congrArg (fun call => s.calls ++ [call]) ?_
    unfold askedAll newCall
    simp

/-- A call in which no handle stops it asks all replicas and returns. -/
private theorem alone_all {order : List NodeInfo}
    (horder : (NodeView.mk issuer ring replication).Asks sha256 blocking request.key order)
    (hquiet : blocking = true → ∀ n ∈ order,
      (outcomeOf ring replication clock link s issuer blocking request n).1.raises = false) :
    (s.alone sha256 ring replication e clock link order).stores =
        (fun n => if n ∈ (NodeView.mk issuer ring replication).replicas sha256 request.key then
          (outcomeOf ring replication clock link s issuer blocking request n).2 else s.stores n) ∧
      (s.alone sha256 ring replication e clock link order).resultOf s.calls.length =
        some (askedAll ring replication clock link s (s.newCall sha256 ring replication issuer blocking request)
          order).result := by
  have hmem : ∀ n, n ∈ order ↔ n ∈ (NodeView.mk issuer ring replication).replicas sha256 request.key :=
    fun n => horder.1.mem_iff
  have hnodup : order.Nodup := horder.1.nodup_iff.2 (NodeView.replicas_nodup sha256 _ _)
  have hring : blocking = true → ∃ post,
      (NodeView.mk issuer ring replication).replicas sha256 request.key = order ++ post := by
    intro hblocking
    exact ⟨[], by rw [List.append_nil, horder.2 hblocking]⟩
  have hasks := midway_asks sha256 (midway_begin clock link s he) rfl hnodup (fun n hn => (hmem n).1 hn) hring
    (fun hb n hn => hquiet hb n (List.mem_of_mem_dropLast hn))
  have hend : (askedAll ring replication clock link s
      (s.newCall sha256 ring replication issuer blocking request) order).mayEnd = true := by
    have hnext : (askedAll ring replication clock link s
        (s.newCall sha256 ring replication issuer blocking request) order).next = none := by
      refine List.find?_eq_none.2 ?_
      intro n hn
      rw [isNone_asked]
      simp [(hmem n).2 hn]
    unfold ApiCall.mayEnd
    rw [hnext]
    simp [askedAll, newCall]
  obtain ⟨hstores, hresult⟩ := hasks.finish sha256 hend
  rw [alone_eq]
  refine ⟨?_, hresult⟩
  rw [hstores, hasks.stores]
  funext n
  simp only [hmem]
  rfl

omit he in
/-- A blocking call whose handle for a replica raises is over, and the replicas after it are not asked. -/
private theorem alone_raised (he : e.made = some (issuer, true, request)) {pre post : List NodeInfo} {n : NodeInfo}
    (hsplit : (NodeView.mk issuer ring replication).replicas sha256 request.key = pre ++ n :: post)
    (hquiet : ∀ m ∈ pre, (outcomeOf ring replication clock link s issuer true request m).1.raises = false)
    (hraises : (outcomeOf ring replication clock link s issuer true request n).1.raises = true) :
    (s.alone sha256 ring replication e clock link (pre ++ n :: post)).stores =
        (fun m => if m ∈ pre ++ [n] then (outcomeOf ring replication clock link s issuer true request m).2
          else s.stores m) ∧
      (s.alone sha256 ring replication e clock link (pre ++ n :: post)).resultOf s.calls.length =
        some (askedAll ring replication clock link s (s.newCall sha256 ring replication issuer true request)
          (pre ++ [n])).result := by
  have hn : n ∈ (NodeView.mk issuer ring replication).replicas sha256 request.key := by
    rw [hsplit]
    simp
  have happend : pre ++ n :: post = (pre ++ [n]) ++ post := by simp
  have hnodup : (pre ++ n :: post).Nodup := hsplit ▸ NodeView.replicas_nodup sha256 _ _
  rw [happend] at hnodup
  have hsub : ∀ m ∈ pre ++ [n], m ∈ (NodeView.mk issuer ring replication).replicas sha256 request.key := by
    intro m hm
    rw [hsplit, happend]
    exact List.mem_append_left _ hm
  have hbefore : ∀ m ∈ (pre ++ [n]).dropLast,
      (outcomeOf ring replication clock link s issuer true request m).1.raises = false := by
    rw [List.dropLast_concat]
    exact hquiet
  have hasks := midway_asks sha256 (midway_begin clock link s he) rfl (List.nodup_append.1 hnodup).1 hsub
    (fun _ => ⟨post, hsplit.trans happend⟩) (fun _ => hbefore)
  have hstop : (askedAll ring replication clock link s (s.newCall sha256 ring replication issuer true request)
      (pre ++ [n])).stopped = true := stopped_of_raises rfl hn (by simp) hraises
  have hskips := midway_skips sha256 hstop post hasks
  have hend : (askedAll ring replication clock link s
      (s.newCall sha256 ring replication issuer true request) (pre ++ [n])).mayEnd = true := by
    unfold ApiCall.mayEnd
    rw [hstop]
    rfl
  obtain ⟨hstores, hresult⟩ := hskips.finish sha256 hend
  rw [alone_eq, happend, List.map_append, Base.after_append]
  exact ⟨hstores.trans hskips.stores, hresult⟩

end Whole

/-! ### The methods -/

section Methods

variable {sha256 : String → List UInt8} {ring : RendezvousRing} {replication : Nat} {clock : NodeInfo → Clock τ}
  (link : NodeInfo → Link) (s : ClusterState V τ) {e : ApiEvent V τ} {issuer : NodeInfo} {blocking : Bool}
  {order : List NodeInfo}

private theorem version_askedAll {link : NodeInfo → Link} {s : ClusterState V τ} {call : ApiCall V τ} {n : NodeInfo}
    (hn : n ∈ order) :
    (askedAll ring replication clock link s call order).version n =
      (outcomeAt ring replication clock link s call n).1.toVersion := by
  unfold ApiCall.version
  rw [askedAll_asked, if_pos hn]
  rfl

variable (clock) in
/-- A read that nothing interrupts is that of the blocking node. -/
private theorem get_alone {key : String} (he : e.made = some (issuer, blocking, .get key))
    (horder : (NodeView.mk issuer ring replication).Asks sha256 blocking key order) :
    (s.alone sha256 ring replication e clock link order).stores =
        (((NodeView.mk issuer ring replication).sync link).get sha256 clock key s.stores).2 ∧
      (s.alone sha256 ring replication e clock link order).resultOf s.calls.length =
        some (.value (((NodeView.mk issuer ring replication).sync link).get sha256 clock key s.stores).1) := by
  obtain ⟨hstores, hresult⟩ := alone_all clock link s he horder (fun _ _ _ => rfl)
  have hversion : ∀ n ∈ (NodeView.mk issuer ring replication).replicas sha256 key,
      (askedAll ring replication clock link s (s.newCall sha256 ring replication issuer blocking (.get key))
        order).version n = (NodeView.mk issuer ring replication).reported link clock key s.stores n := by
    intro n hn
    rw [version_askedAll (horder.1.mem_iff.2 hn)]
    exact ApiRequest.version_ask (NodeView.mk issuer ring replication) blocking (link n) (clock n) n (s.stores n) key
  constructor
  · rw [hstores, NodeView.get_snd]
    funext n
    unfold NodeView.afterRead
    by_cases hn : n ∈ (NodeView.mk issuer ring replication).replicas sha256 key
    · simp only [hn, true_and, if_true, ApiRequest.key]
      rw [show outcomeOf ring replication clock link s issuer blocking (.get key) n = _ from rfl,
        ApiRequest.store_ask_get]
      rfl
    · simp only [hn, false_and, if_false, ApiRequest.key]
  · rw [hresult]
    refine congrArg some ?_
    show (if decide (ring.getNodes sha256 key replication = []) then _ else _) = _
    by_cases hnil : ring.getNodes sha256 key replication = []
    · have hself := hversion issuer (by
        rw [NodeView.replicas_of_nil sha256 (NodeView.mk issuer ring replication) hnil]
        exact List.mem_singleton_self _)
      rw [decide_eq_true hnil, if_pos rfl]
      show ApiResult.value (visible (ApiCall.version _ issuer)) = _
      rw [hself, NodeView.get_fst_of_nil _ _ _ _ _ _ hnil]
      exact congrArg (fun r => ApiResult.value (visible r))
        (NodeView.reported_self (NodeView.mk issuer ring replication) link clock key s.stores)
    · rw [decide_eq_false hnil, if_neg Bool.false_ne_true, NodeView.get_fst _ _ _ _ _ _ (fun h => absurd h hnil)]
      refine congrArg (fun l => ApiResult.value (resolve l)) (List.map_congr_left ?_)
      intro n hn
      exact hversion n hn

section Write

variable {w : Write V τ} {direct : LocalLWWStore V τ → Clock τ → Int → Bool × LocalLWWStore V τ}
  {call : ReplicaHandle V τ → Int → StoreCall V τ Bool} (node : StorageNode V τ)
  (hts : ((clock node.info).timeNs : Int) = w.ts) (hcall : ∀ h : ReplicaHandle V τ, w.call h = call h w.ts)
  (hhandle : ∀ n, node.handle clock n = (node.view.sync link).handle clock n)

include hts hcall hhandle

/-- Asking a replica for a write is the call of the method on the handle. -/
private theorem outcomeOf_write (n : NodeInfo) :
    outcomeOf node.ring node.replication clock link s node.info blocking (.write w) n =
      (.ack (node.replicaCall clock call n (s.stores n)).1, (node.replicaCall clock call n (s.stores n)).2) := by
  have hsame : w.call (node.view.handle blocking (link n) (clock n) n) = node.replicaCall clock call n := by
    unfold StorageNode.replicaCall
    rw [hcall, NodeView.handle_eq_sync, hhandle, hts]
  show (HandleOutcome.ack (w.call (node.view.handle blocking (link n) (clock n) n) (s.stores n)).1,
    (w.call (node.view.handle blocking (link n) (clock n) n) (s.stores n)).2) = _
  rw [hsame]

/-- The iteration stops at an answer that is an error. -/
private theorem raises_write_iff {n : NodeInfo} :
    (outcomeOf node.ring node.replication clock link s node.info blocking (.write w) n).1.raises = true ↔
      ∃ err, (node.replicaCall clock call n (s.stores n)).1 = .error err := by
  rw [outcomeOf_write link s node hts hcall hhandle]
  cases (node.replicaCall clock call n (s.stores n)).1 with
  | ok b => simp [HandleOutcome.raises]
  | error err => simp [HandleOutcome.raises]

private theorem ok_of_not_raises {n : NodeInfo}
    (h : (outcomeOf node.ring node.replication clock link s node.info blocking (.write w) n).1.raises = false) :
    ∃ b, (node.replicaCall clock call n (s.stores n)).1 = .ok b := by
  cases hr : (node.replicaCall clock call n (s.stores n)).1 with
  | ok b => exact ⟨b, rfl⟩
  | error err =>
    rw [(raises_write_iff link s node hts hcall hhandle).2 ⟨err, hr⟩] at h
    cases h

variable (sha256 blocking order) in
/-- The answers to a write are those of the replicas asked, in ring order. -/
private theorem acks_askedAll :
    (askedAll node.ring node.replication clock link s
      (s.newCall sha256 node.ring node.replication node.info blocking (.write w)) order).acks =
        ((node.view.replicas sha256 w.key).filter (· ∈ order)).map
          fun n => (node.replicaCall clock call n (s.stores n)).1 := by
  have hack : ∀ n, ((askedAll node.ring node.replication clock link s
      (s.newCall sha256 node.ring node.replication node.info blocking (.write w)) order).asked n).bind
        (fun x => x.2.toAck) =
          if n ∈ order then some (node.replicaCall clock call n (s.stores n)).1 else none := by
    intro n
    rw [askedAll_asked]
    by_cases hn : n ∈ order
    · rw [if_pos hn, if_pos hn]
      show (outcomeOf node.ring node.replication clock link s node.info blocking (.write w) n).1.toAck = _
      rw [outcomeOf_write link s node hts hcall hhandle]
      rfl
    · rw [if_neg hn, if_neg hn]
      rfl
  unfold ApiCall.acks
  simp only [hack]
  show List.filterMap _ (node.view.replicas sha256 w.key) = _
  induction node.view.replicas sha256 w.key with
  | nil => rfl
  | cons n ns ih => by_cases hn : n ∈ order <;> simp [hn, ih]

/-- When a write has asked all replicas and its method does not raise, it has the result of the method. -/
private theorem write_all (he : e.made = some (node.info, blocking, .write w))
    (horder : node.view.Asks sha256 blocking w.key order)
    (hquiet : blocking = true → ∀ n ∈ order, ∃ b, (node.replicaCall clock call n (s.stores n)).1 = .ok b) :
    (s.alone sha256 node.ring node.replication e clock link order).stores =
        node.afterWrite sha256 clock w.key call s.stores ∧
      (s.alone sha256 node.ring node.replication e clock link order).resultOf s.calls.length =
        some (.ack (decide (node.ring.getNodes sha256 w.key node.replication = []) ||
          (node.ring.getNodes sha256 w.key node.replication).any
            (fun n => decide ((node.replicaCall clock call n (s.stores n)).1 = .ok true)))) := by
  obtain ⟨hstores, hresult⟩ := alone_all clock link s he horder (by
    intro hb n hn
    obtain ⟨b, hok⟩ := hquiet hb n hn
    rw [outcomeOf_write link s node hts hcall hhandle, hok]
    rfl)
  have hmem : ∀ n, n ∈ order ↔ n ∈ node.view.replicas sha256 w.key := fun n => horder.1.mem_iff
  constructor
  · rw [hstores]
    funext n
    show (if n ∈ node.view.replicas sha256 w.key then _ else _) = _
    rw [outcomeOf_write link s node hts hcall hhandle]
    rfl
  · rw [hresult]
    refine congrArg some ?_
    have hacks := acks_askedAll sha256 link s blocking order node hts hcall hhandle
    rw [List.filter_eq_self.2 (by intro n hn; exact decide_eq_true ((hmem n).2 hn))] at hacks
    show (if decide (node.ring.getNodes sha256 w.key node.replication = []) = true then ApiResult.ack true
      else if blocking then _ else _) = _
    by_cases hnil : node.ring.getNodes sha256 w.key node.replication = []
    · simp only [hnil, decide_true, if_true, Bool.true_or]
    · have hreplicas : node.view.replicas sha256 w.key = node.ring.getNodes sha256 w.key node.replication :=
        NodeView.replicas_of_ne sha256 node.view hnil
      rw [hreplicas] at hacks
      simp only [hnil, decide_false, Bool.false_eq_true, if_false, Bool.false_or]
      rw [hacks]
      cases blocking with
      | false => simp only [Bool.false_eq_true, if_false, List.any_map]; rfl
      | true =>
        have hok : ∀ n ∈ node.ring.getNodes sha256 w.key node.replication,
            (node.replicaCall clock call n (s.stores n)).1 =
              .ok (decide ((node.replicaCall clock call n (s.stores n)).1 = .ok true)) := by
          intro n hn
          exact eq_ok_decide (hquiet rfl n ((hmem n).2 (by rw [hreplicas]; exact hn)))
        have hpure : ∀ f : NodeInfo → Bool, ((node.ring.getNodes sha256 w.key node.replication).map fun n =>
            (.ok (f n) : Except PyError Bool)).mapM id = .ok (List.map f _) :=
          fun f => List.mapM_map.trans (List.mapM_pure (m := Except PyError))
        rw [List.map_congr_left hok, hpure]
        simp only [if_true, List.any_map]
        rfl

/-- A write of a blocking node whose calls all return. -/
private theorem write_alone_quiet (hd : CallsDirect direct call) (he : e.made = some (node.info, true, .write w))
    (hquiet : ∀ n ∈ node.view.replicas sha256 w.key, ∃ b, (node.replicaCall clock call n (s.stores n)).1 = .ok b) :
    (s.alone sha256 node.ring node.replication e clock link (node.view.replicas sha256 w.key)).stores =
        (node.write sha256 clock w.key direct call s.stores).2 ∧
      (s.alone sha256 node.ring node.replication e clock link (node.view.replicas sha256 w.key)).resultOf
        s.calls.length = some (.ofExcept (node.write sha256 clock w.key direct call s.stores).1) := by
  have hok : ∀ n ∈ node.ring.getNodes sha256 w.key node.replication,
      (node.replicaCall clock call n (s.stores n)).1 =
        .ok (decide ((node.replicaCall clock call n (s.stores n)).1 = .ok true)) := by
    intro n hn
    have hreplicas : node.view.replicas sha256 w.key = node.ring.getNodes sha256 w.key node.replication :=
      NodeView.replicas_of_ne sha256 node.view (List.ne_nil_of_mem hn)
    exact eq_ok_decide (hquiet n (by rw [hreplicas]; exact hn))
  obtain ⟨hstores, hresult⟩ := write_all link s node hts hcall
    hhandle he ⟨List.Perm.refl _, fun _ => rfl⟩ (fun _ => hquiet)
  rw [StorageNode.write_eq sha256 node clock w.key s.stores hd hok]
  exact ⟨hstores, hresult⟩

/-- A write of a blocking node one of whose calls raises. -/
private theorem write_alone_raised (hd : CallsDirect direct call) (he : e.made = some (node.info, true, .write w))
    {pre post : List NodeInfo} {n : NodeInfo} (hsplit : node.view.replicas sha256 w.key = pre ++ n :: post)
    (hpre : ∀ m ∈ pre,
      (outcomeOf node.ring node.replication clock link s node.info true (.write w) m).1.raises = false)
    (hraises : (outcomeOf node.ring node.replication clock link s node.info true (.write w) n).1.raises = true) :
    (s.alone sha256 node.ring node.replication e clock link (node.view.replicas sha256 w.key)).stores =
        (node.write sha256 clock w.key direct call s.stores).2 ∧
      (s.alone sha256 node.ring node.replication e clock link (node.view.replicas sha256 w.key)).resultOf
        s.calls.length = some (.ofExcept (node.write sha256 clock w.key direct call s.stores).1) := by
  obtain ⟨hstores, hresult⟩ := alone_raised clock link s he hsplit hpre hraises
  obtain ⟨err, herr⟩ := (raises_write_iff link s node hts hcall hhandle).1 hraises
  have hok : ∀ m ∈ pre, ∃ b, (node.replicaCall clock call m (s.stores m)).1 = .ok b :=
    fun m hm => ok_of_not_raises link s node hts hcall hhandle (hpre m hm)
  have hn : n ∈ node.view.replicas sha256 w.key := by
    rw [hsplit]
    simp
  have hne : node.ring.getNodes sha256 w.key node.replication ≠ [] := by
    -- the call on the local store does not raise
    intro hnil
    rw [NodeView.replicas_of_nil sha256 node.view hnil, List.mem_singleton] at hn
    subst hn
    rw [StorageNode.replicaCall, show node.view.info = node.info from rfl, StorageNode.handle_self, hd] at herr
    cases herr
  have hreplicas : node.ring.getNodes sha256 w.key node.replication = pre ++ n :: post :=
    (NodeView.replicas_of_ne sha256 node.view hne).symm.trans hsplit
  rw [hsplit, hstores, hresult, StorageNode.write_error_split sha256 node clock w.key s.stores hreplicas hok herr]
  constructor
  · funext m
    rw [outcomeOf_write link s node hts hcall hhandle]
  · refine congrArg some ?_
    have hacks := acks_askedAll sha256 link s true (pre ++ [n]) node hts hcall hhandle
    have hfilter : (pre ++ n :: post).filter (· ∈ pre ++ [n]) = pre ++ [n] := by
      have hnodup := NodeView.replicas_nodup sha256 node.view w.key
      rw [hsplit] at hnodup
      rw [show pre ++ n :: post = (pre ++ [n]) ++ post by simp] at hnodup ⊢
      exact filter_mem_left hnodup
    rw [hsplit, hfilter, List.map_append, List.map_singleton, herr] at hacks
    have hmapM := mapM_error (l := pre.map fun m => (node.replicaCall clock call m (s.stores m)).1)
      (by simpa using hok) err
    show (if decide (node.ring.getNodes sha256 w.key node.replication = []) = true then ApiResult.ack true
      else if true then _ else _) = _
    rw [hacks, hmapM, decide_eq_false hne]
    rfl

/-- A write of a blocking node that nothing interrupts. -/
private theorem write_alone_blocking (hd : CallsDirect direct call)
    (he : e.made = some (node.info, true, .write w)) :
    (s.alone sha256 node.ring node.replication e clock link (node.view.replicas sha256 w.key)).stores =
        (node.write sha256 clock w.key direct call s.stores).2 ∧
      (s.alone sha256 node.ring node.replication e clock link (node.view.replicas sha256 w.key)).resultOf
        s.calls.length = some (.ofExcept (node.write sha256 clock w.key direct call s.stores).1) := by
  cases hraise : (node.view.replicas sha256 w.key).find? (fun n =>
      (outcomeOf node.ring node.replication clock link s node.info true (.write w) n).1.raises) with
  | none =>
    refine write_alone_quiet link s node hts hcall hhandle hd he ?_
    intro n hn
    have hquiet := List.find?_eq_none.1 hraise n hn
    exact ok_of_not_raises link s node hts hcall hhandle (by simpa using hquiet)
  | some n =>
    obtain ⟨hraises, pre, post, hsplit, hpre⟩ := List.find?_eq_some_iff_append.1 hraise
    exact write_alone_raised link s node hts hcall hhandle hd he hsplit (fun m hm => by simpa using hpre m hm) hraises

/-- A write of an async node that nothing interrupts. -/
private theorem write_alone_async (hd : CallsDirect direct call)
    (he : e.made = some (node.info, false, .write w)) (horder : node.view.Asks sha256 false w.key order)
    (sched : Schedule NodeInfo (LocalLWWStore V τ) PyError Bool) :
    (s.alone sha256 node.ring node.replication e clock link order).stores =
        (AsyncStorageNode.write sha256 node clock sched w.key direct call s.stores).2 ∧
      (s.alone sha256 node.ring node.replication e clock link order).resultOf s.calls.length =
        some (.ack (AsyncStorageNode.write sha256 node clock sched w.key direct call s.stores).1) := by
  rw [AsyncStorageNode.write_eq sha256 node clock w.key s.stores hd sched]
  exact write_all link s node hts hcall hhandle he horder (fun h => absurd h Bool.false_ne_true)

end Write

end Methods

end ClusterState

/-- A call that nothing interrupts has the result of the node's method, and leaves the stores as the method does. -/
theorem call_alone (sha256 : String → List UInt8) (ring : RendezvousRing) (replication : Nat)
    (s : ClusterState V τ) {e : ApiEvent V τ} {issuer : NodeInfo} {blocking : Bool} {request : ApiRequest V τ}
    (he : e.made = some (issuer, blocking, request)) {clock : NodeInfo → Clock τ} (hclock : e.Timed clock)
    (link : NodeInfo → Link) (sched : Schedule NodeInfo (LocalLWWStore V τ) PyError (Option (Versioned V)))
    (sched' : Schedule NodeInfo (LocalLWWStore V τ) PyError Bool) {order : List NodeInfo}
    (horder : (NodeView.mk issuer ring replication).Asks sha256 blocking request.key order) :
    ∃ result stores, e.method sha256 ring replication link clock sched sched' s.stores = some (result, stores) ∧
      (s.alone sha256 ring replication e clock link order).stores = stores ∧
      (s.alone sha256 ring replication e clock link order).resultOf s.calls.length = some result := by
  cases e with
  | get issuer' blocking' key =>
    obtain ⟨rfl, rfl, rfl⟩ : issuer' = issuer ∧ blocking' = blocking ∧ ApiRequest.get key = request := by
      simpa [ApiEvent.made] using he
    obtain ⟨hstores, hresult⟩ := ClusterState.get_alone clock link s he horder
    cases blocking' with
    | true => exact ⟨_, _, rfl, hstores, hresult⟩
    | false =>
      rw [← NodeView.async_get_eq _ _ _ _ _ _ sched] at hstores hresult
      exact ⟨_, _, rfl, hstores, hresult⟩
  | set issuer' blocking' timeNs key value ttl =>
    obtain ⟨rfl, rfl, rfl⟩ : issuer' = issuer ∧ blocking' = blocking ∧
        ApiRequest.write (Write.set key value ttl timeNs) = request := by
      simpa [ApiEvent.made] using he
    have hts : ((clock issuer').timeNs : Int) = (Write.set key value ttl (timeNs : Int) : Write V τ).ts :=
      congrArg Nat.cast hclock
    cases blocking' with
    | true =>
      rw [horder.2 rfl]
      exact ⟨_, _, rfl, ClusterState.write_alone_blocking link s ((NodeView.mk issuer' ring replication).sync link)
        hts (fun _ => rfl) (fun _ => rfl) (callsDirect_set key value ttl) he⟩
    | false =>
      exact ⟨_, _, rfl, ClusterState.write_alone_async link s
        ((NodeView.mk issuer' ring replication).async link sched) hts (fun _ => rfl) (fun _ => rfl)
        (callsDirect_set key value ttl) he horder sched'⟩
  | delete issuer' blocking' timeNs key =>
    obtain ⟨rfl, rfl, rfl⟩ : issuer' = issuer ∧ blocking' = blocking ∧
        ApiRequest.write (Write.delete key timeNs) = request := by
      simpa [ApiEvent.made] using he
    have hts : ((clock issuer').timeNs : Int) = (Write.delete key (timeNs : Int) : Write V τ).ts :=
      congrArg Nat.cast hclock
    cases blocking' with
    | true =>
      rw [horder.2 rfl]
      exact ⟨_, _, rfl, ClusterState.write_alone_blocking link s ((NodeView.mk issuer' ring replication).sync link)
        hts (fun _ => rfl) (fun _ => rfl) (callsDirect_delete key) he⟩
    | false =>
      exact ⟨_, _, rfl, ClusterState.write_alone_async link s
        ((NodeView.mk issuer' ring replication).async link sched) hts (fun _ => rfl) (fun _ => rfl)
        (callsDirect_delete key) he horder sched'⟩
  | _ => cases he

/-- A set of a blocking node whose second replica is out of reach. -/
def lonelySet : ApiEvent Nat Int := .set (localhost 7003) true 5 "k" (some 1) none

theorem lonelySet_alone : ∃ result stores,
    lonelySet.method sha256Digest localRing 2 (fun _ => .raises .os) (fun _ => ⟨0, 5⟩) Schedule.inOrder
        Schedule.inOrder ClusterState.empty.stores = some (result, stores) ∧
      (ClusterState.empty.alone sha256Digest localRing 2 lonelySet (fun _ => ⟨0, 5⟩) (fun _ => .raises .os)
        [localhost 7003, localhost 7001]).stores = stores ∧
      (ClusterState.empty.alone sha256Digest localRing 2 lonelySet (fun _ => ⟨0, 5⟩) (fun _ => .raises .os)
        [localhost 7003, localhost 7001]).resultOf 0 = some result := by
  have hclock : lonelySet.Timed fun _ => (⟨0, 5⟩ : Clock Int) := rfl
  have horder : (NodeView.mk (localhost 7003) localRing 2).Asks sha256Digest true "k"
      [localhost 7003, localhost 7001] := by
    rw [← NodeView.replicas_localRing (localhost 7003)]
    exact ⟨List.Perm.refl _, fun _ => rfl⟩
  have hmade : lonelySet.made = some (localhost 7003, true, .write (.set "k" (some 1) none 5)) := rfl
  exact call_alone sha256Digest localRing 2 ClusterState.empty hmade hclock (fun _ => .raises .os) Schedule.inOrder
    Schedule.inOrder horder

/-! ### The pools of the nodes -/

section Pools

variable (picklable : Message V τ → Bool) (peer : NodeInfo → Peer) (n : NodeInfo) (c : Clock τ) (msg : Message V τ)
  (s : LocalLWWStore V τ)

/-- The store after some executions of a request. -/
def executed (k : Nat) : LocalLWWStore V τ := (fun s => (transact c msg s).2)^[k] s

/-- A call of a pool is `k` executions of the request whose answers are not read, followed by a request that comes to
what `link` says. -/
def PoolResult (call : Except PyError (Option (Message V τ)) × LocalLWWStore V τ) (k : Nat) (link : Link) : Prop :=
  call = networkPool (fun _ => link) n c msg (executed c msg s k)

/-- How often a replica executes the request of such a call. -/
def executions (k : Nat) (link : Link) : Nat := k + (decide (link = .answers)).toNat

variable {n c msg s} in
/-- What such a call leaves. -/
private theorem PoolResult.store {call : Except PyError (Option (Message V τ)) × LocalLWWStore V τ} {k : Nat}
    {link : Link} (h : PoolResult n c msg s call k link) : call.2 = executed c msg s (executions k link) := by
  rw [show call = _ from h]
  unfold executions executed
  cases link with
  | answers =>
    rw [show k + (decide (Link.answers = .answers)).toNat = k + 1 from rfl, Function.iterate_succ_apply']
    rfl
  | silent => rfl
  | raises e => rfl

/-- The multiplexed pool has a request executed at most once. -/
theorem muxPool_eq :
    ∃ k link, executions k link ≤ 1 ∧ PoolResult n c msg s (muxPool picklable peer n c msg s) k link := by
  unfold muxPool MuxConnectionPool.execute
  cases (peer n).acquire with
  | none => exact ⟨0, .silent, by decide, rfl⟩
  | some exchange =>
    cases hp : picklable msg with
    | false => exact ⟨0, .raises .pickling, by decide, rfl⟩
    | true =>
      cases exchange with
      | answered => exact ⟨0, .answers, by decide, rfl⟩
      | unsent => exact ⟨0, .silent, by decide, rfl⟩
      | unanswered => exact ⟨1, .silent, by decide, rfl⟩
      | closeRaises => exact ⟨0, .raises .os, by decide, rfl⟩

private theorem attempt_eq (exchange : Exchange) : ∃ k link, executions k link ≤ 1 ∧
    PoolResult n c msg s (AsyncConnectionPool.attempt picklable exchange c msg s) k link := by
  unfold AsyncConnectionPool.attempt
  cases exchange with
  | closeRaises => exact ⟨0, .raises .os, by decide, rfl⟩
  | unsent => exact ⟨0, .silent, by decide, rfl⟩
  | unanswered =>
    cases hp : picklable msg with
    | false => exact ⟨0, .silent, by decide, rfl⟩
    | true => exact ⟨1, .silent, by decide, rfl⟩
  | answered =>
    cases hp : picklable msg with
    | false => exact ⟨0, .silent, by decide, rfl⟩
    | true => exact ⟨0, .answers, by decide, rfl⟩

/-- The pool of an async node has a request executed at most twice. -/
theorem asyncPool_eq :
    ∃ k link, executions k link ≤ 2 ∧ PoolResult n c msg s (asyncPool picklable peer n c msg s) k link := by
  have hattempt : ∀ exchange, ∃ k link, executions k link ≤ 2 ∧
      PoolResult n c msg s (AsyncConnectionPool.attempt picklable exchange c msg s) k link := by
    intro exchange
    obtain ⟨k, link, hk, hcall⟩ := attempt_eq picklable n c msg s exchange
    exact ⟨k, link, by omega, hcall⟩
  unfold asyncPool AsyncConnectionPool.execute
  cases (peer n).idle with
  | none =>
    cases (peer n).fresh with
    | none => exact ⟨0, .silent, by decide, rfl⟩
    | some fresh => exact hattempt fresh
  | some idle =>
    obtain ⟨k, link, hk, hcall⟩ := attempt_eq picklable n c msg s idle
    have hstore := hcall.store
    cases hresult : AsyncConnectionPool.attempt picklable idle c msg s with
    | mk r s' =>
      have hsame := hattempt idle
      rw [hresult] at hstore hsame
      simp only [hresult]
      cases r with
      | error e => exact hsame
      | ok resp =>
        cases resp with
        | some resp => exact hsame
        | none =>
          cases (peer n).fresh with
          | none => exact hsame
          | some fresh =>
            -- the second attempt finds what the first has left
            obtain ⟨k', link', hk', hcall'⟩ := attempt_eq picklable n c msg s' fresh
            refine ⟨executions k link + k', link', ?_, ?_⟩
            · unfold executions at hk hk' ⊢
              omega
            · show AsyncConnectionPool.attempt picklable fresh c msg s' =
                networkPool (fun _ => link') n c msg (executed c msg s (executions k link + k'))
              rw [show AsyncConnectionPool.attempt picklable fresh c msg s' = _ from hcall',
                show s' = executed c msg s (executions k link) from hstore]
              unfold executed
              rw [← Function.iterate_add_apply, Nat.add_comm]

end Pools

/-- What a remote handle makes of a call of its pool. -/
private def ApiRequest.read (r : Except PyError (Option (Message V τ))) : ApiRequest V τ → HandleOutcome V
  | get _ => .version (r.map decodeVersioned)
  | write _ => .ack (r.map isOk)

omit [LinearOrder τ] [Add τ] in
private theorem ask_remoteHandle (pool : Pool V τ) (n : NodeInfo) (c : Clock τ) (request : ApiRequest V τ)
    (s : LocalLWWStore V τ) :
    request.ask (remoteHandle n c pool) s =
      (request.read (pool n c request.message s).1, (pool n c request.message s).2) := by
  cases request with
  | get k => rfl
  | write w => cases w <;> rfl

namespace ClusterState

section PoolCalls

variable {sha256 : String → List UInt8} {ring : RendezvousRing} {replication : Nat} {s : ClusterState V τ} {i : Nat}
  {call : ApiCall V τ} {n : NodeInfo}

private theorem strays (hcall : s.calls[i]? = some call) (hsent : call.sent n = true) (c : Clock τ) (k : Nat) :
    after (fun s e => s.apply sha256 ring replication e) s (List.replicate k (.stray i n c)) =
      { s.setStore n (executed c call.request.message (s.stores n) k) with now := s.now + k } := by
  induction k with
  | zero =>
    show s = { s with stores := Function.update s.stores n (s.stores n), now := s.now }
    rw [Function.update_eq_self]
  | succ k ih =>
    rw [List.replicate_succ', after_concat, ih]
    unfold ClusterState.apply ClusterState.perform stray setStore executed
    simp only [hcall, hsent, if_true, Function.update_self, Function.iterate_succ_apply', Function.update_idem]
    rfl

/-- What a call does when its node uses `pool`: some executions whose answers are not read, and then one step. -/
theorem ask_pool {pool : Pool V τ} (hcall : s.calls[i]? = some call) (hmay : call.mayAsk n = true)
    (hn : n ≠ call.issuer) {c : Clock τ} {k : Nat} {link : Link}
    (hpool : PoolResult n c call.request.message (s.stores n) (pool n c call.request.message (s.stores n)) k link) :
    after (fun s e => s.apply sha256 ring replication e) s (List.replicate k (.stray i n c) ++ [.ask i n c link]) =
      { s.record i n (link, (call.request.ask (remoteHandle n c pool) (s.stores n)).1)
          (call.request.ask (remoteHandle n c pool) (s.stores n)).2 with now := s.now + k + 1 } := by
  have hsent : call.sent n = true := by
    unfold ApiCall.sent
    rw [hmay, decide_eq_true hn]
    rfl
  have hhandle : call.request.ask ((NodeView.mk call.issuer ring replication).handle call.blocking link c n)
      (executed c call.request.message (s.stores n) k) = call.request.ask (remoteHandle n c pool) (s.stores n) := by
    rw [NodeView.handle_eq, NodeView.handle_sync_of_ne _ _ hn]
    rw [ask_remoteHandle, ask_remoteHandle, show pool n c call.request.message (s.stores n) = _ from hpool]
  rw [after_concat, strays hcall hsent]
  unfold ClusterState.apply ClusterState.perform ask setStore
  simp only [hcall, hmay, if_true, Function.update_self, hhandle]
  unfold record setStore setCall
  simp only [Function.update_idem]

end PoolCalls

end ClusterState

end DLStorage
