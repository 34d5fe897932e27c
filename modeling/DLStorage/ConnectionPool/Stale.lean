import DLStorage.ConnectionPool.Closing

/-!
# Stale connections

A call of `execute` of a queue pool that finds a stale connection tries again on a new one.  `CallStage.Goes` says how a
call goes on in one event, if its peer accepts a new connection and answers on it (`Welcomes`): it ends with an answer
of the peer, after at most two transmissions and one new connection, whatever else happens in the pool.  A connection on
which a call has failed is gone for good (`Gone`).
-/

namespace DLStorage

open Base (Dict after after_append after_concat after_invariant after_keeps tally tally_concat)

variable {V τ : Type}

namespace CallStage

def isConnecting : CallStage V τ → Bool
  | connecting => true
  | taking | sending _ _ | awaiting _ _ | returning _ _ _ | ended _ | raised => false

def isSending : CallStage V τ → Bool
  | sending _ _ => true
  | taking | connecting | awaiting _ _ | returning _ _ _ | ended _ | raised => false

/-- How often the call can still transmit its request. -/
def transmissions : CallStage V τ → Nat
  | taking | sending _ true => 2
  | connecting | sending _ false | awaiting _ true => 1
  | awaiting _ false | returning _ _ _ | ended _ | raised => 0

/-- How many connections the call can still open. -/
def openings : CallStage V τ → Nat
  | taking | connecting | sending _ true | awaiting _ true => 1
  | sending _ false | awaiting _ false | returning _ _ _ | ended _ | raised => 0

/-- How many steps the call is from its end, at most. -/
def distance : CallStage V τ → Nat
  | taking => 7
  | sending _ true => 6
  | awaiting _ true => 5
  | connecting => 4
  | sending _ false => 3
  | awaiting _ false => 2
  | returning _ _ _ => 1
  | ended _ | raised => 0

/-- The call has not failed, and what it has read is a message. -/
def Fine : CallStage V τ → Prop
  | ended none | raised => False
  | returning _ _ a | ended (some a) => a.response.isSome = true
  | taking | connecting | sending _ _ | awaiting _ _ => True

/-- How a call goes on in one event, with how often it transmits its request and opens a connection in it. -/
inductive Goes : CallStage V τ → CallStage V τ → Nat → Nat → Prop
  | stays (stage : CallStage V τ) : Goes stage stage 0 0
  | takes (k : Nat) : Goes taking (sending k true) 0 0
  | misses : Goes taking connecting 0 0
  | connects (k : Nat) : Goes connecting (sending k false) 0 1
  | sends (k : Nat) (reused : Bool) : Goes (sending k reused) (awaiting k reused) 1 0
  | breaks (k : Nat) : Goes (sending k true) connecting 1 0
  | loses (k : Nat) : Goes (awaiting k true) connecting 0 0
  | receives (k : Nat) (reused : Bool) (a : Answer V τ) (response : a.response.isSome = true) :
      Goes (awaiting k reused) (returning k reused a) 0 0
  | returns (k : Nat) (reused : Bool) (a : Answer V τ) : Goes (returning k reused a) (ended (some a)) 0 0

namespace Goes

variable {stage stage' : CallStage V τ} {transmitted opened : Nat}

theorem transmissions_le (h : Goes stage stage' transmitted opened) :
    transmitted + stage'.transmissions ≤ stage.transmissions := by
  cases h with
  | stays | takes | misses | connects | breaks | loses | returns => simp [transmissions]
  | sends k reused | receives k reused => cases reused <;> simp [transmissions]

theorem openings_le (h : Goes stage stage' transmitted opened) : opened + stage'.openings ≤ stage.openings := by
  cases h with
  | stays | takes | misses | connects | breaks | loses | returns => simp [openings]
  | sends k reused | receives k reused => cases reused <;> simp [openings]

/-- A call that goes on comes nearer to its end. -/
theorem distance_le (h : Goes stage stage' transmitted opened) :
    stage' = stage ∨ stage'.distance + 1 ≤ stage.distance := by
  cases h with
  | stays => exact Or.inl rfl
  | takes | misses | connects | breaks | loses | returns => exact Or.inr (by simp [distance])
  | sends k reused | receives k reused => exact Or.inr (by cases reused <;> simp [distance])

theorem fine (h : Goes stage stage' transmitted opened) (hfine : stage.Fine) : stage'.Fine := by
  cases h with
  | stays | returns => exact hfine
  | takes | misses | connects | sends | breaks | loses => trivial
  | receives k reused a hresponse => exact hresponse

end Goes

end CallStage

/-- The call of `execute` that does the event. -/
def PoolEvent.caller : PoolEvent V τ → Option Nat
  | .take c | .connect c _ | .send c | .receive c | .fail c _ | .put c _ _ | .cancel c => some c
  | .call _ _ | .answer _ _ | .lose _ | .closePeer _ _ | .closeAll _ => none

/-- What takes call `c` on: its own steps, and an answer of a peer. -/
def PoolEvent.Drives (c : Nat) : PoolEvent V τ → Prop
  | .take c' | .send c' | .receive c' => c' = c
  | .connect c' accepted => c' = c ∧ accepted = true
  | .put c' closeRaises _ => c' = c ∧ closeRaises = false
  | .answer _ response => response.isSome = true
  | .call _ _ | .fail _ _ | .cancel _ | .lose _ | .closePeer _ _ | .closeAll _ => False

namespace QueuePool

variable (s : QueuePool V τ)

/-- Call `c` sends its request in the event, wholly or in part. -/
def transmits (c : Nat) (e : PoolEvent V τ) : Bool :=
  match e with
  | .send c' | .fail c' _ => decide (c' = c) && s.calls[c]?.any fun call => call.stage.isSending
  | _ => false

/-- Call `c` opens a connection in the event. -/
def opens (c : Nat) (e : PoolEvent V τ) : Bool :=
  match e with
  | .connect c' accepted => decide (c' = c) && accepted && s.calls[c]?.any fun call => call.stage.isConnecting
  | _ => false

/-- Call `c` is sending or receiving on connection `k`. -/
def Uses (c k : Nat) : Prop :=
  ∃ call reused, s.calls[c]? = some call ∧ (call.stage = .sending k reused ∨ call.stage = .awaiting k reused)

/-- Call `c` goes on in the event. -/
def moves (kind : PoolKind) (max : Int) (c : Nat) (e : PoolEvent V τ) : Bool :=
  (s.calls[c]?.map fun call => call.stage.distance) !=
    ((s.apply kind max e).calls[c]?.map fun call => call.stage.distance)

/-- The peer of call `c` accepts a new connection and answers on it, what it answers are messages, nothing cancels the
call, and no `close()` raises but for those whose exceptions the handlers of the blocking pool catch. -/
def Welcomes (kind : PoolKind) (c : Nat) : PoolEvent V τ → Prop
  | .connect c' accepted => c' = c → accepted = true
  | .receive c' => c' = c → ∀ k, s.Uses c k → ∀ conn, s.conns[k]? = some conn → ∀ a ∈ conn.inbox,
      a.response.isSome = true
  | .fail c' closeRaises => c' = c → (kind = .async → closeRaises = false) ∧
      ∀ call, s.calls[c]? = some call → ∀ k, call.stage ≠ .sending k false ∧ call.stage ≠ .awaiting k false
  | .put c' closeRaises _ => c' = c → closeRaises = false
  | .cancel c' => c' ≠ c
  | .call _ _ | .take _ | .send _ | .answer _ _ | .lose _ | .closePeer _ _ | .closeAll _ => True

/-- Connection `k` has been closed, and it is neither in a queue nor with a call. -/
structure Gone (k : Nat) : Prop where
  bounded : k < s.conns.length
  closed : s.isOpen k = false
  nowhere : ∀ p, ¬ s.lies k p

variable {s}

/-! ### How a call goes on -/

section Goes

variable {c c' : Nat} {call : PoolCall V τ} {stage : CallStage V τ} {transmitted opened : Nat}

/-- In `s'`, the call is where it gets to in one event. -/
private def GoesOn (s' : QueuePool V τ) (c : Nat) (call : PoolCall V τ) (transmitted opened : Nat) : Prop :=
  ∃ stage, s'.calls[c]? = some { call with stage := stage } ∧ CallStage.Goes call.stage stage transmitted opened

private theorem GoesOn.stays (hcall : s.calls[c]? = some call) : GoesOn s c call 0 0 :=
  ⟨call.stage, hcall, .stays _⟩

private theorem GoesOn.setStage (hcall : s.calls[c]? = some call)
    (h : CallStage.Goes call.stage stage transmitted opened) : GoesOn (s.setStage c stage) c call transmitted opened :=
  ⟨stage, Base.getElem?_modify_of_some hcall, h⟩

theorem atCall_eq (hcall : s.calls[c]? = some call) (f : PoolCall V τ → QueuePool V τ) : s.atCall c f = f call := by
  unfold atCall
  rw [hcall]

private theorem calls_drainAll (kind : PoolKind) (raises : Nat → Bool) (qs : List Nat) (s : QueuePool V τ) :
    (drainAll kind raises qs s).2.calls = s.calls := by
  induction qs generalizing s with
  | nil => rfl
  | cons q rest ih =>
    unfold drainAll
    simp only
    split
    · exact (drain_frame raises q _ s).2
    · rw [ih]
      exact (drain_frame raises q _ s).2

private theorem calls_of_other {kind : PoolKind} {max : Int} {e : PoolEvent V τ} (he : e.caller ≠ some c)
    (hcall : s.calls[c]? = some call) : (s.apply kind max e).calls[c]? = some call := by
  -- the event is not one of the call's own
  have hne : ∀ {c'}, e.caller = some c' → c ≠ c' := by
    intro c' h hc
    exact he (hc ▸ h)
  rw [← hcall]
  cases e with
  | call peer msg =>
    rw [hcall]
    show ((s.queue peer).2.calls ++ _)[c]? = _
    refine Base.getElem?_concat_of_some ?_
    unfold queue
    split <;> exact hcall
  | take c' => exact (OwnStep.take s c' kind).calls c (hne rfl)
  | connect c' accepted => exact (OwnStep.connect s c' accepted).calls c (hne rfl)
  | send c' => exact (OwnStep.send s c').calls c (hne rfl)
  | receive c' => exact (OwnStep.receive s c').calls c (hne rfl)
  | fail c' closeRaises => exact (OwnStep.fail s c' kind closeRaises).calls c (hne rfl)
  | put c' closeRaises closeRaisesAgain =>
    exact (OwnStep.put s c' kind max closeRaises closeRaisesAgain).calls c (hne rfl)
  | cancel c' => exact (OwnStep.cancel s c' kind).calls c (hne rfl)
  | answer k response => rfl
  | lose k => cases kind <;> rfl
  | closePeer peer raises =>
    show (s.closePeer peer raises).calls[c]? = _
    unfold closePeer
    split
    · rfl
    · rw [(drain_frame ..).2]
  | closeAll raises =>
    show (s.closeAll kind raises).2.calls[c]? = _
    unfold closeAll
    rw [calls_drainAll]

private theorem GoesOn.take (kind : PoolKind) (hcall : s.calls[c]? = some call) :
    GoesOn (s.take kind c) c call 0 0 := by
  unfold QueuePool.take
  rw [atCall_eq hcall]
  split
  · rename_i hstage
    split
    · exact GoesOn.setStage (s := s.setIdle call.queue []) hcall (hstage ▸ .misses)
    · rename_i k rest _
      exact GoesOn.setStage (s := s.setIdle call.queue rest) hcall (hstage ▸ .takes k)
  · exact GoesOn.stays hcall

private theorem GoesOn.connect (hcall : s.calls[c]? = some call) :
    GoesOn (s.connect c true) c call 0 (s.opens c (.connect c true)).toNat := by
  have hopens : s.opens c (.connect c true) = call.stage.isConnecting := by simp [opens, hcall]
  rw [hopens]
  unfold QueuePool.connect
  rw [atCall_eq hcall]
  cases hstage : call.stage with
  | connecting =>
    have hgoes : CallStage.Goes call.stage (.sending s.conns.length false) 0 1 := hstage ▸ .connects _
    exact GoesOn.setStage (s := s.accept call.peer) hcall hgoes
  | taking | sending | awaiting | returning | ended | raised => exact GoesOn.stays hcall

private theorem GoesOn.send (hcall : s.calls[c]? = some call) :
    GoesOn (s.send c) c call (s.transmits c (.send c)).toNat 0 := by
  have htransmits : s.transmits c (.send c) = call.stage.isSending := by simp [transmits, hcall]
  rw [htransmits]
  unfold QueuePool.send
  rw [atCall_eq hcall]
  cases hstage : call.stage with
  | sending k reused =>
    have hgoes : CallStage.Goes call.stage (.awaiting k reused) 1 0 := hstage ▸ .sends k reused
    exact GoesOn.setStage (s := s.setConn k _) hcall hgoes
  | taking | connecting | awaiting | returning | ended | raised => exact GoesOn.stays hcall

private theorem GoesOn.receive {kind : PoolKind} (hcall : s.calls[c]? = some call)
    (hwelcome : s.Welcomes kind c (.receive c)) : GoesOn (s.receive c) c call 0 0 := by
  unfold QueuePool.receive
  rw [atCall_eq hcall]
  split
  · rename_i k reused hstage
    split
    · exact GoesOn.stays hcall
    · rename_i a rest hinbox
      have hresponse : a.response.isSome = true := by
        cases hconn : s.conns[k]? with
        | none => simp [hconn] at hinbox
        | some conn =>
          have hfirst : conn.inbox = a :: rest := by simpa [hconn] using hinbox
          have hmem : a ∈ conn.inbox := by
            rw [hfirst]
            exact List.mem_cons_self
          exact hwelcome rfl k ⟨call, reused, hcall, Or.inr hstage⟩ conn hconn a hmem
      exact GoesOn.setStage (s := s.setConn k _) hcall (hstage ▸ .receives k reused a hresponse)
  · exact GoesOn.stays hcall

private theorem GoesOn.fail {kind : PoolKind} {closeRaises : Bool} (hcall : s.calls[c]? = some call)
    (hwelcome : s.Welcomes kind c (.fail c closeRaises)) :
    GoesOn (s.fail kind c closeRaises) c call (s.transmits c (.fail c closeRaises)).toNat 0 := by
  obtain ⟨hcloses, hreused⟩ := hwelcome rfl
  have hraises : ¬ (kind = .async ∧ closeRaises = true) := by
    intro h
    rw [hcloses h.1] at h
    cases h.2
  have htransmits : s.transmits c (.fail c closeRaises) = call.stage.isSending := by simp [transmits, hcall]
  rw [htransmits]
  unfold QueuePool.fail
  rw [atCall_eq hcall]
  cases hstage : call.stage with
  | sending k reused =>
    cases reused with
    | false => exact absurd hstage (hreused call hcall k).1
    | true =>
      have hgoes : CallStage.Goes call.stage .connecting 1 0 := hstage ▸ .breaks k
      simp only [abandon, if_neg hraises, if_true]
      exact GoesOn.setStage (s := s.close k) hcall hgoes
  | awaiting k reused =>
    cases reused with
    | false => exact absurd hstage (hreused call hcall k).2
    | true =>
      have hgoes : CallStage.Goes call.stage .connecting 0 0 := hstage ▸ .loses k
      simp only [abandon, if_neg hraises, if_true]
      exact GoesOn.setStage (s := s.close k) hcall hgoes
  | taking | connecting | returning | ended | raised => exact GoesOn.stays hcall

private theorem GoesOn.put (kind : PoolKind) (max : Int) (closeRaisesAgain : Bool) (hcall : s.calls[c]? = some call) :
    GoesOn (s.put kind max c false closeRaisesAgain) c call 0 0 := by
  unfold QueuePool.put
  rw [atCall_eq hcall]
  split
  · rename_i k reused a hstage
    have hgoes : CallStage.Goes call.stage (.ended (some a)) 0 0 := hstage ▸ .returns k reused a
    split
    · exact GoesOn.setStage hcall hgoes
    · split
      · exact GoesOn.setStage (s := s.close k) hcall hgoes
      · exact GoesOn.setStage hcall hgoes
  · exact GoesOn.stays hcall

/-- How a call goes on in an event. -/
private theorem goesOn {kind : PoolKind} {e : PoolEvent V τ} (max : Int) (hcall : s.calls[c]? = some call)
    (hwelcome : s.Welcomes kind c e) :
    GoesOn (s.apply kind max e) c call (s.transmits c e).toNat (s.opens c e).toNat := by
  by_cases he : e.caller = some c
  · cases e with
    | take c' =>
      obtain rfl : c' = c := Option.some.inj he
      exact GoesOn.take kind hcall
    | connect c' accepted =>
      obtain rfl : c' = c := Option.some.inj he
      obtain rfl : accepted = true := hwelcome rfl
      exact GoesOn.connect hcall
    | send c' =>
      obtain rfl : c' = c := Option.some.inj he
      exact GoesOn.send hcall
    | receive c' =>
      obtain rfl : c' = c := Option.some.inj he
      exact GoesOn.receive hcall hwelcome
    | fail c' closeRaises =>
      obtain rfl : c' = c := Option.some.inj he
      exact GoesOn.fail hcall hwelcome
    | put c' closeRaises closeRaisesAgain =>
      obtain rfl : c' = c := Option.some.inj he
      obtain rfl : closeRaises = false := hwelcome rfl
      exact GoesOn.put kind max closeRaisesAgain hcall
    | cancel c' => exact absurd (Option.some.inj he) hwelcome
    | call | answer | lose | closePeer | closeAll => cases he
  · have hother : GoesOn (s.apply kind max e) c call 0 0 := GoesOn.stays (calls_of_other he hcall)
    have hneither : s.transmits c e = false ∧ s.opens c e = false := by
      have hne : ∀ c', e.caller = some c' → decide (c' = c) = false := fun c' h => by
        rw [h, Option.some.injEq] at he
        simpa using he
      cases e with
      | send c' | fail c' | connect c' => simp [transmits, opens, hne c' rfl]
      | call | take | receive | put | cancel | answer | lose | closePeer | closeAll => exact ⟨rfl, rfl⟩
    rw [hneither.1, hneither.2]
    exact hother

end Goes

/-! ### A connection that is gone -/

namespace Gone

variable {c k k' q : Nat} {stage : CallStage V τ} {l : List Nat}
  {f : Connection V τ → Connection V τ}

private theorem not_held {call : PoolCall V τ} (h : s.Gone k) (hcall : s.calls[c]? = some call)
    (hk' : call.stage.conn = some k') : k' ≠ k := by
  intro hkk
  subst hkk
  exact h.nowhere (.held c) ⟨call, hcall, hk'⟩

private theorem not_idle (h : s.Gone k) (q : Nat) : k ∉ s.idle q := fun hk => h.nowhere (.idle q) (lies_idle_iff.2 hk)

private theorem setStage (h : s.Gone k) (hstage : ∀ k', stage.conn = some k' → k' ≠ k) :
    (s.setStage c stage).Gone k := by
  refine ⟨h.bounded, h.closed, fun p hp => ?_⟩
  rcases lies_setStage hp with ⟨-, hk⟩ | ⟨-, hold⟩
  · exact hstage k hk rfl
  · exact h.nowhere p hold

private theorem setIdle (h : s.Gone k) (hl : k ∉ l) : (s.setIdle q l).Gone k := by
  refine ⟨h.bounded, h.closed, fun p hp => ?_⟩
  rcases lies_setIdle hp with ⟨-, hk⟩ | ⟨-, hold⟩
  · exact hl hk
  · exact h.nowhere p hold

private theorem setConn (h : s.Gone k) (hf : ∀ conn, (f conn).isOpen = conn.isOpen) : (s.setConn k' f).Gone k := by
  refine ⟨?_, (isOpen_setConn hf).trans h.closed, h.nowhere⟩
  show k < (s.conns.modify k' f).length
  rw [List.length_modify]
  exact h.bounded

private theorem close (h : s.Gone k) : (s.close k').Gone k := by
  refine ⟨?_, ?_, h.nowhere⟩
  · show k < (s.conns.modify k' _).length
    rw [List.length_modify]
    exact h.bounded
  · rw [isOpen_close, h.closed, Bool.and_false]

private theorem accept (h : s.Gone k) (peer : NodeInfo) : (s.accept peer).Gone k := by
  have hlt : k < (s.accept peer).conns.length := by
    have hlength : (s.accept peer).conns.length = s.conns.length + 1 := List.length_append
    have := h.bounded
    omega
  have hsame : (s.accept peer).isOpen k = s.isOpen k := by
    show ((s.conns ++ _)[k]?).any Connection.isOpen = (s.conns[k]?).any Connection.isOpen
    rw [List.getElem?_append_left h.bounded]
  exact ⟨hlt, hsame.trans h.closed, h.nowhere⟩

private theorem abandon (h : s.Gone k) (kind : PoolKind) (reused closeRaises : Bool) :
    (s.abandon kind c k' reused closeRaises).Gone k := by
  refine h.close.setStage fun k'' hk'' => ?_
  split at hk''
  · cases hk''
  · split at hk'' <;> cases hk''

private theorem drain (h : s.Gone k) (raises : Nat → Bool) (q : Nat) {l : List Nat} (hl : k ∉ l) :
    (QueuePool.drain raises q l s).2.Gone k := by
  induction l generalizing s with
  | nil => exact h
  | cons k' rest ih =>
    have hrest : k ∉ rest := fun hk => hl (List.mem_cons_of_mem _ hk)
    have hnext : ((s.setIdle q rest).close k').Gone k := (h.setIdle hrest).close
    unfold QueuePool.drain
    split
    · exact hnext
    · exact ih hnext hrest

private theorem setTable (h : s.Gone k) (table : Dict NodeInfo Nat) : ({ s with table := table }).Gone k :=
  ⟨h.bounded, h.closed, h.nowhere⟩

private theorem drainAll (h : s.Gone k) (kind : PoolKind) (raises : Nat → Bool) (qs : List Nat) :
    (QueuePool.drainAll kind raises qs s).2.Gone k := by
  induction qs generalizing s with
  | nil => exact h.setTable _
  | cons q rest ih =>
    have hnext := h.drain raises q (h.not_idle q)
    unfold QueuePool.drainAll
    simp only
    split
    · exact hnext
    · exact ih hnext

private theorem call (h : s.Gone k) (peer : NodeInfo) (msg : Message V τ) : (s.call peer msg).Gone k := by
  have hqueue : (s.queue peer).2.Gone k := by
    unfold QueuePool.queue
    split
    · exact h
    · refine ⟨h.bounded, h.closed, fun p hp => ?_⟩
      cases p with
      | held c => exact h.nowhere (.held c) hp
      | idle q =>
        obtain ⟨queue, hq, hk⟩ := hp
        rcases Base.getElem?_concat_some hq with hold | ⟨-, rfl⟩
        · exact h.nowhere (.idle q) ⟨queue, hold, hk⟩
        · cases hk
  refine ⟨hqueue.bounded, hqueue.closed, fun p hp => ?_⟩
  cases p with
  | idle q => exact hqueue.nowhere (.idle q) hp
  | held c =>
    obtain ⟨call, hcall, hk⟩ := hp
    rcases Base.getElem?_concat_some hcall with hold | ⟨-, rfl⟩
    · exact hqueue.nowhere (.held c) ⟨call, hold, hk⟩
    · cases hk

private theorem take (h : s.Gone k) (kind : PoolKind) : (s.take kind c).Gone k := by
  refine atCall_of (P := fun s => s.Gone k) h fun call _ => ?_
  split
  · split
    · exact (h.setIdle List.not_mem_nil).setStage fun _ hk => by cases hk
    · rename_i k' rest husable
      have hsub : ∀ k'' ∈ k' :: rest, k'' ∈ s.idle call.queue := fun k'' hk =>
        (usable_sublist kind call.queue).subset (husable ▸ hk)
      have hrest : k ∉ rest := fun hk => h.not_idle _ (hsub k (List.mem_cons_of_mem _ hk))
      refine (h.setIdle hrest).setStage fun k'' hk'' hkk => ?_
      obtain rfl : k' = k'' := Option.some.inj hk''
      exact h.not_idle _ (hkk ▸ hsub k' List.mem_cons_self)
  · exact h

private theorem connect (h : s.Gone k) (accepted : Bool) : (s.connect c accepted).Gone k := by
  refine atCall_of (P := fun s => s.Gone k) h fun call _ => ?_
  split
  · split
    · refine (h.accept call.peer).setStage fun k' hk' => ?_
      have hfresh : s.conns.length = k' := Option.some.inj hk'
      have := h.bounded
      omega
    · exact h.setStage fun _ hk => by cases hk
  · exact h

private theorem send (h : s.Gone k) : (s.send c).Gone k := by
  refine atCall_of (P := fun s => s.Gone k) h fun call hcall => ?_
  split
  · rename_i k' reused hstage
    refine Gone.setStage (h.setConn fun _ => rfl) fun k'' hk'' => ?_
    exact h.not_held hcall (by rw [hstage]; exact hk'')
  · exact h

private theorem receive (h : s.Gone k) : (s.receive c).Gone k := by
  refine atCall_of (P := fun s => s.Gone k) h fun call hcall => ?_
  split
  · rename_i k' reused hstage
    split
    · exact h
    · refine Gone.setStage (h.setConn fun _ => rfl) fun k'' hk'' => ?_
      exact h.not_held hcall (by rw [hstage]; exact hk'')
  · exact h

private theorem fail (h : s.Gone k) (kind : PoolKind) (closeRaises : Bool) : (s.fail kind c closeRaises).Gone k := by
  refine atCall_of (P := fun s => s.Gone k) h fun call _ => ?_
  split
  · exact h.abandon kind _ _
  · exact h.abandon kind _ _
  · exact h

private theorem put (h : s.Gone k) (kind : PoolKind) (max : Int) (closeRaises closeRaisesAgain : Bool) :
    (s.put kind max c closeRaises closeRaisesAgain).Gone k := by
  refine atCall_of (P := fun s => s.Gone k) h fun call hcall => ?_
  split
  · rename_i k' reused a hstage
    have hended : (s.setStage c (.ended (some a))).Gone k := h.setStage fun _ hk => by cases hk
    have hne : k' ≠ k := h.not_held hcall (by rw [hstage]; rfl)
    split
    · exact hended
    · split
      · split
        · exact h.abandon kind _ _
        · exact h.close.setStage fun _ hk => by cases hk
      · refine hended.setIdle fun hk => ?_
        rcases List.mem_cons.1 hk with hkk | hk
        · exact hne hkk.symm
        · exact h.not_idle _ hk
  · exact h

private theorem cancel (h : s.Gone k) (kind : PoolKind) : (s.cancel kind c).Gone k := by
  refine atCall_of (P := fun s => s.Gone k) h fun call _ => ?_
  split
  · exact h.setStage fun _ hk => by cases hk
  · exact h.setStage fun _ hk => by cases hk
  · exact h.setStage fun _ hk => by cases hk
  · exact h

private theorem answer (h : s.Gone k) (response : Option (Message V τ)) : (s.answer k' response).Gone k := by
  refine h.setConn fun conn => ?_
  split <;> rfl

/-- A connection that is gone stays so. -/
theorem apply (h : s.Gone k) (kind : PoolKind) (max : Int) (e : PoolEvent V τ) : (s.apply kind max e).Gone k := by
  cases e with
  | call peer msg => exact h.call peer msg
  | take c => exact h.take kind
  | connect c accepted => exact h.connect accepted
  | send c => exact h.send
  | receive c => exact h.receive
  | fail c closeRaises => exact h.fail kind closeRaises
  | put c closeRaises closeRaisesAgain => exact h.put kind max closeRaises closeRaisesAgain
  | cancel c => exact h.cancel kind
  | answer k' response => exact h.answer response
  | lose k' =>
    cases kind with
    | blocking => exact h
    | async => exact h.close
  | closePeer peer raises =>
    show (s.closePeer peer raises).Gone k
    unfold closePeer
    split
    · exact h
    · rename_i q _
      exact (h.setTable _).drain raises q (h.not_idle q)
  | closeAll raises => exact h.drainAll kind raises _

end Gone

/-- A connection on which a call fails is gone. -/
private theorem gone_of_fail {c k : Nat} (h : s.Paired) (hk : s.Uses c k) (kind : PoolKind) (closeRaises : Bool) :
    (s.fail kind c closeRaises).Gone k := by
  obtain ⟨call, reused, hcall, hstage⟩ := hk
  have hheld : s.lies k (.held c) := ⟨call, hcall, by rcases hstage with hstage | hstage <;> rw [hstage] <;> rfl⟩
  obtain ⟨conn, hconn⟩ := h.exists_of_lies hheld
  have hfail : s.fail kind c closeRaises = s.abandon kind c k reused closeRaises := by
    unfold QueuePool.fail
    rw [atCall_eq hcall]
    rcases hstage with hstage | hstage <;> rw [hstage]
  have hclosed : (s.close k).isOpen k = false := isOpen_close_self
  rw [hfail]
  refine ⟨?_, hclosed, fun p hp => ?_⟩
  · show k < (s.conns.modify k _).length
    rw [List.length_modify]
    exact (List.getElem?_eq_some_iff.1 hconn).1
  · rcases lies_setStage hp with ⟨-, hstage⟩ | ⟨hne, hold⟩
    · split at hstage
      · cases hstage
      · split at hstage <;> cases hstage
    · exact hne (h.once k p (.held c) hold hheld)

/-! ### A whole call -/

section Run

variable {c : Nat} {peer : NodeInfo} {msg : Message V τ} {kind : PoolKind} {max : Int}

/-- What a call has come to after a run in which its peer welcomes it, with what it has left. -/
private structure Served (kind : PoolKind) (max : Int) (begun : QueuePool V τ) (c : Nat) (peer : NodeInfo)
    (msg : Message V τ) (run : PoolRun V τ) (call : PoolCall V τ) : Prop where
  peer : call.peer = peer
  msg : call.msg = msg
  fine : call.stage.Fine
  transmissions : tally (QueuePool.apply kind max) (fun s e => s.transmits c e) begun run +
    call.stage.transmissions ≤ 2
  openings : tally (QueuePool.apply kind max) (fun s e => s.opens c e) begun run + call.stage.openings ≤ 1
  distance : tally (QueuePool.apply kind max) (fun s e => s.moves kind max c e) begun run + call.stage.distance ≤ 7

private theorem served_after {begun : QueuePool V τ} {call : PoolCall V τ} (hcall : begun.calls[c]? = some call)
    (hpeer : call.peer = peer) (hmsg : call.msg = msg) (hstage : call.stage = .taking) {run : PoolRun V τ}
    (hrun : ∀ mid e rest, run = mid ++ e :: rest →
      (after (QueuePool.apply kind max) begun mid).Welcomes kind c e) :
    ∃ call, (after (QueuePool.apply kind max) begun run).calls[c]? = some call ∧
      Served kind max begun c peer msg run call := by
  refine after_invariant (P := fun run (s : QueuePool V τ) => ∃ call, s.calls[c]? = some call ∧
      Served kind max begun c peer msg run call)
    (C := fun mid e => (after (QueuePool.apply kind max) begun mid).Welcomes kind c e) ?_ ?_ hrun
  · refine ⟨call, hcall, hpeer, hmsg, ?_, ?_, ?_, ?_⟩ <;> rw [hstage]
    · trivial
    · simp [tally, CallStage.transmissions]
    · simp [tally, CallStage.openings]
    · simp [tally, CallStage.distance]
  · rintro mid e hwelcome ⟨call, hcall, h⟩
    obtain ⟨stage, hcall', hgoes⟩ := goesOn max hcall hwelcome
    refine ⟨_, hcall', h.peer, h.msg, hgoes.fine h.fine, ?_, ?_, ?_⟩
    · have hold := h.transmissions
      have hle := hgoes.transmissions_le
      rw [tally_concat]
      simp only
      omega
    · have hold := h.openings
      have hle := hgoes.openings_le
      rw [tally_concat]
      simp only
      omega
    · have hold := h.distance
      rw [tally_concat]
      have hmoves : ((after (QueuePool.apply kind max) begun mid).moves kind max c e) =
          (some call.stage.distance != some stage.distance) := by
        unfold moves
        rw [hcall, hcall']
        rfl
      rw [hmoves]
      rcases hgoes.distance_le with hsame | hless
      · rw [hsame]
        simp only [bne_self_eq_false, Bool.toNat_false]
        exact hold
      · have hone := Bool.toNat_le (some call.stage.distance != some stage.distance)
        simp only
        omega

private theorem receive_of {call : PoolCall V τ} {k : Nat} {reused : Bool} (hcall : s.calls[c]? = some call)
    (hstage : call.stage = .awaiting k reused) {conn : Connection V τ} (hconn : s.conns[k]? = some conn)
    {a : Answer V τ} {rest : List (Answer V τ)} (hinbox : conn.inbox = a :: rest) :
    (s.receive c).calls[c]? = some { call with stage := .returning k reused a } := by
  have hread : (s.conns[k]?.map Connection.inbox).getD [] = a :: rest := by rw [hconn]; exact hinbox
  unfold QueuePool.receive
  rw [atCall_eq hcall, hstage]
  simp only [hread]
  exact Base.getElem?_modify_of_some hcall

private theorem answer_of {k : Nat} {conn : Connection V τ} {request : Request V τ} {sent : List (Request V τ)}
    (hconn : s.conns[k]? = some conn) (hsent : conn.sent = request :: sent) (response : Option (Message V τ)) :
    (s.answer k response).conns[k]? =
      some { conn with sent := sent, inbox := conn.inbox ++ [⟨conn.peer, request, response⟩] } := by
  refine (Base.getElem?_modify_of_some hconn).trans ?_
  rw [hsent]

/-- A call is taken on by its next step, or by the answer of its peer and this step. -/
private def Driven (kind : PoolKind) (max : Int) (s : QueuePool V τ) (c : Nat) (call : PoolCall V τ) : Prop :=
  ∃ es : PoolRun V τ, es.length ≤ 2 ∧ (∀ e ∈ es, e.Drives c) ∧
    ∃ call', (after (QueuePool.apply kind max) s es).calls[c]? = some call' ∧
      call'.stage.distance < call.stage.distance

private theorem Driven.of_step {call : PoolCall V τ} {e : PoolEvent V τ} (he : e.Drives c)
    (hmove : ∃ stage, (s.apply kind max e).calls[c]? = some { call with stage := stage } ∧
      stage.distance < call.stage.distance) : Driven kind max s c call := by
  obtain ⟨stage, hcall', hless⟩ := hmove
  refine ⟨[e], by simp, fun e' he' => ?_, _, hcall', hless⟩
  rw [List.mem_singleton.1 he']
  exact he

/-- A call that awaits the answer receives it, if need be after the peer has sent it. -/
private theorem driven_of_awaiting (h : s.Paired) {call : PoolCall V τ} (hcall : s.calls[c]? = some call) {k : Nat}
    {reused : Bool} (hstage : call.stage = .awaiting k reused) : Driven kind max s c call := by
  obtain ⟨conn, hconn, -, houtstanding⟩ := h.held c k call hcall (by rw [hstage]; rfl)
  have hpending : call.pending c = [⟨c, call.msg⟩] := by
    unfold PoolCall.pending
    rw [hstage]
  have hless : ∀ a : Answer V τ, (CallStage.returning k reused a).distance < call.stage.distance := by
    intro a
    rw [hstage]
    cases reused <;> simp [CallStage.distance]
  cases hinbox : conn.inbox with
  | cons a rest =>
    have hreceive := receive_of hcall hstage hconn hinbox
    exact Driven.of_step (e := .receive c) rfl ⟨.returning k reused a, hreceive, hless a⟩
  | nil =>
    rw [hpending, Connection.outstanding, hinbox] at houtstanding
    have hanswered : (s.answer k (some call.msg)).conns[k]? =
        some { conn with sent := [], inbox := [⟨conn.peer, ⟨c, call.msg⟩, some call.msg⟩] } := by
      rw [answer_of hconn houtstanding, hinbox]
      rfl
    refine ⟨[.answer k (some call.msg), .receive c], le_refl _, fun e he => ?_, _,
      receive_of (s := s.answer k (some call.msg)) hcall hstage hanswered rfl, hless _⟩
    rcases List.mem_cons.1 he with rfl | he
    · rfl
    · rw [List.mem_singleton.1 he]
      rfl

/-- A call that has its answer returns it. -/
private theorem driven_of_returning {call : PoolCall V τ} (hcall : s.calls[c]? = some call) {k : Nat} {reused : Bool}
    {a : Answer V τ} (hstage : call.stage = .returning k reused a) : Driven kind max s c call := by
  refine Driven.of_step (e := .put c false false) ⟨rfl, rfl⟩ ?_
  show ∃ stage, (s.put kind max c false false).calls[c]? = _ ∧ _
  have hended : ∀ s' : QueuePool V τ, s'.calls[c]? = some call → ∃ stage,
      (s'.setStage c (.ended (some a))).calls[c]? = some { call with stage := stage } ∧
        stage.distance < call.stage.distance :=
    fun s' hcall' => ⟨.ended (some a), Base.getElem?_modify_of_some hcall', by rw [hstage]; simp [CallStage.distance]⟩
  unfold QueuePool.put
  rw [atCall_eq hcall]
  rw [hstage] at hended ⊢
  simp only
  split
  · exact hended s hcall
  · split
    · exact hended (s.close k) hcall
    · exact hended s hcall

/-- A call that is not over can be taken on. -/
private theorem drives (h : s.Paired) {call : PoolCall V τ} (hcall : s.calls[c]? = some call)
    (hover : call.stage.isOver = false) (kind : PoolKind) (max : Int) : Driven kind max s c call := by
  cases hstage : call.stage with
  | taking =>
    refine Driven.of_step (e := .take c) rfl ?_
    show ∃ stage, (s.take kind c).calls[c]? = _ ∧ _
    unfold QueuePool.take
    rw [atCall_eq hcall, hstage]
    simp only
    split
    · exact ⟨.connecting, Base.getElem?_modify_of_some hcall, by simp [CallStage.distance]⟩
    · rename_i k rest _
      exact ⟨.sending k true, Base.getElem?_modify_of_some hcall, by simp [CallStage.distance]⟩
  | connecting =>
    refine Driven.of_step (e := .connect c true) ⟨rfl, rfl⟩ ?_
    show ∃ stage, (s.connect c true).calls[c]? = _ ∧ _
    unfold QueuePool.connect
    rw [atCall_eq hcall, hstage]
    exact ⟨.sending s.conns.length false, Base.getElem?_modify_of_some hcall, by simp [CallStage.distance]⟩
  | sending k reused =>
    refine Driven.of_step (e := .send c) rfl ?_
    show ∃ stage, (s.send c).calls[c]? = _ ∧ _
    unfold QueuePool.send
    rw [atCall_eq hcall, hstage]
    exact ⟨.awaiting k reused, Base.getElem?_modify_of_some hcall, by cases reused <;> simp [CallStage.distance]⟩
  | awaiting k reused => exact driven_of_awaiting h hcall hstage
  | returning k reused a => exact driven_of_returning hcall hstage
  | ended | raised =>
    rw [hstage] at hover
    cases hover

/-- A new call takes the next number, and begins by looking for a connection. -/
private theorem calls_call (s : QueuePool V τ) (peer : NodeInfo) (msg : Message V τ) :
    ∃ q, (s.call peer msg).calls[s.calls.length]? = some ⟨peer, msg, q, .taking⟩ := by
  have hqueue : (s.queue peer).2.calls = s.calls := by
    unfold QueuePool.queue
    split <;> rfl
  refine ⟨(s.queue peer).1, ?_⟩
  show ((s.queue peer).2.calls ++ _)[s.calls.length]? = _
  rw [hqueue]
  exact List.getElem?_concat_length

/-- A call that is over, and has not failed, has an answer of its peer to its message. -/
private theorem answered_of_fine (h : s.Paired) {call : PoolCall V τ} (hcall : s.calls[c]? = some call)
    (hfine : call.stage.Fine) (hover : call.stage.isOver = true) :
    ∃ a, call.stage = .ended (some a) ∧ a.peer = call.peer ∧ a.request = ⟨c, call.msg⟩ ∧
      a.response.isSome = true := by
  cases hstage : call.stage with
  | ended result =>
    rw [hstage] at hfine
    cases result with
    | none => exact hfine.elim
    | some a =>
      obtain ⟨hpeer, hrequest⟩ := h.answers c call a hcall (by rw [hstage]; rfl)
      exact ⟨a, rfl, hpeer, hrequest, hfine⟩
  | raised =>
    rw [hstage] at hfine
    exact hfine.elim
  | taking | connecting | sending | awaiting | returning =>
    rw [hstage] at hover
    cases hover

/-- A connection that is gone stays so. -/
private theorem gone_after {k : Nat} (h : s.Gone k) (kind : PoolKind) (max : Int) (run : PoolRun V τ) :
    (after (QueuePool.apply kind max) s run).Gone k :=
  after_keeps (P := fun s : QueuePool V τ => s.Gone k) h (fun _ e h => h.apply kind max e) run

end Run

end QueuePool

open QueuePool

/-- A call whose peer accepts a new connection and answers on it ends with an answer of the peer, whatever it finds in
its queue; it transmits its request at most twice and opens at most one connection, and the connections on which it
fails are gone. -/
theorem retry_reaches_peer (kind : PoolKind) (max : Int) (pre post : PoolRun V τ) (peer : NodeInfo) (msg : Message V τ)
    (hpost : ∀ mid e rest, post = mid ++ e :: rest →
      (poolAfter kind max (pre ++ .call peer msg :: mid)).Welcomes kind (poolAfter kind max pre).calls.length e) :
    let c := (poolAfter kind max pre).calls.length
    let begun := poolAfter kind max (pre ++ [.call peer msg])
    let s := poolAfter kind max (pre ++ .call peer msg :: post)
    ∃ call, s.calls[c]? = some call ∧
      (call.stage.isOver = true → ∃ a, call.stage = .ended (some a) ∧ a.peer = peer ∧ a.request = ⟨c, msg⟩ ∧
        a.response.isSome = true) ∧
      (call.stage.isOver = false → ∃ es : PoolRun V τ, es.length ≤ 2 ∧ (∀ e ∈ es, e.Drives c) ∧
        ∃ call', (after (QueuePool.apply kind max) s es).calls[c]? = some call' ∧
          call'.stage.distance < call.stage.distance) ∧
      tally (QueuePool.apply kind max) (fun s e => s.moves kind max c e) begun post ≤ 7 ∧
      tally (QueuePool.apply kind max) (fun s e => s.transmits c e) begun post ≤ 2 ∧
      tally (QueuePool.apply kind max) (fun s e => s.opens c e) begun post ≤ 1 ∧
      ∀ mid closeRaises rest k, post = mid ++ .fail c closeRaises :: rest →
        (poolAfter kind max (pre ++ .call peer msg :: mid)).Uses c k → s.Gone k := by
  intro c begun s
  have hsplit : ∀ mid : PoolRun V τ, poolAfter kind max (pre ++ .call peer msg :: mid) =
      after (QueuePool.apply kind max) begun mid := by
    intro mid
    rw [List.append_cons]
    exact after_append _ _
  have hcalls : begun = (poolAfter kind max pre).call peer msg := after_concat _ _
  obtain ⟨q, hbegun⟩ : ∃ q, begun.calls[c]? = some ⟨peer, msg, q, .taking⟩ :=
    hcalls ▸ calls_call (poolAfter kind max pre) peer msg
  obtain ⟨call, hcall, hserved⟩ : ∃ call, (after (QueuePool.apply kind max) begun post).calls[c]? = some call ∧
      Served kind max begun c peer msg post call :=
    served_after hbegun rfl rfl rfl fun mid e rest hmid => hsplit mid ▸ hpost mid e rest hmid
  rw [← hsplit] at hcall
  have hpaired : s.Paired := Paired.after kind max _
  refine ⟨call, hcall, fun hover => ?_, fun hover => drives hpaired hcall hover kind max, ?_, ?_, ?_,
    fun mid closeRaises rest k hmid huses => ?_⟩
  · have hanswered := answered_of_fine hpaired hcall hserved.fine hover
    rw [hserved.peer, hserved.msg] at hanswered
    exact hanswered
  · have := hserved.distance
    omega
  · have := hserved.transmissions
    omega
  · have := hserved.openings
    omega
  · have hpairedMid : (poolAfter kind max (pre ++ .call peer msg :: mid)).Paired := Paired.after kind max _
    have hgone := gone_of_fail hpairedMid huses kind closeRaises
    have hs : s = after (QueuePool.apply kind max)
        ((poolAfter kind max (pre ++ .call peer msg :: mid)).fail kind c closeRaises) rest := by
      show poolAfter kind max _ = _
      rw [hmid, hsplit, hsplit, after_append]
      rfl
    rw [hs]
    exact gone_after hgone kind max rest

/-- The peer restarts while a connection to it is idle. -/
def idleRun : PoolRun Nat Int :=
  [.call ⟨"localhost", 7001⟩ { type := .ping }, .take 0, .connect 0 true, .send 0, .answer 0 (some { type := .pong }),
    .receive 0, .put 0 false false]

def staleRun : PoolRun Nat Int :=
  [.take 1, .send 1, .lose 0, .fail 1 false, .connect 1 true, .send 1, .answer 1 (some { type := .pong }), .receive 1,
    .put 1 false false]

/-- The pool after the first events of the second call. -/
def staleAfter (mid : PoolRun Nat Int) : QueuePool Nat Int :=
  poolAfter .async 5 (idleRun ++ .call ⟨"localhost", 7001⟩ { type := .get } :: mid)

private theorem staleRun_welcomes {mid rest : PoolRun Nat Int} {e : PoolEvent Nat Int}
    (h : staleRun = mid ++ e :: rest) : (staleAfter mid).Welcomes .async 1 e := by
  refine Base.forall_splits (C := fun mid e => (staleAfter mid).Welcomes .async 1 e) (fun i hi => ?_) h
  match i, hi with
  | 0, _ | 1, _ | 2, _ | 5, _ | 6, _ => trivial
  | 3, _ =>
    have hdistance : ((staleAfter (staleRun.take 3)).calls[1]?.map fun call => call.stage.distance) = some 5 := by
      decide +kernel
    refine fun _ => ⟨fun _ => rfl, fun call hcall k => ?_⟩
    rw [show (staleAfter (staleRun.take 3)).calls[1]? = some call from hcall, Option.map_some, Option.some.injEq]
      at hdistance
    constructor <;> intro hstage <;> simp [hstage, CallStage.distance] at hdistance
  | 4, _ => exact fun _ => rfl
  | 7, _ =>
    have hmessages : ((staleAfter (staleRun.take 7)).conns.all fun conn =>
        conn.inbox.all fun a => a.response.isSome) = true := by decide +kernel
    intro _ k _ conn hconn a ha
    exact List.all_eq_true.1 (List.all_eq_true.1 hmessages conn (List.mem_of_getElem? hconn)) a ha
  | 8, _ => exact fun _ => rfl

/-- The second call finds the stale connection, and gets its answer on a new one. -/
theorem staleRun_answered :
    ∃ a : Answer Nat Int, a.peer = ⟨"localhost", 7001⟩ ∧ a.response.isSome = true ∧ (staleAfter staleRun).Gone 0 := by
  have hcalls : (poolAfter .async 5 idleRun).calls.length = 1 := by decide +kernel
  obtain ⟨call, hcall, hended, -, -, -, -, hgone⟩ := retry_reaches_peer .async 5 idleRun staleRun ⟨"localhost", 7001⟩
    { type := .get } fun mid e rest h => hcalls ▸ staleRun_welcomes h
  rw [hcalls] at hcall hended hgone
  have hover : ((staleAfter staleRun).calls[1]?.map fun call => call.stage.isOver) = some true := by decide +kernel
  rw [show (staleAfter staleRun).calls[1]? = some call from hcall] at hover
  obtain ⟨a, -, hpeer, -, hresponse⟩ := hended (Option.some.inj hover)
  have huses : (staleAfter (staleRun.take 3)).Uses 1 0 := ⟨_, true, rfl, Or.inr rfl⟩
  exact ⟨a, hpeer, hresponse, hgone (staleRun.take 3) false (staleRun.drop 4) 0 rfl huses⟩

end DLStorage
