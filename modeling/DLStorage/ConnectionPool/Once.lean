import DLStorage.ConnectionPool.Streams

/-!
# Requests of the multiplexed pool are sent once

A call of `execute` sends its request at most once, and on a connection to its own peer.  So of a call the peers find at
most one request on all connections together, or have answered it once (`MuxPool.Once`).  Every event but the sending of
a request and its answer leaves the requests as they are and lets the calls get on (`MuxPool.Advances`).
-/

namespace DLStorage

open Base (Dict after_invariant frame)

variable {V τ : Type}

/-- The call will not send its request any more. -/
def MuxStage.past : MuxStage V τ → Bool
  | handing _ | waiting | ended _ | raised => true
  | connecting | dumping _ | sending _ => false

/-- The call has got on: its arguments are the same, a call that is past sending stays so, and one that is over has the
same end. -/
structure MuxCall.Follows (call call' : MuxCall V τ) : Prop where
  peer : call'.peer = call.peer
  msg : call'.msg = call.msg
  past : call.stage.past = true → call'.stage.past = true
  final : call.stage.isOver = true → call'.stage = call.stage

theorem MuxCall.Follows.refl (call : MuxCall V τ) : call.Follows call := ⟨rfl, rfl, id, fun _ => rfl⟩

theorem MuxCall.Follows.trans {a b c : MuxCall V τ} (h : a.Follows b) (h' : b.Follows c) : a.Follows c where
  peer := h'.peer.trans h.peer
  msg := h'.msg.trans h.msg
  past ha := h'.past (h.past ha)
  final ha := (h'.final (by rw [h.final ha]; exact ha)).trans (h.final ha)

/-- A request with the peer that it goes to. -/
abbrev Addressed (V τ : Type) := NodeInfo × Request V τ

/-- The requests on the socket that the peer has not answered. -/
def MuxSocket.pending (sock : MuxSocket V τ) : List (Addressed V τ) := sock.sent.map fun request => (sock.peer, request)

def Response.addressed (r : Response V τ) : Addressed V τ := (r.peer, r.request)

namespace MuxPool

/-- The requests that have been sent: those that wait for an answer, and those that have one. -/
def requests (s : MuxPool V τ) : List (Addressed V τ) :=
  s.sockets.flatMap MuxSocket.pending ++ s.given.map Response.addressed

/-- What is on a socket stays there. -/
def Retains (s s' : MuxPool V τ) : Prop := ∀ (k : Nat) (sock : MuxSocket V τ), s.sockets[k]? = some sock →
  ∃ sock', s'.sockets[k]? = some sock' ∧ sock.pending <+: sock'.pending

/-- The calls get on. -/
def Proceeds (s s' : MuxPool V τ) : Prop := ∀ (c : Nat) (call : MuxCall V τ), s.calls[c]? = some call →
  ∃ call', s'.calls[c]? = some call' ∧ call.Follows call'

/-- The sockets carry the same requests, the answers are the same, and the calls get on. -/
structure Advances (s s' : MuxPool V τ) : Prop where
  pending : s'.sockets.flatMap MuxSocket.pending = s.sockets.flatMap MuxSocket.pending
  sockets : s.Retains s'
  given : s'.given = s.given
  calls : s.Proceeds s'

section Operations

variable {s s' s'' : MuxPool V τ} {c k : Nat} {call : MuxCall V τ} {stage : MuxStage V τ}

theorem Retains.refl (s : MuxPool V τ) : s.Retains s := fun _ sock h => ⟨sock, h, List.prefix_refl _⟩

theorem Retains.trans (h : s.Retains s') (h' : s'.Retains s'') : s.Retains s'' := by
  intro k sock hsock
  obtain ⟨sock', hsock', hprefix⟩ := h k sock hsock
  obtain ⟨sock'', hsock'', hprefix'⟩ := h' k sock' hsock'
  exact ⟨sock'', hsock'', hprefix.trans hprefix'⟩

theorem Proceeds.refl (s : MuxPool V τ) : s.Proceeds s := fun _ call h => ⟨call, h, MuxCall.Follows.refl call⟩

theorem Proceeds.trans (h : s.Proceeds s') (h' : s'.Proceeds s'') : s.Proceeds s'' := by
  intro c call hcall
  obtain ⟨call', hcall', hfollows⟩ := h c call hcall
  obtain ⟨call'', hcall'', hfollows'⟩ := h' c call' hcall'
  exact ⟨call'', hcall'', hfollows.trans hfollows'⟩

namespace Advances

theorem refl (s : MuxPool V τ) : s.Advances s := ⟨rfl, Retains.refl s, rfl, Proceeds.refl s⟩

theorem trans (h : s.Advances s') (h' : s'.Advances s'') : s.Advances s'' where
  pending := h'.pending.trans h.pending
  sockets := h.sockets.trans h'.sockets
  given := h'.given.trans h.given
  calls := h.calls.trans h'.calls

theorem requests (h : s.Advances s') : s'.requests = s.requests := by
  unfold MuxPool.requests
  rw [h.pending, h.given]

theorem of_eq (hsockets : s'.sockets = s.sockets) (hgiven : s'.given = s.given) (hcalls : s'.calls = s.calls) :
    s.Advances s' where
  pending := by rw [hsockets]
  sockets k sock h := ⟨sock, hsockets ▸ h, List.prefix_refl _⟩
  given := hgiven
  calls c call h := ⟨call, hcalls ▸ h, MuxCall.Follows.refl call⟩

end Advances

/-- A call that is replaced by one that follows it. -/
private theorem proceeds_modify {f : MuxCall V τ → MuxCall V τ} (hcalls : s'.calls = s.calls.modify c f)
    (hf : ∀ call, s.calls[c]? = some call → call.Follows (f call)) : s.Proceeds s' := by
  intro c' call hcall
  rw [hcalls]
  by_cases hc : c' = c
  · subst hc
    exact ⟨_, Base.getElem?_modify_of_some hcall, hf call hcall⟩
  · exact ⟨call, (List.getElem?_modify_ne _ _ (Ne.symm hc)).trans hcall, MuxCall.Follows.refl call⟩

private theorem proceeds_setStage (hcalls : s'.calls = (s.setStage c stage).calls) (hcall : s.calls[c]? = some call)
    (hopen : call.stage.isOver = false) (hpast : call.stage.past = true → stage.past = true) : s.Proceeds s' := by
  refine proceeds_modify hcalls ?_
  intro call' hcall'
  obtain rfl := Option.some.inj (hcall.symm.trans hcall')
  exact ⟨rfl, rfl, hpast, fun h => by rw [hopen] at h; cases h⟩

theorem advances_setStage (hcall : s.calls[c]? = some call) (hopen : call.stage.isOver = false)
    (hpast : call.stage.past = true → stage.past = true) : s.Advances (s.setStage c stage) :=
  ⟨rfl, Retains.refl s, rfl, proceeds_setStage rfl hcall hopen hpast⟩

theorem advances_setInFlight (r : InFlight V τ) : s.Advances (s.setInFlight c r) :=
  ⟨rfl, Retains.refl s, rfl, proceeds_modify rfl fun _ _ => ⟨rfl, rfl, id, fun _ => rfl⟩⟩

/-- What is on the socket only grows. -/
private theorem retains_modify {f : MuxSocket V τ → MuxSocket V τ} (hsockets : s'.sockets = s.sockets.modify k f)
    (hf : ∀ sock, s.sockets[k]? = some sock → sock.pending <+: (f sock).pending) : s.Retains s' := by
  intro k' sock hsock
  rw [hsockets]
  by_cases hk : k' = k
  · subst hk
    exact ⟨_, Base.getElem?_modify_of_some hsock, hf sock hsock⟩
  · exact ⟨sock, (List.getElem?_modify_ne _ _ (Ne.symm hk)).trans hsock, List.prefix_refl _⟩

theorem advances_setSocket {f : MuxSocket V τ → MuxSocket V τ} (hf : ∀ sock, (f sock).pending = sock.pending) :
    s.Advances (s.setSocket k f) := by
  refine ⟨?_, retains_modify rfl fun sock _ => by rw [hf], rfl, Proceeds.refl s⟩
  show (s.sockets.modify k f).flatMap MuxSocket.pending = _
  cases hsock : s.sockets[k]? with
  | none => rw [List.modify_eq_self (List.getElem?_eq_none_iff.1 hsock)]
  | some sock =>
    obtain ⟨pre, post, hsplit, hmodify⟩ := Base.modify_split f hsock
    rw [hmodify, hsplit, List.flatMap_append, List.flatMap_append, List.flatMap_cons, List.flatMap_cons, hf]

theorem advances_close : s.Advances (s.close k) := advances_setSocket fun _ => rfl

theorem advances_accept (peer : NodeInfo) : s.Advances (s.accept peer) := by
  refine ⟨?_, fun k sock h => ⟨sock, Base.getElem?_concat_of_some h, List.prefix_refl _⟩, rfl, Proceeds.refl s⟩
  -- nothing has been sent on a new connection
  simp [accept, MuxSocket.pending]

theorem advances_start (peer : NodeInfo) (msg : Message V τ) : s.Advances (s.start peer msg stage) :=
  ⟨rfl, Retains.refl s, rfl, fun _ call h => ⟨call, Base.getElem?_concat_of_some h, MuxCall.Follows.refl call⟩⟩

theorem advances_signalRegistered : s.Advances s.signalRegistered := by
  refine ⟨rfl, Retains.refl s, rfl, ?_⟩
  intro c call hcall
  rw [getElem?_signalRegistered, hcall]
  refine ⟨_, rfl, ?_⟩
  split
  · exact ⟨rfl, rfl, id, fun _ => rfl⟩
  · exact MuxCall.Follows.refl call

theorem advances_closeEach (socks : List Nat) : s.Advances (s.closeEach socks) := by
  induction socks generalizing s with
  | nil => exact Advances.refl s
  | cons k socks ih => exact advances_close.trans ih

theorem advances_fail (k c : Nat) : s.Advances (s.fail k c) := by
  refine atCall_of (Advances.refl s) fun call _ => ?_
  have hunregister : s.Advances (s.unregister k) := Advances.of_eq rfl rfl rfl
  exact (hunregister.trans advances_close).trans (advances_setInFlight _)

theorem advances_settle (k c : Nat) (result : Option (Except WireError (Message V τ))) :
    s.Advances (s.settle k c result) := by
  cases result with
  | none => exact Advances.refl s
  | some result =>
    cases result with
    | error e => exact advances_fail k c
    | ok msg =>
      unfold settle
      simp only
      split
      · exact Advances.of_eq rfl rfl rfl
      · exact Advances.of_eq rfl rfl rfl

end Operations

/-! ### One event -/

section Events

variable {p : Pickle V τ} {max : Int} {s : MuxPool V τ}

theorem advances_call (peer : NodeInfo) (msg : Message V τ) : s.Advances (s.call peer msg) := by
  unfold MuxPool.call
  split
  · exact advances_start peer msg
  · have hidle : s.Advances (s.setIdle peer (s.idleAt peer).dropLast) := Advances.of_eq rfl rfl rfl
    exact hidle.trans (advances_start peer msg)

theorem advances_connect (c : Nat) (accepted : Bool) : s.Advances (s.connect c accepted) := by
  refine atCall_of (Advances.refl s) fun call hcall => ?_
  split
  · rename_i hstage
    split
    · have hcall' : (s.accept call.peer).calls[c]? = some call := hcall
      refine (advances_accept call.peer).trans (advances_setStage hcall' ?_ ?_)
      · rw [hstage]; rfl
      · rw [hstage]; exact fun h => by cases h
    · exact advances_setStage hcall (by rw [hstage]; rfl) fun _ => rfl
  · exact Advances.refl s

theorem advances_dump (c : Nat) : s.Advances (s.dump p c) := by
  refine atCall_of (Advances.refl s) fun call hcall => ?_
  split
  · rename_i k hstage
    split
    · exact advances_setStage hcall (by rw [hstage]; rfl) (by rw [hstage]; exact fun h => by cases h)
    · exact advances_setStage hcall (by rw [hstage]; rfl) fun _ => rfl
  · exact Advances.refl s

/-- A send that fails. -/
theorem advances_send (c : Nat) (closeRaises : Bool) : s.Advances (s.send c false closeRaises) := by
  refine atCall_of (Advances.refl s) fun call hcall => ?_
  split
  · rename_i k hstage
    rw [if_neg Bool.false_ne_true]
    have hcall' : (s.close k).calls[c]? = some call := hcall
    refine advances_close.trans (advances_setStage hcall' (by rw [hstage]; rfl) fun _ => ?_)
    cases closeRaises <;> rfl
  · exact Advances.refl s

theorem advances_handOver (c : Nat) : s.Advances (s.handOver c) := by
  refine atCall_of (Advances.refl s) fun call hcall => ?_
  split
  · rename_i k hstage
    have hqueue : s.Advances (s.enqueue k c) := Advances.of_eq rfl rfl rfl
    have hcall' : (s.enqueue k c).calls[c]? = some call := hcall
    exact hqueue.trans (advances_setStage hcall' (by rw [hstage]; rfl) fun _ => rfl)
  · exact Advances.refl s

theorem advances_wake (c : Nat) : s.Advances (s.wake c) := by
  refine atCall_of (Advances.refl s) fun call hcall => ?_
  split
  · rename_i hstage
    exact advances_setStage hcall (by rw [hstage]; rfl) fun _ => rfl
  · exact Advances.refl s

theorem advances_register : s.Advances s.register := by
  unfold MuxPool.register
  split
  · split
    · exact Advances.of_eq rfl rfl rfl
    · exact Advances.of_eq rfl rfl rfl
  · exact Advances.refl s

theorem advances_read (k n : Nat) : s.Advances (s.read p k n) := by
  refine atRegistered_of (Advances.refl s) fun c sock call _ _ _ _ => ?_
  simp only
  split
  · exact advances_fail k c
  · split
    · exact Advances.refl s
    · refine Advances.trans ?_ (advances_settle k c _)
      refine Advances.trans ?_ (advances_setInFlight _)
      exact advances_setSocket fun _ => rfl

theorem advances_lose (k : Nat) : s.Advances (s.lose k) :=
  atRegistered_of (Advances.refl s) fun c _ _ _ _ _ _ => advances_fail k c

theorem advances_giveBack (closeRaises : Bool) : s.Advances (s.giveBack max closeRaises) := by
  unfold MuxPool.giveBack
  split
  · rename_i k c msg _
    refine atCall_of (Advances.refl s) fun call _ => ?_
    simp only
    split
    · exact Advances.of_eq rfl rfl rfl
    · have hidle : s.Advances (s.setIdle call.inflight.address (s.idleAt call.inflight.address)) :=
        Advances.of_eq rfl rfl rfl
      exact (hidle.trans advances_close).trans (Advances.of_eq rfl rfl rfl)
  · exact Advances.refl s

theorem advances_deliver : s.Advances s.deliver := by
  unfold MuxPool.deliver
  split
  · refine atCall_of (Advances.refl s) fun call _ => ?_
    exact (advances_setInFlight _).trans (Advances.of_eq rfl rfl rfl)
  · exact Advances.refl s

theorem advances_leave : s.Advances s.leave := by
  unfold MuxPool.leave
  split
  · split
    · exact advances_signalRegistered.trans (Advances.of_eq rfl rfl rfl)
    · exact Advances.of_eq rfl rfl rfl
  · exact Advances.refl s

theorem advances_closePeer (peer : NodeInfo) : s.Advances (s.closePeer peer) := by
  have hidle : s.Advances { s with idle := s.idle.del peer } := Advances.of_eq rfl rfl rfl
  exact hidle.trans (advances_closeEach _)

theorem advances_join (i : Nat) : s.Advances (s.join i) := by
  unfold MuxPool.join
  split
  · exact Advances.of_eq rfl rfl rfl
  · exact Advances.refl s

theorem advances_closeIdle (i : Nat) : s.Advances (s.closeIdle i) := by
  unfold MuxPool.closeIdle
  split
  · have hidle : s.Advances { s with idle := Dict.empty, closings := s.closings.set i .returned } :=
      Advances.of_eq rfl rfl rfl
    exact hidle.trans (advances_closeEach _)
  · exact Advances.refl s

end Events

end MuxPool

/-- The sending of a request and the answer to one. -/
def MuxEvent.exchanges : MuxEvent V τ → Bool
  | .send _ accepted _ => accepted
  | .answer .. => true
  | _ => false

namespace MuxPool

variable {p : Pickle V τ} {max : Int} {s s' : MuxPool V τ}

theorem advances_apply {e : MuxEvent V τ} (he : e.exchanges = false) : s.Advances (s.apply p max e) := by
  cases e with
  | call peer msg => exact advances_call peer msg
  | connect c accepted => exact advances_connect c accepted
  | dump c => exact advances_dump c
  | send c accepted closeRaises =>
    obtain rfl : accepted = false := he
    exact advances_send c closeRaises
  | handOver c => exact advances_handOver c
  | wake c => exact advances_wake c
  | answer k body => cases he
  | register => exact advances_register
  | read k n => exact advances_read k n
  | lose k => exact advances_lose k
  | giveBack closeRaises => exact advances_giveBack closeRaises
  | deliver => exact advances_deliver
  | leave => exact advances_leave
  | closePeer peer => exact advances_closePeer peer
  | closeAll => exact Advances.of_eq rfl rfl rfl
  | join i => exact advances_join i
  | closeIdle i => exact advances_closeIdle i

/-- Call `c` has sent its request. -/
structure Sends (s s' : MuxPool V τ) (c : Nat) (call : MuxCall V τ) : Prop where
  perm : s'.requests.Perm ((call.peer, ⟨c, call.msg⟩) :: s.requests)
  sockets : s.Retains s'
  given : s'.given = s.given
  past : ∃ call', s'.calls[c]? = some call' ∧ call'.stage.past = true
  calls : s.Proceeds s'

theorem send_cases (h : s.Paired p) (c : Nat) (closeRaises : Bool) : s.Advances (s.send c true closeRaises) ∨
    ∃ call, s.calls[c]? = some call ∧ call.stage.past = false ∧ s.Sends (s.send c true closeRaises) c call := by
  refine atCall_of (P := fun s' => s.Advances s' ∨ ∃ call, s.calls[c]? = some call ∧ call.stage.past = false ∧
    s.Sends s' c call) (Or.inl (Advances.refl s)) fun call hcall => ?_
  split
  · rename_i k hstage
    refine Or.inr ⟨call, hcall, by rw [hstage]; rfl, ?_⟩
    simp only [if_true]
    obtain ⟨sock, hsock, call₁, hcall₁, hpeer, -⟩ := h.fits k (.held c) ⟨call, hcall, by rw [hstage]; rfl⟩
    obtain rfl := Option.some.inj (hcall.symm.trans hcall₁)
    refine ⟨?_, retains_modify rfl fun sock _ => ?_, rfl, ⟨_, Base.getElem?_modify_of_some hcall, rfl⟩,
      proceeds_setStage rfl hcall (by rw [hstage]; rfl) fun _ => rfl⟩
    rotate_left
    · simp [MuxSocket.pending]
    obtain ⟨pre, post, hsplit, hmodify⟩ :=
      Base.modify_split (fun sock => ({ sock with sent := sock.sent ++ [⟨c, call.msg⟩] } : MuxSocket V τ)) hsock
    show ((s.sockets.modify k _).flatMap MuxSocket.pending ++ s.given.map Response.addressed).Perm _
    unfold MuxPool.requests
    rw [hmodify, hsplit]
    simp only [List.flatMap_append, List.flatMap_cons, MuxSocket.pending, List.map_append, List.map_cons,
      List.map_nil, hpeer, List.append_assoc, List.cons_append, List.nil_append]
    exact (List.perm_middle.append_left _).trans List.perm_middle
  · exact Or.inl (Advances.refl s)

/-- The peer of socket `k` has answered a request. -/
structure Answers (s s' : MuxPool V τ) (k : Nat) (response : Response V τ) : Prop where
  perm : s'.requests.Perm s.requests
  given : s'.given = s.given ++ [response]
  calls : s'.calls = s.calls
  others : ∀ k' ≠ k, s'.sockets[k']? = s.sockets[k']?

theorem answer_spec {k : Nat} {sock : MuxSocket V τ} {request : Request V τ} {rest : List (Request V τ)}
    {body : List UInt8} (hsock : s.sockets[k]? = some sock) (hsent : sock.sent = request :: rest)
    (hlen : body.length < 256 ^ headerSize) : s.Answers (s.answer k body) k ⟨sock.peer, request, body⟩ := by
  obtain ⟨pre, post, hsplit, hmodify⟩ := Base.modify_split (fun sock =>
    ({ sock with sent := rest, unread := sock.unread ++ frame headerSize body } : MuxSocket V τ)) hsock
  unfold MuxPool.answer
  rw [hsock]
  simp only [hsent, if_pos hlen]
  refine ⟨?_, rfl, rfl, fun k' hk => List.getElem?_modify_ne _ _ (Ne.symm hk)⟩
  show ((s.sockets.modify k _).flatMap MuxSocket.pending ++
    (s.given ++ [(⟨sock.peer, request, body⟩ : Response V τ)]).map Response.addressed).Perm _
  unfold MuxPool.requests
  rw [hmodify, hsplit]
  simp only [List.flatMap_append, List.flatMap_cons, MuxSocket.pending, List.map_append, List.map_cons,
    List.map_nil, hsent, Response.addressed, List.append_assoc, List.cons_append]
  refine List.Perm.append_left _ ?_
  rw [← List.append_assoc, ← List.append_assoc, ← List.append_assoc]
  exact List.perm_append_singleton _ _

theorem answer_cases (k : Nat) (body : List UInt8) :
    s.Advances (s.answer k body) ∨ ∃ response, s.Answers (s.answer k body) k response := by
  cases hsock : s.sockets[k]? with
  | none =>
    unfold MuxPool.answer
    rw [hsock]
    exact Or.inl (Advances.refl s)
  | some sock =>
    cases hsent : sock.sent with
    | nil =>
      unfold MuxPool.answer
      simp only [hsock, hsent]
      exact Or.inl (Advances.refl s)
    | cons request rest =>
      by_cases hlen : body.length < 256 ^ headerSize
      · exact Or.inr ⟨_, answer_spec hsock hsent hlen⟩
      · unfold MuxPool.answer
        simp only [hsock, hsent, if_neg hlen]
        exact Or.inl (Advances.refl s)

theorem proceeds_answer (k : Nat) (body : List UInt8) : s.Proceeds (s.answer k body) := by
  rcases answer_cases (s := s) k body with hadv | ⟨response, hanswers⟩
  · exact hadv.calls
  · intro c call hcall
    exact ⟨call, hanswers.calls ▸ hcall, MuxCall.Follows.refl call⟩

/-- No request has been sent twice, and each is the request of its call. -/
structure Once (s : MuxPool V τ) : Prop where
  nodup : (s.requests.map fun x => x.2.call).Nodup
  own : ∀ x ∈ s.requests, ∃ call, s.calls[x.2.call]? = some call ∧ call.stage.past = true ∧ call.peer = x.1 ∧
    call.msg = x.2.msg

namespace Once

theorem empty : (empty : MuxPool V τ).Once where
  nodup := List.nodup_nil
  own x hx := by cases hx

/-- The requests stay the same, in some order, and the calls get on. -/
theorem follow (h : s.Once) (hperm : s'.requests.Perm s.requests) (hcalls : s.Proceeds s') : s'.Once where
  nodup := (hperm.map _).nodup_iff.2 h.nodup
  own x hx := by
    obtain ⟨call, hcall, hpast, hpeer, hmsg⟩ := h.own x (hperm.mem_iff.1 hx)
    obtain ⟨call', hcall', hfollows⟩ := hcalls _ call hcall
    exact ⟨call', hcall', hfollows.past hpast, hfollows.peer.trans hpeer, hfollows.msg.trans hmsg⟩

theorem send (h : s.Once) (hp : s.Paired p) (c : Nat) (closeRaises : Bool) : (s.send c true closeRaises).Once := by
  rcases send_cases hp c closeRaises with hadv | ⟨call, hcall, hpast, hsends⟩
  · exact h.follow (by rw [hadv.requests]) hadv.calls
  · constructor
    · refine (hsends.perm.map _).nodup_iff.2 (List.nodup_cons.2 ⟨?_, h.nodup⟩)
      -- the requests that there are belong to calls that are past sending
      intro hmem
      obtain ⟨x, hx, hxc⟩ := List.mem_map.1 hmem
      obtain ⟨call₁, hcall₁, hpast₁, -⟩ := h.own x hx
      have hsame : call₁ = call := Option.some.inj ((by rw [← hcall₁, hxc] : some call₁ = s.calls[c]?).trans hcall)
      rw [hsame, hpast] at hpast₁
      cases hpast₁
    · intro x hx
      obtain ⟨call', hcall', hpast'⟩ := hsends.past
      rcases List.mem_cons.1 (hsends.perm.mem_iff.1 hx) with rfl | hx
      · obtain ⟨call'', hcall'', hfollows⟩ := hsends.calls c call hcall
        obtain rfl := Option.some.inj (hcall'.symm.trans hcall'')
        exact ⟨call', hcall', hpast', hfollows.peer, hfollows.msg⟩
      · obtain ⟨call₁, hcall₁, hpast₁, hpeer, hmsg⟩ := h.own x hx
        obtain ⟨call₂, hcall₂, hfollows⟩ := hsends.calls _ call₁ hcall₁
        exact ⟨call₂, hcall₂, hfollows.past hpast₁, hfollows.peer.trans hpeer, hfollows.msg.trans hmsg⟩

theorem answer (h : s.Once) (k : Nat) (body : List UInt8) : (s.answer k body).Once := by
  rcases answer_cases (s := s) k body with hadv | ⟨response, hanswers⟩
  · exact h.follow (by rw [hadv.requests]) hadv.calls
  · exact h.follow hanswers.perm (proceeds_answer k body)

theorem apply (h : s.Once) (hp : s.Paired p) (e : MuxEvent V τ) : (s.apply p max e).Once := by
  cases he : e.exchanges with
  | false =>
    have hadv : s.Advances (s.apply p max e) := advances_apply he
    exact h.follow (by rw [hadv.requests]) hadv.calls
  | true =>
    cases e with
    | send c accepted closeRaises =>
      obtain rfl : accepted = true := he
      exact h.send hp c closeRaises
    | answer k body => exact h.answer k body
    | _ => cases he

/-- Different sockets carry requests of different calls. -/
theorem apart (h : s.Once) {k k' : Nat} {sock sock' : MuxSocket V τ} (hsock : s.sockets[k]? = some sock)
    (hsock' : s.sockets[k']? = some sock') {x x' : Addressed V τ} (hx : x ∈ sock.pending) (hx' : x' ∈ sock'.pending)
    (hcall : x.2.call = x'.2.call) : k = k' := by
  have hnodup : (s.sockets.flatMap fun sock => sock.pending.map fun x => x.2.call).Nodup := by
    have hall := h.nodup
    unfold requests at hall
    rw [List.map_append, List.map_flatMap] at hall
    exact (List.nodup_append.1 hall).1
  have hpairwise := (List.nodup_flatMap.1 hnodup).2
  obtain ⟨hk, rfl⟩ := List.getElem?_eq_some_iff.1 hsock
  obtain ⟨hk', rfl⟩ := List.getElem?_eq_some_iff.1 hsock'
  rw [List.pairwise_iff_getElem] at hpairwise
  have hmem := List.mem_map_of_mem (f := fun x : Addressed V τ => x.2.call) hx
  have hmem' := List.mem_map_of_mem (f := fun x : Addressed V τ => x.2.call) hx'
  rcases lt_trichotomy k k' with hlt | heq | hlt
  · exact absurd (hcall ▸ hmem') (hpairwise k k' hk hk' hlt hmem)
  · exact heq
  · exact absurd (hcall ▸ hmem) (hpairwise k' k hk' hk hlt hmem')

/-- A request that waits for an answer has none. -/
theorem unanswered (h : s.Once) {k : Nat} {sock : MuxSocket V τ} (hsock : s.sockets[k]? = some sock)
    {x : Addressed V τ} (hx : x ∈ sock.pending) {r : Response V τ} (hr : r ∈ s.given) :
    r.request.call ≠ x.2.call := by
  have hall := h.nodup
  unfold requests at hall
  rw [List.map_append] at hall
  have hmem : x ∈ s.sockets.flatMap MuxSocket.pending :=
    List.mem_flatMap.2 ⟨sock, List.mem_of_getElem? hsock, hx⟩
  have hleft := List.mem_map_of_mem (f := fun x : Addressed V τ => x.2.call) hmem
  have hgiven := List.mem_map_of_mem (f := Response.addressed) hr
  have hright := List.mem_map_of_mem (f := fun x : Addressed V τ => x.2.call) hgiven
  exact fun heq => (List.nodup_append.1 hall).2.2 _ hleft _ hright heq.symm

end Once

/-- The invariants of the pool. -/
structure Regular (p : Pickle V τ) (s : MuxPool V τ) : Prop where
  placed : s.Placed
  paired : s.Paired p
  once : s.Once

theorem Regular.empty : (empty : MuxPool V τ).Regular p := ⟨Placed.empty, Paired.empty, Once.empty⟩

theorem Regular.apply (h : s.Regular p) (max : Int) (e : MuxEvent V τ) : (s.apply p max e).Regular p :=
  ⟨h.placed.apply p max e, h.paired.apply h.placed max e, h.once.apply h.paired e⟩

end MuxPool

def MuxEvent.isAnswer : MuxEvent V τ → Bool
  | .answer .. => true
  | _ => false

/-- What an event that is not an answer leaves. -/
theorem MuxPool.apply_frame {p : Pickle V τ} {s : MuxPool V τ} (h : s.Paired p) (max : Int) {e : MuxEvent V τ}
    (he : e.isAnswer = false) :
    s.Proceeds (s.apply p max e) ∧ s.Retains (s.apply p max e) ∧ (s.apply p max e).given = s.given := by
  cases hx : e.exchanges with
  | false =>
    have hadv : s.Advances (s.apply p max e) := advances_apply hx
    exact ⟨hadv.calls, hadv.sockets, hadv.given⟩
  | true =>
    cases e with
    | send c accepted closeRaises =>
      obtain rfl : accepted = true := hx
      rcases send_cases h c closeRaises with hadv | ⟨call, -, -, hsends⟩
      · exact ⟨hadv.calls, hadv.sockets, hadv.given⟩
      · exact ⟨hsends.calls, hsends.sockets, hsends.given⟩
    | answer k body => cases he
    | _ => cases hx

end DLStorage
