import DLStorage.ConnectionPool.Places

/-!
# What the multiplexed pool closes

Every open socket is idle or with a call that has not ended (`Accounted`), for as long as no event loses a socket
(`LosesNothing`).  Four do: a message that cannot be pickled raises out of `execute`, which has a socket by then; a wait
ends while the socket is with the selector thread; and, where `join` has timed out, the thread takes a socket out of the
queue that the closed selector does not register, or gives one back after `close_all` has emptied the deques.
-/

namespace DLStorage

open Base (Dict after_invariant frame)

variable {V τ : Type}

namespace MuxPool

variable (p : Pickle V τ) (max : Int) (s : MuxPool V τ)

/-- The place is a deque, or with a call that has not ended. -/
def Owns : Place → Prop
  | .held c | .queued c | .registered c | .returning c => ∃ call, s.calls[c]? = some call ∧ call.stage.isOver = false
  | .idle _ => True
  | .closed => False

/-- Every open socket is idle, or belongs to a call that has not ended. -/
def Accounted : Prop := ∀ k, s.isOpen k = true → ∃ q, s.lies k q ∧ s.Owns q

/-- The event loses no socket. -/
def LosesNothing : MuxEvent V τ → Prop
  | .dump c => ∀ (call : MuxCall V τ) (k : Nat), s.calls[c]? = some call → call.stage = .dumping k →
      ∃ data, p.dumps call.msg = .ok data ∧ data.length < 256 ^ headerSize
  | .wake c => ∀ call : MuxCall V τ, s.calls[c]? = some call → call.stage = .waiting →
      ∀ (k : Nat) (q : Place), q.record = some c → ¬ s.lies k q
  | .register => s.selector = .polling → s.regQueue ≠ [] → s.selOpen = true
  | .giveBack _ => ∀ (k c : Nat) (msg : Message V τ) (call : MuxCall V τ), s.selector = .returning k c msg →
      s.calls[c]? = some call → (s.idleAt call.inflight.address).length < max → ClosingStage.returned ∉ s.closings
  | .call _ _ | .connect _ _ | .send _ _ _ | .handOver _ | .answer _ _ | .read _ _ | .lose _ | .deliver | .leave
  | .closePeer _ | .closeAll | .join _ | .closeIdle _ => True

/-- A call of `close_all` has returned, and every call of `execute` has ended. -/
def ShutDown : Prop :=
  ClosingStage.returned ∈ s.closings ∧
    ∀ (c : Nat) (call : MuxCall V τ), s.calls[c]? = some call → call.stage.isOver = true

/-- Nothing is idle when a call of `close_all` has returned. -/
def Drained : Prop := ClosingStage.returned ∈ s.closings → ∀ peer, s.idleAt peer = []

variable {p} {max} {s} {s' : MuxPool V τ}

/-! ### Open sockets -/

section Operations

variable {k k' : Nat} {f : MuxSocket V τ → MuxSocket V τ}

theorem isOpen_setSocket (hf : ∀ sock, (f sock).isOpen = sock.isOpen) : (s.setSocket k f).isOpen k' = s.isOpen k' := by
  show ((s.sockets.modify k f)[k']?).any MuxSocket.isOpen = (s.sockets[k']?).any MuxSocket.isOpen
  rw [List.getElem?_modify]
  cases s.sockets[k']? with
  | none => rfl
  | some sock =>
    by_cases hk : k = k'
    · simp [hk, hf]
    · simp [hk]

/-- What is open after `close()` was open, and is another socket. -/
theorem isOpen_of_close (h : (s.close k').isOpen k = true) : k ≠ k' ∧ s.isOpen k = true := by
  have hany : ((s.sockets.modify k' fun sock => { sock with isOpen := false })[k]?).any MuxSocket.isOpen = true := h
  obtain ⟨sock, hsock, hopen⟩ := (Option.any_eq_true _ _).1 hany
  obtain ⟨old, hold, ⟨-, rfl⟩ | ⟨hk, rfl⟩⟩ := Base.getElem?_modify_some hsock
  · cases hopen
  · exact ⟨hk, (Option.any_eq_true _ _).2 ⟨_, hold, hopen⟩⟩

theorem isOpen_of_closeEach {socks : List Nat} (h : (s.closeEach socks).isOpen k = true) :
    k ∉ socks ∧ s.isOpen k = true := by
  induction socks generalizing s with
  | nil => exact ⟨List.not_mem_nil, h⟩
  | cons k' rest ih =>
    obtain ⟨hrest, hopen⟩ := ih (s := s.close k') h
    obtain ⟨hk, hopen⟩ := isOpen_of_close hopen
    exact ⟨fun hmem => (List.mem_cons.1 hmem).elim hk hrest, hopen⟩

theorem Owns.mono {q : Place} (h : s.Owns q)
    (hcalls : ∀ (c : Nat) (call : MuxCall V τ), q.call = some c → s.calls[c]? = some call → call.stage.isOver = false →
      ∃ call', s'.calls[c]? = some call' ∧ call'.stage.isOver = false) : s'.Owns q := by
  cases q with
  | held c | queued c | registered c | returning c =>
    obtain ⟨call, hcall, hover⟩ := h
    exact hcalls c call rfl hcall hover
  | idle peer => trivial
  | closed => exact h

/-- While the calls are the same, so are the owners. -/
theorem Owns.congr {q : Place} (h : s.Owns q) (hcalls : s'.calls = s.calls) : s'.Owns q :=
  h.mono fun _ call _ hc hover => ⟨call, hcalls ▸ hc, hover⟩

end Operations

/-- A call goes to another stage; it keeps what it has, or has nothing. -/
theorem Owns.setStage {q : Place} {c : Nat} {stage : MuxStage V τ} (h : s.Owns q)
    (hc : q.call = some c → stage.isOver = false) : (s.setStage c stage).Owns q := by
  refine h.mono fun c' call hq hcall hover => ?_
  by_cases hcc : c' = c
  · subst hcc
    exact ⟨_, Base.getElem?_modify_of_some hcall, hc hq⟩
  · exact ⟨call, (List.getElem?_modify_ne _ _ (Ne.symm hcc)).trans hcall, hover⟩

theorem Owns.setInFlight {q : Place} {c : Nat} {r : InFlight V τ} (h : s.Owns q) : (s.setInFlight c r).Owns q := by
  refine h.mono fun c' call _ hcall hover => ?_
  by_cases hcc : c' = c
  · subst hcc
    exact ⟨_, Base.getElem?_modify_of_some hcall, hover⟩
  · exact ⟨call, (List.getElem?_modify_ne _ _ (Ne.symm hcc)).trans hcall, hover⟩

theorem Owns.start {q : Place} {peer : NodeInfo} {msg : Message V τ} {stage : MuxStage V τ} (h : s.Owns q) :
    (s.start peer msg stage).Owns q :=
  h.mono fun _ call _ hcall hover => ⟨call, Base.getElem?_concat_of_some hcall, hover⟩

theorem Owns.signalRegistered {q : Place} (h : s.Owns q) : s.signalRegistered.Owns q := by
  refine h.mono fun c call _ hcall hover => ?_
  rw [getElem?_signalRegistered, hcall]
  refine ⟨_, rfl, ?_⟩
  split <;> exact hover

/-- A socket that is idle lies in a deque of the pool. -/
private theorem exists_deque {peer : NodeInfo} (h : k ∈ s.idleAt peer) :
    ∃ socks, (peer, socks) ∈ s.idle.items ∧ k ∈ socks := by
  unfold idleAt at h
  cases hget : s.idle.get peer with
  | none =>
    rw [hget] at h
    cases h
  | some socks =>
    rw [hget] at h
    exact ⟨socks, (Dict.mem_items_iff _).2 hget, h⟩

namespace Accounted

theorem empty : (empty : MuxPool V τ).Accounted := by
  intro k hk
  simp [MuxPool.empty, isOpen] at hk

/-- What is open was open, and what had an owner has one. -/
theorem step (h : s.Accounted)
    (hstep : ∀ k, s'.isOpen k = true →
      s.isOpen k = true ∧ ∀ q, s.lies k q → s.Owns q → ∃ q', s'.lies k q' ∧ s'.Owns q') : s'.Accounted := by
  intro k hk
  obtain ⟨hopen, hmoves⟩ := hstep k hk
  obtain ⟨q, hq, howns⟩ := h k hopen
  exact hmoves q hq howns

/-! ### Every event accounts for the open sockets -/

variable {c k : Nat}

theorem call (h : s.Accounted) (peer : NodeInfo) (msg : Message V τ) : (s.call peer msg).Accounted := by
  unfold MuxPool.call
  split
  · exact h.step fun k hk => ⟨hk, fun q hq howns => ⟨q, lies_start.2 (Or.inr hq), howns.start⟩⟩
  · rename_i k hlast
    refine h.step fun k' hk' => ⟨hk', fun q hq howns => ?_⟩
    by_cases hkk : k' = k
    · subst hkk
      exact ⟨.held s.calls.length, lies_start.2 (Or.inl ⟨rfl, rfl⟩), _, List.getElem?_concat_length, rfl⟩
    · refine ⟨q, lies_start.2 (Or.inr (lies_setIdle.2 ?_)), (Owns.congr howns rfl).start⟩
      by_cases hpeer : q = .idle peer
      · subst hpeer
        have hmem : k' ∈ s.idleAt peer := hq
        rw [← List.dropLast_append_getLast? k hlast, List.mem_append, List.mem_singleton] at hmem
        exact Or.inl ⟨rfl, hmem.resolve_right hkk⟩
      · exact Or.inr ⟨hpeer, hq⟩

theorem connect (h : s.Accounted) (hs : s.Placed) (accepted : Bool) : (s.connect c accepted).Accounted := by
  apply atCall_of h
  intro call hcall
  split
  · rename_i hstage
    have hnone := hs.not_has hcall (by rw [hstage]; rfl) (by rw [hstage]; rfl)
    have hheld : ∀ {k q}, s.lies k q → q ≠ .held c := by
      rintro k q hq rfl
      exact hnone k ⟨_, rfl, hq⟩
    split
    · intro k hk
      have hany : ((s.accept call.peer).sockets[k]?).any MuxSocket.isOpen = true := hk
      obtain ⟨sock, hsock, hopen⟩ := (Option.any_eq_true _ _).1 hany
      rcases Base.getElem?_concat_some hsock with hold | ⟨rfl, -⟩
      · obtain ⟨q, hq, howns⟩ := h k ((Option.any_eq_true _ _).2 ⟨sock, hold, hopen⟩)
        refine ⟨q, (lies_setStage (s := s.accept call.peer) hcall).2 (Or.inr ⟨hheld hq, lies_accept.2 hq⟩), ?_⟩
        exact Owns.setStage (Owns.congr howns rfl) fun _ => rfl
      · exact ⟨.held c, ⟨_, Base.getElem?_modify_of_some hcall, rfl⟩, _, Base.getElem?_modify_of_some hcall, rfl⟩
    · refine h.step fun k hk => ⟨hk, fun q hq howns => ⟨q, (lies_setStage hcall).2 (Or.inr ⟨hheld hq, hq⟩), ?_⟩⟩
      exact howns.setStage fun hc => absurd ⟨q, hc, hq⟩ (hnone k)
  · exact h

/-- A call that keeps its socket goes on. -/
private theorem setStage (h : s.Accounted) {call : MuxCall V τ} {stage : MuxStage V τ} (hcall : s.calls[c]? = some call)
    (hsocket : stage.socket = call.stage.socket) (hover : stage.isOver = false) : (s.setStage c stage).Accounted := by
  refine h.step fun k hk => ⟨hk, fun q hq howns => ⟨q, (lies_setStage hcall).2 ?_, howns.setStage fun _ => hover⟩⟩
  by_cases hheld : q = .held c
  · subst hheld
    obtain ⟨call', hcall', hsock⟩ := hq
    obtain rfl : call = call' := Option.some.inj (hcall.symm.trans hcall')
    exact Or.inl ⟨rfl, hsocket.trans hsock⟩
  · exact Or.inr ⟨hheld, hq⟩

theorem dump (h : s.Accounted) (hloses : s.LosesNothing p max (.dump c)) : (s.dump p c).Accounted := by
  apply atCall_of h
  intro call hcall
  split
  · rename_i k hstage
    obtain ⟨data, hdata, hlength⟩ := hloses call k hcall hstage
    have hdumps : ((p.dumps call.msg).bind fun data => toBytes data.length) =
        .ok (Base.bigEndian headerSize data.length) := by
      rw [hdata]
      exact if_pos hlength
    rw [hdumps]
    exact h.setStage hcall (by rw [hstage]; rfl) rfl
  · exact h

private theorem setSocket (h : s.Accounted) {f : MuxSocket V τ → MuxSocket V τ}
    (hf : ∀ sock, (f sock).isOpen = sock.isOpen) : (s.setSocket k f).Accounted :=
  h.step fun _ hk => ⟨(isOpen_setSocket hf).symm.trans hk,
    fun q hq howns => ⟨q, (lies_setSocket hf).2 hq, howns.congr rfl⟩⟩

theorem send (h : s.Accounted) (hs : s.Placed) (accepted closeRaises : Bool) :
    (s.send c accepted closeRaises).Accounted := by
  apply atCall_of h
  intro call hcall
  split
  · rename_i k hstage
    have hheld : s.lies k (.held c) := ⟨call, hcall, by rw [hstage]; rfl⟩
    split
    · apply Accounted.setStage (s := s.setSocket k _) (h.setSocket fun _ => ?_) hcall (by rw [hstage]; rfl) rfl
      rfl
    · refine h.step fun k' hk' => ?_
      obtain ⟨hne, hopen⟩ := isOpen_of_close hk'
      refine ⟨hopen, fun q hq howns => ⟨q, lies_close.2 (Or.inr ((lies_setStage hcall).2 (Or.inr ⟨?_, hq⟩))), ?_⟩⟩
      · rintro rfl
        exact hne (hs.single c k' k ⟨_, rfl, hq⟩ ⟨_, rfl, hheld⟩)
      · exact Owns.congr (howns.setStage fun hc => absurd (hs.single c k' k ⟨_, hc, hq⟩ ⟨_, rfl, hheld⟩) hne) rfl
  · exact h

theorem handOver (h : s.Accounted) (hs : s.Placed) : (s.handOver c).Accounted := by
  apply atCall_of h
  intro call hcall
  split
  · rename_i k hstage
    have hheld : s.lies k (.held c) := ⟨call, hcall, by rw [hstage]; rfl⟩
    refine h.step fun k' hk' => ⟨hk', fun q hq howns => ?_⟩
    by_cases hq' : q = .held c
    · subst hq'
      obtain rfl := hs.single c k' k ⟨_, rfl, hq⟩ ⟨_, rfl, hheld⟩
      refine ⟨.queued c, (lies_setStage (s := s.enqueue k' c) hcall).2 (Or.inr ⟨nofun, lies_enqueue.2 ?_⟩), ?_⟩
      · exact Or.inl ⟨rfl, rfl⟩
      · exact ⟨_, Base.getElem?_modify_of_some hcall, rfl⟩
    · refine ⟨q, (lies_setStage (s := s.enqueue k c) hcall).2 (Or.inr ⟨hq', lies_enqueue.2 (Or.inr hq)⟩), ?_⟩
      exact Owns.setStage (Owns.congr howns rfl) fun _ => rfl
  · exact h

theorem wake (h : s.Accounted) (hloses : s.LosesNothing p max (.wake c)) : (s.wake c).Accounted := by
  apply atCall_of h
  intro call hcall
  split
  · rename_i hstage
    -- the socket of a waiting call would be with the selector thread
    have hnone : ∀ k, ¬ s.Has c k := by
      intro k hhas
      rcases Placed.cases_of_has hhas with ⟨call', hcall', hsock⟩ | ⟨q, hq, hk⟩
      · obtain rfl : call = call' := Option.some.inj (hcall.symm.trans hcall')
        rw [hstage] at hsock
        cases hsock
      · exact hloses call hcall hstage k q hq hk
    refine h.step fun k hk => ⟨hk, fun q hq howns => ⟨q, (lies_setStage hcall).2 (Or.inr ⟨?_, hq⟩), ?_⟩⟩
    · rintro rfl
      exact hnone k ⟨_, rfl, hq⟩
    · exact howns.setStage fun hc => absurd ⟨q, hc, hq⟩ (hnone k)
  · exact h

theorem answer (h : s.Accounted) (body : List UInt8) : (s.answer k body).Accounted := by
  unfold MuxPool.answer
  split
  · exact h
  · split
    · exact h
    · split
      · rename_i sock _ request rest _ _
        have hset : (s.setSocket k fun sock =>
            { sock with sent := rest, unread := sock.unread ++ frame headerSize body }).Accounted := by
          apply h.setSocket
          intro sock
          rfl
        refine hset.step fun k' hk' => ⟨hk', fun q hq howns => ⟨q, ?_, howns.congr rfl⟩⟩
        cases q <;> exact hq
      · exact h

theorem register (h : s.Accounted) (hloses : s.LosesNothing p max .register) : s.register.Accounted := by
  unfold MuxPool.register
  split
  · rename_i entry rest hpolling hqueue
    have hopen : s.selOpen = true := hloses hpolling (by rw [hqueue]; exact List.cons_ne_nil _ _)
    rw [if_pos hopen]
    refine h.step fun k hk => ⟨hk, fun q hq howns => ?_⟩
    cases q with
    | queued c =>
      have hmem : (k, c) ∈ entry :: rest := hqueue ▸ hq
      rcases List.mem_cons.1 hmem with rfl | hrest
      · exact ⟨.registered c, List.mem_append_right _ (List.mem_singleton_self _), howns⟩
      · exact ⟨.queued c, hrest, howns⟩
    | registered c => exact ⟨.registered c, List.mem_append_left _ hq, howns⟩
    | held c => exact ⟨.held c, hq, howns⟩
    | returning c => exact ⟨.returning c, hq, howns⟩
    | idle peer => exact ⟨.idle peer, hq, howns⟩
    | closed => exact howns.elim
  · exact h

theorem fail (h : s.Accounted) : (s.fail k c).Accounted := by
  apply atCall_of h
  intro call _
  refine h.step fun k' hk' => ?_
  obtain ⟨hne, hopen⟩ := isOpen_of_close (s := s.unregister k) hk'
  refine ⟨hopen, fun q hq howns => ⟨q, lies_setInFlight.2 (lies_close.2 (Or.inr ?_)), ?_⟩⟩
  · exact lies_unregister.2 ⟨hq, fun _ _ => hne⟩
  · exact Owns.setInFlight (Owns.congr howns rfl)

theorem lose (h : s.Accounted) : (s.lose k).Accounted :=
  atRegistered_of h fun _ _ _ _ _ _ _ => h.fail

private theorem setInFlight (h : s.Accounted) {r : InFlight V τ} : (s.setInFlight c r).Accounted :=
  h.step fun _ hk => ⟨hk, fun q hq howns => ⟨q, lies_setInFlight.2 hq, howns.setInFlight⟩⟩

/-- The selector thread goes on without a socket in its hands. -/
private theorem setSelector (h : s.Accounted) {stage : SelectorStage V τ}
    (hselector : ∀ k c msg, s.selector ≠ .returning k c msg) : (s.setSelector stage).Accounted := by
  refine h.step fun k hk => ⟨hk, fun q hq howns => ⟨q, lies_setSelector.2 (Or.inr ⟨?_, hq⟩), howns.congr rfl⟩⟩
  rintro c rfl
  obtain ⟨msg, hmsg⟩ := hq
  exact hselector k c msg hmsg

private theorem settle (h : s.Accounted) (hs : s.Placed) (hk : s.lies k (.registered c))
    (hpolling : s.selector = .polling) (done : Option (Except WireError (Message V τ))) :
    (s.settle k c done).Accounted := by
  have hselector : ∀ k c msg, s.selector ≠ .returning k c msg := by
    intro k c msg hmsg
    rw [hpolling] at hmsg
    cases hmsg
  unfold MuxPool.settle
  split
  · exact h
  · exact h.fail
  · rename_i msg
    split
    · refine h.step fun k' hk' => ⟨hk', fun q hq howns => ?_⟩
      by_cases hkk : k' = k
      · subst hkk
        obtain rfl := hs.once k' _ _ hq hk
        exact ⟨.returning c, ⟨msg, rfl⟩, howns⟩
      · refine ⟨q, lies_setSelector.2 (Or.inr ⟨?_, lies_unregister.2 ⟨hq, fun _ _ => hkk⟩⟩), howns.congr rfl⟩
        rintro c' rfl
        obtain ⟨msg', hmsg'⟩ := hq
        exact hselector k' c' msg' hmsg'
    · exact h.setSelector hselector

theorem read (h : s.Accounted) (hs : s.Placed) (n : Nat) : (s.read p k n).Accounted := by
  refine atRegistered_of h fun c sock call hpolling hk _ _ => ?_
  simp only
  split
  · exact h.fail
  · split
    · exact h
    · have hset : ∀ f : MuxSocket V τ → MuxSocket V τ, (∀ sock, (f sock).isOpen = sock.isOpen) →
          ∀ (r : InFlight V τ) done, (((s.setSocket k f).setInFlight c r).settle k c done).Accounted := by
        intro f hf r done
        exact (h.setSocket hf).setInFlight.settle (hs.setSocket hf).setInFlight
          (lies_setInFlight.2 ((lies_setSocket hf).2 hk)) hpolling done
      apply hset
      intro sock
      rfl

theorem giveBack (h : s.Accounted) (closeRaises : Bool) : (s.giveBack max closeRaises).Accounted := by
  unfold MuxPool.giveBack
  split
  · rename_i k c msg hreturning
    apply atCall_of h
    intro call hcall
    have hk : s.lies k (.returning c) := ⟨msg, hreturning⟩
    -- the other sockets are not in the hands of the selector thread
    have hother : ∀ k' q, k' ≠ k → s.lies k' q → ∀ c', q ≠ .returning c' := by
      rintro k' q hne hq c' rfl
      obtain ⟨msg', hmsg'⟩ := hq
      rw [hreturning] at hmsg'
      cases hmsg'
      exact hne rfl
    simp only
    split
    · refine h.step fun k' hk' => ⟨hk', fun q hq howns => ?_⟩
      by_cases hkk : k' = k
      · subst hkk
        refine ⟨.idle call.inflight.address, lies_setSelector.2 (Or.inr ⟨nofun, ?_⟩), trivial⟩
        exact lies_setIdle.2 (Or.inl ⟨rfl, List.mem_cons_self⟩)
      · refine ⟨q, lies_setSelector.2 (Or.inr ⟨hother k' q hkk hq, lies_setIdle.2 ?_⟩), howns.congr rfl⟩
        by_cases hq' : q = .idle call.inflight.address
        · subst hq'
          exact Or.inl ⟨rfl, List.mem_cons_of_mem _ hq⟩
        · exact Or.inr ⟨hq', hq⟩
    · refine h.step fun k' hk' => ?_
      obtain ⟨hne, hopen⟩ := isOpen_of_close (s := s.setIdle _ _) hk'
      refine ⟨hopen, fun q hq howns => ⟨q, lies_setSelector.2 (Or.inr ⟨hother k' q hne hq, ?_⟩), howns.congr rfl⟩⟩
      refine lies_close.2 (Or.inr (lies_setIdle.2 ?_))
      by_cases hq' : q = .idle call.inflight.address
      · subst hq'
        exact Or.inl ⟨rfl, hq⟩
      · exact Or.inr ⟨hq', hq⟩
  · exact h

theorem deliver (h : s.Accounted) : s.deliver.Accounted := by
  unfold MuxPool.deliver
  split
  · rename_i c msg hdelivering
    apply atCall_of h
    intro call _
    refine Accounted.setSelector (s := s.setInFlight c _) h.setInFlight fun k c msg hmsg => ?_
    have hreturning : s.selector = .returning k c msg := hmsg
    rw [hdelivering] at hreturning
    cases hreturning
  · exact h

theorem leave (h : s.Accounted) : s.leave.Accounted := by
  unfold MuxPool.leave
  split
  · rename_i hpolling _
    have hselector : ∀ k c msg, s.selector ≠ .returning k c msg := by
      intro k c msg hmsg
      rw [hpolling] at hmsg
      cases hmsg
    split
    · have hsignal : s.signalRegistered.Accounted :=
        h.step fun k hk => ⟨hk, fun q hq howns => ⟨q, lies_signalRegistered.2 hq, howns.signalRegistered⟩⟩
      exact hsignal.setSelector hselector
    · exact h.setSelector hselector
  · exact h

/-- The sockets that leave the deques are closed. -/
private theorem drop (h : s.Accounted) {s₁ : MuxPool V τ} {socks : List Nat} (hsockets : s₁.sockets = s.sockets)
    (hcalls : s₁.calls = s.calls) (hlies : ∀ k q, k ∉ socks → s.lies k q → s₁.lies k q) :
    (s₁.closeEach socks).Accounted := by
  refine h.step fun k hk => ?_
  obtain ⟨hnew, hopen⟩ := isOpen_of_closeEach hk
  refine ⟨?_, fun q hq howns => ⟨q, lies_closeEach.2 (Or.inr (hlies k q hnew hq)), howns.congr ?_⟩⟩
  · unfold isOpen at hopen ⊢
    rw [← hsockets]
    exact hopen
  · rw [(closeEach_frame s₁ socks).2.2.2.1, hcalls]

theorem closePeer (h : s.Accounted) (peer : NodeInfo) : (s.closePeer peer).Accounted := by
  refine h.drop rfl rfl fun k q hk hq => ?_
  cases q with
  | idle peer' =>
    have hne : peer' ≠ peer := by
      rintro rfl
      exact hk hq
    have hidle : ({ s with idle := s.idle.del peer } : MuxPool V τ).idleAt peer' = s.idleAt peer' := by
      unfold idleAt
      simp only
      rw [Dict.get_del, if_neg hne]
    show k ∈ ({ s with idle := s.idle.del peer } : MuxPool V τ).idleAt peer'
    rw [hidle]
    exact hq
  | held c | queued c | registered c | returning c | closed => exact hq

theorem closeIdle (h : s.Accounted) (i : Nat) : (s.closeIdle i).Accounted := by
  unfold MuxPool.closeIdle
  split
  · refine h.drop rfl rfl fun k q hk hq => ?_
    cases q with
    | idle peer =>
      -- a socket of a deque is among those that are closed
      obtain ⟨socks, hsocks, hmem⟩ := exists_deque hq
      exact absurd (List.mem_flatten.2 ⟨socks, List.mem_map.2 ⟨(peer, socks), hsocks, rfl⟩, hmem⟩) hk
    | held c | queued c | registered c | returning c | closed => exact hq
  · exact h

theorem closeAll (h : s.Accounted) : s.closeAll.Accounted :=
  h.step fun _ hk => ⟨hk, fun q hq howns => ⟨q, by cases q <;> exact hq, howns.congr rfl⟩⟩

theorem join (h : s.Accounted) (i : Nat) : (s.join i).Accounted := by
  unfold MuxPool.join
  split
  · exact h.step fun _ hk => ⟨hk, fun q hq howns => ⟨q, by cases q <;> exact hq, howns.congr rfl⟩⟩
  · exact h

theorem apply (h : s.Accounted) (hs : s.Placed) {e : MuxEvent V τ} (hloses : s.LosesNothing p max e) :
    (s.apply p max e).Accounted := by
  cases e with
  | call peer msg => exact h.call peer msg
  | connect c accepted => exact h.connect hs accepted
  | dump c => exact h.dump hloses
  | send c accepted closeRaises => exact h.send hs accepted closeRaises
  | handOver c => exact h.handOver hs
  | wake c => exact h.wake hloses
  | answer k body => exact h.answer body
  | register => exact h.register hloses
  | read k n => exact h.read hs n
  | lose k => exact h.lose
  | giveBack closeRaises => exact h.giveBack closeRaises
  | deliver => exact h.deliver
  | leave => exact h.leave
  | closePeer peer => exact h.closePeer peer
  | closeAll => exact h.closeAll
  | join i => exact h.join i
  | closeIdle i => exact h.closeIdle i

end Accounted

/-! ### After `close_all` -/

namespace Drained

/-- The deques that were empty still are. -/
theorem step (h : s.Drained) (hclosings : ClosingStage.returned ∈ s'.closings → ClosingStage.returned ∈ s.closings)
    (hidle : ClosingStage.returned ∈ s.closings → ∀ peer, s.idleAt peer = [] → s'.idleAt peer = []) : s'.Drained :=
  fun hreturned peer => hidle (hclosings hreturned) peer (h (hclosings hreturned) peer)

theorem empty : (empty : MuxPool V τ).Drained := fun _ _ => rfl

variable {c k : Nat}

/-- The calls of `close_all` and the deques are as they were. -/
private theorem congr (h : s.Drained) (hclosings : s'.closings = s.closings) (hidle : s'.idle = s.idle) :
    s'.Drained := by
  refine h.step (fun hreturned => hclosings ▸ hreturned) fun _ peer hpeer => ?_
  unfold idleAt at hpeer ⊢
  rw [hidle, hpeer]

theorem call (h : s.Drained) (peer : NodeInfo) (msg : Message V τ) : (s.call peer msg).Drained := by
  unfold MuxPool.call
  split
  · exact h.congr rfl rfl
  · refine h.step id fun _ peer' hpeer' => ?_
    show (s.setIdle peer (s.idleAt peer).dropLast).idleAt peer' = []
    rw [idleAt_setIdle]
    split
    · rename_i heq
      rw [← heq, hpeer', List.dropLast_nil]
    · exact hpeer'

theorem connect (h : s.Drained) (accepted : Bool) : (s.connect c accepted).Drained := by
  refine atCall_of h fun _ _ => ?_
  repeat' split
  all_goals exact h.congr rfl rfl

theorem dump (h : s.Drained) : (s.dump p c).Drained := by
  refine atCall_of h fun _ _ => ?_
  repeat' split
  all_goals exact h.congr rfl rfl

theorem send (h : s.Drained) (accepted closeRaises : Bool) : (s.send c accepted closeRaises).Drained := by
  refine atCall_of h fun _ _ => ?_
  repeat' split
  all_goals exact h.congr rfl rfl

theorem handOver (h : s.Drained) : (s.handOver c).Drained := by
  refine atCall_of h fun _ _ => ?_
  split <;> exact h.congr rfl rfl

theorem wake (h : s.Drained) : (s.wake c).Drained := by
  refine atCall_of h fun _ _ => ?_
  split <;> exact h.congr rfl rfl

theorem answer (h : s.Drained) (body : List UInt8) : (s.answer k body).Drained := by
  unfold MuxPool.answer
  repeat' split
  all_goals exact h.congr rfl rfl

theorem register (h : s.Drained) : s.register.Drained := by
  unfold MuxPool.register
  repeat' split
  all_goals exact h.congr rfl rfl

theorem fail (h : s.Drained) : (s.fail k c).Drained := atCall_of h fun _ _ => h.congr rfl rfl

theorem settle (h : s.Drained) (done : Option (Except WireError (Message V τ))) : (s.settle k c done).Drained := by
  unfold MuxPool.settle
  split
  · exact h
  · exact h.fail
  · split <;> exact h.congr rfl rfl

theorem read (h : s.Drained) (n : Nat) : (s.read p k n).Drained := by
  refine atRegistered_of h fun c sock call _ _ _ _ => ?_
  simp only
  split
  · exact h.fail
  · split
    · exact h
    · have hset : ∀ (f : MuxSocket V τ → MuxSocket V τ) (r : InFlight V τ),
          ((s.setSocket k f).setInFlight c r).Drained := fun _ _ => h.congr rfl rfl
      exact (hset _ _).settle _

theorem giveBack (h : s.Drained) (closeRaises : Bool) (hloses : s.LosesNothing p max (.giveBack closeRaises)) :
    (s.giveBack max closeRaises).Drained := by
  unfold MuxPool.giveBack
  split
  · rename_i k c msg hreturning
    refine atCall_of h fun call hcall => ?_
    simp only
    split
    · rename_i hlt
      exact fun hreturned => absurd hreturned (hloses k c msg call hreturning hcall hlt)
    · refine h.step id fun _ peer hpeer => ?_
      show (s.setIdle call.inflight.address (s.idleAt call.inflight.address)).idleAt peer = []
      rw [idleAt_setIdle]
      split
      · rename_i heq
        rw [← heq, hpeer]
      · exact hpeer
  · exact h

theorem deliver (h : s.Drained) : s.deliver.Drained := by
  unfold MuxPool.deliver
  split
  · exact atCall_of h fun _ _ => h.congr rfl rfl
  · exact h

theorem leave (h : s.Drained) : s.leave.Drained := by
  unfold MuxPool.leave
  repeat' split
  all_goals exact h.congr rfl rfl

theorem closeEach_closings (s : MuxPool V τ) (socks : List Nat) : (s.closeEach socks).closings = s.closings := by
  induction socks generalizing s with
  | nil => rfl
  | cons k rest ih => exact ih (s.close k)

theorem closePeer (h : s.Drained) (peer : NodeInfo) : (s.closePeer peer).Drained := by
  refine h.step (fun hreturned => ?_) fun _ peer' hpeer' => ?_
  · rw [MuxPool.closePeer, closeEach_closings] at hreturned
    exact hreturned
  · unfold idleAt at hpeer' ⊢
    rw [MuxPool.closePeer, (closeEach_frame _ _).1, Dict.get_del]
    split
    · rfl
    · exact hpeer'

theorem closeIdle (h : s.Drained) (i : Nat) : (s.closeIdle i).Drained := by
  unfold MuxPool.closeIdle
  split
  · intro _ peer
    unfold idleAt
    rw [(closeEach_frame _ _).1]
    rfl
  · exact h

theorem closeAll (h : s.Drained) : s.closeAll.Drained := by
  refine h.step (fun hreturned => ?_) fun _ _ hpeer => hpeer
  rcases List.mem_append.1 hreturned with hold | hnew
  · exact hold
  · cases List.mem_singleton.1 hnew

theorem join (h : s.Drained) (i : Nat) : (s.join i).Drained := by
  unfold MuxPool.join
  split
  · refine h.step (fun hreturned => ?_) fun _ _ hpeer => hpeer
    exact (List.mem_or_eq_of_mem_set hreturned).resolve_right nofun
  · exact h

theorem apply (h : s.Drained) {e : MuxEvent V τ} (hloses : s.LosesNothing p max e) : (s.apply p max e).Drained := by
  cases e with
  | call peer msg => exact h.call peer msg
  | connect c accepted => exact h.connect accepted
  | dump c => exact h.dump
  | send c accepted closeRaises => exact h.send accepted closeRaises
  | handOver c => exact h.handOver
  | wake c => exact h.wake
  | answer k body => exact h.answer body
  | register => exact h.register
  | read k n => exact h.read n
  | lose k => exact atRegistered_of h fun _ _ _ _ _ _ _ => h.fail
  | giveBack closeRaises => exact h.giveBack closeRaises hloses
  | deliver => exact h.deliver
  | leave => exact h.leave
  | closePeer peer => exact h.closePeer peer
  | closeAll => exact h.closeAll
  | join i => exact h.join i
  | closeIdle i => exact h.closeIdle i

end Drained

end MuxPool

/-- While no event loses a socket, every open one is in one place, idle or with a call that has not ended, and none is
open after the shutdown. -/
theorem mux_loses_no_socket (p : Pickle V τ) (max : Int) (run : MuxRun V τ)
    (hrun : ∀ pre e post, run = pre ++ e :: post → (muxAfter p max pre).LosesNothing p max e) :
    (∀ k, (muxAfter p max run).isOpen k = true → ∃ q, (muxAfter p max run).lies k q ∧ (muxAfter p max run).Owns q ∧
      ∀ q', (muxAfter p max run).lies k q' → q' = q) ∧
    ((muxAfter p max run).ShutDown → ∀ k, (muxAfter p max run).isOpen k = false) := by
  obtain ⟨hplaced, haccounted, hdrained⟩ := after_invariant
    (P := fun _ (s : MuxPool V τ) => s.Placed ∧ s.Accounted ∧ s.Drained)
    (C := fun pre e => (muxAfter p max pre).LosesNothing p max e)
    ⟨MuxPool.Placed.empty, MuxPool.Accounted.empty, MuxPool.Drained.empty⟩
    (fun _ e hloses h => ⟨h.1.apply p max e, h.2.1.apply h.1 hloses, h.2.2.apply hloses⟩) hrun
  refine ⟨fun k hk => ?_, fun hdown k => ?_⟩
  · obtain ⟨q, hq, howns⟩ := haccounted k hk
    exact ⟨q, hq, howns, fun q' hq' => hplaced.once k q' q hq' hq⟩
  · by_contra hopen
    rw [Bool.not_eq_false] at hopen
    obtain ⟨q, hq, howns⟩ := haccounted k hopen
    cases q with
    | held c | queued c | registered c | returning c =>
      obtain ⟨call, hcall, hover⟩ := howns
      rw [hdown.2 c call hcall] at hover
      cases hover
    | idle peer =>
      have hmem : k ∈ MuxPool.idleAt _ peer := hq
      rw [hdrained hdown.1 peer] at hmem
      cases hmem
    | closed => exact howns

/-- A call gets its answer, and the pool is closed. -/
def answeredRun : MuxRun Nat Int :=
  [.call ⟨"localhost", 7001⟩ ping, .connect 0 true, .dump 0, .send 0 true false, .handOver 0, .register,
    .answer 0 pingData, .read 0 3, .read 0 (pingData.length - 1), .giveBack false, .deliver, .wake 0, .closeAll, .leave,
    .join 0, .closeIdle 0]

private theorem over_of_stages {calls : List (MuxCall V τ)} {c : Nat} {call : MuxCall V τ}
    (h : calls.map (fun call => call.stage.isOver) = [true]) (hcall : calls[c]? = some call) :
    call.stage.isOver = true := by
  have hmem := List.mem_map_of_mem (f := fun call : MuxCall V τ => call.stage.isOver) (List.mem_of_getElem? hcall)
  rw [h] at hmem
  exact List.mem_singleton.1 hmem

private def SelectorStage.polls : SelectorStage V τ → Bool
  | polling => true
  | returning _ _ _ | delivering _ _ | ended => false

theorem answeredRun_keeps {pre post : MuxRun Nat Int} {e : MuxEvent Nat Int}
    (h : answeredRun = pre ++ e :: post) : (muxAfter pingPickle 5 pre).LosesNothing pingPickle 5 e := by
  refine Base.forall_splits (C := fun pre e => (muxAfter pingPickle 5 pre).LosesNothing pingPickle 5 e)
    (fun i hi => ?_) h
  match i, hi with
  | 0, _ | 1, _ | 3, _ | 4, _ | 6, _ | 7, _ | 8, _ | 10, _ | 12, _ | 13, _ | 14, _ | 15, _ => trivial
  | 2, _ =>
    intro call k hcall _
    have hmsg : ((muxAfter pingPickle 5 (answeredRun.take 2)).calls[0]?).map (fun call => call.msg.type) =
        some .ping := by decide +kernel
    rw [show (muxAfter pingPickle 5 (answeredRun.take 2)).calls[0]? = some call from hcall] at hmsg
    exact ⟨pingData, if_pos (Option.some.inj hmsg), by decide⟩
  | 5, _ => exact fun _ _ => by decide +kernel
  | 9, _ => exact fun _ _ _ _ _ _ _ => by decide +kernel
  | 11, _ =>
    intro call _ _ k q hq hk
    have hqueue : (muxAfter pingPickle 5 (answeredRun.take 11)).regQueue = [] := by decide +kernel
    have hregistered : (muxAfter pingPickle 5 (answeredRun.take 11)).registered = [] := by decide +kernel
    cases q with
    | queued c =>
      have hmem : (k, c) ∈ (muxAfter pingPickle 5 (answeredRun.take 11)).regQueue := hk
      rw [hqueue] at hmem
      cases hmem
    | registered c =>
      have hmem : (k, c) ∈ (muxAfter pingPickle 5 (answeredRun.take 11)).registered := hk
      rw [hregistered] at hmem
      cases hmem
    | returning c =>
      obtain ⟨msg, hmsg⟩ := hk
      have hpolls : (muxAfter pingPickle 5 (answeredRun.take 11)).selector.polls = true := by decide +kernel
      rw [show (muxAfter pingPickle 5 (answeredRun.take 11)).selector = .returning k c msg from hmsg] at hpolls
      cases hpolls
    | held c | idle peer | closed => cases hq
  | n + 16, hi => exact absurd hi (Nat.not_lt.2 (Nat.le_add_left ..))

theorem answeredRun_closes_socket : (muxAfter pingPickle 5 answeredRun).isOpen 0 = false := by
  have h := mux_loses_no_socket pingPickle 5 answeredRun fun _ _ _ => answeredRun_keeps
  refine h.2 ⟨by decide +kernel, fun c call hcall => ?_⟩ 0
  have hstages : (muxAfter pingPickle 5 answeredRun).calls.map (fun call => call.stage.isOver) = [true] := by
    decide +kernel
  exact over_of_stages hstages hcall

/-- The peer does not answer within the timeout, and the pool is closed. -/
def timedOutRun : MuxRun Nat Int :=
  [.call ⟨"localhost", 7001⟩ ping, .connect 0 true, .dump 0, .send 0 true false, .handOver 0, .register, .wake 0,
    .closeAll, .leave, .join 0, .closeIdle 0]

/-- The value of a SET cannot be pickled. -/
def unpicklableRun : MuxRun Nat Int :=
  [.call ⟨"localhost", 7001⟩ { type := .set, payload := { key := some "k", value := some (some 3), ts := some 1 } },
    .connect 0 true, .dump 0, .closeAll, .leave, .join 0, .closeIdle 0]

private theorem not_accounted {s : MuxPool V τ} {k : Nat} (hopen : s.isOpen k = true)
    (hover : s.calls.map (fun call => call.stage.isOver) = [true]) (hidle : s.idle.items = []) : ¬ s.Accounted := by
  intro h
  obtain ⟨q, hq, howns⟩ := h k hopen
  cases q with
  | held c | queued c | registered c | returning c =>
    obtain ⟨call, hcall, hrunning⟩ := howns
    rw [over_of_stages hover hcall] at hrunning
    cases hrunning
  | idle peer =>
    obtain ⟨socks, hsocks, -⟩ := MuxPool.exists_deque hq
    rw [hidle] at hsocks
    cases hsocks
  | closed => exact howns

/-- A caller that has not waited long enough, or whose message cannot be pickled, leaves its socket open, and
`close_all` does not find it. -/
theorem timed_out_socket_stays_open :
    (¬ (muxAfter pingPickle 5 (timedOutRun.take 7)).Accounted ∧
      (muxAfter pingPickle 5 timedOutRun).ShutDown ∧ (muxAfter pingPickle 5 timedOutRun).isOpen 0 = true) ∧
    ¬ (muxAfter pingPickle 5 (unpicklableRun.take 3)).Accounted ∧
      (muxAfter pingPickle 5 unpicklableRun).ShutDown ∧ (muxAfter pingPickle 5 unpicklableRun).isOpen 0 = true := by
  refine ⟨⟨?_, ⟨by decide +kernel, fun c call hcall => ?_⟩, by decide +kernel⟩,
    ?_, ⟨by decide +kernel, fun c call hcall => ?_⟩, by decide +kernel⟩
  · exact not_accounted (k := 0) (by decide +kernel) (by decide +kernel) (by decide +kernel)
  · have hover : (muxAfter pingPickle 5 timedOutRun).calls.map (fun call => call.stage.isOver) = [true] := by
      decide +kernel
    exact over_of_stages hover hcall
  · exact not_accounted (k := 0) (by decide +kernel) (by decide +kernel) (by decide +kernel)
  · have hover : (muxAfter pingPickle 5 unpicklableRun).calls.map (fun call => call.stage.isOver) = [true] := by
      decide +kernel
    exact over_of_stages hover hcall

end DLStorage
