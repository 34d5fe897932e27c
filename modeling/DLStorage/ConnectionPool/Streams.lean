import DLStorage.ConnectionPool.Places

/-!
# Requests and responses on multiplexed sockets

A record of the selector thread and the unread bytes of its socket together hold the response to the one request that
has been sent on the socket (`Stream`), wherever the response has been cut.  Once the body is complete nothing is left,
so that the socket goes back clean, whether or not the caller still waits.
-/

namespace DLStorage

open Base (Dict after_invariant frame ofBigEndian)

variable {V τ : Type}

/-! ### The bytes of one response -/

namespace InFlight

/-- No byte has been read. -/
def Fresh (r : InFlight V τ) : Prop := r.buf = [] ∧ r.expected = headerSize ∧ r.hdrDone = false

/-- The bytes that have been read and those that have not are the frame of the body. -/
def Awaits (r : InFlight V τ) (body unread : List UInt8) : Prop :=
  r.hdrDone = false ∧ r.expected = headerSize ∧ r.buf ++ unread = frame headerSize body ∨
    r.hdrDone = true ∧ r.expected = body.length ∧ r.buf ++ unread = body

theorem Fresh.awaits {r : InFlight V τ} (h : r.Fresh) (body : List UInt8) : r.Awaits body (frame headerSize body) := by
  obtain ⟨hbuf, hexpected, hhdr⟩ := h
  exact Or.inl ⟨hhdr, hexpected, by rw [hbuf]; rfl⟩

theorem feed_frame (p : Pickle V τ) (r : InFlight V τ) (chunk : List UInt8) :
    (r.feed p chunk).1.address = r.address ∧ (r.feed p chunk).1.result = r.result := by
  unfold feed
  simp only
  split
  · exact ⟨rfl, rfl⟩
  · split <;> exact ⟨rfl, rfl⟩

/-- A chunk takes the record on in the frame, or completes the body. -/
theorem feed_awaits {p : Pickle V τ} {r : InFlight V τ} {body chunk rest : List UInt8}
    (h : r.Awaits body (chunk ++ rest)) (hbody : body.length < 256 ^ headerSize)
    (hchunk : chunk.length ≤ r.expected - r.buf.length) (hneed : r.expected - r.buf.length ≠ 0) :
    (r.feed p chunk).1.Awaits body rest ∧
      ((r.feed p chunk).2 = none ∨ (r.feed p chunk).2 = some (p.loads body) ∧ rest = []) := by
  unfold feed
  simp only
  rcases h with ⟨hhdr, hexpected, hframe⟩ | ⟨hhdr, hexpected, hframe⟩
  · rw [← List.append_assoc] at hframe
    split
    · exact ⟨Or.inl ⟨hhdr, hexpected, hframe⟩, Or.inl rfl⟩
    · rename_i hlen
      have hheader : (r.buf ++ chunk).length = headerSize := by
        rw [List.length_append] at hlen ⊢
        omega
      -- the header is complete, and tells the length of what is left
      have hsplit := List.append_inj hframe (by rw [hheader, Base.length_bigEndian])
      rw [if_neg (by rw [hhdr]; decide)]
      refine ⟨Or.inr ⟨rfl, ?_, hsplit.2⟩, Or.inl rfl⟩
      show ofBigEndian ((r.buf ++ chunk).take headerSize) = body.length
      rw [List.take_of_length_le hheader.le, hsplit.1, Base.ofBigEndian_bigEndian hbody]
  · rw [← List.append_assoc] at hframe
    split
    · exact ⟨Or.inr ⟨hhdr, hexpected, hframe⟩, Or.inl rfl⟩
    · rename_i hlen
      have hrest : rest = [] := by
        have hlength := congrArg List.length hframe
        rw [List.length_append] at hlength
        exact List.eq_nil_of_length_eq_zero (by omega)
      refine ⟨Or.inr ⟨hhdr, hexpected, hframe⟩, Or.inr ⟨?_, hrest⟩⟩
      rw [hrest, List.append_nil] at hframe
      rw [hframe]

end InFlight

/-- Nothing is unread or outstanding on the socket. -/
def MuxSocket.Clean (sock : MuxSocket V τ) : Prop := sock.sent = [] ∧ sock.unread = []

/-- The caller has sent its request, and still holds the socket. -/
def MuxStage.hasSent : MuxStage V τ → Bool
  | handing _ => true
  | connecting | dumping _ | sending _ | waiting | ended _ | raised => false

namespace MuxPool

variable (p : Pickle V τ) (s : MuxPool V τ)

/-- The peer of call `c` has given the response to its message. -/
def Answered (c : Nat) (call : MuxCall V τ) (msg : Message V τ) : Prop :=
  ∃ body, ⟨call.peer, ⟨c, call.msg⟩, body⟩ ∈ s.given ∧ p.loads body = .ok msg

/-- The request of call `c` is outstanding, or the record and the socket hold the response. -/
def Stream (c : Nat) (call : MuxCall V τ) (sock : MuxSocket V τ) : Prop :=
  sock.sent = [⟨c, call.msg⟩] ∧ sock.unread = [] ∧ call.inflight.Fresh ∨
    sock.sent = [] ∧ ∃ body, body.length < 256 ^ headerSize ∧ ⟨call.peer, ⟨c, call.msg⟩, body⟩ ∈ s.given ∧
      call.inflight.Awaits body sock.unread

/-- The socket leads to the right peer, and carries what its place tells. -/
def Fits (sock : MuxSocket V τ) : Place → Prop
  | .held c => ∃ call, s.calls[c]? = some call ∧ sock.peer = call.peer ∧
      if call.stage.hasSent then s.Stream c call sock else sock.Clean
  | .queued c | .registered c => ∃ call, s.calls[c]? = some call ∧ sock.peer = call.peer ∧ s.Stream c call sock
  | .returning c => ∃ call, s.calls[c]? = some call ∧ sock.peer = call.peer ∧ sock.Clean
  | .idle peer => sock.peer = peer ∧ sock.Clean
  | .closed => True

/-- The record of a call is its own, and what the call has got is the response to its message. -/
structure Sound (c : Nat) (call : MuxCall V τ) : Prop where
  address : call.inflight.address = call.peer
  fresh : call.stage.handed = false → call.inflight.Fresh
  answered : ∀ msg, call.inflight.result = some msg ∨ call.stage = .ended (some msg) → s.Answered p c call msg

/-- The message that the selector thread is about to deliver, with the call. -/
def inHand : Option (Nat × Message V τ) :=
  match s.selector with
  | .returning _ c msg | .delivering c msg => some (c, msg)
  | .polling | .ended => none

/-- The pairing of requests and responses. -/
structure Paired : Prop where
  fits : ∀ (k : Nat) (q : Place), s.lies k q → ∃ sock, s.sockets[k]? = some sock ∧ s.Fits sock q
  calls : ∀ (c : Nat) (call : MuxCall V τ), s.calls[c]? = some call → s.Sound p c call
  inHand : ∀ (c : Nat) (msg : Message V τ), s.inHand = some (c, msg) →
    ∃ call, s.calls[c]? = some call ∧ s.Answered p c call msg

/-! ### What a step leaves as it is -/

/-- The same bytes and requests on the socket. -/
structure SameSocket (sock sock' : MuxSocket V τ) : Prop where
  peer : sock'.peer = sock.peer
  sent : sock'.sent = sock.sent
  unread : sock'.unread = sock.unread

/-- The same call, as far as its response has been read. -/
structure SameCall (call call' : MuxCall V τ) : Prop where
  peer : call'.peer = call.peer
  msg : call'.msg = call.msg
  buf : call'.inflight.buf = call.inflight.buf
  expected : call'.inflight.expected = call.inflight.expected
  hdrDone : call'.inflight.hdrDone = call.inflight.hdrDone

theorem SameSocket.refl (sock : MuxSocket V τ) : SameSocket sock sock := ⟨rfl, rfl, rfl⟩

theorem SameCall.refl (call : MuxCall V τ) : SameCall call call := ⟨rfl, rfl, rfl, rfl, rfl⟩

variable {p} {s} {s' : MuxPool V τ}

theorem Answered.mono {c : Nat} {call call' : MuxCall V τ} {msg : Message V τ} (h : s.Answered p c call msg)
    (hgiven : ∀ x ∈ s.given, x ∈ s'.given) (hpeer : call'.peer = call.peer) (hmsg : call'.msg = call.msg) :
    s'.Answered p c call' msg := by
  obtain ⟨body, hbody, hloads⟩ := h
  refine ⟨body, hgiven _ ?_, hloads⟩
  rw [hpeer, hmsg]
  exact hbody

theorem Sound.mono {c : Nat} {call : MuxCall V τ} (h : s.Sound p c call) (hgiven : ∀ x ∈ s.given, x ∈ s'.given) :
    s'.Sound p c call :=
  ⟨h.address, h.fresh, fun msg hmsg => (h.answered msg hmsg).mono hgiven rfl rfl⟩

theorem Stream.mono {c : Nat} {call call' : MuxCall V τ} {sock sock' : MuxSocket V τ} (h : s.Stream c call sock)
    (hgiven : ∀ x ∈ s.given, x ∈ s'.given) (hcall : SameCall call call') (hsock : SameSocket sock sock') :
    s'.Stream c call' sock' := by
  unfold Stream InFlight.Fresh InFlight.Awaits at *
  rw [hcall.peer, hcall.msg, hcall.buf, hcall.expected, hcall.hdrDone, hsock.sent, hsock.unread]
  rcases h with hpending | ⟨hsent, body, hlt, hgave, hawaits⟩
  · exact Or.inl hpending
  · exact Or.inr ⟨hsent, body, hlt, hgiven _ hgave, hawaits⟩

theorem same_close {k k' : Nat} (sock : MuxSocket V τ) (hsock : s.sockets[k]? = some sock) :
    ∃ sock', (s.close k').sockets[k]? = some sock' ∧ SameSocket sock sock' := by
  by_cases hk : k = k'
  · subst hk
    exact ⟨_, Base.getElem?_modify_of_some hsock, rfl, rfl, rfl⟩
  · exact ⟨sock, (List.getElem?_modify_ne _ _ (Ne.symm hk)).trans hsock, SameSocket.refl sock⟩

theorem clean_of_same {sock sock' : MuxSocket V τ} (h : sock.Clean) (hsock : SameSocket sock sock') : sock'.Clean :=
  ⟨hsock.sent.trans h.1, hsock.unread.trans h.2⟩

/-- Neither the socket nor the call that has it is touched in a way that counts. -/
structure Undisturbed (s s' : MuxPool V τ) (k : Nat) (q : Place) : Prop where
  lies : s.lies k q
  socket : ∀ sock, s.sockets[k]? = some sock → ∃ sock', s'.sockets[k]? = some sock' ∧ SameSocket sock sock'
  call : ∀ (c : Nat) (call : MuxCall V τ), q.call = some c → s.calls[c]? = some call →
    ∃ call', s'.calls[c]? = some call' ∧ SameCall call call' ∧
      (q = .held c → call'.stage.hasSent = call.stage.hasSent)

theorem Fits.mono {k : Nat} {q : Place} {sock sock' : MuxSocket V τ} (h : s.Fits sock q)
    (hgiven : ∀ x ∈ s.given, x ∈ s'.given) (hsock : SameSocket sock sock') (hq : Undisturbed s s' k q) :
    s'.Fits sock' q := by
  cases q with
  | held c =>
    obtain ⟨call, hcall, hpeer, hcarries⟩ := h
    obtain ⟨call', hcall', hsame, hsent⟩ := hq.call c call rfl hcall
    refine ⟨call', hcall', (hsock.peer.trans hpeer).trans hsame.peer.symm, ?_⟩
    rw [hsent rfl]
    cases hh : call.stage.hasSent with
    | true =>
      rw [hh] at hcarries
      exact hcarries.mono hgiven hsame hsock
    | false =>
      rw [hh] at hcarries
      exact clean_of_same hcarries hsock
  | queued c | registered c =>
    obtain ⟨call, hcall, hpeer, hstream⟩ := h
    obtain ⟨call', hcall', hsame, -⟩ := hq.call c call rfl hcall
    exact ⟨call', hcall', (hsock.peer.trans hpeer).trans hsame.peer.symm, hstream.mono hgiven hsame hsock⟩
  | returning c =>
    obtain ⟨call, hcall, hpeer, hclean⟩ := h
    obtain ⟨call', hcall', hsame, -⟩ := hq.call c call rfl hcall
    exact ⟨call', hcall', (hsock.peer.trans hpeer).trans hsame.peer.symm, clean_of_same hclean hsock⟩
  | idle peer => exact ⟨hsock.peer.trans h.1, clean_of_same h.2 hsock⟩
  | closed => trivial

namespace Paired

theorem empty : (empty : MuxPool V τ).Paired p where
  fits _ _ h := absurd h not_lies_empty
  calls _ _ h := by cases h
  inHand _ _ h := by cases h

/-- A step keeps the pairing if it does so for the sockets, calls and messages that it touches. -/
theorem step (h : s.Paired p) (hgiven : ∀ x ∈ s.given, x ∈ s'.given)
    (hcalls : ∀ (c : Nat) (call : MuxCall V τ), s.calls[c]? = some call →
      ∃ call', s'.calls[c]? = some call' ∧ call'.peer = call.peer ∧ call'.msg = call.msg)
    (hfits : ∀ k q, s'.lies k q → (∃ sock, s'.sockets[k]? = some sock ∧ s'.Fits sock q) ∨ Undisturbed s s' k q)
    (hsound : ∀ (c : Nat) (call' : MuxCall V τ), s'.calls[c]? = some call' →
      s.calls[c]? = some call' ∨ s'.Sound p c call')
    (hinHand : ∀ c msg, s'.inHand = some (c, msg) →
      s.inHand = some (c, msg) ∨ ∃ call, s'.calls[c]? = some call ∧ s'.Answered p c call msg) : s'.Paired p where
  fits := by
    intro k q hk
    rcases hfits k q hk with hfit | hq
    · exact hfit
    · obtain ⟨sock, hsock, hfit⟩ := h.fits k q hq.lies
      obtain ⟨sock', hsock', hsame⟩ := hq.socket sock hsock
      exact ⟨sock', hsock', hfit.mono hgiven hsame hq⟩
  calls := by
    intro c call' hc
    rcases hsound c call' hc with hold | hnew
    · exact (h.calls c call' hold).mono hgiven
    · exact hnew
  inHand := by
    intro c msg hhand
    rcases hinHand c msg hhand with hold | hnew
    · obtain ⟨call, hcall, hans⟩ := h.inHand c msg hold
      obtain ⟨call', hcall', hpeer, hmsg⟩ := hcalls c call hcall
      exact ⟨call', hcall', hans.mono hgiven hpeer hmsg⟩
    · exact hnew

/-! ### Callers -/

section Callers

variable {c k : Nat} {call : MuxCall V τ} {stage : MuxStage V τ}

/-- Call `c` goes to a stage; every socket is undisturbed or fits its place. -/
private theorem stageStep (h : s.Paired p) (hcalls : s'.calls = (s.setStage c stage).calls)
    (hgiven : s'.given = s.given) (hhand : s'.inHand = s.inHand) (hcall : s.calls[c]? = some call)
    (hhanded : call.stage.handed = true → stage.handed = true)
    (hended : ∀ msg, stage = .ended (some msg) → call.inflight.result = some msg)
    (hfits : ∀ k q, s'.lies k q → (∃ sock, s'.sockets[k]? = some sock ∧ s'.Fits sock q) ∨
      s.lies k q ∧ q ≠ .held c ∧
        ∀ sock, s.sockets[k]? = some sock → ∃ sock', s'.sockets[k]? = some sock' ∧ SameSocket sock sock') :
    s'.Paired p := by
  have hgave : ∀ x ∈ s.given, x ∈ s'.given := by rw [hgiven]; exact fun _ h => h
  have hget : ∀ (c' : Nat) (old : MuxCall V τ), s.calls[c']? = some old →
      ∃ call', s'.calls[c']? = some call' ∧ SameCall old call' ∧ (c' ≠ c → call' = old) := by
    intro c' old hold
    rw [hcalls]
    by_cases hc : c' = c
    · subst hc
      exact ⟨_, Base.getElem?_modify_of_some hold, ⟨rfl, rfl, rfl, rfl, rfl⟩, fun hne => absurd rfl hne⟩
    · exact ⟨old, (List.getElem?_modify_ne _ _ (Ne.symm hc)).trans hold, SameCall.refl old, fun _ => rfl⟩
  refine h.step hgave (fun c' old hold => ?_) (fun k q hk => ?_) (fun c' call' hc => ?_) fun c' msg hmsg => ?_
  · obtain ⟨call', hc', hsame, -⟩ := hget c' old hold
    exact ⟨call', hc', hsame.peer, hsame.msg⟩
  · rcases hfits k q hk with hfit | ⟨hlies, hne, hsock⟩
    · exact Or.inl hfit
    · refine Or.inr ⟨hlies, hsock, fun c' old hq hold => ?_⟩
      obtain ⟨call', hc', hsame, hother⟩ := hget c' old hold
      refine ⟨call', hc', hsame, ?_⟩
      rintro rfl
      rw [hother fun heq => hne (by rw [heq])]
  · rw [hcalls] at hc
    obtain ⟨old, hold, ⟨rfl, rfl⟩ | ⟨-, rfl⟩⟩ := Base.getElem?_modify_some hc
    · obtain rfl : call = old := Option.some.inj (hcall.symm.trans hold)
      have hsound := h.calls c' call hcall
      refine Or.inr ⟨hsound.address, fun hh => hsound.fresh ?_, fun msg hmsg => ?_⟩
      · by_contra hnot
        rw [Bool.not_eq_false] at hnot
        exact absurd (hhanded hnot) (by rw [hh]; decide)
      · have hresult : call.inflight.result = some msg := by
          rcases hmsg with hmsg | hmsg
          · exact hmsg
          · exact hended msg hmsg
        exact (hsound.answered msg (Or.inl hresult)).mono hgave rfl rfl
    · exact Or.inl hold
  · rw [hhand] at hmsg
    exact Or.inl hmsg

/-- Call `c` goes to a stage without a socket. -/
private theorem letGo (h : s.Paired p) (hcall : s.calls[c]? = some call) (hsocket : stage.socket = none)
    (hhanded : call.stage.handed = true → stage.handed = true)
    (hended : ∀ msg, stage = .ended (some msg) → call.inflight.result = some msg) : (s.setStage c stage).Paired p := by
  refine h.stageStep rfl rfl rfl hcall hhanded hended fun k q hk => Or.inr ?_
  rcases (lies_setStage hcall).1 hk with ⟨-, hsock⟩ | ⟨hne, hold⟩
  · rw [hsocket] at hsock
    cases hsock
  · exact ⟨hold, hne, fun sock hsock => ⟨sock, hsock, SameSocket.refl sock⟩⟩

theorem connect (h : s.Paired p) (accepted : Bool) : (s.connect c accepted).Paired p := by
  apply atCall_of h
  intro call hcall
  split
  · rename_i hstage
    split
    · refine h.stageStep rfl rfl rfl hcall (fun hh => ?_) (fun msg hmsg => by cases hmsg) fun k q hk => ?_
      · rw [hstage] at hh
        cases hh
      · rcases (lies_setStage (s := s.accept call.peer) hcall).1 hk with ⟨rfl, hsock⟩ | ⟨hne, hold⟩
        · obtain rfl := Option.some.inj hsock
          exact Or.inl ⟨_, List.getElem?_concat_length, _, Base.getElem?_modify_of_some hcall, rfl, rfl, rfl⟩
        · exact Or.inr ⟨lies_accept.1 hold, hne, fun sock hsock =>
            ⟨sock, Base.getElem?_concat_of_some hsock, SameSocket.refl sock⟩⟩
    · exact h.letGo hcall rfl (fun _ => rfl) fun msg hmsg => by cases hmsg
  · exact h

theorem dump (h : s.Paired p) : (s.dump p c).Paired p := by
  apply atCall_of h
  intro call hcall
  split
  · rename_i k hstage
    have hhanded : call.stage.handed = true → False := by rw [hstage]; exact nofun
    split
    · refine h.stageStep rfl rfl rfl hcall (fun hh => (hhanded hh).elim) (fun msg hmsg => by cases hmsg)
        fun k' q hk => ?_
      rcases (lies_setStage hcall).1 hk with ⟨rfl, hsock⟩ | ⟨hne, hold⟩
      · obtain rfl := Option.some.inj hsock
        obtain ⟨sock, hsock, call', hcall', hpeer, hclean⟩ := h.fits k (.held c) ⟨call, hcall, by rw [hstage]; rfl⟩
        obtain rfl : call = call' := Option.some.inj (hcall.symm.trans hcall')
        rw [hstage] at hclean
        exact Or.inl ⟨sock, hsock, _, Base.getElem?_modify_of_some hcall, hpeer, hclean⟩
      · exact Or.inr ⟨hold, hne, fun sock hsock => ⟨sock, hsock, SameSocket.refl sock⟩⟩
    · exact h.letGo hcall rfl (fun hh => (hhanded hh).elim) fun msg hmsg => by cases hmsg
  · exact h

theorem send (h : s.Paired p) (hp : s.Placed) (accepted closeRaises : Bool) :
    (s.send c accepted closeRaises).Paired p := by
  apply atCall_of h
  intro call hcall
  split
  · rename_i k hstage
    have hhanded : call.stage.handed = false := by rw [hstage]; rfl
    have hheld : s.lies k (.held c) := ⟨call, hcall, by rw [hstage]; rfl⟩
    split
    · refine h.stageStep rfl rfl rfl hcall (fun hh => by rw [hhanded] at hh; cases hh) (fun msg hmsg => by cases hmsg)
        fun k' q hk => ?_
      rcases (lies_setStage (s := s.setSocket k _) hcall).1 hk with ⟨rfl, hsock⟩ | ⟨hne, hold⟩
      · obtain rfl := Option.some.inj hsock
        obtain ⟨sock, hsock, call', hcall', hpeer, hclean⟩ := h.fits k (.held c) hheld
        obtain rfl : call = call' := Option.some.inj (hcall.symm.trans hcall')
        rw [hstage] at hclean
        refine Or.inl ⟨_, Base.getElem?_modify_of_some hsock, _, Base.getElem?_modify_of_some hcall, hpeer, Or.inl ?_⟩
        refine ⟨?_, hclean.2, (h.calls c call hcall).fresh hhanded⟩
        show sock.sent ++ [⟨c, call.msg⟩] = _
        rw [hclean.1]
        rfl
      · have hlies : s.lies k' q := (lies_setSocket (by intro sock; rfl)).1 hold
        have hkk : k' ≠ k := by
          rintro rfl
          exact hne (hp.once k' q (.held c) hlies hheld)
        exact Or.inr ⟨hlies, hne, fun sock hsock =>
          ⟨sock, (List.getElem?_modify_ne _ _ (Ne.symm hkk)).trans hsock, SameSocket.refl sock⟩⟩
    · refine h.stageStep rfl rfl rfl hcall (fun hh => by rw [hhanded] at hh; cases hh)
        (fun msg hmsg => by cases closeRaises <;> cases hmsg) fun k' q hk => ?_
      rcases (lies_setStage (s := s.close k) hcall).1 hk with ⟨-, hsock⟩ | ⟨hne, hold⟩
      · cases closeRaises <;> cases hsock
      · rcases lies_close.1 hold with ⟨rfl, rfl, hlt⟩ | hold
        · exact Or.inl ⟨_, Base.getElem?_modify_of_some (List.getElem?_eq_getElem hlt), trivial⟩
        · exact Or.inr ⟨hold, hne, same_close⟩
  · exact h

theorem handOver (h : s.Paired p) : (s.handOver c).Paired p := by
  apply atCall_of h
  intro call hcall
  split
  · rename_i k hstage
    have hheld : s.lies k (.held c) := ⟨call, hcall, by rw [hstage]; rfl⟩
    refine h.stageStep rfl rfl rfl hcall (fun _ => rfl) (fun msg hmsg => by cases hmsg) fun k' q hk => ?_
    rcases (lies_setStage (s := s.enqueue k c) hcall).1 hk with ⟨-, hsock⟩ | ⟨hne, hold⟩
    · cases hsock
    · rcases lies_enqueue.1 hold with ⟨rfl, rfl⟩ | hold
      · obtain ⟨sock, hsock, call', hcall', hpeer, hstream⟩ := h.fits k' (.held c) hheld
        obtain rfl : call = call' := Option.some.inj (hcall.symm.trans hcall')
        rw [hstage] at hstream
        exact Or.inl ⟨sock, hsock, _, Base.getElem?_modify_of_some hcall, hpeer,
          Stream.mono hstream (fun _ h => h) ⟨rfl, rfl, rfl, rfl, rfl⟩ (SameSocket.refl sock)⟩
      · exact Or.inr ⟨hold, hne, fun sock hsock => ⟨sock, hsock, SameSocket.refl sock⟩⟩
  · exact h

theorem wake (h : s.Paired p) : (s.wake c).Paired p := by
  apply atCall_of h
  intro call hcall
  split
  · exact h.letGo hcall rfl (fun _ => rfl) fun msg hmsg => MuxStage.ended.inj hmsg
  · exact h

end Callers

/-! ### Peers and the selector thread -/

section Selector

variable {c k : Nat} {call : MuxCall V τ}

/-- Sockets change their places; calls, responses and messages do not change. -/
private theorem moveStep (h : s.Paired p) (hcalls : s'.calls = s.calls) (hgiven : s'.given = s.given)
    (hhand : ∀ c msg, s'.inHand = some (c, msg) → s.inHand = some (c, msg) ∨
      ∃ call, s.calls[c]? = some call ∧ s.Answered p c call msg)
    (hfits : ∀ k q, s'.lies k q → (∃ sock, s'.sockets[k]? = some sock ∧ s'.Fits sock q) ∨
      s.lies k q ∧ ∀ sock, s.sockets[k]? = some sock → ∃ sock', s'.sockets[k]? = some sock' ∧ SameSocket sock sock') :
    s'.Paired p := by
  have hgave : ∀ x ∈ s.given, x ∈ s'.given := by rw [hgiven]; exact fun _ h => h
  refine h.step hgave (fun c call hc => ⟨call, hcalls ▸ hc, rfl, rfl⟩) (fun k q hk => ?_)
    (fun c call' hc => Or.inl (hcalls ▸ hc)) fun c msg hmsg => ?_
  · rcases hfits k q hk with hfit | ⟨hlies, hsock⟩
    · exact Or.inl hfit
    · exact Or.inr ⟨hlies, hsock, fun c call _ hc => ⟨call, hcalls ▸ hc, SameCall.refl call, fun _ => rfl⟩⟩
  · rcases hhand c msg hmsg with hold | ⟨call, hcall, hans⟩
    · exact Or.inl hold
    · exact Or.inr ⟨call, hcalls ▸ hcall, hans.mono hgave rfl rfl⟩

/-- The response to the request of a stream comes in. -/
private theorem stream_answered {sock : MuxSocket V τ} {request : Request V τ} {rest : List (Request V τ)}
    {body : List UInt8} (hstream : s.Stream c call sock) (hsent : sock.sent = request :: rest)
    (hpeer : sock.peer = call.peer) (hlt : body.length < 256 ^ headerSize)
    (hgave : ⟨sock.peer, request, body⟩ ∈ s'.given) :
    s'.Stream c call { sock with sent := rest, unread := sock.unread ++ frame headerSize body } := by
  rcases hstream with ⟨hpending, hunread, hfresh⟩ | ⟨hnone, -⟩
  · rw [hsent] at hpending
    obtain ⟨rfl, rfl⟩ := List.cons.inj hpending
    rw [hpeer] at hgave
    refine Or.inr ⟨rfl, body, hlt, hgave, ?_⟩
    show call.inflight.Awaits body (sock.unread ++ frame headerSize body)
    rw [hunread]
    exact hfresh.awaits body
  · rw [hsent] at hnone
    cases hnone

private theorem fits_answered {q : Place} {sock : MuxSocket V τ} {request : Request V τ} {rest : List (Request V τ)}
    {body : List UInt8} (hfits : s.Fits sock q) (hsent : sock.sent = request :: rest)
    (hlt : body.length < 256 ^ headerSize) (hcalls : s'.calls = s.calls)
    (hgave : ⟨sock.peer, request, body⟩ ∈ s'.given) :
    s'.Fits { sock with sent := rest, unread := sock.unread ++ frame headerSize body } q := by
  have hdirty : ¬ sock.Clean := by
    rintro ⟨hnone, -⟩
    rw [hsent] at hnone
    cases hnone
  cases q with
  | held c =>
    obtain ⟨call, hcall, hpeer, hcarries⟩ := hfits
    refine ⟨call, hcalls ▸ hcall, hpeer, ?_⟩
    cases hh : call.stage.hasSent with
    | true =>
      rw [hh] at hcarries
      exact stream_answered hcarries hsent hpeer hlt hgave
    | false =>
      rw [hh] at hcarries
      exact absurd hcarries hdirty
  | queued c | registered c =>
    obtain ⟨call, hcall, hpeer, hstream⟩ := hfits
    exact ⟨call, hcalls ▸ hcall, hpeer, stream_answered hstream hsent hpeer hlt hgave⟩
  | returning c =>
    obtain ⟨call, -, -, hclean⟩ := hfits
    exact absurd hclean hdirty
  | idle peer => exact absurd hfits.2 hdirty
  | closed => trivial

theorem answer (h : s.Paired p) (body : List UInt8) : (s.answer k body).Paired p := by
  unfold MuxPool.answer
  split
  · exact h
  · rename_i sock hsock
    split
    · exact h
    · rename_i request rest hsent
      split
      · rename_i hlt
        have hgave : ∀ x ∈ s.given, x ∈ s.given ++ [⟨sock.peer, request, body⟩] := fun _ => List.mem_append_left _
        refine h.step hgave (fun c call hc => ⟨call, hc, rfl, rfl⟩) (fun k' q hk => ?_) (fun c call' hc => Or.inl hc)
          fun c msg hmsg => Or.inl hmsg
        have hlies : s.lies k' q := by
          rw [← lies_setSocket (f := fun sock =>
            { sock with sent := rest, unread := sock.unread ++ frame headerSize body }) (by intro sock; rfl)]
          cases q <;> exact hk
        by_cases hkk : k' = k
        · subst hkk
          obtain ⟨sock', hsock', hfits⟩ := h.fits k' q hlies
          obtain rfl : sock = sock' := Option.some.inj (hsock.symm.trans hsock')
          exact Or.inl ⟨_, Base.getElem?_modify_of_some hsock,
            fits_answered hfits hsent hlt rfl (List.mem_append_right _ (List.mem_singleton_self _))⟩
        · exact Or.inr ⟨hlies,
            fun sock hsock => ⟨sock, (List.getElem?_modify_ne _ _ (Ne.symm hkk)).trans hsock, SameSocket.refl sock⟩,
            fun c call _ hc => ⟨call, hc, SameCall.refl call, fun _ => rfl⟩⟩
      · exact h

theorem register (h : s.Paired p) : s.register.Paired p := by
  unfold MuxPool.register
  split
  · rename_i entry rest hpolling hqueue
    have hrest : ∀ {k' c'}, (k', c') ∈ rest → s.lies k' (.queued c') := by
      intro k' c' hmem
      show (k', c') ∈ s.regQueue
      rw [hqueue]
      exact List.mem_cons_of_mem _ hmem
    have hsame : ∀ {k' : Nat} sock, s.sockets[k']? = some sock →
        ∃ sock', s.sockets[k']? = some sock' ∧ SameSocket sock sock' :=
      fun sock hsock => ⟨sock, hsock, SameSocket.refl sock⟩
    split
    · refine h.moveStep rfl rfl (fun _ _ hmsg => Or.inl hmsg) fun k' q hk => ?_
      cases q with
      | queued c' => exact Or.inr ⟨hrest hk, hsame⟩
      | registered c' =>
        rcases List.mem_append.1 hk with hold | hnew
        · exact Or.inr ⟨hold, hsame⟩
        · obtain rfl := List.mem_singleton.1 hnew
          have hqueued : s.lies k' (.queued c') := by
            show (k', c') ∈ s.regQueue
            rw [hqueue]
            exact List.mem_cons_self
          exact Or.inl (h.fits k' (.queued c') hqueued)
      | held c' | returning c' | idle peer | closed => exact Or.inr ⟨hk, hsame⟩
    · refine h.moveStep rfl rfl (fun _ _ hmsg => by cases hmsg) fun k' q hk => ?_
      cases q with
      | queued c' => exact Or.inr ⟨hrest hk, hsame⟩
      | returning c' =>
        obtain ⟨msg, hmsg⟩ := hk
        cases hmsg
      | held c' | registered c' | idle peer | closed => exact Or.inr ⟨hk, hsame⟩
  · exact h

/-- The event or the result of a record is set. -/
private theorem setRecord (h : s.Paired p) (event : Bool) (result : Option (Message V τ))
    (hcall : s.calls[c]? = some call) (hresult : ∀ msg, result = some msg → s.Answered p c call msg) :
    (s.setInFlight c { call.inflight with event := event, result := result }).Paired p := by
  have hget : ∀ (c' : Nat) (old : MuxCall V τ), s.calls[c']? = some old → ∃ call',
      (s.setInFlight c { call.inflight with event := event, result := result }).calls[c']? = some call' ∧
        SameCall old call' ∧ call'.stage.hasSent = old.stage.hasSent := by
    intro c' old hold
    by_cases hc : c' = c
    · subst hc
      obtain rfl : call = old := Option.some.inj (hcall.symm.trans hold)
      exact ⟨_, Base.getElem?_modify_of_some hcall, ⟨rfl, rfl, rfl, rfl, rfl⟩, rfl⟩
    · exact ⟨old, (List.getElem?_modify_ne _ _ (Ne.symm hc)).trans hold, SameCall.refl old, rfl⟩
  refine h.step (fun _ hx => hx) (fun c' old hold => ?_) (fun k q hk => Or.inr ?_) (fun c' call' hc => ?_)
    fun c' msg hmsg => Or.inl hmsg
  · obtain ⟨call', hc', hsame, -⟩ := hget c' old hold
    exact ⟨call', hc', hsame.peer, hsame.msg⟩
  · refine ⟨lies_setInFlight.1 hk, fun sock hsock => ⟨sock, hsock, SameSocket.refl sock⟩, fun c' old _ hold => ?_⟩
    obtain ⟨call', hc', hsame, hsent⟩ := hget c' old hold
    exact ⟨call', hc', hsame, fun _ => hsent⟩
  · obtain ⟨old, hold, ⟨rfl, rfl⟩ | ⟨-, rfl⟩⟩ := Base.getElem?_modify_some hc
    · obtain rfl : call = old := Option.some.inj (hcall.symm.trans hold)
      have hsound := h.calls c' call hcall
      refine Or.inr ⟨hsound.address, hsound.fresh, fun msg hmsg => ?_⟩
      rcases hmsg with hmsg | hmsg
      · exact (hresult msg hmsg).mono (fun _ hx => hx) rfl rfl
      · exact (hsound.answered msg (Or.inr hmsg)).mono (fun _ hx => hx) rfl rfl
    · exact Or.inl hold

theorem fail (h : s.Paired p) : (s.fail k c).Paired p := by
  apply atCall_of h
  intro call hcall
  have hclosed : ((s.unregister k).close k).Paired p := by
    refine h.moveStep rfl rfl (fun _ _ hmsg => Or.inl hmsg) fun k' q hk => ?_
    rcases lies_close.1 hk with ⟨rfl, rfl, hlt⟩ | hold
    · exact Or.inl ⟨_, Base.getElem?_modify_of_some (List.getElem?_eq_getElem hlt), trivial⟩
    · exact Or.inr ⟨(lies_unregister.1 hold).1, same_close⟩
  exact hclosed.setRecord _ _ hcall fun msg hmsg => (h.calls c call hcall).answered msg (Or.inl hmsg)

theorem lose (h : s.Paired p) : (s.lose k).Paired p :=
  atRegistered_of h fun _ _ _ _ _ _ _ => h.fail

/-- A chunk has been read; if it completes the body, the socket is clean. -/
private theorem received (h : s.Paired p) (hp : s.Placed) {sock : MuxSocket V τ} {chunk rest : List UInt8}
    (hk : s.lies k (.registered c)) (hsock : s.sockets[k]? = some sock) (hcall : s.calls[c]? = some call)
    (hunread : sock.unread = chunk ++ rest) (hneed : call.inflight.expected - call.inflight.buf.length ≠ 0)
    (hchunk : chunk.length ≤ call.inflight.expected - call.inflight.buf.length) (hne : chunk ≠ []) :
    ((s.setSocket k fun sock => { sock with unread := sock.unread.drop chunk.length }).setInFlight c
        (call.inflight.feed p chunk).1).Paired p ∧
      ∀ msg, (call.inflight.feed p chunk).2 = some (.ok msg) →
        s.Answered p c call msg ∧ sock.sent = [] ∧ rest = [] ∧ sock.peer = call.peer := by
  obtain ⟨sock', hsock', call', hcall', hpeer, hstream⟩ := h.fits k (.registered c) hk
  obtain rfl : sock = sock' := Option.some.inj (hsock.symm.trans hsock')
  obtain rfl : call = call' := Option.some.inj (hcall.symm.trans hcall')
  obtain ⟨hsent, body, hlt, hgave, hawaits⟩ : sock.sent = [] ∧ ∃ body, body.length < 256 ^ headerSize ∧
      ⟨call.peer, ⟨c, call.msg⟩, body⟩ ∈ s.given ∧ call.inflight.Awaits body sock.unread := by
    rcases hstream with ⟨-, hnone, -⟩ | hanswered
    · rw [hunread] at hnone
      exact absurd (List.append_eq_nil_iff.1 hnone).1 hne
    · exact hanswered
  rw [hunread] at hawaits
  obtain ⟨hnext, hdone⟩ := InFlight.feed_awaits (p := p) hawaits hlt hchunk hneed
  obtain ⟨haddress, hresult⟩ := InFlight.feed_frame p call.inflight chunk
  have hdrop : sock.unread.drop chunk.length = rest := by rw [hunread, List.drop_left]
  refine ⟨?_, fun msg hmsg => ?_⟩
  · refine h.step (fun _ hx => hx) (fun c' old hold => ?_) (fun k' q hk' => ?_) (fun c' call' hc => ?_)
      fun c' msg hmsg => Or.inl hmsg
    · by_cases hc : c' = c
      · subst hc
        obtain rfl : call = old := Option.some.inj (hcall.symm.trans hold)
        exact ⟨_, Base.getElem?_modify_of_some hcall, rfl, rfl⟩
      · exact ⟨old, (List.getElem?_modify_ne _ _ (Ne.symm hc)).trans hold, rfl, rfl⟩
    · have hlies : s.lies k' q := (lies_setSocket (by intro sock; rfl)).1 (lies_setInFlight.1 hk')
      by_cases hkk : k' = k
      · subst hkk
        obtain rfl : q = .registered c := hp.once k' q _ hlies hk
        refine Or.inl ⟨_, Base.getElem?_modify_of_some hsock, _, Base.getElem?_modify_of_some hcall, hpeer, Or.inr ?_⟩
        refine ⟨hsent, body, hlt, hgave, ?_⟩
        show (call.inflight.feed p chunk).1.Awaits body (sock.unread.drop chunk.length)
        rw [hdrop]
        exact hnext
      · refine Or.inr ⟨hlies, fun sock hsock =>
          ⟨sock, (List.getElem?_modify_ne _ _ (Ne.symm hkk)).trans hsock, SameSocket.refl sock⟩, fun c' old hq hold => ?_⟩
        -- the call has only the socket that is read
        have hc : c' ≠ c := by
          rintro rfl
          exact hkk (hp.single c' k' k ⟨q, hq, hlies⟩ ⟨.registered c', rfl, hk⟩)
        exact ⟨old, (List.getElem?_modify_ne _ _ (Ne.symm hc)).trans hold, SameCall.refl old, fun _ => rfl⟩
    · obtain ⟨old, hold, ⟨rfl, rfl⟩ | ⟨-, rfl⟩⟩ := Base.getElem?_modify_some hc
      · obtain rfl : call = old := Option.some.inj (hcall.symm.trans hold)
        have hsound := h.calls c' call hcall
        refine Or.inr ⟨haddress.trans hsound.address, fun hh => ?_, fun msg hmsg => ?_⟩
        · obtain ⟨call', hcall', hhanded⟩ := hp.handed k c' _ hk rfl
          obtain rfl : call = call' := Option.some.inj (hcall.symm.trans hcall')
          rw [show call.stage.handed = false from hh] at hhanded
          cases hhanded
        · have hmsg : call.inflight.result = some msg ∨ call.stage = .ended (some msg) := by
            rw [← hresult]
            exact hmsg
          exact (hsound.answered msg hmsg).mono (fun _ hx => hx) rfl rfl
      · exact Or.inl hold
  · rcases hdone with hnone | ⟨hsome, hrest⟩
    · rw [hnone] at hmsg
      cases hmsg
    · rw [hsome] at hmsg
      exact ⟨⟨body, hgave, Option.some.inj hmsg⟩, hsent, hrest, hpeer⟩

private theorem settle (h : s.Paired p) {done : Option (Except WireError (Message V τ))}
    (hcall : s.calls[c]? = some call)
    (hdone : ∀ msg, done = some (.ok msg) → s.Answered p c call msg ∧
      ∃ sock, s.sockets[k]? = some sock ∧ sock.peer = call.peer ∧ sock.Clean) : (s.settle k c done).Paired p := by
  unfold MuxPool.settle
  split
  · exact h
  · exact h.fail
  · rename_i msg
    obtain ⟨hans, sock, hsock, hpeer, hclean⟩ := hdone msg rfl
    have hsame : ∀ {k' : Nat} sock, s.sockets[k']? = some sock →
        ∃ sock', s.sockets[k']? = some sock' ∧ SameSocket sock sock' :=
      fun sock hsock => ⟨sock, hsock, SameSocket.refl sock⟩
    split
    · refine h.moveStep rfl rfl (fun c' msg' hmsg => ?_) fun k' q hk => ?_
      · obtain ⟨rfl, rfl⟩ := Prod.mk.inj (Option.some.inj hmsg)
        exact Or.inr ⟨call, hcall, hans⟩
      · rcases lies_setSelector.1 hk with ⟨c', msg', rfl, heq⟩ | ⟨-, hold⟩
        · obtain ⟨rfl, rfl, -⟩ := SelectorStage.returning.inj heq
          exact Or.inl ⟨sock, hsock, call, hcall, hpeer, hclean⟩
        · exact Or.inr ⟨(lies_unregister.1 hold).1, hsame⟩
    · refine h.moveStep rfl rfl (fun c' msg' hmsg => by cases hmsg) fun k' q hk => ?_
      rcases lies_setSelector.1 hk with ⟨c', msg', rfl, heq⟩ | ⟨-, hold⟩
      · cases heq
      · exact Or.inr ⟨hold, hsame⟩

theorem read (h : s.Paired p) (hp : s.Placed) (n : Nat) : (s.read p k n).Paired p := by
  refine atRegistered_of h fun c sock call _ hk hsock hcall => ?_
  simp only
  split
  · exact h.fail
  · rename_i hneed
    split
    · exact h
    · rename_i hne
      generalize hchunk :
        sock.unread.take (min (n + 1) (call.inflight.expected - call.inflight.buf.length)) = chunk at *
      have hlen : chunk.length ≤ call.inflight.expected - call.inflight.buf.length := by
        rw [← hchunk, List.length_take]
        omega
      have hunread : sock.unread = chunk ++ sock.unread.drop chunk.length := by
        rw [← hchunk]
        exact (List.prefix_iff_eq_append.1 (List.take_prefix _ _)).symm
      obtain ⟨hnext, hdone⟩ := h.received hp hk hsock hcall hunread hneed hlen hne
      refine hnext.settle (Base.getElem?_modify_of_some hcall) fun msg hmsg => ?_
      obtain ⟨hans, hsent, hrest, hpeer⟩ := hdone msg hmsg
      exact ⟨hans.mono (fun _ hx => hx) rfl rfl, _, Base.getElem?_modify_of_some hsock, hpeer, hsent, hrest⟩

theorem giveBack (h : s.Paired p) (max : Int) (closeRaises : Bool) : (s.giveBack max closeRaises).Paired p := by
  unfold MuxPool.giveBack
  split
  · rename_i k c msg hreturning
    apply atCall_of h
    intro call hcall
    have hinHand : s.inHand = some (c, msg) := by
      unfold MuxPool.inHand
      rw [hreturning]
    obtain ⟨sock, hsock, call', hcall', hpeer, hclean⟩ := h.fits k (.returning c) ⟨msg, hreturning⟩
    obtain rfl : call = call' := Option.some.inj (hcall.symm.trans hcall')
    have haddress := (h.calls c call hcall).address
    simp only
    split
    · refine h.moveStep rfl rfl (fun c' msg' hmsg => Or.inl (hinHand.trans hmsg)) fun k' q hk => ?_
      rcases lies_setSelector.1 hk with ⟨c', msg', -, heq⟩ | ⟨-, hold⟩
      · cases heq
      · rcases lies_setIdle.1 hold with ⟨rfl, hmem⟩ | ⟨-, hold⟩
        · rcases List.mem_cons.1 hmem with rfl | hmem
          · exact Or.inl ⟨sock, hsock, hpeer.trans haddress.symm, hclean⟩
          · exact Or.inr ⟨hmem, fun sock hsock => ⟨sock, hsock, SameSocket.refl sock⟩⟩
        · exact Or.inr ⟨hold, fun sock hsock => ⟨sock, hsock, SameSocket.refl sock⟩⟩
    · refine h.moveStep rfl rfl (fun c' msg' hmsg => Or.inl ?_) fun k' q hk => ?_
      · cases closeRaises with
        | true => cases hmsg
        | false => exact hinHand.trans hmsg
      · rcases lies_setSelector.1 hk with ⟨c', msg', -, heq⟩ | ⟨-, hold⟩
        · cases closeRaises <;> cases heq
        · rcases lies_close.1 hold with ⟨rfl, rfl, hlt⟩ | hold
          · exact Or.inl ⟨_, Base.getElem?_modify_of_some (List.getElem?_eq_getElem hlt), trivial⟩
          · refine Or.inr ⟨?_, same_close⟩
            rcases lies_setIdle.1 hold with ⟨rfl, hmem⟩ | ⟨-, hold⟩
            · exact hmem
            · exact hold
  · exact h

theorem deliver (h : s.Paired p) : s.deliver.Paired p := by
  unfold MuxPool.deliver
  split
  · rename_i c msg hdelivering
    apply atCall_of h
    intro call hcall
    obtain ⟨call', hcall', hans⟩ := h.inHand c msg (by unfold MuxPool.inHand; rw [hdelivering])
    obtain rfl : call = call' := Option.some.inj (hcall.symm.trans hcall')
    have hset := h.setRecord true (some msg) hcall fun msg' hmsg => Option.some.inj hmsg ▸ hans
    refine hset.moveStep rfl rfl (fun c' msg' hmsg => by cases hmsg) fun k q hk => ?_
    rcases lies_setSelector.1 hk with ⟨c', msg', -, heq⟩ | ⟨-, hold⟩
    · cases heq
    · exact Or.inr ⟨hold, fun sock hsock => ⟨sock, hsock, SameSocket.refl sock⟩⟩
  · exact h

/-- The selector thread ends. -/
private theorem endSelector (h : s.Paired p) : (s.setSelector .ended).Paired p := by
  refine h.moveStep rfl rfl (fun c' msg' hmsg => by cases hmsg) fun k q hk => ?_
  rcases lies_setSelector.1 hk with ⟨c', msg', -, heq⟩ | ⟨-, hold⟩
  · cases heq
  · exact Or.inr ⟨hold, fun sock hsock => ⟨sock, hsock, SameSocket.refl sock⟩⟩

private theorem signalRegistered (h : s.Paired p) : s.signalRegistered.Paired p := by
  have hget : ∀ (c : Nat) (call : MuxCall V τ), s.calls[c]? = some call → ∃ event,
      s.signalRegistered.calls[c]? = some { call with inflight := { call.inflight with event := event } } := by
    intro c call hcall
    rw [getElem?_signalRegistered, hcall]
    cases s.registered.any fun entry => entry.2 = c with
    | true => exact ⟨true, rfl⟩
    | false => exact ⟨call.inflight.event, rfl⟩
  refine h.step (fun _ hx => hx) (fun c call hcall => ?_) (fun k q hk => Or.inr ?_) (fun c call' hc => Or.inr ?_)
    fun c msg hmsg => Or.inl hmsg
  · obtain ⟨event, hevent⟩ := hget c call hcall
    exact ⟨_, hevent, rfl, rfl⟩
  · refine ⟨lies_signalRegistered.1 hk, fun sock hsock => ⟨sock, hsock, SameSocket.refl sock⟩, fun c call _ hcall => ?_⟩
    obtain ⟨event, hevent⟩ := hget c call hcall
    exact ⟨_, hevent, ⟨rfl, rfl, rfl, rfl, rfl⟩, fun _ => rfl⟩
  · have hold := hc
    rw [getElem?_signalRegistered] at hold
    obtain ⟨call, hcall, -⟩ := Option.map_eq_some_iff.1 hold
    obtain ⟨event, hevent⟩ := hget c call hcall
    obtain rfl := Option.some.inj (hevent.symm.trans hc)
    have hsound := h.calls c call hcall
    exact ⟨hsound.address, hsound.fresh, fun msg hmsg => (hsound.answered msg hmsg).mono (fun _ hx => hx) rfl rfl⟩

theorem leave (h : s.Paired p) : s.leave.Paired p := by
  unfold MuxPool.leave
  split
  · split
    · exact h.signalRegistered.endSelector
    · exact h.endSelector
  · exact h

end Selector

/-! ### The pool -/

section Pool

theorem call (h : s.Paired p) (peer : NodeInfo) (msg : Message V τ) : (s.call peer msg).Paired p := by
  have hstart : ∀ {t : MuxPool V τ} {stage : MuxStage V τ}, t.Paired p → stage.hasSent = false →
      (∀ msg, stage ≠ .ended (some msg)) →
      (∀ k, stage.socket = some k → ∃ sock, t.sockets[k]? = some sock ∧ sock.peer = peer ∧ sock.Clean) →
      (t.start peer msg stage).Paired p := by
    intro t stage ht hsent hended hsocket
    refine ht.step (fun _ hx => hx) (fun c call hc => ⟨call, Base.getElem?_concat_of_some hc, rfl, rfl⟩)
      (fun k q hk => ?_) (fun c call' hc => ?_) fun c msg hmsg => Or.inl hmsg
    · rcases lies_start.1 hk with ⟨rfl, hsock⟩ | hold
      · obtain ⟨sock, hget, hpeer, hclean⟩ := hsocket k hsock
        refine Or.inl ⟨sock, hget, _, List.getElem?_concat_length, hpeer, ?_⟩
        show if stage.hasSent then _ else _
        rw [hsent]
        exact hclean
      · exact Or.inr ⟨hold, fun sock hsock => ⟨sock, hsock, SameSocket.refl sock⟩,
          fun c call _ hc => ⟨call, Base.getElem?_concat_of_some hc, SameCall.refl call, fun _ => rfl⟩⟩
    · rcases Base.getElem?_concat_some hc with hold | ⟨rfl, rfl⟩
      · exact Or.inl hold
      · refine Or.inr ⟨rfl, fun _ => ⟨rfl, rfl, rfl⟩, fun msg hmsg => ?_⟩
        rcases hmsg with hmsg | hmsg
        · cases hmsg
        · exact absurd hmsg (hended msg)
  unfold MuxPool.call
  split
  · exact hstart h rfl (fun _ h => by cases h) fun k hk => by cases hk
  · rename_i k hlast
    have hmem : k ∈ s.idleAt peer := List.mem_of_getLast? hlast
    have hshrunk : (s.setIdle peer (s.idleAt peer).dropLast).Paired p := by
      refine h.moveStep rfl rfl (fun _ _ hmsg => Or.inl hmsg) fun k' q hk => Or.inr ⟨?_, fun sock hsock =>
        ⟨sock, hsock, SameSocket.refl sock⟩⟩
      rcases lies_setIdle.1 hk with ⟨rfl, hrest⟩ | ⟨-, hold⟩
      · exact (List.dropLast_subset _) hrest
      · exact hold
    refine hstart hshrunk rfl (fun _ h => by cases h) fun k' hk => ?_
    obtain rfl := Option.some.inj hk
    obtain ⟨sock, hsock, hpeer, hclean⟩ := h.fits k (.idle peer) hmem
    exact ⟨sock, hsock, hpeer, hclean⟩

private theorem closeEach (h : s.Paired p) (socks : List Nat) : (s.closeEach socks).Paired p := by
  induction socks generalizing s with
  | nil => exact h
  | cons k rest ih =>
    apply ih
    refine h.moveStep rfl rfl (fun _ _ hmsg => Or.inl hmsg) fun k' q hk => ?_
    rcases lies_close.1 hk with ⟨rfl, rfl, hlt⟩ | hold
    · exact Or.inl ⟨_, Base.getElem?_modify_of_some (List.getElem?_eq_getElem hlt), trivial⟩
    · exact Or.inr ⟨hold, same_close⟩

/-- Nothing changes but the deques, which lose sockets, and `close_all`. -/
private theorem drop (h : s.Paired p) {idle : Dict NodeInfo (List Nat)} {running selOpen : Bool}
    {closings : List ClosingStage}
    (hsub : ∀ peer, ∀ k ∈ ({ s with idle := idle } : MuxPool V τ).idleAt peer, k ∈ s.idleAt peer) :
    ({ s with idle := idle, running := running, selOpen := selOpen, closings := closings } :
      MuxPool V τ).Paired p := by
  refine h.moveStep rfl rfl (fun _ _ hmsg => Or.inl hmsg) fun k q hk => Or.inr ⟨?_, fun sock hsock =>
    ⟨sock, hsock, SameSocket.refl sock⟩⟩
  cases q with
  | idle peer => exact hsub peer k hk
  | held c | queued c | registered c | returning c | closed => exact hk

theorem closePeer (h : s.Paired p) (peer : NodeInfo) : (s.closePeer peer).Paired p := by
  refine (h.drop fun peer' k hk => ?_).closeEach _
  unfold idleAt at hk
  simp only at hk
  rw [Dict.get_del] at hk
  split at hk
  · cases hk
  · exact hk

theorem closeIdle (h : s.Paired p) (i : Nat) : (s.closeIdle i).Paired p := by
  unfold MuxPool.closeIdle
  split
  · exact (h.drop fun _ _ hk => by cases hk).closeEach _
  · exact h

theorem closeAll (h : s.Paired p) : s.closeAll.Paired p := h.drop fun _ _ hk => hk

theorem join (h : s.Paired p) (i : Nat) : (s.join i).Paired p := by
  unfold MuxPool.join
  split
  · exact h.drop fun _ _ hk => hk
  · exact h

theorem apply (h : s.Paired p) (hp : s.Placed) (max : Int) (e : MuxEvent V τ) : (s.apply p max e).Paired p := by
  cases e with
  | call peer msg => exact h.call peer msg
  | connect c accepted => exact h.connect accepted
  | dump c => exact h.dump
  | send c accepted closeRaises => exact h.send hp accepted closeRaises
  | handOver c => exact h.handOver
  | wake c => exact h.wake
  | answer k body => exact h.answer body
  | register => exact h.register
  | read k n => exact h.read hp n
  | lose k => exact h.lose
  | giveBack closeRaises => exact h.giveBack max closeRaises
  | deliver => exact h.deliver
  | leave => exact h.leave
  | closePeer peer => exact h.closePeer peer
  | closeAll => exact h.closeAll
  | join i => exact h.join i
  | closeIdle i => exact h.closeIdle i

theorem after (p : Pickle V τ) (max : Int) (run : MuxRun V τ) : (muxAfter p max run).Paired p :=
  after_invariant (P := fun _ (s : MuxPool V τ) => s.Paired p) (C := fun _ _ => True) Paired.empty
    (fun pre e _ h => h.apply (Placed.after p max pre) max e) (fun _ _ _ _ => trivial)

end Pool

end Paired

end MuxPool

/-- A socket is in at most one place, and there once; an idle socket is clean and leads to the peer of its deque; every
call gets the response to its own message. -/
theorem mux_answers_own_message (p : Pickle V τ) (max : Int) (run : MuxRun V τ) :
    let s := muxAfter p max run
    (∀ (k : Nat) (q q' : MuxPool.Place), s.lies k q → s.lies k q' → q = q') ∧
    s.regQueue.Nodup ∧ s.registered.Nodup ∧ (∀ peer, (s.idleAt peer).Nodup) ∧
    (∀ (k : Nat) (peer : NodeInfo), k ∈ s.idleAt peer →
      ∃ sock, s.sockets[k]? = some sock ∧ sock.peer = peer ∧ sock.sent = [] ∧ sock.unread = []) ∧
    ∀ (c : Nat) (call : MuxCall V τ) (msg : Message V τ), s.calls[c]? = some call → call.stage = .ended (some msg) →
      ∃ body, ⟨call.peer, ⟨c, call.msg⟩, body⟩ ∈ s.given ∧ p.loads body = .ok msg := by
  intro s
  have hp : s.Placed := MuxPool.Placed.after p max run
  have h : s.Paired p := MuxPool.Paired.after p max run
  refine ⟨hp.once, hp.queue, hp.registered, hp.idle, fun k peer hk => ?_, fun c call msg hc hstage => ?_⟩
  · obtain ⟨sock, hsock, hpeer, hclean⟩ := h.fits k (.idle peer) hk
    exact ⟨sock, hsock, hpeer, hclean.1, hclean.2⟩
  · exact (h.calls c call hc).answered msg (Or.inr hstage)

end DLStorage
