import DLStorage.ConnectionPool.Streams

/-!
# The incremental reader

`_handle_read` on the record of one socket, called again and again as the selector finds the socket readable, against
`recv_message` on the same bytes.  Until the frame is complete, what has been read and what is still to come is the
frame (`Pending`), wherever it has been cut; so the body that is delivered in the end is the one that `recv_message`
reads, and no byte behind it has been touched (`reader_agrees`).
-/

namespace DLStorage

open Base (after after_concat after_invariant after_keeps frame readFrame_of_frame readFrame_of_short
  readFrame_of_undecodable)

/-- What `sock.recv(need)` comes to. -/
inductive Recv
  /-- `BlockingIOError` or `InterruptedError`. -/
  | blocks
  /-- At most `n + 1` bytes of those that have not been read. -/
  | yields (n : Nat)
  /-- The end of the stream, when all bytes have been read. -/
  | ends
  | raises
  deriving DecidableEq

/-- A socket with its record. -/
structure Reading (V τ : Type) where
  /-- The bytes that have not been read; the transport hands out no others. -/
  unread : List UInt8
  inflight : InFlight V τ
  registered : Bool
  isOpen : Bool
  /-- What `result[0]` was at each `event.set()`. -/
  delivered : List (Option (Message V τ))

variable {V τ : Type}

namespace Reading

variable (s : Reading V τ)

/-- A socket that has just been registered. -/
def new (address : NodeInfo) (bytes : List UInt8) : Reading V τ :=
  { unread := bytes, inflight := InFlight.new address, registered := true, isOpen := true, delivered := [] }

/-- `_fail(sock, inflight)`. -/
def fail : Reading V τ :=
  { s with
    registered := false, isOpen := false, inflight := { s.inflight with event := true },
    delivered := s.delivered ++ [s.inflight.result] }

/-- The message is delivered; `_return` has the socket. -/
def deliver (msg : Message V τ) : Reading V τ :=
  { s with
    registered := false, inflight := { s.inflight with result := some msg, event := true },
    delivered := s.delivered ++ [some msg] }

/-- The end of `_handle_read(sock, inflight)`, with what `pickle.loads` has made of a body. -/
def settle : Option (Except WireError (Message V τ)) → Reading V τ
  | none => s
  | some (.error _) => s.fail
  | some (.ok msg) => s.deliver msg

/-- `_handle_read(sock, inflight)`. -/
def handleRead (p : Pickle V τ) (recv : Recv) : Reading V τ :=
  match recv with
  | .blocks => s
  | .raises => s.fail
  | .ends => if s.unread = [] then s.fail else s
  | .yields n =>
    let need := s.inflight.expected - s.inflight.buf.length
    let chunk := s.unread.take (min (n + 1) need)
    -- `recv(0)` looks like the end of the stream
    if need = 0 then s.fail
    -- nothing has arrived
    else if chunk = [] then s
    else
      let fed := s.inflight.feed p chunk
      settle { s with unread := s.unread.drop chunk.length, inflight := fed.1 } fed.2

/-- The selector reports registered sockets only. -/
def select (p : Pickle V τ) (recv : Recv) : Reading V τ := if s.registered then s.handleRead p recv else s

end Reading

/-- The socket and its record after the given calls of `recv`, on a stream of the given bytes. -/
def readingAfter (p : Pickle V τ) (address : NodeInfo) (bytes : List UInt8) (recvs : List Recv) : Reading V τ :=
  after (fun s recv => s.select p recv) (Reading.new address bytes) recvs

/-- How often bytes are handed out, unless none has arrived. -/
def yielding : List Recv → Nat
  | [] => 0
  | .yields _ :: recvs => yielding recvs + 1
  | _ :: recvs => yielding recvs

theorem yielding_append (recvs recvs' : List Recv) : yielding (recvs ++ recvs') = yielding recvs + yielding recvs' := by
  induction recvs with
  | nil => simp [yielding]
  | cons recv recvs ih =>
    cases recv <;> simp only [List.cons_append, yielding, ih]
    omega

namespace Reading

variable (p : Pickle V τ) (body missing rest : List UInt8) (s : Reading V τ)

/-- The frame is incomplete, and the rest of it comes first among the bytes to be read and the missing ones. -/
structure Pending : Prop where
  registered : s.registered = true
  isOpen : s.isOpen = true
  delivered : s.delivered = []
  result : s.inflight.result = none
  needs : s.inflight.buf.length < s.inflight.expected
  left : ∃ left, s.inflight.Awaits body left ∧ s.unread ++ missing = left ++ rest

/-- The body has been read, and what it unpickles to has been delivered. -/
structure Complete : Prop where
  registered : s.registered = false
  unread : s.unread ++ missing = rest
  outcome : (∃ msg, p.loads body = .ok msg ∧ s.delivered = [some msg] ∧ s.isOpen = true) ∨
    ∃ e, p.loads body = .error e ∧ s.delivered = [none] ∧ s.isOpen = false

/-- `None` has been delivered, and the socket is closed. -/
structure Failed : Prop where
  registered : s.registered = false
  isOpen : s.isOpen = false
  delivered : s.delivered = [none]

/-- The outcome of the reader is that of `recv_message`, and it has read as far. -/
def Agrees (result : Except WireError (Message V τ × Socket)) : Prop :=
  match result with
  | .ok (msg, sock) => s.delivered = [some msg] ∧ s.isOpen = true ∧ s.unread = sock.flatten
  | .error _ => s.delivered = [none] ∧ s.isOpen = false

variable {p} {body missing rest} {s}

/-! ### One call -/

theorem Pending.new {address : NodeInfo} {bytes : List UInt8} (h : bytes ++ missing = frame headerSize body ++ rest) :
    (new address bytes : Reading V τ).Pending body missing rest where
  registered := rfl
  isOpen := rfl
  delivered := rfl
  result := rfl
  needs := Nat.zero_lt_succ _
  left := ⟨frame headerSize body, InFlight.Fresh.awaits ⟨rfl, rfl, rfl⟩ body, h⟩

/-- A record that needs bytes awaits some. -/
private theorem left_ne_nil {r : InFlight V τ} {left : List UInt8} (h : r.Awaits body left)
    (hneeds : r.buf.length < r.expected) : r.expected - r.buf.length ≤ left.length ∧ left ≠ [] := by
  rcases h with ⟨-, hexpected, hframe⟩ | ⟨-, hexpected, hbody⟩
  · have hlength := congrArg List.length hframe
    rw [List.length_append, Base.length_frame] at hlength
    refine ⟨by omega, ?_⟩
    rintro rfl
    simp only [List.length_nil] at hlength
    omega
  · have hlength := congrArg List.length hbody
    rw [List.length_append] at hlength
    refine ⟨by omega, ?_⟩
    rintro rfl
    simp only [List.length_nil] at hlength
    omega

/-- A record that has been fed and is not complete still needs bytes, since the body is not empty. -/
private theorem feed_needs {r : InFlight V τ} {chunk left : List UInt8} (hne : body ≠ [])
    (h : (r.feed p chunk).1.Awaits body left) (hnone : (r.feed p chunk).2 = none) :
    (r.feed p chunk).1.buf.length < (r.feed p chunk).1.expected := by
  unfold InFlight.feed at h hnone ⊢
  simp only at h hnone ⊢
  split
  · assumption
  · rename_i hlength
    rw [if_neg hlength] at h hnone
    split
    · rename_i hhdr
      rw [if_pos hhdr] at hnone
      cases hnone
    · rename_i hhdr
      rw [if_neg hhdr] at h
      rcases h with ⟨hfalse, -⟩ | ⟨-, hexpected, -⟩
      · cases hfalse
      · rw [hexpected]
        exact List.length_pos_iff.2 hne

private theorem Pending.fail (h : s.Pending body missing rest) : s.fail.Failed where
  registered := rfl
  isOpen := rfl
  delivered := by
    show s.delivered ++ [s.inflight.result] = [none]
    rw [h.delivered, h.result, List.nil_append]

/-- A chunk that is no longer than what is left is its beginning. -/
private theorem exists_left {chunk unread left rest : List UInt8} (h : chunk ++ unread = left ++ rest)
    (hlen : chunk.length ≤ left.length) : ∃ left', left = chunk ++ left' ∧ unread = left' ++ rest := by
  have hprefix : chunk <+: left ++ rest := h ▸ List.prefix_append chunk unread
  obtain ⟨left', rfl⟩ := List.prefix_of_prefix_length_le hprefix (List.prefix_append left rest) hlen
  rw [List.append_assoc] at h
  exact ⟨left', rfl, List.append_cancel_left h⟩

/-- Bytes take the record on, or complete it. -/
private theorem Pending.yields (h : s.Pending body missing rest) (hne : body ≠ [])
    (hlen : body.length < 256 ^ headerSize) (n : Nat) :
    (s.handleRead p (.yields n)).Pending body missing rest ∧
        (s.unread = [] ∧ s.handleRead p (.yields n) = s ∨
          (s.handleRead p (.yields n)).unread.length < s.unread.length) ∨
      (s.handleRead p (.yields n)).Complete p body missing rest := by
  obtain ⟨left, hawaits, hleft⟩ := h.left
  obtain ⟨hneed, -⟩ := left_ne_nil hawaits h.needs
  have hpos : s.inflight.expected - s.inflight.buf.length ≠ 0 := by
    have := h.needs
    omega
  unfold handleRead
  simp only
  rw [if_neg hpos]
  generalize hchunk : s.unread.take (min (n + 1) (s.inflight.expected - s.inflight.buf.length)) = chunk
  split
  · rename_i hnil
    -- nothing is left to be read
    have hunread : s.unread = [] := by
      rw [hnil, List.take_eq_nil_iff] at hchunk
      exact hchunk.resolve_left (by omega)
    exact Or.inl ⟨h, Or.inl ⟨hunread, rfl⟩⟩
  · rename_i hsome
    have hlength : chunk.length ≤ s.inflight.expected - s.inflight.buf.length := by
      rw [← hchunk, List.length_take]
      omega
    have hunread : s.unread = chunk ++ s.unread.drop chunk.length := by
      have hprefix : chunk <+: s.unread := hchunk ▸ List.take_prefix _ _
      rw [List.prefix_iff_eq_append.1 hprefix]
    -- the chunk is the beginning of what the record awaits
    rw [hunread, List.append_assoc] at hleft
    obtain ⟨left', rfl, hrest⟩ := exists_left hleft (by omega)
    have hshorter : (s.unread.drop chunk.length).length < s.unread.length := by
      have hchunkpos := List.length_pos_iff.2 hsome
      have htotal := congrArg List.length hunread
      rw [List.length_append] at htotal
      omega
    obtain ⟨hnext, hdone⟩ := InFlight.feed_awaits (p := p) hawaits hlen hlength hpos
    obtain ⟨-, hresult⟩ := InFlight.feed_frame p s.inflight chunk
    rcases hdone with hnone | ⟨hsome', rfl⟩
    · left
      rw [hnone]
      exact ⟨⟨h.registered, h.isOpen, h.delivered, hresult.trans h.result, feed_needs hne hnext hnone, left', hnext,
        hrest⟩, Or.inr hshorter⟩
    · right
      rw [hsome']
      cases hloads : p.loads body with
      | error e =>
        refine ⟨rfl, hrest, Or.inr ⟨e, hloads, ?_, rfl⟩⟩
        show s.delivered ++ [(s.inflight.feed p chunk).1.result] = [none]
        rw [h.delivered, hresult, h.result, List.nil_append]
      | ok msg =>
        refine ⟨rfl, hrest, Or.inl ⟨msg, hloads, ?_, h.isOpen⟩⟩
        show s.delivered ++ [some msg] = [some msg]
        rw [h.delivered, List.nil_append]

private theorem handleRead_ends : s.handleRead p .ends = if s.unread = [] then s.fail else s := rfl

/-- A call takes the record on, completes it, or finds that the stream has broken off. -/
private theorem Pending.select (h : s.Pending body missing rest) (hne : body ≠ [])
    (hlen : body.length < 256 ^ headerSize) (recv : Recv) :
    (s.select p recv).Pending body missing rest ∨ (s.select p recv).Complete p body missing rest ∨
      (s.select p recv).Failed ∧ (recv = .raises ∨ recv = .ends ∧ s.unread = []) := by
  unfold Reading.select
  rw [if_pos h.registered]
  cases recv with
  | blocks => exact Or.inl h
  | raises => exact Or.inr (Or.inr ⟨h.fail, Or.inl rfl⟩)
  | ends =>
    by_cases hunread : s.unread = []
    · rw [handleRead_ends, if_pos hunread]
      exact Or.inr (Or.inr ⟨h.fail, Or.inr ⟨rfl, hunread⟩⟩)
    · rw [handleRead_ends, if_neg hunread]
      exact Or.inl h
  | yields n =>
    rcases h.yields (p := p) hne hlen n with ⟨hpending, -⟩ | hcomplete
    · exact Or.inl hpending
    · exact Or.inr (Or.inl hcomplete)

theorem select_of_not_registered (h : s.registered = false) (recv : Recv) : s.select p recv = s := by
  unfold select
  rw [if_neg (by simp [h])]

/-! ### The reader within the pool -/

/-- A registered socket and its record, as the selector thread finds them. -/
def ofCall (sock : MuxSocket V τ) (call : MuxCall V τ) : Reading V τ :=
  { unread := sock.unread, inflight := call.inflight, registered := true, isOpen := sock.isOpen, delivered := [] }

/-- What the selector thread does after `_handle_read`. -/
def next (s : Reading V τ) (k c : Nat) : SelectorStage V τ :=
  match s.delivered with
  | [some msg] => .returning k c msg
  | _ => .polling

end Reading

private theorem MuxPool.fail_of {s : MuxPool V τ} {k c : Nat} {sock : MuxSocket V τ} {call : MuxCall V τ}
    (hsock : s.sockets[k]? = some sock) (hcall : s.calls[c]? = some call) :
    (s.fail k c).sockets[k]? = some { sock with isOpen := false } ∧ (s.fail k c).selector = s.selector := by
  unfold MuxPool.fail MuxPool.atCall
  rw [hcall]
  exact ⟨Base.getElem?_modify_of_some hsock, rfl⟩

private theorem ofCall_fail {k c : Nat} {sock : MuxSocket V τ} {call : MuxCall V τ}
    (hresult : call.inflight.result = none) : (Reading.ofCall sock call).fail.next k c = .polling := by
  simp only [Reading.next, Reading.fail, Reading.ofCall, hresult, List.nil_append]

private theorem MuxPool.settle_of {s : MuxPool V τ} {k c : Nat} {sock : MuxSocket V τ} {call : MuxCall V τ}
    (hselector : s.selector = .polling) (hopen : s.selOpen = true) (hsock : s.sockets[k]? = some sock)
    (hcall : s.calls[c]? = some call) (hresult : call.inflight.result = none)
    (done : Option (Except WireError (Message V τ))) :
    let r := (Reading.ofCall sock call).settle done
    (s.settle k c done).sockets[k]? = some { sock with unread := r.unread, isOpen := r.isOpen } ∧
      (s.settle k c done).selector = r.next k c := by
  rcases done with _ | _ | msg
  · exact ⟨hsock, hselector⟩
  · obtain ⟨hclosed, hsame⟩ := MuxPool.fail_of hsock hcall
    exact ⟨hclosed, hsame.trans (hselector.trans (ofCall_fail hresult).symm)⟩
  · simp only [MuxPool.settle, if_pos hopen]
    exact ⟨hsock, rfl⟩

/-- In the pool, `_handle_read` does to a socket what it does to it alone. -/
theorem MuxPool.read_eq {p : Pickle V τ} {s : MuxPool V τ} {k c n : Nat} {sock : MuxSocket V τ} {call : MuxCall V τ}
    (hselector : s.selector = .polling) (hopen : s.selOpen = true)
    (hentry : s.registered.find? (fun entry => entry.1 = k) = some (k, c)) (hsock : s.sockets[k]? = some sock)
    (hcall : s.calls[c]? = some call) (hresult : call.inflight.result = none) :
    let r := (Reading.ofCall sock call).handleRead p (.yields n)
    (s.read p k n).sockets[k]? = some { sock with unread := r.unread, isOpen := r.isOpen } ∧
      (s.read p k n).selector = r.next k c := by
  unfold MuxPool.read MuxPool.atRegistered
  rw [hselector, hentry]
  simp only [hsock, hcall, Reading.handleRead]
  generalize hneed : call.inflight.expected - call.inflight.buf.length = need
  have hneed' : (Reading.ofCall sock call).inflight.expected - (Reading.ofCall sock call).inflight.buf.length = need :=
    hneed
  have hunread : (Reading.ofCall sock call).unread = sock.unread := rfl
  rw [hneed', hunread]
  by_cases hzero : need = 0
  · obtain ⟨hclosed, hsame⟩ := MuxPool.fail_of hsock hcall
    simp only [if_pos hzero]
    exact ⟨hclosed, hsame.trans (hselector.trans (ofCall_fail hresult).symm)⟩
  · by_cases hnone : sock.unread.take (min (n + 1) need) = []
    · simp only [if_neg hzero, if_pos hnone]
      exact ⟨hsock, hselector⟩
    · simp only [if_neg hzero, if_neg hnone]
      generalize sock.unread.take (min (n + 1) need) = chunk
      obtain ⟨-, hkept⟩ := InFlight.feed_frame p call.inflight chunk
      have hread : (s.setSocket k fun sock => { sock with unread := sock.unread.drop chunk.length }).sockets[k]? = some
          { sock with unread := sock.unread.drop chunk.length } := Base.getElem?_modify_of_some hsock
      have hfed := MuxPool.calls_setInFlight (r := (call.inflight.feed p chunk).1) (s := s.setSocket k fun sock =>
        { sock with unread := sock.unread.drop chunk.length }) hcall
      have hsettled := MuxPool.settle_of (s := (s.setSocket k fun sock =>
        { sock with unread := sock.unread.drop chunk.length }).setInFlight c (call.inflight.feed p chunk).1) hselector
        hopen hread hfed (hkept.trans hresult)
      exact hsettled _

/-! ### A whole stream -/

section Run

open Reading

variable {p : Pickle V τ} {address : NodeInfo} {body missing rest bytes : List UInt8} {recvs : List Recv}

/-- Once the socket is not registered any more, nothing happens to it. -/
private theorem readingAfter_append {pre post : List Recv} (h : (readingAfter p address bytes pre).registered = false) :
    readingAfter p address bytes (pre ++ post) = readingAfter p address bytes pre := by
  induction post using List.reverseRecOn with
  | nil => rw [List.append_nil]
  | append_singleton post recv ih =>
    have hstep : readingAfter p address bytes (pre ++ (post ++ [recv])) =
        (readingAfter p address bytes (pre ++ post)).select p recv := by
      rw [← List.append_assoc]
      exact after_concat _ _
    rw [hstep, ih, select_of_not_registered h]

private theorem readingAfter_cases (p : Pickle V τ) (address : NodeInfo) (hne : body ≠ [])
    (hlen : body.length < 256 ^ headerSize) (hbytes : bytes ++ missing = frame headerSize body ++ rest)
    (recvs : List Recv) :
    (readingAfter p address bytes recvs).Pending body missing rest ∨
      (readingAfter p address bytes recvs).Complete p body missing rest ∨
      (readingAfter p address bytes recvs).Failed := by
  refine after_keeps (P := fun s : Reading V τ => s.Pending body missing rest ∨ s.Complete p body missing rest ∨
    s.Failed) (Or.inl (Pending.new hbytes)) ?_ recvs
  rintro s recv (hpending | hcomplete | hfailed)
  · rcases hpending.select (p := p) hne hlen recv with h | h | ⟨h, -⟩
    · exact Or.inl h
    · exact Or.inr (Or.inl h)
    · exact Or.inr (Or.inr h)
  · rw [select_of_not_registered hcomplete.registered]
    exact Or.inr (Or.inl hcomplete)
  · rw [select_of_not_registered hfailed.registered]
    exact Or.inr (Or.inr hfailed)

/-- Where no byte of the frame is missing and no call raises, the reader does not fail. -/
private theorem readingAfter_whole (p : Pickle V τ) (address : NodeInfo) (rest : List UInt8) (hne : body ≠ [])
    (hlen : body.length < 256 ^ headerSize) (hraises : .raises ∉ recvs) :
    (readingAfter p address (frame headerSize body ++ rest) recvs).Pending body [] rest ∨
      (readingAfter p address (frame headerSize body ++ rest) recvs).Complete p body [] rest := by
  refine after_invariant (P := fun _ (s : Reading V τ) => s.Pending body [] rest ∨ s.Complete p body [] rest)
    (C := fun _ recv => recv ≠ .raises) (Or.inl (Pending.new (List.append_nil _))) ?_ ?_
  · rintro pre recv hrecv (hpending | hcomplete)
    · rcases hpending.select (p := p) hne hlen recv with h | h | ⟨-, hraise | ⟨-, hunread⟩⟩
      · exact Or.inl h
      · exact Or.inr h
      · exact absurd hraise hrecv
      · -- the rest of the frame has not been read
        obtain ⟨left, hawaits, hleft⟩ := hpending.left
        rw [hunread, List.nil_append] at hleft
        exact absurd (List.append_eq_nil_iff.1 hleft.symm).1 (left_ne_nil hawaits hpending.needs).2
    · rw [select_of_not_registered hcomplete.registered]
      exact Or.inr hcomplete
  · rintro pre recv post rfl rfl
    simp at hraises

/-- Every call that may yield bytes does so while there are any. -/
private theorem yielding_le (hne : body ≠ []) (hlen : body.length < 256 ^ headerSize)
    (hbytes : bytes ++ missing = frame headerSize body ++ rest)
    (hregistered : (readingAfter p address bytes recvs).registered = true) :
    (readingAfter p address bytes recvs).unread = [] ∨
      (readingAfter p address bytes recvs).unread.length + yielding recvs ≤ bytes.length := by
  induction recvs using List.reverseRecOn with
  | nil => exact Or.inr (le_refl _)
  | append_singleton recvs recv ih =>
    have hstep : readingAfter p address bytes (recvs ++ [recv]) = (readingAfter p address bytes recvs).select p recv :=
      after_concat _ _
    rcases readingAfter_cases p address hne hlen hbytes recvs with hpending | hcomplete | hfailed
    · have hold := ih hpending.registered
      have hcount : yielding (recvs ++ [recv]) = yielding recvs + yielding [recv] := yielding_append _ _
      rw [hstep] at hregistered ⊢
      unfold Reading.select at hregistered ⊢
      rw [if_pos hpending.registered] at hregistered ⊢
      cases recv with
      | blocks =>
        rw [hcount]
        exact hold
      | raises => cases hregistered
      | ends =>
        rw [handleRead_ends] at hregistered ⊢
        split
        · rename_i hunread
          rw [if_pos hunread] at hregistered
          cases hregistered
        · rw [hcount]
          exact hold
      | yields n =>
        have hone : yielding [Recv.yields n] = 1 := rfl
        rcases hpending.yields (p := p) hne hlen n with ⟨-, ⟨hunread, hsame⟩ | hless⟩ | hcomplete
        · rw [hsame]
          exact Or.inl hunread
        · right
          rcases hold with hunread | hle
          · rw [hunread] at hless
            cases hless
          · omega
        · rw [hcomplete.registered] at hregistered
          cases hregistered
    · rw [hstep, select_of_not_registered hcomplete.registered, hcomplete.registered] at hregistered
      cases hregistered
    · rw [hstep, select_of_not_registered hfailed.registered, hfailed.registered] at hregistered
      cases hregistered

/-- Bytes that the reader has read without completing the frame are too few for `recv_message`. -/
private theorem recvMessage_of_pending {s : Reading V τ} (h : s.Pending body missing rest)
    (hlen : body.length < 256 ^ headerSize) (hbytes : bytes ++ missing = frame headerSize body ++ rest) {sock : Socket}
    (hsock : sock.flatten ++ s.unread = bytes) : recvMessage p sock = .error .eof := by
  obtain ⟨left, hawaits, hleft⟩ := h.left
  have hframe : sock.flatten ++ left = frame headerSize body := by
    rw [← hsock, List.append_assoc, hleft, ← List.append_assoc] at hbytes
    exact List.append_cancel_right hbytes
  have hshort : sock.flatten.length < (frame headerSize body).length := by
    have hpos := List.length_pos_iff.2 (left_ne_nil hawaits h.needs).2
    rw [← hframe, List.length_append]
    omega
  refine readFrame_of_short recvExactly_readsExactly hlen hshort ?_
  rw [← hframe, List.take_left' rfl]

/-- A stream that breaks off leaves `None`, and the socket closed. -/
private theorem readingAfter_broken {pre post : List Recv} {recv : Recv}
    (h : (readingAfter p address bytes pre).Pending body missing rest)
    (hrecv : recv = .raises ∨ recv = .ends ∧ (readingAfter p address bytes pre).unread = []) :
    (readingAfter p address bytes (pre ++ recv :: post)).Failed := by
  have hfail : (readingAfter p address bytes (pre ++ [recv])) = (readingAfter p address bytes pre).fail := by
    have hstep : readingAfter p address bytes (pre ++ [recv]) = (readingAfter p address bytes pre).select p recv :=
      after_concat _ _
    rw [hstep]
    unfold Reading.select
    rw [if_pos h.registered]
    rcases hrecv with rfl | ⟨rfl, hunread⟩
    · rfl
    · exact if_pos hunread
  have happend : pre ++ recv :: post = pre ++ [recv] ++ post := by simp
  have hstop : (readingAfter p address bytes (pre ++ [recv])).registered = false := by
    rw [hfail]
    rfl
  rw [happend, readingAfter_append hstop, hfail]
  exact h.fail

/-- A whole frame, with anything behind it. -/
private theorem agrees_of_whole (hne : body ≠ []) (hlen : body.length < 256 ^ headerSize) (hraises : .raises ∉ recvs) :
    let s := readingAfter p address (frame headerSize body ++ rest) recvs
    (s.registered = true → s.delivered = [] ∧ s.isOpen = true) ∧
    (s.registered = false → s.unread = rest ∧ ∀ sock : Socket, sock.flatten = frame headerSize body ++ rest →
      s.Agrees (recvMessage p sock)) ∧
    ((frame headerSize body ++ rest).length ≤ yielding recvs → s.registered = false) := by
  have hbytes : frame headerSize body ++ rest ++ [] = frame headerSize body ++ rest := List.append_nil _
  intro s
  rcases readingAfter_whole p address rest hne hlen hraises with hpending | hcomplete
  · refine ⟨fun _ => ⟨hpending.delivered, hpending.isOpen⟩, fun hdone => ?_, fun henough => ?_⟩
    · rw [hpending.registered] at hdone
      cases hdone
    · -- all bytes would have been read
      obtain ⟨left, hawaits, hleft⟩ := hpending.left
      have hleftpos := List.length_pos_iff.2 (left_ne_nil hawaits hpending.needs).2
      have hlength := congrArg List.length hleft
      rw [List.append_nil, List.length_append] at hlength
      rcases yielding_le (p := p) hne hlen hbytes hpending.registered with hunread | hle
      · rw [hunread, List.length_nil] at hlength
        omega
      · omega
  · refine ⟨fun hnot => ?_, fun _ => ?_, fun _ => hcomplete.registered⟩
    · rw [hcomplete.registered] at hnot
      cases hnot
    · have hunread := hcomplete.unread
      rw [List.append_nil] at hunread
      refine ⟨hunread, fun sock hsock => ?_⟩
      rcases hcomplete.outcome with ⟨msg, hloads, hdelivered, hopen⟩ | ⟨e, hloads, hdelivered, hclosed⟩
      · obtain ⟨sock', hrecv, hsock'⟩ := readFrame_of_frame recvExactly_readsExactly hlen hloads hsock
        have hok : recvMessage p sock = .ok (msg, sock') := hrecv
        rw [hok]
        exact ⟨hdelivered, hopen, hunread.trans hsock'.symm⟩
      · have herror : recvMessage p sock = .error e :=
          readFrame_of_undecodable recvExactly_readsExactly hlen hloads hsock
        rw [herror]
        exact ⟨hdelivered, hclosed⟩

/-- A frame that is cut off by the end of the stream. -/
private theorem failed_of_cut (hne : body ≠ []) (hlen : body.length < 256 ^ headerSize) {cut : Nat}
    (hcut : cut < (frame headerSize body).length) :
    let s := readingAfter p address ((frame headerSize body).take cut) recvs
    (s.registered = true → s.delivered = [] ∧ s.isOpen = true) ∧ (s.registered = false → s.Failed) ∧
    ∀ pre post, recvs = pre ++ .ends :: post → cut ≤ yielding pre → s.registered = false := by
  have hbytes : (frame headerSize body).take cut ++ (frame headerSize body).drop cut = frame headerSize body ++ [] := by
    rw [List.take_append_drop, List.append_nil]
  have hdrop : (frame headerSize body).drop cut ≠ [] := by
    rw [Ne, List.drop_eq_nil_iff]
    omega
  intro s
  rcases readingAfter_cases p address hne hlen hbytes recvs with hpending | hcomplete | hfailed
  · refine ⟨fun _ => ⟨hpending.delivered, hpending.isOpen⟩, fun hdone => ?_, fun pre post hsplit henough => ?_⟩
    · rw [hpending.registered] at hdone
      cases hdone
    · -- the end of the stream would have been found
      have hregistered : (readingAfter p address ((frame headerSize body).take cut) pre).registered = true := by
        by_contra hstopped
        rw [Bool.not_eq_true] at hstopped
        have hstill := hpending.registered
        rw [hsplit, readingAfter_append hstopped, hstopped] at hstill
        cases hstill
      have hunread : (readingAfter p address ((frame headerSize body).take cut) pre).unread = [] := by
        rcases yielding_le (p := p) hne hlen hbytes hregistered with hnil | hle
        · exact hnil
        · rw [List.length_take] at hle
          exact List.eq_nil_of_length_eq_zero (by omega)
      rcases readingAfter_cases p address hne hlen hbytes pre with h | h | h
      · have hbroken : (readingAfter p address ((frame headerSize body).take cut) (pre ++ .ends :: post)).Failed :=
          readingAfter_broken h (Or.inr ⟨rfl, hunread⟩)
        rw [← hsplit] at hbroken
        exact hbroken.registered
      · rw [h.registered] at hregistered
        cases hregistered
      · rw [h.registered] at hregistered
        cases hregistered
  · exact absurd (List.append_eq_nil_iff.1 hcomplete.unread).2 hdrop
  · refine ⟨fun hnot => ?_, fun _ => hfailed, fun _ _ _ _ => hfailed.registered⟩
    rw [hfailed.registered] at hnot
    cases hnot

/-- A read that fails before the frame is complete. -/
private theorem failed_of_raise {pre post : List Recv} (hne : body ≠ []) (hlen : body.length < 256 ^ headerSize)
    (hbytes : bytes ++ missing = frame headerSize body ++ rest)
    (hregistered : (readingAfter p address bytes pre).registered = true) :
    (readingAfter p address bytes (pre ++ .raises :: post)).Failed ∧
      ∀ sock : Socket, sock.flatten ++ (readingAfter p address bytes pre).unread = bytes →
        recvMessage p sock = .error .eof := by
  rcases readingAfter_cases p address hne hlen hbytes pre with hpending | hcomplete | hfailed
  · refine ⟨readingAfter_broken hpending (Or.inl rfl), fun sock hsock => ?_⟩
    exact recvMessage_of_pending hpending hlen hbytes hsock
  · rw [hcomplete.registered] at hregistered
    cases hregistered
  · rw [hfailed.registered] at hregistered
    cases hregistered

/-- The incremental reader and `recv_message` come to the same: on a whole frame, with anything behind it; on a frame
that is cut off by the end of the stream; and where a read fails before the frame is complete. -/
theorem reader_agrees (p : Pickle V τ) (address : NodeInfo) {body : List UInt8} (hne : body ≠ [])
    (hlen : body.length < 256 ^ headerSize) :
    (∀ rest recvs, .raises ∉ recvs →
      let s := readingAfter p address (frame headerSize body ++ rest) recvs
      (s.registered = true → s.delivered = [] ∧ s.isOpen = true) ∧
      (s.registered = false → s.unread = rest ∧ ∀ sock : Socket, sock.flatten = frame headerSize body ++ rest →
        s.Agrees (recvMessage p sock)) ∧
      ((frame headerSize body ++ rest).length ≤ yielding recvs → s.registered = false)) ∧
    (∀ cut recvs, cut < (frame headerSize body).length →
      let s := readingAfter p address ((frame headerSize body).take cut) recvs
      ((s.registered = true → s.delivered = [] ∧ s.isOpen = true) ∧ (s.registered = false → s.Failed) ∧
        ∀ pre post, recvs = pre ++ .ends :: post → cut ≤ yielding pre → s.registered = false) ∧
      ∀ sock : Socket, sock.flatten = (frame headerSize body).take cut → recvMessage p sock = .error .eof) ∧
    ∀ bytes missing rest pre post, bytes ++ missing = frame headerSize body ++ rest →
      (readingAfter p address bytes pre).registered = true →
      (readingAfter p address bytes (pre ++ .raises :: post)).Failed ∧
      ∀ sock : Socket, sock.flatten ++ (readingAfter p address bytes pre).unread = bytes →
        recvMessage p sock = .error .eof := by
  refine ⟨fun rest recvs hraises => ?_, fun cut recvs hcut => ⟨?_, fun sock hsock => ?_⟩,
    fun bytes missing rest pre post hbytes hregistered => ?_⟩
  · exact agrees_of_whole hne hlen hraises
  · exact failed_of_cut hne hlen hcut
  · exact readFrame_of_short recvExactly_readsExactly hlen hcut hsock
  · exact failed_of_raise hne hlen hbytes hregistered

private def pingRecvs : List Recv := [.blocks, .yields 2, .yields 0, .ends, .yields 200]

/-- The transport blocks, hands out three bytes, one byte, nothing new, and then whatever is asked for. -/
theorem pingReader_agrees :
    let s := readingAfter pingPickle ⟨"a", 1⟩ (frame headerSize pingData ++ [7]) pingRecvs
    s.registered = false ∧ s.unread = [7] ∧ s.delivered.map (Option.map Message.type) = [some .ping] ∧
      s.Agrees (recvMessage pingPickle [frame headerSize pingData, [7]]) := by
  have hdone : (readingAfter pingPickle ⟨"a", 1⟩ (frame headerSize pingData ++ [7]) pingRecvs).registered = false := by
    decide +kernel
  have hne : pingData ≠ [] := by decide
  have hwhole := (reader_agrees pingPickle ⟨"a", 1⟩ hne (by decide)).1 [7] pingRecvs (by decide)
  obtain ⟨hunread, hagrees⟩ := hwhole.2.1 hdone
  exact ⟨hdone, hunread, by decide +kernel, hagrees _ rfl⟩

end Run

end DLStorage
