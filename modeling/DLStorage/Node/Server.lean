import DLStorage.ConnectionPool.Wire
import DLStorage.PeerComm.Gossip
import DLStorage.Base.Run
import DLStorage.Base.Slots

/-!
# Serving connections

`_handle_client` of both nodes, for any number of connections at once.  A handler receives a message, has it executed
and sends the response, until something raises or the client closes the connection; a message is gossip or goes to
the store.  The bytes of a connection arrive in pieces of any size, and other threads or tasks work on the node as well.

However the handlers take turns, the requests of one connection are executed in the order in which they were sent, each
at most once, and the responses are written in the same order, one for each request that was executed
(`connection_in_order`).
-/

namespace DLStorage

open Base (ReadsExactly readFrame ofBigEndian frame before after after_keeps)

variable {V τ : Type}

/-! ### Where the bytes of a connection come from -/

/-- What a handler reads from: bytes arrive in pieces, and reading takes as many as are asked for. -/
structure Inlet where
  Source : Type
  start : Source
  arrive : Source → List UInt8 → Source
  /-- The bytes that have arrived and have not been read. -/
  content : Source → List UInt8
  read : Nat → Source → Except WireError (List UInt8 × Source)
  ended : WireError
  content_start : content start = []
  content_arrive : ∀ s bytes, content (arrive s bytes) = content s ++ bytes
  readsExactly : ReadsExactly content read ended

namespace Inlet

/-- The socket of a blocking handler. -/
def socket : Inlet where
  Source := Socket
  start := []
  arrive sock bytes := sock ++ [bytes]
  content := List.flatten
  read := recvExactly
  ended := .eof
  content_start := rfl
  content_arrive sock bytes := by simp
  readsExactly := recvExactly_readsExactly

/-- The stream reader of an async handler. -/
def reader : Inlet where
  Source := StreamReader
  start := ⟨[], []⟩
  arrive reader bytes := { reader with incoming := reader.incoming ++ [bytes] }
  content := StreamReader.content
  read := StreamReader.readexactly
  ended := .incompleteRead
  content_start := rfl
  content_arrive reader bytes := by simp [StreamReader.content]
  readsExactly := readexactly_readsExactly

variable (inlet : Inlet) (p : Pickle V τ)

/-- `recv_message` or `recv_message_async`, once there are bytes enough or the stream has ended. -/
def recv (source : inlet.Source) : Except WireError (Message V τ × inlet.Source) :=
  readFrame headerSize inlet.read p.loads source

/-- The message that is to be received has not arrived completely. -/
def lacks (source : inlet.Source) : Bool :=
  let bytes := inlet.content source
  bytes.length < headerSize || bytes.length < headerSize + ofBigEndian (bytes.take headerSize)

end Inlet

theorem recv_socket (p : Pickle V τ) : Inlet.socket.recv p = recvMessage p := rfl

theorem recv_reader (p : Pickle V τ) : Inlet.reader.recv p = recvMessageAsync p := rfl

/-! ### Handlers -/

/-- What the handlers of a node work on. -/
structure NodeState (V τ : Type) where
  membership : Membership
  store : LocalLWWStore V τ

/-- A request that a handler has executed: what it found, and the response. -/
structure Served (V τ : Type) where
  msg : Message V τ
  clock : Clock τ
  state : NodeState V τ
  resp : Message V τ

inductive ServingStage (V τ : Type)
  | receiving
  | handling (msg : Message V τ)
  | sending (resp : Message V τ)
  | closed

structure ClientConnection (V τ : Type) (inlet : Inlet) where
  source : inlet.Source
  /-- The client has closed its end. -/
  ended : Bool
  stage : ServingStage V τ
  /-- The bytes that the handler has written. -/
  written : List UInt8
  /-- All bytes that have arrived. -/
  arrived : List UInt8
  /-- The requests that have been executed, in order. -/
  served : List (Served V τ)

structure Server (V τ : Type) (inlet : Inlet) where
  state : NodeState V τ
  connections : List (ClientConnection V τ inlet)

inductive ServerEvent (V τ : Type)
  | accept
  | arrive (i : Nat) (bytes : List UInt8)
  | hangUp (i : Nat)
  /-- Handler `i` comes to the end of a call that may block. -/
  | step (i : Nat) (c : Clock τ)
  /-- Handler `i` is cancelled or its connection fails; if it was sending, `n` bytes at most have been written. -/
  | fail (i n : Nat)
  /-- Another thread or task of the node has changed its state. -/
  | elsewhere (state : NodeState V τ)

abbrev ServerRun (V τ : Type) := List (ServerEvent V τ)

/-- The bytes that a message takes up on the stream. -/
def frameOf (p : Pickle V τ) (msg : Message V τ) : List UInt8 := (transmit p msg []).2

namespace ClientConnection

variable {inlet : Inlet} (conn : ClientConnection V τ inlet)

def new : ClientConnection V τ inlet :=
  { source := inlet.start, ended := false, stage := .receiving, written := [], arrived := [], served := [] }

/-- Bytes that arrive after the client has closed its end are none of the stream. -/
def arrive (bytes : List UInt8) : ClientConnection V τ inlet :=
  if conn.ended then conn
  else { conn with source := inlet.arrive conn.source bytes, arrived := conn.arrived ++ bytes }

def hangUp : ClientConnection V τ inlet := { conn with ended := true }

def close : ClientConnection V τ inlet := { conn with stage := .closed }

def fail (p : Pickle V τ) (n : Nat) : ClientConnection V τ inlet :=
  match conn.stage with
  | .sending resp => { conn with written := conn.written ++ (frameOf p resp).take n }.close
  | _ => conn.close

end ClientConnection

variable [LinearOrder τ] [Add τ]

/-- The response to a message, and the state of the node after it. -/
def NodeState.respond (info : NodeInfo) (c : Clock τ) (msg : Message V τ) (s : NodeState V τ) :
    Except PyError (Message V τ × NodeState V τ) :=
  if msg.type.isGossip then do
    let (resp, membership) ← Gossip.handleMessage info s.membership msg
    .ok (resp, { s with membership := membership })
  else do
    let (resp, store) ← dispatch c msg s.store
    .ok (resp, { s with store := store })

namespace ClientConnection

variable {inlet : Inlet} (p : Pickle V τ) (info : NodeInfo) (c : Clock τ) (state : NodeState V τ)
  (conn : ClientConnection V τ inlet)

/-- The next step of `_handle_client`. -/
def step : NodeState V τ × ClientConnection V τ inlet :=
  match conn.stage with
  | .receiving =>
    -- the call blocks
    if inlet.lacks conn.source && !conn.ended then (state, conn)
    else
      match inlet.recv p conn.source with
      | .ok (msg, source) => (state, { conn with source := source, stage := .handling msg })
      | .error _ => (state, conn.close)
  | .handling msg =>
    match state.respond info c msg with
    | .ok (resp, state') =>
      (state', { conn with stage := .sending resp, served := conn.served ++ [⟨msg, c, state, resp⟩] })
    | .error _ => (state, conn.close)
  | .sending resp =>
    match transmit p resp conn.written with
    | (.ok _, written) => (state, { conn with written := written, stage := .receiving })
    | (.error _, written) => (state, { conn with written := written }.close)
  | .closed => (state, conn)

end ClientConnection

namespace Server

variable {inlet : Inlet} (p : Pickle V τ) (info : NodeInfo) (s : Server V τ inlet)

/-- The server with connection `i` changed. -/
def setConnection (i : Nat) (f : ClientConnection V τ inlet → ClientConnection V τ inlet) : Server V τ inlet :=
  { s with connections := s.connections.modify i f }

/-- The server after an event; an event on a connection that there is not changes nothing. -/
def apply : ServerEvent V τ → Server V τ inlet
  | .accept => { s with connections := s.connections ++ [ClientConnection.new] }
  | .arrive i bytes => s.setConnection i fun conn => conn.arrive bytes
  | .hangUp i => s.setConnection i ClientConnection.hangUp
  | .step i c =>
    match s.connections[i]? with
    | none => s
    | some conn => { s.setConnection i fun conn => (conn.step p info c s.state).2 with
        state := (conn.step p info c s.state).1 }
  | .fail i n => s.setConnection i fun conn => conn.fail p n
  | .elsewhere state => { s with state := state }

/-- A node whose connections are none so far. -/
def start (state : NodeState V τ) : Server V τ inlet := ⟨state, []⟩

end Server

/-- The server after a run. -/
def serverAfter (p : Pickle V τ) (info : NodeInfo) (inlet : Inlet) (state : NodeState V τ) (run : ServerRun V τ) :
    Server V τ inlet :=
  after (fun s e => s.apply p info e) (Server.start state) run

/-! ### What has arrived -/

/-- The frames of several messages, one after the other. -/
def framesOf (p : Pickle V τ) (ms : List (Message V τ)) : List UInt8 := ms.flatMap (frameOf p)

/-- The message survives the way over the wire. -/
def Pickle.Carries (p : Pickle V τ) (msg : Message V τ) : Prop :=
  ∃ data, p.dumps msg = .ok data ∧ data.length < 256 ^ headerSize ∧ p.loads data = .ok msg

section Arrived

omit [LinearOrder τ] [Add τ]

variable {p : Pickle V τ} {inlet : Inlet}

theorem frameOf_eq {msg : Message V τ} {data : List UInt8} (hdata : p.dumps msg = .ok data)
    (hlen : data.length < 256 ^ headerSize) : frameOf p msg = frame headerSize data := by
  simp only [frameOf, transmit, hdata, toBytes, if_pos hlen, List.nil_append, frame]

theorem framesOf_append (p : Pickle V τ) (ms ms' : List (Message V τ)) :
    framesOf p (ms ++ ms') = framesOf p ms ++ framesOf p ms' := List.flatMap_append

theorem framesOf_concat (p : Pickle V τ) (ms : List (Message V τ)) (msg : Message V τ) :
    framesOf p (ms ++ [msg]) = framesOf p ms ++ frameOf p msg := by
  rw [framesOf_append]
  simp [framesOf]

theorem framesOf_dropLast (p : Pickle V τ) (ms : List (Message V τ)) :
    framesOf p ms.dropLast <+: framesOf p ms := by
  rcases List.eq_nil_or_concat ms with rfl | ⟨init, m, rfl⟩
  · exact List.prefix_refl _
  · rw [List.concat_eq_append, List.dropLast_concat, framesOf_concat]
    exact List.prefix_append _ _

theorem transmit_append (p : Pickle V τ) (msg : Message V τ) (stream : List UInt8) :
    (transmit p msg stream).2 = stream ++ frameOf p msg := by
  unfold frameOf transmit
  cases p.dumps msg with
  | error e => simp
  | ok data =>
    simp only
    cases toBytes data.length with
    | error e => simp
    | ok header => simp

/-- The header of a frame tells how long the message is that has arrived. -/
private theorem lacks_iff {source : inlet.Source} {data rest : List UInt8} (hlen : data.length < 256 ^ headerSize)
    (hsource : inlet.content source <+: frame headerSize data ++ rest) :
    inlet.lacks source = true ↔ (inlet.content source).length < (frame headerSize data).length := by
  have hlength := Base.length_frame headerSize data
  have hheader : headerSize ≤ (inlet.content source).length →
      ofBigEndian ((inlet.content source).take headerSize) = data.length := by
    intro hle
    obtain ⟨tail, htail⟩ := hsource
    have htake := congrArg (List.take headerSize) htail
    rw [List.take_append_of_le_length hle, frame, List.append_assoc,
      List.take_left' (Base.length_bigEndian _ _)] at htake
    rw [htake, Base.ofBigEndian_bigEndian hlen]
  unfold Inlet.lacks
  simp only [Bool.or_eq_true, decide_eq_true_eq]
  by_cases hle : headerSize ≤ (inlet.content source).length
  · rw [hheader hle]
    omega
  · omega

/-- Of a source that begins like a sequence of frames, the first message is received when it has arrived completely. -/
private theorem recv_of_frames {source : inlet.Source} {ms : List (Message V τ)} (hms : ∀ m ∈ ms, p.Carries m)
    (hsource : inlet.content source <+: framesOf p ms) :
    (inlet.lacks source = true ∧ (∃ e, inlet.recv p source = .error e) ∧
        ∀ m ms', ms = m :: ms' → (inlet.content source).length < (frameOf p m).length) ∨
      ∃ m ms' source', ms = m :: ms' ∧ inlet.lacks source = false ∧ inlet.recv p source = .ok (m, source') ∧
        inlet.content source = frameOf p m ++ inlet.content source' := by
  cases ms with
  | nil =>
    have hempty : inlet.content source = [] := List.prefix_nil.1 hsource
    refine Or.inl ⟨?_, ⟨inlet.ended, ?_⟩, fun m ms' h => by cases h⟩
    · unfold Inlet.lacks
      rw [hempty]
      rfl
    · have hshort : (inlet.content source).length < headerSize := by
        rw [hempty]
        decide
      simp only [Inlet.recv, readFrame, inlet.readsExactly.short _ _ hshort, bind, Except.bind]
  | cons m ms =>
    obtain ⟨data, hdata, hlen, hloads⟩ := hms m (List.mem_cons_self ..)
    have hframes : framesOf p (m :: ms) = frame headerSize data ++ framesOf p ms := by
      rw [framesOf, List.flatMap_cons, frameOf_eq hdata hlen]
      rfl
    rw [hframes] at hsource
    by_cases hshort : (inlet.content source).length < (frame headerSize data).length
    · have hcut : inlet.content source = (frame headerSize data).take (inlet.content source).length := by
        obtain ⟨tail, htail⟩ := hsource
        have htake := congrArg (List.take (inlet.content source).length) htail
        rw [List.take_left' rfl, List.take_append_of_le_length (by omega)] at htake
        exact htake
      refine Or.inl ⟨(lacks_iff hlen hsource).2 hshort, ⟨inlet.ended, ?_⟩, ?_⟩
      · exact Base.readFrame_of_short inlet.readsExactly hlen hshort hcut
      · intro m' ms' h
        rw [← (List.cons.inj h).1, frameOf_eq hdata hlen]
        exact hshort
    · obtain ⟨rest, hrest⟩ : frame headerSize data <+: inlet.content source :=
        List.prefix_of_prefix_length_le (List.prefix_append _ _) hsource (not_lt.1 hshort)
      obtain ⟨source', hrecv, hsource'⟩ := Base.readFrame_of_frame inlet.readsExactly hlen hloads hrest.symm
      refine Or.inr ⟨m, ms, source', rfl, ?_, hrecv, ?_⟩
      · rw [Bool.eq_false_iff, ne_eq, lacks_iff hlen hsource]
        exact hshort
      · rw [frameOf_eq hdata hlen, hsource', hrest]

end Arrived

/-! ### The order on one connection -/

namespace ClientConnection

variable {inlet : Inlet}

section Order

variable (p : Pickle V τ) (info : NodeInfo) (conn : ClientConnection V τ inlet)

/-- The responses to the requests that have been executed, as far as they have been written. -/
def Writes : Prop :=
  match conn.stage with
  | .receiving | .handling _ => conn.written = framesOf p (conn.served.map Served.resp)
  | .sending resp => ∃ pre s, conn.served = pre ++ [s] ∧ s.resp = resp ∧
      conn.written = framesOf p (pre.map Served.resp)
  | .closed => framesOf p (conn.served.dropLast.map Served.resp) <+: conn.written ∧
      conn.written <+: framesOf p (conn.served.map Served.resp)

/-- The messages that have been received have also been executed, but for the one at hand; when the connection is closed
the last may have been lost. -/
def Took (taken : List (Message V τ)) : Prop :=
  match conn.stage with
  | .receiving | .sending _ => taken = conn.served.map Served.msg
  | .handling msg => taken = conn.served.map Served.msg ++ [msg]
  | .closed => conn.served.map Served.msg <+: taken

/-- Some of the messages that the client sends have been received. -/
def Reads (ms : List (Message V τ)) : Prop :=
  ∃ taken rest, ms = taken ++ rest ∧ conn.arrived = framesOf p taken ++ inlet.content conn.source ∧ conn.Took taken

/-- Each response is the one that the node gave to the message. -/
def Answers : Prop := ∀ s ∈ conn.served, ∃ state, s.state.respond info s.clock s.msg = .ok (s.resp, state)

structure Orderly : Prop where
  writes : conn.Writes p
  reads : ∀ ms, (∀ m ∈ ms, p.Carries m) → conn.arrived <+: framesOf p ms → conn.Reads p ms
  answers : conn.Answers info

end Order

variable {p : Pickle V τ} {info : NodeInfo} {conn : ClientConnection V τ inlet}

omit [LinearOrder τ] [Add τ] in
theorem Took.served {taken : List (Message V τ)} (h : conn.Took taken) : conn.served.map Served.msg <+: taken := by
  unfold Took at h
  cases hs : conn.stage with
  | receiving => rw [hs] at h; exact h ▸ List.prefix_refl _
  | handling msg => rw [hs] at h; exact h ▸ List.prefix_append _ _
  | sending resp => rw [hs] at h; exact h ▸ List.prefix_refl _
  | closed => rw [hs] at h; exact h

theorem orderly_new : (new : ClientConnection V τ inlet).Orderly p info where
  writes := rfl
  reads ms _ _ := ⟨[], ms, rfl, by rw [show new.source = inlet.start from rfl, inlet.content_start]; rfl, rfl⟩
  answers s hs := by cases hs

omit [LinearOrder τ] [Add τ] in
/-- What has been written before anything more is. -/
private theorem written_bounds (hwritten : conn.written = framesOf p (conn.served.map Served.resp)) :
    framesOf p (conn.served.dropLast.map Served.resp) <+: conn.written ∧
      conn.written <+: framesOf p (conn.served.map Served.resp) := by
  rw [hwritten, List.map_dropLast]
  exact ⟨framesOf_dropLast p _, List.prefix_refl _⟩

namespace Orderly

variable (h : conn.Orderly p info)

include h

theorem arrive (bytes : List UInt8) : (conn.arrive bytes).Orderly p info := by
  unfold ClientConnection.arrive
  split
  · exact h
  · refine ⟨h.writes, ?_, h.answers⟩
    intro ms hms harrived
    obtain ⟨taken, rest, hsplit, hsource, hstage⟩ :=
      h.reads ms hms ((List.prefix_append conn.arrived bytes).trans harrived)
    refine ⟨taken, rest, hsplit, ?_, hstage⟩
    show conn.arrived ++ bytes = framesOf p taken ++ inlet.content (inlet.arrive conn.source bytes)
    rw [hsource, inlet.content_arrive, List.append_assoc]

theorem hangUp : conn.hangUp.Orderly p info := ⟨h.writes, h.reads, h.answers⟩

/-- The handler may be cut short at any stage. -/
theorem close_of (written : List UInt8)
    (hwritten : framesOf p (conn.served.dropLast.map Served.resp) <+: written ∧
      written <+: framesOf p (conn.served.map Served.resp)) :
    ({ conn with written := written }.close).Orderly p info := by
  refine ⟨hwritten, ?_, h.answers⟩
  intro ms hms harrived
  obtain ⟨taken, rest, hsplit, hsource, hstage⟩ := h.reads ms hms harrived
  refine ⟨taken, rest, hsplit, hsource, ?_⟩
  exact hstage.served

/-- All responses but perhaps the last have been written in full. -/
theorem bounds : framesOf p (conn.served.dropLast.map Served.resp) <+: conn.written ∧
    conn.written <+: framesOf p (conn.served.map Served.resp) := by
  have hwrites := h.writes
  unfold Writes at hwrites
  cases hs : conn.stage with
  | receiving => rw [hs] at hwrites; exact written_bounds hwrites
  | handling msg => rw [hs] at hwrites; exact written_bounds hwrites
  | sending resp =>
    rw [hs] at hwrites
    obtain ⟨pre, s, hserved, -, hwritten⟩ := hwrites
    rw [hserved, List.dropLast_concat, hwritten, List.map_append, framesOf_append]
    exact ⟨List.prefix_refl _, List.prefix_append _ _⟩
  | closed => rw [hs] at hwrites; exact hwrites

theorem close : conn.close.Orderly p info := h.close_of conn.written h.bounds

theorem fail (n : Nat) : (conn.fail p n).Orderly p info := by
  unfold ClientConnection.fail
  split
  · rename_i resp hs
    have hwrites := h.writes
    unfold Writes at hwrites
    rw [hs] at hwrites
    obtain ⟨pre, s, hserved, hresp, hwritten⟩ := hwrites
    refine h.close_of _ ?_
    rw [hserved, List.dropLast_concat, hwritten, List.map_append, List.map_singleton, framesOf_concat, hresp]
    exact ⟨List.prefix_append _ _, (List.prefix_append_right_inj _).2 (List.take_prefix n _)⟩
  · exact h.close

/-- The handler has received a message. -/
private theorem receive (hs : conn.stage = .receiving) {msg : Message V τ} {source : inlet.Source}
    (hrecv : inlet.recv p conn.source = .ok (msg, source)) :
    ({ conn with source := source, stage := .handling msg } : ClientConnection V τ inlet).Orderly p info := by
  have hwrites := h.writes
  unfold Writes at hwrites
  rw [hs] at hwrites
  refine ⟨hwrites, ?_, h.answers⟩
  intro ms hms harrived
  obtain ⟨taken, rest, hsplit, hsource, hstage⟩ := h.reads ms hms harrived
  unfold Took at hstage
  rw [hs] at hstage
  have hcontent : inlet.content conn.source <+: framesOf p rest := by
    have harrived : conn.arrived <+: framesOf p ms := harrived
    rw [hsplit, framesOf_append, hsource] at harrived
    exact (List.prefix_append_right_inj _).1 harrived
  have hrest : ∀ m ∈ rest, p.Carries m := by
    intro m hm
    refine hms m ?_
    rw [hsplit]
    exact List.mem_append_right _ hm
  rcases recv_of_frames hrest hcontent with ⟨-, ⟨e, he⟩, -⟩ | ⟨m, rest', source', hm, -, hok, hframe⟩
  · rw [he] at hrecv
    cases hrecv
  · obtain ⟨rfl, rfl⟩ : m = msg ∧ source' = source := by
      rw [hok] at hrecv
      simpa using hrecv
    refine ⟨taken ++ [m], rest', by rw [hsplit, hm]; simp, ?_, congrArg (· ++ [m]) hstage⟩
    show conn.arrived = framesOf p (taken ++ [m]) ++ inlet.content source'
    rw [hsource, hframe, framesOf_concat, List.append_assoc]

/-- The node has answered the message. -/
private theorem handle {msg resp : Message V τ} (hs : conn.stage = .handling msg) {c : Clock τ}
    {state state' : NodeState V τ} (hrespond : state.respond info c msg = .ok (resp, state')) :
    ({ conn with stage := .sending resp, served := conn.served ++ [⟨msg, c, state, resp⟩] } :
      ClientConnection V τ inlet).Orderly p info := by
  have hwrites := h.writes
  unfold Writes at hwrites
  rw [hs] at hwrites
  refine ⟨⟨conn.served, ⟨msg, c, state, resp⟩, rfl, rfl, hwrites⟩, ?_, ?_⟩
  · intro ms hms harrived
    obtain ⟨taken, rest, hsplit, hsource, hstage⟩ := h.reads ms hms harrived
    unfold Took at hstage
    rw [hs] at hstage
    refine ⟨taken, rest, hsplit, hsource, ?_⟩
    show taken = (conn.served ++ [_]).map Served.msg
    rw [List.map_append]
    exact hstage
  · intro s hmem
    rcases List.mem_append.1 hmem with hmem | hmem
    · exact h.answers s hmem
    · rw [List.mem_singleton.1 hmem]
      exact ⟨state', hrespond⟩

omit [LinearOrder τ] [Add τ] h in
private theorem written_of_sending {resp : Message V τ}
    (hwrites : ∃ pre s, conn.served = pre ++ [s] ∧ s.resp = resp ∧ conn.written = framesOf p (pre.map Served.resp)) :
    (transmit p resp conn.written).2 = framesOf p (conn.served.map Served.resp) := by
  obtain ⟨pre, s, hserved, hresp, hwritten⟩ := hwrites
  rw [transmit_append, hserved, List.map_append, List.map_singleton, framesOf_concat, hresp, ← hwritten]

/-- The handler takes its next step. -/
theorem step (c : Clock τ) (state : NodeState V τ) : (conn.step p info c state).2.Orderly p info := by
  unfold ClientConnection.step
  cases hs : conn.stage with
  | receiving =>
    simp only
    by_cases hwait : (inlet.lacks conn.source && !conn.ended) = true
    · rw [if_pos hwait]
      exact h
    · rw [if_neg hwait]
      cases hrecv : inlet.recv p conn.source with
      | error e => exact h.close
      | ok received => exact h.receive hs hrecv
  | handling msg =>
    simp only
    cases hrespond : state.respond info c msg with
    | error e => exact h.close
    | ok answered => exact h.handle hs hrespond
  | sending resp =>
    have hwrites := h.writes
    unfold Writes at hwrites
    rw [hs] at hwrites
    have hall := written_of_sending hwrites
    simp only
    cases htransmit : transmit p resp conn.written with
    | mk r written =>
      rw [htransmit] at hall
      cases r with
      | ok u =>
        refine ⟨hall, ?_, h.answers⟩
        intro ms hms harrived
        obtain ⟨taken, rest, hsplit, hsource, hstage⟩ := h.reads ms hms harrived
        unfold Took at hstage
        rw [hs] at hstage
        exact ⟨taken, rest, hsplit, hsource, hstage⟩
      | error e =>
        -- of a response that cannot be encoded nothing is written
        refine h.close_of written ?_
        rw [show written = framesOf p (conn.served.map Served.resp) from hall, List.map_dropLast]
        exact ⟨framesOf_dropLast p _, List.prefix_refl _⟩
  | closed => exact h

end Orderly

end ClientConnection

/-! ### All connections -/

namespace Server

variable {inlet : Inlet} {p : Pickle V τ} {info : NodeInfo}

/-- Every connection is orderly. -/
private def AllOrderly (p : Pickle V τ) (info : NodeInfo) (s : Server V τ inlet) : Prop :=
  ∀ (i : Nat) (conn : ClientConnection V τ inlet), s.connections[i]? = some conn → conn.Orderly p info

private theorem orderly_setConnection {s : Server V τ inlet} (h : s.AllOrderly p info) (i : Nat)
    {f : ClientConnection V τ inlet → ClientConnection V τ inlet}
    (hf : ∀ conn, s.connections[i]? = some conn → (f conn).Orderly p info) :
    (s.setConnection i f).AllOrderly p info := by
  intro j conn hconn
  obtain ⟨conn', hj, ⟨rfl, rfl⟩ | ⟨-, rfl⟩⟩ := Base.getElem?_modify_some hconn
  · exact hf conn' hj
  · exact h j conn hj

private theorem orderly_apply {s : Server V τ inlet} (h : s.AllOrderly p info) (e : ServerEvent V τ) :
    (s.apply p info e).AllOrderly p info := by
  cases e with
  | accept =>
    intro i conn hconn
    rcases Base.getElem?_concat_some hconn with hconn | ⟨-, rfl⟩
    · exact h i conn hconn
    · exact ClientConnection.orderly_new
  | arrive i bytes => exact orderly_setConnection h i fun conn hconn => (h i conn hconn).arrive bytes
  | hangUp i => exact orderly_setConnection h i fun conn hconn => (h i conn hconn).hangUp
  | step i c =>
    show (match s.connections[i]? with
      | none => s
      | some conn => { s.setConnection i fun conn => (conn.step p info c s.state).2 with
          state := (conn.step p info c s.state).1 }).AllOrderly p info
    cases hconn : s.connections[i]? with
    | none => exact h
    | some conn =>
      exact orderly_setConnection (f := fun conn => (conn.step p info c s.state).2) h i
        fun conn hconn => (h i conn hconn).step c s.state
  | fail i n => exact orderly_setConnection h i fun conn hconn => (h i conn hconn).fail n
  | elsewhere state => exact h

private theorem orderly_after (p : Pickle V τ) (info : NodeInfo) (state : NodeState V τ) (run : ServerRun V τ) :
    (serverAfter p info inlet state run).AllOrderly p info :=
  after_keeps (P := AllOrderly p info) (fun i conn hconn => by cases hconn) (fun _ e h => orderly_apply h e) run

end Server

/-- The handler waits for a message that has not arrived completely. -/
def ClientConnection.idle {inlet : Inlet} (conn : ClientConnection V τ inlet) : Bool :=
  match conn.stage with
  | .receiving => inlet.lacks conn.source
  | .handling _ | .sending _ | .closed => false

/-- The requests on a connection are executed in the order in which the client has sent them, and the responses written
in this order; a handler that waits has executed and answered all that have arrived.  The other connections and the rest
of the node may do anything meanwhile. -/
theorem connection_in_order (p : Pickle V τ) (info : NodeInfo) (inlet : Inlet) (state : NodeState V τ)
    (run : ServerRun V τ) {i : Nat} {conn : ClientConnection V τ inlet}
    (hconn : (serverAfter p info inlet state run).connections[i]? = some conn) {ms : List (Message V τ)}
    (hms : ∀ m ∈ ms, p.Carries m) (harrived : conn.arrived <+: framesOf p ms) :
    conn.served.map Served.msg <+: before (frameSize p) conn.arrived.length ms ∧
      conn.Answers info ∧
      (framesOf p (conn.served.dropLast.map Served.resp) <+: conn.written ∧
        conn.written <+: framesOf p (conn.served.map Served.resp)) ∧
      (conn.idle = true → conn.served.map Served.msg = before (frameSize p) conn.arrived.length ms ∧
        conn.written = framesOf p (conn.served.map Served.resp)) := by
  have h := Server.orderly_after p info state run i conn hconn
  obtain ⟨taken, rest, hsplit, hsource, hstage⟩ := h.reads ms hms harrived
  have hbefore : before (frameSize p) conn.arrived.length ms =
      taken ++ before (frameSize p) (inlet.content conn.source).length rest := by
    have hlength : conn.arrived.length = (taken.map (frameSize p)).sum + (inlet.content conn.source).length := by
      rw [hsource, List.length_append, framesOf, List.length_flatMap]
      rfl
    rw [hlength, hsplit, Base.before_append]
  refine ⟨?_, h.answers, h.bounds, ?_⟩
  · refine List.IsPrefix.trans ?_ (hbefore ▸ List.prefix_append _ _)
    exact hstage.served
  · intro hidle
    have hs : conn.stage = .receiving := by
      unfold ClientConnection.idle at hidle
      split at hidle
      · assumption
      all_goals cases hidle
    have hwrites := h.writes
    unfold ClientConnection.Writes at hwrites
    unfold ClientConnection.Took at hstage
    rw [hs] at hstage hwrites
    refine ⟨?_, hwrites⟩
    -- what comes after the messages received has not arrived completely
    have hlacks : inlet.lacks conn.source = true := by
      unfold ClientConnection.idle at hidle
      rwa [hs] at hidle
    have hcontent : inlet.content conn.source <+: framesOf p rest := by
      rw [hsplit, framesOf_append, hsource] at harrived
      exact (List.prefix_append_right_inj _).1 harrived
    have hrest : ∀ m ∈ rest, p.Carries m := by
      intro m hm
      refine hms m ?_
      rw [hsplit]
      exact List.mem_append_right _ hm
    have hnone : before (frameSize p) (inlet.content conn.source).length rest = [] := by
      rcases recv_of_frames hrest hcontent with ⟨-, -, hshort⟩ | ⟨-, -, -, -, hfull, -⟩
      · cases hr : rest with
        | nil => rfl
        | cons m rest' =>
          have hlt : (inlet.content conn.source).length < frameSize p m := hshort m rest' hr
          rw [before, if_neg (by omega)]
      · rw [hlacks] at hfull
        cases hfull
    rw [hbefore, hnone, List.append_nil, hstage]

/-- Two pings in pieces on a connection, the second cut off, while another connection comes and goes. -/
def pingsRun : ServerRun Nat Int :=
  [.accept, .arrive 0 ((frame headerSize pingData).take 3), .step 0 ⟨0, 1⟩,
    .arrive 0 ((frame headerSize pingData).drop 3 ++ (frame headerSize pingData).take 20), .accept, .step 0 ⟨0, 2⟩,
    .fail 1 0, .step 0 ⟨0, 3⟩]

/-- A node that has nothing stored and knows of no peers. -/
def emptyNode : NodeState Nat Int := ⟨⟨RendezvousRing.empty, .static []⟩, LocalLWWStore.empty⟩

theorem pingsRun_in_order : ∃ conn : ClientConnection Nat Int .reader,
    (serverAfter pingPickle (localhost 7001) .reader emptyNode pingsRun).connections[0]? = some conn ∧
      conn.served.map Served.msg <+: before (frameSize pingPickle) conn.arrived.length [ping, ping] ∧
      conn.Answers (localhost 7001) ∧
      (framesOf pingPickle (conn.served.dropLast.map Served.resp) <+: conn.written ∧
        conn.written <+: framesOf pingPickle (conn.served.map Served.resp)) ∧
      (conn.idle = true →
        conn.served.map Served.msg = before (frameSize pingPickle) conn.arrived.length [ping, ping] ∧
        conn.written = framesOf pingPickle (conn.served.map Served.resp)) := by
  have harrived : (serverAfter pingPickle (localhost 7001) .reader emptyNode pingsRun).connections[0]?.map
      (fun conn => decide (conn.arrived <+: framesOf pingPickle [ping, ping])) = some true := by decide +kernel
  obtain ⟨conn, hconn, harrived⟩ := Option.map_eq_some_iff.1 harrived
  refine ⟨conn, hconn, ?_⟩
  refine connection_in_order pingPickle (localhost 7001) .reader emptyNode pingsRun hconn ?_
    (of_decide_eq_true harrived)
  intro m hm
  have hping : m = ping := by simpa using hm
  exact hping ▸ ⟨pingData, rfl, by decide, rfl⟩

end DLStorage
