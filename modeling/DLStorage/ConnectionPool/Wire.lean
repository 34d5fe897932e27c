import DLStorage.Base.Frame
import DLStorage.Types

/-!
# The wire protocol

Messages are pickled and sent as frames with a header of four bytes.  `pickle` is a parameter.  A socket yields the
pieces in which the bytes arrive, as far as the caller asks for them, and then ends; a `StreamReader` of `asyncio`
collects them in a buffer.  Both readers read exactly (`recvExactly_readsExactly`, `readexactly_readsExactly`), so the
stream is self-delimiting for either.
-/

namespace DLStorage

open Base (bigEndian frame before Receives ReadsExactly readFrame)

inductive WireError
  | pickling
  /-- `OverflowError`. -/
  | overflow
  /-- `EOFError`. -/
  | eof
  /-- `asyncio.IncompleteReadError`. -/
  | incompleteRead
  deriving DecidableEq

/-- `pickle.dumps` and `pickle.loads`. -/
structure Pickle (V τ : Type) where
  dumps : Message V τ → Except WireError (List UInt8)
  loads : List UInt8 → Except WireError (Message V τ)

/-- `HEADER_SIZE`. -/
def headerSize : Nat := 4

/-- `n.to_bytes(HEADER_SIZE, "big")`. -/
def toBytes (n : Nat) : Except WireError (List UInt8) :=
  if n < 256 ^ headerSize then .ok (bigEndian headerSize n) else .error .overflow

/-- The pieces in which the bytes of a stream arrive before it ends. -/
abbrev Socket := List (List UInt8)

/-- `sock.recv_into` for at most `n` bytes; no bytes at the end of the stream. -/
def recvInto (n : Nat) : Socket → List UInt8 × Socket
  | [] => ([], [])
  | piece :: rest =>
    if piece = [] then recvInto n rest
    else (piece.take n, if piece.length ≤ n then rest else piece.drop n :: rest)

/-- `_recvexactly`. -/
def recvExactly (n : Nat) (sock : Socket) : Except WireError (List UInt8 × Socket) :=
  if _h : n = 0 then .ok ([], sock)
  else
    match recvInto n sock with
    | ([], _) => .error .eof
    | (b :: chunk, sock) =>
      match recvExactly (n - (chunk.length + 1)) sock with
      | .error e => .error e
      | .ok (data, sock) => .ok (b :: chunk ++ data, sock)
  termination_by n
  decreasing_by omega

/-- `asyncio.StreamReader`: the bytes in its buffer, and the pieces that are still to arrive. -/
structure StreamReader where
  buffer : List UInt8
  incoming : List (List UInt8)

namespace StreamReader

/-- Pieces are taken into the buffer until it holds `n` bytes. -/
def fill (n : Nat) (buffer : List UInt8) : List (List UInt8) → StreamReader
  | [] => ⟨buffer, []⟩
  | piece :: rest => if buffer.length < n then fill n (buffer ++ piece) rest else ⟨buffer, piece :: rest⟩

def readexactly (n : Nat) (reader : StreamReader) : Except WireError (List UInt8 × StreamReader) :=
  let filled := fill n reader.buffer reader.incoming
  if filled.buffer.length < n then .error .incompleteRead
  else .ok (filled.buffer.take n, { filled with buffer := filled.buffer.drop n })

/-- The bytes that the reader can still yield. -/
def content (reader : StreamReader) : List UInt8 := reader.buffer ++ reader.incoming.flatten

end StreamReader

variable {V τ : Type} (p : Pickle V τ)

/-- What both `send_message` do to the stream; the message is pickled and its header built before a byte is written. -/
def transmit (msg : Message V τ) (stream : List UInt8) : Except WireError Unit × List UInt8 :=
  match p.dumps msg with
  | .error e => (.error e, stream)
  | .ok data =>
    match toBytes data.length with
    | .error e => (.error e, stream)
    | .ok header => (.ok (), stream ++ (header ++ data))

def sendMessage (msg : Message V τ) (stream : List UInt8) : Except WireError Unit × List UInt8 := transmit p msg stream

def sendMessageAsync (msg : Message V τ) (stream : List UInt8) : Except WireError Unit × List UInt8 :=
  transmit p msg stream

def recvMessage (sock : Socket) : Except WireError (Message V τ × Socket) :=
  readFrame headerSize recvExactly p.loads sock

def recvMessageAsync (reader : StreamReader) : Except WireError (Message V τ × StreamReader) :=
  readFrame headerSize StreamReader.readexactly p.loads reader

/-! ### Both readers read exactly -/

private theorem recvInto_spec {n : Nat} (hn : 0 < n) (sock : Socket) :
    (recvInto n sock).1 ++ (recvInto n sock).2.flatten = sock.flatten ∧ (recvInto n sock).1.length ≤ n ∧
      ((recvInto n sock).1 = [] → sock.flatten = []) := by
  induction sock with
  | nil => exact ⟨rfl, Nat.zero_le n, fun _ => rfl⟩
  | cons piece rest ih =>
    rw [recvInto]
    split
    · rename_i hempty
      rw [hempty]
      exact ih
    · rename_i hpiece
      refine ⟨?_, by rw [List.length_take]; omega, fun hnone => ?_⟩
      · split
        · rename_i hfits
          rw [List.take_of_length_le hfits, List.flatten_cons]
        · rw [List.flatten_cons, ← List.append_assoc, List.take_append_drop, List.flatten_cons]
      · rw [List.take_eq_nil_iff] at hnone
        exact absurd hnone (not_or.2 ⟨by omega, hpiece⟩)

theorem recvExactly_readsExactly : ReadsExactly List.flatten recvExactly .eof := by
  constructor
  · intro n
    -- the loop makes progress with every chunk that arrives
    induction n using Nat.strongRecOn with
    | _ n ih =>
      intro sock hn
      rw [recvExactly]
      split
      · rename_i hzero
        rw [hzero]
        exact ⟨sock, rfl, rfl⟩
      · rename_i hpos
        obtain ⟨hflat, hle, hend⟩ := recvInto_spec (by omega : 0 < n) sock
        split
        · rename_i heq
          rw [heq] at hend
          rw [hend rfl, List.length_nil] at hn
          omega
        · rename_i b chunk sock' heq
          rw [heq] at hflat hle
          have hlen : sock.flatten.length = chunk.length + 1 + sock'.flatten.length := by
            rw [← hflat, List.length_append, List.length_cons]
          obtain ⟨sock'', hrec, hrest⟩ := ih (n - (chunk.length + 1)) (by omega) sock' (by omega)
          rw [hrec]
          refine ⟨sock'', ?_, ?_⟩
          · rw [← hflat, List.take_append, List.take_of_length_le hle, List.length_cons]
          · rw [hrest, ← hflat, List.drop_append, List.drop_of_length_le hle, List.length_cons, List.nil_append]
  · intro n
    induction n using Nat.strongRecOn with
    | _ n ih =>
      intro sock hn
      rw [recvExactly, dif_neg (by omega)]
      obtain ⟨hflat, hle, -⟩ := recvInto_spec (by omega : 0 < n) sock
      split
      · rfl
      · rename_i b chunk sock' heq
        rw [heq] at hflat hle
        have hlen : sock.flatten.length = chunk.length + 1 + sock'.flatten.length := by
          rw [← hflat, List.length_append, List.length_cons]
        rw [ih (n - (chunk.length + 1)) (by omega) sock' (by omega)]

private theorem fill_spec (n : Nat) (buffer : List UInt8) (incoming : List (List UInt8)) :
    (StreamReader.fill n buffer incoming).content = buffer ++ incoming.flatten ∧
      ((StreamReader.fill n buffer incoming).buffer.length < n → (buffer ++ incoming.flatten).length < n) := by
  induction incoming generalizing buffer with
  | nil => exact ⟨rfl, fun h => by simpa [StreamReader.fill] using h⟩
  | cons piece rest ih =>
    rw [StreamReader.fill]
    split
    · have hflat : buffer ++ (piece :: rest).flatten = buffer ++ piece ++ rest.flatten := by simp
      rw [hflat]
      exact ih (buffer ++ piece)
    · rename_i henough
      exact ⟨rfl, fun h => absurd h henough⟩

theorem readexactly_readsExactly :
    ReadsExactly StreamReader.content StreamReader.readexactly .incompleteRead := by
  constructor
  · intro n reader hn
    obtain ⟨hcontent, hshort⟩ := fill_spec n reader.buffer reader.incoming
    rw [StreamReader.readexactly]
    generalize StreamReader.fill n reader.buffer reader.incoming = filled at hcontent hshort ⊢
    have henough : ¬ filled.buffer.length < n := fun h => absurd (hshort h) (Nat.not_lt.2 hn)
    have hsame : reader.content = filled.buffer ++ filled.incoming.flatten := hcontent.symm
    refine ⟨{ filled with buffer := filled.buffer.drop n }, ?_, ?_⟩
    · rw [if_neg henough, hsame, List.take_append_of_le_length (by omega)]
    · rw [hsame, List.drop_append_of_le_length (by omega)]
      rfl
  · intro n reader hn
    obtain ⟨hcontent, -⟩ := fill_spec n reader.buffer reader.incoming
    rw [StreamReader.readexactly]
    generalize StreamReader.fill n reader.buffer reader.incoming = filled at hcontent ⊢
    have hsame : reader.content = filled.buffer ++ filled.incoming.flatten := hcontent.symm
    rw [hsame, List.length_append] at hn
    exact if_pos (by omega)

/-! ### The stream is self-delimiting -/

/-- Which of the two functions sends a message. -/
inductive Sender
  | blocking
  | async
  deriving DecidableEq

def Sender.send : Sender → Message V τ → List UInt8 → Except WireError Unit × List UInt8
  | blocking => sendMessage p
  | async => sendMessageAsync p

/-- The stream after a sequence of sends; one that raises does not keep the next from being tried. -/
def written (sends : List (Sender × Message V τ)) : List UInt8 :=
  sends.foldl (fun stream s => (s.1.send p s.2 stream).2) []

/-- The messages that have been sent without an exception. -/
def sent (sends : List (Sender × Message V τ)) : List (Message V τ) :=
  (sends.filter (fun s => (s.1.send p s.2 []).1.isOk)).map Prod.snd

/-- The number of bytes that a message takes up on the stream. -/
def frameSize (msg : Message V τ) : Nat := (sendMessage p msg []).2.length

variable {p}

theorem Sender.send_eq (s : Sender) : s.send p = transmit p := by
  cases s <;> rfl

/-- A message whose pickle is short enough for the header is sent as a frame. -/
theorem transmit_of_short {msg : Message V τ} {data : List UInt8} (hdata : p.dumps msg = .ok data)
    (hlen : data.length < 2 ^ 32) (stream : List UInt8) :
    transmit p msg stream = (.ok (), stream ++ frame headerSize data) := by
  have hshort : data.length < 256 ^ headerSize := by
    rw [headerSize]
    omega
  simp only [transmit, hdata, toBytes, if_pos hshort, frame]

/-- A message whose pickle is too long for the header is not sent at all. -/
theorem transmit_of_long {msg : Message V τ} {data stream : List UInt8} (hdata : p.dumps msg = .ok data)
    (hlen : 2 ^ 32 ≤ data.length) : transmit p msg stream = (.error .overflow, stream) := by
  have hlong : ¬ data.length < 256 ^ headerSize := by
    rw [headerSize]
    omega
  simp only [transmit, hdata, toBytes, if_neg hlong]

/-- A message is sent as a frame, or nothing of it is sent. -/
private theorem transmit_cases (p : Pickle V τ) (msg : Message V τ) :
    (∃ data, p.dumps msg = .ok data ∧ data.length < 256 ^ headerSize ∧
      ∀ stream, transmit p msg stream = (.ok (), stream ++ frame headerSize data)) ∨
      ∃ e, ∀ stream, transmit p msg stream = (.error e, stream) := by
  cases hdata : p.dumps msg with
  | error e => exact Or.inr ⟨e, fun stream => by simp only [transmit, hdata]⟩
  | ok data =>
    by_cases hlen : data.length < 256 ^ headerSize
    · refine Or.inl ⟨data, rfl, hlen, fun stream => ?_⟩
      simp only [transmit, hdata, toBytes, if_pos hlen, frame]
    · refine Or.inr ⟨.overflow, fun stream => ?_⟩
      simp only [transmit, hdata, toBytes, if_neg hlen]

/-- The pickle of a message that can be pickled. -/
private def body (p : Pickle V τ) (msg : Message V τ) : List UInt8 := (p.dumps msg).toOption.getD []

private theorem body_of_dumps {msg : Message V τ} {data : List UInt8} (hdata : p.dumps msg = .ok data) :
    body p msg = data := by
  rw [body, hdata]
  rfl

/-- What has been sent is pickled into fewer than `2 ^ 32` bytes. -/
private theorem dumps_of_mem_sent {sends : List (Sender × Message V τ)} {msg : Message V τ} (h : msg ∈ sent p sends) :
    ∃ s ∈ sends, s.2 = msg ∧ p.dumps msg = .ok (body p msg) ∧ (body p msg).length < 256 ^ headerSize ∧
      frameSize p msg = (frame headerSize (body p msg)).length := by
  obtain ⟨s, hs, rfl⟩ := List.mem_map.1 h
  obtain ⟨hmem, hok⟩ := List.mem_filter.1 hs
  rw [Sender.send_eq] at hok
  rcases transmit_cases p s.2 with ⟨data, hdata, hlen, hsend⟩ | ⟨e, hsend⟩
  · refine ⟨s, hmem, rfl, ?_⟩
    rw [body_of_dumps hdata, frameSize, sendMessage, hsend, List.nil_append]
    exact ⟨hdata, hlen, rfl⟩
  · rw [hsend] at hok
    cases hok

private theorem written_eq (p : Pickle V τ) (sends : List (Sender × Message V τ)) :
    written p sends = ((sent p sends).map (fun m => frame headerSize (body p m))).flatten := by
  have h : ∀ stream, sends.foldl (fun stream s => (s.1.send p s.2 stream).2) stream =
      stream ++ ((sent p sends).map (fun m => frame headerSize (body p m))).flatten := by
    induction sends with
    | nil => exact fun stream => (List.append_nil stream).symm
    | cons s sends ih =>
      intro stream
      rw [List.foldl_cons, ih, Sender.send_eq]
      rcases transmit_cases p s.2 with ⟨data, hdata, hlen, hsend⟩ | ⟨e, hsend⟩
      · have hsent : sent p (s :: sends) = s.2 :: sent p sends := by
          simp [sent, Sender.send_eq, hsend, Except.isOk, Except.toBool]
        rw [hsent, hsend, List.map_cons, List.flatten_cons, body_of_dumps hdata, List.append_assoc]
      · have hsent : sent p (s :: sends) = sent p sends := by
          simp [sent, Sender.send_eq, hsend, Except.isOk, Except.toBool]
        rw [hsent, hsend]
  exact h []

/-- Either reader takes from a stream that is cut off the messages whose frames lie before the cut, and then fails
because the stream has ended. -/
private theorem receives_sent {σ : Type} {content : σ → List UInt8}
    {read : Nat → σ → Except WireError (List UInt8 × σ)} {ended : WireError}
    (hread : ReadsExactly content read ended) {sends : List (Sender × Message V τ)}
    (hp : ∀ s ∈ sends, ∀ data, p.dumps s.2 = .ok data → p.loads data = .ok s.2) {cut : Nat} {source : σ}
    (hsource : content source = (written p sends).take cut) :
    Receives (readFrame headerSize read p.loads) source (before (frameSize p) cut (sent p sends)) ended := by
  have hsize : before (frameSize p) cut (sent p sends) =
      before (fun m => (frame headerSize (body p m)).length) cut (sent p sends) := by
    refine Base.before_congr ?_ cut
    intro m hm
    obtain ⟨s, -, -, -, -, hsize⟩ := dumps_of_mem_sent hm
    exact hsize
  rw [hsize]
  refine Base.receives_frames (by decide) hread (body p) (sent p sends) ?_ (written_eq p sends ▸ hsource)
  intro m hm
  obtain ⟨s, hs, rfl, hdumps, hlen, -⟩ := dumps_of_mem_sent hm
  exact ⟨hlen, hp s hs _ hdumps⟩

/-- When every message has a short pickle, all of them are sent. -/
private theorem sent_of_short {sends : List (Sender × Message V τ)}
    (hshort : ∀ s ∈ sends, ∃ data, p.dumps s.2 = .ok data ∧ data.length < 2 ^ 32) :
    sent p sends = sends.map Prod.snd := by
  have hall : sends.filter (fun s => (s.1.send p s.2 []).1.isOk) = sends := by
    rw [List.filter_eq_self]
    intro s hs
    obtain ⟨data, hdata, hlen⟩ := hshort s hs
    rw [Sender.send_eq, transmit_of_short hdata hlen]
    rfl
  rw [sent, hall]

/-- Either function sends a message with a short pickle as a frame, so that a sequence of such messages is sent as a
whole.  However the bytes arrive and wherever the stream is cut off, either reader returns exactly the messages whose
frames lie before the cut and then fails; a message that is too long is not sent at all. -/
theorem stream_self_delimiting (V τ : Type) (p : Pickle V τ) (sends : List (Sender × Message V τ))
    (hp : ∀ s ∈ sends, ∀ data, p.dumps s.2 = .ok data → p.loads data = .ok s.2) (cut : Nat) :
    (∀ sock : Socket, sock.flatten = (written p sends).take cut →
      Receives (recvMessage p) sock (before (frameSize p) cut (sent p sends)) .eof) ∧
    (∀ reader : StreamReader, reader.content = (written p sends).take cut →
      Receives (recvMessageAsync p) reader (before (frameSize p) cut (sent p sends)) .incompleteRead) ∧
    (∀ (sender : Sender) (msg : Message V τ) (data stream : List UInt8), p.dumps msg = .ok data →
      data.length < 2 ^ 32 → sender.send p msg stream = (.ok (), stream ++ frame headerSize data)) ∧
    ((∀ s ∈ sends, ∃ data, p.dumps s.2 = .ok data ∧ data.length < 2 ^ 32) → sent p sends = sends.map Prod.snd) ∧
    (∀ (sender : Sender) (msg : Message V τ) (data stream : List UInt8), p.dumps msg = .ok data →
      2 ^ 32 ≤ data.length → sender.send p msg stream = (.error .overflow, stream)) := by
  refine ⟨fun sock hsock => ?_, fun reader hreader => ?_, fun sender msg data stream hdata hlen => ?_, sent_of_short,
    fun sender msg data stream hdata hlen => ?_⟩
  · exact receives_sent recvExactly_readsExactly hp hsock
  · exact receives_sent readexactly_readsExactly hp hreader
  · rw [Sender.send_eq]
    exact transmit_of_short hdata hlen stream
  · rw [Sender.send_eq]
    exact transmit_of_long hdata hlen

def ping : Message Nat Int := { type := .ping }

/-- The pickle of `Message(MessageType.PING, {})`. -/
def pingData : List UInt8 :=
  [128, 5, 149, 87, 0, 0, 0, 0, 0, 0, 0, 140, 15, 100, 108, 115, 116, 111, 114, 97, 103, 101, 46, 116, 121, 112, 101,
    115, 148, 140, 7, 77, 101, 115, 115, 97, 103, 101, 148, 147, 148, 41, 129, 148, 125, 148, 40, 140, 4, 116, 121, 112,
    101, 148, 104, 0, 140, 11, 77, 101, 115, 115, 97, 103, 101, 84, 121, 112, 101, 148, 147, 148, 140, 4, 112, 105, 110,
    103, 148, 133, 148, 82, 148, 140, 7, 112, 97, 121, 108, 111, 97, 100, 148, 125, 148, 117, 98, 46]

/-- `pickle` on this message; every other one is taken to hold what `pickle` cannot serialise. -/
def pingPickle : Pickle Nat Int where
  dumps msg := if msg.type = .ping then .ok pingData else .error .pickling
  loads data := if data = pingData then .ok ping else .error .pickling

/-- Two messages arrive in two pieces, and the stream is cut off within the second. -/
theorem ping_received :
    Receives (recvMessage pingPickle)
      [(frame headerSize pingData).take 3, (frame headerSize pingData).drop 3 ++ (frame headerSize pingData).take 20]
      [ping] .eof := by
  refine (stream_self_delimiting Nat Int pingPickle [(.blocking, ping), (.async, ping)] ?_ 122).1 _ (by decide)
  intro s hs data hdata
  have hmsg : s.2 = ping := by
    rcases List.mem_cons.1 hs with rfl | hs
    · rfl
    · rw [List.mem_singleton.1 hs]
  rw [hmsg] at hdata ⊢
  obtain rfl : pingData = data := Except.ok.inj hdata
  simp only [pingPickle, if_true]

end DLStorage
