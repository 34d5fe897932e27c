import DLStorage.Base.Linearizable
import DLStorage.ConnectionPool.Once
import DLStorage.Node.Handle
import DLStorage.Node.Server

/-!
# Requests between nodes

Any number of nodes call each other through multiplexed pools, with any number of calls of `execute` under way in each.
The requests on a connection are executed in order (`connection_in_order`), so that here the peer of a connection
executes the oldest one in a single step; its handler closes the connection when that raises or when the response
cannot be sent.  In between the nodes work on their own stores and rings.

Whatever is lost, comes too late or is closed on the way, to each node it looks as if the requests that were answered,
with some of those that were not, had come one after the other, each in the time between the call of `execute` and its
return (`rpc_linearizable`).
-/

namespace DLStorage

open Base (History Effect Chain after after_invariant)

variable {V τ : Type}

/-- Who works on a node. -/
inductive Origin
  /-- Call `c` of `execute` in the pool of a client. -/
  | call (client : NodeInfo) (c : Nat)
  /-- The `i`th piece of work that nodes do for themselves. -/
  | own (i : Nat)
  deriving DecidableEq

inductive Work (V τ : Type)
  | request (msg : Message V τ)
  | own (f : NodeState V τ → NodeState V τ)

structure OwnWork (V τ : Type) where
  node : NodeInfo
  f : NodeState V τ → NodeState V τ
  time : Nat

abbrev WorkEffect (V τ : Type) := Effect Origin (Work V τ) (Option (Message V τ))

structure RpcState (V τ : Type) where
  /-- The pool of each node. -/
  pools : NodeInfo → MuxPool V τ
  nodes : NodeInfo → NodeState V τ
  /-- The connections that their handlers have closed, by the client and its number for the socket. -/
  dropped : List (NodeInfo × Nat)
  ownWork : List (OwnWork V τ)
  /-- What has been done, and on which nodes. -/
  log : List (NodeInfo × WorkEffect V τ)
  /-- The number of steps before call `c` of a client was made. -/
  made : NodeInfo → Nat → Nat
  /-- The number of steps before it was over. -/
  ended : NodeInfo → Nat → Nat
  /-- The number of steps so far. -/
  now : Nat

inductive RpcEvent (V τ : Type)
  /-- An event of the pool of a node, other than an answer. -/
  | pool (n : NodeInfo) (e : MuxEvent V τ)
  /-- The peer of socket `k` of node `n` executes the oldest request on it. -/
  | serve (n : NodeInfo) (k : Nat) (c : Clock τ)
  | own (q : NodeInfo) (f : NodeState V τ → NodeState V τ)

abbrev RpcRun (V τ : Type) := List (RpcEvent V τ)

/-- The body of a response that fits into a frame. -/
def encode (p : Pickle V τ) (resp : Message V τ) : Except WireError (List UInt8) :=
  (p.dumps resp).bind fun data => (toBytes data.length).map fun _ => data

namespace RpcState

variable (s : RpcState V τ)

def start (nodes : NodeInfo → NodeState V τ) : RpcState V τ where
  pools _ := MuxPool.empty
  nodes := nodes
  dropped := []
  ownWork := []
  log := []
  made _ _ := 0
  ended _ _ := 0
  now := 0

def setPool (n : NodeInfo) (pool : MuxPool V τ) : RpcState V τ := { s with pools := Function.update s.pools n pool }

/-- The handler of the connection closes it. -/
def drop (n : NodeInfo) (k : Nat) : RpcState V τ := { s with dropped := (n, k) :: s.dropped }

/-- A node has done some work. -/
def execute (q : NodeInfo) (e : WorkEffect V τ) (state : NodeState V τ) : RpcState V τ :=
  { s with nodes := Function.update s.nodes q state, log := s.log ++ [(q, e)] }

/-- The handler sends the response. -/
def reply (p : Pickle V τ) (n : NodeInfo) (k : Nat) (resp : Message V τ) : RpcState V τ :=
  match encode p resp with
  | .ok body => s.setPool n ((s.pools n).answer k body)
  | .error _ => s.drop n k

/-- The oldest request on socket `k` of node `n`, and the peer. -/
def oldest (n : NodeInfo) (k : Nat) : Option (Addressed V τ) :=
  ((s.pools n).sockets[k]?).bind fun sock => sock.pending.head?

def own (q : NodeInfo) (f : NodeState V τ → NodeState V τ) : RpcState V τ :=
  { s.execute q ⟨.own s.ownWork.length, .own f, none, s.now⟩ (f (s.nodes q)) with
    ownWork := s.ownWork ++ [⟨q, f, s.now⟩] }

/-- What has been done on node `q`. -/
def logAt (q : NodeInfo) : List (WorkEffect V τ) := (s.log.filter fun x => x.1 = q).map Prod.snd

def isOver (n : NodeInfo) (c : Nat) : Bool := ((s.pools n).calls[c]?).any fun call => call.stage.isOver

/-- The state `s` with the stamps of the calls that the step to it from `s₀` has made or brought to their ends. -/
def stamp (s₀ : RpcState V τ) : RpcState V τ :=
  { s with
    made := fun n c => if c < (s₀.pools n).calls.length then s₀.made n c else s₀.now
    ended := fun n c => if s₀.isOver n c then s₀.ended n c else s₀.now
    now := s₀.now + 1 }

/-- What happened on node `q`: the calls of `execute` for it, which return when they get a response, and its own
work. -/
def history (q : NodeInfo) : History Origin (Work V τ) (Option (Message V τ)) where
  call
    | .call n c => ((s.pools n).calls[c]?).bind fun call =>
      if call.peer = q then some (s.made n c, .request call.msg) else none
    | .own i => (s.ownWork[i]?).bind fun w => if w.node = q then some (w.time, .own w.f) else none
  ret
    | .call n c => ((s.pools n).calls[c]?).bind fun call =>
      match call.stage with
      | .ended (some resp) => if call.peer = q then some (s.ended n c, some resp) else none
      | _ => none
    | .own i => (s.ownWork[i]?).bind fun w => if w.node = q then some (w.time, none) else none

variable [LinearOrder τ] [Add τ] (p : Pickle V τ) (max : Int)

def serve (n : NodeInfo) (k : Nat) (c : Clock τ) : RpcState V τ :=
  match s.oldest n k with
  | none => s
  | some (peer, request) =>
    if (n, k) ∈ s.dropped then s
    else
      match (p.dumps request.msg).bind p.loads with
      | .error _ => s.drop n k
      | .ok msg =>
        match (s.nodes peer).respond peer c msg with
        | .error _ => s.drop n k
        | .ok (resp, state) =>
          (s.execute peer ⟨.call n request.call, .request msg, some resp, s.now⟩ state).reply p n k resp

def perform : RpcEvent V τ → RpcState V τ
  | .pool n e => if e.isAnswer then s else s.setPool n ((s.pools n).apply p max e)
  | .serve n k c => s.serve p n k c
  | .own q f => s.own q f

/-- The state after an event; an event that is out of place changes nothing. -/
def apply (e : RpcEvent V τ) : RpcState V τ := (s.perform p max e).stamp s

end RpcState

/-- What work does to node `q`, whatever its clock shows; `execute` returns the response. -/
def Works [LinearOrder τ] [Add τ] (q : NodeInfo) (s : NodeState V τ) :
    Work V τ → Option (Message V τ) → NodeState V τ → Prop
  | .request msg, out, s' => ∃ c resp, out = some resp ∧ s.respond q c msg = .ok (resp, s')
  | .own f, out, s' => out = none ∧ s' = f s

/-- The state after a run from the given states of the nodes. -/
def rpcAfter [LinearOrder τ] [Add τ] (p : Pickle V τ) (max : Int) (nodes : NodeInfo → NodeState V τ)
    (run : RpcRun V τ) : RpcState V τ :=
  after (fun s e => s.apply p max e) (RpcState.start nodes) run

namespace RpcState

/-! ### What the log tells -/

section Records

variable (s : RpcState V τ)

/-- The request of call `c` has an answer, or is on a connection that will not bring one. -/
def Done (n : NodeInfo) (c : Nat) : Prop :=
  (∃ r ∈ (s.pools n).given, r.request.call = c) ∨
    ∃ k sock, (n, k) ∈ s.dropped ∧ (s.pools n).sockets[k]? = some sock ∧ ∃ x ∈ sock.pending, x.2.call = c

/-- The log entry is about a call, or about work of the node itself. -/
def Entry (x : NodeInfo × WorkEffect V τ) : Prop :=
  match x.2.who with
  | .call n c => s.Done n c ∧ ∃ call, (s.pools n).calls[c]? = some call ∧ call.peer = x.1 ∧
      x.2.input = .request call.msg
  | .own i => ∃ w, s.ownWork[i]? = some w ∧ w.node = x.1 ∧ x.2.input = .own w.f ∧ w.time = x.2.time

/-- Node `q` has executed the request of call `c` with a response, by some time. -/
def Executed (q n : NodeInfo) (c : Nat) (resp : Message V τ) (time : Nat) : Prop :=
  ∃ e : WorkEffect V τ, (q, e) ∈ s.log ∧ e.who = .call n c ∧ e.output = some resp ∧ e.time ≤ time

/-- The stamps of the calls tell when these happened. -/
structure Stamped : Prop where
  made : ∀ n c, c < (s.pools n).calls.length → s.made n c < s.now
  called : ∀ x ∈ s.log, ∀ n c, x.2.who = .call n c → s.made n c ≤ x.2.time
  ended : ∀ (n : NodeInfo) (c : Nat) (call : MuxCall V τ) (resp : Message V τ), (s.pools n).calls[c]? = some call →
    call.stage = .ended (some resp) → s.Executed call.peer n c resp (s.ended n c)

variable [LinearOrder τ] [Add τ] (p : Pickle V τ) (nodes : NodeInfo → NodeState V τ)

/-- The log holds what has been done, once, up to some time, and every answer is in it. -/
structure Records (bound : Nat) : Prop where
  regular : ∀ n, (s.pools n).Regular p
  chain : ∀ q, Chain (Works q) (nodes q) (s.logAt q) (s.nodes q)
  sorted : s.log.Pairwise fun x y => x.2.time < y.2.time
  times : ∀ x ∈ s.log, x.2.time < bound
  once : (s.log.map fun x => x.2.who).Nodup
  entries : ∀ x ∈ s.log, s.Entry x
  given : ∀ n, ∀ r ∈ (s.pools n).given, ∃ resp, p.dumps resp = .ok r.body ∧
    s.Executed r.peer n r.request.call resp bound
  own : ∀ (i : Nat) (w : OwnWork V τ), s.ownWork[i]? = some w →
    (w.node, ⟨.own i, .own w.f, none, w.time⟩) ∈ s.log

end Records

section Steps

variable {s s' : RpcState V τ}

theorem Executed.mono {q n : NodeInfo} {c t : Nat} {resp : Message V τ} (h : s.Executed q n c resp t)
    (hlog : ∀ x ∈ s.log, x ∈ s'.log) : s'.Executed q n c resp t := by
  obtain ⟨e, he, hwho, hout, htime⟩ := h
  exact ⟨e, hlog _ he, hwho, hout, htime⟩

theorem logAt_append {q q' : NodeInfo} {e : WorkEffect V τ} (hlog : s'.log = s.log ++ [(q, e)]) :
    s'.logAt q' = if q' = q then s.logAt q' ++ [e] else s.logAt q' := by
  unfold logAt
  rw [hlog, List.filter_append, List.map_append]
  by_cases hq : q' = q
  · subst hq
    simp
  · rw [if_neg hq, List.filter_cons_of_neg (by simpa using Ne.symm hq)]
    simp

theorem mem_logAt {q : NodeInfo} {e : WorkEffect V τ} : e ∈ s.logAt q ↔ (q, e) ∈ s.log := by
  unfold logAt
  simp

/-- The calls get on, and what has been answered or dropped stays so. -/
structure Grows (s s' : RpcState V τ) : Prop where
  calls : ∀ n, (s.pools n).Proceeds (s'.pools n)
  done : ∀ n c, s.Done n c → s'.Done n c
  ownWork : ∀ (i : Nat) (w : OwnWork V τ), s.ownWork[i]? = some w → s'.ownWork[i]? = some w

theorem Entry.mono {x : NodeInfo × WorkEffect V τ} (h : s.Entry x) (hg : s.Grows s') : s'.Entry x := by
  unfold Entry at h ⊢
  split
  · rename_i n c hwho
    rw [hwho] at h
    obtain ⟨hdone, call, hcall, hpeer, hinput⟩ := h
    obtain ⟨call', hcall', hfollows⟩ := hg.calls n c call hcall
    exact ⟨hg.done n c hdone, call', hcall', hfollows.peer.trans hpeer, by rw [hinput, hfollows.msg]⟩
  · rename_i i hwho
    rw [hwho] at h
    obtain ⟨w, hw, hrest⟩ := h
    exact ⟨w, hg.ownWork i w hw, hrest⟩

theorem Grows.refl (s : RpcState V τ) : s.Grows s :=
  ⟨fun _ => MuxPool.Proceeds.refl _, fun _ _ h => h, fun _ _ h => h⟩

theorem grows_setPool {n : NodeInfo} {pool : MuxPool V τ} (hcalls : (s.pools n).Proceeds pool)
    (hsockets : (s.pools n).Retains pool) (hgiven : pool.given = (s.pools n).given) : s.Grows (s.setPool n pool) := by
  refine ⟨fun n' => ?_, fun n' c hdone => ?_, fun _ _ h => h⟩
  · show (s.pools n').Proceeds (Function.update s.pools n pool n')
    by_cases hn : n' = n
    · subst hn
      rwa [Function.update_self]
    · rw [Function.update_of_ne hn]
      exact MuxPool.Proceeds.refl _
  · by_cases hn : n' = n
    · subst hn
      have hpool : (s.setPool n' pool).pools n' = pool := Function.update_self ..
      unfold Done
      rw [hpool, hgiven]
      rcases hdone with hans | ⟨k, sock, hdrop, hsock, x, hx, hcall⟩
      · exact Or.inl hans
      · obtain ⟨sock', hsock', hprefix⟩ := hsockets k sock hsock
        exact Or.inr ⟨k, sock', hdrop, hsock', x, hprefix.subset hx, hcall⟩
    · have hpool : (s.setPool n pool).pools n' = s.pools n' := Function.update_of_ne hn ..
      unfold Done
      rw [hpool]
      exact hdone

theorem grows_drop (n : NodeInfo) (k : Nat) : s.Grows (s.drop n k) := by
  refine ⟨fun _ => MuxPool.Proceeds.refl _, fun n' c hdone => ?_, fun _ _ h => h⟩
  rcases hdone with hans | ⟨k', sock, hdrop, hrest⟩
  · exact Or.inl hans
  · exact Or.inr ⟨k', sock, List.mem_cons_of_mem _ hdrop, hrest⟩

/-- The answer comes on a connection that is not closed. -/
theorem grows_answer {n : NodeInfo} {k : Nat} {pool : MuxPool V τ} {r : Response V τ}
    (h : (s.pools n).Answers pool k r) (hk : (n, k) ∉ s.dropped) : s.Grows (s.setPool n pool) := by
  refine ⟨fun n' => ?_, fun n' c hdone => ?_, fun _ _ h => h⟩
  · show (s.pools n').Proceeds (Function.update s.pools n pool n')
    by_cases hn : n' = n
    · subst hn
      rw [Function.update_self]
      intro c call hcall
      exact ⟨call, h.calls ▸ hcall, MuxCall.Follows.refl call⟩
    · rw [Function.update_of_ne hn]
      exact MuxPool.Proceeds.refl _
  · by_cases hn : n' = n
    · subst hn
      have hpool : (s.setPool n' pool).pools n' = pool := Function.update_self ..
      unfold Done
      rw [hpool]
      rcases hdone with ⟨r', hr', hcall⟩ | ⟨k', sock, hdrop, hsock, hx⟩
      · exact Or.inl ⟨r', by rw [h.given]; exact List.mem_append_left _ hr', hcall⟩
      · have hne : k' ≠ k := fun heq => hk (heq ▸ hdrop)
        exact Or.inr ⟨k', sock, hdrop, (h.others k' hne).trans hsock, hx⟩
    · have hpool : (s.setPool n pool).pools n' = s.pools n' := Function.update_of_ne hn ..
      unfold Done
      rw [hpool]
      exact hdone

variable [LinearOrder τ] [Add τ] {p : Pickle V τ} {nodes : NodeInfo → NodeState V τ}

omit [LinearOrder τ] [Add τ] in
private theorem regular_setPool (h : ∀ n, (s.pools n).Regular p) {n : NodeInfo} {pool : MuxPool V τ}
    (hpool : pool.Regular p) (n' : NodeInfo) : ((s.setPool n pool).pools n').Regular p := by
  show (Function.update s.pools n pool n').Regular p
  by_cases hn : n' = n
  · subst hn
    rwa [Function.update_self]
  · rw [Function.update_of_ne hn]
    exact h n'

namespace Records

/-- Nothing has been done on a node. -/
theorem pass (h : s.Records p nodes s.now) (hlog : s'.log = s.log) (hnodes : s'.nodes = s.nodes)
    (hg : s.Grows s') (hregular : ∀ n, (s'.pools n).Regular p)
    (hgiven : ∀ n, (s'.pools n).given = (s.pools n).given) (hown : s'.ownWork = s.ownWork) :
    s'.Records p nodes (s.now + 1) where
  regular := hregular
  chain q := by
    have hlogAt : s'.logAt q = s.logAt q := by unfold logAt; rw [hlog]
    rw [hlogAt, hnodes]
    exact h.chain q
  sorted := by rw [hlog]; exact h.sorted
  times x hx := Nat.lt_succ_of_lt (h.times x (hlog ▸ hx))
  once := by rw [hlog]; exact h.once
  entries x hx := (h.entries x (hlog ▸ hx)).mono hg
  given n r hr := by
    rw [hgiven] at hr
    obtain ⟨resp, hresp, e, he, hwho, hout, htime⟩ := h.given n r hr
    exact ⟨resp, hresp, e, by rw [hlog]; exact he, hwho, hout, by omega⟩
  own i w hw := by
    rw [hown] at hw
    rw [hlog]
    exact h.own i w hw

/-- A node has done some work, which is new. -/
theorem append (h : s.Records p nodes s.now) {q : NodeInfo} {e : WorkEffect V τ} {state : NodeState V τ}
    (hlog : s'.log = s.log ++ [(q, e)]) (hnodes : s'.nodes = Function.update s.nodes q state)
    (hworks : Works q (s.nodes q) e.input e.output state) (htime : e.time = s.now)
    (hfresh : ∀ x ∈ s.log, x.2.who ≠ e.who) (hg : s.Grows s') (hregular : ∀ n, (s'.pools n).Regular p)
    (hentry : s'.Entry (q, e))
    (hgiven : ∀ n, ∀ r ∈ (s'.pools n).given, r ∈ (s.pools n).given ∨ ∃ resp, p.dumps resp = .ok r.body ∧
      q = r.peer ∧ e.who = .call n r.request.call ∧ e.output = some resp)
    (hown : ∀ i w, s'.ownWork[i]? = some w → s.ownWork[i]? = some w ∨
      q = w.node ∧ e = ⟨.own i, .own w.f, none, w.time⟩) : s'.Records p nodes (s.now + 1) where
  regular := hregular
  chain q' := by
    rw [logAt_append hlog, hnodes]
    by_cases hq : q' = q
    · subst hq
      rw [if_pos rfl, Function.update_self]
      exact (h.chain q').concat hworks
    · rw [if_neg hq, Function.update_of_ne hq]
      exact h.chain q'
  sorted := by
    rw [hlog]
    refine List.pairwise_append.2 ⟨h.sorted, List.pairwise_singleton _ _, ?_⟩
    intro x hx y hy
    rw [List.mem_singleton.1 hy]
    simp only [htime]
    exact h.times x hx
  times x hx := by
    rw [hlog] at hx
    rcases List.mem_append.1 hx with hx | hx
    · exact Nat.lt_succ_of_lt (h.times x hx)
    · rw [List.mem_singleton.1 hx]
      simp only [htime]
      omega
  once := by
    rw [hlog, List.map_append, List.nodup_append]
    refine ⟨h.once, by simp, ?_⟩
    intro a ha b hb
    obtain ⟨x, hx, rfl⟩ := List.mem_map.1 ha
    obtain rfl : b = e.who := by simpa using hb
    exact hfresh x hx
  entries x hx := by
    rw [hlog] at hx
    rcases List.mem_append.1 hx with hx | hx
    · exact (h.entries x hx).mono hg
    · rw [List.mem_singleton.1 hx]
      exact hentry
  given n r hr := by
    rcases hgiven n r hr with hold | ⟨resp, hresp, rfl, hwho, hout⟩
    · obtain ⟨resp, hresp, e', he', hwho, hout, htime'⟩ := h.given n r hold
      exact ⟨resp, hresp, e', by rw [hlog]; exact List.mem_append_left _ he', hwho, hout, by omega⟩
    · exact ⟨resp, hresp, e, by rw [hlog]; simp, hwho, hout, by omega⟩
  own i w hw := by
    rw [hlog]
    rcases hown i w hw with hold | ⟨rfl, rfl⟩
    · exact List.mem_append_left _ (h.own i w hold)
    · simp

end Records

namespace Records

theorem pool (h : s.Records p nodes s.now) (max : Int) (n : NodeInfo) {e : MuxEvent V τ} (he : e.isAnswer = false) :
    (s.setPool n ((s.pools n).apply p max e)).Records p nodes (s.now + 1) := by
  obtain ⟨hcalls, hsockets, hgiven⟩ := MuxPool.apply_frame (h.regular n).paired max he
  refine h.pass rfl rfl (grows_setPool hcalls hsockets hgiven)
    (regular_setPool h.regular ((h.regular n).apply max e)) (fun n' => ?_) rfl
  show (Function.update s.pools n _ n').given = _
  by_cases hn : n' = n
  · subst hn
    rwa [Function.update_self]
  · rw [Function.update_of_ne hn]

theorem drop (h : s.Records p nodes s.now) (n : NodeInfo) (k : Nat) : (s.drop n k).Records p nodes (s.now + 1) :=
  h.pass rfl rfl (grows_drop n k) h.regular (fun _ => rfl) rfl

theorem ownWork (h : s.Records p nodes s.now) (q : NodeInfo) (f : NodeState V τ → NodeState V τ) :
    (s.own q f).Records p nodes (s.now + 1) := by
  refine h.append (e := ⟨.own s.ownWork.length, .own f, none, s.now⟩) rfl rfl ⟨rfl, rfl⟩ rfl ?_
    ⟨fun n => MuxPool.Proceeds.refl _, fun _ _ hd => hd, fun i w hw => Base.getElem?_concat_of_some hw⟩
    h.regular ?_ (fun _ _ hr => Or.inl hr) ?_
  · -- the log knows of earlier work only
    intro x hx hwho
    have hentry := h.entries x hx
    unfold Entry at hentry
    rw [hwho] at hentry
    obtain ⟨w, hw, -⟩ := hentry
    rw [List.getElem?_eq_none (Nat.le_refl _)] at hw
    cases hw
  · exact ⟨⟨q, f, s.now⟩, List.getElem?_concat_length, rfl, rfl, rfl⟩
  · intro i w hw
    rcases Base.getElem?_concat_some hw with hold | ⟨rfl, rfl⟩
    · exact Or.inl hold
    · exact Or.inr ⟨rfl, rfl⟩

end Records

/-! ### Executing a request -/

omit [LinearOrder τ] [Add τ] in
theorem oldest_some {n peer : NodeInfo} {k : Nat} {request : Request V τ}
    (h : s.oldest n k = some (peer, request)) : ∃ sock rest, (s.pools n).sockets[k]? = some sock ∧
      sock.sent = request :: rest ∧ sock.peer = peer := by
  obtain ⟨sock, hsock, hhead⟩ := Option.bind_eq_some_iff.1 h
  refine ⟨sock, sock.sent.tail, hsock, ?_⟩
  unfold MuxSocket.pending at hhead
  cases hsent : sock.sent with
  | nil =>
    rw [hsent] at hhead
    cases hhead
  | cons request' rest =>
    rw [hsent] at hhead
    obtain ⟨rfl, rfl⟩ : sock.peer = peer ∧ request' = request := by simpa using hhead
    exact ⟨rfl, rfl⟩

omit [LinearOrder τ] [Add τ] in
theorem encode_ok {resp : Message V τ} {body : List UInt8} (h : encode p resp = .ok body) :
    p.dumps resp = .ok body ∧ body.length < 256 ^ headerSize := by
  unfold encode at h
  cases hdumps : p.dumps resp with
  | error e =>
    rw [hdumps] at h
    cases h
  | ok data =>
    rw [hdumps] at h
    unfold toBytes at h
    simp only [Except.bind] at h
    split at h
    · rename_i hlen
      obtain rfl : data = body := Except.ok.inj h
      exact ⟨rfl, hlen⟩
    · cases h

/-- A request that waits on an open connection has not been executed. -/
private theorem fresh (h : s.Records p nodes s.now) {n : NodeInfo} {k : Nat} {sock : MuxSocket V τ}
    {x : Addressed V τ} (hsock : (s.pools n).sockets[k]? = some sock) (hx : x ∈ sock.pending)
    (hk : (n, k) ∉ s.dropped) : ∀ y ∈ s.log, y.2.who ≠ .call n x.2.call := by
  intro y hy hwho
  have hentry := h.entries y hy
  unfold Entry at hentry
  rw [hwho] at hentry
  rcases hentry.1 with ⟨r, hr, hcall⟩ | ⟨k', sock', hdrop, hsock', x', hx', hcall⟩
  · exact (h.regular n).once.unanswered hsock hx hr hcall
  · obtain rfl := (h.regular n).once.apart hsock' hsock hx' hx hcall
    exact hk hdrop

omit [LinearOrder τ] [Add τ] in
/-- A message is loaded as it was dumped. -/
private theorem eq_of_loads (hpickle : ∀ msg data, p.dumps msg = .ok data → p.loads data = .ok msg)
    {msg msg' : Message V τ} (h : (p.dumps msg).bind p.loads = .ok msg') : msg = msg' := by
  cases hdumps : p.dumps msg with
  | error e =>
    rw [hdumps] at h
    cases h
  | ok data =>
    rw [hdumps] at h
    exact Except.ok.inj ((hpickle _ _ hdumps).symm.trans h)

omit [LinearOrder τ] [Add τ] in
/-- An answer that a pool has got was there before, or is the new one. -/
private theorem mem_given_of_answers {n n' : NodeInfo} {k : Nat} {pool : MuxPool V τ} {r r' : Response V τ}
    (hanswers : (s.pools n).Answers pool k r) (hr : r' ∈ ((s.setPool n pool).pools n').given) :
    r' ∈ (s.pools n').given ∨ n' = n ∧ r' = r := by
  by_cases hn : n' = n
  · subst hn
    have hpool : (s.setPool n' pool).pools n' = pool := Function.update_self ..
    rw [hpool, hanswers.given] at hr
    exact (List.mem_append.1 hr).imp_right fun hnew => ⟨rfl, List.mem_singleton.1 hnew⟩
  · have hpool : (s.setPool n pool).pools n' = s.pools n' := Function.update_of_ne hn ..
    rw [hpool] at hr
    exact Or.inl hr

namespace Records

/-- The oldest request on an open connection is executed and the handler replies. -/
private theorem reply (h : s.Records p nodes s.now) {n : NodeInfo} {k : Nat} {sock : MuxSocket V τ}
    {request : Request V τ} {rest : List (Request V τ)} (hsock : (s.pools n).sockets[k]? = some sock)
    (hsent : sock.sent = request :: rest) (hk : (n, k) ∉ s.dropped) {resp : Message V τ} {state : NodeState V τ}
    (hworks : Works sock.peer (s.nodes sock.peer) (.request request.msg) (some resp) state) :
    ((s.execute sock.peer ⟨.call n request.call, .request request.msg, some resp, s.now⟩ state).reply p n k
      resp).Records p nodes (s.now + 1) := by
  have hpending : (sock.peer, request) ∈ sock.pending := by
    unfold MuxSocket.pending
    rw [hsent]
    exact List.mem_cons_self ..
  have hfresh := fresh h hsock hpending hk
  obtain ⟨call, hcall, -, hcallPeer, hcallMsg⟩ := (h.regular n).once.own (sock.peer, request)
    (List.mem_append_left _ (List.mem_flatMap.2 ⟨sock, List.mem_of_getElem? hsock, hpending⟩))
  unfold RpcState.reply
  split
  · rename_i body hbody
    obtain ⟨hdumps, hlen⟩ := encode_ok hbody
    have hanswers := MuxPool.answer_spec hsock hsent hlen
    have hg := grows_answer hanswers hk
    have hpool : (s.setPool n ((s.pools n).answer k body)).pools n = (s.pools n).answer k body :=
      Function.update_self ..
    refine h.append rfl rfl hworks rfl hfresh ⟨hg.calls, hg.done, hg.ownWork⟩
      (regular_setPool h.regular ((h.regular n).apply 0 (.answer k body))) ?_ ?_ (fun _ _ hw => Or.inl hw)
    · refine ⟨Or.inl ⟨⟨sock.peer, request, body⟩, ?_, rfl⟩, call, ?_, hcallPeer, by rw [hcallMsg]⟩
      · show _ ∈ ((s.setPool n ((s.pools n).answer k body)).pools n).given
        rw [hpool, hanswers.given]
        simp
      · show ((s.setPool n ((s.pools n).answer k body)).pools n).calls[request.call]? = some call
        rw [hpool, hanswers.calls]
        exact hcall
    · intro n' r hr
      rcases mem_given_of_answers hanswers hr with hold | ⟨rfl, rfl⟩
      · exact Or.inl hold
      · exact Or.inr ⟨resp, hdumps, rfl, rfl, rfl⟩
  · have hg := grows_drop (s := s) n k
    refine h.append rfl rfl hworks rfl hfresh ⟨hg.calls, hg.done, hg.ownWork⟩ h.regular ?_
      (fun _ _ hr => Or.inl hr) (fun _ _ hw => Or.inl hw)
    exact ⟨Or.inr ⟨k, sock, List.mem_cons_self .., hsock, (sock.peer, request), hpending, rfl⟩, call, hcall,
      hcallPeer, by rw [hcallMsg]⟩

theorem serve (hpickle : ∀ msg data, p.dumps msg = .ok data → p.loads data = .ok msg)
    (h : s.Records p nodes s.now) (n : NodeInfo) (k : Nat) (c : Clock τ) :
    (s.serve p n k c).Records p nodes (s.now + 1) := by
  have hsame : s.Records p nodes (s.now + 1) := h.pass rfl rfl (Grows.refl s) h.regular (fun _ => rfl) rfl
  unfold RpcState.serve
  split
  · exact hsame
  · rename_i peer request holdest
    split
    · exact hsame
    · rename_i hk
      split
      · exact h.drop n k
      · rename_i msg hmsg
        split
        · exact h.drop n k
        · rename_i resp state hrespond
          obtain ⟨sock, rest, hsock, hsent, rfl⟩ := oldest_some holdest
          obtain rfl := eq_of_loads hpickle hmsg
          exact h.reply hsock hsent hk ⟨c, resp, rfl, hrespond⟩

theorem perform (hpickle : ∀ msg data, p.dumps msg = .ok data → p.loads data = .ok msg)
    (h : s.Records p nodes s.now) (max : Int) (e : RpcEvent V τ) :
    (s.perform p max e).Records p nodes (s.now + 1) := by
  cases e with
  | pool n e =>
    show (if e.isAnswer then s else _).Records p nodes (s.now + 1)
    split
    · exact h.pass rfl rfl (Grows.refl s) h.regular (fun _ => rfl) rfl
    · rename_i he
      exact h.pool max n (by simpa using he)
  | serve n k c => exact h.serve hpickle n k c
  | own q f => exact h.ownWork q f

end Records

/-! ### One event -/

omit [LinearOrder τ] [Add τ] in
private theorem proceeds_setPool {n : NodeInfo} {pool : MuxPool V τ} (h : (s.pools n).Proceeds pool) (n' : NodeInfo) :
    (s.pools n').Proceeds ((s.setPool n pool).pools n') := by
  show (s.pools n').Proceeds (Function.update s.pools n pool n')
  by_cases hn : n' = n
  · subst hn
    rwa [Function.update_self]
  · rw [Function.update_of_ne hn]
    exact MuxPool.Proceeds.refl _

/-- A step from `s` lets the calls get on, and adds to the log what it has done. -/
structure Extends (s s' : RpcState V τ) : Prop where
  calls : ∀ n, (s.pools n).Proceeds (s'.pools n)
  log : ∃ added, s'.log = s.log ++ added ∧ ∀ x ∈ added, x.2.time = s.now

omit [LinearOrder τ] [Add τ] in
theorem Extends.refl (s : RpcState V τ) : s.Extends s :=
  ⟨fun _ => MuxPool.Proceeds.refl _, [], by simp, fun x hx => by cases hx⟩

omit [LinearOrder τ] [Add τ] in
private theorem extends_execute (q : NodeInfo) {e : WorkEffect V τ} (he : e.time = s.now) (state : NodeState V τ) :
    s.Extends (s.execute q e state) := by
  refine ⟨(Extends.refl s).calls, [(q, e)], rfl, ?_⟩
  intro x hx
  rw [List.mem_singleton.1 hx]
  exact he

omit [LinearOrder τ] [Add τ] in
private theorem extends_reply (h : s.Extends s') (n : NodeInfo) (k : Nat) (resp : Message V τ) :
    s.Extends (s'.reply p n k resp) := by
  unfold RpcState.reply
  split
  · exact ⟨fun n' => (h.calls n').trans (proceeds_setPool (MuxPool.proceeds_answer k _) n'), h.log⟩
  · exact ⟨h.calls, h.log⟩

theorem perform_extends (h : ∀ n, (s.pools n).Regular p) (max : Int) (e : RpcEvent V τ) :
    s.Extends (s.perform p max e) := by
  cases e with
  | pool n e =>
    show s.Extends (if e.isAnswer then s else _)
    split
    · exact Extends.refl s
    · rename_i he
      have hframe := MuxPool.apply_frame (h n).paired max (e := e) (by simpa using he)
      exact ⟨proceeds_setPool hframe.1, (Extends.refl s).log⟩
  | serve n k c =>
    show s.Extends (s.serve p n k c)
    unfold RpcState.serve
    split
    · exact Extends.refl s
    · split
      · exact Extends.refl s
      · split
        · exact ⟨(Extends.refl s).calls, (Extends.refl s).log⟩
        · split
          · exact ⟨(Extends.refl s).calls, (Extends.refl s).log⟩
          · exact extends_reply (extends_execute _ rfl _) n k _
  | own q f =>
    have hexecute := extends_execute (s := s) q (e := ⟨.own s.ownWork.length, .own f, none, s.now⟩) rfl (f (s.nodes q))
    exact ⟨hexecute.calls, hexecute.log⟩

theorem Records.stamp (h : s'.Records p nodes (s.now + 1)) : (s'.stamp s).Records p nodes (s'.stamp s).now :=
  ⟨h.regular, h.chain, h.sorted, h.times, h.once, h.entries, h.given, h.own⟩

/-- A call that gets a response gets it from a node that has executed its request. -/
private theorem executed_of_ended (hpickle : ∀ msg data, p.dumps msg = .ok data → p.loads data = .ok msg)
    (h : s'.Records p nodes (s.now + 1)) {n : NodeInfo} {c : Nat} {call : MuxCall V τ} {resp : Message V τ}
    (hcall : (s'.pools n).calls[c]? = some call) (hstage : call.stage = .ended (some resp)) :
    s'.Executed call.peer n c resp s.now := by
  obtain ⟨body, hgiven, hloads⟩ := ((h.regular n).paired.calls c call hcall).answered resp (Or.inr hstage)
  obtain ⟨resp', hdumps, e, he, hwho, hout, -⟩ := h.given n _ hgiven
  obtain rfl : resp' = resp := Except.ok.inj ((hpickle _ _ hdumps).symm.trans hloads)
  have htime := h.times _ he
  exact ⟨e, he, hwho, hout, by simp only at htime; omega⟩

theorem Stamped.step (hpickle : ∀ msg data, p.dumps msg = .ok data → p.loads data = .ok msg) (hs : s.Stamped)
    (hold : s.Records p nodes s.now) (h : s'.Records p nodes (s.now + 1)) (hext : s.Extends s') :
    (s'.stamp s).Stamped where
  made n c hc := by
    show (if c < (s.pools n).calls.length then s.made n c else s.now) < s.now + 1
    split
    · rename_i hlt
      exact Nat.lt_succ_of_lt (hs.made n c hlt)
    · omega
  called x hx n c hwho := by
    show (if c < (s.pools n).calls.length then s.made n c else s.now) ≤ x.2.time
    obtain ⟨added, hlog, htime⟩ := hext.log
    have hx' : x ∈ s.log ++ added := hlog ▸ hx
    rcases List.mem_append.1 hx' with hx' | hx'
    · -- the call was there when its request was executed
      have hentry := hold.entries x hx'
      unfold Entry at hentry
      rw [hwho] at hentry
      obtain ⟨-, call, hcall, -⟩ := hentry
      rw [if_pos (List.getElem?_eq_some_iff.1 hcall).1]
      exact hs.called x hx' n c hwho
    · rw [htime x hx']
      split
      · rename_i hlt
        exact (hs.made n c hlt).le
      · exact Nat.le_refl _
  ended n c call resp hcall hstage := by
    show s'.Executed call.peer n c resp (if s.isOver n c then s.ended n c else s.now)
    split
    · rename_i hover
      -- the call was over before
      obtain ⟨call₀, hcall₀, hover₀⟩ : ∃ call₀, (s.pools n).calls[c]? = some call₀ ∧ call₀.stage.isOver = true := by
        simpa [isOver, Option.any_eq_true] using hover
      obtain ⟨call', hcall', hfollows⟩ := hext.calls n c call₀ hcall₀
      obtain rfl := Option.some.inj (hcall.symm.trans hcall')
      have hstage₀ : call₀.stage = .ended (some resp) := (hfollows.final hover₀).symm.trans hstage
      rw [hfollows.peer]
      refine (hs.ended n c call₀ resp hcall₀ hstage₀).mono ?_
      obtain ⟨added, hlog, -⟩ := hext.log
      exact fun x hx => hlog ▸ List.mem_append_left _ hx
    · exact executed_of_ended hpickle h hcall hstage

/-- What every run keeps. -/
theorem consistent_after (nodes : NodeInfo → NodeState V τ)
    (hpickle : ∀ msg data, p.dumps msg = .ok data → p.loads data = .ok msg) (max : Int) (run : RpcRun V τ) :
    (rpcAfter p max nodes run).Records p nodes (rpcAfter p max nodes run).now ∧
      (rpcAfter p max nodes run).Stamped := by
  refine Base.after_keeps (P := fun s : RpcState V τ => s.Records p nodes s.now ∧ s.Stamped) ⟨?_, ?_⟩ ?_ run
  · refine ⟨fun _ => MuxPool.Regular.empty, fun _ => rfl, List.Pairwise.nil, ?_, List.nodup_nil, ?_, ?_, ?_⟩
    · exact fun x hx => by cases hx
    · exact fun x hx => by cases hx
    · exact fun n r hr => by cases hr
    · exact fun i w hw => by cases hw
  · refine ⟨fun n c hc => ?_, fun x hx => (by cases hx), fun n c call resp hcall => by cases hcall⟩
    exact absurd hc (Nat.not_lt_zero c)
  · rintro s e ⟨hrecords, hstamped⟩
    have hperform := hrecords.perform hpickle max e
    exact ⟨hperform.stamp, hstamped.step hpickle hrecords hperform (perform_extends hrecords.regular max e)⟩

/-- The log of a node tells when each call took effect there. -/
theorem history_logged (h : s.Records p nodes s.now) (hs : s.Stamped) (q : NodeInfo) :
    (s.history q).Logged (Works q) (nodes q) (s.nodes q) (s.logAt q) where
  chain := h.chain q
  once := by
    unfold logAt
    rw [List.map_map]
    exact h.once.sublist (List.filter_sublist.map _)
  sorted := by
    unfold logAt
    rw [List.pairwise_map]
    exact h.sorted.sublist List.filter_sublist
  called e he := by
    have hmem := mem_logAt.1 he
    have hentry := h.entries _ hmem
    unfold Entry at hentry
    cases hwho : e.who with
    | call n c =>
      simp only [hwho] at hentry
      obtain ⟨-, call, hcall, hpeer, hinput⟩ := hentry
      refine ⟨s.made n c, ?_, hs.called _ hmem n c hwho⟩
      show ((s.pools n).calls[c]?).bind _ = _
      rw [hcall, hinput]
      exact if_pos hpeer
    | own i =>
      simp only [hwho] at hentry
      obtain ⟨w, hw, hnode, hinput, htime⟩ := hentry
      refine ⟨w.time, ?_, htime.le⟩
      show (s.ownWork[i]?).bind _ = _
      rw [hw, hinput]
      exact if_pos hnode
  returned i r hr := by
    cases i with
    | call n c =>
      obtain ⟨call, hcall, hr⟩ := Option.bind_eq_some_iff.1 hr
      split at hr
      · rename_i resp hstage
        split at hr
        · rename_i hpeer
          obtain ⟨e, he, hwho, hout, htime⟩ := hs.ended n c call resp hcall hstage
          rw [hpeer] at he
          rw [← Option.some.inj hr]
          exact ⟨e, mem_logAt.2 he, hwho, hout, htime⟩
        · cases hr
      · cases hr
    | own j =>
      obtain ⟨w, hw, hr⟩ := Option.bind_eq_some_iff.1 hr
      split at hr
      · rename_i hnode
        rw [← Option.some.inj hr]
        have hmem := h.own j w hw
        rw [hnode] at hmem
        exact ⟨_, mem_logAt.2 hmem, rfl, rfl, Nat.le_refl _⟩
      · cases hr

end Steps

end RpcState

/-- To every node it looks as if the calls of `execute` that got a response from it, and its own work, had come one
after the other: each request has been executed once between the call and its return, and the response is that of the
state the node was then in.  Requests whose calls got no response have been executed once or not at all. -/
theorem rpc_linearizable [LinearOrder τ] [Add τ] {p : Pickle V τ}
    (hpickle : ∀ msg data, p.dumps msg = .ok data → p.loads data = .ok msg) (max : Int)
    (nodes : NodeInfo → NodeState V τ) (run : RpcRun V τ) (q : NodeInfo) :
    ((rpcAfter p max nodes run).history q).Linearizable (Works q) (nodes q) := by
  obtain ⟨hrecords, hstamped⟩ := RpcState.consistent_after nodes hpickle max run
  exact (RpcState.history_logged hrecords hstamped q).linearizable

deriving instance DecidableEq for Payload, Message

/-- The pickle of `Message(MessageType.GET, {"key": "k"})`. -/
def getData : List UInt8 :=
  [128, 5, 149, 97, 0, 0, 0, 0, 0, 0, 0, 140, 15, 100, 108, 115, 116, 111, 114, 97, 103, 101, 46, 116, 121, 112,
    101, 115, 148, 140, 7, 77, 101, 115, 115, 97, 103, 101, 148, 147, 148, 41, 129, 148, 125, 148, 40, 140, 4,
    116, 121, 112, 101, 148, 104, 0, 140, 11, 77, 101, 115, 115, 97, 103, 101, 84, 121, 112, 101, 148, 147, 148,
    140, 3, 103, 101, 116, 148, 133, 148, 82, 148, 140, 7, 112, 97, 121, 108, 111, 97, 100, 148, 125, 148, 140, 3,
    107, 101, 121, 148, 140, 1, 107, 148, 115, 117, 98, 46]

/-- The response to it of a node that has nothing stored. -/
def absent : Message Nat Int := { type := .notFound, payload := { key := some "k", ts := some 0 } }

/-- The pickle of that response. -/
def absentData : List UInt8 :=
  [128, 5, 149, 111, 0, 0, 0, 0, 0, 0, 0, 140, 15, 100, 108, 115, 116, 111, 114, 97, 103, 101, 46, 116, 121, 112,
    101, 115, 148, 140, 7, 77, 101, 115, 115, 97, 103, 101, 148, 147, 148, 41, 129, 148, 125, 148, 40, 140, 4,
    116, 121, 112, 101, 148, 104, 0, 140, 11, 77, 101, 115, 115, 97, 103, 101, 84, 121, 112, 101, 148, 147, 148,
    140, 9, 110, 111, 116, 95, 102, 111, 117, 110, 100, 148, 133, 148, 82, 148, 140, 7, 112, 97, 121, 108, 111,
    97, 100, 148, 125, 148, 40, 140, 3, 107, 101, 121, 148, 140, 1, 107, 148, 140, 2, 116, 115, 148, 75, 0, 117,
    117, 98, 46]

/-- `pickle` on these two messages alone. -/
def getPickle : Pickle Nat Int where
  dumps msg :=
    if msg = getMessage "k" then .ok getData else if msg = absent then .ok absentData else .error .pickling
  loads data :=
    if data = getData then .ok (getMessage "k") else if data = absentData then .ok absent else .error .pickling

/-- A node asks another, which drops what has expired before it answers. -/
def askedRun : RpcRun Nat Int :=
  [.pool (localhost 7001) (.call (localhost 7002) (getMessage "k")), .pool (localhost 7001) (.connect 0 true),
    .pool (localhost 7001) (.dump 0), .pool (localhost 7001) (.send 0 true false),
    .own (localhost 7002) (fun s => { s with store := (s.store.purgeExpired ⟨0, 0⟩).2 }),
    .serve (localhost 7001) 0 ⟨0, 1⟩, .pool (localhost 7001) (.handOver 0), .pool (localhost 7001) .register,
    .pool (localhost 7001) (.read 0 3), .pool (localhost 7001) (.read 0 200), .pool (localhost 7001) (.giveBack false),
    .pool (localhost 7001) .deliver, .pool (localhost 7001) (.wake 0)]

theorem askedRun_linearizable :
    ((rpcAfter getPickle 5 (fun _ => emptyNode) askedRun).history (localhost 7002)).Linearizable
      (Works (localhost 7002)) emptyNode := by
  refine rpc_linearizable ?_ 5 (fun _ => emptyNode) askedRun (localhost 7002)
  intro msg data hdumps
  unfold getPickle at hdumps ⊢
  simp only at hdumps ⊢
  split at hdumps
  · rename_i hmsg
    rw [hmsg, ← Except.ok.inj hdumps, if_pos rfl]
  · split at hdumps
    · rename_i hmsg
      have hne : absentData ≠ getData := by decide
      rw [hmsg, ← Except.ok.inj hdumps, if_neg hne, if_pos rfl]
    · cases hdumps

example : ((rpcAfter getPickle 5 (fun _ => emptyNode) askedRun).history (localhost 7002)).ret
    (.call (localhost 7001) 0) = some (12, some absent) := by decide +kernel

end DLStorage
