import DLStorage.ConnectionPool.Queues

/-!
# Requests and responses on pooled connections

A request that is outstanding on a connection of a queue pool is that of the call which holds it (`Paired`), so that a
call gets the answer to its own message.  A connection that may have anything else outstanding is closed and not put
back: an attempt that fails or times out closes it, and a call that is cancelled keeps it to itself.
-/

namespace DLStorage

open Base (Dict Exclusive after_keeps)

variable {V τ : Type}

namespace QueuePool

variable (s : QueuePool V τ)

/-- Connection `k` leads to `peer`, and the requests are outstanding on it. -/
def carries (k : Nat) (peer : NodeInfo) (requests : List (Request V τ)) : Prop :=
  ∃ conn, s.conns[k]? = some conn ∧ conn.peer = peer ∧ conn.outstanding = requests

/-- The pairing of requests and responses. -/
structure Paired : Prop where
  once : Exclusive s.lies
  nodup : ∀ (q : Nat) (queue : IdleQueue), s.queues[q]? = some queue → queue.conns.Nodup
  idle : ∀ (q k : Nat) (queue : IdleQueue), s.queues[q]? = some queue → k ∈ queue.conns → s.carries k queue.peer []
  held : ∀ (c k : Nat) (call : PoolCall V τ), s.calls[c]? = some call → call.stage.conn = some k →
    s.carries k call.peer (call.pending c)
  inbox : ∀ (k : Nat) (conn : Connection V τ), s.conns[k]? = some conn → ∀ a ∈ conn.inbox, a.peer = conn.peer
  answers : ∀ (c : Nat) (call : PoolCall V τ) (a : Answer V τ), s.calls[c]? = some call →
    call.stage.answer = some a → a.peer = call.peer ∧ a.request = ⟨c, call.msg⟩
  home : ∀ (c : Nat) (call : PoolCall V τ), s.calls[c]? = some call →
    ∃ queue, s.queues[call.queue]? = some queue ∧ queue.peer = call.peer
  table : ∀ (peer : NodeInfo) (q : Nat), s.table.get peer = some q →
    ∃ queue, s.queues[q]? = some queue ∧ queue.peer = peer

variable {s}

theorem Paired.empty : Paired (empty : QueuePool V τ) where
  once := by rintro k (q | c) p' ⟨x, hx, -⟩ <;> simp [QueuePool.empty] at hx
  nodup := by intro q queue h; simp [QueuePool.empty] at h
  idle := by intro q k queue h; simp [QueuePool.empty] at h
  held := by intro c k call h; simp [QueuePool.empty] at h
  inbox := by intro k conn h; simp [QueuePool.empty] at h
  answers := by intro c call a h; simp [QueuePool.empty] at h
  home := by intro c call h; simp [QueuePool.empty] at h
  table := by intro peer q h; simp [QueuePool.empty] at h

namespace Paired

variable {c k q : Nat} {call : PoolCall V τ} {queue : IdleQueue} {stage : CallStage V τ} {l : List Nat}
  {f : Connection V τ → Connection V τ}

/-- Connection `k` changes, but not its peer; what is outstanding on it changes if call `c` holds it. -/
private theorem carries_setConn {k' : Nat} {peer : NodeInfo} {requests : List (Request V τ)}
    (hpeer : ∀ conn, (f conn).peer = conn.peer) (h : s.carries k' peer requests)
    (hk : k' = k → ∀ conn, s.conns[k]? = some conn → conn.outstanding = requests → (f conn).outstanding = requests) :
    (s.setConn k f).carries k' peer requests := by
  obtain ⟨conn, hconn, rfl, rfl⟩ := h
  by_cases hkk : k' = k
  · subst hkk
    exact ⟨f conn, Base.getElem?_modify_of_some hconn, hpeer conn, hk rfl conn hconn rfl⟩
  · exact ⟨conn, (List.getElem?_modify_ne _ _ (Ne.symm hkk)).trans hconn, rfl, rfl⟩

private theorem inbox_setConn (h : s.Paired) (hpeer : ∀ conn, (f conn).peer = conn.peer)
    (hinbox : ∀ conn, s.conns[k]? = some conn → ∀ a ∈ (f conn).inbox, a ∈ conn.inbox ∨ a.peer = conn.peer)
    (k' : Nat) (conn : Connection V τ) (hconn : (s.setConn k f).conns[k']? = some conn) :
    ∀ a ∈ conn.inbox, a.peer = conn.peer := by
  intro a ha
  obtain ⟨old, hold, ⟨rfl, rfl⟩ | ⟨-, rfl⟩⟩ := getElem?_setConn hconn
  · rw [hpeer]
    rcases hinbox old hold a ha with ha | ha
    · exact h.inbox k' old hold a ha
    · exact ha
  · exact h.inbox k' conn hold a ha

/-- A connection changes, but neither its peer nor what is outstanding on it. -/
theorem setConn (h : s.Paired) (hpeer : ∀ conn, (f conn).peer = conn.peer)
    (houtstanding : ∀ conn, (f conn).outstanding = conn.outstanding)
    (hinbox : ∀ conn, s.conns[k]? = some conn → ∀ a ∈ (f conn).inbox, a ∈ conn.inbox ∨ a.peer = conn.peer) :
    (s.setConn k f).Paired where
  once := h.once
  nodup := h.nodup
  idle q k queue hq hk := carries_setConn hpeer (h.idle q k queue hq hk)
    fun _ conn _ hout => (houtstanding conn).trans hout
  held c k call hc hk := carries_setConn hpeer (h.held c k call hc hk)
    fun _ conn _ hout => (houtstanding conn).trans hout
  inbox := h.inbox_setConn hpeer hinbox
  answers := h.answers
  home := h.home
  table := h.table

theorem close (h : s.Paired) : (s.close k).Paired :=
  h.setConn (fun _ => rfl) (fun _ => rfl) fun _ _ _ ha => Or.inl ha

private theorem answers_setStage (h : s.Paired) (hcall : s.calls[c]? = some call)
    (hanswer : ∀ a, stage.answer = some a → a.peer = call.peer ∧ a.request = ⟨c, call.msg⟩) (c' : Nat)
    (call' : PoolCall V τ) (a : Answer V τ) (hc : (s.setStage c stage).calls[c']? = some call')
    (ha : call'.stage.answer = some a) : a.peer = call'.peer ∧ a.request = ⟨c', call'.msg⟩ := by
  obtain ⟨old, hold, ⟨rfl, rfl⟩ | ⟨-, rfl⟩⟩ := getElem?_setStage hc
  · obtain rfl : call = old := Option.some.inj (hcall.symm.trans hold)
    exact hanswer a ha
  · exact h.answers c' call' a hold ha

private theorem home_setStage (h : s.Paired) (c' : Nat) (call' : PoolCall V τ)
    (hc : (s.setStage c stage).calls[c']? = some call') :
    ∃ queue, s.queues[call'.queue]? = some queue ∧ queue.peer = call'.peer := by
  obtain ⟨old, hold, ⟨rfl, rfl⟩ | ⟨-, rfl⟩⟩ := getElem?_setStage hc
  · exact h.home c' old hold
  · exact h.home c' call' hold

/-- A call goes on with a connection that was nowhere else. -/
private theorem exclusive_setStage (h : s.Paired) (hplace : ∀ k, stage.conn = some k → ∀ p, s.lies k p → p = .held c) :
    Exclusive (s.setStage c stage).lies := by
  intro k p p' hp hp'
  rcases lies_setStage hp with ⟨rfl, hk⟩ | ⟨hne, hold⟩ <;> rcases lies_setStage hp' with ⟨rfl, hk'⟩ | ⟨hne', hold'⟩
  · rfl
  · exact absurd (hplace k hk p' hold') hne'
  · exact absurd (hplace k hk' p hold) hne
  · exact h.once k p p' hold hold'

/-- Call `c` goes to a stage; a connection that it then has was nowhere else, with the right requests on it. -/
theorem setStage (h : s.Paired) (hcall : s.calls[c]? = some call)
    (hplace : ∀ k, stage.conn = some k → ∀ p, s.lies k p → p = .held c)
    (hcarries : ∀ k, stage.conn = some k → s.carries k call.peer ({ call with stage := stage }.pending c))
    (hanswer : ∀ a, stage.answer = some a → a.peer = call.peer ∧ a.request = ⟨c, call.msg⟩) :
    (s.setStage c stage).Paired where
  once := h.exclusive_setStage hplace
  nodup := h.nodup
  idle := h.idle
  held := by
    intro c' k call' hc hk
    obtain ⟨old, hold, ⟨rfl, rfl⟩ | ⟨-, rfl⟩⟩ := getElem?_setStage hc
    · obtain rfl : call = old := Option.some.inj (hcall.symm.trans hold)
      exact hcarries k hk
    · exact h.held c' k call' hold hk
  inbox := h.inbox
  answers := h.answers_setStage hcall hanswer
  home := h.home_setStage
  table := h.table

/-- Call `c` holds no connection any more. -/
theorem leave (h : s.Paired) (hcall : s.calls[c]? = some call) (hconn : stage.conn = none)
    (hanswer : stage.answer = none ∨ stage.answer = call.stage.answer) : (s.setStage c stage).Paired := by
  refine h.setStage hcall (fun k hk => ?_) (fun k hk => ?_) (fun a ha => ?_)
  · rw [hconn] at hk
    cases hk
  · rw [hconn] at hk
    cases hk
  · rcases hanswer with hnone | hsame
    · rw [hnone] at ha
      cases ha
    · exact h.answers c call a hcall (hsame ▸ ha)

/-- Call `c` gets hold of a connection that lies nowhere. -/
theorem hold (h : s.Paired) (hcall : s.calls[c]? = some call) (reused : Bool) (hfree : ∀ p, ¬ s.lies k p)
    (hcarries : s.carries k call.peer []) : (s.setStage c (.sending k reused)).Paired := by
  refine h.setStage hcall (fun k' hk p hp => ?_) (fun k' hk => ?_) (fun a ha => ?_)
  · obtain rfl := Option.some.inj hk
    exact absurd hp (hfree p)
  · obtain rfl := Option.some.inj hk
    exact hcarries
  · cases ha

/-- Call `c` works on its connection. -/
theorem work (h : s.Paired) (hcall : s.calls[c]? = some call) (hk : call.stage.conn = some k)
    (hstage : stage.conn = some k) (hpeer : ∀ conn, (f conn).peer = conn.peer)
    (hinbox : ∀ conn, s.conns[k]? = some conn → ∀ a ∈ (f conn).inbox, a ∈ conn.inbox ∨ a.peer = conn.peer)
    (houtstanding : ∀ conn, s.conns[k]? = some conn → conn.outstanding = call.pending c →
      (f conn).outstanding = { call with stage := stage }.pending c)
    (hanswer : ∀ a, stage.answer = some a → a.peer = call.peer ∧ a.request = ⟨c, call.msg⟩) :
    ((s.setConn k f).setStage c stage).Paired where
  once := by
    apply exclusive_setStage (s := s) h
    intro k' hk' p hp
    obtain rfl : k = k' := Option.some.inj (hstage.symm.trans hk')
    exact h.once k p _ hp ⟨call, hcall, hk⟩
  nodup := h.nodup
  idle := by
    intro q k' queue hq hk'
    refine carries_setConn hpeer (h.idle q k' queue hq hk') fun hkk => ?_
    subst hkk
    exact absurd (h.once k' (.idle q) (.held c) ⟨queue, hq, hk'⟩ ⟨call, hcall, hk⟩) nofun
  held := by
    intro c' k' call' hc hk'
    obtain ⟨old, hold, ⟨rfl, rfl⟩ | ⟨hne, rfl⟩⟩ := getElem?_setStage hc
    · obtain rfl : call = old := Option.some.inj (hcall.symm.trans hold)
      obtain rfl : k = k' := Option.some.inj (hstage.symm.trans hk')
      obtain ⟨conn, hconn, hcp, hco⟩ := h.held c' k call hcall hk
      exact ⟨f conn, Base.getElem?_modify_of_some hconn, (hpeer conn).trans hcp, houtstanding conn hconn hco⟩
    · refine carries_setConn hpeer (h.held c' k' call' hold hk') fun hkk => ?_
      subst hkk
      have := h.once k' (.held c') (.held c) ⟨call', hold, hk'⟩ ⟨call, hcall, hk⟩
      exact absurd (Place.held.inj this) hne
  inbox := h.inbox_setConn hpeer hinbox
  answers := h.answers_setStage (s := s) hcall hanswer
  home := h.home_setStage (s := s)
  table := h.table

/-- The connections of a queue are replaced by others that were nowhere else. -/
theorem setIdle (h : s.Paired) (hnodup : l.Nodup) (hplace : ∀ k ∈ l, ∀ p, s.lies k p → p = .idle q)
    (hcarries : ∀ k ∈ l, ∀ queue, s.queues[q]? = some queue → s.carries k queue.peer []) : (s.setIdle q l).Paired where
  once := by
    intro k p p' hp hp'
    rcases lies_setIdle hp with ⟨rfl, hk⟩ | ⟨hne, hold⟩ <;> rcases lies_setIdle hp' with ⟨rfl, hk'⟩ | ⟨hne', hold'⟩
    · rfl
    · exact absurd (hplace k hk p' hold') hne'
    · exact absurd (hplace k hk' p hold) hne
    · exact h.once k p p' hold hold'
  nodup := by
    intro q' queue hq
    obtain ⟨old, hold, ⟨rfl, rfl⟩ | ⟨-, rfl⟩⟩ := getElem?_setIdle hq
    · exact hnodup
    · exact h.nodup q' queue hold
  idle := by
    intro q' k queue hq hk
    obtain ⟨old, hold, ⟨rfl, rfl⟩ | ⟨-, rfl⟩⟩ := getElem?_setIdle hq
    · exact hcarries k hk old hold
    · exact h.idle q' k queue hold hk
  held := h.held
  inbox := h.inbox
  answers := h.answers
  home c call hc := exists_setIdle (h.home c call hc)
  table peer q' hq := exists_setIdle (h.table peer q' hq)

/-- Connections are taken out of a queue. -/
theorem shrink (h : s.Paired) (hl : l.Sublist (s.idle q)) : (s.setIdle q l).Paired := by
  cases hq : s.queues[q]? with
  | none =>
    have hidle : s.idle q = [] := by simp [QueuePool.idle, hq]
    obtain rfl : l = [] := List.sublist_nil.1 (hidle ▸ hl)
    exact h.setIdle List.nodup_nil nofun nofun
  | some queue =>
    have hidle : s.idle q = queue.conns := by simp [QueuePool.idle, hq]
    rw [hidle] at hl
    refine h.setIdle ((h.nodup q queue hq).sublist hl) (fun k hk p hp => ?_) (fun k hk queue' hq' => ?_)
    · exact h.once k p _ hp ⟨queue, hq, hl.subset hk⟩
    · obtain rfl : queue = queue' := Option.some.inj (hq.symm.trans hq')
      exact h.idle q k queue hq (hl.subset hk)

/-- A connection is put on top of a queue. -/
theorem push (h : s.Paired) (hq : s.queues[q]? = some queue) (hfree : ∀ p, ¬ s.lies k p)
    (hcarries : s.carries k queue.peer []) : (s.setIdle q (k :: s.idle q)).Paired := by
  have hidle : s.idle q = queue.conns := by simp [QueuePool.idle, hq]
  have hnew : k ∉ queue.conns := fun hk => hfree (.idle q) ⟨queue, hq, hk⟩
  rw [hidle]
  refine h.setIdle (List.nodup_cons.2 ⟨hnew, h.nodup q queue hq⟩) (fun k' hk' p hp => ?_) (fun k' hk' queue' hq' => ?_)
  · rcases List.mem_cons.1 hk' with rfl | hk'
    · exact absurd hp (hfree p)
    · exact h.once k' p _ hp ⟨queue, hq, hk'⟩
  · obtain rfl : queue = queue' := Option.some.inj (hq.symm.trans hq')
    rcases List.mem_cons.1 hk' with rfl | hk'
    · exact hcarries
    · exact h.idle q k' queue hq hk'

/-- What lies anywhere is a connection. -/
theorem exists_of_lies (h : s.Paired) {p : Place} (hp : s.lies k p) : ∃ conn, s.conns[k]? = some conn := by
  cases p with
  | idle q =>
    obtain ⟨queue, hq, hk⟩ := hp
    obtain ⟨conn, hconn, -⟩ := h.idle q k queue hq hk
    exact ⟨conn, hconn⟩
  | held c =>
    obtain ⟨call, hc, hk⟩ := hp
    obtain ⟨conn, hconn, -⟩ := h.held c k call hc hk
    exact ⟨conn, hconn⟩

/-- A new connection lies nowhere. -/
private theorem free_accept (h : s.Paired) (peer : NodeInfo) (p : Place) :
    ¬ (s.accept peer).lies s.conns.length p := by
  intro hp
  obtain ⟨conn, hconn⟩ := h.exists_of_lies (p := p) (by cases p <;> exact hp)
  simp at hconn

private theorem carries_accept {k : Nat} {peer peer' : NodeInfo} {requests : List (Request V τ)}
    (h : s.carries k peer' requests) : (s.accept peer).carries k peer' requests := by
  obtain ⟨conn, hconn, hrest⟩ := h
  exact ⟨conn, Base.getElem?_concat_of_some hconn, hrest⟩

theorem accept (h : s.Paired) (peer : NodeInfo) : (s.accept peer).Paired where
  once := h.once.mono (by rintro k (q | c) hp <;> exact hp)
  nodup := h.nodup
  idle q k queue hq hk := carries_accept (h.idle q k queue hq hk)
  held c k call hc hk := carries_accept (h.held c k call hc hk)
  inbox := by
    intro k conn hconn a ha
    rcases Base.getElem?_concat_some hconn with hconn | ⟨-, rfl⟩
    · exact h.inbox k conn hconn a ha
    · cases ha
  answers := h.answers
  home := h.home
  table := h.table

/-- The table loses entries. -/
theorem setTable (h : s.Paired) {table : Dict NodeInfo Nat}
    (hsub : ∀ peer q, table.get peer = some q → s.table.get peer = some q) : ({ s with table := table }).Paired where
  once := h.once
  nodup := h.nodup
  idle := h.idle
  held := h.held
  inbox := h.inbox
  answers := h.answers
  home := h.home
  table peer q hq := h.table peer q (hsub peer q hq)

end Paired

/-! ### Every event keeps the pairing -/

namespace Paired

variable {c k : Nat}

/-- The queue of a call is in its place. -/
private theorem queue (h : s.Paired) (peer : NodeInfo) :
    (s.queue peer).2.Paired ∧
      ∃ queue, (s.queue peer).2.queues[(s.queue peer).1]? = some queue ∧ queue.peer = peer := by
  unfold QueuePool.queue
  cases hget : s.table.get peer with
  | some q => exact ⟨h, h.table peer q hget⟩
  | none =>
    have hold : ∀ {q : Nat} {peer' : NodeInfo}, (∃ queue, s.queues[q]? = some queue ∧ queue.peer = peer') →
        ∃ queue, (s.queues ++ [⟨peer, []⟩])[q]? = some queue ∧ queue.peer = peer' :=
      fun ⟨queue, hq, hpeer⟩ => ⟨queue, Base.getElem?_concat_of_some hq, hpeer⟩
    have hlies : ∀ k p, QueuePool.lies { s with
        table := s.table.set peer s.queues.length, queues := s.queues ++ [⟨peer, []⟩] } k p → s.lies k p := by
      rintro k (q | c) hp
      · obtain ⟨queue, hq, hk⟩ := hp
        rcases Base.getElem?_concat_some hq with hq | ⟨-, rfl⟩
        · exact ⟨queue, hq, hk⟩
        · cases hk
      · exact hp
    refine ⟨⟨h.once.mono hlies, ?_, ?_, h.held, h.inbox, h.answers, fun c call hc => hold (h.home c call hc), ?_⟩,
      _, List.getElem?_concat_length, rfl⟩
    · intro q queue hq
      rcases Base.getElem?_concat_some hq with hq | ⟨-, rfl⟩
      · exact h.nodup q queue hq
      · exact List.nodup_nil
    · intro q k queue hq hk
      rcases Base.getElem?_concat_some hq with hq | ⟨-, rfl⟩
      · exact h.idle q k queue hq hk
      · cases hk
    · intro peer' q hq
      rw [Dict.get_set] at hq
      split at hq
      · rename_i hpeer
        subst hpeer
        obtain rfl := Option.some.inj hq
        exact ⟨_, List.getElem?_concat_length, rfl⟩
      · exact hold (h.table peer' q hq)

private theorem newCall (h : s.Paired) {peer : NodeInfo} {msg : Message V τ} {q : Nat}
    (hhome : ∃ queue, s.queues[q]? = some queue ∧ queue.peer = peer) :
    ({ s with calls := s.calls ++ [⟨peer, msg, q, .taking⟩] } : QueuePool V τ).Paired where
  once := by
    apply h.once.mono
    rintro k (q' | c) hp
    · exact hp
    · obtain ⟨call, hc, hk⟩ := hp
      rcases Base.getElem?_concat_some hc with hc | ⟨-, rfl⟩
      · exact ⟨call, hc, hk⟩
      · cases hk
  nodup := h.nodup
  idle := h.idle
  held := by
    intro c k call hc hk
    rcases Base.getElem?_concat_some hc with hc | ⟨-, rfl⟩
    · exact h.held c k call hc hk
    · cases hk
  inbox := h.inbox
  answers := by
    intro c call a hc ha
    rcases Base.getElem?_concat_some hc with hc | ⟨-, rfl⟩
    · exact h.answers c call a hc ha
    · cases ha
  home := by
    intro c call hc
    rcases Base.getElem?_concat_some hc with hc | ⟨-, rfl⟩
    · exact h.home c call hc
    · exact hhome
  table := h.table

theorem call (h : s.Paired) (peer : NodeInfo) (msg : Message V τ) : (s.call peer msg).Paired :=
  (h.queue peer).1.newCall (h.queue peer).2

theorem take (h : s.Paired) (kind : PoolKind) : (s.take kind c).Paired := by
  apply atCall_of h
  intro call hcall
  split
  · rename_i hstage
    have hsub := usable_sublist (s := s) kind call.queue
    split
    · exact (h.shrink (List.nil_sublist _)).leave hcall rfl (Or.inl rfl)
    · rename_i k rest huse
      rw [huse] at hsub
      obtain ⟨queue, hq, hpeer⟩ := h.home c call hcall
      have hidle : s.idle call.queue = queue.conns := by simp [QueuePool.idle, hq]
      have hk : k ∈ queue.conns := hidle ▸ hsub.subset List.mem_cons_self
      have hnodup : (k :: rest).Nodup := (h.nodup _ queue hq).sublist (hidle ▸ hsub)
      refine (h.shrink ((List.sublist_cons_self k rest).trans hsub)).hold hcall true (fun p hp => ?_) ?_
      · -- taken out of its only queue, the connection lies nowhere
        rcases lies_setIdle hp with ⟨-, hrest⟩ | ⟨hne, hold⟩
        · exact (List.nodup_cons.1 hnodup).1 hrest
        · exact hne (h.once k p _ hold ⟨queue, hq, hk⟩)
      · rw [← hpeer]
        exact h.idle _ k queue hq hk
  · exact h

theorem connect (h : s.Paired) (accepted : Bool) : (s.connect c accepted).Paired := by
  apply atCall_of h
  intro call hcall
  split
  · split
    · exact (h.accept call.peer).hold hcall false (h.free_accept call.peer)
        ⟨_, List.getElem?_concat_length, rfl, rfl⟩
    · exact h.leave hcall rfl (Or.inl rfl)
  · exact h

theorem send (h : s.Paired) : (s.send c).Paired := by
  apply atCall_of h
  intro call hcall
  split
  · rename_i k reused hstage
    refine h.work hcall (by rw [hstage]; rfl) rfl (fun _ => rfl) (fun _ _ _ ha => Or.inl ha) ?_
      (fun a ha => by cases ha)
    intro conn _ hout
    have hnone : conn.outstanding = [] := by simpa [PoolCall.pending, hstage] using hout
    show conn.inbox.map Answer.request ++ (conn.sent ++ [⟨c, call.msg⟩]) = _
    rw [← List.append_assoc]
    show conn.outstanding ++ _ = _
    rw [hnone]
    rfl
  · exact h

theorem receive (h : s.Paired) : (s.receive c).Paired := by
  apply atCall_of h
  intro call hcall
  split
  · rename_i k reused hstage
    split
    · exact h
    · rename_i answer rest hinbox
      have hk : call.stage.conn = some k := by rw [hstage]; rfl
      obtain ⟨conn, hconn, hpeer, hout⟩ := h.held c k call hcall hk
      have hin : conn.inbox = answer :: rest := by simpa [hconn] using hinbox
      -- the answer that is read is the one to the request of this call, and nothing comes after it
      have hout : answer.request :: (rest.map Answer.request ++ conn.sent) = [⟨c, call.msg⟩] := by
        simpa [Connection.outstanding, hin, PoolCall.pending, hstage] using hout
      obtain ⟨hrequest, hrest⟩ := List.cons.inj hout
      have honly : ∀ conn', s.conns[k]? = some conn' → conn' = conn :=
        fun conn' h => Option.some.inj (h.symm.trans hconn)
      refine h.work hcall hk rfl (fun _ => rfl) (fun conn' hconn' a ha => Or.inl ?_) (fun conn' hconn' _ => ?_) ?_
      · rw [honly conn' hconn', hin]
        exact List.mem_cons_of_mem _ ha
      · rw [honly conn' hconn']
        exact hrest
      · intro a ha
        obtain rfl := Option.some.inj ha
        exact ⟨(h.inbox k conn hconn answer (by rw [hin]; exact List.mem_cons_self)).trans hpeer, hrequest⟩
  · exact h

theorem abandon (h : s.Paired) (kind : PoolKind) {call : PoolCall V τ} (hcall : s.calls[c]? = some call)
    (reused closeRaises : Bool) : (s.abandon kind c k reused closeRaises).Paired := by
  unfold QueuePool.abandon
  split
  · exact h.close.leave hcall rfl (Or.inl rfl)
  · cases reused with
    | true => exact h.close.leave hcall rfl (Or.inl rfl)
    | false => exact h.close.leave hcall rfl (Or.inl rfl)

theorem fail (h : s.Paired) (kind : PoolKind) (closeRaises : Bool) : (s.fail kind c closeRaises).Paired := by
  apply atCall_of h
  intro call hcall
  split
  · exact h.abandon kind hcall _ closeRaises
  · exact h.abandon kind hcall _ closeRaises
  · exact h

theorem put (h : s.Paired) (kind : PoolKind) (max : Int) (closeRaises closeRaisesAgain : Bool) :
    (s.put kind max c closeRaises closeRaisesAgain).Paired := by
  apply atCall_of h
  intro call hcall
  split
  · rename_i k reused answer hstage
    have hk : call.stage.conn = some k := by rw [hstage]; rfl
    have hanswer : (CallStage.ended (some answer)).answer = call.stage.answer := by rw [hstage]; rfl
    have hended : (s.setStage c (.ended (some answer))).Paired := h.leave hcall rfl (Or.inr hanswer)
    split
    · exact hended
    · split
      · split
        · exact h.abandon kind hcall reused closeRaisesAgain
        · exact h.close.leave hcall rfl (Or.inr hanswer)
      · obtain ⟨queue, hq, hpeer⟩ := h.home c call hcall
        refine hended.push hq (fun p hp => ?_) ?_
        · -- the call held the connection and does so no longer
          rcases lies_setStage hp with ⟨-, hnone⟩ | ⟨hne, hold⟩
          · cases hnone
          · exact hne (h.once k p _ hold ⟨call, hcall, hk⟩)
        · have hcarries := h.held c k call hcall hk
          have hpending : call.pending c = [] := by rw [PoolCall.pending, hstage]
          rw [hpending, ← hpeer] at hcarries
          exact hcarries
  · exact h

theorem cancel (h : s.Paired) (kind : PoolKind) : (s.cancel kind c).Paired := by
  apply atCall_of h
  intro call hcall
  split
  · exact h.leave hcall rfl (Or.inl rfl)
  · exact h.leave hcall rfl (Or.inl rfl)
  · exact h.leave hcall rfl (Or.inl rfl)
  · exact h

theorem answer (h : s.Paired) (response : Option (Message V τ)) : (s.answer k response).Paired := by
  refine h.setConn (fun conn => ?_) (fun conn => ?_) (fun conn _ a ha => ?_)
  · split <;> rfl
  · unfold Connection.outstanding
    split
    · rfl
    · rename_i request rest hsent
      simp [hsent]
  · split at ha
    · exact Or.inl ha
    · rcases List.mem_append.1 ha with ha | ha
      · exact Or.inl ha
      · rw [List.mem_singleton.1 ha]
        exact Or.inr rfl

theorem lose (h : s.Paired) (kind : PoolKind) : (s.lose kind k).Paired := by
  cases kind with
  | blocking => exact h
  | async => exact h.close

theorem drain (h : s.Paired) (raises : Nat → Bool) (q : Nat) {l : List Nat} (hl : s.idle q = l) :
    (QueuePool.drain raises q l s).2.Paired := by
  induction l generalizing s with
  | nil => exact h
  | cons k rest ih =>
    have hnext : ((s.setIdle q rest).close k).Paired := (h.shrink (hl ▸ List.sublist_cons_self k rest)).close
    unfold QueuePool.drain
    split
    · exact hnext
    · exact ih hnext (idle_setIdle (hl ▸ List.mem_cons_self) rest)

theorem closePeer (h : s.Paired) (peer : NodeInfo) (raises : Nat → Bool) : (s.closePeer peer raises).Paired := by
  unfold QueuePool.closePeer
  split
  · exact h
  · refine (h.setTable fun peer' q hq => ?_).drain raises _ rfl
    rw [Dict.get_del] at hq
    split at hq
    · cases hq
    · exact hq

theorem drainAll (h : s.Paired) (kind : PoolKind) (raises : Nat → Bool) (qs : List Nat) :
    (QueuePool.drainAll kind raises qs s).2.Paired := by
  induction qs generalizing s with
  | nil => exact h.setTable nofun
  | cons q rest ih =>
    have hnext := h.drain raises q rfl
    unfold QueuePool.drainAll
    simp only
    split
    · exact hnext
    · exact ih hnext

theorem apply (h : s.Paired) (kind : PoolKind) (max : Int) (e : PoolEvent V τ) : (s.apply kind max e).Paired := by
  cases e with
  | call peer msg => exact h.call peer msg
  | take c => exact h.take kind
  | connect c accepted => exact h.connect accepted
  | send c => exact h.send
  | receive c => exact h.receive
  | fail c closeRaises => exact h.fail kind closeRaises
  | put c closeRaises closeRaisesAgain => exact h.put kind max closeRaises closeRaisesAgain
  | cancel c => exact h.cancel kind
  | answer k response => exact h.answer response
  | lose k => exact h.lose kind
  | closePeer peer raises => exact h.closePeer peer raises
  | closeAll raises => exact h.drainAll kind raises _

theorem after (kind : PoolKind) (max : Int) (run : PoolRun V τ) : (poolAfter kind max run).Paired :=
  after_keeps (P := QueuePool.Paired) Paired.empty (fun _ e h => h.apply kind max e) run

end Paired

end QueuePool

/-- No two calls use a connection, an idle connection is clean and leads to the peer of its queue, and every call gets
the answer to its own message. -/
theorem answers_own_message (kind : PoolKind) (max : Int) (run : PoolRun V τ) :
    let s := poolAfter kind max run
    (∀ (k c c' : Nat), s.lies k (.held c) → s.lies k (.held c') → c = c') ∧
    (∀ (peer : NodeInfo) (q : Nat), s.table.get peer = some q →
      ∃ queue, s.queues[q]? = some queue ∧ queue.peer = peer) ∧
    (∀ (q k : Nat) (queue : IdleQueue), s.queues[q]? = some queue → k ∈ queue.conns →
      (∀ c, ¬ s.lies k (.held c)) ∧
      ∃ conn, s.conns[k]? = some conn ∧ conn.peer = queue.peer ∧ conn.outstanding = []) ∧
    ∀ (c : Nat) (call : PoolCall V τ) (a : Answer V τ), s.calls[c]? = some call → call.stage = .ended (some a) →
      a.peer = call.peer ∧ a.request = ⟨c, call.msg⟩ := by
  intro s
  have h : s.Paired := QueuePool.Paired.after kind max run
  refine ⟨fun k c c' hc hc' => ?_, h.table, fun q k queue hq hk => ⟨fun c hc => ?_, h.idle q k queue hq hk⟩, ?_⟩
  · exact QueuePool.Place.held.inj (h.once k _ _ hc hc')
  · exact QueuePool.Place.noConfusion (h.once k (.held c) (.idle q) hc ⟨queue, hq, hk⟩)
  · intro c call a hc hstage
    exact h.answers c call a hc (by rw [hstage]; rfl)

end DLStorage
