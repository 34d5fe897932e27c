import DLStorage.ConnectionPool.Pairing

/-!
# What a queue pool closes

Every open connection is with a call or in a queue of the table (`Accounted`), so that `close_all` closes whatever the
pool has opened.  This lasts for as long as no event loses a connection (`LosesNothing`).  Four do: a call puts its
connection into a queue that has been taken from the table meanwhile; `close_peer`, or `close_all` of the blocking pool,
drains a queue up to a `close()` that raises, and then drops the queue; a call is cancelled while it has a connection.
-/

namespace DLStorage

open Base (Dict after_append after_invariant)

variable {V τ : Type}

namespace QueuePool

variable (s : QueuePool V τ)

/-- The queues of the table. -/
def Tabled (q : Nat) : Prop := ∃ peer, s.table.get peer = some q

/-- Every open connection is held by a call or idle in one of the queues. -/
def AccountedIn (queues : Nat → Prop) : Prop :=
  ∀ k, s.isOpen k = true → (∃ c, s.lies k (.held c)) ∨ ∃ q, queues q ∧ s.lies k (.idle q)

/-- Every open connection is held by a call or idle in a queue of the table. -/
def Accounted : Prop := s.AccountedIn s.Tabled

/-- All connections of queue `q` are closed. -/
def Spent (q : Nat) : Prop := ∀ k ∈ s.idle q, s.isOpen k = false

/-- What is left of a queue by a loop that stops after the first `close()` that raises. -/
def left (raises : Nat → Bool) : List Nat → List Nat
  | [] => []
  | k :: rest => if raises k then rest else left raises rest

/-- The event loses no open connection. -/
def LosesNothing (kind : PoolKind) (max : Int) : PoolEvent V τ → Prop
  | .put c _ _ => ∀ (call : PoolCall V τ) (k : Nat) (reused : Bool) (answer : Answer V τ), s.calls[c]? = some call →
      call.stage = .returning k reused answer →
      kind = .async ∧ s.isOpen k = false ∨ full max (s.idle call.queue).length = true ∨ s.Tabled call.queue
  | .cancel c => kind = .async → ∀ (call : PoolCall V τ) (k : Nat) (reused : Bool), s.calls[c]? = some call →
      call.stage = .sending k reused ∨ call.stage = .awaiting k reused → s.isOpen k = false
  | .closePeer peer raises => ∀ q, s.table.get peer = some q → ∀ k ∈ left raises (s.idle q), s.isOpen k = false
  | .closeAll raises => kind = .blocking → ∀ q, s.Tabled q → ∀ k ∈ left raises (s.idle q), s.isOpen k = false
  | .call _ _ | .take _ | .connect _ _ | .send _ | .receive _ | .fail _ _ | .answer _ _ | .lose _ => True

variable {s}

/-! ### Operations -/

section Operations

variable {c k k' q q' : Nat} {call : PoolCall V τ} {stage : CallStage V τ} {l : List Nat} {T T' : Nat → Prop}
  {f : Connection V τ → Connection V τ}

theorem lies_idle_iff : s.lies k (.idle q) ↔ k ∈ s.idle q := by
  unfold idle
  constructor
  · rintro ⟨queue, hq, hk⟩
    rw [hq]
    exact hk
  · intro hk
    cases hq : s.queues[q]? with
    | none =>
      rw [hq] at hk
      cases hk
    | some queue =>
      rw [hq] at hk
      exact ⟨queue, hq, hk⟩

theorem isOpen_setConn (hf : ∀ conn, (f conn).isOpen = conn.isOpen) : (s.setConn k f).isOpen k' = s.isOpen k' := by
  show ((s.conns.modify k f)[k']?).any Connection.isOpen = (s.conns[k']?).any Connection.isOpen
  rw [List.getElem?_modify]
  cases s.conns[k']? with
  | none => rfl
  | some conn =>
    by_cases hk : k = k'
    · simp [hk, hf]
    · simp [hk]

theorem isOpen_close : (s.close k).isOpen k' = (decide (k' ≠ k) && s.isOpen k') := by
  show ((s.conns.modify k _)[k']?).any Connection.isOpen = (decide (k' ≠ k) && (s.conns[k']?).any Connection.isOpen)
  rw [List.getElem?_modify]
  cases s.conns[k']? with
  | none => simp
  | some conn =>
    by_cases hk : k = k'
    · simp [hk]
    · simp [hk, Ne.symm hk]

theorem isOpen_of_close (h : (s.close k).isOpen k' = true) : s.isOpen k' = true := by
  rw [isOpen_close, Bool.and_eq_true] at h
  exact h.2

theorem isOpen_close_self : (s.close k).isOpen k = false := by
  rw [isOpen_close]
  simp

theorem idle_setIdle_ne (hq : q' ≠ q) : (s.setIdle q l).idle q' = s.idle q' := by
  show ((s.queues.modify q _)[q']?.map IdleQueue.conns).getD [] = _
  rw [List.getElem?_modify_ne _ _ (Ne.symm hq)]
  rfl

theorem lies_setStage_of_ne (h : s.lies k (.held q)) (hq : q ≠ c) : (s.setStage c stage).lies k (.held q) := by
  obtain ⟨call, hcall, hk⟩ := h
  exact ⟨call, (List.getElem?_modify_ne _ _ (Ne.symm hq)).trans hcall, hk⟩

theorem lies_setStage_self (hcall : s.calls[c]? = some call) (hk : stage.conn = some k) :
    (s.setStage c stage).lies k (.held c) :=
  ⟨_, Base.getElem?_modify_of_some hcall, hk⟩

namespace AccountedIn

theorem mono (h : s.AccountedIn T) (hT : ∀ q, T q → T' q) : s.AccountedIn T' := by
  intro k hk
  rcases h k hk with hheld | ⟨q, hq, hidle⟩
  · exact Or.inl hheld
  · exact Or.inr ⟨q, hT q hq, hidle⟩

theorem setConn (h : s.AccountedIn T) (hf : ∀ conn, (f conn).isOpen = conn.isOpen) : (s.setConn k f).AccountedIn T :=
  fun k' hk => h k' (isOpen_setConn hf ▸ hk)

theorem close (h : s.AccountedIn T) : (s.close k).AccountedIn T := fun k' hk => h k' (isOpen_of_close hk)

/-- A call goes on with its connection, or leaves it closed or in a queue. -/
theorem setStage (h : s.AccountedIn T) (hcall : s.calls[c]? = some call)
    (hconn : ∀ k, call.stage.conn = some k → s.isOpen k = true →
      stage.conn = some k ∨ ∃ q, T q ∧ s.lies k (.idle q)) : (s.setStage c stage).AccountedIn T := by
  intro k hk
  rcases h k hk with ⟨c', hheld⟩ | hidle
  · by_cases hc : c' = c
    · subst hc
      obtain ⟨call', hcall', hk'⟩ := hheld
      obtain rfl : call = call' := Option.some.inj (hcall.symm.trans hcall')
      rcases hconn k hk' hk with hstage | hidle
      · exact Or.inl ⟨c', lies_setStage_self hcall hstage⟩
      · exact Or.inr hidle
    · exact Or.inl ⟨c', lies_setStage_of_ne hheld hc⟩
  · exact Or.inr hidle

/-- The open connections that leave a queue are held by calls. -/
theorem setIdle (h : s.AccountedIn T)
    (hl : ∀ k ∈ s.idle q, s.isOpen k = true → k ∈ (s.setIdle q l).idle q ∨ ∃ c, s.lies k (.held c)) :
    (s.setIdle q l).AccountedIn T := by
  intro k hk
  rcases h k hk with hheld | ⟨q', hT, hidle⟩
  · exact Or.inl hheld
  · by_cases hq : q' = q
    · subst hq
      rcases hl k (lies_idle_iff.1 hidle) hk with hmem | hheld
      · exact Or.inr ⟨q', hT, lies_idle_iff.2 hmem⟩
      · exact Or.inl hheld
    · refine Or.inr ⟨q', hT, lies_idle_iff.2 ?_⟩
      rw [idle_setIdle_ne hq]
      exact lies_idle_iff.1 hidle

theorem accept (h : s.AccountedIn T) {peer : NodeInfo} (hheld : ∃ c, s.lies s.conns.length (.held c)) :
    (s.accept peer).AccountedIn T := by
  intro k hk
  unfold isOpen at hk
  rw [Option.any_eq_true] at hk
  obtain ⟨conn, hconn, hopen⟩ := hk
  rcases Base.getElem?_concat_some hconn with hold | ⟨rfl, -⟩
  · exact h k ((Option.any_eq_true _ _).2 ⟨conn, hold, hopen⟩)
  · exact Or.inl hheld

end AccountedIn

end Operations

/-! ### Draining queues -/

section Draining

variable {k q q' : Nat} {l : List Nat} {raises : Nat → Bool} {T : Nat → Prop}

theorem left_sublist (raises : Nat → Bool) (l : List Nat) : (left raises l).Sublist l := by
  induction l with
  | nil => exact List.Sublist.refl _
  | cons k rest ih =>
    unfold left
    split
    · exact List.sublist_cons_self k rest
    · exact ih.cons k

theorem left_of_never (l : List Nat) : left (fun _ => false) l = [] := by
  induction l with
  | nil => rfl
  | cons k rest ih => exact ih

theorem idle_drain (hl : s.idle q = l) : (drain raises q l s).2.idle q = left raises l := by
  induction l generalizing s with
  | nil => exact hl
  | cons k rest ih =>
    have hnext : ((s.setIdle q rest).close k).idle q = rest := idle_setIdle (hl ▸ List.mem_cons_self) rest
    unfold drain left
    simp only
    split
    · exact hnext
    · exact ih hnext

theorem idle_drain_ne (hq : q' ≠ q) : (drain raises q l s).2.idle q' = s.idle q' := by
  induction l generalizing s with
  | nil => rfl
  | cons k rest ih =>
    have hnext : ((s.setIdle q rest).close k).idle q' = s.idle q' := idle_setIdle_ne hq
    unfold drain
    simp only
    split
    · exact hnext
    · exact ih.trans hnext

theorem isOpen_of_drain (h : (drain raises q l s).2.isOpen k = true) : s.isOpen k = true := by
  induction l generalizing s with
  | nil => exact h
  | cons k' rest ih =>
    unfold drain at h
    simp only at h
    split at h
    · exact isOpen_of_close (s := s.setIdle q rest) h
    · exact isOpen_of_close (s := s.setIdle q rest) (ih h)

/-- A loop that does not raise empties the queue. -/
theorem left_of_not_raised (h : (drain raises q l s).1 = false) : left raises l = [] := by
  induction l generalizing s with
  | nil => rfl
  | cons k rest ih =>
    unfold drain at h
    simp only at h
    unfold left
    split at h
    · cases h
    · rename_i hk
      rw [if_neg hk]
      exact ih h

theorem AccountedIn.drain (h : s.AccountedIn T) (hl : s.idle q = l) : (drain raises q l s).2.AccountedIn T := by
  induction l generalizing s with
  | nil => exact h
  | cons k rest ih =>
    have hrest : ((s.setIdle q rest).close k).idle q = rest := idle_setIdle (hl ▸ List.mem_cons_self) rest
    have hnext : ((s.setIdle q rest).close k).AccountedIn T := by
      -- closed, the connection need not be anywhere
      show ((s.close k).setIdle q rest).AccountedIn T
      refine h.close.setIdle fun k' hk' hopen => Or.inl ?_
      have hmem : k' ∈ k :: rest := hl ▸ hk'
      show k' ∈ ((s.setIdle q rest).close k).idle q
      rw [hrest]
      rcases List.mem_cons.1 hmem with rfl | hmem
      · rw [isOpen_close_self] at hopen
        cases hopen
      · exact hmem
    unfold QueuePool.drain
    simp only
    split
    · exact hnext
    · exact ih hnext hrest

theorem closed_drain (h : s.isOpen k = false) : (QueuePool.drain raises q l s).2.isOpen k = false := by
  by_contra hopen
  rw [Bool.not_eq_false] at hopen
  rw [isOpen_of_drain hopen] at h
  cases h

/-- A queue all of whose connections have been closed stays so. -/
theorem Spent.drain (h : s.Spent q') : (QueuePool.drain raises q (s.idle q) s).2.Spent q' := by
  intro k hk
  apply closed_drain
  apply h k
  by_cases hq : q' = q
  · subst hq
    rw [idle_drain rfl] at hk
    exact (left_sublist raises _).subset hk
  · rwa [idle_drain_ne hq] at hk

/-- A queue is spent by a loop that leaves no open connection. -/
theorem spent_drain (h : ∀ k ∈ left raises (s.idle q), s.isOpen k = false) :
    (QueuePool.drain raises q (s.idle q) s).2.Spent q := by
  intro k hk
  rw [idle_drain rfl] at hk
  exact closed_drain (h k hk)

/-- Either the loop over the queues raises and the table stays, or all that is open is held by calls. -/
theorem AccountedIn.drainAll {kind : PoolKind} {qs : List Nat} (h : s.AccountedIn T)
    (hT : ∀ q, T q → q ∈ qs ∨ s.Spent q)
    (hleft : kind = .blocking → ∀ q ∈ qs, ∀ k ∈ left raises (s.idle q), s.isOpen k = false) :
    (QueuePool.drainAll kind raises qs s).1 = true ∧ (QueuePool.drainAll kind raises qs s).2.table = s.table ∧
        (QueuePool.drainAll kind raises qs s).2.AccountedIn T ∨
      (QueuePool.drainAll kind raises qs s).1 = false ∧ (QueuePool.drainAll kind raises qs s).2.table = Dict.empty ∧
        (QueuePool.drainAll kind raises qs s).2.AccountedIn fun _ => False := by
  induction qs generalizing s with
  | nil =>
    refine Or.inr ⟨rfl, rfl, fun k hk => ?_⟩
    rcases h k hk with hheld | ⟨q, hq, hidle⟩
    · exact Or.inl hheld
    · have hspent : s.Spent q := (hT q hq).resolve_left (List.not_mem_nil)
      have hclosed := hspent k (lies_idle_iff.1 hidle)
      rw [show s.isOpen k = true from hk] at hclosed
      cases hclosed
  | cons q rest ih =>
    have hdrain : (QueuePool.drain raises q (s.idle q) s).2.AccountedIn T := h.drain rfl
    unfold QueuePool.drainAll
    simp only
    split
    · exact Or.inl ⟨rfl, (drain_frame ..).1, hdrain⟩
    · rename_i hgoes
      have hspent : (QueuePool.drain raises q (s.idle q) s).2.Spent q := by
        apply spent_drain
        cases kind with
        | blocking => exact hleft rfl q List.mem_cons_self
        | async =>
          rw [left_of_not_raised (by simpa using hgoes)]
          intro k hk
          cases hk
      have hih := ih hdrain (fun q' hq' => ?_) (fun hkind q' hq' k hk => ?_)
      · rw [(drain_frame ..).1] at hih
        exact hih
      · rcases hT q' hq' with hmem | hold
        · rcases List.mem_cons.1 hmem with rfl | hmem
          · exact Or.inr hspent
          · exact Or.inl hmem
        · exact Or.inr hold.drain
      · by_cases hq : q' = q
        · subst hq
          exact hspent k ((left_sublist raises _).subset hk)
        · rw [idle_drain_ne hq] at hk
          exact closed_drain (hleft hkind q' (List.mem_cons_of_mem _ hq') k hk)

end Draining

/-! ### Events -/

namespace Accounted

variable {c k : Nat}

theorem empty : (empty : QueuePool V τ).Accounted := by
  intro k hk
  simp [QueuePool.empty, isOpen] at hk

private theorem queue (h : s.Accounted) (peer : NodeInfo) : (s.queue peer).2.Accounted := by
  unfold QueuePool.queue
  cases hget : s.table.get peer with
  | some q => exact h
  | none =>
    intro k hk
    rcases h k hk with hheld | ⟨q, ⟨peer', hq⟩, queue, hqueue, hmem⟩
    · exact Or.inl hheld
    · have hpeer : peer' ≠ peer := by
        rintro rfl
        rw [hget] at hq
        cases hq
      refine Or.inr ⟨q, ⟨peer', ?_⟩, queue, Base.getElem?_concat_of_some hqueue, hmem⟩
      show (s.table.set peer s.queues.length).get peer' = some q
      rw [Dict.get_set, if_neg hpeer]
      exact hq

theorem call (h : s.Accounted) (peer : NodeInfo) (msg : Message V τ) : (s.call peer msg).Accounted := by
  intro k hk
  rcases h.queue peer k hk with ⟨c, call, hcall, hconn⟩ | hidle
  · exact Or.inl ⟨c, call, Base.getElem?_concat_of_some hcall, hconn⟩
  · exact Or.inr hidle

/-- A connection keeps its place with the call, or is closed. -/
private theorem abandon (h : s.Accounted) (kind : PoolKind) {call : PoolCall V τ} (hcall : s.calls[c]? = some call)
    (hk : call.stage.conn = some k) (reused closeRaises : Bool) :
    (s.abandon kind c k reused closeRaises).Accounted := by
  refine AccountedIn.setStage (s := s.close k) h.close hcall fun k' hk' hopen => ?_
  obtain rfl : k = k' := Option.some.inj (hk.symm.trans hk')
  rw [isOpen_close_self] at hopen
  cases hopen

/-- An async pool discards closed connections only. -/
private theorem mem_usable (kind : PoolKind) {q : Nat} (hk : k ∈ s.idle q) (hopen : s.isOpen k = true) :
    k ∈ s.usable kind q := by
  cases kind with
  | blocking => exact hk
  | async =>
    show k ∈ (s.idle q).dropWhile _
    rw [← List.takeWhile_append_dropWhile (p := fun k => !s.isOpen k) (l := s.idle q), List.mem_append] at hk
    rcases hk with hk | hk
    · have := List.mem_takeWhile_imp hk
      simp [hopen] at this
    · exact hk

theorem take (h : s.Accounted) (kind : PoolKind) : (s.take kind c).Accounted := by
  apply atCall_of h
  intro call hcall
  split
  · rename_i hstage
    have hnone : ∀ k, call.stage.conn ≠ some k := by rw [hstage]; exact nofun
    split
    · rename_i huse
      show ((s.setStage c .connecting).setIdle call.queue []).Accounted
      refine AccountedIn.setIdle (AccountedIn.setStage h hcall fun k hk => absurd hk (hnone k)) fun k' hk' hopen => ?_
      have hmem : k' ∈ s.usable kind call.queue := mem_usable kind hk' hopen
      rw [huse] at hmem
      cases hmem
    · rename_i k rest huse
      show ((s.setStage c (.sending k true)).setIdle call.queue rest).Accounted
      refine AccountedIn.setIdle (AccountedIn.setStage h hcall fun k hk => absurd hk (hnone k)) fun k' hk' hopen => ?_
      have hmem : k' ∈ s.usable kind call.queue := mem_usable kind hk' hopen
      rw [huse] at hmem
      rcases List.mem_cons.1 hmem with rfl | hmem
      · exact Or.inr ⟨c, lies_setStage_self hcall rfl⟩
      · rw [idle_setIdle hk']
        exact Or.inl hmem
  · exact h

theorem connect (h : s.Accounted) (accepted : Bool) : (s.connect c accepted).Accounted := by
  apply atCall_of h
  intro call hcall
  split
  · rename_i hstage
    have hnone : ∀ k, call.stage.conn ≠ some k := by rw [hstage]; exact nofun
    split
    · exact AccountedIn.accept (s := s.setStage c (.sending s.conns.length false))
        (AccountedIn.setStage h hcall fun k hk => absurd hk (hnone k)) ⟨c, lies_setStage_self hcall rfl⟩
    · exact AccountedIn.setStage h hcall fun k hk => absurd hk (hnone k)
  · exact h

theorem send (h : s.Accounted) : (s.send c).Accounted := by
  apply atCall_of h
  intro call hcall
  split
  · rename_i k reused hstage
    refine AccountedIn.setStage (s := s.setConn k _) (h.setConn fun _ => rfl) hcall fun k' hk' _ => Or.inl ?_
    rw [hstage] at hk'
    exact hk'
  · exact h

theorem receive (h : s.Accounted) : (s.receive c).Accounted := by
  apply atCall_of h
  intro call hcall
  split
  · rename_i k reused hstage
    split
    · exact h
    · refine AccountedIn.setStage (s := s.setConn k _) (h.setConn fun _ => rfl) hcall fun k' hk' _ => Or.inl ?_
      rw [hstage] at hk'
      exact hk'
  · exact h

theorem fail (h : s.Accounted) (kind : PoolKind) (closeRaises : Bool) : (s.fail kind c closeRaises).Accounted := by
  apply atCall_of h
  intro call hcall
  split
  · rename_i hstage
    exact h.abandon kind hcall (by rw [hstage]; rfl) _ closeRaises
  · rename_i hstage
    exact h.abandon kind hcall (by rw [hstage]; rfl) _ closeRaises
  · exact h

theorem put (h : s.Accounted) (hp : s.Paired) {kind : PoolKind} {max : Int} {closeRaises closeRaisesAgain : Bool}
    (hkeeps : s.LosesNothing kind max (.put c closeRaises closeRaisesAgain)) :
    (s.put kind max c closeRaises closeRaisesAgain).Accounted := by
  apply atCall_of h
  intro call hcall
  split
  · rename_i k reused answer hstage
    have hk : call.stage.conn = some k := by rw [hstage]; rfl
    split
    · rename_i hclosed
      refine AccountedIn.setStage h hcall fun k' hk' hopen => ?_
      obtain rfl : k = k' := Option.some.inj (hk.symm.trans hk')
      rw [hclosed.2] at hopen
      cases hopen
    · rename_i hopen
      split
      · split
        · exact h.abandon kind hcall hk reused closeRaisesAgain
        · refine AccountedIn.setStage (s := s.close k) h.close hcall fun k' hk' hopen => ?_
          obtain rfl : k = k' := Option.some.inj (hk.symm.trans hk')
          rw [isOpen_close_self] at hopen
          cases hopen
      · rename_i hfull
        have htabled : s.Tabled call.queue := by
          rcases hkeeps call k reused answer hcall hstage with hclosed | hfull' | htabled
          · exact absurd hclosed hopen
          · exact absurd hfull' hfull
          · exact htabled
        show ((s.setIdle call.queue (k :: s.idle call.queue)).setStage c (.ended (some answer))).Accounted
        refine AccountedIn.setStage (AccountedIn.setIdle h fun k' hk' _ => Or.inl ?_) hcall
          fun k' hk' _ => Or.inr ⟨call.queue, htabled, ?_⟩
        · rw [idle_setIdle hk']
          exact List.mem_cons_of_mem k hk'
        · obtain rfl : k = k' := Option.some.inj (hk.symm.trans hk')
          obtain ⟨queue, hq, -⟩ := hp.home c call hcall
          exact ⟨_, Base.getElem?_modify_of_some hq, List.mem_cons_self⟩
  · exact h

theorem cancel (h : s.Accounted) {kind : PoolKind} {max : Int} (hkeeps : s.LosesNothing kind max (.cancel c)) :
    (s.cancel kind c).Accounted := by
  apply atCall_of h
  intro call hcall
  have hclosed : kind = .async → ∀ k reused, call.stage = .sending k reused ∨ call.stage = .awaiting k reused →
      ∀ k', call.stage.conn = some k' → s.isOpen k' = true → False := by
    rintro hkind k reused hstage k' hk' hopen
    have hk : call.stage.conn = some k := by rcases hstage with hstage | hstage <;> rw [hstage] <;> rfl
    obtain rfl : k = k' := Option.some.inj (hk.symm.trans hk')
    rw [hkeeps hkind call k reused hcall hstage] at hopen
    cases hopen
  split
  · rename_i hstage
    refine AccountedIn.setStage h hcall fun k' hk' _ => ?_
    rw [hstage] at hk'
    cases hk'
  · rename_i k reused hstage
    exact AccountedIn.setStage h hcall fun k' hk' hopen => (hclosed rfl k reused (Or.inl hstage) k' hk' hopen).elim
  · rename_i k reused hstage
    exact AccountedIn.setStage h hcall fun k' hk' hopen => (hclosed rfl k reused (Or.inr hstage) k' hk' hopen).elim
  · exact h

theorem answer (h : s.Accounted) (response : Option (Message V τ)) : (s.answer k response).Accounted := by
  refine h.setConn fun conn => ?_
  split <;> rfl

theorem lose (h : s.Accounted) (kind : PoolKind) : (s.lose kind k).Accounted := by
  cases kind with
  | blocking => exact h
  | async => exact h.close

theorem closePeer (h : s.Accounted) {kind : PoolKind} {max : Int} {peer : NodeInfo} {raises : Nat → Bool}
    (hkeeps : s.LosesNothing kind max (.closePeer peer raises)) : (s.closePeer peer raises).Accounted := by
  unfold QueuePool.closePeer
  split
  · exact h
  · rename_i q hq
    intro k hk
    have hdrain : (drain raises q (s.idle q) { s with table := s.table.del peer }).2.AccountedIn s.Tabled :=
      AccountedIn.drain (s := { s with table := s.table.del peer }) h rfl
    rcases hdrain k hk with hheld | ⟨q', ⟨peer', hq'⟩, hidle⟩
    · exact Or.inl hheld
    · by_cases hqq : q' = q
      · subst hqq
        have hleft : k ∈ left raises (s.idle q') := by
          have hafter : (drain raises q' (s.idle q') { s with table := s.table.del peer }).2.idle q' =
              left raises (s.idle q') := idle_drain rfl
          exact hafter ▸ lies_idle_iff.1 hidle
        have hopen : s.isOpen k = true := isOpen_of_drain (s := { s with table := s.table.del peer }) hk
        rw [hkeeps q' hq k hleft] at hopen
        cases hopen
      · refine Or.inr ⟨q', ⟨peer', ?_⟩, hidle⟩
        have hpeer : peer' ≠ peer := by
          rintro rfl
          exact hqq (Option.some.inj (hq'.symm.trans hq))
        rw [(drain_frame ..).1]
        exact (Dict.get_del_of_ne _ hpeer).trans hq'

/-- `close_all` leaves open what calls hold, if it returns; if it raises, the table stays. -/
theorem closeAll (h : s.Accounted) {kind : PoolKind} {max : Int} {raises : Nat → Bool}
    (hkeeps : s.LosesNothing kind max (.closeAll raises)) :
    (s.closeAll kind raises).2.Accounted ∧
      ((s.closeAll kind raises).1 = false → (s.closeAll kind raises).2.table = Dict.empty) := by
  have hT : ∀ q, s.Tabled q → q ∈ s.table.items.map Prod.snd ∨ s.Spent q :=
    fun q ⟨peer, hq⟩ => Or.inl (List.mem_map.2 ⟨(peer, q), (Dict.mem_items_iff _).2 hq, rfl⟩)
  have hleft : kind = .blocking → ∀ q ∈ s.table.items.map Prod.snd, ∀ k ∈ left raises (s.idle q),
      s.isOpen k = false := by
    intro hkind q hq
    obtain ⟨⟨peer, q⟩, hmem, rfl⟩ := List.mem_map.1 hq
    exact hkeeps hkind q ⟨peer, (Dict.mem_items_iff _).1 hmem⟩
  rcases AccountedIn.drainAll h hT hleft with ⟨hraises, htable, hin⟩ | ⟨-, htable, hin⟩
  · refine ⟨hin.mono fun q ⟨peer, hq⟩ => ⟨peer, htable ▸ hq⟩, fun hreturns => ?_⟩
    rw [show (s.closeAll kind raises).1 = true from hraises] at hreturns
    cases hreturns
  · exact ⟨hin.mono nofun, fun _ => htable⟩

theorem apply (h : s.Accounted) (hp : s.Paired) {kind : PoolKind} {max : Int} {e : PoolEvent V τ}
    (hkeeps : s.LosesNothing kind max e) : (s.apply kind max e).Accounted := by
  cases e with
  | call peer msg => exact h.call peer msg
  | take c => exact h.take kind
  | connect c accepted => exact h.connect accepted
  | send c => exact h.send
  | receive c => exact h.receive
  | fail c closeRaises => exact h.fail kind closeRaises
  | put c closeRaises closeRaisesAgain => exact h.put hp hkeeps
  | cancel c => exact h.cancel hkeeps
  | answer k response => exact h.answer response
  | lose k => exact h.lose kind
  | closePeer peer raises => exact h.closePeer hkeeps
  | closeAll raises => exact (h.closeAll hkeeps).1

end Accounted

/-- Only a call of `execute` fills the table. -/
theorem table_apply {kind : PoolKind} {max : Int} {e : PoolEvent V τ} (he : ∀ peer msg, e ≠ .call peer msg)
    (h : s.table = Dict.empty) : (s.apply kind max e).table = Dict.empty := by
  cases e with
  | call peer msg => exact absurd rfl (he peer msg)
  | take c => exact (OwnStep.take s c kind).table.trans h
  | connect c accepted => exact (OwnStep.connect s c accepted).table.trans h
  | send c => exact (OwnStep.send s c).table.trans h
  | receive c => exact (OwnStep.receive s c).table.trans h
  | fail c closeRaises => exact (OwnStep.fail s c kind closeRaises).table.trans h
  | put c closeRaises closeRaisesAgain => exact (OwnStep.put s c kind max closeRaises closeRaisesAgain).table.trans h
  | cancel c => exact (OwnStep.cancel s c kind).table.trans h
  | answer k response => exact h
  | lose k => cases kind <;> exact h
  | closePeer peer raises =>
    show (s.closePeer peer raises).table = _
    unfold closePeer
    rw [h]
    exact h
  | closeAll raises =>
    show (s.closeAll kind raises).2.table = _
    unfold closeAll
    rw [h]
    rfl

end QueuePool

/-- `close_all` has returned, no call has begun since then, and none is under way. -/
def ClosedDown (kind : PoolKind) (max : Int) (run : PoolRun V τ) : Prop :=
  ∃ pre raises post, run = pre ++ .closeAll raises :: post ∧
    ((poolAfter kind max pre).closeAll kind raises).1 = false ∧ (∀ peer msg, .call peer msg ∉ post) ∧
    ∀ (c : Nat) (call : PoolCall V τ), (poolAfter kind max run).calls[c]? = some call → call.stage.isOver = true

private theorem accounted_after {kind : PoolKind} {max : Int} {run : PoolRun V τ}
    (hrun : ∀ pre e post, run = pre ++ e :: post → (poolAfter kind max pre).LosesNothing kind max e) :
    (poolAfter kind max run).Accounted :=
  after_invariant (P := fun _ (s : QueuePool V τ) => s.Accounted)
    (C := fun pre e => (poolAfter kind max pre).LosesNothing kind max e) QueuePool.Accounted.empty
    (fun pre _ hkeeps h => h.apply (QueuePool.Paired.after kind max pre) hkeeps) hrun

/-- The table stays empty after `close_all`, until a call begins. -/
private theorem table_of_closedDown {kind : PoolKind} {max : Int} {run : PoolRun V τ}
    (hrun : ∀ pre e post, run = pre ++ e :: post → (poolAfter kind max pre).LosesNothing kind max e)
    (h : ClosedDown kind max run) : (poolAfter kind max run).table = Dict.empty := by
  obtain ⟨pre, raises, post, rfl, hreturns, hpost, -⟩ := h
  have hpre : (poolAfter kind max pre).Accounted :=
    accounted_after fun pre' e post' h => hrun pre' e (post' ++ .closeAll raises :: post) (by rw [h]; simp)
  have hclosed := (hpre.closeAll (hrun pre _ post rfl)).2 hreturns
  unfold poolAfter
  rw [after_append]
  exact after_invariant (P := fun _ (s : QueuePool V τ) => s.table = Dict.empty)
    (C := fun _ e => ∀ peer msg, e ≠ .call peer msg) hclosed
    (fun _ _ he h => QueuePool.table_apply he h)
    fun pre' e post' h peer msg he => hpost peer msg (by rw [h, he]; simp)

/-- While no connection is lost, every open one is with a call or in a queue of the table, and `close_all` closes what
no call holds. -/
theorem closed_after_closeAll (kind : PoolKind) (max : Int) (run : PoolRun V τ)
    (hrun : ∀ pre e post, run = pre ++ e :: post → (poolAfter kind max pre).LosesNothing kind max e) :
    (poolAfter kind max run).Accounted ∧
      (ClosedDown kind max run → ∀ k, (poolAfter kind max run).isOpen k = false) := by
  have hacc := accounted_after hrun
  refine ⟨hacc, fun hdown k => ?_⟩
  have htable := table_of_closedDown hrun hdown
  obtain ⟨-, -, -, -, -, -, hover⟩ := hdown
  by_contra hopen
  rw [Bool.not_eq_false] at hopen
  rcases hacc k hopen with ⟨c, call, hcall, hk⟩ | ⟨q, ⟨peer, hq⟩, -⟩
  · rw [CallStage.conn_of_isOver (hover c call hcall)] at hk
    cases hk
  · rw [htable] at hq
    cases hq

/-- A call of `execute` comes to its end, and the pool is closed. -/
def servedRun : PoolRun Nat Int :=
  [.call ⟨"localhost", 7001⟩ { type := .ping }, .take 0, .connect 0 true, .send 0,
    .answer 0 (some { type := .pong }), .receive 0, .put 0 false false, .closeAll fun _ => false]

private theorem over_of_map {calls : List (PoolCall V τ)} {c : Nat} {call : PoolCall V τ}
    (h : calls.map (fun call => call.stage.isOver) = [true]) (hcall : calls[c]? = some call) :
    call.stage.isOver = true := by
  have hmem := List.mem_map_of_mem (f := fun call : PoolCall V τ => call.stage.isOver) (List.mem_of_getElem? hcall)
  rw [h] at hmem
  exact List.mem_singleton.1 hmem

private theorem servedRun_loses_nothing (kind : PoolKind) {pre post : PoolRun Nat Int} {e : PoolEvent Nat Int}
    (h : servedRun = pre ++ e :: post) : (poolAfter kind 5 pre).LosesNothing kind 5 e := by
  refine Base.forall_splits (C := fun pre e => (poolAfter kind 5 pre).LosesNothing kind 5 e) (fun i hi => ?_) h
  match i, hi with
  | 0, _ | 1, _ | 2, _ | 3, _ | 4, _ | 5, _ => trivial
  | 6, _ =>
    intro call k reused answer hcall _
    have hqueue : ((poolAfter kind 5 (servedRun.take 6)).calls[0]?).map PoolCall.queue = some 0 := by
      cases kind <;> decide +kernel
    have htable : (poolAfter kind 5 (servedRun.take 6)).table.get ⟨"localhost", 7001⟩ = some 0 := by
      cases kind <;> decide +kernel
    rw [show (poolAfter kind 5 (servedRun.take 6)).calls[0]? = some call from hcall] at hqueue
    refine Or.inr (Or.inr ⟨⟨"localhost", 7001⟩, ?_⟩)
    rw [show call.queue = 0 from Option.some.inj hqueue]
    exact htable
  | 7, _ =>
    intro _ q _ k hk
    rw [QueuePool.left_of_never] at hk
    cases hk

theorem servedRun_closed :
    (poolAfter .async 5 servedRun).Accounted ∧ (poolAfter .async 5 servedRun).isOpen 0 = false := by
  have h := closed_after_closeAll .async 5 servedRun fun _ _ _ => servedRun_loses_nothing .async
  refine ⟨h.1, h.2 ⟨servedRun.take 7, _, [], rfl, by decide +kernel, fun _ _ => List.not_mem_nil, ?_⟩ 0⟩
  intro c call hcall
  have hstages : (poolAfter .async 5 servedRun).calls.map (fun call => call.stage.isOver) = [true] := by decide +kernel
  exact over_of_map hstages hcall

/-- The peer is evicted while a call waits for its answer. -/
def evictedWhileServed : PoolRun Nat Int :=
  [.call ⟨"localhost", 7001⟩ { type := .ping }, .take 0, .connect 0 true, .send 0,
    .closePeer ⟨"localhost", 7001⟩ fun _ => false, .answer 0 (some { type := .pong }), .receive 0, .put 0 false false,
    .closeAll fun _ => false]

private theorem evictedWhileServed_open (kind : PoolKind) :
    ¬ (poolAfter kind 5 (evictedWhileServed.take 8)).Accounted ∧
      ClosedDown kind 5 evictedWhileServed ∧ (poolAfter kind 5 evictedWhileServed).isOpen 0 = true := by
  refine ⟨fun h => ?_, ⟨evictedWhileServed.take 8, _, [], rfl, ?_, fun _ _ => List.not_mem_nil, ?_⟩, ?_⟩
  · have hopen : (poolAfter kind 5 (evictedWhileServed.take 8)).isOpen 0 = true := by cases kind <;> decide +kernel
    have hover : (poolAfter kind 5 (evictedWhileServed.take 8)).calls.map (fun call => call.stage.isOver) = [true] := by
      cases kind <;> decide +kernel
    have hitems : (poolAfter kind 5 (evictedWhileServed.take 8)).table.items = [] := by cases kind <;> decide +kernel
    rcases h 0 hopen with ⟨c, call, hcall, hk⟩ | ⟨q, ⟨peer, hq⟩, -⟩
    · rw [CallStage.conn_of_isOver (over_of_map hover hcall)] at hk
      cases hk
    · rw [← Dict.mem_items_iff, hitems] at hq
      cases hq
  · cases kind <;> decide +kernel
  · intro c call hcall
    have hover : (poolAfter kind 5 evictedWhileServed).calls.map (fun call => call.stage.isOver) = [true] := by
      cases kind <;> decide +kernel
    exact over_of_map hover hcall
  · cases kind <;> decide +kernel

/-- The call puts its connection into the queue that was taken from the table, where `close_all` does not find it. -/
theorem evicted_connection_stays_open :
    (¬ (poolAfter .blocking 5 (evictedWhileServed.take 8)).Accounted ∧
      ClosedDown .blocking 5 evictedWhileServed ∧ (poolAfter .blocking 5 evictedWhileServed).isOpen 0 = true) ∧
    ¬ (poolAfter .async 5 (evictedWhileServed.take 8)).Accounted ∧
      ClosedDown .async 5 evictedWhileServed ∧ (poolAfter .async 5 evictedWhileServed).isOpen 0 = true :=
  ⟨evictedWhileServed_open .blocking, evictedWhileServed_open .async⟩

end DLStorage
