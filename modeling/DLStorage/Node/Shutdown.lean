import DLStorage.Node.Tasks
import DLStorage.Base.Slots

/-!
# The handlers that a shutdown leaves behind

`stop()` cancels the handlers that have begun, waits for them while the server still takes connections, and then closes
the server and waits for all connections.  A handler that had not begun when the others were cancelled, or whose
connection came later, is not cancelled.  So no handler is left when `stop()` comes to `wait_closed()` exactly when the
client of every such connection has hung up in between (`leavesNoHandler_iff`); if one is left, `stop()` waits for its
client (`returns_unaided_iff`).
-/

namespace DLStorage

open Base (after after_append after_becomes after_concat after_keeps)

variable {V τ : Type}

namespace ClientTask

/-- The handler is scheduled or runs, and has not been cancelled. -/
def isLeft : ClientTask V τ → Bool
  | created => true
  | running _ cancelled _ => !cancelled
  | ended _ | lost => false

/-- The handler has ended. -/
def isOver : ClientTask V τ → Bool
  | ended _ | lost => true
  | created | running _ _ _ => false

theorem isOver_iff {client : ClientTask V τ} :
    client.isOver = true ↔ client.isLeft = false ∧ client.isCancelled = false := by
  cases client with
  | running draining cancelled unsent => cases cancelled <;> simp [isOver, isLeft, isCancelled]
  | created | ended | lost => simp [isOver, isLeft, isCancelled]

end ClientTask

namespace NodeTasks

variable [LinearOrder τ] [Add τ] (self : NodeInfo)

/-- The event makes `stop()` cancel the handlers. -/
def CancelsHandlers (s : NodeTasks V τ) (e : TaskEvent V τ) : Prop :=
  s.stopper ≠ .hangingUp ∧ (s.apply self e).stopper = .hangingUp

/-- The event takes `stop()` to `wait_closed()`. -/
def ReachesWaitClosed (s : NodeTasks V τ) (e : TaskEvent V τ) : Prop :=
  s.stopper ≠ .closing ∧ (s.apply self e).stopper = .closing

omit [LinearOrder τ] [Add τ] in
/-- The client of connection `h`, whose handler runs, closes it, or it is lost, or the client sends a request that lacks
a field. -/
def HangsUp (s : NodeTasks V τ) (h : Nat) : TaskEvent V τ → Prop
  | .client h' .fail | .client h' .lose =>
    h' = h ∧ ∃ draining cancelled unsent, s.clients[h]? = some (.running draining cancelled unsent)
  | .client h' (.serve _ msg) =>
    h' = h ∧ (∃ unsent, s.clients[h]? = some (.running false false unsent)) ∧ msg.isIncomplete = true
  | _ => False

omit [LinearOrder τ] [Add τ] in
/-- Connection `h` was accepted after the state `before`, or its handler had not begun by then. -/
def Latecomer (before now : NodeTasks V τ) (h : Nat) : Prop :=
  h < now.clients.length ∧ (before.clients[h]? = none ∨ before.clients[h]? = some .created)

omit [LinearOrder τ] [Add τ] in
/-- What can happen while no client closes its connection or sends anything: handlers begin, buffers are sent, the
connections of handlers that have ended are closed, and `stop()` goes on. -/
def Unaided (s : NodeTasks V τ) : TaskEvent V τ → Prop
  | .client _ .begin | .client _ .drained | .client _ .flush | .stop .proceed => True
  | .client h .lose => s.clients[h]? = some (.ended [])
  | _ => False

def UnaidedRun : NodeTasks V τ → TaskRun V τ → Prop
  | _, [] => True
  | s, e :: rest => s.Unaided e ∧ UnaidedRun (s.apply self e) rest

/-- No handler is left, and `stop()` can return without the clients. -/
structure NothingLeft (node : NodeInfo) (s : NodeTasks V τ) : Prop where
  none : ∀ client ∈ s.clients, client.isLeft = false
  returns : ∃ rest, s.UnaidedRun node rest ∧ (after (apply node) s rest).stopper = .returned

variable {self} {s : NodeTasks V τ}

/-! ### What the steps of `stop()` find and do -/

theorem CancelsHandlers.clients_eq {e : TaskEvent V τ} (h : s.CancelsHandlers self e) :
    (s.apply self e).clients = s.clients.map ClientTask.cancel := by
  obtain ⟨hbefore, hafter⟩ := h
  by_cases he : ∃ e', e = .stop e'
  · obtain ⟨e', rfl⟩ := he
    have hstop : s.apply self (.stop e') = s.stopStep self e' := rfl
    rw [hstop] at hafter ⊢
    rcases s.stopStep_cases self e' with heq | heq | heq | ⟨-, -, heq⟩ | ⟨-, -, heq⟩ | ⟨-, -, heq⟩
    · rw [heq] at hafter
      exact absurd hafter hbefore
    all_goals rw [heq] at hafter ⊢
    all_goals first | rfl | cases hafter
  · rw [(s.apply_frame self (not_exists.1 he)).1] at hafter
    exact absurd hafter hbefore

theorem ReachesWaitClosed.cases {e : TaskEvent V τ} (h : s.ReachesWaitClosed self e) :
    s.stopper = .hangingUp ∧ (∀ client ∈ s.clients, client.isCancelled = false) ∧
      (s.apply self e).clients = s.clients := by
  obtain ⟨hbefore, hafter⟩ := h
  by_cases he : ∃ e', e = .stop e'
  · obtain ⟨e', rfl⟩ := he
    have hstop : s.apply self (.stop e') = s.stopStep self e' := rfl
    rw [hstop] at hafter ⊢
    rcases s.stopStep_cases self e' with heq | heq | heq | ⟨-, -, heq⟩ | ⟨hstage, hcancelled, heq⟩ | ⟨-, -, heq⟩
    · rw [heq] at hafter
      exact absurd hafter hbefore
    all_goals rw [heq] at hafter ⊢
    all_goals first | exact ⟨hstage, hcancelled, rfl⟩ | cases hafter
  · rw [(s.apply_frame self (not_exists.1 he)).1] at hafter
    exact absurd hafter hbefore

/-! ### A handler that is cancelled or has ended -/

omit [LinearOrder τ] [Add τ] in
private theorem stopStep_clients (s : NodeTasks V τ) (self : NodeInfo) (e : AsyncStopEvent) :
    (s.stopStep self e).clients = s.clients ∨ (s.stopStep self e).clients = s.clients.map ClientTask.cancel := by
  rcases s.stopStep_cases self e with heq | heq | heq | ⟨-, -, heq⟩ | ⟨-, -, heq⟩ | ⟨-, -, heq⟩
  case inr.inr.inr.inl => exact Or.inr (by rw [heq])
  all_goals exact Or.inl (by rw [heq])

/-- A step of another connection leaves this one alone. -/
private theorem clientStep_of_ne {h h' : Nat} (hne : h ≠ h') (e : ClientEvent V τ) :
    (s.clientStep self h' e).clients[h]? = s.clients[h]? := by
  unfold clientStep
  split
  case h_2 => split <;> exact List.getElem?_set_ne (Ne.symm hne)
  all_goals first | rfl | exact List.getElem?_set_ne (Ne.symm hne)

/-- A step of any connection keeps what a step of the handler's own connection keeps. -/
private theorem clientStep_keeps {left : Bool} {h h' : Nat} {client : ClientTask V τ}
    (hclient : s.clients[h]? = some client) (hleft : client.isLeft = left) {e : ClientEvent V τ}
    (hown : h = h' → (s.clientStep self h' e).clients = s.clients ∨
      ∃ client', client'.isLeft = left ∧ (s.clientStep self h' e).clients = s.clients.set h client') :
    ∃ client, (s.clientStep self h' e).clients[h]? = some client ∧ client.isLeft = left := by
  by_cases hh : h = h'
  · rcases hown hh with hsame | ⟨client', hleft', hset⟩
    · exact ⟨client, by rw [hsame, hclient], hleft⟩
    · exact ⟨client', by rw [hset, Base.getElem?_set_of_some hclient], hleft'⟩
  · exact ⟨client, (clientStep_of_ne hh e).trans hclient, hleft⟩

/-- A step of the connection of a handler that is cancelled or has ended. -/
private theorem clientStep_settled (self : NodeInfo) {h : Nat} {client : ClientTask V τ}
    (hclient : s.clients[h]? = some client) (hleft : client.isLeft = false) (e : ClientEvent V τ) :
    (s.clientStep self h e).clients = s.clients ∨
      ∃ client', client'.isLeft = false ∧ (s.clientStep self h e).clients = s.clients.set h client' := by
  cases client with
  | created => cases hleft
  | running draining cancelled unsent =>
    cases cancelled with
    | false => cases hleft
    | true =>
      cases e with
      | begin | serve c msg | drained => exact Or.inl (by simp [clientStep, hclient])
      | fail => exact Or.inr ⟨.ended unsent, rfl, by simp [clientStep, hclient, setClient]⟩
      | flush =>
        cases unsent with
        | nil => exact Or.inl (by simp [clientStep, hclient])
        | cons resp unsent =>
          exact Or.inr ⟨.running draining true unsent, rfl, by simp [clientStep, hclient, setClient]⟩
      | lose => exact Or.inr ⟨.lost, rfl, by simp [clientStep, hclient, setClient]⟩
  | ended unsent =>
    cases e with
    | begin | serve c msg | drained | fail => exact Or.inl (by simp [clientStep, hclient])
    | flush =>
      cases unsent with
      | nil => exact Or.inl (by simp [clientStep, hclient])
      | cons resp unsent => exact Or.inr ⟨.ended unsent, rfl, by simp [clientStep, hclient, setClient]⟩
    | lose => exact Or.inr ⟨.lost, rfl, by simp [clientStep, hclient, setClient]⟩
  | lost => cases e <;> exact Or.inl (by simp [clientStep, hclient])

/-- A handler that is cancelled or has ended stays so. -/
theorem settled_apply {h : Nat} (hs : ∃ client, s.clients[h]? = some client ∧ client.isLeft = false)
    (e : TaskEvent V τ) : ∃ client, (s.apply self e).clients[h]? = some client ∧ client.isLeft = false := by
  obtain ⟨client, hclient, hleft⟩ := hs
  cases e with
  | accept =>
    refine ⟨client, ?_, hleft⟩
    simp only [NodeTasks.apply]
    split
    · exact Base.getElem?_concat_of_some hclient
    · exact hclient
  | sweep c =>
    refine ⟨client, ?_, hleft⟩
    simp only [NodeTasks.apply]
    split <;> exact hclient
  | endPurge =>
    refine ⟨client, ?_, hleft⟩
    simp only [NodeTasks.apply]
    split <;> exact hclient
  | gossip e =>
    obtain ⟨m, gossip, heq⟩ := s.gossipStep_frame self e
    exact ⟨client, by rw [NodeTasks.apply, heq]; exact hclient, hleft⟩
  | client h' e =>
    apply clientStep_keeps hclient hleft
    rintro rfl
    exact clientStep_settled self hclient hleft e
  | stop e =>
    show ∃ client, (s.stopStep self e).clients[h]? = some client ∧ client.isLeft = false
    rcases s.stopStep_clients self e with hsame | hcancel
    · exact ⟨client, by rw [hsame, hclient], hleft⟩
    · refine ⟨client.cancel, by rw [hcancel, List.getElem?_map, hclient, Option.map_some], ?_⟩
      cases client with
      | running draining cancelled unsent => rfl
      | created => cases hleft
      | ended | lost => rfl

/-! ### A handler ends because its client hangs up -/

/-- A handler that runs ends when its client hangs up. -/
private theorem HangsUp.ends {h : Nat} {e : TaskEvent V τ} (he : s.HangsUp h e) (self : NodeInfo) :
    ∃ client, (s.apply self e).clients[h]? = some client ∧ client.isLeft = false := by
  unfold HangsUp at he
  split at he
  · obtain ⟨rfl, draining, cancelled, unsent, hclient⟩ := he
    refine ⟨.ended unsent, ?_, rfl⟩
    simp only [NodeTasks.apply, clientStep, hclient]
    exact Base.getElem?_set_of_some hclient
  · obtain ⟨rfl, draining, cancelled, unsent, hclient⟩ := he
    refine ⟨.lost, ?_, rfl⟩
    simp only [NodeTasks.apply, clientStep, hclient]
    exact Base.getElem?_set_of_some hclient
  · rename_i h' c msg
    obtain ⟨rfl, ⟨unsent, hclient⟩, hincomplete⟩ := he
    refine ⟨.ended unsent, ?_, rfl⟩
    simp only [NodeTasks.apply, clientStep, hclient]
    split
    · rename_i hok
      have hcomplete := (respond_eq_ok_iff c msg s.membership s.store).1 ⟨_, hok⟩
      rw [hincomplete] at hcomplete
      cases hcomplete
    · exact Base.getElem?_set_of_some hclient
  · exact he.elim

/-- A step of its own connection leaves a handler running or scheduled, unless the client hangs up. -/
private theorem hangsUp_or_left (self : NodeInfo) {h : Nat} {client : ClientTask V τ}
    (hclient : s.clients[h]? = some client) (hleft : client.isLeft = true) (e : ClientEvent V τ) :
    s.HangsUp h (.client h e) ∨ (s.clientStep self h e).clients = s.clients ∨
      ∃ client', client'.isLeft = true ∧ (s.clientStep self h e).clients = s.clients.set h client' := by
  have hsame : s.clientStep self h e = s → s.HangsUp h (.client h e) ∨
      (s.clientStep self h e).clients = s.clients ∨
        ∃ client', client'.isLeft = true ∧ (s.clientStep self h e).clients = s.clients.set h client' :=
    fun heq => Or.inr (Or.inl (by rw [heq]))
  cases client with
  | created =>
    cases e with
    | begin => exact Or.inr (Or.inr ⟨.running false false [], rfl, by simp [clientStep, hclient, setClient]⟩)
    | serve | drained | fail | flush | lose => exact hsame (by simp [clientStep, hclient])
  | running draining cancelled unsent =>
    cases cancelled with
    | true => cases hleft
    | false =>
      cases e with
      | fail | lose => exact Or.inl ⟨rfl, draining, false, unsent, hclient⟩
      | begin => exact hsame (by simp [clientStep, hclient])
      | serve c msg =>
        cases draining with
        | true => exact hsame (by simp [clientStep, hclient])
        | false =>
          cases hincomplete : msg.isIncomplete with
          | true => exact Or.inl ⟨rfl, ⟨unsent, hclient⟩, hincomplete⟩
          | false =>
            have hresponds : ∃ r, respond self c msg s.membership s.store = .ok r :=
              (respond_eq_ok_iff c msg s.membership s.store).2 hincomplete
            obtain ⟨⟨resp, m, store⟩, hok⟩ := hresponds
            exact Or.inr (Or.inr ⟨.running true false (unsent ++ [resp]), rfl, by
              simp [clientStep, hclient, hok, setClient]⟩)
      | drained =>
        cases draining with
        | true => exact Or.inr (Or.inr ⟨.running false false unsent, rfl, by simp [clientStep, hclient, setClient]⟩)
        | false => exact hsame (by simp [clientStep, hclient])
      | flush =>
        cases unsent with
        | nil => exact hsame (by simp [clientStep, hclient])
        | cons resp unsent =>
          exact Or.inr (Or.inr ⟨.running draining false unsent, rfl, by simp [clientStep, hclient, setClient]⟩)
  | ended | lost => cases hleft

omit [LinearOrder τ] [Add τ] in
/-- `stop()` has cancelled the handlers. -/
private def Hung (s : NodeTasks V τ) : Prop :=
  s.stopper = .hangingUp ∨ s.stopper = .closing ∨ s.stopper = .returned

/-- It cancels nothing more. -/
private theorem Hung.apply (hstop : s.Hung) (e : TaskEvent V τ) : (s.apply self e).Hung := by
  by_cases he : ∃ e', e = .stop e'
  · obtain ⟨e', rfl⟩ := he
    show (s.stopStep self e').Hung
    rcases hstop with hstage | hstage | hstage
    · cases e' with
      | call | announce => simp [stopStep, hstage, Hung]
      | proceed =>
        simp only [stopStep, hstage]
        split
        · exact Or.inr (Or.inl rfl)
        · exact Or.inl hstage
    · cases e' with
      | call | announce => simp [stopStep, hstage, Hung]
      | proceed =>
        simp only [stopStep, hstage]
        split
        · exact Or.inr (Or.inr rfl)
        · exact Or.inr (Or.inl hstage)
    · simp [stopStep, hstage, Hung]
  · unfold Hung
    rwa [(s.apply_frame self (not_exists.1 he)).1]

/-- Then a handler ends only if its client hangs up. -/
private theorem Hung.hangsUp {h : Nat} (hstop : s.Hung)
    (hleft : ¬ ∃ client, s.clients[h]? = some client ∧ client.isLeft = false) {e : TaskEvent V τ}
    (hended : ∃ client, (s.apply self e).clients[h]? = some client ∧ client.isLeft = false) : s.HangsUp h e := by
  obtain ⟨client', hclient', hended⟩ := hended
  -- the step changes this connection
  have hchanges : (s.apply self e).clients[h]? ≠ s.clients[h]? := by
    intro hsame
    exact hleft ⟨client', hsame.symm.trans hclient', hended⟩
  cases e with
  | accept =>
    simp only [NodeTasks.apply] at hclient'
    split at hclient'
    · rcases Base.getElem?_concat_some hclient' with hold | ⟨-, rfl⟩
      · exact absurd ⟨client', hold, hended⟩ hleft
      · cases hended
    · exact absurd ⟨client', hclient', hended⟩ hleft
  | sweep c =>
    refine absurd ?_ hchanges
    simp only [NodeTasks.apply]
    split <;> rfl
  | endPurge =>
    refine absurd ?_ hchanges
    simp only [NodeTasks.apply]
    split <;> rfl
  | gossip e =>
    obtain ⟨m, gossip, heq⟩ := s.gossipStep_frame self e
    exact absurd (by rw [NodeTasks.apply, heq]) hchanges
  | client h' e =>
    by_cases hh : h = h'
    · subst hh
      cases hclient : s.clients[h]? with
      | none =>
        have hstep : s.clientStep self h e = s := by simp [clientStep, hclient]
        exact absurd (by rw [NodeTasks.apply, hstep]) hchanges
      | some client =>
        have hrunning : client.isLeft = true := by
          by_contra hnot
          exact hleft ⟨client, hclient, by simpa using hnot⟩
        rcases hangsUp_or_left self hclient hrunning e with hhangs | hsame | ⟨client'', hleft'', hset⟩
        · exact hhangs
        · exact absurd (by rw [NodeTasks.apply, hsame]) hchanges
        · have hsome : (s.apply self (.client h e)).clients[h]? = some client'' := by
            rw [NodeTasks.apply, hset]
            exact Base.getElem?_set_of_some hclient
          rw [Option.some.inj (hclient'.symm.trans hsome), hleft''] at hended
          cases hended
    · exact absurd (clientStep_of_ne hh e) hchanges
  | stop e =>
    rcases s.stopStep_cases self e with heq | heq | heq | ⟨hstage, -, -⟩ | ⟨-, -, heq⟩ | ⟨-, -, heq⟩
    case inr.inr.inr.inl =>
      simp [Hung, hstage] at hstop
    all_goals exact absurd (by rw [NodeTasks.apply, heq]) hchanges

/-! ### `wait_closed()` -/

private theorem UnaidedRun.append {rest rest' : TaskRun V τ} (h : s.UnaidedRun self rest)
    (h' : (after (NodeTasks.apply self) s rest).UnaidedRun self rest') : s.UnaidedRun self (rest ++ rest') := by
  induction rest generalizing s with
  | nil => exact h'
  | cons e rest ih => exact ⟨h.1, ih h.2 h'⟩

/-- What a handler that has ended leaves in the buffer is sent, and its connection closed. -/
private theorem exists_lose (self : NodeInfo) {h : Nat} {unsent : List (Message V τ)}
    (hclient : s.clients[h]? = some (.ended unsent)) :
    ∃ rest, s.UnaidedRun self rest ∧ after (NodeTasks.apply self) s rest = s.setClient h .lost := by
  induction unsent generalizing s with
  | nil => exact ⟨[.client h .lose], ⟨hclient, trivial⟩, by simp [after, NodeTasks.apply, clientStep, hclient]⟩
  | cons resp unsent ih =>
    have hflush : s.apply self (.client h .flush) = s.setClient h (.ended unsent) := by
      simp [NodeTasks.apply, clientStep, hclient]
    have hclient' : (s.setClient h (.ended unsent)).clients[h]? = some (.ended unsent) :=
      Base.getElem?_set_of_some hclient
    obtain ⟨rest, hrest, hafter⟩ := ih hclient'
    refine ⟨.client h .flush :: rest, ⟨trivial, by rw [hflush]; exact hrest⟩, ?_⟩
    show after (NodeTasks.apply self) (s.apply self (.client h .flush)) rest = s.setClient h .lost
    rw [hflush, hafter, setClient, setClient, setClient, List.set_set]

/-- When all handlers have ended, the connections are closed one after the other, and `stop()` returns. -/
theorem exists_return (hclosing : s.stopper = .closing) (hover : ∀ client ∈ s.clients, client.isOver = true) :
    ∃ rest, s.UnaidedRun self rest ∧ (after (NodeTasks.apply self) s rest).stopper = .returned := by
  induction hn : s.clients.countP (fun client => !client.isLost) generalizing s with
  | zero =>
    have hlost : ∀ client ∈ s.clients, client.isLost = true := by
      intro client hmem
      simpa using List.countP_eq_zero.1 hn client hmem
    refine ⟨[.stop .proceed], ⟨trivial, trivial⟩, ?_⟩
    show (s.stopStep self .proceed).stopper = .returned
    simp only [stopStep, hclosing]
    rw [if_pos hlost]
  | succ n ih =>
    have hpos : 0 < s.clients.countP (fun client => !client.isLost) := by omega
    obtain ⟨client, hmem, hlost⟩ := List.countP_pos_iff.1 hpos
    obtain ⟨h, hclient⟩ := List.getElem?_of_mem hmem
    cases client with
    | created | running => cases hover _ hmem
    | lost => cases hlost
    | ended unsent =>
      obtain ⟨rest, hrest, hafter⟩ := exists_lose self hclient
      have hcount : (s.setClient h .lost).clients.countP (fun client => !client.isLost) = n := by
        obtain ⟨hlt, hget⟩ := List.getElem?_eq_some_iff.1 hclient
        show (s.clients.set h .lost).countP (fun client => !client.isLost) = n
        rw [List.countP_set hlt, hget, hn]
        simp [ClientTask.isLost]
      have hover' : ∀ client ∈ (s.setClient h .lost).clients, client.isOver = true := by
        intro client hmem'
        rcases List.mem_or_eq_of_mem_set hmem' with hold | rfl
        · exact hover client hold
        · rfl
      obtain ⟨rest', hrest', hreturned⟩ := ih (s := s.setClient h .lost) hclosing hover' hcount
      refine ⟨rest ++ rest', hrest.append (by rw [hafter]; exact hrest'), ?_⟩
      rw [after_append, hafter]
      exact hreturned

/-- A step of the connection of a handler that is left, while its client does nothing. -/
private theorem clientStep_left (self : NodeInfo) {h : Nat} {client : ClientTask V τ}
    (hclient : s.clients[h]? = some client) (hleft : client.isLeft = true) {e : ClientEvent V τ}
    (he : s.Unaided (.client h e)) :
    (s.clientStep self h e).clients = s.clients ∨
      ∃ client', client'.isLeft = true ∧ (s.clientStep self h e).clients = s.clients.set h client' := by
  refine (hangsUp_or_left self hclient hleft e).resolve_left fun hhangs => ?_
  cases e with
  | serve c msg | fail => exact he
  | begin | drained | flush => exact hhangs
  | lose =>
    have hended : s.clients[h]? = some (.ended []) := he
    obtain ⟨-, draining, cancelled, unsent, hrunning⟩ := hhangs
    rw [hended] at hrunning
    cases hrunning

/-- A handler that is left stays so while no client does anything, and `stop()` does not return. -/
private theorem left_apply {h : Nat}
    (hs : s.stopper = .closing ∧ ∃ client, s.clients[h]? = some client ∧ client.isLeft = true) {e : TaskEvent V τ}
    (he : s.Unaided e) :
    (s.apply self e).stopper = .closing ∧
      ∃ client, (s.apply self e).clients[h]? = some client ∧ client.isLeft = true := by
  obtain ⟨hclosing, client, hclient, hleft⟩ := hs
  cases e with
  | accept | sweep | endPurge | gossip => exact absurd he id
  | client h' e =>
    refine ⟨((s.apply_frame self fun _ => by simp).1).trans hclosing, ?_⟩
    apply clientStep_keeps hclient hleft
    rintro rfl
    exact clientStep_left self hclient hleft he
  | stop e =>
    have hstep : s.stopStep self e = s := by
      cases e with
      | call | announce => simp [stopStep, hclosing]
      | proceed =>
        have hopen : ¬ ∀ client ∈ s.clients, client.isLost = true := by
          intro hall
          have hlost := hall client (List.mem_of_getElem? hclient)
          cases client with
          | lost => cases hleft
          | created | running | ended => cases hlost
        simp only [stopStep, hclosing]
        rw [if_neg hopen]
    rw [NodeTasks.apply, hstep]
    exact ⟨hclosing, client, hclient, hleft⟩

/-- In `wait_closed()` the node waits for a client exactly when a handler is left. -/
theorem returns_unaided_iff (hclosing : s.stopper = .closing)
    (hcancelled : ∀ client ∈ s.clients, client.isCancelled = false) :
    (∃ rest, s.UnaidedRun self rest ∧ (after (NodeTasks.apply self) s rest).stopper = .returned) ↔
      ∀ client ∈ s.clients, client.isLeft = false := by
  constructor
  · rintro ⟨rest, hrest, hreturned⟩ client hmem
    by_contra hleft
    rw [Bool.not_eq_false] at hleft
    obtain ⟨h, hclient⟩ := List.getElem?_of_mem hmem
    have hstays : ∀ (rest : TaskRun V τ) (s : NodeTasks V τ), s.UnaidedRun self rest →
        (s.stopper = .closing ∧ ∃ client, s.clients[h]? = some client ∧ client.isLeft = true) →
        (after (NodeTasks.apply self) s rest).stopper = .closing := by
      intro rest
      induction rest with
      | nil => exact fun s _ hs => hs.1
      | cons e rest ih => exact fun s hrest hs => ih (s.apply self e) hrest.2 (left_apply hs hrest.1)
    rw [hstays rest s hrest ⟨hclosing, client, hclient, hleft⟩] at hreturned
    cases hreturned
  · intro hnone
    exact exists_return hclosing fun client hmem =>
      ClientTask.isOver_iff.2 ⟨hnone client hmem, hcancelled client hmem⟩

end NodeTasks

/-! ### Runs -/

section Run

variable [LinearOrder τ] [Add τ] (self : NodeInfo) (m : Membership) (store : LocalLWWStore V τ) (run : TaskRun V τ)

/-- When `stop()` reaches `wait_closed()`, it leaves no handler behind and does not depend on a client. -/
def LeavesNoHandler : Prop :=
  ∀ pre e post, run = pre ++ e :: post → (tasksAfter self m store pre).ReachesWaitClosed self e →
    (tasksAfter self m store (pre ++ [e])).NothingLeft self

/-- Of every connection that is accepted after `stop()` has cancelled the handlers, or whose handler had not begun by
then, the client hangs up before `stop()` closes the server. -/
def LatecomersHangUp : Prop :=
  ∀ pre e mid e' post, run = pre ++ e :: (mid ++ e' :: post) → (tasksAfter self m store pre).CancelsHandlers self e →
    (tasksAfter self m store (pre ++ e :: mid)).ReachesWaitClosed self e' →
    ∀ h, NodeTasks.Latecomer (tasksAfter self m store pre) (tasksAfter self m store (pre ++ e :: mid)) h →
      ∃ mid₁ x mid₂, mid = mid₁ ++ x :: mid₂ ∧ (tasksAfter self m store (pre ++ e :: mid₁)).HangsUp h x

variable {self m store run}

private theorem tasksAfter_concat (pre : TaskRun V τ) (e : TaskEvent V τ) :
    tasksAfter self m store (pre ++ [e]) = (tasksAfter self m store pre).apply self e :=
  after_concat pre e

private theorem LeavesNoHandler.over (h : LeavesNoHandler self m store run) {pre post : TaskRun V τ} {e : TaskEvent V τ}
    (hrun : run = pre ++ e :: post) (hreach : (tasksAfter self m store pre).ReachesWaitClosed self e)
    {client : ClientTask V τ} (hmem : client ∈ (tasksAfter self m store pre).clients) : client.isOver = true := by
  obtain ⟨-, hcancelled, hclients⟩ := hreach.cases
  have hnone := (h pre e post hrun hreach).none
  rw [tasksAfter_concat, hclients] at hnone
  exact ClientTask.isOver_iff.2 ⟨hnone client hmem, hcancelled client hmem⟩

/-- The handler of a latecomer that has ended by the time `stop()` closes the server has ended since the cancellation,
because its client has hung up. -/
private theorem hangsUp_between {pre mid : TaskRun V τ} {e : TaskEvent V τ}
    (hcancels : (tasksAfter self m store pre).CancelsHandlers self e) {h : Nat}
    (hlate : NodeTasks.Latecomer (tasksAfter self m store pre) (tasksAfter self m store (pre ++ e :: mid)) h)
    (hover : ∀ client ∈ (tasksAfter self m store (pre ++ e :: mid)).clients, client.isOver = true) :
    ∃ mid₁ x mid₂, mid = mid₁ ++ x :: mid₂ ∧ (tasksAfter self m store (pre ++ e :: mid₁)).HangsUp h x := by
  obtain ⟨hlt, hold⟩ := hlate
  -- right after the cancellation the handler has not begun, or there is none yet
  have hopen : ¬ ∃ client,
      (tasksAfter self m store (pre ++ [e])).clients[h]? = some client ∧ client.isLeft = false := by
    rw [tasksAfter_concat, hcancels.clients_eq, List.getElem?_map]
    rintro ⟨client, hclient, hleft⟩
    rcases hold with hnone | hcreated
    · rw [hnone] at hclient
      cases hclient
    · rw [hcreated] at hclient
      obtain rfl := Option.some.inj hclient
      cases hleft
  have hended : ∃ client, (tasksAfter self m store ((pre ++ [e]) ++ mid)).clients[h]? = some client ∧
      client.isLeft = false := by
    rw [List.append_assoc, List.singleton_append]
    refine ⟨_, List.getElem?_eq_getElem hlt, ?_⟩
    exact (ClientTask.isOver_iff.1 (hover _ (List.getElem_mem hlt))).1
  obtain ⟨mid₁, x, mid₂, rfl, hbefore, hafter⟩ :=
    after_becomes (Q := fun s : NodeTasks V τ => ∃ client, s.clients[h]? = some client ∧ client.isLeft = false)
      hopen hended
  have hhung : (tasksAfter self m store ((pre ++ [e]) ++ mid₁)).Hung := by
    unfold tasksAfter
    rw [after_append, after_concat]
    exact after_keeps (P := NodeTasks.Hung) (Or.inl hcancels.2) (fun _ e hs => hs.apply e) mid₁
  have hhangs : (tasksAfter self m store ((pre ++ [e]) ++ mid₁)).HangsUp h x := hhung.hangsUp hbefore hafter
  rw [List.append_assoc, List.singleton_append] at hhangs
  exact ⟨mid₁, x, mid₂, rfl, hhangs⟩

/-- A handler that is cancelled or has ended at some point of a run is so at its end. -/
private theorem settled_of_split {pre mid : TaskRun V τ} {h : Nat}
    (hs : ∃ client, (tasksAfter self m store pre).clients[h]? = some client ∧ client.isLeft = false) :
    ∃ client, (tasksAfter self m store (pre ++ mid)).clients[h]? = some client ∧ client.isLeft = false := by
  unfold tasksAfter
  rw [after_append]
  exact after_keeps (P := fun s => ∃ client, (NodeTasks.clients s)[h]? = some client ∧ client.isLeft = false) hs
    (fun s e hs => NodeTasks.settled_apply hs e) mid

/-- A handler that `stop()` has cancelled has ended when `stop()` is about to close the server, and so has every other
one. -/
private theorem LatecomersHangUp.over (h : LatecomersHangUp self m store run) {pre post : TaskRun V τ}
    {e : TaskEvent V τ} (hrun : run = pre ++ e :: post)
    (hreach : (tasksAfter self m store pre).ReachesWaitClosed self e)
    {client : ClientTask V τ} (hmem : client ∈ (tasksAfter self m store pre).clients) : client.isOver = true := by
  obtain ⟨hstage, hcancelled, -⟩ := hreach.cases
  obtain ⟨i, hclient⟩ := List.getElem?_of_mem hmem
  -- the event by which `stop()` has cancelled the handlers
  have hstart : ¬ (tasksAfter self m store []).stopper = .hangingUp := by
    intro hstop
    cases hstop
  obtain ⟨before, e₀, mid, rfl, hbefore, hafter⟩ :=
    after_becomes (Q := fun s : NodeTasks V τ => s.stopper = .hangingUp) hstart hstage
  have hcancels : (tasksAfter self m store before).CancelsHandlers self e₀ := ⟨hbefore, hafter⟩
  have hlatecomer : NodeTasks.Latecomer (tasksAfter self m store before) (tasksAfter self m store (before ++ e₀ :: mid))
      i → ∃ client, (tasksAfter self m store (before ++ e₀ :: mid)).clients[i]? = some client ∧
        client.isLeft = false := by
    intro hlate
    obtain ⟨mid₁, x, mid₂, rfl, hhangs⟩ := h before e₀ mid e post (by rw [hrun]; simp) hcancels hreach i hlate
    have hended := hhangs.ends self
    rw [← tasksAfter_concat] at hended
    rw [show before ++ e₀ :: (mid₁ ++ x :: mid₂) = before ++ e₀ :: mid₁ ++ [x] ++ mid₂ by simp]
    exact settled_of_split hended
  have hcancelled₀ : ∀ old : ClientTask V τ, (tasksAfter self m store before).clients[i]? = some old →
      old.cancel.isLeft = false →
      ∃ client, (tasksAfter self m store (before ++ e₀ :: mid)).clients[i]? = some client ∧ client.isLeft = false := by
    intro old hold hleft
    rw [List.append_cons]
    refine settled_of_split ⟨old.cancel, ?_, hleft⟩
    rw [tasksAfter_concat, hcancels.clients_eq, List.getElem?_map, hold, Option.map_some]
  have hsettled : ∃ client, (tasksAfter self m store (before ++ e₀ :: mid)).clients[i]? = some client ∧
      client.isLeft = false := by
    have hlt : i < (tasksAfter self m store (before ++ e₀ :: mid)).clients.length :=
      (List.getElem?_eq_some_iff.1 hclient).1
    cases hold : (tasksAfter self m store before).clients[i]? with
    | none => exact hlatecomer ⟨hlt, Or.inl hold⟩
    | some old =>
      cases old with
      | created => exact hlatecomer ⟨hlt, Or.inr hold⟩
      | running | ended | lost => exact hcancelled₀ _ hold rfl
  obtain ⟨client', hsome, hleft⟩ := hsettled
  obtain rfl := Option.some.inj (hclient.symm.trans hsome)
  exact ClientTask.isOver_iff.2 ⟨hleft, hcancelled client hmem⟩

/-- `stop()` of an async node leaves no handler behind exactly when the client of every connection whose handler it has
not cancelled, because it had not begun or the connection came later, hangs up before `stop()` closes the server. -/
theorem leavesNoHandler_iff (self : NodeInfo) (m : Membership) (store : LocalLWWStore V τ) (run : TaskRun V τ) :
    LeavesNoHandler self m store run ↔ LatecomersHangUp self m store run := by
  constructor
  · intro h pre e mid e' post hrun hcancels hreach i hlate
    have hrun' : run = (pre ++ e :: mid) ++ e' :: post := by rw [hrun]; simp
    exact hangsUp_between hcancels hlate fun client hmem => h.over hrun' hreach hmem
  · intro h pre e post hrun hreach
    have hover : ∀ client ∈ (tasksAfter self m store (pre ++ [e])).clients, client.isOver = true := by
      intro client hmem
      rw [tasksAfter_concat, hreach.cases.2.2] at hmem
      exact h.over hrun hreach hmem
    have hclosing : (tasksAfter self m store (pre ++ [e])).stopper = .closing := by
      rw [tasksAfter_concat]
      exact hreach.2
    exact ⟨fun client hmem => (ClientTask.isOver_iff.1 (hover client hmem)).1, NodeTasks.exists_return hclosing hover⟩

end Run

/-- While `stop()` waits for the handler of one client, another client connects. -/
def lateClientRun : TaskRun Nat Int :=
  [.accept, .client 0 .begin, .stop .call, .stop .proceed, .gossip .cancel, .endPurge, .stop .proceed, .accept,
    .client 1 .begin, .client 0 .fail]

/-- A connection is accepted, and its handler has not begun when `stop()` cancels the handlers. -/
def unbegunClientRun : TaskRun Nat Int :=
  [.stop .call, .stop .proceed, .gossip .cancel, .accept, .endPurge, .stop .proceed]

private theorem left_behind {run : TaskRun Nat Int}
    (hreach : (tasksAfter (localhost 7001) (staticMembership []) .empty run).ReachesWaitClosed (localhost 7001)
      (.stop .proceed))
    (hleft : (tasksAfter (localhost 7001) (staticMembership []) .empty run).clients.any ClientTask.isLeft = true) :
    ¬ LeavesNoHandler (localhost 7001) (staticMembership []) .empty (run ++ [.stop .proceed]) := by
  intro h
  have hnone := (h run (.stop .proceed) [] rfl hreach).none
  rw [tasksAfter_concat, hreach.cases.2.2] at hnone
  obtain ⟨client, hmem, hclient⟩ := List.any_eq_true.1 hleft
  rw [hnone client hmem] at hclient
  cases hclient

/-- Both handlers are left when `stop()` comes to `wait_closed()`. -/
theorem late_client_left_behind :
    ¬ LeavesNoHandler (localhost 7001) (staticMembership []) .empty (lateClientRun ++ [.stop .proceed]) ∧
      ¬ LeavesNoHandler (localhost 7001) (staticMembership []) .empty (unbegunClientRun ++ [.stop .proceed]) := by
  constructor
  · exact left_behind ⟨by decide +kernel, by decide +kernel⟩ (by decide +kernel)
  · exact left_behind ⟨by decide +kernel, by decide +kernel⟩ (by decide +kernel)

end DLStorage
