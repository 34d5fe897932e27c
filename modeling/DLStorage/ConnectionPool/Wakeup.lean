import DLStorage.ConnectionPool.Mux

/-!
# The wake-up of the selector thread

A caller of the multiplexed pool puts its socket on the registration queue and then sends a byte to the wake-up socket;
the selector thread reads such bytes in bulk, and registers what it finds on the queue until it is empty.  The two are
not one step on either side.  Nevertheless a caller that has sent its byte is registered, or the byte is unread, or the
thread is about to look at the queue (`Awake.heard`), since each side touches the queue on the far side of the bytes:
the caller before it sends, the thread after it reads.  From there every step of the thread brings the registration
closer (`Heeded.step`).
-/

namespace DLStorage

open Base (after after_append after_keeps tally)

/-- A call of `execute` from `_reg_queue.put` on. -/
structure WakeCall (κ : Type) where
  entry : κ
  /-- Whether `_wakeup` has sent its byte. -/
  sent : Bool

/-- What `select` reports. -/
inductive Ready (κ : Type)
  | wake
  | socket (entry : κ)

def Ready.isWake {κ : Type} : Ready κ → Bool
  | wake => true
  | socket _ => false

/-- Where `_io_loop` is. -/
inductive LoopStage (κ : Type)
  | selecting
  /-- In the loop over the events. -/
  | handling (events : List (Ready κ))
  /-- In the loop with `get_nowait()`, after the wake-up bytes have been read. -/
  | registering (events : List (Ready κ))

namespace LoopStage

variable {κ : Type}

def isRegistering : LoopStage κ → Bool
  | registering _ => true
  | selecting | handling _ => false

/-- The thread registers, or is going to, before it calls `select` again. -/
def Attends : LoopStage κ → Prop
  | selecting => False
  | handling events => .wake ∈ events
  | registering _ => True

/-- How many steps the thread takes in the loop over the events until it has read the wake-up bytes, or, if `select` has
not reported any, until the loop is over. -/
def ahead : LoopStage κ → Nat
  | selecting | registering _ => 0
  | handling events => (events.takeWhile fun e => !e.isWake).length + 1

@[simp] theorem ahead_socket (entry : κ) (events : List (Ready κ)) :
    (handling (.socket entry :: events)).ahead = (handling events).ahead + 1 := rfl

end LoopStage

/-- The selector thread and its callers, before `close_all`. -/
structure Wakeup (κ : Type) where
  calls : List (WakeCall κ)
  /-- `_reg_queue`. -/
  regQueue : List κ
  /-- How many wake-up bytes have not been read. -/
  unread : Nat
  loop : LoopStage κ
  /-- The map of the selector, without the wake-up socket. -/
  map : List κ
  /-- What has been registered, in order. -/
  registered : List κ

inductive WakeEvent (κ : Type)
  /-- `_reg_queue.put`. -/
  | put (entry : κ)
  /-- `_wakeup()` of call `i`. -/
  | wakeup (i : Nat)
  /-- `select` returns, with some sockets before the wake-up socket and some after it. -/
  | select (before rest : List κ)
  /-- `_wake_r.recv(4096)` yields at most `n + 1` bytes. -/
  | drain (n : Nat)
  | register
  /-- `_handle_read` of the next socket, which may unregister it. -/
  | handleRead (unregisters : Bool)
  /-- The loop over the events is over. -/
  | turn

abbrev WakeRun (κ : Type) := List (WakeEvent κ)

namespace Wakeup

variable {κ : Type} (s : Wakeup κ)

def start : Wakeup κ := { calls := [], regQueue := [], unread := 0, loop := .selecting, map := [], registered := [] }

def put (entry : κ) : Wakeup κ :=
  { s with calls := s.calls ++ [⟨entry, false⟩], regQueue := s.regQueue ++ [entry] }

def wakeup (i : Nat) : Wakeup κ :=
  match s.calls[i]? with
  | none => s
  | some call =>
    if call.sent then s
    else { s with calls := s.calls.set i { call with sent := true }, unread := s.unread + 1 }

/-- The registered ones among some sockets. -/
def ready [DecidableEq κ] (sockets : List κ) : List (Ready κ) := (sockets.filter (· ∈ s.map)).map .socket

/-- `sel.select(timeout=0.2)`, which reports the wake-up socket whenever a byte is unread. -/
def select [DecidableEq κ] (before rest : List κ) : Wakeup κ :=
  match s.loop with
  | .selecting =>
    { s with loop := .handling (s.ready before ++ (if 0 < s.unread then [.wake] else []) ++ s.ready rest) }
  | _ => s

def drain (n : Nat) : Wakeup κ :=
  match s.loop with
  | .handling (.wake :: events) =>
    { s with unread := s.unread - min (n + 1) 4096, loop := .registering events }
  | _ => s

/-- `_reg_queue.get_nowait()`, and `sel.register` unless the queue is empty. -/
def register : Wakeup κ :=
  match s.loop with
  | .registering events =>
    match s.regQueue with
    | [] => { s with loop := .handling events }
    | entry :: rest => { s with regQueue := rest, map := s.map ++ [entry], registered := s.registered ++ [entry] }
  | _ => s

def handleRead [DecidableEq κ] (unregisters : Bool) : Wakeup κ :=
  match s.loop with
  | .handling (.socket entry :: events) =>
    { s with loop := .handling events, map := if unregisters then s.map.erase entry else s.map }
  | _ => s

def turn : Wakeup κ :=
  match s.loop with
  | .handling [] => { s with loop := .selecting }
  | _ => s

/-- The state after an event; an event that is out of place changes nothing. -/
def apply [DecidableEq κ] (s : Wakeup κ) : WakeEvent κ → Wakeup κ
  | .put entry => s.put entry
  | .wakeup i => s.wakeup i
  | .select before rest => s.select before rest
  | .drain n => s.drain n
  | .register => s.register
  | .handleRead unregisters => s.handleRead unregisters
  | .turn => s.turn

/-- The event is the next step of the thread. -/
def due (e : WakeEvent κ) : Bool :=
  match s.loop, e with
  | .selecting, .select _ _ => true
  | .handling (.wake :: _), .drain _ => true
  | .handling (.socket _ :: _), .handleRead _ => true
  | .handling [], .turn => true
  | .registering _, .register => true
  | _, _ => false

/-- How many steps the thread takes in a run. -/
def steps [DecidableEq κ] (run : WakeRun κ) : Nat := tally apply due s run

end Wakeup

variable {κ : Type}

/-- The state after a run. -/
def wakeupAfter [DecidableEq κ] (run : WakeRun κ) : Wakeup κ := after Wakeup.apply Wakeup.start run

namespace Wakeup

/-- What has been queued is registered or on the queue, in order, and a caller that has sent its byte is heard. -/
structure Awake (s : Wakeup κ) : Prop where
  order : s.registered ++ s.regQueue = s.calls.map WakeCall.entry
  heard : ∀ i call, s.calls[i]? = some call → call.sent = true →
    i < s.registered.length ∨ 0 < s.unread ∨ s.loop.isRegistering = true

variable {s : Wakeup κ}

namespace Awake

theorem start : Awake (start : Wakeup κ) where
  order := rfl
  heard := by
    intro i call hcall
    simp [Wakeup.start] at hcall

theorem put (h : s.Awake) (entry : κ) : (s.put entry).Awake where
  order := by
    have hcalls : (s.put entry).calls.map WakeCall.entry = s.calls.map WakeCall.entry ++ [entry] := List.map_append
    rw [hcalls, ← h.order, List.append_assoc]
    rfl
  heard := by
    intro i call hcall hsent
    rcases Base.getElem?_concat_some hcall with hold | ⟨-, rfl⟩
    · exact h.heard i call hold hsent
    · cases hsent

theorem wakeup (h : s.Awake) (i : Nat) : (s.wakeup i).Awake := by
  unfold Wakeup.wakeup
  split
  · exact h
  · rename_i call hcall
    split
    · exact h
    · refine ⟨?_, fun _ _ _ _ => Or.inr (Or.inl (Nat.succ_pos _))⟩
      show s.registered ++ s.regQueue = (s.calls.set i { call with sent := true }).map WakeCall.entry
      obtain ⟨hi, hget⟩ := List.getElem?_eq_some_iff.1 hcall
      have hlt : i < (s.calls.map WakeCall.entry).length := by
        rw [List.length_map]
        exact hi
      have hentry : (s.calls.map WakeCall.entry)[i] = call.entry := by rw [List.getElem_map, hget]
      rw [h.order, List.map_set, ← hentry]
      exact (List.set_getElem_self hlt).symm

/-- Outside the loop over the queue, the place of the thread and the map of the selector do not matter. -/
private theorem moves (h : s.Awake) (hloop : s.loop.isRegistering = false) (loop : LoopStage κ) (map : List κ) :
    ({ s with loop := loop, map := map } : Wakeup κ).Awake where
  order := h.order
  heard := by
    intro i call hcall hsent
    rcases h.heard i call hcall hsent with hregistered | hunread | hregistering
    · exact Or.inl hregistered
    · exact Or.inr (Or.inl hunread)
    · rw [hloop] at hregistering
      cases hregistering

theorem select [DecidableEq κ] (h : s.Awake) (before rest : List κ) : (s.select before rest).Awake := by
  unfold Wakeup.select
  split
  · rename_i hloop
    exact h.moves (by rw [hloop]; rfl) _ _
  · exact h

/-- The bytes are read before the thread looks at the queue. -/
theorem drain (h : s.Awake) (n : Nat) : (s.drain n).Awake := by
  unfold Wakeup.drain
  split
  · exact ⟨h.order, fun _ _ _ _ => Or.inr (Or.inr rfl)⟩
  · exact h

theorem register (h : s.Awake) : s.register.Awake := by
  unfold Wakeup.register
  split
  · rename_i events hloop
    split
    · rename_i hempty
      -- whatever has been queued is registered
      refine ⟨h.order, fun i call hcall _ => Or.inl ?_⟩
      have horder := congrArg List.length h.order
      rw [hempty, List.append_nil, List.length_map] at horder
      have hi : i < s.calls.length := (List.getElem?_eq_some_iff.1 hcall).1
      show i < s.registered.length
      omega
    · rename_i entry rest hqueue
      refine ⟨?_, fun _ _ _ _ => Or.inr (Or.inr ?_)⟩
      · show s.registered ++ [entry] ++ rest = _
        rw [List.append_assoc, List.singleton_append, ← hqueue]
        exact h.order
      · show s.loop.isRegistering = true
        rw [hloop]
        rfl
  · exact h

theorem handleRead [DecidableEq κ] (h : s.Awake) (unregisters : Bool) : (s.handleRead unregisters).Awake := by
  unfold Wakeup.handleRead
  split
  · rename_i entry events hloop
    exact h.moves (by rw [hloop]; rfl) _ _
  · exact h

theorem turn (h : s.Awake) : s.turn.Awake := by
  unfold Wakeup.turn
  split
  · rename_i hloop
    exact h.moves (by rw [hloop]; rfl) _ _
  · exact h

theorem apply [DecidableEq κ] (h : s.Awake) (e : WakeEvent κ) : (s.apply e).Awake := by
  cases e with
  | put entry => exact h.put entry
  | wakeup i => exact h.wakeup i
  | select before rest => exact h.select before rest
  | drain n => exact h.drain n
  | register => exact h.register
  | handleRead unregisters => exact h.handleRead unregisters
  | turn => exact h.turn

theorem after [DecidableEq κ] (run : WakeRun κ) : (wakeupAfter run).Awake :=
  after_keeps (P := Wakeup.Awake) Awake.start (fun _ e h => h.apply e) run

/-- The first of the queue waits for its caller, for a byte or for the thread. -/
theorem queued (h : s.Awake) (hqueue : s.regQueue ≠ []) :
    0 < s.unread ∨ s.loop.isRegistering = true ∨ ∃ call ∈ s.calls, call.sent = false := by
  have horder := congrArg List.length h.order
  rw [List.length_append, List.length_map] at horder
  have hpos := List.length_pos_iff.2 hqueue
  have hlt : s.registered.length < s.calls.length := by omega
  have hcall : s.calls[s.registered.length]? = some s.calls[s.registered.length] := List.getElem?_eq_getElem hlt
  cases hsent : (s.calls[s.registered.length]).sent with
  | false => exact Or.inr (Or.inr ⟨_, List.getElem_mem hlt, hsent⟩)
  | true =>
    rcases h.heard _ _ hcall hsent with hself | hunread | hregistering
    · omega
    · exact Or.inl hunread
    · exact Or.inr (Or.inl hregistering)

end Awake

/-- The queue and the map of the selector are those of the pool. -/
theorem register_eq {V τ : Type} {pool : MuxPool V τ} {s : Wakeup (Nat × Nat)} (hqueue : pool.regQueue = s.regQueue)
    (hmap : pool.registered = s.map) :
    (∀ c k call, pool.calls[c]? = some call → call.stage = .handing k →
      (pool.handOver c).regQueue = (s.put (k, c)).regQueue ∧ (pool.handOver c).registered = (s.put (k, c)).map) ∧
    (pool.selector = .polling → pool.selOpen = true → s.loop.isRegistering = true →
      pool.register.regQueue = s.register.regQueue ∧ pool.register.registered = s.register.map) := by
  refine ⟨fun c k call hcall hstage => ?_, fun hselector hopen hloop => ?_⟩
  · unfold MuxPool.handOver MuxPool.atCall
    rw [hcall]
    simp only [hstage]
    exact ⟨congrArg (· ++ [(k, c)]) hqueue, hmap⟩
  · unfold MuxPool.register Wakeup.register
    cases hstage : s.loop with
    | selecting | handling =>
      rw [hstage] at hloop
      cases hloop
    | registering events =>
      rw [hselector, hqueue]
      cases hentries : s.regQueue with
      | nil => exact ⟨hqueue.trans hentries, hmap⟩
      | cons entry rest =>
        simp only [if_pos hopen]
        exact ⟨trivial, congrArg (· ++ [entry]) hmap⟩

/-! ### One round of the loop -/

section Round

variable [DecidableEq κ] {i n : Nat} {e : WakeEvent κ}

/-- An event that is not the next step of the thread leaves the thread alone, and calls only grow more. -/
private theorem apply_of_not_due (hdue : s.due e = false) :
    (s.apply e).loop = s.loop ∧ (s.apply e).registered = s.registered ∧
      s.calls.length ≤ (s.apply e).calls.length := by
  cases e with
  | put entry =>
    refine ⟨rfl, rfl, ?_⟩
    show s.calls.length ≤ (s.calls ++ _).length
    rw [List.length_append]
    exact Nat.le_add_right _ _
  | wakeup j =>
    simp only [Wakeup.apply, Wakeup.wakeup]
    split
    · exact ⟨rfl, rfl, le_refl _⟩
    · split
      · exact ⟨rfl, rfl, le_refl _⟩
      · exact ⟨rfl, rfl, by simp⟩
  | select before rest =>
    simp only [Wakeup.apply, Wakeup.select]
    split
    · rename_i hloop
      simp [due, hloop] at hdue
    · exact ⟨rfl, rfl, le_refl _⟩
  | drain m =>
    simp only [Wakeup.apply, Wakeup.drain]
    split
    · rename_i hloop
      simp [due, hloop] at hdue
    · exact ⟨rfl, rfl, le_refl _⟩
  | register =>
    simp only [Wakeup.apply, Wakeup.register]
    split
    · rename_i hloop
      simp [due, hloop] at hdue
    · exact ⟨rfl, rfl, le_refl _⟩
  | handleRead unregisters =>
    simp only [Wakeup.apply, Wakeup.handleRead]
    split
    · rename_i hloop
      simp [due, hloop] at hdue
    · exact ⟨rfl, rfl, le_refl _⟩
  | turn =>
    simp only [Wakeup.apply, Wakeup.turn]
    split
    · rename_i hloop
      simp [due, hloop] at hdue
    · exact ⟨rfl, rfl, le_refl _⟩

/-- Call `i` is registered, or will be in this round when the thread has taken `n` more steps. -/
private def Heeded (s : Wakeup κ) (i n : Nat) : Prop :=
  i < s.calls.length ∧
    (i < s.registered.length ∨ s.loop.Attends ∧ s.loop.ahead + (i + 1 - s.registered.length) ≤ n)

omit [DecidableEq κ] in
/-- When the thread finds the queue empty, every call that it knows of is registered; otherwise it registers one. -/
private theorem Heeded.register (h : s.Heeded i n) (hs : s.Awake) {events : List (Ready κ)}
    (hloop : s.loop = .registering events) : s.register.Heeded i (n - 1) := by
  obtain ⟨hi, hheeded⟩ := h
  unfold Wakeup.register
  rw [hloop] at hheeded ⊢
  simp only [LoopStage.ahead] at hheeded
  cases hqueue : s.regQueue with
  | nil =>
    have horder := congrArg List.length hs.order
    rw [hqueue, List.append_nil, List.length_map] at horder
    have hregistered : i < s.registered.length := by omega
    exact ⟨hi, Or.inl hregistered⟩
  | cons entry rest =>
    have hlen : (s.registered ++ [entry]).length = s.registered.length + 1 := by simp
    refine ⟨hi, ?_⟩
    show i < (s.registered ++ [entry]).length ∨ True ∧ 0 + (i + 1 - (s.registered ++ [entry]).length) ≤ n - 1
    rw [hlen]
    rcases hheeded with hdone | ⟨-, hbound⟩
    · exact Or.inl (by omega)
    · exact Or.inr ⟨trivial, by omega⟩

/-- Every step of the thread brings the registration closer. -/
private theorem Heeded.step (h : s.Heeded i n) (hs : s.Awake) (hdue : s.due e = true) :
    (s.apply e).Heeded i (n - 1) := by
  have ⟨hi, hheeded⟩ := h
  unfold due at hdue
  split at hdue
  · rename_i hloop
    rw [hloop] at hheeded
    simp only [Wakeup.apply, Wakeup.select, hloop]
    exact ⟨hi, Or.inl (hheeded.resolve_right fun h => h.1)⟩
  · rename_i events m hloop
    rw [hloop] at hheeded
    simp only [Wakeup.apply, Wakeup.drain, hloop]
    refine ⟨hi, hheeded.imp_right fun ⟨_, hbound⟩ => ⟨trivial, ?_⟩⟩
    have hwake : (LoopStage.handling (.wake :: events)).ahead = 1 := rfl
    show 0 + (i + 1 - s.registered.length) ≤ n - 1
    omega
  · rename_i entry events unregisters hloop
    rw [hloop] at hheeded
    simp only [Wakeup.apply, Wakeup.handleRead, hloop]
    refine ⟨hi, hheeded.imp_right fun ⟨hattends, hbound⟩ => ⟨?_, ?_⟩⟩
    · exact List.mem_of_ne_of_mem (fun h => by cases h) hattends
    · rw [LoopStage.ahead_socket] at hbound
      show (LoopStage.handling events).ahead + (i + 1 - s.registered.length) ≤ n - 1
      omega
  · rename_i hloop
    rw [hloop] at hheeded
    simp only [Wakeup.apply, Wakeup.turn, hloop]
    exact ⟨hi, Or.inl (hheeded.resolve_right fun h => List.not_mem_nil h.1)⟩
  · rename_i events hloop
    exact h.register hs hloop
  · cases hdue

private theorem Heeded.apply (h : s.Heeded i n) (hs : s.Awake) (e : WakeEvent κ) :
    (s.apply e).Heeded i (n - (s.due e).toNat) := by
  cases hdue : s.due e with
  | true => exact h.step hs hdue
  | false =>
    obtain ⟨hloop, hregistered, hcalls⟩ := apply_of_not_due hdue
    unfold Heeded
    rw [hloop, hregistered]
    exact ⟨lt_of_lt_of_le h.1 hcalls, h.2⟩

private theorem Heeded.run (h : s.Heeded i n) (hs : s.Awake) (post : WakeRun κ) :
    (after Wakeup.apply s post).Heeded i (n - s.steps post) := by
  induction post generalizing s n with
  | nil => exact h
  | cons e post ih =>
    have hrest := ih (h.apply hs e) (hs.apply e)
    rw [Nat.sub_sub] at hrest
    exact hrest

/-- After a `select` that has not reported the wake-up socket, the thread comes back to `select`. -/
private theorem turns {events : List (Ready κ)} (hloop : s.loop = .handling events) (hwake : .wake ∉ events)
    {post : WakeRun κ} (hsteps : s.loop.ahead ≤ s.steps post) :
    ∃ p q, post = p ++ q ∧ (after Wakeup.apply s p).loop = .selecting := by
  induction post generalizing s events with
  | nil =>
    rw [hloop, LoopStage.ahead] at hsteps
    cases hsteps
  | cons e post ih =>
    have hprepend : (∃ p q, post = p ++ q ∧ (after Wakeup.apply (s.apply e) p).loop = .selecting) →
        ∃ p q, e :: post = p ++ q ∧ (after Wakeup.apply s p).loop = .selecting := by
      rintro ⟨p, q, rfl, h⟩
      exact ⟨e :: p, q, rfl, h⟩
    cases hdue : s.due e with
    | false =>
      obtain ⟨hsame, -, -⟩ := apply_of_not_due hdue
      rw [steps, tally, hdue, Bool.toNat_false, Nat.zero_add] at hsteps
      exact hprepend (ih (hsame.trans hloop) hwake (by rwa [hsame]))
    | true =>
      rw [steps, tally, hdue, Bool.toNat_true] at hsteps
      unfold due at hdue
      rw [hloop] at hdue
      cases events with
      | nil =>
        cases e with
        | turn => exact ⟨[.turn], post, rfl, by simp [after, Wakeup.apply, Wakeup.turn, hloop]⟩
        | put | wakeup | select | drain | register | handleRead => cases hdue
      | cons first events =>
        rw [List.mem_cons, not_or] at hwake
        obtain ⟨hfirst, hwake⟩ := hwake
        cases first with
        | wake => exact absurd rfl hfirst
        | socket entry =>
          cases e with
          | handleRead unregisters =>
            have hnext : (s.apply (.handleRead unregisters)).loop = .handling events := by
              simp only [Wakeup.apply, Wakeup.handleRead, hloop]
            refine hprepend (ih hnext hwake ?_)
            rw [hloop, LoopStage.ahead_socket] at hsteps
            rw [hnext, steps]
            omega
          | put | wakeup | select | drain | register | turn => cases hdue

end Round

end Wakeup

end DLStorage
