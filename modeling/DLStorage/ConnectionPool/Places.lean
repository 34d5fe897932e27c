import DLStorage.ConnectionPool.Mux

/-!
# Where the sockets of the multiplexed pool are

A socket is with a caller, in the registration queue, registered, on its way back in the selector thread, in a deque of
idle sockets, or closed.  It is nowhere else at the same time, and a call has only one socket (`Placed`).
-/

namespace DLStorage

open Base (Dict Exclusive after_keeps)

variable {V τ : Type}

namespace MuxPool

/-- Where a socket can be. -/
inductive Place
  | held (c : Nat)
  | queued (c : Nat)
  | registered (c : Nat)
  | returning (c : Nat)
  | idle (peer : NodeInfo)
  | closed

/-- The call that has the socket there. -/
def Place.call : Place → Option Nat
  | held c | queued c | registered c | returning c => some c
  | idle _ | closed => none

/-- The call whose record is there with the socket. -/
def Place.record : Place → Option Nat
  | queued c | registered c | returning c => some c
  | held _ | idle _ | closed => none

variable (s : MuxPool V τ)

def lies (k : Nat) : Place → Prop
  | .held c => ∃ call, s.calls[c]? = some call ∧ call.stage.socket = some k
  | .queued c => (k, c) ∈ s.regQueue
  | .registered c => (k, c) ∈ s.registered
  | .returning c => ∃ msg, s.selector = .returning k c msg
  | .idle peer => k ∈ s.idleAt peer
  | .closed => ∃ sock, s.sockets[k]? = some sock ∧ sock.isOpen = false

/-- Call `c` has socket `k`, or has handed it over. -/
def Has (c k : Nat) : Prop := ∃ q : Place, q.call = some c ∧ s.lies k q

/-- No socket is in two places, and no call has two. -/
structure Placed : Prop where
  once : Exclusive s.lies
  single : Exclusive s.Has
  queue : s.regQueue.Nodup
  registered : s.registered.Nodup
  idle : ∀ peer, (s.idleAt peer).Nodup
  bounded : ∀ (k : Nat) (q : Place), s.lies k q → k < s.sockets.length
  handed : ∀ (k c : Nat) (q : Place), s.lies k q → q.record = some c →
    ∃ call, s.calls[c]? = some call ∧ call.stage.handed = true

variable {s} {s' : MuxPool V τ}

theorem not_lies_empty {k : Nat} {q : Place} : ¬ (empty : MuxPool V τ).lies k q := by
  cases q with
  | held c =>
    rintro ⟨call, hc, -⟩
    cases hc
  | queued c | registered c | idle peer => exact List.not_mem_nil
  | returning c =>
    rintro ⟨msg, hm⟩
    cases hm
  | closed =>
    rintro ⟨sock, hs, -⟩
    cases hs

theorem Placed.empty : Placed (empty : MuxPool V τ) where
  once _ _ _ h := absurd h not_lies_empty
  single := fun _ _ _ ⟨_, _, h⟩ => absurd h not_lies_empty
  queue := List.nodup_nil
  registered := List.nodup_nil
  idle _ := List.nodup_nil
  bounded _ _ h := absurd h not_lies_empty
  handed _ _ _ h := absurd h not_lies_empty

/-! ### What the operations do to places -/

section Operations

variable {c k k' : Nat} {q : Place} {call : MuxCall V τ} {stage : MuxStage V τ} {r : InFlight V τ}
  {f : MuxSocket V τ → MuxSocket V τ} {peer : NodeInfo}

theorem lies_setStage (hcall : s.calls[c]? = some call) :
    (s.setStage c stage).lies k q ↔ q = .held c ∧ stage.socket = some k ∨ q ≠ .held c ∧ s.lies k q := by
  cases q with
  | held c' =>
    by_cases hc : c' = c
    · subst hc
      constructor
      · rintro ⟨call', hcall', hk⟩
        have hset : (s.setStage c' stage).calls[c']? = some { call with stage := stage } :=
          Base.getElem?_modify_of_some hcall
        obtain rfl := Option.some.inj (hset.symm.trans hcall')
        exact Or.inl ⟨rfl, hk⟩
      · rintro (⟨-, hk⟩ | ⟨hne, -⟩)
        · exact ⟨_, Base.getElem?_modify_of_some hcall, hk⟩
        · exact absurd rfl hne
    · have hsame : (s.setStage c stage).calls[c']? = s.calls[c']? := List.getElem?_modify_ne _ _ (Ne.symm hc)
      have hne : Place.held c' ≠ .held c := fun h => hc (Place.held.inj h)
      show (∃ call, (s.setStage c stage).calls[c']? = some call ∧ _) ↔ _
      rw [hsame]
      constructor
      · exact fun h => Or.inr ⟨hne, h⟩
      · rintro (⟨h, -⟩ | ⟨-, h⟩)
        · exact absurd h hne
        · exact h
  | queued c' | registered c' | returning c' | idle peer | closed =>
    exact ⟨fun h => Or.inr ⟨nofun, h⟩, fun h => (h.resolve_left fun h => nomatch h.1).2⟩

theorem calls_setInFlight (hcall : s.calls[c]? = some call) :
    (s.setInFlight c r).calls[c]? = some { call with inflight := r } :=
  Base.getElem?_modify_of_some hcall

theorem lies_setInFlight : (s.setInFlight c r).lies k q ↔ s.lies k q := by
  cases q with
  | held c' =>
    constructor
    · rintro ⟨call, hcall, hk⟩
      obtain ⟨old, hold, ⟨-, rfl⟩ | ⟨-, rfl⟩⟩ := Base.getElem?_modify_some hcall <;> exact ⟨_, hold, hk⟩
    · rintro ⟨call, hcall, hk⟩
      by_cases hc : c' = c
      · subst hc
        exact ⟨_, Base.getElem?_modify_of_some hcall, hk⟩
      · exact ⟨call, (List.getElem?_modify_ne _ _ (Ne.symm hc)).trans hcall, hk⟩
  | queued c' | registered c' | returning c' | idle peer | closed => exact Iff.rfl

theorem lies_setSocket (hf : ∀ sock, (f sock).isOpen = sock.isOpen) : (s.setSocket k' f).lies k q ↔ s.lies k q := by
  cases q with
  | closed =>
    constructor
    · rintro ⟨sock, hsock, hclosed⟩
      obtain ⟨old, hold, ⟨-, rfl⟩ | ⟨-, rfl⟩⟩ := Base.getElem?_modify_some hsock
      · exact ⟨old, hold, (hf old).symm.trans hclosed⟩
      · exact ⟨_, hold, hclosed⟩
    · rintro ⟨sock, hsock, hclosed⟩
      by_cases hk : k = k'
      · subst hk
        exact ⟨_, Base.getElem?_modify_of_some hsock, (hf sock).trans hclosed⟩
      · exact ⟨sock, (List.getElem?_modify_ne _ _ (Ne.symm hk)).trans hsock, hclosed⟩
  | held c' | queued c' | registered c' | returning c' | idle peer => exact Iff.rfl

theorem lies_close : (s.close k').lies k q ↔ q = .closed ∧ k = k' ∧ k < s.sockets.length ∨ s.lies k q := by
  cases q with
  | closed =>
    constructor
    · rintro ⟨sock, hsock, hclosed⟩
      obtain ⟨old, hold, ⟨rfl, rfl⟩ | ⟨-, rfl⟩⟩ := Base.getElem?_modify_some hsock
      · exact Or.inl ⟨rfl, rfl, (List.getElem?_eq_some_iff.1 hold).1⟩
      · exact Or.inr ⟨_, hold, hclosed⟩
    · rintro (⟨-, rfl, hlt⟩ | ⟨sock, hsock, hclosed⟩)
      · exact ⟨_, Base.getElem?_modify_of_some (List.getElem?_eq_getElem hlt), rfl⟩
      · by_cases hk : k = k'
        · subst hk
          exact ⟨_, Base.getElem?_modify_of_some hsock, rfl⟩
        · exact ⟨sock, (List.getElem?_modify_ne _ _ (Ne.symm hk)).trans hsock, hclosed⟩
  | held c' | queued c' | registered c' | returning c' | idle peer =>
    exact ⟨Or.inr, fun h => h.resolve_left fun h => nomatch h.1⟩

theorem lies_unregister :
    (s.unregister k').lies k q ↔ s.lies k q ∧ ∀ c, q = .registered c → k ≠ k' := by
  cases q with
  | registered c' =>
    show (k, c') ∈ s.registered.filter _ ↔ _
    rw [List.mem_filter]
    simp [lies]
  | held c' | queued c' | returning c' | idle peer | closed => exact ⟨fun h => ⟨h, nofun⟩, fun h => h.1⟩

theorem lies_accept : (s.accept peer).lies k q ↔ s.lies k q := by
  cases q with
  | closed =>
    constructor
    · rintro ⟨sock, hsock, hclosed⟩
      rcases Base.getElem?_concat_some hsock with hold | ⟨-, rfl⟩
      · exact ⟨sock, hold, hclosed⟩
      · cases hclosed
    · rintro ⟨sock, hsock, hclosed⟩
      exact ⟨sock, Base.getElem?_concat_of_some hsock, hclosed⟩
  | held c' | queued c' | registered c' | returning c' | idle peer => exact Iff.rfl

theorem idleAt_setIdle (peer peer' : NodeInfo) (socks : List Nat) :
    (s.setIdle peer socks).idleAt peer' = if peer' = peer then socks else s.idleAt peer' := by
  unfold idleAt setIdle
  simp only
  rw [Dict.get_set]
  split <;> rfl

theorem lies_setIdle {socks : List Nat} :
    (s.setIdle peer socks).lies k q ↔ q = .idle peer ∧ k ∈ socks ∨ q ≠ .idle peer ∧ s.lies k q := by
  cases q with
  | idle peer' =>
    show k ∈ (s.setIdle peer socks).idleAt peer' ↔ _
    rw [idleAt_setIdle]
    by_cases hpeer : peer' = peer
    · subst hpeer
      simp
    · simp [hpeer, lies]
  | held c' | queued c' | registered c' | returning c' | closed =>
    exact ⟨fun h => Or.inr ⟨nofun, h⟩, fun h => (h.resolve_left fun h => nomatch h.1).2⟩

theorem lies_setSelector {stage : SelectorStage V τ} : (s.setSelector stage).lies k q ↔
    (∃ c msg, q = .returning c ∧ stage = .returning k c msg) ∨ (∀ c, q ≠ .returning c) ∧ s.lies k q := by
  cases q with
  | returning c' =>
    constructor
    · rintro ⟨msg, hmsg⟩
      exact Or.inl ⟨c', msg, rfl, hmsg⟩
    · rintro (⟨c, msg, hc, hmsg⟩ | ⟨hne, -⟩)
      · cases hc
        exact ⟨msg, hmsg⟩
      · exact absurd rfl (hne c')
  | held c' | queued c' | registered c' | idle peer | closed =>
    exact ⟨fun h => Or.inr ⟨nofun, h⟩, fun h => (h.resolve_left fun ⟨_, _, h, _⟩ => nomatch h).2⟩

theorem lies_enqueue : (s.enqueue k' c).lies k q ↔ q = .queued c ∧ k = k' ∨ s.lies k q := by
  cases q with
  | queued c' =>
    show (k, c') ∈ s.regQueue ++ [(k', c)] ↔ _
    rw [List.mem_append, List.mem_singleton, Prod.mk.injEq, or_comm]
    simp [lies, and_comm]
  | held c' | registered c' | returning c' | idle peer | closed =>
    exact ⟨Or.inr, fun h => h.resolve_left fun h => nomatch h.1⟩

theorem lies_start {msg : Message V τ} : (s.start peer msg stage).lies k q ↔
    q = .held s.calls.length ∧ stage.socket = some k ∨ s.lies k q := by
  cases q with
  | held c' =>
    constructor
    · rintro ⟨call, hcall, hk⟩
      rcases Base.getElem?_concat_some hcall with hold | ⟨rfl, rfl⟩
      · exact Or.inr ⟨call, hold, hk⟩
      · exact Or.inl ⟨rfl, hk⟩
    · rintro (⟨hq, hk⟩ | ⟨call, hcall, hk⟩)
      · cases hq
        exact ⟨_, List.getElem?_concat_length, hk⟩
      · exact ⟨call, Base.getElem?_concat_of_some hcall, hk⟩
  | queued c' | registered c' | returning c' | idle peer | closed =>
    exact ⟨Or.inr, fun h => h.resolve_left fun h => nomatch h.1⟩

theorem getElem?_signalRegistered (s : MuxPool V τ) (c : Nat) : s.signalRegistered.calls[c]? =
    (s.calls[c]?).map fun call =>
      if s.registered.any (fun entry => entry.2 = c) then { call with inflight := { call.inflight with event := true } }
      else call :=
  List.getElem?_mapIdx

theorem lies_signalRegistered : s.signalRegistered.lies k q ↔ s.lies k q := by
  cases q with
  | held c' =>
    show (∃ call, s.signalRegistered.calls[c']? = some call ∧ _) ↔ _
    rw [getElem?_signalRegistered]
    cases hcall : s.calls[c']? with
    | none => simp [lies, hcall]
    | some call =>
      simp only [Option.map_some, Option.some.injEq, exists_eq_left', lies, hcall]
      split <;> rfl
  | queued c' | registered c' | returning c' | idle peer | closed => exact Iff.rfl

theorem closeEach_frame (s : MuxPool V τ) (socks : List Nat) :
    (s.closeEach socks).idle = s.idle ∧ (s.closeEach socks).regQueue = s.regQueue ∧
      (s.closeEach socks).registered = s.registered ∧ (s.closeEach socks).calls = s.calls ∧
      (s.closeEach socks).sockets.length = s.sockets.length := by
  induction socks generalizing s with
  | nil => exact ⟨rfl, rfl, rfl, rfl, rfl⟩
  | cons k' rest ih =>
    obtain ⟨hidle, hqueue, hregistered, hcalls, hsockets⟩ := ih (s.close k')
    exact ⟨hidle, hqueue, hregistered, hcalls, hsockets.trans (List.length_modify ..)⟩

theorem lies_closeEach {socks : List Nat} :
    (s.closeEach socks).lies k q ↔ q = .closed ∧ k ∈ socks ∧ k < s.sockets.length ∨ s.lies k q := by
  induction socks generalizing s with
  | nil => simp [closeEach]
  | cons k' rest ih =>
    have hlen : (s.close k').sockets.length = s.sockets.length := List.length_modify ..
    show ((s.close k').closeEach rest).lies k q ↔ _
    rw [ih, lies_close, hlen, List.mem_cons]
    tauto

theorem atCall_of {P : MuxPool V τ → Prop} {f : MuxCall V τ → MuxPool V τ} (hs : P s)
    (hcall : ∀ call, s.calls[c]? = some call → P (f call)) : P (s.atCall c f) := by
  unfold atCall
  split
  · exact hs
  · rename_i call h
    exact hcall call h

theorem atRegistered_of {P : MuxPool V τ → Prop} {f : Nat → MuxSocket V τ → MuxCall V τ → MuxPool V τ} (hs : P s)
    (hf : ∀ c sock call, s.selector = .polling → s.lies k (.registered c) → s.sockets[k]? = some sock →
      s.calls[c]? = some call → P (f c sock call)) : P (s.atRegistered k f) := by
  unfold atRegistered
  split
  · rename_i entry hpolling hfind
    split
    · rename_i sock call hsock hcall
      obtain ⟨k', c⟩ := entry
      have hkey : k' = k := by simpa using List.find?_some hfind
      subst hkey
      exact hf c sock call hpolling (List.mem_of_find?_eq_some hfind) hsock hcall
    · exact hs
  · exact hs

end Operations

/-! ### Sockets that leave their place, and sockets that take one -/

/-- Socket `k` is nowhere. -/
def Free (s : MuxPool V τ) (k : Nat) : Prop := ∀ q, ¬ s.lies k q

namespace Placed

/-- Sockets leave their places only. -/
theorem mono (h : s.Placed) (hlies : ∀ k q, s'.lies k q → s.lies k q) (hqueue : s'.regQueue.Sublist s.regQueue)
    (hregistered : s'.registered.Sublist s.registered) (hidle : ∀ peer, (s'.idleAt peer).Sublist (s.idleAt peer))
    (hsockets : s.sockets.length ≤ s'.sockets.length)
    (hcalls : ∀ (c : Nat) (call : MuxCall V τ), s.calls[c]? = some call → call.stage.handed = true →
      ∃ call', s'.calls[c]? = some call' ∧ call'.stage.handed = true) : s'.Placed where
  once := h.once.mono hlies
  single := h.single.mono fun _ k ⟨q, hq, hk⟩ => ⟨q, hq, hlies k q hk⟩
  queue := h.queue.sublist hqueue
  registered := h.registered.sublist hregistered
  idle peer := (h.idle peer).sublist (hidle peer)
  bounded k q hk := (h.bounded k q (hlies k q hk)).trans_le hsockets
  handed := by
    intro k c q hk hq
    obtain ⟨call, hcall, hhanded⟩ := h.handed k c q (hlies k q hk) hq
    exact hcalls c call hcall hhanded

/-- A socket that is nowhere takes a place; if that is with a call, the call has no other. -/
theorem place (h : s.Placed) {k : Nat} {q : Place} (hfree : s.Free k) (hk : k < s.sockets.length)
    (hlies : ∀ k' q', s'.lies k' q' → k' = k ∧ q' = q ∨ s.lies k' q')
    (hcall : ∀ c, q.call = some c → ∀ k', ¬ s.Has c k')
    (hrecord : ∀ c, q.record = some c → ∃ call, s.calls[c]? = some call ∧ call.stage.handed = true)
    (hqueue : s'.regQueue.Nodup) (hregistered : s'.registered.Nodup) (hidle : ∀ peer, (s'.idleAt peer).Nodup)
    (hsockets : s'.sockets.length = s.sockets.length)
    (hcalls : ∀ (c : Nat) (call : MuxCall V τ), s.calls[c]? = some call → call.stage.handed = true →
      ∃ call', s'.calls[c]? = some call' ∧ call'.stage.handed = true) : s'.Placed where
  once := by
    apply h.once.move (M := fun k' => k' = k) (f := fun _ => q)
    intro k' q' h'
    rcases hlies k' q' h' with hnew | hold
    · exact Or.inl hnew
    · refine Or.inr ⟨?_, hold⟩
      rintro rfl
      exact hfree q' hold
  single := by
    rintro c k₁ k₂ ⟨q₁, hc₁, h₁⟩ ⟨q₂, hc₂, h₂⟩
    rcases hlies k₁ q₁ h₁ with ⟨rfl, rfl⟩ | hold₁ <;> rcases hlies k₂ q₂ h₂ with ⟨rfl, rfl⟩ | hold₂
    · rfl
    · exact absurd ⟨q₂, hc₂, hold₂⟩ (hcall c hc₁ k₂)
    · exact absurd ⟨q₁, hc₁, hold₁⟩ (hcall c hc₂ k₁)
    · exact h.single c k₁ k₂ ⟨q₁, hc₁, hold₁⟩ ⟨q₂, hc₂, hold₂⟩
  queue := hqueue
  registered := hregistered
  idle := hidle
  bounded := by
    intro k' q' h'
    rw [hsockets]
    rcases hlies k' q' h' with ⟨rfl, -⟩ | hold
    · exact hk
    · exact h.bounded k' q' hold
  handed := by
    intro k' c q' h' hq
    obtain ⟨call, hget, hhanded⟩ : ∃ call, s.calls[c]? = some call ∧ call.stage.handed = true := by
      rcases hlies k' q' h' with ⟨-, rfl⟩ | hold
      · exact hrecord c hq
      · exact h.handed k' c q' hold hq
    exact hcalls c call hget hhanded

/-- What leaves its only place is nowhere. -/
theorem free_of_leaves (h : s.Placed) {k : Nat} {q : Place} (hk : s.lies k q)
    (hlies : ∀ q', s'.lies k q' → q' ≠ q ∧ s.lies k q') : s'.Free k := by
  intro q' hq'
  obtain ⟨hne, hold⟩ := hlies q' hq'
  exact hne (h.once k q' q hold hk)

section Operations

variable {c k : Nat} {call : MuxCall V τ} {stage : MuxStage V τ}

private theorem handed_setStage (hcall : s.calls[c]? = some call)
    (hhanded : call.stage.handed = true → stage.handed = true) (c' : Nat) (call' : MuxCall V τ)
    (hc : s.calls[c']? = some call') (hh : call'.stage.handed = true) :
    ∃ call', (s.setStage c stage).calls[c']? = some call' ∧ call'.stage.handed = true := by
  by_cases hcc : c' = c
  · subst hcc
    obtain rfl : call = call' := Option.some.inj (hcall.symm.trans hc)
    exact ⟨_, Base.getElem?_modify_of_some hcall, hhanded hh⟩
  · exact ⟨call', (List.getElem?_modify_ne _ _ (Ne.symm hcc)).trans hc, hh⟩

/-- A call goes to a stage without taking a socket. -/
theorem setStage (h : s.Placed) (hcall : s.calls[c]? = some call)
    (hsocket : ∀ k, stage.socket = some k → call.stage.socket = some k)
    (hhanded : call.stage.handed = true → stage.handed = true) : (s.setStage c stage).Placed := by
  refine h.mono (fun k q hk => ?_) (List.Sublist.refl _) (List.Sublist.refl _) (fun _ => List.Sublist.refl _)
    (le_refl _) (handed_setStage hcall hhanded)
  rcases (lies_setStage hcall).1 hk with ⟨rfl, hsock⟩ | ⟨-, hold⟩
  · exact ⟨call, hcall, hsocket k hsock⟩
  · exact hold

/-- A call takes a socket that is nowhere. -/
theorem hold (h : s.Placed) (hcall : s.calls[c]? = some call) (hfree : s.Free k) (hk : k < s.sockets.length)
    (hnone : ∀ k', ¬ s.Has c k') (hstage : stage.socket = some k) (hhanded : call.stage.handed = false) :
    (s.setStage c stage).Placed := by
  refine h.place (q := .held c) hfree hk (fun k' q' hk' => ?_) (fun c' hc' => ?_) nofun h.queue h.registered h.idle rfl
    (handed_setStage hcall fun hh => absurd hh (by rw [hhanded]; decide))
  · rcases (lies_setStage hcall).1 hk' with ⟨rfl, hsock⟩ | ⟨-, hold⟩
    · exact Or.inl ⟨Option.some.inj (hsock.symm.trans hstage), rfl⟩
    · exact Or.inr hold
  · obtain rfl := Option.some.inj hc'
    exact hnone

/-- A socket that is nowhere is closed. -/
theorem close (h : s.Placed) (hfree : s.Free k) (hk : k < s.sockets.length) : (s.close k).Placed := by
  refine h.place (q := .closed) hfree hk (fun k' q' hk' => ?_) nofun nofun h.queue h.registered h.idle
    (List.length_modify ..) (fun c call hc hh => ⟨call, hc, hh⟩)
  rcases lies_close.1 hk' with ⟨rfl, rfl, -⟩ | hold
  · exact Or.inl ⟨rfl, rfl⟩
  · exact Or.inr hold

theorem enqueue (h : s.Placed) (hcall : s.calls[c]? = some call) (hfree : s.Free k) (hk : k < s.sockets.length)
    (hnone : ∀ k', ¬ s.Has c k') (hhanded : call.stage.handed = true) : (s.enqueue k c).Placed := by
  refine h.place (q := .queued c) hfree hk (fun k' q' hk' => ?_) (fun c' hc' => ?_) (fun c' hc' => ?_) ?_ h.registered
    h.idle rfl (fun c call hc hh => ⟨call, hc, hh⟩)
  · rcases lies_enqueue.1 hk' with ⟨rfl, rfl⟩ | hold
    · exact Or.inl ⟨rfl, rfl⟩
    · exact Or.inr hold
  · obtain rfl := Option.some.inj hc'
    exact hnone
  · obtain rfl := Option.some.inj hc'
    exact ⟨call, hcall, hhanded⟩
  · show (s.regQueue ++ [(k, c)]).Nodup
    rw [List.nodup_append]
    refine ⟨h.queue, List.nodup_singleton _, ?_⟩
    rintro _ hmem _ hnew rfl
    rw [List.mem_singleton] at hnew
    subst hnew
    exact hfree (.queued c) hmem

/-- Sockets are taken out of a deque. -/
theorem shrink (h : s.Placed) {peer : NodeInfo} {socks : List Nat} (hsub : socks.Sublist (s.idleAt peer)) :
    (s.setIdle peer socks).Placed := by
  refine h.mono (fun k q hk => ?_) (List.Sublist.refl _) (List.Sublist.refl _) (fun peer' => ?_) (le_refl _)
    (fun c call hc hh => ⟨call, hc, hh⟩)
  · rcases lies_setIdle.1 hk with ⟨rfl, hmem⟩ | ⟨-, hold⟩
    · exact hsub.subset hmem
    · exact hold
  · rw [idleAt_setIdle]
    split
    · rename_i hpeer
      exact hpeer ▸ hsub
    · exact List.Sublist.refl _

/-- A socket that is nowhere is put into a deque. -/
theorem appendLeft (h : s.Placed) {peer : NodeInfo} (hfree : s.Free k) (hk : k < s.sockets.length) :
    (s.setIdle peer (k :: s.idleAt peer)).Placed := by
  refine h.place (q := .idle peer) hfree hk (fun k' q' hk' => ?_) nofun nofun h.queue h.registered (fun peer' => ?_) rfl
    (fun c call hc hh => ⟨call, hc, hh⟩)
  · rcases lies_setIdle.1 hk' with ⟨rfl, hmem⟩ | ⟨-, hold⟩
    · rcases List.mem_cons.1 hmem with rfl | hmem
      · exact Or.inl ⟨rfl, rfl⟩
      · exact Or.inr hmem
    · exact Or.inr hold
  · rw [idleAt_setIdle]
    split
    · exact List.nodup_cons.2 ⟨fun hmem => hfree (.idle peer) hmem, h.idle peer⟩
    · exact h.idle peer'

/-- The selector thread goes on without a socket in its hands. -/
theorem setSelector (h : s.Placed) {stage : SelectorStage V τ} (hstage : ∀ k c msg, stage ≠ .returning k c msg) :
    (s.setSelector stage).Placed := by
  refine h.mono (fun k q hk => ?_) (List.Sublist.refl _) (List.Sublist.refl _) (fun _ => List.Sublist.refl _)
    (le_refl _) (fun c call hc hh => ⟨call, hc, hh⟩)
  rcases lies_setSelector.1 hk with ⟨c, msg, -, hreturning⟩ | ⟨-, hold⟩
  · exact absurd hreturning (hstage k c msg)
  · exact hold

/-- The selector thread takes a socket that is nowhere into its hands. -/
theorem takeBack (h : s.Placed) (hcall : s.calls[c]? = some call) {msg : Message V τ} (hfree : s.Free k)
    (hk : k < s.sockets.length) (hnone : ∀ k', ¬ s.Has c k') (hhanded : call.stage.handed = true) :
    (s.setSelector (.returning k c msg)).Placed := by
  refine h.place (q := .returning c) hfree hk (fun k' q' hk' => ?_) (fun c' hc' => ?_) (fun c' hc' => ?_) h.queue
    h.registered h.idle rfl (fun c call hc hh => ⟨call, hc, hh⟩)
  · rcases lies_setSelector.1 hk' with ⟨c', msg', rfl, hreturning⟩ | ⟨-, hold⟩
    · cases hreturning
      exact Or.inl ⟨rfl, rfl⟩
    · exact Or.inr hold
  · obtain rfl := Option.some.inj hc'
    exact hnone
  · obtain rfl := Option.some.inj hc'
    exact ⟨call, hcall, hhanded⟩

theorem unregister (h : s.Placed) : (s.unregister k).Placed :=
  h.mono (fun _ _ hk => (lies_unregister.1 hk).1) (List.Sublist.refl _) List.filter_sublist
    (fun _ => List.Sublist.refl _) (le_refl _) (fun _ call hc hh => ⟨call, hc, hh⟩)

theorem accept (h : s.Placed) (peer : NodeInfo) : (s.accept peer).Placed :=
  h.mono (fun _ _ hk => lies_accept.1 hk) (List.Sublist.refl _) (List.Sublist.refl _) (fun _ => List.Sublist.refl _)
    (by simp [MuxPool.accept]) (fun _ call hc hh => ⟨call, hc, hh⟩)

theorem setSocket (h : s.Placed) {f : MuxSocket V τ → MuxSocket V τ} (hf : ∀ sock, (f sock).isOpen = sock.isOpen) :
    (s.setSocket k f).Placed :=
  h.mono (fun _ _ hk => (lies_setSocket hf).1 hk) (List.Sublist.refl _) (List.Sublist.refl _)
    (fun _ => List.Sublist.refl _) (List.length_modify ..).ge (fun _ call hc hh => ⟨call, hc, hh⟩)

theorem setInFlight (h : s.Placed) {r : InFlight V τ} : (s.setInFlight c r).Placed := by
  refine h.mono (fun _ _ hk => lies_setInFlight.1 hk) (List.Sublist.refl _) (List.Sublist.refl _)
    (fun _ => List.Sublist.refl _) (le_refl _) (fun c' call hc hh => ?_)
  by_cases hcc : c' = c
  · subst hcc
    exact ⟨_, Base.getElem?_modify_of_some hc, hh⟩
  · exact ⟨call, (List.getElem?_modify_ne _ _ (Ne.symm hcc)).trans hc, hh⟩

theorem signalRegistered (h : s.Placed) : s.signalRegistered.Placed := by
  refine h.mono (fun _ _ hk => lies_signalRegistered.1 hk) (List.Sublist.refl _) (List.Sublist.refl _)
    (fun _ => List.Sublist.refl _) (le_refl _) (fun c call hc hh => ?_)
  rw [getElem?_signalRegistered, hc]
  refine ⟨_, rfl, ?_⟩
  split <;> exact hh

/-- Sockets that are nowhere are closed. -/
theorem closeEach (h : s.Placed) {socks : List Nat} (hfree : ∀ k ∈ socks, s.Free k) : (s.closeEach socks).Placed := by
  obtain ⟨hidle, hqueue, hregistered, hcalls, hsockets⟩ := closeEach_frame s socks
  exact {
    once := by
      apply h.once.move (M := fun k => k ∈ socks) (f := fun _ => .closed)
      intro k q hk
      rcases lies_closeEach.1 hk with ⟨rfl, hmem, -⟩ | hold
      · exact Or.inl ⟨hmem, rfl⟩
      · exact Or.inr ⟨fun hmem => hfree k hmem q hold, hold⟩
    single := by
      apply h.single.mono
      rintro c k ⟨q, hq, hk⟩
      rcases lies_closeEach.1 hk with ⟨rfl, -⟩ | hold
      · cases hq
      · exact ⟨q, hq, hold⟩
    queue := hqueue ▸ h.queue
    registered := hregistered ▸ h.registered
    idle := fun peer => by
      unfold idleAt
      rw [hidle]
      exact h.idle peer
    bounded := by
      intro k q hk
      rw [hsockets]
      rcases lies_closeEach.1 hk with ⟨-, -, hlt⟩ | hold
      · exact hlt
      · exact h.bounded k q hold
    handed := by
      intro k c q hk hq
      rw [hcalls]
      rcases lies_closeEach.1 hk with ⟨rfl, -⟩ | hold
      · cases hq
      · exact h.handed k c q hold hq }

end Operations

/-! ### Every event keeps sockets in their places -/

section Events

variable {c k : Nat}

theorem cases_of_has (h : s.Has c k) : s.lies k (.held c) ∨ ∃ q : Place, q.record = some c ∧ s.lies k q := by
  obtain ⟨q, hq, hk⟩ := h
  cases q with
  | held c' =>
    obtain rfl := Option.some.inj hq
    exact Or.inl hk
  | queued c' | registered c' | returning c' =>
    obtain rfl := Option.some.inj hq
    exact Or.inr ⟨_, rfl, hk⟩
  | idle peer | closed => cases hq

/-- A call that has not got a socket and has handed none over has none. -/
theorem not_has (h : s.Placed) {call : MuxCall V τ} (hcall : s.calls[c]? = some call)
    (hsocket : call.stage.socket = none) (hhanded : call.stage.handed = false) (k' : Nat) : ¬ s.Has c k' := by
  intro hhas
  rcases cases_of_has hhas with ⟨call', hcall', hsock⟩ | ⟨q, hq, hk'⟩
  · obtain rfl : call = call' := Option.some.inj (hcall.symm.trans hcall')
    rw [hsocket] at hsock
    cases hsock
  · obtain ⟨call', hcall', hh⟩ := h.handed k' c q hk' hq
    obtain rfl : call = call' := Option.some.inj (hcall.symm.trans hcall')
    rw [hhanded] at hh
    cases hh

/-- A call whose only socket is nowhere has none. -/
private theorem not_has_of_free (h : s.Placed) {q : Place} (hk : s.lies k q) (hq : q.call = some c)
    (hlies : ∀ k' q', s'.lies k' q' → s.lies k' q') (hfree : s'.Free k) (k' : Nat) : ¬ s'.Has c k' := by
  rintro ⟨q', hq', hk'⟩
  obtain rfl := h.single c k k' ⟨q, hq, hk⟩ ⟨q', hq', hlies k' q' hk'⟩
  exact hfree q' hk'

private theorem not_has_new (h : s.Placed) (k' : Nat) : ¬ s.Has s.calls.length k' := by
  intro hhas
  rcases cases_of_has hhas with ⟨call, hcall, -⟩ | ⟨q, hq, hk'⟩
  · simp at hcall
  · obtain ⟨call, hcall, -⟩ := h.handed k' _ q hk' hq
    simp at hcall

private theorem handed_start {peer : NodeInfo} {msg : Message V τ} {stage : MuxStage V τ} (c : Nat)
    (call : MuxCall V τ) (hc : s.calls[c]? = some call) (hh : call.stage.handed = true) :
    ∃ call', (s.start peer msg stage).calls[c]? = some call' ∧ call'.stage.handed = true :=
  ⟨call, Base.getElem?_concat_of_some hc, hh⟩

theorem call (h : s.Placed) (peer : NodeInfo) (msg : Message V τ) : (s.call peer msg).Placed := by
  unfold MuxPool.call
  split
  · refine h.mono (fun k q hk => ?_) (List.Sublist.refl _) (List.Sublist.refl _) (fun _ => List.Sublist.refl _)
      (le_refl _) handed_start
    rcases lies_start.1 hk with ⟨-, hsock⟩ | hold
    · cases hsock
    · exact hold
  · rename_i k hlast
    have hidle : s.idleAt peer = (s.idleAt peer).dropLast ++ [k] := (List.dropLast_append_getLast? k hlast).symm
    have hnodup := h.idle peer
    have hmem : k ∈ s.idleAt peer := List.mem_of_getLast? hlast
    rw [hidle, List.nodup_append] at hnodup
    have hrest : (s.setIdle peer (s.idleAt peer).dropLast).Placed := h.shrink (List.dropLast_sublist _)
    have hfree : (s.setIdle peer (s.idleAt peer).dropLast).Free k := by
      apply h.free_of_leaves (q := .idle peer) hmem
      intro q hq
      rcases lies_setIdle.1 hq with ⟨-, hin⟩ | hold
      · exact absurd rfl (hnodup.2.2 k hin k (List.mem_singleton_self k))
      · exact hold
    refine hrest.place (q := .held s.calls.length) hfree (h.bounded k (.idle peer) hmem) (fun k' q' hk' => ?_)
      (fun c' hc' => ?_) (fun _ hc' => nomatch hc') hrest.queue hrest.registered hrest.idle rfl handed_start
    · rcases lies_start.1 hk' with ⟨rfl, hsock⟩ | hold
      · exact Or.inl ⟨(Option.some.inj hsock).symm, rfl⟩
      · exact Or.inr hold
    · obtain rfl := Option.some.inj hc'
      exact hrest.not_has_new

/-- A call lets go of its socket. -/
private theorem letGo (h : s.Placed) (stage : MuxStage V τ) {call : MuxCall V τ} (hcall : s.calls[c]? = some call)
    (hk : call.stage.socket = some k) (hsocket : stage.socket = none) (hhanded : call.stage.handed = false) :
    (s.setStage c stage).Placed ∧ (s.setStage c stage).Free k ∧ ∀ k', ¬ (s.setStage c stage).Has c k' := by
  have hheld : s.lies k (.held c) := ⟨call, hcall, hk⟩
  have hlies : ∀ k' q', (s.setStage c stage).lies k' q' → q' ≠ .held c ∧ s.lies k' q' := by
    intro k' q' hk'
    rcases (lies_setStage hcall).1 hk' with ⟨-, hsock⟩ | hold
    · rw [hsocket] at hsock
      cases hsock
    · exact hold
  have hfree := h.free_of_leaves hheld fun q' => hlies k q'
  refine ⟨h.setStage hcall (fun k hk => ?_) (fun hh => ?_), hfree, ?_⟩
  · rw [hsocket] at hk
    cases hk
  · rw [hhanded] at hh
    cases hh
  · exact h.not_has_of_free hheld rfl (fun k' q' hk' => (hlies k' q' hk').2) hfree

theorem connect (h : s.Placed) (accepted : Bool) : (s.connect c accepted).Placed := by
  apply atCall_of h
  intro call hcall
  split
  · rename_i hstage
    have hsocket : call.stage.socket = none := by rw [hstage]; rfl
    have hhanded : call.stage.handed = false := by rw [hstage]; rfl
    split
    · have hfree : (s.accept call.peer).Free s.sockets.length := by
        intro q hq
        exact absurd (h.bounded _ q (lies_accept.1 hq)) (lt_irrefl _)
      refine (h.accept call.peer).hold hcall hfree ?_ ((h.accept call.peer).not_has hcall hsocket hhanded) rfl hhanded
      simp [MuxPool.accept]
    · refine h.setStage hcall (fun k hk => ?_) fun hh => ?_
      · cases hk
      · rfl
  · exact h

theorem dump (h : s.Placed) (p : Pickle V τ) : (s.dump p c).Placed := by
  apply atCall_of h
  intro call hcall
  split
  · rename_i k hstage
    have hhanded : call.stage.handed = false := by rw [hstage]; rfl
    split
    · refine h.setStage hcall (fun k' hk' => ?_) fun hh => ?_
      · rw [hstage]
        exact hk'
      · rw [hhanded] at hh
        cases hh
    · exact (h.letGo _ hcall (by rw [hstage]; rfl) rfl hhanded).1
  · exact h

theorem send (h : s.Placed) (accepted closeRaises : Bool) : (s.send c accepted closeRaises).Placed := by
  apply atCall_of h
  intro call hcall
  split
  · rename_i k hstage
    have hhanded : call.stage.handed = false := by rw [hstage]; rfl
    have hk : call.stage.socket = some k := by rw [hstage]; rfl
    split
    · refine Placed.setStage (s := s.setSocket k _) (h.setSocket fun _ => rfl) hcall (fun k' hk' => ?_) fun hh => ?_
      · rw [hk]
        exact hk'
      · rw [hhanded] at hh
        cases hh
    · have hlt : k < s.sockets.length := h.bounded k (.held c) ⟨call, hcall, hk⟩
      have hgone := h.letGo (if closeRaises then .raised else .ended none) hcall hk (by cases closeRaises <;> rfl)
        hhanded
      exact hgone.1.close hgone.2.1 hlt
  · exact h

theorem handOver (h : s.Placed) : (s.handOver c).Placed := by
  apply atCall_of h
  intro call hcall
  split
  · rename_i k hstage
    have hk : call.stage.socket = some k := by rw [hstage]; rfl
    obtain ⟨hgone, hfree, hnone⟩ := h.letGo .waiting hcall hk rfl (by rw [hstage]; rfl)
    exact hgone.enqueue (Base.getElem?_modify_of_some hcall) hfree (h.bounded k (.held c) ⟨call, hcall, hk⟩) hnone rfl
  · exact h

theorem wake (h : s.Placed) : (s.wake c).Placed := by
  apply atCall_of h
  intro call hcall
  split
  · exact h.setStage hcall (fun k hk => by cases hk) fun _ => rfl
  · exact h

theorem answer (h : s.Placed) (body : List UInt8) : (s.answer k body).Placed := by
  unfold MuxPool.answer
  split
  · exact h
  · split
    · exact h
    · split
      · refine (Placed.setSocket (f := _) h fun _ => ?_ : (s.setSocket k _).Placed).mono (fun k q hk => ?_)
          (List.Sublist.refl _) (List.Sublist.refl _) (fun _ => List.Sublist.refl _) (le_refl _)
          (fun _ call hc hh => ⟨call, hc, hh⟩)
        · rfl
        · cases q <;> exact hk
      · exact h

theorem register (h : s.Placed) : s.register.Placed := by
  unfold MuxPool.register
  split
  · rename_i entry rest hpolling hqueue
    obtain ⟨k, c⟩ := entry
    have hmem : s.lies k (.queued c) := by
      show (k, c) ∈ s.regQueue
      rw [hqueue]
      exact List.mem_cons_self
    have hnodup := h.queue
    rw [hqueue, List.nodup_cons] at hnodup
    have hlies : ∀ k' q', ({ s with regQueue := rest } : MuxPool V τ).lies k' q' → s.lies k' q' := by
      intro k' q' hk'
      cases q' with
      | queued c' =>
        show (k', c') ∈ s.regQueue
        rw [hqueue]
        exact List.mem_cons_of_mem _ hk'
      | held c' | registered c' | returning c' | idle peer | closed => exact hk'
    have hrest : ({ s with regQueue := rest } : MuxPool V τ).Placed :=
      h.mono hlies (by rw [hqueue]; exact List.sublist_cons_self _ _) (List.Sublist.refl _)
        (fun _ => List.Sublist.refl _) (le_refl _) (fun _ call hc hh => ⟨call, hc, hh⟩)
    have hfree : ({ s with regQueue := rest } : MuxPool V τ).Free k := by
      apply h.free_of_leaves hmem
      intro q' hq'
      refine ⟨?_, hlies k q' hq'⟩
      rintro rfl
      exact hnodup.1 hq'
    split
    · refine hrest.place (q := .registered c) hfree (h.bounded k (.queued c) hmem) (fun k' q' hk' => ?_)
        (fun c' hc' => ?_) (fun c' hc' => ?_) hrest.queue ?_ h.idle rfl (fun _ call hc hh => ⟨call, hc, hh⟩)
      · cases q' with
        | registered c' =>
          rcases List.mem_append.1 hk' with hold | hnew
          · exact Or.inr hold
          · cases List.mem_singleton.1 hnew
            exact Or.inl ⟨rfl, rfl⟩
        | held c' | queued c' | returning c' | idle peer | closed => exact Or.inr hk'
      · obtain rfl := Option.some.inj hc'
        exact h.not_has_of_free hmem rfl hlies hfree
      · obtain rfl := Option.some.inj hc'
        exact h.handed k c (.queued c) hmem rfl
      · show (s.registered ++ [(k, c)]).Nodup
        rw [List.nodup_append]
        refine ⟨h.registered, List.nodup_singleton _, ?_⟩
        rintro _ hold _ hnew rfl
        rw [List.mem_singleton] at hnew
        subst hnew
        exact hfree (.registered c) hold
    · exact hrest.setSelector fun _ _ _ h => by cases h
  · exact h

/-- A registered socket is unregistered. -/
private theorem unregistered (h : s.Placed) (hk : s.lies k (.registered c)) :
    (s.unregister k).Placed ∧ (s.unregister k).Free k ∧ ∀ k', ¬ (s.unregister k).Has c k' := by
  have hfree : (s.unregister k).Free k := by
    apply h.free_of_leaves hk
    intro q hq
    obtain ⟨hold, hne⟩ := lies_unregister.1 hq
    exact ⟨fun hq => hne c hq rfl, hold⟩
  exact ⟨h.unregister, hfree, h.not_has_of_free hk rfl (fun k' q' hk' => (lies_unregister.1 hk').1) hfree⟩

theorem fail (h : s.Placed) (hk : s.lies k (.registered c)) : (s.fail k c).Placed := by
  apply atCall_of h
  intro call _
  obtain ⟨hgone, hfree, -⟩ := h.unregistered hk
  exact (hgone.close hfree (h.bounded k (.registered c) hk)).setInFlight

theorem lose (h : s.Placed) : (s.lose k).Placed :=
  atRegistered_of h fun _ _ _ _ hk _ _ => h.fail hk

private theorem settle (h : s.Placed) {call : MuxCall V τ} (hk : s.lies k (.registered c))
    (hcall : s.calls[c]? = some call) (hhanded : call.stage.handed = true)
    (done : Option (Except WireError (Message V τ))) : (s.settle k c done).Placed := by
  unfold MuxPool.settle
  split
  · exact h
  · exact h.fail hk
  · split
    · obtain ⟨hgone, hfree, hnone⟩ := h.unregistered hk
      exact hgone.takeBack hcall hfree (h.bounded k (.registered c) hk) hnone hhanded
    · exact h.setSelector fun _ _ _ h => by cases h

private theorem received (h : s.Placed) {f : MuxSocket V τ → MuxSocket V τ} {r : InFlight V τ} {call : MuxCall V τ}
    (hf : ∀ sock, (f sock).isOpen = sock.isOpen) (hk : s.lies k (.registered c)) (hcall : s.calls[c]? = some call)
    (hhanded : call.stage.handed = true) (done : Option (Except WireError (Message V τ))) :
    (((s.setSocket k f).setInFlight c r).settle k c done).Placed := by
  have hcall' : ((s.setSocket k f).setInFlight c r).calls[c]? = _ := calls_setInFlight hcall
  exact (h.setSocket hf).setInFlight.settle (lies_setInFlight.2 ((lies_setSocket hf).2 hk)) hcall' hhanded done

theorem read (h : s.Placed) (p : Pickle V τ) (n : Nat) : (s.read p k n).Placed := by
  refine atRegistered_of h fun c sock call _ hk _ hcall => ?_
  obtain ⟨call', hcall', hhanded⟩ := h.handed k c (.registered c) hk rfl
  obtain rfl : call = call' := Option.some.inj (hcall.symm.trans hcall')
  simp only
  split
  · exact h.fail hk
  · split
    · exact h
    · apply h.received _ hk hcall hhanded
      intro sock
      rfl

theorem giveBack (h : s.Placed) (max : Int) (closeRaises : Bool) : (s.giveBack max closeRaises).Placed := by
  unfold MuxPool.giveBack
  split
  · rename_i k c msg hreturning
    apply atCall_of h
    intro call hcall
    have hk : s.lies k (.returning c) := ⟨msg, hreturning⟩
    have hlt := h.bounded k _ hk
    have hgone : ∀ stage : SelectorStage V τ, (∀ k c msg, stage ≠ .returning k c msg) →
        (s.setSelector stage).Placed ∧ (s.setSelector stage).Free k := by
      intro stage hstage
      refine ⟨h.setSelector hstage, h.free_of_leaves hk fun q hq => ?_⟩
      rcases lies_setSelector.1 hq with ⟨c, msg, -, heq⟩ | ⟨hne, hold⟩
      · exact absurd heq (hstage k c msg)
      · exact ⟨hne c, hold⟩
    simp only
    split
    · obtain ⟨hplaced, hfree⟩ := hgone (.delivering c msg) fun _ _ _ h => by cases h
      exact hplaced.appendLeft hfree hlt
    · obtain ⟨hplaced, hfree⟩ := hgone (if closeRaises then .ended else .delivering c msg)
        fun _ _ _ h => by cases closeRaises <;> cases h
      refine Placed.close (s := (s.setSelector _).setIdle call.inflight.address (s.idleAt call.inflight.address))
        (hplaced.shrink (List.Sublist.refl _)) (fun q hq => ?_) hlt
      rcases lies_setIdle.1 hq with ⟨rfl, hmem⟩ | ⟨-, hold⟩
      · exact hfree (.idle call.inflight.address) hmem
      · exact hfree q hold
  · exact h

theorem deliver (h : s.Placed) : s.deliver.Placed := by
  unfold MuxPool.deliver
  split
  · apply atCall_of h
    intro call _
    exact h.setInFlight.setSelector fun _ _ _ h => by cases h
  · exact h

theorem leave (h : s.Placed) : s.leave.Placed := by
  unfold MuxPool.leave
  split
  · split
    · exact h.signalRegistered.setSelector fun _ _ _ h => by cases h
    · exact h.setSelector fun _ _ _ h => by cases h
  · exact h

/-- Deques lose their sockets. -/
private theorem drop (h : s.Placed) {idle : Dict NodeInfo (List Nat)} {closings : List ClosingStage}
    (hsub : ∀ peer, (({ s with idle := idle } : MuxPool V τ).idleAt peer).Sublist (s.idleAt peer)) :
    ({ s with idle := idle, closings := closings } : MuxPool V τ).Placed := by
  refine h.mono (fun k q hk => ?_) (List.Sublist.refl _) (List.Sublist.refl _) hsub (le_refl _)
    (fun _ call hc hh => ⟨call, hc, hh⟩)
  cases q with
  | idle peer => exact (hsub peer).subset hk
  | held c | queued c | registered c | returning c | closed => exact hk

theorem closePeer (h : s.Placed) (peer : NodeInfo) : (s.closePeer peer).Placed := by
  have hidle : ∀ peer', ({ s with idle := s.idle.del peer } : MuxPool V τ).idleAt peer' =
      if peer' = peer then [] else s.idleAt peer' := by
    intro peer'
    unfold idleAt
    simp only
    rw [Dict.get_del]
    split <;> rfl
  have hgone : ({ s with idle := s.idle.del peer } : MuxPool V τ).Placed := by
    refine h.drop fun peer' => ?_
    rw [hidle]
    split
    · exact List.nil_sublist _
    · exact List.Sublist.refl _
  refine hgone.closeEach fun k hk => h.free_of_leaves (q := .idle peer) hk fun q hq => ?_
  cases q with
  | idle peer' =>
    have hmem : k ∈ ({ s with idle := s.idle.del peer } : MuxPool V τ).idleAt peer' := hq
    rw [hidle] at hmem
    split at hmem
    · cases hmem
    · rename_i hpeer
      exact ⟨fun h => hpeer (Place.idle.inj h), hmem⟩
  | held c | queued c | registered c | returning c | closed => exact ⟨fun heq => (by cases heq), hq⟩

theorem closeIdle (h : s.Placed) (i : Nat) : (s.closeIdle i).Placed := by
  unfold MuxPool.closeIdle
  split
  · have hgone : ({ s with idle := Dict.empty, closings := s.closings.set i .returned } : MuxPool V τ).Placed :=
      h.drop fun peer => List.nil_sublist _
    refine hgone.closeEach fun k hk => ?_
    obtain ⟨socks, hsocks, hk⟩ := List.mem_flatten.1 hk
    obtain ⟨⟨peer, socks⟩, hitem, rfl⟩ := List.mem_map.1 hsocks
    have hidle : k ∈ s.idleAt peer := by
      unfold idleAt
      rw [(Dict.mem_items_iff _).1 hitem]
      exact hk
    refine h.free_of_leaves (q := .idle peer) hidle fun q hq => ?_
    cases q with
    | idle peer' => cases hq
    | held c | queued c | registered c | returning c | closed => exact ⟨nofun, hq⟩
  · exact h

theorem closeAll (h : s.Placed) : s.closeAll.Placed :=
  h.mono (fun k q hk => by cases q <;> exact hk) (List.Sublist.refl _) (List.Sublist.refl _)
    (fun _ => List.Sublist.refl _) (le_refl _) (fun _ call hc hh => ⟨call, hc, hh⟩)

theorem join (h : s.Placed) (i : Nat) : (s.join i).Placed := by
  unfold MuxPool.join
  split
  · exact h.mono (fun k q hk => by cases q <;> exact hk) (List.Sublist.refl _) (List.Sublist.refl _)
      (fun _ => List.Sublist.refl _) (le_refl _) (fun _ call hc hh => ⟨call, hc, hh⟩)
  · exact h

theorem apply (h : s.Placed) (p : Pickle V τ) (max : Int) (e : MuxEvent V τ) : (s.apply p max e).Placed := by
  cases e with
  | call peer msg => exact h.call peer msg
  | connect c accepted => exact h.connect accepted
  | dump c => exact h.dump p
  | send c accepted closeRaises => exact h.send accepted closeRaises
  | handOver c => exact h.handOver
  | wake c => exact h.wake
  | answer k body => exact h.answer body
  | register => exact h.register
  | read k n => exact h.read p n
  | lose k => exact h.lose
  | giveBack closeRaises => exact h.giveBack max closeRaises
  | deliver => exact h.deliver
  | leave => exact h.leave
  | closePeer peer => exact h.closePeer peer
  | closeAll => exact h.closeAll
  | join i => exact h.join i
  | closeIdle i => exact h.closeIdle i

theorem after (p : Pickle V τ) (max : Int) (run : MuxRun V τ) : (muxAfter p max run).Placed :=
  after_keeps (P := MuxPool.Placed) Placed.empty (fun _ e h => h.apply p max e) run

end Events

end Placed

end MuxPool

end DLStorage
