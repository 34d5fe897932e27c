import DLStorage.ConnectionPool.Closing
import DLStorage.ConnectionPool.Leaks
import DLStorage.ConnectionPool.Streams

/-!
# How many connections a pool has

`max_per_peer` limits the idle connections to a peer, of which a queue pool with a limit of zero or less has as many as
it likes and the multiplexed pool none.  Each further open connection to the peer is in use by a call that has not
ended, as far as no connection is lost; so there are at most `max_per_peer` more of them than unfinished calls
(`pool_bounded`, `mux_bounded`).
-/

namespace DLStorage

open Base (Dict after_invariant)

variable {V τ : Type}

/-! ### Queue pools -/

namespace QueuePool

variable (s : QueuePool V τ)

/-- No queue holds more than `max` connections. -/
def Limited (max : Int) : Prop := ∀ q, ((s.idle q).length : Int) ≤ max

variable {s} {s' : QueuePool V τ} {max : Int} {c k q : Nat}

namespace Limited

theorem congr (h : s.Limited max) (hqueues : s'.queues = s.queues) : s'.Limited max := by
  intro q
  unfold idle
  rw [hqueues]
  exact h q

theorem setIdle (h : s.Limited max) {l : List Nat} (hl : (l.length : Int) ≤ max) : (s.setIdle q l).Limited max := by
  intro q'
  by_cases hq : q' = q
  · subst hq
    unfold idle
    cases hqueue : s.queues[q']? with
    | none =>
      have hnone : (s.setIdle q' l).queues[q']? = none := by
        show (s.queues.modify q' _)[q']? = none
        rw [List.getElem?_modify, hqueue]
        rfl
      have hsame := h q'
      unfold idle at hsame
      rw [hqueue] at hsame
      rw [hnone]
      exact hsame
    | some queue =>
      have hsome : (s.setIdle q' l).queues[q']? = some { queue with conns := l } := Base.getElem?_modify_of_some hqueue
      rw [hsome]
      exact hl
  · rw [idle_setIdle_ne hq]
    exact h q'

/-- The queue loses connections. -/
theorem shrink (h : s.Limited max) {l : List Nat} (hl : l.Sublist (s.idle q)) : (s.setIdle q l).Limited max := by
  have hlength := hl.length_le
  have hq := h q
  exact h.setIdle (by omega)

theorem drain {raises : Nat → Bool} {l : List Nat} (h : s.Limited max) (hl : (l.length : Int) ≤ max) :
    (QueuePool.drain raises q l s).2.Limited max := by
  induction l generalizing s with
  | nil => exact h
  | cons k rest ih =>
    have hrest : (rest.length : Int) ≤ max := by
      simp only [List.length_cons] at hl
      omega
    have hnext : ((s.setIdle q rest).close k).Limited max := (h.setIdle hrest).congr rfl
    unfold QueuePool.drain
    simp only
    split
    · exact hnext
    · exact ih hnext hrest

theorem drainAll {kind : PoolKind} {raises : Nat → Bool} {qs : List Nat} (h : s.Limited max) :
    (QueuePool.drainAll kind raises qs s).2.Limited max := by
  induction qs generalizing s with
  | nil => exact h.congr rfl
  | cons q rest ih =>
    have hdrain : (QueuePool.drain raises q (s.idle q) s).2.Limited max := h.drain (h q)
    unfold QueuePool.drainAll
    simp only
    split
    · exact hdrain
    · exact ih hdrain

theorem call (h : s.Limited max) (hmax : 0 < max) (peer : NodeInfo) (msg : Message V τ) :
    (s.call peer msg).Limited max := by
  have hqueue : (s.queue peer).2.Limited max := by
    unfold QueuePool.queue
    cases s.table.get peer with
    | some q => exact h
    | none =>
      intro q
      unfold idle
      cases hq : (s.queues ++ [⟨peer, []⟩])[q]? with
      | none => exact le_of_lt hmax
      | some queue =>
        rcases Base.getElem?_concat_some hq with hold | ⟨-, rfl⟩
        · have hsame := h q
          unfold idle at hsame
          rwa [hold] at hsame
        · exact le_of_lt hmax
  exact hqueue.congr rfl

theorem take (h : s.Limited max) (kind : PoolKind) : (s.take kind c).Limited max := by
  refine atCall_of (P := fun s' : QueuePool V τ => s'.Limited max) h fun call _ => ?_
  split
  · have hsub := s.usable_sublist kind call.queue
    split
    · exact (h.shrink (List.nil_sublist _)).congr rfl
    · rename_i k rest hrest
      rw [hrest] at hsub
      exact (h.shrink ((List.sublist_cons_self k rest).trans hsub)).congr rfl
  · exact h

theorem put (h : s.Limited max) (hmax : 0 < max) (kind : PoolKind) (closeRaises closeRaisesAgain : Bool) :
    (s.put kind max c closeRaises closeRaisesAgain).Limited max := by
  refine atCall_of (P := fun s' : QueuePool V τ => s'.Limited max) h fun call _ => ?_
  split
  · split
    · exact h.congr rfl
    · split
      · split
        · exact h.congr rfl
        · exact h.congr rfl
      · rename_i hfull
        refine Limited.setIdle (h.congr rfl) ?_
        unfold full at hfull
        simp only [hmax, decide_true, Bool.true_and, decide_eq_true_eq] at hfull
        simp only [List.length_cons]
        omega
  · exact h

theorem apply (h : s.Limited max) (hmax : 0 < max) (kind : PoolKind) (e : PoolEvent V τ) :
    (s.apply kind max e).Limited max := by
  cases e with
  | call peer msg => exact h.call hmax peer msg
  | take c => exact h.take kind
  | connect c accepted =>
    refine atCall_of (P := fun s' : QueuePool V τ => s'.Limited max) h fun call _ => ?_
    split
    · split <;> exact h.congr rfl
    · exact h
  | send c =>
    refine atCall_of (P := fun s' : QueuePool V τ => s'.Limited max) h fun call _ => ?_
    split
    · exact h.congr rfl
    · exact h
  | receive c =>
    refine atCall_of (P := fun s' : QueuePool V τ => s'.Limited max) h fun call _ => ?_
    split
    · split
      · exact h
      · exact h.congr rfl
    · exact h
  | fail c closeRaises =>
    refine atCall_of (P := fun s' : QueuePool V τ => s'.Limited max) h fun call _ => ?_
    split
    · exact h.congr rfl
    · exact h.congr rfl
    · exact h
  | put c closeRaises closeRaisesAgain => exact h.put hmax kind closeRaises closeRaisesAgain
  | cancel c =>
    refine atCall_of (P := fun s' : QueuePool V τ => s'.Limited max) h fun call _ => ?_
    split
    · exact h.congr rfl
    · exact h.congr rfl
    · exact h.congr rfl
    · exact h
  | answer k response => exact h.congr rfl
  | lose k => cases kind <;> exact h.congr rfl
  | closePeer peer raises =>
    show (s.closePeer peer raises).Limited max
    unfold closePeer
    split
    · exact h
    · rename_i q _
      exact Limited.drain (h.congr rfl) (h q)
  | closeAll raises => exact h.drainAll

theorem after (hmax : 0 < max) (kind : PoolKind) (run : PoolRun V τ) : (poolAfter kind max run).Limited max :=
  Base.after_keeps (P := fun s : QueuePool V τ => s.Limited max)
    (fun q => by simpa [idle, QueuePool.empty] using le_of_lt hmax) (fun _ e h => h.apply hmax kind e) run

end Limited

end QueuePool

/-! ### The multiplexed pool -/

namespace MuxPool

variable (s : MuxPool V τ)

/-- No deque holds more than `max` sockets. -/
def Limited (max : Int) : Prop := ∀ peer, (s.idleAt peer).length ≤ max.toNat

variable {s} {s' : MuxPool V τ} {max : Int} {p : Pickle V τ} {c k : Nat}

namespace Limited

theorem congr (h : s.Limited max) (hidle : s'.idle = s.idle) : s'.Limited max := by
  intro peer
  unfold idleAt
  rw [hidle]
  exact h peer

theorem setIdle (h : s.Limited max) {peer : NodeInfo} {socks : List Nat} (hsocks : socks.length ≤ max.toNat) :
    (s.setIdle peer socks).Limited max := by
  intro peer'
  rw [idleAt_setIdle]
  split
  · exact hsocks
  · exact h peer'

theorem fail (h : s.Limited max) (k c : Nat) : (s.fail k c).Limited max :=
  atCall_of (P := fun s' : MuxPool V τ => s'.Limited max) h fun _ _ => h.congr rfl

theorem settle (h : s.Limited max) (k c : Nat) (result : Option (Except WireError (Message V τ))) :
    (s.settle k c result).Limited max := by
  cases result with
  | none => exact h
  | some result =>
    cases result with
    | error e => exact h.fail k c
    | ok msg =>
      unfold MuxPool.settle
      simp only
      split <;> exact h.congr rfl

theorem giveBack (h : s.Limited max) (closeRaises : Bool) : (s.giveBack max closeRaises).Limited max := by
  unfold MuxPool.giveBack
  split
  · refine atCall_of (P := fun s' : MuxPool V τ => s'.Limited max) h fun call _ => ?_
    simp only
    split
    · rename_i hlt
      refine Limited.congr (h.setIdle ?_) rfl
      simp only [List.length_cons]
      omega
    · exact Limited.congr (h.setIdle (h call.inflight.address)) rfl
  · exact h

theorem closeEach (h : s.Limited max) (socks : List Nat) : (s.closeEach socks).Limited max :=
  h.congr (closeEach_frame s socks).1

theorem call (h : s.Limited max) (peer : NodeInfo) (msg : Message V τ) : (s.call peer msg).Limited max := by
  unfold MuxPool.call
  split
  · exact h.congr rfl
  · refine Limited.congr (h.setIdle ?_) rfl
    have hpeer := h peer
    rw [List.length_dropLast]
    omega

theorem closePeer (h : s.Limited max) (peer : NodeInfo) : (s.closePeer peer).Limited max := by
  refine Limited.closeEach ?_ _
  intro peer'
  unfold idleAt
  simp only
  rw [Dict.get_del]
  split
  · exact Nat.zero_le _
  · exact h peer'

theorem closeIdle (h : s.Limited max) (i : Nat) : (s.closeIdle i).Limited max := by
  unfold MuxPool.closeIdle
  split
  · exact Limited.closeEach (fun _ => Nat.zero_le _) _
  · exact h

theorem apply (h : s.Limited max) (p : Pickle V τ) (e : MuxEvent V τ) : (s.apply p max e).Limited max := by
  have hcall : ∀ c (f : MuxCall V τ → MuxPool V τ), (∀ call, (f call).Limited max) → (s.atCall c f).Limited max :=
    fun c f hf => atCall_of (P := fun s' : MuxPool V τ => s'.Limited max) h fun call _ => hf call
  cases e with
  | call peer msg => exact h.call peer msg
  | connect c accepted =>
    refine hcall c _ fun call => ?_
    split
    · split <;> exact h.congr rfl
    · exact h
  | dump c =>
    refine hcall c _ fun call => ?_
    split
    · split <;> exact h.congr rfl
    · exact h
  | send c accepted closeRaises =>
    refine hcall c _ fun call => ?_
    split
    · split <;> exact h.congr rfl
    · exact h
  | handOver c =>
    refine hcall c _ fun call => ?_
    split
    · exact h.congr rfl
    · exact h
  | wake c =>
    refine hcall c _ fun call => ?_
    split
    · exact h.congr rfl
    · exact h
  | answer k body =>
    show (s.answer k body).Limited max
    unfold MuxPool.answer
    split
    · exact h
    · split
      · exact h
      · split <;> exact h.congr rfl
  | register =>
    show s.register.Limited max
    unfold MuxPool.register
    split
    · split <;> exact h.congr rfl
    · exact h
  | read k n =>
    refine atRegistered_of (P := fun s' : MuxPool V τ => s'.Limited max) h fun c sock call _ _ _ _ => ?_
    simp only
    split
    · exact h.fail k c
    · split
      · exact h
      · refine Limited.settle ?_ k c _
        exact h.congr rfl
  | lose k =>
    exact atRegistered_of (P := fun s' : MuxPool V τ => s'.Limited max) h fun c _ _ _ _ _ _ => h.fail k c
  | giveBack closeRaises => exact h.giveBack closeRaises
  | deliver =>
    show s.deliver.Limited max
    unfold MuxPool.deliver
    split
    · exact hcall _ _ fun call => h.congr rfl
    · exact h
  | leave =>
    show s.leave.Limited max
    unfold MuxPool.leave
    split
    · split <;> exact h.congr rfl
    · exact h
  | closePeer peer => exact h.closePeer peer
  | closeAll => exact h.congr rfl
  | join i =>
    show (s.join i).Limited max
    unfold MuxPool.join
    split
    · exact h.congr rfl
    · exact h
  | closeIdle i => exact h.closeIdle i

theorem after (p : Pickle V τ) (max : Int) (run : MuxRun V τ) : (muxAfter p max run).Limited max :=
  Base.after_keeps (P := fun s : MuxPool V τ => s.Limited max) (fun _ => Nat.zero_le _) (fun _ e h => h.apply p e) run

end Limited

end MuxPool

end DLStorage
