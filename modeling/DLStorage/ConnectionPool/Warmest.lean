import DLStorage.Base.Recency
import DLStorage.ConnectionPool.Leaks

/-!
# The order in which idle sockets are reused

`_return` puts a socket at the left end of its deque and `_acquire` takes one from the right end, although both are
described as the two ends of a stack.  So a deque lists its sockets from the one put back last to the one put back
first, and `_acquire` hands out the one put back first.  It is the one put back last exactly when no other socket is
idle (`mux_warmest_iff`).
-/

namespace DLStorage

open Base (Dict InOrder Latest PutsInFront)

variable {V τ : Type} {p : Pickle V τ} {max : Int}

namespace MuxPool

/-- The event is a call of `_return` that puts socket `k` into the deque of `peer`. -/
def PutsBack (max : Int) (peer : NodeInfo) (s : MuxPool V τ) (e : MuxEvent V τ) (k : Nat) : Prop :=
  ∃ closeRaises c msg call, e = .giveBack closeRaises ∧ s.selector = .returning k c msg ∧ s.calls[c]? = some call ∧
    call.inflight.address = peer ∧ (s.idleAt peer).length < max

/-- `_acquire` hands out the idle socket `k`. -/
def HandsOut (s : MuxPool V τ) (peer : NodeInfo) (msg : Message V τ) (k : Nat) : Prop :=
  ∃ call, (s.call peer msg).calls[s.calls.length]? = some call ∧ call.stage = .dumping k

variable {s : MuxPool V τ} {peer : NodeInfo} {k : Nat}

theorem handsOut_iff {msg : Message V τ} : s.HandsOut peer msg k ↔ (s.idleAt peer).getLast? = some k := by
  unfold HandsOut MuxPool.call
  cases hlast : (s.idleAt peer).getLast? with
  | none => simp [start]
  | some k' => simp [start, setIdle]

/-! ### What an event does to a deque -/

theorem idleAt_congr {s' : MuxPool V τ} (h : s'.idle = s.idle) (peer : NodeInfo) : s'.idleAt peer = s.idleAt peer := by
  unfold idleAt
  rw [h]

private theorem idle_fail (c : Nat) : (s.fail k c).idle = s.idle :=
  atCall_of (P := fun s' => s'.idle = s.idle) rfl fun _ _ => rfl

private theorem idle_settle (c : Nat) (done : Option (Except WireError (Message V τ))) :
    (s.settle k c done).idle = s.idle := by
  unfold settle
  split
  · rfl
  · exact idle_fail c
  · split <;> rfl

private theorem idle_read (n : Nat) : (s.read p k n).idle = s.idle := by
  refine atRegistered_of (P := fun s' => s'.idle = s.idle) rfl fun c sock call _ _ _ _ => ?_
  simp only
  split
  · exact idle_fail c
  · split
    · rfl
    · exact idle_settle c _

/-- All other events leave the deques alone. -/
private theorem idle_apply {e : MuxEvent V τ} (hcall : ∀ peer msg, e ≠ .call peer msg)
    (hgive : ∀ closeRaises, e ≠ .giveBack closeRaises) (hpeer : ∀ peer, e ≠ .closePeer peer)
    (hclose : ∀ i, e ≠ .closeIdle i) : (s.apply p max e).idle = s.idle := by
  cases e with
  | call peer msg => exact absurd rfl (hcall peer msg)
  | giveBack closeRaises => exact absurd rfl (hgive closeRaises)
  | closePeer peer => exact absurd rfl (hpeer peer)
  | closeIdle i => exact absurd rfl (hclose i)
  | connect c accepted | dump c | send c accepted closeRaises | handOver c | wake c =>
    refine atCall_of (P := fun s' => s'.idle = s.idle) rfl fun _ _ => ?_
    repeat' split
    all_goals rfl
  | answer k body =>
    show (s.answer k body).idle = s.idle
    unfold MuxPool.answer
    repeat' split
    all_goals rfl
  | register =>
    show s.register.idle = s.idle
    unfold MuxPool.register
    repeat' split
    all_goals rfl
  | read k n => exact idle_read n
  | lose k => exact atRegistered_of (P := fun s' => s'.idle = s.idle) rfl fun c _ _ _ _ _ _ => idle_fail c
  | deliver =>
    show s.deliver.idle = s.idle
    unfold MuxPool.deliver
    split
    · exact atCall_of (P := fun s' => s'.idle = s.idle) rfl fun _ _ => rfl
    · rfl
  | leave =>
    show s.leave.idle = s.idle
    unfold MuxPool.leave
    repeat' split
    all_goals rfl
  | closeAll => rfl
  | join i =>
    show (s.join i).idle = s.idle
    unfold MuxPool.join
    split <;> rfl

private theorem idleAt_call_sublist (peer' : NodeInfo) (msg : Message V τ) :
    ((s.call peer' msg).idleAt peer).Sublist (s.idleAt peer) := by
  unfold MuxPool.call
  split
  · exact List.Sublist.refl _
  · show ((s.setIdle peer' (s.idleAt peer').dropLast).idleAt peer).Sublist (s.idleAt peer)
    rw [idleAt_setIdle]
    split
    · rename_i heq
      rw [heq]
      exact List.dropLast_sublist _
    · exact List.Sublist.refl _

private theorem idleAt_closePeer_sublist (peer' : NodeInfo) :
    ((s.closePeer peer').idleAt peer).Sublist (s.idleAt peer) := by
  unfold idleAt
  rw [MuxPool.closePeer, (closeEach_frame _ _).1, Dict.get_del]
  split
  · exact List.nil_sublist _
  · exact List.Sublist.refl _

private theorem idleAt_closeIdle_sublist (i : Nat) : ((s.closeIdle i).idleAt peer).Sublist (s.idleAt peer) := by
  unfold MuxPool.closeIdle
  split
  · unfold idleAt
    rw [(closeEach_frame _ _).1]
    exact List.nil_sublist _
  · exact List.Sublist.refl _

/-- `_return` puts the socket in the hands of the selector thread at the left end of the deque, or leaves the deque
alone. -/
private theorem idleAt_giveBack (hs : s.Placed) (max : Int) (peer : NodeInfo) (closeRaises : Bool) :
    (∃ k, (∀ k', PutsBack max peer s (.giveBack closeRaises) k' ↔ k' = k) ∧ k ∉ s.idleAt peer ∧
      (s.giveBack max closeRaises).idleAt peer = k :: s.idleAt peer) ∨
    ((∀ k, ¬ PutsBack max peer s (.giveBack closeRaises) k) ∧
      (s.giveBack max closeRaises).idleAt peer = s.idleAt peer) := by
  by_cases hput : ∃ k, PutsBack max peer s (.giveBack closeRaises) k
  · obtain ⟨k, closeRaises, c, msg, call, ⟨⟩, hselector, hcall, rfl, hlt⟩ := hput
    refine Or.inl ⟨k, fun k' => ⟨?_, ?_⟩, ?_, ?_⟩
    · rintro ⟨-, c', msg', -, -, hselector', -⟩
      rw [hselector, SelectorStage.returning.injEq] at hselector'
      exact hselector'.1.symm
    · rintro rfl
      exact ⟨closeRaises, c, msg, call, rfl, hselector, hcall, rfl, hlt⟩
    · intro hidle
      have hplace : (.returning c : Place) = .idle call.inflight.address :=
        hs.once k _ _ ⟨msg, hselector⟩ hidle
      cases hplace
    · have hgive : s.giveBack max closeRaises =
          (s.setIdle call.inflight.address (k :: s.idleAt call.inflight.address)).setSelector (.delivering c msg) := by
        simp [MuxPool.giveBack, hselector, atCall, hcall, hlt]
      rw [hgive]
      exact (idleAt_setIdle _ _ _).trans (if_pos rfl)
  · refine Or.inr ⟨fun k hk => hput ⟨k, hk⟩, ?_⟩
    unfold MuxPool.giveBack
    split
    · rename_i k c msg hselector
      refine atCall_of (P := fun s' => s'.idleAt peer = s.idleAt peer) rfl fun call hcall => ?_
      simp only
      split
      · rename_i hlt
        show (s.setIdle call.inflight.address (k :: s.idleAt call.inflight.address)).idleAt peer = s.idleAt peer
        rw [idleAt_setIdle]
        split
        · rename_i heq
          subst heq
          exact absurd ⟨k, closeRaises, c, msg, call, rfl, hselector, hcall, rfl, hlt⟩ hput
        · rfl
      · show (s.setIdle call.inflight.address (s.idleAt call.inflight.address)).idleAt peer = s.idleAt peer
        rw [idleAt_setIdle]
        split
        · rename_i heq
          rw [heq]
        · rfl
    · rfl

/-- The deque of a peer gets its sockets at the left end. -/
theorem putsInFront (p : Pickle V τ) (max : Int) (peer : NodeInfo) :
    PutsInFront (MuxPool.apply p max) (PutsBack max peer) MuxPool.empty (fun s => s.idleAt peer) := by
  intro run e
  have hplaced : (muxAfter p max run).Placed := Placed.after p max run
  show (∃ k, (∀ k', PutsBack max peer (muxAfter p max run) e k' ↔ k' = k) ∧ k ∉ (muxAfter p max run).idleAt peer ∧
      ((muxAfter p max run).apply p max e).idleAt peer = k :: (muxAfter p max run).idleAt peer) ∨
    ((∀ k, ¬ PutsBack max peer (muxAfter p max run) e k) ∧
      (((muxAfter p max run).apply p max e).idleAt peer).Sublist ((muxAfter p max run).idleAt peer))
  by_cases hgive : ∃ closeRaises, e = .giveBack closeRaises
  · obtain ⟨closeRaises, rfl⟩ := hgive
    rcases idleAt_giveBack hplaced max peer closeRaises with hput | ⟨hnone, hsame⟩
    · exact Or.inl hput
    · refine Or.inr ⟨hnone, ?_⟩
      show (((muxAfter p max run).giveBack max closeRaises).idleAt peer).Sublist _
      rw [hsame]
  · refine Or.inr ⟨?_, ?_⟩
    · rintro k ⟨closeRaises, -, -, -, rfl, -⟩
      exact hgive ⟨closeRaises, rfl⟩
    · by_cases hcall : ∃ peer' msg, e = .call peer' msg
      · obtain ⟨peer', msg, rfl⟩ := hcall
        exact idleAt_call_sublist peer' msg
      · by_cases hpeer : ∃ peer', e = .closePeer peer'
        · obtain ⟨peer', rfl⟩ := hpeer
          exact idleAt_closePeer_sublist peer'
        · by_cases hclose : ∃ i, e = .closeIdle i
          · obtain ⟨i, rfl⟩ := hclose
            exact idleAt_closeIdle_sublist i
          · have hidle : ((muxAfter p max run).apply p max e).idle = (muxAfter p max run).idle := idle_apply
              (fun peer' msg h => hcall ⟨peer', msg, h⟩) (fun closeRaises h => hgive ⟨closeRaises, h⟩)
              (fun peer' h => hpeer ⟨peer', h⟩) (fun i h => hclose ⟨i, h⟩)
            rw [idleAt_congr hidle peer]

end MuxPool

/-- Whenever `_acquire` hands out an idle socket of the peer, it is the one that was put back last. -/
def ReusesWarmest (p : Pickle V τ) (max : Int) (peer : NodeInfo) (run : MuxRun V τ) : Prop :=
  ∀ pre msg post k, run = pre ++ .call peer msg :: post → (muxAfter p max pre).HandsOut peer msg k →
    Latest (MuxPool.apply p max) (MuxPool.PutsBack max peer) MuxPool.empty pre ((muxAfter p max pre).idleAt peer) k

/-- The last element of a list without repetitions is its head only when it is alone. -/
private theorem head?_eq_getLast?_iff {α : Type} {l : List α} (hl : l.Nodup) :
    l.head? = l.getLast? ↔ l.length ≤ 1 := by
  rcases l with _ | ⟨x, _ | ⟨y, l⟩⟩
  · simp
  · simp
  · obtain ⟨hx, -⟩ := List.nodup_cons.1 hl
    rw [List.head?_cons, List.getLast?_cons_cons, List.length_cons, List.length_cons]
    constructor
    · intro hlast
      exact absurd (List.mem_of_getLast? hlast.symm) hx
    · intro hlen
      omega

private theorem inOrder (p : Pickle V τ) (max : Int) (peer : NodeInfo) (run : MuxRun V τ) :
    InOrder (MuxPool.apply p max) (MuxPool.PutsBack max peer) MuxPool.empty run ((muxAfter p max run).idleAt peer) :=
  (MuxPool.putsInFront p max peer).inOrder rfl run

private theorem ReusesWarmest.alone {peer : NodeInfo} {run : MuxRun V τ} (h : ReusesWarmest p max peer run)
    {pre post : MuxRun V τ} {msg : Message V τ} (hrun : run = pre ++ .call peer msg :: post) :
    ((muxAfter p max pre).idleAt peer).length ≤ 1 := by
  have horder := inOrder p max peer pre
  rw [← head?_eq_getLast?_iff horder.nodup]
  cases hlast : ((muxAfter p max pre).idleAt peer).getLast? with
  | none => rw [List.getLast?_eq_none_iff.1 hlast, List.head?_nil]
  | some k => exact horder.latest_iff_head.1 (h pre msg post k hrun (MuxPool.handsOut_iff.2 hlast))

private theorem reusesWarmest_of_alone {peer : NodeInfo} {run : MuxRun V τ}
    (h : ∀ pre msg post, run = pre ++ .call peer msg :: post → ((muxAfter p max pre).idleAt peer).length ≤ 1) :
    ReusesWarmest p max peer run := by
  intro pre msg post k hrun hk
  have horder := inOrder p max peer pre
  rw [horder.latest_iff_head, (head?_eq_getLast?_iff horder.nodup).2 (h pre msg post hrun)]
  exact MuxPool.handsOut_iff.1 hk

/-- The multiplexed pool reuses the warmest idle socket of a peer exactly when no other one is idle whenever it reuses
one. -/
theorem mux_warmest_iff (p : Pickle V τ) (max : Int) (peer : NodeInfo) (run : MuxRun V τ) :
    ReusesWarmest p max peer run ↔
      ∀ pre msg post, run = pre ++ .call peer msg :: post → ((muxAfter p max pre).idleAt peer).length ≤ 1 := by
  constructor
  · intro h pre msg post hrun
    exact h.alone hrun
  · exact reusesWarmest_of_alone

/-- A pool that keeps at most one socket for a peer has at most one. -/
private theorem length_idleAt_le_one (hmax : max ≤ 1) (peer : NodeInfo) (run : MuxRun V τ) :
    ((muxAfter p max run).idleAt peer).length ≤ 1 := by
  induction run using List.reverseRecOn with
  | nil => exact Nat.zero_le 1
  | append_singleton run e ih =>
    have hconcat : muxAfter p max (run ++ [e]) = (muxAfter p max run).apply p max e := Base.after_concat run e
    rw [hconcat]
    rcases MuxPool.putsInFront p max peer run e with ⟨k, hput, -, hidle⟩ | ⟨-, hsub⟩
    · -- there was room, so the deque was empty
      obtain ⟨-, -, -, -, -, -, -, -, hlt⟩ := (hput k).2 rfl
      have hlen := congrArg List.length hidle
      have hroom : ((muxAfter p max run).idleAt peer).length < max := hlt
      have hcons : (((muxAfter p max run).apply p max e).idleAt peer).length =
          ((muxAfter p max run).idleAt peer).length + 1 := hlen
      omega
    · exact le_trans hsub.length_le ih

theorem reusesWarmest_of_max_le_one (hmax : max ≤ 1) (peer : NodeInfo) (run : MuxRun V τ) :
    ReusesWarmest p max peer run :=
  reusesWarmest_of_alone fun pre _ _ _ => length_idleAt_le_one hmax peer pre

/-- Two calls open a socket each and get their answers one after the other; a third call comes. -/
def twoSocketsRun : MuxRun Nat Int :=
  [.call ⟨"localhost", 7001⟩ ping, .call ⟨"localhost", 7001⟩ ping, .connect 0 true, .connect 1 true, .dump 0, .dump 1,
    .send 0 true false, .send 1 true false, .handOver 0, .handOver 1, .register, .register, .answer 0 pingData,
    .answer 1 pingData, .read 0 3, .read 0 (pingData.length - 1), .giveBack false, .deliver, .read 1 3,
    .read 1 (pingData.length - 1), .giveBack false, .deliver, .call ⟨"localhost", 7001⟩ ping]

/-- The third call gets the socket that was put back first. -/
theorem twoSocketsRun_reuses_coldest : ¬ ReusesWarmest pingPickle 5 ⟨"localhost", 7001⟩ twoSocketsRun := by
  intro h
  have hrun : twoSocketsRun = twoSocketsRun.take 22 ++ .call ⟨"localhost", 7001⟩ ping :: [] := rfl
  exact absurd (h.alone hrun) (by decide +kernel)

end DLStorage
