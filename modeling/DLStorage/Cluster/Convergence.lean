import DLStorage.Cluster.Quiescence

/-!
# How fast the members agree

Nodes with a `GossipDiscovery` of one seed, none of which leaves and whose requests are answered.  Once all starts are
complete the seed has every running node, and a node that then asks the seed for its list and merges the answer has
every running node too, whatever happens in between and in whichever order (`Bringing` is the invariant of the
exchange).  So one exchange per node is enough: after it the rings agree for good, and route every key alike
(`rings_converge`).
-/

namespace DLStorage

open Base (after after_append after_concat after_invariant ScoreInjOn)
open Cluster Gossip

variable (V τ : Type) (L : Layout) (seed : Id)

/-- Node `n` runs at the end of the run. -/
def Runs (run : GossipRun) (n : Id) : Prop := (seededAfter V τ L seed run).phase n = .running

/-- Node `n` is the seed, or after `pre` it gets the answer to a request to the seed and merges it. -/
def CatchesUp (pre post : GossipRun) (n : Id) : Prop :=
  n = seed ∨ ∃ x : Nat,
    (∀ stage, (seededAfter V τ L seed pre).exchanges[x]? = some ⟨n, L.info seed, stage⟩ → stage = .asked) ∧
    (seededAfter V τ L seed (pre ++ post)).exchanges[x]? = some ⟨n, L.info seed, .ended⟩

/-- An exchange of node `n` with the seed brings every node of `S` that the ring of `n` does not have. -/
def Bringing {V τ : Type} (L : Layout) (seed : Id) (S : NodeInfo → Prop) (n : Id) (ring : RendezvousRing) :
    Stage V τ → Prop
  | .asked => True
  | .answered resp => ∃ view, resp = peerListing view ∧ ∀ P, S P → P = L.info seed ∨ P ∈ view
  | .merging known rest =>
    ∃ view : List NodeInfo, rest = view.map some ∧ ∀ P, S P → P ∈ ring.nodes ∨ P ∈ view ∧ P ≠ L.info n ∧ P ∉ known
  | .ended => ∀ P, S P → P ∈ ring.nodes

variable {V τ L seed}

section Step

variable {S : NodeInfo → Prop} {n : Id} {s : Cluster V τ} {e : GossipEvent}

private theorem Bringing.mono {ring ring' : RendezvousRing} {stage : Stage V τ} (h : Bringing L seed S n ring stage)
    (hring : ∀ P, P ∈ ring.nodes → P ∈ ring'.nodes) : Bringing L seed S n ring' stage := by
  cases stage with
  | asked => exact h
  | answered resp => exact h
  | merging known rest =>
    obtain ⟨view, hrest, hview⟩ := h
    exact ⟨view, hrest, fun P hP => (hview P hP).imp_left (hring P)⟩
  | ended => exact fun P hP => hring P (h P hP)

/-- While nothing is removed, and the seed has all of `S` and the asking node has the seed and itself, every event keeps
the exchange on its way. -/
private theorem bringing_apply (hL : L.Separate) (hkeep : ∀ c P, ¬ s.Removes L e c P)
    (hseed : ∀ P, S P → P ∈ (s.rings (L.ring seed)).nodes)
    (hroot : L.info seed ∈ (s.rings (L.ring n)).nodes ∧ L.info n ∈ (s.rings (L.ring n)).nodes) {x : Nat}
    (h : ∀ stage, s.exchanges[x]? = some ⟨n, L.info seed, stage⟩ →
      Bringing L seed S n (s.rings (L.ring n)) stage) {stage : Stage V τ}
    (hx : (s.apply L e).exchanges[x]? = some ⟨n, L.info seed, stage⟩) :
    Bringing L seed S n ((s.apply L e).rings (L.ring n)) stage := by
  have hmono : ∀ P, P ∈ (s.rings (L.ring n)).nodes → P ∈ ((s.apply L e).rings (L.ring n)).nodes :=
    fun P => mem_apply_of_not_removes hkeep
  rcases s.apply_cases e with hsame | hstep
  · rw [hsame] at hx ⊢
    exact h stage hx
  · generalize s.apply L e = t at hx hmono hstep ⊢
    cases hstep with
    | round found awake drawn =>
      rw [List.getElem?_append] at hx
      split at hx
      · exact h stage hx
      · obtain ⟨p, -, hp⟩ := List.mem_map.1 (List.mem_of_getElem? hx)
        obtain ⟨-, -, rfl⟩ := ListExchange.mk.inj hp
        trivial
    | @answer y c e asked waits listens =>
      rcases setStage_cases rfl asked hx with hold | ⟨rfl, heq⟩
      · exact h stage hold
      · obtain ⟨rfl, hpeer, rfl⟩ := ListExchange.mk.inj heq
        -- only the seed is reached at its address, and it leaves out itself
        rw [← hpeer] at listens
        obtain rfl := hL.addresses ((hL.reached c _).1 listens.1)
        refine ⟨(s.membership L c).others (L.info c), rfl, ?_⟩
        intro P hP
        by_cases hself : P = L.info c
        · exact Or.inl hself
        · exact Or.inr (Membership.mem_others.2 ⟨hseed P hP, hself⟩)
    | fail asked waits =>
      rcases setStage_cases rfl asked hx with hold | ⟨rfl, heq⟩
      · exact (h stage hold).mono hmono
      · exact absurd (.unanswered asked waits) (hkeep _ _)
    | @receive y m peer resp answered lists =>
      rcases setStage_cases rfl answered hx with hold | ⟨rfl, heq⟩
      · exact h stage hold
      · obtain ⟨rfl, rfl, rfl⟩ := ListExchange.mk.inj heq
        obtain ⟨view, rfl, hview⟩ := h _ answered
        refine ⟨view, rfl, ?_⟩
        intro P hP
        show P ∈ (s.rings (L.ring n)).nodes ∨ P ∈ view ∧ P ≠ L.info n ∧ P ∉ (s.rings (L.ring n)).nodes
        by_cases hring : P ∈ (s.rings (L.ring n)).nodes
        · exact Or.inl hring
        · rcases hview P hP with rfl | hlisted
          · exact absurd hroot.1 hring
          · refine Or.inr ⟨hlisted, ?_, hring⟩
            rintro rfl
            exact hring hroot.2
    | ignore answered other =>
      rcases setStage_cases rfl answered hx with hold | ⟨rfl, heq⟩
      · exact h stage hold
      · obtain ⟨rfl, rfl, -⟩ := ListExchange.mk.inj heq
        obtain ⟨view, rfl, -⟩ := h _ answered
        exact absurd rfl other
    | @finish y m peer known turn =>
      rcases setStage_cases rfl turn hx with hold | ⟨rfl, heq⟩
      · exact h stage hold
      · obtain ⟨rfl, rfl, rfl⟩ := ListExchange.mk.inj heq
        obtain ⟨view, hnil, hview⟩ := h _ turn
        obtain rfl := List.map_eq_nil_iff.1 hnil.symm
        exact fun P hP => (hview P hP).resolve_right (fun hrest => by cases hrest.1)
    | malformed turn => exact absurd (.malformed turn) (hkeep _ _)
    | @merge y m peer new known rest turn =>
      rcases setStage_cases rfl turn hx with hold | ⟨rfl, heq⟩
      · exact (h stage hold).mono hmono
      · obtain ⟨rfl, rfl, rfl⟩ := ListExchange.mk.inj heq
        obtain ⟨view, hrest, hview⟩ := h _ turn
        cases view with
        | nil => cases hrest
        | cons P' view =>
          obtain ⟨hnew, rfl⟩ := List.cons.inj hrest
          obtain rfl := Option.some.inj hnew
          refine ⟨view, rfl, ?_⟩
          intro P hP
          show P ∈ ((s.setMembership L n _).rings (L.ring n)).nodes ∨ _
          rw [setMembership_rings_self, mem_ring_mergeEntry]
          rcases hview P hP with hring | ⟨hmem, hother⟩
          · exact Or.inl (Or.inl hring)
          · rcases List.mem_cons.1 hmem with rfl | hmem
            · exact Or.inl (Or.inr ⟨rfl, hother⟩)
            · exact Or.inr ⟨hmem, hother⟩
    | _ => exact (h stage hx).mono hmono

end Step

variable {pre post : GossipRun}

private theorem Runs.awake {n : Id} (h : Runs V τ L seed pre n) : (seededAfter V τ L seed pre).phase n ≠ .idle := by
  unfold Runs at h
  rw [h]
  decide

private theorem phase_extend {n : Id} (hn : (seededAfter V τ L seed pre).phase n ≠ .idle) :
    (seededAfter V τ L seed (pre ++ post)).phase n ≠ .idle := by
  by_contra hidle
  obtain ⟨mid, e, rest, -, hbefore, hafter⟩ :=
    Base.after_becomes (Q := fun s : Cluster V τ => s.phase n = .idle) hn hidle
  exact phase_apply hbefore hafter

/-- Once all starts are complete, a node that catches up has all the running nodes. -/
private theorem mem_of_catchesUp (hL : L.Separate) (h : Orderly V τ L seed (pre ++ post))
    (hstarted : Started V τ L seed pre) {n : Id} (hn : Runs V τ L seed pre n)
    (hcatches : CatchesUp V τ L seed pre post n) {c : Id} (hc : Runs V τ L seed pre c) :
    L.info c ∈ ((seededAfter V τ L seed (pre ++ post)).rings (L.ring n)).nodes := by
  rcases hcatches with rfl | ⟨x, hasked, hended⟩
  · exact mem_ring_extend h (seed_has hL h.take hstarted hc)
  · have hbringing : ∀ stage, (seededAfter V τ L seed (pre ++ post)).exchanges[x]? = some ⟨n, L.info seed, stage⟩ →
        Bringing L seed (fun P => ∃ c, L.info c = P ∧ Runs V τ L seed pre c) n
          ((seededAfter V τ L seed (pre ++ post)).rings (L.ring n)) stage := by
      have hafter : ∀ mid, seededAfter V τ L seed (pre ++ mid) =
          after (Cluster.apply L) (seededAfter V τ L seed pre) mid := by
        intro mid
        rw [seededAfter, gossipAfter, after_append]
        rfl
      rw [hafter]
      refine after_invariant (P := fun _ (s : Cluster V τ) => ∀ stage, s.exchanges[x]? = some ⟨n, L.info seed, stage⟩ →
          Bringing L seed (fun P => ∃ c, L.info c = P ∧ Runs V τ L seed pre c) n (s.rings (L.ring n)) stage)
        (C := fun mid e => Orderly V τ L seed (pre ++ mid ++ [e])) ?_ ?_ ?_
      · intro stage hx
        rw [hasked stage hx]
        trivial
      · intro mid e horderly hbringing stage hx
        rw [← hafter] at hbringing hx ⊢
        have htake : Orderly V τ L seed (pre ++ mid) := horderly.take
        refine bringing_apply hL (horderly.not_removes_of_calm htake.calm) ?_ ?_ hbringing hx
        · rintro P ⟨c, rfl, hc⟩
          exact mem_ring_extend htake (seed_has hL htake.take hstarted hc)
        · exact htake.calm.rooted n (phase_extend hn.awake)
      · rintro mid e rest rfl
        have heq : pre ++ (mid ++ e :: rest) = pre ++ mid ++ [e] ++ rest := by simp
        rw [heq] at h
        exact h.take
    exact hbringing .ended hended _ ⟨c, rfl, hc⟩

/-- One exchange of every node with the seed, after all starts are complete, makes the rings agree for good: a node that
has made it has every running node, and when no more nodes start and all have made it, then all rings consist of the
running nodes and route every key alike. -/
theorem rings_converge (V τ : Type) (L : Layout) (seed : Id) (hL : L.Separate) (pre post : GossipRun)
    (h : Orderly V τ L seed (pre ++ post)) (hstarted : Started V τ L seed pre) :
    (∀ n c, Runs V τ L seed pre n → CatchesUp V τ L seed pre post n → Runs V τ L seed pre c →
      L.info c ∈ ((seededAfter V τ L seed (pre ++ post)).rings (L.ring n)).nodes) ∧
    ((∀ c, (seededAfter V τ L seed (pre ++ post)).phase c ≠ .idle → Runs V τ L seed pre c) →
      (∀ n, Runs V τ L seed pre n → CatchesUp V τ L seed pre post n) →
      ∀ n, Runs V τ L seed pre n →
        (∀ P, P ∈ ((seededAfter V τ L seed (pre ++ post)).rings (L.ring n)).nodes ↔
          ∃ c, L.info c = P ∧ Runs V τ L seed (pre ++ post) c) ∧
        ∀ n', Runs V τ L seed pre n' → ∀ (sha256 : String → List UInt8) (key : String),
          ScoreInjOn (fun x => score sha256 x key)
            ((seededAfter V τ L seed (pre ++ post)).rings (L.ring n)).nodes →
          ∀ replication, ((seededAfter V τ L seed (pre ++ post)).rings (L.ring n)).getNodes sha256 key replication =
            ((seededAfter V τ L seed (pre ++ post)).rings (L.ring n')).getNodes sha256 key replication) := by
  refine ⟨fun n c hn hcatches hc => mem_of_catchesUp hL h hstarted hn hcatches hc, ?_⟩
  intro hnone hall
  have hrings : ∀ n, Runs V τ L seed pre n → ∀ P,
      P ∈ ((seededAfter V τ L seed (pre ++ post)).rings (L.ring n)).nodes ↔
        ∃ c, L.info c = P ∧ Runs V τ L seed (pre ++ post) c := by
    intro n hn P
    constructor
    · intro hP
      obtain ⟨c, hc, hphase⟩ := h.sound.rings (L.ring n) P hP
      exact ⟨c, hc, h.calm.running hphase⟩
    · rintro ⟨c, rfl, hc⟩
      have hpre : Runs V τ L seed pre c := hnone c hc.awake
      exact mem_of_catchesUp hL h hstarted hn (hall n hn) hpre
  intro n hn
  refine ⟨hrings n hn, ?_⟩
  intro n' hn' sha256 key hinj replication
  have hsame : ((seededAfter V τ L seed (pre ++ post)).rings (L.ring n)).nodes.Perm
      ((seededAfter V τ L seed (pre ++ post)).rings (L.ring n')).nodes := by
    rw [List.perm_ext_iff_of_nodup (RendezvousRing.nodup _) (RendezvousRing.nodup _)]
    intro P
    rw [hrings n hn, hrings n' hn']
  simp only [RendezvousRing.getNodes_eq_top]
  exact Base.top_eq_of_perm (RendezvousRing.nodup _) hinj hsame replication

/-- The seed 7001 and two more nodes have started, and do not know of each other but through the seed. -/
def threeRun : GossipRun :=
  [.start 0 {}, .announceJoin 0, .start 1 {}, .announceJoin 1, .deliver 0 0, .start 2 {}, .announceJoin 2, .deliver 1 0]

/-- The two nodes ask the seed; the second gets its answer while the first merges. -/
def catchUpRun : GossipRun :=
  [.round 1 {} [localhost 7001], .round 2 {} [localhost 7001], .answer 0 0, .receive 0, .answer 1 0, .merge 0,
    .receive 1, .merge 1, .merge 0, .merge 1, .merge 0, .merge 1]

private theorem threeRun_orderly : Orderly Nat Int (localLayout id) 0 (threeRun ++ catchUpRun) := by
  constructor
  · rintro pre e post h rfl
    exact ⟨{}, (List.cons.inj h).1.symm⟩
  · intro n
    simp [threeRun, catchUpRun]
  · intro pre x post h
    have hmem : GossipEvent.fail x ∈ threeRun ++ catchUpRun := by
      rw [h]
      simp
    simp [threeRun, catchUpRun] at hmem

private theorem threeRun_awake {n : Id} (hn : (seededAfter Nat Int (localLayout id) 0 threeRun).phase n ≠ .idle) :
    n = 0 ∨ n = 1 ∨ n = 2 := by
  have hphase : (seededAfter Nat Int (localLayout id) 0 threeRun).phase =
      Function.update (Function.update (Function.update (fun _ => .idle) 0 .running) 1 .running) 2 .running := rfl
  rw [hphase] at hn
  by_contra hother
  simp only [not_or] at hother
  rw [Function.update_of_ne hother.2.2, Function.update_of_ne hother.2.1, Function.update_of_ne hother.1] at hn
  exact hn rfl

private theorem threeRun_started : Started Nat Int (localLayout id) 0 threeRun := by
  constructor
  · intro n hn
    rcases threeRun_awake (by rw [hn]; decide) with rfl | rfl | rfl
    · exact ⟨threeRun.take 1, threeRun.drop 2, rfl, rfl⟩
    · exact ⟨threeRun.take 3, threeRun.drop 4, rfl, rfl⟩
    · exact ⟨threeRun.take 6, threeRun.drop 7, rfl, rfl⟩
  · intro k notice hk
    have hnotices : (seededAfter Nat Int (localLayout id) 0 threeRun).notices =
        [⟨localhost 7001, Gossip.announceJoin (localhost 7002)⟩,
          ⟨localhost 7001, Gossip.announceJoin (localhost 7003)⟩] := rfl
    rw [hnotices] at hk
    match k, hk with
    | 0, hk =>
      obtain rfl := Option.some.inj hk
      exact ⟨threeRun.take 4, 0, threeRun.drop 5, rfl, rfl, by decide +kernel⟩
    | 1, hk =>
      obtain rfl := Option.some.inj hk
      exact ⟨threeRun.take 7, 0, [], rfl, rfl, by decide +kernel⟩

/-- The first of the two nodes has the other in its ring. -/
theorem threeRun_converges :
    (localLayout id).info 2 ∈ ((seededAfter Nat Int (localLayout id) 0 (threeRun ++ catchUpRun)).rings 1).nodes := by
  refine (rings_converge Nat Int (localLayout id) 0 localLayout_separate threeRun catchUpRun threeRun_orderly
    threeRun_started).1 1 2 rfl (Or.inr ⟨0, ?_, rfl⟩) rfl
  intro stage hx
  cases hx

end DLStorage
