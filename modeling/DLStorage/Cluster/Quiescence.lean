import DLStorage.Cluster.Exchange

/-!
# Agreement on the members

Nodes with a `GossipDiscovery` of one seed, which starts first.  Whatever they do, a ring holds only nodes that have
begun to start (`Orderly.sound`).  While no node leaves and no request to a running node fails, no ring loses a node
(`mem_ring_extend`): the seed hears of every node that has completed its start, every node keeps the seed in its ring,
and a node that learns nothing more from the seed has all of them.  So the rings agree when no exchange changes any of
them.
-/

namespace DLStorage

open Base (after_concat after_invariant after_becomes)
open Cluster Gossip

/-- Nodes with rings of their own and distinct addresses, each of them reached at the address that it advertises. -/
structure Layout.Separate (L : Layout) : Prop where
  rings : Function.Injective L.ring
  addresses : Function.Injective L.info
  reached : ∀ c address, L.reached c address = true ↔ L.info c = address

/-- Every node is given `GossipDiscovery(seed)`. -/
def seedDiscoveries (seed : NodeInfo) : Id → Discovery := fun _ => .gossip (GossipDiscovery.new seed)

variable (V τ : Type) (L : Layout) (seed : Id)

/-- The cluster after a run from empty rings; node `seed` is the seed of all. -/
def seededAfter (run : GossipRun) : Cluster V τ :=
  gossipAfter V τ L emptyRings (seedDiscoveries (L.info seed)) run

/-- The seed starts first, no node stops, and every request to a running node is answered. -/
structure Orderly (run : GossipRun) : Prop where
  seed_first : ∀ pre e post, run = pre ++ e :: post → pre = [] → ∃ env, e = .start seed env
  none_leaves : ∀ n, .announceLeave n ∉ run
  answered : ∀ pre x post, run = pre ++ .fail x :: post → ∀ n peer stage,
    (seededAfter V τ L seed pre).exchanges[x]? = some ⟨n, peer, stage⟩ →
    ∀ c, L.info c = peer → (seededAfter V τ L seed pre).phase c ≠ .running

/-- Every node that runs has announced itself, and every announcement has been handled. -/
structure Started (run : GossipRun) : Prop where
  announced : ∀ n, (seededAfter V τ L seed run).phase n = .running →
    ∃ pre post, run = pre ++ .announceJoin n :: post ∧ (seededAfter V τ L seed pre).phase n = .running
  handled : ∀ k notice, (seededAfter V τ L seed run).notices[k]? = some notice →
    ∃ pre c post, run = pre ++ .deliver k c :: post ∧
      (seededAfter V τ L seed pre).notices[k]? = some notice ∧ (seededAfter V τ L seed pre).Listens L c notice.peer

/-- No exchange of a running node with a peer that it may draw would change its ring. -/
def Quiescent (s : Cluster V τ) : Prop :=
  ∀ n env peers peer c, s.phase n = .running → (s.membership L n).discovery.getPeers env = some peers →
    peer ∈ candidates (L.info n) peers → s.Listens L c peer →
    ∀ P, P ∈ (gossipWith (L.info n) peer (.ok (some (s.listing L c))) (s.membership L n)).ring.nodes ↔
      P ∈ (s.rings (L.ring n)).nodes

/-- An address of a node that has begun to start. -/
def Begun (s : Cluster V τ) (P : NodeInfo) : Prop := ∃ c, L.info c = P ∧ s.phase c ≠ .idle

variable {V τ L seed}

/-! ### Only nodes that have begun to start are known -/

section Sound

variable {s : Cluster V τ} {e : GossipEvent}

/-- Every address in a ring, in a discovery, in a message or in an exchange is that of a node that has begun to
start. -/
structure Sound (L : Layout) (seed : Id) (s : Cluster V τ) : Prop where
  rings : ∀ r P, P ∈ (s.rings r).nodes → Begun V τ L s P
  discoveries : ∀ i, ∃ d, s.discoveries i = .gossip d ∧ d.seed = L.info seed ∧ ∀ P ∈ d.peers, Begun V τ L s P
  notices : ∀ notice ∈ s.notices, ∀ P, notice.msg.payload.peer = some P → Begun V τ L s P
  answers : ∀ x n peer P, s.Brings x n peer P → Begun V τ L s P
  asked : ∀ (x : Nat) n peer stage, s.exchanges[x]? = some ⟨n, peer, stage⟩ → Begun V τ L s peer

private theorem begun_apply {P : NodeInfo} (h : Begun V τ L s P) : Begun V τ L (s.apply L e) P := by
  obtain ⟨c, hc, hphase⟩ := h
  exact ⟨c, hc, phase_apply hphase⟩

private theorem begun_start {n : Id} {env : Environment} (peers : List NodeInfo)
    (found : (s.membership L n).discovery.getPeers env = some peers) :
    Begun V τ L (s.apply L (.start n env)) (L.info n) := by
  refine ⟨n, rfl, ?_⟩
  simp only [apply, found, Function.update_self]
  decide

/-- What a node finds through its discovery. -/
private theorem Sound.begun_of_found (h : Sound L seed s) {n : Id} {env : Environment} {peers : List NodeInfo}
    (found : (s.membership L n).discovery.getPeers env = some peers) {P : NodeInfo} (hP : P ∈ peers) :
    Begun V τ L s P ∨ P = L.info seed := by
  obtain ⟨d, hd, hseed, hpeers⟩ := h.discoveries (L.discovery n)
  rw [membership, hd, Discovery.getPeers, Option.some.injEq, GossipDiscovery.getPeers] at found
  subst found
  rcases List.mem_append.1 hP with hpeer | hpeer
  · exact Or.inl (hpeers P hpeer)
  · exact Or.inr ((List.mem_singleton.1 hpeer).trans hseed)

/-- What a node hears of or merges. -/
private theorem Sound.begun_of_learns (h : Sound L seed s) {n : Id} {P : NodeInfo}
    (hlearns : s.Hears L e n P ∨ s.Merges L e n P) : Begun V τ L s P := by
  rcases hlearns with ⟨k, notice, -, hsent, -, -, hP⟩ | ⟨x, peer, known, rest, -, hx, -, -⟩
  · exact h.notices notice (List.mem_of_getElem? hsent) P hP
  · exact h.answers x n peer P ⟨_, hx, List.mem_cons_self⟩

/-- A sound cluster stays sound if its seed has begun to start. -/
private theorem sound_apply (h : Sound L seed s) (hseed : Begun V τ L (s.apply L e) (L.info seed)) :
    Sound L seed (s.apply L e) := by
  constructor
  · intro r P hP
    rcases mem_rings_apply hP with hold | ⟨n, -, hhears | ⟨env, peers, rfl, found, hfound | rfl⟩ | hmerges⟩
    · exact begun_apply (h.rings r P hold)
    · exact begun_apply (h.begun_of_learns (Or.inl hhears))
    · rcases h.begun_of_found found hfound with hbegun | rfl
      · exact begun_apply hbegun
      · exact hseed
    · exact begun_start _ found
    · exact begun_apply (h.begun_of_learns (Or.inr hmerges))
  · intro i
    obtain ⟨d, hd, hdseed, hpeers⟩ := h.discoveries i
    rcases discoveries_apply (L := L) s e i with hsame | ⟨n, P, -, ⟨hlearns, hnew⟩ | ⟨-, hnew⟩⟩
    · exact ⟨d, hsame.trans hd, hdseed, fun P hP => begun_apply (hpeers P hP)⟩
    · refine ⟨(d.addPeer P).2, by rw [hnew, hd]; rfl, GossipDiscovery.seed_addPeer.trans hdseed, ?_⟩
      intro Q hQ
      rcases GossipDiscovery.mem_addPeer.1 hQ with hpeer | rfl
      · exact begun_apply (hpeers Q hpeer)
      · exact begun_apply (h.begun_of_learns hlearns)
    · refine ⟨d.removePeer P, by rw [hnew, hd]; rfl, hdseed, ?_⟩
      exact fun Q hQ => begun_apply (hpeers Q (GossipDiscovery.mem_removePeer.1 hQ).1)
  · intro notice hnotice P hP
    rcases notices_apply hnotice with hold | ⟨n, hrunning, ⟨-, hmsg⟩ | ⟨-, hmsg⟩⟩
    · exact begun_apply (h.notices notice hold P hP)
    all_goals
      rw [hmsg] at hP
      obtain rfl := Option.some.inj hP
      exact begun_apply ⟨n, rfl, by rw [hrunning]; decide⟩
  · intro x n peer P hP
    rcases brings_apply hP with hold | ⟨c, -, -, hring, -⟩
    · exact begun_apply (h.answers x n peer P hold)
    · exact begun_apply (h.rings _ P hring)
  · intro x n peer stage hx
    rcases asked_apply hx with ⟨stage', hold⟩ | ⟨env, peers, found, hpeer⟩
    · exact begun_apply (h.asked x n peer stage' hold)
    · rcases h.begun_of_found found (mem_candidates.1 hpeer).1 with hbegun | rfl
      · exact begun_apply hbegun
      · exact hseed

private theorem sound_initial : Sound L seed (seededAfter V τ L seed []) := by
  constructor
  · intro r P hP
    cases hP
  · exact fun i => ⟨GossipDiscovery.new (L.info seed), rfl, rfl, fun P hP => by cases hP⟩
  · intro notice hnotice
    cases hnotice
  · rintro x n peer P ⟨stage, hx, -⟩
    cases hx
  · intro x n peer stage hx
    cases hx

end Sound

/-- After every run that begins with the start of the seed, only nodes that have begun to start are known. -/
private theorem sound_and_begun {run : GossipRun}
    (hfirst : ∀ pre e post, run = pre ++ e :: post → pre = [] → ∃ env, e = .start seed env) :
    Sound L seed (seededAfter V τ L seed run) ∧
      (run ≠ [] → Begun V τ L (seededAfter V τ L seed run) (L.info seed)) := by
  refine after_invariant (P := fun pre s => Sound L seed s ∧ (pre ≠ [] → Begun V τ L s (L.info seed)))
    (C := fun pre e => pre = [] → ∃ env, e = .start seed env) ⟨sound_initial, fun hne => absurd rfl hne⟩ ?_ hfirst
  rintro pre e hstart ⟨hsound, hseed⟩
  have hnext : Begun V τ L ((seededAfter V τ L seed pre).apply L e) (L.info seed) := by
    by_cases hpre : pre = []
    · obtain ⟨env, rfl⟩ := hstart hpre
      obtain ⟨d, hd, -, -⟩ := hsound.discoveries (L.discovery seed)
      exact begun_start d.getPeers (by rw [membership]; exact congrArg (Discovery.getPeers env) hd)
    · exact begun_apply (hseed hpre)
  exact ⟨sound_apply hsound hnext, fun _ => hnext⟩

/-! ### While no node leaves, no ring loses a node -/

section Calm

variable {s : Cluster V τ} {e : GossipEvent}

/-- Nothing is under way that would remove a node, and each node that has begun to start has the seed and itself in its
ring. -/
structure Calm (L : Layout) (seed : Id) (s : Cluster V τ) : Prop where
  joins : ∀ notice ∈ s.notices, notice.msg.type = .peerAnnounce
  parses : ∀ x n peer, ¬ s.Holds x n peer none
  none_stopped : ∀ n, s.phase n ≠ .stopped
  rooted : ∀ n, s.phase n ≠ .idle → L.info seed ∈ (s.rings (L.ring n)).nodes ∧ L.info n ∈ (s.rings (L.ring n)).nodes

theorem Calm.running (h : Calm L seed s) {n : Id} (hn : s.phase n ≠ .idle) : s.phase n = .running := by
  have hstopped := h.none_stopped n
  cases hphase : s.phase n with
  | idle => exact absurd hphase hn
  | running => rfl
  | stopped => exact absurd hphase hstopped

/-- In a calm cluster in which the event is no request that a running node leaves unanswered, nothing is removed. -/
private theorem Calm.not_removes (h : Calm L seed s) (hsound : Sound L seed s)
    (hanswered : ∀ x, e = .fail x → ∀ n peer stage, s.exchanges[x]? = some ⟨n, peer, stage⟩ →
      ∀ c, L.info c = peer → s.phase c ≠ .running) {n : Id} {P : NodeInfo} : ¬ s.Removes L e n P := by
  intro hremoves
  cases hremoves with
  | leave sent reaches leaves names =>
    have hjoin := h.joins _ (List.mem_of_getElem? sent)
    rw [leaves] at hjoin
    cases hjoin
  | unanswered asked waits =>
    obtain ⟨c, hc, hphase⟩ := hsound.asked _ _ _ _ asked
    exact hanswered _ rfl _ _ _ asked c hc (h.running hphase)
  | malformed turn => exact h.parses _ _ _ ⟨_, turn, List.mem_cons_self⟩

theorem mem_apply_of_not_removes (hkeep : ∀ n P, ¬ s.Removes L e n P) {r : Id} {P : NodeInfo}
    (hP : P ∈ (s.rings r).nodes) : P ∈ ((s.apply L e).rings r).nodes := by
  by_contra hgone
  obtain ⟨n, -, hremoves⟩ := removes_of_notMem hP hgone
  exact hkeep n P hremoves

private theorem calm_apply (h : Calm L seed s) (hsound : Sound L seed s) (hleave : ∀ n, e ≠ .announceLeave n)
    (hkeep : ∀ n P, ¬ s.Removes L e n P) : Calm L seed (s.apply L e) := by
  constructor
  · intro notice hnotice
    rcases notices_apply hnotice with hold | ⟨n, -, ⟨-, hmsg⟩ | ⟨he, -⟩⟩
    · exact h.joins notice hold
    · rw [hmsg]
      rfl
    · exact absurd he (hleave n)
  · intro x n peer hholds
    rcases holds_apply hholds with hold | ⟨c, P, -, -, hnone, -⟩
    · exact h.parses x n peer hold
    · cases hnone
  · exact fun n hstopped => hleave n (leaves_of_phase (h.none_stopped n) hstopped)
  · intro n hn
    by_cases hidle : s.phase n = .idle
    · -- the node starts, and takes its peers, among them the seed, and itself into its ring
      obtain ⟨env, peers, rfl, found⟩ := starts_of_phase hidle hn
      obtain ⟨d, hd, hseed, -⟩ := hsound.discoveries (L.discovery n)
      have hring : ∀ P, P ∈ ((s.apply L (.start n env)).rings (L.ring n)).nodes ↔
          P ∈ ((s.membership L n).bootstrap (L.info n) peers).ring.nodes := by
        intro P
        simp only [apply, found, setMembership_rings_self]
      rw [membership, hd, Discovery.getPeers, Option.some.injEq] at found
      subst found
      rw [hring, hring, Membership.mem_ring_bootstrap, Membership.mem_ring_bootstrap, ← hseed]
      exact ⟨Or.inr (Or.inl (List.mem_append_right _ List.mem_cons_self)), Or.inr (Or.inr rfl)⟩
    · obtain ⟨hseed, hself⟩ := h.rooted n hidle
      exact ⟨mem_apply_of_not_removes hkeep hseed, mem_apply_of_not_removes hkeep hself⟩

private theorem calm_initial : Calm L seed (seededAfter V τ L seed []) := by
  constructor
  · intro notice hnotice
    cases hnotice
  · rintro x n peer ⟨stage, hx, -⟩
    cases hx
  · exact fun n hstopped => by cases hstopped
  · exact fun n hn => absurd rfl hn

end Calm

variable {run pre post : GossipRun} {e : GossipEvent}

theorem Orderly.take (h : Orderly V τ L seed (pre ++ post)) : Orderly V τ L seed pre := by
  constructor
  · rintro a e b rfl
    exact h.seed_first a e (b ++ post) (by simp)
  · exact fun n hn => h.none_leaves n (List.mem_append_left _ hn)
  · rintro a x b rfl
    exact h.answered a x (b ++ post) (by simp)

theorem Orderly.sound (h : Orderly V τ L seed run) : Sound L seed (seededAfter V τ L seed run) :=
  (sound_and_begun h.seed_first).1

/-- The last event of an orderly run whose state was calm removes nothing. -/
theorem Orderly.not_removes_of_calm (h : Orderly V τ L seed (pre ++ [e]))
    (hcalm : Calm L seed (seededAfter V τ L seed pre)) (n : Id) (P : NodeInfo) :
    ¬ (seededAfter V τ L seed pre).Removes L e n P := by
  refine hcalm.not_removes h.take.sound ?_
  rintro x rfl
  exact h.answered pre x [] rfl

theorem Orderly.calm (h : Orderly V τ L seed run) : Calm L seed (seededAfter V τ L seed run) := by
  refine after_invariant (P := fun _ s => Calm L seed s) (C := fun pre e => Orderly V τ L seed (pre ++ [e]))
    calm_initial ?_ ?_
  · intro pre e horderly hcalm
    refine calm_apply hcalm (Orderly.sound horderly.take) ?_ (horderly.not_removes_of_calm hcalm)
    rintro n rfl
    exact horderly.none_leaves n (by simp)
  · rintro pre e post rfl
    rw [List.append_cons] at h
    exact h.take

/-- In an orderly run no ring loses a node. -/
theorem mem_ring_extend (h : Orderly V τ L seed (pre ++ post)) {r : Id} {P : NodeInfo}
    (hP : P ∈ ((seededAfter V τ L seed pre).rings r).nodes) :
    P ∈ ((seededAfter V τ L seed (pre ++ post)).rings r).nodes := by
  by_contra hgone
  obtain ⟨mid, e, rest, rfl, hbefore, hafter⟩ :=
    after_becomes (Q := fun s : Cluster V τ => P ∉ (s.rings r).nodes) (not_not_intro hP) hgone
  rw [List.append_cons, ← List.append_assoc, ← List.append_assoc] at h
  have horderly : Orderly V τ L seed (pre ++ mid ++ [e]) := h.take
  obtain ⟨n, -, hremoves⟩ := removes_of_notMem (not_not.1 hbefore) hafter
  exact horderly.not_removes_of_calm horderly.take.calm n P hremoves

/-- A message that has been broadcast keeps its number. -/
private theorem notice_extend {k : Nat} {notice : Notice V τ}
    (hk : (seededAfter V τ L seed pre).notices[k]? = some notice) :
    (seededAfter V τ L seed (pre ++ post)).notices[k]? = some notice := by
  by_contra hlost
  obtain ⟨mid, e, rest, -, hbefore, hafter⟩ :=
    after_becomes (Q := fun s : Cluster V τ => s.notices[k]? ≠ some notice) (not_not_intro hk) hlost
  exact hafter (notice_kept (not_not.1 hbefore))

/-! ### Agreement -/

theorem seededAfter_concat (pre : GossipRun) (e : GossipEvent) :
    seededAfter V τ L seed (pre ++ [e]) = (seededAfter V τ L seed pre).apply L e := by
  rw [seededAfter, gossipAfter, after_concat]
  rfl

/-- A running node that announces itself sends the message to the seed, which is in its ring. -/
private theorem announcement_sent (hL : L.Separate) (h : Orderly V τ L seed pre) {n : Id}
    (hn : (seededAfter V τ L seed pre).phase n = .running) (hseed : n ≠ seed) :
    ⟨L.info seed, Gossip.announceJoin (L.info n)⟩ ∈ (seededAfter V τ L seed (pre ++ [.announceJoin n])).notices := by
  have hroot := (h.calm.rooted n (by rw [hn]; decide)).1
  rw [seededAfter_concat]
  simp only [apply, if_pos hn]
  refine List.mem_append_right _ (List.mem_map_of_mem (Membership.mem_others.2 ⟨hroot, ?_⟩))
  exact fun heq => hseed (hL.addresses heq).symm

/-- The seed has heard of every node that has completed its start. -/
theorem seed_has (hL : L.Separate) (h : Orderly V τ L seed run) (hstarted : Started V τ L seed run) {n : Id}
    (hn : (seededAfter V τ L seed run).phase n = .running) :
    L.info n ∈ ((seededAfter V τ L seed run).rings (L.ring seed)).nodes := by
  by_cases hseed : n = seed
  · subst hseed
    exact (h.calm.rooted n (by rw [hn]; decide)).2
  · obtain ⟨pre, post, hrun, hrunning⟩ := hstarted.announced n hn
    rw [List.append_cons] at hrun
    have hpre : Orderly V τ L seed pre := (hrun ▸ h).take.take
    obtain ⟨k, hk⟩ := List.getElem?_of_mem (announcement_sent hL hpre hrunning hseed)
    -- the message has been handled, and only the seed is reached at its address
    obtain ⟨pre', c, post', hrun', hnotice, hlistens⟩ := hstarted.handled k _ (hrun ▸ notice_extend hk)
    obtain rfl : c = seed := hL.addresses ((hL.reached c _).1 hlistens.1)
    have hmem : L.info n ∈ ((seededAfter V τ L c (pre' ++ [.deliver k c])).rings (L.ring c)).nodes := by
      rw [seededAfter_concat]
      exact mem_of_hears ⟨k, _, rfl, hnotice, hlistens, rfl, rfl⟩
    rw [List.append_cons] at hrun'
    rw [hrun'] at h ⊢
    exact mem_ring_extend h hmem

/-- A node that learns nothing from the seed has the nodes of the seed's ring. -/
private theorem has_of_quiescent (hL : L.Separate) (h : Orderly V τ L seed run)
    (hquiet : Quiescent V τ L (seededAfter V τ L seed run)) {n : Id}
    (hn : (seededAfter V τ L seed run).phase n = .running) {P : NodeInfo}
    (hP : P ∈ ((seededAfter V τ L seed run).rings (L.ring seed)).nodes) :
    P ∈ ((seededAfter V τ L seed run).rings (L.ring n)).nodes := by
  obtain ⟨hroot, hself⟩ := h.calm.rooted n (by rw [hn]; decide)
  by_cases hPself : P = L.info n
  · rw [hPself]
    exact hself
  by_cases hPseed : P = L.info seed
  · rw [hPseed]
    exact hroot
  -- the seed is among the peers that the node may ask, and lists `P`
  obtain ⟨d, hd, hdseed, -⟩ := h.sound.discoveries (L.discovery n)
  have hlistens : (seededAfter V τ L seed run).Listens L seed (L.info seed) := by
    refine ⟨(hL.reached seed _).2 rfl, ?_⟩
    have hne : run ≠ [] := by
      rintro rfl
      cases hn
    obtain ⟨c, hc, hphase⟩ := (sound_and_begun h.seed_first).2 hne
    rwa [hL.addresses hc] at hphase
  have hfound : ((seededAfter V τ L seed run).membership L n).discovery.getPeers {} = some d.getPeers := by
    rw [membership, hd]
    rfl
  by_cases hsame : n = seed
  · rw [hsame]
    exact hP
  have hcandidate : L.info seed ∈ candidates (L.info n) d.getPeers := by
    rw [mem_candidates, GossipDiscovery.getPeers, hdseed]
    exact ⟨List.mem_append_right _ List.mem_cons_self, fun heq => hsame (hL.addresses heq).symm⟩
  refine (hquiet n {} d.getPeers (L.info seed) seed hn hfound hcandidate hlistens P).1 ?_
  show P ∈ (gossipWith (L.info n) (L.info seed) (.ok (some (peerListing (V := V) (τ := τ) _))) _).ring.nodes
  rw [mem_ring_gossipWith]
  exact Or.inr ⟨Membership.mem_others.2 ⟨hP, hPseed⟩, hPself⟩

/-- In every orderly run the rings hold only nodes that have begun to start.  When all starts are complete and no
exchange would change a ring, the ring of every running node is the set of the running nodes. -/
theorem rings_agree_at_quiescence (V τ : Type) (L : Layout) (seed : Id) (hL : L.Separate) (run : GossipRun)
    (h : Orderly V τ L seed run) :
    (∀ n P, P ∈ ((seededAfter V τ L seed run).rings (L.ring n)).nodes → Begun V τ L (seededAfter V τ L seed run) P) ∧
    (Started V τ L seed run → Quiescent V τ L (seededAfter V τ L seed run) →
      ∀ n, (seededAfter V τ L seed run).phase n = .running →
        ∀ P, P ∈ ((seededAfter V τ L seed run).rings (L.ring n)).nodes ↔
          ∃ c, L.info c = P ∧ (seededAfter V τ L seed run).phase c = .running) := by
  refine ⟨fun n P => h.sound.rings (L.ring n) P, ?_⟩
  intro hstarted hquiet n hn P
  constructor
  · intro hP
    obtain ⟨c, hc, hphase⟩ := h.sound.rings (L.ring n) P hP
    exact ⟨c, hc, h.calm.running hphase⟩
  · rintro ⟨c, rfl, hc⟩
    exact has_of_quiescent hL h hquiet hn (seed_has hL h hstarted hc)

/-- Rings that agree change no more. -/
theorem quiescent_of_agreement {s : Cluster V τ}
    (h : ∀ n c P, s.phase n ≠ .idle → s.phase c ≠ .idle → P ∈ (s.rings (L.ring c)).nodes →
      P ∈ (s.rings (L.ring n)).nodes) : Quiescent V τ L s := by
  rintro n env peers peer c hn - - hlistens P
  show P ∈ (gossipWith (L.info n) peer (.ok (some (peerListing (V := V) (τ := τ) _))) _).ring.nodes ↔ _
  rw [mem_ring_gossipWith]
  constructor
  · rintro (hold | ⟨hview, -⟩)
    · exact hold
    · exact h n c P (by rw [hn]; decide) hlistens.2 (Membership.mem_others.1 hview).1
  · exact Or.inl

/-- The seed 7001 starts, and node 7002 joins. -/
def joinRun : GossipRun := [.start 0 {}, .announceJoin 0, .start 1 {}, .announceJoin 1, .deliver 0 0]

theorem localLayout_separate : (localLayout id).Separate := by
  have hinj : Function.Injective (localLayout id).info := by
    intro n m h
    have hport : (7001 + n : Int) = 7001 + m := (NodeInfo.mk.inj h).2
    exact Int.ofNat_inj.1 (add_left_cancel hport)
  refine ⟨fun n m h => h, hinj, ?_⟩
  intro c address
  show decide (address = localhost (7001 + c)) = true ↔ localhost (7001 + c) = address
  rw [decide_eq_true_iff, eq_comm]

private theorem joinRun_orderly : Orderly Nat Int (localLayout id) 0 joinRun := by
  constructor
  · rintro pre e post h rfl
    exact ⟨{}, (List.cons.inj h).1.symm⟩
  · intro n
    simp [joinRun]
  · intro pre x post h
    have hmem : GossipEvent.fail x ∈ joinRun := by
      rw [h]
      simp
    simp [joinRun] at hmem

private theorem joinRun_phase :
    (seededAfter Nat Int (localLayout id) 0 joinRun).phase =
      Function.update (Function.update (fun _ => .idle) 0 .running) 1 .running := rfl

private theorem joinRun_awake {n : Id} (hn : (seededAfter Nat Int (localLayout id) 0 joinRun).phase n ≠ .idle) :
    n = 0 ∨ n = 1 := by
  rw [joinRun_phase] at hn
  by_contra hother
  rw [not_or] at hother
  rw [Function.update_of_ne hother.2, Function.update_of_ne hother.1] at hn
  exact hn rfl

private theorem joinRun_started : Started Nat Int (localLayout id) 0 joinRun := by
  constructor
  · intro n hn
    rcases joinRun_awake (by rw [hn]; decide) with rfl | rfl
    · exact ⟨joinRun.take 1, joinRun.drop 2, rfl, rfl⟩
    · exact ⟨joinRun.take 3, joinRun.drop 4, rfl, rfl⟩
  · intro k notice hk
    have hnotices : (seededAfter Nat Int (localLayout id) 0 joinRun).notices =
        [⟨localhost 7001, Gossip.announceJoin (localhost 7002)⟩] := rfl
    rw [hnotices] at hk
    cases k with
    | zero =>
      obtain rfl := Option.some.inj hk
      exact ⟨joinRun.take 4, 0, [], rfl, rfl, by decide +kernel⟩
    | succ k => cases hk

private theorem joinRun_quiescent :
    Quiescent Nat Int (localLayout id) (seededAfter Nat Int (localLayout id) 0 joinRun) := by
  apply quiescent_of_agreement
  have hring : ∀ n, n = 0 ∨ n = 1 →
      ((seededAfter Nat Int (localLayout id) 0 joinRun).rings n).nodes = [localhost 7001, localhost 7002] := by
    rintro n (rfl | rfl) <;> decide +kernel
  intro n c P hn hc hP
  have heq := (hring n (joinRun_awake hn)).trans (hring c (joinRun_awake hc)).symm
  exact heq ▸ hP

/-- The joining node has the seed in its ring. -/
theorem joinRun_agrees :
    (localLayout id).info 0 ∈ ((seededAfter Nat Int (localLayout id) 0 joinRun).rings 1).nodes :=
  ((rings_agree_at_quiescence Nat Int (localLayout id) 0 localLayout_separate joinRun joinRun_orderly).2
    joinRun_started joinRun_quiescent 1 rfl _).2 ⟨0, rfl, rfl⟩

end DLStorage
