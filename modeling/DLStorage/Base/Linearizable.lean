import Mathlib.Data.Prod.Lex
import Mathlib.Data.List.Sort

/-!
# Linearizable histories

A history records when each call was made and with what input, and when it returned and with what result, if it has
returned.  It is linearizable when the calls that have returned, possibly with some that have not, can be executed one
after the other in an order that keeps real time and with the results of the history (`History.Linearizable`).

For a register it is enough to stamp the calls: a read gets the stamp of the write whose value it returns, different
writes have different stamps, and stamps follow real time (`History.Stamped`).  The calls are then ordered by their
stamps, a write before the reads of its value and these by the instants at which they were made
(`History.Stamped.linearizable`).

Where every call takes effect in one step, the log of these steps is the order: it has to hold a step for each call that
has returned, between its call and its return, and to lead from state to state (`History.Logged.linearizable`).
-/

namespace Base

/-- The instants of calls and returns count the steps of a run. -/
structure History (ι α β : Type) where
  call : ι → Option (Nat × α)
  ret : ι → Option (Nat × β)

namespace History

variable {ι α β σ : Type} (h : History ι α β)

/-- Call `i` returned before call `j` was made. -/
def Before (i j : ι) : Prop := ∃ r c, h.ret i = some r ∧ h.call j = some c ∧ r.1 < c.1

/-- Executed one after the other the calls can have the results of the history.  Any result will do for a call that
has not returned. -/
def Legal (spec : σ → α → β → σ → Prop) : σ → List ι → Prop
  | _, [] => True
  | s, i :: order => ∃ c b s', h.call i = some c ∧ (∀ r, h.ret i = some r → r.2 = b) ∧ spec s c.2 b s' ∧
      Legal spec s' order

def Linearizable (spec : σ → α → β → σ → Prop) (init : σ) : Prop :=
  ∃ order : List ι, order.Nodup ∧ (∀ i r, h.ret i = some r → i ∈ order) ∧
    order.Pairwise (fun i j => ¬ h.Before j i) ∧ h.Legal spec init order

variable {h} {spec spec' : σ → α → β → σ → Prop}

private theorem Legal.mono (hspec : ∀ s a b s', spec s a b s' → spec' s a b s') {s : σ} {order : List ι}
    (hlegal : h.Legal spec s order) : h.Legal spec' s order := by
  induction order generalizing s with
  | nil => trivial
  | cons i order ih =>
    obtain ⟨c, b, s', hcall, hret, hstep, hrest⟩ := hlegal
    exact ⟨c, b, s', hcall, hret, hspec _ _ _ _ hstep, ih hrest⟩

theorem Linearizable.mono (hspec : ∀ s a b s', spec s a b s' → spec' s a b s') {init : σ}
    (hlin : h.Linearizable spec init) : h.Linearizable spec' init := by
  obtain ⟨order, hnodup, hall, hbefore, hlegal⟩ := hlin
  exact ⟨order, hnodup, hall, hbefore, hlegal.mono hspec⟩

end History

/-! ### Calls that take effect in one step -/

/-- The step in which call `who` takes effect. -/
structure Effect (ι α β : Type) where
  who : ι
  input : α
  output : β
  time : Nat

/-- The effects of a log lead from one state to another. -/
def Chain {ι α β σ : Type} (spec : σ → α → β → σ → Prop) : σ → List (Effect ι α β) → σ → Prop
  | s, [], s' => s = s'
  | s, e :: log, s' => ∃ s₁, spec s e.input e.output s₁ ∧ Chain spec s₁ log s'

theorem Chain.concat {ι α β σ : Type} {spec : σ → α → β → σ → Prop} {s s₁ s₂ : σ} {log : List (Effect ι α β)}
    {e : Effect ι α β} (h : Chain spec s log s₁) (he : spec s₁ e.input e.output s₂) : Chain spec s (log ++ [e]) s₂ := by
  induction log generalizing s with
  | nil =>
    obtain rfl : s = s₁ := h
    exact ⟨s₂, he, rfl⟩
  | cons e' log ih =>
    obtain ⟨s', hs', hrest⟩ := h
    exact ⟨s', hs', ih hrest⟩

namespace History

variable {ι α β σ : Type} {h : History ι α β} {spec : σ → α → β → σ → Prop} {init final : σ}
  {log : List (Effect ι α β)}

/-- The log tells when each call took effect, and once. -/
structure Logged (h : History ι α β) (spec : σ → α → β → σ → Prop) (init final : σ) (log : List (Effect ι α β)) :
    Prop where
  chain : Chain spec init log final
  once : (log.map Effect.who).Nodup
  sorted : log.Pairwise fun e e' => e.time < e'.time
  called : ∀ e ∈ log, ∃ t, h.call e.who = some (t, e.input) ∧ t ≤ e.time
  returned : ∀ i r, h.ret i = some r → ∃ e ∈ log, e.who = i ∧ e.output = r.2 ∧ e.time ≤ r.1

private theorem legal_of_chain {s : σ} (hchain : Chain spec s log final)
    (hcalled : ∀ e ∈ log, ∃ t, h.call e.who = some (t, e.input))
    (hret : ∀ e ∈ log, ∀ r, h.ret e.who = some r → r.2 = e.output) : h.Legal spec s (log.map Effect.who) := by
  induction log generalizing s with
  | nil => trivial
  | cons e log ih =>
    obtain ⟨s₁, hspec, hrest⟩ := hchain
    obtain ⟨t, ht⟩ := hcalled e (List.mem_cons_self ..)
    refine ⟨(t, e.input), e.output, s₁, ht, hret e (List.mem_cons_self ..), hspec, ?_⟩
    exact ih hrest (fun e' he' => hcalled e' (List.mem_cons_of_mem _ he'))
      (fun e' he' => hret e' (List.mem_cons_of_mem _ he'))

/-- A history with a log is linearizable. -/
theorem Logged.linearizable (hl : h.Logged spec init final log) : h.Linearizable spec init := by
  have hsame : ∀ e ∈ log, ∀ e' ∈ log, e.who = e'.who → e = e' :=
    fun e he e' he' heq => List.inj_on_of_nodup_map hl.once he he' heq
  refine ⟨log.map Effect.who, hl.once, ?_, ?_, ?_⟩
  · intro i r hr
    obtain ⟨e, he, rfl, -⟩ := hl.returned i r hr
    exact List.mem_map_of_mem he
  · rw [List.pairwise_map]
    refine hl.sorted.imp_of_mem ?_
    rintro e e' he he' hlt ⟨r, c, hr, hc, hrc⟩
    -- the later effect is between its own call and return
    obtain ⟨e'', he'', hwho, -, hle⟩ := hl.returned _ r hr
    obtain rfl := hsame e'' he'' e' he' hwho
    obtain ⟨t, ht, hle'⟩ := hl.called e he
    obtain rfl := Option.some.inj (hc.symm.trans ht)
    simp only at hrc
    omega
  · refine legal_of_chain hl.chain ?_ ?_
    · intro e he
      obtain ⟨t, ht, -⟩ := hl.called e he
      exact ⟨t, ht⟩
    · intro e he r hr
      obtain ⟨e', he', hwho, hout, -⟩ := hl.returned _ r hr
      obtain rfl := hsame e' he' e he hwho
      exact hout.symm

end History

/-! ### Registers -/

inductive Access (α : Type)
  | read
  | write (a : α)

/-- A read returns what the register holds; a write replaces it and returns nothing. -/
def register {α : Type} (s : α) : Access α → Option α → α → Prop
  | .read, b, s' => b = some s ∧ s' = s
  | .write a, b, s' => b = none ∧ s' = a

namespace History

variable {ι α κ : Type} (h : History ι (Access α) (Option α))

def Reads (i : ι) : Prop := ∃ t, h.call i = some (t, .read)

/-- Call `i` writes `a`. -/
def Writes (i : ι) (a : α) : Prop := ∃ t, h.call i = some (t, .write a)

variable [LinearOrder κ]

/-- The stamps of the calls in a list tell how to order them. -/
structure Stamped (init : α) (calls : List ι) (stamp : ι → κ) : Prop where
  nodup : calls.Nodup
  made : ∀ i ∈ calls, ∃ c, h.call i = some c
  returned : ∀ i r, h.ret i = some r → i ∈ calls
  forward : ∀ i c r, h.call i = some c → h.ret i = some r → c.1 < r.1
  acks : ∀ i a r, h.Writes i a → h.ret i = some r → r.2 = none
  distinct : ∀ i ∈ calls, ∀ j ∈ calls, ∀ a b, h.Writes i a → h.Writes j b → stamp i = stamp j → i = j
  /-- A read returns the value of the write with its stamp, or the initial value when its stamp is below those of all
  writes. -/
  reads : ∀ i ∈ calls, h.Reads i → ∃ t a, h.ret i = some (t, some a) ∧
    ((∃ j ∈ calls, h.Writes j a ∧ stamp j = stamp i) ∨ (a = init ∧ ∀ j ∈ calls, ∀ b, h.Writes j b → stamp i < stamp j))
  follows : ∀ i ∈ calls, ∀ j ∈ calls, h.Before i j → stamp i ≤ stamp j
  overtakes : ∀ i ∈ calls, ∀ j ∈ calls, ∀ a, h.Before i j → h.Writes j a → stamp i < stamp j

/-- A write goes before the reads with its stamp, and these go in the order in which they were made. -/
private def position (stamp : ι → κ) (i : ι) : κ ×ₗ Nat :=
  toLex (stamp i, match h.call i with
    | some (t, .read) => t + 1
    | _ => 0)

variable {h} {init : α} {calls : List ι} {stamp : ι → κ}

private theorem stamp_le_of_position_le {i j : ι} (hle : h.position stamp i ≤ h.position stamp j) :
    stamp i ≤ stamp j := by
  rcases Prod.Lex.toLex_le_toLex.1 hle with hlt | ⟨heq, -⟩
  · exact le_of_lt hlt
  · exact le_of_eq heq

private theorem position_lt_of_writes {i j : ι} {a : α} (hi : h.Writes i a) (hj : h.Reads j)
    (heq : stamp i = stamp j) : h.position stamp i < h.position stamp j := by
  obtain ⟨t, hi⟩ := hi
  obtain ⟨t', hj⟩ := hj
  refine Prod.Lex.toLex_lt_toLex.2 (Or.inr ⟨heq, ?_⟩)
  simp only [hi, hj]
  omega

private theorem reads_or_writes {i : ι} {c : Nat × Access α} (hc : h.call i = some c) :
    h.Reads i ∨ ∃ a, h.Writes i a := by
  obtain ⟨t, access⟩ := c
  cases access with
  | read => exact Or.inl ⟨t, hc⟩
  | write a => exact Or.inr ⟨a, t, hc⟩

namespace Stamped

/-- Positions follow real time. -/
private theorem position_lt (hs : h.Stamped init calls stamp) {i j : ι} (hi : i ∈ calls) (hj : j ∈ calls)
    (hb : h.Before i j) : h.position stamp i < h.position stamp j := by
  obtain ⟨c, hc⟩ := hs.made j hj
  rcases reads_or_writes hc with hread | ⟨a, hwrite⟩
  · rcases lt_or_eq_of_le (hs.follows i hi j hj hb) with hlt | heq
    · exact Prod.Lex.toLex_lt_toLex.2 (Or.inl hlt)
    · obtain ⟨ci, hci⟩ := hs.made i hi
      rcases reads_or_writes hci with hread' | ⟨a, hwrite⟩
      · -- two reads of one value: the first was made, and returned, before the second was made
        obtain ⟨r, c', hr, hc', hlt⟩ := hb
        obtain ⟨t, ht⟩ := hread
        obtain ⟨t', ht'⟩ := hread'
        have hforward := hs.forward i _ r ht' hr
        rw [Option.some.inj (hc'.symm.trans ht)] at hlt
        refine Prod.Lex.toLex_lt_toLex.2 (Or.inr ⟨heq, ?_⟩)
        simp only [ht, ht'] at hforward hlt ⊢
        omega
      · exact position_lt_of_writes hwrite hread heq
  · exact Prod.Lex.toLex_lt_toLex.2 (Or.inl (hs.overtakes i hi j hj a hb hwrite))

/-- What the register holds after the given calls: the value of the write with the greatest stamp. -/
private def Holds (h : History ι (Access α) (Option α)) (stamp : ι → κ) (init : α) (done : List ι) (s : α) : Prop :=
  (∃ j ∈ done, h.Writes j s ∧ ∀ j' ∈ done, ∀ b, h.Writes j' b → stamp j' ≤ stamp j) ∨
    (s = init ∧ ∀ j ∈ done, ∀ b, ¬ h.Writes j b)

private theorem holds_write {done : List ι} {i : ι} {a : α} (hi : h.Writes i a)
    (hmax : ∀ j ∈ done, stamp j ≤ stamp i) : Holds h stamp init (done ++ [i]) a := by
  refine Or.inl ⟨i, by simp, hi, ?_⟩
  intro j hj b _
  rcases List.mem_append.1 hj with hj | hj
  · exact hmax j hj
  · rw [List.mem_singleton.1 hj]

private theorem holds_read {done : List ι} {i : ι} {s : α} (hi : h.Reads i) (hs : Holds h stamp init done s) :
    Holds h stamp init (done ++ [i]) s := by
  have hnot : ∀ b, ¬ h.Writes i b := by
    rintro b ⟨t, ht⟩
    obtain ⟨t', ht'⟩ := hi
    have := ht.symm.trans ht'
    simp at this
  rcases hs with ⟨j, hj, hw, hmax⟩ | ⟨hinit, hnone⟩
  · refine Or.inl ⟨j, List.mem_append_left _ hj, hw, ?_⟩
    intro j' hj' b hb
    rcases List.mem_append.1 hj' with hj' | hj'
    · exact hmax j' hj' b hb
    · rw [List.mem_singleton.1 hj'] at hb
      exact absurd hb (hnot b)
  · refine Or.inr ⟨hinit, ?_⟩
    intro j hj b hb
    rcases List.mem_append.1 hj with hj | hj
    · exact hnone j hj b hb
    · rw [List.mem_singleton.1 hj] at hb
      exact hnot b hb

/-- Where a read stands, the register holds the value that it returns. -/
private theorem holds_returned (hs : h.Stamped init calls stamp) {done rest : List ι} {i : ι}
    (hmem : ∀ j, j ∈ done ++ i :: rest ↔ j ∈ calls)
    (hsorted : (done ++ i :: rest).Pairwise (fun i j => h.position stamp i ≤ h.position stamp j))
    {s : α} (hholds : Holds h stamp init done s) {t : Nat} {a : α} (hi : h.Reads i)
    (hret : h.ret i = some (t, some a)) : a = s := by
  have hcalls : i ∈ calls := (hmem i).1 (by simp)
  have hle : ∀ j ∈ done, stamp j ≤ stamp i := by
    intro j hj
    exact stamp_le_of_position_le ((List.pairwise_append.1 hsorted).2.2 j hj i (List.mem_cons_self ..))
  obtain ⟨t', a', hret', hcase⟩ := hs.reads i hcalls hi
  obtain rfl : a = a' := by
    have := hret.symm.trans hret'
    simp only [Option.some.injEq, Prod.mk.injEq] at this
    exact this.2
  rcases hcase with ⟨j, hj, hw, heq⟩ | ⟨hinit, hbelow⟩
  · -- the write of the value stands before the read, and no later write does
    have hlt := position_lt_of_writes hw hi heq
    have hdone : j ∈ done := by
      rcases List.mem_append.1 ((hmem j).2 hj) with hj | hj
      · exact hj
      · rcases List.mem_cons.1 hj with rfl | hj
        · exact absurd hlt (lt_irrefl _)
        · have hpair := (List.pairwise_append.1 hsorted).2.1
          exact absurd (lt_of_lt_of_le hlt ((List.pairwise_cons.1 hpair).1 j hj)) (lt_irrefl _)
    rcases hholds with ⟨j', hj', hw', hmax⟩ | ⟨-, hnone⟩
    · have hjj : j = j' := by
        refine hs.distinct j hj j' ((hmem j').1 (List.mem_append_left _ hj')) _ _ hw hw' (le_antisymm ?_ ?_)
        · exact hmax j hdone _ hw
        · rw [heq]
          exact hle j' hj'
      subst hjj
      obtain ⟨u, hu⟩ := hw
      obtain ⟨u', hu'⟩ := hw'
      have := hu.symm.trans hu'
      simp only [Option.some.injEq, Prod.mk.injEq, Access.write.injEq] at this
      exact this.2
    · exact absurd hw (hnone j hdone _)
  · rcases hholds with ⟨j', hj', hw', -⟩ | ⟨hs', -⟩
    · have := hbelow j' ((hmem j').1 (List.mem_append_left _ hj')) _ hw'
      exact absurd (lt_of_lt_of_le this (hle j' hj')) (lt_irrefl _)
    · rw [hinit, hs']

private theorem legal (hs : h.Stamped init calls stamp) {done rest : List ι}
    (hmem : ∀ j, j ∈ done ++ rest ↔ j ∈ calls)
    (hsorted : (done ++ rest).Pairwise (fun i j => h.position stamp i ≤ h.position stamp j)) {s : α}
    (hholds : Holds h stamp init done s) : h.Legal register s rest := by
  induction rest generalizing done s with
  | nil => trivial
  | cons i rest ih =>
    have hcalls : i ∈ calls := (hmem i).1 (by simp)
    have hshift : done ++ i :: rest = (done ++ [i]) ++ rest := by simp
    obtain ⟨c, hc⟩ := hs.made i hcalls
    rcases reads_or_writes hc with hi | ⟨a, hi⟩
    · obtain ⟨t, a, hret, -⟩ := hs.reads i hcalls hi
      have ha : a = s := holds_returned hs hmem hsorted hholds hi hret
      obtain ⟨t', hcall⟩ := hi
      refine ⟨(t', .read), some s, s, hcall, ?_, ⟨rfl, rfl⟩, ?_⟩
      · intro r hr
        rw [← Option.some.inj (hret.symm.trans hr), ha]
      · exact ih (by rwa [← hshift]) (by rwa [← hshift]) (holds_read ⟨t', hcall⟩ hholds)
    · have hack := hs.acks i a
      obtain ⟨t, hcall⟩ := hi
      refine ⟨(t, .write a), none, a, hcall, fun r hr => hack r ⟨t, hcall⟩ hr, ⟨rfl, rfl⟩, ?_⟩
      refine ih (by rwa [← hshift]) (by rwa [← hshift]) (holds_write ⟨t, hcall⟩ ?_)
      intro j hj
      exact stamp_le_of_position_le ((List.pairwise_append.1 hsorted).2.2 j hj i (List.mem_cons_self ..))

/-- A stamped history of a register is linearizable. -/
theorem linearizable (hs : h.Stamped init calls stamp) : h.Linearizable register init := by
  let le : ι → ι → Bool := fun i j => decide (h.position stamp i ≤ h.position stamp j)
  have hperm : (calls.mergeSort le).Perm calls := List.mergeSort_perm calls le
  have hsorted : (calls.mergeSort le).Pairwise (fun i j => h.position stamp i ≤ h.position stamp j) := by
    have hpair : (calls.mergeSort le).Pairwise (fun i j => le i j = true) := by
      refine List.pairwise_mergeSort ?_ ?_ calls
      · intro i j k hij hjk
        simp only [le, decide_eq_true_eq] at hij hjk ⊢
        exact le_trans hij hjk
      · intro i j
        simp only [le, Bool.or_eq_true, decide_eq_true_eq]
        exact le_total _ _
    exact hpair.imp (fun hij => by simpa [le] using hij)
  refine ⟨calls.mergeSort le, hperm.nodup_iff.2 hs.nodup, ?_, ?_, ?_⟩
  · intro i r hr
    exact hperm.mem_iff.2 (hs.returned i r hr)
  · refine hsorted.imp_of_mem ?_
    intro i j hi hj hle hb
    exact absurd (hs.position_lt (hperm.mem_iff.1 hj) (hperm.mem_iff.1 hi) hb) (not_lt.2 hle)
  · have hholds : Holds h stamp init [] init := Or.inr ⟨rfl, fun j hj => by cases hj⟩
    exact legal hs (fun j => hperm.mem_iff) hsorted hholds

end Stamped

end History

end Base
