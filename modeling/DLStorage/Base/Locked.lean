import DLStorage.Base.Linearizable
import DLStorage.Base.Run
import DLStorage.Base.Slots

/-!
# Objects guarded by a lock

A method is a program that reads its surroundings (a clock, say), accesses a shared object one statement at a time, and
takes and gives back a lock (`Prog`).  Any number of threads execute such programs, one statement of one thread after
the other in any order; a thread that wants the lock stays where it is while another has it (`Shared`).

`Prog.Guarded` says that a program takes the lock once and accesses the object only while it has it.  The calls of
methods that are guarded are linearizable: each behaves as if it had run alone (`Prog.alone`) at some instant between
its call and its return (`Shared.linearizable`).  No thread is ever stuck for good: every state is followed by one in
which all calls have returned (`Shared.can_finish`).
-/

namespace Base

/-- A method of an object of type `σ` with a lock. -/
inductive Prog (ε σ β : Type)
  | ret (b : β)
  | look (next : ε → Prog ε σ β)
  | acquire (next : Prog ε σ β)
  | release (next : Prog ε σ β)
  | touch (f : σ → σ) (next : σ → Prog ε σ β) -- goes on with what was there before

namespace Prog

variable {ε σ α β γ : Type}

def bind : Prog ε σ α → (α → Prog ε σ β) → Prog ε σ β
  | ret a, k => k a
  | look next, k => look fun e => (next e).bind k
  | acquire next, k => acquire (next.bind k)
  | release next, k => release (next.bind k)
  | touch f next, k => touch f fun s => (next s).bind k

instance : Monad (Prog ε σ) where
  pure := ret
  bind := bind

/-- The program, with the lock given back before it returns. -/
def releasing : Prog ε σ β → Prog ε σ β
  | ret b => release (ret b)
  | look next => look fun e => (next e).releasing
  | acquire next => acquire next.releasing
  | release next => release next.releasing
  | touch f next => touch f fun s => (next s).releasing

/-- `with lock:`. -/
def locked (p : Prog ε σ β) : Prog ε σ β := acquire p.releasing

/-- What the program returns when it runs alone, the object that it leaves, and the readings that it has not used. -/
def alone : Prog ε σ β → σ → List ε → Option (β × σ × List ε)
  | ret b, s, es => some (b, s, es)
  | look _, _, [] => none
  | look next, s, e :: es => (next e).alone s es
  | acquire next, s, es => next.alone s es
  | release next, s, es => next.alone s es
  | touch f next, s, es => (next s).alone (f s) es

@[simp] theorem alone_pure (b : β) (s : σ) (es : List ε) :
    (pure b : Prog ε σ β).alone s es = some (b, s, es) := rfl

@[simp] theorem alone_bind (p : Prog ε σ α) (k : α → Prog ε σ β) (s : σ) (es : List ε) :
    (p >>= k).alone s es = (p.alone s es).bind fun r => (k r.1).alone r.2.1 r.2.2 := by
  show (p.bind k).alone s es = _
  induction p generalizing s es with
  | ret a => rfl
  | look next ih =>
    cases es with
    | nil => rfl
    | cons e es => exact ih e s es
  | acquire next ih => exact ih s es
  | release next ih => exact ih s es
  | touch f next ih => exact ih s (f s) es

theorem alone_releasing (p : Prog ε σ β) (s : σ) (es : List ε) : p.releasing.alone s es = p.alone s es := by
  induction p generalizing s es with
  | ret b => rfl
  | look next ih =>
    cases es with
    | nil => rfl
    | cons e es => exact ih e s es
  | acquire next ih => exact ih s es
  | release next ih => exact ih s es
  | touch f next ih => exact ih s (f s) es

@[simp] theorem alone_locked (p : Prog ε σ β) (s : σ) (es : List ε) : p.locked.alone s es = p.alone s es :=
  alone_releasing p s es

/-! ### Programs that use the lock properly -/

/-- The program returns at once. -/
def Returns (p : Prog ε σ β) : Prop := ∃ b, p = ret b

/-- The program is in its critical section: it gives the lock back and returns then. -/
def Inside : Prog ε σ β → Prop
  | ret _ | acquire _ => False
  | look next => ∀ e, (next e).Inside
  | release next => next.Returns
  | touch _ next => ∀ s, (next s).Inside

/-- The program accesses the object while it has the lock, which it takes once. -/
def Guarded : Prog ε σ β → Prop
  | ret _ | release _ | touch _ _ => False
  | look next => ∀ e, (next e).Guarded
  | acquire next => next.Inside

/-- The program leaves the lock alone. -/
def Lockless : Prog ε σ β → Prop
  | ret _ => True
  | acquire _ | release _ => False
  | look next => ∀ e, (next e).Lockless
  | touch _ next => ∀ s, (next s).Lockless

/-- The program only reads its surroundings. -/
def Looks : Prog ε σ β → Prop
  | ret _ => True
  | acquire _ | release _ | touch _ _ => False
  | look next => ∀ e, (next e).Looks

theorem Lockless.bind {p : Prog ε σ α} {k : α → Prog ε σ β} (hp : p.Lockless) (hk : ∀ a, (k a).Lockless) :
    (p >>= k).Lockless := by
  show (p.bind k).Lockless
  induction p with
  | ret a => exact hk a
  | look next ih => exact fun e => ih e (hp e)
  | acquire next => exact hp.elim
  | release next => exact hp.elim
  | touch f next ih => exact fun s => ih s (hp s)

theorem Lockless.inside {p : Prog ε σ β} (h : p.Lockless) : p.releasing.Inside := by
  induction p with
  | ret b => exact ⟨b, rfl⟩
  | look next ih => exact fun e => ih e (h e)
  | acquire next => exact h.elim
  | release next => exact h.elim
  | touch f next ih => exact fun s => ih s (h s)

theorem Lockless.guarded {p : Prog ε σ β} (h : p.Lockless) : p.locked.Guarded := h.inside

/-- Clocks may be read before the lock is taken. -/
theorem Looks.guarded {p : Prog ε σ α} {k : α → Prog ε σ β} (hp : p.Looks) (hk : ∀ a, (k a).Guarded) :
    (p >>= k).Guarded := by
  show (p.bind k).Guarded
  induction p with
  | ret a => exact hk a
  | look next ih => exact fun e => ih e (hp e)
  | acquire next => exact hp.elim
  | release next => exact hp.elim
  | touch f next => exact hp.elim

private theorem Inside.bind {p : Prog ε σ α} {k : α → Prog ε σ β} (hp : p.Inside) (hk : ∀ a, (k a).Returns) :
    (p.bind k).Inside := by
  induction p with
  | ret a => exact hp.elim
  | look next ih => exact fun e => ih e (hp e)
  | acquire next => exact hp.elim
  | release next =>
    obtain ⟨a, rfl⟩ := hp
    exact hk a
  | touch f next ih => exact fun s => ih s (hp s)

/-- A result may be made from that of a guarded program. -/
theorem Guarded.bind {p : Prog ε σ α} {k : α → Prog ε σ β} (hp : p.Guarded) (hk : ∀ a, (k a).Returns) :
    (p >>= k).Guarded := by
  show (p.bind k).Guarded
  induction p with
  | ret a => exact hp.elim
  | look next ih => exact fun e => ih e (hp e)
  | acquire next => exact Inside.bind hp hk
  | release next => exact hp.elim
  | touch f next => exact hp.elim

end Prog

/-! ### Threads -/

/-- A call of a method: when it began and with what, what is left of its program, what it has read, and when it returned
and with what. -/
structure Thread (ε σ α β : Type) where
  began : Nat
  input : α
  prog : Prog ε σ β
  readings : List ε
  ended : Option (Nat × β)

/-- An object with its lock, and the threads that call its methods. -/
structure Shared (ε σ α β : Type) where
  object : σ
  holder : Option Nat
  threads : List (Thread ε σ α β)
  now : Nat

/-- A method is called, or a thread executes a statement; `e` is what it sees if it reads its surroundings. -/
inductive Turn (ε α : Type)
  | call (a : α)
  | step (i : Nat) (e : ε)

namespace Shared

variable {ε σ α β : Type}

def init (object : σ) : Shared ε σ α β := ⟨object, none, [], 0⟩

/-- A thread executes its next statement. -/
def step (s : Shared ε σ α β) (i : Nat) (e : ε) : Shared ε σ α β :=
  match s.threads[i]? with
  | none => s
  | some t =>
    match t.prog with
    | .ret b =>
      if t.ended.isNone then { s with threads := s.threads.set i { t with ended := some (s.now, b) } } else s
    | .look next => { s with threads := s.threads.set i { t with prog := next e, readings := t.readings ++ [e] } }
    | .acquire next =>
      if s.holder.isNone then { s with holder := some i, threads := s.threads.set i { t with prog := next } } else s
    | .release next =>
      if s.holder = some i then { s with holder := none, threads := s.threads.set i { t with prog := next } } else s
    | .touch f next => { s with object := f s.object, threads := s.threads.set i { t with prog := next s.object } }

variable (body : α → Prog ε σ β)

def apply (s : Shared ε σ α β) : Turn ε α → Shared ε σ α β
  | .call a => { s with threads := s.threads ++ [⟨s.now, a, body a, [], none⟩], now := s.now + 1 }
  | .step i e => { s.step i e with now := s.now + 1 }

/-- The state after the turns, which begin without threads. -/
def reached (object : σ) (turns : List (Turn ε α)) : Shared ε σ α β := after (apply body) (init object) turns

/-- The calls with their readings, and what they returned. -/
def history (s : Shared ε σ α β) : History Nat (α × List ε) β where
  call i := s.threads[i]?.map fun t => (t.began, t.input, t.readings)
  ret i := s.threads[i]?.bind Thread.ended

/-- A call that runs alone. -/
def Alone (x : σ) (a : α × List ε) (b : β) (x' : σ) : Prop := (body a.1).alone x a.2 = some (b, x', [])

variable {body}

/-! ### Every run is serial -/

section Serial

variable (body)

/-- Of thread `i` when the log lists the sections that are over: it has not entered its section, or is in it, or has
left it. -/
def Stands (x₀ object : σ) (holder : Option Nat) (log : List (Effect Nat (α × List ε) β)) (i : Nat)
    (t : Thread ε σ α β) : Prop :=
  (holder ≠ some i ∧ (∀ e ∈ log, e.who ≠ i) ∧ t.ended = none ∧ t.prog.Guarded ∧
    ∀ x es, t.prog.alone x es = (body t.input).alone x (t.readings ++ es)) ∨
  (holder = some i ∧ (∀ e ∈ log, e.who ≠ i) ∧ t.ended = none ∧ t.prog.Inside ∧
    ∃ x, Chain (Alone body) x₀ log x ∧ ∀ es, t.prog.alone object es = (body t.input).alone x (t.readings ++ es)) ∨
  (holder ≠ some i ∧ ∃ e ∈ log, e.who = i ∧ e.input = (t.input, t.readings) ∧ t.began ≤ e.time ∧
    t.prog = .ret e.output ∧ ∀ r, t.ended = some r → e.output = r.2 ∧ e.time ≤ r.1)

/-- The sections that are over lead, one after the other, to the object as the thread that has the lock has found it. -/
structure Serial (x₀ : σ) (s : Shared ε σ α β) (log : List (Effect Nat (α × List ε) β)) : Prop where
  stands : ∀ (i : Nat) (t : Thread ε σ α β), s.threads[i]? = some t → Stands body x₀ s.object s.holder log i t
  free : s.holder = none → Chain (Alone body) x₀ log s.object
  held : ∀ i, s.holder = some i → i < s.threads.length
  once : (log.map Effect.who).Nodup
  sorted : log.Pairwise fun e e' => e.time < e'.time
  past : ∀ e ∈ log, e.who < s.threads.length ∧ e.time < s.now
  began : ∀ (i : Nat) (t : Thread ε σ α β), s.threads[i]? = some t → t.began ≤ s.now

variable {body} (hguarded : ∀ a, (body a).Guarded)
variable {x₀ : σ} {s : Shared ε σ α β} {log : List (Effect Nat (α × List ε) β)} {i : Nat} {t t' : Thread ε σ α β}

theorem serial_init : Serial body x₀ (init x₀) [] where
  stands i t h := by cases h
  free _ := rfl
  held i h := by cases h
  once := List.nodup_nil
  sorted := List.Pairwise.nil
  past e h := by cases h
  began i t h := by cases h

/-- What the others do leaves a thread where it stands. -/
private theorem Stands.other {object object' : σ} {holder holder' : Option Nat}
    {log log' : List (Effect Nat (α × List ε) β)} (h : Stands body x₀ object holder log i t)
    (hholder : holder' = some i ↔ holder = some i) (hheld : holder = some i → object' = object ∧ log' = log)
    (hlog : ∀ e, e.who = i → (e ∈ log' ↔ e ∈ log)) : Stands body x₀ object' holder' log' i t := by
  rcases h with ⟨hfree, hnone, hrest⟩ | ⟨hi, hrest⟩ | ⟨hfree, e, he, hwho, hrest⟩
  · have hnone' : ∀ e ∈ log', e.who ≠ i := fun e he hwho => hnone e ((hlog e hwho).1 he) hwho
    exact Or.inl ⟨fun h => hfree (hholder.1 h), hnone', hrest⟩
  · obtain ⟨rfl, rfl⟩ := hheld hi
    exact Or.inr (Or.inl ⟨hholder.2 hi, hrest⟩)
  · exact Or.inr (Or.inr ⟨fun h => hfree (hholder.1 h), e, (hlog e hwho).2 he, hwho, hrest⟩)

/-- A thread executes a statement that does not end a section. -/
private theorem Serial.turn (h : Serial body x₀ s log) (ht : s.threads[i]? = some t) {object : σ}
    {holder : Option Nat} (hbegan : t'.began = t.began)
    (hother : ∀ j, j ≠ i → (holder = some j ↔ s.holder = some j) ∧ (s.holder = some j → object = s.object))
    (hstands : Stands body x₀ object holder log i t') (hfree : holder = none → Chain (Alone body) x₀ log object) :
    Serial body x₀ ⟨object, holder, s.threads.set i t', s.now + 1⟩ log := by
  have hlength : (s.threads.set i t').length = s.threads.length := List.length_set ..
  refine ⟨?_, hfree, ?_, h.once, h.sorted, ?_, ?_⟩
  · intro j u hu
    rcases getElem?_set_some hu with ⟨rfl, rfl⟩ | ⟨hj, hu⟩
    · exact hstands
    · exact (h.stands j u hu).other (hother j hj).1 (fun hheld => ⟨(hother j hj).2 hheld, rfl⟩) fun _ _ => Iff.rfl
  · intro j hj
    simp only [hlength]
    by_cases hji : j = i
    · subst hji
      exact (List.getElem?_eq_some_iff.1 ht).1
    · exact h.held j ((hother j hji).1.1 hj)
  · intro e he
    obtain ⟨hwho, htime⟩ := h.past e he
    exact ⟨by simpa only [hlength] using hwho, Nat.lt_succ_of_lt htime⟩
  · intro j u hu
    rcases getElem?_set_some hu with ⟨rfl, rfl⟩ | ⟨-, hu⟩
    · exact hbegan ▸ Nat.le_succ_of_le (h.began j t ht)
    · exact Nat.le_succ_of_le (h.began j u hu)

/-- The log goes on with the section of a thread that was in none before. -/
private theorem Serial.log_concat (h : Serial body x₀ s log) {e : Effect Nat (α × List ε) β}
    (hnone : ∀ e' ∈ log, e'.who ≠ e.who) (htime : e.time = s.now) :
    ((log ++ [e]).map Effect.who).Nodup ∧ (log ++ [e]).Pairwise fun e e' => e.time < e'.time := by
  constructor
  · rw [List.map_append, List.map_singleton, ← List.concat_eq_append]
    refine h.once.concat ?_
    intro hmem
    obtain ⟨e', he', hwho⟩ := List.mem_map.1 hmem
    exact hnone e' he' hwho
  · rw [List.pairwise_append]
    refine ⟨h.sorted, List.pairwise_singleton _ _, ?_⟩
    intro e' he' e'' he''
    rw [List.mem_singleton] at he''
    rw [he'', htime]
    exact (h.past e' he').2

/-- A thread gives the lock back: its section is the last of the log. -/
private theorem Serial.leave (h : Serial body x₀ s log) (ht : s.threads[i]? = some t) {next : Prog ε σ β}
    (hprog : t.prog = .release next) (hholder : s.holder = some i) :
    ∃ log', Serial body x₀ ⟨s.object, none, s.threads.set i { t with prog := next }, s.now + 1⟩ log' := by
  have hlength : (s.threads.set i { t with prog := next }).length = s.threads.length := List.length_set ..
  rcases h.stands i t ht with ⟨hfree, -⟩ | ⟨-, hnone, hended, hinside, x, hchain, halone⟩ | ⟨hfree, -⟩
  · exact absurd hholder hfree
  · rw [hprog] at hinside halone
    obtain ⟨b, rfl⟩ := hinside
    let e : Effect Nat (α × List ε) β := ⟨i, (t.input, t.readings), b, s.now⟩
    have hspec : Alone body x e.input e.output s.object := by
      have h := halone []
      rw [List.append_nil] at h
      exact h.symm
    obtain ⟨honce, hsorted⟩ := h.log_concat (e := e) hnone rfl
    refine ⟨log ++ [e], ?_, fun _ => hchain.concat hspec, nofun, honce, hsorted, ?_, ?_⟩
    · intro j u hu
      rcases getElem?_set_some hu with ⟨rfl, rfl⟩ | ⟨hj, hu⟩
      · refine Or.inr (Or.inr ⟨nofun, e, by simp, rfl, rfl, h.began j t ht, rfl, ?_⟩)
        intro r hr
        rw [show t.ended = some r from hr] at hended
        cases hended
      · have hnot : ¬ s.holder = some j := fun hh => hj (Option.some.inj (hh.symm.trans hholder))
        refine (h.stands j u hu).other ⟨nofun, fun hh => absurd hh hnot⟩ (fun hh => absurd hh hnot) ?_
        intro e' hwho
        have hne : e' ≠ e := fun he => hj (hwho ▸ congrArg Effect.who he)
        simp [hne]
    · intro e' he'
      simp only [hlength]
      rcases List.mem_append.1 he' with he' | he'
      · exact ⟨(h.past e' he').1, Nat.lt_succ_of_lt (h.past e' he').2⟩
      · rw [List.mem_singleton] at he'
        subst he'
        exact ⟨h.held i hholder, Nat.lt_succ_self _⟩
    · intro j u hu
      rcases getElem?_set_some hu with ⟨rfl, rfl⟩ | ⟨-, hu⟩
      · exact Nat.le_succ_of_le (h.began j t ht)
      · exact Nat.le_succ_of_le (h.began j u hu)
  · exact absurd hholder hfree

include hguarded in
private theorem Serial.call (h : Serial body x₀ s log) (a : α) : Serial body x₀ (s.apply body (.call a)) log := by
  refine ⟨?_, h.free, ?_, h.once, h.sorted, ?_, ?_⟩
  · intro j u hu
    rcases getElem?_concat_some hu with hold | ⟨rfl, rfl⟩
    · exact h.stands j u hold
    · left
      refine ⟨fun hheld => absurd (h.held _ hheld) (lt_irrefl _), ?_, rfl, ?_, fun x es => rfl⟩
      · intro e he hwho
        exact absurd (h.past e he).1 (by rw [hwho]; exact lt_irrefl _)
      · exact hguarded a
  · intro j hj
    have hlt := h.held j hj
    simp only [apply, List.length_append]
    omega
  · intro e he
    obtain ⟨hwho, htime⟩ := h.past e he
    simp only [apply, List.length_append]
    omega
  · intro j u hu
    rcases getElem?_concat_some hu with hold | ⟨-, rfl⟩
    · exact Nat.le_succ_of_le (h.began j u hold)
    · exact Nat.le_succ _

private theorem Serial.wait (h : Serial body x₀ s log) : Serial body x₀ { s with now := s.now + 1 } log :=
  ⟨h.stands, h.free, h.held, h.once, h.sorted, fun e he => ⟨(h.past e he).1, Nat.lt_succ_of_lt (h.past e he).2⟩,
    fun i t ht => Nat.le_succ_of_le (h.began i t ht)⟩

private theorem Serial.ret (h : Serial body x₀ s log) (ht : s.threads[i]? = some t) {b : β} (hprog : t.prog = .ret b) :
    Serial body x₀ { s with threads := s.threads.set i { t with ended := some (s.now, b) }, now := s.now + 1 } log := by
  refine h.turn ht rfl (fun j _ => ⟨Iff.rfl, fun _ => rfl⟩) ?_ h.free
  rcases h.stands i t ht with ⟨-, -, -, hbad, -⟩ | ⟨-, -, -, hbad, -⟩ | ⟨hfree, e, he, hwho, hinput, hbegan, hret, -⟩
  · rw [hprog] at hbad
    exact hbad.elim
  · rw [hprog] at hbad
    exact hbad.elim
  · refine Or.inr (Or.inr ⟨hfree, e, he, hwho, hinput, hbegan, hret, ?_⟩)
    intro r hr
    obtain rfl := Option.some.inj hr
    have hb : b = e.output := Prog.ret.inj (hprog.symm.trans hret)
    exact ⟨hb.symm, le_of_lt (h.past e he).2⟩

private theorem Serial.look (h : Serial body x₀ s log) (ht : s.threads[i]? = some t) {next : ε → Prog ε σ β}
    (hprog : t.prog = .look next) (e : ε) :
    Serial body x₀ { s with
      threads := s.threads.set i { t with prog := next e, readings := t.readings ++ [e] }, now := s.now + 1 } log := by
  refine h.turn ht rfl (fun j _ => ⟨Iff.rfl, fun _ => rfl⟩) ?_ h.free
  have hreads : ∀ es, t.readings ++ [e] ++ es = t.readings ++ e :: es := by simp
  rcases h.stands i t ht with ⟨hfree, hnone, hended, hguarded, halone⟩ |
    ⟨hheld, hnone, hended, hinside, x, hx, halone⟩ | ⟨-, e, -, -, -, -, hret, -⟩
  · rw [hprog] at hguarded halone
    refine Or.inl ⟨hfree, hnone, hended, hguarded e, ?_⟩
    intro x es
    rw [hreads]
    exact halone x (e :: es)
  · rw [hprog] at hinside halone
    refine Or.inr (Or.inl ⟨hheld, hnone, hended, hinside e, x, hx, ?_⟩)
    intro es
    rw [hreads]
    exact halone (e :: es)
  · rw [hprog] at hret
    cases hret

private theorem Serial.acquire (h : Serial body x₀ s log) (ht : s.threads[i]? = some t) {next : Prog ε σ β}
    (hprog : t.prog = .acquire next) (hnobody : s.holder = none) :
    Serial body x₀
      { s with holder := some i, threads := s.threads.set i { t with prog := next }, now := s.now + 1 } log := by
  refine h.turn ht rfl ?_ ?_ nofun
  · intro j hj
    rw [hnobody]
    exact ⟨⟨fun hh => absurd (Option.some.inj hh).symm hj, nofun⟩, nofun⟩
  · rcases h.stands i t ht with ⟨-, hnone, hended, hguarded, halone⟩ | ⟨hheld, -⟩ | ⟨-, e, -, -, -, -, hret, -⟩
    · rw [hprog] at hguarded halone
      exact Or.inr (Or.inl ⟨rfl, hnone, hended, hguarded, s.object, h.free hnobody, fun es => halone s.object es⟩)
    · rw [hnobody] at hheld
      cases hheld
    · rw [hprog] at hret
      cases hret

private theorem Serial.touch (h : Serial body x₀ s log) (ht : s.threads[i]? = some t) {f : σ → σ}
    {next : σ → Prog ε σ β} (hprog : t.prog = .touch f next) :
    Serial body x₀ { s with
      object := f s.object, threads := s.threads.set i { t with prog := next s.object }, now := s.now + 1 } log := by
  rcases h.stands i t ht with ⟨-, -, -, hbad, -⟩ | ⟨hheld, hnone, hended, hinside, x, hx, halone⟩ |
    ⟨-, e, -, -, -, -, hret, -⟩
  · rw [hprog] at hbad
    exact hbad.elim
  · rw [hprog] at hinside halone
    refine h.turn ht rfl ?_ ?_ ?_
    · -- no other thread has the lock
      intro j hj
      exact ⟨Iff.rfl, fun hh => absurd (Option.some.inj (hh.symm.trans hheld)) hj⟩
    · exact Or.inr (Or.inl ⟨hheld, hnone, hended, hinside s.object, x, hx, halone⟩)
    · intro hfree
      rw [hheld] at hfree
      cases hfree
  · rw [hprog] at hret
    cases hret

/-- A statement of a thread. -/
private theorem Serial.step (h : Serial body x₀ s log) (i : Nat) (e : ε) :
    ∃ log', Serial body x₀ (s.apply body (.step i e)) log' := by
  simp only [apply, Shared.step]
  split
  · exact ⟨log, h.wait⟩
  · rename_i t ht
    split
    · rename_i b hprog
      split
      · exact ⟨log, h.ret ht hprog⟩
      · exact ⟨log, h.wait⟩
    · rename_i next hprog
      exact ⟨log, h.look ht hprog e⟩
    · rename_i next hprog
      split
      · rename_i hnobody
        exact ⟨log, h.acquire ht hprog (Option.isNone_iff_eq_none.1 hnobody)⟩
      · exact ⟨log, h.wait⟩
    · rename_i next hprog
      split
      · rename_i hholder
        exact h.leave ht hprog hholder
      · exact ⟨log, h.wait⟩
    · rename_i f next hprog
      exact ⟨log, h.touch ht hprog⟩

include hguarded in
theorem serial_reached (x₀ : σ) (turns : List (Turn ε α)) : ∃ log, Serial body x₀ (reached body x₀ turns) log := by
  refine after_keeps (P := fun s => ∃ log, Serial body x₀ s log) ⟨[], serial_init⟩ ?_ turns
  rintro s turn ⟨log, h⟩
  cases turn with
  | call a => exact ⟨log, h.call hguarded a⟩
  | step i e => exact h.step i e

/-- The log tells when each call took effect. -/
theorem Serial.logged (h : Serial body x₀ s log) : ∃ x, s.history.Logged (Alone body) x₀ x log := by
  have hchain : ∃ x, Chain (Alone body) x₀ log x := by
    cases hholder : s.holder with
    | none => exact ⟨s.object, h.free hholder⟩
    | some i =>
      have ht := List.getElem?_eq_getElem (h.held i hholder)
      rcases h.stands i _ ht with ⟨hfree, -⟩ | ⟨-, -, -, -, x, hx, -⟩ | ⟨hfree, -⟩
      · exact absurd hholder hfree
      · exact ⟨x, hx⟩
      · exact absurd hholder hfree
  obtain ⟨x, hx⟩ := hchain
  refine ⟨x, hx, h.once, h.sorted, ?_, ?_⟩
  · intro e he
    have ht := List.getElem?_eq_getElem (h.past e he).1
    rcases h.stands e.who _ ht with ⟨-, hnone, -⟩ | ⟨-, hnone, -⟩ | ⟨-, e', he', hwho, hinput, hbegan, -⟩
    · exact absurd rfl (hnone e he)
    · exact absurd rfl (hnone e he)
    · obtain rfl : e' = e := List.inj_on_of_nodup_map h.once he' he hwho
      refine ⟨_, ?_, hbegan⟩
      simp only [history]
      rw [ht, hinput]
      rfl
  · intro i r hr
    obtain ⟨t, ht, hended⟩ := Option.bind_eq_some_iff.1 hr
    rcases h.stands i t ht with ⟨-, -, hnone, -⟩ | ⟨-, -, hnone, -⟩ | ⟨-, e, he, hwho, -, -, -, hresult⟩
    · rw [hended] at hnone
      cases hnone
    · rw [hended] at hnone
      cases hnone
    · obtain ⟨hout, hle⟩ := hresult r hended
      exact ⟨e, he, hwho, hout, hle⟩

include hguarded in
/-- Calls of guarded methods are linearizable. -/
theorem linearizable (x₀ : σ) (turns : List (Turn ε α)) :
    (reached body x₀ turns).history.Linearizable (Alone body) x₀ := by
  obtain ⟨log, h⟩ := serial_reached hguarded x₀ turns
  obtain ⟨x, hlogged⟩ := h.logged
  exact hlogged.linearizable

/-! ### No call is stuck -/

variable (body) in
/-- With turns of its own thread `i` gets to its end, and leaves the lock free. -/
private def Finishes (e : ε) (s : Shared ε σ α β) (i : Nat) : Prop :=
  ∃ n t, (after (apply body) s (List.replicate n (.step i e))).holder = none ∧
    (after (apply body) s (List.replicate n (.step i e))).threads = s.threads.set i t ∧ t.ended.isSome = true

private theorem Finishes.next {e : ε} {s' : Shared ε σ α β} (hstep : s.apply body (.step i e) = s')
    (hthreads : s'.threads = s.threads.set i t) (h : Finishes body e s' i) : Finishes body e s i := by
  obtain ⟨n, t', hholder, hset, hsome⟩ := h
  subst hstep
  refine ⟨n + 1, t', hholder, ?_, hsome⟩
  rw [hthreads, List.set_set] at hset
  exact hset

/-- A thread that has the lock, or finds it free, needs no other. -/
private theorem finishes (e : ε) {p : Prog ε σ β} (ht : s.threads[i]? = some t) (hp : t.prog = p)
    (hended : t.ended = none) (hphase : s.holder = none ∧ (p.Returns ∨ p.Guarded) ∨ s.holder = some i ∧ p.Inside) :
    Finishes body e s i := by
  induction p generalizing s t with
  | ret b =>
    rcases hphase with ⟨hnone, -⟩ | ⟨-, hbad⟩
    · refine ⟨1, { t with ended := some (s.now, b) }, ?_, ?_, rfl⟩ <;>
        simp [after, apply, Shared.step, ht, hp, hended, hnone]
    · exact hbad.elim
  | look k ih =>
    have hstep : s.apply body (.step i e) = { s with
        threads := s.threads.set i { t with prog := k e, readings := t.readings ++ [e] }, now := s.now + 1 } := by
      simp [apply, Shared.step, ht, hp]
    refine Finishes.next hstep rfl (ih e (t := { t with prog := k e, readings := t.readings ++ [e] })
      (getElem?_set_of_some ht) rfl hended ?_)
    rcases hphase with ⟨hnone, ⟨b, hb⟩ | hguarded⟩ | ⟨hheld, hinside⟩
    · cases hb
    · exact Or.inl ⟨hnone, Or.inr (hguarded e)⟩
    · exact Or.inr ⟨hheld, hinside e⟩
  | acquire k ih =>
    rcases hphase with ⟨hnone, ⟨b, hb⟩ | hinside⟩ | ⟨-, hbad⟩
    · cases hb
    · have hstep : s.apply body (.step i e) = { s with
          holder := some i, threads := s.threads.set i { t with prog := k }, now := s.now + 1 } := by
        simp [apply, Shared.step, ht, hp, hnone]
      exact Finishes.next hstep rfl
        (ih (t := { t with prog := k }) (getElem?_set_of_some ht) rfl hended (Or.inr ⟨rfl, hinside⟩))
    · exact hbad.elim
  | release k ih =>
    rcases hphase with ⟨-, ⟨b, hb⟩ | hbad⟩ | ⟨hheld, hreturns⟩
    · cases hb
    · exact hbad.elim
    · have hstep : s.apply body (.step i e) = { s with
          holder := none, threads := s.threads.set i { t with prog := k }, now := s.now + 1 } := by
        simp [apply, Shared.step, ht, hp, hheld]
      exact Finishes.next hstep rfl
        (ih (t := { t with prog := k }) (getElem?_set_of_some ht) rfl hended (Or.inl ⟨rfl, Or.inl hreturns⟩))
  | touch f k ih =>
    rcases hphase with ⟨-, ⟨b, hb⟩ | hbad⟩ | ⟨hheld, hinside⟩
    · cases hb
    · exact hbad.elim
    · have hstep : s.apply body (.step i e) = { s with
          object := f s.object, threads := s.threads.set i { t with prog := k s.object }, now := s.now + 1 } := by
        simp [apply, Shared.step, ht, hp]
      exact Finishes.next hstep rfl (ih s.object (t := { t with prog := k s.object }) (getElem?_set_of_some ht) rfl
        hended (Or.inr ⟨hheld, hinside s.object⟩))

/-- Where the lock is free or its own, a thread that has not ended finishes. -/
private theorem Serial.finishes (h : Serial body x₀ s log) (e : ε) (ht : s.threads[i]? = some t)
    (hended : t.ended = none) (hholder : s.holder = none ∨ s.holder = some i) : Finishes body e s i := by
  refine Shared.finishes e ht rfl hended ?_
  rcases h.stands i t ht with ⟨hfree, -, -, hguarded, -⟩ | ⟨hheld, -, -, hinside, -⟩ | ⟨hfree, e', -, -, -, -, hret, -⟩
  · exact Or.inl ⟨hholder.resolve_right hfree, Or.inr hguarded⟩
  · exact Or.inr ⟨hheld, hinside⟩
  · exact Or.inl ⟨hholder.resolve_right hfree, Or.inl ⟨_, hret⟩⟩

/-- The lock is free, and the first `k` threads have ended. -/
private def Over (s : Shared ε σ α β) (k : Nat) : Prop :=
  s.holder = none ∧ ∀ (j : Nat) (t : Thread ε σ α β), j < k → s.threads[j]? = some t → t.ended.isSome = true

private theorem Finishes.over {e : ε} {k : Nat} (h : Finishes body e s i)
    (hothers : ∀ (j : Nat) (t : Thread ε σ α β), j ≠ i → j < k → s.threads[j]? = some t → t.ended.isSome = true) :
    ∃ n, Over (after (apply body) s (List.replicate n (.step i e))) k := by
  obtain ⟨n, t', hfree, hset, hsome⟩ := h
  refine ⟨n, hfree, ?_⟩
  intro j u hj hu
  rw [hset] at hu
  rcases getElem?_set_some hu with ⟨rfl, rfl⟩ | ⟨hji, hu⟩
  · exact hsome
  · exact hothers j u hji hj hu

/-- The turns of one thread after the other. -/
private theorem over_step (e : ε) {k : Nat} (hserial : Serial body x₀ s log) (h : Over s k) :
    ∃ n, Over (after (apply body) s (List.replicate n (.step k e))) (k + 1) := by
  by_cases hk : ∃ t, s.threads[k]? = some t ∧ t.ended = none
  · obtain ⟨t, ht, hended⟩ := hk
    refine (hserial.finishes e ht hended (Or.inl h.1)).over ?_
    intro j u hjk hj hu
    exact h.2 j u (by omega) hu
  · refine ⟨0, h.1, ?_⟩
    intro j u hj hu
    by_cases hjk : j = k
    · subst hjk
      rw [Option.isSome_iff_ne_none]
      exact fun hnone => hk ⟨u, hu, hnone⟩
    · exact h.2 j u (by omega) hu

private theorem length_after (s : Shared ε σ α β) (rest : List Nat) (e : ε) :
    (after (apply body) s (rest.map fun i => .step i e)).threads.length = s.threads.length := by
  induction rest generalizing s with
  | nil => rfl
  | cons i rest ih =>
    refine (ih (s.apply body (.step i e))).trans ?_
    simp only [apply, Shared.step]
    split
    · rfl
    · split
      · split
        · exact List.length_set ..
        · rfl
      · exact List.length_set ..
      · split
        · exact List.length_set ..
        · rfl
      · split
        · exact List.length_set ..
        · rfl
      · exact List.length_set ..

include hguarded in
/-- In every state reached, the threads can get on so that all calls return. -/
theorem can_finish (x₀ : σ) (turns : List (Turn ε α)) (e : ε) :
    ∃ rest : List Nat,
      ∀ t ∈ (reached body x₀ (turns ++ rest.map fun i => .step i e)).threads, t.ended.isSome = true := by
  have hreached : ∀ rest : List (Turn ε α), reached body x₀ (turns ++ rest) =
      after (apply body) (reached body x₀ turns) rest := fun rest => after_append ..
  -- whoever has the lock gives it back first
  have hfree : ∃ rest : List Nat, Over (reached body x₀ (turns ++ rest.map fun i => .step i e)) 0 := by
    obtain ⟨log, hserial⟩ := serial_reached hguarded x₀ turns
    cases hholder : (reached body x₀ turns).holder with
    | none => exact ⟨[], by simpa [Over] using hholder⟩
    | some i =>
      obtain ⟨t, ht⟩ : ∃ t, (reached body x₀ turns).threads[i]? = some t :=
        ⟨_, List.getElem?_eq_getElem (hserial.held i hholder)⟩
      have hended : t.ended = none := by
        rcases hserial.stands i _ ht with ⟨hno, -⟩ | ⟨-, -, hended, -⟩ | ⟨hno, -⟩
        · exact absurd hholder hno
        · exact hended
        · exact absurd hholder hno
      obtain ⟨n, t', hnone, -⟩ := hserial.finishes e ht hended (Or.inr hholder)
      refine ⟨List.replicate n i, ?_, nofun⟩
      rw [List.map_replicate, hreached]
      exact hnone
  have hall : ∀ k, ∃ rest : List Nat, Over (reached body x₀ (turns ++ rest.map fun i => .step i e)) k := by
    intro k
    induction k with
    | zero => exact hfree
    | succ k ih =>
      obtain ⟨rest, hover⟩ := ih
      obtain ⟨log, hserial⟩ := serial_reached hguarded x₀ (turns ++ rest.map fun i => .step i e)
      obtain ⟨n, hover'⟩ := over_step e hserial hover
      refine ⟨rest ++ List.replicate n k, ?_⟩
      rw [List.map_append, List.map_replicate, ← List.append_assoc, reached, after_append]
      exact hover'
  obtain ⟨rest, -, hover⟩ := hall (reached body x₀ turns).threads.length
  refine ⟨rest, ?_⟩
  intro t ht
  obtain ⟨j, hj, rfl⟩ := List.getElem_of_mem ht
  refine hover j _ ?_ (List.getElem?_eq_getElem hj)
  rw [hreached, length_after] at hj
  exact hj

end Serial

end Shared

end Base
