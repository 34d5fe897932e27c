import Mathlib

/-!
# Nodes and messages

The data types of the wire protocol.  A Python value is an element of `PyObj V`, where `none` is Python's `None` and
`some v` any other object.  Times of `time.monotonic()` and lifetimes are elements of a linearly ordered type `τ` with
an addition about which nothing is assumed, so that rounding is covered; `time.time_ns()` counts nanoseconds since the
epoch.

Two `NodeInfo` are equal in the source when their addresses are (`NodeInfo.eq`).  An address is read by splitting it at
its last colon, and no port has a colon in its text; so `fromAddress` gives back the node (`fromAddress_address`),
equality of addresses is equality of host and port (`address_injective`), and the model writes `=`.
-/

namespace DLStorage

/-- A Python value; `none` is `None`. -/
abbrev PyObj (V : Type) := Option V

/-- The readings of `time.monotonic()` and `time.time_ns()` that one call on a node takes. -/
structure Clock (τ : Type) where
  monotonic : τ
  timeNs : Nat
  deriving DecidableEq

/-- Exceptions that the modelled calls raise. -/
inductive PyError
  | keyError (field : String)
  | pickling
  | os
  deriving DecidableEq

inductive MessageType
  | ping | pong | peerList | peerAnnounce | peerLeave
  | get | set | delete
  | ok | notFound | error
  deriving DecidableEq

/-- The text of a message type in an f-string. -/
def MessageType.str : MessageType → String
  | ping => "MessageType.PING"
  | pong => "MessageType.PONG"
  | peerList => "MessageType.PEER_LIST"
  | peerAnnounce => "MessageType.PEER_ANNOUNCE"
  | peerLeave => "MessageType.PEER_LEAVE"
  | get => "MessageType.GET"
  | set => "MessageType.SET"
  | delete => "MessageType.DELETE"
  | ok => "MessageType.OK"
  | notFound => "MessageType.NOT_FOUND"
  | error => "MessageType.ERROR"

def MessageType.isGossip (t : MessageType) : Bool := t ∈ [ping, pong, peerList, peerAnnounce, peerLeave]

structure NodeInfo where
  host : String
  port : Int
  deriving DecidableEq

def NodeInfo.address (n : NodeInfo) : String := n.host ++ ":" ++ n.port.repr

/-- `__eq__` of two nodes. -/
def NodeInfo.eq (n other : NodeInfo) : Bool := n.address = other.address

/-- `__hash__`, for the `hash` of strings that the interpreter has. -/
def NodeInfo.hash (hash : String → Int) (n : NodeInfo) : Int := hash n.address

/-- A payload, with the fields that the modelled code writes into it; `none` is an absent key.  An entry of `peers` is
`none` when `NodeInfo.from_dict` raises on it. -/
structure Payload (V τ : Type) where
  key : Option String := none
  value : Option (PyObj V) := none
  ts : Option Int := none
  ttl : Option τ := none
  tombstone : Option Bool := none
  peer : Option NodeInfo := none
  peers : Option (List (Option NodeInfo)) := none
  requester : Option NodeInfo := none
  node : Option NodeInfo := none
  error : Option String := none

structure Message (V τ : Type) where
  type : MessageType
  payload : Payload V τ := {}

/-! ### Reading an address -/

/-- What stands before the last separator, and after it; `none` without a separator. -/
def rsplit {α : Type} [DecidableEq α] (sep : α) : List α → Option (List α × List α)
  | [] => none
  | c :: cs =>
    match rsplit sep cs with
    | some (before, after) => some (c :: before, after)
    | none => if c = sep then some ([], cs) else none

/-- The decimal digits of the interpreter's version of Unicode, with their values. -/
structure UnicodeDigits where
  value : Char → Option Nat
  ascii : ∀ c, c.toNat < 128 → value c = if c.isDigit then some (c.toNat - 48) else none

namespace UnicodeDigits

/-- No digits but those of ASCII. -/
def asciiOnly : UnicodeDigits := ⟨fun c => if c.isDigit then some (c.toNat - 48) else none, fun _ _ => rfl⟩

/-- What `int` strips from both ends. -/
def isSpace (c : Char) : Bool :=
  9 ≤ c.toNat ∧ c.toNat ≤ 13 ∨ 0x2000 ≤ c.toNat ∧ c.toNat ≤ 0x200a ∨
    c.toNat ∈ [0x20, 0x85, 0xa0, 0x1680, 0x2028, 0x2029, 0x202f, 0x205f, 0x3000]

variable (digits : UnicodeDigits)

/-- Digits that follow a digit, with at most one underscore between two of them. -/
def moreDigits (acc : Nat) : List Char → Option Nat
  | [] => some acc
  | '_' :: c :: cs => (digits.value c).bind fun d => moreDigits (10 * acc + d) cs
  | c :: cs => (digits.value c).bind fun d => moreDigits (10 * acc + d) cs

def unsigned : List Char → Option Nat
  | [] => none
  | c :: cs => (digits.value c).bind fun d => digits.moreDigits d cs

def signed : List Char → Option Int
  | '-' :: cs => (digits.unsigned cs).map fun n => -(n : Int)
  | '+' :: cs => (digits.unsigned cs).map fun n => (n : Int)
  | cs => (digits.unsigned cs).map fun n => (n : Int)

/-- `int` of a string; `none` is a `ValueError`. -/
def int (s : String) : Option Int := digits.signed ((s.toList.dropWhile isSpace).rdropWhile isSpace)

end UnicodeDigits

/-- `from_address`; `none` is a `ValueError`. -/
def NodeInfo.fromAddress (digits : UnicodeDigits) (address : String) : Option NodeInfo :=
  (rsplit ':' address.toList).bind fun (host, port) =>
    (digits.int (String.ofList port)).map fun p => ⟨String.ofList host, p⟩

/-! ### Addresses identify nodes -/

private theorem rsplit_eq_none {α : Type} [DecidableEq α] {sep : α} {cs : List α} (h : sep ∉ cs) :
    rsplit sep cs = none := by
  induction cs with
  | nil => rfl
  | cons c cs ih =>
    rw [List.mem_cons, not_or] at h
    simp [rsplit, ih h.2, Ne.symm h.1]

theorem rsplit_append {α : Type} [DecidableEq α] {sep : α} (before : List α) {after : List α} (h : sep ∉ after) :
    rsplit sep (before ++ sep :: after) = some (before, after) := by
  induction before with
  | nil => simp [rsplit, rsplit_eq_none h]
  | cons c cs ih => simp [rsplit, ih]

private theorem isDigit_iff {c : Char} : c.isDigit ↔ 48 ≤ c.toNat ∧ c.toNat ≤ 57 := by
  simp [Char.isDigit, UInt32.le_iff_toNat_le]

private theorem isDigit_of_mem_repr {n : Nat} {c : Char} (hc : c ∈ n.repr.toList) : c.isDigit := by
  rw [Nat.toList_repr] at hc
  exact Nat.isDigit_of_mem_toDigits (by omega) (by omega) hc

private theorem toList_repr_negSucc (n : Nat) : (Int.negSucc n).repr.toList = '-' :: (n + 1).repr.toList := by
  show ("-" ++ (n + 1).repr).toList = _
  rw [String.toList_append]
  rfl

/-- The text of an integer consists of digits, perhaps after a minus sign. -/
private theorem mem_repr {p : Int} {c : Char} (hc : c ∈ p.repr.toList) : c.isDigit ∨ c = '-' := by
  cases p with
  | ofNat n => exact Or.inl (isDigit_of_mem_repr hc)
  | negSucc n =>
    rw [toList_repr_negSucc, List.mem_cons] at hc
    rcases hc with rfl | hc
    · exact Or.inr rfl
    · exact Or.inl (isDigit_of_mem_repr hc)

namespace UnicodeDigits

private theorem strip_repr (p : Int) : (p.repr.toList.dropWhile isSpace).rdropWhile isSpace = p.repr.toList := by
  have hspace : ∀ c ∈ p.repr.toList, ¬ isSpace c := by
    intro c hc
    rcases mem_repr hc with hd | rfl
    · have := isDigit_iff.1 hd
      simp [isSpace]
      omega
    · decide
  have hleft : p.repr.toList.dropWhile isSpace = p.repr.toList :=
    List.dropWhile_eq_self_iff.2 fun hl => hspace _ (List.getElem_mem hl)
  rw [hleft]
  exact List.rdropWhile_eq_self_iff.2 fun hne => hspace _ (List.getLast_mem hne)

variable (digits : UnicodeDigits)

private theorem value_digit {c : Char} (hc : c.isDigit) : digits.value c = some (c.toNat - 48) := by
  have hlt : c.toNat < 128 := by
    have := isDigit_iff.1 hc
    omega
  rw [digits.ascii c hlt, if_pos hc]

private theorem moreDigits_of_isDigit {cs : List Char} (h : ∀ c ∈ cs, c.isDigit) (acc : Nat) :
    digits.moreDigits acc cs = some (Nat.ofDigitChars 10 cs acc) := by
  induction cs generalizing acc with
  | nil => simp [moreDigits]
  | cons c cs ih =>
    have hc : c.isDigit := h c (List.mem_cons_self ..)
    have hrest := ih (fun d hd => h d (List.mem_cons_of_mem _ hd))
    rw [moreDigits, digits.value_digit hc, Option.bind_some, hrest, Nat.ofDigitChars_cons]
    · rfl
    · -- a digit is no underscore
      rintro d ds rfl
      exact absurd hc (by decide)

private theorem unsigned_repr (n : Nat) : digits.unsigned n.repr.toList = some n := by
  have h : ∀ c ∈ n.repr.toList, c.isDigit := fun c => isDigit_of_mem_repr
  rw [Nat.toList_repr] at h ⊢
  cases hds : Nat.toDigits 10 n with
  | nil => exact absurd hds Nat.toDigits_ne_nil
  | cons c cs =>
    rw [hds] at h
    have hvalue : Nat.ofDigitChars 10 cs (c.toNat - 48) = n := by
      have := Nat.ofDigitChars_ten_toDigits (n := n)
      rw [hds, Nat.ofDigitChars_cons] at this
      simpa using this
    rw [unsigned, digits.value_digit (h c (List.mem_cons_self ..)), Option.bind_some,
      digits.moreDigits_of_isDigit (fun d hd => h d (List.mem_cons_of_mem _ hd)), hvalue]

private theorem signed_repr (p : Int) : digits.signed p.repr.toList = some p := by
  cases p with
  | ofNat n =>
    show digits.signed n.repr.toList = some (n : Int)
    -- the text begins with a digit, so with no sign
    have hsign (c : Char) (hc : ¬ c.isDigit) (cs : List Char) : n.repr.toList ≠ c :: cs := by
      intro h
      exact hc (isDigit_of_mem_repr (n := n) (by rw [h]; exact List.mem_cons_self ..))
    rw [signed, digits.unsigned_repr]
    · rfl
    · exact hsign '-' (by decide)
    · exact hsign '+' (by decide)
  | negSucc n =>
    rw [toList_repr_negSucc, signed, digits.unsigned_repr]
    rfl

/-- `int` reads back the text of an integer. -/
theorem int_repr (p : Int) : digits.int p.repr = some p := by
  rw [int, strip_repr, signed_repr]

end UnicodeDigits

/-- `from_address` reads back the address of a node. -/
theorem fromAddress_address (digits : UnicodeDigits) (n : NodeInfo) :
    NodeInfo.fromAddress digits n.address = some n := by
  have hcolon : ':' ∉ n.port.repr.toList := by
    intro h
    rcases mem_repr h with hd | hd
    · exact absurd hd (by decide)
    · exact absurd hd (by decide)
  have hlist : n.address.toList = n.host.toList ++ ':' :: n.port.repr.toList := by
    simp [NodeInfo.address, String.toList_append]
  rw [NodeInfo.fromAddress, hlist, rsplit_append _ hcolon]
  simp [digits.int_repr]

example : NodeInfo.fromAddress .asciiOnly "::1:7_001 " = some ⟨"::1", 7001⟩ := by decide

/-- Nodes with the same address have the same host and port. -/
theorem address_injective : Function.Injective NodeInfo.address := by
  intro a b h
  have hread : some a = some b := by
    rw [← fromAddress_address .asciiOnly a, h, fromAddress_address]
  exact Option.some.inj hread

end DLStorage
