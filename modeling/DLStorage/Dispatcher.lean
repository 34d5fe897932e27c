import DLStorage.Store.Lww

/-!
# Executing a store message

`dispatch` is the server side of a replica: it turns a GET, SET or DELETE message into a call on the store and its
result into the response.
-/

namespace DLStorage

variable {V τ : Type}

/-- `payload[field]`, which raises when the key is absent. -/
def require {α : Type} (field : String) : Option α → Except PyError α
  | none => .error (.keyError field)
  | some a => .ok a

variable [LinearOrder τ] [Add τ]

def dispatch (c : Clock τ) (msg : Message V τ) (store : LocalLWWStore V τ) :
    Except PyError (Message V τ × LocalLWWStore V τ) :=
  match msg.type with
  | .get => do
    let key ← require "key" msg.payload.key
    match store.getVersioned c key with
    | (none, store) => .ok ({ type := .notFound, payload := { key := some key, ts := some 0 } }, store)
    | (some r, store) =>
      if r.isTombstone then
        .ok ({ type := .notFound, payload := { key := some key, ts := some r.ts, tombstone := some true } }, store)
      else
        .ok ({ type := .ok, payload := { key := some key, value := some r.value, ts := some r.ts } }, store)
  | .set => do
    let key ← require "key" msg.payload.key
    let value ← require "value" msg.payload.value
    let (_, store) := store.set c key value msg.payload.ttl msg.payload.ts
    .ok ({ type := .ok, payload := { key := some key } }, store)
  | .delete => do
    let key ← require "key" msg.payload.key
    let (deleted, store) := store.delete c key msg.payload.ts
    if deleted then .ok ({ type := .ok, payload := { key := some key } }, store)
    else .ok ({ type := .notFound, payload := { key := some key } }, store)
  | t => .ok ({ type := .error, payload := { error := some ("unknown message type: " ++ t.str) } }, store)

/-- One request on a connection: its response, or none when `dispatch` raises and the handler closes the
connection. -/
def transact (c : Clock τ) (msg : Message V τ) (store : LocalLWWStore V τ) :
    Option (Message V τ) × LocalLWWStore V τ :=
  match dispatch c msg store with
  | .ok (resp, store') => (some resp, store')
  | .error _ => (none, store)

end DLStorage
