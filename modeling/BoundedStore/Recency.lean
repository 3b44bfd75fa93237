import BoundedStore.Table

/-!
# Recency of use

Which key was used longest ago. Every use stamps its key with the next tick of a clock that only
goes forward. The keys are found both ways: `stamps` gives the latest stamp of a key, and `order`
gives the key of a stamp, oldest stamp first. A use withdraws the key's old stamp from both, so the
key whose use is longest ago always stands at the head of `order`.

Nothing here asks whether the two tables agree. That they do, and that the clock is ahead of every
stamp, is kept by the operations and proved in `Proofs/Recency.lean`.
-/

namespace BoundedStore

/-- Keys by the time of their last use. -/
structure Recency where
  /-- The latest stamp of each key. -/
  stamps : Table Nat
  /-- The key of each stamp, in ascending order of the stamps. -/
  order : List (Nat × String)
  /-- The stamp of the next use. -/
  clock : Nat
  deriving DecidableEq

namespace Recency

def empty : Recency := ⟨[], [], 0⟩

/-- The key that an order has at a stamp. -/
def keyOf? (stamp : Nat) (order : List (Nat × String)) : Option String :=
  (order.find? fun row => row.1 = stamp).map Prod.snd

/-- The order without the row of one stamp. -/
def withdraw (stamp : Nat) (order : List (Nat × String)) : List (Nat × String) :=
  order.filter fun row => row.1 ≠ stamp

/-- The order with `key` at a stamp, in its place. A row that has the stamp already is
overwritten. -/
def enter (stamp : Nat) (key : String) : List (Nat × String) → List (Nat × String)
  | [] => [(stamp, key)]
  | row :: rest =>
    if stamp < row.1 then (stamp, key) :: row :: rest
    else if stamp = row.1 then (stamp, key) :: rest
    else row :: enter stamp key rest

/-- Marks `key` as the one used last. The row of its old stamp is taken out of the order and goes
back in under the new stamp. -/
def touch (r : Recency) (key : String) : Recency :=
  { stamps := r.stamps.put key r.clock
    order :=
      match r.stamps.find? key with
      | some old => enter r.clock ((keyOf? old r.order).getD key) (withdraw old r.order)
      | none => enter r.clock key r.order
    clock := r.clock + 1 }

/-- Forgets `key`; a key never used is ignored. -/
def remove (r : Recency) (key : String) : Recency :=
  match r.stamps.find? key with
  | some stamp => { r with stamps := r.stamps.erase key, order := withdraw stamp r.order }
  | none => r

/-- Takes out the key whose use is longest ago. -/
def evictOldest (r : Recency) : Option String × Recency :=
  match r.order with
  | [] => (none, r)
  | (_, key) :: rest => (some key, { r with stamps := r.stamps.erase key, order := rest })

def length (r : Recency) : Nat :=
  r.stamps.length

/-- The keys, the one used longest ago first. -/
def keys (r : Recency) : List String :=
  r.order.map Prod.snd

end Recency

end BoundedStore
