import BoundedStore.Error
import BoundedStore.Recency

/-!
# Bounded maps

A map from text keys to values that never holds more than `capacity` entries. A new key that finds
the map full takes the place of the key used longest ago.

`get` and `update` count as uses of a live key, `insert` always is one, and `peek`, `contains` and
`remove` are not.
-/

namespace BoundedStore

/-- A map of at most `capacity` entries. -/
structure Bounded (α : Type) where
  entries : Table α
  /-- The live keys by their last use. -/
  recency : Recency
  capacity : Nat
  /-- How many entries have been evicted so far. -/
  evictions : Nat
  deriving DecidableEq

namespace Bounded

variable {α : Type}

/-- An empty map. A map that could hold nothing is refused. -/
def new (capacity : Nat) : Except StoreError (Bounded α) :=
  if capacity = 0 then .error (.invalidConfiguration "capacity must be at least 1")
  else .ok ⟨[], .empty, capacity, 0⟩

/-- The value at `key`; not a use. -/
def peek (m : Bounded α) (key : String) : Option α :=
  m.entries.find? key

/-- Whether `key` is live; not a use. -/
def contains (m : Bounded α) (key : String) : Bool :=
  m.entries.contains key

def length (m : Bounded α) : Nat :=
  m.entries.length

def isEmpty (m : Bounded α) : Bool :=
  m.entries.isEmpty

/-! ### Uses -/

/-- Marks `key` as the one used last, when it is live. -/
def use (m : Bounded α) (key : String) : Bounded α :=
  if m.contains key then { m with recency := m.recency.touch key } else m

/-- The value at `key`, which this uses. -/
def get (m : Bounded α) (key : String) : Option α × Bounded α :=
  (m.peek key, m.use key)

/-- Changes the value at a live `key`, which this uses. The answer is the value as it was. -/
def update (m : Bounded α) (key : String) (change : α → α) : Option α × Bounded α :=
  match m.peek key with
  | some value =>
    let used := m.use key
    (some value, { used with entries := used.entries.put key (change value) })
  | none => (none, m)

/-! ### Writing and eviction -/

/-- Gives up the entry used longest ago. -/
def evict (m : Bounded α) : Bounded α :=
  match m.recency.evictOldest with
  | (none, _) => m
  | (some victim, recency) =>
    if m.contains victim then
      { m with entries := m.entries.erase victim, recency, evictions := m.evictions + 1 }
    else { m with recency }

/-- Makes room for `key`: a map that is full and does not hold `key` evicts one entry. -/
def makeRoom (m : Bounded α) (key : String) : Bounded α :=
  if !m.contains key && m.capacity ≤ m.length then m.evict else m

/-- Writes `value` at `key` and marks the key as the one used last. Overwriting never evicts. -/
def insert (m : Bounded α) (key : String) (value : α) : Bounded α :=
  let roomy := m.makeRoom key
  { roomy with recency := roomy.recency.touch key, entries := roomy.entries.put key value }

/-- Takes out `key` and answers the value it had. -/
def remove (m : Bounded α) (key : String) : Option α × Bounded α :=
  match m.peek key with
  | some value =>
    (some value, { m with entries := m.entries.erase key, recency := m.recency.remove key })
  | none => (none, m)

end Bounded

end BoundedStore
