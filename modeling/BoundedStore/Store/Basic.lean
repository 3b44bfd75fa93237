import BoundedStore.Bounded
import BoundedStore.Store.Choices
import BoundedStore.Store.Statistics
import BoundedStore.Value.Coerce
import BoundedStore.Value.Members

/-!
# The store and its entries as a whole

A store is a bounded map of values, a supply for random choices, and two counters of lookups. This
module holds what works on any kind of value; lists and sets have modules of their own.

An operation answers a pair: its result, and the store after it. Whether it uses its key, and so
puts off the key's eviction, is part of what it does. An operation on one list or set uses its key
whenever that is live, also when the kind is wrong.
-/

namespace BoundedStore

/-- A store of typed values. -/
structure Store where
  map : Bounded Value
  /-- Where random choices come from. -/
  choices : Choices
  /-- Lookups that found their key. -/
  hits : Nat
  /-- Lookups of a key that was not live. -/
  misses : Nat

namespace Store

/-- An empty store of at most `capacity` entries, which must be at least one. -/
def new (capacity : Nat) (choices : Choices) : Except StoreError Store :=
  (Bounded.new capacity).map fun map => { map, choices, hits := 0, misses := 0 }

/-! ### Entries -/

/-- The value at `key`; not a use. -/
def find? (s : Store) (key : String) : Option Value :=
  s.map.peek key

/-- Marks `key` as the one used last, when it is live. -/
def use (s : Store) (key : String) : Store :=
  { s with map := s.map.use key }

/-- Writes `value` at `key` as it is, marks the key as the one used last, and evicts when a new key
finds the store full. -/
def write (s : Store) (key : String) (value : Value) : Store :=
  { s with map := s.map.insert key value }

/-- The items of the list at `key`, `none` when the key is absent. -/
def itemsAt (s : Store) (key : String) : Except StoreError (Option (List Value)) :=
  match s.find? key with
  | some (.list items) => .ok (some items)
  | some other => .error (other.mismatch key "list")
  | none => .ok none

/-- The members of the set at `key`, `none` when the key is absent. -/
def membersAt (s : Store) (key : String) : Except StoreError (Option Members) :=
  match s.find? key with
  | some (.set members) => .ok (some members)
  | some other => .error (other.mismatch key "set")
  | none => .ok none

/-! ### Operations on any kind of value -/

/-- Makes a new entry; a live key keeps its value and is not used. -/
def create (s : Store) (key : String) (value : Value) : Except StoreError Unit × Store :=
  if s.map.contains key then (.error (.duplicatedKey key), s)
  else (.ok (), s.write key value.coerce)

/-- Looks a key up, and counts whether it was found. -/
def get (s : Store) (key : String) : Except StoreError Value × Store :=
  match s.find? key with
  | some value => (.ok value, { s.use key with hits := s.hits + 1 })
  | none => (.error (.nonExistentKey key), { s with misses := s.misses + 1 })

def remove (s : Store) (key : String) : Except StoreError Unit × Store :=
  match s.map.remove key with
  | (some _, map) => (.ok (), { s with map })
  | (none, _) => (.error (.nonExistentKey key), s)

/-- Overwrites the value of a live key, of whatever kind; an absent key stays absent. -/
def replace (s : Store) (key : String) (value : Value) : Bool × Store :=
  match s.find? key with
  | some _ => (true, s.write key value.coerce)
  | none => (false, s)

/-! ### Looking at the store without using it -/

def contains (s : Store) (key : String) : Bool :=
  s.map.contains key

def length (s : Store) : Nat :=
  s.map.length

def isEmpty (s : Store) : Bool :=
  s.map.isEmpty

def capacity (s : Store) : Nat :=
  s.map.capacity

def statistics (s : Store) : Statistics :=
  { hits := s.hits, misses := s.misses, evictions := s.map.evictions, entries := s.length }

def report (s : Store) : Report :=
  { statistics := s.statistics, capacity := s.capacity }

end Store

end BoundedStore
