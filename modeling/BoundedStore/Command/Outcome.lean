import BoundedStore.Command.Basic
import BoundedStore.Store.Lists
import BoundedStore.Store.Sets

/-!
# Performing an operation

`Operation` lists everything that can be asked of a store, the commands and three looks that no
command asks for, as data: a run of a store is a list of operations. `Operation.perform` is one step
of a run, and `Outcome` is the form that the results of all operations share.

A command performed as an operation is the plain operation of its name. In particular `store`
refuses a live key here; that a client's `store` overwrites is decided in `Command/Execute.lean`.
-/

namespace BoundedStore

/-- The result of an operation. -/
inductive Outcome where
  | done
  | flag (b : Bool)
  | count (n : Nat)
  /-- A value, or that there is none. -/
  | value (v : Option Value)
  | values (vs : List Value)
  | size (length : Nat) (isEmpty : Bool) (capacity : Nat)
  | statistics (s : Statistics)
  | refused (e : StoreError)
  deriving DecidableEq

namespace Outcome

/-- A result that may be a refusal. -/
def orRefused {α : Type} (accept : α → Outcome) : Except StoreError α → Outcome
  | .ok a => accept a
  | .error e => .refused e

end Outcome

/-- Anything that can be asked of a store. -/
inductive Operation where
  | command (c : Command)
  | contains (key : String)
  | size
  | statistics
  deriving DecidableEq

namespace Store

/-- Performs the plain operation that a command names. -/
def perform (s : Store) : Command → Outcome × Store
  | .store key value => (s.create key value).map (.orRefused fun _ => .done) id
  | .get key => (s.get key).map (.orRefused fun v => .value (some v)) id
  | .remove key => (s.remove key).map (.orRefused fun _ => .done) id
  | .replace key value => (s.replace key value).map .flag id
  | .push side key value => (s.push side key value).map .flag id
  | .pop side key => (s.pop side key).map .value id
  | .itemAt key index => (s.itemAt key index).map .value id
  | .listLength key => (s.listLength key).map (.orRefused .count) id
  | .setItem key index value => (s.setItem key index value).map .flag id
  | .listRange key start stop => (s.listRange key start stop).map (.orRefused .values) id
  | .trimList key start stop => (s.trimList key start stop).map .flag id
  | .removeItems key n value => (s.removeItems key n value).map .count id
  | .addMember key member => (s.addMember key member).map (.orRefused .flag) id
  | .removeMember key member => (s.removeMember key member).map (.orRefused .flag) id
  | .isMember key member => (s.isMember key member).map (.orRefused .flag) id
  | .cardinality key => (s.cardinality key).map (.orRefused .count) id
  | .members key => (s.members key).map (.orRefused .values) id
  | .combine algebra keys => (s.combine algebra keys).map (.orRefused .values) id
  | .combineInto algebra keys => (s.combineInto algebra keys).map (.orRefused .count) id
  | .moveMember source destination member =>
    (s.moveMember source destination member).map (.orRefused .flag) id
  | .popMember key => (s.popMember key).map .value id
  | .randomMember key => (s.randomMember key).map .value id

end Store

namespace Operation

/-- One step of a run. -/
def perform (s : Store) : Operation → Outcome × Store
  | command c => s.perform c
  | contains key => (.flag (s.contains key), s)
  | size => (.size s.length s.isEmpty s.capacity, s)
  | statistics => (.statistics s.statistics, s)

/-- The outcomes of a run, one for each operation, and the store at its end. -/
def run (s : Store) : List Operation → List Outcome × Store
  | [] => ([], s)
  | op :: rest =>
    let (outcome, next) := op.perform s
    let (outcomes, last) := run next rest
    (outcome :: outcomes, last)

end Operation

end BoundedStore
