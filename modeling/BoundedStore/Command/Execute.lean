import BoundedStore.Command.Basic
import BoundedStore.Reply
import BoundedStore.Store.Lists
import BoundedStore.Store.Sets

/-!
# Executing a client's command

How the operations of the store look to a client. A wrong kind is no error here but a reply of its
own: minus one where a number is expected, "not applicable" where a collection is. A lookup of an
absent key replies nil, and `store` on a live key overwrites it. Only the removal of an absent key
is refused.
-/

namespace BoundedStore

/-- The result of a command and the store after it. -/
abbrev Execution := Except StoreError Reply × Store

namespace Execution

/-- Replies with a number, minus one for a wrong kind. -/
def ofCount : Except StoreError Nat → Except StoreError Reply
  | .ok n => .ok (.integer n)
  | .error (.wrongType _) => .ok (.integer (-1))
  | .error e => .error e

/-- Replies with one for yes, zero for no, and minus one for a wrong kind. -/
def ofFlag (result : Except StoreError Bool) : Except StoreError Reply :=
  ofCount (result.map Bool.toNat)

/-- Replies with one when a set was stored, whatever its size, and minus one for a wrong kind. -/
def ofStored (result : Except StoreError Nat) : Except StoreError Reply :=
  ofCount (result.map fun _ => 1)

def ofValues : Except StoreError (List Value) → Except StoreError Reply
  | .ok values => .ok (.values values)
  | .error (.wrongType _) => .ok .notApplicable
  | .error e => .error e

/-- Replies with the value found, nil for an absent key. -/
def ofLookup : Except StoreError Value → Except StoreError Reply
  | .ok v => .ok (.value v)
  | .error (.nonExistentKey _) => .ok .nil
  | .error e => .error e

end Execution

namespace Store

/-- Stores a value whether or not the key is live: makes a new entry, or overwrites the one that is
there. Should the entry be gone before it can be overwritten, the whole is tried again, `attempts`
times in all. -/
def storeOrReplace (s : Store) (key : String) (value : Value) : (attempts : Nat) → Execution
  | 0 => (.error (.duplicatedKey key), s)
  | attempts + 1 =>
    match s.create key value with
    | (.ok (), stored) => (.ok .ok, stored)
    | (.error (.duplicatedKey _), same) =>
      match same.replace key value with
      | (true, replaced) => (.ok .ok, replaced)
      | (false, gone) => gone.storeOrReplace key value attempts
    | (.error e, same) => (.error e, same)

/-- How often a client's `store` is tried. -/
def storeAttempts : Nat := 3

def execute (s : Store) : Command → Execution
  | .store key value => s.storeOrReplace key value storeAttempts
  | .get key => (s.get key).map Execution.ofLookup id
  | .remove key => (s.remove key).map (fun result => result.map fun _ => .ok) id
  | .replace key value => (s.replace key value).map (fun _ => .ok .ok) id
  | .push side key value => (s.push side key value).map (fun b => .ok (.bool b)) id
  | .pop side key => (s.pop side key).map (fun v => .ok (.ofOption v)) id
  | .itemAt key index => (s.itemAt key index).map (fun v => .ok (.ofOption v)) id
  | .listLength key => (s.listLength key).map Execution.ofCount id
  | .setItem key index value => (s.setItem key index value).map (fun b => .ok (.bool b)) id
  | .listRange key start stop => (s.listRange key start stop).map Execution.ofValues id
  | .trimList key start stop => (s.trimList key start stop).map (fun b => .ok (.bool b)) id
  | .removeItems key n value =>
    (s.removeItems key n value).map (fun removed : Nat => .ok (.integer removed)) id
  | .addMember key member => (s.addMember key member).map Execution.ofFlag id
  | .removeMember key member => (s.removeMember key member).map Execution.ofFlag id
  | .isMember key member => (s.isMember key member).map Execution.ofFlag id
  | .cardinality key => (s.cardinality key).map Execution.ofCount id
  | .members key => (s.members key).map Execution.ofValues id
  | .combine algebra keys => (s.combine algebra keys).map Execution.ofValues id
  | .combineInto algebra keys => (s.combineInto algebra keys).map Execution.ofStored id
  | .moveMember source destination member =>
    (s.moveMember source destination member).map Execution.ofFlag id
  | .popMember key => (s.popMember key).map (fun v => .ok (.ofOption v)) id
  | .randomMember key => (s.randomMember key).map (fun v => .ok (.ofOption v)) id

def executeAll (s : Store) : List Command → List (Except StoreError Reply) × Store
  | [] => ([], s)
  | c :: rest =>
    let (reply, next) := s.execute c
    let (replies, last) := next.executeAll rest
    (reply :: replies, last)

end Store

end BoundedStore
