import BoundedStore.Store.Basic
import BoundedStore.Value.Items

/-!
# Operations on lists

A list comes to be by the first push to an absent key, and stays, possibly empty, until its key is
removed or evicted. Items are stored as they are given, without coercion. Only `listLength` and
`listRange` refuse a value of another kind; the other operations answer it as they answer an absent
key, and a push answers `false`.
-/

namespace BoundedStore

namespace Store

/-- Puts `value` at one end of the list at `key`. -/
def push (s : Store) (side : Side) (key : String) (value : Value) : Bool × Store :=
  match s.find? key with
  | some (.list items) => (true, s.write key (.list (Items.push side items value)))
  | some _ => (false, s.use key)
  | none => (true, s.write key (.list [value]))

/-- Takes the item at one end of the list at `key`. -/
def pop (s : Store) (side : Side) (key : String) : Option Value × Store :=
  match s.find? key with
  | some (.list items) =>
    match Items.pop? side items with
    | some (value, rest) => (some value, s.write key (.list rest))
    | none => (none, s.use key)
  | _ => (none, s.use key)

/-- The item at `index` of the list at `key`. An index outside the list answers the empty text,
which is not the same as there being no list. -/
def itemAt (s : Store) (key : String) (index : Int64) : Option Value × Store :=
  (match s.find? key with
    | some (.list items) =>
      some (((Items.position? items.length index).bind fun i => items[i]?).getD (.text ""))
    | _ => none,
    s.use key)

/-- The number of items of the list at `key`, zero when the key is absent. -/
def listLength (s : Store) (key : String) : Except StoreError Nat × Store :=
  ((s.itemsAt key).map fun items => (items.getD []).length, s.use key)

/-- Overwrites the item at `index` of the list at `key`; `false` when there is no such item. -/
def setItem (s : Store) (key : String) (index : Int64) (value : Value) : Bool × Store :=
  match s.find? key with
  | some (.list items) =>
    match Items.position? items.length index with
    | some i => (true, s.write key (.list (items.set i value)))
    | none => (false, s.use key)
  | _ => (false, s.use key)

/-- The items that the inclusive range from `start` to `stop` selects. -/
def listRange (s : Store) (key : String) (start stop : Int64) :
    Except StoreError (List Value) × Store :=
  ((s.itemsAt key).map fun items => Items.slice (items.getD []) start stop, s.use key)

/-- Keeps only the items that the range from `start` to `stop` selects; `false` when there is no
list. -/
def trimList (s : Store) (key : String) (start stop : Int64) : Bool × Store :=
  match s.find? key with
  | some (.list items) => (true, s.write key (.list (Items.trim items start stop)))
  | _ => (false, s.use key)

/-- Removes items that are the same as `target`, as `Items.remove` counts them, and answers how
many. -/
def removeItems (s : Store) (key : String) (count : Int64) (target : Value) : Nat × Store :=
  match s.find? key with
  | some (.list items) =>
    let kept := Items.remove items count target
    (items.length - kept.length, s.write key (.list kept))
  | _ => (0, s.use key)

end Store

end BoundedStore
