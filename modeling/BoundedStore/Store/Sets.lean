import BoundedStore.Store.Basic

/-!
# Operations on sets

A set comes to be by the first member added to an absent key, and stays, possibly empty, until its
key is removed or evicted. Members are stored as they are given, without coercion. A value of
another kind is refused, except by the two random operations, which answer it as they answer an
absent key.

Set algebra reads its sources first: it uses every live key in the order of the list, then refuses
the first one that is no set, and only then computes. What is stored at a destination is computed
before it is written.
-/

namespace BoundedStore

namespace Store

/-! ### One set -/

/-- Adds a member to the set at `key`; `true` when it is new. -/
def addMember (s : Store) (key : String) (member : Value) : Except StoreError Bool × Store :=
  match s.membersAt key with
  | .ok (some members) =>
    (.ok (!Members.has members member), s.write key (.set (Members.add members member)))
  | .ok none => (.ok true, s.write key (.set [member]))
  | .error e => (.error e, s.use key)

/-- Takes a member out of the set at `key`; `true` when it was there. -/
def removeMember (s : Store) (key : String) (member : Value) : Except StoreError Bool × Store :=
  match s.membersAt key with
  | .ok (some members) =>
    (.ok (Members.has members member), s.write key (.set (Members.remove members member)))
  | .ok none => (.ok false, s)
  | .error e => (.error e, s.use key)

def isMember (s : Store) (key : String) (member : Value) : Except StoreError Bool × Store :=
  ((s.membersAt key).map fun members => Members.has (members.getD []) member, s.use key)

/-- The number of members of the set at `key`, zero when the key is absent. -/
def cardinality (s : Store) (key : String) : Except StoreError Nat × Store :=
  ((s.membersAt key).map fun members => (members.getD []).length, s.use key)

def members (s : Store) (key : String) : Except StoreError (List Value) × Store :=
  ((s.membersAt key).map fun members => members.getD [], s.use key)

/-! ### Several sets -/

/-- Uses every live key of a list, in order. -/
def useAll (s : Store) (keys : List String) : Store :=
  keys.foldl use s

/-- The sets at several keys, `none` for an absent one; refused at the first key that is no set. -/
def setsAt (s : Store) (keys : List String) : Except StoreError (List (Option Members)) :=
  keys.mapM s.membersAt

def combine (s : Store) (algebra : Algebra) (keys : List String) :
    Except StoreError (List Value) × Store :=
  ((s.setsAt keys).map algebra.combine, s.useAll keys)

/-- Combines the sets at all keys but the first, stores the result at the first, and answers its
size. Nothing is stored when a source is refused, and an empty list of keys asks for nothing. -/
def combineInto (s : Store) (algebra : Algebra) : List String → Except StoreError Nat × Store
  | [] => (.ok 0, s)
  | destination :: sources =>
    match s.combine algebra sources with
    | (.ok members, used) => (.ok members.length, used.write destination (.set members))
    | (.error e, used) => (.error e, used)

/-- Moves a member from one set to another, which is made if it is absent. Both kinds are checked
before anything is used: the source first, then the destination. -/
def moveMember (s : Store) (source destination : String) (member : Value) :
    Except StoreError Bool × Store :=
  match s.membersAt source, s.membersAt destination with
  | .error e, _ => (.error e, s)
  | .ok none, _ => (.ok false, s)
  | .ok (some _), .error e => (.error e, s)
  | .ok (some members), .ok _ =>
    if Members.has members member then
      let taken := s.write source (.set (Members.remove members member))
      (.ok true, (taken.addMember destination member).2)
    else (.ok false, s.use source)

/-! ### Random members -/

/-- Takes a random member out of the set at `key`. -/
def popMember (s : Store) (key : String) : Option Value × Store :=
  match s.find? key with
  | some (.set (first :: rest)) =>
    let members := first :: rest
    let (i, choices) := s.choices.pick members.length
    (members[i]?, { s.write key (.set (Members.removeAt members i)) with choices })
  | _ => (none, s.use key)

/-- A random member of the set at `key`, which stays there. -/
def randomMember (s : Store) (key : String) : Option Value × Store :=
  match s.find? key with
  | some (.set (first :: rest)) =>
    let members := first :: rest
    let (i, choices) := s.choices.pick members.length
    (members[i]?, { s.use key with choices })
  | _ => (none, s.use key)

end Store

end BoundedStore
