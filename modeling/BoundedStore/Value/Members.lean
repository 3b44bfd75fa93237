import BoundedStore.Value.Basic

/-!
# The members of a set

A set is the list of its members, no two of them the same. The order is part of what the store
shows: a new member goes last, adding a present one changes nothing, and the place of a removed
member is taken by the last one, so that no other member moves.

An absent key counts in set algebra as `none`, which is not always the empty set: an intersection
with an absent set is empty, and so is the difference that starts from one.
-/

namespace BoundedStore

/-- The members of a set in the set's own order. -/
abbrev Members := List Value

namespace Members

def has (members : Members) (x : Value) : Bool :=
  members.any x.same

/-- Adds `x` after the other members, unless it is already one. -/
def add (members : Members) (x : Value) : Members :=
  if has members x then members else members ++ [x]

/-- The set of the values of a list; of equal values the first is kept. -/
def ofList (values : List Value) : Members :=
  values.foldl add []

/-! ### Removal -/

/-- Moves the last value of a list to its front. -/
def lastFirst {α : Type} (xs : List α) : List α :=
  match xs.getLast? with
  | none => []
  | some last => last :: xs.dropLast

/-- Drops the member at position `i` and moves the last member into its place. -/
def removeAt (members : Members) (i : Nat) : Members :=
  members.take i ++ lastFirst (members.drop (i + 1))

/-- The position of the member that is the same as `x`. -/
def position? (members : Members) (x : Value) : Option Nat :=
  members.findIdx? x.same

/-- Removes the member that is the same as `x`, if there is one. -/
def remove (members : Members) (x : Value) : Members :=
  match position? members x with
  | some i => removeAt members i
  | none => members

/-! ### Algebra -/

/-- The members of the first set that belong to every other one; empty when any set is absent. -/
def intersection (sets : List (Option Members)) : Members :=
  match sets.mapM id with
  | some (first :: others) => first.filter fun x => others.all fun set => has set x
  | _ => []

/-- The members of any set, the sets read one after the other. -/
def union (sets : List (Option Members)) : Members :=
  ofList (sets.flatMap fun set => set.getD [])

/-- The members of the first set that belong to no other one. -/
def difference : List (Option Members) → Members
  | some first :: others => first.filter fun x => !others.any fun set => has (set.getD []) x
  | _ => []

end Members

/-- The ways to make one set out of several. -/
inductive Algebra where
  | intersection
  | union
  | difference
  deriving DecidableEq

/-- Combines the sets of a list; `none` stands for an absent set. -/
def Algebra.combine : Algebra → List (Option Members) → Members
  | intersection => Members.intersection
  | union => Members.union
  | difference => Members.difference

end BoundedStore
