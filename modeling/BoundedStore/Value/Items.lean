import BoundedStore.Value.Basic

/-!
# The items of a list

The rules of lists that do not depend on the store: which positions an index and a range select,
what a trim keeps, and which occurrences a removal takes. Positions count from zero and an index is
never taken from the end: a negative one selects nothing.
-/

namespace BoundedStore

/-- The two ends of a list. -/
inductive Side where
  | head
  | tail
  deriving DecidableEq

namespace Items

/-! ### The ends -/

/-- Puts `x` at one end. -/
def push (side : Side) (items : List Value) (x : Value) : List Value :=
  match side with
  | .head => x :: items
  | .tail => items ++ [x]

/-- Takes the value at one end, together with what is left. -/
def pop? (side : Side) (items : List Value) : Option (Value × List Value) :=
  match side with
  | .head =>
    match items with
    | [] => none
    | x :: rest => some (x, rest)
  | .tail => items.getLast?.map fun x => (x, items.dropLast)

/-! ### Positions -/

/-- The position that `index` names in a list of `length` items. -/
def position? (length : Nat) (index : Int64) : Option Nat :=
  if 0 ≤ index.toInt ∧ index.toInt < length then some index.toInt.toNat else none

/-- The first and last position that the inclusive range from `start` to `stop` selects in a list of
`length` items. A `stop` past the end means the last item; a `start` outside the list, or behind
`stop`, selects nothing. -/
def window? (length : Nat) (start stop : Int64) : Option (Nat × Nat) :=
  let last : Int := (length : Int) - 1
  if start.toInt < 0 ∨ last < start.toInt ∨ stop.toInt < start.toInt then none
  else some (start.toInt.toNat, (min stop.toInt last).toNat)

/-- The items that the range from `start` to `stop` selects. -/
def slice (items : List Value) (start stop : Int64) : List Value :=
  match window? items.length start stop with
  | some (first, last) => (items.drop first).take (last + 1 - first)
  | none => []

/-- What a trim to the range from `start` to `stop` leaves: all behind the range is cut off first,
then all before it. -/
def trim (items : List Value) (start stop : Int64) : List Value :=
  match window? items.length start stop with
  | some (first, last) => (items.take (last + 1)).drop first
  | none => []

/-! ### Removal of occurrences -/

/-- Drops the first `limit` items that are the same as `target`. -/
def dropSame (target : Value) : (limit : Nat) → List Value → List Value
  | _, [] => []
  | 0, items => items
  | limit + 1, x :: rest =>
    if x.same target then dropSame target limit rest else x :: dropSame target (limit + 1) rest

/-- Drops items that are the same as `target`: all of them for a `count` of zero, the first `count`
for a positive one, and as many from the end for a negative one. -/
def remove (items : List Value) (count : Int64) (target : Value) : List Value :=
  if count.toInt = 0 then dropSame target items.length items
  else if 0 < count.toInt then dropSame target count.toInt.natAbs items
  else (dropSame target count.toInt.natAbs items.reverse).reverse

end Items

end BoundedStore
