/-!
# Tables

A table from text keys to values, kept as its rows. `put` writes in place when the key has a row and
adds a row at the end otherwise, so a table built from `[]` has one row a key. The order of the rows
means nothing; `Recency` is what orders keys.
-/

namespace BoundedStore

/-- Rows of a key and its value. -/
abbrev Table (α : Type) := List (String × α)

namespace Table

variable {α : Type}

/-- The value in the row of `key`. -/
def find? : Table α → String → Option α
  | [], _ => none
  | (k, v) :: rest, key => if k = key then some v else find? rest key

def contains (t : Table α) (key : String) : Bool :=
  (t.find? key).isSome

/-- Writes `value` into the row of `key`, or into a new row. -/
def put : Table α → String → α → Table α
  | [], key, value => [(key, value)]
  | (k, v) :: rest, key, value =>
    if k = key then (key, value) :: rest else (k, v) :: put rest key value

def erase : Table α → String → Table α
  | [], _ => []
  | (k, v) :: rest, key => if k = key then rest else (k, v) :: erase rest key

def keys (t : Table α) : List String :=
  t.map Prod.fst

end Table

end BoundedStore
