import BoundedStore.Error

/-!
# Values and their equality

A key holds a scalar (a 64-bit integer or a text), a list, or a set. A set is kept as the list of
its members in the order the set itself gives them; `Value/Members.lean` keeps that list free of
equal members.

`Value.same` is the equality the store works with. It is coarser than `=`: two sets are the same
when they have the same number of members and every member of one is found in the other, whatever
the order, and this holds at every depth. Values of different kinds are never the same.
-/

namespace BoundedStore

/-- What a value is, without its content. -/
inductive Kind where
  | integer
  | text
  | list
  | set
  deriving DecidableEq

/-- The lower-case word for a kind in messages. -/
def Kind.name : Kind → String
  | integer => "integer"
  | text => "string"
  | list => "list"
  | set => "set"

/-- A value that a key can hold. -/
inductive Value where
  | integer (n : Int64)
  | text (s : String)
  | list (items : List Value)
  | set (members : List Value)

namespace Value

def kind : Value → Kind
  | integer _ => .integer
  | text _ => .text
  | list _ => .list
  | set _ => .set

/-- The refusal of an operation that wanted `expected` at `key` and found `v` there. -/
def mismatch (v : Value) (key expected : String) : StoreError :=
  .wrongType ("'" ++ key ++ "' holds type " ++ v.kind.name ++ ", expected " ++ expected)

/-! ### Equality of values as they are written -/

mutual

/-- Decides whether two values are equal in every detail, the order of set members included. -/
def decEq : (a b : Value) → Decidable (a = b)
  | integer m, integer n => decidable_of_iff (m = n) (by simp)
  | text s, text t => decidable_of_iff (s = t) (by simp)
  | list xs, list ys =>
    match decEqItems xs ys with
    | isTrue h => isTrue (by rw [h])
    | isFalse h => isFalse fun e => h (list.inj e)
  | set xs, set ys =>
    match decEqItems xs ys with
    | isTrue h => isTrue (by rw [h])
    | isFalse h => isFalse fun e => h (set.inj e)
  | integer _, text _ | integer _, list _ | integer _, set _ => isFalse nofun
  | text _, integer _ | text _, list _ | text _, set _ => isFalse nofun
  | list _, integer _ | list _, text _ | list _, set _ => isFalse nofun
  | set _, integer _ | set _, text _ | set _, list _ => isFalse nofun

def decEqItems : (xs ys : List Value) → Decidable (xs = ys)
  | [], [] => isTrue rfl
  | x :: xs, y :: ys =>
    match decEq x y, decEqItems xs ys with
    | isTrue h, isTrue hs => isTrue (by rw [h, hs])
    | isFalse h, _ => isFalse fun e => h (List.cons.inj e).1
    | _, isFalse hs => isFalse fun e => hs (List.cons.inj e).2
  | [], _ :: _ => isFalse nofun
  | _ :: _, [] => isFalse nofun

end

instance : DecidableEq Value := decEq

/-! ### Equality up to the order of set members -/

mutual

/-- The store's equality of values. -/
def same : Value → Value → Bool
  | integer m, integer n => m == n
  | text s, text t => s == t
  | list xs, list ys => sameItems xs ys
  | set xs, set ys => xs.length == ys.length && eachIn xs ys
  | _, _ => false

/-- Whether two lists have the same length and the same values position by position. -/
def sameItems : List Value → List Value → Bool
  | [], [] => true
  | x :: xs, y :: ys => x.same y && sameItems xs ys
  | _, _ => false

/-- Whether every value of the first list is the same as one of the second. -/
def eachIn : List Value → List Value → Bool
  | [], _ => true
  | x :: xs, ys => ys.any x.same && eachIn xs ys

end

end Value

end BoundedStore
