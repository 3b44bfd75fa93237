import BoundedStore.Value.Members

/-!
# Digests of values

A digest maps the values that are the same to one word, so a set can look for a member among those
of equal digest. A hasher takes in chunks one at a time, so all that counts of a value is the row of
chunks it gives: its kind, and then its content. The members of a set are digested each on its own,
and the set gives their number and the sum of their digests, neither of which depends on the order
of the members.
-/

namespace BoundedStore

/-- What is given to a hasher at one time. -/
inductive Chunk where
  | kind (k : Kind)
  | integer (n : Int64)
  | text (s : String)
  /-- The number of items or members. -/
  | length (n : Nat)
  /-- The sum of the digests of members. -/
  | sum (digests : UInt64)

/-- A hasher: a state that takes in chunks. -/
structure Hasher (σ : Type) where
  /-- The state before anything was taken in. -/
  fresh : σ
  absorb : σ → Chunk → σ
  /-- The digest of what was taken in. -/
  finish : σ → UInt64

namespace Chunk

/-- The words of a text: its bytes, and a byte that stands in no text to mark its end. -/
def textWords (s : String) : List UInt64 :=
  s.toUTF8.data.toList.map UInt8.toUInt64 ++ [0xFF]

/-- The words of a chunk, for a hasher that takes in nothing else. -/
def words : Chunk → List UInt64
  | kind .integer => [0]
  | kind .text => [1]
  | kind .list => [2]
  | kind .set => [3]
  | integer n => [n.toUInt64]
  | text s => textWords s
  | length n => [n.toUInt64]
  | sum digests => [digests]

end Chunk

namespace Hasher

variable {σ : Type}

/-- The state after a row of chunks. -/
def absorbAll (h : Hasher σ) (state : σ) (chunks : List Chunk) : σ :=
  chunks.foldl h.absorb state

def digest (h : Hasher σ) (chunks : List Chunk) : UInt64 :=
  h.finish (h.absorbAll h.fresh chunks)

/-- A hasher that multiplies with a prime after each word. -/
def multiplicative : Hasher UInt64 where
  fresh := 0xCBF29CE484222325
  absorb state chunk := chunk.words.foldl (fun state w => (state ^^^ w) * 0x100000001B3) state
  finish state := state

end Hasher

namespace Value

variable {σ : Type} (h : Hasher σ)

mutual

/-- The chunks that a value gives to a hasher, when members of sets are digested by `h`. -/
def chunks : Value → List Chunk
  | integer n => [.kind .integer, .integer n]
  | text s => [.kind .text, .text s]
  | list items => .kind .list :: .length items.length :: chunksOfItems items
  | set members => [.kind .set, .length members.length, .sum (digestSum members)]

def chunksOfItems : List Value → List Chunk
  | [] => []
  | x :: rest => chunks x ++ chunksOfItems rest

def digestSum : List Value → UInt64
  | [] => 0
  | x :: rest => h.digest (chunks x) + digestSum rest

end

def digest (v : Value) : UInt64 :=
  h.digest (v.chunks h)

end Value

/-- Whether a value the same as `x` is among the members that have its digest by `outer`. The
members of sets inside them are digested by `h`. -/
def Members.hasByDigest {σ τ : Type} (h : Hasher σ) (outer : Hasher τ) (members : Members)
    (x : Value) : Bool :=
  (members.filter fun y => outer.digest (y.chunks h) = outer.digest (x.chunks h)).any x.same

end BoundedStore
