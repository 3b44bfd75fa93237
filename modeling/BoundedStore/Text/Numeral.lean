/-!
# Decimal numerals

Reading of whole numbers written with the ASCII digits, at least one, with any number of leading
zeros. A sign, where one may stand, is a single character in front of the digits; nothing else is
read, blanks and digits of other scripts included.
-/

namespace BoundedStore

namespace Numeral

/-- The number of an ASCII digit. -/
def digit (c : Char) : Nat :=
  c.toNat - '0'.toNat

/-- The number that a row of digits denotes when it goes on from `n`. -/
def value (n : Nat) (digits : List Char) : Nat :=
  digits.foldl (fun n c => 10 * n + digit c) n

/-- Reads digits and nothing else. -/
def natural? (cs : List Char) : Option Nat :=
  if !cs.isEmpty && cs.all Char.isDigit then some (value 0 cs) else none

/-- Reads digits behind an optional sign. -/
def signed? : List Char → Option Int
  | '+' :: cs => (natural? cs).map Int.ofNat
  | '-' :: cs => (natural? cs).map fun n => -Int.ofNat n
  | cs => (natural? cs).map Int.ofNat

/-- The signed 64-bit word of a number, if there is one. -/
def toWord? (n : Int) : Option Int64 :=
  if Int64.minValue.toInt ≤ n ∧ n ≤ Int64.maxValue.toInt then some (Int64.ofInt n) else none

/-- Reads a signed 64-bit word: digits behind an optional sign, in range. -/
def word? (cs : List Char) : Option Int64 :=
  (signed? cs).bind toWord?

/-- Reads a number up to `most`: digits behind an optional plus sign. -/
def upTo? (most : Nat) (cs : List Char) : Option Nat :=
  let digits :=
    match cs with
    | '+' :: rest => rest
    | _ => cs
  (natural? digits).bind fun n => if n ≤ most then some n else none

end Numeral

end BoundedStore
