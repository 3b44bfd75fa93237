import BoundedStore.Text.Numeral

/-!
# Decimal numbers

The numbers of JSON by their parts: a minus sign if there is one, digits without a leading zero, a
point with digits behind it if there is a fraction, and a signed exponent if there is one. Reading
is greedy: what looks like the start of a fraction or an exponent has to be one.

A number too large for a double does not count as JSON. To tell, the number is taken as a
significand times a power of ten. The significand is a 64-bit word: digits that do not fit any more
are dropped, and those before the point then count in the exponent. Significand and power are each
rounded to a double, and the number is too large when the product of the two rounds to no finite
double.
-/

namespace BoundedStore

/-- A number by its parts. -/
structure Decimal where
  negative : Bool
  whole : List Char
  /-- The digits behind the point, if there is one. -/
  fraction : Option (List Char)
  /-- Whether the exponent is negative, and its digits, if there is one. -/
  exponent : Option (Bool × List Char)
  deriving DecidableEq

namespace Decimal

/-! ### Integers -/

/-- An integer in its shortest form. -/
def ofInt : Int → Decimal
  | .ofNat n => ⟨false, Nat.toDigits 10 n, none, none⟩
  | .negSucc n => ⟨true, Nat.toDigits 10 (n + 1), none, none⟩

/-- The integer that a number is spelled as: no fraction, no exponent, and not minus zero. -/
def integer? (d : Decimal) : Option Int :=
  if d.fraction.isNone && d.exponent.isNone && !(d.negative && d.whole = ['0']) then
    some (if d.negative then -Int.ofNat (Numeral.value 0 d.whole)
      else Int.ofNat (Numeral.value 0 d.whole))
  else none

/-- The signed 64-bit word that a number is spelled as. -/
def word? (d : Decimal) : Option Int64 :=
  d.integer?.bind Numeral.toWord?

/-! ### The range of a double -/

/-- A significand and the power of ten to multiply it with. -/
structure Scaled where
  significand : Nat
  exponent : Int
  deriving DecidableEq

namespace Scaled

/-- One past the largest significand. -/
def limit : Nat := UInt64.size

/-- Takes in digits before the point. The first that does not fit, and all after it, raise the
exponent instead. -/
def takeWhole (s : Scaled) : List Char → Scaled
  | [] => s
  | c :: rest =>
    let n := 10 * s.significand + Numeral.digit c
    if n < limit then takeWhole { s with significand := n } rest
    else { s with exponent := s.exponent + (rest.length + 1 : Nat) }

/-- Takes in digits behind the point. The first that does not fit, and all after it, are dropped. -/
def takeFraction (s : Scaled) : List Char → Scaled
  | [] => s
  | c :: rest =>
    let n := 10 * s.significand + Numeral.digit c
    if n < limit then takeFraction ⟨n, s.exponent - 1⟩ rest else s

/-- The double nearest to a whole number, as a whole number; of two as near, the one whose
significand is even. -/
def roundToDouble (n : Nat) : Nat :=
  let unit := Nat.pow 2 (n.log2 + 1 - 53)
  let below := n / unit
  let excess := n % unit
  if unit < 2 * excess || (2 * excess = unit && below % 2 = 1) then (below + 1) * unit
  else below * unit

/-- The least number that rounds to no finite double. -/
def overflow : Nat := Nat.pow 2 1024 - Nat.pow 2 970

/-- Whether a number is in the range of a double. -/
def inRange (s : Scaled) : Bool :=
  s.significand = 0 || s.exponent < 0 ||
    (s.exponent ≤ 308 &&
      roundToDouble s.significand * roundToDouble (Nat.pow 10 s.exponent.toNat) < overflow)

end Scaled

def power (d : Decimal) : Int :=
  match d.exponent with
  | none => 0
  | some (true, digits) => -Int.ofNat (Numeral.value 0 digits)
  | some (false, digits) => Int.ofNat (Numeral.value 0 digits)

/-- The number without its sign, its significand cut to a word. -/
def scaled (d : Decimal) : Scaled :=
  let s := (Scaled.takeWhole ⟨0, 0⟩ d.whole).takeFraction (d.fraction.getD [])
  { s with exponent := s.exponent + d.power }

/-! ### Reading and writing -/

/-- Splits off the digits at the start, of which there must be one. -/
def readDigits? (cs : List Char) : Option (List Char × List Char) :=
  match cs.takeWhile Char.isDigit with
  | [] => none
  | digits => some (digits, cs.dropWhile Char.isDigit)

/-- Reads the digits before the point: a zero alone, or digits that start with another one. -/
def readWhole? (cs : List Char) : Option (List Char × List Char) :=
  match readDigits? cs with
  | some ('0' :: _ :: _, _) => none
  | whole => whole

/-- Reads a fraction, where a point starts one. -/
def readFraction? : List Char → Option (Option (List Char) × List Char)
  | '.' :: rest => (readDigits? rest).map fun r => (some r.1, r.2)
  | cs => some (none, cs)

/-- Splits off a sign, and tells whether it is a minus. -/
def readSign : List Char → Bool × List Char
  | '-' :: rest => (true, rest)
  | '+' :: rest => (false, rest)
  | cs => (false, cs)

/-- Reads an exponent, where the letter E starts one. -/
def readExponent? : List Char → Option (Option (Bool × List Char) × List Char)
  | [] => some (none, [])
  | c :: rest =>
    if c = 'e' || c = 'E' then
      (readDigits? (readSign rest).2).map fun r => (some ((readSign rest).1, r.1), r.2)
    else some (none, c :: rest)

def readUnsigned? (negative : Bool) (cs : List Char) : Option (Decimal × List Char) := do
  let (whole, cs) ← readWhole? cs
  let (fraction, cs) ← readFraction? cs
  let (exponent, cs) ← readExponent? cs
  return ({ negative, whole, fraction, exponent }, cs)

def readAny? : List Char → Option (Decimal × List Char)
  | '-' :: rest => readUnsigned? true rest
  | cs => readUnsigned? false cs

/-- Reads a number; one out of the range of a double is refused. -/
def read? (cs : List Char) : Option (Decimal × List Char) :=
  (readAny? cs).filter fun r => r.1.scaled.inRange

/-- Writes an exponent, with a small letter and without a plus sign. -/
def writeExponent : Bool × List Char → List Char
  | (true, digits) => 'e' :: '-' :: digits
  | (false, digits) => 'e' :: digits

def write (d : Decimal) : List Char :=
  (if d.negative then ['-'] else []) ++ d.whole ++ (d.fraction.elim [] fun digits => '.' :: digits)
    ++ d.exponent.elim [] writeExponent

end Decimal

end BoundedStore
