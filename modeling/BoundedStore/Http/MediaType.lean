/-!
# Media types

Which `Content-Type` headers announce JSON. The header is `type/subtype`, both made of token
characters, and parameters behind semicolons, each a name, an equals sign, and a token or a quoted
value. A plus sign in the subtype, past its first character, starts a suffix, and of several the
last one does. JSON is announced by the type `application` with `json` as the suffix or in front of
it, in any case.
-/

namespace BoundedStore

namespace MediaType

/-- Whether a character may stand in a token. -/
def isToken (c : Char) : Bool :=
  c.isAlphanum || "!#$%&'*+-.^_`|~".toList.contains c

/-- Whether a character may stand in a quoted value. -/
def isQuotable (c : Char) : Bool :=
  ' ' ≤ c && c ≤ '~'

/-- Reads a token, which is not empty. -/
def readToken? (cs : List Char) : Option (List Char × List Char) :=
  match cs.takeWhile isToken with
  | [] => none
  | token => some (token, cs.dropWhile isToken)

/-- Skips a quoted value from behind its opening quote. It is not empty, and ends at the first quote
past its first character. -/
def skipQuoted? : List Char → Option (List Char)
  | [] => none
  | c :: rest =>
    if isQuotable c then
      match rest.dropWhile fun c => isQuotable c && c ≠ '"' with
      | '"' :: rest => some rest
      | _ => none
    else none

/-- Skips a parameter from behind its semicolon, and the spaces behind a quoted value. The last
semicolon need not be followed by one, and the last value may be empty. -/
def skipParameter? (cs : List Char) : Option (List Char) :=
  match cs.dropWhile (· = ' ') with
  | [] => some []
  | cs =>
    match readToken? cs with
    | some (_, '=' :: '"' :: rest) => (skipQuoted? rest).map (·.dropWhile (· = ' '))
    | some (_, '=' :: ';' :: _) => none
    | some (_, '=' :: rest) => some (rest.dropWhile isToken)
    | _ => none

/-- Whether a text is a row of parameters, each behind a semicolon. `fuel` bounds their number. -/
def areParameters : (fuel : Nat) → List Char → Bool
  | _, [] => true
  | 0, _ => false
  | fuel + 1, ';' :: rest =>
    match skipParameter? rest with
    | some rest => areParameters fuel rest
    | none => false
  | _, _ => false

/-- Splits a subtype at its last plus sign past the first character. -/
def splitSuffix (subtype : List Char) : List Char × Option (List Char) :=
  match subtype with
  | [] => ([], none)
  | first :: rest =>
    if rest.contains '+' then
      let back := rest.reverse
      (first :: ((back.dropWhile (· ≠ '+')).drop 1).reverse,
        some (back.takeWhile (· ≠ '+')).reverse)
    else (subtype, none)

/-- Whether two texts differ at most in the case of their letters. -/
def sameWord (xs ys : List Char) : Bool :=
  xs.map Char.toLower = ys.map Char.toLower

/-- Whether a `Content-Type` header announces JSON. -/
def isJson (header : String) : Bool :=
  match readToken? header.toList with
  | some (type, '/' :: rest) =>
    match readToken? rest with
    | some (subtype, rest) =>
      areParameters rest.length rest && sameWord type "application".toList &&
        (sameWord (splitSuffix subtype).1 "json".toList ||
          (splitSuffix subtype).2.any fun suffix => sameWord suffix "json".toList)
    | none => false
  | _ => false

end MediaType

end BoundedStore
