import BoundedStore.Json.Basic
import BoundedStore.Json.Quoted

/-!
# Reading JSON

`Json.read?` reads the first JSON value of a text and answers it together with the rest of the text.
At most 127 arrays and objects may stand inside one another.

A reader of items is given the reader of one item, so the nesting that is still allowed is what the
recursion goes down on; inside one array or object, every item shortens the text.
-/

namespace BoundedStore

namespace Json

/-- Reads a value at the start of a text, and answers what follows it. -/
abbrev Reader := List Char → Option (Json × List Char)

/-- Reads the rest of an array from the start of an item. `fuel` bounds the number of items. -/
def readItems (read : Reader) : (fuel : Nat) → List Char → Option (List Json × List Char)
  | 0, _ => none
  | fuel + 1, cs =>
    match read cs with
    | none => none
    | some (item, rest) =>
      match skipBlank rest with
      | ']' :: rest => some ([item], rest)
      | ',' :: rest => (readItems read fuel rest).map fun r => (item :: r.1, r.2)
      | _ => none

/-- Reads an array from behind its bracket. -/
def readArray (read : Reader) (cs : List Char) : Option (List Json × List Char) :=
  match skipBlank cs with
  | ']' :: rest => some ([], rest)
  | cs => readItems read cs.length cs

/-- Reads the name of a member and the quotes around it. -/
def readName? (cs : List Char) : Option (String × List Char) :=
  match skipBlank cs with
  | '"' :: rest => (Quoted.read? rest).map fun r => (String.ofList r.1, r.2)
  | _ => none

/-- Skips the colon behind the name of a member. -/
def skipColon? (cs : List Char) : Option (List Char) :=
  match skipBlank cs with
  | ':' :: rest => some rest
  | _ => none

/-- Reads a member: its name, a colon, and its value. -/
def readMember (read : Reader) (cs : List Char) : Option ((String × Json) × List Char) := do
  let (name, rest) ← readName? cs
  let rest ← skipColon? rest
  let (value, rest) ← read rest
  return ((name, value), rest)

/-- Reads the rest of an object from the start of a member. `fuel` bounds the number of members. -/
def readMembers (read : Reader) :
    (fuel : Nat) → List Char → Option (List (String × Json) × List Char)
  | 0, _ => none
  | fuel + 1, cs =>
    match readMember read cs with
    | none => none
    | some (member, rest) =>
      match skipBlank rest with
      | '}' :: rest => some ([member], rest)
      | ',' :: rest => (readMembers read fuel rest).map fun r => (member :: r.1, r.2)
      | _ => none

/-- Reads an object from behind its brace. -/
def readObject (read : Reader) (cs : List Char) : Option (List (String × Json) × List Char) :=
  match skipBlank cs with
  | '}' :: rest => some ([], rest)
  | cs => readMembers read cs.length cs

/-- Reads a value. `inner` reads what stands inside an array or object, none of which may start
without it. -/
def readOne (inner : Option Reader) (cs : List Char) : Option (Json × List Char) :=
  match skipBlank cs with
  | [] => none
  | '"' :: rest => (Quoted.read? rest).map fun r => (.text (String.ofList r.1), r.2)
  | '[' :: rest => inner.bind fun read => (readArray read rest).map fun r => (.array r.1, r.2)
  | '{' :: rest => inner.bind fun read => (readObject read rest).map fun r => (.object r.1, r.2)
  | 'n' :: 'u' :: 'l' :: 'l' :: rest => some (.null, rest)
  | 't' :: 'r' :: 'u' :: 'e' :: rest => some (.bool true, rest)
  | 'f' :: 'a' :: 'l' :: 's' :: 'e' :: rest => some (.bool false, rest)
  | cs => (Decimal.read? cs).map fun r => (.number r.1, r.2)

/-- Reads a value with at most `depth` arrays and objects inside one another. -/
def readValue : (depth : Nat) → Reader
  | 0 => readOne none
  | depth + 1 => readOne (some (readValue depth))

/-- How many arrays and objects may stand inside one another. -/
def maxDepth : Nat := 127

/-- Reads the first value of a text. -/
def read? (cs : List Char) : Option (Json × List Char) :=
  readValue maxDepth cs

end Json

end BoundedStore
