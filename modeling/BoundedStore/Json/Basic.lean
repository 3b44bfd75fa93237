import BoundedStore.Json.Decimal

/-!
# JSON trees

The tree of a JSON text. An object keeps all its members in the order in which they stand, also
members of one name.
-/

namespace BoundedStore

inductive Json where
  | null
  | bool (b : Bool)
  | number (d : Decimal)
  | text (s : String)
  | array (items : List Json)
  | object (members : List (String × Json))

/-- Why a text cannot be read as what it should be. -/
inductive Fault where
  /-- It does not follow the JSON grammar. -/
  | malformed
  /-- It is JSON of the wrong shape. -/
  | misshapen
  deriving DecidableEq

namespace Json

def integer (n : Int) : Json :=
  number (.ofInt n)

/-- Whether a character may stand between the tokens of a JSON text. -/
def isBlank (c : Char) : Bool :=
  c = ' ' || c = '\t' || c = '\n' || c = '\r'

/-- Skips the blanks at the start. -/
def skipBlank (cs : List Char) : List Char :=
  cs.dropWhile isBlank

/-- The only member called `name`; `none` when there are several or there is none. -/
def only? (name : String) (members : List (String × Json)) : Option Json :=
  match members.filter fun member => member.1 = name with
  | [(_, j)] => some j
  | _ => none

end Json

end BoundedStore
