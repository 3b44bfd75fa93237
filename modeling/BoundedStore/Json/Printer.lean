import BoundedStore.Json.Basic
import BoundedStore.Json.Quoted

/-!
# Writing JSON

JSON is written without blanks, the members of an object in their order.
-/

namespace BoundedStore

namespace Json

/-- Puts commas between texts. -/
def commaSeparated : List (List Char) → List Char
  | [] => []
  | [cs] => cs
  | cs :: rest => cs ++ ',' :: commaSeparated rest

mutual

def write : Json → List Char
  | null => ['n', 'u', 'l', 'l']
  | bool true => ['t', 'r', 'u', 'e']
  | bool false => ['f', 'a', 'l', 's', 'e']
  | number d => d.write
  | text s => Quoted.write s.toList
  | array items => '[' :: (commaSeparated (writeItems items) ++ [']'])
  | object members => '{' :: (commaSeparated (writeMembers members) ++ ['}'])

def writeItems : List Json → List (List Char)
  | [] => []
  | item :: rest => write item :: writeItems rest

def writeMembers : List (String × Json) → List (List Char)
  | [] => []
  | (name, value) :: rest => (Quoted.write name.toList ++ ':' :: write value) :: writeMembers rest

end

def render (j : Json) : String :=
  String.ofList j.write

end Json

end BoundedStore
