import BoundedStore.Json.Printer
import BoundedStore.Json.Reader
import BoundedStore.Value.Basic

/-!
# Values in JSON

An integer is written as a number, a text as a string, and both a list and a set as an array. An
array is read as a list, so a value that is written and read again has lists in place of its sets.
Nothing else of JSON is a value: no null, no truth value, no object, and no number but a 64-bit
integer.
-/

namespace BoundedStore

namespace Value

mutual

def toJson : Value → Json
  | integer n => .integer n.toInt
  | text s => .text s
  | list items => .array (toJsonItems items)
  | set members => .array (toJsonItems members)

def toJsonItems : List Value → List Json
  | [] => []
  | x :: rest => x.toJson :: toJsonItems rest

end

mutual

def ofJson? : Json → Option Value
  | .number d => d.word?.map integer
  | .text s => some (text s)
  | .array items => (ofJsonItems? items).map list
  | _ => none

def ofJsonItems? : List Json → Option (List Value)
  | [] => some []
  | j :: rest =>
    match ofJson? j, ofJsonItems? rest with
    | some x, some xs => some (x :: xs)
    | _, _ => none

end

def render (v : Value) : String :=
  v.toJson.render

/-- Reads a value from a text that holds nothing else. -/
def read (s : String) : Except Fault Value :=
  match Json.read? s.toList with
  | none => .error .malformed
  | some (j, rest) =>
    match ofJson? j with
    | none => .error .misshapen
    | some v => if rest.all Json.isBlank then .ok v else .error .malformed

end Value

end BoundedStore
