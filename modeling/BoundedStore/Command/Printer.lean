import BoundedStore.Command.Basic
import BoundedStore.Reply
import BoundedStore.Value.Json

/-!
# Commands and replies in JSON

A command is written as an object of its name and its operands. A reply is an object that says its
type and, if it has one, its value.
-/

namespace BoundedStore

def Operand.toJson : Operand → Json
  | text s => .text s
  | integer n => .integer n.toInt
  | value v => v.toJson
  | texts ss => .array (ss.map .text)

/-- The JSON of a command, its name first. -/
def Command.toJson (c : Command) : Json :=
  .object ((nameMember, .text c.name) ::
    c.operands.map fun operand => (operand.1, operand.2.toJson))

namespace Reply

def type : Reply → String
  | ok => "ok"
  | nil => "nil"
  | notApplicable => "not_applicable"
  | bool _ => "bool"
  | integer _ => "integer"
  | value _ => "value"
  | values _ => "values"

/-- The JSON of a reply's value. -/
def content? : Reply → Option Json
  | bool b => some (.bool b)
  | integer n => some (.integer n)
  | value v => some v.toJson
  | values vs => some (.array (Value.toJsonItems vs))
  | _ => none

def toJson (r : Reply) : Json :=
  .object (("type", .text r.type) :: (r.content?.map fun j => ("value", j)).toList)

end Reply

end BoundedStore
