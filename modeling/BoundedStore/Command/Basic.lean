import BoundedStore.Value.Items
import BoundedStore.Value.Members

/-!
# Commands

A command is one request to the store: what to do, and with which operands. Each has a name and
named operands, under which it is written and read.
-/

namespace BoundedStore

/-- One request to the store. -/
inductive Command where
  | store (key : String) (value : Value)
  | get (key : String)
  | remove (key : String)
  | replace (key : String) (value : Value)
  | push (side : Side) (key : String) (value : Value)
  | pop (side : Side) (key : String)
  | itemAt (key : String) (index : Int64)
  | listLength (key : String)
  | setItem (key : String) (index : Int64) (value : Value)
  | listRange (key : String) (start stop : Int64)
  | trimList (key : String) (start stop : Int64)
  | removeItems (key : String) (count : Int64) (value : Value)
  | addMember (key : String) (member : Value)
  | removeMember (key : String) (member : Value)
  | isMember (key : String) (member : Value)
  | cardinality (key : String)
  | members (key : String)
  | combine (algebra : Algebra) (keys : List String)
  | combineInto (algebra : Algebra) (keys : List String)
  | moveMember (source destination : String) (member : Value)
  | popMember (key : String)
  | randomMember (key : String)
  deriving DecidableEq

/-- The operand of a command. -/
inductive Operand where
  | text (s : String)
  | integer (n : Int64)
  | value (v : Value)
  | texts (ss : List String)
  deriving DecidableEq

namespace Command

/-- The member that holds the name of a command in JSON. -/
def nameMember : String := "op"

/-- The name under which a command is asked for. -/
def name : Command → String
  | store .. => "store"
  | get .. => "get"
  | remove .. => "remove"
  | replace .. => "replace"
  | push .head .. => "lpush"
  | push .tail .. => "rpush"
  | pop .head .. => "lpop"
  | pop .tail .. => "rpop"
  | itemAt .. => "lindex"
  | listLength .. => "llen"
  | setItem .. => "lset"
  | listRange .. => "lrange"
  | trimList .. => "ltrim"
  | removeItems .. => "lrem"
  | addMember .. => "sadd"
  | removeMember .. => "srem"
  | isMember .. => "sismember"
  | cardinality .. => "scard"
  | members .. => "smembers"
  | combine .intersection .. => "sinter"
  | combine .union .. => "sunion"
  | combine .difference .. => "sdiff"
  | combineInto .intersection .. => "sinterstore"
  | combineInto .union .. => "sunionstore"
  | combineInto .difference .. => "sdiffstore"
  | moveMember .. => "smove"
  | popMember .. => "spop"
  | randomMember .. => "srandmember"

/-- The operands of a command under their names, in the order in which an array lists them. -/
def operands : Command → List (String × Operand)
  | store key value => [("key", .text key), ("value", .value value)]
  | get key => [("key", .text key)]
  | remove key => [("key", .text key)]
  | replace key value => [("key", .text key), ("value", .value value)]
  | push _ key value => [("key", .text key), ("value", .value value)]
  | pop _ key => [("key", .text key)]
  | itemAt key index => [("key", .text key), ("index", .integer index)]
  | listLength key => [("key", .text key)]
  | setItem key index value =>
    [("key", .text key), ("index", .integer index), ("value", .value value)]
  | listRange key start stop =>
    [("key", .text key), ("start", .integer start), ("end", .integer stop)]
  | trimList key start stop =>
    [("key", .text key), ("start", .integer start), ("end", .integer stop)]
  | removeItems key count value =>
    [("key", .text key), ("count", .integer count), ("value", .value value)]
  | addMember key member => [("key", .text key), ("member", .value member)]
  | removeMember key member => [("key", .text key), ("member", .value member)]
  | isMember key member => [("key", .text key), ("member", .value member)]
  | cardinality key => [("key", .text key)]
  | members key => [("key", .text key)]
  | combine _ keys => [("keys", .texts keys)]
  | combineInto _ keys => [("keys", .texts keys)]
  | moveMember source destination member =>
    [("source", .text source), ("destination", .text destination), ("member", .value member)]
  | popMember key => [("key", .text key)]
  | randomMember key => [("key", .text key)]

/-- What is wrong with a command: one that stores a combination of sets has to name where. -/
def objection : Command → Option String
  | combineInto algebra [] =>
    some ("'" ++ (combineInto algebra []).name ++ "' requires a destination key")
  | _ => none

end Command

end BoundedStore
