import BoundedStore.Command.Basic
import BoundedStore.Value.Json

/-!
# Reading commands

A command is a JSON object that holds its name under `op` and each of its operands under the
operand's name, in any order and once each; other members are ignored. It may also be an array of
the name and the operands in their order, and nothing else. Every other JSON value is of the wrong
shape.

A text that is not JSON is malformed, unless its name was already refused where the text stops being
JSON: `Command.nameRefused` says when a name is refused as soon as it is seen.
-/

namespace BoundedStore

/-! ### Operands -/

namespace Json

def text? : Json → Option String
  | text s => some s
  | _ => none

/-- The signed 64-bit word that a JSON value is. -/
def word? : Json → Option Int64
  | number d => d.word?
  | _ => none

def texts? : Json → Option (List String)
  | array items => items.mapM text?
  | _ => none

end Json

namespace Command

/-- The names of a command's operands, in their order. -/
def operandNames? : (name : String) → Option (List String)
  | "store" | "replace" | "lpush" | "rpush" => some ["key", "value"]
  | "get" | "remove" | "lpop" | "rpop" | "llen" | "scard" | "smembers" | "spop" | "srandmember" =>
    some ["key"]
  | "lindex" => some ["key", "index"]
  | "lset" => some ["key", "index", "value"]
  | "lrange" | "ltrim" => some ["key", "start", "end"]
  | "lrem" => some ["key", "count", "value"]
  | "sadd" | "srem" | "sismember" => some ["key", "member"]
  | "smove" => some ["source", "destination", "member"]
  | "sinter" | "sunion" | "sdiff" | "sinterstore" | "sunionstore" | "sdiffstore" => some ["keys"]
  | _ => none

/-- The command called `name` with the operands among `members`. -/
def ofMembers? (name : String) (members : List (String × Json)) : Option Command :=
  let text (operand : String) : Option String := (Json.only? operand members).bind Json.text?
  let word (operand : String) : Option Int64 := (Json.only? operand members).bind Json.word?
  let value (operand : String) : Option Value := (Json.only? operand members).bind Value.ofJson?
  let texts (operand : String) : Option (List String) :=
    (Json.only? operand members).bind Json.texts?
  match name with
  | "store" => return store (← text "key") (← value "value")
  | "get" => return get (← text "key")
  | "remove" => return remove (← text "key")
  | "replace" => return replace (← text "key") (← value "value")
  | "lpush" => return push .head (← text "key") (← value "value")
  | "rpush" => return push .tail (← text "key") (← value "value")
  | "lpop" => return pop .head (← text "key")
  | "rpop" => return pop .tail (← text "key")
  | "lindex" => return itemAt (← text "key") (← word "index")
  | "llen" => return listLength (← text "key")
  | "lset" => return setItem (← text "key") (← word "index") (← value "value")
  | "lrange" => return listRange (← text "key") (← word "start") (← word "end")
  | "ltrim" => return trimList (← text "key") (← word "start") (← word "end")
  | "lrem" => return removeItems (← text "key") (← word "count") (← value "value")
  | "sadd" => return addMember (← text "key") (← value "member")
  | "srem" => return removeMember (← text "key") (← value "member")
  | "sismember" => return isMember (← text "key") (← value "member")
  | "scard" => return cardinality (← text "key")
  | "smembers" => return Command.members (← text "key")
  | "sinter" => return combine .intersection (← texts "keys")
  | "sunion" => return combine .union (← texts "keys")
  | "sdiff" => return combine .difference (← texts "keys")
  | "sinterstore" => return combineInto .intersection (← texts "keys")
  | "sunionstore" => return combineInto .union (← texts "keys")
  | "sdiffstore" => return combineInto .difference (← texts "keys")
  | "smove" => return moveMember (← text "source") (← text "destination") (← value "member")
  | "spop" => return popMember (← text "key")
  | "srandmember" => return randomMember (← text "key")
  | _ => none

def ofJson? : Json → Option Command
  | .object entries =>
    ((Json.only? nameMember entries).bind Json.text?).bind fun name => ofMembers? name entries
  | .array (.text name :: operands) =>
    (operandNames? name).bind fun names =>
      if names.length = operands.length then ofMembers? name (names.zip operands) else none
  | _ => none

/-! ### Names that are refused before the text is read to its end -/

/-- What is seen of a name where the value of `op` starts. -/
inductive NameCheck where
  /-- A command has this name; the text goes on with `rest`. -/
  | known (rest : List Char)
  | refused
  | malformed

/-- Looks at the value of `op`. Of an array or object the bracket is enough. -/
def checkName (cs : List Char) : NameCheck :=
  match Json.skipBlank cs with
  | '[' :: _ => .refused
  | '\x7b' :: _ => .refused
  | cs =>
    match Json.readOne none cs with
    | some (.text name, rest) => if (operandNames? name).isSome then .known rest else .refused
    | some _ => .refused
    | none => .malformed

/-- Whether an object is refused for its name, from the start of a member on. `named` says that a
name has been seen; a second one is refused at sight. -/
def membersRefused (read : Json.Reader) : (fuel : Nat) → (named : Bool) → List Char → Bool
  | 0, _, _ => false
  | fuel + 1, named, cs =>
    let continued (named : Bool) (rest : List Char) : Bool :=
      match Json.skipBlank rest with
      | ',' :: rest => membersRefused read fuel named rest
      | _ => false
    match Json.readName? cs with
    | none => false
    | some (member, rest) =>
      if member = nameMember && named then true
      else
        match Json.skipColon? rest with
        | none => false
        | some rest =>
          if member = nameMember then
            match checkName rest with
            | .known rest => continued true rest
            | .refused => true
            | .malformed => false
          else
            match read rest with
            | some (_, rest) => continued named rest
            | none => false

/-- Whether a text that is not JSON is refused for its name before it stops being JSON. -/
def nameRefused (cs : List Char) : Bool :=
  match Json.skipBlank cs with
  | '\x7b' :: rest => membersRefused (Json.readValue (Json.maxDepth - 1)) rest.length false rest
  | '[' :: rest =>
    match checkName rest with
    | .refused => true
    | _ => false
  | _ => false

/-! ### Texts -/

/-- Reads the command at the start of a text, and answers what follows it. -/
def readFirst (cs : List Char) : Except Fault (Command × List Char) :=
  match Json.read? cs with
  | some (j, rest) =>
    match ofJson? j with
    | some c => .ok (c, rest)
    | none => .error .misshapen
  | none => .error (if nameRefused cs then .misshapen else .malformed)

/-- Reads a command from a text that holds nothing else. -/
def read (s : String) : Except Fault Command :=
  match readFirst s.toList with
  | .ok (c, rest) => if rest.all Json.isBlank then .ok c else .error .malformed
  | .error fault => .error fault

end Command

end BoundedStore
