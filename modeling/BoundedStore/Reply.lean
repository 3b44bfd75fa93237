import BoundedStore.Value.Basic

/-!
# Replies

What a client is answered when its command was run.
-/

namespace BoundedStore

/-- The answer to a command. -/
inductive Reply where
  | ok
  /-- There is no such value. -/
  | nil
  /-- The key holds a value of another kind than the collection that was asked for. -/
  | notApplicable
  | bool (b : Bool)
  /-- A number; minus one says that the key holds a value of the wrong kind. -/
  | integer (n : Int)
  | value (v : Value)
  | values (vs : List Value)
  deriving DecidableEq

namespace Reply

/-- The answer about a value that need not exist. -/
def ofOption : Option Value → Reply
  | some v => value v
  | none => nil

end Reply

end BoundedStore
