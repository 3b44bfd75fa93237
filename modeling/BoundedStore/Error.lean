/-!
# Refusals of the store

A refusal is a cause together with the words that explain it: which key, or what was wrong with it.
`message` is the text a client reads, and it always opens with the cause.
-/

namespace BoundedStore

/-- Why the store, or the server in front of it, refused a request. -/
inductive StoreError where
  /-- A new entry was asked for under a key that is already live. -/
  | duplicatedKey (key : String)
  /-- The key is not live. -/
  | nonExistentKey (key : String)
  /-- The store cannot be set up as asked. -/
  | invalidConfiguration (reason : String)
  /-- The key holds a value of another kind than the operation works on. -/
  | wrongType (detail : String)
  /-- The command was turned down before it reached the store. -/
  | invalidRequest (detail : String)
  deriving DecidableEq

namespace StoreError

/-- The text of a refusal: its cause, a colon, and its detail. -/
def message : StoreError → String
  | duplicatedKey key => "Key already exists: " ++ key
  | nonExistentKey key => "Key not found: " ++ key
  | invalidConfiguration reason => "Invalid configuration: " ++ reason
  | wrongType detail => "Wrong type: " ++ detail
  | invalidRequest detail => "Invalid request: " ++ detail

end StoreError

end BoundedStore
