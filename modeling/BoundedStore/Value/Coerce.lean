import BoundedStore.Value.Basic
import BoundedStore.Text.Numeral

/-!
# Coercion of written scalars

A text that spells a 64-bit integer is stored as that integer. Only the value as a whole is looked
at: the items of a list and the members of a set stay as they are.
-/

namespace BoundedStore

/-- The value that a write of `v` stores. -/
def Value.coerce : Value → Value
  | text s =>
    match Numeral.word? s.toList with
    | some n => integer n
    | none => text s
  | v => v

end BoundedStore
