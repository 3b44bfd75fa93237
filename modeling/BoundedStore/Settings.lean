import BoundedStore.Store.Basic
import BoundedStore.Text.Blank
import BoundedStore.Text.Numeral

/-!
# Settings

A server takes its settings from three environment variables: the capacity of the store, the port,
and the seed of random choices. A variable that is not set, or is no UTF-8 text, leaves its setting
at the default. A set one must hold a number in the range of the setting, with blanks around it and
a plus sign in front of it at most; otherwise the server does not start, and the refusal quotes the
variable as it is set.
-/

namespace BoundedStore

/-- The variables as a process finds them, each with its bytes if it is set. -/
structure Environment where
  maxEntries : Option ByteArray
  serverPort : Option ByteArray
  rngSeed : Option ByteArray

/-- The settings of a server. -/
structure Settings where
  /-- The most entries that the store holds. -/
  maxEntries : UInt64
  serverPort : UInt16
  /-- The seed of random choices; without one they differ from run to run. -/
  seed : Option UInt64
  deriving DecidableEq

namespace Settings

/-- The settings when no variable is set. -/
def default : Settings :=
  { maxEntries := 1000, serverPort := 3000, seed := none }

/-- The number in the variable called `name`, at most `most`, or that the variable is not set. -/
def readVariable (name : String) (most : Nat) (raw : Option ByteArray) :
    Except StoreError (Option Nat) :=
  match raw.bind String.fromUTF8? with
  | none => .ok none
  | some text =>
    match Numeral.upTo? most (Blank.trim text.toList) with
    | some n => .ok (some n)
    | none => .error (.invalidConfiguration (name ++ " has invalid value '" ++ text ++ "'"))

/-- The settings of an environment, refused at the first variable that does not hold its number. -/
def ofEnvironment (e : Environment) : Except StoreError Settings := do
  let maxEntries ← readVariable "MAX_ENTRIES" (UInt64.size - 1) e.maxEntries
  let serverPort ← readVariable "SERVER_PORT" (UInt16.size - 1) e.serverPort
  let seed ← readVariable "RNG_SEED" (UInt64.size - 1) e.rngSeed
  return {
    maxEntries := (maxEntries.map Nat.toUInt64).getD default.maxEntries
    serverPort := (serverPort.map Nat.toUInt16).getD default.serverPort
    seed := seed.map Nat.toUInt64 }

/-- The empty store of a server. `fallback` is the seed to take when the settings name none. -/
def newStore (settings : Settings) (fallback : UInt64) : Except StoreError Store :=
  Store.new settings.maxEntries.toNat (.seeded (settings.seed.getD fallback))

end Settings

end BoundedStore
