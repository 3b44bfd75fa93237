/-!
# Random choices

A store that picks a member at random takes the next number of an endless supply and reduces it to
the size of the set. Any sequence of choices is the reduction of some supply, so what holds for
every supply holds for every way to choose. A seeded supply is a fixed one, which makes a run
repeatable.
-/

namespace BoundedStore

/-- An endless supply of numbers, and how many of them are used up. -/
structure Choices where
  supply : Nat → Nat
  used : Nat

namespace Choices

/-- Chooses one of `n` positions. -/
def pick (c : Choices) (n : Nat) : Nat × Choices :=
  (c.supply c.used % n, { c with used := c.used + 1 })

/-- Scatters the bits of a word over all of it. -/
def scatter (w : UInt64) : UInt64 :=
  let a := (w ^^^ (w >>> 30)) * 0xBF58476D1CE4E5B9
  let b := (a ^^^ (a >>> 27)) * 0x94D049BB133111EB
  b ^^^ (b >>> 31)

/-- The supply of a seed: words that go up from the seed by equal odd steps, each scattered. -/
def seeded (seed : UInt64) : Choices :=
  { supply := fun i => (scatter (seed + 0x9E3779B97F4A7C15 * (i.toUInt64 + 1))).toNat
    used := 0 }

end Choices

end BoundedStore
