/-!
# Statistics

Counters of a store's activity, and the report that a client gets of them.
-/

namespace BoundedStore

/-- Counts of lookups, evictions and entries at one moment. -/
structure Statistics where
  /-- Lookups that found their key. -/
  hits : Nat
  /-- Lookups of a key that was not live. -/
  misses : Nat
  /-- Entries evicted to keep within the capacity. -/
  evictions : Nat
  entries : Nat
  deriving DecidableEq

namespace Statistics

def recordHit (s : Statistics) : Statistics :=
  { s with hits := s.hits + 1 }

def recordMiss (s : Statistics) : Statistics :=
  { s with misses := s.misses + 1 }

/-- The share of lookups that found their key; zero before the first lookup. Both counts are rounded
to a double before they are divided. -/
def hitRate (s : Statistics) : Float :=
  if s.hits + s.misses = 0 then 0.0
  else s.hits.toUInt64.toFloat / (s.hits + s.misses).toUInt64.toFloat

end Statistics

/-- The statistics as a client reads them, with the capacity of the store. -/
structure Report where
  statistics : Statistics
  capacity : Nat
  deriving DecidableEq

def Report.hitRate (r : Report) : Float :=
  r.statistics.hitRate

end BoundedStore
