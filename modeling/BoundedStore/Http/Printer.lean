import BoundedStore.Command.Printer
import BoundedStore.Http.Router

/-!
# Bodies in JSON

Every body that is not empty is a JSON object. Two things in it are left to the sender: how the
share of hits is written, which is a fraction, and the time of a health check.
-/

namespace BoundedStore

def Report.toJson (writeRate : Float → Json) (r : Report) : Json :=
  .object [
    ("hits", .integer r.statistics.hits),
    ("misses", .integer r.statistics.misses),
    ("evictions", .integer r.statistics.evictions),
    ("total_entries", .integer r.statistics.entries),
    ("capacity", .integer r.capacity),
    ("hit_rate", writeRate r.hitRate)]

namespace Http

/-- The JSON of a body, `none` for the empty one. -/
def Body.toJson? (writeRate : Float → Json) (time : Json) : Body → Option Json
  | empty => none
  | reply r => some r.toJson
  | failure message => some (.object [("error", .text message)])
  | report r => some (r.toJson writeRate)
  | health => some (.object [("status", .text "healthy"), ("timestamp", time)])

end Http

end BoundedStore
