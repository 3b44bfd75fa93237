import BoundedStore.Proofs.Recency

/-!
# A recency acts as a list that is moved to the back

Whoever only calls a `Recency` and looks at the answers cannot tell it from a list of keys: a use
moves the key to the back, forgetting takes it out, and eviction takes the front. The list is
`Call.onKeys`, and `calls_act_on_list` says that no sequence of calls from an empty recency tells
the two apart, up to the evictions at its end that leave nothing.

The step is `Lists.onRecency`: what a consistent recency and its list of keys make of one call. So a
stamp that is left behind by a use, a removal or an eviction would break the next step, and none
is.
-/

namespace BoundedStore

namespace Recency

/-! ## Calls -/

/-- What can be asked of a recency. -/
inductive Call where
  | touch (key : String)
  | remove (key : String)
  | evictOldest
  deriving DecidableEq

namespace Call

def isTouch : Call → Bool
  | touch _ => true
  | remove _ | evictOldest => false

/-- A call of a recency: the key that it gives up, if any, and the recency after it. -/
def onRecency (r : Recency) : Call → Option String × Recency
  | touch key => (none, r.touch key)
  | remove key => (none, r.remove key)
  | evictOldest => r.evictOldest

/-- The same call of a list of keys. -/
def onKeys (keys : List String) : Call → Option String × List String
  | touch key => (none, keys.erase key ++ [key])
  | remove key => (none, keys.erase key)
  | evictOldest => (keys.head?, keys.tail)

/-- The answers to calls that are made one after the other, and the state at the end. -/
def all {σ : Type} (step : σ → Call → Option String × σ) (s : σ) :
    List Call → List (Option String) × σ
  | [] => ([], s)
  | call :: rest =>
    let (answer, next) := step s call
    let (answers, last) := all step next rest
    (answer :: answers, last)

end Call

/-- Evicting until nothing is left gives up these keys, one after the other. -/
inductive Drains : Recency → List String → Prop
  | done {r next : Recency} (h : r.evictOldest = (none, next)) : Drains r []
  | evict {r next : Recency} {key : String} {keys : List String}
    (h : r.evictOldest = (some key, next)) (hrest : Drains next keys) : Drains r (key :: keys)

/-! ## One call -/

/-- The keys of a recency, with the tables behind them in order. -/
structure Lists (r : Recency) (keys : List String) : Prop where
  consistent : r.Consistent
  keys_eq : r.keys = keys

namespace Lists

theorem empty : Lists .empty [] := ⟨.empty, rfl⟩

variable {r : Recency} {keys : List String}

theorem nodup (h : Lists r keys) : keys.Nodup :=
  h.keys_eq ▸ h.consistent.nodup_keys

theorem length_eq (h : Lists r keys) : r.length = keys.length :=
  h.keys_eq ▸ h.consistent.length_eq

theorem evictOldest_of_cons {key : String} (h : Lists r (key :: keys)) :
    r.evictOldest = (some key, r.remove key) ∧ Lists (r.remove key) keys := by
  refine ⟨h.consistent.evictOldest_of_keys_eq_cons h.keys_eq, h.consistent.remove key, ?_⟩
  rw [h.consistent.keys_remove, h.keys_eq, List.erase_cons_head]

/-- Both sides answer a call alike, and the one still lists the other. -/
theorem onRecency (h : Lists r keys) (call : Call) :
    (call.onRecency r).1 = (call.onKeys keys).1 ∧
      Lists (call.onRecency r).2 (call.onKeys keys).2 := by
  cases call with
  | touch key => exact ⟨rfl, h.consistent.touch key, h.keys_eq ▸ h.consistent.keys_touch key⟩
  | remove key => exact ⟨rfl, h.consistent.remove key, h.keys_eq ▸ h.consistent.keys_remove key⟩
  | evictOldest =>
    show r.evictOldest.1 = keys.head? ∧ Lists r.evictOldest.2 keys.tail
    cases keys with
    | nil =>
      rw [evictOldest_of_keys_eq_nil h.keys_eq]
      exact ⟨rfl, h⟩
    | cons key rest =>
      obtain ⟨hevict, hrest⟩ := h.evictOldest_of_cons
      rw [hevict]
      exact ⟨rfl, hrest⟩

/-! ## Many calls -/

theorem all (h : Lists r keys) (calls : List Call) :
    (Call.all Call.onRecency r calls).1 = (Call.all Call.onKeys keys calls).1 ∧
      Lists (Call.all Call.onRecency r calls).2 (Call.all Call.onKeys keys calls).2 := by
  induction calls generalizing r keys with
  | nil => exact ⟨rfl, h⟩
  | cons call rest ih =>
    obtain ⟨hanswer, hnext⟩ := h.onRecency call
    obtain ⟨hanswers, hlast⟩ := ih hnext
    exact ⟨congrArg₂ List.cons hanswer hanswers, hlast⟩

/-- What is drained is the list, all of it and nothing else. -/
theorem drains_iff (h : Lists r keys) (given : List String) : r.Drains given ↔ given = keys := by
  induction keys generalizing r given with
  | nil =>
    have hevict := evictOldest_of_keys_eq_nil h.keys_eq
    constructor
    · intro hdrains
      cases hdrains with
      | done => rfl
      | evict hsome =>
        rw [hevict] at hsome
        cases hsome
    · rintro rfl
      exact .done hevict
  | cons key rest ih =>
    obtain ⟨hevict, hrest⟩ := h.evictOldest_of_cons
    constructor
    · intro hdrains
      cases hdrains with
      | done hnone =>
        rw [hevict] at hnone
        cases hnone
      | evict hsome hothers =>
        obtain ⟨rfl, rfl⟩ : key = _ ∧ r.remove key = _ := by simpa [hevict] using hsome
        rw [(ih hrest _).mp hothers]
    · rintro rfl
      exact .evict hevict ((ih hrest rest).mpr rfl)

end Lists

/-! ## The clock -/

theorem clock_onRecency (r : Recency) (call : Call) :
    (call.onRecency r).2.clock = r.clock + call.isTouch.toNat := by
  cases call with
  | touch key => rfl
  | remove key => exact clock_remove r key
  | evictOldest =>
    show r.evictOldest.2.clock = r.clock
    unfold evictOldest
    split <;> rfl

/-- Only a use takes a tick of the clock. -/
theorem clock_all (r : Recency) (calls : List Call) :
    (Call.all Call.onRecency r calls).2.clock = r.clock + calls.countP Call.isTouch := by
  induction calls generalizing r with
  | nil => rfl
  | cons call rest ih =>
    have hrest := ih (call.onRecency r).2
    rw [clock_onRecency, Nat.add_assoc] at hrest
    refine hrest.trans (congrArg (r.clock + ·) ?_)
    rw [List.countP_cons, Nat.add_comm]
    cases call.isTouch <;> rfl

/-! ## From an empty recency -/

/-- After some calls from the start, a recency and the list of keys cannot be told apart. -/
structure ActsAsList (calls : List Call) (r : Recency) (keys : List String) : Prop where
  /-- No key is on the list twice. -/
  nodup : keys.Nodup
  /-- There are as many keys. -/
  length_eq : r.length = keys.length
  /-- Eviction goes on for as long as there are keys, and gives up the list in its order. -/
  drains_iff : ∀ given, r.Drains given ↔ given = keys
  /-- The clock counts the uses, so that it stays a 64-bit word for fewer uses than there are
  such words. -/
  clock_eq : r.clock = calls.countP Call.isTouch

/-- **A recency is a list of keys that are moved to the back.** Whatever it is called for, each call
is answered as the list answers it, and what is left is what is on the list. -/
theorem calls_act_on_list (calls : List Call) :
    (Call.all Call.onRecency .empty calls).1 = (Call.all Call.onKeys [] calls).1 ∧
      ActsAsList calls (Call.all Call.onRecency .empty calls).2
        (Call.all Call.onKeys [] calls).2 := by
  obtain ⟨hanswers, hlists⟩ := Lists.empty.all calls
  refine ⟨hanswers, hlists.nodup, hlists.length_eq, hlists.drains_iff, ?_⟩
  rw [clock_all]
  exact Nat.zero_add _

/-- An evicted key that comes back is a new one, at the back of the list. -/
example : (Call.all Call.onKeys [] [.touch "a", .touch "b", .touch "a", .evictOldest, .touch "b",
    .remove "c", .evictOldest, .evictOldest, .evictOldest]).1 =
      [none, none, none, some "b", none, none, some "a", some "b", none] := by decide

end Recency

end BoundedStore
