import BoundedStore.Command.Outcome
import BoundedStore.Proofs.Bounded.Insert
import BoundedStore.Proofs.Store.Kinds

/-!
# Stores, lookups and runs

What the other modules on stores build on: how a lookup fares under a use and a write, what storing
a combination of sets comes to, and that a run of operations is its steps one after the other.
`Reachable` stores are those at the end of some run from a new store; what every step keeps holds of
all of them (`Reachable.of_invariant`).
-/

namespace BoundedStore

namespace Store

/-! ## A new store -/

/-- A store is made exactly when its capacity is not zero, and then it is empty. -/
theorem new_eq_ok_iff {capacity : Nat} {choices : Choices} {s : Store} :
    Store.new capacity choices = .ok s ↔
      1 ≤ capacity ∧ s = ⟨⟨[], .empty, capacity, 0⟩, choices, 0, 0⟩ := by
  unfold Store.new Bounded.new
  by_cases h : capacity = 0
  · simp [h, Except.map]
  · have hpos : 1 ≤ capacity := by omega
    simp [h, hpos, Except.map, eq_comm]

theorem map_of_new {capacity : Nat} {choices : Choices} {s : Store}
    (h : Store.new capacity choices = .ok s) : Bounded.new capacity = .ok s.map := by
  obtain ⟨hpos, rfl⟩ := new_eq_ok_iff.mp h
  exact Bounded.new_eq_ok_iff.mpr ⟨hpos, rfl⟩

/-! ## Lookups -/

theorem contains_eq_isSome (s : Store) (key : String) :
    s.contains key = (s.find? key).isSome := rfl

theorem contains_of_find? {s : Store} {key : String} {value : Value}
    (h : s.find? key = some value) : s.contains key = true :=
  Bounded.contains_of_peek h

theorem find?_eq_none_iff (s : Store) (key : String) :
    s.find? key = none ↔ s.contains key = false :=
  Bounded.peek_eq_none_iff s.map key

theorem contains_congr {s t : Store} {key : String} (h : s.find? key = t.find? key) :
    s.contains key = t.contains key :=
  Bounded.contains_congr h

@[simp] theorem find?_use (s : Store) (key other : String) :
    (s.use key).find? other = s.find? other :=
  Bounded.peek_use s.map key other

@[simp] theorem contains_use (s : Store) (key other : String) :
    (s.use key).contains other = s.contains other :=
  Bounded.contains_use s.map key other

@[simp] theorem map_write (s : Store) (key : String) (value : Value) :
    (s.write key value).map = s.map.insert key value := rfl

theorem use_of_absent {s : Store} {key : String} (h : s.find? key = none) : s.use key = s := by
  have habsent : s.map.contains key = false := (find?_eq_none_iff s key).mp h
  unfold use
  rw [Bounded.use_of_absent habsent]

theorem find?_write_self (s : Store) (key : String) (value : Value) :
    (s.write key value).find? key = some value := by
  unfold find? write
  rw [Bounded.insert_eq_place, Bounded.peek_place, if_pos rfl]

/-- Overwriting the value of a live key leaves every other key alone. -/
theorem find?_write_of_live {s : Store} {key : String} (value : Value) (other : String)
    (h : s.contains key = true) :
    (s.write key value).find? other = if key = other then some value else s.find? other := by
  have hlive : s.map.contains key = true := h
  show (s.map.insert key value).peek other = _
  rw [Bounded.insert_of_roomy value (Or.inl hlive)]
  exact Bounded.peek_place s.map key other value

theorem fst_remove (s : Store) (key : String) :
    (s.remove key).1 = if s.contains key then .ok () else .error (.nonExistentKey key) := by
  rw [contains_eq_isSome]
  unfold remove Bounded.remove find?
  cases s.map.peek key <;> rfl

/-! ## Uses of several keys -/

@[simp] theorem map_useAll (s : Store) (keys : List String) :
    (s.useAll keys).map = keys.foldl Bounded.use s.map := by
  unfold useAll
  induction keys generalizing s with
  | nil => rfl
  | cons key rest ih => exact ih (s.use key)

/-! ## Storing a combination -/

section CombineInto

variable {s : Store} {sources : List String} (algebra : Algebra) (destination : String)

/-- When every source can be taken as a set, the combination is written. -/
theorem combineInto_of_ok {sets : List (Option Members)} (h : s.setsAt sources = .ok sets) :
    s.combineInto algebra (destination :: sources) =
      (.ok (algebra.combine sets).length,
        (s.useAll sources).write destination (.set (algebra.combine sets))) := by
  simp [combineInto, combine, h, Except.map]

/-- When a source is refused, nothing is written. -/
theorem combineInto_of_error {e : StoreError} (h : s.setsAt sources = .error e) :
    s.combineInto algebra (destination :: sources) = (.error e, s.useAll sources) := by
  simp [combineInto, combine, h, Except.map]

end CombineInto

end Store

/-! ## Runs -/

namespace Operation

/-- A run of two parts goes on with the second where the first ends. -/
theorem snd_run_append (s : Store) (first second : List Operation) :
    (run s (first ++ second)).2 = (run (run s first).2 second).2 := by
  induction first generalizing s with
  | nil => rfl
  | cons op rest ih => exact ih (op.perform s).2

theorem fst_perform_remove (s : Store) (key : String) :
    (perform s (.command (.remove key))).1 =
      if s.contains key then .done else .refused (.nonExistentKey key) := by
  show Outcome.orRefused _ (s.remove key).1 = _
  rw [s.fst_remove]
  cases s.contains key <;> rfl

/-- What was asked for in a run and what was answered. -/
def trace (s : Store) (ops : List Operation) : List (Operation × Outcome) :=
  ops.zip (run s ops).1

theorem trace_cons (s : Store) (op : Operation) (rest : List Operation) :
    trace s (op :: rest) = (op, (op.perform s).1) :: trace (op.perform s).2 rest := rfl

theorem run_induction {P : Store → Prop}
    (hstep : ∀ s op, P s → P (Operation.perform s op).2) {s : Store} (h : P s)
    (ops : List Operation) : P (run s ops).2 := by
  induction ops generalizing s with
  | nil => exact h
  | cons op rest ih => exact ih (hstep s op h)

end Operation

namespace Store

/-- The stores that a run of operations from a new store can lead to. -/
def Reachable (s : Store) : Prop :=
  ∃ capacity choices start ops,
    Store.new capacity choices = .ok start ∧ (Operation.run start ops).2 = s

theorem reachable_run {capacity : Nat} (hpos : 1 ≤ capacity) (choices : Choices)
    (ops : List Operation) :
    Reachable (Operation.run ⟨⟨[], .empty, capacity, 0⟩, choices, 0, 0⟩ ops).2 :=
  ⟨capacity, choices, _, ops, new_eq_ok_iff.mpr ⟨hpos, rfl⟩, rfl⟩

/-- What holds of a new store and is kept by every step holds of every reachable store. -/
theorem Reachable.of_invariant {P : Store → Prop}
    (hnew : ∀ capacity choices s, Store.new capacity choices = .ok s → P s)
    (hstep : ∀ s op, P s → P (Operation.perform s op).2) {s : Store} (h : s.Reachable) : P s := by
  obtain ⟨capacity, choices, start, ops, hstart, rfl⟩ := h
  exact Operation.run_induction hstep (hnew capacity choices start hstart) ops

end Store

end BoundedStore
