import BoundedStore.Proofs.Bounded.Runs
import BoundedStore.Proofs.Store.Changes

/-!
# The map of a store is always valid

Every operation of a store is a list of changes of its map, and changes keep the map valid. So the
entries and the recency of a store agree at every moment of every run, whatever the operations
answer, and there is never an entry too many.
-/

namespace BoundedStore

open Bounded Bounded.Change

namespace Operation

/-- An operation keeps the map valid, also when it refuses or does nothing. -/
theorem valid_perform {s : Store} (h : s.map.Valid) (op : Operation) :
    (op.perform s).2.map.Valid := by
  rw [perform_map]
  exact h.applyAll (op.changes s)

theorem capacity_perform (s : Store) (op : Operation) :
    (op.perform s).2.map.capacity = s.map.capacity := by
  rw [perform_map, capacity_applyAll]

end Operation

namespace Store

theorem valid_of_new {capacity : Nat} {choices : Choices} {s : Store}
    (h : Store.new capacity choices = .ok s) : s.map.Valid :=
  Valid.of_new (map_of_new h)

theorem Reachable.valid {s : Store} (h : s.Reachable) : s.map.Valid :=
  h.of_invariant (fun _ _ _ => valid_of_new) fun _ op hvalid => Operation.valid_perform hvalid op

end Store

namespace Operation

theorem valid_run {s : Store} (h : s.map.Valid) (ops : List Operation) :
    (run s ops).2.map.Valid :=
  run_induction (P := fun s => s.map.Valid) (fun _ op hvalid => valid_perform hvalid op) h ops

theorem capacity_run (s : Store) (ops : List Operation) :
    (run s ops).2.map.capacity = s.map.capacity :=
  run_induction (P := fun t => t.map.capacity = s.map.capacity)
    (fun t op h => (capacity_perform t op).trans h) rfl ops

end Operation

/-- **The representation of a bounded store.** At the end of every run, of a store or of a bounded
map by itself, the map is valid: there are at most `capacity` entries, the recency has each live key
exactly once, its two tables are inverse to each other, and the clock is ahead of every stamp.
Therefore a write that finds the map full always evicts a live key, and keeps the bound. -/
theorem run_keeps_representation {capacity : Nat} (hpos : 1 ≤ capacity) :
    (∀ (choices : Choices) (ops : List Operation),
      ∃ start, Store.new capacity choices = .ok start ∧
        (Operation.run start ops).2.map.Valid ∧
        (Operation.run start ops).2.map.capacity = capacity ∧
        (Operation.run start ops).2.map.EvictionSucceeds) ∧
    ∀ (α : Type) (ops : List (Bounded.Operation α)),
      ∃ start, Bounded.new capacity = .ok start ∧
        (Bounded.Operation.run start ops).2.Valid ∧
        (Bounded.Operation.run start ops).2.capacity = capacity ∧
        (Bounded.Operation.run start ops).2.EvictionSucceeds := by
  constructor
  · intro choices ops
    have hnew : Store.new capacity choices = .ok ⟨⟨[], .empty, capacity, 0⟩, choices, 0, 0⟩ :=
      Store.new_eq_ok_iff.mpr ⟨hpos, rfl⟩
    have hvalid := Operation.valid_run (Store.valid_of_new hnew) ops
    exact ⟨_, hnew, hvalid, Operation.capacity_run _ ops, hvalid.evictionSucceeds⟩
  · intro α ops
    have hnew : Bounded.new capacity = .ok (⟨[], .empty, capacity, 0⟩ : Bounded α) :=
      Bounded.new_eq_ok_iff.mpr ⟨hpos, rfl⟩
    have hvalid := Bounded.Operation.valid_run (Valid.of_new hnew) ops
    exact ⟨_, hnew, hvalid, Bounded.Operation.capacity_run _ ops, hvalid.evictionSucceeds⟩

/-- A store of two that holds `a` and `b` is valid, and a third key evicts one of them. -/
theorem full_store_keeps_representation :
    1 ≤ 2 ∧ ∃ start, Store.new 2 ⟨fun _ => 0, 0⟩ = .ok start ∧
      ∃ full, full =
          (Operation.run start
            [.command (.store "a" (.text "x")), .command (.push .head "b" (.integer 7))]).2.map ∧
        full.Valid ∧ full.length = 2 ∧ (full.insert "c" (.integer 8)).length = 2 ∧
        (full.insert "c" (.integer 8)).evictions = 1 := by
  obtain ⟨start, hnew, hvalid, hcapacity, hsucceeds⟩ :=
    (run_keeps_representation (by decide : 1 ≤ 2)).1 ⟨fun _ => 0, 0⟩
      [.command (.store "a" (.text "x")), .command (.push .head "b" (.integer 7))]
  obtain ⟨-, rfl⟩ := Store.new_eq_ok_iff.mp hnew
  -- a third key finds the map full
  obtain ⟨victim, -, -, -, hcount, hlength⟩ :=
    hsucceeds "c" (.integer 8) (by decide) (by decide)
  exact ⟨by decide, _, hnew, _, rfl, hvalid, by decide, hlength, hcount⟩

end BoundedStore
