import BoundedStore.Proofs.Bounded.Changes

/-!
# Runs of a bounded map

`Operation` lists what can be asked of a bounded map by itself, and `Operation.run` performs a list
of such operations one after the other. Each comes down to at most one change of the map
(`snd_perform`), so a run keeps what the changes keep.
-/

namespace BoundedStore

namespace Bounded

variable {α : Type}

/-- Anything that can be asked of a bounded map. -/
inductive Operation (α : Type) where
  | insert (key : String) (value : α)
  | get (key : String)
  | update (key : String) (change : α → α)
  | peek (key : String)
  | contains (key : String)
  | remove (key : String)

/-- The result of an operation. -/
inductive Outcome (α : Type) where
  | done
  /-- A value, or that there is none. -/
  | value (v : Option α)
  | flag (b : Bool)
  deriving DecidableEq

namespace Operation

open Change

/-- One step of a run. -/
def perform (m : Bounded α) : Operation α → Outcome α × Bounded α
  | insert key value => (.done, m.insert key value)
  | get key => (.value (m.get key).1, (m.get key).2)
  | update key change => (.value (m.update key change).1, (m.update key change).2)
  | peek key => (.value (m.peek key), m)
  | contains key => (.flag (m.contains key), m)
  | remove key => (.value (m.remove key).1, (m.remove key).2)

/-- The outcomes of a run, one for each operation, and the map at its end. -/
def run (m : Bounded α) : List (Operation α) → List (Outcome α) × Bounded α
  | [] => ([], m)
  | op :: rest =>
    ((op.perform m).1 :: (run (op.perform m).2 rest).1, (run (op.perform m).2 rest).2)

/-- The change of the map that an operation makes, if it makes any. -/
def changes (m : Bounded α) : Operation α → List (Change α)
  | insert key value => [.write key value]
  | get key => [.use key]
  | update key change => ((m.peek key).map fun value => .write key (change value)).toList
  | remove key => [.remove key]
  | peek _ | contains _ => []

theorem snd_perform (m : Bounded α) (op : Operation α) :
    (op.perform m).2 = applyAll m (op.changes m) := by
  cases op with
  | insert | get | peek | contains | remove => rfl
  | update key change =>
    show (m.update key change).2 = applyAll m (changes m (.update key change))
    simp only [changes]
    cases hpeek : m.peek key with
    | none => rw [update_of_absent change ((peek_eq_none_iff m key).mp hpeek)]; rfl
    | some value => rw [snd_update_of_live change hpeek]; rfl

theorem valid_run {m : Bounded α} (h : m.Valid) (ops : List (Operation α)) :
    (run m ops).2.Valid := by
  induction ops generalizing m with
  | nil => exact h
  | cons op rest ih =>
    have hstep : (op.perform m).2.Valid := by
      rw [snd_perform]
      exact h.applyAll (op.changes m)
    exact ih hstep

theorem capacity_run (m : Bounded α) (ops : List (Operation α)) :
    (run m ops).2.capacity = m.capacity := by
  induction ops generalizing m with
  | nil => rfl
  | cons op rest ih =>
    have hstep : (op.perform m).2.capacity = m.capacity := by
      rw [snd_perform, capacity_applyAll]
    exact (ih (op.perform m).2).trans hstep

end Operation

/-! ## Eviction never fails -/

/-- Whatever new key is written into a full map, the recency gives up a live key, and that key's
entry makes room for it. -/
def EvictionSucceeds (m : Bounded α) : Prop :=
  ∀ key value, m.contains key = false → m.capacity ≤ m.length →
    ∃ victim, m.recency.evictOldest.1 = some victim ∧ m.contains victim = true ∧
      (m.insert key value).contains victim = false ∧
      (m.insert key value).evictions = m.evictions + 1 ∧
      (m.insert key value).length = m.capacity

theorem Valid.evictionSucceeds {m : Bounded α} (h : m.Valid) : m.EvictionSucceeds := by
  intro key value habsent hfull
  -- a valid map is never more than full
  have hexact : m.length = m.capacity := Nat.le_antisymm h.length_le hfull
  obtain ⟨victim, hdisplaces⟩ := h.insert_of_full value habsent hexact
  refine ⟨victim, ?_, hdisplaces.victim_live, ?_, hdisplaces.evictions_eq, ?_⟩
  · rw [h.consistent.evictOldest_of_keys_eq_cons hdisplaces.keys_eq_cons]
  · rw [contains_eq_isSome, hdisplaces.peek_eq, if_neg hdisplaces.victim_ne.symm, if_pos rfl]
    rfl
  · rw [hdisplaces.length_eq, hexact]

end Bounded

end BoundedStore
