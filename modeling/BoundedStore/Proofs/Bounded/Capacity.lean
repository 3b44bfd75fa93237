import BoundedStore.Proofs.Bounded.Changes

/-!
# Maps of another capacity

The capacity is looked at in one place, where a new key needs room. So changes that evict nothing
are the same changes in a map of any greater capacity (`Valid.applyAll_withCapacity`). The count of
evictions never goes down, so that a count which has not changed in the end has not changed on the
way.
-/

namespace BoundedStore

namespace Bounded

open Change

variable {α : Type} {m : Bounded α}

/-- The same map, but of another capacity. -/
def withCapacity (m : Bounded α) (capacity : Nat) : Bounded α :=
  { m with capacity }

/-! ## Evictions are counted up -/

theorem Valid.evictions_le_apply (h : m.Valid) (change : Change α) :
    m.evictions ≤ (change.apply m).evictions := by
  cases change with
  | use key => exact Nat.le_of_eq (evictions_use m key).symm
  | write key value => exact (h.evictions_insert key value).symm ▸ Nat.le_add_right _ _
  | remove key => exact Nat.le_of_eq (evictions_remove m key).symm

theorem Valid.evictions_le_applyAll (h : m.Valid) (changes : List (Change α)) :
    m.evictions ≤ (Change.applyAll m changes).evictions := by
  induction changes generalizing m with
  | nil => exact Nat.le_refl _
  | cons change rest ih => exact Nat.le_trans (h.evictions_le_apply change) (ih (h.apply change))

/-! ## Changes of a map of greater capacity -/

theorem use_withCapacity (m : Bounded α) (capacity : Nat) (key : String) :
    (m.withCapacity capacity).use key = (m.use key).withCapacity capacity := by
  have hlive : (m.withCapacity capacity).contains key = m.contains key := rfl
  unfold use
  rw [hlive]
  split <;> rfl

theorem remove_withCapacity (m : Bounded α) (capacity : Nat) (key : String) :
    ((m.withCapacity capacity).remove key).2 = (m.remove key).2.withCapacity capacity := by
  have hpeek : (m.withCapacity capacity).peek key = m.peek key := rfl
  unfold remove
  rw [hpeek]
  cases m.peek key <;> rfl

/-- A write that evicts nothing found room, and finds it in a greater capacity as well. -/
theorem Valid.insert_withCapacity (h : m.Valid) {capacity : Nat} (hle : m.capacity ≤ capacity)
    {key : String} {value : α} (hcount : (m.insert key value).evictions = m.evictions) :
    (m.withCapacity capacity).insert key value = (m.insert key value).withCapacity capacity := by
  have hroomy : m.contains key = true ∨ m.length < m.capacity := by
    rw [h.evictions_insert] at hcount
    have hnot : ¬ (m.contains key = false ∧ m.length = m.capacity) := fun hfull => by
      rw [if_pos hfull] at hcount
      omega
    rcases m.live_or_absent key with hlive | habsent
    · exact Or.inl hlive
    · exact Or.inr (Nat.lt_of_le_of_ne h.length_le fun hfull => hnot ⟨habsent, hfull⟩)
  have hroomy' : (m.withCapacity capacity).contains key = true ∨
      (m.withCapacity capacity).length < (m.withCapacity capacity).capacity :=
    hroomy.imp_right fun hroom => Nat.lt_of_lt_of_le hroom hle
  rw [insert_of_roomy value hroomy, insert_of_roomy value hroomy']
  rfl

theorem Valid.apply_withCapacity (h : m.Valid) {capacity : Nat} (hle : m.capacity ≤ capacity)
    {change : Change α} (hcount : (change.apply m).evictions = m.evictions) :
    change.apply (m.withCapacity capacity) = (change.apply m).withCapacity capacity := by
  cases change with
  | use key => exact use_withCapacity m capacity key
  | write key value => exact h.insert_withCapacity hle hcount
  | remove key => exact remove_withCapacity m capacity key

/-- Changes that evict nothing are the same in a map of greater capacity. -/
theorem Valid.applyAll_withCapacity (h : m.Valid) {capacity : Nat} (hle : m.capacity ≤ capacity)
    {changes : List (Change α)} (hcount : (Change.applyAll m changes).evictions = m.evictions) :
    Change.applyAll (m.withCapacity capacity) changes =
      (Change.applyAll m changes).withCapacity capacity := by
  induction changes generalizing m with
  | nil => rfl
  | cons change rest ih =>
    have hnext := h.apply change
    rw [applyAll_cons] at hcount
    -- the count stands still over the first change and over the rest
    have hfirst : (change.apply m).evictions = m.evictions :=
      Nat.le_antisymm (hcount ▸ hnext.evictions_le_applyAll rest) (h.evictions_le_apply change)
    rw [applyAll_cons, applyAll_cons, h.apply_withCapacity hle hfirst]
    exact ih hnext (by rw [capacity_apply]; exact hle) (hcount.trans hfirst.symm)

end Bounded

end BoundedStore
