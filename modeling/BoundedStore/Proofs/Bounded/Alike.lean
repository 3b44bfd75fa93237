import BoundedStore.Proofs.Bounded.Changes

/-!
# Maps that are alike

Two bounded maps are alike under a relation between values if they have the same capacity, the same
keys in the same order of use, and at each key values that the relation holds of. The relation may
depend on the key, and the values need not be of one type.

What comes and what goes in a map does not depend on the values in it. So the same changes, with
values that are related, keep maps alike (`Alike.applyAll`): when one of them evicts a key, the
other one evicts it as well, and counts it (`Alike.evictions_applyAll`).
-/

namespace BoundedStore

namespace Bounded

open Change

variable {α β : Type} {R : String → α → β → Prop} {m : Bounded α} {n : Bounded β}

/-- Two maps that differ in related values only. -/
structure Alike (R : String → α → β → Prop) (m : Bounded α) (n : Bounded β) : Prop where
  valid_left : m.Valid
  valid_right : n.Valid
  peek_rel : ∀ key, Option.Rel (R key) (m.peek key) (n.peek key)
  keys_eq : n.recency.keys = m.recency.keys
  capacity_eq : n.capacity = m.capacity

namespace Alike

/-- A key is absent from both maps, or it has related values in them. -/
theorem absent_or_live (h : Alike R m n) (key : String) :
    (m.peek key = none ∧ n.peek key = none) ∨
      ∃ v w, m.peek key = some v ∧ n.peek key = some w ∧ R key v w := by
  have hrel := h.peek_rel key
  generalize m.peek key = found, n.peek key = found' at hrel ⊢
  cases hrel with
  | none => exact Or.inl ⟨rfl, rfl⟩
  | some hvalue => exact Or.inr ⟨_, _, rfl, rfl, hvalue⟩

theorem contains_eq (h : Alike R m n) (key : String) : n.contains key = m.contains key := by
  rw [contains_eq_isSome, contains_eq_isSome]
  rcases h.absent_or_live key with ⟨hm, hn⟩ | ⟨v, w, hm, hn, -⟩
  all_goals
    rw [hm, hn]
    rfl

theorem length_eq (h : Alike R m n) : n.length = m.length := by
  rw [h.valid_right.length_eq, h.valid_left.length_eq, h.keys_eq]

/-! ## One change -/

theorem use (h : Alike R m n) (key : String) : Alike R (m.use key) (n.use key) where
  valid_left := h.valid_left.use key
  valid_right := h.valid_right.use key
  peek_rel other := by
    rw [peek_use, peek_use]
    exact h.peek_rel other
  keys_eq := by
    have hlive_eq := h.contains_eq key
    rcases m.live_or_absent key with hlive | habsent
    · rw [h.valid_left.keys_use hlive, h.valid_right.keys_use (hlive_eq.trans hlive), h.keys_eq]
    · rw [use_of_absent habsent, use_of_absent (hlive_eq.trans habsent), h.keys_eq]
  capacity_eq := by rw [capacity_use, capacity_use, h.capacity_eq]

theorem remove (h : Alike R m n) (key : String) : Alike R (m.remove key).2 (n.remove key).2 where
  valid_left := h.valid_left.remove key
  valid_right := h.valid_right.remove key
  peek_rel other := by
    rw [h.valid_left.peek_remove, h.valid_right.peek_remove]
    by_cases hother : key = other
    · rw [if_pos hother, if_pos hother]
      exact .none
    · rw [if_neg hother, if_neg hother]
      exact h.peek_rel other
  keys_eq := by rw [h.valid_left.keys_remove, h.valid_right.keys_remove, h.keys_eq]
  capacity_eq := by rw [capacity_remove, capacity_remove, h.capacity_eq]

/-- The count of evictions does not matter. -/
theorem withEvictions (h : Alike R m n) (first second : Nat) :
    Alike R { m with evictions := first } { n with evictions := second } :=
  ⟨h.valid_left.withEvictions first, h.valid_right.withEvictions second, h.peek_rel, h.keys_eq,
    h.capacity_eq⟩

/-- Alike maps have room for a key both or neither, and where they have none the same key goes. -/
theorem makeRoom (h : Alike R m n) (key : String) : Alike R (m.makeRoom key) (n.makeRoom key) := by
  have hlive_eq := h.contains_eq key
  have hlength := h.length_eq
  have hcapacity := h.capacity_eq
  rcases h.valid_left.makeRoom_cases key with
    ⟨hroomy, hroom⟩ | ⟨habsent, hfull, victim, others, hkeys, hroom⟩
  · have hroomy' : n.contains key = true ∨ n.length < n.capacity := by
      rw [hlive_eq, hlength, hcapacity]
      exact hroomy
    rw [hroom, makeRoom_of_roomy hroomy']
    exact h
  · rcases h.valid_right.makeRoom_cases key with
      ⟨hroomy', -⟩ | ⟨-, -, victim', others', hkeys', hroom'⟩
    · rw [hlive_eq, habsent, hlength, hcapacity, hfull] at hroomy'
      simp at hroomy'
    · -- both are full, and the same key has not been used for longest
      obtain ⟨rfl, -⟩ := List.cons.inj (hkeys'.symm.trans (h.keys_eq.trans hkeys))
      rw [hroom, hroom']
      exact (h.remove victim').withEvictions _ _

theorem insert (h : Alike R m n) {key : String} {v : α} {w : β} (hvalue : R key v w) :
    Alike R (m.insert key v) (n.insert key w) where
  valid_left := h.valid_left.insert key v
  valid_right := h.valid_right.insert key w
  peek_rel other := by
    rw [insert_eq_place, insert_eq_place, peek_place, peek_place]
    by_cases hother : key = other
    · rw [if_pos hother, if_pos hother]
      exact .some (hother ▸ hvalue)
    · rw [if_neg hother, if_neg hother]
      exact (h.makeRoom key).peek_rel other
  keys_eq := by
    have hroom := h.makeRoom key
    rw [insert_eq_place, insert_eq_place, hroom.valid_left.keys_place, hroom.valid_right.keys_place,
      hroom.keys_eq]
  capacity_eq := by rw [capacity_insert, capacity_insert, h.capacity_eq]

end Alike

/-! ## Another value -/

/-- The map with another value at a live key, without a use of the key. -/
def overwrite (m : Bounded α) (key : String) (value : α) : Bounded α :=
  { m with entries := m.entries.put key value }

theorem peek_overwrite (m : Bounded α) (key other : String) (value : α) :
    (m.overwrite key value).peek other = if key = other then some value else m.peek other :=
  Table.find?_put m.entries key other value

theorem Valid.overwrite (h : m.Valid) {key : String} (value : α) (hlive : m.contains key = true) :
    (m.overwrite key value).Valid where
  nodup_entries := Table.nodup_keys_put key value h.nodup_entries
  consistent := h.consistent
  tracked := fun other => by
    have hmem : key ∈ m.entries.keys := (contains_iff_mem_entries m key).mp hlive
    show other ∈ m.recency.stamps.keys ↔ other ∈ (m.entries.put key value).keys
    rw [Table.keys_put_of_mem value hmem, h.tracked]
  length_le := by
    have hsame : (m.overwrite key value).length = m.length := length_place_of_live value hlive
    rw [hsame]
    exact h.length_le
  capacity_pos := h.capacity_pos

/-! ## Alike changes -/

/-- Two changes that differ in related values only. -/
inductive Change.Alike (R : String → α → β → Prop) : Change α → Change β → Prop
  | use (key : String) : Alike R (.use key) (.use key)
  | write {key : String} {v : α} {w : β} (h : R key v w) : Alike R (.write key v) (.write key w)
  | remove (key : String) : Alike R (.remove key) (.remove key)

namespace Alike

theorem apply (h : Alike R m n) {change : Change α} {change' : Change β}
    (hchange : Change.Alike R change change') : Alike R (change.apply m) (change'.apply n) := by
  cases hchange with
  | use key => exact h.use key
  | write hvalue => exact h.insert hvalue
  | remove key => exact h.remove key

theorem applyAll (h : Alike R m n) {changes : List (Change α)} {changes' : List (Change β)}
    (hchanges : List.Forall₂ (Change.Alike R) changes changes') :
    Alike R (Change.applyAll m changes) (Change.applyAll n changes') := by
  induction hchanges generalizing m n with
  | nil => exact h
  | cons hfirst _ ih => exact ih (h.apply hfirst)

/-! ## Evictions -/

/-- Alike maps evict at the same time. -/
theorem evictions_apply (h : Alike R m n) {change : Change α} {change' : Change β}
    (hchange : Change.Alike R change change') (hequal : n.evictions = m.evictions) :
    (change'.apply n).evictions = (change.apply m).evictions := by
  cases hchange with
  | use key => simpa [Change.apply] using hequal
  | remove key => simpa [Change.apply] using hequal
  | @write key v w _ =>
    show (n.insert key w).evictions = (m.insert key v).evictions
    rw [h.valid_right.evictions_insert, h.valid_left.evictions_insert, h.contains_eq, h.length_eq,
      h.capacity_eq, hequal]

theorem evictions_applyAll (h : Alike R m n) {changes : List (Change α)}
    {changes' : List (Change β)} (hchanges : List.Forall₂ (Change.Alike R) changes changes')
    (hequal : n.evictions = m.evictions) :
    (Change.applyAll n changes').evictions = (Change.applyAll m changes).evictions := by
  induction hchanges generalizing m n with
  | nil => exact hequal
  | cons hfirst _ ih => exact ih (h.apply hfirst) (h.evictions_apply hfirst hequal)

end Alike

end Bounded

end BoundedStore
