import BoundedStore.Proofs.Bounded.Runs

/-!
# A larger map never does worse

Two maps of different capacities are put through the same operations. The smaller one may evict
where the larger one does not, so the two drift apart; but whatever the smaller one holds, the
larger one holds too, and the larger one has never evicted more.

## The invariant

Inclusion of the entries alone is not kept: an eviction has to take from the larger map a key that
the smaller one no longer holds, so the maps must agree on the order of the common keys. And the
larger map must not evict while the smaller one still has room, so it must have at least as many
free places. `Included` has both: the list of recency of the smaller map is a sublist of the larger
one's, and the free places compare (`slots`, written without subtraction).

When the larger map evicts, it is full; then the smaller one is full too, and both give up the heads
of their lists. When the smaller one evicts alone, it only loses a key. A key that only the larger
one holds moves to the end of its list, where the smaller list does not see it.
-/

namespace BoundedStore

namespace Bounded

variable {α : Type}

/-- Whatever the smaller map holds, the larger one holds too, in the same order of use, and it has
at least as many places left. -/
structure Included (small large : Bounded α) : Prop where
  small_valid : small.Valid
  large_valid : large.Valid
  order : small.recency.keys.Sublist large.recency.keys
  value_eq : ∀ key value, small.peek key = some value → large.peek key = some value
  slots : small.capacity + large.length ≤ large.capacity + small.length
  evictions_le : large.evictions ≤ small.evictions

variable {small large : Bounded α}

theorem Included.of_new {c₁ c₂ : Nat} (hle : c₁ ≤ c₂) (hsmall : new c₁ = .ok small)
    (hlarge : new c₂ = .ok large) : Included small large := by
  have hvalid₁ := Valid.of_new hsmall
  have hvalid₂ := Valid.of_new hlarge
  obtain ⟨-, rfl⟩ := new_eq_ok_iff.mp hsmall
  obtain ⟨-, rfl⟩ := new_eq_ok_iff.mp hlarge
  exact ⟨hvalid₁, hvalid₂, List.Sublist.refl _, fun key value h => h, hle, Nat.le_refl _⟩

theorem Included.contains (h : Included small large) {key : String}
    (hlive : small.contains key = true) : large.contains key = true := by
  obtain ⟨value, hpeek⟩ := Option.isSome_iff_exists.mp hlive
  exact contains_of_peek (h.value_eq key value hpeek)

theorem Included.absent (h : Included small large) {key : String}
    (habsent : large.contains key = false) : small.contains key = false := by
  by_contra hlive
  rw [h.contains (Bool.not_eq_false _ ▸ hlive)] at habsent
  cases habsent

/-! ## Lists of recency -/

/-- What a use does to both lists keeps one a sublist of the other. -/
theorem sublist_erase_append {first second : List String} (h : first.Sublist second)
    (key : String) : (first.erase key ++ [key]).Sublist (second.erase key ++ [key]) :=
  (h.erase key).append (List.Sublist.refl [key])

/-- So does a use of a key that only the second list has. -/
theorem sublist_erase_append_of_notMem {first second : List String} (h : first.Sublist second)
    {key : String} (hnot : key ∉ first) : first.Sublist (second.erase key ++ [key]) := by
  have herase : first.Sublist (second.erase key) := by
    have := h.erase key
    rwa [List.erase_of_not_mem hnot] at this
  exact herase.trans (List.sublist_append_left _ _)

/-! ## A use -/

theorem Included.use (h : Included small large) (key : String) :
    Included (small.use key) (large.use key) where
  small_valid := h.small_valid.use key
  large_valid := h.large_valid.use key
  order := by
    rcases small.live_or_absent key with hsmall | hsmall
    · -- both lists move the key to the end
      rw [h.small_valid.keys_use hsmall, h.large_valid.keys_use (h.contains hsmall)]
      exact sublist_erase_append h.order key
    · rw [use_of_absent hsmall]
      rcases large.live_or_absent key with hlarge | hlarge
      · -- the larger list moves a key that the smaller one does not have
        rw [h.large_valid.keys_use hlarge]
        exact sublist_erase_append_of_notMem h.order (h.small_valid.notMem_keys hsmall)
      · rw [use_of_absent hlarge]
        exact h.order
  value_eq := fun other value => by
    rw [peek_use, peek_use]
    exact h.value_eq other value
  slots := by
    rw [capacity_use, capacity_use, length_use, length_use]
    exact h.slots
  evictions_le := by
    rw [evictions_use, evictions_use]
    exact h.evictions_le

/-! ## A removal -/

theorem Included.remove (h : Included small large) (key : String) :
    Included (small.remove key).2 (large.remove key).2 where
  small_valid := h.small_valid.remove key
  large_valid := h.large_valid.remove key
  order := by
    rw [h.small_valid.keys_remove, h.large_valid.keys_remove]
    exact h.order.erase key
  value_eq := fun other value => by
    rw [h.small_valid.peek_remove, h.large_valid.peek_remove]
    by_cases hkey : key = other
    · simp [hkey]
    · simpa [hkey] using h.value_eq other value
  slots := by
    have hslots := h.slots
    rw [capacity_remove, capacity_remove]
    rcases small.live_or_absent key with hsmall | hsmall
    · have hshorter := length_remove hsmall
      have hshorter' := length_remove (h.contains hsmall)
      omega
    · rw [remove_of_absent hsmall]
      rcases large.live_or_absent key with hlarge | hlarge
      · have hshorter := length_remove hlarge
        show small.capacity + (large.remove key).2.length ≤ large.capacity + small.length
        omega
      · rw [remove_of_absent hlarge]
        exact hslots
  evictions_le := by
    rw [evictions_remove, evictions_remove]
    exact h.evictions_le

/-! ## A write -/

/-- The larger map makes room by an eviction only when the smaller one does. -/
theorem Included.full (h : Included small large) {key : String}
    (hlarge : large.contains key = false ∧ large.length = large.capacity) :
    small.contains key = false ∧ small.length = small.capacity := by
  have hslots := h.slots
  have hbound := h.small_valid.length_le
  exact ⟨h.absent hlarge.1, by omega⟩

theorem Included.order_makeRoom (h : Included small large) (key : String) :
    (small.makeRoom key).recency.keys.Sublist (large.makeRoom key).recency.keys := by
  rw [h.small_valid.keys_makeRoom, h.large_valid.keys_makeRoom]
  by_cases hlarge : large.contains key = false ∧ large.length = large.capacity
  · -- both give up their heads
    rw [if_pos hlarge, if_pos (h.full hlarge)]
    exact h.order.tail
  · rw [if_neg hlarge]
    by_cases hsmall : small.contains key = false ∧ small.length = small.capacity
    · -- the smaller map evicts alone
      rw [if_pos hsmall]
      exact (List.tail_sublist _).trans h.order
    · rw [if_neg hsmall]
      exact h.order

/-- A key that the smaller map still holds is still held by the larger one, since its place in the
list is kept. -/
theorem Included.value_makeRoom (h : Included small large) (key : String) {other : String}
    {value : α} (hpeek : (small.makeRoom key).peek other = some value) :
    (large.makeRoom key).peek other = some value := by
  have hlive : (small.makeRoom key).contains other = true := contains_of_peek hpeek
  have hmem : other ∈ (large.makeRoom key).recency.keys :=
    (h.order_makeRoom key).subset (((h.small_valid.makeRoom key).mem_keys_iff other).mpr hlive)
  have hlive' : (large.makeRoom key).contains other = true :=
    ((h.large_valid.makeRoom key).mem_keys_iff other).mp hmem
  rw [h.small_valid.peek_makeRoom hlive] at hpeek
  rw [h.large_valid.peek_makeRoom hlive']
  exact h.value_eq other value hpeek

theorem Included.insert (h : Included small large) (key : String) (value : α) :
    Included (small.insert key value) (large.insert key value) where
  small_valid := h.small_valid.insert key value
  large_valid := h.large_valid.insert key value
  order := by
    rw [insert_eq_place, insert_eq_place, (h.small_valid.makeRoom key).keys_place,
      (h.large_valid.makeRoom key).keys_place]
    exact sublist_erase_append (h.order_makeRoom key) key
  value_eq := fun other found => by
    rw [insert_eq_place, insert_eq_place, peek_place, peek_place]
    by_cases hkey : key = other
    · rw [if_pos hkey, if_pos hkey]
      exact id
    · rw [if_neg hkey, if_neg hkey]
      exact h.value_makeRoom key
  slots := by
    have hslots := h.slots
    have hbound := h.small_valid.length_le
    have hbound' := h.large_valid.length_le
    rw [capacity_insert, capacity_insert, h.small_valid.length_insert, h.large_valid.length_insert]
    rcases small.live_or_absent key with hsmall | hsmall
    · rw [if_pos hsmall, if_pos (h.contains hsmall)]
      exact hslots
    · -- the larger map may hold the key already, and then it does not grow
      have hnot : ¬ small.contains key = true := by simp [hsmall]
      rw [if_neg hnot]
      split <;> omega
  evictions_le := by
    have hle := h.evictions_le
    rw [h.small_valid.evictions_insert, h.large_valid.evictions_insert]
    by_cases hlarge : large.contains key = false ∧ large.length = large.capacity
    · rw [if_pos hlarge, if_pos (h.full hlarge)]
      omega
    · rw [if_neg hlarge]
      omega

/-- A write to a key that only the larger map holds passes the smaller one by. -/
theorem Included.insert_right (h : Included small large) {key : String} (value : α)
    (hsmall : small.contains key = false) (hlarge : large.contains key = true) :
    Included small (large.insert key value) := by
  have hinsert : large.insert key value = large.place key value :=
    insert_of_roomy value (Or.inl hlarge)
  exact {
    small_valid := h.small_valid
    large_valid := h.large_valid.insert key value
    order := by
      rw [hinsert, h.large_valid.keys_place]
      exact sublist_erase_append_of_notMem h.order (h.small_valid.notMem_keys hsmall)
    value_eq := fun other found hpeek => by
      -- what the smaller map finds is another key
      have hne : key ≠ other := by
        rintro rfl
        rw [contains_of_peek hpeek] at hsmall
        cases hsmall
      rw [hinsert, peek_place, if_neg hne]
      exact h.value_eq other found hpeek
    slots := by
      rw [capacity_insert, hinsert, length_place_of_live value hlarge]
      exact h.slots
    evictions_le := by
      rw [hinsert]
      exact h.evictions_le }

theorem Included.update (h : Included small large) (key : String) (change : α → α) :
    Included (small.update key change).2 (large.update key change).2 := by
  cases hsmall : small.peek key with
  | some value =>
    rw [snd_update_of_live change hsmall, snd_update_of_live change (h.value_eq key value hsmall)]
    exact h.insert key (change value)
  | none =>
    have habsent : small.contains key = false := (peek_eq_none_iff small key).mp hsmall
    rw [update_of_absent change habsent]
    cases hlarge : large.peek key with
    | some value =>
      rw [snd_update_of_live change hlarge]
      exact h.insert_right (change value) habsent (contains_of_peek hlarge)
    | none =>
      rw [update_of_absent change ((peek_eq_none_iff large key).mp hlarge)]
      exact h

/-! ## Runs -/

/-- What one map finds, the other finds too. -/
def Outcome.FoundBy : Outcome α → Outcome α → Prop
  | .value (some v), other => other = .value (some v)
  | .flag true, other => other = .flag true
  | _, _ => True

namespace Operation

theorem included_perform (h : Included small large) (op : Operation α) :
    Included (op.perform small).2 (op.perform large).2 := by
  cases op with
  | insert key value => exact h.insert key value
  | get key => exact h.use key
  | update key change => exact h.update key change
  | peek key => exact h
  | contains key => exact h
  | remove key => exact h.remove key

theorem foundBy_of_value_eq {first second : Option α}
    (h : ∀ value, first = some value → second = some value) :
    Outcome.FoundBy (.value first) (.value second) := by
  cases first with
  | none => trivial
  | some value => exact congrArg Outcome.value (h value rfl)

theorem foundBy_perform (h : Included small large) (op : Operation α) :
    Outcome.FoundBy (op.perform small).1 (op.perform large).1 := by
  cases op with
  | insert key value => trivial
  | get key => exact foundBy_of_value_eq (h.value_eq key)
  | peek key => exact foundBy_of_value_eq (h.value_eq key)
  | update key change =>
    show Outcome.FoundBy (.value (small.update key change).1) (.value (large.update key change).1)
    rw [fst_update, fst_update]
    exact foundBy_of_value_eq (h.value_eq key)
  | remove key =>
    show Outcome.FoundBy (.value (small.remove key).1) (.value (large.remove key).1)
    rw [fst_remove, fst_remove]
    exact foundBy_of_value_eq (h.value_eq key)
  | contains key =>
    show Outcome.FoundBy (.flag (small.contains key)) (.flag (large.contains key))
    cases hsmall : small.contains key with
    | false => trivial
    | true => rw [h.contains hsmall]; rfl

theorem included_run (h : Included small large) (ops : List (Operation α)) :
    Included (run small ops).2 (run large ops).2 ∧
      List.Forall₂ Outcome.FoundBy (run small ops).1 (run large ops).1 := by
  induction ops generalizing small large with
  | nil => exact ⟨h, .nil⟩
  | cons op rest ih =>
    obtain ⟨hlast, houtcomes⟩ := ih (included_perform h op)
    exact ⟨hlast, .cons (foundBy_perform h op) houtcomes⟩

/-- **A larger map never does worse.** Two maps that start empty with capacities `c₁ ≤ c₂` and go
through the same operations: at every moment the second holds whatever the first holds, with the
same value, it has found whatever the first has found, and it has evicted no more. -/
theorem run_inclusion {c₁ c₂ : Nat} (hpos : 1 ≤ c₁) (hle : c₁ ≤ c₂) (α : Type) :
    ∃ small large : Bounded α, new c₁ = .ok small ∧ new c₂ = .ok large ∧
      ∀ ops : List (Operation α),
        (∀ key value, (run small ops).2.peek key = some value →
          (run large ops).2.peek key = some value) ∧
        List.Forall₂ Outcome.FoundBy (run small ops).1 (run large ops).1 ∧
        (run large ops).2.evictions ≤ (run small ops).2.evictions := by
  have hsmall : new c₁ = .ok (⟨[], .empty, c₁, 0⟩ : Bounded α) :=
    new_eq_ok_iff.mpr ⟨hpos, rfl⟩
  have hlarge : new c₂ = .ok (⟨[], .empty, c₂, 0⟩ : Bounded α) :=
    new_eq_ok_iff.mpr ⟨Nat.le_trans hpos hle, rfl⟩
  refine ⟨_, _, hsmall, hlarge, fun ops => ?_⟩
  obtain ⟨hlast, houtcomes⟩ := included_run (Included.of_new hle hsmall hlarge) ops
  exact ⟨hlast.value_eq, houtcomes, hlast.evictions_le⟩

/-- With one place and with two: the third key pushes out the second one on both sides, after the
smaller map has lost the first one as well. -/
theorem run_inclusion_one_two :
    1 ≤ 1 ∧ 1 ≤ 2 ∧ ∃ small large : Bounded Nat, new 1 = .ok small ∧ new 2 = .ok large ∧
      (run small [.insert "a" 1, .insert "b" 2, .get "a", .insert "c" 3]).2.peek "c" = some 3 ∧
      (run large [.insert "a" 1, .insert "b" 2, .get "a", .insert "c" 3]).2.peek "c" = some 3 ∧
      (run large [.insert "a" 1, .insert "b" 2, .get "a", .insert "c" 3]).2.evictions ≤
        (run small [.insert "a" 1, .insert "b" 2, .get "a", .insert "c" 3]).2.evictions := by
  obtain ⟨small, large, hsmall, hlarge, hall⟩ :=
    run_inclusion (by decide : 1 ≤ 1) (by decide : 1 ≤ 2) Nat
  obtain ⟨hvalue, -, hevictions⟩ := hall [.insert "a" 1, .insert "b" 2, .get "a", .insert "c" 3]
  obtain ⟨-, rfl⟩ := new_eq_ok_iff.mp hsmall
  have hfound : (run ⟨[], .empty, 1, 0⟩
      [.insert "a" 1, .insert "b" 2, .get "a", .insert "c" 3]).2.peek "c" = some 3 := by
    decide
  exact ⟨by decide, by decide, _, large, hsmall, hlarge, hfound, hvalue "c" 3 hfound, hevictions⟩

end Operation

end Bounded

end BoundedStore
