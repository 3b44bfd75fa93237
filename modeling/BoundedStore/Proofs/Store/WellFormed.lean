import BoundedStore.Proofs.Store.Parts

/-!
# The values in a store are well-formed

A client can only send values that are well-formed: a text has no way to write a set, and a set that
is built member by member has no two that are the same. `Attained` stores are those that operations
on such values lead to. In all of them every value is well-formed, so that what holds of
well-formed members holds of every set that is ever stored.

To be well-formed is a condition by parts, so nothing has to be said here about single operations.
-/

namespace BoundedStore

/-! ## Well-formed operations and stores -/

/-- The values among the operands are well-formed. -/
def Command.WellFormed (c : Command) : Prop :=
  ∀ name v, (name, .value v) ∈ c.operands → v.WellFormed

/-- The values that an operation is given are well-formed. -/
def Operation.WellFormed : Operation → Prop
  | command c => c.WellFormed
  | contains _ | size | statistics => True

namespace Store

/-- Every value in the store is well-formed. -/
def WellFormed (s : Store) : Prop :=
  ∀ key v, s.find? key = some v → v.WellFormed

/-- The stores that a run of operations on well-formed values can lead to. -/
def Attained (s : Store) : Prop :=
  ∃ capacity choices start ops, (∀ op ∈ ops, op.WellFormed) ∧
    Store.new capacity choices = .ok start ∧ (Operation.run start ops).2 = s

theorem Attained.reachable {s : Store} (h : s.Attained) : s.Reachable := by
  obtain ⟨capacity, choices, start, ops, -, hnew, hrun⟩ := h
  exact ⟨capacity, choices, start, ops, hnew, hrun⟩

end Store

/-! ## Attained stores -/

theorem Value.WellFormed.coerce {v : Value} (h : v.WellFormed) : v.coerce.WellFormed := by
  cases v with
  | integer | list | set => exact h
  | text s =>
    simp only [Value.coerce]
    split <;> trivial

theorem Value.byParts_wellFormed : ByParts WellFormed WellFormed where
  list_iff := wellFormed_list_iff
  set_iff _ :=
    ⟨fun h => ⟨Members.wellFormed_of_set h, (Members.wellFormed_of_set h).values⟩, fun h => h.set⟩
  wellFormed _ h := h

theorem Operation.WellFormed.brings {op : Operation} (h : op.WellFormed) :
    op.Brings Value.WellFormed Value.WellFormed := by
  cases op with
  | command c => exact fun name v hgiven => ⟨h name v hgiven, (h name v hgiven).coerce⟩
  | contains | size | statistics => trivial

theorem Store.Attained.wellFormed {s : Store} (h : s.Attained) : s.WellFormed := by
  obtain ⟨capacity, choices, start, ops, hops, hnew, rfl⟩ := h
  exact Value.byParts_wellFormed.holds_run (Store.valid_of_new hnew) (Store.holds_of_new hnew)
    fun op hop => (hops op hop).brings

end BoundedStore
