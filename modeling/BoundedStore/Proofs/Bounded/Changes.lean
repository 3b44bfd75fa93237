import BoundedStore.Proofs.Bounded.Insert

/-!
# Changes of a bounded map

Whatever is done to a bounded map, by its own operations or by those of a store, comes down to three
changes: a key is used, a value is written, a key is removed. What is proved here about one change,
and then about a list of them, holds of every operation that is such a list.

* `Valid.applyAll`: changes keep the map valid, so eviction never fails on the way.
* `QuietAll`: the changes that make no key live and none absent. They may reorder the keys by use
  and overwrite values, and they keep the size and the count of evictions.
* `IdleAll`: the changes that find the entries as they would leave them. They only reorder the keys
  by use.
-/

namespace BoundedStore

namespace Bounded

variable {α : Type}

/-- One change of a bounded map. -/
inductive Change (α : Type) where
  | use (key : String)
  | write (key : String) (value : α)
  | remove (key : String)

namespace Change

/-- The map after one change. -/
def apply (m : Bounded α) : Change α → Bounded α
  | use key => m.use key
  | write key value => m.insert key value
  | remove key => (m.remove key).2

/-- The map after a list of changes, one after the other. -/
def applyAll (m : Bounded α) (changes : List (Change α)) : Bounded α :=
  changes.foldl apply m

@[simp] theorem applyAll_nil (m : Bounded α) : applyAll m [] = m := rfl

@[simp] theorem applyAll_cons (m : Bounded α) (change : Change α) (rest : List (Change α)) :
    applyAll m (change :: rest) = applyAll (change.apply m) rest := rfl

theorem applyAll_append (m : Bounded α) (first second : List (Change α)) :
    applyAll m (first ++ second) = applyAll (applyAll m first) second :=
  List.foldl_append

theorem applyAll_use (m : Bounded α) (keys : List String) :
    applyAll m (keys.map use) = keys.foldl Bounded.use m := by
  unfold applyAll
  rw [List.foldl_map]
  rfl

end Change

open Change

/-! ## Validity -/

theorem Valid.apply {m : Bounded α} (h : m.Valid) (change : Change α) :
    (change.apply m).Valid := by
  cases change with
  | use key => exact h.use key
  | write key value => exact h.insert key value
  | remove key => exact h.remove key

theorem Valid.applyAll {m : Bounded α} (h : m.Valid) (changes : List (Change α)) :
    (applyAll m changes).Valid := by
  induction changes generalizing m with
  | nil => exact h
  | cons change rest ih => exact ih (h.apply change)

theorem Change.capacity_apply (m : Bounded α) (change : Change α) :
    (change.apply m).capacity = m.capacity := by
  cases change with
  | use key => exact capacity_use m key
  | write key value => exact capacity_insert m key value
  | remove key => exact capacity_remove m key

theorem Change.capacity_applyAll (m : Bounded α) (changes : List (Change α)) :
    (applyAll m changes).capacity = m.capacity := by
  induction changes generalizing m with
  | nil => rfl
  | cons change rest ih => rw [applyAll_cons, ih, capacity_apply]

/-! ## Quiet changes -/

/-- A change after which the same keys are live: a use, or a write to a live key. -/
def Quiet (m : Bounded α) : Change α → Prop
  | .use _ => True
  | .write key _ => m.contains key = true
  | .remove _ => False

/-- Changes that are quiet one after the other. -/
def QuietAll (m : Bounded α) : List (Change α) → Prop
  | [] => True
  | change :: rest => m.Quiet change ∧ QuietAll (change.apply m) rest

/-- Two maps that differ at most in the order of use and in the values of live keys. -/
structure SameKeys (m n : Bounded α) : Prop where
  contains_eq : ∀ key, n.contains key = m.contains key
  length_eq : n.length = m.length
  evictions_eq : n.evictions = m.evictions

theorem SameKeys.refl (m : Bounded α) : SameKeys m m := ⟨fun _ => rfl, rfl, rfl⟩

theorem SameKeys.trans {m n o : Bounded α} (h : SameKeys m n) (h' : SameKeys n o) :
    SameKeys m o where
  contains_eq key := (h'.contains_eq key).trans (h.contains_eq key)
  length_eq := h'.length_eq.trans h.length_eq
  evictions_eq := h'.evictions_eq.trans h.evictions_eq

theorem Quiet.sameKeys {m : Bounded α} {change : Change α} (h : m.Quiet change) :
    SameKeys m (change.apply m) := by
  cases change with
  | use key => exact ⟨contains_use m key, length_use m key, evictions_use m key⟩
  | write key value =>
    have hlive : m.contains key = true := h
    show SameKeys m (m.insert key value)
    rw [insert_of_roomy value (Or.inl hlive)]
    refine ⟨fun other => ?_, length_place_of_live value hlive, rfl⟩
    rw [contains_eq_isSome, peek_place]
    by_cases hkey : key = other
    · rw [if_pos hkey, ← hkey, hlive]
      rfl
    · rw [if_neg hkey, contains_eq_isSome]
  | remove key => exact h.elim

theorem QuietAll.sameKeys {m : Bounded α} {changes : List (Change α)} (h : m.QuietAll changes) :
    SameKeys m (applyAll m changes) := by
  induction changes generalizing m with
  | nil => exact SameKeys.refl m
  | cons change rest ih => exact h.1.sameKeys.trans (ih h.2)

theorem QuietAll.remove_notMem {m : Bounded α} {changes : List (Change α)} (h : m.QuietAll changes)
    (key : String) : .remove key ∉ changes := by
  induction changes generalizing m with
  | nil => exact List.not_mem_nil
  | cons change rest ih =>
    rw [List.mem_cons, not_or]
    refine ⟨?_, ih h.2⟩
    rintro rfl
    exact h.1

theorem quietAll_use (m : Bounded α) (keys : List String) : m.QuietAll (keys.map .use) := by
  induction keys generalizing m with
  | nil => trivial
  | cons key rest ih => exact ⟨trivial, ih (m.use key)⟩

theorem quietAll_write {m : Bounded α} {key : String} (value : α) (h : m.contains key = true) :
    m.QuietAll [.write key value] :=
  ⟨h, trivial⟩

/-! ## Idle changes -/

/-- A change that finds the entries as it would leave them: a use, the write of a value to where it
is already, or the removal of an absent key. -/
def Idle (m : Bounded α) : Change α → Prop
  | .use _ => True
  | .write key value => m.peek key = some value
  | .remove key => m.contains key = false

/-- Changes that are idle one after the other. -/
def IdleAll (m : Bounded α) : List (Change α) → Prop
  | [] => True
  | change :: rest => m.Idle change ∧ IdleAll (change.apply m) rest

/-- Two maps that differ at most in the order of use. -/
structure SameData (m n : Bounded α) : Prop where
  entries_eq : n.entries = m.entries
  evictions_eq : n.evictions = m.evictions

theorem SameData.trans {m n o : Bounded α} (h : SameData m n) (h' : SameData n o) :
    SameData m o where
  entries_eq := h'.entries_eq.trans h.entries_eq
  evictions_eq := h'.evictions_eq.trans h.evictions_eq

theorem Idle.sameData {m : Bounded α} {change : Change α} (h : m.Idle change) :
    SameData m (change.apply m) := by
  cases change with
  | use key => exact ⟨entries_use m key, evictions_use m key⟩
  | write key value =>
    have hfind : m.peek key = some value := h
    show SameData m (m.insert key value)
    rw [insert_of_roomy value (Or.inl (contains_of_peek hfind))]
    exact ⟨Table.put_eq_self hfind, rfl⟩
  | remove key =>
    have habsent : m.contains key = false := h
    show SameData m (m.remove key).2
    rw [remove_of_absent habsent]
    exact ⟨rfl, rfl⟩

/-- Idle changes leave every entry as it was, the order of the rows included, and evict nothing. -/
theorem IdleAll.sameData {m : Bounded α} {changes : List (Change α)} (h : m.IdleAll changes) :
    SameData m (applyAll m changes) := by
  induction changes generalizing m with
  | nil => exact ⟨rfl, rfl⟩
  | cons change rest ih => exact h.1.sameData.trans (ih h.2)

theorem idleAll_use (m : Bounded α) (keys : List String) : m.IdleAll (keys.map .use) := by
  induction keys generalizing m with
  | nil => trivial
  | cons key rest ih => exact ⟨trivial, ih (m.use key)⟩

end Bounded

end BoundedStore
