import BoundedStore.Table
import Mathlib.Data.List.Nodup

/-!
# Laws of tables

A table is seen from outside through `find?` alone, and its keys tell which lookups succeed. The
laws below say what `put` and `erase` do to both views. Only the law of `find?` after `erase` needs
that the keys are free of duplicates: `erase` takes out the first row of a key, and a second one
would come to light. `put` and `erase` keep the keys free of duplicates, so every table built from
`[]` is.
-/

namespace BoundedStore

namespace Table

variable {α : Type}

/-! ## Keys and lookups -/

/-- A lookup fails exactly on the keys that have no row. -/
theorem find?_eq_none_iff (t : Table α) (key : String) : t.find? key = none ↔ key ∉ t.keys := by
  induction t with
  | nil => simp [find?, keys]
  | cons row rest ih =>
    obtain ⟨k, v⟩ := row
    by_cases h : k = key
    · simp [find?, keys, h]
    · have hne : key ≠ k := fun e => h e.symm
      simpa [find?, keys, h, hne] using ih

theorem contains_iff_mem_keys (t : Table α) (key : String) :
    t.contains key = true ↔ key ∈ t.keys := by
  unfold contains
  rw [Option.isSome_iff_ne_none, ne_eq, find?_eq_none_iff, not_not]

theorem mem_keys_of_find?_eq_some {t : Table α} {key : String} {value : α}
    (h : t.find? key = some value) : key ∈ t.keys := by
  by_contra hmem
  rw [(find?_eq_none_iff t key).mpr hmem] at h
  cases h

theorem length_keys (t : Table α) : t.keys.length = t.length := by
  simp [keys]

/-! ## Writing -/

/-- After a write the key has the value, and every other key has what it had. -/
theorem find?_put (t : Table α) (key other : String) (value : α) :
    (t.put key value).find? other = if key = other then some value else t.find? other := by
  induction t with
  | nil => simp [put, find?]
  | cons row rest ih =>
    obtain ⟨k, v⟩ := row
    by_cases h : k = key
    · -- the head is the row of the key and is written in place
      subst h
      by_cases ho : k = other <;> simp [put, find?, ho]
    · by_cases ho : k = other
      · subst ho
        have hne : key ≠ k := fun e => h e.symm
        simp [put, find?, h, hne]
      · simp [put, find?, h, ho, ih]

/-- Writing the value that is there already changes no row. -/
theorem put_eq_self {t : Table α} {key : String} {value : α} (h : t.find? key = some value) :
    t.put key value = t := by
  induction t with
  | nil => cases h
  | cons row rest ih =>
    obtain ⟨k, v⟩ := row
    by_cases hk : k = key
    · have hv : v = value := by simpa [find?, hk] using h
      simp [put, hk, hv]
    · have hrest : find? rest key = some value := by simpa [find?, hk] using h
      simp [put, hk, ih hrest]

/-- Of two values written at one key the second is left. -/
theorem put_put (t : Table α) (key : String) (first second : α) :
    (t.put key first).put key second = t.put key second := by
  induction t with
  | nil => simp [put]
  | cons row rest ih =>
    obtain ⟨k, v⟩ := row
    by_cases hk : k = key
    · simp [put, hk]
    · simp [put, hk, ih]

theorem keys_put_of_mem {t : Table α} {key : String} (value : α) (h : key ∈ t.keys) :
    (t.put key value).keys = t.keys := by
  induction t with
  | nil => cases h
  | cons row rest ih =>
    obtain ⟨k, v⟩ := row
    by_cases hk : k = key
    · simp [put, keys, hk]
    · have hne : key ≠ k := fun e => hk e.symm
      have hrest : key ∈ keys rest := by simpa [keys, hne] using h
      have := ih hrest
      simpa [put, keys, hk] using this

/-- A write of a new key adds it behind the others. -/
theorem keys_put_of_notMem {t : Table α} {key : String} (value : α) (h : key ∉ t.keys) :
    (t.put key value).keys = t.keys ++ [key] := by
  induction t with
  | nil => rfl
  | cons row rest ih =>
    obtain ⟨k, v⟩ := row
    have hk : k ≠ key := fun e => h (by simp [keys, e])
    have hrest : key ∉ keys rest := fun e => h (by simpa [keys] using Or.inr e)
    have := ih hrest
    simpa [put, keys, hk] using this

theorem mem_keys_put (t : Table α) (key other : String) (value : α) :
    other ∈ (t.put key value).keys ↔ other = key ∨ other ∈ t.keys := by
  by_cases h : key ∈ t.keys
  · rw [keys_put_of_mem value h]
    exact ⟨Or.inr, fun hor => hor.elim (fun e => e ▸ h) id⟩
  · rw [keys_put_of_notMem value h, List.mem_append, List.mem_singleton]
    exact or_comm

theorem nodup_keys_put {t : Table α} (key : String) (value : α) (h : t.keys.Nodup) :
    (t.put key value).keys.Nodup := by
  by_cases hmem : key ∈ t.keys
  · rw [keys_put_of_mem value hmem]
    exact h
  · rw [keys_put_of_notMem value hmem]
    exact h.append (List.nodup_singleton key) (by simpa using hmem)

/-! ## Taking out -/

theorem keys_erase (t : Table α) (key : String) : (t.erase key).keys = t.keys.erase key := by
  induction t with
  | nil => rfl
  | cons row rest ih =>
    obtain ⟨k, v⟩ := row
    by_cases h : k = key
    · simp [erase, keys, h]
    · simpa [erase, keys, h] using ih

theorem nodup_keys_erase {t : Table α} (key : String) (h : t.keys.Nodup) :
    (t.erase key).keys.Nodup := by
  rw [keys_erase]
  exact h.erase key

/-- After `erase` the key has no value, and every other key has what it had. -/
theorem find?_erase {t : Table α} (h : t.keys.Nodup) (key other : String) :
    (t.erase key).find? other = if key = other then none else t.find? other := by
  induction t with
  | nil => simp [erase, find?]
  | cons row rest ih =>
    obtain ⟨k, v⟩ := row
    have hnodup : k ∉ keys rest ∧ (keys rest).Nodup := List.nodup_cons.mp h
    by_cases hk : k = key
    · subst hk
      by_cases ho : k = other
      · -- the first row of the key was the only one
        subst ho
        simpa [erase] using (find?_eq_none_iff rest k).mpr hnodup.1
      · simp [erase, find?, ho]
    · by_cases ho : k = other
      · subst ho
        have hne : key ≠ k := fun e => hk e.symm
        simp [erase, find?, hk, hne]
      · simpa [erase, find?, hk, ho] using ih hnodup.2

end Table

end BoundedStore
