import BoundedStore.Bounded
import BoundedStore.Proofs.Recency

/-!
# Bounded maps and their invariant

A bounded map keeps its live keys twice, in the entries and in the recency, and eviction goes by the
second but takes from the first. `Valid` says that the two agree and that the bound is kept. Every
operation keeps it, so eviction always finds a key, the key is always live, and neither of the two
guards in `evict` is ever needed.

From outside, a valid map is the list `m.recency.keys` of its live keys, the one used longest ago
first, together with the lookup `m.peek`. The lemmas here say what a use and a removal do to both;
`Proofs/Bounded/Insert.lean` does the same for a write, which may evict. Later modules use these
alone.
-/

namespace BoundedStore

namespace Bounded

variable {α : Type}

/-- The entries and the recency have the same keys, and there is no entry too many. -/
structure Valid (m : Bounded α) : Prop where
  /-- One entry a key. -/
  nodup_entries : m.entries.keys.Nodup
  consistent : m.recency.Consistent
  /-- The keys with a stamp are the live ones. -/
  tracked : ∀ key, key ∈ m.recency.stamps.keys ↔ key ∈ m.entries.keys
  length_le : m.length ≤ m.capacity
  capacity_pos : 1 ≤ m.capacity

/-! ## Live keys -/

theorem contains_iff_mem_entries (m : Bounded α) (key : String) :
    m.contains key = true ↔ key ∈ m.entries.keys :=
  Table.contains_iff_mem_keys m.entries key

theorem contains_eq_isSome (m : Bounded α) (key : String) :
    m.contains key = (m.peek key).isSome := rfl

theorem contains_of_peek {m : Bounded α} {key : String} {value : α}
    (h : m.peek key = some value) : m.contains key = true := by
  rw [contains_eq_isSome, h]
  rfl

theorem peek_eq_none_iff (m : Bounded α) (key : String) :
    m.peek key = none ↔ m.contains key = false := by
  rw [contains_eq_isSome]
  cases m.peek key <;> simp

/-- A key is live or it is absent. Most of the proofs below begin with these two cases. -/
theorem live_or_absent (m : Bounded α) (key : String) :
    m.contains key = true ∨ m.contains key = false :=
  Bool.eq_false_or_eq_true (m.contains key)

theorem contains_congr {m n : Bounded α} {key : String} (h : m.peek key = n.peek key) :
    m.contains key = n.contains key := by
  rw [contains_eq_isSome, contains_eq_isSome, h]

theorem Valid.mem_keys_iff {m : Bounded α} (h : m.Valid) (key : String) :
    key ∈ m.recency.keys ↔ m.contains key = true := by
  rw [h.consistent.mem_keys_iff, h.tracked, contains_iff_mem_entries]

theorem Valid.notMem_keys {m : Bounded α} (h : m.Valid) {key : String}
    (habsent : m.contains key = false) : key ∉ m.recency.keys := by
  rw [h.mem_keys_iff, habsent]
  exact Bool.false_ne_true

theorem Valid.length_eq {m : Bounded α} (h : m.Valid) : m.length = m.recency.keys.length := by
  have hperm : m.entries.keys.Perm m.recency.keys := by
    apply (List.perm_ext_iff_of_nodup h.nodup_entries h.consistent.nodup_keys).mpr
    intro key
    rw [h.consistent.mem_keys_iff, h.tracked]
  unfold length
  rw [← Table.length_keys]
  exact hperm.length_eq

/-- Two maps with the same live keys have as many entries. -/
theorem Valid.length_congr {m n : Bounded α} (hm : m.Valid) (hn : n.Valid)
    (h : ∀ key, m.contains key = n.contains key) : m.length = n.length := by
  have hperm : m.recency.keys.Perm n.recency.keys := by
    apply (List.perm_ext_iff_of_nodup hm.consistent.nodup_keys hn.consistent.nodup_keys).mpr
    intro key
    rw [hm.mem_keys_iff, hn.mem_keys_iff, h]
  rw [hm.length_eq, hn.length_eq, hperm.length_eq]

/-- A full map holds some key, since the capacity is not zero. -/
theorem Valid.keys_ne_nil_of_full {m : Bounded α} (h : m.Valid) (hfull : m.capacity ≤ m.length) :
    m.recency.keys ≠ [] := by
  intro hnil
  have hlength := h.length_eq
  rw [hnil, List.length_nil] at hlength
  have := h.capacity_pos
  omega

/-! ## A new map -/

theorem new_eq_ok_iff {capacity : Nat} {m : Bounded α} :
    new capacity = .ok m ↔ 1 ≤ capacity ∧ m = ⟨[], .empty, capacity, 0⟩ := by
  unfold new
  by_cases h : capacity = 0
  · simp [h]
  · have hpos : 1 ≤ capacity := by omega
    simp [h, hpos, eq_comm]

theorem Valid.of_new {capacity : Nat} {m : Bounded α} (h : new capacity = .ok m) : m.Valid := by
  obtain ⟨hpos, rfl⟩ := new_eq_ok_iff.mp h
  exact {
    nodup_entries := List.nodup_nil
    consistent := Recency.Consistent.empty
    tracked := fun key => by simp [Recency.empty, Table.keys]
    length_le := Nat.zero_le capacity
    capacity_pos := hpos }

/-! ## A use -/

section Use

variable (m : Bounded α) (key : String)

/-- A use changes nothing but the recency. -/
theorem use_eq : ∃ recency, m.use key = { m with recency } := by
  unfold use
  rcases m.live_or_absent key with hlive | habsent
  · exact ⟨m.recency.touch key, if_pos hlive⟩
  · exact ⟨m.recency, by simp [habsent]⟩

@[simp] theorem entries_use : (m.use key).entries = m.entries := by
  obtain ⟨recency, h⟩ := use_eq m key
  rw [h]

@[simp] theorem capacity_use : (m.use key).capacity = m.capacity := by
  obtain ⟨recency, h⟩ := use_eq m key
  rw [h]

@[simp] theorem evictions_use : (m.use key).evictions = m.evictions := by
  obtain ⟨recency, h⟩ := use_eq m key
  rw [h]

@[simp] theorem peek_use (other : String) : (m.use key).peek other = m.peek other := by
  unfold peek
  rw [entries_use]

@[simp] theorem contains_use (other : String) : (m.use key).contains other = m.contains other :=
  contains_congr (peek_use m key other)

@[simp] theorem length_use : (m.use key).length = m.length := by
  unfold length
  rw [entries_use]

theorem use_of_live {m : Bounded α} {key : String} (h : m.contains key = true) :
    m.use key = { m with recency := m.recency.touch key } :=
  if_pos h

theorem use_of_absent {m : Bounded α} {key : String} (h : m.contains key = false) :
    m.use key = m := by
  simp [use, h]

end Use

theorem Valid.keys_use {m : Bounded α} (h : m.Valid) {key : String}
    (hlive : m.contains key = true) :
    (m.use key).recency.keys = m.recency.keys.erase key ++ [key] := by
  rw [use_of_live hlive]
  exact h.consistent.keys_touch key

theorem Valid.use {m : Bounded α} (h : m.Valid) (key : String) : (m.use key).Valid := by
  rcases m.live_or_absent key with hlive | habsent
  · rw [use_of_live hlive]
    exact {
      nodup_entries := h.nodup_entries
      consistent := h.consistent.touch key
      tracked := fun other => by
        -- the key has an entry, so its new stamp is one of a live key
        have hstamps := Table.mem_keys_put m.recency.stamps key other m.recency.clock
        show other ∈ (m.recency.stamps.put key m.recency.clock).keys ↔ _
        rw [hstamps, h.tracked]
        constructor
        · rintro (rfl | hmem)
          · exact (contains_iff_mem_entries m other).mp hlive
          · exact hmem
        · exact Or.inr
      length_le := h.length_le
      capacity_pos := h.capacity_pos }
  · rw [use_of_absent habsent]
    exact h

/-! ## Removal -/

section Remove

variable (m : Bounded α) (key : String)

theorem fst_remove : (m.remove key).1 = m.peek key := by
  unfold remove
  cases h : m.peek key <;> rfl

theorem remove_of_absent {m : Bounded α} {key : String} (h : m.contains key = false) :
    m.remove key = (none, m) := by
  unfold remove
  rw [(peek_eq_none_iff m key).mpr h]

theorem snd_remove_of_live {m : Bounded α} {key : String} (h : m.contains key = true) :
    (m.remove key).2 =
      { m with entries := m.entries.erase key, recency := m.recency.remove key } := by
  unfold remove
  cases hpeek : m.peek key with
  | none => rw [(peek_eq_none_iff m key).mp hpeek] at h; cases h
  | some value => rfl

@[simp] theorem capacity_remove : (m.remove key).2.capacity = m.capacity := by
  unfold remove
  cases m.peek key <;> rfl

@[simp] theorem evictions_remove : (m.remove key).2.evictions = m.evictions := by
  unfold remove
  cases m.peek key <;> rfl

end Remove

theorem Valid.peek_remove {m : Bounded α} (h : m.Valid) (key other : String) :
    (m.remove key).2.peek other = if key = other then none else m.peek other := by
  rcases m.live_or_absent key with hlive | habsent
  · rw [snd_remove_of_live hlive]
    exact Table.find?_erase h.nodup_entries key other
  · rw [remove_of_absent habsent]
    by_cases hkey : key = other
    · subst hkey
      simpa using (peek_eq_none_iff m key).mpr habsent
    · simp [hkey]

theorem Valid.contains_remove_iff {m : Bounded α} (h : m.Valid) (key other : String) :
    (m.remove key).2.contains other = true ↔ other ≠ key ∧ m.contains other = true := by
  rw [contains_eq_isSome, h.peek_remove, contains_eq_isSome]
  by_cases hother : key = other
  · simp [hother]
  · have hne : other ≠ key := fun e => hother e.symm
    simp [hother, hne]

theorem Valid.keys_remove {m : Bounded α} (h : m.Valid) (key : String) :
    (m.remove key).2.recency.keys = m.recency.keys.erase key := by
  rcases m.live_or_absent key with hlive | habsent
  · rw [snd_remove_of_live hlive]
    exact h.consistent.keys_remove key
  · rw [remove_of_absent habsent, List.erase_of_not_mem (h.notMem_keys habsent)]

theorem length_remove {m : Bounded α} {key : String} (hlive : m.contains key = true) :
    (m.remove key).2.length + 1 = m.length := by
  have hmem : key ∈ m.entries.keys := (contains_iff_mem_entries m key).mp hlive
  have hpos : 0 < m.entries.keys.length := List.length_pos_of_mem hmem
  rw [snd_remove_of_live hlive]
  show (m.entries.erase key).length + 1 = m.entries.length
  rw [← Table.length_keys, ← Table.length_keys, Table.keys_erase, List.length_erase_of_mem hmem]
  omega

theorem Valid.remove {m : Bounded α} (h : m.Valid) (key : String) : (m.remove key).2.Valid := by
  rcases m.live_or_absent key with hlive | habsent
  · have hshorter := length_remove hlive
    have hbound := h.length_le
    rw [snd_remove_of_live hlive] at hshorter ⊢
    exact {
      nodup_entries := Table.nodup_keys_erase key h.nodup_entries
      consistent := h.consistent.remove key
      tracked := fun other => by
        -- both sides lose `key` and nothing else
        have hconsistent := h.consistent.remove key
        rw [← hconsistent.mem_keys_iff, h.consistent.keys_remove, Table.keys_erase,
          h.consistent.nodup_keys.mem_erase_iff, h.nodup_entries.mem_erase_iff,
          h.consistent.mem_keys_iff, h.tracked]
      length_le := by
        show Bounded.length _ ≤ m.capacity
        omega
      capacity_pos := h.capacity_pos }
  · rw [remove_of_absent habsent]
    exact h

end Bounded

end BoundedStore
