import BoundedStore.Proofs.Bounded.Basic

/-!
# Writing into a bounded map

A write first makes room for its key and then places the value. Two points carry the rest:

* `Valid.evict_eq`: an eviction is the removal of the head of the list of recency, and is counted;
* `Valid.makeRoom_cases`: room is made by one eviction when a new key finds the map full, and not at
  all otherwise.

A write is then one of two things. Where there is room it places the value (`insert_of_roomy`).
Where there is none the new key takes the place of the key used longest ago, and `Displaces` says
what becomes of every other key, of the list, and of the counts.
-/

namespace BoundedStore

namespace Bounded

variable {α : Type}

/-! ## Making room -/

/-- An eviction is the removal of the key used longest ago, and is counted. -/
theorem Valid.evict_eq {m : Bounded α} (h : m.Valid) {victim : String} {others : List String}
    (hkeys : m.recency.keys = victim :: others) :
    m.evict = { (m.remove victim).2 with evictions := m.evictions + 1 } := by
  have hlive : m.contains victim = true :=
    (h.mem_keys_iff victim).mp (by rw [hkeys]; exact List.mem_cons_self)
  unfold evict
  rw [h.consistent.evictOldest_of_keys_eq_cons hkeys, snd_remove_of_live hlive]
  simp [hlive]

theorem makeRoom_of_roomy {m : Bounded α} {key : String}
    (h : m.contains key = true ∨ m.length < m.capacity) : m.makeRoom key = m := by
  unfold makeRoom
  apply if_neg
  rcases h with hlive | hlt
  · simp [hlive]
  · have : ¬ m.capacity ≤ m.length := by omega
    simp [this]

/-- How room is made: not at all, or, when a new key finds the map full, by the removal of the key
used longest ago. -/
theorem Valid.makeRoom_cases {m : Bounded α} (h : m.Valid) (key : String) :
    ((m.contains key = true ∨ m.length < m.capacity) ∧ m.makeRoom key = m) ∨
      (m.contains key = false ∧ m.length = m.capacity ∧
        ∃ victim others, m.recency.keys = victim :: others ∧
          m.makeRoom key = { (m.remove victim).2 with evictions := m.evictions + 1 }) := by
  by_cases hroomy : m.contains key = true ∨ m.length < m.capacity
  · exact Or.inl ⟨hroomy, makeRoom_of_roomy hroomy⟩
  · rw [not_or, Bool.not_eq_true, Nat.not_lt] at hroomy
    obtain ⟨habsent, hfull⟩ := hroomy
    have hbound := h.length_le
    obtain ⟨victim, others, hkeys⟩ := List.exists_cons_of_ne_nil (h.keys_ne_nil_of_full hfull)
    refine Or.inr ⟨habsent, by omega, victim, others, hkeys, ?_⟩
    unfold makeRoom
    rw [if_pos (by simp [habsent, hfull])]
    exact h.evict_eq hkeys

theorem Valid.withEvictions {m : Bounded α} (h : m.Valid) (evictions : Nat) :
    Valid { m with evictions } :=
  ⟨h.nodup_entries, h.consistent, h.tracked, h.length_le, h.capacity_pos⟩

theorem Valid.makeRoom {m : Bounded α} (h : m.Valid) (key : String) : (m.makeRoom key).Valid := by
  rcases h.makeRoom_cases key with ⟨-, hroom⟩ | ⟨-, -, victim, others, -, hroom⟩
  · rw [hroom]
    exact h
  · rw [hroom]
    exact (h.remove victim).withEvictions _

@[simp] theorem capacity_makeRoom (m : Bounded α) (key : String) :
    (m.makeRoom key).capacity = m.capacity := by
  unfold makeRoom evict
  repeat' split
  all_goals rfl

/-- Making room takes the head off the list when a new key finds the map full. -/
theorem Valid.keys_makeRoom {m : Bounded α} (h : m.Valid) (key : String) :
    (m.makeRoom key).recency.keys =
      if m.contains key = false ∧ m.length = m.capacity then m.recency.keys.tail
      else m.recency.keys := by
  rcases h.makeRoom_cases key with ⟨hroomy, hroom⟩ | ⟨habsent, hfull, victim, others, hkeys, hroom⟩
  · -- with room already, the two conditions of an eviction do not both hold
    have hnot : ¬ (m.contains key = false ∧ m.length = m.capacity) := by
      rintro ⟨habsent, hfull⟩
      rcases hroomy with hlive | hlt
      · rw [habsent] at hlive
        cases hlive
      · omega
    rw [if_neg hnot, hroom]
  · rw [if_pos ⟨habsent, hfull⟩, hroom]
    show (m.remove victim).2.recency.keys = _
    rw [h.keys_remove, hkeys, List.erase_cons_head, List.tail_cons]

theorem Valid.peek_makeRoom {m : Bounded α} (h : m.Valid) {key other : String}
    (hlive : (m.makeRoom key).contains other = true) :
    (m.makeRoom key).peek other = m.peek other := by
  rcases h.makeRoom_cases key with ⟨-, hroom⟩ | ⟨-, -, victim, others, -, hroom⟩
  · rw [hroom]
  · rw [hroom] at hlive ⊢
    have hne : other ≠ victim := ((h.contains_remove_iff victim other).mp hlive).1
    show (m.remove victim).2.peek other = _
    rw [h.peek_remove, if_neg hne.symm]

theorem Valid.roomy_makeRoom {m : Bounded α} (h : m.Valid) (key : String) :
    (m.makeRoom key).contains key = true ∨ (m.makeRoom key).length < (m.makeRoom key).capacity := by
  rcases h.makeRoom_cases key with ⟨hroomy, hroom⟩ | ⟨-, hfull, victim, others, hkeys, hroom⟩
  · rw [hroom]
    exact hroomy
  · right
    have hlive : m.contains victim = true :=
      (h.mem_keys_iff victim).mp (by rw [hkeys]; exact List.mem_cons_self)
    have hshorter := length_remove hlive
    rw [capacity_makeRoom, hroom]
    show (m.remove victim).2.length < m.capacity
    omega

/-! ## Writing -/

/-- Writes `value` at `key` where there is room already. -/
def place (m : Bounded α) (key : String) (value : α) : Bounded α :=
  { m with recency := m.recency.touch key, entries := m.entries.put key value }

theorem insert_eq_place (m : Bounded α) (key : String) (value : α) :
    m.insert key value = (m.makeRoom key).place key value := rfl

theorem peek_place (m : Bounded α) (key other : String) (value : α) :
    (m.place key value).peek other = if key = other then some value else m.peek other :=
  Table.find?_put m.entries key other value

theorem contains_place_iff (m : Bounded α) (key other : String) (value : α) :
    (m.place key value).contains other = true ↔ other = key ∨ m.contains other = true := by
  rw [contains_eq_isSome, peek_place, contains_eq_isSome]
  by_cases hother : key = other
  · simp [hother]
  · have hne : other ≠ key := fun e => hother e.symm
    simp [hother, hne]

theorem Valid.keys_place {m : Bounded α} (h : m.Valid) (key : String) (value : α) :
    (m.place key value).recency.keys = m.recency.keys.erase key ++ [key] :=
  h.consistent.keys_touch key

theorem length_place_of_live {m : Bounded α} {key : String} (value : α)
    (hlive : m.contains key = true) : (m.place key value).length = m.length := by
  have hmem : key ∈ m.entries.keys := (contains_iff_mem_entries m key).mp hlive
  show (m.entries.put key value).length = m.entries.length
  rw [← Table.length_keys, ← Table.length_keys, Table.keys_put_of_mem value hmem]

theorem length_place_of_absent {m : Bounded α} {key : String} (value : α)
    (habsent : m.contains key = false) : (m.place key value).length = m.length + 1 := by
  have hnot : key ∉ m.entries.keys := fun hmem => by
    rw [(contains_iff_mem_entries m key).mpr hmem] at habsent
    cases habsent
  show (m.entries.put key value).length = m.entries.length + 1
  rw [← Table.length_keys, ← Table.length_keys, Table.keys_put_of_notMem value hnot,
    List.length_append, List.length_singleton]

theorem Valid.place {m : Bounded α} (h : m.Valid) {key : String} (value : α)
    (hroomy : m.contains key = true ∨ m.length < m.capacity) : (m.place key value).Valid where
  nodup_entries := Table.nodup_keys_put key value h.nodup_entries
  consistent := h.consistent.touch key
  tracked := fun other => by
    show other ∈ (m.recency.stamps.put key m.recency.clock).keys ↔
      other ∈ (m.entries.put key value).keys
    rw [Table.mem_keys_put, Table.mem_keys_put, h.tracked]
  length_le := by
    show (m.place key value).length ≤ m.capacity
    rcases m.live_or_absent key with hlive | habsent
    · rw [length_place_of_live value hlive]
      exact h.length_le
    · have hroom : m.length < m.capacity := hroomy.resolve_left (by simp [habsent])
      rw [length_place_of_absent value habsent]
      omega
  capacity_pos := h.capacity_pos

theorem Valid.insert {m : Bounded α} (h : m.Valid) (key : String) (value : α) :
    (m.insert key value).Valid := by
  rw [insert_eq_place]
  exact (h.makeRoom key).place value (h.roomy_makeRoom key)

@[simp] theorem capacity_insert (m : Bounded α) (key : String) (value : α) :
    (m.insert key value).capacity = m.capacity :=
  capacity_makeRoom m key

/-- A write where there is room changes one entry, and evicts nothing. -/
theorem insert_of_roomy {m : Bounded α} {key : String} (value : α)
    (h : m.contains key = true ∨ m.length < m.capacity) :
    m.insert key value = m.place key value := by
  rw [insert_eq_place, makeRoom_of_roomy h]

/-- `n` is `m` after a write of a new key that took the place of `victim`, the key used longest
ago. -/
structure Displaces (m n : Bounded α) (victim key : String) (value : α) : Prop where
  keys_eq_cons : m.recency.keys = victim :: m.recency.keys.tail
  victim_live : m.contains victim = true
  victim_ne : victim ≠ key
  peek_eq : ∀ other, n.peek other =
    if key = other then some value else if victim = other then none else m.peek other
  keys_eq : n.recency.keys = m.recency.keys.tail ++ [key]
  evictions_eq : n.evictions = m.evictions + 1
  length_eq : n.length = m.length

theorem Displaces.contains_iff {m n : Bounded α} {victim key : String} {value : α}
    (h : Displaces m n victim key value) (other : String) :
    n.contains other = true ↔ other = key ∨ (other ≠ victim ∧ m.contains other = true) := by
  rw [contains_eq_isSome, h.peek_eq, contains_eq_isSome]
  by_cases hother : key = other
  · simp [hother]
  · have hne : other ≠ key := fun e => hother e.symm
    by_cases hvictim : victim = other
    · simp [hother, hne, hvictim]
    · have hnv : other ≠ victim := fun e => hvictim e.symm
      simp [hother, hne, hvictim, hnv]

/-- A write of a new key into a full map takes the place of the key used longest ago. -/
theorem Valid.insert_of_full {m : Bounded α} (h : m.Valid) {key : String} (value : α)
    (habsent : m.contains key = false) (hfull : m.length = m.capacity) :
    ∃ victim, Displaces m (m.insert key value) victim key value := by
  rcases h.makeRoom_cases key with ⟨hroomy, -⟩ | ⟨-, -, victim, others, hkeys, hroom⟩
  · -- there is no room, by what is assumed
    rcases hroomy with hlive | hlt
    · rw [habsent] at hlive
      cases hlive
    · omega
  have hlive : m.contains victim = true :=
    (h.mem_keys_iff victim).mp (by rw [hkeys]; exact List.mem_cons_self)
  have hne : victim ≠ key := by
    rintro rfl
    rw [habsent] at hlive
    cases hlive
  -- the map after the eviction, before the value is placed
  have hvalid : (m.makeRoom key).Valid := h.makeRoom key
  have hpeek : ∀ other, (m.makeRoom key).peek other =
      if victim = other then none else m.peek other := by
    rw [hroom]
    exact h.peek_remove victim
  have hkeyabsent : (m.makeRoom key).contains key = false := by
    rw [contains_eq_isSome, hpeek, if_neg hne, ← contains_eq_isSome, habsent]
  have hroomkeys : (m.makeRoom key).recency.keys = others := by
    rw [hroom]
    show (m.remove victim).2.recency.keys = others
    rw [h.keys_remove, hkeys, List.erase_cons_head]
  have hnot : key ∉ others := by
    rw [← hroomkeys]
    exact hvalid.notMem_keys hkeyabsent
  refine ⟨victim, ?_⟩
  rw [insert_eq_place]
  exact {
    keys_eq_cons := by rw [hkeys]; rfl
    victim_live := hlive
    victim_ne := hne
    peek_eq := fun other => by rw [peek_place, hpeek]
    keys_eq := by
      rw [hvalid.keys_place, hroomkeys, List.erase_of_not_mem hnot, hkeys]
      rfl
    evictions_eq := by rw [hroom]; rfl
    length_eq := by
      have hshorter : (m.makeRoom key).length + 1 = m.length := by
        rw [hroom]
        exact length_remove hlive
      rw [length_place_of_absent value hkeyabsent, hshorter] }

/-- A new key makes the map larger by one until it is full. -/
theorem Valid.length_insert {m : Bounded α} (h : m.Valid) (key : String) (value : α) :
    (m.insert key value).length =
      if m.contains key = true then m.length else min (m.length + 1) m.capacity := by
  have hbound := h.length_le
  rcases m.live_or_absent key with hlive | habsent
  · rw [if_pos hlive, insert_of_roomy value (Or.inl hlive), length_place_of_live value hlive]
  have hnot : ¬ m.contains key = true := by simp [habsent]
  rw [if_neg hnot]
  rcases Nat.lt_or_ge m.length m.capacity with hroom | hfull
  · rw [insert_of_roomy value (Or.inr hroom), length_place_of_absent value habsent]
    omega
  · obtain ⟨victim, hdisplaces⟩ := h.insert_of_full value habsent (by omega)
    rw [hdisplaces.length_eq]
    omega

theorem Valid.evictions_insert {m : Bounded α} (h : m.Valid) (key : String) (value : α) :
    (m.insert key value).evictions =
      m.evictions + if m.contains key = false ∧ m.length = m.capacity then 1 else 0 := by
  by_cases hfull : m.contains key = false ∧ m.length = m.capacity
  · obtain ⟨victim, hdisplaces⟩ := h.insert_of_full value hfull.1 hfull.2
    rw [if_pos hfull, hdisplaces.evictions_eq]
  · have hroomy : m.contains key = true ∨ m.length < m.capacity := by
      rcases m.live_or_absent key with hlive | habsent
      · exact Or.inl hlive
      · have hbound := h.length_le
        have hne : m.length ≠ m.capacity := fun e => hfull ⟨habsent, e⟩
        exact Or.inr (by omega)
    rw [if_neg hfull, insert_of_roomy value hroomy]
    rfl

/-- To write the value that is there already is no more than a use. -/
theorem insert_eq_use {m : Bounded α} {key : String} {value : α} (h : m.peek key = some value) :
    m.insert key value = m.use key := by
  have hlive := contains_of_peek h
  have hentries : m.entries.put key value = m.entries := Table.put_eq_self h
  rw [insert_of_roomy value (Or.inl hlive), use_of_live hlive]
  unfold place
  rw [hentries]

/-- Of two values written at a live key the second is left, and the first counts as a use. -/
theorem insert_insert_of_live {m : Bounded α} {key : String} (h : m.contains key = true)
    (first second : α) : (m.insert key first).insert key second = (m.use key).insert key second := by
  have hplaced : (m.place key first).contains key = true :=
    (contains_place_iff m key key first).mpr (Or.inl rfl)
  have hused : (m.use key).contains key = true := (contains_use m key key).trans h
  rw [insert_of_roomy first (Or.inl h), insert_of_roomy second (Or.inl hplaced),
    insert_of_roomy second (Or.inl hused), use_of_live h]
  unfold place
  rw [Table.put_put]

theorem snd_update_of_live {m : Bounded α} {key : String} {value : α} (change : α → α)
    (h : m.peek key = some value) :
    (m.update key change).2 = m.insert key (change value) := by
  have hlive : m.contains key = true := contains_of_peek h
  rw [insert_of_roomy (change value) (Or.inl hlive)]
  unfold update
  rw [h]
  simp [use, hlive, place]

theorem update_of_absent {m : Bounded α} {key : String} (change : α → α)
    (h : m.contains key = false) : m.update key change = (none, m) := by
  unfold update
  rw [(peek_eq_none_iff m key).mpr h]

theorem fst_update (m : Bounded α) (key : String) (change : α → α) :
    (m.update key change).1 = m.peek key := by
  unfold update
  cases m.peek key <;> rfl

end Bounded

end BoundedStore
