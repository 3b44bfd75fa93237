import BoundedStore.Proofs.Bounded.History
import Mathlib.Data.List.Induction

/-!
# What changes leave at each key

`Proofs/Bounded/Changes.lean` says which keys are live after changes, and `History` in which order.
Here it is the values. After quiet changes a key has what was written to it last, and otherwise what
it had (`QuietAll.peek_applyAll`). A write behind them does the same to its own key, and takes at
most one other key away: `victim?`, which can be told beforehand from the list of recency and the
keys that are used on the way (`QuietAll.peek_write`).
-/

namespace BoundedStore

/-! ## Last uses of last uses -/

/-- To forget all but the last uses of a first part does not change the last uses of the whole. -/
theorem dedup_dedup_append (first second : List String) :
    (first.dedup ++ second).dedup = (first ++ second).dedup := by
  induction second using List.reverseRecOn with
  | nil => simp
  | append_singleton rest key ih =>
    rw [← List.append_assoc, ← List.append_assoc, dedup_append_singleton, dedup_append_singleton,
      ih]

namespace Bounded

variable {α : Type}

namespace Change

/-- The value that a list of changes writes last at `key`. -/
def lastWritten (key : String) : List (Change α) → Option α
  | [] => none
  | write other value :: rest =>
    (lastWritten key rest).or (if other = key then some value else none)
  | use _ :: rest | remove _ :: rest => lastWritten key rest

theorem lastWritten_append (key : String) (first second : List (Change α)) :
    lastWritten key (first ++ second) = (lastWritten key second).or (lastWritten key first) := by
  induction first with
  | nil => simp [lastWritten]
  | cons change rest ih => cases change <;> simp [lastWritten, ih, Option.or_assoc]

theorem lastWritten_use (key : String) (keys : List String) :
    lastWritten key (keys.map (use : String → Change α)) = none := by
  induction keys with
  | nil => rfl
  | cons other rest ih => exact ih

theorem mem_of_lastWritten {key : String} {value : α} {changes : List (Change α)}
    (h : lastWritten key changes = some value) : .write key value ∈ changes := by
  induction changes with
  | nil => cases h
  | cons change rest ih =>
    cases change with
    | use other | remove other => exact List.mem_cons_of_mem _ (ih h)
    | write other written =>
      rw [lastWritten] at h
      rcases Option.or_eq_some_iff.mp h with hrest | ⟨-, hfirst⟩
      · exact List.mem_cons_of_mem _ (ih hrest)
      · by_cases hkey : other = key
        · obtain rfl : written = value := by simpa [hkey] using hfirst
          exact hkey ▸ List.mem_cons_self
        · simp [hkey] at hfirst

/-- Where nothing is written last, nothing is written. -/
theorem ne_of_lastWritten_eq_none {key other : String} {value : α} {changes : List (Change α)}
    (h : lastWritten key changes = none) (hmem : .write other value ∈ changes) : other ≠ key := by
  induction changes with
  | nil => cases hmem
  | cons change rest ih =>
    cases change with
    | use used | remove used => exact ih h ((List.mem_cons.mp hmem).resolve_left nofun)
    | write written new =>
      rw [lastWritten, Option.or_eq_none_iff] at h
      obtain ⟨hrest, hfirst⟩ := h
      rcases List.mem_cons.mp hmem with heq | hlater
      · cases heq
        exact fun e => by simp [e] at hfirst
      · exact ih hrest hlater

end Change

open Change

/-- The key that goes when the keys of `used` are used one after the other. None goes while there is
room, or while all of them are live. A new key in a full map takes the place of the live key whose
last use is longest ago, the uses of `used` counted. -/
def victim? (m : Bounded α) (used : List String) : Option String :=
  if m.length = m.capacity ∧ used.any (fun key => !m.contains key) then
    ((m.recency.keys ++ used).dedup.filter m.contains).head?
  else none

theorem victim?_live {m : Bounded α} {used : List String} {victim : String}
    (h : m.victim? used = some victim) : m.contains victim = true := by
  unfold victim? at h
  split at h
  · exact (List.mem_filter.mp (List.mem_of_head? h)).2
  · cases h

/-- A new key that comes to a full map makes a key go. -/
theorem Valid.exists_victim? {m : Bounded α} (h : m.Valid) (hfull : m.length = m.capacity)
    {used : List String} (hcomes : ∃ key ∈ used, m.contains key = false) :
    ∃ victim, m.victim? used = some victim := by
  have hany : used.any (fun key => !m.contains key) = true := by
    obtain ⟨key, hmem, habsent⟩ := hcomes
    exact List.any_eq_true.mpr ⟨key, hmem, by simp [habsent]⟩
  -- a full map is not empty, so some live key has been used
  obtain ⟨oldest, others, hkeys⟩ :=
    List.exists_cons_of_ne_nil (h.keys_ne_nil_of_full (Nat.le_of_eq hfull.symm))
  have hold : oldest ∈ m.recency.keys := hkeys ▸ List.mem_cons_self
  have hmem : oldest ∈ (m.recency.keys ++ used).dedup.filter m.contains :=
    List.mem_filter.mpr ⟨List.mem_dedup.mpr (List.mem_append_left used hold),
      (h.mem_keys_iff oldest).mp hold⟩
  obtain ⟨victim, rest, hrest⟩ := List.exists_cons_of_ne_nil (List.ne_nil_of_mem hmem)
  unfold victim?
  rw [if_pos ⟨hfull, hany⟩, hrest]
  exact ⟨victim, rfl⟩

/-! ## Quiet changes -/

section Quiet

variable {m : Bounded α} {changes : List (Change α)}

theorem Quiet.peek_apply {change : Change α} (h : m.Quiet change) (key : String) :
    (change.apply m).peek key = (lastWritten key [change]).or (m.peek key) := by
  cases change with
  | use other => exact peek_use m other key
  | write other value =>
    show (m.insert other value).peek key = _
    rw [insert_of_roomy value (Or.inl h), peek_place]
    by_cases hother : other = key <;> simp [lastWritten, hother]
  | remove other => exact h.elim

/-- After quiet changes a key has what was written to it last, and otherwise what it had. -/
theorem QuietAll.peek_applyAll (h : m.QuietAll changes) (key : String) :
    (applyAll m changes).peek key = (lastWritten key changes).or (m.peek key) := by
  induction changes generalizing m with
  | nil => rfl
  | cons change rest ih =>
    have hwritten : lastWritten key (change :: rest) =
        (lastWritten key rest).or (lastWritten key [change]) := lastWritten_append key [change] rest
    rw [applyAll_cons, ih h.2, h.1.peek_apply, hwritten, Option.or_assoc]

/-- Quiet changes use keys that are live beforehand. -/
theorem QuietAll.contains_of_mem_usesAll (h : m.QuietAll changes) {key : String}
    (hmem : key ∈ usesAll m changes) : m.contains key = true := by
  induction changes generalizing m with
  | nil => cases hmem
  | cons change rest ih =>
    rcases List.mem_append.mp hmem with hfirst | hrest
    · cases change with
      | use other =>
        by_cases hlive : m.contains other = true
        · obtain rfl : key = other := by simpa [uses, hlive] using hfirst
          exact hlive
        · simp [uses, hlive] at hfirst
      | write other value =>
        obtain rfl : key = other := List.mem_singleton.mp hfirst
        exact h.1
      | remove other => exact h.1.elim
    · rw [← h.1.sameKeys.contains_eq]
      exact ih h.2 hrest

theorem QuietAll.victim?_eq_none (h : m.QuietAll changes) :
    m.victim? (usesAll m changes) = none := by
  refine if_neg fun hcomes => ?_
  obtain ⟨key, hmem, habsent⟩ := List.any_eq_true.mp hcomes.2
  rw [h.contains_of_mem_usesAll hmem] at habsent
  cases habsent

theorem Quiet.keys_apply (hvalid : m.Valid) {change : Change α} (h : m.Quiet change) :
    (change.apply m).recency.keys = (m.recency.keys ++ change.uses m).dedup := by
  have hdedup : m.recency.keys.dedup = m.recency.keys := hvalid.consistent.nodup_keys.dedup
  cases change with
  | use key =>
    rcases m.live_or_absent key with hlive | habsent
    · simp only [uses, hlive, if_true]
      rw [dedup_append_singleton, hdedup]
      exact hvalid.keys_use hlive
    · simp [uses, habsent, apply, use_of_absent habsent, hdedup]
  | write key value =>
    have hroomy : m.insert key value = m.place key value := insert_of_roomy value (Or.inl h)
    simp only [uses, apply, hroomy]
    rw [dedup_append_singleton, hdedup]
    exact hvalid.keys_place key value
  | remove key => exact h.elim

/-- Quiet changes leave the live keys in the order of their last uses. -/
theorem QuietAll.keys_applyAll (hvalid : m.Valid) (h : m.QuietAll changes) :
    (applyAll m changes).recency.keys = (m.recency.keys ++ usesAll m changes).dedup := by
  induction changes generalizing m with
  | nil => simpa [usesAll] using hvalid.consistent.nodup_keys.dedup.symm
  | cons change rest ih =>
    rw [applyAll_cons, ih (hvalid.apply change) h.2, h.1.keys_apply hvalid, dedup_dedup_append,
      List.append_assoc]
    rfl

end Quiet

/-! ## A write behind quiet changes -/

section Write

variable {m : Bounded α} {changes : List (Change α)}

/-- Where the written key is live, or finds room, nothing goes. -/
theorem QuietAll.victim?_of_roomy (h : m.QuietAll changes) {key : String}
    (hroomy : m.contains key = true ∨ m.length ≠ m.capacity) :
    m.victim? (usesAll m changes ++ [key]) = none := by
  refine if_neg ?_
  rintro ⟨hfull, hcomes⟩
  have hlive : m.contains key = true := hroomy.resolve_right (· hfull)
  obtain ⟨other, hmem, habsent⟩ := List.any_eq_true.mp hcomes
  rcases List.mem_append.mp hmem with hbefore | hlast
  · rw [h.contains_of_mem_usesAll hbefore] at habsent
    cases habsent
  · rw [List.mem_singleton.mp hlast, hlive] at habsent
    cases habsent

/-- Where there is no room, it is the head of the list after the quiet changes that goes. -/
theorem QuietAll.victim?_of_full (hvalid : m.Valid) (h : m.QuietAll changes) {key : String}
    (habsent : m.contains key = false) (hfull : m.length = m.capacity) :
    m.victim? (usesAll m changes ++ [key]) = (applyAll m changes).recency.keys.head? := by
  have hcomes : (usesAll m changes ++ [key]).any (fun other => !m.contains other) = true := by
    simp [habsent]
  have hlater : (applyAll m changes).Valid := hvalid.applyAll changes
  have hsame : (applyAll m changes).contains = m.contains := funext h.sameKeys.contains_eq
  have hnot : key ∉ (applyAll m changes).recency.keys :=
    hlater.notMem_keys ((congrFun hsame key).trans habsent)
  have hall : (applyAll m changes).recency.keys.filter m.contains =
      (applyAll m changes).recency.keys := by
    refine List.filter_eq_self.mpr fun other hmem => ?_
    rw [← hsame]
    exact (hlater.mem_keys_iff other).mp hmem
  unfold victim?
  rw [if_pos ⟨hfull, hcomes⟩, ← List.append_assoc, dedup_append_singleton, ← h.keys_applyAll hvalid,
    List.erase_of_not_mem hnot, List.filter_append, hall]
  -- the new key is not one of the keys that could go
  simp [habsent]

/-- What a write behind quiet changes leaves at each key, and what it counts: one key goes or none,
and every other key has what was written to it last, and otherwise what it had. -/
theorem QuietAll.peek_write (hvalid : m.Valid) (h : m.QuietAll changes) (key : String) (value : α) :
    (∀ other, ((applyAll m changes).insert key value).peek other =
      if m.victim? (usesAll m changes ++ [key]) = some other then none
      else (lastWritten other (changes ++ [.write key value])).or (m.peek other)) ∧
    ((applyAll m changes).insert key value).evictions =
      m.evictions + (m.victim? (usesAll m changes ++ [key])).toList.length := by
  have hlater : (applyAll m changes).Valid := hvalid.applyAll changes
  have hsame : SameKeys m (applyAll m changes) := h.sameKeys
  have hcapacity : (applyAll m changes).capacity = m.capacity := capacity_applyAll m changes
  have hwritten : ∀ other, lastWritten other (changes ++ [.write key value]) =
      (if key = other then some value else none).or (lastWritten other changes) := fun other =>
    lastWritten_append other changes [.write key value]
  by_cases hroomy : m.contains key = true ∨ m.length ≠ m.capacity
  · have hroom : (applyAll m changes).contains key = true ∨
        (applyAll m changes).length < (applyAll m changes).capacity := by
      rw [hsame.contains_eq, hsame.length_eq, hcapacity]
      have := hvalid.length_le
      exact hroomy.imp_right fun hne => by omega
    rw [h.victim?_of_roomy hroomy, insert_of_roomy value hroom]
    refine ⟨fun other => ?_, hsame.evictions_eq⟩
    rw [peek_place, h.peek_applyAll, hwritten]
    by_cases hother : key = other <;> simp [hother]
  · rw [not_or, Bool.not_eq_true, not_not] at hroomy
    obtain ⟨habsent, hfull⟩ := hroomy
    obtain ⟨victim, hdisplaces⟩ := hlater.insert_of_full value
      ((hsame.contains_eq key).trans habsent) (by rw [hsame.length_eq, hcapacity, hfull])
    have hvictim : m.victim? (usesAll m changes ++ [key]) = some victim := by
      rw [h.victim?_of_full hvalid habsent hfull, hdisplaces.keys_eq_cons]
      rfl
    rw [hvictim]
    refine ⟨fun other => ?_, by rw [hdisplaces.evictions_eq, hsame.evictions_eq]; rfl⟩
    rw [hdisplaces.peek_eq, h.peek_applyAll, hwritten]
    by_cases hother : key = other
    · -- the key that goes is not the one that comes
      have hne : victim ≠ other := fun e => hdisplaces.victim_ne (e.trans hother.symm)
      simp [hother, hne]
    · by_cases hgone : victim = other <;> simp [hother, hgone]

end Write

end Bounded

end BoundedStore
