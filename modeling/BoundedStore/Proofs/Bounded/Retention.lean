import BoundedStore.Proofs.Bounded.History
import Mathlib.Data.Finset.Card

/-!
# Keys used lately are kept

An eviction takes the key used longest ago out of a full map. Every other live key was then used
after it, and so was the new key that takes its place: these are as many keys as the capacity. So a
key cannot go while fewer other keys than that have been used after it, whatever the uses were for.

## The invariant

`KeptSince` says this of one key: it stands in the list of recency, and only keys of `since` stand
behind it. Every change keeps this when `since` grows by the keys that the change uses
(`KeptSince.apply`), except two: the removal of the key itself, and a write that evicts it. The
second needs the capacity of other keys in `since` (`KeptSince.not_oldest_of_full`).
-/

namespace BoundedStore

/-! ## What stands behind a key in a list -/

/-- `key` is in the list, and what stands behind it is among `since`. -/
def FollowedBy (keys : List String) (key : String) (since : List String) : Prop :=
  ∃ earlier later, keys = earlier ++ key :: later ∧ later ⊆ since

namespace FollowedBy

variable {keys since : List String} {key : String}

theorem of_last (earlier since : List String) (key : String) :
    FollowedBy (earlier ++ [key]) key since :=
  ⟨earlier, [], rfl, List.nil_subset since⟩

theorem mem (h : FollowedBy keys key since) : key ∈ keys := by
  obtain ⟨earlier, later, rfl, -⟩ := h
  exact List.mem_append_right earlier List.mem_cons_self

/-- Taking out another key leaves the key where it is. -/
theorem erase (h : FollowedBy keys key since) {other : String} (hne : other ≠ key) :
    FollowedBy (keys.erase other) key since := by
  obtain ⟨earlier, later, rfl, hlater⟩ := h
  by_cases hmem : other ∈ earlier
  · rw [List.erase_append_left _ hmem]
    exact ⟨earlier.erase other, later, rfl, hlater⟩
  · rw [List.erase_append_right _ hmem, List.erase_cons_tail (by simpa using hne.symm)]
    exact ⟨earlier, later.erase other, rfl,
      fun each heach => hlater (List.erase_subset heach)⟩

/-- Moving any key to the end, the key itself included, puts only that one behind it. -/
theorem erase_append (h : FollowedBy keys key since) (other : String) :
    FollowedBy (keys.erase other ++ [other]) key (since ++ [other]) := by
  by_cases hother : other = key
  · subst hother
    exact of_last _ _ other
  · obtain ⟨earlier, later, hkeys, hlater⟩ := h.erase hother
    refine ⟨earlier, later ++ [other], by rw [hkeys]; simp, fun each heach => ?_⟩
    rcases List.mem_append.mp heach with hmem | hmem
    · exact List.mem_append_left _ (hlater hmem)
    · exact List.mem_append_right _ hmem

/-- Taking off the head leaves the key, unless it is the head. -/
theorem tail (h : FollowedBy keys key since) (hne : keys.head? ≠ some key) :
    FollowedBy keys.tail key since := by
  obtain ⟨earlier, later, rfl, hlater⟩ := h
  cases earlier with
  | nil => exact absurd rfl hne
  | cons first rest => exact ⟨rest, later, rfl, hlater⟩

/-- Behind the head stands the rest of the list, where no key stands twice. -/
theorem subset_of_head {later : List String} (h : FollowedBy (key :: later) key since)
    (hnodup : (key :: later).Nodup) : later ⊆ since := by
  obtain ⟨earlier, behind, hsplit, hbehind⟩ := h
  cases earlier with
  | nil =>
    obtain rfl : later = behind := (List.cons.inj hsplit).2
    exact hbehind
  | cons first rest =>
    have hmem : key ∈ later := by
      rw [(List.cons.inj hsplit).2]
      exact List.mem_append_right rest List.mem_cons_self
    exact absurd hmem (List.nodup_cons.mp hnodup).1

end FollowedBy

namespace Bounded

open Change

variable {α : Type} {m : Bounded α} {key : String} {since : List String}

/-! ## One change -/

/-- `key` is live, and all keys used after it are among `since`. -/
def KeptSince (m : Bounded α) (key : String) (since : List String) : Prop :=
  FollowedBy m.recency.keys key since

theorem KeptSince.live (h : m.KeptSince key since) (hvalid : m.Valid) : m.contains key = true :=
  (hvalid.mem_keys_iff key).mp h.mem

/-- In a full map the oldest key has as many other keys behind it as there are other entries, and a
new key would be one more. -/
theorem KeptSince.not_oldest_of_full (h : m.KeptSince key since) (hvalid : m.Valid) {new : String}
    (habsent : m.contains new = false) (hfull : m.length = m.capacity)
    (hfew : ((since ++ [new]).toFinset.erase key).card < m.capacity) :
    m.recency.keys.head? ≠ some key := by
  intro hhead
  obtain ⟨later, hkeys⟩ := List.head?_eq_some_iff.mp hhead
  have hnodup : (key :: later).Nodup := hkeys ▸ hvalid.consistent.nodup_keys
  have hnew : new ∉ key :: later := hkeys ▸ hvalid.notMem_keys habsent
  have hlater : later ⊆ since := (hkeys ▸ h : FollowedBy _ key since).subset_of_head hnodup
  rw [List.nodup_cons] at hnodup
  rw [List.mem_cons, not_or] at hnew
  have hothers : (new :: later).toFinset ⊆ (since ++ [new]).toFinset.erase key := by
    intro other hother
    rw [List.mem_toFinset, List.mem_cons] at hother
    rw [Finset.mem_erase, List.mem_toFinset, List.mem_append, List.mem_singleton]
    rcases hother with rfl | hmem
    · exact ⟨hnew.1, Or.inr rfl⟩
    · exact ⟨fun e => hnodup.1 (e ▸ hmem), Or.inl (hlater hmem)⟩
  have hcount : (new :: later).toFinset.card = m.capacity := by
    rw [List.toFinset_card_of_nodup (List.nodup_cons.mpr ⟨hnew.2, hnodup.2⟩), ← hfull,
      hvalid.length_eq, hkeys, List.length_cons, List.length_cons]
  have := Finset.card_le_card hothers
  omega

theorem KeptSince.use (h : m.KeptSince key since) (hvalid : m.Valid) (other : String) :
    (m.use other).KeptSince key (since ++ Change.uses m (.use other)) := by
  rcases m.live_or_absent other with hlive | habsent
  · simp only [uses, hlive, if_true]
    rw [KeptSince, hvalid.keys_use hlive]
    exact h.erase_append other
  · simpa [uses, habsent, use_of_absent habsent] using h

theorem KeptSince.insert (h : m.KeptSince key since) (hvalid : m.Valid) (other : String) (value : α)
    (hfew : ((since ++ [other]).toFinset.erase key).card < m.capacity) :
    (m.insert other value).KeptSince key (since ++ [other]) := by
  have hroom : (m.makeRoom other).KeptSince key since := by
    rw [KeptSince, hvalid.keys_makeRoom]
    split
    next hevicts => exact h.tail (h.not_oldest_of_full hvalid hevicts.1 hevicts.2 hfew)
    next => exact h
  rw [insert_eq_place, KeptSince, (hvalid.makeRoom other).keys_place]
  exact hroom.erase_append other

/-- A change keeps a key that it does not remove, as long as too few other keys were used after it
for an eviction to reach it. -/
theorem KeptSince.apply (h : m.KeptSince key since) (hvalid : m.Valid) {change : Change α}
    (hnot : change ≠ .remove key)
    (hfew : ((since ++ change.uses m).toFinset.erase key).card < m.capacity) :
    (change.apply m).KeptSince key (since ++ change.uses m) := by
  cases change with
  | use other => exact h.use hvalid other
  | write other value => exact h.insert hvalid other value hfew
  | remove other =>
    have hne : other ≠ key := fun e => hnot (congrArg Change.remove e)
    rw [uses, List.append_nil, KeptSince]
    show FollowedBy (m.remove other).2.recency.keys key since
    rw [hvalid.keys_remove]
    exact FollowedBy.erase h hne

/-! ## Lists of changes -/

theorem card_erase_le_of_append (key : String) (first second : List String) :
    (first.toFinset.erase key).card ≤ ((first ++ second).toFinset.erase key).card := by
  apply Finset.card_le_card
  apply Finset.erase_subset_erase
  rw [List.toFinset_append]
  exact Finset.subset_union_left

theorem KeptSince.applyAll (h : m.KeptSince key since) (hvalid : m.Valid)
    {changes : List (Change α)} (hnot : .remove key ∉ changes)
    (hfew : ((since ++ usesAll m changes).toFinset.erase key).card < m.capacity) :
    (applyAll m changes).KeptSince key (since ++ usesAll m changes) := by
  induction changes generalizing m since with
  | nil => simpa [usesAll] using h
  | cons change rest ih =>
    rw [List.mem_cons, not_or] at hnot
    rw [usesAll, ← List.append_assoc] at hfew ⊢
    have hfirst : ((since ++ change.uses m).toFinset.erase key).card < m.capacity :=
      Nat.lt_of_le_of_lt (card_erase_le_of_append key _ _) hfew
    rw [← capacity_apply m change] at hfew
    exact ih (h.apply hvalid (Ne.symm hnot.1) hfirst) (hvalid.apply change) hnot.2 hfew

/-- One change uses at most one key, so a use within a list of changes splits the list. -/
theorem Change.exists_split_of_usesAll_eq {changes : List (Change α)} {early late : List String}
    (h : usesAll m changes = early ++ key :: late) :
    ∃ first change second, changes = first ++ change :: second ∧
      change.uses (applyAll m first) = [key] ∧
      usesAll (change.apply (applyAll m first)) second = late := by
  induction changes generalizing m early with
  | nil => cases early <;> cases h
  | cons change rest ih =>
    rw [usesAll] at h
    have hsingle : change.uses m = [] ∨ ∃ used, change.uses m = [used] := by
      cases change with
      | use other => by_cases hlive : m.contains other = true <;> simp [uses, hlive]
      | write other value => exact Or.inr ⟨other, rfl⟩
      | remove other => exact Or.inl rfl
    -- the use is in the head when nothing comes before it, and in the rest otherwise
    have hrest : ∀ before, usesAll (change.apply m) rest = before ++ key :: late →
        ∃ first last second, change :: rest = first ++ last :: second ∧
          last.uses (applyAll m first) = [key] ∧
          usesAll (last.apply (applyAll m first)) second = late := by
      intro before hbefore
      obtain ⟨first, last, second, rfl, huses, hlate⟩ := ih hbefore
      exact ⟨change :: first, last, second, rfl, huses, hlate⟩
    rcases hsingle with hnone | ⟨used, hused⟩
    · rw [hnone, List.nil_append] at h
      exact hrest early h
    · rw [hused, List.singleton_append] at h
      cases early with
      | nil =>
        obtain ⟨rfl, hlate⟩ := List.cons.inj h
        exact ⟨[], change, rest, rfl, hused, hlate⟩
      | cons first before => exact hrest before (List.cons.inj h).2

/-- Right after its use a key stands at the end of the list. -/
theorem Valid.keptSince_of_uses (hvalid : m.Valid) {change : Change α}
    (huses : change.uses m = [key]) : (change.apply m).KeptSince key [] := by
  cases change with
  | use other =>
    rcases m.live_or_absent other with hlive | habsent
    · obtain rfl : other = key := by simpa [uses, hlive] using huses
      rw [KeptSince]
      show FollowedBy (m.use other).recency.keys other []
      rw [hvalid.keys_use hlive]
      exact .of_last _ _ other
    · simp [uses, habsent] at huses
  | write other value =>
    obtain rfl : other = key := (List.cons.inj huses).1
    show FollowedBy ((m.makeRoom other).place other value).recency.keys other []
    rw [(hvalid.makeRoom other).keys_place]
    exact .of_last _ _ other
  | remove other => cases huses

/-- A key that is used within a list of changes is kept to their end, if too few other keys are used
behind it. -/
theorem Valid.keptSince_applyAll_of_uses (hvalid : m.Valid) {changes : List (Change α)}
    {early late : List String} (huses : usesAll m changes = early ++ key :: late)
    (hnot : .remove key ∉ changes) (hfew : (late.toFinset.erase key).card < m.capacity) :
    (Change.applyAll m changes).KeptSince key late := by
  obtain ⟨first, change, second, rfl, hused, rfl⟩ := exists_split_of_usesAll_eq huses
  have hfirst : (Change.applyAll m first).Valid := hvalid.applyAll first
  have hbehind : .remove key ∉ second := fun hmem =>
    hnot (List.mem_append_right first (List.mem_cons_of_mem change hmem))
  have hcapacity : (change.apply (Change.applyAll m first)).capacity = m.capacity := by
    rw [capacity_apply, capacity_applyAll]
  rw [applyAll_append, applyAll_cons]
  have := (hfirst.keptSince_of_uses hused).applyAll (hfirst.apply change) hbehind
    (by rw [hcapacity]; exact hfew)
  rwa [List.nil_append] at this

end Bounded

end BoundedStore
