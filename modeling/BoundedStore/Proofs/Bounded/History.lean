import BoundedStore.Proofs.Bounded.Changes
import Mathlib.Data.List.Dedup

/-!
# The history of uses

A history lists the keys that were used, one entry for each use, the latest use last. It is the
reference that the recency of a map is measured by: `Remembers` says that the list of recency holds
the live keys in the order of their last uses, which is the history with only the last of equal
entries kept (`List.dedup`) and the absent keys left out.

Every change keeps this when the history grows by the keys that the change uses
(`Remembers.apply`). The head of the list is then a key whose last use comes before the last use of
every other live key (`Remembers.usedBefore_of_keys_eq_cons`).
-/

namespace BoundedStore

/-- The last use of `early` comes before the last use of `late`: there is a use of `late` that some
use of `early` precedes and none follows. -/
def UsedBefore (history : List String) (early late : String) : Prop :=
  ∃ earlier later, history = earlier ++ late :: later ∧ early ∈ earlier ∧ early ∉ late :: later

/-! ## Last uses in a list -/

/-- One more use of a key moves it to the end of the last uses. -/
theorem dedup_append_singleton (history : List String) (key : String) :
    (history ++ [key]).dedup = history.dedup.erase key ++ [key] := by
  induction history with
  | nil => simp
  | cons first rest ih =>
    rw [List.cons_append]
    by_cases hfirst : first ∈ rest
    · -- the first use is not the last of its key, with or without the new one
      rw [List.dedup_cons_of_mem (List.mem_append_left [key] hfirst),
        List.dedup_cons_of_mem hfirst, ih]
    · rw [List.dedup_cons_of_notMem hfirst]
      by_cases hkey : first = key
      · -- the first use was the last of the key, and no longer is
        subst hkey
        have hnot : first ∉ rest.dedup := fun hmem => hfirst (List.mem_dedup.mp hmem)
        rw [List.dedup_cons_of_mem (by simp), ih, List.erase_of_not_mem hnot,
          List.erase_cons_head]
      · have hnot : first ∉ rest ++ [key] := by simp [hfirst, hkey]
        rw [List.dedup_cons_of_notMem hnot, ih, List.erase_cons_tail (by simpa using hkey)]
        rfl

/-- Of two last uses the one that stands first comes before the other. -/
theorem usedBefore_of_sublist_dedup {history : List String} {early late : String}
    (h : [early, late].Sublist history.dedup) : UsedBefore history early late := by
  induction history with
  | nil => cases h
  | cons first rest ih =>
    by_cases hfirst : first ∈ rest
    · rw [List.dedup_cons_of_mem hfirst] at h
      obtain ⟨earlier, later, rfl, hmem, hnot⟩ := ih h
      exact ⟨first :: earlier, later, rfl, List.mem_cons_of_mem first hmem, hnot⟩
    · rw [List.dedup_cons_of_notMem hfirst] at h
      cases h with
      | cons _ h =>
        obtain ⟨earlier, later, rfl, hmem, hnot⟩ := ih h
        exact ⟨first :: earlier, later, rfl, List.mem_cons_of_mem first hmem, hnot⟩
      | cons_cons _ h =>
        -- `early` is used here for the last time, and `late` somewhere behind
        have hlate : late ∈ rest := List.mem_dedup.mp (List.singleton_sublist.mp h)
        obtain ⟨earlier, later, rfl⟩ := List.append_of_mem hlate
        refine ⟨early :: earlier, later, rfl, List.mem_cons_self, fun hmem => hfirst ?_⟩
        exact List.mem_append_right earlier hmem

/-- Uses of other keys do not change which of two keys was used before. -/
theorem UsedBefore.append {history : List String} {early late : String}
    (h : UsedBefore history early late) {more : List String} (hnot : early ∉ more) :
    UsedBefore (history ++ more) early late := by
  obtain ⟨earlier, later, rfl, hmem, hlast⟩ := h
  refine ⟨earlier, later ++ more, by simp, hmem, ?_⟩
  rw [← List.cons_append, List.mem_append, not_or]
  exact ⟨hlast, hnot⟩

/-- Which of two keys was used before can be told from any part of the history that has all uses of
both. -/
theorem UsedBefore.of_filter {history : List String} {keep : String → Bool} {early late : String}
    (h : UsedBefore (history.filter keep) early late) : UsedBefore history early late := by
  obtain ⟨earlier, later, hsplit, hmem, hnot⟩ := h
  obtain ⟨first, second, rfl, rfl, hsecond⟩ := List.filter_eq_append_iff.mp hsplit
  obtain ⟨between, behind, rfl, -, -, rfl⟩ := List.filter_eq_cons_iff.mp hsecond
  obtain ⟨hfirst, hkeep⟩ := List.mem_filter.mp hmem
  refine ⟨first ++ between, behind, by simp, List.mem_append_left between hfirst, fun hlast => ?_⟩
  rw [List.mem_cons] at hnot hlast
  exact hnot (hlast.imp_right fun hbehind => List.mem_filter.mpr ⟨hbehind, hkeep⟩)

/-- Which key leads when some keys were used after others: where all of `keys` were used again, the
one whose last use came first; elsewhere the first of `keys` that was not used again. -/
theorem head?_dedup_append {keys uses : List String} {oldest : String}
    (h : (keys ++ uses).dedup.head? = some oldest) :
    (keys ⊆ uses → oldest ∈ uses ∧
      ∀ other ∈ uses, other ≠ oldest → UsedBefore uses oldest other) ∧
    ((∃ key ∈ keys, key ∉ uses) → oldest ∈ keys ∧ oldest ∉ uses ∧
      ∀ other ∈ keys, other ∉ uses → other ≠ oldest → [oldest, other].Sublist keys) := by
  obtain ⟨rest, hrest⟩ := List.head?_eq_some_iff.mp h
  constructor
  · intro hsubset
    rw [hsubset.dedup_append_right] at hrest
    have hmem : ∀ other, other ∈ uses ↔ other ∈ oldest :: rest := fun other => by
      rw [← hrest, List.mem_dedup]
    refine ⟨(hmem oldest).mpr List.mem_cons_self, fun other hother hne => ?_⟩
    have hbehind : other ∈ rest := (List.mem_cons.mp ((hmem other).mp hother)).resolve_left hne
    refine usedBefore_of_sublist_dedup ?_
    rw [hrest]
    exact (List.singleton_sublist.mpr hbehind).cons_cons oldest
  · rintro ⟨key, hkey, hunused⟩
    have hnodup : (keys ++ uses).dedup.Nodup := List.nodup_dedup _
    -- what was not used again stands in front, as it stood before
    obtain ⟨front, hfront, hunion⟩ := List.sublist_suffix_of_union keys uses.dedup
    rw [List.dedup_append, ← hunion] at hrest hnodup
    have hmem : ∀ other ∈ keys, other ∉ uses → other ∈ front := fun other hother hnot => by
      have : other ∈ front ++ uses.dedup := hunion ▸ List.mem_union_left hother uses.dedup
      exact (List.mem_append.mp this).resolve_right fun hin => hnot (List.mem_dedup.mp hin)
    cases front with
    | nil => cases hmem key hkey hunused
    | cons first behind =>
      obtain rfl : first = oldest := (List.cons.inj hrest).1
      have hnot : first ∉ behind ++ uses.dedup := (List.nodup_cons.mp hnodup).1
      refine ⟨hfront.subset List.mem_cons_self, fun hin => hnot ?_, fun other hother hout hne => ?_⟩
      · exact List.mem_append_right behind (List.mem_dedup.mpr hin)
      · have hbehind := (List.mem_cons.mp (hmem other hother hout)).resolve_left hne
        exact ((List.singleton_sublist.mpr hbehind).cons_cons first).trans hfront

namespace Bounded

variable {α : Type}

/-! ## The uses of changes -/

namespace Change

/-- The keys that a change uses. Only a live key is used, and a write makes its key live. -/
def uses (m : Bounded α) : Change α → List String
  | use key => if m.contains key then [key] else []
  | write key _ => [key]
  | remove _ => []

/-- The keys that a list of changes uses, one after the other. -/
def usesAll (m : Bounded α) : List (Change α) → List String
  | [] => []
  | change :: rest => change.uses m ++ usesAll (change.apply m) rest

theorem usesAll_append (m : Bounded α) (first second : List (Change α)) :
    usesAll m (first ++ second) = usesAll m first ++ usesAll (applyAll m first) second := by
  induction first generalizing m with
  | nil => rfl
  | cons change rest ih =>
    rw [List.cons_append, usesAll, usesAll, ih, applyAll_cons, List.append_assoc]

theorem usesAll_use (m : Bounded α) (keys : List String) :
    usesAll m (keys.map use) = keys.filter m.contains := by
  induction keys generalizing m with
  | nil => rfl
  | cons key rest ih =>
    have hsame : (m.use key).contains = m.contains := funext (contains_use m key)
    rw [List.map_cons, usesAll, apply, ih, hsame, uses]
    rcases m.live_or_absent key with hlive | habsent
    · simp [hlive]
    · simp [habsent]

end Change

open Change

/-! ## Maps that remember -/

/-- The list of recency holds the live keys in the order of their last uses in the history, and the
clock tells how many uses there have been. -/
structure Remembers (m : Bounded α) (history : List String) : Prop where
  keys_eq : m.recency.keys = history.dedup.filter m.contains
  clock_eq : m.recency.clock = history.length

theorem Remembers.of_new {capacity : Nat} {m : Bounded α} (h : new capacity = .ok m) :
    m.Remembers [] := by
  obtain ⟨-, rfl⟩ := new_eq_ok_iff.mp h
  exact ⟨rfl, rfl⟩

/-- What is used once more, and live afterwards, stands at the end of the live last uses. -/
theorem filter_dedup_append_singleton {m n : Bounded α} {history : List String} {key : String}
    (hlive : n.contains key = true)
    (hothers : ∀ other, other ≠ key → n.contains other = m.contains other) :
    (history ++ [key]).dedup.filter n.contains =
      (history.dedup.filter m.contains).erase key ++ [key] := by
  have hnodup : history.dedup.Nodup := List.nodup_dedup history
  rw [dedup_append_singleton, List.filter_append, hnodup.erase_eq_filter,
    (hnodup.filter _).erase_eq_filter, List.filter_filter, List.filter_filter]
  congr 1
  · apply List.filter_congr
    intro other _
    by_cases hother : other = key
    · simp [hother]
    · simp [hothers other hother, Bool.and_comm]
  · simp [hlive]

theorem Remembers.use {m : Bounded α} {history : List String} (h : m.Remembers history)
    (hvalid : m.Valid) {key : String} (hlive : m.contains key = true) :
    (m.use key).Remembers (history ++ [key]) where
  keys_eq := by
    have hsame : ∀ other, (m.use key).contains other = m.contains other := contains_use m key
    rw [hvalid.keys_use hlive, h.keys_eq,
      filter_dedup_append_singleton (by rw [hsame, hlive]) fun other _ => hsame other]
  clock_eq := by
    rw [use_of_live hlive]
    show (m.recency.touch key).clock = _
    rw [Recency.clock_touch, h.clock_eq, List.length_append, List.length_singleton]

theorem Remembers.place {m : Bounded α} {history : List String} (h : m.Remembers history)
    (hvalid : m.Valid) (key : String) (value : α) :
    (m.place key value).Remembers (history ++ [key]) where
  keys_eq := by
    have hlive : (m.place key value).contains key = true := by
      rw [contains_eq_isSome, peek_place, if_pos rfl]
      rfl
    have hothers : ∀ other, other ≠ key →
        (m.place key value).contains other = m.contains other := by
      intro other hne
      apply contains_congr
      rw [peek_place, if_neg fun e => hne e.symm]
    rw [hvalid.keys_place, h.keys_eq, filter_dedup_append_singleton hlive hothers]
  clock_eq := by
    show (m.recency.touch key).clock = _
    rw [Recency.clock_touch, h.clock_eq, List.length_append, List.length_singleton]

theorem Remembers.remove {m : Bounded α} {history : List String} (h : m.Remembers history)
    (hvalid : m.Valid) (key : String) : (m.remove key).2.Remembers history where
  keys_eq := by
    have hnodup : (history.dedup.filter m.contains).Nodup := (List.nodup_dedup history).filter _
    rw [hvalid.keys_remove, h.keys_eq, hnodup.erase_eq_filter, List.filter_filter]
    apply List.filter_congr
    intro other _
    rw [contains_eq_isSome (m.remove key).2, hvalid.peek_remove]
    by_cases hkey : key = other
    · simp [hkey]
    · have hne : other ≠ key := fun e => hkey e.symm
      simp [hkey, hne, contains_eq_isSome]
  clock_eq := by
    rw [← h.clock_eq]
    rcases m.live_or_absent key with hlive | habsent
    · rw [snd_remove_of_live hlive]
      exact Recency.clock_remove m.recency key
    · rw [remove_of_absent habsent]

theorem Remembers.makeRoom {m : Bounded α} {history : List String} (h : m.Remembers history)
    (hvalid : m.Valid) (key : String) : (m.makeRoom key).Remembers history := by
  rcases hvalid.makeRoom_cases key with ⟨-, hroom⟩ | ⟨-, -, victim, others, -, hroom⟩
  · rw [hroom]
    exact h
  · -- the eviction is a removal, up to the count of evictions
    rw [hroom]
    exact ⟨(h.remove hvalid victim).keys_eq, (h.remove hvalid victim).clock_eq⟩

/-- A change goes on record with the keys that it uses. -/
theorem Remembers.apply {m : Bounded α} {history : List String} (h : m.Remembers history)
    (hvalid : m.Valid) (change : Change α) :
    (change.apply m).Remembers (history ++ change.uses m) := by
  cases change with
  | use key =>
    rcases m.live_or_absent key with hlive | habsent
    · simpa [Change.apply, uses, hlive] using h.use hvalid hlive
    · simpa [Change.apply, uses, habsent, use_of_absent habsent] using h
  | write key value =>
    exact (h.makeRoom hvalid key).place (hvalid.makeRoom key) key value
  | remove key => simpa [Change.apply, uses] using h.remove hvalid key

theorem Remembers.applyAll {m : Bounded α} {history : List String} (h : m.Remembers history)
    (hvalid : m.Valid) (changes : List (Change α)) :
    (applyAll m changes).Remembers (history ++ usesAll m changes) := by
  induction changes generalizing m history with
  | nil => simpa [usesAll] using h
  | cons change rest ih =>
    have := ih (h.apply hvalid change) (hvalid.apply change)
    rwa [List.append_assoc] at this

/-- The key at the head of the list was used before every other live key. -/
theorem Remembers.usedBefore_of_keys_eq_cons {m : Bounded α} {history : List String}
    (h : m.Remembers history) (hvalid : m.Valid) {oldest : String} {others : List String}
    (hkeys : m.recency.keys = oldest :: others) {key : String} (hlive : m.contains key = true)
    (hne : key ≠ oldest) : UsedBefore history oldest key := by
  have hmem : key ∈ others := by
    have := (hvalid.mem_keys_iff key).mpr hlive
    rw [hkeys] at this
    exact (List.mem_cons.mp this).resolve_left hne
  -- the list of recency is a part of the last uses, in the same order
  have hpair : [oldest, key].Sublist (oldest :: others) :=
    (List.singleton_sublist.mpr hmem).cons_cons oldest
  rw [← hkeys, h.keys_eq] at hpair
  exact usedBefore_of_sublist_dedup (hpair.trans List.filter_sublist)

end Bounded

end BoundedStore
