import BoundedStore.Json.Basic
import Mathlib.Data.List.Nodup

/-!
# Members of an object by their names

An object may have any number of members of one name. `Once` says that there is one, whatever else
there is and in whichever order, and `Json.only?` finds it exactly then.
-/

namespace BoundedStore

namespace Json

/-- The members have one called `name`, which is `j`. -/
def Once (name : String) (j : Json) (members : List (String × Json)) : Prop :=
  ∃ before after, members = before ++ (name, j) :: after ∧
    ∀ member ∈ before ++ after, member.1 ≠ name

variable {name : String} {j : Json} {members others : List (String × Json)}

theorem once_iff_filter :
    Once name j members ↔ members.filter (fun member => member.1 = name) = [(name, j)] := by
  constructor
  · rintro ⟨before, after, rfl, hothers⟩
    have hnone : ∀ part, part ⊆ before ++ after →
        part.filter (fun member => member.1 = name) = [] := fun part hpart =>
      List.filter_eq_nil_iff.mpr fun member hmember => by simpa using hothers member (hpart hmember)
    rw [List.filter_append, List.filter_cons_of_pos (by simp),
      hnone before (List.subset_append_left _ _), hnone after (List.subset_append_right _ _)]
    rfl
  · intro h
    obtain ⟨before, after, rfl, hbefore, -, hafter⟩ := List.filter_eq_cons_iff.mp h
    refine ⟨before, after, rfl, fun member hmember => ?_⟩
    rcases List.mem_append.mp hmember with hmem | hmem
    · simpa using hbefore member hmem
    · simpa using List.filter_eq_nil_iff.mp hafter member hmem

theorem only?_eq_some_iff : only? name members = some j ↔ Once name j members := by
  rw [once_iff_filter]
  unfold only?
  constructor
  · intro h
    split at h
    next called k hfilter =>
      obtain rfl := Option.some.inj h
      have hmem : (called, k) ∈ members.filter fun member => member.1 = name := by simp [hfilter]
      obtain rfl : called = name := by simpa using (List.mem_filter.mp hmem).2
      exact hfilter
    next => cases h
  · intro h
    rw [h]

theorem Once.mem (h : Once name j members) : (name, j) ∈ members := by
  obtain ⟨before, after, rfl, -⟩ := h
  simp

theorem Once.eq_of_mem (h : Once name j members) {k : Json} (hk : (name, k) ∈ members) :
    k = j := by
  have hmem : (name, k) ∈ members.filter fun member => member.1 = name :=
    List.mem_filter.mpr ⟨hk, by simp⟩
  rw [once_iff_filter.mp h, List.mem_singleton] at hmem
  exact (Prod.mk.inj hmem).2

theorem once_of_nodup (hnodup : (members.map Prod.fst).Nodup) (h : (name, j) ∈ members) :
    Once name j members := by
  obtain ⟨before, after, rfl⟩ := List.append_of_mem h
  refine ⟨before, after, rfl, fun member hmember hname => ?_⟩
  rw [List.map_append, List.map_cons, List.nodup_middle, List.nodup_cons, ← List.map_append]
    at hnodup
  exact hnodup.1 (List.mem_map.mpr ⟨member, hmember, hname⟩)

theorem once_cons_of_ne {first : String × Json} (hne : first.1 ≠ name) :
    Once name j (first :: members) ↔ Once name j members := by
  rw [once_iff_filter, once_iff_filter, List.filter_cons_of_neg (by simpa using hne)]

theorem once_cons_self (hnone : ∀ member ∈ members, member.1 ≠ name) :
    Once name j ((name, j) :: members) :=
  ⟨[], members, rfl, hnone⟩

end Json

end BoundedStore
