import BoundedStore.Proofs.Store.Combinations
import BoundedStore.Proofs.Store.WellFormed
import BoundedStore.Proofs.Value.Algebra

/-!
# What set algebra answers

An intersection, a union or a difference of the sets at some keys is refused for the first key that
holds something else. Otherwise it lists the members that it should (`Intersects`, `Unites`,
`Subtracts`), none of them twice, in the order of the first set or, for a union, in the order in
which they are first seen.

The three differ in what an absent key means. It empties an intersection, and a difference if it
comes first, and everywhere else it counts as the empty set. The members at an absent key are none
in any case (`setMembers`), so that membership alone needs no distinction.
-/

namespace BoundedStore

namespace Store

/-! ## What is listed -/

section Spec

variable (s : Store) (keys : List String) (vs : List Value)

/-- The values are the members that all sets have in common, in the order of the first set. -/
structure Intersects : Prop where
  empty : keys = [] ∨ (∃ key ∈ keys, s.contains key = false) → vs = []
  sublist : ∀ first rest, keys = first :: rest → vs.Sublist (s.setMembers first)
  has_iff : keys ≠ [] → ∀ x : Value, x.WellFormed →
    (Members.has vs x = true ↔ ∀ key ∈ keys, Members.has (s.setMembers key) x = true)

/-- The values are the members of all sets, in the order in which they are first seen when the sets
are read one after the other. -/
structure Unites : Prop where
  order : Members.InOrderOf (keys.flatMap s.setMembers) vs
  has_iff : ∀ x : Value,
    Members.has vs x = true ↔ ∃ key ∈ keys, Members.has (s.setMembers key) x = true

/-- The values are the members of the first set that no other set has, in the order of the first
set. -/
structure Subtracts : Prop where
  empty : keys = [] ∨ (∃ first rest, keys = first :: rest ∧ s.contains first = false) → vs = []
  sublist : ∀ first rest, keys = first :: rest → vs.Sublist (s.setMembers first)
  has_iff : ∀ first rest, keys = first :: rest → ∀ x : Value, x.WellFormed →
    (Members.has vs x = true ↔ Members.has (s.setMembers first) x = true ∧
      ∀ key ∈ rest, Members.has (s.setMembers key) x = false)

end Spec

/-- What a combination of the sets at some keys lists. -/
def Combines (s : Store) : Algebra → List String → List Value → Prop
  | .intersection => s.Intersects
  | .union => s.Unites
  | .difference => s.Subtracts

/-! ## What is computed -/

section Computed

variable {s : Store} {key : String}

theorem set?_of_absent (h : s.contains key = false) : s.set? key = none := by
  unfold set?
  rw [(s.find?_eq_none_iff key).mpr h]

theorem setMembers_of_set?_eq_none (h : s.set? key = none) : s.setMembers key = [] := by
  unfold setMembers
  rw [h]
  rfl

theorem set?_eq_some_setMembers (h : s.set? key ≠ none) :
    s.set? key = some (s.setMembers key) := by
  obtain ⟨members, hmembers⟩ := Option.ne_none_iff_exists'.mp h
  unfold setMembers
  rw [hmembers]
  rfl

theorem intersects_combine (s : Store) (keys : List String) :
    s.Intersects keys (Members.intersection (keys.map s.set?)) := by
  by_cases hnone : none ∈ keys.map s.set?
  · -- nothing is listed, and there is a key without members
    obtain ⟨key, hkey, hset⟩ := List.mem_map.mp hnone
    rw [Members.intersection_of_none_mem hnone]
    refine ⟨fun _ => rfl, fun first rest _ => List.nil_sublist _, fun _ x _ => ?_⟩
    refine iff_of_false Bool.false_ne_true fun hall => ?_
    have hhas := hall key hkey
    rw [setMembers_of_set?_eq_none hset] at hhas
    cases hhas
  · have hpresent : keys.map s.set? = (keys.map s.setMembers).map some := by
      rw [List.map_map]
      exact List.map_congr_left fun key hkey =>
        set?_eq_some_setMembers fun hset => hnone (List.mem_map.mpr ⟨key, hkey, hset⟩)
    rw [hpresent]
    cases keys with
    | nil => exact ⟨fun _ => rfl, nofun, fun h => absurd rfl h⟩
    | cons first rest =>
      refine ⟨?empty, ?sublist, fun _ x hx => ?has⟩
      case empty =>
        rintro (hnil | ⟨key, hkey, habsent⟩)
        · cases hnil
        · exact absurd (List.mem_map.mpr ⟨key, hkey, set?_of_absent habsent⟩) hnone
      case sublist =>
        rintro _ _ ⟨⟩
        rw [List.map_cons, Members.intersection_of_present]
        exact List.filter_sublist
      case has =>
        rw [List.map_cons, Members.has_intersection hx]
        simp

theorem unites_combine (s : Store) (keys : List String) :
    s.Unites keys (Members.union (keys.map s.set?)) := by
  have hunion : Members.union (keys.map s.set?) = Members.ofList (keys.flatMap s.setMembers) := by
    unfold Members.union
    rw [List.flatMap_map]
    rfl
  rw [hunion]
  refine ⟨Members.inOrderOf_ofList _, fun x => ?_⟩
  rw [Members.has_ofList]
  simp [Members.has, List.any_flatMap]

theorem subtracts_combine (s : Store) (keys : List String) :
    s.Subtracts keys (Members.difference (keys.map s.set?)) := by
  cases keys with
  | nil => exact ⟨fun _ => rfl, nofun, nofun⟩
  | cons first rest =>
    by_cases hset : s.set? first = none
    · rw [List.map_cons, hset]
      refine ⟨fun _ => rfl, fun _ _ _ => List.nil_sublist _, ?_⟩
      rintro _ _ ⟨⟩ x -
      rw [setMembers_of_set?_eq_none hset]
      exact iff_of_false Bool.false_ne_true fun h => Bool.false_ne_true h.1
    · have hfirst := set?_eq_some_setMembers hset
      rw [List.map_cons, hfirst]
      refine ⟨?empty, ?sublist, ?has⟩
      case empty =>
        rintro (hnil | ⟨_, _, ⟨⟩, habsent⟩)
        · cases hnil
        · exact absurd (set?_of_absent habsent) hset
      case sublist =>
        rintro _ _ ⟨⟩
        exact List.filter_sublist
      case has =>
        rintro _ _ ⟨⟩ x hx
        rw [Members.has_difference hx]
        simp [setMembers]

/-- What a combination lists depends on nothing but the sets at the keys. -/
theorem combines_combine (s : Store) (algebra : Algebra) (keys : List String) :
    s.Combines algebra keys (algebra.combine (keys.map s.set?)) := by
  cases algebra with
  | intersection => exact s.intersects_combine keys
  | union => exact s.unites_combine keys
  | difference => exact s.subtracts_combine keys

end Computed

/-! ## What is answered -/

/-- **Set algebra.** In every store that operations on well-formed values lead to, and for every
list of keys, an intersection, a union and a difference are all refused for the first key that holds
something else than a set. If there is no such key, each lists without repetitions what it should,
in the right order. -/
theorem combine_lists {s : Store} (h : s.Attained) (keys : List String) :
    ((∃ key ∈ keys, s.holdsOther .set key = true) →
      ∃ key value, keys.find? (s.holdsOther .set) = some key ∧ s.find? key = some value ∧
        ∀ algebra, (s.combine algebra keys).1 = .error (value.mismatch key "set")) ∧
    ((∀ key ∈ keys, s.holdsOther .set key = false) →
      ∀ algebra, ∃ vs, (s.combine algebra keys).1 = .ok vs ∧ Members.Distinct vs ∧
        s.Combines algebra keys vs) := by
  have hsettles := s.settles_setsAt keys
  constructor
  · intro hother
    obtain ⟨detail, hrefused⟩ := hsettles.refused hother
    obtain ⟨key, value, hfirst, hfind, he⟩ := (s.setsAt_eq_error_iff keys _).mp hrefused
    rw [he] at hrefused
    exact ⟨key, value, hfirst, hfind, fun algebra =>
      (s.fst_combine_eq_error_iff algebra keys _).mpr hrefused⟩
  · intro hsets algebra
    have hok := hsettles.ok fun ⟨key, hkey, hother⟩ => by
      rw [hsets key hkey] at hother
      cases hother
    exact ⟨_, (s.fst_combine_eq_ok_iff algebra keys _).mpr ⟨hok, rfl⟩,
      (Value.byParts_wellFormed.built_combine h.wellFormed algebra keys).distinct,
      s.combines_combine algebra keys⟩

/-- The sets at `a` and `b` have one member in common, a set that each of them writes in its own
way. A difference from `a` loses it, an absent key takes nothing away, and a list is refused. -/
theorem combine_lists_nested :
    ∃ s : Store, s.Attained ∧
      s.find? "a" = some (.set [.set [.integer 1, .integer 2], .text "x"]) ∧
      s.find? "b" = some (.set [.set [.integer 2, .integer 1]]) ∧
      s.find? "l" = some (.list [.integer 7]) ∧
      (s.combine .difference ["a", "b", "c"]).1 = .ok [.text "x"] ∧
      s.Combines .difference ["a", "b", "c"] [.text "x"] ∧
      ∀ algebra, (s.combine algebra ["c", "a", "l"]).1 =
        .error (.wrongType "'l' holds type list, expected set") := by
  have hnew := new_eq_ok_iff.mpr
    ⟨(by decide : 1 ≤ 3), (rfl : _ = (⟨⟨[], .empty, 3, 0⟩, ⟨fun _ => 0, 0⟩, 0, 0⟩ : Store))⟩
  have hfirst : (Value.set [.integer 1, .integer 2]).WellFormed :=
    (Members.WellFormed.ofList (by simp [Value.WellFormed] :
      ∀ x ∈ [Value.integer 1, .integer 2], x.WellFormed)).set
  have hsecond : (Value.set [.integer 2, .integer 1]).WellFormed :=
    (Members.WellFormed.ofList (by simp [Value.WellFormed] :
      ∀ x ∈ [Value.integer 2, .integer 1], x.WellFormed)).set
  have hops : ∀ op ∈ [Operation.command (.addMember "a" (.set [.integer 1, .integer 2])),
      .command (.addMember "a" (.text "x")),
      .command (.addMember "b" (.set [.integer 2, .integer 1])),
      .command (.push .head "l" (.integer 7))], op.WellFormed := by
    simpa [Operation.WellFormed, Command.WellFormed, Command.operands, Value.WellFormed] using
      ⟨hfirst, hsecond⟩
  have hattained := (⟨3, _, _, _, hops, hnew, rfl⟩ : Store.Attained _)
  obtain ⟨vs, hvs, -, hcombines⟩ :=
    (combine_lists hattained ["a", "b", "c"]).2 (by decide) .difference
  obtain ⟨key, value, hkey, hvalue, hrefused⟩ :=
    (combine_lists hattained ["c", "a", "l"]).1 ⟨"l", by decide, by decide⟩
  obtain rfl : [.text "x"] = vs := Except.ok.inj hvs
  obtain rfl : "l" = key := Option.some.inj hkey
  obtain rfl : .list [.integer 7] = value := Option.some.inj hvalue
  exact ⟨_, hattained, by decide, by decide, by decide, hvs, hcombines, hrefused⟩

end Store

end BoundedStore
