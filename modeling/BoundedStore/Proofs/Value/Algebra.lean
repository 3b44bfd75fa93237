import BoundedStore.Proofs.Value.Members
import Mathlib.Data.List.Induction

/-!
# Set algebra

What the three combinations of sets hold, and in which order. Intersection and difference keep some
members of the first set, in its order, so what is to be said of them is which ones. A union lists
members of all its sets. Each stands where it is first seen when the sets are read one after the
other, in the spelling that it has there: `InOrderOf` says so of the values of a list without
repetitions.

Members are compared by value. That a value is found among some members does not depend on its
spelling, as long as it is well-formed (`has_congr`).
-/

namespace BoundedStore

namespace Members

/-! ## Membership goes by value -/

theorem has_congr {x y : Value} (hx : x.WellFormed) (hsame : x.same y = true) (members : Members) :
    has members x = has members y := by
  rw [Bool.eq_iff_iff, has_iff, has_iff]
  constructor
  · rintro ⟨m, hm, hxm⟩
    exact ⟨m, hm, Value.same_of_same_left hx hsame hxm⟩
  · rintro ⟨m, hm, hym⟩
    exact ⟨m, hm, Value.same_trans hsame hym⟩

/-- A condition that goes by value decides which of the values that are the same are kept. -/
theorem has_filter {members : Members} {x : Value} {keep : Value → Bool}
    (hkeep : ∀ y, x.same y = true → keep y = keep x) :
    has (members.filter keep) x = (has members x && keep x) := by
  rw [Bool.eq_iff_iff, Bool.and_eq_true, has_iff, has_iff]
  constructor
  · rintro ⟨y, hy, hsame⟩
    obtain ⟨hmem, hkept⟩ := List.mem_filter.mp hy
    exact ⟨⟨y, hmem, hsame⟩, (hkeep y hsame).symm.trans hkept⟩
  · rintro ⟨⟨y, hmem, hsame⟩, hkept⟩
    exact ⟨y, List.mem_filter.mpr ⟨hmem, (hkeep y hsame).trans hkept⟩, hsame⟩

/-! ## Intersection -/

/-- An absent set leaves nothing. -/
theorem intersection_of_none_mem {sets : List (Option Members)} (h : none ∈ sets) :
    intersection sets = [] := by
  unfold intersection
  split
  next first others hsets =>
    rw [(mapM_id_eq_some_iff sets _).mp hsets] at h
    simp at h
  next => rfl

theorem intersection_of_present (first : Members) (others : List Members) :
    intersection ((first :: others).map some) =
      first.filter fun x => others.all fun set => has set x := by
  unfold intersection
  rw [(mapM_id_eq_some_iff _ _).mpr rfl]

theorem has_intersection {first : Members} {others : List Members} {x : Value}
    (hx : x.WellFormed) :
    has (intersection ((first :: others).map some)) x = true ↔
      ∀ set ∈ first :: others, has set x = true := by
  have hkeep : ∀ y, x.same y = true →
      (others.all fun set => has set y) = others.all fun set => has set x := fun y hsame => by
    simp only [has_congr hx hsame]
  rw [intersection_of_present, has_filter hkeep]
  simp

/-! ## Difference -/

theorem has_difference {first : Members} {others : List (Option Members)} {x : Value}
    (hx : x.WellFormed) :
    has (difference (some first :: others)) x = true ↔
      has first x = true ∧ ∀ set ∈ others, has (set.getD []) x = false := by
  have hkeep : ∀ y, x.same y = true →
      (!others.any fun set => has (set.getD []) y) = !others.any fun set => has (set.getD []) x :=
    fun y hsame => by simp only [has_congr hx hsame]
  unfold difference
  rw [has_filter hkeep]
  simp

/-! ## Union -/

/-- Where in a list a value first occurs; the length of the list when it does not. -/
def firstAt (values : List Value) (x : Value) : Nat :=
  values.findIdx x.same

/-- The members are values of the list, in the order and in the spelling in which they first occur
there. -/
structure InOrderOf (values : List Value) (members : Members) : Prop where
  order : members.Pairwise fun x y => firstAt values x < firstAt values y
  spelling : ∀ x ∈ members, values[firstAt values x]? = some x

theorem has_add (members : Members) (x y : Value) :
    has (add members y) x = (has members x || x.same y) := by
  cases hhas : has members y with
  | true =>
    -- what is the same as `y` was found already
    rw [add_of_has hhas]
    cases hsame : x.same y with
    | false => exact (Bool.or_false _).symm
    | true =>
      obtain ⟨m, hm, hym⟩ := (has_iff members y).mp hhas
      rw [Bool.or_true, has_iff]
      exact ⟨m, hm, Value.same_trans hsame hym⟩
  | false =>
    rw [add_of_not_has hhas]
    simp [has]

theorem ofList_concat (values : List Value) (x : Value) :
    ofList (values ++ [x]) = add (ofList values) x := by
  unfold ofList
  rw [List.foldl_append]
  rfl

/-- Nothing of a list is lost but repetitions. -/
theorem has_ofList (values : List Value) (x : Value) : has (ofList values) x = has values x := by
  induction values using List.reverseRecOn with
  | nil => rfl
  | append_singleton values last ih =>
    rw [ofList_concat, has_add, ih]
    simp [has]

theorem firstAt_lt_iff {values : List Value} {x : Value} :
    firstAt values x < values.length ↔ has values x = true := by
  unfold firstAt
  rw [List.findIdx_lt_length, has_iff]

theorem firstAt_append {values : List Value} {x : Value} (h : has values x = true)
    (rest : List Value) : firstAt (values ++ rest) x = firstAt values x := by
  have hlt := firstAt_lt_iff.mpr h
  unfold firstAt at hlt ⊢
  rw [List.findIdx_append, if_pos hlt]

theorem firstAt_concat {values : List Value} {x : Value} (h : has values x = false) :
    firstAt (values ++ [x]) x = values.length := by
  have hnot : ¬ firstAt values x < values.length := by simp [firstAt_lt_iff, h]
  unfold firstAt at hnot ⊢
  rw [List.findIdx_append, if_neg hnot]
  simp [List.findIdx_cons, x.same_refl]

theorem InOrderOf.has_of_mem {values : List Value} {members : Members}
    (h : InOrderOf values members) {x : Value} (hx : x ∈ members) : has values x = true := by
  obtain ⟨hlt, -⟩ := List.getElem?_eq_some_iff.mp (h.spelling x hx)
  exact firstAt_lt_iff.mp hlt

/-- Values that come behind do not matter. -/
theorem InOrderOf.append {values : List Value} {members : Members} (h : InOrderOf values members)
    (rest : List Value) : InOrderOf (values ++ rest) members where
  order := h.order.imp_of_mem fun hx hy hlt => by
    rwa [firstAt_append (h.has_of_mem hx), firstAt_append (h.has_of_mem hy)]
  spelling x hx := by
    have hold := h.has_of_mem hx
    rw [firstAt_append hold, List.getElem?_append_left (firstAt_lt_iff.mpr hold)]
    exact h.spelling x hx

theorem inOrderOf_ofList (values : List Value) : InOrderOf values (ofList values) := by
  induction values using List.reverseRecOn with
  | nil => exact ⟨List.Pairwise.nil, nofun⟩
  | append_singleton values last ih =>
    have hold := ih.append [last]
    rw [ofList_concat]
    cases hhas : has (ofList values) last with
    | true => rwa [add_of_has hhas]
    | false =>
      have hlast : firstAt (values ++ [last]) last = values.length :=
        firstAt_concat ((has_ofList values last).symm.trans hhas)
      rw [add_of_not_has hhas]
      constructor
      · refine List.pairwise_append.mpr ⟨hold.order, List.pairwise_singleton _ last, ?_⟩
        intro x hx y hy
        rw [List.mem_singleton.mp hy, hlast, firstAt_append (ih.has_of_mem hx)]
        exact firstAt_lt_iff.mpr (ih.has_of_mem hx)
      · intro x hx
        rcases List.mem_append.mp hx with hx | hx
        · exact hold.spelling x hx
        · rw [List.mem_singleton.mp hx, hlast]
          simp

end Members

end BoundedStore
