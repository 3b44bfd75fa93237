import BoundedStore.Proofs.Value.Items
import Mathlib.Data.List.Basic

/-!
# Which occurrences a removal takes

Of the items that are the same as a target, a removal takes as many as its count allows (`quota`):
the first ones for a positive count, the last ones for a negative one, and for zero all of them.
Every other item stays, and in its place.

To be the first of these items is said by a cut (`LosesFirst`). The list is cut in two so that the
part at the head has just the items that go; they are all taken out of it, and the other part is
left alone. Where the cut is made is not said, but it makes no difference either, as there is
nothing to take between two places for it.

The two directions are one and the same, on a list and on its reverse (`LosesFirst.reverse`,
`remove_neg`).
-/

namespace BoundedStore

namespace Items

/-! ## Occurrences -/

/-- How many items are the same as `target`. -/
def occurrences (items : List Value) (target : Value) : Nat :=
  items.countP fun x => x.same target

/-- The items that are not the same as `target`. -/
def without (items : List Value) (target : Value) : List Value :=
  items.filter fun x => !x.same target

/-- How many items a removal is to take: all that are the same as `target` for a `count` of zero,
and otherwise no more than `count` without its sign. -/
def quota (items : List Value) (count : Int) (target : Value) : Nat :=
  if count = 0 then occurrences items target else min count.natAbs (occurrences items target)

/-- The list is `before` without the first `n` items that are the same as `target`: a part of it at
the head has as many such items, and loses them, and the part behind stays as it is. -/
def LosesFirst (target : Value) (n : Nat) (before after : List Value) : Prop :=
  ∃ front back, before = front ++ back ∧ occurrences front target = n ∧
    after = without front target ++ back

/-- The list is `before` without the last `n` items that are the same as `target`. -/
def LosesLast (target : Value) (n : Nat) (before after : List Value) : Prop :=
  ∃ front back, before = front ++ back ∧ occurrences back target = n ∧
    after = front ++ without back target

theorem occurrences_reverse (items : List Value) (target : Value) :
    occurrences items.reverse target = occurrences items target :=
  (List.reverse_perm items).countP_eq _

theorem occurrences_le_length (items : List Value) (target : Value) :
    occurrences items target ≤ items.length :=
  List.countP_le_length

theorem without_reverse (items : List Value) (target : Value) :
    without items.reverse target = (without items target).reverse :=
  List.filter_reverse

theorem length_without (items : List Value) (target : Value) :
    (without items target).length + occurrences items target = items.length := by
  have h := List.length_eq_countP_add_countP (fun x : Value => x.same target) (l := items)
  unfold without occurrences
  rw [← List.countP_eq_length_filter, h, Nat.add_comm]
  simp

/-! ## The first and the last occurrences -/

section Loses

variable {target : Value} {n : Nat} {before after : List Value}

theorem LosesFirst.length_eq (h : LosesFirst target n before after) :
    after.length + n = before.length := by
  obtain ⟨front, back, rfl, rfl, rfl⟩ := h
  have hfront := length_without front target
  rw [List.length_append, List.length_append]
  omega

theorem LosesLast.length_eq (h : LosesLast target n before after) :
    after.length + n = before.length := by
  obtain ⟨front, back, rfl, rfl, rfl⟩ := h
  have hback := length_without back target
  rw [List.length_append, List.length_append]
  omega

/-- What goes from the head goes from the end of the list in reverse order. -/
theorem LosesFirst.reverse (h : LosesFirst target n before after) :
    LosesLast target n before.reverse after.reverse := by
  obtain ⟨front, back, rfl, hcount, rfl⟩ := h
  refine ⟨back.reverse, front.reverse, List.reverse_append, ?_, ?_⟩
  · rw [occurrences_reverse, hcount]
  · rw [List.reverse_append, without_reverse]

end Loses

/-! ## What a removal takes -/

/-- Once the limit is used up, the list is cut: what is left of it stays. -/
theorem losesFirst_dropSame (target : Value) (limit : Nat) (items : List Value) :
    LosesFirst target (min limit (occurrences items target)) items
      (dropSame target limit items) := by
  induction items generalizing limit with
  | nil => cases limit <;> exact ⟨[], [], rfl, rfl, rfl⟩
  | cons x rest ih =>
    cases limit with
    | zero => exact ⟨[], x :: rest, rfl, (Nat.zero_min _).symm, rfl⟩
    | succ limit =>
      unfold dropSame
      by_cases hsame : x.same target = true
      · obtain ⟨front, back, hsplit, hcount, hafter⟩ := ih limit
        have hone : ∀ others, occurrences (x :: others) target = occurrences others target + 1 :=
          fun others => List.countP_cons_of_pos hsame
        refine ⟨x :: front, back, by rw [hsplit]; rfl, ?_, ?_⟩
        · rw [hone, hone, hcount, Nat.add_min_add_right]
        · rw [if_pos hsame, hafter]
          simp [without, hsame]
      · obtain ⟨front, back, hsplit, hcount, hafter⟩ := ih (limit + 1)
        have hnone : ∀ others, occurrences (x :: others) target = occurrences others target :=
          fun others => List.countP_cons_of_neg hsame
        refine ⟨x :: front, back, by rw [hsplit]; rfl, ?_, ?_⟩
        · rw [hnone, hnone, hcount]
        · rw [if_neg hsame, hafter]
          simp [without, hsame]

theorem losesFirst_remove {count : Int64} (h : 0 ≤ count.toInt) (items : List Value)
    (target : Value) :
    LosesFirst target (quota items count.toInt target) items (remove items count target) := by
  unfold remove quota
  by_cases hall : count.toInt = 0
  · -- there are no more occurrences than items
    have hmin := Nat.min_eq_right (occurrences_le_length items target)
    rw [if_pos hall, if_pos hall, ← hmin]
    exact losesFirst_dropSame target items.length items
  · have hpos : 0 < count.toInt := by omega
    rw [if_neg hall, if_neg hall, if_pos hpos]
    exact losesFirst_dropSame target count.toInt.natAbs items

theorem losesLast_remove {count : Int64} (h : count.toInt < 0) (items : List Value)
    (target : Value) :
    LosesLast target (quota items count.toInt target) items (remove items count target) := by
  have hsome : ¬ count.toInt = 0 := by omega
  have hneg : ¬ 0 < count.toInt := by omega
  have hreversed := (losesFirst_dropSame target count.toInt.natAbs items.reverse).reverse
  rw [List.reverse_reverse, occurrences_reverse] at hreversed
  unfold remove quota
  rw [if_neg hsome, if_neg hsome, if_neg hneg]
  exact hreversed

theorem length_remove (items : List Value) (count : Int64) (target : Value) :
    (remove items count target).length + quota items count.toInt target = items.length := by
  by_cases hnonneg : 0 ≤ count.toInt
  · exact (losesFirst_remove hnonneg items target).length_eq
  · exact (losesLast_remove (by omega) items target).length_eq

/-! ## The other direction -/

/-- There are as many negative counts as positive ones, and one more. -/
theorem toInt_neg {count : Int64} (h : 0 < count.toInt) : (-count).toInt = -count.toInt := by
  have hlt := count.toInt_lt
  rw [Int64.toInt_neg, Int.bmod_eq_of_le] <;> omega

theorem remove_neg {count : Int64} (h : 0 < count.toInt) (items : List Value) (target : Value) :
    remove items (-count) target = (remove items.reverse count target).reverse := by
  have hsome : ¬ count.toInt = 0 := by omega
  have hsome' : ¬ -count.toInt = 0 := by omega
  have hneg : ¬ 0 < -count.toInt := by omega
  unfold remove
  rw [toInt_neg h, if_neg hsome', if_neg hneg, if_neg hsome, if_pos h, Int.natAbs_neg]

theorem quota_neg (items : List Value) (count : Int) (target : Value) :
    quota items (-count) target = quota items.reverse count target := by
  unfold quota
  rw [occurrences_reverse, Int.natAbs_neg]
  simp only [Int.neg_eq_zero]

end Items

end BoundedStore
