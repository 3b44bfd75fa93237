import BoundedStore.Value.Items

/-!
# Items at an end, at a position, and after a removal

Only the empty list has no item at an end, and an index selects what stands at its position. One end
of a list is the other end of the list in reverse.

A removal takes items out and moves none, so what it leaves is a sublist. In particular, a removal
that counts nothing as removed leaves the list as it was, although one from the end takes the whole
list apart to find that out.
-/

namespace BoundedStore

/-- The other end. -/
def Side.opposite : Side → Side
  | head => tail
  | tail => head

namespace Items

/-! ### Ends and positions -/

theorem pop?_eq_none_iff {side : Side} {items : List Value} :
    pop? side items = none ↔ items = [] := by
  cases side with
  | head => cases items <;> simp [pop?]
  | tail => simp [pop?]

/-- To put an item at the other end of the list in reverse is to put it here. -/
theorem push_reverse (side : Side) (items : List Value) (x : Value) :
    push side.opposite items.reverse x = (push side items x).reverse := by
  cases side with
  | head => exact List.reverse_cons.symm
  | tail =>
    have hreverse : (items ++ [x]).reverse = x :: items.reverse := List.reverse_append
    exact hreverse.symm

/-- The other end of the list in reverse has the same item. -/
theorem pop?_reverse (side : Side) (items : List Value) :
    pop? side.opposite items.reverse =
      (pop? side items).map fun (x, rest) => (x, rest.reverse) := by
  cases side with
  | head =>
    cases items with
    | nil => rfl
    | cons x rest => simp [pop?, Side.opposite]
  | tail =>
    rcases List.eq_nil_or_concat items with rfl | ⟨rest, x, rfl⟩
    · rfl
    · simp [pop?, Side.opposite]

/-- Past the end there is no item, so only a negative index has to be told apart. -/
theorem getElem?_position? (items : List Value) (index : Int64) :
    ((position? items.length index).bind fun i => items[i]?) =
      if 0 ≤ index.toInt then items[index.toInt.toNat]? else none := by
  unfold position?
  by_cases hnonneg : 0 ≤ index.toInt
  · by_cases hinside : index.toInt < items.length
    · simp [hnonneg, hinside]
    · have hpast : items.length ≤ index.toInt.toNat := by omega
      rw [if_neg fun h => hinside h.2, if_pos hnonneg, List.getElem?_eq_none hpast]
      rfl
  · simp [hnonneg]

/-! ### What is left -/

theorem pop?_sublist {side : Side} {items rest : List Value} {x : Value}
    (h : pop? side items = some (x, rest)) : rest.Sublist items := by
  cases side with
  | head =>
    cases items with
    | nil => cases h
    | cons first others =>
      obtain ⟨-, rfl⟩ := Prod.mk.inj (Option.some.inj h)
      exact List.sublist_cons_self first others
  | tail =>
    obtain ⟨last, -, hlast⟩ := Option.map_eq_some_iff.mp h
    obtain ⟨-, rfl⟩ := Prod.mk.inj hlast
    exact List.dropLast_sublist items

theorem trim_sublist (items : List Value) (start stop : Int64) :
    (trim items start stop).Sublist items := by
  unfold trim
  split
  next first last _ => exact (List.drop_sublist first _).trans (List.take_sublist (last + 1) items)
  next => exact List.nil_sublist items

/-! ### Removals -/

/-- Items are dropped from where they stand. -/
theorem dropSame_sublist (target : Value) (limit : Nat) (items : List Value) :
    (dropSame target limit items).Sublist items := by
  induction items generalizing limit with
  | nil => cases limit <;> exact List.Sublist.refl []
  | cons x rest ih =>
    cases limit with
    | zero => exact List.Sublist.refl (x :: rest)
    | succ limit =>
      unfold dropSame
      by_cases hsame : x.same target = true
      · rw [if_pos hsame]
        exact (ih limit).cons x
      · rw [if_neg hsame]
        exact (ih (limit + 1)).cons_cons x

theorem remove_sublist (items : List Value) (count : Int64) (target : Value) :
    (remove items count target).Sublist items := by
  unfold remove
  split
  · exact dropSame_sublist target items.length items
  · split
    · exact dropSame_sublist target count.toInt.natAbs items
    · -- the list is read from its end, and what is left is put back in order
      have hreversed := dropSame_sublist target count.toInt.natAbs items.reverse
      have := hreversed.reverse
      rwa [List.reverse_reverse] at this

/-- When no item is counted as removed, the list is as it was. -/
theorem remove_eq_self {items : List Value} {count : Int64} {target : Value}
    (h : items.length - (remove items count target).length = 0) :
    remove items count target = items := by
  have hsublist := remove_sublist items count target
  have hshorter : (remove items count target).length ≤ items.length := hsublist.length_le
  exact hsublist.eq_of_length (by omega)

end Items

end BoundedStore
