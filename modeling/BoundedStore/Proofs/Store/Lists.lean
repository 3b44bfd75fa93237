import BoundedStore.Proofs.Store.Basic
import BoundedStore.Proofs.Value.Occurrences
import BoundedStore.Proofs.Value.Ranges

/-!
# Operations on a stored list

Where a key holds a list, every operation on lists does to the stored list what is done to its
items, and counts as a use of the key. With that, what is known of items is known of stored lists:

* a range answers the items at its positions, and a trim leaves them (`range_and_trim_select`);
* a removal takes as many occurrences as it is told to, from the end it is told to
  (`removeItems_takes_occurrences`);
* all operations agree on what an index means, and an item that is overwritten is found again, at
  its position and nowhere else (`positions_agree`).
-/

namespace BoundedStore

namespace Store

/-! ## One operation -/

section OneOperation

variable {s : Store} {key : String} {items : List Value} (h : s.find? key = some (.list items))
include h

theorem listLength_of_list : s.listLength key = (.ok items.length, s.use key) := by
  unfold listLength itemsAt
  rw [h]
  rfl

theorem listRange_of_list (start stop : Int64) :
    s.listRange key start stop = (.ok (Items.slice items start stop), s.use key) := by
  unfold listRange itemsAt
  rw [h]
  rfl

theorem itemAt_of_list (index : Int64) :
    s.itemAt key index =
      (some (((Items.position? items.length index).bind fun i => items[i]?).getD (.text "")),
        s.use key) := by
  unfold itemAt
  rw [h]

theorem setItem_of_inside {index : Int64} {i : Nat}
    (hi : Items.position? items.length index = some i) (value : Value) :
    s.setItem key index value = (true, s.write key (.list (items.set i value))) := by
  unfold setItem
  rw [h]
  simp only [hi]

theorem setItem_of_outside {index : Int64} (hi : Items.position? items.length index = none)
    (value : Value) : s.setItem key index value = (false, s.use key) := by
  unfold setItem
  rw [h]
  simp only [hi]

theorem trimList_of_list (start stop : Int64) :
    s.trimList key start stop = (true, s.write key (.list (Items.trim items start stop))) := by
  unfold trimList
  rw [h]

theorem removeItems_of_list (count : Int64) (target : Value) :
    s.removeItems key count target =
      (Items.quota items count.toInt target,
        s.write key (.list (Items.remove items count target))) := by
  have hlength := Items.length_remove items count target
  have hremoved : items.length - (Items.remove items count target).length =
      Items.quota items count.toInt target := by omega
  unfold removeItems
  rw [h, ← hremoved]

end OneOperation

/-! ## Ranges -/

/-- **Ranges and trims.** On a list of any length that words can count, and for any two bounds, a
range answers the items at its positions, in order, and a trim leaves in the store what the range
would have answered just before, also where that is nothing. The bounds that the two go by are
computed in words without going past their end, and are positions of the list. So there is no word
too great to come behind the last of them, and no fewer items up to there than are to be dropped. -/
theorem range_and_trim_select {s : Store} {key : String} {items : List Value}
    (h : s.find? key = some (.list items)) (hlength : items.length < Nat.pow 2 63)
    (start stop : Int64) :
    (s.listRange key start stop).1 = .ok (Items.selected items start.toInt stop.toInt) ∧
    (s.trimList key start stop).1 = true ∧
    (s.trimList key start stop).2.find? key =
      some (.list (Items.selected items start.toInt stop.toInt)) ∧
    (Items.wordWindow? (.ofNat items.length) start stop).map (Prod.map UInt64.toNat UInt64.toNat) =
      Items.window? items.length start stop ∧
    ∀ first last, Items.wordWindow? (.ofNat items.length) start stop = some (first, last) →
      first.toNat ≤ last.toNat ∧ last.toNat < items.length ∧
      (last + 1).toNat = last.toNat + 1 ∧
      first.toNat ≤ (items.take (last + 1).toNat).length := by
  have hwords := Items.map_toNat_wordWindow? hlength start stop
  rw [listRange_of_list h, trimList_of_list h, Items.trim_eq_slice, Items.slice_eq_selected]
  refine ⟨rfl, rfl, s.find?_write_self key _, hwords, fun first last hwindow => ?_⟩
  rw [hwindow] at hwords
  obtain ⟨-, hlast, hle⟩ := Items.window?_eq_some_iff.mp hwords.symm
  have hinside : last.toNat < items.length := by omega
  have hnext : (last + 1).toNat = last.toNat + 1 := by
    have hsize : Nat.pow 2 63 < UInt64.size := by decide
    rw [UInt64.toNat_add]
    exact Nat.mod_eq_of_lt (Nat.lt_of_le_of_lt hinside (Nat.lt_trans hlength hsize))
  rw [hnext, List.length_take]
  exact ⟨hle, hinside, rfl, by omega⟩

/-- Three items. A range up to the greatest word, one of a single position, and one that begins
before the list, of which nothing is left. -/
theorem range_and_trim_select_three :
    ∃ s : Store, s.Reachable ∧ s.find? "l" = some (.list [.integer 1, .integer 2, .integer 3]) ∧
      [Value.integer 1, .integer 2, .integer 3].length < Nat.pow 2 63 ∧
      (s.listRange "l" 1 Int64.maxValue).1 = .ok [.integer 2, .integer 3] ∧
      (s.trimList "l" 1 Int64.maxValue).2.find? "l" = some (.list [.integer 2, .integer 3]) ∧
      (s.trimList "l" 2 2).2.find? "l" = some (.list [.integer 3]) ∧
      (s.trimList "l" Int64.minValue 2).1 = true ∧
      (s.trimList "l" Int64.minValue 2).2.find? "l" = some (.list []) := by
  obtain ⟨s, hreachable, hlist⟩ : ∃ s : Store, s.Reachable ∧
      s.find? "l" = some (.list [.integer 1, .integer 2, .integer 3]) :=
    ⟨_, reachable_run (by decide : 1 ≤ 1) ⟨fun _ => 0, 0⟩
      [.command (.push .tail "l" (.integer 2)), .command (.push .tail "l" (.integer 3)),
        .command (.push .head "l" (.integer 1))], by decide⟩
  have hlength : [Value.integer 1, .integer 2, .integer 3].length < Nat.pow 2 63 := by decide
  obtain ⟨hrange, -, htrim, -⟩ := range_and_trim_select hlist hlength 1 Int64.maxValue
  obtain ⟨-, -, hone, -⟩ := range_and_trim_select hlist hlength 2 2
  obtain ⟨-, hdone, hnone, -⟩ := range_and_trim_select hlist hlength Int64.minValue 2
  exact ⟨s, hreachable, hlist, hlength, hrange, htrim, hone, hdone, hnone⟩

/-! ## Removals -/

/-- **Removals.** A removal takes from a stored list as many items that are the same as its target
as its count allows, and answers how many: the first ones, or the last ones if the count is
negative. Nothing else goes, and nothing moves. For a negative count it is the mirror image of the
removal for the positive one, on any store that holds the list in reverse. -/
theorem removeItems_takes_occurrences {s : Store} {key : String} {items : List Value}
    (h : s.find? key = some (.list items)) (count : Int64) (target : Value) :
    (∃ kept,
      (s.removeItems key count target).1 = Items.quota items count.toInt target ∧
      (s.removeItems key count target).2.find? key = some (.list kept) ∧
      (0 ≤ count.toInt →
        Items.LosesFirst target (Items.quota items count.toInt target) items kept) ∧
      (count.toInt < 0 →
        Items.LosesLast target (Items.quota items count.toInt target) items kept)) ∧
    ∀ (t : Store) (other : String), t.find? other = some (.list items.reverse) →
      0 < count.toInt →
      (s.removeItems key (-count) target).1 = (t.removeItems other count target).1 ∧
      ∃ kept,
        (t.removeItems other count target).2.find? other = some (.list kept) ∧
        (s.removeItems key (-count) target).2.find? key = some (.list kept.reverse) := by
  constructor
  · rw [removeItems_of_list h]
    exact ⟨_, rfl, s.find?_write_self key _,
      fun hnonneg => Items.losesFirst_remove hnonneg items target,
      fun hneg => Items.losesLast_remove hneg items target⟩
  · intro t other ht hpos
    rw [removeItems_of_list h, removeItems_of_list ht, Items.remove_neg hpos, Items.toInt_neg hpos,
      Items.quota_neg]
    exact ⟨rfl, _, t.find?_write_self other _, s.find?_write_self key _⟩

/-- Three occurrences in two spellings. The last two go for a count of minus two, all of them for the
least word, and as many go from the head of the list in reverse. -/
theorem removeItems_takes_occurrences_spelled :
    ∃ s : Store, s.Reachable ∧
      s.find? "l" = some (.list [.set [.integer 1, .integer 2], .text "x",
        .set [.integer 2, .integer 1], .set [.integer 1, .integer 2]]) ∧
      s.find? "r" = some (.list [.set [.integer 1, .integer 2], .set [.integer 2, .integer 1],
        .text "x", .set [.integer 1, .integer 2]]) ∧
      (s.removeItems "l" (-2) (.set [.integer 1, .integer 2])).1 = 2 ∧
      (s.removeItems "l" (-2) (.set [.integer 1, .integer 2])).2.find? "l" =
        some (.list [.set [.integer 1, .integer 2], .text "x"]) ∧
      (s.removeItems "r" 2 (.set [.integer 1, .integer 2])).2.find? "r" =
        some (.list [.text "x", .set [.integer 1, .integer 2]]) ∧
      (s.removeItems "l" Int64.minValue (.set [.integer 1, .integer 2])).1 = 3 := by
  obtain ⟨s, hreachable, hlist, hreverse⟩ : ∃ s : Store, s.Reachable ∧
      s.find? "l" = some (.list [.set [.integer 1, .integer 2], .text "x",
        .set [.integer 2, .integer 1], .set [.integer 1, .integer 2]]) ∧
      s.find? "r" = some (.list [.set [.integer 1, .integer 2], .set [.integer 2, .integer 1],
        .text "x", .set [.integer 1, .integer 2]]) :=
    ⟨_, reachable_run (by decide : 1 ≤ 2) ⟨fun _ => 0, 0⟩
      ([Value.set [.integer 1, .integer 2], .text "x", .set [.integer 2, .integer 1],
        .set [.integer 1, .integer 2]].flatMap fun v =>
          [.command (.push .tail "l" v), .command (.push .head "r" v)]),
      by decide, by decide⟩
  have hhead : (s.removeItems "r" 2 (.set [.integer 1, .integer 2])).2.find? "r" =
      some (.list [.text "x", .set [.integer 1, .integer 2]]) := by
    rw [removeItems_of_list hreverse]
    exact (s.find?_write_self "r" _).trans (by decide)
  obtain ⟨⟨-, htwo, -⟩, -⟩ :=
    removeItems_takes_occurrences hlist (-2) (.set [.integer 1, .integer 2])
  obtain ⟨⟨-, hall, -⟩, -⟩ :=
    removeItems_takes_occurrences hlist Int64.minValue (.set [.integer 1, .integer 2])
  obtain ⟨-, kept, hkept, hmirrored⟩ :=
    (removeItems_takes_occurrences hlist 2 (.set [.integer 1, .integer 2])).2 s "r" hreverse
      (by decide)
  obtain rfl := Value.list.inj (Option.some.inj (hhead.symm.trans hkept))
  exact ⟨s, hreachable, hlist, hreverse, htwo.trans (by decide), hmirrored, hhead,
    hall.trans (by decide)⟩

/-! ## Positions -/

/-- How the operations that take an index fit together at a key that holds a list. -/
structure PositionLaws (s : Store) (key : String) : Prop where
  /-- There is an item to overwrite at the positions below the length, which are those at which the
  range of one position has an item. -/
  inside : ∀ i v, ∃ n, (s.listLength key).1 = .ok n ∧
    ((s.setItem key i v).1 = true ↔ 0 ≤ i.toInt ∧ i.toInt < n) ∧
    ((s.setItem key i v).1 = true ↔ ∃ x, (s.listRange key i i).1 = .ok [x])
  /-- An index answers the one item of that range, and the empty text where it has none. -/
  read : ∀ i,
    (∃ x, (s.listRange key i i).1 = .ok [x] ∧ (s.itemAt key i).1 = some x) ∨
    ((s.listRange key i i).1 = .ok [] ∧ (s.itemAt key i).1 = some (.text ""))
  length_set : ∀ i v, (s.setItem key i v).1 = true →
    ((s.setItem key i v).2.listLength key).1 = (s.listLength key).1
  itemAt_set : ∀ i v, (s.setItem key i v).1 = true →
    ((s.setItem key i v).2.itemAt key i).1 = some v
  itemAt_set_of_ne : ∀ i j v, j ≠ i → (s.setItem key i v).1 = true →
    ((s.setItem key i v).2.itemAt key j).1 = (s.itemAt key j).1
  /-- Of a range only the item at the index is another. -/
  range_set : ∀ i v, (s.setItem key i v).1 = true → ∀ start stop, ∃ before after,
    (s.listRange key start stop).1 = .ok before ∧
    ((s.setItem key i v).2.listRange key start stop).1 = .ok after ∧
    ∀ n : Nat, after[n]? =
      if start.toInt + n = i.toInt then before[n]?.map fun _ => v else before[n]?
  /-- An item that is overwritten by itself is only a use of the key. -/
  set_itemAt : ∀ i x, (s.setItem key i x).1 = true → (s.itemAt key i).1 = some x →
    s.setItem key i x = (true, s.use key)
  /-- The order in which two items are overwritten does not matter. -/
  set_comm : ∀ i j v w, i ≠ j → (s.setItem key i v).1 = true → (s.setItem key j w).1 = true →
    ((s.setItem key i v).2.setItem key j w).1 = true ∧
    (s.setItem key i v).2.setItem key j w = (s.setItem key j w).2.setItem key i v

section Positions

variable {s : Store} {key : String} {items : List Value} (h : s.find? key = some (.list items))
include h

theorem setItem_eq_true_iff (index : Int64) (value : Value) :
    (s.setItem key index value).1 = true ↔ ∃ i, Items.position? items.length index = some i := by
  cases hi : Items.position? items.length index with
  | none => simp [setItem_of_outside h hi]
  | some i => simp [setItem_of_inside h hi]

/-- A write to the key of a list is lost to the next one. -/
theorem write_write_of_list (first second : Value) :
    (s.write key first).write key second = (s.use key).write key second := by
  have hlive : s.map.contains key = true := contains_of_find? h
  unfold write
  rw [Bounded.insert_insert_of_live hlive]
  rfl

theorem write_eq_use_of_list : s.write key (.list items) = s.use key := by
  have hmap : s.map.peek key = some (.list items) := h
  unfold write use
  rw [Bounded.insert_eq_use hmap]

variable {index : Int64} {i : Nat} (hi : Items.position? items.length index = some i)
include hi

theorem find?_setItem (value : Value) :
    (s.setItem key index value).2.find? key = some (.list (items.set i value)) := by
  rw [setItem_of_inside h hi]
  exact s.find?_write_self key _

theorem itemAt_setItem (other : Int64) (value : Value) :
    ((s.setItem key index value).2.itemAt key other).1 =
      if other = index then some value else (s.itemAt key other).1 := by
  obtain ⟨-, hinside⟩ := Items.position?_eq_some_iff.mp hi
  rw [itemAt_of_list (find?_setItem h hi value), itemAt_of_list h, List.length_set]
  by_cases hsame : other = index
  · rw [if_pos hsame, hsame, hi, Option.bind_some, List.getElem?_set_self hinside]
    rfl
  · rw [if_neg hsame]
    cases hj : Items.position? items.length other with
    | none => rfl
    | some j =>
      have hne : i ≠ j := fun e => hsame (Items.position?_inj hj (e ▸ hi))
      rw [Option.bind_some, Option.bind_some, List.getElem?_set_ne hne]

theorem setItem_itemAt {value : Value} (hitem : (s.itemAt key index).1 = some value) :
    s.setItem key index value = (true, s.use key) := by
  obtain ⟨-, hinside⟩ := Items.position?_eq_some_iff.mp hi
  obtain rfl : items[i] = value := by
    rw [itemAt_of_list h, hi, Option.bind_some, List.getElem?_eq_getElem hinside] at hitem
    exact Option.some.inj hitem
  rw [setItem_of_inside h hi, List.set_getElem_self hinside, write_eq_use_of_list h]

theorem setItem_setItem {other : Int64} {j : Nat}
    (hj : Items.position? items.length other = some j) (first second : Value) :
    (s.setItem key index first).2.setItem key other second =
      (true, (s.use key).write key (.list ((items.set i first).set j second))) := by
  have hj' : Items.position? (items.set i first).length other = some j := by
    rw [List.length_set]
    exact hj
  rw [setItem_of_inside (find?_setItem h hi first) hj', setItem_of_inside h hi]
  exact congrArg (Prod.mk true) (write_write_of_list h _ _)

end Positions

/-- **Positions.** All operations on a stored list agree on which indices have an item, and an item
that is overwritten is found there and nowhere else. -/
theorem positions_agree {s : Store} {key : String} {items : List Value}
    (h : s.find? key = some (.list items)) : PositionLaws s key where
  inside i v := by
    refine ⟨items.length, by rw [listLength_of_list h], ?_, ?_⟩
    · rw [setItem_eq_true_iff h]
      constructor
      · rintro ⟨k, hk⟩
        have hinside := Items.position?_eq_some_iff.mp hk
        omega
      · intro hinside
        exact ⟨i.toInt.toNat, Items.position?_eq_some_iff.mpr (by omega)⟩
    · rw [setItem_eq_true_iff h, listRange_of_list h]
      cases hk : Items.position? items.length i with
      | none => exact iff_of_false (by simp) (by simp [Items.slice_of_outside hk])
      | some k =>
        obtain ⟨x, -, hslice⟩ := Items.slice_of_inside hk
        exact iff_of_true ⟨k, rfl⟩ ⟨x, congrArg _ hslice⟩
  read i := by
    rw [listRange_of_list h, itemAt_of_list h]
    cases hk : Items.position? items.length i with
    | none => exact Or.inr ⟨congrArg _ (Items.slice_of_outside hk), rfl⟩
    | some k =>
      obtain ⟨x, hx, hslice⟩ := Items.slice_of_inside hk
      refine Or.inl ⟨x, congrArg _ hslice, ?_⟩
      rw [Option.bind_some, hx]
      rfl
  length_set i v hset := by
    obtain ⟨k, hk⟩ := (setItem_eq_true_iff h i v).mp hset
    rw [listLength_of_list (find?_setItem h hk v), listLength_of_list h, List.length_set]
  itemAt_set i v hset := by
    obtain ⟨k, hk⟩ := (setItem_eq_true_iff h i v).mp hset
    rw [itemAt_setItem h hk, if_pos rfl]
  itemAt_set_of_ne i j v hne hset := by
    obtain ⟨k, hk⟩ := (setItem_eq_true_iff h i v).mp hset
    rw [itemAt_setItem h hk, if_neg hne]
  range_set i v hset start stop := by
    obtain ⟨k, hk⟩ := (setItem_eq_true_iff h i v).mp hset
    rw [listRange_of_list (find?_setItem h hk v), listRange_of_list h]
    exact ⟨_, _, rfl, rfl, Items.getElem?_slice_set items hk v start stop⟩
  set_itemAt i x hset hitem := by
    obtain ⟨k, hk⟩ := (setItem_eq_true_iff h i x).mp hset
    exact setItem_itemAt h hk hitem
  set_comm i j v w hne hset hset' := by
    obtain ⟨k, hk⟩ := (setItem_eq_true_iff h i v).mp hset
    obtain ⟨l, hl⟩ := (setItem_eq_true_iff h j w).mp hset'
    have hkl : k ≠ l := fun e => hne (Items.position?_inj hk (e ▸ hl))
    rw [setItem_setItem h hk hl, setItem_setItem h hl hk, List.set_comm v w hkl]
    exact ⟨rfl, rfl⟩

/-- A list of two. A text that spells a number is found as it was given; the least and the greatest
index have no item. -/
theorem positions_agree_two :
    ∃ s : Store, s.Reachable ∧ s.find? "l" = some (.list [.integer 1, .integer 2]) ∧
      (s.itemAt "l" Int64.minValue).1 = some (.text "") ∧
      (s.setItem "l" Int64.maxValue (.text "7")).1 = false ∧
      (s.setItem "l" 1 (.text "7")).1 = true ∧
      ((s.setItem "l" 1 (.text "7")).2.itemAt "l" 1).1 = some (.text "7") ∧
      ((s.setItem "l" 1 (.text "7")).2.itemAt "l" 0).1 = (s.itemAt "l" 0).1 ∧
      PositionLaws s "l" := by
  obtain ⟨s, hreachable, hlist⟩ : ∃ s : Store, s.Reachable ∧
      s.find? "l" = some (.list [.integer 1, .integer 2]) :=
    ⟨_, reachable_run (by decide : 1 ≤ 1) ⟨fun _ => 0, 0⟩
      [.command (.push .tail "l" (.integer 1)), .command (.push .tail "l" (.integer 2))],
      by decide⟩
  have hlaws := positions_agree hlist
  have hlast : (s.setItem "l" 1 (.text "7")).1 = true :=
    (setItem_eq_true_iff hlist 1 (.text "7")).mpr ⟨1, by decide⟩
  have houtside : (s.setItem "l" Int64.maxValue (.text "7")).1 = false :=
    congrArg Prod.fst (setItem_of_outside hlist (by decide) (.text "7"))
  have hbefore : (s.itemAt "l" Int64.minValue).1 = some (.text "") :=
    congrArg Prod.fst (itemAt_of_list hlist Int64.minValue)
  exact ⟨s, hreachable, hlist, hbefore, houtside, hlast, hlaws.itemAt_set 1 _ hlast,
    hlaws.itemAt_set_of_ne 1 0 _ (by decide) hlast, hlaws⟩

end Store

end BoundedStore
