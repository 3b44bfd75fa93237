import BoundedStore.Proofs.Value.Classes
import BoundedStore.Proofs.Value.Items
import BoundedStore.Value.Coerce

/-!
# Equal values in the same places

Equal values need not be written alike, since sets inside them may list their members in different
orders. Lists are `Paired` when they have equal values position by position, and stored values are
`Aligned` when they are equal scalars, or lists or sets that are paired in their own order. Equality
is meant in both directions, `x ≈ y`, which for well-formed values is no more than one of them
(`equiv_iff_same`).

All that is done to a list or to a set goes by equality alone: an item is compared (`same_congr`),
or it is moved to a place that depends on such comparisons and on lengths. So from paired lists
paired ones are made, and what is counted or answered on the way is the same.
-/

namespace BoundedStore

namespace Value

theorem equiv_iff_same {x : Value} (hx : x.WellFormed) (y : Value) : x ≈ y ↔ x.same y = true :=
  ⟨fun h => h.1, fun h => ⟨h, same_symm hx h⟩⟩

/-- Equal values are the same as the same values. -/
theorem same_congr {x x' y y' : Value} (hx : x ≈ x') (hy : y ≈ y') : x.same y = x'.same y' := by
  rw [Bool.eq_iff_iff]
  exact ⟨fun h => same_trans hx.2 (same_trans h hy.1),
    fun h => same_trans hx.1 (same_trans h hy.2)⟩

/-- Lists with equal values position by position. -/
abbrev Paired : List Value → List Value → Prop :=
  List.Forall₂ (· ≈ ·)

theorem Paired.refl (xs : List Value) : Paired xs xs :=
  List.forall₂_same.mpr fun x _ => Setoid.refl x

/-- Each member is found in the other set at its own position. -/
theorem same_set_of_forall₂ {xs ys : Members}
    (h : List.Forall₂ (fun x y => x.same y = true) xs ys) :
    (Value.set xs).same (Value.set ys) = true := by
  refine (same_set_iff xs ys).mpr ⟨h.length_eq, fun x hx => ?_⟩
  obtain ⟨i, hi, rfl⟩ := List.getElem_of_mem hx
  have hi' : i < ys.length := by rwa [← h.length_eq]
  exact ⟨ys[i], List.getElem_mem hi', h.get hi hi'⟩

/-- Stored values that are equal, and list what is in them in the same order. -/
inductive Aligned : Value → Value → Prop
  | integer (n : Int64) : Aligned (integer n) (integer n)
  | text (s : String) : Aligned (text s) (text s)
  | list {xs ys : List Value} (h : Paired xs ys) : Aligned (list xs) (list ys)
  | set {xs ys : Members} (h : Paired xs ys) : Aligned (set xs) (set ys)

namespace Aligned

variable {v w : Value}

theorem refl (v : Value) : Aligned v v := by
  cases v with
  | integer n => exact .integer n
  | text s => exact .text s
  | list items => exact .list (.refl items)
  | set members => exact .set (.refl members)

theorem kind_eq (h : Aligned v w) : v.kind = w.kind := by
  cases h <;> rfl

theorem coerce (h : Aligned v w) : Aligned v.coerce w.coerce := by
  cases h with
  | integer | text => exact .refl _
  | list hitems => exact .list hitems
  | set hmembers => exact .set hmembers

/-- Aligned values are equal. -/
theorem equiv (h : Aligned v w) : v ≈ w := by
  cases h with
  | integer | text => exact Setoid.refl _
  | list hitems =>
    exact ⟨(same_list_iff _ _).mpr (hitems.imp fun _ _ hxy => hxy.1),
      (same_list_iff _ _).mpr (hitems.flip.imp fun _ _ hxy => hxy.2)⟩
  | set hmembers =>
    exact ⟨same_set_of_forall₂ (hmembers.imp fun _ _ hxy => hxy.1),
      same_set_of_forall₂ (hmembers.flip.imp fun _ _ hxy => hxy.2)⟩

end Aligned

/-! ## Lists -/

namespace Paired

variable {xs ys : List Value} {x y : Value}

theorem getElem? (h : Paired xs ys) (i : Nat) : Option.Rel (· ≈ ·) xs[i]? ys[i]? := by
  induction h generalizing i with
  | nil => exact .none
  | cons hfirst _ ih =>
    cases i with
    | zero => exact .some hfirst
    | succ i => exact ih i

theorem getD (h : Paired xs ys) (i : Nat) (other : Value) :
    xs[i]?.getD other ≈ ys[i]?.getD other := by
  have hitem := h.getElem? i
  generalize xs[i]? = x, ys[i]? = y at hitem ⊢
  cases hitem with
  | none => exact Setoid.refl other
  | some hsame => exact hsame

theorem set (h : Paired xs ys) (i : Nat) (hx : x ≈ y) : Paired (xs.set i x) (ys.set i y) := by
  induction h generalizing i with
  | nil => exact .nil
  | cons hfirst hrest ih =>
    cases i with
    | zero => exact .cons hx hrest
    | succ i => exact .cons hfirst (ih i)

theorem push (h : Paired xs ys) (side : Side) (hx : x ≈ y) :
    Paired (Items.push side xs x) (Items.push side ys y) := by
  cases side with
  | head => exact .cons hx h
  | tail => exact List.rel_append h (.cons hx .nil)

theorem dropLast (h : Paired xs ys) : Paired xs.dropLast ys.dropLast := by
  rw [List.dropLast_eq_take, List.dropLast_eq_take, h.length_eq]
  exact List.forall₂_take _ h

theorem getLast? (h : Paired xs ys) : Option.Rel (· ≈ ·) xs.getLast? ys.getLast? := by
  rw [List.getLast?_eq_getElem?, List.getLast?_eq_getElem?, h.length_eq]
  exact h.getElem? _

/-- Equal items are taken from the ends of paired lists, and the rests are paired. -/
theorem pop? (h : Paired xs ys) (side : Side) :
    Option.Rel (fun p q => p.1 ≈ q.1 ∧ Paired p.2 q.2) (Items.pop? side xs)
      (Items.pop? side ys) := by
  cases side with
  | head =>
    cases h with
    | nil => exact .none
    | cons hfirst hrest => exact .some ⟨hfirst, hrest⟩
  | tail =>
    unfold Items.pop?
    have hlast := h.getLast?
    generalize xs.getLast? = last, ys.getLast? = last' at hlast ⊢
    cases hlast with
    | none => exact .none
    | some hsame => exact .some ⟨hsame, h.dropLast⟩

theorem slice (h : Paired xs ys) (start stop : Int64) :
    Paired (Items.slice xs start stop) (Items.slice ys start stop) := by
  unfold Items.slice
  rw [h.length_eq]
  split
  next first last _ => exact List.forall₂_take _ (List.forall₂_drop _ h)
  next => exact .nil

theorem trim (h : Paired xs ys) (start stop : Int64) :
    Paired (Items.trim xs start stop) (Items.trim ys start stop) := by
  unfold Items.trim
  rw [h.length_eq]
  split
  next first last _ => exact List.forall₂_drop _ (List.forall₂_take _ h)
  next => exact .nil

/-- Whether an item is dropped is a matter of equality. -/
theorem dropSame (h : Paired xs ys) (hx : x ≈ y) (limit : Nat) :
    Paired (Items.dropSame x limit xs) (Items.dropSame y limit ys) := by
  induction h generalizing limit with
  | nil => cases limit <;> exact .nil
  | @cons item item' _ _ hitem hrest ih =>
    cases limit with
    | zero => exact .cons hitem hrest
    | succ limit =>
      unfold Items.dropSame
      rw [same_congr hitem hx]
      split
      · exact ih limit
      · exact .cons hitem (ih (limit + 1))

theorem removeItems (h : Paired xs ys) (count : Int64) (hx : x ≈ y) :
    Paired (Items.remove xs count x) (Items.remove ys count y) := by
  unfold Items.remove
  rw [h.length_eq]
  split
  · exact h.dropSame hx _
  · split
    · exact h.dropSame hx _
    -- from the tail, as from the head of the lists turned round
    · exact List.rel_reverse (dropSame (List.rel_reverse h) hx _)

/-! ## Sets -/

theorem filter (h : Paired xs ys) {keep keep' : Value → Bool}
    (hkeep : ∀ x y, x ≈ y → keep x = keep' y) : Paired (xs.filter keep) (ys.filter keep') :=
  List.rel_filter (fun x y hxy => Bool.eq_iff_iff.mp (hkeep x y hxy)) h

theorem has_eq (h : Paired xs ys) (hx : x ≈ y) : Members.has xs x = Members.has ys y := by
  unfold Members.has
  induction h with
  | nil => rfl
  | cons hfirst _ ih => rw [List.any_cons, List.any_cons, same_congr hx hfirst, ih]

theorem position?_eq (h : Paired xs ys) (hx : x ≈ y) :
    Members.position? xs x = Members.position? ys y := by
  unfold Members.position?
  induction h with
  | nil => rfl
  | cons hfirst _ ih => rw [List.findIdx?_cons, List.findIdx?_cons, same_congr hx hfirst, ih]

theorem add (h : Paired xs ys) (hx : x ≈ y) : Paired (Members.add xs x) (Members.add ys y) := by
  unfold Members.add
  rw [h.has_eq hx]
  split
  · exact h
  · exact List.rel_append h (.cons hx .nil)

/-- Values that are added one after the other, to whatever is there. -/
theorem ofList (h : Paired xs ys) : Paired (Members.ofList xs) (Members.ofList ys) :=
  List.rel_foldl (fun _ _ hmembers _ _ hvalue => hmembers.add hvalue) .nil h

theorem lastFirst (h : Paired xs ys) : Paired (Members.lastFirst xs) (Members.lastFirst ys) := by
  unfold Members.lastFirst
  have hlast := h.getLast?
  generalize xs.getLast? = last, ys.getLast? = last' at hlast ⊢
  cases hlast with
  | none => exact .nil
  | some hsame => exact .cons hsame h.dropLast

theorem removeAt (h : Paired xs ys) (i : Nat) :
    Paired (Members.removeAt xs i) (Members.removeAt ys i) :=
  List.rel_append (List.forall₂_take i h) (lastFirst (List.forall₂_drop (i + 1) h))

/-- A member is taken out at one position in both sets. -/
theorem remove (h : Paired xs ys) (hx : x ≈ y) :
    Paired (Members.remove xs x) (Members.remove ys y) := by
  unfold Members.remove
  rw [h.position?_eq hx]
  split
  next i _ => exact h.removeAt i
  next => exact h

end Paired

/-! ## Set algebra -/

/-- Lists of sets, the same ones of which are absent, and the others paired. -/
abbrev PairedSets : List (Option Members) → List (Option Members) → Prop :=
  List.Forall₂ (Option.Rel Paired)

namespace PairedSets

variable {sets sets' : List (Option Members)} {x y : Value}

/-- To be in all sets, or in some of them, is a matter of equality. -/
theorem all_has_eq {present present' : List Members} (h : List.Forall₂ Paired present present')
    (hx : x ≈ y) : (present.all fun set => Members.has set x) =
      present'.all fun set => Members.has set y := by
  induction h with
  | nil => rfl
  | cons hfirst _ ih => rw [List.all_cons, List.all_cons, hfirst.has_eq hx, ih]

theorem getD {set set' : Option Members} (h : Option.Rel Paired set set') :
    Paired (set.getD []) (set'.getD []) := by
  cases h with
  | none => exact .nil
  | some hmembers => exact hmembers

theorem any_has_eq (h : PairedSets sets sets') (hx : x ≈ y) :
    (sets.any fun set => Members.has (set.getD []) x) =
      sets'.any fun set => Members.has (set.getD []) y := by
  induction h with
  | nil => rfl
  | cons hfirst _ ih => rw [List.any_cons, List.any_cons, (getD hfirst).has_eq hx, ih]

/-- All sets are present in both lists, or one is absent in both. -/
theorem mapM_id (h : PairedSets sets sets') :
    Option.Rel (List.Forall₂ Paired) (sets.mapM id) (sets'.mapM id) := by
  induction h with
  | nil => exact .some .nil
  | @cons _ _ rest rest' hfirst _ ih =>
    rw [List.mapM_cons, List.mapM_cons]
    cases hfirst with
    | none => exact .none
    | some hmembers =>
      generalize rest.mapM id = present, rest'.mapM id = present' at ih ⊢
      cases ih with
      | none => exact .none
      | some hrest => exact .some (.cons hmembers hrest)

theorem intersection (h : PairedSets sets sets') :
    Paired (Members.intersection sets) (Members.intersection sets') := by
  unfold Members.intersection
  have hpresent := h.mapM_id
  generalize sets.mapM id = present, sets'.mapM id = present' at hpresent ⊢
  cases hpresent with
  | none => exact .nil
  | some hlists =>
    cases hlists with
    | nil => exact .nil
    | cons hfirst hothers => exact hfirst.filter fun x y hxy => all_has_eq hothers hxy

theorem union (h : PairedSets sets sets') :
    Paired (Members.union sets) (Members.union sets') :=
  Paired.ofList (List.rel_flatMap h fun _ _ hset => getD hset)

theorem difference (h : PairedSets sets sets') :
    Paired (Members.difference sets) (Members.difference sets') := by
  cases h with
  | nil => exact .nil
  | cons hfirst hothers =>
    cases hfirst with
    | none => exact .nil
    | some hmembers =>
      exact hmembers.filter fun x y hxy => congrArg (!·) (any_has_eq hothers hxy)

theorem combine (h : PairedSets sets sets') (algebra : Algebra) :
    Paired (algebra.combine sets) (algebra.combine sets') := by
  cases algebra with
  | intersection => exact h.intersection
  | union => exact h.union
  | difference => exact h.difference

end PairedSets

end Value

end BoundedStore
