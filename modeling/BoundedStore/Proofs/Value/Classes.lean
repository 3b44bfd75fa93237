import BoundedStore.Proofs.Value.Members
import Mathlib.Data.Finset.Card

/-!
# Sets of values

To say that a list of members is a set in the sense of mathematics takes elements that are equal
when the store takes them for the same value. `Value.Class` has these: the values up to the order of
members, at every depth. A `ListedSet` is a finite set of classes together with a list of its
elements, each of which is on the list once. Well-formed members are one (`ofMembers`), and what
adding and removing do to the list is told here without the operations that do it.
-/

namespace BoundedStore

/-! ## Values up to the order of members -/

namespace Value

/-- Two values each of which is the same as the other. -/
instance setoid : Setoid Value where
  r x y := x.same y = true ∧ y.same x = true
  iseqv :=
    { refl := fun x => ⟨x.same_refl, x.same_refl⟩
      symm := fun h => h.symm
      trans := fun h h' => ⟨same_trans h.1 h'.1, same_trans h'.2 h.2⟩ }

instance (x y : Value) : Decidable (x ≈ y) :=
  inferInstanceAs (Decidable (x.same y = true ∧ y.same x = true))

/-- The values up to the store's equality. -/
def Class : Type := Quotient Value.setoid

instance : DecidableEq Class := inferInstanceAs (DecidableEq (Quotient Value.setoid))

/-- The class of the values that are the same as `x`. -/
def toClass (x : Value) : Class := Quotient.mk Value.setoid x

/-- Well-formed values have one class exactly when they are the same. -/
theorem toClass_eq_iff {x : Value} (hx : x.WellFormed) (y : Value) :
    x.toClass = y.toClass ↔ x.same y = true :=
  Quotient.eq.trans ⟨fun h => h.1, fun h => ⟨h, same_symm hx h⟩⟩

end Value

namespace Members

theorem toClass_mem_iff (members : Members) {x : Value} (hx : x.WellFormed) :
    x.toClass ∈ members.map Value.toClass ↔ has members x = true := by
  rw [List.mem_map, has_iff]
  constructor
  · rintro ⟨y, hy, hclass⟩
    exact ⟨y, hy, (Value.toClass_eq_iff hx y).mp hclass.symm⟩
  · rintro ⟨y, hy, hsame⟩
    exact ⟨y, hy, ((Value.toClass_eq_iff hx y).mpr hsame).symm⟩

theorem WellFormed.nodup_classes {members : Members} (h : WellFormed members) :
    (members.map Value.toClass).Nodup := by
  refine List.pairwise_map.mpr (h.distinct.imp_of_mem fun hx _ hdiffers hclass => ?_)
  rw [(Value.toClass_eq_iff (h.values _ hx) _).mp hclass] at hdiffers
  cases hdiffers

/-! ## Taking a member out -/

theorem lastFirst_concat {α : Type} (xs : List α) (last : α) :
    lastFirst (xs ++ [last]) = last :: xs := by
  simp [lastFirst]

/-- The member at position `i` is gone and the last one is in its place. If it was the last one
itself, then without it there is no such position, and no member moves. -/
def TakenAt (before after : List Value) (i : Nat) : Prop :=
  ∃ last, before.getLast? = some last ∧ after = before.dropLast.set i last

theorem takenAt_removeAt {members : Members} {i : Nat} (hi : i < members.length) :
    TakenAt members (removeAt members i) i := by
  obtain rfl | ⟨front, last, rfl⟩ := members.eq_nil_or_concat'
  · cases hi
  refine ⟨last, by simp, ?_⟩
  rw [List.dropLast_concat]
  unfold removeAt
  by_cases hlast : i = front.length
  · subst hlast
    rw [List.set_eq_of_length_le (Nat.le_refl _)]
    simp [lastFirst]
  · have hfront : i < front.length := by
      rw [List.length_append, List.length_singleton] at hi
      omega
    rw [List.take_append_of_le_length (Nat.le_of_lt hfront),
      List.drop_append_of_le_length hfront, lastFirst_concat,
      List.set_eq_take_append_cons_drop, if_pos hfront]

/-- Of the classes, the one of the member that is taken out is missing. -/
theorem classes_removeAt {members : Members} (h : WellFormed members) {i : Nat}
    (hi : i < members.length) :
    ((removeAt members i).map Value.toClass).toFinset =
      ((members.map Value.toClass).toFinset).erase members[i].toClass := by
  have hperm := (perm_of_removeAt hi).map Value.toClass
  have hnot := (List.nodup_cons.mp (hperm.nodup_iff.mp h.nodup_classes)).1
  rw [List.toFinset_eq_of_perm _ _ hperm, List.map_cons, List.toFinset_cons,
    Finset.erase_insert (List.mem_toFinset.not.mpr hnot)]

end Members

/-! ## Finite sets with a list -/

/-- A finite set of values, and a list with a value of each of its classes. -/
structure ListedSet where
  contents : Finset Value.Class
  listing : List Value
  once : (listing.map Value.toClass).Nodup
  mem_iff : ∀ c, c ∈ contents ↔ c ∈ listing.map Value.toClass

namespace ListedSet

/-- The set of well-formed members, listed in their order. -/
def ofMembers (members : Members) (h : members.WellFormed) : ListedSet where
  contents := (members.map Value.toClass).toFinset
  listing := members
  once := h.nodup_classes
  mem_iff _ := List.mem_toFinset

theorem ofMembers_congr {members others : Members} (heq : others = members)
    (h : members.WellFormed) (h' : others.WellFormed) :
    ofMembers others h' = ofMembers members h := by
  subst heq
  rfl

theorem toClass_mem_ofMembers {members : Members} (h : members.WellFormed) {x : Value}
    (hx : x.WellFormed) : x.toClass ∈ (ofMembers members h).contents ↔ members.has x = true :=
  List.mem_toFinset.trans (Members.toClass_mem_iff members hx)

/-- The list is as long as the set is large. -/
theorem card_contents (a : ListedSet) : a.contents.card = a.listing.length := by
  have hcontents : a.contents = (a.listing.map Value.toClass).toFinset := by
    ext c
    rw [a.mem_iff, List.mem_toFinset]
  rw [hcontents, List.toFinset_card_of_nodup a.once, List.length_map]

end ListedSet

end BoundedStore
