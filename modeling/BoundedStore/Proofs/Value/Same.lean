import BoundedStore.Value.Members
import Mathlib.Data.List.Basic
import Mathlib.Data.List.Forall2
import Mathlib.Data.List.Perm.Basic

/-!
# The equality of values is an equivalence

`Value.same` looks at two sets from one side: they have as many members, and every member of the
first is found in the second. That this is an equality takes what makes a set a set, that no two of
its members are the same, at every depth. `Value.WellFormed` says so.

The step is `exists_perm_of_found`. A list without equal members, each of which is found in another
list of the same length, finds them all: the other list can be put into an order in which the two
are the same position by position. From there symmetry is by induction on the value
(`same_symm`). Reflexivity and transitivity hold of all values. `IsEquality` says what all of this
amounts to.
-/

namespace BoundedStore

/-! ## Well-formed values -/

/-- No two members are the same. -/
def Members.Distinct (members : Members) : Prop :=
  members.Pairwise fun x y => x.same y = false

namespace Value

mutual

/-- Every set, at any depth, is without equal members. -/
def WellFormed : Value → Prop
  | integer _ => True
  | text _ => True
  | list items => WellFormedItems items
  | set members => WellFormedItems members ∧ Members.Distinct members

def WellFormedItems : List Value → Prop
  | [] => True
  | x :: rest => x.WellFormed ∧ WellFormedItems rest

end

instance (members : Members) : Decidable members.Distinct :=
  inferInstanceAs (Decidable (members.Pairwise fun x y => x.same y = false))

mutual

def decWellFormed : (v : Value) → Decidable v.WellFormed
  | integer _ => isTrue trivial
  | text _ => isTrue trivial
  | list items => decWellFormedItems items
  | set members =>
    have := decWellFormedItems members
    inferInstanceAs (Decidable (WellFormedItems members ∧ Members.Distinct members))

def decWellFormedItems : (items : List Value) → Decidable (WellFormedItems items)
  | [] => isTrue trivial
  | x :: rest =>
    have := decWellFormed x
    have := decWellFormedItems rest
    inferInstanceAs (Decidable (x.WellFormed ∧ WellFormedItems rest))

end

instance (v : Value) : Decidable v.WellFormed := decWellFormed v

theorem wellFormedItems_iff (items : List Value) :
    WellFormedItems items ↔ ∀ x ∈ items, x.WellFormed := by
  induction items with
  | nil => simp [WellFormedItems]
  | cons x rest ih => simp [WellFormedItems, ih]

theorem wellFormed_list_iff (items : List Value) :
    (list items).WellFormed ↔ ∀ x ∈ items, x.WellFormed :=
  wellFormedItems_iff items

theorem wellFormed_set_iff (members : Members) :
    (set members).WellFormed ↔ (∀ x ∈ members, x.WellFormed) ∧ members.Distinct :=
  and_congr (wellFormedItems_iff members) Iff.rfl

/-- Induction on values, in which a list or set may use what holds of each of its parts. -/
@[elab_as_elim]
theorem nested_induction {P : Value → Prop} (integer : ∀ n, P (.integer n))
    (text : ∀ s, P (.text s)) (list : ∀ items, (∀ x ∈ items, P x) → P (.list items))
    (set : ∀ members, (∀ x ∈ members, P x) → P (.set members)) (v : Value) : P v :=
  @Value.rec P (fun items => ∀ x ∈ items, P x) integer text list set (fun _ h => nomatch h)
    (fun _ _ hx hrest _ hmem => (List.mem_cons.mp hmem).elim (fun e => e ▸ hx) (hrest _)) v

/-! ## Equality by the parts -/

theorem sameItems_iff (xs ys : List Value) :
    sameItems xs ys = true ↔ List.Forall₂ (fun x y => x.same y = true) xs ys := by
  induction xs generalizing ys with
  | nil => cases ys <;> simp [sameItems]
  | cons x rest ih => cases ys <;> simp [sameItems, ih]

theorem eachIn_iff (xs ys : List Value) :
    eachIn xs ys = true ↔ ∀ x ∈ xs, ∃ y ∈ ys, x.same y = true := by
  induction xs with
  | nil => simp [eachIn]
  | cons x rest ih => simp [eachIn, ih]

theorem same_integer_iff (m n : Int64) : (integer m).same (integer n) = true ↔ m = n :=
  beq_iff_eq

theorem same_text_iff (s t : String) : (text s).same (text t) = true ↔ s = t :=
  beq_iff_eq

theorem same_list_iff (xs ys : List Value) :
    (list xs).same (list ys) = true ↔ List.Forall₂ (fun x y => x.same y = true) xs ys :=
  sameItems_iff xs ys

theorem same_set_iff (xs ys : Members) :
    (set xs).same (set ys) = true ↔
      xs.length = ys.length ∧ ∀ x ∈ xs, ∃ y ∈ ys, x.same y = true :=
  Bool.and_eq_true_iff.trans (and_congr beq_iff_eq (eachIn_iff xs ys))

theorem same_refl (v : Value) : v.same v = true := by
  induction v using nested_induction with
  | integer n => exact (same_integer_iff n n).mpr rfl
  | text s => exact (same_text_iff s s).mpr rfl
  | list items ih => exact (same_list_iff items items).mpr (List.forall₂_same.mpr ih)
  | set members ih =>
    exact (same_set_iff members members).mpr ⟨rfl, fun x hx => ⟨x, hx, ih x hx⟩⟩

/-! ### What a value is the same as

One of its own kind. The other kinds are refused by the last line of `Value.same`. -/

theorem eq_of_same_integer {n : Int64} {b : Value} (h : (integer n).same b = true) :
    b = integer n := by
  cases b with
  | integer m => exact congrArg integer ((same_integer_iff n m).mp h).symm
  | text | list | set => cases h

theorem eq_of_same_text {s : String} {b : Value} (h : (text s).same b = true) : b = text s := by
  cases b with
  | text t => exact congrArg text ((same_text_iff s t).mp h).symm
  | integer | list | set => cases h

theorem exists_of_same_list {xs : List Value} {b : Value} (h : (list xs).same b = true) :
    ∃ ys, b = list ys ∧ List.Forall₂ (fun x y => x.same y = true) xs ys := by
  cases b with
  | list ys => exact ⟨ys, rfl, (same_list_iff xs ys).mp h⟩
  | integer | text | set => cases h

theorem exists_of_same_set {xs : Members} {b : Value} (h : (set xs).same b = true) :
    ∃ ys, b = set ys ∧ xs.length = ys.length ∧ ∀ x ∈ xs, ∃ y ∈ ys, x.same y = true := by
  cases b with
  | set ys => exact ⟨ys, rfl, (same_set_iff xs ys).mp h⟩
  | integer | text | list => cases h

theorem kind_eq_of_same {a b : Value} (h : a.same b = true) : a.kind = b.kind := by
  cases a with
  | integer n => rw [eq_of_same_integer h]
  | text s => rw [eq_of_same_text h]
  | list xs =>
    obtain ⟨ys, rfl, -⟩ := exists_of_same_list h
    rfl
  | set xs =>
    obtain ⟨ys, rfl, -⟩ := exists_of_same_set h
    rfl

/-! ## Transitivity -/

theorem forall₂_same_trans {xs ys zs : List Value}
    (htrans : ∀ x ∈ xs, ∀ y z, x.same y = true → y.same z = true → x.same z = true)
    (hxy : List.Forall₂ (fun x y => x.same y = true) xs ys)
    (hyz : List.Forall₂ (fun x y => x.same y = true) ys zs) :
    List.Forall₂ (fun x y => x.same y = true) xs zs := by
  induction hxy generalizing zs with
  | nil => exact hyz
  | @cons x y xs ys hfirst _ ih =>
    obtain ⟨z, zs, hsecond, hrest, rfl⟩ := List.forall₂_cons_left_iff.mp hyz
    exact .cons (htrans x List.mem_cons_self y z hfirst hsecond)
      (ih (fun x hx => htrans x (List.mem_cons_of_mem _ hx)) hrest)

theorem same_trans {a b c : Value} (hab : a.same b = true) (hbc : b.same c = true) :
    a.same c = true := by
  induction a using nested_induction generalizing b c with
  | integer n =>
    obtain rfl := eq_of_same_integer hab
    exact hbc
  | text s =>
    obtain rfl := eq_of_same_text hab
    exact hbc
  | list xs ih =>
    obtain ⟨ys, rfl, hxy⟩ := exists_of_same_list hab
    obtain ⟨zs, rfl, hyz⟩ := exists_of_same_list hbc
    exact (same_list_iff xs zs).mpr (forall₂_same_trans (fun x hx _ _ => ih x hx) hxy hyz)
  | set xs ih =>
    obtain ⟨ys, rfl, hlength, hxy⟩ := exists_of_same_set hab
    obtain ⟨zs, rfl, hlength', hyz⟩ := exists_of_same_set hbc
    refine (same_set_iff xs zs).mpr ⟨hlength.trans hlength', fun x hx => ?_⟩
    obtain ⟨y, hy, hfirst⟩ := hxy x hx
    obtain ⟨z, hz, hsecond⟩ := hyz y hy
    exact ⟨z, hz, ih x hx hfirst hsecond⟩

/-! ## Symmetry -/

/-- Members without equals, each of which is found in a list of the same length, are all that is in
the list, up to its order. -/
theorem exists_perm_of_found {xs ys : List Value} (hdistinct : Members.Distinct xs)
    (hsymm : ∀ x ∈ xs, ∀ y, x.same y = true → y.same x = true) (hlength : xs.length = ys.length)
    (hfound : ∀ x ∈ xs, ∃ y ∈ ys, x.same y = true) :
    ∃ zs, zs.Perm ys ∧ List.Forall₂ (fun x y => x.same y = true) xs zs := by
  induction xs generalizing ys with
  | nil =>
    obtain rfl := List.length_eq_zero_iff.mp hlength.symm
    exact ⟨[], .refl [], .nil⟩
  | cons x rest ih =>
    obtain ⟨hdiffers, hrest⟩ := List.pairwise_cons.mp hdistinct
    obtain ⟨y, hy, hxy⟩ := hfound x List.mem_cons_self
    obtain ⟨before, after, rfl⟩ := List.append_of_mem hy
    -- what `x` is the same as is not what another member is the same as
    have hothers : ∀ x' ∈ rest, ∃ y' ∈ before ++ after, x'.same y' = true := by
      intro x' hx'
      obtain ⟨y', hy', hsame⟩ := hfound x' (List.mem_cons_of_mem x hx')
      have hne : y' ≠ y := by
        rintro rfl
        have hback := hsymm x' (List.mem_cons_of_mem x hx') y' hsame
        have hboth := same_trans hxy hback
        rw [hdiffers x' hx'] at hboth
        cases hboth
      refine ⟨y', ?_, hsame⟩
      rw [List.mem_append, List.mem_cons] at hy'
      rw [List.mem_append]
      exact hy'.imp_right fun h => h.resolve_left hne
    have hshorter : rest.length = (before ++ after).length := by
      simp only [List.length_cons, List.length_append] at hlength ⊢
      omega
    obtain ⟨zs, hperm, hpairs⟩ := ih hrest
      (fun x' hx' => hsymm x' (List.mem_cons_of_mem x hx')) hshorter hothers
    exact ⟨y :: zs, (hperm.cons y).trans List.perm_middle.symm, .cons hxy hpairs⟩

theorem forall₂_same_symm {xs ys : List Value}
    (hsymm : ∀ x ∈ xs, ∀ y, x.same y = true → y.same x = true)
    (h : List.Forall₂ (fun x y => x.same y = true) xs ys) :
    List.Forall₂ (fun x y => x.same y = true) ys xs := by
  have hboth := (List.forall₂_and_left (p := fun x => ∀ y, x.same y = true → y.same x = true)
    xs ys).mpr ⟨hsymm, h⟩
  exact (hboth.imp fun x y hxy => hxy.1 y hxy.2).flip

/-- Two values are the same in both directions, if one of them is well-formed. -/
theorem same_symm {a b : Value} (ha : a.WellFormed) (h : a.same b = true) : b.same a = true := by
  induction a using nested_induction generalizing b with
  | integer n =>
    obtain rfl := eq_of_same_integer h
    exact h
  | text s =>
    obtain rfl := eq_of_same_text h
    exact h
  | list xs ih =>
    have hxs := (wellFormed_list_iff xs).mp ha
    obtain ⟨ys, rfl, hxy⟩ := exists_of_same_list h
    exact (same_list_iff ys xs).mpr (forall₂_same_symm (fun x hx _ => ih x hx (hxs x hx)) hxy)
  | set xs ih =>
    obtain ⟨hxs, hdistinct⟩ := (wellFormed_set_iff xs).mp ha
    obtain ⟨ys, rfl, hlength, hxy⟩ := exists_of_same_set h
    have hsymm : ∀ x ∈ xs, ∀ y, x.same y = true → y.same x = true :=
      fun x hx _ => ih x hx (hxs x hx)
    obtain ⟨zs, hperm, hpairs⟩ := exists_perm_of_found hdistinct hsymm hlength hxy
    refine (same_set_iff ys xs).mpr ⟨hlength.symm, fun y hy => ?_⟩
    obtain ⟨i, hi, rfl⟩ := List.getElem_of_mem (hperm.mem_iff.mpr hy)
    have hi' : i < xs.length := by rwa [hpairs.length_eq]
    exact ⟨xs[i], List.getElem_mem hi', hsymm _ (List.getElem_mem hi') _ (hpairs.get hi' hi)⟩

/-- Values that are the same as one well-formed value are the same as each other. -/
theorem same_of_same_left {a b c : Value} (ha : a.WellFormed) (hab : a.same b = true)
    (hac : a.same c = true) : b.same c = true :=
  same_trans (same_symm ha hab) hac

/-! ## What the equality comes to -/

theorem same_list_iff_getElem (xs ys : List Value) :
    (list xs).same (list ys) = true ↔ xs.length = ys.length ∧
      ∀ (i : Nat) (hi : i < xs.length) (hi' : i < ys.length), xs[i].same ys[i] = true := by
  rw [same_list_iff, List.forall₂_iff_get]
  rfl

theorem same_set_iff_perm {xs : Members} (hxs : (set xs).WellFormed) (ys : Members) :
    (set xs).same (set ys) = true ↔
      ∃ zs, zs.Perm ys ∧ List.Forall₂ (fun x y => x.same y = true) xs zs := by
  obtain ⟨hvalues, hdistinct⟩ := (wellFormed_set_iff xs).mp hxs
  rw [same_set_iff]
  constructor
  · rintro ⟨hlength, hfound⟩
    exact exists_perm_of_found hdistinct (fun x hx _ => same_symm (hvalues x hx)) hlength hfound
  · rintro ⟨zs, hperm, hpairs⟩
    refine ⟨hpairs.length_eq.trans hperm.length_eq, fun x hx => ?_⟩
    obtain ⟨i, hi, rfl⟩ := List.getElem_of_mem hx
    have hi' : i < zs.length := by rwa [← hpairs.length_eq]
    exact ⟨zs[i], hperm.mem_iff.mp (List.getElem_mem hi'), hpairs.get hi hi'⟩

/-- What can be relied on of a comparison of values. -/
structure IsEquality (eq : Value → Value → Bool) : Prop where
  refl : ∀ a : Value, a.WellFormed → eq a a = true
  symm : ∀ a b : Value, a.WellFormed → b.WellFormed → eq a b = true → eq b a = true
  trans : ∀ a b c : Value, a.WellFormed → b.WellFormed → c.WellFormed → eq a b = true →
    eq b c = true → eq a c = true
  integer_iff : ∀ m n, eq (integer m) (integer n) = true ↔ m = n
  text_iff : ∀ s t, eq (text s) (text t) = true ↔ s = t
  /-- Lists are compared position by position. -/
  list_iff : ∀ xs ys, eq (list xs) (list ys) = true ↔ xs.length = ys.length ∧
    ∀ (i : Nat) (hi : i < xs.length) (hi' : i < ys.length), eq xs[i] ys[i] = true
  /-- Sets are compared position by position after the members of one are put into some order. -/
  set_iff : ∀ xs ys, (set xs).WellFormed → (set ys).WellFormed →
    (eq (set xs) (set ys) = true ↔
      ∃ zs, zs.Perm ys ∧ List.Forall₂ (fun x y => eq x y = true) xs zs)
  /-- Values of different kinds are different, whatever is in them. -/
  kinds : ∀ a b : Value, a.kind ≠ b.kind → eq a b = false

/-- **The equality of values is one.** On well-formed values it is an equivalence, it takes lists
position by position and sets up to their order, and it keeps the kinds apart. -/
theorem same_isEquality : IsEquality same where
  refl a _ := a.same_refl
  symm _ _ ha _ := same_symm ha
  trans _ _ _ _ _ _ := same_trans
  integer_iff := same_integer_iff
  text_iff := same_text_iff
  list_iff := same_list_iff_getElem
  set_iff _ ys hxs _ := same_set_iff_perm hxs ys
  kinds _ _ hkinds := Bool.eq_false_iff.mpr fun h => hkinds (kind_eq_of_same h)

end Value

end BoundedStore
