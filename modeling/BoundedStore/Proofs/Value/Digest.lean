import BoundedStore.Proofs.Value.Same
import BoundedStore.Value.Digest

/-!
# Values that are the same have one digest

Nothing is assumed of a hasher but that what it makes of some chunks depends on the chunks alone. So
it is enough that values that are the same give the same chunks (`chunks_eq_of_same`). A list gives
those of its items one after the other. A set gives the sum of the digests of its members, which is
the same in every order of the members (`digestSum_perm`); and two sets that are the same can be
ordered alike (`exists_perm_of_found`), so the sums are taken of equal digests.

This is what makes it safe to look for a member only among those of its digest.
-/

namespace BoundedStore

namespace Value

section Chunks

variable {σ : Type} (h : Hasher σ)

/-! ## What the parts contribute -/

theorem chunksOfItems_eq (items : List Value) :
    chunksOfItems h items = (items.map (chunks h)).flatten := by
  induction items with
  | nil => rfl
  | cons x rest ih => simp [chunksOfItems, ih]

theorem digestSum_eq (members : List Value) :
    digestSum h members = ((members.map (chunks h)).map h.digest).foldr (· + ·) 0 := by
  induction members with
  | nil => rfl
  | cons x rest ih => simp [digestSum, ih]

/-- The order of members does not matter to the sum of their digests. -/
theorem digestSum_perm {xs ys : List Value} (hperm : xs.Perm ys) :
    digestSum h xs = digestSum h ys := by
  rw [digestSum_eq, digestSum_eq]
  exact ((hperm.map (chunks h)).map h.digest).foldr_eq 0

theorem map_chunks_of_pairs {xs ys : List Value}
    (hchunks : ∀ x ∈ xs, ∀ y, x.same y = true → x.chunks h = y.chunks h)
    (hpairs : List.Forall₂ (fun x y => x.same y = true) xs ys) :
    xs.map (chunks h) = ys.map (chunks h) := by
  induction hpairs with
  | nil => rfl
  | @cons x y xs ys hfirst _ ih =>
    rw [List.map_cons, List.map_cons, hchunks x List.mem_cons_self y hfirst,
      ih fun x hx => hchunks x (List.mem_cons_of_mem _ hx)]

/-! ## Chunks of values that are the same -/

theorem chunks_eq_of_same {a b : Value} (ha : a.WellFormed) (hsame : a.same b = true) :
    a.chunks h = b.chunks h := by
  induction a using nested_induction generalizing b with
  | integer n => rw [eq_of_same_integer hsame]
  | text s => rw [eq_of_same_text hsame]
  | list xs ih =>
    have hxs := (wellFormed_list_iff xs).mp ha
    obtain ⟨ys, rfl, hpairs⟩ := exists_of_same_list hsame
    have hmap := map_chunks_of_pairs h (fun x hx _ => ih x hx (hxs x hx)) hpairs
    rw [chunks, chunks, chunksOfItems_eq, chunksOfItems_eq, hmap, hpairs.length_eq]
  | set xs ih =>
    obtain ⟨hxs, hdistinct⟩ := (wellFormed_set_iff xs).mp ha
    obtain ⟨ys, rfl, hlength, hfound⟩ := exists_of_same_set hsame
    obtain ⟨zs, hperm, hpairs⟩ := exists_perm_of_found hdistinct
      (fun x hx _ => same_symm (hxs x hx)) hlength hfound
    have hmap := map_chunks_of_pairs h (fun x hx _ => ih x hx (hxs x hx)) hpairs
    -- in the order of `xs` the members of both have equal digests, and the order does not matter
    have hsum : digestSum h xs = digestSum h ys := by
      rw [← digestSum_perm h hperm, digestSum_eq, digestSum_eq, hmap]
    rw [chunks, chunks, hlength, hsum]

end Chunks

/-! ## Members by digest -/

/-- Among the members of its digest there is everything that a value is the same as. -/
theorem hasByDigest_eq_has {σ τ : Type} (h : Hasher σ) (outer : Hasher τ) (members : Members)
    {x : Value} (hx : x.WellFormed) : members.hasByDigest h outer x = members.has x := by
  unfold Members.hasByDigest Members.has
  rw [List.any_filter]
  congr 1
  funext y
  cases hsame : x.same y with
  | false => exact Bool.and_false _
  | true => simp [chunks_eq_of_same h hx hsame]

/-- **Values that are the same are hashed alike.** Take any hasher, in any state, and any hasher to
digest the members of sets. Two values that are the same, the first of which is well-formed, leave
the one hasher in the same state. So it makes no difference whether a set is asked for a value among
all its members or only among those of the value's digest. -/
theorem same_values_hashed_alike {σ τ : Type} (h : Hasher σ) (outer : Hasher τ) :
    (∀ a b : Value, a.WellFormed → a.same b = true →
      ∀ state, outer.absorbAll state (a.chunks h) = outer.absorbAll state (b.chunks h)) ∧
    ∀ (members : Members) (x : Value), x.WellFormed →
      members.hasByDigest h outer x = members.has x := by
  refine ⟨fun a b ha hsame state => ?_, fun members x hx => hasByDigest_eq_has h outer members hx⟩
  rw [chunks_eq_of_same h ha hsame]

/-- A list of a set with a set in it, the members of both in another order. -/
theorem nested_sets_hashed_alike :
    ∃ a b : Value, a = list [set [set [integer 1, integer 2], text "x"]] ∧
      b = list [set [text "x", set [integer 2, integer 1]]] ∧ a.WellFormed ∧ a.same b = true ∧
      (∀ state, Hasher.multiplicative.absorbAll state (a.chunks Hasher.multiplicative) =
        Hasher.multiplicative.absorbAll state (b.chunks Hasher.multiplicative)) ∧
      Members.hasByDigest Hasher.multiplicative Hasher.multiplicative [b] a = true := by
  have hwell : (list [set [set [integer 1, integer 2], text "x"]]).WellFormed := by
    decide
  obtain ⟨hstates, hlookup⟩ :=
    same_values_hashed_alike Hasher.multiplicative Hasher.multiplicative
  exact ⟨_, _, rfl, rfl, hwell, by decide, hstates _ _ hwell (by decide),
    (hlookup _ _ hwell).trans (by decide)⟩

end Value

end BoundedStore
