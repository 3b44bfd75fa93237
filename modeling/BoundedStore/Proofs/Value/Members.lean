import BoundedStore.Proofs.Value.Same

/-!
# Adding and removing members

A set loses and gains no member but the one that it is told to. Adding puts the member behind the
others, unless it is there already. Removing takes out one member that is the same, and moves none
but the last (`perm_of_remove`); as no two members are the same, none like it is left
(`takenOut_remove`).

`WellFormed` members are well-formed values without equals. All operations on sets keep them so.
-/

namespace BoundedStore

namespace Members

theorem add_of_has {members : Members} {x : Value} (h : has members x = true) :
    add members x = members := by
  unfold add
  rw [if_pos h]

/-- A value has a position exactly when it is a member. -/
theorem position?_eq_none_iff (members : Members) (x : Value) :
    position? members x = none ↔ has members x = false := by
  unfold position? has
  rw [List.findIdx?_eq_none_iff, List.any_eq_false]
  simp

theorem remove_of_not_has {members : Members} {x : Value} (h : has members x = false) :
    remove members x = members := by
  unfold remove
  rw [(position?_eq_none_iff members x).mpr h]

/-! ## Membership -/

theorem has_iff (members : Members) (x : Value) :
    has members x = true ↔ ∃ y ∈ members, x.same y = true := by
  unfold has
  rw [List.any_eq_true]

theorem has_perm {xs ys : Members} (h : xs.Perm ys) (x : Value) : has xs x = has ys x :=
  h.any_eq

/-! ## Well-formed members -/

/-- The members of a well-formed set. -/
structure WellFormed (members : Members) : Prop where
  values : ∀ x ∈ members, x.WellFormed
  distinct : Distinct members

theorem wellFormed_of_set {members : Members} (h : (Value.set members).WellFormed) :
    WellFormed members :=
  ⟨((Value.wellFormed_set_iff members).mp h).1, ((Value.wellFormed_set_iff members).mp h).2⟩

theorem WellFormed.set {members : Members} (h : WellFormed members) :
    (Value.set members).WellFormed :=
  (Value.wellFormed_set_iff members).mpr ⟨h.values, h.distinct⟩

theorem WellFormed.nil : WellFormed [] := ⟨nofun, List.Pairwise.nil⟩

theorem WellFormed.singleton {x : Value} (h : x.WellFormed) : WellFormed [x] :=
  ⟨by simpa using h, List.pairwise_singleton _ x⟩

theorem WellFormed.sublist {xs ys : Members} (h : WellFormed ys) (hsub : xs.Sublist ys) :
    WellFormed xs :=
  ⟨fun x hx => h.values x (hsub.subset hx), h.distinct.sublist hsub⟩

/-- The order of the members does not matter, since well-formed values are the same in both
directions or in none. -/
theorem WellFormed.perm {xs ys : Members} (h : WellFormed xs) (hperm : xs.Perm ys) :
    WellFormed ys where
  values x hx := h.values x (hperm.mem_iff.mpr hx)
  distinct := by
    have hboth : xs.Pairwise fun x y => ¬ x.same y = true ∧ ¬ y.same x = true :=
      h.distinct.imp_of_mem fun hx hy hxy =>
        ⟨by simp [hxy], fun hyx => by simp [Value.same_symm (h.values _ hy) hyx] at hxy⟩
    have hys := (hperm.pairwise_iff fun h => h.symm).mp hboth
    exact hys.imp fun h => Bool.eq_false_iff.mpr h.1

/-! ## Several sets -/

/-- All sets of a list are present exactly when the list is one of present sets. -/
theorem mapM_id_eq_some_iff (sets : List (Option Members)) (present : List Members) :
    sets.mapM id = some present ↔ sets = present.map some := by
  induction sets generalizing present with
  | nil => cases present <;> simp
  | cons set rest ih =>
    rw [List.mapM_cons]
    cases set with
    | none => cases present <;> simp
    | some members =>
      have hrest : (do let others ← rest.mapM id; some (members :: others)) = some present ↔
          ∃ others, rest = others.map some ∧ members :: others = present := by
        simp [Option.bind_eq_some_iff, ih]
      refine hrest.trans ⟨?_, fun h => ?_⟩
      · rintro ⟨others, rfl, rfl⟩
        rfl
      · obtain ⟨first, others, rfl, hfirst, hothers⟩ := List.map_eq_cons_iff.mp h.symm
        exact ⟨others, hothers.symm, by rw [Option.some.inj hfirst]⟩

/-! ## Adding -/

theorem add_of_not_has {members : Members} {x : Value} (h : has members x = false) :
    add members x = members ++ [x] := by
  unfold add
  rw [if_neg (by simp [h])]

theorem has_add_self (members : Members) (x : Value) : has (add members x) x = true := by
  cases hhas : has members x with
  | true => rwa [add_of_has hhas]
  | false =>
    rw [add_of_not_has hhas, has_iff]
    exact ⟨x, by simp, x.same_refl⟩

theorem WellFormed.add {members : Members} (h : WellFormed members) {x : Value}
    (hx : x.WellFormed) : WellFormed (add members x) := by
  cases hhas : has members x with
  | true => rwa [add_of_has hhas]
  | false =>
    -- nothing in the set is the same as `x`, in whichever direction
    have hnew : ∀ y ∈ members, y.same x = false := by
      intro y hy
      rw [Bool.eq_false_iff]
      intro hsame
      rw [(has_iff members x).mpr ⟨y, hy, Value.same_symm (h.values y hy) hsame⟩] at hhas
      cases hhas
    rw [add_of_not_has hhas]
    refine ⟨fun y hy => ?_, List.pairwise_append.mpr ⟨h.distinct, List.pairwise_singleton _ x, ?_⟩⟩
    · rcases List.mem_append.mp hy with hold | hlast
      · exact h.values y hold
      · exact List.mem_singleton.mp hlast ▸ hx
    · intro y hy last hlast
      rw [List.mem_singleton.mp hlast]
      exact hnew y hy

theorem WellFormed.ofList {values : List Value} (h : ∀ x ∈ values, x.WellFormed) :
    WellFormed (ofList values) := by
  unfold Members.ofList
  -- the values are added to a set that is well-formed already
  generalize hstart : ([] : Members) = start
  have hwell : WellFormed start := hstart ▸ .nil
  clear hstart
  induction values generalizing start with
  | nil => exact hwell
  | cons x rest ih =>
    exact ih (fun y hy => h y (List.mem_cons_of_mem x hy)) (Members.add start x)
      (hwell.add (h x List.mem_cons_self))

/-! ## Removing -/

theorem lastFirst_perm {α : Type} (xs : List α) : (lastFirst xs).Perm xs := by
  unfold lastFirst
  cases hlast : xs.getLast? with
  | none => exact (List.getLast?_eq_none_iff.mp hlast) ▸ .refl []
  | some last =>
    have hsplit : xs.dropLast ++ [last] = xs := List.dropLast_append_getLast? last hlast
    have hswap : ([last] ++ xs.dropLast).Perm (xs.dropLast ++ [last]) := List.perm_append_comm
    rwa [hsplit] at hswap

/-- The other members stay, in some order. -/
theorem perm_of_removeAt {members : Members} {i : Nat} (h : i < members.length) :
    members.Perm (members[i] :: removeAt members i) := by
  have hsplit : members.take i ++ members[i] :: members.drop (i + 1) = members := by simp
  have hmiddle : members.Perm (members[i] :: (members.take i ++ members.drop (i + 1))) := by
    have hperm : (members.take i ++ members[i] :: members.drop (i + 1)).Perm
        (members[i] :: (members.take i ++ members.drop (i + 1))) := List.perm_middle
    rwa [hsplit] at hperm
  have hlast := (lastFirst_perm (members.drop (i + 1))).symm
  exact hmiddle.trans ((hlast.append_left (members.take i)).cons members[i])

theorem perm_of_remove {members : Members} {x : Value} (h : has members x = true) :
    ∃ m, x.same m = true ∧ members.Perm (m :: remove members x) := by
  cases hposition : position? members x with
  | none =>
    rw [(position?_eq_none_iff members x).mp hposition] at h
    cases h
  | some i =>
    obtain ⟨hi, hsame, -⟩ := List.findIdx?_eq_some_iff_getElem.mp hposition
    unfold remove
    rw [hposition]
    exact ⟨members[i], hsame, perm_of_removeAt hi⟩

theorem WellFormed.removeAt {members : Members} (h : WellFormed members) {i : Nat}
    (hi : i < members.length) : WellFormed (removeAt members i) :=
  (h.perm (perm_of_removeAt hi)).sublist (List.sublist_cons_self _ _)

theorem WellFormed.remove {members : Members} (h : WellFormed members) (x : Value) :
    WellFormed (remove members x) := by
  cases hhas : has members x with
  | true =>
    obtain ⟨m, -, hperm⟩ := perm_of_remove hhas
    exact (h.perm hperm).sublist (List.sublist_cons_self _ _)
  | false => rwa [remove_of_not_has hhas]

/-! ## Members of one sort -/

theorem add_subset (members : Members) (x : Value) : add members x ⊆ x :: members := by
  cases hhas : has members x with
  | true =>
    rw [add_of_has hhas]
    exact List.subset_cons_self x members
  | false =>
    rw [add_of_not_has hhas]
    exact (List.perm_append_singleton x members).subset

theorem ofList_subset (values : List Value) : ofList values ⊆ values := by
  have hfold : ∀ start : Members, values.foldl add start ⊆ start ++ values := by
    induction values with
    | nil => exact fun start => (List.append_nil start).symm ▸ List.Subset.refl start
    | cons x rest ih =>
      intro start y hy
      rcases List.mem_append.mp (ih (add start x) hy) with hstart | hrest
      · rcases List.mem_cons.mp (add_subset start x hstart) with rfl | hold
        · exact List.mem_append_right start List.mem_cons_self
        · exact List.mem_append_left _ hold
      · exact List.mem_append_right start (List.mem_cons_of_mem x hrest)
  exact hfold []

theorem removeAt_subset {members : Members} {i : Nat} (h : i < members.length) :
    removeAt members i ⊆ members :=
  fun _ hy => (perm_of_removeAt h).mem_iff.mpr (List.mem_cons_of_mem _ hy)

theorem remove_subset (members : Members) (x : Value) : remove members x ⊆ members := by
  cases hhas : has members x with
  | true =>
    obtain ⟨m, -, hperm⟩ := perm_of_remove hhas
    exact fun y hy => hperm.mem_iff.mpr (List.mem_cons_of_mem m hy)
  | false =>
    rw [remove_of_not_has hhas]
    exact List.Subset.refl members

/-- The members of a well-formed set of which `part` holds, each. -/
structure Built (part : Value → Prop) (members : Members) : Prop extends WellFormed members where
  parts : ∀ x ∈ members, part x

namespace Built

variable {part : Value → Prop} {members others : Members} {x : Value}

theorem nil : Built part [] := ⟨.nil, nofun⟩

theorem singleton (hwell : x.WellFormed) (hx : part x) : Built part [x] :=
  ⟨.singleton hwell, by simpa using hx⟩

theorem of_subset (h : Built part members) (hwell : WellFormed others)
    (hsubset : others ⊆ members) : Built part others :=
  ⟨hwell, fun x hx => h.parts x (hsubset hx)⟩

theorem sublist (h : Built part members) (hsub : others.Sublist members) : Built part others :=
  h.of_subset (h.toWellFormed.sublist hsub) hsub.subset

theorem add (h : Built part members) (hwell : x.WellFormed) (hx : part x) :
    Built part (add members x) := by
  refine ⟨h.toWellFormed.add hwell, fun y hy => ?_⟩
  rcases List.mem_cons.mp (add_subset members x hy) with rfl | hold
  · exact hx
  · exact h.parts y hold

theorem ofList {values : List Value} (h : ∀ x ∈ values, x.WellFormed ∧ part x) :
    Built part (ofList values) :=
  ⟨.ofList fun x hx => (h x hx).1, fun x hx => (h x (ofList_subset values hx)).2⟩

theorem removeAt (h : Built part members) {i : Nat} (hi : i < members.length) :
    Built part (removeAt members i) :=
  h.of_subset (h.toWellFormed.removeAt hi) (removeAt_subset hi)

theorem remove (h : Built part members) (x : Value) : Built part (remove members x) :=
  h.of_subset (h.toWellFormed.remove x) (remove_subset members x)

end Built

/-- `after` is `before` without its one member that is the same as `x`. -/
structure TakenOut (before after : Members) (x : Value) : Prop where
  /-- One member is missing, which is the same as `x`, and all others are still there. -/
  others : ∃ m, x.same m = true ∧ before.Perm (m :: after)
  gone : has after x = false

/-- A member has no second one like it. -/
theorem WellFormed.not_has_rest {m : Value} {rest : Members} (h : WellFormed (m :: rest))
    {x : Value} (hx : x.WellFormed) (hsame : x.same m = true) : has rest x = false := by
  rw [Bool.eq_false_iff]
  intro hhas
  obtain ⟨y, hy, hxy⟩ := (has_iff rest x).mp hhas
  have hdiffers := (List.pairwise_cons.mp h.distinct).1 y hy
  rw [Value.same_of_same_left hx hsame hxy] at hdiffers
  cases hdiffers

theorem takenOut_remove {members : Members} (h : WellFormed members) {x : Value}
    (hx : x.WellFormed) (hhas : has members x = true) :
    TakenOut members (remove members x) x := by
  obtain ⟨m, hsame, hperm⟩ := perm_of_remove hhas
  exact ⟨⟨m, hsame, hperm⟩, (h.perm hperm).not_has_rest hx hsame⟩

/-- What is a member is one exactly once. -/
theorem countP_same_eq_one {members : Members} (h : WellFormed members) {x : Value}
    (hx : x.WellFormed) (hhas : has members x = true) : members.countP x.same = 1 := by
  obtain ⟨m, hsame, hperm⟩ := perm_of_remove hhas
  have hnone : (remove members x).countP x.same = 0 := by
    have hgone := (takenOut_remove h hx hhas).gone
    unfold has at hgone
    rw [List.countP_eq_zero]
    simpa using hgone
  rw [hperm.countP_eq, List.countP_cons_of_pos hsame, hnone]

/-- Two sets with the same members, in whichever order. -/
def Agree (before after : Members) : Prop :=
  after.length = before.length ∧ ∀ x, x.WellFormed → has after x = has before x

/-- A member that is taken out and put back is at the end, perhaps in another spelling. -/
theorem agree_add_remove {members : Members} (h : WellFormed members) {x : Value}
    (hx : x.WellFormed) (hhas : has members x = true) :
    Agree members (add (remove members x) x) := by
  obtain ⟨⟨m, hsame, hperm⟩, hgone⟩ := takenOut_remove h hx hhas
  rw [add_of_not_has hgone]
  refine ⟨by simp [hperm.length_eq], fun y hy => ?_⟩
  have hspelling : y.same x = y.same m := by
    refine Bool.eq_iff_iff.mpr ⟨fun hyx => Value.same_trans hyx hsame, fun hym => ?_⟩
    exact Value.same_symm hx (Value.same_trans hsame (Value.same_symm hy hym))
  rw [has_perm hperm]
  simp [has, hspelling, Bool.or_comm]

end Members

end BoundedStore
