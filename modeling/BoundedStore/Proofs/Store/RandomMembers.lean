import BoundedStore.Proofs.Store.Counters
import BoundedStore.Proofs.Store.Results
import BoundedStore.Proofs.Store.WellFormed

/-!
# Members chosen at random

Which member is chosen is up to the supply. Nothing is assumed of it but that it answers one of the
positions that it is asked for, so everything here is said of a store with any choices whatever
(`withChoices`). `Draws` says what an operation asks: nothing, or once for a position in a set that
has members. There is then such a position, and it is the one of the member that is answered.

A pop leaves the other members, in some order, and never evicts, since its key is live. So a set of
`n` members is emptied by `n` pops, which take each member once (`exists_empties`).
-/

namespace BoundedStore

/-! ## What is asked of the supply -/

/-- An operation with its outcome and the choices that are left. Either nothing was asked, or a
position in a set with members, and the outcome is the member there. -/
inductive Draws (s : Store) : Operation → Outcome → Choices → Prop
  | nothing (op : Operation) (outcome : Outcome) : Draws s op outcome s.choices
  | member {op : Operation} {key : String} {members : Members}
    (hop : op = .command (.popMember key) ∨ op = .command (.randomMember key))
    (hset : s.set? key = some members) (i : Fin members.length)
    (hchosen : (s.choices.pick members.length).1 = i) :
    Draws s op (.value (some members[i])) (s.choices.pick members.length).2

namespace Store

/-- The same store, with other choices ahead. -/
def withChoices (s : Store) (choices : Choices) : Store :=
  { s with choices }

/-- The position that is chosen next in a set with members. -/
def chosen (s : Store) {members : Members} (h : members ≠ []) : Fin members.length :=
  ⟨(s.choices.pick members.length).1, Nat.mod_lt _ (List.length_pos_of_ne_nil h)⟩

/-! ## One choice -/

section OneChoice

variable {s : Store} {key : String} {members : Members}

theorem popMember_of_members (hset : s.set? key = some members) (h : members ≠ []) :
    s.popMember key = (some members[s.chosen h],
      { s.write key (.set (Members.removeAt members (s.chosen h))) with
        choices := (s.choices.pick members.length).2 }) := by
  obtain ⟨first, rest, rfl⟩ := List.exists_cons_of_ne_nil h
  have hi := (s.chosen h).isLt
  unfold popMember
  rw [find?_of_set? hset]
  exact congrArg (·, _) (List.getElem?_eq_getElem hi)

theorem randomMember_of_members (hset : s.set? key = some members) (h : members ≠ []) :
    s.randomMember key = (some members[s.chosen h],
      { s.use key with choices := (s.choices.pick members.length).2 }) := by
  obtain ⟨first, rest, rfl⟩ := List.exists_cons_of_ne_nil h
  have hi := (s.chosen h).isLt
  unfold randomMember
  rw [find?_of_set? hset]
  exact congrArg (·, _) (List.getElem?_eq_getElem hi)

/-- Where there is no member, the key is used, if it is live, and that is all. -/
theorem popMember_of_none (h : s.setMembers key = []) : s.popMember key = (none, s.use key) := by
  unfold popMember
  split
  next hfind => simp [setMembers, set?, hfind] at h
  next => rfl

theorem randomMember_of_none (h : s.setMembers key = []) :
    s.randomMember key = (none, s.use key) := by
  unfold randomMember
  split
  next hfind => simp [setMembers, set?, hfind] at h
  next => rfl

theorem exists_set_of_members (h : s.setMembers key ≠ []) :
    ∃ members, s.set? key = some members ∧ members ≠ [] := by
  unfold setMembers at h
  cases hset : s.set? key with
  | none => exact absurd (by rw [hset]; rfl) h
  | some members => exact ⟨members, rfl, by rwa [hset] at h⟩

end OneChoice

theorem draws_perform (s : Store) (op : Operation) :
    Draws s op (op.perform s).1 (op.perform s).2.choices := by
  cases hkind : op.countsOrDraws with
  | false =>
    -- most operations have nothing to do with the supply
    rw [(Operation.mapOnly_perform s hkind).choices_eq]
    exact .nothing op _
  | true =>
    cases op with
    | contains | size | statistics => cases hkind
    | command c =>
      cases c with
      | get key =>
        rw [(Operation.tallies s (.command (.get key))).choices_eq]
        exact .nothing _ _
      | popMember key =>
        show Draws s _ (.value (s.popMember key).1) (s.popMember key).2.choices
        by_cases hnone : s.setMembers key = []
        · rw [popMember_of_none hnone]
          exact .nothing _ _
        · obtain ⟨members, hset, hmembers⟩ := exists_set_of_members hnone
          rw [popMember_of_members hset hmembers]
          exact .member (.inl rfl) hset (s.chosen hmembers) rfl
      | randomMember key =>
        show Draws s _ (.value (s.randomMember key).1) (s.randomMember key).2.choices
        by_cases hnone : s.setMembers key = []
        · rw [randomMember_of_none hnone]
          exact .nothing _ _
        · obtain ⟨members, hset, hmembers⟩ := exists_set_of_members hnone
          rw [randomMember_of_members hset hmembers]
          exact .member (.inr rfl) hset (s.chosen hmembers) rfl
      | _ => cases hkind

/-! ## Pops -/

/-- `v` is taken out of `members`, and `rest` is left. -/
structure Takes (members rest : Members) (v : Value) : Prop where
  mem : v ∈ members
  others : members.Perm (v :: rest)
  gone : rest.has v = false

theorem takes_removeAt {members : Members} (hwell : members.WellFormed)
    (i : Fin members.length) : Takes members (members.removeAt i) members[i] := by
  have hmem : members[i] ∈ members := List.getElem_mem i.isLt
  have hperm : members.Perm (members[i] :: members.removeAt i) := Members.perm_of_removeAt i.isLt
  exact ⟨hmem, hperm, (hwell.perm hperm).not_has_rest (hwell.values _ hmem) (Value.same_refl _)⟩

section Pops

variable {s : Store} {key : String} {members : Members}

theorem set?_write_self (s : Store) (key : String) (members : Members) :
    (s.write key (.set members)).set? key = some members := by
  unfold set?
  rw [find?_write_self]

theorem set?_popMember (hset : s.set? key = some members) (h : members ≠ []) :
    (s.popMember key).2.set? key = some (Members.removeAt members (s.chosen h)) := by
  rw [popMember_of_members hset h]
  exact s.set?_write_self key _

/-- A pop from a set writes to a live key, so it evicts nothing. -/
theorem find?_popMember_of_ne (hset : s.set? key = some members) (h : members ≠ [])
    {other : String} (hne : other ≠ key) :
    (s.popMember key).2.find? other = s.find? other := by
  rw [popMember_of_members hset h]
  have hlive := contains_of_find? (find?_of_set? hset)
  exact (find?_write_of_live _ other hlive).trans (if_neg (Ne.symm hne))

/-- So many pops at a key, one after the other. -/
def pops (key : String) (n : Nat) : List Operation :=
  List.replicate n (.command (.popMember key))

/-- Some pops at a key give these answers, and then the set there is empty. -/
structure Empties (s : Store) (key : String) (n : Nat) (answers : List (Option Value)) : Prop where
  outcomes : (Operation.run s (pops key n)).1 = answers.map .value
  left : (Operation.run s (pops key n)).2.set? key = some []

theorem Empties.cons {n : Nat} {answers : List (Option Value)}
    (h : Empties (s.popMember key).2 key n answers) :
    Empties s key (n + 1) ((s.popMember key).1 :: answers) where
  outcomes := congrArg (Outcome.value (s.popMember key).1 :: ·) h.outcomes
  left := h.left

theorem empties_of_empty (hset : s.set? key = some []) (n : Nat) :
    Empties s key n (List.replicate n none) := by
  induction n generalizing s with
  | zero => exact ⟨rfl, hset⟩
  | succ n ih =>
    have hnone : s.setMembers key = [] := by simp [setMembers, hset]
    have hpop := popMember_of_none hnone
    have hnext : (s.popMember key).2.set? key = some [] := by
      rw [hpop]
      exact (set?_congr (s.find?_use key key)).trans hset
    have hcons := (ih hnext).cons
    rwa [hpop] at hcons

/-- Each pop takes a member of those that are left, so in the end each member was taken. -/
theorem exists_empties (hset : s.set? key = some members) :
    ∃ taken : Members, taken.Perm members ∧ ∀ more,
      Empties s key (members.length + more) (taken.map some ++ List.replicate more none) := by
  -- the last member moves on every pop, so what is left is known up to its order only, and the
  -- induction is on how many are left
  induction hlength : members.length generalizing s members with
  | zero =>
    obtain rfl := List.length_eq_zero_iff.mp hlength
    exact ⟨[], .refl [], fun more => by simpa using empties_of_empty hset more⟩
  | succ n ih =>
    have hne : members ≠ [] := List.ne_nil_of_length_eq_add_one hlength
    have hperm : members.Perm (members[s.chosen hne] :: members.removeAt (s.chosen hne)) :=
      Members.perm_of_removeAt (s.chosen hne).isLt
    have hshorter : (members.removeAt (s.chosen hne)).length = n := by
      have hsame := hperm.length_eq
      rw [List.length_cons] at hsame
      omega
    obtain ⟨taken, htaken, hruns⟩ := ih (set?_popMember hset hne) hshorter
    refine ⟨members[s.chosen hne] :: taken, (htaken.cons _).trans hperm.symm, fun more => ?_⟩
    have hcons := (hruns more).cons
    rw [popMember_of_members hset hne] at hcons
    rw [Nat.add_right_comm]
    exact hcons

end Pops

/-! ## What can be relied on -/

/-- What can be relied on at `key` when members are chosen. -/
structure ServesMembers (s : Store) (key : String) : Prop where
  pop_isSome_iff : (s.popMember key).1.isSome = true ↔
    ∃ members, s.set? key = some members ∧ members ≠ []
  /-- What a pop gives was a member, and the others are left. -/
  popped : ∀ v, (s.popMember key).1 = some v → ∃ members rest, s.set? key = some members ∧
    (s.popMember key).2.set? key = some rest ∧ Takes members rest v
  /-- A pop changes no other value, and none at all when it gives nothing. -/
  spared : ∀ other, other ≠ key ∨ (s.popMember key).1 = none →
    (s.popMember key).2.find? other = s.find? other
  pick_isSome_iff : (s.randomMember key).1.isSome = true ↔
    ∃ members, s.set? key = some members ∧ members ≠ []
  picked : ∀ v, (s.randomMember key).1 = some v →
    ∃ members, s.set? key = some members ∧ v ∈ members
  unchanged : ∀ other, (s.randomMember key).2.find? other = s.find? other
  /-- No operation asks for a position where there is none, or is given one out of range. -/
  draws : ∀ op : Operation, Draws s op (op.perform s).1 (op.perform s).2.choices
  /-- As many pops as there are members take each of them once, and more find the set empty. -/
  emptied : ∀ members, s.set? key = some members →
    ∃ taken : Members, taken.Perm members ∧ taken.Distinct ∧ ∀ more,
      Empties s key (members.length + more) (taken.map some ++ List.replicate more none)

section Serves

variable {s : Store} {key : String} {v : Value}

theorem isSome_popMember_iff (s : Store) (key : String) : (s.popMember key).1.isSome = true ↔
    ∃ members, s.set? key = some members ∧ members ≠ [] := by
  by_cases hnone : s.setMembers key = []
  · rw [popMember_of_none hnone]
    refine ⟨nofun, ?_⟩
    rintro ⟨members, hset, hne⟩
    exact absurd (by simpa [setMembers, hset] using hnone) hne
  · obtain ⟨members, hset, hne⟩ := exists_set_of_members hnone
    rw [popMember_of_members hset hne]
    exact ⟨fun _ => ⟨members, hset, hne⟩, fun _ => rfl⟩

theorem takes_of_popMember (hwell : s.WellFormed) (h : (s.popMember key).1 = some v) :
    ∃ members rest, s.set? key = some members ∧ (s.popMember key).2.set? key = some rest ∧
      Takes members rest v := by
  obtain ⟨members, hset, hne⟩ := (s.isSome_popMember_iff key).mp (by rw [h]; rfl)
  have hmembers := Members.wellFormed_of_set (hwell key _ (find?_of_set? hset))
  obtain rfl : members[s.chosen hne] = v := by
    rw [popMember_of_members hset hne] at h
    exact Option.some.inj h
  exact ⟨members, _, hset, set?_popMember hset hne, takes_removeAt hmembers (s.chosen hne)⟩

theorem find?_popMember_of_spared {other : String}
    (h : other ≠ key ∨ (s.popMember key).1 = none) :
    (s.popMember key).2.find? other = s.find? other := by
  by_cases hnone : s.setMembers key = []
  · rw [popMember_of_none hnone]
    exact s.find?_use key other
  · obtain ⟨members, hset, hne⟩ := exists_set_of_members hnone
    refine find?_popMember_of_ne hset hne (h.resolve_right ?_)
    rw [popMember_of_members hset hne]
    exact nofun

theorem find?_randomMember (s : Store) (key other : String) :
    (s.randomMember key).2.find? other = s.find? other := by
  have hmap : (s.randomMember key).2.find? other = (s.use key).find? other :=
    congrArg (·.peek other) (s.map_randomMember key)
  rw [hmap, find?_use]

theorem servesMembers_of_wellFormed (hwell : s.WellFormed) (key : String) :
    s.ServesMembers key where
  pop_isSome_iff := s.isSome_popMember_iff key
  popped _ := takes_of_popMember hwell
  spared _ := find?_popMember_of_spared
  pick_isSome_iff := s.fst_popMember key ▸ s.isSome_popMember_iff key
  picked v h := by
    rw [← s.fst_popMember key] at h
    obtain ⟨members, _, hset, -, htakes⟩ := takes_of_popMember hwell h
    exact ⟨members, hset, htakes.mem⟩
  unchanged := s.find?_randomMember key
  draws := s.draws_perform
  emptied members hset := by
    obtain ⟨taken, hperm, hruns⟩ := exists_empties hset
    have hmembers := Members.wellFormed_of_set (hwell key _ (find?_of_set? hset))
    exact ⟨taken, hperm, (hmembers.perm hperm.symm).distinct, hruns⟩

end Serves

/-- Whatever is ahead, each member can be the one that is chosen next. -/
theorem exists_popMember_eq {s : Store} {key : String} {members : Members}
    (hset : s.set? key = some members) (i : Fin members.length) :
    ∃ choices, ((s.withChoices choices).popMember key).1 = some members[i] := by
  have hne : members ≠ [] := List.ne_nil_of_length_pos i.pos
  have hother : (s.withChoices ⟨fun _ => i, 0⟩).set? key = some members := hset
  refine ⟨⟨fun _ => i, 0⟩, ?_⟩
  have hchosen : (s.withChoices ⟨fun _ => i, 0⟩).chosen hne = i :=
    Fin.ext (Nat.mod_eq_of_lt i.isLt)
  rw [popMember_of_members hother hne]
  exact congrArg (fun j : Fin members.length => some members[j]) hchosen

/-- **Random members, whichever are chosen.** Take any store that operations on well-formed values
lead to, and put any choices ahead of it. A member is given exactly where there is one to choose; a
pop takes out what it gives and nothing else, a pick takes out nothing; no operation asks for one of
no positions, or is given a position out of range; and pops one after the other give every member
once and then no more. Every member can be the one that is chosen. -/
theorem members_served_for_any_choices {s : Store} (h : s.Attained) (key : String) :
    (∀ choices, (s.withChoices choices).ServesMembers key) ∧
    ∀ members, s.set? key = some members → ∀ i : Fin members.length,
      ∃ choices, ((s.withChoices choices).popMember key).1 = some members[i] :=
  ⟨fun choices => servesMembers_of_wellFormed (s := s.withChoices choices) h.wellFormed key,
    fun _ hset i => exists_popMember_eq hset i⟩

/-- Three members, of which one is a set. The choices ahead first fall on the second one, whose
place the last one takes, and then on the first one. -/
theorem three_members_served :
    ∃ s : Store, s.Attained ∧
      s.set? "s" = some [.set [.integer 1], .text "x", .integer 2] ∧
      ∃ choices : Choices, choices = ⟨fun i => if i = 0 then 7 else 4, 0⟩ ∧
        Draws (s.withChoices choices) (.command (.popMember "s")) (.value (some (.text "x")))
          ⟨fun i => if i = 0 then 7 else 4, 1⟩ ∧
        (Operation.run (s.withChoices choices) (pops "s" 5)).1 =
          [.value (some (.text "x")), .value (some (.set [.integer 1])),
            .value (some (.integer 2)), .value none, .value none] ∧
        ∃ taken : Members, taken.Perm [.set [.integer 1], .text "x", .integer 2] ∧
          taken.Distinct ∧
          Empties (s.withChoices choices) "s" 5 (taken.map some ++ [none, none]) := by
  have hnew := new_eq_ok_iff.mpr
    ⟨(by decide : 1 ≤ 1), (rfl : _ = (⟨⟨[], .empty, 1, 0⟩, ⟨fun _ => 0, 0⟩, 0, 0⟩ : Store))⟩
  have hops : ∀ op ∈ [Operation.command (.addMember "s" (.set [.integer 1])),
      .command (.addMember "s" (.text "x")), .command (.addMember "s" (.integer 2))],
      op.WellFormed := by
    have hset : (Value.set [.integer 1]).WellFormed := by decide
    simpa [Operation.WellFormed, Command.WellFormed, Command.operands, Value.WellFormed] using hset
  have hattained := (⟨1, _, _, _, hops, hnew, rfl⟩ : Store.Attained _)
  have hserves := (members_served_for_any_choices hattained "s").1
    ⟨fun i => if i = 0 then 7 else 4, 0⟩
  obtain ⟨taken, hperm, hdistinct, hruns⟩ := hserves.emptied
    [.set [.integer 1], .text "x", .integer 2] (by decide)
  exact ⟨_, hattained, by decide, _, rfl, hserves.draws (.command (.popMember "s")), by decide,
    taken, hperm, hdistinct, hruns 2⟩

end Store

end BoundedStore
