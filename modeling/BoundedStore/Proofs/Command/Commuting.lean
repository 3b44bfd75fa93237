import BoundedStore.Proofs.Command.Footprint

/-!
# Independent commands commute

Two commands are independent when they name no key in common and do not both ask for a random
member. As long as there is room for what both create, neither changes what the other looks at
(`seesSame_execute`). So each is answered the same and has the same effect whether it comes first or
second, and it makes no difference to the store but for the order in which its keys were used.
-/

namespace BoundedStore

open Bounded

/-! ## Independence -/

/-- The two commands name no key in common, and at most one of them asks for a random member. -/
structure Command.Independent (c d : Command) : Prop where
  disjoint : c.keys.Disjoint d.keys
  one_random : ¬ (c.isRandom = true ∧ d.isRandom = true)

theorem Command.Independent.symm {c d : Command} (h : c.Independent d) : d.Independent c :=
  ⟨h.disjoint.symm, fun hboth => h.one_random hboth.symm⟩

namespace Store

/-- Two stores that differ at most in the order in which their keys were used. -/
structure SameButOrder (s t : Store) : Prop where
  find?_eq : ∀ key, s.find? key = t.find? key
  /-- Hits, misses, evictions, and the number of entries. -/
  statistics_eq : s.statistics = t.statistics
  choices_eq : s.choices = t.choices
  capacity_eq : s.capacity = t.capacity

/-! ## One command after the other -/

section Commute

variable {s : Store} {c d : Command}

/-- A command sees the same before and after one that is independent of it. -/
theorem seesSame_execute (hvalid : s.map.Valid) (hroom : s.length < s.capacity)
    (h : c.Independent d) : d.SeesSame s (s.execute c).2 where
  find?_eq key hkey :=
    (find?_execute_of_notMem_keys c hvalid hroom fun hmem => h.disjoint hmem hkey).symm
  choices_eq hrandom := by
    have hother : c.isRandom = false := by
      simpa [hrandom] using h.one_random
    rw [snd_execute_eq]
    show s.choices = { s.choices with used := s.choices.used + (s.effectOf c).drawn }
    rw [drawn_effectOf hother]
    rfl

/-- The effects of independent commands add up, in whichever order. -/
theorem snd_execute_execute (hvalid : s.map.Valid) (hroom : s.length < s.capacity)
    (h : c.Independent d) :
    ((s.execute c).2.execute d).2 = (s.effectOf d).apply ((s.effectOf c).apply s) := by
  rw [snd_execute_eq, ← effectOf_congr (seesSame_execute hvalid hroom h), snd_execute_eq]

/-- After two independent commands there is what the one leaves at its keys, what the other leaves
at its own, and what was there before. -/
theorem find?_execute_execute (hvalid : s.map.Valid) (hroom : s.length + 2 ≤ s.capacity)
    (h : c.Independent d) (key : String) :
    ((s.execute c).2.execute d).2.find? key =
      if key ∈ c.keys then (s.execute c).2.find? key
      else if key ∈ d.keys then (s.execute d).2.find? key
      else s.find? key := by
  have hfirst : s.length < s.capacity := by omega
  -- the first command takes one place at most, so the second finds room as well
  have hsecond : (s.execute c).2.length < (s.execute c).2.capacity := by
    have hlength := length_execute_le c hvalid
    rw [capacity_execute]
    omega
  have hnext := valid_execute hvalid c
  by_cases hd : key ∈ d.keys
  · have hc : key ∉ c.keys := fun hmem => h.disjoint hmem hd
    rw [if_neg hc, if_pos hd]
    exact (find?_execute_congr hvalid hnext hfirst hsecond (seesSame_execute hvalid hfirst h)
      hd).symm
  · rw [find?_execute_of_notMem_keys d hnext hsecond hd, if_neg hd]
    split
    next => rfl
    next hc => exact find?_execute_of_notMem_keys c hvalid hfirst hc

/-- Neither of two commands evicts anything where there is room for both. -/
theorem evictions_execute_execute (hvalid : s.map.Valid) (hroom : s.length + 2 ≤ s.capacity) :
    ((s.execute c).2.execute d).2.map.evictions = s.map.evictions := by
  have hlength := length_execute_le c hvalid
  rw [evictions_execute d (valid_execute hvalid c) (by rw [capacity_execute]; omega),
    evictions_execute c hvalid (by omega)]

theorem sameButOrder_execute_execute (hvalid : s.map.Valid) (hroom : s.length + 2 ≤ s.capacity)
    (h : c.Independent d) :
    SameButOrder ((s.execute c).2.execute d).2 ((s.execute d).2.execute c).2 := by
  have hfirst : s.length < s.capacity := by omega
  have hfind : ∀ key, ((s.execute c).2.execute d).2.find? key =
      ((s.execute d).2.execute c).2.find? key := by
    intro key
    rw [find?_execute_execute hvalid hroom h, find?_execute_execute hvalid hroom h.symm]
    by_cases hc : key ∈ c.keys
    · have hd : key ∉ d.keys := fun hd => h.disjoint hc hd
      simp [hc, hd]
    · simp [hc]
  have hlength : ((s.execute c).2.execute d).2.length = ((s.execute d).2.execute c).2.length :=
    (valid_execute (valid_execute hvalid c) d).length_congr
      (valid_execute (valid_execute hvalid d) c) fun key => contains_congr (hfind key)
  have hcd := snd_execute_execute hvalid hfirst h
  have hdc := snd_execute_execute hvalid hfirst h.symm
  exact {
    find?_eq := hfind
    statistics_eq := by
      unfold statistics
      rw [hlength, evictions_execute_execute hvalid hroom, evictions_execute_execute hvalid hroom,
        hcd, hdc]
      simp [Effect.apply, Nat.add_right_comm]
    choices_eq := by
      rw [hcd, hdc]
      simp [Effect.apply, Nat.add_right_comm]
    capacity_eq := by rw [capacity_execute, capacity_execute, capacity_execute, capacity_execute] }

end Commute

/-- **Independent commands commute.** In a reachable store with two free places, two commands that
name no key in common and do not both ask for a random member can be executed in either order: each
is answered the same, and the stores at the end differ at most in the order in which their keys were
used. -/
theorem executeAll_commutes {s : Store} (hreachable : s.Reachable)
    (hroom : s.length + 2 ≤ s.capacity) {c d : Command} (hkeys : c.keys.Disjoint d.keys)
    (hrandom : ¬ (c.isRandom = true ∧ d.isRandom = true)) :
    ∃ first second last last',
      s.executeAll [c, d] = ([first, second], last) ∧
      s.executeAll [d, c] = ([second, first], last') ∧
      SameButOrder last last' := by
  have hvalid := hreachable.valid
  have hfirst : s.length < s.capacity := by omega
  have h : c.Independent d := ⟨hkeys, hrandom⟩
  refine ⟨(s.execute c).1, (s.execute d).1, _, _, ?_, ?_,
    sameButOrder_execute_execute hvalid hroom h⟩
  · rw [fst_execute_congr (seesSame_execute hvalid hfirst h)]
    rfl
  · rw [fst_execute_congr (seesSame_execute hvalid hfirst h.symm)]
    rfl

/-- A member is taken out of one set, and the union of two others, of which one is absent, is stored
at a new key. In either order the same member is taken, and the same union is stored. -/
theorem executeAll_commutes_pop_union :
    ∃ s : Store, s.Reachable ∧ s.length + 2 ≤ s.capacity ∧
      s.find? "s" = some (.set [.integer 7, .text "x"]) ∧ s.contains "d" = false ∧
      ∃ last last',
        s.executeAll [.popMember "s", .combineInto .union ["d", "a", "b"]] =
          ([.ok (.value (.integer 7)), .ok (.integer 1)], last) ∧
        s.executeAll [.combineInto .union ["d", "a", "b"], .popMember "s"] =
          ([.ok (.integer 1), .ok (.value (.integer 7))], last') ∧
        SameButOrder last last' ∧ last.map.recency.keys ≠ last'.map.recency.keys ∧
        last.find? "s" = some (.set [.text "x"]) ∧ last.find? "d" = some (.set [.integer 8]) := by
  have hnew := new_eq_ok_iff.mpr
    ⟨(by decide : 1 ≤ 4), (rfl : _ = (⟨⟨[], .empty, 4, 0⟩, ⟨fun _ => 0, 0⟩, 0, 0⟩ : Store))⟩
  have hreachable := (⟨4, _, _, [.command (.addMember "s" (.integer 7)),
    .command (.addMember "s" (.text "x")), .command (.addMember "a" (.integer 8))],
    hnew, rfl⟩ : Store.Reachable _)
  obtain ⟨first, second, last, last', hcd, hdc, hsame⟩ :=
    @executeAll_commutes _ hreachable (by decide) (.popMember "s")
      (.combineInto .union ["d", "a", "b"])
      (by simp [Command.keys, Command.operands, Operand.keys]) (by decide)
  refine ⟨_, hreachable, by decide, by decide, by decide, last, last', ?_⟩
  cases hcd
  cases hdc
  exact ⟨rfl, rfl, hsame, by decide, by decide, by decide⟩

end Store

end BoundedStore
