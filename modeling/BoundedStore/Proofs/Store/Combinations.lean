import BoundedStore.Proofs.Store.Frame

/-!
# Combinations of sets that are stored

To store a combination of sets is to compute it and then to write it. `combineInto_agrees` compares
the two operations: they are refused alike, for the first source that holds no set, and what is
stored is what is computed, from the sets as they are before anything is used or written.

The sources themselves are used on the way, in the order of the list, so that they are the last to
be evicted by the write. `combination_keeps_sources` says what this comes to. A source can go only
where a new key comes to a full store of which every key is a source, and then it is the one whose
last place in the list comes first. Everywhere else the key that goes, if any has to, is the one
used longest ago among the keys that are no sources.
-/

namespace BoundedStore

open Bounded Bounded.Change

namespace Store

/-! ## What is computed is what is stored -/

section Agreement

variable (s : Store) (algebra : Algebra) (destination : String) (sources : List String)

/-- The lookup of several sets is refused for the first key that holds something else. -/
theorem setsAt_eq_error_iff (e : StoreError) :
    s.setsAt sources = .error e ↔
      ∃ key value, sources.find? (s.holdsOther .set) = some key ∧ s.find? key = some value ∧
        e = value.mismatch key "set" := by
  unfold setsAt
  induction sources with
  | nil => exact ⟨nofun, fun ⟨_, _, h, _⟩ => nomatch h⟩
  | cons first rest ih =>
    rw [List.mapM_cons]
    by_cases hother : s.holdsOther .set first = true
    · obtain ⟨value, hfind, hkind⟩ := (Option.any_eq_true _ _).mp hother
      have hrefused : s.membersAt first = .error (value.mismatch first "set") := by
        unfold membersAt
        rw [hfind]
        cases value with
        | set members => cases hkind
        | integer | text | list => rfl
      rw [hrefused, List.find?_cons_of_pos hother]
      constructor
      · intro h
        exact ⟨first, value, rfl, hfind, (Except.error.inj h).symm⟩
      · rintro ⟨key, found, hkey, hfound, rfl⟩
        obtain rfl := Option.some.inj hkey
        obtain rfl := Option.some.inj (hfind.symm.trans hfound)
        rfl
    · -- the first key passes, so the rest decides
      rw [List.find?_cons_of_neg hother, ← ih, (s.settles_membersAt first).ok hother]
      cases List.mapM s.membersAt rest with
      | ok sets => exact ⟨nofun, nofun⟩
      | error refusal => exact Iff.rfl

theorem fst_combine_eq_error_iff (e : StoreError) :
    (s.combine algebra sources).1 = .error e ↔ s.setsAt sources = .error e := by
  show (s.setsAt sources).map algebra.combine = .error e ↔ _
  cases s.setsAt sources with
  | ok sets => exact ⟨nofun, nofun⟩
  | error refusal => exact ⟨fun h => congrArg _ (Except.error.inj h), fun h => h ▸ rfl⟩

/-- A combination that is not refused is one of the sets that the sources hold, or do not hold. -/
theorem fst_combine_eq_ok_iff (vs : List Value) :
    (s.combine algebra sources).1 = .ok vs ↔
      s.setsAt sources = .ok (sources.map s.set?) ∧ vs = algebra.combine (sources.map s.set?) := by
  show (s.setsAt sources).map algebra.combine = .ok vs ↔ _
  cases hsets : s.setsAt sources with
  | ok sets =>
    obtain ⟨-, rfl⟩ := (s.settles_setsAt sources).eq_ok_iff.mp hsets
    exact ⟨fun h => ⟨rfl, (Except.ok.inj h).symm⟩, fun ⟨_, h⟩ => h ▸ rfl⟩
  | error refusal => exact ⟨nofun, nofun⟩

/-- How the two operations go together, on one store. -/
structure AgreesWithCombine : Prop where
  /-- The one is refused exactly when the other is, with the same words, -/
  refused_iff : ∀ e, (s.combineInto algebra (destination :: sources)).1 = .error e ↔
    (s.combine algebra sources).1 = .error e
  /-- which name the first of the sources that holds no set. -/
  refused_first : ∀ e, (s.combine algebra sources).1 = .error e ↔
    ∃ key value, sources.find? (s.holdsOther .set) = some key ∧ s.find? key = some value ∧
      e = value.mismatch key "set"
  /-- Refused, they leave the same store. -/
  refused_same : ∀ e, (s.combine algebra sources).1 = .error e →
    (s.combineInto algebra (destination :: sources)).2 = (s.combine algebra sources).2
  /-- What is computed comes from the sets as they are beforehand, -/
  computed : ∀ vs, (s.combine algebra sources).1 = .ok vs →
    vs = algebra.combine (sources.map s.set?)
  /-- and it is what the destination holds afterwards, whatever it held before. -/
  stored : ∀ vs, (s.combine algebra sources).1 = .ok vs →
    (s.combineInto algebra (destination :: sources)).1 = .ok vs.length ∧
      (s.combineInto algebra (destination :: sources)).2.find? destination = some (.set vs)

/-- **Storing a combination agrees with computing it**, on every store and for every destination,
also one that is live, that is of another kind, or that is one of the sources. -/
theorem combineInto_agrees : AgreesWithCombine s algebra destination sources where
  refused_iff e := by
    rw [fst_combine_eq_error_iff]
    cases hsets : s.setsAt sources with
    | ok sets => rw [s.combineInto_of_ok algebra destination hsets]; exact ⟨nofun, nofun⟩
    | error refusal =>
      rw [s.combineInto_of_error algebra destination hsets]
      exact ⟨fun h => congrArg _ (Except.error.inj h), fun h => congrArg _ (Except.error.inj h)⟩
  refused_first e :=
    (s.fst_combine_eq_error_iff algebra sources e).trans (s.setsAt_eq_error_iff sources e)
  refused_same e h := by
    have hsets := (s.fst_combine_eq_error_iff algebra sources e).mp h
    rw [s.combineInto_of_error algebra destination hsets]
    rfl
  computed vs h := ((s.fst_combine_eq_ok_iff algebra sources vs).mp h).2
  stored vs h := by
    obtain ⟨hsets, rfl⟩ := (s.fst_combine_eq_ok_iff algebra sources vs).mp h
    rw [s.combineInto_of_ok algebra destination hsets]
    exact ⟨rfl, find?_write_self (s.useAll sources) destination _⟩

end Agreement

end Store

namespace Operation

/-! ## What is left of the sources -/

section Sources

variable {s : Store} (algebra : Algebra) {destination : String} {sources : List String}

/-- A combination that is stored has found no source of another kind. -/
theorem admitsSet_of_combineInto {n : Nat}
    (h : (perform s (.command (.combineInto algebra (destination :: sources)))).1 = .count n) :
    sources.all s.admitsSet = true := by
  rw [← s.setsAt_eq_ok_iff]
  cases hsets : s.setsAt sources with
  | ok sets => exact ⟨sets, rfl⟩
  | error e =>
    have hrefused : (perform s (.command (.combineInto algebra (destination :: sources)))).1 =
        .refused e := by
      show Outcome.orRefused _ (s.combineInto algebra (destination :: sources)).1 = _
      rw [s.combineInto_of_error algebra destination hsets]
      rfl
    cases hrefused.symm.trans h

/-- The key that goes is looked for among the live keys, after all sources were used. -/
theorem victim?_combineInto (hvalid : s.map.Valid) (hadmits : sources.all s.admitsSet = true) :
    victim? s (.command (.combineInto algebra (destination :: sources))) =
      if s.contains destination = false ∧ s.length = s.capacity then
        (s.map.recency.keys ++ sources.filter s.contains).dedup.head?
      else none := by
  have hquiet := quietAll_use s.map sources
  have hsources : usesAll s.map (sources.map .use) = sources.filter s.contains :=
    usesAll_use s.map sources
  have huses : uses s (.command (.combineInto algebra (destination :: sources))) =
      usesAll s.map (sources.map .use) ++ [destination] := by
    rw [uses, if_pos hadmits, hsources]
  unfold victim?
  rw [huses]
  split
  next hcomes =>
    rw [hquiet.victim?_of_full hvalid hcomes.1 hcomes.2, hquiet.keys_applyAll hvalid, hsources]
  next hstays =>
    refine hquiet.victim?_of_roomy ?_
    by_contra hnot
    rw [not_or, not_not, Bool.not_eq_true] at hnot
    exact hstays hnot

theorem exists_victim_combineInto (hvalid : s.map.Valid) (hadmits : sources.all s.admitsSet = true)
    (habsent : s.contains destination = false) (hfull : s.length = s.capacity) :
    ∃ victim, victim? s (.command (.combineInto algebra (destination :: sources))) = some victim ∧
      (s.map.recency.keys ++ sources.filter s.contains).dedup.head? = some victim := by
  have hcomes :
      destination ∈ uses s (.command (.combineInto algebra (destination :: sources))) := by
    rw [uses, if_pos hadmits]
    exact List.mem_append_right _ List.mem_cons_self
  obtain ⟨victim, hevicted⟩ := hvalid.exists_victim? hfull ⟨destination, hcomes, habsent⟩
  have hvictim : victim? s (.command (.combineInto algebra (destination :: sources))) =
      some victim := hevicted
  refine ⟨victim, hvictim, ?_⟩
  rwa [victim?_combineInto algebra hvalid hadmits, if_pos ⟨habsent, hfull⟩] at hvictim

/-- `key` holds a set in `s`, and in `t` the same members in the same order. -/
def RetainsSet (s t : Store) (key : String) : Prop :=
  ∃ members, s.find? key = some (.set members) ∧ t.find? key = some (.set members)

/-- A source that is neither overwritten nor evicted is left as it is. -/
theorem retainsSet_of_source (hvalid : s.map.Valid) (hadmits : sources.all s.admitsSet = true)
    {key : String} (hsource : key ∈ sources) (hlive : s.contains key = true)
    (hne : key ≠ destination)
    (hstays : victim? s (.command (.combineInto algebra (destination :: sources))) ≠ some key) :
    RetainsSet s (perform s (.command (.combineInto algebra (destination :: sources)))).2 key := by
  have htarget : key ∉ targets (.command (.combineInto algebra (destination :: sources))) := by
    simpa [targets] using hne
  unfold RetainsSet
  rw [find?_perform_of_notMem_targets hvalid htarget hstays]
  obtain ⟨found, hsome⟩ := Option.isSome_iff_exists.mp hlive
  have hfind : s.find? key = some found := hsome
  have hkind := List.all_eq_true.mp hadmits key hsource
  unfold Store.admitsSet at hkind
  rw [hfind] at hkind ⊢
  cases found with
  | set members => exact ⟨members, rfl, rfl⟩
  | integer | text | list => cases hkind

/-- What a combination that is stored leaves of its sources: `past` are the uses before it, and `t`
is the store after it. -/
structure KeepsSources (past : List String) (s t : Store) (destination : String)
    (sources : List String) : Prop where
  /-- Where the destination is live or finds room, every other source is left as it is. -/
  roomy : s.contains destination = true ∨ s.length ≠ s.capacity →
    ∀ key ∈ sources, s.contains key = true → key ≠ destination → RetainsSet s t key
  /-- In a full store with other keys than the sources, every source is left as it is, and of the
  other keys the one used longest ago goes. -/
  outside : s.contains destination = false → s.length = s.capacity →
    (∃ key, s.contains key = true ∧ key ∉ sources) →
    (∀ key ∈ sources, s.contains key = true → RetainsSet s t key) ∧
      ∃ victim, victim ∉ sources ∧ LosesOnly s t victim ∧
        ∀ other, s.contains other = true → other ∉ sources → other ≠ victim →
          UsedBefore past victim other
  /-- In a full store of sources the one goes whose last place among the sources comes first, and
  every other one is left as it is. -/
  crowded : s.contains destination = false → s.length = s.capacity →
    (∀ key, s.contains key = true → key ∈ sources) →
    ∃ victim ∈ sources, LosesOnly s t victim ∧
      (∀ other, s.contains other = true → other ≠ victim → UsedBefore sources victim other) ∧
      ∀ key ∈ sources, s.contains key = true → key ≠ victim → RetainsSet s t key

theorem keepsSources {past : List String} (hvalid : s.map.Valid) (hpast : s.map.Remembers past)
    (hadmits : sources.all s.admitsSet = true) :
    KeepsSources past s
      (perform s (.command (.combineInto algebra (destination :: sources)))).2 destination
      sources := by
  have hnot : ∀ key, Operation.command (.combineInto algebra (destination :: sources)) ≠
      .command (.remove key) := nofun
  have hkeys : ∀ key, key ∈ s.map.recency.keys ↔ s.contains key = true := hvalid.mem_keys_iff
  have hused : ∀ key, key ∈ sources.filter s.contains ↔ key ∈ sources ∧ s.contains key = true :=
    fun key => List.mem_filter
  have hother : s.contains destination = false → ∀ key, s.contains key = true →
      key ≠ destination := by
    rintro habsent key hlive rfl
    exact Bool.false_ne_true (habsent.symm.trans hlive)
  refine ⟨?roomy, ?outside, ?crowded⟩
  case roomy =>
    intro hroomy key hsource hlive hne
    refine retainsSet_of_source algebra hvalid hadmits hsource hlive hne ?_
    rw [victim?_combineInto algebra hvalid hadmits, if_neg]
    · nofun
    · rintro ⟨habsent, hfull⟩
      exact hroomy.elim (fun h => Bool.false_ne_true (habsent.symm.trans h)) fun h => h hfull
  case outside =>
    rintro habsent hfull ⟨outsider, houtlive, houtside⟩
    obtain ⟨victim, hgone, hhead⟩ :=
      exists_victim_combineInto algebra hvalid hadmits habsent hfull
    -- the sources were used again, so the head is no source
    obtain ⟨hmem, hunused, holdest⟩ := (head?_dedup_append hhead).2
      ⟨outsider, (hkeys outsider).mpr houtlive, fun h => houtside ((hused outsider).mp h).1⟩
    have hnotsource : victim ∉ sources := fun h =>
      hunused ((hused victim).mpr ⟨h, (hkeys victim).mp hmem⟩)
    refine ⟨fun key hsource hkey => ?_, victim, hnotsource, losesOnly_of_victim? hvalid hnot hgone,
      fun other hotherlive hout hne => ?_⟩
    · refine retainsSet_of_source algebra hvalid hadmits hsource hkey (hother habsent key hkey) ?_
      rw [hgone]
      exact fun e => hnotsource (Option.some.inj e ▸ hsource)
    · have hpair := holdest other ((hkeys other).mpr hotherlive)
        (fun h => hout ((hused other).mp h).1) hne
      rw [hpast.keys_eq] at hpair
      exact usedBefore_of_sublist_dedup (hpair.trans List.filter_sublist)
  case crowded =>
    intro habsent hfull hall
    obtain ⟨victim, hgone, hhead⟩ :=
      exists_victim_combineInto algebra hvalid hadmits habsent hfull
    -- all keys were used again, so their order is that of the sources
    obtain ⟨hmem, holdest⟩ := (head?_dedup_append hhead).1 fun key hkey =>
      (hused key).mpr ⟨hall key ((hkeys key).mp hkey), (hkeys key).mp hkey⟩
    refine ⟨victim, ((hused victim).mp hmem).1, losesOnly_of_victim? hvalid hnot hgone,
      fun other hlive hne => ?_, fun key hsource hkey hne => ?_⟩
    · exact (holdest other ((hused other).mpr ⟨hall other hlive, hlive⟩) hne).of_filter
    · refine retainsSet_of_source algebra hvalid hadmits hsource hkey (hother habsent key hkey) ?_
      rw [hgone]
      exact fun e => hne (Option.some.inj e).symm

end Sources

/-- **What a stored combination leaves of its sources.** At every step of every run, a combination
that is stored leaves each source but the destination with the same members in the same order, with
one exception: the destination is a new key and the store is full of sources. Then one source goes,
the one whose last place in the list of sources comes before that of every other live key. If the
store is full but not of sources, the key used longest ago among the others goes. -/
theorem combination_keeps_sources {capacity : Nat} (hpos : 1 ≤ capacity) (choices : Choices) :
    ∃ start, Store.new capacity choices = .ok start ∧
      ∀ (ops : List Operation) (algebra : Algebra) (destination : String) (sources : List String)
        (s t : Store) (n : Nat),
        s = (run start ops).2 →
        perform s (.command (.combineInto algebra (destination :: sources))) = (.count n, t) →
        KeepsSources (history start ops) s t destination sources := by
  have hnew : Store.new capacity choices = .ok ⟨⟨[], .empty, capacity, 0⟩, choices, 0, 0⟩ :=
    Store.new_eq_ok_iff.mpr ⟨hpos, rfl⟩
  refine ⟨_, hnew, ?_⟩
  rintro ops algebra destination sources s t n rfl hstored
  have hstart := Store.valid_of_new hnew
  have hpast := remembers_run (Remembers.of_new (Store.map_of_new hnew)) hstart ops
  have hadmits := admitsSet_of_combineInto algebra (congrArg Prod.fst hstored)
  have hvalid := valid_run hstart ops
  have hkeeps : KeepsSources _ _ _ destination sources :=
    keepsSources algebra hvalid hpast hadmits
  rwa [hstored] at hkeeps

/-- Two sources fill a store of two, and their union is stored at a third key. Of the sources `a`,
`b`, `a` it is `b` that goes, although `a` was made before it. -/
theorem union_of_all_evicts_source :
    1 ≤ 2 ∧ ∃ start s t, Store.new 2 ⟨fun _ => 0, 0⟩ = .ok start ∧
      s = (run start
        [.command (.addMember "a" (.integer 1)), .command (.addMember "b" (.integer 2))]).2 ∧
      perform s (.command (.combineInto .union ["d", "a", "b", "a"])) = (.count 2, t) ∧
      t.contains "b" = false ∧ RetainsSet s t "a" ∧
      KeepsSources ["a", "b"] s t "d" ["a", "b", "a"] := by
  obtain ⟨start, hnew, hall⟩ := combination_keeps_sources (by decide : 1 ≤ 2) ⟨fun _ => 0, 0⟩
  obtain ⟨-, rfl⟩ := Store.new_eq_ok_iff.mp hnew
  have hkeeps := hall
    [.command (.addMember "a" (.integer 1)), .command (.addMember "b" (.integer 2))]
    .union "d" ["a", "b", "a"] _ _ 2 rfl rfl
  exact ⟨by decide, _, _, _, hnew, rfl, rfl, by decide, ⟨[.integer 1], by decide, by decide⟩,
    hkeeps⟩

end Operation

end BoundedStore
