import BoundedStore.Proofs.Store.Uses

/-!
# Which keys come and go

An operation can do four things to the live keys, and `Turnover` lists them: it keeps them all, it
adds one key where there is room, it puts one key in the place of another where there is none, or it
removes its key. `turnover` says that every operation on a valid map does one of these.

An eviction is then a key going without being removed, and it happens exactly when a key comes to a
full store. The key that goes is the live key used longest ago, counted by the uses of the whole run
and of the operation itself up to the moment of the eviction.
-/

namespace BoundedStore

open Bounded Bounded.Change

namespace Operation

/-- `key` is live after the operation and was not live before it. -/
def Creates (s : Store) (op : Operation) (key : String) : Prop :=
  s.contains key = false ∧ (op.perform s).2.contains key = true

/-- `victim` was live before the operation and is not live after it, and the operation is not its
removal. -/
def Evicts (s : Store) (op : Operation) (victim : String) : Prop :=
  s.contains victim = true ∧ (op.perform s).2.contains victim = false ∧
    op ≠ .command (.remove victim)

/-- What an operation can do to the live keys. -/
inductive Turnover (s : Store) (op : Operation) (t : Store) : Prop
  /-- The same keys are live. -/
  | keeps (hsame : SameKeys s.map t.map)
  /-- A new key finds room. -/
  | adds (key : String) (habsent : s.contains key = false) (hroom : s.length < s.capacity)
      (hlive : ∀ other, t.contains other = true ↔ other = key ∨ s.contains other = true)
      (hlength : t.length = s.length + 1) (hcount : t.map.evictions = s.map.evictions)
  /-- A new key takes the place of the live key that was used before all others. -/
  | replaces (key victim : String) (habsent : s.contains key = false)
      (hfull : s.length = s.capacity) (hvictim : s.contains victim = true)
      (hlive : ∀ other, t.contains other = true ↔
        other = key ∨ (other ≠ victim ∧ s.contains other = true))
      (hlength : t.length = s.length) (hcount : t.map.evictions = s.map.evictions + 1)
      (holdest : ∀ past, s.map.Remembers past → ∀ other, s.contains other = true →
        other ≠ victim → UsedBefore (past ++ op.uses s) victim other)
  /-- The operation removes its key, if that is live. -/
  | removes (key : String) (hop : op = .command (.remove key))
      (hlive : ∀ other, t.contains other = true ↔ other ≠ key ∧ s.contains other = true)
      (hlength : t.length + (if s.contains key then 1 else 0) = s.length)
      (hcount : t.map.evictions = s.map.evictions)

/-! ## The four cases -/

/-- A write behind quiet changes adds its key, or replaces another by it, or keeps all keys. -/
theorem turnover_of_write {s : Store} {op : Operation} (hvalid : s.map.Valid)
    {changes : List (Change Value)} (hquiet : s.map.QuietAll changes) {key : String} {value : Value}
    (hmap : (op.perform s).2.map = (applyAll s.map changes).insert key value)
    (huses : op.uses s = usesAll s.map changes ++ [key]) :
    Turnover s op (op.perform s).2 := by
  have hsame : SameKeys s.map (applyAll s.map changes) := hquiet.sameKeys
  have hm : (applyAll s.map changes).Valid := hvalid.applyAll changes
  have hcapacity : (applyAll s.map changes).capacity = s.map.capacity :=
    capacity_applyAll s.map changes
  have hremembers : ∀ past, s.map.Remembers past →
      (applyAll s.map changes).Remembers (past ++ usesAll s.map changes) :=
    fun past hpast => hpast.applyAll hvalid changes
  -- from here on the quiet changes are made
  generalize applyAll s.map changes = m at *
  have hcontains : ∀ other, m.contains other = s.contains other := hsame.contains_eq
  have hlength : m.length = s.length := hsame.length_eq
  rcases m.live_or_absent key with hlive | habsent
  · exact .keeps (by rw [hmap]; exact hsame.trans (quietAll_write value hlive).sameKeys)
  rcases Nat.lt_or_ge m.length m.capacity with hroom | hge
  · have hinsert : m.insert key value = m.place key value := insert_of_roomy value (Or.inr hroom)
    refine .adds key (by rw [← hcontains, habsent]) ?hroom ?hlive ?hlength ?hcount
    case hroom =>
      show s.length < s.map.capacity
      omega
    case hlive =>
      intro other
      show (op.perform s).2.map.contains other = true ↔ _
      rw [hmap, hinsert, contains_place_iff, hcontains]
    case hlength =>
      show (op.perform s).2.map.length = _
      rw [hmap, hinsert, length_place_of_absent value habsent, hlength]
    case hcount =>
      rw [hmap, hinsert]
      exact hsame.evictions_eq
  · -- there is no room, so the new key displaces the head of the list
    have hbound := hm.length_le
    have hfull : m.length = m.capacity := by omega
    obtain ⟨victim, hdisplaces⟩ := hm.insert_of_full value habsent hfull
    refine .replaces key victim (by rw [← hcontains, habsent]) ?hfull ?hvictim ?hlive ?hlength
      ?hcount ?holdest
    case hfull =>
      show s.length = s.map.capacity
      omega
    case hvictim => rw [← hcontains, hdisplaces.victim_live]
    case hlive =>
      intro other
      show (op.perform s).2.map.contains other = true ↔ _
      rw [hmap, hdisplaces.contains_iff, hcontains]
    case hlength =>
      show (op.perform s).2.map.length = _
      rw [hmap, hdisplaces.length_eq, hlength]
    case hcount => rw [hmap, hdisplaces.evictions_eq, hsame.evictions_eq]
    case holdest =>
      -- the uses of the quiet changes count before the eviction, the new key only after it
      intro past hpast other hother hne
      rw [huses, ← List.append_assoc]
      have holdest := (hremembers past hpast).usedBefore_of_keys_eq_cons hm
        hdisplaces.keys_eq_cons ((hcontains other).trans hother) hne
      exact holdest.append (by simpa using hdisplaces.victim_ne)

/-- A removal takes out its key, if that is live. -/
theorem turnover_of_remove {s : Store} (hvalid : s.map.Valid) (key : String) :
    Turnover s (.command (.remove key)) (Operation.perform s (.command (.remove key))).2 := by
  have hmap : (Operation.perform s (.command (.remove key))).2.map = (s.map.remove key).2 :=
    perform_map s (.command (.remove key))
  refine .removes key rfl ?hlive ?hlength (by rw [hmap, evictions_remove])
  case hlive =>
    intro other
    show (Operation.perform s (.command (.remove key))).2.map.contains other = true ↔ _
    rw [hmap]
    exact hvalid.contains_remove_iff key other
  case hlength =>
    show (Operation.perform s (.command (.remove key))).2.map.length + _ = s.map.length
    rw [hmap]
    rcases s.map.live_or_absent key with hlive | habsent
    · have hstore : s.contains key = true := hlive
      rw [if_pos hstore]
      exact length_remove hlive
    · have hstore : s.contains key = false := habsent
      rw [remove_of_absent habsent, hstore]
      rfl

/-- Every operation on a valid map does one of the four. -/
theorem turnover {s : Store} (hvalid : s.map.Valid) (op : Operation) :
    Turnover s op (op.perform s).2 := by
  have hmap := perform_map s op
  have huses := usesAll_changes s op
  have hform := changes_form s op
  generalize op.changes s = changes at hmap huses hform
  cases hform with
  | quiet hquiet => exact .keeps (by rw [hmap]; exact hquiet.sameKeys)
  | write hquiet key value =>
    rw [applyAll_append] at hmap
    rw [usesAll_append] at huses
    exact turnover_of_write hvalid hquiet hmap huses.symm
  | remove key hop =>
    subst hop
    exact turnover_of_remove hvalid key

/-! ## Evictions -/

/-- What it means for one step to evict by last use, when `past` are the uses before it. -/
structure EvictsByLastUse (past : List String) (s : Store) (op : Operation) : Prop where
  /-- A step evicts exactly when it creates a key in a full store. -/
  evicts_iff : (∃ victim, op.Evicts s victim) ↔ (∃ key, op.Creates s key) ∧ s.length = s.capacity
  /-- It evicts one key. -/
  unique : ∀ victim other, op.Evicts s victim → op.Evicts s other → other = victim
  /-- The uses of the step itself count as well. -/
  oldest : ∀ victim, op.Evicts s victim → ∀ key, s.contains key = true → key ≠ victim →
    UsedBefore (past ++ op.uses s) victim key
  counted : (∃ victim, op.Evicts s victim) →
    (op.perform s).2.map.evictions = s.map.evictions + 1
  uncounted : (¬ ∃ victim, op.Evicts s victim) →
    (op.perform s).2.map.evictions = s.map.evictions

/-- A step that lets no live key go, apart from its own removal, is no eviction. -/
theorem not_evicts_of_kept {s : Store} {op : Operation}
    (hkept : ∀ key, s.contains key = true → op ≠ .command (.remove key) →
      (op.perform s).2.contains key = true) (victim : String) : ¬ op.Evicts s victim := by
  rintro ⟨hlive, hgone, hremoves⟩
  rw [hkept victim hlive hremoves] at hgone
  cases hgone

/-- A step that evicts nothing is as it should be when it creates no key, or finds room for it. -/
theorem EvictsByLastUse.of_none {past : List String} {s : Store} {op : Operation}
    (hnone : ∀ victim, ¬ op.Evicts s victim)
    (hroomy : ∀ key, op.Creates s key → s.length ≠ s.capacity)
    (hcount : (op.perform s).2.map.evictions = s.map.evictions) : EvictsByLastUse past s op where
  evicts_iff := by
    constructor
    · rintro ⟨victim, hevicts⟩
      exact absurd hevicts (hnone victim)
    · rintro ⟨⟨key, hcreates⟩, hfull⟩
      exact absurd hfull (hroomy key hcreates)
  unique := fun victim _ hevicts => absurd hevicts (hnone victim)
  oldest := fun victim hevicts => absurd hevicts (hnone victim)
  counted := fun ⟨victim, hevicts⟩ => absurd hevicts (hnone victim)
  uncounted := fun _ => hcount

theorem evictsByLastUse {s : Store} {past : List String} (hvalid : s.map.Valid)
    (hpast : s.map.Remembers past) (op : Operation) : EvictsByLastUse past s op := by
  cases turnover hvalid op with
  | keeps hsame =>
    have hlive : ∀ key, (op.perform s).2.contains key = s.contains key := hsame.contains_eq
    -- no key goes, and no key comes that would need room
    refine .of_none (not_evicts_of_kept fun key hkey _ => by rw [hlive, hkey]) ?_
      hsame.evictions_eq
    rintro key ⟨habsent, hcomes⟩
    rw [hlive, habsent] at hcomes
    cases hcomes
  | adds key habsent hroom hlive hlength hcount =>
    refine .of_none (not_evicts_of_kept fun key hkey _ => (hlive key).mpr (Or.inr hkey)) ?_ hcount
    intro _ _
    omega
  | removes key hop hlive hlength hcount =>
    -- the only key that goes is the removed one
    refine .of_none (not_evicts_of_kept fun other hother hne => ?_) ?_ hcount
    · refine (hlive other).mpr ⟨?_, hother⟩
      rintro rfl
      exact hne hop
    · rintro other ⟨habsent, hcomes⟩
      rw [((hlive other).mp hcomes).2] at habsent
      cases habsent
  | replaces key victim habsent hfull hvictim hlive hlength hcount holdest =>
    have hne : key ≠ victim := by
      rintro rfl
      rw [habsent] at hvictim
      cases hvictim
    have hcreates : op.Creates s key := ⟨habsent, (hlive key).mpr (Or.inl rfl)⟩
    have hgone : (op.perform s).2.contains victim = false := by
      rw [← Bool.not_eq_true, hlive]
      simp [hne.symm]
    have hnotremoved : op ≠ .command (.remove victim) := by
      rintro rfl
      -- a removal is not counted as an eviction
      have hmap : (Operation.perform s (.command (.remove victim))).2.map =
        (s.map.remove victim).2 := s.map_remove victim
      rw [hmap, evictions_remove] at hcount
      omega
    have hevicts : op.Evicts s victim := ⟨hvictim, hgone, hnotremoved⟩
    have hunique : ∀ other, op.Evicts s other → other = victim := by
      rintro other ⟨hother, hothergone, -⟩
      by_contra hdifferent
      rw [(hlive other).mpr (Or.inr ⟨hdifferent, hother⟩)] at hothergone
      cases hothergone
    exact {
      evicts_iff := ⟨fun _ => ⟨⟨key, hcreates⟩, hfull⟩, fun _ => ⟨victim, hevicts⟩⟩
      unique := fun first second hfirst hsecond =>
        (hunique second hsecond).trans (hunique first hfirst).symm
      oldest := fun other hother => by
        rw [hunique other hother]
        exact holdest past hpast
      counted := fun _ => hcount
      uncounted := fun hnone => absurd ⟨victim, hevicts⟩ hnone }

/-- **Eviction goes exactly by last use.** At every step of every run the recency of the store holds
the live keys in the order of their last uses so far. The step evicts when and only when it creates
a key in a full store, it evicts one key, and that is the live key whose last use comes before the
last use of every other live key. -/
theorem run_evicts_by_last_use {capacity : Nat} (hpos : 1 ≤ capacity) (choices : Choices) :
    ∃ start, Store.new capacity choices = .ok start ∧ ∀ (before : List Operation) (op : Operation),
      (run start before).2.capacity = capacity ∧
      (run start before).2.map.Remembers (history start before) ∧
      EvictsByLastUse (history start before) (run start before).2 op := by
  have hnew : Store.new capacity choices = .ok ⟨⟨[], .empty, capacity, 0⟩, choices, 0, 0⟩ :=
    Store.new_eq_ok_iff.mpr ⟨hpos, rfl⟩
  refine ⟨_, hnew, fun before op => ?_⟩
  have hvalid := Store.valid_of_new hnew
  have hremembers := remembers_run (Remembers.of_new (Store.map_of_new hnew)) hvalid before
  exact ⟨capacity_run _ before, hremembers,
    evictsByLastUse (valid_run hvalid before) hremembers op⟩

/-- A move to a new key uses its source first, so in a full store the other key goes, although that
one was written later. -/
theorem move_evicts_by_last_use :
    1 ≤ 2 ∧ ∃ start, Store.new 2 ⟨fun _ => 0, 0⟩ = .ok start ∧
      Evicts
        (run start [.command (.addMember "s" (.integer 7)), .command (.store "a" (.text "1"))]).2
        (.command (.moveMember "s" "d" (.integer 7))) "a" ∧
      UsedBefore ["s", "a", "s", "d"] "a" "s" := by
  obtain ⟨start, hnew, hall⟩ := run_evicts_by_last_use (by decide : 1 ≤ 2) ⟨fun _ => 0, 0⟩
  obtain ⟨-, rfl⟩ := Store.new_eq_ok_iff.mp hnew
  have hlast := (hall [.command (.addMember "s" (.integer 7)), .command (.store "a" (.text "1"))]
    (.command (.moveMember "s" "d" (.integer 7)))).2.2
  refine ⟨by decide, _, hnew, ?victim, hlast.oldest "a" ?victim "s" ?live ?other⟩
  case victim => exact ⟨by decide, by decide, by decide⟩
  case live => decide
  case other => decide

end Operation

end BoundedStore
