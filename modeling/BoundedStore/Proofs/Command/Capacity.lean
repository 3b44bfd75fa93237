import BoundedStore.Proofs.Bounded.Capacity
import BoundedStore.Proofs.Command.Footprint

/-!
# The capacity shows only in evictions

No command is answered from the capacity, and none looks at it but to make room. So a run of
commands that evicts nothing is the same run in a store of greater capacity, which ends in the same
store but for the capacity (`executeAll_withCapacity`).

A run evicts nothing as long as it names no more keys than there are places: what a command makes
live is one of its keys (`mem_keys_of_created`), so that the live keys are among those named so far,
and there is a place left for each that is not live yet.
-/

namespace BoundedStore

open Bounded Bounded.Change

namespace Store

/-- The same store, but of another capacity. -/
def withCapacity (s : Store) (capacity : Nat) : Store :=
  { s with map := s.map.withCapacity capacity }

/-! ## Runs without an eviction -/

section Run

variable {s : Store}

theorem evictions_le_execute (hvalid : s.map.Valid) (c : Command) :
    s.map.evictions ≤ (s.execute c).2.map.evictions := by
  rw [snd_execute_eq]
  exact hvalid.evictions_le_applyAll (s.effectOf c).changes

theorem evictions_le_executeAll (hvalid : s.map.Valid) (commands : List Command) :
    s.map.evictions ≤ (s.executeAll commands).2.map.evictions := by
  induction commands generalizing s with
  | nil => exact Nat.le_refl _
  | cons c rest ih => exact (evictions_le_execute hvalid c).trans (ih (valid_execute hvalid c))

/-- A command that evicts nothing is answered the same in a store of greater capacity, and does the
same to it. -/
theorem execute_withCapacity (hvalid : s.map.Valid) {capacity : Nat} (hle : s.capacity ≤ capacity)
    {c : Command} (hcount : (s.execute c).2.map.evictions = s.map.evictions) :
    (s.withCapacity capacity).execute c =
      ((s.execute c).1, (s.execute c).2.withCapacity capacity) := by
  have hsees : c.SeesSame (s.withCapacity capacity) s := ⟨fun _ _ => rfl, fun _ => rfl⟩
  have hmap : (s.execute c).2.map = applyAll s.map (s.effectOf c).changes :=
    congrArg Store.map (s.snd_execute_eq c)
  rw [hmap] at hcount
  refine Prod.ext (fst_execute_congr hsees) ?_
  show ((s.withCapacity capacity).execute c).2 = _
  rw [snd_execute_eq, snd_execute_eq, effectOf_congr hsees]
  unfold Effect.apply withCapacity
  rw [hvalid.applyAll_withCapacity hle hcount]

/-- A run that evicts nothing is the same run in a store of greater capacity. -/
theorem executeAll_withCapacity (hvalid : s.map.Valid) {capacity : Nat}
    (hle : s.capacity ≤ capacity) {commands : List Command}
    (hcount : (s.executeAll commands).2.map.evictions = s.map.evictions) :
    (s.withCapacity capacity).executeAll commands =
      ((s.executeAll commands).1, (s.executeAll commands).2.withCapacity capacity) := by
  induction commands generalizing s with
  | nil => rfl
  | cons c rest ih =>
    have hnext := valid_execute hvalid c
    rw [executeAll_cons] at hcount
    -- the count stands still over the first command and over the rest
    have hfirst : (s.execute c).2.map.evictions = s.map.evictions :=
      Nat.le_antisymm (hcount ▸ evictions_le_executeAll hnext rest) (evictions_le_execute hvalid c)
    have hrest := ih hnext (by rw [capacity_execute]; exact hle) (hcount.trans hfirst.symm)
    rw [executeAll_cons, execute_withCapacity hvalid hle hfirst, hrest]
    rfl

end Run

/-! ## Runs on few keys -/

/-- Every live key is one of `keys`. -/
def LiveAmong (s : Store) (keys : Finset String) : Prop :=
  ∀ key, s.contains key = true → key ∈ keys

section Named

variable {s : Store} {keys : Finset String}

theorem mem_keys_of_created (hvalid : s.map.Valid) {c : Command} {key : String}
    (habsent : s.contains key = false) (hlive : (s.execute c).2.contains key = true) :
    key ∈ c.keys := by
  obtain ⟨d, hop, hkeys, -⟩ := s.exists_operationOf c
  rw [snd_execute, hop] at hlive
  exact hkeys ▸ targets_subset_keys d (Operation.mem_targets_of_creates hvalid ⟨habsent, hlive⟩)

theorem LiveAmong.execute (h : s.LiveAmong keys) (hvalid : s.map.Valid) {c : Command}
    (hnamed : ∀ key ∈ c.keys, key ∈ keys) : (s.execute c).2.LiveAmong keys := by
  intro key hlive
  rcases s.map.live_or_absent key with hold | habsent
  · exact h key hold
  · exact hnamed key (mem_keys_of_created hvalid habsent hlive)

/-- A key that could be live but is not has a place left. -/
theorem LiveAmong.length_lt (h : s.LiveAmong keys) (hvalid : s.map.Valid)
    (hcard : keys.card ≤ s.capacity) {key : String} (hmem : key ∈ keys)
    (habsent : s.contains key = false) : s.length < s.capacity := by
  have hsub : s.map.recency.keys.toFinset ⊆ keys.erase key := by
    intro other hother
    have hlive : s.contains other = true :=
      (hvalid.mem_keys_iff other).mp (List.mem_toFinset.mp hother)
    refine Finset.mem_erase.mpr ⟨?_, h other hlive⟩
    rintro rfl
    rw [habsent] at hlive
    cases hlive
  calc s.length = s.map.recency.keys.toFinset.card := by
        rw [List.toFinset_card_of_nodup hvalid.consistent.nodup_keys]
        exact hvalid.length_eq
    _ ≤ (keys.erase key).card := Finset.card_le_card hsub
    _ < keys.card := Finset.card_erase_lt_of_mem hmem
    _ ≤ s.capacity := hcard

theorem LiveAmong.evictions_execute (h : s.LiveAmong keys) (hvalid : s.map.Valid)
    (hcard : keys.card ≤ s.capacity) {c : Command} (hnamed : ∀ key ∈ c.keys, key ∈ keys) :
    (s.execute c).2.map.evictions = s.map.evictions := by
  have hcreated := fun key => @mem_keys_of_created s hvalid c key
  rw [snd_execute] at hcreated ⊢
  cases Operation.turnover hvalid (s.operationOf c) with
  | keeps hsame => exact hsame.evictions_eq
  | adds _ _ _ _ _ hcount => exact hcount
  | removes _ _ _ _ hcount => exact hcount
  | replaces key victim habsent hfull _ hlive =>
    -- the store would be full without a key that is among those it has room for
    have hmem := hnamed key (hcreated key habsent ((hlive key).mpr (Or.inl rfl)))
    exact absurd hfull (Nat.ne_of_lt (h.length_lt hvalid hcard hmem habsent))

theorem LiveAmong.evictions_executeAll (h : s.LiveAmong keys) (hvalid : s.map.Valid)
    (hcard : keys.card ≤ s.capacity) {commands : List Command}
    (hnamed : ∀ c ∈ commands, ∀ key ∈ c.keys, key ∈ keys) :
    (s.executeAll commands).2.map.evictions = s.map.evictions := by
  induction commands generalizing s with
  | nil => rfl
  | cons c rest ih =>
    have hfirst := hnamed c List.mem_cons_self
    have hrest := ih (h.execute hvalid hfirst) (valid_execute hvalid c)
      (by rw [capacity_execute]; exact hcard) fun d hd => hnamed d (List.mem_cons_of_mem c hd)
    rw [executeAll_cons]
    exact hrest.trans (h.evictions_execute hvalid hcard hfirst)

end Named

/-! ## Two new stores -/

/-- **The capacity shows only in evictions.** Take two new stores, one of them at least as large as
the other, with the same random choices. If commands evict nothing from the smaller one, they evict
nothing from the larger one either, they are all answered the same, and the stores at the end differ
in their capacity alone. Commands that name no more keys than the smaller store has places evict
nothing from either store, however many they are. -/
theorem executeAll_ignores_capacity {c₁ c₂ : Nat} (hpos : 1 ≤ c₁) (hle : c₁ ≤ c₂)
    (choices : Choices) :
    ∃ small large, Store.new c₁ choices = .ok small ∧ Store.new c₂ choices = .ok large ∧
      ∀ commands : List Command,
        ((small.executeAll commands).2.map.evictions = 0 →
          (large.executeAll commands).2.map.evictions = 0 ∧
          (large.executeAll commands).1 = (small.executeAll commands).1 ∧
          (large.executeAll commands).2 = (small.executeAll commands).2.withCapacity c₂) ∧
        ((commands.flatMap Command.keys).toFinset.card ≤ c₁ →
          (small.executeAll commands).2.map.evictions = 0 ∧
          (large.executeAll commands).2.map.evictions = 0) := by
  obtain ⟨small, hsmall⟩ : ∃ small, Store.new c₁ choices = .ok small :=
    ⟨_, new_eq_ok_iff.mpr ⟨hpos, rfl⟩⟩
  have hvalid := valid_of_new hsmall
  obtain ⟨-, rfl⟩ := new_eq_ok_iff.mp hsmall
  have hlarge : Store.new c₂ choices = .ok (withCapacity ⟨⟨[], .empty, c₁, 0⟩, choices, 0, 0⟩ c₂) :=
    new_eq_ok_iff.mpr ⟨hpos.trans hle, rfl⟩
  refine ⟨_, _, hsmall, hlarge, fun commands => ?_⟩
  have hsame := fun hnone => @executeAll_withCapacity _ hvalid c₂ hle commands hnone
  refine ⟨fun hnone => ?_, fun hcard => ?_⟩
  · rw [hsame hnone]
    exact ⟨hnone, rfl, rfl⟩
  · have hempty : LiveAmong ⟨⟨[], .empty, c₁, 0⟩, choices, 0, 0⟩
        (commands.flatMap Command.keys).toFinset := fun key hlive => by cases hlive
    have hnone := hempty.evictions_executeAll hvalid hcard fun c hc key hkey =>
      List.mem_toFinset.mpr (List.mem_flatMap.mpr ⟨c, hc, hkey⟩)
    rw [hsame hnone]
    exact ⟨hnone, hnone⟩

/-- Six commands on two keys: in a store of two nothing is evicted, also when a removed key comes
back, and a store of three gives the same answers. -/
theorem executeAll_ignores_capacity_two :
    1 ≤ 2 ∧ 2 ≤ 3 ∧ ∃ small large, Store.new 2 ⟨fun _ => 1, 0⟩ = .ok small ∧
      Store.new 3 ⟨fun _ => 1, 0⟩ = .ok large ∧
      ∃ commands, commands = [.addMember "s" (.integer 7), .addMember "s" (.text "x"),
          .combineInto .union ["d", "s", "d"], .remove "s", .popMember "d",
          .moveMember "d" "s" (.integer 7)] ∧
        (small.executeAll commands).2.map.evictions = 0 ∧
        (large.executeAll commands).1 = (small.executeAll commands).1 ∧
        (small.executeAll commands).1 = [.ok (.integer 1), .ok (.integer 1), .ok (.integer 1),
          .ok .ok, .ok (.value (.text "x")), .ok (.integer 1)] ∧
        (large.executeAll commands).2.map.recency.keys = ["d", "s"] := by
  obtain ⟨small, large, hsmall, hlarge, hrun⟩ :=
    executeAll_ignores_capacity (by decide : 1 ≤ 2) (by decide : 2 ≤ 3) ⟨fun _ => 1, 0⟩
  obtain ⟨hsame, hfew⟩ := hrun [.addMember "s" (.integer 7), .addMember "s" (.text "x"),
    .combineInto .union ["d", "s", "d"], .remove "s", .popMember "d",
    .moveMember "d" "s" (.integer 7)]
  obtain ⟨-, rfl⟩ := new_eq_ok_iff.mp hsmall
  obtain ⟨hnone, -⟩ := hfew (by decide)
  obtain ⟨-, hreplies, hlast⟩ := hsame hnone
  refine ⟨by decide, by decide, _, large, hsmall, hlarge, _, rfl, hnone, hreplies, by decide, ?_⟩
  rw [hlast]
  decide

end Store

end BoundedStore
