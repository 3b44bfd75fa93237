import BoundedStore.Proofs.Store.Refusals
import BoundedStore.Proofs.Store.Turnover

/-!
# The counters of a store add up

Whatever a run does, its statistics are what an observer would count from the outcomes alone. Hits
and misses are the lookups that were answered with a value and with a refusal. And no entry is lost
from the books: every key that was ever made live is still live, or was evicted, or was removed.

The step is `balance_perform`: an operation that is no removal does one of the first three things in
`Turnover`, and each changes both sides alike. A removal is taken by itself, since it is the outcome
of the removal that is counted.
-/

namespace BoundedStore

open Bounded Bounded.Change

namespace Operation

/-! ## What an observer counts -/

/-- A lookup that answered a value. -/
def isHit : Operation × Outcome → Bool
  | (command (.get _), .value (some _)) => true
  | _ => false

/-- A lookup that found no such key. -/
def isMiss : Operation × Outcome → Bool
  | (command (.get _), .refused (.nonExistentKey _)) => true
  | _ => false

/-- A removal that took place. -/
def isRemoval : Operation × Outcome → Bool
  | (command (.remove _), .done) => true
  | _ => false

/-- The keys that an operation makes live. -/
def created (s : Store) (op : Operation) : List String :=
  (op.perform s).2.map.entries.keys.filter fun key => !s.contains key

/-- How often a run makes an absent key live. -/
def creations (s : Store) : List Operation → Nat
  | [] => 0
  | op :: rest => (created s op).length + creations (op.perform s).2 rest

/-- A counter that goes up by one in exactly the steps with `p` counts those steps. -/
theorem eq_countP_trace (count : Store → Nat) {p : Operation × Outcome → Bool}
    (hstep : ∀ s op, count (Operation.perform s op).2 =
      count s + if p (op, (Operation.perform s op).1) then 1 else 0)
    (s : Store) (ops : List Operation) :
    count (run s ops).2 = count s + (trace s ops).countP p := by
  induction ops generalizing s with
  | nil => rfl
  | cons op rest ih =>
    rw [trace_cons, List.countP_cons]
    show count (run (op.perform s).2 rest).2 = _
    rw [ih, hstep]
    omega

/-! ## Lookups -/

theorem lookups_perform (s : Store) (op : Operation) :
    (op.perform s).2.hits = s.hits + (if isHit (op, (op.perform s).1) then 1 else 0) ∧
      (op.perform s).2.misses = s.misses + (if isMiss (op, (op.perform s).1) then 1 else 0) := by
  by_cases hget : ∃ key, op = .command (.get key)
  · obtain ⟨key, rfl⟩ := hget
    cases hfind : s.find? key <;>
      simp [perform, Store.perform, Store.get, hfind, Outcome.orRefused, isHit, isMiss, Store.use]
  · have hother : ∀ key, op ≠ .command (.get key) := fun key hop => hget ⟨key, hop⟩
    obtain ⟨hhits, hmisses⟩ := (countsLookups s op).other hother
    -- what is no lookup counts on neither side
    constructor
    · rw [hhits]
      unfold isHit
      split
      next key _ hop => exact absurd (Prod.mk.inj hop).1 (hother key)
      next => rfl
    · rw [hmisses]
      unfold isMiss
      split
      next key _ hop => exact absurd (Prod.mk.inj hop).1 (hother key)
      next => rfl

/-! ## Creations -/

section Created

variable {s : Store} {op : Operation}

theorem mem_created_iff (key : String) : key ∈ created s op ↔ op.Creates s key := by
  unfold created Creates
  rw [List.mem_filter, ← contains_iff_mem_entries, Bool.not_eq_true', and_comm]
  rfl

theorem created_eq_nil (h : ∀ key, ¬ op.Creates s key) : created s op = [] :=
  List.eq_nil_iff_forall_not_mem.mpr fun key hmem => h key ((mem_created_iff key).mp hmem)

/-- A key that is created alone is created once. -/
theorem created_eq_singleton (hvalid : s.map.Valid) {key : String}
    (h : ∀ other, op.Creates s other ↔ other = key) : created s op = [key] := by
  have hnodup : (created s op).Nodup := (valid_perform hvalid op).nodup_entries.filter _
  refine List.perm_singleton.mp ?_
  refine (List.perm_ext_iff_of_nodup hnodup (List.nodup_singleton key)).mpr fun other => ?_
  rw [mem_created_iff, h, List.mem_singleton]

/-- Where the live keys are those from before and one more, that one is created. -/
theorem created_of_live_iff (hvalid : s.map.Valid) (kept : String → Prop) {key : String}
    (habsent : s.contains key = false) (hlive : ∀ other, (op.perform s).2.contains other = true ↔
      other = key ∨ (kept other ∧ s.contains other = true)) : created s op = [key] := by
  refine created_eq_singleton hvalid fun other => ?_
  unfold Creates
  rw [hlive]
  constructor
  · rintro ⟨hother, rfl | ⟨-, hbefore⟩⟩
    · rfl
    · rw [hother] at hbefore
      cases hbefore
  · rintro rfl
    exact ⟨habsent, Or.inl rfl⟩

/-- Where no key is live that was not live before, none is created. -/
theorem created_of_live_imp
    (hlive : ∀ key, (op.perform s).2.contains key = true → s.contains key = true) :
    created s op = [] := by
  refine created_eq_nil ?_
  rintro key ⟨habsent, hcomes⟩
  rw [hlive key hcomes] at habsent
  cases habsent

end Created

/-! ## The balance of a step -/

/-- A removal moves one entry to the removed ones, if it takes place. -/
theorem balance_remove {s : Store} (hvalid : s.map.Valid) (key : String) :
    let step := perform s (.command (.remove key))
    step.2.map.evictions + step.2.length +
        (if isRemoval (.command (.remove key), step.1) then 1 else 0) =
      s.map.evictions + s.length + (created s (.command (.remove key))).length := by
  have hmap : (perform s (.command (.remove key))).2.map = (s.map.remove key).2 := s.map_remove key
  have hnone : created s (.command (.remove key)) = [] := by
    refine created_of_live_imp fun other hother => ?_
    have hkept : (perform s (.command (.remove key))).2.map.contains other = true := hother
    rw [hmap, hvalid.contains_remove_iff] at hkept
    exact hkept.2
  simp only [hnone, fst_perform_remove, Store.length, hmap, evictions_remove]
  rcases s.map.live_or_absent key with hlive | habsent
  · have hstore : s.contains key = true := hlive
    have := length_remove hlive
    simp only [hstore, if_true, isRemoval, List.length_nil]
    omega
  · have hstore : s.contains key = false := habsent
    simp [hstore, isRemoval, remove_of_absent habsent]

/-- In one step the evicted, the live and the removed entries grow by what is created. -/
theorem balance_perform {s : Store} (hvalid : s.map.Valid) (op : Operation) :
    (op.perform s).2.map.evictions + (op.perform s).2.length +
        (if isRemoval (op, (op.perform s).1) then 1 else 0) =
      s.map.evictions + s.length + (created s op).length := by
  by_cases hremove : ∃ key, op = .command (.remove key)
  · obtain ⟨key, rfl⟩ := hremove
    exact balance_remove hvalid key
  have hnot : isRemoval (op, (op.perform s).1) = false := by
    unfold isRemoval
    split
    next key hop => exact absurd ⟨key, (Prod.mk.inj hop).1⟩ hremove
    next => rfl
  rw [hnot, if_neg Bool.false_ne_true]
  cases turnover hvalid op with
  | keeps hsame =>
    have hlength : (op.perform s).2.length = s.length := hsame.length_eq
    have hlive : ∀ key, (op.perform s).2.contains key = s.contains key := hsame.contains_eq
    rw [created_of_live_imp fun key hkey => hlive key ▸ hkey, hsame.evictions_eq, hlength]
    rfl
  | adds key habsent hroom hlive hlength hcount =>
    rw [created_of_live_iff hvalid (fun _ => True) habsent (by simpa using hlive), hlength,
      hcount]
    rfl
  | replaces key victim habsent hfull hvictim hlive hlength hcount =>
    rw [created_of_live_iff hvalid (· ≠ victim) habsent hlive, hlength, hcount,
      List.length_singleton]
    omega
  | removes key hop => exact absurd ⟨key, hop⟩ hremove

/-- An eviction is counted in exactly the steps that create a key in a full store. -/
theorem evictions_perform {s : Store} (hvalid : s.map.Valid) (op : Operation) :
    (op.perform s).2.map.evictions =
      s.map.evictions + if created s op ≠ [] ∧ s.length = s.capacity then 1 else 0 := by
  cases turnover hvalid op with
  | keeps hsame =>
    have hlive : ∀ key, (op.perform s).2.contains key = s.contains key := hsame.contains_eq
    rw [created_of_live_imp fun key hkey => hlive key ▸ hkey, hsame.evictions_eq]
    simp
  | adds key habsent hroom hlive hlength hcount =>
    have hnot : ¬ (created s op ≠ [] ∧ s.length = s.capacity) := fun h => by omega
    rw [if_neg hnot, hcount, Nat.add_zero]
  | replaces key victim habsent hfull hvictim hlive hlength hcount =>
    rw [created_of_live_iff hvalid (· ≠ victim) habsent hlive,
      if_pos ⟨List.cons_ne_nil key [], hfull⟩, hcount]
  | removes key hop hlive hlength hcount =>
    rw [created_of_live_imp fun other hother => ((hlive other).mp hother).2, hcount]
    simp

/-! ## The balance of a run -/

theorem balance_run {s : Store} (hvalid : s.map.Valid) (ops : List Operation) :
    (run s ops).2.map.evictions + (run s ops).2.length + (trace s ops).countP isRemoval =
      s.map.evictions + s.length + creations s ops := by
  induction ops generalizing s with
  | nil => rfl
  | cons op rest ih =>
    have hrest := ih (valid_perform hvalid op)
    have hstep := balance_perform hvalid op
    rw [trace_cons, List.countP_cons, creations]
    show (run (op.perform s).2 rest).2.map.evictions + (run (op.perform s).2 rest).2.length + _ = _
    omega

/-- What the statistics say at the end of a run, and of one more step. -/
structure AddsUp (start : Store) (ops : List Operation) : Prop where
  hits_eq : (run start ops).2.statistics.hits = (trace start ops).countP isHit
  misses_eq : (run start ops).2.statistics.misses = (trace start ops).countP isMiss
  entries_eq : (run start ops).2.statistics.entries = (run start ops).2.length
  /-- Every key that was made live was evicted, is live, or was removed. -/
  conserved : (run start ops).2.statistics.evictions + (run start ops).2.length +
    (trace start ops).countP isRemoval = creations start ops
  /-- One more step counts one eviction if it creates a key in a full store, and none otherwise. -/
  evictions_step : ∀ op, (op.perform (run start ops).2).2.statistics.evictions =
    (run start ops).2.statistics.evictions +
      if created (run start ops).2 op ≠ [] ∧ (run start ops).2.length = start.capacity then 1 else 0

/-- **The counters of a store add up.** After every step of every run from a new store, hits and
misses are the numbers of lookups that were answered and refused, the number of entries is the size
of the store, and evicted, live and removed entries together are as many as were created. An
eviction is counted in the steps that create a key in a full store, and in no others. -/
theorem run_conserves_entries {capacity : Nat} (hpos : 1 ≤ capacity) (choices : Choices) :
    ∃ start, Store.new capacity choices = .ok start ∧ start.capacity = capacity ∧
      ∀ ops, AddsUp start ops := by
  have hnew : Store.new capacity choices = .ok ⟨⟨[], .empty, capacity, 0⟩, choices, 0, 0⟩ :=
    Store.new_eq_ok_iff.mpr ⟨hpos, rfl⟩
  refine ⟨_, hnew, rfl, fun ops => ?_⟩
  have hvalid := Store.valid_of_new hnew
  have hhits := eq_countP_trace Store.hits (fun s op => (lookups_perform s op).1)
    ⟨⟨[], .empty, capacity, 0⟩, choices, 0, 0⟩ ops
  have hmisses := eq_countP_trace Store.misses (fun s op => (lookups_perform s op).2)
    ⟨⟨[], .empty, capacity, 0⟩, choices, 0, 0⟩ ops
  have hbalance := balance_run hvalid ops
  exact {
    hits_eq := hhits.trans (Nat.zero_add _)
    misses_eq := hmisses.trans (Nat.zero_add _)
    entries_eq := rfl
    conserved := hbalance.trans (Nat.zero_add _)
    evictions_step := fun op => by
      have hstep := evictions_perform (valid_run hvalid ops) op
      have hcapacity := capacity_run ⟨⟨[], .empty, capacity, 0⟩, choices, 0, 0⟩ ops
      rwa [Store.capacity, hcapacity] at hstep }

/-- In a store of one a key is created twice: the first time it is evicted by another key, which is
removed, and the second time it stays. -/
theorem recreated_key_counts_twice :
    1 ≤ 1 ∧ ∃ start, Store.new 1 ⟨fun _ => 0, 0⟩ = .ok start ∧
      ∃ ops, ops = [.command (.store "a" (.integer 1)), .command (.push .head "b" (.integer 2)),
          .command (.remove "b"), .command (.remove "b"), .command (.addMember "a" (.integer 3)),
          .command (.get "a"), .command (.get "b")] ∧
        (run start ops).2.statistics = ⟨1, 1, 1, 1⟩ ∧ creations start ops = 3 := by
  obtain ⟨start, hnew, -, hall⟩ := run_conserves_entries (by decide : 1 ≤ 1) ⟨fun _ => 0, 0⟩
  obtain ⟨-, rfl⟩ := Store.new_eq_ok_iff.mp hnew
  refine ⟨by decide, _, hnew, _, rfl, by decide, ?_⟩
  rw [← (hall _).conserved]
  decide

end Operation

end BoundedStore
