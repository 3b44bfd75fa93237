import BoundedStore.Proofs.Command.Runs
import BoundedStore.Proofs.Store.Counters
import BoundedStore.Proofs.Store.Frame

/-!
# What a command looks at

A command names keys, and the values at these keys are all that it looks at; a command for a random
member looks at the supply of choices as well. `SeesSame` says that two stores do not differ in what
a command looks at. Then it is answered alike in both (`fst_execute_congr`) and has the same effect
(`effectOf_congr`), whatever else the stores hold and in whatever order it was used.

Nor does a command change anything else, as long as there is a free place: a key that it does not
name has the value it had (`find?_execute_of_notMem_keys`). In a full store a new key would take one
away.
-/

namespace BoundedStore

open Bounded Bounded.Change

/-! ## The keys of a command -/

/-- The keys in an operand. Every text that is an operand is a key. -/
def Operand.keys : Operand → List String
  | text key => [key]
  | texts keys => keys
  | integer _ | value _ => []

namespace Command

/-- The keys that a command names. -/
def keys (c : Command) : List String :=
  c.operands.flatMap fun (_, operand) => operand.keys

/-- Whether a command asks for a random member. -/
def isRandom : Command → Bool
  | popMember _ | randomMember _ => true
  | _ => false

theorem keys_combine (algebra : Algebra) (keys : List String) :
    (combine algebra keys).keys = keys := by
  simp [Command.keys, operands, Operand.keys]

theorem keys_combineInto (algebra : Algebra) (keys : List String) :
    (combineInto algebra keys).keys = keys := by
  simp [Command.keys, operands, Operand.keys]

/-- The two stores do not differ in what the command looks at. -/
structure SeesSame (c : Command) (s t : Store) : Prop where
  find?_eq : ∀ key ∈ c.keys, s.find? key = t.find? key
  choices_eq : c.isRandom = true → s.choices = t.choices

end Command

namespace Store

/-! ## Replies -/

section Congr

variable {s t : Store} {c : Command}

/-- A command is answered from what it looks at. -/
theorem fst_execute_congr (h : c.SeesSame s t) : (s.execute c).1 = (t.execute c).1 := by
  have hfind := h.find?_eq
  cases c with
  | store key value =>
    exact (congrArg Prod.fst (s.storeOrReplace_succ key value 2)).trans
      (congrArg Prod.fst (t.storeOrReplace_succ key value 2)).symm
  | replace key value => rfl
  | get key =>
    have hkey := hfind key List.mem_cons_self
    simp only [execute, Prod.map_fst]
    unfold get
    rw [hkey]
    cases t.find? key <;> rfl
  | remove key =>
    have hkey := hfind key List.mem_cons_self
    rw [fst_execute_remove, fst_execute_remove, contains_congr hkey]
  | push side key value =>
    have hkey := hfind key List.mem_cons_self
    simp only [execute, Prod.map_fst, fst_push, holdsOther_congr hkey]
  | pop side key =>
    have hkey := hfind key List.mem_cons_self
    simp only [execute, Prod.map_fst, fst_pop, listItems_congr hkey]
  | itemAt key index =>
    have hkey := hfind key List.mem_cons_self
    simp only [execute, Prod.map_fst, fst_itemAt, list?_congr hkey]
  | setItem key index value =>
    have hkey := hfind key List.mem_cons_self
    simp only [execute, Prod.map_fst, fst_setItem, holds_congr hkey, listItems_congr hkey]
  | trimList key start stop =>
    have hkey := hfind key List.mem_cons_self
    simp only [execute, Prod.map_fst, fst_trimList, holds_congr hkey]
  | removeItems key count target =>
    have hkey := hfind key List.mem_cons_self
    simp only [execute, Prod.map_fst, fst_removeItems, listItems_congr hkey]
  | listLength key | listRange key =>
    have hkey := itemsAt_congr (hfind key List.mem_cons_self)
    simp only [execute, Prod.map_fst, listLength, listRange, hkey]
  | addMember key | removeMember key | isMember key | cardinality key | members key =>
    have hkey := membersAt_congr (hfind key List.mem_cons_self)
    simp only [execute, Prod.map_fst, fst_addMember, fst_removeMember, isMember, cardinality,
      members, hkey]
  | combine algebra keys =>
    rw [Command.keys_combine] at hfind
    simp only [execute, Prod.map_fst, combine, setsAt_congr hfind]
  | combineInto algebra keys =>
    rw [Command.keys_combineInto] at hfind
    cases keys with
    | nil => rfl
    | cons destination sources =>
      have hsources := setsAt_congr fun key hmem => hfind key (List.mem_cons_of_mem _ hmem)
      simp only [execute, Prod.map_fst, fst_combineInto, hsources]
  | moveMember source destination member =>
    have hsource := membersAt_congr (hfind source List.mem_cons_self)
    have hdestination :=
      membersAt_congr (hfind destination (List.mem_cons_of_mem _ List.mem_cons_self))
    simp only [execute, Prod.map_fst, fst_moveMember, hsource, hdestination]
  | popMember key | randomMember key =>
    have hkey := setMembers_congr (hfind key List.mem_cons_self)
    have hchoices := h.choices_eq rfl
    simp only [execute, Prod.map_fst, fst_popMember, fst_randomMember_eq_getElem?, hkey, hchoices]

/-! ## Changes -/

theorem rewriting_congr {key : String} (h : s.find? key = t.find? key)
    (rewrite : Value → Option Value) : s.rewriting key rewrite = t.rewriting key rewrite := by
  unfold rewriting
  rw [h]

theorem moving_congr {source destination : String} (member : Value)
    (hsource : s.find? source = t.find? source)
    (hdestination : s.find? destination = t.find? destination) :
    s.moving source destination member = t.moving source destination member := by
  unfold moving moved
  rw [hsource, hdestination, admitsSet_congr hdestination]

theorem operationOf_congr (h : c.SeesSame s t) : s.operationOf c = t.operationOf c := by
  cases c with
  | store key value =>
    simp only [operationOf, contains_congr (h.find?_eq key List.mem_cons_self)]
  | _ => rfl

/-- A command makes its changes from what it looks at. -/
theorem changes_congr (h : c.SeesSame s t) :
    Operation.changes s (.command c) = Operation.changes t (.command c) := by
  have hfind := h.find?_eq
  cases c with
  | store key =>
    simp only [Operation.changes, contains_congr (hfind key List.mem_cons_self)]
  | remove | get | itemAt | listLength | listRange | isMember | cardinality | members
  | randomMember | combine => rfl
  | push side key | addMember key =>
    have hkey := hfind key List.mem_cons_self
    simp only [Operation.changes, contains_congr hkey, rewriting_congr hkey]
  | replace key | pop _ key | setItem key | trimList key | removeItems key | removeMember key =>
    have hkey := hfind key List.mem_cons_self
    simp only [Operation.changes, rewriting_congr hkey]
  | popMember key =>
    have hkey := hfind key List.mem_cons_self
    simp only [Operation.changes, rewriting_congr hkey, h.choices_eq rfl]
  | combineInto algebra keys =>
    rw [Command.keys_combineInto] at hfind
    cases keys with
    | nil => rfl
    | cons destination sources =>
      have hsources := setsAt_congr fun key hmem => hfind key (List.mem_cons_of_mem _ hmem)
      simp only [Operation.changes, hsources]
  | moveMember source destination member =>
    have hsource := hfind source List.mem_cons_self
    have hdestination := hfind destination (List.mem_cons_of_mem _ List.mem_cons_self)
    exact moving_congr member hsource hdestination

theorem drawn_congr (h : c.SeesSame s t) :
    Operation.drawn s (.command c) = Operation.drawn t (.command c) := by
  cases c with
  | popMember key | randomMember key =>
    simp only [Operation.drawn, setMembers_congr (h.find?_eq key List.mem_cons_self)]
  | _ => rfl

theorem newHits_congr (h : c.SeesSame s t) :
    Operation.newHits s (.command c) = Operation.newHits t (.command c) := by
  cases c with
  | get key => simp only [Operation.newHits, contains_congr (h.find?_eq key List.mem_cons_self)]
  | _ => rfl

theorem newMisses_congr (h : c.SeesSame s t) :
    Operation.newMisses s (.command c) = Operation.newMisses t (.command c) := by
  cases c with
  | get key => simp only [Operation.newMisses, contains_congr (h.find?_eq key List.mem_cons_self)]
  | _ => rfl

end Congr

end Store

/-! ## Effects -/

/-- All that a command does to a store: changes of the map, choices that it draws, and lookups that
it counts. -/
structure Effect where
  changes : List (Change Value)
  drawn : Nat
  hits : Nat
  misses : Nat

/-- The store after an effect. -/
def Effect.apply (e : Effect) (s : Store) : Store where
  map := applyAll s.map e.changes
  choices := { s.choices with used := s.choices.used + e.drawn }
  hits := s.hits + e.hits
  misses := s.misses + e.misses

namespace Store

/-- The effect of a command, as what the store holds decides it. -/
def effectOf (s : Store) (c : Command) : Effect where
  changes := (s.operationOf c).changes s
  drawn := (s.operationOf c).drawn s
  hits := (s.operationOf c).newHits s
  misses := (s.operationOf c).newMisses s

theorem snd_execute_eq (s : Store) (c : Command) : (s.execute c).2 = (s.effectOf c).apply s := by
  rw [snd_execute, Operation.snd_perform_eq]
  rfl

/-- The operation that a command comes down to names the same keys. -/
theorem exists_operationOf (s : Store) (c : Command) :
    ∃ d, s.operationOf c = .command d ∧ d.keys = c.keys ∧ d.isRandom = c.isRandom := by
  cases c with
  | store key value =>
    simp only [operationOf]
    split
    · exact ⟨.replace key value, rfl, rfl, rfl⟩
    · exact ⟨.store key value, rfl, rfl, rfl⟩
  | _ => exact ⟨_, rfl, rfl, rfl⟩

/-- A command has its effect from what it looks at. -/
theorem effectOf_congr {s t : Store} {c : Command} (h : c.SeesSame s t) :
    s.effectOf c = t.effectOf c := by
  obtain ⟨d, hop, hkeys, hrandom⟩ := s.exists_operationOf c
  have hd : d.SeesSame s t :=
    ⟨by rw [hkeys]; exact h.find?_eq, by rw [hrandom]; exact h.choices_eq⟩
  unfold effectOf
  rw [← operationOf_congr h, hop, changes_congr hd, drawn_congr hd, newHits_congr hd,
    newMisses_congr hd]

/-- Only a command for a random member draws a choice. -/
theorem drawn_effectOf {s : Store} {c : Command} (h : c.isRandom = false) :
    (s.effectOf c).drawn = 0 := by
  obtain ⟨d, hop, -, hrandom⟩ := s.exists_operationOf c
  show (s.operationOf c).drawn s = 0
  rw [hop]
  rw [← hrandom] at h
  cases d with
  | popMember | randomMember => cases h
  | _ => rfl

/-! ## The rest is left alone -/

theorem operationOf_eq_remove_iff {s : Store} {c : Command} {key : String} :
    s.operationOf c = .command (.remove key) ↔ c = .remove key := by
  cases c with
  | store other value =>
    simp only [operationOf]
    split <;> simp
  | _ => simp [operationOf]

theorem targets_subset_keys (c : Command) : Operation.targets (.command c) ⊆ c.keys := by
  cases c with
  | combineInto algebra keys =>
    rw [Command.keys_combineInto]
    exact List.take_subset 1 keys
  | combine => exact List.nil_subset _
  | _ => simp [Operation.targets, Command.keys, Command.operands, Operand.keys]

section Roomy

variable {s : Store} (c : Command)

theorem length_execute_le (hvalid : s.map.Valid) : (s.execute c).2.length ≤ s.length + 1 := by
  rw [snd_execute]
  cases Operation.turnover hvalid (s.operationOf c) with
  | keeps hsame => exact Nat.le_succ_of_le (Nat.le_of_eq hsame.length_eq)
  | adds _ _ _ _ hlength => exact Nat.le_of_eq hlength
  | replaces _ _ _ _ _ _ hlength => exact Nat.le_succ_of_le (Nat.le_of_eq hlength)
  | removes _ _ _ hlength => omega

theorem capacity_execute : (s.execute c).2.capacity = s.capacity := by
  rw [snd_execute]
  exact Operation.capacity_perform s _

theorem victim?_of_roomy (hroom : s.length < s.capacity) (op : Operation) : op.victim? s = none :=
  if_neg fun h => Nat.ne_of_lt hroom h.1

variable (hvalid : s.map.Valid) (hroom : s.length < s.capacity)
include hvalid hroom

/-- In a store with a free place a command leaves behind what it writes and removes, and what was
there. -/
theorem find?_execute (key : String) :
    (s.execute c).2.find? key =
      if c = .remove key then none
      else (lastWritten key (s.effectOf c).changes).or (s.find? key) := by
  rw [snd_execute, Operation.find?_perform hvalid, victim?_of_roomy hroom]
  simp only [operationOf_eq_remove_iff, reduceCtorEq, or_false]
  rfl

theorem evictions_execute : (s.execute c).2.map.evictions = s.map.evictions := by
  rw [snd_execute, Operation.evictions_eq_victim? hvalid, victim?_of_roomy hroom]
  rfl

/-- The values at the keys that a command does not name stay. -/
theorem find?_execute_of_notMem_keys {key : String} (h : key ∉ c.keys) :
    (s.execute c).2.find? key = s.find? key := by
  obtain ⟨d, hop, hkeys, -⟩ := s.exists_operationOf c
  have htarget : key ∉ (s.operationOf c).targets := by
    rw [hop]
    exact fun hmem => h (hkeys ▸ targets_subset_keys d hmem)
  rw [snd_execute]
  exact Operation.find?_perform_of_notMem_targets hvalid htarget
    (by simp [victim?_of_roomy hroom])

end Roomy

/-- What a command leaves at its keys it leaves there from what it looks at. -/
theorem find?_execute_congr {s t : Store} {c : Command} (hs : s.map.Valid) (ht : t.map.Valid)
    (hroom : s.length < s.capacity) (hroom' : t.length < t.capacity) (h : c.SeesSame s t)
    {key : String} (hkey : key ∈ c.keys) :
    (s.execute c).2.find? key = (t.execute c).2.find? key := by
  rw [find?_execute c hs hroom, find?_execute c ht hroom', effectOf_congr h, h.find?_eq key hkey]

end Store

end BoundedStore
