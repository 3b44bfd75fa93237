import BoundedStore.Proofs.Store.Results
import BoundedStore.Proofs.Store.Similar
import BoundedStore.Proofs.Store.Validity

/-!
# Operations respect the equality of values

Similar operations on similar stores have similar outcomes: the same answer, count or refusal, or
values that are equal one by one (`Similar.outcome`). Together with what they leave behind, which is
similar again, this is `operations_respect_equality`. So a store never depends on which of several
equal values it was given, but for the order in which a set that is stored as a whole has its
members; and no run of operations brings a dependence about (`Similar.run`).
-/

namespace BoundedStore

open Value (Aligned Paired PairedSets)

/-! ## Similar outcomes -/

/-- The same outcome, but for values, which are equal. The counts of lookups and evictions go back
to the start of a store, and of these nothing is said here. -/
inductive Outcome.Similar : Outcome → Outcome → Prop
  | done : Similar .done .done
  | flag (b : Bool) : Similar (.flag b) (.flag b)
  | count (n : Nat) : Similar (.count n) (.count n)
  | value {v w : Option Value} (h : Option.Rel (· ≈ ·) v w) : Similar (.value v) (.value w)
  | values {vs ws : List Value} (h : Paired vs ws) : Similar (.values vs) (.values ws)
  | size (length : Nat) (isEmpty : Bool) (capacity : Nat) :
    Similar (.size length isEmpty capacity) (.size length isEmpty capacity)
  | statistics {a b : Statistics} (h : a.entries = b.entries) :
    Similar (.statistics a) (.statistics b)
  | refused (e : StoreError) : Similar (.refused e) (.refused e)

namespace Outcome

theorem similar_flag {b b' : Bool} (h : b = b') : Similar (.flag b) (.flag b') := h ▸ .flag b

theorem similar_count {n n' : Nat} (h : n = n') : Similar (.count n) (.count n') := h ▸ .count n

theorem similar_orRefused {α β : Type} {R : α → β → Prop} {result : Except StoreError α}
    {result' : Except StoreError β} (h : SettleAlike R result result') {f : α → Outcome}
    {g : β → Outcome} (hfg : ∀ a b, R a b → Similar (f a) (g b)) :
    Similar (orRefused f result) (orRefused g result') := by
  cases h with
  | ok hab => exact hfg _ _ hab
  | error e => exact .refused e

end Outcome

namespace Store

namespace Similar

section Outcomes

variable {s t : Store} (h : s.Similar t)
include h

/-! ## Entries as a whole -/

theorem create (key : String) (v w : Value) :
    SettleAlike (fun _ _ => True) (s.create key v).1 (t.create key w).1 := by
  have hlive : t.map.contains key = s.map.contains key := h.contains_eq key
  unfold Store.create
  rw [hlive]
  split
  · exact .error _
  · exact .ok trivial

theorem get (key : String) : SettleAlike (· ≈ ·) (s.get key).1 (t.get key).1 := by
  have hfind := h.find?_rel key
  unfold Store.get
  generalize s.find? key = found, t.find? key = found' at hfind ⊢
  cases hfind with
  | none => exact .error _
  | some hvalue => exact .ok hvalue.equiv

theorem remove (key : String) :
    SettleAlike (fun _ _ => True) (s.remove key).1 (t.remove key).1 := by
  rw [fst_remove, fst_remove, h.contains_eq]
  split
  · exact .ok trivial
  · exact .error _

theorem replace (key : String) (v w : Value) : (s.replace key v).1 = (t.replace key w).1 := by
  have hfind := h.find?_rel key
  unfold Store.replace
  generalize s.find? key = found, t.find? key = found' at hfind ⊢
  cases hfind <;> rfl

theorem size : Outcome.Similar (Operation.size.perform s).1 (Operation.size.perform t).1 := by
  have hempty : t.isEmpty = s.isEmpty := by
    unfold Store.isEmpty Bounded.isEmpty
    rw [Bool.eq_iff_iff, List.isEmpty_iff_length_eq_zero, List.isEmpty_iff_length_eq_zero]
    exact iff_of_eq (congrArg (· = 0) h.length_eq)
  show Outcome.Similar (.size s.length s.isEmpty s.capacity) (.size t.length t.isEmpty t.capacity)
  rw [h.length_eq, hempty, Store.capacity, Store.capacity, h.capacity_eq]
  exact .size _ _ _

/-! ## Lists -/

theorem push (side : Side) (key : String) (x y : Value) :
    (s.push side key x).1 = (t.push side key y).1 := by
  rw [fst_push, fst_push, h.holdsOther_eq]

theorem pop (side : Side) (key : String) :
    Option.Rel (· ≈ ·) (s.pop side key).1 (t.pop side key).1 := by
  have hpop := (h.listItems key).pop? side
  rw [fst_pop, fst_pop]
  generalize Items.pop? side (s.listItems key) = taken, Items.pop? side (t.listItems key) = taken'
    at hpop ⊢
  cases hpop with
  | none => exact .none
  | some hsame => exact .some hsame.1

theorem itemAt (key : String) (index : Int64) :
    Option.Rel (· ≈ ·) (s.itemAt key index).1 (t.itemAt key index).1 := by
  have hlist := h.list?_rel key
  rw [fst_itemAt, fst_itemAt]
  generalize s.list? key = items, t.list? key = items' at hlist ⊢
  cases hlist with
  | none => exact .none
  | some hitems =>
    refine .some ?_
    split
    · exact hitems.getD index.toInt.toNat (.text "")
    · exact Setoid.refl (Value.text "")

theorem setItem (key : String) (index : Int64) (x y : Value) :
    (s.setItem key index x).1 = (t.setItem key index y).1 := by
  rw [fst_setItem, fst_setItem, h.holds_eq, (h.listItems key).length_eq]

theorem trimList (key : String) (start stop : Int64) :
    (s.trimList key start stop).1 = (t.trimList key start stop).1 := by
  rw [fst_trimList, fst_trimList, h.holds_eq]

theorem removeItems (key : String) (count : Int64) {x y : Value} (hx : x ≈ y) :
    (s.removeItems key count x).1 = (t.removeItems key count y).1 := by
  have hitems := h.listItems key
  rw [fst_removeItems, fst_removeItems, hitems.length_eq, (hitems.removeItems count hx).length_eq]

theorem listLength (key : String) :
    SettleAlike (· = ·) (s.listLength key).1 (t.listLength key).1 :=
  (h.itemsAt key).map fun _ _ hitems => (PairedSets.getD hitems).length_eq

theorem listRange (key : String) (start stop : Int64) :
    SettleAlike Paired (s.listRange key start stop).1 (t.listRange key start stop).1 :=
  (h.itemsAt key).map fun _ _ hitems => (PairedSets.getD hitems).slice start stop

/-! ## Sets -/

theorem addMember (key : String) {x y : Value} (hx : x ≈ y) :
    SettleAlike (· = ·) (s.addMember key x).1 (t.addMember key y).1 := by
  rw [fst_addMember, fst_addMember]
  exact (h.membersAt key).map fun _ _ hset => congrArg (!·) ((PairedSets.getD hset).has_eq hx)

theorem removeMember (key : String) {x y : Value} (hx : x ≈ y) :
    SettleAlike (· = ·) (s.removeMember key x).1 (t.removeMember key y).1 := by
  rw [fst_removeMember, fst_removeMember]
  exact (h.membersAt key).map fun _ _ hset => (PairedSets.getD hset).has_eq hx

theorem isMember (key : String) {x y : Value} (hx : x ≈ y) :
    SettleAlike (· = ·) (s.isMember key x).1 (t.isMember key y).1 :=
  (h.membersAt key).map fun _ _ hset => (PairedSets.getD hset).has_eq hx

theorem cardinality (key : String) :
    SettleAlike (· = ·) (s.cardinality key).1 (t.cardinality key).1 :=
  (h.membersAt key).map fun _ _ hset => (PairedSets.getD hset).length_eq

theorem members (key : String) : SettleAlike Paired (s.members key).1 (t.members key).1 :=
  (h.membersAt key).map fun _ _ => PairedSets.getD

theorem combine (algebra : Algebra) (keys : List String) :
    SettleAlike Paired (s.combine algebra keys).1 (t.combine algebra keys).1 :=
  (h.setsAt keys).map fun _ _ hsets => hsets.combine algebra

theorem combineInto (algebra : Algebra) (keys : List String) :
    SettleAlike (· = ·) (s.combineInto algebra keys).1 (t.combineInto algebra keys).1 := by
  cases keys with
  | nil => exact .ok rfl
  | cons destination sources =>
    rw [fst_combineInto, fst_combineInto]
    exact (h.setsAt sources).map fun _ _ hsets => (hsets.combine algebra).length_eq

theorem moveMember (source destination : String) {x y : Value} (hx : x ≈ y) :
    SettleAlike (· = ·) (s.moveMember source destination x).1
      (t.moveMember source destination y).1 := by
  have hsource := h.membersAt source
  have hdestination := h.membersAt destination
  rw [fst_moveMember, fst_moveMember]
  generalize s.membersAt source = found, t.membersAt source = found' at hsource ⊢
  generalize s.membersAt destination = other, t.membersAt destination = other' at hdestination ⊢
  cases hsource with
  | error e => exact .error e
  | ok hset =>
    cases hset with
    | none => exact .ok rfl
    | some hmembers =>
      cases hdestination with
      | error e => exact .error e
      | ok _ => exact .ok (hmembers.has_eq hx)

/-- Sets of one size, and the same choices: the members at the same position are equal. -/
theorem randomMember (hchoices : t.choices = s.choices) (key : String) :
    Option.Rel (· ≈ ·) (s.randomMember key).1 (t.randomMember key).1 := by
  have hmembers := h.setMembers key
  rw [fst_randomMember_eq_getElem?, fst_randomMember_eq_getElem?, hchoices, hmembers.length_eq]
  exact hmembers.getElem? _

theorem popMember (hchoices : t.choices = s.choices) (key : String) :
    Option.Rel (· ≈ ·) (s.popMember key).1 (t.popMember key).1 := by
  rw [fst_popMember, fst_popMember]
  exact h.randomMember hchoices key

/-! ## All operations -/

open Outcome in
theorem outcome_of_plain (hchoices : t.choices = s.choices) {c : Command}
    (hplain : c.takesValue = false) : Outcome.Similar (s.perform c).1 (t.perform c).1 := by
  cases c with
  | store | replace | push | setItem | removeItems | addMember | removeMember | isMember
  | moveMember => cases hplain
  | get key => exact similar_orRefused (h.get key) fun _ _ hvalue => .value (.some hvalue)
  | remove key => exact similar_orRefused (h.remove key) fun _ _ _ => .done
  | pop side key => exact .value (h.pop side key)
  | itemAt key index => exact .value (h.itemAt key index)
  | listLength key => exact similar_orRefused (h.listLength key) fun _ _ => similar_count
  | listRange key start stop =>
    exact similar_orRefused (h.listRange key start stop) fun _ _ => .values
  | trimList key start stop => exact similar_flag (h.trimList key start stop)
  | cardinality key => exact similar_orRefused (h.cardinality key) fun _ _ => similar_count
  | members key => exact similar_orRefused (h.members key) fun _ _ => .values
  | combine algebra keys => exact similar_orRefused (h.combine algebra keys) fun _ _ => .values
  | combineInto algebra keys =>
    exact similar_orRefused (h.combineInto algebra keys) fun _ _ => similar_count
  | popMember key => exact .value (h.popMember hchoices key)
  | randomMember key => exact .value (h.randomMember hchoices key)

open Outcome in
/-- Similar operations on similar stores have similar outcomes. -/
theorem outcome (hchoices : t.choices = s.choices) {op op' : Operation} (hop : op.Similar op') :
    Outcome.Similar (op.perform s).1 (op'.perform t).1 := by
  cases hop with
  | contains key => exact similar_flag (h.contains_eq key).symm
  | size => exact h.size
  | statistics => exact .statistics h.length_eq.symm
  | command hcommand =>
    cases hcommand with
    | same hplain => exact h.outcome_of_plain hchoices hplain
    | store key => exact similar_orRefused (h.create key _ _) fun _ _ _ => .done
    | replace key => exact similar_flag (h.replace key _ _)
    | push side key => exact similar_flag (h.push side key _ _)
    | setItem key index => exact similar_flag (h.setItem key index _ _)
    | removeItems key count hx => exact similar_count (h.removeItems key count hx)
    | addMember key hx => exact similar_orRefused (h.addMember key hx) fun _ _ => similar_flag
    | removeMember key hx =>
      exact similar_orRefused (h.removeMember key hx) fun _ _ => similar_flag
    | isMember key hx => exact similar_orRefused (h.isMember key hx) fun _ _ => similar_flag
    | moveMember source destination hx =>
      exact similar_orRefused (h.moveMember source destination hx) fun _ _ => similar_flag

end Outcomes

/-! ## Runs -/

/-- Runs of similar operations have similar outcomes, one by one, and end in similar stores. -/
theorem run {s t : Store} {ops ops' : List Operation}
    (hops : List.Forall₂ Operation.Similar ops ops') (h : s.Similar t)
    (hchoices : t.choices = s.choices) :
    List.Forall₂ Outcome.Similar (Operation.run s ops).1 (Operation.run t ops').1 ∧
      (Operation.run s ops).2.Similar (Operation.run t ops').2 ∧
      (Operation.run t ops').2.choices = (Operation.run s ops).2.choices := by
  induction hops generalizing s t with
  | nil => exact ⟨.nil, h, hchoices⟩
  | cons hop hrest ih =>
    obtain ⟨houtcomes, hlast⟩ := ih (h.perform hchoices hop) (h.choices_perform hchoices hop)
    exact ⟨.cons (h.outcome hchoices hop) houtcomes, hlast⟩

end Similar

/-- Reachable stores are similar if they have the same capacity, the same keys in the same order of
use, and aligned values. -/
theorem Reachable.similar {s t : Store} (hs : s.Reachable) (ht : t.Reachable)
    (hcapacity : t.capacity = s.capacity) (hkeys : t.map.recency.keys = s.map.recency.keys)
    (hvalues : ∀ key, Option.Rel Aligned (s.find? key) (t.find? key)) : s.Similar t :=
  ⟨hs.valid, ht.valid, hvalues, hkeys, hcapacity⟩

/-- Operations respect the equality of values. Two similar stores with the same choices ahead, and
two operations that differ in equal values only, have similar outcomes and leave similar stores,
with the same choices ahead. Stores that have counted the same lookups and evictions so far go on
to count the same, and answer with the same counts. -/
theorem operations_respect_equality {s t : Store} (h : s.Similar t)
    (hchoices : t.choices = s.choices) {op op' : Operation} (hop : op.Similar op') :
    Outcome.Similar (op.perform s).1 (op'.perform t).1 ∧
      (op.perform s).2.Similar (op'.perform t).2 ∧
      (op'.perform t).2.choices = (op.perform s).2.choices ∧
      (t.statistics = s.statistics →
        (op'.perform t).2.statistics = (op.perform s).2.statistics ∧
        (op = .statistics → (op'.perform t).1 = (op.perform s).1)) := by
  refine ⟨h.outcome hchoices hop, h.perform hchoices hop, h.choices_perform hchoices hop,
    fun hequal => ⟨h.statistics_perform hchoices hop hequal, fun hasked => ?_⟩⟩
  subst hasked
  cases hop
  exact congrArg Outcome.statistics hequal

/-- Two stores with a set of two members, of which the first is a set that is written in two ways.
In each of them it is found in the spelling of the other one, and the last member takes its
place. -/
theorem operations_respect_equality_nested :
    ∃ s t : Store, s.Similar t ∧ t.choices = s.choices ∧ t.statistics = s.statistics ∧
      s.setMembers "k" = [.set [.integer 1, .integer 2], .text "x"] ∧
      t.setMembers "k" = [.set [.integer 2, .integer 1], .text "x"] ∧
      ∃ op op', op = Operation.command (.removeMember "k" (.set [.integer 2, .integer 1])) ∧
        op' = Operation.command (.removeMember "k" (.set [.integer 1, .integer 2])) ∧
        op.Similar op' ∧ (op.perform s).1 = .flag true ∧ (op'.perform t).1 = .flag true ∧
        (op.perform s).2.setMembers "k" = [.text "x"] ∧
        (op.perform s).2.Similar (op'.perform t).2 ∧
        (op'.perform t).2.statistics = (op.perform s).2.statistics := by
  have hspelled : Value.set [.integer 1, .integer 2] ≈ .set [.integer 2, .integer 1] :=
    (Value.equiv_iff_same (Members.WellFormed.ofList (by simp [Value.WellFormed] :
      ∀ x ∈ [Value.integer 1, .integer 2], x.WellFormed)).set _).mpr (by decide)
  have hstart : Reachable ⟨⟨[], .empty, 1, 0⟩, ⟨fun _ => 0, 0⟩, 0, 0⟩ :=
    reachable_run (by decide) _ []
  have hbefore := (Similar.run (.cons (.command (.addMember "k" hspelled))
    (.cons (.command (.addMember "k" (Setoid.refl (Value.text "x")))) .nil))
    (hstart.similar hstart rfl rfl fun _ => .none) rfl).2.1
  have hop : (Operation.command (.removeMember "k" (.set [.integer 2, .integer 1]))).Similar
      (.command (.removeMember "k" (.set [.integer 1, .integer 2]))) :=
    .command (.removeMember "k" (Setoid.symm hspelled))
  obtain ⟨-, hafter, -, hcounted⟩ := operations_respect_equality hbefore rfl hop
  exact ⟨_, _, hbefore, rfl, rfl, by decide, by decide, _, _, rfl, rfl, hop, by decide, by decide,
    by decide, hafter, (hcounted rfl).1⟩

end Store

end BoundedStore
