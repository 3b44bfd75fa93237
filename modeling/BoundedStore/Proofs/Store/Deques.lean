import BoundedStore.Proofs.Store.Mirrors
import BoundedStore.Proofs.Value.Ranges
import Mathlib.Data.List.ReduceOption

/-!
# A stored list is a deque

Items are put at the two ends of a list and taken from them, counted, and looked at. `DequeStep`
says how a double-ended queue answers that: nothing in it mentions a store. A key that is absent
counts as the empty queue, which the first item makes live. From then on there is a queue, possibly
an empty one. `DequeRun` chains such steps over the trace of a run.

The list at a key of a store is such a queue for as long as nothing else writes there and the key
does not go (`dequeRun`). What is put in comes out, once, or is left at the end
(`DequeRun.perm`); this follows from the steps alone.
-/

namespace BoundedStore

/-! ## How a deque answers -/

/-- An operation on the deque at `key`, its outcome, and the deque before and afterwards. -/
inductive DequeStep (key : String) :
    Option (List Value) → Option (List Value) → Operation → Outcome → Prop
  | pushHead (q : Option (List Value)) (x : Value) :
      DequeStep key q (some (x :: q.getD [])) (.command (.push .head key x)) (.flag true)
  | pushTail (q : Option (List Value)) (x : Value) :
      DequeStep key q (some (q.getD [] ++ [x])) (.command (.push .tail key x)) (.flag true)
  | popHead (x : Value) (rest : List Value) :
      DequeStep key (some (x :: rest)) (some rest) (.command (.pop .head key)) (.value (some x))
  | popTail (x : Value) (rest : List Value) :
      DequeStep key (some (rest ++ [x])) (some rest) (.command (.pop .tail key)) (.value (some x))
  /-- From an empty or absent deque nothing is taken. -/
  | popNone (q : Option (List Value)) (side : Side) (hempty : q.getD [] = []) :
      DequeStep key q q (.command (.pop side key)) (.value none)
  | counted (q : Option (List Value)) :
      DequeStep key q q (.command (.listLength key)) (.count (q.getD []).length)
  | listed (q : Option (List Value)) (start stop : Int64) :
      DequeStep key q q (.command (.listRange key start stop))
        (.values (Items.selected (q.getD []) start.toInt stop.toInt))
  /-- Other operations do not change the deque. -/
  | other (q : Option (List Value)) (op : Operation) (outcome : Outcome)
      (hother : op.onDeque key = false) : DequeStep key q q op outcome

/-- The steps of a trace, one after the other. -/
inductive DequeRun (key : String) :
    Option (List Value) → List (Operation × Outcome) → Option (List Value) → Prop
  | nil (q : Option (List Value)) : DequeRun key q [] q
  | cons {a b last : Option (List Value)} {op : Operation} {outcome : Outcome}
      {rest : List (Operation × Outcome)} :
      DequeStep key a b op outcome → DequeRun key b rest last →
      DequeRun key a ((op, outcome) :: rest) last

/-! ## What goes in comes out -/

/-- The item that an operation puts at an end of the list at `key`. -/
def Operation.pushedBy (key : String) : Operation → List Value
  | command (.push _ other x) => if other = key then [x] else []
  | _ => []

/-- The items that are put at the ends of the list at `key` in the course of a run. -/
def Operation.pushedItems (key : String) (trace : List (Operation × Outcome)) : List Value :=
  trace.flatMap fun (op, _) => op.pushedBy key

/-- The items that the pops at `key` take in the course of a run. -/
def Operation.poppedItems (key : String) (trace : List (Operation × Outcome)) : List Value :=
  (popResults key trace).reduceOption

theorem Operation.pushedBy_of_not_onDeque {key : String} {op : Operation}
    (h : op.onDeque key = false) : op.pushedBy key = [] := by
  cases op with
  | contains | size | statistics => rfl
  | command c =>
    cases c with
    | push side other x =>
      have hne : other ≠ key := by simpa [onDeque] using h
      exact if_neg hne
    | _ => rfl

theorem Operation.popResult_of_not_onDeque {key : String} {op : Operation}
    (h : op.onDeque key = false) (outcome : Outcome) : popResult key (op, outcome) = [] := by
  cases op with
  | contains | size | statistics => rfl
  | command c =>
    cases c with
    | pop side other =>
      have hne : other ≠ key := by simpa [onDeque] using h
      cases outcome with
      | value v => exact if_neg hne
      | _ => rfl
    | _ => rfl

theorem DequeStep.perm {key : String} {a b : Option (List Value)} {op : Operation}
    {outcome : Outcome} (h : DequeStep key a b op outcome) :
    (a.getD [] ++ op.pushedBy key).Perm
      ((Operation.popResult key (op, outcome)).reduceOption ++ b.getD []) := by
  cases h with
  | other q op outcome hother =>
    rw [Operation.pushedBy_of_not_onDeque hother, Operation.popResult_of_not_onDeque hother]
    simp
  | pushHead | pushTail | popHead | popTail | popNone | counted | listed =>
    simp [Operation.pushedBy, Operation.popResult]

/-- The items of a deque and those that are put in are the ones that are taken and those that
remain, each as often. -/
theorem DequeRun.perm {key : String} {first last : Option (List Value)}
    {trace : List (Operation × Outcome)} (h : DequeRun key first trace last) :
    (first.getD [] ++ Operation.pushedItems key trace).Perm
      (Operation.poppedItems key trace ++ last.getD []) := by
  induction h with
  | nil q => simp [Operation.pushedItems, Operation.poppedItems, Operation.popResults]
  | @cons a b last op outcome rest hstep _ ih =>
    unfold Operation.pushedItems Operation.poppedItems Operation.popResults at ih ⊢
    rw [List.flatMap_cons, List.flatMap_cons, List.reduceOption_append, ← List.append_assoc]
    -- what the first step puts in and takes is counted before the rest
    refine (hstep.perm.append_right _).trans ?_
    rw [List.append_assoc, List.append_assoc]
    exact ih.append_left _

namespace Store

/-! ## The list at a key -/

section OneKey

variable {s : Store} {key : String} {q : Option (List Value)} (h : s.find? key = q.map .list)
include h

theorem itemsAt_of_deque : s.itemsAt key = .ok q := by
  unfold itemsAt
  rw [h]
  cases q <;> rfl

/-- A push makes the deque live when it is absent. -/
theorem push_of_deque (side : Side) (x : Value) :
    s.push side key x = (true, s.write key (.list (Items.push side (q.getD []) x))) := by
  unfold push
  rw [h]
  cases q with
  | none => cases side <;> rfl
  | some items => rfl

theorem pop_of_deque {side : Side} {x : Value} {rest : List Value}
    (hpop : Items.pop? side (q.getD []) = some (x, rest)) :
    s.pop side key = (some x, s.write key (.list rest)) := by
  unfold pop
  rw [h]
  cases q with
  | none => cases side <;> cases hpop
  | some items =>
    have hitems : Items.pop? side items = some (x, rest) := hpop
    simp only [Option.map_some, hitems]

theorem pop_of_empty (side : Side) (hempty : q.getD [] = []) :
    s.pop side key = (none, s.use key) := by
  unfold pop
  rw [h]
  cases q with
  | none => rfl
  | some items =>
    obtain rfl : items = [] := hempty
    simp only [Option.map_some, Items.pop?_eq_none_iff.mpr rfl]

/-! ## Steps and runs -/

theorem dequeStep_push (side : Side) (x : Value) :
    ∃ next, (s.push side key x).2.find? key = Option.map .list next ∧
      DequeStep key q next (.command (.push side key x)) (.flag (s.push side key x).1) := by
  rw [push_of_deque h]
  refine ⟨some (Items.push side (q.getD []) x), s.find?_write_self key _, ?_⟩
  cases side with
  | head => exact .pushHead q x
  | tail => exact .pushTail q x

theorem dequeStep_pop (side : Side) :
    ∃ next, (s.pop side key).2.find? key = Option.map .list next ∧
      DequeStep key q next (.command (.pop side key)) (.value (s.pop side key).1) := by
  by_cases hempty : q.getD [] = []
  · rw [pop_of_empty h side hempty]
    exact ⟨q, (s.find?_use key key).trans h, .popNone q side hempty⟩
  · obtain ⟨items, rfl⟩ : ∃ items, q = some items := by
      cases q with
      | none => exact absurd rfl hempty
      | some items => exact ⟨items, rfl⟩
    cases side with
    | head =>
      obtain ⟨x, rest, rfl⟩ := List.exists_cons_of_ne_nil hempty
      have hpop : Items.pop? .head (x :: rest) = some (x, rest) := rfl
      rw [pop_of_deque h hpop]
      exact ⟨some rest, s.find?_write_self key _, .popHead x rest⟩
    | tail =>
      obtain ⟨rest, x, rfl⟩ := (List.eq_nil_or_concat' items).resolve_left hempty
      have hpop : Items.pop? .tail (rest ++ [x]) = some (x, rest) := by simp [Items.pop?]
      rw [pop_of_deque h hpop]
      exact ⟨some rest, s.find?_write_self key _, .popTail x rest⟩

/-- An operation is answered as a deque answers it, and leaves one. -/
theorem dequeStep {op : Operation}
    (hother : op.onDeque key = false → (op.perform s).2.find? key = s.find? key) :
    ∃ next, (op.perform s).2.find? key = Option.map .list next ∧
      DequeStep key q next op (op.perform s).1 := by
  cases hop : op.onDeque key with
  | false => exact ⟨q, (hother hop).trans h, .other q op _ hop⟩
  | true =>
    -- the operation is one of the six, and on this key
    cases op with
    | contains | size | statistics => cases hop
    | command c =>
      cases c with
      | push side other x =>
        obtain rfl : other = key := by simpa [Operation.onDeque] using hop
        exact dequeStep_push h side x
      | pop side other =>
        obtain rfl : other = key := by simpa [Operation.onDeque] using hop
        exact dequeStep_pop h side
      | listLength other =>
        obtain rfl : other = key := by simpa [Operation.onDeque] using hop
        refine ⟨q, (s.find?_use other other).trans h, ?_⟩
        show DequeStep other q q _ (.orRefused .count ((s.itemsAt other).map _))
        rw [itemsAt_of_deque h]
        exact .counted q
      | listRange other start stop =>
        obtain rfl : other = key := by simpa [Operation.onDeque] using hop
        refine ⟨q, (s.find?_use other other).trans h, ?_⟩
        show DequeStep other q q _ (.orRefused .values ((s.itemsAt other).map _))
        rw [itemsAt_of_deque h]
        show DequeStep other q q _ (.values (Items.slice (q.getD []) start stop))
        rw [Items.slice_eq_selected]
        exact .listed q start stop
      | _ => cases hop

end OneKey

/-- Where nothing is written at a key and the key does not go, its value stays. -/
theorem find?_perform_of_spared {s : Store} (hvalid : s.map.Valid) {key : String} {op : Operation}
    (hnone : Bounded.Change.lastWritten key (op.changes s) = none)
    (hstays : s.contains key = true → (op.perform s).2.contains key = true) :
    (op.perform s).2.find? key = s.find? key := by
  have hfind := Operation.find?_perform hvalid op key
  rw [hnone] at hfind
  split at hfind
  next =>
    -- only a live key can go, and this one would have stayed
    have habsent : ¬ s.contains key = true := fun hlive => by
      rw [(find?_eq_none_iff _ key).mp hfind] at hstays
      exact Bool.false_ne_true (hstays hlive)
    rw [hfind, (find?_eq_none_iff s key).mpr (Bool.eq_false_iff.mpr habsent)]
  next => exact hfind

theorem SparesList.take {s : Store} {key : String} {ops : List Operation}
    (h : SparesList key s ops) (n : Nat) : SparesList key s (ops.take n) := by
  induction ops generalizing s n with
  | nil => simpa using h
  | cons op rest ih =>
    cases n with
    | zero => trivial
    | succ n => exact ⟨h.1, ih h.2 n⟩

theorem dequeRun {s : Store} (hvalid : s.map.Valid) {key : String} {first : Option (List Value)}
    (h : s.find? key = first.map .list) {ops : List Operation} (hops : SparesList key s ops) :
    ∃ last, (Operation.run s ops).2.find? key = Option.map .list last ∧
      DequeRun key first (Operation.trace s ops) last := by
  induction ops generalizing s first with
  | nil => exact ⟨first, h, .nil first⟩
  | cons op rest ih =>
    obtain ⟨next, hnext, hstep⟩ := dequeStep h fun hother =>
      find?_perform_of_spared hvalid (hops.1 hother).1 (hops.1 hother).2
    obtain ⟨last, hlast, hrun⟩ := ih (Operation.valid_perform hvalid op) hnext hops.2
    exact ⟨last, hlast, .cons hstep hrun⟩

/-- **A stored list is a deque.** Start from any store, at a key that is absent or holds a list, and
take any run that writes there by nothing but the six operations on the ends of the list, its length
and its items, and in which the key does not go. Every one of these is answered as a deque answers
it, and each item that is put in is taken once or remains. In the mirror image of the run, where the
ends are exchanged at the key and possibly at others, every pop takes the same item, and the list is
in reverse at every moment. -/
theorem run_answers_as_deque {s : Store} (h : s.Reachable) {key : String}
    {first : Option (List Value)} (hfirst : s.find? key = first.map .list) {ops : List Operation}
    (hops : SparesList key s ops) :
    (∃ last, (Operation.run s ops).2.find? key = Option.map .list last ∧
      DequeRun key first (Operation.trace s ops) last ∧
      (first.getD [] ++ Operation.pushedItems key (Operation.trace s ops)).Perm
        (Operation.poppedItems key (Operation.trace s ops) ++ last.getD [])) ∧
    s.Mirrors key (s.reversedAt key) ∧
    ∀ t, s.Mirrors key t → ∀ swaps : String → Bool, swaps key = true →
      Operation.popResults key (Operation.trace t (ops.map (Operation.mirror swaps))) =
        Operation.popResults key (Operation.trace s ops) ∧
      ∀ n, ∃ q, (Operation.run s (ops.take n)).2.find? key = Option.map .list q ∧
        (Operation.run t ((ops.take n).map (Operation.mirror swaps))).2.find? key =
          Option.map .list (q.map List.reverse) := by
  have hvalid : s.map.Valid := h.valid
  refine ⟨?_, mirrors_reversedAt hvalid key, fun t hmirrors swaps hswap => ⟨?_, fun n => ?_⟩⟩
  · obtain ⟨last, hlast, hrun⟩ := dequeRun hvalid hfirst hops
    exact ⟨last, hlast, hrun, hrun.perm⟩
  · exact hmirrors.popResults_eq hswap hops
  · obtain ⟨q, hq, -⟩ := dequeRun hvalid hfirst (hops.take n)
    exact ⟨q, hq, (hmirrors.run hswap (hops.take n)).find?_of_deque hq⟩

/-- A list of two in a full store of two. Between the operations on its ends a new key evicts the
other key; the list is emptied, found empty, and used again. -/
theorem run_answers_as_deque_refilled :
    ∃ s : Store, s.Reachable ∧ s.length = s.capacity ∧ s.contains "a" = true ∧
      s.find? "l" = some (.list [.integer 1, .integer 2]) ∧
      ∃ ops, ops = [Operation.command (.pop .tail "l"), .command (.store "b" (.text "y")),
          .command (.push .head "l" (.text "3")), .command (.listRange "l" 0 9),
          .command (.pop .tail "l"), .command (.pop .tail "l"), .command (.pop .head "l"),
          .command (.push .tail "l" (.integer 4)), .command (.listLength "l")] ∧
        SparesList "l" s ops ∧
        (Operation.run s ops).1 = [.value (some (.integer 2)), .done, .flag true,
          .values [.text "3", .integer 1], .value (some (.integer 1)), .value (some (.text "3")),
          .value none, .flag true, .count 1] ∧
        (Operation.run s ops).2.contains "a" = false ∧
        DequeRun "l" (some [.integer 1, .integer 2]) (Operation.trace s ops)
          (some [.integer 4]) ∧
        (s.reversedAt "l").find? "l" = some (.list [.integer 2, .integer 1]) ∧
        Operation.popResults "l" (Operation.trace (s.reversedAt "l")
          (ops.map (Operation.mirror fun _ => true))) =
            [some (.integer 2), some (.integer 1), some (.text "3"), none] ∧
        (Operation.run (s.reversedAt "l")
          ((ops.take 3).map (Operation.mirror fun _ => true))).2.find? "l" =
            some (.list [.integer 1, .text "3"]) := by
  have hreachable := reachable_run (by decide : 1 ≤ 2) ⟨fun _ => 0, 0⟩
    [.command (.push .tail "l" (.integer 1)), .command (.push .tail "l" (.integer 2)),
      .command (.store "a" (.text "x"))]
  have hruns := @run_answers_as_deque _ hreachable "l" (some [.integer 1, .integer 2]) (by decide)
    [.command (.pop .tail "l"), .command (.store "b" (.text "y")),
      .command (.push .head "l" (.text "3")), .command (.listRange "l" 0 9),
      .command (.pop .tail "l"), .command (.pop .tail "l"), .command (.pop .head "l"),
      .command (.push .tail "l" (.integer 4)), .command (.listLength "l")] (by decide)
  obtain ⟨⟨last, hlast, hrun, -⟩, hmirrors, hmirrored⟩ := hruns
  obtain ⟨hpopped, hreverse⟩ := hmirrored _ hmirrors (fun _ => true) rfl
  obtain ⟨q, hq, hmoment⟩ := hreverse 3
  have hlist : Function.Injective (Option.map Value.list) :=
    Option.map_injective fun _ _ => Value.list.inj
  obtain rfl : some [.integer 4] = last := hlist (Eq.trans (by decide) hlast)
  obtain rfl : some [.text "3", .integer 1] = q := hlist (Eq.trans (by decide) hq)
  exact ⟨_, hreachable, by decide, by decide, by decide, _, rfl, by decide, by decide, by decide,
    hrun, by decide, hpopped.trans (by decide), hmoment⟩

end Store

end BoundedStore
