import BoundedStore.Proofs.Bounded.Alike
import BoundedStore.Proofs.Store.Counters
import BoundedStore.Proofs.Value.Aligned

/-!
# Similar stores

Two stores are similar when nothing tells them apart but how the values inside their lists and sets
are written: they have the same capacity, the same keys in the same order of use, and at each key
aligned values. Two operations are similar when they are given equal values in the same places, and
all else is the same.

No operation looks at more than whether values are equal, so similar operations look up, rewrite and
remove the same keys of similar stores, and write aligned values (`Similar.changes`). Similar maps
then stay similar, since which keys come and go does not depend on the values.
-/

namespace BoundedStore

open Bounded Bounded.Change
open Value (Aligned Paired PairedSets)

/-! ## Similar operations -/

namespace Command

/-- Whether a command is given a value. -/
def takesValue : Command → Bool
  | store .. | replace .. | push .. | setItem .. | removeItems .. | addMember .. | removeMember ..
  | isMember .. | moveMember .. => true
  | get _ | remove _ | pop .. | itemAt .. | listLength _ | listRange .. | trimList ..
  | cardinality _ | members _ | combine .. | combineInto .. | popMember _ | randomMember _ => false

/-- The same command, but for the value that it is given. An item or a member may be any equal one;
a value that is to be stored as a whole has to list what is in it in the same order. -/
inductive Similar : Command → Command → Prop
  | store (key : String) {v w : Value} (h : Aligned v w) : Similar (store key v) (store key w)
  | replace (key : String) {v w : Value} (h : Aligned v w) : Similar (replace key v) (replace key w)
  | push (side : Side) (key : String) {x y : Value} (h : x ≈ y) :
    Similar (push side key x) (push side key y)
  | setItem (key : String) (index : Int64) {x y : Value} (h : x ≈ y) :
    Similar (setItem key index x) (setItem key index y)
  | removeItems (key : String) (count : Int64) {x y : Value} (h : x ≈ y) :
    Similar (removeItems key count x) (removeItems key count y)
  | addMember (key : String) {x y : Value} (h : x ≈ y) : Similar (addMember key x) (addMember key y)
  | removeMember (key : String) {x y : Value} (h : x ≈ y) :
    Similar (removeMember key x) (removeMember key y)
  | isMember (key : String) {x y : Value} (h : x ≈ y) : Similar (isMember key x) (isMember key y)
  | moveMember (source destination : String) {x y : Value} (h : x ≈ y) :
    Similar (moveMember source destination x) (moveMember source destination y)
  | same {c : Command} (h : c.takesValue = false) : Similar c c

end Command

/-- Two operations that differ in equal values only. -/
inductive Operation.Similar : Operation → Operation → Prop
  | command {c c' : Command} (h : c.Similar c') : Similar (.command c) (.command c')
  | contains (key : String) : Similar (.contains key) (.contains key)
  | size : Similar .size .size
  | statistics : Similar .statistics .statistics

/-! ## Similar results -/

/-- Two results that are the same refusal, or related. -/
inductive SettleAlike {α β : Type} (R : α → β → Prop) :
    Except StoreError α → Except StoreError β → Prop
  | ok {a : α} {b : β} (h : R a b) : SettleAlike R (.ok a) (.ok b)
  | error (e : StoreError) : SettleAlike R (.error e) (.error e)

theorem SettleAlike.map {α β γ δ : Type} {R : α → β → Prop} {S : γ → δ → Prop}
    {result : Except StoreError α} {result' : Except StoreError β}
    (h : SettleAlike R result result') {f : α → γ} {g : β → δ}
    (hfg : ∀ a b, R a b → S (f a) (g b)) : SettleAlike S (result.map f) (result'.map g) := by
  cases h with
  | ok hab => exact .ok (hfg _ _ hab)
  | error e => exact .error e

namespace Store

/-- The same capacity, the same keys in the same order of use, and aligned values. Both stores are
valid, as every reachable one is. -/
def Similar (s t : Store) : Prop :=
  Alike (fun _ => Aligned) s.map t.map

namespace Similar

/-! ## What is looked up -/

section Views

variable {s t : Store} (h : s.Similar t) (key : String)
include h

theorem find?_rel : Option.Rel Aligned (s.find? key) (t.find? key) :=
  h.peek_rel key

theorem contains_eq : t.contains key = s.contains key :=
  Alike.contains_eq h key

theorem length_eq : t.length = s.length :=
  Alike.length_eq h

theorem list?_rel : Option.Rel Paired (s.list? key) (t.list? key) := by
  have hfind := h.find?_rel key
  unfold list?
  generalize s.find? key = found, t.find? key = found' at hfind ⊢
  cases hfind with
  | none => exact .none
  | some hvalue =>
    cases hvalue with
    | list hitems => exact .some hitems
    | integer | text | set => exact .none

theorem set?_rel : Option.Rel Paired (s.set? key) (t.set? key) := by
  have hfind := h.find?_rel key
  unfold set?
  generalize s.find? key = found, t.find? key = found' at hfind ⊢
  cases hfind with
  | none => exact .none
  | some hvalue =>
    cases hvalue with
    | set hmembers => exact .some hmembers
    | integer | text | list => exact .none

theorem listItems : Paired (s.listItems key) (t.listItems key) :=
  PairedSets.getD (h.list?_rel key)

theorem setMembers : Paired (s.setMembers key) (t.setMembers key) :=
  PairedSets.getD (h.set?_rel key)

theorem holds_eq (kind : Kind) : s.holds kind key = t.holds kind key := by
  have hfind := h.find?_rel key
  unfold holds
  generalize s.find? key = found, t.find? key = found' at hfind ⊢
  cases hfind with
  | none => rfl
  | some hvalue => simp [hvalue.kind_eq]

theorem holdsOther_eq (kind : Kind) : s.holdsOther kind key = t.holdsOther kind key := by
  have hfind := h.find?_rel key
  unfold holdsOther
  generalize s.find? key = found, t.find? key = found' at hfind ⊢
  cases hfind with
  | none => rfl
  | some hvalue => simp [hvalue.kind_eq]

/-- A list is found in both stores, or none, or the same refusal of the same kind. -/
theorem itemsAt : SettleAlike (Option.Rel Paired) (s.itemsAt key) (t.itemsAt key) := by
  have hfind := h.find?_rel key
  unfold Store.itemsAt
  generalize s.find? key = found, t.find? key = found' at hfind ⊢
  cases hfind with
  | none => exact .ok .none
  | some hvalue =>
    cases hvalue with
    | list hitems => exact .ok (.some hitems)
    | integer | text | set => exact .error _

theorem membersAt : SettleAlike (Option.Rel Paired) (s.membersAt key) (t.membersAt key) := by
  have hfind := h.find?_rel key
  unfold Store.membersAt
  generalize s.find? key = found, t.find? key = found' at hfind ⊢
  cases hfind with
  | none => exact .ok .none
  | some hvalue =>
    cases hvalue with
    | set hmembers => exact .ok (.some hmembers)
    | integer | text | list => exact .error _

theorem setsAt (keys : List String) : SettleAlike PairedSets (s.setsAt keys) (t.setsAt keys) := by
  unfold Store.setsAt
  induction keys with
  | nil => exact .ok .nil
  | cons key rest ih =>
    rw [List.mapM_cons, List.mapM_cons]
    -- the first key that holds no set is the same one, and both refuse it
    have hfirst := h.membersAt key
    generalize s.membersAt key = found, t.membersAt key = found' at hfirst ⊢
    cases hfirst with
    | error e => exact .error e
    | ok hmembers =>
      generalize rest.mapM s.membersAt = others, rest.mapM t.membersAt = others' at ih ⊢
      cases ih with
      | error e => exact .error e
      | ok hothers => exact .ok (.cons hmembers hothers)

end Views

/-! ## Similar changes -/

/-- The same uses and removals, and writes of aligned values, one after the other. -/
abbrev ChangesAlike : List (Change Value) → List (Change Value) → Prop :=
  List.Forall₂ (Change.Alike fun _ => Aligned)

theorem changesAlike_uses (keys : List String) :
    ChangesAlike (keys.map Change.use) (keys.map Change.use) := by
  refine List.forall₂_same.mpr fun change hchange => ?_
  obtain ⟨key, -, rfl⟩ := List.mem_map.mp hchange
  exact .use key

theorem onList_rel {rewrite rewrite' : List Value → Option (List Value)}
    (hrewrite : ∀ xs ys, Paired xs ys → Option.Rel Paired (rewrite xs) (rewrite' ys)) {v w : Value}
    (hvalue : Aligned v w) : Option.Rel Aligned (onList rewrite v) (onList rewrite' w) := by
  cases hvalue with
  | @list xs ys hitems =>
    have hkept := hrewrite xs ys hitems
    show Option.Rel Aligned ((rewrite xs).map .list) ((rewrite' ys).map .list)
    generalize rewrite xs = kept, rewrite' ys = kept' at hkept ⊢
    cases hkept with
    | none => exact .none
    | some hpaired => exact .some (.list hpaired)
  | integer | text | set => exact .none

theorem onSet_rel {rewrite rewrite' : Members → Option Members}
    (hrewrite : ∀ xs ys, Paired xs ys → Option.Rel Paired (rewrite xs) (rewrite' ys)) {v w : Value}
    (hvalue : Aligned v w) : Option.Rel Aligned (onSet rewrite v) (onSet rewrite' w) := by
  cases hvalue with
  | @set xs ys hmembers =>
    have hkept := hrewrite xs ys hmembers
    show Option.Rel Aligned ((rewrite xs).map .set) ((rewrite' ys).map .set)
    generalize rewrite xs = kept, rewrite' ys = kept' at hkept ⊢
    cases hkept with
    | none => exact .none
    | some hpaired => exact .some (.set hpaired)
  | integer | text | list => exact .none

section Changes

variable {s t : Store} (h : s.Similar t)
include h

theorem rewriting (key : String) {rewrite rewrite' : Value → Option Value}
    (hrewrite : ∀ v w, Aligned v w → Option.Rel Aligned (rewrite v) (rewrite' w)) :
    ChangesAlike (s.rewriting key rewrite) (t.rewriting key rewrite') := by
  have hfind := h.find?_rel key
  unfold Store.rewriting
  generalize s.find? key = found, t.find? key = found' at hfind ⊢
  cases hfind with
  | none => exact .cons (.use key) .nil
  | @some v w hvalue =>
    have hnew := hrewrite v w hvalue
    rw [Option.bind_some, Option.bind_some]
    generalize rewrite v = new, rewrite' w = new' at hnew ⊢
    cases hnew with
    | none => exact .cons (.use key) .nil
    | some hwritten => exact .cons (.write hwritten) .nil

theorem rewriting_onList (key : String) {rewrite rewrite' : List Value → Option (List Value)}
    (hrewrite : ∀ xs ys, Paired xs ys → Option.Rel Paired (rewrite xs) (rewrite' ys)) :
    ChangesAlike (s.rewriting key (onList rewrite)) (t.rewriting key (onList rewrite')) :=
  h.rewriting key fun _ _ => onList_rel hrewrite

theorem rewriting_onSet (key : String) {rewrite rewrite' : Members → Option Members}
    (hrewrite : ∀ xs ys, Paired xs ys → Option.Rel Paired (rewrite xs) (rewrite' ys)) :
    ChangesAlike (s.rewriting key (onSet rewrite)) (t.rewriting key (onSet rewrite')) :=
  h.rewriting key fun _ _ => onSet_rel hrewrite

/-- What a move leaves at its destination. -/
theorem moved (source destination : String) {members members' : Members}
    (hmembers : Paired members members') {x y : Value} (hx : x ≈ y) :
    Aligned (s.moved source destination members x) (t.moved source destination members' y) := by
  refine .set (Paired.add ?_ hx)
  split
  -- a set that the member is moved into from itself has lost it before
  · exact hmembers.remove hx
  · have hfind := h.find?_rel destination
    generalize s.find? destination = found, t.find? destination = found' at hfind ⊢
    cases hfind with
    | none => exact .nil
    | some hvalue =>
      cases hvalue with
      | set hothers => exact hothers
      | integer | text | list => exact .nil

theorem admitsSet_eq (key : String) : s.admitsSet key = t.admitsSet key := by
  rw [Store.admitsSet_eq, Store.admitsSet_eq, h.holdsOther_eq]

theorem moving (source destination : String) {x y : Value} (hx : x ≈ y) :
    ChangesAlike (s.moving source destination x) (t.moving source destination y) := by
  have hfind := h.find?_rel source
  unfold Store.moving
  generalize s.find? source = found, t.find? source = found' at hfind ⊢
  cases hfind with
  | none => exact .nil
  | some hvalue =>
    cases hvalue with
    | integer | text | list => exact .nil
    | set hmembers =>
      -- the two go the same way: the destination takes a set or not, the member is there or not
      simp only [← h.admitsSet_eq, ← hmembers.has_eq hx]
      split
      · split
        · exact .cons (.write (.set (hmembers.remove hx)))
            (.cons (.write (h.moved source destination hmembers hx)) .nil)
        · exact .cons (.use source) .nil
      · exact .nil

theorem changes_pop (side : Side) (key : String) :
    ChangesAlike (Operation.changes s (.command (.pop side key)))
      (Operation.changes t (.command (.pop side key))) := by
  refine h.rewriting_onList key fun xs ys hitems => ?_
  have hpop := hitems.pop? side
  generalize Items.pop? side xs = taken, Items.pop? side ys = taken' at hpop ⊢
  cases hpop with
  | none => exact .none
  | some hrest => exact .some hrest.2

theorem changes_combineInto (algebra : Algebra) (keys : List String) :
    ChangesAlike (Operation.changes s (.command (.combineInto algebra keys)))
      (Operation.changes t (.command (.combineInto algebra keys))) := by
  cases keys with
  | nil => exact .nil
  | cons destination sources =>
    refine List.rel_append (changesAlike_uses sources) ?_
    have hsets := h.setsAt sources
    generalize s.setsAt sources = sets, t.setsAt sources = sets' at hsets ⊢
    cases hsets with
    | ok hpaired => exact .cons (.write (.set (hpaired.combine algebra))) .nil
    | error e => exact .nil

/-- Sets of one size, and the same choices: the member at the same position is taken. -/
theorem changes_popMember (hchoices : t.choices = s.choices) (key : String) :
    ChangesAlike (Operation.changes s (.command (.popMember key)))
      (Operation.changes t (.command (.popMember key))) := by
  refine h.rewriting_onSet key fun xs ys hmembers => ?_
  cases hmembers with
  | nil => exact .none
  | cons hfirst hrest =>
    rw [if_neg (List.cons_ne_nil _ _), if_neg (List.cons_ne_nil _ _), hchoices, List.length_cons,
      List.length_cons, hrest.length_eq]
    exact .some (Paired.removeAt (.cons hfirst hrest) _)

theorem changes_of_plain (hchoices : t.choices = s.choices) {c : Command}
    (hplain : c.takesValue = false) :
    ChangesAlike (Operation.changes s (.command c)) (Operation.changes t (.command c)) := by
  cases c with
  | store | replace | push | setItem | removeItems | addMember | removeMember | isMember
  | moveMember => cases hplain
  | get key | itemAt key | listLength key | listRange key | cardinality key | members key
  | randomMember key => exact .cons (.use key) .nil
  | remove key => exact .cons (.remove key) .nil
  | pop side key => exact h.changes_pop side key
  | trimList key start stop =>
    exact h.rewriting_onList key fun _ _ hitems => .some (hitems.trim start stop)
  | combine algebra keys => exact changesAlike_uses keys
  | combineInto algebra keys => exact h.changes_combineInto algebra keys
  | popMember key => exact h.changes_popMember hchoices key

/-- Similar operations make alike changes, if the same choices are ahead. -/
theorem changes (hchoices : t.choices = s.choices) {op op' : Operation} (hop : op.Similar op') :
    ChangesAlike (op.changes s) (op'.changes t) := by
  cases hop with
  | contains | size | statistics => exact .nil
  | command hcommand =>
    cases hcommand with
    | same hplain => exact h.changes_of_plain hchoices hplain
    | store key hvalue =>
      simp only [Operation.changes, h.contains_eq]
      split
      · exact .nil
      · exact .cons (.write hvalue.coerce) .nil
    | replace key hvalue => exact h.rewriting key fun _ _ _ => .some hvalue.coerce
    | push side key hx =>
      simp only [Operation.changes, h.contains_eq]
      split
      · exact h.rewriting_onList key fun _ _ hitems => .some (hitems.push side hx)
      · exact .cons (.write (.list (.cons hx .nil))) .nil
    | setItem key index hx =>
      refine h.rewriting_onList key fun xs ys hitems => ?_
      rw [hitems.length_eq]
      cases Items.position? ys.length index with
      | none => exact .none
      | some i => exact .some (hitems.set i hx)
    | removeItems key count hx =>
      exact h.rewriting_onList key fun _ _ hitems => .some (hitems.removeItems count hx)
    | addMember key hx =>
      simp only [Operation.changes, h.contains_eq]
      split
      · exact h.rewriting_onSet key fun _ _ hmembers => .some (hmembers.add hx)
      · exact .cons (.write (.set (.cons hx .nil))) .nil
    | removeMember key hx =>
      exact h.rewriting_onSet key fun _ _ hmembers => .some (hmembers.remove hx)
    | isMember key hx => exact .cons (.use key) .nil
    | moveMember source destination hx => exact h.moving source destination hx

end Changes

/-! ## One step -/

section Step

variable {s t : Store} (h : s.Similar t)
include h

theorem drawn_eq {op op' : Operation} (hop : op.Similar op') : op'.drawn t = op.drawn s := by
  -- a choice is drawn unless there is nothing to choose from
  have hempty : ∀ key, t.setMembers key = [] ↔ s.setMembers key = [] := fun key => by
    rw [← List.length_eq_zero_iff, ← List.length_eq_zero_iff, (h.setMembers key).length_eq]
  cases hop with
  | contains | size | statistics => rfl
  | @command c c' hcommand =>
    cases hcommand with
    | same hplain =>
      cases c with
      | popMember key | randomMember key => simp only [Operation.drawn, hempty]
      | _ => rfl
    | _ => rfl

theorem counts_eq {op op' : Operation} (hop : op.Similar op') :
    op'.newHits t = op.newHits s ∧ op'.newMisses t = op.newMisses s := by
  cases hop with
  | contains | size | statistics => exact ⟨rfl, rfl⟩
  | @command c c' hcommand =>
    cases hcommand with
    | same hplain =>
      cases c with
      | get key => simp only [Operation.newHits, Operation.newMisses, h.contains_eq, and_self]
      | _ => exact ⟨rfl, rfl⟩
    | _ => exact ⟨rfl, rfl⟩

variable (hchoices : t.choices = s.choices) {op op' : Operation} (hop : op.Similar op')
include hchoices hop

/-- Similar operations leave similar stores. -/
theorem perform : (op.perform s).2.Similar (op'.perform t).2 := by
  unfold Similar
  rw [Operation.perform_map, Operation.perform_map]
  exact Alike.applyAll h (h.changes hchoices hop)

/-- They draw the same choices. -/
theorem choices_perform : (op'.perform t).2.choices = (op.perform s).2.choices := by
  rw [(Operation.tallies t op').choices_eq, (Operation.tallies s op).choices_eq, h.drawn_eq hop,
    hchoices]

/-- And they count the same. -/
theorem statistics_perform (hequal : t.statistics = s.statistics) :
    (op'.perform t).2.statistics = (op.perform s).2.statistics := by
  obtain ⟨hhits, hmisses, hevictions, -⟩ := Statistics.mk.inj hequal
  obtain ⟨hnewHits, hnewMisses⟩ := h.counts_eq hop
  have hevicted : (op'.perform t).2.map.evictions = (op.perform s).2.map.evictions := by
    rw [Operation.perform_map, Operation.perform_map]
    exact Alike.evictions_applyAll h (h.changes hchoices hop) hevictions
  unfold Store.statistics
  rw [(Operation.tallies t op').hits_eq, (Operation.tallies s op).hits_eq,
    (Operation.tallies t op').misses_eq, (Operation.tallies s op).misses_eq, hnewHits, hnewMisses,
    hhits, hmisses, hevicted, (h.perform hchoices hop).length_eq]

end Step

end Similar

end Store

end BoundedStore
