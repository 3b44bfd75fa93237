import BoundedStore.Proofs.Bounded.Alike
import BoundedStore.Proofs.Command.Footprint

/-!
# A list and the same list in reverse

Take a store and another one that differs from it in the items of lists only, where the list at one
key is in reverse. Whatever is done to the first, do it to the second with the ends exchanged at
this key. The list stays in reverse, and every item is taken from it at the same time
(`Mirrors.perform`, `Mirrors.popResults_eq`). At other keys the ends may be exchanged as well or not,
and the lists there need not have anything to do with each other.

The reason is that no operation lets the items of a list decide what becomes of any key, of a set,
or of the order of use (`Mirrors.changes_eq`). So what has to be looked at is what operations on
lists make of the list itself.
-/

namespace BoundedStore

open Bounded Bounded.Change

/-! ## The operations of a deque -/

namespace Operation

/-- Whether an operation is one of the six of a deque, on the list at `key`: it puts an item at one
end or takes one from there, counts the items, or looks at some of them. -/
def onDeque (key : String) : Operation → Bool
  | command (.push _ other _) | command (.pop _ other) | command (.listLength other)
  | command (.listRange other _ _) => other == key
  | _ => false

/-- What a pop at `key` answers. -/
def popResult (key : String) : Operation × Outcome → List (Option Value)
  | (command (.pop _ other), .value v) => if other = key then [v] else []
  | _ => []

/-- What the pops at `key` answer in the course of a run, one after the other. -/
def popResults (key : String) (trace : List (Operation × Outcome)) : List (Option Value) :=
  trace.flatMap (popResult key)

/-- The operation with the ends of the list exchanged, at the keys where they are to be. -/
def mirror (swaps : String → Bool) : Operation → Operation
  | command (.push side key x) =>
    command (.push (if swaps key then side.opposite else side) key x)
  | command (.pop side key) => command (.pop (if swaps key then side.opposite else side) key)
  | op => op

/-- Whether an operation is one of the five that overwrite a list by what they make of it. -/
def rewritesList : Operation → Bool
  | command (.push ..) | command (.pop ..) | command (.setItem ..) | command (.trimList ..)
  | command (.removeItems ..) => true
  | _ => false

theorem mirror_of_not_rewritesList {op : Operation} (h : op.rewritesList = false)
    (swaps : String → Bool) : op.mirror swaps = op := by
  cases op with
  | contains | size | statistics => rfl
  | command c =>
    cases c with
    | push | pop => cases h
    | _ => rfl

/-- To count the items of a list or to look at them does not write it. -/
theorem lastWritten_of_onDeque {s : Store} {key : String} {op : Operation}
    (hdeque : op.onDeque key = true) (hlist : op.rewritesList = false) :
    lastWritten key (op.changes s) = none := by
  cases op with
  | contains | size | statistics => cases hdeque
  | command c =>
    cases c with
    | listLength | listRange => rfl
    | push | pop => cases hlist
    | _ => cases hdeque

end Operation

/-- Apart from the six operations of a deque a run writes nothing at `key`, and once the key is live
it stays so. -/
def Store.SparesList (key : String) (s : Store) : List Operation → Prop
  | [] => True
  | op :: rest =>
    (op.onDeque key = false → lastWritten key (op.changes s) = none ∧
      (s.contains key = true → (op.perform s).2.contains key = true)) ∧
      SparesList key (op.perform s).2 rest

instance Store.decidableSparesList (key : String) :
    (s : Store) → (ops : List Operation) → Decidable (SparesList key s ops)
  | _, [] => isTrue trivial
  | s, op :: rest =>
    have := decidableSparesList key (op.perform s).2 rest
    inferInstanceAs (Decidable (_ ∧ _))

/-! ## Mirror images -/

/-- Values at `other` that differ in the items of a list only. At `key` the items are the same, but
in reverse. -/
inductive Value.Mirrors (key other : String) : Value → Value → Prop
  | list {items items' : List Value} (h : other = key → items' = items.reverse) :
      Mirrors key other (.list items) (.list items')
  | plain {v : Value} (h : v.kind ≠ .list) : Mirrors key other v v

theorem Value.Mirrors.refl {key other : String} (h : other ≠ key) (v : Value) :
    Mirrors key other v v := by
  cases v with
  | list items => exact .list fun e => absurd e h
  | integer | text | set => exact .plain nofun

namespace Store

/-- The store `t` is `s` with the list at `key` in reverse, and with any items in other lists. The
counts of lookups and evictions do not matter. -/
structure Mirrors (key : String) (s t : Store) : Prop where
  alike : s.map.Alike (Value.Mirrors key) t.map
  choices_eq : t.choices = s.choices

/-- The store with the list at `key` in reverse, which is `s` itself if there is no list. -/
def reversedAt (s : Store) (key : String) : Store :=
  match s.find? key with
  | some (.list items) => { s with map := s.map.overwrite key (.list items.reverse) }
  | _ => s

theorem mirrors_self {s : Store} (hvalid : s.map.Valid) {key : String} (h : s.list? key = none) :
    s.Mirrors key s where
  choices_eq := rfl
  alike := {
    valid_left := hvalid
    valid_right := hvalid
    keys_eq := rfl
    capacity_eq := rfl
    peek_rel := fun other => by
      show Option.Rel _ (s.find? other) (s.find? other)
      cases hfind : s.find? other with
      | none => exact .none
      | some v =>
        refine .some ?_
        by_cases hkey : other = key
        · -- there is no list at `key`, so what is there is its own mirror image
          refine .plain fun hkind => ?_
          unfold list? at h
          rw [← hkey, hfind] at h
          cases v with
          | list items => cases h
          | integer | text | set => cases hkind
        · exact .refl hkey v }

theorem mirrors_overwrite {s : Store} (hvalid : s.map.Valid) {key : String} {items : List Value}
    (h : s.find? key = some (.list items)) :
    s.Mirrors key { s with map := s.map.overwrite key (.list items.reverse) } where
  choices_eq := rfl
  alike := {
    valid_left := hvalid
    valid_right := hvalid.overwrite _ (contains_of_peek h)
    keys_eq := rfl
    capacity_eq := rfl
    peek_rel := fun other => by
      rw [peek_overwrite]
      by_cases hkey : key = other
      · subst hkey
        have hpeek : s.map.peek key = some (.list items) := h
        rw [hpeek, if_pos rfl]
        exact .some (.list fun _ => rfl)
      · rw [if_neg hkey]
        cases s.map.peek other with
        | none => exact .none
        | some v => exact .some (.refl (Ne.symm hkey) v) }

/-- Every store has its mirror image. -/
theorem mirrors_reversedAt {s : Store} (hvalid : s.map.Valid) (key : String) :
    s.Mirrors key (s.reversedAt key) := by
  unfold reversedAt
  split
  next items hfind => exact mirrors_overwrite hvalid hfind
  next hother =>
    refine mirrors_self hvalid ?_
    unfold list?
    split
    next items hfind => exact absurd hfind (hother items)
    next => rfl

/-! ## What is rewritten -/

section Rewriting

variable {s : Store} {other : String}

/-- A list that is rewritten is written, or used where it stays as it is, which comes to the same. -/
theorem applyAll_rewriting_of_list {items : List Value} (h : s.find? other = some (.list items))
    (rewrite : List Value → Option (List Value)) :
    applyAll s.map (s.rewriting other (onList rewrite)) =
      s.map.insert other (.list ((rewrite items).getD items)) := by
  have hpeek : s.map.peek other = some (.list items) := h
  unfold rewriting
  rw [h]
  simp only [Option.bind_some, onList]
  cases rewrite items with
  | none => exact (insert_eq_use hpeek).symm
  | some kept => rfl

theorem rewriting_of_no_list (h : s.list? other = none)
    (rewrite : List Value → Option (List Value)) :
    s.rewriting other (onList rewrite) = [.use other] := by
  unfold list? at h
  unfold rewriting
  cases hfind : s.find? other with
  | none => rfl
  | some found =>
    rw [hfind] at h
    cases found with
    | list items => cases h
    | integer | text | set => rfl

end Rewriting

namespace Mirrors

section Views

variable {key : String} {s t : Store} (h : s.Mirrors key t) (other : String)
include h

/-- What both stores have at a key is the same and no list, or it is a list in both. -/
theorem find?_eq_or_lists :
    (s.list? other = none ∧ t.list? other = none ∧ s.find? other = t.find? other) ∨
      ∃ items items', s.find? other = some (.list items) ∧ t.find? other = some (.list items') ∧
        (other = key → items' = items.reverse) := by
  unfold list? find?
  rcases h.alike.absent_or_live other with ⟨hs, ht⟩ | ⟨v, w, hs, ht, hvalue⟩
  · rw [hs, ht]
    exact Or.inl ⟨rfl, rfl, rfl⟩
  · rw [hs, ht]
    cases hvalue with
    | list hitems => exact Or.inr ⟨_, _, rfl, rfl, hitems⟩
    | plain hkind =>
      cases v with
      | list items => exact absurd rfl hkind
      | integer | text | set => exact Or.inl ⟨rfl, rfl, rfl⟩

theorem contains_eq : s.contains other = t.contains other :=
  (h.alike.contains_eq other).symm

theorem membersAt_eq : s.membersAt other = t.membersAt other := by
  rcases h.find?_eq_or_lists other with ⟨-, -, heq⟩ | ⟨items, items', hs, ht, -⟩
  · exact membersAt_congr heq
  · unfold membersAt
    rw [hs, ht]
    rfl

theorem setMembers_eq : s.setMembers other = t.setMembers other := by
  rcases h.find?_eq_or_lists other with ⟨-, -, heq⟩ | ⟨items, items', hs, ht, -⟩
  · exact setMembers_congr heq
  · unfold setMembers set?
    rw [hs, ht]

theorem setsAt_eq (keys : List String) : s.setsAt keys = t.setsAt keys :=
  setsAt_congr_of_membersAt fun other _ => h.membersAt_eq other

/-- A rewriting that makes the same of all lists makes the same of both stores. -/
theorem rewriting_eq {rewrite : Value → Option Value}
    (hblind : ∀ items items', rewrite (.list items) = rewrite (.list items')) :
    s.rewriting other rewrite = t.rewriting other rewrite := by
  rcases h.find?_eq_or_lists other with ⟨-, -, heq⟩ | ⟨items, items', hs, ht, -⟩
  · exact rewriting_congr heq rewrite
  · unfold rewriting
    rw [hs, ht, Option.bind_some, Option.bind_some, hblind items items']

theorem rewriting_onSet_eq (rewrite : Members → Option Members) :
    s.rewriting other (onSet rewrite) = t.rewriting other (onSet rewrite) :=
  h.rewriting_eq other fun _ _ => rfl

theorem moving_eq (destination : String) (member : Value) :
    s.moving other destination member = t.moving other destination member := by
  rcases h.find?_eq_or_lists other with ⟨-, -, hsource⟩ | ⟨items, items', hs, ht, -⟩
  · rcases h.find?_eq_or_lists destination with ⟨-, -, heq⟩ | ⟨items, items', hs, ht, -⟩
    · exact moving_congr member hsource heq
    · -- nothing is moved to a list
      have hadmits : s.admitsSet destination = false ∧ t.admitsSet destination = false := by
        unfold admitsSet
        rw [hs, ht]
        exact ⟨rfl, rfl⟩
      unfold moving
      rw [hsource, hadmits.1, hadmits.2]
      rfl
  · -- and nothing from one
    unfold moving
    rw [hs, ht]

/-- Where no list is overwritten, what is done does not depend on the items of any list. -/
theorem changes_eq {op : Operation} (hop : op.rewritesList = false) :
    op.changes s = op.changes t := by
  cases op with
  | contains | size | statistics => rfl
  | command c =>
    cases c with
    | push | pop | setItem | trimList | removeItems => cases hop
    | store key value => simp only [Operation.changes, h.contains_eq]
    | replace key value => exact h.rewriting_eq key fun _ _ => rfl
    | addMember key member =>
      simp only [Operation.changes, h.contains_eq, h.rewriting_onSet_eq]
    | removeMember key member => exact h.rewriting_onSet_eq key _
    | popMember key => simp only [Operation.changes, h.choices_eq, h.rewriting_onSet_eq]
    | combineInto algebra keys =>
      cases keys with
      | nil => rfl
      | cons destination sources => simp only [Operation.changes, h.setsAt_eq]
    | moveMember source destination member => exact h.moving_eq source destination member
    | get | remove | itemAt | listLength | listRange | isMember | cardinality | members | combine
    | randomMember => rfl

theorem drawn_eq (swaps : String → Bool) (op : Operation) :
    (op.mirror swaps).drawn t = op.drawn s := by
  cases op with
  | contains | size | statistics => rfl
  | command c =>
    cases c with
    | popMember key | randomMember key =>
      simp only [Operation.mirror, Operation.drawn, h.setMembers_eq]
    | _ => rfl

end Views

/-! ## One step -/

section Step

variable {key : String} {s t : Store} (h : s.Mirrors key t)
include h

/-- Lists may be rewritten in any way, if only at `key` it is done in reverse. -/
theorem alike_rewriting (other : String) {rewrite rewrite' : List Value → Option (List Value)}
    (hreverse : other = key → ∀ items, s.find? key = some (.list items) →
      (rewrite' items.reverse).getD items.reverse = ((rewrite items).getD items).reverse) :
    Alike (Value.Mirrors key) (applyAll s.map (s.rewriting other (onList rewrite)))
      (applyAll t.map (t.rewriting other (onList rewrite'))) := by
  rcases h.find?_eq_or_lists other with ⟨hs, ht, -⟩ | ⟨items, items', hs, ht, hitems⟩
  · rw [rewriting_of_no_list hs, rewriting_of_no_list ht]
    exact h.alike.use other
  · rw [applyAll_rewriting_of_list hs, applyAll_rewriting_of_list ht]
    refine h.alike.insert (.list fun hkey => ?_)
    rw [hitems hkey]
    exact hreverse hkey items (hkey ▸ hs)

/-- Where the list at `key` is left as it is, the one in reverse has to be left as well. -/
theorem alike_rewriting_of_not_written {other : String} {rewrite : List Value → Option (List Value)}
    (hnone : lastWritten key (s.rewriting other (onList rewrite)) = none)
    (hleft : ∀ items, rewrite items = none → rewrite items.reverse = none) :
    Alike (Value.Mirrors key) (applyAll s.map (s.rewriting other (onList rewrite)))
      (applyAll t.map (t.rewriting other (onList rewrite))) := by
  refine h.alike_rewriting other fun hkey items hfind => ?_
  subst hkey
  rw [Operation.lastWritten_rewriting, if_pos rfl, hfind] at hnone
  have hstays : rewrite items = none := Option.map_eq_none_iff.mp hnone
  rw [hstays, hleft items hstays]
  rfl

theorem listItems_eq : t.listItems key = (s.listItems key).reverse := by
  unfold listItems
  rcases h.find?_eq_or_lists key with ⟨hs, ht, -⟩ | ⟨items, items', hs, ht, hitems⟩
  · rw [hs, ht]
    rfl
  · unfold list?
    rw [hs, ht, hitems rfl]
    rfl

/-- Where one store has a list or nothing, the other one has the list in reverse or nothing. -/
theorem find?_of_deque {q : Option (List Value)} (hfind : s.find? key = q.map .list) :
    t.find? key = (q.map List.reverse).map .list := by
  rcases h.find?_eq_or_lists key with ⟨hs, -, heq⟩ | ⟨items, items', hs, ht, hitems⟩
  · cases q with
    | none => exact heq.symm.trans hfind
    | some items =>
      unfold list? at hs
      rw [hfind] at hs
      cases hs
  · cases q with
    | none => cases hs.symm.trans hfind
    | some others =>
      obtain rfl := Value.list.inj (Option.some.inj (hs.symm.trans hfind))
      rw [ht, hitems rfl]
      rfl

variable {swaps : String → Bool} (hswap : swaps key = true)
include hswap

theorem alike_push (side : Side) (other : String) (x : Value) :
    Alike (Value.Mirrors key)
      (applyAll s.map (Operation.changes s (.command (.push side other x))))
      (applyAll t.map (Operation.changes t (.command (.push
        (if swaps other then side.opposite else side) other x)))) := by
  simp only [Operation.changes, ← h.contains_eq]
  split
  · refine h.alike_rewriting other fun hkey items _ => ?_
    rw [hkey, if_pos hswap]
    exact Items.push_reverse side items x
  · exact h.alike.insert (.list fun _ => rfl)

theorem alike_pop (side : Side) (other : String) :
    Alike (Value.Mirrors key)
      (applyAll s.map (Operation.changes s (.command (.pop side other))))
      (applyAll t.map (Operation.changes t (.command (.pop
        (if swaps other then side.opposite else side) other)))) := by
  refine h.alike_rewriting other fun hkey items _ => ?_
  rw [hkey, if_pos hswap, Items.pop?_reverse]
  cases Items.pop? side items <;> rfl

/-- After an operation the list is in reverse again, and all else is as it was to be. -/
theorem alike_perform {op : Operation}
    (hop : op.onDeque key = false → lastWritten key (op.changes s) = none) :
    Alike (Value.Mirrors key) (applyAll s.map (op.changes s))
      (applyAll t.map ((op.mirror swaps).changes t)) := by
  cases hlist : op.rewritesList with
  | false =>
    -- the changes are the same ones, and none of them is a write at `key`
    have hnone : lastWritten key (op.changes s) = none := by
      cases hdeque : op.onDeque key with
      | false => exact hop hdeque
      | true => exact Operation.lastWritten_of_onDeque hdeque hlist
    rw [Operation.mirror_of_not_rewritesList hlist, ← h.changes_eq hlist]
    refine h.alike.applyAll (List.forall₂_same.mpr fun change hmem => ?_)
    cases change with
    | use other => exact .use other
    | write other value => exact .write (.refl (ne_of_lastWritten_eq_none hnone hmem) value)
    | remove other => exact .remove other
  | true =>
    -- the ends are the only places where it matters which way round the list is
    cases op with
    | contains | size | statistics => cases hlist
    | command c =>
      cases c with
      | push side other x => exact h.alike_push hswap side other x
      | pop side other => exact h.alike_pop hswap side other
      | setItem other index x =>
        -- at `key` the index is outside the list, and so it is in reverse
        refine h.alike_rewriting_of_not_written (hop rfl) fun items houtside => ?_
        rw [Option.map_eq_none_iff] at houtside ⊢
        rwa [List.length_reverse]
      | trimList other | removeItems other =>
        exact h.alike_rewriting_of_not_written (hop rfl) fun items hnone => nomatch hnone
      | _ => cases hlist

theorem perform {op : Operation}
    (hop : op.onDeque key = false → lastWritten key (op.changes s) = none) :
    (op.perform s).2.Mirrors key ((op.mirror swaps).perform t).2 where
  alike := by
    rw [Operation.perform_map, Operation.perform_map]
    exact h.alike_perform hswap hop
  choices_eq := by
    rw [(Operation.tallies s op).choices_eq, (Operation.tallies t _).choices_eq, h.drawn_eq,
      h.choices_eq]

theorem popResult_eq (op : Operation) :
    Operation.popResult key (op.mirror swaps, ((op.mirror swaps).perform t).1) =
      Operation.popResult key (op, (op.perform s).1) := by
  cases op with
  | contains | size | statistics => rfl
  | command c =>
    cases c with
    | pop side other =>
      show (if other = key then [(t.pop (if swaps other then side.opposite else side) other).1]
        else []) = if other = key then [(s.pop side other).1] else []
      by_cases hkey : other = key
      · rw [if_pos hkey, if_pos hkey, hkey, if_pos hswap, fst_pop, fst_pop, h.listItems_eq,
          Items.pop?_reverse]
        cases Items.pop? side (s.listItems key) <;> rfl
      · rw [if_neg hkey, if_neg hkey]
    | _ => rfl

end Step

/-! ## Runs -/

section Runs

variable {key : String} {s t : Store} {swaps : String → Bool} {ops : List Operation}

theorem run (h : s.Mirrors key t) (hswap : swaps key = true) (hops : SparesList key s ops) :
    (Operation.run s ops).2.Mirrors key (Operation.run t (ops.map (Operation.mirror swaps))).2 := by
  induction ops generalizing s t with
  | nil => exact h
  | cons op rest ih => exact ih (h.perform hswap fun hother => (hops.1 hother).1) hops.2

theorem popResults_eq (h : s.Mirrors key t) (hswap : swaps key = true)
    (hops : SparesList key s ops) :
    Operation.popResults key (Operation.trace t (ops.map (Operation.mirror swaps))) =
      Operation.popResults key (Operation.trace s ops) := by
  induction ops generalizing s t with
  | nil => rfl
  | cons op rest ih =>
    have hnext := h.perform hswap fun hother => (hops.1 hother).1
    unfold Operation.popResults at ih ⊢
    rw [List.map_cons, Operation.trace_cons, Operation.trace_cons, List.flatMap_cons,
      List.flatMap_cons, h.popResult_eq hswap, ih hnext hops.2]

end Runs

end Mirrors

end Store

end BoundedStore
