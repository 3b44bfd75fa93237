import BoundedStore.Proofs.Bounded.Changes
import BoundedStore.Proofs.Store.Basic

/-!
# What the operations of a store do to its map

Every operation comes down to a short list of changes of the map, and `changes` says which. Most
operations on one key either overwrite the value that they find there or, where there is nothing to
do, only use the key; `rewriting` is that common form. The main statement is `perform_map`: after an
operation the map is what its changes make of it. Later modules reason about the changes alone, so
that none of them has to look at the operations one by one again.

## The form of the changes

`changes_form` says what the list can look like: changes that are quiet, and then at most one write
or one removal. A removal is only made by the operation of that name. Sources of a set algebra are
used before the destination is written, and a move overwrites its source before it writes its
destination, so the last change is the only one that can make a key live or evict one.
-/

namespace BoundedStore

open Bounded Bounded.Change

/-! ## Rewriting one value -/

/-- What becomes of a list under `rewrite`; nothing where the value is of another kind. -/
def onList (rewrite : List Value → Option (List Value)) : Value → Option Value
  | .list items => (rewrite items).map .list
  | _ => none

/-- What becomes of a set under `rewrite`; nothing where the value is of another kind. -/
def onSet (rewrite : Members → Option Members) : Value → Option Value
  | .set members => (rewrite members).map .set
  | _ => none

/-- A rewriting of lists finds a list and leaves one. -/
theorem onList_eq_some_iff {rewrite : List Value → Option (List Value)} {found value : Value} :
    onList rewrite found = some value ↔
      ∃ items kept, found = .list items ∧ rewrite items = some kept ∧ value = .list kept := by
  cases found with
  | list items => simp [onList, eq_comm]
  | integer | text | set => simp [onList]

theorem onSet_eq_some_iff {rewrite : Members → Option Members} {found value : Value} :
    onSet rewrite found = some value ↔
      ∃ members kept, found = .set members ∧ rewrite members = some kept ∧ value = .set kept := by
  cases found with
  | set members => simp [onSet, eq_comm]
  | integer | text | list => simp [onSet]

namespace Store

/-- Overwrites the value at `key` with what `rewrite` makes of it. Where that is nothing the key is
only used. -/
def rewriting (s : Store) (key : String) (rewrite : Value → Option Value) : List (Change Value) :=
  match (s.find? key).bind rewrite with
  | some value => [.write key value]
  | none => [.use key]

/-- Rewriting is quiet: it never makes a key live. -/
theorem quietAll_rewriting (s : Store) (key : String) (rewrite : Value → Option Value) :
    s.map.QuietAll (s.rewriting key rewrite) := by
  unfold rewriting
  cases hfind : s.find? key with
  | none => exact ⟨trivial, trivial⟩
  | some found =>
    cases hnew : rewrite found with
    | none => simpa [hnew] using quietAll_use s.map [key]
    | some value => simpa [hnew] using quietAll_write value (contains_of_peek hfind)

/-- What a move leaves at its destination, which may be its source. -/
def moved (s : Store) (source destination : String) (members : Members) (member : Value) : Value :=
  .set (Members.add
    (if source = destination then Members.remove members member
      else match s.find? destination with
        | some (.set others) => others
        | _ => [])
    member)

/-- The changes of a move: none unless the source is a set and the destination can be one, and only
a use of the source when the member is not there. -/
def moving (s : Store) (source destination : String) (member : Value) : List (Change Value) :=
  match s.find? source with
  | some (.set members) =>
    if s.admitsSet destination then
      if Members.has members member then
        [.write source (.set (Members.remove members member)),
          .write destination (s.moved source destination members member)]
      else [.use source]
    else []
  | _ => []

end Store

namespace Operation

/-- The changes of the map that an operation makes, one after the other. -/
def changes (s : Store) : Operation → List (Change Value)
  | command (.store key value) => if s.contains key then [] else [.write key value.coerce]
  | command (.replace key value) => s.rewriting key fun _ => some value.coerce
  | command (.remove key) => [.remove key]
  | command (.push side key value) =>
    if s.contains key then s.rewriting key (onList fun items => some (Items.push side items value))
    else [.write key (.list [value])]
  | command (.pop side key) =>
    s.rewriting key (onList fun items => (Items.pop? side items).map Prod.snd)
  | command (.setItem key index value) =>
    s.rewriting key (onList fun items =>
      (Items.position? items.length index).map fun i => items.set i value)
  | command (.trimList key start stop) =>
    s.rewriting key (onList fun items => some (Items.trim items start stop))
  | command (.removeItems key count target) =>
    s.rewriting key (onList fun items => some (Items.remove items count target))
  | command (.addMember key member) =>
    if s.contains key then s.rewriting key (onSet fun members => some (Members.add members member))
    else [.write key (.set [member])]
  | command (.removeMember key member) =>
    s.rewriting key (onSet fun members => some (Members.remove members member))
  | command (.popMember key) =>
    s.rewriting key (onSet fun members =>
      if members = [] then none
      else some (Members.removeAt members (s.choices.pick members.length).1))
  | command (.moveMember source destination member) => s.moving source destination member
  | command (.combine _ keys) => keys.map .use
  | command (.combineInto _ []) => []
  | command (.combineInto algebra (destination :: sources)) =>
    sources.map .use ++
      match s.setsAt sources with
      | .ok sets => [.write destination (.set (algebra.combine sets))]
      | .error _ => []
  | command (.get key) | command (.itemAt key _) | command (.listLength key)
  | command (.listRange key _ _) | command (.isMember key _) | command (.cardinality key)
  | command (.members key) | command (.randomMember key) => [.use key]
  | contains _ | size | statistics => []

end Operation

/-! ## The changes are what is done

One lemma an operation. An operation on one key looks at the value there, so its proof takes the
kinds of values one by one: on its own kind it writes what `rewriting` writes, and on any other, or
where the key is absent, it uses the key like `rewriting`. -/

namespace Store

theorem map_rewriting (s : Store) (key : String) (rewrite : Value → Option Value) :
    applyAll s.map (s.rewriting key rewrite) =
      (((s.find? key).bind rewrite).elim (s.use key) (s.write key)).map := by
  unfold rewriting
  cases (s.find? key).bind rewrite <;> rfl

theorem map_create (s : Store) (key : String) (value : Value) :
    (s.create key value).2.map =
      applyAll s.map (Operation.changes s (.command (.store key value))) := by
  unfold create
  simp only [Operation.changes]
  by_cases hlive : s.contains key = true
  · have hmap : s.map.contains key = true := hlive
    rw [if_pos hmap, if_pos hlive]
    rfl
  · have hmap : ¬ s.map.contains key = true := hlive
    rw [if_neg hmap, if_neg hlive]
    rfl

theorem map_get (s : Store) (key : String) : (s.get key).2.map = s.map.use key := by
  unfold get
  cases hfind : s.find? key with
  | none => exact congrArg Store.map (use_of_absent hfind).symm
  | some value => rfl

theorem map_remove (s : Store) (key : String) : (s.remove key).2.map = (s.map.remove key).2 := by
  unfold remove Bounded.remove
  cases s.map.peek key <;> rfl

theorem map_replace (s : Store) (key : String) (value : Value) :
    (s.replace key value).2.map =
      applyAll s.map (Operation.changes s (.command (.replace key value))) := by
  simp only [Operation.changes, map_rewriting]
  unfold replace
  cases hfind : s.find? key with
  | none => exact congrArg Store.map (use_of_absent hfind).symm
  | some found => rfl

theorem map_push (s : Store) (side : Side) (key : String) (value : Value) :
    (s.push side key value).2.map =
      applyAll s.map (Operation.changes s (.command (.push side key value))) := by
  unfold push
  cases hfind : s.find? key with
  | none =>
    have habsent : ¬ s.contains key = true := by simp [(find?_eq_none_iff s key).mp hfind]
    simp only [Operation.changes, if_neg habsent]
    rfl
  | some found =>
    simp only [Operation.changes, if_pos (contains_of_find? hfind), map_rewriting, hfind]
    cases found <;> rfl

theorem map_pop (s : Store) (side : Side) (key : String) :
    (s.pop side key).2.map = applyAll s.map (Operation.changes s (.command (.pop side key))) := by
  simp only [Operation.changes, map_rewriting]
  unfold pop
  cases hfind : s.find? key with
  | none => rfl
  | some found =>
    cases found with
    | list items =>
      simp only [Option.bind_some, onList]
      cases Items.pop? side items <;> rfl
    | integer | text | set => rfl

theorem map_setItem (s : Store) (key : String) (index : Int64) (value : Value) :
    (s.setItem key index value).2.map =
      applyAll s.map (Operation.changes s (.command (.setItem key index value))) := by
  simp only [Operation.changes, map_rewriting]
  unfold setItem
  cases hfind : s.find? key with
  | none => rfl
  | some found =>
    cases found with
    | list items =>
      simp only [Option.bind_some, onList]
      cases Items.position? items.length index <;> rfl
    | integer | text | set => rfl

theorem map_trimList (s : Store) (key : String) (start stop : Int64) :
    (s.trimList key start stop).2.map =
      applyAll s.map (Operation.changes s (.command (.trimList key start stop))) := by
  simp only [Operation.changes, map_rewriting]
  unfold trimList
  cases hfind : s.find? key with
  | none => rfl
  | some found => cases found <;> rfl

theorem map_removeItems (s : Store) (key : String) (count : Int64) (target : Value) :
    (s.removeItems key count target).2.map =
      applyAll s.map (Operation.changes s (.command (.removeItems key count target))) := by
  simp only [Operation.changes, map_rewriting]
  unfold removeItems
  cases hfind : s.find? key with
  | none => rfl
  | some found => cases found <;> rfl

theorem map_addMember (s : Store) (key : String) (member : Value) :
    (s.addMember key member).2.map =
      applyAll s.map (Operation.changes s (.command (.addMember key member))) := by
  unfold addMember membersAt
  cases hfind : s.find? key with
  | none =>
    have habsent : ¬ s.contains key = true := by simp [(find?_eq_none_iff s key).mp hfind]
    simp only [Operation.changes, if_neg habsent]
    rfl
  | some found =>
    simp only [Operation.changes, if_pos (contains_of_find? hfind), map_rewriting, hfind]
    cases found <;> rfl

theorem map_removeMember (s : Store) (key : String) (member : Value) :
    (s.removeMember key member).2.map =
      applyAll s.map (Operation.changes s (.command (.removeMember key member))) := by
  simp only [Operation.changes, map_rewriting]
  unfold removeMember membersAt
  cases hfind : s.find? key with
  | none => exact congrArg Store.map (use_of_absent hfind).symm
  | some found => cases found <;> rfl

theorem map_popMember (s : Store) (key : String) :
    (s.popMember key).2.map = applyAll s.map (Operation.changes s (.command (.popMember key))) := by
  simp only [Operation.changes, map_rewriting]
  unfold popMember
  cases hfind : s.find? key with
  | none => rfl
  | some found =>
    cases found with
    | set members => cases members <;> rfl
    | integer | text | list => rfl

theorem map_randomMember (s : Store) (key : String) :
    (s.randomMember key).2.map = s.map.use key := by
  unfold randomMember
  cases s.find? key with
  | none => rfl
  | some found =>
    cases found with
    | set members => cases members <;> rfl
    | integer | text | list => rfl

theorem map_combine (s : Store) (algebra : Algebra) (keys : List String) :
    (s.combine algebra keys).2.map = applyAll s.map (keys.map .use) := by
  rw [applyAll_use]
  exact map_useAll s keys

theorem map_combineInto (s : Store) (algebra : Algebra) (keys : List String) :
    (s.combineInto algebra keys).2.map =
      applyAll s.map (Operation.changes s (.command (.combineInto algebra keys))) := by
  cases keys with
  | nil => rfl
  | cons destination sources =>
    -- the sources are used whether or not all of them are sets
    have hused : (s.useAll sources).map = applyAll s.map (sources.map .use) := by
      rw [applyAll_use, map_useAll]
    simp only [Operation.changes, applyAll_append]
    cases hsets : s.setsAt sources with
    | ok sets =>
      rw [combineInto_of_ok algebra destination hsets, map_write, hused]
      rfl
    | error e =>
      rw [combineInto_of_error algebra destination hsets, hused]
      rfl

/-- What the second half of a move writes, after its first half has taken the member out. -/
theorem map_addMember_write {s : Store} {source destination : String} {members : Members}
    {member : Value} (hsource : s.find? source = some (.set members))
    (hdestination : s.admitsSet destination = true) :
    ((s.write source (.set (Members.remove members member))).addMember destination member).2.map =
      applyAll s.map [.write source (.set (Members.remove members member)),
        .write destination (s.moved source destination members member)] := by
  have hfind := find?_write_of_live (.set (Members.remove members member)) destination
    (contains_of_find? hsource)
  unfold addMember membersAt moved
  rw [hfind]
  by_cases hsame : source = destination
  · -- the member goes back into the set it was taken from, at the end
    rw [if_pos hsame, if_pos hsame]
    rfl
  · rw [if_neg hsame, if_neg hsame]
    unfold admitsSet at hdestination
    cases hother : s.find? destination with
    | none => rfl
    | some found =>
      rw [hother] at hdestination
      cases found with
      | set others => rfl
      | integer | text | list => cases hdestination

theorem map_moveMember (s : Store) (source destination : String) (member : Value) :
    (s.moveMember source destination member).2.map =
      applyAll s.map (Operation.changes s (.command (.moveMember source destination member))) := by
  simp only [Operation.changes]
  unfold moveMember moving
  cases hsource : s.find? source with
  | none => simp [membersAt, hsource]
  | some found =>
    cases found with
    | integer | text | list => simp [membersAt, hsource]
    | set members =>
      have hmembers : s.membersAt source = .ok (some members) := by simp [membersAt, hsource]
      by_cases hdestination : s.admitsSet destination = true
      · obtain ⟨target, htarget⟩ := (membersAt_eq_ok_iff s destination).mpr hdestination
        simp only [hmembers, htarget, if_pos hdestination]
        by_cases hmember : Members.has members member = true
        · simp only [if_pos hmember]
          exact map_addMember_write hsource hdestination
        · simp only [if_neg hmember]
          rfl
      · have hother : s.holdsOther .set destination = true := by
          simpa [admitsSet_eq] using hdestination
        obtain ⟨detail, hrefused⟩ := (s.settles_membersAt destination).refused hother
        simp only [hmembers, hrefused, if_neg hdestination]
        rfl

end Store

/-- After an operation the map is what the operation's changes make of it. -/
theorem Operation.perform_map (s : Store) (op : Operation) :
    (op.perform s).2.map = applyAll s.map (op.changes s) := by
  cases op with
  | contains key => rfl
  | size => rfl
  | statistics => rfl
  | command c =>
    cases c with
    | store key value => exact s.map_create key value
    | get key => exact s.map_get key
    | remove key => exact s.map_remove key
    | replace key value => exact s.map_replace key value
    | push side key value => exact s.map_push side key value
    | pop side key => exact s.map_pop side key
    | setItem key index value => exact s.map_setItem key index value
    | trimList key start stop => exact s.map_trimList key start stop
    | removeItems key count target => exact s.map_removeItems key count target
    | addMember key member => exact s.map_addMember key member
    | removeMember key member => exact s.map_removeMember key member
    | combine algebra keys => exact s.map_combine algebra keys
    | combineInto algebra keys => exact s.map_combineInto algebra keys
    | moveMember source destination member => exact s.map_moveMember source destination member
    | popMember key => exact s.map_popMember key
    | randomMember key => exact s.map_randomMember key
    | itemAt | listLength | listRange | isMember | cardinality | members => rfl

/-! ## What the changes look like -/

/-- The forms that the changes of an operation can have. -/
inductive Operation.Form (s : Store) (op : Operation) : List (Change Value) → Prop
  /-- No key comes or goes. -/
  | quiet {changes : List (Change Value)} (h : s.map.QuietAll changes) : Form s op changes
  /-- After quiet changes one value is written, which may be at a new key. -/
  | write {changes : List (Change Value)} (h : s.map.QuietAll changes) (key : String)
      (value : Value) : Form s op (changes ++ [.write key value])
  /-- The operation removes its key. -/
  | remove (key : String) (h : op = .command (.remove key)) : Form s op [.remove key]

/-- A write that nothing goes before. -/
theorem Operation.Form.single (s : Store) (op : Operation) (key : String) (value : Value) :
    Form s op [.write key value] :=
  @Form.write s op [] trivial key value

theorem Operation.changes_form (s : Store) (op : Operation) : Form s op (op.changes s) := by
  cases op with
  | contains key => exact .quiet trivial
  | size => exact .quiet trivial
  | statistics => exact .quiet trivial
  | command c =>
    cases c with
    | store key value =>
      by_cases hlive : s.contains key = true
      · rw [changes, if_pos hlive]
        exact .quiet trivial
      · rw [changes, if_neg hlive]
        exact .single s _ key value.coerce
    | push side key value =>
      by_cases hlive : s.contains key = true
      · rw [changes, if_pos hlive]
        exact .quiet (s.quietAll_rewriting key _)
      · rw [changes, if_neg hlive]
        exact .single s _ key _
    | addMember key member =>
      by_cases hlive : s.contains key = true
      · rw [changes, if_pos hlive]
        exact .quiet (s.quietAll_rewriting key _)
      · rw [changes, if_neg hlive]
        exact .single s _ key _
    | remove key => exact .remove key rfl
    | combine algebra keys => exact .quiet (quietAll_use s.map keys)
    | combineInto algebra keys =>
      cases keys with
      | nil => exact .quiet trivial
      | cons destination sources =>
        rw [changes]
        cases s.setsAt sources with
        | ok sets => exact .write (quietAll_use s.map sources) destination _
        | error e =>
          rw [List.append_nil]
          exact .quiet (quietAll_use s.map sources)
    | moveMember source destination member =>
      rw [changes, Store.moving]
      split
      next members hsource =>
        split
        · split
          · -- the source is live, so taking the member out of it is quiet
            have hquiet := quietAll_write (.set (Members.remove members member))
              (contains_of_peek hsource)
            exact .write hquiet destination _
          · exact .quiet (quietAll_use s.map [source])
        · exact .quiet trivial
      next => exact .quiet trivial
    | replace key | pop _ key | setItem key | trimList key | removeItems key | removeMember key
    | popMember key => exact .quiet (s.quietAll_rewriting key _)
    | get key | itemAt key | listLength key | listRange key | isMember key | cardinality key
    | members key | randomMember key => exact .quiet (quietAll_use s.map [key])

/-- No other operation removes a key. -/
theorem Operation.remove_notMem_changes {s : Store} {op : Operation} {key : String}
    (h : op ≠ .command (.remove key)) : .remove key ∉ op.changes s := by
  have hform := changes_form s op
  generalize op.changes s = changes at hform
  cases hform with
  | quiet hquiet => exact hquiet.remove_notMem key
  | write hquiet other value => simpa using hquiet.remove_notMem key
  | remove other hop =>
    have hne : key ≠ other := fun e => h (e ▸ hop)
    simpa using hne

end BoundedStore
