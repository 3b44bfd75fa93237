import BoundedStore.Proofs.Store.Frame
import BoundedStore.Proofs.Value.Items
import BoundedStore.Proofs.Value.Members

/-!
# What is written is made of what was there

An operation makes no values of its own. What it puts into a list or a set it was given, or found in
another list or set, and a value that it writes as a whole it was given. So a condition that a list
meets by its items, and a set by its members (`ByParts`), holds of everything in the store as soon
as it holds of what the operations are given.

The step is `holds_of_write`, on what an operation writes. A list keeps some of its items, reorders
none, and gains at most the one that is given. A set is changed by adding and removing, and made by
set algebra, which takes its members from the sets that it reads.
-/

namespace BoundedStore

open Bounded Bounded.Change

/-! ## Conditions by parts -/

/-- A condition that a list or a set meets when its items or members meet another one. -/
structure ByParts (holds part : Value → Prop) : Prop where
  list_iff : ∀ items, holds (.list items) ↔ ∀ x ∈ items, part x
  set_iff : ∀ members, holds (.set members) ↔ Members.Built part members
  wellFormed : ∀ x, part x → x.WellFormed

namespace Store

/-- Every value in the store meets the condition. -/
def Holds (s : Store) (holds : Value → Prop) : Prop :=
  ∀ key v, s.find? key = some v → holds v

/-- A new store holds nothing. -/
theorem holds_of_new {holds : Value → Prop} {capacity : Nat} {choices : Choices} {s : Store}
    (h : Store.new capacity choices = .ok s) : s.Holds holds := by
  obtain ⟨-, rfl⟩ := Store.new_eq_ok_iff.mp h
  exact fun key v hfind => nomatch hfind

end Store

/-- The values that an operation is given can be parts of others, and can be stored themselves. -/
def Operation.Brings (holds part : Value → Prop) : Operation → Prop
  | command c => ∀ name v, (name, .value v) ∈ c.operands → part v ∧ holds v.coerce
  | contains _ | size | statistics => True

/-- Set algebra takes its members from the sets that it reads. -/
theorem Algebra.built_combine (algebra : Algebra) {part : Value → Prop}
    {sets : List (Option Members)}
    (h : ∀ set ∈ sets, ∀ members, set = some members → Members.Built part members) :
    Members.Built part (algebra.combine sets) := by
  cases algebra with
  | intersection =>
    show Members.Built part (Members.intersection sets)
    unfold Members.intersection
    split
    next first others hsets =>
      have hmem : some first ∈ sets := by
        rw [(Members.mapM_id_eq_some_iff sets _).mp hsets]
        exact List.mem_cons_self
      exact (h _ hmem first rfl).sublist List.filter_sublist
    next => exact .nil
  | union =>
    refine Members.Built.ofList fun x hx => ?_
    obtain ⟨set, hset, hmem⟩ := List.mem_flatMap.mp hx
    cases set with
    | none => cases hmem
    | some members =>
      have hbuilt := h _ hset members rfl
      exact ⟨hbuilt.values x hmem, hbuilt.parts x hmem⟩
  | difference =>
    show Members.Built part (Members.difference sets)
    unfold Members.difference
    split
    next first others => exact (h _ List.mem_cons_self first rfl).sublist List.filter_sublist
    next => exact .nil

namespace ByParts

variable {holds part : Value → Prop} {s : Store} {key : String} {value : Value}

/-! ## What is written -/

/-- A rewriting that keeps to the condition writes what meets it. -/
theorem holds_of_rewriting (h : s.Holds holds) {other : String} {rewrite : Value → Option Value}
    (hrewrite : ∀ found v, holds found → rewrite found = some v → holds v)
    (hwrite : .write key value ∈ s.rewriting other rewrite) : holds value := by
  unfold Store.rewriting at hwrite
  cases hfind : s.find? other with
  | none => simp [hfind] at hwrite
  | some found =>
    cases hnew : rewrite found with
    | none => simp [hfind, hnew] at hwrite
    | some v =>
      obtain ⟨-, rfl⟩ : key = other ∧ value = v := by simpa [hfind, hnew] using hwrite
      exact hrewrite found value (h other found hfind) hnew

/-- A list may gain the items that are given. -/
theorem holds_onList (hparts : ByParts holds part) {rewrite : List Value → Option (List Value)}
    {given : List Value} (hgiven : ∀ x ∈ given, part x)
    (hitems : ∀ items kept, rewrite items = some kept → kept ⊆ given ++ items) (found v : Value)
    (hfound : holds found) (h : onList rewrite found = some v) : holds v := by
  obtain ⟨items, kept, rfl, hkept, rfl⟩ := onList_eq_some_iff.mp h
  refine (hparts.list_iff kept).mpr fun x hx => ?_
  rcases List.mem_append.mp (hitems items kept hkept hx) with hnew | hold
  · exact hgiven x hnew
  · exact (hparts.list_iff items).mp hfound x hold

theorem holds_onList_of_sublist (hparts : ByParts holds part)
    {rewrite : List Value → Option (List Value)}
    (hitems : ∀ items kept, rewrite items = some kept → kept.Sublist items) (found v : Value)
    (hfound : holds found) (h : onList rewrite found = some v) : holds v :=
  holds_onList hparts (List.forall_mem_nil part)
    (fun items kept hkept => (hitems items kept hkept).subset) found v hfound h

theorem holds_onSet (hparts : ByParts holds part) {rewrite : Members → Option Members}
    (hmembers : ∀ members kept, Members.Built part members → rewrite members = some kept →
      Members.Built part kept) (found v : Value)
    (hfound : holds found) (h : onSet rewrite found = some v) : holds v := by
  obtain ⟨members, kept, rfl, hkept, rfl⟩ := onSet_eq_some_iff.mp h
  exact (hparts.set_iff kept).mpr (hmembers members kept ((hparts.set_iff members).mp hfound) hkept)

theorem built_of_set? (hparts : ByParts holds part) (h : s.Holds holds) {other : String}
    {members : Members} (hset : s.set? other = some members) : Members.Built part members :=
  (hparts.set_iff members).mp (h other _ (Store.find?_of_set? hset))

theorem built_combine (hparts : ByParts holds part) (h : s.Holds holds) (algebra : Algebra)
    (keys : List String) : Members.Built part (algebra.combine (keys.map s.set?)) := by
  refine algebra.built_combine fun set hset members hmembers => ?_
  obtain ⟨key, -, rfl⟩ := List.mem_map.mp hset
  exact built_of_set? hparts h hmembers

/-- Whatever the destination of a move held before, it meets the condition with the member added. -/
theorem holds_moved (hparts : ByParts holds part) (h : s.Holds holds) {source : String}
    {members : Members} {member : Value} (hsource : s.find? source = some (.set members))
    (hmember : part member) (destination : String) :
    holds (s.moved source destination members member) := by
  refine (hparts.set_iff _).mpr (.add ?_ (hparts.wellFormed member hmember) hmember)
  split
  · exact ((hparts.set_iff members).mp (h source _ hsource)).remove member
  · split
    next others hothers => exact (hparts.set_iff others).mp (h destination _ hothers)
    next => exact .nil

theorem holds_of_moving (hparts : ByParts holds part) (h : s.Holds holds)
    {source destination : String} {member : Value} (hmember : part member)
    (hwrite : .write key value ∈ s.moving source destination member) : holds value := by
  unfold Store.moving at hwrite
  split at hwrite
  next members hsource =>
    have hbuilt := (hparts.set_iff members).mp (h source _ hsource)
    repeat' split at hwrite
    · rw [List.mem_pair] at hwrite
      rcases hwrite with hfirst | hlast
      · obtain ⟨-, rfl⟩ := Change.write.inj hfirst
        exact (hparts.set_iff _).mpr (hbuilt.remove member)
      · obtain ⟨-, rfl⟩ := Change.write.inj hlast
        exact holds_moved hparts h hsource hmember destination
    · simp at hwrite
    · cases hwrite
  next => cases hwrite

theorem holds_of_combining (hparts : ByParts holds part) (h : s.Holds holds) {algebra : Algebra}
    {keys : List String}
    (hwrite : .write key value ∈ (Operation.command (.combineInto algebra keys)).changes s) :
    holds value := by
  cases keys with
  | nil => cases hwrite
  | cons destination sources =>
    rw [Operation.changes, List.mem_append] at hwrite
    rcases hwrite with huse | hwrite
    · simp at huse
    · cases hsets : s.setsAt sources with
      | error e => simp [hsets] at hwrite
      | ok sets =>
        obtain ⟨-, rfl⟩ : key = destination ∧ value = .set (algebra.combine sets) := by
          simpa [hsets] using hwrite
        obtain ⟨-, rfl⟩ := (s.settles_setsAt sources).eq_ok_iff.mp hsets
        exact (hparts.set_iff _).mpr (built_combine hparts h algebra sources)

/-- Whatever an operation writes meets the condition. -/
theorem holds_of_write (hparts : ByParts holds part) (h : s.Holds holds) {op : Operation}
    (hop : op.Brings holds part) (hwrite : .write key value ∈ op.changes s) : holds value := by
  cases op with
  | contains | size | statistics => cases hwrite
  | command c =>
    have hgiven : ∀ name v, (name, Operand.value v) ∈ c.operands → part v ∧ holds v.coerce := hop
    cases c with
    | store other given =>
      have hcoerced := (hgiven "value" given (by simp [Command.operands])).2
      rw [Operation.changes] at hwrite
      split at hwrite
      · cases hwrite
      · obtain ⟨-, rfl⟩ := Change.write.inj (List.mem_singleton.mp hwrite)
        exact hcoerced
    | replace other given =>
      have hcoerced := (hgiven "value" given (by simp [Command.operands])).2
      refine holds_of_rewriting h (fun found v _ hv => ?_) hwrite
      exact Option.some.inj hv ▸ hcoerced
    | push side other given =>
      have hone : ∀ x ∈ [given], part x := by
        simpa using (hgiven "value" given (by simp [Command.operands])).1
      rw [Operation.changes] at hwrite
      split at hwrite
      · refine holds_of_rewriting h (holds_onList hparts hone fun items kept hkept => ?_) hwrite
        obtain rfl := Option.some.inj hkept
        cases side <;> simp [Items.push]
      · obtain ⟨-, rfl⟩ := Change.write.inj (List.mem_singleton.mp hwrite)
        exact (hparts.list_iff [given]).mpr hone
    | setItem other index given =>
      have hone : ∀ x ∈ [given], part x := by
        simpa using (hgiven "value" given (by simp [Command.operands])).1
      refine holds_of_rewriting h (holds_onList hparts hone fun items kept hkept x hx => ?_) hwrite
      obtain ⟨i, -, rfl⟩ := Option.map_eq_some_iff.mp hkept
      rw [List.singleton_append, List.mem_cons]
      exact (List.mem_or_eq_of_mem_set hx).symm
    | pop side other =>
      refine holds_of_rewriting h (holds_onList_of_sublist hparts ?_) hwrite
      intro items kept hkept
      obtain ⟨⟨taken, rest⟩, hpop, rfl⟩ := Option.map_eq_some_iff.mp hkept
      exact Items.pop?_sublist hpop
    | trimList other start stop =>
      refine holds_of_rewriting h (holds_onList_of_sublist hparts ?_) hwrite
      intro items kept hkept
      obtain rfl := Option.some.inj hkept
      exact Items.trim_sublist items start stop
    | removeItems other count target =>
      refine holds_of_rewriting h (holds_onList_of_sublist hparts ?_) hwrite
      intro items kept hkept
      obtain rfl := Option.some.inj hkept
      exact Items.remove_sublist items count target
    | addMember other member =>
      have hmember := (hgiven "member" member (by simp [Command.operands])).1
      have hwell := hparts.wellFormed member hmember
      rw [Operation.changes] at hwrite
      split at hwrite
      · refine holds_of_rewriting h (holds_onSet hparts fun members kept hold hkept => ?_) hwrite
        exact Option.some.inj hkept ▸ hold.add hwell hmember
      · obtain ⟨-, rfl⟩ := Change.write.inj (List.mem_singleton.mp hwrite)
        exact (hparts.set_iff [member]).mpr (.singleton hwell hmember)
    | removeMember other member =>
      refine holds_of_rewriting h (holds_onSet hparts fun members kept hold hkept => ?_) hwrite
      exact Option.some.inj hkept ▸ hold.remove member
    | popMember other =>
      refine holds_of_rewriting h (holds_onSet hparts fun members kept hold hkept => ?_) hwrite
      split at hkept
      · cases hkept
      next hne =>
        obtain rfl := Option.some.inj hkept
        exact hold.removeAt (Nat.mod_lt _ (List.length_pos_of_ne_nil hne))
    | combineInto algebra keys => exact holds_of_combining hparts h hwrite
    | moveMember source destination member =>
      have hmember := (hgiven "member" member (by simp [Command.operands])).1
      exact holds_of_moving hparts h hmember hwrite
    | remove | get | itemAt | listLength | listRange | isMember | cardinality | members | combine
    | randomMember => simp [Operation.changes] at hwrite

/-! ## Steps and runs -/

theorem holds_perform (hparts : ByParts holds part) (hvalid : s.map.Valid) (h : s.Holds holds)
    {op : Operation} (hop : op.Brings holds part) : (op.perform s).2.Holds holds := by
  intro key v hfind
  rw [Operation.find?_perform hvalid] at hfind
  split at hfind
  · cases hfind
  · cases hwritten : lastWritten key (op.changes s) with
    | none =>
      rw [hwritten] at hfind
      exact h key v hfind
    | some written =>
      rw [hwritten] at hfind
      obtain rfl := Option.some.inj hfind
      exact holds_of_write hparts h hop (mem_of_lastWritten hwritten)

theorem holds_run (hparts : ByParts holds part) (hvalid : s.map.Valid) (h : s.Holds holds)
    {ops : List Operation} (hops : ∀ op ∈ ops, op.Brings holds part) :
    (Operation.run s ops).2.Holds holds := by
  induction ops generalizing s with
  | nil => exact h
  | cons op rest ih =>
    have hstep := holds_perform hparts hvalid h (hops op List.mem_cons_self)
    exact ih (Operation.valid_perform hvalid op) hstep fun other hmem =>
      hops other (List.mem_cons_of_mem op hmem)

end ByParts

end BoundedStore
