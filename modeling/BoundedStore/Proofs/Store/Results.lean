import BoundedStore.Proofs.Store.Basic
import BoundedStore.Proofs.Value.Items

/-!
# What the operations on lists and sets result in

One lemma an operation, from what the store holds before it. An operation that tells a wrong kind
apart settles, with its result or with a refusal; any other answers for a wrong kind what it answers
for an absent key.
-/

namespace BoundedStore

namespace Store

variable (s : Store) (key : String)

/-! ## Operations on sets -/

theorem fst_addMember (member : Value) : (s.addMember key member).1 =
    (s.membersAt key).map fun members => !Members.has (members.getD []) member := by
  unfold addMember
  split
  next members hmembers => rw [hmembers]; rfl
  next hnone => rw [hnone]; rfl
  next e herror => rw [herror]; rfl

theorem fst_removeMember (member : Value) : (s.removeMember key member).1 =
    (s.membersAt key).map fun members => Members.has (members.getD []) member := by
  unfold removeMember
  split
  next members hmembers => rw [hmembers]; rfl
  next hnone => rw [hnone]; rfl
  next e herror => rw [herror]; rfl

theorem settles_addMember (member : Value) :
    Settles (s.addMember key member).1 (s.holdsOther .set key = true)
      (!Members.has (s.setMembers key) member) := by
  rw [fst_addMember]
  exact (s.settles_membersAt key).map _

theorem settles_removeMember (member : Value) :
    Settles (s.removeMember key member).1 (s.holdsOther .set key = true)
      (Members.has (s.setMembers key) member) := by
  rw [fst_removeMember]
  exact (s.settles_membersAt key).map _

/-- The destination of a combination is not looked at. -/
theorem fst_combineInto (algebra : Algebra) (destination : String) (sources : List String) :
    (s.combineInto algebra (destination :: sources)).1 =
      (s.setsAt sources).map fun sets => (algebra.combine sets).length := by
  cases hsets : s.setsAt sources with
  | ok sets => rw [combineInto_of_ok algebra destination hsets]; rfl
  | error e => rw [combineInto_of_error algebra destination hsets]; rfl

theorem settles_combineInto (algebra : Algebra) (keys : List String) :
    Settles ((s.combineInto algebra keys).1.map fun _ => 1)
      (∃ key ∈ keys.tail, s.holdsOther .set key = true) 1 := by
  cases keys with
  | nil => exact ⟨fun _ => rfl, fun h => absurd h (by simp)⟩
  | cons destination sources =>
    rw [fst_combineInto]
    exact ((s.settles_setsAt sources).map _).map _

/-- A move looks at its destination only when the source is a set. -/
theorem fst_moveMember (source destination : String) (member : Value) :
    (s.moveMember source destination member).1 =
      match s.membersAt source, s.membersAt destination with
      | .error e, _ => .error e
      | .ok none, _ => .ok false
      | .ok (some _), .error e => .error e
      | .ok (some members), .ok _ => .ok (Members.has members member) := by
  unfold moveMember
  cases s.membersAt source with
  | error e => rfl
  | ok found =>
    cases found with
    | none => rfl
    | some members =>
      cases s.membersAt destination with
      | error e => rfl
      | ok other => cases hmember : Members.has members member <;> simp [hmember]

theorem settles_moveMember (source destination : String) (member : Value) :
    Settles (s.moveMember source destination member).1
      (s.holdsOther .set source = true ∨
        (s.holds .set source = true ∧ s.holdsOther .set destination = true))
      (Members.has (s.setMembers source) member) := by
  have hdestination := s.settles_membersAt destination
  rw [fst_moveMember]
  cases hsource : s.find? source with
  | none =>
    have hmembers : s.membersAt source = .ok none := by simp [membersAt, hsource]
    rw [hmembers]
    refine ⟨fun _ => ?_, fun h => absurd h (by simp [holdsOther, holds, hsource])⟩
    simp [setMembers, set?, hsource, Members.has]
  | some found =>
    cases found with
    | set members =>
      have hmembers : s.membersAt source = .ok (some members) := by simp [membersAt, hsource]
      have hhas : Members.has (s.setMembers source) member = Members.has members member := by
        simp [setMembers, set?, hsource]
      rw [hmembers, hhas]
      constructor
      · intro hright
        have hfits : ¬ s.holdsOther .set destination = true := fun hother =>
          hright (Or.inr ⟨by simp [holds, hsource, Value.kind], hother⟩)
        rw [hdestination.ok hfits]
      · intro hwrong
        have hother : s.holdsOther .set destination = true := by
          simpa [holdsOther, holds, hsource, Value.kind] using hwrong
        obtain ⟨detail, hrefused⟩ := hdestination.refused hother
        exact ⟨detail, by rw [hrefused]⟩
    | integer | text | list =>
      refine ⟨fun h => absurd (Or.inl ?_) h, fun _ => ?_⟩
      · simp [holdsOther, hsource, Value.kind]
      · exact ⟨_, by simp only [membersAt, hsource, Value.mismatch]; rfl⟩

/-! ## Operations on lists -/

theorem fst_push (side : Side) (value : Value) :
    (s.push side key value).1 = !s.holdsOther .list key := by
  unfold push holdsOther
  cases s.find? key with
  | none => rfl
  | some found => cases found <;> rfl

theorem fst_pop (side : Side) :
    (s.pop side key).1 = (Items.pop? side (s.listItems key)).map Prod.fst := by
  unfold pop listItems list?
  cases s.find? key with
  | none => cases side <;> rfl
  | some found =>
    cases found with
    | list items =>
      simp only [Option.getD_some]
      cases Items.pop? side items <;> rfl
    | integer | text | set => cases side <;> rfl

theorem fst_itemAt (index : Int64) :
    (s.itemAt key index).1 = (s.list? key).map fun items =>
      (if 0 ≤ index.toInt then items[index.toInt.toNat]? else none).getD (.text "") := by
  unfold itemAt list?
  cases s.find? key with
  | none => rfl
  | some found =>
    cases found with
    | list items => simp only [Items.getElem?_position?, Option.map_some]
    | integer | text | set => rfl

theorem fst_setItem (index : Int64) (value : Value) :
    (s.setItem key index value).1 = (s.holds .list key &&
      decide (0 ≤ index.toInt ∧ index.toInt < (s.listItems key).length)) := by
  unfold setItem holds listItems list?
  cases s.find? key with
  | none => rfl
  | some found =>
    cases found with
    | list items =>
      by_cases hinside : 0 ≤ index.toInt ∧ index.toInt < items.length
      · simp [Items.position?, Value.kind, hinside]
      · simp [Items.position?, Value.kind, hinside]
    | integer | text | set => rfl

theorem fst_trimList (start stop : Int64) :
    (s.trimList key start stop).1 = s.holds .list key := by
  unfold trimList holds
  cases s.find? key with
  | none => rfl
  | some found => cases found <;> rfl

theorem fst_removeItems (count : Int64) (target : Value) :
    (s.removeItems key count target).1 =
      (s.listItems key).length - (Items.remove (s.listItems key) count target).length := by
  unfold removeItems listItems list?
  cases s.find? key with
  | none => exact (Nat.zero_sub _).symm
  | some found =>
    cases found with
    | list items => rfl
    | integer | text | set => exact (Nat.zero_sub _).symm

/-! ## Random members -/

/-- The choice is a position in the set, of which the empty one has none. -/
theorem fst_randomMember_eq_getElem? : (s.randomMember key).1 =
    (s.setMembers key)[(s.choices.pick (s.setMembers key).length).1]? := by
  unfold randomMember setMembers set?
  cases s.find? key with
  | none => rfl
  | some found =>
    cases found with
    | set members => cases members <;> rfl
    | integer | text | list => rfl

theorem fst_popMember : (s.popMember key).1 = (s.randomMember key).1 := by
  unfold popMember randomMember
  cases s.find? key with
  | none => rfl
  | some found =>
    cases found with
    | set members => cases members <;> rfl
    | integer | text | list => rfl

/-- A set that is not empty has a member to choose, since a choice is within its size. -/
theorem fst_randomMember :
    (s.setMembers key = [] ∧ (s.randomMember key).1 = none) ∨
      ∃ v ∈ s.setMembers key, (s.randomMember key).1 = some v := by
  unfold randomMember setMembers set?
  cases s.find? key with
  | none => exact Or.inl ⟨rfl, rfl⟩
  | some found =>
    cases found with
    | set members =>
      cases members with
      | nil => exact Or.inl ⟨rfl, rfl⟩
      | cons first rest =>
        have hchosen : (s.choices.pick (first :: rest).length).1 < (first :: rest).length :=
          Nat.mod_lt _ (Nat.succ_pos _)
        exact Or.inr ⟨_, List.getElem_mem hchosen, List.getElem?_eq_getElem hchosen⟩
    | integer | text | list => exact Or.inl ⟨rfl, rfl⟩

end Store

end BoundedStore
