import BoundedStore.Command.Execute
import BoundedStore.Proofs.Store.Results

/-!
# What a client is answered

The only refusal that reaches a client is that of removing an absent key. Everything else is a
reply, and `Answers` is the table of these replies: for each command, what the reply is for an
absent key, for a value of the kind that the command works on, and for one of another kind.

An operation that tells a wrong kind apart settles, with its result or with a refusal of the wrong
type. One lemma a converter turns either into a reply (`Settles.count`, `Settles.values`), so what
remains of each such operation is that it settles. Of the others it remains what they result in, by
the kinds of the value at their key.
-/

namespace BoundedStore

/-! ## The table of replies -/

namespace Reply

/-- A number, which is minus one exactly where the kind is wrong. -/
def IsCount (r : Reply) (wrong : Prop) (n : Nat) : Prop :=
  (r = integer (-1) ↔ wrong) ∧ (¬ wrong → r = integer n)

/-- A collection, which is not applicable exactly where the kind is wrong. -/
def IsValues (r : Reply) (wrong : Prop) (vs : List Value) : Prop :=
  (r = notApplicable ↔ wrong) ∧ (¬ wrong → r = values vs)

end Reply

/-- The replies that a command can get, from what the store holds before it. -/
def Answers (s : Store) : Command → Reply → Prop
  | .store .., r | .replace .., r | .remove _, r => r = .ok
  | .get key, r =>
    (r = .nil ↔ s.contains key = false) ∧ ∀ v, s.find? key = some v → r = .value v
  | .push _ key _, r => r = .bool (!s.holdsOther .list key)
  | .pop side key, r =>
    (r = .nil ↔ s.listItems key = []) ∧
      ∀ v rest, Items.pop? side (s.listItems key) = some (v, rest) → r = .value v
  | .itemAt key index, r =>
    (r = .nil ↔ s.holds .list key = false) ∧ (s.holds .list key = true →
      r = .value ((if 0 ≤ index.toInt then (s.listItems key)[index.toInt.toNat]? else none).getD
        (.text "")))
  | .listLength key, r => r.IsCount (s.holdsOther .list key = true) (s.listItems key).length
  | .setItem key index _, r =>
    r = .bool (s.holds .list key &&
      decide (0 ≤ index.toInt ∧ index.toInt < (s.listItems key).length))
  | .listRange key start stop, r =>
    r.IsValues (s.holdsOther .list key = true) (Items.slice (s.listItems key) start stop)
  | .trimList key _ _, r => r = .bool (s.holds .list key)
  | .removeItems key count target, r =>
    r = .integer ((s.listItems key).length -
      (Items.remove (s.listItems key) count target).length : Nat)
  | .addMember key member, r =>
    r.IsCount (s.holdsOther .set key = true) (!Members.has (s.setMembers key) member).toNat
  | .removeMember key member, r | .isMember key member, r =>
    r.IsCount (s.holdsOther .set key = true) (Members.has (s.setMembers key) member).toNat
  | .cardinality key, r => r.IsCount (s.holdsOther .set key = true) (s.setMembers key).length
  | .members key, r => r.IsValues (s.holdsOther .set key = true) (s.setMembers key)
  | .combine algebra keys, r =>
    r.IsValues (∃ key ∈ keys, s.holdsOther .set key = true) (algebra.combine (keys.map s.set?))
  | .combineInto _ keys, r => r.IsCount (∃ key ∈ keys.tail, s.holdsOther .set key = true) 1
  | .moveMember source destination member, r =>
    r.IsCount (s.holdsOther .set source = true ∨
        (s.holds .set source = true ∧ s.holdsOther .set destination = true))
      (Members.has (s.setMembers source) member).toNat
  | .popMember key, r | .randomMember key, r =>
    (r = .nil ↔ s.setMembers key = []) ∧
      (s.setMembers key ≠ [] → ∃ v ∈ s.setMembers key, r = .value v)

/-! ## Settled results as replies -/

namespace Settles

variable {wrong : Prop}

theorem count {result : Except StoreError Nat} {n : Nat} (h : Settles result wrong n) :
    ∃ r, Execution.ofCount result = .ok r ∧ r.IsCount wrong n := by
  by_cases hwrong : wrong
  · obtain ⟨detail, hrefused⟩ := h.refused hwrong
    exact ⟨.integer (-1), by rw [hrefused]; rfl, by simp [Reply.IsCount, hwrong]⟩
  · -- a count is never negative, so it is not taken for the mark of a wrong kind
    have hne : (n : Int) ≠ -1 := by omega
    exact ⟨.integer n, by rw [h.ok hwrong]; rfl, by simp [Reply.IsCount, hwrong, hne]⟩

theorem flag {result : Except StoreError Bool} {b : Bool} (h : Settles result wrong b) :
    ∃ r, Execution.ofFlag result = .ok r ∧ r.IsCount wrong b.toNat :=
  (h.map Bool.toNat).count

theorem values {result : Except StoreError (List Value)} {vs : List Value}
    (h : Settles result wrong vs) :
    ∃ r, Execution.ofValues result = .ok r ∧ r.IsValues wrong vs := by
  by_cases hwrong : wrong
  · obtain ⟨detail, hrefused⟩ := h.refused hwrong
    exact ⟨.notApplicable, by rw [hrefused]; rfl, by simp [Reply.IsValues, hwrong]⟩
  · exact ⟨.values vs, by rw [h.ok hwrong]; rfl, by simp [Reply.IsValues, hwrong]⟩

end Settles

namespace Store

variable (s : Store) (key : String)

/-! ## Storing -/

/-- One attempt is enough: a key is absent and then made, or live and then overwritten. -/
theorem storeOrReplace_succ (value : Value) (attempts : Nat) :
    s.storeOrReplace key value (attempts + 1) = (.ok .ok, s.write key value.coerce) := by
  unfold storeOrReplace create replace
  cases hfind : s.find? key with
  | none =>
    have habsent : s.map.contains key = false := (find?_eq_none_iff s key).mp hfind
    simp [habsent]
  | some old =>
    have hlive : s.map.contains key = true := contains_of_find? hfind
    simp [hlive, hfind]

/-! ## Every command is answered -/

/-- The command is not refused, and its reply is in the table. -/
def Answered (c : Command) : Prop :=
  ∃ r, (s.execute c).1 = .ok r ∧ Answers s c r

theorem answered_get : s.Answered (.get key) := by
  have hreply : (s.execute (.get key)).1 = Execution.ofLookup (s.get key).1 := rfl
  cases hfind : s.find? key with
  | none =>
    refine ⟨.nil, by simp [hreply, get, hfind, Execution.ofLookup], ?_⟩
    simp [Answers, contains_eq_isSome, hfind]
  | some value =>
    refine ⟨.value value, by simp [hreply, get, hfind, Execution.ofLookup], ?_⟩
    simp [Answers, contains_eq_isSome, hfind]

theorem answered_pop (side : Side) : s.Answered (.pop side key) := by
  refine ⟨.ofOption (s.pop side key).1, rfl, ?_⟩
  rw [fst_pop]
  cases htaken : Items.pop? side (s.listItems key) with
  | none =>
    have hempty := Items.pop?_eq_none_iff.mp htaken
    exact ⟨iff_of_true rfl hempty, fun v rest h => by simp [htaken] at h⟩
  | some taken =>
    have hitems : s.listItems key ≠ [] := fun hempty => by
      rw [Items.pop?_eq_none_iff.mpr hempty] at htaken
      cases htaken
    refine ⟨iff_of_false (by simp [Reply.ofOption]) hitems, fun v rest h => ?_⟩
    rw [htaken, Option.some.injEq] at h
    simp [h, Reply.ofOption]

theorem answered_itemAt (index : Int64) : s.Answered (.itemAt key index) := by
  refine ⟨.ofOption (s.itemAt key index).1, rfl, ?_⟩
  have hholds := s.holds_list_eq_isSome key
  rw [fst_itemAt]
  cases hlist : s.list? key with
  | none =>
    rw [hlist] at hholds
    exact ⟨iff_of_true rfl hholds, fun h => absurd h (by simp [hholds])⟩
  | some items =>
    rw [hlist] at hholds
    have hitems : s.listItems key = items := by simp [listItems, hlist]
    refine ⟨iff_of_false (by simp [Reply.ofOption]) (by simp [hholds]), fun _ => ?_⟩
    rw [hitems]
    rfl

/-- What a random operation answers is nil for the empty set, and a member otherwise. -/
theorem answers_random {v : Option Value} (h : v = (s.randomMember key).1) :
    (Reply.ofOption v = .nil ↔ s.setMembers key = []) ∧
      (s.setMembers key ≠ [] → ∃ m ∈ s.setMembers key, Reply.ofOption v = .value m) := by
  rcases s.fst_randomMember key with ⟨hempty, hnone⟩ | ⟨m, hmember, hsome⟩
  · rw [h, hnone]
    exact ⟨iff_of_true rfl hempty, fun hne => absurd hempty hne⟩
  · rw [h, hsome]
    have hne : s.setMembers key ≠ [] := List.ne_nil_of_mem hmember
    exact ⟨iff_of_false (by simp [Reply.ofOption]) hne, fun _ => ⟨m, hmember, rfl⟩⟩

/-- Removing is the one command that can be refused. -/
theorem answered_of_not_remove {c : Command} (h : ¬ ∃ key, c = .remove key) : s.Answered c := by
  cases c with
  | store key value => exact ⟨.ok, congrArg Prod.fst (s.storeOrReplace_succ key value 2), rfl⟩
  | get key => exact s.answered_get key
  | remove key => exact absurd ⟨key, rfl⟩ h
  | replace key value => exact ⟨.ok, rfl, rfl⟩
  | push side key value => exact ⟨_, rfl, congrArg Reply.bool (s.fst_push key side value)⟩
  | pop side key => exact s.answered_pop key side
  | itemAt key index => exact s.answered_itemAt key index
  | listLength key =>
    exact ((s.settles_itemsAt key).map fun items => (items.getD []).length).count
  | setItem key index value => exact ⟨_, rfl, congrArg Reply.bool (s.fst_setItem key index value)⟩
  | listRange key start stop =>
    exact ((s.settles_itemsAt key).map fun items => Items.slice (items.getD []) start stop).values
  | trimList key start stop =>
    exact ⟨_, rfl, congrArg Reply.bool (s.fst_trimList key start stop)⟩
  | removeItems key count target =>
    exact ⟨_, rfl, congrArg (fun n : Nat => Reply.integer n) (s.fst_removeItems key count target)⟩
  | addMember key member => exact (s.settles_addMember key member).flag
  | removeMember key member => exact (s.settles_removeMember key member).flag
  | isMember key member =>
    exact ((s.settles_membersAt key).map fun members => Members.has (members.getD []) member).flag
  | cardinality key =>
    exact ((s.settles_membersAt key).map fun members => (members.getD []).length).count
  | members key => exact ((s.settles_membersAt key).map fun members => members.getD []).values
  | combine algebra keys => exact ((s.settles_setsAt keys).map algebra.combine).values
  | combineInto algebra keys => exact (s.settles_combineInto algebra keys).count
  | moveMember source destination member =>
    exact (s.settles_moveMember source destination member).flag
  | popMember key => exact ⟨_, rfl, s.answers_random key (s.fst_popMember key)⟩
  | randomMember key => exact ⟨_, rfl, s.answers_random key rfl⟩

theorem fst_execute_remove : (s.execute (.remove key)).1 =
    if s.contains key then .ok .ok else .error (.nonExistentKey key) := by
  have hreply : (s.execute (.remove key)).1 = (s.remove key).1.map fun _ => .ok := rfl
  rw [hreply, fst_remove]
  cases s.contains key <;> rfl

theorem answered_or_refused (c : Command) :
    s.Answered c ∨ ∃ key, c = .remove key ∧ s.contains key = false ∧
      (s.execute c).1 = .error (.nonExistentKey key) := by
  by_cases hremove : ∃ key, c = .remove key
  · obtain ⟨key, rfl⟩ := hremove
    have hreply := s.fst_execute_remove key
    cases hlive : s.contains key with
    | true => exact Or.inl ⟨.ok, by rw [hreply, if_pos hlive], rfl⟩
    | false => exact Or.inr ⟨key, rfl, hlive, by rw [hreply, hlive]; rfl⟩
  · exact Or.inl (s.answered_of_not_remove hremove)

/-- **Clients are answered by the table.** A command is refused exactly when it removes an absent
key, and then for that. Every other one is answered as the table says. A `store` succeeds on its
first attempt, whether or not the key was live, and leaves the coerced value there. -/
theorem execute_answers (c : Command) :
    (∀ e, (s.execute c).1 = .error e ↔
      ∃ key, c = .remove key ∧ s.contains key = false ∧ e = .nonExistentKey key) ∧
    (∀ r, (s.execute c).1 = .ok r → Answers s c r) ∧
    ∀ key value, c = .store key value →
      s.execute c = s.storeOrReplace key value 1 ∧
        (s.execute c).1 = .ok .ok ∧ (s.execute c).2.find? key = some value.coerce := by
  refine ⟨fun e => ?refused, fun r hr => ?answered, ?stored⟩
  case refused =>
    rcases s.answered_or_refused c with ⟨r, hr, -⟩ | ⟨key, rfl, habsent, hrefused⟩
    · rw [hr]
      refine iff_of_false (by simp) ?_
      rintro ⟨key, rfl, habsent, -⟩
      rw [fst_execute_remove, habsent] at hr
      cases hr
    · constructor
      · intro h
        exact ⟨key, rfl, habsent, (Except.error.inj (hrefused.symm.trans h)).symm⟩
      · rintro ⟨other, hkey, -, rfl⟩
        rw [← Command.remove.inj hkey]
        exact hrefused
  case answered =>
    rcases s.answered_or_refused c with ⟨answer, hanswer, hanswers⟩ | ⟨key, -, -, hrefused⟩
    · exact Except.ok.inj (hanswer.symm.trans hr) ▸ hanswers
    · cases hrefused.symm.trans hr
  case stored =>
    rintro key value rfl
    have hexecute : s.execute (.store key value) = (.ok .ok, s.write key value.coerce) :=
      s.storeOrReplace_succ key value 2
    rw [hexecute, s.storeOrReplace_succ key value 0]
    exact ⟨rfl, rfl, s.find?_write_self key value.coerce⟩

end Store

end BoundedStore
