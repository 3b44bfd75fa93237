import BoundedStore.Proofs.Store.Results
import BoundedStore.Proofs.Store.WellFormed
import BoundedStore.Proofs.Value.Classes

/-!
# A stored set is a finite set

Six operations work on the members of one set: they add, remove, test, count and list members, and
take out a random one. `SetStep` says how a finite set with a list of its members answers them, in
the language of finite sets: nothing in it mentions a store. `SetRun` chains such steps over the
trace of a run.

The set at a key of a store is such a set at every moment of every run, as long as the values that
the operations are given are well-formed and nothing but the six writes at the key. A key that is
absent counts as the empty set, which its first member makes live.
-/

namespace BoundedStore

/-! ## How a finite set answers -/

/-- Whether an operation is one of the six on the members of the set at `key`. -/
def Operation.onMembers (key : String) : Operation → Bool
  | command (.addMember other _) | command (.removeMember other _) | command (.isMember other _)
  | command (.cardinality other) | command (.members other) | command (.popMember other) =>
    other == key
  | _ => false

/-- An operation on the set `a` at `key`, its outcome, and the set afterwards. -/
inductive SetStep (key : String) (a b : ListedSet) : Operation → Outcome → Prop
  /-- A new member goes last. -/
  | added (x : Value) (hnew : x.toClass ∉ a.contents)
      (hcontents : b.contents = insert x.toClass a.contents)
      (hlisting : b.listing = a.listing ++ [x]) :
      SetStep key a b (.command (.addMember key x)) (.flag true)
  /-- A member that is there already changes nothing. -/
  | kept (x : Value) (hold : x.toClass ∈ a.contents) (hsame : b = a) :
      SetStep key a b (.command (.addMember key x)) (.flag false)
  | removed (x : Value) (i : Nat) (hold : x.toClass ∈ a.contents)
      (hposition : (a.listing[i]?).map Value.toClass = some x.toClass)
      (hcontents : b.contents = a.contents.erase x.toClass)
      (hlisting : Members.TakenAt a.listing b.listing i) :
      SetStep key a b (.command (.removeMember key x)) (.flag true)
  | missed (x : Value) (hnew : x.toClass ∉ a.contents) (hsame : b = a) :
      SetStep key a b (.command (.removeMember key x)) (.flag false)
  | tested (x : Value) (hsame : b = a) :
      SetStep key a b (.command (.isMember key x)) (.flag (decide (x.toClass ∈ a.contents)))
  | counted (hsame : b = a) :
      SetStep key a b (.command (.cardinality key)) (.count a.contents.card)
  | listed (hsame : b = a) : SetStep key a b (.command (.members key)) (.values a.listing)
  | popped (m : Value) (i : Nat) (hposition : a.listing[i]? = some m)
      (hcontents : b.contents = a.contents.erase m.toClass)
      (hlisting : Members.TakenAt a.listing b.listing i) :
      SetStep key a b (.command (.popMember key)) (.value (some m))
  | exhausted (hempty : a.contents = ∅) (hsame : b = a) :
      SetStep key a b (.command (.popMember key)) (.value none)
  /-- Other operations do not change the set. -/
  | other (op : Operation) (outcome : Outcome) (hother : op.onMembers key = false) (hsame : b = a) :
      SetStep key a b op outcome

/-- The steps of a trace, one after the other. -/
inductive SetRun (key : String) : ListedSet → List (Operation × Outcome) → ListedSet → Prop
  | nil (a : ListedSet) : SetRun key a [] a
  | cons {a b last : ListedSet} {op : Operation} {outcome : Outcome}
      {rest : List (Operation × Outcome)} :
      SetStep key a b op outcome → SetRun key b rest last →
      SetRun key a ((op, outcome) :: rest) last

/-! ## Steps of well-formed members -/

namespace SetStep

variable {key : String} {members : Members} (h : members.WellFormed) {x : Value}

theorem add (hx : x.WellFormed) :
    SetStep key (.ofMembers members h) (.ofMembers (members.add x) (h.add hx))
      (.command (.addMember key x)) (.flag !members.has x) := by
  have hmem := ListedSet.toClass_mem_ofMembers h hx
  cases hhas : members.has x with
  | true =>
    exact .kept x (hmem.mpr hhas) (ListedSet.ofMembers_congr (Members.add_of_has hhas) h (h.add hx))
  | false =>
    have hadd := Members.add_of_not_has hhas
    refine .added x (by simp [hmem, hhas]) ?_ hadd
    show ((members.add x).map Value.toClass).toFinset =
      insert x.toClass (members.map Value.toClass).toFinset
    rw [hadd]
    ext c
    simp

theorem remove (hx : x.WellFormed) :
    SetStep key (.ofMembers members h) (.ofMembers (members.remove x) (h.remove x))
      (.command (.removeMember key x)) (.flag (members.has x)) := by
  have hmem := ListedSet.toClass_mem_ofMembers h hx
  cases hposition : members.position? x with
  | none =>
    have hhas := (Members.position?_eq_none_iff members x).mp hposition
    rw [hhas]
    exact .missed x (by simp [hmem, hhas])
      (ListedSet.ofMembers_congr (Members.remove_of_not_has hhas) h (h.remove x))
  | some i =>
    obtain ⟨hi, hsame, -⟩ := List.findIdx?_eq_some_iff_getElem.mp hposition
    have hclass : members[i].toClass = x.toClass := ((Value.toClass_eq_iff hx _).mpr hsame).symm
    have hhas : members.has x = true :=
      (Members.has_iff members x).mpr ⟨members[i], List.getElem_mem hi, hsame⟩
    have hremove : members.remove x = members.removeAt i := by
      unfold Members.remove
      rw [hposition]
    rw [hhas]
    refine .removed x i (hmem.mpr hhas) ?_ ?_ ?_
    · show members[i]?.map Value.toClass = _
      rw [List.getElem?_eq_getElem hi, Option.map_some, hclass]
    · show ((members.remove x).map Value.toClass).toFinset = _
      rw [hremove, Members.classes_removeAt h hi, hclass]
      rfl
    · show Members.TakenAt members (members.remove x) i
      rw [hremove]
      exact Members.takenAt_removeAt hi

theorem pop {i : Nat} (hi : i < members.length) :
    SetStep key (.ofMembers members h) (.ofMembers (members.removeAt i) (h.removeAt hi))
      (.command (.popMember key)) (.value members[i]?) := by
  rw [List.getElem?_eq_getElem hi]
  exact .popped members[i] i (List.getElem?_eq_getElem hi) (Members.classes_removeAt h hi)
    (Members.takenAt_removeAt hi)

theorem test (hx : x.WellFormed) :
    SetStep key (.ofMembers members h) (.ofMembers members h) (.command (.isMember key x))
      (.flag (members.has x)) := by
  have hdecide : members.has x = decide (x.toClass ∈ (ListedSet.ofMembers members h).contents) :=
    Bool.eq_iff_iff.mpr (by simp [ListedSet.toClass_mem_ofMembers h hx])
  rw [hdecide]
  exact .tested x rfl

theorem count :
    SetStep key (.ofMembers members h) (.ofMembers members h) (.command (.cardinality key))
      (.count members.length) := by
  have hcard := (ListedSet.ofMembers members h).card_contents
  exact hcard ▸ .counted rfl

end SetStep

namespace Store

/-! ## The set at a key -/

/-- The members of the set at `key`, which are none when the key is absent. -/
inductive HasSet (s : Store) (key : String) : Members → Prop
  | live {members : Members} (h : s.find? key = some (.set members)) : HasSet s key members
  | absent (h : s.find? key = none) : HasSet s key []

section OneKey

variable {s : Store} {key : String} {members : Members} {x : Value}

theorem hasSet_setMembers (h : s.admitsSet key = true) : s.HasSet key (s.setMembers key) := by
  unfold admitsSet at h
  unfold setMembers set?
  cases hfind : s.find? key with
  | none => exact .absent hfind
  | some found =>
    rw [hfind] at h
    cases found with
    | set members => exact .live hfind
    | integer | text | list => cases h

theorem hasSet_write (s : Store) (key : String) (members : Members) :
    (s.write key (.set members)).HasSet key members :=
  .live (s.find?_write_self key (.set members))

namespace HasSet

theorem setMembers_eq (h : s.HasSet key members) : s.setMembers key = members := by
  unfold setMembers set?
  cases h with
  | live hfind => rw [hfind]; rfl
  | absent hnone => rw [hnone]; rfl

theorem congr {t : Store} (h : s.HasSet key members) (hfind : t.find? key = s.find? key) :
    t.HasSet key members := by
  cases h with
  | live hset => exact .live (hfind.trans hset)
  | absent hnone => exact .absent (hfind.trans hnone)

/-- What an operation makes of the members it makes of none when the key is absent. -/
theorem map_membersAt {α : Type} (h : s.HasSet key members) (f : Members → α) :
    ((s.membersAt key).map fun found => f (found.getD [])) = .ok (f members) := by
  unfold membersAt
  cases h with
  | live hfind => rw [hfind]; rfl
  | absent hnone => rw [hnone]; rfl

theorem addMember (h : s.HasSet key members) (x : Value) :
    (s.addMember key x).2.HasSet key (members.add x) := by
  cases h with
  | live hfind =>
    have hmembers : s.membersAt key = .ok (some members) := by simp [membersAt, hfind]
    unfold Store.addMember
    rw [hmembers]
    exact s.hasSet_write key (members.add x)
  | absent hnone =>
    have hmembers : s.membersAt key = .ok none := by simp [membersAt, hnone]
    unfold Store.addMember
    rw [hmembers]
    exact s.hasSet_write key [x]

theorem removeMember (h : s.HasSet key members) (x : Value) :
    (s.removeMember key x).2.HasSet key (members.remove x) := by
  cases h with
  | live hfind =>
    have hmembers : s.membersAt key = .ok (some members) := by simp [membersAt, hfind]
    unfold Store.removeMember
    rw [hmembers]
    exact s.hasSet_write key (members.remove x)
  | absent hnone =>
    have hmembers : s.membersAt key = .ok none := by simp [membersAt, hnone]
    unfold Store.removeMember
    rw [hmembers]
    exact .absent hnone

/-- From the empty set nothing is taken, and from any other one the member at some position. -/
theorem popMember (h : s.HasSet key members) :
    (members = [] ∧ (s.popMember key).1 = none ∧ (s.popMember key).2.HasSet key []) ∨
      ∃ i < members.length, (s.popMember key).1 = members[i]? ∧
        (s.popMember key).2.HasSet key (members.removeAt i) := by
  unfold Store.popMember
  cases h with
  | absent hnone =>
    rw [hnone]
    exact Or.inl ⟨rfl, rfl, .absent ((s.find?_use key key).trans hnone)⟩
  | live hfind =>
    rw [hfind]
    cases members with
    | nil => exact Or.inl ⟨rfl, rfl, .live ((s.find?_use key key).trans hfind)⟩
    | cons first rest =>
      have hi : (s.choices.pick (first :: rest).length).1 < (first :: rest).length :=
        Nat.mod_lt _ (Nat.succ_pos _)
      exact Or.inr ⟨_, hi, rfl, .live (s.find?_write_self key _)⟩

/-! ## Steps and runs -/

/-- An operation is answered as a finite set answers it, and leaves one. -/
theorem setStep (h : s.HasSet key members) (hmembers : members.WellFormed) {op : Operation}
    (hop : op.WellFormed)
    (hrest : op.onMembers key = false → (op.perform s).2.find? key = s.find? key) :
    ∃ next, ∃ hnext : Members.WellFormed next, (op.perform s).2.HasSet key next ∧
      SetStep key (.ofMembers members hmembers) (.ofMembers next hnext) op (op.perform s).1 := by
  by_cases hother : op.onMembers key = false
  · exact ⟨members, hmembers, h.congr (hrest hother), .other op _ hother rfl⟩
  -- the operation is one of the six, and on this key
  rw [Bool.not_eq_false] at hother
  have hused : (s.use key).HasSet key members := h.congr (s.find?_use key key)
  cases op with
  | contains | size | statistics => cases hother
  | command c =>
    cases c with
    | addMember other x =>
      obtain rfl : other = key := by simpa [Operation.onMembers] using hother
      have hx : x.WellFormed := hop "member" x (by simp [Command.operands])
      have houtcome : (Operation.perform s (.command (.addMember other x))).1 =
          .flag !members.has x := by
        show Outcome.orRefused .flag (s.addMember other x).1 = _
        rw [fst_addMember, h.map_membersAt fun members => !members.has x]
        rfl
      rw [houtcome]
      exact ⟨_, _, h.addMember x, .add hmembers hx⟩
    | removeMember other x =>
      obtain rfl : other = key := by simpa [Operation.onMembers] using hother
      have hx : x.WellFormed := hop "member" x (by simp [Command.operands])
      have houtcome : (Operation.perform s (.command (.removeMember other x))).1 =
          .flag (members.has x) := by
        show Outcome.orRefused .flag (s.removeMember other x).1 = _
        rw [fst_removeMember, h.map_membersAt fun members => members.has x]
        rfl
      rw [houtcome]
      exact ⟨_, _, h.removeMember x, .remove hmembers hx⟩
    | isMember other x =>
      obtain rfl : other = key := by simpa [Operation.onMembers] using hother
      have hx : x.WellFormed := hop "member" x (by simp [Command.operands])
      have houtcome : (Operation.perform s (.command (.isMember other x))).1 =
          .flag (members.has x) :=
        congrArg (Outcome.orRefused .flag) (h.map_membersAt fun members => members.has x)
      rw [houtcome]
      exact ⟨_, hmembers, hused, .test hmembers hx⟩
    | cardinality other =>
      obtain rfl : other = key := by simpa [Operation.onMembers] using hother
      have houtcome : (Operation.perform s (.command (.cardinality other))).1 =
          .count members.length :=
        congrArg (Outcome.orRefused .count) (h.map_membersAt List.length)
      rw [houtcome]
      exact ⟨_, hmembers, hused, .count hmembers⟩
    | members other =>
      obtain rfl : other = key := by simpa [Operation.onMembers] using hother
      have houtcome : (Operation.perform s (.command (.members other))).1 = .values members :=
        congrArg (Outcome.orRefused .values) (h.map_membersAt id)
      rw [houtcome]
      exact ⟨_, hmembers, hused, .listed rfl⟩
    | popMember other =>
      obtain rfl : other = key := by simpa [Operation.onMembers] using hother
      have houtcome : (Operation.perform s (.command (.popMember other))).1 =
          .value (s.popMember other).1 := rfl
      rw [houtcome]
      rcases h.popMember with ⟨rfl, hnone, hnext⟩ | ⟨i, hi, htaken, hnext⟩
      · rw [hnone]
        exact ⟨_, hmembers, hnext, .exhausted rfl rfl⟩
      · rw [htaken]
        exact ⟨_, _, hnext, .pop hmembers hi⟩
    | store | get | remove | replace | push | pop | itemAt | listLength | setItem | listRange
    | trimList | removeItems | combine | combineInto | moveMember | randomMember => cases hother

end HasSet

end OneKey

/-- Apart from the six operations on its members, a run leaves the value at `key` as it is. So does
every operation that neither has the key as a target nor evicts it
(`Operation.find?_perform_of_notMem_targets`). -/
def Undisturbed (key : String) (s : Store) : List Operation → Prop
  | [] => True
  | op :: rest =>
    (op.onMembers key = false → (op.perform s).2.find? key = s.find? key) ∧
      Undisturbed key (op.perform s).2 rest

instance decidableUndisturbed (key : String) :
    (s : Store) → (ops : List Operation) → Decidable (Undisturbed key s ops)
  | _, [] => isTrue trivial
  | s, op :: rest =>
    have := decidableUndisturbed key (op.perform s).2 rest
    inferInstanceAs (Decidable (_ ∧ _))

theorem HasSet.setRun {s : Store} {key : String} {members : Members} (h : s.HasSet key members)
    (hmembers : members.WellFormed) {ops : List Operation} (hops : ∀ op ∈ ops, op.WellFormed)
    (hrest : Undisturbed key s ops) :
    ∃ last, ∃ hlast : Members.WellFormed last, (Operation.run s ops).2.HasSet key last ∧
      SetRun key (.ofMembers members hmembers) (Operation.trace s ops)
        (.ofMembers last hlast) := by
  induction ops generalizing s members with
  | nil => exact ⟨members, hmembers, h, .nil _⟩
  | cons op rest ih =>
    obtain ⟨next, hnext, hset, hstep⟩ := h.setStep hmembers (hops op List.mem_cons_self) hrest.1
    obtain ⟨last, hlast, hend, hrun⟩ :=
      ih hset hnext (fun other hmem => hops other (List.mem_cons_of_mem op hmem)) hrest.2
    exact ⟨last, hlast, hend, .cons hstep hrun⟩

theorem HasSet.wellFormed {s : Store} {key : String} {members : Members}
    (h : s.HasSet key members) (hstore : s.WellFormed) : members.WellFormed := by
  cases h with
  | live hfind => exact Members.wellFormed_of_set (hstore key _ hfind)
  | absent => exact .nil

/-- **A stored set is a finite set.** In every store that operations on well-formed values lead to,
no set has equal members, at any depth. From there on take any run on such values that writes to a
key only by the six operations on its members and does not evict it. Each of these is answered as
a finite set answers it, and the members are listed in the order that the steps say. -/
theorem run_answers_as_finite_set {s : Store} (h : s.Attained) :
    s.WellFormed ∧
    ∀ (key : String) (ops : List Operation), s.admitsSet key = true →
      (∀ op ∈ ops, op.WellFormed) → Undisturbed key s ops →
      ∃ first last : ListedSet, first.listing = s.setMembers key ∧
        last.listing = (Operation.run s ops).2.setMembers key ∧
        SetRun key first (Operation.trace s ops) last := by
  refine ⟨h.wellFormed, fun key ops hadmits hops hrest => ?_⟩
  have hset := hasSet_setMembers hadmits
  have hmembers := hset.wellFormed h.wellFormed
  obtain ⟨last, hlast, hend, hrun⟩ := hset.setRun hmembers hops hrest
  exact ⟨.ofMembers _ hmembers, .ofMembers last hlast, rfl, hend.setMembers_eq.symm, hrun⟩

/-- A set of three in a full store of two. A member is found and removed in another spelling, and
the last one takes its place; in between a new key evicts the other key. -/
theorem run_answers_as_finite_set_nested :
    ∃ s : Store, s.Attained ∧ s.length = s.capacity ∧ s.contains "a" = true ∧
      s.setMembers "s" = [.set [.integer 1, .integer 2], .text "x"] ∧
      ∃ ops, ops = [Operation.command (.addMember "s" (.set [.integer 2, .integer 1])),
          .command (.addMember "s" (.integer 7)), .command (.store "b" (.text "y")),
          .command (.removeMember "s" (.set [.integer 2, .integer 1])),
          .command (.members "s")] ∧
        (Operation.run s ops).1 = [.flag false, .flag true, .done, .flag true,
          .values [.integer 7, .text "x"]] ∧
        (Operation.run s ops).2.contains "a" = false ∧
        ∃ first last : ListedSet, first.listing = s.setMembers "s" ∧
          last.listing = [.integer 7, .text "x"] ∧
          SetRun "s" first (Operation.trace s ops) last := by
  have hnew := new_eq_ok_iff.mpr
    ⟨(by decide : 1 ≤ 2), (rfl : _ = (⟨⟨[], .empty, 2, 0⟩, ⟨fun _ => 0, 0⟩, 0, 0⟩ : Store))⟩
  have hadded : (Value.set [.integer 1, .integer 2]).WellFormed :=
    (Members.WellFormed.ofList (by simp [Value.WellFormed] :
      ∀ x ∈ [Value.integer 1, .integer 2], x.WellFormed)).set
  have hspelled : (Value.set [.integer 2, .integer 1]).WellFormed :=
    (Members.WellFormed.ofList (by simp [Value.WellFormed] :
      ∀ x ∈ [Value.integer 2, .integer 1], x.WellFormed)).set
  have hbefore : ∀ op ∈ [Operation.command (.addMember "s" (.set [.integer 1, .integer 2])),
      .command (.addMember "s" (.text "x")), .command (.store "a" (.text "y"))],
      op.WellFormed := by
    simpa [Operation.WellFormed, Command.WellFormed, Command.operands, Value.WellFormed] using
      hadded
  have hops : ∀ op ∈ [Operation.command (.addMember "s" (.set [.integer 2, .integer 1])),
      .command (.addMember "s" (.integer 7)), .command (.store "b" (.text "y")),
      .command (.removeMember "s" (.set [.integer 2, .integer 1])), .command (.members "s")],
      op.WellFormed := by
    simpa [Operation.WellFormed, Command.WellFormed, Command.operands, Value.WellFormed] using
      hspelled
  have hattained := (⟨2, _, _, _, hbefore, hnew, rfl⟩ : Store.Attained _)
  obtain ⟨first, last, hfirst, hlast, hrun⟩ :=
    (run_answers_as_finite_set hattained).2 "s" _ (by decide) hops (by decide)
  exact ⟨_, hattained, by decide, by decide, by decide, _, rfl, by decide, by decide, first, last,
    hfirst, hlast.trans (by decide), hrun⟩

end Store

end BoundedStore
