import BoundedStore.Proofs.Store.Results
import BoundedStore.Proofs.Store.WellFormed

/-!
# A move neither loses nor duplicates members

A move takes the member out of its source and then adds it to its destination. Between the two a
key may be evicted, and the two may be one set; still the member is in the destination once, and the
source has all its other members.

The two writes are known beforehand (`Moves.changes_eq`), so what is found afterwards is what was
written last, except at the victim. The destination is none (`Moves.victim?_ne`): either it is live,
and nothing goes, or it is not yet a key that could go. The source is one only in a store of one,
where it is the only key.
-/

namespace BoundedStore

open Bounded Bounded.Change

/-! ## When a move is made -/

namespace Store

theorem admitsSet_iff (s : Store) (key : String) :
    s.admitsSet key = true ↔
      s.contains key = false ∨ ∃ members, s.find? key = some (.set members) := by
  have hlive : s.contains key = (s.find? key).isSome := rfl
  rw [hlive]
  unfold admitsSet
  cases s.find? key with
  | none => simp
  | some found => cases found <;> simp [Value.kind]

theorem fst_moveMember_eq_true_iff (s : Store) (source destination : String) (member : Value) :
    (s.moveMember source destination member).1 = .ok true ↔
      (∃ members, s.find? source = some (.set members) ∧ Members.has members member = true) ∧
      s.admitsSet destination = true := by
  rw [(s.settles_moveMember source destination member).eq_ok_iff, admitsSet_eq, not_or,
    Bool.not_eq_true']
  constructor
  · rintro ⟨⟨-, hright⟩, hmember⟩
    cases hset : s.set? source with
    | none => simp [setMembers, hset, Members.has] at hmember
    | some members =>
      have hfind := find?_of_set? hset
      have hhas : Members.has members member = true := by
        simpa [setMembers, hset] using hmember.symm
      have hholds : s.holds .set source = true := by simp [holds, hfind, Value.kind]
      refine ⟨⟨members, hfind, hhas⟩, ?_⟩
      rw [Bool.eq_false_iff]
      exact fun hother => hright ⟨hholds, hother⟩
  · rintro ⟨⟨members, hfind, hhas⟩, hfits⟩
    simpa [holdsOther, holds, setMembers, set?, hfind, hhas, Value.kind] using hfits

end Store

namespace Operation

/-- The move of `member` is made: the source is a set that has it, and the destination can be a
set. -/
structure Moves (s : Store) (source destination : String) (member : Value) (before : Members) :
    Prop where
  source_eq : s.find? source = some (.set before)
  has_member : Members.has before member = true
  admits : s.admitsSet destination = true

section Move

variable {s : Store} {source destination : String} {member : Value} {before : Members}

theorem fst_moveMember_iff :
    (perform s (.command (.moveMember source destination member))).1 = .flag true ↔
      (∃ members, s.find? source = some (.set members) ∧ Members.has members member = true) ∧
      s.admitsSet destination = true := by
  rw [← s.fst_moveMember_eq_true_iff]
  show Outcome.orRefused .flag (s.moveMember source destination member).1 = _ ↔ _
  cases (s.moveMember source destination member).1 with
  | ok moved => simp [Outcome.orRefused]
  | error e => simp [Outcome.orRefused]

/-! ## What is written, and who goes -/

theorem Moves.changes_eq (h : Moves s source destination member before) :
    changes s (.command (.moveMember source destination member)) =
      [.write source (.set (Members.remove before member)),
        .write destination (s.moved source destination before member)] := by
  simp only [changes, Store.moving, h.source_eq, if_pos h.admits, if_pos h.has_member]

theorem Moves.uses_eq (h : Moves s source destination member before) :
    uses s (.command (.moveMember source destination member)) = [source, destination] := by
  simp only [uses, h.source_eq, if_pos h.admits, if_pos h.has_member]

theorem Moves.source_live (h : Moves s source destination member before) :
    s.contains source = true :=
  Store.contains_of_find? h.source_eq

/-- A move between live keys evicts nothing. -/
theorem Moves.victim?_eq_none (h : Moves s source destination member before)
    (hdestination : s.contains destination = true) :
    victim? s (.command (.moveMember source destination member)) = none := by
  refine victim?_eq_none_of_live fun key hkey => ?_
  rw [h.uses_eq, List.mem_pair] at hkey
  rcases hkey with rfl | rfl
  · exact h.source_live
  · exact hdestination

theorem Moves.victim?_ne (h : Moves s source destination member before) :
    victim? s (.command (.moveMember source destination member)) ≠ some destination := by
  intro hvictim
  -- a victim is live, and a move between live keys has none
  rw [h.victim?_eq_none (victim?_live_of_some hvictim)] at hvictim
  cases hvictim

/-- A new destination takes a key's place in a full store. -/
theorem Moves.exists_victim (h : Moves s source destination member before) (hvalid : s.map.Valid)
    (habsent : s.contains destination = false) (hfull : s.length = s.capacity) :
    ∃ victim, victim? s (.command (.moveMember source destination member)) = some victim := by
  unfold victim?
  rw [h.uses_eq]
  exact hvalid.exists_victim? hfull ⟨destination, by simp, habsent⟩

/-! ## What a move leaves -/

theorem Moves.find?_destination (h : Moves s source destination member before)
    (hvalid : s.map.Valid) :
    (perform s (.command (.moveMember source destination member))).2.find? destination =
      some (s.moved source destination before member) := by
  have hnot : ¬ ((Operation.command (.moveMember source destination member)) =
        .command (.remove destination) ∨
      victim? s (.command (.moveMember source destination member)) = some destination) :=
    not_or.mpr ⟨nofun, h.victim?_ne⟩
  rw [find?_perform hvalid, if_neg hnot, h.changes_eq]
  simp [lastWritten]

/-- The source holds in `t` the members that it holds in `s`, without `member`. -/
def GaveUp (s t : Store) (source : String) (member : Value) : Prop :=
  ∃ before after, s.find? source = some (.set before) ∧ t.find? source = some (.set after) ∧
    Members.TakenOut before after member

/-- A source that is not the destination gives the member up, unless it is evicted. -/
theorem Moves.gaveUp (h : Moves s source destination member before) (hvalid : s.map.Valid)
    (hbefore : Members.WellFormed before) (hmember : member.WellFormed)
    (hne : source ≠ destination) :
    GaveUp s (perform s (.command (.moveMember source destination member))).2 source member ∨
      (s.capacity = 1 ∧
        victim? s (.command (.moveMember source destination member)) = some source) := by
  have hdrained : drained? (.command (.moveMember source destination member)) = some source := by
    simp [drained?, hne]
  refine (find?_perform_drained hvalid hdrained h.source_eq).imp_left fun hfind => ?_
  have hleft : remainder s (.command (.moveMember source destination member)) (.set before) =
      .set (Members.remove before member) := by
    simp [remainder, h.admits]
  rw [hleft] at hfind
  exact ⟨before, _, h.source_eq, hfind, Members.takenOut_remove hbefore hmember h.has_member⟩

/-- The store `t` after a move that was made in `s`. -/
structure Moved (s t : Store) (source destination : String) (member : Value) : Prop where
  /-- The member was in the source, and is in the destination exactly once. -/
  arrived : (∃ members, s.find? source = some (.set members) ∧
      Members.has members member = true) ∧
    ∃ members, t.find? destination = some (.set members) ∧ members.countP member.same = 1
  /-- Within one set nothing comes and nothing goes. -/
  within : source = destination → ∃ members kept, s.find? source = some (.set members) ∧
    t.find? source = some (.set kept) ∧ Members.Agree members kept
  /-- Between two sets the one gives the member up, and the other has it behind its own members,
  unless it is one of them already. -/
  between : source ≠ destination → ∀ others, s.find? destination = some (.set others) →
    GaveUp s t source member ∧
      t.find? destination =
        some (.set (if Members.has others member then others else others ++ [member]))
  /-- A destination that is made has the one member. In a full store it takes the place of a third
  key, and in a store of one the place of the source. -/
  made : s.contains destination = false →
    t.find? destination = some (.set [member]) ∧
      (2 ≤ s.capacity → GaveUp s t source member ∧
        (s.length = s.capacity → ∃ victim, victim ≠ source ∧ LosesOnly s t victim)) ∧
      (s.capacity = 1 → LosesOnly s t source)

/-- In a store of one a live key is the only one, and there is room for no other. -/
theorem only_key_of_capacity_one (hvalid : s.map.Valid) (hone : s.capacity = 1) {key : String}
    (hlive : s.contains key = true) :
    s.length = s.capacity ∧ ∀ other, s.contains other = true → other = key := by
  have hkey := (hvalid.mem_keys_iff key).mpr hlive
  have hpos : 0 < s.map.recency.keys.length := List.length_pos_of_mem hkey
  have hlength : s.length = s.map.recency.keys.length := hvalid.length_eq
  have hle : s.length ≤ s.capacity := hvalid.length_le
  refine ⟨by omega, fun other hother => ?_⟩
  obtain ⟨only, hkeys⟩ := List.length_eq_one_iff.mp (by omega : s.map.recency.keys.length = 1)
  have hother := (hvalid.mem_keys_iff other).mpr hother
  rw [hkeys, List.mem_singleton] at hkey hother
  exact hother.trans hkey.symm

theorem Moves.made (h : Moves s source destination member before) (hvalid : s.map.Valid)
    (hbefore : Members.WellFormed before) (hmember : member.WellFormed)
    (habsent : s.contains destination = false) :
    let t := (perform s (.command (.moveMember source destination member))).2
    t.find? destination = some (.set [member]) ∧
      (2 ≤ s.capacity → GaveUp s t source member ∧
        (s.length = s.capacity → ∃ victim, victim ≠ source ∧ LosesOnly s t victim)) ∧
      (s.capacity = 1 → LosesOnly s t source) := by
  have hne : source ≠ destination := by
    rintro rfl
    exact Bool.false_ne_true (habsent.symm.trans h.source_live)
  have hnone : s.find? destination = none := (peek_eq_none_iff s.map destination).mpr habsent
  have hremove : ∀ key, Operation.command (.moveMember source destination member) ≠
      .command (.remove key) := nofun
  refine ⟨?made, fun hroom => ⟨?source, fun hfull => ?third⟩, fun hone => ?single⟩
  case made =>
    rw [h.find?_destination hvalid]
    simp [Store.moved, hne, hnone, Members.add, Members.has]
  case source =>
    rcases h.gaveUp hvalid hbefore hmember hne with hgave | ⟨hone, -⟩
    · exact hgave
    · omega
  case third =>
    obtain ⟨victim, hvictim⟩ := h.exists_victim hvalid habsent hfull
    refine ⟨victim, ?_, losesOnly_of_victim? hvalid hremove hvictim⟩
    rintro rfl
    have hdrained : drained? (.command (.moveMember victim destination member)) = some victim := by
      simp [drained?, hne]
    have hone := capacity_eq_one_of_drained_victim hvalid hdrained hvictim
    omega
  case single =>
    obtain ⟨hfull, honly⟩ := only_key_of_capacity_one hvalid hone h.source_live
    obtain ⟨victim, hvictim⟩ := h.exists_victim hvalid habsent hfull
    obtain rfl := honly victim (victim?_live_of_some hvictim)
    exact losesOnly_of_victim? hvalid hremove hvictim

theorem Moves.moved (h : Moves s source destination member before) (hvalid : s.map.Valid)
    (hwell : s.WellFormed) (hmember : member.WellFormed) :
    Moved s (perform s (.command (.moveMember source destination member))).2 source destination
      member := by
  have hbefore := Members.wellFormed_of_set (hwell source _ h.source_eq)
  have hfind := h.find?_destination hvalid
  refine ⟨⟨⟨before, h.source_eq, h.has_member⟩, ?arrived⟩, ?within, ?between, ?made⟩
  case arrived =>
    have hmoved := Value.byParts_wellFormed.holds_moved hwell h.source_eq hmember destination
    have hinto := Members.wellFormed_of_set hmoved
    exact ⟨_, hfind, Members.countP_same_eq_one hinto hmember (Members.has_add_self _ member)⟩
  case within =>
    rintro rfl
    refine ⟨before, _, h.source_eq, ?_, Members.agree_add_remove hbefore hmember h.has_member⟩
    simpa [Store.moved] using hfind
  case between =>
    intro hne others hothers
    constructor
    · rcases h.gaveUp hvalid hbefore hmember hne with hgave | ⟨-, hvictim⟩
      · exact hgave
      · rw [h.victim?_eq_none (Store.contains_of_find? hothers)] at hvictim
        cases hvictim
    · rw [hfind]
      simp only [Store.moved, if_neg hne, hothers]
      rfl
  case made => exact h.made hvalid hbefore hmember

end Move

/-- **A move neither loses nor duplicates members.** In every store that operations lead to, a move
is made exactly when its source is a set that has the member and its destination is absent or a set.
Then the destination has the member once, and the source, unless it is the destination, has its
other members and not this one; only in a store of one can it be the source that goes. -/
theorem move_conserves_members {s : Store} (h : s.Attained) {member : Value}
    (hmember : member.WellFormed) (source destination : String) :
    let moved := perform s (.command (.moveMember source destination member))
    (moved.1 = .flag true ↔
      (∃ members, s.find? source = some (.set members) ∧ Members.has members member = true) ∧
      (s.contains destination = false ∨ ∃ others, s.find? destination = some (.set others))) ∧
    (moved.1 = .flag true → Moved s moved.2 source destination member) := by
  constructor
  · rw [← s.admitsSet_iff destination]
    exact fst_moveMember_iff
  · intro hflag
    obtain ⟨⟨before, hsource, hhas⟩, hadmits⟩ := fst_moveMember_iff.mp hflag
    have hmoves : Moves s source destination member before := ⟨hsource, hhas, hadmits⟩
    exact hmoves.moved h.reachable.valid h.wellFormed hmember

/-- In a full store of two a set is moved out of a set of sets, under another order of its members
than the one it was added with. The key that goes is neither the source nor the destination. -/
theorem moved_set_evicts_third :
    ∃ s, s.Attained ∧ (Value.set [.integer 2, .integer 1]).WellFormed ∧ s.length = s.capacity ∧
      s.find? "s" = some (.set [.set [.integer 1, .integer 2], .text "x"]) ∧
      (perform s (.command (.moveMember "s" "d" (.set [.integer 2, .integer 1])))).1 =
        .flag true ∧
      (perform s (.command (.moveMember "s" "d" (.set [.integer 2, .integer 1])))).2.find? "s" =
        some (.set [.text "x"]) ∧
      (perform s (.command (.moveMember "s" "d" (.set [.integer 2, .integer 1])))).2.contains "a" =
        false ∧
      Moved s (perform s (.command (.moveMember "s" "d" (.set [.integer 2, .integer 1])))).2
        "s" "d" (.set [.integer 2, .integer 1]) := by
  have hnew := Store.new_eq_ok_iff.mpr
    ⟨(by decide : 1 ≤ 2), (rfl : _ = (⟨⟨[], .empty, 2, 0⟩, ⟨fun _ => 0, 0⟩, 0, 0⟩ : Store))⟩
  have hadded : (Value.set [.integer 1, .integer 2]).WellFormed :=
    (Members.WellFormed.ofList (by simp [Value.WellFormed] :
      ∀ x ∈ [Value.integer 1, .integer 2], x.WellFormed)).set
  have hmember : (Value.set [.integer 2, .integer 1]).WellFormed :=
    (Members.WellFormed.ofList (by simp [Value.WellFormed] :
      ∀ x ∈ [Value.integer 2, .integer 1], x.WellFormed)).set
  have hops : ∀ op ∈ [Operation.command (.addMember "s" (.set [.integer 1, .integer 2])),
      .command (.addMember "s" (.text "x")), .command (.store "a" (.text "y"))],
      op.WellFormed := by
    simpa [Operation.WellFormed, Command.WellFormed, Command.operands] using
      ⟨hadded, by simp [Value.WellFormed]⟩
  have hattained := (⟨2, _, _, _, hops, hnew, rfl⟩ : Store.Attained _)
  have hmoved := move_conserves_members hattained hmember "s" "d"
  have hflag := hmoved.1.mpr ⟨⟨_, rfl, by decide⟩, Or.inl (by decide)⟩
  exact ⟨_, hattained, hmember, by decide, by decide, hflag, by decide, by decide, hmoved.2 hflag⟩

end Operation

end BoundedStore
