import BoundedStore.Proofs.Bounded.Retention
import BoundedStore.Proofs.Store.Uses

/-!
# What was used lately is still there

A run of a store keeps a key from its use on, whatever else is done: fewer other keys than the
capacity may be used behind it, and nobody may remove it. The uses that count are those of
`Operation.uses`: a key is used when it is created and whenever an operation refreshes it.

The step is `keptSince_perform`. An operation is a list of changes, and only the removal of a key
has the change that removes it (`remove_notMem_changes`); as long as the key is live its removal
succeeds, so a run in which no removal of it succeeded has none.
-/

namespace BoundedStore

open Bounded Bounded.Change

namespace Operation

variable {s : Store} {key : String} {since : List String}

/-- An operation keeps a key, unless it removes it. -/
theorem keptSince_perform (h : s.map.KeptSince key since) (hvalid : s.map.Valid) {op : Operation}
    (hnot : (op, (op.perform s).1) ≠ (.command (.remove key), .done))
    (hfew : ((since ++ op.uses s).toFinset.erase key).card < s.map.capacity) :
    (op.perform s).2.map.KeptSince key (since ++ op.uses s) := by
  have hother : op ≠ .command (.remove key) := by
    rintro rfl
    -- the key is live, so its removal would have succeeded
    have hlive : s.contains key = true := h.live hvalid
    exact hnot (by rw [fst_perform_remove, if_pos hlive])
  rw [perform_map, ← usesAll_changes]
  rw [← usesAll_changes] at hfew
  exact h.applyAll hvalid (remove_notMem_changes hother) hfew

/-- A run keeps a key until somebody removes it. -/
theorem keptSince_run (h : s.map.KeptSince key since) (hvalid : s.map.Valid)
    {ops : List Operation} (hnot : (.command (.remove key), .done) ∉ trace s ops)
    (hfew : ((since ++ history s ops).toFinset.erase key).card < s.map.capacity) :
    (run s ops).2.map.KeptSince key (since ++ history s ops) := by
  induction ops generalizing s since with
  | nil => simpa [history, run] using h
  | cons op rest ih =>
    rw [trace_cons, List.mem_cons, not_or] at hnot
    rw [history, ← List.append_assoc] at hfew ⊢
    have hfirst := Nat.lt_of_le_of_lt (card_erase_le_of_append key _ _) hfew
    rw [← capacity_perform s op] at hfew
    exact ih (keptSince_perform h hvalid (Ne.symm hnot.1) hfirst) (valid_perform hvalid op)
      hnot.2 hfew

/-- An operation that uses a key keeps it to its end. -/
theorem keptSince_of_uses (hvalid : s.map.Valid) {op : Operation} {early late : List String}
    (huses : op.uses s = early ++ key :: late)
    (hfew : (late.toFinset.erase key).card < s.map.capacity) :
    (op.perform s).2.map.KeptSince key late := by
  have hother : op ≠ .command (.remove key) := by
    rintro rfl
    -- a removal uses nothing
    cases early <;> cases huses
  rw [perform_map]
  rw [← usesAll_changes] at huses
  exact hvalid.keptSince_applyAll_of_uses huses (remove_notMem_changes hother) hfew

/-- **What was used lately is still there.** Take any run, an operation `op` in it, and a key that
`op` creates or refreshes. If no removal of the key succeeds afterwards, and fewer other keys than
the capacity are created or refreshed behind that moment, in the rest of `op` or later, then the key
is live at the end. -/
theorem run_retains_recently_used {capacity : Nat} (hpos : 1 ≤ capacity) (choices : Choices) :
    ∃ start, Store.new capacity choices = .ok start ∧
      ∀ (before : List Operation) (op : Operation) (after : List Operation) (s t : Store)
        (key : String) (early late : List String),
        s = (run start before).2 → t = (op.perform s).2 →
        op.uses s = early ++ key :: late →
        (.command (.remove key), .done) ∉ trace t after →
        ((late ++ history t after).toFinset.erase key).card < capacity →
        (run start (before ++ op :: after)).2.contains key = true := by
  have hnew : Store.new capacity choices = .ok ⟨⟨[], .empty, capacity, 0⟩, choices, 0, 0⟩ :=
    Store.new_eq_ok_iff.mpr ⟨hpos, rfl⟩
  refine ⟨_, hnew, ?_⟩
  rintro before op after s t key early late rfl rfl huses hnot hfew
  rw [snd_run_append]
  generalize hs : (run _ before).2 = s at *
  have hvalid : s.map.Valid := hs ▸ valid_run (Store.valid_of_new hnew) before
  have hcapacity : s.map.capacity = capacity := hs ▸ capacity_run _ before
  rw [← hcapacity] at hfew
  have hlate := Nat.lt_of_le_of_lt (card_erase_le_of_append key _ _) hfew
  have hkept := keptSince_of_uses hvalid huses hlate
  rw [← capacity_perform s op] at hfew
  exact (keptSince_run hkept (valid_perform hvalid op) hnot hfew).live
    (valid_run (valid_perform hvalid op) after)

/-- In a store of two a set survives the move of its member to a new key, and one more key used
since would be too many. -/
theorem moved_source_retained :
    1 ≤ 2 ∧ ∃ start s t, Store.new 2 ⟨fun _ => 0, 0⟩ = .ok start ∧
      s = (run start
        [.command (.addMember "s" (.integer 7)), .command (.store "a" (.text "1"))]).2 ∧
      t = (perform s (.command (.moveMember "s" "d" (.integer 7)))).2 ∧
      uses s (.command (.moveMember "s" "d" (.integer 7))) = [] ++ "s" :: ["d"] ∧
      (.command (.remove "s"), .done) ∉ trace t [.command (.remove "b"), .command (.get "d")] ∧
      ((["d"] ++ history t [.command (.remove "b"), .command (.get "d")]).toFinset.erase "s").card
        < 2 ∧
      (run start [.command (.addMember "s" (.integer 7)), .command (.store "a" (.text "1")),
        .command (.moveMember "s" "d" (.integer 7)), .command (.remove "b"),
        .command (.get "d")]).2.contains "s" = true := by
  obtain ⟨start, hnew, hall⟩ := run_retains_recently_used (by decide : 1 ≤ 2) ⟨fun _ => 0, 0⟩
  obtain ⟨-, rfl⟩ := Store.new_eq_ok_iff.mp hnew
  refine ⟨by decide, _, _, _, hnew, rfl, rfl, ?uses, ?kept, ?few, ?live⟩
  case uses => decide
  case kept => decide
  case few => decide
  case live =>
    exact hall [.command (.addMember "s" (.integer 7)), .command (.store "a" (.text "1"))]
      (.command (.moveMember "s" "d" (.integer 7)))
      [.command (.remove "b"), .command (.get "d")] _ _ "s" [] ["d"] rfl rfl
      (by decide) (by decide) (by decide)

end Operation

end BoundedStore
