import BoundedStore.Proofs.Command.Printer
import BoundedStore.Proofs.Command.Runs
import BoundedStore.Proofs.Store.WellFormed
import BoundedStore.Proofs.Value.Coerce

/-!
# The shapes of the values that clients store

No text has a set in it, so a client can only send values without sets, and the only sets there are
were built by adding such values and by set algebra. A list or a set never gets a set into it
(`Plain`). And what a key holds was coerced when it was written, so writing it once more changes
nothing; the items of a list and the members of a set were not, and stay as they were sent.

Both together are a condition by parts on values without sets (`byParts_plain`), and so every
command keeps it.
-/

namespace BoundedStore

open Json (maxDepth)

namespace Value

/-! ## Plain values -/

/-- No set inside: none at all, or one whose members have none in them and are not the same. -/
def Plain (v : Value) : Prop :=
  v.SetFree ∨ ∃ members, v = set members ∧ (∀ x ∈ members, x.SetFree) ∧ Members.Distinct members

theorem SetFree.wellFormed {v : Value} (h : v.SetFree) : v.WellFormed := by
  induction v using nested_induction with
  | integer | text => trivial
  | list items ih =>
    have hitems := (setFree_list_iff items).mp h
    exact (wellFormed_list_iff items).mpr fun x hx => ih x hx (hitems x hx)
  | set members => cases h

theorem SetFree.coerce {v : Value} (h : v.SetFree) : v.coerce.SetFree := by
  cases v with
  | integer | list | set => exact h
  | text s =>
    simp only [Value.coerce]
    split <;> trivial

theorem plain_list_iff (items : List Value) : (list items).Plain ↔ ∀ x ∈ items, x.SetFree := by
  rw [← setFree_list_iff]
  refine ⟨fun h => h.resolve_right ?_, Or.inl⟩
  rintro ⟨members, hset, -⟩
  cases hset

theorem plain_set_iff (members : Members) :
    (set members).Plain ↔ Members.Built SetFree members := by
  constructor
  · rintro (hfree | ⟨others, hset, hothers, hdistinct⟩)
    · cases hfree
    · obtain rfl := set.inj hset
      exact ⟨⟨fun x hx => (hothers x hx).wellFormed, hdistinct⟩, hothers⟩
  · exact fun h => Or.inr ⟨members, rfl, h.parts, h.distinct⟩

/-- A list or a set is not changed by coercion, so being plain is all that is asked of its parts. -/
theorem byParts_plain : ByParts (fun v => v.Plain ∧ v.coerce = v) SetFree where
  list_iff items := (and_iff_left rfl).trans (plain_list_iff items)
  set_iff members := (and_iff_left rfl).trans (plain_set_iff members)
  wellFormed _ h := h.wellFormed

end Value

/-! ## Stores that clients bring about -/

theorem Command.SetFree.brings_operationOf {c : Command} (h : c.SetFree) (s : Store) :
    (s.operationOf c).Brings (fun v => v.Plain ∧ v.coerce = v) Value.SetFree := by
  have hgiven : ∀ name v, (name, Operand.value v) ∈ c.operands →
      v.SetFree ∧ v.coerce.Plain ∧ v.coerce.coerce = v.coerce := fun name v hmem =>
    have hfree : v.SetFree := h _ hmem
    ⟨hfree, Or.inl hfree.coerce, v.coerce_coerce⟩
  cases c with
  | store key value =>
    -- `store` and `replace` have the same operands
    rw [Store.operationOf]
    split <;> exact hgiven
  | _ => exact hgiven

namespace Store

theorem Served.plain {s : Store} (h : s.Served) :
    s.Holds fun v => v.Plain ∧ v.coerce = v := by
  refine h.of_invariant (fun _ _ _ hnew => holds_of_new hnew) fun s c hvalid hfree hholds => ?_
  rw [snd_execute]
  exact Value.byParts_plain.holds_perform hvalid hholds (hfree.brings_operationOf s)

/-- Any commands that can be sent can be run. -/
theorem served_executeAll {capacity : Nat} (hpos : 1 ≤ capacity) (choices : Choices)
    (commands : List Command) (h : ∀ c ∈ commands, c.Sendable) :
    ((⟨⟨[], .empty, capacity, 0⟩, choices, 0, 0⟩ : Store).executeAll commands).2.Served := by
  refine ⟨capacity, choices, _, commands.map fun c => c.toJson.render, commands,
    new_eq_ok_iff.mpr ⟨hpos, rfl⟩, ?_, rfl⟩
  rw [List.forall₂_map_left_iff, List.forall₂_same]
  exact fun c hmem => (h c hmem).read

/-- **The shapes of stored values.** Whatever commands clients send, every live value has no set in
it or is a set of such values, no two of which are the same, and coercion does not change it: no key
holds a text that spells an integer. An item of a list or a member of a set may well be such a text.
Any value that a command can bring is kept there as it is. -/
theorem shapes_of_stored_values :
    (∀ s : Store, s.Served → ∀ key v, s.find? key = some v → v.Plain ∧ v.coerce = v) ∧
    ∀ v : Value, v.SetFree → v.depth < maxDepth →
      (∃ s, Served s ∧ ∃ key, s.find? key = some (.list [v])) ∧
        ∃ s, Served s ∧ ∃ key, s.find? key = some (.set [v]) := by
  refine ⟨fun s h => h.plain, fun v hfree hdepth => ?_⟩
  have hpush : (Command.push .tail "k" v).Sendable :=
    (Command.sendable_iff_of_operands rfl).mpr ⟨hfree, hdepth⟩
  have hadd : (Command.addMember "k" v).Sendable :=
    (Command.sendable_iff_of_operands rfl).mpr ⟨hfree, hdepth⟩
  have hpushed := served_executeAll (Nat.le_refl 1) ⟨fun _ => 0, 0⟩ [.push .tail "k" v]
    (List.forall_mem_singleton.mpr hpush)
  have hadded := served_executeAll (Nat.le_refl 1) ⟨fun _ => 0, 0⟩ [.addMember "k" v]
    (List.forall_mem_singleton.mpr hadd)
  exact ⟨⟨_, hpushed, "k", rfl⟩, ⟨_, hadded, "k", rfl⟩⟩

/-- A numeral becomes an integer when it is stored, and stays a text in a set or a list. -/
theorem shapes_of_stored_numerals :
    ∃ s, Served s ∧ s.find? "n" = some (.integer 7) ∧ s.find? "m" = some (.set [.text "+007"]) ∧
      (Value.set [.text "+007"]).Plain ∧ (Value.integer 7).coerce = .integer 7 ∧
      ∃ t, Served t ∧ ∃ key, t.find? key = some (.list [.text "+007"]) := by
  have hnumeral : (Value.text "+007").SetFree := trivial
  have hstore : (Command.store "n" (.text "+007")).Sendable :=
    (Command.sendable_iff_of_operands rfl).mpr ⟨hnumeral, by decide⟩
  have hadd : (Command.addMember "m" (.text "+007")).Sendable :=
    (Command.sendable_iff_of_operands rfl).mpr ⟨hnumeral, by decide⟩
  have hserved := served_executeAll (by decide : 1 ≤ 2) ⟨fun _ => 0, 0⟩
    [.store "n" (.text "+007"), .addMember "m" (.text "+007")] (by simp [hstore, hadd])
  refine ⟨_, hserved, by decide, by decide, ?_, ?_, ?_⟩
  · exact (shapes_of_stored_values.1 _ hserved "m" _ (by decide)).1
  · exact (shapes_of_stored_values.1 _ hserved "n" _ (by decide)).2
  · exact (shapes_of_stored_values.2 (.text "+007") hnumeral (by decide)).1

end Store

end BoundedStore
