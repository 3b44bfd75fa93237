import BoundedStore.Proofs.Command.Grammar

/-!
# Which texts are read as which command

`FollowsGrammar` puts the grammar of commands together with that of JSON, and says what a client can
rely on: which texts are read as which command, that a JSON text of any other shape is refused as
such, and that the order of the members, other members, and the choice of the form make no
difference.
-/

namespace BoundedStore

open Json (Text Starts InRange)

namespace Command

/-! ## One text -/

section Read

variable {s t : String} {j k : Json} {c : Command}

theorem read_of_text (h : Text InRange s j) :
    read s = (ofJson? j).elim (.error .misshapen) .ok := by
  obtain ⟨rest, hrest, hread⟩ := Json.text_iff.mp h
  have hblank : rest.all Json.isBlank = true := List.all_eq_true.mpr hrest
  cases hcommand : ofJson? j with
  | none => simp only [read, readFirst, hread, hcommand, Option.elim]
  | some c => simp only [read, readFirst, hread, hcommand, if_pos hblank, Option.elim]

theorem read_eq_ok_of_text (h : Text InRange s j) :
    read s = .ok c ↔ c.SetFree ∧ c.AskedBy j := by
  rw [read_of_text h, ← ofJson?_eq_some_iff h.spelled]
  cases ofJson? j <;> simp

theorem text_of_read (h : read s = .ok c) : ∃ j, Text InRange s j := by
  cases hread : Json.read? s.toList with
  | none => simp [read, readFirst, hread] at h
  | some r =>
    obtain ⟨j, rest⟩ := r
    cases hcommand : ofJson? j with
    | none => simp [read, readFirst, hread, hcommand] at h
    | some other =>
      simp only [read, readFirst, hread, hcommand] at h
      split at h
      next hblank => exact ⟨j, Json.text_iff.mpr ⟨rest, List.all_eq_true.mp hblank, hread⟩⟩
      next => cases h

end Read

/-! ## The command at the start of a text -/

/-- What asks for a command is no number, so nothing can go on with it. -/
theorem AskedBy.ne_number {c : Command} {j : Json} (h : c.AskedBy j) : ¬ ∃ d, j = .number d := by
  rintro ⟨d, rfl⟩
  cases h

/-- A command is read from the start of a text when the text starts with a value that asks for it,
and what follows does not matter. -/
theorem readFirst_eq_ok_iff {cs : List Char} {c : Command} :
    (∃ rest, readFirst cs = .ok (c, rest)) ↔
      c.SetFree ∧ ∃ j, Starts InRange cs j ∧ c.AskedBy j := by
  constructor
  · rintro ⟨rest, h⟩
    cases hread : Json.read? cs with
    | none => simp [readFirst, hread] at h
    | some first =>
      obtain ⟨j, others⟩ := first
      cases hcommand : ofJson? j with
      | none => simp [readFirst, hread, hcommand] at h
      | some other =>
        obtain ⟨rfl, rfl⟩ : other = c ∧ others = rest := by
          simpa [readFirst, hread, hcommand] using h
        obtain ⟨blanks, core, hblanks, hcore, hcs⟩ :=
          (Json.reads_readValue Json.maxDepth).sound hread
        obtain ⟨hfree, hasked⟩ := (ofJson?_eq_some_iff ⟨_, _, core, hcore⟩).mp hcommand
        exact ⟨hfree, j, ⟨blanks, core, others, hblanks, hcore, hcs⟩, hasked⟩
  · rintro ⟨hfree, j, ⟨blanks, core, rest, hblanks, hcore, rfl⟩, hasked⟩
    have hends := Json.ends_of_ne_number hasked.ne_number rest
    have hread := Json.read?_eq_some_iff.mpr ⟨blanks, core, hblanks, hcore, hends, rfl⟩
    have hcommand := (ofJson?_eq_some_iff ⟨_, _, core, hcore⟩).mpr ⟨hfree, hasked⟩
    exact ⟨rest, by simp [readFirst, hread, hcommand]⟩

/-! ## Members that make no difference -/

section Members

variable {c : Command} {members others : List (String × Json)}

end Members

/-! ## All texts -/

/-- What a client can rely on when it sends a text that is to be read as a command. -/
structure FollowsGrammar (read : String → Except Fault Command) : Prop where
  /-- A text is read as a command exactly when it is a JSON text that asks for it. -/
  accepts : ∀ s (c : Command), read s = .ok c ↔ c.SetFree ∧ ∃ j, Text InRange s j ∧ c.AskedBy j
  /-- A JSON text that asks for no command is refused for its shape. -/
  refuses : ∀ s j, Text InRange s j → (∀ c : Command, c.SetFree → ¬ c.AskedBy j) →
    read s = .error .misshapen
  /-- The order of members does not matter. -/
  reorders : ∀ s t members others, Text InRange s (.object members) →
    Text InRange t (.object others) → members.Perm others → read s = read t
  /-- Members that a command does not know do not matter to it. -/
  ignores : ∀ s t members others (c : Command), Text InRange s (.object members) →
    Text InRange t (.object others) →
    (members.filter fun member => c.knows member.1).Perm
      (others.filter fun member => c.knows member.1) → (read s = .ok c ↔ read t = .ok c)
  /-- An object and an array of the same values are read alike, also where these are wrong. -/
  agrees : ∀ s t name names js, operandNames? name = some names → names.length = js.length →
    Text InRange s (.object ((nameMember, .text name) :: names.zip js)) →
    Text InRange t (.array (.text name :: js)) → read s = read t
  /-- The command that is read has the name that the text gives. -/
  names : ∀ s j (c : Command), Text InRange s j → read s = .ok c →
    (∃ members, j = .object members ∧ Json.Once nameMember (.text c.name) members) ∨
      ∃ js, j = .array (.text c.name :: js)

end Command

end BoundedStore
