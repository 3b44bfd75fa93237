import BoundedStore.Json.Reader
import BoundedStore.Proofs.Json.Decimal
import BoundedStore.Proofs.Json.Quoted

/-!
# The grammar of JSON

`Json.Spells` says which texts stand for which tree, without a reader, when at most a given number
of arrays and objects may stand inside one another and only some numbers are admitted. Items and
members are spelled in the same way, one after the other between two brackets, so what is said about
them is said once, of anything that has a spelling.

A tree that has a spelling at all is `Spelled`, and so are its parts. The numbers in it are then
without leading zeros, which a tree on its own does not ensure.
-/

namespace BoundedStore

namespace Json

/-! ## The grammar -/

/-- Which texts stand for what. -/
abbrev Spelling (α : Type) := α → List Char → Prop

/-- A text of blanks only. -/
def Blanks (cs : List Char) : Prop :=
  ∀ c ∈ cs, isBlank c = true

section Grammar

variable {α : Type} (spells : Spelling α)

/-- Blanks may stand on both sides. -/
inductive Padded : α → List Char → Prop
  | intro {x : α} {before core after : List Char} : Blanks before → spells x core → Blanks after →
    Padded x (before ++ (core ++ after))

/-- At least one item, and commas in between. -/
inductive Separated : List α → List Char → Prop
  | last {x : α} {text : List Char} : spells x text → Separated [x] text
  | more {x : α} {xs : List α} {text rest : List Char} : spells x text → Separated xs rest →
    Separated (x :: xs) (text ++ ',' :: rest)

/-- Any number of items between two brackets. -/
inductive Enclosed (opening closing : Char) : List α → List Char → Prop
  | none {blanks : List Char} : Blanks blanks →
    Enclosed opening closing [] (opening :: (blanks ++ [closing]))
  | some {xs : List α} {text : List Char} : Separated (Padded spells) xs text →
    Enclosed opening closing xs (opening :: (text ++ [closing]))

end Grammar

/-- A member of an object is a name in quotes, a colon and a value. -/
inductive SpellsMember (spells : Spelling Json) : String × Json → List Char → Prop
  | intro {name : String} {j : Json} {text before after core : List Char} :
    Quoted.Spells name.toList text → Blanks before → Blanks after → spells j core →
    SpellsMember spells (name, j) ('"' :: (text ++ '"' :: (before ++ ':' :: (after ++ core))))

/-- A value in which every number is admitted. Without `inner`, which spells what is inside an array
or object, there are none of these. -/
inductive SpellsOne (admits : Decimal → Prop) (inner : Option (Spelling Json)) :
    Json → List Char → Prop
  | null : SpellsOne admits inner .null ['n', 'u', 'l', 'l']
  | true : SpellsOne admits inner (.bool true) ['t', 'r', 'u', 'e']
  | false : SpellsOne admits inner (.bool false) ['f', 'a', 'l', 's', 'e']
  | number {d : Decimal} {text : List Char} : d.Spells text → admits d →
    SpellsOne admits inner (.number d) text
  | text {s : String} {text : List Char} : Quoted.Spells s.toList text →
    SpellsOne admits inner (.text s) ('"' :: (text ++ ['"']))
  | array {spells : Spelling Json} {items : List Json} {text : List Char} : inner = some spells →
    Enclosed spells '[' ']' items text → SpellsOne admits inner (.array items) text
  | object {spells : Spelling Json} {members : List (String × Json)} {text : List Char} :
    inner = some spells → Enclosed (SpellsMember spells) '{' '}' members text →
    SpellsOne admits inner (.object members) text

/-- The texts of a value with at most `depth` arrays and objects inside one another. -/
def Spells (admits : Decimal → Prop) : (depth : Nat) → Spelling Json
  | 0 => SpellsOne admits none
  | depth + 1 => SpellsOne admits (some (Spells admits depth))

/-- What is neither an array nor an object may stand at any depth. -/
theorem spells_of_none {admits : Decimal → Prop} {j : Json} {text : List Char}
    (h : SpellsOne admits none j text) (depth : Nat) : Spells admits depth j text := by
  cases depth with
  | zero => exact h
  | succ depth =>
    cases h with
    | null => exact .null
    | true => exact .true
    | false => exact .false
    | number hspells hadmits => exact .number hspells hadmits
    | text hspells => exact .text hspells
    | array hnone => cases hnone
    | object hnone => cases hnone

/-- A text that is one value, with blanks around it. -/
def Text (admits : Decimal → Prop) (s : String) (j : Json) : Prop :=
  Padded (Spells admits maxDepth) j s.toList

/-- A text that starts with a value, with blanks in front of it and anything behind it. -/
def Starts (admits : Decimal → Prop) (cs : List Char) (j : Json) : Prop :=
  ∃ blanks core rest, Blanks blanks ∧ Spells admits maxDepth j core ∧ cs = blanks ++ (core ++ rest)

/-- A text that does not go on with a value. Only a number does not show itself where it ends. -/
def Ends : Json → List Char → Prop
  | .number d, cs => d.Ends cs
  | _, _ => True

theorem ends_of_ne_number {j : Json} (h : ¬ ∃ d, j = .number d) (cs : List Char) : j.Ends cs := by
  cases j with
  | number d => exact absurd ⟨d, rfl⟩ h
  | null | bool | text | array | object => trivial

theorem ends_of_follows {cs : List Char} (h : Decimal.Follows cs) (j : Json) : j.Ends cs := by
  cases j with
  | number d => exact h.ends d
  | null | bool | text | array | object => trivial

/-- A text that is a value with blanks in front of it, as much as can be taken for the value, and
then `rest`. -/
def Begins (admits : Decimal → Prop) (cs : List Char) (j : Json) (rest : List Char) : Prop :=
  ∃ blanks core, Blanks blanks ∧ Spells admits maxDepth j core ∧ j.Ends rest ∧
    cs = blanks ++ (core ++ rest)

theorem Text.starts {admits : Decimal → Prop} {s : String} {j : Json} (h : Text admits s j) :
    Starts admits s.toList j := by
  unfold Text at h
  generalize s.toList = cs at h ⊢
  cases h with
  | intro hbefore hcore _ => exact ⟨_, _, _, hbefore, hcore, rfl⟩

/-! ## Blanks -/

section Blanks

variable {blanks cs rest : List Char}

theorem blanks_nil : Blanks [] := List.forall_mem_nil _

theorem all_isBlank_iff : cs.all isBlank = Bool.true ↔ Blanks cs :=
  List.all_eq_true

theorem skipBlank_append (h : Blanks blanks) (cs : List Char) :
    skipBlank (blanks ++ cs) = skipBlank cs :=
  List.dropWhile_append_of_pos h

theorem skipBlank_cons {c : Char} (h : isBlank c = false) (cs : List Char) :
    skipBlank (c :: cs) = c :: cs :=
  List.dropWhile_cons_of_neg (by simp [h])

theorem exists_blanks (cs : List Char) : ∃ blanks, Blanks blanks ∧ cs = blanks ++ skipBlank cs :=
  ⟨cs.takeWhile isBlank, List.all_eq_true.mp List.all_takeWhile,
    List.takeWhile_append_dropWhile.symm⟩

theorem Blanks.append {others : List Char} (h : Blanks blanks) (hothers : Blanks others) :
    Blanks (blanks ++ others) := fun c hc =>
  (List.mem_append.mp hc).elim (h c) (hothers c)

theorem follows_cons {c : Char} (hdigit : c.isDigit = Bool.false) (hpoint : c ≠ '.')
    (he : c ≠ 'e' ∧ c ≠ 'E') (cs : List Char) : Decimal.Follows (c :: cs) where
  noDigit := by simpa [Decimal.NoDigit] using hdigit
  noPoint := by simpa using hpoint
  noE := by simpa using he

theorem Blanks.follows (h : Blanks blanks) (hrest : Decimal.Follows rest) :
    Decimal.Follows (blanks ++ rest) := by
  cases blanks with
  | nil => exact hrest
  | cons c blanks =>
    have hblank := h c List.mem_cons_self
    simp only [isBlank, Bool.or_eq_true, decide_eq_true_eq] at hblank
    obtain ((rfl | rfl) | rfl) | rfl := hblank
    all_goals exact follows_cons (by decide) (by decide) (by decide) _

theorem Blanks.follows_of_end (h : Blanks blanks) : Decimal.Follows blanks := by
  have hend : Decimal.Follows [] := ⟨nofun, nofun, nofun, nofun⟩
  simpa using h.follows hend

end Blanks

/-! ## Spellings by way of something else -/

section Map

variable {α β : Type} {spells : Spelling α} {others : Spelling β} {f : α → β} {P : α → Prop}

theorem padded_iff_map (h : ∀ x text, spells x text ↔ P x ∧ others (f x) text) {x : α}
    {text : List Char} : Padded spells x text ↔ P x ∧ Padded others (f x) text := by
  constructor
  · rintro ⟨hbefore, hcore, hafter⟩
    obtain ⟨hx, hcore⟩ := (h _ _).mp hcore
    exact ⟨hx, .intro hbefore hcore hafter⟩
  · rintro ⟨hx, htext⟩
    obtain ⟨hbefore, hcore, hafter⟩ := htext
    exact .intro hbefore ((h _ _).mpr ⟨hx, hcore⟩) hafter

theorem separated_iff_map (h : ∀ x text, spells x text ↔ P x ∧ others (f x) text) {xs : List α}
    {text : List Char} :
    Separated spells xs text ↔ (∀ x ∈ xs, P x) ∧ Separated others (xs.map f) text := by
  constructor
  · intro htext
    induction htext with
    | last hx =>
      obtain ⟨hx, hlast⟩ := (h _ _).mp hx
      exact ⟨by simpa using hx, .last hlast⟩
    | more hx _ ih =>
      obtain ⟨hx, hfirst⟩ := (h _ _).mp hx
      exact ⟨List.forall_mem_cons.mpr ⟨hx, ih.1⟩, .more hfirst ih.2⟩
  · rintro ⟨hxs, htext⟩
    generalize hys : xs.map f = ys at htext
    induction htext generalizing xs with
    | last hy =>
      obtain ⟨x, rfl, rfl⟩ := List.map_eq_singleton_iff.mp hys
      exact .last ((h _ _).mpr ⟨hxs x List.mem_cons_self, hy⟩)
    | more hy _ ih =>
      obtain ⟨x, xs, rfl, rfl, rfl⟩ := List.map_eq_cons_iff.mp hys
      obtain ⟨hx, hxs⟩ := List.forall_mem_cons.mp hxs
      exact .more ((h _ _).mpr ⟨hx, hy⟩) (ih hxs rfl)

theorem enclosed_iff_map (h : ∀ x text, spells x text ↔ P x ∧ others (f x) text)
    {opening closing : Char} {xs : List α} {text : List Char} :
    Enclosed spells opening closing xs text ↔
      (∀ x ∈ xs, P x) ∧ Enclosed others opening closing (xs.map f) text := by
  have hpadded : ∀ x text, Padded spells x text ↔ P x ∧ Padded others (f x) text :=
    fun _ _ => padded_iff_map h
  constructor
  · intro htext
    cases htext with
    | none hblanks => exact ⟨nofun, .none hblanks⟩
    | some hitems =>
      obtain ⟨hxs, hitems⟩ := (separated_iff_map hpadded).mp hitems
      exact ⟨hxs, .some hitems⟩
  · rintro ⟨hxs, htext⟩
    generalize hys : xs.map f = ys at htext
    cases htext with
    | none hblanks =>
      obtain rfl := List.map_eq_nil_iff.mp hys
      exact .none hblanks
    | some hitems =>
      subst hys
      exact .some ((separated_iff_map hpadded).mpr ⟨hxs, hitems⟩)

end Map

/-! ## What has a spelling -/

/-- A tree that some text stands for. -/
def Spelled (j : Json) : Prop :=
  ∃ admits depth text, Spells admits depth j text

section Spelled
theorem Spelled.one {j : Json} (h : j.Spelled) :
    ∃ admits inner text, SpellsOne admits inner j text ∧
      ∀ spells, inner = some spells → ∀ k core, spells k core → k.Spelled := by
  obtain ⟨admits, depth, text, h⟩ := h
  cases depth with
  | zero => exact ⟨admits, none, text, h, nofun⟩
  | succ depth =>
    refine ⟨admits, some (Spells admits depth), text, h, ?_⟩
    intro spells hsome k core hk
    obtain rfl := Option.some.inj hsome
    exact ⟨admits, depth, core, hk⟩

theorem Separated.spells_of_mem {α : Type} {spells : Spelling α} {xs : List α} {text : List Char}
    (h : Separated spells xs text) {x : α} (hx : x ∈ xs) : ∃ core, spells x core := by
  induction h with
  | last hlast => exact List.mem_singleton.mp hx ▸ ⟨_, hlast⟩
  | more hfirst _ ih =>
    rcases List.mem_cons.mp hx with rfl | hrest
    · exact ⟨_, hfirst⟩
    · exact ih hrest

theorem Enclosed.spells_of_mem {α : Type} {spells : Spelling α} {opening closing : Char}
    {xs : List α} {text : List Char} (h : Enclosed spells opening closing xs text) {x : α}
    (hx : x ∈ xs) : ∃ core, spells x core := by
  cases h with
  | none => cases hx
  | some hitems =>
    obtain ⟨_, -, hcore, -⟩ := hitems.spells_of_mem hx
    exact ⟨_, hcore⟩

theorem Spelled.whole {d : Decimal} (h : (number d).Spelled) : Decimal.Whole d.whole := by
  obtain ⟨admits, inner, text, h, -⟩ := h.one
  cases h with
  | number hspells => cases hspells; assumption

theorem Spelled.item {items : List Json} (h : (array items).Spelled) :
    ∀ item ∈ items, item.Spelled := by
  obtain ⟨admits, inner, text, h, hinner⟩ := h.one
  intro item hitem
  cases h with
  | array hsome henclosed =>
    obtain ⟨core, hcore⟩ := henclosed.spells_of_mem hitem
    exact hinner _ hsome item core hcore

theorem Spelled.member {members : List (String × Json)} (h : (object members).Spelled) :
    ∀ member ∈ members, member.2.Spelled := by
  obtain ⟨admits, inner, text, h, hinner⟩ := h.one
  intro member hmember
  cases h with
  | object hsome henclosed =>
    obtain ⟨core, hcore⟩ := henclosed.spells_of_mem hmember
    cases hcore with
    | intro _ _ _ hvalue => exact hinner _ hsome _ _ hvalue

theorem Text.spelled {admits : Decimal → Prop} {s : String} {j : Json} (h : Text admits s j) :
    j.Spelled := by
  unfold Text at h
  generalize s.toList = cs at h
  obtain ⟨-, hcore, -⟩ := h
  exact ⟨admits, maxDepth, _, hcore⟩

end Spelled

end Json

end BoundedStore
