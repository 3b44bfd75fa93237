import BoundedStore.Json.Quoted

/-!
# What is read as a string

`Quoted.Spells` says without a reader which texts stand for which characters: a character that needs
no escape is itself, eight have an escape of one letter, and any can be given by its UTF-16 units.
The reader reads these texts and no others, up to the closing quote (`read?_eq_some_iff`).
-/

namespace BoundedStore

namespace Quoted

/-- The ways to write one character of a string. -/
inductive SpellsChar : Char → List Char → Prop
  | plain {c : Char} (hcontrol : 0x20 ≤ c.toNat) (hquote : c ≠ '"') (hbackslash : c ≠ '\\') :
    SpellsChar c [c]
  | letter {c e : Char} (h : escaped? e = some c) : SpellsChar c ['\\', e]
  | unit {a b c d : Char} {n : Nat} (h : unit? a b c d = some n) (hhigh : isHigh n = false)
    (hlow : isLow n = false) : SpellsChar (Char.ofNat n) ['\\', 'u', a, b, c, d]
  | units {a b c d e f g h : Char} {high low : Nat} (hfirst : unit? a b c d = some high)
    (hhigh : isHigh high = true) (hsecond : unit? e f g h = some low) (hlow : isLow low = true) :
    SpellsChar (pair high low) ['\\', 'u', a, b, c, d, '\\', 'u', e, f, g, h]

/-- The ways to write a string between its quotes. -/
inductive Spells : List Char → List Char → Prop
  | nil : Spells [] []
  | cons {c : Char} {cs text rest : List Char} :
    SpellsChar c text → Spells cs rest → Spells (c :: cs) (text ++ rest)

theorem read?_of_spellsChar {c : Char} {text : List Char} (h : SpellsChar c text)
    (rest : List Char) : read? (text ++ rest) = consed c (read? rest) := by
  cases h with
  | plain hcontrol hquote hbackslash =>
    have hprintable : ¬ c.toNat < 0x20 := Nat.not_lt.mpr hcontrol
    simp [read?, hbackslash, hprintable]
  | @letter c e h =>
    -- no escape of one letter is written with the letter of the units
    have hletter : e ≠ 'u' := by
      rintro rfl
      cases h
    simp [read?, hletter, h]
  | unit h hhigh hlow => simp [read?, h, hhigh, hlow]
  | units hfirst hhigh hsecond hlow => simp [read?, hfirst, hhigh, hsecond, hlow]

theorem read?_of_spells {cs text : List Char} (h : Spells cs text) (rest : List Char) :
    read? (text ++ '"' :: rest) = some (cs, rest) := by
  induction h with
  | nil => simp [read?]
  | cons hchar _ ih => rw [List.append_assoc, read?_of_spellsChar hchar, ih]; rfl

/-! ## It reads no others -/

section Sound

variable {c : Char} {text cs chars rest : List Char}

/-- One more character in front of what was read. -/
theorem spells_of_consed (hchar : SpellsChar c text)
    (hrest : ∀ {others}, read? cs = some (others, rest) →
      ∃ spelled, cs = spelled ++ '"' :: rest ∧ Spells others spelled)
    (h : consed c (read? cs) = some (chars, rest)) :
    ∃ spelled, text ++ cs = spelled ++ '"' :: rest ∧ Spells chars spelled := by
  obtain ⟨⟨others, last⟩, hread, hpair⟩ := Option.map_eq_some_iff.mp h
  obtain ⟨rfl, rfl⟩ := Prod.mk.inj hpair
  obtain ⟨spelled, rfl, hspelled⟩ := hrest hread
  exact ⟨text ++ spelled, (List.append_assoc text spelled _).symm, .cons hchar hspelled⟩

theorem spells_of_read? (h : read? cs = some (chars, rest)) :
    ∃ text, cs = text ++ '"' :: rest ∧ Spells chars text := by
  fun_induction read? cs generalizing chars with
  | case2 =>
    obtain ⟨rfl, rfl⟩ := Prod.mk.inj (Option.some.inj h)
    exact ⟨[], rfl, .nil⟩
  | case4 _ _ _ _ _ hfirst hhigh _ _ _ _ _ _ hsecond hlow ih =>
    exact spells_of_consed (.units hfirst hhigh hsecond hlow) ih h
  | case9 _ _ _ _ _ _ hunit hhigh hlow ih =>
    exact spells_of_consed (.unit hunit (Bool.eq_false_iff.mpr hhigh) (Bool.eq_false_iff.mpr hlow))
      ih h
  | case10 _ _ _ _ hletter ih => exact spells_of_consed (.letter hletter) ih h
  | case13 c _ hquote _ _ hstands ih =>
    rw [Bool.or_eq_true, decide_eq_true_eq, decide_eq_true_eq, not_or, Nat.not_lt] at hstands
    exact spells_of_consed (.plain hstands.1 hquote hstands.2) ih h
  | case1 | case3 | case5 | case6 | case7 | case8 | case11 | case12 => cases h

theorem read?_eq_some_iff :
    read? cs = some (chars, rest) ↔ ∃ text, cs = text ++ '"' :: rest ∧ Spells chars text := by
  refine ⟨spells_of_read?, ?_⟩
  rintro ⟨text, rfl, hspells⟩
  exact read?_of_spells hspells rest

end Sound

end Quoted

end BoundedStore
