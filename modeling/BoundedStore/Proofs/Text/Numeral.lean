import BoundedStore.Proofs.Json.Decimal
import Mathlib.Data.Nat.Digits.Defs

/-!
# What is read as a numeral

A numeral is a row of ASCII digits, and what it denotes is given by their places (`placeValue`).
Leading zeros are free. In front of the digits stands at most one sign, which for a natural number
can only be a plus.

The readers read these texts and nothing else (`upTo?_eq_some_iff`, `word?_eq_some_iff`). A number
out of range is refused whatever its length, since the number is found before it is compared.
-/

namespace BoundedStore

namespace Numeral

/-! ## The grammar -/

/-- The number that digits denote, the last one counting ones, the one before it tens, and so on. -/
def placeValue (digits : List Char) : Nat :=
  Nat.ofDigits 10 (digits.reverse.map digit)

/-- The texts of a natural number: digits, behind a plus or not. -/
inductive SpellsNatural : Nat → List Char → Prop
  | digits {digits : List Char} (h : Decimal.Digits digits) :
    SpellsNatural (placeValue digits) digits
  | plus {digits : List Char} (h : Decimal.Digits digits) :
    SpellsNatural (placeValue digits) ('+' :: digits)

/-- The texts of an integer: those of a natural number, and digits behind a minus. -/
inductive SpellsInteger : Int → List Char → Prop
  | natural {n : Nat} {cs : List Char} (h : SpellsNatural n cs) : SpellsInteger n cs
  | minus {digits : List Char} (h : Decimal.Digits digits) :
    SpellsInteger (-placeValue digits) ('-' :: digits)

/-! ## Digits -/

/-- The reader takes the digits from the left, and comes to what they denote by their places. -/
theorem value_eq_placeValue (digits : List Char) : value 0 digits = placeValue digits := by
  induction digits using List.reverseRecOn with
  | nil => rfl
  | append_singleton before c ih =>
    have hvalue : value 0 (before ++ [c]) = 10 * value 0 before + digit c := by simp [value]
    have hplaces : placeValue (before ++ [c]) = digit c + 10 * placeValue before := by
      simp [placeValue, Nat.ofDigits_cons]
    rw [hvalue, hplaces, ih, Nat.add_comm]

theorem natural?_eq_some_iff {cs : List Char} {n : Nat} :
    natural? cs = some n ↔ Decimal.Digits cs ∧ n = placeValue cs := by
  unfold natural?
  rw [value_eq_placeValue]
  constructor
  · intro h
    split at h
    next hdigits =>
      obtain ⟨hne, hall⟩ : cs ≠ [] ∧ ∀ c ∈ cs, c.isDigit = true := by simpa using hdigits
      exact ⟨⟨hne, hall⟩, (Option.some.inj h).symm⟩
    next => cases h
  · rintro ⟨⟨hne, hall⟩, rfl⟩
    exact if_pos (by simpa using And.intro hne hall)

theorem natural?_map_eq_some_iff {cs : List Char} {sign : Nat → Int} {n : Int} :
    (natural? cs).map sign = some n ↔ Decimal.Digits cs ∧ n = sign (placeValue cs) := by
  rw [Option.map_eq_some_iff]
  constructor
  · rintro ⟨m, hm, rfl⟩
    obtain ⟨hdigits, rfl⟩ := natural?_eq_some_iff.mp hm
    exact ⟨hdigits, rfl⟩
  · rintro ⟨hdigits, rfl⟩
    exact ⟨_, natural?_eq_some_iff.mpr ⟨hdigits, rfl⟩, rfl⟩

/-- A sign is no digit. -/
theorem not_digits_sign {rest : List Char} :
    ¬ Decimal.Digits ('+' :: rest) ∧ ¬ Decimal.Digits ('-' :: rest) := by
  constructor
  all_goals
    intro h
    cases h.isDigit _ List.mem_cons_self

/-! ## Natural numbers -/

section Natural

variable {n : Nat} {cs : List Char}

theorem spellsNatural_plus_iff :
    SpellsNatural n ('+' :: cs) ↔ Decimal.Digits cs ∧ n = placeValue cs := by
  constructor
  · intro h
    cases h with
    | digits hdigits => exact absurd hdigits not_digits_sign.1
    | plus hdigits => exact ⟨hdigits, rfl⟩
  · rintro ⟨hdigits, rfl⟩
    exact .plus hdigits

theorem spellsNatural_iff_of_ne_plus (hplus : ∀ rest, cs ≠ '+' :: rest) :
    SpellsNatural n cs ↔ Decimal.Digits cs ∧ n = placeValue cs := by
  constructor
  · intro h
    cases h with
    | digits hdigits => exact ⟨hdigits, rfl⟩
    | plus hdigits => exact absurd rfl (hplus _)
  · rintro ⟨hdigits, rfl⟩
    exact .digits hdigits

theorem bind_natural?_eq_some_iff {most : Nat} :
    ((natural? cs).bind fun m => if m ≤ most then some m else none) = some n ↔
      (Decimal.Digits cs ∧ n = placeValue cs) ∧ n ≤ most := by
  rw [Option.bind_eq_some_iff]
  constructor
  · rintro ⟨m, hm, hle⟩
    split at hle
    next hmost =>
      obtain rfl := Option.some.inj hle
      exact ⟨natural?_eq_some_iff.mp hm, hmost⟩
    next => cases hle
  · rintro ⟨hdigits, hmost⟩
    exact ⟨n, natural?_eq_some_iff.mpr hdigits, if_pos hmost⟩

/-- A natural number is read when it is not above the bound, and nothing else is. -/
theorem upTo?_eq_some_iff {most : Nat} :
    upTo? most cs = some n ↔ SpellsNatural n cs ∧ n ≤ most := by
  unfold upTo?
  rw [bind_natural?_eq_some_iff]
  refine and_congr_left fun _ => ?_
  split
  next => exact spellsNatural_plus_iff.symm
  next hplus => exact (spellsNatural_iff_of_ne_plus hplus).symm

end Natural

/-! ## Integers -/

section Integer

variable {n : Int} {cs : List Char}

theorem spellsInteger_minus_iff :
    SpellsInteger n ('-' :: cs) ↔ Decimal.Digits cs ∧ n = -placeValue cs := by
  constructor
  · intro h
    cases h with
    | natural hnatural =>
      cases hnatural with
      | digits hdigits => exact absurd hdigits not_digits_sign.2
    | minus hdigits => exact ⟨hdigits, rfl⟩
  · rintro ⟨hdigits, rfl⟩
    exact .minus hdigits

theorem spellsInteger_iff_of_ne_minus (hminus : ∀ rest, cs ≠ '-' :: rest) :
    SpellsInteger n cs ↔ ∃ m : Nat, SpellsNatural m cs ∧ n = m := by
  constructor
  · intro h
    cases h with
    | natural hnatural => exact ⟨_, hnatural, rfl⟩
    | minus => exact absurd rfl (hminus _)
  · rintro ⟨m, hnatural, rfl⟩
    exact .natural hnatural

theorem signed?_eq_some_iff : signed? cs = some n ↔ SpellsInteger n cs := by
  unfold signed?
  split
  next rest =>
    rw [natural?_map_eq_some_iff, spellsInteger_iff_of_ne_minus (by simp)]
    simp [spellsNatural_plus_iff, and_assoc]
  next rest => exact natural?_map_eq_some_iff.trans spellsInteger_minus_iff.symm
  next hplus hminus =>
    rw [natural?_map_eq_some_iff, spellsInteger_iff_of_ne_minus hminus]
    simp [spellsNatural_iff_of_ne_plus hplus, and_assoc]

/-- A 64-bit word is read from the texts of its number, and from nothing else. -/
theorem word?_eq_some_iff {w : Int64} :
    word? cs = some w ↔ SpellsInteger w.toInt cs := by
  unfold word?
  rw [Option.bind_eq_some_iff]
  constructor
  · rintro ⟨n, hn, hword⟩
    obtain rfl := Decimal.toWord?_eq_some_iff.mp hword
    exact signed?_eq_some_iff.mp hn
  · exact fun h => ⟨_, signed?_eq_some_iff.mpr h, Decimal.toWord?_eq_some_iff.mpr rfl⟩

end Integer

end Numeral

end BoundedStore
