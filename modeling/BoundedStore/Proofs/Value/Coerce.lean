import BoundedStore.Proofs.Text.Numeral
import BoundedStore.Value.Coerce

/-!
# Which values are coerced

A text becomes an integer when it is a numeral of a 64-bit word, with a sign and leading zeros as
they come, and every other value stays what it is (`coerce_numerals`). So nothing that was coerced
is coerced once more, and an integer that was turned into its decimal text is turned back.
-/

namespace BoundedStore

namespace Numeral

theorem digits_toDigits (n : Nat) : Decimal.Digits (Nat.toDigits 10 n) where
  ne_nil := Nat.toDigits_ne_nil
  isDigit _ hc := Nat.isDigit_of_mem_toDigits (by decide) (by decide) hc

theorem placeValue_toDigits (n : Nat) : placeValue (Nat.toDigits 10 n) = n := by
  rw [← value_eq_placeValue, Decimal.value_toDigits]

/-- The decimal text of an integer is one of its numerals. -/
theorem spellsInteger_toString (n : Int) : SpellsInteger n (toString n).toList := by
  cases n with
  | ofNat n =>
    have htext : (toString (Int.ofNat n)).toList = Nat.toDigits 10 n := by
      show (toString n).toList = _
      simp
    have hspells := SpellsInteger.natural (.digits (digits_toDigits n))
    rw [placeValue_toDigits] at hspells
    rw [htext]
    exact hspells
  | negSucc n =>
    have htext : (toString (Int.negSucc n)).toList = '-' :: Nat.toDigits 10 (n + 1) := by
      show ("-" ++ toString (n + 1)).toList = _
      simp
    have hspells := SpellsInteger.minus (digits_toDigits (n + 1))
    rw [placeValue_toDigits] at hspells
    rw [htext]
    exact hspells

end Numeral

namespace Value

theorem coerce_coerce (v : Value) : v.coerce.coerce = v.coerce := by
  cases v with
  | integer | list | set => rfl
  | text s => cases hword : Numeral.word? s.toList <;> simp [coerce, hword]

theorem coerce_of_kind_ne_text {v : Value} (h : v.kind ≠ .text) : v.coerce = v := by
  cases v with
  | text s => exact absurd rfl h
  | integer | list | set => rfl

theorem coerce_text_eq_integer_iff {s : String} {n : Int64} :
    (text s).coerce = integer n ↔ Numeral.SpellsInteger n.toInt s.toList := by
  rw [← Numeral.word?_eq_some_iff]
  cases hword : Numeral.word? s.toList <;> simp [coerce, hword]

theorem coerce_text_of_no_word {s : String}
    (h : ∀ n : Int64, ¬ Numeral.SpellsInteger n.toInt s.toList) : (text s).coerce = text s := by
  cases hword : Numeral.word? s.toList with
  | none => simp [coerce, hword]
  | some n => exact absurd (Numeral.word?_eq_some_iff.mp hword) (h n)

/-! ## The grammar of coercion -/

/-- The range of a 64-bit word with a sign, which has one number more below zero than above. -/
def InWord (m : Int) : Prop :=
  -2 ^ 63 ≤ m ∧ m ≤ 2 ^ 63 - 1

theorem inWord_iff {m : Int} : InWord m ↔ ∃ n : Int64, n.toInt = m := by
  constructor
  · rintro ⟨hlow, hhigh⟩
    exact ⟨Int64.ofInt m, Int64.toInt_ofInt_of_le hlow (Int.lt_add_one_of_le hhigh)⟩
  · rintro ⟨n, rfl⟩
    exact ⟨n.le_toInt, n.toInt_le⟩

/-- What is coerced, and to what. -/
structure CoercesNumerals (coerce : Value → Value) : Prop where
  /-- A text becomes an integer when it is a numeral, of a number in range. -/
  integer_iff : ∀ s n, coerce (text s) = integer n ↔
    ∃ m, Numeral.SpellsInteger m s.toList ∧ InWord m ∧ n.toInt = m
  /-- Any other text stays, whatever it begins or ends with. -/
  text_of_other : ∀ s, (¬ ∃ m, Numeral.SpellsInteger m s.toList ∧ InWord m) →
    coerce (text s) = text s
  /-- Values of other kinds stay, with all that is in them. -/
  others : ∀ v : Value, v.kind ≠ .text → coerce v = v
  idempotent : ∀ v, coerce (coerce v) = coerce v
  /-- The decimal text of an integer becomes the integer. -/
  decimal : ∀ n : Int64, coerce (text (toString n.toInt)) = integer n

/-- **The grammar of coercion.** -/
theorem coerce_numerals : CoercesNumerals coerce where
  integer_iff s n := by
    rw [coerce_text_eq_integer_iff]
    constructor
    · exact fun h => ⟨_, h, inWord_iff.mpr ⟨n, rfl⟩, rfl⟩
    · rintro ⟨m, h, -, rfl⟩
      exact h
  text_of_other s h :=
    coerce_text_of_no_word fun n hn => h ⟨_, hn, inWord_iff.mpr ⟨n, rfl⟩⟩
  others _ := coerce_of_kind_ne_text
  idempotent := coerce_coerce
  decimal n := coerce_text_eq_integer_iff.mpr (Numeral.spellsInteger_toString n.toInt)

/-- The least word has no counterpart with a plus. -/
example : (text "-009223372036854775808").coerce = integer (-9223372036854775808) ∧
    (text "+9223372036854775808").coerce = text "+9223372036854775808" := by decide

end Value

end BoundedStore
