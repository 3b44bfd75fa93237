import BoundedStore.Proofs.Json.Printer
import BoundedStore.Proofs.Value.Json

/-!
# Which texts are read as which value

`Value.Spells` is a grammar of values of its own, in which there is nothing of JSON but numbers
without a fraction and an exponent, strings and arrays. It picks out of the grammar of JSON the
texts of those trees that stand for a value without sets (`spells_iff`), and the trees that stand
for none are those with something `Foreign` in them (`ofJson?_eq_none_iff`).

`FollowsGrammar` says with these two what becomes of every text. A text that does not start with a
JSON value is malformed. If it does, what is foreign in this value decides before what comes behind
it does.
-/

namespace BoundedStore

open Json (InRange maxDepth Spelling Blanks Begins)

/-! ## Numbers that are no value -/

namespace Decimal

/-- What keeps a number from being a 64-bit integer. -/
inductive Unfit (d : Decimal) : Prop
  | fraction : d.fraction ≠ none → Unfit d
  | exponent : d.exponent ≠ none → Unfit d
  | minusZero : d.negative = true → d.whole = ['0'] → Unfit d
  | above : d.negative = false → Int64.maxValue.toInt < Numeral.value 0 d.whole → Unfit d
  | below : d.negative = true → -(Numeral.value 0 d.whole : Int) < Int64.minValue.toInt → Unfit d

theorem Unfit.word?_eq_none {d : Decimal} (h : d.Unfit) : d.word? = none := by
  rw [Option.eq_none_iff_forall_not_mem]
  intro n hword
  obtain ⟨m, hinteger, htoWord⟩ := Option.bind_eq_some_iff.mp hword
  obtain ⟨hfraction, hexponent, hzero, hvalue⟩ := integer?_eq_some_iff.mp hinteger
  have hrange : ¬ (m < Int64.minValue.toInt ∨ Int64.maxValue.toInt < m) := fun hout =>
    Option.some_ne_none n (htoWord.symm.trans (toWord?_eq_none_iff.mpr hout))
  cases h with
  | fraction h => exact h hfraction
  | exponent h => exact h hexponent
  | minusZero hnegative h => exact hzero hnegative h
  | above hnegative h =>
    rw [if_neg (by simp [hnegative])] at hvalue
    exact hrange (Or.inr (hvalue ▸ h))
  | below hnegative h =>
    rw [if_pos hnegative] at hvalue
    exact hrange (Or.inl (hvalue ▸ h))

theorem unfit_of_word? {d : Decimal} (h : d.word? = none) : d.Unfit := by
  by_contra hfit
  -- then the number is an integer, and as it is no word it is out of range
  have hinteger : d.integer? = some _ := integer?_eq_some_iff.mpr
    ⟨by_contra fun h => hfit (.fraction h), by_contra fun h => hfit (.exponent h),
      fun hnegative h => hfit (.minusZero hnegative h), rfl⟩
  have hmin : Int64.minValue.toInt ≤ 0 := by decide
  have hmax : 0 ≤ Int64.maxValue.toInt := by decide
  rw [word?, hinteger, Option.bind_some, toWord?_eq_none_iff] at h
  cases hnegative : d.negative with
  | false =>
    rw [hnegative, if_neg Bool.false_ne_true] at h
    exact hfit (.above hnegative (by omega))
  | true =>
    rw [hnegative, if_pos rfl] at h
    exact hfit (.below hnegative (by omega))

theorem word?_eq_none_iff {d : Decimal} : d.word? = none ↔ d.Unfit :=
  ⟨unfit_of_word?, Unfit.word?_eq_none⟩

end Decimal

namespace Value

/-! ## The grammar of values -/

/-- The texts of an integer: its digits without leading zeros, behind a minus if it is negative. -/
inductive SpellsInteger (n : Int64) : List Char → Prop
  | plain {digits : List Char} : Decimal.Whole digits → n.toInt = Numeral.value 0 digits →
    SpellsInteger n digits
  | minus {digits : List Char} : Decimal.Whole digits → digits ≠ ['0'] →
    n.toInt = -(Numeral.value 0 digits : Int) → SpellsInteger n ('-' :: digits)

/-- An integer, a string, or an array of what `inner` spells. Without `inner` there is no array. -/
inductive SpellsOne (inner : Option (Spelling Value)) : Value → List Char → Prop
  | integer {n : Int64} {text : List Char} : SpellsInteger n text →
    SpellsOne inner (integer n) text
  | text {s : String} {text : List Char} : Quoted.Spells s.toList text →
    SpellsOne inner (.text s) ('"' :: (text ++ ['"']))
  | list {spells : Spelling Value} {items : List Value} {text : List Char} : inner = some spells →
    Json.Enclosed spells '[' ']' items text → SpellsOne inner (list items) text

/-- The texts of a value with at most `depth` arrays inside one another. -/
def Spells : (depth : Nat) → Spelling Value
  | 0 => SpellsOne none
  | depth + 1 => SpellsOne (some (Spells depth))

/-- A text that is one value, with blanks around it. -/
def Text (s : String) (v : Value) : Prop :=
  Json.Padded (Spells maxDepth) v s.toList

/-- What stands for no value, or is an array with such a thing in it. -/
inductive Foreign : Json → Prop
  | null : Foreign .null
  | bool (b : Bool) : Foreign (.bool b)
  | number {d : Decimal} : d.Unfit → Foreign (.number d)
  | object (members : List (String × Json)) : Foreign (.object members)
  | item {items : List Json} {j : Json} : j ∈ items → Foreign j → Foreign (.array items)

/-! ## Values as JSON -/

theorem spellsInteger_iff {n : Int64} {text : List Char} :
    SpellsInteger n text ↔ (Decimal.ofInt n.toInt).Spells text := by
  constructor
  · intro h
    cases h with
    | plain hwhole hvalue =>
      have hinteger : Decimal.integer? ⟨false, text, none, none⟩ = some n.toInt :=
        Decimal.integer?_eq_some_iff.mpr ⟨rfl, rfl, nofun, hvalue.symm⟩
      rw [← Decimal.eq_ofInt_of_integer? hwhole hinteger]
      exact Decimal.spells_integer false hwhole
    | @minus digits hwhole hzero hvalue =>
      have hinteger : Decimal.integer? ⟨true, digits, none, none⟩ = some n.toInt :=
        Decimal.integer?_eq_some_iff.mpr ⟨rfl, rfl, fun _ => hzero, hvalue.symm⟩
      rw [← Decimal.eq_ofInt_of_integer? hwhole hinteger]
      exact Decimal.spells_integer true hwhole
  · intro h
    -- of a number that is an integer nothing is left but its sign and its digits
    have hinteger := Decimal.integer?_ofInt n.toInt
    generalize Decimal.ofInt n.toInt = d at h hinteger
    obtain @⟨negative, whole, fraction, exponent, _, _, hwhole, hfraction, hexponent⟩ := h
    obtain ⟨rfl, rfl, hzero, hvalue⟩ : fraction = none ∧ exponent = none ∧
        (negative = true → whole ≠ ['0']) ∧
        (if negative then -(Numeral.value 0 whole : Int) else Numeral.value 0 whole) = n.toInt :=
      Decimal.integer?_eq_some_iff.mp hinteger
    cases hfraction
    cases hexponent
    cases negative with
    | false => simpa using SpellsInteger.plain hwhole hvalue.symm
    | true => simpa using SpellsInteger.minus hwhole (hzero rfl) hvalue.symm

theorem inRange_ofInt (n : Int64) : InRange (Decimal.ofInt n.toInt) := by
  cases Json.readable_word n with
  | number _ hrange => exact hrange

/-- One level of the grammar of values and one of the grammar of JSON. -/
theorem spellsOne_iff {inner : Option (Spelling Value)} {spells : Option (Spelling Json)}
    (h : Option.Rel (fun p q => ∀ v text, p v text ↔ v.SetFree ∧ q v.toJson text) inner spells)
    {v : Value} {text : List Char} :
    SpellsOne inner v text ↔ v.SetFree ∧ Json.SpellsOne InRange spells v.toJson text := by
  constructor
  · intro hv
    cases hv with
    | integer hinteger => exact ⟨trivial, .number (spellsInteger_iff.mp hinteger) (inRange_ofInt _)⟩
    | text hspells => exact ⟨trivial, .text hspells⟩
    | @list _ items _ hinner henclosed =>
      subst hinner
      obtain @⟨_, _, heach⟩ := h
      obtain ⟨hfree, henclosed⟩ := (Json.enclosed_iff_map heach).mp henclosed
      rw [toJson, toJsonItems_eq_map]
      exact ⟨(setFree_list_iff items).mpr hfree, .array rfl henclosed⟩
  · rintro ⟨hfree, hv⟩
    cases v with
    | integer n =>
      cases hv with
      | number hspells _ => exact .integer (spellsInteger_iff.mpr hspells)
    | text s =>
      cases hv with
      | text hspells => exact .text hspells
    | list items =>
      rw [toJson, toJsonItems_eq_map] at hv
      cases hv with
      | array hspells henclosed =>
        subst hspells
        obtain @⟨_, _, heach⟩ := h
        exact .list rfl ((Json.enclosed_iff_map heach).mpr ⟨(setFree_list_iff items).mp hfree,
          henclosed⟩)
    | set members => cases hfree

/-- The texts of values are the JSON texts of values without sets. -/
theorem spells_iff {depth : Nat} {v : Value} {text : List Char} :
    Spells depth v text ↔ v.SetFree ∧ Json.Spells InRange depth v.toJson text := by
  induction depth generalizing v text with
  | zero => exact spellsOne_iff .none
  | succ depth ih => exact spellsOne_iff (.some fun _ _ => ih)

theorem text_iff {s : String} {v : Value} :
    Text s v ↔ v.SetFree ∧ Json.Text InRange s v.toJson := by
  have heach : ∀ v text, Spells maxDepth v text ↔
      v.SetFree ∧ Json.Spells InRange maxDepth v.toJson text := fun _ _ => spells_iff
  exact Json.padded_iff_map heach

/-! ## JSON that is no value -/

theorem ofJsonItems?_eq_none_iff {items : List Json} :
    ofJsonItems? items = none ↔ ∃ j ∈ items, ofJson? j = none := by
  induction items with
  | nil => simp [ofJsonItems?]
  | cons j rest ih =>
    rw [ofJsonItems?, List.exists_mem_cons_iff, ← ih]
    cases ofJson? j <;> cases ofJsonItems? rest <;> simp

theorem Foreign.ofJson?_eq_none {j : Json} (h : Foreign j) : ofJson? j = none := by
  induction h with
  | null | bool | object => rfl
  | number hunfit => rw [ofJson?, hunfit.word?_eq_none, Option.map_none]
  | item hmem _ ih =>
    rw [ofJson?, ofJsonItems?_eq_none_iff.mpr ⟨_, hmem, ih⟩, Option.map_none]

theorem foreign_of_ofJson? (j : Json) (h : ofJson? j = none) : Foreign j := by
  cases j with
  | null => exact .null
  | bool b => exact .bool b
  | number d => exact .number (Decimal.word?_eq_none_iff.mp (Option.map_eq_none_iff.mp h))
  | text s => cases h
  | array items =>
    obtain ⟨k, hmem, hk⟩ := ofJsonItems?_eq_none_iff.mp (Option.map_eq_none_iff.mp h)
    exact .item hmem (foreign_of_ofJson? k hk)
  | object members => exact .object members

theorem ofJson?_eq_none_iff {j : Json} : ofJson? j = none ↔ Foreign j :=
  ⟨foreign_of_ofJson? j, Foreign.ofJson?_eq_none⟩

/-! ## All texts -/

section Read

variable {s : String} {j : Json} {rest : List Char}

theorem read_of_not_begins (h : ¬ ∃ j rest, Begins InRange s.toList j rest) :
    read s = .error .malformed := by
  have hread : Json.read? s.toList = none := by
    rw [Option.eq_none_iff_forall_not_mem]
    exact fun r hr => h ⟨r.1, r.2, Json.read?_eq_some_iff.mp hr⟩
  simp only [read, hread]

theorem read_of_begins (h : Begins InRange s.toList j rest) :
    read s = (ofJson? j).elim (.error .misshapen) fun v =>
      if rest.all Json.isBlank then .ok v else .error .malformed := by
  simp only [read, Json.read?_eq_some_iff.mpr h]
  cases ofJson? j <;> rfl

theorem read_eq_ok_iff (h : Begins InRange s.toList j rest) {v : Value} :
    read s = .ok v ↔ ofJson? j = some v ∧ Blanks rest := by
  rw [read_of_begins h, ← Json.all_isBlank_iff]
  cases ofJson? j with
  | none => simp
  | some w => by_cases hblank : rest.all Json.isBlank = true <;> simp [hblank]

/-- What is foreign is noticed before what follows. -/
theorem read_eq_misshapen_iff (h : Begins InRange s.toList j rest) :
    read s = .error .misshapen ↔ Foreign j := by
  rw [read_of_begins h, ← ofJson?_eq_none_iff]
  cases ofJson? j with
  | none => simp
  | some w => by_cases hblank : rest.all Json.isBlank = true <;> simp [hblank]

theorem read_eq_malformed_iff (h : Begins InRange s.toList j rest) :
    read s = .error .malformed ↔ ¬ Foreign j ∧ ¬ Blanks rest := by
  rw [read_of_begins h, ← ofJson?_eq_none_iff, ← Json.all_isBlank_iff]
  cases ofJson? j with
  | none => simp
  | some w => by_cases hblank : rest.all Json.isBlank = true <;> simp [hblank]

theorem begins_spelled (h : Begins InRange s.toList j rest) : j.Spelled := by
  obtain ⟨_, core, -, hcore, -⟩ := h
  exact ⟨InRange, maxDepth, core, hcore⟩

theorem begins_of_read {r : Except Fault Value} (h : read s = r) (hr : r ≠ .error .malformed) :
    ∃ j rest, Begins InRange s.toList j rest :=
  by_contra fun hnone => hr (h.symm.trans (read_of_not_begins hnone))

theorem read_eq_ok_iff_text {v : Value} : read s = .ok v ↔ Text s v := by
  rw [text_iff, Json.text_iff]
  constructor
  · intro h
    obtain ⟨j, rest, hj⟩ := begins_of_read h nofun
    obtain ⟨hvalue, hrest⟩ := (read_eq_ok_iff hj).mp h
    obtain ⟨hfree, rfl⟩ := (ofJson?_eq_some_iff (begins_spelled hj)).mp hvalue
    exact ⟨hfree, rest, hrest, Json.read?_eq_some_iff.mpr hj⟩
  · rintro ⟨hfree, rest, hrest, hread⟩
    exact (read_eq_ok_iff (Json.read?_eq_some_iff.mp hread)).mpr ⟨ofJson?_toJson hfree, hrest⟩

end Read

/-- What becomes of the texts that are read as values, when a JSON value may have the numbers in it
that are admitted. -/
structure FollowsGrammar (admits : Decimal → Prop) (read : String → Except Fault Value) : Prop where
  /-- A text is read as the value that it is by the grammar. -/
  accepts : ∀ s v, read s = .ok v ↔ Text s v
  /-- No set is read, at any depth. -/
  setFree : ∀ s v, read s = .ok v → v.SetFree
  /-- A text that starts with a JSON value in which something is foreign is refused for its shape,
  whatever follows. -/
  misshapen_iff : ∀ s, read s = .error .misshapen ↔
    ∃ j rest, Begins admits s.toList j rest ∧ Foreign j
  /-- A text is malformed when it does not start with a JSON value, and when more than blanks follow
  a JSON value that is not foreign. -/
  malformed_iff : ∀ s, read s = .error .malformed ↔
    (¬ ∃ j rest, Begins admits s.toList j rest) ∨
      ∃ j rest, Begins admits s.toList j rest ∧ ¬ Foreign j ∧ ¬ Blanks rest
  /-- A number that breaks off is malformed; a shorter one in front of it is not read instead. -/
  greedy : ∀ s blanks cs, Blanks blanks → Decimal.Broken cs →
    s.toList = blanks ++ cs ∨ s.toList = blanks ++ '-' :: cs → read s = .error .malformed

/-- **Values are read by their grammar.** -/
theorem texts_follow_grammar : FollowsGrammar InRange read where
  accepts _ _ := read_eq_ok_iff_text
  setFree _ _ h := (text_iff.mp (read_eq_ok_iff_text.mp h)).1
  misshapen_iff s := by
    constructor
    · intro h
      obtain ⟨j, rest, hj⟩ := begins_of_read h nofun
      exact ⟨j, rest, hj, (read_eq_misshapen_iff hj).mp h⟩
    · rintro ⟨j, rest, hj, hforeign⟩
      exact (read_eq_misshapen_iff hj).mpr hforeign
  malformed_iff s := by
    constructor
    · intro h
      refine or_iff_not_imp_left.mpr fun hbegins => ?_
      obtain ⟨j, rest, hj⟩ := not_not.mp hbegins
      exact ⟨j, rest, hj, (read_eq_malformed_iff hj).mp h⟩
    · rintro (hnone | ⟨j, rest, hj, hmore⟩)
      · exact read_of_not_begins hnone
      · exact (read_eq_malformed_iff hj).mpr hmore
  greedy s blanks cs hblanks hbroken htext := by
    obtain ⟨hplain, hminus⟩ := Json.read?_of_broken hblanks hbroken
    have hread : Json.read? s.toList = none := by
      rcases htext with h | h <;> rw [h] <;> assumption
    simp only [read, hread]

end Value

/-! ## Numbers in the range of a double -/

/-- The largest finite double. -/
def Decimal.greatestDouble : Nat :=
  (Nat.pow 2 53 - 1) * Nat.pow 2 971

/-- No larger than the largest finite double, whatever the sign. -/
def Decimal.FitsDouble (d : Decimal) : Prop :=
  let digits := d.fraction.getD []
  let exponent := d.power - digits.length
  Numeral.value 0 (d.whole ++ digits) * Nat.pow 10 exponent.toNat ≤
    greatestDouble * Nat.pow 10 (-exponent).toNat

namespace Value

/-- What a number is rounded to decides, and not the number: this one is less than the largest
double, and still too large. And a string is malformed as well when it is one by the grammar of JSON
but has half a surrogate pair in it, even in an array with a null. -/
theorem number_below_greatestDouble_malformed :
    ¬ FollowsGrammar Decimal.FitsDouble read ∧
      read "[null,\"\\ud800\"]" = .error .malformed := by
  refine ⟨fun h => ?_, by decide +kernel⟩
  have hread : read "1797693134862315708e290" = .error .malformed := by decide +kernel
  have hwhole : Decimal.Whole "1797693134862315708".toList :=
    ⟨⟨by decide, List.all_eq_true.mp (by decide)⟩, by decide⟩
  have hexponent : Decimal.SpellsExponent (some (false, "290".toList)) "e290".toList :=
    .present (Or.inl rfl) .absent ⟨by decide, List.all_eq_true.mp (by decide)⟩
  have hspells : Decimal.Spells
      ⟨false, "1797693134862315708".toList, none, some (false, "290".toList)⟩
      "1797693134862315708e290".toList := .intro hwhole .absent hexponent
  have hfits : Decimal.FitsDouble
      ⟨false, "1797693134862315708".toList, none, some (false, "290".toList)⟩ := by
    unfold Decimal.FitsDouble
    decide +kernel
  have hbegins : Begins Decimal.FitsDouble "1797693134862315708e290".toList (.number _) [] :=
    ⟨[], _, Json.blanks_nil, .number hspells hfits,
      Json.ends_of_follows Json.blanks_nil.follows_of_end _, (List.append_nil _).symm⟩
  -- it is no integer, so it should have been refused for its shape
  have hmisshapen := (h.misshapen_iff _).mpr
    ⟨_, _, hbegins, .number (.exponent (Option.some_ne_none _))⟩
  rw [hread] at hmisshapen
  cases hmisshapen

end Value

end BoundedStore
