import BoundedStore.Json.Decimal
import Mathlib.Data.List.Basic
import Mathlib.Data.List.Induction

/-!
# What is read as a number

`Decimal.Spells` is the number grammar of JSON: which texts stand for a number of which parts. The
reader takes as much as it can, so it reads such a text when what is behind it does not go on with
the number (`readAny?_of_spells`), and it reads nothing else (`spells_of_readAny?`).

A number is a 64-bit integer only in the shortest form of that integer (`word?_eq_some_iff`): the
grammar has no leading zeros, and a fraction, an exponent or a minus before zero rules it out.
-/

namespace BoundedStore

namespace Decimal

/-! ## The grammar -/

/-- At least one digit, and nothing else. -/
structure Digits (cs : List Char) : Prop where
  ne_nil : cs ≠ []
  isDigit : ∀ c ∈ cs, c.isDigit = true

/-- Digits of which the first is no zero, unless it is the only one. -/
structure Whole (cs : List Char) : Prop extends Digits cs where
  leading : cs.head? = some '0' → cs = ['0']

inductive SpellsFraction : Option (List Char) → List Char → Prop
  | absent : SpellsFraction none []
  | present {digits : List Char} : Digits digits → SpellsFraction (some digits) ('.' :: digits)

/-- The sign of an exponent. -/
inductive SpellsSign : Bool → List Char → Prop
  | absent : SpellsSign false []
  | plus : SpellsSign false ['+']
  | minus : SpellsSign true ['-']

inductive SpellsExponent : Option (Bool × List Char) → List Char → Prop
  | absent : SpellsExponent none []
  | present {e : Char} {negative : Bool} {sign digits : List Char} : e = 'e' ∨ e = 'E' →
    SpellsSign negative sign → Digits digits →
    SpellsExponent (some (negative, digits)) (e :: (sign ++ digits))

/-- The texts that stand for a number. -/
inductive Spells : Decimal → List Char → Prop
  | intro {negative : Bool} {whole : List Char} {fraction : Option (List Char)}
    {exponent : Option (Bool × List Char)} {behindPoint behindE : List Char} : Whole whole →
    SpellsFraction fraction behindPoint → SpellsExponent exponent behindE →
    Spells ⟨negative, whole, fraction, exponent⟩
      ((if negative then ['-'] else []) ++ (whole ++ (behindPoint ++ behindE)))

/-- Digits with nothing but a sign are a number. -/
theorem spells_integer (negative : Bool) {digits : List Char} (h : Whole digits) :
    Spells ⟨negative, digits, none, none⟩ ((if negative then ['-'] else []) ++ digits) := by
  have hspells : Spells ⟨negative, digits, none, none⟩ (_ ++ (digits ++ ([] ++ []))) :=
    .intro h .absent .absent
  rwa [List.append_nil, List.append_nil] at hspells

/-! ## What may follow -/

/-- A text that goes on with no digit. -/
def NoDigit (cs : List Char) : Prop :=
  ∀ c ∈ cs.head?, c.isDigit = false

/-- A text that goes on with nothing that could belong to a number before it. -/
structure Follows (cs : List Char) : Prop where
  noDigit : NoDigit cs
  noPoint : cs.head? ≠ some '.'
  noE : cs.head? ≠ some 'e' ∧ cs.head? ≠ some 'E'

/-- A text that does not go on with a number. What could depends on the parts that the number has:
behind a fraction a point cannot, and behind an exponent neither a point nor an E can. -/
structure Ends (d : Decimal) (cs : List Char) : Prop where
  noDigit : NoDigit cs
  noPoint : d.fraction = none → d.exponent = none → cs.head? ≠ some '.'
  noE : d.exponent = none → cs.head? ≠ some 'e' ∧ cs.head? ≠ some 'E'

theorem Follows.ends {cs : List Char} (h : Follows cs) (d : Decimal) : d.Ends cs :=
  ⟨h.noDigit, fun _ _ => h.noPoint, fun _ => h.noE⟩

/-! ## Digits -/

section Digits

variable {cs digits rest : List Char}

theorem takeWhile_of_noDigit (h : NoDigit rest) : rest.takeWhile Char.isDigit = [] := by
  cases rest with
  | nil => rfl
  | cons c rest => exact List.takeWhile_cons_of_neg (by simp [h c rfl])

theorem dropWhile_of_noDigit (h : NoDigit rest) : rest.dropWhile Char.isDigit = rest := by
  cases rest with
  | nil => rfl
  | cons c rest => exact List.dropWhile_cons_of_neg (by simp [h c rfl])

theorem readDigits?_of_digits (h : Digits digits) (hrest : NoDigit rest) :
    readDigits? (digits ++ rest) = some (digits, rest) := by
  unfold readDigits?
  rw [List.takeWhile_append_of_pos h.isDigit, List.dropWhile_append_of_pos h.isDigit,
    takeWhile_of_noDigit hrest, dropWhile_of_noDigit hrest, List.append_nil]
  cases digits with
  | nil => exact absurd rfl h.ne_nil
  | cons c digits => rfl

theorem digits_of_readDigits? (h : readDigits? cs = some (digits, rest)) :
    cs = digits ++ rest ∧ Digits digits := by
  unfold readDigits? at h
  split at h
  next => cases h
  next hne =>
    obtain ⟨rfl, rfl⟩ := Prod.mk.inj (Option.some.inj h)
    exact ⟨List.takeWhile_append_dropWhile.symm, hne, List.all_eq_true.mp List.all_takeWhile⟩

theorem noDigit_of_readDigits? (h : readDigits? cs = some (digits, rest)) : NoDigit rest := by
  unfold readDigits? at h
  split at h
  next => cases h
  next =>
    obtain ⟨-, rfl⟩ := Prod.mk.inj (Option.some.inj h)
    intro c hc
    have hstop := List.head?_dropWhile_not Char.isDigit cs
    rwa [Option.mem_def.mp hc] at hstop

theorem readWhole?_of_whole (h : Whole digits) (hrest : NoDigit rest) :
    readWhole? (digits ++ rest) = some (digits, rest) := by
  unfold readWhole?
  rw [readDigits?_of_digits h.toDigits hrest]
  split
  next hzero =>
    obtain ⟨rfl, -⟩ := Prod.mk.inj (Option.some.inj hzero)
    cases h.leading rfl
  next => rfl

theorem whole_of_readWhole? (h : readWhole? cs = some (digits, rest)) :
    cs = digits ++ rest ∧ Whole digits ∧ NoDigit rest := by
  unfold readWhole? at h
  split at h
  next => cases h
  next hleading =>
    obtain ⟨hsplit, hdigits⟩ := digits_of_readDigits? h
    refine ⟨hsplit, ⟨hdigits, fun hzero => ?_⟩, noDigit_of_readDigits? h⟩
    obtain ⟨others, rfl⟩ := List.head?_eq_some_iff.mp hzero
    cases others with
    | nil => rfl
    | cons c others => exact absurd h (hleading c others rest)

end Digits

/-! ## Fractions and exponents -/

section Parts

variable {cs text rest : List Char}

theorem readFraction?_of_spells {fraction : Option (List Char)} (h : SpellsFraction fraction text)
    (hdigit : NoDigit rest) (hpoint : fraction = none → rest.head? ≠ some '.') :
    readFraction? (text ++ rest) = some (fraction, rest) := by
  cases h with
  | absent =>
    rw [List.nil_append]
    unfold readFraction?
    split
    next => exact absurd rfl (hpoint rfl)
    next => rfl
  | present hdigits =>
    show (readDigits? (_ ++ rest)).map _ = _
    rw [readDigits?_of_digits hdigits hdigit]
    rfl

/-- A fraction is read up to what does not go on with it. -/
theorem spells_of_readFraction? {fraction : Option (List Char)} (hdigit : NoDigit cs)
    (h : readFraction? cs = some (fraction, rest)) :
    ∃ text, cs = text ++ rest ∧ SpellsFraction fraction text ∧ NoDigit rest ∧
      (fraction = none → rest.head? ≠ some '.') := by
  unfold readFraction? at h
  split at h
  next =>
    obtain ⟨⟨digits, last⟩, hread, hpair⟩ := Option.map_eq_some_iff.mp h
    obtain ⟨rfl, rfl⟩ := Prod.mk.inj hpair
    obtain ⟨rfl, hdigits⟩ := digits_of_readDigits? hread
    exact ⟨'.' :: digits, rfl, .present hdigits, noDigit_of_readDigits? hread, nofun⟩
  next hpoint =>
    obtain ⟨rfl, rfl⟩ := Prod.mk.inj (Option.some.inj h)
    refine ⟨[], rfl, .absent, hdigit, fun _ hhead => ?_⟩
    obtain ⟨others, rfl⟩ := List.head?_eq_some_iff.mp hhead
    exact hpoint others rfl

theorem readSign_of_spells {negative : Bool} (h : SpellsSign negative text)
    (hsign : rest.head? ≠ some '-' ∧ rest.head? ≠ some '+') :
    readSign (text ++ rest) = (negative, rest) := by
  cases h with
  | absent =>
    rw [List.nil_append]
    unfold readSign
    split
    next => exact absurd rfl hsign.1
    next => exact absurd rfl hsign.2
    next => rfl
  | plus => rfl
  | minus => rfl

theorem spells_of_readSign (cs : List Char) :
    ∃ text, cs = text ++ (readSign cs).2 ∧ SpellsSign (readSign cs).1 text := by
  unfold readSign
  split
  · exact ⟨['-'], rfl, .minus⟩
  · exact ⟨['+'], rfl, .plus⟩
  · exact ⟨[], rfl, .absent⟩

theorem Digits.head?_ne {digits : List Char} (h : Digits digits) {c : Char}
    (hc : c.isDigit = false) : (digits ++ rest).head? ≠ some c := by
  cases digits with
  | nil => exact absurd rfl h.ne_nil
  | cons first digits =>
    intro hhead
    obtain rfl := Option.some.inj hhead
    exact Bool.false_ne_true (hc.symm.trans (h.isDigit _ List.mem_cons_self))

theorem readExponent?_of_spells {exponent : Option (Bool × List Char)}
    (h : SpellsExponent exponent text) (hdigit : NoDigit rest)
    (he : exponent = none → rest.head? ≠ some 'e' ∧ rest.head? ≠ some 'E') :
    readExponent? (text ++ rest) = some (exponent, rest) := by
  cases h with
  | absent =>
    cases rest with
    | nil => rfl
    | cons c rest =>
      have hne : ¬ (c = 'e' ∨ c = 'E') := fun h =>
        h.elim (fun e => (he rfl).1 (congrArg some e)) fun e => (he rfl).2 (congrArg some e)
      simp [readExponent?, hne]
  | @present e negative sign digits hletter hsign hdigits =>
    have hread : readSign (sign ++ (digits ++ rest)) = (negative, digits ++ rest) :=
      readSign_of_spells hsign ⟨hdigits.head?_ne (by decide), hdigits.head?_ne (by decide)⟩
    simp [readExponent?, hletter, hread, readDigits?_of_digits hdigits hdigit]

/-- An exponent is read up to what does not go on with it. -/
theorem spells_of_readExponent? {exponent : Option (Bool × List Char)} (hdigit : NoDigit cs)
    (h : readExponent? cs = some (exponent, rest)) :
    ∃ text, cs = text ++ rest ∧ SpellsExponent exponent text ∧ NoDigit rest ∧
      (exponent = none → rest = cs ∧ rest.head? ≠ some 'e' ∧ rest.head? ≠ some 'E') := by
  unfold readExponent? at h
  split at h
  next =>
    obtain ⟨rfl, rfl⟩ := Prod.mk.inj (Option.some.inj h)
    exact ⟨[], rfl, .absent, hdigit, fun _ => ⟨rfl, nofun, nofun⟩⟩
  next c others =>
    split at h
    next he =>
      obtain ⟨⟨digits, last⟩, hread, hpair⟩ := Option.map_eq_some_iff.mp h
      obtain ⟨rfl, rfl⟩ := Prod.mk.inj hpair
      obtain ⟨hsplit, hdigits⟩ := digits_of_readDigits? hread
      obtain ⟨sign, hothers, hsign⟩ := spells_of_readSign others
      refine ⟨c :: (sign ++ digits), ?_, .present (by simpa using he) hsign hdigits,
        noDigit_of_readDigits? hread, nofun⟩
      rw [hsplit] at hothers
      rw [hothers, List.cons_append, List.append_assoc]
    next he =>
      obtain ⟨rfl, rfl⟩ := Prod.mk.inj (Option.some.inj h)
      exact ⟨[], rfl, .absent, hdigit, fun _ => ⟨rfl, by simpa using he⟩⟩

end Parts

/-! ## Numbers -/

section Numbers

variable {d : Decimal} {cs text rest : List Char}

/-- What follows a fraction in a number, or behind it, is no digit, and no point unless one may
stand behind the number. -/
theorem head?_append_of_spellsExponent {exponent : Option (Bool × List Char)}
    (h : SpellsExponent exponent text) (hdigit : NoDigit rest) :
    NoDigit (text ++ rest) ∧
      ((exponent = none → rest.head? ≠ some '.') → (text ++ rest).head? ≠ some '.') := by
  cases h with
  | absent => exact ⟨hdigit, fun hpoint => hpoint rfl⟩
  | present he => rcases he with rfl | rfl <;> exact ⟨by simp [NoDigit], by simp⟩

theorem noDigit_append_of_spellsFraction {fraction : Option (List Char)}
    (h : SpellsFraction fraction text) (hrest : NoDigit rest) : NoDigit (text ++ rest) := by
  cases h with
  | absent => exact hrest
  | present => simp [NoDigit]

theorem readUnsigned?_of_spells {negative : Bool} {whole : List Char}
    {fraction : Option (List Char)} {exponent : Option (Bool × List Char)}
    {behindPoint behindE : List Char} (hwhole : Whole whole)
    (hfraction : SpellsFraction fraction behindPoint) (hexponent : SpellsExponent exponent behindE)
    (hrest : Ends ⟨negative, whole, fraction, exponent⟩ rest) :
    readUnsigned? negative (whole ++ (behindPoint ++ (behindE ++ rest))) =
      some (⟨negative, whole, fraction, exponent⟩, rest) := by
  -- each part ends where the next one starts
  obtain ⟨hdigit, hpoint⟩ := head?_append_of_spellsExponent hexponent hrest.noDigit
  have hbehind := noDigit_append_of_spellsFraction hfraction hdigit
  have hfirst := readFraction?_of_spells hfraction hdigit fun hnone => hpoint (hrest.noPoint hnone)
  simp only [readUnsigned?, Option.bind_eq_bind, Option.bind_some, Option.pure_def,
    readWhole?_of_whole hwhole hbehind, hfirst,
    readExponent?_of_spells hexponent hrest.noDigit hrest.noE]

theorem spells_of_readUnsigned? {negative : Bool}
    (h : readUnsigned? negative cs = some (d, rest)) :
    ∃ text, cs = text ++ rest ∧ d.Spells ((if negative then ['-'] else []) ++ text) ∧
      d.Ends rest := by
  simp only [readUnsigned?, Option.bind_eq_bind, Option.bind_eq_some_iff, Option.pure_def] at h
  obtain ⟨⟨whole, _⟩, hfirst, ⟨fraction, _⟩, hsecond, ⟨exponent, _⟩, hthird, hparts⟩ := h
  obtain ⟨rfl, rfl⟩ := Prod.mk.inj (Option.some.inj hparts)
  obtain ⟨rfl, hwhole, hdigit⟩ := whole_of_readWhole? hfirst
  obtain ⟨behindPoint, rfl, hfraction, hdigit, hpoint⟩ := spells_of_readFraction? hdigit hsecond
  obtain ⟨behindE, rfl, hexponent, hdigit, he⟩ := spells_of_readExponent? hdigit hthird
  refine ⟨whole ++ (behindPoint ++ behindE), by simp, .intro hwhole hfraction hexponent, hdigit,
    fun hwithout hnone => ?_, fun hnone => (he hnone).2⟩
  rw [(he hnone).1]
  exact hpoint hwithout

theorem readAny?_of_spells (h : d.Spells text) (hrest : d.Ends rest) :
    readAny? (text ++ rest) = some (d, rest) := by
  obtain @⟨negative, whole, fraction, exponent, behindPoint, behindE, hwhole, hfraction,
    hexponent⟩ := h
  have hread : readUnsigned? negative (whole ++ (behindPoint ++ (behindE ++ rest))) = _ :=
    readUnsigned?_of_spells hwhole hfraction hexponent hrest
  cases negative with
  | true => simpa [readAny?] using hread
  | false =>
    have hsign : (whole ++ (behindPoint ++ (behindE ++ rest))).head? ≠ some '-' :=
      hwhole.toDigits.head?_ne (by decide)
    simp only [Bool.false_eq_true, if_false, List.nil_append, List.append_assoc]
    unfold readAny?
    split
    next hminus => exact absurd (congrArg List.head? hminus) hsign
    next => exact hread

theorem spells_of_readAny? (h : readAny? cs = some (d, rest)) :
    ∃ text, cs = text ++ rest ∧ d.Spells text ∧ d.Ends rest := by
  unfold readAny? at h
  split at h
  next =>
    obtain ⟨text, rfl, hspells, hrest⟩ := spells_of_readUnsigned? h
    exact ⟨'-' :: text, rfl, hspells, hrest⟩
  next => exact spells_of_readUnsigned? h

/-- What starts as a number and then does not go on as the reader, which takes as much as it can,
needs it to: a digit behind a leading zero, a point without a digit behind it, or the letter E
without the digits of an exponent behind it. -/
inductive Broken : List Char → Prop
  | leading {c : Char} {rest : List Char} : c.isDigit = true → Broken ('0' :: c :: rest)
  | point {whole rest : List Char} : Whole whole → NoDigit rest → Broken (whole ++ '.' :: rest)
  | letter {whole behindPoint rest : List Char} {fraction : Option (List Char)} {e : Char} :
    Whole whole → SpellsFraction fraction behindPoint → e = 'e' ∨ e = 'E' →
    (∀ negative sign digits others, SpellsSign negative sign → Digits digits →
      rest ≠ sign ++ (digits ++ others)) →
    Broken (whole ++ (behindPoint ++ e :: rest))

theorem readUnsigned?_of_broken (negative : Bool) (h : Broken cs) :
    readUnsigned? negative cs = none := by
  cases h with
  | leading hdigit => simp [readUnsigned?, readWhole?, readDigits?, hdigit]
  | @point whole rest hwhole hrest =>
    have hpoint : NoDigit ('.' :: rest) := by simp [NoDigit]
    have hdigits : readDigits? rest = none := by
      simp [readDigits?, takeWhile_of_noDigit hrest]
    simp [readUnsigned?, readWhole?_of_whole hwhole hpoint, readFraction?, hdigits]
  | @letter whole behindPoint rest fraction e hwhole hfraction he hnone =>
    have hletter : NoDigit (e :: rest) ∧ (e :: rest).head? ≠ some '.' := by
      rcases he with rfl | rfl <;> exact ⟨by simp [NoDigit], by simp⟩
    have hbehind := noDigit_append_of_spellsFraction hfraction hletter.1
    -- the digits would have to stand behind the sign that is read, if there is one
    have hdigits : readDigits? (readSign rest).2 = none := by
      rw [Option.eq_none_iff_forall_not_mem]
      rintro ⟨digits, others⟩ hread
      obtain ⟨sign, hsplit, hsign⟩ := spells_of_readSign rest
      obtain ⟨hothers, hdigits⟩ := digits_of_readDigits? hread
      exact hnone _ sign digits others hsign hdigits (hothers ▸ hsplit)
    simp [readUnsigned?, readWhole?_of_whole hwhole hbehind,
      readFraction?_of_spells hfraction hletter.1 fun _ => hletter.2, readExponent?, he, hdigits]

theorem Broken.exists_cons (h : Broken cs) : ∃ c others, cs = c :: others ∧ c.isDigit = true := by
  have hfirst : ∀ {whole}, Whole whole → ∀ behind,
      ∃ c others, whole ++ behind = c :: others ∧ c.isDigit = true := by
    intro whole hwhole behind
    obtain ⟨c, others, rfl⟩ := List.exists_cons_of_ne_nil hwhole.ne_nil
    exact ⟨c, others ++ behind, rfl, hwhole.isDigit c List.mem_cons_self⟩
  cases h with
  | leading => exact ⟨'0', _, rfl, rfl⟩
  | point hwhole => exact hfirst hwhole _
  | letter hwhole => exact hfirst hwhole _

theorem readAny?_of_broken (h : Broken cs) : readAny? cs = none ∧ readAny? ('-' :: cs) = none := by
  refine ⟨?_, readUnsigned?_of_broken true h⟩
  obtain ⟨c, others, rfl, hdigit⟩ := h.exists_cons
  unfold readAny?
  split
  next hminus =>
    obtain rfl := (List.cons.inj hminus).1
    cases hdigit
  next => exact readUnsigned?_of_broken false h

/-- A number starts with a minus or a digit. -/
theorem Spells.exists_cons (h : d.Spells text) :
    ∃ c others, text = c :: others ∧ (c = '-' ∨ c.isDigit = true) := by
  obtain @⟨negative, whole, _, _, behindPoint, behindE, hwhole, -, -⟩ := h
  cases negative with
  | true => exact ⟨'-', _, rfl, Or.inl rfl⟩
  | false =>
    obtain ⟨c, others, rfl⟩ := List.exists_cons_of_ne_nil hwhole.ne_nil
    exact ⟨c, _, rfl, Or.inr (hwhole.isDigit c List.mem_cons_self)⟩

end Numbers

/-! ## Integers -/

section Integers

theorem digitChar_digit {c : Char} (h : c.isDigit = true) :
    Numeral.digit c < 10 ∧ (Numeral.digit c).digitChar = c := by
  have hrange : 48 ≤ c.toNat ∧ c.toNat ≤ 57 := by
    simpa [Char.isDigit, UInt32.le_iff_toNat_le] using h
  have hdigit : Numeral.digit c = c.toNat - 48 := rfl
  have hlt : Numeral.digit c < 10 := by omega
  refine ⟨hlt, Char.toNat_inj.mp ?_⟩
  rw [Nat.toNat_digitChar_of_lt_ten hlt]
  omega

/-- Digits without a leading zero are those of the number that they denote. -/
theorem toDigits_value {digits : List Char} (h : Whole digits) :
    Nat.toDigits 10 (Numeral.value 0 digits) = digits := by
  induction digits using List.reverseRecOn with
  | nil => exact absurd rfl h.ne_nil
  | append_singleton before c ih =>
    obtain ⟨hlt, hchar⟩ := digitChar_digit (h.isDigit c (by simp))
    have hvalue : Numeral.value 0 (before ++ [c]) =
        10 * Numeral.value 0 before + Numeral.digit c := by
      simp [Numeral.value]
    rw [hvalue]
    -- what stands before the last digit has no leading zero either, and so does not denote zero
    cases before with
    | nil => simpa [Numeral.value, hchar] using Nat.toDigits_of_lt_base hlt
    | cons first others =>
      have hzero : first ≠ '0' := by
        rintro rfl
        simpa using h.leading rfl
      have hbefore : Whole (first :: others) :=
        ⟨⟨by simp, fun x hx => h.isDigit x (List.mem_append_left [c] hx)⟩,
          fun hhead => absurd (Option.some.inj hhead) hzero⟩
      have hdigits := ih hbefore
      have hpos : 0 < Numeral.value 0 (first :: others) := by
        refine Nat.pos_of_ne_zero fun hnone => hzero ?_
        rw [hnone, Nat.toDigits_zero] at hdigits
        exact (List.cons.inj hdigits).1.symm
      rw [← Nat.toDigits_append_toDigits (by decide) hpos hlt, hdigits,
        Nat.toDigits_of_lt_base hlt, hchar]

theorem value_toDigits (n : Nat) : Numeral.value 0 (Nat.toDigits 10 n) = n :=
  Nat.ofDigitChars_ten_toDigits

/-- A number is an integer when it is written as one: digits alone, behind a minus only if they are
not those of zero. -/
theorem integer?_eq_some_iff {d : Decimal} {n : Int} :
    d.integer? = some n ↔ d.fraction = none ∧ d.exponent = none ∧
      (d.negative = true → d.whole ≠ ['0']) ∧
      (if d.negative then -(Numeral.value 0 d.whole : Int) else Numeral.value 0 d.whole) = n := by
  simp [integer?, and_assoc, imp_iff_not_or]

theorem integer?_ofInt (n : Int) : (ofInt n).integer? = some n := by
  cases n with
  | ofNat n => simp [integer?, ofInt, value_toDigits]
  | negSucc n =>
    -- only zero has the digit zero alone
    have hzero : Nat.toDigits 10 (n + 1) ≠ ['0'] := fun h => by
      have hvalue := value_toDigits (n + 1)
      rw [h] at hvalue
      cases hvalue
    simp only [integer?, ofInt, value_toDigits, hzero, Option.isNone_none, decide_false,
      Bool.and_false, Bool.not_false, Bool.and_self, if_true]
    rfl

theorem eq_ofInt_of_integer? {d : Decimal} {n : Int} (hwhole : Whole d.whole)
    (h : d.integer? = some n) : d = ofInt n := by
  obtain ⟨negative, whole, fraction, exponent⟩ := d
  obtain ⟨rfl, rfl, hzero, rfl⟩ : fraction = none ∧ exponent = none ∧
      (negative = true → whole ≠ ['0']) ∧
      (if negative then -(Numeral.value 0 whole : Int) else Numeral.value 0 whole) = n :=
    integer?_eq_some_iff.mp h
  have hdigits : Nat.toDigits 10 (Numeral.value 0 whole) = whole := toDigits_value hwhole
  cases negative with
  | false => exact (congrArg (Decimal.mk false · none none) hdigits).symm
  | true =>
    cases hvalue : Numeral.value 0 whole with
    | zero =>
      rw [hvalue, Nat.toDigits_zero] at hdigits
      exact absurd hdigits.symm (hzero rfl)
    | succ m =>
      rw [hvalue] at hdigits
      exact (congrArg (Decimal.mk true · none none) hdigits).symm

theorem toWord?_eq_some_iff {n : Int} {w : Int64} : Numeral.toWord? n = some w ↔ n = w.toInt := by
  unfold Numeral.toWord?
  constructor
  · intro h
    split at h
    next hrange =>
      obtain rfl := Option.some.inj h
      exact (Int64.toInt_ofInt_of_le hrange.1 (Int.lt_add_one_of_le hrange.2)).symm
    next => cases h
  · rintro rfl
    rw [if_pos ⟨w.le_toInt, w.toInt_le⟩, Int64.ofInt_toInt]

theorem toWord?_eq_none_iff {n : Int} :
    Numeral.toWord? n = none ↔ n < Int64.minValue.toInt ∨ Int64.maxValue.toInt < n := by
  simp [Numeral.toWord?, imp_iff_not_or]

theorem word?_ofInt (w : Int64) : (ofInt w.toInt).word? = some w := by
  unfold word?
  rw [integer?_ofInt]
  exact toWord?_eq_some_iff.mpr rfl

/-- A number is a word in its shortest form only. -/
theorem word?_eq_some_iff {d : Decimal} (hwhole : Whole d.whole) {w : Int64} :
    d.word? = some w ↔ d = ofInt w.toInt := by
  constructor
  · intro h
    obtain ⟨n, hinteger, hword⟩ := Option.bind_eq_some_iff.mp h
    obtain rfl := toWord?_eq_some_iff.mp hword
    exact eq_ofInt_of_integer? hwhole hinteger
  · rintro rfl
    exact word?_ofInt w

end Integers

end Decimal

end BoundedStore
