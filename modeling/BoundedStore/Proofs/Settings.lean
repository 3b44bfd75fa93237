import BoundedStore.Proofs.Store.Basic
import BoundedStore.Proofs.Text.Numeral
import BoundedStore.Settings

/-!
# The settings that an environment gives

A variable that is set holds a number of its range, with blanks around its numeral, or it offends.
With no offending variable the settings are the numbers of the variables, and the defaults where a
variable is not set. Otherwise the first of the variables that offend is the one that is named, and
it is quoted with its blanks (`settings_of_environment`).

What is cut off is blank and a numeral has no blanks in it, so the text that is left after the
cutting is the numeral if there is one (`upTo?_trim_eq_some_iff`).
-/

namespace BoundedStore

/-! ## Cutting off blanks -/

namespace Blank

theorem isBlank_of_isDigit {c : Char} (h : c.isDigit = true) : isBlank c = false := by
  have hrange : 48 ≤ c.toNat ∧ c.toNat ≤ 57 := by
    simpa [Char.isDigit, UInt32.le_iff_toNat_le] using h
  simp only [isBlank, ranges, List.any_cons, List.any_nil, Bool.or_false, Bool.or_eq_false_iff,
    Bool.and_eq_false_iff, decide_eq_false_iff_not]
  omega

theorem dropWhile_of_padded {before cs : List Char} (hbefore : ∀ c ∈ before, isBlank c = true)
    (hhead : ∀ c ∈ cs.head?, isBlank c = false) : (before ++ cs).dropWhile isBlank = cs := by
  rw [List.dropWhile_append_of_pos hbefore]
  cases cs with
  | nil => rfl
  | cons c rest => exact List.dropWhile_cons_of_neg (by simp [hhead c rfl])

/-- Around a text that has no blanks in it, all blanks are cut off. -/
theorem trim_of_padded {before cs after : List Char} (hbefore : ∀ c ∈ before, isBlank c = true)
    (hafter : ∀ c ∈ after, isBlank c = true) (hne : cs ≠ []) (hcs : ∀ c ∈ cs, isBlank c = false) :
    trim (before ++ (cs ++ after)) = cs := by
  have hfront : (before ++ (cs ++ after)).dropWhile isBlank = cs ++ after := by
    refine dropWhile_of_padded hbefore fun c hc => hcs c ?_
    rw [List.head?_append_of_ne_nil _ hne] at hc
    exact List.mem_of_mem_head? hc
  have hback : (after.reverse ++ cs.reverse).dropWhile isBlank = cs.reverse := by
    refine dropWhile_of_padded (by simpa using hafter) fun c hc => hcs c ?_
    exact List.mem_reverse.mp (List.mem_of_mem_head? hc)
  unfold trim
  rw [hfront, List.reverse_append, hback, List.reverse_reverse]

/-- Nothing is cut off but blanks. -/
theorem exists_padding (cs : List Char) : ∃ before after, cs = before ++ (trim cs ++ after) ∧
    (∀ c ∈ before, isBlank c = true) ∧ ∀ c ∈ after, isBlank c = true := by
  have hfront := List.takeWhile_append_dropWhile (p := isBlank) (l := cs)
  have hback := List.takeWhile_append_dropWhile (p := isBlank)
    (l := (cs.dropWhile isBlank).reverse)
  refine ⟨cs.takeWhile isBlank, ((cs.dropWhile isBlank).reverse.takeWhile isBlank).reverse, ?_,
    List.all_eq_true.mp List.all_takeWhile, fun c hc => ?_⟩
  · have hrest := congrArg List.reverse hback
    rw [List.reverse_append, List.reverse_reverse] at hrest
    unfold trim
    rw [hrest, hfront]
  · exact List.all_eq_true.mp List.all_takeWhile c (List.mem_reverse.mp hc)

end Blank

/-! ## Variables -/

namespace Settings

/-- The variables of an environment. -/
inductive Variable where
  | maxEntries
  | serverPort
  | rngSeed
  deriving DecidableEq

namespace Variable

def name : Variable → String
  | maxEntries => "MAX_ENTRIES"
  | serverPort => "SERVER_PORT"
  | rngSeed => "RNG_SEED"

/-- The greatest number that can be set: that of a 64-bit word, and of a 16-bit one for a port. -/
def most : Variable → Nat
  | maxEntries | rngSeed => 2 ^ 64 - 1
  | serverPort => 2 ^ 16 - 1

/-- The place of a variable in the order in which they are looked at. -/
def place : Variable → Nat
  | maxEntries => 0
  | serverPort => 1
  | rngSeed => 2

def bytes? (v : Variable) (e : Environment) : Option ByteArray :=
  match v with
  | maxEntries => e.maxEntries
  | serverPort => e.serverPort
  | rngSeed => e.rngSeed

/-- What a variable is set to. One that is no UTF-8 text counts as not set. -/
def text? (v : Variable) (e : Environment) : Option String :=
  (v.bytes? e).bind String.fromUTF8?

/-- A numeral of a number in range, with any blanks around it. -/
structure Spells (v : Variable) (n : Nat) (text : String) : Prop where
  le_most : n ≤ v.most
  padded : ∃ before cs after, text.toList = before ++ (cs ++ after) ∧
    Numeral.SpellsNatural n cs ∧ (∀ c ∈ before, Blank.isBlank c = true) ∧
    ∀ c ∈ after, Blank.isBlank c = true

/-- A variable is not set, or it is set to a number. -/
inductive Gives (v : Variable) (e : Environment) : Option Nat → Prop
  | unset (h : v.text? e = none) : Gives v e none
  | number {text : String} {n : Nat} (h : v.text? e = some text) (hspells : v.Spells n text) :
    Gives v e (some n)

/-- A variable is set, and not to a number in its range. -/
structure Offends (v : Variable) (e : Environment) (text : String) : Prop where
  text_eq : v.text? e = some text
  not_spells : ∀ n, ¬ v.Spells n text

/-- No variable that is looked at before offends as well. -/
structure OffendsFirst (v : Variable) (e : Environment) (text : String) : Prop
    extends Offends v e text where
  first : ∀ w : Variable, w.place < v.place → ∀ other, ¬ w.Offends e other

/-- What is said about a variable that offends. -/
def refusal (v : Variable) (text : String) : StoreError :=
  .invalidConfiguration (v.name ++ " has invalid value '" ++ text ++ "'")

/-! ## One variable -/

/-- The characters of a numeral are not blank. -/
theorem isBlank_of_spellsNatural {n : Nat} {cs : List Char} (h : Numeral.SpellsNatural n cs) :
    cs ≠ [] ∧ ∀ c ∈ cs, Blank.isBlank c = false := by
  cases h with
  | digits hdigits =>
    exact ⟨hdigits.ne_nil, fun c hc => Blank.isBlank_of_isDigit (hdigits.isDigit c hc)⟩
  | plus hdigits =>
    refine ⟨List.cons_ne_nil _ _, fun c hc => ?_⟩
    rcases List.mem_cons.mp hc with rfl | hrest
    · decide
    · exact Blank.isBlank_of_isDigit (hdigits.isDigit c hrest)

theorem upTo?_trim_eq_some_iff {v : Variable} {n : Nat} {text : String} :
    Numeral.upTo? v.most (Blank.trim text.toList) = some n ↔ v.Spells n text := by
  rw [Numeral.upTo?_eq_some_iff]
  constructor
  · rintro ⟨hspells, hmost⟩
    obtain ⟨before, after, htext, hbefore, hafter⟩ := Blank.exists_padding text.toList
    exact ⟨hmost, before, _, after, htext, hspells, hbefore, hafter⟩
  · rintro ⟨hmost, before, cs, after, htext, hspells, hbefore, hafter⟩
    obtain ⟨hne, hcs⟩ := isBlank_of_spellsNatural hspells
    rw [htext, Blank.trim_of_padded hbefore hafter hne hcs]
    exact ⟨hspells, hmost⟩

/-- A text spells one number at most. -/
theorem Spells.unique {v : Variable} {m n : Nat} {text : String} (hm : v.Spells m text)
    (hn : v.Spells n text) : m = n :=
  Option.some.inj ((upTo?_trim_eq_some_iff.mpr hm).symm.trans (upTo?_trim_eq_some_iff.mpr hn))

def read (v : Variable) (e : Environment) : Except StoreError (Option Nat) :=
  readVariable v.name v.most (v.bytes? e)

/-- A variable is read as what it gives, or it is refused since it offends. -/
theorem read_cases (v : Variable) (e : Environment) :
    (∃ given, v.Gives e given ∧ v.read e = .ok given) ∨
      ∃ text, v.Offends e text ∧ v.read e = .error (v.refusal text) := by
  have htext?_eq : (v.bytes? e).bind String.fromUTF8? = v.text? e := rfl
  unfold read readVariable
  rw [htext?_eq]
  cases htext : v.text? e with
  | none => exact Or.inl ⟨none, .unset htext, rfl⟩
  | some text =>
    cases hnumber : Numeral.upTo? v.most (Blank.trim text.toList) with
    | some n =>
      have hspells := upTo?_trim_eq_some_iff.mp hnumber
      exact Or.inl ⟨some n, .number htext hspells, by simp only [hnumber]⟩
    | none =>
      have hoffends : v.Offends e text := ⟨htext, fun n hspells => by
        rw [upTo?_trim_eq_some_iff.mpr hspells] at hnumber
        cases hnumber⟩
      exact Or.inr ⟨text, hoffends, by simp only [hnumber]; rfl⟩

theorem Gives.unique {v : Variable} {e : Environment} {a b : Option Nat} (ha : v.Gives e a)
    (hb : v.Gives e b) : a = b := by
  cases ha with
  | unset hnone =>
    cases hb with
    | unset => rfl
    | number htext => cases hnone.symm.trans htext
  | number htext hspells =>
    cases hb with
    | unset hnone => cases hnone.symm.trans htext
    | number htext' hspells' =>
      obtain rfl := Option.some.inj (htext.symm.trans htext')
      rw [hspells.unique hspells']

/-- A variable that gives something is not set, or is set to a number. -/
theorem Gives.spells_of_text {v : Variable} {e : Environment} {given : Option Nat}
    (h : v.Gives e given) {text : String} (htext : v.text? e = some text) :
    ∃ n, v.Spells n text := by
  cases h with
  | unset hnone => cases hnone.symm.trans htext
  | number htext' hspells =>
    obtain rfl := Option.some.inj (htext.symm.trans htext')
    exact ⟨_, hspells⟩

theorem Gives.not_offends {v : Variable} {e : Environment} {given : Option Nat}
    (h : v.Gives e given) (text : String) : ¬ v.Offends e text := by
  rintro ⟨htext, hnot⟩
  obtain ⟨n, hspells⟩ := h.spells_of_text htext
  exact hnot n hspells

theorem Gives.le_most {v : Variable} {e : Environment} {n : Nat} (h : v.Gives e (some n)) :
    n ≤ v.most := by
  cases h with
  | number _ hspells => exact hspells.le_most

/-- There is one first variable that offends, at most. -/
theorem OffendsFirst.unique {v w : Variable} {e : Environment} {text other : String}
    (hv : v.OffendsFirst e text) (hw : w.OffendsFirst e other) : v = w ∧ text = other := by
  have hsame : v = w := by
    rcases Nat.lt_trichotomy v.place w.place with hlt | hplace | hlt
    · exact absurd hv.toOffends (hw.first v hlt text)
    · cases v <;> cases w <;> first | rfl | cases hplace
    · exact absurd hw.toOffends (hv.first w hlt other)
  subst hsame
  exact ⟨rfl, Option.some.inj (hv.text_eq.symm.trans hw.text_eq)⟩

end Variable

/-! ## All variables -/

/-- The settings are the numbers that are given, and the defaults where none is. -/
structure Holds (settings : Settings) (entries port seed : Option Nat) : Prop where
  maxEntries_eq : settings.maxEntries.toNat = entries.getD 1000
  serverPort_eq : settings.serverPort.toNat = port.getD 3000
  seed_eq : settings.seed.map UInt64.toNat = seed

theorem Holds.unique {a b : Settings} {entries port seed : Option Nat}
    (ha : a.Holds entries port seed) (hb : b.Holds entries port seed) : a = b := by
  obtain ⟨aEntries, aPort, aSeed⟩ := a
  obtain ⟨bEntries, bPort, bSeed⟩ := b
  have hentries : aEntries = bEntries :=
    UInt64.toNat.inj (ha.maxEntries_eq.trans hb.maxEntries_eq.symm)
  have hport : aPort = bPort := UInt16.toNat.inj (ha.serverPort_eq.trans hb.serverPort_eq.symm)
  have hseed : aSeed = bSeed :=
    Option.map_injective (fun _ _ => UInt64.toNat.inj) (ha.seed_eq.trans hb.seed_eq.symm)
  rw [hentries, hport, hseed]

/-- The settings that are made of what the variables give. -/
def ofNumbers (entries port seed : Option Nat) : Settings where
  maxEntries := (entries.map Nat.toUInt64).getD default.maxEntries
  serverPort := (port.map Nat.toUInt16).getD default.serverPort
  seed := seed.map Nat.toUInt64

/-- No number is too large for its word. -/
theorem holds_ofNumbers {e : Environment} {entries port seed : Option Nat}
    (hentries : Variable.Gives .maxEntries e entries) (hport : Variable.Gives .serverPort e port)
    (hseed : Variable.Gives .rngSeed e seed) :
    (ofNumbers entries port seed).Holds entries port seed where
  maxEntries_eq := by
    cases entries with
    | none => rfl
    | some n => exact UInt64.toNat_ofNat_of_lt (Nat.lt_succ_of_le hentries.le_most)
  serverPort_eq := by
    cases port with
    | none => rfl
    | some n => exact UInt16.toNat_ofNat_of_lt (Nat.lt_succ_of_le hport.le_most)
  seed_eq := by
    cases seed with
    | none => rfl
    | some n =>
      exact congrArg some (UInt64.toNat_ofNat_of_lt (Nat.lt_succ_of_le hseed.le_most))

theorem ofEnvironment_eq (e : Environment) : ofEnvironment e = do
    let entries ← Variable.maxEntries.read e
    let port ← Variable.serverPort.read e
    let seed ← Variable.rngSeed.read e
    return ofNumbers entries port seed := rfl

/-- Either every variable gives something, or there is a first one that offends. -/
theorem ofEnvironment_cases (e : Environment) :
    (∃ entries port seed, Variable.Gives .maxEntries e entries ∧ Variable.Gives .serverPort e port ∧
      Variable.Gives .rngSeed e seed ∧ ofEnvironment e = .ok (ofNumbers entries port seed)) ∨
    ∃ v text, Variable.OffendsFirst v e text ∧ ofEnvironment e = .error (v.refusal text) := by
  rw [ofEnvironment_eq]
  rcases Variable.maxEntries.read_cases e with ⟨entries, hentries, hread⟩ | ⟨text, hoffends, hread⟩
  · rw [hread]
    rcases Variable.serverPort.read_cases e with ⟨port, hport, hread⟩ | ⟨text, hoffends, hread⟩
    · rw [hread]
      rcases Variable.rngSeed.read_cases e with ⟨seed, hseed, hread⟩ | ⟨text, hoffends, hread⟩
      · rw [hread]
        exact Or.inl ⟨entries, port, seed, hentries, hport, hseed, rfl⟩
      · rw [hread]
        refine Or.inr ⟨.rngSeed, text, ⟨hoffends, fun w hw => ?_⟩, rfl⟩
        cases w with
        | maxEntries => exact hentries.not_offends
        | serverPort => exact hport.not_offends
        | rngSeed => exact absurd hw (Nat.lt_irrefl _)
    · rw [hread]
      refine Or.inr ⟨.serverPort, text, ⟨hoffends, fun w hw => ?_⟩, rfl⟩
      cases w with
      | maxEntries => exact hentries.not_offends
      | serverPort | rngSeed => exact absurd hw (by decide)
  · rw [hread]
    exact Or.inr ⟨.maxEntries, text, ⟨hoffends, fun w hw => absurd hw (Nat.not_lt_zero _)⟩, rfl⟩

/-- What an environment amounts to. -/
structure ReadFrom (e : Environment) (result : Except StoreError Settings) : Prop where
  /-- There are settings exactly when every variable that is set is a number in its range. -/
  succeeds_iff : (∃ settings, result = .ok settings) ↔
    ∀ (v : Variable) (text : String), v.text? e = some text → ∃ n, v.Spells n text
  /-- The settings are the numbers, or the defaults. -/
  ok_iff : ∀ settings, result = .ok settings ↔ ∃ entries port seed,
    Variable.Gives .maxEntries e entries ∧ Variable.Gives .serverPort e port ∧
      Variable.Gives .rngSeed e seed ∧ Holds settings entries port seed
  /-- The first variable that offends is named, and quoted as it is set. -/
  error_iff : ∀ refusal, result = .error refusal ↔ ∃ v text, Variable.OffendsFirst v e text ∧
    refusal = .invalidConfiguration (v.name ++ " has invalid value '" ++ text ++ "'")

theorem readFrom_of_ok {e : Environment} {entries port seed : Option Nat}
    (hentries : Variable.Gives .maxEntries e entries) (hport : Variable.Gives .serverPort e port)
    (hseed : Variable.Gives .rngSeed e seed) :
    ReadFrom e (.ok (ofNumbers entries port seed)) := by
  have hgives : ∀ v : Variable, ∃ given, v.Gives e given := fun v => by
    cases v with
    | maxEntries => exact ⟨_, hentries⟩
    | serverPort => exact ⟨_, hport⟩
    | rngSeed => exact ⟨_, hseed⟩
  refine ⟨⟨fun _ v text htext => ?_, fun _ => ⟨_, rfl⟩⟩, fun settings => ⟨?_, ?_⟩,
    fun refusal => ⟨nofun, ?_⟩⟩
  · obtain ⟨given, hgiven⟩ := hgives v
    exact hgiven.spells_of_text htext
  · intro h
    obtain rfl := Except.ok.inj h
    exact ⟨entries, port, seed, hentries, hport, hseed, holds_ofNumbers hentries hport hseed⟩
  · rintro ⟨entries', port', seed', hentries', hport', hseed', hholds⟩
    obtain rfl := hentries.unique hentries'
    obtain rfl := hport.unique hport'
    obtain rfl := hseed.unique hseed'
    rw [(holds_ofNumbers hentries hport hseed).unique hholds]
  · rintro ⟨v, text, hfirst, -⟩
    obtain ⟨given, hgiven⟩ := hgives v
    exact absurd hfirst.toOffends (hgiven.not_offends text)

theorem readFrom_of_error {e : Environment} {v : Variable} {text : String}
    (hfirst : v.OffendsFirst e text) : ReadFrom e (.error (v.refusal text)) := by
  refine ⟨⟨nofun, fun hall => ?_⟩, fun settings => ⟨nofun, ?_⟩, fun refusal => ⟨?_, ?_⟩⟩
  · obtain ⟨n, hspells⟩ := hall v text hfirst.text_eq
    exact absurd hspells (hfirst.not_spells n)
  · rintro ⟨entries, port, seed, hentries, hport, hseed, -⟩
    have hoffends := hfirst.toOffends
    cases v with
    | maxEntries => exact absurd hoffends (hentries.not_offends text)
    | serverPort => exact absurd hoffends (hport.not_offends text)
    | rngSeed => exact absurd hoffends (hseed.not_offends text)
  · intro h
    exact ⟨v, text, hfirst, (Except.error.inj h).symm⟩
  · rintro ⟨w, other, hother, rfl⟩
    obtain ⟨rfl, rfl⟩ := hfirst.unique hother
    rfl

/-! ## The store of a server -/

/-- A store is made unless it could hold nothing, whatever its choices come from. -/
theorem newStore_cases (settings : Settings) (fallback : UInt64) :
    (settings.maxEntries = 0 ∧ settings.newStore fallback =
      .error (.invalidConfiguration "capacity must be at least 1")) ∨
    (settings.maxEntries ≠ 0 ∧ ∃ s, settings.newStore fallback = .ok s ∧
      s.capacity = settings.maxEntries.toNat) := by
  unfold newStore
  by_cases hzero : settings.maxEntries = 0
  · rw [hzero]
    exact Or.inl ⟨rfl, rfl⟩
  · have hpos : 1 ≤ settings.maxEntries.toNat :=
      Nat.one_le_iff_ne_zero.mpr fun h => hzero (UInt64.toNat.inj h)
    exact Or.inr ⟨hzero, _, Store.new_eq_ok_iff.mpr ⟨hpos, rfl⟩, rfl⟩

/-- **The settings of an environment.** They are read from the variables, of which the first one
that offends is refused, and the store that is made of any settings has the capacity that they name,
if it is not zero. -/
theorem settings_of_environment :
    (∀ e, ReadFrom e (ofEnvironment e)) ∧
      ∀ (settings : Settings) (fallback : UInt64),
        ((∃ refusal, settings.newStore fallback = .error refusal) ↔ settings.maxEntries = 0) ∧
          (settings.maxEntries ≠ 0 → ∃ s, settings.newStore fallback = .ok s ∧
            s.capacity = settings.maxEntries.toNat) := by
  constructor
  · intro e
    rcases ofEnvironment_cases e with
      ⟨entries, port, seed, hentries, hport, hseed, hok⟩ | ⟨v, text, hfirst, herror⟩
    · exact hok ▸ readFrom_of_ok hentries hport hseed
    · exact herror ▸ readFrom_of_error hfirst
  · intro settings fallback
    rcases settings.newStore_cases fallback with ⟨hzero, herror⟩ | ⟨hpos, s, hok, hcapacity⟩
    · rw [herror]
      exact ⟨⟨fun _ => hzero, fun _ => ⟨_, rfl⟩⟩, fun hpos => absurd hzero hpos⟩
    · rw [hok]
      exact ⟨⟨nofun, fun hzero => absurd hzero hpos⟩, fun _ => ⟨s, rfl, hcapacity⟩⟩

/-- The port is refused before the seed is looked at, and quoted with its blanks. -/
example : ofEnvironment ⟨some "\t+025".toUTF8, some " 70000 ".toUTF8, some "-1".toUTF8⟩ =
    .error (.invalidConfiguration "SERVER_PORT has invalid value ' 70000 '") := by decide

end Settings

end BoundedStore
