import BoundedStore.Json.Printer
import BoundedStore.Proofs.Json.Reader

/-!
# What is written is JSON

A tree is written in one of its spellings (`spells_write`), so what the reader makes of the text is
the tree (`text_render`). The reader has two limits that the grammar does not have, and a tree that
is to be read back has to respect both: so many arrays and objects inside one another, which `depth`
counts, and numbers in the range of a double. A 64-bit integer is always in this range
(`inRange_ofInt`).

The limit of depth is not needed for two trees to be told apart by their texts (`write_injective`),
since a reader could be given any other limit.
-/

namespace BoundedStore

/-! ## Strings -/

namespace Quoted

theorem hexDigit?_hexDigit {n : Nat} (h : n < 16) : hexDigit? (hexDigit n) = some n := by
  revert n
  decide

/-- The four digits of a control character are read as its number. -/
theorem unit?_hexDigits {n : Nat} (h : n < 0x20) :
    unit? '0' '0' (hexDigit (n / 16)) (hexDigit (n % 16)) = some n := by
  have hzero : hexDigit? '0' = some 0 := rfl
  have hhigh := hexDigit?_hexDigit (n := n / 16) (by omega)
  have hlow := hexDigit?_hexDigit (n := n % 16) (by omega)
  have hsum : 0x10 * (n / 16) + n % 16 = n := by omega
  simp [unit?, hzero, hhigh, hlow, hsum]

theorem spellsChar_encode (c : Char) : SpellsChar c (encode c) := by
  unfold encode
  split
  next => exact .letter rfl
  next => exact .letter rfl
  next => exact .letter rfl
  next => exact .letter rfl
  next => exact .letter rfl
  next => exact .letter rfl
  next => exact .letter rfl
  next hquote hbackslash _ _ _ _ _ =>
    split
    next hcontrol =>
      -- a control character is no surrogate
      have hhigh : isHigh c.toNat = false := by simp [isHigh]; omega
      have hlow : isLow c.toNat = false := by simp [isLow]; omega
      have hunit := SpellsChar.unit (unit?_hexDigits hcontrol) hhigh hlow
      rwa [Char.ofNat_toNat] at hunit
    next hprintable => exact .plain (Nat.le_of_not_lt hprintable) hquote hbackslash

theorem spells_flatMap_encode (cs : List Char) : Spells cs (cs.flatMap encode) := by
  induction cs with
  | nil => exact .nil
  | cons c rest ih => exact .cons (spellsChar_encode c) ih

end Quoted

/-! ## Integers -/

namespace Decimal

/-- The digits of a number have no leading zero. -/
theorem head?_toDigits {n : Nat} (h : (Nat.toDigits 10 n).head? = some '0') : n = 0 := by
  induction n using Nat.strongRecOn with
  | _ n ih =>
    by_cases hlt : n < 10
    · simpa [Nat.toDigits_of_lt_base hlt] using h
    · rw [Nat.toDigits_of_base_le (by decide) (by omega),
        List.head?_append_of_ne_nil _ Nat.toDigits_ne_nil] at h
      have hzero := ih (n / 10) (by omega) h
      omega

theorem whole_toDigits (n : Nat) : Whole (Nat.toDigits 10 n) where
  ne_nil := Nat.toDigits_ne_nil
  isDigit _ hc := Nat.isDigit_of_mem_toDigits (by decide) (by decide) hc
  leading h := by rw [head?_toDigits h, Nat.toDigits_zero]

theorem spells_write_ofInt (n : Int) : (ofInt n).Spells (ofInt n).write := by
  cases n with
  | ofNat n => simpa [write, ofInt] using spells_integer false (whole_toDigits n)
  | negSucc n => simpa [write, ofInt] using spells_integer true (whole_toDigits (n + 1))

/-! ### Integers are in the range of a double -/

namespace Scaled

theorem le_value (n : Nat) (digits : List Char) : n ≤ Numeral.value n digits := by
  induction digits generalizing n with
  | nil => exact Nat.le_refl n
  | cons c rest ih =>
    have hrest := ih (10 * n + Numeral.digit c)
    have hvalue : Numeral.value n (c :: rest) =
        Numeral.value (10 * n + Numeral.digit c) rest := rfl
    omega

/-- As long as the number fits, no digit is dropped. -/
theorem takeWhole_of_lt {s : Scaled} {digits : List Char}
    (h : Numeral.value s.significand digits < limit) :
    takeWhole s digits = ⟨Numeral.value s.significand digits, s.exponent⟩ := by
  induction digits generalizing s with
  | nil => rfl
  | cons c rest ih =>
    have hfits : 10 * s.significand + Numeral.digit c < limit :=
      Nat.lt_of_le_of_lt (le_value _ rest) h
    rw [takeWhole, if_pos hfits]
    exact ih h

/-- Rounding to a double at most doubles a number. -/
theorem roundToDouble_le (n : Nat) : roundToDouble n ≤ 2 * n + 1 := by
  have hunit : Nat.pow 2 (n.log2 + 1 - 53) ≤ n + 1 := by
    by_cases hzero : n = 0
    · subst hzero
      decide
    · have hmono : Nat.pow 2 (n.log2 + 1 - 53) ≤ Nat.pow 2 n.log2 :=
        Nat.pow_le_pow_right (by decide) (by omega)
      have hself : Nat.pow 2 n.log2 ≤ n := Nat.log2_self_le hzero
      omega
  have hbelow : n / Nat.pow 2 (n.log2 + 1 - 53) * Nat.pow 2 (n.log2 + 1 - 53) ≤ n :=
    Nat.div_mul_le_self n _
  unfold roundToDouble
  dsimp only
  split
  · rw [Nat.add_mul, Nat.one_mul]
    omega
  · omega

theorem inRange_of_lt {n : Nat} (h : n < limit) : inRange ⟨n, 0⟩ = true := by
  have hround := roundToDouble_le n
  have hlimit : 2 * limit < overflow := by decide +kernel
  have hone : roundToDouble 1 = 1 := by decide
  have hfits : roundToDouble n * roundToDouble 1 < overflow := by
    rw [hone]
    omega
  simp [inRange, hfits]

end Scaled

theorem inRange_ofInt {n : Int} (h : n.natAbs < Scaled.limit) :
    (ofInt n).scaled.inRange = true := by
  have hscaled : (ofInt n).scaled = ⟨n.natAbs, 0⟩ := by
    have hvalue := value_toDigits n.natAbs
    have hwhole : (ofInt n).whole = Nat.toDigits 10 n.natAbs := by cases n <;> rfl
    have hrest : (ofInt n).fraction = none ∧ (ofInt n).power = 0 := by cases n <;> exact ⟨rfl, rfl⟩
    have htaken : Scaled.takeWhole ⟨0, 0⟩ (Nat.toDigits 10 n.natAbs) = ⟨n.natAbs, 0⟩ := by
      rw [Scaled.takeWhole_of_lt (hvalue.symm ▸ h), hvalue]
    simp [scaled, hwhole, hrest, htaken, Scaled.takeFraction]
  rw [hscaled]
  exact Scaled.inRange_of_lt h

end Decimal

/-! ## Trees -/

namespace Json

mutual

/-- How many arrays and objects stand inside one another. -/
def depth : Json → Nat
  | array items => depthOfItems items + 1
  | object members => depthOfMembers members + 1
  | _ => 0

def depthOfItems : List Json → Nat
  | [] => 0
  | j :: rest => max j.depth (depthOfItems rest)

def depthOfMembers : List (String × Json) → Nat
  | [] => 0
  | (_, j) :: rest => max j.depth (depthOfMembers rest)

end

theorem depthOfItems_le_iff {items : List Json} {d : Nat} :
    depthOfItems items ≤ d ↔ ∀ j ∈ items, j.depth ≤ d := by
  induction items with
  | nil => simp [depthOfItems]
  | cons j rest ih => rw [depthOfItems, Nat.max_le, ih, List.forall_mem_cons]

theorem depthOfMembers_le_iff {members : List (String × Json)} {d : Nat} :
    depthOfMembers members ≤ d ↔ ∀ member ∈ members, member.2.depth ≤ d := by
  induction members with
  | nil => simp [depthOfMembers]
  | cons member rest ih => rw [depthOfMembers, Nat.max_le, ih, List.forall_mem_cons]

/-- Every number in the tree is read from how it is written. -/
inductive Readable : Json → Prop
  | null : Readable .null
  | bool (b : Bool) : Readable (.bool b)
  | number {d : Decimal} : d.Spells d.write → InRange d → Readable (.number d)
  | text (s : String) : Readable (.text s)
  | array {items : List Json} : (∀ j ∈ items, Readable j) → Readable (.array items)
  | object {members : List (String × Json)} : (∀ member ∈ members, Readable member.2) →
    Readable (.object members)

theorem readable_word (n : Int64) : (integer n.toInt).Readable := by
  refine .number (Decimal.spells_write_ofInt n.toInt) (Decimal.inRange_ofInt ?_)
  have hlow := n.le_toInt
  have hhigh := n.toInt_lt
  have hlimit : Decimal.Scaled.limit = 18446744073709551616 := rfl
  omega

/-! ### Commas -/

section Commas

variable {α : Type} {spells : Spelling α} {write : α → List Char}

theorem padded_self {x : α} {core : List Char} (h : spells x core) : Padded spells x core := by
  simpa using Padded.intro blanks_nil h blanks_nil

theorem separated_commaSeparated {x : α} {xs : List α} (h : ∀ y ∈ x :: xs, spells y (write y)) :
    Separated (Padded spells) (x :: xs) (commaSeparated ((x :: xs).map write)) := by
  induction xs generalizing x with
  | nil => exact .last (padded_self (h x List.mem_cons_self))
  | cons y rest ih =>
    exact .more (padded_self (h x List.mem_cons_self))
      (ih fun z hz => h z (List.mem_cons_of_mem x hz))

theorem enclosed_commaSeparated (opening closing : Char) {xs : List α}
    (h : ∀ x ∈ xs, spells x (write x)) :
    Enclosed spells opening closing xs
      (opening :: (commaSeparated (xs.map write) ++ [closing])) := by
  cases xs with
  | nil => exact .none blanks_nil
  | cons x rest => exact .some (separated_commaSeparated h)

end Commas

theorem writeItems_eq_map (items : List Json) : writeItems items = items.map write := by
  induction items with
  | nil => rfl
  | cons j rest ih => simp [writeItems, ih]

/-- How a member of an object is written. -/
def writeMember (member : String × Json) : List Char :=
  Quoted.write member.1.toList ++ ':' :: member.2.write

theorem writeMembers_eq_map (members : List (String × Json)) :
    writeMembers members = members.map writeMember := by
  induction members with
  | nil => rfl
  | cons member rest ih => simp [writeMembers, writeMember, ih]

theorem spellsMember_writeMember {spells : Spelling Json} {member : String × Json}
    (h : spells member.2 member.2.write) : SpellsMember spells member (writeMember member) := by
  have hname := Quoted.spells_flatMap_encode member.1.toList
  simpa [writeMember, Quoted.write] using SpellsMember.intro hname blanks_nil blanks_nil h

/-! ### Whole trees -/

/-- A tree is written in one of its spellings. -/
theorem spells_write {j : Json} (h : j.Readable) {d : Nat} (hdepth : j.depth ≤ d) :
    Spells InRange d j j.write := by
  induction h generalizing d with
  | null => exact spells_of_none .null d
  | bool b => cases b <;> exact spells_of_none (by constructor) d
  | number hspells hrange => exact spells_of_none (.number hspells hrange) d
  | text s => exact spells_of_none (.text (Quoted.spells_flatMap_encode s.toList)) d
  | @array items _ ih =>
    obtain ⟨d, rfl⟩ := Nat.exists_eq_succ_of_ne_zero (Nat.ne_of_gt (Nat.zero_lt_of_lt hdepth))
    have hitems := depthOfItems_le_iff.mp (Nat.le_of_succ_le_succ hdepth)
    rw [write, writeItems_eq_map]
    exact .array rfl (enclosed_commaSeparated '[' ']' fun j hj => ih j hj (hitems j hj))
  | @object members _ ih =>
    obtain ⟨d, rfl⟩ := Nat.exists_eq_succ_of_ne_zero (Nat.ne_of_gt (Nat.zero_lt_of_lt hdepth))
    have hmembers := depthOfMembers_le_iff.mp (Nat.le_of_succ_le_succ hdepth)
    rw [write, writeMembers_eq_map]
    exact .object rfl (enclosed_commaSeparated '{' '}' fun member hmember =>
      spellsMember_writeMember (ih member hmember (hmembers member hmember)))

/-- A tree within the limits is read back from its text. -/
theorem text_render {j : Json} (h : j.Readable) (hdepth : j.depth ≤ maxDepth) :
    Text InRange j.render j := by
  unfold Text render
  rw [String.toList_ofList]
  exact padded_self (spells_write h hdepth)

/-- Two trees with one text are one tree, at whatever depth. -/
theorem write_injective {j k : Json} (hj : j.Readable) (hk : k.Readable)
    (h : j.write = k.write) : j = k := by
  have hreads := reads_readValue (max j.depth k.depth)
  have hend := blanks_nil.follows_of_end
  have hfirst := hreads.complete blanks_nil (spells_write hj (Nat.le_max_left _ _)) hend
  have hsecond := hreads.complete blanks_nil (spells_write hk (Nat.le_max_right _ _)) hend
  rw [h, hsecond] at hfirst
  exact (Prod.mk.inj (Option.some.inj hfirst)).1.symm

end Json

end BoundedStore
