import BoundedStore.Proofs.Json.Grammar
import Mathlib.Data.Option.Basic

/-!
# The reader follows the grammar

A reader `Reads` a spelling when it reads the texts of that spelling behind blanks, up to something
that cannot go on with them, and reads nothing else. Items of an array and members of an object are
read by the same loop (`readSeparated`, `readEnclosed`), which reads a list of whatever its reader
of one item reads. A value is read one level at a time (`reads_readOne`), so the whole is by
induction on the depth (`reads_readValue`).

The loop is given as much fuel as there are characters. That is enough, since there are at least as
many characters as commas.
-/

namespace BoundedStore

namespace Json

/-! ## Readers -/

section Readers

variable {α : Type}

/-- A text that starts with no blank and with no closing bracket. -/
def Opens (cs : List Char) : Prop :=
  ∃ c rest, cs = c :: rest ∧ isBlank c = false ∧ c ≠ ']' ∧ c ≠ '}'

/-- `read` reads, behind blanks, what `spells` says and nothing else. -/
structure Reads (read : List Char → Option (α × List Char)) (spells : Spelling α) : Prop where
  opens : ∀ {x core}, spells x core → Opens core
  complete : ∀ {blanks x core rest}, Blanks blanks → spells x core → Decimal.Follows rest →
    read (blanks ++ (core ++ rest)) = some (x, rest)
  sound : ∀ {cs x rest}, read cs = some (x, rest) →
    ∃ blanks core, Blanks blanks ∧ spells x core ∧ cs = blanks ++ (core ++ rest)

/-! ## Items one after the other -/

/-- Reads items from the start of one up to the closing bracket. -/
def readSeparated (read : List Char → Option (α × List Char)) (closing : Char) :
    (fuel : Nat) → List Char → Option (List α × List Char)
  | 0, _ => none
  | fuel + 1, cs =>
    match read cs with
    | none => none
    | some (x, rest) =>
      match skipBlank rest with
      | [] => none
      | c :: rest =>
        if c = closing then some ([x], rest)
        else if c = ',' then
          (readSeparated read closing fuel rest).map fun r => (x :: r.1, r.2)
        else none

/-- Reads any number of items up to the closing bracket. -/
def readEnclosed (read : List Char → Option (α × List Char)) (closing : Char) (cs : List Char) :
    Option (List α × List Char) :=
  match skipBlank cs with
  | [] => none
  | c :: rest =>
    if c = closing then some ([], rest)
    else readSeparated read closing (c :: rest).length (c :: rest)

theorem readItems_eq (read : Reader) (fuel : Nat) (cs : List Char) :
    readItems read fuel cs = readSeparated read ']' fuel cs := by
  induction fuel generalizing cs with
  | zero => rfl
  | succ fuel ih =>
    simp only [readItems, readSeparated]
    rcases read cs with _ | ⟨item, rest⟩
    · rfl
    · simp only
      cases skipBlank rest with
      | nil => rfl
      | cons c rest =>
        by_cases hclosing : c = ']'
        · simp [hclosing]
        · by_cases hmore : c = ','
          · simp [hmore, ih]
          · simp [hclosing, hmore]

theorem readMembers_eq (read : Reader) (fuel : Nat) (cs : List Char) :
    readMembers read fuel cs = readSeparated (readMember read) '}' fuel cs := by
  induction fuel generalizing cs with
  | zero => rfl
  | succ fuel ih =>
    simp only [readMembers, readSeparated]
    rcases readMember read cs with _ | ⟨member, rest⟩
    · rfl
    · simp only
      cases skipBlank rest with
      | nil => rfl
      | cons c rest =>
        by_cases hclosing : c = '}'
        · simp [hclosing]
        · by_cases hmore : c = ','
          · simp [hmore, ih]
          · simp [hclosing, hmore]

theorem readArray_eq (read : Reader) (cs : List Char) :
    readArray read cs = readEnclosed read ']' cs := by
  unfold readArray readEnclosed
  cases skipBlank cs with
  | nil => rfl
  | cons c rest =>
    by_cases hclosing : c = ']'
    · simp [hclosing]
    · simp [hclosing, readItems_eq]

theorem readObject_eq (read : Reader) (cs : List Char) :
    readObject read cs = readEnclosed (readMember read) '}' cs := by
  unfold readObject readEnclosed
  cases skipBlank cs with
  | nil => rfl
  | cons c rest =>
    by_cases hclosing : c = '}'
    · simp [hclosing]
    · simp [hclosing, readMembers_eq]

end Readers

section Items

variable {α : Type} {read : List Char → Option (α × List Char)} {spells : Spelling α}
  {closing : Char} {x : α} {xs : List α} {text blanks rest : List Char}

theorem Padded.indent (hblanks : Blanks blanks) (h : Padded spells x text) :
    Padded spells x (blanks ++ text) := by
  obtain ⟨hbefore, hcore, hafter⟩ := h
  rw [← List.append_assoc]
  exact .intro (hblanks.append hbefore) hcore hafter

theorem Separated.indent (hblanks : Blanks blanks) (h : Separated (Padded spells) xs text) :
    Separated (Padded spells) xs (blanks ++ text) := by
  cases h with
  | last hx => exact .last (hx.indent hblanks)
  | more hx hrest =>
    rw [← List.append_assoc]
    exact .more (hx.indent hblanks) hrest

theorem Opens.append {cs : List Char} (h : Opens cs) (others : List Char) :
    Opens (cs ++ others) := by
  obtain ⟨c, rest, rfl, hc⟩ := h
  exact ⟨c, rest ++ others, rfl, hc⟩

theorem Padded.strip (hopens : ∀ {x core}, spells x core → Opens core)
    (h : Padded spells x text) :
    ∃ blanks stripped, Blanks blanks ∧ Opens stripped ∧ Padded spells x stripped ∧
      text = blanks ++ stripped := by
  obtain @⟨before, core, after, hbefore, hcore, hafter⟩ := h
  exact ⟨before, core ++ after, hbefore, (hopens hcore).append after,
    .intro blanks_nil hcore hafter, rfl⟩

/-- Items without the blanks in front of the first one. -/
theorem Separated.strip (hopens : ∀ {x core}, spells x core → Opens core)
    (h : Separated (Padded spells) xs text) :
    ∃ blanks stripped, Blanks blanks ∧ Opens stripped ∧ Separated (Padded spells) xs stripped ∧
      text = blanks ++ stripped := by
  cases h with
  | last hx =>
    obtain ⟨blanks, stripped, hblanks, hstripped, hpadded, rfl⟩ := hx.strip hopens
    exact ⟨blanks, stripped, hblanks, hstripped, .last hpadded, rfl⟩
  | @more x xs text rest hx hrest =>
    obtain ⟨blanks, stripped, hblanks, hstripped, hpadded, rfl⟩ := hx.strip hopens
    exact ⟨blanks, stripped ++ ',' :: rest, hblanks, hstripped.append _, .more hpadded hrest,
      List.append_assoc _ _ _⟩

theorem Separated.length_le {spells : Spelling α} (h : Separated spells xs text) :
    xs.length ≤ text.length + 1 := by
  induction h with
  | last => simp
  | more _ _ ih => simp only [List.length_cons, List.length_append]; omega

/-- The brackets and the comma end an item, and blanks in front of them do not go on with it. -/
theorem follows_of_mark {c : Char} (hmark : c = ']' ∨ c = '}' ∨ c = ',') (hblanks : Blanks blanks)
    (rest : List Char) : Decimal.Follows (blanks ++ c :: rest) := by
  refine hblanks.follows ?_
  rcases hmark with rfl | rfl | rfl
  all_goals exact follows_cons (by decide) (by decide) (by decide) rest

theorem skipBlank_mark {c : Char} (hmark : c = ']' ∨ c = '}' ∨ c = ',') (hblanks : Blanks blanks)
    (rest : List Char) : skipBlank (blanks ++ c :: rest) = c :: rest := by
  rw [skipBlank_append hblanks]
  rcases hmark with rfl | rfl | rfl
  all_goals exact skipBlank_cons (by decide) rest

theorem readSeparated_of_separated (h : Reads read spells)
    (hclosing : closing = ']' ∨ closing = '}') (htext : Separated (Padded spells) xs text)
    {fuel : Nat} (hfuel : xs.length ≤ fuel) :
    readSeparated read closing fuel (text ++ closing :: rest) = some (xs, rest) := by
  have hmark : closing = ']' ∨ closing = '}' ∨ closing = ',' :=
    hclosing.imp_right Or.inl
  have hcomma : (',' : Char) ≠ closing := by rcases hclosing with rfl | rfl <;> decide
  induction htext generalizing fuel with
  | last hx =>
    obtain ⟨fuel, rfl⟩ := Nat.exists_eq_succ_of_ne_zero (Nat.ne_of_gt hfuel)
    obtain @⟨before, core, after, hbefore, hcore, hafter⟩ := hx
    have hread := h.complete hbefore hcore (follows_of_mark hmark hafter rest)
    simp only [readSeparated, List.append_assoc, hread, skipBlank_mark hmark hafter, if_true]
  | @more x xs itemText others hx _ ih =>
    obtain ⟨fuel, rfl⟩ := Nat.exists_eq_succ_of_ne_zero (Nat.ne_of_gt (Nat.zero_lt_of_lt hfuel))
    obtain @⟨before, core, after, hbefore, hcore, hafter⟩ := hx
    have hread := h.complete hbefore hcore
      (follows_of_mark (Or.inr (Or.inr rfl)) hafter (others ++ closing :: rest))
    have hskip := skipBlank_mark (Or.inr (Or.inr rfl)) hafter (others ++ closing :: rest)
    simp only [readSeparated, List.append_assoc, List.cons_append, hread, hskip, if_neg hcomma,
      if_true, ih (Nat.le_of_succ_le_succ hfuel)]
    rfl

theorem separated_of_readSeparated (h : Reads read spells) {fuel : Nat} {cs : List Char}
    (hread : readSeparated read closing fuel cs = some (xs, rest)) :
    ∃ text, Separated (Padded spells) xs text ∧ cs = text ++ closing :: rest := by
  induction fuel generalizing cs xs with
  | zero => cases hread
  | succ fuel ih =>
    simp only [readSeparated] at hread
    split at hread
    next => cases hread
    next x behind hitem =>
      obtain ⟨before, core, hbefore, hcore, rfl⟩ := h.sound hitem
      -- what the item is followed by, when the blanks are skipped, decides how it goes on
      obtain ⟨after, hafter, hbehind⟩ := exists_blanks behind
      split at hread
      next => cases hread
      next c others hskip =>
        rw [hskip] at hbehind
        have hpadded := Padded.intro hbefore hcore hafter
        split at hread
        next hc =>
          obtain ⟨rfl, rfl⟩ := Prod.mk.inj (Option.some.inj hread)
          exact ⟨_, .last hpadded, by simp [hbehind, hc]⟩
        next =>
          split at hread
          next hc =>
            obtain ⟨⟨items, last⟩, hothers, hpair⟩ := Option.map_eq_some_iff.mp hread
            obtain ⟨rfl, rfl⟩ := Prod.mk.inj hpair
            obtain ⟨text, hitems, rfl⟩ := ih hothers
            exact ⟨_, .more hpadded hitems, by simp [hbehind, hc]⟩
          next => cases hread

/-! ## Brackets -/

variable {opening : Char}

theorem readEnclosed_of_enclosed (h : Reads read spells) (hclosing : closing = ']' ∨ closing = '}')
    (htext : Enclosed spells opening closing xs (opening :: text)) :
    readEnclosed read closing (text ++ rest) = some (xs, rest) := by
  have hmark : closing = ']' ∨ closing = '}' ∨ closing = ',' := hclosing.imp_right Or.inl
  cases htext with
  | none hblanks =>
    simp only [readEnclosed, List.append_assoc, List.singleton_append, skipBlank_mark hmark hblanks,
      if_true]
  | @some _ items hitems =>
    obtain ⟨blanks, stripped, hblanks, ⟨c, others, rfl, hopen, hnot⟩, hstripped, rfl⟩ :=
      hitems.strip h.opens
    have hne : c ≠ closing := by rcases hclosing with rfl | rfl <;> simp [hnot]
    -- the fuel counts from the first item on
    have hfuel : xs.length ≤ (c :: (others ++ closing :: rest)).length := by
      have := hstripped.length_le
      simp only [List.length_cons, List.length_append] at this ⊢
      omega
    have hread : readSeparated read closing _ (c :: others ++ closing :: rest) = some (xs, rest) :=
      readSeparated_of_separated h hclosing hstripped hfuel
    have hskip := skipBlank_append hblanks (c :: (others ++ closing :: rest))
    rw [skipBlank_cons hopen] at hskip
    simp only [readEnclosed, List.append_assoc, List.cons_append, List.nil_append, hskip,
      if_neg hne]
    exact hread

theorem enclosed_of_readEnclosed (h : Reads read spells) (opening : Char) {cs : List Char}
    (hread : readEnclosed read closing cs = some (xs, rest)) :
    ∃ text, Enclosed spells opening closing xs (opening :: text) ∧ cs = text ++ rest := by
  obtain ⟨blanks, hblanks, hcs⟩ := exists_blanks cs
  unfold readEnclosed at hread
  split at hread
  next => cases hread
  next c others hskip =>
    rw [hskip] at hcs
    split at hread
    next hc =>
      obtain ⟨rfl, rfl⟩ := Prod.mk.inj (Option.some.inj hread)
      exact ⟨blanks ++ [closing], .none hblanks, by simp [hcs, hc]⟩
    next =>
      obtain ⟨text, hitems, hothers⟩ := separated_of_readSeparated h hread
      exact ⟨(blanks ++ text) ++ [closing], .some (hitems.indent hblanks), by simp [hcs, hothers]⟩

end Items

/-! ## Members -/

section Names

variable {name : String} {blanks cs text rest : List Char}

theorem readName?_of_spells (hblanks : Blanks blanks) (h : Quoted.Spells name.toList text) :
    readName? (blanks ++ '"' :: (text ++ '"' :: rest)) = some (name, rest) := by
  unfold readName?
  rw [skipBlank_append hblanks, skipBlank_cons (by decide)]
  simp only [Quoted.read?_of_spells h, Option.map_some, String.ofList_toList]

theorem spells_of_readName? (h : readName? cs = some (name, rest)) :
    ∃ blanks text, Blanks blanks ∧ Quoted.Spells name.toList text ∧
      cs = blanks ++ '"' :: (text ++ '"' :: rest) := by
  obtain ⟨blanks, hblanks, hcs⟩ := exists_blanks cs
  unfold readName? at h
  split at h
  next others hskip =>
    obtain ⟨⟨chars, last⟩, hread, hpair⟩ := Option.map_eq_some_iff.mp h
    obtain ⟨rfl, rfl⟩ := Prod.mk.inj hpair
    obtain ⟨text, rfl, hspells⟩ := Quoted.spells_of_read? hread
    rw [hskip] at hcs
    exact ⟨blanks, text, hblanks, String.toList_ofList.symm ▸ hspells, hcs⟩
  next => cases h

theorem skipColon?_of_blanks (hblanks : Blanks blanks) (rest : List Char) :
    skipColon? (blanks ++ ':' :: rest) = some rest := by
  unfold skipColon?
  rw [skipBlank_append hblanks, skipBlank_cons (by decide)]
  rfl

theorem blanks_of_skipColon? (h : skipColon? cs = some rest) :
    ∃ blanks, Blanks blanks ∧ cs = blanks ++ ':' :: rest := by
  obtain ⟨blanks, hblanks, hcs⟩ := exists_blanks cs
  unfold skipColon? at h
  split at h
  next others hskip =>
    obtain rfl := Option.some.inj h
    exact ⟨blanks, hblanks, hskip ▸ hcs⟩
  next => cases h

end Names

section Values

variable {read : Reader} {spells : Spelling Json}

theorem reads_member (h : Reads read spells) : Reads (readMember read) (SpellsMember spells) where
  opens hmember := by
    cases hmember
    exact ⟨'"', _, rfl, by decide, by decide, by decide⟩
  complete := by
    rintro blanks _ _ rest hblanks ⟨hname, hbefore, hafter, hvalue⟩ hrest
    have hread := h.complete hafter hvalue hrest
    simp only [readMember, List.cons_append, List.append_assoc, readName?_of_spells hblanks hname,
      Option.bind_eq_bind, Option.bind_some, Option.pure_def, skipColon?_of_blanks hbefore, hread]
  sound := by
    intro cs member rest hread
    simp only [readMember, Option.bind_eq_bind, Option.bind_eq_some_iff, Option.pure_def] at hread
    obtain ⟨⟨name, _⟩, hfirst, afterColon, hsecond, ⟨value, _⟩, hthird, hpair⟩ := hread
    obtain ⟨rfl, rfl⟩ := Prod.mk.inj (Option.some.inj hpair)
    obtain ⟨blanks, text, hblanks, hname, rfl⟩ := spells_of_readName? hfirst
    obtain ⟨before, hbefore, rfl⟩ := blanks_of_skipColon? hsecond
    obtain ⟨after, core, hafter, hvalue, rfl⟩ := h.sound hthird
    exact ⟨blanks, _, hblanks, .intro hname hbefore hafter hvalue, by simp⟩

/-! ## Values -/

/-- The numbers that the reader admits are those in the range of a double. -/
def InRange (d : Decimal) : Prop :=
  d.scaled.inRange = true

/-- Nothing but a number starts with a minus or a digit. -/
theorem ne_of_number_start {c : Char} (hc : c = '-' ∨ c.isDigit = true) (other : Char)
    (hother : other ≠ '-' ∧ other.isDigit = false) : c ≠ other := by
  rintro rfl
  rcases hc with hminus | hdigit
  · exact hother.1 hminus
  · exact Bool.false_ne_true (hother.2.symm.trans hdigit)

theorem isBlank_number_start {c : Char} (hc : c = '-' ∨ c.isDigit = true) : isBlank c = false := by
  have hne := ne_of_number_start hc
  simp [isBlank, hne ' ' (by decide), hne '\t' (by decide), hne '\n' (by decide),
    hne '\r' (by decide)]

theorem opens_of_spellsOne {admits : Decimal → Prop} {inner : Option (Spelling Json)} {j : Json}
    {core : List Char} (h : SpellsOne admits inner j core) : Opens core := by
  cases h with
  | null | true | false | text => exact ⟨_, _, rfl, by decide, by decide, by decide⟩
  | array hinner henclosed =>
    cases henclosed <;> exact ⟨_, _, rfl, by decide, by decide, by decide⟩
  | object hinner henclosed =>
    cases henclosed <;> exact ⟨_, _, rfl, by decide, by decide, by decide⟩
  | number hnumber =>
    obtain ⟨c, others, rfl, hc⟩ := hnumber.exists_cons
    exact ⟨c, others, rfl, isBlank_number_start hc, ne_of_number_start hc ']' (by decide),
      ne_of_number_start hc '}' (by decide)⟩

/-- What starts as a number is read as one. -/
theorem readOne_number_start {c : Char} (hc : c = '-' ∨ c.isDigit = true) (inner : Option Reader)
    (others : List Char) :
    readOne inner (c :: others) =
      (Decimal.read? (c :: others)).map fun r => (.number r.1, r.2) := by
  have hne := ne_of_number_start hc
  unfold readOne
  rw [skipBlank_cons (isBlank_number_start hc)]
  -- only the last case is left, since the others start with other characters
  split
  next h => cases h
  next h => exact absurd (List.cons.inj h).1 (hne _ (by decide))
  next h => exact absurd (List.cons.inj h).1 (hne _ (by decide))
  next h => exact absurd (List.cons.inj h).1 (hne _ (by decide))
  next h => exact absurd (List.cons.inj h).1 (hne _ (by decide))
  next h => exact absurd (List.cons.inj h).1 (hne _ (by decide))
  next h => exact absurd (List.cons.inj h).1 (hne _ (by decide))
  next => rfl

theorem readOne_of_number {inner : Option Reader} {d : Decimal} {text rest : List Char}
    (hspells : d.Spells text) (hadmits : InRange d) (hrest : d.Ends rest) :
    readOne inner (text ++ rest) = some (.number d, rest) := by
  have hread : Decimal.read? (text ++ rest) = some (d, rest) := by
    unfold Decimal.read?
    rw [Decimal.readAny?_of_spells hspells hrest]
    exact Option.filter_some_pos hadmits
  obtain ⟨c, others, rfl, hc⟩ := hspells.exists_cons
  rw [List.cons_append] at hread ⊢
  rw [readOne_number_start hc, hread]
  rfl

theorem Enclosed.exists_cons {α : Type} {spells : Spelling α} {opening closing : Char}
    {xs : List α} {text : List Char} (h : Enclosed spells opening closing xs text) :
    ∃ inside, text = opening :: inside := by
  cases h <;> exact ⟨_, rfl⟩

theorem readOne_of_spellsOne {inner : Option Reader} {spells : Option (Spelling Json)}
    (h : Option.Rel Reads inner spells) {j : Json} {core rest : List Char}
    (hcore : SpellsOne InRange spells j core) (hrest : j.Ends rest) :
    readOne inner (core ++ rest) = some (j, rest) := by
  cases hcore with
  | null => rfl
  | true => rfl
  | false => rfl
  | number hnumber hadmits => exact readOne_of_number hnumber hadmits hrest
  | @text s text hspells =>
    have hread := Quoted.read?_of_spells hspells rest
    have hone : readOne inner ('"' :: (text ++ '"' :: rest)) =
        (Quoted.read? (text ++ '"' :: rest)).map fun r => (.text (String.ofList r.1), r.2) := rfl
    rw [hread] at hone
    simpa using hone
  | @array spells items text hinner henclosed =>
    subst hinner
    obtain @⟨read, _, hreads⟩ := h
    obtain ⟨inside, rfl⟩ := henclosed.exists_cons
    have hone : readOne (some read) ('[' :: (inside ++ rest)) =
        (readArray read (inside ++ rest)).map fun r => (.array r.1, r.2) := rfl
    rw [readArray_eq, readEnclosed_of_enclosed hreads (Or.inl rfl) henclosed] at hone
    exact hone
  | @object spells members text hinner henclosed =>
    subst hinner
    obtain @⟨read, _, hreads⟩ := h
    obtain ⟨inside, rfl⟩ := henclosed.exists_cons
    have hone : readOne (some read) ('{' :: (inside ++ rest)) =
        (readObject read (inside ++ rest)).map fun r => (.object r.1, r.2) := rfl
    have hmember := reads_member hreads
    rw [readObject_eq, readEnclosed_of_enclosed hmember (Or.inr rfl) henclosed] at hone
    exact hone

/-- What is read behind the blanks is the spelling of a value, and as much as belongs to it. -/
theorem spellsOne_of_readOne {inner : Option Reader} {spells : Option (Spelling Json)}
    (h : Option.Rel Reads inner spells) {j : Json} {cs rest : List Char}
    (hread : readOne inner cs = some (j, rest)) :
    ∃ core, SpellsOne InRange spells j core ∧ j.Ends rest ∧ skipBlank cs = core ++ rest := by
  unfold readOne at hread
  split at hread
  next => cases hread
  next others hskip =>
    obtain ⟨⟨chars, last⟩, hchars, hpair⟩ := Option.map_eq_some_iff.mp hread
    obtain ⟨rfl, rfl⟩ := Prod.mk.inj hpair
    obtain ⟨text, rfl, hspells⟩ := Quoted.spells_of_read? hchars
    exact ⟨'"' :: (text ++ ['"']), .text (String.toList_ofList.symm ▸ hspells), trivial,
      by simp [hskip]⟩
  next others hskip =>
    obtain ⟨read, rfl, hitems⟩ := Option.bind_eq_some_iff.mp hread
    obtain ⟨⟨items, last⟩, harray, hpair⟩ := Option.map_eq_some_iff.mp hitems
    obtain ⟨rfl, rfl⟩ := Prod.mk.inj hpair
    obtain @⟨_, _, hreads⟩ := h
    rw [readArray_eq] at harray
    obtain ⟨text, henclosed, rfl⟩ := enclosed_of_readEnclosed hreads '[' harray
    exact ⟨'[' :: text, .array rfl henclosed, trivial, hskip⟩
  next others hskip =>
    obtain ⟨read, rfl, hmembers⟩ := Option.bind_eq_some_iff.mp hread
    obtain ⟨⟨members, last⟩, hobject, hpair⟩ := Option.map_eq_some_iff.mp hmembers
    obtain ⟨rfl, rfl⟩ := Prod.mk.inj hpair
    obtain @⟨_, _, hreads⟩ := h
    rw [readObject_eq] at hobject
    obtain ⟨text, henclosed, rfl⟩ := enclosed_of_readEnclosed (reads_member hreads) '{' hobject
    exact ⟨'{' :: text, .object rfl henclosed, trivial, hskip⟩
  next hskip =>
    obtain ⟨rfl, rfl⟩ := Prod.mk.inj (Option.some.inj hread)
    exact ⟨_, .null, trivial, hskip⟩
  next hskip =>
    obtain ⟨rfl, rfl⟩ := Prod.mk.inj (Option.some.inj hread)
    exact ⟨_, .true, trivial, hskip⟩
  next hskip =>
    obtain ⟨rfl, rfl⟩ := Prod.mk.inj (Option.some.inj hread)
    exact ⟨_, .false, trivial, hskip⟩
  next =>
    obtain ⟨⟨d, last⟩, hnumber, hpair⟩ := Option.map_eq_some_iff.mp hread
    obtain ⟨rfl, rfl⟩ := Prod.mk.inj hpair
    obtain ⟨hany, hadmits⟩ := Option.filter_eq_some_iff.mp hnumber
    obtain ⟨text, hskip, hspells, hrest⟩ := Decimal.spells_of_readAny? hany
    exact ⟨text, .number hspells hadmits, hrest, hskip⟩

theorem readOne_append {inner : Option Reader} {blanks : List Char} (hblanks : Blanks blanks)
    (cs : List Char) : readOne inner (blanks ++ cs) = readOne inner cs := by
  unfold readOne
  rw [skipBlank_append hblanks]

theorem reads_readOne {inner : Option Reader} {spells : Option (Spelling Json)}
    (h : Option.Rel Reads inner spells) : Reads (readOne inner) (SpellsOne InRange spells) where
  opens := opens_of_spellsOne
  complete := by
    intro blanks j core rest hblanks hcore hrest
    rw [readOne_append hblanks]
    exact readOne_of_spellsOne h hcore (ends_of_follows hrest j)
  sound := by
    intro cs j rest hread
    obtain ⟨blanks, hblanks, hcs⟩ := exists_blanks cs
    obtain ⟨core, hcore, -, hskip⟩ := spellsOne_of_readOne h hread
    exact ⟨blanks, core, hblanks, hcore, hskip ▸ hcs⟩

theorem reads_readValue (depth : Nat) : Reads (readValue depth) (Spells InRange depth) := by
  induction depth with
  | zero => exact reads_readOne .none
  | succ depth ih => exact reads_readOne (.some ih)

/-- One level of the reader and one of the grammar. -/
theorem exists_level (depth : Nat) : ∃ inner spells, Option.Rel Reads inner spells ∧
    readValue depth = readOne inner ∧ Spells InRange depth = SpellsOne InRange spells := by
  cases depth with
  | zero => exact ⟨none, none, .none, rfl, rfl⟩
  | succ depth => exact ⟨_, _, .some (reads_readValue depth), rfl, rfl⟩

/-- What is read of a text is the value that it starts with, and as much as belongs to it. -/
theorem readValue_eq_some_iff {depth : Nat} {cs rest : List Char} {j : Json} :
    readValue depth cs = some (j, rest) ↔ ∃ blanks core, Blanks blanks ∧
      Spells InRange depth j core ∧ j.Ends rest ∧ cs = blanks ++ (core ++ rest) := by
  obtain ⟨inner, spells, hinner, hread, hspells⟩ := exists_level depth
  rw [hread, hspells]
  constructor
  · intro h
    obtain ⟨blanks, hblanks, hcs⟩ := exists_blanks cs
    obtain ⟨core, hcore, hrest, hskip⟩ := spellsOne_of_readOne hinner h
    exact ⟨blanks, core, hblanks, hcore, hrest, hskip ▸ hcs⟩
  · rintro ⟨blanks, core, hblanks, hcore, hrest, rfl⟩
    exact (readOne_append hblanks _).trans (readOne_of_spellsOne hinner hcore hrest)

theorem read?_eq_some_iff {cs rest : List Char} {j : Json} :
    read? cs = some (j, rest) ↔ Begins InRange cs j rest :=
  readValue_eq_some_iff

theorem read?_of_broken {blanks cs : List Char} (hblanks : Blanks blanks)
    (h : Decimal.Broken cs) : read? (blanks ++ cs) = none ∧ read? (blanks ++ '-' :: cs) = none := by
  obtain ⟨inner, spells, -, hread, -⟩ := exists_level maxDepth
  obtain ⟨hplain, hminus⟩ := Decimal.readAny?_of_broken h
  obtain ⟨c, others, rfl, hdigit⟩ := h.exists_cons
  unfold read?
  rw [hread, readOne_append hblanks, readOne_append hblanks, readOne_number_start (Or.inl rfl),
    readOne_number_start (Or.inr hdigit)]
  simp [Decimal.read?, hplain, hminus]

/-! ## Whole texts -/

/-- A value with nothing but blanks around it is read with nothing but blanks left. -/
theorem text_iff {s : String} {j : Json} :
    Text InRange s j ↔ ∃ rest, Blanks rest ∧ read? s.toList = some (j, rest) := by
  unfold Text read?
  generalize s.toList = cs
  have hreads := reads_readValue maxDepth
  constructor
  · rintro ⟨hbefore, hcore, hafter⟩
    exact ⟨_, hafter, hreads.complete hbefore hcore hafter.follows_of_end⟩
  · rintro ⟨rest, hrest, hread⟩
    obtain ⟨blanks, core, hblanks, hcore, rfl⟩ := hreads.sound hread
    exact .intro hblanks hcore hrest

/-- A text is one value at most. -/
theorem Text.unique {s : String} {j k : Json} (hj : Text InRange s j) (hk : Text InRange s k) :
    j = k := by
  obtain ⟨rest, -, hread⟩ := text_iff.mp hj
  obtain ⟨others, -, hread'⟩ := text_iff.mp hk
  exact (Prod.mk.inj (Option.some.inj (hread.symm.trans hread'))).1

end Values

end Json

end BoundedStore
