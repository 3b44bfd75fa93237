import BoundedStore.Proofs.Bounded.Effects
import BoundedStore.Proofs.Store.Retention
import BoundedStore.Proofs.Store.Turnover
import BoundedStore.Proofs.Value.Members

/-!
# What an operation leaves alone

An operation changes the values at its targets only, and the kind of a value only where it is told
to overwrite it. What else can happen to a key is that it is evicted. `victim?` says beforehand
which key that is, from the order of last uses and the keys that the operation uses: the live key
used longest ago, when a new key comes to a full store.

All of this is read off the changes of the operation. `find?_perform` gives the value at every key
afterwards: nothing at a removed or evicted key, elsewhere what the changes write there last, and
otherwise what was there. Three looks at the changes then remain: at which keys they write
(`lastWritten_of_notMem_targets`), values of which kinds (`kind_lastWritten`), and what they leave
of a list or set that something is taken out of (`lastWritten_drained`).
-/

namespace BoundedStore

open Bounded Bounded.Change

namespace Operation

/-! ## Targets and victims -/

/-- The keys whose values an operation may change: the key of a write to one key, both keys of a
move, and the destination of a combination. -/
def targets : Operation → List String
  | command (.store key _) | command (.replace key _) | command (.remove key)
  | command (.push _ key _) | command (.pop _ key) | command (.setItem key _ _)
  | command (.trimList key _ _) | command (.removeItems key _ _) | command (.addMember key _)
  | command (.removeMember key _) | command (.popMember key) => [key]
  | command (.moveMember source destination _) => [source, destination]
  | command (.combineInto _ keys) => keys.take 1
  | command (.get _) | command (.itemAt ..) | command (.listLength _) | command (.listRange ..)
  | command (.isMember ..) | command (.cardinality _) | command (.members _)
  | command (.combine ..) | command (.randomMember _) | contains _ | size | statistics => []

/-- Whether an operation overwrites the value at a key, of whatever kind it is. -/
def overwrites : Operation → String → Bool
  | command (.replace key _), other => key == other
  | command (.combineInto _ (destination :: _)), other => destination == other
  | _, _ => false

/-- The key whose list or set an operation takes something out of. A move from a set to itself puts
back what it takes out. -/
def drained? : Operation → Option String
  | command (.pop _ key) | command (.trimList key _ _) | command (.removeItems key _ _)
  | command (.removeMember key _) | command (.popMember key) => some key
  | command (.moveMember source destination _) => if source = destination then none else some source
  | _ => none

/-- What such an operation leaves of the value that it finds, which may be an empty list or set. -/
def remainder (s : Store) : Operation → Value → Value
  | command (.pop side _), .list items => .list (((Items.pop? side items).map Prod.snd).getD items)
  | command (.trimList _ start stop), .list items => .list (Items.trim items start stop)
  | command (.removeItems _ count target), .list items => .list (Items.remove items count target)
  | command (.removeMember _ member), .set members => .set (Members.remove members member)
  | command (.popMember _), .set members =>
    .set (Members.removeAt members (s.choices.pick members.length).1)
  | command (.moveMember _ destination member), .set members =>
    .set (if s.admitsSet destination then Members.remove members member else members)
  | _, found => found

/-- The key that an operation evicts, if it evicts any. -/
def victim? (s : Store) (op : Operation) : Option String :=
  s.map.victim? (op.uses s)

/-! ## What is written where -/

section Written

variable {s : Store} {key : String}

theorem lastWritten_rewriting (other : String) (rewrite : Value → Option Value) :
    lastWritten key (s.rewriting other rewrite) =
      if other = key then (s.find? other).bind rewrite else none := by
  unfold Store.rewriting
  cases (s.find? other).bind rewrite with
  | none => simp [lastWritten]
  | some value => simp [lastWritten]

/-- A write to one key, which rewrites the value there or makes a new one, writes to no other. -/
theorem lastWritten_rewriting_or_write {other : String} (hne : other ≠ key)
    (rewrite : Value → Option Value) (value : Value) :
    lastWritten key (if s.contains other then s.rewriting other rewrite
      else [.write other value]) = none := by
  split
  · rw [lastWritten_rewriting, if_neg hne]
  · simp [lastWritten, hne]

/-- Only targets are written. -/
theorem lastWritten_of_notMem_targets {op : Operation} (h : key ∉ op.targets) :
    lastWritten key (op.changes s) = none := by
  cases op with
  | contains | size | statistics => rfl
  | command c =>
    cases c with
    | store other value =>
      have hne : other ≠ key := by simpa [targets, eq_comm] using h
      rw [changes]
      split
      · rfl
      · simp [lastWritten, hne]
    | push side other value =>
      exact lastWritten_rewriting_or_write (by simpa [targets, eq_comm] using h) _ _
    | addMember other member =>
      exact lastWritten_rewriting_or_write (by simpa [targets, eq_comm] using h) _ _
    | remove other => rfl
    | combine algebra keys => exact lastWritten_use key keys
    | combineInto algebra keys =>
      cases keys with
      | nil => rfl
      | cons destination sources =>
        have hne : destination ≠ key := by simpa [targets, eq_comm] using h
        rw [changes, lastWritten_append, lastWritten_use]
        cases s.setsAt sources <;> simp [lastWritten, hne]
    | moveMember source destination member =>
      have hne : key ≠ source ∧ key ≠ destination := by simpa [targets] using h
      rw [changes, Store.moving]
      repeat' split
      all_goals simp [lastWritten, hne.1.symm, hne.2.symm]
    | replace other | pop _ other | setItem other | trimList other | removeItems other
    | removeMember other | popMember other =>
      have hne : other ≠ key := by simpa [targets, eq_comm] using h
      exact (lastWritten_rewriting other _).trans (if_neg hne)
    | get | itemAt | listLength | listRange | isMember | cardinality | members | randomMember => rfl

theorem onList_kind {rewrite : List Value → Option (List Value)} {found value : Value}
    (h : onList rewrite found = some value) : value.kind = found.kind := by
  obtain ⟨items, kept, rfl, -, rfl⟩ := onList_eq_some_iff.mp h
  rfl

theorem onSet_kind {rewrite : Members → Option Members} {found value : Value}
    (h : onSet rewrite found = some value) : value.kind = found.kind := by
  obtain ⟨members, kept, rfl, -, rfl⟩ := onSet_eq_some_iff.mp h
  rfl

variable {found value : Value}

/-- A rewriting that keeps the kind of every value keeps it at its key. -/
theorem kind_rewriting {other : String} {rewrite : Value → Option Value}
    (hfind : s.find? key = some found)
    (hkind : ∀ {before after}, rewrite before = some after → after.kind = before.kind)
    (hwritten : lastWritten key (s.rewriting other rewrite) = some value) :
    value.kind = found.kind := by
  rw [lastWritten_rewriting] at hwritten
  split at hwritten
  next hother =>
    rw [hother, hfind] at hwritten
    exact hkind hwritten
  next => cases hwritten

/-- A new value is written only where there is none. -/
theorem kind_rewriting_or_write {other : String} {rewrite : Value → Option Value} {new : Value}
    (hfind : s.find? key = some found)
    (hkind : ∀ {before after}, rewrite before = some after → after.kind = before.kind)
    (hwritten : lastWritten key (if s.contains other then s.rewriting other rewrite
      else [.write other new]) = some value) : value.kind = found.kind := by
  split at hwritten
  next => exact kind_rewriting hfind hkind hwritten
  next habsent =>
    have hne : other ≠ key := fun e => habsent (e ▸ Store.contains_of_find? hfind)
    simp [lastWritten, hne] at hwritten

/-- A move writes sets, and to keys that can hold sets. -/
theorem kind_moving {source destination : String} {member : Value}
    (hfind : s.find? key = some found)
    (hwritten : lastWritten key (s.moving source destination member) = some value) :
    value.kind = found.kind := by
  unfold Store.moving at hwritten
  split at hwritten
  next members hsource =>
    split at hwritten
    next hadmits =>
      split at hwritten
      next =>
        -- the destination is written last, also where it is the source
        by_cases hdestination : destination = key
        · subst hdestination
          have hkind : found.kind = .set := by simpa [Store.admitsSet, hfind] using hadmits
          obtain rfl : s.moved source destination members member = value := by
            simpa [lastWritten] using hwritten
          exact hkind.symm
        · by_cases hkey : source = key
          · subst hkey
            obtain rfl : found = .set members := Option.some.inj (hfind.symm.trans hsource)
            obtain rfl : .set (Members.remove members member) = value := by
              simpa [lastWritten, hdestination] using hwritten
            rfl
          · simp [lastWritten, hdestination, hkey] at hwritten
      next => cases hwritten
    next => cases hwritten
  next => cases hwritten

/-- What is written at a live key is of the kind that was there, unless the operation overwrites
the value. -/
theorem kind_lastWritten {op : Operation} (hfind : s.find? key = some found)
    (hnot : op.overwrites key = false) (hwritten : lastWritten key (op.changes s) = some value) :
    value.kind = found.kind := by
  cases op with
  | contains | size | statistics => cases hwritten
  | command c =>
    cases c with
    | store other new =>
      have hlive : s.contains key = true := Store.contains_of_find? hfind
      rw [changes] at hwritten
      split at hwritten
      next => cases hwritten
      next habsent =>
        have hne : other ≠ key := fun e => habsent (e ▸ hlive)
        simp [lastWritten, hne] at hwritten
    | replace other new =>
      have hne : other ≠ key := by simpa [overwrites] using hnot
      rw [changes, lastWritten_rewriting, if_neg hne] at hwritten
      cases hwritten
    | push side other new => exact kind_rewriting_or_write hfind onList_kind hwritten
    | addMember other member => exact kind_rewriting_or_write hfind onSet_kind hwritten
    | combine algebra keys =>
      rw [changes, lastWritten_use] at hwritten
      cases hwritten
    | combineInto algebra keys =>
      cases keys with
      | nil => cases hwritten
      | cons destination sources =>
        have hne : destination ≠ key := by simpa [overwrites] using hnot
        have hnone : lastWritten key
            (changes s (.command (.combineInto algebra (destination :: sources)))) = none :=
          lastWritten_of_notMem_targets (by simpa [targets, eq_comm] using hne)
        rw [hnone] at hwritten
        cases hwritten
    | moveMember source destination member => exact kind_moving hfind hwritten
    | pop | setItem | trimList | removeItems => exact kind_rewriting hfind onList_kind hwritten
    | removeMember | popMember => exact kind_rewriting hfind onSet_kind hwritten
    | remove | get | itemAt | listLength | listRange | isMember | cardinality | members
    | randomMember => cases hwritten

theorem getD_lastWritten_rewriting (hfind : s.find? key = some found)
    (rewrite : Value → Option Value) :
    (lastWritten key (s.rewriting key rewrite)).getD found = (rewrite found).getD found := by
  rw [lastWritten_rewriting, if_pos rfl, hfind]
  rfl

/-- A move to another key writes the source without the member, if it writes at all. -/
theorem getD_lastWritten_moving {source destination : String} {member : Value}
    (hne : source ≠ destination) (hfind : s.find? source = some found) :
    (lastWritten source (s.moving source destination member)).getD found =
      remainder s (.command (.moveMember source destination member)) found := by
  unfold Store.moving
  rw [hfind]
  cases found with
  | set members =>
    by_cases hadmits : s.admitsSet destination = true
    · by_cases hmember : Members.has members member = true
      · simp [lastWritten, remainder, hadmits, hmember, hne.symm]
      · -- a member that is not there is not taken out
        have hkept := Members.remove_of_not_has (Bool.eq_false_iff.mpr hmember)
        simp [lastWritten, remainder, hadmits, hmember, hkept]
    · simp [lastWritten, remainder, hadmits]
  | integer | text | list => rfl

theorem lastWritten_drained {op : Operation} (hdrained : op.drained? = some key)
    (hfind : s.find? key = some found) :
    (lastWritten key (op.changes s)).getD found = op.remainder s found := by
  cases op with
  | contains | size | statistics => cases hdrained
  | command c =>
    cases c with
    | pop side other =>
      obtain rfl : other = key := Option.some.inj hdrained
      refine (getD_lastWritten_rewriting hfind _).trans ?_
      cases found with
      | list items => simp only [onList, remainder]; cases Items.pop? side items <;> rfl
      | integer | text | set => rfl
    | popMember other =>
      obtain rfl : other = key := Option.some.inj hdrained
      refine (getD_lastWritten_rewriting hfind _).trans ?_
      cases found with
      | set members =>
        -- from the empty set nothing is taken, so it is the same with and without its removal
        cases members <;> simp [onSet, remainder, Members.removeAt, Members.lastFirst]
      | integer | text | list => rfl
    | trimList other | removeItems other | removeMember other =>
      obtain rfl : other = key := Option.some.inj hdrained
      refine (getD_lastWritten_rewriting hfind _).trans ?_
      cases found <;> rfl
    | moveMember source destination member =>
      obtain ⟨hne, rfl⟩ : source ≠ destination ∧ source = key := by simpa [drained?] using hdrained
      exact getD_lastWritten_moving hne hfind
    | store | get | remove | replace | push | itemAt | listLength | setItem | listRange | addMember
    | isMember | cardinality | members | combine | combineInto | randomMember => cases hdrained

end Written

/-! ## The store after an operation -/

section Perform

variable {s : Store} {op : Operation}

theorem victim?_remove (s : Store) (key : String) : victim? s (.command (.remove key)) = none := by
  simp [victim?, Bounded.victim?, uses]

theorem victim?_live_of_some {victim : String} (h : op.victim? s = some victim) :
    s.contains victim = true :=
  Bounded.victim?_live h

theorem find?_perform_remove (hvalid : s.map.Valid) (key other : String) :
    (perform s (.command (.remove key))).2.find? other =
      if key = other then none else s.find? other := by
  show (s.remove key).2.map.peek other = _
  rw [s.map_remove]
  exact hvalid.peek_remove key other

/-- What is written last is found, except at the victim; and the victim is counted. -/
theorem perform_of_not_remove (hvalid : s.map.Valid) (hnot : ∀ key, op ≠ .command (.remove key)) :
    (∀ key, (op.perform s).2.find? key =
      if op.victim? s = some key then none
      else (lastWritten key (op.changes s)).or (s.find? key)) ∧
    (op.perform s).2.map.evictions = s.map.evictions + (op.victim? s).toList.length := by
  unfold Store.find? victim?
  rw [perform_map, ← usesAll_changes]
  have hform := changes_form s op
  generalize op.changes s = changes at hform
  cases hform with
  | quiet hquiet =>
    rw [hquiet.victim?_eq_none]
    exact ⟨fun key => by simpa using hquiet.peek_applyAll key, hquiet.sameKeys.evictions_eq⟩
  | write hquiet key value =>
    rw [applyAll_append, usesAll_append]
    exact hquiet.peek_write hvalid key value
  | remove key hop => exact absurd hop (hnot key)

/-- The value at a key after an operation: none if the operation removes or evicts the key, and
otherwise what it writes there, or what was there before. -/
theorem find?_perform (hvalid : s.map.Valid) (op : Operation) (key : String) :
    (op.perform s).2.find? key =
      if op = .command (.remove key) ∨ op.victim? s = some key then none
      else (lastWritten key (op.changes s)).or (s.find? key) := by
  by_cases hremove : ∃ other, op = .command (.remove other)
  · obtain ⟨other, rfl⟩ := hremove
    rw [find?_perform_remove hvalid, victim?_remove]
    simp [changes, lastWritten]
  · have hnot : ∀ other, op ≠ .command (.remove other) := fun other hop => hremove ⟨other, hop⟩
    rw [(perform_of_not_remove hvalid hnot).1]
    simp [hnot key]

theorem evictions_eq_victim? (hvalid : s.map.Valid) (op : Operation) :
    (op.perform s).2.map.evictions = s.map.evictions + (op.victim? s).toList.length := by
  by_cases hremove : ∃ key, op = .command (.remove key)
  · obtain ⟨key, rfl⟩ := hremove
    rw [victim?_remove]
    exact (congrArg Bounded.evictions (s.map_remove key)).trans (evictions_remove s.map key)
  · exact (perform_of_not_remove hvalid fun key hop => hremove ⟨key, hop⟩).2

theorem find?_perform_of_notMem_targets (hvalid : s.map.Valid) {key : String}
    (htarget : key ∉ op.targets) (hvictim : op.victim? s ≠ some key) :
    (op.perform s).2.find? key = s.find? key := by
  have hremove : op ≠ .command (.remove key) := by
    rintro rfl
    exact htarget (List.mem_singleton_self key)
  rw [find?_perform hvalid, if_neg (not_or.mpr ⟨hremove, hvictim⟩),
    lastWritten_of_notMem_targets htarget]
  rfl

theorem contains_perform_eq_false_iff (hvalid : s.map.Valid) {key : String}
    (hlive : s.contains key = true) :
    (op.perform s).2.contains key = false ↔
      (op = .command (.remove key) ∧ (op.perform s).1 = .done) ∨ op.victim? s = some key := by
  obtain ⟨found, hsome⟩ := Option.isSome_iff_exists.mp hlive
  have hfind : s.find? key = some found := hsome
  -- the removal of a live key succeeds, so it need not be said that it does
  have hdone : op = .command (.remove key) → (op.perform s).1 = .done := by
    rintro rfl
    rw [fst_perform_remove, if_pos hlive]
  rw [and_iff_left_of_imp hdone, ← Store.find?_eq_none_iff, find?_perform hvalid, hfind]
  split
  next hgone => exact iff_of_true rfl hgone
  next hstays => exact iff_of_false (by simp) hstays

/-- Of the keys that are live in `s` only `victim` is not live in `t`. -/
def LosesOnly (s t : Store) (victim : String) : Prop :=
  s.contains victim = true ∧
    ∀ key, s.contains key = true → (t.contains key = false ↔ key = victim)

theorem losesOnly_of_victim? (hvalid : s.map.Valid) {victim : String}
    (hop : ∀ key, op ≠ .command (.remove key)) (h : op.victim? s = some victim) :
    LosesOnly s (op.perform s).2 victim := by
  refine ⟨victim?_live_of_some h, fun key hlive => ?_⟩
  rw [contains_perform_eq_false_iff hvalid hlive, h, Option.some.injEq, eq_comm (a := victim)]
  exact or_iff_right fun hremoved => hop key hremoved.1

theorem kind_perform (hvalid : s.map.Valid) {key : String} {found kept : Value}
    (hfind : s.find? key = some found) (hkept : (op.perform s).2.find? key = some kept)
    (hnot : op.overwrites key = false) : kept.kind = found.kind := by
  rw [find?_perform hvalid] at hkept
  split at hkept
  next => cases hkept
  next =>
    cases hwritten : lastWritten key (op.changes s) with
    | none =>
      rw [hwritten, hfind] at hkept
      rw [Option.some.inj hkept]
    | some value =>
      rw [hwritten] at hkept
      rw [← Option.some.inj hkept]
      exact kind_lastWritten hfind hnot hwritten

theorem creates_unique (hvalid : s.map.Valid) {first second : String}
    (hfirst : op.Creates s first) (hsecond : op.Creates s second) : second = first := by
  obtain ⟨hfirst, hfirst'⟩ := hfirst
  obtain ⟨hsecond, hsecond'⟩ := hsecond
  cases turnover hvalid op with
  | keeps hsame =>
    have hlive : (op.perform s).2.contains first = s.contains first := hsame.contains_eq first
    rw [hlive, hfirst] at hfirst'
    cases hfirst'
  | adds key habsent hroom hlive =>
    rw [hlive, hfirst] at hfirst'
    rw [hlive, hsecond] at hsecond'
    exact (hsecond'.resolve_right Bool.false_ne_true).trans
      (hfirst'.resolve_right Bool.false_ne_true).symm
  | replaces key victim habsent hfull hvictim hlive =>
    rw [hlive, hfirst] at hfirst'
    rw [hlive, hsecond] at hsecond'
    exact (hsecond'.resolve_right (by simp)).trans (hfirst'.resolve_right (by simp)).symm
  | removes key hop hlive =>
    rw [hlive, hfirst] at hfirst'
    exact absurd hfirst'.2 Bool.false_ne_true

/-- An operation makes no key live but a target. -/
theorem mem_targets_of_creates (hvalid : s.map.Valid) {key : String} (h : op.Creates s key) :
    key ∈ op.targets := by
  by_contra htarget
  obtain ⟨habsent, hlive⟩ := h
  -- an absent key is no victim, so nothing changes at one that is no target
  have hvictim : op.victim? s ≠ some key := fun hvictim => by
    rw [victim?_live_of_some hvictim] at habsent
    cases habsent
  rw [Store.contains_eq_isSome, find?_perform_of_notMem_targets hvalid htarget hvictim,
    ← Store.contains_eq_isSome, habsent] at hlive
  cases hlive

/-! ## Emptied lists and sets stay -/

/-- An operation that only uses live keys evicts nothing. -/
theorem victim?_eq_none_of_live (h : ∀ key ∈ op.uses s, s.contains key = true) :
    op.victim? s = none := by
  refine if_neg fun hcomes => ?_
  obtain ⟨key, hmem, habsent⟩ := List.any_eq_true.mp hcomes.2
  have hlive : s.map.contains key = true := h key hmem
  rw [hlive] at habsent
  cases habsent

theorem uses_moveMember (s : Store) (source destination : String) (member : Value) :
    uses s (.command (.moveMember source destination member)) = [source, destination] ∨
      ∀ key ∈ uses s (.command (.moveMember source destination member)),
        s.contains key = true := by
  simp only [uses]
  split
  next members hsource =>
    have hlive : s.contains source = true := Store.contains_of_find? hsource
    split
    · split
      · exact Or.inl rfl
      · exact Or.inr (by simpa using hlive)
    · exact Or.inr (by simp)
  next => exact Or.inr (by simp)

/-- In a store of one a move can evict its source, by its new destination. Nothing else evicts what
it takes something out of. -/
theorem capacity_eq_one_of_drained_victim (hvalid : s.map.Valid) {key : String}
    (hdrained : op.drained? = some key) (hvictim : op.victim? s = some key) : s.capacity = 1 := by
  have hnone : ¬ ∀ other ∈ op.uses s, s.contains other = true := fun hall => by
    rw [victim?_eq_none_of_live hall] at hvictim
    cases hvictim
  cases op with
  | contains | size | statistics => cases hdrained
  | command c =>
    cases c with
    | pop | trimList | removeItems | removeMember | popMember =>
      exact absurd (fun other hmem => (List.mem_filter.mp hmem).2) hnone
    | moveMember source destination member =>
      obtain ⟨-, rfl⟩ : source ≠ destination ∧ source = key := by simpa [drained?] using hdrained
      have huses : uses s (.command (.moveMember source destination member)) =
          [] ++ source :: [destination] :=
        (uses_moveMember s source destination member).resolve_right hnone
      by_contra hcapacity
      have hpos := hvalid.capacity_pos
      -- only the destination is used after the source, so there is another key to evict
      have hfew : (([destination] : List String).toFinset.erase source).card < s.map.capacity := by
        have hle : (([destination] : List String).toFinset.erase source).card ≤ 1 :=
          (Finset.card_erase_le).trans (by simp)
        have hne : s.map.capacity ≠ 1 := hcapacity
        omega
      have hkept := (keptSince_of_uses hvalid huses hfew).live (valid_perform hvalid _)
      have hgone := (contains_perform_eq_false_iff hvalid (victim?_live_of_some hvictim)).mpr
        (Or.inr hvictim)
      exact Bool.false_ne_true (hgone.symm.trans hkept)
    | store | get | remove | replace | push | itemAt | listLength | setItem | listRange | addMember
    | isMember | cardinality | members | combine | combineInto | randomMember => cases hdrained

theorem find?_perform_drained (hvalid : s.map.Valid) {key : String} {found : Value}
    (hdrained : op.drained? = some key) (hfind : s.find? key = some found) :
    (op.perform s).2.find? key = some (op.remainder s found) ∨
      (s.capacity = 1 ∧ op.victim? s = some key) := by
  by_cases hvictim : op.victim? s = some key
  · exact Or.inr ⟨capacity_eq_one_of_drained_victim hvalid hdrained hvictim, hvictim⟩
  · have hremove : op ≠ .command (.remove key) := by
      rintro rfl
      cases hdrained
    rw [find?_perform hvalid, if_neg (not_or.mpr ⟨hremove, hvictim⟩), hfind, Option.or_some,
      lastWritten_drained hdrained hfind]
    exact Or.inl rfl

end Perform

/-! ## The whole of it -/

/-- How an operation on `s` treats the keys that are live in `s`. -/
structure Framed (s : Store) (op : Operation) : Prop where
  /-- A key that is no target has the value it had, or is evicted. -/
  frame : ∀ key, s.contains key = true → key ∉ op.targets →
    (op.perform s).2.find? key = s.find? key ∨ op.victim? s = some key
  /-- A key goes by a removal that succeeds or by an eviction, and in no other way. -/
  gone_iff : ∀ key, s.contains key = true →
    ((op.perform s).2.contains key = false ↔
      (op = .command (.remove key) ∧ (op.perform s).1 = .done) ∨ op.victim? s = some key)
  /-- What something is taken out of stays with what is left of it, also if that is empty, unless it
  is evicted by a move in a store of one. -/
  drained : ∀ key found, op.drained? = some key → s.find? key = some found →
    (op.perform s).2.find? key = some (op.remainder s found) ∨
      (s.capacity = 1 ∧ op.victim? s = some key)
  /-- A key that stays keeps the kind of its value, unless it is overwritten. -/
  kind_eq : ∀ key found kept, s.find? key = some found → (op.perform s).2.find? key = some kept →
    op.overwrites key = false → kept.kind = found.kind
  /-- At most one absent key is made live. -/
  creates_one : ∀ first second, op.Creates s first → op.Creates s second → second = first
  /-- The victim is a live key, it goes, and it is counted. -/
  victim_live : ∀ victim, op.victim? s = some victim → s.contains victim = true
  evictions_eq : (op.perform s).2.map.evictions = s.map.evictions + (op.victim? s).toList.length

/-- **Operations leave the rest alone.** In every reachable store an operation changes no value but
at its targets, lets no key go but by a removal or an eviction, and changes no kind but where it
overwrites. It makes at most one key live and evicts at most one. -/
theorem perform_framed {s : Store} (h : s.Reachable) (op : Operation) : Framed s op := by
  have hvalid : s.map.Valid := h.valid
  exact {
    frame := fun key _ htarget => by
      by_cases hvictim : op.victim? s = some key
      · exact Or.inr hvictim
      · exact Or.inl (find?_perform_of_notMem_targets hvalid htarget hvictim)
    gone_iff := fun key hlive => contains_perform_eq_false_iff hvalid hlive
    drained := fun key found hdrained hfind => find?_perform_drained hvalid hdrained hfind
    kind_eq := fun key found kept hfind hkept hnot => kind_perform hvalid hfind hkept hnot
    creates_one := fun first second hfirst hsecond => creates_unique hvalid hfirst hsecond
    victim_live := fun victim hvictim => victim?_live_of_some hvictim
    evictions_eq := evictions_eq_victim? hvalid op }

/-- The move of the last member out of a set in a full store of two: the set stays, empty, and the
other key is evicted by the new one. -/
theorem moved_from_set_framed :
    ∃ s, s.Reachable ∧ s.length = s.capacity ∧
      s.find? "s" = some (.set [.integer 7]) ∧ s.find? "a" = some (.text "x") ∧
      victim? s (.command (.moveMember "s" "d" (.integer 7))) = some "a" ∧
      (perform s (.command (.moveMember "s" "d" (.integer 7)))).2.find? "s" = some (.set []) ∧
      (perform s (.command (.moveMember "s" "d" (.integer 7)))).2.contains "a" = false ∧
      Framed s (.command (.moveMember "s" "d" (.integer 7))) := by
  have hnew := Store.new_eq_ok_iff.mpr
    ⟨(by decide : 1 ≤ 2), (rfl : _ = (⟨⟨[], .empty, 2, 0⟩, ⟨fun _ => 0, 0⟩, 0, 0⟩ : Store))⟩
  have hreachable := (⟨2, _, _, [.command (.addMember "s" (.integer 7)),
    .command (.store "a" (.text "x"))], hnew, rfl⟩ : Store.Reachable _)
  have hframed := perform_framed hreachable (.command (.moveMember "s" "d" (.integer 7)))
  refine ⟨_, hreachable, by decide, by decide, by decide, by decide, by decide, ?_, hframed⟩
  exact (hframed.gone_iff "a" (by decide)).mpr (Or.inr (by decide))

end Operation

end BoundedStore
