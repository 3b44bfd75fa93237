import BoundedStore.Proofs.Store.Counters
import BoundedStore.Proofs.Value.Items
import BoundedStore.Proofs.Value.Members

/-!
# Refusals and reads leave the data alone

A read only looks, and an operation that is refused or finds nothing to do has nothing to change.
But most of them use their keys on the way, and some rewrite a value before they know: a removal
from the end of a list takes the list apart and puts it together again. So what has to be shown is
that the changes of such an operation are idle, in the sense of `Proofs/Bounded/Changes.lean`: what
is written is what was there.

Two refusals promise more. A `store` on a live key and a move between the wrong kinds of values
decide before they use anything, and leave the store as it was altogether.
-/

namespace BoundedStore

open Bounded Bounded.Change

namespace Operation

/-! ## Which outcomes are meant -/

/-- Whether an operation asks for no change: it only looks, or it is to store a combination and
names no key to store it at. -/
def asksNoChange : Operation → Bool
  | command (.get _) | command (.itemAt ..) | command (.listLength _) | command (.listRange ..)
  | command (.isMember ..) | command (.cardinality _) | command (.members _)
  | command (.combine ..) | command (.randomMember _) | command (.combineInto _ []) => true
  | command _ => false
  | contains _ | size | statistics => true

/-- Whether an outcome says that the operation was refused or that there was nothing to do. -/
def declines : Operation → Outcome → Bool
  | _, .refused _ => true
  | command (.replace ..), .flag done | command (.push ..), .flag done
  | command (.setItem ..), .flag done | command (.trimList ..), .flag done
  | command (.addMember ..), .flag done | command (.removeMember ..), .flag done
  | command (.moveMember ..), .flag done => !done
  | command (.pop ..), .value taken | command (.popMember _), .value taken => taken.isNone
  | command (.removeItems ..), .count removed => removed == 0
  | _, _ => false

/-- A result that declines is not one whose outcome does not. -/
theorem ne_ok_of_declines {op : Operation} {α : Type} {accept : α → Outcome}
    {result : Except StoreError α} {a : α} (h : op.declines (.orRefused accept result) = true)
    (haccepted : op.declines (accept a) = false) : result ≠ .ok a := by
  rintro rfl
  have hdeclined : op.declines (accept a) = true := h
  rw [haccepted] at hdeclined
  cases hdeclined

/-- Where no accepted result has the outcome of a refusal, the result itself is the refusal. -/
theorem eq_error_of_refused {α : Type} {accept : α → Outcome} {result : Except StoreError α}
    {e : StoreError} (h : Outcome.orRefused accept result = .refused e)
    (haccept : ∀ a, accept a ≠ .refused e) : result = .error e := by
  cases result with
  | ok a => exact absurd h (haccept a)
  | error other => rw [Outcome.refused.inj h]

end Operation

/-! ## Idle changes

One lemma an operation that can decline. Each looks at the value at its key: on another kind of
value, and on an absent key, the operation only uses the key, and on its own kind the answer says
that what is written is what was there. -/

namespace Store

/-- Rewriting is idle when every value that is written is the one found. -/
theorem idleAll_rewriting {s : Store} {key : String} {rewrite : Value → Option Value}
    (h : ∀ found value, s.find? key = some found → rewrite found = some value → value = found) :
    s.map.IdleAll (s.rewriting key rewrite) := by
  unfold rewriting
  cases hfind : s.find? key with
  | none => exact ⟨trivial, trivial⟩
  | some found =>
    cases hnew : rewrite found with
    | none => simpa [hnew] using idleAll_use s.map [key]
    | some value =>
      have hvalue : value = found := h found value hfind hnew
      rw [Option.bind_some, hnew, hvalue]
      exact ⟨hfind, trivial⟩

section Declined

variable {s : Store} {key : String}

theorem idleAll_create {value : Value} (h : (s.create key value).1 ≠ .ok ()) :
    s.map.IdleAll (Operation.changes s (.command (.store key value))) := by
  rw [Operation.changes]
  by_cases hlive : s.contains key = true
  · rw [if_pos hlive]
    exact trivial
  · have habsent : ¬ s.map.contains key = true := hlive
    unfold create at h
    rw [if_neg habsent] at h
    exact absurd rfl h

theorem idleAll_replace {value : Value} (h : (s.replace key value).1 = false) :
    s.map.IdleAll (Operation.changes s (.command (.replace key value))) := by
  apply idleAll_rewriting
  intro found _ hfind _
  unfold replace at h
  rw [hfind] at h
  cases h

theorem idleAll_push {side : Side} {value : Value} (h : (s.push side key value).1 = false) :
    s.map.IdleAll (Operation.changes s (.command (.push side key value))) := by
  unfold push at h
  cases hfind : s.find? key with
  | none =>
    -- a push to an absent key makes a list, and does not decline
    rw [hfind] at h
    cases h
  | some found =>
    rw [Operation.changes, if_pos (contains_of_find? hfind)]
    apply idleAll_rewriting
    intro other new hother hnew
    obtain ⟨items, kept, rfl, -, -⟩ := onList_eq_some_iff.mp hnew
    rw [hother] at h
    cases h

theorem idleAll_pop {side : Side} (h : (s.pop side key).1 = none) :
    s.map.IdleAll (Operation.changes s (.command (.pop side key))) := by
  apply idleAll_rewriting
  intro found new hfind hnew
  obtain ⟨items, kept, rfl, hkept, -⟩ := onList_eq_some_iff.mp hnew
  unfold pop at h
  rw [hfind] at h
  cases hpop : Items.pop? side items with
  | none => simp [hpop] at hkept
  | some taken => simp [hpop] at h

theorem idleAll_setItem {index : Int64} {value : Value}
    (h : (s.setItem key index value).1 = false) :
    s.map.IdleAll (Operation.changes s (.command (.setItem key index value))) := by
  apply idleAll_rewriting
  intro found new hfind hnew
  obtain ⟨items, kept, rfl, hkept, -⟩ := onList_eq_some_iff.mp hnew
  unfold setItem at h
  rw [hfind] at h
  cases hposition : Items.position? items.length index with
  | none => simp [hposition] at hkept
  | some i => simp [hposition] at h

theorem idleAll_trimList {start stop : Int64} (h : (s.trimList key start stop).1 = false) :
    s.map.IdleAll (Operation.changes s (.command (.trimList key start stop))) := by
  apply idleAll_rewriting
  intro found new hfind hnew
  obtain ⟨items, kept, rfl, -, -⟩ := onList_eq_some_iff.mp hnew
  unfold trimList at h
  rw [hfind] at h
  cases h

theorem idleAll_removeItems {count : Int64} {target : Value}
    (h : (s.removeItems key count target).1 = 0) :
    s.map.IdleAll (Operation.changes s (.command (.removeItems key count target))) := by
  apply idleAll_rewriting
  intro found new hfind hnew
  obtain ⟨items, kept, rfl, hkept, rfl⟩ := onList_eq_some_iff.mp hnew
  unfold removeItems at h
  rw [hfind] at h
  -- the list is written again, and it is the same list
  have hsame : Items.remove items count target = items := Items.remove_eq_self h
  rw [← Option.some.inj hkept, hsame]

theorem idleAll_addMember {member : Value} (h : (s.addMember key member).1 ≠ .ok true) :
    s.map.IdleAll (Operation.changes s (.command (.addMember key member))) := by
  unfold addMember membersAt at h
  cases hfind : s.find? key with
  | none =>
    rw [hfind] at h
    exact absurd rfl h
  | some found =>
    rw [Operation.changes, if_pos (contains_of_find? hfind)]
    apply idleAll_rewriting
    intro other new hother hnew
    obtain ⟨members, kept, rfl, hkept, rfl⟩ := onSet_eq_some_iff.mp hnew
    rw [hother] at h
    have hmember : Members.has members member = true := by simpa using h
    rw [← Option.some.inj hkept, Members.add_of_has hmember]

theorem idleAll_removeMember {member : Value} (h : (s.removeMember key member).1 ≠ .ok true) :
    s.map.IdleAll (Operation.changes s (.command (.removeMember key member))) := by
  apply idleAll_rewriting
  intro found new hfind hnew
  obtain ⟨members, kept, rfl, hkept, rfl⟩ := onSet_eq_some_iff.mp hnew
  unfold removeMember membersAt at h
  rw [hfind] at h
  have hmember : Members.has members member = false := by simpa using h
  rw [← Option.some.inj hkept, Members.remove_of_not_has hmember]

/-- A set that is not empty always gives up a member, since a choice is within its size. -/
theorem idleAll_popMember (h : (s.popMember key).1 = none) :
    s.map.IdleAll (Operation.changes s (.command (.popMember key))) := by
  apply idleAll_rewriting
  intro found new hfind hnew
  obtain ⟨members, kept, rfl, hkept, -⟩ := onSet_eq_some_iff.mp hnew
  unfold popMember at h
  rw [hfind] at h
  cases members with
  | nil => cases hkept
  | cons first rest =>
    have hchosen : (s.choices.pick (first :: rest).length).1 < (first :: rest).length :=
      Nat.mod_lt _ (Nat.succ_pos _)
    have hnone : (first :: rest)[(s.choices.pick (first :: rest).length).1]? = none := h
    rw [List.getElem?_eq_none_iff] at hnone
    omega

theorem idleAll_remove (h : (s.remove key).1 ≠ .ok ()) :
    s.map.IdleAll (Operation.changes s (.command (.remove key))) := by
  have habsent : s.map.contains key = false := by
    unfold remove Bounded.remove at h
    cases hpeek : s.map.peek key with
    | none => exact (peek_eq_none_iff s.map key).mp hpeek
    | some value =>
      rw [hpeek] at h
      exact absurd rfl h
  exact ⟨habsent, trivial⟩

/-- Where a source is refused, the sources are used and nothing is written. -/
theorem idleAll_combineInto {algebra : Algebra} {keys : List String}
    (h : ∀ n, (s.combineInto algebra keys).1 ≠ .ok n) :
    s.map.IdleAll (Operation.changes s (.command (.combineInto algebra keys))) := by
  cases keys with
  | nil => exact absurd rfl (h 0)
  | cons destination sources =>
    rw [Operation.changes]
    cases hsets : s.setsAt sources with
    | ok sets =>
      have hstored := h (algebra.combine sets).length
      rw [combineInto_of_ok algebra destination hsets] at hstored
      exact absurd rfl hstored
    | error e =>
      rw [List.append_nil]
      exact idleAll_use s.map sources

theorem idleAll_moveMember {source destination : String} {member : Value}
    (h : (s.moveMember source destination member).1 ≠ .ok true) :
    s.map.IdleAll (Operation.changes s (.command (.moveMember source destination member))) := by
  rw [Operation.changes, moving]
  split
  next members hsource =>
    have hmembers : s.membersAt source = .ok (some members) := by simp [membersAt, hsource]
    split
    next hdestination =>
      obtain ⟨target, htarget⟩ := (membersAt_eq_ok_iff s destination).mpr hdestination
      split
      next hmember =>
        -- both kinds are right and the member is there, so the move takes place
        unfold moveMember at h
        rw [hmembers, htarget] at h
        simp [hmember] at h
      next => exact idleAll_use s.map [source]
    next => exact trivial
  next => exact trivial

end Declined

/-! ## Refusals that leave the store as it was -/

theorem snd_create_of_refused {s : Store} {key : String} {value : Value} {e : StoreError}
    (h : (s.create key value).1 = .error e) : (s.create key value).2 = s := by
  unfold create at h ⊢
  split
  · rfl
  next habsent =>
    rw [if_neg habsent] at h
    cases h

theorem snd_moveMember_of_refused {s : Store} {source destination : String} {member : Value}
    {e : StoreError} (h : (s.moveMember source destination member).1 = .error e) :
    (s.moveMember source destination member).2 = s := by
  unfold moveMember at h ⊢
  split
  · rfl
  · rfl
  · rfl
  next members _ hsource hdestination =>
    rw [hsource, hdestination] at h
    -- a move between two sets is not refused, whether or not the member is there
    by_cases hmember : Members.has members member = true <;> simp [hmember] at h

end Store

/-! ## The counters of lookups -/

/-- Only a lookup counts, and it counts either one hit or one miss. -/
structure CountsLookups (s : Store) (op : Operation) (t : Store) : Prop where
  get : ∀ key, op = .command (.get key) →
    (s.contains key = true ∧ t.hits = s.hits + 1 ∧ t.misses = s.misses) ∨
      (s.contains key = false ∧ t.hits = s.hits ∧ t.misses = s.misses + 1)
  other : (∀ key, op ≠ .command (.get key)) → t.hits = s.hits ∧ t.misses = s.misses

namespace Operation

theorem countsLookups (s : Store) (op : Operation) : CountsLookups s op (op.perform s).2 where
  get := by
    rintro key rfl
    have htallies := tallies s (.command (.get key))
    cases hlive : s.contains key with
    | true =>
      exact Or.inl ⟨rfl, by simpa [newHits, hlive] using htallies.hits_eq,
        by simpa [newMisses, hlive] using htallies.misses_eq⟩
    | false =>
      exact Or.inr ⟨rfl, by simpa [newHits, hlive] using htallies.hits_eq,
        by simpa [newMisses, hlive] using htallies.misses_eq⟩
  other := by
    intro hother
    have htallies := tallies s op
    have hhits : op.newHits s = 0 := by
      unfold newHits
      split
      next key => exact absurd rfl (hother key)
      next => rfl
    have hmisses : op.newMisses s = 0 := by
      unfold newMisses
      split
      next key => exact absurd rfl (hother key)
      next => rfl
    exact ⟨by rw [htallies.hits_eq, hhits]; rfl, by rw [htallies.misses_eq, hmisses]; rfl⟩

/-! ## Declined operations and reads -/

/-- An operation that only looks uses keys at most. -/
theorem idleAll_changes_of_asksNoChange {s : Store} {op : Operation} (h : op.asksNoChange = true) :
    s.map.IdleAll (op.changes s) := by
  cases op with
  | contains key => exact trivial
  | size => exact trivial
  | statistics => exact trivial
  | command c =>
    cases c with
    | combine algebra keys => exact idleAll_use s.map keys
    | combineInto algebra keys =>
      cases keys with
      | nil => exact trivial
      | cons destination sources => cases h
    | get key | itemAt key | listLength key | listRange key | isMember key | cardinality key
    | members key | randomMember key => exact idleAll_use s.map [key]
    | store | remove | replace | push | pop | setItem | trimList | removeItems | addMember
    | removeMember | moveMember | popMember => cases h

theorem idleAll_changes_of_declines {s : Store} {op : Operation}
    (h : op.declines (op.perform s).1 = true) : s.map.IdleAll (op.changes s) := by
  cases op with
  | contains key => exact trivial
  | size => exact trivial
  | statistics => exact trivial
  | command c =>
    cases c with
    | store key value => exact Store.idleAll_create (ne_ok_of_declines h rfl)
    | remove key => exact Store.idleAll_remove (ne_ok_of_declines h rfl)
    | replace key value => exact Store.idleAll_replace ((Bool.not_eq_true' _).mp h)
    | push side key value => exact Store.idleAll_push ((Bool.not_eq_true' _).mp h)
    | pop side key => exact Store.idleAll_pop (Option.isNone_iff_eq_none.mp h)
    | setItem key index value => exact Store.idleAll_setItem ((Bool.not_eq_true' _).mp h)
    | trimList key start stop => exact Store.idleAll_trimList ((Bool.not_eq_true' _).mp h)
    | removeItems key count target => exact Store.idleAll_removeItems (beq_iff_eq.mp h)
    | addMember key member => exact Store.idleAll_addMember (ne_ok_of_declines h rfl)
    | removeMember key member => exact Store.idleAll_removeMember (ne_ok_of_declines h rfl)
    | combineInto algebra keys =>
      exact Store.idleAll_combineInto fun n => ne_ok_of_declines h rfl
    | moveMember source destination member =>
      exact Store.idleAll_moveMember (ne_ok_of_declines h rfl)
    | popMember key => exact Store.idleAll_popMember (Option.isNone_iff_eq_none.mp h)
    | get | itemAt | listLength | listRange | isMember | cardinality | members | combine
    | randomMember => exact idleAll_changes_of_asksNoChange rfl

/-- **Refusals and reads leave the data as it was.** Whatever the store holds, an operation that
asks for no change, or whose outcome says that it was refused or had nothing to do, leaves every
entry as it was, down to the order of items and members, and evicts nothing. Only a lookup counts,
and it counts one hit or one miss. A refused `store` and a refused move do not even count as uses.
-/
theorem declined_leaves_data (s : Store) (op : Operation)
    (h : op.asksNoChange = true ∨ op.declines (op.perform s).1 = true) :
    (op.perform s).2.map.entries = s.map.entries ∧
      (op.perform s).2.map.evictions = s.map.evictions ∧
      CountsLookups s op (op.perform s).2 ∧
      (∀ key value e, op = .command (.store key value) → (op.perform s).1 = .refused e →
        (op.perform s).2 = s) ∧
      (∀ source destination member e, op = .command (.moveMember source destination member) →
        (op.perform s).1 = .refused e → (op.perform s).2 = s) := by
  have hidle : s.map.IdleAll (op.changes s) :=
    h.elim idleAll_changes_of_asksNoChange idleAll_changes_of_declines
  have hsame : SameData s.map (op.perform s).2.map := by
    rw [perform_map]
    exact hidle.sameData
  refine ⟨hsame.entries_eq, hsame.evictions_eq, countsLookups s op, ?_, ?_⟩
  · rintro key value e rfl hrefused
    exact Store.snd_create_of_refused (eq_error_of_refused hrefused nofun)
  · rintro source destination member e rfl hrefused
    exact Store.snd_moveMember_of_refused (eq_error_of_refused hrefused nofun)

/-- A removal from the end that finds no such item leaves the items in their order. -/
theorem unmatched_removal_leaves_data :
    ∃ start, Store.new 2 ⟨fun _ => 0, 0⟩ = .ok start ∧
      ∃ s, s = (run start [.command (.push .tail "l" (.integer 1)),
          .command (.push .tail "l" (.integer 2))]).2 ∧
        (perform s (.command (.removeItems "l" (-1) (.text "x")))).1 = .count 0 ∧
        (perform s (.command (.removeItems "l" (-1) (.text "x")))).2.map.entries =
          [("l", .list [.integer 1, .integer 2])] := by
  refine ⟨_, Store.new_eq_ok_iff.mpr ⟨by decide, rfl⟩, _, rfl, by decide, ?_⟩
  rw [(declined_leaves_data _ (.command (.removeItems "l" (-1) (.text "x")))
    (Or.inr (by decide))).1]
  decide

end Operation

end BoundedStore
