import BoundedStore.Proofs.Store.Changes

/-!
# The whole store after an operation

Beside its map a store has two counters of lookups and a supply of choices. Few operations touch
those: a lookup counts a hit or a miss, and an operation on a random member draws a choice if there
is a member to choose. Together with the changes of the map that is all that an operation does, and
`snd_perform_eq` says so in one equation.
-/

namespace BoundedStore

open Bounded Bounded.Change

namespace Operation

/-! ## What is counted and drawn -/

/-- The hits that an operation counts. -/
def newHits (s : Store) : Operation → Nat
  | command (.get key) => (s.contains key).toNat
  | _ => 0

/-- The misses that an operation counts. -/
def newMisses (s : Store) : Operation → Nat
  | command (.get key) => (!s.contains key).toNat
  | _ => 0

/-- How many choices an operation draws. From the empty set there is nothing to choose. -/
def drawn (s : Store) : Operation → Nat
  | command (.popMember key) | command (.randomMember key) =>
    if s.setMembers key = [] then 0 else 1
  | _ => 0

end Operation

/-! ## Operations that change the map alone -/

/-- `t` differs from `s` at most in its map. -/
structure MapOnly (s t : Store) : Prop where
  choices_eq : t.choices = s.choices
  hits_eq : t.hits = s.hits
  misses_eq : t.misses = s.misses

namespace Store

theorem mapOnly_useAll (s : Store) (keys : List String) : MapOnly s (s.useAll keys) := by
  unfold useAll
  induction keys generalizing s with
  | nil => exact ⟨rfl, rfl, rfl⟩
  | cons key rest ih =>
    obtain ⟨hchoices, hhits, hmisses⟩ := ih (s.use key)
    exact ⟨hchoices, hhits, hmisses⟩

theorem mapOnly_addMember (s : Store) (key : String) (member : Value) :
    MapOnly s (s.addMember key member).2 := by
  unfold addMember
  split
  all_goals exact ⟨rfl, rfl, rfl⟩

theorem mapOnly_combineInto (s : Store) (algebra : Algebra) (keys : List String) :
    MapOnly s (s.combineInto algebra keys).2 := by
  cases keys with
  | nil => exact ⟨rfl, rfl, rfl⟩
  | cons destination sources =>
    obtain ⟨hchoices, hhits, hmisses⟩ := s.mapOnly_useAll sources
    cases hsets : s.setsAt sources with
    | ok sets =>
      rw [combineInto_of_ok algebra destination hsets]
      exact ⟨hchoices, hhits, hmisses⟩
    | error e =>
      rw [combineInto_of_error algebra destination hsets]
      exact ⟨hchoices, hhits, hmisses⟩

theorem mapOnly_moveMember (s : Store) (source destination : String) (member : Value) :
    MapOnly s (s.moveMember source destination member).2 := by
  unfold moveMember
  split
  · exact ⟨rfl, rfl, rfl⟩
  · exact ⟨rfl, rfl, rfl⟩
  · exact ⟨rfl, rfl, rfl⟩
  next members _ _ _ =>
    split
    · obtain ⟨hchoices, hhits, hmisses⟩ :=
        (s.write source (.set (Members.remove members member))).mapOnly_addMember destination member
      exact ⟨hchoices, hhits, hmisses⟩
    · exact ⟨rfl, rfl, rfl⟩

/-! ## Random members -/

theorem choices_popMember (s : Store) (key : String) : (s.popMember key).2.choices =
    { s.choices with used := s.choices.used + if s.setMembers key = [] then 0 else 1 } := by
  unfold popMember setMembers set?
  cases s.find? key with
  | none => rfl
  | some found =>
    cases found with
    | set members => cases members <;> rfl
    | integer | text | list => rfl

theorem choices_randomMember (s : Store) (key : String) : (s.randomMember key).2.choices =
    { s.choices with used := s.choices.used + if s.setMembers key = [] then 0 else 1 } := by
  unfold randomMember setMembers set?
  cases s.find? key with
  | none => rfl
  | some found =>
    cases found with
    | set members => cases members <;> rfl
    | integer | text | list => rfl

theorem counters_popMember (s : Store) (key : String) :
    (s.popMember key).2.hits = s.hits ∧ (s.popMember key).2.misses = s.misses := by
  unfold popMember
  split <;> exact ⟨rfl, rfl⟩

theorem counters_randomMember (s : Store) (key : String) :
    (s.randomMember key).2.hits = s.hits ∧ (s.randomMember key).2.misses = s.misses := by
  unfold randomMember
  split <;> exact ⟨rfl, rfl⟩

end Store

namespace Operation

/-- Whether an operation may do more than change the map. -/
def countsOrDraws : Operation → Bool
  | command (.get _) | command (.popMember _) | command (.randomMember _) => true
  | _ => false

theorem mapOnly_perform (s : Store) {op : Operation} (h : op.countsOrDraws = false) :
    MapOnly s (op.perform s).2 := by
  cases op with
  | contains | size | statistics => exact ⟨rfl, rfl, rfl⟩
  | command c =>
    cases c with
    | get | popMember | randomMember => cases h
    | combine algebra keys => exact s.mapOnly_useAll keys
    | combineInto algebra keys => exact s.mapOnly_combineInto algebra keys
    | moveMember source destination member => exact s.mapOnly_moveMember source destination member
    | addMember key member => exact s.mapOnly_addMember key member
    | itemAt | listLength | listRange | isMember | cardinality | members => exact ⟨rfl, rfl, rfl⟩
    | store | remove | replace | push | pop | setItem | trimList | removeItems | removeMember =>
      -- each branch of these writes the map
      simp only [perform, Store.perform, Prod.map_snd, id_eq, Store.create, Store.remove,
        Store.replace, Store.push, Store.pop, Store.setItem, Store.trimList, Store.removeItems,
        Store.removeMember]
      repeat' split
      all_goals exact ⟨rfl, rfl, rfl⟩

/-! ## The store after an operation -/

/-- What an operation does to a store, beside the changes of its map. -/
structure Tallies (s : Store) (op : Operation) : Prop where
  choices_eq : (op.perform s).2.choices = { s.choices with used := s.choices.used + op.drawn s }
  hits_eq : (op.perform s).2.hits = s.hits + op.newHits s
  misses_eq : (op.perform s).2.misses = s.misses + op.newMisses s

theorem tallies_get (s : Store) (key : String) : Tallies s (.command (.get key)) := by
  have hnext : (perform s (.command (.get key))).2 = (s.get key).2 := rfl
  cases hfind : s.find? key with
  | none =>
    have habsent := (Store.find?_eq_none_iff s key).mp hfind
    constructor <;> simp [hnext, Store.get, hfind, habsent, drawn, newHits, newMisses]
  | some value =>
    have hlive := Store.contains_of_find? hfind
    constructor <;> simp [hnext, Store.get, hfind, hlive, drawn, newHits, newMisses, Store.use]

theorem tallies_of_mapOnly {s : Store} {op : Operation} (h : MapOnly s (op.perform s).2)
    (hnone : op.drawn s = 0 ∧ op.newHits s = 0 ∧ op.newMisses s = 0) : Tallies s op := by
  obtain ⟨hdrawn, hhits, hmisses⟩ := hnone
  exact ⟨by rw [hdrawn, h.choices_eq]; rfl, by rw [hhits, h.hits_eq]; rfl,
    by rw [hmisses, h.misses_eq]; rfl⟩

theorem tallies (s : Store) (op : Operation) : Tallies s op := by
  cases op with
  | contains | size | statistics => exact ⟨rfl, rfl, rfl⟩
  | command c =>
    cases c with
    | get key => exact tallies_get s key
    | popMember key =>
      obtain ⟨hhits, hmisses⟩ := s.counters_popMember key
      exact ⟨s.choices_popMember key, hhits, hmisses⟩
    | randomMember key =>
      obtain ⟨hhits, hmisses⟩ := s.counters_randomMember key
      exact ⟨s.choices_randomMember key, hhits, hmisses⟩
    | _ => exact tallies_of_mapOnly (mapOnly_perform s rfl) ⟨rfl, rfl, rfl⟩

/-- An operation does to a store what its changes do to the map, what it counts, and what it draws,
and nothing else. -/
theorem snd_perform_eq (s : Store) (op : Operation) :
    (op.perform s).2 =
      { map := applyAll s.map (op.changes s)
        choices := { s.choices with used := s.choices.used + op.drawn s }
        hits := s.hits + op.newHits s
        misses := s.misses + op.newMisses s } := by
  have htallies := tallies s op
  rw [← perform_map, ← htallies.choices_eq, ← htallies.hits_eq, ← htallies.misses_eq]

end Operation

end BoundedStore
