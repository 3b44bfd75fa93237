import BoundedStore.Proofs.Bounded.History
import BoundedStore.Proofs.Store.Validity

/-!
# The uses of operations

`uses` lists the keys that an operation uses, in order, from what the store holds before it: which
keys are live and which of them hold sets. `history` is the list of all uses of a run.

Along every run the store's map remembers its history (`remembers_run`): the recency holds the live
keys in the order of their last uses, and the clock has counted every use. The clock is a natural
number here; one of 64 bits would count the same as long as there are fewer than `2 ^ 64` uses.
-/

namespace BoundedStore

open Bounded Bounded.Change

namespace Operation

/-- The keys that an operation uses. Creating a key uses it. An operation on one list or set uses
its key whenever that is live, of whatever kind. Set algebra uses every live source, also when it is
refused, and its destination only when it is not. A move uses its source when both kinds are right,
and its destination when the member was there to be moved. -/
def uses (s : Store) : Operation → List String
  | command (.store key _) => if s.contains key then [] else [key]
  | command (.push _ key _) | command (.addMember key _) => [key]
  | command (.get key) | command (.replace key _) | command (.pop _ key) | command (.itemAt key _)
  | command (.listLength key) | command (.setItem key _ _) | command (.listRange key _ _)
  | command (.trimList key _ _) | command (.removeItems key _ _) | command (.removeMember key _)
  | command (.isMember key _) | command (.cardinality key) | command (.members key)
  | command (.popMember key) | command (.randomMember key) => [key].filter s.contains
  | command (.combine _ keys) => keys.filter s.contains
  | command (.combineInto _ []) => []
  | command (.combineInto _ (destination :: sources)) =>
    sources.filter s.contains ++ if sources.all s.admitsSet then [destination] else []
  | command (.moveMember source destination member) =>
    match s.find? source with
    | some (.set members) =>
      if s.admitsSet destination then
        if Members.has members member then [source, destination] else [source]
      else []
    | _ => []
  | command (.remove _) | contains _ | size | statistics => []

/-- The uses of a run, the latest one last. -/
def history (s : Store) : List Operation → List String
  | [] => []
  | op :: rest => op.uses s ++ history (op.perform s).2 rest

/-! ## The changes use what the operation uses -/

theorem usesAll_single_use (s : Store) (key : String) :
    usesAll s.map [.use key] = [key].filter s.contains :=
  usesAll_use s.map [key]

theorem usesAll_rewriting (s : Store) (key : String) (rewrite : Value → Option Value) :
    usesAll s.map (s.rewriting key rewrite) = [key].filter s.contains := by
  unfold Store.rewriting
  cases hfind : s.find? key with
  | none => exact usesAll_single_use s key
  | some found =>
    have hlive : s.contains key = true := Store.contains_of_find? hfind
    cases hnew : rewrite found with
    | none => simpa [hnew] using usesAll_single_use s key
    | some value => simp [hnew, usesAll, Change.uses, hlive]

theorem usesAll_rewriting_or_write (s : Store) (key : String) (rewrite : Value → Option Value)
    (value : Value) :
    usesAll s.map (if s.contains key then s.rewriting key rewrite else [.write key value]) =
      [key] := by
  by_cases hlive : s.contains key = true
  · rw [if_pos hlive, usesAll_rewriting]
    simp [hlive]
  · rw [if_neg hlive]
    rfl

theorem usesAll_moving (s : Store) (source destination : String) (member : Value) :
    usesAll s.map (s.moving source destination member) =
      uses s (.command (.moveMember source destination member)) := by
  simp only [uses]
  unfold Store.moving
  cases hsource : s.find? source with
  | none => rfl
  | some found =>
    cases found with
    | integer | text | list => rfl
    | set members =>
      have hlive : s.map.contains source = true := Store.contains_of_find? hsource
      by_cases hdestination : s.admitsSet destination = true
      · by_cases hmember : Members.has members member = true
        · simp only [if_pos hdestination, if_pos hmember]
          rfl
        · simp only [if_pos hdestination, if_neg hmember]
          simp [usesAll, Change.uses, hlive]
      · simp only [if_neg hdestination]
        rfl

theorem usesAll_combineInto (s : Store) (algebra : Algebra) (keys : List String) :
    usesAll s.map (changes s (.command (.combineInto algebra keys))) =
      uses s (.command (.combineInto algebra keys)) := by
  cases keys with
  | nil => rfl
  | cons destination sources =>
    have hsources : usesAll s.map (sources.map .use) = sources.filter s.contains :=
      usesAll_use s.map sources
    have hadmits := Store.setsAt_eq_ok_iff s sources
    simp only [changes, uses, usesAll_append, hsources]
    cases hsets : s.setsAt sources with
    | ok sets =>
      rw [if_pos (hadmits.mp ⟨sets, hsets⟩)]
      rfl
    | error e =>
      -- the destination is not used when a source is refused
      have hrefused : ¬ sources.all s.admitsSet = true := by
        rw [← hadmits, hsets]
        rintro ⟨sets, hok⟩
        cases hok
      rw [if_neg hrefused]
      rfl

theorem usesAll_changes (s : Store) (op : Operation) :
    usesAll s.map (op.changes s) = op.uses s := by
  cases op with
  | contains key => rfl
  | size => rfl
  | statistics => rfl
  | command c =>
    cases c with
    | store key value =>
      simp only [changes, uses]
      by_cases hlive : s.contains key = true
      · rw [if_pos hlive, if_pos hlive]
        rfl
      · rw [if_neg hlive, if_neg hlive]
        rfl
    | remove key => rfl
    | push side key value => exact usesAll_rewriting_or_write s key _ _
    | addMember key member => exact usesAll_rewriting_or_write s key _ _
    | combine algebra keys => exact usesAll_use s.map keys
    | combineInto algebra keys => exact usesAll_combineInto s algebra keys
    | moveMember source destination member => exact usesAll_moving s source destination member
    | replace key | pop _ key | setItem key | trimList key | removeItems key | removeMember key
    | popMember key => exact usesAll_rewriting s key _
    | get key | itemAt key | listLength key | listRange key | isMember key | cardinality key
    | members key | randomMember key => exact usesAll_single_use s key

/-! ## Stores remember their history -/

theorem remembers_perform {s : Store} {past : List String} (h : s.map.Remembers past)
    (hvalid : s.map.Valid) (op : Operation) :
    (op.perform s).2.map.Remembers (past ++ op.uses s) := by
  rw [perform_map, ← usesAll_changes]
  exact h.applyAll hvalid (op.changes s)

/-- At the end of every run the recency holds the live keys in the order of their last uses, and the
clock shows how many uses there were. -/
theorem remembers_run {s : Store} {past : List String} (h : s.map.Remembers past)
    (hvalid : s.map.Valid) (ops : List Operation) :
    (run s ops).2.map.Remembers (past ++ history s ops) := by
  induction ops generalizing s past with
  | nil => simpa [history, run] using h
  | cons op rest ih =>
    have := ih (remembers_perform h hvalid op) (valid_perform hvalid op)
    rwa [List.append_assoc] at this

end Operation

end BoundedStore
