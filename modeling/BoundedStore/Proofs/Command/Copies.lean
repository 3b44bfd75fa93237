import BoundedStore.Command.Printer
import BoundedStore.Proofs.Command.Shapes

/-!
# Values that are sent back

A client copies a value when it asks for it with `get` and sends the JSON that it is replied back
in a `store`. This JSON has lost nothing but that a set is one, since the values that clients store
are plain: no set is inside another value. And it is stored as it is, since it was coerced before.
So the copy is the value, or the list of the members of a set.
-/

namespace BoundedStore

open Json (Text InRange maxDepth Once)

namespace Value

/-- A list in place of a set, of the members in their order. -/
def asList : Value → Value
  | set members => list members
  | v => v

/-- Nothing of a plain value is lost but that it is a set. -/
theorem Plain.listed_eq {v : Value} (h : v.Plain) : v.listed = v.asList := by
  rcases h with hfree | ⟨members, rfl, hmembers, -⟩
  · rw [listed_of_setFree hfree]
    cases v with
    | integer | text | list => rfl
    | set members => cases hfree
  · have hsame : (set members).listed = (list members).listed := rfl
    rw [hsame, listed_of_setFree ((setFree_list_iff members).mpr hmembers)]
    rfl

theorem coerce_asList {v : Value} (h : v.coerce = v) : v.asList.coerce = v.asList := by
  cases v with
  | integer | text | list => exact h
  | set members => rfl

end Value

/-! ## Replies and commands in JSON -/

/-- The reply to a lookup that finds `j`. -/
def valueReply (j : Json) : Json :=
  .object [("type", .text "value"), ("value", j)]

theorem valueReply_injective {j k : Json} (h : valueReply j = valueReply k) : j = k := by
  simpa [valueReply] using h

/-- A tree that asks for `j` to be stored at a key: an object, whose other members do not matter, or
an array. -/
inductive AsksToStore (key : String) (j : Json) : Json → Prop
  | object {members : List (String × Json)} : Once "op" (.text "store") members →
    Once "key" (.text key) members → Once "value" j members → AsksToStore key j (.object members)
  | array : AsksToStore key j (.array [.text "store", .text key, j])

/-- The plainest of these trees. -/
def storing (key : String) (j : Json) : Json :=
  .object [("op", .text "store"), ("key", .text key), ("value", j)]

theorem asksToStore_storing (key : String) (j : Json) : AsksToStore key j (storing key j) := by
  refine .object ?_ ?_ ?_ <;> simp [Json.once_iff_filter]

/-- To ask for the JSON of a value is to ask for the command with that value. -/
theorem AsksToStore.askedBy {key : String} {v : Value} {tree : Json}
    (h : AsksToStore key v.toJson tree) : (Command.store key v).AskedBy tree := by
  cases h with
  | object hop hkey hvalue =>
    exact .object hop (List.forall_mem_cons.mpr ⟨hkey, List.forall_mem_singleton.mpr hvalue⟩)
  | array => exact .array

theorem AsksToStore.read {key text : String} {v : Value} {tree : Json} (hfree : v.SetFree)
    (h : AsksToStore key v.toJson tree) (htext : Text InRange text tree) :
    Command.read text = .ok (.store key v) :=
  (Command.read_eq_ok_of_text htext).mpr
    ⟨List.forall_mem_cons.mpr ⟨trivial, List.forall_mem_singleton.mpr hfree⟩, h.askedBy⟩

namespace Store

/-! ## Looking up and storing -/

theorem execute_get {s : Store} {key : String} {v : Value} (h : s.find? key = some v) :
    s.execute (.get key) = (.ok (.value v), { s.use key with hits := s.hits + 1 }) := by
  simp [execute, get, h, Execution.ofLookup]

/-- What was stored is there at once, whatever was evicted for it. -/
theorem executeAll_store_get (s : Store) (key : String) (v : Value) :
    ∃ last, s.executeAll [.store key v, .get key] = ([.ok .ok, .ok (.value v.coerce)], last) ∧
      last.find? key = some v.coerce := by
  have hstore : s.execute (.store key v) = (.ok .ok, s.write key v.coerce) :=
    s.storeOrReplace_succ key v 2
  have hfind := s.find?_write_self key v.coerce
  refine ⟨{ (s.write key v.coerce).use key with hits := s.hits + 1 }, ?_, ?_⟩
  · rw [executeAll_cons, hstore, executeAll_cons, execute_get hfind]
    rfl
  · exact ((s.write key v.coerce).find?_use key key).trans hfind

/-- **Copying loses nothing but that a set is one.** Clients have brought about some store, and one
of them looks up a live key. It is replied a JSON value. Every text that asks for that value to be
stored at some key is read as a command, which is replied to with ok in whatever state the store is
by then, full or not, with the key live or not. From then on the key has the value, or the list of
the members if it was a set, and to look it up is replied with the same JSON. There are such texts
unless the value goes as deep as the reader does. -/
theorem copies_get_store {s : Store} (h : s.Served) {key : String} {v : Value}
    (hfind : s.find? key = some v) :
    ∃ first j, (s.execute (.get key)).1 = .ok first ∧
      first.toJson = valueReply j ∧
      (∀ target tree text, AsksToStore target j tree → Text InRange text tree →
        ∃ c, Command.read text = .ok c ∧ ∀ t : Store, ∃ again last,
          t.executeAll [c, .get target] = ([.ok .ok, .ok again], last) ∧
            again.toJson = first.toJson ∧ last.find? target = some v.asList) ∧
      ∀ target, j.depth < maxDepth →
        AsksToStore target j (storing target j) ∧
          Text InRange (storing target j).render (storing target j) := by
  obtain ⟨hplain, hcoerce⟩ := h.plain key v hfind
  have hfree : v.asList.SetFree := hplain.listed_eq ▸ v.setFree_listed
  have hjson : v.asList.toJson = v.toJson := hplain.listed_eq ▸ v.toJson_listed
  refine ⟨.value v, v.toJson, congrArg Prod.fst (execute_get hfind), rfl, ?copied, ?sent⟩
  case copied =>
    intro target tree text hasks htext
    -- the list has the JSON of the value, so the text asks for the list to be stored
    rw [← hjson] at hasks
    refine ⟨.store target v.asList, hasks.read hfree htext, fun t => ?_⟩
    obtain ⟨last, hrun, hlast⟩ := t.executeAll_store_get target v.asList
    rw [Value.coerce_asList hcoerce] at hrun hlast
    exact ⟨.value v.asList, last, hrun, congrArg valueReply hjson, hlast⟩
  case sent =>
    intro target hdepth
    rw [← hjson] at hdepth ⊢
    rw [Value.depth_toJson] at hdepth
    have hsendable : (Command.store target v.asList).Sendable :=
      (Command.sendable_iff_of_operands rfl).mpr ⟨hfree, hdepth⟩
    exact ⟨asksToStore_storing target _, hsendable.text⟩

/-- A set that is copied from the only key of a full store to another key, which takes its place. -/
theorem copies_get_store_full :
    ∃ s, Served s ∧ s.find? "k" = some (.set [.text "+007", .list []]) ∧
      s.length = s.capacity ∧ s.contains "d" = false ∧
      ∃ text c again last, Command.read text = .ok c ∧
        (s.execute (.get "k")).2.executeAll [c, .get "d"] = ([.ok .ok, .ok again], last) ∧
        (s.execute (.get "k")).1.map Reply.toJson = .ok again.toJson ∧
        last.find? "d" = some (.list [.text "+007", .list []]) := by
  have hnumeral : (Value.text "+007").SetFree := trivial
  have hempty : (Value.list []).SetFree := trivial
  have hfirst : (Command.addMember "k" (.text "+007")).Sendable :=
    (Command.sendable_iff_of_operands rfl).mpr ⟨hnumeral, by decide⟩
  have hsecond : (Command.addMember "k" (.list [])).Sendable :=
    (Command.sendable_iff_of_operands rfl).mpr ⟨hempty, by decide⟩
  have hserved := served_executeAll (Nat.le_refl 1) ⟨fun _ => 0, 0⟩
    [.addMember "k" (.text "+007"), .addMember "k" (.list [])] (by simp [hfirst, hsecond])
  obtain ⟨first, j, hreply, hjson, hcopied, hsent⟩ :=
    @copies_get_store _ hserved "k" (.set [.text "+007", .list []]) (by decide)
  obtain rfl : first = .value (.set [.text "+007", .list []]) := Except.ok.inj hreply.symm
  obtain rfl : (Value.set [.text "+007", .list []]).toJson = j := valueReply_injective hjson
  obtain ⟨hasks, htext⟩ := hsent "d" (by decide)
  obtain ⟨c, hread, hrun⟩ := hcopied "d" _ _ hasks htext
  obtain ⟨again, last, hreplies, hsame, hlast⟩ := hrun _
  exact ⟨_, hserved, by decide, by decide, by decide, _, c, again, last, hread, hreplies,
    congrArg Except.ok hsame.symm, hlast⟩

end Store

end BoundedStore
