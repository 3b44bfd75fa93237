import BoundedStore.Command.Printer
import BoundedStore.Command.Reader
import BoundedStore.Proofs.Json.Members
import BoundedStore.Proofs.Json.Reader
import BoundedStore.Proofs.Value.Json

/-!
# Which texts ask for which command

`Command.AskedBy` is the grammar of commands on trees, in terms of how a command is written: an
object with its name and its operands once each, among other members and in any order, or the array
of these. `FollowsGrammar` puts it together with the grammar of JSON, and says what a client can
rely on: which texts are read as which command, and that the order of the members, other members,
and the choice of the form make no difference.

What a reader of one operand takes from the members is the JSON of that operand
(`takenFrom_iff`); it needs that the members were spelled, since a number can be an integer in no
other spelling than its shortest. With that the reader of commands comes down to the table of names
and operands (`ofMembers?_eq_some_iff`).
-/

namespace BoundedStore

/-! ## The grammar of commands -/

/-- No set in a value. -/
def Operand.SetFree : Operand → Prop
  | value v => v.SetFree
  | text _ | integer _ | texts _ => True

namespace Command

/-- No set among the operands: in JSON a set could not be told from a list. -/
def SetFree (c : Command) : Prop :=
  ∀ operand ∈ c.operands, operand.2.SetFree

/-- A tree that asks for a command, in one of two forms. -/
inductive AskedBy (c : Command) : Json → Prop
  /-- An object with the name and each operand once; its other members do not matter. -/
  | object {members : List (String × Json)} : Json.Once nameMember (.text c.name) members →
    (∀ operand ∈ c.operands, Json.Once operand.1 operand.2.toJson members) →
    AskedBy c (.object members)
  /-- An array of the name and the operands, and nothing else. -/
  | array : AskedBy c (.array (.text c.name :: c.operands.map fun operand => operand.2.toJson))

/-- The names of the members that a command looks at. -/
def knows (c : Command) (name : String) : Bool :=
  name = nameMember || c.operands.any fun operand => operand.1 = name

end Command

/-! ## Operands -/

/-- The operand is what is read from the member of its name. -/
def Operand.TakenFrom (members : List (String × Json)) (name : String) : Operand → Prop
  | text s => (Json.only? name members).bind Json.text? = some s
  | integer n => (Json.only? name members).bind Json.word? = some n
  | value v => (Json.only? name members).bind Value.ofJson? = some v
  | texts ss => (Json.only? name members).bind Json.texts? = some ss

namespace Json

theorem text?_eq_some_iff {j : Json} {s : String} : j.text? = some s ↔ j = .text s := by
  cases j <;> simp [text?]

theorem word?_eq_some_iff {j : Json} (hj : j.Spelled) {n : Int64} :
    j.word? = some n ↔ j = .integer n.toInt := by
  cases j with
  | number d => simpa [word?, integer] using Decimal.word?_eq_some_iff hj.whole
  | null | bool | text | array | object => simp [word?, integer]

theorem texts?_eq_some_iff {j : Json} {ss : List String} :
    j.texts? = some ss ↔ j = .array (ss.map .text) := by
  cases j with
  | array items =>
    simp only [texts?, array.injEq]
    induction items generalizing ss with
    | nil => cases ss <;> simp
    | cons item rest ih =>
      rw [List.mapM_cons]
      cases ss with
      | nil => simp [Option.bind_eq_some_iff]
      | cons s ss => simp [Option.bind_eq_some_iff, text?_eq_some_iff, ih]
  | null | bool | number | text | object => simp [texts?]

end Json

/-- The member of a name is read as something exactly when it is the one thing read as that. -/
theorem bind_only?_eq_some_iff {α : Type} {read : Json → Option α} {a : α} {name : String}
    {k : Json} {members : List (String × Json)} {admitted : Prop}
    (hread : ∀ j, Json.only? name members = some j → (read j = some a ↔ admitted ∧ j = k)) :
    (Json.only? name members).bind read = some a ↔ admitted ∧ Json.Once name k members := by
  rw [Option.bind_eq_some_iff]
  constructor
  · rintro ⟨j, honly, ha⟩
    obtain ⟨hadmitted, rfl⟩ := (hread j honly).mp ha
    exact ⟨hadmitted, Json.only?_eq_some_iff.mp honly⟩
  · rintro ⟨hadmitted, honce⟩
    have honly := Json.only?_eq_some_iff.mpr honce
    exact ⟨k, honly, (hread k honly).mpr ⟨hadmitted, rfl⟩⟩

theorem Operand.takenFrom_iff {members : List (String × Json)}
    (hspelled : ∀ member ∈ members, member.2.Spelled) (name : String) (operand : Operand) :
    operand.TakenFrom members name ↔ operand.SetFree ∧ Json.Once name operand.toJson members := by
  have hmember : ∀ j, Json.only? name members = some j → j.Spelled := fun j hj =>
    hspelled (name, j) (Json.only?_eq_some_iff.mp hj).mem
  cases operand with
  | text s =>
    exact bind_only?_eq_some_iff fun j _ =>
      Json.text?_eq_some_iff.trans (iff_of_eq (true_and _).symm)
  | integer n =>
    exact bind_only?_eq_some_iff fun j hj =>
      (Json.word?_eq_some_iff (hmember j hj)).trans (iff_of_eq (true_and _).symm)
  | value v => exact bind_only?_eq_some_iff fun j hj => Value.ofJson?_eq_some_iff (hmember j hj)
  | texts ss =>
    exact bind_only?_eq_some_iff fun j _ =>
      Json.texts?_eq_some_iff.trans (iff_of_eq (true_and _).symm)

/-! ## The table of names and operands -/

namespace Command

theorem operandNames?_name (c : Command) :
    operandNames? c.name = some (c.operands.map Prod.fst) := by
  cases c with
  | push side | pop side => cases side <;> rfl
  | combine algebra | combineInto algebra => cases algebra <;> rfl
  | _ => rfl

/-- The operands of a command have different names, and none of them is that of the name. -/
theorem nodup_memberNames (c : Command) : (nameMember :: c.operands.map Prod.fst).Nodup := by
  cases c <;> simp [operands, nameMember]

theorem takenFrom_of_ofMembers? {name : String} {members : List (String × Json)} {c : Command}
    (h : ofMembers? name members = some c) :
    c.name = name ∧ ∀ operand ∈ c.operands, operand.2.TakenFrom members operand.1 := by
  unfold ofMembers? at h
  split at h
  all_goals simp only [Option.bind_eq_bind, Option.bind_eq_some_iff, Option.pure_def,
    Option.some.injEq, reduceCtorEq] at h
  -- one case a name, and they differ in the number of operands only
  all_goals first
    | obtain ⟨_, hfirst, rfl⟩ := h
      exact ⟨rfl, by simpa [operands, Operand.TakenFrom, Option.bind_eq_some_iff] using hfirst⟩
    | obtain ⟨_, hfirst, _, hsecond, rfl⟩ := h
      exact ⟨rfl, by simpa [operands, Operand.TakenFrom, Option.bind_eq_some_iff] using
        ⟨hfirst, hsecond⟩⟩
    | obtain ⟨_, hfirst, _, hsecond, _, hthird, rfl⟩ := h
      exact ⟨rfl, by simpa [operands, Operand.TakenFrom, Option.bind_eq_some_iff] using
        ⟨hfirst, hsecond, hthird⟩⟩

theorem ofMembers?_of_takenFrom {members : List (String × Json)} {c : Command}
    (h : ∀ operand ∈ c.operands, operand.2.TakenFrom members operand.1) :
    ofMembers? c.name members = some c := by
  cases c with
  | push side | pop side =>
    simp only [operands, List.mem_cons, forall_eq_or_imp, Operand.TakenFrom] at h
    cases side <;> simp [ofMembers?, name, h]
  | combine algebra | combineInto algebra =>
    simp only [operands, List.mem_cons, forall_eq_or_imp, Operand.TakenFrom] at h
    cases algebra <;> simp [ofMembers?, name, h]
  | _ =>
    simp only [operands, List.mem_cons, forall_eq_or_imp, Operand.TakenFrom] at h
    simp [ofMembers?, name, h]

/-- Of all commands the one is read that has this name, and whose operands are found among the
members. -/
theorem ofMembers?_eq_some_iff {name : String} {members : List (String × Json)} {c : Command} :
    ofMembers? name members = some c ↔
      c.name = name ∧ ∀ operand ∈ c.operands, operand.2.TakenFrom members operand.1 := by
  refine ⟨takenFrom_of_ofMembers?, ?_⟩
  rintro ⟨rfl, hoperands⟩
  exact ofMembers?_of_takenFrom hoperands

/-! ## The two forms -/

section Forms

variable {c : Command} {name : String} {members : List (String × Json)}

theorem ofMembers?_iff_once (hspelled : ∀ member ∈ members, member.2.Spelled) :
    ofMembers? name members = some c ↔ c.name = name ∧ c.SetFree ∧
      ∀ operand ∈ c.operands, Json.Once operand.1 operand.2.toJson members := by
  rw [ofMembers?_eq_some_iff]
  refine and_congr_right fun _ => ?_
  simp only [Operand.takenFrom_iff hspelled, SetFree, forall_and]

/-- Names beside what they stand for: what stands beside the name of each operand is its JSON
exactly when this is the list of all of these. -/
theorem once_zip_iff (c : Command) {js : List Json} (hlength : c.operands.length = js.length) :
    (∀ operand ∈ c.operands,
      Json.Once operand.1 operand.2.toJson ((c.operands.map Prod.fst).zip js)) ↔
      js = c.operands.map fun operand => operand.2.toJson := by
  constructor
  · intro honce
    refine List.ext_getElem (by simp [hlength]) fun i hi hi' => ?_
    have hi'' : i < c.operands.length := hlength ▸ hi
    have hzip : i < ((c.operands.map Prod.fst).zip js).length := by
      rw [List.length_zip, List.length_map]
      exact Nat.lt_min.mpr ⟨hi'', hi⟩
    have hmem : (c.operands[i].1, js[i]) ∈ (c.operands.map Prod.fst).zip js := by
      simpa using List.getElem_mem hzip
    rw [List.getElem_map]
    exact (honce _ (List.getElem_mem hi'')).eq_of_mem hmem
  · rintro rfl operand hoperand
    have hzip : (c.operands.map Prod.fst).zip (c.operands.map fun operand => operand.2.toJson) =
        c.operands.map fun operand => (operand.1, operand.2.toJson) := by
      rw [List.zip_map']
    rw [hzip]
    -- the names of the operands differ, so each stands there once
    refine Json.once_of_nodup ?_ (List.mem_map.mpr ⟨operand, hoperand, rfl⟩)
    have hnodup := (List.nodup_cons.mp c.nodup_memberNames).2
    simpa [Function.comp_def] using hnodup

theorem ofJson?_object_iff (hspelled : ∀ member ∈ members, member.2.Spelled) :
    ofJson? (.object members) = some c ↔ c.SetFree ∧ c.AskedBy (.object members) := by
  have hname : ∀ name : String, (Json.only? nameMember members).bind Json.text? = some name ↔
      True ∧ Json.Once nameMember (.text name) members := fun name =>
    Operand.takenFrom_iff hspelled nameMember (.text name)
  rw [ofJson?, Option.bind_eq_some_iff]
  constructor
  · rintro ⟨name, htext, hmembers⟩
    obtain ⟨rfl, hfree, hoperands⟩ := (ofMembers?_iff_once hspelled).mp hmembers
    exact ⟨hfree, .object ((hname _).mp htext).2 hoperands⟩
  · rintro ⟨hfree, hasked⟩
    obtain ⟨hop, hoperands⟩ := hasked
    exact ⟨c.name, (hname _).mpr ⟨trivial, hop⟩,
      (ofMembers?_iff_once hspelled).mpr ⟨rfl, hfree, hoperands⟩⟩

theorem ofJson?_array_iff {js : List Json} (hspelled : ∀ j ∈ js, j.Spelled) :
    ofJson? (.array (.text name :: js)) = some c ↔
      c.SetFree ∧ c.AskedBy (.array (.text name :: js)) := by
  have hmembers : ∀ names : List String, ∀ member ∈ names.zip js, member.2.Spelled :=
    fun names member hmember => hspelled member.2 (List.of_mem_zip hmember).2
  rw [ofJson?, Option.bind_eq_some_iff]
  constructor
  · rintro ⟨names, hnames, hread⟩
    split at hread
    next hlength =>
      obtain ⟨rfl, hfree, hoperands⟩ := (ofMembers?_iff_once (hmembers names)).mp hread
      obtain rfl : names = c.operands.map Prod.fst :=
        Option.some.inj (hnames.symm.trans c.operandNames?_name)
      rw [List.length_map] at hlength
      obtain rfl := (once_zip_iff c hlength).mp hoperands
      exact ⟨hfree, .array⟩
    next => cases hread
  · rintro ⟨hfree, hasked⟩
    obtain ⟨rfl, rfl⟩ : c.name = name ∧ js = c.operands.map fun operand => operand.2.toJson := by
      generalize hj : Json.array (.text name :: js) = j at hasked
      cases hasked with
      | object => cases hj
      | array =>
        obtain ⟨htext, hjs⟩ := List.cons.inj (Json.array.inj hj)
        exact ⟨(Json.text.inj htext).symm, hjs⟩
    refine ⟨_, c.operandNames?_name, ?_⟩
    rw [if_pos (by simp), ofMembers?_iff_once (hmembers _)]
    exact ⟨rfl, hfree, (once_zip_iff c (by simp)).mpr rfl⟩

/-- A tree is read as the command that it asks for. -/
theorem ofJson?_eq_some_iff {j : Json} (hj : j.Spelled) :
    ofJson? j = some c ↔ c.SetFree ∧ c.AskedBy j := by
  have hnot : ∀ {k : Json}, ofJson? k = none → ¬ c.AskedBy k → (ofJson? k = some c ↔
      c.SetFree ∧ c.AskedBy k) := fun hnone hasked =>
    iff_of_false (by simp [hnone]) fun h => hasked h.2
  cases j with
  | object members => exact ofJson?_object_iff hj.member
  | array items =>
    cases items with
    | nil => exact hnot rfl nofun
    | cons first js =>
      cases first with
      | text name => exact ofJson?_array_iff fun j hmem => hj.item j (List.mem_cons_of_mem _ hmem)
      | null | bool | number | array | object => exact hnot rfl nofun
  | null | bool | number | text => exact hnot rfl nofun

end Forms

end Command

end BoundedStore
