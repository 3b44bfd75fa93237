import BoundedStore.Proofs.Json.Grammar
import BoundedStore.Proofs.Value.Same
import BoundedStore.Value.Json

/-!
# Values and their JSON

A value that has no set in it is read from its own JSON and from nothing else
(`ofJson?_eq_some_iff`). A set is not read back as a set, since its JSON is that of a list.
-/

namespace BoundedStore

namespace Value

/-! ## Values without sets -/

mutual

/-- No set, at any depth. -/
def SetFree : Value → Prop
  | integer _ => True
  | text _ => True
  | list items => SetFreeItems items
  | set _ => False

def SetFreeItems : List Value → Prop
  | [] => True
  | x :: rest => x.SetFree ∧ SetFreeItems rest

end

theorem setFree_list_iff (items : List Value) :
    (list items).SetFree ↔ ∀ x ∈ items, x.SetFree := by
  show SetFreeItems items ↔ _
  induction items with
  | nil => simp [SetFreeItems]
  | cons x rest ih => simp [SetFreeItems, ih]

theorem toJsonItems_eq_map (items : List Value) : toJsonItems items = items.map toJson := by
  induction items with
  | nil => rfl
  | cons x rest ih => simp [toJsonItems, ih]

theorem ofJsonItems?_eq_some_iff {js : List Json} {items : List Value} :
    ofJsonItems? js = some items ↔ List.Forall₂ (fun j x => ofJson? j = some x) js items := by
  induction js generalizing items with
  | nil => cases items <;> simp [ofJsonItems?]
  | cons j rest ih =>
    rw [ofJsonItems?]
    cases items with
    | nil => cases ofJson? j <;> cases ofJsonItems? rest <;> simp
    | cons x xs =>
      rw [List.forall₂_cons, ← ih]
      cases ofJson? j <;> cases ofJsonItems? rest <;> simp

theorem ofJson?_toJson {v : Value} (h : v.SetFree) : ofJson? v.toJson = some v := by
  induction v using nested_induction with
  | integer n =>
    have hword : (Decimal.ofInt n.toInt).word? = some n := Decimal.word?_ofInt n
    simp [toJson, Json.integer, ofJson?, hword]
  | text s => rfl
  | list items ih =>
    have hitems : ofJsonItems? (items.map toJson) = some items := by
      rw [ofJsonItems?_eq_some_iff, List.forall₂_map_left_iff, List.forall₂_same]
      exact fun x hx => ih x hx ((setFree_list_iff items).mp h x hx)
    simp [toJson, toJsonItems_eq_map, ofJson?, hitems]
  | set members => cases h

/-- If each item is written as it was read, so is the list of them. -/
theorem eq_map_toJson_of_items {js : List Json} {items : List Value}
    (h : List.Forall₂ (fun j x => ofJson? j = some x) js items) (hjs : ∀ j ∈ js, j.Spelled)
    (heach : ∀ x ∈ items, ∀ {j : Json}, j.Spelled → ofJson? j = some x →
      x.SetFree ∧ j = x.toJson) : (∀ x ∈ items, x.SetFree) ∧ js = items.map toJson := by
  induction h with
  | nil => exact ⟨nofun, rfl⟩
  | @cons j x js items hread _ ih =>
    obtain ⟨hfirst, rfl⟩ := heach x List.mem_cons_self (hjs j List.mem_cons_self) hread
    obtain ⟨hrest, rfl⟩ := ih (fun j hj => hjs j (List.mem_cons_of_mem _ hj))
      fun x hx => heach x (List.mem_cons_of_mem _ hx)
    exact ⟨List.forall_mem_cons.mpr ⟨hfirst, hrest⟩, rfl⟩

/-- What is read from a text as a value has no set, and is written as it was. -/
theorem eq_toJson_of_ofJson? {v : Value} {j : Json} (hj : j.Spelled) (h : ofJson? j = some v) :
    v.SetFree ∧ j = v.toJson := by
  induction v using nested_induction generalizing j with
  | integer n =>
    cases j with
    | number d =>
      obtain ⟨w, hword, hw⟩ := Option.map_eq_some_iff.mp h
      obtain rfl := integer.inj hw
      exact ⟨trivial, congrArg Json.number ((Decimal.word?_eq_some_iff hj.whole).mp hword)⟩
    | array => simp [ofJson?] at h
    | null | bool | text | object => cases h
  | text s =>
    cases j with
    | text t => exact ⟨trivial, congrArg Json.text (text.inj (Option.some.inj h))⟩
    | number | array => simp [ofJson?] at h
    | null | bool | object => cases h
  | list items ih =>
    cases j with
    | array js =>
      obtain ⟨read, hread, hlist⟩ := Option.map_eq_some_iff.mp h
      obtain rfl := list.inj hlist
      obtain ⟨hfree, rfl⟩ := eq_map_toJson_of_items (ofJsonItems?_eq_some_iff.mp hread) hj.item ih
      exact ⟨(setFree_list_iff read).mpr hfree, by rw [toJson, toJsonItems_eq_map]⟩
    | number => simp [ofJson?] at h
    | null | bool | text | object => cases h
  | set members => cases j <;> simp [ofJson?] at h

theorem ofJson?_eq_some_iff {v : Value} {j : Json} (hj : j.Spelled) :
    ofJson? j = some v ↔ v.SetFree ∧ j = v.toJson := by
  refine ⟨eq_toJson_of_ofJson? hj, ?_⟩
  rintro ⟨hfree, rfl⟩
  exact ofJson?_toJson hfree

end Value

end BoundedStore
