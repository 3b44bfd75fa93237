import BoundedStore.Proofs.Json.Printer
import BoundedStore.Proofs.Value.Json

/-!
# What becomes of a value that is written and read

JSON has arrays for lists and sets alike, so a text cannot say that a value is a set. What is read
from the text of a value is therefore the value with a list in place of each set, `Value.listed`,
and this is all that gets lost (`read_render`). Lists and sets inside one another count towards the
limit of depth of the reader, as many as `Value.depth` says.
-/

namespace BoundedStore

open Json (InRange maxDepth)

namespace Value

mutual

/-- How many lists and sets stand inside one another. -/
def depth : Value → Nat
  | integer _ => 0
  | text _ => 0
  | list items => depthOfItems items + 1
  | set members => depthOfItems members + 1

def depthOfItems : List Value → Nat
  | [] => 0
  | x :: rest => max x.depth (depthOfItems rest)

end

mutual

/-- The value with a list in place of every set, of the members in their order. -/
def listed : Value → Value
  | integer n => integer n
  | text s => text s
  | list items => list (listedItems items)
  | set members => list (listedItems members)

def listedItems : List Value → List Value
  | [] => []
  | x :: rest => x.listed :: listedItems rest

end

/-! ## The JSON of a value -/

mutual

theorem depth_toJson : (v : Value) → v.toJson.depth = v.depth
  | integer _ => rfl
  | text _ => rfl
  | list items => congrArg (· + 1) (depthOfItems_toJsonItems items)
  | set members => congrArg (· + 1) (depthOfItems_toJsonItems members)

theorem depthOfItems_toJsonItems : (items : List Value) →
    Json.depthOfItems (toJsonItems items) = depthOfItems items
  | [] => rfl
  | x :: rest => congrArg₂ max (depth_toJson x) (depthOfItems_toJsonItems rest)

end

theorem readable_toJson (v : Value) : v.toJson.Readable := by
  have hitems : ∀ items : List Value, (∀ x ∈ items, x.toJson.Readable) →
      (Json.array (toJsonItems items)).Readable := fun items ih => by
    rw [toJsonItems_eq_map]
    exact .array (List.forall_mem_map.mpr ih)
  induction v using nested_induction with
  | integer n => exact Json.readable_word n
  | text s => exact .text s
  | list items ih => exact hitems items ih
  | set members ih => exact hitems members ih

/-! ## Lists in place of sets -/

mutual

theorem toJson_listed : (v : Value) → v.listed.toJson = v.toJson
  | integer _ => rfl
  | text _ => rfl
  | list items => congrArg Json.array (toJsonItems_listedItems items)
  | set members => congrArg Json.array (toJsonItems_listedItems members)

theorem toJsonItems_listedItems : (items : List Value) →
    toJsonItems (listedItems items) = toJsonItems items
  | [] => rfl
  | x :: rest => congrArg₂ List.cons (toJson_listed x) (toJsonItems_listedItems rest)

end

mutual

theorem setFree_listed : (v : Value) → v.listed.SetFree
  | integer _ => trivial
  | text _ => trivial
  | list items => setFreeItems_listedItems items
  | set members => setFreeItems_listedItems members

theorem setFreeItems_listedItems : (items : List Value) → SetFreeItems (listedItems items)
  | [] => trivial
  | x :: rest => ⟨setFree_listed x, setFreeItems_listedItems rest⟩

end

theorem listedItems_eq_map (items : List Value) : listedItems items = items.map listed := by
  induction items with
  | nil => rfl
  | cons x rest ih => simp [listedItems, ih]

theorem listed_of_setFree {v : Value} (h : v.SetFree) : v.listed = v := by
  induction v using nested_induction with
  | integer | text => rfl
  | list items ih =>
    have hitems := (setFree_list_iff items).mp h
    rw [listed, listedItems_eq_map, List.map_congr_left fun x hx => ih x hx (hitems x hx),
      List.map_id']
  | set members => cases h

theorem listed_eq_self_iff (v : Value) : v.listed = v ↔ v.SetFree :=
  ⟨fun h => h ▸ v.setFree_listed, listed_of_setFree⟩

/-- The JSON of any value is read as the value with lists in place of its sets. -/
theorem ofJson?_toJson_eq_listed (v : Value) : ofJson? v.toJson = some v.listed := by
  rw [← toJson_listed]
  exact ofJson?_toJson v.setFree_listed

/-! ## Texts -/

theorem read_of_text {s : String} {j : Json} (h : Json.Text InRange s j) :
    read s = (ofJson? j).elim (.error .misshapen) .ok := by
  obtain ⟨rest, hrest, hread⟩ := Json.text_iff.mp h
  have hblank : rest.all Json.isBlank = true := List.all_eq_true.mpr hrest
  cases hvalue : ofJson? j with
  | none => simp only [read, hread, hvalue, Option.elim]
  | some v => simp only [read, hread, hvalue, if_pos hblank, Option.elim]

theorem text_render {v : Value} (h : v.depth ≤ maxDepth) : Json.Text InRange v.render v.toJson :=
  Json.text_render v.readable_toJson (v.depth_toJson ▸ h)

theorem toJson_injective_of_setFree {v w : Value} (hv : v.SetFree) (hw : w.SetFree)
    (h : v.toJson = w.toJson) : v = w := by
  have hread := ofJson?_toJson hv
  rw [h, ofJson?_toJson hw] at hread
  exact (Option.some.inj hread).symm

/-- **A value that is written and read is itself, but for its sets.** The text of a value is read as
the value with lists in place of its sets, as long as no more than 127 lists and sets stand inside
one another. So the values that come back as they were are those without sets, and of these no two
have the same text, however deep they are. -/
theorem read_render :
    (∀ v : Value, v.depth ≤ maxDepth → read v.render = .ok v.listed) ∧
    (∀ v : Value, v.depth ≤ maxDepth → (read v.render = .ok v ↔ v.SetFree)) ∧
    ∀ v w : Value, v.SetFree → w.SetFree → v.render = w.render → v = w := by
  have hread : ∀ v : Value, v.depth ≤ maxDepth → read v.render = .ok v.listed := fun v hdepth => by
    rw [read_of_text (text_render hdepth), ofJson?_toJson_eq_listed]
    rfl
  refine ⟨hread, fun v hdepth => ?back, fun v w hv hw h => ?injective⟩
  case back =>
    rw [hread v hdepth, Except.ok.injEq]
    exact v.listed_eq_self_iff
  case injective =>
    have hwritten : v.toJson.write = w.toJson.write := String.ofList_injective h
    exact toJson_injective_of_setFree hv hw
      (Json.write_injective v.readable_toJson w.readable_toJson hwritten)

/-- A set of a text that needs every kind of escape and a list, in which there is another set. -/
theorem read_render_nested_sets :
    (set [text "\"\\/\x08\n\x01\x7f😀", list [integer Int64.minValue, set []]]).depth ≤ maxDepth ∧
      read (set [text "\"\\/\x08\n\x01\x7f😀", list [integer Int64.minValue, set []]]).render =
        .ok (list [text "\"\\/\x08\n\x01\x7f😀", list [integer Int64.minValue, list []]]) := by
  have hdepth : (set [text "\"\\/\x08\n\x01\x7f😀",
      list [integer Int64.minValue, set []]]).depth ≤ maxDepth := by decide
  exact ⟨hdepth, read_render.1 _ hdepth⟩

end Value

end BoundedStore
