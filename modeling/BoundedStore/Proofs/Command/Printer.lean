import BoundedStore.Proofs.Command.Texts
import BoundedStore.Proofs.Value.Texts

/-!
# Commands are read from how they are written

A command is written as an object that asks for it, and so it is read back, unless there is a set
in it or it goes too deep for the reader. Since it is one object around its operands, this is a
question of its operands (`Sendable`).
-/

namespace BoundedStore

open Json (Text InRange maxDepth)

theorem Operand.readable_toJson (operand : Operand) : operand.toJson.Readable := by
  cases operand with
  | text s => exact .text s
  | integer n => exact Json.readable_word n
  | value v => exact v.readable_toJson
  | texts ss => exact .array (List.forall_mem_map.mpr fun s _ => .text s)

/-- An operand that a command can be read with: without sets, and with room for the object of the
command around it. -/
def Operand.Sendable (operand : Operand) : Prop :=
  operand.SetFree ∧ operand.toJson.depth < maxDepth

namespace Operand

theorem sendable_text (s : String) : (text s).Sendable := ⟨trivial, Nat.zero_lt_succ _⟩

theorem sendable_value_iff (v : Value) : (value v).Sendable ↔ v.SetFree ∧ v.depth < maxDepth := by
  rw [Sendable, toJson, v.depth_toJson]
  rfl

end Operand

namespace Command

/-- A command whose operands can be sent. -/
def Sendable (c : Command) : Prop :=
  ∀ operand ∈ c.operands, operand.2.Sendable

/-- Of a key and a value only the value matters. -/
theorem sendable_iff_of_operands {c : Command} {keyName key valueName : String} {v : Value}
    (h : c.operands = [(keyName, .text key), (valueName, .value v)]) :
    c.Sendable ↔ v.SetFree ∧ v.depth < maxDepth := by
  rw [Sendable, h, List.forall_mem_cons, List.forall_mem_singleton, Operand.sendable_value_iff]
  exact and_iff_right (Operand.sendable_text key)

theorem readable_toJson (c : Command) : c.toJson.Readable := by
  refine .object (List.forall_mem_cons.mpr ⟨.text c.name, ?_⟩)
  exact List.forall_mem_map.mpr fun operand _ => operand.2.readable_toJson

theorem askedBy_toJson (c : Command) : c.AskedBy c.toJson := by
  obtain ⟨hop, hnodup⟩ := List.nodup_cons.mp c.nodup_memberNames
  have hnames : (c.operands.map fun operand => (operand.1, operand.2.toJson)).map Prod.fst =
      c.operands.map Prod.fst := by simp [Function.comp_def]
  refine .object (Json.once_cons_self fun member hmember hname => hop ?_) fun operand hmem => ?_
  · rw [← hname, ← hnames]
    exact List.mem_map_of_mem hmember
  · have hne : nameMember ≠ operand.1 := fun e => hop (e ▸ List.mem_map_of_mem hmem)
    rw [Json.once_cons_of_ne hne]
    exact Json.once_of_nodup (hnames ▸ hnodup) (List.mem_map_of_mem hmem)

/-- A command is one object around its operands. -/
theorem depth_toJson_le_iff {c : Command} {d : Nat} :
    c.toJson.depth ≤ d + 1 ↔ ∀ operand ∈ c.operands, operand.2.toJson.depth ≤ d := by
  rw [toJson, Json.depth, Nat.add_le_add_iff_right, Json.depthOfMembers_le_iff,
    List.forall_mem_cons, List.forall_mem_map]
  exact and_iff_right (Nat.zero_le d)

theorem Sendable.depth_le {c : Command} (h : c.Sendable) : c.toJson.depth ≤ maxDepth :=
  depth_toJson_le_iff.mpr fun operand hmem => Nat.le_of_lt_succ (h operand hmem).2

theorem Sendable.text {c : Command} (h : c.Sendable) : Text InRange c.toJson.render c.toJson :=
  Json.text_render c.readable_toJson h.depth_le

theorem Sendable.read {c : Command} (h : c.Sendable) : read c.toJson.render = .ok c :=
  (read_eq_ok_of_text h.text).mpr ⟨fun operand hmem => (h operand hmem).1, c.askedBy_toJson⟩

end Command

end BoundedStore
