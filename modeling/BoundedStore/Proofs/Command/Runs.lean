import BoundedStore.Proofs.Command.Replies
import BoundedStore.Proofs.Command.Texts
import BoundedStore.Proofs.Store.Validity

/-!
# Runs of commands

A command does to the store what one operation does (`snd_execute`): the operation of its name,
except that a `store` on a live key is a `replace`. So a run of commands is a run of operations, and
what operations keep commands keep as well.

`Served` stores are those at the end of some run of commands that were read from texts. There is no
set in such a command.
-/

namespace BoundedStore

namespace Store

/-! ## Commands as operations -/

/-- The operation that a command comes down to, in the store as it is. -/
def operationOf (s : Store) : Command → Operation
  | .store key value =>
    if s.contains key then .command (.replace key value) else .command (.store key value)
  | c => .command c

theorem snd_execute (s : Store) (c : Command) :
    (s.execute c).2 = ((s.operationOf c).perform s).2 := by
  cases c with
  | store key value =>
    have hstored : (s.execute (.store key value)).2 = s.write key value.coerce :=
      congrArg Prod.snd (s.storeOrReplace_succ key value 2)
    rw [hstored, operationOf]
    cases hfind : s.find? key with
    | none =>
      have habsent := (find?_eq_none_iff s key).mp hfind
      have hmap : s.map.contains key = false := habsent
      simp [habsent, hmap, Operation.perform, perform, create]
    | some found =>
      simp [contains_of_find? hfind, Operation.perform, perform, replace, hfind]
  | _ => rfl

theorem valid_execute {s : Store} (h : s.map.Valid) (c : Command) : (s.execute c).2.map.Valid := by
  rw [snd_execute]
  exact Operation.valid_perform h _

theorem executeAll_cons (s : Store) (c : Command) (rest : List Command) :
    s.executeAll (c :: rest) =
      ((s.execute c).1 :: ((s.execute c).2.executeAll rest).1,
        ((s.execute c).2.executeAll rest).2) := rfl

/-- What the commands of a run keep holds at its end. -/
theorem executeAll_induction {P : Store → Prop} {commands : List Command}
    (hstep : ∀ s, ∀ c ∈ commands, P s → P (s.execute c).2) {s : Store} (h : P s) :
    P (s.executeAll commands).2 := by
  induction commands generalizing s with
  | nil => exact h
  | cons c rest ih =>
    rw [executeAll_cons]
    exact ih (fun s c hmem => hstep s c (List.mem_cons_of_mem _ hmem))
      (hstep s c List.mem_cons_self h)

/-! ## Commands that clients send -/

/-- The stores that clients can bring about: a new store after any commands, each of them read from
a text. -/
def Served (s : Store) : Prop :=
  ∃ capacity choices start texts commands,
    Store.new capacity choices = .ok start ∧
    List.Forall₂ (fun text c => Command.read text = .ok c) texts commands ∧
    (start.executeAll commands).2 = s

end Store

theorem Command.setFree_of_read {text : String} {c : Command} (h : read text = .ok c) :
    c.SetFree := by
  obtain ⟨j, htext⟩ := text_of_read h
  exact ((read_eq_ok_of_text htext).mp h).1

namespace Store

/-- What holds of a new store, and is kept by every command that can be read, holds of every store
that clients bring about. The map is valid throughout. -/
theorem Served.of_invariant {P : Store → Prop}
    (hnew : ∀ capacity choices s, Store.new capacity choices = .ok s → P s)
    (hstep : ∀ s c, s.map.Valid → c.SetFree → P s → P (s.execute c).2) {s : Store}
    (h : s.Served) : P s := by
  obtain ⟨capacity, choices, start, texts, commands, hstart, hread, rfl⟩ := h
  have hfree : ∀ c ∈ commands, c.SetFree := by
    induction hread with
    | nil => exact List.forall_mem_nil _
    | cons hfirst _ ih => exact List.forall_mem_cons.mpr ⟨Command.setFree_of_read hfirst, ih⟩
  have hboth : ∀ s, ∀ c ∈ commands, s.map.Valid ∧ P s →
      (s.execute c).2.map.Valid ∧ P (s.execute c).2 := fun s c hmem ⟨hvalid, hP⟩ =>
    ⟨valid_execute hvalid c, hstep s c hvalid (hfree c hmem) hP⟩
  exact (executeAll_induction hboth ⟨valid_of_new hstart, hnew capacity choices start hstart⟩).2

end Store

end BoundedStore
