import BoundedStore.Store.Sets

/-!
# The kinds of what keys hold

An operation on a list or a set finds its key absent, holding its own kind, or holding another one.
Operations that tell a wrong kind apart settle in one of two ways, and `Settles` says in which: with
their result, or with a refusal of the wrong type. Everything that is looked up as a list or as a
set settles, one key (`settles_itemsAt`, `settles_membersAt`) or several (`settles_setsAt`).

All of these lookups go by the value at the key, so two stores that have the same one there do not
differ in them.
-/

namespace BoundedStore

/-! ## What a key holds -/

namespace Store

/-- Whether a key is live and its value is of `kind`. -/
def holds (s : Store) (kind : Kind) (key : String) : Bool :=
  (s.find? key).any fun value => value.kind == kind

/-- Whether a key is live and its value is of another kind than `kind`. -/
def holdsOther (s : Store) (kind : Kind) (key : String) : Bool :=
  (s.find? key).any fun value => value.kind != kind

/-- The list at a key, `none` where there is no list. -/
def list? (s : Store) (key : String) : Option (List Value) :=
  match s.find? key with
  | some (.list items) => some items
  | _ => none

/-- The set at a key, `none` where there is no set. -/
def set? (s : Store) (key : String) : Option Members :=
  match s.find? key with
  | some (.set members) => some members
  | _ => none

/-- The items of the list at a key; none where there is no list. -/
def listItems (s : Store) (key : String) : List Value :=
  (s.list? key).getD []

/-- The members of the set at a key; none where there is no set. -/
def setMembers (s : Store) (key : String) : Members :=
  (s.set? key).getD []

theorem holds_list_eq_isSome (s : Store) (key : String) :
    s.holds .list key = (s.list? key).isSome := by
  unfold holds list?
  cases s.find? key with
  | none => rfl
  | some value => cases value <;> rfl

theorem find?_of_set? {s : Store} {key : String} {members : Members}
    (h : s.set? key = some members) : s.find? key = some (.set members) := by
  unfold set? at h
  split at h
  next found hfind =>
    obtain rfl := Option.some.inj h
    exact hfind
  next => cases h

/-- Whether a key can take part in set algebra: it is absent, or it holds a set. -/
def admitsSet (s : Store) (key : String) : Bool :=
  match s.find? key with
  | some value => value.kind == .set
  | none => true

theorem admitsSet_eq (s : Store) (key : String) : s.admitsSet key = !s.holdsOther .set key := by
  unfold admitsSet holdsOther
  cases s.find? key with
  | none => rfl
  | some value => cases value <;> rfl

end Store

/-! ## Results that tell a wrong kind apart -/

/-- A result that is `good`, or where the kind is wrong a refusal for that. -/
structure Settles {α : Type} (result : Except StoreError α) (wrong : Prop) (good : α) : Prop where
  ok : ¬ wrong → result = .ok good
  refused : wrong → ∃ detail, result = .error (.wrongType detail)

namespace Settles

variable {α β : Type} {result : Except StoreError α} {wrong : Prop} {good : α}

theorem ok_iff (h : Settles result wrong good) : (∃ a, result = .ok a) ↔ ¬ wrong := by
  constructor
  · rintro ⟨a, hok⟩ hwrong
    obtain ⟨detail, hrefused⟩ := h.refused hwrong
    cases hok.symm.trans hrefused
  · intro hright
    exact ⟨good, h.ok hright⟩

theorem eq_ok_iff (h : Settles result wrong good) {a : α} :
    result = .ok a ↔ ¬ wrong ∧ a = good := by
  constructor
  · intro hok
    have hright := h.ok_iff.mp ⟨a, hok⟩
    exact ⟨hright, Except.ok.inj (hok.symm.trans (h.ok hright))⟩
  · rintro ⟨hright, rfl⟩
    exact h.ok hright

theorem map (h : Settles result wrong good) (f : α → β) :
    Settles (result.map f) wrong (f good) where
  ok hright := by rw [h.ok hright]; rfl
  refused hwrong := by
    obtain ⟨detail, hrefused⟩ := h.refused hwrong
    exact ⟨detail, by rw [hrefused]; rfl⟩

end Settles

/-! ## Lists and sets that are looked up -/

namespace Store

variable (s : Store) (key : String)

theorem settles_itemsAt :
    Settles (s.itemsAt key) (s.holdsOther .list key = true) (s.list? key) := by
  unfold itemsAt holdsOther list?
  cases s.find? key with
  | none => exact ⟨fun _ => rfl, fun h => absurd h (by simp)⟩
  | some value =>
    cases value with
    | list items => exact ⟨fun _ => rfl, fun h => absurd h (by simp [Value.kind])⟩
    | integer | text | set => exact ⟨fun h => absurd rfl h, fun _ => ⟨_, rfl⟩⟩

theorem settles_membersAt :
    Settles (s.membersAt key) (s.holdsOther .set key = true) (s.set? key) := by
  unfold membersAt holdsOther set?
  cases s.find? key with
  | none => exact ⟨fun _ => rfl, fun h => absurd h (by simp)⟩
  | some value =>
    cases value with
    | set members => exact ⟨fun _ => rfl, fun h => absurd h (by simp [Value.kind])⟩
    | integer | text | list => exact ⟨fun h => absurd rfl h, fun _ => ⟨_, rfl⟩⟩

/-- The sets at several keys are refused when one of the keys holds something else. -/
theorem settles_setsAt (keys : List String) :
    Settles (s.setsAt keys) (∃ key ∈ keys, s.holdsOther .set key = true) (keys.map s.set?) := by
  unfold setsAt
  induction keys with
  | nil => exact ⟨fun _ => rfl, fun h => absurd h (by simp)⟩
  | cons first rest ih =>
    rw [List.mapM_cons]
    have hfirst := s.settles_membersAt first
    by_cases hother : s.holdsOther .set first = true
    · obtain ⟨detail, hrefused⟩ := hfirst.refused hother
      exact ⟨fun h => absurd ⟨first, List.mem_cons_self, hother⟩ h,
        fun _ => ⟨detail, by rw [hrefused]; rfl⟩⟩
    · rw [hfirst.ok hother]
      constructor
      · intro hright
        have hrest : ¬ ∃ key ∈ rest, s.holdsOther .set key = true := by
          rintro ⟨key, hmem, hkey⟩
          exact hright ⟨key, List.mem_cons_of_mem first hmem, hkey⟩
        rw [ih.ok hrest]
        rfl
      · rintro ⟨key, hmem, hkey⟩
        have hin : key ∈ rest := (List.mem_cons.mp hmem).resolve_left fun e => hother (e ▸ hkey)
        obtain ⟨detail, hrefused⟩ := ih.refused ⟨key, hin, hkey⟩
        exact ⟨detail, by rw [hrefused]; rfl⟩

theorem membersAt_eq_ok_iff :
    (∃ members, s.membersAt key = .ok members) ↔ s.admitsSet key = true := by
  rw [(s.settles_membersAt key).ok_iff, admitsSet_eq, Bool.not_eq_true', Bool.not_eq_true]

theorem setsAt_eq_ok_iff (keys : List String) :
    (∃ sets, s.setsAt keys = .ok sets) ↔ keys.all s.admitsSet = true := by
  rw [(s.settles_setsAt keys).ok_iff, List.all_eq_true]
  simp [admitsSet_eq]

/-! ## Lookups go by the value at the key -/

section Lookup

variable {s t : Store} {key : String}

theorem set?_congr (h : s.find? key = t.find? key) : s.set? key = t.set? key := by
  unfold set?
  rw [h]

theorem setMembers_congr (h : s.find? key = t.find? key) : s.setMembers key = t.setMembers key := by
  unfold setMembers
  rw [set?_congr h]

theorem list?_congr (h : s.find? key = t.find? key) : s.list? key = t.list? key := by
  unfold list?
  rw [h]

theorem listItems_congr (h : s.find? key = t.find? key) : s.listItems key = t.listItems key := by
  unfold listItems
  rw [list?_congr h]

theorem itemsAt_congr (h : s.find? key = t.find? key) : s.itemsAt key = t.itemsAt key := by
  unfold itemsAt
  rw [h]

theorem membersAt_congr (h : s.find? key = t.find? key) : s.membersAt key = t.membersAt key := by
  unfold membersAt
  rw [h]

theorem holds_congr (h : s.find? key = t.find? key) (kind : Kind) :
    s.holds kind key = t.holds kind key := by
  unfold holds
  rw [h]

theorem holdsOther_congr (h : s.find? key = t.find? key) (kind : Kind) :
    s.holdsOther kind key = t.holdsOther kind key := by
  unfold holdsOther
  rw [h]

theorem admitsSet_congr (h : s.find? key = t.find? key) : s.admitsSet key = t.admitsSet key := by
  unfold admitsSet
  rw [h]

theorem setsAt_congr_of_membersAt {keys : List String}
    (h : ∀ key ∈ keys, s.membersAt key = t.membersAt key) : s.setsAt keys = t.setsAt keys := by
  unfold setsAt
  induction keys with
  | nil => rfl
  | cons key rest ih =>
    rw [List.mapM_cons, List.mapM_cons, h key List.mem_cons_self,
      ih fun other hmem => h other (List.mem_cons_of_mem key hmem)]

theorem setsAt_congr {keys : List String} (h : ∀ key ∈ keys, s.find? key = t.find? key) :
    s.setsAt keys = t.setsAt keys :=
  setsAt_congr_of_membersAt fun key hmem => membersAt_congr (h key hmem)

end Lookup

end Store

end BoundedStore
