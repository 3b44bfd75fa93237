import BoundedStore.Recency
import BoundedStore.Proofs.Table
import Mathlib.Data.List.Perm.Basic

/-!
# The recency of keys is a list

A `Recency` keeps its keys twice, once by key and once by stamp, and a clock beside them. From
outside it is a list of keys without duplicates, the key used longest ago first:

* a use takes the key out of the list and puts it at the end (`keys_touch`);
* forgetting a key takes it out (`keys_remove`);
* eviction takes the head (`evictOldest_of_keys_eq_nil`, `evictOldest_of_keys_eq_cons`).

## The invariant

All of this rests on `Consistent`: the two tables are inverse to each other and every stamp is
behind the clock. A new stamp is then larger than all others, so the row that a use enters goes to
the end of the order, and the row that is withdrawn by the old stamp is the only row of the key. The
second point is `Consistent.withdraw_eq`: withdrawing by stamp and withdrawing by key are the same.
-/

namespace BoundedStore

namespace Recency

/-- The two tables describe one order, and the clock has not yet given out any stamp that is still
to come. -/
structure Consistent (r : Recency) : Prop where
  /-- Each key has one stamp. -/
  nodup_stamps : r.stamps.keys.Nodup
  /-- The order is ascending, so that no two keys share a stamp. -/
  ascending : r.order.Pairwise fun a b => a.1 < b.1
  /-- The tables are inverse to each other. -/
  inverse : ∀ key stamp, r.stamps.find? key = some stamp ↔ (stamp, key) ∈ r.order
  /-- The clock is ahead of every stamp. -/
  clock_ahead : ∀ row ∈ r.order, row.1 < r.clock

theorem Consistent.empty : Consistent Recency.empty where
  nodup_stamps := List.nodup_nil
  ascending := List.Pairwise.nil
  inverse := fun key stamp => by simp [Recency.empty, Table.find?]
  clock_ahead := fun row hrow => by simp [Recency.empty] at hrow

/-! ## Rows of a consistent order -/

theorem Consistent.find?_of_mem {r : Recency} (h : r.Consistent) {row : Nat × String}
    (hrow : row ∈ r.order) : r.stamps.find? row.2 = some row.1 :=
  (h.inverse row.2 row.1).mpr hrow

/-- Rows of one key are the same row, since a key has one stamp. -/
theorem Consistent.row_eq_of_key_eq {r : Recency} (h : r.Consistent) {a b : Nat × String}
    (ha : a ∈ r.order) (hb : b ∈ r.order) (hkey : a.2 = b.2) : a = b := by
  have hstamps : some a.1 = some b.1 := by
    rw [← h.find?_of_mem ha, ← h.find?_of_mem hb, hkey]
  exact Prod.ext (Option.some.inj hstamps) hkey

/-- Rows of one stamp are the same row, since the order is strictly ascending. -/
theorem Consistent.row_eq_of_stamp_eq {r : Recency} (h : r.Consistent) {a b : Nat × String}
    (ha : a ∈ r.order) (hb : b ∈ r.order) (hstamp : a.1 = b.1) : a = b := by
  -- stamps that go up strictly do not repeat
  have hstamps : (r.order.map Prod.fst).Nodup :=
    List.pairwise_map.mpr (h.ascending.imp fun hlt => Nat.ne_of_lt hlt)
  exact List.inj_on_of_nodup_map hstamps ha hb hstamp

theorem Consistent.nodup_keys {r : Recency} (h : r.Consistent) : r.keys.Nodup := by
  have hrows : r.order.Nodup := h.ascending.imp fun hlt heq => by
    rw [heq] at hlt
    exact Nat.lt_irrefl _ hlt
  exact hrows.map_on fun a ha b hb hkey => h.row_eq_of_key_eq ha hb hkey

theorem Consistent.mem_keys_iff {r : Recency} (h : r.Consistent) (key : String) :
    key ∈ r.keys ↔ key ∈ r.stamps.keys := by
  constructor
  · intro hmem
    obtain ⟨row, hrow, rfl⟩ := List.mem_map.mp hmem
    exact Table.mem_keys_of_find?_eq_some (h.find?_of_mem hrow)
  · intro hmem
    cases hfind : r.stamps.find? key with
    | none => exact absurd hmem ((Table.find?_eq_none_iff _ _).mp hfind)
    | some stamp => exact List.mem_map.mpr ⟨(stamp, key), (h.inverse key stamp).mp hfind, rfl⟩

theorem Consistent.length_eq {r : Recency} (h : r.Consistent) : r.length = r.keys.length := by
  have hperm : r.stamps.keys.Perm r.keys :=
    (List.perm_ext_iff_of_nodup h.nodup_stamps h.nodup_keys).mpr fun key =>
      (h.mem_keys_iff key).symm
  unfold Recency.length
  rw [← Table.length_keys]
  exact hperm.length_eq

/-! ## Withdrawing and entering rows -/

/-- The order without the rows of a key. -/
def withoutKey (key : String) (order : List (Nat × String)) : List (Nat × String) :=
  order.filter fun row => row.2 ≠ key

/-- Withdrawing the stamp of a key takes out the rows of that key and no others. -/
theorem Consistent.withdraw_eq {r : Recency} (h : r.Consistent) {key : String} {stamp : Nat}
    (hfind : r.stamps.find? key = some stamp) :
    withdraw stamp r.order = withoutKey key r.order := by
  have hkeyrow : (stamp, key) ∈ r.order := (h.inverse key stamp).mp hfind
  apply List.filter_congr
  intro row hrow
  have hiff : row.1 = stamp ↔ row.2 = key := by
    constructor
    · intro hstamp
      rw [h.row_eq_of_stamp_eq hrow hkeyrow hstamp]
    · intro hkey
      rw [h.row_eq_of_key_eq hrow hkeyrow hkey]
  simp [hiff]

/-- A key without a stamp has no row to take out. -/
theorem Consistent.withoutKey_eq_self {r : Recency} (h : r.Consistent) {key : String}
    (hfind : r.stamps.find? key = none) : withoutKey key r.order = r.order := by
  apply List.filter_eq_self.mpr
  intro row hrow
  have hne : row.2 ≠ key := by
    intro hkey
    have hsome := h.find?_of_mem hrow
    rw [hkey, hfind] at hsome
    cases hsome
  simpa using hne

theorem Consistent.keyOf?_eq {r : Recency} (h : r.Consistent) {key : String} {stamp : Nat}
    (hfind : r.stamps.find? key = some stamp) : keyOf? stamp r.order = some key := by
  have hkeyrow : (stamp, key) ∈ r.order := (h.inverse key stamp).mp hfind
  unfold keyOf?
  cases hrow : r.order.find? fun row => row.1 = stamp with
  | none =>
    -- the row of the key has the stamp, so the search does not fail
    have hnone := List.find?_eq_none.mp hrow (stamp, key) hkeyrow
    simp at hnone
  | some row =>
    have hstamp : row.1 = stamp := by simpa using List.find?_some hrow
    rw [h.row_eq_of_stamp_eq (List.mem_of_find?_eq_some hrow) hkeyrow hstamp]
    rfl

/-- A row that is later than all others is entered at the end. -/
theorem enter_eq_append {stamp : Nat} {key : String} {order : List (Nat × String)}
    (h : ∀ row ∈ order, row.1 < stamp) : enter stamp key order = order ++ [(stamp, key)] := by
  induction order with
  | nil => rfl
  | cons row rest ih =>
    have hrow : row.1 < stamp := h row List.mem_cons_self
    have hrest : ∀ row' ∈ rest, row'.1 < stamp := fun row' hmem =>
      h row' (List.mem_cons_of_mem row hmem)
    -- the head is earlier, so the row goes in behind it
    unfold enter
    rw [if_neg (by omega), if_neg (by omega), ih hrest]
    rfl

/-- The keys of what is left, for an order in which no key stands twice. -/
theorem keys_withoutKey {order : List (Nat × String)} (key : String)
    (h : (order.map Prod.snd).Nodup) :
    (withoutKey key order).map Prod.snd = (order.map Prod.snd).erase key := by
  rw [h.erase_eq_filter key, List.filter_map]
  apply congrArg (List.map Prod.snd)
  apply List.filter_congr
  intro row _
  by_cases hkey : row.2 = key <;> simp [hkey]

/-! ## A use -/

theorem clock_touch (r : Recency) (key : String) : (r.touch key).clock = r.clock + 1 := rfl

/-- After a use the key has the last row, under the stamp of the clock. -/
theorem Consistent.order_touch {r : Recency} (h : r.Consistent) (key : String) :
    (r.touch key).order = withoutKey key r.order ++ [(r.clock, key)] := by
  have hlate : ∀ row ∈ withoutKey key r.order, row.1 < r.clock := fun row hrow =>
    h.clock_ahead row (List.mem_of_mem_filter hrow)
  unfold touch
  cases hfind : r.stamps.find? key with
  | none =>
    rw [h.withoutKey_eq_self hfind] at hlate ⊢
    exact enter_eq_append hlate
  | some stamp =>
    show enter r.clock ((keyOf? stamp r.order).getD key) (withdraw stamp r.order) = _
    rw [h.keyOf?_eq hfind, h.withdraw_eq hfind]
    exact enter_eq_append hlate

/-- A use moves its key to the end. -/
theorem Consistent.keys_touch {r : Recency} (h : r.Consistent) (key : String) :
    (r.touch key).keys = r.keys.erase key ++ [key] := by
  show (r.touch key).order.map Prod.snd = _
  rw [h.order_touch, List.map_append, keys_withoutKey key h.nodup_keys]
  rfl

theorem Consistent.touch {r : Recency} (h : r.Consistent) (key : String) :
    (r.touch key).Consistent where
  nodup_stamps := Table.nodup_keys_put key r.clock h.nodup_stamps
  ascending := by
    rw [h.order_touch]
    apply List.pairwise_append.mpr
    refine ⟨h.ascending.filter _, List.pairwise_singleton _ _, ?_⟩
    intro row hrow last hlast
    rw [List.mem_singleton.mp hlast]
    exact h.clock_ahead row (List.mem_of_mem_filter hrow)
  inverse := by
    intro other stamp
    have hstamps : (r.touch key).stamps = r.stamps.put key r.clock := rfl
    -- the last row is the only one of `key`, and every other key keeps its row
    rw [hstamps, Table.find?_put, h.order_touch, List.mem_append, List.mem_singleton]
    by_cases hkey : key = other
    · subst hkey
      simp [withoutKey, eq_comm]
    · have hne : other ≠ key := fun e => hkey e.symm
      simp [withoutKey, hkey, hne, h.inverse other stamp]
  clock_ahead := by
    intro row hrow
    rw [h.order_touch, List.mem_append, List.mem_singleton] at hrow
    rw [clock_touch]
    rcases hrow with hold | rfl
    · have := h.clock_ahead row (List.mem_of_mem_filter hold)
      omega
    · exact Nat.lt_succ_self _

/-! ## Forgetting a key -/

theorem Consistent.order_remove {r : Recency} (h : r.Consistent) (key : String) :
    (r.remove key).order = withoutKey key r.order := by
  unfold remove
  cases hfind : r.stamps.find? key with
  | none => exact (h.withoutKey_eq_self hfind).symm
  | some stamp => exact h.withdraw_eq hfind

/-- A key without a stamp has nothing to be erased. -/
theorem Consistent.stamps_remove {r : Recency} (h : r.Consistent) (key : String) (other : String) :
    (r.remove key).stamps.find? other = if key = other then none else r.stamps.find? other := by
  unfold remove
  cases hfind : r.stamps.find? key with
  | none =>
    by_cases hkey : key = other
    · subst hkey
      simpa using hfind
    · simp [hkey]
  | some stamp => exact Table.find?_erase h.nodup_stamps key other

theorem clock_remove (r : Recency) (key : String) : (r.remove key).clock = r.clock := by
  unfold remove
  cases r.stamps.find? key <;> rfl

theorem Consistent.keys_remove {r : Recency} (h : r.Consistent) (key : String) :
    (r.remove key).keys = r.keys.erase key := by
  show (r.remove key).order.map Prod.snd = _
  rw [h.order_remove, keys_withoutKey key h.nodup_keys]
  rfl

theorem Consistent.remove {r : Recency} (h : r.Consistent) (key : String) :
    (r.remove key).Consistent where
  nodup_stamps := by
    unfold Recency.remove
    cases r.stamps.find? key with
    | none => exact h.nodup_stamps
    | some stamp => exact Table.nodup_keys_erase key h.nodup_stamps
  ascending := by
    rw [h.order_remove]
    exact h.ascending.filter _
  inverse := by
    intro other stamp
    rw [h.stamps_remove, h.order_remove]
    by_cases hkey : key = other
    · subst hkey
      simp [withoutKey]
    · have hne : other ≠ key := fun e => hkey e.symm
      simp [withoutKey, hkey, hne, h.inverse other stamp]
  clock_ahead := by
    intro row hrow
    rw [h.order_remove] at hrow
    rw [clock_remove]
    exact h.clock_ahead row (List.mem_of_mem_filter hrow)

/-! ## Eviction -/

theorem evictOldest_of_keys_eq_nil {r : Recency} (hkeys : r.keys = []) :
    r.evictOldest = (none, r) := by
  have horder : r.order = [] := List.map_eq_nil_iff.mp hkeys
  unfold evictOldest
  rw [horder]

/-- Eviction answers the head of the list, and forgets it. -/
theorem Consistent.evictOldest_of_keys_eq_cons {r : Recency} (h : r.Consistent) {victim : String}
    {others : List String} (hkeys : r.keys = victim :: others) :
    r.evictOldest = (some victim, r.remove victim) := by
  obtain ⟨row, rest, horder, hvictim, -⟩ := List.map_eq_cons_iff.mp hkeys
  obtain ⟨stamp, key⟩ := row
  obtain rfl : key = victim := hvictim
  have hfind : r.stamps.find? key = some stamp :=
    (h.inverse key stamp).mpr (by rw [horder]; exact List.mem_cons_self)
  -- the rows behind the head have later stamps, so withdrawing the head's stamp spares them
  have hrest : withdraw stamp r.order = rest := by
    have hlater := h.ascending
    rw [horder] at hlater ⊢
    have hspared : withdraw stamp rest = rest := by
      apply List.filter_eq_self.mpr
      intro row hrow
      have := List.rel_of_pairwise_cons hlater hrow
      simp only [ne_eq, decide_not, Bool.not_eq_eq_eq_not, Bool.not_true, decide_eq_false_iff_not]
      omega
    simpa [withdraw] using hspared
  unfold evictOldest Recency.remove
  rw [hfind]
  simp only [hrest]
  rw [horder]

end Recency

end BoundedStore
