import BoundedStore.Proofs.Value.Items
import Mathlib.Data.List.Basic

/-!
# The items that a range selects

A range is given by two numbers, which need not be positions of the list. Which items it selects is
said here by their positions alone (`selected`). There are two ways to get at these items. A slice
skips what is before them and then takes as many as there are; a trim cuts off what is behind them
and then what is before them. Both come to the same (`slice_eq_selected`, `trim_eq_slice`).

Both go by the window of the range, and its ends are positions of the list (`window?_eq_some_iff`).
So nothing is taken, skipped or cut off past an end. The window can be computed in words: on a list
that is not longer than words can count, no number on the way there is too great for one
(`map_toNat_wordWindow?`).
-/

namespace BoundedStore

namespace Items

/-! ## What is selected -/

/-- The items at the positions from `first` to `last`, in order. -/
def between (items : List Value) (first last : Int) : List Value :=
  (items.zipIdx.filter fun (_, i) => first ≤ i ∧ i ≤ last).map Prod.fst

/-- The items that the range from `start` to `stop` is to select: those at its positions, up to the
last of the list. A range that ends before it begins, or begins outside the list, selects none. -/
def selected (items : List Value) (start stop : Int) : List Value :=
  if 0 ≤ start ∧ start ≤ stop ∧ start < items.length then
    between items start (min stop (items.length - 1))
  else []

theorem map_filter_zipIdx (items : List Value) (k first last : Nat) :
    ((items.zipIdx k).filter fun (_, i) => (first : Int) ≤ i ∧ i ≤ (last : Int)).map Prod.fst =
      (items.drop (first - k)).take (last + 1 - max first k) := by
  induction items generalizing k with
  | nil => simp
  | cons x rest ih =>
    rw [List.zipIdx_cons, List.filter_cons]
    by_cases hbefore : k < first
    · have hdrop : first - k = (first - (k + 1)) + 1 := by omega
      have hmax : max first k = max first (k + 1) := by omega
      rw [if_neg (by simp; omega), ih (k + 1), hdrop, List.drop_succ_cons, hmax]
    · have hskip : first - k = 0 := by omega
      have hskip' : first - (k + 1) = 0 := by omega
      by_cases hbehind : last < k
      · have hnone : last + 1 - max first k = 0 := by omega
        have hnone' : last + 1 - max first (k + 1) = 0 := by omega
        rw [if_neg (by simp; omega), ih (k + 1), hnone, hnone', List.take_zero, List.take_zero]
      · have htake : last + 1 - max first k = (last + 1 - max first (k + 1)) + 1 := by omega
        rw [if_pos (by simp; omega), List.map_cons, ih (k + 1), hskip, hskip', htake,
          List.drop_zero, List.drop_zero, List.take_succ_cons]

theorem between_eq_take_drop (items : List Value) (first last : Nat) :
    between items first last = (items.drop first).take (last + 1 - first) := by
  have h := map_filter_zipIdx items 0 first last
  rwa [Nat.sub_zero, Nat.max_zero] at h

/-! ## The window of a range -/

/-- The ends of a window are positions of the list. -/
theorem window?_eq_some_iff {length first last : Nat} {start stop : Int64} :
    window? length start stop = some (first, last) ↔
      start.toInt = first ∧ (last : Int) = min stop.toInt (length - 1) ∧ first ≤ last := by
  simp only [window?]
  split
  · simp only [reduceCtorEq, false_iff]
    omega
  · simp only [Option.some.injEq, Prod.mk.injEq]
    omega

theorem window?_eq_none_iff {length : Nat} {start stop : Int64} :
    window? length start stop = none ↔
      ¬ (0 ≤ start.toInt ∧ start.toInt ≤ stop.toInt ∧ start.toInt < length) := by
  simp only [window?]
  split
  · simp only [true_iff]
    omega
  · simp only [reduceCtorEq, false_iff]
    omega

theorem position?_eq_some_iff {length i : Nat} {index : Int64} :
    position? length index = some i ↔ index.toInt = i ∧ i < length := by
  unfold position?
  split
  · rw [Option.some.injEq]
    omega
  · simp only [reduceCtorEq, false_iff]
    omega

/-- No two indices name one position. -/
theorem position?_inj {length i : Nat} {first second : Int64}
    (hfirst : position? length first = some i) (hsecond : position? length second = some i) :
    first = second := by
  obtain ⟨h, -⟩ := position?_eq_some_iff.mp hfirst
  obtain ⟨h', -⟩ := position?_eq_some_iff.mp hsecond
  exact Int64.toInt_inj.mp (h.trans h'.symm)

theorem slice_eq_selected (items : List Value) (start stop : Int64) :
    slice items start stop = selected items start.toInt stop.toInt := by
  unfold slice selected
  cases hwindow : window? items.length start stop with
  | none => rw [if_neg (window?_eq_none_iff.mp hwindow)]
  | some window =>
    obtain ⟨first, last⟩ := window
    obtain ⟨hfirst, hlast, hle⟩ := window?_eq_some_iff.mp hwindow
    rw [if_pos (by omega), hfirst, ← hlast, between_eq_take_drop]

/-- A trim leaves what a slice takes, although it gets there from the other end. -/
theorem trim_eq_slice (items : List Value) (start stop : Int64) :
    trim items start stop = slice items start stop := by
  unfold trim slice
  cases window? items.length start stop with
  | none => rfl
  | some window => exact List.drop_take

/-! ## Item by item -/

theorem getElem?_slice (items : List Value) (start stop : Int64) (n : Nat) :
    (slice items start stop)[n]? =
      if 0 ≤ start.toInt ∧ start.toInt + n ≤ stop.toInt then items[start.toInt.toNat + n]?
      else none := by
  unfold slice
  cases hwindow : window? items.length start stop with
  | none =>
    have houtside := window?_eq_none_iff.mp hwindow
    show ([] : List Value)[n]? = _
    rw [List.getElem?_nil]
    by_cases hinside : 0 ≤ start.toInt ∧ start.toInt + n ≤ stop.toInt
    · -- the range has positions, so it begins past the end
      have hpast : items.length ≤ start.toInt.toNat + n := by omega
      rw [if_pos hinside, List.getElem?_eq_none hpast]
    · rw [if_neg hinside]
  | some window =>
    obtain ⟨first, last⟩ := window
    obtain ⟨hfirst, hlast, hle⟩ := window?_eq_some_iff.mp hwindow
    rw [hfirst, Int.toNat_natCast, List.getElem?_take, List.getElem?_drop]
    by_cases hshort : first + n < items.length
    · by_cases hbefore : n < last + 1 - first
      · rw [if_pos hbefore, if_pos (by omega)]
      · rw [if_neg hbefore, if_neg (by omega)]
    · rw [List.getElem?_eq_none (Nat.le_of_not_lt hshort), ite_self, ite_self]

/-- A range of one position selects what an index selects. -/
theorem slice_self (items : List Value) (index : Int64) :
    slice items index index =
      ((position? items.length index).bind fun i => items[i]?).toList := by
  rw [getElem?_position?]
  apply List.ext_getElem?
  intro n
  rw [getElem?_slice]
  cases n with
  | zero =>
    by_cases hnonneg : 0 ≤ index.toInt
    · cases items[index.toInt.toNat]? <;> simp [hnonneg]
    · simp [hnonneg]
  | succ n =>
    have hbehind : ¬ (0 ≤ index.toInt ∧ index.toInt + (n + 1 : Nat) ≤ index.toInt) := by omega
    rw [if_neg hbehind]
    cases (if 0 ≤ index.toInt then items[index.toInt.toNat]? else none) <;> rfl

theorem slice_of_inside {items : List Value} {index : Int64} {i : Nat}
    (h : position? items.length index = some i) :
    ∃ x, items[i]? = some x ∧ slice items index index = [x] := by
  obtain ⟨-, hi⟩ := position?_eq_some_iff.mp h
  refine ⟨items[i], List.getElem?_eq_getElem hi, ?_⟩
  rw [slice_self, h, Option.bind_some, List.getElem?_eq_getElem hi]
  rfl

theorem slice_of_outside {items : List Value} {index : Int64}
    (h : position? items.length index = none) : slice items index index = [] := by
  rw [slice_self, h]
  rfl

/-- Where an item is overwritten, ranges differ at its position and nowhere else. -/
theorem getElem?_slice_set (items : List Value) {index : Int64} {i : Nat}
    (h : position? items.length index = some i) (x : Value) (start stop : Int64) (n : Nat) :
    (slice (items.set i x) start stop)[n]? =
      if start.toInt + n = index.toInt then (slice items start stop)[n]?.map fun _ => x
      else (slice items start stop)[n]? := by
  obtain ⟨hindex, hi⟩ := position?_eq_some_iff.mp h
  rw [getElem?_slice, getElem?_slice, List.getElem?_set]
  split
  next hinside =>
    by_cases hat : start.toInt + n = index.toInt
    · have hi' : i = start.toInt.toNat + n := by omega
      rw [if_pos hat, if_pos hi', ← hi', List.getElem?_eq_getElem hi]
      rfl
    · have hi' : ¬ i = start.toInt.toNat + n := by omega
      rw [if_neg hat, if_neg hi']
  next => exact (ite_self none).symm

/-! ## The window in words -/

/-- The window of a range, computed in words of 64 bits. The length and the ends are words without
sign, the range is given by words with one. -/
def wordWindow? (length : UInt64) (start stop : Int64) : Option (UInt64 × UInt64) :=
  let last := length.toInt64 - 1
  if start < 0 ∨ last < start ∨ stop < start then none
  else some (start.toUInt64, (min stop last).toUInt64)

theorem toInt_last {length : Nat} (h : length < Nat.pow 2 63) :
    ((UInt64.ofNat length).toInt64 - 1).toInt = (length : Int) - 1 := by
  rw [UInt64.toInt64_ofNat', Int64.toInt_sub, Int64.toInt_ofNat_of_lt h]
  have : (1 : Int64).toInt = 1 := by decide
  rw [this, Int.bmod_eq_of_le]
  all_goals
    have : Nat.pow 2 63 = 9223372036854775808 := by decide
    omega

theorem toInt_min (a b : Int64) : (min a b).toInt = min a.toInt b.toInt := by
  show (if a ≤ b then a else b).toInt = _
  simp only [Int64.le_iff_toInt_le]
  split <;> omega

theorem toNat_toUInt64 {a : Int64} (h : 0 ≤ a.toInt) : a.toUInt64.toNat = a.toInt.toNat := by
  rw [Int64.toNat_toInt]
  exact Int64.toNat_toUInt64_of_le (Int64.le_iff_toInt_le.mpr h)

/-- On a list that words can count, the window in words is the window. -/
theorem map_toNat_wordWindow? {length : Nat} (h : length < Nat.pow 2 63) (start stop : Int64) :
    (wordWindow? (.ofNat length) start stop).map (Prod.map UInt64.toNat UInt64.toNat) =
      window? length start stop := by
  unfold wordWindow? window?
  simp only [Int64.lt_iff_toInt_lt, toInt_last h]
  have hzero : (0 : Int64).toInt = 0 := by decide
  rw [hzero]
  split
  · rfl
  next hinside =>
    have hstart : 0 ≤ start.toInt := by omega
    have hlast : 0 ≤ (min stop ((UInt64.ofNat length).toInt64 - 1)).toInt := by
      rw [toInt_min, toInt_last h]
      omega
    rw [Option.map_some, Prod.map, toNat_toUInt64 hstart, toNat_toUInt64 hlast, toInt_min,
      toInt_last h]

end Items

end BoundedStore
