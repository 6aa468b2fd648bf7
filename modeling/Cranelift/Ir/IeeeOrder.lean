import Cranelift.Ir.Immediates
import Cranelift.Lib.BinaryFloat

/-!
# The order of the IEEE immediates

`PartialOrd` of the float immediates is meant to respect IEEE 754: a NaN is unordered, both zeros
are equal, and otherwise values are ordered as the numbers they stand for. For `Ieee32` and
`Ieee64` it is Rust's comparison of `f32` and `f64`; for `Ieee16` and `Ieee128`, whose Rust types
are not stable, the macro compares the bit patterns: as unsigned integers for two positive
numbers, reversed for two negative ones, and by sign otherwise. Before that it tests for NaNs
and for zeros, and a zero on either side makes the result `Equal`.

`minimum` and `maximum` follow IEEE 754-2019 on top of that comparison, and `isle_prelude`'s
`f16_min`, `f32_min`, `f64_min`, `f128_min` (and the `max`s) fold `fmin` and `fmax` of two
constants with them.

With the IEEE comparison, `minimum` and `maximum` are exactly IEEE 754-2019's. The comparison of
the bit patterns is the IEEE one whenever neither operand is a zero, but between a zero and any
number that is not a NaN it answers `Equal`, so that for `Ieee16` and `Ieee128`,
`minimum(x, ±0.0)` and `maximum(x, ±0.0)` are `x`, and so are `minimum(±0.0, x)` and
`maximum(±0.0, x)` the zero, whatever `x` is: the constant folding of `fmin(1.0, 0.0)` on `f16` and
`f128` gives `1.0`.

## Main definitions

* `Cranelift.Ir.IeeeFormat.partialCmpBits`, `minimum`, `maximum`, `minConst`, `maxConst` — the
  macro's `partial_cmp` for `Ieee16` and `Ieee128`, `minimum`, `maximum`, and `isle_prelude`'s
  folding of `fmin` and `fmax`.
* `Cranelift.Ir.IeeeFormat.toValue`, `ieeeCmp`, `ieeeMinimum`, `ieeeMaximum` — the value of a bit
  pattern, and IEEE 754's comparison, `minimum` and `maximum`.

## Main results

* `Cranelift.Ir.IeeeFormat.partialCmpBits_eq` — the comparison of the bit patterns is IEEE's
  except that a zero is equal to every number.
* `Cranelift.Ir.IeeeFormat.minimum_ieeeCmp`, `maximum_ieeeCmp` — over the IEEE comparison,
  `minimum` and `maximum` are IEEE's.
* `Cranelift.Ir.IeeeFormat.minConst_partialCmpBits`, `maxConst_partialCmpBits` — the folding
  over the comparison of the bit patterns.
* `Cranelift.Ir.IeeeFormat.partialCmp_ieee16_ieee128`, `minimum_maximum_ieee32_ieee64`,
  `minMaxConst_ieee16_ieee128` — the same at the four formats.

## Implementation notes

A bit pattern is a `BitVec` of the format's width. Rust's comparison of `f32` and `f64` is not
code of the repository; it is IEEE 754's, which is `ieeeCmp` here.
-/

namespace Cranelift.Ir

namespace IeeeFormat

variable (F : IeeeFormat)

/-- `SIGN_MASK`. -/
def signMask : BitVec F.bits := (1 : BitVec F.bits) <<< (F.exponentBits + F.significandBits)

/-- `SIGNIFICAND_MASK`. -/
def significandMask : BitVec F.bits := BitVec.allOnes F.bits >>> (F.exponentBits + 1)

/-- `EXPONENT_MASK`. -/
def exponentMask : BitVec F.bits := ~~~F.signMask &&& ~~~F.significandMask

/-- `NAN`: the positive WebAssembly canonical NaN. -/
def nan : BitVec F.bits := F.exponentMask ||| (1 : BitVec F.bits) <<< (F.significandBits - 1)

variable {F}

/-- `abs`. -/
def abs (x : BitVec F.bits) : BitVec F.bits := x &&& ~~~F.signMask

/-- `is_nan`: all the exponent bits set and a significand that is not zero. -/
def isNan (x : BitVec F.bits) : Bool := F.exponentMask < abs x

/-- `is_negative`: the sign bit set. -/
def isNegative (x : BitVec F.bits) : Bool := (x &&& F.signMask) == F.signMask

/-- `is_positive`. -/
def isPositive (x : BitVec F.bits) : Bool := !isNegative x

/-- `is_zero`: positive or negative zero. -/
def isZero (x : BitVec F.bits) : Bool := abs x == 0

/-- `non_nan`. -/
def nonNan (x : BitVec F.bits) : Option (BitVec F.bits) := (some x).filter fun f => !isNan f

/-- `partial_cmp` of the formats without a stable Rust float type, `Ieee16` and `Ieee128`. -/
def partialCmpBits (x y : BitVec F.bits) : Option Ordering :=
  if isNan x || isNan y then none
  else if isZero x || isZero y then some .eq
  else
    let lhsPositive := isPositive x
    let rhsPositive := isPositive y
    if lhsPositive != rhsPositive then some (compare lhsPositive rhsPositive)
    -- finite or infinite, the bits of two numbers of one sign are ordered as their magnitudes
    else if lhsPositive then some (compare x.toNat y.toNat)
    else some (compare y.toNat x.toNat)

/-- `<=` of a `PartialOrd`, from `partial_cmp`. -/
def ordLe : Option Ordering → Bool
  | some .lt | some .eq => true
  | _ => false

/-- `>=` of a `PartialOrd`, from `partial_cmp`. -/
def ordGe : Option Ordering → Bool
  | some .gt | some .eq => true
  | _ => false

/-- `minimum`, over the comparison `cmp` that `PartialOrd` makes for the type. -/
def minimum (cmp : BitVec F.bits → BitVec F.bits → Option Ordering) (x y : BitVec F.bits) :
    BitVec F.bits :=
  if isNan x || isNan y then F.nan
  else if isZero x && isZero y then (if isNegative x then x else y)
  else if ordLe (cmp x y) then x else y

/-- `maximum`, over the comparison `cmp` that `PartialOrd` makes for the type. -/
def maximum (cmp : BitVec F.bits → BitVec F.bits → Option Ordering) (x y : BitVec F.bits) :
    BitVec F.bits :=
  if isNan x || isNan y then F.nan
  else if isZero x && isZero y then (if isPositive x then x else y)
  else if ordGe (cmp x y) then x else y

/-- `f16_min`, `f32_min`, `f64_min` and `f128_min` of `isle_prelude`: constant propagation folds
`fmin` of two constants to this, when it is not a NaN. -/
def minConst (cmp : BitVec F.bits → BitVec F.bits → Option Ordering) (x y : BitVec F.bits) :
    Option (BitVec F.bits) :=
  nonNan (minimum cmp x y)

/-- `f16_max`, `f32_max`, `f64_max` and `f128_max` of `isle_prelude`. -/
def maxConst (cmp : BitVec F.bits → BitVec F.bits → Option Ordering) (x y : BitVec F.bits) :
    Option (BitVec F.bits) :=
  nonNan (maximum cmp x y)

/-! ### Values -/

variable (F) in
/-- The exponent bias. -/
def bias : ℤ := 2 ^ (F.exponentBits - 1) - 1

variable (F) in
/-- The magnitude bits of the infinities: the exponent mask. -/
def infMag : ℕ := 2 ^ (F.exponentBits + F.significandBits) - 2 ^ F.significandBits

/-- The value of a bit pattern that is no NaN: `±∞`, or the rational number it stands for. -/
def toValue (x : BitVec F.bits) : WithBot (WithTop ℚ) :=
  BinaryFloat.value F.significandBits F.bias F.infMag (isNegative x) (abs x).toNat

/-- The signed integer of a bit pattern: its magnitude bits, negated for a negative number. -/
def signedKey (x : BitVec F.bits) : ℤ := BinaryFloat.signedMag (isNegative x) (abs x).toNat

/-- IEEE 754's comparison: unordered when either operand is a NaN, and otherwise the order of
the values, where both zeros are equal. -/
def ieeeCmp (x y : BitVec F.bits) : Option Ordering :=
  if isNan x || isNan y then none else some (compare (toValue x) (toValue y))

/-- IEEE 754-2019's `minimum`: the canonical NaN when either operand is a NaN, and otherwise the
operand of the least value, `-0` counting below `+0`. -/
def ieeeMinimum (x y : BitVec F.bits) : BitVec F.bits :=
  if isNan x || isNan y then F.nan
  else if toValue x < toValue y then x
  else if toValue y < toValue x then y
  else if isNegative x then x else y

/-- IEEE 754-2019's `maximum`, `+0` counting above `-0`. -/
def ieeeMaximum (x y : BitVec F.bits) : BitVec F.bits :=
  if isNan x || isNan y then F.nan
  else if toValue y < toValue x then x
  else if toValue x < toValue y then y
  else if isPositive x then x else y

/-! ### The masks -/

section Masks

variable (hF : F.exponentBits + F.significandBits + 1 = F.bits)
include hF

theorem two_pow_bits : 2 ^ F.bits = 2 * 2 ^ (F.exponentBits + F.significandBits) := by
  rw [← hF, Nat.pow_succ, Nat.mul_comm]

theorem toNat_signMask : F.signMask.toNat = 2 ^ (F.exponentBits + F.significandBits) := by
  have hlt : 2 ^ (F.exponentBits + F.significandBits) < 2 ^ F.bits :=
    Nat.pow_lt_pow_right (by decide) (by omega)
  have h1 : (1 : BitVec F.bits).toNat = 1 := BitVec.toNat_one (by omega)
  rw [signMask, BitVec.toNat_shiftLeft, h1, Nat.one_shiftLeft, Nat.mod_eq_of_lt hlt]

theorem toNat_not_signMask :
    (~~~F.signMask).toNat = 2 ^ (F.exponentBits + F.significandBits) - 1 := by
  rw [BitVec.toNat_not, toNat_signMask hF, two_pow_bits hF]
  omega

theorem toNat_significandMask : F.significandMask.toNat = 2 ^ F.significandBits - 1 := by
  have hA : 0 < 2 ^ (F.exponentBits + 1) := Nat.two_pow_pos _
  -- all ones, shifted down past the sign and the exponent
  have hsplit : 2 ^ F.bits - 1 =
      2 ^ (F.exponentBits + 1) * (2 ^ F.significandBits - 1) + (2 ^ (F.exponentBits + 1) - 1) := by
    have hle : 2 ^ (F.exponentBits + 1) ≤ 2 ^ (F.exponentBits + 1) * 2 ^ F.significandBits :=
      Nat.le_mul_of_pos_right _ (Nat.two_pow_pos _)
    rw [← hF, show F.exponentBits + F.significandBits + 1 = F.exponentBits + 1 + F.significandBits
      by omega, Nat.pow_add, Nat.mul_sub_one]
    omega
  rw [significandMask, BitVec.toNat_ushiftRight, BitVec.toNat_allOnes, Nat.shiftRight_eq_div_pow,
    hsplit, Nat.mul_add_div hA, Nat.div_eq_of_lt (by omega), Nat.add_zero]

theorem toNat_exponentMask : F.exponentMask.toNat = F.infMag := by
  have hT : 2 ^ F.significandBits ≤ 2 ^ (F.exponentBits + F.significandBits) :=
    Nat.pow_le_pow_right (by decide) (by omega)
  have hT0 : 0 < 2 ^ F.significandBits := Nat.two_pow_pos _
  rw [exponentMask, BitVec.toNat_and, toNat_not_signMask hF, BitVec.toNat_not,
    toNat_significandMask hF, Nat.and_comm, Nat.and_two_pow_sub_one_eq_mod, two_pow_bits hF,
    show 2 * 2 ^ (F.exponentBits + F.significandBits) - 1 - (2 ^ F.significandBits - 1) =
      F.infMag + 2 ^ (F.exponentBits + F.significandBits) by unfold infMag; omega,
    Nat.add_mod_right, Nat.mod_eq_of_lt (by unfold infMag; omega)]

/-- `abs` clears the sign bit: the magnitude bits. -/
theorem toNat_abs (x : BitVec F.bits) :
    (abs x).toNat = x.toNat % 2 ^ (F.exponentBits + F.significandBits) := by
  rw [abs, BitVec.toNat_and, toNat_not_signMask hF, Nat.and_two_pow_sub_one_eq_mod]

theorem isNegative_eq (x : BitVec F.bits) :
    isNegative x = decide (2 ^ (F.exponentBits + F.significandBits) ≤ x.toNat) := by
  have hlt : x.toNat < 2 ^ (F.exponentBits + F.significandBits + 1) := by
    rw [hF]
    exact x.isLt
  -- the sign bit of the pattern is its bit above the magnitude bits
  have hmask : (x &&& F.signMask == F.signMask) =
      (x.toNat &&& 2 ^ (F.exponentBits + F.significandBits) ==
        2 ^ (F.exponentBits + F.significandBits)) := by
    rw [← toNat_signMask hF, ← BitVec.toNat_and]
    simp only [beq_eq_beq, BitVec.toNat_eq]
  rw [isNegative, hmask, BitFields.and_two_pow_of_lt hlt]
  by_cases h : 2 ^ (F.exponentBits + F.significandBits) ≤ x.toNat
  · simp [h]
  · simpa [h] using (Nat.two_pow_pos _).ne

/-- A pattern is its sign bit above its magnitude bits. -/
theorem toNat_eq_sign_add_abs (x : BitVec F.bits) :
    x.toNat = (if isNegative x then 2 ^ (F.exponentBits + F.significandBits) else 0) +
      (abs x).toNat := by
  have hlt := x.isLt
  rw [two_pow_bits hF] at hlt
  rw [isNegative_eq hF, toNat_abs hF]
  have hsplit := Nat.mod_add_div x.toNat (2 ^ (F.exponentBits + F.significandBits))
  by_cases h : 2 ^ (F.exponentBits + F.significandBits) ≤ x.toNat
  · have hdiv : x.toNat / 2 ^ (F.exponentBits + F.significandBits) = 1 :=
      Nat.div_eq_of_lt_le (by omega) (by omega)
    rw [hdiv, Nat.mul_one] at hsplit
    simp only [h, decide_true, if_true]
    omega
  · rw [Nat.mod_eq_of_lt (by omega)]
    simp [h]

omit hF in
theorem isZero_eq (x : BitVec F.bits) : isZero x = decide ((abs x).toNat = 0) := by
  rw [isZero]
  by_cases h : (abs x).toNat = 0
  · simp [h, BitVec.toNat_eq]
  · simp [h, BitVec.toNat_eq]

theorem isNan_eq (x : BitVec F.bits) : isNan x = decide (F.infMag < (abs x).toNat) := by
  rw [isNan, ← toNat_exponentMask hF]
  simp [BitVec.lt_def]


/-- The canonical NaN: all the exponent bits and the top significand bit. -/
theorem toNat_nan (ht : 1 ≤ F.significandBits) :
    F.nan.toNat = F.infMag + 2 ^ (F.significandBits - 1) := by
  have h1 : (1 : BitVec F.bits).toNat = 1 := BitVec.toNat_one (by omega)
  have hlt : 2 ^ (F.significandBits - 1) < 2 ^ F.bits := Nat.pow_lt_pow_right (by decide) (by omega)
  have hinf : F.infMag = (2 ^ F.exponentBits - 1) <<< F.significandBits := by
    rw [infMag, Nat.shiftLeft_eq, Nat.sub_mul, Nat.one_mul, ← Nat.pow_add]
  rw [nan, BitVec.toNat_or, toNat_exponentMask hF, BitVec.toNat_shiftLeft, h1, Nat.one_shiftLeft,
    Nat.mod_eq_of_lt hlt, hinf,
    ← Nat.shiftLeft_add_eq_or_of_lt (Nat.pow_lt_pow_right (by decide) (by omega))]

theorem isNan_nan (ht : 1 ≤ F.significandBits) : isNan F.nan = true := by
  have hT : 2 ^ (F.significandBits - 1) < 2 ^ F.significandBits :=
    Nat.pow_lt_pow_right (by decide) (by omega)
  have hle : 2 ^ F.significandBits ≤ 2 ^ (F.exponentBits + F.significandBits) :=
    Nat.pow_le_pow_right (by decide) (by omega)
  rw [isNan_eq hF, toNat_abs hF, toNat_nan hF ht, Nat.mod_eq_of_lt (by unfold infMag; omega)]
  simp

end Masks

/-! ### The order of the bit patterns -/

theorem ordLe_some_compare {α : Type*} [LinearOrder α] (a b : α) :
    ordLe (some (compare a b)) = decide (a ≤ b) := by
  rcases lt_trichotomy a b with h | h | h
  · simp [compare_lt_iff_lt.mpr h, ordLe, h.le]
  · simp [ordLe, h]
  · simp [compare_gt_iff_gt.mpr h, ordLe, not_le.mpr h]

theorem ordGe_some_compare {α : Type*} [LinearOrder α] (a b : α) :
    ordGe (some (compare a b)) = decide (b ≤ a) := by
  rcases lt_trichotomy a b with h | h | h
  · simp [compare_lt_iff_lt.mpr h, ordGe, not_le.mpr h]
  · simp [ordGe, h]
  · simp [compare_gt_iff_gt.mpr h, ordGe, h.le]

theorem partialCmpBits_of_isNan {x y : BitVec F.bits} (h : (isNan x || isNan y) = true) :
    partialCmpBits x y = none := by
  simp [partialCmpBits, h]

theorem partialCmpBits_of_isZero {x y : BitVec F.bits} (hn : (isNan x || isNan y) = false)
    (hz : (isZero x || isZero y) = true) : partialCmpBits x y = some .eq := by
  simp [partialCmpBits, hn, hz]

section Order

variable (hF : F.exponentBits + F.significandBits + 1 = F.bits) (hw : 1 ≤ F.exponentBits)
include hF

theorem abs_le_infMag {x : BitVec F.bits} (hx : isNan x = false) : (abs x).toNat ≤ F.infMag := by
  rw [isNan_eq hF] at hx
  simpa using hx

theorem isNan_of_isZero {x : BitVec F.bits} (hx : isZero x = true) : isNan x = false := by
  rw [isZero_eq] at hx
  rw [isNan_eq hF, of_decide_eq_true hx]
  simp

/-- **Between two numbers that are no NaN and no zero, the comparison of the bit patterns
compares their signed integers**: by sign, and then as the magnitude bits, reversed for two
negative numbers. -/
theorem partialCmpBits_of_ne_zero {x y : BitVec F.bits} (hx : isNan x = false)
    (hy : isNan y = false) (hx0 : isZero x = false) (hy0 : isZero y = false) :
    partialCmpBits x y = some (compare (signedKey x) (signedKey y)) := by
  have hxs := toNat_eq_sign_add_abs hF x
  have hys := toNat_eq_sign_add_abs hF y
  have hpx : (abs x).toNat ≠ 0 := by simpa [isZero_eq] using hx0
  have hpy : (abs y).toNat ≠ 0 := by simpa [isZero_eq] using hy0
  simp only [partialCmpBits, hx, hy, hx0, hy0, Bool.or_false, Bool.false_eq_true, if_false]
  unfold signedKey BinaryFloat.signedMag isPositive
  cases hnx : isNegative x <;> cases hny : isNegative y <;>
    simp only [hnx, hny, if_true, if_false, Bool.false_eq_true, Bool.not_false, Bool.not_true,
      bne_self_eq_false, Nat.zero_add, Option.some.injEq] at hxs hys ⊢
  · -- two positive numbers: their patterns are their magnitude bits
    exact BinaryFloat.compare_eq_compare (by omega) (by omega)
  · -- a positive number above a negative one
    rw [if_pos (by decide : (true != false) = true), Option.some.injEq,
      show compare true false = .gt from rfl]
    exact (compare_gt_iff_gt.mpr (by omega)).symm
  · rw [if_pos (by decide : (false != true) = true), Option.some.injEq,
      show compare false true = .lt from rfl]
    exact (compare_lt_iff_lt.mpr (by omega)).symm
  · -- two negative numbers: the sign bit is common, and the order reversed
    exact BinaryFloat.compare_eq_compare (by omega) (by omega)

include hw

theorem infMag_pos : 0 < F.infMag := by
  have : 2 ^ F.significandBits < 2 ^ (F.exponentBits + F.significandBits) :=
    Nat.pow_lt_pow_right (by decide) (by omega)
  unfold infMag
  omega

/-- Comparing the values of two numbers that are no NaN compares their signed integers. -/
theorem compare_toValue {x y : BitVec F.bits} (hx : isNan x = false) (hy : isNan y = false) :
    compare (toValue x) (toValue y) = compare (signedKey x) (signedKey y) :=
  BinaryFloat.compare_value (infMag_pos hF hw) (abs_le_infMag hF hx) (abs_le_infMag hF hy)

/-- **The comparison of the bit patterns is IEEE 754's, except that a zero is equal to every
number that is no NaN.** -/
theorem partialCmpBits_eq (x y : BitVec F.bits) :
    partialCmpBits x y =
      if (isZero x && !isNan y) || (isZero y && !isNan x) then some .eq else ieeeCmp x y := by
  by_cases hn : (isNan x || isNan y) = true
  · -- a NaN is unordered, and no zero is a NaN
    have hcond : ((isZero x && !isNan y) || (isZero y && !isNan x)) = false := by
      cases hzx : isZero x <;> cases hzy : isZero y <;>
        simp_all [isNan_of_isZero hF]
    rw [partialCmpBits_of_isNan hn, hcond, if_neg Bool.false_ne_true, ieeeCmp, if_pos hn]
  · simp only [Bool.not_eq_true, Bool.or_eq_false_iff] at hn
    obtain ⟨hx, hy⟩ := hn
    by_cases hz : (isZero x || isZero y) = true
    · rw [partialCmpBits_of_isZero (by simp [hx, hy]) hz, if_pos (by simpa [hx, hy] using hz)]
    · simp only [Bool.not_eq_true, Bool.or_eq_false_iff] at hz
      rw [partialCmpBits_of_ne_zero hF hx hy hz.1 hz.2, hz.1, hz.2, ieeeCmp, hx, hy,
        compare_toValue hF hw hx hy]
      simp

/-- A zero stands for the number zero. -/
theorem toValue_of_isZero {x : BitVec F.bits} (hx : isZero x = true) :
    toValue x = ((0 : ℚ) : WithTop ℚ) := by
  rw [isZero_eq] at hx
  rw [toValue, BinaryFloat.value, of_decide_eq_true hx, if_neg (infMag_pos hF hw).ne]
  cases isNegative x <;> simp [BinaryFloat.finiteValue_zero]

/-- Two numbers that are no NaN and not both zeros, of one value, are one bit pattern. -/
theorem eq_of_toValue_eq {x y : BitVec F.bits} (hx : isNan x = false) (hy : isNan y = false)
    (hz : (isZero x && isZero y) = false) (h : toValue x = toValue y) : x = y := by
  have hkey : signedKey x = signedKey y := by
    rw [← compare_eq_iff_eq, ← compare_toValue hF hw hx hy, compare_eq_iff_eq]
    exact h
  have hxs := toNat_eq_sign_add_abs hF x
  have hys := toNat_eq_sign_add_abs hF y
  rw [isZero_eq, isZero_eq] at hz
  unfold signedKey BinaryFloat.signedMag at hkey
  apply BitVec.eq_of_toNat_eq
  cases hnx : isNegative x <;> cases hny : isNegative y <;>
    simp only [hnx, hny, if_true, if_false, Bool.false_eq_true] at hxs hys hkey <;>
    simp only [Bool.and_eq_false_iff, decide_eq_false_iff_not] at hz <;>
    omega

/-- **Over the IEEE comparison, `minimum` is IEEE 754-2019's `minimum`.** -/
theorem minimum_ieeeCmp (x y : BitVec F.bits) : minimum ieeeCmp x y = ieeeMinimum x y := by
  unfold minimum ieeeMinimum
  by_cases hn : (isNan x || isNan y) = true
  · rw [if_pos hn, if_pos hn]
  · rw [if_neg hn, if_neg hn]
    have hxy : isNan x = false ∧ isNan y = false := by simpa using hn
    by_cases hz : (isZero x && isZero y) = true
    · -- two zeros: the values are equal, and the negative one is the least
      have hzxy : isZero x = true ∧ isZero y = true := by simpa using hz
      rw [if_pos hz, toValue_of_isZero hF hw hzxy.1, toValue_of_isZero hF hw hzxy.2]
      simp
    · rw [if_neg hz, ieeeCmp, if_neg hn, ordLe_some_compare]
      rcases lt_trichotomy (toValue x) (toValue y) with h | h | h
      · simp [h, h.le]
      · -- one value, and not two zeros: one bit pattern
        obtain rfl := eq_of_toValue_eq hF hw hxy.1 hxy.2 (by simpa using hz) h
        simp
      · simp [h, not_le.mpr h, not_lt.mpr h.le]

/-- **Over the IEEE comparison, `maximum` is IEEE 754-2019's `maximum`.** -/
theorem maximum_ieeeCmp (x y : BitVec F.bits) : maximum ieeeCmp x y = ieeeMaximum x y := by
  unfold maximum ieeeMaximum
  by_cases hn : (isNan x || isNan y) = true
  · rw [if_pos hn, if_pos hn]
  · rw [if_neg hn, if_neg hn]
    have hxy : isNan x = false ∧ isNan y = false := by simpa using hn
    by_cases hz : (isZero x && isZero y) = true
    · have hzxy : isZero x = true ∧ isZero y = true := by simpa using hz
      rw [if_pos hz, toValue_of_isZero hF hw hzxy.1, toValue_of_isZero hF hw hzxy.2]
      simp
    · rw [if_neg hz, ieeeCmp, if_neg hn, ordGe_some_compare]
      rcases lt_trichotomy (toValue x) (toValue y) with h | h | h
      · simp [h, not_le.mpr h, not_lt.mpr h.le]
      · obtain rfl := eq_of_toValue_eq hF hw hxy.1 hxy.2 (by simpa using hz) h
        simp
      · simp [h, h.le]

/-! ### `minimum`, `maximum` and their folding over the comparison of the bit patterns -/

omit hF hw in
theorem minimum_congr {cmp cmp' : BitVec F.bits → BitVec F.bits → Option Ordering}
    {x y : BitVec F.bits}
    (h : (isNan x || isNan y) = false → (isZero x && isZero y) = false → cmp x y = cmp' x y) :
    minimum cmp x y = minimum cmp' x y := by
  unfold minimum
  by_cases hn : (isNan x || isNan y) = true
  · rw [if_pos hn, if_pos hn]
  · by_cases hz : (isZero x && isZero y) = true
    · rw [if_neg hn, if_neg hn, if_pos hz, if_pos hz]
    · rw [if_neg hn, if_neg hn, if_neg hz, if_neg hz, h (by simpa using hn) (by simpa using hz)]

omit hF hw in
theorem maximum_congr {cmp cmp' : BitVec F.bits → BitVec F.bits → Option Ordering}
    {x y : BitVec F.bits}
    (h : (isNan x || isNan y) = false → (isZero x && isZero y) = false → cmp x y = cmp' x y) :
    maximum cmp x y = maximum cmp' x y := by
  unfold maximum
  by_cases hn : (isNan x || isNan y) = true
  · rw [if_pos hn, if_pos hn]
  · by_cases hz : (isZero x && isZero y) = true
    · rw [if_neg hn, if_neg hn, if_pos hz, if_pos hz]
    · rw [if_neg hn, if_neg hn, if_neg hz, if_neg hz, h (by simpa using hn) (by simpa using hz)]

/-- Where the comparison of the bit patterns and IEEE's differ, one operand is a zero and the
other one is not, and neither is a NaN. -/
theorem partialCmpBits_eq_ieeeCmp {x y : BitVec F.bits} (hn : (isNan x || isNan y) = false)
    (hz : (isZero x && isZero y) = false) (hc : ((isZero x != isZero y) && !(isNan x || isNan y)) = false) :
    partialCmpBits x y = ieeeCmp x y := by
  rw [partialCmpBits_eq hF hw, if_neg]
  cases hzx : isZero x <;> cases hzy : isZero y <;> simp_all

/-- **`minimum` over the comparison of the bit patterns** is IEEE 754-2019's, except between a
zero and a number that is no zero, neither a NaN: then it is the first operand. -/
theorem minimum_partialCmpBits (x y : BitVec F.bits) :
    minimum partialCmpBits x y =
      if (isZero x != isZero y) && !(isNan x || isNan y) then x else ieeeMinimum x y := by
  by_cases hc : ((isZero x != isZero y) && !(isNan x || isNan y)) = true
  · -- the zero compares equal to the other operand, so that `x <= y`
    have hn : (isNan x || isNan y) = false := by simp_all
    have hz : (isZero x && isZero y) = false := by
      cases hzx : isZero x <;> cases hzy : isZero y <;> simp_all
    have hz' : (isZero x || isZero y) = true := by
      cases hzx : isZero x <;> cases hzy : isZero y <;> simp_all
    rw [if_pos hc, minimum, if_neg (by simp [hn]), if_neg (by simp [hz]),
      partialCmpBits_of_isZero hn hz']
    rfl
  · rw [if_neg hc, ← minimum_ieeeCmp hF hw]
    exact minimum_congr fun hn hz => partialCmpBits_eq_ieeeCmp hF hw hn hz (by simpa using hc)

/-- **`maximum` over the comparison of the bit patterns** is IEEE 754-2019's, except between a
zero and a number that is no zero, neither a NaN: then it is the first operand. -/
theorem maximum_partialCmpBits (x y : BitVec F.bits) :
    maximum partialCmpBits x y =
      if (isZero x != isZero y) && !(isNan x || isNan y) then x else ieeeMaximum x y := by
  by_cases hc : ((isZero x != isZero y) && !(isNan x || isNan y)) = true
  · have hn : (isNan x || isNan y) = false := by simp_all
    have hz : (isZero x && isZero y) = false := by
      cases hzx : isZero x <;> cases hzy : isZero y <;> simp_all
    have hz' : (isZero x || isZero y) = true := by
      cases hzx : isZero x <;> cases hzy : isZero y <;> simp_all
    rw [if_pos hc, maximum, if_neg (by simp [hn]), if_neg (by simp [hz]),
      partialCmpBits_of_isZero hn hz']
    rfl
  · rw [if_neg hc, ← maximum_ieeeCmp hF hw]
    exact maximum_congr fun hn hz => partialCmpBits_eq_ieeeCmp hF hw hn hz (by simpa using hc)

omit hF hw in
theorem nonNan_of_isNan_false {x : BitVec F.bits} (h : isNan x = false) : nonNan x = some x := by
  simp [nonNan, h]

omit hw in
theorem nonNan_nan (ht : 1 ≤ F.significandBits) : nonNan F.nan = none := by
  simp [nonNan, isNan_nan hF ht]

omit hF hw in
theorem ieeeMinimum_mem {x y : BitVec F.bits} (hn : (isNan x || isNan y) = false) :
    ieeeMinimum x y = x ∨ ieeeMinimum x y = y := by
  unfold ieeeMinimum
  rw [if_neg (by simp [hn])]
  split_ifs <;> simp

omit hF hw in
theorem ieeeMaximum_mem {x y : BitVec F.bits} (hn : (isNan x || isNan y) = false) :
    ieeeMaximum x y = x ∨ ieeeMaximum x y = y := by
  unfold ieeeMaximum
  rw [if_neg (by simp [hn])]
  split_ifs <;> simp

omit hw in
/-- Folding over any comparison gives up on a NaN, and otherwise keeps what `minimum` or `maximum`
returns, which is then an operand. -/
theorem nonNan_of_mem (ht : 1 ≤ F.significandBits) {x y r : BitVec F.bits}
    (hr : (isNan x || isNan y) = false → r = x ∨ r = y)
    (hnan : (isNan x || isNan y) = true → r = F.nan) :
    nonNan r = if isNan x || isNan y then none else some r := by
  by_cases hn : (isNan x || isNan y) = true
  · rw [if_pos hn, hnan hn, nonNan_nan hF ht]
  · have hxy : isNan x = false ∧ isNan y = false := by simpa using hn
    rw [if_neg hn]
    rcases hr (by simpa using hn) with rfl | rfl
    · exact nonNan_of_isNan_false hxy.1
    · exact nonNan_of_isNan_false hxy.2

/-- **`f16_min` and `f128_min` fold `fmin` of two constants IEEE's way, except between a zero and
a number that is no zero, neither a NaN, where they keep the first operand.** -/
theorem minConst_partialCmpBits (ht : 1 ≤ F.significandBits) (x y : BitVec F.bits) :
    minConst partialCmpBits x y =
      if isNan x || isNan y then none
      else some (if isZero x != isZero y then x else ieeeMinimum x y) := by
  rw [minConst, minimum_partialCmpBits hF hw, nonNan_of_mem hF ht]
  · by_cases hn : (isNan x || isNan y) = true
    · rw [if_pos hn, if_pos hn]
    · rw [if_neg hn, if_neg hn]
      simp only [Bool.not_eq_true] at hn
      simp [hn]
  · intro hn
    rw [hn, Bool.not_false, Bool.and_true]
    split_ifs
    · exact .inl rfl
    · exact ieeeMinimum_mem hn
  · intro hn
    rw [hn, Bool.not_true, Bool.and_false, if_neg Bool.false_ne_true, ieeeMinimum, if_pos hn]

/-- **`f16_max` and `f128_max`**, likewise. -/
theorem maxConst_partialCmpBits (ht : 1 ≤ F.significandBits) (x y : BitVec F.bits) :
    maxConst partialCmpBits x y =
      if isNan x || isNan y then none
      else some (if isZero x != isZero y then x else ieeeMaximum x y) := by
  rw [maxConst, maximum_partialCmpBits hF hw, nonNan_of_mem hF ht]
  · by_cases hn : (isNan x || isNan y) = true
    · rw [if_pos hn, if_pos hn]
    · rw [if_neg hn, if_neg hn]
      simp only [Bool.not_eq_true] at hn
      simp [hn]
  · intro hn
    rw [hn, Bool.not_false, Bool.and_true]
    split_ifs
    · exact .inl rfl
    · exact ieeeMaximum_mem hn
  · intro hn
    rw [hn, Bool.not_true, Bool.and_false, if_neg Bool.false_ne_true, ieeeMaximum, if_pos hn]

end Order

/-! ### The four immediates -/

/-- **`partial_cmp` of `Ieee16` and `Ieee128` is IEEE 754's comparison, except that a zero is
equal to every number that is no NaN.** -/
theorem partialCmp_ieee16_ieee128 :
    (∀ x y : BitVec ieee16.bits, partialCmpBits x y =
      if (isZero x && !isNan y) || (isZero y && !isNan x) then some .eq else ieeeCmp x y) ∧
    (∀ x y : BitVec ieee128.bits, partialCmpBits x y =
      if (isZero x && !isNan y) || (isZero y && !isNan x) then some .eq else ieeeCmp x y) :=
  ⟨partialCmpBits_eq rfl (by decide), partialCmpBits_eq rfl (by decide)⟩

/-- **`minimum` and `maximum` of `Ieee32` and `Ieee64`, over Rust's IEEE comparison of `f32` and
`f64`, are IEEE 754-2019's.** -/
theorem minimum_maximum_ieee32_ieee64 :
    (∀ x y : BitVec ieee32.bits,
      minimum ieeeCmp x y = ieeeMinimum x y ∧ maximum ieeeCmp x y = ieeeMaximum x y) ∧
    (∀ x y : BitVec ieee64.bits,
      minimum ieeeCmp x y = ieeeMinimum x y ∧ maximum ieeeCmp x y = ieeeMaximum x y) :=
  ⟨fun x y => ⟨minimum_ieeeCmp rfl (by decide) x y, maximum_ieeeCmp rfl (by decide) x y⟩,
    fun x y => ⟨minimum_ieeeCmp rfl (by decide) x y, maximum_ieeeCmp rfl (by decide) x y⟩⟩

/-- **`f16_min`, `f16_max`, `f128_min` and `f128_max` of `isle_prelude` fold `fmin` and `fmax`
IEEE's way, except between a zero and a number that is no zero, neither a NaN, where they keep
the first operand.** -/
theorem minMaxConst_ieee16_ieee128 :
    (∀ x y : BitVec ieee16.bits,
      minConst partialCmpBits x y = (if isNan x || isNan y then none
        else some (if isZero x != isZero y then x else ieeeMinimum x y)) ∧
      maxConst partialCmpBits x y = (if isNan x || isNan y then none
        else some (if isZero x != isZero y then x else ieeeMaximum x y))) ∧
    (∀ x y : BitVec ieee128.bits,
      minConst partialCmpBits x y = (if isNan x || isNan y then none
        else some (if isZero x != isZero y then x else ieeeMinimum x y)) ∧
      maxConst partialCmpBits x y = (if isNan x || isNan y then none
        else some (if isZero x != isZero y then x else ieeeMaximum x y))) :=
  ⟨fun x y => ⟨minConst_partialCmpBits rfl (by decide) (by decide) x y,
      maxConst_partialCmpBits rfl (by decide) (by decide) x y⟩,
    fun x y => ⟨minConst_partialCmpBits rfl (by decide) (by decide) x y,
      maxConst_partialCmpBits rfl (by decide) (by decide) x y⟩⟩

/-- `fmin.f16 1.0, 0.0` folds to `1.0`; IEEE 754's `minimum` is `0.0`. -/
example : minConst partialCmpBits (0x3c00 : BitVec ieee16.bits) 0 = some 0x3c00 := by
  decide

end IeeeFormat

end Cranelift.Ir
