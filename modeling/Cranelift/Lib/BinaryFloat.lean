import Mathlib.Algebra.Order.Field.Rat
import Mathlib.Algebra.Order.Field.Power
import Mathlib.Order.WithBot
import Mathlib.Order.Compare

/-!
# The order of binary floating-point numbers

A binary floating-point number with a trailing significand of `t` bits is stored as a sign bit
above its magnitude bits `p`, which hold the biased exponent `p / 2 ^ t` above the trailing
significand `p % 2 ^ t`. Its value is the trailing significand for a subnormal number (exponent
`0`), and the significand with its hidden bit, shifted by the exponent, for a normal one, in units
of the least subnormal; one value of the magnitude bits is the infinity.

The magnitude bits of the finite numbers are ordered as their values, so that the values of
signed numbers are ordered as the signed integers `±p`: this is why a comparison of the bit
patterns as integers, reversed for negative numbers, is the order of the values.

## Main definitions

* `BinaryFloat.scaled` — the value of magnitude bits in units of the least subnormal.
* `BinaryFloat.value` — the value of a signed number, `±∞` or a rational.
* `BinaryFloat.signedMag` — the signed integer `±p` of a number.

## Main results

* `BinaryFloat.scaled_strictMono` — the values of the magnitude bits grow with them.
* `BinaryFloat.value_lt_value_iff`, `BinaryFloat.compare_value` — two values are ordered as
  their signed integers.
-/

namespace BinaryFloat

/-! ### Magnitudes -/

/-- The value of magnitude bits `p` with a trailing significand of `t` bits, in units of the
least subnormal. -/
def scaled (t p : ℕ) : ℕ :=
  if p / 2 ^ t = 0 then p % 2 ^ t else (2 ^ t + p % 2 ^ t) * 2 ^ (p / 2 ^ t - 1)

variable {t : ℕ}

/-- Below the next power of two of the exponent. -/
theorem scaled_lt (t p : ℕ) : scaled t p < 2 ^ (t + p / 2 ^ t) := by
  have hm : p % 2 ^ t < 2 ^ t := Nat.mod_lt _ (Nat.two_pow_pos t)
  unfold scaled
  split_ifs with he
  · rw [he, Nat.add_zero]
    exact hm
  · -- the significand is below `2 ^ (t + 1)`, shifted by one less than the exponent
    have hsig : 2 ^ t + p % 2 ^ t < 2 ^ (t + 1) :=
      calc 2 ^ t + p % 2 ^ t < 2 ^ t + 2 ^ t := Nat.add_lt_add_left hm _
        _ = 2 ^ (t + 1) := by rw [Nat.pow_succ, Nat.mul_two]
    calc (2 ^ t + p % 2 ^ t) * 2 ^ (p / 2 ^ t - 1) < 2 ^ (t + 1) * 2 ^ (p / 2 ^ t - 1) :=
          Nat.mul_lt_mul_of_pos_right hsig (Nat.two_pow_pos _)
      _ = 2 ^ (t + p / 2 ^ t) := by
          rw [← Nat.pow_add]
          congr 1
          generalize p / 2 ^ t = e at he
          omega

/-- At least the power of two of the exponent, for a normal number. -/
theorem le_scaled {p : ℕ} (he : p / 2 ^ t ≠ 0) : 2 ^ (t + (p / 2 ^ t - 1)) ≤ scaled t p := by
  rw [scaled, if_neg he, Nat.pow_add]
  exact Nat.mul_le_mul_right _ (Nat.le_add_right _ _)

/-- **The values of the magnitude bits grow with them**: within an exponent the trailing
significand grows, and from one exponent to the next the value passes a power of two. -/
theorem scaled_strictMono (t : ℕ) : StrictMono (scaled t) := by
  intro p q hpq
  have hdiv : p / 2 ^ t ≤ q / 2 ^ t := Nat.div_le_div_right hpq.le
  rcases hdiv.eq_or_lt with he | he
  · -- one exponent: the trailing significands are ordered as the bits
    have hmod : p % 2 ^ t < q % 2 ^ t := by
      have hp := Nat.div_add_mod p (2 ^ t)
      have hq := Nat.div_add_mod q (2 ^ t)
      rw [he] at hp
      omega
    unfold scaled
    rw [he]
    split_ifs
    · exact hmod
    · exact Nat.mul_lt_mul_of_pos_right (by omega) (Nat.two_pow_pos _)
  · calc scaled t p < 2 ^ (t + p / 2 ^ t) := scaled_lt t p
      _ ≤ 2 ^ (t + (q / 2 ^ t - 1)) :=
          Nat.pow_le_pow_right (by decide) (Nat.add_le_add_left (Nat.le_sub_one_of_lt he) t)
      _ ≤ scaled t q := le_scaled (Nat.lt_of_le_of_lt (Nat.zero_le _) he).ne'

@[simp] theorem scaled_zero (t : ℕ) : scaled t 0 = 0 := by simp [scaled]

/-! ### Values -/

/-- The value of finite magnitude bits, for an exponent bias `bias`. -/
def finiteValue (t : ℕ) (bias : ℤ) (p : ℕ) : ℚ := scaled t p * 2 ^ (1 - bias - t)

/-- The value of a number of sign `negative` and magnitude bits `p`, where the magnitude bits
`inf` are the infinity. -/
def value (t : ℕ) (bias : ℤ) (inf : ℕ) (negative : Bool) (p : ℕ) : WithBot (WithTop ℚ) :=
  if p = inf then (if negative then ⊥ else ⊤)
  else if negative then ((-finiteValue t bias p : ℚ) : WithTop ℚ)
  else ((finiteValue t bias p : ℚ) : WithTop ℚ)

/-- The signed integer of a number: its magnitude bits, negated for a negative number. -/
def signedMag (negative : Bool) (p : ℕ) : ℤ := if negative then -(p : ℤ) else p

variable {bias : ℤ}

theorem finiteValue_lt_iff {p q : ℕ} : finiteValue t bias p < finiteValue t bias q ↔ p < q := by
  have hunit : (0 : ℚ) < 2 ^ (1 - bias - t) := by positivity
  rw [finiteValue, finiteValue, mul_lt_mul_iff_of_pos_right hunit, Nat.cast_lt]
  exact (scaled_strictMono t).lt_iff_lt

@[simp] theorem finiteValue_zero : finiteValue t bias 0 = 0 := by simp [finiteValue]

theorem finiteValue_nonneg (p : ℕ) : 0 ≤ finiteValue t bias p :=
  mul_nonneg (Nat.cast_nonneg _) (zpow_pos (by norm_num) _).le

theorem finiteValue_pos {p : ℕ} (hp : 0 < p) : 0 < finiteValue t bias p := by
  have h : finiteValue t bias 0 < finiteValue t bias p := finiteValue_lt_iff.mpr hp
  rwa [finiteValue_zero] at h

section Order

variable {inf : ℕ} {p q : ℕ}

theorem coe_coe_lt_coe_coe {x y : ℚ} :
    ((x : WithTop ℚ) : WithBot (WithTop ℚ)) < ((y : WithTop ℚ) : WithBot (WithTop ℚ)) ↔ x < y := by
  rw [WithBot.coe_lt_coe, WithTop.coe_lt_coe]

theorem coe_coe_lt_top (x : ℚ) : ((x : WithTop ℚ) : WithBot (WithTop ℚ)) < ⊤ :=
  WithBot.coe_lt_coe.mpr (WithTop.coe_lt_top x)

theorem bot_lt_coe_coe (x : ℚ) : ⊥ < ((x : WithTop ℚ) : WithBot (WithTop ℚ)) :=
  WithBot.bot_lt_coe _

/-- The order of two positive numbers: that of their magnitude bits. -/
theorem value_false_lt_iff (hp : p ≤ inf) (hq : q ≤ inf) :
    value t bias inf false p < value t bias inf false q ↔ p < q := by
  unfold value
  by_cases hpi : p = inf <;> by_cases hqi : q = inf <;> simp only [hpi, hqi, if_true, if_false,
    Bool.false_eq_true]
  · simp
  · simp only [not_top_lt, false_iff, not_lt]
    omega
  · simpa [coe_coe_lt_top] using lt_of_le_of_ne hp hpi
  · exact coe_coe_lt_coe_coe.trans finiteValue_lt_iff

/-- The order of two negative numbers: the reverse of that of their magnitude bits. -/
theorem value_true_lt_iff (hp : p ≤ inf) (hq : q ≤ inf) :
    value t bias inf true p < value t bias inf true q ↔ q < p := by
  unfold value
  by_cases hpi : p = inf <;> by_cases hqi : q = inf <;> simp only [hpi, hqi, if_true, if_false]
  · simp
  · simpa [bot_lt_coe_coe] using lt_of_le_of_ne hq hqi
  · simp only [not_lt_bot, false_iff, not_lt]
    omega
  · rw [coe_coe_lt_coe_coe, neg_lt_neg_iff]
    exact finiteValue_lt_iff

/-- A positive number is never below a negative one. -/
theorem not_value_false_lt_true (p q : ℕ) :
    ¬ value t bias inf false p < value t bias inf true q := by
  unfold value
  by_cases hpi : p = inf <;> by_cases hqi : q = inf <;>
    simp only [hpi, hqi, if_true, if_false, Bool.false_eq_true, not_lt]
  · exact le_top
  · exact le_top
  · exact bot_le
  · rw [WithBot.coe_le_coe, WithTop.coe_le_coe]
    exact (neg_nonpos.mpr (finiteValue_nonneg q)).trans (finiteValue_nonneg p)

/-- A negative number is below a positive one unless both are zeros. -/
theorem value_true_lt_false_iff (hinf : 0 < inf) (hp : p ≤ inf) (hq : q ≤ inf) :
    value t bias inf true p < value t bias inf false q ↔ 0 < p ∨ 0 < q := by
  unfold value
  by_cases hpi : p = inf <;> by_cases hqi : q = inf <;>
    simp only [hpi, hqi, if_true, if_false, Bool.false_eq_true]
  · exact iff_of_true bot_lt_top (Or.inl hinf)
  · exact iff_of_true (bot_lt_coe_coe _) (Or.inl hinf)
  · exact iff_of_true (coe_coe_lt_top _) (Or.inr hinf)
  · rw [coe_coe_lt_coe_coe]
    constructor
    · intro h
      by_contra hzero
      obtain ⟨rfl, rfl⟩ : p = 0 ∧ q = 0 := by omega
      simp [finiteValue] at h
    · rintro (h | h)
      · exact (neg_neg_of_pos (finiteValue_pos h)).trans_le (finiteValue_nonneg q)
      · exact (neg_nonpos.mpr (finiteValue_nonneg p)).trans_lt (finiteValue_pos h)

/-- **Two values are ordered as their signed integers**, for magnitude bits up to the infinity. -/
theorem value_lt_value_iff (hinf : 0 < inf) {a b : Bool} (hp : p ≤ inf) (hq : q ≤ inf) :
    value t bias inf a p < value t bias inf b q ↔ signedMag a p < signedMag b q := by
  cases a <;> cases b <;> simp only [signedMag, if_true, if_false, Bool.false_eq_true]
  · rw [value_false_lt_iff hp hq]
    omega
  · simp only [not_value_false_lt_true, false_iff, not_lt]
    omega
  · rw [value_true_lt_false_iff hinf hp hq]
    omega
  · rw [value_true_lt_iff hp hq]
    omega

/-- Two pairs compare alike when their strict orders agree both ways. -/
theorem compare_eq_compare {α β : Type*} [LinearOrder α] [LinearOrder β] {a b : α} {a' b' : β}
    (hlt : a < b ↔ a' < b') (hgt : b < a ↔ b' < a') : compare a b = compare a' b' := by
  rcases lt_trichotomy a' b' with h | h | h
  · rw [compare_lt_iff_lt.mpr h, compare_lt_iff_lt]
    exact hlt.mpr h
  · rw [compare_eq_iff_eq.mpr h, compare_eq_iff_eq]
    exact le_antisymm (not_lt.mp fun h' => (hgt.mp h').ne h.symm)
      (not_lt.mp fun h' => (hlt.mp h').ne h)
  · rw [compare_gt_iff_gt.mpr h, compare_gt_iff_gt]
    exact hgt.mpr h

/-- **Comparing two values compares their signed integers.** -/
theorem compare_value (hinf : 0 < inf) {a b : Bool} (hp : p ≤ inf) (hq : q ≤ inf) :
    compare (value t bias inf a p) (value t bias inf b q) =
      compare (signedMag a p) (signedMag b q) :=
  compare_eq_compare (value_lt_value_iff hinf hp hq) (value_lt_value_iff hinf hq hp)

end Order

end BinaryFloat
