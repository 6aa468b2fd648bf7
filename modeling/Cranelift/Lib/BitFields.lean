import Mathlib.Data.BitVec

/-!
# Fields of bit vectors

The bits of the words that encoders and decoders build out of fields: a field of `n` low bits
masked out and shifted to position `p`; a single bit taken out with `(x >> k) & 1` and moved to
position `p`, as it is or inverted with `^ 1`; a field of `n` copies of one bit, made by
multiplying that bit with the mask of `n` ones; and a single bit picked out with the mask
`1 << b`. Each lemma gives the bit at every position, so that a word assembled with `|` of such
fields is read bit by bit with `BitVec.getLsbD_or`. A word held as a natural number splits the
same way into the or of its fields, read with `Nat.testBit`.

## Main results

* `BitFields.getLsbD_and_mask`, `BitFields.getLsbD_and_mask_shiftLeft` — a low field, in place
  and moved to position `p`.
* `BitFields.getLsbD_bit_shiftLeft`, `BitFields.getLsbD_notBit_shiftLeft` — a bit, or its
  inverse, moved to position `p`.
* `BitFields.getLsbD_bitMul_shiftLeft` — `n` copies of a bit from position `p` on.
* `BitFields.getLsbD_and_one_shiftLeft` — the bit picked out by `1 << b`.
* `BitFields.eq_or_fields` — a word held as a natural number is the or of its fields.
-/

namespace BitFields

variable {w : ℕ}

/-- The mask of `k` ones. -/
theorem getLsbD_ofNat_two_pow_sub_one (k j : ℕ) :
    (BitVec.ofNat w (2 ^ k - 1)).getLsbD j = (decide (j < w) && decide (j < k)) := by
  rw [BitVec.getLsbD_ofNat, Nat.testBit_two_pow_sub_one]

/-- **A low field**: `x & (2^n - 1)` keeps the bits of `x` below `n`. -/
theorem getLsbD_and_mask (x : BitVec w) (n j : ℕ) :
    (x &&& BitVec.ofNat w (2 ^ n - 1)).getLsbD j = (decide (j < n) && x.getLsbD j) := by
  rw [BitVec.getLsbD_and, getLsbD_ofNat_two_pow_sub_one]
  by_cases hj : j < w
  · simp [hj, Bool.and_comm]
  · simp [hj, BitVec.getLsbD_of_ge x j (by omega)]

/-- Multiplying by a bit, `x & 1`, keeps the factor or clears it. -/
theorem and_one_mul (x y : BitVec w) : (x &&& 1#w) * y = if x.getLsbD 0 then y else 0#w := by
  have hx : x &&& 1#w = if x.getLsbD 0 then 1#w else 0#w := by
    apply BitVec.eq_of_getLsbD_eq
    intro j hj
    by_cases h0 : x.getLsbD 0 <;> by_cases hj0 : j = 0 <;> simp [h0, hj0, hj, BitVec.getLsbD_one]
  rw [hx]
  by_cases h0 : x.getLsbD 0 <;> simp [h0]

/-- **A low field at position `p`**: `(x & (2^n - 1)) << p` holds the bits of `x` below `n` at
the positions from `p` on. -/
theorem getLsbD_and_mask_shiftLeft (x : BitVec w) (n p i : ℕ) :
    ((x &&& BitVec.ofNat w (2 ^ n - 1)) <<< p).getLsbD i =
      (decide (p ≤ i ∧ i < p + n ∧ i < w) && x.getLsbD (i - p)) := by
  simp only [BitVec.getLsbD_shiftLeft, BitVec.getLsbD_and, getLsbD_ofNat_two_pow_sub_one]
  by_cases h : p ≤ i ∧ i < p + n ∧ i < w
  · simp [h, show i - p < w by omega, show i - p < n by omega, show ¬ i < p by omega]
  · -- outside the field one of its bounds fails
    rcases (by omega : ¬ i < w ∨ i < p ∨ ¬ i - p < n) with h' | h' | h' <;> simp [h, h']

/-- **A bit at position `p`**: `((x >> k) & 1) << p` holds bit `k` of `x` at `p` and nothing
else. -/
theorem getLsbD_bit_shiftLeft (x : BitVec w) (k p i : ℕ) :
    (((x >>> k) &&& 1#w) <<< p).getLsbD i = (decide (i = p ∧ p < w) && x.getLsbD k) := by
  simp only [BitVec.getLsbD_shiftLeft, BitVec.getLsbD_and, BitVec.getLsbD_ushiftRight,
    BitVec.getLsbD_one]
  by_cases hip : i = p
  · subst hip
    by_cases hiw : i < w
    · simp [hiw, show 0 < w by omega]
    · simp [hiw]
  · -- off position `p` the shifted bit of `1` is zero
    rcases (by omega : i < p ∨ i - p ≠ 0) with h | h <;> simp [h, hip]

/-- **An inverted bit at position `p`**: `(((x >> k) & 1) ^ 1) << p` holds the inverse of bit
`k` of `x` at `p` and nothing else. -/
theorem getLsbD_notBit_shiftLeft (x : BitVec w) (k p i : ℕ) :
    ((((x >>> k) &&& 1#w) ^^^ 1#w) <<< p).getLsbD i =
      (decide (i = p ∧ p < w) && !x.getLsbD k) := by
  simp only [BitVec.getLsbD_shiftLeft, BitVec.getLsbD_xor, BitVec.getLsbD_and,
    BitVec.getLsbD_ushiftRight, BitVec.getLsbD_one]
  by_cases hip : i = p
  · subst hip
    by_cases hiw : i < w
    · simp [hiw, show 0 < w by omega]
    · simp [hiw]
  · rcases (by omega : i < p ∨ i - p ≠ 0) with h | h <;> simp [h, hip]

/-- **Copies of a bit from position `p` on**: `(((x >> k) & 1) * (2^n - 1)) << p` holds bit `k`
of `x` at the `n` positions from `p`. -/
theorem getLsbD_bitMul_shiftLeft (x : BitVec w) (k n p i : ℕ) :
    ((((x >>> k) &&& 1#w) * BitVec.ofNat w (2 ^ n - 1)) <<< p).getLsbD i =
      (decide (p ≤ i ∧ i < p + n ∧ i < w) && x.getLsbD k) := by
  rw [and_one_mul, BitVec.getLsbD_ushiftRight, Nat.add_zero]
  by_cases hk : x.getLsbD k
  · simp only [hk, if_true, BitVec.getLsbD_shiftLeft, getLsbD_ofNat_two_pow_sub_one]
    by_cases h : p ≤ i ∧ i < p + n ∧ i < w
    · simp [h, show i - p < w by omega, show i - p < n by omega, show ¬ i < p by omega]
    · rcases (by omega : ¬ i < w ∨ i < p ∨ ¬ i - p < n) with h' | h' | h' <;> simp [h, h']
  · simp [hk]

/-- **The bit picked out by `1 << b`**: `x & (1 << b)` keeps bit `b` of `x` and clears the
others. -/
theorem getLsbD_and_one_shiftLeft (x : BitVec w) (b j : ℕ) :
    (x &&& (1#w <<< b)).getLsbD j = (decide (j = b ∧ b < w) && x.getLsbD b) := by
  simp only [BitVec.getLsbD_and, BitVec.getLsbD_shiftLeft, BitVec.getLsbD_one]
  by_cases hjb : j = b
  · subst hjb
    by_cases hjw : j < w
    · simp [hjw, show 0 < w by omega]
    · simp [hjw]
  · rcases (by omega : j < b ∨ j - b ≠ 0) with h | h <;> simp [h, hjb]

/-! ### Fields of a natural number -/

/-- **A number is the or of its fields**: the bits below `t`, the `w` bits from `t` on and the
bits from `t + w` on, each in its place. -/
theorem eq_or_fields (x t w : ℕ) :
    x = (x >>> (t + w)) <<< (t + w) ||| (x >>> t % 2 ^ w) <<< t ||| x % 2 ^ t := by
  apply Nat.eq_of_testBit_eq
  intro i
  simp only [Nat.testBit_or, Nat.testBit_shiftLeft, Nat.testBit_shiftRight,
    Nat.testBit_mod_two_pow]
  by_cases h1 : i < t
  · simp [h1, show ¬ t ≤ i by omega, show ¬ t + w ≤ i by omega]
  · by_cases h2 : i < t + w
    · simp [h1, show t ≤ i by omega, show ¬ t + w ≤ i by omega, show i - t < w by omega,
        show t + (i - t) = i by omega]
    · simp [h1, show t ≤ i by omega, show t + w ≤ i by omega, show ¬ i - t < w by omega,
        show t + w + (i - (t + w)) = i by omega]

/-- The low `k + 1` bits of a number are its bit `k` and the bits below it. -/
theorem mod_two_pow_succ_eq_or (x k : ℕ) : x % 2 ^ (k + 1) = x &&& 2 ^ k ||| x % 2 ^ k := by
  apply Nat.eq_of_testBit_eq
  intro i
  simp only [Nat.testBit_or, Nat.testBit_and, Nat.testBit_two_pow, Nat.testBit_mod_two_pow]
  rcases Nat.lt_trichotomy i k with h | rfl | h
  · simp [h, show i < k + 1 by omega, show k ≠ i by omega]
  · simp
  · simp [show ¬ i < k + 1 by omega, show ¬ i < k by omega, show k ≠ i by omega]

/-- The bit `k` of a number, picked out with the mask `2 ^ k`: the mask itself, or zero. -/
theorem and_two_pow (x k : ℕ) : x &&& 2 ^ k = if x.testBit k then 2 ^ k else 0 := by
  apply Nat.eq_of_testBit_eq
  intro i
  by_cases hki : k = i
  · subst hki
    by_cases h : x.testBit k <;> simp [h]
  · by_cases h : x.testBit k <;> simp [h, hki]

/-- A field above the bits of `a` is joined to it by addition. -/
theorem or_mul_two_pow {a k : ℕ} (b : ℕ) (ha : a < 2 ^ k) : a ||| b * 2 ^ k = a + b * 2 ^ k := by
  rw [Nat.or_comm, ← Nat.shiftLeft_eq, ← Nat.shiftLeft_add_eq_or_of_lt ha, Nat.add_comm]

/-- The bit `k` of a number below `2 ^ (k + 1)` is set exactly when it is at least `2 ^ k`. -/
theorem and_two_pow_of_lt {x k : ℕ} (hx : x < 2 ^ (k + 1)) :
    x &&& 2 ^ k = if 2 ^ k ≤ x then 2 ^ k else 0 := by
  have hdiv : x / 2 ^ k < 2 := Nat.div_lt_of_lt_mul (by rwa [Nat.pow_succ] at hx)
  rw [and_two_pow, Nat.testBit_eq_decide_div_mod_eq, Nat.mod_eq_of_lt hdiv]
  by_cases hle : 2 ^ k ≤ x
  · have h1 : 1 ≤ x / 2 ^ k := (Nat.le_div_iff_mul_le (Nat.two_pow_pos k)).mpr (by simpa using hle)
    simp [hle, show x / 2 ^ k = 1 by omega]
  · simp [hle, Nat.div_eq_of_lt (Nat.lt_of_not_le hle)]

end BitFields
