import Cranelift.Lib.Numerals
import Cranelift.Lib.LeadingZeros
import Cranelift.Lib.BitFields

/-!
# The text form of the IEEE immediates

The float immediates of Cranelift IR, `Ieee16`, `Ieee32`, `Ieee64` and `Ieee128`, hold the bit
pattern of an IEEE binary interchange format with an exponent field of `w` bits and a trailing
significand field of `t` bits. `format_float` writes a pattern as text: `0.0` for a zero, the
hexadecimal significand and a binary exponent (`0x1.<digits>p<e>`, and `0x0.<digits>p<emin>` for a
subnormal) for a finite number, and `Inf`, `NaN`, `NaN:0x<payload>` or `sNaN:0x<payload>`, always
signed, for the others. `parse_float` reads the text back: it reads the digits and the radix
point, normalizes the significand to `t + 1` bits and the exponent with it, rebiases the exponent
and renormalizes a subnormal number.

Printing and reading back gives the pattern again, for every format whose exponent fits an
`i16` and whose significand fits the digit limit of the reader, and whatever text it is given,
the reader returns a pattern of `1 + w + t` bits or an error, so that `FromStr` never panics
when it narrows the pattern to the type.

## Main definitions

* `Cranelift.Ir.formatFloat`, `Cranelift.Ir.parseFloat` — `format_float` and `parse_float`.
* `Cranelift.Ir.IeeeFormat.display`, `Cranelift.Ir.IeeeFormat.fromStr` — `Display` and `FromStr`
  of the immediates.

## Implementation notes

A `u128` is a natural number. Under the `debug_assert!`s of the two functions no shift of a
value of the source loses a bit, except possibly the two that the input text controls, the digit
loop's `significand << 4` and the normalizing `significand <<= adjust`, which keep their
`% 2 ^ 128`. The formatter's output is the list of the characters written to it.
-/

namespace Cranelift.Ir

open Numerals

/-! ### `format_float` -/

/-- `format_float(bits, w, t, f)`: the characters it writes. -/
def formatFloat (bits w t : ℕ) : List Char :=
  let maxEBits := (1 <<< w) - 1
  let tBits := bits &&& ((1 <<< t) - 1)
  let eBits := (bits >>> t) &&& maxEBits
  let signBit := (bits >>> (w + t)) &&& 1
  let bias : ℤ := 2 ^ (w - 1) - 1
  let e : ℤ := eBits - bias
  let emin := 1 - bias
  -- the trailing significand, left-aligned in `digits` hexadecimal digits
  let digits := (t + 3) / 4
  let leftTBits := tBits <<< (4 * digits - t)
  (if signBit ≠ 0 then ['-'] else []) ++
    if eBits = 0 then
      if tBits = 0 then ['0', '.', '0']
      else ['0', 'x', '0', '.'] ++ lowerHexPadded digits leftTBits ++ 'p' :: displayInt emin
    else if eBits = maxEBits then
      -- infinities and NaNs are always signed
      (if signBit = 0 then ['+'] else []) ++
        if tBits = 0 then ['I', 'n', 'f']
        else
          let payload := tBits &&& ((1 <<< (t - 1)) - 1)
          if tBits &&& (1 <<< (t - 1)) ≠ 0 then
            if payload ≠ 0 then ['N', 'a', 'N', ':', '0', 'x'] ++ lowerHex payload
            else ['N', 'a', 'N']
          else ['s', 'N', 'a', 'N', ':', '0', 'x'] ++ lowerHex payload
    else ['0', 'x', '1', '.'] ++ lowerHexPadded digits leftTBits ++ 'p' :: displayInt e

/-! ### `parse_float` -/

/-- The sign of `parse_float`'s text: the sign bit it stands for, and the rest of the text. -/
def stripSign (w t : ℕ) : List Char → ℕ × List Char
  | '-' :: num => (1 <<< (t + w), num)
  | '+' :: num => (0, num)
  | s => (0, s)

/-- The texts that `parse_float` reads when they do not begin with `0x`: a zero, the infinities
and the NaNs. -/
def parseSpecial (signBit w t : ℕ) (s2 : List Char) : Except String ℕ :=
  let maxEBits := ((1 <<< w) - 1) <<< t
  let quietBit := 1 <<< (t - 1)
  if s2 = ['0', '.', '0'] then .ok signBit
  else if s2 = ['I', 'n', 'f'] then .ok (signBit ||| maxEBits)
  else if s2 = ['N', 'a', 'N'] then .ok (signBit ||| maxEBits ||| quietBit)
  else
    match ['N', 'a', 'N', ':', '0', 'x'].isPrefixOf? s2 with
    | some nan =>
      match fromStrRadixU 128 16 nan with
      | some payload =>
        if payload < quietBit then .ok (signBit ||| maxEBits ||| quietBit ||| payload)
        else .error "Invalid NaN payload"
      | none => .error "Invalid NaN payload"
    | none =>
      match ['s', 'N', 'a', 'N', ':', '0', 'x'].isPrefixOf? s2 with
      | some nan =>
        match fromStrRadixU 128 16 nan with
        | some payload =>
          if 0 < payload ∧ payload < quietBit then .ok (signBit ||| maxEBits ||| payload)
          else .error "Invalid sNaN payload"
        | none => .error "Invalid sNaN payload"
      | none => .error "Float must be hexadecimal"

/-- The variables of `parse_float`'s digit loop. -/
structure DigitState where
  digits : ℕ
  digitsBeforePeriod : Option ℕ
  significand : ℕ
  deriving DecidableEq, Repr

/-- The digit loop of `parse_float`, over the characters after `0x`: a radix point, a
hexadecimal digit, or `p` and the decimal exponent after it, which ends the loop. Returns the
variables and the exponent. -/
def parseLoop : List Char → DigitState → Except String (DigitState × ℤ)
  | [], st => .ok (st, 0)
  | ch :: cs, st =>
    if ch = '.' then
      if st.digitsBeforePeriod ≠ none then .error "Multiple radix points"
      else parseLoop cs { st with digitsBeforePeriod := some st.digits }
    else if ch = 'p' then
      match fromStrRadixI 16 10 cs with
      | some e => .ok (st, e)
      | none => .error "Bad exponent"
    else
      match toDigit ch 16 with
      | some digit =>
        if 32 < st.digits + 1 then .error "Too many digits"
        else
          parseLoop cs { st with
            digits := st.digits + 1
            significand := (st.significand <<< 4) % 2 ^ 128 ||| digit }
      | none => .error "Invalid character"

/-- `u128::leading_zeros`. -/
def leadingZeros (x : ℕ) : ℕ := (BitVec.ofNat 128 x).clz.toNat

/-- The normalization of `parse_float`: the significand shifted to `t + 1` significant bits, a
shift down that would lose a bit being an error, and the exponent adjusted with it. -/
def normalize (t significand : ℕ) (exponent : ℤ) : Except String (ℕ × ℤ) :=
  let significantBits := 128 - leadingZeros significand
  if t + 1 < significantBits then
    let adjust := significantBits - (t + 1)
    if significand &&& ((1 <<< adjust) - 1) ≠ 0 then .error "Too many significant bits"
    else .ok (significand >>> adjust, exponent + adjust)
  else
    let adjust := t + 1 - significantBits
    .ok ((significand <<< adjust) % 2 ^ 128, exponent - adjust)

/-- The end of `parse_float`: a normalized significand and its exponent, rebiased, as a normal
number, or as a subnormal one renormalized for the exponent `1`. -/
def encode (signBit w t significand : ℕ) (exponent : ℤ) : Except String ℕ :=
  -- the trailing significand excludes the high bit
  let tBits := significand &&& ((1 <<< t) - 1)
  let maxExp : ℤ := 2 ^ w - 2
  let bias : ℤ := 2 ^ (w - 1) - 1
  let exponent := exponent + (bias + t)
  if exponent > maxExp then .error "Magnitude too large"
  else if exponent > 0 then .ok (signBit ||| exponent.toNat <<< t ||| tBits)
  else if 1 - exponent ≤ t then
    let adjust := (1 - exponent).toNat
    if significand &&& ((1 <<< adjust) - 1) ≠ 0 then .error "Subnormal underflow"
    else .ok (signBit ||| significand >>> adjust)
  else .error "Magnitude too small"

/-- `parse_float` after the sign: the text `s2`, with the sign bit `signBit` that the sign
stood for. -/
def parseUnsigned (signBit w t : ℕ) (s2 : List Char) : Except String ℕ :=
  match s2 with
  | '0' :: 'x' :: s3 =>
    match parseLoop s3 ⟨0, none, 0⟩ with
    | .error e => .error e
    | .ok (st, exponent) =>
      if st.digits = 0 then .error "No digits"
      else if st.significand = 0 then .ok signBit
      else
        -- the number of bits after the radix point
        let exponent := match st.digitsBeforePeriod with
          | none => exponent
          | some d => exponent - 4 * ((st.digits - d : ℕ) : ℤ)
        match normalize t st.significand exponent with
        | .error e => .error e
        | .ok (significand, exponent) => encode signBit w t significand exponent
  | _ => parseSpecial signBit w t s2

/-- `parse_float(s, w, t)`. -/
def parseFloat (s : List Char) (w t : ℕ) : Except String ℕ :=
  let (signBit, s2) := stripSign w t s
  parseUnsigned signBit w t s2

example : parseFloat ['0', 'x', '1', '.', '8', 'p', '0'] 8 23 = .ok 0x3fc00000 := by decide

/-! ### The immediates -/

/-- An `ieee_float!` type: the width of its bit pattern and of its trailing significand. -/
structure IeeeFormat where
  bits : ℕ
  significandBits : ℕ

/-- `EXPONENT_BITS`. -/
def IeeeFormat.exponentBits (F : IeeeFormat) : ℕ := F.bits - F.significandBits - 1

/-- `Ieee16`. -/
def ieee16 : IeeeFormat := ⟨16, 10⟩

/-- `Ieee32`. -/
def ieee32 : IeeeFormat := ⟨32, 23⟩

/-- `Ieee64`. -/
def ieee64 : IeeeFormat := ⟨64, 52⟩

/-- `Ieee128`. -/
def ieee128 : IeeeFormat := ⟨128, 112⟩

/-- `Display`: `format_float` of the bit pattern. -/
def IeeeFormat.display (F : IeeeFormat) (x : BitVec F.bits) : List Char :=
  formatFloat x.toNat F.exponentBits F.significandBits

/-- `FromStr`: `parse_float`, and the pattern narrowed to the type by `try_into().unwrap()`,
`none` standing for its panic. -/
def IeeeFormat.fromStr (F : IeeeFormat) (s : List Char) : Option (Except String (BitVec F.bits)) :=
  match parseFloat s F.exponentBits F.significandBits with
  | .ok b => if b < 2 ^ F.bits then some (.ok (BitVec.ofNat F.bits b)) else none
  | .error e => some (.error e)

/-! ### Reading the digits -/

theorem toDigit_ne_point {c : Char} {d : ℕ} (h : toDigit c 16 = some d) : c ≠ '.' ∧ c ≠ 'p' := by
  have hpoint : toDigit '.' 16 = none := by decide
  have hp : toDigit 'p' 16 = none := by decide
  constructor
  · rintro rfl
    rw [hpoint] at h
    cases h
  · rintro rfl
    rw [hp] at h
    cases h

/-- **A run of hexadecimal digits is read into the significand**, when the digits stay within
the limit: the significand becomes the value of the digits read after it. -/
theorem parseLoop_hexDigits {l : List Char} (hl : ∀ c ∈ l, ∃ d, toDigit c 16 = some d)
    (rest : List Char) {st : DigitState} (hlen : st.digits + l.length ≤ 32)
    (hs : st.significand < 16 ^ st.digits) :
    parseLoop (l ++ rest) st =
      parseLoop rest { st with
        digits := st.digits + l.length
        significand := charsValue 16 l st.significand } := by
  induction l generalizing st with
  | nil => rfl
  | cons c cs ih =>
    obtain ⟨d, hd⟩ := hl c List.mem_cons_self
    obtain ⟨hpoint, hp⟩ := toDigit_ne_point hd
    have hd16 : d < 16 := lt_of_toDigit_eq_some hd
    rw [List.length_cons] at hlen
    have h31 : 16 ^ st.digits ≤ 16 ^ 31 := Nat.pow_le_pow_right (by decide) (by omega)
    have hnext : st.significand * 16 + d < 16 ^ (st.digits + 1) := by
      rw [Nat.pow_succ]
      omega
    rw [List.cons_append, parseLoop, if_neg hpoint, if_neg hp, hd]
    simp only
    rw [if_neg (by omega), shiftLeft_four_mod_or (by omega) hd16,
      ih (fun c' hc' => hl c' (List.mem_cons_of_mem c hc')) (by simp only; omega) hnext,
      charsValue_cons, hd, Option.getD_some, List.length_cons, Nat.add_assoc, Nat.add_comm 1]

/-- **The text of a finite number is read** into its digit count, the one digit before the
radix point, the value of all digits and the exponent after `p`. -/
theorem parseLoop_hexText {c : Char} {lead : ℕ} (hc : toDigit c 16 = some lead) {D L : ℕ}
    (hD0 : 0 < D) (hD : D < 32) (hL : L < 16 ^ D) {e : ℤ} (hlo : -2 ^ 15 ≤ e)
    (hhi : e < 2 ^ 15) :
    parseLoop (c :: '.' :: (lowerHexPadded D L ++ 'p' :: displayInt e)) ⟨0, none, 0⟩ =
      .ok (⟨D + 1, some 1, lead * 16 ^ D + L⟩, e) := by
  have hlead : lead < 16 := lt_of_toDigit_eq_some hc
  -- the leading digit, as a run of one digit
  have hfirst := @parseLoop_hexDigits [c] (by simpa using ⟨lead, hc⟩)
    ('.' :: (lowerHexPadded D L ++ 'p' :: displayInt e)) ⟨0, none, 0⟩ (by simp) (by simp)
  simp only [List.singleton_append, List.length_singleton, Nat.zero_add, charsValue_cons, hc,
    Option.getD_some, Nat.zero_mul, charsValue_nil] at hfirst
  rw [hfirst, parseLoop, if_pos rfl]
  simp only [ne_eq, not_true_eq_false, if_false]
  rw [parseLoop_hexDigits (fun c' hc' => toDigit_of_mem_lowerHexPadded hc') _
    (by simp only; rw [length_lowerHexPadded hD0 hL]; omega) (by simp only; omega),
    length_lowerHexPadded hD0 hL, charsValue_lowerHexPadded hD0 hL, parseLoop,
    if_neg (by decide), if_pos rfl, fromStrRadixI_displayInt (n := 16) hlo hhi, Nat.add_comm 1 D]

/-! ### Normalizing and rebiasing -/

/-- Below `2 ^ 128` the significant bits that `128 - leading_zeros` counts are the size. -/
theorem significantBits_eq {x : ℕ} (hx : x < 2 ^ 128) : 128 - leadingZeros x = x.size := by
  rw [leadingZeros, LeadingZeros.toNat_clz, BitVec.toNat_ofNat, Nat.mod_eq_of_lt hx]
  have := Nat.size_le.mpr hx
  omega

/-- **Normalizing a shifted significand** `m * 2 ^ k`, with `m` of at most `t + 1` bits, shifts
`m` up to `t + 1` bits and takes the shifts from the exponent: no bit is lost on the way down,
since the bits below `k` are zero. -/
theorem normalize_mul_two_pow {t m k : ℕ} (ht : t + 1 ≤ 128) (hm : 0 < m)
    (hms : m.size ≤ t + 1) (hlt : m * 2 ^ k < 2 ^ 128) (x : ℤ) :
    normalize t (m * 2 ^ k) x =
      .ok (m * 2 ^ (t + 1 - m.size), x + k - ((t + 1 - m.size : ℕ) : ℤ)) := by
  have hsize : (m * 2 ^ k).size = m.size + k := by
    rw [← Nat.shiftLeft_eq, Nat.size_shiftLeft (by omega)]
  simp only [normalize, significantBits_eq hlt, hsize, Nat.one_shiftLeft,
    Nat.and_two_pow_sub_one_eq_mod]
  split_ifs with hdown hlost
  · -- the bits below the shift are among the `k` zero bits
    exact absurd (Nat.mod_eq_zero_of_dvd
      (Dvd.dvd.mul_left (Nat.pow_dvd_pow 2 (by omega)) m)) hlost
  · -- shifted down by `m.size + k - (t + 1)`, at most `k`
    have hk : 2 ^ k = 2 ^ (t + 1 - m.size) * 2 ^ (m.size + k - (t + 1)) := by
      rw [← Nat.pow_add]
      congr 1
      omega
    have hdiv : (m * 2 ^ k) >>> (m.size + k - (t + 1)) = m * 2 ^ (t + 1 - m.size) := by
      rw [Nat.shiftRight_eq_div_pow, hk, ← Nat.mul_assoc, Nat.mul_div_cancel _ (Nat.two_pow_pos _)]
    rw [hdiv]
    congr 2
    omega
  · -- shifted up to `t + 1` bits, which fit the `u128`
    have hup : (m * 2 ^ k) <<< (t + 1 - (m.size + k)) = m * 2 ^ (t + 1 - m.size) := by
      rw [Nat.shiftLeft_eq, Nat.mul_assoc, ← Nat.pow_add]
      congr 2
      omega
    have hfit : m * 2 ^ (t + 1 - m.size) < 2 ^ 128 := by
      calc m * 2 ^ (t + 1 - m.size) < 2 ^ m.size * 2 ^ (t + 1 - m.size) :=
            Nat.mul_lt_mul_of_pos_right (Nat.lt_size_self m) (Nat.two_pow_pos _)
        _ = 2 ^ (t + 1) := by
          rw [← Nat.pow_add]
          congr 1
          omega
        _ ≤ 2 ^ 128 := Nat.pow_le_pow_right (by decide) ht
    rw [hup, Nat.mod_eq_of_lt hfit]
    congr 2
    omega

/-- **A normal number is encoded** with its biased exponent and its trailing significand, the
significand having `t + 1` bits. -/
theorem encode_normal {w t f eb : ℕ} (hf : f < 2 ^ t) (heb1 : 1 ≤ eb) (heb : eb + 2 ≤ 2 ^ w)
    (sb : ℕ) {x : ℤ} (hx : x + ((2 : ℤ) ^ (w - 1) - 1 + t) = eb) :
    encode sb w t (2 ^ t + f) x = .ok (sb ||| eb <<< t ||| f) := by
  have htb : (2 ^ t + f) &&& ((1 <<< t) - 1) = f := by
    rw [Nat.one_shiftLeft, Nat.and_two_pow_sub_one_eq_mod, Nat.add_mod_left, Nat.mod_eq_of_lt hf]
  have hpow : ((2 ^ w : ℕ) : ℤ) = 2 ^ w := by push_cast; rfl
  simp only [encode, htb, hx]
  rw [if_neg (by omega), if_pos (by omega), Int.toNat_natCast]

/-- **A subnormal number is encoded** with the exponent field `0`: its significand, normalized
to `t + 1` bits, is shifted back down, and the shift loses no bit. -/
theorem encode_subnormal {w t f : ℕ} (hw : 1 ≤ w) (hf0 : 0 < f) (hf : f < 2 ^ t) (sb : ℕ)
    {x : ℤ} (hx : x + ((2 : ℤ) ^ (w - 1) - 1 + t) = (f.size : ℤ) - t) :
    encode sb w t (f * 2 ^ (t + 1 - f.size)) x = .ok (sb ||| f) := by
  have hsize : f.size ≤ t := Nat.size_le.mpr hf
  have hsize0 : 0 < f.size := Nat.size_pos.mpr hf0
  have hw2 : 2 ≤ 2 ^ w := Nat.le_self_pow (by omega) 2
  have hpow : ((2 ^ w : ℕ) : ℤ) = 2 ^ w := by push_cast; rfl
  have hadj : (1 - ((f.size : ℤ) - t)).toNat = t + 1 - f.size := by omega
  have hlow : f * 2 ^ (t + 1 - f.size) &&& ((1 <<< (t + 1 - f.size)) - 1) = 0 := by
    rw [Nat.one_shiftLeft, Nat.and_two_pow_sub_one_eq_mod, Nat.mul_mod_left]
  have hdown : (f * 2 ^ (t + 1 - f.size)) >>> (t + 1 - f.size) = f := by
    rw [Nat.shiftRight_eq_div_pow, Nat.mul_div_cancel _ (Nat.two_pow_pos _)]
  simp only [encode, hx, hadj]
  rw [if_neg (by omega), if_neg (by omega), if_pos (by omega), hlow, hdown]
  rfl

/-! ### Reading back a finite number -/

/-- **The text of a finite number is parsed** by normalizing the value of its digits, the exponent
having lost four bits for each digit after the radix point, and encoding the result. -/
theorem parseUnsigned_hexText {c : Char} {lead : ℕ} (hc : toDigit c 16 = some lead) {D L : ℕ}
    (hD0 : 0 < D) (hD : D < 32) (hL : L < 16 ^ D) {e : ℤ} (hlo : -2 ^ 15 ≤ e)
    (hhi : e < 2 ^ 15) (hne : lead * 16 ^ D + L ≠ 0) (signBit w t : ℕ) :
    parseUnsigned signBit w t ('0' :: 'x' :: c :: '.' :: (lowerHexPadded D L ++ 'p' :: displayInt e)) =
      match normalize t (lead * 16 ^ D + L) (e - 4 * (D : ℤ)) with
      | .error e => .error e
      | .ok (significand, exponent) => encode signBit w t significand exponent := by
  simp only [parseUnsigned]
  rw [parseLoop_hexText hc hD0 hD hL hlo hhi]
  simp only [Nat.add_one_ne_zero, if_false]
  rw [if_neg hne, Nat.add_sub_cancel]

/-! ### Reading back the signs and the special values -/

/-- The sign of a text that begins with a digit: `-` for a set sign bit, nothing for a clear
one. -/
theorem parseFloat_signed {S : ℕ} (hS : S < 2) (w t : ℕ) (rest : List Char) :
    parseFloat ((if S ≠ 0 then ['-'] else []) ++ '0' :: rest) w t =
      parseUnsigned (S <<< (t + w)) w t ('0' :: rest) := by
  rcases (by omega : S = 0 ∨ S = 1) with rfl | rfl
  · rw [Nat.zero_shiftLeft]
    rfl
  · rfl

/-- The sign of an infinity or a NaN, which is always written. -/
theorem parseFloat_special {S : ℕ} (hS : S < 2) (w t : ℕ) (s : List Char) :
    parseFloat ((if S ≠ 0 then ['-'] else []) ++ ((if S = 0 then ['+'] else []) ++ s)) w t =
      parseUnsigned (S <<< (t + w)) w t s := by
  rcases (by omega : S = 0 ∨ S = 1) with rfl | rfl
  · rw [Nat.zero_shiftLeft]
    rfl
  · rfl

theorem parseUnsigned_zero (sb w t : ℕ) : parseUnsigned sb w t ['0', '.', '0'] = .ok sb := rfl

theorem parseUnsigned_inf (sb w t : ℕ) :
    parseUnsigned sb w t ['I', 'n', 'f'] = .ok (sb ||| ((1 <<< w) - 1) <<< t) := rfl

theorem parseUnsigned_nan (sb w t : ℕ) :
    parseUnsigned sb w t ['N', 'a', 'N'] = .ok (sb ||| ((1 <<< w) - 1) <<< t ||| 1 <<< (t - 1)) :=
  rfl

/-- A quiet NaN with a payload reads back. -/
theorem parseUnsigned_nanPayload {t p : ℕ} (ht : t ≤ 128) (hp : p < 2 ^ (t - 1)) (sb w : ℕ) :
    parseUnsigned sb w t (['N', 'a', 'N', ':', '0', 'x'] ++ lowerHex p) =
      .ok (sb ||| ((1 <<< w) - 1) <<< t ||| 1 <<< (t - 1) ||| p) := by
  have hp128 : p < 2 ^ 128 := lt_of_lt_of_le hp (Nat.pow_le_pow_right (by decide) (by omega))
  simp [parseUnsigned, parseSpecial, List.isPrefixOf?, fromStrRadixU_lowerHex hp128,
    Nat.one_shiftLeft, hp]

/-- A signalling NaN reads back. -/
theorem parseUnsigned_sNaN {t p : ℕ} (ht : t ≤ 128) (hp0 : 0 < p) (hp : p < 2 ^ (t - 1))
    (sb w : ℕ) :
    parseUnsigned sb w t (['s', 'N', 'a', 'N', ':', '0', 'x'] ++ lowerHex p) =
      .ok (sb ||| ((1 <<< w) - 1) <<< t ||| p) := by
  have hp128 : p < 2 ^ 128 := lt_of_lt_of_le hp (Nat.pow_le_pow_right (by decide) (by omega))
  simp [parseUnsigned, parseSpecial, List.isPrefixOf?, fromStrRadixU_lowerHex hp128,
    Nat.one_shiftLeft, hp, hp0]

/-- The facts on the formats that the round trip rests on: the `debug_assert!`s of
`format_float` and `parse_float` (an exponent field of `1` to `16` bits, a pattern of at most `128`
bits), a trailing significand of at least one bit, whose hexadecimal digits and the leading one
keep to the reader's limit of `32` digits. -/
structure Valid (w t : ℕ) : Prop where
  one_le_w : 1 ≤ w
  w_le : w ≤ 16
  one_le_t : 1 ≤ t
  size_le : 1 + w + t ≤ 128
  digits_lt : (t + 3) / 4 < 32

section RoundTrip

variable {w t : ℕ} (hv : Valid w t)
include hv

omit hv in
/-- The trailing significand, left-aligned in the hexadecimal digits, has no more digits than
them. -/
theorem leftTBits_lt {f : ℕ} (hf : f < 2 ^ t) :
    f <<< (4 * ((t + 3) / 4) - t) < 16 ^ ((t + 3) / 4) := by
  have h16 : 16 ^ ((t + 3) / 4) = 2 ^ t * 2 ^ (4 * ((t + 3) / 4) - t) := by
    rw [show (16 : ℕ) = 2 ^ 4 by rfl, ← Nat.pow_mul, ← Nat.pow_add]
    congr 1
    omega
  rw [Nat.shiftLeft_eq, h16]
  exact Nat.mul_lt_mul_of_pos_right hf (Nat.two_pow_pos _)

/-- The biases of the formats: the exponent of every finite number fits an `i16`. -/
theorem bias_bounds : 1 ≤ 2 ^ (w - 1) ∧ 2 ^ (w - 1) ≤ 2 ^ 15 ∧ 2 ^ w = 2 * 2 ^ (w - 1) := by
  have hw := hv.one_le_w
  refine ⟨Nat.one_le_two_pow, Nat.pow_le_pow_right (by decide) (by have := hv.w_le; omega), ?_⟩
  rw [← Nat.pow_succ']
  congr 1
  omega

/-- **A normal number reads back**: `0x1.<digits>p<e>` with the trailing significand `f` in the
digits and the unbiased exponent `e` is the number with the biased exponent `eb` and the trailing
significand `f`. -/
theorem parseUnsigned_normal {f eb : ℕ} (hf : f < 2 ^ t) (heb1 : 1 ≤ eb) (heb : eb + 2 ≤ 2 ^ w)
    (sb : ℕ) :
    parseUnsigned sb w t (['0', 'x', '1', '.'] ++ lowerHexPadded ((t + 3) / 4)
      (f <<< (4 * ((t + 3) / 4) - t)) ++ 'p' :: displayInt ((eb : ℤ) - (2 ^ (w - 1) - 1))) =
      .ok (sb ||| eb <<< t ||| f) := by
  obtain ⟨hb1, hb15, hbw⟩ := bias_bounds hv
  have hbias : ((2 ^ (w - 1) : ℕ) : ℤ) = 2 ^ (w - 1) := by push_cast; rfl
  have ht := hv.one_le_t
  have hD := hv.digits_lt
  -- the unbiased exponent fits an `i16`
  have hlo : -2 ^ 15 ≤ (eb : ℤ) - (2 ^ (w - 1) - 1) := by omega
  have hhi : (eb : ℤ) - (2 ^ (w - 1) - 1) < 2 ^ 15 := by omega
  -- the digits are the significand `2 ^ t + f`, shifted up to a whole number of digits
  have hsig : 1 * 16 ^ ((t + 3) / 4) + f <<< (4 * ((t + 3) / 4) - t) =
      (2 ^ t + f) * 2 ^ (4 * ((t + 3) / 4) - t) := by
    rw [Nat.one_mul, Nat.shiftLeft_eq, Nat.add_mul, ← Nat.pow_add,
      show (16 : ℕ) = 2 ^ 4 by rfl, ← Nat.pow_mul]
    congr 2
    omega
  have hsize : (2 ^ t + f).size = t + 1 := by
    apply Nat.le_antisymm
    · rw [Nat.size_le, Nat.pow_succ]
      omega
    · exact Nat.lt_size.mpr (Nat.le_add_right _ _)
  have hfit : (2 ^ t + f) * 2 ^ (4 * ((t + 3) / 4) - t) < 2 ^ 128 := by
    rw [← hsig, Nat.one_mul]
    have hL := leftTBits_lt hf
    have h31 : 16 ^ ((t + 3) / 4) ≤ 16 ^ 31 := Nat.pow_le_pow_right (by decide) (by omega)
    omega
  simp only [List.cons_append, List.nil_append]
  have hm : 0 < 2 ^ t + f := Nat.add_pos_left (Nat.two_pow_pos t) f
  rw [parseUnsigned_hexText (show toDigit '1' 16 = some 1 by decide) (by omega) hD (leftTBits_lt hf)
    hlo hhi (hsig ▸ (Nat.mul_pos hm (Nat.two_pow_pos _)).ne'), hsig,
    normalize_mul_two_pow (by have := hv.size_le; omega) hm hsize.le hfit, hsize,
    Nat.sub_self, Nat.pow_zero, Nat.mul_one]
  exact encode_normal hf heb1 heb sb (by omega)

/-- **A subnormal number reads back**: `0x0.<digits>p<emin>` with the trailing significand `f`
in the digits is the number with the exponent field `0` and the trailing significand `f`. -/
theorem parseUnsigned_subnormal {f : ℕ} (hf0 : 0 < f) (hf : f < 2 ^ t) (sb : ℕ) :
    parseUnsigned sb w t (['0', 'x', '0', '.'] ++ lowerHexPadded ((t + 3) / 4)
      (f <<< (4 * ((t + 3) / 4) - t)) ++ 'p' :: displayInt (1 - (2 ^ (w - 1) - 1))) =
      .ok (sb ||| f) := by
  obtain ⟨hb1, hb15, hbw⟩ := bias_bounds hv
  have hbias : ((2 ^ (w - 1) : ℕ) : ℤ) = 2 ^ (w - 1) := by push_cast; rfl
  have ht := hv.one_le_t
  have hD := hv.digits_lt
  have hsize : f.size ≤ t := Nat.size_le.mpr hf
  -- the digits are the trailing significand, shifted up to a whole number of digits
  have hsig : 0 * 16 ^ ((t + 3) / 4) + f <<< (4 * ((t + 3) / 4) - t) =
      f * 2 ^ (4 * ((t + 3) / 4) - t) := by
    rw [Nat.zero_mul, Nat.zero_add, Nat.shiftLeft_eq]
  have hfit : f * 2 ^ (4 * ((t + 3) / 4) - t) < 2 ^ 128 := by
    rw [← Nat.shiftLeft_eq]
    have hL := leftTBits_lt hf
    have h31 : 16 ^ ((t + 3) / 4) ≤ 16 ^ 31 := Nat.pow_le_pow_right (by decide) (by omega)
    omega
  simp only [List.cons_append, List.nil_append]
  rw [parseUnsigned_hexText (show toDigit '0' 16 = some 0 by decide) (by omega) hD (leftTBits_lt hf)
    (by omega) (by omega) (hsig ▸ (Nat.mul_pos hf0 (Nat.two_pow_pos _)).ne'), hsig,
    normalize_mul_two_pow (by have := hv.size_le; omega) hf0 (by omega) hfit]
  exact encode_subnormal hv.one_le_w hf0 hf sb (by omega)

omit hv in
/-- The fields of a pattern of `1 + w + t` bits, each in its place: the sign bit, the exponent
field and the trailing significand. -/
theorem eq_fields {bits : ℕ} (hb : bits < 2 ^ (1 + w + t)) :
    bits = (bits >>> (w + t) % 2) <<< (t + w) ||| (bits >>> t % 2 ^ w) <<< t ||| bits % 2 ^ t := by
  have htop : bits >>> (w + t) % 2 = bits >>> (t + w) := by
    rw [Nat.add_comm w t]
    apply Nat.mod_eq_of_lt
    rw [Nat.shiftRight_eq_div_pow, Nat.div_lt_iff_lt_mul (Nat.two_pow_pos _), ← Nat.pow_succ']
    exact lt_of_lt_of_eq hb (by congr 1; omega)
  rw [htop]
  exact BitFields.eq_or_fields bits t w

omit hv in
/-- The trailing significand of a NaN is its quiet bit, set or clear, and its payload below. -/
theorem eq_quiet_or_payload {F : ℕ} (ht : 1 ≤ t) (hF : F < 2 ^ t) :
    F = (if F.testBit (t - 1) then 2 ^ (t - 1) else 0) ||| F % 2 ^ (t - 1) := by
  have h := BitFields.mod_two_pow_succ_eq_or F (t - 1)
  rwa [Nat.sub_add_cancel ht, Nat.mod_eq_of_lt hF, BitFields.and_two_pow] at h

/-- **Every pattern reads back from its text**: `parse_float` of what `format_float` writes is
the pattern, for zeros, subnormal and normal numbers, infinities, quiet NaNs with and without a
payload and signalling NaNs, of either sign. -/
theorem parseFloat_formatFloat {bits : ℕ} (hb : bits < 2 ^ (1 + w + t)) :
    parseFloat (formatFloat bits w t) w t = .ok bits := by
  have ht := hv.one_le_t
  have ht128 : t ≤ 128 := by have := hv.size_le; omega
  have hS : bits >>> (w + t) % 2 < 2 := Nat.mod_lt _ (by decide)
  have hE : bits >>> t % 2 ^ w < 2 ^ w := Nat.mod_lt _ (Nat.two_pow_pos w)
  have hF : bits % 2 ^ t < 2 ^ t := Nat.mod_lt _ (Nat.two_pow_pos t)
  conv_rhs => rw [eq_fields hb]
  simp only [formatFloat, Nat.one_shiftLeft, Nat.and_two_pow_sub_one_eq_mod, Nat.and_one_is_mod]
  generalize bits >>> (w + t) % 2 = S at hS ⊢
  generalize bits >>> t % 2 ^ w = E at hE ⊢
  generalize bits % 2 ^ t = F at hF ⊢
  -- the cases of `format_float`: exponent field zero, all ones, or in between
  by_cases hE0 : E = 0
  · rw [if_pos hE0]
    by_cases hF0 : F = 0
    · -- a zero
      rw [if_pos hF0, parseFloat_signed hS, parseUnsigned_zero, hE0, hF0, Nat.zero_shiftLeft,
        Nat.or_zero, Nat.or_zero]
    · -- a subnormal number
      rw [if_neg hF0]
      refine (parseFloat_signed hS w t _).trans
        ((parseUnsigned_subnormal hv (Nat.pos_of_ne_zero hF0) hF _).trans ?_)
      rw [hE0, Nat.zero_shiftLeft, Nat.or_zero]
  · rw [if_neg hE0]
    by_cases hEmax : E = 2 ^ w - 1
    · rw [if_pos hEmax]
      refine (parseFloat_special hS w t _).trans ?_
      by_cases hF0 : F = 0
      · -- an infinity
        rw [if_pos hF0, parseUnsigned_inf, hEmax, hF0, Nat.or_zero, Nat.one_shiftLeft]
      · rw [if_neg hF0, BitFields.and_two_pow]
        have hsplit := eq_quiet_or_payload ht hF
        have hpay : F % 2 ^ (t - 1) < 2 ^ (t - 1) := Nat.mod_lt _ (Nat.two_pow_pos _)
        by_cases hq : F.testBit (t - 1)
        · rw [if_pos hq] at hsplit
          rw [if_pos hq, if_pos (Nat.two_pow_pos _).ne']
          by_cases hp0 : F % 2 ^ (t - 1) = 0
          · -- a quiet NaN without payload
            rw [if_neg (not_not.mpr hp0), parseUnsigned_nan, hEmax, Nat.one_shiftLeft,
              Nat.one_shiftLeft, hsplit, hp0, Nat.or_zero]
          · -- a quiet NaN with a payload
            rw [if_pos hp0, parseUnsigned_nanPayload ht128 hpay, hEmax, Nat.one_shiftLeft,
              Nat.one_shiftLeft, Nat.or_assoc _ (2 ^ (t - 1)), ← hsplit]
        · -- a signalling NaN
          rw [if_neg hq, Nat.zero_or] at hsplit
          rw [if_neg hq, if_neg (not_not.mpr rfl),
            parseUnsigned_sNaN ht128 (Nat.pos_of_ne_zero (hsplit ▸ hF0)) hpay, hEmax,
            Nat.one_shiftLeft, ← hsplit]
    · -- a normal number
      rw [if_neg hEmax]
      exact (parseFloat_signed hS w t _).trans
        (parseUnsigned_normal hv hF (Nat.pos_of_ne_zero hE0) (by omega) _)

end RoundTrip

/-! ### What the reader returns on any text -/

/-- The digit loop keeps the significand a `u128`. -/
theorem parseLoop_significand_lt : ∀ {cs : List Char} {st st' : DigitState} {e : ℤ},
    st.significand < 2 ^ 128 → parseLoop cs st = .ok (st', e) → st'.significand < 2 ^ 128
  | [], st, st', e, hs, h => by
    cases h
    exact hs
  | ch :: cs, st, st', e, hs, h => by
    rw [parseLoop] at h
    by_cases hpoint : ch = '.'
    · -- a radix point leaves the significand alone
      rw [if_pos hpoint] at h
      by_cases hdup : st.digitsBeforePeriod ≠ none
      · rw [if_pos hdup] at h
        cases h
      · rw [if_neg hdup] at h
        exact @parseLoop_significand_lt _ { st with digitsBeforePeriod := some st.digits } _ _ hs h
    · rw [if_neg hpoint] at h
      by_cases hp : ch = 'p'
      · -- the exponent ends the loop
        rw [if_pos hp] at h
        split at h
        · cases h
          exact hs
        · cases h
      · -- a digit is shifted in, and the shift is cut to a `u128`
        rw [if_neg hp] at h
        split at h
        · next digit hd =>
          by_cases hlim : 32 < st.digits + 1
          · rw [if_pos hlim] at h
            cases h
          · rw [if_neg hlim] at h
            have hdigit : digit < 2 ^ 128 := by have := lt_of_toDigit_eq_some hd; omega
            exact parseLoop_significand_lt (Nat.or_lt_two_pow (Nat.mod_lt _ (by decide)) hdigit) h
        · cases h

/-- **Normalizing leaves `t + 1` bits at most**, whichever way the significand is shifted. -/
theorem lt_of_normalize {t sig sig' : ℕ} {x x' : ℤ} (hsig : sig < 2 ^ 128)
    (h : normalize t sig x = .ok (sig', x')) : sig' < 2 ^ (t + 1) := by
  simp only [normalize, significantBits_eq hsig] at h
  by_cases hdown : t + 1 < sig.size
  · -- shifted down by the bits above `t + 1`
    rw [if_pos hdown] at h
    by_cases hlost : sig &&& (1 <<< (sig.size - (t + 1))) - 1 ≠ 0
    · rw [if_pos hlost] at h
      cases h
    · rw [if_neg hlost] at h
      cases h
      rw [← Nat.size_le, LeadingZeros.size_shiftRight]
      omega
  · -- shifted up to `t + 1` bits, and cut to a `u128`
    rw [if_neg hdown] at h
    cases h
    have hup : sig <<< (t + 1 - sig.size) < 2 ^ (t + 1) := by
      rw [Nat.shiftLeft_eq]
      calc sig * 2 ^ (t + 1 - sig.size) < 2 ^ sig.size * 2 ^ (t + 1 - sig.size) :=
            Nat.mul_lt_mul_of_pos_right (Nat.lt_size_self sig) (Nat.two_pow_pos _)
        _ = 2 ^ (t + 1) := by
          rw [← Nat.pow_add]
          congr 1
          omega
    exact lt_of_le_of_lt (Nat.mod_le _ _) hup

/-- **The encoded pattern has `1 + w + t` bits**: a normal number's biased exponent is below
`2 ^ w`, and a subnormal number's significand is shifted down by at least one bit. -/
theorem lt_of_encode {w t sb sig v : ℕ} {x : ℤ} (hsb : sb < 2 ^ (1 + w + t))
    (hsig : sig < 2 ^ (t + 1)) (h : encode sb w t sig x = .ok v) : v < 2 ^ (1 + w + t) := by
  have hpow : ((2 ^ w : ℕ) : ℤ) = 2 ^ w := by push_cast; rfl
  have hwt : 2 ^ (w + t) ≤ 2 ^ (1 + w + t) := Nat.pow_le_pow_right (by decide) (by omega)
  have htw : 2 ^ t ≤ 2 ^ (1 + w + t) := Nat.pow_le_pow_right (by decide) (by omega)
  simp only [encode, Nat.one_shiftLeft, Nat.and_two_pow_sub_one_eq_mod] at h
  generalize hexp : x + (2 ^ (w - 1) - 1 + (t : ℤ)) = exp at h
  by_cases hmax : exp > 2 ^ w - 2
  · rw [if_pos hmax] at h
    cases h
  rw [if_neg hmax] at h
  by_cases hpos : exp > 0
  · -- a normal number: the biased exponent is at most `2 ^ w - 2`
    rw [if_pos hpos] at h
    cases h
    have hfield : exp.toNat <<< t < 2 ^ (w + t) := by
      rw [Nat.shiftLeft_eq, Nat.pow_add]
      exact Nat.mul_lt_mul_of_pos_right (by omega) (Nat.two_pow_pos _)
    exact Nat.or_lt_two_pow (Nat.or_lt_two_pow hsb (lt_of_lt_of_le hfield hwt))
      (lt_of_lt_of_le (Nat.mod_lt _ (Nat.two_pow_pos _)) htw)
  rw [if_neg hpos] at h
  by_cases hsub : 1 - exp ≤ t
  · -- a subnormal number, shifted down by `1 - exponent`, at least one bit
    rw [if_pos hsub] at h
    by_cases hlost : sig % 2 ^ (1 - exp).toNat ≠ 0
    · rw [if_pos hlost] at h
      cases h
    · rw [if_neg hlost] at h
      cases h
      have hdown : sig >>> (1 - exp).toNat < 2 ^ t := by
        rw [← Nat.size_le, LeadingZeros.size_shiftRight]
        have := Nat.size_le.mpr hsig
        omega
      exact Nat.or_lt_two_pow hsb (lt_of_lt_of_le hdown htw)
  · rw [if_neg hsub] at h
    cases h

/-- **The special values have `1 + w + t` bits**: the exponent field, the quiet bit and a payload
below it are all below the sign bit. -/
theorem lt_of_parseSpecial {w t sb v : ℕ} (ht : 1 ≤ t) (hsb : sb < 2 ^ (1 + w + t))
    {s2 : List Char} (h : parseSpecial sb w t s2 = .ok v) : v < 2 ^ (1 + w + t) := by
  have hmax : ((1 <<< w) - 1) <<< t < 2 ^ (1 + w + t) := by
    rw [Nat.one_shiftLeft, Nat.shiftLeft_eq]
    calc (2 ^ w - 1) * 2 ^ t < 2 ^ w * 2 ^ t :=
          Nat.mul_lt_mul_of_pos_right (Nat.sub_lt (Nat.two_pow_pos w) one_pos) (Nat.two_pow_pos t)
      _ ≤ 2 ^ (1 + w + t) := by
        rw [← Nat.pow_add]
        exact Nat.pow_le_pow_right (by decide) (by omega)
  have hquiet : 1 <<< (t - 1) < 2 ^ (1 + w + t) := by
    rw [Nat.one_shiftLeft]
    exact Nat.pow_lt_pow_right (by decide) (by omega)
  simp only [parseSpecial] at h
  by_cases hzero : s2 = ['0', '.', '0']
  · rw [if_pos hzero] at h
    cases h
    exact hsb
  rw [if_neg hzero] at h
  by_cases hinf : s2 = ['I', 'n', 'f']
  · rw [if_pos hinf] at h
    cases h
    exact Nat.or_lt_two_pow hsb hmax
  rw [if_neg hinf] at h
  by_cases hnan : s2 = ['N', 'a', 'N']
  · rw [if_pos hnan] at h
    cases h
    exact Nat.or_lt_two_pow (Nat.or_lt_two_pow hsb hmax) hquiet
  rw [if_neg hnan] at h
  -- a NaN with a payload below the quiet bit, quiet or signalling
  split at h
  · split at h
    · next payload _ =>
      by_cases hp : payload < 1 <<< (t - 1)
      · rw [if_pos hp] at h
        cases h
        exact Nat.or_lt_two_pow (Nat.or_lt_two_pow (Nat.or_lt_two_pow hsb hmax) hquiet)
          (lt_trans hp hquiet)
      · rw [if_neg hp] at h
        cases h
    · cases h
  · split at h
    · split at h
      · next payload _ =>
        by_cases hp : 0 < payload ∧ payload < 1 <<< (t - 1)
        · rw [if_pos hp] at h
          cases h
          exact Nat.or_lt_two_pow (Nat.or_lt_two_pow hsb hmax) (lt_trans hp.2 hquiet)
        · rw [if_neg hp] at h
          cases h
      · cases h
    · cases h

theorem stripSign_fst_lt (w t : ℕ) (s : List Char) : (stripSign w t s).1 < 2 ^ (1 + w + t) := by
  have hsign : 1 <<< (t + w) < 2 ^ (1 + w + t) := by
    rw [Nat.one_shiftLeft]
    exact Nat.pow_lt_pow_right (by decide) (by omega)
  unfold stripSign
  split
  · exact hsign
  · exact Nat.two_pow_pos _
  · exact Nat.two_pow_pos _

/-- **Whatever text it is given, `parse_float` returns a pattern of `1 + w + t` bits** or an
error. -/
theorem lt_of_parseFloat {w t : ℕ} (ht : 1 ≤ t) {s : List Char} {v : ℕ}
    (h : parseFloat s w t = .ok v) : v < 2 ^ (1 + w + t) := by
  have hsb := stripSign_fst_lt w t s
  simp only [parseFloat] at h
  generalize stripSign w t s = p at h hsb
  obtain ⟨sb, s2⟩ := p
  simp only [parseUnsigned] at h hsb
  split at h
  · split at h
    · cases h
    · next st exponent hloop =>
      have hsig := parseLoop_significand_lt (by decide) hloop
      by_cases hdigits : st.digits = 0
      · rw [if_pos hdigits] at h
        cases h
      rw [if_neg hdigits] at h
      by_cases hzero : st.significand = 0
      · -- a zero: the sign bit alone
        rw [if_pos hzero] at h
        cases h
        exact hsb
      rw [if_neg hzero] at h
      split at h
      · cases h
      · next sig' x' hnorm =>
        exact lt_of_encode hsb (lt_of_normalize hsig hnorm) h
  · exact lt_of_parseSpecial ht hsb h

/-! ### The immediates -/

namespace IeeeFormat

/-- What the text form of an immediate type guarantees: every value reads back from its
`Display` text, and `FromStr` of any text returns a value or an error, never the panic of
`try_into().unwrap()`. -/
structure TextRoundTrip (F : IeeeFormat) : Prop where
  fromStr_display : ∀ x : BitVec F.bits, F.fromStr (F.display x) = some (.ok x)
  fromStr_ne_none : ∀ s, F.fromStr s ≠ none

/-- A type whose widths make a valid format filling its pattern has the text round trip. -/
theorem textRoundTrip_of_valid {F : IeeeFormat} (hv : Valid F.exponentBits F.significandBits)
    (hbits : 1 + F.exponentBits + F.significandBits = F.bits) : F.TextRoundTrip where
  fromStr_display x := by
    have hx : x.toNat < 2 ^ (1 + F.exponentBits + F.significandBits) := by
      rw [hbits]
      exact x.isLt
    rw [fromStr, display, parseFloat_formatFloat hv hx]
    simp only [x.isLt, if_true, BitVec.ofNat_toNat, BitVec.setWidth_eq]
  fromStr_ne_none s := by
    rw [fromStr]
    split
    · next b hb =>
      have hlt := lt_of_parseFloat hv.one_le_t hb
      rw [hbits] at hlt
      rw [if_pos hlt]
      exact Option.some_ne_none _
    · exact Option.some_ne_none _

/-- **`Ieee16`, `Ieee32`, `Ieee64` and `Ieee128` read back from their text**, and reading any
text never panics. -/
theorem ieee_text_roundTrip :
    ieee16.TextRoundTrip ∧ ieee32.TextRoundTrip ∧ ieee64.TextRoundTrip ∧
      ieee128.TextRoundTrip :=
  ⟨textRoundTrip_of_valid ⟨by decide, by decide, by decide, by decide, by decide⟩ rfl,
    textRoundTrip_of_valid ⟨by decide, by decide, by decide, by decide, by decide⟩ rfl,
    textRoundTrip_of_valid ⟨by decide, by decide, by decide, by decide, by decide⟩ rfl,
    textRoundTrip_of_valid ⟨by decide, by decide, by decide, by decide, by decide⟩ rfl⟩

end IeeeFormat

end Cranelift.Ir
