import Mathlib.Data.List.Basic
import Mathlib.Tactic.Ring

/-!
# Integer numerals as Rust reads and writes them

Rust writes an integer with `Display` in decimal and with `{:x}` in lower-case hexadecimal,
optionally padded with zeros to a width (`{:0w$x}`), and reads one back with
`from_str_radix`: an optional sign, then digits of the radix, accumulated from the left with an
overflow check against the bounds of the type. The printed digits are those of `Nat.toDigits`.

A run of digit characters has a value, `charsValue`, read from the left as `from_str_radix`
does; the printed digits of `n`, padded or not, have the value `n`. The digit loop of
`from_str_radix` returns that value whenever no prefix overflows, which for the printed digits of
a number in range is always, so a number in range reads back as itself.

## Main definitions

* `Numerals.toDigit` — `char::to_digit`.
* `Numerals.fromStrRadixU`, `Numerals.fromStrRadixI` — `from_str_radix` of an unsigned and of a
  signed type of `n` bits.
* `Numerals.lowerHex`, `Numerals.lowerHexPadded`, `Numerals.displayInt` — `{:x}`, `{:0w$x}` and
  the `Display` of a signed integer.
* `Numerals.charsValue` — the value of a run of digits.

## Main results

* `Numerals.charsValue_toDigits`, `Numerals.charsValue_lowerHexPadded` — the printed digits have
  the printed value.
* `Numerals.digitsLoop_eq_some` — the digit loop returns the value when nothing overflows.
* `Numerals.fromStrRadixU_lowerHex`, `Numerals.fromStrRadixI_displayInt` — a number in range
  reads back as itself.
-/

namespace Numerals

/-! ### Digits -/

/-- The value of a digit character in a radix up to `36`, before `to_digit` compares it with the
radix: a decimal digit, or a letter of either case counted from ten. -/
def digitValue (c : Char) : Option ℕ :=
  if c.isDigit then some (c.toNat - '0'.toNat)
  else if c.isLower then some (c.toNat - 'a'.toNat + 10)
  else if c.isUpper then some (c.toNat - 'A'.toNat + 10)
  else none

/-- `char::to_digit(radix)`. -/
def toDigit (c : Char) (radix : ℕ) : Option ℕ := (digitValue c).filter (· < radix)

theorem lt_of_toDigit_eq_some {c : Char} {radix d : ℕ} (h : toDigit c radix = some d) :
    d < radix := by
  rw [toDigit, Option.filter_eq_some_iff] at h
  simpa using h.2

theorem digitValue_digitChar : ∀ d < 16, digitValue (Nat.digitChar d) = some d := by
  decide

theorem toDigit_digitChar {d radix : ℕ} (hd : d < radix) (h16 : d < 16) :
    toDigit (Nat.digitChar d) radix = some d := by
  rw [toDigit, digitValue_digitChar d h16]
  simp [hd]

/-- The value of a run of digits read from the left, as `from_str_radix` accumulates it; a
character that is no digit counts as `0`. -/
def charsValue (radix : ℕ) (l : List Char) (acc : ℕ) : ℕ :=
  l.foldl (fun a c => a * radix + (toDigit c radix).getD 0) acc

@[simp] theorem charsValue_nil (radix acc : ℕ) : charsValue radix [] acc = acc := rfl

theorem charsValue_cons (radix : ℕ) (c : Char) (cs : List Char) (acc : ℕ) :
    charsValue radix (c :: cs) acc = charsValue radix cs (acc * radix + (toDigit c radix).getD 0) :=
  rfl

theorem charsValue_append (radix : ℕ) (l m : List Char) (acc : ℕ) :
    charsValue radix (l ++ m) acc = charsValue radix m (charsValue radix l acc) := by
  simp [charsValue]

theorem charsValue_replicate_zero {radix : ℕ} (hr : 0 < radix) (k acc : ℕ) :
    charsValue radix (List.replicate k '0') acc = acc * radix ^ k := by
  induction k generalizing acc with
  | zero => simp
  | succ k ih =>
    have h0 : toDigit '0' radix = some 0 := toDigit_digitChar (d := 0) hr (by decide)
    rw [List.replicate_succ, charsValue_cons, h0, Option.getD_some, Nat.add_zero, ih, Nat.pow_succ,
      Nat.mul_assoc, Nat.mul_comm radix]

theorem le_charsValue {radix : ℕ} (hr : 0 < radix) (l : List Char) (acc : ℕ) :
    acc ≤ charsValue radix l acc := by
  induction l generalizing acc with
  | nil => exact le_rfl
  | cons c cs ih =>
    rw [charsValue_cons]
    have hstep : acc ≤ acc * radix + (toDigit c radix).getD 0 :=
      Nat.le_add_right_of_le (Nat.le_mul_of_pos_right acc hr)
    exact hstep.trans (ih _)

/-- A run of digits read after an accumulator below `radix ^ k` is below `radix ^ (k + n)`, for
`n` the length of the run. -/
theorem charsValue_lt {radix : ℕ} {l : List Char} (hl : ∀ c ∈ l, ∃ d, toDigit c radix = some d)
    {acc k : ℕ} (hacc : acc < radix ^ k) : charsValue radix l acc < radix ^ (k + l.length) := by
  induction l generalizing acc k with
  | nil => simpa using hacc
  | cons c cs ih =>
    obtain ⟨d, hd⟩ := hl c List.mem_cons_self
    have hdr : d < radix := lt_of_toDigit_eq_some hd
    -- one more digit: the accumulator times the radix, plus a digit below the radix
    have hnext : acc * radix + d < radix ^ (k + 1) := by
      calc acc * radix + d < acc * radix + radix := by omega
        _ = (acc + 1) * radix := by ring
        _ ≤ radix ^ k * radix := Nat.mul_le_mul_right radix hacc
        _ = radix ^ (k + 1) := (Nat.pow_succ radix k).symm
    rw [charsValue_cons, hd, Option.getD_some, List.length_cons, Nat.add_comm cs.length,
      ← Nat.add_assoc]
    exact ih (fun c' hc' => hl c' (List.mem_cons_of_mem c hc')) hnext

/-- A digit shifted into a value that keeps its four new bits below the width: no bit is lost,
and the shift and the `|` are a multiplication and an addition. -/
theorem shiftLeft_four_mod_or {s d m : ℕ} (hs : s * 16 < 2 ^ m) (hd : d < 16) :
    (s <<< 4) % 2 ^ m ||| d = s * 16 + d := by
  have h4 : s <<< 4 = s * 16 := Nat.shiftLeft_eq s 4
  rw [h4, Nat.mod_eq_of_lt hs, ← h4, ← Nat.shiftLeft_add_eq_or_of_lt (by omega : d < 2 ^ 4), h4]

/-- The digits that `Nat.toDigits` prints have the printed value. -/
theorem charsValue_toDigits {radix : ℕ} (h2 : 1 < radix) (h16 : radix ≤ 16) (n acc : ℕ) :
    charsValue radix (Nat.toDigits radix n) acc =
      acc * radix ^ (Nat.toDigits radix n).length + n := by
  induction n using Nat.base_induction radix h2 generalizing acc with
  | single m hm =>
    rw [Nat.toDigits_of_lt_base hm, charsValue_cons, toDigit_digitChar hm (by omega)]
    simp
  | digit m k hk hm ih =>
    rw [← Nat.toDigits_append_toDigits h2 hm hk, charsValue_append, ih,
      Nat.toDigits_of_lt_base hk, charsValue_cons, toDigit_digitChar hk (by omega)]
    simp only [Option.getD_some, charsValue_nil, List.length_append, List.length_singleton,
      Nat.pow_succ]
    ring

/-- The characters that `Nat.toDigits` prints are digits of the radix. -/
theorem toDigit_of_mem_toDigits {radix : ℕ} (h2 : 1 < radix) (h16 : radix ≤ 16) {n : ℕ}
    {c : Char} (hc : c ∈ Nat.toDigits radix n) : ∃ d, toDigit c radix = some d := by
  induction n using Nat.base_induction radix h2 with
  | single m hm =>
    rw [Nat.toDigits_of_lt_base hm, List.mem_singleton] at hc
    exact ⟨m, hc ▸ toDigit_digitChar hm (by omega)⟩
  | digit m k hk hm ih =>
    rw [← Nat.toDigits_append_toDigits h2 hm hk, List.mem_append, Nat.toDigits_of_lt_base hk,
      List.mem_singleton] at hc
    rcases hc with hc | rfl
    · exact ih hc
    · exact ⟨k, toDigit_digitChar hk (by omega)⟩

/-! ### Reading: `from_str_radix` -/

/-- The digit loop of `from_str_radix`, on the magnitude: each digit is added to the accumulator
times the radix (`checked_mul`, then `checked_add`, or `checked_sub` for a negative number), and a
magnitude above `bound` overflows. -/
def digitsLoop (radix bound : ℕ) : List Char → ℕ → Option ℕ
  | [], acc => some acc
  | c :: cs, acc =>
    match toDigit c radix with
    | none => none
    | some d => if acc * radix + d ≤ bound then digitsLoop radix bound cs (acc * radix + d) else none

/-- **The digit loop returns the value** of a run of digits whose value is in bound: every prefix
is worth at most the whole, so none overflows. -/
theorem digitsLoop_eq_some {radix bound : ℕ} (hr : 0 < radix) {l : List Char}
    (hl : ∀ c ∈ l, ∃ d, toDigit c radix = some d) {acc : ℕ}
    (hb : charsValue radix l acc ≤ bound) : digitsLoop radix bound l acc = some (charsValue radix l acc) := by
  induction l generalizing acc with
  | nil => rfl
  | cons c cs ih =>
    obtain ⟨d, hd⟩ := hl c List.mem_cons_self
    rw [charsValue_cons, hd, Option.getD_some] at hb ⊢
    have hstep : acc * radix + d ≤ bound := (le_charsValue hr cs _).trans hb
    rw [digitsLoop, hd]
    simp only [if_pos hstep]
    exact ih (fun c' hc' => hl c' (List.mem_cons_of_mem c hc')) hb

/-- The sign that `from_str_radix` reads before the digits: whether the number is positive, and
the digits. A sign alone is an invalid digit, and `-` is a sign only for a signed type. -/
def splitSign (signed : Bool) : List Char → Option (Bool × List Char)
  | ['+'] => none
  | ['-'] => none
  | '+' :: rest => some (true, rest)
  | '-' :: rest => if signed then some (false, rest) else some (true, '-' :: rest)
  | src => some (true, src)

/-- `uN::from_str_radix(src, radix)` for the unsigned type of `n` bits; `none` stands for every
`ParseIntError`. -/
def fromStrRadixU (n radix : ℕ) (src : List Char) : Option ℕ :=
  if src = [] then none
  else (splitSign false src).bind fun (_, digits) => digitsLoop radix (2 ^ n - 1) digits 0

/-- `iN::from_str_radix(src, radix)` for the signed type of `n` bits: the magnitude of a
positive number is at most `2^(n-1) - 1`, that of a negative one at most `2^(n-1)`. -/
def fromStrRadixI (n radix : ℕ) (src : List Char) : Option ℤ :=
  if src = [] then none
  else (splitSign true src).bind fun (isPositive, digits) =>
    if isPositive then (digitsLoop radix (2 ^ (n - 1) - 1) digits 0).map fun m : ℕ => (m : ℤ)
    else (digitsLoop radix (2 ^ (n - 1)) digits 0).map fun m : ℕ => -(m : ℤ)

theorem splitSign_of_toDigit {signed : Bool} {c : Char} {radix d : ℕ} (cs : List Char)
    (hc : toDigit c radix = some d) : splitSign signed (c :: cs) = some (true, c :: cs) := by
  have hplus : c ≠ '+' := by
    rintro rfl
    simp [toDigit, digitValue] at hc
  have hminus : c ≠ '-' := by
    rintro rfl
    simp [toDigit, digitValue] at hc
  unfold splitSign
  split <;> simp_all

/-! ### Writing: `{:x}`, `{:0w$x}` and `Display` -/

/-- `{:x}`: the lower-case hexadecimal digits, with no leading zero. -/
def lowerHex (n : ℕ) : List Char := Nat.toDigits 16 n

/-- `{:0width$x}`: the lower-case hexadecimal digits, padded with zeros to `width`. -/
def lowerHexPadded (width n : ℕ) : List Char := List.leftpad width '0' (Nat.toDigits 16 n)

/-- `Display` of a signed integer: a minus sign for a negative one, then the decimal digits of
its magnitude. -/
def displayInt (v : ℤ) : List Char :=
  if v < 0 then '-' :: Nat.toDigits 10 v.natAbs else Nat.toDigits 10 v.natAbs

theorem length_lowerHexPadded {width n : ℕ} (hw : 0 < width) (hn : n < 16 ^ width) :
    (lowerHexPadded width n).length = width := by
  have hlen : (Nat.toDigits 16 n).length ≤ width :=
    (Nat.length_toDigits_le_iff (by decide) hw).mpr hn
  rw [lowerHexPadded, List.length_leftpad]
  omega

theorem charsValue_lowerHexPadded {width n : ℕ} (hw : 0 < width) (hn : n < 16 ^ width)
    (acc : ℕ) : charsValue 16 (lowerHexPadded width n) acc = acc * 16 ^ width + n := by
  have hlen : (Nat.toDigits 16 n).length ≤ width :=
    (Nat.length_toDigits_le_iff (by decide) hw).mpr hn
  rw [lowerHexPadded, List.leftpad, charsValue_append, charsValue_replicate_zero (by decide),
    charsValue_toDigits (by decide) le_rfl, Nat.mul_assoc, ← Nat.pow_add, Nat.sub_add_cancel hlen]

theorem toDigit_of_mem_lowerHexPadded {width n : ℕ} {c : Char} (hc : c ∈ lowerHexPadded width n) :
    ∃ d, toDigit c 16 = some d := by
  rw [lowerHexPadded, List.leftpad, List.mem_append] at hc
  rcases hc with hc | hc
  · rw [List.eq_of_mem_replicate hc]
    exact ⟨0, rfl⟩
  · exact toDigit_of_mem_toDigits (by decide) le_rfl hc

/-- The digit loop reads the printed digits of a number in bound as the number. -/
theorem digitsLoop_toDigits {radix bound : ℕ} (h2 : 1 < radix) (h16 : radix ≤ 16) {n : ℕ}
    (hn : n ≤ bound) : digitsLoop radix bound (Nat.toDigits radix n) 0 = some n := by
  have hval : charsValue radix (Nat.toDigits radix n) 0 = n := by
    rw [charsValue_toDigits h2 h16]
    simp
  rw [digitsLoop_eq_some (by omega) (fun c hc => toDigit_of_mem_toDigits h2 h16 hc)
    (hval.symm ▸ hn), hval]

/-- The printed digits of a number begin with a digit, not with a sign. -/
theorem splitSign_toDigits (signed : Bool) {radix : ℕ} (h2 : 1 < radix) (h16 : radix ≤ 16)
    (n : ℕ) : splitSign signed (Nat.toDigits radix n) = some (true, Nat.toDigits radix n) := by
  obtain ⟨c, cs, hcs⟩ := List.exists_cons_of_ne_nil (Nat.toDigits_ne_nil (n := n) (b := radix))
  obtain ⟨d, hd⟩ := toDigit_of_mem_toDigits h2 h16 (hcs ▸ List.mem_cons_self)
  rw [hcs, splitSign_of_toDigit cs hd]

/-- **A hexadecimal number reads back**: `from_str_radix` of the `{:x}` text of a number that
fits the type is the number. -/
theorem fromStrRadixU_lowerHex {n v : ℕ} (hv : v < 2 ^ n) :
    fromStrRadixU n 16 (lowerHex v) = some v := by
  rw [fromStrRadixU, lowerHex, if_neg Nat.toDigits_ne_nil,
    splitSign_toDigits false (by decide) le_rfl, Option.bind_some]
  exact digitsLoop_toDigits (by decide) le_rfl (by omega)

/-- **A decimal integer reads back**: `from_str_radix` of the `Display` text of an integer
that fits the signed type is the integer. -/
theorem fromStrRadixI_displayInt {n : ℕ} {v : ℤ} (hlo : -2 ^ (n - 1) ≤ v) (hhi : v < 2 ^ (n - 1)) :
    fromStrRadixI n 10 (displayInt v) = some v := by
  have hpow : ((2 ^ (n - 1) : ℕ) : ℤ) = 2 ^ (n - 1) := by push_cast; rfl
  by_cases hneg : v < 0
  · -- a minus sign, then the magnitude, at most `2^(n-1)`
    obtain ⟨c, cs, hcs⟩ :=
      List.exists_cons_of_ne_nil (Nat.toDigits_ne_nil (n := v.natAbs) (b := 10))
    rw [fromStrRadixI, displayInt, if_pos hneg, if_neg (List.cons_ne_nil _ _), hcs]
    simp only [splitSign, if_true, Option.bind_some, Bool.false_eq_true, if_false]
    rw [← hcs, digitsLoop_toDigits (by decide) (by decide) (by omega)]
    simp only [Option.map_some, Option.some.injEq]
    omega
  · rw [fromStrRadixI, displayInt, if_neg hneg, if_neg Nat.toDigits_ne_nil,
      splitSign_toDigits true (by decide) (by decide), Option.bind_some]
    simp only [if_true]
    rw [digitsLoop_toDigits (by decide) (by decide) (by omega)]
    simp only [Option.map_some, Option.some.injEq]
    omega

end Numerals
