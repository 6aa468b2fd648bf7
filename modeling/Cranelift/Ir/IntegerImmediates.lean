import Cranelift.Lib.Numerals
import Cranelift.Lib.LeadingZeros

/-!
# The text form of the integer immediates

The integer immediates of Cranelift IR are written in decimal while they are small and in
hexadecimal from `10_000` on: `Imm64` (an `i64`, written in decimal whenever it is negative),
`Uimm64` (a `u64`), `Uimm32` (a `u32`) and the load and store offset `Offset32` (an `i32`, always
written with a sign, and zero as no text at all). `write_hex` writes the hexadecimal form in
groups of four digits separated by `_`, from the group that holds the highest set bit down.

The readers share `parse_u64`, which reads `0x` and at most sixteen hexadecimal digits, or
fewer than `2^31` decimal digits worth less than `2^64`, with `_` allowed anywhere among the
digits; and
`parse_i64`, which reads an optional sign before that and accepts the range and a half from
`-2^63` to `2^64 - 1`, reading a number above `i64::MAX` as the `i64` of the same bits.

Every immediate reads back from its text as itself, except the zero offset, whose text is
empty. `parse_u64` accepts exactly the numerals described above, with their value, and
`parse_i64` exactly the signed numerals of the range and a half, with their value modulo `2^64`.

## Main definitions

* `Cranelift.Ir.writeHex`, `Cranelift.Ir.parseU64`, `Cranelift.Ir.parseI64` — `write_hex`,
  `parse_u64` and `parse_i64`.
* `Cranelift.Ir.Imm64`, `Cranelift.Ir.Uimm64`, `Cranelift.Ir.Uimm32`, `Cranelift.Ir.Offset32`,
  with their `display` and `fromStr`.
* `Cranelift.Ir.U64Numeral`, `Cranelift.Ir.I64Numeral` — the numerals the readers accept, with
  their values.

## Main results

* `Cranelift.Ir.parseU64_decimalOrHex` — the text of a `u64` reads back as the number.
* `Cranelift.Ir.integer_text_roundTrip`, `Cranelift.Ir.Offset32.fromStr_display` — the
  immediates read back from their text.
* `Cranelift.Ir.parseU64_eq_ok_iff`, `Cranelift.Ir.parseI64_eq_ok_iff`,
  `Cranelift.Ir.integer_numerals_accepted` — what the readers accept.
* `Cranelift.Ir.parseU64_zeros` — `2^31` zeros overflow the count of digits.

## Implementation notes

The `u64`, `i64`, `u32` or `i32` of an immediate is a `BitVec` of its width; the readers compute
on natural numbers and integers, with the `% 2 ^ 64` of the loop's `value << 4` kept. A `&str`
is its list of characters, and `&s[1..]` drops the first character, which is an ASCII sign
wherever the source takes it. The formatter's output is the list of the characters written.

The count of digits in `parse_u64` is an `i32`. The hexadecimal loop stops at the seventeenth
digit, but the decimal loop counts every digit, and a numeral with `2^31` digits (all but the
last of them leading zeros) overflows it: `digits += 1` panics. A panic is `none`, so the readers
return `Option (Except String _)`.
-/

namespace Cranelift.Ir

open Numerals

/-! ### Writing -/

/-- The groups that the loop of `write_hex` writes below bit `16 * n`, each as `_{:04x}`, from
the top down. -/
def writeHexGroups (x : ℕ) : ℕ → List Char
  | 0 => []
  | n + 1 => '_' :: (lowerHexPadded 4 ((x >>> (16 * n)) &&& 0xffff) ++ writeHexGroups x n)

/-- `write_hex(x, f)`: `0x`, the group of four hexadecimal digits that holds the highest set bit,
and the groups below it. The position `pos` of that group is a multiple of `16`, so that the
loop `while pos > 0 { pos -= 16; .. }` writes `pos / 16` groups. -/
def writeHex (x : ℕ) : List Char :=
  let pos := (64 - (BitVec.ofNat 64 x).clz.toNat - 1) &&& 0xf0
  '0' :: 'x' :: (lowerHexPadded 4 ((x >>> pos) &&& 0xffff) ++ writeHexGroups x (pos / 16))

/-- What the `Display` of an integer immediate writes for a number that is not negative, the
same in each of them: decimal below `10_000`, and `write_hex` from there. -/
def decimalOrHex (x : ℕ) : List Char :=
  if x < 10000 then Nat.toDigits 10 x else writeHex x

/-! ### Reading -/

/-- The hexadecimal loop of `parse_u64`, on the value and the count of digits read so far: a
seventeenth digit is an error, `_` is skipped, and any other character that is no digit is an
error. The count never passes `17`, so its `i32` cannot overflow here. -/
def parseHexLoop : List Char → ℕ → ℕ → Except String (ℕ × ℕ)
  | [], value, digits => .ok (value, digits)
  | ch :: rest, value, digits =>
    match toDigit ch 16 with
    | some digit =>
      if 16 < digits + 1 then .error "Too many hexadecimal digits"
      else parseHexLoop rest ((value <<< 4) % 2 ^ 64 ||| digit) (digits + 1)
    | none =>
      if ch ≠ '_' then .error "Invalid character in hexadecimal number"
      else parseHexLoop rest value digits

/-- The decimal loop of `parse_u64`: `digits += 1` on the `i32` count, which panics past
`i32::MAX`, then `checked_mul(10)` and `checked_add(digit)` on a `u64`. -/
def parseDecLoop : List Char → ℕ → ℕ → Option (Except String (ℕ × ℕ))
  | [], value, digits => some (.ok (value, digits))
  | ch :: rest, value, digits =>
    match toDigit ch 10 with
    | some digit =>
      if 2 ^ 31 - 1 < digits + 1 then none
      else if 2 ^ 64 ≤ value * 10 then some (.error "Too large decimal number")
      else if 2 ^ 64 ≤ value * 10 + digit then some (.error "Too large decimal number")
      else parseDecLoop rest (value * 10 + digit) (digits + 1)
    | none =>
      if ch ≠ '_' then some (.error "Invalid character in decimal number")
      else parseDecLoop rest value digits

/-- The digit loops of `parse_u64`, with the value and the count of digits they read:
hexadecimal behind `0x`, decimal otherwise. -/
def parseU64Loop (s : List Char) : Option (Except String (ℕ × ℕ)) :=
  if ['-', '0', 'x'].isPrefixOf s then some (.error "Invalid character in hexadecimal number")
  else
    match ['0', 'x'].isPrefixOf? s with
    | some num => some (parseHexLoop num 0 0)
    | none => parseDecLoop s 0 0

/-- `parse_u64(s)`: the digit loops, which must read at least one digit. -/
def parseU64 (s : List Char) : Option (Except String ℕ) :=
  match parseU64Loop s with
  | none => none
  | some (.error e) => some (.error e)
  | some (.ok (value, digits)) =>
    some (if digits = 0 then .error "No digits in number" else .ok value)

/-- `value as i64` for a `u64`: the same bits read in two's complement. -/
def asI64 (value : ℕ) : ℤ := if value < 2 ^ 63 then value else (value : ℤ) - 2 ^ 64

/-- `parse_i64(s)`: an optional sign, then `parse_u64`; a negative number is negated with
`wrapping_neg` and must not come out positive. -/
def parseI64 (s : List Char) : Option (Except String ℤ) :=
  let negative := s.head? == some '-'
  let s2 := if negative || s.head? == some '+' then s.drop 1 else s
  match parseU64 s2 with
  | none => none
  | some (.error e) => some (.error e)
  | some (.ok value) =>
    some <|
      if negative then
        let value := (2 ^ 64 - value) % 2 ^ 64
        if 0 < asI64 value then .error "Negative number too small" else .ok (asI64 value)
      else .ok (asI64 value)

/-! ### The immediates -/

/-- `Imm64`: a 64-bit immediate signed integer. -/
structure Imm64 where
  /-- `Imm64::bits`. -/
  bits : BitVec 64
  deriving DecidableEq, Repr

/-- `Display for Imm64`: decimal for small and negative numbers. -/
def Imm64.display (x : Imm64) : List Char :=
  if x.bits.toInt < 10000 then displayInt x.bits.toInt else writeHex x.bits.toNat

/-- `FromStr for Imm64`. -/
def Imm64.fromStr (s : List Char) : Option (Except String Imm64) :=
  (parseI64 s).map fun r => r.map fun x => ⟨BitVec.ofInt 64 x⟩

/-- `Uimm64`: a 64-bit immediate unsigned integer. -/
structure Uimm64 where
  /-- The `u64` it holds. -/
  val : BitVec 64
  deriving DecidableEq, Repr

/-- `Display for Uimm64`. -/
def Uimm64.display (x : Uimm64) : List Char := decimalOrHex x.val.toNat

/-- `FromStr for Uimm64`. -/
def Uimm64.fromStr (s : List Char) : Option (Except String Uimm64) :=
  (parseU64 s).map fun r => r.map fun x => ⟨BitVec.ofNat 64 x⟩

/-- `Uimm32`: a 32-bit immediate unsigned integer, the size of a memory object. -/
structure Uimm32 where
  /-- The `u32` it holds. -/
  val : BitVec 32
  deriving DecidableEq, Repr

/-- `Display for Uimm32`. -/
def Uimm32.display (x : Uimm32) : List Char := decimalOrHex x.val.toNat

/-- `FromStr for Uimm32`: read as an `i64`, which must fit a `u32`. -/
def Uimm32.fromStr (s : List Char) : Option (Except String Uimm32) :=
  (parseI64 s).map fun r => r.bind fun x =>
    if 0 ≤ x ∧ x ≤ 2 ^ 32 - 1 then .ok ⟨BitVec.ofInt 32 x⟩ else .error "Uimm32 out of range"

/-- `Offset32`: a 32-bit signed immediate offset of a load or a store. -/
structure Offset32 where
  /-- The `i32` it holds. -/
  val : BitVec 32
  deriving DecidableEq, Repr

/-- `Display for Offset32`: nothing for zero, and otherwise always a sign. -/
def Offset32.display (x : Offset32) : List Char :=
  if x.val.toInt = 0 then []
  else (if x.val.toInt < 0 then '-' else '+') :: decimalOrHex x.val.toInt.natAbs

/-- `FromStr for Offset32`: a sign first, then an `i64` that must fit an `i32`. -/
def Offset32.fromStr (s : List Char) : Option (Except String Offset32) :=
  if !(s.head? == some '-' || s.head? == some '+') then some (.error "Offset must begin with sign")
  else
    (parseI64 s).map fun r => r.bind fun x =>
      if -2 ^ 31 ≤ x ∧ x ≤ 2 ^ 31 - 1 then .ok ⟨BitVec.ofInt 32 x⟩
      else .error "Offset out of range"

example : Imm64.display ⟨0x10000⟩ = ['0', 'x', '0', '0', '0', '1', '_', '0', '0', '0', '0'] := by
  decide

example : Imm64.fromStr ['-', '_', '1', '0', '_', '0'] = some (.ok ⟨-100⟩) := by decide

/-! ### The digit loops -/

theorem toDigit_x_ten : toDigit 'x' 10 = none := rfl

theorem parseHexLoop_underscore (rest : List Char) (value digits : ℕ) :
    parseHexLoop ('_' :: rest) value digits = parseHexLoop rest value digits := rfl

/-- **A run of hexadecimal digits is read** into the value, while the count stays within sixteen
digits: the value becomes the value of the digits read after it. -/
theorem parseHexLoop_hexDigits {l : List Char} (hl : ∀ c ∈ l, ∃ d, toDigit c 16 = some d)
    (rest : List Char) {value digits : ℕ} (hlen : digits + l.length ≤ 16)
    (hv : value < 16 ^ digits) :
    parseHexLoop (l ++ rest) value digits =
      parseHexLoop rest (charsValue 16 l value) (digits + l.length) := by
  induction l generalizing value digits with
  | nil => rfl
  | cons c cs ih =>
    obtain ⟨d, hd⟩ := hl c List.mem_cons_self
    have hd16 : d < 16 := lt_of_toDigit_eq_some hd
    rw [List.length_cons] at hlen
    have h15 : 16 ^ digits ≤ 16 ^ 15 := Nat.pow_le_pow_right (by decide) (by omega)
    have hnext : value * 16 + d < 16 ^ (digits + 1) := by
      rw [Nat.pow_succ]
      omega
    rw [List.cons_append, parseHexLoop, hd]
    simp only
    rw [if_neg (by omega), shiftLeft_four_mod_or (by omega) hd16,
      ih (fun c' hc' => hl c' (List.mem_cons_of_mem c hc')) (by omega) hnext,
      charsValue_cons, hd, Option.getD_some, List.length_cons, Nat.add_assoc, Nat.add_comm 1]

/-- **A run of decimal digits is read** into the value when the count stays below `2^31` and
the value it ends with fits a `u64`: no prefix overflows, since every prefix is worth at most the
whole. -/
theorem parseDecLoop_decDigits {l : List Char} (hl : ∀ c ∈ l, ∃ d, toDigit c 10 = some d)
    (rest : List Char) {value digits : ℕ} (hcount : digits + l.length < 2 ^ 31)
    (hb : charsValue 10 l value < 2 ^ 64) :
    parseDecLoop (l ++ rest) value digits =
      parseDecLoop rest (charsValue 10 l value) (digits + l.length) := by
  induction l generalizing value digits with
  | nil => rfl
  | cons c cs ih =>
    obtain ⟨d, hd⟩ := hl c List.mem_cons_self
    rw [charsValue_cons, hd, Option.getD_some] at hb
    rw [List.length_cons] at hcount
    have hstep : value * 10 + d < 2 ^ 64 := lt_of_le_of_lt (le_charsValue (by decide) cs _) hb
    rw [List.cons_append, parseDecLoop, hd]
    simp only
    rw [if_neg (by omega), if_neg (by omega), if_neg (by omega),
      ih (fun c' hc' => hl c' (List.mem_cons_of_mem c hc')) (by omega) hb, charsValue_cons, hd,
      Option.getD_some, List.length_cons, Nat.add_assoc, Nat.add_comm 1]

/-- **A numeral of `2^31` zeros panics**: the zeros keep the value at `0`, and the count of
digits overflows its `i32` at the last of them. -/
theorem parseDecLoop_zeros (n : ℕ) {digits : ℕ} (hd : digits < 2 ^ 31) :
    parseDecLoop (List.replicate n '0') 0 digits =
      if digits + n < 2 ^ 31 then some (.ok (0, digits + n)) else none := by
  induction n generalizing digits with
  | zero => simpa [parseDecLoop] using hd
  | succ n ih =>
    rw [List.replicate_succ, parseDecLoop]
    simp only [show toDigit '0' 10 = some 0 from rfl, Nat.zero_mul, Nat.add_zero]
    by_cases hover : 2 ^ 31 - 1 < digits + 1
    · rw [if_pos hover, if_neg (by omega)]
    · rw [if_neg hover, if_neg (by decide), if_neg (by decide), ih (by omega),
        show digits + 1 + n = digits + (n + 1) by omega]

/-! ### Reading the written text -/

/-- The group of `write_hex` at bit `16 * n`: the sixteen bits of `x` from there. -/
theorem group_eq (x n : ℕ) : (x >>> (16 * n)) &&& 0xffff = x / 2 ^ (16 * n) % 2 ^ 16 := by
  rw [Nat.shiftRight_eq_div_pow, ← Nat.and_two_pow_sub_one_eq_mod]

theorem group_lt (x n : ℕ) : (x >>> (16 * n)) &&& 0xffff < 16 ^ 4 := by
  rw [group_eq]
  exact Nat.mod_lt _ (by decide)

theorem hexDigits_lowerHexPadded (width n : ℕ) :
    ∀ c ∈ lowerHexPadded width n, ∃ d, toDigit c 16 = some d :=
  fun _ hc => toDigit_of_mem_lowerHexPadded hc

/-- **The groups below the top one are read** into the value: each group of four digits brings
sixteen more bits of `x`, from the top down. -/
theorem parseHexLoop_writeHexGroups (x : ℕ) {n value digits : ℕ} (hlen : digits + 4 * n ≤ 16)
    (hv : value < 16 ^ digits) :
    parseHexLoop (writeHexGroups x n) value digits =
      .ok (value * 2 ^ (16 * n) + x % 2 ^ (16 * n), digits + 4 * n) := by
  induction n generalizing value digits with
  | zero => simp [writeHexGroups, parseHexLoop, Nat.mod_one]
  | succ n ih =>
    have hgroup := group_lt x n
    have hlen4 := length_lowerHexPadded (by decide) hgroup
    have hnext : value * 16 ^ 4 + (x >>> (16 * n) &&& 0xffff) < 16 ^ (digits + 4) :=
      calc value * 16 ^ 4 + (x >>> (16 * n) &&& 0xffff) < (value + 1) * 16 ^ 4 := by omega
        _ ≤ 16 ^ digits * 16 ^ 4 := Nat.mul_le_mul_right _ hv
        _ = 16 ^ (digits + 4) := (Nat.pow_add 16 digits 4).symm
    -- the group at bit `16 * n` joins the bits below it into the bits below `16 * (n + 1)`
    have hsplit : x % 2 ^ (16 * (n + 1)) =
        x % 2 ^ (16 * n) + 2 ^ (16 * n) * (x / 2 ^ (16 * n) % 2 ^ 16) := by
      rw [Nat.mul_succ, Nat.pow_add, Nat.mod_mul]
    rw [writeHexGroups, parseHexLoop_underscore,
      parseHexLoop_hexDigits (hexDigits_lowerHexPadded _ _) _ (by omega) hv, hlen4,
      charsValue_lowerHexPadded (by decide) hgroup, ih (by omega) hnext, group_eq, hsplit]
    simp only [Except.ok.injEq, Prod.mk.injEq]
    constructor
    · ring
    · omega

/-- The position of the top group of `write_hex`: the multiple of `16` at or below the highest
set bit. -/
theorem writeHex_pos {x : ℕ} (hx : x < 2 ^ 64) :
    (64 - (BitVec.ofNat 64 x).clz.toNat - 1) &&& 0xf0 = 16 * ((x.size - 1) / 16) := by
  have hsize : x.size ≤ 64 := Nat.size_le.mpr hx
  have hand : ∀ n < 64, n &&& 0xf0 = 16 * (n / 16) := by decide
  rw [LeadingZeros.toNat_clz, BitVec.toNat_ofNat, Nat.mod_eq_of_lt hx,
    show 64 - (64 - x.size) - 1 = x.size - 1 by omega]
  exact hand _ (by omega)

/-- **The text of `write_hex` reads back** as the number, for a number that fits a `u64` and is
not zero. -/
theorem parseU64_writeHex {x : ℕ} (hx0 : 0 < x) (hx : x < 2 ^ 64) :
    parseU64 (writeHex x) = some (.ok x) := by
  set D := (x.size - 1) / 16 with hD
  have hsize : x.size ≤ 64 := Nat.size_le.mpr hx
  have hsize0 : 0 < x.size := Nat.size_pos.mpr hx0
  have hD3 : D ≤ 3 := by omega
  -- `x` has at most `16 * (D + 1)` bits, so its top group is all of `x` above bit `16 * D`
  have hxD : x < 2 ^ (16 * D) * 2 ^ 16 := by
    rw [← Nat.pow_add, ← Nat.size_le]
    omega
  have htop : (x >>> (16 * D)) &&& 0xffff = x / 2 ^ (16 * D) := by
    rw [group_eq, Nat.mod_eq_of_lt (Nat.div_lt_of_lt_mul hxD)]
  have hgroup := group_lt x D
  have hlen4 := length_lowerHexPadded (by decide) hgroup
  have hloop : parseHexLoop (lowerHexPadded 4 ((x >>> (16 * D)) &&& 0xffff) ++
      writeHexGroups x D) 0 0 = .ok (x, 4 + 4 * D) := by
    rw [parseHexLoop_hexDigits (hexDigits_lowerHexPadded _ _) _ (by omega) (by decide), hlen4,
      charsValue_lowerHexPadded (by decide) hgroup,
      parseHexLoop_writeHexGroups x (by omega) (by simpa using hgroup), htop]
    simp only [Nat.zero_mul, Nat.zero_add, Nat.div_add_mod']
  simp only [writeHex, writeHex_pos hx, ← hD, Nat.mul_div_cancel_left _ (by decide : 0 < 16)]
  simp [parseU64, parseU64Loop, List.isPrefixOf, List.isPrefixOf?, hloop]

/-- The printed decimal digits never begin with `0x`. -/
theorem isPrefixOf?_toDigits (n : ℕ) : ['0', 'x'].isPrefixOf? (Nat.toDigits 10 n) = none := by
  cases h : Nat.toDigits 10 n with
  | nil => rfl
  | cons c cs =>
    cases cs with
    | nil => simp [List.isPrefixOf?]
    | cons c' cs' =>
      have hc' : c' ≠ 'x' := by
        rintro rfl
        have hmem : 'x' ∈ Nat.toDigits 10 n := by simp [h]
        obtain ⟨d, hd⟩ := toDigit_of_mem_toDigits (by decide) (by decide) hmem
        simp [toDigit_x_ten] at hd
      simp [List.isPrefixOf?, Ne.symm hc']

theorem isPrefixOf_eq_false_of_head? {p l : List Char} {c : Char} (hp : p.head? = some c)
    (hl : l.head? ≠ some c) : p.isPrefixOf l = false := by
  cases p with
  | nil => cases hp
  | cons a p =>
    cases l with
    | nil => rfl
    | cons b l =>
      simp only [List.head?_cons, ne_eq, Option.some.injEq] at hp hl
      subst hp
      simp [List.isPrefixOf, Ne.symm hl]

/-- The printed decimal digits never begin with a sign. -/
theorem head?_toDigits_ne (n : ℕ) {c : Char} (hc : toDigit c 10 = none) :
    (Nat.toDigits 10 n).head? ≠ some c := by
  intro h
  obtain ⟨d, hd⟩ := toDigit_of_mem_toDigits (by decide) (by decide) (List.mem_of_head? h)
  rw [hc] at hd
  cases hd

/-- **The decimal text of a `u64` reads back** as the number. -/
theorem parseU64_toDigits {n : ℕ} (hn : n < 2 ^ 64) :
    parseU64 (Nat.toDigits 10 n) = some (.ok n) := by
  have hval : charsValue 10 (Nat.toDigits 10 n) 0 = n := by
    rw [charsValue_toDigits (by decide) (by decide)]
    simp
  -- a `u64` has at most twenty decimal digits
  have hcount : (Nat.toDigits 10 n).length ≤ 20 :=
    (Nat.length_toDigits_le_iff (by decide) (by decide)).mpr (lt_of_lt_of_le hn (by decide))
  have hloop : parseDecLoop (Nat.toDigits 10 n) 0 0 =
      some (.ok (n, (Nat.toDigits 10 n).length)) := by
    have h := @parseDecLoop_decDigits (Nat.toDigits 10 n) (fun c hc => toDigit_of_mem_toDigits
      (by decide) (by decide) hc) [] 0 0 (by omega) (hval.symm ▸ hn)
    rwa [List.append_nil, hval, Nat.zero_add] at h
  have hminus : ['-', '0', 'x'].isPrefixOf (Nat.toDigits 10 n) = false :=
    isPrefixOf_eq_false_of_head? rfl (head?_toDigits_ne n rfl)
  simp only [parseU64, parseU64Loop, hminus, Bool.false_eq_true, if_false,
    isPrefixOf?_toDigits, hloop]
  rw [if_neg (List.length_pos_of_ne_nil Nat.toDigits_ne_nil).ne']

/-- **The text of a number that is not negative reads back** with `parse_u64`, whichever of
decimal or hexadecimal `Display` chose. -/
theorem parseU64_decimalOrHex {n : ℕ} (hn : n < 2 ^ 64) :
    parseU64 (decimalOrHex n) = some (.ok n) := by
  unfold decimalOrHex
  split_ifs with hsmall
  · exact parseU64_toDigits hn
  · exact parseU64_writeHex (by omega) hn

/-! ### Signs -/

theorem asI64_of_lt {v : ℕ} (h : v < 2 ^ 63) : asI64 v = v := if_pos h

/-- `wrapping_neg` of a magnitude of at most `2^63`, read as an `i64`, is its negation. -/
theorem asI64_wrappingNeg {m : ℕ} (h : m ≤ 2 ^ 63) : asI64 ((2 ^ 64 - m) % 2 ^ 64) = -m := by
  rcases Nat.eq_zero_or_pos m with rfl | hm
  · rfl
  · rw [Nat.mod_eq_of_lt (by omega), asI64, if_neg (by omega), Nat.cast_sub (by omega)]
    push_cast
    ring

/-- `wrapping_neg` of a magnitude above `2^63` comes out positive. -/
theorem asI64_wrappingNeg_pos {m : ℕ} (h1 : 2 ^ 63 < m) (h2 : m < 2 ^ 64) :
    0 < asI64 ((2 ^ 64 - m) % 2 ^ 64) := by
  rw [Nat.mod_eq_of_lt (by omega), asI64, if_pos (by omega)]
  omega

/-- `value as i64` is the value modulo `2^64`, in the range of an `i64`. -/
theorem asI64_eq_bmod {m : ℕ} (h : m < 2 ^ 64) : asI64 m = (m : ℤ).bmod (2 ^ 64) := by
  have hmod : (m : ℤ) % ((2 ^ 64 : ℕ) : ℤ) = m := Int.emod_eq_of_lt (by omega) (by omega)
  have hhalf : (((2 ^ 64 : ℕ) : ℤ) + 1) / 2 = 2 ^ 63 := rfl
  rw [Int.bmod, hmod, hhalf, asI64]
  split_ifs <;> omega

/-- The negation of a magnitude of at most `2^63` is its own value modulo `2^64`. -/
theorem neg_bmod {m : ℕ} (h : m ≤ 2 ^ 63) : (-(m : ℤ)).bmod (2 ^ 64) = -m :=
  Int.bmod_eq_of_le (by norm_num; omega) (by norm_num; omega)

theorem parseI64_of_head? {s : List Char} (hm : s.head? ≠ some '-') (hp : s.head? ≠ some '+') :
    parseI64 s = (parseU64 s).map fun r => r.map asI64 := by
  have hm' : (s.head? == some '-') = false := by simpa using hm
  have hp' : (s.head? == some '+') = false := by simpa using hp
  simp only [parseI64, hm', hp', Bool.or_false, Bool.false_eq_true, if_false]
  rcases parseU64 s with _ | (_ | _) <;> rfl

/-- The two signs, as `parse_i64` tests them. -/
theorem sign_beq : (some '+' == some '-') = false ∧ (some '+' == some '+') = true ∧
    (some '-' == some '-') = true := ⟨rfl, rfl, rfl⟩

theorem parseI64_plus (s : List Char) :
    parseI64 ('+' :: s) = (parseU64 s).map fun r => r.map asI64 := by
  simp only [parseI64, List.head?_cons, sign_beq, Bool.or_true, if_true, Bool.false_eq_true,
    if_false, List.drop_one, List.tail_cons]
  rcases parseU64 s with _ | (_ | _) <;> rfl

theorem parseI64_minus (s : List Char) :
    parseI64 ('-' :: s) = (parseU64 s).map fun r => r.bind fun value =>
      if 0 < asI64 ((2 ^ 64 - value) % 2 ^ 64) then .error "Negative number too small"
      else .ok (asI64 ((2 ^ 64 - value) % 2 ^ 64)) := by
  simp only [parseI64, List.head?_cons, sign_beq, Bool.true_or, if_true, List.drop_one,
    List.tail_cons]
  rcases parseU64 s with _ | (_ | _) <;> rfl

/-- The text of a number that is not negative begins with a digit, not with a sign. -/
theorem head?_decimalOrHex_ne (n : ℕ) {c : Char} (hc : toDigit c 10 = none) :
    (decimalOrHex n).head? ≠ some c := by
  unfold decimalOrHex
  split_ifs
  · exact head?_toDigits_ne n hc
  · simp only [writeHex, List.head?_cons, ne_eq, Option.some.injEq]
    rintro rfl
    cases hc

theorem parseI64_decimalOrHex {n : ℕ} (hn : n < 2 ^ 63) :
    parseI64 (decimalOrHex n) = some (.ok n) := by
  rw [parseI64_of_head? (head?_decimalOrHex_ne n rfl) (head?_decimalOrHex_ne n rfl),
    parseU64_decimalOrHex (by omega)]
  simp [Except.map, asI64_of_lt hn]

theorem parseI64_minus_of_parseU64 {body : List Char} {m : ℕ} (h : parseU64 body = some (.ok m))
    (hm : m ≤ 2 ^ 63) : parseI64 ('-' :: body) = some (.ok (-m)) := by
  rw [parseI64_minus, h]
  simp only [Option.map_some, Except.bind, asI64_wrappingNeg hm]
  rw [if_neg (by omega)]

/-! ### Every immediate reads back -/

theorem toNat_eq_natAbs_of_nonneg {w : ℕ} {x : BitVec w} (h : 0 ≤ x.toInt) :
    x.toNat = x.toInt.natAbs := by
  have hcond := BitVec.toInt_eq_toNat_cond x
  have hlt := x.isLt
  split_ifs at hcond <;> omega

/-- `Display for Imm64` by sign: a negative number in decimal behind `-`, any other as a
number that is not negative. -/
theorem Imm64.display_eq (x : Imm64) : x.display =
    if x.bits.toInt < 0 then '-' :: Nat.toDigits 10 x.bits.toInt.natAbs
    else decimalOrHex x.bits.toInt.natAbs := by
  unfold display decimalOrHex displayInt
  by_cases hneg : x.bits.toInt < 0
  · simp only [if_pos hneg, if_pos (show x.bits.toInt < 10000 by omega)]
  · simp only [if_neg hneg]
    by_cases hsmall : x.bits.toInt < 10000
    · rw [if_pos hsmall, if_pos (show x.bits.toInt.natAbs < 10000 by omega)]
    · rw [if_neg hsmall, if_neg (show ¬x.bits.toInt.natAbs < 10000 by omega),
        toNat_eq_natAbs_of_nonneg (by omega)]

theorem Imm64.fromStr_display (x : Imm64) : Imm64.fromStr x.display = some (.ok x) := by
  have hlo := BitVec.le_toInt x.bits
  have hhi := BitVec.toInt_lt (x := x.bits)
  have hread : parseI64 x.display = some (.ok x.bits.toInt) := by
    rw [Imm64.display_eq]
    split_ifs with hneg
    · rw [parseI64_minus_of_parseU64 (parseU64_toDigits (by omega)) (by omega)]
      congr 2
      omega
    · rw [parseI64_decimalOrHex (by omega)]
      congr 2
      omega
  rw [Imm64.fromStr, hread]
  simp [Except.map, BitVec.ofInt_toInt]

theorem Uimm64.fromStr_display (x : Uimm64) : Uimm64.fromStr x.display = some (.ok x) := by
  rw [Uimm64.fromStr, Uimm64.display, parseU64_decimalOrHex x.val.isLt]
  simp [Except.map]

theorem Uimm32.fromStr_display (x : Uimm32) : Uimm32.fromStr x.display = some (.ok x) := by
  have hlt := x.val.isLt
  rw [Uimm32.fromStr, Uimm32.display, parseI64_decimalOrHex (by omega)]
  simp only [Option.map_some, Except.bind]
  rw [if_pos (by omega)]
  simp [BitVec.ofInt_natCast]

/-- **The text of an offset reads back** as the offset, except the text of the zero offset,
which is empty and so has no sign. -/
theorem Offset32.fromStr_display (x : Offset32) :
    Offset32.fromStr x.display =
      some (if x.val = 0 then .error "Offset must begin with sign" else .ok x) := by
  have hlo := BitVec.le_toInt x.val
  have hhi := BitVec.toInt_lt (x := x.val)
  by_cases h0 : x.val = 0
  · rw [if_pos h0, Offset32.display, h0]
    decide
  · have hne : x.val.toInt ≠ 0 := fun h => h0 (BitVec.toInt_inj.mp (h.trans BitVec.toInt_zero.symm))
    rw [if_neg h0, Offset32.display, if_neg hne]
    -- the sign is read back with the magnitude behind it
    have hread : parseI64 ((if x.val.toInt < 0 then '-' else '+') ::
        decimalOrHex x.val.toInt.natAbs) = some (.ok x.val.toInt) := by
      split_ifs with hneg
      · rw [parseI64_minus_of_parseU64 (parseU64_decimalOrHex (by omega)) (by omega)]
        congr 2
        omega
      · rw [parseI64_plus, parseU64_decimalOrHex (by omega)]
        simp only [Option.map_some, Except.map, Option.some.injEq, Except.ok.injEq]
        rw [asI64_of_lt (by omega)]
        omega
    have hsign : ((if x.val.toInt < 0 then '-' else '+') ::
        decimalOrHex x.val.toInt.natAbs).head? == some '-' ||
        ((if x.val.toInt < 0 then '-' else '+') :: decimalOrHex x.val.toInt.natAbs).head? ==
          some '+' := by
      split_ifs <;> rfl
    rw [Offset32.fromStr, hsign, Bool.not_true, if_neg Bool.false_ne_true, hread]
    simp only [Option.map_some, Except.bind]
    rw [if_pos (by omega), BitVec.ofInt_toInt]

/-- **The integer immediates read back from their text**: `Imm64`, `Uimm64` and `Uimm32`
always, and `Offset32` unless it is zero, which `Display` writes as no text at all. -/
theorem integer_text_roundTrip :
    (∀ x : Imm64, Imm64.fromStr x.display = some (.ok x)) ∧
    (∀ x : Uimm64, Uimm64.fromStr x.display = some (.ok x)) ∧
    (∀ x : Uimm32, Uimm32.fromStr x.display = some (.ok x)) ∧
    (∀ x : Offset32, Offset32.fromStr x.display =
      some (if x.val = 0 then .error "Offset must begin with sign" else .ok x)) :=
  ⟨Imm64.fromStr_display, Uimm64.fromStr_display, Uimm32.fromStr_display,
    Offset32.fromStr_display⟩

/-! ### What the readers accept -/

/-- The digits of a numeral in a radix: its characters that are digits of the radix. -/
def numeralDigits (radix : ℕ) (l : List Char) : List Char :=
  l.filter fun c => (toDigit c radix).isSome

/-- The body of a numeral in a radix: digits of the radix and `_`. -/
def IsNumeralBody (radix : ℕ) (l : List Char) : Prop :=
  ∀ c ∈ l, c = '_' ∨ (toDigit c radix).isSome

/-- The numerals that `parse_u64` reads, with their values. -/
inductive U64Numeral : List Char → ℕ → Prop
  /-- `0x`, then one to sixteen hexadecimal digits. -/
  | hex {num : List Char} (hbody : IsNumeralBody 16 num)
      (hpos : 0 < (numeralDigits 16 num).length) (hlen : (numeralDigits 16 num).length ≤ 16) :
      U64Numeral ('0' :: 'x' :: num) (charsValue 16 (numeralDigits 16 num) 0)
  /-- At least one decimal digit and fewer than `2^31`, worth less than `2^64`. -/
  | dec {s : List Char} (hbody : IsNumeralBody 10 s) (hpos : 0 < (numeralDigits 10 s).length)
      (hlt : charsValue 10 (numeralDigits 10 s) 0 < 2 ^ 64)
      (hcount : (numeralDigits 10 s).length < 2 ^ 31) :
      U64Numeral s (charsValue 10 (numeralDigits 10 s) 0)

/-- The numerals that `parse_i64` reads, with the integers they stand for: a numeral of
`parse_u64`, behind a sign or none. -/
inductive I64Numeral : List Char → ℤ → Prop
  | neg {body : List Char} {m : ℕ} : U64Numeral body m → I64Numeral ('-' :: body) (-m)
  | pos {body : List Char} {m : ℕ} : U64Numeral body m → I64Numeral ('+' :: body) m
  | unsigned {s : List Char} {m : ℕ} : U64Numeral s m → I64Numeral s m

section Accepts

variable {radix : ℕ} {c : Char} {l : List Char}

theorem numeralDigits_cons_of_some {d : ℕ} (h : toDigit c radix = some d) :
    numeralDigits radix (c :: l) = c :: numeralDigits radix l :=
  List.filter_cons_of_pos (by simp [h])

theorem numeralDigits_cons_of_none (h : toDigit c radix = none) :
    numeralDigits radix (c :: l) = numeralDigits radix l :=
  List.filter_cons_of_neg (by simp [h])

theorem isNumeralBody_cons :
    IsNumeralBody radix (c :: l) ↔ (c = '_' ∨ (toDigit c radix).isSome) ∧ IsNumeralBody radix l :=
  List.forall_mem_cons

theorem numeralDigits_digits (radix : ℕ) (l : List Char) :
    ∀ c ∈ numeralDigits radix l, ∃ d, toDigit c radix = some d := by
  intro c hc
  rw [numeralDigits, List.mem_filter, Option.isSome_iff_exists] at hc
  exact hc.2

end Accepts

/-- **The hexadecimal loop accepts exactly** a body of digits and `_` with at most sixteen
digits in all, and reads their value. -/
theorem parseHexLoop_eq_ok_iff {l : List Char} {value digits v k : ℕ} (hd : digits ≤ 16)
    (hv : value < 16 ^ digits) :
    parseHexLoop l value digits = .ok (v, k) ↔
      IsNumeralBody 16 l ∧ digits + (numeralDigits 16 l).length ≤ 16 ∧
        v = charsValue 16 (numeralDigits 16 l) value ∧
        k = digits + (numeralDigits 16 l).length := by
  induction l generalizing value digits with
  | nil =>
    simp only [parseHexLoop, Except.ok.injEq, Prod.mk.injEq, numeralDigits, List.filter_nil,
      List.length_nil, Nat.add_zero, charsValue_nil]
    constructor
    · rintro ⟨rfl, rfl⟩
      exact ⟨fun _ h => absurd h List.not_mem_nil, hd, rfl, rfl⟩
    · rintro ⟨-, -, rfl, rfl⟩
      exact ⟨rfl, rfl⟩
  | cons c cs ih =>
    rw [isNumeralBody_cons]
    cases hc : toDigit c 16 with
    | some d =>
      have hd16 : d < 16 := lt_of_toDigit_eq_some hc
      rw [numeralDigits_cons_of_some hc, List.length_cons, charsValue_cons, hc, Option.getD_some]
      simp only [parseHexLoop, hc]
      by_cases hfull : 16 < digits + 1
      · -- a seventeenth digit
        rw [if_pos hfull]
        simp only [reduceCtorEq, false_iff, not_and]
        intro _ hlen
        omega
      · have h15 : 16 ^ digits ≤ 16 ^ 15 := Nat.pow_le_pow_right (by decide) (by omega)
        have hnext : value * 16 + d < 16 ^ (digits + 1) := by
          rw [Nat.pow_succ]
          omega
        rw [if_neg hfull, shiftLeft_four_mod_or (by omega) hd16, ih (by omega) hnext]
        simp only [Option.isSome_some, or_true, true_and]
        constructor
        · rintro ⟨hb, hlen, rfl, rfl⟩
          exact ⟨hb, by omega, rfl, by omega⟩
        · rintro ⟨hb, hlen, rfl, rfl⟩
          exact ⟨hb, by omega, rfl, by omega⟩
    | none =>
      rw [numeralDigits_cons_of_none hc]
      simp only [parseHexLoop, hc, Option.isSome_none, Bool.false_eq_true, or_false]
      by_cases hu : c = '_'
      · rw [if_neg (not_not_intro hu), ih hd hv]
        simp [hu]
      · rw [if_pos hu]
        simp [hu]

/-- **The decimal loop accepts exactly** a body of digits and `_` worth less than `2^64`, whose
count of digits stays below `2^31`, and reads its value. -/
theorem parseDecLoop_eq_ok_iff {l : List Char} {value digits v k : ℕ} (hv : value < 2 ^ 64)
    (hd : digits < 2 ^ 31) :
    parseDecLoop l value digits = some (.ok (v, k)) ↔
      IsNumeralBody 10 l ∧ charsValue 10 (numeralDigits 10 l) value < 2 ^ 64 ∧
        digits + (numeralDigits 10 l).length < 2 ^ 31 ∧
        v = charsValue 10 (numeralDigits 10 l) value ∧
        k = digits + (numeralDigits 10 l).length := by
  induction l generalizing value digits with
  | nil =>
    simp only [parseDecLoop, Option.some.injEq, Except.ok.injEq, Prod.mk.injEq, numeralDigits,
      List.filter_nil, List.length_nil, Nat.add_zero, charsValue_nil]
    constructor
    · rintro ⟨rfl, rfl⟩
      exact ⟨fun _ h => absurd h List.not_mem_nil, hv, hd, rfl, rfl⟩
    · rintro ⟨-, -, -, rfl, rfl⟩
      exact ⟨rfl, rfl⟩
  | cons c cs ih =>
    rw [isNumeralBody_cons]
    cases hc : toDigit c 10 with
    | some d =>
      rw [numeralDigits_cons_of_some hc, List.length_cons, charsValue_cons, hc, Option.getD_some]
      simp only [parseDecLoop, hc]
      by_cases hcount : 2 ^ 31 - 1 < digits + 1
      · -- `digits += 1` overflows: a panic, and the count of the whole reaches `2^31`
        rw [if_pos hcount]
        simp only [reduceCtorEq, false_iff, not_and]
        intro _ _ hlen
        omega
      rw [if_neg hcount]
      -- every prefix is worth at most the whole, so an overflow anywhere is one at the end
      have hle := le_charsValue (by decide : 0 < 10) (numeralDigits 10 cs) (value * 10 + d)
      by_cases hover : 2 ^ 64 ≤ value * 10 + d
      · have hrhs : ¬ charsValue 10 (numeralDigits 10 cs) (value * 10 + d) < 2 ^ 64 := by omega
        rw [if_pos hover, ite_self]
        simp only [Option.some.injEq, reduceCtorEq, false_iff, not_and]
        intro _ hlt
        exact absurd hlt hrhs
      · rw [if_neg (by omega), if_neg hover, ih (by omega) (by omega)]
        simp only [Option.isSome_some, or_true, true_and]
        constructor
        · rintro ⟨hb, hlt, hlen, rfl, rfl⟩
          exact ⟨hb, hlt, by omega, rfl, by omega⟩
        · rintro ⟨hb, hlt, hlen, rfl, rfl⟩
          exact ⟨hb, hlt, by omega, rfl, by omega⟩
    | none =>
      rw [numeralDigits_cons_of_none hc]
      simp only [parseDecLoop, hc, Option.isSome_none, Bool.false_eq_true, or_false]
      by_cases hu : c = '_'
      · rw [if_neg (not_not_intro hu), ih hv hd]
        simp [hu]
      · rw [if_pos hu]
        simp [hu]

theorem parseU64_eq_ok_iff_loop {s : List Char} {v : ℕ} :
    parseU64 s = some (.ok v) ↔ ∃ k, parseU64Loop s = some (.ok (v, k)) ∧ k ≠ 0 := by
  unfold parseU64
  rcases parseU64Loop s with _ | (e | ⟨value, k⟩)
  · simp
  · simp
  · by_cases hk : k = 0 <;> simp [hk, eq_comm]

/-- A numeral of `parse_u64` begins with neither sign. -/
theorem U64Numeral.head?_ne {s : List Char} {m : ℕ} (h : U64Numeral s m) {c : Char}
    (hc : c ≠ '_') (hd : toDigit c 10 = none) (h0 : c ≠ '0') : s.head? ≠ some c := by
  cases h with
  | hex => simpa using Ne.symm h0
  | dec hbody =>
    intro hhead
    rcases hbody c (List.mem_of_head? hhead) with hu | hdig
    · exact hc hu
    · simp [hd] at hdig

theorem U64Numeral.lt {s : List Char} {m : ℕ} (h : U64Numeral s m) : m < 2 ^ 64 := by
  cases h with
  | @hex num _ _ hlen =>
    have hlt := charsValue_lt (numeralDigits_digits 16 num) (by decide : 0 < 16 ^ 0)
    calc _ < 16 ^ (0 + _) := hlt
      _ ≤ 16 ^ 16 := Nat.pow_le_pow_right (by decide) (by omega)
      _ = 2 ^ 64 := by norm_num
  | dec _ _ hlt _ => exact hlt

/-- **`parse_u64` accepts exactly the numerals**, `0x` and one to sixteen hexadecimal digits or
fewer than `2^31` decimal digits worth less than `2^64`, with `_` anywhere among the digits, and
reads their value. -/
theorem parseU64_eq_ok_iff (s : List Char) (v : ℕ) :
    parseU64 s = some (.ok v) ↔ U64Numeral s v := by
  rw [parseU64_eq_ok_iff_loop, parseU64Loop]
  by_cases hminus : ['-', '0', 'x'].isPrefixOf s = true
  · -- `-0x` is rejected, and no numeral begins with `-`
    rw [if_pos hminus]
    obtain ⟨rest, rfl⟩ := List.isPrefixOf_iff_prefix.mp hminus
    simp only [List.cons_append, List.nil_append, Option.some.injEq, reduceCtorEq, false_and,
      exists_false, false_iff]
    intro hnum
    exact hnum.head?_ne (by decide) rfl (by decide) rfl
  · rw [if_neg hminus]
    cases hpre : ['0', 'x'].isPrefixOf? s with
    | some num =>
      obtain rfl : s = '0' :: 'x' :: num := (List.isPrefixOf?_eq_some_iff_append_eq.mp hpre).symm
      have hloop : ∀ v k, some (parseHexLoop num 0 0) = some (.ok (v, k)) ↔
          IsNumeralBody 16 num ∧ (numeralDigits 16 num).length ≤ 16 ∧
            v = charsValue 16 (numeralDigits 16 num) 0 ∧ k = (numeralDigits 16 num).length := by
        intro v k
        simpa using @parseHexLoop_eq_ok_iff num 0 0 v k (by decide) (by decide)
      simp only [hloop]
      constructor
      · rintro ⟨k, ⟨hb, hlen, rfl, rfl⟩, hk⟩
        exact .hex hb (Nat.pos_of_ne_zero hk) hlen
      · intro hnum
        cases hnum with
        | hex hb hpos hlen => exact ⟨_, ⟨hb, hlen, rfl, rfl⟩, hpos.ne'⟩
        | dec hb =>
          -- `x` is no decimal digit
          rcases (isNumeralBody_cons.mp (isNumeralBody_cons.mp hb).2).1 with hx | hx
          · cases hx
          · simp [toDigit_x_ten] at hx
    | none =>
      have hloop : ∀ v k, parseDecLoop s 0 0 = some (.ok (v, k)) ↔
          IsNumeralBody 10 s ∧ charsValue 10 (numeralDigits 10 s) 0 < 2 ^ 64 ∧
            (numeralDigits 10 s).length < 2 ^ 31 ∧
            v = charsValue 10 (numeralDigits 10 s) 0 ∧ k = (numeralDigits 10 s).length := by
        intro v k
        simpa using @parseDecLoop_eq_ok_iff s 0 0 v k (by decide) (by decide)
      simp only [hloop]
      constructor
      · rintro ⟨k, ⟨hb, hlt, hcount, rfl, rfl⟩, hk⟩
        exact .dec hb (Nat.pos_of_ne_zero hk) hlt hcount
      · intro hnum
        cases hnum with
        | hex => simp [List.isPrefixOf?] at hpre
        | dec hb hpos hlt hcount => exact ⟨_, ⟨hb, hlt, hcount, rfl, rfl⟩, hpos.ne'⟩

/-- **`parse_u64` on a run of zeros**: no zero is an error, fewer than `2^31` read as `0`, and
more panic on the `i32` count of digits. -/
theorem parseU64_zeros (n : ℕ) :
    parseU64 (List.replicate n '0') =
      if n = 0 then some (.error "No digits in number") else if n < 2 ^ 31 then some (.ok 0)
      else none := by
  have hminus : ['-', '0', 'x'].isPrefixOf (List.replicate n '0') = false :=
    isPrefixOf_eq_false_of_head? rfl (by cases n <;> simp [List.replicate_succ])
  have hhex : ['0', 'x'].isPrefixOf? (List.replicate n '0') = none := by
    rcases n with _ | _ | n <;> simp [List.replicate_succ, List.isPrefixOf?]
  rw [parseU64, parseU64Loop, hminus, if_neg Bool.false_ne_true, hhex]
  dsimp only
  rw [parseDecLoop_zeros n (by decide), Nat.zero_add]
  by_cases h0 : n = 0
  · subst h0
    rfl
  · rw [if_neg h0]
    by_cases hn : n < 2 ^ 31
    · rw [if_pos hn, if_pos hn]
      dsimp only
      rw [if_neg h0]
    · rw [if_neg hn, if_neg hn]

/-- A numeral has one value: the one `parse_u64` reads. -/
theorem u64Numeral_iff_of_parseU64 {s : List Char} {m : ℕ} (hp : parseU64 s = some (.ok m))
    (m' : ℕ) : U64Numeral s m' ↔ m' = m := by
  rw [← parseU64_eq_ok_iff, hp, Option.some.injEq, Except.ok.injEq, eq_comm]

/-- A text that `parse_u64` rejects, or on which it panics, is no numeral. -/
theorem not_u64Numeral_of_parseU64 {s : List Char} (hp : ∀ m, parseU64 s ≠ some (.ok m))
    (m : ℕ) : ¬ U64Numeral s m :=
  fun h => hp m ((parseU64_eq_ok_iff s m).mpr h)

theorem i64Numeral_minus_iff {body : List Char} {n : ℤ} :
    I64Numeral ('-' :: body) n ↔ ∃ m, U64Numeral body m ∧ n = -m := by
  constructor
  · intro h
    generalize hs : '-' :: body = s at h
    cases h with
    | neg hm =>
      obtain ⟨-, rfl⟩ := List.cons.inj hs
      exact ⟨_, hm, rfl⟩
    | pos => exact absurd (List.cons.inj hs).1 (by decide)
    | unsigned hm => exact absurd (by rw [← hs]; rfl) (hm.head?_ne (by decide) rfl (by decide))
  · rintro ⟨m, hm, rfl⟩
    exact .neg hm

theorem i64Numeral_plus_iff {body : List Char} {n : ℤ} :
    I64Numeral ('+' :: body) n ↔ ∃ m, U64Numeral body m ∧ n = m := by
  constructor
  · intro h
    generalize hs : '+' :: body = s at h
    cases h with
    | neg => exact absurd (List.cons.inj hs).1 (by decide)
    | pos hm =>
      obtain ⟨-, rfl⟩ := List.cons.inj hs
      exact ⟨_, hm, rfl⟩
    | unsigned hm => exact absurd (by rw [← hs]; rfl) (hm.head?_ne (by decide) rfl (by decide))
  · rintro ⟨m, hm, rfl⟩
    exact .pos hm

theorem i64Numeral_iff_of_head? {s : List Char} {n : ℤ} (hm : s.head? ≠ some '-')
    (hp : s.head? ≠ some '+') : I64Numeral s n ↔ ∃ m, U64Numeral s m ∧ n = m := by
  constructor
  · intro h
    cases h with
    | neg => exact absurd rfl hm
    | pos => exact absurd rfl hp
    | unsigned hnum => exact ⟨_, hnum, rfl⟩
  · rintro ⟨m, hnum, rfl⟩
    exact .unsigned hnum

/-- A numeral read with no negation: its value modulo `2^64`. -/
theorem map_asI64_eq_ok_iff (body : List Char) (v : ℤ) :
    (parseU64 body).map (fun r => r.map asI64) = some (.ok v) ↔
      ∃ n, (∃ m, U64Numeral body m ∧ n = (m : ℤ)) ∧ -2 ^ 63 ≤ n ∧ v = n.bmod (2 ^ 64) := by
  rcases hp : parseU64 body with _ | (e | m)
  · simp [not_u64Numeral_of_parseU64 (s := body) (by simp [hp])]
  · simp [Except.map, not_u64Numeral_of_parseU64 (s := body) (by simp [hp])]
  · have hlt := ((parseU64_eq_ok_iff _ _).mp hp).lt
    simp only [Option.map_some, Option.some.injEq, Except.map, u64Numeral_iff_of_parseU64 hp,
      exists_eq_left, Except.ok.injEq, asI64_eq_bmod hlt]
    constructor
    · intro h
      exact ⟨by omega, h.symm⟩
    · rintro ⟨-, h⟩
      exact h.symm

/-- **`parse_i64` accepts exactly the signed numerals of the range and a half**, from `-2^63` to
`2^64 - 1`, and reads each as its value modulo `2^64`, in the range of an `i64`. -/
theorem parseI64_eq_ok_iff (s : List Char) (v : ℤ) :
    parseI64 s = some (.ok v) ↔ ∃ n, I64Numeral s n ∧ -2 ^ 63 ≤ n ∧ v = n.bmod (2 ^ 64) := by
  by_cases hm : s.head? = some '-'
  · -- a negative number: its magnitude is negated, and must be at most `2^63`
    obtain ⟨body, rfl⟩ := List.head?_eq_some_iff.mp hm
    simp only [i64Numeral_minus_iff, parseI64_minus]
    rcases hp : parseU64 body with _ | (e | m)
    · simp [not_u64Numeral_of_parseU64 (s := body) (by simp [hp])]
    · simp [Except.bind, not_u64Numeral_of_parseU64 (s := body) (by simp [hp])]
    · have hlt := ((parseU64_eq_ok_iff _ _).mp hp).lt
      simp only [Option.map_some, Option.some.injEq, Except.bind, u64Numeral_iff_of_parseU64 hp,
        exists_eq_left]
      by_cases hbig : 2 ^ 63 < m
      · rw [if_pos (asI64_wrappingNeg_pos hbig hlt)]
        simp only [reduceCtorEq, false_iff, not_and]
        intro hrange
        omega
      · rw [asI64_wrappingNeg (by omega), if_neg (by omega), Except.ok.injEq]
        constructor
        · rintro rfl
          exact ⟨by omega, (neg_bmod (by omega)).symm⟩
        · rintro ⟨-, rfl⟩
          exact (neg_bmod (by omega)).symm
  · by_cases hp' : s.head? = some '+'
    · -- an explicitly positive number
      obtain ⟨body, rfl⟩ := List.head?_eq_some_iff.mp hp'
      simp only [i64Numeral_plus_iff, parseI64_plus]
      exact map_asI64_eq_ok_iff body v
    · -- no sign
      simp only [i64Numeral_iff_of_head? hm hp', parseI64_of_head? hm hp']
      exact map_asI64_eq_ok_iff s v

/-- **What the integer readers accept**: `parse_u64` reads exactly the numerals of `U64Numeral`
and `parse_i64` exactly the signed ones of the range and a half, each with its value. -/
theorem integer_numerals_accepted :
    (∀ s v, parseU64 s = some (.ok v) ↔ U64Numeral s v) ∧
    (∀ s v, parseI64 s = some (.ok v) ↔ ∃ n, I64Numeral s n ∧ -2 ^ 63 ≤ n ∧ v = n.bmod (2 ^ 64)) ∧
    (∀ n, parseU64 (List.replicate n '0') =
      if n = 0 then some (.error "No digits in number") else if n < 2 ^ 31 then some (.ok 0)
      else none) :=
  ⟨parseU64_eq_ok_iff, parseI64_eq_ok_iff, parseU64_zeros⟩

end Cranelift.Ir
