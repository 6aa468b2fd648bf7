import Mathlib.Data.BitVec

/-!
# `ImmLogic`: AArch64 logical immediates

A model of `ImmLogic::maybe_from_u64`, `enc_bits` and `invert` in
`cranelift/codegen/src/isa/aarch64/inst/imms.rs`, of the test helpers `repeat` and
`get_logical_imm` of the same file, and, as the specification they are compared with, the
architecture's `DecodeBitMasks` for 64-bit results.

Rust's `u64` and `u32` are `BitVec 64` and `BitVec 32`. Every operation that panics on overflow
in a debug build (`-`, `+`, `*`, `<<` past the width, an index out of bounds, `assert_ne!`,
`debug_assert!`, `unwrap` of `None`) is checked, and a panic is the outer `none`; the wrapping
operations (`wrapping_add`, `wrapping_sub`, `wrapping_neg`) are the `BitVec` ones.

## Main definitions

* `Cranelift.Aarch64.ImmLogic.maybeFromU64` — the encoder, a port of VIXL's `IsImmLogical`.
* `Cranelift.Aarch64.getLogicalImm` — the unit test's decoder of an `(N, imms, immr)` triple.
* `Cranelift.Aarch64.decodeBitMasks` — the architecture's decoder.

## Main results

* `Cranelift.Aarch64.getLogicalImm_ne_decodeBitMasks` — the unit test's decoder rotates an
  element inside the whole 64-bit word and loses the bits that wrap around, so it disagrees with
  `DecodeBitMasks` on the encoding that the encoder returns for `0x8888888888888888`.
-/

namespace Cranelift.Aarch64

/-! ### Machine words -/

/-- The scalar integer types of the Cranelift IR that an `OperandSize` can be built from. -/
inductive IrType where
  | I8
  | I16
  | I32
  | I64
  | I128
  deriving DecidableEq, Repr

/-- `ty_bits`. -/
def IrType.bits : IrType → ℕ
  | .I8 => 8
  | .I16 => 16
  | .I32 => 32
  | .I64 => 64
  | .I128 => 128

/-- The width of a register operand. -/
inductive OperandSize where
  | Size32
  | Size64
  deriving DecidableEq, Repr

/-- `OperandSize::from_bits`; the `assert!(bits <= 64)` panics above 64 bits. -/
def OperandSize.fromBits (bits : ℕ) : Option OperandSize :=
  if bits ≤ 64 then some (if bits ≤ 32 then .Size32 else .Size64) else none

/-- `OperandSize::from_ty`. -/
def OperandSize.fromTy (ty : IrType) : Option OperandSize := fromBits ty.bits

/-- `OperandSize::to_ty`. -/
def OperandSize.toTy : OperandSize → IrType
  | .Size32 => .I32
  | .Size64 => .I64

/-- The loop of `trailing_zeros`: the number of low zero bits of `n`, scanning at most `k`. -/
def trailingZerosAux (n : ℕ) : ℕ → ℕ
  | 0 => 0
  | k + 1 => if n % 2 = 1 then 0 else trailingZerosAux (n / 2) k + 1

/-- `u64::trailing_zeros`; it is 64 for zero. -/
def trailingZeros (x : BitVec 64) : BitVec 32 := BitVec.ofNat 32 (trailingZerosAux x.toNat 64)

/-- The number of significant bits of `n`, counting at most `k`. -/
def bitLength : ℕ → ℕ → ℕ
  | _, 0 => 0
  | n, k + 1 => if n = 0 then 0 else bitLength (n / 2) k + 1

/-- `u64::leading_zeros`; it is 64 for zero. -/
def leadingZeros (x : BitVec 64) : BitVec 32 := BitVec.ofNat 32 (64 - bitLength x.toNat 64)

/-- The `-` of `u32` or `u64`, which panics on underflow. -/
def checkedSub {w : ℕ} (a b : BitVec w) : Option (BitVec w) :=
  if b.toNat ≤ a.toNat then some (a - b) else none

/-- The `+` of `u32`, which panics on overflow. -/
def checkedAdd {w : ℕ} (a b : BitVec w) : Option (BitVec w) :=
  if a.toNat + b.toNat < 2 ^ w then some (a + b) else none

/-- The `*` of `u32` or `u64`, which panics on overflow. -/
def checkedMul {w : ℕ} (a b : BitVec w) : Option (BitVec w) :=
  if a.toNat * b.toNat < 2 ^ w then some (a * b) else none

/-- The `<<` of `u64` by a `u32`, which panics when the amount reaches the width. -/
def checkedShl (a : BitVec 64) (s : BitVec 32) : Option (BitVec 64) :=
  if s.toNat < 64 then some (a <<< s.toNat) else none

/-- `u32::is_power_of_two`. -/
def isPowerOfTwo (d : BitVec 32) : Bool := d ≠ 0 && (d &&& (d - 1)) == 0

/-! ### The encoder -/

/-- `ImmLogic`: the value and its `N`, `R` and `S` fields. -/
structure ImmLogic where
  value : BitVec 64
  n : Bool
  r : BitVec 8
  s : BitVec 8
  size : OperandSize
  deriving DecidableEq, Repr

namespace ImmLogic

/-- `lowest_set_bit`: `1u64.checked_shl(value.trailing_zeros()).unwrap_or(0)`. -/
def lowestSetBit (value : BitVec 64) : BitVec 64 :=
  (checkedShl 1 (trailingZeros value)).getD 0

/-- `MULTIPLIERS`: the words that repeat a stretch every 64, 32, ..., 2 bits. -/
def multipliers : List (BitVec 64) :=
  [0x0000000000000001, 0x0000000100000001, 0x0001000100010001, 0x0101010101010101,
    0x1111111111111111, 0x5555555555555555]

/-- `ImmLogic::maybe_from_u64`. The inner `none` is the function's own `None`; the outer `none`
is a panic. -/
def maybeFromU64 (value : BitVec 64) (ty : IrType) : Option (Option ImmLogic) := do
  if ty ≠ .I64 ∧ ty ≠ .I32 then return none
  let operandSize ← OperandSize.fromTy ty
  let originalValue := value
  -- a 32-bit value is repeated into both halves of the word
  let value := if ty = .I32 then (value <<< 32) ||| ((value <<< 32) >>> 32) else value
  let (value, inverted) := if value &&& 1 = 1 then (~~~value, true) else (value, false)
  if value = 0 then return none
  let a := lowestSetBit value
  if a = 0 then failure
  let valuePlusA := value + a
  let b := lowestSetBit valuePlusA
  let valuePlusAMinusB ← checkedSub valuePlusA b
  let c := lowestSetBit valuePlusAMinusB
  let (d, clzA, outN, mask) ← if c ≠ 0 then do
      let clzA := leadingZeros a
      let clzC := leadingZeros c
      let d ← checkedSub clzA clzC
      let shifted ← checkedShl 1 d
      let mask ← checkedSub shifted 1
      pure (d, clzA, (0 : BitVec 32), mask)
    else pure (64, leadingZeros a, 1, BitVec.allOnes 64)
  if !isPowerOfTwo d then return none
  if ((b - a) &&& ~~~mask) ≠ 0 then return none
  let index ← checkedSub (leadingZeros (d.zeroExtend 64)) 57
  let multiplier ← multipliers[index.toNat]?
  let candidate ← checkedMul (b - a) multiplier
  if value ≠ candidate then return none
  let clzB := if b = 0 then BitVec.allOnes 32 else leadingZeros b
  let s := clzA - clzB
  let dMinusOne ← checkedSub d 1
  let (s, r) ← if inverted then do
      let ds ← checkedSub d s
      pure (ds, (clzB + 1) &&& dMinusOne)
    else do
      let clzA1 ← checkedAdd clzA 1
      pure (s, clzA1 &&& dMinusOne)
  let d2 ← checkedMul d 2
  let sMinusOne ← checkedSub s 1
  let s := (-d2 ||| sMinusOne) &&& 0x3f
  -- the two `debug_assert!`s that the fields fit in a byte
  if 256 ≤ r.toNat ∨ 256 ≤ s.toNat then failure
  return some ⟨originalValue, outN ≠ 0, r.setWidth 8, s.setWidth 8, operandSize⟩

/-- `ImmLogic::enc_bits`: `N:R:S` in bits 12, 6 to 11 and 0 to 5. -/
def encBits (imm : ImmLogic) : BitVec 32 :=
  ((if imm.n then 1 else 0) <<< 12) ||| (imm.r.setWidth 32 <<< 6) ||| imm.s.setWidth 32

/-- `ImmLogic::invert`: the encoding of the complement, whose `unwrap` panics on `None`. -/
def invert (imm : ImmLogic) : Option ImmLogic :=
  (maybeFromU64 (~~~imm.value) imm.size.toTy).bind id

end ImmLogic

/-! ### The test helpers -/

/-- The loop of `repeat`: double the repeated stretch until it fills 64 bits. Running out of
iterations is the loop not terminating, which happens only for `width = 0`. -/
def repeatLoop (result i : BitVec 64) : ℕ → Option (BitVec 64)
  | 0 => none
  | fuel + 1 =>
    if i.toNat < 64 then repeatLoop (result ||| (result <<< i.toNat)) (i * 2) fuel
    else some result

/-- The test helper `repeat`: the low `width` bits of `value`, repeated across 64 bits. -/
def «repeat» (value width : BitVec 64) : Option (BitVec 64) := do
  let shifted ← checkedShl 1 (width.setWidth 32)
  let low ← checkedSub shifted 1
  repeatLoop (value &&& low) width 65

/-- The element loop of `get_logical_imm`: find the element width from the first clear bit
of `s` among `0x20, 0x10, ..., 0x2`. Falling out of the loop is `unreachable!()`. -/
def getLogicalImmLoop (s r : BitVec 32) : ℕ → BitVec 32 → Option (BitVec 64)
  | 0, _ => none
  | fuel + 1, width =>
    if 2 ≤ width.toNat then
      if s &&& width = 0 then
        let mask := width - 1
        if s &&& mask = mask then some 0
        else do
          let shifted ← checkedShl 1 ((s &&& mask) + 1)
          let bits ← checkedSub shifted 1
          «repeat» (bits.rotateRight (r &&& mask).toNat) (width.setWidth 64)
      else getLogicalImmLoop s r fuel (width >>> 1)
    else none

/-- The test helper `get_logical_imm`: the value of the encoding `(n, s, r)`. -/
def getLogicalImm (n s r : BitVec 32) : Option (BitVec 64) :=
  if n = 1 then
    if s = 0x3f then some 0
    else do
      let shifted ← checkedShl 1 (s + 1)
      let bits ← checkedSub shifted 1
      some (bits.rotateRight (r.toNat % 64))
  else if s >>> 1 = 0x1f then some 0
  else getLogicalImmLoop s r 6 0x20

/-! ### The architecture's decoder -/

/-- The index of the highest set bit of a nonzero number. -/
def highestSetBit (x : ℕ) : Option ℕ :=
  if x = 0 then none else some (bitLength x 64 - 1)

/-- `Replicate`: `count` copies of an `esize`-bit element, the first in the lowest bits. -/
def replicateElem (elem esize : ℕ) : ℕ → ℕ
  | 0 => 0
  | count + 1 => elem + 2 ^ esize * replicateElem elem esize count

/-- `DecodeBitMasks(N, imms, immr)` of the Arm architecture for a 64-bit result: the element
size is `2 ^ len` with `len` the highest set bit of `N:NOT(imms)`, the element is `S + 1` ones
rotated right by `R` within the element, and it is replicated across 64 bits. All ones in the
`S` field, and `len = 0`, are reserved. -/
def decodeBitMasks (immN : Bool) (imms immr : BitVec 6) : Option (BitVec 64) := do
  let len ← highestSetBit ((if immN then 64 else 0) + (~~~imms).toNat)
  if len < 1 then failure
  let levels := 2 ^ len - 1
  let S := imms.toNat &&& levels
  let R := immr.toNat &&& levels
  if S = levels then failure
  let esize := 2 ^ len
  let welem := 2 ^ (S + 1) - 1
  let elem := (welem >>> R ||| welem <<< (esize - R)) % 2 ^ esize
  return BitVec.ofNat 64 (replicateElem elem esize (64 / esize))

/-- **The unit test's decoder is not `DecodeBitMasks`.** For `0x8888888888888888` the encoder
finds the element `0b1000` of four bits (`N = 0`, `S = 0b111000`, `R = 1`), which
`DecodeBitMasks` decodes back to the value; `get_logical_imm` rotates the one set bit out of
the element's four bits and then masks it away, and decodes the same fields to zero. -/
theorem getLogicalImm_ne_decodeBitMasks :
    ImmLogic.maybeFromU64 0x8888888888888888#64 .I64 =
        some (some ⟨0x8888888888888888#64, false, 1#8, 56#8, .Size64⟩) ∧
      decodeBitMasks false 56#6 1#6 = some 0x8888888888888888#64 ∧
      getLogicalImm 0#32 56#32 1#32 = some 0#64 := by
  decide

end Cranelift.Aarch64
