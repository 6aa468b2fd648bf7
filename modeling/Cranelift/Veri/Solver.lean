import Cranelift.Lib.Smt

/-!
# Dynamic rotates in the verifier's SMT encoding

A model of `Solver::encode_rotate` from `cranelift/isle/veri/veri/src/solver.rs`, which
`Solver::expr_to_smt` uses for `Expr::BVRotl` and `Expr::BVRotr`. SMT-LIB rotates take a
constant amount, so a rotate by a term is desugared into two shifts: by the amount reduced
modulo the width, and by the width minus that.

`smt.binary(width, width)` is the literal `#b…` of `width` binary digits with value `width`,
which fits since `width < 2 ^ width`.

## Main definitions

* `Cranelift.Veri.Solver.encodeRotate`.

## Main results

* `Cranelift.Veri.Solver.encodeRotate_exact` — for every width `w ≥ 1`, the encoding of a
  rotate of `x` by `a` denotes the rotate of `x` by `a mod w`, in both directions.
-/

namespace Cranelift.Veri.Solver

open Smt

/-- `RotationDirection`. -/
inductive RotationDirection where
  | left
  | right
deriving DecidableEq, Repr

/-- `Solver::encode_rotate`. -/
def encodeRotate (op : RotationDirection) (source amount : Term String) (width : ℕ) :
    Term String :=
  let widthAsBv := Term.lit width width
  let wrappedAmount := bvurem amount widthAsBv
  let wrappedDelta := bvsub widthAsBv wrappedAmount
  match op with
  | .left => bvor (bvshl source wrappedAmount) (bvlshr source wrappedDelta)
  | .right => bvor (bvshl source wrappedDelta) (bvlshr source wrappedAmount)

section Rotate

variable {w : ℕ} (a : BitVec w)

/-- The amount, reduced modulo the width by `bvurem`. -/
theorem toNat_umod_width : (a % BitVec.ofNat w w).toNat = a.toNat % w := by
  rw [BitVec.toNat_umod, BitVec.toNat_ofNat, Nat.mod_eq_of_lt Nat.lt_two_pow_self]

/-- The complementary amount `w - a mod w`, computed by `bvsub` without wrapping, and equal to
`w` when `a mod w = 0`. -/
theorem toNat_width_sub_umod (hw : 0 < w) :
    (BitVec.ofNat w w - a % BitVec.ofNat w w).toNat = w - a.toNat % w := by
  have hlt : a.toNat % w < w := Nat.mod_lt _ hw
  have hle : (a % BitVec.ofNat w w).toNat ≤ (BitVec.ofNat w w).toNat := by
    rw [toNat_umod_width, BitVec.toNat_ofNat, Nat.mod_eq_of_lt Nat.lt_two_pow_self]
    omega
  rw [BitVec.toNat_sub_of_le (BitVec.le_def.mpr hle), toNat_umod_width, BitVec.toNat_ofNat,
    Nat.mod_eq_of_lt Nat.lt_two_pow_self]

end Rotate

/-- **`encode_rotate` is exact**: for every width `w ≥ 1` and all `w`-bit values `x` and `a`,
the encoding denotes the rotate of `x` by `a mod w`, left and right, including `a mod w = 0`
where the second shift is by the full width. -/
theorem encodeRotate_exact (ρ : String → Value) {source amount : Term String} {w : ℕ}
    (hw : 0 < w) {x a : BitVec w} (hx : source.eval ρ = some (.bv w x))
    (ha : amount.eval ρ = some (.bv w a)) :
    (encodeRotate .left source amount w).eval ρ = some (.bv w (x.rotateLeft (a.toNat % w))) ∧
      (encodeRotate .right source amount w).eval ρ =
        some (.bv w (x.rotateRight (a.toNat % w))) := by
  have hlit : (Term.lit w w : Term String).eval ρ = some (.bv w (BitVec.ofNat w w)) := rfl
  have hamount := Term.eval_bin ha hlit .urem
  have hdelta := Term.eval_bin hlit hamount .sub
  have hmod : a.toNat % w % w = a.toNat % w := Nat.mod_mod _ _
  constructor
  · have hleft := Term.eval_bin (Term.eval_bin hx hamount .shl)
      (Term.eval_bin hx hdelta .lshr) .or
    refine hleft.trans ?_
    simp only [BvBinOp.apply, BitVec.shiftLeft_eq', BitVec.ushiftRight_eq', toNat_umod_width,
      toNat_width_sub_umod a hw, BitVec.rotateLeft_def, hmod]
  · have hright := Term.eval_bin (Term.eval_bin hx hdelta .shl)
      (Term.eval_bin hx hamount .lshr) .or
    refine hright.trans ?_
    simp only [BvBinOp.apply, BitVec.shiftLeft_eq', BitVec.ushiftRight_eq', toNat_umod_width,
      toNat_width_sub_umod a hw, BitVec.rotateRight_def, hmod, BitVec.or_comm]

theorem encodeRotate_exact_eight :
    0 < 8 ∧ (Term.lit 8 0x81 : Term String).eval (fun _ => .bool true) = some (.bv 8 0x81#8) ∧
      (Term.lit 8 9 : Term String).eval (fun _ => .bool true) = some (.bv 8 9#8) ∧
      (encodeRotate .left (.lit 8 0x81) (.lit 8 9) 8).eval (fun _ => .bool true) =
          some (.bv 8 ((0x81#8).rotateLeft ((9#8).toNat % 8))) ∧
        (encodeRotate .right (.lit 8 0x81) (.lit 8 9) 8).eval (fun _ => .bool true) =
          some (.bv 8 ((0x81#8).rotateRight ((9#8).toNat % 8))) :=
  ⟨by decide, rfl, rfl, encodeRotate_exact (fun _ => .bool true) (by decide) rfl rfl⟩

end Cranelift.Veri.Solver
