import Cranelift.Lib.BitFields

/-!
# `ASIMDFPModImm`: AArch64 floating-point immediates

A model of `ASIMDFPModImm::maybe_from_u64`, `value16`, `value32` and `value64` in
`cranelift/codegen/src/isa/aarch64/inst/imms.rs`, the immediate of the vector `FMOV`: an 8-bit
number `0b_abcdefgh` that stands for a half, single or double precision float. As the
specification they are compared with, the architecture's `VFPExpandImm`, which expands `imm8`
to the float with sign `a`, exponent `NOT(b) : Replicate(b, E - 3) : cd` and fraction
`efgh : Zeros(F - 4)`, for a format with `E` exponent and `F` fraction bits.

Rust's `u8`, `u16`, `u32` and `u64` are `BitVec 8` to `BitVec 64`, and `as` between them is
`setWidth`. Nothing here can overflow: every product is of a bit with a mask of ones.

## Main definitions

* `Cranelift.Aarch64.ScalarSize`, `Cranelift.Aarch64.ASIMDFPModImm`.
* `ASIMDFPModImm.modImmValue` — the body of `value16`, `value32` and `value64`, each of which is
  it at its own width and positions of the fields of `imm`.
* `ASIMDFPModImm.immBits` — how each arm of `maybe_from_u64` reads `imm` off the value.
* `ASIMDFPModImm.maybeFromU64`.
* `Cranelift.Aarch64.vfpExpandImm` — the architecture's expansion.
* `ASIMDFPModImm.ExactArm` — an arm of `maybe_from_u64` accepts exactly the expansions of some
  `imm8`, and returns that `imm8`.

## Main results

* `ASIMDFPModImm.modImmValue_eq_vfpExpandImm` — for every format with at least three exponent
  and four fraction bits, `modImmValue` at that format's positions is `VFPExpandImm`.
* `ASIMDFPModImm.immBits_modImmValue` — the extraction of `imm` undoes `modImmValue`.
* `ASIMDFPModImm.checkedArm_eq_some_iff` — a decoder checked against its encoder returns what
  the encoder maps to the value.
* `ASIMDFPModImm.maybeFromU64_exact` — the three arms of `maybe_from_u64` are exact for the
  half, single and double precision formats.
-/

namespace Cranelift.Aarch64

open BitFields

/-- `ScalarSize`. -/
inductive ScalarSize where
  | Size8
  | Size16
  | Size32
  | Size64
  | Size128
  deriving DecidableEq, Repr

/-- `ASIMDFPModImm`. -/
structure ASIMDFPModImm where
  imm : BitVec 8
  size : ScalarSize
  deriving DecidableEq, Repr

/-- `VFPExpandImm(imm8)` of the Arm architecture, for a format with `e` exponent and `f`
fraction bits. The width is `1 + e + f` as the concatenations compute it. -/
def vfpExpandImm (e f : ℕ) (imm8 : BitVec 8) :
    BitVec (1 + (1 + 1 * (e - 3) + 2) + (4 + (f - 4))) :=
  let sign := imm8.extractLsb' 7 1
  let b := imm8.extractLsb' 6 1
  let exp := ~~~b ++ BitVec.replicate (e - 3) b ++ imm8.extractLsb' 4 2
  let frac := imm8.extractLsb' 0 4 ++ 0#(f - 4)
  sign ++ exp ++ frac

namespace ASIMDFPModImm

/-! ### The encoder and the decoder -/

/-- The body of `value16`, `value32` and `value64`: in a word of `w` bits, the low six bits of
`imm` at `lo`, bit 6 times the mask `ones` at `hi`, its inverse at `inv` and bit 7 at `top`. -/
def modImmValue (w lo ones hi inv top : ℕ) (imm : BitVec 8) : BitVec w :=
  let imm := imm.setWidth w
  let b0_5 := imm &&& 0b111111
  let b6 := (imm >>> 6) &&& 1
  let b6_inv := b6 ^^^ 1
  let b7 := (imm >>> 7) &&& 1
  b0_5 <<< lo ||| (b6 * BitVec.ofNat w ones) <<< hi ||| b6_inv <<< inv ||| b7 <<< top

/-- `ASIMDFPModImm::value16`. -/
def value16 (imm : BitVec 8) : BitVec 16 := modImmValue 16 6 0b11 12 14 15 imm

/-- `ASIMDFPModImm::value32`. -/
def value32 (imm : BitVec 8) : BitVec 32 := modImmValue 32 19 0b11111 25 30 31 imm

/-- `ASIMDFPModImm::value64`. -/
def value64 (imm : BitVec 8) : BitVec 64 := modImmValue 64 48 0b11111111 54 62 63 imm

/-- How an arm of `maybe_from_u64` reads `imm` off the value: bits 0 to 6 from `s` on, and bit 7
from `t + 7`. -/
def immBits {w : ℕ} (s t : ℕ) (value : BitVec w) : BitVec 8 :=
  let b0_5 := (value >>> s) &&& 0b111111
  let b6 := (value >>> s) &&& ((1 : BitVec w) <<< 6)
  let b7 := (value >>> t) &&& ((1 : BitVec w) <<< 7)
  (b0_5 ||| b6 ||| b7).setWidth 8

/-- An arm of `maybe_from_u64`: the `imm` read off the value, kept when it encodes the value. -/
def checkedArm {w : ℕ} (immOf : BitVec w → BitVec 8) (valueOf : BitVec 8 → BitVec w)
    (value : BitVec w) (size : ScalarSize) : Option ASIMDFPModImm :=
  let imm := immOf value
  if value = valueOf imm then some ⟨imm, size⟩ else none

/-- `ASIMDFPModImm::maybe_from_u64`. -/
def maybeFromU64 (value : BitVec 64) (size : ScalarSize) : Option ASIMDFPModImm :=
  match size with
  | .Size16 => checkedArm (immBits 6 8) value16 (value.setWidth 16) size
  | .Size32 => checkedArm (immBits 19 24) value32 (value.setWidth 32) size
  | .Size64 => checkedArm (immBits 48 56) value64 value size
  | _ => none

/-! ### The bits of the encoding -/

variable {w : ℕ}

theorem getLsbD_and_63_shiftLeft (x : BitVec w) (p i : ℕ) :
    ((x &&& 63#w) <<< p).getLsbD i = (decide (p ≤ i ∧ i < p + 6 ∧ i < w) && x.getLsbD (i - p)) :=
  getLsbD_and_mask_shiftLeft x 6 p i

theorem getLsbD_and_63 (x : BitVec w) (j : ℕ) :
    (x &&& 63#w).getLsbD j = (decide (j < 6) && x.getLsbD j) :=
  getLsbD_and_mask x 6 j

/-- The bits of `modImmValue`, field by field. -/
theorem getLsbD_modImmValue {lo k hi inv top : ℕ} (imm : BitVec 8) (i : ℕ) :
    (modImmValue w lo (2 ^ k - 1) hi inv top imm).getLsbD i =
      ((decide (lo ≤ i ∧ i < lo + 6 ∧ i < w) && (imm.setWidth w).getLsbD (i - lo)) ||
        (decide (hi ≤ i ∧ i < hi + k ∧ i < w) && (imm.setWidth w).getLsbD 6) ||
        (decide (i = inv ∧ inv < w) && !(imm.setWidth w).getLsbD 6) ||
        (decide (i = top ∧ top < w) && (imm.setWidth w).getLsbD 7)) := by
  simp only [modImmValue, BitVec.ofNat_eq_ofNat, BitVec.getLsbD_or, getLsbD_and_63_shiftLeft,
    getLsbD_bitMul_shiftLeft, getLsbD_notBit_shiftLeft, getLsbD_bit_shiftLeft]

/-- The bits of `immBits`: bits 0 to 6 of `imm` from `s` on, and bit 7 from `t + 7`. -/
theorem getLsbD_immBits {s t : ℕ} (hw : 8 ≤ w) (x : BitVec w) {j : ℕ} (hj : j < 8) :
    (immBits s t x).getLsbD j = if j < 7 then x.getLsbD (s + j) else x.getLsbD (t + 7) := by
  simp only [immBits, BitVec.ofNat_eq_ofNat, BitVec.getLsbD_setWidth, BitVec.getLsbD_or,
    getLsbD_and_63, getLsbD_and_one_shiftLeft, BitVec.getLsbD_ushiftRight]
  -- the three masks pick bits 0 to 5, bit 6 and bit 7
  rcases (by omega : j < 6 ∨ j = 6 ∨ j = 7) with h | rfl | rfl
  · simp [hj, h, show j ≠ 6 by omega, show j ≠ 7 by omega, show j < 7 by omega]
  · simp [show 6 < w by omega]
  · simp [show 7 < w by omega]

/-! ### The encoder is `VFPExpandImm` -/

/-- **`modImmValue` is `VFPExpandImm`** for every format with `e ≥ 3` exponent and `f ≥ 4`
fraction bits, with the low six bits of `imm8` at `f - 4`, `e - 3` copies of `b` at `f + 2`,
`NOT(b)` at `f + e - 1` and the sign at `f + e`. -/
theorem modImmValue_eq_vfpExpandImm {e f : ℕ} (he : 3 ≤ e) (hf : 4 ≤ f) (imm : BitVec 8) :
    modImmValue (1 + (1 + 1 * (e - 3) + 2) + (4 + (f - 4))) (f - 4) (2 ^ (e - 3) - 1) (f + 2)
      (f + e - 1) (f + e) imm = vfpExpandImm e f imm := by
  obtain ⟨e, rfl⟩ := Nat.exists_eq_add_of_le' he
  obtain ⟨f, rfl⟩ := Nat.exists_eq_add_of_le' hf
  apply BitVec.eq_of_getLsbD_eq
  intro i hi
  rw [getLsbD_modImmValue]
  simp only [vfpExpandImm, BitVec.getLsbD_append, BitVec.getLsbD_extractLsb',
    BitVec.getLsbD_replicate, BitVec.getLsbD_not, BitVec.getLsbD_zero, BitVec.getLsbD_setWidth,
    Nat.add_sub_cancel, Nat.one_mul, Nat.mod_one]
  -- one case per field of `VFPExpandImm`; in each, the bounds of both sides are decided alike
  -- and what is left is the position of the bit of `imm8`
  split_ifs with h₁ h₂ h₃ h₄ h₅
  all_goals simp (disch := omega) only [decide_eq_true, decide_eq_false, Bool.true_and,
    Bool.false_and, Bool.or_false, Bool.false_or]
  · -- `efgh`
    exact congrArg imm.getLsbD (by omega)
  · -- `cd`
    exact congrArg imm.getLsbD (by omega)
  · -- `NOT(b)`
    exact congrArg (fun j => !imm.getLsbD j) (by omega)
  · -- the sign `a`
    exact congrArg imm.getLsbD (by omega)

/-- **The extraction undoes the encoder**, when the fields are laid out as in every format:
bit 6 next above the low six bits, its copies below its inverse, and bit 7 at the top. -/
theorem immBits_modImmValue {lo k inv t : ℕ} (hk : 0 < k) (hinv : lo + 6 + k ≤ inv)
    (ht : inv < t + 7) (hw : t + 7 < w) (imm : BitVec 8) :
    immBits lo t (modImmValue w lo (2 ^ k - 1) (lo + 6) inv (t + 7) imm) = imm := by
  apply BitVec.eq_of_getLsbD_eq
  intro j hj
  rw [getLsbD_immBits (by omega) _ hj]
  split_ifs with h
  all_goals
    rw [getLsbD_modImmValue]
    simp only [BitVec.getLsbD_setWidth]
  · -- bits 0 to 5 come from the low field, bit 6 from the first copy of `b`
    rcases (by omega : j < 6 ∨ j = 6) with h6 | rfl
    · simp (disch := omega) only [decide_eq_true, decide_eq_false, Bool.true_and, Bool.false_and,
        Bool.or_false, Nat.add_sub_cancel_left]
    · simp (disch := omega) only [decide_eq_true, decide_eq_false, Bool.true_and, Bool.false_and,
        Bool.or_false, Bool.false_or]
  · -- bit 7 comes from the top
    obtain rfl : j = 7 := by omega
    simp (disch := omega) only [true_and, decide_eq_true, decide_eq_false, Bool.true_and,
      Bool.false_and, Bool.false_or]

/-! ### The decoder -/

/-- **A checked decoder**: when `immOf` undoes `valueOf`, the arm returns `m` exactly when `m`
has the arm's size and `valueOf` maps its `imm` to the value. -/
theorem checkedArm_eq_some_iff {immOf : BitVec w → BitVec 8} {valueOf : BitVec 8 → BitVec w}
    (hinv : Function.LeftInverse immOf valueOf) (value : BitVec w) (size : ScalarSize)
    (m : ASIMDFPModImm) :
    checkedArm immOf valueOf value size = some m ↔ m.size = size ∧ value = valueOf m.imm := by
  dsimp only [checkedArm]
  split_ifs with h
  · constructor
    · rintro ⟨⟩
      exact ⟨rfl, h⟩
    · rintro ⟨hsize, rfl⟩
      rw [hinv m.imm, ← hsize]
  · refine ⟨fun h' => (nomatch h'), ?_⟩
    rintro ⟨-, rfl⟩
    exact absurd (by rw [hinv m.imm]) h

/-- The arm of `maybe_from_u64` at `size` is exact for the expansion `spec`: it returns `m`
exactly when `m` has that size and the low bits `low` of the value are the expansion of
`m.imm`, so it returns some immediate exactly when they are an expansion. The encoder
`valueOf` of the arm is `spec`, injective, and undone by its extraction `immOf`. -/
structure ExactArm (size : ScalarSize) {n : ℕ} (low : BitVec 64 → BitVec n)
    (valueOf : BitVec 8 → BitVec n) (immOf : BitVec n → BitVec 8)
    (spec : BitVec 8 → BitVec n) : Prop where
  eq_some_iff : ∀ v m, maybeFromU64 v size = some m ↔ m.size = size ∧ low v = spec m.imm
  isSome_iff : ∀ v, (maybeFromU64 v size).isSome ↔ ∃ imm8, low v = spec imm8
  value_eq : ∀ imm, valueOf imm = spec imm
  injective : Function.Injective valueOf
  leftInverse : Function.LeftInverse immOf valueOf

/-- An arm that checks `immOf` against `valueOf`, where `immOf` undoes `valueOf` and `valueOf`
is `spec`, is exact. -/
theorem ExactArm.of_leftInverse {size : ScalarSize} {n : ℕ} {low : BitVec 64 → BitVec n}
    {valueOf : BitVec 8 → BitVec n} {immOf : BitVec n → BitVec 8} {spec : BitVec 8 → BitVec n}
    (harm : ∀ v, maybeFromU64 v size = checkedArm immOf valueOf (low v) size)
    (hvalue : ∀ imm, valueOf imm = spec imm) (hinv : Function.LeftInverse immOf valueOf) :
    ExactArm size low valueOf immOf spec := by
  have eq_some_iff : ∀ v m, maybeFromU64 v size = some m ↔ m.size = size ∧ low v = spec m.imm := by
    intro v m
    rw [harm, checkedArm_eq_some_iff hinv, hvalue]
  refine ⟨eq_some_iff, fun v => ?_, hvalue, hinv.injective, hinv⟩
  rw [Option.isSome_iff_exists]
  constructor
  · rintro ⟨m, hm⟩
    exact ⟨m.imm, ((eq_some_iff v m).mp hm).2⟩
  · rintro ⟨imm8, h⟩
    exact ⟨⟨imm8, size⟩, (eq_some_iff v _).mpr ⟨rfl, h⟩⟩

/-- **`maybe_from_u64` is exact** for the half, single and double precision formats, of
`E = 5, 8, 11` exponent bits: at `Size16`, `Size32` and `Size64` it returns `m` exactly when
`m` has that size and the low 16, 32 or 64 bits of the value are `VFPExpandImm(m.imm)`;
`value16`, `value32` and `value64` are `VFPExpandImm`, injective, and undone by the extraction
of their arm. -/
theorem maybeFromU64_exact :
    ExactArm .Size16 (·.setWidth 16) value16 (immBits 6 8) (vfpExpandImm 5 10) ∧
      ExactArm .Size32 (·.setWidth 32) value32 (immBits 19 24) (vfpExpandImm 8 23) ∧
      ExactArm .Size64 (·.setWidth 64) value64 (immBits 48 56) (vfpExpandImm 11 52) :=
  -- the masks `0b11`, `0b11111` and `0b11111111` are `2 ^ (E - 3) - 1`
  ⟨ExactArm.of_leftInverse (fun _ => rfl)
      (modImmValue_eq_vfpExpandImm (e := 5) (f := 10) (by decide) (by decide))
      (immBits_modImmValue (k := 2) (by decide) (by decide) (by decide) (by decide)),
    ExactArm.of_leftInverse (fun _ => rfl)
      (modImmValue_eq_vfpExpandImm (e := 8) (f := 23) (by decide) (by decide))
      (immBits_modImmValue (k := 5) (by decide) (by decide) (by decide) (by decide)),
    ExactArm.of_leftInverse (fun v => by rw [BitVec.setWidth_eq]; rfl)
      (modImmValue_eq_vfpExpandImm (e := 11) (f := 52) (by decide) (by decide))
      (immBits_modImmValue (k := 8) (by decide) (by decide) (by decide) (by decide))⟩

/-- The unit test `asimd_fp_mod_imm_test` rejects zero. -/
example : maybeFromU64 0 .Size32 = none := by decide

/-- `1.0` in single precision is `imm8 = 0x70`. -/
example : maybeFromU64 0x3f800000 .Size32 = some ⟨0x70, .Size32⟩ := by decide

end ASIMDFPModImm

end Cranelift.Aarch64
