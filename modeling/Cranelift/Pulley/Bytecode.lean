import Cranelift.Pulley.Stack
import Cranelift.Lib.BitFields

/-!
# Pulley bytecode: the ops and their encoding

The ops of `pulley/src/lib.rs` (`for_each_op!` and `for_each_extended_op!`), with the types of
their fields, and the encoder of `pulley/src/encode.rs`: an op is its opcode's byte followed by
each field in order; an extended op is the byte of `ExtendedOp`, the two little-endian bytes of
its extended opcode, and its fields.

The macros of the source are generic over the op list, and so is the model: `Opcode.fields` is
the list, `Args` a value for each field, and `encodeOp` the body of `impl_encoders!`, the same
for every op.

## Main definitions

* `Cranelift.Pulley.Bytecode.OperandTy` — the field types of the op list, with `OperandTy.encode`.
* `Cranelift.Pulley.Bytecode.Opcode`, `ExtendedOpcode` — the opcodes, with `new`.
* `Cranelift.Pulley.Bytecode.Args`, `Op` — the materialized ops of `pulley/src/op.rs`.
* `Cranelift.Pulley.Bytecode.Op.encode` — `Op::encode`.

## Main results

* `Cranelift.Pulley.Bytecode.BinaryOperands.fromBits_toBits`, `toNat_toBits_fromBits` — the packing of
  three registers into sixteen bits, and what `from_bits` ignores.
* `Cranelift.Pulley.Bytecode.Opcode.new_eq_some_iff`, `ExtendedOpcode.new_eq_some_iff` — `new` inverts the
  discriminant.

## Implementation notes

The integers of the fields are `BitVec`s of their width, signed or not: their encoding is their
bits. A register is its index in `0..32`, the `RANGE` of all three classes. Bytes are `UInt8`,
as in the interpreter's model.
-/

namespace Cranelift.Pulley

/-- An `f` register, by its index. -/
abbrev FReg := Fin 32

/-- A `v` register, by its index. -/
abbrev VReg := Fin 32

/-- `impl_reg!(FReg, F, 0..32)`: `Reg::new` over the same range as `XReg`. -/
def FReg.new (i : ℕ) : Option FReg := XReg.new i

/-- `impl_reg!(VReg, V, 0..32)`. -/
def VReg.new (i : ℕ) : Option VReg := XReg.new i

theorem XReg.new_eq_some_iff {i : ℕ} {r : XReg} : XReg.new i = some r ↔ i = r.val := by
  unfold XReg.new
  split
  · next h =>
    simp only [Option.some.injEq]
    exact ⟨fun h' => by rw [← h'], fun h' => Fin.ext h'⟩
  · next h => exact ⟨fun h' => absurd h' nofun, fun h' => absurd (h' ▸ r.isLt) h⟩

namespace Bytecode

/-! ### Immediates and packed operands -/

/-- `PcRelOffset`: an `i32`, relative to the start of the instruction that holds it. -/
structure PcRelOffset where
  offset : BitVec 32
deriving DecidableEq, Repr

/-- `BinaryOperands<XReg>`: a destination and two sources, the operands of the binary ops. -/
structure BinaryOperands where
  dst : XReg
  src1 : XReg
  src2 : XReg
deriving DecidableEq, Repr

namespace BinaryOperands

/-- `to_bits`: five bits a register, `dst` lowest. -/
def toBits (b : BinaryOperands) : BitVec 16 :=
  BitVec.ofNat 16 b.dst ||| BitVec.ofNat 16 b.src1 <<< 5 ||| BitVec.ofNat 16 b.src2 <<< 10

/-- `from_bits` before its `unwrap`s: `none` where `R::new` refuses an index. -/
def fromBits? (bits : BitVec 16) : Option BinaryOperands := do
  let dst ← XReg.new (bits &&& 0b11111#16).toNat
  let src1 ← XReg.new ((bits >>> 5) &&& 0b11111#16).toNat
  let src2 ← XReg.new ((bits >>> 10) &&& 0b11111#16).toNat
  pure ⟨dst, src1, src2⟩

theorem toNat_and_31 (x : BitVec 16) : (x &&& 0b11111#16).toNat = x.toNat % 32 := by
  rw [BitVec.toNat_and, show (0b11111#16).toNat = 2 ^ 5 - 1 from rfl,
    Nat.and_two_pow_sub_one_eq_mod]

theorem toNat_ushiftRight_and_31 (x : BitVec 16) (k : ℕ) :
    ((x >>> k) &&& 0b11111#16).toNat = x.toNat / 2 ^ k % 32 := by
  rw [toNat_and_31, BitVec.toNat_ushiftRight, Nat.shiftRight_eq_div_pow]

/-- The three fields of a word, as `from_bits` reads them; each is below `32`. -/
theorem fromBits?_eq (bits : BitVec 16) :
    fromBits? bits = some ⟨⟨bits.toNat % 32, Nat.mod_lt _ (by decide)⟩,
      ⟨bits.toNat / 32 % 32, Nat.mod_lt _ (by decide)⟩,
      ⟨bits.toNat / 1024 % 32, Nat.mod_lt _ (by decide)⟩⟩ := by
  have h5 := toNat_ushiftRight_and_31 bits 5
  have h10 := toNat_ushiftRight_and_31 bits 10
  simp only [fromBits?, toNat_and_31, h5, h10]
  simp [XReg.new, Nat.mod_lt]

/-- **`from_bits` never panics**: every index it unwraps is below `32`. -/
theorem isSome_fromBits? (bits : BitVec 16) : (fromBits? bits).isSome := by
  rw [fromBits?_eq]
  rfl

/-- `from_bits`: its `unwrap`s never fail (`isSome_fromBits?`). -/
def fromBits (bits : BitVec 16) : BinaryOperands := (fromBits? bits).get (isSome_fromBits? bits)

theorem fromBits_eq (bits : BitVec 16) :
    fromBits bits = ⟨⟨bits.toNat % 32, Nat.mod_lt _ (by decide)⟩,
      ⟨bits.toNat / 32 % 32, Nat.mod_lt _ (by decide)⟩,
      ⟨bits.toNat / 1024 % 32, Nat.mod_lt _ (by decide)⟩⟩ := by
  simp only [fromBits, fromBits?_eq, Option.get_some]

theorem toNat_ofNat_shiftLeft (r : XReg) {k : ℕ} (hk : k ≤ 11) :
    (BitVec.ofNat 16 r.val <<< k).toNat = r.val * 2 ^ k := by
  have hr := r.isLt
  have hfit : r.val * 2 ^ k < 2 ^ 16 := calc
    r.val * 2 ^ k < 32 * 2 ^ 11 :=
      Nat.mul_lt_mul_of_lt_of_le hr (Nat.pow_le_pow_right (by decide) hk) (Nat.two_pow_pos _)
    _ = 2 ^ 16 := by decide
  rw [BitVec.toNat_shiftLeft, BitVec.toNat_ofNat, Nat.mod_eq_of_lt (show r.val < 2 ^ 16 by omega),
    Nat.shiftLeft_eq, Nat.mod_eq_of_lt hfit]

/-- The packed word is the three indices in base `32`. -/
theorem toNat_toBits (b : BinaryOperands) :
    b.toBits.toNat = b.dst.val + 32 * b.src1.val + 1024 * b.src2.val := by
  have hd := b.dst.isLt
  have h1 := b.src1.isLt
  -- each field lies above the bits of the ones below, so the `|||`s are sums
  rw [toBits, BitVec.toNat_or, BitVec.toNat_or, toNat_ofNat_shiftLeft _ (by decide),
    toNat_ofNat_shiftLeft _ (by decide), BitVec.toNat_ofNat,
    Nat.mod_eq_of_lt (show b.dst.val < 2 ^ 16 by omega),
    BitFields.or_mul_two_pow _ (show b.dst.val < 2 ^ 5 by omega),
    BitFields.or_mul_two_pow _ (show b.dst.val + b.src1.val * 2 ^ 5 < 2 ^ 10 by omega)]
  omega

/-- **Packing three registers and reading them back** gives the registers. -/
theorem fromBits_toBits (b : BinaryOperands) : fromBits b.toBits = b := by
  have hd := b.dst.isLt
  have h1 := b.src1.isLt
  have h2 := b.src2.isLt
  rw [fromBits_eq, toNat_toBits]
  obtain ⟨⟨d, _⟩, ⟨s₁, _⟩, ⟨s₂, _⟩⟩ := b
  simp only [BinaryOperands.mk.injEq, Fin.mk.injEq]
  omega

/-- **`from_bits` ignores the top bit**: packing what it reads gives the word without it. -/
theorem toNat_toBits_fromBits (bits : BitVec 16) :
    (fromBits bits).toBits.toNat = bits.toNat % 2 ^ 15 := by
  rw [toNat_toBits, fromBits_eq]
  simp only
  omega

end BinaryOperands

/-- `RegSet<XReg>`: a set of registers, as a `ScalarBitSet<u32>` of their indices. -/
structure RegSet where
  bitset : Bitset.ScalarBitSet 32
deriving DecidableEq

/-! ### The field types and their encoding -/

/-- The types of the fields of the ops. -/
inductive OperandTy
  | i8 | i16 | i32 | i64
  | xReg | fReg | vReg
  | pcRelOffset | binaryOperands | regSet
deriving DecidableEq, Repr

/-- The values of a field type. -/
def OperandTy.Value : OperandTy → Type
  | .i8 => BitVec 8
  | .i16 => BitVec 16
  | .i32 => BitVec 32
  | .i64 => BitVec 64
  | .xReg => XReg
  | .fReg => FReg
  | .vReg => VReg
  | .pcRelOffset => PcRelOffset
  | .binaryOperands => BinaryOperands
  | .regSet => RegSet

instance OperandTy.decEqValue : (t : OperandTy) → DecidableEq t.Value
  | .i8 => inferInstanceAs (DecidableEq (BitVec 8))
  | .i16 => inferInstanceAs (DecidableEq (BitVec 16))
  | .i32 => inferInstanceAs (DecidableEq (BitVec 32))
  | .i64 => inferInstanceAs (DecidableEq (BitVec 64))
  | .xReg => inferInstanceAs (DecidableEq XReg)
  | .fReg => inferInstanceAs (DecidableEq FReg)
  | .vReg => inferInstanceAs (DecidableEq VReg)
  | .pcRelOffset => inferInstanceAs (DecidableEq PcRelOffset)
  | .binaryOperands => inferInstanceAs (DecidableEq BinaryOperands)
  | .regSet => inferInstanceAs (DecidableEq RegSet)

/-- `Encode` for the integers of `n` bytes: `to_le_bytes`, and for an `i8` the byte
`*self as u8`. -/
def encodeInt (n : ℕ) (x : BitVec (8 * n)) : List UInt8 := toBytes n x.toNat

/-- `Encode` for a register: the byte `self.to_u8()`. -/
def encodeReg (r : Fin 32) : List UInt8 := [UInt8.ofNat r.val]

/-- `Encode::encode` for each field type. A `PcRelOffset` is its `i32`, a `BinaryOperands` the
`u16` of `to_bits`, a `RegSet` the `u32` of its bitset. -/
def OperandTy.encode : (t : OperandTy) → t.Value → List UInt8
  | .i8, x => encodeInt 1 x
  | .i16, x => encodeInt 2 x
  | .i32, x => encodeInt 4 x
  | .i64, x => encodeInt 8 x
  | .xReg, r => encodeReg r
  | .fReg, r => encodeReg r
  | .vReg, r => encodeReg r
  | .pcRelOffset, o => encodeInt 4 o.offset
  | .binaryOperands, b => encodeInt 2 b.toBits
  | .regSet, s => encodeInt 4 s.bitset.bits

/-- The number of bytes of a field. -/
def OperandTy.size : OperandTy → ℕ
  | .i8 => 1
  | .i16 => 2
  | .i32 => 4
  | .i64 => 8
  | .xReg | .fReg | .vReg => 1
  | .pcRelOffset => 4
  | .binaryOperands => 2
  | .regSet => 4

@[simp] theorem length_encodeInt (n : ℕ) (x : BitVec (8 * n)) : (encodeInt n x).length = n :=
  length_toBytes n _

@[simp] theorem length_encode (t : OperandTy) (x : t.Value) : (t.encode x).length = t.size := by
  cases t <;> rfl

/-! ### The op lists -/

/-- A list of the values of an enumeration in the order of their numbers: the entry at an index
is the value of that number. -/
theorem getElem?_eq_some_iff_of_index {α : Type} {l : List α} {f : α → ℕ}
    (hidx : ∀ i (h : i < l.length), f l[i] = i) (hget : ∀ a, l[f a]? = some a) {i : ℕ}
    {a : α} : l[i]? = some a ↔ i = f a := by
  constructor
  · intro h
    obtain ⟨hlt, hi⟩ := List.getElem?_eq_some_iff.mp h
    rw [← hi, hidx i hlt]
  · rintro rfl
    exact hget a

/-- `Opcode`: the ops of `for_each_op!` in order, then `ExtendedOp`. -/
inductive Opcode
  | ret | call | jump | brIf | brIfNot
  | brIfXeq32 | brIfXneq32 | brIfXslt32 | brIfXslteq32 | brIfXult32 | brIfXulteq32
  | xmov | fmov | vmov
  | xconst8 | xconst16 | xconst32 | xconst64
  | xadd32 | xadd64
  | xeq64 | xneq64 | xslt64 | xslteq64 | xult64 | xulteq64
  | xeq32 | xneq32 | xslt32 | xslteq32 | xult32 | xulteq32
  | load32U | load32S | load64
  | load32UOffset8 | load32SOffset8 | load64Offset8
  | load32UOffset64 | load32SOffset64 | load64Offset64
  | store32 | store64
  | store32SOffset8 | store64Offset8
  | store32SOffset64 | store64Offset64
  | pushFrame | popFrame
  | xPush32 | xPush32Many | xPush64 | xPush64Many
  | xPop32 | xPop32Many | xPop64 | xPop64Many
  | bitcastIntFromFloat32 | bitcastIntFromFloat64 | bitcastFloatFromInt32 | bitcastFloatFromInt64
  | extendedOp
deriving DecidableEq, Repr

namespace Opcode

/-- The types of the fields of each op, in order; `ExtendedOp` has none of its own. -/
def fields : Opcode → List OperandTy
  | ret => []
  | call => [.pcRelOffset]
  | jump => [.pcRelOffset]
  | brIf => [.xReg, .pcRelOffset]
  | brIfNot => [.xReg, .pcRelOffset]
  | brIfXeq32 => [.xReg, .xReg, .pcRelOffset]
  | brIfXneq32 => [.xReg, .xReg, .pcRelOffset]
  | brIfXslt32 => [.xReg, .xReg, .pcRelOffset]
  | brIfXslteq32 => [.xReg, .xReg, .pcRelOffset]
  | brIfXult32 => [.xReg, .xReg, .pcRelOffset]
  | brIfXulteq32 => [.xReg, .xReg, .pcRelOffset]
  | xmov => [.xReg, .xReg]
  | fmov => [.fReg, .fReg]
  | vmov => [.vReg, .vReg]
  | xconst8 => [.xReg, .i8]
  | xconst16 => [.xReg, .i16]
  | xconst32 => [.xReg, .i32]
  | xconst64 => [.xReg, .i64]
  | xadd32 => [.binaryOperands]
  | xadd64 => [.binaryOperands]
  | xeq64 => [.binaryOperands]
  | xneq64 => [.binaryOperands]
  | xslt64 => [.binaryOperands]
  | xslteq64 => [.binaryOperands]
  | xult64 => [.binaryOperands]
  | xulteq64 => [.binaryOperands]
  | xeq32 => [.binaryOperands]
  | xneq32 => [.binaryOperands]
  | xslt32 => [.binaryOperands]
  | xslteq32 => [.binaryOperands]
  | xult32 => [.binaryOperands]
  | xulteq32 => [.binaryOperands]
  | load32U => [.xReg, .xReg]
  | load32S => [.xReg, .xReg]
  | load64 => [.xReg, .xReg]
  | load32UOffset8 => [.xReg, .xReg, .i8]
  | load32SOffset8 => [.xReg, .xReg, .i8]
  | load64Offset8 => [.xReg, .xReg, .i8]
  | load32UOffset64 => [.xReg, .xReg, .i64]
  | load32SOffset64 => [.xReg, .xReg, .i64]
  | load64Offset64 => [.xReg, .xReg, .i64]
  | store32 => [.xReg, .xReg]
  | store64 => [.xReg, .xReg]
  | store32SOffset8 => [.xReg, .i8, .xReg]
  | store64Offset8 => [.xReg, .i8, .xReg]
  | store32SOffset64 => [.xReg, .i64, .xReg]
  | store64Offset64 => [.xReg, .i64, .xReg]
  | pushFrame => []
  | popFrame => []
  | xPush32 => [.xReg]
  | xPush32Many => [.regSet]
  | xPush64 => [.xReg]
  | xPush64Many => [.regSet]
  | xPop32 => [.xReg]
  | xPop32Many => [.regSet]
  | xPop64 => [.xReg]
  | xPop64Many => [.regSet]
  | bitcastIntFromFloat32 => [.xReg, .fReg]
  | bitcastIntFromFloat64 => [.xReg, .fReg]
  | bitcastFloatFromInt32 => [.fReg, .xReg]
  | bitcastFloatFromInt64 => [.fReg, .xReg]
  | extendedOp => []

/-- The opcodes in the order of their discriminants. -/
def all : List Opcode :=
  [ret, call, jump, brIf, brIfNot,
    brIfXeq32, brIfXneq32, brIfXslt32, brIfXslteq32, brIfXult32, brIfXulteq32,
    xmov, fmov, vmov,
    xconst8, xconst16, xconst32, xconst64,
    xadd32, xadd64,
    xeq64, xneq64, xslt64, xslteq64, xult64, xulteq64,
    xeq32, xneq32, xslt32, xslteq32, xult32, xulteq32,
    load32U, load32S, load64,
    load32UOffset8, load32SOffset8, load64Offset8,
    load32UOffset64, load32SOffset64, load64Offset64,
    store32, store64,
    store32SOffset8, store64Offset8,
    store32SOffset64, store64Offset64,
    pushFrame, popFrame,
    xPush32, xPush32Many, xPush64, xPush64Many,
    xPop32, xPop32Many, xPop64, xPop64Many,
    bitcastIntFromFloat32, bitcastIntFromFloat64, bitcastFloatFromInt32, bitcastFloatFromInt64,
    extendedOp]

/-- `Opcode::MAX`: `@max` counts the ops from zero, and the `+ 1` is `ExtendedOp`. -/
def MAX : ℕ := 60 + 1

/-- `Opcode::$name as u8`: the discriminant. -/
def toU8 (o : Opcode) : UInt8 := UInt8.ofNat o.ctorIdx

/-- `Opcode::new`: a byte up to `MAX` is the opcode of that discriminant (`unchecked_new`). -/
def new (byte : UInt8) : Option Opcode :=
  if byte.toNat ≤ MAX then all[byte.toNat]? else none

theorem getElem?_all_ctorIdx (o : Opcode) : all[o.ctorIdx]? = some o := by
  cases o <;> rfl

theorem ctorIdx_le_MAX (o : Opcode) : o.ctorIdx ≤ MAX := by
  cases o <;> decide

theorem ctorIdx_getElem_all : ∀ i (h : i < all.length), all[i].ctorIdx = i := by
  decide

theorem toNat_toU8 (o : Opcode) : o.toU8.toNat = o.ctorIdx := by
  rw [toU8, UInt8.toNat_ofNat', Nat.mod_eq_of_lt]
  have := ctorIdx_le_MAX o
  unfold MAX at this
  omega

/-- **`Opcode::new` inverts the discriminant.** -/
theorem new_eq_some_iff {byte : UInt8} {o : Opcode} : new byte = some o ↔ byte = o.toU8 := by
  unfold new
  split
  · rw [getElem?_eq_some_iff_of_index ctorIdx_getElem_all getElem?_all_ctorIdx, ← toNat_toU8]
    exact UInt8.toNat_inj
  · next hgt =>
    refine ⟨nofun, ?_⟩
    rintro rfl
    exact absurd (toNat_toU8 o ▸ ctorIdx_le_MAX o) hgt

end Opcode

/-- `ExtendedOpcode`: the ops of `for_each_extended_op!`. -/
inductive ExtendedOpcode
  | trap | nop | getSp
deriving DecidableEq, Repr

namespace ExtendedOpcode

/-- The types of the fields of each extended op. -/
def fields : ExtendedOpcode → List OperandTy
  | trap => []
  | nop => []
  | getSp => [.xReg]

/-- The extended opcodes in the order of their discriminants. -/
def all : List ExtendedOpcode := [trap, nop, getSp]

/-- `ExtendedOpcode::MAX`. -/
def MAX : ℕ := 2

/-- `ExtendedOpcode::$name as u16`. -/
def toU16 (o : ExtendedOpcode) : BitVec 16 := BitVec.ofNat 16 o.ctorIdx

/-- `ExtendedOpcode::new`. -/
def new (bits : BitVec 16) : Option ExtendedOpcode :=
  if bits.toNat ≤ MAX then all[bits.toNat]? else none

theorem toNat_toU16 (o : ExtendedOpcode) : o.toU16.toNat = o.ctorIdx := by
  cases o <;> rfl

theorem getElem?_all_ctorIdx (o : ExtendedOpcode) : all[o.ctorIdx]? = some o := by
  cases o <;> rfl

theorem ctorIdx_getElem_all : ∀ i (h : i < all.length), all[i].ctorIdx = i := by
  decide

theorem new_eq_some_iff {bits : BitVec 16} {o : ExtendedOpcode} :
    new bits = some o ↔ bits = o.toU16 := by
  unfold new
  split
  · rw [getElem?_eq_some_iff_of_index ctorIdx_getElem_all getElem?_all_ctorIdx, ← toNat_toU16]
    exact BitVec.toNat_inj
  · next hgt =>
    refine ⟨nofun, ?_⟩
    rintro rfl
    exact absurd (by cases o <;> decide) hgt

end ExtendedOpcode

/-! ### Materialized ops and their encoding -/

/-- A value for each of a list of field types. -/
inductive Args : List OperandTy → Type
  | nil : Args []
  | cons {t : OperandTy} {ts : List OperandTy} (x : t.Value) (xs : Args ts) : Args (t :: ts)
deriving DecidableEq

/-- The fields one after another. -/
def Args.encode : {ts : List OperandTy} → Args ts → List UInt8
  | [], .nil => []
  | t :: _, .cons x xs => t.encode x ++ xs.encode

/-- `Op`: an op with its fields, or an extended op with its fields. -/
inductive Op
  | op (opcode : Opcode) (h : opcode ≠ .extendedOp) (args : Args opcode.fields)
  | extendedOp (opcode : ExtendedOpcode) (args : Args opcode.fields)
deriving DecidableEq

/-- `encode::$snake_name` of `impl_encoders!`: the opcode's byte, then each field. -/
def encodeOp (opcode : Opcode) (args : Args opcode.fields) : List UInt8 :=
  opcode.toU8 :: args.encode

/-- `encode::$snake_name` of `impl_extended_encoders!`: `ExtendedOp`'s byte, the extended
opcode's little-endian `u16`, then each field. -/
def encodeExtendedOp (opcode : ExtendedOpcode) (args : Args opcode.fields) : List UInt8 :=
  Opcode.extendedOp.toU8 :: (encodeInt 2 opcode.toU16 ++ args.encode)

/-- `Op::encode`. -/
def Op.encode : Op → List UInt8
  | .op opcode _ args => encodeOp opcode args
  | .extendedOp opcode args => encodeExtendedOp opcode args

/-- The number of bytes of a list of fields. -/
def fieldsSize (ts : List OperandTy) : ℕ := (ts.map OperandTy.size).sum

theorem length_argsEncode {ts : List OperandTy} (args : Args ts) :
    args.encode.length = fieldsSize ts := by
  induction args with
  | nil => rfl
  | cons x xs ih => simp [Args.encode, ih, fieldsSize]

end Bytecode

end Cranelift.Pulley
