import Cranelift.Pulley.Bytecode
import Cranelift.Lib.StreamParser
import Mathlib.Data.Vector.Basic

/-!
# Pulley bytecode: the decoder

The decoder of `pulley/src/decode.rs` over the `SafeBytecodeStream`, with the
`MaterializeOpsVisitor` of `pulley/src/op.rs` that builds each op it decodes. `decode_one` reads
the opcode's byte, checks it with `Opcode::new`, and reads each field of that op with its
`Decode`; `ExtendedOp` is followed by a `u16` that `ExtendedOpcode::new` checks, then the fields
of that extended op. `Decoder::decode_all` decodes until the stream is empty.

Every field but one reads back exactly what its `Encode` wrote: `BinaryOperands::from_bits`
ignores the top bit of its word. So the decoder accepts exactly the concatenations of encodings
of ops in which that bit of each `BinaryOperands` word is free (`decodeAll_eq_ok_iff`), and in
particular decodes the encoding of every list of ops to that list. A stream that stops inside an
op is rejected with `UnexpectedEof` at a position inside that op.

## Main definitions

* `Cranelift.Pulley.Bytecode.DecodingError`, `SafeBytecodeStream`, `read`.
* `Cranelift.Pulley.Bytecode.OperandTy.decode`, `decodeArgs`, `decodeOne`, `decodeAll`.
* `Cranelift.Pulley.Bytecode.OperandTy.Encodes`, `Args.Encodes`, `Op.Encodes` — the bytes that
  decode to a value.

## Main results

* `Cranelift.Pulley.Bytecode.decodeOne_sound`, `decodeOne_complete` — `decode_one` against
  `Op.Encodes`.
* `Cranelift.Pulley.Bytecode.decodeAll_eq_ok_iff` — what `decode_all` accepts.
* `Cranelift.Pulley.Bytecode.decodeAll_encode` — the round trip.
* `Cranelift.Pulley.Bytecode.decodeAll_truncated` — where a truncated stream is rejected.
-/

namespace Cranelift.Pulley.Bytecode

open StreamParser

/-! ### The stream -/

/-- `DecodingError`, with the position in the bytecode where it occurred. -/
inductive DecodingError
  | unexpectedEof (position : ℕ)
  | invalidOpcode (position : ℕ) (code : UInt8)
  | invalidExtendedOpcode (position : ℕ) (code : BitVec 16)
  | invalidReg (position : ℕ) (reg : UInt8)
deriving DecidableEq, Repr

/-- `SafeBytecodeStream`: the bytecode left, and the position in it. -/
abbrev SafeBytecodeStream := StreamParser.Stream UInt8

namespace SafeBytecodeStream

/-- `SafeBytecodeStream::new`. -/
def new (bytecode : List UInt8) : SafeBytecodeStream := ⟨bytecode, 0⟩

/-- `unexpected_eof`. -/
def unexpectedEof (s : SafeBytecodeStream) : DecodingError := .unexpectedEof s.position

/-- `invalid_opcode`: at the position of the opcode's byte, which was just read. -/
def invalidOpcode (s : SafeBytecodeStream) (code : UInt8) : DecodingError :=
  .invalidOpcode (s.position - 1) code

/-- `invalid_extended_opcode`: at the position after the extended opcode. -/
def invalidExtendedOpcode (s : SafeBytecodeStream) (code : BitVec 16) : DecodingError :=
  .invalidExtendedOpcode s.position code

/-- `invalid_reg`: at the position after the register's byte. -/
def invalidReg (s : SafeBytecodeStream) (reg : UInt8) : DecodingError :=
  .invalidReg s.position reg

end SafeBytecodeStream

/-- A decoder of a `T` from the safe stream: `Decode::decode`. -/
abbrev Decode (α : Type) := Parser DecodingError UInt8 α

/-- Fail with the error that the stream makes at its position. -/
def fail {α : Type} (e : SafeBytecodeStream → DecodingError) : Decode α := fun s => .error (e s)

theorem fail_ne_ok {α : Type} (e : SafeBytecodeStream → DecodingError) (s : SafeBytecodeStream)
    (y : α × SafeBytecodeStream) : (fail e : Decode α) s ≠ .ok y := by
  unfold fail
  exact nofun

/-- `SafeBytecodeStream::read`: the next `n` bytes, or `unexpected_eof`. -/
def read (n : ℕ) : Decode (List.Vector UInt8 n) := fun s =>
  if h : n ≤ s.rest.length then
    .ok (⟨s.rest.take n, List.length_take_of_le h⟩, ⟨s.rest.drop n, s.position + n⟩)
  else .error (SafeBytecodeStream.unexpectedEof s)

/-! ### Decoding the fields -/

/-- `Decode for u8`. -/
def decodeU8 : Decode UInt8 := do
  let a ← read 1
  pure a.head

/-- `Decode` for the integers of `n` bytes: `from_le_bytes`, and for an `i8` the byte
`a[0] as i8`, which has the same bits. -/
def decodeInt (n : ℕ) : Decode (BitVec (8 * n)) := do
  let bytes ← read n
  pure (BitVec.ofNat (8 * n) (ofBytes bytes.toList))

/-- `Decode` for a register: `Reg::new` of the byte, or `invalid_reg`. -/
def decodeReg : Decode (Fin 32) := do
  let byte ← decodeU8
  match XReg.new byte.toNat with
  | some r => pure r
  | none => fail (SafeBytecodeStream.invalidReg · byte)

/-- `Decode::decode` for each field type. -/
def OperandTy.decode : (t : OperandTy) → Decode t.Value
  | .i8 => decodeInt 1
  | .i16 => decodeInt 2
  | .i32 => decodeInt 4
  | .i64 => decodeInt 8
  | .xReg => decodeReg
  | .fReg => decodeReg
  | .vReg => decodeReg
  | .pcRelOffset => do
    let x ← decodeInt 4
    pure (PcRelOffset.mk x)
  | .binaryOperands => do
    let bits ← decodeInt 2
    pure (BinaryOperands.fromBits bits)
  | .regSet => do
    let bits ← decodeInt 4
    pure (RegSet.mk ⟨bits⟩)

/-- The fields of an op, one after another, as the decoder macros read them. -/
def decodeArgs : (ts : List OperandTy) → Decode (Args ts)
  | [] => pure .nil
  | t :: ts => do
    let x ← t.decode
    let xs ← decodeArgs ts
    pure (.cons x xs)

/-! ### Decoding ops -/

/-- `decode_one_extended`, with the `MaterializeOpsVisitor`. -/
def decodeOneExtended : Decode Op := do
  let code ← decodeInt 2
  match ExtendedOpcode.new code with
  | some opcode => do
    let args ← decodeArgs opcode.fields
    pure (.extendedOp opcode args)
  | none => fail (SafeBytecodeStream.invalidExtendedOpcode · code)

/-- `Decoder::decode_one`, with the `MaterializeOpsVisitor`. -/
def decodeOne : Decode Op := do
  let byte ← decodeU8
  match Opcode.new byte with
  | some opcode =>
    if h : opcode = .extendedOp then decodeOneExtended
    else do
      let args ← decodeArgs opcode.fields
      pure (.op opcode h args)
  | none => fail (SafeBytecodeStream.invalidOpcode · byte)

/-! ### The bytes of a value -/

/-- The bytes that decode to a field: its encoding, but for a `BinaryOperands` any word whose
fields are its registers, as `from_bits` ignores the top bit. -/
def OperandTy.Encodes : (t : OperandTy) → List UInt8 → t.Value → Prop
  | .binaryOperands, b, x => ∃ bits, b = encodeInt 2 bits ∧ BinaryOperands.fromBits bits = x
  | t, b, x => b = t.encode x

/-- The bytes that decode to the fields of an op. -/
def Args.Encodes : {ts : List OperandTy} → List UInt8 → Args ts → Prop
  | [], b, .nil => b = []
  | t :: _, b, .cons x xs => ∃ b₁ b₂, b = b₁ ++ b₂ ∧ t.Encodes b₁ x ∧ Args.Encodes b₂ xs

/-- The bytes that decode to an op. -/
def Op.Encodes : List UInt8 → Op → Prop
  | b, .op opcode _ args => ∃ b', b = opcode.toU8 :: b' ∧ Args.Encodes b' args
  | b, .extendedOp opcode args =>
    ∃ b', b = Opcode.extendedOp.toU8 :: (encodeInt 2 opcode.toU16 ++ b') ∧ Args.Encodes b' args

/-! ### Little-endian bytes -/

theorem ofBytes_lt (bs : List UInt8) : ofBytes bs < 256 ^ bs.length := by
  induction bs with
  | nil => simp [ofBytes]
  | cons b bs ih =>
    have hb : b.toNat < 256 := b.toNat_lt
    rw [ofBytes, List.length_cons, pow_succ']
    omega

theorem toBytes_ofBytes (bs : List UInt8) : toBytes bs.length (ofBytes bs) = bs := by
  induction bs with
  | nil => rfl
  | cons b bs ih =>
    have hb : b.toNat < 256 := b.toNat_lt
    have hdiv : (b.toNat + 256 * ofBytes bs) / 256 = ofBytes bs := by omega
    have hbyte : UInt8.ofNat (b.toNat + 256 * ofBytes bs) = b :=
      UInt8.toNat_inj.mp (by rw [UInt8.toNat_ofNat']; omega)
    rw [List.length_cons, toBytes, ofBytes, hdiv, hbyte, ih]

theorem two_pow_eight_mul (n : ℕ) : 2 ^ (8 * n) = 256 ^ n := by
  rw [pow_mul]
  rfl

/-- Reading the bytes of an integer gives it back. -/
theorem ofNat_ofBytes_encodeInt (n : ℕ) (x : BitVec (8 * n)) :
    BitVec.ofNat (8 * n) (ofBytes (encodeInt n x)) = x := by
  have hx : x.toNat < 256 ^ n := two_pow_eight_mul n ▸ x.isLt
  apply BitVec.eq_of_toNat_eq
  rw [BitVec.toNat_ofNat, encodeInt, ofBytes_toBytes, Nat.mod_eq_of_lt hx,
    Nat.mod_eq_of_lt x.isLt]

/-- Writing the integer of some bytes gives them back. -/
theorem encodeInt_ofBytes {bs : List UInt8} {n : ℕ} (h : bs.length = n) :
    encodeInt n (BitVec.ofNat (8 * n) (ofBytes bs)) = bs := by
  subst h
  have hlt : ofBytes bs < 2 ^ (8 * bs.length) := two_pow_eight_mul _ ▸ ofBytes_lt bs
  rw [encodeInt, BitVec.toNat_ofNat, Nat.mod_eq_of_lt hlt, toBytes_ofBytes]

/-! ### What each field decoder reads -/

theorem read_eq_ok {n : ℕ} {b : List UInt8} (h : b.length = n) (r : List UInt8) (m : ℕ) :
    read n ⟨b ++ r, m⟩ = .ok (⟨b, h⟩, ⟨r, m + n⟩) := by
  have hle : n ≤ (b ++ r).length := by simp [h]
  rw [read, dif_pos hle]
  subst h
  simp only [List.take_left' rfl, List.drop_left' rfl]

theorem read_exact (n : ℕ) :
    Exact (fun b (v : List.Vector UInt8 n) => b = v.toList) .unexpectedEof (read n) := by
  refine ⟨?_, ?_, ?_⟩
  · intro s v s' h
    unfold read at h
    split at h
    · next hle =>
      obtain ⟨rfl, rfl⟩ := Prod.mk.inj (Except.ok.inj h)
      exact ⟨s.rest.take n, (List.take_append_drop n s.rest).symm,
        by rw [List.length_take_of_le hle], rfl⟩
    · exact absurd h nofun
  · rintro _ v r m rfl
    rw [read_eq_ok (b := v.toList) (List.Vector.toList_length v), List.Vector.toList_length]
    rfl
  · rintro _ v c d m rfl hcd hd
    have hlen : c.length < n := by
      have hsum := congrArg List.length hcd
      rw [List.length_append, List.Vector.toList_length] at hsum
      have : 0 < d.length := List.length_pos_iff.mpr hd
      omega
    refine ⟨m, le_refl m, Nat.le_add_right m _, ?_⟩
    rw [read, dif_neg (show ¬n ≤ c.length by omega)]
    rfl

theorem decodeU8_exact : Exact (fun b x => b = [x]) .unexpectedEof decodeU8 := by
  refine ((read_exact 1).map List.Vector.head).congr ?_
  intro b x
  constructor
  · rintro ⟨v, rfl, rfl⟩
    exact List.Vector.toList_singleton v
  · rintro rfl
    exact ⟨⟨[x], rfl⟩, rfl, rfl⟩

theorem decodeInt_exact (n : ℕ) :
    Exact (fun b x => b = encodeInt n x) .unexpectedEof (decodeInt n) := by
  refine ((read_exact n).map _).congr ?_
  intro b x
  constructor
  · rintro ⟨v, rfl, rfl⟩
    exact (encodeInt_ofBytes v.2).symm
  · rintro rfl
    exact ⟨⟨encodeInt n x, length_encodeInt n x⟩, rfl, (ofNat_ofBytes_encodeInt n x).symm⟩

theorem toNat_ofNat_reg (r : Fin 32) : (UInt8.ofNat r.val).toNat = r.val := by
  rw [UInt8.toNat_ofNat']
  exact Nat.mod_eq_of_lt (by omega)

theorem decodeReg_exact : Exact (fun b r => b = encodeReg r) .unexpectedEof decodeReg := by
  -- the byte, then what `Reg::new` makes of it
  refine (decodeU8_exact.bind (K := fun byte b r => byte :: b = encodeReg r) fun byte => ?_).congr
    ?_
  · split
    · next r hr =>
      -- `Reg::new` accepted the byte, which is then the encoding of `r`
      rw [XReg.new_eq_some_iff] at hr
      have hbyte : byte = UInt8.ofNat r.val := UInt8.toNat_inj.mp (by rw [toNat_ofNat_reg, hr])
      refine (exact_pure r).congr fun b x => ⟨?_, fun h => ?_⟩
      · rintro ⟨rfl, rfl⟩
        rw [hbyte]
        rfl
      · obtain ⟨hx, rfl⟩ := List.cons.inj h
        refine ⟨rfl, Fin.ext ?_⟩
        rw [← toNat_ofNat_reg x, ← hx, hr]
    · next hr =>
      -- `Reg::new` refused the byte, which no register encodes to
      refine (exact_of_ne_ok (fail_ne_ok _)).congr fun b x => ⟨False.elim, fun h => ?_⟩
      obtain ⟨rfl, -⟩ := List.cons.inj h
      rw [toNat_ofNat_reg, XReg.new_eq_some_iff.mpr rfl] at hr
      exact absurd hr nofun
  · intro b r
    constructor
    · rintro ⟨b₁, b₂, byte, rfl, rfl, h⟩
      exact h
    · rintro rfl
      exact ⟨[UInt8.ofNat r.val], [], UInt8.ofNat r.val, rfl, rfl, rfl⟩

theorem OperandTy.decode_exact (t : OperandTy) : Exact t.Encodes .unexpectedEof t.decode := by
  cases t
  case i8 => exact decodeInt_exact 1
  case i16 => exact decodeInt_exact 2
  case i32 => exact decodeInt_exact 4
  case i64 => exact decodeInt_exact 8
  case xReg => exact decodeReg_exact
  case fReg => exact decodeReg_exact
  case vReg => exact decodeReg_exact
  case pcRelOffset =>
    refine ((decodeInt_exact 4).map PcRelOffset.mk).congr fun b x => ⟨?_, ?_⟩
    · rintro ⟨o, rfl, rfl⟩
      rfl
    · rintro rfl
      exact ⟨x.offset, rfl, rfl⟩
  case binaryOperands =>
    refine ((decodeInt_exact 2).map BinaryOperands.fromBits).congr fun b x => ⟨?_, ?_⟩
    · rintro ⟨bits, rfl, rfl⟩
      exact ⟨bits, rfl, rfl⟩
    · rintro ⟨bits, rfl, rfl⟩
      exact ⟨bits, rfl, rfl⟩
  case regSet =>
    refine ((decodeInt_exact 4).map fun bits => RegSet.mk ⟨bits⟩).congr fun b x => ⟨?_, ?_⟩
    · rintro ⟨bits, rfl, rfl⟩
      rfl
    · rintro rfl
      exact ⟨x.bitset.bits, rfl, rfl⟩

theorem decodeArgs_exact :
    ∀ ts : List OperandTy, Exact (@Args.Encodes ts) .unexpectedEof (decodeArgs ts)
  | [] => (exact_pure Args.nil).congr fun b xs => by
      cases xs
      exact ⟨fun h => h.1, fun h => ⟨h, rfl⟩⟩
  | t :: ts => by
    -- the first field, the others, and the op's fields are the two together
    refine (t.decode_exact.bind fun x => (decodeArgs_exact ts).bind fun xs =>
      exact_pure (Args.cons x xs)).congr fun b y => ⟨?_, fun h => ?_⟩
    · rintro ⟨b₁, _, x, rfl, hb₁, b₂, b₃, xs, rfl, hb₂, rfl, rfl⟩
      exact ⟨b₁, b₂, by rw [List.append_nil], hb₁, hb₂⟩
    · cases y with
      | cons x xs =>
        obtain ⟨b₁, b₂, rfl, hb₁, hb₂⟩ := h
        exact ⟨b₁, b₂, x, rfl, hb₁, b₂, [], xs, (List.append_nil _).symm, hb₂, rfl, rfl⟩

/-! ### What `decode_one` reads -/

theorem Opcode.toU8_injective : Function.Injective Opcode.toU8 := by
  intro o o' h
  have h' := Opcode.new_eq_some_iff.mpr h
  rw [Opcode.new_eq_some_iff.mpr rfl] at h'
  exact Option.some.inj h'

theorem ExtendedOpcode.toU16_injective : Function.Injective ExtendedOpcode.toU16 := by
  intro o o' h
  have h' := ExtendedOpcode.new_eq_some_iff.mpr h
  rw [ExtendedOpcode.new_eq_some_iff.mpr rfl] at h'
  exact Option.some.inj h'

theorem encodeInt_append_inj {n : ℕ} {x y : BitVec (8 * n)} {b b' : List UInt8}
    (h : encodeInt n x ++ b = encodeInt n y ++ b') : x = y ∧ b = b' := by
  obtain ⟨hxy, rfl⟩ := List.append_inj h (by simp)
  refine ⟨?_, rfl⟩
  rw [← ofNat_ofBytes_encodeInt n x, hxy, ofNat_ofBytes_encodeInt]

/-- Every op's bytes start with the byte of an opcode. -/
theorem Op.encodes_head {b : List UInt8} {op : Op} (h : Op.Encodes b op) :
    ∃ (o : Opcode) (b' : List UInt8), b = o.toU8 :: b' := by
  cases op with
  | op o _ args =>
    obtain ⟨b', rfl, -⟩ := h
    exact ⟨o, b', rfl⟩
  | extendedOp o args =>
    obtain ⟨b', rfl, -⟩ := h
    exact ⟨.extendedOp, _, rfl⟩

/-- The bytes after `ExtendedOp`'s byte: an extended opcode, then its fields. -/
theorem Op.encodes_extendedOp_byte {b : List UInt8} {op : Op}
    (h : Op.Encodes (Opcode.extendedOp.toU8 :: b) op) :
    ∃ o args b', op = .extendedOp o args ∧ b = encodeInt 2 o.toU16 ++ b' ∧ Args.Encodes b' args := by
  cases op with
  | op o ho args =>
    obtain ⟨b', hb, -⟩ := h
    exact absurd (Opcode.toU8_injective (List.cons.inj hb).1).symm ho
  | extendedOp o args =>
    obtain ⟨b', hb, hargs⟩ := h
    exact ⟨o, args, b', rfl, (List.cons.inj hb).2, hargs⟩

theorem decodeOneExtended_exact : Exact (fun b op => Op.Encodes (Opcode.extendedOp.toU8 :: b) op)
    .unexpectedEof decodeOneExtended := by
  -- the extended opcode, then what `ExtendedOpcode::new` makes of it
  refine ((decodeInt_exact 2).bind (K := fun code b op =>
    Op.Encodes (Opcode.extendedOp.toU8 :: (encodeInt 2 code ++ b)) op) fun code => ?_).congr ?_
  · split
    · next o ho =>
      rw [ExtendedOpcode.new_eq_some_iff] at ho
      subst ho
      refine ((decodeArgs_exact o.fields).map (Op.extendedOp o)).congr fun b op => ⟨?_, fun h => ?_⟩
      · rintro ⟨args, hb, rfl⟩
        exact ⟨b, rfl, hb⟩
      · obtain ⟨o', args, b', rfl, hb, hargs⟩ := Op.encodes_extendedOp_byte h
        obtain ⟨ho, rfl⟩ := encodeInt_append_inj hb
        obtain rfl := ExtendedOpcode.toU16_injective ho
        exact ⟨args, hargs, rfl⟩
    · next ho =>
      refine (exact_of_ne_ok (fail_ne_ok _)).congr fun b op => ⟨False.elim, fun h => ?_⟩
      obtain ⟨o, _, b', _, hb, _⟩ := Op.encodes_extendedOp_byte h
      rw [(encodeInt_append_inj hb).1, ExtendedOpcode.new_eq_some_iff.mpr rfl] at ho
      exact absurd ho nofun
  · intro b op
    constructor
    · rintro ⟨b₁, b₂, code, rfl, rfl, h⟩
      exact h
    · intro h
      obtain ⟨o, args, b', rfl, rfl, hargs⟩ := Op.encodes_extendedOp_byte h
      exact ⟨_, b', o.toU16, rfl, rfl, h⟩

/-- **`decode_one` reads exactly the bytes of an op**, and stops with `UnexpectedEof` inside
an op that the stream cuts off. -/
theorem decodeOne_exact : Exact Op.Encodes .unexpectedEof decodeOne := by
  -- the opcode's byte, then what `Opcode::new` makes of it
  refine (decodeU8_exact.bind (K := fun byte b op => Op.Encodes (byte :: b) op)
    fun byte => ?_).congr ?_
  · split
    · next o ho =>
      rw [Opcode.new_eq_some_iff] at ho
      subst ho
      split
      · next h =>
        subst h
        exact decodeOneExtended_exact
      · next h =>
        refine ((decodeArgs_exact o.fields).map (Op.op o h)).congr fun b op => ⟨?_, fun hop => ?_⟩
        · rintro ⟨args, hb, rfl⟩
          exact ⟨b, rfl, hb⟩
        · cases op with
          | op o' h' args =>
            obtain ⟨b', hb, hargs⟩ := hop
            obtain ⟨ho', rfl⟩ := List.cons.inj hb
            obtain rfl := Opcode.toU8_injective ho'
            exact ⟨args, hargs, rfl⟩
          | extendedOp o' args =>
            obtain ⟨b', hb, -⟩ := hop
            exact absurd (Opcode.toU8_injective (List.cons.inj hb).1) h
    · next ho =>
      refine (exact_of_ne_ok (fail_ne_ok _)).congr fun b op => ⟨False.elim, fun hop => ?_⟩
      obtain ⟨o, b', hb⟩ := Op.encodes_head hop
      rw [(List.cons.inj hb).1, Opcode.new_eq_some_iff.mpr rfl] at ho
      exact absurd ho nofun
  · intro b op
    constructor
    · rintro ⟨b₁, b₂, byte, rfl, rfl, h⟩
      exact h
    · intro h
      obtain ⟨o, b', rfl⟩ := Op.encodes_head h
      exact ⟨[o.toU8], b', o.toU8, rfl, rfl, h⟩

theorem decodeOne_progress : Progress decodeOne :=
  decodeOne_exact.sound.progress fun b op h => by
    obtain ⟨o, b', rfl⟩ := Op.encodes_head h
    exact List.cons_ne_nil _ _

/-! ### `decode_all` -/

/-- `Decoder::decode_all`, with the `MaterializeOpsVisitor`: ops until the stream is empty, or
the first error. -/
def decodeAll (s : SafeBytecodeStream) : Except DecodingError (List Op) :=
  (untilEmpty decodeOne decodeOne_progress s).map Prod.fst

theorem decodeAll_eq_ok_iff (bytecode : List UInt8) (ops : List Op) :
    decodeAll (SafeBytecodeStream.new bytecode) = .ok ops ↔ Many Op.Encodes bytecode ops := by
  have hloop := untilEmpty_eq_ok_iff decodeOne_exact.sound decodeOne_exact.complete
    decodeOne_progress bytecode 0
  unfold decodeAll SafeBytecodeStream.new
  cases h : untilEmpty decodeOne decodeOne_progress ⟨bytecode, 0⟩ with
  | error e =>
    -- the loop failed, so the bytecode is no concatenation of ops' bytes
    refine ⟨nofun, fun hmany => ?_⟩
    have hok := (hloop ops _).mpr ⟨hmany, rfl⟩
    rw [h] at hok
    exact absurd hok nofun
  | ok r =>
    obtain ⟨xs, s'⟩ := r
    change (Except.ok xs : Except DecodingError (List Op)) = .ok ops ↔ _
    constructor
    · intro hxs
      rw [← Except.ok.inj hxs]
      exact ((hloop xs s').mp h).1
    · intro hmany
      have hok := (hloop ops _).mpr ⟨hmany, rfl⟩
      rw [h] at hok
      rw [(Prod.mk.inj (Except.ok.inj hok)).1]

/-! ### The round trip -/

theorem OperandTy.encodes_encode (t : OperandTy) (x : t.Value) : t.Encodes (t.encode x) x := by
  cases t
  case binaryOperands => exact ⟨x.toBits, rfl, BinaryOperands.fromBits_toBits x⟩
  all_goals rfl

theorem Args.encodes_encode {ts : List OperandTy} (args : Args ts) :
    Args.Encodes args.encode args := by
  induction args with
  | nil => rfl
  | cons x xs ih => exact ⟨_, _, rfl, OperandTy.encodes_encode _ x, ih⟩

theorem Op.encodes_encode (op : Op) : Op.Encodes op.encode op := by
  cases op with
  | op o h args => exact ⟨args.encode, rfl, args.encodes_encode⟩
  | extendedOp o args => exact ⟨args.encode, rfl, args.encodes_encode⟩

theorem many_encodes_flatMap (ops : List Op) : Many Op.Encodes (ops.flatMap Op.encode) ops := by
  induction ops with
  | nil => exact .nil
  | cons op ops ih =>
    rw [List.flatMap_cons]
    exact .cons op.encodes_encode ih

/-- **The round trip**: `decode_all` of the encoding of any list of ops is that list. -/
theorem decodeAll_encode (ops : List Op) :
    decodeAll (SafeBytecodeStream.new (ops.flatMap Op.encode)) = .ok ops :=
  (decodeAll_eq_ok_iff _ ops).mpr (many_encodes_flatMap ops)

theorem BinaryOperands.fromBits_congr {a b : BitVec 16}
    (h : a.toNat % 2 ^ 15 = b.toNat % 2 ^ 15) : fromBits a = fromBits b := by
  rw [fromBits_eq, fromBits_eq]
  simp only [BinaryOperands.mk.injEq, Fin.mk.injEq]
  omega

theorem BinaryOperands.toNat_toBits_lt (x : BinaryOperands) : x.toBits.toNat < 2 ^ 15 := by
  have hd := x.dst.isLt
  have h1 := x.src1.isLt
  have h2 := x.src2.isLt
  rw [toNat_toBits]
  omega

/-- The word with its top bit set or clear. -/
theorem toNat_or_top {w : BitVec 16} (hw : w.toNat < 2 ^ 15) (top : Bool) :
    (w ||| if top then 0x8000#16 else 0#16).toNat = w.toNat + if top then 2 ^ 15 else 0 := by
  cases top
  · simp
  · rw [if_pos rfl, if_pos rfl, BitVec.toNat_or, show (0x8000#16).toNat = 1 * 2 ^ 15 from rfl,
      BitFields.or_mul_two_pow 1 hw, Nat.one_mul]

/-- **The bytes of a `BinaryOperands`** are the `u16` of `to_bits` with its top bit free. -/
theorem encodes_binaryOperands_iff {b : List UInt8} {x : BinaryOperands} :
    OperandTy.Encodes .binaryOperands b x ↔
      ∃ top : Bool, b = encodeInt 2 (x.toBits ||| if top then 0x8000#16 else 0#16) := by
  constructor
  · rintro ⟨bits, rfl, rfl⟩
    refine ⟨decide (2 ^ 15 ≤ bits.toNat), congrArg (encodeInt 2) (BitVec.eq_of_toNat_eq ?_)⟩
    have hlt := bits.isLt
    rw [toNat_or_top (BinaryOperands.toNat_toBits_lt _), BinaryOperands.toNat_toBits_fromBits]
    by_cases htop : 2 ^ 15 ≤ bits.toNat
    · rw [if_pos (decide_eq_true htop)]
      omega
    · rw [if_neg (by simpa using htop)]
      omega
  · rintro ⟨top, rfl⟩
    refine ⟨_, rfl, ?_⟩
    have hx := BinaryOperands.toNat_toBits_lt x
    have hmod : (x.toBits ||| if top then 0x8000#16 else 0#16).toNat % 2 ^ 15 =
        x.toBits.toNat % 2 ^ 15 := by
      rw [toNat_or_top hx]
      cases top <;> simp
    rw [BinaryOperands.fromBits_congr hmod, BinaryOperands.fromBits_toBits]

/-! ### Errors -/

/-- After any bytecode that decodes, decoding goes on with the first error of what follows. -/
theorem decodeAll_append_of_error {bytecode : List UInt8} {ops : List Op}
    (hbs : decodeAll (SafeBytecodeStream.new bytecode) = .ok ops) {c : List UInt8} (hc : c ≠ [])
    {e : DecodingError} (he : decodeOne ⟨c, bytecode.length⟩ = .error e) :
    decodeAll (SafeBytecodeStream.new (bytecode ++ c)) = .error e := by
  have hmany := (decodeAll_eq_ok_iff bytecode ops).mp hbs
  unfold decodeAll SafeBytecodeStream.new
  rw [untilEmpty_append_of_error decodeOne_exact.complete decodeOne_progress hmany hc 0
    (by rwa [Nat.zero_add])]
  rfl

/-- A byte above `Opcode::MAX` is rejected at its own position. -/
theorem decodeOne_invalidOpcode {byte : UInt8} (hbyte : Opcode.MAX < byte.toNat)
    (rest : List UInt8) (n : ℕ) :
    decodeOne ⟨byte :: rest, n⟩ = .error (.invalidOpcode n byte) := by
  have hnone : Opcode.new byte = none := by
    rw [Opcode.new, if_neg (by omega)]
  have hread : decodeU8 ⟨byte :: rest, n⟩ = .ok (byte, ⟨rest, n + 1⟩) :=
    decodeU8_exact.complete [byte] byte rest n rfl
  rw [decodeOne, bind_of_ok hread, hnone]
  rfl

/-- **Where `decode_all` fails**: after any bytecode that decodes, a strict prefix of the bytes
of an op is rejected with `UnexpectedEof` at a position inside it, and a byte above
`Opcode::MAX` is rejected with `InvalidOpcode` at its own position. -/
theorem decodeAll_errors {bytecode : List UInt8} {ops : List Op}
    (hbs : decodeAll (SafeBytecodeStream.new bytecode) = .ok ops) :
    (∀ (b c d : List UInt8) (op : Op), Op.Encodes b op → b = c ++ d → c ≠ [] → d ≠ [] →
      ∃ q, bytecode.length ≤ q ∧ q ≤ bytecode.length + c.length ∧
        decodeAll (SafeBytecodeStream.new (bytecode ++ c)) = .error (.unexpectedEof q)) ∧
    (∀ (byte : UInt8) (rest : List UInt8), Opcode.MAX < byte.toNat →
      decodeAll (SafeBytecodeStream.new (bytecode ++ byte :: rest)) =
        .error (.invalidOpcode bytecode.length byte)) := by
  refine ⟨fun b c d op hop hcd hc hd => ?_, fun byte rest hbyte => ?_⟩
  · obtain ⟨q, hq₁, hq₂, hq⟩ := decodeOne_exact.failsAtEnd b op c d bytecode.length hop hcd hd
    exact ⟨q, hq₁, hq₂, decodeAll_append_of_error hbs hc hq⟩
  · exact decodeAll_append_of_error hbs (List.cons_ne_nil _ _)
      (decodeOne_invalidOpcode hbyte rest _)

/-- `decode_all` after the bytes of a `nop`: the errors are placed past them. -/
theorem decodeAll_errors_after_nop :
    decodeAll (SafeBytecodeStream.new ([Op.extendedOp .nop .nil].flatMap Op.encode)) = .ok [.extendedOp .nop .nil] ∧
    ((∀ (b c d : List UInt8) (op : Op), Op.Encodes b op → b = c ++ d → c ≠ [] → d ≠ [] →
      ∃ q, ([Op.extendedOp .nop .nil].flatMap Op.encode).length ≤ q ∧ q ≤ ([Op.extendedOp .nop .nil].flatMap Op.encode).length + c.length ∧
        decodeAll (SafeBytecodeStream.new (([Op.extendedOp .nop .nil].flatMap Op.encode) ++ c)) = .error (.unexpectedEof q)) ∧
    (∀ (byte : UInt8) (rest : List UInt8), Opcode.MAX < byte.toNat →
      decodeAll (SafeBytecodeStream.new (([Op.extendedOp .nop .nil].flatMap Op.encode) ++ byte :: rest)) =
        .error (.invalidOpcode ([Op.extendedOp .nop .nil].flatMap Op.encode).length byte))) :=
  ⟨decodeAll_encode _, decodeAll_errors (decodeAll_encode _)⟩

/-- **Pulley bytecode reads back through the decoder**: `decode_all` of the encoding of any list
of ops is that list, and `decode_all` accepts exactly the concatenations of the bytes of ops, in
which each field is its encoding but a `BinaryOperands` word, whose top bit is free. -/
theorem bytecode_roundTrip :
    (∀ ops : List Op, decodeAll (SafeBytecodeStream.new (ops.flatMap Op.encode)) = .ok ops) ∧
    (∀ (bytecode : List UInt8) (ops : List Op),
      decodeAll (SafeBytecodeStream.new bytecode) = .ok ops ↔ Many Op.Encodes bytecode ops) ∧
    (∀ (t : OperandTy), t ≠ .binaryOperands → ∀ (b : List UInt8) (x : t.Value),
      t.Encodes b x ↔ b = t.encode x) ∧
    (∀ (b : List UInt8) (x : BinaryOperands), OperandTy.Encodes .binaryOperands b x ↔
      ∃ top : Bool, b = encodeInt 2 (x.toBits ||| if top then 0x8000#16 else 0#16)) := by
  refine ⟨decodeAll_encode, decodeAll_eq_ok_iff, fun t ht b x => ?_,
    fun _ _ => encodes_binaryOperands_iff⟩
  cases t <;> first | exact absurd rfl ht | exact Iff.rfl

end Cranelift.Pulley.Bytecode
