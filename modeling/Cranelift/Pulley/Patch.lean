import Cranelift.Pulley.Interp

/-!
# Patching the branch offsets of the Pulley backend

The Pulley backend of `cranelift/codegen/src/isa/pulley_shared/inst/emit.rs` writes a branch
with a zero offset and records a use of its target label at the offset field: `Inst::Jump`
writes `jump` with the use one byte after the start of the op, `LabelUse::Jump(1)`; `Inst::BrIf`
writes `br_if` with the use two bytes in, `LabelUse::Jump(2)`; `br_if_cond_helper` writes a
`br_if_x*32` with the use three bytes in, `LabelUse::Jump(3)`. When the label is bound,
`MachBuffer::handle_fixup` calls `LabelUse::patch` of `inst/mod.rs`, which writes over the field
the distance from the use to the label plus the addend, as four little-endian bytes.

The offsets of the code buffer are `u32` (`CodeOffset`); `i32::try_from(use_relative).unwrap()`
panics outside the range of `i32`, a failure (`none`) here, as do the `debug_assert!`s that state
the same range.

## Main results

* `Cranelift.Pulley.Bytecode.patch_eq` — `LabelUse::Jump(k)` at `start + k` writes the offset
  from `start` to the label.
* `Cranelift.Pulley.Bytecode.patched_branches_land` — after the patch, a `jump`, a `br_if` or a
  `br_if_xeq32` emitted at `start` decodes with the offset to its label, and the interpreter's
  taken transfer lands on the label.
-/

namespace Cranelift.Pulley.Bytecode

/-- `LabelUse`: a PC-relative `i32` offset, whose field starts `addend` bytes after the start of
its op. -/
inductive LabelUse
  | jump (addend : UInt32)

/-- `LabelUse::patch`: the bytes written over the field at `use_offset` for the label at
`label_offset`, `pc_rel.wrapping_add(addend)` as four little-endian bytes. -/
def LabelUse.patch : LabelUse → UInt32 → UInt32 → Option (List UInt8)
  | .jump addend, useOffset, labelOffset =>
    let useRelative : ℤ := (labelOffset.toNat : ℤ) - useOffset.toNat
    if -2 ^ 31 ≤ useRelative ∧ useRelative < 2 ^ 31 then
      some (toBytes 4 (UInt32.ofInt useRelative + addend).toNat)
    else none

/-- **`LabelUse::patch` writes the offset from the start of the op**: for a use `k` bytes
after `start`, the distance to the label plus the addend `k` is the distance from `start`. -/
theorem patch_eq {k start label : ℕ} (hk : start + k < 2 ^ 32) (hl : label < 2 ^ 32)
    (hr : -2 ^ 31 ≤ (label : ℤ) - (start + k) ∧ (label : ℤ) - (start + k) < 2 ^ 31) :
    (LabelUse.jump (UInt32.ofNat k)).patch (UInt32.ofNat (start + k)) (UInt32.ofNat label) =
      some (encodeInt 4 (BitVec.ofInt 32 ((label : ℤ) - start))) := by
  have hstart : (UInt32.ofNat (start + k)).toNat = start + k := by
    rw [UInt32.toNat_ofNat']
    exact Nat.mod_eq_of_lt hk
  have hlabel : (UInt32.ofNat label).toNat = label := by
    rw [UInt32.toNat_ofNat']
    exact Nat.mod_eq_of_lt hl
  have hrel : (label : ℤ) - ↑(start + k) = (label : ℤ) - (start + k) := by push_cast; rfl
  unfold LabelUse.patch
  simp only [hstart, hlabel, hrel]
  rw [if_pos hr, encodeInt]
  congr 2
  -- the sum wraps modulo `2 ^ 32`, as the offset's bits do
  rw [UInt32.toNat_add, UInt32.ofInt, UInt32.toNat_ofNat', UInt32.toNat_ofNat',
    BitVec.toNat_ofInt]
  omega

/-! ### The patched branches -/

/-- `enc::jump` as an op. -/
def jumpOp (offset : PcRelOffset) : Op := .op .jump (by decide) (.cons offset .nil)

/-- `enc::br_if` as an op. -/
def brIfOp (cond : XReg) (offset : PcRelOffset) : Op :=
  .op .brIf (by decide) (.cons cond (.cons offset .nil))

/-- `enc::br_if_xeq32` as an op. -/
def brIfXeq32Op (a b : XReg) (offset : PcRelOffset) : Op :=
  .op .brIfXeq32 (by decide) (.cons a (.cons b (.cons offset .nil)))

theorem encode_jumpOp (o : PcRelOffset) :
    (jumpOp o).encode = [Opcode.jump.toU8] ++ encodeInt 4 o.offset := by
  show Opcode.jump.toU8 :: (encodeInt 4 o.offset ++ []) = _
  rw [List.append_nil]
  rfl

theorem encode_brIfOp (cond : XReg) (o : PcRelOffset) :
    (brIfOp cond o).encode = (Opcode.brIf.toU8 :: encodeReg cond) ++ encodeInt 4 o.offset := by
  show Opcode.brIf.toU8 :: (encodeReg cond ++ (encodeInt 4 o.offset ++ [])) = _
  rw [List.append_nil, List.cons_append]

theorem encode_brIfXeq32Op (a b : XReg) (o : PcRelOffset) :
    (brIfXeq32Op a b o).encode =
      (Opcode.brIfXeq32.toU8 :: (encodeReg a ++ encodeReg b)) ++ encodeInt 4 o.offset := by
  show Opcode.brIfXeq32.toU8 :: (encodeReg a ++ (encodeReg b ++ (encodeInt 4 o.offset ++ []))) = _
  rw [List.append_nil, List.cons_append, List.append_assoc]

theorem length_jumpOp (o : PcRelOffset) : (jumpOp o).encode.length = 5 := by
  rw [encode_jumpOp, List.length_append, length_encodeInt]
  rfl

theorem length_brIfOp (cond : XReg) (o : PcRelOffset) : (brIfOp cond o).encode.length = 6 := by
  rw [encode_brIfOp, List.length_append, length_encodeInt]
  rfl

theorem length_brIfXeq32Op (a b : XReg) (o : PcRelOffset) :
    (brIfXeq32Op a b o).encode.length = 7 := by
  rw [encode_brIfXeq32Op, List.length_append, length_encodeInt]
  rfl

theorem flow_jumpOp (v : InterpreterVisitor) (o : PcRelOffset) : (jumpOp o).flow v = .offset o :=
  rfl

theorem flow_brIfOp (v : InterpreterVisitor) (cond : XReg) (o : PcRelOffset) :
    (brIfOp cond o).flow v = if v.x cond ≠ 0 then .offset o else .next := rfl

theorem flow_brIfXeq32Op (v : InterpreterVisitor) (a b : XReg) (o : PcRelOffset) :
    (brIfXeq32Op a b o).flow v =
      if low32 (v.x a) = low32 (v.x b) then .offset o else .next := rfl

/-- The patch written over the offset field of an op. -/
theorem writeAt_field (pre : List UInt8) (y x : BitVec 32) :
    writeAt (pre ++ encodeInt 4 y) pre.length (encodeInt 4 x) = pre ++ encodeInt 4 x := by
  rw [writeAt, List.take_left' rfl, length_encodeInt,
    List.drop_eq_nil_of_le (by simp [length_encodeInt]), List.append_nil]

theorem toInt_ofInt_offset {d : ℤ} (h : -2 ^ 31 ≤ d ∧ d < 2 ^ 31) :
    (BitVec.ofInt 32 d).toInt = d := by
  rw [BitVec.toInt_ofInt]
  exact Int.bmod_eq_of_le (by omega) (by omega)

/-- `visit_pc` for an op of a known size, run from past it. -/
theorem visit_pc_past {v v' : InterpreterVisitor} {op : Op} {start n : ℤ} {c : Continuation}
    (hn : (op.encode.length : ℤ) = n) (h : visit { v with pc := start + n } op = some (v', c)) :
    v'.pc = (op.flow v).target start (start + n) := by
  rw [← hn] at h ⊢
  exact visit_pc h

/-- **A patched branch lands on its label.** A `jump` emitted for `Inst::Jump`, a `br_if` for
`Inst::BrIf` and a `br_if_xeq32` for `br_if_cond_helper`, at `start` with a zero offset and the
label use of `pulley_emit`, become after `LabelUse::patch` the same op with the offset from
`start` to the label; and the interpreter, past the op, goes to the label when the branch is
taken and to the next op otherwise. Each op needs only what `LabelUse::patch` checks at its own
use offset `start + k`: that the offset is a `u32` and the distance from it an `i32`. -/
theorem patched_branches_land {start label : ℕ} (hl : label < 2 ^ 32)
    (hr : (label : ℤ) - start < 2 ^ 31) :
    let x := BitVec.ofInt 32 ((label : ℤ) - start)
    (start + 1 < 2 ^ 32 → -2 ^ 31 + 1 ≤ (label : ℤ) - start →
      (LabelUse.jump 1).patch (UInt32.ofNat (start + 1)) (UInt32.ofNat label) =
          some (encodeInt 4 x) ∧
        writeAt (jumpOp ⟨0⟩).encode 1 (encodeInt 4 x) = (jumpOp ⟨x⟩).encode ∧
        ∀ (v v' : InterpreterVisitor) (c : Continuation),
          visit { v with pc := (start : ℤ) + 5 } (jumpOp ⟨x⟩) = some (v', c) →
          v'.pc = (label : ℤ)) ∧
    (start + 2 < 2 ^ 32 → -2 ^ 31 + 2 ≤ (label : ℤ) - start →
      (LabelUse.jump 2).patch (UInt32.ofNat (start + 2)) (UInt32.ofNat label) =
          some (encodeInt 4 x) ∧
        ∀ cond, writeAt (brIfOp cond ⟨0⟩).encode 2 (encodeInt 4 x) =
            (brIfOp cond ⟨x⟩).encode ∧
          ∀ (v v' : InterpreterVisitor) (c : Continuation),
            visit { v with pc := (start : ℤ) + 6 } (brIfOp cond ⟨x⟩) = some (v', c) →
            v'.pc = if v.x cond ≠ 0 then (label : ℤ) else (start : ℤ) + 6) ∧
    (start + 3 < 2 ^ 32 → -2 ^ 31 + 3 ≤ (label : ℤ) - start →
      (LabelUse.jump 3).patch (UInt32.ofNat (start + 3)) (UInt32.ofNat label) =
          some (encodeInt 4 x) ∧
        ∀ a b, writeAt (brIfXeq32Op a b ⟨0⟩).encode 3 (encodeInt 4 x) =
            (brIfXeq32Op a b ⟨x⟩).encode ∧
          ∀ (v v' : InterpreterVisitor) (c : Continuation),
            visit { v with pc := (start : ℤ) + 7 } (brIfXeq32Op a b ⟨x⟩) = some (v', c) →
            v'.pc = if low32 (v.x a) = low32 (v.x b) then (label : ℤ)
              else (start : ℤ) + 7) := by
  intro x
  -- the offset reads back as the distance wherever the distance is an `i32`
  have hx : -2 ^ 31 ≤ (label : ℤ) - start → start + x.toInt = label := by
    intro hlow
    rw [toInt_ofInt_offset ⟨hlow, hr⟩]
    omega
  refine ⟨fun hs hk => ⟨patch_eq (k := 1) hs hl (by omega), ?_, fun v v' c h => ?_⟩,
    fun hs hk => ⟨patch_eq (k := 2) hs hl (by omega), fun cond => ⟨?_, fun v v' c h => ?_⟩⟩,
    fun hs hk => ⟨patch_eq (k := 3) hs hl (by omega), fun a b => ⟨?_, fun v v' c h => ?_⟩⟩⟩
  · rw [encode_jumpOp, encode_jumpOp]
    exact writeAt_field _ _ _
  · -- `pc_rel_jump(offset, 5)` from past the five bytes of `jump`
    rw [visit_pc_past (by simp [length_jumpOp]) h, flow_jumpOp]
    exact hx (by omega)
  · rw [encode_brIfOp, encode_brIfOp]
    exact writeAt_field _ _ _
  · rw [visit_pc_past (by simp [length_brIfOp]) h, flow_brIfOp]
    by_cases hc : v.x cond = 0 <;> simp [hc, Flow.target, hx (by omega)]
  · rw [encode_brIfXeq32Op, encode_brIfXeq32Op]
    exact writeAt_field _ _ _
  · rw [visit_pc_past (by simp [length_brIfXeq32Op]) h, flow_brIfXeq32Op]
    by_cases hc : low32 (v.x a) = low32 (v.x b) <;> simp [hc, Flow.target, hx (by omega)]

/-- A `jump`, a `br_if` and a `br_if_xeq32` at `0` to a label at `16`. -/
theorem patched_branches_land_sixteen :
    (16 < 2 ^ 32 ∧ ((16 : ℕ) : ℤ) - (0 : ℕ) < 2 ^ 31) ∧
    let x := BitVec.ofInt 32 (((16 : ℕ) : ℤ) - (0 : ℕ))
    (0 + 1 < 2 ^ 32 → -2 ^ 31 + 1 ≤ ((16 : ℕ) : ℤ) - (0 : ℕ) →
      (LabelUse.jump 1).patch (UInt32.ofNat (0 + 1)) (UInt32.ofNat 16) =
          some (encodeInt 4 x) ∧
        writeAt (jumpOp ⟨0⟩).encode 1 (encodeInt 4 x) = (jumpOp ⟨x⟩).encode ∧
        ∀ (v v' : InterpreterVisitor) (c : Continuation),
          visit { v with pc := ((0 : ℕ) : ℤ) + 5 } (jumpOp ⟨x⟩) = some (v', c) →
          v'.pc = ((16 : ℕ) : ℤ)) ∧
    (0 + 2 < 2 ^ 32 → -2 ^ 31 + 2 ≤ ((16 : ℕ) : ℤ) - (0 : ℕ) →
      (LabelUse.jump 2).patch (UInt32.ofNat (0 + 2)) (UInt32.ofNat 16) =
          some (encodeInt 4 x) ∧
        ∀ cond, writeAt (brIfOp cond ⟨0⟩).encode 2 (encodeInt 4 x) =
            (brIfOp cond ⟨x⟩).encode ∧
          ∀ (v v' : InterpreterVisitor) (c : Continuation),
            visit { v with pc := ((0 : ℕ) : ℤ) + 6 } (brIfOp cond ⟨x⟩) = some (v', c) →
            v'.pc = if v.x cond ≠ 0 then ((16 : ℕ) : ℤ) else ((0 : ℕ) : ℤ) + 6) ∧
    (0 + 3 < 2 ^ 32 → -2 ^ 31 + 3 ≤ ((16 : ℕ) : ℤ) - (0 : ℕ) →
      (LabelUse.jump 3).patch (UInt32.ofNat (0 + 3)) (UInt32.ofNat 16) =
          some (encodeInt 4 x) ∧
        ∀ a b, writeAt (brIfXeq32Op a b ⟨0⟩).encode 3 (encodeInt 4 x) =
            (brIfXeq32Op a b ⟨x⟩).encode ∧
          ∀ (v v' : InterpreterVisitor) (c : Continuation),
            visit { v with pc := ((0 : ℕ) : ℤ) + 7 } (brIfXeq32Op a b ⟨x⟩) = some (v', c) →
            v'.pc = if low32 (v.x a) = low32 (v.x b) then ((16 : ℕ) : ℤ)
              else ((0 : ℕ) : ℤ) + 7) :=
  ⟨⟨by decide, by decide⟩, @patched_branches_land 0 16 (by decide) (by decide)⟩

end Cranelift.Pulley.Bytecode
