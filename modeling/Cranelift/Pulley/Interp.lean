import Cranelift.Pulley.Decode

/-!
# The Pulley interpreter

A model of the interpreter of `pulley/src/interp.rs`: `InterpreterVisitor`, with a method for
every op of `for_each_op!` and `for_each_extended_op!`, and `Vm::run`, whose loop decodes the op
at the pc with `decode_one`, which moves the pc past it, runs the op's method, and stops at the
first `Continuation` other than `Continue`.

The bytecode is a list of bytes at address `base`, and the pc is an address: an integer, so that
`pc.offset` never wraps. The interpreter decodes through an `UnsafeBytecodeStream`, whose reads
and errors are unchecked: reading outside the bytecode, or bytes that are not an op, is undefined
behaviour, and a failure (`none`) here, as is a load or a store outside the stack. The host is
little-endian, as in the stack model: a register's `u32` is its low half, and the bit casts
between `f32` bits and `u32` are the identity.

Over the interpreter stands the semantics of a program by its ops, `Program.step`: the ops of a
list laid out from `base`, each at the sum of the sizes of the ops before it; the op that starts
at the pc runs its method, and control goes where `for_each_op!` documents it (`Op.flow`): to the
next op, to the start of the op plus its `PcRelOffset`, or to the address in `lr`.

## Main definitions

* `Cranelift.Pulley.Bytecode.InterpreterVisitor` with its methods and `visit`.
* `Cranelift.Pulley.Bytecode.step`, `run` — one turn and a bounded run of `Vm::run`'s loop.
* `Cranelift.Pulley.Bytecode.Op.flow` — the documented control flow of each op.
* `Cranelift.Pulley.Bytecode.Program.step`, `Program.run` — the semantics by ops.

## Main results

* `Cranelift.Pulley.Bytecode.visit_pc` — every method leaves the pc where `Op.flow` says, when
  the pc is past the op's encoding: the sizes `pc_rel_jump` is given are the sizes of the ops.
* `Cranelift.Pulley.Bytecode.fetch_addr` — `decode_one` at the address of an op of a program
  reads that op and moves to the next.
* `Cranelift.Pulley.Bytecode.run_of_programRun` — every run of the semantics by ops is a run of
  the interpreter over the program's bytecode.
-/

namespace Cranelift.Pulley.Bytecode

open StreamParser

/-! ### The fields of an op -/

/-- The first field. -/
def Args.fst {t : OperandTy} {ts : List OperandTy} : Args (t :: ts) → t.Value
  | .cons x _ => x

/-- The second field. -/
def Args.snd {t t' : OperandTy} {ts : List OperandTy} : Args (t :: t' :: ts) → t'.Value
  | .cons _ (.cons x _) => x

/-- The third field. -/
def Args.thd {t t' t'' : OperandTy} {ts : List OperandTy} :
    Args (t :: t' :: t'' :: ts) → t''.Value
  | .cons _ (.cons _ (.cons x _)) => x

/-! ### Register values -/

/-- `XRegVal::get_i32`: the low half, signed. -/
def getI32 (x : UInt64) : Int32 := (getU32 x).toInt32

/-- `XRegVal::get_i64`. -/
def getI64 (x : UInt64) : Int64 := x.toInt64

/-! ### The visitor -/

/-- `Continuation`: how `Vm::run`'s loop goes on after an op. -/
inductive Continuation
  | «continue»
  | returnToHost
  | trap
  | hostCall
deriving DecidableEq, Repr

/-- `InterpreterVisitor`: the machine state and the pc. The `f` and `v` registers of the
source's `MachineState` stand here beside the stack model's `MachineState`, as the `u64` of an
`FRegVal` and the `u128` of a `VRegVal`. -/
structure InterpreterVisitor where
  state : MachineState
  fRegs : FReg → UInt64
  vRegs : VReg → BitVec 128
  pc : ℤ

namespace InterpreterVisitor

variable (v : InterpreterVisitor)

/-- `self.state[r].get_u64()`. -/
def x (r : XReg) : UInt64 := v.state.xRegs r

@[simp]
theorem x_setPc (pc : ℤ) : ({ v with pc := pc } : InterpreterVisitor).x = v.x := rfl

/-- `self.state[r].set_u64(val)`, or a whole `XRegVal` stored. -/
def setX (r : XReg) (val : UInt64) : InterpreterVisitor := { v with state := v.state.setReg r val }

@[simp]
theorem pc_setX (r : XReg) (val : UInt64) : (v.setX r val).pc = v.pc := rfl

/-- `self.state[r] = val` for an `f` register. -/
def setF (r : FReg) (val : UInt64) : InterpreterVisitor :=
  { v with fRegs := Function.update v.fRegs r val }

/-- `self.state[r] = val` for a `v` register. -/
def setV (r : VReg) (val : BitVec 128) : InterpreterVisitor :=
  { v with vRegs := Function.update v.vRegs r val }

/-! #### Control -/

/-- `pc_rel_jump`: the pc, past the op, moves by `offset - inst_size`. -/
def pcRelJump (offset : PcRelOffset) (instSize : ℤ) : InterpreterVisitor × Continuation :=
  ({ v with pc := v.pc + (offset.offset.toInt - instSize) }, .continue)

@[simp]
theorem pcRelJump_pc (offset : PcRelOffset) (instSize : ℤ) :
    (v.pcRelJump offset instSize).1.pc = v.pc + (offset.offset.toInt - instSize) := rfl

@[simp]
theorem pcRelJump_continuation (offset : PcRelOffset) (instSize : ℤ) :
    (v.pcRelJump offset instSize).2 = .continue := rfl

/-- `ret`: back to the host if `lr` is `u64::MAX`, else to the address in `lr`. -/
def ret : InterpreterVisitor × Continuation :=
  if v.x XReg.lr = UInt64.ofNat (2 ^ 64 - 1) then (v, .returnToHost)
  else ({ v with pc := (v.x XReg.lr).toNat }, .continue)

theorem ret_pc : v.ret.1.pc =
    if v.x XReg.lr = UInt64.ofNat (2 ^ 64 - 1) then v.pc else (v.x XReg.lr).toNat := by
  unfold ret
  split <;> rfl

theorem ret_continuation : v.ret.2 =
    if v.x XReg.lr = UInt64.ofNat (2 ^ 64 - 1) then .returnToHost else .continue := by
  unfold ret
  split <;> rfl

/-- `call`: `lr` is the pc past the op, then `pc_rel_jump(offset, 5)`. -/
def call (offset : PcRelOffset) : InterpreterVisitor × Continuation :=
  (v.setX XReg.lr (UInt64.ofInt v.pc)).pcRelJump offset 5

/-- `jump`. -/
def jump (offset : PcRelOffset) : InterpreterVisitor × Continuation :=
  v.pcRelJump offset 5

/-- The conditional branches: `pc_rel_jump(offset, inst_size)` if the condition holds, else
`Continue`. -/
def branchIf (cond : Bool) (offset : PcRelOffset) (instSize : ℤ) :
    InterpreterVisitor × Continuation :=
  if cond then v.pcRelJump offset instSize else (v, .continue)

@[simp]
theorem branchIf_pc (cond : Bool) (offset : PcRelOffset) (instSize : ℤ) :
    (v.branchIf cond offset instSize).1.pc =
      if cond then v.pc + (offset.offset.toInt - instSize) else v.pc := by
  unfold branchIf
  split <;> rfl

@[simp]
theorem branchIf_continuation (cond : Bool) (offset : PcRelOffset) (instSize : ℤ) :
    (v.branchIf cond offset instSize).2 = .continue := by
  unfold branchIf
  split <;> rfl

/-- `br_if`. -/
def brIf (cond : XReg) (offset : PcRelOffset) : InterpreterVisitor × Continuation :=
  v.branchIf (v.x cond != 0) offset 6

/-- `br_if_not`. -/
def brIfNot (cond : XReg) (offset : PcRelOffset) : InterpreterVisitor × Continuation :=
  v.branchIf (v.x cond == 0) offset 6

/-- `br_if_xeq32`. -/
def brIfXeq32 (a b : XReg) (offset : PcRelOffset) : InterpreterVisitor × Continuation :=
  v.branchIf (getU32 (v.x a) == getU32 (v.x b)) offset 7

/-- `br_if_xneq32`. -/
def brIfXneq32 (a b : XReg) (offset : PcRelOffset) : InterpreterVisitor × Continuation :=
  v.branchIf (getU32 (v.x a) != getU32 (v.x b)) offset 7

/-- `br_if_xslt32`. -/
def brIfXslt32 (a b : XReg) (offset : PcRelOffset) : InterpreterVisitor × Continuation :=
  v.branchIf (decide (getI32 (v.x a) < getI32 (v.x b))) offset 7

/-- `br_if_xslteq32`. -/
def brIfXslteq32 (a b : XReg) (offset : PcRelOffset) : InterpreterVisitor × Continuation :=
  v.branchIf (decide (getI32 (v.x a) ≤ getI32 (v.x b))) offset 7

/-- `br_if_xult32`. -/
def brIfXult32 (a b : XReg) (offset : PcRelOffset) : InterpreterVisitor × Continuation :=
  v.branchIf (decide (getU32 (v.x a) < getU32 (v.x b))) offset 7

/-- `br_if_xulteq32`. -/
def brIfXulteq32 (a b : XReg) (offset : PcRelOffset) : InterpreterVisitor × Continuation :=
  v.branchIf (decide (getU32 (v.x a) ≤ getU32 (v.x b))) offset 7

/-! #### Moves, constants and arithmetic -/

/-- `xmov`. -/
def xmov (dst src : XReg) : InterpreterVisitor := v.setX dst (v.x src)

/-- `fmov`. -/
def fmov (dst src : FReg) : InterpreterVisitor := v.setF dst (v.fRegs src)

/-- `vmov`. -/
def vmov (dst src : VReg) : InterpreterVisitor := v.setV dst (v.vRegs src)

/-- The constants: `set_i64(i64::from(imm))`, the immediate sign-extended. -/
def xconst (dst : XReg) (imm : ℤ) : InterpreterVisitor := v.setX dst (UInt64.ofInt imm)

/-- `xconst8`. -/
def xconst8 (dst : XReg) (imm : BitVec 8) : InterpreterVisitor := v.xconst dst imm.toInt

/-- `xconst16`. -/
def xconst16 (dst : XReg) (imm : BitVec 16) : InterpreterVisitor := v.xconst dst imm.toInt

/-- `xconst32`. -/
def xconst32 (dst : XReg) (imm : BitVec 32) : InterpreterVisitor := v.xconst dst imm.toInt

/-- `xconst64`. -/
def xconst64 (dst : XReg) (imm : BitVec 64) : InterpreterVisitor := v.xconst dst imm.toInt

/-- `xadd32`: the low halves added, wrapping, into the low half of `dst`. -/
def xadd32 (operands : BinaryOperands) : InterpreterVisitor :=
  v.setX operands.dst
    (setU32 (v.x operands.dst) (getU32 (v.x operands.src1) + getU32 (v.x operands.src2)))

/-- `xadd64`. -/
def xadd64 (operands : BinaryOperands) : InterpreterVisitor :=
  v.setX operands.dst (v.x operands.src1 + v.x operands.src2)

/-- The comparisons: `set_u64(u64::from(a op b))`. -/
def compare (operands : BinaryOperands) (op : UInt64 → UInt64 → Bool) : InterpreterVisitor :=
  v.setX operands.dst (if op (v.x operands.src1) (v.x operands.src2) then 1 else 0)

/-- `xeq64`. -/
def xeq64 (operands : BinaryOperands) : InterpreterVisitor := v.compare operands (· == ·)

/-- `xneq64`. -/
def xneq64 (operands : BinaryOperands) : InterpreterVisitor := v.compare operands (· != ·)

/-- `xslt64`. -/
def xslt64 (operands : BinaryOperands) : InterpreterVisitor :=
  v.compare operands fun a b => decide (getI64 a < getI64 b)

/-- `xslteq64`. -/
def xslteq64 (operands : BinaryOperands) : InterpreterVisitor :=
  v.compare operands fun a b => decide (getI64 a ≤ getI64 b)

/-- `xult64`. -/
def xult64 (operands : BinaryOperands) : InterpreterVisitor :=
  v.compare operands fun a b => decide (a < b)

/-- `xulteq64`. -/
def xulteq64 (operands : BinaryOperands) : InterpreterVisitor :=
  v.compare operands fun a b => decide (a ≤ b)

/-- `xeq32`. -/
def xeq32 (operands : BinaryOperands) : InterpreterVisitor :=
  v.compare operands fun a b => getU32 a == getU32 b

/-- `xneq32`. -/
def xneq32 (operands : BinaryOperands) : InterpreterVisitor :=
  v.compare operands fun a b => getU32 a != getU32 b

/-- `xslt32`. -/
def xslt32 (operands : BinaryOperands) : InterpreterVisitor :=
  v.compare operands fun a b => decide (getI32 a < getI32 b)

/-- `xslteq32`. -/
def xslteq32 (operands : BinaryOperands) : InterpreterVisitor :=
  v.compare operands fun a b => decide (getI32 a ≤ getI32 b)

/-- `xult32`. -/
def xult32 (operands : BinaryOperands) : InterpreterVisitor :=
  v.compare operands fun a b => decide (getU32 a < getU32 b)

/-- `xulteq32`. -/
def xulteq32 (operands : BinaryOperands) : InterpreterVisitor :=
  v.compare operands fun a b => decide (getU32 a ≤ getU32 b)

/-! #### Memory -/

/-- The address `ptr.byte_offset(offset)`. -/
def address (ptr : XReg) (offset : ℤ) : ℤ := (v.x ptr).toNat + offset

/-- The loads: `read_unaligned` of `n` bytes at `ptr.byte_offset(offset)`, extended to 64 bits by
`ext`, into `dst`. -/
def load (dst ptr : XReg) (offset : ℤ) (n : ℕ) (ext : ℕ → UInt64) :
    Option InterpreterVisitor :=
  if v.address ptr offset < 0 then none
  else (v.state.readBytes (v.address ptr offset).toNat n).map fun bytes =>
    v.setX dst (ext (ofBytes bytes))

theorem pc_of_load {dst ptr : XReg} {offset : ℤ} {n : ℕ} {ext : ℕ → UInt64}
    {w : InterpreterVisitor} (h : v.load dst ptr offset n ext = some w) : w.pc = v.pc := by
  unfold load at h
  split at h
  · cases h
  · obtain ⟨_, -, rfl⟩ := Option.map_eq_some_iff.mp h
    rfl

/-- `i64::from` of an `i32` read as its four bytes. -/
def signExtend32 (val : ℕ) : UInt64 := UInt64.ofInt (BitVec.ofNat 32 val).toInt

/-- `load32_u`. -/
def load32U (dst ptr : XReg) : Option InterpreterVisitor := v.load dst ptr 0 4 UInt64.ofNat

/-- `load32_s`. -/
def load32S (dst ptr : XReg) : Option InterpreterVisitor := v.load dst ptr 0 4 signExtend32

/-- `load64`. -/
def load64 (dst ptr : XReg) : Option InterpreterVisitor := v.load dst ptr 0 8 UInt64.ofNat

/-- `load32_u_offset8`. -/
def load32UOffset8 (dst ptr : XReg) (offset : BitVec 8) : Option InterpreterVisitor :=
  v.load dst ptr offset.toInt 4 UInt64.ofNat

/-- `load32_s_offset8`. -/
def load32SOffset8 (dst ptr : XReg) (offset : BitVec 8) : Option InterpreterVisitor :=
  v.load dst ptr offset.toInt 4 signExtend32

/-- `load64_offset8`. -/
def load64Offset8 (dst ptr : XReg) (offset : BitVec 8) : Option InterpreterVisitor :=
  v.load dst ptr offset.toInt 8 UInt64.ofNat

/-- `load32_u_offset64`. -/
def load32UOffset64 (dst ptr : XReg) (offset : BitVec 64) : Option InterpreterVisitor :=
  v.load dst ptr offset.toInt 4 UInt64.ofNat

/-- `load32_s_offset64`. -/
def load32SOffset64 (dst ptr : XReg) (offset : BitVec 64) : Option InterpreterVisitor :=
  v.load dst ptr offset.toInt 4 signExtend32

/-- `load64_offset64`. -/
def load64Offset64 (dst ptr : XReg) (offset : BitVec 64) : Option InterpreterVisitor :=
  v.load dst ptr offset.toInt 8 UInt64.ofNat

/-- The stores: `write_unaligned` of the `n` low bytes of `val` at `ptr.byte_offset(offset)`. -/
def store (ptr : XReg) (offset : ℤ) (n val : ℕ) : Option InterpreterVisitor :=
  if v.address ptr offset < 0 then none
  else (v.state.writeBytes (v.address ptr offset).toNat (toBytes n val)).map fun st =>
    { v with state := st }

theorem pc_of_store {ptr : XReg} {offset : ℤ} {n val : ℕ} {w : InterpreterVisitor}
    (h : v.store ptr offset n val = some w) : w.pc = v.pc := by
  unfold store at h
  split at h
  · cases h
  · obtain ⟨_, -, rfl⟩ := Option.map_eq_some_iff.mp h
    rfl

/-- `store32`. -/
def store32 (ptr src : XReg) : Option InterpreterVisitor :=
  v.store ptr 0 4 (getU32 (v.x src)).toNat

/-- `store64`. -/
def store64 (ptr src : XReg) : Option InterpreterVisitor := v.store ptr 0 8 (v.x src).toNat

/-- `store32_offset8`. -/
def store32SOffset8 (ptr : XReg) (offset : BitVec 8) (src : XReg) : Option InterpreterVisitor :=
  v.store ptr offset.toInt 4 (getU32 (v.x src)).toNat

/-- `store64_offset8`. -/
def store64Offset8 (ptr : XReg) (offset : BitVec 8) (src : XReg) : Option InterpreterVisitor :=
  v.store ptr offset.toInt 8 (v.x src).toNat

/-- `store32_offset64`. -/
def store32SOffset64 (ptr : XReg) (offset : BitVec 64) (src : XReg) : Option InterpreterVisitor :=
  v.store ptr offset.toInt 4 (getU32 (v.x src)).toNat

/-- `store64_offset64`. -/
def store64Offset64 (ptr : XReg) (offset : BitVec 64) (src : XReg) : Option InterpreterVisitor :=
  v.store ptr offset.toInt 8 (v.x src).toNat

/-- The stack ops, on the machine state as the stack model has them. -/
def onStack (f : MachineState → Option MachineState) : Option InterpreterVisitor :=
  (f v.state).map fun st => { v with state := st }

theorem pc_of_onStack {f : MachineState → Option MachineState} {w : InterpreterVisitor}
    (h : v.onStack f = some w) : w.pc = v.pc := by
  obtain ⟨_, -, rfl⟩ := Option.map_eq_some_iff.mp h
  rfl

/-! #### Bit casts and `get_sp` -/

/-- `bitcast_int_from_float_32`: the `f32`'s bits, zero-extended. -/
def bitcastIntFromFloat32 (dst : XReg) (src : FReg) : InterpreterVisitor :=
  v.setX dst (getU32 (v.fRegs src)).toUInt64

/-- `bitcast_int_from_float_64`. -/
def bitcastIntFromFloat64 (dst : XReg) (src : FReg) : InterpreterVisitor :=
  v.setX dst (v.fRegs src)

/-- `bitcast_float_from_int_32`: `set_f32` writes the low half of the `f` register. -/
def bitcastFloatFromInt32 (dst : FReg) (src : XReg) : InterpreterVisitor :=
  v.setF dst (setU32 (v.fRegs dst) (getU32 (v.x src)))

/-- `bitcast_float_from_int_64`. -/
def bitcastFloatFromInt64 (dst : FReg) (src : XReg) : InterpreterVisitor :=
  v.setF dst (v.x src)

/-- `get_sp`. -/
def getSp (dst : XReg) : InterpreterVisitor := v.setX dst (v.x XReg.sp)

end InterpreterVisitor

open InterpreterVisitor in
/-- The `OpVisitor` and `ExtendedOpVisitor` methods of `InterpreterVisitor`, chosen by the op
that `decode_one` decoded, with their fields. -/
def visit (v : InterpreterVisitor) : Op → Option (InterpreterVisitor × Continuation)
  | .op .ret _ _ => some v.ret
  | .op .call _ args => some (v.call args.fst)
  | .op .jump _ args => some (v.jump args.fst)
  | .op .brIf _ args => some (v.brIf args.fst args.snd)
  | .op .brIfNot _ args => some (v.brIfNot args.fst args.snd)
  | .op .brIfXeq32 _ args => some (v.brIfXeq32 args.fst args.snd args.thd)
  | .op .brIfXneq32 _ args => some (v.brIfXneq32 args.fst args.snd args.thd)
  | .op .brIfXslt32 _ args => some (v.brIfXslt32 args.fst args.snd args.thd)
  | .op .brIfXslteq32 _ args => some (v.brIfXslteq32 args.fst args.snd args.thd)
  | .op .brIfXult32 _ args => some (v.brIfXult32 args.fst args.snd args.thd)
  | .op .brIfXulteq32 _ args => some (v.brIfXulteq32 args.fst args.snd args.thd)
  | .op .xmov _ args => some (v.xmov args.fst args.snd, .continue)
  | .op .fmov _ args => some (v.fmov args.fst args.snd, .continue)
  | .op .vmov _ args => some (v.vmov args.fst args.snd, .continue)
  | .op .xconst8 _ args => some (v.xconst8 args.fst args.snd, .continue)
  | .op .xconst16 _ args => some (v.xconst16 args.fst args.snd, .continue)
  | .op .xconst32 _ args => some (v.xconst32 args.fst args.snd, .continue)
  | .op .xconst64 _ args => some (v.xconst64 args.fst args.snd, .continue)
  | .op .xadd32 _ args => some (v.xadd32 args.fst, .continue)
  | .op .xadd64 _ args => some (v.xadd64 args.fst, .continue)
  | .op .xeq64 _ args => some (v.xeq64 args.fst, .continue)
  | .op .xneq64 _ args => some (v.xneq64 args.fst, .continue)
  | .op .xslt64 _ args => some (v.xslt64 args.fst, .continue)
  | .op .xslteq64 _ args => some (v.xslteq64 args.fst, .continue)
  | .op .xult64 _ args => some (v.xult64 args.fst, .continue)
  | .op .xulteq64 _ args => some (v.xulteq64 args.fst, .continue)
  | .op .xeq32 _ args => some (v.xeq32 args.fst, .continue)
  | .op .xneq32 _ args => some (v.xneq32 args.fst, .continue)
  | .op .xslt32 _ args => some (v.xslt32 args.fst, .continue)
  | .op .xslteq32 _ args => some (v.xslteq32 args.fst, .continue)
  | .op .xult32 _ args => some (v.xult32 args.fst, .continue)
  | .op .xulteq32 _ args => some (v.xulteq32 args.fst, .continue)
  | .op .load32U _ args => (v.load32U args.fst args.snd).map (·, .continue)
  | .op .load32S _ args => (v.load32S args.fst args.snd).map (·, .continue)
  | .op .load64 _ args => (v.load64 args.fst args.snd).map (·, .continue)
  | .op .load32UOffset8 _ args =>
    (v.load32UOffset8 args.fst args.snd args.thd).map (·, .continue)
  | .op .load32SOffset8 _ args =>
    (v.load32SOffset8 args.fst args.snd args.thd).map (·, .continue)
  | .op .load64Offset8 _ args => (v.load64Offset8 args.fst args.snd args.thd).map (·, .continue)
  | .op .load32UOffset64 _ args =>
    (v.load32UOffset64 args.fst args.snd args.thd).map (·, .continue)
  | .op .load32SOffset64 _ args =>
    (v.load32SOffset64 args.fst args.snd args.thd).map (·, .continue)
  | .op .load64Offset64 _ args =>
    (v.load64Offset64 args.fst args.snd args.thd).map (·, .continue)
  | .op .store32 _ args => (v.store32 args.fst args.snd).map (·, .continue)
  | .op .store64 _ args => (v.store64 args.fst args.snd).map (·, .continue)
  | .op .store32SOffset8 _ args =>
    (v.store32SOffset8 args.fst args.snd args.thd).map (·, .continue)
  | .op .store64Offset8 _ args =>
    (v.store64Offset8 args.fst args.snd args.thd).map (·, .continue)
  | .op .store32SOffset64 _ args =>
    (v.store32SOffset64 args.fst args.snd args.thd).map (·, .continue)
  | .op .store64Offset64 _ args =>
    (v.store64Offset64 args.fst args.snd args.thd).map (·, .continue)
  | .op .pushFrame _ _ => (v.onStack MachineState.pushFrame).map (·, .continue)
  | .op .popFrame _ _ => (v.onStack MachineState.popFrame).map (·, .continue)
  | .op .xPush32 _ args =>
    (v.onStack fun st => st.xpush32 args.fst).map (·, .continue)
  | .op .xPush32Many _ args =>
    (v.onStack fun st => st.xpush32Many (args.fst : RegSet).bitset).map (·, .continue)
  | .op .xPush64 _ args =>
    (v.onStack fun st => st.xpush64 args.fst).map (·, .continue)
  | .op .xPush64Many _ args =>
    (v.onStack fun st => st.xpush64Many (args.fst : RegSet).bitset).map (·, .continue)
  | .op .xPop32 _ args =>
    (v.onStack fun st => st.xpop32 args.fst).map (·, .continue)
  | .op .xPop32Many _ args =>
    (v.onStack fun st => st.xpop32Many (args.fst : RegSet).bitset).map (·, .continue)
  | .op .xPop64 _ args =>
    (v.onStack fun st => st.xpop64 args.fst).map (·, .continue)
  | .op .xPop64Many _ args =>
    (v.onStack fun st => st.xpop64Many (args.fst : RegSet).bitset).map (·, .continue)
  | .op .bitcastIntFromFloat32 _ args =>
    some (v.bitcastIntFromFloat32 args.fst args.snd, .continue)
  | .op .bitcastIntFromFloat64 _ args =>
    some (v.bitcastIntFromFloat64 args.fst args.snd, .continue)
  | .op .bitcastFloatFromInt32 _ args =>
    some (v.bitcastFloatFromInt32 args.fst args.snd, .continue)
  | .op .bitcastFloatFromInt64 _ args =>
    some (v.bitcastFloatFromInt64 args.fst args.snd, .continue)
  | .op .extendedOp h _ => absurd rfl h
  | .extendedOp .trap _ => some (v, .trap)
  | .extendedOp .nop _ => some (v, .continue)
  | .extendedOp .getSp args => some (v.getSp args.fst, .continue)

/-! ### `Vm::run` -/

/-- `decode_one` over the `UnsafeBytecodeStream` at `pc`, in the bytecode `code` at address
`base`: the op and the address past it. -/
def fetch (base : ℕ) (code : List UInt8) (pc : ℤ) : Option (Op × ℤ) :=
  if pc < base then none
  else match decodeOne ⟨code.drop (pc - base).toNat, pc.toNat⟩ with
    | .ok (op, s) => some (op, s.position)
    | .error _ => none

/-- One turn of `Vm::run`'s loop: decode the op at the pc, which moves the pc past it, then run
its method. -/
def step (base : ℕ) (code : List UInt8) (v : InterpreterVisitor) :
    Option (InterpreterVisitor × Continuation) := do
  let (op, next) ← fetch base code v.pc
  visit { v with pc := next } op

/-- `Vm::run`'s loop for at most `fuel` ops: the visitor and the first continuation other than
`Continue`, or `Continue` when the fuel is spent. -/
def run (base : ℕ) (code : List UInt8) :
    ℕ → InterpreterVisitor → Option (InterpreterVisitor × Continuation)
  | 0, v => some (v, .continue)
  | fuel + 1, v => do
    let (v', c) ← step base code v
    match c with
    | .continue => run base code fuel v'
    | c => some (v', c)

/-- `ExtendedOpcode::ENCODED_SIZE_OF_TRAP`. -/
def ExtendedOpcode.ENCODED_SIZE_OF_TRAP : ℕ := 3

/-- `Vm::trap`: the pc, past the trap, backed up by `ENCODED_SIZE_OF_TRAP`. -/
def trapPc (pc : ℤ) : ℤ := pc - ExtendedOpcode.ENCODED_SIZE_OF_TRAP

/-- The op `trap`. -/
def trapOp : Op := .extendedOp .trap .nil

/-! ### The documented control flow -/

/-- Where an op sends control: to the next op, to the start of the op plus an offset, to an
address, or out of the loop. -/
inductive Flow
  | next
  | offset (o : PcRelOffset)
  | addr (a : ℤ)
  | stop
deriving DecidableEq

/-- The pc of a flow, for an op from `start` to `next`: out of the loop the pc stays past the
op. -/
def Flow.target (start next : ℤ) : Flow → ℤ
  | .next => next
  | .offset o => start + o.offset.toInt
  | .addr a => a
  | .stop => next

/-- The low half of a register, as the 32-bit comparisons read it. -/
def low32 (x : UInt64) : BitVec 32 := BitVec.ofNat 32 x.toNat

/-- The control flow of each op as `for_each_op!` documents it, from the registers before the
op: `ret` to the address in `lr` (or to the host at the `u64::MAX` that `with_stack` puts
there), `call` and `jump` to their offset, a conditional branch to its offset if its condition
holds, and `trap` out of the loop. -/
def Op.flow (v : InterpreterVisitor) : Op → Flow
  | .op .ret _ _ =>
    if v.x XReg.lr = UInt64.ofNat (2 ^ 64 - 1) then .stop else .addr (v.x XReg.lr).toNat
  | .op .call _ args => .offset args.fst
  | .op .jump _ args => .offset args.fst
  | .op .brIf _ args => if v.x args.fst ≠ 0 then .offset args.snd else .next
  | .op .brIfNot _ args => if v.x args.fst = 0 then .offset args.snd else .next
  | .op .brIfXeq32 _ args =>
    if low32 (v.x args.fst) = low32 (v.x args.snd) then .offset args.thd else .next
  | .op .brIfXneq32 _ args =>
    if low32 (v.x args.fst) ≠ low32 (v.x args.snd) then .offset args.thd else .next
  | .op .brIfXslt32 _ args =>
    if (low32 (v.x args.fst)).toInt < (low32 (v.x args.snd)).toInt then .offset args.thd
    else .next
  | .op .brIfXslteq32 _ args =>
    if (low32 (v.x args.fst)).toInt ≤ (low32 (v.x args.snd)).toInt then .offset args.thd
    else .next
  | .op .brIfXult32 _ args =>
    if (low32 (v.x args.fst)).toNat < (low32 (v.x args.snd)).toNat then .offset args.thd
    else .next
  | .op .brIfXulteq32 _ args =>
    if (low32 (v.x args.fst)).toNat ≤ (low32 (v.x args.snd)).toNat then .offset args.thd
    else .next
  | .extendedOp .trap _ => .stop
  | _ => .next

/-! ### The semantics of a program by its ops -/

/-- A program: ops laid out one after another from address `base`. -/
structure Program where
  base : ℕ
  ops : List Op

namespace Program

variable (p : Program)

/-- The bytecode of the program. -/
def code : List UInt8 := p.ops.flatMap Op.encode

/-- The address of op `i`: `base` and the sizes of the ops before it. -/
def addr (i : ℕ) : ℤ := p.base + ((p.ops.take i).flatMap Op.encode).length

/-- The index of the op that starts at `pc`, if one does. -/
def indexAt (pc : ℤ) : Option ℕ := (List.range p.ops.length).find? fun i => p.addr i = pc

/-- One op: the op that starts at the pc runs its method with the pc at the next op, and control
goes where `Op.flow` sends it. -/
def step (v : InterpreterVisitor) : Option (InterpreterVisitor × Continuation) := do
  let i ← p.indexAt v.pc
  let op ← p.ops[i]?
  let (v', c) ← visit { v with pc := p.addr (i + 1) } op
  pure ({ v' with pc := (op.flow v).target (p.addr i) (p.addr (i + 1)) }, c)

/-- At most `fuel` ops, as `run`. -/
def run : ℕ → InterpreterVisitor → Option (InterpreterVisitor × Continuation)
  | 0, v => some (v, .continue)
  | fuel + 1, v => do
    let (v', c) ← p.step v
    match c with
    | .continue => run fuel v'
    | c => some (v', c)

end Program

/-! ### Every method moves the pc as documented -/

theorem length_encode_op (o : Opcode) (h : o ≠ .extendedOp) (args : Args o.fields) :
    (Op.op o h args).encode.length = fieldsSize o.fields + 1 := by
  simp [Op.encode, encodeOp, length_argsEncode]

/-! ### The 32-bit comparisons are the documented ones -/

theorem toBitVec_getU32 (x : UInt64) : (getU32 x).toBitVec = low32 x := by
  apply BitVec.eq_of_toNat_eq
  simp [getU32, low32]

theorem getU32_eq_iff {a b : UInt64} : getU32 a = getU32 b ↔ low32 a = low32 b := by
  rw [← toBitVec_getU32, ← toBitVec_getU32, UInt32.toBitVec_inj]

theorem getU32_lt_iff {a b : UInt64} :
    getU32 a < getU32 b ↔ (low32 a).toNat < (low32 b).toNat := by
  rw [UInt32.lt_iff_toNat_lt, ← UInt32.toNat_toBitVec, ← UInt32.toNat_toBitVec, toBitVec_getU32,
    toBitVec_getU32]

theorem getU32_le_iff {a b : UInt64} :
    getU32 a ≤ getU32 b ↔ (low32 a).toNat ≤ (low32 b).toNat := by
  rw [UInt32.le_iff_toNat_le, ← UInt32.toNat_toBitVec, ← UInt32.toNat_toBitVec, toBitVec_getU32,
    toBitVec_getU32]

theorem toInt_getI32 (x : UInt64) : (getI32 x).toInt = (low32 x).toInt := by
  rw [getI32, ← Int32.toInt_toBitVec, UInt32.toBitVec_toInt32, toBitVec_getU32]

theorem getI32_lt_iff {a b : UInt64} :
    getI32 a < getI32 b ↔ (low32 a).toInt < (low32 b).toInt := by
  rw [Int32.lt_iff_toInt_lt, toInt_getI32, toInt_getI32]

theorem getI32_le_iff {a b : UInt64} :
    getI32 a ≤ getI32 b ↔ (low32 a).toInt ≤ (low32 b).toInt := by
  rw [Int32.le_iff_toInt_le, toInt_getI32, toInt_getI32]

theorem length_encode_extendedOp (o : ExtendedOpcode) (args : Args o.fields) :
    (Op.extendedOp o args).encode.length = fieldsSize o.fields + 3 := by
  simp [Op.encode, encodeExtendedOp, length_argsEncode, length_encodeInt]
  omega

open InterpreterVisitor in
/-- **Every method moves the pc as documented**: run with the pc past the op's encoding, as
`decode_one` leaves it, each method leaves the pc where `Op.flow` sends control. For the
branches this is the agreement of the sizes given to `pc_rel_jump` (5, 6 and 7) with the sizes
of the encodings; every other method leaves the pc alone.

**Proof sketch.** A case for each kind of op. The control ops move the pc as `pcRelJump_pc`,
`branchIf_pc` and `ret_pc` say, and the condition each method tests is the documented one, by
`getU32_eq_iff` and its siblings; the memory and stack ops keep the pc (`pc_of_load`,
`pc_of_store`, `pc_of_onStack`), and so do the others, which only write registers. -/
theorem visit_pc {v v' : InterpreterVisitor} {op : Op} {start : ℤ} {c : Continuation}
    (h : visit { v with pc := start + op.encode.length } op = some (v', c)) :
    v'.pc = (op.flow v).target start (start + op.encode.length) := by
  cases op with
  | op o ho args =>
    rw [length_encode_op] at h ⊢
    cases o
    case extendedOp => exact absurd rfl ho
    all_goals simp only [visit] at h
    case ret =>
      obtain ⟨rfl, -⟩ := Prod.ext_iff.mp (Option.some.inj h)
      rw [ret_pc, x_setPc]
      simp only [Op.flow]
      split_ifs <;> rfl
    case call | jump =>
      obtain ⟨rfl, -⟩ := Prod.ext_iff.mp (Option.some.inj h)
      refine (pcRelJump_pc _ _ _).trans ?_
      simp only [pc_setX, Op.flow, Flow.target]
      simp [fieldsSize, Opcode.fields, OperandTy.size]
    case brIf | brIfNot | brIfXeq32 | brIfXneq32 | brIfXslt32 | brIfXslteq32 | brIfXult32 |
        brIfXulteq32 =>
      obtain ⟨rfl, -⟩ := Prod.ext_iff.mp (Option.some.inj h)
      refine (branchIf_pc _ _ _ _).trans ?_
      -- the condition of the method is the documented one
      simp only [x_setPc, Op.flow, decide_eq_true_eq, bne_iff_ne, ne_eq, beq_iff_eq, getU32_eq_iff,
        getU32_lt_iff, getU32_le_iff, getI32_lt_iff, getI32_le_iff]
      split_ifs <;> simp [Flow.target, fieldsSize, Opcode.fields, OperandTy.size]
    case load32U | load32S | load64 | load32UOffset8 | load32SOffset8 | load64Offset8 |
        load32UOffset64 | load32SOffset64 | load64Offset64 =>
      obtain ⟨w, hw, hpair⟩ := Option.map_eq_some_iff.mp h
      obtain ⟨rfl, -⟩ := Prod.mk.inj hpair
      exact pc_of_load _ hw
    case store32 | store64 | store32SOffset8 | store64Offset8 | store32SOffset64 |
        store64Offset64 =>
      obtain ⟨w, hw, hpair⟩ := Option.map_eq_some_iff.mp h
      obtain ⟨rfl, -⟩ := Prod.mk.inj hpair
      exact pc_of_store _ hw
    case pushFrame | popFrame | xPush32 | xPush32Many | xPush64 | xPush64Many | xPop32 |
        xPop32Many | xPop64 | xPop64Many =>
      obtain ⟨w, hw, hpair⟩ := Option.map_eq_some_iff.mp h
      obtain ⟨rfl, -⟩ := Prod.mk.inj hpair
      exact pc_of_onStack _ hw
    -- the moves, constants, arithmetic and bit casts only write registers
    all_goals
      obtain ⟨rfl, -⟩ := Prod.mk.inj (Option.some.inj h)
      rfl
  | extendedOp o args =>
    rw [length_encode_extendedOp] at h ⊢
    cases o <;> obtain ⟨rfl, -⟩ := Prod.mk.inj (Option.some.inj h) <;> rfl

/-! ### Decoding a program at the address of an op -/

namespace Program

variable (p : Program)

theorem addr_succ {i : ℕ} (hi : i < p.ops.length) :
    p.addr (i + 1) = p.addr i + p.ops[i].encode.length := by
  rw [addr, addr, List.take_add_one, List.getElem?_eq_getElem hi, Option.toList_some,
    List.flatMap_append, List.length_append, List.flatMap_cons, List.flatMap_nil,
    List.append_nil]
  push_cast
  omega

theorem base_le_addr (i : ℕ) : (p.base : ℤ) ≤ p.addr i := by
  unfold addr
  omega

theorem code_drop (i : ℕ) :
    p.code.drop (p.addr i - p.base).toNat = (p.ops.drop i).flatMap Op.encode := by
  have hlen : (p.addr i - p.base).toNat = ((p.ops.take i).flatMap Op.encode).length := by
    unfold addr
    omega
  have hcode : p.code = (p.ops.take i).flatMap Op.encode ++ (p.ops.drop i).flatMap Op.encode := by
    rw [code, ← List.flatMap_append, List.take_append_drop]
  rw [hlen, hcode, List.drop_left]

theorem indexAt_eq_some {pc : ℤ} {i : ℕ} (h : p.indexAt pc = some i) :
    i < p.ops.length ∧ p.addr i = pc := by
  have hmem := List.mem_of_find?_eq_some h
  have hpc := List.find?_some h
  simp only [List.mem_range, decide_eq_true_eq] at hmem hpc
  exact ⟨hmem, hpc⟩

end Program

/-- `decode_one` at the address of an op of a program reads that op and moves to the next. -/
theorem fetch_addr (p : Program) {i : ℕ} (hi : i < p.ops.length) :
    fetch p.base p.code (p.addr i) = some (p.ops[i], p.addr (i + 1)) := by
  have hdrop : (p.ops.drop i).flatMap Op.encode =
      p.ops[i].encode ++ (p.ops.drop (i + 1)).flatMap Op.encode := by
    rw [List.drop_eq_getElem_cons hi, List.flatMap_cons]
  have hpos : ((p.addr i).toNat : ℤ) = p.addr i :=
    Int.toNat_of_nonneg (le_trans (Int.natCast_nonneg _) (p.base_le_addr i))
  unfold fetch
  rw [if_neg (not_lt.mpr (p.base_le_addr i)), p.code_drop, hdrop,
    decodeOne_exact.complete _ _ _ _ (Op.encodes_encode _)]
  simp [p.addr_succ hi, hpos]


/-- One op of the semantics by ops is one turn of the interpreter's loop over the bytecode. -/
theorem step_of_programStep {p : Program} {v : InterpreterVisitor}
    {r : InterpreterVisitor × Continuation} (h : p.step v = some r) :
    step p.base p.code v = some r := by
  obtain ⟨i, hi, h⟩ := Option.bind_eq_some_iff.mp h
  obtain ⟨hlt, hpc⟩ := p.indexAt_eq_some hi
  obtain ⟨op, hop, h⟩ := Option.bind_eq_some_iff.mp h
  rw [List.getElem?_eq_getElem hlt, Option.some.injEq] at hop
  subst hop
  obtain ⟨⟨v', c⟩, hv, h⟩ := Option.bind_eq_some_iff.mp h
  have hv' : visit { v with pc := p.addr i + p.ops[i].encode.length } p.ops[i] = some (v', c) := by
    rw [← p.addr_succ hlt]
    exact hv
  have htarget := visit_pc hv'
  rw [← p.addr_succ hlt] at htarget
  simp only [Option.pure_def, Option.some.injEq] at h
  subst h
  rw [step, ← hpc, fetch_addr p hlt]
  exact Option.bind_eq_some_iff.mpr ⟨_, rfl, hv.trans (by rw [← htarget])⟩


/-- **The interpreter runs a program as its ops do**: every run of the semantics by ops, in
which each op runs its method and control goes where the op list documents it, is a run of
`Vm::run`'s loop over the program's bytecode, to the same visitor and continuation.

**Proof sketch.** Induction on the fuel. At the address of an op `decode_one` reads that op
and moves to the next (`fetch_addr`); the method then leaves the pc where the semantics by ops
puts it (`visit_pc`). -/
theorem run_of_programRun (p : Program) :
    ∀ (fuel : ℕ) (v : InterpreterVisitor) (r : InterpreterVisitor × Continuation),
      p.run fuel v = some r → run p.base p.code fuel v = some r
  | 0, _, _, h => h
  | fuel + 1, v, r, h => by
    -- one op of each, then the rest of the run from the same visitor
    obtain ⟨⟨v', c⟩, hs, h⟩ := Option.bind_eq_some_iff.mp h
    refine Option.bind_eq_some_iff.mpr ⟨(v', c), step_of_programStep hs, ?_⟩
    cases c
    case «continue» => exact run_of_programRun p fuel v' r h
    all_goals exact h

/-- A program that jumps from address `0` over a `nop` to a `trap` at address `8`, run for two
ops from the start: the jump's offset counts from the start of the `jump`, five bytes before the
pc that `decode_one` leaves. -/
theorem run_of_programRun_jump :
    let st : MachineState := ⟨fun _ => 0, 0, [], by decide⟩
    let v : InterpreterVisitor := ⟨st, fun _ => 0, fun _ => 0, 0⟩
    let p : Program :=
      ⟨0, [.op .jump (by decide) (.cons ⟨8⟩ .nil), .extendedOp .nop .nil, .extendedOp .trap .nil]⟩
    p.run 2 v = some ({ v with pc := 11 }, .trap) ∧
      run p.base p.code 2 v = some ({ v with pc := 11 }, .trap) :=
  ⟨rfl, run_of_programRun _ 2 _ _ rfl⟩

/-! ### Where a trap is reported -/

open InterpreterVisitor in
/-- Only `trap` stops the loop with `Trap`, and it leaves the visitor as it is: the control
methods continue or go back to the host (`ret_continuation`, `pcRelJump_continuation`,
`branchIf_continuation`), and every other method continues. -/
theorem visit_eq_trap {v v' : InterpreterVisitor} {op : Op}
    (h : visit v op = some (v', .trap)) : op = trapOp ∧ v' = v := by
  cases op with
  | op o ho args =>
    cases o
    case extendedOp => exact absurd rfl ho
    all_goals simp only [visit] at h
    case ret =>
      have hc := (ret_continuation _).symm.trans (congrArg Prod.snd (Option.some.inj h))
      split_ifs at hc
    case call | jump =>
      have hc := (pcRelJump_continuation _ _ _).symm.trans (congrArg Prod.snd (Option.some.inj h))
      cases hc
    case brIf | brIfNot | brIfXeq32 | brIfXneq32 | brIfXslt32 | brIfXslteq32 | brIfXult32 |
        brIfXulteq32 =>
      have hc := (branchIf_continuation _ _ _ _).symm.trans
        (congrArg Prod.snd (Option.some.inj h))
      cases hc
    -- every other method continues
    all_goals simp [Option.map_eq_some_iff] at h
  | extendedOp o args =>
    cases o <;> simp only [visit, Option.some.injEq, Prod.mk.injEq, reduceCtorEq, and_false] at h
    cases args
    exact ⟨rfl, h.1.symm⟩

/-- The bytes of `trap` are three: `ENCODED_SIZE_OF_TRAP`. -/
theorem length_of_encodes_trap {b : List UInt8} (h : Op.Encodes b trapOp) :
    b.length = ExtendedOpcode.ENCODED_SIZE_OF_TRAP := by
  obtain ⟨b', rfl, hb'⟩ := h
  have : b' = [] := hb'
  subst this
  simp [length_encodeInt, ExtendedOpcode.ENCODED_SIZE_OF_TRAP]

theorem fetch_trap {base : ℕ} {code : List UInt8} {pc next : ℤ}
    (h : fetch base code pc = some (trapOp, next)) : trapPc next = pc := by
  unfold fetch at h
  split_ifs at h with hpc
  split at h
  · next op s hdec =>
    obtain ⟨rfl, rfl⟩ := Prod.mk.inj (Option.some.inj h)
    obtain ⟨b, -, hpos, hb⟩ := decodeOne_exact.sound _ _ _ hdec
    rw [hpos, length_of_encodes_trap hb, trapPc]
    push_cast
    simp only at hpos
    omega
  · exact absurd h nofun

theorem step_trap {base : ℕ} {code : List UInt8} {v v' : InterpreterVisitor}
    (h : step base code v = some (v', .trap)) :
    fetch base code (trapPc v'.pc) = some (trapOp, v'.pc) := by
  obtain ⟨⟨op, next⟩, hf, hv⟩ := Option.bind_eq_some_iff.mp h
  obtain ⟨rfl, rfl⟩ := visit_eq_trap hv
  show fetch base code (trapPc next) = some (trapOp, next)
  rw [fetch_trap hf]
  exact hf

/-- **`Vm::trap` reports the address of the trap.** Whenever `Vm::run`'s loop stops with `Trap`,
over any bytecode, the pc backed up by `ENCODED_SIZE_OF_TRAP` is an address at which
`decode_one` reads `trap` and moves to the pc the loop stopped at. -/
theorem run_trap {base : ℕ} {code : List UInt8} :
    ∀ (fuel : ℕ) (v v' : InterpreterVisitor), run base code fuel v = some (v', .trap) →
      fetch base code (trapPc v'.pc) = some (trapOp, v'.pc)
  | 0, _, _, h => absurd (Prod.mk.inj (Option.some.inj h)).2 nofun
  | fuel + 1, v, v', h => by
    -- the turn that stopped the loop, or a turn that went on and the rest of the run
    obtain ⟨⟨w, c⟩, hs, h⟩ := Option.bind_eq_some_iff.mp h
    cases c
    case «continue» => exact run_trap fuel w v' h
    case trap =>
      obtain ⟨rfl, -⟩ := Prod.mk.inj (Option.some.inj h)
      exact step_trap hs
    all_goals exact absurd (Prod.mk.inj (Option.some.inj h)).2 nofun

/-- The bytecode of one `trap`, run from its start. -/
theorem run_trap_single :
    let st : MachineState := ⟨fun _ => 0, 0, [], by decide⟩
    let v : InterpreterVisitor := ⟨st, fun _ => 0, fun _ => 0, 0⟩
    run 0 trapOp.encode 1 v = some ({ v with pc := 3 }, .trap) ∧
      fetch 0 trapOp.encode (trapPc 3) = some (trapOp, 3) :=
  ⟨rfl, run_trap 1 ⟨⟨fun _ => 0, 0, [], by decide⟩, fun _ => 0, fun _ => 0, 0⟩
    ⟨⟨fun _ => 0, 0, [], by decide⟩, fun _ => 0, fun _ => 0, 3⟩ rfl⟩

end Cranelift.Pulley.Bytecode
