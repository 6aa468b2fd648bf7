import Mathlib.Algebra.Group.Nat.Defs
import Cranelift.Bitset.Scalar

/-!
# The Pulley interpreter's stack

A model of the stack of `pulley/src/interp.rs`: `MachineState::with_stack`, `push` and `pop`,
and the instructions that move data between the `x` registers and the stack (`xpush32`,
`xpush64`, their `_many` forms, `xpop32`, `xpop64`, theirs, `push_frame` and `pop_frame`),
with the register instructions that compute addresses (`xmov`, `xconst8`, `xconst64`, `xadd64`,
`get_sp`).

The stack is the `Vec<u8>` given to `with_stack`, at address `base`; the address space has
`2 ^ 64` bytes and the vector lies inside it. A read or write of a byte outside the vector is
undefined behaviour in the source (an unchecked `read_unaligned` or `write_unaligned`), and is a
failure (`none`) here. An `x` register is its value as a `u64`; the host is little-endian, so a
`u32` is the low half of the register and `set_u32` leaves the high half alone. The `f` and `v`
registers are not modelled: no instruction here reads them.

`push` writes at `sp` and then raises `sp`; `pop` reads at `sp` and then lowers it, as the
instruction list documents (`*sp = src; sp += 8` and `*dst = *sp; sp -= 8`). So `pop` reads the
slot above the value pushed last, and the first push after `with_stack`, where `sp` is one past
the end of the vector, writes outside it.

## Main definitions

* `Cranelift.Pulley.MachineState` with `withStack`, `push`, `pop` and the instructions.
* `Cranelift.Pulley.Op` and `MachineState.step`, `MachineState.run`.

## Main results

* `Cranelift.Pulley.MachineState.withStack_push_writes_past_end` — the first push after
  `with_stack` writes outside the stack, for every stack.
* `Cranelift.Pulley.MachineState.xpush64_xpop64_reads_above` — `xpop64` after `xpush64` reads the
  eight bytes above the pushed value.
* `Cranelift.Pulley.MachineState.pushFrame_popFrame_swaps` — `pop_frame` after `push_frame` loads `lr`
  from the saved `fp`, and `fp` from the slot above both.
-/

namespace Cranelift.Pulley

open Bitset (ScalarBitSet)

/-! ### Byte blocks -/

section Bytes

variable {α : Type*}

/-- The list `l` with the block `bs` written at offset `off`. -/
def writeAt (l : List α) (off : ℕ) (bs : List α) : List α :=
  l.take off ++ bs ++ l.drop (off + bs.length)

lemma length_writeAt {l bs : List α} {off : ℕ} (h : off + bs.length ≤ l.length) :
    (writeAt l off bs).length = l.length := by
  simp only [writeAt, List.length_append, List.length_take, List.length_drop]
  omega

/-- A block reads back where it was written. -/
lemma take_drop_writeAt_self {l bs : List α} {off : ℕ} (h : off + bs.length ≤ l.length) :
    ((writeAt l off bs).drop off).take bs.length = bs := by
  have hoff : (l.take off).length = off := by
    rw [List.length_take]
    omega
  rw [writeAt, List.append_assoc, List.drop_left' hoff, List.take_left' rfl]

/-- A block read after the written one is unchanged. -/
lemma take_drop_writeAt_of_le {l bs : List α} {off a : ℕ} (h : off + bs.length ≤ l.length)
    (ha : off + bs.length ≤ a) (n : ℕ) :
    ((writeAt l off bs).drop a).take n = (l.drop a).take n := by
  have hpre : (l.take off ++ bs).length = off + bs.length := by
    rw [List.length_append, List.length_take]
    omega
  rw [writeAt, List.drop_append, List.drop_eq_nil_of_le (by omega), List.nil_append, hpre,
    List.drop_drop]
  congr 2
  omega

/-- The little-endian bytes of the low `n` bytes of `v`. -/
def toBytes : ℕ → ℕ → List UInt8
  | 0, _ => []
  | n + 1, v => UInt8.ofNat v :: toBytes n (v / 256)

/-- The value of little-endian bytes. -/
def ofBytes : List UInt8 → ℕ
  | [] => 0
  | b :: bs => b.toNat + 256 * ofBytes bs

@[simp] lemma length_toBytes (n v : ℕ) : (toBytes n v).length = n := by
  induction n generalizing v with
  | zero => rfl
  | succ n ih => simp [toBytes, ih]

lemma ofBytes_toBytes (n v : ℕ) : ofBytes (toBytes n v) = v % 256 ^ n := by
  induction n generalizing v with
  | zero => simp [toBytes, ofBytes, Nat.mod_one]
  | succ n ih =>
    have hbyte : (UInt8.ofNat v).toNat = v % 256 := by simp [UInt8.toNat_ofNat']
    rw [toBytes, ofBytes, ih, hbyte, pow_succ', Nat.mod_mul]

end Bytes

/-! ### Registers and the machine state -/

/-- `XReg`: an `x` register, by its index: `x0` to `x26`, then the special `sp`, `lr`, `fp`,
`spilltmp0` and `spilltmp1`. -/
abbrev XReg := Fin 32

/-- The stack pointer `sp`. -/
def XReg.sp : XReg := 27

/-- The link register `lr`. -/
def XReg.lr : XReg := 28

/-- The frame pointer `fp`. -/
def XReg.fp : XReg := 29

@[simp] lemma XReg.sp_ne_lr : XReg.sp ≠ XReg.lr := by decide
@[simp] lemma XReg.sp_ne_fp : XReg.sp ≠ XReg.fp := by decide
@[simp] lemma XReg.fp_ne_lr : XReg.fp ≠ XReg.lr := by decide

/-- `XReg::new`: the register with an index, if any. -/
def XReg.new (i : ℕ) : Option XReg := if h : i < 32 then some ⟨i, h⟩ else none

/-- Iterating a `RegSet<XReg>`, a `ScalarBitSet<u32>` of indices: the registers in increasing
order, as the bitset's iterator returns them, through `XReg::new`. -/
def regSetRegs (regs : ScalarBitSet 32) : List XReg := regs.elems.filterMap XReg.new

/-- `XRegVal::get_u32`: the low half. -/
def getU32 (x : UInt64) : UInt32 := x.toUInt32

/-- `XRegVal::set_u32`: the low half, leaving the high half. -/
def setU32 (x : UInt64) (v : UInt32) : UInt64 := (x &&& 0xFFFFFFFF00000000) ||| v.toUInt64

/-- `MachineState`: the `x` registers and the stack, a vector at address `base` that lies in the
address space. -/
structure MachineState where
  xRegs : XReg → UInt64
  base : ℕ
  stack : List UInt8
  fits : base + stack.length < 2 ^ 64

namespace MachineState

/-- Write register `r`. -/
def setReg (st : MachineState) (r : XReg) (v : UInt64) : MachineState :=
  { st with xRegs := Function.update st.xRegs r v }

/-- The stack pointer. -/
def sp (st : MachineState) : UInt64 := st.xRegs XReg.sp

/-- `with_stack`: asserts the stack is not empty; `sp` is one past its end, `fp` and `lr` are
`-1`, and the other registers `0`. -/
def withStack (base : ℕ) (stack : List UInt8) (fits : base + stack.length < 2 ^ 64) :
    Option MachineState :=
  if ¬0 < stack.length then none
  else
    let st : MachineState := ⟨fun _ => 0, base, stack, fits⟩
    some (((st.setReg XReg.sp (UInt64.ofNat (base + stack.length))).setReg XReg.fp
      (UInt64.ofInt (-1))).setReg XReg.lr (UInt64.ofInt (-1)))

/-- Whether the `n` bytes at `addr` lie inside the stack. -/
def InStack (st : MachineState) (addr n : ℕ) : Prop :=
  st.base ≤ addr ∧ addr + n ≤ st.base + st.stack.length

instance (st : MachineState) (addr n : ℕ) : Decidable (st.InStack addr n) :=
  inferInstanceAs (Decidable (_ ∧ _))

/-- `read_unaligned` of `n` bytes at `addr`, defined inside the stack only. -/
def readBytes (st : MachineState) (addr n : ℕ) : Option (List UInt8) :=
  if st.InStack addr n then some ((st.stack.drop (addr - st.base)).take n) else none

/-- `write_unaligned` of the bytes `bs` at `addr`, defined inside the stack only. -/
def writeBytes (st : MachineState) (addr : ℕ) (bs : List UInt8) : Option MachineState :=
  if h : st.InStack addr bs.length then
    some ⟨st.xRegs, st.base, writeAt st.stack (addr - st.base) bs, by
      rw [length_writeAt (by unfold InStack at h; omega)]
      exact st.fits⟩
  else none

/-- `push`: `*sp = val; sp += size_of::<T>()`, for a value of `n` bytes. -/
def push (st : MachineState) (n val : ℕ) : Option MachineState := do
  let sp := st.sp
  let st ← st.writeBytes sp.toNat (toBytes n val)
  return st.setReg XReg.sp (sp + UInt64.ofNat n)

/-- `pop`: `ret = *sp; sp -= size_of::<T>()`, for a value of `n` bytes. -/
def pop (st : MachineState) (n : ℕ) : Option (ℕ × MachineState) := do
  let sp := st.sp
  let bytes ← st.readBytes sp.toNat n
  return (ofBytes bytes, st.setReg XReg.sp (sp - UInt64.ofNat n))

/-! ### The instructions -/

/-- `xpush32`: push the low half of `src`. -/
def xpush32 (st : MachineState) (src : XReg) : Option MachineState :=
  st.push 4 (getU32 (st.xRegs src)).toNat

/-- `xpush64`. -/
def xpush64 (st : MachineState) (src : XReg) : Option MachineState :=
  st.push 8 (st.xRegs src).toNat

/-- `xpop32`: pop into the low half of `dst`. -/
def xpop32 (st : MachineState) (dst : XReg) : Option MachineState := do
  let (val, st) ← st.pop 4
  return st.setReg dst (setU32 (st.xRegs dst) (UInt32.ofNat val))

/-- `xpop64`. -/
def xpop64 (st : MachineState) (dst : XReg) : Option MachineState := do
  let (val, st) ← st.pop 8
  return st.setReg dst (UInt64.ofNat val)

/-- `xpush32_many`: `for src in srcs { xpush32 src }`. -/
def xpush32Many (st : MachineState) (srcs : ScalarBitSet 32) : Option MachineState :=
  (regSetRegs srcs).foldlM xpush32 st

/-- `xpush64_many`: `for src in srcs { xpush64 src }`. -/
def xpush64Many (st : MachineState) (srcs : ScalarBitSet 32) : Option MachineState :=
  (regSetRegs srcs).foldlM xpush64 st

/-- `xpop32_many`: `for dst in dsts.rev() { xpop32 dst }`. -/
def xpop32Many (st : MachineState) (dsts : ScalarBitSet 32) : Option MachineState :=
  (regSetRegs dsts).reverse.foldlM xpop32 st

/-- `xpop64_many`: `for dst in dsts.rev() { xpop64 dst }`. -/
def xpop64Many (st : MachineState) (dsts : ScalarBitSet 32) : Option MachineState :=
  (regSetRegs dsts).reverse.foldlM xpop64 st

/-- `push_frame`: `push lr; push fp; fp = sp`. -/
def pushFrame (st : MachineState) : Option MachineState := do
  let st ← st.push 8 (st.xRegs XReg.lr).toNat
  let st ← st.push 8 (st.xRegs XReg.fp).toNat
  return st.setReg XReg.fp st.sp

/-- `pop_frame`: `sp = fp; pop fp; pop lr`. -/
def popFrame (st : MachineState) : Option MachineState := do
  let st := st.setReg XReg.sp (st.xRegs XReg.fp)
  let (fp, st) ← st.pop 8
  let (lr, st) ← st.pop 8
  return (st.setReg XReg.fp (UInt64.ofNat fp)).setReg XReg.lr (UInt64.ofNat lr)

end MachineState

/-- The instructions of the model. -/
inductive Op where
  | xmov (dst src : XReg)
  | xconst8 (dst : XReg) (imm : Int8)
  | xconst64 (dst : XReg) (imm : Int64)
  | xadd64 (dst src1 src2 : XReg)
  | getSp (dst : XReg)
  | pushFrame
  | popFrame
  | xpush32 (src : XReg)
  | xpush32Many (srcs : ScalarBitSet 32)
  | xpush64 (src : XReg)
  | xpush64Many (srcs : ScalarBitSet 32)
  | xpop32 (dst : XReg)
  | xpop32Many (dsts : ScalarBitSet 32)
  | xpop64 (dst : XReg)
  | xpop64Many (dsts : ScalarBitSet 32)

namespace MachineState

/-- One instruction of the interpreter's `OpVisitor`. -/
def step (st : MachineState) : Op → Option MachineState
  | .xmov dst src => some (st.setReg dst (st.xRegs src))
  | .xconst8 dst imm => some (st.setReg dst (UInt64.ofInt imm.toInt))
  | .xconst64 dst imm => some (st.setReg dst (UInt64.ofInt imm.toInt))
  | .xadd64 dst src1 src2 => some (st.setReg dst (st.xRegs src1 + st.xRegs src2))
  | .getSp dst => some (st.setReg dst st.sp)
  | .pushFrame => st.pushFrame
  | .popFrame => st.popFrame
  | .xpush32 src => st.xpush32 src
  | .xpush32Many srcs => st.xpush32Many srcs
  | .xpush64 src => st.xpush64 src
  | .xpush64Many srcs => st.xpush64Many srcs
  | .xpop32 dst => st.xpop32 dst
  | .xpop32Many dsts => st.xpop32Many dsts
  | .xpop64 dst => st.xpop64 dst
  | .xpop64Many dsts => st.xpop64Many dsts

/-- Instructions one after another. -/
def run (st : MachineState) (ops : List Op) : Option MachineState := ops.foldlM step st

end MachineState

/-! ### What `push` and `pop` do -/

lemma toNat_add_ofNat {a : UInt64} {n : ℕ} (h : a.toNat + n < 2 ^ 64) :
    (a + UInt64.ofNat n).toNat = a.toNat + n := by
  rw [UInt64.toNat_add, UInt64.toNat_ofNat']
  omega

lemma toNat_sub_ofNat {a : UInt64} {n : ℕ} (h : n ≤ a.toNat) :
    (a - UInt64.ofNat n).toNat = a.toNat - n := by
  have hn : (UInt64.ofNat n).toNat = n := by
    rw [UInt64.toNat_ofNat']
    exact Nat.mod_eq_of_lt (Nat.lt_of_le_of_lt h (UInt64.toNat_lt a))
  have hle : UInt64.ofNat n ≤ a := UInt64.le_iff_toNat_le.mpr (by rw [hn]; exact h)
  rw [UInt64.toNat_sub_of_le _ _ hle, hn]

/-- Eight bytes hold a 64-bit value. -/
lemma ofNat_ofBytes_toBytes (x : UInt64) : UInt64.ofNat (ofBytes (toBytes 8 x.toNat)) = x := by
  have hx : x.toNat < 256 ^ 8 := UInt64.toNat_lt x
  rw [ofBytes_toBytes, Nat.mod_eq_of_lt hx, UInt64.ofNat_toNat]

namespace MachineState

@[simp] lemma setReg_self (st : MachineState) (r : XReg) (v : UInt64) :
    (st.setReg r v).xRegs r = v := by
  simp [setReg]

lemma setReg_of_ne (st : MachineState) {r r' : XReg} (h : r' ≠ r) (v : UInt64) :
    (st.setReg r v).xRegs r' = st.xRegs r' := by
  simp [setReg, Function.update_of_ne h]

@[simp] lemma sp_setReg_sp (st : MachineState) (v : UInt64) : (st.setReg XReg.sp v).sp = v :=
  setReg_self _ _ _

lemma sp_setReg_of_ne (st : MachineState) {r : XReg} (h : XReg.sp ≠ r) (v : UInt64) :
    (st.setReg r v).sp = st.sp :=
  setReg_of_ne _ h _

@[simp] lemma readBytes_setReg (st : MachineState) (r : XReg) (v : UInt64) (addr n : ℕ) :
    (st.setReg r v).readBytes addr n = st.readBytes addr n := rfl

lemma readBytes_of_inStack {st : MachineState} {addr n : ℕ} (h : st.InStack addr n) :
    st.readBytes addr n = some ((st.stack.drop (addr - st.base)).take n) := if_pos h

lemma readBytes_of_not_inStack {st : MachineState} {addr n : ℕ} (h : ¬st.InStack addr n) :
    st.readBytes addr n = none := if_neg h

/-- **A write inside the stack** reads back, and leaves the registers and the bytes after it. -/
lemma writeBytes_spec {st : MachineState} {addr : ℕ} {bs : List UInt8}
    (h : st.InStack addr bs.length) :
    ∃ st', st.writeBytes addr bs = some st' ∧ st'.xRegs = st.xRegs ∧
      st'.readBytes addr bs.length = some bs ∧
      ∀ a n, addr + bs.length ≤ a → st'.readBytes a n = st.readBytes a n := by
  have hlen : addr - st.base + bs.length ≤ st.stack.length := by
    unfold InStack at h
    omega
  -- the written stack has the old length, so it holds the same addresses
  have hin : ∀ a n, (⟨st.xRegs, st.base, writeAt st.stack (addr - st.base) bs,
      (length_writeAt hlen).symm ▸ st.fits⟩ : MachineState).InStack a n ↔ st.InStack a n := by
    intro a n
    simp only [InStack, length_writeAt hlen]
  refine ⟨_, dif_pos h, rfl, ?_, fun a n ha => ?_⟩
  · rw [readBytes_of_inStack ((hin _ _).mpr h)]
    exact congrArg some (take_drop_writeAt_self hlen)
  · by_cases ha' : st.InStack a n
    · have hoff : addr - st.base + bs.length ≤ a - st.base := by
        unfold InStack at h
        omega
      rw [readBytes_of_inStack ((hin _ _).mpr ha'), readBytes_of_inStack ha']
      exact congrArg some (take_drop_writeAt_of_le hlen hoff n)
    · rw [readBytes_of_not_inStack (mt (hin _ _).mp ha'), readBytes_of_not_inStack ha']

/-- **`push` writes the value at `sp` and raises `sp` past it**: it fails exactly when the value
does not fit in the stack at `sp`. -/
lemma push_spec {st st' : MachineState} {n val : ℕ} (h : st.push n val = some st') :
    st.InStack st.sp.toNat n ∧ st'.sp.toNat = st.sp.toNat + n ∧
      st'.readBytes st.sp.toNat n = some (toBytes n val) ∧
      (∀ r, r ≠ XReg.sp → st'.xRegs r = st.xRegs r) ∧
      ∀ a m, st.sp.toNat + n ≤ a → st'.readBytes a m = st.readBytes a m := by
  by_cases hin : st.InStack st.sp.toNat n
  · have hin' : st.InStack st.sp.toNat (toBytes n val).length := by rwa [length_toBytes]
    obtain ⟨st₁, hw, hregs, hread, hframe⟩ := writeBytes_spec hin'
    simp only [push, hw, Option.bind_eq_bind, Option.bind_some, Option.pure_def,
      Option.some.injEq] at h
    subst h
    have hfit : st.sp.toNat + n < 2 ^ 64 := Nat.lt_of_le_of_lt hin.2 st.fits
    refine ⟨hin, ?_, by simpa using hread, fun r hr => ?_, fun a m ha => ?_⟩
    · simp only [sp, setReg_self]
      exact toNat_add_ofNat hfit
    · rw [setReg_of_ne _ hr, hregs]
    · rw [readBytes_setReg, hframe a m (by simpa using ha)]
  · have hw : st.writeBytes st.sp.toNat (toBytes n val) = none := by
      apply dif_neg
      rwa [length_toBytes]
    simp [push, hw] at h

/-- `pop` reads the value at `sp` and lowers `sp`. -/
lemma pop_spec {st st' : MachineState} {n val : ℕ} (h : st.pop n = some (val, st')) :
    ∃ bytes, st.readBytes st.sp.toNat n = some bytes ∧ val = ofBytes bytes ∧
      st' = st.setReg XReg.sp (st.sp - UInt64.ofNat n) := by
  simp only [pop, Option.bind_eq_bind, Option.bind_eq_some_iff, Option.pure_def,
    Option.some.injEq, Prod.mk.injEq] at h
  obtain ⟨bytes, hread, rfl, rfl⟩ := h
  exact ⟨bytes, hread, rfl, rfl⟩

/-- A push of a non-empty value from `sp` at the end of the stack writes past it. -/
lemma push_eq_none_of_sp_end {st : MachineState} {n : ℕ}
    (hsp : st.sp.toNat = st.base + st.stack.length) (hn : 0 < n) (val : ℕ) :
    st.push n val = none := by
  rw [Option.eq_none_iff_forall_ne_some]
  intro st' h
  have hin := (push_spec h).1.2
  omega

lemma xpop64_spec {st st' : MachineState} {dst : XReg} (h : st.xpop64 dst = some st') :
    ∃ val st₁, st.pop 8 = some (val, st₁) ∧ st' = st₁.setReg dst (UInt64.ofNat val) := by
  unfold xpop64 at h
  cases hp : st.pop 8 with
  | none => simp [hp] at h
  | some p =>
    obtain ⟨val, st₁⟩ := p
    simp only [hp, Option.bind_eq_bind, Option.bind_some, Option.pure_def,
      Option.some.injEq] at h
    exact ⟨val, st₁, rfl, h.symm⟩

/-- `with_stack` points `sp` one past the end of the stack. -/
lemma withStack_spec {base : ℕ} {stack : List UInt8} {fits : base + stack.length < 2 ^ 64}
    {st : MachineState} (h : withStack base stack fits = some st) :
    st.base = base ∧ st.stack = stack ∧ st.sp.toNat = base + stack.length := by
  unfold withStack at h
  split at h
  · contradiction
  · simp only [Option.some.injEq] at h
    subst h
    refine ⟨rfl, rfl, ?_⟩
    have hsp : (UInt64.ofNat (base + stack.length)).toNat = base + stack.length := by
      rw [UInt64.toNat_ofNat']
      exact Nat.mod_eq_of_lt fits
    simp only [sp, setReg_of_ne _ (show XReg.sp ≠ XReg.lr by decide),
      setReg_of_ne _ (show XReg.sp ≠ XReg.fp by decide), setReg_self, hsp]

/-- **The first push after `with_stack` writes outside the stack.** `with_stack` leaves `sp` one
past the end of the stack and `push` writes at `sp` before it moves it, so `xpush32`, `xpush64`
and `push_frame` write past the stack's end, for every stack. -/
theorem withStack_push_writes_past_end {base : ℕ} {stack : List UInt8}
    {fits : base + stack.length < 2 ^ 64} {st : MachineState}
    (h : withStack base stack fits = some st) (src : XReg) :
    st.sp.toNat = base + stack.length ∧ ¬st.InStack st.sp.toNat 1 ∧
      st.xpush32 src = none ∧ st.xpush64 src = none ∧ st.pushFrame = none := by
  obtain ⟨hbase, hstack, hsp⟩ := withStack_spec h
  have hend : st.sp.toNat = st.base + st.stack.length := by rw [hsp, hbase, hstack]
  refine ⟨hsp, fun hin => ?_, push_eq_none_of_sp_end hend (by decide) _,
    push_eq_none_of_sp_end hend (by decide) _, ?_⟩
  · have := hin.2
    omega
  · simp [pushFrame, push_eq_none_of_sp_end hend (show 0 < 8 by decide)]

theorem withStack_push_writes_past_end_sixteen :
    ∃ st, withStack 4096 (List.replicate 16 0) (by decide) = some st ∧
      st.sp.toNat = 4096 + 16 ∧ ¬st.InStack st.sp.toNat 1 ∧
      st.xpush32 0 = none ∧ st.xpush64 0 = none ∧ st.pushFrame = none := by
  obtain ⟨st, hst⟩ : ∃ st, withStack 4096 (List.replicate 16 0) (by decide) = some st :=
    ⟨_, rfl⟩
  exact ⟨st, hst, withStack_push_writes_past_end hst 0⟩

/-- **`xpop64` reads the slot above the one `xpush64` wrote.** `push` writes at `sp` and raises
`sp` past the value, and `pop` reads at the raised `sp` before lowering it; so `sp` comes back, but
`y` receives the 8 bytes above the pushed value, not the value. -/
theorem xpush64_xpop64_reads_above {st st₁ st₂ : MachineState} {x y : XReg}
    (hy : y ≠ XReg.sp) (h₁ : st.xpush64 x = some st₁) (h₂ : st₁.xpop64 y = some st₂) :
    st₂.sp = st.sp ∧ st₁.readBytes st.sp.toNat 8 = some (toBytes 8 (st.xRegs x).toNat) ∧
      ∃ bytes, st.readBytes (st.sp.toNat + 8) 8 = some bytes ∧
        st₂.xRegs y = UInt64.ofNat (ofBytes bytes) := by
  obtain ⟨-, hsp₁, hread₁, -, hframe₁⟩ := push_spec h₁
  obtain ⟨val, st₃, hpop, rfl⟩ := xpop64_spec h₂
  obtain ⟨bytes, hbytes, rfl, rfl⟩ := pop_spec hpop
  have hsp₂ : (st₁.sp - UInt64.ofNat 8).toNat = st.sp.toNat := by
    rw [toNat_sub_ofNat (by omega), hsp₁, Nat.add_sub_cancel]
  refine ⟨?_, hread₁, bytes, ?_, setReg_self _ _ _⟩
  · rw [sp, setReg_of_ne _ hy.symm, setReg_self]
    exact UInt64.toNat_inj.mp hsp₂
  · rw [← hframe₁ _ 8 le_rfl, ← hsp₁, hbytes]

/-- Moving `sp` 16 bytes into a fresh 16-byte stack, then pushing `x3` and popping into `x4`, gives
`x4` the zero bytes above the value and not the value. -/
example : ∃ st st', withStack 4096 (List.replicate 16 0) (by decide) = some st ∧
    st.run [.getSp 1, .xconst8 2 (-16), .xadd64 1 1 2, .xmov XReg.sp 1,
      .xconst64 3 0x1122334455667788, .xpush64 3, .xpop64 4] = some st' ∧
    st'.sp = 4096 ∧ st'.xRegs 3 = 0x1122334455667788 ∧ st'.xRegs 4 = 0 :=
  ⟨_, _, rfl, rfl, rfl, rfl, rfl⟩

lemma pushFrame_spec {st st' : MachineState} (h : st.pushFrame = some st') :
    ∃ st₁ st₂, st.push 8 (st.xRegs XReg.lr).toNat = some st₁ ∧
      st₁.push 8 (st₁.xRegs XReg.fp).toNat = some st₂ ∧ st' = st₂.setReg XReg.fp st₂.sp := by
  simp only [pushFrame, Option.bind_eq_bind, Option.bind_eq_some_iff, Option.pure_def,
    Option.some.injEq] at h
  obtain ⟨st₁, hp₁, st₂, hp₂, rfl⟩ := h
  exact ⟨st₁, st₂, hp₁, hp₂, rfl⟩

lemma popFrame_spec {st st' : MachineState} (h : st.popFrame = some st') :
    ∃ fp st₁ lr st₂, (st.setReg XReg.sp (st.xRegs XReg.fp)).pop 8 = some (fp, st₁) ∧
      st₁.pop 8 = some (lr, st₂) ∧
      st' = (st₂.setReg XReg.fp (UInt64.ofNat fp)).setReg XReg.lr (UInt64.ofNat lr) := by
  unfold popFrame at h
  cases hp₁ : (st.setReg XReg.sp (st.xRegs XReg.fp)).pop 8 with
  | none => simp [hp₁] at h
  | some p₁ =>
    obtain ⟨fp, st₁⟩ := p₁
    cases hp₂ : st₁.pop 8 with
    | none => simp [hp₁, hp₂] at h
    | some p₂ =>
      obtain ⟨lr, st₂⟩ := p₂
      simp only [hp₁, hp₂, Option.bind_eq_bind, Option.bind_some, Option.pure_def,
        Option.some.injEq] at h
      exact ⟨fp, st₁, lr, st₂, rfl, hp₂, h.symm⟩

/-- **`pop_frame` does not undo `push_frame`.** `push_frame` stores `lr` at `sp` and `fp` at
`sp + 8`, and leaves `sp` and `fp` at `sp + 16`; `pop_frame` then reads `fp` from `sp + 16`,
above the frame, and `lr` from `sp + 8`, where the old `fp` is. `sp` comes back, `lr` receives the
old `fp`, and `fp` the bytes above the frame. -/
theorem pushFrame_popFrame_swaps {st st₁ st₂ : MachineState}
    (h₁ : st.pushFrame = some st₁) (h₂ : st₁.popFrame = some st₂) :
    st₂.sp = st.sp ∧ st₂.xRegs XReg.lr = st.xRegs XReg.fp ∧
      ∃ bytes, st.readBytes (st.sp.toNat + 16) 8 = some bytes ∧
        st₂.xRegs XReg.fp = UInt64.ofNat (ofBytes bytes) := by
  obtain ⟨s₁, s₂, hp₁, hp₂, rfl⟩ := pushFrame_spec h₁
  obtain ⟨-, hsp₁, -, hregs₁, hframe₁⟩ := push_spec hp₁
  obtain ⟨-, hsp₂, hread₂, -, hframe₂⟩ := push_spec hp₂
  obtain ⟨fp, t₁, lr, t₂, hpop₁, hpop₂, rfl⟩ := popFrame_spec h₂
  obtain ⟨b₁, hb₁, rfl, rfl⟩ := pop_spec hpop₁
  obtain ⟨b₂, hb₂, rfl, rfl⟩ := pop_spec hpop₂
  -- `pop_frame` starts from `sp = fp = sp + 16` and lowers it twice by 8
  have hfp : s₁.xRegs XReg.fp = st.xRegs XReg.fp := hregs₁ _ XReg.sp_ne_fp.symm
  have hsp₄ : (s₂.sp - UInt64.ofNat 8).toNat = s₁.sp.toNat := by
    rw [toNat_sub_ofNat (by omega), hsp₂, Nat.add_sub_cancel]
  have hsp₅ : (s₂.sp - UInt64.ofNat 8 - UInt64.ofNat 8).toNat = st.sp.toNat := by
    rw [toNat_sub_ofNat (by omega), hsp₄, hsp₁, Nat.add_sub_cancel]
  simp only [readBytes_setReg, sp_setReg_sp, setReg_self] at hb₁ hb₂
  rw [hsp₄, hread₂, Option.some.injEq] at hb₂
  refine ⟨?_, ?_, b₁, ?_, setReg_of_ne _ XReg.fp_ne_lr _⟩
  · rw [sp_setReg_of_ne _ XReg.sp_ne_lr, sp_setReg_of_ne _ XReg.sp_ne_fp, sp_setReg_sp,
      sp_setReg_sp, setReg_self]
    exact UInt64.toNat_inj.mp hsp₅
  · rw [setReg_self, ← hb₂, ofNat_ofBytes_toBytes, hfp]
  · rw [← hframe₁ (st.sp.toNat + 16) 8 (by omega), ← hframe₂ (st.sp.toNat + 16) 8 (by omega),
      ← hb₁]
    congr 1
    omega

end MachineState

end Cranelift.Pulley
