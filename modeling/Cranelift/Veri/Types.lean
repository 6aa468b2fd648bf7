import Cranelift.Lib.PartialCmp

/-!
# The types of the ISLE verifier and their order

A model of `Width`, `Type` and `Const` from `cranelift/isle/veri/veri/src/types.rs`, with the
hand-written `partial_cmp` of `Width` and of `Type` by which type inference orders what it knows
of an expression's type. A width is unknown or a number of bits, and the unknown width is below
every known one. A type is below another when it says less: `Unknown` is below every type but
`Unspecified`, which is comparable only to itself, and a bit vector of unknown width is below
each bit vector of known width.

`Type` is a keyword of Lean, so the type of types is `Ty` here.

## Main definitions

* `Cranelift.Veri.Types.Width`, `Width.partialCmp`.
* `Cranelift.Veri.Types.Ty`, `Ty.partialCmp`.
* `Cranelift.Veri.Types.Const`, `Const.ty`, `Const.asBool`.
* `Width.asBits`, `Ty.isConcrete`, `Ty.asBitVectorWidth`, `Ty.isCompatibleWith` — what the type
  solver reads off widths and types.

## Main results

* `Cranelift.Veri.Types.Width.le_iff`, `Cranelift.Veri.Types.Ty.le_iff` — the orders of the
  two comparisons, element by element.
* `Cranelift.Veri.Types.Width.lawful`, `Cranelift.Veri.Types.Ty.lawful` — both comparisons are
  lawful partial comparisons.
* `Cranelift.Veri.Types.Ty.le_total_of_le` — two types below a third are comparable.
-/

namespace Cranelift.Veri.Types

open PartialCmp

/-- `Width`: the width of a bit vector. -/
inductive Width where
  | unknown
  | bits (bits : ℕ)
deriving DecidableEq, Repr

/-- `Width::partial_cmp`. -/
def Width.partialCmp : Width → Width → Option Ordering
  | .unknown, .unknown => some .eq
  | .unknown, .bits _ => some .lt
  | .bits _, .unknown => some .gt
  | .bits l, .bits r => if l = r then some .eq else none

/-- `Type`. -/
inductive Ty where
  | unspecified
  | unknown
  | bitVector (w : Width)
  | int
  | bool
  | unit
deriving DecidableEq, Repr

/-- `Type::partial_cmp`. -/
def Ty.partialCmp : Ty → Ty → Option Ordering
  -- `Unspecified` is equal to itself, but otherwise incomparable
  | .unspecified, .unspecified => some .eq
  | .unspecified, _ | _, .unspecified => none
  | .unknown, .unknown => some .eq
  | .unknown, _ => some .lt
  | _, .unknown => some .gt
  | .bitVector l, .bitVector r => l.partialCmp r
  | .int, .int => some .eq
  | .bool, .bool => some .eq
  | .unit, .unit => some .eq
  | _, _ => none

/-- `Const`. The `i128` of `Int` is an integer and the `BigUint` of `BitVector` a natural
number: nothing modelled here depends on their bounds. -/
inductive Const where
  | bool (b : Bool)
  | int (v : ℤ)
  | bitVector (w v : ℕ)
  | unspecified
deriving DecidableEq, Repr

/-- `Const::ty`. -/
def Const.ty : Const → Ty
  | .bool _ => .bool
  | .int _ => .int
  | .bitVector w _ => .bitVector (.bits w)
  | .unspecified => .unspecified

/-- `Const::as_bool`. -/
def Const.asBool : Const → Option Bool
  | .bool b => some b
  | _ => none

/-- `Width::as_bits`. -/
def Width.asBits : Width → Option ℕ
  | .unknown => none
  | .bits n => some n

/-- `Type::is_concrete`. -/
def Ty.isConcrete : Ty → Bool
  | .unspecified => true
  | .unknown | .bitVector .unknown => false
  | .bitVector (.bits _) | .int | .bool | .unit => true

/-- `Type::as_bit_vector_width`. -/
def Ty.asBitVectorWidth : Ty → Option Width
  | .bitVector w => some w
  | _ => none

/-- `Type::is_compatible_with`. -/
def Ty.isCompatibleWith : Ty → Ty → Bool
  | .unknown, _ | _, .unknown | .unspecified, .unspecified | .unit, .unit | .bool, .bool
  | .int, .int | .bitVector _, .bitVector _ => true
  | _, _ => false

/-! ### The order of widths -/

namespace Width

/-- The unknown width is below every width, and a known width only below itself. -/
theorem le_iff {l r : Width} : Le partialCmp l r ↔ l = .unknown ∨ l = r := by
  cases l <;> cases r <;> simp [Le, partialCmp]

theorem lawful : Lawful partialCmp where
  refl _ := le_iff.mpr (Or.inr rfl)
  antisymm l r hlr hrl := by
    rcases le_iff.mp hlr with rfl | rfl
    · rcases le_iff.mp hrl with rfl | rfl <;> rfl
    · rfl
  trans l m r hlm hmr := by
    rcases le_iff.mp hlm with rfl | rfl
    · exact le_iff.mpr (Or.inl rfl)
    · exact hmr
  swap l r := by
    cases l <;> cases r
    case bits.bits l r =>
      by_cases h : l = r
      · simp [partialCmp, h]
      · simp [partialCmp, h, Ne.symm h]
    all_goals rfl

end Width

/-! ### The order of types -/

namespace Ty

/-- A type is below itself; `Unknown` is below every type but `Unspecified`; and the bit vector
of unknown width is below each bit vector of known width. -/
theorem le_iff {a b : Ty} : Le partialCmp a b ↔
    a = b ∨ (a = .unknown ∧ b ≠ .unspecified) ∨
      (a = .bitVector .unknown ∧ ∃ n, b = .bitVector (.bits n)) := by
  rcases a with _ | _ | (_ | l) | _ | _ | _ <;> rcases b with _ | _ | (_ | r) | _ | _ | _ <;>
    simp [Le, partialCmp, Width.partialCmp]

theorem lawful : Lawful partialCmp where
  refl _ := le_iff.mpr (Or.inl rfl)
  antisymm a b hab hba := by
    rcases le_iff.mp hab with rfl | ⟨rfl, hb⟩ | ⟨rfl, n, rfl⟩
    · rfl
    · -- only `Unknown` is below `Unknown`
      rcases le_iff.mp hba with rfl | ⟨rfl, -⟩ | ⟨-, n, h⟩
      · rfl
      · rfl
      · cases h
    · rcases le_iff.mp hba with h | ⟨h, -⟩ | ⟨h, -⟩ <;> cases h
  trans a b c hab hbc := by
    rcases le_iff.mp hab with rfl | ⟨rfl, hb⟩ | ⟨rfl, n, rfl⟩
    · exact hbc
    · -- `Unspecified` is comparable only to itself, so `c` is not it either
      rcases le_iff.mp hbc with rfl | ⟨rfl, hc⟩ | ⟨rfl, m, rfl⟩
      · exact hab
      · exact le_iff.mpr (Or.inr (Or.inl ⟨rfl, hc⟩))
      · exact le_iff.mpr (Or.inr (Or.inl ⟨rfl, Ty.noConfusion⟩))
    · rcases le_iff.mp hbc with rfl | ⟨h, -⟩ | ⟨h, -⟩
      · exact hab
      · cases h
      · cases h
  swap a b := by
    cases a <;> cases b
    case bitVector.bitVector l r => exact Width.lawful.swap l r
    all_goals rfl

/-- **Types below a type form a chain**: two types below a third are comparable. -/
theorem le_total_of_le {a b u : Ty} (ha : Le partialCmp a u) (hb : Le partialCmp b u) :
    Le partialCmp a b ∨ Le partialCmp b a := by
  rcases le_iff.mp ha with rfl | ⟨rfl, hu⟩ | ⟨rfl, n, rfl⟩
  · exact Or.inr hb
  · -- `Unknown` is below every type that is below a type other than `Unspecified`
    refine Or.inl (le_iff.mpr ?_)
    rcases le_iff.mp hb with rfl | ⟨rfl, -⟩ | ⟨rfl, -⟩
    · exact Or.inr (Or.inl ⟨rfl, hu⟩)
    · exact Or.inl rfl
    · exact Or.inr (Or.inl ⟨rfl, Ty.noConfusion⟩)
  · rcases le_iff.mp hb with rfl | ⟨rfl, -⟩ | ⟨rfl, -⟩
    · exact Or.inl ha
    · exact Or.inr (le_iff.mpr (Or.inr (Or.inl ⟨rfl, Ty.noConfusion⟩)))
    · exact Or.inl (lawful.refl _)

end Ty

end Cranelift.Veri.Types
