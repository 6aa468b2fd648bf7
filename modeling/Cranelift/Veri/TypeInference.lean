import Cranelift.Veri.Types

/-!
# The order of type values

A model of `TypeValue` from `cranelift/isle/veri/veri/src/type_inference.rs`: what type inference
knows of an expression, either a type or a constant value. `TypeValue::partial_cmp` orders type
values by how much they say, through `Type::partial_cmp` and `Width::partial_cmp`: a value is
above exactly the types below its own type, and comparable to no other value. `TypeValue::merge`
is the greater of two comparable type values; `Solver::set_type_value` merges every new fact
into what is known of an expression, and fails when the merge does.

## Main definitions

* `Cranelift.Veri.TypeInference.TypeValue`, with `ty`, `asValue`, `partialCmp`, `refinesType`
  and `merge`.
* `TypeValue.height` — the height of a type value in the order.
* The `PartialOrder` of type values, whose `≤` is `<=` of `TypeValue::partial_cmp`.

## Main results

* `Cranelift.Veri.TypeInference.TypeValue.lawful` — the comparison is lawful.
* `Cranelift.Veri.TypeInference.TypeValue.isChain_Iic` — the type values below any type value
  form a chain: the order is a forest.
* `Cranelift.Veri.TypeInference.TypeValue.height_strictMono` — the order has height three.
* `Cranelift.Veri.TypeInference.TypeValue.partialCmp_lawful_merge_isLUB` — the three comparisons
  are lawful, and two type values merge exactly when they have a common upper bound, into their
  least upper bound.
-/

namespace Cranelift.Veri.TypeInference

open PartialCmp Cranelift.Veri.Types

/-- `TypeValue`. -/
inductive TypeValue where
  | type (ty : Ty)
  | value (c : Const)
deriving DecidableEq, Repr

namespace TypeValue

/-- `TypeValue::ty`. -/
def ty : TypeValue → Ty
  | .type ty => ty
  | .value c => c.ty

/-- `TypeValue::as_value`. -/
def asValue : TypeValue → Option Const
  | .value c => some c
  | _ => none

/-- `TypeValue::partial_cmp`. The guards are `<=` and `>=` of `Type`, that is `Le` and `Ge` of
`Type::partial_cmp`; a type and a value that fail their guard fall through to the last arm,
`None`. -/
def partialCmp : TypeValue → TypeValue → Option Ordering
  | .type l, .type r => l.partialCmp r
  | .type ty, .value v => if Le Ty.partialCmp ty v.ty then some .lt else none
  | .value v, .type ty => if Ge Ty.partialCmp v.ty ty then some .gt else none
  | .value l, .value r => if l = r then some .eq else none

/-- `TypeValue::refines_type`: `self >= Type(ty)`. -/
def refinesType (tv : TypeValue) (ty : Ty) : Bool := decide (Ge partialCmp tv (.type ty))

/-- `TypeValue::merge`: the left when it is greater, the right when it is less or equal, and
nothing when they are incomparable, which is `PartialCmp.merge` of `TypeValue::partial_cmp`. -/
def merge (left right : TypeValue) : Option TypeValue := PartialCmp.merge partialCmp left right

theorem partialCmp_type_value (t : Ty) (v : Const) :
    partialCmp (.type t) (.value v) = if Le Ty.partialCmp t v.ty then some .lt else none := rfl

theorem partialCmp_value_type (v : Const) (t : Ty) :
    partialCmp (.value v) (.type t) = if Ge Ty.partialCmp v.ty t then some .gt else none := rfl

/-! ### The order, constructor by constructor -/

@[simp] theorem le_type_type {s t : Ty} :
    Le partialCmp (.type s) (.type t) ↔ Le Ty.partialCmp s t := Iff.rfl

@[simp] theorem le_type_value {t : Ty} {v : Const} :
    Le partialCmp (.type t) (.value v) ↔ Le Ty.partialCmp t v.ty := by
  rw [Le, partialCmp_type_value]
  split <;> simp_all

/-- A value is never below a type. -/
@[simp] theorem not_le_value_type {v : Const} {t : Ty} : ¬ Le partialCmp (.value v) (.type t) := by
  rw [Le, partialCmp_value_type]
  split <;> simp

@[simp] theorem le_value_value {v w : Const} : Le partialCmp (.value v) (.value w) ↔ v = w := by
  by_cases h : v = w <;> simp [Le, partialCmp, h]

/-- `v.ty() >= ty` exactly when `ty <= v.ty()`, so a value and a type compare dually. -/
theorem partialCmp_value_type_eq_swap (v : Const) (t : Ty) :
    partialCmp (.value v) (.type t) = (partialCmp (.type t) (.value v)).map Ordering.swap := by
  rw [partialCmp_value_type, partialCmp_type_value]
  by_cases h : Le Ty.partialCmp t v.ty
  · rw [if_pos (Ty.lawful.ge_iff_le.mpr h), if_pos h]
    rfl
  · rw [if_neg (mt Ty.lawful.ge_iff_le.mp h), if_neg h]
    rfl

/-- The comparison of type values is lawful. -/
theorem lawful : Lawful partialCmp where
  refl a := by cases a <;> simp [Ty.lawful.refl]
  antisymm a b hab hba := by
    cases a <;> cases b
    case type.type s t => exact congrArg TypeValue.type (Ty.lawful.antisymm s t hab hba)
    case value.value v w => exact congrArg TypeValue.value (le_value_value.mp hab)
    all_goals simp at hab hba
  trans a b c hab hbc := by
    cases a <;> cases b <;> cases c
    case type.type.type s t u => exact Ty.lawful.trans s t u hab hbc
    case type.type.value s t w =>
      exact le_type_value.mpr (Ty.lawful.trans s t w.ty hab (le_type_value.mp hbc))
    case type.value.value s v w =>
      rw [le_value_value] at hbc
      subst hbc
      exact hab
    case value.value.value u v w =>
      rw [le_value_value] at hab hbc ⊢
      exact hab.trans hbc
    all_goals simp at hab hbc
  swap a b := by
    cases a <;> cases b
    case type.type s t => exact Ty.lawful.swap s t
    case type.value t v => exact partialCmp_value_type_eq_swap v t
    case value.type v t =>
      rw [partialCmp_value_type_eq_swap]
      cases partialCmp (.type t) (.value v) <;> simp [Ordering.swap_swap]
    case value.value v w =>
      by_cases h : v = w
      · subst h
        simp [partialCmp]
      · simp [partialCmp, h, Ne.symm h]

/-- The order of type values: `<=` of `TypeValue::partial_cmp`. -/
instance : PartialOrder TypeValue := lawful.toPartialOrder

theorem le_def {a b : TypeValue} : a ≤ b ↔ Le partialCmp a b := Iff.rfl

/-- **The type values below a type value form a chain**: below a type there are only types,
and below a value only the value itself and the types below its type. -/
theorem isChain_Iic (u : TypeValue) : IsChain (· ≤ ·) (Set.Iic u) := by
  intro a ha b hb _
  change Le partialCmp a u at ha
  change Le partialCmp b u at hb
  change Le partialCmp a b ∨ Le partialCmp b a
  cases u <;> cases a <;> cases b
  case type.type.type t s r => exact Ty.le_total_of_le ha hb
  case value.type.type v s r =>
    exact Ty.le_total_of_le (le_type_value.mp ha) (le_type_value.mp hb)
  case value.type.value v s w =>
    rw [le_value_value] at hb
    subst hb
    exact Or.inl ha
  case value.value.type v w s =>
    rw [le_value_value] at ha
    subst ha
    exact Or.inr hb
  case value.value.value v w x =>
    rw [le_value_value] at ha hb
    subst ha hb
    exact Or.inl (lawful.refl _)
  all_goals simp at ha hb

/-! ### The height of the order -/

/-- The height of a type value: `0` for `Unknown` and `Unspecified`, `2` for a bit vector of
known width, `1` for the other types and `3` for a value. -/
def height : TypeValue → ℕ
  | .type .unknown | .type .unspecified => 0
  | .type (.bitVector (.bits _)) => 2
  | .type _ => 1
  | .value _ => 3

theorem height_le_three (tv : TypeValue) : tv.height ≤ 3 := by
  rcases tv with (_ | _ | (_ | _) | _ | _ | _) | _ <;> simp [height]

theorem height_type_lt_three (t : Ty) : (TypeValue.type t).height < 3 := by
  rcases t with _ | _ | (_ | _) | _ | _ | _ <;> simp [height]

/-- **The height is strictly monotone**: no chain of type values has more than four
elements. -/
theorem height_strictMono : StrictMono height := by
  intro a b hab
  have hle : Le partialCmp a b := (lt_iff_le_not_ge.mp hab).1
  have hnot : ¬ Le partialCmp b a := (lt_iff_le_not_ge.mp hab).2
  cases a <;> cases b
  case type.type s t =>
    rcases Ty.le_iff.mp hle with rfl | ⟨rfl, ht⟩ | ⟨rfl, n, rfl⟩
    · exact absurd (Ty.lawful.refl s) hnot
    · -- `t` is neither `Unspecified` nor, as it is strictly above, `Unknown`
      have htu : t ≠ .unknown := fun htu => hnot (htu ▸ Ty.lawful.refl _)
      rcases t with _ | _ | (_ | _) | _ | _ | _ <;> simp_all [height]
    · simp [height]
  case type.value t v => exact height_type_lt_three t
  case value.value v w =>
    rw [le_value_value] at hle
    subst hle
    exact absurd (lawful.refl _) hnot
  case value.type => simp at hle

/-- **The order of type values is a forest whose merges are joins.** `Width::partial_cmp`,
`Type::partial_cmp` and `TypeValue::partial_cmp` are lawful: reflexive, antisymmetric and
transitive as orders, and dual under a swap of their arguments. `TypeValue::merge` of two type
values is some value exactly when they have a common upper bound, and then it is their least
upper bound. -/
theorem partialCmp_lawful_merge_isLUB :
    Lawful Width.partialCmp ∧ Lawful Ty.partialCmp ∧ Lawful partialCmp ∧
      ∀ a b : TypeValue, ((merge a b).isSome ↔ BddAbove {a, b}) ∧
        ∀ c, merge a b = some c → IsLUB {a, b} c :=
  ⟨Width.lawful, Ty.lawful, lawful, fun _ _ =>
    ⟨PartialCmp.merge_isSome_iff_bddAbove lawful.compares isChain_Iic,
      fun _ => PartialCmp.isLUB_of_merge_eq_some lawful.compares⟩⟩

end TypeValue

end Cranelift.Veri.TypeInference
