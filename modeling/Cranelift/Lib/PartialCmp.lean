import Mathlib.Order.Bounds.Basic
import Mathlib.Order.Preorder.Chain

/-!
# Partial comparisons

A partial comparison `cmp : α → α → Option Ordering` says of two elements that the first is
less, that they are equal, that the first is greater, or that they are incomparable. Its order
is `a ≤ b` when `cmp a b` is less or equal, and `a ≥ b` when it is greater or equal. A lawful
comparison makes that order a partial order, and says the converse when its arguments are
swapped. The merge of two elements is the greater of them when they are comparable.

## Main definitions

* `PartialCmp.Le`, `PartialCmp.Ge` — the orders a partial comparison defines.
* `PartialCmp.Lawful` — a comparison whose order is reflexive, antisymmetric and transitive,
  and which is dual under a swap of its arguments.
* `PartialCmp.Lawful.toPartialOrder` — the partial order of a lawful comparison.
* `PartialCmp.Compares` — a comparison computes a given partial order.
* `PartialCmp.merge` — the greater of two comparable elements.

## Main results

* `PartialCmp.Lawful.eq_iff` — a lawful comparison says equal exactly of equal elements.
* `PartialCmp.isLUB_of_merge_eq_some` — a merge is the least upper bound of the pair.
* `PartialCmp.merge_isSome_iff_bddAbove` — in an order whose elements below any element form a
  chain, two elements merge exactly when they have a common upper bound.

## Design

The merge results are stated for an order `≤` given as an instance, with Mathlib's `IsLUB`,
`BddAbove` and `IsChain`, and the hypothesis `Compares` that the comparison computes it. A lawful
comparison computes its own order (`Lawful.compares`), so a type whose order is defined by a
comparison gets its `PartialOrder` from `Lawful.toPartialOrder` and the merge results from
`Lawful.compares`.
-/

namespace PartialCmp

variable {α : Type*}

section Defs

variable (cmp : α → α → Option Ordering)

/-- `a ≤ b`: the comparison says less or equal. -/
def Le (a b : α) : Prop := cmp a b = some .lt ∨ cmp a b = some .eq

/-- `a ≥ b`: the comparison says greater or equal. -/
def Ge (a b : α) : Prop := cmp a b = some .gt ∨ cmp a b = some .eq

instance (a b : α) : Decidable (Le cmp a b) := inferInstanceAs (Decidable (_ ∨ _))

instance (a b : α) : Decidable (Ge cmp a b) := inferInstanceAs (Decidable (_ ∨ _))

/-- A lawful partial comparison: its order is reflexive, antisymmetric and transitive, and
swapping the arguments swaps less and greater. -/
structure Lawful : Prop where
  refl : ∀ a, Le cmp a a
  antisymm : ∀ a b, Le cmp a b → Le cmp b a → a = b
  trans : ∀ a b c, Le cmp a b → Le cmp b c → Le cmp a c
  swap : ∀ a b, cmp b a = (cmp a b).map Ordering.swap

/-- The greater of two elements when they are comparable, and the second when they are
equal. -/
def merge (a b : α) : Option α :=
  match cmp a b with
  | some .gt => some a
  | some .lt | some .eq => some b
  | none => none

end Defs

variable {cmp : α → α → Option Ordering} {a b c : α}

namespace Lawful

variable (h : Lawful cmp)
include h

/-- A lawful comparison says equal exactly of equal elements. -/
theorem eq_iff : cmp a b = some .eq ↔ a = b := by
  constructor
  · intro hab
    have hba : cmp b a = some .eq := by rw [h.swap, hab]; rfl
    exact h.antisymm a b (Or.inr hab) (Or.inr hba)
  · rintro rfl
    -- `cmp a a` is less or equal, and less would make it greater too
    rcases h.refl a with hlt | heq
    · have hgt := h.swap a a
      rw [hlt] at hgt
      exact absurd hgt (by decide)
    · exact heq

/-- Greater or equal is less or equal with the arguments swapped. -/
theorem ge_iff_le : Ge cmp a b ↔ Le cmp b a := by
  rw [Ge, Le, h.swap a b]
  rcases cmp a b with _ | _ | _ | _ <;> decide

/-- Two elements are comparable exactly when one is below the other. -/
theorem isSome_iff : (cmp a b).isSome ↔ Le cmp a b ∨ Le cmp b a := by
  rw [← h.ge_iff_le (a := a) (b := b), Le, Ge]
  rcases cmp a b with _ | _ | _ | _ <;> decide

/-- The partial order of a lawful comparison. -/
@[reducible] def toPartialOrder : PartialOrder α where
  le := Le cmp
  le_refl := h.refl
  le_trans := h.trans
  le_antisymm := h.antisymm

end Lawful

section Order

variable [PartialOrder α]

variable (cmp) in
/-- `cmp` computes the partial order `≤`: `a ≤ b` exactly when it says less or equal, and
swapping the arguments swaps less and greater. -/
structure Compares : Prop where
  le_iff : ∀ a b, a ≤ b ↔ Le cmp a b
  swap : ∀ a b, cmp b a = (cmp a b).map Ordering.swap

omit [PartialOrder α] in
/-- A lawful comparison computes its own partial order. -/
theorem Lawful.compares (h : Lawful cmp) : @Compares α cmp h.toPartialOrder :=
  @Compares.mk α cmp h.toPartialOrder (fun _ _ => Iff.rfl) h.swap

variable (hc : Compares cmp)
include hc

/-- The comparison says greater exactly when the second element is below the first and
differs from it. -/
theorem Compares.gt_iff : cmp a b = some .gt ↔ b ≤ a ∧ a ≠ b := by
  have hba := hc.le_iff b a
  have hab := hc.le_iff a b
  rw [Le, hc.swap a b] at hba
  rw [Le] at hab
  constructor
  · intro hgt
    rw [hgt] at hba hab
    refine ⟨hba.mpr (Or.inl rfl), fun heq => ?_⟩
    subst heq
    exact absurd (hab.mp le_rfl) (by decide)
  · rintro ⟨hle, hne⟩
    have hnle : ¬ a ≤ b := fun hab' => hne (le_antisymm hab' hle)
    rw [hab] at hnle
    rcases hcmp : cmp a b with _ | _ | _ | _ <;> simp_all

/-- **A merge is the greater element**: the second when it is above the first, and otherwise
the first when it is above the second. -/
theorem merge_eq_some_iff : merge cmp a b = some c ↔ (a ≤ b ∧ c = b) ∨ (b ≤ a ∧ a ≠ b ∧ c = a) := by
  rw [hc.le_iff a b, Le]
  have hgt := hc.gt_iff (a := a) (b := b)
  unfold merge
  split <;> simp_all [eq_comm]

/-- **A merge is the least upper bound** of the pair. -/
theorem isLUB_of_merge_eq_some (hm : merge cmp a b = some c) : IsLUB {a, b} c := by
  apply IsGreatest.isLUB
  rcases (merge_eq_some_iff hc).mp hm with ⟨hab, rfl⟩ | ⟨hba, -, rfl⟩
  · exact ⟨Set.mem_insert_of_mem _ rfl, by simp [upperBounds, hab]⟩
  · exact ⟨Set.mem_insert _ _, by simp [upperBounds, hba]⟩

/-- **Upper bounds make elements comparable**: when the elements below any element form a
chain, two elements merge exactly when they have a common upper bound. -/
theorem merge_isSome_iff_bddAbove (hchain : ∀ u : α, IsChain (· ≤ ·) (Set.Iic u)) :
    (merge cmp a b).isSome ↔ BddAbove {a, b} := by
  constructor
  · intro hs
    obtain ⟨c, hm⟩ := Option.isSome_iff_exists.mp hs
    exact ⟨c, (isLUB_of_merge_eq_some hc hm).1⟩
  · rintro ⟨u, hu⟩
    have hau : a ≤ u := hu (Set.mem_insert _ _)
    have hbu : b ≤ u := hu (Set.mem_insert_of_mem _ rfl)
    -- two elements below `u` are comparable, and equal ones merge to themselves
    obtain ⟨c, hm⟩ : ∃ c, merge cmp a b = some c := by
      by_cases hab : a = b
      · exact ⟨b, (merge_eq_some_iff hc).mpr (Or.inl ⟨hab.le, rfl⟩)⟩
      · rcases hchain u hau hbu hab with hle | hle
        · exact ⟨b, (merge_eq_some_iff hc).mpr (Or.inl ⟨hle, rfl⟩)⟩
        · exact ⟨a, (merge_eq_some_iff hc).mpr (Or.inr ⟨hle, hab, rfl⟩)⟩
    simp [hm]

end Order

end PartialCmp
