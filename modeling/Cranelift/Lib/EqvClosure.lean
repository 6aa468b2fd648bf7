import Mathlib.Logic.Relation
import Mathlib.Data.Finset.Insert

/-!
# Equivalence closures of lists of pairs

The classes that a union-find structure maintains are, abstractly, the classes of the
equivalence closure of the pairs that were merged. This file proves the two facts about such
closures that a union-find refinement needs: how the closure grows when one pair is added, and
that deleting the pairs of one class leaves the other classes as they were.

## Main definitions

* `EqvClosure.PairRel P` — the relation whose edges are the pairs of the list `P`.
* `EqvClosure.support P` — the elements that occur in some pair of `P`.
* `EqvClosure.eraseClass P x` — the pairs of `P` outside the class of `x`.

## Main results

* `EqvClosure.eqvGen_add_iff` — adding the edge `(x, y)` joins the class of `x` and that of `y`
  and changes nothing else.
* `EqvClosure.eqvGen_filter_iff` — deleting the edges out of a union of classes leaves the
  closure unchanged outside it.
* `EqvClosure.eqvGen_eraseClass_iff`, `EqvClosure.mem_support_eraseClass` — the same for the
  pairs of one class of a list of pairs.
-/

namespace EqvClosure

open Relation

variable {α : Type*}

section Relations

variable {r : α → α → Prop}

/-- The candidate closure after adding the edge `(x, y)` to `r`. -/
def Joined (r : α → α → Prop) (x y a b : α) : Prop :=
  EqvGen r a b ∨ (EqvGen r a x ∧ EqvGen r y b) ∨ (EqvGen r a y ∧ EqvGen r x b)

/-- Joining two classes of an equivalence relation gives an equivalence relation.

**Proof sketch.** Reflexivity and symmetry are direct. For transitivity, each of the nine
combinations of disjuncts either chains through the old closure or through `x` or `y`. -/
lemma joined_equivalence (x y : α) : Equivalence (Joined r x y) := by
  have E := EqvGen.is_equivalence r
  refine ⟨fun a => .inl (E.refl a), ?_, ?_⟩
  · rintro a b (h | ⟨h₁, h₂⟩ | ⟨h₁, h₂⟩)
    · exact .inl (E.symm h)
    · exact .inr (.inr ⟨E.symm h₂, E.symm h₁⟩)
    · exact .inr (.inl ⟨E.symm h₂, E.symm h₁⟩)
  · rintro a b c (h | ⟨h₁, h₂⟩ | ⟨h₁, h₂⟩) (k | ⟨k₁, k₂⟩ | ⟨k₁, k₂⟩)
    · exact .inl (E.trans h k)
    · exact .inr (.inl ⟨E.trans h k₁, k₂⟩)
    · exact .inr (.inr ⟨E.trans h k₁, k₂⟩)
    · exact .inr (.inl ⟨h₁, E.trans h₂ k⟩)
    · exact .inr (.inl ⟨h₁, k₂⟩)
    · exact .inl (E.trans h₁ k₂)
    · exact .inr (.inr ⟨h₁, E.trans h₂ k⟩)
    · exact .inl (E.trans h₁ k₂)
    · exact .inr (.inr ⟨h₁, k₂⟩)

/-- **Adding one edge** joins the class of `x` with the class of `y`.

**Proof sketch.** The joined relation is an equivalence containing the enlarged relation, so it
contains its closure; conversely each disjunct is a chain in the enlarged closure. -/
lemma eqvGen_add_iff {x y a b : α} :
    EqvGen (fun u v => (u = x ∧ v = y) ∨ r u v) a b ↔ Joined r x y a b := by
  constructor
  · intro h
    refine (Equivalence.eqvGen_iff (joined_equivalence x y)).mp (EqvGen.mono ?_ _ _ h)
    rintro u v (⟨rfl, rfl⟩ | huv)
    · exact .inr (.inl ⟨EqvGen.refl u, EqvGen.refl v⟩)
    · exact .inl (EqvGen.rel u v huv)
  · have hmono : ∀ {u v}, EqvGen r u v → EqvGen (fun u v => (u = x ∧ v = y) ∨ r u v) u v :=
      fun h => EqvGen.mono (fun _ _ h => .inr h) _ _ h
    have hxy : EqvGen (fun u v => (u = x ∧ v = y) ∨ r u v) x y := EqvGen.rel _ _ (.inl ⟨rfl, rfl⟩)
    rintro (h | ⟨h₁, h₂⟩ | ⟨h₁, h₂⟩)
    · exact hmono h
    · exact ((hmono h₁).trans _ _ _ hxy).trans _ _ _ (hmono h₂)
    · exact ((hmono h₁).trans _ _ _ (hxy.symm _ _)).trans _ _ _ (hmono h₂)

/-- A predicate that every edge preserves is preserved by the whole closure. -/
lemma EqvGen.iff_of_closed {C : α → Prop} (hC : ∀ u v, r u v → (C u ↔ C v)) {a b : α}
    (h : EqvGen r a b) : C a ↔ C b := by
  induction h with
  | rel u v huv => exact hC u v huv
  | refl => exact Iff.rfl
  | symm _ _ _ ih => exact ih.symm
  | trans _ _ _ _ _ ih₁ ih₂ => exact ih₁.trans ih₂

/-- **Deleting a union of classes.** If every edge keeps `C`, then dropping the edges out of `C`
does not change the closure outside `C`. -/
lemma eqvGen_filter_iff {C : α → Prop} (hC : ∀ u v, r u v → (C u ↔ C v)) {a b : α}
    (ha : ¬ C a) : EqvGen (fun u v => r u v ∧ ¬ C u) a b ↔ EqvGen r a b := by
  constructor
  · exact EqvGen.mono (fun _ _ h => h.1) _ _
  · intro h
    induction h with
    | rel u v huv => exact EqvGen.rel _ _ ⟨huv, ha⟩
    | refl => exact EqvGen.refl _
    | symm u v huv ih =>
      have hu : ¬ C u := fun hu => ha ((EqvGen.iff_of_closed hC huv).mp hu)
      exact (ih hu).symm
    | trans u v w huv _ ih₁ ih₂ =>
      have hv : ¬ C v := fun hv => ha ((EqvGen.iff_of_closed hC huv).mpr hv)
      exact (ih₁ ha).trans _ _ _ (ih₂ hv)

end Relations

/-! ### Lists of pairs -/

section Pairs

variable (P : List (α × α))

/-- The relation whose edges are the pairs of `P`. -/
def PairRel (a b : α) : Prop := (a, b) ∈ P

/-- The elements that occur in some pair of `P`. -/
def support [DecidableEq α] : Finset α :=
  P.foldr (fun q s => insert q.1 (insert q.2 s)) ∅

variable {P}

@[simp]
lemma pairRel_cons {x y a b : α} :
    PairRel ((x, y) :: P) a b ↔ (a = x ∧ b = y) ∨ PairRel P a b := by
  simp [PairRel]

@[simp]
lemma pairRel_filter {p : α × α → Bool} {a b : α} :
    PairRel (P.filter p) a b ↔ PairRel P a b ∧ p (a, b) := by
  simp [PairRel]

lemma mem_support [DecidableEq α] {a : α} : a ∈ support P ↔ ∃ q ∈ P, a = q.1 ∨ a = q.2 := by
  induction P with
  | nil => simp [support]
  | cons q P ih =>
    simp only [support, List.foldr_cons, Finset.mem_insert, List.mem_cons, exists_eq_or_imp]
    rw [← support, ih]
    exact or_assoc.symm

@[simp]
lemma support_cons [DecidableEq α] {x y : α} :
    support ((x, y) :: P) = insert x (insert y (support P)) := rfl

/-- Related elements are equal or both occur in some pair. -/
lemma eq_or_mem_support [DecidableEq α] {a b : α} (h : EqvGen (PairRel P) a b) :
    a = b ∨ (a ∈ support P ∧ b ∈ support P) := by
  induction h with
  | rel u v huv =>
    exact .inr ⟨mem_support.mpr ⟨(u, v), huv, .inl rfl⟩, mem_support.mpr ⟨(u, v), huv, .inr rfl⟩⟩
  | refl => exact .inl rfl
  | symm _ _ _ ih => exact ih.imp Eq.symm And.symm
  | trans _ _ _ _ _ ih₁ ih₂ =>
    rcases ih₁ with rfl | ⟨hu, hv⟩
    · exact ih₂
    · rcases ih₂ with rfl | ⟨-, hw⟩
      · exact .inr ⟨hu, hv⟩
      · exact .inr ⟨hu, hw⟩

/-- Adding the pair `(x, y)` in front joins the classes of `x` and `y`. -/
lemma eqvGen_cons_iff {x y a b : α} :
    EqvGen (PairRel ((x, y) :: P)) a b ↔ Joined (PairRel P) x y a b := by
  have hrel : PairRel ((x, y) :: P) = fun u v => (u = x ∧ v = y) ∨ PairRel P u v := by
    funext u v
    exact propext pairRel_cons
  rw [hrel]
  exact eqvGen_add_iff

/-! ### Deleting a class -/

open Classical in
/-- The pairs of `P` outside the class of `x`. -/
noncomputable def eraseClass (P : List (α × α)) (x : α) : List (α × α) :=
  P.filter fun q => ¬ EqvGen (PairRel P) q.1 x

/-- An edge of the closure never leaves a class. -/
lemma eqvGen_iff_of_pairRel {x u v : α} (h : PairRel P u v) :
    EqvGen (PairRel P) u x ↔ EqvGen (PairRel P) v x :=
  ⟨fun hu => (EqvGen.rel u v h).symm.trans _ _ _ hu, fun hv => (EqvGen.rel u v h).trans _ _ _ hv⟩

@[simp]
lemma pairRel_eraseClass {x u v : α} :
    PairRel (eraseClass P x) u v ↔ PairRel P u v ∧ ¬ EqvGen (PairRel P) u x := by
  simp [eraseClass]

/-- Outside the class of `x`, deleting it changes no class. -/
lemma eqvGen_eraseClass_iff {x a b : α} (ha : ¬ EqvGen (PairRel P) a x) :
    EqvGen (PairRel (eraseClass P x)) a b ↔ EqvGen (PairRel P) a b := by
  have hrel : PairRel (eraseClass P x) = fun u v => PairRel P u v ∧ ¬ EqvGen (PairRel P) u x := by
    funext u v
    exact propext pairRel_eraseClass
  rw [hrel]
  exact eqvGen_filter_iff (fun u v h => eqvGen_iff_of_pairRel h) ha

/-- The elements left in some pair are those outside the class of `x`. -/
lemma mem_support_eraseClass [DecidableEq α] {x z : α} :
    z ∈ support (eraseClass P x) ↔ z ∈ support P ∧ ¬ EqvGen (PairRel P) z x := by
  simp only [mem_support]
  constructor
  · rintro ⟨q, hq, hz⟩
    have hq' : PairRel (eraseClass P x) q.1 q.2 := hq
    rw [pairRel_eraseClass] at hq'
    refine ⟨⟨q, hq'.1, hz⟩, ?_⟩
    rcases hz with rfl | rfl
    · exact hq'.2
    · exact fun hzx => hq'.2 ((eqvGen_iff_of_pairRel hq'.1).mpr hzx)
  · rintro ⟨⟨q, hq, hz⟩, hzx⟩
    have hqx : ¬ EqvGen (PairRel P) q.1 x := by
      rcases hz with rfl | rfl
      · exact hzx
      · exact fun h => hzx ((eqvGen_iff_of_pairRel hq).mp h)
    have hq' : PairRel (eraseClass P x) q.1 q.2 := pairRel_eraseClass.mpr ⟨hq, hqx⟩
    exact ⟨q, hq', hz⟩

/-- The members of the class of `x` are related to nothing else once it is deleted. -/
lemma eq_of_eqvGen_eraseClass [DecidableEq α] {x a b : α} (ha : EqvGen (PairRel P) a x)
    (h : EqvGen (PairRel (eraseClass P x)) a b) : a = b := by
  rcases eq_or_mem_support h with hab | ⟨ha', -⟩
  · exact hab
  · exact absurd ha (mem_support_eraseClass.mp ha').2

/-- Deleting the class of an element that is in no pair deletes nothing. -/
lemma eraseClass_eq_self [DecidableEq α] {x : α} (hx : x ∉ support P) : eraseClass P x = P := by
  unfold eraseClass
  rw [List.filter_eq_self]
  intro q hq
  simp only [decide_eq_true_eq]
  intro hqx
  rcases eq_or_mem_support hqx with h | ⟨-, h⟩
  · exact hx (mem_support.mpr ⟨q, hq, .inl h.symm⟩)
  · exact hx h

end Pairs

end EqvClosure
