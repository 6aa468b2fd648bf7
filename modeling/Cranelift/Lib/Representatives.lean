import Mathlib.Logic.Relation

/-!
# Representative functions of partial equivalences

A union-find structure answers a query with a representative: a function `f : α → Option α`
that is `none` outside the sets and names one member of each set. This file states when such a
function describes the classes of a relation `R` (`Represents f R`), and how the three updates
that a union-find performs act on it: adding a singleton, relabelling one representative as
another (a union), and deleting one class.

## Main definitions

* `Representatives.Represents f R` — `f` names the classes of `R`, and is undefined exactly on
  the elements that `R` relates only to themselves.
* `Representatives.withSingleton f x` — `f` with `x` added as a singleton class.
* `Representatives.relabel lo hi` — the renaming of the representative `lo` to `hi`.

## Main results

* `Representatives.Represents.withSingleton` — a fresh singleton keeps the classes.
* `Representatives.Represents.relabel` — relabelling the representative of `x` or `y` as that of
  the other represents the classes joined by the edge `(x, y)`.
* `Representatives.Represents.erase` — deleting the class named `c` leaves its members related
  only to themselves.
-/

namespace Representatives

variable {α : Type*}

/-- `f` represents the classes of `R`: two elements with a representative have the same one
exactly when they are related, an element without one is related only to itself, and a
representative represents itself. -/
structure Represents (f : α → Option α) (R : α → α → Prop) : Prop where
  eq_iff : ∀ a b, (f a).isSome → (f a = f b ↔ R a b)
  eq_of_none : ∀ a b, f a = none → R a b → a = b
  rep_self : ∀ a q, f a = some q → f q = some q

/-- A representative function of `R` represents every relation with the same graph. -/
lemma Represents.of_iff {f : α → Option α} {R S : α → α → Prop} (h : Represents f R)
    (hRS : ∀ a b, R a b ↔ S a b) : Represents f S :=
  ⟨fun a b ha => (h.eq_iff a b ha).trans (hRS a b),
    fun a b ha hab => h.eq_of_none a b ha ((hRS a b).mpr hab), h.rep_self⟩

variable [DecidableEq α]

/-! ### Adding a singleton -/

/-- The representatives of `f` extended by the singleton `x` when `f` has none for it. -/
def withSingleton (f : α → Option α) (x z : α) : Option α :=
  match f z with
  | some r => some r
  | none => if z = x then some x else none

@[simp]
lemma withSingleton_of_some {f : α → Option α} {x z r : α} (h : f z = some r) :
    withSingleton f x z = some r := by
  simp [withSingleton, h]

lemma withSingleton_of_none {f : α → Option α} {x z : α} (h : f z = none) :
    withSingleton f x z = if z = x then some x else none := by
  simp [withSingleton, h]

lemma withSingleton_eq_self {f : α → Option α} {x : α} (hx : (f x).isSome) :
    withSingleton f x = f := by
  funext z
  cases hz : f z with
  | some r => exact withSingleton_of_some hz
  | none =>
    rw [withSingleton_of_none hz, if_neg]
    rintro rfl
    simp [hz] at hx

/-- **A fresh singleton keeps the classes.** An element without a representative is related
only to itself, so it may become its own representative.

**Proof sketch.** If `f x` is defined nothing changes. Otherwise `x` is no representative (a
representative represents itself), so the new value `some x` is shared with no other element,
and `x` is related to no other element. -/
lemma Represents.withSingleton {f : α → Option α} {R : α → α → Prop} (h : Represents f R)
    (hR : Equivalence R) (x : α) : Represents (withSingleton f x) R := by
  cases hx : f x with
  | some r => rwa [withSingleton_eq_self (by simp [hx])]
  | none =>
    -- no element has `x` as its representative
    have hnx : ∀ a, f a ≠ some x := fun a ha => by simp [h.rep_self a x ha] at hx
    have hval : ∀ z, z ≠ x → Representatives.withSingleton f x z = f z := by
      intro z hz
      cases hfz : f z with
      | some r => exact withSingleton_of_some hfz
      | none => rw [withSingleton_of_none hfz, if_neg hz]
    have hgx : Representatives.withSingleton f x x = some x := by
      rw [withSingleton_of_none hx, if_pos rfl]
    refine ⟨fun a b ha => ?_, fun a b ha hab => ?_, fun a q ha => ?_⟩
    · by_cases hax : a = x
      · subst hax
        rw [hgx]
        by_cases hbx : b = a
        · subst hbx
          simp [hgx, hR.refl b]
        · rw [hval b hbx]
          exact ⟨fun hb => absurd hb.symm (hnx b),
            fun hab => absurd (h.eq_of_none a b hx hab).symm hbx⟩
      · rw [hval a hax] at ha ⊢
        by_cases hbx : b = x
        · subst hbx
          rw [hgx]
          exact ⟨fun hab => absurd hab (hnx a),
            fun hab => absurd (h.eq_of_none b a hx (hR.symm hab)).symm hax⟩
        · rw [hval b hbx]
          exact h.eq_iff a b ha
    · by_cases hax : a = x
      · rw [hax, hgx] at ha
        cases ha
      · rw [hval a hax] at ha
        exact h.eq_of_none a b ha hab
    · by_cases hax : a = x
      · rw [hax, hgx] at ha
        rw [← Option.some.inj ha]
        exact hgx
      · rw [hval a hax] at ha
        have hqx : q ≠ x := fun hqx => hnx a (hqx ▸ ha)
        rw [hval q hqx]
        exact h.rep_self a q ha

/-! ### Joining two classes -/

/-- The renaming of the representative `lo` to `hi`. -/
def relabel (lo hi q : α) : α := if q = lo then hi else q

@[simp]
lemma relabel_self (a q : α) : relabel a a q = q := by
  by_cases h : q = a <;> simp [relabel, h]

/-- After relabelling, two defined values agree when they agreed before, or when both were
`lo` or `hi`. -/
lemma map_relabel_eq_iff {lo hi : α} {p : α} (o : Option α) :
    (some p).map (relabel lo hi) = o.map (relabel lo hi) ↔
      some p = o ∨ ((some p = some lo ∨ some p = some hi) ∧ (o = some lo ∨ o = some hi)) := by
  cases o with
  | none => simp
  | some q =>
    simp only [Option.map_some, Option.some.injEq, relabel]
    by_cases hp : p = lo <;> by_cases hq : q = lo <;> simp [hp, hq] <;> grind

/-- **Joining two classes.** If `x` and `y` have the representatives `hi` and `lo` (in either
order), renaming `lo` to `hi` represents the classes of `R` joined by the edge `(x, y)` (the
relation `EqvClosure.Joined` when `R` is a closure).

**Proof sketch.** The renamed values of `a` and `b` agree exactly when the old ones agree or
both lie in `{lo, hi}`, that is, when `R a b` or each of `a` and `b` is related to `x` or `y`;
by transitivity that is the joined relation. -/
lemma Represents.relabel {f : α → Option α} {R : α → α → Prop} (h : Represents f R)
    (hR : Equivalence R) {x y hi lo : α}
    (hxy : (f x = some hi ∧ f y = some lo) ∨ (f x = some lo ∧ f y = some hi)) :
    Represents (fun z => (f z).map (Representatives.relabel lo hi))
      (fun a b => R a b ∨ (R a x ∧ R y b) ∨ (R a y ∧ R x b)) := by
  have hfx : (f x).isSome := by rcases hxy with ⟨h₁, -⟩ | ⟨h₁, -⟩ <;> simp [h₁]
  have hfy : (f y).isSome := by rcases hxy with ⟨-, h₂⟩ | ⟨-, h₂⟩ <;> simp [h₂]
  -- the elements whose value is `lo` or `hi` are those of the classes of `x` and `y`
  have hpair : ∀ z, (f z = some lo ∨ f z = some hi) ↔ (f x = f z ∨ f y = f z) := by
    intro z
    rcases hxy with ⟨h₁, h₂⟩ | ⟨h₁, h₂⟩ <;> rw [h₁, h₂] <;> grind
  refine ⟨fun a b ha => ?_, fun a b ha hab => ?_, fun a q ha => ?_⟩
  · simp only [Option.isSome_map] at ha
    obtain ⟨p, hp⟩ := Option.isSome_iff_exists.mp ha
    rw [hp, map_relabel_eq_iff, ← hp, hpair a, hpair b, h.eq_iff a b ha, h.eq_iff x a hfx,
      h.eq_iff y a hfy, h.eq_iff x b hfx, h.eq_iff y b hfy]
    constructor
    · rintro (hab | ⟨hxa | hya, hxb | hyb⟩)
      · exact .inl hab
      · exact .inl (hR.trans (hR.symm hxa) hxb)
      · exact .inr (.inl ⟨hR.symm hxa, hyb⟩)
      · exact .inr (.inr ⟨hR.symm hya, hxb⟩)
      · exact .inl (hR.trans (hR.symm hya) hyb)
    · rintro (hab | ⟨hax, hyb⟩ | ⟨hay, hxb⟩)
      · exact .inl hab
      · exact .inr ⟨.inl (hR.symm hax), .inr hyb⟩
      · exact .inr ⟨.inr (hR.symm hay), .inl hxb⟩
  · simp only [Option.map_eq_none_iff] at ha
    -- an element without a representative is related neither to `x` nor to `y`
    have hnx : ∀ c, (f c).isSome → ¬ R a c := fun c hc hac => by
      rw [← h.eq_of_none a c ha hac, ha] at hc
      cases hc
    rcases hab with hab | ⟨hax, -⟩ | ⟨hay, -⟩
    · exact h.eq_of_none a b ha hab
    · exact absurd hax (hnx x hfx)
    · exact absurd hay (hnx y hfy)
  · simp only [Option.map_eq_some_iff] at ha
    obtain ⟨p, hp, rfl⟩ := ha
    simp only [Representatives.relabel]
    by_cases hpl : p = lo
    · -- `lo` is renamed to `hi`, which is itself a representative
      have hhi : f hi = some hi := by
        rcases hxy with ⟨h₁, -⟩ | ⟨-, h₂⟩
        · exact h.rep_self x hi h₁
        · exact h.rep_self y hi h₂
      simp [hpl, hhi, Representatives.relabel]
    · simp [hpl, h.rep_self a p hp, Representatives.relabel]

/-! ### Deleting a class -/

/-- **Deleting a class.** Forgetting the representative `c` leaves the other classes, and makes
each former member of `c`'s class related only to itself. -/
lemma Represents.erase {f : α → Option α} {R : α → α → Prop} (h : Represents f R) (c : α) :
    Represents (fun z => if f z = some c then none else f z)
      (fun a b => if f a = some c then a = b else R a b) := by
  refine ⟨fun a b ha => ?_, fun a b ha hab => ?_, fun a q ha => ?_⟩
  · have hac : f a ≠ some c := fun hac => by simp [hac] at ha
    simp only [hac, if_false] at ha ⊢
    by_cases hbc : f b = some c
    · -- `b` was deleted: its value is `none`, and `a` lies in another class
      rw [if_pos hbc]
      constructor
      · intro hab
        rw [hab] at ha
        cases ha
      · intro hab
        exact absurd (((h.eq_iff a b ha).mpr hab).trans hbc) hac
    · rw [if_neg hbc]
      exact h.eq_iff a b ha
  · by_cases hac : f a = some c
    · simpa [hac] using hab
    · simp only [hac, if_false] at ha hab
      exact h.eq_of_none a b ha hab
  · have hac : f a ≠ some c := fun hac => by simp [hac] at ha
    simp only [hac, if_false] at ha
    have hqc : f q ≠ some c := by
      rw [h.rep_self a q ha]
      rintro hqc
      exact hac (ha.trans hqc)
    simp only [hqc, if_false]
    exact h.rep_self a q ha

end Representatives
