import Cranelift.Isle.DisjointSets
import Cranelift.Lib.EqvClosure

/-!
# `DisjointSets` implements the classes of the merged pairs

What `DisjointSets` is for, stated without parent links: it keeps the pairs that were merged,
and its sets are the classes of the equivalence closure of those pairs; `remove_set_of` drops
the pairs of one class. This file states that abstract model and proves that every sequence of
calls on the Rust structure, starting from the empty map, simulates it.

## Main definitions

* `Cranelift.Isle.DisjointSets.Op` — one mutating call: `merge` (with its precondition
  `x != y`), `find_mut` or `remove_set_of`.
* `Cranelift.Isle.DisjointSets.run` — the calls applied in order; `none` is a panic.
* `Cranelift.Isle.DisjointSets.specRun` — the same calls on the abstract list of live pairs.
* `Cranelift.Isle.DisjointSets.Refines` — the simulation relation.

## Main results

* `Cranelift.Isle.DisjointSets.Refines.apply` — one call keeps the simulation.
* `Cranelift.Isle.DisjointSets.run_refines` — every run keeps it.
* `Cranelift.Isle.DisjointSets.unionFind_run_correct` — what every caller observes after any run.
-/

namespace Cranelift.Isle

namespace DisjointSets

open EqvClosure Representatives Relation

/-- One mutating call on a `DisjointSets`. `merge` carries its precondition: the Rust method
asserts `x != y`. -/
inductive Op (α : Type) where
  | merge (x y : α) (hxy : x ≠ y)
  | findMut (x : α)
  | removeSetOf (x : α)

variable {α : Type} [LinearOrder α]

/-- The map after one call; `none` is a panic. -/
def Op.apply : Op α → DisjointSets α → Option (DisjointSets α)
  | .merge x y _, s => s.merge x y
  | .findMut x, s => (s.findMut x).map Prod.snd
  | .removeSetOf x, s => (s.removeSetOf x).map Prod.snd

/-- The map after a sequence of calls. -/
def run : List (Op α) → DisjointSets α → Option (DisjointSets α)
  | [], s => some s
  | op :: ops, s => (op.apply s).bind (run ops)

/-! ### The abstract model -/

/-- One call on the list of live merged pairs. -/
noncomputable def Op.spec : Op α → List (α × α) → List (α × α)
  | .merge x y _, P => (x, y) :: P
  | .findMut _, P => P
  | .removeSetOf x, P => eraseClass P x

/-- A sequence of calls on the list of live merged pairs. -/
noncomputable def specRun : List (Op α) → List (α × α) → List (α × α)
  | [], P => P
  | op :: ops, P => specRun ops (op.spec P)

/-- The simulation: the map is well formed, its members are the elements of the live pairs, and
`find` represents the classes of their closure. -/
structure Refines (s : DisjointSets α) (P : List (α × α)) : Prop where
  wellFormed : s.WellFormed
  mem_iff : ∀ a, a ∈ s.parent ↔ a ∈ support P
  represents : Represents s.find (EqvGen (PairRel P))

/-! ### Observations -/

section Observations

variable {s : DisjointSets α} {P : List (α × α)}

lemma Refines.find_isSome_iff (h : Refines s P) (a : α) :
    (s.find a).isSome ↔ a ∈ support P := by
  rw [← h.mem_iff, Option.isSome_iff_ne_none, Ne, find_eq_none_iff h.wellFormed, not_not]

/-- `in_same_set` decides the closure of the live pairs, on their elements. -/
lemma Refines.inSameSet_iff (h : Refines s P) (a b : α) :
    s.inSameSet a b = true ↔ a ∈ support P ∧ EqvGen (PairRel P) a b := by
  rw [← h.find_isSome_iff]
  cases ha : s.find a with
  | none => simp [inSameSet, ha]
  | some p =>
    rw [← h.represents.eq_iff a b (by simp [ha]), ha]
    cases hb : s.find b <;> simp [inSameSet, ha, hb]

/-- `len` counts the elements of the live pairs. -/
lemma Refines.len_eq (h : Refines s P) : s.len = (support P).card := by
  rw [len_eq_card]
  congr 1
  ext a
  rw [List.mem_toFinset, ← AList.mem_keys, h.mem_iff]

end Observations

/-! ### One call -/

section Step

variable {s : DisjointSets α} {P : List (α × α)}

lemma refines_empty : Refines (empty : DisjointSets α) [] := by
  have hn : ∀ w, (empty : DisjointSets α).next w = none := fun _ => rfl
  have hw : (empty : DisjointSets α).WellFormed := by
    refine ⟨fun w _ h => ?_, fun _ => 0, fun w _ h _ => ?_⟩ <;> rw [hn w] at h <;> cases h
  have hf : ∀ a, (empty : DisjointSets α).find a = none := fun a =>
    (find_eq_none_iff hw).mpr (by simp [empty])
  refine ⟨hw, fun a => by simp [empty, support], ⟨fun a _ ha => by simp [hf a] at ha,
    fun a b _ hab => ?_, fun a q ha => by simp [hf a] at ha⟩⟩
  rcases eq_or_mem_support hab with hab | ⟨ha, -⟩
  · exact hab
  · simp [support] at ha

/-- `find_mut` returns the representative and keeps the simulation. -/
lemma Refines.findMut (h : Refines s P) (x : α) :
    ∃ s', s.findMut x = some (s.find x, s') ∧ Refines s' P := by
  obtain ⟨s', hs', hsame, hw'⟩ := findMut_spec h.wellFormed x
  have hfind : s'.find = s.find := hsame.find_eq h.wellFormed hw'
  exact ⟨s', hs', hw', fun a => hsame.mem_iff.trans (h.mem_iff a), hfind ▸ h.represents⟩

/-- **`merge` simulates adding a pair.**

**Proof sketch.** `merge_spec` describes the new `find` as the old one with singletons added
for `x` and `y` and one root relabelled as the other; `Represents.withSingleton` and
`Represents.relabel` show that this represents the old classes joined by `(x, y)`, which is
the closure of the enlarged list by `eqvGen_cons_iff`. -/
lemma Refines.merge (h : Refines s P) {x y : α} (hxy : x ≠ y) :
    ∃ s', s.merge x y = some s' ∧ Refines s' ((x, y) :: P) := by
  have hE := EqvGen.is_equivalence (PairRel P)
  obtain ⟨s', hs', hw', hmem, hi, lo, hends, hfind⟩ := merge_spec h.wellFormed hxy
  have hrep := ((h.represents.withSingleton hE x).withSingleton hE y).relabel hE hends
  have hfind' : s'.find = fun z =>
      (withSingleton (withSingleton s.find x) y z).map (relabel lo hi) := funext hfind
  refine ⟨s', hs', hw', fun a => ?_, hfind' ▸ hrep.of_iff fun a b => eqvGen_cons_iff.symm⟩
  rw [hmem, h.mem_iff, support_cons, Finset.mem_insert, Finset.mem_insert]
  tauto

/-- **`remove_set_of` simulates deleting a class.** It returns the class of `x` in strictly
increasing order, and every element outside it keeps its representative.

**Proof sketch.** By `removeSetOf_spec`, the returned list holds the elements with the
representative `r` of `x`, which are the elements of the class of `x`; the new `find` forgets
`r`, which by `Represents.erase` represents the closure of `eraseClass P x`. When `x` is in no
set, nothing changes on either side. -/
lemma Refines.removeSetOf (h : Refines s P) (x : α) :
    ∃ set s', s.removeSetOf x = some (set, s') ∧ set.Pairwise (· < ·) ∧
      (∀ z, z ∈ set ↔ x ∈ support P ∧ EqvGen (PairRel P) x z) ∧
      (∀ z, s'.find z = if z ∈ set then none else s.find z) ∧ Refines s' (eraseClass P x) := by
  obtain ⟨set, s', hs', hw', hsorted, hset, hmem', hfind'⟩ := removeSetOf_spec h.wellFormed x
  -- the returned list is the class of `x`
  have hclass : ∀ z, z ∈ set ↔ x ∈ support P ∧ EqvGen (PairRel P) x z := by
    intro z
    rw [hset, ← h.find_isSome_iff]
    cases hx : s.find x with
    | none => simp
    | some r =>
      rw [← h.represents.eq_iff x z (by simp [hx]), hx]
      simp [eq_comm]
  refine ⟨set, s', hs', hsorted, hclass, hfind', hw', fun a => ?_, ?_⟩
  · rw [hmem', h.mem_iff, mem_support_eraseClass, hclass]
    -- an element of a pair that is related to `x` puts `x` in a pair too
    have hxP : a ∈ support P → EqvGen (PairRel P) a x → x ∈ support P := by
      intro ha hax
      rcases eq_or_mem_support hax with rfl | ⟨-, hx⟩
      · exact ha
      · exact hx
    constructor
    · rintro ⟨ha, hn⟩
      exact ⟨ha, fun hax => hn ⟨hxP ha hax, EqvGen.symm _ _ hax⟩⟩
    · rintro ⟨ha, hn⟩
      exact ⟨ha, fun ⟨_, hxa⟩ => hn (EqvGen.symm _ _ hxa)⟩
  · cases hx : s.find x with
    | none =>
      -- `x` is in no set: the returned list is empty and nothing is deleted
      have hxP : x ∉ support P := by rw [← h.find_isSome_iff]; simp [hx]
      have hempty : ∀ z, z ∉ set := fun z hz => hxP ((hclass z).mp hz).1
      have hfind : s'.find = s.find := funext fun z => by rw [hfind', if_neg (hempty z)]
      rw [eraseClass_eq_self hxP, hfind]
      exact h.represents
    | some r =>
      have hxP : x ∈ support P := (h.find_isSome_iff x).mp (by simp [hx])
      -- the members of the class of `x` are those with the representative `r`
      have hr : ∀ z, s.find z = some r ↔ EqvGen (PairRel P) z x := by
        intro z
        rw [← hx, eq_comm, h.represents.eq_iff x z (by simp [hx])]
        exact ⟨EqvGen.symm _ _, EqvGen.symm _ _⟩
      have hfind : s'.find = fun z => if s.find z = some r then none else s.find z := by
        funext z
        rw [hfind']
        by_cases hz : z ∈ set
        · rw [if_pos hz, if_pos ((hr z).mpr ((hclass z).mp hz).2.symm)]
        · rw [if_neg hz, if_neg fun hzr => hz ((hclass z).mpr ⟨hxP, ((hr z).mp hzr).symm⟩)]
      rw [hfind]
      refine (h.represents.erase r).of_iff fun a b => ?_
      by_cases hax : EqvGen (PairRel P) a x
      · rw [if_pos ((hr a).mpr hax)]
        exact ⟨fun hab => hab ▸ EqvGen.refl a, eq_of_eqvGen_eraseClass hax⟩
      · rw [if_neg (fun h' => hax ((hr a).mp h')), eqvGen_eraseClass_iff hax]

/-- **One call keeps the simulation**, and never panics. -/
lemma Refines.apply (h : Refines s P) :
    ∀ op : Op α, ∃ s', op.apply s = some s' ∧ Refines s' (op.spec P)
  | .merge x y hxy => h.merge hxy
  | .findMut x => by
    obtain ⟨s', hs', h'⟩ := h.findMut x
    exact ⟨s', by simp [Op.apply, hs'], h'⟩
  | .removeSetOf x => by
    obtain ⟨set, s', hs', -, -, -, h'⟩ := h.removeSetOf x
    exact ⟨s', by simp [Op.apply, hs'], h'⟩

end Step

/-! ### Runs -/

/-- **Every run keeps the simulation**, and never panics. Induction on the calls, one
`Refines.apply` each. -/
lemma run_refines :
    ∀ (ops : List (Op α)) {s : DisjointSets α} {P : List (α × α)}, Refines s P →
      ∃ s', run ops s = some s' ∧ Refines s' (specRun ops P)
  | [], s, _, h => ⟨s, rfl, h⟩
  | op :: ops, _, _, h => by
    obtain ⟨s₁, h₁, hr₁⟩ := h.apply op
    obtain ⟨s', h', hr'⟩ := run_refines ops hr₁
    exact ⟨s', by simp [run, h₁, h'], hr'⟩

/-- **Union-find correctness.** After any sequence of `merge` (of distinct elements),
`find_mut` and `remove_set_of` calls from the empty structure, with `P` the merged pairs of
the classes not removed: nothing has panicked; `find` and `find_mut` agree, and are defined
exactly on the elements of `P`; `in_same_set` is the equivalence closure of `P` on those
elements; `remove_set_of x` returns the class of `x` sorted and leaves the representative of
every other element; and `len` counts the elements of `P`. -/
theorem unionFind_run_correct (ops : List (Op α)) :
    ∃ s, run ops empty = some s ∧
      (∀ a, ∃ s', s.findMut a = some (s.find a, s')) ∧
      (∀ a, (s.find a).isSome ↔ a ∈ support (specRun ops [])) ∧
      (∀ a b, s.inSameSet a b = true ↔
        a ∈ support (specRun ops []) ∧ EqvGen (PairRel (specRun ops [])) a b) ∧
      (∀ x, ∃ set s', s.removeSetOf x = some (set, s') ∧ set.Pairwise (· < ·) ∧
        (∀ z, z ∈ set ↔
          x ∈ support (specRun ops []) ∧ EqvGen (PairRel (specRun ops [])) x z) ∧
        ∀ z, s'.find z = if z ∈ set then none else s.find z) ∧
      s.len = (support (specRun ops [])).card := by
  obtain ⟨s, hs, h⟩ := run_refines ops refines_empty
  refine ⟨s, hs, fun a => ?_, h.find_isSome_iff, h.inSameSet_iff, fun x => ?_, h.len_eq⟩
  · obtain ⟨s', hs', -⟩ := h.findMut a
    exact ⟨s', hs'⟩
  · obtain ⟨set, s', hs', hsorted, hclass, hfind, -⟩ := h.removeSetOf x
    exact ⟨set, s', hs', hsorted, hclass, hfind⟩

end DisjointSets

end Cranelift.Isle
