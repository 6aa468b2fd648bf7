import Mathlib.Data.List.Perm.Basic
import Cranelift.Lib.Loops
import Cranelift.Isle.TrieAgain

/-!
# Partitioning rules in place

A model of two helpers of `cranelift/isle/isle/src/serialize.rs` that order the rules of a term
for code generation: `partition_in_place`, which moves the elements of a slice that satisfy a
predicate to its front, and `respect_priority`, which uses it to keep in the selected prefix of
an order of rules only those whose priority is at least that of every deferred rule.

## Main definitions

* `Cranelift.Isle.Serialize.partitionInPlace` — `partition_in_place`, from its two loops
  `frontLoop` and `backLoop`.
* `Cranelift.Isle.Serialize.respectPriority` — `respect_priority`.

## Main results

* `Cranelift.Isle.Serialize.partitionInPlace_spec` — the result is a permutation of the input,
  the returned point splits it into the elements that pass and the elements that fail, and the
  predicate is called once per element.
* `Cranelift.Isle.Serialize.partitionInPlace_of_all`,
  `Cranelift.Isle.Serialize.partitionInPlace_of_none` — when every element passes, or none does,
  the slice is left as it is.
* `Cranelift.Isle.Serialize.respectPriority_spec` — the new partition point is at most the old
  one, and every rule left selected has a priority at least that of every deferred rule.

## Design

`partition_in_place` walks the slice with one double-ended iterator. The state of its loops is
three lists, the processed front, the middle that the iterator has still to yield, and the
processed back, and the slice is always their concatenation: `next` takes the head of the middle
and `next_back` its last element, so the inner loop runs over the reversed middle. The number of
calls of the predicate, which the source does not return, is counted in the state. The outer
loop takes the length of the slice as fuel, which never runs out (`frontLoop_spec`).

In `respect_priority` the predicate indexes `rules.rules`, which panics on an index out of range.
Since `partition_in_place` calls the predicate on every element, that panic happens exactly when
a selected index is out of range: the model checks those first and runs a total predicate. A
panic is `none`.
-/

namespace Cranelift.Isle.Serialize

open TrieAgain

section Partition

variable {T : Type*} (pred : T → Bool)

/-- The inner loop of `partition_in_place`, `while let Some(b) = iter.next_back()`, over the
reversed middle: an element that fails `pred` joins the processed back, and the first that passes
is returned to be swapped. Returns it, the rest of the reversed middle, the back and the count of
calls of `pred`. -/
def backLoop : List T → List T → ℕ → Option T × List T × List T × ℕ
  | [], back, calls => (none, [], back, calls)
  | b :: rmid, back, calls =>
    if pred b then (some b, rmid, back, calls + 1)
    else backLoop rmid (b :: back) (calls + 1)

/-- The outer loop of `partition_in_place`, `while let Some(a) = iter.next()`, on the processed
front, the middle and the processed back, with the partition point and the count of calls of
`pred`. Returns the slice, the partition point and the count. -/
def frontLoop : ℕ → List T → List T → List T → ℕ → ℕ → List T × ℕ × ℕ
  | 0, front, mid, back, partitionPoint, calls => (front ++ mid ++ back, partitionPoint, calls)
  | _ + 1, front, [], back, partitionPoint, calls => (front ++ back, partitionPoint, calls)
  | fuel + 1, front, a :: mid, back, partitionPoint, calls =>
    if pred a then frontLoop fuel (front ++ [a]) mid back (partitionPoint + 1) (calls + 1)
    else
      match backLoop pred mid.reverse back (calls + 1) with
      -- `std::mem::swap(a, b)`: `b` takes the place of `a`, and `a` that of `b`, right before
      -- the elements the inner loop has passed over
      | (some b, rmid, back, calls) =>
        frontLoop fuel (front ++ [b]) rmid.reverse (a :: back) (partitionPoint + 1) calls
      -- the iterator is exhausted, and `a` stays where it is, first of the back
      | (none, rmid, back, calls) =>
        frontLoop fuel front rmid.reverse (a :: back) partitionPoint calls

/-- `partition_in_place`: the slice after the call, the returned partition point, and the
number of calls of `pred`. -/
def partitionInPlace (xs : List T) : List T × ℕ × ℕ :=
  frontLoop pred xs.length [] xs [] 0 0

/-- What the inner loop does: it passes over the elements that fail `pred`, and it either stops
at the first that passes or exhausts the middle. -/
theorem backLoop_spec (rmid back : List T) (calls : ℕ) :
    (∃ skipped b rest, rmid = skipped ++ b :: rest ∧ (∀ x ∈ skipped, pred x = false) ∧
        pred b = true ∧ backLoop pred rmid back calls =
          (some b, rest, skipped.reverse ++ back, calls + skipped.length + 1)) ∨
      ((∀ x ∈ rmid, pred x = false) ∧
        backLoop pred rmid back calls = (none, [], rmid.reverse ++ back, calls + rmid.length)) := by
  induction rmid generalizing back calls with
  | nil => exact .inr ⟨by simp, by simp [backLoop]⟩
  | cons b rmid ih =>
    by_cases hb : pred b = true
    · exact .inl ⟨[], b, rmid, rfl, by simp, hb, by simp [backLoop, hb]⟩
    · have hb' : pred b = false := by simpa using hb
      rcases ih (b :: back) (calls + 1) with ⟨skipped, c, rest, rfl, hskip, hc, h⟩ | ⟨hall, h⟩
      · refine .inl ⟨b :: skipped, c, rest, rfl, ?_, hc, ?_⟩
        · simpa [hb'] using hskip
        · simp only [backLoop, hb', h, List.reverse_cons, List.append_assoc, List.length_cons]
          simp only [Bool.false_eq_true, ↓reduceIte, List.cons_append, List.nil_append,
            Prod.mk.injEq, true_and]
          omega
      · refine .inr ⟨by simpa [hb'] using hall, ?_⟩
        simp only [backLoop, hb', h, Bool.false_eq_true, ↓reduceIte, List.reverse_cons,
          List.append_assoc, List.cons_append, List.nil_append, List.length_cons, Prod.mk.injEq,
          true_and]
        omega

/-- The inner loop over a middle whose elements all fail exhausts it. -/
theorem backLoop_of_none {rmid : List T} (h : ∀ x ∈ rmid, pred x = false) (back : List T)
    (calls : ℕ) :
    backLoop pred rmid back calls = (none, [], rmid.reverse ++ back, calls + rmid.length) := by
  rcases backLoop_spec pred rmid back calls with ⟨skipped, b, rest, rfl, -, hb, -⟩ | ⟨-, h'⟩
  · have : pred b = false := h b (by simp)
    simp [hb] at this
  · exact h'

@[simp]
theorem frontLoop_nil (fuel : ℕ) (front back : List T) (partitionPoint calls : ℕ) :
    frontLoop pred fuel front [] back partitionPoint calls = (front ++ back, partitionPoint, calls) := by
  cases fuel <;> simp [frontLoop]

/-- The invariant of the outer loop on an input `xs`: the slice is a permutation of `xs`, both
processed ends are partitioned, the partition point is the length of the front, and every
element taken from the iterator has been passed to `pred` once. -/
structure PartitionInv (xs front mid back : List T) (partitionPoint calls : ℕ) : Prop where
  perm : (front ++ mid ++ back).Perm xs
  front_true : ∀ x ∈ front, pred x = true
  back_false : ∀ x ∈ back, pred x = false
  point_eq : partitionPoint = front.length
  calls_eq : calls + mid.length = xs.length

open List in
/-- The swap of `partition_in_place` exchanges two elements, keeping a permutation. -/
theorem perm_swap_around (a b : T) (l back : List T) :
    (b :: (l ++ a :: back)).Perm (a :: (l ++ b :: back)) :=
  calc (b :: (l ++ a :: back)).Perm (b :: a :: (l ++ back)) := List.Perm.cons b List.perm_middle
    _ ~ a :: b :: (l ++ back) := List.Perm.swap a b _
    _ ~ a :: (l ++ b :: back) := List.Perm.cons a List.perm_middle.symm

theorem PartitionInv.init (xs : List T) : PartitionInv pred xs [] xs [] 0 0 where
  perm := by simp
  front_true := by simp
  back_false := by simp
  point_eq := rfl
  calls_eq := by simp

/-- **One iteration of the outer loop** keeps the invariant and takes at least one element from
the middle. -/
theorem frontLoop_step {xs front mid back : List T} {a : T} {partitionPoint calls : ℕ}
    (hinv : PartitionInv pred xs front (a :: mid) back partitionPoint calls) :
    ∃ front' mid' back' partitionPoint' calls', mid'.length ≤ mid.length ∧
      PartitionInv pred xs front' mid' back' partitionPoint' calls' ∧
      ∀ fuel, frontLoop pred (fuel + 1) front (a :: mid) back partitionPoint calls =
        frontLoop pred fuel front' mid' back' partitionPoint' calls' := by
  by_cases ha : pred a = true
  · refine ⟨front ++ [a], mid, back, partitionPoint + 1, calls + 1, le_refl _, ?_, ?_⟩
    · refine ⟨by simpa using hinv.perm, ?_, hinv.back_false, by simp [hinv.point_eq], ?_⟩
      · intro x hx
        rcases List.mem_append.mp hx with hx | hx
        · exact hinv.front_true x hx
        · rw [List.mem_singleton.mp hx]
          exact ha
      · have := hinv.calls_eq
        simp only [List.length_cons] at this
        omega
    · intro fuel
      simp [frontLoop, ha]
  · have ha' : pred a = false := by simpa using ha
    rcases backLoop_spec pred mid.reverse back (calls + 1) with
      ⟨skipped, b, rest, hmid, hskip, hb, hback⟩ | ⟨hall, hback⟩
    · -- the inner loop finds `b` and the two are swapped
      have hmid' : mid = rest.reverse ++ b :: skipped.reverse := by
        simpa using congrArg List.reverse hmid
      have hlen : mid.length = rest.length + skipped.length + 1 := by
        simp [hmid']
        omega
      refine ⟨front ++ [b], rest.reverse, a :: (skipped.reverse ++ back), partitionPoint + 1,
        calls + 1 + skipped.length + 1, by rw [List.length_reverse, hlen]; omega,
        ⟨?_, ?_, ?_, ?_, ?_⟩, ?_⟩
      · refine List.Perm.trans ?_ hinv.perm
        simpa [hmid'] using List.Perm.append_left front
          (perm_swap_around a b rest.reverse (skipped.reverse ++ back))
      · intro x hx
        rcases List.mem_append.mp hx with hx | hx
        · exact hinv.front_true x hx
        · rw [List.mem_singleton.mp hx]
          exact hb
      · intro x hx
        simp only [List.mem_cons, List.mem_append, List.mem_reverse] at hx
        rcases hx with rfl | hx | hx
        · exact ha'
        · exact hskip x hx
        · exact hinv.back_false x hx
      · simp [hinv.point_eq]
      · have := hinv.calls_eq
        simp only [List.length_cons, List.length_reverse] at this ⊢
        omega
      · intro fuel
        simp [frontLoop, ha', hback]
    · -- the inner loop exhausts the middle: `a` and all of it fail
      refine ⟨front, [], a :: (mid ++ back), partitionPoint, calls + 1 + mid.length,
        by simp, ⟨?_, hinv.front_true, ?_, hinv.point_eq, ?_⟩, ?_⟩
      · simpa using hinv.perm
      · intro x hx
        simp only [List.mem_cons, List.mem_append] at hx
        rcases hx with rfl | hx | hx
        · exact ha'
        · exact hall x (List.mem_reverse.mpr hx)
        · exact hinv.back_false x hx
      · have := hinv.calls_eq
        simp only [List.length_cons, List.length_nil] at this ⊢
        omega
      · intro fuel
        simp [frontLoop, ha', hback]

/-- **The run of the outer loop**, by induction on the fuel: with enough fuel the loop exhausts
the middle, keeping the invariant. -/
theorem frontLoop_spec {xs : List T} :
    ∀ (fuel : ℕ) {front mid back : List T} {partitionPoint calls : ℕ}, mid.length ≤ fuel →
      PartitionInv pred xs front mid back partitionPoint calls →
      ∃ front' back' partitionPoint' calls',
        frontLoop pred fuel front mid back partitionPoint calls =
          (front' ++ back', partitionPoint', calls') ∧
        PartitionInv pred xs front' [] back' partitionPoint' calls'
  | 0, front, mid, back, partitionPoint, calls, hfuel, hinv => by
    obtain rfl : mid = [] := List.eq_nil_of_length_eq_zero (by omega)
    exact ⟨front, back, partitionPoint, calls, by simp [frontLoop], hinv⟩
  | fuel + 1, front, [], back, partitionPoint, calls, _, hinv =>
    ⟨front, back, partitionPoint, calls, frontLoop_nil pred _ _ _ _ _, hinv⟩
  | fuel + 1, front, a :: mid, back, partitionPoint, calls, hfuel, hinv => by
    obtain ⟨front', mid', back', partitionPoint', calls', hlen, hinv', heq⟩ :=
      frontLoop_step pred hinv
    rw [heq fuel]
    exact frontLoop_spec fuel (by simp at hfuel; omega) hinv'

/-- **`partition_in_place` partitions**: the slice after the call is a permutation of the input,
`pred` holds exactly on the elements before the returned point, and `pred` was called once per
element. -/
theorem partitionInPlace_spec {xs ys : List T} {k calls : ℕ}
    (h : partitionInPlace pred xs = (ys, k, calls)) :
    ys.Perm xs ∧ k ≤ ys.length ∧ (∀ i (hi : i < ys.length), pred ys[i] = decide (i < k)) ∧
      calls = xs.length := by
  obtain ⟨front, back, k', calls', heq, hinv⟩ :=
    frontLoop_spec pred xs.length (le_refl _) (PartitionInv.init pred xs)
  rw [partitionInPlace, heq, Prod.mk.injEq, Prod.mk.injEq] at h
  obtain ⟨rfl, rfl, rfl⟩ := h
  refine ⟨by simpa using hinv.perm, by simp [hinv.point_eq], ?_, by simpa using hinv.calls_eq⟩
  intro i hi
  rw [List.getElem_append, hinv.point_eq]
  split_ifs with hfront
  · simpa [hfront] using hinv.front_true _ (List.getElem_mem hfront)
  · simpa [hfront] using hinv.back_false _ (List.getElem_mem _)

example : partitionInPlace (fun n : ℕ => n % 2 == 0) [1, 2, 3, 4] = ([4, 2, 3, 1], 2, 4) := rfl

/-- The outer loop over a middle whose elements all pass moves them, one by one, to the front. -/
theorem frontLoop_of_all :
    ∀ (fuel : ℕ) (front mid back : List T) (partitionPoint calls : ℕ), mid.length ≤ fuel →
      (∀ x ∈ mid, pred x = true) →
      frontLoop pred fuel front mid back partitionPoint calls =
        (front ++ mid ++ back, partitionPoint + mid.length, calls + mid.length)
  | 0, front, mid, back, partitionPoint, calls, hfuel, _ => by
    obtain rfl : mid = [] := List.eq_nil_of_length_eq_zero (by omega)
    simp [frontLoop]
  | fuel + 1, front, [], back, partitionPoint, calls, _, _ => by simp
  | fuel + 1, front, a :: mid, back, partitionPoint, calls, hfuel, hall => by
    have ha : pred a = true := hall a (by simp)
    rw [frontLoop, if_pos ha,
      frontLoop_of_all fuel _ mid back _ _ (by simp at hfuel; omega)
        (fun x hx => hall x (by simp [hx]))]
    simp only [List.append_assoc, List.cons_append, List.nil_append, List.length_cons,
      Prod.mk.injEq, true_and]
    omega

/-- When every element passes, `partition_in_place` leaves the slice as it is. -/
theorem partitionInPlace_of_all {xs : List T} (h : ∀ x ∈ xs, pred x = true) :
    partitionInPlace pred xs = (xs, xs.length, xs.length) := by
  simpa [partitionInPlace] using frontLoop_of_all pred xs.length [] xs [] 0 0 (le_refl _) h

/-- When no element passes, `partition_in_place` leaves the slice as it is: the first element
fails, and the inner loop exhausts the rest without finding one to swap it with. -/
theorem partitionInPlace_of_none {xs : List T} (h : ∀ x ∈ xs, pred x = false) :
    partitionInPlace pred xs = (xs, 0, xs.length) := by
  cases xs with
  | nil => rfl
  | cons a rest =>
    have ha : pred a = false := h a (by simp)
    have hrest : ∀ x ∈ rest.reverse, pred x = false := fun x hx => h x (by simp_all)
    simp only [partitionInPlace, List.length_cons, frontLoop, ha, Bool.false_eq_true,
      ↓reduceIte, backLoop_of_none pred hrest, List.reverse_nil, frontLoop_nil]
    simp only [List.reverse_reverse, List.append_nil, List.nil_append, List.length_reverse,
      Prod.mk.injEq, true_and]
    omega

end Partition

/-! ### `respect_priority` -/

/-- `rules.rules[idx].prio`, `none` where the index is out of range and the source panics. -/
def prio (rules : RuleSet) (idx : ℕ) : Option ℤ := rules.rules[idx]?.map Rule.prio

/-- `respect_priority`: the order after the call and the new partition point. -/
def respectPriority (rules : RuleSet) (order : List ℕ) (partitionPoint : ℕ) :
    Option (List ℕ × ℕ) :=
  -- `split_at_mut` panics past the end of `order`
  if order.length < partitionPoint then none
  else
    let selected := order.take partitionPoint
    let deferred := order.drop partitionPoint
    match deferred.mapM (prio rules) with
    | none => none
    | some deferredPrios =>
      match deferredPrios.max? with
      | some maxDeferredPrio =>
        -- the predicate indexes `rules.rules`, and it is called on every selected index
        if selected.all (· < rules.rules.length) then
          let (selected, k, _) := partitionInPlace
            (fun idx => decide (maxDeferredPrio ≤ (rules.rules.getD idx default).prio)) selected
          some (selected ++ deferred, k)
        else none
      | none => some (order, partitionPoint)

theorem prio_of_lt {rules : RuleSet} {idx : ℕ} (h : idx < rules.rules.length) :
    prio rules idx = some (rules.rules.getD idx default).prio := by
  simp [prio, List.getElem?_eq_getElem h]

/-- **`respect_priority` only defers**: it permutes the selected rules and leaves the deferred
ones in place, its new partition point is at most the old one, and every rule it leaves selected
has a priority at least that of every deferred rule. -/
theorem respectPriority_spec {rules : RuleSet} {order order' : List ℕ} {partitionPoint k : ℕ}
    (h : respectPriority rules order partitionPoint = some (order', k)) :
    order'.Perm order ∧ order'.drop partitionPoint = order.drop partitionPoint ∧
      k ≤ partitionPoint ∧ ∀ idx ∈ order'.take k, ∀ d ∈ order.drop partitionPoint,
        ∃ p q, prio rules idx = some p ∧ prio rules d = some q ∧ q ≤ p := by
  unfold respectPriority at h
  split_ifs at h with hlen
  dsimp only at h
  -- the priorities of the deferred rules were all read
  obtain ⟨prios, hprios⟩ : ∃ prios, (order.drop partitionPoint).mapM (prio rules) = some prios := by
    cases hm : (order.drop partitionPoint).mapM (prio rules) with
    | none => simp [hm] at h
    | some prios => exact ⟨prios, rfl⟩
  rw [hprios] at h
  simp only at h
  cases hmax : prios.max? with
  | none =>
    -- no deferred rule: nothing moves
    rw [hmax] at h
    obtain ⟨rfl, rfl⟩ := Prod.mk.inj (Option.some.inj h)
    have hnil : order.drop partitionPoint = [] := by
      have := List.length_of_mapM_eq_some hprios
      rw [List.max?_eq_none_iff.mp hmax] at this
      exact List.eq_nil_of_length_eq_zero this.symm
    exact ⟨List.Perm.refl _, rfl, le_refl _, by simp [hnil]⟩
  | some m =>
    rw [hmax] at h
    simp only at h
    split_ifs at h with hall
    generalize hpart : partitionInPlace _ (order.take partitionPoint) = r at h
    obtain ⟨selected, k', calls⟩ := r
    dsimp only at h
    obtain ⟨rfl, rfl⟩ := Prod.mk.inj (Option.some.inj h)
    obtain ⟨hperm, hk, hpred, -⟩ := partitionInPlace_spec _ hpart
    have hsel : selected.length = partitionPoint := by
      rw [hperm.length_eq, List.length_take]
      omega
    refine ⟨?_, by simp [← hsel], by omega, ?_⟩
    · simpa using List.Perm.append_right (order.drop partitionPoint) hperm
    · intro idx hidx d hd
      rw [List.take_append_of_le_length hk, List.mem_iff_getElem] at hidx
      obtain ⟨i, hi, rfl⟩ := hidx
      obtain ⟨hik, hilen⟩ : i < k' ∧ i < selected.length := by simpa using hi
      -- the selected rule passed the predicate, so its index was checked
      have hpass := hpred i hilen
      simp only [hik, decide_true, decide_eq_true_eq] at hpass
      have hin : (selected.take k')[i] < rules.rules.length := by
        have hmem : selected[i] ∈ order.take partitionPoint :=
          hperm.mem_iff.mp (List.getElem_mem hilen)
        simpa using (List.all_eq_true.mp hall) _ hmem
      obtain ⟨q, hq, hdq⟩ := List.exists_of_mapM_eq_some hprios d hd
      refine ⟨_, q, prio_of_lt hin, hdq, ?_⟩
      calc q ≤ m := (List.max?_eq_some_iff.mp hmax).2 q hq
        _ ≤ _ := by simpa using hpass

/-- `partition_in_place` partitions every slice, calls the predicate once per element and leaves
the slice as it is when one side is empty; and `respect_priority` keeps selected only rules whose
priority is at least that of every deferred rule. -/
theorem partitionInPlace_correct {T : Type*} (pred : T → Bool) {xs ys : List T} {k calls : ℕ}
    (h : partitionInPlace pred xs = (ys, k, calls)) {rules : RuleSet} {order order' : List ℕ}
    {partitionPoint k' : ℕ} (hr : respectPriority rules order partitionPoint = some (order', k')) :
    (ys.Perm xs ∧ k ≤ ys.length ∧ (∀ i (hi : i < ys.length), pred ys[i] = decide (i < k)) ∧
        calls = xs.length ∧ ((∀ x ∈ xs, pred x = true) ∨ (∀ x ∈ xs, pred x = false) → ys = xs)) ∧
      k' ≤ partitionPoint ∧ ∀ idx ∈ order'.take k', ∀ d ∈ order.drop partitionPoint,
        ∃ p q, prio rules idx = some p ∧ prio rules d = some q ∧ q ≤ p := by
  obtain ⟨hperm, hk, hpred, hcalls⟩ := partitionInPlace_spec pred h
  obtain ⟨-, -, hk', hprio⟩ := respectPriority_spec hr
  refine ⟨⟨hperm, hk, hpred, hcalls, ?_⟩, hk', hprio⟩
  rintro (hall | hnone)
  · rw [partitionInPlace_of_all pred hall] at h
    exact (Prod.mk.inj h).1.symm
  · rw [partitionInPlace_of_none pred hnone] at h
    exact (Prod.mk.inj h).1.symm

theorem partitionInPlace_correct_evens :
    let rules : RuleSet := ⟨[{ (default : Rule) with prio := 3 },
      { (default : Rule) with prio := 1 }, { (default : Rule) with prio := 2 }], [], ∅⟩
    partitionInPlace (fun n : ℕ => n % 2 == 0) [1, 2, 3, 4] = ([4, 2, 3, 1], 2, 4) ∧
      respectPriority rules [1, 0, 2] 2 = some ([0, 1, 2], 1) ∧
      (([4, 2, 3, 1].Perm [1, 2, 3, 4] ∧ 2 ≤ [4, 2, 3, 1].length ∧
          (∀ i (hi : i < [4, 2, 3, 1].length),
            ((fun n : ℕ => n % 2 == 0) [4, 2, 3, 1][i]) = decide (i < 2)) ∧
          4 = [1, 2, 3, 4].length ∧
          ((∀ x ∈ [1, 2, 3, 4], (x % 2 == 0) = true) ∨ (∀ x ∈ [1, 2, 3, 4], (x % 2 == 0) = false) →
            [4, 2, 3, 1] = [1, 2, 3, 4])) ∧
        1 ≤ 2 ∧ ∀ idx ∈ [0, 1, 2].take 1, ∀ d ∈ [1, 0, 2].drop 2,
          ∃ p q, prio rules idx = some p ∧ prio rules d = some q ∧ q ≤ p) := by
  intro rules
  have h₁ : partitionInPlace (fun n : ℕ => n % 2 == 0) [1, 2, 3, 4] = ([4, 2, 3, 1], 2, 4) := rfl
  have h₂ : respectPriority rules [1, 0, 2] 2 = some ([0, 1, 2], 1) := rfl
  exact ⟨h₁, h₂, partitionInPlace_correct _ h₁ h₂⟩

end Cranelift.Isle.Serialize
