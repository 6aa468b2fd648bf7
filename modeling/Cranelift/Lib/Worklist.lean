import Mathlib.Data.Finset.Card
import Mathlib.Logic.Relation

/-!
# Depth-first worklist search

The search for every node reachable from a source by one or more edges: a stack of nodes to
expand and a set of nodes seen; expanding a node pushes each successor not yet seen, marking it
as it is pushed. The source itself is only seen if an edge leads back to it, so the result is
the transitive (not reflexive) closure of the edges from the source.

The loop is given fuel. When every successor lies in a finite universe `U`, each iteration
lowers `2 * (#U - #seen) + stack.length`, so `2 * #U + 1` iterations always suffice.

## Main definitions

* `Worklist.pushNew` — push and mark the successors not yet seen.
* `Worklist.searchLoop` — the loop, with fuel.
* `Worklist.Inv` — the loop invariant.

## Main results

* `Worklist.Inv.step` — one iteration keeps the invariant.
* `Worklist.searchLoop_spec` — with enough fuel the loop ends with the invariant and an empty
  stack.
* `Worklist.mem_of_inv_nil` — at the end, the seen set is the transitive closure.
* `Worklist.searchLoop_eq_transGen` — the search from a source returns its transitive closure.
-/

namespace Worklist

open Relation

variable {α : Type*} [DecidableEq α] (succ : α → List α)

/-- The edges of `succ`. -/
def Edge (a b : α) : Prop := b ∈ succ a

/-- Push each node not yet seen onto the stack, marking it as seen. -/
def pushNew : List α → List α × Finset α → List α × Finset α
  | [], acc => acc
  | u :: us, (stack, seen) =>
    pushNew us (if u ∈ seen then (stack, seen) else (u :: stack, insert u seen))

/-- The search loop: pop a node and push its successors not yet seen. `none` when the fuel runs
out. -/
def searchLoop : ℕ → List α → Finset α → Option (Finset α)
  | _, [], seen => some seen
  | 0, _ :: _, _ => none
  | fuel + 1, t :: stack, seen =>
    let (stack, seen) := pushNew (succ t) (stack, seen)
    searchLoop fuel stack seen

/-! ### Pushing the successors -/

/-- **What `pushNew` does.** It adds the nodes to the seen set, pushes exactly the ones that were
new, and adds as many nodes to the stack as to the seen set. -/
lemma pushNew_spec : ∀ (us stack : List α) (seen : Finset α),
    let r := pushNew us (stack, seen)
    (∀ x, x ∈ r.2 ↔ x ∈ seen ∨ x ∈ us) ∧ (∀ x ∈ r.1, x ∈ stack ∨ x ∈ us) ∧
      (∀ x ∈ stack, x ∈ r.1) ∧ (∀ x ∈ r.2, x ∈ seen ∨ x ∈ r.1) ∧
      r.1.length + seen.card = stack.length + r.2.card
  | [], stack, seen =>
    ⟨fun x => by simp [pushNew], fun x hx => .inl hx, fun x hx => hx, fun x hx => .inl hx, rfl⟩
  | u :: us, stack, seen => by
    by_cases hu : u ∈ seen
    · have ih := pushNew_spec us stack seen
      simp only [pushNew, if_pos hu] at ih ⊢
      refine ⟨fun x => ?_, fun x hx => ?_, ih.2.2.1, ih.2.2.2.1, ih.2.2.2.2⟩
      · rw [ih.1 x, List.mem_cons]
        constructor
        · rintro (h | h)
          · exact .inl h
          · exact .inr (.inr h)
        · rintro (h | rfl | h)
          · exact .inl h
          · exact .inl hu
          · exact .inr h
      · rcases ih.2.1 x hx with h | h <;> simp [h]
    · have ih := pushNew_spec us (u :: stack) (insert u seen)
      simp only [pushNew, if_neg hu] at ih ⊢
      refine ⟨fun x => ?_, fun x hx => ?_, fun x hx => ih.2.2.1 x (List.mem_cons_of_mem u hx),
        fun x hx => ?_, ?_⟩
      · rw [ih.1 x, Finset.mem_insert, List.mem_cons]
        tauto
      · rcases ih.2.1 x hx with h | h
        · rcases List.mem_cons.mp h with rfl | h <;> simp [h]
        · simp [h]
      · rcases ih.2.2.2.1 x hx with h | h
        · rcases Finset.mem_insert.mp h with rfl | h
          · exact .inr (ih.2.2.1 x List.mem_cons_self)
          · exact .inl h
        · exact .inr h
      · have hc := ih.2.2.2.2
        rw [Finset.card_insert_of_notMem hu, List.length_cons] at hc
        omega

/-! ### The invariant -/

/-- The invariant of the search from `s`: every seen node is reachable from `s`, the stack holds
`s` and seen nodes, and a node that is `s` or seen but no longer on the stack has all its
successors seen. -/
structure Inv (s : α) (stack : List α) (seen : Finset α) : Prop where
  sound : ∀ x ∈ seen, TransGen (Edge succ) s x
  stack_mem : ∀ x ∈ stack, x = s ∨ x ∈ seen
  closed : ∀ x, (x = s ∨ x ∈ seen) → x ∉ stack → ∀ y ∈ succ x, y ∈ seen

variable {succ}

omit [DecidableEq α] in
lemma inv_init (s : α) : Inv succ s [s] ∅ :=
  ⟨by simp, by simp, fun x hx hxs => by simp_all⟩

/-- **One iteration keeps the invariant.**

**Proof sketch.** A newly seen node is a successor of the popped node `t`, which is `s` or
reachable from it. A node that left the stack is `t`, whose successors are now seen, or was off
the stack already; it cannot be newly seen, since new nodes are pushed. -/
lemma Inv.step {s t : α} {stack : List α} {seen : Finset α} (h : Inv succ s (t :: stack) seen) :
    Inv succ s (pushNew (succ t) (stack, seen)).1 (pushNew (succ t) (stack, seen)).2 := by
  obtain ⟨hseen, hstack, hkeep, hnew, -⟩ := pushNew_spec (succ t) stack seen
  -- `t` is `s` or reachable from it
  have ht : t = s ∨ TransGen (Edge succ) s t := by
    rcases h.stack_mem t List.mem_cons_self with rfl | ht
    · exact .inl rfl
    · exact .inr (h.sound t ht)
  refine ⟨fun x hx => ?_, fun x hx => ?_, fun x hx hxs y hy => ?_⟩
  · rcases (hseen x).mp hx with hx | hx
    · exact h.sound x hx
    · rcases ht with rfl | ht
      · exact .single hx
      · exact .tail ht hx
  · rcases hstack x hx with hx | hx
    · exact (h.stack_mem x (List.mem_cons_of_mem t hx)).imp_right fun hx => (hseen x).mpr (.inl hx)
    · exact .inr ((hseen x).mpr (.inr hx))
  · by_cases hxt : x = t
    · subst hxt
      exact (hseen y).mpr (.inr hy)
    · have hx' : x = s ∨ x ∈ seen := by
        rcases hx with hx | hx
        · exact .inl hx
        · rcases hnew x hx with hx | hx
          · exact .inr hx
          · exact absurd hx hxs
      have hxs' : x ∉ t :: stack := by
        simp only [List.mem_cons, not_or]
        exact ⟨hxt, fun hx => hxs (hkeep x hx)⟩
      exact (hseen y).mpr (.inl (h.closed x hx' hxs' y hy))

omit [DecidableEq α] in
/-- At the end of the search, with an empty stack, the seen set is exactly what is reachable
from `s` by one or more edges. -/
lemma mem_of_inv_nil {s : α} {seen : Finset α} (h : Inv succ s [] seen) (t : α) :
    t ∈ seen ↔ TransGen (Edge succ) s t := by
  refine ⟨h.sound t, fun hst => ?_⟩
  induction hst with
  | single hst => exact h.closed s (.inl rfl) (by simp) _ hst
  | tail _ hbt ih => exact h.closed _ (.inr ih) (by simp) _ hbt

/-! ### Termination -/

section Termination

variable {U : Finset α}

/-- **Enough fuel ends the search.** When every successor lies in `U` and the seen set is a
subset of `U`, fuel `2 * (#U - #seen) + stack.length` brings the stack to empty, keeping the
invariant.

**Proof sketch.** By induction on the fuel: an iteration pops one node and pushes as many as it
marks, all of them in `U`, so the measure falls by at least one. -/
lemma searchLoop_spec (hU : ∀ a, ∀ b ∈ succ a, b ∈ U) (s : α) :
    ∀ (fuel : ℕ) (stack : List α) (seen : Finset α), seen ⊆ U →
      2 * (U.card - seen.card) + stack.length ≤ fuel → Inv succ s stack seen →
      ∃ seen', searchLoop succ fuel stack seen = some seen' ∧ Inv succ s [] seen'
  | _, [], seen, _, _, h => ⟨seen, by cases ‹ℕ› <;> rfl, h⟩
  | 0, t :: stack, seen, _, hfuel, _ => by simp at hfuel
  | fuel + 1, t :: stack, seen, hsub, hfuel, h => by
    obtain ⟨hseen, -, -, -, hcard⟩ := pushNew_spec (succ t) stack seen
    have hsub' : (pushNew (succ t) (stack, seen)).2 ⊆ U := fun x hx => by
      rcases (hseen x).mp hx with hx | hx
      · exact hsub hx
      · exact hU t x hx
    have hle := Finset.card_le_card hsub'
    -- the seen set only grows
    have hmono := Finset.card_le_card fun x (hx : x ∈ seen) => (hseen x).mpr (.inl hx)
    have hfuel' : 2 * (U.card - (pushNew (succ t) (stack, seen)).2.card) +
        (pushNew (succ t) (stack, seen)).1.length ≤ fuel := by
      simp only [List.length_cons] at hfuel
      omega
    exact searchLoop_spec hU s fuel _ _ hsub' hfuel' h.step

/-- **The search returns the transitive closure.** When every successor lies in `U`, the search
from `s` with fuel `2 * #U + 1` returns the nodes reachable from `s` by one or more edges. -/
theorem searchLoop_eq_transGen (hU : ∀ a, ∀ b ∈ succ a, b ∈ U) (s : α) :
    ∃ R, searchLoop succ (2 * U.card + 1) [s] ∅ = some R ∧
      ∀ t, t ∈ R ↔ TransGen (Edge succ) s t := by
  obtain ⟨R, hR, hinv⟩ := searchLoop_spec hU s (2 * U.card + 1) [s] ∅ (Finset.empty_subset _)
    (by simp) (inv_init s)
  exact ⟨R, hR, mem_of_inv_nil hinv⟩

end Termination

end Worklist
