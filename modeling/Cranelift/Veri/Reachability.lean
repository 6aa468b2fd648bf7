import Mathlib.Data.List.Dedup
import Cranelift.Lib.Worklist
import Cranelift.Isle.TrieAgain

/-!
# Which terms a term's rules reach

A model of `cranelift/isle/veri/veri/src/reachability.rs`. A term uses another when one of the
bindings of its rule set calls it, as a constructor or as an extractor; `search` collects the
terms reachable from a source by one or more uses, with the depth-first worklist of
`Worklist.searchLoop`, and a term is cyclic when it reaches itself.

The `HashSet` of the used terms of a rule set is a list without duplicates, in the order of the
bindings; the search's result does not depend on that order. The loop is given fuel twice the
number of terms any rule set uses, plus one, which `search_spec` shows is always enough.

## Main definitions

* `Cranelift.Veri.Uses` — the use relation between terms.
* `Cranelift.Veri.search`, `Cranelift.Veri.Reachability.build`,
  `Cranelift.Veri.Reachability.isCyclic`.

## Main results

* `Cranelift.Veri.search_spec` — `search` returns the terms reachable by one or more uses.
* `Cranelift.Veri.Reachability.build_spec` — `build` stores that set for every term with rules,
  and `is_cyclic` decides whether the term lies on a cycle of uses.
-/

namespace Cranelift.Veri

open Isle TrieAgain Relation
open Sema (TermId)

/-- The rule sets of the terms, `HashMap<TermId, RuleSet>`. -/
abbrev TermRuleSets := AList fun _ : TermId => RuleSet

/-- `binding_used_term`: the term a binding calls. -/
def bindingUsedTerm : Binding → Option TermId
  | .constructor term _ _ | .extractor term _ => some term
  | _ => none

/-- `used_terms`: the terms the bindings of a rule set call. -/
def usedTerms (ruleSet : RuleSet) : List TermId := (ruleSet.bindings.filterMap bindingUsedTerm).dedup

/-- The successors in `search`: the used terms of the term's rule set, and none for a term
without rules (`continue`). -/
def searchSucc (termRuleSets : TermRuleSets) (term : TermId) : List TermId :=
  match termRuleSets.lookup term with
  | some ruleSet => usedTerms ruleSet
  | none => []

/-- Every term that some rule set uses. -/
def allUsedTerms (termRuleSets : TermRuleSets) : Finset TermId :=
  (termRuleSets.entries.flatMap fun e => usedTerms e.2).toFinset

/-- `search`: the terms reachable from `source`. -/
def search (source : TermId) (termRuleSets : TermRuleSets) : Option (Finset TermId) :=
  Worklist.searchLoop (searchSucc termRuleSets) (2 * (allUsedTerms termRuleSets).card + 1)
    [source] ∅

/-- `Reachability`: the reachable terms of each term with rules. -/
structure Reachability where
  reachable : AList fun _ : TermId => Finset TermId

namespace Reachability

/-- `Reachability::build`: `search` from every term with rules. -/
def build (termRuleSets : TermRuleSets) : Option Reachability :=
  (termRuleSets.keys.foldlM (fun reachable term =>
    (search term termRuleSets).map fun r => reachable.insert term r) ∅).map Reachability.mk

/-- `reachable`: `&self.reachable[&source]`, which panics for a term without rules. -/
def reachableOf (r : Reachability) (source : TermId) : Option (Finset TermId) :=
  r.reachable.lookup source

/-- `is_cyclic`: whether the term reaches itself. -/
def isCyclic (r : Reachability) (term : TermId) : Option Bool :=
  (r.reachableOf term).map fun reachable => decide (term ∈ reachable)

end Reachability

/-! ### The use relation -/

/-- `a` uses `b`: a binding of the rule set of `a` calls `b`. -/
def Uses (termRuleSets : TermRuleSets) (a b : TermId) : Prop :=
  ∃ ruleSet, termRuleSets.lookup a = some ruleSet ∧
    ∃ binding ∈ ruleSet.bindings, bindingUsedTerm binding = some b

lemma mem_usedTerms {ruleSet : RuleSet} {b : TermId} :
    b ∈ usedTerms ruleSet ↔ ∃ binding ∈ ruleSet.bindings, bindingUsedTerm binding = some b := by
  simp [usedTerms, List.mem_filterMap]

lemma mem_searchSucc {termRuleSets : TermRuleSets} {a b : TermId} :
    b ∈ searchSucc termRuleSets a ↔ Uses termRuleSets a b := by
  unfold searchSucc Uses
  cases h : termRuleSets.lookup a with
  | none => simp
  | some ruleSet => simp [mem_usedTerms]

lemma searchSucc_subset {termRuleSets : TermRuleSets} (a : TermId) :
    ∀ b ∈ searchSucc termRuleSets a, b ∈ allUsedTerms termRuleSets := by
  intro b hb
  unfold searchSucc at hb
  split at hb
  · rename_i ruleSet h
    simp only [allUsedTerms, List.mem_toFinset, List.mem_flatMap]
    exact ⟨⟨a, ruleSet⟩, AList.mem_lookup_iff.mp h, hb⟩
  · simp at hb

/-- The worklist's edges are the uses. -/
lemma edge_searchSucc (termRuleSets : TermRuleSets) :
    Worklist.Edge (searchSucc termRuleSets) = Uses termRuleSets := by
  funext a b
  exact propext mem_searchSucc

/-- **`search` returns the terms reachable by one or more uses.** -/
theorem search_spec (source : TermId) (termRuleSets : TermRuleSets) :
    ∃ reachable, search source termRuleSets = some reachable ∧
      ∀ t, t ∈ reachable ↔ TransGen (Uses termRuleSets) source t := by
  obtain ⟨R, hR, hmem⟩ := Worklist.searchLoop_eq_transGen (searchSucc_subset) source
  refine ⟨R, hR, fun t => ?_⟩
  rw [hmem t, edge_searchSucc]

namespace Reachability

/-- The stores of `build`: after folding over `keys`, each key holds what `search` returns for
it and every other term what it held before. -/
lemma foldlM_spec (termRuleSets : TermRuleSets) :
    ∀ (keys : List TermId) (m : AList fun _ : TermId => Finset TermId),
      ∃ m', keys.foldlM (fun reachable term =>
          (search term termRuleSets).map fun r => reachable.insert term r) m = some m' ∧
        ∀ t, m'.lookup t = if t ∈ keys then search t termRuleSets else m.lookup t
  | [], m => ⟨m, rfl, fun t => by simp⟩
  | k :: keys, m => by
    obtain ⟨R, hR, -⟩ := search_spec k termRuleSets
    obtain ⟨m', hm', hspec⟩ := foldlM_spec termRuleSets keys (m.insert k R)
    refine ⟨m', by simp [List.foldlM_cons, hR, hm'], fun t => ?_⟩
    rw [hspec t]
    by_cases htk : t = k
    · subst htk
      by_cases ht : t ∈ keys <;> simp [ht, hR]
    · by_cases ht : t ∈ keys <;> simp [ht, htk, AList.lookup_insert_ne htk]

/-- **`build` stores the reachable terms of every term with rules.** -/
theorem build_spec (termRuleSets : TermRuleSets) :
    ∃ r, build termRuleSets = some r ∧
      ∀ t, r.reachableOf t = if t ∈ termRuleSets then search t termRuleSets else none := by
  obtain ⟨m, hm, hspec⟩ := foldlM_spec termRuleSets termRuleSets.keys ∅
  refine ⟨⟨m⟩, by simp [build, hm], fun t => ?_⟩
  simp [reachableOf, hspec t, AList.mem_keys]

/-- **`is_cyclic` decides whether a term with rules lies on a cycle of uses.** -/
theorem isCyclic_spec {termRuleSets : TermRuleSets} {r : Reachability}
    (hr : build termRuleSets = some r) {t : TermId} (ht : t ∈ termRuleSets) :
    ∃ b, r.isCyclic t = some b ∧ (b = true ↔ TransGen (Uses termRuleSets) t t) := by
  obtain ⟨r', hr', hspec⟩ := build_spec termRuleSets
  obtain rfl : r = r' := Option.some.inj (hr.symm.trans hr')
  obtain ⟨R, hR, hmem⟩ := search_spec t termRuleSets
  exact ⟨decide (t ∈ R), by simp [isCyclic, hspec t, ht, hR], by simp [hmem t]⟩

end Reachability

end Cranelift.Veri
