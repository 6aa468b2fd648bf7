import Cranelift.Veri.Expand
import Cranelift.Veri.Reachability

/-!
# The expander: chaining configuration and the worklist of partial expansions

A model of `Chaining`, `Partial` and `Expander` of `cranelift/isle/veri/veri/src/expand.rs`.
`Chaining` decides which constructor calls are replaced by the rules of the called term;
`Expander` keeps a stack of partial expansions, each with a stack of binding ids still to chain.
`extend` pops a candidate and pushes one child per rule of the called term (skipping infeasible
ones); when no candidate is left, `finish` records the expansion and starts an expansion from
every expandable term still called in it (`add_root`).

The fields of `Expander` that `expand` never writes (`prog`, `term_rule_sets`, `chaining`,
`prune_infeasible`) are the structure `Expander`; those it writes (`stack`, `roots`,
`complete`) are `Expander.State`, passed explicitly. Both stacks are lists with the top first:
the `Vec` that `chain_candidates` collects in binding order is reversed, since Rust pops its
last element. A panic (`assert!`, `expect`, `unreachable!`, a missing key of a `HashMap`) is
`none`. The `while let` loop of `expand` is given fuel; `expandLoop` returns `none` when the fuel
runs out and `some none` after a panic.

## Main definitions

* `Cranelift.Veri.Program` — the parts of `Program` the expander reads.
* `Cranelift.Veri.Chaining` with `isExpandable`, `isChainable`, `isMacro` and `shouldChain`.
* `Cranelift.Veri.Expander` with `constructor`, `addRoot`, `finish`, `chainCandidates`,
  `extend` and `expandLoop`.

## Main results

* `Cranelift.Veri.root_call_of_cyclic_term_chained` — the root call pushed by `constructor` is
  chained whatever its term: for `(rule (f x) (f x))` the first step replaces the call of the
  cyclic term `f` by a call of `f`.
-/

namespace Cranelift.Veri

open Isle TrieAgain
open Sema (TermId RuleId TermEnv)

/-- The parts of `Program` the expander reads: the terms, the terms with a specification (the
keys of `specenv.term_spec`), the terms with the `chain` attribute, the rules whose priority is
significant, and the overlaps found between rules. -/
structure Program where
  termenv : TermEnv
  specTerms : Finset TermId
  chain : Finset TermId
  priority : Finset RuleId
  overlaps : AList fun _ : RuleId => Finset RuleId

/-- `Program::term`, which panics on an invalid id. -/
def Program.term (prog : Program) (termId : TermId) : Option Sema.Term :=
  prog.termenv.terms[termId]?

/-- `SpecEnv::has_spec`. -/
def Program.hasSpec (prog : Program) (termId : TermId) : Bool := termId ∈ prog.specTerms

/-- The `HashMap` that `collect` builds from the rule sets of `build_trie`. -/
def termRuleSetsOf (ruleSets : List (TermId × RuleSet)) : TermRuleSets :=
  ruleSets.foldl (fun m e => m.insert e.1 e.2) ∅

/-! ### Chaining configuration -/

/-- `Chaining`: the reachability of the terms, and which terms to chain. -/
structure Chaining where
  prog : Program
  termRuleSets : TermRuleSets
  reach : Reachability
  exclude : Finset TermId
  «include» : Finset TermId
  includeMacros : Bool
  maxRules : ℕ
  default : Bool

namespace Chaining

/-- `Chaining::new`: macros are chained, nothing else by default. -/
def new (prog : Program) (termRuleSets : TermRuleSets) : Option Chaining :=
  (Reachability.build termRuleSets).map fun reach =>
    ⟨prog, termRuleSets, reach, ∅, ∅, true, 0, false⟩

variable (c : Chaining)

/-- `num_rules`: zero for a term without rules. -/
def numRules (termId : TermId) : ℕ :=
  ((c.termRuleSets.lookup termId).map fun ruleSet => ruleSet.rules.length).getD 0

/-- `is_expandable`: an internal constructor with rules. -/
def isExpandable (termId : TermId) : Option Bool := do
  let term ← c.prog.term termId
  if !term.hasInternalConstructor then return false
  if c.numRules termId = 0 then return false
  return true

/-- `is_chainable`: expandable and not cyclic. -/
def isChainable (termId : TermId) : Option Bool := do
  if !(← c.isExpandable termId) then return false
  if ← c.reach.isCyclic termId then return false
  return true

/-- `has_chain_attribute`. -/
def hasChainAttribute (termId : TermId) : Bool := termId ∈ c.prog.chain

/-- `is_macro`: one rule, without constraints. The index `[&term_id]` cannot fail after the
count. -/
def isMacro (termId : TermId) : Bool :=
  c.numRules termId == 1 &&
    match c.termRuleSets.lookup termId with
    | some ruleSet => match ruleSet.rules with
      | rule :: _ => rule.totalConstraints == 0
      | [] => false
    | none => false

/-- `should_chain`: the checks in the order of the source, the first that applies deciding. -/
def shouldChain (termId : TermId) : Option Bool := do
  if !(← c.isChainable termId) then return false
  if c.prog.hasSpec termId then return false
  if termId ∈ c.exclude then return false
  if termId ∈ c.«include» then return true
  if c.hasChainAttribute termId then return true
  if c.includeMacros && c.isMacro termId then return true
  if c.maxRules > 0 && c.numRules termId > c.maxRules then return false
  return c.default

end Chaining

/-! ### The expander -/

/-- `Partial`: an expansion under construction and the bindings still to chain, top first. -/
structure Partial where
  expansion : Expansion
  chainCandidates : List BindingId

/-- The fields of `Expander` that `expand` only reads. -/
structure Expander where
  prog : Program
  termRuleSets : TermRuleSets
  chaining : Chaining
  pruneInfeasible : Bool

/-- The fields of `Expander` that `expand` writes: the partial expansions (top first), the
root terms started, and the completed expansions. -/
structure Expander.State where
  stack : List Partial
  roots : Finset TermId
  complete : List Expansion

namespace Expander

/-- `Expander::new`: pruning is on, and nothing is started. -/
def new (prog : Program) (termRuleSets : TermRuleSets) (chaining : Chaining) :
    Expander × Expander.State :=
  (⟨prog, termRuleSets, chaining, true⟩, ⟨[], ∅, []⟩)

variable (x : Expander)

/-- `constructor`: push the root expansion of a call of `termId`, with the call as the only
candidate. -/
def constructor (s : Expander.State) (termId : TermId) : Option Expander.State := do
  let term ← x.prog.term termId
  if !term.hasConstructor then none
  let paramTys ← term.constructorParamTys
  let expansion ← Expansion.root termId paramTys.length
  if !(← expansion.isFeasible) then none
  return { s with stack := ⟨expansion, [expansion.result]⟩ :: s.stack }

/-- `add_root`: start an expansion from `termId`, once. -/
def addRoot (s : Expander.State) (termId : TermId) : Option Expander.State :=
  if termId ∈ s.roots then some s
  else (x.constructor s termId).map fun s => { s with roots := insert termId s.roots }

/-- `finish`: start an expansion from every expandable term still called, then record the
expansion, which must `validate`. -/
def finish (s : Expander.State) (expansion : Expansion) : Option Expander.State := do
  let s ← expansion.constructorBindings.foldlM (fun s (_, termId) => do
    if ← x.chaining.isExpandable termId then x.addRoot s termId else pure s) s
  if !expansion.validate then none
  return { s with complete := s.complete ++ [expansion] }

/-- `chain_candidates`: the constructor calls whose term should be chained, last first. -/
def chainCandidates (expansion : Expansion) : Option (List BindingId) :=
  (expansion.constructorBindings.filterMapM fun (call : BindingId × TermId) =>
    (x.chaining.shouldChain call.2).map fun b => if b then some call.1 else none).map
      List.reverse

/-- One iteration of the loop over the rules in `extend`: apply `rule` at the call
`chainBindingId`, with the negations of the overlapping rules whose priority is significant, and
push the result unless it is pruned. -/
def chainRule (expansion : Expansion) (ruleSet : RuleSet) (parameters : List BindingId)
    (chainBindingId : BindingId) (chainCandidates : List BindingId) (s : Expander.State)
    (rule : Rule) : Option Expander.State := do
  let apply ← (Application.new expansion).rule ruleSet rule parameters chainBindingId
  let apply ← match x.prog.overlaps.lookup rule.id with
    | some overlaps => ruleSet.rules.reverse.foldlM (fun apply other =>
        if other.id ∈ x.prog.priority ∧ other.id ∈ overlaps then apply.negation ruleSet other
        else some apply) apply
    | none => some apply
  let chained ← apply.build
  let keep ← if !x.pruneInfeasible then some true else chained.isFeasible
  return if keep then { s with stack := ⟨chained, chainCandidates⟩ :: s.stack } else s

/-- `extend`: chain the top candidate of the partial expansion, recomputing the candidates
when there are none, or finish it when there are still none. -/
def extend (s : Expander.State) (p : Partial) : Option Expander.State := do
  let candidates ← if !p.chainCandidates.isEmpty then some p.chainCandidates
    else x.chainCandidates p.expansion
  match candidates with
  | [] => x.finish s p.expansion
  | chainBindingId :: candidates =>
    match p.expansion.bindings[chainBindingId]? with
    | some (some (.constructor term parameters _)) => do
      let ruleSet ← x.termRuleSets.lookup term
      if ruleSet.rules.isEmpty then none
      ruleSet.rules.reverse.foldlM
        (x.chainRule p.expansion ruleSet parameters chainBindingId candidates) s
    | _ => none

/-- `expand`: pop and extend until the stack is empty. `none` when the fuel runs out,
`some none` after a panic. -/
def expandLoop : ℕ → Expander.State → Option (Option Expander.State)
  | _, ⟨[], roots, complete⟩ => some (some ⟨[], roots, complete⟩)
  | 0, ⟨_ :: _, _, _⟩ => none
  | fuel + 1, ⟨p :: stack, roots, complete⟩ =>
    match x.extend ⟨stack, roots, complete⟩ p with
    | some s => expandLoop fuel s
    | none => some none

end Expander

/-! ### The root call is chained whatever its term -/

/-- The typed form of the program

    (type T (primitive T))
    (decl f (T) T)
    (rule (f x) (f x))

with `T` as `TypeId(0)`, `f` as `TermId(0)` (an impure internal constructor) and `x` as
`VarId(0)`. -/
def selfCallProgram : Program :=
  ⟨⟨[⟨[0], 0, .decl ⟨false, false, false⟩ (some .internalConstructor) none⟩],
      [⟨0, 0, [.bindPattern 0 0 (.wildcard 0)], [], .term 0 0 [.var 0 0], 0, none, ⟨0, 0⟩⟩]⟩,
    ∅, ∅, ∅, ∅⟩

/-- The expander of the runner for `selfCallProgram`, with the default chaining. -/
def selfCallExpander : Option Expander :=
  (build 1 selfCallProgram.termenv).bind fun (ruleSets, _) =>
    let termRuleSets := termRuleSetsOf ruleSets
    (Chaining.new selfCallProgram termRuleSets).map fun chaining =>
      (Expander.new selfCallProgram termRuleSets chaining).1

/-- **The root call of a cyclic term is chained.** In `selfCallProgram` the term `f` uses
itself, so `is_cyclic` holds and `should_chain` does not; yet `add_root` pushes the root
expansion with its call `1` of `f` as the candidate, and the first `extend` replaces it by the
rule's body, whose call `3` is again a call of `f`. The step does not go down in any order of
the terms; the expansion ends only because the new call is not a candidate. -/
theorem root_call_of_cyclic_term_chained :
    selfCallExpander.bind (fun x => x.chaining.reach.isCyclic 0) = some true ∧
      selfCallExpander.bind (fun x => x.chaining.shouldChain 0) = some false ∧
      (selfCallExpander.bind fun x => (x.addRoot ⟨[], ∅, []⟩ 0).map fun s =>
        s.stack.map fun p => (p.expansion.constructorBindings, p.chainCandidates)) =
        some [([(1, 0)], [1])] ∧
      (selfCallExpander.bind fun x => (x.addRoot ⟨[], ∅, []⟩ 0).bind fun s =>
        match s.stack with
        | p :: stack => (x.extend { s with stack } p).map fun s =>
          s.stack.map fun p => (p.expansion.constructorBindings, p.chainCandidates)
        | [] => none) =
        some [([(3, 0)], [])] := by
  decide +kernel

end Cranelift.Veri
