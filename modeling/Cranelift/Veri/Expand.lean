import Cranelift.Isle.TrieAgain

/-!
# Expansions of ISLE rules, and rule chaining

A model of the data and the chaining step of `cranelift/isle/veri/veri/src/expand.rs`. An
`Expansion` is a rule of a root term in which some constructor calls have been replaced by the
rules of the called term ("chaining"): bindings (a deleted binding is `None`), the constraints
and equality classes the rules require, the parameters and the result. `Application` imports
one rule of a called term into an expansion: it copies the rule's bindings under new ids,
records substitutions (the call site by the rule's result, the rule's arguments by the call's
parameters), and `build` applies them.

Hash maps are `AList`s; `try_into().unwrap()` of a binding id into `u16` is checked as in Rust,
and a panic (`assert!`, `expect`, `unimplemented!`, an index out of range) is `none`. The
recursion of `add_binding` over the sources of a binding is given fuel: the number of bindings of
the rule set, since a rule set lists each binding after its sources.

## Main definitions

* `Cranelift.Veri.Constrain`, `Cranelift.Veri.Expansion` with `substitute`, `equalities`,
  `validate` and `isFeasible`.
* `Cranelift.Veri.Reindex` — renaming of binding ids.
* `Cranelift.Veri.Application` with `rule`, `negation` and `build`.
-/

namespace Cranelift.Veri

open Isle TrieAgain
open Sema (TermId RuleId TermEnv)

/-- `Constrain`: a constraint on a binding, or the negation of a conjunction of them. -/
inductive Constrain where
  | «match» (bindingId : BindingId) (constraint : Constraint)
  | notAll (constrains : List Constrain)
deriving Repr

/-- `Reindex`: a renaming of binding ids, the identity outside its keys. -/
abbrev Reindex := AList fun _ : BindingId => BindingId

namespace Reindex

/-- `Reindex::id`. -/
def id (r : Reindex) (bindingId : BindingId) : BindingId := (r.lookup bindingId).getD bindingId

/-- `Reindex::map`. -/
def map (r : Reindex) (src dst : BindingId) : Reindex := r.insert src dst

/-- `Reindex::ids`. -/
def ids (r : Reindex) (bindingIds : List BindingId) : List BindingId := bindingIds.map r.id

/-- `Reindex::binding`: the binding with its sources renamed. Iterator bindings are
`unimplemented!`. -/
def binding (r : Reindex) : Binding → Option Binding
  | .argument index => some (.argument index)
  | .constInt val ty => some (.constInt val ty)
  | .constPrim val => some (.constPrim val)
  | .extractor term parameter => some (.extractor term (r.id parameter))
  | .constructor term parameters inst => some (.constructor term (r.ids parameters) inst)
  | .makeVariant ty variant fields => some (.makeVariant ty variant (r.ids fields))
  | .matchVariant source variant field => some (.matchVariant (r.id source) variant field)
  | .makeSome inner => some (.makeSome (r.id inner))
  | .matchSome source => some (.matchSome (r.id source))
  | .matchTuple source field => some (.matchTuple (r.id source) field)
  | .iterator _ => none

end Reindex

mutual

/-- `Constrain::bindings`. -/
def Constrain.bindings : Constrain → List BindingId
  | .match bindingId _ => [bindingId]
  | .notAll constrains => Constrain.bindingsAll constrains

/-- The bindings of a list of constraints. -/
def Constrain.bindingsAll : List Constrain → List BindingId
  | [] => []
  | c :: cs => c.bindings ++ Constrain.bindingsAll cs

end

mutual

/-- `Constrain::substitute`. -/
def Constrain.substitute (reindex : Reindex) : Constrain → Constrain
  | .match bindingId constraint => .match (reindex.id bindingId) constraint
  | .notAll constrains => .notAll (Constrain.substituteAll reindex constrains)

/-- `Constrain::substitute` on each of a list of constraints. -/
def Constrain.substituteAll (reindex : Reindex) : List Constrain → List Constrain
  | [] => []
  | c :: cs => c.substitute reindex :: Constrain.substituteAll reindex cs

end

/-- `Expansion`: a rule of `term` with some of its constructor calls chained. -/
structure Expansion where
  term : TermId
  rules : List RuleId
  negated : List RuleId
  bindings : List (Option Binding)
  constraints : List Constrain
  equals : DisjointSets BindingId
  parameters : List BindingId
  result : BindingId

namespace Expansion

/-- `binding`: the binding with this id, unless it is out of range or deleted. -/
def binding (e : Expansion) (bindingId : BindingId) : Option Binding :=
  (e.bindings[bindingId]?).getD none

/-- `is_defined`. -/
def isDefined (e : Expansion) (bindingId : BindingId) : Bool := (e.binding bindingId).isSome

/-- `validate`: every source, constrained binding and the result is defined, and every
parameter is an argument binding. `false` is a failed `assert!`. -/
def validate (e : Expansion) : Bool :=
  e.bindings.reduceOption.all (fun b => b.sources.all e.isDefined) &&
    e.constraints.all (fun c => c.bindings.all e.isDefined) &&
    e.parameters.all (fun p => match e.binding p with
      | some (.argument _) => true
      | _ => false) &&
    e.isDefined e.result

/-- The loop of `is_feasible` over the constraints: `false` as soon as a concrete constraint is
incompatible with its binding; negated constraints are assumed satisfiable. The `expect` on an
undefined binding panics. -/
def feasibleLoop (e : Expansion) : List Constrain → Option Bool
  | [] => some true
  | .match bindingId constraint :: rest => do
    let binding ← e.binding bindingId
    if !constraint.compatible binding then some false else feasibleLoop e rest
  | .notAll _ :: rest => feasibleLoop e rest

/-- `is_feasible`, after the `validate` it asserts. -/
def isFeasible (e : Expansion) : Option Bool :=
  if e.validate then e.feasibleLoop e.constraints else none

/-- `add_match`. -/
def addMatch (e : Expansion) (bindingId : BindingId) (constraint : Constraint) : Expansion :=
  { e with constraints := e.constraints ++ [.match bindingId constraint] }

/-- `push_binding`: append a binding under the next id. -/
def pushBinding (e : Expansion) (binding : Binding) : Option (BindingId × Expansion) := do
  let bindingId ← tryInto 16 e.bindings.length
  return (bindingId, { e with bindings := e.bindings ++ [some binding] })

/-- The expansion that `Expander::constructor` starts from for a call of `termId` with
`numParams` parameters: one argument binding per parameter, then the call on them as the
result. -/
def root (termId : TermId) (numParams : ℕ) : Option Expansion := do
  let parameters ← (List.range numParams).mapM (tryInto 16)
  let args ← (List.range numParams).mapM fun i => (tryInto 8 i).map Binding.argument
  let result ← tryInto 16 numParams
  return ⟨termId, [], [], args.map some ++ [some (.constructor termId parameters 0)], [], .empty,
    parameters, result⟩

/-- The loop of `equalities` over the bindings, from id `i` on. -/
def equalitiesLoop (e : Expansion) : ℕ → List (Option Binding) → List (BindingId × BindingId)
  | _, [] => []
  | i, none :: rest => equalitiesLoop e (i + 1) rest
  | i, some _ :: rest =>
    match e.equals.find i with
    | some eq => if eq ≠ i then (i, eq) :: equalitiesLoop e (i + 1) rest
      else equalitiesLoop e (i + 1) rest
    | none => equalitiesLoop e (i + 1) rest

/-- `equalities`: each defined binding paired with the representative of its class, when that
is another binding. -/
def equalities (e : Expansion) : List (BindingId × BindingId) := e.equalitiesLoop 0 e.bindings

/-- `constructor_bindings`: the constructor calls, with their terms. -/
def constructorBindings (e : Expansion) : List (BindingId × TermId) :=
  (e.bindings.zipIdx.filterMap fun (b, i) => match b with
    | some (.constructor term _ _) => some (i, term)
    | _ => none)

/-- `substitute`: rename `target` to `replace` in every binding, the constraints and the
result, and delete `target`. -/
def substitute (e : Expansion) (target replace : BindingId) : Option Expansion := do
  let reindex : Reindex := (∅ : Reindex).map target replace
  let bindings ← e.bindings.mapM fun b => match b with
    | some b => (reindex.binding b).map some
    | none => some none
  -- `self.bindings[target.index()] = None`
  if target < bindings.length then
    return { e with
      bindings := bindings.set target none
      constraints := Constrain.substituteAll reindex e.constraints
      result := reindex.id e.result }
  else none

end Expansion

/-- `Application`: an expansion being extended by one rule, the substitutions
`(target, replace)` to apply at the end, and the renaming of the rule's bindings into the
expansion. -/
structure Application where
  expansion : Expansion
  substitutions : List (BindingId × BindingId)
  importReindex : Reindex

namespace Application

/-- `Application::new`. -/
def new (expansion : Expansion) : Application := ⟨expansion, [], ∅⟩

/-- `add_binding`: import a binding of the rule set, after its sources, unless it is imported
already; returns its id in the expansion. -/
def addBinding (ruleSet : RuleSet) : ℕ → BindingId → Application → Option (BindingId × Application)
  | 0, _, _ => none
  | fuel + 1, bindingId, a =>
    if bindingId ∈ a.importReindex then some (a.importReindex.id bindingId, a)
    else do
      let binding ← ruleSet.bindings[bindingId]?
      let a ← binding.sources.foldlM (fun a source =>
        (addBinding ruleSet fuel source a).map Prod.snd) a
      let reindexed ← a.importReindex.binding binding
      let (expansionBindingId, expansion) ← a.expansion.pushBinding reindexed
      return (expansionBindingId, { a with
        expansion
        importReindex := a.importReindex.map bindingId expansionBindingId })

/-- The argument loop of `rule`: import the rule's `i`-th argument and substitute the call's
`i`-th parameter for it. -/
def argsLoop (ruleSet : RuleSet) (fuel : ℕ) : ℕ → List BindingId → Application →
    Option Application
  | _, [], a => some a
  | i, parameter :: parameters, a => do
    let index ← tryInto 8 i
    let bindingId ← ruleSet.findBinding (.argument index)
    let (argBindingId, a) ← addBinding ruleSet fuel bindingId a
    argsLoop ruleSet fuel (i + 1) parameters
      { a with substitutions := a.substitutions ++ [(argBindingId, parameter)] }

/-- The constraint loop of `rule`: import each constrained binding with its constraint. -/
def constraintsLoop (ruleSet : RuleSet) (fuel : ℕ) (rule : Rule) (a : Application) (i : ℕ) :
    Option Application :=
  match rule.getConstraint i with
  | some constraint => do
    let (expansionBindingId, a) ← addBinding ruleSet fuel i a
    return { a with expansion := a.expansion.addMatch expansionBindingId constraint }
  | none => some a

/-- The equality loop of `rule`: import each binding that is not the representative of its
class together with its representative, and merge them. -/
def equalsLoop (ruleSet : RuleSet) (fuel : ℕ) (rule : Rule) (a : Application) (i : ℕ) :
    Option Application :=
  match rule.equals.find i with
  | some equalBindingId =>
    if equalBindingId ≠ i then do
      let (x, a) ← addBinding ruleSet fuel i a
      let (y, a) ← addBinding ruleSet fuel equalBindingId a
      let equals ← a.expansion.equals.merge x y
      return { a with expansion := { a.expansion with equals } }
    else some a
  | none => some a

/-- `Application::rule`: import `rule` of the term called at `callSite` with `parameters`. -/
def rule (a : Application) (ruleSet : RuleSet) (rule : Rule) (parameters : List BindingId)
    (callSite : BindingId) : Option Application := do
  let fuel := ruleSet.bindings.length
  let a := { a with expansion := { a.expansion with rules := a.expansion.rules ++ [rule.id] } }
  let a ← argsLoop ruleSet fuel 0 parameters a
  let a ← (List.range ruleSet.bindings.length).foldlM (constraintsLoop ruleSet fuel rule) a
  let a ← (List.range ruleSet.bindings.length).foldlM (equalsLoop ruleSet fuel rule) a
  let a ← rule.impure.foldlM (fun a b => (addBinding ruleSet fuel b a).map Prod.snd) a
  let (resultBindingId, a) ← addBinding ruleSet fuel rule.result a
  return { a with substitutions := a.substitutions ++ [(callSite, resultBindingId)] }

/-- `negation`: require that not all constraints of `rule` hold. -/
def negation (a : Application) (ruleSet : RuleSet) (rule : Rule) : Option Application := do
  let fuel := ruleSet.bindings.length
  let a := { a with expansion := { a.expansion with negated := a.expansion.negated ++ [rule.id] } }
  let (constraints, a) ← (List.range ruleSet.bindings.length).foldlM (fun (cs, a) i =>
    match rule.getConstraint i with
    | some constraint => do
      let (expansionBindingId, a) ← addBinding ruleSet fuel i a
      return (cs ++ [Constrain.match expansionBindingId constraint], a)
    | none => some (cs, a)) ([], a)
  return { a with expansion := { a.expansion with
    constraints := a.expansion.constraints ++ [Constrain.notAll constraints] } }

/-- `build`: apply the substitutions, last first. -/
def build (a : Application) : Option Expansion :=
  a.substitutions.reverse.foldlM (fun e (target, replace) => e.substitute target replace)
    a.expansion

end Application

/-- The typed form of the program

    (type T (primitive T))
    (decl foo (T T) T)
    (rule (foo x x) x)

with `T` as `TypeId(0)`, `foo` as `TermId(0)` (an internal constructor) and `x` as
`VarId(0)`. -/
def repeatedArgumentProgram : TermEnv :=
  ⟨[⟨[0, 0], 0, .decl ⟨false, false, false⟩ (some .internalConstructor) none⟩],
    [⟨0, 0, [.bindPattern 0 0 (.wildcard 0), .var 0 0], [], .var 0 0, 0, none, ⟨0, 0⟩⟩]⟩

/-- **Chaining loses the equality of a rule.** The rule of `foo` in
`repeatedArgumentProgram` requires its arguments `0` and `1` to be equal. Chaining it at the
call `2` of the root expansion of `foo` imports the arguments as `3` and `4`, merges them in
`equals`, and substitutes the parameters `0` and `1` for them and the result `3` for the call;
`substitute` deletes `3` and `4` but leaves `equals` as it was, so the chained expansion passes
`validate` and its `equalities` are empty: the requirement that the parameters be equal is
gone. -/
theorem chaining_drops_rule_equality :
    (build 1 repeatedArgumentProgram).map (fun x => x.1.flatMap fun e => e.2.rules.map fun r =>
        r.equals.inSameSet 0 1) = some [true] ∧
      ((build 1 repeatedArgumentProgram).bind fun x => x.1.head?.bind fun e =>
          e.2.rules.head?.bind fun r => (Expansion.root 0 2).bind fun root =>
            ((Application.new root).rule e.2 r [0, 1] 2).bind Application.build).map
        (fun chained => (chained.validate, chained.equalities.length, chained.result,
          chained.bindings.reduceOption.length)) = some (true, 0, 0, 2) := by
  decide +kernel

end Cranelift.Veri
