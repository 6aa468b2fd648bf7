import Mathlib.Data.Finset.Insert
import Cranelift.Isle.DisjointSets
import Cranelift.Isle.Sema

/-!
# ISLE rules as binding sites and constraints

A model of `cranelift/isle/isle/src/trie_again.rs`: the translation of each typed rule into
hash-consed binding sites (`Binding`), the constraints a rule puts on them (`Constraint`) and the
equivalence classes of sites that must be equal, followed by `normalize_equivalence_classes`,
which copies each constraint through its class.

The builder's visitor methods are the operations of `Sema.RuleVisitor`, so `Sema.Rule.visit`
drives them as in `RuleSetBuilder::add_rule`. Hash maps are `AList`s; a `HashMap`'s iteration
order is the order of the list's entries, so a statement about every `AList` covers every order
the hash map can produce. The `StableSet` of iterators is a `Finset`. The conversions
`try_into().unwrap()` to `u8` (`TupleIndex`) and `u16` (`BindingId`) are checked and panic as in
Rust; a panic is `none`.

The two loops whose termination the source does not bound, the work list of
`expr_as_pattern` and the deferred constraints of `normalize_equivalence_classes`, take a fuel
argument, and running out of it is also `none`.

## Main definitions

* `Cranelift.Isle.TrieAgain.Binding`, `Cranelift.Isle.TrieAgain.Constraint`.
* `Cranelift.Isle.TrieAgain.Rule`, `Cranelift.Isle.TrieAgain.RuleSet`,
  `Cranelift.Isle.TrieAgain.RuleSetBuilder`.
* `Cranelift.Isle.TrieAgain.RuleSetBuilder.visitor` — the builder as a `Sema.RuleVisitor`.
* `Cranelift.Isle.TrieAgain.RuleSetBuilder.normalizeEquivalenceClasses`.
* `Cranelift.Isle.TrieAgain.RuleSetBuilder.addRule`, `Cranelift.Isle.TrieAgain.build`.
-/

namespace Cranelift.Isle.TrieAgain

open Sema

/-- `TupleIndex(u8)`: a field index in a tuple or an enum variant. -/
abbrev TupleIndex := ℕ
/-- `BindingId(u16)`: the hash-consed identifier of a binding, its index in `RuleSet.bindings`. -/
abbrev BindingId := ℕ

/-- `TupleIndex::try_from` and `BindingId::try_from`: a `usize` that fits in `w` bits. -/
def tryInto (w n : ℕ) : Option ℕ := if n < 2 ^ w then some n else none

/-- `Binding`: anything which can be bound to a variable name in the generated Rust. -/
inductive Binding where
  | constInt (val : ℤ) (ty : TypeId)
  | constPrim (val : Sym)
  | argument (index : TupleIndex)
  | extractor (term : TermId) (parameter : BindingId)
  | constructor (term : TermId) (parameters : List BindingId) («instance» : ℕ)
  | iterator (source : BindingId)
  | makeVariant (ty : TypeId) (variant : VariantId) (fields : List BindingId)
  | matchVariant (source : BindingId) (variant : VariantId) (field : TupleIndex)
  | makeSome (inner : BindingId)
  | matchSome (source : BindingId)
  | matchTuple (source : BindingId) (field : TupleIndex)
deriving DecidableEq, Repr

/-- `Binding::sources`: the binding sites evaluated before this one. -/
def Binding.sources : Binding → List BindingId
  | .constInt .. | .constPrim _ | .argument _ => []
  | .extractor _ parameter => [parameter]
  | .constructor _ parameters _ => parameters
  | .iterator source => [source]
  | .makeVariant _ _ fields => fields
  | .matchVariant source _ _ => [source]
  | .makeSome inner => [inner]
  | .matchSome source => [source]
  | .matchTuple source _ => [source]

/-- `Constraint`: a pattern match that can fail. -/
inductive Constraint where
  | variant (ty : TypeId) (variant : VariantId) (fields : TupleIndex)
  | constInt (val : ℤ) (ty : TypeId)
  | constPrim (val : Sym)
  | some
deriving DecidableEq, Repr

/-- `Constraint::bindings_for`: the binding sites that matching the constraint on `source`
introduces. -/
def Constraint.bindingsFor (c : Constraint) (source : BindingId) : List Binding :=
  match c with
  | .constInt .. | .constPrim _ => []
  | .some => [.matchSome source]
  | .variant _ v fields => (List.range fields).map fun field => .matchVariant source v field

/-- `Constraint::compatible`: whether the constraint could hold of the binding. -/
def Constraint.compatible : Constraint → Binding → Bool
  | .variant tc vc _, .makeVariant tb vb _ => tb = tc && vb = vc
  | .constInt vc tc, .constInt vb tb => vc = vb && tc = tb
  | _, _ => true

/-- The `Debug` text of a constraint, as `#[derive(Debug)]` writes it. -/
def Constraint.debug : Constraint → String
  | .variant ty v fields =>
    s!"Variant \x7b ty: TypeId({ty}), variant: VariantId({v}), fields: TupleIndex({fields}) \x7d"
  | .constInt val ty => s!"ConstInt \x7b val: {val}, ty: TypeId({ty}) \x7d"
  | .constPrim val => s!"ConstPrim \x7b val: Sym({val}) \x7d"
  | .some => "Some"

/-- `Rule`: a rule as binding sites, constraints and equalities. All `BindingId`s refer to the
`RuleSet` that holds the rule. -/
structure Rule where
  id : RuleId
  pos : Pos
  constraints : AList fun _ : BindingId => Constraint
  equals : DisjointSets BindingId
  iterators : Finset BindingId
  prio : ℤ
  name : Option Sym
  impure : List BindingId
  result : BindingId

/-- `#[derive(Default)]`. -/
instance : Inhabited Rule :=
  ⟨⟨0, default, ∅, .empty, ∅, 0, none, [], 0⟩⟩

/-- `Overlap`: whether two rules can match one input. -/
inductive Overlap where
  | no
  | yes (subset : Bool)
deriving DecidableEq, Repr

/-- `UnreachableError`: a binding site required to match two different constraints. -/
structure UnreachableError where
  pos : Pos
  constraintA : Constraint
  constraintB : Constraint
deriving DecidableEq, Repr

namespace Rule

/-- `total_constraints`: the binding sites with a concrete constraint plus those with an
equality constraint. -/
def totalConstraints (r : Rule) : ℕ := r.constraints.keys.length + r.equals.len

/-- `get_constraint`. -/
def getConstraint (r : Rule) (source : BindingId) : Option Constraint := r.constraints.lookup source

/-- `Rule::set_constraint`: record the constraint, or report the one already there if it
differs. -/
def setConstraint (r : Rule) (source : BindingId) (constraint : Constraint) :
    Except UnreachableError Rule :=
  match r.constraints.lookup source with
  | some existing =>
    if existing ≠ constraint then .error ⟨r.pos, existing, constraint⟩ else .ok r
  | none => .ok { r with constraints := r.constraints.insert source constraint }

/-- The loop of `may_overlap` over the smaller rule's constraints. -/
def mayOverlapLoop (big : Rule) : List (Σ _ : BindingId, Constraint) → Bool → Overlap
  | [], subset => .yes subset
  | ⟨binding, a⟩ :: rest, subset =>
    match big.constraints.lookup binding with
    | some b => if a ≠ b then .no else mayOverlapLoop big rest subset
    | none => mayOverlapLoop big rest false

/-- `may_overlap`: whether some input can match both rules, and if so whether the inputs of the
rule with more constraints are among those of the other. -/
def mayOverlap (self other : Rule) : Overlap :=
  let (small, big) :=
    if self.constraints.keys.length ≤ other.constraints.keys.length then (self, other)
    else (other, self)
  mayOverlapLoop big small.constraints.entries (small.equals.isEmpty && big.equals.isEmpty)

end Rule

/-- `RuleSet`: the rules of one term with their hash-consed bindings. -/
structure RuleSet where
  rules : List Rule
  bindings : List Binding
  bindingMap : AList fun _ : Binding => BindingId

/-- `RuleSet::find_binding`. -/
def RuleSet.findBinding (rs : RuleSet) (binding : Binding) : Option BindingId :=
  rs.bindingMap.lookup binding

/-- `Error::UnreachableError { msg, span: Span::new_single(pos) }`. -/
structure Error where
  msg : String
  pos : Pos

/-- `RuleSetBuilder`: the rule being built, the counter of impure constructor calls, the
conflicts found so far, and the rules built. -/
structure RuleSetBuilder where
  currentRule : Rule
  impureInstance : ℕ
  unreachable : List UnreachableError
  rules : RuleSet

/-- `#[derive(Default)]`. -/
instance : Inhabited RuleSetBuilder :=
  ⟨⟨default, 0, [], ⟨[], [], ∅⟩⟩⟩

namespace RuleSetBuilder

/-- The builder with the current rule's equality classes replaced. -/
def setEquals (s : RuleSetBuilder) (equals : DisjointSets BindingId) : RuleSetBuilder :=
  { s with currentRule := { s.currentRule with equals } }

/-- `dedup_binding`: the id of an equal binding if there is one, else a new id at the end of
`bindings`. -/
def dedupBinding (s : RuleSetBuilder) (binding : Binding) : Option (BindingId × RuleSetBuilder) :=
  match s.rules.bindingMap.lookup binding with
  | some id => some (id, s)
  | none => do
    let id ← tryInto 16 s.rules.bindings.length
    return (id, { s with
      rules := { s.rules with
        bindings := s.rules.bindings ++ [binding]
        bindingMap := s.rules.bindingMap.insert binding id } })

/-- `.map(|binding| self.dedup_binding(binding)).collect()`. -/
def dedupAll (s : RuleSetBuilder) : List Binding → Option (List BindingId × RuleSetBuilder)
  | [] => some ([], s)
  | b :: bs => do
    let (id, s) ← s.dedupBinding b
    let (ids, s) ← s.dedupAll bs
    return (id :: ids, s)

/-- `RuleSetBuilder::set_constraint`: set the constraint, recording a conflict, and return the
binding sites it introduces. -/
def setConstraint (s : RuleSetBuilder) (input : BindingId) (constraint : Constraint) :
    Option (List BindingId × RuleSetBuilder) :=
  let s :=
    match s.currentRule.setConstraint input constraint with
    | .error e => { s with unreachable := s.unreachable ++ [e] }
    | .ok r => { s with currentRule := r }
  s.dedupAll (constraint.bindingsFor input)

/-! ### The visitor methods -/

/-- `add_match_equal`: sites that are the same site are equal already. -/
def addMatchEqual (s : RuleSetBuilder) (a b : BindingId) (_ty : TypeId) : Option RuleSetBuilder :=
  if a ≠ b then (s.currentRule.equals.merge a b).map s.setEquals else some s

/-- `add_match_int`. -/
def addMatchInt (s : RuleSetBuilder) (input : BindingId) (ty : TypeId) (val : ℤ) :
    Option RuleSetBuilder :=
  (s.setConstraint input (.constInt val ty)).map Prod.snd

/-- `add_match_prim`. -/
def addMatchPrim (s : RuleSetBuilder) (input : BindingId) (_ty : TypeId) (val : Sym) :
    Option RuleSetBuilder :=
  (s.setConstraint input (.constPrim val)).map Prod.snd

/-- `add_match_variant`: constrain `input` to the variant and return its fields. -/
def addMatchVariant (s : RuleSetBuilder) (input : BindingId) (inputTy : TypeId)
    (argTys : List TypeId) (variant : VariantId) : Option (List BindingId × RuleSetBuilder) := do
  let fields ← tryInto 8 argTys.length
  s.setConstraint input (.variant inputTy variant fields)

/-- `add_extract`: call the extractor on `input`, match `Some` unless it is infallible or
multi, and project the outputs of a tuple. -/
def addExtract (s : RuleSetBuilder) (input : BindingId) (_inputTy : TypeId)
    (outputTys : List TypeId) (term : TermId) (infallible multi : Bool) :
    Option (List BindingId × RuleSetBuilder) := do
  let (source, s) ← s.dedupBinding (.extractor term input)
  let (source, s) ←
    if multi then
      let s := { s with currentRule := { s.currentRule with
        iterators := insert source s.currentRule.iterators } }
      s.dedupBinding (.iterator source)
    else if infallible then pure (source, s)
    else do
      let (bindings, s) ← s.setConstraint source .some
      let b ← bindings[0]?
      pure (b, s)
  let outputs ← tryInto 8 outputTys.length
  match outputs with
  | 0 => return ([], s)
  | 1 => return ([source], s)
  | outputs => s.dedupAll ((List.range outputs).map fun field => .matchTuple source field)

/-- `add_const_int`. -/
def addConstInt (s : RuleSetBuilder) (ty : TypeId) (val : ℤ) :
    Option (BindingId × RuleSetBuilder) :=
  s.dedupBinding (.constInt val ty)

/-- `add_const_prim`. -/
def addConstPrim (s : RuleSetBuilder) (_ty : TypeId) (val : Sym) :
    Option (BindingId × RuleSetBuilder) :=
  s.dedupBinding (.constPrim val)

/-- `add_create_variant`. -/
def addCreateVariant (s : RuleSetBuilder) (inputs : List (BindingId × TypeId)) (ty : TypeId)
    (variant : VariantId) : Option (BindingId × RuleSetBuilder) :=
  s.dedupBinding (.makeVariant ty variant (inputs.map Prod.fst))

/-- `add_construct`: call the constructor, numbering impure calls, and match `Some` (without a
constraint) when it is fallible. -/
def addConstruct (s : RuleSetBuilder) (inputs : List (BindingId × TypeId)) (_ty : TypeId)
    (term : TermId) (pure infallible multi : Bool) : Option (BindingId × RuleSetBuilder) := do
  let (inst, s) :=
    if pure then (0, s) else (s.impureInstance + 1, { s with impureInstance := s.impureInstance + 1 })
  let (source, s) ← s.dedupBinding (.constructor term (inputs.map Prod.fst) inst)
  let (source, s) ←
    if multi then
      let s := { s with currentRule := { s.currentRule with
        iterators := insert source s.currentRule.iterators } }
      s.dedupBinding (.iterator source)
    else if infallible then Option.some (source, s)
    else s.dedupBinding (.matchSome source)
  let s := if !pure then { s with currentRule := { s.currentRule with
    impure := s.currentRule.impure ++ [source] } } else s
  return (source, s)

/-- `add_arg`. -/
def addArg (s : RuleSetBuilder) (index : ℕ) (_ty : TypeId) : Option (BindingId × RuleSetBuilder) := do
  let index ← tryInto 8 index
  s.dedupBinding (.argument index)

/-- The work list of `expr_as_pattern`: visit every site the expression is built from and
constrain the source of each `MatchSome` to be `Some`. -/
def exprAsPatternLoop : ℕ → List BindingId → RuleSetBuilder → Option RuleSetBuilder
  | _, [], s => some s
  | 0, _ :: _, _ => none
  | fuel + 1, expr :: todo, s => do
    -- `&self.rules.bindings[expr.index()]`
    let expr ← s.rules.bindings[expr]?
    let todo := expr.sources.reverse ++ todo
    let s ← match expr with
      | .matchSome source => (s.setConstraint source .some).map Prod.snd
      | _ => some s
    exprAsPatternLoop fuel todo s

/-- `expr_as_pattern`. -/
def exprAsPattern (fuel : ℕ) (s : RuleSetBuilder) (expr : BindingId) :
    Option (BindingId × RuleSetBuilder) :=
  (exprAsPatternLoop fuel [expr] s).map (expr, ·)

/-- The builder as the visitor that `Sema.Rule.visit` drives. -/
def visitor (fuel : ℕ) : RuleVisitor RuleSetBuilder BindingId where
  addMatchEqual a b ty s := s.addMatchEqual a b ty
  addMatchInt input ty val s := s.addMatchInt input ty val
  addMatchPrim input ty val s := s.addMatchPrim input ty val
  addMatchVariant input inputTy argTys variant s := s.addMatchVariant input inputTy argTys variant
  addExtract input inputTy outputTys term infallible multi s :=
    s.addExtract input inputTy outputTys term infallible multi
  addConstInt ty val s := s.addConstInt ty val
  addConstPrim ty val s := s.addConstPrim ty val
  addCreateVariant inputs ty variant s := s.addCreateVariant inputs ty variant
  addConstruct inputs ty term pure infallible multi s :=
    s.addConstruct inputs ty term pure infallible multi
  addArg index ty s := s.addArg index ty
  exprAsPattern expr s := s.exprAsPattern fuel expr
  patternAsExpr pattern s := some (pattern, s)

/-! ### `normalize_equivalence_classes` -/

/-- A deferred constraint: a binding site, and the constraint to copy through its class. -/
abbrev Deferred := List (BindingId × Constraint)

/-- The closure `defer`: if the site has a constraint, push it. -/
def defer (s : RuleSetBuilder) (deferred : Deferred) (binding : BindingId) : Deferred :=
  match s.currentRule.getConstraint binding with
  | some constraint => (binding, constraint) :: deferred
  | none => deferred

/-- The first loop: for every constrained site that is in an equivalence class, the class's
representative (from `find_mut`) and the constraint. -/
def collectDeferred : List (Σ _ : BindingId, Constraint) → Deferred → DisjointSets BindingId →
    Option (Deferred × DisjointSets BindingId)
  | [], deferred, equals => some (deferred, equals)
  | ⟨binding, constraint⟩ :: rest, deferred, equals => do
    let (root, equals) ← equals.findMut binding
    let deferred := match root with
      | some root => (root, constraint) :: deferred
      | none => deferred
    collectDeferred rest deferred equals

/-- The loop `for (&x, y) in base_fields.iter().zip(self.set_constraint(b, constraint))`:
defer `y`, then merge it with `x`. -/
def mergeFields : List BindingId → List BindingId → Deferred → RuleSetBuilder →
    Option (Deferred × RuleSetBuilder)
  | x :: xs, y :: ys, deferred, s => do
    let deferred := s.defer deferred y
    let equals ← s.currentRule.equals.merge x y
    mergeFields xs ys deferred (s.setEquals equals)
  | _, _, deferred, s => some (deferred, s)

/-- The loop `for &b in rest`: constrain each other member of the class, and make its fields
equal to the base's. -/
def constrainRest (baseFields : List BindingId) (constraint : Constraint) :
    List BindingId → Deferred → RuleSetBuilder → Option (Deferred × RuleSetBuilder)
  | [], deferred, s => some (deferred, s)
  | b :: rest, deferred, s => do
    let (fields, s) ← s.setConstraint b constraint
    let (deferred, s) ← mergeFields baseFields fields deferred s
    constrainRest baseFields constraint rest deferred s

/-- The `while let Some((current, constraint)) = deferred_constraints.pop()` loop: remove the
class of `current`, constrain its first member `base`, defer the base's fields, then constrain
the other members. -/
def normalizeLoop : ℕ → Deferred → RuleSetBuilder → Option RuleSetBuilder
  | _, [], s => some s
  | 0, _ :: _, _ => none
  | fuel + 1, (current, constraint) :: deferred, s => do
    let (set, equals) ← s.currentRule.equals.removeSetOf current
    let s := s.setEquals equals
    match set with
    | [] => normalizeLoop fuel deferred s
    | base :: rest =>
      let (baseFields, s) ← s.setConstraint base constraint
      let deferred := baseFields.foldl s.defer deferred
      let (deferred, s) ← constrainRest baseFields constraint rest deferred s
      normalizeLoop fuel deferred s

/-- `normalize_equivalence_classes`: copy each concrete constraint to every site of its class,
pushing equalities into the fields. -/
def normalizeEquivalenceClasses (fuel : ℕ) (s : RuleSetBuilder) : Option RuleSetBuilder := do
  let (deferred, equals) ←
    collectDeferred s.currentRule.constraints.entries [] s.currentRule.equals
  normalizeLoop fuel deferred (s.setEquals equals)

/-! ### Adding rules -/

/-- The error that `add_rule` reports for a conflict. -/
def UnreachableError.toError (err : UnreachableError) : Error :=
  ⟨s!"rule requires binding to match both {err.constraintA.debug} and {err.constraintB.debug}",
    err.pos⟩

/-- `add_rule`: visit the rule, wrap the result of a partial term in `Some`, normalize, and
keep the rule unless a conflict was found, in which case report the conflicts instead. -/
def addRule (fuel : ℕ) (s : RuleSetBuilder) (rule : Sema.Rule) (termenv : TermEnv)
    (errors : List Error) : Option (RuleSetBuilder × List Error) := do
  let s := { s with
    impureInstance := 0
    currentRule := { s.currentRule with
      id := rule.id, pos := rule.pos, prio := rule.prio, name := rule.name } }
  let (result, s) ← rule.visit (visitor fuel) termenv s
  let s := { s with currentRule := { s.currentRule with result } }
  let term ← termenv.terms[rule.rootTerm]?
  let s ←
    if term.isPartial then do
      let (result, s) ← s.dedupBinding (.makeSome s.currentRule.result)
      pure { s with currentRule := { s.currentRule with result } }
    else pure s
  let s ← s.normalizeEquivalenceClasses fuel
  -- `std::mem::take(&mut self.current_rule)`
  let rule := s.currentRule
  let s := { s with currentRule := default }
  if s.unreachable.isEmpty then
    return ({ s with rules := { s.rules with rules := s.rules.rules ++ [rule] } }, errors)
  else
    return ({ s with unreachable := [] }, errors ++ s.unreachable.map UnreachableError.toError)

end RuleSetBuilder

/-- The loop of `build`: add each rule to the builder of its root term. -/
def buildLoop (fuel : ℕ) (termenv : TermEnv) :
    List Sema.Rule → AList (fun _ : TermId => RuleSetBuilder) → List Error →
      Option (AList (fun _ : TermId => RuleSetBuilder) × List Error)
  | [], term, errors => some (term, errors)
  | rule :: rules, term, errors => do
    let builder := (term.lookup rule.rootTerm).getD default
    let (builder, errors) ← builder.addRule fuel rule termenv errors
    buildLoop fuel termenv rules (term.insert rule.rootTerm builder) errors

/-- `build`: a `RuleSet` for each term that has rules, sorted by term, and the errors. -/
def build (fuel : ℕ) (termenv : TermEnv) : Option (List (TermId × RuleSet) × List Error) := do
  let (term, errors) ← buildLoop fuel termenv termenv.rules ∅ []
  let result := term.entries.map fun e => (e.1, e.2.rules)
  return (result.insertionSort fun a b => a.1 ≤ b.1, errors)

/-- The typed form of the program

    (type T (enum (A (inner T))))
    (decl f (T) T)
    (rule (f (and x (T.A x))) x)

with the ids `sema` gives it: type `T` is `TypeId(0)`, `f` is `TermId(0)` (an internal
constructor), its variant term `T.A` is `TermId(1)`, and `x` is `VarId(0)`. `translate_pattern`
translates the children of the `and` in order: the first `x` is unbound and becomes a
`BindPattern` of a wildcard, and the second, already bound, becomes `Pattern::Var`. -/
def cyclicVariantProgram : TermEnv :=
  ⟨[⟨[0], 0, .decl ⟨false, false, false⟩ (some .internalConstructor) none⟩, ⟨[0], 0, .enumVariant 0⟩],
    [⟨0, 0, [.and 0 [.bindPattern 0 0 (.wildcard 0), .term 0 1 [.var 0 0]]], [], .var 0 0, 0,
      none, ⟨0, 45⟩⟩]⟩

/-- **A constrained binding site left in an equivalence class.** In `cyclicVariantProgram` the
argument `0` matches `T.A`, whose field is site `1`, and `1` is set equal to `0`. Normalization
copies the constraint to site `1`, whose own field `2` it then sets equal to `1`, after the
check that `defer` makes on it: the rule is kept with no conflict, and site `1` is both
constrained and in a class of `equals`, so `total_constraints` counts it twice. -/
theorem normalize_keeps_constrained_site_in_equals :
    (build 10 cyclicVariantProgram).map (fun x => (x.1.map Prod.fst, x.2.length)) =
        some ([0], 0) ∧
      (build 10 cyclicVariantProgram).map (fun x => x.1.flatMap fun e => e.2.rules.map fun r =>
          (r.getConstraint 1, r.equals.inSameSet 1 2, r.totalConstraints)) =
        some [(some (.variant 0 0 1), true, 4)] := by
  decide +kernel

end Cranelift.Isle.TrieAgain
