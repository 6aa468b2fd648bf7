import Mathlib.Data.List.AList
import Cranelift.Isle.Lexer

/-!
# The typed ISLE rules of `sema`, and how visitors walk them

A model of the part of `cranelift/isle/isle/src/sema.rs` that later passes read: the term
environment, the typed patterns and expressions of a rule, and the visitor interface
(`PatternVisitor`, `ExprVisitor`, `RuleVisitor`) with the `visit` methods that walk a rule and
call the visitor on every node. The typechecker that builds these values from the AST is not
modelled; a rule is given as the value it produces.

## Main definitions

* `Cranelift.Isle.Sema.Pattern`, `Cranelift.Isle.Sema.Expr`, `Cranelift.Isle.Sema.Rule`.
* `Cranelift.Isle.Sema.Term`, `Cranelift.Isle.Sema.TermEnv`.
* `Cranelift.Isle.Sema.RuleVisitor` — the visitor interface, as operations on a state.
* `Cranelift.Isle.Sema.Pattern.visit`, `Cranelift.Isle.Sema.Expr.visit`,
  `Cranelift.Isle.Sema.Rule.visit` — the walks.

## Design

The Rust visitor traits are implemented once, by `trie_again::RuleSetBuilder`, whose pattern
and expression visitors are the builder itself and whose identifiers are all `BindingId`s. The
interface is therefore a record of operations on one state `σ` with one identifier type `ι`,
and `add_pattern` and `add_expr`, which there call their closure on the builder, are left out.
An operation, like a `visit` method, returns `none` where the Rust code panics.
-/

namespace Cranelift.Isle.Sema

/-- `Sym`, `TypeId`, `VariantId`, `TermId`, `RuleId`, `VarId`: indices into the tables of the
type and term environments. -/
abbrev Sym := ℕ
/-- The id of an interned type. -/
abbrev TypeId := ℕ
/-- The id of a variant inside an enum. -/
abbrev VariantId := ℕ
/-- The id of an interned term. -/
abbrev TermId := ℕ
/-- The id of an interned rule. -/
abbrev RuleId := ℕ
/-- The id of a bound variable. -/
abbrev VarId := ℕ

/-- `TermFlags`: the flags `pure`, `multi` and `partial` of a `(decl ...)`. -/
structure TermFlags where
  pure : Bool
  multi : Bool
  isPartial : Bool
deriving DecidableEq, Repr

/-- `ConstructorKind`. -/
inductive ConstructorKind where
  | internalConstructor
  | externalConstructor (name : Sym)
deriving DecidableEq, Repr

/-- `ExtractorKind`; the template of an internal extractor (an AST pattern) is not read by the
visitors and is left out. -/
inductive ExtractorKind where
  | internalExtractor
  | externalExtractor (name : Sym) (infallible : Bool) (pos : Pos)
deriving DecidableEq, Repr

/-- `TermKind`. -/
inductive TermKind where
  | enumVariant (variant : VariantId)
  | decl (flags : TermFlags) (constructorKind : Option ConstructorKind)
      (extractorKind : Option ExtractorKind)
deriving DecidableEq, Repr

/-- `Term`: the fields the visitors read. -/
structure Term where
  argTys : List TypeId
  retTy : TypeId
  kind : TermKind
deriving DecidableEq, Repr

/-- `Term::is_partial`. -/
def Term.isPartial (t : Term) : Bool :=
  match t.kind with
  | .decl flags _ _ => flags.isPartial
  | .enumVariant _ => false

/-- `Term::has_constructor`: an enum variant, or a declaration with a constructor. -/
def Term.hasConstructor (t : Term) : Bool :=
  match t.kind with
  | .enumVariant _ => true
  | .decl _ constructorKind _ => constructorKind.isSome

/-- `Term::has_internal_constructor`: a declaration whose constructor is given by rules. -/
def Term.hasInternalConstructor (t : Term) : Bool :=
  match t.kind with
  | .decl _ (some .internalConstructor) _ => true
  | _ => false

/-- The parameter types of `Term::constructor_sig`, which is `None` for an enum variant and a
declaration without a constructor. -/
def Term.constructorParamTys (t : Term) : Option (List TypeId) :=
  match t.kind with
  | .decl _ (some _) _ => some t.argTys
  | _ => none

/-- `Pattern`: a left-hand side pattern. -/
inductive Pattern where
  | bindPattern (ty : TypeId) (var : VarId) (subpat : Pattern)
  | var (ty : TypeId) (var : VarId)
  | constInt (ty : TypeId) (val : ℤ)
  | constPrim (ty : TypeId) (val : Sym)
  | term (ty : TypeId) (term : TermId) (args : List Pattern)
  | wildcard (ty : TypeId)
  | and (ty : TypeId) (children : List Pattern)
deriving Repr

/-- `Pattern::ty`. -/
def Pattern.ty : Pattern → TypeId
  | .bindPattern t .. | .var t .. | .constInt t .. | .constPrim t .. | .term t .. | .wildcard t
  | .and t .. => t

/-- `Expr`: a right-hand side expression. -/
inductive Expr where
  | term (ty : TypeId) (term : TermId) (args : List Expr)
  | var (ty : TypeId) (var : VarId)
  | constInt (ty : TypeId) (val : ℤ)
  | constPrim (ty : TypeId) (val : Sym)
  | «let» (ty : TypeId) (bindings : List (VarId × TypeId × Expr)) (body : Expr)
deriving Repr

/-- `IfLet`: an `if-let` clause. -/
structure IfLet where
  lhs : Pattern
  rhs : Expr
deriving Repr

/-- `Rule`: a typed rule (its table of variable names is not read by the visitors). -/
structure Rule where
  id : RuleId
  rootTerm : TermId
  args : List Pattern
  iflets : List IfLet
  rhs : Expr
  prio : ℤ
  name : Option Sym
  pos : Pos
deriving Repr

/-- `TermEnv`: the terms, indexed by `TermId`, and the rules, indexed by `RuleId`. -/
structure TermEnv where
  terms : List Term
  rules : List Rule
deriving Repr

/-! ### The visitor interface -/

/-- `PatternVisitor`, `ExprVisitor` and `RuleVisitor` as operations on a state `σ`, with the
identifiers `ι` of subpatterns and subexpressions. `none` is a panic. -/
structure RuleVisitor (σ ι : Type) where
  addMatchEqual : ι → ι → TypeId → σ → Option σ
  addMatchInt : ι → TypeId → ℤ → σ → Option σ
  addMatchPrim : ι → TypeId → Sym → σ → Option σ
  addMatchVariant : ι → TypeId → List TypeId → VariantId → σ → Option (List ι × σ)
  addExtract : ι → TypeId → List TypeId → TermId → Bool → Bool → σ → Option (List ι × σ)
  addConstInt : TypeId → ℤ → σ → Option (ι × σ)
  addConstPrim : TypeId → Sym → σ → Option (ι × σ)
  addCreateVariant : List (ι × TypeId) → TypeId → VariantId → σ → Option (ι × σ)
  addConstruct : List (ι × TypeId) → TypeId → TermId → Bool → Bool → Bool → σ → Option (ι × σ)
  addArg : ℕ → TypeId → σ → Option (ι × σ)
  exprAsPattern : ι → σ → Option (ι × σ)
  patternAsExpr : ι → σ → Option (ι × σ)

/-- The variables bound so far, the `HashMap<VarId, _>` of the walks. -/
abbrev Vars (ι : Type) := AList fun _ : VarId => ι

variable {σ ι : Type} (v : RuleVisitor σ ι) (termenv : TermEnv)

/-! ### The walks -/

mutual

/-- `Pattern::visit`: match `input` against the pattern, binding its variables. -/
def Pattern.visit : Pattern → ι → Vars ι → σ → Option (Vars ι × σ)
  | .bindPattern _ varId subpat, input, vars, s =>
    -- `assert!(!vars.contains_key(&var))`
    if varId ∈ vars then none else subpat.visit input (vars.insert varId input) s
  | .var ty varId, input, vars, s => do
    let varVal ← vars.lookup varId
    let s ← v.addMatchEqual input varVal ty s
    return (vars, s)
  | .constInt ty value, input, vars, s => (v.addMatchInt input ty value s).map (vars, ·)
  | .constPrim ty value, input, vars, s => (v.addMatchPrim input ty value s).map (vars, ·)
  | .term ty termId args, input, vars, s => do
    let termdata ← termenv.terms[termId]?
    let (argValues, s) ←
      match termdata.kind with
      | .enumVariant variant => v.addMatchVariant input ty termdata.argTys variant s
      -- "Pattern invocation of undefined term body"
      | .decl _ _ none => none
      | .decl flags _ (some extractorKind) =>
        let infallible :=
          match extractorKind with
          | .externalExtractor _ infallible _ => infallible
          | .internalExtractor => false
        v.addExtract input termdata.retTy (args.map Pattern.ty) termId (infallible && !flags.multi)
          flags.multi s
    Pattern.visitZip args argValues vars s
  | .wildcard _, _, vars, s => some (vars, s)
  | .and _ children, input, vars, s => Pattern.visitAll children input vars s

/-- The loop `for (pat, val) in args.iter().zip(arg_values)` of `Pattern::visit`. -/
def Pattern.visitZip : List Pattern → List ι → Vars ι → σ → Option (Vars ι × σ)
  | pat :: pats, val :: vals, vars, s => do
    let (vars, s) ← pat.visit val vars s
    Pattern.visitZip pats vals vars s
  | _, _, vars, s => some (vars, s)

/-- The loop over the children of an `and` pattern, all matched against the same input. -/
def Pattern.visitAll : List Pattern → ι → Vars ι → σ → Option (Vars ι × σ)
  | [], _, vars, s => some (vars, s)
  | child :: children, input, vars, s => do
    let (vars, s) ← child.visit input vars s
    Pattern.visitAll children input vars s

end

mutual

/-- `Expr::visit`: build the expression, reading the variables bound so far. -/
def Expr.visit : Expr → Vars ι → σ → Option (ι × σ)
  | .constInt ty val, _, s => v.addConstInt ty val s
  | .constPrim ty val, _, s => v.addConstPrim ty val s
  | .«let» _ bindings body, vars, s => do
    let (vars, s) ← Expr.visitLet bindings vars s
    body.visit vars s
  -- `*vars.get(&var_id).unwrap()`
  | .var _ varId, vars, s => (vars.lookup varId).map (·, s)
  | .term ty termId argExprs, vars, s => do
    let termdata ← termenv.terms[termId]?
    let (argValues, s) ← Expr.visitArgs argExprs vars s
    let argValuesTys := argValues.zip termdata.argTys
    match termdata.kind with
    | .enumVariant variant => v.addCreateVariant argValuesTys ty variant s
    | .decl flags (some _) _ =>
      v.addConstruct argValuesTys ty termId flags.pure (!flags.isPartial) flags.multi s
    -- "Should have been caught by typechecking"
    | .decl _ none _ => none

/-- The bindings of a `let`, each visited with the variables bound before it. -/
def Expr.visitLet : List (VarId × TypeId × Expr) → Vars ι → σ → Option (Vars ι × σ)
  | [], vars, s => some (vars, s)
  | (varId, _, varExpr) :: bindings, vars, s => do
    let (varValue, s) ← varExpr.visit vars s
    Expr.visitLet bindings (vars.insert varId varValue) s

/-- The arguments of a term, visited in order. -/
def Expr.visitArgs : List Expr → Vars ι → σ → Option (List ι × σ)
  | [], _, s => some ([], s)
  | e :: es, vars, s => do
    let (x, s) ← e.visit vars s
    let (xs, s) ← Expr.visitArgs es vars s
    return (x :: xs, s)

end

/-- The map of `visit_in_rule` from the pattern variables to expression identifiers, through
`pattern_as_expr`. -/
def patternVarsAsExprs : List (Σ _ : VarId, ι) → σ → Option (Vars ι × σ)
  | [], s => some (∅, s)
  | ⟨varId, val⟩ :: rest, s => do
    let (e, s) ← v.patternAsExpr val s
    let (vars, s) ← patternVarsAsExprs rest s
    return (vars.insert varId e, s)

/-- `Expr::visit_in_rule`. -/
def Expr.visitInRule (e : Expr) (vars : Vars ι) (s : σ) : Option (ι × σ) := do
  let (varExprs, s) ← patternVarsAsExprs v vars.entries s
  e.visit v termenv varExprs s

/-- The loop of `Rule::visit` over the root term's arguments: `add_arg` for each, then its
pattern. -/
def Rule.visitArgs : ℕ → List (Pattern × TypeId) → Vars ι → σ → Option (Vars ι × σ)
  | _, [], vars, s => some (vars, s)
  | i, (subpat, argTy) :: rest, vars, s => do
    let (value, s) ← v.addArg i argTy s
    let (vars, s) ← subpat.visit v termenv value vars s
    Rule.visitArgs (i + 1) rest vars s

/-- The loop of `Rule::visit` over the `if-let` clauses. -/
def Rule.visitIfLets : List IfLet → Vars ι → σ → Option (Vars ι × σ)
  | [], vars, s => some (vars, s)
  | iflet :: rest, vars, s => do
    let (subexpr, s) ← iflet.rhs.visitInRule v termenv vars s
    let (value, s) ← v.exprAsPattern subexpr s
    let (vars, s) ← iflet.lhs.visit v termenv value vars s
    Rule.visitIfLets rest vars s

/-- `Rule::visit`: the arguments' patterns, the `if-let` clauses, then the right-hand side,
whose identifier is returned. -/
def Rule.visit (r : Rule) (s : σ) : Option (ι × σ) := do
  let termdata ← termenv.terms[r.rootTerm]?
  let (vars, s) ← Rule.visitArgs v termenv 0 (r.args.zip termdata.argTys) ∅ s
  let (vars, s) ← Rule.visitIfLets v termenv r.iflets vars s
  r.rhs.visitInRule v termenv vars s

end Cranelift.Isle.Sema
