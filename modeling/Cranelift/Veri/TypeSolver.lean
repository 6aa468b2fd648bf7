import Cranelift.Veri.TypeInference
import Cranelift.Lib.FiniteHeight
import Cranelift.Lib.Loops
import Mathlib.Data.List.AList

/-!
# Type propagation in the ISLE verifier

A model of `Solver` in `cranelift/isle/veri/veri/src/type_inference.rs`: type inference solves
a system of type constraints by propagation. `Solver::propagate` runs `iterate` until it reports
no change; `iterate` applies each constraint once, and every constraint ends in
`set_type_value`, which merges a new fact into what the assignment knows of an expression.
`Solver::solve` propagates the system's own constraints, then forks on its last branch and solves
each arm, until no branch is left.

The methods on `&mut self` are the monad `SolverM`: from an assignment, a method panics (the
outer `none`), or returns `Ok` or `Err` with the assignment it leaves. An `Err` keeps the
changes made before it, as the `?` of the source does. The `unwrap` of an `i128` converted to
`usize` panics out of range, and so does a `+` of `usize` widths that overflows, as in a debug
build. A `Conflict` keeps the expression at which propagation failed; its text is not modelled.
The choices of a system are only copied, so their type is a parameter.

## Main definitions

* `Constraint`, `Assignment`, `Status`, `System`.
* `SolverM`, with `setTypeValue` and the methods of each constraint, `constraint`, `iterate`.
* `propagateLoop`, `propagate`, `solve`.
* `Raises` — a method that only raises the assignment, at the expressions of its constraint.

## Main results

* `setTypeValue_change_iff` — `set_type_value` reports a change exactly when it adds an entry or
  raises one strictly.
* `raises_constraint`, `raises_iterate` — every constraint raises the assignment at its own
  expressions, and reports a change exactly when it makes one.
* `propagateLoop_spec` — the loop ends within its fuel, and more fuel gives the same result: a
  round that changes the assignment raises its potential, which is bounded.
* `propagate_terminates_raises` — propagation ends at a fixed point of `iterate` above the
  assignment it started from, and so does every solution of `solve`.
-/

namespace Cranelift.Veri.TypeInference

open PartialCmp Cranelift.Veri.Types FiniteHeight

/-! ### Constraints and assignments -/

/-- `Literal`: a boolean expression, by its index, or its negation. -/
inductive Literal where
  | var (x : ℕ)
  | not (x : ℕ)
  deriving DecidableEq, Repr

/-- The expression of a literal. -/
def Literal.expr : Literal → ℕ
  | .var x | .not x => x

/-- `Constraint`. -/
inductive Constraint where
  | type (x : ℕ) (ty : Ty)
  | sameType (x y : ℕ)
  | identical (x y : ℕ)
  | widthOf (x w : ℕ)
  | concat (x l r : ℕ)
  | value (x : ℕ) (c : Const)
  | implies (c : ℕ) («then» : Constraint)
  | clause (literals : List Literal)
  deriving Repr

/-- The expressions whose type value a constraint may set. The condition of an implication is
only read. -/
def Constraint.exprs : Constraint → Finset ℕ
  | .type x _ | .value x _ => {x}
  | .sameType x y | .identical x y => {x, y}
  | .widthOf x w => {x, w}
  | .concat x l r => {x, l, r}
  | .implies _ «then» => «then».exprs
  | .clause literals => (literals.map Literal.expr).toFinset

/-- The expressions whose type value some constraint of a list may set. -/
def Constraint.exprsOf : List Constraint → Finset ℕ
  | [] => ∅
  | c :: cs => c.exprs ∪ exprsOf cs

/-- `Conflict`: the expression at which propagation failed. -/
structure Conflict where
  x : ℕ
  deriving DecidableEq, Repr

/-- `Status`. -/
inductive Status where
  | solved
  | inapplicable (conflict : Conflict)
  | underconstrained
  | typeError (conflict : Conflict)
  deriving DecidableEq, Repr

/-- `Assignment`: its `HashMap` from expressions to type values is an association list. -/
structure Assignment where
  exprTypeValue : AList (fun _ : ℕ => TypeValue)

namespace Assignment

/-- `Assignment::new`. -/
def new : Assignment := ⟨∅⟩

/-- `Assignment::assignment`. -/
def assignment (a : Assignment) (x : ℕ) : Option TypeValue := a.exprTypeValue.lookup x

/-- `HashMap::insert`, as `set_type_value` uses it. -/
def insert (a : Assignment) (x : ℕ) (tv : TypeValue) : Assignment := ⟨a.exprTypeValue.insert x tv⟩

/-- `Assignment::value`. -/
def value (a : Assignment) (x : ℕ) : Option Const := (a.assignment x).bind TypeValue.asValue

/-- `Assignment::bool_value`. -/
def boolValue (a : Assignment) (x : ℕ) : Option Bool := (a.value x).bind Const.asBool

/-- `Assignment::literal`. -/
def literal (a : Assignment) : Literal → Option Bool
  | .var x => a.boolValue x
  | .not x => (a.boolValue x).map (!·)

/-- `Assignment::bit_vector_width`. -/
def bitVectorWidth (a : Assignment) (x : ℕ) : Option ℕ :=
  (a.assignment x).bind fun tv => tv.ty.asBitVectorWidth.bind Width.asBits

/-- `Assignment::is_concrete`. -/
def isConcrete (a : Assignment) : Bool := a.exprTypeValue.entries.all fun e => e.2.ty.isConcrete

@[simp] theorem assignment_insert_self (a : Assignment) (x : ℕ) (tv : TypeValue) :
    (a.insert x tv).assignment x = some tv :=
  AList.lookup_insert _

@[simp] theorem assignment_insert_ne (a : Assignment) {x k : ℕ} (tv : TypeValue) (h : k ≠ x) :
    (a.insert x tv).assignment k = a.assignment k :=
  AList.lookup_insert_ne h

/-- An assignment is below another when every type value it knows is below one the other
knows. -/
instance : Preorder Assignment where
  le a a' := ∀ x, OptLe (a.assignment x) (a'.assignment x)
  le_refl a x := OptLe.refl _
  le_trans _ _ _ h₁₂ h₂₃ x := (h₁₂ x).trans (h₂₃ x)

theorem le_def {a a' : Assignment} : a ≤ a' ↔ ∀ x, OptLe (a.assignment x) (a'.assignment x) :=
  Iff.rfl

/-- An insertion that raises the entry it replaces raises the assignment. -/
theorem le_insert {a : Assignment} {x : ℕ} {tv : TypeValue} (h : OptLe (a.assignment x) (some tv)) :
    a ≤ a.insert x tv := by
  intro k
  by_cases hk : k = x
  · subst hk
    rw [assignment_insert_self]
    exact h
  · rw [assignment_insert_ne a tv hk]
    exact OptLe.refl _

end Assignment

/-! ### The solver monad -/

/-- The methods of `Solver` on `&mut self`: from an assignment, a panic (`none`), or `Ok` or
`Err` with the assignment left. -/
abbrev SolverM := ExceptT Status (StateT Assignment Option)

/-- Run a method of the solver from an assignment. -/
def SolverM.runFrom {α : Type} (x : SolverM α) (a : Assignment) :
    Option (Except Status α × Assignment) :=
  x.run.run a

/-- `Option::unwrap`: a panic on `None`. -/
def unwrap {α : Type} : Option α → SolverM α
  | some v => pure v
  | none => ExceptT.lift (StateT.lift none)

/-- `i128::try_into::<usize>`. -/
def tryIntoUsize (v : ℤ) : Option ℕ := if 0 ≤ v ∧ v < 2 ^ 64 then some v.toNat else none

/-- The `+` of `usize`, which panics on overflow in a debug build. -/
def checkedAdd (a b : ℕ) : Option ℕ := if a + b < 2 ^ 64 then some (a + b) else none

/-- `usize::checked_sub`. -/
def checkedSub (a b : ℕ) : Option ℕ := if b ≤ a then some (a - b) else none

namespace SolverM

variable {α β : Type}

@[simp] theorem runFrom_pure (v : α) (a : Assignment) :
    (pure v : SolverM α).runFrom a = some (.ok v, a) := rfl

@[simp] theorem runFrom_throw (e : Status) (a : Assignment) :
    (throw e : SolverM α).runFrom a = some (.error e, a) := rfl

@[simp] theorem runFrom_get_bind (f : Assignment → SolverM α) (a : Assignment) :
    (get >>= f).runFrom a = (f a).runFrom a := rfl

@[simp] theorem runFrom_set_bind (a' : Assignment) (f : PUnit → SolverM α) (a : Assignment) :
    (set a' >>= f).runFrom a = (f ()).runFrom a' := rfl

@[simp] theorem runFrom_unwrap_none (a : Assignment) : (unwrap none : SolverM α).runFrom a = none :=
  rfl

@[simp] theorem runFrom_unwrap_some_bind (v : α) (f : α → SolverM β) (a : Assignment) :
    (unwrap (some v) >>= f).runFrom a = (f v).runFrom a := rfl

@[simp] theorem runFrom_unwrap_none_bind (f : α → SolverM β) (a : Assignment) :
    (unwrap none >>= f).runFrom a = none := rfl

/-- The run of a bind: the first part's panic or error ends it, and its result is passed on
with the assignment it leaves. -/
theorem runFrom_bind (x : SolverM α) (f : α → SolverM β) (a : Assignment) :
    (x >>= f).runFrom a = match x.runFrom a with
      | none => none
      | some (.error e, a') => some (.error e, a')
      | some (.ok v, a') => (f v).runFrom a' := by
  simp only [runFrom, ExceptT.run_bind, StateT.run_bind]
  rcases x.run.run a with _ | ⟨_ | v, a'⟩ <;> rfl

/-- **Peeling a bind apart**: a run of `x >>= f` that returns ends in an error of `x`, or runs
`f` on a result of `x`. -/
theorem runFrom_bind_eq_some {x : SolverM α} {f : α → SolverM β} {a a' : Assignment}
    {r : Except Status β} (h : (x >>= f).runFrom a = some (r, a')) :
    (∃ e, r = .error e ∧ x.runFrom a = some (.error e, a')) ∨
      ∃ v a₁, x.runFrom a = some (.ok v, a₁) ∧ (f v).runFrom a₁ = some (r, a') := by
  rw [runFrom_bind] at h
  rcases hx : x.runFrom a with _ | ⟨_ | v, a₁⟩ <;> rw [hx] at h
  · cases h
  · cases h
    exact .inl ⟨_, rfl, rfl⟩
  · exact .inr ⟨v, a₁, rfl, h⟩

end SolverM

/-! ### The methods of the solver -/

open Assignment

/-- `Solver::set_type_value`: record a first type value, or merge the new one with the one
known, failing when they are incomparable. -/
def setTypeValue (x : ℕ) (tv : TypeValue) : SolverM Bool := do
  let a ← get
  match a.assignment x with
  | none =>
    set (a.insert x tv)
    return true
  | some existing =>
    match TypeValue.merge existing tv with
    | none =>
      throw (if !existing.ty.isCompatibleWith tv.ty then .typeError ⟨x⟩ else .inapplicable ⟨x⟩)
    | some merged =>
      if merged ≠ existing then
        set (a.insert x merged)
        return true
      else
        return false

/-- `Solver::set_type`. -/
def setType (x : ℕ) (ty : Ty) : SolverM Bool := setTypeValue x (.type ty)

/-- `Solver::set_bit_vector_width`. -/
def setBitVectorWidth (x bits : ℕ) : SolverM Bool := setType x (.bitVector (.bits bits))

/-- `Solver::set_value`. -/
def setValue (x : ℕ) (c : Const) : SolverM Bool := setTypeValue x (.value c)

/-- `Solver::set_bool_value`. -/
def setBoolValue (x : ℕ) (b : Bool) : SolverM Bool := setValue x (.bool b)

/-- `Solver::set_int_value`. -/
def setIntValue (x : ℕ) (v : ℤ) : SolverM Bool := setValue x (.int v)

/-- `Solver::set_literal`. -/
def setLiteral (lit : Literal) (b : Bool) : SolverM Bool :=
  match lit with
  | .var x => setBoolValue x b
  | .not x => setBoolValue x !b

/-- `Solver::same_type`. Both type values are read before either is set. -/
def sameType (x y : ℕ) : SolverM Bool := do
  let a ← get
  match a.assignment x, a.assignment y with
  | none, none => return false
  | some tvx, none => setType y tvx.ty
  | none, some tvy => setType x tvy.ty
  | some tvx, some tvy =>
    let changedX ← setType x tvy.ty
    let changedY ← setType y tvx.ty
    return changedX || changedY

/-- `Solver::identical`. -/
def identical (x y : ℕ) : SolverM Bool := do
  let a ← get
  match a.assignment x, a.assignment y with
  | none, none => return false
  | some tvx, none => setTypeValue y tvx
  | none, some tvy => setTypeValue x tvy
  | some tvx, some tvy =>
    let changedX ← setTypeValue x tvy
    let changedY ← setTypeValue y tvx
    return changedX || changedY

/-- `Solver::width_of`. -/
def widthOf (x w : ℕ) : SolverM Bool := do
  let a ← get
  match a.assignment x, a.assignment w with
  | some (.type (.bitVector (.bits width))), _ | some (.value (.bitVector width _)), _ =>
    setIntValue w width
  | _, some (.value (.int v)) =>
    let bits ← unwrap (tryIntoUsize v)
    setBitVectorWidth x bits
  | _, _ => return false

/-- `Solver::concat`: two known widths give the third, and three are checked. -/
def concat (x l r : ℕ) : SolverM Bool := do
  let a ← get
  match a.bitVectorWidth x, a.bitVectorWidth l, a.bitVectorWidth r with
  | none, some lw, some rw =>
    let bits ← unwrap (checkedAdd lw rw)
    setBitVectorWidth x bits
  | some xw, none, some rw =>
    match checkedSub xw rw with
    | some bits => setBitVectorWidth l bits
    | none => throw (.inapplicable ⟨l⟩)
  | some xw, some lw, none =>
    match checkedSub xw lw with
    | some bits => setBitVectorWidth r bits
    | none => throw (.inapplicable ⟨r⟩)
  | some xw, some lw, some rw =>
    let sum ← unwrap (checkedAdd lw rw)
    if xw ≠ sum then throw (.inapplicable ⟨x⟩) else return false
  | _, _, _ => return false

/-- `Solver::implies`, given the method of the constraint it guards. -/
def implies (c : ℕ) («then» : SolverM Bool) : SolverM Bool := do
  let a ← get
  if a.boolValue c = some true then «then» else return false

/-- The loop of `Solver::clause`: `none` when it returns `Ok(false)` early, on a true literal or
a second unknown one, and otherwise the unknown literal it found, if any. -/
def clauseUnknown (a : Assignment) : List Literal → Option Literal → Option (Option Literal)
  | [], unknown => some unknown
  | lit :: lits, unknown =>
    match a.literal lit, unknown with
    | some true, _ => none
    | some false, _ => clauseUnknown a lits unknown
    | none, none => clauseUnknown a lits (some lit)
    | none, some _ => none

/-- `Solver::clause`: a clause with one unknown literal and the others false makes it true. -/
def clause (literals : List Literal) : SolverM Bool := do
  let a ← get
  match clauseUnknown a literals none with
  | some (some lit) => setLiteral lit true
  | _ => return false

/-- `Solver::constraint`. -/
def constraint : Constraint → SolverM Bool
  | .type x ty => setType x ty
  | .sameType x y => sameType x y
  | .identical x y => identical x y
  | .widthOf x w => widthOf x w
  | .concat x l r => concat x l r
  | .value x c => setValue x c
  | .implies c «then» => implies c (constraint «then»)
  | .clause literals => clause literals

/-- `Solver::iterate`: apply every constraint once, and report whether any changed the
assignment. -/
def iterate (constraints : List Constraint) : SolverM Bool :=
  constraints.foldlM (fun change c => do
    let changed ← constraint c
    return change || changed) false

/-! ### Methods that raise the assignment -/

/-- A method that raises the assignment at the expressions `exprs`: every run that does not
panic leaves an assignment above the one it started from, and equal to it off `exprs`; one that
returns `Ok(false)` leaves the assignment as it was, and one that returns `Ok(true)` changes
it. -/
structure Raises (exprs : Finset ℕ) (x : SolverM Bool) : Prop where
  le : ∀ {a r a'}, x.runFrom a = some (r, a') → a ≤ a'
  frame : ∀ {a r a'}, x.runFrom a = some (r, a') → ∀ k ∉ exprs, a'.assignment k = a.assignment k
  eq_of_false : ∀ {a a'}, x.runFrom a = some (.ok false, a') → a' = a
  changed_of_true : ∀ {a a'}, x.runFrom a = some (.ok true, a') →
    ∃ k, a'.assignment k ≠ a.assignment k

/-- A change survives a later raise: once an entry has grown it cannot come back. -/
theorem Assignment.ne_of_le_of_ne {a a₁ a' : Assignment} (h₁ : a ≤ a₁) (h₂ : a₁ ≤ a') {k : ℕ}
    (hk : a₁.assignment k ≠ a.assignment k) : a'.assignment k ≠ a.assignment k := by
  intro heq
  have hback : OptLe (a₁.assignment k) (a.assignment k) := heq ▸ h₂ k
  exact hk (hback.antisymm (h₁ k))

namespace Raises

variable {I J : Finset ℕ} {x y : SolverM Bool}

theorem mono (h : Raises I x) (hIJ : I ⊆ J) : Raises J x where
  le := h.le
  frame hr k hk := h.frame hr k fun hkI => hk (hIJ hkI)
  eq_of_false := h.eq_of_false
  changed_of_true := h.changed_of_true

theorem pure_false : Raises ∅ (pure false) where
  le hr := by
    obtain ⟨-, rfl⟩ := Prod.mk.inj (Option.some.inj hr)
    exact le_rfl
  frame hr _ _ := by
    obtain ⟨-, rfl⟩ := Prod.mk.inj (Option.some.inj hr)
    rfl
  eq_of_false hr := (Prod.mk.inj (Option.some.inj hr)).2.symm
  changed_of_true hr := by cases (Prod.mk.inj (Option.some.inj hr)).1

theorem throw (e : Status) : Raises ∅ (throw e) where
  le hr := by
    obtain ⟨-, rfl⟩ := Prod.mk.inj (Option.some.inj hr)
    exact le_rfl
  frame hr _ _ := by
    obtain ⟨-, rfl⟩ := Prod.mk.inj (Option.some.inj hr)
    rfl
  eq_of_false hr := by cases (Prod.mk.inj (Option.some.inj hr)).1
  changed_of_true hr := by cases (Prod.mk.inj (Option.some.inj hr)).1

/-- A method that reads the assignment and then raises it. -/
theorem get_bind {f : Assignment → SolverM Bool} (h : ∀ a, Raises I (f a)) :
    Raises I (get >>= f) where
  le {a _ _} hr := (h a).le hr
  frame {a _ _} hr := (h a).frame hr
  eq_of_false {a _} hr := (h a).eq_of_false hr
  changed_of_true {a _} hr := (h a).changed_of_true hr

/-- A method that unwraps an option and then raises the assignment; a `None` panics. -/
theorem unwrap_bind {α : Type} {o : Option α} {f : α → SolverM Bool} (h : ∀ v, Raises I (f v)) :
    Raises I (unwrap o >>= f) := by
  cases o with
  | none =>
    refine ⟨fun hr => ?_, fun hr => ?_, fun hr => ?_, fun hr => ?_⟩ <;>
      simp only [SolverM.runFrom_unwrap_none_bind, reduceCtorEq] at hr
  | some v => exact ⟨(h v).le, (h v).frame, (h v).eq_of_false, (h v).changed_of_true⟩

/-- The runs of `x? | y?`: an error of `x`, an error of `y` after `x`, or both results. -/
theorem or_cases {a a' : Assignment} {r : Except Status Bool}
    (hr : (do let b₁ ← x; let b₂ ← y; return b₁ || b₂ : SolverM Bool).runFrom a = some (r, a')) :
    (∃ e, r = .error e ∧ x.runFrom a = some (.error e, a')) ∨
      (∃ v a₁ e, r = .error e ∧ x.runFrom a = some (.ok v, a₁) ∧
        y.runFrom a₁ = some (.error e, a')) ∨
      ∃ v a₁ w, r = .ok (v || w) ∧ x.runFrom a = some (.ok v, a₁) ∧
        y.runFrom a₁ = some (.ok w, a') := by
  rcases SolverM.runFrom_bind_eq_some hr with ⟨e, rfl, hx⟩ | ⟨v, a₁, hx, hr⟩
  · exact .inl ⟨e, rfl, hx⟩
  · rcases SolverM.runFrom_bind_eq_some hr with ⟨e, rfl, hy⟩ | ⟨w, a₂, hy, hr⟩
    · exact .inr (.inl ⟨v, a₁, e, rfl, hx, hy⟩)
    · obtain ⟨rfl, rfl⟩ := Prod.mk.inj (Option.some.inj hr)
      exact .inr (.inr ⟨v, a₁, w, rfl, hx, hy⟩)

/-- **Two methods one after the other**, reporting a change when either does, as
`Ok(x? | y?)`. -/
theorem or (hx : Raises I x) (hy : Raises J y) :
    Raises (I ∪ J) (do let b₁ ← x; let b₂ ← y; return b₁ || b₂) where
  le hr := by
    rcases or_cases hr with ⟨_, -, hx'⟩ | ⟨_, _, _, -, hx', hy'⟩ | ⟨_, _, _, -, hx', hy'⟩
    · exact hx.le hx'
    · exact (hx.le hx').trans (hy.le hy')
    · exact (hx.le hx').trans (hy.le hy')
  frame hr k hk := by
    have hkI : k ∉ I := fun h => hk (Finset.mem_union_left J h)
    have hkJ : k ∉ J := fun h => hk (Finset.mem_union_right I h)
    rcases or_cases hr with ⟨_, -, hx'⟩ | ⟨_, _, _, -, hx', hy'⟩ | ⟨_, _, _, -, hx', hy'⟩
    · exact hx.frame hx' k hkI
    · exact (hy.frame hy' k hkJ).trans (hx.frame hx' k hkI)
    · exact (hy.frame hy' k hkJ).trans (hx.frame hx' k hkI)
  eq_of_false hr := by
    rcases or_cases hr with ⟨_, h, -⟩ | ⟨_, _, _, h, -⟩ | ⟨v, _, w, h, hx', hy'⟩
    · cases h
    · cases h
    · -- both report no change
      obtain ⟨rfl, rfl⟩ : v = false ∧ w = false := by simpa using (Except.ok.inj h).symm
      exact (hy.eq_of_false hy').trans (hx.eq_of_false hx')
  changed_of_true hr := by
    rcases or_cases hr with ⟨_, h, -⟩ | ⟨_, _, _, h, -⟩ | ⟨v, a₁, w, h, hx', hy'⟩
    · cases h
    · cases h
    · cases v
      · -- `x` changed nothing, so the change is `y`'s
        have hw : w = true := by simpa using (Except.ok.inj h).symm
        subst hw
        rw [← hx.eq_of_false hx']
        exact hy.changed_of_true hy'
      · obtain ⟨k, hk⟩ := hx.changed_of_true hx'
        exact ⟨k, Assignment.ne_of_le_of_ne (hx.le hx') (hy.le hy') hk⟩

end Raises

/-! ### `set_type_value` -/

/-- A merge is above the type value it merges into. -/
theorem le_of_merge_eq_some {existing tv merged : TypeValue}
    (h : TypeValue.merge existing tv = some merged) : existing ≤ merged :=
  (PartialCmp.isLUB_of_merge_eq_some TypeValue.lawful.compares h).1 (Set.mem_insert _ _)

/-- **What `set_type_value` does**, case by case. -/
theorem setTypeValue_runFrom (x : ℕ) (tv : TypeValue) (a : Assignment) :
    (setTypeValue x tv).runFrom a =
      match a.assignment x with
      | none => some (.ok true, a.insert x tv)
      | some existing =>
        match TypeValue.merge existing tv with
        | none => some (.error (if !existing.ty.isCompatibleWith tv.ty then .typeError ⟨x⟩
            else .inapplicable ⟨x⟩), a)
        | some merged =>
          if merged ≠ existing then some (.ok true, a.insert x merged) else some (.ok false, a) := by
  simp only [setTypeValue, SolverM.runFrom_get_bind]
  cases a.assignment x with
  | none => rfl
  | some existing =>
    simp only
    cases TypeValue.merge existing tv with
    | none => rfl
    | some merged =>
      simp only
      by_cases h : merged ≠ existing
      · rw [if_pos h, if_pos h]
        rfl
      · rw [if_neg h, if_neg h]
        rfl

/-- The runs of `set_type_value` that return: a first entry, a strict raise, no change, or an
error that leaves the assignment. -/
theorem setTypeValue_cases {x : ℕ} {tv : TypeValue} {a a' : Assignment} {r : Except Status Bool}
    (hr : (setTypeValue x tv).runFrom a = some (r, a')) :
    (a.assignment x = none ∧ r = .ok true ∧ a' = a.insert x tv) ∨
      (∃ existing merged, a.assignment x = some existing ∧ existing < merged ∧ r = .ok true ∧
        a' = a.insert x merged) ∨
      (∃ existing, a.assignment x = some existing ∧ r = .ok false ∧ a' = a) ∨
      (∃ e, r = .error e ∧ a' = a) := by
  rw [setTypeValue_runFrom] at hr
  split at hr
  · rename_i hx
    obtain ⟨rfl, rfl⟩ := Prod.mk.inj (Option.some.inj hr)
    exact .inl ⟨hx, rfl, rfl⟩
  · rename_i existing hx
    split at hr
    · obtain ⟨rfl, rfl⟩ := Prod.mk.inj (Option.some.inj hr)
      exact .inr (.inr (.inr ⟨_, rfl, rfl⟩))
    · rename_i merged hm
      split at hr
      · rename_i hne
        obtain ⟨rfl, rfl⟩ := Prod.mk.inj (Option.some.inj hr)
        have hlt : existing < merged := lt_of_le_of_ne (le_of_merge_eq_some hm) (Ne.symm hne)
        exact .inr (.inl ⟨existing, merged, hx, hlt, rfl, rfl⟩)
      · obtain ⟨rfl, rfl⟩ := Prod.mk.inj (Option.some.inj hr)
        exact .inr (.inr (.inl ⟨existing, hx, rfl, rfl⟩))

/-- **`set_type_value` reports a change exactly when it adds an entry or raises the entry of the
expression strictly.** -/
theorem setTypeValue_change_iff {x : ℕ} {tv : TypeValue} {a a' : Assignment} {change : Bool}
    (hr : (setTypeValue x tv).runFrom a = some (.ok change, a')) :
    change = true ↔ a.assignment x = none ∨
      ∃ existing merged, a.assignment x = some existing ∧ a'.assignment x = some merged ∧
        existing < merged := by
  rcases setTypeValue_cases hr with ⟨hx, h, rfl⟩ | ⟨e, m, hx, hlt, h, rfl⟩ | ⟨e, hx, h, rfl⟩ |
    ⟨_, h, -⟩
  · cases h
    exact iff_of_true rfl (.inl hx)
  · cases h
    exact iff_of_true rfl (.inr ⟨e, m, hx, assignment_insert_self _ _ _, hlt⟩)
  · cases h
    -- the entry is the same before and after, so it is not raised
    refine iff_of_false Bool.false_ne_true ?_
    rintro (hnone | ⟨e', m', he', hm', hlt⟩)
    · rw [hx] at hnone
      cases hnone
    · rw [hx] at he'
      rw [hx] at hm'
      cases he'
      cases hm'
      exact lt_irrefl _ hlt
  · cases h

theorem raises_setTypeValue (x : ℕ) (tv : TypeValue) : Raises {x} (setTypeValue x tv) where
  le hr := by
    rcases setTypeValue_cases hr with ⟨hx, -, rfl⟩ | ⟨e, m, hx, hlt, -, rfl⟩ | ⟨-, -, -, rfl⟩ |
      ⟨-, -, rfl⟩
    · exact le_insert (by rw [hx]; exact optLe_none _)
    · exact le_insert (by rw [hx]; exact optLe_some_some.mpr hlt.le)
    · exact le_rfl
    · exact le_rfl
  frame hr k hk := by
    have hkx : k ≠ x := fun h => hk (Finset.mem_singleton.mpr h)
    rcases setTypeValue_cases hr with ⟨-, -, rfl⟩ | ⟨-, -, -, -, -, rfl⟩ | ⟨-, -, -, rfl⟩ |
      ⟨-, -, rfl⟩
    · exact assignment_insert_ne _ _ hkx
    · exact assignment_insert_ne _ _ hkx
    · rfl
    · rfl
  eq_of_false hr := by
    rcases setTypeValue_cases hr with ⟨-, h, -⟩ | ⟨-, -, -, -, h, -⟩ | ⟨-, -, -, rfl⟩ | ⟨_, h, -⟩
    · cases h
    · cases h
    · rfl
    · cases h
  changed_of_true hr := by
    refine ⟨x, ?_⟩
    rcases setTypeValue_cases hr with ⟨hx, -, rfl⟩ | ⟨e, m, hx, hlt, -, rfl⟩ | ⟨-, -, h, -⟩ |
      ⟨_, h, -⟩
    · rw [assignment_insert_self, hx]
      exact Option.some_ne_none _
    · rw [assignment_insert_self, hx]
      exact fun h => hlt.ne (Option.some.inj h).symm
    · cases h
    · cases h

/-! ### Every constraint raises the assignment -/

theorem raises_setLiteral (lit : Literal) (b : Bool) : Raises {lit.expr} (setLiteral lit b) := by
  cases lit with
  | var x => exact raises_setTypeValue x _
  | not x => exact raises_setTypeValue x _

theorem raises_sameType (x y : ℕ) : Raises {x, y} (sameType x y) := by
  refine Raises.get_bind fun a => ?_
  split
  · exact Raises.pure_false.mono (Finset.empty_subset _)
  · exact (raises_setTypeValue y _).mono (by simp)
  · exact (raises_setTypeValue x _).mono (by simp)
  · exact ((raises_setTypeValue x _).or (raises_setTypeValue y _)).mono (by simp)

theorem raises_identical (x y : ℕ) : Raises {x, y} (identical x y) := by
  refine Raises.get_bind fun a => ?_
  split
  · exact Raises.pure_false.mono (Finset.empty_subset _)
  · exact (raises_setTypeValue y _).mono (by simp)
  · exact (raises_setTypeValue x _).mono (by simp)
  · exact ((raises_setTypeValue x _).or (raises_setTypeValue y _)).mono (by simp)

theorem raises_widthOf (x w : ℕ) : Raises {x, w} (widthOf x w) := by
  refine Raises.get_bind fun a => ?_
  split
  · exact (raises_setTypeValue w _).mono (by simp)
  · exact (raises_setTypeValue w _).mono (by simp)
  · exact Raises.unwrap_bind fun _ => (raises_setTypeValue x _).mono (by simp)
  · exact Raises.pure_false.mono (Finset.empty_subset _)

theorem raises_concat (x l r : ℕ) : Raises {x, l, r} (concat x l r) := by
  refine Raises.get_bind fun a => ?_
  split
  · exact Raises.unwrap_bind fun _ => (raises_setTypeValue x _).mono (by simp)
  · split
    · exact (raises_setTypeValue l _).mono (by simp)
    · exact (Raises.throw _).mono (Finset.empty_subset _)
  · split
    · exact (raises_setTypeValue r _).mono (by simp)
    · exact (Raises.throw _).mono (Finset.empty_subset _)
  · refine Raises.unwrap_bind fun _ => ?_
    split
    · exact (Raises.throw _).mono (Finset.empty_subset _)
    · exact Raises.pure_false.mono (Finset.empty_subset _)
  · exact Raises.pure_false.mono (Finset.empty_subset _)

theorem raises_implies {I : Finset ℕ} {t : SolverM Bool} (c : ℕ) (h : Raises I t) :
    Raises I (implies c t) := by
  refine Raises.get_bind fun a => ?_
  split
  · exact h
  · exact Raises.pure_false.mono (Finset.empty_subset _)

/-- The literal the loop of `clause` finds is one of the clause's. -/
theorem mem_of_clauseUnknown (a : Assignment) :
    ∀ {lits : List Literal} {unknown : Option Literal} {lit : Literal},
      clauseUnknown a lits unknown = some (some lit) → lit ∈ lits ∨ unknown = some lit
  | [], _, _, h => .inr (Option.some.inj h)
  | lit' :: lits, unknown, lit, h => by
    unfold clauseUnknown at h
    split at h
    · cases h
    · rcases mem_of_clauseUnknown a h with hmem | rfl
      · exact .inl (List.mem_cons_of_mem _ hmem)
      · exact .inr rfl
    · rcases mem_of_clauseUnknown a h with hmem | h'
      · exact .inl (List.mem_cons_of_mem _ hmem)
      · cases h'
        exact .inl List.mem_cons_self
    · cases h

theorem raises_clause (literals : List Literal) :
    Raises (literals.map Literal.expr).toFinset (clause literals) := by
  refine Raises.get_bind fun a => ?_
  split
  · rename_i lit hlit
    have hmem : lit ∈ literals := (mem_of_clauseUnknown a hlit).resolve_right (by simp)
    exact (raises_setLiteral lit true).mono
      (Finset.singleton_subset_iff.mpr (List.mem_toFinset.mpr (List.mem_map_of_mem hmem)))
  · exact Raises.pure_false.mono (Finset.empty_subset _)

/-- **Every constraint raises the assignment at its own expressions**, by induction on the
constraint: an implication raises where its consequence does. -/
theorem raises_constraint : ∀ c : Constraint, Raises c.exprs (constraint c)
  | .type x _ => raises_setTypeValue x _
  | .sameType x y => raises_sameType x y
  | .identical x y => raises_identical x y
  | .widthOf x w => raises_widthOf x w
  | .concat x l r => raises_concat x l r
  | .value x _ => raises_setTypeValue x _
  | .implies c «then» => raises_implies c (raises_constraint «then»)
  | .clause literals => raises_clause literals

/-- The fold of `iterate` from any first report: the report of the rest is or-ed to it. -/
theorem foldlM_change (cs : List Constraint) (b : Bool) :
    cs.foldlM (fun change c => do
        let changed ← constraint c
        return change || changed) b =
      (do let r ← cs.foldlM (fun change c => do
            let changed ← constraint c
            return change || changed) false
          return b || r) := by
  induction cs generalizing b with
  | nil => simp
  | cons c cs ih =>
    simp only [List.foldlM_cons, bind_assoc, pure_bind, Bool.false_or]
    congr 1
    funext changed
    rw [ih (b || changed), ih changed, bind_assoc]
    simp only [pure_bind, Bool.or_assoc]

theorem iterate_nil : iterate [] = pure false := rfl

theorem iterate_cons (c : Constraint) (cs : List Constraint) :
    iterate (c :: cs) = do
      let changed ← constraint c
      let r ← iterate cs
      return changed || r := by
  rw [iterate, List.foldlM_cons, bind_assoc]
  congr 1
  funext changed
  rw [pure_bind, Bool.false_or, foldlM_change]
  rfl

/-- **A round of propagation raises the assignment** at the expressions of the constraints,
and reports a change exactly when it makes one. -/
theorem raises_iterate : ∀ cs : List Constraint, Raises (Constraint.exprsOf cs) (iterate cs)
  | [] => iterate_nil ▸ Raises.pure_false
  | c :: cs => iterate_cons c cs ▸ (raises_constraint c).or (raises_iterate cs)

/-! ### Propagation -/

/-- The potential of an assignment over the expressions of the constraints: the sum of the
heights of what it knows of them, each counted one more, and none for an unknown one. -/
def potentialOf (cs : List Constraint) (a : Assignment) : ℕ :=
  potential TypeValue.height (Constraint.exprsOf cs) a.assignment

theorem potentialOf_le (cs : List Constraint) (a : Assignment) :
    potentialOf cs a ≤ 4 * (Constraint.exprsOf cs).card :=
  potential_le TypeValue.height_le_three _ _

/-- **A round that reports a change raises the potential**: the change is at one of the
expressions of the constraints, where the entry is added or raised strictly. -/
theorem potentialOf_lt_of_iterate {cs : List Constraint} {a a' : Assignment}
    (h : (iterate cs).runFrom a = some (.ok true, a')) : potentialOf cs a < potentialOf cs a' := by
  obtain ⟨k, hk⟩ := (raises_iterate cs).changed_of_true h
  have hmem : k ∈ Constraint.exprsOf cs := by
    by_contra hnot
    exact hk ((raises_iterate cs).frame h k hnot)
  exact potential_lt TypeValue.height_strictMono ((raises_iterate cs).le h) hmem (Ne.symm hk)

/-- `while self.iterate(constraints)? {}`, for at most `fuel` rounds: `true` when the loop ends,
and `false` when the fuel runs out first. -/
def propagateLoop (constraints : List Constraint) : ℕ → SolverM Bool
  | 0 => return false
  | fuel + 1 => do
    if ← iterate constraints then propagateLoop constraints fuel else return true

/-- `Solver::propagate`. The loop is given `4 * n + 1` rounds for the `n` expressions of the
constraints, which `propagateLoop_spec` shows is always enough. -/
def propagate (constraints : List Constraint) : SolverM Unit :=
  discard <| propagateLoop constraints (4 * (Constraint.exprsOf constraints).card + 1)

theorem propagateLoop_succ_runFrom (cs : List Constraint) (fuel : ℕ) (a : Assignment) :
    (propagateLoop cs (fuel + 1)).runFrom a =
      match (iterate cs).runFrom a with
      | none => none
      | some (.error e, a') => some (.error e, a')
      | some (.ok true, a') => (propagateLoop cs fuel).runFrom a'
      | some (.ok false, a') => some (.ok true, a') := by
  rw [propagateLoop, SolverM.runFrom_bind]
  rcases (iterate cs).runFrom a with _ | ⟨_ | (_ | _), a'⟩ <;> rfl

/-- **Enough fuel ends the loop, and more changes nothing**: with more rounds than the potential
can still rise, the loop does not run out of fuel, and any more fuel gives the same run.

**Proof sketch.** By induction on the fuel: a round that reports a change raises the potential,
which stays at most `4 * n`, so the rounds left still exceed what it can rise. -/
theorem propagateLoop_spec (cs : List Constraint) :
    ∀ (fuel : ℕ) (a : Assignment), 4 * (Constraint.exprsOf cs).card - potentialOf cs a < fuel →
      (∀ a', (propagateLoop cs fuel).runFrom a ≠ some (.ok false, a')) ∧
        ∀ m, fuel ≤ m → (propagateLoop cs m).runFrom a = (propagateLoop cs fuel).runFrom a
  | 0, _, hfuel => absurd hfuel (Nat.not_lt_zero _)
  | fuel + 1, a, hfuel => by
    have hstep : ∀ m, fuel ≤ m → (propagateLoop cs (m + 1)).runFrom a =
        (propagateLoop cs (fuel + 1)).runFrom a := by
      intro m hm
      rw [propagateLoop_succ_runFrom, propagateLoop_succ_runFrom]
      rcases hi : (iterate cs).runFrom a with _ | ⟨_ | (_ | _), a'⟩
      · rfl
      · rfl
      · rfl
      · -- the round raised the potential, so the rest of the loop has fuel to spare
        have hlt := potentialOf_lt_of_iterate hi
        have hle := potentialOf_le cs a'
        exact ((propagateLoop_spec cs fuel a' (by omega)).2 m hm)
    refine ⟨fun a' => ?_, fun m hm => ?_⟩
    · rw [propagateLoop_succ_runFrom]
      rcases hi : (iterate cs).runFrom a with _ | ⟨_ | (_ | _), a₁⟩
      · exact fun h => by cases h
      · exact fun h => by cases h
      · exact fun h => by cases h
      · have hlt := potentialOf_lt_of_iterate hi
        have hle := potentialOf_le cs a₁
        exact (propagateLoop_spec cs fuel a₁ (by omega)).1 a'
    · obtain ⟨m, rfl⟩ : ∃ m', m = m' + 1 := ⟨m - 1, by omega⟩
      exact hstep m (by omega)

/-- The loop raises the assignment. -/
theorem le_of_propagateLoop (cs : List Constraint) :
    ∀ {fuel : ℕ} {a a' : Assignment} {r : Except Status Bool},
      (propagateLoop cs fuel).runFrom a = some (r, a') → a ≤ a'
  | 0, _, _, _, h => by
    obtain ⟨-, rfl⟩ := Prod.mk.inj (Option.some.inj h)
    exact le_rfl
  | fuel + 1, a, a', r, h => by
    rw [propagateLoop_succ_runFrom] at h
    rcases hi : (iterate cs).runFrom a with _ | ⟨_ | (_ | _), a₁⟩ <;> rw [hi] at h
    · cases h
    · obtain ⟨-, rfl⟩ := Prod.mk.inj (Option.some.inj h)
      exact (raises_iterate cs).le hi
    · obtain ⟨-, rfl⟩ := Prod.mk.inj (Option.some.inj h)
      exact (raises_iterate cs).le hi
    · exact ((raises_iterate cs).le hi).trans (le_of_propagateLoop cs h)

/-- **The loop ends at a fixed point of `iterate`**: when it ends, a further round would
change nothing. -/
theorem iterate_of_propagateLoop (cs : List Constraint) :
    ∀ {fuel : ℕ} {a a' : Assignment}, (propagateLoop cs fuel).runFrom a = some (.ok true, a') →
      (iterate cs).runFrom a' = some (.ok false, a')
  | 0, _, _, h => by cases (Prod.mk.inj (Option.some.inj h)).1
  | fuel + 1, a, a', h => by
    rw [propagateLoop_succ_runFrom] at h
    rcases hi : (iterate cs).runFrom a with _ | ⟨_ | (_ | _), a₁⟩ <;> rw [hi] at h
    · cases h
    · cases (Prod.mk.inj (Option.some.inj h)).1
    · -- the last round changed nothing: it ran from the assignment it left
      obtain ⟨-, rfl⟩ := Prod.mk.inj (Option.some.inj h)
      rw [← (raises_iterate cs).eq_of_false hi] at hi
      exact hi
    · exact iterate_of_propagateLoop cs h

/-- The run of `propagate` is the run of its loop, with the loop's report dropped. -/
theorem propagate_runFrom (cs : List Constraint) (a : Assignment) :
    (propagate cs).runFrom a =
      match (propagateLoop cs (4 * (Constraint.exprsOf cs).card + 1)).runFrom a with
      | none => none
      | some (.error e, a') => some (.error e, a')
      | some (.ok _, a') => some (.ok (), a') := by
  rw [propagate, discard, LawfulFunctor.map_const, Function.comp_apply, map_eq_pure_bind,
    SolverM.runFrom_bind]
  rcases (propagateLoop cs _).runFrom a with _ | ⟨_ | _, a'⟩ <;> rfl

theorem le_of_propagate {cs : List Constraint} {a a' : Assignment} {r : Except Status Unit}
    (h : (propagate cs).runFrom a = some (r, a')) : a ≤ a' := by
  rw [propagate_runFrom] at h
  rcases hl : (propagateLoop cs _).runFrom a with _ | ⟨_ | _, a₁⟩ <;> rw [hl] at h
  · cases h
  · obtain ⟨-, rfl⟩ := Prod.mk.inj (Option.some.inj h)
    exact le_of_propagateLoop cs hl
  · obtain ⟨-, rfl⟩ := Prod.mk.inj (Option.some.inj h)
    exact le_of_propagateLoop cs hl

/-- **Propagation that succeeds ends at a fixed point of `iterate`.** Its loop cannot run out
of fuel, so it ended because a round changed nothing. -/
theorem iterate_of_propagate {cs : List Constraint} {a a' : Assignment}
    (h : (propagate cs).runFrom a = some (.ok (), a')) :
    (iterate cs).runFrom a' = some (.ok false, a') := by
  rw [propagate_runFrom] at h
  have hends := (propagateLoop_spec cs (4 * (Constraint.exprsOf cs).card + 1) a (by omega)).1
  rcases hl : (propagateLoop cs _).runFrom a with _ | ⟨_ | (_ | _), a₁⟩ <;> rw [hl] at h
  · cases h
  · cases (Prod.mk.inj (Option.some.inj h)).1
  · obtain ⟨-, rfl⟩ := Prod.mk.inj (Option.some.inj h)
    exact absurd hl (hends _)
  · obtain ⟨-, rfl⟩ := Prod.mk.inj (Option.some.inj h)
    exact iterate_of_propagateLoop cs hl

/-- Three rounds: `same_type` passes the type of `0` on to `1` only once `0` has a value. -/
example : ((propagate [.sameType 0 1, .value 0 (.int 3)]).runFrom Assignment.new).map
    (fun r => r.2.assignment 1) = some (some (.type .int)) := by decide

/-! ### Solving a system -/

variable {χ : Type}

/-- `Arm`: a choice and the constraints it adds. -/
structure Arm (χ : Type) where
  choice : χ
  constraints : List Constraint

/-- `Branch`: the arms of a choice. -/
structure Branch (χ : Type) where
  arms : List (Arm χ)

/-- `System`. -/
structure System (χ : Type) where
  choices : List χ
  constraints : List Constraint
  branches : List (Branch χ)

/-- `System::fork`: a system for each arm of the last branch, with the arm's constraints added,
its choice recorded when there are several arms, and the branch gone. `none` is the panic of
the `expect` when there is no branch. -/
def System.fork (sys : System χ) : Option (List (System χ)) := do
  let branch ← sys.branches.getLast?
  return branch.arms.map fun arm =>
    { constraints := sys.constraints ++ arm.constraints
      choices := if branch.arms.length > 1 then sys.choices ++ [arm.choice] else sys.choices
      branches := sys.branches.dropLast }

/-- A fork takes the last branch away from each of its systems. -/
theorem System.branches_of_mem_fork {sys child : System χ} {children : List (System χ)}
    (h : sys.fork = some children) (hc : child ∈ children) :
    child.branches = sys.branches.dropLast := by
  simp only [fork, Option.bind_eq_bind, Option.bind_eq_some_iff, Option.pure_def,
    Option.some.injEq] at h
  obtain ⟨branch, -, rfl⟩ := h
  obtain ⟨arm, -, rfl⟩ := List.mem_map.mp hc
  rfl

/-- `Solution`. -/
structure Solution (χ : Type) where
  status : Status
  choices : List χ
  assignment : Assignment

/-- `Solver`. -/
structure Solver where
  assignment : Assignment

/-- `Solver::new`. -/
def Solver.new : Solver := ⟨Assignment.new⟩

/-- `Solver::solve`: propagate the system's constraints, and then, if a branch is left, fork
and solve each arm from the assignment reached. A panic of any arm is a panic of the whole. The
recursion ends because each fork takes a branch away. -/
def Solver.solve (s : Solver) (sys : System χ) : Option (List (Solution χ)) :=
  match (propagate sys.constraints).runFrom s.assignment with
  | none => none
  | some (.error status, a) => some [⟨status, sys.choices, a⟩]
  | some (.ok _, a) =>
    if _hempty : sys.branches.isEmpty then
      some [⟨if a.isConcrete then .solved else .underconstrained, sys.choices, a⟩]
    else
      match _hfork : sys.fork with
      | none => none
      | some children =>
        (children.attach.mapM fun child => Solver.solve ⟨a⟩ child.1).map List.flatten
termination_by sys.branches.length
decreasing_by
  rw [System.branches_of_mem_fork _hfork child.2, List.length_dropLast]
  have hne : sys.branches.length ≠ 0 := by simpa using _hempty
  omega

/-- **Every solution is above the assignment solving started from**, by induction on the
branches left: propagation raises the assignment, and each arm is solved from where it left
off. -/
theorem Solver.le_of_mem_solve : ∀ (s : Solver) (sys : System χ) {sols : List (Solution χ)},
    s.solve sys = some sols → ∀ sol ∈ sols, s.assignment ≤ sol.assignment := by
  intro s sys
  induction s, sys using Solver.solve.induct with
  | case1 s sys hp =>
    intro sols h
    rw [Solver.solve, hp] at h
    cases h
  | case2 s sys status a hp =>
    intro sols h sol hsol
    rw [Solver.solve, hp] at h
    cases h
    rw [List.mem_singleton.mp hsol]
    exact le_of_propagate hp
  | case3 s sys _ a hp hb =>
    intro sols h sol hsol
    rw [Solver.solve, hp] at h
    simp only [dif_pos hb, Option.some.injEq] at h
    subst h
    rw [List.mem_singleton.mp hsol]
    exact le_of_propagate hp
  | case4 s sys _ a hp hb hf =>
    intro sols h
    rw [Solver.solve, hp] at h
    simp only [dif_neg hb] at h
    split at h
    · cases h
    · rename_i heq
      rw [heq] at hf
      cases hf
  | case5 s sys _ a hp hb children hf ih =>
    intro sols h sol hsol
    rw [Solver.solve, hp] at h
    simp only [dif_neg hb] at h
    split at h
    · rename_i heq
      rw [heq] at hf
      cases hf
    · rename_i children' heq
      obtain rfl : children' = children := Option.some.inj (heq.symm.trans hf)
      -- the solution is one of an arm, solved from the assignment propagation reached
      obtain ⟨solss, hmap, rfl⟩ := Option.map_eq_some_iff.mp h
      obtain ⟨l, hl, hsol⟩ := List.mem_flatten.mp hsol
      obtain ⟨child, -, hchild⟩ := List.mem_of_mapM_eq_some hmap l hl
      exact (le_of_propagate hp).trans (ih child hchild sol hsol)

/-- **Type propagation terminates and only raises what is known.** For every list of
constraints and every starting assignment, the loop of `propagate` ends within the rounds it is
given, and more rounds give the same run, so it is the run of the unbounded `while`; every
constraint raises the assignment at its own expressions and reports a change exactly when it
makes one, and `set_type_value` reports a change exactly when it adds an entry or raises the
one there strictly; propagation ends above where it started, and, when it succeeds, at a fixed
point of `iterate`. `solve`, whose recursion takes a branch away at each fork, returns
solutions that are all above the assignment it started from. -/
theorem propagate_terminates_raises {χ : Type} :
    (∀ (cs : List Constraint) (a a' : Assignment),
      (propagateLoop cs (4 * (Constraint.exprsOf cs).card + 1)).runFrom a ≠
        some (.ok false, a')) ∧
    (∀ (cs : List Constraint) (a : Assignment) (n : ℕ), 4 * (Constraint.exprsOf cs).card + 1 ≤ n →
      (propagateLoop cs n).runFrom a =
        (propagateLoop cs (4 * (Constraint.exprsOf cs).card + 1)).runFrom a) ∧
    (∀ c : Constraint, Raises c.exprs (constraint c)) ∧
    (∀ (x : ℕ) (tv : TypeValue) (a a' : Assignment) (change : Bool),
      (setTypeValue x tv).runFrom a = some (.ok change, a') →
        (change = true ↔ a.assignment x = none ∨
          ∃ existing merged, a.assignment x = some existing ∧ a'.assignment x = some merged ∧
            existing < merged)) ∧
    (∀ (cs : List Constraint) (a a' : Assignment) (r : Except Status Unit),
      (propagate cs).runFrom a = some (r, a') → a ≤ a') ∧
    (∀ (cs : List Constraint) (a a' : Assignment),
      (propagate cs).runFrom a = some (.ok (), a') →
        (iterate cs).runFrom a' = some (.ok false, a')) ∧
    (∀ (s : Solver) (sys : System χ) (sols : List (Solution χ)),
      s.solve sys = some sols → ∀ sol ∈ sols, s.assignment ≤ sol.assignment) := by
  -- the rounds `propagate` gives its loop exceed what the potential can still rise
  have hfuel : ∀ (cs : List Constraint) (a : Assignment),
      4 * (Constraint.exprsOf cs).card - potentialOf cs a < 4 * (Constraint.exprsOf cs).card + 1 :=
    fun _ _ => by omega
  exact ⟨fun cs a => (propagateLoop_spec cs _ a (hfuel cs a)).1,
    fun cs a => (propagateLoop_spec cs _ a (hfuel cs a)).2, raises_constraint,
    fun _ _ _ _ _ => setTypeValue_change_iff, fun _ _ _ _ => le_of_propagate,
    fun _ _ _ => iterate_of_propagate, fun s sys _ => Solver.le_of_mem_solve s sys⟩

end Cranelift.Veri.TypeInference
