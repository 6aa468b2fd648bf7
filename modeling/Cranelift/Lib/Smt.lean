import Mathlib.Logic.Function.Basic
import Mathlib.Algebra.Group.Nat.Defs
import Mathlib.Data.Nat.Notation

/-!
# SMT-LIB bit-vector terms and the models of a solver context

A semantics for the fragment of SMT-LIB that a program builds through a solver context: terms
over fixed-width bit-vectors and Booleans, a context of declared constants and assertions, and
the models of a context, the assignments of values to constants under which every assertion
holds.

Terms are untyped, as in SMT-LIB: evaluation checks the sorts and fails on an ill-sorted term,
as the solver rejects it. The bit-vector operations have their SMT-LIB meaning, which is that of
the core `BitVec` operations: a shift by at least the width gives zero (or the sign), and
`bvurem` by zero gives the dividend.

## Main definitions

* `Smt.Value`, `Smt.Term`, `Smt.Term.eval`, `Smt.Term.Holds`; `Smt.bvadd` and the other
  builders of terms.
* `Smt.Context`, `Smt.declareConst`, `Smt.assert` — a solver context and the commands that grow
  it, in the state monad `Smt.M`.
* `Smt.Models` — the models of a context.
* `Smt.Context.define`, `Smt.Context.defineIte` — a constant declared and asserted equal to a
  term, or to one of two terms by a condition.
* `Smt.Extension` — a model of a context extended to a model of a larger one.

## Main results

* `Smt.Term.eval_bin`, `Smt.Term.holds_eq_iff`, `Smt.Term.holds_ite_iff` and their siblings —
  evaluation one constructor at a time.
* `Smt.Term.eval_congr` — a term's value depends only on its constants.
* `Smt.Models.of_append` — a model of a context is a model of every context it extends.
* `Smt.Models.extend` — a model of a context whose assertions mention only declared constants
  stays a model when it is changed on fresh constants only.
* `Smt.Models.eq_of_define`, `Smt.Models.define` — in every model a defined constant has the
  value of its definition, and every model extends to one of the definition.
* `Smt.Models.eq_of_defineIte`, `Smt.Extension.defineIte` — the same for a constant defined by
  cases.
-/

namespace Smt

/-- The sorts of terms: bit-vectors of a width, and Booleans. -/
inductive Ty where
  | bitVec (w : ℕ)
  | bool
deriving DecidableEq, Repr

/-- The values of terms. -/
inductive Value where
  | bv (w : ℕ) (x : BitVec w)
  | bool (b : Bool)
deriving DecidableEq, Repr

/-- The sort of a value. -/
def Value.ty : Value → Ty
  | .bv w _ => .bitVec w
  | .bool _ => .bool

@[simp] theorem Value.ty_bv (w : ℕ) (x : BitVec w) : (Value.bv w x).ty = .bitVec w := rfl

@[simp] theorem Value.ty_bool (b : Bool) : (Value.bool b).ty = .bool := rfl

/-- A bit-vector value read at another, equal, width. -/
theorem Value.bv_cast {w v : ℕ} (h : w = v) (x : BitVec w) : Value.bv w x = .bv v (x.cast h) := by
  subst h
  rfl

/-- The binary bit-vector operations. -/
inductive BvBinOp where
  | add
  | sub
  | and
  | or
  | shl
  | lshr
  | ashr
  | urem
deriving DecidableEq, Repr

/-- `bvadd`, `bvsub`, `bvand`, `bvor`, `bvshl`, `bvlshr`, `bvashr` and `bvurem`. -/
def BvBinOp.apply {w : ℕ} : BvBinOp → BitVec w → BitVec w → BitVec w
  | .add, x, y => x + y
  | .sub, x, y => x - y
  | .and, x, y => x &&& y
  | .or, x, y => x ||| y
  | .shl, x, y => x <<< y
  | .lshr, x, y => x >>> y
  | .ashr, x, y => x.sshiftRight' y
  | .urem, x, y => x % y

/-- Terms over constants named by `N`. -/
inductive Term (N : Type) where
  | const (name : N)
  /-- A literal `(_ bvN w)`, `#x…` or `#b…` of width `w` and value `N`. -/
  | lit (width value : ℕ)
  /-- `((_ extract hi lo) x)`, with the indices as the `i32`s of the builder. -/
  | extract (hi lo : Int32) (x : Term N)
  | zeroExtend (padding : ℕ) (x : Term N)
  | bin (op : BvBinOp) (x y : Term N)
  | bvnot (x : Term N)
  | bvsle (x y : Term N)
  | eq (x y : Term N)
  | not (p : Term N)
  | ite (c t e : Term N)
deriving DecidableEq, Repr

section Builders

variable {N : Type}

/-! The methods of a solver context that build terms. -/

abbrev bvadd (x y : Term N) : Term N := .bin .add x y
abbrev bvsub (x y : Term N) : Term N := .bin .sub x y
abbrev bvand (x y : Term N) : Term N := .bin .and x y
abbrev bvor (x y : Term N) : Term N := .bin .or x y
abbrev bvshl (x y : Term N) : Term N := .bin .shl x y
abbrev bvlshr (x y : Term N) : Term N := .bin .lshr x y
abbrev bvashr (x y : Term N) : Term N := .bin .ashr x y
abbrev bvurem (x y : Term N) : Term N := .bin .urem x y

end Builders

namespace Term

variable {N : Type}

/-- The constants a term mentions. -/
def consts : Term N → List N
  | .const name => [name]
  | .lit _ _ => []
  | .extract _ _ x | .zeroExtend _ x | .bvnot x | .not x => x.consts
  | .bin _ x y | .bvsle x y | .eq x y => x.consts ++ y.consts
  | .ite c t e => c.consts ++ t.consts ++ e.consts

/-- The value of a term when each constant `n` has the value `ρ n`; `none` for an ill-sorted
term. -/
def eval (ρ : N → Value) : Term N → Option Value
  | .const name => some (ρ name)
  | .lit w n => some (.bv w (BitVec.ofNat w n))
  | .extract hi lo x =>
    match x.eval ρ with
    | some (.bv w a) =>
      if 0 ≤ lo.toInt ∧ lo.toInt ≤ hi.toInt ∧ hi.toInt < w then
        some (.bv (hi.toInt.toNat - lo.toInt.toNat + 1) (a.extractLsb hi.toInt.toNat lo.toInt.toNat))
      else none
    | _ => none
  | .zeroExtend i x =>
    match x.eval ρ with
    | some (.bv w a) => some (.bv (w + i) (a.setWidth (w + i)))
    | _ => none
  | .bin op x y =>
    match x.eval ρ, y.eval ρ with
    | some (.bv w a), some (.bv v b) =>
      if h : v = w then some (.bv w (op.apply a (b.cast h))) else none
    | _, _ => none
  | .bvnot x =>
    match x.eval ρ with
    | some (.bv w a) => some (.bv w (~~~a))
    | _ => none
  | .bvsle x y =>
    match x.eval ρ, y.eval ρ with
    | some (.bv w a), some (.bv v b) =>
      if h : v = w then some (.bool (a.sle (b.cast h))) else none
    | _, _ => none
  | .eq x y =>
    match x.eval ρ, y.eval ρ with
    | some a, some b => if a.ty = b.ty then some (.bool (decide (a = b))) else none
    | _, _ => none
  | .not p =>
    match p.eval ρ with
    | some (.bool b) => some (.bool !b)
    | _ => none
  | .ite c t e =>
    match c.eval ρ, t.eval ρ, e.eval ρ with
    | some (.bool b), some vt, some ve => if vt.ty = ve.ty then some (if b then vt else ve) else none
    | _, _, _ => none

-- The equation lemmas of `eval` are generated here, once, before the lemmas below unfold it
-- each in their own proof.
section
attribute [local simp] eval
end

/-- A term holds when it is a Boolean term with value true. -/
def Holds (ρ : N → Value) (t : Term N) : Prop := t.eval ρ = some (.bool true)

variable {ρ : N → Value} {x y : Term N}

/-! ### Evaluation, one constructor at a time -/

@[simp] theorem eval_const (name : N) : (const name).eval ρ = some (ρ name) := rfl

@[simp] theorem eval_lit (w n : ℕ) :
    (lit w n : Term N).eval ρ = some (.bv w (BitVec.ofNat w n)) := rfl

theorem eval_extract {w : ℕ} {a : BitVec w} (hx : x.eval ρ = some (.bv w a)) {hi lo : Int32}
    {h l : ℕ} (hh : hi.toInt = h) (hl : lo.toInt = l) (hlh : l ≤ h) (hhw : h < w) :
    (extract hi lo x).eval ρ = some (.bv (h - l + 1) (a.extractLsb h l)) := by
  have hcond : 0 ≤ lo.toInt ∧ lo.toInt ≤ hi.toInt ∧ hi.toInt < w := by omega
  have hh' : hi.toInt.toNat = h := by omega
  have hl' : lo.toInt.toNat = l := by omega
  simp only [eval, hx, if_pos hcond]
  rw [hh', hl']

theorem eval_bin {w : ℕ} {a b : BitVec w} (hx : x.eval ρ = some (.bv w a))
    (hy : y.eval ρ = some (.bv w b)) (op : BvBinOp) :
    (bin op x y).eval ρ = some (.bv w (op.apply a b)) := by
  simp [eval, hx, hy]

theorem eval_bvnot {w : ℕ} {a : BitVec w} (hx : x.eval ρ = some (.bv w a)) :
    (bvnot x).eval ρ = some (.bv w (~~~a)) := by
  simp [eval, hx]

theorem eval_bvsle {w : ℕ} {a b : BitVec w} (hx : x.eval ρ = some (.bv w a))
    (hy : y.eval ρ = some (.bv w b)) :
    (bvsle x y).eval ρ = some (.bool (a.sle b)) := by
  simp [eval, hx, hy]

theorem eval_eq {a b : Value} (hx : x.eval ρ = some a) (hy : y.eval ρ = some b)
    (hab : a.ty = b.ty) : (eq x y).eval ρ = some (.bool (decide (a = b))) := by
  simp [eval, hx, hy, hab]

theorem eval_eq_bv {w : ℕ} {a b : BitVec w} (hx : x.eval ρ = some (.bv w a))
    (hy : y.eval ρ = some (.bv w b)) : (eq x y).eval ρ = some (.bool (decide (a = b))) := by
  rw [eval_eq hx hy rfl]
  simp

theorem eval_not {p : Term N} {b : Bool} (hp : p.eval ρ = some (.bool b)) :
    (not p).eval ρ = some (.bool !b) := by
  simp [eval, hp]

theorem eval_ite {c t e : Term N} {b : Bool} {vt ve : Value} (hc : c.eval ρ = some (.bool b))
    (ht : t.eval ρ = some vt) (he : e.eval ρ = some ve) (hte : vt.ty = ve.ty) :
    (ite c t e).eval ρ = some (if b then vt else ve) := by
  simp [eval, hc, ht, he, hte]

/-! ### When assertions hold -/

/-- An equation of two terms of one sort holds exactly when their values are equal. -/
theorem holds_eq_iff {a b : Value} (hx : x.eval ρ = some a) (hy : y.eval ρ = some b)
    (hab : a.ty = b.ty) : (eq x y).Holds ρ ↔ a = b := by
  simp [Holds, eval_eq hx hy hab]

/-- A Boolean `ite` holds exactly when the branch its condition selects holds. -/
theorem holds_ite_iff {c t e : Term N} {b bt be : Bool} (hc : c.eval ρ = some (.bool b))
    (ht : t.eval ρ = some (.bool bt)) (he : e.eval ρ = some (.bool be)) :
    (ite c t e).Holds ρ ↔ if b then t.Holds ρ else e.Holds ρ := by
  cases b <;> simp [Holds, eval_ite hc ht he rfl, ht, he]

/-- A choice between two definitions of one constant holds exactly when the constant has the
value of the definition its condition selects. -/
theorem holds_ite_define_iff {c t e : Term N} {b : Bool} (hc : c.eval ρ = some (.bool b))
    {n : N} {w : ℕ} (hn : (ρ n).ty = .bitVec w) {vt ve : BitVec w}
    (ht : t.eval ρ = some (.bv w vt)) (he : e.eval ρ = some (.bv w ve)) :
    (ite c (eq (const n) t) (eq (const n) e)).Holds ρ ↔
      ρ n = .bv w (if b then vt else ve) := by
  have hnt := eval_eq (eval_const n) ht (by simpa using hn)
  have hne := eval_eq (eval_const n) he (by simpa using hn)
  rw [holds_ite_iff hc hnt hne]
  cases b <;> simp [Holds, hnt, hne]

/-- **Frame**: the value of a term depends only on the values of the constants it mentions. -/
theorem eval_congr {ρ ρ' : N → Value} :
    ∀ (t : Term N), (∀ n ∈ t.consts, ρ n = ρ' n) → t.eval ρ = t.eval ρ'
  | .const name, h => by simp [h name (by simp [consts])]
  | .lit _ _, _ => rfl
  | .extract _ _ x, h => by simp only [eval, eval_congr x (by simpa [consts] using h)]
  | .zeroExtend _ x, h => by simp only [eval, eval_congr x (by simpa [consts] using h)]
  | .bvnot x, h => by simp only [eval, eval_congr x (by simpa [consts] using h)]
  | .not x, h => by simp only [eval, eval_congr x (by simpa [consts] using h)]
  | .bin _ x y, h => by
    have hxy : ∀ n, n ∈ x.consts ∨ n ∈ y.consts → ρ n = ρ' n := by simpa [consts] using h
    simp only [eval, eval_congr x (fun n hn => hxy n (.inl hn)),
      eval_congr y (fun n hn => hxy n (.inr hn))]
  | .bvsle x y, h => by
    have hxy : ∀ n, n ∈ x.consts ∨ n ∈ y.consts → ρ n = ρ' n := by simpa [consts] using h
    simp only [eval, eval_congr x (fun n hn => hxy n (.inl hn)),
      eval_congr y (fun n hn => hxy n (.inr hn))]
  | .eq x y, h => by
    have hxy : ∀ n, n ∈ x.consts ∨ n ∈ y.consts → ρ n = ρ' n := by simpa [consts] using h
    simp only [eval, eval_congr x (fun n hn => hxy n (.inl hn)),
      eval_congr y (fun n hn => hxy n (.inr hn))]
  | .ite c t e, h => by
    have hcte : ∀ n, n ∈ c.consts ∨ n ∈ t.consts ∨ n ∈ e.consts → ρ n = ρ' n := by
      simpa [consts, or_assoc] using h
    simp only [eval, eval_congr c (fun n hn => hcte n (.inl hn)),
      eval_congr t (fun n hn => hcte n (.inr (.inl hn))),
      eval_congr e (fun n hn => hcte n (.inr (.inr hn)))]

end Term

/-! ### Solver contexts -/

/-- A solver context: the constants declared, with their sorts, and the assertions made, in
order. -/
structure Context (N : Type) where
  decls : List (N × Ty)
  asserts : List (Term N)

/-- Commands on a solver context. -/
abbrev M (N : Type) := StateM (Context N)

variable {N : Type}

/-- `declare-const`. -/
def declareConst (name : N) (σ : Ty) : M N Unit :=
  modify fun ctx => { ctx with decls := ctx.decls ++ [(name, σ)] }

/-- `assert`. -/
def assert (t : Term N) : M N Unit :=
  modify fun ctx => { ctx with asserts := ctx.asserts ++ [t] }

@[simp] theorem declareConst_run (name : N) (σ : Ty) (ctx : Context N) :
    (declareConst name σ).run ctx = ((), ⟨ctx.decls ++ [(name, σ)], ctx.asserts⟩) := rfl

@[simp] theorem assert_run (t : Term N) (ctx : Context N) :
    (assert t).run ctx = ((), ⟨ctx.decls, ctx.asserts ++ [t]⟩) := rfl

/-- The names a context declares. -/
def Context.names (ctx : Context N) : List N := ctx.decls.map Prod.fst

/-- Every assertion of the context mentions declared constants only, as the solver requires. -/
def Context.Closed (ctx : Context N) : Prop :=
  ∀ t ∈ ctx.asserts, ∀ n ∈ t.consts, n ∈ ctx.names

/-- `ρ` is a model of the context: each declared constant has a value of its sort, and every
assertion holds. -/
structure Models (ρ : N → Value) (ctx : Context N) : Prop where
  sorts : ∀ d ∈ ctx.decls, (ρ d.1).ty = d.2
  holds : ∀ t ∈ ctx.asserts, t.Holds ρ

/-- A model of an extended context is a model of the context it extends. -/
theorem Models.of_append {ρ : N → Value} {ctx : Context N} {ds : List (N × Ty)}
    {ts : List (Term N)} (h : Models ρ ⟨ctx.decls ++ ds, ctx.asserts ++ ts⟩) : Models ρ ctx where
  sorts d hd := h.sorts d (List.mem_append_left ds hd)
  holds t ht := h.holds t (List.mem_append_left ts ht)

/-- **Extension by fresh constants**: a model of a closed context, changed on undeclared names
only, stays a model; with the new declarations and assertions satisfied it models the extended
context. -/
theorem Models.extend {ρ ρ' : N → Value} {ctx : Context N} (h : Models ρ ctx)
    (hclosed : ctx.Closed) (hsame : ∀ n ∈ ctx.names, ρ' n = ρ n) {ds : List (N × Ty)}
    {ts : List (Term N)} (hds : ∀ d ∈ ds, (ρ' d.1).ty = d.2) (hts : ∀ t ∈ ts, t.Holds ρ') :
    Models ρ' ⟨ctx.decls ++ ds, ctx.asserts ++ ts⟩ where
  sorts d hd := by
    rcases List.mem_append.mp hd with hd | hd
    · rw [hsame d.1 (List.mem_map_of_mem hd)]
      exact h.sorts d hd
    · exact hds d hd
  holds t ht := by
    rcases List.mem_append.mp ht with ht | ht
    · have hframe : t.eval ρ' = t.eval ρ :=
        Term.eval_congr t fun n hn => hsame n (hclosed t ht n hn)
      rw [Term.Holds, hframe]
      exact h.holds t ht
    · exact hts t ht

/-- Assertions over the declared constants and the new ones keep a context closed. -/
theorem Context.Closed.append {ctx : Context N} (hclosed : ctx.Closed) {ds : List (N × Ty)}
    {ts : List (Term N)} (hts : ∀ t ∈ ts, ∀ m ∈ t.consts, m ∈ ctx.names ∨ m ∈ ds.map Prod.fst) :
    (⟨ctx.decls ++ ds, ctx.asserts ++ ts⟩ : Context N).Closed := by
  intro t ht m hm
  have hnames : (⟨ctx.decls ++ ds, ctx.asserts ++ ts⟩ : Context N).names =
      ctx.names ++ ds.map Prod.fst := List.map_append
  rw [hnames, List.mem_append]
  rcases List.mem_append.mp ht with ht | ht
  · exact .inl (hclosed t ht m hm)
  · exact hts t ht m hm

/-- `ρ'` extends the assignment `ρ` from `ctx` to `ctx'`: it is a model of the closed context
`ctx'`, which declares every constant of `ctx`, and it agrees with `ρ` on them. -/
structure Extension (ρ : N → Value) (ctx : Context N) (ρ' : N → Value) (ctx' : Context N) :
    Prop where
  models : Models ρ' ctx'
  closed : ctx'.Closed
  names_mono : ∀ m ∈ ctx.names, m ∈ ctx'.names
  agree : ∀ m ∈ ctx.names, ρ' m = ρ m

section Extension

variable {ρ ρ' ρ'' : N → Value} {ctx ctx' ctx'' : Context N}

theorem Extension.refl (h : Models ρ ctx) (hclosed : ctx.Closed) : Extension ρ ctx ρ ctx :=
  ⟨h, hclosed, fun _ hm => hm, fun _ _ => rfl⟩

theorem Extension.trans (h₁ : Extension ρ ctx ρ' ctx') (h₂ : Extension ρ' ctx' ρ'' ctx'') :
    Extension ρ ctx ρ'' ctx'' where
  models := h₂.models
  closed := h₂.closed
  names_mono m hm := h₂.names_mono m (h₁.names_mono m hm)
  agree m hm := (h₂.agree m (h₁.names_mono m hm)).trans (h₁.agree m hm)

/-- A term over the constants of `ctx` keeps its value in an extension. -/
theorem Extension.eval_eq (h : Extension ρ ctx ρ' ctx') {t : Term N}
    (ht : ∀ m ∈ t.consts, m ∈ ctx.names) : t.eval ρ' = t.eval ρ :=
  Term.eval_congr t fun m hm => h.agree m (ht m hm)

end Extension

/-! ### Definitions of constants -/

/-- Declaring a constant `n` of sort `σ` and asserting it equal to `t`: a definition. -/
def Context.define (ctx : Context N) (n : N) (σ : Ty) (t : Term N) : Context N :=
  ⟨ctx.decls ++ [(n, σ)], ctx.asserts ++ [.eq (.const n) t]⟩

section Define

variable {ρ : N → Value} {ctx : Context N} {n : N} {σ : Ty} {t : Term N}

@[simp] theorem Context.names_define : (ctx.define n σ t).names = ctx.names ++ [n] := by
  simp [Context.define, Context.names]

theorem Models.of_define (h : Models ρ (ctx.define n σ t)) : Models ρ ctx := Models.of_append h

/-- In a model of a definition, the constant has the value of its defining term. -/
theorem Models.eq_of_define {w : ℕ} {v : BitVec w} (h : Models ρ (ctx.define n (.bitVec w) t))
    (ht : t.eval ρ = some (.bv w v)) : ρ n = .bv w v := by
  have hsort : (ρ n).ty = .bitVec w :=
    h.sorts (n, .bitVec w) (List.mem_append_right _ (List.mem_singleton_self _))
  have hholds := h.holds _ (List.mem_append_right _ (List.mem_singleton_self _))
  exact (Term.holds_eq_iff (Term.eval_const n) ht (by simpa using hsort)).mp hholds

/-- A definition over declared constants keeps a context closed. -/
theorem Context.Closed.define (hclosed : ctx.Closed) (ht : ∀ m ∈ t.consts, m ∈ ctx.names) :
    (ctx.define n σ t).Closed := by
  intro a ha m hm
  rw [Context.names_define]
  rcases List.mem_append.mp ha with ha | ha
  · exact List.mem_append_left _ (hclosed a ha m hm)
  · rw [List.mem_singleton.mp ha] at hm
    -- the constants of `n = t` are `n` and those of `t`
    rcases List.mem_append.mp hm with hm | hm
    · rw [List.mem_singleton.mp hm]
      exact List.mem_append_right _ (List.mem_singleton_self _)
    · exact List.mem_append_left _ (ht m hm)

/-- **Definitional extension**: a model of a closed context, updated at a fresh constant to the
value of a term over declared constants, models the context extended by the definition. -/
theorem Models.define [DecidableEq N] (h : Models ρ ctx) (hclosed : ctx.Closed)
    (hn : n ∉ ctx.names) (ht : ∀ m ∈ t.consts, m ∈ ctx.names) {v : Value}
    (hv : t.eval ρ = some v) (hσ : v.ty = σ) :
    Models (Function.update ρ n v) (ctx.define n σ t) := by
  have hsame : ∀ m ∈ ctx.names, Function.update ρ n v m = ρ m := by
    intro m hm
    have hmn : m ≠ n := fun hmn => hn (hmn ▸ hm)
    exact Function.update_of_ne hmn _ _
  refine h.extend hclosed hsame ?_ ?_
  · intro d hd
    rw [List.mem_singleton.mp hd]
    simpa using hσ
  · intro a ha
    rw [List.mem_singleton.mp ha]
    have htv : t.eval (Function.update ρ n v) = some v := by
      rw [Term.eval_congr t fun m hm => hsame m (ht m hm), hv]
    exact (Term.holds_eq_iff (Term.eval_const n) htv (by simp)).mpr (by simp)

/-- A definition extends every model of a closed context in which its constant is fresh. -/
theorem Extension.define [DecidableEq N] (h : Models ρ ctx) (hclosed : ctx.Closed)
    (hn : n ∉ ctx.names) (ht : ∀ m ∈ t.consts, m ∈ ctx.names) {v : Value}
    (hv : t.eval ρ = some v) (hσ : v.ty = σ) :
    Extension ρ ctx (Function.update ρ n v) (ctx.define n σ t) where
  models := h.define hclosed hn ht hv hσ
  closed := hclosed.define ht
  names_mono m hm := by
    rw [Context.names_define]
    exact List.mem_append_left _ hm
  agree m hm := Function.update_of_ne (ne_of_mem_of_not_mem hm hn) _ _

end Define

/-! ### Conditional definitions of constants -/

/-- Declaring a constant `n` of sort `σ` and asserting it equal to `t` when `c` holds and to `e`
otherwise: a conditional definition. -/
def Context.defineIte (ctx : Context N) (n : N) (σ : Ty) (c t e : Term N) : Context N :=
  ⟨ctx.decls ++ [(n, σ)], ctx.asserts ++ [.ite c (.eq (.const n) t) (.eq (.const n) e)]⟩

section DefineIte

variable {ρ : N → Value} {ctx : Context N} {n : N} {σ : Ty} {c t e : Term N}

@[simp] theorem Context.names_defineIte : (ctx.defineIte n σ c t e).names = ctx.names ++ [n] := by
  simp [Context.defineIte, Context.names]

theorem Models.of_defineIte (h : Models ρ (ctx.defineIte n σ c t e)) : Models ρ ctx :=
  Models.of_append h

/-- In a model of a conditional definition, the constant has the value of the term its
condition selects. -/
theorem Models.eq_of_defineIte {b : Bool} {w : ℕ} {vt ve : BitVec w}
    (h : Models ρ (ctx.defineIte n (.bitVec w) c t e)) (hc : c.eval ρ = some (.bool b))
    (ht : t.eval ρ = some (.bv w vt)) (he : e.eval ρ = some (.bv w ve)) :
    ρ n = .bv w (if b then vt else ve) :=
  (Term.holds_ite_define_iff hc
      (h.sorts (n, .bitVec w) (List.mem_append_right _ (List.mem_singleton_self _))) ht he).mp
    (h.holds _ (List.mem_append_right _ (List.mem_singleton_self _)))

/-- A conditional definition over declared constants keeps a context closed. -/
theorem Context.Closed.defineIte (hclosed : ctx.Closed) (hc : ∀ m ∈ c.consts, m ∈ ctx.names)
    (ht : ∀ m ∈ t.consts, m ∈ ctx.names) (he : ∀ m ∈ e.consts, m ∈ ctx.names) :
    (ctx.defineIte n σ c t e).Closed := by
  refine hclosed.append fun a ha m hm => ?_
  rw [List.mem_singleton.mp ha] at hm
  simp only [List.map_cons, List.map_nil, List.mem_singleton]
  by_cases hmn : m = n
  · exact .inr hmn
  · -- a constant other than `n` is one of the condition's or the branches'
    simp only [Term.consts, List.mem_append, List.mem_singleton, hmn, false_or] at hm
    rcases hm with (hm | hm) | hm
    · exact .inl (hc m hm)
    · exact .inl (ht m hm)
    · exact .inl (he m hm)

/-- **Conditional definitional extension**: a model of a closed context, updated at a fresh
constant to the value of the term the condition selects, extends to the conditional
definition. -/
theorem Extension.defineIte [DecidableEq N] (h : Models ρ ctx) (hclosed : ctx.Closed)
    (hn : n ∉ ctx.names) (hcc : ∀ m ∈ c.consts, m ∈ ctx.names)
    (htc : ∀ m ∈ t.consts, m ∈ ctx.names) (hec : ∀ m ∈ e.consts, m ∈ ctx.names) {b : Bool}
    {w : ℕ} {vt ve : BitVec w} (hc : c.eval ρ = some (.bool b))
    (ht : t.eval ρ = some (.bv w vt)) (he : e.eval ρ = some (.bv w ve)) :
    Extension ρ ctx (Function.update ρ n (.bv w (if b then vt else ve)))
      (ctx.defineIte n (.bitVec w) c t e) := by
  have hsame : ∀ m ∈ ctx.names, Function.update ρ n (.bv w (if b then vt else ve)) m = ρ m :=
    fun m hm => Function.update_of_ne (ne_of_mem_of_not_mem hm hn) _ _
  have hframe : ∀ u : Term N, (∀ m ∈ u.consts, m ∈ ctx.names) →
      u.eval (Function.update ρ n (.bv w (if b then vt else ve))) = u.eval ρ :=
    fun u hu => Term.eval_congr u fun m hm => hsame m (hu m hm)
  refine ⟨h.extend hclosed hsame ?_ ?_, hclosed.defineIte hcc htc hec, fun m hm => ?_, hsame⟩
  · intro d hd
    rw [List.mem_singleton.mp hd]
    simp
  · intro a ha
    rw [List.mem_singleton.mp ha]
    have hsort : (Function.update ρ n (.bv w (if b then vt else ve)) n).ty = .bitVec w := by simp
    exact (Term.holds_ite_define_iff (by rw [hframe c hcc, hc]) hsort
      (by rw [hframe t htc, ht]) (by rw [hframe e hec, he])).mpr (by simp)
  · rw [Context.names_defineIte]
    exact List.mem_append_left _ hm

end DefineIte

end Smt
